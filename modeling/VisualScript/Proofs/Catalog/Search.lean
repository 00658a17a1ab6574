import Mathlib.Data.List.Basic
import Mathlib.Logic.Relation
import VisualScript.Proofs.Catalog.Closure

/-!
# The search for a base

`isSubtype` crosses off each entry whose bases it has taken. The same answer comes from a queue of types and the
names met so far, and this form says how long the search takes: a type that leaves the queue is compared as a
whole, and its bases join the queue if its name is new. Types of one name have the same bases, whatever their
arguments, so nothing is missed by that.

* `Search.turn` is what happens to the type at the front.
* `Search.cost_turn`: each turn takes one off what is left to do, so the declared bases bound the turns.
* `Search.finds_turn`: no turn loses the target or makes one up.
* `isSubtype_iff_transGen` joins both: within that many turns the search answers, and the answer is the transitive
  closure of the declared bases.
-/

namespace VisualScript.MemoryCatalog

open Relation

/-- Where a search stands. -/
structure Search where
  /-- The names whose bases have been put in the queue. -/
  seen : List String
  queue : List TypeSpec

namespace Search

/-- Takes the type at the front of `queue`: an answer, or how the search goes on. -/
def turn (c : MemoryCatalog) (target : TypeSpec) (s : Search) : Bool ⊕ Search :=
  match s.queue with
  | [] => .inl false
  | t :: queue =>
    if t.Same target then .inl true
    else if t.name ∈ s.seen then .inr ⟨s.seen, queue⟩
    else .inr ⟨t.name :: s.seen, queue ++ c.basesOf t⟩

/-- The answer, if a `turn` gives one within so many turns. -/
def answer (c : MemoryCatalog) (target : TypeSpec) : (turns : Nat) → Search → Option Bool
  | 0, _ => none
  | turns + 1, s =>
    match s.turn c target with
    | .inl found => some found
    | .inr s => s.answer c target turns

/-- The entries of names that are not in `seen`. -/
def unseen (c : MemoryCatalog) (seen : List String) : List CatalogEntry := c.entries.filter (·.name ∉ seen)

/-- How many types can still leave `queue`. -/
def cost (c : MemoryCatalog) (s : Search) : Nat :=
  s.queue.length + ((unseen c s.seen).flatMap (·.bases)).length

/-- A type in `queue` `Ascends` to the target among the `unseen` entries. -/
def Finds (c : MemoryCatalog) (target : TypeSpec) (s : Search) : Prop :=
  ∃ t ∈ s.queue, Ascends (unseen c s.seen) t target

variable {c : MemoryCatalog} {target t : TypeSpec} {s s' : Search} {seen : List String} {queue : List TypeSpec}
  {name : String} {e : CatalogEntry}

/-- What a `turn` without an answer does. -/
theorem turn_eq_inr (h : s.turn c target = .inr s') :
    ∃ t queue, s.queue = t :: queue ∧ ¬ t.Same target ∧
      ((t.name ∈ s.seen ∧ s' = ⟨s.seen, queue⟩) ∨
        (t.name ∉ s.seen ∧ s' = ⟨t.name :: s.seen, queue ++ c.basesOf t⟩)) := by
  unfold turn at h
  split at h
  · cases h
  · rename_i t queue hqueue
    split_ifs at h with ht hseen
    · exact ⟨t, queue, hqueue, ht, Or.inl ⟨hseen, (Sum.inr.inj h).symm⟩⟩
    · exact ⟨t, queue, hqueue, ht, Or.inr ⟨hseen, (Sum.inr.inj h).symm⟩⟩

theorem unseen_nil : unseen c [] = c.entries := List.filter_eq_self.2 fun _ _ => by simp

theorem unseen_cons : unseen c (name :: seen) = without name (unseen c seen) := by
  unfold unseen without
  rw [List.filter_filter]
  congr 1
  funext e
  simp

theorem find?_unseen :
    (unseen c seen).find? (·.name = name) = if name ∈ seen then none else c.entry? name := by
  unfold unseen entry?
  rw [List.find?_filter]
  split_ifs with h
  · refine List.find?_eq_none.2 fun e _ he => ?_
    obtain ⟨hnot, hname⟩ : e.name ∉ seen ∧ e.name = name := by simpa using he
    exact hnot (hname ▸ h)
  · congr 1
    funext e
    by_cases he : e.name = name
    · simp [he, h]
    · simp [he]

/-- Nothing is lost `without` a name that has no entry. -/
theorem without_eq_self {left : List CatalogEntry} (h : left.find? (·.name = name) = none) :
    without name left = left := by
  refine List.filter_eq_self.2 fun e he => ?_
  have hne := List.find?_eq_none.1 h e he
  simpa using hne

/-! ### How long it takes -/

/-- `without` an entry there are so many bases less. -/
theorem length_flatMap_without {left : List CatalogEntry} (he : left.find? (·.name = name) = some e) :
    ((without name left).flatMap (·.bases)).length + e.bases.length ≤ (left.flatMap (·.bases)).length := by
  have hmem : e ∈ left.filter fun x => !decide (x.name ≠ name) := by
    refine List.mem_filter.2 ⟨List.mem_of_find?_eq_some he, ?_⟩
    simpa using List.find?_some he
  have hle : e.bases.length ≤ ((left.filter fun x => !decide (x.name ≠ name)).flatMap (·.bases)).length :=
    (List.sublist_flatten_of_mem (List.mem_map_of_mem hmem)).length_le
  -- the entries are those of the name and the others, in another order
  have hsplit := List.filter_append_perm (fun x : CatalogEntry => decide (x.name ≠ name)) left
  have hlength := (hsplit.flatMap_right (·.bases)).length_eq
  rw [List.flatMap_append, List.length_append] at hlength
  unfold without
  omega

/-- The bases that a new name brings to `queue` are those of an entry that is `unseen` no more. -/
theorem cost_queued (h : t.name ∉ seen) :
    cost c ⟨t.name :: seen, queue ++ c.basesOf t⟩ ≤ cost c ⟨seen, queue⟩ := by
  have hfind : (unseen c seen).find? (·.name = t.name) = c.entry? t.name := by rw [find?_unseen, if_neg h]
  unfold cost basesOf
  simp only [unseen_cons, List.length_append]
  cases he : c.entry? t.name with
  | none =>
    rw [he] at hfind
    rw [without_eq_self hfind]
    exact Nat.le_refl _
  | some e =>
    rw [he] at hfind
    have hlength := length_flatMap_without hfind
    simp only
    omega

/-- Each `turn` that gives no answer takes one off the `cost`. -/
theorem cost_turn (h : s.turn c target = .inr s') : s'.cost c < s.cost c := by
  obtain ⟨t, queue, hqueue, -, hnext⟩ := turn_eq_inr h
  have hpop : s.cost c = cost c ⟨s.seen, queue⟩ + 1 := by
    unfold cost
    rw [hqueue, List.length_cons]
    exact Nat.add_right_comm _ _ _
  rcases hnext with ⟨-, rfl⟩ | ⟨hnew, rfl⟩
  · omega
  · have hle : cost c ⟨t.name :: s.seen, queue ++ c.basesOf t⟩ ≤ cost c ⟨s.seen, queue⟩ := cost_queued hnew
    omega

/-! ### What it finds -/

/-- A `turn` that gives no answer leaves what the search `Finds` as it was. -/
theorem finds_turn (h : s.turn c target = .inr s') : s'.Finds c target ↔ s.Finds c target := by
  obtain ⟨t, queue, hqueue, ht, hnext⟩ := turn_eq_inr h
  -- a type without an entry leads nowhere, and it is not the target
  have hdrop : (unseen c s.seen).find? (·.name = t.name) = none →
      ((∃ u ∈ queue, Ascends (unseen c s.seen) u target) ↔ s.Finds c target) := by
    intro hnone
    have hnot : ¬ Ascends (unseen c s.seen) t target :=
      fun hasc => ht ((ascends_of_find?_eq_none hnone).1 hasc)
    unfold Finds
    rw [hqueue, List.exists_mem_cons_iff]
    exact (or_iff_right hnot).symm
  have hfind : (unseen c s.seen).find? (·.name = t.name) = if t.name ∈ s.seen then none else c.entry? t.name :=
    find?_unseen
  rcases hnext with ⟨hseen, rfl⟩ | ⟨hnew, rfl⟩
  · rw [if_pos hseen] at hfind
    exact hdrop hfind
  · rw [if_neg hnew] at hfind
    show (∃ u ∈ queue ++ c.basesOf t, Ascends (unseen c (t.name :: s.seen)) u target) ↔ _
    rw [unseen_cons]
    unfold basesOf
    cases he : c.entry? t.name with
    | none =>
      rw [he] at hfind
      rw [without_eq_self hfind, List.append_nil]
      exact hdrop hfind
    | some e =>
      -- the entry is taken, as in `reaches`
      rw [he] at hfind
      unfold Finds
      rw [hqueue]
      exact ascends_taken ht hfind

/-- The answer of a `turn` is right. -/
theorem finds_of_turn {found : Bool} (h : s.turn c target = .inl found) : found = true ↔ s.Finds c target := by
  unfold turn at h
  unfold Finds
  split at h
  · rename_i hqueue
    rw [← Sum.inl.inj h, hqueue]
    simp
  · rename_i t queue hqueue
    split_ifs at h with ht
    rw [← Sum.inl.inj h, hqueue]
    exact iff_of_true rfl ⟨t, List.mem_cons_self, t, .refl, ht⟩

/-- With more turns than its `cost` the search answers, and it is right. -/
theorem answer_eq_some {turns : Nat} (h : s.cost c < turns) :
    ∃ found, s.answer c target turns = some found ∧ (found = true ↔ s.Finds c target) := by
  induction turns generalizing s with
  | zero => omega
  | succ turns ih =>
    unfold answer
    cases hturn : s.turn c target with
    | inl found => exact ⟨found, rfl, finds_of_turn hturn⟩
    | inr s' =>
      have hcost : s'.cost c < s.cost c := cost_turn hturn
      obtain ⟨found, hanswer, hfound⟩ := ih (s := s') (by omega)
      exact ⟨found, hanswer, hfound.trans (finds_turn hturn)⟩

end Search

/-! ### The whole question -/

/-- `isSubtype` by `Search.answer`, if there is one within so many turns. -/
def isSubtypeWithin (c : MemoryCatalog) (turns : Nat) (a b : TypeSpec) : Option Bool :=
  if a.Same b then some false
  else if b.isObject then some (!a.isObject)
  else Search.answer c b turns ⟨[], c.basesOf a⟩

/-- How many bases the catalog declares. -/
def baseCount (c : MemoryCatalog) : Nat := (c.entries.flatMap (·.bases)).length

variable {c : MemoryCatalog} {a b s t u : TypeSpec}

theorem cost_start : Search.cost c ⟨[], c.basesOf a⟩ = (c.basesOf a).length + c.baseCount := by
  unfold Search.cost baseCount
  rw [Search.unseen_nil]

/-- At first the search `Finds` all that steps along `basesOf` lead to. -/
theorem finds_start :
    Search.Finds c b ⟨[], c.basesOf a⟩ ↔ ∃ u, TransGen (fun s t => t ∈ c.basesOf s) a u ∧ u.Same b := by
  have hbase : IsBase c.entries = fun s t => t ∈ c.basesOf s := by
    funext s t
    exact propext mem_basesOf.symm
  unfold Search.Finds Ascends
  rw [Search.unseen_nil, hbase]
  constructor
  · rintro ⟨t, ht, u, htu, hu⟩
    exact ⟨u, TransGen.head' ht htu, hu⟩
  · rintro ⟨u, hau, hu⟩
    obtain ⟨t, ht, htu⟩ := TransGen.head'_iff.1 hau
    exact ⟨t, ht, u, htu, hu⟩

/-- From `basesOf a` the search `Finds` what `isSubtype` does. -/
theorem finds_start_iff (hab : ¬ a.Same b) (hb : b.isObject = false) :
    Search.Finds c b ⟨[], c.basesOf a⟩ ↔ c.isSubtype a b = true := by
  rw [isSubtype_iff]
  unfold Search.Finds
  rw [Search.unseen_nil]
  simp [hab, hb]

theorem isSubtypeWithin_eq_some {turns : Nat} (h : (c.basesOf a).length + c.baseCount < turns) :
    c.isSubtypeWithin turns a b = some (c.isSubtype a b) := by
  by_cases hab : a.Same b
  · unfold isSubtypeWithin isSubtype
    rw [if_pos hab, if_pos hab]
  by_cases hb : b.isObject = true
  · unfold isSubtypeWithin isSubtype
    rw [if_neg hab, if_neg hab, if_pos hb, if_pos hb]
  · rw [← cost_start] at h
    obtain ⟨found, hanswer, hfound⟩ : ∃ found, Search.answer c b turns ⟨[], c.basesOf a⟩ = some found ∧ _ :=
      Search.answer_eq_some h
    have hsame : found = c.isSubtype a b :=
      Bool.eq_iff_iff.2 (hfound.trans (finds_start_iff hab (Bool.eq_false_iff.2 hb)))
    unfold isSubtypeWithin
    rw [if_neg hab, if_neg hb, hanswer, hsame]

theorem isObject_iff : t.isObject = true ↔ t.Same .object := by
  obtain ⟨name, args, isEnum⟩ := t
  cases args with
  | nil => simp [TypeSpec.isObject, TypeSpec.Same, TypeSpec.object, TypeSpec.erase, TypeArg.eraseAll]
  | cons arg args => simp [TypeSpec.isObject, TypeSpec.Same, TypeSpec.object, TypeSpec.erase, TypeArg.eraseAll]

/-- All types but `TypeSpec.object` itself derive from it. -/
theorem isSubtype_of_isObject (hab : ¬ a.Same b) (hb : b.isObject = true) : c.isSubtype a b = true := by
  have ha : a.isObject = false := by
    refine Bool.eq_false_iff.2 fun ha => hab ?_
    exact (isObject_iff.1 ha).trans (isObject_iff.1 hb).symm
  exact isSubtype_iff.2 ⟨hab, Or.inl ⟨hb, ha⟩⟩

/-- The search ends, in a number of turns that `baseCount` bounds. One type derives from another exactly if they
differ and the other is the root or steps along `basesOf` lead to it. -/
theorem isSubtype_iff_transGen (c : MemoryCatalog) (a b : TypeSpec) :
    (∀ turns, (c.basesOf a).length + c.baseCount < turns →
      c.isSubtypeWithin turns a b = some (c.isSubtype a b)) ∧
      (c.isSubtype a b = true ↔
        ¬ a.Same b ∧ (b.Same .object ∨ ∃ u, TransGen (fun s t => t ∈ c.basesOf s) a u ∧ u.Same b)) := by
  refine ⟨fun turns h => isSubtypeWithin_eq_some h, ?_⟩
  by_cases hab : a.Same b
  · simp [isSubtype_iff, hab]
  by_cases hb : b.isObject = true
  · exact iff_of_true (isSubtype_of_isObject hab hb) ⟨hab, Or.inl (isObject_iff.1 hb)⟩
  · have hroot : ¬ b.Same .object := fun h => hb (isObject_iff.2 h)
    rw [← finds_start_iff hab (Bool.eq_false_iff.2 hb), finds_start]
    simp [hab, hroot]

def pairOf (t : TypeSpec) : TypeSpec := (TypeSpec.named "Pair").withArgs [.concrete t]

/-- Two types that declare each other as bases, and a pair as a base of pairs. -/
def mutuals : MemoryCatalog :=
  ((MemoryCatalog.mk [] sorted_nil).registerType (.named "Part") [pairOf .int]).registerType (pairOf .int)
    [.named "Part", pairOf .string]

/-- In `mutuals` the name of the target is met first with another argument. -/
theorem isSubtype_iff_transGen_mutuals :
    mutuals.isSubtypeWithin 5 (.named "Part") (pairOf .string) = some true ∧
      mutuals.isSubtype (.named "Part") (pairOf .string) = true := by
  obtain ⟨hwithin, hiff⟩ := isSubtype_iff_transGen mutuals (.named "Part") (pairOf .string)
  have hstep : pairOf .int ∈ mutuals.basesOf (.named "Part") := by decide +kernel
  have hstep' : pairOf .string ∈ mutuals.basesOf (pairOf .int) := by decide +kernel
  have hsub := hiff.2 ⟨by decide, Or.inr ⟨pairOf .string, .tail (.single hstep) hstep', .refl _⟩⟩
  have hanswer := hwithin 5 (by decide +kernel)
  rw [hsub] at hanswer
  exact ⟨hanswer, hsub⟩

end VisualScript.MemoryCatalog
