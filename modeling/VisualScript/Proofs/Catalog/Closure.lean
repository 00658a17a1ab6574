import Mathlib.Logic.Relation
import Mathlib.Tactic.SplitIfs
import VisualScript.Catalog.Memory

/-!
# Deriving from bases

In a memory catalog a type derives from whatever steps from a type to a base declared under its name lead to.
The search for the target takes the bases of each entry once. It misses nothing by that (`reaches_iff`): a way that
uses an entry again can be cut short at its last use.

* `Ascends` says where steps to bases lead, among the entries that are left.
* `isSubtype_iff` is the answer of the whole search.
* `basesOf_register`: to register something adds bases and takes none away, so what derived from a type still does
  (`isSubtype_registerAll`).
-/

namespace VisualScript.MemoryCatalog

open Relation

/-! ### The search -/

/-- The entries declare `t` as a base under the name of `s`. -/
def IsBase (entries : List CatalogEntry) (s t : TypeSpec) : Prop :=
  ∃ e, entries.find? (·.name = s.name) = some e ∧ t ∈ e.bases

/-- Steps to bases lead from `s` to the target, enum flags aside. -/
def Ascends (entries : List CatalogEntry) (s target : TypeSpec) : Prop :=
  ∃ u, ReflTransGen (IsBase entries) s u ∧ u.Same target

section Search

variable {left : List CatalogEntry} {s t u target : TypeSpec} {e : CatalogEntry}

theorem find?_without (name n : String) (left : List CatalogEntry) :
    (without name left).find? (·.name = n) = if n = name then none else left.find? (·.name = n) := by
  unfold without
  rw [List.find?_filter]
  split_ifs with hn
  · subst hn
    simp
  · congr 1
    funext e
    by_cases he : e.name = n <;> simp [he, hn]

theorem isBase_without {name : String} :
    IsBase (without name left) s t ↔ IsBase left s t ∧ s.name ≠ name := by
  unfold IsBase
  rw [find?_without]
  split_ifs with hs
  · simp [hs]
  · simp [hs]

/-- A way of `IsBase` steps keeps clear of the entry `e`, or goes on from one of `e.bases` after its last use. -/
theorem reflTransGen_without {name : String} (he : left.find? (·.name = name) = some e)
    (h : ReflTransGen (IsBase left) s u) :
    ReflTransGen (IsBase (without name left)) s u ∨
      ∃ t ∈ e.bases, ReflTransGen (IsBase (without name left)) t u := by
  -- from the end of the way: what is already known is about the rest of it
  induction h using ReflTransGen.head_induction_on with
  | refl => exact Or.inl .refl
  | @head s t hst _ ih =>
    rcases ih with hrest | hrest
    · by_cases hs : s.name = name
      · obtain ⟨e', he', ht⟩ := hst
        rw [hs, he] at he'
        cases he'
        exact Or.inr ⟨t, ht, hrest⟩
      · exact Or.inl (.head (isBase_without.2 ⟨hst, hs⟩) hrest)
    · exact Or.inr hrest

/-- To take the entry `e` of `t` out of `left` is to go on from `e.bases` instead. -/
theorem ascends_taken {pending : List TypeSpec} (ht : ¬ t.Same target)
    (he : left.find? (·.name = t.name) = some e) :
    (∃ s ∈ pending ++ e.bases, Ascends (without t.name left) s target) ↔
      ∃ s ∈ t :: pending, Ascends left s target := by
  have hmono : ∀ {s u}, ReflTransGen (IsBase (without t.name left)) s u → ReflTransGen (IsBase left) s u :=
    ReflTransGen.mono (fun _ _ hst => (isBase_without.1 hst).1) _ _
  constructor
  · rintro ⟨s, hs, u, hsu, hu⟩
    rcases List.mem_append.1 hs with hs | hs
    · exact ⟨s, List.mem_cons_of_mem _ hs, u, hmono hsu, hu⟩
    · exact ⟨t, List.mem_cons_self, u, (hmono hsu).head ⟨e, he, hs⟩, hu⟩
  · rintro ⟨s, hs, u, hsu, hu⟩
    rcases reflTransGen_without he hsu with hsu' | ⟨b, hb, hbu⟩
    · rcases List.mem_cons.1 hs with rfl | hs
      · -- without its entry the type leads nowhere, and it is not the target itself
        rcases ReflTransGen.cases_head hsu' with rfl | ⟨b, hsb, -⟩
        · exact absurd hu ht
        · exact absurd rfl (isBase_without.1 hsb).2
      · exact ⟨s, List.mem_append_left _ hs, u, hsu', hu⟩
    · exact ⟨b, List.mem_append_right _ hb, u, hbu, hu⟩

/-- A type without an entry `Ascends` to itself only. -/
theorem ascends_of_find?_eq_none (he : left.find? (·.name = t.name) = none) :
    Ascends left t target ↔ t.Same target := by
  constructor
  · rintro ⟨u, htu, hu⟩
    rcases ReflTransGen.cases_head htu with rfl | ⟨b, ⟨e, he', -⟩, -⟩
    · exact hu
    · rw [he] at he'
      cases he'
  · intro ht
    exact ⟨t, .refl, ht⟩

/-- The search `reaches` the target exactly if a pending type `Ascends` to it. -/
theorem reaches_iff (target : TypeSpec) (left : List CatalogEntry) (pending : List TypeSpec) :
    reaches target left pending = true ↔ ∃ s ∈ pending, Ascends left s target := by
  induction left, pending using reaches.induct target with
  | case1 left => simp [reaches]
  | case2 left t pending ht =>
    unfold reaches
    rw [if_pos ht]
    exact ⟨fun _ => ⟨t, List.mem_cons_self, t, .refl, ht⟩, fun _ => rfl⟩
  | case3 left t pending ht he ih =>
    -- `t` has no entry left and is dropped
    unfold reaches
    rw [if_neg ht]
    split
    · rw [ih]
      constructor
      · rintro ⟨s, hs, h⟩
        exact ⟨s, List.mem_cons_of_mem _ hs, h⟩
      · rintro ⟨s, hs, h⟩
        rcases List.mem_cons.1 hs with rfl | hs
        · exact absurd ((ascends_of_find?_eq_none he).1 h) ht
        · exact ⟨s, hs, h⟩
    · rename_i e' he'
      rw [he] at he'
      cases he'
  | case4 left t pending ht e he ih =>
    -- the entry of `t` is taken
    unfold reaches
    rw [if_neg ht]
    split
    · rename_i he'
      rw [he] at he'
      cases he'
    · rename_i e' he'
      rw [he] at he'
      cases he'
      rw [ih]
      exact ascends_taken ht he

end Search

/-! ### The whole catalog -/

section Catalog

variable {c c' : MemoryCatalog} {a b s t : TypeSpec}

theorem mem_basesOf : t ∈ c.basesOf s ↔ IsBase c.entries s t := by
  unfold basesOf IsBase entry?
  cases c.entries.find? (·.name = s.name) with
  | none => simp
  | some e => simp

theorem isSubtype_iff :
    c.isSubtype a b = true ↔ ¬ a.Same b ∧
      ((b.isObject = true ∧ a.isObject = false) ∨
        (b.isObject = false ∧ ∃ s ∈ c.basesOf a, Ascends c.entries s b)) := by
  unfold isSubtype
  split_ifs with hs hb
  · simp [hs]
  · simp [hs, hb]
  · rw [reaches_iff]
    simp [hs, hb]

/-- `isSubtype` is monotone in `basesOf`. -/
theorem isSubtype_mono (h : ∀ s, c.basesOf s ⊆ c'.basesOf s) (hab : c.isSubtype a b = true) :
    c'.isSubtype a b = true := by
  rw [isSubtype_iff] at hab ⊢
  obtain ⟨hs, hobj | ⟨hobj, s, hs', u, hsu, hu⟩⟩ := hab
  · exact ⟨hs, Or.inl hobj⟩
  · refine ⟨hs, Or.inr ⟨hobj, s, h a hs', u, ?_, hu⟩⟩
    exact ReflTransGen.mono (fun x y hxy => mem_basesOf.1 (h x (mem_basesOf.2 hxy))) _ _ hsu

end Catalog

/-! ### Registering -/

/-- What can be made known to a catalog: the arguments of `registerType`, `registerMethod` and `registerEnum`. -/
inductive Registration where
  | type (t : TypeSpec) (bases : List TypeSpec)
  | method (m : MethodSpec)
  | enum (t : TypeSpec) (names : List String)

def register (c : MemoryCatalog) : Registration → MemoryCatalog
  | .type t bases => c.registerType t bases
  | .method m => c.registerMethod m
  | .enum t names => c.registerEnum t names

def registerAll (c : MemoryCatalog) (rs : List Registration) : MemoryCatalog := rs.foldl register c

theorem sorted_nil : Sorted [] := List.Pairwise.nil

section Register

variable {name : String} {f : CatalogEntry → CatalogEntry} {es : List CatalogEntry}

/-- A name below those of all entries has none, so `change` may stop there. -/
theorem find?_eq_none_of_lt {n : String} (h : ∀ e ∈ es, n < e.name) : es.find? (·.name = n) = none := by
  refine List.find?_eq_none.2 fun e he => ?_
  have hne : e.name ≠ n := fun heq => String.lt_irrefl n (heq ▸ h e he)
  simpa using hne

/-- `change name f` changes the entry of the name, blank if there was none, and leaves every other one. -/
theorem find?_change (hf : ∀ e, (f e).name = e.name) (h : Sorted es) (n : String) :
    (change name f es).find? (·.name = n) =
      if n = name then some (f ((es.find? (·.name = name)).getD { name })) else es.find? (·.name = n) := by
  induction es with
  | nil =>
    unfold change
    rw [List.find?_singleton]
    by_cases hn : n = name
    · simp [hf, hn]
    · simp [hf, hn, Ne.symm hn]
  | cons e es ih =>
    obtain ⟨he, hes⟩ := List.pairwise_cons.1 h
    unfold change
    by_cases hname : e.name = name
    · rw [if_pos hname]
      by_cases hn : n = name
      · simp [hf, hn, hname]
      · simp [hf, hn, hname, Ne.symm hn]
    rw [if_neg hname]
    by_cases hlt : name < e.name
    · -- the entry is new and stands before `e`
      have hnone : (e :: es).find? (·.name = name) = none := by
        refine find?_eq_none_of_lt fun x hx => ?_
        rcases List.mem_cons.1 hx with rfl | hx
        · exact hlt
        · exact String.lt_trans hlt (he x hx)
      rw [if_pos hlt, hnone, List.find?_cons]
      by_cases hn : n = name
      · simp [hf, hn]
      · simp [hf, hn, Ne.symm hn]
    · rw [if_neg hlt, List.find?_cons, ih hes]
      by_cases hn : n = name
      · simp [hn, hname]
      · simp only [if_neg hn, List.find?_cons]

theorem basesOf_change (hf : ∀ e, (f e).name = e.name) (hb : ∀ e, e.bases ⊆ (f e).bases) (c : MemoryCatalog)
    (h : Sorted (change name f c.entries)) (s : TypeSpec) :
    c.basesOf s ⊆ MemoryCatalog.basesOf ⟨change name f c.entries, h⟩ s := by
  intro t ht
  obtain ⟨e, he, ht⟩ := mem_basesOf.1 ht
  refine mem_basesOf.2 ?_
  unfold IsBase
  rw [find?_change hf c.sorted]
  by_cases hs : s.name = name
  · rw [if_pos hs, ← hs, he]
    exact ⟨_, rfl, hb e ht⟩
  · rw [if_neg hs]
    exact ⟨e, he, ht⟩

theorem basesOf_register (c : MemoryCatalog) (r : Registration) (s : TypeSpec) :
    c.basesOf s ⊆ (c.register r).basesOf s := by
  cases r with
  | type t bases =>
    exact basesOf_change (f := fun e => { e with bases := e.bases ++ bases }) (fun _ => rfl)
      (fun e => List.subset_append_left e.bases bases) c _ s
  | method m =>
    exact basesOf_change (f := fun e => { e with methods := e.methods ++ [m] }) (fun _ => rfl)
      (fun e => List.Subset.refl e.bases) c _ s
  | enum t names =>
    exact basesOf_change (f := fun e => { e with enumNames := e.enumNames ++ names }) (fun _ => rfl)
      (fun e => List.Subset.refl e.bases) c _ s

theorem isSubtype_registerAll {c : MemoryCatalog} {a b : TypeSpec} (rs : List Registration)
    (h : c.isSubtype a b = true) : (c.registerAll rs).isSubtype a b = true := by
  induction rs generalizing c with
  | nil => exact h
  | cons r rs ih => exact ih (isSubtype_mono (basesOf_register c r) h)

end Register

end VisualScript.MemoryCatalog
