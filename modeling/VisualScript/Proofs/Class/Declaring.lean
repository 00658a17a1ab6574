import Mathlib.Data.List.Forall2
import VisualScript.Proofs.Class.Members

/-!
# Declaring members

The rule on names is applied twice: to one member at a time when it is added, and to a whole class by the scan for
names declared twice. Both say the same of every class, also of one that was not made by adding members.

* `clashes_addedAttribute`, `clashes_addedMethod`: a member is refused exactly if it would clash.
* `ClashFree.run`: no sequence of changes leads to a clash.
* `declare_eq`: to declare all members of a class anew fails at the first name that the scan lists, if there is
  one.
-/

namespace VisualScript.Class

variable {c d : Class} {name : String}

/-! ### Members that clash -/

/-- Two members of one name that may not stand beside each other: the members that `Clashes` counts. -/
inductive Conflict (c : Class) (name : String) : Prop
  | attributes {v w : Variable} (both : [v, w].Sublist c.attributes) (hv : v.name = name) (hw : w.name = name)
  | mixed {v : Variable} {m : Method} (hv : v ∈ c.attributes) (hm : m ∈ c.methods) (hvn : v.name = name)
      (hmn : m.name = name)
  | methods {m n : Method} (both : [m, n].Sublist c.methods) (hm : m.name = name) (hn : n.name = name)
      (same : List.Forall₂ TypeSpec.Same m.argumentTypes n.argumentTypes)

theorem duplicate_map_iff {α β : Type} [DecidableEq β] {f : α → β} {l : List α} {b : β} :
    (l.map f).Duplicate b ↔ ∃ x y, [x, y].Sublist l ∧ f x = b ∧ f y = b := by
  rw [List.duplicate_iff_sublist, List.sublist_map_iff]
  constructor
  · rintro ⟨l', hl', heq⟩
    obtain ⟨x, rest, rfl, hx, hrest⟩ := List.map_eq_cons_iff.1 heq.symm
    obtain ⟨y, rest, rfl, hy, hnil⟩ := List.map_eq_cons_iff.1 hrest
    cases List.map_eq_nil_iff.1 hnil
    exact ⟨x, y, hl', hx, hy⟩
  · rintro ⟨x, y, hl', hx, hy⟩
    exact ⟨[x, y], hl', by simp [hx, hy]⟩

theorem erasedArguments_eq_iff {m n : Method} :
    m.erasedArguments = n.erasedArguments ↔ List.Forall₂ TypeSpec.Same m.argumentTypes n.argumentTypes := by
  unfold Method.erasedArguments
  rw [← List.forall₂_eq_eq_eq, List.forall₂_map_left_iff, List.forall₂_map_right_iff]
  rfl

theorem clashes_iff_conflict : c.Clashes name ↔ c.Conflict name := by
  unfold Clashes
  simp only [duplicate_map_iff, List.mem_map]
  constructor
  · rintro (⟨v, w, hboth, hv, hw⟩ | ⟨⟨v, hv, hvn⟩, m, hm, hmn⟩ | ⟨arguments, m, n, hboth, hm, hn⟩)
    · exact .attributes hboth hv hw
    · exact .mixed hv hm hvn hmn
    · obtain ⟨rfl, rfl⟩ := Prod.mk.inj hm
      obtain ⟨hname, harguments⟩ := Prod.mk.inj hn
      exact .methods hboth rfl hname (erasedArguments_eq_iff.1 harguments.symm)
  · intro h
    cases h with
    | @attributes v w hboth hv hw => exact .inl ⟨v, w, hboth, hv, hw⟩
    | @mixed v m hv hm hvn hmn => exact .inr (.inl ⟨⟨v, hv, hvn⟩, m, hm, hmn⟩)
    | @methods m n hboth hm hn hsame =>
      refine .inr (.inr ⟨m.erasedArguments, m, n, hboth, Prod.ext hm rfl, Prod.ext hn ?_⟩)
      exact (erasedArguments_eq_iff.2 hsame).symm

/-! ### One more member -/

theorem clashes_addedAttribute {v : Variable} :
    { c with attributes := c.attributes ++ [v] }.Clashes name ↔
      c.Clashes name ∨
        name = v.name ∧ (v.name ∈ c.attributes.map (·.name) ∨ v.name ∈ c.methods.map (·.name)) := by
  unfold Clashes
  simp only [List.map_append, List.map_singleton, duplicate_concat, List.mem_append, List.mem_singleton]
  by_cases hname : name = v.name
  · subst hname
    simp only [true_and, or_true]
    tauto
  · simp only [hname, false_and, or_false]

theorem clashes_addedMethod {m : Method} :
    { c with methods := c.methods ++ [m] }.Clashes name ↔
      c.Clashes name ∨
        name = m.name ∧
          (m.name ∈ c.attributes.map (·.name) ∨ m.signatureKey ∈ c.methods.map Method.signatureKey) := by
  unfold Clashes
  simp only [List.map_append, List.map_singleton, duplicate_concat, List.mem_append, List.mem_singleton, exists_or]
  by_cases hname : name = m.name
  · subst hname
    -- of the argument types that could clash only those of `m` are new
    have hkey : (∃ arguments, (m.name, arguments) = m.signatureKey ∧
          (m.name, arguments) ∈ c.methods.map Method.signatureKey) ↔
        m.signatureKey ∈ c.methods.map Method.signatureKey := by
      constructor
      · rintro ⟨arguments, heq, hmem⟩
        exact heq ▸ hmem
      · intro hmem
        exact ⟨m.erasedArguments, rfl, hmem⟩
    rw [hkey]
    simp only [true_and, or_true, and_true]
    tauto
  · have hkey : ∀ arguments, (name, arguments) ≠ m.signatureKey := fun _ heq => hname (congrArg Prod.fst heq)
    simp only [hname, hkey, false_and, exists_const, or_false]

theorem addAttribute_eq (c : Class) (v : Variable) :
    c.addAttribute v =
      if v.name ∈ c.attributes.map (·.name) ∨ v.name ∈ c.methods.map (·.name) then .error (c.duplicate v.name)
      else .ok { c with attributes := c.attributes ++ [v] } := by
  unfold addAttribute
  simp only [hasAttribute_iff, List.any_eq_true, List.mem_map, decide_eq_true_eq]

theorem addMethod_eq (c : Class) (m : Method) :
    c.addMethod m =
      if m.name ∈ c.attributes.map (·.name) ∨ m.signatureKey ∈ c.methods.map Method.signatureKey then
        .error (c.duplicate m.name)
      else .ok { c with methods := c.methods ++ [m] } := by
  unfold addMethod
  have hkey : (c.methods.any fun n => n.name = m.name ∧ n.erasedArguments = m.erasedArguments) = true ↔
      m.signatureKey ∈ c.methods.map Method.signatureKey := by
    simp [Method.signatureKey]
  exact if_congr ((or_congr hkey hasAttribute_iff).trans or_comm) rfl rfl

/-! ### Sequences of changes -/

/-- A change of the members of a class. -/
inductive Change where
  | addAttribute (v : Variable)
  | addMethod (m : Method)
  | removeAttribute (name : String)
  | removeMethod (name : String)

/-- The class after a `Change`. A member that is refused changes nothing. -/
def after (c : Class) : Change → Class
  | .addAttribute v => (c.addAttribute v).toOption.getD c
  | .addMethod m => (c.addMethod m).toOption.getD c
  | .removeAttribute name => (c.removeAttribute name).2
  | .removeMethod name => (c.removeMethod name).2

/-- The class after some changes in turn. -/
def run (c : Class) (changes : List Change) : Class := changes.foldl after c

/-- A class without members. -/
def make (name space : String) : Class := { name := name, space := space }

/-- No name `Clashes`. -/
def ClashFree (c : Class) : Prop := ∀ name, ¬ c.Clashes name

/-- With fewer members there are no more clashes. -/
theorem ClashFree.of_sublist (h : c.ClashFree) (hattributes : d.attributes.Sublist c.attributes)
    (hmethods : d.methods.Sublist c.methods) : d.ClashFree := by
  rintro name (hname | ⟨hattribute, hmethod⟩ | ⟨arguments, hkey⟩)
  · exact h name (.inl (hname.mono_sublist (hattributes.map _)))
  · exact h name (.inr (.inl ⟨(hattributes.map _).subset hattribute, (hmethods.map _).subset hmethod⟩))
  · exact h name (.inr (.inr ⟨arguments, hkey.mono_sublist (hmethods.map _)⟩))

/-- A member is only refused for a clash, so one that is accepted brings none. -/
theorem ClashFree.after (h : c.ClashFree) (change : Change) : (c.after change).ClashFree := by
  cases change with
  | addAttribute v =>
    show ((c.addAttribute v).toOption.getD c).ClashFree
    rw [addAttribute_eq]
    split_ifs with hclash
    · exact h
    · intro name hname
      rcases clashes_addedAttribute.1 hname with hold | ⟨-, hnew⟩
      · exact h name hold
      · exact hclash hnew
  | addMethod m =>
    show ((c.addMethod m).toOption.getD c).ClashFree
    rw [addMethod_eq]
    split_ifs with hclash
    · exact h
    · intro name hname
      rcases clashes_addedMethod.1 hname with hold | ⟨-, hnew⟩
      · exact h name hold
      · exact hclash hnew
  -- fewer members
  | removeAttribute name => exact h.of_sublist List.eraseP_sublist (List.Sublist.refl _)
  | removeMethod name => exact h.of_sublist (List.Sublist.refl _) List.eraseP_sublist

theorem clashFree_make (name space : String) : (make name space).ClashFree := by
  simp [ClashFree, Clashes, make]

theorem ClashFree.run (h : c.ClashFree) (changes : List Change) : (c.run changes).ClashFree := by
  induction changes generalizing c with
  | nil => exact h
  | cons change changes ih => exact ih (h.after change)

/-! ### All members anew -/

/-- Declares attributes and then methods in turn by `addAttribute` and `addMethod`, until one is refused. -/
def declare (c : Class) (attributes : List Variable) (methods : List Method) : Except GraphError Class := do
  let c ← attributes.foldlM addAttribute c
  methods.foldlM addMethod c

/-- What comes of `declare`, given the names that clash: the first of them is refused. -/
def verdict (c declared : Class) (names : List String) : Except GraphError Class :=
  match names with
  | [] => .ok declared
  | name :: _ => .error (c.duplicate name)

/-- One more member: once a name has clashed, those that clash later do not change the `verdict`. -/
theorem verdict_bind {declared declared' : Class} {names : List String} {refused : Prop} [Decidable refused]
    {add : Class → Except GraphError Class}
    (h : add declared = if refused then .error (c.duplicate name) else .ok declared') :
    (c.verdict declared names >>= add) = c.verdict declared' (if refused then note names name else names) := by
  cases names with
  | nil =>
    show add declared = _
    rw [h]
    split_ifs
    · rfl
    · rfl
  | cons a names =>
    have hfirst : ∀ rest, c.verdict declared' (a :: rest) = .error (c.duplicate a) := fun _ => rfl
    show Except.error (c.duplicate a) = _
    unfold note
    split_ifs
    · exact (hfirst _).symm
    · exact (hfirst _).symm
    · exact (hfirst _).symm

theorem scanAttribute_snd (state : List String × List String) (v : Variable) :
    (scanAttribute state v).2 = if v.name ∈ state.1 then note state.2 v.name else state.2 := by
  unfold scanAttribute
  split_ifs
  · rfl
  · rfl

theorem scanMethod_snd (c : Class) (state : List (String × List TypeSpec) × List String) (m : Method) :
    (c.scanMethod state m).2 =
      if c.hasAttribute m.name = true ∨ m.signatureKey ∈ state.1 then note state.2 m.name else state.2 := by
  rw [scanMethod_eq]
  split_ifs
  · rfl
  · rfl

theorem declare_attributes (name space : String) (vs : List Variable) :
    vs.foldlM addAttribute (make name space) =
      (make name space).verdict { make name space with attributes := vs } (vs.foldl scanAttribute ([], [])).2 := by
  -- from the last attribute, which the scan and the class have met the same others before
  induction vs using List.reverseRecOn with
  | nil => rfl
  | append_singleton vs v ih =>
    rw [List.foldlM_append, ih, List.foldl_append, List.foldl_cons, List.foldl_nil, scanAttribute_snd]
    simp only [List.foldlM_cons, List.foldlM_nil, bind_pure]
    refine verdict_bind ?_
    rw [addAttribute_eq]
    refine if_congr ?_ rfl rfl
    rw [mem_scanAttributes_seen]
    simp [make]

/-- The methods are declared beside `c.attributes`, some of whose names have clashed already (`twice`). -/
theorem declare_methods (c : Class) (name space : String) (twice : List String) (ms : List Method) :
    ((make name space).verdict { make name space with attributes := c.attributes } twice >>=
        ms.foldlM addMethod) =
      (make name space).verdict { make name space with attributes := c.attributes, methods := ms }
        (ms.foldl c.scanMethod ([], twice)).2 := by
  induction ms using List.reverseRecOn with
  | nil => simp [make]
  | append_singleton ms m ih =>
    have happend : ∀ e : Class, (ms ++ [m]).foldlM addMethod e = ms.foldlM addMethod e >>= (addMethod · m) := by
      intro e
      simp only [List.foldlM_append, List.foldlM_cons, List.foldlM_nil, bind_pure]
    rw [funext happend, ← bind_assoc, ih, List.foldl_append, List.foldl_cons, List.foldl_nil, scanMethod_snd]
    refine verdict_bind ?_
    rw [addMethod_eq]
    refine if_congr ?_ rfl rfl
    rw [mem_scanMethods_seen, hasAttribute_iff, show m.signatureKey.1 = m.name from rfl, hasAttribute_iff]
    tauto

theorem declare_eq (c : Class) (name space : String) :
    (make name space).declare c.attributes c.methods =
      (make name space).verdict { make name space with attributes := c.attributes, methods := c.methods }
        c.duplicateNames := by
  unfold declare
  rw [declare_attributes]
  exact declare_methods c name space _ c.methods

theorem verdict_eq_ok_iff {declared : Class} {names : List String} :
    (∃ c', c.verdict declared names = .ok c') ↔ names = [] := by
  cases names with
  | nil => exact iff_of_true ⟨declared, rfl⟩ rfl
  | cons a names => exact iff_of_false (by rintro ⟨_, h⟩; cases h) (by simp)

/-- `duplicateNames` lists the names of members in `Conflict`, each once. It finds none in a class that members
were only added to and taken out of. Of any class it finds none exactly if all members can be declared anew in an
empty class, and otherwise the first name that it lists is the one that `declare` refuses. -/
theorem duplicateNames_agree (c : Class) (name space : String) :
    (∀ n, n ∈ c.duplicateNames ↔ c.Conflict n) ∧ c.duplicateNames.Nodup ∧
      (∀ changes, ((make name space).run changes).duplicateNames = []) ∧
      (c.duplicateNames = [] ↔ ∃ c', (make name space).declare c.attributes c.methods = .ok c') ∧
      (make name space).declare c.attributes c.methods =
        (make name space).verdict { make name space with attributes := c.attributes, methods := c.methods }
          c.duplicateNames := by
  refine ⟨fun n => mem_duplicateNames.trans clashes_iff_conflict, nodup_duplicateNames c, fun changes => ?_, ?_,
    declare_eq c name space⟩
  · exact duplicateNames_eq_nil_iff.2 ((clashFree_make name space).run changes)
  · rw [declare_eq]
    exact verdict_eq_ok_iff.symm

end VisualScript.Class
