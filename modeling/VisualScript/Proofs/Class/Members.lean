import Mathlib.Data.List.Duplicate
import Mathlib.Data.List.Induction
import VisualScript.Class.Basic

/-!
# Names declared twice

`Class.Clashes` says when a name is declared more often than it may be. The scan over attributes and methods finds
these names and no others, each of them once (`mem_duplicateNames`, `nodup_duplicateNames`).

Methods with the name of an attribute do not count as seen, since the name clashes anyway: what the scan has seen
are the signatures of the other methods (`mem_scanMethods_seen`).
-/

namespace VisualScript

theorem duplicate_concat {α : Type} [DecidableEq α] {l : List α} {a b : α} :
    (l ++ [b]).Duplicate a ↔ l.Duplicate a ∨ a = b ∧ a ∈ l := by
  rw [List.duplicate_iff_two_le_count, List.duplicate_iff_two_le_count, List.count_append, ← List.count_pos_iff]
  rcases eq_or_ne a b with rfl | h
  · rw [List.count_singleton_self]
    simp only [true_and]
    omega
  · simp [h, Ne.symm h]

/-- What tells a method from others of its class: `name` and `erasedArguments`. -/
def Method.signatureKey (m : Method) : String × List TypeSpec := (m.name, m.erasedArguments)

namespace Class

variable {c : Class} {name : String}

/-- Two attributes have the name, or an attribute and a method, or two methods with the same argument types. -/
def Clashes (c : Class) (name : String) : Prop :=
  (c.attributes.map (·.name)).Duplicate name ∨
    (name ∈ c.attributes.map (·.name) ∧ name ∈ c.methods.map (·.name)) ∨
    ∃ arguments, (c.methods.map Method.signatureKey).Duplicate (name, arguments)

theorem hasAttribute_iff : c.hasAttribute name = true ↔ name ∈ c.attributes.map (·.name) := by
  simp [hasAttribute]

/-! ### Listing a name once -/

theorem mem_note {names : List String} {a : String} : name ∈ note names a ↔ name ∈ names ∨ name = a := by
  unfold note
  split_ifs with h
  · refine ⟨Or.inl, ?_⟩
    rintro (hn | rfl)
    · exact hn
    · exact h
  · simp

theorem nodup_note {names : List String} (h : names.Nodup) (a : String) : (note names a).Nodup := by
  unfold note
  split_ifs with ha
  · exact h
  · exact List.nodup_append.2 ⟨h, List.nodup_singleton a, by simpa using fun x hx => ne_of_mem_of_not_mem hx ha⟩

/-! ### The scan over attributes -/

section Attributes

variable {state : List String × List String}

theorem mem_scanAttribute_seen (v : Variable) :
    name ∈ (scanAttribute state v).1 ↔ name ∈ state.1 ∨ name = v.name := by
  unfold scanAttribute
  split_ifs with h
  · refine ⟨Or.inl, ?_⟩
    rintro (hname | rfl)
    · exact hname
    · exact h
  · rw [List.mem_cons, or_comm]

theorem mem_scanAttribute (v : Variable) :
    name ∈ (scanAttribute state v).2 ↔ name ∈ state.2 ∨ name = v.name ∧ v.name ∈ state.1 := by
  unfold scanAttribute
  split_ifs with h
  · rw [mem_note]
    simp only [h, and_true]
  · simp only [h, and_false, or_false]

theorem mem_scanAttributes_seen (vs : List Variable) :
    name ∈ (vs.foldl scanAttribute ([], [])).1 ↔ name ∈ vs.map (·.name) := by
  induction vs using List.reverseRecOn generalizing name with
  | nil => simp
  | append_singleton vs v ih =>
    rw [List.foldl_append, List.foldl_cons, List.foldl_nil, mem_scanAttribute_seen, ih]
    simp

theorem mem_scanAttributes (vs : List Variable) :
    name ∈ (vs.foldl scanAttribute ([], [])).2 ↔ (vs.map (·.name)).Duplicate name := by
  -- a scan goes on at the end of the list, so the induction does too
  induction vs using List.reverseRecOn generalizing name with
  | nil => simp
  | append_singleton vs v ih =>
    rw [List.foldl_append, List.foldl_cons, List.foldl_nil, mem_scanAttribute, ih, mem_scanAttributes_seen,
      List.map_append, List.map_singleton, duplicate_concat]
    refine or_congr_right (and_congr_right ?_)
    rintro rfl
    exact Iff.rfl

theorem nodup_scanAttributes (vs : List Variable) : (vs.foldl scanAttribute ([], [])).2.Nodup := by
  induction vs using List.reverseRecOn with
  | nil => exact List.nodup_nil
  | append_singleton vs v ih =>
    rw [List.foldl_append, List.foldl_cons, List.foldl_nil]
    unfold scanAttribute
    split_ifs
    · exact nodup_note ih _
    · exact ih

end Attributes

/-! ### The scan over methods -/

section Methods

variable {state : List (String × List TypeSpec) × List String} {key : String × List TypeSpec}

theorem scanMethod_eq (c : Class) (m : Method) :
    c.scanMethod state m =
      if c.hasAttribute m.name = true ∨ m.signatureKey ∈ state.1 then (state.1, note state.2 m.name)
      else (m.signatureKey :: state.1, state.2) := rfl

theorem mem_scanMethod_seen (m : Method) :
    key ∈ (c.scanMethod state m).1 ↔ key ∈ state.1 ∨ key = m.signatureKey ∧ ¬ c.hasAttribute m.name = true := by
  rw [scanMethod_eq]
  split_ifs with h
  · refine ⟨Or.inl, ?_⟩
    rintro (hkey | ⟨rfl, hattribute⟩)
    · exact hkey
    · exact h.resolve_left hattribute
  · rw [List.mem_cons, or_comm, and_iff_left (not_or.1 h).1]

theorem mem_scanMethod (m : Method) :
    name ∈ (c.scanMethod state m).2 ↔
      name ∈ state.2 ∨ name = m.name ∧ (c.hasAttribute m.name = true ∨ m.signatureKey ∈ state.1) := by
  rw [scanMethod_eq]
  split_ifs with h
  · rw [mem_note, and_iff_left h]
  · rw [or_iff_left fun hname => h hname.2]

theorem mem_scanMethods_seen (c : Class) (twice : List String) (ms : List Method) :
    key ∈ (ms.foldl c.scanMethod ([], twice)).1 ↔
      key ∈ ms.map Method.signatureKey ∧ ¬ c.hasAttribute key.1 = true := by
  induction ms using List.reverseRecOn with
  | nil => simp
  | append_singleton ms m ih =>
    rw [List.foldl_append, List.foldl_cons, List.foldl_nil, mem_scanMethod_seen, ih, List.map_append,
      List.mem_append, List.map_singleton, List.mem_singleton, or_and_right]
    refine or_congr_right (and_congr_right ?_)
    rintro rfl
    exact Iff.rfl

theorem mem_scanMethods (c : Class) (twice : List String) (ms : List Method) :
    name ∈ (ms.foldl c.scanMethod ([], twice)).2 ↔ name ∈ twice ∨
      (c.hasAttribute name = true ∧ name ∈ ms.map (·.name)) ∨
      ∃ arguments, (ms.map Method.signatureKey).Duplicate (name, arguments) := by
  induction ms using List.reverseRecOn with
  | nil => simp
  | append_singleton ms m ih =>
    have hkeys : (∃ arguments, ((ms ++ [m]).map Method.signatureKey).Duplicate (name, arguments)) ↔
        (∃ arguments, (ms.map Method.signatureKey).Duplicate (name, arguments)) ∨
          name = m.name ∧ m.signatureKey ∈ ms.map Method.signatureKey := by
      simp only [List.map_append, List.map_singleton, duplicate_concat, exists_or]
      refine or_congr_right ⟨?_, ?_⟩
      · rintro ⟨arguments, he, hmem⟩
        exact ⟨congrArg Prod.fst he, he ▸ hmem⟩
      · rintro ⟨rfl, hmem⟩
        exact ⟨m.erasedArguments, rfl, hmem⟩
    rw [List.foldl_append, List.foldl_cons, List.foldl_nil, mem_scanMethod, ih, mem_scanMethods_seen, hkeys,
      List.map_append, List.mem_append, List.map_singleton, List.mem_singleton]
    by_cases hname : name = m.name
    · subst hname
      -- beside an attribute the signature is not kept, but the name is listed all the same
      by_cases hattribute : c.hasAttribute m.name = true
      · simp [hattribute]
      · simp [hattribute, Method.signatureKey, or_assoc]
    · simp only [hname, or_false, false_and]

theorem nodup_scanMethods (c : Class) {twice : List String} (h : twice.Nodup) (ms : List Method) :
    (ms.foldl c.scanMethod ([], twice)).2.Nodup := by
  induction ms using List.reverseRecOn with
  | nil => exact h
  | append_singleton ms m ih =>
    rw [List.foldl_append, List.foldl_cons, List.foldl_nil, scanMethod_eq]
    split_ifs
    · exact nodup_note ih _
    · exact ih

end Methods

theorem mem_duplicateNames : name ∈ c.duplicateNames ↔ c.Clashes name := by
  unfold duplicateNames Clashes
  rw [mem_scanMethods, mem_scanAttributes, hasAttribute_iff]

theorem nodup_duplicateNames (c : Class) : c.duplicateNames.Nodup :=
  nodup_scanMethods c (nodup_scanAttributes c.attributes) c.methods

theorem duplicateNames_eq_nil_iff : c.duplicateNames = [] ↔ ∀ name, ¬ c.Clashes name := by
  rw [List.eq_nil_iff_forall_not_mem]
  simp only [mem_duplicateNames]

end Class

end VisualScript
