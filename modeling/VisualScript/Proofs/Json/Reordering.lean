import VisualScript.Proofs.Json.Decoded

/-!
# Reordering an array

An array that is decoded item by item decodes in every order of its items, to the values in that order
(`Document.mapM_perm`). If the array is a member of an object, then no other member notices, so all that the
object's decoder makes of it is the same but for that one list (`Fields.Carries`, `Fields.decode_carries`).
-/

namespace VisualScript

section Lists

variable {α : Type} {decode : Document → Decoded α}

/-- `mapM` succeeds if the first item decodes and so do the others. -/
theorem Document.mapM_cons_eq_ok_iff {d : Document} {items : List Document} {as : List α} :
    (d :: items).mapM decode = .ok as ↔
      ∃ b bs, decode d = .ok b ∧ items.mapM decode = .ok bs ∧ as = b :: bs := by
  rw [List.mapM_cons]
  constructor
  · intro h
    cases hd : decode d with
    | error e =>
      rw [hd] at h
      cases h
    | ok b =>
      cases hitems : items.mapM decode with
      | error e =>
        rw [hd, hitems] at h
        cases h
      | ok bs =>
        rw [hd, hitems] at h
        cases h
        exact ⟨b, bs, rfl, rfl, rfl⟩
  · rintro ⟨b, bs, hd, hitems, rfl⟩
    rw [hd, hitems]
    rfl

theorem Document.mapM_perm {items items' : List Document} {as : List α} (h : items'.Perm items)
    (has : items.mapM decode = .ok as) : ∃ as', items'.mapM decode = .ok as' ∧ as'.Perm as := by
  induction h generalizing as with
  | nil => exact ⟨as, has, .refl as⟩
  | cons d _ ih =>
    obtain ⟨b, bs, hd, hitems, rfl⟩ := mapM_cons_eq_ok_iff.1 has
    obtain ⟨bs', hbs', hperm⟩ := ih hitems
    exact ⟨b :: bs', mapM_cons_eq_ok_iff.2 ⟨b, bs', hd, hbs', rfl⟩, hperm.cons b⟩
  | swap d d' items =>
    -- both items decode on their own, in whichever order
    obtain ⟨b, bs, hd, hrest, rfl⟩ := mapM_cons_eq_ok_iff.1 has
    obtain ⟨b', bs', hd', hitems, rfl⟩ := mapM_cons_eq_ok_iff.1 hrest
    have hswapped : (d :: items).mapM decode = .ok (b :: bs') := mapM_cons_eq_ok_iff.2 ⟨b, bs', hd, hitems, rfl⟩
    exact ⟨b' :: b :: bs', mapM_cons_eq_ok_iff.2 ⟨b', _, hd', hswapped, rfl⟩, .swap b b' bs'⟩
  | trans _ _ ih ih' =>
    obtain ⟨bs, hbs, hperm⟩ := ih' has
    obtain ⟨bs', hbs', hperm'⟩ := ih hbs
    exact ⟨bs', hbs', hperm'.trans hperm⟩

end Lists

/-! ### Members -/

namespace Members

variable {before after : Members} {key : String} {d d' : Document}

/-- Members among which the value of `key` is `d`. -/
def around (before after : Members) (key : String) (d : Document) : Members := before ++ (some key, d) :: after

theorem occurrences_around_of_ne {other : String} (h : other ≠ key) :
    occurrences (around before after key d') other = occurrences (around before after key d) other := by
  unfold occurrences around
  simp only [List.zipIdx_append, List.zipIdx_cons, List.filterMap_append, List.filterMap_cons, Option.some.injEq,
    Ne.symm h, if_false]

/-- A `key` that stands only once stands in this place. -/
theorem occurrences_around {x : Document} {i : Nat} (h : occurrences (around before after key d) key = [(x, i)]) :
    x = d ∧ occurrences (around before after key d') key = [(d', i)] := by
  unfold occurrences around at h ⊢
  simp only [List.zipIdx_append, List.zipIdx_cons, List.filterMap_append, List.filterMap_cons, if_true] at h ⊢
  obtain ⟨hbefore, hrest⟩ | ⟨-, hrest⟩ := List.append_eq_singleton_iff.1 h
  · obtain ⟨hx, hafter⟩ := List.cons_eq_cons.1 hrest
    obtain ⟨rfl, rfl⟩ := Prod.mk.injEq .. ▸ hx
    rw [hbefore, hafter]
    exact ⟨rfl, rfl⟩
  · cases hrest

end Members

/-! ### Fields -/

/-- If the fields can be read on the members `ms`, then on `ms'` too, and `R` relates the values. -/
def Fields.Carries {α : Type} (x : Fields α) (ms ms' : Members) (R : α → α → Prop) : Prop :=
  ∀ a, x.read ms = .ok a → ∃ a', x.read ms' = .ok a' ∧ R a a'

namespace Fields

variable {α β : Type} {ms ms' : Members}

namespace Carries

variable {X : α → α → Prop} {R : β → β → Prop}

theorem seq {f : Fields (α → β)} {x : Fields α}
    (hf : f.Carries ms ms' fun g g' => ∀ a a', X a a' → R (g a) (g' a')) (hx : x.Carries ms ms' X) :
    (f <*> x).Carries ms ms' R := by
  intro b h
  obtain ⟨g, a, hg, ha, rfl⟩ := both_eq_ok (f := id) h
  obtain ⟨g', hg', hR⟩ := hf g hg
  obtain ⟨a', ha', hX⟩ := hx a ha
  exact ⟨g' a', both_read id hg' ha', hR a a' hX⟩

theorem map {f : α → β} {x : Fields α} (hx : x.Carries ms ms' X) (hf : ∀ a a', X a a' → R (f a) (f a')) :
    (f <$> x).Carries ms ms' R := by
  have hconst : (Fields.const f).Carries ms ms' fun g g' => ∀ a a', X a a' → R (g a) (g' a') := by
    intro g hg
    cases hg
    exact ⟨f, rfl, hf⟩
  exact hconst.seq hx

end Carries

section Around

variable {before after : Members} {key : String}

/-- The value of a key `other` than the one whose value changes is the same. -/
theorem carries_other {other : String} {absent : Option α} {value : Document → Decoded α} {d d' : Document}
    (h : other ≠ key) :
    (single other absent value).Carries (Members.around before after key d) (Members.around before after key d')
      Eq := by
  intro a ha
  refine ⟨a, ?_, rfl⟩
  have hlength : (Members.around before after key d').length = (Members.around before after key d).length := by
    simp [Members.around]
  have hsame : (Members.around before after key d').occurrences other =
      (Members.around before after key d).occurrences other := Members.occurrences_around_of_ne h
  unfold single at ha ⊢
  simp only [hsame, hlength]
  exact ha

/-- The values that `asList` finds in the reordered array are those values in that order. -/
theorem carries_list {absent : Option (List α)} {item : Document → Decoded α} {items items' : List Document}
    (h : items'.Perm items) :
    (single key absent (Document.asList item)).Carries (Members.around before after key (.array items))
      (Members.around before after key (.array items')) fun as as' => as'.Perm as := by
  intro as has
  obtain ⟨hnone, -⟩ | ⟨x, i, hsome, hvalue⟩ := single_eq_ok has
  · simp [Members.occurrences, Members.around, List.zipIdx_append] at hnone
  · obtain ⟨rfl, hsome'⟩ : x = .array items ∧
        (Members.around before after key (.array items')).occurrences key = [(.array items', i)] :=
      Members.occurrences_around hsome
    obtain ⟨as', has', hperm⟩ := Document.mapM_perm h hvalue
    refine ⟨as', ?_, hperm⟩
    unfold single
    simp only [hsome']
    have hvalue' : Document.asList item (.array items') = .ok as' := has'
    simp only [hvalue']

theorem others_eq_ok_iff {keys : List String} {ms : Members} {u : Unit} :
    (others keys).read ms = .ok u ↔ ∀ m ∈ ms, passes keys m = true := by
  unfold others
  simp only
  cases hfind : ms.findIdx? (!passes keys ·) with
  | none => simpa using List.findIdx?_eq_none_iff.1 hfind
  | some i =>
    refine iff_of_false (by simp) fun hall => ?_
    have hnone : ms.findIdx? (!passes keys ·) = none := List.findIdx?_eq_none_iff.2 (by simpa using hall)
    rw [hfind] at hnone
    cases hnone

/-- A decoder that asks for `key` passes over the same members as before. -/
theorem decode_carries {x : Fields α} {R : α → α → Prop} {d d' : Document} {a : α} (hkey : key ∈ x.keys)
    (h : x.Carries (Members.around before after key d) (Members.around before after key d') R)
    (ha : x.decode (.object (Members.around before after key d)) = .ok a) :
    ∃ a', x.decode (.object (Members.around before after key d')) = .ok a' ∧ R a a' := by
  change ((both (fun a _ => a) x (others x.keys)).read _).mapError _ = _ at ha
  cases hboth : (both (fun a _ => a) x (others x.keys)).read (Members.around before after key d) with
  | error e =>
    rw [hboth] at ha
    cases ha
  | ok b =>
    rw [hboth] at ha
    cases ha
    obtain ⟨a, u, hread, hothers, rfl⟩ := both_eq_ok hboth
    obtain ⟨a', hread', hR⟩ := h a hread
    -- the member that changed is asked for, so nothing else looks at its value
    have hothers' : (others x.keys).read (Members.around before after key d') = .ok () := by
      refine others_eq_ok_iff.2 fun m hm => ?_
      have hpass := others_eq_ok_iff.1 hothers
      simp only [Members.around, List.mem_append, List.mem_cons] at hm hpass
      rcases hm with hm | rfl | hm
      · exact hpass m (.inl hm)
      · simp [passes, hkey]
      · exact hpass m (.inr (.inr hm))
    refine ⟨a', ?_, hR⟩
    show ((both (fun a _ => a) x (others x.keys)).read _).mapError _ = _
    rw [both_read _ hread' hothers']
    rfl

end Around

end Fields

end VisualScript
