import VisualScript.Proofs.Graph.Links

/-!
# What the wiring operations do

In a graph whose references come in pairs, an operation on links either fails before it changes
anything or does all of its work. Its effect is told by the links alone, since the shape stays:

* `Severed S m m'`: all links at the pins of `S` are gone, and nothing else.
* `Enumerates S m ls`: the links at the pins of `S` are those of `ls`, each named once.
* `Joined l m m'`: the link `l` is there, and of the other links only those at its `solo` end are gone.

Exec links and data links differ in which end has only one link. A `Wire` holds what the operations
need to know of either sort, so that each is looked at once.
-/

namespace VisualScript

open Linkable EditM

/-! ### Effects -/

/-- `m'` is `m` without the links at the pins of `S`. -/
structure Severed (S : PinRef → Prop) (m m' : Method) : Prop where
  shape : m'.shape = m.shape
  refs : ∀ p q, q ∈ m'.refs p ↔ q ∈ m.refs p ∧ ¬ S p ∧ ¬ S q

/-- The list `ls` names each link at the pins of `S` once, and no other link. -/
structure Enumerates (S : PinRef → Prop) (m : Method) (ls : List Link) : Prop where
  nodup : ls.Nodup
  mem_iff : ∀ k, k ∈ ls ↔ m.Linked k ∧ (S k.source ∨ S k.target)

/-- `m'` is `m` with the link `l` made, which took the place of any other at its end `l.solo`. -/
structure Joined (l : Link) (m m' : Method) : Prop where
  shape : m'.shape = m.shape
  refs : ∀ p q, q ∈ m'.refs p ↔ (q ∈ m.refs p ∧ p ≠ l.solo ∧ q ≠ l.solo) ∨
    (p = l.solo ∧ q = l.shared) ∨ (p = l.shared ∧ q = l.solo)

namespace Method

variable {S : PinRef → Prop} {m m' : Method}

/-! What is left of a graph when the references at some pins go, whatever else becomes of the nodes. -/

theorem Mirrored.restrict (hm : m.Mirrored) (h : ∀ p q, q ∈ m'.refs p ↔ q ∈ m.refs p ∧ ¬ S p ∧ ¬ S q) :
    m'.Mirrored := by
  intro p q hq
  obtain ⟨hq, hp, hs⟩ := (h p q).1 hq
  obtain ⟨hk, hpq⟩ := hm _ _ hq
  exact ⟨hk, (h q p).2 ⟨hpq, hs, hp⟩⟩

theorem linked_restrict_iff (h : ∀ p q, q ∈ m'.refs p ↔ q ∈ m.refs p ∧ ¬ S p ∧ ¬ S q) {k : Link} :
    m'.Linked k ↔ m.Linked k ∧ ¬ S k.source ∧ ¬ S k.target := by
  unfold Linked
  rw [h]
  tauto

end Method

namespace Severed

variable {S T : PinRef → Prop} {m m' m'' : Method}

theorem refl (m : Method) : Severed (fun _ => False) m m := ⟨rfl, by simp⟩

theorem trans (h : Severed S m m') (h' : Severed T m' m'') : Severed (fun p => S p ∨ T p) m m'' := by
  refine ⟨h'.shape.trans h.shape, fun p q => ?_⟩
  rw [h'.refs, h.refs]
  tauto

theorem congr (h : Severed S m m') (hST : ∀ p, S p ↔ T p) : Severed T m m' := by
  refine ⟨h.shape, fun p q => ?_⟩
  rw [h.refs, hST, hST]

theorem mirrored (h : Severed S m m') (hm : m.Mirrored) : m'.Mirrored := hm.restrict h.refs

theorem linked_iff (h : Severed S m m') {k : Link} :
    m'.Linked k ↔ m.Linked k ∧ ¬ S k.source ∧ ¬ S k.target := Method.linked_restrict_iff h.refs

/-- What is severed at `l.solo` loses just the link `l`. -/
theorem linked_solo_iff {l : Link} (h : Severed (· = l.solo) m m') (hm : m.Mirrored)
    (hl : m.Linked l) {k : Link} : m'.Linked k ↔ m.Linked k ∧ k ≠ l := by
  rw [h.linked_iff]
  refine and_congr_right fun hk => ?_
  rw [← ne_eq, ← ne_eq, ← (hm.oriented hk).solo_ne_iff (hm.oriented hl)]
  exact ⟨fun hne he => hne (he ▸ rfl), fun hne he => hne (hm.eq_of_solo hk hl he)⟩

end Severed

namespace Enumerates

variable {S T : PinRef → Prop} {m m' : Method} {ls ls' : List Link}

theorem nil (m : Method) : Enumerates (fun _ => False) m [] := ⟨List.nodup_nil, by simp⟩

/-- Of `S`, only pins that hold references count. -/
theorem congr (h : Enumerates S m ls) (hm : m.Mirrored) (hST : ∀ p q, q ∈ m.refs p → (S p ↔ T p)) :
    Enumerates T m ls := by
  refine ⟨h.nodup, fun k => ?_⟩
  rw [h.mem_iff]
  refine and_congr_right fun hk => ?_
  rw [hST _ _ hk.2, hST _ _ (hm _ _ hk.2).2]

/-- What is severed next does not name again what was severed before. -/
theorem append (h : Enumerates S m ls) (hs : Severed S m m') (h' : Enumerates T m' ls') :
    Enumerates (fun p => S p ∨ T p) m (ls ++ ls') := by
  refine ⟨List.nodup_append.2 ⟨h.nodup, h'.nodup, ?_⟩, fun k => ?_⟩
  · -- a link that both lists name would have been severed before the second was made
    rintro k hk _ hk' rfl
    obtain ⟨-, hS⟩ := (h.mem_iff k).1 hk
    obtain ⟨-, hsource, htarget⟩ := hs.linked_iff.1 ((h'.mem_iff k).1 hk').1
    exact hS.elim hsource htarget
  · rw [List.mem_append, h.mem_iff, h'.mem_iff, hs.linked_iff]
    tauto

/-- By its `refs`, a pin tells of each of its links once. -/
theorem linkTo (hm : m.Mirrored) (pin : PinRef) : Enumerates (· = pin) m ((m.refs pin).map pin.linkTo) := by
  refine ⟨(m.nodup_refs pin).map pin.linkTo_injective, fun k => ⟨fun hk => ?_, ?_⟩⟩
  · obtain ⟨q, hq, rfl⟩ := List.mem_map.1 hk
    refine ⟨hm.mem_refs_iff_linked.1 hq, ?_⟩
    unfold PinRef.linkTo
    split_ifs
    · exact Or.inr rfl
    · exact Or.inl rfl
  · rintro ⟨hk, hpin⟩
    obtain ⟨q, hq, rfl⟩ := hm.exists_linkTo hk hpin
    exact List.mem_map_of_mem hq

end Enumerates

namespace Joined

variable {l : Link} {m m' : Method}

theorem mirrored (h : Joined l m m') (hm : m.Mirrored) (hl : l.Oriented) : m'.Mirrored := by
  have hk : l.shared.kind = l.solo.kind.opposite ∧ l.solo.kind = l.shared.kind.opposite := by
    rcases hl.cases with ⟨h1, h2, h3, h4⟩ | ⟨h1, h2, h3, h4⟩ <;> rw [h3, h4, h1, h2] <;> exact ⟨rfl, rfl⟩
  intro p q hq
  rcases (h.refs p q).1 hq with ⟨hq, hp, hs⟩ | ⟨rfl, rfl⟩ | ⟨rfl, rfl⟩
  · obtain ⟨hkind, hpq⟩ := hm _ _ hq
    exact ⟨hkind, (h.refs q p).2 (Or.inl ⟨hpq, hs, hp⟩)⟩
  · exact ⟨hk.1, (h.refs _ _).2 (Or.inr (Or.inr ⟨rfl, rfl⟩))⟩
  · exact ⟨hk.2, (h.refs _ _).2 (Or.inr (Or.inl ⟨rfl, rfl⟩))⟩

theorem linked_iff (h : Joined l m m') (hm : m.Mirrored) (hl : l.Oriented) {k : Link} :
    m'.Linked k ↔ k = l ∨ (m.Linked k ∧ k.solo ≠ l.solo) := by
  have hold : m.Linked k → (k.solo ≠ l.solo ↔ k.source ≠ l.solo ∧ k.target ≠ l.solo) :=
    fun hk => (hm.oriented hk).solo_ne_iff hl
  have hnew : k.source.kind.isInput = false ∧ ((k.source = l.solo ∧ k.target = l.shared) ∨
      (k.source = l.shared ∧ k.target = l.solo)) ↔ k = l := by
    obtain ⟨⟨ks, kt⟩, ⟨ls, lt⟩⟩ := k, l
    -- an exec link starts at its end for one link, a data link stops there
    rcases hl.cases with ⟨h1, h2, h3, h4⟩ | ⟨h1, h2, h3, h4⟩ <;>
      simp only [h3, h4, Link.mk.injEq] at h1 h2 ⊢
    · constructor
      · rintro ⟨hi, hk | ⟨rfl, -⟩⟩
        · exact hk
        · rw [h2] at hi
          cases hi
      · rintro ⟨rfl, rfl⟩
        simp [h1, PinKind.isInput]
    · constructor
      · rintro ⟨hi, ⟨rfl, -⟩ | hk⟩
        · rw [h2] at hi
          cases hi
        · exact hk
      · rintro ⟨rfl, rfl⟩
        simp [h1, PinKind.isInput]
  have hkept : k.source.kind.isInput = false ∧
      (k.target ∈ m.refs k.source ∧ k.source ≠ l.solo ∧ k.target ≠ l.solo) ↔
        m.Linked k ∧ k.solo ≠ l.solo := by
    rw [← and_assoc]
    exact and_congr_right fun hk => (hold hk).symm
  rw [← hnew, ← hkept]
  unfold Method.Linked
  rw [h.refs, and_or_left, or_comm]

end Joined

/-! ### The two sorts of wires -/

/-- The two families of pins that a sort of links joins: at a pin of `solo` there is at most one link,
at a pin of `shared` any number. -/
structure Wire (π σ : Type) [Linkable π] [Linkable σ] where
  solo : PinFamily π
  shared : PinFamily σ
  held : π → Option PinRef
  aim : Option PinRef → π → π
  sharing : σ → PinSet
  share : (PinSet → PinSet) → σ → σ
  solo_lawful : solo.Lawful
  shared_lawful : shared.Lawful
  kind_solo : solo.kind = shared.kind.opposite := by rfl
  kind_shared : shared.kind = solo.kind.opposite := by rfl
  refs_solo : ∀ a, refs a = (held a).toList := by intros; rfl
  held_aim : ∀ t a, held (aim t a) = t := by intros; rfl
  clear_aim : ∀ t a, clear (aim t a) = clear a := by intros; rfl
  refs_shared : ∀ b, refs b = (sharing b).toList := by intros; rfl
  sharing_share : ∀ f b, sharing (share f b) = f (sharing b) := by intros; rfl
  clear_share : ∀ f b, clear (share f b) = clear b := by intros; rfl

def execWire : Wire ExecOut ExecIn where
  solo := execOuts
  shared := execIns
  held p := p.outgoing
  aim t p := { p with outgoing := t }
  sharing p := p.incoming
  share f p := { p with incoming := f p.incoming }
  solo_lawful := execOuts_lawful
  shared_lawful := execIns_lawful

def dataWire : Wire DataIn DataOut where
  solo := dataIns
  shared := dataOuts
  held p := p.incoming
  aim t p := { p with incoming := t }
  sharing p := p.outgoing
  share f p := { p with outgoing := f p.outgoing }
  solo_lawful := dataIns_lawful
  shared_lawful := dataOuts_lawful

namespace Wire

variable {π σ : Type} [Linkable π] [Linkable σ] (w : Wire π σ)

/-- Makes the link between `x` and `y`; what `x` was linked to loses its end. -/
def link (x y : PinRef) (named : PinRef → Link) : GraphM (Option Link) := do
  let old ← GraphM.change w.solo x (w.aim (some y))
  if let some t := w.held old then
    let _ ← GraphM.change w.shared t (w.share (·.erase x))
  let _ ← GraphM.change w.shared y (w.share (·.insert x))
  return (w.held old).map named

theorem linkExec_eq (l : Link) :
    GraphM.linkExec l = execWire.link l.source l.target (⟨l.source, ·⟩) := rfl

theorem linkData_eq (l : Link) :
    GraphM.linkData l = dataWire.link l.target l.source (⟨·, l.target⟩) := rfl

variable {w} {m : Method} {x y : PinRef}

theorem exec_aim (t : Option PinRef) {a : π} (h : m.pin? w.solo x = some a) :
    ∃ m', (GraphM.change w.solo x (w.aim t)).exec m = (.ok a, m') ∧ m'.shape = m.shape ∧
      ∀ p q, q ∈ m'.refs p ↔ if p = x then t = some q else q ∈ m.refs p := by
  obtain ⟨m', he, hs, hr⟩ := GraphM.exec_change w.solo_lawful (w.clear_aim t) h
  refine ⟨m', he, hs, fun p q => ?_⟩
  rw [hr]
  split_ifs
  · rw [w.refs_solo, w.held_aim, Option.mem_toList]
  · rfl

theorem exec_share (f : PinSet → PinSet) {b : σ} (h : m.pin? w.shared y = some b) :
    ∃ m', (GraphM.change w.shared y (w.share f)).exec m = (.ok b, m') ∧ m'.shape = m.shape ∧
      ∀ p q, q ∈ m'.refs p ↔ if p = y then q ∈ f (w.sharing b) else q ∈ m.refs p := by
  obtain ⟨m', he, hs, hr⟩ := GraphM.exec_change w.shared_lawful (w.clear_share f) h
  refine ⟨m', he, hs, fun p q => ?_⟩
  rw [hr]
  split_ifs
  · rw [w.refs_shared, w.sharing_share]
    rfl
  · rfl

theorem ne_of_pins {a : π} {b : σ} (hx : m.pin? w.solo x = some a) (hy : m.pin? w.shared y = some b) :
    y ≠ x := by
  -- the kinds of the two families are opposite
  rintro rfl
  have hk := (Method.pin?_eq_some_iff.1 hx).1
  rw [(Method.pin?_eq_some_iff.1 hy).1, w.kind_solo] at hk
  cases hs : w.shared.kind <;> rw [hs] at hk <;> cases hk

/-- `m₁` is `m` after `x` was aimed at `y` and its former partner has let go: only `y` has not answered. -/
structure Awaits (x y : PinRef) (m m₁ : Method) : Prop where
  shape : m₁.shape = m.shape
  refs : ∀ p q, q ∈ m₁.refs p ↔ if p = x then y = q else q ∈ m.refs p ∧ q ≠ x

/-- A pin `x` that held nothing has no partner to let go. -/
theorem awaits_of_none {m₁ : Method} (hm : m.Mirrored) (hnone : ∀ q, q ∉ m.refs x) (hs : m₁.shape = m.shape)
    (hr : ∀ p q, q ∈ m₁.refs p ↔ if p = x then some y = some q else q ∈ m.refs p) : Awaits x y m m₁ := by
  refine ⟨hs, fun p q => ?_⟩
  rw [hr]
  split_ifs
  · simp
  · refine ⟨fun hq => ⟨hq, ?_⟩, And.left⟩
    rintro rfl
    exact hnone p (hm _ _ hq).2

/-- The former partner `t` of `x` lets go. -/
theorem exec_letGo {t : PinRef} {m₁ : Method} (hm : m.Mirrored) (hkx : x.kind = w.solo.kind)
    (ht : ∀ q, q ∈ m.refs x ↔ t = q) (hs : m₁.shape = m.shape)
    (hr : ∀ p q, q ∈ m₁.refs p ↔ if p = x then some y = some q else q ∈ m.refs p) :
    ∃ b m₂, (GraphM.change w.shared t (w.share (·.erase x))).exec m₁ = (.ok b, m₂) ∧ Awaits x y m m₂ := by
  have htx : t ∈ m.refs x := (ht t).2 rfl
  obtain ⟨hk, hxt⟩ := hm _ _ htx
  have hne : t ≠ x := hm.ne htx
  have hkt : t.kind = w.shared.kind := by rw [hk, hkx, w.kind_shared]
  have hxt₁ : x ∈ m₁.refs t := by
    rw [hr, if_neg hne]
    exact hxt
  obtain ⟨b, hb, -⟩ := (Method.mem_refs_iff w.shared_lawful hkt).1 hxt₁
  obtain ⟨m₂, he₂, hs₂, hr₂⟩ := exec_share (·.erase x) hb
  refine ⟨b, m₂, he₂, hs₂.trans hs, fun p q => ?_⟩
  rw [hr₂]
  -- at `t` the reference to `x` is dropped, at other pins there was none but `t`'s
  by_cases hpt : p = t
  · subst hpt
    have hold : q ∈ w.sharing b ↔ q ∈ m.refs p := by
      have hq := hr p q
      rw [if_neg hne, Method.refs_of_pin? w.shared_lawful hb, w.refs_shared] at hq
      exact hq
    rw [if_pos rfl, if_neg hne, SortedSet.mem_erase, hold]
  · rw [if_neg hpt, hr]
    split_ifs
    · simp
    · refine ⟨fun hq => ⟨hq, ?_⟩, And.left⟩
      rintro rfl
      exact hpt ((ht p).1 (hm _ _ hq).2).symm

/-- The new partner `y` answers. -/
theorem exec_answer {m₁ : Method} (h : Awaits x y m m₁) (hyx : y ≠ x) {b : σ}
    (hy : m.pin? w.shared y = some b) :
    ∃ b' m', (GraphM.change w.shared y (w.share (·.insert x))).exec m₁ = (.ok b', m') ∧
      m'.shape = m.shape ∧
      ∀ p q, q ∈ m'.refs p ↔ (q ∈ m.refs p ∧ p ≠ x ∧ q ≠ x) ∨ (p = x ∧ q = y) ∨ (p = y ∧ q = x) := by
  obtain ⟨b₁, hy₁, -⟩ := Method.exists_pin?_of_shape w.shared_lawful h.shape.symm hy
  obtain ⟨m', he, hs, hr⟩ := exec_share (·.insert x) hy₁
  refine ⟨b₁, m', he, hs.trans h.shape, fun p q => ?_⟩
  rw [hr]
  by_cases hp : p = y
  · -- the new answer, next to those that were there before and are not for `x`
    subst hp
    have hb : q ∈ w.sharing b₁ ↔ q ∈ m.refs p ∧ q ≠ x := by
      have hq := h.refs p q
      rw [if_neg hyx, Method.refs_of_pin? w.shared_lawful hy₁, w.refs_shared] at hq
      exact hq
    rw [if_pos rfl, SortedSet.mem_insert, hb]
    simp only [ne_eq, hyx, not_false_eq_true, true_and, false_and, false_or]
    exact or_comm
  · rw [if_neg hp, h.refs]
    by_cases hpx : p = x
    · simp [hpx, hyx.symm, eq_comm]
    · simp [hp, hpx]

/-- `link` aims `x` at `y`, has the former partner of `x` let go, if there is one, and lets `y` answer. -/
theorem exec_link (hm : m.Mirrored) {a : π} {b : σ} (hx : m.pin? w.solo x = some a)
    (hy : m.pin? w.shared y = some b) (named : PinRef → Link) :
    ∃ m', (w.link x y named).exec m = (.ok ((w.held a).map named), m') ∧ m'.shape = m.shape ∧
      ∀ p q, q ∈ m'.refs p ↔ (q ∈ m.refs p ∧ p ≠ x ∧ q ≠ x) ∨ (p = x ∧ q = y) ∨ (p = y ∧ q = x) := by
  have hyx : y ≠ x := ne_of_pins hx hy
  have hax : ∀ q, q ∈ m.refs x ↔ w.held a = some q := fun q => by
    rw [Method.refs_of_pin? w.solo_lawful hx, w.refs_solo, Option.mem_toList]
  obtain ⟨m₁, he₁, hs₁, hr₁⟩ := exec_aim (some y) hx
  unfold link
  rw [exec_bind_ok he₁]
  cases ht : w.held a with
  | none =>
    have hnone : ∀ q, q ∉ m.refs x := fun q hq => by simp [ht] at hax; exact hax q hq
    obtain ⟨b', m', he, hs, hr⟩ := exec_answer (awaits_of_none hm hnone hs₁ hr₁) hyx hy
    exact ⟨m', exec_bind_ok he _, hs, hr⟩
  | some t =>
    have hax' : ∀ q, q ∈ m.refs x ↔ t = q := fun q => by rw [hax, ht, Option.some_inj]
    obtain ⟨b₂, m₂, he₂, hawaits⟩ := exec_letGo hm (Method.pin?_eq_some_iff.1 hx).1 hax' hs₁ hr₁
    obtain ⟨b', m', he, hs, hr⟩ := exec_answer hawaits hyx hy
    exact ⟨m', (exec_bind_ok he₂ _).trans (exec_bind_ok he _), hs, hr⟩

end Wire

/-! ### Severing -/

section Sever

variable {π σ : Type} [Linkable π] [Linkable σ] {here : PinFamily π} {there : PinFamily σ}
  {f : π → π} {g : σ → σ} {m : Method} {pin : PinRef}

/-- The pins `ss` that hold a reference to `pin` drop it one by one. -/
theorem exec_dropEach (hT : there.Lawful) (hg : ∀ b, clear (g b) = clear b)
    (hdrop : ∀ b, pin ∈ refs b → ∀ q, q ∈ refs (g b) ↔ q ∈ refs b ∧ q ≠ pin)
    (named : PinRef → Link) (ss : List PinRef) (m : Method) (hnd : ss.Nodup)
    (hss : ∀ s ∈ ss, s.kind = there.kind ∧ pin ∈ m.refs s) :
    ∃ m', (ss.mapM fun s => do
        let _ ← GraphM.change there s g
        return named s : GraphM (List Link)).exec m = (.ok (ss.map named), m') ∧
      m'.shape = m.shape ∧ ∀ p q, q ∈ m'.refs p ↔ q ∈ m.refs p ∧ ¬ (p ∈ ss ∧ q = pin) := by
  induction ss generalizing m with
  | nil => exact ⟨m, rfl, rfl, by simp⟩
  | cons s ss ih =>
    obtain ⟨hs, hnd⟩ := List.nodup_cons.1 hnd
    obtain ⟨hk, hpin⟩ := hss s (by simp)
    obtain ⟨b, hb, hmem⟩ := (Method.mem_refs_iff hT hk).1 hpin
    obtain ⟨m₁, he₁, hs₁, hr₁⟩ := GraphM.exec_change hT hg hb
    -- those still to come are other pins and hold what they held
    have hss₁ : ∀ s' ∈ ss, s'.kind = there.kind ∧ pin ∈ m₁.refs s' := by
      intro s' hs'
      have hne : s' ≠ s := fun he => hs (he ▸ hs')
      rw [hr₁, if_neg hne]
      exact hss s' (by simp [hs'])
    obtain ⟨m', he, hsh, hr⟩ := ih m₁ hnd hss₁
    refine ⟨m', ?_, hsh.trans hs₁, fun p q => ?_⟩
    · rw [List.mapM_cons, bind_assoc, exec_bind_ok he₁, pure_bind, exec_bind_ok he]
      rfl
    · rw [hr, hr₁]
      split_ifs with hp
      · subst hp
        rw [hdrop b hmem, Method.refs_of_pin? hT hb]
        simp only [List.mem_cons, true_or, true_and, hs, false_and, not_false_eq_true, and_true,
          ne_eq]
      · simp [hp]

/-- `pin` lets go of all its links, and then each of its partners does. -/
theorem exec_sever (hH : here.Lawful) (hT : there.Lawful) (hk : there.kind = here.kind.opposite)
    (hf : ∀ a, clear (f a) = clear a) (hnone : ∀ a, refs (f a) = [])
    (hg : ∀ b, clear (g b) = clear b)
    (hdrop : ∀ b, pin ∈ refs b → ∀ q, q ∈ refs (g b) ↔ q ∈ refs b ∧ q ≠ pin)
    (hm : m.Mirrored) {a : π} (hp : m.pin? here pin = some a) (named : PinRef → Link) :
    ∃ m', (do
        let old ← GraphM.change here pin f
        (refs old).mapM fun s => do
          let _ ← GraphM.change there s g
          return named s : GraphM (List Link)).exec m = (.ok ((m.refs pin).map named), m') ∧
      Severed (· = pin) m m' := by
  have hra : m.refs pin = refs a := Method.refs_of_pin? hH hp
  obtain ⟨m₁, he₁, hs₁, hr₁⟩ := GraphM.exec_change hH hf hp
  have hss : ∀ s ∈ refs a, s.kind = there.kind ∧ pin ∈ m₁.refs s := by
    intro s hs
    rw [← hra] at hs
    obtain ⟨hks, hps⟩ := hm _ _ hs
    rw [hr₁, if_neg (hm.ne hs), hk, hks, (Method.pin?_eq_some_iff.1 hp).1]
    exact ⟨rfl, hps⟩
  obtain ⟨m', he, hs, hr⟩ := exec_dropEach hT hg hdrop named (refs a) m₁ (nodup_refs a) hss
  refine ⟨m', ?_, hs.trans hs₁, fun p q => ?_⟩
  · rw [exec_bind_ok he₁, he, hra]
  · rw [hr, hr₁, ← hra]
    split_ifs with hpp
    · simp [hnone, hpp]
    · -- a pin that refers to the severed one is one of its partners
      constructor
      · rintro ⟨hq, hn⟩
        exact ⟨hq, hpp, fun he => hn ⟨(hm _ _ (he ▸ hq)).2, he⟩⟩
      · rintro ⟨hq, -, hqp⟩
        exact ⟨hq, fun hn => hqp hn.2⟩

end Sever

namespace Wire

variable {π σ : Type} [Linkable π] [Linkable σ] {w : Wire π σ} {m : Method} {x y : PinRef}

theorem exec_severSolo (hm : m.Mirrored) {a : π} (hx : m.pin? w.solo x = some a)
    (named : PinRef → Link) :
    ∃ m', (do
        let old ← GraphM.change w.solo x (w.aim none)
        (w.held old).toList.mapM fun t => do
          let _ ← GraphM.change w.shared t (w.share (·.erase x))
          return named t : GraphM (List Link)).exec m = (.ok ((m.refs x).map named), m') ∧
      Severed (· = x) m m' := by
  simp only [← w.refs_solo]
  refine exec_sever w.solo_lawful w.shared_lawful w.kind_shared (w.clear_aim _) ?_ (w.clear_share _)
    ?_ hm hx named
  · intro a
    rw [w.refs_solo, w.held_aim]
    rfl
  · intro b _ q
    rw [w.refs_shared, w.sharing_share, w.refs_shared]
    exact SortedSet.mem_erase

theorem exec_severShared (hm : m.Mirrored) {b : σ} (hy : m.pin? w.shared y = some b)
    (named : PinRef → Link) :
    ∃ m', (do
        let old ← GraphM.change w.shared y (w.share fun _ => .empty)
        (w.sharing old).toList.mapM fun s => do
          let _ ← GraphM.change w.solo s (w.aim none)
          return named s : GraphM (List Link)).exec m = (.ok ((m.refs y).map named), m') ∧
      Severed (· = y) m m' := by
  simp only [← w.refs_shared]
  refine exec_sever w.shared_lawful w.solo_lawful w.kind_solo (w.clear_share _) ?_ (w.clear_aim _)
    ?_ hm hy named
  · intro b
    rw [w.refs_shared, w.sharing_share]
    rfl
  · intro a ha q
    -- the only reference of such a pin is the one to drop
    rw [w.refs_solo, Option.mem_toList] at ha
    rw [w.refs_solo, w.held_aim, w.refs_solo, Option.mem_toList, Option.mem_toList, ha]
    simp [eq_comm]

/-- To sever the one link of `x`, both ends let go. -/
theorem exec_unlink (hm : m.Mirrored) {a : π} (hx : m.pin? w.solo x = some a)
    (hy : w.held a = some y) :
    ∃ m', (do
        let _ ← GraphM.change w.solo x (w.aim none)
        let _ ← GraphM.change w.shared y (w.share (·.erase x))
        return true : GraphM Bool).exec m = (.ok true, m') ∧ Severed (· = x) m m' := by
  -- the same changes as those that sever all the links of `x`, of which there is one
  obtain ⟨m', he, hsev⟩ := exec_severSolo hm hx fun t => ⟨x, t⟩
  obtain ⟨m₁, he₁, -⟩ := exec_aim none hx
  rw [exec_bind_ok he₁, hy, Option.toList_some, List.mapM_cons, bind_assoc] at he
  rw [exec_bind_ok he₁]
  rcases hb : (GraphM.change w.shared y (w.share (·.erase x))).exec m₁ with ⟨e | b, m₂⟩
  · rw [exec_bind_error hb] at he
    cases he
  · rw [exec_bind_ok hb] at he ⊢
    have hm' : m₂ = m' := congrArg Prod.snd he
    exact ⟨m₂, rfl, hm' ▸ hsev⟩

end Wire

/-- The link that has to make room for `l`: the one that `l.solo` has. -/
def Method.inPlaceOf (m : Method) (l : Link) : Option Link :=
  (m.refs l.solo).head?.map l.solo.linkTo

theorem Method.Mirrored.inPlaceOf_eq_some_iff {m : Method} (hm : m.Mirrored) {l d : Link}
    (hl : l.Oriented) : m.inPlaceOf l = some d ↔ m.Linked d ∧ d.solo = l.solo := by
  have hkind := hl.kind_solo
  unfold Method.inPlaceOf
  rw [Option.map_eq_some_iff]
  constructor
  · rintro ⟨q, hq, rfl⟩
    have hd := hm.mem_refs_iff_linked.1 (List.mem_of_head? hq)
    exact ⟨hd, PinRef.solo_linkTo hkind (hm.oriented hd)⟩
  · rintro ⟨hd, hs⟩
    have hends : d.source = l.solo ∨ d.target = l.solo := by
      rcases d.solo_eq with h | h
      · exact Or.inl (h ▸ hs)
      · exact Or.inr (h ▸ hs)
    obtain ⟨q, hq, rfl⟩ := hm.exists_linkTo hd hends
    refine ⟨q, ?_, rfl⟩
    cases hr : m.refs l.solo with
    | nil => simp [hr] at hq
    | cons q' qs =>
      rw [List.head?_cons, Method.eq_of_mem_refs hkind hq (by rw [hr]; exact List.mem_cons_self)]

namespace GraphM

variable {m : Method}

theorem exec_disconnect (hm : m.Mirrored) {pin : PinRef} (hp : m.containsPin pin = true) :
    ∃ m', (disconnect pin).exec m = (.ok ((m.refs pin).map pin.linkTo), m') ∧
      Severed (· = pin) m m' := by
  have hlink : pin.linkTo = fun s => if pin.kind.isInput then ⟨s, pin⟩ else ⟨pin, s⟩ := rfl
  unfold Method.containsPin at hp
  unfold disconnect
  rw [hlink]
  cases hk : pin.kind <;> rw [hk] at hp <;> obtain ⟨a, ha⟩ := Option.isSome_iff_exists.1 hp
  · exact execWire.exec_severShared hm ha _
  · exact execWire.exec_severSolo hm ha _
  · exact dataWire.exec_severSolo hm ha _
  · exact dataWire.exec_severShared hm ha _

theorem exec_disconnect_missing {pin : PinRef} (hp : m.containsPin pin = false) :
    (disconnect pin).exec m =
      (.error (if (m.node? pin.node).isNone then .nodeNotFound pin.node else .pinNotFound pin), m) := by
  have hfault : ∀ {π : Type} (F : PinFamily π), pin.kind = F.kind →
      m.pinFault F pin = if (m.node? pin.node).isNone then .nodeNotFound pin.node else .pinNotFound pin := by
    intro π F hk
    unfold Method.pinFault
    simp only [hk, true_and]
  unfold Method.containsPin at hp
  unfold disconnect
  cases hk : pin.kind <;> rw [hk] at hp <;> rw [Option.isSome_eq_false_iff, Option.isNone_iff_eq_none] at hp
  · rw [← hfault execIns hk]
    exact exec_bind_error (exec_change_none hp) _
  · rw [← hfault execOuts hk]
    exact exec_bind_error (exec_change_none hp) _
  · rw [← hfault dataIns hk]
    exact exec_bind_error (exec_change_none hp) _
  · rw [← hfault dataOuts hk]
    exact exec_bind_error (exec_change_none hp) _

theorem exec_disconnect_error {pin : PinRef} (hp : m.containsPin pin = false) :
    ∃ e, (disconnect pin).exec m = (.error e, m) := ⟨_, exec_disconnect_missing hp⟩

theorem exec_connect_linked {c : TypeCatalog} {a b : PinRef} {l : Link}
    (hc : m.checkConnection c a b = .ok l) (hl : m.isLinked l = true) :
    (connect c a b).exec m = (.ok none, m) := by
  unfold connect
  rw [exec_get_bind, hc]
  show (if m.isLinked l = true then _ else _ : GraphM (Option Link)).exec m = _
  rw [if_pos hl]
  rfl

theorem exec_connect_error {c : TypeCatalog} {a b : PinRef} {e : GraphError}
    (hc : m.checkConnection c a b = .error e) : (connect c a b).exec m = (.error e, m) := by
  unfold connect
  rw [exec_get_bind, hc]
  rfl

theorem exec_connect_unlinked {c : TypeCatalog} {a b : PinRef} {l : Link}
    (hc : m.checkConnection c a b = .ok l) (hl : m.isLinked l = false) :
    (connect c a b).exec m = (if l.isExec then linkExec l else linkData l).exec m := by
  unfold connect
  rw [exec_get_bind, hc]
  show (if m.isLinked l = true then _ else _ : GraphM (Option Link)).exec m = _
  rw [hl]
  rfl

/-- A link that is not there yet is made, and what had to make room for it (`Method.inPlaceOf`) is told. -/
theorem exec_connect {c : TypeCatalog} {a b : PinRef} {l : Link} (hm : m.Mirrored)
    (hc : m.checkConnection c a b = .ok l) (hl : m.isLinked l = false) :
    ∃ m', (connect c a b).exec m = (.ok (m.inPlaceOf l), m') ∧ Joined l m m' := by
  rw [exec_connect_unlinked hc hl]
  -- both kinds of links are wires, with the single end at the source or at the target
  obtain ⟨x, y, hx, hy⟩ | ⟨x, y, hx, hy, -⟩ := (Method.checkConnection_eq_ok_iff.1 hc).1
  · have hk : l.source.kind = .execOut := (Method.pin?_eq_some_iff.1 hx).1
    have he : l.isExec = true := by simp [Link.isExec, hk, PinKind.isExec]
    have hsolo : l.solo = l.source := if_pos he
    have hshared : l.shared = l.target := if_pos he
    obtain ⟨m', hrun', hs, hr⟩ := execWire.exec_link hm hx hy (⟨l.source, ·⟩)
    refine ⟨m', ?_, hs, by rw [hsolo, hshared]; exact hr⟩
    rw [if_pos he, Wire.linkExec_eq, hrun', Method.inPlaceOf, hsolo,
      Method.refs_of_pin? execOuts_lawful hx, PinRef.linkTo_of_output (by rw [hk]; rfl)]
    simp [Linkable.refs, execWire]
  · have hk : l.source.kind = .dataOut := (Method.pin?_eq_some_iff.1 hx).1
    have hk' : l.target.kind = .dataIn := (Method.pin?_eq_some_iff.1 hy).1
    have he : l.isExec = false := by simp [Link.isExec, hk, PinKind.isExec]
    have hsolo : l.solo = l.target := by simp [Link.solo, he]
    have hshared : l.shared = l.source := by simp [Link.shared, he]
    obtain ⟨m', hrun', hs, hr⟩ := dataWire.exec_link hm hy hx (⟨·, l.target⟩)
    refine ⟨m', ?_, hs, by rw [hsolo, hshared]; exact hr⟩
    rw [he, if_neg Bool.false_ne_true, Wire.linkData_eq, hrun', Method.inPlaceOf, hsolo,
      Method.refs_of_pin? dataIns_lawful hy, PinRef.linkTo_of_input (by rw [hk']; rfl)]
    simp [Linkable.refs, dataWire]

theorem exec_unlink_false {l : Link} (hl : m.isLinked l = false) :
    (unlink l).exec m = (.ok false, m) := by
  unfold unlink
  rw [exec_get_bind, hl]
  rfl

theorem exec_unlink {l : Link} (hm : m.Mirrored) (hl : m.isLinked l = true) :
    ∃ m', (unlink l).exec m = (.ok true, m') ∧ Severed (· = l.solo) m m' := by
  unfold unlink
  rw [exec_get_bind, hl]
  unfold Method.isLinked at hl
  unfold Link.solo
  by_cases he : l.isExec = true
  · rw [if_pos he, decide_eq_true_eq, Option.bind_eq_some_iff] at hl
    obtain ⟨a, ha, ht⟩ := hl
    simp only [he, Bool.not_true, Bool.false_eq_true, if_false, if_true]
    exact execWire.exec_unlink hm ha ht
  · rw [if_neg he, decide_eq_true_eq, Option.bind_eq_some_iff] at hl
    obtain ⟨a, ha, ht⟩ := hl
    simp only [he, Bool.not_true, Bool.false_eq_true, if_false]
    exact dataWire.exec_unlink hm ha ht

end GraphM

end VisualScript
