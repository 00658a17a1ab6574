import Mathlib.Data.List.Sort
import VisualScript.Proofs.Graph.Operation

/-!
# The ends of links

A graph is looked at from two sides. Its `shape` is all that is left once every link is dropped: the
nodes, their kinds and their pins. Its `refs` are the references that each pin holds, whichever of the
four sorts of pins it is. The two together are the whole method (`eq_of_shape_of_refs`), so an
operation is described by what it does to either.

* `PinFamily.Lawful` says that a family of pins reads and writes its own pins of a node and no others.
* `exec_change` is the one lemma about `change`: it keeps the shape and rewrites the references of
  a single pin.
-/

namespace VisualScript

theorem SortedSet.nodup {α : Type} [Ranked α] (s : SortedSet α) : s.toList.Nodup := by
  refine s.sorted.imp ?_
  rintro a _ hab rfl
  exact Ranked.before_irrefl a hab

/-- A `SortedSet` is known by its members. -/
theorem SortedSet.eq_of_mem_iff {α : Type} [Ranked α] {s t : SortedSet α}
    (h : ∀ a, a ∈ s.toList ↔ a ∈ t.toList) : s = t := by
  have hp : s.toList.Perm t.toList := (List.perm_ext_iff_of_nodup s.nodup t.nodup).2 h
  have hl : s.toList = t.toList := hp.eq_of_pairwise
    (fun a b _ _ hab hba => absurd (hab.trans hba) (Ranked.before_irrefl a)) s.sorted t.sorted
  cases s
  cases t
  cases hl
  rfl

/-- What the four sorts of pins share: the references `refs` a pin holds, and `clear`, the pin without them. -/
class Linkable (π : Type) where
  refs : π → List PinRef
  clear : π → π
  refs_clear : ∀ a, refs (clear a) = [] := by intros; rfl
  nodup_refs : ∀ a, (refs a).Nodup
  /-- A pin is what `clear` leaves of it, and the set of its `refs`. -/
  ext : ∀ a b, clear a = clear b → (∀ q, q ∈ refs a ↔ q ∈ refs b) → a = b

instance : Linkable ExecIn where
  refs p := p.incoming.toList
  clear p := { p with incoming := .empty }
  nodup_refs p := p.incoming.nodup
  ext := by
    rintro ⟨_, a⟩ ⟨_, b⟩ hc hr
    cases hc
    have h : a = b := SortedSet.eq_of_mem_iff hr
    rw [h]

instance : Linkable ExecOut where
  refs p := p.outgoing.toList
  clear p := { p with outgoing := none }
  nodup_refs p := by rcases p with ⟨_, _ | _⟩ <;> simp
  ext := by
    rintro ⟨_, a⟩ ⟨_, b⟩ hc hr
    cases hc
    have h : a = b := Option.ext fun q => by simpa using hr q
    rw [h]

instance : Linkable DataIn where
  refs p := p.incoming.toList
  clear p := { p with incoming := none }
  nodup_refs p := by rcases p with ⟨_, _, _ | _⟩ <;> simp
  ext := by
    rintro ⟨_, _, a⟩ ⟨_, _, b⟩ hc hr
    cases hc
    have h : a = b := Option.ext fun q => by simpa using hr q
    rw [h]

instance : Linkable DataOut where
  refs p := p.outgoing.toList
  clear p := { p with outgoing := .empty }
  nodup_refs p := p.outgoing.nodup
  ext := by
    rintro ⟨_, _, a⟩ ⟨_, _, b⟩ hc hr
    cases hc
    have h : a = b := SortedSet.eq_of_mem_iff hr
    rw [h]

open Linkable

/-- The references that the pin of a node at `kind` and `slot` holds. -/
def Node.refs (n : Node) (kind : PinKind) (slot : Nat) : List PinRef :=
  match kind with
  | .execIn => ((n.execIns[slot]?).map Linkable.refs).getD []
  | .execOut => ((n.execOuts[slot]?).map Linkable.refs).getD []
  | .dataIn => ((n.dataIns[slot]?).map Linkable.refs).getD []
  | .dataOut => ((n.dataOuts[slot]?).map Linkable.refs).getD []

namespace Method

/-- The references that the pin `p` holds; none if there is no such pin. -/
def refs (m : Method) (p : PinRef) : List PinRef :=
  ((m.node? p.node).map (·.refs p.kind p.slot)).getD []

/-- The method without any link. -/
def shape (m : Method) : Method := { m with nodes := m.nodes.map Node.unlinked }

end Method

theorem Node.nodup_refs (n : Node) (kind : PinKind) (slot : Nat) : (n.refs kind slot).Nodup := by
  have h : ∀ {π : Type} [Linkable π] (pin : Option π), ((pin.map Linkable.refs).getD []).Nodup := by
    intro π _ pin
    cases pin with
    | none => exact List.nodup_nil
    | some a => exact Linkable.nodup_refs a
  cases kind <;> exact h _

theorem Method.nodup_refs (m : Method) (p : PinRef) : (m.refs p).Nodup := by
  unfold refs
  cases m.node? p.node with
  | none => exact List.nodup_nil
  | some n => exact n.nodup_refs p.kind p.slot

/-! ### Families of pins -/

/-- A family that reads and writes its own pins of a node and leaves all else alone. -/
structure PinFamily.Lawful {π : Type} [Linkable π] (F : PinFamily π) : Prop where
  pins_setPins : ∀ n ps, F.pins (F.setPins n ps) = ps := by intros; rfl
  setPins_pins : ∀ n, F.setPins n (F.pins n) = n := by intros; rfl
  id_setPins : ∀ n ps, (F.setPins n ps).id = n.id := by intros; rfl
  refs_pins : ∀ n slot, n.refs F.kind slot = (((F.pins n)[slot]?).map refs).getD [] := by
    intros; rfl
  refs_setPins : ∀ n ps kind slot, kind ≠ F.kind →
    (F.setPins n ps).refs kind slot = n.refs kind slot := by
    intro _ _ kind _ h; cases kind <;> first | rfl | exact absurd rfl h
  pins_unlinked : ∀ n, F.pins n.unlinked = (F.pins n).map clear := by intros; rfl
  unlinked_setPins : ∀ n ps, (F.setPins n ps).unlinked = F.setPins n.unlinked (ps.map clear) := by
    intros; rfl

theorem execIns_lawful : execIns.Lawful where

theorem execOuts_lawful : execOuts.Lawful where

theorem dataIns_lawful : dataIns.Lawful where

theorem dataOuts_lawful : dataOuts.Lawful where

/-! ### Looking up nodes -/

namespace Method

variable {m : Method} {id : NodeId} {n : Node}

theorem id_of_node? (h : m.node? id = some n) : n.id = id := by
  have := List.find?_some h
  simpa using this

theorem node?_id (h : m.node? id = some n) : m.node? n.id = some n := by
  rw [id_of_node? h]
  exact h

theorem mem_of_node? (h : m.node? id = some n) : n ∈ m.nodes := List.mem_of_find?_eq_some h

theorem node?_eq_none_iff : m.node? id = none ↔ ∀ n ∈ m.nodes, n.id ≠ id := by
  simp [node?]

/-- Nodes stand in rising order of their ids. -/
def Ordered (m : Method) : Prop := m.nodes.Pairwise fun a b => a.id < b.id

theorem Ordered.eq_of_id {a b : Node} (h : m.Ordered) (ha : a ∈ m.nodes) (hb : b ∈ m.nodes)
    (hid : a.id = b.id) : a = b := by
  have hnd : (m.nodes.map (·.id)).Nodup := List.pairwise_map.2 (h.imp Nat.ne_of_lt)
  exact List.inj_on_of_nodup_map hnd ha hb hid

theorem Ordered.node?_of_mem (h : m.Ordered) (hn : n ∈ m.nodes) : m.node? n.id = some n := by
  cases hf : m.node? n.id with
  | none => exact absurd rfl (node?_eq_none_iff.1 hf n hn)
  | some a => rw [h.eq_of_id (mem_of_node? hf) hn (id_of_node? hf)]

theorem node?_changeNode {f : Node → Node} (hf : ∀ n, (f n).id = n.id) (i : NodeId) :
    (m.changeNode id f).node? i = if i = id then (m.node? i).map f else m.node? i := by
  have hg : ∀ n, (if n.id = id then f n else n).id = n.id := by
    intro n
    split_ifs
    · exact hf n
    · rfl
  have hm : (m.changeNode id f).node? i = (m.node? i).map fun n => if n.id = id then f n else n := by
    unfold changeNode node?
    rw [List.find?_map]
    congr 2
    funext n
    simp only [Function.comp_apply, hg]
  rw [hm]
  cases hn : m.node? i with
  | none => simp
  | some n =>
    have hi : n.id = i := id_of_node? hn
    simp only [Option.map_some, hi]
    split_ifs <;> rfl

theorem node?_shape (m : Method) (i : NodeId) : m.shape.node? i = (m.node? i).map Node.unlinked := by
  unfold shape node?
  rw [List.find?_map]
  rfl

theorem ordered_shape : m.shape.Ordered ↔ m.Ordered := List.pairwise_map

end Method

/-! ### Looking up pins -/

namespace Method

variable {π : Type} {F : PinFamily π} {f : π → π} {m : Method} {p : PinRef} {pin : π}

theorem pin?_eq_some_iff : m.pin? F p = some pin ↔
    p.kind = F.kind ∧ ∃ n, m.node? p.node = some n ∧ (F.pins n)[p.slot]? = some pin := by
  unfold pin?
  split_ifs with h
  · simp [h, Option.bind_eq_some_iff]
  · simp [h]

variable [Linkable π]

/-- Only a pin that `pin?` finds holds references. -/
theorem mem_refs_iff (hF : F.Lawful) (hk : p.kind = F.kind) {q : PinRef} :
    q ∈ m.refs p ↔ ∃ pin, m.pin? F p = some pin ∧ q ∈ Linkable.refs pin := by
  unfold refs pin?
  rw [if_pos hk, hk]
  cases m.node? p.node with
  | none => simp
  | some n =>
    simp only [Option.map_some, Option.getD_some, Option.bind_some, hF.refs_pins]
    cases (F.pins n)[p.slot]? <;> simp

theorem refs_of_pin? (hF : F.Lawful) (h : m.pin? F p = some pin) : m.refs p = Linkable.refs pin := by
  obtain ⟨hk, n, hn, hp⟩ := pin?_eq_some_iff.1 h
  unfold refs
  rw [hn, hk, Option.map_some, Option.getD_some, hF.refs_pins, hp]
  rfl

theorem pin?_shape (hF : F.Lawful) (m : Method) (p : PinRef) :
    m.shape.pin? F p = (m.pin? F p).map clear := by
  unfold pin?
  split_ifs
  · rw [node?_shape]
    cases m.node? p.node with
    | none => rfl
    | some n => simp [hF.pins_unlinked]
  · rfl

theorem exists_pin?_of_shape {m' : Method} (hF : F.Lawful) (hs : m.shape = m'.shape)
    (h : m.pin? F p = some pin) : ∃ pin', m'.pin? F p = some pin' ∧ clear pin' = clear pin := by
  have hc : (m'.pin? F p).map clear = some (clear pin) := by
    rw [← pin?_shape hF, ← hs, pin?_shape hF, h]
    rfl
  exact Option.map_eq_some_iff.1 hc

theorem refs_changePin (hF : F.Lawful) (h : m.pin? F p = some pin) (q : PinRef) :
    (m.changePin F p f).refs q = if q = p then Linkable.refs (f pin) else m.refs q := by
  obtain ⟨hk, n, hn, hp⟩ := pin?_eq_some_iff.1 h
  unfold refs changePin
  rw [node?_changeNode fun n => hF.id_setPins n _]
  -- the pin itself, another slot, another kind of pin, another node
  by_cases hq : q.node = p.node
  · rw [if_pos hq, hq, hn]
    simp only [Option.map_some, Option.getD_some]
    by_cases hkind : q.kind = F.kind
    · rw [hkind, hF.refs_pins, hF.refs_pins, hF.pins_setPins, List.getElem?_modify]
      by_cases hslot : q.slot = p.slot
      · have he : q = p := by
          cases q
          cases p
          simp_all
        rw [if_pos he, hslot, hp]
        simp
      · have he : q ≠ p := fun he => hslot (he ▸ rfl)
        rw [if_neg he]
        simp [Ne.symm hslot]
    · have he : q ≠ p := fun he => hkind (he ▸ hk)
      rw [if_neg he, hF.refs_setPins _ _ _ _ hkind]
  · have he : q ≠ p := fun he => hq (he ▸ rfl)
    rw [if_neg he, if_neg hq]

theorem shape_changePin (hF : F.Lawful) (hf : ∀ a, clear (f a) = clear a) (m : Method) (p : PinRef) :
    (m.changePin F p f).shape = m.shape := by
  -- node by node: the changed pin is the same again once it is cleared
  have hn : ∀ n, (F.setPins n ((F.pins n).modify p.slot f)).unlinked = n.unlinked := by
    intro n
    have hc : ((F.pins n).modify p.slot f).map clear = (F.pins n).map clear := by
      apply List.ext_getElem?
      intro i
      rw [List.getElem?_map, List.getElem?_map, List.getElem?_modify]
      cases (F.pins n)[i]? with
      | none => rfl
      | some a => by_cases hi : p.slot = i <;> simp [hi, hf]
    rw [hF.unlinked_setPins, hc, ← hF.pins_unlinked, hF.setPins_pins]
  unfold shape changePin changeNode
  congr 1
  rw [List.map_map]
  refine List.map_congr_left fun n _ => ?_
  simp only [Function.comp_apply]
  split_ifs
  · exact hn n
  · rfl

end Method

/-! ### A method is its shape and its references -/

theorem pins_ext {π : Type} [Linkable π] {ps qs : List π} (hc : ps.map clear = qs.map clear)
    (hr : ∀ (slot : Nat) q, q ∈ ((ps[slot]?).map Linkable.refs).getD [] ↔
      q ∈ ((qs[slot]?).map Linkable.refs).getD []) : ps = qs := by
  apply List.ext_getElem?
  intro i
  have hi : (ps[i]?).map clear = (qs[i]?).map clear := by
    rw [← List.getElem?_map, ← List.getElem?_map, hc]
  have hri := hr i
  cases hp : ps[i]? with
  | none => cases hq : qs[i]? with
    | none => rfl
    | some b => simp [hp, hq] at hi
  | some a => cases hq : qs[i]? with
    | none => simp [hp, hq] at hi
    | some b =>
      simp only [hp, hq, Option.map_some, Option.some.injEq, Option.getD_some] at hi hri
      rw [Linkable.ext a b hi hri]

theorem Node.eq_of_unlinked_of_refs {a b : Node} (hu : a.unlinked = b.unlinked)
    (hr : ∀ kind slot q, q ∈ a.refs kind slot ↔ q ∈ b.refs kind slot) : a = b := by
  obtain ⟨_, _, _, ei, eo, di, dO⟩ := a
  obtain ⟨_, _, _, ei', eo', di', dO'⟩ := b
  simp only [Node.unlinked, Node.mk.injEq] at hu
  obtain ⟨rfl, rfl, rfl, h1, h2, h3, h4⟩ := hu
  have e1 : ei = ei' := pins_ext h1 (hr .execIn)
  have e2 : eo = eo' := pins_ext h2 (hr .execOut)
  have e3 : di = di' := pins_ext h3 (hr .dataIn)
  have e4 : dO = dO' := pins_ext h4 (hr .dataOut)
  rw [e1, e2, e3, e4]

theorem Method.refs_of_mem {m : Method} {n : Node} (h : m.Ordered) (hn : n ∈ m.nodes)
    (kind : PinKind) (slot : Nat) : m.refs ⟨n.id, kind, slot⟩ = n.refs kind slot := by
  unfold Method.refs
  rw [h.node?_of_mem hn]
  rfl

theorem Method.eq_of_shape_of_refs {a b : Method} (ho : a.Ordered) (hs : a.shape = b.shape)
    (hr : ∀ p q, q ∈ a.refs p ↔ q ∈ b.refs p) : a = b := by
  have ho' : b.Ordered := ordered_shape.1 (hs ▸ ordered_shape.2 ho)
  have hn : a.nodes.map Node.unlinked = b.nodes.map Node.unlinked := congrArg Method.nodes hs
  -- nodes at the same place have the same id, and then the same references
  have hnodes : a.nodes = b.nodes := by
    apply List.ext_getElem?
    intro i
    have hi : (a.nodes[i]?).map Node.unlinked = (b.nodes[i]?).map Node.unlinked := by
      rw [← List.getElem?_map, ← List.getElem?_map, hn]
    cases hx : a.nodes[i]? with
    | none => cases hy : b.nodes[i]? with
      | none => rfl
      | some y => simp [hx, hy] at hi
    | some x => cases hy : b.nodes[i]? with
      | none => simp [hx, hy] at hi
      | some y =>
        simp only [hx, hy, Option.map_some, Option.some.injEq] at hi
        have hid : x.unlinked.id = y.unlinked.id := congrArg Node.id hi
        have hxy : x = y := by
          refine Node.eq_of_unlinked_of_refs hi fun kind slot q => ?_
          rw [← refs_of_mem ho (List.mem_of_getElem? hx), ← refs_of_mem ho' (List.mem_of_getElem? hy),
            show x.id = y.id from hid]
          exact hr _ q
        rw [hxy]
  cases a
  cases b
  simp only [Method.shape, Method.mk.injEq] at hs hnodes ⊢
  exact ⟨hs.1, hs.2.1, hs.2.2.1, hs.2.2.2.1, hnodes, hs.2.2.2.2.2⟩

/-- A `change` of a pin that is there keeps the `shape` and touches no other pin's `refs`. -/
theorem GraphM.exec_change {π : Type} [Linkable π] {F : PinFamily π} {f : π → π} {m : Method}
    {p : PinRef} {pin : π} (hF : F.Lawful) (hf : ∀ a, clear (f a) = clear a)
    (h : m.pin? F p = some pin) :
    ∃ m', (change F p f).exec m = (.ok pin, m') ∧ m'.shape = m.shape ∧
      ∀ q, m'.refs q = if q = p then Linkable.refs (f pin) else m.refs q :=
  ⟨_, exec_change_some h, Method.shape_changePin hF hf m p, Method.refs_changePin hF h⟩

end VisualScript
