import VisualScript.Proofs.Graph.Wiring

/-!
# What adding and removing nodes does

A node comes into a graph without links, whether it is new or put back (`withNode`), and leaves it only
after all its links are severed (`without`). No other node notices: the references of all pins stay as
they were, less those of a node that leaves.
-/

namespace VisualScript

open Linkable EditM GraphM

/-! ### Nodes without links -/

namespace Node

theorem refs_unlinked (n : Node) (kind : PinKind) (slot : Nat) : n.unlinked.refs kind slot = [] := by
  have h : ∀ {π : Type} [Linkable π] (ps : List π),
      (((ps.map clear)[slot]?).map Linkable.refs).getD [] = [] := by
    intro π _ ps
    rw [List.getElem?_map]
    cases ps[slot]? with
    | none => rfl
    | some a => exact refs_clear a
  cases kind
  · exact h n.execIns
  · exact h n.execOuts
  · exact h n.dataIns
  · exact h n.dataOuts

theorem unlinked_unlinked (n : Node) : n.unlinked.unlinked = n.unlinked := by
  simp [unlinked, Function.comp_def]

theorem unlinked_make (id : NodeId) (kind : NodeKind) (position : Position) :
    (make id kind position).unlinked = make id kind position := by
  cases kind <;>
    simp [make, unlinked, NodeKind.execIns, NodeKind.execOuts, NodeKind.dataIns, NodeKind.dataOuts,
      NodeKind.inputsFor, NodeKind.outputsFor, Function.comp_def, List.mapIdx_eq_zipIdx_map]

end Node

/-! ### Placing a node -/

section Place

variable {a : Node} {ns : List Node}

theorem mem_placeNode {n : Node} : n ∈ placeNode a ns ↔ n = a ∨ n ∈ ns := by
  induction ns with
  | nil => simp [placeNode]
  | cons b bs ih =>
    unfold placeNode
    split_ifs
    · simp
    · simp only [List.mem_cons, ih, or_left_comm]

theorem pairwise_placeNode (h : ns.Pairwise fun x y => x.id < y.id) (ha : ∀ n ∈ ns, n.id ≠ a.id) :
    (placeNode a ns).Pairwise fun x y => x.id < y.id := by
  induction ns with
  | nil => simp [placeNode]
  | cons b bs ih =>
    obtain ⟨hb, hs⟩ := List.pairwise_cons.1 h
    unfold placeNode
    split_ifs with hlt
    · refine List.pairwise_cons.2 ⟨fun n hn => ?_, h⟩
      rcases List.mem_cons.1 hn with rfl | hn
      · exact hlt
      · exact Nat.lt_trans hlt (hb n hn)
    · refine List.pairwise_cons.2 ⟨fun n hn => ?_, ih hs fun n hn => ha n (by simp [hn])⟩
      have hne := ha b (by simp)
      rcases mem_placeNode.1 hn with rfl | hn
      · exact Nat.lt_of_le_of_ne (Nat.le_of_not_lt hlt) hne
      · exact hb n hn

theorem placeNode_eq_append (h : ∀ n ∈ ns, n.id < a.id) : placeNode a ns = ns ++ [a] := by
  induction ns with
  | nil => rfl
  | cons b bs ih =>
    have hb := h b (by simp)
    unfold placeNode
    rw [if_neg (Nat.lt_asymm hb), ih fun n hn => h n (by simp [hn])]
    rfl

theorem map_placeNode : (placeNode a ns).map Node.unlinked = placeNode a.unlinked (ns.map Node.unlinked) := by
  induction ns with
  | nil => rfl
  | cons b bs ih =>
    unfold placeNode
    show _ = if a.id < b.id then _ else _
    split_ifs
    · rfl
    · rw [List.map_cons, ih]

/-- `placeNode` puts a node that was taken out back to its place. -/
theorem placeNode_filter (h : ns.Pairwise fun x y => x.id < y.id) (ha : a ∈ ns) :
    placeNode a (ns.filter (·.id ≠ a.id)) = ns := by
  induction ns with
  | nil => cases ha
  | cons b bs ih =>
    obtain ⟨hb, hs⟩ := List.pairwise_cons.1 h
    rcases List.mem_cons.1 ha with rfl | ha
    -- the first node is taken out, or one behind it
    · have hbs : bs.filter (·.id ≠ a.id) = bs := by
        refine List.filter_eq_self.2 fun n hn => ?_
        simpa using Nat.ne_of_gt (hb n hn)
      rw [List.filter_cons_of_neg (by simp), hbs]
      cases bs with
      | nil => rfl
      | cons n ns => exact if_pos (hb n (by simp))
    · have hlt := hb a ha
      rw [List.filter_cons_of_pos (by simpa using Nat.ne_of_lt hlt)]
      unfold placeNode
      rw [if_neg (Nat.lt_asymm hlt), ih hs ha]

theorem filter_placeNode (h : ∀ n ∈ ns, n.id ≠ a.id) : (placeNode a ns).filter (·.id ≠ a.id) = ns := by
  induction ns with
  | nil => simp [placeNode]
  | cons b bs ih =>
    have hb : b.id ≠ a.id := h b (by simp)
    have hbs : ∀ n ∈ bs, n.id ≠ a.id := fun n hn => h n (by simp [hn])
    unfold placeNode
    split_ifs
    · rw [List.filter_cons_of_neg (by simp)]
      exact List.filter_eq_self.2 fun n hn => by simpa using h n hn
    · rw [List.filter_cons_of_pos (by simpa using hb), ih hbs]

end Place

namespace Method

variable {m : Method} {a : Node}

/-- The method with one node more, and `nextId` above it. -/
def withNode (m : Method) (a : Node) : Method :=
  { m with nodes := placeNode a m.nodes, nextId := max m.nextId (a.id + 1) }

/-- The method with the nodes of `id` left out. -/
def without (m : Method) (id : NodeId) : Method := { m with nodes := m.nodes.filter (·.id ≠ id) }

/-- A node under `nextId` comes last. -/
theorem withNode_make (hb : ∀ n ∈ m.nodes, n.id < m.nextId) (kind : NodeKind) (position : Position) :
    m.withNode (Node.make m.nextId kind position) =
      { m with nodes := m.nodes ++ [Node.make m.nextId kind position], nextId := m.nextId + 1 } := by
  have hmax : max m.nextId ((Node.make m.nextId kind position).id + 1) = m.nextId + 1 :=
    Nat.max_eq_right (Nat.le_succ _)
  unfold withNode
  rw [placeNode_eq_append hb, hmax]

theorem node?_withNode (h : m.node? a.id = none) (i : NodeId) :
    (m.withNode a).node? i = if i = a.id then some a else m.node? i := by
  have hp : ∀ ns : List Node, (∀ n ∈ ns, n.id ≠ a.id) →
      (placeNode a ns).find? (·.id = i) = if i = a.id then some a else ns.find? (·.id = i) := by
    intro ns
    induction ns with
    | nil =>
      intro _
      unfold placeNode
      rw [List.find?_singleton]
      simp [eq_comm]
    | cons b bs ih =>
      intro hns
      have hb := hns b (by simp)
      have hbs := ih fun n hn => hns n (by simp [hn])
      unfold placeNode
      -- the node is placed here or further on, and it is looked for or another one is
      split_ifs with hlt hi hi
      · simp [hi]
      · simp [List.find?_cons, Ne.symm hi]
      · rw [List.find?_cons, hbs, if_pos hi]
        simp [hi, hb]
      · rw [List.find?_cons, hbs, if_neg hi, List.find?_cons]
  exact hp m.nodes (node?_eq_none_iff.1 h)

theorem refs_withNode (h : m.node? a.id = none) (ha : a.unlinked = a) (p : PinRef) :
    (m.withNode a).refs p = m.refs p := by
  unfold refs
  rw [node?_withNode h]
  split_ifs with hp
  · rw [hp, h, ← ha]
    exact Node.refs_unlinked a _ _
  · rfl

theorem linked_withNode (h : m.node? a.id = none) (ha : a.unlinked = a) {k : Link} :
    (m.withNode a).Linked k ↔ m.Linked k := by
  unfold Linked
  rw [refs_withNode h ha]

theorem shape_withNode (m : Method) (a : Node) :
    (m.withNode a).shape = m.shape.withNode a.unlinked := by
  unfold withNode shape
  simp only [map_placeNode]
  rfl

theorem pin?_withNode {π : Type} {F : PinFamily π} {p : PinRef} {pin : π}
    (h : m.node? a.id = none) (hp : m.pin? F p = some pin) : (m.withNode a).pin? F p = some pin := by
  obtain ⟨hk, n, hn, hslot⟩ := pin?_eq_some_iff.1 hp
  refine pin?_eq_some_iff.2 ⟨hk, n, ?_, hslot⟩
  rw [node?_withNode h, if_neg, hn]
  intro he
  rw [he, h] at hn
  cases hn

theorem node?_without (m : Method) (id i : NodeId) :
    (m.without id).node? i = if i = id then none else m.node? i := by
  unfold without node?
  rw [List.find?_filter]
  split_ifs with hi
  · subst hi
    simp
  · congr 1
    funext n
    by_cases hn : n.id = i <;> simp [hn, hi]

theorem pin?_without {π : Type} (F : PinFamily π) {id : NodeId} {p : PinRef} (h : p.node ≠ id) :
    (m.without id).pin? F p = m.pin? F p := by
  unfold pin?
  rw [node?_without, if_neg h]

theorem shape_without (m : Method) (id : NodeId) : (m.without id).shape = m.shape.without id := by
  unfold without shape
  simp only [List.filter_map]
  rfl

/-- A node that came in and went out again leaves `nextId` raised. -/
theorem without_withNode (h : m.node? a.id = none) :
    (m.withNode a).without a.id = { m with nextId := max m.nextId (a.id + 1) } := by
  unfold withNode without
  simp only [filter_placeNode (node?_eq_none_iff.1 h)]

/-- No link is at a node that is not there. -/
theorem Mirrored.touches_eq_false (hm : m.Mirrored) {id : NodeId} (hid : m.node? id = none) {k : Link}
    (hk : m.Linked k) : k.touches id = false := by
  have hnot : ∀ {p q : PinRef}, q ∈ m.refs p → p.node ≠ id := by
    intro p q hq he
    obtain ⟨n, hn, -⟩ := node?_of_mem_refs hq
    rw [he, hid] at hn
    cases hn
  unfold Link.touches
  simp [hnot hk.2, hnot (hm _ _ hk.2).2]

theorem containsPin_iff {p : PinRef} :
    m.containsPin p = true ↔ ∃ n, m.node? p.node = some n ∧ p.slot < n.pinCount p.kind := by
  unfold containsPin pin?
  cases hk : p.kind <;> cases m.node? p.node <;> simp [Node.pinCount, execIns, execOuts, dataIns, dataOuts]

theorem containsPin_of_shape {m' : Method} (h : m.shape = m'.shape) (p : PinRef) :
    m.containsPin p = m'.containsPin p := by
  have hc : ∀ m : Method, m.shape.containsPin p = m.containsPin p := by
    intro m
    unfold containsPin
    rw [pin?_shape execIns_lawful, pin?_shape execOuts_lawful, pin?_shape dataIns_lawful,
      pin?_shape dataOuts_lawful]
    simp only [Option.isSome_map]
  rw [← hc m, h, hc m']

end Method

namespace GraphM

variable {m : Method} {id : NodeId} {n : Node}

/-! ### Removing -/

/-- Pins let go one after the other: a link between two of them goes with the first and is told once. -/
theorem exec_disconnectEach (pins : List PinRef) (m : Method) (hm : m.Mirrored)
    (hp : ∀ p ∈ pins, m.containsPin p = true) :
    ∃ ls m', (pins.mapM disconnect).exec m = (.ok ls, m') ∧ Severed (· ∈ pins) m m' ∧
      Enumerates (· ∈ pins) m ls.flatten := by
  induction pins generalizing m with
  | nil => exact ⟨[], m, rfl, (Severed.refl m).congr (by simp), (Enumerates.nil m).congr hm (by simp)⟩
  | cons p pins ih =>
    obtain ⟨m₁, he₁, hs₁⟩ := exec_disconnect hm (hp p (by simp))
    obtain ⟨ls, m', he, hs, hls⟩ := ih m₁ (hs₁.mirrored hm) fun q hq => by
      rw [Method.containsPin_of_shape hs₁.shape]
      exact hp q (by simp [hq])
    refine ⟨(m.refs p).map p.linkTo :: ls, m', ?_, (hs₁.trans hs).congr (by simp),
      ((Enumerates.linkTo hm p).append hs₁ hls).congr hm (by simp)⟩
    rw [List.mapM_cons, exec_bind_ok he₁, exec_bind_ok he]
    rfl

theorem exec_disconnectAll (hm : m.Mirrored) (hn : m.node? id = some n) :
    ∃ ls m', (disconnectAll id).exec m = (.ok ls, m') ∧ Severed (·.node = id) m m' ∧
      Enumerates (·.node = id) m ls := by
  have hmem : ∀ p, p ∈ n.pinRefs ↔ p.node = id ∧ p.slot < n.pinCount p.kind := by
    intro p
    rw [Node.mem_pinRefs, Method.id_of_node? hn]
  have hp : ∀ p ∈ n.pinRefs, m.containsPin p = true := by
    intro p hp
    obtain ⟨hid, hslot⟩ := (hmem p).1 hp
    exact Method.containsPin_iff.2 ⟨n, hid ▸ hn, hslot⟩
  obtain ⟨ls, m', he, hs, hls⟩ := exec_disconnectEach n.pinRefs m hm hp
  -- a pin that holds a reference is among the pins of its node
  have hrefs : ∀ p q, q ∈ m.refs p → (p ∈ n.pinRefs ↔ p.node = id) := by
    intro p q hq
    rw [hmem]
    refine ⟨And.left, fun hid => ⟨hid, ?_⟩⟩
    obtain ⟨n', hn', hslot⟩ := Method.node?_of_mem_refs hq
    rw [hid, hn] at hn'
    cases hn'
    exact hslot
  refine ⟨ls.flatten, m', ?_, ⟨hs.shape, fun p q => ?_⟩, hls.congr hm hrefs⟩
  · unfold disconnectAll
    rw [exec_get_bind, hn]
    exact exec_bind_ok he _
  · rw [hs.refs]
    refine and_congr_right fun hq => ?_
    rw [hrefs _ _ hq, hrefs _ _ (hm _ _ hq).2]

theorem exec_disconnectAll_missing (hn : m.node? id = none) :
    (disconnectAll id).exec m = (.error (.nodeNotFound id), m) := by
  unfold disconnectAll
  rw [exec_get_bind, hn]
  rfl

theorem exec_removeNode (hm : m.Mirrored) (hn : m.node? id = some n) (hid : id ≠ m.entry) :
    ∃ m', (removeNode id).exec m = (.ok n.unlinked, m') ∧ m'.shape = m.shape.without id ∧
      ∀ p q, q ∈ m'.refs p ↔ q ∈ m.refs p ∧ p.node ≠ id ∧ q.node ≠ id := by
  obtain ⟨ls, m₁, he₁, hs₁, -⟩ := exec_disconnectAll hm hn
  -- the node that is taken out has the shape of the given one and no references any more
  have hn₁ : m₁.node? id = some n.unlinked := by
    have hu : (m₁.node? id).map Node.unlinked = some n.unlinked := by
      rw [← Method.node?_shape, hs₁.shape, Method.node?_shape, hn]
      rfl
    obtain ⟨n₁, hn₁, hu⟩ := Option.map_eq_some_iff.1 hu
    have hnone : ∀ kind slot q, q ∉ n₁.refs kind slot := by
      intro kind slot q hq
      have hq' : q ∈ m₁.refs ⟨id, kind, slot⟩ := by
        unfold Method.refs
        rw [hn₁]
        exact hq
      exact ((hs₁.refs _ _).1 hq').2.1 rfl
    have heq : n₁ = n.unlinked := by
      refine Node.eq_of_unlinked_of_refs (by rw [hu, Node.unlinked_unlinked]) fun kind slot q => ?_
      simp [hnone, Node.refs_unlinked]
    rw [hn₁, heq]
  refine ⟨m₁.without id, ?_, by rw [Method.shape_without, hs₁.shape], fun p q => ?_⟩
  · unfold removeNode
    rw [exec_get_bind, if_neg hid]
    show (disconnectAll id >>= _).exec m = _
    rw [exec_bind_ok he₁, exec_get_bind, hn₁]
    rfl
  · have hp : q ∈ (m₁.without id).refs p ↔ q ∈ m₁.refs p ∧ p.node ≠ id := by
      unfold Method.refs
      rw [Method.node?_without]
      split_ifs with h <;> simp [h]
    rw [hp, hs₁.refs]
    tauto

theorem exec_removeNode_entry (hid : id = m.entry) :
    (removeNode id).exec m = (.error (.entryNodeRemoval id), m) := by
  unfold removeNode
  rw [exec_get_bind, if_pos hid]
  rfl

theorem exec_removeNode_missing (hid : id ≠ m.entry) (hn : m.node? id = none) :
    (removeNode id).exec m = (.error (.nodeNotFound id), m) := by
  unfold removeNode
  rw [exec_get_bind, if_neg hid]
  exact exec_bind_error (exec_disconnectAll_missing hn) _

theorem exec_removeNode_error (h : id = m.entry ∨ m.node? id = none) :
    ∃ e, (removeNode id).exec m = (.error e, m) := by
  by_cases hid : id = m.entry
  · exact ⟨_, exec_removeNode_entry hid⟩
  · exact ⟨_, exec_removeNode_missing hid (h.resolve_left hid)⟩

/-! ### Adding -/

theorem exec_insertNode {a : Node} (hk : a.kind.isEntry = false) (hn : m.node? a.id = none) :
    (insertNode a).exec m = (.ok a.id, m.withNode a.unlinked) := by
  unfold insertNode
  rw [exec_get_bind, hk, hn]
  rfl

theorem exec_insertNode_entry {a : Node} (hk : a.kind.isEntry = true) (m : Method) :
    (insertNode a).exec m = (.error (.duplicateEntry m.entry), m) := by
  unfold insertNode
  rw [exec_get_bind, if_pos hk]
  rfl

theorem exec_insertNode_inUse {a : Node} (hk : a.kind.isEntry = false)
    (hn : (m.node? a.id).isSome = true) : (insertNode a).exec m = (.error (.nodeIdInUse a.id), m) := by
  unfold insertNode
  rw [exec_get_bind, hk, if_pos hn]
  rfl

theorem exec_addNode_append {kind : NodeKind} (position : Position) (hk : kind.isEntry = false) (m : Method) :
    (addNode kind position).exec m = (.ok m.nextId,
      { m with nodes := m.nodes ++ [Node.make m.nextId kind position], nextId := m.nextId + 1 }) := by
  unfold addNode
  rw [exec_get_bind, hk]
  rfl

theorem exec_addNode {kind : NodeKind} {position : Position} (hk : kind.isEntry = false)
    (hb : ∀ n ∈ m.nodes, n.id < m.nextId) :
    (addNode kind position).exec m =
      (.ok m.nextId, m.withNode (Node.make m.nextId kind position)) := by
  rw [exec_addNode_append position hk, Method.withNode_make hb]

theorem exec_addNode_error {kind : NodeKind} {position : Position} (hk : kind.isEntry = true) :
    (addNode kind position).exec m = (.error (.duplicateEntry m.entry), m) := by
  unfold addNode
  rw [exec_get_bind, if_pos hk]
  rfl

end GraphM

end VisualScript
