import VisualScript.Proofs.Graph.Keeping
import VisualScript.Proofs.Graph.Nodes

/-!
# Consistent graphs

A method is `Consistent` if its nodes are in order under the counter, its entry is the one entry node and
no end of a link dangles; it is `Assignable` for a catalog if a value can flow along each of its data
links. Both hold of a new method and survive every operation, whether it succeeds, fails, or fails
half way and takes itself back.

* `Coherent` says the same of shape and references, which is the form that operations are checked in.
* `Method.kept_coherent` says that each operation keeps that form, so that edits and runs do (`Method.kept_run`).
-/

namespace VisualScript

open Linkable EditM

namespace Method

/-- Node ids rise and stay below `nextId`, and the one entry node is at `entry`. -/
structure Identified (m : Method) : Prop where
  ordered : m.Ordered
  bounded : ∀ n ∈ m.nodes, n.id < m.nextId
  entry : ∃ n, m.node? m.entry = some n ∧ n.kind.isEntry = true
  onlyEntry : ∀ n ∈ m.nodes, n.kind.isEntry = true → n.id = m.entry

/-- A graph as operations build it: it is `Identified`, and every reference is answered by the pin that it
names. -/
structure Consistent (m : Method) : Prop extends m.Identified where
  dangling : m.dangling = []

/-- Every data link leads from one pin to another whose type takes the first one's values. -/
def Assignable (m : Method) (c : TypeCatalog) : Prop :=
  ∀ l ∈ m.links, l.isExec = false → ∃ produced consumed,
    m.pin? dataOuts l.source = some produced ∧ m.pin? dataIns l.target = some consumed ∧
      c.checkAssignable produced.type consumed.type = .ok true

/-- `Consistent` and `Assignable`, in terms of `shape` and `refs`. -/
structure Coherent (m : Method) (c : TypeCatalog) : Prop extends m.Identified where
  mirrored : m.Mirrored
  admitted : ∀ l, m.Linked l → m.Admits c l

variable {m m' : Method} {c : TypeCatalog} {l : Link}

/-! ### What depends on the shape alone -/

theorem identified_shape : m.shape.Identified ↔ m.Identified := by
  have hb : (∀ n ∈ m.shape.nodes, n.id < m.shape.nextId) ↔ ∀ n ∈ m.nodes, n.id < m.nextId :=
    List.forall_mem_map
  have he : (∃ n, m.shape.node? m.shape.entry = some n ∧ n.kind.isEntry = true) ↔
      ∃ n, m.node? m.entry = some n ∧ n.kind.isEntry = true := by
    rw [node?_shape, show m.shape.entry = m.entry from rfl]
    cases m.node? m.entry with
    | none => simp
    | some n => simp [Node.unlinked]
  have ho : (∀ n ∈ m.shape.nodes, n.kind.isEntry = true → n.id = m.shape.entry) ↔
      ∀ n ∈ m.nodes, n.kind.isEntry = true → n.id = m.entry := List.forall_mem_map
  exact ⟨fun h => ⟨ordered_shape.1 h.ordered, hb.1 h.bounded, he.1 h.entry, ho.1 h.onlyEntry⟩,
    fun h => ⟨ordered_shape.2 h.ordered, hb.2 h.bounded, he.2 h.entry, ho.2 h.onlyEntry⟩⟩

theorem Identified.of_shape (h : m.Identified) (hs : m'.shape = m.shape) : m'.Identified :=
  identified_shape.1 (hs ▸ identified_shape.2 h)

theorem Identified.without {id : NodeId} (h : m.Identified) (hid : id ≠ m.entry) :
    (m.without id).Identified where
  ordered := List.Pairwise.filter _ h.ordered
  bounded n hn := h.bounded n (List.mem_of_mem_filter hn)
  entry := by
    obtain ⟨n, hn, hk⟩ := h.entry
    refine ⟨n, ?_, hk⟩
    rw [node?_without]
    exact (if_neg (Ne.symm hid)).trans hn
  onlyEntry n hn hk := h.onlyEntry n (List.mem_of_mem_filter hn) hk

theorem Identified.withNode {a : Node} (h : m.Identified) (hk : a.kind.isEntry = false)
    (hn : m.node? a.id = none) : (m.withNode a).Identified where
  ordered := pairwise_placeNode h.ordered (node?_eq_none_iff.1 hn)
  bounded n hn := by
    rcases mem_placeNode.1 hn with rfl | hn
    · exact Nat.lt_of_lt_of_le (Nat.lt_succ_self _) (Nat.le_max_right _ _)
    · exact Nat.lt_of_lt_of_le (h.bounded n hn) (Nat.le_max_left _ _)
  entry := by
    obtain ⟨n, hn', hk'⟩ := h.entry
    refine ⟨n, ?_, hk'⟩
    rw [node?_withNode hn, if_neg, show (m.withNode a).entry = m.entry from rfl, hn']
    -- the entry is there and the id of `a` is free
    intro he
    rw [show m.entry = a.id from he, hn] at hn'
    cases hn'
  onlyEntry n hn hk' := by
    rcases mem_placeNode.1 hn with rfl | hn
    · rw [hk] at hk'
      cases hk'
    · exact h.onlyEntry n hn hk'

theorem Identified.withNode_without {n : Node} (h : m.Identified) (hn : n ∈ m.nodes) :
    (m.without n.id).withNode n = m := by
  have hnodes : GraphM.placeNode n (m.nodes.filter (·.id ≠ n.id)) = m.nodes :=
    placeNode_filter h.ordered hn
  have hnext : max m.nextId (n.id + 1) = m.nextId := Nat.max_eq_left (h.bounded n hn)
  unfold Method.withNode Method.without
  simp only [hnodes, hnext]

theorem Admits.of_shape (h : m.Admits c l) (hs : m'.shape = m.shape) : m'.Admits c l := by
  obtain ⟨a, b, ha, hb⟩ | ⟨a, b, ha, hb, hc⟩ := h
  · obtain ⟨a', ha', -⟩ := exists_pin?_of_shape execOuts_lawful hs.symm ha
    obtain ⟨b', hb', -⟩ := exists_pin?_of_shape execIns_lawful hs.symm hb
    exact Or.inl ⟨a', b', ha', hb'⟩
  · obtain ⟨a', ha', hca⟩ := exists_pin?_of_shape dataOuts_lawful hs.symm ha
    obtain ⟨b', hb', hcb⟩ := exists_pin?_of_shape dataIns_lawful hs.symm hb
    have hta : (clear a').type = (clear a).type := congrArg DataOut.type hca
    have htb : (clear b').type = (clear b).type := congrArg DataIn.type hcb
    refine Or.inr ⟨a', b', ha', hb', ?_⟩
    rw [show a'.type = a.type from hta, show b'.type = b.type from htb]
    exact hc

/-! ### Two ways to say it -/

theorem coherent_iff : m.Coherent c ↔ m.Consistent ∧ m.Assignable c := by
  constructor
  · intro h
    refine ⟨⟨h.toIdentified, dangling_eq_nil_iff.2 h.mirrored⟩, fun l hl hx => ?_⟩
    obtain ⟨a, b, ha, hb⟩ | hd := h.admitted l ((mem_links_iff h.ordered).1 hl)
    · have hk : l.source.kind = .execOut := (pin?_eq_some_iff.1 ha).1
      simp [Link.isExec, hk, PinKind.isExec] at hx
    · exact hd
  · rintro ⟨h, ha⟩
    have hm := dangling_eq_nil_iff.1 h.dangling
    refine ⟨h.toIdentified, hm, fun l hl => ?_⟩
    -- an exec link needs no more than its two pins, a data link is assignable too
    obtain ⟨hs, ht, -⟩ | ⟨hs, -⟩ := (hm.oriented hl).cases
    · obtain ⟨a, ha, -⟩ := (mem_refs_iff execOuts_lawful hs).1 hl.2
      obtain ⟨b, hb, -⟩ := (mem_refs_iff execIns_lawful ht).1 (hm _ _ hl.2).2
      exact Or.inl ⟨a, b, ha, hb⟩
    · refine Or.inr (ha l ((mem_links_iff h.ordered).2 hl) ?_)
      simp [Link.isExec, hs, PinKind.isExec]

/-! ### What keeps a graph coherent -/

theorem Coherent.severed {S : PinRef → Prop} (h : m.Coherent c) (hs : Severed S m m') :
    m'.Coherent c where
  toIdentified := h.toIdentified.of_shape hs.shape
  mirrored := hs.mirrored h.mirrored
  admitted l hl := (h.admitted l (hs.linked_iff.1 hl).1).of_shape hs.shape

theorem Coherent.joined (h : m.Coherent c) (hl : m.Admits c l) (hj : Joined l m m') :
    m'.Coherent c where
  toIdentified := h.toIdentified.of_shape hj.shape
  mirrored := hj.mirrored h.mirrored hl.oriented
  admitted k hk := by
    -- the new link was checked, the others were there before
    rcases (hj.linked_iff h.mirrored hl.oriented).1 hk with rfl | ⟨hk, -⟩
    · exact hl.of_shape hj.shape
    · exact (h.admitted k hk).of_shape hj.shape

theorem Coherent.withNode {a : Node} (h : m.Coherent c) (hk : a.kind.isEntry = false)
    (hn : m.node? a.id = none) (ha : a.unlinked = a) : (m.withNode a).Coherent c where
  toIdentified := h.toIdentified.withNode hk hn
  mirrored p q hq := by
    rw [refs_withNode hn ha] at hq ⊢
    exact h.mirrored p q hq
  admitted l hl := by
    unfold Linked at hl
    rw [refs_withNode hn ha] at hl
    obtain ⟨x, y, hx, hy⟩ | ⟨x, y, hx, hy, hc⟩ := h.admitted l hl
    · exact Or.inl ⟨x, y, pin?_withNode hn hx, pin?_withNode hn hy⟩
    · exact Or.inr ⟨x, y, pin?_withNode hn hx, pin?_withNode hn hy, hc⟩

theorem Coherent.removed {id : NodeId} (h : m.Coherent c) (hid : id ≠ m.entry)
    (hs : m'.shape = m.shape.without id)
    (hr : ∀ p q, q ∈ m'.refs p ↔ q ∈ m.refs p ∧ p.node ≠ id ∧ q.node ≠ id) : m'.Coherent c where
  toIdentified := (h.toIdentified.without hid).of_shape (hs.trans (shape_without m id).symm)
  mirrored := h.mirrored.restrict hr
  admitted l hl := by
    -- neither end is at the node that is gone, so both pins are still there
    obtain ⟨hl', hsource, htarget⟩ := (hr _ _).1 hl.2
    have hadm : (m.without id).Admits c l := by
      obtain ⟨x, y, hx, hy⟩ | ⟨x, y, hx, hy, hc⟩ := h.admitted l ⟨hl.1, hl'⟩
      · exact Or.inl ⟨x, y, by rw [pin?_without _ hsource]; exact hx,
          by rw [pin?_without _ htarget]; exact hy⟩
      · exact Or.inr ⟨x, y, by rw [pin?_without _ hsource]; exact hx,
          by rw [pin?_without _ htarget]; exact hy, hc⟩
    exact hadm.of_shape (hs.trans (shape_without m id).symm)

theorem identified_make (name : String) (argumentTypes returnTypes : List TypeSpec) :
    (make name argumentTypes returnTypes).Identified := by
  refine ⟨?_, ?_, ?_, ?_⟩
  · simp [make, Ordered]
  · simp [make, Node.make]
  · exact ⟨_, rfl, rfl⟩
  · simp [make, Node.make]

theorem coherent_make (name : String) (argumentTypes returnTypes : List TypeSpec) (c : TypeCatalog) :
    (make name argumentTypes returnTypes).Coherent c := by
  have hrefs : ∀ p, (make name argumentTypes returnTypes).refs p = [] := by
    intro p
    unfold refs
    cases hn : (make name argumentTypes returnTypes).node? p.node with
    | none => rfl
    | some n =>
      have hmem := mem_of_node? hn
      simp only [make, List.mem_singleton] at hmem
      rw [hmem, ← Node.unlinked_make]
      exact Node.refs_unlinked _ _ _
  refine ⟨identified_make name argumentTypes returnTypes, fun p q hq => ?_, fun l hl => ?_⟩
  · simp [hrefs] at hq
  · simp [Linked, hrefs] at hl

end Method

/-! ### Operations that keep a graph coherent -/

namespace Method.Coherent

open GraphM

variable {c : TypeCatalog} {m : Method}

theorem connect (h : m.Coherent c) (a b : PinRef) : ((connect c a b).exec m).2.Coherent c := by
  cases hc : m.checkConnection c a b with
  | error e =>
    rw [exec_connect_error hc]
    exact h
  | ok l =>
    cases hl : m.isLinked l with
    | true =>
      rw [exec_connect_linked hc hl]
      exact h
    | false =>
      obtain ⟨m', he, hj⟩ := exec_connect h.mirrored hc hl
      rw [he]
      exact h.joined (Method.checkConnection_eq_ok_iff.1 hc).1 hj

theorem unlink (h : m.Coherent c) (l : Link) : ((unlink l).exec m).2.Coherent c := by
  cases hl : m.isLinked l with
  | false =>
    rw [exec_unlink_false hl]
    exact h
  | true =>
    obtain ⟨m', he, hs⟩ := exec_unlink h.mirrored hl
    rw [he]
    exact h.severed hs

theorem disconnect (h : m.Coherent c) (pin : PinRef) : ((disconnect pin).exec m).2.Coherent c := by
  cases hp : m.containsPin pin with
  | false =>
    obtain ⟨e, he⟩ := exec_disconnect_error hp
    rw [he]
    exact h
  | true =>
    obtain ⟨m', he, hs⟩ := exec_disconnect h.mirrored hp
    rw [he]
    exact h.severed hs

theorem disconnectAll (h : m.Coherent c) (id : NodeId) : ((disconnectAll id).exec m).2.Coherent c := by
  cases hn : m.node? id with
  | none =>
    rw [exec_disconnectAll_missing hn]
    exact h
  | some n =>
    obtain ⟨ls, m', he, hs, -⟩ := exec_disconnectAll h.mirrored hn
    rw [he]
    exact h.severed hs

theorem removeNode (h : m.Coherent c) (id : NodeId) : ((removeNode id).exec m).2.Coherent c := by
  by_cases hid : id = m.entry
  · obtain ⟨e, he⟩ := exec_removeNode_error (Or.inl hid)
    rw [he]
    exact h
  · cases hn : m.node? id with
    | none =>
      obtain ⟨e, he⟩ := exec_removeNode_error (Or.inr hn)
      rw [he]
      exact h
    | some n =>
      obtain ⟨m', he, hs, hr⟩ := exec_removeNode h.mirrored hn hid
      rw [he]
      exact h.removed hid hs hr

theorem insertNode (h : m.Coherent c) (a : Node) : ((insertNode a).exec m).2.Coherent c := by
  cases hk : a.kind.isEntry with
  | true =>
    rw [exec_insertNode_entry hk]
    exact h
  | false =>
    cases hn : m.node? a.id with
    | some n =>
      rw [exec_insertNode_inUse hk (by rw [hn]; rfl)]
      exact h
    | none =>
      rw [exec_insertNode hk hn]
      exact h.withNode hk hn a.unlinked_unlinked

theorem addNode (h : m.Coherent c) (kind : NodeKind) (position : Position) :
    ((addNode kind position).exec m).2.Coherent c := by
  cases hk : kind.isEntry with
  | true =>
    rw [exec_addNode_error hk]
    exact h
  | false =>
    rw [exec_addNode hk h.bounded]
    refine h.withNode hk (Method.node?_eq_none_iff.2 fun n hn => ?_) (Node.unlinked_make _ _ _)
    exact Nat.ne_of_lt (h.bounded n hn)

end Method.Coherent

/-- Every operation leaves a `Coherent` method behind, so each step of a run does. -/
theorem Method.kept_coherent (c : TypeCatalog) : Kept c (·.Coherent c) fun _ => True where
  addNode kind position := .of_leaves fun _ h => h.addNode kind position
  insertNode _ := .of_leaves fun _ h => h.insertNode _
  removeNode id := .of_leaves fun _ h => h.removeNode id
  connect a b := .of_leaves fun _ h => h.connect a b
  unlink l := .of_leaves fun _ h => h.unlink l
  disconnect pin := .of_leaves fun _ h => h.disconnect pin
  disconnectAll id := .of_leaves fun _ h => h.disconnectAll id

/-! ### Edits and runs -/

namespace Edit

variable {c : TypeCatalog} {undo : Edit → Method → Method} {m : Method}

theorem coherent_applyWith (hu : ∀ e m, Method.Coherent m c → (undo e m).Coherent c) (e : Edit)
    (hm : m.Coherent c) : ((applyWith undo c e).exec m).2.Coherent c :=
  (yields_applyWith (Method.kept_coherent c) (fun e m _ => hu e m) (e.puts_of_forall fun _ => trivial) m hm).1

theorem coherent_rollBack (turns : Nat) (e : Edit) (m : Method) (hm : m.Coherent c) :
    (rollBack c turns e m).Coherent c :=
  kept_rollBack (Method.kept_coherent c) turns e m (e.puts_of_forall fun _ => trivial) hm

theorem coherent_apply (e : Edit) (hm : m.Coherent c) : ((e.apply c).exec m).2.Coherent c :=
  coherent_applyWith (coherent_rollBack e.turns) e hm

end Edit

namespace Method

theorem coherent_run {c : TypeCatalog} {m : Method} (h : m.Coherent c) (ops : List Operation) :
    (m.run c ops).Coherent c :=
  kept_run (kept_coherent c) h fun op _ => op.puts_of_forall fun _ => trivial

/-- Whatever is done to a new method, and whatever of it fails, leaves a `Consistent` graph whose data links all
carry fitting types (`Assignable`). -/
theorem consistent_run_make (c : TypeCatalog) (name : String) (argumentTypes returnTypes : List TypeSpec)
    (ops : List Operation) :
    ((make name argumentTypes returnTypes).run c ops).Consistent ∧
      ((make name argumentTypes returnTypes).run c ops).Assignable c :=
  coherent_iff.1 (coherent_run (coherent_make name argumentTypes returnTypes c) ops)

end Method

end VisualScript
