import VisualScript.Proofs.Graph.Consistency

/-!
# Properties of graphs with broken links

Operations change the links at pins, and they put nodes in and take them out. `Upheld P N` says what a property `P`
of graphs has to stand: changes of links, a new node, a node from outside that has `N`, and the loss of a node.
Then every operation keeps it (`Upheld.kept`), also on a graph whose links are broken.
-/

namespace VisualScript

open Linkable EditM

/-- The property `P` can be told from the `shape` of a graph. -/
def Method.OfShape (P : Method → Prop) : Prop := ∀ {m m' : Method}, P m → m'.shape = m.shape → P m'

/-- What a property `P` has to stand. A node that is taken out has `N`, so it can be put back. -/
structure Upheld (P : Method → Prop) (N : Node → Prop) : Prop where
  ofShape : Method.OfShape P
  added : ∀ {m : Method} {kind : NodeKind} (position : Position), P m → kind.isEntry = false →
    P { m with nodes := m.nodes ++ [Node.make m.nextId kind position], nextId := m.nextId + 1 }
  inserted : ∀ {m : Method} {a : Node}, P m → N a → a.kind.isEntry = false → m.node? a.id = none →
    P (m.withNode a.unlinked)
  removed : ∀ {m : Method} {id : NodeId} {n : Node}, P m → id ≠ m.entry → m.node? id = some n →
    P (m.without id) ∧ N n

variable {P : Method → Prop} {N : Node → Prop}

/-- A `change` of links keeps the shape, and with it what can be told from it. -/
theorem Method.OfShape.linkwise (hP : Method.OfShape P) : Linkwise (Method.Holding P) where
  alike := by
    rintro a _ ⟨rfl, -⟩
    exact .refl a
  change {_ _ F f} hF hf p := by
    refine GraphM.yields_iff.1 (.of_leaves fun m hm => ?_)
    cases hp : m.pin? F p with
    | none =>
      rw [GraphM.exec_change_none hp]
      exact hm
    | some pin =>
      obtain ⟨m', he, hs, -⟩ := GraphM.exec_change hF hf hp
      rw [he]
      exact hP hm hs

namespace GraphM

theorem yields_addNode (h : Upheld P N) (kind : NodeKind) (position : Position) :
    Yields P (fun _ => True) (addNode kind position) := by
  refine .of_leaves fun m hm => ?_
  cases hk : kind.isEntry with
  | true =>
    rw [exec_addNode_error hk]
    exact hm
  | false =>
    rw [exec_addNode_append position hk]
    exact h.added position hm hk

theorem yields_insertNode (h : Upheld P N) {a : Node} (ha : N a) : Yields P (fun _ => True) (insertNode a) := by
  refine .of_leaves fun m hm => ?_
  cases hk : a.kind.isEntry with
  | true =>
    rw [exec_insertNode_entry hk]
    exact hm
  | false =>
    cases hn : m.node? a.id with
    | some n =>
      rw [exec_insertNode_inUse hk (by rw [hn]; rfl)]
      exact hm
    | none =>
      rw [exec_insertNode hk hn]
      exact h.inserted hm ha hk hn

/-- A node other than the entry is taken out, and it has `N`. -/
theorem yields_removeNode (h : Upheld P N) (id : NodeId) : Yields P N (removeNode id) := by
  -- the entry is told apart before links are severed, so that is carried along with the property
  have hP : Method.OfShape fun m => P m ∧ id ≠ m.entry := by
    intro m m' hm hs
    have hentry : m'.shape.entry = m.shape.entry := congrArg Method.entry hs
    exact ⟨h.ofShape hm.1 hs, fun hid => hm.2 (hid.trans hentry)⟩
  intro m hm
  unfold removeNode
  rw [exec_get_bind]
  split
  · refine ⟨hm, fun _ hn => ?_⟩
    cases hn
  · rename_i hid
    refine Yields.leaves (P := fun m => P m ∧ id ≠ m.entry) ?_ ⟨hm, hid⟩ fun _ hm' => hm'.1
    refine yields_iff.2 ((couples_disconnectAll hP.linkwise id).bind fun _ _ => Couples.get_bind ?_)
    rintro m _ ⟨rfl, hm⟩
    cases hn : m.node? id with
    | none => exact Couples.throw _
    | some n =>
      obtain ⟨hwithout, hN⟩ := h.removed hm.1 hm.2 hn
      refine yields_iff.1 fun _ _ => ⟨⟨hwithout, hm.2⟩, fun a ha => ?_⟩
      cases ha
      exact hN

end GraphM

theorem Upheld.linkwise (h : Upheld P N) : Linkwise (Method.Holding P) := Method.OfShape.linkwise h.ofShape

/-- What `Upheld` asks of a property is enough for every operation to keep it. -/
theorem Upheld.kept (h : Upheld P N) (c : TypeCatalog) : Kept c P N where
  addNode := GraphM.yields_addNode h
  insertNode := GraphM.yields_insertNode h
  removeNode := GraphM.yields_removeNode h
  connect a b := GraphM.yields_iff.2 (GraphM.couples_connect h.linkwise c a b)
  unlink l := GraphM.yields_iff.2 (GraphM.couples_unlink h.linkwise l)
  disconnect pin := GraphM.yields_iff.2 (GraphM.couples_disconnect h.linkwise pin)
  disconnectAll id := GraphM.yields_iff.2 (GraphM.couples_disconnectAll h.linkwise id)

variable {c : TypeCatalog} {m : Method}

/-! ### Ids -/

/-- Ids stay in order (`Identified`), whatever the links are like. -/
theorem Method.upheld_identified : Upheld Method.Identified fun _ => True where
  ofShape h hs := h.of_shape hs
  added {m kind} position hm hk := by
    have hfresh : m.node? m.nextId = none :=
      Method.node?_eq_none_iff.2 fun n hn => Nat.ne_of_lt (hm.bounded n hn)
    rw [← Method.withNode_make hm.bounded kind position]
    exact hm.withNode hk hfresh
  inserted hm _ hk hn := hm.withNode hk hn
  removed hm hid _ := ⟨hm.without hid, trivial⟩

theorem Operation.identified_after (hm : m.Identified) (op : Operation) : (op.after c m).Identified :=
  op.kept_after (Method.upheld_identified.kept c) hm (op.puts_of_forall fun _ => trivial)

end VisualScript
