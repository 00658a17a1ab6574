import VisualScript.Proofs.Graph.Invariant

/-!
# Nodes with the pins of their kinds

`Node.make` gives a node the pins of its kind. Operations change the links at pins and never the pins, so a
graph whose nodes have the pins of their kinds can lose that only through a node that is put in from outside
(`hasPins_run`).
-/

namespace VisualScript

open Linkable

/-- The node has the pins that `Node.make` gives to its kind, whatever links it carries. -/
def Node.HasPins (n : Node) : Prop := n.unlinked = Node.make n.id n.kind n.position

/-- Every node has the pins of its kind (`Node.HasPins`). -/
def Method.HasPins (m : Method) : Prop := ∀ n ∈ m.nodes, n.unlinked = Node.make n.id n.kind n.position

namespace Node.HasPins

variable {n : Node}

theorem unlinked (h : n.HasPins) : n.unlinked.HasPins := by
  unfold Node.HasPins
  rw [n.unlinked_unlinked]
  exact h

theorem make (id : NodeId) (kind : NodeKind) (position : Position) : (Node.make id kind position).HasPins :=
  Node.unlinked_make id kind position

variable {π : Type} [Linkable π] {F : PinFamily π}

/-- But for links, the pins of the family `F` are those that its kind asks for. -/
theorem map_clear (h : n.HasPins) (hF : F.Lawful) :
    (F.pins n).map clear = F.pins (Node.make n.id n.kind n.position) := by
  rw [← hF.pins_unlinked, show n.unlinked = _ from h]

theorem length_pins (h : n.HasPins) (hF : F.Lawful) :
    (F.pins n).length = (F.pins (Node.make n.id n.kind n.position)).length := by
  rw [← h.map_clear hF, List.length_map]

end Node.HasPins

namespace Method

variable {m m' : Method}

/-- `HasPins` can be told from the `shape`. -/
theorem hasPins_shape : m.shape.HasPins ↔ m.HasPins := by
  have hn : ∀ n : Node, n.unlinked.HasPins ↔ n.HasPins := by
    intro n
    unfold Node.HasPins
    rw [n.unlinked_unlinked]
    rfl
  constructor
  · intro h n hmem
    exact (hn n).1 (h _ (List.mem_map_of_mem hmem))
  · intro h n hmem
    obtain ⟨k, hk, rfl⟩ := List.mem_map.1 hmem
    exact (hn k).2 (h k hk)

theorem HasPins.of_shape (h : m.HasPins) (hs : m'.shape = m.shape) : m'.HasPins :=
  hasPins_shape.1 (hs ▸ hasPins_shape.2 h)

theorem HasPins.node (h : m.HasPins) {id : NodeId} {n : Node} (hn : m.node? id = some n) : n.HasPins :=
  h n (mem_of_node? hn)

theorem hasPins_make (name : String) (argumentTypes returnTypes : List TypeSpec) :
    (make name argumentTypes returnTypes).HasPins := by
  intro n hn
  have hentry : n = Node.make 0 (.methodEntry argumentTypes) {} := List.mem_singleton.1 hn
  rw [hentry]
  exact Node.HasPins.make _ _ _

end Method

/-! ### Operations -/

theorem Method.upheld_hasPins : Upheld Method.HasPins Node.HasPins where
  ofShape h hs := h.of_shape hs
  added position hm _ n hn := by
    rcases List.mem_append.1 hn with hn | hn
    · exact hm n hn
    · rw [List.mem_singleton.1 hn]
      exact Node.HasPins.make _ _ _
  inserted hm ha _ _ n hn := by
    rcases mem_placeNode.1 hn with rfl | hn
    · exact ha.unlinked
    · exact hm n hn
  removed hm _ hn := ⟨fun n hn => hm n (List.mem_of_mem_filter hn), hm.node hn⟩

/-- Every node that the operation puts in from outside has the pins of its kind. -/
abbrev Operation.HasPins (op : Operation) : Prop := op.Puts Node.HasPins

/-- Nodes keep the pins of their kinds along a run that `Puts` in no other nodes. -/
theorem Method.hasPins_run {c : TypeCatalog} {m : Method} (hm : m.HasPins) {ops : List Operation}
    (hops : ∀ op ∈ ops, op.HasPins) : (m.run c ops).HasPins :=
  Method.kept_run (Method.upheld_hasPins.kept c) hm hops

end VisualScript
