import VisualScript.Source.Body

/-!
# Writing line by line

The source of a method written straight down. A `Writer` has a level and the lines so far, and nothing
else: `Job.writeChain` follows the exec links, `Job.writeNode` writes what a node stands for, the
statements that its inputs want before its own line, and `WriteM.block` puts the braces around a block.
No tree is made on the way. `Job.source` makes one, and its lines are those that are written here.
-/

namespace VisualScript

/-! ### Lines -/

/-- What stands on a line of a method. -/
inductive Statement where
  | signature (text : String)
  | step (s : Step)
  | ret (node : NodeId) (values : List String)
  | again
  | ifHead (node : NodeId) (condition : String)
  | elseHead
  | forHead (node : NodeId) (index initial limit : String)
  | opening
  | closing
deriving DecidableEq

def Statement.text : Statement → String
  | .signature text => text
  | .step s => s.text
  | .ret _ values => Code.returnText values
  | .again => "continue;"
  | .ifHead _ condition => Code.ifText condition
  | .elseHead => "else"
  | .forHead _ index initial limit => Code.forText index initial limit
  | .opening => "\x7b"
  | .closing => "\x7d"

/-- A line, before it becomes text. -/
structure Row where
  level : Nat
  statement : Statement
deriving DecidableEq

def Row.line (r : Row) : Line := ⟨r.level, r.statement.text⟩

/-! ### The writer -/

/-- A writer of lines, and the level at which it writes. -/
structure Writer where
  level : Nat := 0
  rows : List Row := []
deriving DecidableEq

namespace Writer

def line (w : Writer) (s : Statement) : Writer := { w with rows := w.rows ++ [⟨w.level, s⟩] }

/-- Writes a brace and goes one level down. -/
def openBlock (w : Writer) : Writer := { w.line .opening with level := w.level + 1 }

/-- Goes one level up, if there is one, and writes a brace. -/
def closeBlock (w : Writer) : Writer := { w with level := w.level - 1 }.line .closing

end Writer

instance : Sink Writer := ⟨fun w s => w.line (.step s)⟩

/-- What writing works on: the counts for new names, and the writer. -/
structure Desk where
  counts : Counts := {}
  writer : Writer := {}

abbrev WriteM := StateT Desk (Except SourceError)

namespace WriteM

def onWriter (f : Writer → Writer) : WriteM Unit := modify fun d => { d with writer := f d.writer }

def line (s : Statement) : WriteM Unit := onWriter (·.line s)

/-- A block of lines. `close` writes the brace at its end. -/
def block (close : Writer → Writer) (inner : WriteM Unit) : WriteM Unit := do
  onWriter Writer.openBlock
  inner
  onWriter close

/-- A head on a line of its own, and the block that it leads. -/
def headed (close : Writer → Writer) (head : Statement) (inner : WriteM Unit) : WriteM Unit := do
  line head
  block close inner

/-- Finds operands from a scope. The statements that they want are written at once. -/
def compose {α : Type} (x : DraftOn Writer α) (scope : Scope) : WriteM (α × Scope) := do
  let desk ← get
  let (a, d) ← x.run { scope, temps := desk.counts.temps, steps := desk.writer }
  set { counts := { desk.counts with temps := d.temps }, writer := d.steps : Desk }
  return (a, d.scope)

/-- Goes on in the same block, if control goes on. -/
def resume (chain : PinRef → Scope → WriteM Unit) : Option (PinRef × Scope) → WriteM Unit
  | none => return ()
  | some (pin, scope) => chain pin scope

/-- A new name for a loop index. -/
def freshIndex (c : Config) : WriteM String := do
  let desk ← get
  set { desk with counts := { desk.counts with loops := desk.counts.loops + 1 } }
  return c.indexName desk.counts.loops

end WriteM

namespace Job

open WriteM

section Writing

variable (job : Job) (close : Writer → Writer) (chain : List NodeId → PinRef → Scope → WriteM Unit)
  (loops : List NodeId) (node : Node) (scope : Scope)

/-- Writes a branch, given the text of its condition. -/
def writeBranch (condition : String) : WriteM Unit := do
  headed close (.ifHead node.id condition) (chain loops (.execOut node.id thenSlot) scope)
  if hasSuccessor node elseSlot then
    headed close .elseHead (chain loops (.execOut node.id elseSlot) scope)

/-- Writes a loop, given the texts of its bounds and what its body knows besides its index. -/
def writeLoop (bounds : String × String) : WriteM Unit := do
  let index ← freshIndex job.config
  headed close (.forHead node.id index bounds.1 bounds.2)
    (chain (node.id :: loops) (.execOut node.id bodySlot) (scope.bind (.dataOut node.id 0) index))

/-- Writes what a node stands for that control enters. `chain` writes what follows an exec output within
a block. The answer is where control goes on after the node, and what is known there. -/
def writeNode : WriteM (Option (PinRef × Scope)) := do
  let pull := job.statement job.budget []
  match node.kind with
  | .ret _ =>
    let (values, _) ← compose (job.operandsFrom [] pull node 0) scope
    line (.ret node.id values)
    return none
  | .callMethod .. | .callStatic .. | .setter _ =>
    if node.id ∈ scope.emitted then return some (.execOut node.id 0, scope)
    else
      let (_, scope) ← compose (pull node) scope
      return some (.execOut node.id 0, scope)
  | .ifElse =>
    let (condition, scope) ← compose (job.operand [] pull node 0) scope
    writeBranch close chain loops node scope condition
    return none
  | .forLoop =>
    let (bounds, scope) ← compose (job.bounds pull node) scope
    let fresh := scope.forgetAll job.method
    job.writeLoop close chain loops node fresh bounds
    return some (.execOut node.id completedSlot, fresh)
  | .methodEntry _ | .getter _ | .literal .. => throw (.danglingReference (.execIn node.id 0))

end Writing

section Methods

variable (job : Job) (close : Writer → Writer)

/-- Writes what follows an exec output. `path` are the nodes entered so far, and `into` goes on with a node
that is not among them. -/
def writeOnward (path : List NodeId) (into : Node → List NodeId → Scope → WriteM Unit)
    (loops : List NodeId) (pin : PinRef) (scope : Scope) : WriteM Unit := do
  match ← job.follow pin with
  | none => return ()
  | some node =>
    if node.id ∈ path then
      if loops.head? = some node.id then line .again
      else throw (.execCycle node.id node.label)
    else into node loops scope

/-- Writes one node after the other, from an exec output to the end of the block. `path`, `loops` and
`budget` are those of `walk`. -/
def writeChain : (budget : Nat) → (path loops : List NodeId) → PinRef → Scope → WriteM Unit
  | 0, path => job.writeOnward path fun node _ _ => throw (.execCycle node.id node.label)
  | budget + 1, path =>
    job.writeOnward path fun node loops scope => do
      let chain := writeChain budget (node.id :: path)
      resume (chain loops) (← job.writeNode close chain loops node scope)

/-- Writes the body of a method, if its entry has an exec output. -/
def writeBody (entry : Node) : WriteM Unit := do
  if !entry.execOuts.isEmpty then
    job.writeChain close job.budget [entry.id] [] (.execOut entry.id 0) (entryScope entry)

/-- Writes the method. -/
def writeMethod : WriteM Unit :=
  match job.method.entryNode? with
  | none => throw .missingEntry
  | some entry =>
    if job.method.isAbstract then line (.signature (job.method.signature ++ ";"))
    else headed close (.signature job.method.signature) (job.writeBody close entry)

/-- All that is written from an empty sheet on, with blocks that `close` closes. -/
def writeWith : Except SourceError Writer := (·.2.writer) <$> (job.writeMethod close).run {}

end Methods

/-- The method, written line by line. -/
def write (job : Job) : Except SourceError Writer := job.writeWith Writer.closeBlock

end Job

end VisualScript
