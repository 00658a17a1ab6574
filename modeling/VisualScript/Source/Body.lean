import VisualScript.Source.Operand

/-!
# Bodies

The body of a method follows its exec links from the entry on. Each branch and each loop body goes
its own way with a copy of what is known, so nothing that a block declares is used outside of it. A
link back to the innermost loop is a `continue`; a link back to any other node of the path is an
error. A loop's body reads variables anew, and so does what follows the loop.
-/

namespace VisualScript

/-- How many temporaries and loops there are so far in the whole method. -/
structure Counts where
  temps : Nat := 0
  loops : Nat := 0
deriving DecidableEq

/-- A draft that starts from what is known at a point. -/
def Scope.draft (s : Scope) (counts : Counts) : Draft := { scope := s, temps := counts.temps, steps := [] }

/-- The name of a loop index. -/
def Config.indexName (c : Config) (k : Nat) : String := s!"{c.indexStem}{k}"

/-- Code together with the counts after it. -/
abbrev Drafted := Except SourceError (Code × Counts)

namespace Job

/-- The node that control goes to from an exec output, if it goes on at all. -/
def follow (job : Job) (pin : PinRef) : Except SourceError (Option Node) :=
  match job.method.node? pin.node with
  | none => .error (.danglingReference pin)
  | some source =>
    match source.execOuts[pin.slot]? with
    | none => .error (.danglingReference pin)
    | some out =>
      match out.outgoing with
      | none => .ok none
      | some target =>
        match job.method.node? target.node with
        | none => .error (.danglingReference target)
        | some node => .ok (some node)

def hasSuccessor (node : Node) (slot : Nat) : Bool :=
  (node.execOuts[slot]?).any (·.outgoing.isSome)

/-- Finds operands from a scope. The statements that they want stand before the code that `next` gives. -/
def after {α : Type} (x : DraftM α) (scope : Scope) (counts : Counts)
    (next : α → Scope → Counts → Drafted) : Drafted := do
  let (a, d) ← x.run (scope.draft counts)
  let (code, counts) ← next a d.scope { counts with temps := d.temps }
  return (.steps d.steps code, counts)

/-- The two inputs of a loop: where its index starts, and what it stays below. -/
def bounds {ω : Type} [Sink ω] (job : Job) (pull : Node → DraftOn ω Unit) (node : Node) :
    DraftOn ω (String × String) := do
  return (← job.operand [] pull node 0, ← job.operand [] pull node 1)

section Code

variable (job : Job) (pull : Node → DraftM Unit) (go : List NodeId → PinRef → Scope → Counts → Drafted)
  (loops : List NodeId) (node : Node) (scope : Scope) (counts : Counts)

/-- Code from a call or an assignment on. Its statement is left out if another node has asked for it. -/
def enterStatement : Drafted :=
  if node.id ∈ scope.emitted then go loops (.execOut node.id 0) scope counts
  else after (pull node) scope counts fun _ => go loops (.execOut node.id 0)

/-- A branch, given the text of its condition. -/
def enterBranch (condition : String) : Drafted := do
  let (whenTrue, counts) ← go loops (.execOut node.id thenSlot) scope counts
  if hasSuccessor node elseSlot then
    let (whenFalse, counts) ← go loops (.execOut node.id elseSlot) scope counts
    return (.branchElse node.id condition whenTrue whenFalse, counts)
  else return (.branch node.id condition whenTrue, counts)

/-- A loop and what follows it, given the texts of its bounds. -/
def enterLoop (bounds : String × String) : Drafted := do
  let index := job.config.indexName counts.loops
  let fresh := scope.forgetAll job.method
  let (body, counts) ← go (node.id :: loops) (.execOut node.id bodySlot)
    (fresh.bind (.dataOut node.id 0) index) { counts with loops := counts.loops + 1 }
  let (next, counts) ← go loops (.execOut node.id completedSlot) fresh counts
  return (.loop node.id index bounds.1 bounds.2 body next, counts)

/-- Code from a node on, which control enters. `pull` makes the statement of a node, and `go` is what
follows an exec output, given the loops that stand open there. -/
def enterWith : Drafted :=
  match node.kind with
  | .ret _ =>
    after (job.operandsFrom [] pull node 0) scope counts fun values _ counts =>
      return (.ret node.id values, counts)
  | .callMethod .. | .callStatic .. | .setter _ => enterStatement pull go loops node scope counts
  | .ifElse =>
    after (job.operand [] pull node 0) scope counts fun condition scope counts =>
      enterBranch go loops node scope counts condition
  | .forLoop =>
    after (job.bounds pull node) scope counts fun bounds scope counts =>
      job.enterLoop go loops node scope counts bounds
  | .methodEntry _ | .getter _ | .literal .. => .error (.danglingReference (.execIn node.id 0))

end Code

/-- Code from an exec output on. `path` are the nodes entered so far, and `into` is the code from a node
on that is not among them. -/
def onward (job : Job) (path : List NodeId) (into : Node → List NodeId → Scope → Counts → Drafted)
    (loops : List NodeId) (pin : PinRef) (scope : Scope) (counts : Counts) : Drafted := do
  match ← job.follow pin with
  | none => return (.done, counts)
  | some node =>
    if node.id ∈ path then
      if loops.head? = some node.id then return (.again node.id, counts)
      else .error (.execCycle node.id node.label)
    else into node loops scope counts

/-- Code from a node on, with the statements as the method has them. -/
def enter (job : Job) (go : List NodeId → PinRef → Scope → Counts → Drafted) (loops : List NodeId)
    (node : Node) (scope : Scope) (counts : Counts) : Drafted :=
  job.enterWith (job.statement job.budget []) go loops node scope counts

/-- Code from an exec output on. `path` are the nodes entered so far, and `loops` those whose bodies
stand open, innermost first. A path enters each node once at most, so a `budget` of one per node of
the method is never used up. -/
def walk (job : Job) : (budget : Nat) → (path loops : List NodeId) → PinRef → Scope → Counts → Drafted
  | 0, path => job.onward path fun node _ _ _ => .error (.execCycle node.id node.label)
  | budget + 1, path =>
    job.onward path fun node loops => job.enter (job.walk budget (node.id :: path)) loops node

/-- What is known at the entry: the parameters. -/
def entryScope (entry : Node) : Scope where
  values := entry.dataOuts.mapIdx fun slot _ => (.dataOut entry.id slot, argumentName slot)

/-- The body of the method. An entry without an exec output has an empty one. -/
def body (job : Job) (entry : Node) : Except SourceError Code := do
  if entry.execOuts.isEmpty then return .done
  let (code, _) ← job.walk job.budget [entry.id] [] (.execOut entry.id 0) (entryScope entry) {}
  return code

/-- The method's source. An abstract method has no body, whatever its graph. -/
def source (job : Job) : Except SourceError MethodSource :=
  match job.method.entryNode? with
  | none => .error .missingEntry
  | some entry =>
    if job.method.isAbstract then .ok ⟨job.method.signature, none⟩
    else (job.body entry).map fun code => ⟨job.method.signature, some code⟩

end Job

/-- The text of a method's source. -/
def Method.sourceText (m : Method) (catalog : TypeCatalog) (config : Config) :
    Except SourceError String :=
  (Job.source ⟨m, catalog, config⟩).map (MethodSource.text config)

end VisualScript
