import VisualScript.Catalog.Basic
import VisualScript.Source.Code

/-!
# Operands

The value of a data input, as source text. A literal is written in place. A variable is read into a
temporary, and a call or an assignment becomes a statement, the first time that its value is wanted
on a path; later uses on the path take the same text. A temporary that holds a variable is given up
when the variable is assigned.
-/

namespace VisualScript

/-- Why a method has no source. -/
inductive SourceError where
  | missingConnection (node : NodeId) (label pin : String)
  | typeMismatch (node : NodeId) (pin : String) (expected found : TypeSpec)
  | valueOutOfScope (node : NodeId) (label pin : String)
  | execCycle (node : NodeId) (label : String)
  | dataCycle (node : NodeId) (label : String)
  | missingEntry
  | danglingReference (pin : PinRef)
deriving DecidableEq

namespace SourceError

/-- A type as a mismatch names it. -/
def describe (t : TypeSpec) : String := if t.isEnum then s!"enum {t.text}" else t.text

def message : SourceError → String
  | .missingConnection node label pin =>
    s!"Input pin '{pin}' of node {NodeId.text node} ({label}) has no incoming connection"
  | .typeMismatch node pin expected found =>
    s!"Input pin '{pin}' of node {NodeId.text node} expects '{describe expected}' " ++
      s!"but is fed '{describe found}'"
  | .valueOutOfScope node label pin =>
    s!"Output pin '{pin}' of node {NodeId.text node} ({label}) is read outside the scope " ++
      "that produces it"
  | .execCycle node label => s!"Execution path re-enters node {NodeId.text node} ({label})"
  | .dataCycle node label => s!"Data dependencies of node {NodeId.text node} ({label}) form a cycle"
  | .missingEntry => "Method graph has no entry node"
  | .danglingReference pin => s!"Connection refers to missing pin {pin.text}"

/-- The node that the error is about. -/
def node? : SourceError → Option NodeId
  | .missingConnection node _ _ | .typeMismatch node _ _ _ | .valueOutOfScope node _ _
  | .execCycle node _ | .dataCycle node _ => some node
  | .danglingReference pin => some pin.node
  | .missingEntry => none

end SourceError

/-- A method that is being written, with what does not change meanwhile. -/
structure Job where
  method : Method
  catalog : TypeCatalog
  config : Config

/-- What is known at a point of a path. -/
structure Scope where
  /-- The texts of output pins, newest first. -/
  values : List (PinRef × String) := []
  /-- The calls and assignments that are already statements. -/
  emitted : List NodeId := []

namespace Scope

def value? (s : Scope) (p : PinRef) : Option String := (s.values.find? (·.1 = p)).map (·.2)

def bind (s : Scope) (p : PinRef) (text : String) : Scope :=
  { s with values := (p, text) :: s.values }

/-- Whether the pin belongs to a getter of a variable that `which` picks. -/
def reads (m : Method) (which : String → Bool) (p : PinRef) : Bool :=
  (m.node? p.node).any fun n =>
    match n.kind with
    | .getter v => which v.name
    | _ => false

/-- Gives up what was read of the variables that `which` picks. -/
def forget (s : Scope) (m : Method) (which : String → Bool) : Scope :=
  { s with values := s.values.filter fun v => !reads m which v.1 }

/-- Gives up all that was read of variables. -/
def forgetAll (s : Scope) (m : Method) : Scope := s.forget m fun _ => true

end Scope

/-- What statements are written on, one after the other. -/
class Sink (ω : Type) where
  put : ω → Step → ω

instance : Sink (List Step) := ⟨fun steps s => steps ++ [s]⟩

/-- What finding operands works on: the scope, the number of temporaries so far, and what the statements
made on the way are written on. -/
structure DraftOf (ω : Type) where
  scope : Scope
  temps : Nat
  steps : ω

abbrev DraftOn (ω : Type) := StateT (DraftOf ω) (Except SourceError)

/-- A draft whose statements are collected. -/
abbrev Draft := DraftOf (List Step)

abbrev DraftM := DraftOn (List Step)

/-- The name of a temporary: the stem, its number, and a hint at what it holds. -/
def Config.tempName (c : Config) (k : Nat) (hint : String) : String :=
  s!"{c.tempStem}{k}_{Spelling.identifier hint}"

namespace DraftM

variable {ω : Type}

/-- Writes a statement. -/
def write [Sink ω] (s : Step) : DraftOn ω Unit := modify fun d => { d with steps := Sink.put d.steps s }

def changeScope (f : Scope → Scope) : DraftOn ω Unit := modify fun d => { d with scope := f d.scope }

def value? (p : PinRef) : DraftOn ω (Option String) := return (← get).scope.value? p

/-- A new name for a temporary. -/
def freshTemp (c : Config) (hint : String) : DraftOn ω String := do
  let d ← get
  set { d with temps := d.temps + 1 }
  return c.tempName d.temps hint

end DraftM

/-- Where an input gets its value from: the pin, its node, and the pin's own record. -/
structure Supply where
  source : PinRef
  producer : Node
  produced : DataOut

/-- The value is not known where it is wanted, and nothing can be written there to make it so. -/
def Supply.outOfScope (s : Supply) : SourceError :=
  .valueOutOfScope s.producer.id s.producer.label s.produced.name

namespace Job

open DraftM

/-- What feeds a data input. The link has to exist, lead to an output and carry a fitting type. -/
def supply (job : Job) (node : Node) (slot : Nat) : Except SourceError Supply :=
  match node.dataIns[slot]? with
  | none => .error (.danglingReference (.dataIn node.id slot))
  | some pin =>
    match pin.incoming with
    | none => .error (.missingConnection node.id node.label pin.name)
    | some source =>
      match job.method.node? source.node with
      | none => .error (.danglingReference source)
      | some producer =>
        match producer.dataOuts[source.slot]? with
        | none => .error (.danglingReference source)
        | some produced =>
          if job.catalog.isAssignable produced.type pin.type then .ok ⟨source, producer, produced⟩
          else .error (.typeMismatch node.id pin.name pin.type produced.type)

section Operands

variable {ω : Type} [Sink ω]

/-- The text that a call or an assignment supplies, after its statement. `pending` are the nodes whose
statements wait for this one, and `pull` makes the statement of a node. -/
def pullText (pending : List NodeId) (pull : Node → DraftOn ω Unit) (s : Supply) : DraftOn ω String := do
  if s.producer.id ∈ pending then throw (.dataCycle s.producer.id s.producer.label)
  if s.producer.id ∈ (← get).scope.emitted then throw s.outOfScope
  pull s.producer
  match ← value? s.source with
  | some text => return text
  | none => throw s.outOfScope

/-- The text of an input's value. -/
def operand (job : Job) (pending : List NodeId) (pull : Node → DraftOn ω Unit) (node : Node)
    (slot : Nat) : DraftOn ω String := do
  let s ← job.supply node slot
  match ← value? s.source with
  | some text => return text
  | none =>
    match s.producer.kind with
    | .literal value type => return Spelling.literal value type
    | .getter v =>
      let name ← freshTemp job.config v.name
      write (.read s.producer.id s.produced.type name v.name)
      changeScope (·.bind s.source name)
      return name
    | .callMethod .. | .callStatic .. | .setter _ => pullText pending pull s
    | .methodEntry _ | .ret _ | .ifElse | .forLoop => throw s.outOfScope

/-- The texts of the inputs from a slot on. -/
def operandsFrom (job : Job) (pending : List NodeId) (pull : Node → DraftOn ω Unit) (node : Node)
    (first : Nat) : DraftOn ω (List String) :=
  (List.range' first (node.dataIns.length - first)).mapM (job.operand pending pull node)

/-- Names a temporary for an output of a call, given with its slot. -/
def bindOutput (job : Job) (node : NodeId) (output : Nat × DataOut) : DraftOn ω (TypeSpec × String) := do
  let name ← freshTemp job.config output.2.name
  changeScope (·.bind (.dataOut node output.1) name)
  return (output.2.type, name)

/-- Names a temporary for each output of a call. -/
def bindOutputs (job : Job) (node : Node) : DraftOn ω (List (TypeSpec × String)) :=
  (node.dataOuts.mapIdx fun slot pin => (slot, pin)).mapM (job.bindOutput node.id)

/-- Makes the statement of a call or an assignment, after those that its inputs want. -/
def build (job : Job) (pending : List NodeId) (pull : Node → DraftOn ω Unit) (node : Node) :
    DraftOn ω Unit := do
  match node.kind with
  | .callMethod name _ _ =>
    let target ← job.operand pending pull node 0
    let arguments ← job.operandsFrom pending pull node 1
    let results ← job.bindOutputs node
    write (.callMethod node.id results target name arguments)
  | .callStatic type name _ _ =>
    let arguments ← job.operandsFrom pending pull node 0
    let results ← job.bindOutputs node
    write (.callStatic node.id results type name arguments)
  | .setter v =>
    let value ← job.operand pending pull node 0
    write (.assign node.id v.name value)
    changeScope fun s => (s.forget job.method (· = v.name)).bind (.dataOut node.id 0) value
  | _ => pure ()

/-- Makes the statement of a node and marks it. Statements nest by data links, each node once at
most, so a `budget` of one per node of the method is never used up. -/
def statement (job : Job) : (budget : Nat) → (pending : List NodeId) → Node → DraftOn ω Unit
  | 0, _, node => throw (.dataCycle node.id node.label)
  | budget + 1, pending, node => do
    let pending := node.id :: pending
    job.build pending (job.statement budget pending) node
    changeScope fun s => { s with emitted := node.id :: s.emitted }

end Operands

/-- One statement of every node can wait for another. -/
def budget (job : Job) : Nat := job.method.nodes.length

end Job

end VisualScript
