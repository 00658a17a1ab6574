import VisualScript.Catalog.Basic
import VisualScript.Graph.Pin
import VisualScript.Number.Binary64

/-!
# Nodes

The kind of a node says what it does, and with it which pins a new node gets. `Node.make` builds a
node without links; `Node.unlinked` drops the links of any node.
-/

namespace VisualScript

structure Position where
  x : Binary64 := .zero false
  y : Binary64 := .zero false
deriving DecidableEq

/-- A variable that a node reads or assigns. -/
structure VariableRef where
  name : String
  type : TypeSpec
deriving DecidableEq

inductive NodeKind where
  | methodEntry (argumentTypes : List TypeSpec)
  | ret (returnTypes : List TypeSpec)
  | callMethod (name : String) (argumentTypes returnTypes : List TypeSpec)
  | callStatic (declaringType : TypeSpec) (name : String) (argumentTypes returnTypes : List TypeSpec)
  | getter (ref : VariableRef)
  | setter (ref : VariableRef)
  | ifElse
  | forLoop
  | literal (value : String) (type : TypeSpec)
deriving DecidableEq

/-- The name of the parameter at an index. -/
def argumentName (index : Nat) : String := s!"arg{index}"

def execPinName : String := "Exec"

def targetPinName : String := "Target"

/-! Places of the exec outputs of branches and loops. -/

def thenSlot : Nat := 0

def elseSlot : Nat := 1

def bodySlot : Nat := 0

def completedSlot : Nat := 1

namespace NodeKind

/-- A call of what a catalog lists; a static function has no target. -/
def call (m : MethodSpec) : NodeKind :=
  if m.isStatic then .callStatic m.declaringType m.name m.argumentTypes m.returnTypes
  else .callMethod m.name m.argumentTypes m.returnTypes

def isEntry : NodeKind → Bool
  | .methodEntry _ => true
  | _ => false

def label : NodeKind → String
  | .methodEntry _ => "Method Entry"
  | .ret _ => "Return"
  | .callMethod name _ _ => s!"Call {name}"
  | .callStatic t name _ _ => s!"Call {t.shortName}.{name}"
  | .getter v => s!"Get {v.name}"
  | .setter v => s!"Set {v.name}"
  | .ifElse => "If"
  | .forLoop => "For"
  | .literal value _ => s!"Literal {value}"

def hasExecPins : NodeKind → Bool
  | .getter _ | .literal _ _ => false
  | _ => true

/-- How many ways control can go on. -/
def execFanout : NodeKind → Nat
  | .methodEntry _ | .callMethod .. | .callStatic .. | .setter _ => 1
  | .ifElse | .forLoop => 2
  | .ret _ | .getter _ | .literal _ _ => 0

def hasDataPins : NodeKind → Bool
  | .methodEntry args => !args.isEmpty
  | .ret results => !results.isEmpty
  | .callStatic _ _ args results => !args.isEmpty || !results.isEmpty
  | _ => true

def erase : NodeKind → NodeKind
  | .methodEntry args => .methodEntry (args.map TypeSpec.erase)
  | .ret results => .ret (results.map TypeSpec.erase)
  | .callMethod name args results =>
    .callMethod name (args.map TypeSpec.erase) (results.map TypeSpec.erase)
  | .callStatic t name args results =>
    .callStatic t.erase name (args.map TypeSpec.erase) (results.map TypeSpec.erase)
  | .getter v => .getter { v with type := v.type.erase }
  | .setter v => .setter { v with type := v.type.erase }
  | .ifElse => .ifElse
  | .forLoop => .forLoop
  | .literal value t => .literal value t.erase

/-! ### The pins of a kind -/

def execIns : NodeKind → List ExecIn
  | .methodEntry _ | .getter _ | .literal _ _ => []
  | _ => [{ name := execPinName }]

def execOuts : NodeKind → List ExecOut
  | .methodEntry _ | .callMethod .. | .callStatic .. | .setter _ => [{ name := execPinName }]
  | .ifElse => [{ name := "Then" }, { name := "Else" }]
  | .forLoop => [{ name := "Body" }, { name := "Completed" }]
  | .ret _ | .getter _ | .literal _ _ => []

/-- One input per type, named for the type. -/
def inputsFor (types : List TypeSpec) : List DataIn :=
  types.map fun t => { name := t.shortName, type := t }

/-- One output per type, named for the type. -/
def outputsFor (types : List TypeSpec) : List DataOut :=
  types.map fun t => { name := t.shortName, type := t }

def dataIns : NodeKind → List DataIn
  | .ret results => results.mapIdx fun i t => { name := s!"Return{i}", type := t }
  | .callMethod _ args _ => { name := targetPinName, type := .object } :: inputsFor args
  | .callStatic _ _ args _ => inputsFor args
  | .setter v => [{ name := "Value", type := v.type }]
  | .ifElse => [{ name := "Condition", type := .bool }]
  | .forLoop => [{ name := "InitialIndex", type := .int }, { name := "MaxIndex", type := .int }]
  | .methodEntry _ | .getter _ | .literal _ _ => []

def dataOuts : NodeKind → List DataOut
  | .methodEntry args => args.mapIdx fun i t => { name := argumentName i, type := t }
  | .callMethod _ _ results | .callStatic _ _ _ results => outputsFor results
  | .getter v | .setter v => [{ name := v.name, type := v.type }]
  | .forLoop => [{ name := "Index", type := .int }]
  | .literal _ t => [{ name := "Value", type := t }]
  | .ret _ | .ifElse => []

end NodeKind

structure Node where
  id : NodeId
  kind : NodeKind
  position : Position
  execIns : List ExecIn
  execOuts : List ExecOut
  dataIns : List DataIn
  dataOuts : List DataOut
deriving DecidableEq

namespace Node

/-- A node with the pins of its kind and no links. -/
def make (id : NodeId) (kind : NodeKind) (position : Position) : Node where
  id := id
  kind := kind
  position := position
  execIns := kind.execIns
  execOuts := kind.execOuts
  dataIns := kind.dataIns
  dataOuts := kind.dataOuts

def label (n : Node) : String := n.kind.label

/-- The node without its ends of any links. -/
def unlinked (n : Node) : Node :=
  { n with
    execIns := n.execIns.map fun p => { p with incoming := .empty }
    execOuts := n.execOuts.map fun p => { p with outgoing := none }
    dataIns := n.dataIns.map fun p => { p with incoming := none }
    dataOuts := n.dataOuts.map fun p => { p with outgoing := .empty } }

/-- Every pin of the node: exec inputs, exec outputs, data inputs, data outputs. -/
def pinRefs (n : Node) : List PinRef :=
  (List.range n.execIns.length).map (.execIn n.id) ++
    (List.range n.execOuts.length).map (.execOut n.id) ++
    (List.range n.dataIns.length).map (.dataIn n.id) ++
    (List.range n.dataOuts.length).map (.dataOut n.id)

def dataInSlot? (n : Node) (name : String) : Option Nat := n.dataIns.findIdx? (·.name = name)

def execOutSlot? (n : Node) (name : String) : Option Nat := n.execOuts.findIdx? (·.name = name)

/-- The links that leave the node, exec before data, each kind by slot. -/
def links (n : Node) : List Link :=
  (n.execOuts.mapIdx fun slot p => p.outgoing.toList.map (Link.mk (.execOut n.id slot))).flatten ++
    (n.dataOuts.mapIdx fun slot p => p.outgoing.toList.map (Link.mk (.dataOut n.id slot))).flatten

/-- Forgets what equality of graphs does not look at: enum flags and the sign of a zero. -/
def erase (n : Node) : Node :=
  { n with
    kind := n.kind.erase
    position := ⟨n.position.x.unsignedZero, n.position.y.unsignedZero⟩
    dataIns := n.dataIns.map DataIn.erase
    dataOuts := n.dataOuts.map DataOut.erase }

end Node

end VisualScript
