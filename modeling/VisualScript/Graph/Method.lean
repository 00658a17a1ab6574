import VisualScript.Graph.Node

/-!
# Method graphs

A `Method` is a signature and the graph of nodes that makes up its body. Nodes stand in rising order
of their ids, one of them is the entry, and fresh ids come from a counter that only rises. A method
is plain data: the ends of its links need not agree with each other when it comes from outside, and
`dangling` lists the pins where they do not.
-/

namespace VisualScript

/-- Why two pins do not go together. -/
inductive Mismatch where
  | pinKinds
  | notAssignable (produced consumed : TypeSpec)
  | types (cause : TypeError)
deriving DecidableEq

def Mismatch.message : Mismatch → String
  | .pinKinds => "pin kinds do not form an exec or data pair"
  | .notAssignable produced consumed => s!"'{produced.text}' is not assignable to '{consumed.text}'"
  | .types cause => cause.message

/-- What a name has to be unique in. -/
inductive NameScope where
  | inClass (fullName : String)
  | inProject (name : String)
deriving DecidableEq

def NameScope.text : NameScope → String
  | .inClass fullName => s!"class '{fullName}'"
  | .inProject name => s!"project '{name}'"

/-- Why an operation on a graph, a class or a project is refused. -/
inductive GraphError where
  | typeMismatch (a b : PinRef) (reason : Mismatch)
  | nodeNotFound (id : NodeId)
  | pinNotFound (pin : PinRef)
  | nodeIdInUse (id : NodeId)
  | duplicateEntry (id : NodeId)
  | entryNodeRemoval (id : NodeId)
  | duplicateName (scope : NameScope) (name : String)
deriving DecidableEq

def GraphError.message : GraphError → String
  | .typeMismatch a b reason => s!"Pins {a.text} and {b.text} cannot be connected: {reason.message}"
  | .nodeNotFound id => s!"Node {NodeId.text id} not found in method graph"
  | .pinNotFound pin => s!"Pin {pin.text} not found in method graph"
  | .nodeIdInUse id => s!"Node id {NodeId.text id} is already in use"
  | .duplicateEntry id => s!"Method graph already has an entry node ({NodeId.text id})"
  | .entryNodeRemoval id =>
    s!"The entry node {NodeId.text id} cannot be removed from its method"
  | .duplicateName scope name => s!"Name '{name}' is already used in {scope.text}"

inductive MethodModifier where
  | isPublic
  | isProtected
  | isInternal
  | isPrivate
  | isStatic
  | isAbstract
  | isVirtual
  | isOverride
  | isSealed
deriving DecidableEq

instance : Ranked MethodModifier where
  rank m := [m.ctorIdx]
  rank_injective {a b} h := by cases a <;> cases b <;> first | rfl | simp [MethodModifier.ctorIdx] at h

structure Method where
  name : String
  argumentTypes : List TypeSpec
  returnTypes : List TypeSpec
  modifiers : SortedSet MethodModifier
  nodes : List Node
  entry : NodeId
  /-- The id that the next new node gets. -/
  nextId : NodeId
deriving DecidableEq

/-! ### Families of pins -/

/-- The pins of one kind: how a node holds them. -/
structure PinFamily (π : Type) where
  kind : PinKind
  pins : Node → List π
  setPins : Node → List π → Node

def execIns : PinFamily ExecIn := ⟨.execIn, Node.execIns, fun n ps => { n with execIns := ps }⟩

def execOuts : PinFamily ExecOut := ⟨.execOut, Node.execOuts, fun n ps => { n with execOuts := ps }⟩

def dataIns : PinFamily DataIn := ⟨.dataIn, Node.dataIns, fun n ps => { n with dataIns := ps }⟩

def dataOuts : PinFamily DataOut := ⟨.dataOut, Node.dataOuts, fun n ps => { n with dataOuts := ps }⟩

namespace Method

/-- A method that holds only its entry. -/
def make (name : String) (argumentTypes returnTypes : List TypeSpec) : Method where
  name := name
  argumentTypes := argumentTypes
  returnTypes := returnTypes
  modifiers := .singleton .isPublic
  nodes := [.make 0 (.methodEntry argumentTypes) {}]
  entry := 0
  nextId := 1

def node? (m : Method) (id : NodeId) : Option Node := m.nodes.find? (·.id = id)

def entryNode? (m : Method) : Option Node := m.node? m.entry

def isAbstract (m : Method) : Bool := decide (MethodModifier.isAbstract ∈ m.modifiers)

/-- The pin of a family that a reference names, if it is of that kind and exists. -/
def pin? {π : Type} (m : Method) (family : PinFamily π) (p : PinRef) : Option π :=
  if p.kind = family.kind then (m.node? p.node).bind fun n => (family.pins n)[p.slot]? else none

def containsPin (m : Method) (p : PinRef) : Bool :=
  match p.kind with
  | .execIn => (m.pin? execIns p).isSome
  | .execOut => (m.pin? execOuts p).isSome
  | .dataIn => (m.pin? dataIns p).isSome
  | .dataOut => (m.pin? dataOuts p).isSome

/-- The slot that stands for none. -/
def noSlot : Nat := Nat.pow 2 64 - 1

/-- The first pin of a kind and name at a node. -/
def pinByName (m : Method) (id : NodeId) (kind : PinKind) (name : String) :
    Except GraphError PinRef :=
  match m.node? id with
  | none => .error (.nodeNotFound id)
  | some n =>
    let slot := match kind with
      | .execIn => n.execIns.findIdx? (·.name = name)
      | .execOut => n.execOuts.findIdx? (·.name = name)
      | .dataIn => n.dataIns.findIdx? (·.name = name)
      | .dataOut => n.dataOuts.findIdx? (·.name = name)
    match slot with
    | some slot => .ok ⟨id, kind, slot⟩
    | none => .error (.pinNotFound ⟨id, kind, noSlot⟩)

/-- Every link, as its output keeps it. -/
def links (m : Method) : List Link := m.nodes.flatMap Node.links

/-- The links with an end at the node. -/
def nodeLinks (m : Method) (id : NodeId) : List Link := m.links.filter (·.touches id)

/-! ### Links whose ends disagree -/

/-- Whether the other end of each link of a pin has it too. -/
def paired (m : Method) (p : PinRef) : Bool :=
  match p.kind with
  | .execIn => (m.pin? execIns p).all fun pin =>
    pin.incoming.toList.all fun s => ((m.pin? execOuts s).bind (·.outgoing)) = some p
  | .execOut => (m.pin? execOuts p).all fun pin =>
    pin.outgoing.all fun t => (m.pin? execIns t).any fun q => decide (p ∈ q.incoming)
  | .dataIn => (m.pin? dataIns p).all fun pin =>
    pin.incoming.all fun s => (m.pin? dataOuts s).any fun q => decide (p ∈ q.outgoing)
  | .dataOut => (m.pin? dataOuts p).all fun pin =>
    pin.outgoing.toList.all fun t => ((m.pin? dataIns t).bind (·.incoming)) = some p

/-- The pins that hold an end of a link whose other end is missing, in order. -/
def dangling (m : Method) : List PinRef :=
  (SortedSet.ofList ((m.nodes.flatMap Node.pinRefs).filter fun p => !m.paired p)).toList

/-! ### Equality of methods -/

/-- Forgets what equality does not look at: enum flags, the sign of a zero, and the counter. -/
def erase (m : Method) : Method :=
  { m with
    argumentTypes := m.argumentTypes.map TypeSpec.erase
    returnTypes := m.returnTypes.map TypeSpec.erase
    nodes := m.nodes.map Node.erase
    nextId := 0 }

/-- The same signature and the same graph. An undone addition leaves only the counter raised. -/
def Same (a b : Method) : Prop := a.erase = b.erase

instance (a b : Method) : Decidable (Same a b) := inferInstanceAs (Decidable (_ = _))

/-! ### Loading -/

/-- The first id that stands twice in a row. -/
def repeated? : List NodeId → Option NodeId
  | a :: b :: ids => if a = b then some a else repeated? (b :: ids)
  | _ => none

/-- Accepts a method from outside: its nodes are put in order, their ids have to differ, and the
entry has to be the one entry node. The counter is raised above every id. -/
def load (raw : Method) : Except GraphError Method :=
  let nodes := raw.nodes.mergeSort fun a b => a.id ≤ b.id
  match repeated? (nodes.map (·.id)) with
  | some id => .error (.nodeIdInUse id)
  | none =>
    if !(nodes.find? (·.id = raw.entry)).any (·.kind.isEntry) then .error (.nodeNotFound raw.entry)
    else
      match nodes.find? fun n => n.id ≠ raw.entry ∧ n.kind.isEntry with
      | some n => .error (.duplicateEntry n.id)
      | none =>
        let top := nodes.getLast?.map (·.id + 1)
        .ok { raw with nodes, nextId := max raw.nextId (top.getD 0) }

end Method

end VisualScript
