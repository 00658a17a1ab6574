import VisualScript.Graph.Method

/-!
# Changing a graph

Operations run in `GraphM`: a state that goes on also past an error, since an operation on a graph
with dangling ends may fail half way. `connect` makes a link and returns the one it displaced;
`unlink`, `disconnect` and `disconnectAll` sever one link, those of a pin and those of a node.
-/

namespace VisualScript

/-- An operation on a state. An error does not take back what was already changed. -/
abbrev EditM (σ : Type) := ExceptT GraphError (StateM σ)

/-- An operation on a method. -/
abbrev GraphM := EditM Method

namespace EditM

variable {σ α : Type}

/-- Runs an operation; the state it leaves comes with the answer. -/
def exec (x : EditM σ α) (s : σ) : Except GraphError α × σ := x.run.run s

/-- Runs an operation and passes over its error. -/
def attempt (x : EditM σ α) : EditM σ Unit :=
  tryCatch (discard x) fun _ => pure ()

end EditM

namespace Method

/-- The method with one node changed. -/
def changeNode (m : Method) (id : NodeId) (f : Node → Node) : Method :=
  { m with nodes := m.nodes.map fun n => if n.id = id then f n else n }

/-- Why a pin that is not there cannot be changed. -/
def pinFault {π : Type} (m : Method) (family : PinFamily π) (p : PinRef) : GraphError :=
  if p.kind = family.kind ∧ (m.node? p.node).isNone then .nodeNotFound p.node else .pinNotFound p

/-- The method with one pin changed. -/
def changePin {π : Type} (m : Method) (family : PinFamily π) (p : PinRef) (f : π → π) : Method :=
  m.changeNode p.node fun n => family.setPins n ((family.pins n).modify p.slot f)

/-! ### Checking a link -/

/-- Puts two pins into the order of a link, output first. -/
def orient? (a b : PinRef) : Option Link :=
  match a.kind, b.kind with
  | .execOut, .execIn | .dataOut, .dataIn => some ⟨a, b⟩
  | .execIn, .execOut | .dataIn, .dataOut => some ⟨b, a⟩
  | _, _ => none

/-- The pin of a family, or the error that it is missing. -/
def requirePin {π : Type} (m : Method) (family : PinFamily π) (p : PinRef) : Except GraphError π :=
  match m.pin? family p with
  | some pin => .ok pin
  | none => .error (.pinNotFound p)

/-- The link that two pins would make: one is an output and the other an input of the same sort,
both exist, and a value can flow. -/
def checkConnection (m : Method) (c : TypeCatalog) (a b : PinRef) : Except GraphError Link :=
  match orient? a b with
  | none => .error (.typeMismatch a b .pinKinds)
  | some link => do
    if link.isExec then
      let _ ← m.requirePin execOuts link.source
      let _ ← m.requirePin execIns link.target
      return link
    else
      let produced := (← m.requirePin dataOuts link.source).type
      let consumed := (← m.requirePin dataIns link.target).type
      match c.checkAssignable produced consumed with
      | .ok true => return link
      | .ok false => .error (.typeMismatch a b (.notAssignable produced consumed))
      | .error cause => .error (.typeMismatch a b (.types cause))

def canConnect (m : Method) (c : TypeCatalog) (a b : PinRef) : Bool :=
  (m.checkConnection c a b).isOk

/-- Whether the link is there, as the end that has only one link tells it. -/
def isLinked (m : Method) (l : Link) : Bool :=
  if l.isExec then ((m.pin? execOuts l.source).bind (·.outgoing)) = some l.target
  else ((m.pin? dataIns l.target).bind (·.incoming)) = some l.source

end Method

namespace GraphM

/-- Changes one pin and returns it as it was. -/
def change {π : Type} (family : PinFamily π) (p : PinRef) (f : π → π) : GraphM π := do
  let m ← get
  match m.pin? family p with
  | none => throw (m.pinFault family p)
  | some pin =>
    set (m.changePin family p f)
    return pin

/-! ### Making and severing links -/

/-- Makes the exec link; the output's former target loses its end. -/
def linkExec (l : Link) : GraphM (Option Link) := do
  let old ← change execOuts l.source fun p => { p with outgoing := some l.target }
  let former := old.outgoing
  if let some t := former then
    let _ ← change execIns t fun p => { p with incoming := p.incoming.erase l.source }
  let _ ← change execIns l.target fun p => { p with incoming := p.incoming.insert l.source }
  return former.map fun t => ⟨l.source, t⟩

/-- Makes the data link; the input's former source loses its end. -/
def linkData (l : Link) : GraphM (Option Link) := do
  let old ← change dataIns l.target fun p => { p with incoming := some l.source }
  let former := old.incoming
  if let some s := former then
    let _ ← change dataOuts s fun p => { p with outgoing := p.outgoing.erase l.target }
  let _ ← change dataOuts l.source fun p => { p with outgoing := p.outgoing.insert l.target }
  return former.map fun s => ⟨s, l.target⟩

/-- Links two pins and returns the link that had to make room. Pins that are linked already stay as
they are. -/
def connect (c : TypeCatalog) (a b : PinRef) : GraphM (Option Link) := do
  let link ← (← get).checkConnection c a b
  if (← get).isLinked link then return none
  if link.isExec then linkExec link else linkData link

/-- Severs one link and tells whether it was there. -/
def unlink (l : Link) : GraphM Bool := do
  if !(← get).isLinked l then return false
  if l.isExec then
    let _ ← change execOuts l.source fun p => { p with outgoing := none }
    let _ ← change execIns l.target fun p => { p with incoming := p.incoming.erase l.source }
  else
    let _ ← change dataIns l.target fun p => { p with incoming := none }
    let _ ← change dataOuts l.source fun p => { p with outgoing := p.outgoing.erase l.target }
  return true

/-- Severs every link of a pin and returns them. -/
def disconnect (pin : PinRef) : GraphM (List Link) :=
  match pin.kind with
  | .execIn => do
    let old ← change execIns pin fun p => { p with incoming := .empty }
    old.incoming.toList.mapM fun s => do
      let _ ← change execOuts s fun p => { p with outgoing := none }
      return ⟨s, pin⟩
  | .execOut => do
    let old ← change execOuts pin fun p => { p with outgoing := none }
    old.outgoing.toList.mapM fun t => do
      let _ ← change execIns t fun p => { p with incoming := p.incoming.erase pin }
      return ⟨pin, t⟩
  | .dataIn => do
    let old ← change dataIns pin fun p => { p with incoming := none }
    old.incoming.toList.mapM fun s => do
      let _ ← change dataOuts s fun p => { p with outgoing := p.outgoing.erase pin }
      return ⟨s, pin⟩
  | .dataOut => do
    let old ← change dataOuts pin fun p => { p with outgoing := .empty }
    old.outgoing.toList.mapM fun t => do
      let _ ← change dataIns t fun p => { p with incoming := none }
      return ⟨pin, t⟩

/-- Severs every link of a node, pin by pin, and returns them. -/
def disconnectAll (id : NodeId) : GraphM (List Link) := do
  match (← get).node? id with
  | none => throw (.nodeNotFound id)
  | some n => return (← n.pinRefs.mapM disconnect).flatten

/-! ### Adding and removing nodes -/

/-- Adds a node with the pins of its kind under a fresh id. A method has one entry. -/
def addNode (kind : NodeKind) (position : Position) : GraphM NodeId := do
  let m ← get
  if kind.isEntry then throw (.duplicateEntry m.entry)
  set { m with nodes := m.nodes ++ [Node.make m.nextId kind position], nextId := m.nextId + 1 }
  return m.nextId

/-- Puts a node at its place in the order of ids. -/
def placeNode (node : Node) : List Node → List Node
  | [] => [node]
  | n :: ns => if node.id < n.id then node :: n :: ns else n :: placeNode node ns

/-- Puts a node in under its own id, which has to be free. Its ends of links are dropped. -/
def insertNode (node : Node) : GraphM NodeId := do
  let m ← get
  if node.kind.isEntry then throw (.duplicateEntry m.entry)
  if (m.node? node.id).isSome then throw (.nodeIdInUse node.id)
  set { m with
    nodes := placeNode node.unlinked m.nodes
    nextId := max m.nextId (node.id + 1) }
  return node.id

/-- Severs the links of a node and takes it out. The entry stays. -/
def removeNode (id : NodeId) : GraphM Node := do
  if id = (← get).entry then throw (.entryNodeRemoval id)
  let _ ← disconnectAll id
  let m ← get
  match m.node? id with
  | none => throw (.nodeNotFound id)
  | some n =>
    set { m with nodes := m.nodes.filter (·.id ≠ id) }
    return n

end GraphM

end VisualScript
