import VisualScript.Graph.Edit

/-!
# Graphs in JSON

Node kinds carry a tag `kind` beside their fields, edits a tag `edit` with their fields apart under
`args`. Pins are written with both their links and their lack of links; decoding takes a missing list
as empty and a missing or `null` end as none. A method that is decoded has to be acceptable.
-/

namespace VisualScript

/-! ### Names -/

def PinKind.jsonName : PinKind → String
  | .execIn => "input_exec"
  | .execOut => "output_exec"
  | .dataIn => "input_data"
  | .dataOut => "output_data"

def PinKind.ofName? (s : String) : Option PinKind :=
  [PinKind.execIn, .execOut, .dataIn, .dataOut].find? (·.jsonName = s)

namespace MethodModifier

def all : List MethodModifier :=
  [.isPublic, .isProtected, .isInternal, .isPrivate, .isStatic, .isAbstract, .isVirtual, .isOverride,
    .isSealed]

def keyword : MethodModifier → String
  | .isPublic => "public"
  | .isProtected => "protected"
  | .isInternal => "internal"
  | .isPrivate => "private"
  | .isStatic => "static"
  | .isAbstract => "abstract"
  | .isVirtual => "virtual"
  | .isOverride => "override"
  | .isSealed => "sealed"

def ofName? (s : String) : Option MethodModifier := all.find? (·.keyword = s)

def setToJson (s : SortedSet MethodModifier) : Json := Json.strings (s.toList.map keyword)

def setOfJson (d : Document) : Decoded (SortedSet MethodModifier) :=
  SortedSet.ofList <$> Document.asList (Document.asName .direct ofName?) d

end MethodModifier

/-! ### Pins -/

/-- Ids have 32 bits. -/
def NodeId.ofJson (d : Document) : Decoded NodeId := d.asNat 32

/-- Slots have 64 bits. -/
def slotOfJson (d : Document) : Decoded Nat := d.asNat 64

namespace PinRef

def toJson (p : PinRef) : Json :=
  .object [("node", .nat p.node), ("kind", .string p.kind.jsonName), ("slot", .nat p.slot)]

def ofJson (delivery : Delivery) : Document → Decoded PinRef :=
  Fields.decode <| PinRef.mk <$> Fields.required "node" NodeId.ofJson
    <*> Fields.required "kind" (Document.asName delivery PinKind.ofName?)
    <*> Fields.required "slot" slotOfJson

def setToJson (s : PinSet) : Json := .array (s.toList.map toJson)

def setOfJson (delivery : Delivery) (d : Document) : Decoded PinSet :=
  SortedSet.ofList <$> Document.asList (ofJson delivery) d

end PinRef

def Link.toJson (l : Link) : Json :=
  .object [("from", l.source.toJson), ("to", l.target.toJson)]

def Link.ofJson (delivery : Delivery) : Document → Decoded Link :=
  Fields.decode <| Link.mk <$> Fields.required "from" (PinRef.ofJson delivery)
    <*> Fields.required "to" (PinRef.ofJson delivery)

def ExecIn.toJson (p : ExecIn) : Json :=
  .object [("name", .string p.name), ("incoming", PinRef.setToJson p.incoming)]

def ExecIn.ofJson (delivery : Delivery) : Document → Decoded ExecIn :=
  Fields.decode <| ExecIn.mk <$> Fields.required "name" Document.asString
    <*> Fields.optional "incoming" .empty (PinRef.setOfJson delivery)

def ExecOut.toJson (p : ExecOut) : Json :=
  .object [("name", .string p.name), ("outgoing", Json.orNull PinRef.toJson p.outgoing)]

def ExecOut.ofJson (delivery : Delivery) : Document → Decoded ExecOut :=
  Fields.decode <| ExecOut.mk <$> Fields.required "name" Document.asString
    <*> Fields.nullable "outgoing" (PinRef.ofJson delivery)

def DataIn.toJson (p : DataIn) : Json :=
  .object
    [("name", .string p.name), ("pin_type", p.type.toJson),
      ("incoming", Json.orNull PinRef.toJson p.incoming)]

def DataIn.ofJson (delivery : Delivery) : Document → Decoded DataIn :=
  Fields.decode <| DataIn.mk <$> Fields.required "name" Document.asString
    <*> Fields.required "pin_type" (TypeSpec.ofJson delivery)
    <*> Fields.nullable "incoming" (PinRef.ofJson delivery)

def DataOut.toJson (p : DataOut) : Json :=
  .object
    [("name", .string p.name), ("pin_type", p.type.toJson),
      ("outgoing", PinRef.setToJson p.outgoing)]

def DataOut.ofJson (delivery : Delivery) : Document → Decoded DataOut :=
  Fields.decode <| DataOut.mk <$> Fields.required "name" Document.asString
    <*> Fields.required "pin_type" (TypeSpec.ofJson delivery)
    <*> Fields.optional "outgoing" .empty (PinRef.setOfJson delivery)

/-! ### Nodes -/

def Position.toJson (p : Position) : Json :=
  .object [("x", .number (.real p.x)), ("y", .number (.real p.y))]

def Position.ofJson : Document → Decoded Position :=
  Fields.decode <| Position.mk <$> Fields.required "x" Document.asBinary64
    <*> Fields.required "y" Document.asBinary64

def VariableRef.toJson (v : VariableRef) : Json :=
  .object [("name", .string v.name), ("variable_type", v.type.toJson)]

def VariableRef.ofJson (delivery : Delivery) : Document → Decoded VariableRef :=
  Fields.decode <| VariableRef.mk <$> Fields.required "name" Document.asString
    <*> Fields.required "variable_type" (TypeSpec.ofJson delivery)

namespace NodeKind

/-- The tag of a kind. -/
def tag : NodeKind → String
  | .methodEntry _ => "method_entry"
  | .ret _ => "return"
  | .callMethod .. => "call_method"
  | .callStatic .. => "call_static_function"
  | .getter _ => "variable_getter"
  | .setter _ => "variable_setter"
  | .ifElse => "if_else"
  | .forLoop => "for_loop"
  | .literal .. => "literal"

/-- The members beside the tag. -/
def fields : NodeKind → List (String × Json)
  | .methodEntry args => [("argument_types", TypeSpec.listToJson args)]
  | .ret results => [("return_types", TypeSpec.listToJson results)]
  | .callMethod name args results =>
    [("method_name", .string name), ("argument_types", TypeSpec.listToJson args),
      ("return_types", TypeSpec.listToJson results)]
  | .callStatic t name args results =>
    [("declaring_type", t.toJson), ("function_name", .string name),
      ("argument_types", TypeSpec.listToJson args), ("return_types", TypeSpec.listToJson results)]
  | .getter v | .setter v => [("variable", v.toJson)]
  | .ifElse | .forLoop => []
  | .literal value t => [("value", .string value), ("literal_type", t.toJson)]

def toJson (k : NodeKind) : Json := .object (("kind", .string k.tag) :: k.fields)

/-- The tags in their order. -/
def tags : List String :=
  ["method_entry", "return", "call_method", "call_static_function", "variable_getter",
    "variable_setter", "if_else", "for_loop", "literal"]

/-- The kind of a tag, from the members that were held back. -/
def ofMembers (tag : String) (ms : Members) : Decoded NodeKind :=
  let text (key : String) := Fields.required key Document.asString
  let type (key : String) := Fields.required key (TypeSpec.ofJson .held)
  let types (key : String) := Fields.required key (TypeSpec.listOfJson .held)
  let ref := Fields.required "variable" (VariableRef.ofJson .held)
  if tag = "method_entry" then (methodEntry <$> types "argument_types").decodeMembers ms
  else if tag = "return" then (ret <$> types "return_types").decodeMembers ms
  else if tag = "call_method" then
    (callMethod <$> text "method_name" <*> types "argument_types"
      <*> types "return_types").decodeMembers ms
  else if tag = "call_static_function" then
    (callStatic <$> type "declaring_type" <*> text "function_name" <*> types "argument_types"
      <*> types "return_types").decodeMembers ms
  else if tag = "variable_getter" then (getter <$> ref).decodeMembers ms
  else if tag = "variable_setter" then (setter <$> ref).decodeMembers ms
  else if tag = "if_else" then .ok ifElse
  else if tag = "for_loop" then .ok forLoop
  else (literal <$> text "value" <*> type "literal_type").decodeMembers ms

def ofJson (delivery : Delivery) (d : Document) : Decoded NodeKind := do
  let (tag, ms) ← d.tagged delivery "kind" tags
  ofMembers tag ms

end NodeKind

namespace Node

def toJson (n : Node) : Json :=
  .object
    [("id", .nat n.id),
      ("kind", n.kind.toJson),
      ("position", n.position.toJson),
      ("input_exec_pins", .array (n.execIns.map ExecIn.toJson)),
      ("output_exec_pins", .array (n.execOuts.map ExecOut.toJson)),
      ("input_data_pins", .array (n.dataIns.map DataIn.toJson)),
      ("output_data_pins", .array (n.dataOuts.map DataOut.toJson))]

def ofJson (delivery : Delivery) : Document → Decoded Node :=
  Fields.decode <| Node.mk <$> Fields.required "id" NodeId.ofJson
    <*> Fields.required "kind" (NodeKind.ofJson delivery)
    <*> Fields.required "position" Position.ofJson
    <*> Fields.required "input_exec_pins" (Document.asList (ExecIn.ofJson delivery))
    <*> Fields.required "output_exec_pins" (Document.asList (ExecOut.ofJson delivery))
    <*> Fields.required "input_data_pins" (Document.asList (DataIn.ofJson delivery))
    <*> Fields.required "output_data_pins" (Document.asList (DataOut.ofJson delivery))

end Node

/-! ### Methods -/

namespace Method

def toJson (m : Method) : Json :=
  .object
    [("name", .string m.name),
      ("argument_types", TypeSpec.listToJson m.argumentTypes),
      ("return_types", TypeSpec.listToJson m.returnTypes),
      ("modifiers", MethodModifier.setToJson m.modifiers),
      ("nodes", .array (m.nodes.map Node.toJson)),
      ("entry", .nat m.entry),
      ("next_node_id", .nat m.nextId)]

/-- A method as it is written, not yet accepted. -/
def rawOfJson : Document → Decoded Method :=
  Fields.decode <| Method.mk <$> Fields.required "name" Document.asString
    <*> Fields.required "argument_types" (TypeSpec.listOfJson .direct)
    <*> Fields.required "return_types" (TypeSpec.listOfJson .direct)
    <*> Fields.optional "modifiers" .empty MethodModifier.setOfJson
    <*> Fields.required "nodes" (Document.asList (Node.ofJson .direct))
    <*> Fields.required "entry" NodeId.ofJson
    <*> Fields.optional "next_node_id" 0 NodeId.ofJson

def ofJson (d : Document) : Decoded Method := do
  (load (← rawOfJson d)).mapError fun e => .refused e.message

end Method

/-! ### Edits -/

namespace Edit

/-- The tags in their order. -/
def tags : List String :=
  ["add_node", "restore_node", "remove_node", "connect", "unlink", "disconnect", "batch"]

/-- The object of an edit's tag and fields. -/
def tagged (tag : String) (args : Json) : Json := .object [("edit", .string tag), ("args", args)]

mutual

def toJson : Edit → Json
  | .addNode kind position =>
    tagged "add_node" (.object [("kind", kind.toJson), ("position", position.toJson)])
  | .restoreNode node links =>
    tagged "restore_node"
      (.object [("node", node.toJson), ("links", .array (links.map Link.toJson))])
  | .removeNode id => tagged "remove_node" (.object [("node", .nat id)])
  | .connect a b => tagged "connect" (.object [("a", a.toJson), ("b", b.toJson)])
  | .unlink link => tagged "unlink" (.object [("link", link.toJson)])
  | .disconnect pin => tagged "disconnect" (.object [("pin", pin.toJson)])
  | .batch edits => tagged "batch" (.array (toJsonAll edits))

def toJsonAll : List Edit → List Json
  | [] => []
  | e :: es => e.toJson :: toJsonAll es

end

/-- The tag of an edit, one of those that there are. -/
def tagOfJson (delivery : Delivery) : Document → Decoded String :=
  Document.asName delivery fun s => if s ∈ tags then some s else none

/-- Decodes an edit that is no batch, from its tag and its fields. -/
def singleOfJson (delivery : Delivery) (tag : String) (args : Document) : Decoded Edit :=
  let pin (key : String) := Fields.required key (PinRef.ofJson delivery)
  if tag = "add_node" then
    (addNode <$> Fields.required "kind" (NodeKind.ofJson delivery)
      <*> Fields.required "position" Position.ofJson).decode args
  else if tag = "restore_node" then
    (restoreNode <$> Fields.required "node" (Node.ofJson delivery)
      <*> Fields.required "links" (Document.asList (Link.ofJson delivery))).decode args
  else if tag = "remove_node" then
    (removeNode <$> Fields.required "node" NodeId.ofJson).decode args
  else if tag = "connect" then (connect <$> pin "a" <*> pin "b").decode args
  else if tag = "unlink" then
    (unlink <$> Fields.required "link" (Link.ofJson delivery)).decode args
  else (disconnect <$> pin "pin").decode args

/-- How the fields of an edit come to their decoder: they are held back if the tag stands after
them. -/
def deliveryOfArgs (delivery : Delivery) (ms : Members) : Delivery :=
  let place (key : String) := ms.findIdx (·.1 = some key)
  if place "args" < place "edit" then .held else delivery

/-- Decodes an edit whose batches nest at most `depth` deep. -/
def ofJsonWithin : (depth : Nat) → Delivery → Document → Decoded Edit
  | 0, _, _ => .error .malformed
  | depth + 1, delivery, d => do
    let ms ← d.members
    let (tag, args) ← (Prod.mk <$> Fields.required "edit" (tagOfJson delivery)
      <*> Fields.required "args" pure).decodeMembers ms
    let delivery := deliveryOfArgs delivery ms
    if delivery = .held ∧ !args.fits then .error .malformed
    else if tag = "batch" then batch <$> args.asList (ofJsonWithin depth delivery)
    else singleOfJson delivery tag args

def ofJson (d : Document) : Decoded Edit := ofJsonWithin d.depth .direct d

end Edit

end VisualScript
