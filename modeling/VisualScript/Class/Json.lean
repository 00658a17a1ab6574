import VisualScript.Class.Basic
import VisualScript.Graph.Json

/-!
# Classes in JSON

Attributes and classes are objects; modifiers are written by name, in their order.
-/

namespace VisualScript

namespace VariableModifier

def all : List VariableModifier :=
  [.isPublic, .isProtected, .isInternal, .isStatic, .isReadOnly, .isNew, .isConst]

def jsonName : VariableModifier → String
  | .isPublic => "public"
  | .isProtected => "protected"
  | .isInternal => "internal"
  | .isStatic => "static"
  | .isReadOnly => "read_only"
  | .isNew => "new"
  | .isConst => "const"

def ofName? (s : String) : Option VariableModifier := all.find? (·.jsonName = s)

def setToJson (s : SortedSet VariableModifier) : Json := Json.strings (s.toList.map jsonName)

def setOfJson (d : Document) : Decoded (SortedSet VariableModifier) :=
  SortedSet.ofList <$> Document.asList (Document.asName .direct ofName?) d

end VariableModifier

namespace Variable

def toJson (v : Variable) : Json :=
  .object
    [("name", .string v.name),
      ("variable_type", v.type.toJson),
      ("modifiers", VariableModifier.setToJson v.modifiers),
      ("initial_value", Json.orNull .string v.initial)]

def ofJson : Document → Decoded Variable :=
  Fields.decode <| Variable.mk <$> Fields.required "name" Document.asString
    <*> Fields.required "variable_type" (TypeSpec.ofJson .direct)
    <*> Fields.optional "modifiers" .empty VariableModifier.setOfJson
    <*> Fields.nullable "initial_value" Document.asString

end Variable

namespace ClassModifier

def all : List ClassModifier :=
  [.isPublic, .isInternal, .isStatic, .isAbstract, .isSealed, .isPartial]

def keyword : ClassModifier → String
  | .isPublic => "public"
  | .isInternal => "internal"
  | .isStatic => "static"
  | .isAbstract => "abstract"
  | .isSealed => "sealed"
  | .isPartial => "partial"

def ofName? (s : String) : Option ClassModifier := all.find? (·.keyword = s)

def setToJson (s : SortedSet ClassModifier) : Json := Json.strings (s.toList.map keyword)

def setOfJson (d : Document) : Decoded (SortedSet ClassModifier) :=
  SortedSet.ofList <$> Document.asList (Document.asName .direct ofName?) d

end ClassModifier

namespace Class

def toJson (c : Class) : Json :=
  .object
    [("name", .string c.name),
      ("namespace", .string c.space),
      ("super_type", c.superType.toJson),
      ("modifiers", ClassModifier.setToJson c.modifiers),
      ("attributes", .array (c.attributes.map Variable.toJson)),
      ("methods", .array (c.methods.map Method.toJson))]

def ofJson : Document → Decoded Class :=
  Fields.decode <| Class.mk <$> Fields.required "name" Document.asString
    <*> Fields.required "namespace" Document.asString
    <*> Fields.required "super_type" (TypeSpec.ofJson .direct)
    <*> Fields.optional "modifiers" .empty ClassModifier.setOfJson
    <*> Fields.optional "attributes" [] (Document.asList Variable.ofJson)
    <*> Fields.optional "methods" [] (Document.asList Method.ofJson)

end Class

end VisualScript
