import VisualScript.Json.Decode
import VisualScript.Types.Reflected

/-!
# Types in JSON

A type is an object with its name; empty arguments and a cleared enum flag are left out. An argument
carries the tag `kind` beside its fields. Decoders recurse to the depth of the value that they read,
which is never too little.
-/

namespace VisualScript

mutual

/-- The members of a type's object. -/
def TypeSpec.jsonMembers : TypeSpec → List (String × Json)
  | ⟨name, args, isEnum⟩ =>
    ("name", .string name) ::
      (if args.isEmpty then [] else [("generic_arguments", .array (TypeArg.toJsonAll args))]) ++
      (if isEnum then [("is_enum", .bool true)] else [])

def TypeArg.toJson : TypeArg → Json
  | .concrete t => .object (("kind", .string "specifier") :: t.jsonMembers)
  | .parameter name => .object [("kind", .string "generic"), ("name", .string name)]

def TypeArg.toJsonAll : List TypeArg → List Json
  | [] => []
  | a :: as => a.toJson :: TypeArg.toJsonAll as

end

def TypeSpec.toJson (t : TypeSpec) : Json := .object t.jsonMembers

/-- The JSON array of some types. -/
def TypeSpec.listToJson (ts : List TypeSpec) : Json := .array (ts.map TypeSpec.toJson)

/-- The fields of a type; `arg` decodes its arguments. -/
def TypeSpec.fields (arg : Document → Decoded TypeArg) : Fields TypeSpec :=
  TypeSpec.mk <$> Fields.required "name" Document.asString
    <*> Fields.optional "generic_arguments" [] (Document.asList arg)
    <*> Fields.optional "is_enum" false Document.asBool

/-- Decodes an argument whose arguments nest at most `depth` deep. -/
def TypeArg.ofJsonWithin : (depth : Nat) → Delivery → Document → Decoded TypeArg
  | 0, _, _ => .error .malformed
  | depth + 1, delivery, d => do
    let (kind, ms) ← d.tagged delivery "kind" ["specifier", "generic"]
    if kind = "specifier" then
      .concrete <$> (TypeSpec.fields (TypeArg.ofJsonWithin depth .held)).decodeMembers ms
    else .parameter <$> (Fields.required "name" Document.asString).decodeMembers ms

def TypeArg.ofJson (delivery : Delivery) (d : Document) : Decoded TypeArg :=
  TypeArg.ofJsonWithin d.depth delivery d

def TypeSpec.ofJson (delivery : Delivery) (d : Document) : Decoded TypeSpec :=
  (TypeSpec.fields (TypeArg.ofJsonWithin d.depth delivery)).decode d

/-- The types of an array. -/
def TypeSpec.listOfJson (delivery : Delivery) : Document → Decoded (List TypeSpec) :=
  Document.asList (TypeSpec.ofJson delivery)

mutual

def ReflectedType.toJson : ReflectedType → Json
  | ⟨name, space, isEnum, isParameter, isPublic, args, base, interfaces, methods, enumNames⟩ =>
    .object
      [("name", .string name),
        ("namespace", Json.orNull .string space),
        ("is_enum", .bool isEnum),
        ("is_generic_parameter", .bool isParameter),
        ("is_public", .bool isPublic),
        ("generic_arguments", .array (ReflectedType.toJsonAll args)),
        ("base_type", ReflectedType.toJsonOption base),
        ("interfaces", .array (ReflectedType.toJsonAll interfaces)),
        ("methods", .array (ReflectedMethod.toJsonAll methods)),
        ("enum_names", Json.strings enumNames)]

def ReflectedType.toJsonAll : List ReflectedType → List Json
  | [] => []
  | r :: rs => r.toJson :: ReflectedType.toJsonAll rs

def ReflectedType.toJsonOption : Option ReflectedType → Json
  | none => .null
  | some r => r.toJson

def ReflectedMethod.toJson : ReflectedMethod → Json
  | ⟨name, parameters, result, isStatic, isSpecial⟩ =>
    .object
      [("name", .string name),
        ("parameter_types", .array (ReflectedType.toJsonAll parameters)),
        ("return_type", ReflectedType.toJsonOption result),
        ("is_static", .bool isStatic),
        ("is_special_name", .bool isSpecial)]

def ReflectedMethod.toJsonAll : List ReflectedMethod → List Json
  | [] => []
  | m :: ms => m.toJson :: ReflectedMethod.toJsonAll ms

end

/-- The fields of a method's description; `type` decodes the types within. -/
def ReflectedMethod.fields (type : Document → Decoded ReflectedType) : Fields ReflectedMethod :=
  ReflectedMethod.mk <$> Fields.required "name" Document.asString
    <*> Fields.optional "parameter_types" [] (Document.asList type)
    <*> Fields.nullable "return_type" type
    <*> Fields.optional "is_static" false Document.asBool
    <*> Fields.optional "is_special_name" false Document.asBool

/-- The fields of a type's description; `type` decodes the types within. -/
def ReflectedType.fields (type : Document → Decoded ReflectedType) : Fields ReflectedType :=
  ReflectedType.mk <$> Fields.required "name" Document.asString
    <*> Fields.nullable "namespace" Document.asString
    <*> Fields.optional "is_enum" false Document.asBool
    <*> Fields.optional "is_generic_parameter" false Document.asBool
    <*> Fields.optional "is_public" true Document.asBool
    <*> Fields.optional "generic_arguments" [] (Document.asList type)
    <*> Fields.nullable "base_type" type
    <*> Fields.optional "interfaces" [] (Document.asList type)
    <*> Fields.optional "methods" [] (Document.asList (ReflectedMethod.fields type).decode)
    <*> Fields.optional "enum_names" [] (Document.asList Document.asString)

/-- Decodes a description that nests at most `depth` deep. -/
def ReflectedType.ofJsonWithin : (depth : Nat) → Document → Decoded ReflectedType
  | 0, _ => .error .malformed
  | depth + 1, d => (ReflectedType.fields (ReflectedType.ofJsonWithin depth)).decode d

def ReflectedType.ofJson (d : Document) : Decoded ReflectedType :=
  ReflectedType.ofJsonWithin d.depth d

end VisualScript
