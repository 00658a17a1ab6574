import VisualScript.Types.Json

/-!
# Type catalogs

A `TypeCatalog` answers questions about types: which type derives from which, and what can be called
on them. A value flows from one type to another if the types match or the first derives from the
second.
-/

namespace VisualScript

/-- The signature of something that can be called. -/
structure MethodSpec where
  name : String
  declaringType : TypeSpec
  argumentTypes : List TypeSpec := []
  returnTypes : List TypeSpec := []
  isStatic : Bool := false
deriving DecidableEq

structure TypeCatalog where
  /-- Whether the first type derives from the second, which is another. -/
  isSubtype : TypeSpec → TypeSpec → Bool
  /-- What can be called on a value of the type. -/
  publicMethods : TypeSpec → List MethodSpec := fun _ => []
  staticFunctions : List MethodSpec := []
  enumNames : TypeSpec → List String := fun _ => []

namespace TypeCatalog

/-- A catalog that knows only some pairs of a type and another that it derives from. -/
def ofPairs (pairs : List (TypeSpec × TypeSpec)) : TypeCatalog where
  isSubtype a b := pairs.any fun p => p.1.Same a && p.2.Same b

/-- The static functions whose first result has the type. -/
def staticFunctionsReturning (c : TypeCatalog) (t : TypeSpec) : List MethodSpec :=
  c.staticFunctions.filter fun f => f.returnTypes.head?.any fun r => decide (r.Same t)

/-- Whether a value of type `source` may flow to a place of type `target`. -/
def checkAssignable (c : TypeCatalog) (source target : TypeSpec) : Except TypeError Bool := do
  if ← source.matches? target then return true
  return c.isSubtype source target

/-- A conflict counts as not assignable. -/
def isAssignable (c : TypeCatalog) (source target : TypeSpec) : Bool :=
  match c.checkAssignable source target with
  | .ok b => b
  | .error _ => false

end TypeCatalog

def MethodSpec.toJson (m : MethodSpec) : Json :=
  .object
    [("name", .string m.name),
      ("declaring_type", m.declaringType.toJson),
      ("argument_types", TypeSpec.listToJson m.argumentTypes),
      ("return_types", TypeSpec.listToJson m.returnTypes),
      ("is_static", .bool m.isStatic)]

def MethodSpec.ofJson : Document → Decoded MethodSpec :=
  Fields.decode <| MethodSpec.mk <$> Fields.required "name" Document.asString
    <*> Fields.required "declaring_type" (TypeSpec.ofJson .direct)
    <*> Fields.optional "argument_types" [] (TypeSpec.listOfJson .direct)
    <*> Fields.optional "return_types" [] (TypeSpec.listOfJson .direct)
    <*> Fields.optional "is_static" false Document.asBool

end VisualScript
