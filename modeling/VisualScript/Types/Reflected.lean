import VisualScript.Types.Basic

/-!
# Reflected types

Descriptions of types as a reflection tool hands them over: a bare name with its arity mark, the
namespace apart, and the members. `TypeSpec.ofReflected` turns one into a type.
-/

namespace VisualScript

mutual

structure ReflectedType where
  name : String
  space : Option String := none
  isEnum : Bool := false
  isParameter : Bool := false
  isPublic : Bool := true
  args : List ReflectedType := []
  base : Option ReflectedType := none
  interfaces : List ReflectedType := []
  methods : List ReflectedMethod := []
  enumNames : List String := []

structure ReflectedMethod where
  name : String
  parameters : List ReflectedType := []
  result : Option ReflectedType := none
  isStatic : Bool := false
  /-- Accessors and the like, which no one calls by name. -/
  isSpecial : Bool := false

end

namespace ReflectedType

/-- The name up to its arity mark, after the namespace if there is one. -/
def qualifiedName (name : String) (space : Option String) : String :=
  let bare := String.ofList (name.toList.takeWhile (· ≠ '\x60'))
  match space with
  | none => bare
  | some s => if s.isEmpty then bare else s ++ "." ++ bare

mutual

/-- The type of a description that is no generic parameter. -/
def spec : ReflectedType → TypeSpec
  | ⟨name, space, isEnum, _, _, args, _, _, _, _⟩ => ⟨qualifiedName name space, typeArgs args, isEnum⟩

/-- A parameter stays open under its bare name; every other description is a type. -/
def typeArgs : List ReflectedType → List TypeArg
  | [] => []
  | r :: rs => (if r.isParameter then .parameter r.name else .concrete r.spec) :: typeArgs rs

end

/-- The result of a method that returns nothing. -/
def isVoid (r : ReflectedType) : Bool := r.name == "Void" && r.space == some "System"

end ReflectedType

/-- The type that a description stands for; a bare generic parameter stands for none. -/
def TypeSpec.ofReflected (r : ReflectedType) : Except TypeError TypeSpec :=
  if r.isParameter then .error (.genericParameter r.name) else .ok r.spec

end VisualScript
