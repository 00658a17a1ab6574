/-!
# Types

A `TypeSpec` names a type and lists its generic arguments, each a type or an open parameter. The
enum flag rides along and is no part of the type's identity: `erase` clears it at every depth, and
two types are the same when they agree once erased. Reading a type both as an enum and as something
else is an error, which `matches?` reports for the outermost flag.
-/

namespace VisualScript

mutual

structure TypeSpec where
  name : String
  args : List TypeArg := []
  isEnum : Bool := false

/-- A generic argument. -/
inductive TypeArg where
  | concrete (type : TypeSpec)
  | parameter (name : String)

end

mutual

def TypeSpec.eqDec : (a b : TypeSpec) → Decidable (a = b)
  | ⟨n, as, e⟩, ⟨m, bs, f⟩ =>
    match decEq n m, TypeArg.eqDecList as bs, decEq e f with
    | isTrue h, isTrue h', isTrue h'' => isTrue (by rw [h, h', h''])
    | isFalse h, _, _ => isFalse (by simp [h])
    | _, isFalse h, _ => isFalse (by simp [h])
    | _, _, isFalse h => isFalse (by simp [h])

def TypeArg.eqDec : (a b : TypeArg) → Decidable (a = b)
  | .concrete a, .concrete b =>
    match TypeSpec.eqDec a b with
    | isTrue h => isTrue (by rw [h])
    | isFalse h => isFalse (by simp [h])
  | .parameter n, .parameter m =>
    match decEq n m with
    | isTrue h => isTrue (by rw [h])
    | isFalse h => isFalse (by simp [h])
  | .concrete _, .parameter _ => isFalse (by simp)
  | .parameter _, .concrete _ => isFalse (by simp)

def TypeArg.eqDecList : (as bs : List TypeArg) → Decidable (as = bs)
  | [], [] => isTrue rfl
  | a :: as, b :: bs =>
    match TypeArg.eqDec a b, TypeArg.eqDecList as bs with
    | isTrue h, isTrue h' => isTrue (by rw [h, h'])
    | isFalse h, _ => isFalse (by simp [h])
    | _, isFalse h => isFalse (by simp [h])
  | [], _ :: _ => isFalse (by simp)
  | _ :: _, [] => isFalse (by simp)

end

instance : DecidableEq TypeSpec := TypeSpec.eqDec

instance : DecidableEq TypeArg := TypeArg.eqDec

/-- Why a type description makes no type, or two make no comparison. -/
inductive TypeError where
  | enumFlagConflict (name : String)
  | genericParameter (name : String)
deriving DecidableEq

def TypeError.message : TypeError → String
  | .enumFlagConflict name =>
    s!"Type '{name}' is described both as an enum and as a non-enum type"
  | .genericParameter name => s!"Generic parameter '{name}' cannot be used as a concrete type"

mutual

/-- The name, with the arguments between angle brackets. -/
def TypeSpec.text : TypeSpec → String
  | ⟨name, args, _⟩ =>
    if args.isEmpty then name else name ++ "<" ++ ", ".intercalate (TypeArg.texts args) ++ ">"

def TypeArg.text : TypeArg → String
  | .concrete t => t.text
  | .parameter name => name

def TypeArg.texts : List TypeArg → List String
  | [] => []
  | a :: as => a.text :: TypeArg.texts as

end

mutual

/-- The same type with every enum flag cleared. -/
def TypeSpec.erase : TypeSpec → TypeSpec
  | ⟨name, args, _⟩ => ⟨name, TypeArg.eraseAll args, false⟩

def TypeArg.erase : TypeArg → TypeArg
  | .concrete t => .concrete t.erase
  | .parameter name => .parameter name

def TypeArg.eraseAll : List TypeArg → List TypeArg
  | [] => []
  | a :: as => a.erase :: TypeArg.eraseAll as

end

def TypeArg.name : TypeArg → String
  | .concrete t => t.name
  | .parameter name => name

namespace TypeSpec

/-- Same name and same arguments, whatever the enum flags say. -/
def Same (a b : TypeSpec) : Prop := a.erase = b.erase

instance (a b : TypeSpec) : Decidable (Same a b) := inferInstanceAs (Decidable (_ = _))

/-- Whether the types are the same, unless they are and only one claims to be an enum. -/
def matches? (a b : TypeSpec) : Except TypeError Bool :=
  if ¬ a.Same b then .ok false
  else if a.isEnum ≠ b.isEnum then .error (.enumFlagConflict a.name)
  else .ok true

/-- The root of all types. -/
def objectName : String := "System.Object"

def object : TypeSpec := { name := objectName }

def int : TypeSpec := { name := "System.Int32" }

def bool : TypeSpec := { name := "System.Boolean" }

def string : TypeSpec := { name := "System.String" }

def named (name : String) : TypeSpec := { name }

def enum (name : String) : TypeSpec := { name, isEnum := true }

def withArgs (t : TypeSpec) (args : List TypeArg) : TypeSpec := { t with args }

def isObject (t : TypeSpec) : Bool := t.name == objectName && t.args.isEmpty

/-- The primitive types, in their qualified and their keyword spelling. -/
def primitiveNames : List String :=
  ["System.Byte", "byte", "System.SByte", "sbyte", "System.Char", "char", "System.Int16", "short",
    "System.UInt16", "ushort", "System.Int32", "int", "System.UInt32", "uint", "System.Int64",
    "long", "System.UInt64", "ulong", "System.Single", "float", "System.Double", "double",
    "System.String", "string", "System.Boolean", "bool"]

def isPrimitive (t : TypeSpec) : Bool :=
  t.isEnum || (t.args.isEmpty && primitiveNames.contains t.name)

/-- What follows the last point of the name. -/
def shortName (t : TypeSpec) : String :=
  String.ofList (t.name.toList.reverse.takeWhile (· ≠ '.')).reverse

theorem Same.refl (a : TypeSpec) : a.Same a := rfl

theorem Same.symm {a b : TypeSpec} (h : a.Same b) : b.Same a := Eq.symm h

theorem Same.trans {a b c : TypeSpec} (h : a.Same b) (h' : b.Same c) : a.Same c := Eq.trans h h'

end TypeSpec

end VisualScript
