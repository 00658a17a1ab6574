import VisualScript.Graph.Method

/-!
# Classes

A class has attributes and methods in the order of their declaration. A name may be declared again
only by methods whose argument types differ. `addAttribute` and `addMethod` refuse what would clash,
and `duplicateNames` lists the clashes of a class that was made in some other way.
-/

namespace VisualScript

inductive VariableModifier where
  | isPublic
  | isProtected
  | isInternal
  | isStatic
  | isReadOnly
  | isNew
  | isConst
deriving DecidableEq

instance : Ranked VariableModifier where
  rank m := [m.ctorIdx]
  rank_injective {a b} h := by
    cases a <;> cases b <;> first | rfl | simp [VariableModifier.ctorIdx] at h

structure Variable where
  name : String
  type : TypeSpec
  modifiers : SortedSet VariableModifier := .empty
  /-- The initial value, as source text. -/
  initial : Option String := none
deriving DecidableEq

inductive ClassModifier where
  | isPublic
  | isInternal
  | isStatic
  | isAbstract
  | isSealed
  | isPartial
deriving DecidableEq

instance : Ranked ClassModifier where
  rank m := [m.ctorIdx]
  rank_injective {a b} h := by
    cases a <;> cases b <;> first | rfl | simp [ClassModifier.ctorIdx] at h

structure Class where
  name : String
  space : String
  superType : TypeSpec := .object
  modifiers : SortedSet ClassModifier := .singleton .isPublic
  attributes : List Variable := []
  methods : List Method := []
deriving DecidableEq

/-- Argument types as they tell methods of one name apart. -/
def Method.erasedArguments (m : Method) : List TypeSpec := m.argumentTypes.map TypeSpec.erase

namespace Class

/-- The name, after the namespace if there is one. -/
def fullName (c : Class) : String := if c.space.isEmpty then c.name else c.space ++ "." ++ c.name

/-- The first method of a name. -/
def method? (c : Class) (name : String) : Option Method := c.methods.find? (·.name = name)

/-- The class with the first method of a name changed. -/
def changeMethod (c : Class) (name : String) (f : Method → Method) : Class :=
  { c with methods := c.methods.modify (c.methods.findIdx (·.name = name)) f }

def duplicate (c : Class) (name : String) : GraphError := .duplicateName (.inClass c.fullName) name

/-- Whether some attribute has the name. -/
def hasAttribute (c : Class) (name : String) : Bool := c.attributes.any (·.name = name)

def addAttribute (c : Class) (v : Variable) : Except GraphError Class :=
  if c.hasAttribute v.name ∨ c.methods.any (·.name = v.name) then .error (c.duplicate v.name)
  else .ok { c with attributes := c.attributes ++ [v] }

/-- A method clashes with one of its name and argument types, and with an attribute of its name. -/
def addMethod (c : Class) (m : Method) : Except GraphError Class :=
  if (c.methods.any fun n => n.name = m.name ∧ n.erasedArguments = m.erasedArguments) ∨
      c.hasAttribute m.name then
    .error (c.duplicate m.name)
  else .ok { c with methods := c.methods ++ [m] }

/-- Takes out the first attribute of a name, if there is one. -/
def removeAttribute (c : Class) (name : String) : Option Variable × Class :=
  (c.attributes.find? (·.name = name),
    { c with attributes := c.attributes.eraseP (·.name = name) })

/-- Takes out the first method of a name, if there is one. -/
def removeMethod (c : Class) (name : String) : Option Method × Class :=
  (c.method? name, { c with methods := c.methods.eraseP (·.name = name) })

/-! ### Names declared twice -/

/-- Adds a name to a list that does not have it. -/
def note (names : List String) (name : String) : List String :=
  if name ∈ names then names else names ++ [name]

/-- Names seen so far and those found twice. -/
def scanAttribute (state : List String × List String) (v : Variable) : List String × List String :=
  if v.name ∈ state.1 then (state.1, note state.2 v.name) else (v.name :: state.1, state.2)

/-- Signatures seen so far and names that clash. -/
def scanMethod (c : Class) (state : List (String × List TypeSpec) × List String) (m : Method) :
    List (String × List TypeSpec) × List String :=
  let signature := (m.name, m.erasedArguments)
  if c.hasAttribute m.name ∨ signature ∈ state.1 then (state.1, note state.2 m.name)
  else (signature :: state.1, state.2)

/-- The names declared more than once, in the order in which they first clash. -/
def duplicateNames (c : Class) : List String :=
  let twice := (c.attributes.foldl scanAttribute ([], [])).2
  (c.methods.foldl c.scanMethod ([], twice)).2

/-! ### Equality of classes -/

def erase (c : Class) : Class :=
  { c with
    superType := c.superType.erase
    attributes := c.attributes.map fun v => { v with type := v.type.erase }
    methods := c.methods.map Method.erase }

/-- The same declaration and members, as equality of types and methods has it. -/
def Same (a b : Class) : Prop := a.erase = b.erase

instance (a b : Class) : Decidable (Same a b) := inferInstanceAs (Decidable (_ = _))

end Class

end VisualScript
