import VisualScript.Class.Json
import VisualScript.Json.Write
import VisualScript.Naming

/-!
# Projects

A project is a list of classes with what it takes to build them. A class that is added must have a
full name of its own; a class that is created gets a name that no class of the default namespace
has.
-/

namespace VisualScript

/-- What a project is built to. -/
inductive OutputKind where
  | library
  | executable
deriving DecidableEq

namespace OutputKind

def extension : OutputKind → String
  | .library => "dll"
  | .executable => "exe"

def jsonName : OutputKind → String
  | .library => "library"
  | .executable => "executable"

def ofName? (s : String) : Option OutputKind :=
  [OutputKind.library, .executable].find? (·.jsonName = s)

def toJson (k : OutputKind) : Json := .string k.jsonName

def ofJson : Document → Decoded OutputKind := Document.asName .direct ofName?

end OutputKind

structure Project where
  name : String
  defaultSpace : String
  references : List String := []
  outputKind : OutputKind := .library
  classes : List Class := []
deriving DecidableEq

namespace Project

/-- The first class of a full name. -/
def class? (p : Project) (fullName : String) : Option Class :=
  p.classes.find? (·.fullName = fullName)

def addClass (p : Project) (c : Class) : Except GraphError Project :=
  if (p.class? c.fullName).isSome then .error (.duplicateName (.inProject p.name) c.fullName)
  else .ok { p with classes := p.classes ++ [c] }

/-- A new class for the project. -/
def newClass (p : Project) : Class :=
  let taken := (p.classes.filter (·.space = p.defaultSpace)).map (·.name)
  { name := freshName "MyClass" taken, space := p.defaultSpace }

/-- Adds an empty class under a fresh name. -/
def createClass (p : Project) : Project := { p with classes := p.classes ++ [p.newClass] }

/-- Takes out the first class of a full name, if there is one. -/
def removeClass (p : Project) (fullName : String) : Option Class × Project :=
  (p.class? fullName, { p with classes := p.classes.eraseP (·.fullName = fullName) })

/-- The project with the first class of a full name changed. -/
def changeClass (p : Project) (fullName : String) (f : Class → Class) : Project :=
  { p with classes := p.classes.modify (p.classes.findIdx (·.fullName = fullName)) f }

def erase (p : Project) : Project := { p with classes := p.classes.map Class.erase }

/-- The same settings and the same classes. -/
def Same (a b : Project) : Prop := a.erase = b.erase

instance (a b : Project) : Decidable (Same a b) := inferInstanceAs (Decidable (_ = _))

/-! ### JSON -/

def toJson (p : Project) : Json :=
  .object
    [("name", .string p.name),
      ("default_namespace", .string p.defaultSpace),
      ("references", Json.strings p.references),
      ("output_kind", p.outputKind.toJson),
      ("classes", .array (p.classes.map Class.toJson))]

def ofJson : Document → Decoded Project :=
  Fields.decode <| Project.mk <$> Fields.required "name" Document.asString
    <*> Fields.required "default_namespace" Document.asString
    <*> Fields.optional "references" [] (Document.asList Document.asString)
    <*> Fields.optional "output_kind" .library OutputKind.ofJson
    <*> Fields.optional "classes" [] (Document.asList Class.ofJson)

def toText (p : Project) : String := p.toJson.pretty

def ofText (text : String) : Decoded Project := Document.decodeText ofJson text

end Project

end VisualScript
