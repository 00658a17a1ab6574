import VisualScript.Class.Source
import VisualScript.Project.Basic

/-!
# Building projects

Every class is written on its own. If all succeed, their sources go to a compiler in the order of
the classes, and what it reports is divided into errors and the rest. A compiler is any function from
requests to outputs.
-/

namespace VisualScript

inductive Severity where
  | error
  | warning
  | info
deriving DecidableEq

namespace Severity

def text : Severity → String
  | .error => "error"
  | .warning => "warning"
  | .info => "info"

def ofName? (s : String) : Option Severity :=
  [Severity.error, .warning, .info].find? (·.text = s)

end Severity

/-- What a compiler reports. -/
structure Diagnostic where
  severity : Severity
  code : String
  message : String
  file : Option String := none
  line : Option Nat := none
deriving DecidableEq

namespace Diagnostic

/-- Where the report points to; a line without a file is left out. -/
def place (d : Diagnostic) : String :=
  match d.file, d.line with
  | some file, some line => s!"{file}({line}): "
  | some file, none => s!"{file}: "
  | none, _ => ""

def text (d : Diagnostic) : String := s!"{d.place}{d.severity.text} {d.code}: {d.message}"

def toJson (d : Diagnostic) : Json :=
  .object
    [("severity", .string d.severity.text),
      ("code", .string d.code),
      ("message", .string d.message),
      ("file", Json.orNull .string d.file),
      ("line", Json.orNull .nat d.line)]

def ofJson : Document → Decoded Diagnostic :=
  Fields.decode <| Diagnostic.mk
    <$> Fields.required "severity" (Document.asName .direct Severity.ofName?)
    <*> Fields.required "code" Document.asString
    <*> Fields.required "message" Document.asString
    <*> Fields.nullable "file" Document.asString
    <*> Fields.nullable "line" (Document.asNat 32)

end Diagnostic

/-- What a compiler is asked to build. -/
structure BuildRequest where
  outputName : String
  outputKind : OutputKind
  references : List String
  sources : List String
deriving DecidableEq

/-- What a compiler answers. -/
structure CompilerOutput where
  artifact : Option String := none
  diagnostics : List Diagnostic := []
deriving DecidableEq

abbrev Compiler := BuildRequest → CompilerOutput

/-- A finished build. -/
structure BuildOutput where
  artifact : Option String
  classes : List ClassSource
  warnings : List Diagnostic
deriving DecidableEq

/-- Why a build fails. -/
inductive BuildError where
  | sources (failed : List ClassFailure)
  | compilation (diagnostics : List Diagnostic)
deriving DecidableEq

def BuildError.message : BuildError → String
  | .sources failed => s!"{failed.length} class(es) failed to translate"
  | .compilation diagnostics => s!"External compiler reported {diagnostics.length} error(s)"

/-- The outcomes of a project's classes, each list in the order of the classes. -/
structure ProjectSource where
  succeeded : List ClassSource
  failed : List ClassFailure
deriving DecidableEq

namespace Project

def sources (p : Project) (catalog : TypeCatalog) (config : Config) : ProjectSource :=
  let results := p.classes.map fun c => c.source catalog config
  { succeeded := results.filterMap Except.toOption
    failed := results.filterMap fun
      | .ok _ => none
      | .error f => some f }

def request (p : Project) (classes : List ClassSource) : BuildRequest where
  outputName := s!"{p.name}.{p.outputKind.extension}"
  outputKind := p.outputKind
  references := p.references
  sources := classes.map (·.source)

/-- What the compiler would be asked, if every class has a source. -/
def request? (p : Project) (catalog : TypeCatalog) (config : Config) : Option BuildRequest :=
  let source := p.sources catalog config
  if source.failed.isEmpty then some (p.request source.succeeded) else none

def build (p : Project) (catalog : TypeCatalog) (config : Config) (compiler : Compiler) :
    Except BuildError BuildOutput :=
  let source := p.sources catalog config
  if !source.failed.isEmpty then .error (.sources source.failed)
  else
    let output := compiler (p.request source.succeeded)
    let (errors, others) := output.diagnostics.partition (·.severity = .error)
    if errors.isEmpty then .ok ⟨output.artifact, source.succeeded, others⟩
    else .error (.compilation errors)

end Project

end VisualScript
