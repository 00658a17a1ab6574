import VisualScript.Class.Json
import VisualScript.Source.Body

/-!
# Source of classes

A class is written as one file: a banner, the namespace, the class with its attributes and then its
methods. It has a source only if no name is declared twice and every method has one; otherwise all
that is wrong with it is reported.
-/

namespace VisualScript

/-- What is wrong with a class. -/
inductive ClassError where
  | duplicateName (fullName name : String)
  | method (fullName name : String) (cause : SourceError)
deriving DecidableEq

def ClassError.message : ClassError → String
  | .duplicateName fullName name => s!"Class '{fullName}' declares member '{name}' more than once"
  | .method fullName name cause =>
    s!"Failed to translate method '{fullName}.{name}': {cause.message}"

/-- All that is wrong with a class. -/
structure ClassFailure where
  fullName : String
  errors : List ClassError
deriving DecidableEq

def ClassFailure.text (f : ClassFailure) : String :=
  s!"{f.fullName}: {f.errors.length} error(s)" ++
    String.join (f.errors.map fun e => "\n  - " ++ e.message)

/-- The source of a class. -/
structure ClassSource where
  fullName : String
  source : String
deriving DecidableEq

namespace Variable

/-- One keyword of visibility, protected before public before internal, then the others. -/
def modifierText (s : SortedSet VariableModifier) : String :=
  let visible := [("protected", VariableModifier.isProtected), ("public", .isPublic),
    ("internal", .isInternal)]
  let others := [("static", VariableModifier.isStatic), ("readonly", .isReadOnly), ("new", .isNew),
    ("const", .isConst)]
  Spelling.keywords (((visible.find? (·.2 ∈ s)).toList ++ others.filter (·.2 ∈ s)).map (·.1))

def declaration (v : Variable) : String :=
  let head := s!"{modifierText v.modifiers}{v.type.text} {v.name}"
  match v.initial with
  | some value => s!"{head} = {value};"
  | none => s!"{head};"

end Variable

namespace Class

/-- The keywords in their order; a public class is not also called internal. -/
def modifierText (s : SortedSet ClassModifier) : String :=
  let words := ClassModifier.all.filter fun k =>
    k ∈ s ∧ ¬ (k = ClassModifier.isInternal ∧ ClassModifier.isPublic ∈ s)
  Spelling.keywords (words.map ClassModifier.keyword)

def header (c : Class) : String := s!"{modifierText c.modifiers}class {c.name} : {c.superType.text}"

def banner (c : Class) : List Line :=
  [⟨0, "// <auto-generated>"⟩,
    ⟨0, s!"//     Generated by PrintGraph from class {c.fullName}."⟩,
    ⟨0, "//     Changes to this file will be lost when it is regenerated."⟩,
    ⟨0, "// </auto-generated>"⟩,
    Line.blank]

/-- Attributes on a line each, then methods, with an empty line before each member but the first. -/
def memberLines (c : Class) (level : Nat) (methods : List String) : List Line :=
  let gap (i : Nat) : List Line := if i > 0 ∨ !c.attributes.isEmpty then [Line.blank] else []
  c.attributes.map (fun v => ⟨level, v.declaration⟩) ++
    (methods.mapIdx fun i text => gap i ++ Line.embed level text).flatten

/-- The class at a level. -/
def classLines (c : Class) (level : Nat) (methods : List String) : List Line :=
  ⟨level, c.header⟩ :: Line.block level (c.memberLines (level + 1) methods)

/-- The whole file, given the texts of the methods. -/
def lines (c : Class) (config : Config) (methods : List String) : List Line :=
  (if config.emitHeader then c.banner else []) ++
    if c.space.isEmpty then c.classLines 0 methods
    else ⟨0, s!"namespace {c.space}"⟩ :: Line.block 0 (c.classLines 1 methods)

/-- The source of one of the methods. -/
def methodText (c : Class) (catalog : TypeCatalog) (config : Config) (m : Method) :
    Except ClassError String :=
  (m.sourceText catalog config).mapError (.method c.fullName m.name)

def methodTexts (c : Class) (catalog : TypeCatalog) (config : Config) :
    List (Except ClassError String) :=
  c.methods.map (c.methodText catalog config)

/-- The texts among some results. -/
def texts (results : List (Except ClassError String)) : List String :=
  results.filterMap Except.toOption

/-- The errors among some results. -/
def faults (results : List (Except ClassError String)) : List ClassError :=
  results.filterMap fun
    | .ok _ => none
    | .error e => some e

/-- Names declared twice first, then the methods that fail. -/
def errors (c : Class) (catalog : TypeCatalog) (config : Config) : List ClassError :=
  c.duplicateNames.map (.duplicateName c.fullName) ++ faults (c.methodTexts catalog config)

def source (c : Class) (catalog : TypeCatalog) (config : Config) :
    Except ClassFailure ClassSource :=
  let errors := c.errors catalog config
  if errors.isEmpty then
    let methods := texts (c.methodTexts catalog config)
    .ok ⟨c.fullName, Line.renderAll config (c.lines config methods)⟩
  else .error ⟨c.fullName, errors⟩

end Class

end VisualScript
