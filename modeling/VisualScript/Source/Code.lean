import VisualScript.Graph.Method
import VisualScript.Source.Line

/-!
# Statements

`Code` is the body of a method: steps in a row, loops, and at the end of each block perhaps a return,
a continue or a branch, after which nothing can follow. Every statement knows the node that it stands
for. `Code.lines` writes it, one line per statement and one per brace.
-/

namespace VisualScript

/-! ### Spelling -/

namespace Spelling

def commas (parts : List String) : String := ", ".intercalate parts

/-- A character within a quoted literal. -/
def escapeChar (c : Char) : List Char :=
  if c = '\\' then ['\\', '\\']
  else if c = '"' then ['\\', '"']
  else if c = '\'' then ['\\', '\'']
  else if c = '\n' then ['\\', 'n']
  else if c = '\r' then ['\\', 'r']
  else if c = '\t' then ['\\', 't']
  else [c]

/-- Whether a value already stands between quotation marks. -/
def isQuoted (mark : Char) (cs : List Char) : Bool :=
  2 ≤ cs.length && cs.head? == some mark && cs.getLast? == some mark

/-- A value between quotation marks, its characters escaped. -/
def quoted (mark : Char) (value : String) : String :=
  String.ofList (mark :: value.toList.flatMap escapeChar ++ [mark])

/-- A literal as source has it. Text is quoted unless it is so already, truth values are written
small, and a bare member of an enum gets the name of the enum. -/
def literal (value : String) (t : TypeSpec) : String :=
  if (t.name = "System.String" ∨ t.name = "string") ∧ !isQuoted '"' value.toList then
    quoted '"' value
  else if (t.name = "System.Char" ∨ t.name = "char") ∧ !isQuoted '\'' value.toList then
    quoted '\'' value
  else if t.name = "System.Boolean" ∨ t.name = "bool" then
    String.ofList (value.toList.map Char.toLower)
  else if t.isEnum ∧ !value.toList.contains '.' then t.text ++ "." ++ value
  else value

/-- A name with every character replaced that an identifier cannot have. -/
def identifier (name : String) : String :=
  String.ofList (name.toList.map fun c => if c.isAlphanum || c == '_' then c else '_')

/-- Keywords, each with a blank after it. -/
def keywords (words : List String) : String := String.join (words.map (· ++ " "))

end Spelling

/-! ### Signatures -/

namespace Method

/-- One keyword of visibility, the first that applies, then the others. -/
def modifierText (s : SortedSet MethodModifier) : String :=
  let visible := [("public", MethodModifier.isPublic), ("protected", .isProtected),
    ("internal", .isInternal), ("private", .isPrivate)]
  let others := [("static", MethodModifier.isStatic), ("abstract", .isAbstract),
    ("virtual", .isVirtual), ("override", .isOverride), ("sealed", .isSealed)]
  Spelling.keywords
    (((visible.find? (·.2 ∈ s)).toList ++ others.filter (·.2 ∈ s)).map (·.1))

/-- Nothing, one type, or a tuple. -/
def resultText : List TypeSpec → String
  | [] => "void"
  | [t] => t.text
  | ts => "(" ++ Spelling.commas (ts.map TypeSpec.text) ++ ")"

def signature (m : Method) : String :=
  let parameters := m.argumentTypes.mapIdx fun i t => s!"{t.text} {argumentName i}"
  s!"{modifierText m.modifiers}{resultText m.returnTypes} {m.name}({Spelling.commas parameters})"

end Method

/-! ### The statements -/

/-- A statement on one line. -/
inductive Step where
  /-- Reads a variable into a temporary. -/
  | read (node : NodeId) (type : TypeSpec) (name variableName : String)
  | callMethod (node : NodeId) (results : List (TypeSpec × String)) (target name : String)
      (arguments : List String)
  | callStatic (node : NodeId) (results : List (TypeSpec × String)) (type : TypeSpec) (name : String)
      (arguments : List String)
  | assign (node : NodeId) (variableName value : String)
deriving DecidableEq

namespace Step

def node : Step → NodeId
  | .read n .. | .callMethod n .. | .callStatic n .. | .assign n .. => n

/-- A result as it is declared. -/
def resultName (r : TypeSpec × String) : String := s!"{r.1.text} {r.2}"

/-- An expression, its results bound to names. -/
def bindText (results : List (TypeSpec × String)) (expression : String) : String :=
  match results with
  | [] => s!"{expression};"
  | [(t, name)] => s!"{t.text} {name} = {expression};"
  | rs => s!"({Spelling.commas (rs.map resultName)}) = {expression};"

def text : Step → String
  | .read _ t name variableName => s!"{t.text} {name} = {variableName};"
  | .callMethod _ results target name arguments =>
    bindText results s!"{target}.{name}({Spelling.commas arguments})"
  | .callStatic _ results t name arguments =>
    bindText results s!"{t.text}.{name}({Spelling.commas arguments})"
  | .assign _ variableName value => s!"{variableName} = {value};"

end Step

/-- The statements of a block, from one on to its end. -/
inductive Code where
  | done
  | ret (node : NodeId) (values : List String)
  /-- Goes on with the next round of the loop. -/
  | again (loop : NodeId)
  | branch (node : NodeId) (condition : String) (whenTrue : Code)
  | branchElse (node : NodeId) (condition : String) (whenTrue whenFalse : Code)
  | step (s : Step) (next : Code)
  | loop (node : NodeId) (index initial limit : String) (body next : Code)
deriving DecidableEq

namespace Code

/-- Steps before a block's statements. -/
def steps (ss : List Step) (next : Code) : Code := ss.foldr .step next

def returnText : List String → String
  | [] => "return;"
  | [v] => s!"return {v};"
  | vs => s!"return ({Spelling.commas vs});"

def ifText (condition : String) : String := s!"if ({condition})"

def forText (index initial limit : String) : String :=
  s!"for (int {index} = {initial}; {index} < {limit}; {index}++)"

def lines (level : Nat) : Code → List Line
  | .done => []
  | .ret _ values => [⟨level, returnText values⟩]
  | .again _ => [⟨level, "continue;"⟩]
  | .branch _ c t => ⟨level, ifText c⟩ :: Line.block level (t.lines (level + 1))
  | .branchElse _ c t e =>
    ⟨level, ifText c⟩ :: Line.block level (t.lines (level + 1)) ++
      ⟨level, "else"⟩ :: Line.block level (e.lines (level + 1))
  | .step s next => ⟨level, s.text⟩ :: next.lines level
  | .loop _ index initial limit body next =>
    ⟨level, forText index initial limit⟩ :: Line.block level (body.lines (level + 1)) ++
      next.lines level

end Code

/-- A method as it is written: its signature, and its body unless it is abstract. -/
structure MethodSource where
  signature : String
  body : Option Code
deriving DecidableEq

namespace MethodSource

def lines (s : MethodSource) : List Line :=
  match s.body with
  | none => [⟨0, s.signature ++ ";"⟩]
  | some code => ⟨0, s.signature⟩ :: Line.block 0 (code.lines 1)

def text (c : Config) (s : MethodSource) : String := Line.renderAll c s.lines

end MethodSource

end VisualScript
