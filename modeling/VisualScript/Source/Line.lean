import VisualScript.Source.Config

/-!
# Lines

Source is written line by line, each at a level of nesting. `embed` takes a finished text into a
deeper level: its lines are indented anew, and lines of white space become empty.
-/

namespace VisualScript

structure Line where
  level : Nat
  text : String
deriving DecidableEq

namespace Line

/-- A line without indentation or text. -/
def blank : Line := ⟨0, ""⟩

/-- Lines between a pair of braces. -/
def block (level : Nat) (inner : List Line) : List Line :=
  ⟨level, "\x7b"⟩ :: inner ++ [⟨level, "\x7d"⟩]

def render (c : Config) (l : Line) : String :=
  String.ofList (List.replicate (l.level * c.indentWidth) ' ') ++ l.text ++ "\n"

/-- The text of some lines. -/
def renderAll (c : Config) (ls : List Line) : String := String.join (ls.map (render c))

/-- The ranges of characters that count as white space. -/
def spaceRanges : List (Nat × Nat) :=
  [(0x09, 0x0D), (0x20, 0x20), (0x85, 0x85), (0xA0, 0xA0), (0x1680, 0x1680), (0x2000, 0x200A),
    (0x2028, 0x2029), (0x202F, 0x202F), (0x205F, 0x205F), (0x3000, 0x3000)]

def isSpace (c : Char) : Bool := spaceRanges.any fun r => r.1 ≤ c.toNat && c.toNat ≤ r.2

/-- Cuts a text at its line feeds; the part after the last one is kept apart. -/
def splitLines : List Char → List (List Char) × List Char
  | [] => ([], [])
  | c :: cs =>
    let (lines, last) := splitLines cs
    if c = '\n' then ([] :: lines, last)
    else
      match lines with
      | [] => ([], c :: last)
      | l :: ls => ((c :: l) :: ls, last)

/-- Drops a carriage return at the end. -/
def dropReturn (cs : List Char) : List Char :=
  if cs.getLast? = some '\r' then cs.dropLast else cs

/-- The lines of a text, without the marks that end them. -/
def ofText (text : String) : List (List Char) :=
  let (lines, last) := splitLines text.toList
  lines.map dropReturn ++ if last.isEmpty then [] else [last]

/-- A finished text, put at a level. -/
def embed (level : Nat) (text : String) : List Line :=
  (ofText text).map fun cs => if cs.all isSpace then blank else ⟨level, String.ofList cs⟩

end Line

end VisualScript
