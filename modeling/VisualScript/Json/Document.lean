import VisualScript.Json.Value

/-!
# JSON documents

A `Document` is what reading a text makes of it, faults included. A part that is proper JSON but
stands for no value is `unfit`: it does no harm where nobody asks for the value. Where the text stops
being JSON it is `broken`, and nothing after that place has been read. Every value is a document
without faults.
-/

namespace VisualScript

inductive Document where
  | null
  | bool (value : Bool)
  | number (value : JsonNumber)
  | string (value : String)
  | array (items : List Document)
  /-- The members in order; a key that stands for no text is `none`. -/
  | object (members : List (Option String × Document))
  /-- A number past the largest, a string with half a surrogate pair, or too deep nesting. -/
  | unfit
  | broken

mutual

def Json.document : Json → Document
  | .null => .null
  | .bool b => .bool b
  | .number n => .number n
  | .string s => .string s
  | .array items => .array (Json.documentItems items)
  | .object members => .object (Json.documentMembers members)

def Json.documentItems : List Json → List Document
  | [] => []
  | v :: vs => v.document :: Json.documentItems vs

def Json.documentMembers : List (String × Json) → List (Option String × Document)
  | [] => []
  | (k, v) :: ms => (some k, v.document) :: Json.documentMembers ms

end

namespace Document

mutual

/-- The value that a document without faults is. -/
def toJson? : Document → Option Json
  | .null => some .null
  | .bool b => some (.bool b)
  | .number n => some (.number n)
  | .string s => some (.string s)
  | .array items => (toJsonItems? items).map .array
  | .object members => (toJsonMembers? members).map .object
  | .unfit => none
  | .broken => none

def toJsonItems? : List Document → Option (List Json)
  | [] => some []
  | d :: ds => do
    let v ← d.toJson?
    let vs ← toJsonItems? ds
    return v :: vs

def toJsonMembers? : List (Option String × Document) → Option (List (String × Json))
  | [] => some []
  | (k, d) :: ms => do
    let k ← k
    let v ← d.toJson?
    let ms ← toJsonMembers? ms
    return (k, v) :: ms

end

/-- Whether there are no faults. -/
def fits (d : Document) : Bool := d.toJson?.isSome

mutual

/-- Whether all of it is written as JSON is. -/
def wellFormed : Document → Bool
  | .array items => wellFormedItems items
  | .object members => wellFormedMembers members
  | .broken => false
  | _ => true

def wellFormedItems : List Document → Bool
  | [] => true
  | d :: ds => d.wellFormed && wellFormedItems ds

def wellFormedMembers : List (Option String × Document) → Bool
  | [] => true
  | (_, d) :: ms => d.wellFormed && wellFormedMembers ms

end

mutual

/-- How deep arrays and objects nest. -/
def depth : Document → Nat
  | .array items => depthOfItems items + 1
  | .object members => depthOfMembers members + 1
  | _ => 0

def depthOfItems : List Document → Nat
  | [] => 0
  | d :: ds => max d.depth (depthOfItems ds)

def depthOfMembers : List (Option String × Document) → Nat
  | [] => 0
  | (_, d) :: ms => max d.depth (depthOfMembers ms)

end

end Document

end VisualScript
