import VisualScript.Number.Binary64

/-!
# JSON values

An object keeps its members in the order in which they stand, repeated keys included. An integer
that fits 64 bits stays an integer; every other number is binary64.
-/

namespace VisualScript

inductive JsonNumber where
  | integer (value : Int)
  | real (value : Binary64)
deriving DecidableEq

inductive Json where
  | null
  | bool (value : Bool)
  | number (value : JsonNumber)
  | string (value : String)
  | array (items : List Json)
  | object (members : List (String × Json))

namespace Json

def nat (n : Nat) : Json := .number (.integer n)

def strings (texts : List String) : Json := .array (texts.map .string)

/-- The value, or `null` in place of none. -/
def orNull {α : Type} (f : α → Json) : Option α → Json
  | none => .null
  | some a => f a

/-- Sets the member of a key, among members in the order of their keys. -/
def setMember (key : String) (value : Json) : List (String × Json) → List (String × Json)
  | [] => [(key, value)]
  | (k, v) :: ms =>
    if k = key then (key, value) :: ms
    else if key < k then (key, value) :: (k, v) :: ms
    else (k, v) :: setMember key value ms

mutual

/-- Keeps only the last member of each key and puts members in the order of their keys, at every
depth. -/
def byKey : Json → Json
  | .array items => .array (byKeyItems items)
  | .object members => .object (byKeyMembers [] members)
  | v => v

def byKeyItems : List Json → List Json
  | [] => []
  | v :: vs => v.byKey :: byKeyItems vs

/-- Adds members one by one to those already `kept`. -/
def byKeyMembers (kept : List (String × Json)) : List (String × Json) → List (String × Json)
  | [] => kept
  | (k, v) :: ms => byKeyMembers (setMember k v.byKey kept) ms

end

end Json

end VisualScript
