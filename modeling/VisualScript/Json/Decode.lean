import VisualScript.Json.Read

/-!
# Decoding JSON documents

Decoders read a model value from a `Document` and refuse every fault that they meet. `Fields` says
what the members of an object stand for. Other members are passed over as long as they are well
formed, and a key that is asked for may stand only once. Of several faults the one that stands first
in the document counts. A member that may be absent is not thereby allowed to be `null`; `nullable`
members are.

An object whose kind is told by a tag among its members is held back until the tag is known. What is
held back has to be without faults, and it may write names in more ways: a tag also by its number,
and a name that stands as a key also with an empty object.
-/

namespace VisualScript

/-- Why a document does not decode. -/
inductive DecodeError where
  /-- It has not the form that its type has in JSON. -/
  | malformed
  /-- It has the form, but what it describes is refused. -/
  | refused (reason : String)
deriving DecidableEq

abbrev Decoded (α : Type) := Except DecodeError α

/-- How a document comes to its decoder: straight from its place, or after it was held back. -/
inductive Delivery where
  | direct
  | held
deriving DecidableEq

namespace Document

def asString : Document → Decoded String
  | .string s => .ok s
  | _ => .error .malformed

def asBool : Document → Decoded Bool
  | .bool b => .ok b
  | _ => .error .malformed

/-- A natural number below `2 ^ bits`. -/
def asNat (bits : Nat) : Document → Decoded Nat
  | .number (.integer i) => if 0 ≤ i ∧ i.toNat < Nat.pow 2 bits then .ok i.toNat else .error .malformed
  | _ => .error .malformed

def asBinary64 : Document → Decoded Binary64
  | .number (.integer i) =>
    match Binary64.ofInt? i with
    | some x => .ok x
    | none => .error .malformed
  | .number (.real x) => .ok x
  | _ => .error .malformed

def asList {α : Type} (item : Document → Decoded α) : Document → Decoded (List α)
  | .array items => items.mapM item
  | _ => .error .malformed

def asOption {α : Type} (value : Document → Decoded α) : Document → Decoded (Option α)
  | .null => .ok none
  | d => some <$> value d

/-! ### Names and tags -/

/-- Whether a document stands for nothing beside a name that is a key. -/
def isBlank (delivery : Delivery) : Document → Bool
  | .null => true
  | .object [] => delivery == .held
  | _ => false

/-- One of some names, alone or as the only key of an object that holds nothing else. -/
def asName {α : Type} (delivery : Delivery) (ofName? : String → Option α) : Document → Decoded α
  | .string s => named s
  | .object [(some s, d)] => if d.isBlank delivery then named s else .error .malformed
  | _ => .error .malformed
where
  named (s : String) : Decoded α :=
    match ofName? s with
    | some a => .ok a
    | none => .error .malformed

/-- One of the tags; one that is held back may be given by its number. -/
def asTag (delivery : Delivery) (tags : List String) : Document → Decoded String
  | .string s => if s ∈ tags then .ok s else .error .malformed
  | .number (.integer i) =>
    match tags[i.toNat]? with
    | some s => if delivery = .held ∧ 0 ≤ i then .ok s else .error .malformed
    | none => .error .malformed
  | _ => .error .malformed

end Document

/-- The members of an object that is read. -/
abbrev Members := List (Option String × Document)

namespace Members

/-- The values of a key and their places among the members. -/
def occurrences (ms : Members) (key : String) : List (Document × Nat) :=
  ms.zipIdx.filterMap fun ((k, d), i) => if k = some key then some (d, i) else none

/-- Whether all of them can be held back. -/
def fit (ms : Members) : Bool := ms.all fun (k, d) => k.isSome && d.fits

end Members

def Document.members : Document → Decoded Members
  | .object ms => .ok ms
  | _ => .error .malformed

/-- Divides a tagged object into its tag and its other members, which are held back. -/
def Document.tagged (delivery : Delivery) (key : String) (tags : List String) (d : Document) :
    Decoded (String × Members) := do
  let ms ← d.members
  let others := ms.filter (·.1 ≠ some key)
  match Members.occurrences ms key with
  | [(tag, _)] =>
    if Members.fit others then (·, others) <$> tag.asTag delivery tags else .error .malformed
  | _ => .error .malformed

/-! ### Fields of an object -/

/-- An error and the place of the member where it arises. -/
structure Fault where
  place : Nat
  error : DecodeError

/-- The one that stands first. -/
def Fault.first (a b : Fault) : Fault := if b.place < a.place then b else a

/-- How the members of an object are decoded together. -/
structure Fields (α : Type) where
  /-- The keys that are asked for. -/
  keys : List String
  read : Members → Except Fault α

namespace Fields

def const {α : Type} (a : α) : Fields α := ⟨[], fun _ => .ok a⟩

/-- Decodes with both, on the same members. -/
def both {α β γ : Type} (f : α → β → γ) (x : Fields α) (y : Fields β) : Fields γ where
  keys := x.keys ++ y.keys
  read ms :=
    match x.read ms, y.read ms with
    | .ok a, .ok b => .ok (f a b)
    | .ok _, .error e => .error e
    | .error e, .ok _ => .error e
    | .error e, .error e' => .error (e.first e')

instance : Applicative Fields where
  pure := const
  seq f x := both id f (x ())

/-- The value of a key; `absent` is taken if there is none. A fault of absence stands at the end. -/
def single {α : Type} (key : String) (absent : Option α) (value : Document → Decoded α) :
    Fields α where
  keys := [key]
  read ms :=
    match Members.occurrences ms key with
    | [] =>
      match absent with
      | some a => .ok a
      | none => .error ⟨ms.length, .malformed⟩
    | (d, i) :: more =>
      match value d, more with
      | .error e, _ => .error ⟨i, e⟩
      | .ok a, [] => .ok a
      | .ok _, (_, j) :: _ => .error ⟨j, .malformed⟩

def required {α : Type} (key : String) (value : Document → Decoded α) : Fields α :=
  single key none value

def optional {α : Type} (key : String) (default : α) (value : Document → Decoded α) : Fields α :=
  single key (some default) value

def nullable {α : Type} (key : String) (value : Document → Decoded α) : Fields (Option α) :=
  optional key none (Document.asOption value)

/-- Whether a member is asked for or can be passed over. -/
def passes (keys : List String) : Option String × Document → Bool
  | (none, _) => false
  | (some k, d) => decide (k ∈ keys) || d.wellFormed

/-- Passes over the members of other keys. -/
def others (keys : List String) : Fields Unit where
  keys := []
  read ms :=
    match ms.findIdx? (!passes keys ·) with
    | none => .ok ()
    | some i => .error ⟨i, .malformed⟩

def decodeMembers {α : Type} (x : Fields α) (ms : Members) : Decoded α :=
  ((both (fun a _ => a) x (others x.keys)).read ms).mapError Fault.error

def decode {α : Type} (x : Fields α) (d : Document) : Decoded α := d.members >>= x.decodeMembers

end Fields

/-- Reads a text and decodes what it holds. -/
def Document.decodeText {α : Type} (value : Document → Decoded α) (text : String) : Decoded α := do
  let r := Json.read text
  let a ← value r.document
  if r.ended then .ok a else .error .malformed

end VisualScript
