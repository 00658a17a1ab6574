import VisualScript.Json.Scan

/-!
# Reading JSON text

`Json.read` assembles tokens into one document with a stack of the arrays and objects that stand
open. Where the tokens do not go together, what stands open is closed with a broken part at its end.
Arrays and objects that nest too deep are unfit.
-/

namespace VisualScript.Json

/-- An array or object that stands open, its parts last first. -/
inductive Frame where
  | array (items : List Document)
  | object (members : List (Option String × Document))
  | member (members : List (Option String × Document)) (key : Option String)

/-- What may come next. -/
inductive Expect where
  | value
  | valueOrClose
  | keyOrClose
  | key
  | colon (key : Option String)
  | commaOrClose
  | done (value : Document)

structure Assembly where
  frames : List Frame
  expect : Expect

/-- What a text holds. -/
structure Reading where
  document : Document
  /-- Whether nothing but white space follows. -/
  ended : Bool

/-- How many arrays and objects may stand open at once around a value that fits. -/
def depthLimit : Nat := 127

/-- The frame closed after one more part. -/
def Frame.closeWith (last : Document) : Frame → Document
  | .array items => .array (last :: items).reverse
  | .object members => .object ((none, last) :: members).reverse
  | .member members key => .object ((key, last) :: members).reverse

/-- What has been read, with a broken part where the text cannot go on. -/
def Reading.broken (frames : List Frame) : Reading :=
  let kept := frames.drop (frames.length - depthLimit)
  ⟨kept.foldl Frame.closeWith .broken, false⟩

namespace Assembly

/-- The next state, or what has been read if there is none. -/
abbrev Next := Except Reading Assembly

def stop (frames : List Frame) : Next := .error (.broken frames)

/-- Hands a finished value to the innermost frame. -/
def accept (frames : List Frame) (d : Document) : Next :=
  match frames with
  | [] => .ok ⟨[], .done d⟩
  | .array items :: fs => .ok ⟨.array (d :: items) :: fs, .commaOrClose⟩
  | .member members key :: fs => .ok ⟨.object ((key, d) :: members) :: fs, .commaOrClose⟩
  | .object _ :: _ => stop frames

/-- A token where a value has to stand. -/
def startValue (frames : List Frame) : Token → Next
  | .leaf d => accept frames d
  | .text (some t) => accept frames (.string t)
  | .text none => accept frames .unfit
  | .openArray => .ok ⟨.array [] :: frames, .valueOrClose⟩
  | .openObject => .ok ⟨.object [] :: frames, .keyOrClose⟩
  | _ => stop frames

/-- A closing bracket for the innermost frame. -/
def close (frames : List Frame) (t : Token) : Next :=
  let fit (d : Document) : Document := if (frames.drop depthLimit).isEmpty then d else .unfit
  match frames, t with
  | .array items :: fs, .closeArray => accept fs (fit (.array items.reverse))
  | .object members :: fs, .closeObject => accept fs (fit (.object members.reverse))
  | _, _ => stop frames

/-- After a comma: an array wants a value, an object a key. -/
def afterComma (frames : List Frame) : Next :=
  match frames with
  | .array _ :: _ => .ok ⟨frames, .value⟩
  | .object _ :: _ => .ok ⟨frames, .key⟩
  | _ => stop frames

/-- After a colon: the innermost object wants the value of the key. -/
def afterColon (frames : List Frame) (key : Option String) : Next :=
  match frames with
  | .object members :: fs => .ok ⟨.member members key :: fs, .value⟩
  | _ => stop frames

def step (a : Assembly) (t : Token) : Next :=
  match a.expect, t with
  | .value, t => startValue a.frames t
  | .valueOrClose, .closeArray => close a.frames t
  | .valueOrClose, t => startValue a.frames t
  | .keyOrClose, .closeObject => close a.frames t
  | .keyOrClose, .text k => .ok ⟨a.frames, .colon k⟩
  | .key, .text k => .ok ⟨a.frames, .colon k⟩
  | .colon k, .colon => afterColon a.frames k
  | .commaOrClose, .comma => afterComma a.frames
  | .commaOrClose, t => close a.frames t
  | .done d, _ => .error ⟨d, false⟩
  | _, _ => stop a.frames

end Assembly

def read (text : String) : Reading :=
  match (scan text).foldlM Assembly.step ⟨[], .value⟩ with
  | .ok ⟨_, .done d⟩ => ⟨d, true⟩
  | .ok a => .broken a.frames
  | .error r => r

/-- The one value that a text holds. -/
def ofText? (text : String) : Option Json :=
  let r := read text
  if r.ended then r.document.toJson? else none

end VisualScript.Json
