import VisualScript.Json.Document

/-!
# JSON tokens

`scan` cuts a text into tokens with a machine that takes one character at a time. Strings are
unescaped on the way; numbers and words are collected and judged when they end. Where a text cannot
go on, by a raw control character or an unknown escape say, the last token is `broken`.
-/

namespace VisualScript.Json

inductive Token where
  | openArray
  | closeArray
  | openObject
  | closeObject
  | comma
  | colon
  | leaf (value : Document)
  /-- A string; one with half a surrogate pair is `none`. -/
  | text (value : Option String)
  | broken

/-! ### Numbers -/

/-- The greatest significand that is kept; digits that would pass it only shift the exponent. -/
def significandLimit : Nat := Nat.pow 2 64 - 1

/-- The value of a decimal digit. -/
def digitValue (c : Char) : Nat := c.toNat - '0'.toNat

/-- Appends digits to a significand while it stays within the limit; also the digits left over. -/
def absorb (significand : Nat) : List Char → Nat × List Char
  | [] => (significand, [])
  | d :: ds =>
    let next := significand * 10 + digitValue d
    if next ≤ significandLimit then absorb next ds else (significand, d :: ds)

/-- The parts of a number's text. -/
structure NumberText where
  negative : Bool
  whole : List Char
  fraction : Option (List Char)
  exponent : Option Int

/-- Some digits, and no other character. -/
def allDigits (cs : List Char) : Bool := !cs.isEmpty && cs.all Char.isDigit

/-- The exponent after its mark: digits, with a sign or without. -/
def readExponent? (cs : List Char) : Option Int :=
  let natural (ds : List Char) : Int := ds.foldl (fun n d => n * 10 + digitValue d) 0
  match cs with
  | '-' :: ds => if allDigits ds then some (-natural ds) else none
  | '+' :: ds => if allDigits ds then some (natural ds) else none
  | ds => if allDigits ds then some (natural ds) else none

/-- Divides a number's text into its parts; no zero leads another digit. -/
def NumberText.ofChars? (cs : List Char) : Option NumberText := do
  let (negative, cs) := match cs with
    | '-' :: r => (true, r)
    | r => (false, r)
  let whole := cs.takeWhile Char.isDigit
  let cs := cs.dropWhile Char.isDigit
  if !allDigits whole || (whole.length > 1 && whole.head? == some '0') then none
  let (fraction, cs) ← match cs with
    | '.' :: r =>
      let ds := r.takeWhile Char.isDigit
      if ds.isEmpty then none else some (some ds, r.dropWhile Char.isDigit)
    | r => some (none, r)
  let exponent ← match cs with
    | [] => some none
    | c :: r => if c == 'e' || c == 'E' then (readExponent? r).map some else none
  return ⟨negative, whole, fraction, exponent⟩

/-- An integer of 64 bits stays one; minus zero and all others are binary64. -/
def NumberText.value? (t : NumberText) : Option JsonNumber :=
  let (whole, left) := absorb 0 t.whole
  let signed (x : Binary64) : JsonNumber := .real (if t.negative then x.negate else x)
  match t.fraction, t.exponent with
  | none, none =>
    if !left.isEmpty then (Binary64.ofScaled? whole left.length).map signed
    else if !t.negative then some (.integer whole)
    else if whole ≠ 0 ∧ whole ≤ Nat.pow 2 63 then some (.integer (-whole))
    else (Binary64.ofNat? whole).map signed
  | fraction, exponent =>
    let fraction := fraction.getD []
    let (significand, cut) := absorb whole fraction
    let shift : Int := (left.length : Int) - ((fraction.length - cut.length : Nat) : Int)
    (Binary64.ofScaled? significand (shift + exponent.getD 0)).map signed

/-- A number that is past the largest is unfit. -/
def NumberText.document (t : NumberText) : Document :=
  match t.value? with
  | some n => .number n
  | none => .unfit

/-! ### Strings -/

/-- What one character after a backslash stands for. -/
def unescape? : Char → Option Char
  | '"' => some '"'
  | '\\' => some '\\'
  | '/' => some '/'
  | 'b' => some '\x08'
  | 'f' => some '\x0c'
  | 'n' => some '\n'
  | 'r' => some '\r'
  | 't' => some '\t'
  | _ => none

def hexValue? (c : Char) : Option Nat :=
  if c.isDigit then some (c.toNat - '0'.toNat)
  else if 'a' ≤ c ∧ c ≤ 'f' then some (c.toNat - 'a'.toNat + 10)
  else if 'A' ≤ c ∧ c ≤ 'F' then some (c.toNat - 'A'.toNat + 10)
  else none

def isHighSurrogate (n : Nat) : Bool := 0xD800 ≤ n && n < 0xDC00

def isLowSurrogate (n : Nat) : Bool := 0xDC00 ≤ n && n < 0xE000

/-- The character that a pair of surrogates stands for. -/
def joinSurrogates (high low : Nat) : Char :=
  Char.ofNat (0x10000 + (high - 0xD800) * 0x400 + (low - 0xDC00))

/-- A string under way. -/
structure TextDraft where
  /-- The characters so far, last first. -/
  taken : List Char := []
  /-- The first half of a surrogate pair that waits for the second. -/
  high : Option Nat := none
  /-- Whether every half so far has found its other half. -/
  paired : Bool := true

namespace TextDraft

def push (t : TextDraft) (c : Char) : TextDraft :=
  { taken := c :: t.taken, high := none, paired := t.paired && t.high.isNone }

/-- Adds a number of 16 bits that stands for a character, or for half of one. -/
def pushUnit (t : TextDraft) (n : Nat) : TextDraft :=
  match t.high with
  | some h =>
    if isLowSurrogate n then { t with taken := joinSurrogates h n :: t.taken, high := none }
    else { t with high := none, paired := false }
  | none =>
    if isHighSurrogate n then { t with high := some n }
    else if isLowSurrogate n then { t with paired := false }
    else t.push (Char.ofNat n)

def finish? (t : TextDraft) : Option String :=
  if t.paired && t.high.isNone then some (String.ofList t.taken.reverse) else none

end TextDraft

/-! ### The machine -/

/-- Where the machine stands. Characters taken so far are kept last first. -/
inductive Mode where
  | gap
  | number (taken : List Char)
  | word (taken : List Char)
  | text (draft : TextDraft)
  | escape (draft : TextDraft)
  /-- Within four hexadecimal digits. -/
  | hex (draft : TextDraft) (count value : Nat)
  | stuck

/-- The machine's mode and the tokens so far, last first. -/
structure Scanner where
  mode : Mode
  tokens : List Token

/-- White space between tokens. -/
def isGap (c : Char) : Bool := c == ' ' || c == '\n' || c == '\t' || c == '\r'

def isNumberPart (c : Char) : Bool :=
  c.isDigit || c == '+' || c == '-' || c == '.' || c == 'e' || c == 'E'

/-- One of the words `null`, `true` and `false`. -/
def readWord? (cs : List Char) : Option Document :=
  if cs = ['n', 'u', 'l', 'l'] then some .null
  else if cs = ['t', 'r', 'u', 'e'] then some (.bool true)
  else if cs = ['f', 'a', 'l', 's', 'e'] then some (.bool false)
  else none

namespace Scanner

def fail (tokens : List Token) : Scanner := ⟨.stuck, .broken :: tokens⟩

/-- A character that begins a token, or none. -/
def start (tokens : List Token) (c : Char) : Scanner :=
  if isGap c then ⟨.gap, tokens⟩
  else if c == '[' then ⟨.gap, .openArray :: tokens⟩
  else if c == ']' then ⟨.gap, .closeArray :: tokens⟩
  else if c == '\x7b' then ⟨.gap, .openObject :: tokens⟩
  else if c == '\x7d' then ⟨.gap, .closeObject :: tokens⟩
  else if c == ',' then ⟨.gap, .comma :: tokens⟩
  else if c == ':' then ⟨.gap, .colon :: tokens⟩
  else if c == '"' then ⟨.text {}, tokens⟩
  else if c.isDigit || c == '-' then ⟨.number [c], tokens⟩
  else if c.isAlpha then ⟨.word [c], tokens⟩
  else fail tokens

/-- Ends a number or a word that stands open. -/
def settle (s : Scanner) : Scanner :=
  match s.mode with
  | .gap => s
  | .stuck => s
  | .number taken =>
    match NumberText.ofChars? taken.reverse with
    | some t => ⟨.gap, .leaf t.document :: s.tokens⟩
    | none => fail s.tokens
  | .word taken =>
    match readWord? taken.reverse with
    | some d => ⟨.gap, .leaf d :: s.tokens⟩
    | none => fail s.tokens
  | _ => fail s.tokens

/-- Ends a number or a word at a character that is no part of it. -/
def turn (s : Scanner) (c : Char) : Scanner :=
  match s.settle with
  | ⟨.gap, tokens⟩ => start tokens c
  | s => s

def step (s : Scanner) (c : Char) : Scanner :=
  match s.mode with
  | .gap => start s.tokens c
  | .number taken => if isNumberPart c then ⟨.number (c :: taken), s.tokens⟩ else s.turn c
  | .word taken => if c.isAlpha then ⟨.word (c :: taken), s.tokens⟩ else s.turn c
  | .text draft =>
    if c == '"' then ⟨.gap, .text draft.finish? :: s.tokens⟩
    else if c == '\\' then ⟨.escape draft, s.tokens⟩
    else if c.toNat < 0x20 then fail s.tokens
    else ⟨.text (draft.push c), s.tokens⟩
  | .escape draft =>
    if c == 'u' then ⟨.hex draft 0 0, s.tokens⟩
    else
      match unescape? c with
      | some c => ⟨.text (draft.push c), s.tokens⟩
      | none => fail s.tokens
  | .hex draft count value =>
    match hexValue? c with
    | some d =>
      let value := value * 16 + d
      if count < 3 then ⟨.hex draft (count + 1) value, s.tokens⟩
      else ⟨.text (draft.pushUnit value), s.tokens⟩
    | none => fail s.tokens
  | .stuck => s

end Scanner

/-- The tokens of a text, as far as it is made of tokens and white space. -/
def scan (text : String) : List Token :=
  (text.toList.foldl Scanner.step ⟨.gap, []⟩).settle.tokens.reverse

end VisualScript.Json
