import Mathlib.Algebra.Ring.Parity
import Mathlib.Data.List.Induction
import VisualScript.Proofs.Graph.Consistency
import VisualScript.Source.Body

/-!
# Text literals

A literal in source ends at the first mark that no backslash takes away. `untilMark` looks for it as a reader of
source does, with one bit of memory: whether the last character makes it skip the next one. The mark that it finds
is the first one after an even number of backslashes (`untilMark_eq_some_iff`).

* Text without marks around it is escaped. Such a literal ends where it should, no line ends in it, and the text
  can be had back from it (`literal_lossless`).
* Text with a mark at either end is written as it is. Whether that is one literal hangs on what is between the
  marks, which is not looked at (`literal_passed`).
-/

namespace VisualScript

namespace Spelling

/-! ### Reading a literal -/

/-- Whether the character after `c` is skipped, given whether `c` is. -/
def skipsAfter (skips : Bool) (c : Char) : Bool := !skips && c == '\\'

/-- Reads on to the mark that ends a literal, whose first mark was read before: what stands between the two, and
what follows. `skips` says that the next character is skipped. -/
def untilMark (mark : Char) : Bool → List Char → Option (List Char × List Char)
  | _, [] => none
  | skips, c :: cs =>
    if skips = false ∧ c = mark then some ([], cs)
    else (untilMark mark (skipsAfter skips c) cs).map fun (body, rest) => (c :: body, rest)

/-- The number of backslashes at the end of `cs`. -/
def endingBackslashes (cs : List Char) : Nat := (cs.reverse.takeWhile (· == '\\')).length

/-- What can stand between two marks as one literal: a `mark` in it follows an odd number of backslashes, and an
even number of them, or none, stand at its end. -/
structure Sealed (mark : Char) (body : List Char) : Prop where
  marks : ∀ before after, body = before ++ mark :: after → Odd (endingBackslashes before)
  last : Even (endingBackslashes body)

/-- Of backslashes in a row every other one is skipped, so after `cs` it is their parity that counts. -/
theorem foldl_skipsAfter (cs : List Char) : cs.foldl skipsAfter false = true ↔ Odd (endingBackslashes cs) := by
  -- from the end, since only the last backslashes in a row count
  induction cs using List.reverseRecOn with
  | nil => simp [endingBackslashes]
  | append_singleton cs c ih =>
    rw [List.foldl_append, List.foldl_cons, List.foldl_nil]
    by_cases hc : c = '\\'
    · have hcount : endingBackslashes (cs ++ [c]) = endingBackslashes cs + 1 := by
        simp [endingBackslashes, hc]
      rw [hcount, Nat.odd_add_one, ← ih]
      simp [skipsAfter, hc]
    · have hcount : endingBackslashes (cs ++ [c]) = 0 := by
        simp [endingBackslashes, hc]
      rw [hcount]
      simp [skipsAfter, hc]

section Scan

variable {mark c : Char} {skips : Bool} {cs body rest : List Char}

/-- A scan skips every `mark` of the `body`, and would not skip one after it. -/
def Passes (mark : Char) (skips : Bool) (body : List Char) : Prop :=
  (∀ before after, body = before ++ mark :: after → before.foldl skipsAfter skips = true) ∧
    body.foldl skipsAfter skips = false

theorem passes_nil : Passes mark skips [] ↔ skips = false := by
  simp [Passes]

theorem passes_cons :
    Passes mark skips (c :: body) ↔ ¬ (skips = false ∧ c = mark) ∧ Passes mark (skipsAfter skips c) body := by
  constructor
  · rintro ⟨hmarks, hlast⟩
    refine ⟨?_, fun before after hbody => ?_, hlast⟩
    · rintro ⟨rfl, rfl⟩
      have hskips := hmarks [] body rfl
      cases hskips
    · exact hmarks (c :: before) after (by rw [hbody]; rfl)
  · rintro ⟨hends, hmarks, hlast⟩
    refine ⟨fun before after hbody => ?_, hlast⟩
    cases before with
    | nil =>
      cases hbody
      simpa using hends
    | cons d before =>
      cases hbody
      exact hmarks before after rfl

/-- A body `Passes` a scan from its start on just if it is `Sealed`. -/
theorem passes_iff_sealed : Passes mark false body ↔ Sealed mark body := by
  have hlast : body.foldl skipsAfter false = false ↔ Even (endingBackslashes body) := by
    rw [← Bool.not_eq_true, foldl_skipsAfter, Nat.not_odd_iff_even]
  unfold Passes
  simp only [foldl_skipsAfter, hlast]
  exact ⟨fun h => ⟨h.1, h.2⟩, fun h => ⟨h.marks, h.last⟩⟩

/-- `untilMark` stops at the first mark that it does not skip. -/
theorem untilMark_split :
    untilMark mark skips cs = some (body, rest) ↔ cs = body ++ mark :: rest ∧ Passes mark skips body := by
  induction cs generalizing skips body with
  | nil => simp [untilMark]
  | cons c cs ih =>
    unfold untilMark
    -- the body is empty just if the scan ends here
    cases body with
    | nil =>
      rw [passes_nil]
      by_cases hends : skips = false ∧ c = mark
      · simp [hends]
      · rw [if_neg hends]
        simp only [Option.map_eq_some_iff, Prod.mk.injEq, reduceCtorEq, false_and, and_false, exists_false,
          false_iff, List.nil_append, List.cons.injEq]
        rintro ⟨⟨hc, -⟩, hskips⟩
        exact hends ⟨hskips, hc⟩
    | cons d body =>
      rw [passes_cons]
      by_cases hends : skips = false ∧ c = mark
      · rw [if_pos hends]
        simp only [Option.some.injEq, Prod.mk.injEq, reduceCtorEq, false_and, false_iff, List.cons_append,
          List.cons.injEq]
        rintro ⟨⟨rfl, -⟩, hnot, -⟩
        exact hnot hends
      · rw [if_neg hends]
        simp only [Option.map_eq_some_iff, Prod.exists, Prod.mk.injEq, List.cons.injEq, List.cons_append]
        constructor
        · rintro ⟨_, _, hread, ⟨rfl, rfl⟩, rfl⟩
          obtain ⟨hcs, hbody⟩ := ih.1 hread
          exact ⟨⟨rfl, hcs⟩, hends, hbody⟩
        · rintro ⟨⟨rfl, hcs⟩, -, hbody⟩
          exact ⟨body, rest, ih.2 ⟨hcs, hbody⟩, ⟨rfl, rfl⟩, rfl⟩

/-- The mark that ends a literal is the one that has a `Sealed` body before it. -/
theorem untilMark_eq_some_iff :
    untilMark mark false cs = some (body, rest) ↔ cs = body ++ mark :: rest ∧ Sealed mark body := by
  rw [untilMark_split, passes_iff_sealed]

/-- Where `untilMark` finds no end, each mark is skipped. -/
theorem untilMark_eq_none (h : untilMark mark skips cs = none) {before after : List Char}
    (hcs : cs = before ++ mark :: after) : before.foldl skipsAfter skips = true := by
  induction cs generalizing skips before with
  | nil => simp at hcs
  | cons c cs ih =>
    unfold untilMark at h
    by_cases hends : skips = false ∧ c = mark
    · rw [if_pos hends] at h
      cases h
    · rw [if_neg hends, Option.map_eq_none_iff] at h
      cases before with
      | nil =>
        cases hcs
        simpa using hends
      | cons d before =>
        cases hcs
        exact ih h rfl

end Scan

instance (mark : Char) (body : List Char) : Decidable (Sealed mark body) :=
  decidable_of_iff (untilMark mark false (body ++ [mark]) = some (body, []))
    (untilMark_eq_some_iff.trans (and_iff_right rfl))

/-! ### Escapes -/

/-- The character that an escape stands for, by what follows its backslash. -/
def unescapeChar : Char → Option Char
  | '\\' => some '\\'
  | '"' => some '"'
  | '\'' => some '\''
  | 'n' => some '\n'
  | 'r' => some '\r'
  | 't' => some '\t'
  | _ => none

/-- The text that the body of a literal stands for, if each backslash in it is the start of an escape. -/
def unescape : Bool → List Char → Option (List Char)
  | false, [] => some []
  | true, [] => none
  | false, c :: cs => if c = '\\' then unescape true cs else (unescape false cs).map (c :: ·)
  | true, c :: cs => do return (← unescapeChar c) :: (← unescape false cs)

/-- `c` is the end of a line, or a tab. -/
def IsBreak (c : Char) : Prop := c = '\n' ∨ c = '\r' ∨ c = '\t'

/-- By `escapeChar` a character stands for itself, or it becomes a backslash and another one. -/
theorem escapeChar_cases (c : Char) :
    (escapeChar c = [c] ∧ c ≠ '\\' ∧ c ≠ '"' ∧ ¬ IsBreak c) ∨
      ∃ d, escapeChar c = ['\\', d] ∧ unescapeChar d = some c ∧ ¬ IsBreak d := by
  unfold escapeChar IsBreak
  split_ifs with hbackslash hquote happostrophe hfeed hreturn htab
  · exact Or.inr ⟨'\\', rfl, by rw [hbackslash]; rfl, by decide⟩
  · exact Or.inr ⟨'"', rfl, by rw [hquote]; rfl, by decide⟩
  · exact Or.inr ⟨'\'', rfl, by rw [happostrophe]; rfl, by decide⟩
  · exact Or.inr ⟨'n', rfl, by rw [hfeed]; rfl, by decide⟩
  · exact Or.inr ⟨'r', rfl, by rw [hreturn]; rfl, by decide⟩
  · exact Or.inr ⟨'t', rfl, by rw [htab]; rfl, by decide⟩
  · exact Or.inl ⟨rfl, hbackslash, hquote, by simp [hfeed, hreturn, htab]⟩

theorem untilMark_escaped (cs rest : List Char) :
    untilMark '"' false (cs.flatMap escapeChar ++ '"' :: rest) = some (cs.flatMap escapeChar, rest) := by
  induction cs with
  | nil => rfl
  | cons c cs ih =>
    rw [List.flatMap_cons, List.append_assoc]
    rcases escapeChar_cases c with ⟨hc, hbackslash, hquote, -⟩ | ⟨d, hc, -, -⟩
    · have hnext : skipsAfter false c = false := by simp [skipsAfter, hbackslash]
      rw [hc]
      simp [untilMark, hquote, hnext, ih]
    · rw [hc]
      simp [untilMark, skipsAfter, ih]

theorem unescape_escaped (cs : List Char) : unescape false (cs.flatMap escapeChar) = some cs := by
  induction cs with
  | nil => rfl
  | cons c cs ih =>
    rw [List.flatMap_cons]
    rcases escapeChar_cases c with ⟨hc, hbackslash, -⟩ | ⟨d, hc, hd, -⟩
    · rw [hc]
      simp [unescape, hbackslash, ih]
    · rw [hc]
      simp [unescape, hd, ih]

theorem not_isBreak_of_mem_escaped {cs : List Char} {c : Char} (h : c ∈ cs.flatMap escapeChar) : ¬ IsBreak c := by
  obtain ⟨a, -, ha⟩ := List.mem_flatMap.1 h
  rcases escapeChar_cases a with ⟨hc, -, -, hbreak⟩ | ⟨d, hc, -, hbreak⟩
  · rw [hc, List.mem_singleton] at ha
    rwa [ha]
  · rw [hc] at ha
    rcases List.mem_cons.1 ha with rfl | ha
    · unfold IsBreak
      decide
    · rwa [List.mem_singleton.1 ha]

end Spelling

/-! ### Literals of text -/

/-- The type of text, in its qualified or its keyword spelling (`string`). -/
def TypeSpec.IsText (t : TypeSpec) : Prop := t.name = "System.String" ∨ t.name = "string"

namespace Spelling

variable {value : String} {t : TypeSpec}

theorem literal_of_not_isQuoted (ht : t.IsText) (hv : isQuoted '"' value.toList = false) :
    literal value t = quoted '"' value := by
  unfold literal
  rw [if_pos ⟨ht, by rw [hv]; rfl⟩]

theorem literal_of_isQuoted (ht : t.IsText) (henum : t.isEnum = false) (hv : isQuoted '"' value.toList = true) :
    literal value t = value := by
  have hnames : ∀ name : String, name = "System.String" ∨ name = "string" →
      ¬ (name = "System.Char" ∨ name = "char") ∧ ¬ (name = "System.Boolean" ∨ name = "bool") := by
    rintro _ (rfl | rfl) <;> decide
  obtain ⟨hchar, hbool⟩ := hnames t.name ht
  simp [literal, hv, hchar, hbool, henum]

theorem toList_quoted (mark : Char) (value : String) :
    (quoted mark value).toList = mark :: value.toList.flatMap escapeChar ++ [mark] := by
  simp [quoted]

/-- The two marks that `isQuoted` finds are not one and the same. -/
theorem exists_of_isQuoted {mark : Char} {cs : List Char} (h : isQuoted mark cs = true) :
    ∃ inner, cs = mark :: inner ++ [mark] := by
  simp only [isQuoted, Bool.and_eq_true, decide_eq_true_eq, beq_iff_eq] at h
  obtain ⟨⟨hlength, hhead⟩, hlast⟩ := h
  cases cs with
  | nil => cases hhead
  | cons c cs =>
    cases hhead
    have hne : cs ≠ [] := by
      rintro rfl
      simp at hlength
    rw [List.getLast?_cons_of_ne_nil hne] at hlast
    obtain ⟨inner, rfl⟩ := List.getLast?_eq_some_iff.1 hlast
    exact ⟨inner, rfl⟩

/-- Text that is not quoted yet becomes a mark, a body and a mark. A reader of the source (`untilMark`) takes the
last mark for the end of the literal, whatever follows. The body is on one line and has no tab, and `unescape`
gives the text back; so no other such text has the same literal. -/
theorem literal_lossless (ht : t.IsText) (hv : isQuoted '"' value.toList = false) :
    (∃ body, (literal value t).toList = '"' :: body ++ ['"'] ∧
      (∀ rest, untilMark '"' false (body ++ '"' :: rest) = some (body, rest)) ∧
      (∀ c ∈ body, c ≠ '\n' ∧ c ≠ '\r' ∧ c ≠ '\t') ∧
      unescape false body = some value.toList) ∧
    ∀ (value' : String) (t' : TypeSpec), t'.IsText → isQuoted '"' value'.toList = false →
      literal value' t' = literal value t → value' = value := by
  have hliteral := literal_of_not_isQuoted ht hv
  refine ⟨⟨value.toList.flatMap escapeChar, ?_, untilMark_escaped _, ?_, unescape_escaped _⟩, ?_⟩
  · rw [hliteral, toList_quoted]
  · intro c hc
    have hbreak := not_isBreak_of_mem_escaped hc
    unfold IsBreak at hbreak
    tauto
  · -- the bodies are the same, and each gives its text back
    intro value' t' ht' hv' hsame
    rw [hliteral, literal_of_not_isQuoted ht' hv'] at hsame
    have hlists := congrArg String.toList hsame
    rw [toList_quoted, toList_quoted] at hlists
    have hbodies := List.append_cancel_right (List.cons.inj hlists).2
    have htexts := congrArg (unescape false) hbodies
    rw [unescape_escaped, unescape_escaped] at htexts
    exact String.toList_injective (Option.some.inj htexts)

theorem literal_lossless_path :
    isQuoted '"' "\"C:\\new\t'x\ny\\".toList = false ∧
      literal "\"C:\\new\t'x\ny\\" .string = "\"\\\"C:\\\\new\\t\\'x\\ny\\\\\"" ∧
      ∀ value', isQuoted '"' value'.toList = false →
        literal value' .string = "\"\\\"C:\\\\new\\t\\'x\\ny\\\\\"" → value' = "\"C:\\new\t'x\ny\\" := by
  have hv : isQuoted '"' "\"C:\\new\t'x\ny\\".toList = false := by decide
  have hliteral : literal "\"C:\\new\t'x\ny\\" .string = "\"\\\"C:\\\\new\\t\\'x\\ny\\\\\"" := by
    decide +kernel
  obtain ⟨-, hinjective⟩ := literal_lossless (t := .string) (Or.inl rfl) hv
  refine ⟨hv, hliteral, fun value' hv' hsame => ?_⟩
  exact hinjective value' .string (Or.inl rfl) hv' (hsame.trans hliteral.symm)

/-- Text that is quoted already is written as it is. What is between its marks decides whether that is one
literal. If it is not `Sealed`, the literal ends at an earlier mark and the rest of the text is left as code, or a
backslash takes the last mark away and the literal does not end. -/
theorem literal_passed (ht : t.IsText) (henum : t.isEnum = false) (hv : isQuoted '"' value.toList = true) :
    literal value t = value ∧ ∃ inner, value.toList = '"' :: inner ++ ['"'] ∧
      (untilMark '"' false (inner ++ ['"']) = some (inner, []) ↔ Sealed '"' inner) ∧
      (¬ Sealed '"' inner →
        (∃ body rest, inner = body ++ '"' :: rest ∧
          untilMark '"' false (inner ++ ['"']) = some (body, rest ++ ['"'])) ∨
        (untilMark '"' false (inner ++ ['"']) = none ∧ Odd (endingBackslashes inner))) := by
  obtain ⟨inner, hinner⟩ := exists_of_isQuoted hv
  refine ⟨literal_of_isQuoted ht henum hv, inner, hinner, ?_, ?_⟩
  · rw [untilMark_eq_some_iff, and_iff_right rfl]
  · intro hopen
    cases hread : untilMark '"' false (inner ++ ['"']) with
    | none =>
      have hskipped : inner.foldl skipsAfter false = true := untilMark_eq_none hread rfl
      exact Or.inr ⟨rfl, (foldl_skipsAfter inner).1 hskipped⟩
    | some r =>
      obtain ⟨body, rest⟩ := r
      obtain ⟨hsplit, hsealed⟩ := untilMark_eq_some_iff.1 hread
      -- the mark that was found is not the last one, before which the body is not sealed
      rcases List.eq_nil_or_concat' rest with rfl | ⟨rest, c, rfl⟩
      · rw [List.append_cancel_right hsplit] at hopen
        exact absurd hsealed hopen
      · rw [← List.cons_append, ← List.append_assoc] at hsplit
        obtain ⟨hbody, hlast⟩ := List.append_inj' hsplit rfl
        cases hlast
        exact Or.inl ⟨body, rest, hbody, rfl⟩

/-- Escaped marks and an escaped backslash make one literal, a backslash before the last mark makes none. -/
theorem literal_passed_greeting :
    literal "\"say \\\"hi\\\" \\\\\"" .string = "\"say \\\"hi\\\" \\\\\"" ∧
      untilMark '"' false "say \\\"hi\\\" \\\\\"".toList = some ("say \\\"hi\\\" \\\\".toList, []) ∧
      literal "\"C:\\\"" .string = "\"C:\\\"" ∧ untilMark '"' false "C:\\\"".toList = none := by
  have hgreeting : isQuoted '"' "\"say \\\"hi\\\" \\\\\"".toList = true := by decide
  have hpath : isQuoted '"' "\"C:\\\"".toList = true := by decide
  obtain ⟨hpassed, inner, hinner, hcomplete, -⟩ := literal_passed (t := .string) (Or.inl rfl) rfl hgreeting
  obtain ⟨hpassed', inner', hinner', -, hbroken⟩ := literal_passed (t := .string) (Or.inl rfl) rfl hpath
  obtain rfl : "say \\\"hi\\\" \\\\".toList = inner := List.append_cancel_right (List.cons.inj hinner).2
  obtain rfl : "C:\\".toList = inner' := List.append_cancel_right (List.cons.inj hinner').2
  refine ⟨hpassed, hcomplete.2 (by decide), hpassed', ?_⟩
  rcases hbroken (by decide) with ⟨body, rest, hmark, -⟩ | ⟨hnone, -⟩
  · have hnot : '"' ∉ "C:\\".toList := by decide
    rw [hmark] at hnot
    simp at hnot
  · exact hnone

end Spelling

/-- Assigns to `x` a text that begins and ends with a quotation mark. -/
def replying : Job where
  method := (Method.make "Reply" [] []).run (.ofPairs [])
    [.addNode (.setter ⟨"x", .string⟩) {}, .addNode (.literal "\"yes\" or \"no\"" .string) {},
      .connect (.execOut 0 0) (.execIn 1 0), .connect (.dataOut 2 0) (.dataIn 1 0)]
  catalog := .ofPairs []
  config := {}

/-- The literal ends after `yes`, and the rest of the text is code. -/
theorem Spelling.literal_replying :
    replying.source =
        .ok ⟨"public void Reply()", some (.step (.assign 1 "x" "\"yes\" or \"no\"") .done)⟩ ∧
      isQuoted '"' "\"yes\" or \"no\"".toList = true ∧
      literal "\"yes\" or \"no\"" .string = "\"yes\" or \"no\"" ∧
      untilMark '"' false "yes\" or \"no\"".toList = some ("yes".toList, " or \"no\"".toList) := by
  decide +kernel

end VisualScript
