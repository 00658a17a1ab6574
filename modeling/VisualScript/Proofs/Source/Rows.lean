import VisualScript.Proofs.Source.Derivation
import VisualScript.Source.Writing

/-!
# Rows

The lines of a body, before they become text: what stands on each of them, and how deep. A row knows the
inputs whose texts it uses, and what the rows before it have declared can be told from the braces between.

* `Code.lines_eq_rows`: the rows are the lines.
* `Visible`: a declaration whose block is still open at the end of some rows.
* `Everywhere`: a property of every row and what stands before it.
-/

namespace VisualScript

namespace Row

/-- The rows `inner` between a pair of braces. -/
def block (level : Nat) (inner : List Row) : List Row := ⟨level, .opening⟩ :: inner ++ [⟨level, .closing⟩]

theorem map_line_block (level : Nat) (inner : List Row) :
    (block level inner).map line = Line.block level (inner.map line) := by
  simp [block, Line.block, line, Statement.text]

end Row

namespace Code

def rows (level : Nat) : Code → List Row
  | .done => []
  | .ret node values => [⟨level, .ret node values⟩]
  | .again _ => [⟨level, .again⟩]
  | .branch node c t => ⟨level, .ifHead node c⟩ :: Row.block level (t.rows (level + 1))
  | .branchElse node c t e =>
    ⟨level, .ifHead node c⟩ :: Row.block level (t.rows (level + 1)) ++
      ⟨level, .elseHead⟩ :: Row.block level (e.rows (level + 1))
  | .step s next => ⟨level, .step s⟩ :: next.rows level
  | .loop node index initial limit body next =>
    ⟨level, .forHead node index initial limit⟩ :: Row.block level (body.rows (level + 1)) ++
      next.rows level

/-- The `rows` are the `lines` of the code. -/
theorem lines_eq_rows (code : Code) (level : Nat) : code.lines level = (code.rows level).map Row.line := by
  induction code generalizing level with
  | done => rfl
  | ret => rfl
  | again => rfl
  | branch node c t iht => simp [lines, rows, iht, Row.map_line_block, Row.line, Statement.text]
  | branchElse node c t e iht ihe =>
    simp [lines, rows, iht, ihe, Row.map_line_block, Row.line, Statement.text]
  | step s next ih => simp [lines, rows, ih, Row.line, Statement.text]
  | loop node index initial limit body next ihb ihn =>
    simp [lines, rows, ihb, ihn, Row.map_line_block, Row.line, Statement.text]

theorem rows_steps (ss : List Step) (next : Code) (level : Nat) :
    (steps ss next).rows level = ss.map (fun s => ⟨level, .step s⟩) ++ next.rows level := by
  induction ss with
  | nil => rfl
  | cons s ss ih => exact congrArg (_ :: ·) ih

end Code

namespace MethodSource

def rows (s : MethodSource) : List Row :=
  match s.body with
  | none => [⟨0, .signature (s.signature ++ ";")⟩]
  | some code => ⟨0, .signature s.signature⟩ :: Row.block 0 (code.rows 1)

theorem lines_eq_rows (s : MethodSource) : s.lines = s.rows.map Row.line := by
  obtain ⟨signature, _ | code⟩ := s
  · rfl
  · show ⟨0, signature⟩ :: Line.block 0 (code.lines 1) = _ :: (Row.block 0 (code.rows 1)).map Row.line
    rw [code.lines_eq_rows, ← Row.map_line_block]
    rfl

end MethodSource

/-! ### Open blocks -/

/-- How many blocks stand open after a statement, if one may be closed there. -/
def Statement.nest (n : Nat) : Statement → Option Nat
  | .opening => some (n + 1)
  | .closing => if n = 0 then none else some (n - 1)
  | _ => some n

/-- The number of blocks that are open after some rows, `n` of them from before; none if more were closed. -/
def Row.openAfter (n : Nat) (rs : List Row) : Option Nat := rs.foldlM (fun n r => r.statement.nest n) n

namespace Row

theorem openAfter_append (n : Nat) (xs ys : List Row) :
    openAfter n (xs ++ ys) = (openAfter n xs).bind (openAfter · ys) := by
  unfold openAfter
  rw [List.foldlM_append]
  rfl

theorem openAfter_cons (n : Nat) (r : Row) (rs : List Row) :
    openAfter n (r :: rs) = (r.statement.nest n).bind (openAfter · rs) := by
  unfold openAfter
  rw [List.foldlM_cons]
  rfl

theorem openAfter_block {inner : List Row} (level n : Nat) (h : openAfter (n + 1) inner = some (n + 1)) :
    openAfter n (block level inner) = some n := by
  have hclose : openAfter (n + 1) [⟨level, .closing⟩] = some n := rfl
  unfold block
  rw [List.cons_append, openAfter_cons]
  show openAfter (n + 1) (inner ++ [⟨level, .closing⟩]) = some n
  rw [openAfter_append, h, Option.bind_some, hclose]

theorem openAfter_steps (level n : Nat) (ss : List Step) :
    openAfter n (ss.map fun s => ⟨level, .step s⟩) = some n := by
  induction ss with
  | nil => rfl
  | cons s ss ih => exact ih

end Row

/-- Code closes the blocks that it opens, and no other: `openAfter` is as before. -/
theorem Code.openAfter_rows (code : Code) (level n : Nat) : Row.openAfter n (code.rows level) = some n := by
  induction code generalizing level n with
  | done => rfl
  | ret => rfl
  | again => rfl
  | branch node c t iht => exact Row.openAfter_block level n (iht _ _)
  | branchElse node c t e iht ihe =>
    -- two heads with their blocks, and a head opens nothing
    unfold rows
    rw [Row.openAfter_append, Row.openAfter_cons]
    show ((Row.openAfter n (Row.block level _)).bind _) = _
    rw [Row.openAfter_block level n (iht _ _)]
    exact Row.openAfter_block level n (ihe _ _)
  | step s next ih => exact ih level n
  | loop node index initial limit body next ihb ihn =>
    unfold rows
    rw [Row.openAfter_append, Row.openAfter_cons]
    show ((Row.openAfter n (Row.block level _)).bind _) = _
    -- the next statements stand in the same block as the loop
    rw [Row.openAfter_block level n (ihb _ _)]
    exact ihn level n

/-! ### Declarations in open blocks -/

/-- What gives a text a meaning: a statement, or the head of a loop that names its index. -/
inductive Declaration where
  | step (s : Step)
  | index (node : NodeId) (name : String)

/-- The declaration stands in the rows `before`, and its block is still open after them. -/
def Visible (before : List Row) : Declaration → Prop
  | .step s => ∃ pre level mid k,
    before = pre ++ ⟨level, .step s⟩ :: mid ∧ Row.openAfter 0 mid = some k
  | .index node name => ∃ pre level initial limit mid k,
    before = pre ++ ⟨level, .forHead node name initial limit⟩ :: ⟨level, .opening⟩ :: mid ∧
      Row.openAfter 0 mid = some k

namespace Visible

variable {before rs : List Row} {x : Declaration}

theorem append (h : Visible before x) (hrs : ∀ n, ∃ k, Row.openAfter n rs = some k) :
    Visible (before ++ rs) x := by
  cases x with
  | step s =>
    obtain ⟨pre, level, mid, k, rfl, hk⟩ := h
    obtain ⟨k', hk'⟩ := hrs k
    refine ⟨pre, level, mid ++ rs, k', by simp, ?_⟩
    rw [Row.openAfter_append, hk, Option.bind_some, hk']
  | index node name =>
    obtain ⟨pre, level, initial, limit, mid, k, rfl, hk⟩ := h
    obtain ⟨k', hk'⟩ := hrs k
    refine ⟨pre, level, initial, limit, mid ++ rs, k', by simp, ?_⟩
    rw [Row.openAfter_append, hk, Option.bind_some, hk']

theorem steps (h : Visible before x) (level : Nat) (ss : List Step) :
    Visible (before ++ ss.map fun s => ⟨level, .step s⟩) x :=
  h.append fun n => ⟨n, Row.openAfter_steps level n ss⟩

theorem of_mem {s : Step} {ss : List Step} (hs : s ∈ ss) (before : List Row) (level : Nat) :
    Visible (before ++ ss.map fun s => ⟨level, .step s⟩) (.step s) := by
  obtain ⟨xs, ys, rfl⟩ := List.append_of_mem hs
  exact ⟨before ++ xs.map fun s => ⟨level, .step s⟩, level, ys.map fun s => ⟨level, .step s⟩, 0, by simp,
    Row.openAfter_steps level 0 ys⟩

/-- Visible after a `head` and the brace that opens its block. -/
theorem opened (h : Visible before x) {head : Statement} (hhead : ∀ n, head.nest n = some n) (level : Nat) :
    Visible (before ++ [⟨level, head⟩, ⟨level, .opening⟩]) x := by
  refine h.append fun n => ⟨n + 1, ?_⟩
  rw [Row.openAfter_cons, hhead]
  rfl

/-- Visible after a `head` and its whole block. -/
theorem block (h : Visible before x) {head : Statement} (hhead : ∀ n, head.nest n = some n) (level : Nat)
    (code : Code) :
    Visible (before ++ ⟨level, head⟩ :: Row.block level (code.rows (level + 1))) x := by
  refine h.append fun n => ⟨n, ?_⟩
  rw [Row.openAfter_cons, hhead, Option.bind_some]
  exact Row.openAfter_block level n (code.openAfter_rows _ _)

end Visible

/-! ### Every row -/

/-- `P` holds of every row with all that stands before it. -/
def Everywhere (P : List Row → Row → Prop) : (before rs : List Row) → Prop
  | _, [] => True
  | before, r :: rs => P before r ∧ Everywhere P (before ++ [r]) rs

section Everywhere

variable {P : List Row → Row → Prop} {before : List Row}

theorem everywhere_append {xs ys : List Row} :
    Everywhere P before (xs ++ ys) ↔ Everywhere P before xs ∧ Everywhere P (before ++ xs) ys := by
  induction xs generalizing before with
  | nil => simp [Everywhere]
  | cons x xs ih => simp [Everywhere, ih, and_assoc]

theorem Everywhere.row {xs ys : List Row} {r : Row} (h : Everywhere P [] (xs ++ r :: ys)) : P xs r := by
  have h' := (everywhere_append.1 h).2
  rw [List.nil_append] at h'
  exact h'.1

/-- `Everywhere` on a `head` and its block. -/
theorem everywhere_block {head : Statement} {level : Nat} {inner : List Row}
    (hopen : ∀ before, P before ⟨level, .opening⟩) (hclose : ∀ before, P before ⟨level, .closing⟩)
    (hhead : P before ⟨level, head⟩)
    (hinner : Everywhere P (before ++ [⟨level, head⟩, ⟨level, .opening⟩]) inner) :
    Everywhere P before (⟨level, head⟩ :: Row.block level inner) := by
  refine ⟨hhead, everywhere_append.2 ⟨⟨hopen _, ?_⟩, hclose _, trivial⟩⟩
  simpa using hinner

end Everywhere

/-! ### Uses of inputs -/

/-- The `text` of the input `slot` of a node. -/
structure Use where
  node : NodeId
  slot : Nat
  text : String

/-- The uses of `texts` for the first inputs of a node. -/
def Use.ofTexts (node : NodeId) (texts : List String) : List Use := texts.mapIdx fun i t => ⟨node, i, t⟩

namespace Step

/-- The temporaries that a call binds, none for `read` and `assign`. -/
def results : Step → List (TypeSpec × String)
  | .callMethod _ rs _ _ _ | .callStatic _ rs _ _ _ => rs
  | .read .. | .assign .. => []

def uses : Step → List Use
  | .read .. => []
  | .callMethod node _ target _ arguments => Use.ofTexts node (target :: arguments)
  | .callStatic node _ _ _ arguments => Use.ofTexts node arguments
  | .assign node _ value => Use.ofTexts node [value]

end Step

theorem Node.callStep?_eq_some {n : Node} {results : List (TypeSpec × String)} {texts : List String} {s : Step}
    (h : n.callStep? results texts = some s) :
    s.node = n.id ∧ s.results = results ∧ s.uses = Use.ofTexts n.id texts := by
  unfold callStep? at h
  split at h
  · cases h
    exact ⟨rfl, rfl, rfl⟩
  · cases h
    exact ⟨rfl, rfl, rfl⟩
  · cases h

/-- The inputs whose texts stand on a line. -/
def Statement.uses : Statement → List Use
  | .step s => s.uses
  | .ret node values => Use.ofTexts node values
  | .ifHead node condition => Use.ofTexts node [condition]
  | .forHead node _ initial limit => Use.ofTexts node [initial, limit]
  | .signature _ | .again | .elseHead | .opening | .closing => []

end VisualScript
