import VisualScript.Proofs.Source.Rows

/-!
# The grammar of methods

What may stand after what in a method, told from its statements alone. An `IsBlock` is a sequence of items and
perhaps a tail, after which it has to end (`Row.EndsBlock`), and every row stands as deep as it is `Row.Nested`.
-/

namespace VisualScript

/-- The statements `ss` between braces. -/
def braced (ss : List Statement) : List Statement := .opening :: ss ++ [.closing]

mutual

/-- Any number of items (`IsItem`), and then at most one tail (`IsTail`). -/
inductive IsBlock : List Statement → Prop
  | done : IsBlock []
  | tail {ss : List Statement} (h : IsTail ss) : IsBlock ss
  | item {ss rest : List Statement} (h : IsItem ss) (hrest : IsBlock rest) : IsBlock (ss ++ rest)

/-- A statement on one line, or a loop with its block. -/
inductive IsItem : List Statement → Prop
  | step (s : Step) : IsItem [.step s]
  | loop {body : List Statement} (node : NodeId) (index initial limit : String) (h : IsBlock body) :
      IsItem (.forHead node index initial limit :: braced body)

/-- A return, a continue, or a branch with its blocks, after which an `IsBlock` ends. -/
inductive IsTail : List Statement → Prop
  | ret (node : NodeId) (values : List String) : IsTail [.ret node values]
  | again : IsTail [.again]
  | branch {whenTrue : List Statement} (node : NodeId) (condition : String) (h : IsBlock whenTrue) :
      IsTail (.ifHead node condition :: braced whenTrue)
  | branchElse {whenTrue whenFalse : List Statement} (node : NodeId) (condition : String) (h : IsBlock whenTrue)
      (he : IsBlock whenFalse) :
      IsTail (.ifHead node condition :: braced whenTrue ++ .elseHead :: braced whenFalse)

end

/-- `P` holds of every row of `rs` with all that stands after it. -/
def Throughout (P : Row → List Row → Prop) : (rs after : List Row) → Prop
  | [], _ => True
  | r :: rs, after => P r (rs ++ after) ∧ Throughout P rs after

section Throughout

variable {P : Row → List Row → Prop} {after : List Row}

theorem throughout_append {xs ys : List Row} :
    Throughout P (xs ++ ys) after ↔ Throughout P xs (ys ++ after) ∧ Throughout P ys after := by
  induction xs with
  | nil => simp [Throughout]
  | cons x xs ih => simp [Throughout, ih, and_assoc]

theorem Throughout.row {xs ys : List Row} {r : Row} (h : Throughout P (xs ++ r :: ys) []) : P r ys := by
  have h' := (throughout_append.1 h).2.1
  rwa [List.append_nil] at h'

end Throughout

namespace Row

variable {before : List Row} {level : Nat}

end Row

namespace MethodSource

end MethodSource

end VisualScript
