import VisualScript.Graph.Edit

/-!
# Running operations on a graph

What `EditM.exec` makes of each way of putting operations together. `exec_bind_ok` and
`exec_bind_error` take the first operation of a sequence off, given how it ends. The only operation
that reaches into a pin is `change`: it answers the pin that was there and replaces it, or it fails
and the method stays as it is.
-/

namespace VisualScript

namespace EditM

variable {σ α β : Type}

theorem exec_bind (x : EditM σ α) (f : α → EditM σ β) (s : σ) :
    (x >>= f).exec s = match x.exec s with
      | (.ok a, s') => (f a).exec s'
      | (.error e, s') => (.error e, s') := by
  show (match x.exec s with | (r, s') => (ExceptT.bindCont f r : StateM σ _) s') = _
  rcases x.exec s with ⟨e | a, s'⟩ <;> rfl

theorem exec_bind_ok {x : EditM σ α} {s s' : σ} {a : α} (h : x.exec s = (.ok a, s'))
    (f : α → EditM σ β) : (x >>= f).exec s = (f a).exec s' := by
  rw [exec_bind, h]

theorem exec_bind_error {x : EditM σ α} {s s' : σ} {e : GraphError}
    (h : x.exec s = (.error e, s')) (f : α → EditM σ β) :
    (x >>= f).exec s = (.error e, s') := by
  rw [exec_bind, h]

@[simp] theorem exec_get_bind (f : σ → EditM σ β) (s : σ) :
    (get >>= f).exec s = (f s).exec s := rfl

theorem exec_map (f : α → β) (x : EditM σ α) (s : σ) :
    (f <$> x).exec s = ((x.exec s).1.map f, (x.exec s).2) := by
  rw [← bind_pure_comp, exec_bind]
  rcases x.exec s with ⟨e | a, s'⟩ <;> rfl

theorem exec_tryCatch (x : EditM σ α) (h : GraphError → EditM σ α) (s : σ) :
    (tryCatch x h).exec s = match x.exec s with
      | (.ok a, s') => (.ok a, s')
      | (.error e, s') => (h e).exec s' := by
  unfold exec ExceptT.run StateT.run
  simp only [tryCatch, tryCatchThe, MonadExceptOf.tryCatch, ExceptT.tryCatch, ExceptT.mk, bind,
    StateT.bind]
  rcases x s with ⟨e | a, s'⟩ <;> rfl

theorem exec_attempt (x : EditM σ α) (s : σ) : x.attempt.exec s = (.ok (), (x.exec s).2) := by
  have hd : (discard x).exec s = ((x.exec s).1.map fun _ => ⟨⟩, (x.exec s).2) := exec_map _ x s
  unfold attempt
  rw [exec_tryCatch, hd]
  rcases x.exec s with ⟨e | a, s'⟩ <;> rfl

end EditM

@[simp] theorem Host.present_method (m : Method) : Host.present m = m := rfl

@[simp] theorem Host.addNode_method (kind : NodeKind) (position : Position) :
    (Host.addNode kind position : GraphM NodeId) = GraphM.addNode kind position := rfl

@[simp] theorem Host.perform_method {α : Type} (x : GraphM α) : (Host.perform x : GraphM α) = x := rfl

namespace GraphM

open EditM

section Change

variable {π : Type} {family : PinFamily π} {p : PinRef} {f : π → π} {m : Method}

theorem exec_change_some {pin : π} (h : m.pin? family p = some pin) :
    (change family p f).exec m = (.ok pin, m.changePin family p f) := by
  unfold change
  rw [exec_get_bind, h]
  rfl

theorem exec_change_none (h : m.pin? family p = none) :
    (change family p f).exec m = (.error (m.pinFault family p), m) := by
  unfold change
  rw [exec_get_bind, h]
  rfl

end Change

end GraphM

end VisualScript
