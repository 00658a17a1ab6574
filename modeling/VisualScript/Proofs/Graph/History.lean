import VisualScript.Proofs.Graph.Reversal

/-!
# Undo and redo

A `Session` is a history together with what its stacks stand for: for each change that can be undone or
redone, the methods right before and right after the edit that made it. Those are recorded when the edit is
made and only move from one list to the other afterwards.

* `Trail` ties a stack of edits to such a list: each edit leads from the one side of its change to the other.
* `Session.sound_run` keeps both trails through edits, failed ones included, undos and redos in any order.
* `Session.Reversible` is what follows for the user of the stacks.
-/

namespace VisualScript

open GraphM

/-- The methods right `before` and right `after` an edit. -/
structure Change where
  before : Method
  after : Method

/-- The edits on a stack lead through the changes, newest first, each from `origin` to `target`. -/
inductive Trail (c : TypeCatalog) (origin target : Change → Method) :
    List Edit → Method → List Change → Prop
  | nil {m : Method} : Trail c origin target [] m []
  | cons {e : Edit} {es : List Edit} {m : Method} {d : Change} {ds : List Change}
      (h : Leads c e (origin d) (target d)) (hm : (origin d).Alike m)
      (hs : Trail c origin target es (target d) ds) : Trail c origin target (e :: es) m (d :: ds)

namespace Trail

variable {c : TypeCatalog} {origin target : Change → Method} {es rs : List Edit} {m m' : Method}
  {ds us : List Change}

theorem alike (h : Trail c origin target es m ds) (hm : m.Alike m') : Trail c origin target es m' ds := by
  cases h with
  | nil => exact .nil
  | cons h hd hs => exact .cons h (hd.trans hm) hs

theorem head_alike {d : Change} (h : Trail c origin target es m (d :: ds)) : (origin d).Alike m := by
  cases h with
  | cons _ hd _ => exact hd

theorem length_eq (h : Trail c origin target es m ds) : es.length = ds.length := by
  induction h with
  | nil => rfl
  | cons _ _ _ ih => simp [ih]

/-- The newest edit `e` succeeds, and its inverse goes on top of the trail in the other direction. -/
theorem apply {e : Edit} {d : Change} (hm : m.Coherent c)
    (h : Trail c origin target (e :: es) m (d :: ds)) (h' : Trail c target origin rs m us) :
    ∃ i m', (e.apply c).exec m = (.ok i, m') ∧ m'.Coherent c ∧
      Trail c origin target es m' ds ∧ Trail c target origin (i :: rs) m' (d :: us) := by
  cases h with
  | cons h hd hs =>
    obtain ⟨i, m', he, hm', hi⟩ := h.apply hm hd
    have hc := Edit.coherent_apply e hm
    rw [he] at hc
    exact ⟨i, m', he, hc, hs.alike hm', .cons hi hm' (h'.alike hd.symm)⟩

end Trail

/-- What the user of a `History` can ask for. -/
inductive Command where
  | edit (e : Edit)
  | undo
  | redo

def Command.restores : Command → Bool
  | .edit e => e.restores
  | _ => false

/-- A history and the changes that its stacks are about, newest first: `done` those that can be undone, `undone`
those that can be redone. -/
structure Session where
  history : History
  done : List Change := []
  undone : List Change := []

namespace Session

/-- The session before anything was changed. -/
def start (m : Method) : Session := { history := { method := m } }

/-- Carries out a command. An edit that succeeds is recorded in `done`, and an undone change changes lists. -/
def step (c : TypeCatalog) (s : Session) : Command → Session
  | .edit e =>
    match s.history.edit c e with
    | (.ok _, h) => ⟨h, ⟨s.history.method, h.method⟩ :: s.done, []⟩
    | (.error _, h) => { s with history := h }
  | .undo => ⟨(s.history.undo c).2, s.done.drop 1, s.done.head?.toList ++ s.undone⟩
  | .redo => ⟨(s.history.redo c).2, s.undone.head?.toList ++ s.done, s.undone.drop 1⟩

def run (c : TypeCatalog) (s : Session) (cs : List Command) : Session := cs.foldl (step c) s

/-- Both stacks are a `Trail` of their changes, back from `after` to `before` and forth again. -/
structure Sound (c : TypeCatalog) (s : Session) : Prop where
  coherent : s.history.method.Coherent c
  past : Trail c Change.after Change.before s.history.undoStack s.history.method s.done
  future : Trail c Change.before Change.after s.history.redoStack s.history.method s.undone

variable {c : TypeCatalog} {s : Session}

theorem sound_start {m : Method} (hm : m.Coherent c) : (start m).Sound c := ⟨hm, .nil, .nil⟩

/-! ### One command -/

theorem Sound.undo (h : s.Sound c) :
    (s.step c .undo).Sound c ∧
      (s.history.undoStack ≠ [] → ∃ i, (s.history.undo c).1 = .ok (some i)) := by
  obtain ⟨⟨m, us, rs⟩, ds, ts⟩ := s
  obtain ⟨hm, hp, hf⟩ := h
  unfold step History.undo
  -- the two lists are empty together, else the top edit leads back over the top change
  cases hp with
  | nil => exact ⟨⟨hm, .nil, hf⟩, fun hne => absurd rfl hne⟩
  | cons hl hd hs =>
    obtain ⟨i, m', he, hm', hp', hf'⟩ := (Trail.cons hl hd hs).apply hm hf
    simp only at he ⊢
    rw [he]
    exact ⟨⟨hm', hp', hf'⟩, fun _ => ⟨i, rfl⟩⟩

theorem Sound.redo (h : s.Sound c) :
    (s.step c .redo).Sound c ∧
      (s.history.redoStack ≠ [] → ∃ i, (s.history.redo c).1 = .ok (some i)) := by
  obtain ⟨⟨m, us, rs⟩, ds, ts⟩ := s
  obtain ⟨hm, hp, hf⟩ := h
  unfold step History.redo
  cases hf with
  | nil => exact ⟨⟨hm, hp, .nil⟩, fun hne => absurd rfl hne⟩
  | cons hl hd hs =>
    obtain ⟨i, m', he, hm', hf', hp'⟩ := (Trail.cons hl hd hs).apply hm hp
    simp only at he ⊢
    rw [he]
    exact ⟨⟨hm', hp', hf'⟩, fun _ => ⟨i, rfl⟩⟩

theorem Sound.edit {e : Edit} (h : s.Sound c) (he : e.restores = false) :
    (s.step c (.edit e)).Sound c ∧
      ∀ error, (s.history.edit c e).1 = .error error →
        (s.history.edit c e).2.method.Same s.history.method ∧
          (s.history.edit c e).2.undoStack = s.history.undoStack ∧
          (s.history.edit c e).2.redoStack = s.history.redoStack := by
  obtain ⟨⟨m, us, rs⟩, ds, ts⟩ := s
  obtain ⟨hm, hp, hf⟩ := h
  have hc := Edit.coherent_apply e hm
  unfold step History.edit
  -- an edit that fails raises the counter at most, which the trails leave out
  rcases apply_of_not_restores he hm with ⟨i, m', hrun, hlead⟩ | ⟨error, m', hrun, hm'⟩ <;>
    simp only at hrun ⊢ <;> rw [hrun] at hc ⊢
  · exact ⟨⟨hc, .cons hlead (.refl _) hp, .nil⟩, by simp⟩
  · refine ⟨⟨hc, hp.alike hm', hf.alike hm'⟩, fun _ _ => ⟨hm'.symm.same, rfl, rfl⟩⟩

/-- One command keeps a session `Sound`, unless it restores a node. -/
theorem Sound.step {x : Command} (h : s.Sound c) (hx : x.restores = false) : (s.step c x).Sound c := by
  cases x with
  | edit e => exact (h.edit hx).1
  | undo => exact h.undo.1
  | redo => exact h.redo.1

/-- A run of commands keeps a session `Sound`. -/
theorem sound_run {cs : List Command} (h : s.Sound c) (hcs : ∀ x ∈ cs, x.restores = false) :
    (s.run c cs).Sound c := by
  induction cs generalizing s with
  | nil => exact h
  | cons x xs ih => exact ih (h.step (hcs x (by simp))) fun y hy => hcs y (by simp [hy])

/-! ### Many undos and redos -/

theorem run_append (xs ys : List Command) : s.run c (xs ++ ys) = (s.run c xs).run c ys := List.foldl_append

theorem lists_run_undo (k : Nat) (s : Session) :
    (s.run c (List.replicate k .undo)).done = s.done.drop k ∧
      (s.run c (List.replicate k .undo)).undone = (s.done.take k).reverse ++ s.undone := by
  induction k generalizing s with
  | zero => exact ⟨rfl, rfl⟩
  | succ k ih =>
    obtain ⟨hd, hu⟩ := ih (s.step c .undo)
    have hrun : s.run c (List.replicate (k + 1) .undo) =
        (s.step c .undo).run c (List.replicate k .undo) := rfl
    rw [hrun, hd, hu]
    obtain ⟨h, _ | ⟨d, ds⟩, us⟩ := s <;> simp [step]

theorem lists_run_redo (k : Nat) (s : Session) :
    (s.run c (List.replicate k .redo)).undone = s.undone.drop k ∧
      (s.run c (List.replicate k .redo)).done = (s.undone.take k).reverse ++ s.done := by
  induction k generalizing s with
  | zero => exact ⟨rfl, rfl⟩
  | succ k ih =>
    obtain ⟨hu, hd⟩ := ih (s.step c .redo)
    have hrun : s.run c (List.replicate (k + 1) .redo) =
        (s.step c .redo).run c (List.replicate k .redo) := rfl
    rw [hrun, hd, hu]
    obtain ⟨h, ds, _ | ⟨d, us⟩⟩ := s <;> simp [step]

theorem Sound.replicate {x : Command} (h : s.Sound c) (hx : x.restores = false) (k : Nat) :
    (s.run c (List.replicate k x)).Sound c :=
  sound_run h fun y hy => by rw [List.eq_of_mem_replicate hy, hx]

/-- The change that was undone last is on top of `undone`, and the future starts right before it. -/
theorem Sound.alike_undo (h : s.Sound c) {k : Nat} (hk : k < s.done.length) :
    s.done[k].before.Alike (s.run c (List.replicate (k + 1) .undo)).history.method := by
  have hf := (h.replicate (x := .undo) rfl (k + 1)).future
  rw [(lists_run_undo (k + 1) s).2, ← List.take_append_getElem hk, List.reverse_append] at hf
  exact hf.head_alike

theorem Sound.alike_redo (h : s.Sound c) {k : Nat} (hk : k < s.undone.length) :
    s.undone[k].after.Alike (s.run c (List.replicate (k + 1) .redo)).history.method := by
  have hp := (h.replicate (x := .redo) rfl (k + 1)).past
  rw [(lists_run_redo (k + 1) s).2, ← List.take_append_getElem hk, List.reverse_append] at hp
  exact hp.head_alike

theorem Sound.alike_undo_redo (h : s.Sound c) {k : Nat} (hk : k ≤ s.done.length) :
    s.history.method.Alike
      (s.run c (List.replicate k .undo ++ List.replicate k .redo)).history.method := by
  have hs := (h.replicate (x := .undo) rfl k).replicate (x := .redo) rfl k
  rw [run_append]
  set back := s.run c (List.replicate k .undo) with hback
  have hdone : (back.run c (List.replicate k .redo)).done = s.done := by
    obtain ⟨hd, hu⟩ := lists_run_undo (c := c) k s
    have hlen : (s.done.take k).reverse.length = k := by simp [hk]
    rw [(lists_run_redo k back).2, hd, hu, List.take_left' hlen, List.reverse_reverse,
      List.take_append_drop]
  have hp := hs.past
  rw [hdone] at hp
  -- both trails of the past begin at the method after the newest change, if there is one
  cases hds : s.done with
  | nil =>
    have hzero : k = 0 := by simpa [hds] using hk
    subst hzero
    exact .refl _
  | cons d ds =>
    have hnow := h.past
    rw [hds] at hnow hp
    exact hnow.head_alike.symm.trans hp.head_alike

/-! ### What the user can rely on -/

/-- `undo` and `redo` work, they lead where they should, and an `edit` that fails changes nothing. -/
structure Reversible (c : TypeCatalog) (s : Session) : Prop where
  undo_succeeds : s.history.undoStack ≠ [] → ∃ i, (s.history.undo c).1 = .ok (some i)
  redo_succeeds : s.history.redoStack ≠ [] → ∃ i, (s.history.redo c).1 = .ok (some i)
  edit_fails : ∀ e error, e.restores = false → (s.history.edit c e).1 = .error error →
    (s.history.edit c e).2.method.Same s.history.method ∧
      (s.history.edit c e).2.undoStack = s.history.undoStack ∧
      (s.history.edit c e).2.redoStack = s.history.redoStack
  length_undoStack : s.history.undoStack.length = s.done.length
  length_redoStack : s.history.redoStack.length = s.undone.length
  /-- Undoing some changes gives the method before the first of them. -/
  undo_same : ∀ k (hk : k < s.done.length),
    (s.run c (List.replicate (k + 1) .undo)).history.method.Same s.done[k].before
  /-- Redoing some changes gives the method after the last of them. -/
  redo_same : ∀ k (hk : k < s.undone.length),
    (s.run c (List.replicate (k + 1) .redo)).history.method.Same s.undone[k].after
  undo_redo_same : ∀ k ≤ s.done.length,
    (s.run c (List.replicate k .undo ++ List.replicate k .redo)).history.method.Same s.history.method

theorem Sound.reversible (h : s.Sound c) : s.Reversible c where
  undo_succeeds := h.undo.2
  redo_succeeds := h.redo.2
  edit_fails _ error he := (h.edit he).2 error
  length_undoStack := h.past.length_eq
  length_redoStack := h.future.length_eq
  undo_same _ hk := (h.alike_undo hk).symm.same
  redo_same _ hk := (h.alike_redo hk).symm.same
  undo_redo_same _ hk := (h.alike_undo_redo hk).symm.same

/-- From a `Consistent` and `Assignable` method on, a session stays `Reversible` whatever is edited, undone and
redone, in whatever order, as long as no edit of the user restores a node (`Command.restores`). -/
theorem reversible_run {m : Method} (hm : m.Consistent) (ha : m.Assignable c) (cs : List Command)
    (hcs : ∀ x ∈ cs, x.restores = false) : ((start m).run c cs).Reversible c :=
  (sound_run (sound_start (Method.coherent_iff.2 ⟨hm, ha⟩)) hcs).reversible

/-- A link makes room for another, one edit fails at once and one half way, and part is undone. -/
def rewiring : List Command :=
  [.edit (.batch [.addNode (.setter ⟨"x", .int⟩) {}, .addNode (.setter ⟨"y", .int⟩) {}]),
    .edit (.connect ⟨0, .execOut, 0⟩ ⟨1, .execIn, 0⟩), .edit (.connect ⟨0, .execOut, 0⟩ ⟨2, .execIn, 0⟩),
    .undo, .edit (.removeNode 0), .redo, .edit (.batch [.removeNode 2, .removeNode 0]), .undo, .undo]

theorem reversible_run_rewiring :
    (Method.make "main" [.int] []).Consistent ∧
      (Method.make "main" [.int] []).Assignable (.ofPairs []) ∧ (∀ x ∈ rewiring, x.restores = false) ∧
      ((start (.make "main" [.int] [])).run (.ofPairs []) rewiring).undone.length = 2 ∧
      ((start (.make "main" [.int] [])).run (.ofPairs []) rewiring).Reversible (.ofPairs []) := by
  have hm := Method.coherent_iff.1 (Method.coherent_make "main" [.int] [] (.ofPairs []))
  have hcs : ∀ x ∈ rewiring, x.restores = false := by decide
  exact ⟨hm.1, hm.2, hcs, by decide +kernel, reversible_run hm.1 hm.2 rewiring hcs⟩

end Session

end VisualScript
