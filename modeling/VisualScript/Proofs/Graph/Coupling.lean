import VisualScript.Proofs.Graph.Wiring

/-!
# Operations in step

`EditM.Couples R Q x y` says of two operations, on states of two sorts, that from states related by `R` they
answer the same, with `Q`, and leave states behind that `R` relates again, also when they fail. One set of rules
(`Couples.bind`, `Couples.tryCatch` and so on) covers all ways of putting operations together.

* `Linkwise R` is what a relation between methods needs for the operations on links to be in step with themselves
  (`GraphM.couples_connect` and the like).
* `FullyCoupled c R N` says that the single operations of two hosts are in step; then so are edits on them, with
  all their rollbacks (`Edit.couples_applyWith`). Answers are followed since the inverse of an edit may put a node
  back.

Properties that operations keep, independence of the counter and recording are three choices of `R`.
-/

namespace VisualScript

open Linkable

namespace EditM

variable {σ τ α β : Type} {R : σ → τ → Prop} {Q : α → Prop} {S : β → Prop}

/-- From related states `x` and `y` answer the same, with `Q` if they succeed, and leave related states behind. -/
def Couples (R : σ → τ → Prop) (Q : α → Prop) (x : EditM σ α) (y : EditM τ α) : Prop :=
  ∀ s t, R s t →
    (x.exec s).1 = (y.exec t).1 ∧ R (x.exec s).2 (y.exec t).2 ∧ ∀ a, (x.exec s).1 = .ok a → Q a

namespace Couples

/-- Equal states stay equal, whatever is done to both. -/
theorem refl (x : EditM σ α) : Couples (· = ·) (fun _ => True) x x := by
  rintro s _ rfl
  exact ⟨rfl, rfl, fun _ _ => trivial⟩

theorem pure {a : α} (h : Q a) : Couples R Q (Pure.pure a) (Pure.pure a) := by
  intro s t hR
  refine ⟨rfl, hR, fun b hb => ?_⟩
  cases hb
  exact h

theorem throw (e : GraphError) : Couples R Q (MonadExcept.throw e) (MonadExcept.throw e) := by
  intro s t hR
  refine ⟨rfl, hR, fun b hb => ?_⟩
  cases hb

theorem lift (x : Except GraphError α) : Couples R (fun _ => True) (liftM x) (liftM x) :=
  fun _ _ hR => ⟨rfl, hR, fun _ _ => trivial⟩

theorem modified {f : σ → σ} {g : τ → τ} (h : ∀ s t, R s t → R (f s) (g t)) :
    Couples R (fun _ => True) (modify f : EditM σ PUnit) (modify g : EditM τ PUnit) :=
  fun s t hR => ⟨rfl, h s t hR, fun _ _ => trivial⟩

variable {x : EditM σ α} {y : EditM τ α}

theorem mono {Q' : α → Prop} (h : Couples R Q x y) (hQ : ∀ a, Q a → Q' a) : Couples R Q' x y := by
  intro s t hR
  obtain ⟨hanswer, hR', ha⟩ := h s t hR
  exact ⟨hanswer, hR', fun a he => hQ a (ha a he)⟩

theorem answer (h : Couples (· = ·) Q x x) {s s' : σ} {a : α} (hx : x.exec s = (.ok a, s')) : Q a :=
  (h s s rfl).2.2 a (by rw [hx])

theorem bind {f : α → EditM σ β} {g : α → EditM τ β} (h : Couples R Q x y)
    (hf : ∀ a, Q a → Couples R S (f a) (g a)) : Couples R S (x >>= f) (y >>= g) := by
  intro s t hR
  obtain ⟨hanswer, hR', hQ⟩ := h s t hR
  rw [exec_bind, exec_bind]
  rcases hx : x.exec s with ⟨r, s'⟩
  rcases hy : y.exec t with ⟨r', t'⟩
  rw [hx, hy] at hanswer hR'
  rw [hx] at hQ
  cases hanswer
  cases r with
  | error e =>
    refine ⟨rfl, hR', fun b hb => ?_⟩
    cases hb
  | ok a => exact hf a (hQ a rfl) s' t' hR'

/-- What `get` reads on either side are related states. -/
theorem get_bind {f : σ → EditM σ β} {g : τ → EditM τ β}
    (hf : ∀ s t, R s t → Couples R S (f s) (g t)) : Couples R S (get >>= f) (get >>= g) := by
  intro s t hR
  rw [exec_get_bind, exec_get_bind]
  exact hf s t hR s t hR

theorem tryCatch {f : GraphError → EditM σ α} {g : GraphError → EditM τ α} (h : Couples R Q x y)
    (hf : ∀ e, Couples R Q (f e) (g e)) :
    Couples R Q (MonadExcept.tryCatch x f) (MonadExcept.tryCatch y g) := by
  intro s t hR
  obtain ⟨hanswer, hR', hQ⟩ := h s t hR
  rw [exec_tryCatch, exec_tryCatch]
  rcases hx : x.exec s with ⟨r, s'⟩
  rcases hy : y.exec t with ⟨r', t'⟩
  rw [hx, hy] at hanswer hR'
  rw [hx] at hQ
  cases hanswer
  cases r with
  | error e => exact hf e s' t' hR'
  | ok a => exact ⟨rfl, hR', hQ⟩

theorem attempt (h : Couples R Q x y) : Couples R (fun _ => True) x.attempt y.attempt := by
  intro s t hR
  rw [exec_attempt, exec_attempt]
  exact ⟨rfl, (h s t hR).2.1, fun _ _ => trivial⟩

theorem mapM {f : α → EditM σ β} {g : α → EditM τ β} (l : List α)
    (hf : ∀ a, Couples R (fun _ => True) (f a) (g a)) : Couples R (fun _ => True) (l.mapM f) (l.mapM g) := by
  induction l with
  | nil => exact Couples.pure trivial
  | cons a l ih =>
    rw [List.mapM_cons, List.mapM_cons]
    exact (hf a).bind fun _ _ => ih.bind fun _ _ => Couples.pure trivial

theorem forM {f : α → EditM σ PUnit} {g : α → EditM τ PUnit} (l : List α)
    (hf : ∀ a, Couples R (fun _ => True) (f a) (g a)) : Couples R (fun _ => True) (l.forM f) (l.forM g) := by
  induction l with
  | nil => exact Couples.pure trivial
  | cons a l ih => exact (hf a).bind fun _ _ => ih

end Couples

end EditM

open EditM

/-! ### Operations on links -/

namespace Method

/-- Equal but for the counter `nextId`. -/
def Alike (a b : Method) : Prop := ∃ k, b = { a with nextId := k }

namespace Alike

variable {a b d : Method}

theorem refl (a : Method) : Alike a a := ⟨a.nextId, rfl⟩

theorem symm (h : Alike a b) : Alike b a := by
  obtain ⟨k, rfl⟩ := h
  exact ⟨a.nextId, rfl⟩

theorem trans (h : Alike a b) (h' : Alike b d) : Alike a d := by
  obtain ⟨k, rfl⟩ := h
  obtain ⟨k', rfl⟩ := h'
  exact ⟨k', rfl⟩

/-- Methods that are `Alike` are the `Same` to those who compare them. -/
theorem same (h : Alike a b) : a.Same b := by
  obtain ⟨k, rfl⟩ := h
  rfl

end Alike

end Method

/-- Related methods are `Alike`, and a `change` of links at the same pin of both leaves them related. -/
structure Linkwise (R : Method → Method → Prop) : Prop where
  alike : ∀ {a b : Method}, R a b → a.Alike b
  change : ∀ {π : Type} [Linkable π] {F : PinFamily π} {f : π → π}, F.Lawful → (∀ a, clear (f a) = clear a) →
    ∀ p, Couples R (fun _ => True) (GraphM.change F p f) (GraphM.change F p f)

namespace Linkwise

variable {R : Method → Method → Prop} {α : Type} {Q : α → Prop}

/-- What `f` makes of the method that it reads must not depend on `nextId`. -/
theorem get_bind (h : Linkwise R) {f : Method → GraphM α} (hf : ∀ m k, f { m with nextId := k } = f m)
    (hs : ∀ m, Couples R Q (f m) (f m)) : Couples R Q (get >>= f) (get >>= f) := by
  refine Couples.get_bind fun a b hR => ?_
  obtain ⟨k, rfl⟩ := h.alike hR
  rw [hf a k]
  exact hs a

end Linkwise

namespace GraphM

variable {R : Method → Method → Prop}

section Wires

variable {π σ : Type} [Linkable π] [Linkable σ] (w : Wire π σ) (h : Linkwise R)

include h

theorem couples_aim (t : Option PinRef) (x : PinRef) :
    Couples R (fun _ => True) (change w.solo x (w.aim t)) (change w.solo x (w.aim t)) :=
  h.change w.solo_lawful (w.clear_aim t) x

theorem couples_share (f : PinSet → PinSet) (y : PinRef) :
    Couples R (fun _ => True) (change w.shared y (w.share f)) (change w.shared y (w.share f)) :=
  h.change w.shared_lawful (w.clear_share f) y

theorem couples_link (x y : PinRef) (named : PinRef → Link) :
    Couples R (fun _ => True) (w.link x y named) (w.link x y named) := by
  unfold Wire.link
  refine (couples_aim w h (some y) x).bind fun old _ => ?_
  have hrest : ∀ answer : Option Link, Couples R (fun _ => True)
      (change w.shared y (w.share (·.insert x)) >>= fun _ => pure answer)
      (change w.shared y (w.share (·.insert x)) >>= fun _ => pure answer) :=
    fun _ => (couples_share w h _ y).bind fun _ _ => Couples.pure trivial
  -- only a pin that held something has a former partner to change
  cases w.held old with
  | none => exact hrest _
  | some t => exact (couples_share w h _ t).bind fun _ _ => hrest _

end Wires

theorem couples_connect (h : Linkwise R) (c : TypeCatalog) (a b : PinRef) :
    Couples R (fun _ => True) (connect c a b) (connect c a b) := by
  unfold connect
  refine h.get_bind (fun _ _ => rfl) fun m => (Couples.lift _).bind fun l _ => ?_
  refine h.get_bind (fun _ _ => rfl) fun m => ?_
  split
  · exact Couples.pure trivial
  · split
    · rw [Wire.linkExec_eq]
      exact couples_link _ h _ _ _
    · rw [Wire.linkData_eq]
      exact couples_link _ h _ _ _

theorem couples_unlink (h : Linkwise R) (l : Link) : Couples R (fun _ => True) (unlink l) (unlink l) := by
  unfold unlink
  refine h.get_bind (fun _ _ => rfl) fun m => ?_
  split
  · exact Couples.pure trivial
  · split
    · exact (couples_aim execWire h none l.source).bind fun _ _ =>
        (couples_share execWire h (·.erase l.source) l.target).bind fun _ _ => Couples.pure trivial
    · exact (couples_aim dataWire h none l.target).bind fun _ _ =>
        (couples_share dataWire h (·.erase l.target) l.source).bind fun _ _ => Couples.pure trivial

theorem couples_disconnect (h : Linkwise R) (pin : PinRef) :
    Couples R (fun _ => True) (disconnect pin) (disconnect pin) := by
  unfold disconnect
  -- by the kind of the pin: it has one partner or many, and these have many or one
  split
  · exact (couples_share execWire h (fun _ => .empty) pin).bind fun _ _ => Couples.mapM _ fun s =>
      (couples_aim execWire h none s).bind fun _ _ => Couples.pure trivial
  · exact (couples_aim execWire h none pin).bind fun _ _ => Couples.mapM _ fun t =>
      (couples_share execWire h (·.erase pin) t).bind fun _ _ => Couples.pure trivial
  · exact (couples_aim dataWire h none pin).bind fun _ _ => Couples.mapM _ fun s =>
      (couples_share dataWire h (·.erase pin) s).bind fun _ _ => Couples.pure trivial
  · exact (couples_share dataWire h (fun _ => .empty) pin).bind fun _ _ => Couples.mapM _ fun t =>
      (couples_aim dataWire h none t).bind fun _ _ => Couples.pure trivial

theorem couples_disconnectAll (h : Linkwise R) (id : NodeId) :
    Couples R (fun _ => True) (disconnectAll id) (disconnectAll id) := by
  unfold disconnectAll
  refine h.get_bind (fun _ _ => rfl) fun m => ?_
  cases m.node? id with
  | none => exact Couples.throw _
  | some n => exact (Couples.mapM _ (couples_disconnect h)).bind fun _ _ => Couples.pure trivial

end GraphM

/-! ### Edits -/

namespace Edit

mutual

/-- Every node that the edit puts back has `N`. -/
def Puts (N : Node → Prop) : Edit → Prop
  | .restoreNode node _ => N node
  | .batch edits => AllPut N edits
  | _ => True

def AllPut (N : Node → Prop) : List Edit → Prop
  | [] => True
  | e :: es => e.Puts N ∧ AllPut N es

end

variable {N : Node → Prop}

theorem allPut_relinks (links : List Link) : AllPut N (links.map relink) := by
  induction links with
  | nil => trivial
  | cons l ls ih => exact ⟨trivial, ih⟩

mutual

theorem puts_of_forall (hN : ∀ n, N n) : ∀ e : Edit, e.Puts N
  | .restoreNode node _ => hN node
  | .batch edits => allPut_of_forall hN edits
  | .addNode .. | .removeNode _ | .connect .. | .unlink _ | .disconnect _ => trivial

theorem allPut_of_forall (hN : ∀ n, N n) : ∀ es : List Edit, AllPut N es
  | [] => trivial
  | e :: es => ⟨puts_of_forall hN e, allPut_of_forall hN es⟩

end

/-- The edits of `done` are taken back one by one, and the states stay related from step to step. -/
theorem related_foldl {σ τ : Type} {R : σ → τ → Prop} {undo : Edit → σ → σ} {undo' : Edit → τ → τ}
    (hu : ∀ e s t, e.Puts N → R s t → R (undo e s) (undo' e t)) {done : List Edit} (hd : AllPut N done)
    {s : σ} {t : τ} (hR : R s t) :
    R (done.foldl (fun s i => undo i s) s) (done.foldl (fun t i => undo' i t) t) := by
  induction done generalizing s t with
  | nil => exact hR
  | cons i is ih => exact ih hd.2 (hu i s t hd.1 hR)

end Edit

section Hosts

variable {σ τ : Type} [Host σ] [Host τ]

/-- The operations of two hosts that hand out no id are in step. A node that is put in has to have `N`, and one
that is taken out has it. -/
structure Coupled (c : TypeCatalog) (R : σ → τ → Prop) (N : Node → Prop) : Prop where
  alike : ∀ {s t}, R s t → (Host.present s).Alike (Host.present t)
  insertNode : ∀ {a : Node}, N a → Couples R (fun _ => True)
    (Host.perform (GraphM.insertNode a)) (Host.perform (GraphM.insertNode a))
  removeNode : ∀ id, Couples R N (Host.perform (GraphM.removeNode id)) (Host.perform (GraphM.removeNode id))
  connect : ∀ a b, Couples R (fun _ => True)
    (Host.perform (GraphM.connect c a b)) (Host.perform (GraphM.connect c a b))
  unlink : ∀ l, Couples R (fun _ => True) (Host.perform (GraphM.unlink l)) (Host.perform (GraphM.unlink l))
  disconnect : ∀ pin, Couples R (fun _ => True)
    (Host.perform (GraphM.disconnect pin)) (Host.perform (GraphM.disconnect pin))

/-- All operations are in step, also `addNode`, which hands out an id. -/
structure FullyCoupled (c : TypeCatalog) (R : σ → τ → Prop) (N : Node → Prop) : Prop extends Coupled c R N where
  addNode : ∀ kind position, Couples R (fun _ => True) (Host.addNode kind position) (Host.addNode kind position)

namespace Edit

variable {c : TypeCatalog} {R : σ → τ → Prop} {N : Node → Prop} {undo : Edit → σ → σ} {undo' : Edit → τ → τ}

theorem couples_restoreLinks (h : Coupled c R N) (node : NodeId) (links displaced : List Link) :
    Couples R (fun _ => True) (restoreLinks c node displaced links) (restoreLinks c node displaced links) := by
  induction links generalizing displaced with
  | nil => exact Couples.pure trivial
  | cons l ls ih =>
    unfold restoreLinks
    refine Couples.bind (Couples.tryCatch (h.connect _ _) fun e => ?_) fun _ _ => ih _
    exact (h.removeNode node).attempt.bind fun _ _ =>
      (Couples.forM _ fun _ => (h.connect _ _).attempt).bind fun _ _ => Couples.throw e

/-- An edit other than `addNode` and `batch` is made of operations that hand out no id. -/
theorem couples_single (h : Coupled c R N) {e : Edit} (he : e.Puts N)
    (hadd : ∀ kind position, e ≠ .addNode kind position) (hbatch : ∀ edits, e ≠ .batch edits) :
    Couples R (Puts N) (applyWith undo c e) (applyWith undo' c e) := by
  cases e with
  | addNode kind position => exact absurd rfl (hadd kind position)
  | batch edits => exact absurd rfl (hbatch edits)
  | restoreNode node links =>
    unfold applyWith
    exact (h.insertNode he).bind fun _ _ =>
      (couples_restoreLinks h _ links []).bind fun _ _ => Couples.pure trivial
  | removeNode id =>
    unfold applyWith
    refine Couples.get_bind fun s t hR => ?_
    obtain ⟨k, hk⟩ := h.alike hR
    rw [hk]
    exact (h.removeNode id).bind fun n hn => Couples.pure hn
  | connect a b =>
    unfold applyWith
    -- the method is read twice, for the check and to see whether the link is there
    refine Couples.get_bind fun s t hR => ?_
    obtain ⟨k, hk⟩ := h.alike hR
    rw [hk]
    refine (Couples.lift _).bind fun l _ => Couples.get_bind fun s t hR => ?_
    obtain ⟨k', hk'⟩ := h.alike hR
    rw [hk']
    have hlinked : ({ Host.present s with nextId := k' } : Method).isLinked l = (Host.present s).isLinked l := rfl
    rw [hlinked]
    split
    · exact Couples.pure trivial
    · exact (h.connect a b).bind fun displaced _ => Couples.pure ⟨trivial, allPut_relinks displaced.toList⟩
  | unlink l =>
    unfold applyWith
    refine (h.unlink l).bind fun r _ => ?_
    split
    · exact Couples.pure trivial
    · exact Couples.pure trivial
  | disconnect pin =>
    unfold applyWith
    exact (h.disconnect pin).bind fun links _ => Couples.pure (allPut_relinks links)

mutual

/-- Edits are in step if taking back is, and their inverses only put back nodes with `N`. -/
theorem couples_applyWith (h : FullyCoupled c R N) (hu : ∀ e s t, e.Puts N → R s t → R (undo e s) (undo' e t)) :
    ∀ e : Edit, e.Puts N → Couples R (Puts N) (applyWith undo c e) (applyWith undo' c e)
  | .addNode kind position, _ => by
    unfold applyWith
    exact (h.addNode kind position).bind fun _ _ => Couples.pure trivial
  | .batch edits, he => by
    unfold applyWith
    exact couples_applyAll h hu [] edits trivial he
  | .restoreNode _ _, he => couples_single h.toCoupled he nofun nofun
  | .removeNode _, he => couples_single h.toCoupled he nofun nofun
  | .connect _ _, he => couples_single h.toCoupled he nofun nofun
  | .unlink _, he => couples_single h.toCoupled he nofun nofun
  | .disconnect _, he => couples_single h.toCoupled he nofun nofun

theorem couples_applyAll (h : FullyCoupled c R N) (hu : ∀ e s t, e.Puts N → R s t → R (undo e s) (undo' e t)) :
    ∀ done edits : List Edit, AllPut N done → AllPut N edits →
      Couples R (Puts N) (applyAll undo c done edits) (applyAll undo' c done edits)
  | done, [], hd, _ => by
    unfold applyAll
    exact Couples.pure hd
  | done, e :: es, hd, hes => by
    unfold applyAll
    refine Couples.bind (Couples.tryCatch (couples_applyWith h hu e hes.1) fun error => ?_) fun inverse hi =>
      couples_applyAll h hu (inverse :: done) es ⟨hi, hd⟩ hes.2
    -- what was done so far is taken back on both sides, and the error goes on
    exact (Couples.modified fun s t hR => related_foldl hu hd hR).bind fun _ _ => Couples.throw error

end

theorem related_rollBack (h : FullyCoupled c R N) (turns : Nat) (e : Edit) (s : σ) (t : τ) (he : e.Puts N)
    (hR : R s t) : R (rollBack c turns e s) (rollBack c turns e t) := by
  -- a turn applies the edit with one turn less to take back with
  induction turns generalizing e s t with
  | zero => exact hR
  | succ turns ih => exact (couples_applyWith h ih e he s t hR).2.1

end Edit

end Hosts

end VisualScript
