import VisualScript.Proofs.Graph.Reversal

/-!
# How far taking back can go

An edit that is taken back may fail, and then takes back in turn what it has done so far. `Edit.turns` bounds how
often that can go on, and `Edit.applyWith_rollBack` says that the bound is no restriction: with any more turns the
edit answers and does the same, on any graph.

* `Edit.ends_applyWith`: what an edit does is told by its `leaves`, whatever `undo` is, up to the inverses that it
  hands to `undo` when it fails. They are those of the leaves before the one that failed.
* `Edit.stable_light`: links and swaps of links come down to at most one inverse on the way back, so one turn is
  enough for them.
* `Edit.Stable.bundled`: a batch needs one turn more than its edits.
-/

namespace VisualScript

open EditM GraphM

/-! ### Links that make room, on any graph -/

namespace Wire

variable {π σ : Type} [Linkable π] [Linkable σ] {w : Wire π σ} {m m' : Method} {x y : PinRef}

/-- A `link` that is made answers with what the pin `x` held. -/
theorem held_of_link {named : PinRef → Link} {r : Option Link} (h : (w.link x y named).exec m = (.ok r, m')) :
    ∃ a, m.pin? w.solo x = some a ∧ r = (w.held a).map named := by
  unfold link at h
  cases hx : m.pin? w.solo x with
  | none =>
    rw [exec_bind_error (exec_change_none hx)] at h
    cases h
  | some a =>
    refine ⟨a, rfl, ?_⟩
    rw [exec_bind_ok (exec_change_some hx)] at h
    -- whatever was let go before, the last change decides whether there is an answer
    have answer : ∀ {m₁ : Method}, (change w.shared y (w.share (·.insert x)) >>= fun _ =>
        pure ((w.held a).map named) : GraphM (Option Link)).exec m₁ = (.ok r, m') → r = (w.held a).map named := by
      intro m₁ h
      rcases hy : (change w.shared y (w.share (·.insert x))).exec m₁ with ⟨e | b, m₂⟩
      · rw [exec_bind_error hy] at h
        cases h
      · rw [exec_bind_ok hy] at h
        cases h
        rfl
    cases ht : w.held a with
    | none =>
      rw [ht] at h answer
      exact answer h
    | some t =>
      rw [ht] at h answer
      rcases hshare : (change w.shared t (w.share (·.erase x))).exec
        (m.changePin w.solo x (w.aim (some y))) with ⟨e | b, m₂⟩
      · rw [exec_bind_error hshare] at h
        cases h
      · rw [exec_bind_ok hshare] at h
        exact answer h

/-- A pin `x` that was told to let go holds nothing, also once its partner `y` has let go. -/
theorem refs_of_letGo {f : PinSet → PinSet} {r : Bool}
    (h : (change w.solo x (w.aim none) >>= fun _ => change w.shared y (w.share f) >>= fun _ =>
      pure true : GraphM Bool).exec m = (.ok r, m')) : m'.refs x = [] := by
  cases hx : m.pin? w.solo x with
  | none =>
    rw [exec_bind_error (exec_change_none hx)] at h
    cases h
  | some a =>
    obtain ⟨m₁, he₁, hs₁, hr₁⟩ := exec_aim none hx
    rw [exec_bind_ok he₁] at h
    obtain ⟨a₁, hx₁, -⟩ := Method.exists_pin?_of_shape w.solo_lawful hs₁.symm hx
    cases hy : m₁.pin? w.shared y with
    | none =>
      rw [exec_bind_error (exec_change_none hy)] at h
      cases h
    | some b =>
      obtain ⟨m₂, he₂, -, hr₂⟩ := exec_share f hy
      rw [exec_bind_ok he₂] at h
      cases h
      -- the other end is another pin, so letting go there leaves `x` empty
      refine List.eq_nil_iff_forall_not_mem.2 fun q hq => ?_
      rw [hr₂, if_neg (ne_of_pins hx₁ hy).symm, hr₁, if_pos rfl] at hq
      cases hq

end Wire

namespace GraphM

variable {c : TypeCatalog} {m m' : Method}

/-- What a new link `l` displaces was held by its end `l.solo`. -/
theorem displaced_of_connect {a b : PinRef} {l d : Link} (hc : m.checkConnection c a b = .ok l)
    (h : (connect c a b).exec m = (.ok (some d), m')) :
    m.refs l.solo ≠ [] ∧ (d.source = l.solo ∨ d.target = l.solo) := by
  cases hl : m.isLinked l with
  | true =>
    rw [exec_connect_linked hc hl] at h
    cases h
  | false =>
    rw [exec_connect_unlinked hc hl] at h
    unfold Link.solo
    by_cases he : l.isExec = true
    · rw [if_pos he, Wire.linkExec_eq] at h
      obtain ⟨a, ha, hd⟩ := Wire.held_of_link h
      obtain ⟨t, ht, rfl⟩ := Option.map_eq_some_iff.1 hd.symm
      rw [if_pos he, Method.refs_of_pin? execWire.solo_lawful ha, execWire.refs_solo, ht]
      exact ⟨List.cons_ne_nil _ _, Or.inl rfl⟩
    · rw [if_neg he, Wire.linkData_eq] at h
      obtain ⟨a, ha, hd⟩ := Wire.held_of_link h
      obtain ⟨t, ht, rfl⟩ := Option.map_eq_some_iff.1 hd.symm
      rw [if_neg he, Method.refs_of_pin? dataWire.solo_lawful ha, dataWire.refs_solo, ht]
      exact ⟨List.cons_ne_nil _ _, Or.inr rfl⟩

/-- Where the link `l` was severed, `l.solo` holds nothing. -/
theorem refs_of_unlink {l : Link} (h : (unlink l).exec m = (.ok true, m')) : m'.refs l.solo = [] := by
  cases hl : m.isLinked l with
  | false =>
    rw [exec_unlink_false hl] at h
    cases h
  | true =>
    unfold unlink at h
    rw [exec_get_bind, hl] at h
    unfold Link.solo
    by_cases he : l.isExec = true
    · simp only [he, Bool.not_true, Bool.false_eq_true, if_false, if_true] at h ⊢
      exact Wire.refs_of_letGo (w := execWire) (y := l.target) (f := (·.erase l.source)) h
    · simp only [he, Bool.not_true, Bool.false_eq_true, if_false] at h ⊢
      exact Wire.refs_of_letGo (w := dataWire) (y := l.source) (f := (·.erase l.target)) h

end GraphM

namespace Edit

variable {c : TypeCatalog} {m m₁ m₂ : Method}

/-! ### Leaves -/

mutual

/-- The edits other than a `batch` that an edit comes down to, in order. -/
def leaves : Edit → List Edit
  | .batch edits => leavesOfAll edits
  | .addNode kind position => [.addNode kind position]
  | .restoreNode node links => [.restoreNode node links]
  | .removeNode id => [.removeNode id]
  | .connect a b => [.connect a b]
  | .unlink link => [.unlink link]
  | .disconnect pin => [.disconnect pin]

def leavesOfAll : List Edit → List Edit
  | [] => []
  | e :: es => e.leaves ++ leavesOfAll es

end

theorem leavesOfAll_eq (es : List Edit) : leavesOfAll es = es.flatMap leaves := by
  induction es with
  | nil => rfl
  | cons e es ih =>
    unfold leavesOfAll
    rw [List.flatMap_cons, ih]

theorem leaves_batch (es : List Edit) : (batch es).leaves = es.flatMap leaves := by
  unfold leaves
  exact leavesOfAll_eq es

theorem leaves_of_isBatch {e : Edit} (h : e.isBatch = false) : e.leaves = [e] := by
  cases e with
  | batch => cases h
  | _ => unfold leaves; rfl

/-- Edits are applied one after the other, and their inverses are gathered last first: `Steps c m xs is m'` goes
from `m` by `xs` to `m'` and gathers `is`. -/
inductive Steps (c : TypeCatalog) : Method → List Edit → List Edit → Method → Prop
  | nil (m : Method) : Steps c m [] [] m
  | cons {m m₁ m₂ : Method} {x i : Edit} {xs is : List Edit} (hx : (x.apply c).exec m = (.ok i, m₁))
      (hxs : Steps c m₁ xs is m₂) : Steps c m (x :: xs) (is ++ [i]) m₂

theorem Steps.append {xs ys is js : List Edit} (h : Steps c m xs is m₁) (h' : Steps c m₁ ys js m₂) :
    Steps c m (xs ++ ys) (js ++ is) m₂ := by
  induction h with
  | nil m => simpa using h'
  | cons hx _ ih =>
    rw [← List.append_assoc]
    exact .cons hx (ih h')

/-- Whatever `undo` is, all leaves are applied, and the answer has their inverses before those in `done`. -/
def Completes (c : TypeCatalog) (m : Method) (leaves done : List Edit)
    (run : (Edit → Method → Method) → GraphM Edit) : Prop :=
  ∃ is i m', Steps c m leaves is m' ∧ i.leaves = (is ++ done).flatMap Edit.leaves ∧
    ∀ undo, (run undo).exec m = (.ok i, m')

/-- Whatever `undo` is, a leaf fails, and `undo` is handed the inverses `is` of the leaves before it, bundled in
some way as `gs`, and then those in `done`. -/
def Breaks (c : TypeCatalog) (m : Method) (leaves done : List Edit)
    (run : (Edit → Method → Method) → GraphM Edit) : Prop :=
  ∃ xs x ys is gs error m₁ m₂, leaves = xs ++ x :: ys ∧ Steps c m xs is m₁ ∧
    gs.flatMap Edit.leaves = is.flatMap Edit.leaves ∧
    ∀ undo, (run undo).exec m = (.error error, (gs ++ done).foldl (fun m i => undo i m) m₂)

/-- An edit that is no `batch` is its own only leaf, and fails before anything was gathered. -/
theorem ends_single {e : Edit} (he : e.isBatch = false) (m : Method) :
    Completes c m e.leaves [] (fun undo => applyWith undo c e) ∨
      Breaks c m e.leaves [] fun undo => applyWith undo c e := by
  have hrun : ∀ undo, applyWith undo c e = e.apply c := fun undo => applyWith_eq he
  simp only [hrun, leaves_of_isBatch he]
  rcases h : (e.apply c).exec m with ⟨error | i, m'⟩
  · exact Or.inr ⟨[], e, [], [], [], error, m, m', rfl, .nil m, rfl, fun _ => h⟩
  · exact Or.inl ⟨[i], i, m', .cons h (.nil m'), by simp, fun _ => h⟩

mutual

/-- An edit `Completes` or `Breaks` off, and `undo` has no part in that. -/
theorem ends_applyWith (m : Method) : ∀ e : Edit,
    Completes c m e.leaves [] (fun undo => applyWith undo c e) ∨
      Breaks c m e.leaves [] fun undo => applyWith undo c e
  | .batch edits => by
    simp only [leaves_batch, applyWith]
    exact ends_applyAll m [] edits
  | .addNode _ _ => ends_single rfl m
  | .restoreNode _ _ => ends_single rfl m
  | .removeNode _ => ends_single rfl m
  | .connect _ _ => ends_single rfl m
  | .unlink _ => ends_single rfl m
  | .disconnect _ => ends_single rfl m

theorem ends_applyAll (m : Method) (done : List Edit) : ∀ edits : List Edit,
    Completes c m (edits.flatMap leaves) done (fun undo => applyAll undo c done edits) ∨
      Breaks c m (edits.flatMap leaves) done fun undo => applyAll undo c done edits
  | [] => Or.inl ⟨[], .batch done, m, .nil m, leaves_batch done, fun _ => rfl⟩
  | e :: es => by
    rw [List.flatMap_cons]
    rcases ends_applyWith m e with ⟨is, i, m', hsteps, hi, hrun⟩ |
      ⟨xs, x, ys, is, gs, error, m₁, m₂, hleaves, hsteps, hgs, hrun⟩
    · -- the first edit is through, and its inverse stands before the others from now on
      rw [List.append_nil] at hi
      have hrest := fun undo => exec_applyAll_ok (hrun undo) done es
      rcases ends_applyAll m' (i :: done) es with ⟨js, j, m'', hsteps', hj, hrun'⟩ |
        ⟨xs, x, ys, js, gs, error, m₁, m₂, hleaves, hsteps', hgs, hrun'⟩
      · refine Or.inl ⟨js ++ is, j, m'', hsteps.append hsteps', ?_, fun undo => (hrest undo).trans (hrun' undo)⟩
        simp [hj, hi]
      · refine Or.inr ⟨e.leaves ++ xs, x, ys, js ++ is, gs ++ [i], error, m₁, m₂, ?_, hsteps.append hsteps', ?_,
          fun undo => ?_⟩
        · rw [hleaves, List.append_assoc]
        · simp [hgs, hi]
        · rw [hrest undo, hrun' undo]
          simp
    · -- the first edit breaks off, and those before it are taken back after its own
      refine Or.inr ⟨xs, x, ys ++ es.flatMap leaves, is, gs, error, m₁, m₂, ?_, hsteps, hgs, fun undo => ?_⟩
      · rw [hleaves, List.append_assoc, List.cons_append]
      · rw [exec_applyAll_error (hrun undo), List.append_nil, List.foldl_append]

end

/-! ### Edits with few leaves -/

/-- An edit without `leaves` does nothing, also on the way back. -/
theorem rollBack_of_leaves_nil {g : Edit} (hg : g.leaves = []) (t : Nat) (m : Method) : rollBack c t g m = m := by
  cases t with
  | zero => rfl
  | succ t =>
    unfold rollBack
    rcases ends_applyWith (c := c) m g with ⟨is, i, m', hsteps, -, hrun⟩ |
      ⟨xs, x, ys, is, gs, error, m₁, m₂, hleaves, -⟩
    · rw [hg] at hsteps
      cases hsteps
      rw [hrun]
    · rw [hg] at hleaves
      simp at hleaves

theorem foldl_rollBack_of_leaves_nil {gs : List Edit} (hgs : gs.flatMap leaves = []) (t : Nat) (m : Method) :
    gs.foldl (fun m g => rollBack c t g m) m = m := by
  induction gs generalizing m with
  | nil => rfl
  | cons g gs ih =>
    rw [List.flatMap_cons, List.append_eq_nil_iff] at hgs
    rw [List.foldl_cons, rollBack_of_leaves_nil hgs.1]
    exact ih hgs.2 m

/-- With one leaf there is nothing to take back when it fails, so a single turn is as good as many. -/
theorem rollBack_of_length_leaves {g : Edit} (hg : g.leaves.length ≤ 1) (t t' : Nat) (m : Method) :
    rollBack c (t + 1) g m = rollBack c (t' + 1) g m := by
  unfold rollBack
  rcases ends_applyWith (c := c) m g with ⟨is, i, m', -, -, hrun⟩ |
    ⟨xs, x, ys, is, gs, error, m₁, m₂, hleaves, hsteps, hgs, hrun⟩
  · rw [hrun, hrun]
  · have hxs : xs = [] := by
      rw [hleaves, List.length_append, List.length_cons] at hg
      exact List.eq_nil_of_length_eq_zero (by omega)
    subst hxs
    cases hsteps
    rw [hrun, hrun, List.append_nil, foldl_rollBack_of_leaves_nil hgs, foldl_rollBack_of_leaves_nil hgs]

/-! ### Links and swaps of links -/

/-- Neither a `batch` nor a `disconnect`. -/
def isSimple : Edit → Bool
  | .batch _ | .disconnect _ => false
  | _ => true

/-- At most one edit that `isSimple`, or a link that is severed so that its pin can be linked anew. -/
inductive Slight : List Edit → Prop
  | none : Slight []
  | one {x : Edit} (hx : x.isSimple = true) : Slight [x]
  | swap {l : Link} {a b : PinRef} (hl : l.Oriented) (h : a = l.solo ∨ b = l.solo) :
      Slight [.unlink l, .connect a b]

/-- The inverse of `unlink` makes the link again, and then its pin has none. -/
theorem leaves_of_unlink {l : Link} {i : Edit} {m' : Method} (h : ((unlink l).apply c).exec m = (.ok i, m')) :
    i.leaves = [] ∨ i.leaves = [relink l] ∧ m'.refs l.solo = [] := by
  unfold Edit.apply at h
  rcases hr : (GraphM.unlink l).exec m with ⟨e | r, m₁⟩
  · unfold applyWith at h
    rw [Host.perform_method, exec_bind_error hr] at h
    cases h
  · rw [exec_unlink hr] at h
    cases h
    cases r with
    | false => exact Or.inl rfl
    | true => exact Or.inr ⟨rfl, refs_of_unlink hr⟩

/-- The inverse of `connect` severs the link again, and what had been displaced was at the same pin. -/
theorem leaves_of_connect {a b : PinRef} {i : Edit} {m' : Method}
    (h : ((connect a b).apply c).exec m = (.ok i, m')) :
    ∃ l : Link, l.Oriented ∧ (l = ⟨a, b⟩ ∨ l = ⟨b, a⟩) ∧
      (i.leaves = [] ∨ i.leaves = [.unlink l] ∨ m.refs l.solo ≠ [] ∧
        ∃ d : Link, i.leaves = [.unlink l, relink d] ∧ (d.source = l.solo ∨ d.target = l.solo)) := by
  unfold Edit.apply at h
  cases hc : m.checkConnection c a b with
  | error e =>
    rw [exec_connect_error hc] at h
    cases h
  | ok l =>
    obtain ⟨hadmits, hl⟩ := Method.checkConnection_eq_ok_iff.1 hc
    refine ⟨l, hadmits.oriented, hl, ?_⟩
    cases hlinked : m.isLinked l with
    | true =>
      -- it is linked already, and there is nothing to take back
      rw [exec_connect_linked hc hlinked] at h
      cases h
      exact Or.inl rfl
    | false =>
      rcases hr : (GraphM.connect c a b).exec m with ⟨e | r, m₁⟩
      · unfold applyWith at h
        rw [exec_get_bind, Host.present_method, hc] at h
        change (if m.isLinked l = true then _ else _ : GraphM Edit).exec m = _ at h
        rw [hlinked, if_neg Bool.false_ne_true, Host.perform_method, exec_bind_error hr] at h
        cases h
      · rw [exec_connect hc hlinked hr] at h
        cases h
        cases r with
        | none => exact Or.inr (Or.inl rfl)
        | some d =>
          obtain ⟨hrefs, hd⟩ := displaced_of_connect hc hr
          exact Or.inr (Or.inr ⟨hrefs, d, rfl, hd⟩)

theorem slight_of_simple {x i : Edit} {m' : Method} (hx : x.isSimple = true)
    (h : (x.apply c).exec m = (.ok i, m')) : Slight i.leaves := by
  cases x with
  | batch => cases hx
  | disconnect => cases hx
  | connect a b =>
    obtain ⟨l, hl, -, hi | hi | ⟨-, d, hi, hd⟩⟩ := leaves_of_connect h <;> rw [hi]
    · exact .none
    · exact .one rfl
    · exact .swap hl hd
  | unlink l =>
    obtain hi | ⟨hi, -⟩ := leaves_of_unlink h <;> rw [hi]
    · exact .none
    · exact .one rfl
  | addNode kind position =>
    refine Couples.answer (Q := fun i : Edit => Slight i.leaves) ?_ h
    unfold Edit.apply applyWith
    exact (Couples.refl _).bind fun _ _ => .pure (.one rfl)
  | restoreNode node links =>
    refine Couples.answer (Q := fun i : Edit => Slight i.leaves) ?_ h
    unfold Edit.apply applyWith
    exact (Couples.refl _).bind fun _ _ => (Couples.refl _).bind fun _ _ => .pure (.one rfl)
  | removeNode id =>
    refine Couples.answer (Q := fun i : Edit => Slight i.leaves) ?_ h
    unfold Edit.apply applyWith
    exact (Couples.refl _).bind fun _ _ => (Couples.refl _).bind fun _ _ => .pure (.one rfl)

/-- The inverses of edits that are `Slight` in all are so too. -/
theorem Slight.inverse {xs is : List Edit} (hxs : Slight xs) (h : Steps c m xs is m₁) :
    Slight (is.flatMap leaves) := by
  cases hxs with
  | none =>
    cases h
    exact .none
  | one hx =>
    rcases h with _ | ⟨he, ⟨⟩⟩
    simpa using slight_of_simple hx he
  | @swap l a b hl hab =>
    rcases h with _ | ⟨hunlink, _ | ⟨hconnect, ⟨⟩⟩⟩
    have hanew := slight_of_simple (x := .connect a b) rfl hconnect
    rw [List.nil_append, List.singleton_append, List.flatMap_cons, List.flatMap_singleton]
    obtain hi | ⟨hi, hfree⟩ := leaves_of_unlink hunlink
    · -- nothing was severed, so there is only the link to take back
      rwa [hi, List.append_nil]
    · obtain ⟨k, hk, hkab, hj⟩ := leaves_of_connect hconnect
      -- what is linked anew is the pin that was freed
      have hsolo : k.solo = l.solo := by
        by_contra hne
        obtain ⟨hs, ht⟩ := (hk.solo_ne_iff hl).1 hne
        rcases hkab with rfl | rfl <;> rcases hab with rfl | rfl <;> contradiction
      obtain hj | hj | ⟨hheld, -⟩ := hj
      · rw [hj, hi]
        exact .one rfl
      · rw [hj, hi]
        exact .swap hk (l.solo_eq.imp (fun h => (hsolo.trans h).symm) fun h => (hsolo.trans h).symm)
      · -- the pin was just freed, so nothing can have been displaced
        exact absurd (hsolo ▸ hfree) hheld

/-- Of `Slight` edits, those before the last have at most one leaf to take back. -/
theorem Slight.before {xs ys is : List Edit} {x : Edit} (hxs : Slight (xs ++ x :: ys)) (h : Steps c m xs is m₁) :
    (is.flatMap leaves).length ≤ 1 := by
  generalize hall : xs ++ x :: ys = all at hxs
  cases hxs with
  | none => simp at hall
  | one hx =>
    obtain ⟨rfl, -⟩ : xs = [] ∧ _ := by simpa [List.append_eq_singleton_iff] using hall
    cases h
    exact Nat.zero_le _
  | @swap l a b hl hab =>
    rcases xs with _ | ⟨x', xs⟩
    · cases h
      exact Nat.zero_le _
    · rw [List.cons_append, List.cons.injEq] at hall
      obtain ⟨rfl, hall⟩ := hall
      obtain ⟨rfl, -⟩ : xs = [] ∧ _ := by simpa [List.append_eq_singleton_iff] using hall
      rcases h with _ | ⟨hunlink, ⟨⟩⟩
      rw [List.nil_append, List.flatMap_singleton]
      obtain hi | ⟨hi, -⟩ := leaves_of_unlink hunlink <;> simp [hi]

/-! ### Turns that are enough -/

/-- For edits with `K`, beyond `n` turns more change nothing, and their inverses have `K` too. -/
def Stable (c : TypeCatalog) (n : Nat) (K : Edit → Prop) : Prop :=
  ∀ e, K e → ∀ t t', n ≤ t → n ≤ t' →
    Couples (· = ·) K (applyWith (rollBack c t) c e : GraphM Edit) (applyWith (rollBack c t') c e)

/-- Links, swaps of links, and edits of nodes: the `leaves` are `Slight`. -/
def Light (e : Edit) : Prop := Slight e.leaves

theorem stable_light : Stable c 1 Light := by
  intro e he t t' ht ht' m _ rfl
  rcases ends_applyWith (c := c) m e with ⟨is, i, m', hsteps, hi, hrun⟩ |
    ⟨xs, x, ys, is, gs, error, m₁, m₂, hleaves, hsteps, hgs, hrun⟩
  · rw [hrun, hrun]
    refine ⟨rfl, rfl, fun _ ha => ?_⟩
    cases ha
    unfold Light
    rw [hi, List.append_nil]
    exact he.inverse hsteps
  · rw [hrun, hrun, List.append_nil]
    refine ⟨rfl, ?_, nofun⟩
    -- what is taken back has one leaf in all, so none of the edits has more
    have hfew : (gs.flatMap leaves).length ≤ 1 := by
      unfold Light at he
      rw [hleaves] at he
      rw [hgs]
      exact he.before hsteps
    clear hgs hrun
    induction gs generalizing m₂ with
    | nil => rfl
    | cons g gs ih =>
      rw [List.flatMap_cons, List.length_append] at hfew
      obtain ⟨t, rfl⟩ := Nat.exists_eq_add_of_le' ht
      obtain ⟨t', rfl⟩ := Nat.exists_eq_add_of_le' ht'
      rw [List.foldl_cons, List.foldl_cons, rollBack_of_length_leaves (by omega) t t']
      exact ih _ (by omega)

/-- An edit with `K`, or a `batch` of such edits. -/
def Bundled (K : Edit → Prop) (e : Edit) : Prop := K e ∨ ∃ es, e = .batch es ∧ ∀ i ∈ es, K i

variable {n : Nat} {K : Edit → Prop}

theorem foldl_congr_of_mem {undo undo' : Edit → Method → Method} (hundo : ∀ i m, K i → undo i m = undo' i m)
    {done : List Edit} (hdone : ∀ i ∈ done, K i) (m : Method) :
    done.foldl (fun m i => undo i m) m = done.foldl (fun m i => undo' i m) m := by
  induction done generalizing m with
  | nil => rfl
  | cons i is ih =>
    rw [List.foldl_cons, List.foldl_cons, hundo i m (hdone i List.mem_cons_self)]
    exact ih (fun j hj => hdone j (List.mem_cons_of_mem _ hj)) _

/-- Two ways of taking back that agree on edits with `K` agree on batches of them. -/
theorem couples_bundle {undo undo' : Edit → Method → Method}
    (hrun : ∀ e, K e → Couples (· = ·) K (applyWith undo c e) (applyWith undo' c e))
    (hundo : ∀ i m, K i → undo i m = undo' i m) {edits : List Edit} (hedits : ∀ e ∈ edits, K e)
    {done : List Edit} (hdone : ∀ i ∈ done, K i) :
    Couples (· = ·) (Bundled K) (applyAll undo c done edits) (applyAll undo' c done edits) := by
  induction edits generalizing done with
  | nil =>
    unfold applyAll
    exact .pure (Or.inr ⟨done, rfl, hdone⟩)
  | cons e es ih =>
    unfold applyAll
    refine Couples.bind (Couples.tryCatch (hrun e (hedits e List.mem_cons_self)) fun error => ?_) fun i hi => ?_
    · refine (Couples.modified ?_).bind fun _ _ => Couples.throw error
      rintro m _ rfl
      exact foldl_congr_of_mem hundo hdone m
    · exact ih (fun e he => hedits e (List.mem_cons_of_mem _ he)) (List.forall_mem_cons.2 ⟨hi, hdone⟩)

/-- A `batch` asks for one turn more than what is in it. -/
theorem Stable.bundled (h : Stable c n K) : Stable c (n + 1) (Bundled K) := by
  intro e he t t' ht ht'
  have hrun : ∀ e, K e → Couples (· = ·) K (applyWith (rollBack c t) c e) (applyWith (rollBack c t') c e) :=
    fun e he => h e he t t' (Nat.le_of_succ_le ht) (Nat.le_of_succ_le ht')
  rcases he with he | ⟨es, rfl, hes⟩
  · exact (hrun e he).mono fun _ hi => Or.inl hi
  · unfold applyWith
    refine couples_bundle hrun (fun i m hi => ?_) hes nofun
    -- a turn goes by with the inverse, which leaves `n` of them
    obtain ⟨t, rfl⟩ := Nat.exists_eq_add_of_le' ht
    obtain ⟨t', rfl⟩ := Nat.exists_eq_add_of_le' ht'
    exact (h i hi _ _ (Nat.le_add_left n t) (Nat.le_add_left n t') m m rfl).2.1

/-- Edits by how deep they are `Bundled`. The inverse of `disconnect` is a batch of links, so it starts with
batches. -/
def Ranked : Nat → Edit → Prop
  | 0, e => Bundled Light e ∨ ∃ pin, e = .disconnect pin
  | n + 1, e => Bundled (Ranked n) e

theorem stable_ranked (n : Nat) : Stable c (n + 2) (Ranked n) := by
  induction n with
  | zero =>
    rintro e (he | ⟨pin, rfl⟩) t t' ht ht'
    · exact (stable_light.bundled e he t t' ht ht').mono fun _ hi => Or.inl hi
    · unfold applyWith
      refine (Couples.refl _).bind fun links _ => .pure (Or.inl (Or.inr ⟨_, rfl, fun i hi => ?_⟩))
      obtain ⟨l, -, rfl⟩ := List.mem_map.1 hi
      exact .one rfl
  | succ n ih => exact ih.bundled

theorem Ranked.mono {n k : Nat} (h : n ≤ k) {e : Edit} (he : Ranked n e) : Ranked k e := by
  induction h with
  | refl => exact he
  | step _ ih => exact Or.inl ih

mutual

theorem ranked_depth : ∀ e : Edit, Ranked e.depth e
  | .batch edits => by
    unfold depth
    exact Or.inr ⟨edits, rfl, ranked_depthOfAll edits⟩
  | .disconnect pin => Or.inr ⟨pin, rfl⟩
  | .addNode _ _ => Or.inl (Or.inl (.one rfl))
  | .restoreNode _ _ => Or.inl (Or.inl (.one rfl))
  | .removeNode _ => Or.inl (Or.inl (.one rfl))
  | .connect _ _ => Or.inl (Or.inl (.one rfl))
  | .unlink _ => Or.inl (Or.inl (.one rfl))

theorem ranked_depthOfAll : ∀ (edits : List Edit), ∀ e ∈ edits, Ranked (depthOfAll edits) e
  | [], _, he => nomatch he
  | e :: es, e', he => by
    unfold depthOfAll
    rcases List.mem_cons.1 he with he | he
    · rw [he]
      exact (ranked_depth e).mono (Nat.le_max_left _ _)
    · exact (ranked_depthOfAll es e' he).mono (Nat.le_max_right _ _)

end

/-- `Edit.turns` is enough: with more turns to take back what was taken back an edit answers and does the same. -/
theorem applyWith_rollBack (e : Edit) {t : Nat} (ht : e.turns ≤ t) :
    applyWith (rollBack c t) c e = e.apply c := by
  funext m
  obtain ⟨hanswer, hstate, -⟩ := stable_ranked e.depth e (ranked_depth e) t e.turns ht (Nat.le_refl _) m m rfl
  exact Prod.ext hanswer hstate

end Edit

end VisualScript
