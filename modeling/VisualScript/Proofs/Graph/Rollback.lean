import VisualScript.Proofs.Graph.Effects
import VisualScript.Proofs.Graph.Restoration

/-!
# A restored node that fails

The links of a restored node are made one by one. Each may take the place of another, which may be one that was
there before or one that the same node got a moment ago. When a link cannot be made, the node goes, its links with
it, and all that had to make room is tried again, last one first. What belonged to the node is refused then, since
the node is gone; the rest comes back, since its places are free again. So the graph is as it was
(`Edit.failed_restoreNode`).

* `Restoring` is what holds between two links: every link of the graph as it was is there or `displaced`.
* `exec_retry` tries one displaced link again, and `exec_retryAll` all of them.
-/

namespace VisualScript

open EditM GraphM

/-! ### Trying displaced links again -/

section Retry

variable {c : TypeCatalog} {a b : Method} {id : NodeId} {d : Link}

/-- A link that a graph `Admits` touches no node that is not there. -/
theorem Method.Admits.touches_eq_false (h : a.Admits c d) (hid : a.node? id = none) : d.touches id = false := by
  have hne : ∀ {π : Type} {F : PinFamily π} {p : PinRef} {pin : π}, a.pin? F p = some pin → p.node ≠ id := by
    intro π F p pin hp he
    obtain ⟨-, n, hn, -⟩ := Method.pin?_eq_some_iff.1 hp
    rw [he, hid] at hn
    cases hn
  unfold Link.touches
  obtain ⟨x, y, hx, hy⟩ | ⟨x, y, hx, hy, -⟩ := h
  · simp [hne hx, hne hy]
  · simp [hne hx, hne hy]

theorem exec_connect_absent (hid : a.node? id = none) (hd : d.touches id = true) :
    ∃ e, (connect c d.source d.target).exec a = (.error e, a) := by
  refine exec_connect_refused fun ⟨l, hl, hends⟩ => ?_
  have hl' : l.touches id = false := hl.touches_eq_false hid
  have hd' : l.touches id = d.touches id := by
    unfold Link.touches
    rcases hends with rfl | rfl
    · rfl
    · exact Bool.or_comm _ _
  rw [hd', hd] at hl'
  cases hl'

/-- In a part `b` of a graph `a`, a displaced link `d` comes back if it was one of `a`. If it was at the node `id`,
which is gone, nothing happens. -/
theorem exec_retry (ha : a.Coherent c) (hid : a.node? id = none) (hb : b.Coherent c) (hs : b.shape = a.shape)
    (hsub : ∀ k, b.Linked k → a.Linked k) (hd : a.Linked d ∨ d.touches id = true) :
    ∃ b', (connect c d.source d.target).attempt.exec b = (.ok (), b') ∧ b'.Coherent c ∧ b'.shape = a.shape ∧
      ∀ k, b'.Linked k ↔ b.Linked k ∨ (a.Linked k ∧ k = d) := by
  rw [exec_attempt]
  rcases hd with hd | hd
  · obtain ⟨b', he, hb', hs', hlinked⟩ := exec_reconnect ha hb hs hsub hd
    rw [he]
    refine ⟨b', rfl, hb', hs', fun k => ?_⟩
    rw [hlinked, or_comm]
    refine or_congr_right ⟨?_, And.right⟩
    rintro rfl
    exact ⟨hd, rfl⟩
  · -- the attempt is refused, and `a` has no such link either
    have hid' : b.node? id = none := by
      have hmap : (b.node? id).map Node.unlinked = none := by
        rw [← Method.node?_shape, hs, Method.node?_shape, hid]
        rfl
      exact Option.map_eq_none_iff.1 hmap
    obtain ⟨e, he⟩ := exec_connect_absent (c := c) hid' hd
    rw [he]
    refine ⟨b, rfl, hb, hs, fun k => ⟨Or.inl, ?_⟩⟩
    rintro (hk | ⟨hk, rfl⟩)
    · exact hk
    · have hnot : k.touches id = false := ha.mirrored.touches_eq_false hid hk
      rw [hd] at hnot
      cases hnot

/-- Of the links `ds` that are tried again, those come back that `a` has. -/
theorem exec_retryAll (ha : a.Coherent c) (hid : a.node? id = none) (ds : List Link) (b : Method)
    (hb : b.Coherent c) (hs : b.shape = a.shape) (hsub : ∀ k, b.Linked k → a.Linked k)
    (hds : ∀ d ∈ ds, a.Linked d ∨ d.touches id = true) :
    ∃ b', (ds.forM fun d => (connect c d.source d.target).attempt).exec b = (.ok (), b') ∧ b'.Coherent c ∧
      b'.shape = a.shape ∧ ∀ k, b'.Linked k ↔ b.Linked k ∨ (a.Linked k ∧ k ∈ ds) := by
  induction ds generalizing b with
  | nil => exact ⟨b, rfl, hb, hs, by simp⟩
  | cons d ds ih =>
    obtain ⟨b₁, he₁, hb₁, hs₁, hlinked₁⟩ := exec_retry ha hid hb hs hsub (hds d List.mem_cons_self)
    have hsub₁ : ∀ k, b₁.Linked k → a.Linked k := by
      intro k hk
      rcases (hlinked₁ k).1 hk with hk | hk
      · exact hsub k hk
      · exact hk.1
    obtain ⟨b', he, hb', hs', hlinked⟩ := ih b₁ hb₁ hs₁ hsub₁ fun k hk => hds k (List.mem_cons_of_mem _ hk)
    refine ⟨b', (exec_bind_ok he₁ _).trans he, hb', hs', fun k => ?_⟩
    rw [hlinked, hlinked₁, List.mem_cons]
    tauto

end Retry

/-! ### Making the links of a restored node -/

section Restoring

variable {c : TypeCatalog} {m m' b : Method} {node : Node} {links : List Link} {e : GraphError}

/-- `b` is `m` with the `node` put in and some of its links made. Of the links that were there before, those that
`displaced` has may be gone; all else that it has are links of the node itself. -/
structure Restoring (c : TypeCatalog) (m : Method) (node : Node) (displaced : List Link) (b : Method) : Prop where
  coherent : b.Coherent c
  shape : b.shape = (m.withNode node.unlinked).shape
  old : ∀ k, b.Linked k → m.Linked k ∨ k.touches node.id = true
  kept : ∀ k, m.Linked k → b.Linked k ∨ k ∈ displaced
  displaced : ∀ k ∈ displaced, m.Linked k ∨ k.touches node.id = true

theorem restoring_withNode (hm : m.Coherent c) (hkind : node.kind.isEntry = false)
    (hfree : m.node? node.id = none) :
    Restoring c m node [] (m.withNode node.unlinked) := by
  have hlinked : ∀ k, (m.withNode node.unlinked).Linked k ↔ m.Linked k := fun k =>
    Method.linked_withNode (a := node.unlinked) hfree node.unlinked_unlinked
  exact ⟨hm.withNode hkind hfree node.unlinked_unlinked, rfl, fun k hk => Or.inl ((hlinked k).1 hk),
    fun k hk => Or.inl ((hlinked k).2 hk), by simp⟩

/-- One more link of the node is made, or refused by `connect` before anything has changed. -/
theorem Restoring.exec_connect {displaced : List Link} {l : Link} (h : Restoring c m node displaced b)
    (hl : l.touches node.id = true) :
    (∃ made b', (connect c l.source l.target).exec b = (.ok made, b') ∧
        Restoring c m node (made.toList ++ displaced) b') ∨
      ∃ e, (connect c l.source l.target).exec b = (.error e, b) := by
  cases hc : b.checkConnection c l.source l.target with
  | error e => exact Or.inr ⟨e, exec_connect_error hc⟩
  | ok l' =>
    refine Or.inl ?_
    obtain ⟨hadm, hends⟩ := Method.checkConnection_eq_ok_iff.1 hc
    have hl' : l'.touches node.id = true := by
      unfold Link.touches at hl ⊢
      rcases hends with rfl | rfl
      · exact hl
      · rwa [Bool.or_comm]
    cases hlink : b.isLinked l' with
    | true => exact ⟨none, b, GraphM.exec_connect_linked hc hlink, h⟩
    | false =>
      obtain ⟨b', he, hj⟩ := GraphM.exec_connect h.coherent.mirrored hc hlink
      have hlinked : ∀ k, b'.Linked k ↔ k = l' ∨ (b.Linked k ∧ k.solo ≠ l'.solo) := fun k =>
        hj.linked_iff h.coherent.mirrored hadm.oriented
      have hplace : ∀ k, b.inPlaceOf l' = some k ↔ b.Linked k ∧ k.solo = l'.solo := fun k =>
        h.coherent.mirrored.inPlaceOf_eq_some_iff hadm.oriented
      refine ⟨_, b', he, h.coherent.joined hadm hj, hj.shape.trans h.shape, fun k hk => ?_, fun k hk => ?_,
        fun k hk => ?_⟩
      · rcases (hlinked k).1 hk with rfl | ⟨hk, -⟩
        · exact Or.inr hl'
        · exact h.old k hk
      · -- what was there is still there, unless it has just made room
        rw [List.mem_append, Option.mem_toList, hlinked, hplace]
        rcases h.kept k hk with hb | hdis
        · by_cases hsolo : k.solo = l'.solo
          · exact Or.inr (Or.inl ⟨hb, hsolo⟩)
          · exact Or.inl (Or.inr ⟨hb, hsolo⟩)
        · exact Or.inr (Or.inr hdis)
      · -- and what makes room is old or one of the node's own
        rw [List.mem_append, Option.mem_toList, hplace] at hk
        rcases hk with ⟨hb, -⟩ | hdis
        · exact h.old k hb
        · exact h.displaced k hdis

theorem coherent_raised (hm : m.Coherent c) (k : NodeId) :
    ({ m with nextId := max m.nextId k } : Method).Coherent c where
  ordered := hm.ordered
  bounded n hn := Nat.lt_of_lt_of_le (hm.bounded n hn) (Nat.le_max_left _ _)
  entry := hm.entry
  onlyEntry := hm.onlyEntry
  mirrored := hm.mirrored
  admitted := hm.admitted

/-- Without the node, and with all of `displaced` tried again, the graph is as it was before the node came. -/
theorem Restoring.exec_rollBack {displaced : List Link} (h : Restoring c m node displaced b) (hm : m.Coherent c)
    (hfree : m.node? node.id = none) :
    (do
        (removeNode node.id).attempt
        displaced.forM fun d => (connect c d.source d.target).attempt : GraphM Unit).exec b =
      (.ok (), { m with nextId := max m.nextId (node.id + 1) }) := by
  have hraised : ({ m with nextId := max m.nextId (node.id + 1) } : Method).Coherent c := coherent_raised hm _
  obtain ⟨n, m₁, hremove, hm₁, hshape₁, hlinked₁⟩ :=
    exec_removeNode_of_withNode (a := node.unlinked) hm hfree h.coherent h.shape
  -- the node takes its links along, so what is left is old
  have hleft : ∀ k, m₁.Linked k → m.Linked k := by
    intro k hk
    obtain ⟨hb, hnot⟩ := (hlinked₁ k).1 hk
    refine (h.old k hb).resolve_right fun htouch => ?_
    rw [show k.touches node.id = false from hnot] at htouch
    cases htouch
  obtain ⟨m₂, hretry, hm₂, hshape₂, hlinked₂⟩ :=
    exec_retryAll hraised (show Method.node? _ node.id = none from hfree) displaced m₁ hm₁ hshape₁ hleft
      h.displaced
  have hback : m₂ = { m with nextId := max m.nextId (node.id + 1) } := by
    refine Method.eq_of_shape_of_linked hm₂.ordered hm₂.mirrored hraised.mirrored hshape₂ fun k => ?_
    rw [hlinked₂]
    refine ⟨fun hk => hk.elim (hleft k) And.left, fun hk => ?_⟩
    have hnot : k.touches node.id = false := hm.mirrored.touches_eq_false hfree hk
    rcases h.kept k hk with hb | hdis
    · exact Or.inl ((hlinked₁ k).2 ⟨hb, hnot⟩)
    · exact Or.inr ⟨hk, hdis⟩
  have hgone : (removeNode node.id).attempt.exec b = (.ok (), m₁) := by
    rw [exec_attempt, show (removeNode node.id).exec b = (.ok n, m₁) from hremove]
  rw [exec_bind_ok hgone, hretry, hback]

/-- If `restoreLinks` fails, at whichever link, only `nextId` is left raised. -/
theorem Restoring.exec_restoreLinks {displaced : List Link} (h : Restoring c m node displaced b)
    (hm : m.Coherent c) (hfree : m.node? node.id = none) (htouch : ∀ l ∈ links, l.touches node.id = true)
    (hrun : (Edit.restoreLinks c node.id displaced links).exec b = (.error e, m')) :
    m' = { m with nextId := max m.nextId (node.id + 1) } := by
  -- `Restoring` holds up to the link that is refused, and from there all is taken back
  induction links generalizing b displaced with
  | nil => cases hrun
  | cons l ls ih =>
    have hls : ∀ k ∈ ls, k.touches node.id = true := fun k hk => htouch k (List.mem_cons_of_mem _ hk)
    unfold Edit.restoreLinks at hrun
    simp only [Host.perform_method] at hrun
    rw [exec_bind, exec_tryCatch] at hrun
    rcases h.exec_connect (htouch l List.mem_cons_self) with ⟨made, b', hconnect, h'⟩ | ⟨e', hconnect⟩
    · rw [hconnect] at hrun
      exact ih h' hls hrun
    · have hback := h.exec_rollBack hm hfree
      simp only [hconnect] at hrun
      rw [← bind_assoc, exec_bind_ok hback] at hrun
      cases hrun
      rfl

end Restoring

/-! ### The whole edit -/

namespace Edit

variable {c : TypeCatalog} {m m' : Method} {node : Node} {links : List Link} {e : GraphError}

/-- If `restoreNode` fails, the graph is as it was, whichever of `links` was refused, and whatever had made room
for those before. -/
theorem failed_restoreNode (hm : m.Consistent) (hc : m.Assignable c)
    (htouch : ∀ l ∈ links, l.touches node.id = true)
    (h : ((restoreNode node links).apply c).exec m = (.error e, m')) : m'.Same m ∧ m'.Alike m := by
  have ha : m.Coherent c := Method.coherent_iff.2 ⟨hm, hc⟩
  have halike : m.Alike m' := by
    obtain ⟨rfl, -⟩ | ⟨hkind, hfree, e' | ⟨⟩, hrun, he⟩ := exec_restoreNode_cases h
    · -- refused before anything was changed
      exact .refl _
    · exact ⟨_, (restoring_withNode ha hkind hfree).exec_restoreLinks ha hfree htouch hrun⟩
    · cases he
  exact ⟨halike.symm.same, halike.symm⟩

/-- A call of `f` with two results. -/
def doubling : Node := .make 2 (.callStatic (.named "T") "f" [.int] [.int, .int]) {}

/-- Links that `doubling` comes with. The first and the fourth take the places of links that were there before, the
third and the fifth those of links of the call itself, and the sixth is to a node that does not exist. -/
def doublingLinks : List Link :=
  [⟨.execOut 0 0, .execIn 2 0⟩, ⟨.execOut 2 0, .execIn 2 0⟩, ⟨.execIn 1 0, .execOut 2 0⟩,
    ⟨.dataOut 2 0, .dataIn 1 0⟩, ⟨.dataOut 2 1, .dataIn 1 0⟩, ⟨.dataOut 2 0, .dataIn 7 0⟩]

/-- In `assigning`, the assignment that had its value and its turn taken away has both again. -/
theorem failed_restoreNode_doubling :
    assigning.Consistent ∧ assigning.Assignable (.ofPairs []) ∧
      (∀ l ∈ doublingLinks, l.touches doubling.id = true) ∧
      ∃ m', ((restoreNode doubling doublingLinks).apply (.ofPairs [])).exec assigning =
          (.error (.pinNotFound (.dataIn 7 0)), m') ∧ m'.Same assigning := by
  obtain ⟨hm, hc⟩ : assigning.Consistent ∧ assigning.Assignable (.ofPairs []) :=
    Method.coherent_iff.1 (Method.coherent_run (Method.coherent_make "main" [.int] [] (.ofPairs [])) _)
  have htouch : ∀ l ∈ doublingLinks, l.touches doubling.id = true := by decide
  have hrun : ((restoreNode doubling doublingLinks).apply (.ofPairs [])).exec assigning =
      (.error (.pinNotFound (.dataIn 7 0)), _) := rfl
  exact ⟨hm, hc, htouch, _, hrun, (failed_restoreNode hm hc htouch hrun).1⟩

end Edit

end VisualScript
