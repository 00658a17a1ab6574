import VisualScript.Proofs.Graph.Reversal

/-!
# Taking back a restored node

To restore a node is to put it under its id and to make its links. A link that is made takes the place of another
at its end for one link, and that other one may join two nodes that were there before. The inverse removes the
node and knows nothing of such links. So what is lost by a restored node and its removal is exactly what had to
make room (`Edit.undo_restoreNode`).

`connect_ousts` says what one link takes away, and `restoreLinks_ousts` what all of them do, of the links between
nodes that were there before.
-/

namespace VisualScript

open EditM GraphM

/-! ### Links that make room -/

/-- The `solo` end of `k` is a pin of `l`. The ends of `l` may be given in either order. -/
def Link.Ousts (l k : Link) : Prop := k.solo = l.source ∨ k.solo = l.target

instance (l k : Link) : Decidable (l.Ousts k) := inferInstanceAs (Decidable (_ ∨ _))

theorem Link.Oriented.ousts_iff {l l' k : Link} (hk : k.Oriented) (hl' : l'.Oriented)
    (h : l' = ⟨l.source, l.target⟩ ∨ l' = ⟨l.target, l.source⟩) : l.Ousts k ↔ k.solo = l'.solo := by
  have hends : l.Ousts k ↔ k.solo = l'.source ∨ k.solo = l'.target := by
    rcases h with rfl | rfl
    · exact Iff.rfl
    · exact or_comm
  -- the other end of `l'` has a kind that may have many links
  have hne : k.solo ≠ l'.shared := by
    intro he
    have hkind := hk.kind_solo
    rw [he] at hkind
    rcases hl'.cases with ⟨-, ht, -, hshared⟩ | ⟨hs, -, -, hshared⟩
    · simp [hshared, ht] at hkind
    · simp [hshared, hs] at hkind
  rw [hends]
  rcases hl'.cases with ⟨-, -, hsolo, hshared⟩ | ⟨-, -, hsolo, hshared⟩
  · rw [hshared] at hne
    rw [hsolo, or_iff_left hne]
  · rw [hshared] at hne
    rw [hsolo, or_iff_right hne]

section Making

variable {c : TypeCatalog} {b b' : Method} {l : Link} {id : NodeId}

/-- Of the other links, `connect` takes those away that `l` `Ousts`. -/
theorem connect_ousts {r : Option Link} (hb : b.Coherent c)
    (hrun : (connect c l.source l.target).exec b = (.ok r, b')) :
    b'.Coherent c ∧ b'.shape = b.shape ∧
      ∀ k, k ≠ ⟨l.source, l.target⟩ → k ≠ ⟨l.target, l.source⟩ → (b'.Linked k ↔ b.Linked k ∧ ¬ l.Ousts k) := by
  cases hc : b.checkConnection c l.source l.target with
  | error e =>
    rw [exec_connect_error hc] at hrun
    cases hrun
  | ok l' =>
    obtain ⟨hadm, hends⟩ := Method.checkConnection_eq_ok_iff.1 hc
    have hother : ∀ {k : Link}, k ≠ ⟨l.source, l.target⟩ → k ≠ ⟨l.target, l.source⟩ → k ≠ l' := by
      intro k h₁ h₂ he
      rcases hends with hl' | hl'
      · exact h₁ (he.trans hl')
      · exact h₂ (he.trans hl')
    have housts : ∀ {k : Link}, b.Linked k → (l.Ousts k ↔ k.solo = l'.solo) := fun hk =>
      (hb.mirrored.oriented hk).ousts_iff hadm.oriented hends
    cases hlink : b.isLinked l' with
    | true =>
      -- nothing changes, and nothing is ousted: at its end for one link `l'` is the only one
      rw [exec_connect_linked hc hlink] at hrun
      cases hrun
      refine ⟨hb, rfl, fun k h₁ h₂ => ⟨fun hk => ⟨hk, fun ho => ?_⟩, And.left⟩⟩
      have hl' : b.Linked l' := (Method.isLinked_iff hb.mirrored).1 hlink
      exact hother h₁ h₂ (hb.mirrored.eq_of_solo hk hl' ((housts hk).1 ho))
    | false =>
      obtain ⟨b₁, he, hj⟩ := exec_connect hb.mirrored hc hlink
      rw [he] at hrun
      cases hrun
      refine ⟨hb.joined hadm hj, hj.shape, fun k h₁ h₂ => ?_⟩
      rw [hj.linked_iff hb.mirrored hadm.oriented, or_iff_right (hother h₁ h₂)]
      exact and_congr_right fun hk => not_congr (housts hk).symm

theorem exec_bind_throw {α β : Type} (x : GraphM α) (e : GraphError) (m : Method) :
    ∃ e' m', (x >>= fun _ => (throw e : GraphM β)).exec m = (.error e', m') := by
  rw [exec_bind]
  rcases x.exec m with ⟨e' | a, m'⟩
  · exact ⟨e', m', rfl⟩
  · exact ⟨e, m', rfl⟩

/-- If `restoreLinks` succeeds, each link was made, and nothing was taken back. -/
theorem restoreLinks_cons {displaced ls : List Link}
    (hrun : (Edit.restoreLinks c id displaced (l :: ls)).exec b = (.ok (), b')) :
    ∃ made b₁, (connect c l.source l.target).exec b = (.ok made, b₁) ∧
      (Edit.restoreLinks c id (made.toList ++ displaced) ls).exec b₁ = (.ok (), b') := by
  unfold Edit.restoreLinks at hrun
  simp only [Host.perform_method] at hrun
  rw [exec_bind, exec_tryCatch] at hrun
  rcases hconnect : (connect c l.source l.target).exec b with ⟨e | made, b₁⟩
  · -- a link that is refused makes the whole fail, whatever the taking back does
    obtain ⟨e', b₂, hthrow⟩ := exec_bind_throw (β := Option Link)
      (displaced.forM fun d => (connect c d.source d.target).attempt) e ((removeNode id).exec b₁).2
    simp only [hconnect] at hrun
    rw [exec_bind_ok (exec_attempt _ _), hthrow] at hrun
    cases hrun
  · rw [hconnect] at hrun
    exact ⟨made, b₁, rfl, hrun⟩

/-- Of the links between other nodes, `restoreLinks` takes those away that one of `ls` `Ousts`. -/
theorem restoreLinks_ousts (ls displaced : List Link) (hb : b.Coherent c)
    (htouch : ∀ l ∈ ls, l.touches id = true)
    (hrun : (Edit.restoreLinks c id displaced ls).exec b = (.ok (), b')) :
    b'.Coherent c ∧ b'.shape = b.shape ∧
      ∀ k, k.touches id = false → (b'.Linked k ↔ b.Linked k ∧ ∀ l ∈ ls, ¬ l.Ousts k) := by
  induction ls generalizing b displaced with
  | nil =>
    cases hrun
    exact ⟨hb, rfl, by simp⟩
  | cons l ls ih =>
    obtain ⟨made, b₁, hconnect, hrest⟩ := restoreLinks_cons hrun
    obtain ⟨hb₁, hshape₁, hlinked₁⟩ := connect_ousts hb hconnect
    obtain ⟨hb', hshape', hlinked'⟩ := ih _ hb₁ (fun k hk => htouch k (by simp [hk])) hrest
    refine ⟨hb', hshape'.trans hshape₁, fun k hk => ?_⟩
    have hl : (l.source.node == id || l.target.node == id) = true := htouch l List.mem_cons_self
    have hne : ∀ {l' : Link}, l'.touches id = true → k ≠ l' := by
      rintro l' hl' rfl
      rw [hk] at hl'
      cases hl'
    -- the link may have been asked for from its end, so both directions touch the node
    have hback : Link.touches ⟨l.target, l.source⟩ id = true := by
      unfold Link.touches
      rw [Bool.or_comm]
      exact hl
    rw [hlinked' k hk, hlinked₁ k (hne hl) (hne hback), List.forall_mem_cons]
    exact and_assoc

end Making

/-! ### Before and after -/

namespace Method

variable {m : Method}

theorem links_erase (m : Method) : m.erase.links = m.links := by
  have hnode : ∀ n : Node, n.erase.links = n.links := by
    intro n
    unfold Node.links Node.erase
    simp [List.mapIdx_eq_zipIdx_map, List.zipIdx_map, DataOut.erase, Function.comp_def]
  unfold links erase
  simp only [List.flatMap_map, hnode]

theorem Same.links_eq {m' : Method} (h : m.Same m') : m.links = m'.links := by
  rw [← links_erase m, ← links_erase m', show m.erase = m'.erase from h]

end Method

namespace Edit

variable {c : TypeCatalog} {m m' : Method} {node : Node} {links : List Link} {i : Edit}
  {r : Except GraphError Edit}

/-- `restoreNode` is refused at once, or the node comes under a free id and all is up to `restoreLinks`. -/
theorem exec_restoreNode_cases (h : ((restoreNode node links).apply c).exec m = (r, m')) :
    (m' = m ∧ ∃ e, r = .error e) ∨
      node.kind.isEntry = false ∧ m.node? node.id = none ∧
        ∃ done, (restoreLinks c node.id [] links).exec (m.withNode node.unlinked) = (done, m') ∧
          r = done.map fun _ => .removeNode node.id := by
  unfold apply applyWith at h
  rw [Host.perform_method] at h
  cases hkind : node.kind.isEntry with
  | true =>
    rw [exec_bind_error (exec_insertNode_entry hkind m)] at h
    cases h
    exact Or.inl ⟨rfl, _, rfl⟩
  | false =>
    cases hnode : m.node? node.id with
    | some n =>
      rw [exec_bind_error (exec_insertNode_inUse hkind (by rw [hnode]; rfl))] at h
      cases h
      exact Or.inl ⟨rfl, _, rfl⟩
    | none =>
      rw [exec_bind_ok (exec_insertNode hkind hnode), exec_bind] at h
      refine Or.inr ⟨rfl, rfl, ?_⟩
      -- the inverse is the answer if all links are made, and an error stays what it is
      rcases hlinks : (restoreLinks c node.id [] links).exec (m.withNode node.unlinked) with ⟨e | ⟨⟩, m₁⟩
      · rw [hlinks] at h
        cases h
        exact ⟨_, rfl, rfl⟩
      · rw [hlinks] at h
        cases h
        exact ⟨_, rfl, rfl⟩

/-- Of the links that were there before, those are left in the end that no link of the restored node `Ousts`. -/
theorem exec_removeNode_restored (ha : m.Coherent c) (hkind : node.kind.isEntry = false)
    (hfree : m.node? node.id = none) (htouch : ∀ l ∈ links, l.touches node.id = true)
    (hrun : (restoreLinks c node.id [] links).exec (m.withNode node.unlinked) = (.ok (), m')) :
    ∃ n m'', (GraphM.removeNode node.id).exec m' = (.ok n, m'') ∧ m''.Coherent c ∧
      m''.shape = { m with nextId := max m.nextId (node.id + 1) }.shape ∧
      ∀ k, m''.Linked k ↔ m.Linked k ∧ ∀ l ∈ links, ¬ l.Ousts k := by
  have hinserted : (m.withNode node.unlinked).Coherent c := ha.withNode hkind hfree node.unlinked_unlinked
  obtain ⟨hm', hshape, hlinked⟩ := restoreLinks_ousts links [] hinserted htouch hrun
  obtain ⟨n, m'', hremove, hm'', hshape', hremoved⟩ :=
    exec_removeNode_of_withNode (a := node.unlinked) ha hfree hm' hshape
  refine ⟨n, m'', hremove, hm'', hshape', fun k => ?_⟩
  have hold : (m.withNode node.unlinked).Linked k ↔ m.Linked k :=
    Method.linked_withNode (a := node.unlinked) hfree node.unlinked_unlinked
  rw [hremoved, ← hold]
  -- the removal takes the links that touch the node, and none of the old ones does
  constructor
  · rintro ⟨hk, ht⟩
    exact (hlinked k ht).1 hk
  · rintro ⟨hk, ho⟩
    have ht : k.touches node.id = false := ha.mirrored.touches_eq_false hfree (hold.1 hk)
    exact ⟨(hlinked k ht).2 ⟨hk, ho⟩, ht⟩

/-- Taking `restoreNode` back gives the graph without the links that had to make room for those of the node, so it
gives the `Same` graph if there were none and only then. -/
theorem undo_restoreNode (hm : m.Consistent) (hc : m.Assignable c)
    (htouch : ∀ l ∈ links, l.touches node.id = true)
    (h : ((restoreNode node links).apply c).exec m = (.ok i, m')) :
    ∃ j m'', (i.apply c).exec m' = (.ok j, m'') ∧ m''.shape.Alike m.shape ∧
      (∀ k, k ∈ m''.links ↔ k ∈ m.links ∧ ∀ l ∈ links, ¬ l.Ousts k) ∧
      (m''.Same m ↔ ∀ l ∈ links, ∀ k ∈ m.links, ¬ l.Ousts k) := by
  obtain ⟨-, e, he⟩ | ⟨hkind, hfree, e | ⟨⟩, hrun, hi⟩ := exec_restoreNode_cases h
  · cases he
  · cases hi
  cases hi
  have ha : m.Coherent c := Method.coherent_iff.2 ⟨hm, hc⟩
  obtain ⟨n, m'', hremove, hm'', hshape, hlinked⟩ := exec_removeNode_restored ha hkind hfree htouch hrun
  have hlinks : ∀ k, k ∈ m''.links ↔ k ∈ m.links ∧ ∀ l ∈ links, ¬ l.Ousts k := by
    intro k
    rw [Method.mem_links_iff hm''.ordered, Method.mem_links_iff hm.ordered]
    exact hlinked k
  refine ⟨_, m'', exec_removeNode hremove, ⟨m.nextId, by rw [hshape]; rfl⟩, hlinks, fun hsame l hl k hk => ?_,
    fun hnone => ?_⟩
  · rw [← hsame.links_eq] at hk
    exact ((hlinks k).1 hk).2 l hl
  · -- with all links in place the two differ in the counter only
    have heq : m'' = { m with nextId := max m.nextId (node.id + 1) } := by
      refine Method.eq_of_shape_of_linked hm''.ordered hm''.mirrored ha.mirrored hshape fun k => ?_
      rw [hlinked]
      refine ⟨And.left, fun hk => ⟨hk, fun l hl => hnone l hl k ?_⟩⟩
      exact (Method.mem_links_iff hm.ordered).2 hk
    rw [heq]
    exact Method.Alike.same ⟨m.nextId, rfl⟩

/-- An argument that is assigned to the variable `x`. -/
def assigning : Method :=
  (Method.make "main" [.int] []).run (.ofPairs [])
    [.addNode (.setter ⟨"x", .int⟩) {}, .connect (.execOut 0 0) (.execIn 1 0),
      .connect (.dataOut 0 0) (.dataIn 1 0)]

/-- In `assigning`, a literal comes in the argument's place. When it is gone again, the assignment has no value. -/
theorem undo_restoreNode_assigning :
    assigning.Consistent ∧ assigning.Assignable (.ofPairs []) ∧
      ∃ m' j m'',
        ((restoreNode (.make 2 (.literal "1" .int) {}) [⟨.dataOut 2 0, .dataIn 1 0⟩]).apply (.ofPairs [])).exec
          assigning = (.ok (.removeNode 2), m') ∧
        ((removeNode 2).apply (.ofPairs [])).exec m' = (.ok j, m'') ∧
        ⟨.execOut 0 0, .execIn 1 0⟩ ∈ m''.links ∧ ⟨.dataOut 0 0, .dataIn 1 0⟩ ∉ m''.links ∧
        ¬ m''.Same assigning := by
  obtain ⟨hm, hc⟩ : assigning.Consistent ∧ assigning.Assignable (.ofPairs []) :=
    Method.coherent_iff.1 (Method.coherent_run (Method.coherent_make "main" [.int] [] (.ofPairs [])) _)
  have hrun : ((restoreNode (.make 2 (.literal "1" .int) {}) [⟨.dataOut 2 0, .dataIn 1 0⟩]).apply
      (.ofPairs [])).exec assigning = (.ok (.removeNode 2), _) := rfl
  obtain ⟨j, m'', hundo, -, hlinks, hsame⟩ := undo_restoreNode hm hc (by decide) hrun
  refine ⟨hm, hc, _, j, m'', hrun, hundo, ?_, ?_, ?_⟩
  · rw [hlinks]
    decide +kernel
  · rw [hlinks]
    decide +kernel
  · rw [hsame]
    decide +kernel

/-- A method that goes on from its entry to a call of `A`. -/
def calling : Method :=
  (Method.make "Run" [] []).run (.ofPairs [])
    [.addNode (.callMethod "A" [] []) {}, .connect (.execOut 0 0) (.execIn 1 0)]

/-- In `calling`, a branch comes between the entry and the call. Taking it back does not bring the link between
those two back. -/
theorem restoreNode_calling :
    calling.Consistent ∧ calling.Assignable (.ofPairs []) ∧
      ∃ m' j m'',
        ((restoreNode (.make 2 .ifElse {}) [⟨.execOut 0 0, .execIn 2 0⟩]).apply (.ofPairs [])).exec calling =
          (.ok (.removeNode 2), m') ∧
        ((removeNode 2).apply (.ofPairs [])).exec m' = (.ok j, m'') ∧ ¬ m''.Same calling ∧ m''.links = [] := by
  obtain ⟨hm, hc⟩ : calling.Consistent ∧ calling.Assignable (.ofPairs []) :=
    Method.coherent_iff.1 (Method.coherent_run (Method.coherent_make "Run" [] [] (.ofPairs [])) _)
  exact ⟨hm, hc, _, _, _, rfl, rfl, by decide +kernel, by decide +kernel⟩

end Edit

end VisualScript
