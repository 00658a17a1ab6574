import VisualScript.Proofs.Graph.Counter

/-!
# Edits and their inverses

Applying an edit gives another edit that takes the change back, and applying that one gives a third that
makes the change again. `Leads c e m m'` says that `e` is at home at `m` and takes it to `m'`, for good: it
succeeds, and what it returns leads from `m'` back to `m` in the same sense (`Leads.exec`). The counter is left
out of all this.

* `exec_reconnect`: a link that was severed can be made again and displaces nothing.
* `exec_plain`: the inverse of an edit of links, or of a removal, leads back.
* `apply_of_not_restores`: so does the inverse of any edit that restores no node, and if such an edit
  fails, it has changed nothing.
-/

namespace VisualScript

open EditM GraphM

/-! ### Making links again -/

namespace Method

variable {a b : Method} {c : TypeCatalog} {l : Link}

theorem eq_of_shape_of_linked (ha : a.Ordered) (hma : a.Mirrored) (hmb : b.Mirrored)
    (hs : a.shape = b.shape) (hl : ∀ k, a.Linked k ↔ b.Linked k) : a = b := by
  refine eq_of_shape_of_refs ha hs fun p q => ?_
  rw [hma.mem_refs_iff_linked, hmb.mem_refs_iff_linked]
  exact hl _

theorem checkConnection_of_admits (h : a.Admits c l) : a.checkConnection c l.source l.target = .ok l :=
  checkConnection_eq_ok_iff.2 ⟨h, Or.inl rfl⟩

end Method

namespace GraphM

variable {a b : Method} {c : TypeCatalog} {l : Link}

/-- In a part `b` of a graph `a`, `connect` makes a link of `a` and nothing has to make room for it. -/
theorem exec_reconnect (ha : a.Coherent c) (hb : b.Coherent c) (hs : b.shape = a.shape)
    (hsub : ∀ k, b.Linked k → a.Linked k) (hl : a.Linked l) :
    ∃ b', (connect c l.source l.target).exec b = (.ok none, b') ∧ b'.Coherent c ∧
      b'.shape = a.shape ∧ ∀ k, b'.Linked k ↔ k = l ∨ b.Linked k := by
  have hadm : b.Admits c l := (ha.admitted l hl).of_shape hs
  have hc := Method.checkConnection_of_admits hadm
  cases hlink : b.isLinked l with
  | true =>
    refine ⟨b, exec_connect_linked hc hlink, hb, hs, fun k => ⟨Or.inr, ?_⟩⟩
    rintro (rfl | hk)
    · exact (Method.isLinked_iff hb.mirrored).1 hlink
    · exact hk
  | false =>
    have hnl : ¬ b.Linked l := fun h => by
      rw [(Method.isLinked_iff hb.mirrored).2 h] at hlink
      cases hlink
    -- a link of `b` at the same end would be one of `a` too, where `l` is the only one
    have hsolo : ∀ k, b.Linked k → k.solo ≠ l.solo := by
      intro k hk he
      rw [ha.mirrored.eq_of_solo (hsub k hk) hl he] at hk
      exact hnl hk
    obtain ⟨b', he, hj⟩ := exec_connect hb.mirrored hc hlink
    have hnone : b.inPlaceOf l = none := by
      refine Option.eq_none_iff_forall_ne_some.2 fun d hd => ?_
      obtain ⟨hd, hs⟩ := (hb.mirrored.inPlaceOf_eq_some_iff hadm.oriented).1 hd
      exact hsolo d hd hs
    rw [hnone] at he
    refine ⟨b', he, hb.joined hadm hj, hj.shape.trans hs, fun k => ?_⟩
    rw [hj.linked_iff hb.mirrored hadm.oriented]
    exact or_congr_right ⟨And.left, fun hk => ⟨hk, hsolo k hk⟩⟩

end GraphM

/-! ### Single edits -/

namespace Edit

variable {c : TypeCatalog} {undo undo' : Edit → Method → Method} {m : Method}

def isBatch : Edit → Bool
  | .batch _ => true
  | _ => false

/-- Edits of links, and removals: what is left when `addNode`, `restoreNode` and `batch` are out. -/
def Plain : Edit → Prop
  | .removeNode _ | .connect _ _ | .unlink _ | .disconnect _ => True
  | .addNode _ _ | .restoreNode _ _ | .batch _ => False

mutual

/-- The edit has a `restoreNode` in it, at some depth. -/
def restores : Edit → Bool
  | .restoreNode _ _ => true
  | .batch edits => anyRestores edits
  | _ => false

def anyRestores : List Edit → Bool
  | [] => false
  | e :: es => e.restores || anyRestores es

end

/-- Only a `batch` asks `undo` to take anything back. -/
theorem applyWith_eq {e : Edit} (he : e.isBatch = false) : applyWith undo c e = applyWith undo' c e := by
  cases e with
  | batch => cases he
  | _ => unfold applyWith; rfl

/-- An edit that succeeds hands its inverse `i` on to those that follow. -/
theorem exec_applyAll_ok {e i : Edit} {m' : Method} (h : (applyWith undo c e).exec m = (.ok i, m'))
    (done es : List Edit) :
    (applyAll undo c done (e :: es)).exec m = (applyAll undo c (i :: done) es).exec m' := by
  conv_lhs => unfold applyAll
  exact exec_bind_ok (by rw [exec_tryCatch, h]) _

/-- One that fails has those before it taken back by `undo`, last one first. -/
theorem exec_applyAll_error {e : Edit} {error : GraphError} {m' : Method}
    (h : (applyWith undo c e).exec m = (.error error, m')) (done es : List Edit) :
    (applyAll undo c done (e :: es)).exec m = (.error error, done.foldl (fun m i => undo i m) m') := by
  unfold applyAll
  exact exec_bind_error (by rw [exec_tryCatch, h]; rfl) _

theorem Plain.isBatch {e : Edit} (he : e.Plain) : e.isBatch = false := by
  cases e with
  | batch => exact he.elim
  | _ => rfl

theorem steady_single {e : Edit} (hadd : ∀ kind position, e ≠ .addNode kind position)
    (hbatch : ∀ edits, e ≠ .batch edits) : Steady (applyWith undo c e) := fun a b h =>
  have hsteps := couples_single (Method.coupled_alike c) (e.puts_of_forall fun _ => trivial) hadd hbatch a b h
  ⟨hsteps.1, hsteps.2.1, fun _ _ => trivial⟩

theorem steady_restore (node : Node) (links : List Link) :
    Steady (applyWith undo c (.restoreNode node links)) := by
  refine steady_single ?_ ?_
  · rintro kind position ⟨⟩
  · rintro edits ⟨⟩

theorem steady_plain {e : Edit} (he : e.Plain) : Steady (applyWith undo c e) := by
  refine steady_single ?_ ?_
  · rintro kind position rfl
    exact he
  · rintro edits rfl
    exact he

/-! What each of them does to a coherent graph. -/

theorem exec_connect_error {a b : PinRef} {e : GraphError} (hc : m.checkConnection c a b = .error e) :
    (applyWith undo c (.connect a b)).exec m = (.error e, m) := by
  unfold applyWith
  rw [exec_get_bind, Host.present_method, hc]
  rfl

theorem exec_connect_linked {a b : PinRef} {l : Link} (hc : m.checkConnection c a b = .ok l)
    (hl : m.isLinked l = true) :
    (applyWith undo c (.connect a b)).exec m = (.ok (.batch []), m) := by
  unfold applyWith
  rw [exec_get_bind, Host.present_method, hc]
  show (if m.isLinked l = true then _ else _ : GraphM Edit).exec m = _
  rw [if_pos hl]
  rfl

theorem exec_connect {a b : PinRef} {l : Link} {m' : Method} {r : Option Link}
    (hc : m.checkConnection c a b = .ok l) (hl : m.isLinked l = false)
    (hr : (GraphM.connect c a b).exec m = (.ok r, m')) :
    (applyWith undo c (.connect a b)).exec m =
      (.ok (.batch (.unlink l :: r.toList.map relink)), m') := by
  unfold applyWith
  rw [exec_get_bind, Host.present_method, hc]
  show (if m.isLinked l = true then _ else _ : GraphM Edit).exec m = _
  rw [hl, if_neg Bool.false_ne_true, Host.perform_method, exec_bind_ok hr]
  rfl

theorem exec_unlink {l : Link} {m' : Method} {r : Bool}
    (hr : (GraphM.unlink l).exec m = (.ok r, m')) :
    (applyWith undo c (.unlink l)).exec m = (.ok (if r then relink l else .batch []), m') := by
  unfold applyWith
  rw [Host.perform_method, exec_bind_ok hr]
  cases r <;> rfl

theorem exec_disconnect {pin : PinRef} {m' : Method} {ls : List Link}
    (hr : (GraphM.disconnect pin).exec m = (.ok ls, m')) :
    (applyWith undo c (.disconnect pin)).exec m = (.ok (.batch (ls.map relink)), m') := by
  unfold applyWith
  rw [Host.perform_method, exec_bind_ok hr]
  rfl

theorem exec_removeNode {id : NodeId} {n : Node} {m' : Method}
    (hr : (GraphM.removeNode id).exec m = (.ok n, m')) :
    (applyWith undo c (.removeNode id)).exec m = (.ok (.restoreNode n (m.nodeLinks id)), m') := by
  unfold applyWith
  rw [exec_get_bind, Host.perform_method, exec_bind_ok hr]
  rfl

end Edit

/-! ### Edits that lead back and forth -/

/-- Takes nothing back. Edits other than a `batch` do not ask for more (`Edit.applyWith_eq`). -/
def idle (_ : Edit) (m : Method) : Method := m

mutual

/-- The edit takes the first method to the second, counters aside (`Method.Alike`), and what it returns takes it
back. -/
inductive Leads (c : TypeCatalog) : Edit → Method → Method → Prop
  | plain {e i : Edit} {a b m m' : Method} (he : e.Plain) (ha : a.Coherent c)
      (hrun : (e.applyWith idle c).exec a = (.ok i, b)) (hm : a.Alike m) (hm' : b.Alike m') :
      Leads c e m m'
  /-- What is returned by `removeNode`. -/
  | restore {id : NodeId} {i : Edit} {a b m m' : Method} (ha : a.Coherent c)
      (hrun : ((Edit.removeNode id).applyWith idle c).exec a = (.ok i, b)) (hm : b.Alike m)
      (hm' : a.Alike m') : Leads c i m m'
  | batch {es : List Edit} {m m' : Method} (h : Chain c es m m') : Leads c (.batch es) m m'

/-- The edits, one after the other, take the first method to the second, each as `Leads` says. -/
inductive Chain (c : TypeCatalog) : List Edit → Method → Method → Prop
  | nil {m m' : Method} (h : m.Alike m') : Chain c [] m m'
  | cons {e : Edit} {es : List Edit} {m m' m'' : Method} (h : Leads c e m m')
      (h' : Chain c es m' m'') : Chain c (e :: es) m m''

end

section Leads

variable {c : TypeCatalog}

mutual

theorem Leads.alike : ∀ {e : Edit} {m m' : Method}, Leads c e m m' →
    ∀ {a a' : Method}, m.Alike a → m'.Alike a' → Leads c e a a'
  | _, _, _, .plain he ha hrun hm hm', _, _, h, h' => .plain he ha hrun (hm.trans h) (hm'.trans h')
  | _, _, _, .restore ha hrun hm hm', _, _, h, h' => .restore ha hrun (hm.trans h) (hm'.trans h')
  | _, _, _, .batch hc, _, _, h, h' => .batch (hc.alike h h')

theorem Chain.alike : ∀ {es : List Edit} {m m' : Method}, Chain c es m m' →
    ∀ {a a' : Method}, m.Alike a → m'.Alike a' → Chain c es a a'
  | _, _, _, .nil hm, _, _, h, h' => .nil (h.symm.trans (hm.trans h'))
  | _, _, _, .cons hl hc, _, _, h, h' => .cons (hl.alike h (.refl _)) (hc.alike (.refl _) h')

end

variable {a b : Method} {l : Link}

/-- In a part `b` of a graph `a`, the edit `relink` of a link of `a` leads to a larger part. -/
theorem leads_relink (ha : a.Coherent c) (hb : b.Coherent c) (hs : b.shape = a.shape)
    (hsub : ∀ k, b.Linked k → a.Linked k) (hl : a.Linked l) :
    ∃ b', Leads c (.relink l) b b' ∧ b'.Coherent c ∧ b'.shape = a.shape ∧
      ∀ k, b'.Linked k ↔ k = l ∨ b.Linked k := by
  obtain ⟨b', he, hb', hs', hlk⟩ := exec_reconnect ha hb hs hsub hl
  have hc := Method.checkConnection_of_admits ((ha.admitted l hl).of_shape hs)
  refine ⟨b', ?_, hb', hs', hlk⟩
  cases hlink : b.isLinked l with
  | true =>
    rw [GraphM.exec_connect_linked hc hlink] at he
    cases he
    exact .plain trivial hb (Edit.exec_connect_linked hc hlink) (.refl _) (.refl _)
  | false => exact .plain trivial hb (Edit.exec_connect hc hlink he) (.refl _) (.refl _)

/-- Making all missing links leads from a part `b` of a graph to the whole `a`. -/
theorem chain_relinks (ha : a.Coherent c) (ls : List Link) (b : Method) (hb : b.Coherent c)
    (hs : b.shape = a.shape) (hls : ∀ k, a.Linked k ↔ b.Linked k ∨ k ∈ ls) :
    Chain c (ls.map .relink) b a := by
  -- `b` and the links still to make are all of `a`, and stay so from link to link
  induction ls generalizing b with
  | nil =>
    have heq : b = a :=
      Method.eq_of_shape_of_linked hb.ordered hb.mirrored ha.mirrored hs (by simp [hls])
    rw [heq]
    exact .nil (.refl _)
  | cons l ls ih =>
    obtain ⟨b', hlead, hb', hs', hlk⟩ := leads_relink ha hb hs (fun k hk => (hls k).2 (Or.inl hk))
      ((hls l).2 (Or.inr List.mem_cons_self))
    refine .cons hlead (ih b' hb' hs' fun k => ?_)
    rw [hls, hlk, List.mem_cons]
    tauto

theorem leads_unlink (ha : a.Coherent c) (hl : a.Linked l) :
    ∃ b, Leads c (.unlink l) a b ∧ (GraphM.unlink l).exec a = (.ok true, b) ∧
      b.Coherent c ∧ b.shape = a.shape ∧ ∀ k, b.Linked k ↔ a.Linked k ∧ k ≠ l := by
  obtain ⟨b, he, hs⟩ := GraphM.exec_unlink ha.mirrored ((Method.isLinked_iff ha.mirrored).2 hl)
  exact ⟨b, .plain trivial ha (Edit.exec_unlink he) (.refl _) (.refl _), he, ha.severed hs, hs.shape,
    fun k => hs.linked_solo_iff ha.mirrored hl⟩

/-- A link that was made is severed again, and what made room for it (`inPlaceOf`) comes back. -/
theorem chain_of_joined (ha : a.Coherent c) (hl : a.Admits c l) (hn : ¬ a.Linked l)
    (hj : Joined l a b) : Chain c (.unlink l :: (a.inPlaceOf l).toList.map .relink) b a := by
  have hlinked : ∀ k, b.Linked k ↔ k = l ∨ (a.Linked k ∧ k.solo ≠ l.solo) :=
    fun k => hj.linked_iff ha.mirrored hl.oriented
  have hb : b.Coherent c := ha.joined hl hj
  obtain ⟨b', hlead, -, hb', hs', hlk⟩ := leads_unlink hb ((hlinked l).2 (Or.inl rfl))
  refine .cons hlead (chain_relinks ha _ b' hb' (hs'.trans hj.shape) fun k => ?_)
  rw [hlk, hlinked, Option.mem_toList, ha.mirrored.inPlaceOf_eq_some_iff hl.oriented]
  have hne : a.Linked k → k ≠ l := fun hk he => hn (he ▸ hk)
  tauto

/-- A `pin` that was severed gets its links back. -/
theorem chain_of_severed {pin : PinRef} (ha : a.Coherent c) (hs : Severed (· = pin) a b) :
    Chain c (((a.refs pin).map pin.linkTo).map .relink) b a := by
  refine chain_relinks ha _ b (ha.severed hs) hs.shape fun k => ?_
  rw [hs.linked_iff, List.mem_map]
  constructor
  · intro hk
    -- a link of `a` is at the pin and made again, or it was not severed
    by_cases hp : k.source = pin ∨ k.target = pin
    · exact Or.inr (ha.mirrored.exists_linkTo hk hp)
    · exact Or.inl ⟨hk, not_or.1 hp⟩
  · rintro (⟨hk, -⟩ | ⟨q, hq, rfl⟩)
    · exact hk
    · exact ha.mirrored.mem_refs_iff_linked.1 hq

/-- A `Plain` edit fails and changes nothing, or its inverse leads back. -/
theorem exec_plain {e : Edit} (he : e.Plain) (ha : a.Coherent c) :
    (∃ i b, (e.applyWith idle c).exec a = (.ok i, b) ∧ Leads c i b a) ∨
      ∃ error, (e.applyWith idle c).exec a = (.error error, a) := by
  cases e with
  | removeNode id =>
    by_cases herr : id = a.entry ∨ a.node? id = none
    · obtain ⟨error, he⟩ := GraphM.exec_removeNode_error herr
      refine Or.inr ⟨error, ?_⟩
      unfold Edit.applyWith
      rw [exec_get_bind, Host.perform_method, exec_bind_error he]
    · obtain ⟨hid, hn⟩ := not_or.1 herr
      obtain ⟨n, hn⟩ := Option.ne_none_iff_exists'.1 hn
      obtain ⟨b, hr, -⟩ := GraphM.exec_removeNode ha.mirrored hn hid
      have hrun : ((Edit.removeNode id).applyWith idle c).exec a = _ := Edit.exec_removeNode hr
      exact Or.inl ⟨_, b, hrun, .restore ha hrun (.refl _) (.refl _)⟩
  | connect x y =>
    cases hc : a.checkConnection c x y with
    | error error => exact Or.inr ⟨error, Edit.exec_connect_error hc⟩
    | ok l =>
      refine Or.inl ?_
      cases hl : a.isLinked l with
      | true => exact ⟨_, a, Edit.exec_connect_linked hc hl, .batch (.nil (.refl _))⟩
      | false =>
        -- the inverse is a batch: the link goes, and what made room for it comes back
        obtain ⟨b, hr, hj⟩ := GraphM.exec_connect ha.mirrored hc hl
        have hn : ¬ a.Linked l := fun h => by
          rw [(Method.isLinked_iff ha.mirrored).2 h] at hl
          cases hl
        exact ⟨_, b, Edit.exec_connect hc hl hr,
          .batch (chain_of_joined ha (Method.checkConnection_eq_ok_iff.1 hc).1 hn hj)⟩
  | unlink l =>
    refine Or.inl ?_
    cases hl : a.isLinked l with
    | false => exact ⟨_, a, Edit.exec_unlink (GraphM.exec_unlink_false hl), .batch (.nil (.refl _))⟩
    | true =>
      have hlk : a.Linked l := (Method.isLinked_iff ha.mirrored).1 hl
      -- `a` without `l` is a part of `a`, and the missing link is made again
      obtain ⟨b, -, hr, hb, hs, hlinked⟩ := leads_unlink ha hlk
      obtain ⟨a', hlead, ha', hs', hlinked'⟩ :=
        leads_relink ha hb hs (fun k hk => ((hlinked k).1 hk).1) hlk
      have heq : a' = a := by
        refine Method.eq_of_shape_of_linked ha'.ordered ha'.mirrored ha.mirrored hs' fun k => ?_
        rw [hlinked', hlinked]
        by_cases hk : k = l
        · simp [hk, hlk]
        · simp [hk]
      exact ⟨_, b, Edit.exec_unlink hr, heq ▸ hlead⟩
  | disconnect pin =>
    cases hp : a.containsPin pin with
    | false =>
      obtain ⟨error, he⟩ := GraphM.exec_disconnect_error hp
      refine Or.inr ⟨error, ?_⟩
      unfold Edit.applyWith
      rw [Host.perform_method, exec_bind_error he]
    | true =>
      obtain ⟨b, hr, hs⟩ := GraphM.exec_disconnect ha.mirrored hp
      exact Or.inl ⟨_, b, Edit.exec_disconnect hr, .batch (chain_of_severed ha hs)⟩
  | addNode => exact he.elim
  | restoreNode => exact he.elim
  | batch => exact he.elim

theorem leads_of_plain {e i : Edit} (he : e.Plain) (ha : a.Coherent c)
    (hrun : (e.applyWith idle c).exec a = (.ok i, b)) : Leads c i b a := by
  rcases exec_plain he ha with ⟨i', b', hrun', hlead⟩ | ⟨error, hrun'⟩
  · rw [hrun] at hrun'
    cases hrun'
    exact hlead
  · rw [hrun] at hrun'
    cases hrun'

/-- `restoreLinks` makes the links that `b` lacks of `a`, and nothing has to be taken back. -/
theorem exec_restoreLinks {id : NodeId} (ha : a.Coherent c) (ls displaced : List Link) (b : Method)
    (hb : b.Coherent c) (hs : b.shape = a.shape) (hls : ∀ k, a.Linked k ↔ b.Linked k ∨ k ∈ ls) :
    (Edit.restoreLinks c id displaced ls).exec b = (.ok (), a) := by
  induction ls generalizing b displaced with
  | nil =>
    have heq : b = a :=
      Method.eq_of_shape_of_linked hb.ordered hb.mirrored ha.mirrored hs (by simp [hls])
    rw [heq]
    rfl
  | cons l ls ih =>
    obtain ⟨b', he, hb', hs', hlk⟩ := exec_reconnect ha hb hs (fun k hk => (hls k).2 (Or.inl hk))
      ((hls l).2 (Or.inr List.mem_cons_self))
    unfold Edit.restoreLinks
    refine Eq.trans (exec_bind_ok (by rw [exec_tryCatch, Host.perform_method, he]) _) (ih _ b' hb' hs' fun k => ?_)
    rw [hls, hlk, List.mem_cons]
    tauto

theorem mem_nodeLinks_iff {id : NodeId} {k : Link} (ha : a.Ordered) :
    k ∈ a.nodeLinks id ↔ a.Linked k ∧ (k.source.node = id ∨ k.target.node = id) := by
  unfold Method.nodeLinks Link.touches
  rw [List.mem_filter, Method.mem_links_iff ha]
  simp

/-- A removed node that is put back `unlinked` makes the graph whole again but for those links. -/
theorem reinserted {id : NodeId} {n : Node} (ha : a.Coherent c) (hn : a.node? id = some n)
    (hid : id ≠ a.entry) (hs : b.shape = a.shape.without id)
    (hr : ∀ p q, q ∈ b.refs p ↔ q ∈ a.refs p ∧ p.node ≠ id ∧ q.node ≠ id) :
    n.kind.isEntry = false ∧ b.node? n.id = none ∧ (b.withNode n.unlinked).Coherent c ∧
      (b.withNode n.unlinked).shape = a.shape ∧
      ∀ k, a.Linked k ↔ (b.withNode n.unlinked).Linked k ∨ k ∈ a.nodeLinks id := by
  obtain rfl : n.id = id := Method.id_of_node? hn
  have hkind : n.kind.isEntry = false := by
    rw [Bool.eq_false_iff]
    intro hk
    exact hid (ha.onlyEntry n (Method.mem_of_node? hn) hk)
  have hfree : b.node? n.id = none := by
    have hmap : (b.node? n.id).map Node.unlinked = none := by
      rw [← Method.node?_shape, hs, Method.node?_without, if_pos rfl]
    exact Option.map_eq_none_iff.1 hmap
  refine ⟨hkind, hfree, ?_, ?_, fun k => ?_⟩
  · exact (ha.removed hid hs hr).withNode hkind hfree n.unlinked_unlinked
  · rw [Method.shape_withNode, Node.unlinked_unlinked, hs]
    exact (Method.identified_shape.2 ha.toIdentified).withNode_without
      (List.mem_map_of_mem (Method.mem_of_node? hn))
  · -- the node comes without links, so those that touch it are missing and no others
    have hk : (b.withNode n.unlinked).Linked k ↔
        a.Linked k ∧ k.source.node ≠ n.id ∧ k.target.node ≠ n.id := by
      unfold Method.Linked
      rw [Method.refs_withNode (a := n.unlinked) hfree n.unlinked_unlinked, hr]
      tauto
    rw [hk, mem_nodeLinks_iff ha.ordered]
    tauto

/-- What `removeNode` returns brings the node back, with its links. -/
theorem exec_restore {id : NodeId} {i : Edit} (ha : a.Coherent c)
    (hrun : ((Edit.removeNode id).applyWith idle c).exec a = (.ok i, b)) :
    ∃ n ls, i = .restoreNode n ls ∧
      ∀ undo, (i.applyWith undo c).exec b = (.ok (.removeNode id), a) := by
  by_cases herr : id = a.entry ∨ a.node? id = none
  · obtain ⟨e, he⟩ := GraphM.exec_removeNode_error herr
    unfold Edit.applyWith at hrun
    rw [exec_get_bind, Host.perform_method, exec_bind_error he] at hrun
    cases hrun
  obtain ⟨hid, hn⟩ := not_or.1 herr
  obtain ⟨n, hn⟩ := Option.ne_none_iff_exists'.1 hn
  obtain ⟨b', hr, hs, hrefs⟩ := GraphM.exec_removeNode ha.mirrored hn hid
  rw [Edit.exec_removeNode hr] at hrun
  cases hrun
  refine ⟨_, _, rfl, fun undo => ?_⟩
  -- the restored links are all there is between the graph without the node and the one with it
  obtain ⟨hkind, hfree, hg, hshape, hlinked⟩ := reinserted ha hn hid hs hrefs
  have hnid : n.id = id := Method.id_of_node? hn
  have hinsert := GraphM.exec_insertNode (a := n.unlinked) hkind hfree
  rw [Node.unlinked_unlinked] at hinsert
  unfold Edit.applyWith
  rw [Host.perform_method, exec_bind_ok hinsert, exec_bind_ok (exec_restoreLinks ha _ [] _ hg hshape hlinked),
    ← hnid]
  rfl

/-! ### Leading somewhere is succeeding -/

variable {undo : Edit → Method → Method}

mutual

/-- An edit that `Leads` somewhere succeeds there, at any counter, and what it returns leads back. -/
theorem Leads.exec (hu : ∀ e m, Method.Coherent m c → (undo e m).Coherent c) :
    ∀ {e : Edit} {m m' : Method}, Leads c e m m' → ∀ {x : Method}, x.Coherent c → m.Alike x →
      ∃ i x', (e.applyWith undo c).exec x = (.ok i, x') ∧ m'.Alike x' ∧ Leads c i m' m
  | _, _, _, @Leads.plain _ e i a b m m' he ha hrun hm hm', x, hx, h => by
    have hrun' : (e.applyWith undo c).exec a = (.ok i, b) := by
      rw [show e.applyWith undo c = e.applyWith idle c from Edit.applyWith_eq he.isBatch, hrun]
    obtain ⟨x', hx', hb⟩ := (Edit.steady_plain he).exec_ok (hm.trans h) hrun'
    exact ⟨_, x', hx', hm'.symm.trans hb, (leads_of_plain he ha hrun).alike hm' hm⟩
  | e, m, m', .restore ha hrun hm hm', x, hx, h => by
    -- the inverse is the removal itself, which leads from where the node is back
    obtain ⟨n, ls, rfl, hback⟩ := exec_restore ha hrun
    obtain ⟨x', hx', hb⟩ := (Edit.steady_restore n ls).exec_ok (hm.trans h) (hback undo)
    exact ⟨_, x', hx', hm'.symm.trans hb, .plain trivial ha hrun hm' hm⟩
  | _, m, m', .batch hc, x, hx, h => by
    obtain ⟨done, x', he, hm', hback⟩ := hc.exec hu hx h (.nil (.refl m))
    refine ⟨.batch done, x', ?_, hm', .batch hback⟩
    unfold Edit.applyWith
    exact he

/-- `done` are the inverses so far, and they lead back to the `start` of the chain. -/
theorem Chain.exec (hu : ∀ e m, Method.Coherent m c → (undo e m).Coherent c) :
    ∀ {es : List Edit} {m m' : Method}, Chain c es m m' →
      ∀ {x start : Method} {done : List Edit}, x.Coherent c → m.Alike x → Chain c done m start →
        ∃ done' x', (Edit.applyAll undo c done es).exec x = (.ok (.batch done'), x') ∧
          m'.Alike x' ∧ Chain c done' m' start
  | _, m, m', .nil hm, x, start, done, hx, h, hdone =>
    ⟨done, x, rfl, hm.symm.trans h, hdone.alike hm (.refl _)⟩
  | _, m, m', @Chain.cons _ e es _ _ _ hl hc, x, start, done, hx, h, hdone => by
    -- the inverse of the first edit goes in front: it is the next to be taken back
    obtain ⟨i, x₁, he, h₁, hi⟩ := hl.exec hu hx h
    have hx₁ : x₁.Coherent c := by
      have hk := Edit.coherent_applyWith hu e hx
      rw [he] at hk
      exact hk
    obtain ⟨done', x', hes, hm', hback⟩ := hc.exec hu hx₁ h₁ (.cons hi hdone)
    exact ⟨done', x', (Edit.exec_applyAll_ok he done es).trans hes, hm', hback⟩

end

/-! ### Edits that restore no node -/

/-- A node that came in by `withNode` can be removed, with all the links that it has by then. -/
theorem exec_removeNode_of_withNode {m m' : Method} {a : Node} (hm : m.Coherent c)
    (hfree : m.node? a.id = none) (hm' : m'.Coherent c) (hshape : m'.shape = (m.withNode a).shape) :
    ∃ n m'', (GraphM.removeNode a.id).exec m' = (.ok n, m'') ∧ m''.Coherent c ∧
      m''.shape = { m with nextId := max m.nextId (a.id + 1) }.shape ∧
      ∀ k, m''.Linked k ↔ m'.Linked k ∧ k.touches a.id = false := by
  have hnode : (m'.node? a.id).map Node.unlinked = some a.unlinked := by
    rw [← Method.node?_shape, hshape, Method.node?_shape, Method.node?_withNode hfree, if_pos rfl]
    rfl
  obtain ⟨n, hn, -⟩ := Option.map_eq_some_iff.1 hnode
  -- the entry was there before the node came
  have hentry : a.id ≠ m'.entry := by
    intro he
    obtain ⟨k, hk, -⟩ := hm.entry
    have heq : m'.entry = m.entry := by
      show m'.shape.entry = (m.withNode a).shape.entry
      rw [hshape]
    rw [← heq, ← he, hfree] at hk
    cases hk
  obtain ⟨m'', hr, hs, hrefs⟩ := GraphM.exec_removeNode hm'.mirrored hn hentry
  refine ⟨n.unlinked, m'', hr, hm'.removed hentry hs hrefs, ?_, fun k => ?_⟩
  · rw [hs, hshape, ← Method.shape_without, Method.without_withNode hfree]
  · unfold Method.Linked Link.touches
    rw [hrefs]
    simp [and_assoc]

/-- A new node can be removed again, which leaves the graph as it was but for `nextId`. -/
theorem leads_of_addNode {kind : NodeKind} {position : Position} (ha : a.Coherent c)
    (hk : kind.isEntry = false) :
    Leads c (.removeNode a.nextId) (a.withNode (Node.make a.nextId kind position)) a := by
  set new : Node := Node.make a.nextId kind position with hnew
  have hfree : a.node? new.id = none :=
    Method.node?_eq_none_iff.2 fun n hn => Nat.ne_of_lt (ha.bounded n hn)
  have hunlinked : new.unlinked = new := Node.unlinked_make _ _ _
  have hx : (a.withNode new).Coherent c := ha.withNode hk hfree hunlinked
  obtain ⟨n, b, hr, hb, hshape, hlinked⟩ := exec_removeNode_of_withNode ha hfree hx rfl
  have heq : b = { a with nextId := max a.nextId (new.id + 1) } := by
    refine Method.eq_of_shape_of_linked hb.ordered hb.mirrored ha.mirrored hshape fun k => ?_
    rw [hlinked, Method.linked_withNode hfree hunlinked]
    exact ⟨And.left, fun hk => ⟨hk, ha.mirrored.touches_eq_false hfree hk⟩⟩
  refine .plain trivial hx (Edit.exec_removeNode hr) (.refl _) ?_
  rw [heq]
  exact Method.Alike.symm ⟨_, rfl⟩

/-- A way of taking edits back that works for those that `Leads` says lead somewhere. -/
structure TakesBack (c : TypeCatalog) (undo : Edit → Method → Method) : Prop where
  coherent : ∀ e m, Method.Coherent m c → (undo e m).Coherent c
  alike : ∀ {e : Edit} {m m' x : Method}, Leads c e m m' → x.Coherent c → m.Alike x → m'.Alike (undo e x)

theorem takesBack_rollBack (turns : Nat) : TakesBack c (Edit.rollBack c (turns + 1)) where
  coherent := Edit.coherent_rollBack (turns + 1)
  alike h hx hm := by
    obtain ⟨i, x', he, hm', -⟩ := h.exec (Edit.coherent_rollBack turns) hx hm
    unfold Edit.rollBack
    rw [he]
    exact hm'

theorem TakesBack.foldl (hu : TakesBack c undo) {done : List Edit} {m start x : Method}
    (h : Chain c done m start) (hx : x.Coherent c) (hm : m.Alike x) :
    start.Alike (done.foldl (fun m i => undo i m) x) := by
  induction done generalizing m x with
  | nil =>
    cases h with
    | nil h => exact h.symm.trans hm
  | cons i is ih =>
    cases h with
    | cons hi his => exact ih his (hu.coherent i x hx) (hu.alike hi hx hm)

theorem exec_plain_cases {e : Edit} {x : Method} (he : e.Plain) (hx : x.Coherent c) :
    (∃ i x', (e.applyWith undo c).exec x = (.ok i, x') ∧ Leads c i x' x) ∨
      ∃ error x', (e.applyWith undo c).exec x = (.error error, x') ∧ x.Alike x' := by
  rw [show e.applyWith undo c = e.applyWith idle c from Edit.applyWith_eq he.isBatch]
  rcases exec_plain he hx with hok | ⟨error, herr⟩
  · exact Or.inl hok
  · exact Or.inr ⟨error, x, herr, .refl _⟩

mutual

/-- An edit without `restores` can be taken back, or has failed and left the graph as it was. -/
theorem exec_of_not_restores (hu : TakesBack c undo) :
    ∀ e : Edit, e.restores = false → ∀ {x : Method}, x.Coherent c →
      (∃ i x', (e.applyWith undo c).exec x = (.ok i, x') ∧ Leads c i x' x) ∨
        ∃ error x', (e.applyWith undo c).exec x = (.error error, x') ∧ x.Alike x'
  | .addNode kind position, _, x, hx => by
    unfold Edit.applyWith
    cases hk : kind.isEntry with
    | true => exact Or.inr ⟨_, x, exec_bind_error (exec_addNode_error hk) _, .refl _⟩
    | false => exact Or.inl ⟨_, _, exec_bind_ok (exec_addNode hk hx.bounded) _, leads_of_addNode hx hk⟩
  | .restoreNode _ _, he, _, _ => by cases he
  | .removeNode id, _, x, hx => exec_plain_cases (e := .removeNode id) trivial hx
  | .connect a b, _, x, hx => exec_plain_cases (e := .connect a b) trivial hx
  | .unlink l, _, x, hx => exec_plain_cases (e := .unlink l) trivial hx
  | .disconnect pin, _, x, hx => exec_plain_cases (e := .disconnect pin) trivial hx
  | .batch es, he, x, hx => by
    unfold Edit.restores at he
    unfold Edit.applyWith
    rcases exec_of_not_anyRestores hu es he hx (.nil (.refl x)) with ⟨done, x', hrun, hback⟩ | herr
    · exact Or.inl ⟨_, x', hrun, .batch hback⟩
    · exact Or.inr herr

/-- The list case: if an edit fails, `done` is taken back, which leads to the `start`. -/
theorem exec_of_not_anyRestores (hu : TakesBack c undo) :
    ∀ es : List Edit, Edit.anyRestores es = false →
      ∀ {x start : Method} {done : List Edit}, x.Coherent c → Chain c done x start →
        (∃ done' x', (Edit.applyAll undo c done es).exec x = (.ok (.batch done'), x') ∧
            Chain c done' x' start) ∨
          ∃ error x', (Edit.applyAll undo c done es).exec x = (.error error, x') ∧ start.Alike x'
  | [], _, x, start, done, hx, hdone => Or.inl ⟨done, x, rfl, hdone⟩
  | e :: es, he, x, start, done, hx, hdone => by
    unfold Edit.anyRestores at he
    obtain ⟨he, hes⟩ := Bool.or_eq_false_iff.1 he
    have hx' := Edit.coherent_applyWith hu.coherent e hx
    rcases exec_of_not_restores hu e he hx with ⟨i, x₁, hrun, hi⟩ | ⟨error, x₁, hrun, hm⟩
    · rw [Edit.exec_applyAll_ok hrun]
      rw [hrun] at hx'
      exact exec_of_not_anyRestores hu es hes hx' (.cons hi hdone)
    · rw [hrun] at hx'
      exact Or.inr ⟨error, _, Edit.exec_applyAll_error hrun done es, hu.foldl hdone hx' hm⟩

end

theorem apply_of_not_restores {e : Edit} {x : Method} (he : e.restores = false) (hx : x.Coherent c) :
    (∃ i x', (e.apply c).exec x = (.ok i, x') ∧ Leads c i x' x) ∨
      ∃ error x', (e.apply c).exec x = (.error error, x') ∧ x.Alike x' :=
  exec_of_not_restores (takesBack_rollBack (e.depth + 1)) e he hx

theorem Leads.apply {e : Edit} {m m' x : Method} (h : Leads c e m m') (hx : x.Coherent c)
    (hm : m.Alike x) :
    ∃ i x', (e.apply c).exec x = (.ok i, x') ∧ m'.Alike x' ∧ Leads c i m' m :=
  h.exec (Edit.coherent_rollBack e.turns) hx hm

end Leads

end VisualScript
