import VisualScript.Proofs.Graph.Consistency

/-!
# What operations on links do

Each operation on a consistent graph, told in terms of `links` and of the shape, which is all that a
graph has besides its links. Both together leave nothing open: `Relinked base m' L` says that `m'` is `base` with
the links `L`, and there is only one such graph (`Relinked.unique`).

* `connect` makes its link in the place of the one at the same end for one link, if any, and returns that
  (`Gains`, `connect_effect`). The order of the pins does not matter.
* `unlink`, `disconnect`, `disconnectAll` and `removeNode` take away the links that they are about and no
  others. What they return names each of those once (`Sheds`, `severing_effects`), although a node is
  disconnected pin by pin, and a link from a node to itself is at two of its pins.
-/

namespace VisualScript

open EditM

namespace Link

/-- Whether `k` is at the pin of `l` that has room for one link: its output for control, its input for a value. -/
def SharesEnd (k l : Link) : Prop := if l.isExec then k.source = l.source else k.target = l.target

instance (k l : Link) : Decidable (k.SharesEnd l) :=
  inferInstanceAs (Decidable (if l.isExec then k.source = l.source else k.target = l.target))

theorem Oriented.sharesEnd_iff {k l : Link} (hk : k.Oriented) (hl : l.Oriented) :
    k.SharesEnd l ↔ k.solo = l.solo := by
  unfold SharesEnd isExec
  rcases hk.cases with ⟨k1, k2, k3, -⟩ | ⟨k1, k2, k3, -⟩ <;>
    rcases hl.cases with ⟨l1, l2, l3, -⟩ | ⟨l1, l2, l3, -⟩ <;> rw [k3, l3, l1]
  · exact Iff.rfl
  -- a link for control and one for a value have no pin in common
  · exact iff_of_false (PinRef.ne_of_kind_ne (by simp [k2, l2])) (PinRef.ne_of_kind_ne (by simp [k1, l2]))
  · exact iff_of_false (PinRef.ne_of_kind_ne (by simp [k1, l1])) (PinRef.ne_of_kind_ne (by simp [k2, l1]))
  · exact Iff.rfl

theorem touches_iff {k : Link} {id : NodeId} : k.touches id = true ↔ k.source.node = id ∨ k.target.node = id := by
  simp [touches]

end Link

namespace Method

variable {m m' base : Method} {c : TypeCatalog} {a b : PinRef} {l : Link} {L : Link → Prop}

theorem Consistent.mirrored (h : m.Consistent) : m.Mirrored := dangling_eq_nil_iff.1 h.dangling

theorem Consistent.mem_links (h : m.Consistent) {k : Link} : k ∈ m.links ↔ m.Linked k := mem_links_iff h.ordered

theorem Consistent.isLinked_eq (h : m.Consistent) : m.isLinked l = decide (l ∈ m.links) := by
  rw [Bool.eq_iff_iff, decide_eq_true_iff, isLinked_iff h.mirrored, h.mem_links]

/-! ### A graph with other links -/

/-- `m'` is the consistent graph that has the links `L` and is otherwise like `base`: nodes, kinds, positions,
names and types of pins, entry and counter are those of `base`. -/
structure Relinked (base m' : Method) (L : Link → Prop) : Prop where
  shape : m'.shape = base.shape
  consistent : m'.Consistent
  mem_links : ∀ k, k ∈ m'.links ↔ L k

theorem Relinked.of_linked (h : base.Identified) (hs : m'.shape = base.shape) (hm : m'.Mirrored)
    (hl : ∀ k, m'.Linked k ↔ L k) : base.Relinked m' L := by
  have hc : m'.Consistent := ⟨h.of_shape hs, dangling_eq_nil_iff.2 hm⟩
  exact ⟨hs, hc, fun k => hc.mem_links.trans (hl k)⟩

/-- `shape` and `links` are all there is to a consistent graph. -/
theorem Relinked.unique {m'' : Method} (h : base.Relinked m' L) (h' : base.Relinked m'' L) : m' = m'' := by
  refine eq_of_shape_of_refs h.consistent.ordered (h.shape.trans h'.shape.symm) fun p q => ?_
  rw [h.consistent.mirrored.mem_refs_iff_linked, h'.consistent.mirrored.mem_refs_iff_linked,
    ← h.consistent.mem_links, ← h'.consistent.mem_links, h.mem_links, h'.mem_links]

theorem Consistent.relinked_self (h : m.Consistent) (hL : ∀ k, k ∈ m.links ↔ L k) : m.Relinked m L :=
  ⟨rfl, h, hL⟩

/-! ### Making a link -/

/-- `l` is the link that the pins `a` and `b`, in either order, may make. -/
def Joins (m : Method) (c : TypeCatalog) (a b : PinRef) (l : Link) : Prop :=
  m.Admits c l ∧ (l = ⟨a, b⟩ ∨ l = ⟨b, a⟩)

theorem joins_comm : m.Joins c a b l ↔ m.Joins c b a l := and_congr_right fun _ => or_comm

theorem Joins.of_shape (h : m.Joins c a b l) (hs : m'.shape = m.shape) : m'.Joins c a b l :=
  ⟨h.1.of_shape hs, h.2⟩

/-- What it comes to that `l` is made and `evicted` returned. -/
structure Gains (m : Method) (l : Link) (evicted : Option Link) (m' : Method) : Prop where
  present : l ∈ m.links → evicted = none ∧ m' = m
  absent : l ∉ m.links → ∀ k, evicted = some k ↔ k ∈ m.links ∧ k.SharesEnd l
  relinked : m.Relinked m' fun k => k = l ∨ (k ∈ m.links ∧ evicted ≠ some k)

theorem gains_of_mem (hm : m.Consistent) (hl : l ∈ m.links) : m.Gains l none m where
  present _ := ⟨rfl, rfl⟩
  absent h := absurd hl h
  relinked := hm.relinked_self fun k => ⟨fun hk => Or.inr ⟨hk, nofun⟩, by
    rintro (rfl | hk)
    · exact hl
    · exact hk.1⟩

theorem gains_of_joined (hm : m.Consistent) (ho : l.Oriented) (hl : l ∉ m.links) (hj : Joined l m m') :
    m.Gains l (m.inPlaceOf l) m' where
  present h := absurd h hl
  absent _ k := by
    rw [hm.mirrored.inPlaceOf_eq_some_iff ho, hm.mem_links]
    exact and_congr_right fun hk => ((hm.mirrored.oriented hk).sharesEnd_iff ho).symm
  relinked := by
    refine .of_linked hm.toIdentified hj.shape (hj.mirrored hm.mirrored ho) fun k => ?_
    have hplace : m.inPlaceOf l = some k ↔ m.Linked k ∧ k.solo = l.solo :=
      hm.mirrored.inPlaceOf_eq_some_iff ho
    rw [hj.linked_iff hm.mirrored ho, hm.mem_links]
    tauto

/-! ### Severing links -/

/-- What it comes to that the links in `S` are severed and `ls` returned. -/
structure Sheds (m : Method) (S : Link → Prop) (ls : List Link) (m' : Method) : Prop where
  nodup : ls.Nodup
  mem_iff : ∀ k, k ∈ ls ↔ k ∈ m.links ∧ S k
  relinked : m.Relinked m' fun k => k ∈ m.links ∧ ¬ S k

theorem sheds_of_severed {S : PinRef → Prop} {ls : List Link} (hm : m.Consistent) (hs : Severed S m m')
    (hls : Enumerates S m ls) : m.Sheds (fun k => S k.source ∨ S k.target) ls m' where
  nodup := hls.nodup
  mem_iff k := by rw [hls.mem_iff, hm.mem_links]
  relinked := by
    refine .of_linked hm.toIdentified hs.shape (hs.mirrored hm.mirrored) fun k => ?_
    rw [hs.linked_iff, hm.mem_links, not_or]

theorem relinked_removed {id : NodeId} (hm : m.Consistent) (hid : id ≠ m.entry)
    (hs : m'.shape = m.shape.without id)
    (hr : ∀ p q, q ∈ m'.refs p ↔ q ∈ m.refs p ∧ p.node ≠ id ∧ q.node ≠ id) :
    (m.without id).Relinked m' fun k => k ∈ m.links ∧ ¬ k.touches id = true := by
  refine .of_linked (hm.toIdentified.without hid) (hs.trans (shape_without m id).symm)
    (hm.mirrored.restrict hr) fun k => ?_
  rw [linked_restrict_iff hr, hm.mem_links, Link.touches_iff, not_or]

end Method

namespace GraphM

variable {m : Method} {c : TypeCatalog} {a b : PinRef} {l : Link}

theorem exec_connect_gains (hm : m.Consistent) (hl : m.Joins c a b l) :
    ∃ evicted m', (connect c a b).exec m = (.ok evicted, m') ∧ m.Gains l evicted m' := by
  have hc := Method.checkConnection_eq_ok_iff.2 hl
  -- a link that is there stays, and nothing makes room for it
  by_cases hmem : l ∈ m.links
  · have hlink : m.isLinked l = true := by rw [hm.isLinked_eq, decide_eq_true hmem]
    exact ⟨none, m, exec_connect_linked hc hlink, Method.gains_of_mem hm hmem⟩
  · have hlink : m.isLinked l = false := by rw [hm.isLinked_eq, decide_eq_false hmem]
    obtain ⟨m', he, hj⟩ := exec_connect hm.mirrored hc hlink
    exact ⟨_, m', he, Method.gains_of_joined hm hl.1.oriented hmem hj⟩

theorem exec_connect_refused (h : ¬ ∃ l, m.Joins c a b l) : ∃ e, (connect c a b).exec m = (.error e, m) := by
  cases hc : m.checkConnection c a b with
  | ok l => exact absurd ⟨l, Method.checkConnection_eq_ok_iff.1 hc⟩ h
  | error e => exact ⟨e, exec_connect_error hc⟩

/-- After `checkConnection`, only the link counts. -/
theorem exec_connect_comm (hl : m.Joins c a b l) : (connect c b a).exec m = (connect c a b).exec m := by
  unfold connect
  rw [exec_get_bind, exec_get_bind, Method.checkConnection_eq_ok_iff.2 hl,
    Method.checkConnection_eq_ok_iff.2 (Method.joins_comm.1 hl)]

theorem exec_connect_again (hm : m.Consistent) (hl : m.Joins c a b l) (hmem : l ∈ m.links) :
    (connect c a b).exec m = (.ok none, m) := by
  obtain ⟨evicted, m', he, hg⟩ := exec_connect_gains hm hl
  obtain ⟨rfl, rfl⟩ := hg.present hmem
  exact he

/-- Pins that `connect` may not link are refused in either order. Otherwise their link is made in the place of the
one that `SharesEnd` with it, the same way in either order, and there is nothing left to do a second time. -/
theorem connect_effect (hm : m.Consistent) (c : TypeCatalog) (a b : PinRef) :
    ((¬ ∃ l, m.Joins c a b l) →
      ∃ e e', (connect c a b).exec m = (.error e, m) ∧ (connect c b a).exec m = (.error e', m)) ∧
    ∀ l, m.Joins c a b l → ∃ evicted m',
      (connect c a b).exec m = (.ok evicted, m') ∧ (connect c b a).exec m = (.ok evicted, m') ∧
      m.Gains l evicted m' ∧
      (connect c a b).exec m' = (.ok none, m') ∧ (connect c b a).exec m' = (.ok none, m') := by
  constructor
  · intro h
    obtain ⟨e, he⟩ := exec_connect_refused h
    obtain ⟨e', he'⟩ := exec_connect_refused fun ⟨l, hl⟩ => h ⟨l, Method.joins_comm.1 hl⟩
    exact ⟨e, e', he, he'⟩
  · intro l hl
    obtain ⟨evicted, m', he, hg⟩ := exec_connect_gains hm hl
    have hl' := hl.of_shape hg.relinked.shape
    have hmem : l ∈ m'.links := (hg.relinked.mem_links l).2 (Or.inl rfl)
    have hagain := exec_connect_again hg.relinked.consistent hl' hmem
    exact ⟨evicted, m', he, (exec_connect_comm hl).trans he, hg, hagain, (exec_connect_comm hl').trans hagain⟩

/-- A loop whose body leads back to it and that counts up to its own index, and a branch that only itself leads
to. -/
def revolving : Method :=
  (Method.make "main" [] []).run (.ofPairs [])
    [.addNode .forLoop {}, .addNode .ifElse {}, .connect (.execOut 0 0) (.execIn 1 0),
      .connect (.execOut 1 0) (.execIn 1 0), .connect (.dataOut 1 0) (.dataIn 1 1),
      .connect (.execOut 2 1) (.execIn 2 0)]

theorem consistent_revolving : revolving.Consistent :=
  (Method.coherent_iff.1 (Method.coherent_run (Method.coherent_make "main" [] [] (.ofPairs [])) _)).1

/-- The body of the loop in `revolving` goes on to the branch instead; the pin that it led to keeps its link from
the entry. -/
theorem connect_effect_revolving :
    revolving.Consistent ∧ ∃ m',
      (connect (.ofPairs []) (.execIn 2 0) (.execOut 1 0)).exec revolving =
        (.ok (some ⟨.execOut 1 0, .execIn 1 0⟩), m') ∧
      ⟨.execOut 0 0, .execIn 1 0⟩ ∈ m'.links ∧ ⟨.execOut 1 0, .execIn 2 0⟩ ∈ m'.links ∧
      ⟨.execOut 1 0, .execIn 1 0⟩ ∉ m'.links := by
  obtain ⟨evicted, m', he, -, hg, -⟩ :=
    (connect_effect consistent_revolving (.ofPairs []) (.execIn 2 0) (.execOut 1 0)).2
      ⟨.execOut 1 0, .execIn 2 0⟩ ⟨Or.inl ⟨_, _, rfl, rfl⟩, Or.inr rfl⟩
  have hev : evicted = some ⟨.execOut 1 0, .execIn 1 0⟩ :=
    (hg.absent (by decide +kernel) _).2 (by decide +kernel)
  subst hev
  refine ⟨consistent_revolving, m', he, ?_, ?_, ?_⟩
  · exact (hg.relinked.mem_links _).2 (Or.inr (by decide +kernel))
  · exact (hg.relinked.mem_links _).2 (Or.inl rfl)
  · rw [hg.relinked.mem_links]
    decide +kernel

theorem exec_unlink_relinked (hm : m.Consistent) (l : Link) :
    ∃ m', (unlink l).exec m = (.ok (decide (l ∈ m.links)), m') ∧
      m.Relinked m' (fun k => k ∈ m.links ∧ k ≠ l) ∧ (l ∉ m.links → m' = m) := by
  by_cases hmem : l ∈ m.links
  · have hlink : m.isLinked l = true := by rw [hm.isLinked_eq, decide_eq_true hmem]
    obtain ⟨m', he, hs⟩ := exec_unlink hm.mirrored hlink
    rw [decide_eq_true hmem]
    refine ⟨m', he, .of_linked hm.toIdentified hs.shape (hs.mirrored hm.mirrored) fun k => ?_, absurd hmem⟩
    rw [hs.linked_solo_iff hm.mirrored (hm.mem_links.1 hmem), hm.mem_links]
  · have hlink : m.isLinked l = false := by rw [hm.isLinked_eq, decide_eq_false hmem]
    rw [decide_eq_false hmem]
    refine ⟨m, exec_unlink_false hlink, hm.relinked_self fun k => ?_, fun _ => rfl⟩
    exact ⟨fun hk => ⟨hk, fun he => hmem (he ▸ hk)⟩, And.left⟩

theorem exec_disconnect_sheds (hm : m.Consistent) {p : PinRef} (hp : m.containsPin p = true) :
    ∃ ls m', (disconnect p).exec m = (.ok ls, m') ∧ m.Sheds (fun k => k.source = p ∨ k.target = p) ls m' := by
  obtain ⟨m', he, hs⟩ := exec_disconnect hm.mirrored hp
  exact ⟨_, m', he, Method.sheds_of_severed hm hs (.linkTo hm.mirrored p)⟩

theorem exec_disconnectAll_sheds (hm : m.Consistent) {id : NodeId} {n : Node} (hn : m.node? id = some n) :
    ∃ ls m', (disconnectAll id).exec m = (.ok ls, m') ∧ m.Sheds (fun k => k.touches id = true) ls m' := by
  obtain ⟨ls, m', he, hs, hls⟩ := exec_disconnectAll hm.mirrored hn
  refine ⟨ls, m', he, ?_⟩
  simp only [Link.touches_iff]
  exact Method.sheds_of_severed hm hs hls

/-- `unlink`, `disconnect`, `disconnectAll` and `removeNode` take away the links that they are about, each told
once, and leave all else as it is. They fail only for a node or pin that is not there, or for the removal of the
entry, and then change nothing. -/
theorem severing_effects (hm : m.Consistent) :
    (∀ l, ∃ m', (unlink l).exec m = (.ok (decide (l ∈ m.links)), m') ∧
      m.Relinked m' (fun k => k ∈ m.links ∧ k ≠ l) ∧ (l ∉ m.links → m' = m)) ∧
    (∀ p, m.containsPin p = true → ∃ ls m', (disconnect p).exec m = (.ok ls, m') ∧
      m.Sheds (fun k => k.source = p ∨ k.target = p) ls m') ∧
    (∀ p, m.containsPin p = false → (disconnect p).exec m =
      (.error (if (m.node? p.node).isNone then .nodeNotFound p.node else .pinNotFound p), m)) ∧
    (∀ id n, m.node? id = some n → ∃ ls m', (disconnectAll id).exec m = (.ok ls, m') ∧
      m.Sheds (fun k => k.touches id = true) ls m') ∧
    (∀ id n, m.node? id = some n → id ≠ m.entry → ∃ m', (removeNode id).exec m = (.ok n.unlinked, m') ∧
      (m.without id).Relinked m' fun k => k ∈ m.links ∧ ¬ k.touches id = true) ∧
    (∀ id, m.node? id = none → (disconnectAll id).exec m = (.error (.nodeNotFound id), m) ∧
      (removeNode id).exec m = (.error (.nodeNotFound id), m)) ∧
    (removeNode m.entry).exec m = (.error (.entryNodeRemoval m.entry), m) := by
  refine ⟨exec_unlink_relinked hm, fun p => exec_disconnect_sheds hm, fun p => exec_disconnect_missing,
    fun id n => exec_disconnectAll_sheds hm, fun id n hn hid => ?_, fun id hn => ?_, exec_removeNode_entry rfl⟩
  · obtain ⟨m', he, hs, hr⟩ := exec_removeNode hm.mirrored hn hid
    exact ⟨m', he, Method.relinked_removed hm hid hs hr⟩
  · -- the entry is there, so a node that is not is another one
    have hid : id ≠ m.entry := by
      rintro rfl
      obtain ⟨n, hentry, -⟩ := hm.entry
      rw [hn] at hentry
      cases hentry
    exact ⟨exec_disconnectAll_missing hn, exec_removeNode_missing hid hn⟩

/-- In `revolving` the loop's links to itself are told once each, and the branch keeps its own. -/
theorem severing_effects_revolving :
    revolving.Consistent ∧
    (∃ ls m', (disconnectAll 1).exec revolving = (.ok ls, m') ∧ ls.length = 3 ∧
      ls.count ⟨.execOut 1 0, .execIn 1 0⟩ = 1 ∧ ls.count ⟨.dataOut 1 0, .dataIn 1 1⟩ = 1 ∧
      ∀ k, k ∈ m'.links ↔ k = ⟨.execOut 2 1, .execIn 2 0⟩) ∧
    ∃ m', (removeNode 1).exec revolving = (.ok (Node.make 1 .forLoop {}), m') ∧
      ∀ k, k ∈ m'.links ↔ k = ⟨.execOut 2 1, .execIn 2 0⟩ := by
  obtain ⟨-, -, -, hall, hremove, -⟩ := severing_effects consistent_revolving
  have hkept : revolving.links.filter (fun k => ¬ k.touches 1 = true) = [⟨.execOut 2 1, .execIn 2 0⟩] := by
    decide +kernel
  have hrest : ∀ k : Link, k ∈ revolving.links ∧ ¬ k.touches 1 = true ↔ k = ⟨.execOut 2 1, .execIn 2 0⟩ := by
    intro k
    rw [← @List.mem_singleton _ k, ← hkept, List.mem_filter, decide_eq_true_iff]
  refine ⟨consistent_revolving, ?_, ?_⟩
  · obtain ⟨ls, m', he, hs⟩ := hall 1 _ rfl
    -- neither list has a link twice, so they are the same but for the order
    have hperm : ls.Perm (revolving.links.filter (·.touches 1)) := by
      refine (List.perm_ext_iff_of_nodup hs.nodup (by decide +kernel)).2 fun k => ?_
      rw [hs.mem_iff, List.mem_filter]
    refine ⟨ls, m', he, ?_, ?_, ?_, fun k => (hs.relinked.mem_links k).trans (hrest k)⟩
    · rw [hperm.length_eq]
      decide +kernel
    · rw [hperm.count_eq]
      decide +kernel
    · rw [hperm.count_eq]
      decide +kernel
  · obtain ⟨m', he, hs⟩ := hremove 1 _ rfl (by decide)
    exact ⟨m', he, fun k => (hs.mem_links k).trans (hrest k)⟩

end GraphM

end VisualScript
