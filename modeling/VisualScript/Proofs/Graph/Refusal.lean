import VisualScript.Proofs.Graph.Nodes

/-!
# Operations that fail

An operation that fails should leave the method as it was. The operations on links write at one pin first and
look for its partners afterwards, so that they keep to this just as long as the partners are there. In a graph
that operations built they always are, but a graph from outside may hold references to pins that do not exist.

* `Method.Attached`: all partners of a pin are there.
* `GraphM.Spares`: if the operation fails, then the method stays as it is.

For `connect`, `unlink` and `disconnect` the condition is exact: where it does not hold, they fail half way.
-/

namespace VisualScript

open Linkable EditM

/-- Whatever the pin `p` refers to exists and could be the other end of a link. -/
def Method.Attached (m : Method) (p : PinRef) : Prop :=
  ∀ q ∈ m.refs p, q.kind = p.kind.opposite ∧ m.containsPin q = true

/-- Some `refs` of `m` may be gone in `m'`, and nothing else is different. -/
structure Shrinks (m m' : Method) : Prop where
  shape : m'.shape = m.shape
  refs : ∀ p q, q ∈ m'.refs p → q ∈ m.refs p

namespace Shrinks

variable {m m₁ m' : Method}

theorem refl (m : Method) : Shrinks m m := ⟨rfl, fun _ _ h => h⟩

theorem trans (h : Shrinks m m₁) (h' : Shrinks m₁ m') : Shrinks m m' :=
  ⟨h'.shape.trans h.shape, fun p q hq => h.refs p q (h'.refs p q hq)⟩

theorem attached (h : Shrinks m m') {p : PinRef} (hp : m.Attached p) : m'.Attached p := by
  intro q hq
  obtain ⟨hkind, hcontains⟩ := hp q (h.refs p q hq)
  exact ⟨hkind, by rw [Method.containsPin_of_shape h.shape, hcontains]⟩

end Shrinks

section Pins

theorem Method.exists_pin?_iff {π : Type} {F : PinFamily π} {m : Method} {p : PinRef}
    (hF : ∀ n, (F.pins n).length = n.pinCount F.kind) :
    (∃ pin, m.pin? F p = some pin) ↔ p.kind = F.kind ∧ m.containsPin p = true := by
  rw [containsPin_iff]
  constructor
  · rintro ⟨pin, hpin⟩
    obtain ⟨hk, n, hn, hslot⟩ := pin?_eq_some_iff.1 hpin
    refine ⟨hk, n, hn, ?_⟩
    rw [hk, ← hF]
    exact (List.getElem?_eq_some_iff.1 hslot).1
  · rintro ⟨hk, n, hn, hslot⟩
    rw [hk, ← hF] at hslot
    exact ⟨_, pin?_eq_some_iff.2 ⟨hk, n, hn, List.getElem?_eq_getElem hslot⟩⟩

theorem Method.attached_iff {π : Type} {F : PinFamily π} {m : Method} {p : PinRef}
    (hF : ∀ n, (F.pins n).length = n.pinCount F.kind) (hk : F.kind = p.kind.opposite) :
    m.Attached p ↔ ∀ q ∈ m.refs p, ∃ pin, m.pin? F q = some pin := by
  unfold Attached
  simp only [exists_pin?_iff hF, hk]

variable {π : Type} [Linkable π] {F : PinFamily π} {m m' : Method} {p : PinRef}

theorem Method.exists_pin?_congr (hF : F.Lawful) (hs : m'.shape = m.shape) (p : PinRef) :
    (∃ pin, m'.pin? F p = some pin) ↔ ∃ pin, m.pin? F p = some pin := by
  constructor
  · rintro ⟨pin, hpin⟩
    exact (exists_pin?_of_shape hF hs hpin).imp fun _ => And.left
  · rintro ⟨pin, hpin⟩
    exact (exists_pin?_of_shape hF hs.symm hpin).imp fun _ => And.left

/-- A `change` that drops references of one pin. -/
theorem GraphM.exec_shrink {f : π → π} {pin : π} (hF : F.Lawful) (hf : ∀ a, clear (f a) = clear a)
    (hr : ∀ a q, q ∈ Linkable.refs (f a) → q ∈ Linkable.refs a) (h : m.pin? F p = some pin) :
    ∃ m', (change F p f).exec m = (.ok pin, m') ∧ Shrinks m m' := by
  obtain ⟨m', he, hs, hrefs⟩ := exec_change hF hf h
  refine ⟨m', he, hs, fun q r hq => ?_⟩
  rw [hrefs] at hq
  split_ifs at hq with hqp
  · rw [hqp, Method.refs_of_pin? hF h]
    exact hr pin r hq
  · exact hq

end Pins

/-! ### Severing -/

section Sever

variable {π σ : Type} [Linkable π] [Linkable σ] {here : PinFamily π} {there : PinFamily σ}
  {f : π → π} {g : σ → σ} {pin : PinRef}

/-- The partners `ss` drop references one by one; this goes well just if all of them are there. -/
theorem exec_dropEach_cases (hT : there.Lawful) (hg : ∀ b, clear (g b) = clear b)
    (hdrop : ∀ b q, q ∈ refs (g b) → q ∈ refs b) (named : PinRef → Link) (ss : List PinRef) (m : Method) :
    ∃ r m', (ss.mapM fun s => do
        let _ ← GraphM.change there s g
        return named s : GraphM (List Link)).exec m = (r, m') ∧
      Shrinks m m' ∧ ((∃ ls, r = .ok ls) ↔ ∀ s ∈ ss, ∃ b, m.pin? there s = some b) := by
  -- partners that are missing later on are missing from the start, since only references change
  induction ss generalizing m with
  | nil => exact ⟨.ok [], m, rfl, .refl m, by simp⟩
  | cons s ss ih =>
    rw [List.mapM_cons, bind_assoc]
    cases hb : m.pin? there s with
    | none => exact ⟨_, m, exec_bind_error (GraphM.exec_change_none hb) _, .refl m, by simp [hb]⟩
    | some b =>
      obtain ⟨m₁, he₁, hs₁⟩ := GraphM.exec_shrink hT hg hdrop hb
      obtain ⟨r, m', he, hs, hok⟩ := ih m₁
      simp only [Method.exists_pin?_congr hT hs₁.shape] at hok
      rw [exec_bind_ok he₁, pure_bind]
      cases r with
      | error e =>
        refine ⟨.error e, m', exec_bind_error he _, hs₁.trans hs, ?_⟩
        simpa [hb] using hok
      | ok ls =>
        refine ⟨.ok (named s :: ls), m', exec_bind_ok he _, hs₁.trans hs, ?_⟩
        simpa [hb] using hok

/-- `pin` lets go of all its links, and then each of its partners does. -/
theorem exec_sever_cases {m : Method} (hH : here.Lawful) (hT : there.Lawful) (hf : ∀ a, clear (f a) = clear a)
    (hnone : ∀ a, refs (f a) = []) (hg : ∀ b, clear (g b) = clear b)
    (hdrop : ∀ b q, q ∈ refs (g b) → q ∈ refs b) {a : π} (hp : m.pin? here pin = some a)
    (named : PinRef → Link) :
    ∃ r m', (do
        let old ← GraphM.change here pin f
        (refs old).mapM fun s => do
          let _ ← GraphM.change there s g
          return named s : GraphM (List Link)).exec m = (r, m') ∧
      Shrinks m m' ∧ m'.refs pin = [] ∧
        ((∃ ls, r = .ok ls) ↔ ∀ s ∈ m.refs pin, ∃ b, m.pin? there s = some b) := by
  obtain ⟨m₁, he₁, hshape₁, hrefs₁⟩ := GraphM.exec_change hH hf hp
  have hs₁ : Shrinks m m₁ := by
    refine ⟨hshape₁, fun q r hq => ?_⟩
    rw [hrefs₁] at hq
    split_ifs at hq with hqp
    · rw [hnone] at hq
      cases hq
    · exact hq
  obtain ⟨r, m', he, hs, hok⟩ := exec_dropEach_cases hT hg hdrop named (refs a) m₁
  refine ⟨r, m', by rw [exec_bind_ok he₁, he], hs₁.trans hs, ?_, ?_⟩
  · -- dropping the answers brings nothing back to the pin itself
    refine List.eq_nil_iff_forall_not_mem.2 fun q hq => ?_
    have hq₁ := hs.refs pin q hq
    rw [hrefs₁, if_pos rfl, hnone] at hq₁
    cases hq₁
  · rw [hok, Method.refs_of_pin? hH hp]
    simp only [Method.exists_pin?_congr hT hs₁.shape]

end Sever

/-! ### Failing before anything is changed -/

namespace GraphM

variable {α : Type} {x : GraphM α} {m m' : Method}

/-- If the operation fails, then the method stays as it is. -/
def Spares (x : GraphM α) (m : Method) : Prop := ∀ e m', x.exec m = (.error e, m') → m' = m

theorem Spares.of_ok {a : α} (h : x.exec m = (.ok a, m')) : Spares x m := by
  intro e m'' he
  rw [h] at he
  cases he

theorem Spares.of_error {e : GraphError} (h : x.exec m = (.error e, m)) : Spares x m := by
  intro e' m'' he
  rw [h] at he
  cases he
  rfl

end GraphM

namespace Wire

variable {π σ : Type} [Linkable π] [Linkable σ] {w : Wire π σ} {m : Method} {x y : PinRef} {a : π}

theorem exec_severSolo_cases (hx : m.pin? w.solo x = some a) (named : PinRef → Link) :
    ∃ r m', (do
        let old ← GraphM.change w.solo x (w.aim none)
        (w.held old).toList.mapM fun t => do
          let _ ← GraphM.change w.shared t (w.share (·.erase x))
          return named t : GraphM (List Link)).exec m = (r, m') ∧
      Shrinks m m' ∧ m'.refs x = [] ∧
        ((∃ ls, r = .ok ls) ↔ ∀ s ∈ m.refs x, ∃ b, m.pin? w.shared s = some b) := by
  simp only [← w.refs_solo]
  refine exec_sever_cases w.solo_lawful w.shared_lawful (w.clear_aim _) ?_ (w.clear_share _) ?_ hx named
  · intro a
    rw [w.refs_solo, w.held_aim]
    rfl
  · intro b q hq
    rw [w.refs_shared, w.sharing_share] at hq
    rw [w.refs_shared]
    exact (SortedSet.mem_erase.1 hq).1

theorem exec_severShared_cases {b : σ} (hy : m.pin? w.shared y = some b) (named : PinRef → Link) :
    ∃ r m', (do
        let old ← GraphM.change w.shared y (w.share fun _ => .empty)
        (w.sharing old).toList.mapM fun s => do
          let _ ← GraphM.change w.solo s (w.aim none)
          return named s : GraphM (List Link)).exec m = (r, m') ∧
      Shrinks m m' ∧ m'.refs y = [] ∧
        ((∃ ls, r = .ok ls) ↔ ∀ s ∈ m.refs y, ∃ a, m.pin? w.solo s = some a) := by
  simp only [← w.refs_shared]
  refine exec_sever_cases w.shared_lawful w.solo_lawful (w.clear_share _) ?_ (w.clear_aim _) ?_ hy named
  · intro b
    rw [w.refs_shared, w.sharing_share]
    rfl
  · intro a q hq
    rw [w.refs_solo, w.held_aim] at hq
    cases hq

/-- `link` is made whole if the partner that has to let go is there. -/
theorem exec_link_ok {b : σ} (hx : m.pin? w.solo x = some a) (hy : m.pin? w.shared y = some b)
    (h : ∀ t ∈ m.refs x, ∃ b, m.pin? w.shared t = some b) (named : PinRef → Link) :
    ∃ d m', (w.link x y named).exec m = (.ok d, m') := by
  obtain ⟨m₁, he₁, hs₁, -⟩ := exec_aim (some y) hx
  have answer {m₂ : Method} (hs₂ : m₂.shape = m.shape) :
      ∃ b' m', (GraphM.change w.shared y (w.share (·.insert x))).exec m₂ = (.ok b', m') := by
    obtain ⟨b₂, hb₂⟩ := (Method.exists_pin?_congr w.shared_lawful hs₂ y).2 ⟨b, hy⟩
    exact ⟨b₂, _, GraphM.exec_change_some hb₂⟩
  unfold link
  rw [exec_bind_ok he₁]
  cases ht : w.held a with
  | none =>
    obtain ⟨b', m', he⟩ := answer hs₁
    exact ⟨_, m', exec_bind_ok he _⟩
  | some t =>
    have hmem : t ∈ m.refs x := by simp [Method.refs_of_pin? w.solo_lawful hx, w.refs_solo, ht]
    obtain ⟨b₁, hb₁⟩ := (Method.exists_pin?_congr w.shared_lawful hs₁ t).2 (h t hmem)
    obtain ⟨m₂, he₂, hs₂, -⟩ := exec_share (·.erase x) hb₁
    obtain ⟨b', m', he⟩ := answer (hs₂.trans hs₁)
    exact ⟨_, m', (exec_bind_ok he₂ _).trans (exec_bind_ok he _)⟩

/-- Without it the `link` stays half made: `x` has already turned to its new partner `y`. -/
theorem exec_link_stuck {t : PinRef} (hx : m.pin? w.solo x = some a) (ht : t ∈ m.refs x)
    (hnone : m.pin? w.shared t = none) (named : PinRef → Link) :
    ∃ e m', (w.link x y named).exec m = (.error e, m') ∧ y ∈ m'.refs x := by
  obtain ⟨m₁, he₁, hs₁, hr₁⟩ := exec_aim (some y) hx
  have hheld : w.held a = some t := by
    simpa [Method.refs_of_pin? w.solo_lawful hx, w.refs_solo] using ht
  have hnone₁ : m₁.pin? w.shared t = none := by
    rw [← Option.not_isSome_iff_eq_none, Option.isSome_iff_exists,
      Method.exists_pin?_congr w.shared_lawful hs₁, hnone]
    simp
  have hrun : (w.link x y named).exec m = (.error (m₁.pinFault w.shared t), m₁) := by
    unfold link
    rw [exec_bind_ok he₁, hheld]
    exact exec_bind_error (GraphM.exec_change_none hnone₁) _
  exact ⟨_, m₁, hrun, by rw [hr₁, if_pos rfl]⟩

theorem spares_link_iff {b : σ} (hx : m.pin? w.solo x = some a) (hy : m.pin? w.shared y = some b)
    (named : PinRef → Link) :
    GraphM.Spares (w.link x y named) m ↔ ∀ t ∈ m.refs x, ∃ b, m.pin? w.shared t = some b := by
  constructor
  · intro h t ht
    by_contra hnone
    rw [← Option.isSome_iff_exists, Option.not_isSome_iff_eq_none] at hnone
    obtain ⟨e, m', he, hmem⟩ := exec_link_stuck hx ht hnone named
    -- the pin would have to hold both its old and its new partner
    rw [h e m' he] at hmem
    rw [Method.refs_of_pin? w.solo_lawful hx, w.refs_solo, Option.mem_toList] at ht hmem
    obtain rfl : t = y := Option.some.inj (ht.symm.trans hmem)
    rw [hnone] at hy
    cases hy
  · intro h
    obtain ⟨d, m', he⟩ := exec_link_ok hx hy h named
    exact .of_ok he

theorem spares_unlink_iff (hx : m.pin? w.solo x = some a) (hheld : w.held a = some y) :
    GraphM.Spares (do
        let _ ← GraphM.change w.solo x (w.aim none)
        let _ ← GraphM.change w.shared y (w.share (·.erase x))
        return true : GraphM Bool) m ↔ ∀ t ∈ m.refs x, ∃ b, m.pin? w.shared t = some b := by
  obtain ⟨m₁, he₁, hs₁, hr₁⟩ := exec_aim none hx
  have hrefs : m.refs x = [y] := by simp [Method.refs_of_pin? w.solo_lawful hx, w.refs_solo, hheld]
  simp only [hrefs, List.mem_singleton, forall_eq]
  rw [← Method.exists_pin?_congr w.shared_lawful hs₁]
  cases hy : m₁.pin? w.shared y with
  | none =>
    simp only [reduceCtorEq, exists_false, iff_false]
    intro h
    have hsame : m₁ = m := h _ m₁ ((exec_bind_ok he₁ _).trans
      (exec_bind_error (GraphM.exec_change_none hy) _))
    have hmem : y ∈ m₁.refs x := by rw [hsame, hrefs]; exact List.mem_singleton_self y
    rw [hr₁, if_pos rfl] at hmem
    cases hmem
  | some b =>
    simp only [Option.some.injEq, exists_eq', iff_true]
    exact .of_ok ((exec_bind_ok he₁ _).trans (exec_bind_ok (GraphM.exec_change_some hy) _))

end Wire

namespace GraphM

variable {m : Method}

/-- What `disconnect` does to a pin that is there: it lets go in any case, and all is well just if it is
`Attached`. -/
theorem exec_disconnect_cases {pin : PinRef} (hp : m.containsPin pin = true) :
    ∃ r m', (disconnect pin).exec m = (r, m') ∧ Shrinks m m' ∧ m'.refs pin = [] ∧
      ((∃ ls, r = .ok ls) ↔ m.Attached pin) := by
  unfold Method.containsPin at hp
  unfold disconnect
  cases hk : pin.kind <;> rw [hk] at hp <;> obtain ⟨a, ha⟩ := Option.isSome_iff_exists.1 hp
  · rw [Method.attached_iff (F := execOuts) (fun _ => rfl) (by rw [hk]; rfl)]
    exact execWire.exec_severShared_cases ha (⟨·, pin⟩)
  · rw [Method.attached_iff (F := execIns) (fun _ => rfl) (by rw [hk]; rfl)]
    exact execWire.exec_severSolo_cases ha (⟨pin, ·⟩)
  · rw [Method.attached_iff (F := dataOuts) (fun _ => rfl) (by rw [hk]; rfl)]
    exact dataWire.exec_severSolo_cases ha (⟨·, pin⟩)
  · rw [Method.attached_iff (F := dataIns) (fun _ => rfl) (by rw [hk]; rfl)]
    exact dataWire.exec_severShared_cases ha (⟨pin, ·⟩)

theorem spares_addNode (kind : NodeKind) (position : Position) (m : Method) :
    Spares (addNode kind position) m := by
  cases hk : kind.isEntry with
  | true => exact .of_error (exec_addNode_error hk)
  | false =>
    unfold addNode
    intro e m' he
    rw [exec_get_bind, hk] at he
    cases he

theorem spares_insertNode (a : Node) (m : Method) : Spares (insertNode a) m := by
  cases hk : a.kind.isEntry with
  | true => exact .of_error (exec_insertNode_entry hk m)
  | false =>
    cases hn : m.node? a.id with
    | none => exact .of_ok (exec_insertNode hk hn)
    | some n => exact .of_error (exec_insertNode_inUse hk (by rw [hn]; rfl))

theorem spares_connect_iff {c : TypeCatalog} {a b : PinRef} :
    Spares (connect c a b) m ↔
      ∀ l, m.checkConnection c a b = .ok l → m.isLinked l = false → m.Attached l.solo := by
  cases hc : m.checkConnection c a b with
  | error e => simp [Spares.of_error (exec_connect_error hc)]
  | ok l =>
    simp only [Except.ok.injEq, forall_eq']
    cases hl : m.isLinked l with
    | true => simp [Spares.of_ok (exec_connect_linked hc hl)]
    | false =>
      unfold Spares
      simp only [exec_connect_unlinked hc hl, forall_const]
      -- an exec link displaces at its source, a data link at its target
      obtain ⟨x, y, hx, hy⟩ | ⟨x, y, hx, hy, -⟩ := (Method.checkConnection_eq_ok_iff.1 hc).1
      · have hk : l.source.kind = .execOut := (Method.pin?_eq_some_iff.1 hx).1
        have he : l.isExec = true := by simp [Link.isExec, hk, PinKind.isExec]
        rw [if_pos he, Wire.linkExec_eq, show l.solo = l.source from if_pos he,
          Method.attached_iff (F := execIns) (fun _ => rfl) (by rw [hk]; rfl)]
        exact execWire.spares_link_iff hx hy _
      · have hk : l.source.kind = .dataOut := (Method.pin?_eq_some_iff.1 hx).1
        have hk' : l.target.kind = .dataIn := (Method.pin?_eq_some_iff.1 hy).1
        have he : ¬ l.isExec = true := by simp [Link.isExec, hk, PinKind.isExec]
        rw [if_neg he, Wire.linkData_eq, show l.solo = l.target from if_neg he,
          Method.attached_iff (F := dataOuts) (fun _ => rfl) (by rw [hk']; rfl)]
        exact dataWire.spares_link_iff hy hx _

theorem spares_unlink_iff {l : Link} : Spares (unlink l) m ↔ (m.isLinked l = true → m.Attached l.solo) := by
  cases hl : m.isLinked l with
  | false => simp [Spares.of_ok (exec_unlink_false hl)]
  | true =>
    unfold unlink Spares
    simp only [exec_get_bind, hl, forall_const]
    unfold Method.isLinked at hl
    -- `isLinked` asks the end with one link only, and so does `Attached`
    by_cases he : l.isExec = true
    · rw [if_pos he, decide_eq_true_eq, Option.bind_eq_some_iff] at hl
      obtain ⟨a, ha, ht⟩ := hl
      have hk : l.source.kind = .execOut := (Method.pin?_eq_some_iff.1 ha).1
      rw [show l.solo = l.source from if_pos he,
        Method.attached_iff (F := execIns) (fun _ => rfl) (by rw [hk]; rfl)]
      simp only [he, Bool.not_true, Bool.false_eq_true, if_false, if_true]
      exact execWire.spares_unlink_iff ha ht
    · rw [if_neg he, decide_eq_true_eq, Option.bind_eq_some_iff] at hl
      obtain ⟨a, ha, ht⟩ := hl
      have hk : l.target.kind = .dataIn := (Method.pin?_eq_some_iff.1 ha).1
      rw [show l.solo = l.target from if_neg he,
        Method.attached_iff (F := dataOuts) (fun _ => rfl) (by rw [hk]; rfl)]
      simp only [he, Bool.not_true, Bool.false_eq_true, if_false]
      exact dataWire.spares_unlink_iff ha ht

theorem spares_disconnect_iff {pin : PinRef} :
    Spares (disconnect pin) m ↔ (m.containsPin pin = true → m.Attached pin) := by
  cases hp : m.containsPin pin with
  | false =>
    obtain ⟨e, he⟩ := exec_disconnect_error hp
    simp [Spares.of_error he]
  | true =>
    obtain ⟨r, m', he, -, hnone, hok⟩ := exec_disconnect_cases hp
    rw [← hok]
    cases r with
    | ok ls => simp [Spares.of_ok he]
    | error e =>
      simp only [reduceCtorEq, exists_false, imp_false, not_true_eq_false, iff_false]
      intro h
      -- nothing is left at the pin, so there was nothing to fail at
      rw [h e m' he] at hnone
      have hattached : m.Attached pin := by simp [Method.Attached, hnone]
      obtain ⟨ls, hls⟩ := hok.2 hattached
      cases hls

/-- `Attached` pins let go one after the other. -/
theorem exec_disconnectEach_ok (pins : List PinRef) (m : Method)
    (hp : ∀ p ∈ pins, m.containsPin p = true ∧ m.Attached p) :
    ∃ ls m', (pins.mapM disconnect).exec m = (.ok ls, m') ∧ Shrinks m m' := by
  induction pins generalizing m with
  | nil => exact ⟨[], m, rfl, .refl m⟩
  | cons p pins ih =>
    obtain ⟨hcontains, hattached⟩ := hp p (by simp)
    obtain ⟨r, m₁, he₁, hs₁, -, hok⟩ := exec_disconnect_cases hcontains
    obtain ⟨removed, rfl⟩ := hok.2 hattached
    obtain ⟨ls, m', he, hs⟩ := ih m₁ fun q hq => by
      obtain ⟨hcontains, hattached⟩ := hp q (by simp [hq])
      exact ⟨by rw [Method.containsPin_of_shape hs₁.shape, hcontains], hs₁.attached hattached⟩
    refine ⟨removed :: ls, m', ?_, hs₁.trans hs⟩
    rw [List.mapM_cons, exec_bind_ok he₁, exec_bind_ok he]
    rfl

theorem exec_disconnectAll_ok {id : NodeId} {n : Node} (hn : m.node? id = some n)
    (h : ∀ pin, pin.node = id → m.Attached pin) :
    ∃ ls m', (disconnectAll id).exec m = (.ok ls, m') ∧ Shrinks m m' := by
  have hp : ∀ p ∈ n.pinRefs, m.containsPin p = true ∧ m.Attached p := by
    intro p hp
    obtain ⟨hid, hslot⟩ := Node.mem_pinRefs.1 hp
    rw [Method.id_of_node? hn] at hid
    exact ⟨Method.containsPin_iff.2 ⟨n, hid ▸ hn, hslot⟩, h p hid⟩
  obtain ⟨ls, m', he, hs⟩ := exec_disconnectEach_ok n.pinRefs m hp
  refine ⟨ls.flatten, m', ?_, hs⟩
  unfold disconnectAll
  rw [exec_get_bind, hn]
  exact exec_bind_ok he _

theorem spares_disconnectAll {id : NodeId} (h : ∀ pin, pin.node = id → m.Attached pin) :
    Spares (disconnectAll id) m := by
  cases hn : m.node? id with
  | none => exact .of_error (exec_disconnectAll_missing hn)
  | some n =>
    obtain ⟨ls, m', he, -⟩ := exec_disconnectAll_ok hn h
    exact .of_ok he

theorem spares_removeNode {id : NodeId} (h : ∀ pin, pin.node = id → m.Attached pin) :
    Spares (removeNode id) m := by
  by_cases hid : id = m.entry
  · obtain ⟨e, he⟩ := exec_removeNode_error (Or.inl hid)
    exact .of_error he
  cases hn : m.node? id with
  | none =>
    obtain ⟨e, he⟩ := exec_removeNode_error (Or.inr hn)
    exact .of_error he
  | some n =>
    -- once its links are gone nothing can fail any more
    obtain ⟨ls, m₁, he₁, hs₁⟩ := exec_disconnectAll_ok hn h
    have hn₁ : (m₁.node? id).map Node.unlinked = some n.unlinked := by
      rw [← Method.node?_shape, hs₁.shape, Method.node?_shape, hn]
      rfl
    obtain ⟨n₁, hn₁, -⟩ := Option.map_eq_some_iff.1 hn₁
    have he : (removeNode id).exec m = (.ok n₁, m₁.without id) := by
      unfold removeNode
      rw [exec_get_bind, if_neg hid]
      show (disconnectAll id >>= _).exec m = _
      rw [exec_bind_ok he₁, exec_get_bind, hn₁]
      rfl
    exact .of_ok he

/-- When an operation that fails leaves the method as it is. `addNode` and `insertNode` never fail half way. A
link is made or severed whole if the pins concerned are `Attached`, and for one link or one pin (`connect`,
`unlink`, `disconnect`) only then. -/
theorem unchanged_of_error (c : TypeCatalog) (m : Method) :
    (∀ kind position, Spares (addNode kind position) m) ∧ (∀ node, Spares (insertNode node) m) ∧
      (∀ a b, Spares (connect c a b) m ↔
        ∀ l, m.checkConnection c a b = .ok l → m.isLinked l = false → m.Attached l.solo) ∧
      (∀ l, Spares (unlink l) m ↔ (m.isLinked l = true → m.Attached l.solo)) ∧
      (∀ pin, Spares (disconnect pin) m ↔ (m.containsPin pin = true → m.Attached pin)) ∧
      ∀ id, (∀ pin, pin.node = id → m.Attached pin) →
        Spares (disconnectAll id) m ∧ Spares (removeNode id) m := by
  refine ⟨fun kind position => spares_addNode kind position m, fun node => spares_insertNode node m,
    fun a b => spares_connect_iff, fun l => spares_unlink_iff, fun pin => spares_disconnect_iff, fun id h => ?_⟩
  exact ⟨spares_disconnectAll h, spares_removeNode h⟩

/-- A method from outside that goes on from its entry to a node that it does not have. -/
def adrift : Method :=
  { Method.make "main" [] [] with
    nodes := [{ Node.make 0 (.methodEntry []) {} with
      execOuts := [{ name := execPinName, outgoing := some (.execIn 7 0) }] }] }

/-- `disconnect` fails at the partner that `adrift` does not have, and yet the link is gone: what is left is not
even the `Same` method. -/
theorem disconnect_adrift :
    Method.load adrift = .ok adrift ∧
      ∃ m', (disconnect (.execOut 0 0)).exec adrift = (.error (.nodeNotFound 7), m') ∧ ¬ m'.Same adrift :=
  ⟨by decide +kernel, _, rfl, by decide +kernel⟩

/-- A method from outside whose entry leads to a node that does not know of it. -/
def oneSided : Method :=
  { Method.make "main" [] [] with
    nodes := [{ Node.make 0 (.methodEntry []) {} with
      execOuts := [{ name := execPinName, outgoing := some (.execIn 1 0) }] }, Node.make 1 .ifElse {}]
    nextId := 2 }

theorem unchanged_of_error_oneSided :
    Method.load oneSided = .ok oneSided ∧ oneSided.dangling = [.execOut 0 0] ∧
      (∀ pin, pin.node = 0 → oneSided.Attached pin) ∧
      ∃ m', (removeNode 0).exec oneSided = (.error (.entryNodeRemoval 0), m') ∧ m' = oneSided := by
  have hload : Method.load oneSided = .ok oneSided := by
    have hsort : oneSided.nodes.mergeSort (fun a b => a.id ≤ b.id) = oneSided.nodes :=
      List.mergeSort_of_pairwise (by decide)
    unfold Method.load
    rw [hsort]
    rfl
  have hattached : ∀ pin, pin.node = 0 → oneSided.Attached pin := by
    rintro ⟨_, kind, slot⟩ rfl q hq
    cases kind <;> rcases slot with _ | slot
    case execOut.zero =>
      cases List.mem_singleton.1 hq
      decide +kernel
    all_goals cases hq
  obtain ⟨-, -, -, -, -, hremove⟩ := unchanged_of_error (.ofPairs []) oneSided
  exact ⟨hload, by decide +kernel, hattached, _, rfl, (hremove 0 hattached).2 _ _ rfl⟩

end GraphM

end VisualScript
