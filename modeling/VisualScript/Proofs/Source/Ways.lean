import Mathlib.Logic.Relation
import VisualScript.Proofs.Source.Order

/-!
# Where control and values go

Control goes from node to node along exec links, and each node takes values from others along data links. A
reference is followed by its node and slot alone, as writing does it, so all of this makes sense also in a
graph whose ends do not agree.

* `Method.Next` and `Method.Feeds` are single links; `Method.Live` nodes are those that writing can ever look at.
* `Way` is a way of control from the entry to a node; `Method.openLoops` are the loops whose bodies it is in.
-/

namespace VisualScript

open Relation

namespace Method

/-- Control can go from `a` on to `b`. -/
def Next (m : Method) (a b : Node) : Prop := ∃ slot, m.next? (.execOut a.id slot) = some b

/-- An output of `p` is the source of an input of `n`. -/
def Feeds (m : Method) (p n : Node) : Prop :=
  ∃ pin ∈ n.dataIns, ∃ source, pin.incoming = some source ∧ m.node? source.node = some p ∧
    source.slot < p.dataOuts.length

/-- Control gets from the entry to `n`, by any number of steps of `Next`. -/
def Reached (m : Method) (n : Node) : Prop := ∃ entry, m.entryNode? = some entry ∧ ReflTransGen m.Next entry n

/-- Control gets to `n`, or to another node that needs its values, which `Feeds` leads to. -/
def Live (m : Method) (n : Node) : Prop := ∃ r, m.Reached r ∧ ReflTransGen m.Feeds n r

/-- To leave through the pin `p` is to enter the body of a loop. -/
def opens (m : Method) (p : PinRef) : Bool :=
  p.slot == bodySlot && (m.node? p.node).any fun n => decide (n.kind = .forLoop)

/-- The loops that were left through their bodies, given the `pins` that were passed. -/
def openLoops (m : Method) (pins : List PinRef) : List NodeId := (pins.filter m.opens).map (·.node)

end Method

/-- A way of control from the entry to a node: the exec outputs through which it left the nodes before, last
one first. -/
inductive Way (m : Method) : List PinRef → Node → Prop
  | entry {n : Node} (h : m.entryNode? = some n) : Way m [] n
  | step {pins : List PinRef} {n n' : Node} {slot : Nat} (h : Way m pins n)
      (hf : m.next? (.execOut n.id slot) = some n') : Way m (.execOut n.id slot :: pins) n'

/-- The nodes on the way through `pins` to `n`, last one first. -/
def trail (pins : List PinRef) (n : Node) : List NodeId := n.id :: pins.map (·.node)

theorem NodeKind.eq_methodEntry {k : NodeKind} (h : k.isEntry = true) : ∃ types, k = .methodEntry types := by
  cases k <;> simp [isEntry] at h
  exact ⟨_, rfl⟩

theorem NodeKind.execOuts_of_isStatement {k : NodeKind} (h : k.isStatement = true) :
    k.execOuts.length = 1 ∧ k ≠ .forLoop := by
  cases k <;> simp [isStatement] at h <;> exact ⟨rfl, by simp⟩

section Ways

variable {m : Method} {pins : List PinRef} {n n' : Node} {slot : Nat}

theorem Method.next?_eq_some (h : m.next? (.execOut n.id slot) = some n') :
    ∃ source out target, m.node? n.id = some source ∧ source.execOuts[slot]? = some out ∧
      out.outgoing = some target ∧ m.node? target.node = some n' := by
  simp only [next?, PinRef.execOut, Option.bind_eq_bind, Option.bind_eq_some_iff] at h
  obtain ⟨source, hsource, out, hout, target, htarget, hn'⟩ := h
  exact ⟨source, out, target, hsource, hout, htarget, hn'⟩

theorem Method.node?_of_next? (h : m.next? (.execOut n.id slot) = some n') : m.node? n'.id = some n' := by
  obtain ⟨_, _, _, _, _, _, hn'⟩ := next?_eq_some h
  exact node?_id hn'

theorem Way.node? (h : Way m pins n) : m.node? n.id = some n := by
  cases h with
  | entry h => exact Method.node?_id h
  | step _ hf => exact Method.node?_of_next? hf

theorem Way.reached (h : Way m pins n) : m.Reached n := by
  induction h with
  | entry h => exact ⟨_, h, .refl⟩
  | step _ hf ih =>
    obtain ⟨entry, he, hr⟩ := ih
    exact ⟨entry, he, hr.tail ⟨_, hf⟩⟩

theorem Method.Reached.exists_way (h : m.Reached n) : ∃ pins, Way m pins n := by
  obtain ⟨entry, he, hr⟩ := h
  induction hr with
  | refl => exact ⟨[], .entry he⟩
  | tail _ hnext ih =>
    obtain ⟨pins, hw⟩ := ih
    obtain ⟨slot, hf⟩ := hnext
    exact ⟨_, hw.step hf⟩

theorem Method.Reached.live (h : m.Reached n) : m.Live n := ⟨n, h, .refl⟩

theorem Method.Live.node? (h : m.Live n) : m.node? n.id = some n := by
  obtain ⟨r, hr, hfeeds⟩ := h
  obtain ⟨pins, hway⟩ := hr.exists_way
  cases hfeeds using ReflTransGen.head_induction_on with
  | refl => exact hway.node?
  | head hn _ =>
    obtain ⟨_, _, _, _, hnode, _⟩ := hn
    exact node?_id hnode

/-! ### References that are answered -/

theorem Method.mem_refs_execOut {out : ExecOut} {target : PinRef} (hn : m.node? n.id = some n)
    (hout : n.execOuts[slot]? = some out) (htarget : out.outgoing = some target) :
    target ∈ m.refs (.execOut n.id slot) :=
  (mem_refs_iff execOuts_lawful rfl).2
    ⟨out, pin?_eq_some_iff.2 ⟨rfl, n, hn, hout⟩, by simp [Linkable.refs, htarget]⟩

theorem Method.mem_refs_dataIn {pin : DataIn} {source : PinRef} (hn : m.node? n.id = some n)
    (hpin : n.dataIns[slot]? = some pin) (hsource : pin.incoming = some source) :
    source ∈ m.refs (.dataIn n.id slot) :=
  (mem_refs_iff dataIns_lawful rfl).2
    ⟨pin, pin?_eq_some_iff.2 ⟨rfl, n, hn, hpin⟩, by simp [Linkable.refs, hsource]⟩

theorem Method.Mirrored.pin?_of_supply {job : Job} (hm : job.method.Mirrored) {s : Supply}
    (hn : job.method.node? n.id = some n) (hs : job.supply n slot = .ok s) :
    job.method.pin? dataOuts s.source = some s.produced := by
  obtain ⟨hproducer, hproduced, pin, hpin, hsource⟩ := Job.supply_eq_ok hs
  have hkind : s.source.kind = .dataOut := (hm _ _ (mem_refs_dataIn hn hpin hsource)).1
  exact pin?_eq_some_iff.2 ⟨hkind, s.producer, hproducer, hproduced⟩

/-! ### Ways without repetitions -/

/-- A `Way` passes through a node by a way to that node. -/
theorem Way.exists_of_mem_trail (h : Way m pins n) {id : NodeId} (hid : id ∈ trail pins n) :
    ∃ pins' k, Way m pins' k ∧ k.id = id ∧ trail pins' k <:+ trail pins n := by
  induction h with
  | @entry n h => exact ⟨[], n, .entry h, (List.mem_singleton.1 hid).symm, List.suffix_rfl⟩
  | @step pins n n' slot h hf ih =>
    rcases List.mem_cons.1 hid with rfl | hid
    · exact ⟨_, n', h.step hf, rfl, List.suffix_rfl⟩
    · obtain ⟨pins', k, hk, hid, hsuffix⟩ := ih hid
      exact ⟨pins', k, hk, hid, hsuffix.trans (List.suffix_cons _ _)⟩

theorem Way.exists_nodup (h : Way m pins n) : ∃ pins', Way m pins' n ∧ (trail pins' n).Nodup := by
  induction h with
  | entry h => exact ⟨[], .entry h, List.nodup_singleton _⟩
  | @step pins n n' slot h hf ih =>
    obtain ⟨pins', hw, hnd⟩ := ih
    by_cases hmem : n'.id ∈ trail pins' n
    · -- it was there before, so the way back to that place is short cut
      obtain ⟨pins'', k, hk, hid, hsuffix⟩ := hw.exists_of_mem_trail hmem
      have heq : k = n' := by
        have hk' := hk.node?
        rw [hid, Method.node?_of_next? hf] at hk'
        exact (Option.some.inj hk').symm
      exact ⟨pins'', heq ▸ hk, heq ▸ hnd.sublist hsuffix.sublist⟩
    · exact ⟨_, hw.step hf, List.nodup_cons.2 ⟨hmem, hnd⟩⟩

/-- What stands on the `trail` of a way leads on to its end. -/
theorem Way.reflTransGen_of_mem_trail (h : Way m pins n) {k : Node} (hk : m.node? k.id = some k)
    (hmem : k.id ∈ trail pins n) : ReflTransGen m.Next k n := by
  induction h with
  | @entry n h =>
    have hid : k.id = n.id := List.mem_singleton.1 hmem
    rw [hid, Method.node?_id h] at hk
    cases hk
    exact .refl
  | @step pins n n' slot h hf ih =>
    rcases List.mem_cons.1 hmem with hid | hmem
    · rw [hid, Method.node?_of_next? hf] at hk
      cases hk
      exact .refl
    · exact (ih hmem).tail ⟨slot, hf⟩

theorem Method.openLoops_cons (p : PinRef) (pins : List PinRef) :
    m.openLoops (p :: pins) = if m.opens p then p.node :: m.openLoops pins else m.openLoops pins := by
  unfold openLoops
  rw [List.filter_cons]
  split_ifs <;> rfl

theorem Method.opens_eq_false (hn : m.node? n.id = some n) (hk : n.kind ≠ .forLoop) (slot : Nat) :
    m.opens (.execOut n.id slot) = false := by
  simp [opens, PinRef.execOut, hn, hk]

theorem Method.opens_body (hn : m.node? n.id = some n) (hk : n.kind = .forLoop) :
    m.opens (.execOut n.id bodySlot) = true := by
  simp [opens, PinRef.execOut, hn, hk]

theorem Method.opens_completed (n : Node) : m.opens (.execOut n.id completedSlot) = false := rfl

end Ways

end VisualScript
