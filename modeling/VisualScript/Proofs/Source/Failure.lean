import Mathlib.Data.List.Perm.Subperm
import VisualScript.Proofs.Source.Ways

/-!
# How writing fails

The relations here say where writing can be when it fails, and why, as those of a success say what it consists of.
What is proved of all failures is proved from them.

* `Arrives`: writing has come to an exec output; `Begins`: it looks for the inputs of a node.
* `Astray`, `Unsupplied`, `Refuses`: control cannot be followed, an input has no supply, an input gets no text.
* `Fails`: writing fails with an error.

`fails_of_source` has to show that the budgets are never used up. A path has no repetitions, nor have the nodes
that wait for each other, and a method has one node for each.
-/

namespace VisualScript

open Relation

/-! ### Places -/

/-- Writing comes to an exec output: `Arrives job path loops pin scope` has the nodes behind, the loops that stand
open, the output and what is known there. -/
inductive Arrives (job : Job) : List NodeId → List NodeId → PinRef → Scope → Prop
  | entry {entry : Node} (hn : job.method.entryNode? = some entry) :
      Arrives job [entry.id] [] (.execOut entry.id 0) (Job.entryScope entry)
  | skip {path loops : List NodeId} {pin : PinRef} {scope : Scope} {node : Node}
      (h : Arrives job path loops pin scope) (hf : job.follow pin = .ok (some node)) (hp : node.id ∉ path)
      (hk : node.kind.isStatement = true) (he : node.id ∈ scope.emitted) :
      Arrives job (node.id :: path) loops (.execOut node.id 0) scope
  | make {path loops : List NodeId} {pin : PinRef} {scope : Scope} {node : Node} {counts : Counts} {d : Draft}
      (h : Arrives job path loops pin scope) (hf : job.follow pin = .ok (some node)) (hp : node.id ∉ path)
      (hk : node.kind.isStatement = true) (he : node.id ∉ scope.emitted)
      (hm : Makes job [] node (scope.draft counts) d) :
      Arrives job (node.id :: path) loops (.execOut node.id 0) d.scope
  | branch {path loops : List NodeId} {pin : PinRef} {scope : Scope} {node : Node} {counts : Counts} {d : Draft}
      {condition : String} {slot : Nat} (h : Arrives job path loops pin scope)
      (hf : job.follow pin = .ok (some node)) (hp : node.id ∉ path) (hk : node.kind = .ifElse)
      (hr : ResolvesFrom job [] node 0 (scope.draft counts) [condition] d)
      (hslot : slot = thenSlot ∨ slot = elseSlot) :
      Arrives job (node.id :: path) loops (.execOut node.id slot) d.scope
  | body {path loops : List NodeId} {pin : PinRef} {scope : Scope} {node : Node} {counts : Counts} {d : Draft}
      {initial limit index : String} (h : Arrives job path loops pin scope)
      (hf : job.follow pin = .ok (some node)) (hp : node.id ∉ path) (hk : node.kind = .forLoop)
      (hr : ResolvesFrom job [] node 0 (scope.draft counts) [initial, limit] d) :
      Arrives job (node.id :: path) (node.id :: loops) (.execOut node.id bodySlot)
        ((d.scope.forgetAll job.method).bind (.dataOut node.id 0) index)
  | completed {path loops : List NodeId} {pin : PinRef} {scope : Scope} {node : Node} {counts : Counts}
      {d : Draft} {initial limit : String} (h : Arrives job path loops pin scope)
      (hf : job.follow pin = .ok (some node)) (hp : node.id ∉ path) (hk : node.kind = .forLoop)
      (hr : ResolvesFrom job [] node 0 (scope.draft counts) [initial, limit] d) :
      Arrives job (node.id :: path) loops (.execOut node.id completedSlot) (d.scope.forgetAll job.method)

/-- Writing begins to look for the inputs of a node, while the statements of `pending` wait for them. -/
inductive Begins (job : Job) : List NodeId → Node → Draft → Prop
  | enter {path loops : List NodeId} {pin : PinRef} {scope : Scope} {node : Node} {counts : Counts}
      (h : Arrives job path loops pin scope) (hf : job.follow pin = .ok (some node)) (hp : node.id ∉ path) :
      Begins job [] node (scope.draft counts)
  | make {path loops : List NodeId} {pin : PinRef} {scope : Scope} {node : Node} {counts : Counts}
      (h : Arrives job path loops pin scope) (hf : job.follow pin = .ok (some node)) (hp : node.id ∉ path)
      (hk : node.kind.isStatement = true) : Begins job [node.id] node (scope.draft counts)
  | pull {pending : List NodeId} {node : Node} {d d' : Draft} {texts : List String} {s : Supply}
      (h : Begins job pending node d) (hr : ResolvesFrom job pending node 0 d texts d')
      (hs : job.supply node texts.length = .ok s) (hk : s.producer.kind.isStatement = true)
      (hp : s.producer.id ∉ pending) : Begins job (s.producer.id :: pending) s.producer d'

/-! ### Reasons -/

/-- Control cannot be followed from the exec output `pin`: it is missing, or the node that its link names. -/
inductive Astray (job : Job) (pin : PinRef) : SourceError → Prop
  | noOutput (h : ∀ source, job.method.node? pin.node = some source → source.execOuts[pin.slot]? = none) :
      Astray job pin (.danglingReference pin)
  | noTarget {source : Node} {out : ExecOut} {target : PinRef} (hsource : job.method.node? pin.node = some source)
      (hout : source.execOuts[pin.slot]? = some out) (htarget : out.outgoing = some target)
      (h : job.method.node? target.node = none) : Astray job pin (.danglingReference target)

/-- The input at `slot` has no `supply`. -/
inductive Unsupplied (job : Job) (node : Node) (slot : Nat) : SourceError → Prop
  | noInput (h : node.dataIns[slot]? = none) :
      Unsupplied job node slot (.danglingReference (.dataIn node.id slot))
  | unlinked {pin : DataIn} (hpin : node.dataIns[slot]? = some pin) (h : pin.incoming = none) :
      Unsupplied job node slot (.missingConnection node.id node.label pin.name)
  | astray {pin : DataIn} {source : PinRef} (hpin : node.dataIns[slot]? = some pin)
      (hsource : pin.incoming = some source)
      (h : ∀ p, job.method.node? source.node = some p → p.dataOuts[source.slot]? = none) :
      Unsupplied job node slot (.danglingReference source)
  | misfit {pin : DataIn} {source : PinRef} {producer : Node} {produced : DataOut}
      (hpin : node.dataIns[slot]? = some pin) (hsource : pin.incoming = some source)
      (hproducer : job.method.node? source.node = some producer)
      (hproduced : producer.dataOuts[source.slot]? = some produced)
      (h : job.catalog.isAssignable produced.type pin.type = false) :
      Unsupplied job node slot (.typeMismatch node.id pin.name pin.type produced.type)

/-- The nodes that only lead control: the entry, returns, branches and loops. No statement can be written where one
of their outputs is read, so the value has to be known there. -/
def NodeKind.isControl : NodeKind → Bool
  | .methodEntry _ | .ret _ | .ifElse | .forLoop => true
  | _ => false

/-- The input at `slot` gets no text, although no statement that it waits for fails. -/
inductive Refuses (job : Job) (pending : List NodeId) (node : Node) (slot : Nat) (d : Draft) : SourceError → Prop
  | unsupplied {e : SourceError} (h : Unsupplied job node slot e) : Refuses job pending node slot d e
  | cyclic {s : Supply} (hs : job.supply node slot = .ok s) (hk : s.producer.kind.isStatement = true)
      (hp : s.producer.id ∈ pending) :
      Refuses job pending node slot d (.dataCycle s.producer.id s.producer.label)
  | spent {s : Supply} (hs : job.supply node slot = .ok s) (hv : d.scope.value? s.source = none)
      (he : s.producer.id ∈ d.scope.emitted) : Refuses job pending node slot d s.outOfScope
  | unnamed {s : Supply} {d' : Draft} (hs : job.supply node slot = .ok s)
      (hm : Makes job pending s.producer d d') (hv : d'.scope.value? s.source = none) :
      Refuses job pending node slot d s.outOfScope
  | outside {s : Supply} (hs : job.supply node slot = .ok s) (hv : d.scope.value? s.source = none)
      (hk : s.producer.kind.isControl = true) : Refuses job pending node slot d s.outOfScope

/-- Control cannot be led to these nodes: they have no `execIns`. -/
def NodeKind.isSource : NodeKind → Bool
  | .methodEntry _ | .getter _ | .literal .. => true
  | _ => false

/-- Writing fails with an error, by the place where it is (`Arrives`, `Begins`) and the reason. -/
inductive Fails (job : Job) : SourceError → Prop
  | noEntry (h : job.method.entryNode? = none) : Fails job .missingEntry
  | astray {path loops : List NodeId} {pin : PinRef} {scope : Scope} {e : SourceError}
      (h : Arrives job path loops pin scope) (hx : Astray job pin e) : Fails job e
  | reenters {path loops : List NodeId} {pin : PinRef} {scope : Scope} {node : Node}
      (h : Arrives job path loops pin scope) (hf : job.follow pin = .ok (some node)) (hp : node.id ∈ path) :
      Fails job (.execCycle node.id node.label)
  | barred {path loops : List NodeId} {pin : PinRef} {scope : Scope} {node : Node}
      (h : Arrives job path loops pin scope) (hf : job.follow pin = .ok (some node))
      (hk : node.kind.isSource = true) : Fails job (.danglingReference (.execIn node.id 0))
  | refused {pending : List NodeId} {node : Node} {d d' : Draft} {texts : List String} {e : SourceError}
      (h : Begins job pending node d) (hr : ResolvesFrom job pending node 0 d texts d')
      (hl : texts.length < node.inputCount) (hx : Refuses job pending node texts.length d' e) : Fails job e

/-! ### Places are in the graph -/

section Places

variable {job : Job} {path loops pending : List NodeId} {pin : PinRef} {scope : Scope} {node : Node} {d : Draft}

/-- Apart from what is known, writing goes from node to node: it leaves each one through an exec output of its
kind, and opens a loop where it enters the body. -/
theorem Arrives.induction_along {P : List NodeId → List NodeId → PinRef → Prop}
    (entry : ∀ entry, job.method.entryNode? = some entry → P [entry.id] [] (.execOut entry.id 0))
    (step : ∀ {path loops : List NodeId} {pin : PinRef} {node : Node} (slot : Nat), P path loops pin →
      job.follow pin = .ok (some node) → node.id ∉ path → slot < node.kind.execOuts.length →
      P (node.id :: path) (if job.method.opens (.execOut node.id slot) then node.id :: loops else loops)
        (.execOut node.id slot))
    (h : Arrives job path loops pin scope) : P path loops pin := by
  -- all kinds but a loop leave the open loops as they are
  have straight {path loops : List NodeId} {pin : PinRef} {node : Node} {slot : Nat} (ih : P path loops pin)
      (hf : job.follow pin = .ok (some node)) (hp : node.id ∉ path) (hk : node.kind ≠ .forLoop)
      (hslot : slot < node.kind.execOuts.length) : P (node.id :: path) loops (.execOut node.id slot) := by
    have hstep := step slot ih hf hp hslot
    rwa [Method.opens_eq_false (Job.node?_of_follow hf) hk, if_neg Bool.false_ne_true] at hstep
  induction h with
  | entry hn => exact entry _ hn
  | skip _ hf hp hk _ ih =>
    obtain ⟨hlen, hne⟩ := NodeKind.execOuts_of_isStatement hk
    exact straight ih hf hp hne (by rw [hlen]; exact Nat.one_pos)
  | make _ hf hp hk _ _ ih =>
    obtain ⟨hlen, hne⟩ := NodeKind.execOuts_of_isStatement hk
    exact straight ih hf hp hne (by rw [hlen]; exact Nat.one_pos)
  | branch _ hf hp hk _ hslot ih =>
    refine straight ih hf hp (by simp [hk]) ?_
    rw [hk]
    rcases hslot with rfl | rfl
    · exact Nat.two_pos
    · exact Nat.one_lt_two
  | body _ hf hp hk _ ih =>
    have hstep := step bodySlot ih hf hp (by rw [hk]; exact Nat.two_pos)
    rwa [Method.opens_body (Job.node?_of_follow hf) hk, if_pos rfl] at hstep
  | completed _ hf hp hk _ ih =>
    have hstep := step completedSlot ih hf hp (by rw [hk]; exact Nat.one_lt_two)
    rwa [Method.opens_completed, if_neg Bool.false_ne_true] at hstep

theorem Arrives.nodup (h : Arrives job path loops pin scope) : path.Nodup := by
  refine h.induction_along (P := fun path _ _ => path.Nodup) ?_ ?_
  · intro entry _
    exact List.nodup_singleton _
  · intro path loops pin node slot ih _ hp _
    exact List.nodup_cons.2 ⟨hp, ih⟩

/-- Writing follows a `Way` of control. -/
theorem Arrives.exists_way (h : Arrives job path loops pin scope) :
    ∃ pins n slot, Way job.method pins n ∧ path = trail pins n ∧ pin = .execOut n.id slot := by
  refine h.induction_along (P := fun path _ pin => ∃ pins n slot, Way job.method pins n ∧ path = trail pins n ∧
    pin = .execOut n.id slot) ?_ ?_
  · intro entry hn
    exact ⟨[], entry, 0, .entry hn, rfl, rfl⟩
  · rintro path loops pin node slot ⟨pins, n, slot', hw, rfl, rfl⟩ hf _ _
    exact ⟨_, node, slot, hw.step (Job.next?_of_follow hf), rfl, rfl⟩

theorem Arrives.reached (h : Arrives job path loops pin scope) (hf : job.follow pin = .ok (some node)) :
    job.method.Reached node := by
  obtain ⟨pins, n, slot, hw, rfl, rfl⟩ := h.exists_way
  exact (hw.step (Job.next?_of_follow hf)).reached

theorem Arrives.exists_node? (h : Arrives job path loops pin scope) {id : NodeId} (hid : id ∈ path) :
    ∃ n, job.method.node? id = some n := by
  obtain ⟨pins, n, slot, hw, rfl, rfl⟩ := h.exists_way
  obtain ⟨pins', k, hk, rfl, -⟩ := hw.exists_of_mem_trail hid
  exact ⟨k, hk.node?⟩

theorem Job.feeds_of_supply {slot : Nat} {s : Supply} (h : job.supply node slot = .ok s) :
    job.method.Feeds s.producer node := by
  obtain ⟨hproducer, hproduced, pin, hpin, hsource⟩ := supply_eq_ok h
  exact ⟨pin, List.mem_of_getElem? hpin, s.source, hsource, hproducer, (List.getElem?_eq_some_iff.1 hproduced).1⟩

theorem Begins.live (h : Begins job pending node d) : job.method.Live node := by
  induction h with
  | enter h hf => exact (h.reached hf).live
  | make h hf => exact (h.reached hf).live
  | pull _ _ hs _ _ ih =>
    obtain ⟨r, hr, hfeeds⟩ := ih
    exact ⟨r, hr, hfeeds.head (Job.feeds_of_supply hs)⟩

/-- The nodes of `pending` are all fed by the one whose inputs are looked for. -/
theorem Begins.exists_of_mem (h : Begins job pending node d) {id : NodeId} (hid : id ∈ pending) :
    ∃ n, job.method.node? id = some n ∧ ReflTransGen job.method.Feeds node n := by
  induction h with
  | enter => cases hid
  | @make _ _ _ _ node _ _ hf =>
    cases List.mem_singleton.1 hid
    exact ⟨node, Job.node?_of_follow hf, .refl⟩
  | pull _ _ hs _ _ ih =>
    rcases List.mem_cons.1 hid with rfl | hid
    · exact ⟨_, Method.node?_id (Job.supply_eq_ok hs).1, .refl⟩
    · obtain ⟨n, hn, hfeeds⟩ := ih hid
      exact ⟨n, hn, hfeeds.head (Job.feeds_of_supply hs)⟩

theorem Begins.nodup (h : Begins job pending node d) : pending.Nodup := by
  induction h with
  | enter => exact List.nodup_nil
  | make => exact List.nodup_singleton _
  | pull _ _ _ _ hp ih => exact List.nodup_cons.2 ⟨hp, ih⟩

/-- Different `ids` of nodes are not more than the method has nodes. -/
theorem Method.length_le_nodes {m : Method} {ids : List NodeId} (hnd : ids.Nodup)
    (h : ∀ id ∈ ids, ∃ n, m.node? id = some n) : ids.length ≤ m.nodes.length := by
  have hsub : ids ⊆ m.nodes.map (·.id) := by
    intro id hid
    obtain ⟨n, hn⟩ := h id hid
    exact List.mem_map.2 ⟨n, mem_of_node? hn, id_of_node? hn⟩
  have hle := (hnd.subperm hsub).length_le
  rwa [List.length_map] at hle

end Places

/-! ### Failures of drafts -/

theorem DraftM.run_bind_eq_error {α β : Type} {x : DraftM α} {f : α → DraftM β} {d : Draft} {e : SourceError}
    (h : (x >>= f).run d = .error e) :
    x.run d = .error e ∨ ∃ a d', x.run d = .ok (a, d') ∧ (f a).run d' = .error e := by
  rw [StateT.run_bind] at h
  rcases hx : x.run d with e' | ⟨a, d'⟩
  · rw [hx] at h
    cases h
    exact Or.inl rfl
  · rw [hx] at h
    exact Or.inr ⟨a, d', rfl, h⟩

theorem DraftM.run_lift_eq_error {α : Type} {x : Except SourceError α} {d : Draft} {e : SourceError}
    (h : (liftM x : DraftM α).run d = .error e) : x = .error e := by
  rcases x with e' | a
  · cases h
    rfl
  · cases h

namespace Job

variable {job : Job} {pending : List NodeId} {pull : Node → DraftM Unit} {node : Node} {d d' : Draft}
  {e : SourceError}

theorem unsupplied_of_supply {slot : Nat} (h : job.supply node slot = .error e) : Unsupplied job node slot e := by
  unfold supply at h
  cases hpin : node.dataIns[slot]? with
  | none =>
    rw [hpin] at h
    cases h
    exact .noInput hpin
  | some pin =>
    simp only [hpin] at h
    cases hsource : pin.incoming with
    | none =>
      rw [hsource] at h
      cases h
      exact .unlinked hpin hsource
    | some source =>
      simp only [hsource] at h
      cases hproducer : job.method.node? source.node with
      | none =>
        rw [hproducer] at h
        cases h
        exact .astray hpin hsource (by simp [hproducer])
      | some producer =>
        simp only [hproducer] at h
        cases hproduced : producer.dataOuts[source.slot]? with
        | none =>
          rw [hproduced] at h
          cases h
          -- the node is there, but it has no such output
          refine .astray hpin hsource fun p hp => ?_
          rw [hproducer] at hp
          cases hp
          exact hproduced
        | some produced =>
          simp only [hproduced] at h
          cases hfits : job.catalog.isAssignable produced.type pin.type with
          | true =>
            rw [hfits] at h
            cases h
          | false =>
            rw [hfits] at h
            cases h
            exact .misfit hpin hsource hproducer hproduced hfits

/-- If `pullText` fails, the input is refused or the statement that it waits for fails. -/
theorem pullText_eq_error {slot : Nat} {s : Supply} (hs : job.supply node slot = .ok s)
    (hv : d.scope.value? s.source = none) (hk : s.producer.kind.isStatement = true)
    (hpull : ∀ {n d d'}, n.kind.isStatement = true → (pull n).run d = .ok ((), d') → Makes job pending n d d')
    (h : (pullText pending pull s).run d = .error e) :
    Refuses job pending node slot d e ∨ s.producer.id ∉ pending ∧ (pull s.producer).run d = .error e := by
  unfold pullText at h
  by_cases hp : s.producer.id ∈ pending
  · simp only [hp, if_true] at h
    cases h
    exact Or.inl (.cyclic hs hk hp)
  simp only [hp, if_false] at h
  obtain hget | ⟨d₁, d₂, hget, h⟩ := DraftM.run_bind_eq_error h
  · cases hget
  cases hget
  by_cases he : s.producer.id ∈ d.scope.emitted
  · simp only [he, if_true] at h
    cases h
    exact Or.inl (.spent hs hv he)
  simp only [he, if_false] at h
  obtain hrun | ⟨⟨⟩, d₃, hrun, h⟩ := DraftM.run_bind_eq_error h
  · exact Or.inr ⟨hp, hrun⟩
  obtain hget | ⟨known, d₄, hget, h⟩ := DraftM.run_bind_eq_error h
  · cases hget
  cases hget
  cases hv' : d₃.scope.value? s.source with
  | some text =>
    simp only [hv'] at h
    cases h
  | none =>
    simp only [hv'] at h
    cases h
    exact Or.inl (.unnamed hs (hpull hk hrun) hv')

/-- If `operand` fails, the input is refused or the statement that it waits for fails. -/
theorem operand_eq_error {slot : Nat}
    (hpull : ∀ {n d d'}, n.kind.isStatement = true → (pull n).run d = .ok ((), d') → Makes job pending n d d')
    (h : (job.operand pending pull node slot).run d = .error e) :
    Refuses job pending node slot d e ∨ ∃ s, job.supply node slot = .ok s ∧
      s.producer.kind.isStatement = true ∧ s.producer.id ∉ pending ∧ (pull s.producer).run d = .error e := by
  unfold operand at h
  obtain hlift | ⟨s, d₁, hlift, hrest⟩ := DraftM.run_bind_eq_error h
  · exact Or.inl (.unsupplied (unsupplied_of_supply (DraftM.run_lift_eq_error hlift)))
  obtain ⟨hs, rfl⟩ := DraftM.run_lift_eq_ok hlift
  obtain hget | ⟨known, d₂, hget, h⟩ := DraftM.run_bind_eq_error hrest
  · cases hget
  cases hget
  cases hv : d₁.scope.value? s.source with
  | some text =>
    simp only [hv] at h
    cases h
  | none =>
    simp only [hv] at h
    have hstatement : s.producer.kind.isStatement = true → (pullText pending pull s).run d₁ = .error e →
        Refuses job pending node slot d₁ e ∨ ∃ s, job.supply node slot = .ok s ∧
          s.producer.kind.isStatement = true ∧ s.producer.id ∉ pending ∧ (pull s.producer).run d₁ = .error e := by
      intro hk h
      exact (pullText_eq_error hs hv hk hpull h).imp_right fun ⟨hp, hrun⟩ => ⟨s, hs, hk, hp, hrun⟩
    -- nodes of control have no value unless control has come to them before
    have hcontrol : s.producer.kind.isControl = true → e = s.outOfScope →
        Refuses job pending node slot d₁ e := by
      rintro hk rfl
      exact .outside hs hv hk
    cases hk : s.producer.kind <;> simp only [hk] at h
    case literal => cases h
    case getter => cases h
    case callMethod => exact hstatement (by rw [hk]; rfl) h
    case callStatic => exact hstatement (by rw [hk]; rfl) h
    case setter => exact hstatement (by rw [hk]; rfl) h
    all_goals
      cases h
      exact Or.inl (hcontrol (by rw [hk]; rfl) rfl)

theorem mapM_operand_eq_error {first count : Nat}
    (hpull : ∀ {n d d'}, n.kind.isStatement = true → (pull n).run d = .ok ((), d') → Makes job pending n d d')
    (h : ((List.range' first count).mapM (job.operand pending pull node)).run d = .error e) :
    ∃ texts d', texts.length < count ∧ ResolvesFrom job pending node first d texts d' ∧
      (job.operand pending pull node (first + texts.length)).run d' = .error e := by
  induction count generalizing first d with
  | zero => cases h
  | succ count ih =>
    rw [List.range'_succ, List.mapM_cons] at h
    obtain htext | ⟨text, d₁, htext, h₁⟩ := DraftM.run_bind_eq_error h
    · exact ⟨[], d, Nat.succ_pos _, .nil, htext⟩
    obtain hrest | ⟨rest, d₂, hrest, h₂⟩ := DraftM.run_bind_eq_error h₁
    · obtain ⟨texts, d', hl, hr, herror⟩ := ih hrest
      refine ⟨text :: texts, d', Nat.succ_lt_succ hl, .cons (resolves_of_operand hpull htext) hr, ?_⟩
      rwa [Nat.add_assoc, Nat.add_comm 1] at herror
    · cases h₂

/-- If `build` fails, one of the inputs of the node gets no text. -/
theorem build_eq_error
    (hpull : ∀ {n d d'}, n.kind.isStatement = true → (pull n).run d = .ok ((), d') → Makes job pending n d d')
    (h : (job.build pending pull node).run d = .error e) :
    ∃ texts d', texts.length < node.inputCount ∧ ResolvesFrom job pending node 0 d texts d' ∧
      (job.operand pending pull node texts.length).run d' = .error e := by
  unfold build at h
  unfold Node.inputCount
  cases hkind : node.kind <;> simp only [hkind] at h ⊢
  case callMethod name as rs =>
    obtain htarget | ⟨target, d₁, htarget, h₁⟩ := DraftM.run_bind_eq_error h
    · exact ⟨[], d, Nat.succ_pos _, .nil, htarget⟩
    obtain harguments | ⟨arguments, d₂, harguments, h₂⟩ := DraftM.run_bind_eq_error h₁
    · -- the target counts as one more input that was found
      obtain ⟨texts, d', hl, hr, herror⟩ := mapM_operand_eq_error hpull harguments
      refine ⟨target :: texts, d', Nat.succ_lt_succ hl, .cons (resolves_of_operand hpull htarget) hr, ?_⟩
      rwa [Nat.add_comm] at herror
    · rw [DraftM.run_bind_ok (run_bindOutputs job node d₂)] at h₂
      cases h₂
  case callStatic t name as rs =>
    obtain harguments | ⟨arguments, d₁, harguments, h₁⟩ := DraftM.run_bind_eq_error h
    · obtain ⟨texts, d', hl, hr, herror⟩ := mapM_operand_eq_error hpull harguments
      rw [Nat.zero_add] at herror
      exact ⟨texts, d', hl, hr, herror⟩
    · rw [DraftM.run_bind_ok (run_bindOutputs job node d₁)] at h₁
      cases h₁
  case setter v =>
    obtain hvalue | ⟨value, d₁, hvalue, h₁⟩ := DraftM.run_bind_eq_error h
    · exact ⟨[], d, Nat.one_pos, .nil, hvalue⟩
    · cases h₁
  all_goals cases h

/-- An `operand` that fails makes writing fail, while a `budget` is left for the nodes that do not wait. -/
theorem fails_of_operand {budget : Nat} {texts : List String} (hbegin : Begins job pending node d)
    (hr : ResolvesFrom job pending node 0 d texts d') (hl : texts.length < node.inputCount)
    (hstatement : ∀ {n d}, Begins job (n.id :: pending) n d →
      (job.statement budget pending n).run d = .error e → Fails job e)
    (h : (job.operand pending (job.statement budget pending) node texts.length).run d' = .error e) :
    Fails job e := by
  obtain hx | ⟨s, hs, hk, hp, hrun⟩ := operand_eq_error makes_of_statement h
  · exact .refused hbegin hr hl hx
  · exact hstatement (.pull hbegin hr hs hk hp) hrun

theorem fails_of_statement {budget : Nat} (hroom : job.method.nodes.length ≤ pending.length + budget)
    (hbegin : Begins job (node.id :: pending) node d)
    (h : (job.statement budget pending node).run d = .error e) : Fails job e := by
  induction budget generalizing pending node d with
  | zero =>
    -- all nodes of the method would wait, and this one too
    have hle := Method.length_le_nodes hbegin.nodup fun id hid =>
      (hbegin.exists_of_mem hid).imp fun _ => And.left
    rw [List.length_cons] at hle
    omega
  | succ budget ih =>
    unfold statement at h
    obtain hbuild | ⟨⟨⟩, d₁, _, hmark⟩ := DraftM.run_bind_eq_error h
    · obtain ⟨texts, d', hl, hr, herror⟩ := build_eq_error makes_of_statement hbuild
      refine fails_of_operand hbegin hr hl (fun hb hrun => ih ?_ hb hrun) herror
      rw [List.length_cons]
      omega
    · cases hmark

theorem fails_of_input {texts : List String} (hbegin : Begins job [] node d)
    (hr : ResolvesFrom job [] node 0 d texts d') (hl : texts.length < node.inputCount)
    (h : (job.operand [] (job.statement job.budget []) node texts.length).run d' = .error e) : Fails job e :=
  fails_of_operand hbegin hr hl (fun hb hrun => fails_of_statement (Nat.le_add_left ..) hb hrun) h

theorem fails_of_inputs (hbegin : Begins job [] node d) (hk : node.inputCount = node.dataIns.length)
    (h : (job.operandsFrom [] (job.statement job.budget []) node 0).run d = .error e) : Fails job e := by
  obtain ⟨texts, d', hl, hr, herror⟩ := mapM_operand_eq_error makes_of_statement h
  rw [Nat.zero_add] at herror
  rw [Nat.sub_zero, ← hk] at hl
  exact fails_of_input hbegin hr hl herror

theorem fails_of_bounds (hbegin : Begins job [] node d) (hk : node.inputCount = 2)
    (h : (job.bounds (job.statement job.budget []) node).run d = .error e) : Fails job e := by
  unfold bounds at h
  obtain hinitial | ⟨initial, d₁, hinitial, h₁⟩ := DraftM.run_bind_eq_error h
  · exact fails_of_input hbegin .nil (by rw [hk]; exact Nat.two_pos) hinitial
  obtain hlimit | ⟨limit, d₂, _, h₂⟩ := DraftM.run_bind_eq_error h₁
  · have hone : 1 < node.inputCount := by rw [hk]; exact Nat.one_lt_two
    exact fails_of_input hbegin (.cons (resolves_of_input hinitial) .nil) hone hlimit
  · cases h₂

/-! ### Failures of code -/

variable {path loops : List NodeId} {pin : PinRef} {scope : Scope} {counts : Counts}

theorem bind_eq_error {α β : Type} {x : Except SourceError α} {f : α → Except SourceError β}
    (h : x >>= f = .error e) : x = .error e ∨ ∃ a, x = .ok a ∧ f a = .error e := by
  rcases x with e' | a
  · cases h
    exact Or.inl rfl
  · exact Or.inr ⟨a, rfl, h⟩

theorem astray_of_follow (h : job.follow pin = .error e) : Astray job pin e := by
  unfold follow at h
  cases hsource : job.method.node? pin.node with
  | none =>
    rw [hsource] at h
    cases h
    exact .noOutput (by simp [hsource])
  | some source =>
    simp only [hsource] at h
    cases hout : source.execOuts[pin.slot]? with
    | none =>
      rw [hout] at h
      cases h
      refine .noOutput fun source' hs => ?_
      rw [hsource] at hs
      cases hs
      exact hout
    | some out =>
      simp only [hout] at h
      cases htarget : out.outgoing with
      | none =>
        rw [htarget] at h
        cases h
      | some target =>
        simp only [htarget] at h
        cases hnode : job.method.node? target.node with
        | none =>
          rw [hnode] at h
          cases h
          exact .noTarget hsource hout htarget hnode
        | some node =>
          rw [hnode] at h
          cases h

theorem after_eq_error {α : Type} {x : DraftM α} {next : α → Scope → Counts → Drafted}
    (h : after x scope counts next = .error e) :
    x.run (scope.draft counts) = .error e ∨ ∃ a d, x.run (scope.draft counts) = .ok (a, d) ∧
      next a d.scope { counts with temps := d.temps } = .error e := by
  obtain hrun | ⟨⟨a, d⟩, hrun, h₁⟩ := bind_eq_error h
  · exact Or.inl hrun
  · obtain hnext | ⟨_, _, h₂⟩ := bind_eq_error h₁
    · exact Or.inr ⟨a, d, hrun, hnext⟩
    · cases h₂

/-- If `enter` fails, a way on fails, or an input of the node gets no text, or control must not come here. -/
theorem fails_of_enter {go : List NodeId → PinRef → Scope → Counts → Drafted}
    (hgo : ∀ {loops pin scope counts}, Arrives job (node.id :: path) loops pin scope →
      go loops pin scope counts = .error e → Fails job e)
    (ha : Arrives job path loops pin scope) (hf : job.follow pin = .ok (some node)) (hp : node.id ∉ path)
    (h : job.enter go loops node scope counts = .error e) : Fails job e := by
  have hbegin : Begins job [] node (scope.draft counts) := .enter ha hf hp
  unfold enter enterWith at h
  cases hk : node.kind <;> simp only [hk] at h
  case ret types =>
    obtain hrun | ⟨_, _, _, hret⟩ := after_eq_error h
    · refine fails_of_inputs hbegin ?_ hrun
      unfold Node.inputCount
      rw [hk]
    · cases hret
  case callMethod | callStatic | setter =>
    have hstatement : node.kind.isStatement = true := by rw [hk]; rfl
    unfold enterStatement at h
    by_cases he : node.id ∈ scope.emitted
    · rw [if_pos he] at h
      exact hgo (.skip ha hf hp hstatement he) h
    · rw [if_neg he] at h
      obtain hrun | ⟨⟨⟩, d, hrun, hnext⟩ := after_eq_error h
      · exact fails_of_statement (Nat.le_add_left ..) (.make ha hf hp hstatement) hrun
      · exact hgo (.make ha hf hp hstatement he (makes_of_statement hstatement hrun)) hnext
  case ifElse =>
    have hinput : 0 < node.inputCount := by unfold Node.inputCount; rw [hk]; exact Nat.one_pos
    obtain hrun | ⟨condition, d, hrun, hbranch⟩ := after_eq_error h
    · exact fails_of_input hbegin .nil hinput hrun
    have hr := ResolvesFrom.cons (resolves_of_input hrun) .nil
    -- both blocks start from the scope that the condition has left
    obtain ht | ⟨⟨whenTrue, counts₁⟩, _, h₁⟩ := bind_eq_error hbranch
    · exact hgo (.branch ha hf hp hk hr (Or.inl rfl)) ht
    cases he : hasSuccessor node elseSlot with
    | true =>
      simp only [he, if_true] at h₁
      obtain hn | ⟨_, _, h₂⟩ := bind_eq_error h₁
      · exact hgo (.branch ha hf hp hk hr (Or.inr rfl)) hn
      · cases h₂
    | false =>
      simp only [he, Bool.false_eq_true, if_false] at h₁
      cases h₁
  case forLoop =>
    have hinputs : node.inputCount = 2 := by unfold Node.inputCount; rw [hk]
    obtain hrun | ⟨⟨initial, limit⟩, d, hrun, hloop⟩ := after_eq_error h
    · exact fails_of_bounds hbegin hinputs hrun
    have hr := resolvesFrom_of_bounds hrun
    obtain hb | ⟨⟨body, counts₁⟩, _, h₁⟩ := bind_eq_error hloop
    · exact hgo (.body ha hf hp hk hr) hb
    obtain hn | ⟨_, _, h₂⟩ := bind_eq_error h₁
    · exact hgo (.completed ha hf hp hk hr) hn
    · cases h₂
  -- control cannot enter what is left: the entry, literals and getters
  all_goals
    cases h
    exact .barred ha hf (by rw [hk]; rfl)

/-- `onward` knows the ends of a path, and uses `into` for a node that it enters. -/
theorem fails_of_onward {into : Node → List NodeId → Scope → Counts → Drafted}
    (ha : Arrives job path loops pin scope)
    (hinto : ∀ {node}, job.follow pin = .ok (some node) → node.id ∉ path →
      into node loops scope counts = .error e → Fails job e)
    (h : job.onward path into loops pin scope counts = .error e) : Fails job e := by
  unfold onward at h
  obtain hf | ⟨_ | node, hf, h₁⟩ := bind_eq_error h
  · exact .astray ha (astray_of_follow hf)
  · cases h₁
  · by_cases hp : node.id ∈ path
    · by_cases hl : loops.head? = some node.id
      · simp only [hp, hl, if_true] at h₁
        cases h₁
      · simp only [hp, hl, if_true, if_false] at h₁
        cases h₁
        exact .reenters ha hf hp
    · simp only [hp, if_false] at h₁
      exact hinto hf hp h₁

theorem fails_of_walk {budget : Nat} (hroom : job.method.nodes.length ≤ path.length + budget)
    (ha : Arrives job path loops pin scope) (h : job.walk budget path loops pin scope counts = .error e) :
    Fails job e := by
  induction budget generalizing path loops pin scope counts with
  | zero =>
    refine fails_of_onward ha (fun {node} hf hp hinto => ?_) h
    -- all nodes of the method are behind, and this one is not
    have hle : (node.id :: path).length ≤ job.method.nodes.length := by
      refine Method.length_le_nodes (List.nodup_cons.2 ⟨hp, ha.nodup⟩) fun id hid => ?_
      rcases List.mem_cons.1 hid with rfl | hid
      · exact ⟨node, node?_of_follow hf⟩
      · exact ha.exists_node? hid
    rw [List.length_cons] at hle
    omega
  | succ budget ih =>
    refine fails_of_onward ha (fun {node} hf hp hinto => fails_of_enter (fun ha' => ih ?_ ha') ha hf hp hinto) h
    rw [List.length_cons]
    omega

theorem fails_of_source (h : job.source = .error e) : Fails job e := by
  unfold source at h
  cases hn : job.method.entryNode? with
  | none =>
    rw [hn] at h
    cases h
    exact .noEntry hn
  | some entry =>
    simp only [hn] at h
    by_cases ha : job.method.isAbstract = true
    · rw [if_pos ha] at h
      cases h
    rw [if_neg ha] at h
    cases hb : job.body entry with
    | ok code =>
      rw [hb] at h
      cases h
    | error e' =>
      rw [hb] at h
      cases h
      unfold body at hb
      by_cases he : entry.execOuts.isEmpty = true
      · simp only [he, if_true] at hb
        cases hb
      · simp only [he] at hb
        obtain hw | ⟨_, _, h₁⟩ := bind_eq_error hb
        · exact fails_of_walk (Nat.le_add_left ..) (.entry hn) hw
        · cases h₁

end Job

end VisualScript
