import VisualScript.Proofs.Source.Ways

/-!
# What a written method guarantees

A method is checked only while it is written, and only where writing happens to look. Yet when it could be
written, all of it that matters is in order: the inputs of every live node are fed with fitting types, no live
node waits for itself, and control comes back to a node only from the body of the loop that it is in.

* `Grounded` nodes have all their inputs fed by grounded nodes, so that no chain of inputs is endless.
* `Makes.grounded`: a node whose statement could be made is grounded, and so are all nodes of known values.
* `Way.continues`: along every way of control without repetitions, code was written.
-/

namespace VisualScript

open Relation

/-- All inputs of the node are fed (`Job.supply`), by nodes of which the same holds. -/
inductive Grounded (job : Job) : Node → Prop
  | intro {n : Node} (supplied : ∀ slot < n.dataIns.length, ∃ s, job.supply n slot = .ok s)
      (grounded : ∀ slot s, job.supply n slot = .ok s → Grounded job s.producer) : Grounded job n

/-- Nodes whose `values` are known or whose statements are `emitted` are `Grounded`. -/
structure Scope.Grounded (scope : Scope) (job : Job) : Prop where
  values : ∀ v ∈ scope.values, ∃ n, job.method.node? v.1.node = some n ∧ VisualScript.Grounded job n
  emitted : ∀ id ∈ scope.emitted, ∃ n, job.method.node? id = some n ∧ VisualScript.Grounded job n

section Nodes

variable {job : Job} {n p : Node}

theorem Job.isAssignable_of_supply {slot : Nat} {s : Supply} {pin : DataIn} (h : job.supply n slot = .ok s)
    (hpin : n.dataIns[slot]? = some pin) : job.catalog.isAssignable s.produced.type pin.type = true := by
  obtain ⟨hproducer, hproduced, pin', hpin', hsource⟩ := supply_eq_ok h
  rw [hpin] at hpin'
  cases hpin'
  unfold supply at h
  simp only [hpin, hsource, hproducer, hproduced] at h
  split at h
  · assumption
  · cases h

theorem Grounded.of_supplies
    (h : ∀ i < n.dataIns.length, ∃ s, job.supply n i = .ok s ∧ Grounded job s.producer) : Grounded job n := by
  refine .intro (fun slot hslot => ?_) fun slot s hs => ?_
  · obtain ⟨s, hs, -⟩ := h slot hslot
    exact ⟨s, hs⟩
  · obtain ⟨-, -, pin, hpin, -⟩ := Job.supply_eq_ok hs
    obtain ⟨s', hs', hg⟩ := h slot (List.getElem?_eq_some_iff.1 hpin).1
    rw [hs] at hs'
    cases hs'
    exact hg

theorem Grounded.of_dataIns_eq_nil (h : n.dataIns = []) : Grounded job n :=
  .of_supplies fun i hi => by simp [h] at hi

/-- Where all inputs are supplied, what `Feeds` a node is among its supplies. -/
theorem Job.exists_supply_of_feeds (h : ∀ slot < n.dataIns.length, ∃ s, job.supply n slot = .ok s)
    (hp : job.method.Feeds p n) : ∃ slot s, job.supply n slot = .ok s ∧ s.producer = p := by
  obtain ⟨pin, hmem, source, hsource, hnode, -⟩ := hp
  obtain ⟨slot, hslot, rfl⟩ := List.mem_iff_getElem.1 hmem
  obtain ⟨s, hs⟩ := h slot hslot
  obtain ⟨hproducer, -, pin, hpin, hsource'⟩ := supply_eq_ok hs
  rw [List.getElem?_eq_getElem hslot] at hpin
  cases hpin
  rw [hsource] at hsource'
  cases hsource'
  rw [hnode] at hproducer
  exact ⟨slot, s, hs, (Option.some.inj hproducer).symm⟩

theorem Grounded.of_feeds (h : Grounded job n) (hp : job.method.Feeds p n) : Grounded job p := by
  cases h with
  | intro supplied grounded =>
    obtain ⟨slot, s, hs, rfl⟩ := Job.exists_supply_of_feeds supplied hp
    exact grounded slot s hs

theorem Grounded.of_reflTransGen (h : Grounded job n) (hp : ReflTransGen job.method.Feeds p n) :
    Grounded job p := by
  induction hp using ReflTransGen.head_induction_on with
  | refl => exact h
  | head hfeeds _ ih => exact ih.of_feeds hfeeds

/-- A `Grounded` node does not wait for itself. -/
theorem Grounded.not_transGen (h : Grounded job n) : ¬ TransGen job.method.Feeds n n := by
  induction h with
  | @intro n supplied grounded ih =>
    -- a cycle through a node is one through what feeds it
    intro hcycle
    obtain ⟨p, hnp, hpn⟩ := TransGen.tail'_iff.1 hcycle
    obtain ⟨slot, s, hs, rfl⟩ := Job.exists_supply_of_feeds supplied hpn
    exact ih slot s hs (TransGen.head' hpn hnp)

end Nodes

/-! ### Finding operands -/

section Drafts

variable {job : Job}

/-- The statement of one more `Grounded` node is written. -/
theorem Scope.Grounded.mark {scope scope' : Scope} {n : Node} (h : scope.Grounded job)
    (hn : job.method.node? n.id = some n) (hg : VisualScript.Grounded job n)
    (hv : ∀ v ∈ scope'.values, v ∈ scope.values ∨ v.1.node = n.id)
    (he : scope'.emitted = n.id :: scope.emitted) : scope'.Grounded job where
  values v hmem := by
    rcases hv v hmem with hmem | heq
    · exact h.values v hmem
    · exact ⟨n, heq ▸ hn, hg⟩
  emitted id hmem := by
    rw [he] at hmem
    rcases List.mem_cons.1 hmem with rfl | hmem
    · exact ⟨n, hn, hg⟩
    · exact h.emitted id hmem

theorem Scope.Grounded.bind {scope : Scope} {p : PinRef} {n : Node} (h : scope.Grounded job)
    (hn : job.method.node? p.node = some n) (hg : VisualScript.Grounded job n) (text : String) :
    (scope.bind p text).Grounded job where
  values v hv := by
    rcases List.mem_cons.1 hv with rfl | hv
    · exact ⟨n, hn, hg⟩
    · exact h.values v hv
  emitted := h.emitted

theorem Scope.Grounded.forget {scope : Scope} (h : scope.Grounded job) (which : String → Bool) :
    (scope.forget job.method which).Grounded job :=
  ⟨fun v hv => h.values v (List.mem_of_mem_filter hv), h.emitted⟩

theorem Scope.Grounded.of_value? {scope : Scope} {p : PinRef} {text : String} {n : Node}
    (h : scope.Grounded job) (hv : scope.value? p = some text) (hn : job.method.node? p.node = some n) :
    VisualScript.Grounded job n := by
  obtain ⟨v, hfind, -⟩ := Option.map_eq_some_iff.1 hv
  have hp : v.1 = p := by simpa using List.find?_some hfind
  obtain ⟨n', hn', hg⟩ := h.values v (List.mem_of_find?_eq_some hfind)
  rw [hp, hn] at hn'
  cases hn'
  exact hg

/-- A node whose kind asks for no `dataIns`, as literals and reads of variables, has none. -/
theorem Method.HasPins.dataIns_eq_nil {m : Method} (h : m.HasPins) {n : Node} {id : NodeId}
    (hn : m.node? id = some n) (hk : n.kind.dataIns = []) : n.dataIns = [] := by
  have hlen : n.dataIns.length = n.kind.dataIns.length := (h.node hn).length_pins dataIns_lawful
  rw [hk] at hlen
  exact List.eq_nil_of_length_eq_zero hlen

mutual

/-- An operand that was found comes from a `Grounded` node, also if that had to be made for it. -/
theorem Resolves.grounded (hpins : job.method.HasPins) :
    ∀ {pending : List NodeId} {node : Node} {slot : Nat} {d : Draft} {text : String} {d' : Draft},
      Resolves job pending node slot d text d' → d.scope.Grounded job →
        d'.scope.Grounded job ∧ ∃ s, job.supply node slot = .ok s ∧ Grounded job s.producer
  | _, _, _, _, _, _, @Resolves.known _ _ _ _ _ s _ hs hv, hd =>
    ⟨hd, s, hs, hd.of_value? hv (Job.supply_eq_ok hs).1⟩
  | _, _, _, _, _, _, @Resolves.literal _ _ _ _ _ s _ _ hs _ hk, hd => by
    have hnil := hpins.dataIns_eq_nil (Job.supply_eq_ok hs).1 (by rw [hk]; rfl)
    exact ⟨hd, s, hs, .of_dataIns_eq_nil hnil⟩
  | _, _, _, d, _, _, @Resolves.read _ _ _ _ _ s _ name hs _ hk _, hd => by
    have hproducer := (Job.supply_eq_ok hs).1
    have hg : Grounded job s.producer :=
      .of_dataIns_eq_nil (hpins.dataIns_eq_nil hproducer (by rw [hk]; rfl))
    exact ⟨hd.bind hproducer hg name, s, hs, hg⟩
  | _, _, _, _, _, _, @Resolves.pulled _ _ _ _ _ _ s _ hs _ _ _ _ hm _, hd => by
    obtain ⟨hd', hg⟩ := hm.grounded hpins (Method.node?_id (Job.supply_eq_ok hs).1) hd
    exact ⟨hd', s, hs, hg⟩

theorem ResolvesFrom.grounded (hpins : job.method.HasPins) :
    ∀ {pending : List NodeId} {node : Node} {slot : Nat} {d : Draft} {texts : List String} {d' : Draft},
      ResolvesFrom job pending node slot d texts d' → d.scope.Grounded job →
        d'.scope.Grounded job ∧
          ∀ i < texts.length, ∃ s, job.supply node (slot + i) = .ok s ∧ Grounded job s.producer
  | _, _, _, _, _, _, .nil, hd => ⟨hd, by simp⟩
  | _, node, slot, _, _, _, .cons h hs, hd => by
    obtain ⟨hd₁, hfirst⟩ := h.grounded hpins hd
    obtain ⟨hd', hrest⟩ := hs.grounded hpins hd₁
    refine ⟨hd', fun i hi => ?_⟩
    cases i with
    | zero => exact hfirst
    | succ i =>
      have := hrest i (by simpa using hi)
      rwa [Nat.add_right_comm, Nat.add_assoc] at this

theorem Makes.grounded (hpins : job.method.HasPins) :
    ∀ {pending : List NodeId} {node : Node} {d d' : Draft}, Makes job pending node d d' →
      job.method.node? node.id = some node → d.scope.Grounded job →
        d'.scope.Grounded job ∧ Grounded job node
  | _, node, _, _, .call hk hl hr hs, hn, hd => by
    obtain ⟨hd', hinputs⟩ := hr.grounded hpins hd
    rw [hl, hpins.inputCount hn] at hinputs
    simp only [Nat.zero_add] at hinputs
    -- there are as many operands as inputs, so each one is supplied
    have hg := Grounded.of_supplies hinputs
    exact ⟨hd'.mark hn hg (fun _ => Scope.mem_named) rfl, hg⟩
  | _, node, _, _, .assign hk hr, hn, hd => by
    obtain ⟨hd', hinputs⟩ := hr.grounded hpins hd
    have hone : node.inputCount = 1 := by unfold Node.inputCount; rw [hk]
    rw [List.length_singleton, ← hone, hpins.inputCount hn] at hinputs
    simp only [Nat.zero_add] at hinputs
    have hg := Grounded.of_supplies hinputs
    exact ⟨hd'.mark hn hg (fun _ => Draft.mem_assign) rfl, hg⟩

end

/-- A node that control enters is `Grounded` once its operands are found. -/
theorem ResolvesFrom.entered {node : Node} {scope : Scope} {counts : Counts} {texts : List String} {d : Draft}
    (hpins : job.method.HasPins) (h : ResolvesFrom job [] node 0 (scope.draft counts) texts d)
    (hs : scope.Grounded job) (hn : job.method.node? node.id = some node)
    (hl : texts.length = node.inputCount) : d.scope.Grounded job ∧ Grounded job node := by
  obtain ⟨hd, hinputs⟩ := h.grounded hpins hs
  rw [hl, hpins.inputCount hn] at hinputs
  simp only [Nat.zero_add] at hinputs
  exact ⟨hd, .of_supplies hinputs⟩

end Drafts

/-! ### Ways of control -/

/-- Code was written from the exec output `pin` on, with the nodes of `path` behind and those of `loops` open. -/
def Job.Continues (job : Job) (path loops : List NodeId) (pin : PinRef) : Prop :=
  ∃ scope counts code counts', scope.Grounded job ∧ Walks job path loops pin scope counts code counts'

section Walks

variable {job : Job} {path loops : List NodeId} {pin : PinRef} {node next : Node}

theorem Job.eq_of_follow (hf : job.method.next? pin = some node) {found : Node}
    (h : job.follow pin = .ok (some found)) : found = node := by
  rw [next?_of_follow h] at hf
  exact Option.some.inj hf

/-- Control leaves a node through the `execOuts` of its kind. -/
theorem Method.HasPins.lt_execOuts {m : Method} (h : m.HasPins) (hn : m.node? node.id = some node) {slot : Nat}
    (hnext : m.next? (.execOut node.id slot) = some next) : slot < node.kind.execOuts.length := by
  obtain ⟨source, out, -, hsource, hout, -, -⟩ := next?_eq_some hnext
  rw [hn] at hsource
  cases hsource
  have hlen : node.execOuts.length = node.kind.execOuts.length := (h.node hn).length_pins execOuts_lawful
  rw [← hlen]
  exact (List.getElem?_eq_some_iff.1 hout).1

theorem slot_of_isStatement {m : Method} (hpins : m.HasPins) (hn : m.node? node.id = some node)
    (hk : node.kind.isStatement = true) {slot : Nat} (hnext : m.next? (.execOut node.id slot) = some next) :
    slot = 0 ∧ m.opens (.execOut node.id slot) = false := by
  have hslot := hpins.lt_execOuts hn hnext
  obtain ⟨hlen, hne⟩ := NodeKind.execOuts_of_isStatement hk
  rw [hlen] at hslot
  exact ⟨Nat.lt_one_iff.1 hslot, Method.opens_eq_false hn hne slot⟩

theorem slot_of_forks {m : Method} (hpins : m.HasPins) (hn : m.node? node.id = some node)
    (hk : node.kind.forks = true) {slot : Nat} (hnext : m.next? (.execOut node.id slot) = some next) :
    slot = 0 ∨ slot = 1 := by
  have hslot := hpins.lt_execOuts hn hnext
  have hkind : node.kind.execOuts.length = 2 := by
    cases h : node.kind <;> simp [h, NodeKind.forks] at hk <;> rfl
  omega

/-- A node that control enters is `Grounded`, and code was written for each way on from it. -/
theorem Job.Continues.entered (hpins : job.method.HasPins) (h : job.Continues path loops pin)
    (hf : job.method.next? pin = some node) (hp : node.id ∉ path) :
    Grounded job node ∧ ∀ slot next, job.method.next? (.execOut node.id slot) = some next →
      job.Continues (node.id :: path)
        (if job.method.opens (.execOut node.id slot) then node.id :: loops else loops)
        (.execOut node.id slot) := by
  obtain ⟨scope, counts, code, counts', hs, hw⟩ := h
  -- by what was written for the node: its kind says which outputs there are, and each has its derivation
  cases hw with
  | stop hstop =>
    rw [next?_of_follow hstop] at hf
    cases hf
  | again hfound hmem _ =>
    cases eq_of_follow hf hfound
    exact absurd hmem hp
  | ret hfound _ hk hl hr =>
    -- a return has no way on
    cases eq_of_follow hf hfound
    have hn := node?_of_follow hfound
    refine ⟨(hr.entered hpins hs hn hl).2, fun slot next hnext => ?_⟩
    have hslot := hpins.lt_execOuts hn hnext
    rw [hk] at hslot
    exact absurd hslot (Nat.not_lt_zero _)
  | skip hfound _ hk he h =>
    -- its statement was written before control came, and the scope remembers that
    cases eq_of_follow hf hfound
    have hn := node?_of_follow hfound
    obtain ⟨n, hn', hg⟩ := hs.emitted _ he
    rw [hn] at hn'
    cases hn'
    refine ⟨hg, fun slot next hnext => ?_⟩
    obtain ⟨rfl, hopens⟩ := slot_of_isStatement hpins hn hk hnext
    rw [hopens]
    exact ⟨scope, counts, code, counts', hs, h⟩
  | make hfound _ hk he hm h =>
    cases eq_of_follow hf hfound
    have hn := node?_of_follow hfound
    obtain ⟨hd, hg⟩ := hm.grounded hpins hn hs
    refine ⟨hg, fun slot next hnext => ?_⟩
    obtain ⟨rfl, hopens⟩ := slot_of_isStatement hpins hn hk hnext
    rw [hopens]
    exact ⟨_, _, _, _, hd, h⟩
  | branch hfound _ hk hr he h =>
    cases eq_of_follow hf hfound
    have hn := node?_of_follow hfound
    obtain ⟨hd, hg⟩ := hr.entered hpins hs hn (by unfold Node.inputCount; rw [hk]; rfl)
    refine ⟨hg, fun slot next hnext => ?_⟩
    rw [Method.opens_eq_false hn (by rw [hk]; simp)]
    rcases slot_of_forks hpins hn (by rw [hk]; rfl) hnext with rfl | rfl
    · exact ⟨_, _, _, _, hd, h⟩
    · -- there is no `else` since nothing is linked there
      rw [show job.method.next? (.execOut node.id 1) = none from next?_of_not_hasSuccessor hn he] at hnext
      cases hnext
  | branchElse hfound _ hk hr he ht he' =>
    cases eq_of_follow hf hfound
    have hn := node?_of_follow hfound
    obtain ⟨hd, hg⟩ := hr.entered hpins hs hn (by unfold Node.inputCount; rw [hk]; rfl)
    refine ⟨hg, fun slot next hnext => ?_⟩
    rw [Method.opens_eq_false hn (by rw [hk]; simp)]
    rcases slot_of_forks hpins hn (by rw [hk]; rfl) hnext with rfl | rfl
    · exact ⟨_, _, _, _, hd, ht⟩
    · exact ⟨_, _, _, _, hd, he'⟩
  | loop hfound _ hk hr hb hc =>
    cases eq_of_follow hf hfound
    have hn := node?_of_follow hfound
    obtain ⟨hd, hg⟩ := hr.entered hpins hs hn (by unfold Node.inputCount; rw [hk]; rfl)
    have hfresh := hd.forget fun _ => true
    refine ⟨hg, fun slot next hnext => ?_⟩
    rcases slot_of_forks hpins hn (by rw [hk]; rfl) hnext with rfl | rfl
    · rw [show job.method.opens (.execOut node.id 0) = true from Method.opens_body hn hk]
      exact ⟨_, _, _, _, hfresh.bind hn hg _, hb⟩
    · rw [show job.method.opens (.execOut node.id 1) = false from Method.opens_completed node]
      exact ⟨_, _, _, _, hfresh, hc⟩

theorem Job.Continues.loops_head? (h : job.Continues path loops pin) (hf : job.method.next? pin = some node)
    (hp : node.id ∈ path) : loops.head? = some node.id := by
  obtain ⟨scope, counts, code, counts', -, hw⟩ := h
  cases hw with
  | stop hstop =>
    rw [next?_of_follow hstop] at hf
    cases hf
  | again hfound _ hl =>
    cases eq_of_follow hf hfound
    exact hl
  | ret hfound hnew => exact absurd hp (eq_of_follow hf hfound ▸ hnew)
  | skip hfound hnew => exact absurd hp (eq_of_follow hf hfound ▸ hnew)
  | make hfound hnew => exact absurd hp (eq_of_follow hf hfound ▸ hnew)
  | branch hfound hnew => exact absurd hp (eq_of_follow hf hfound ▸ hnew)
  | branchElse hfound hnew => exact absurd hp (eq_of_follow hf hfound ▸ hnew)
  | loop hfound hnew => exact absurd hp (eq_of_follow hf hfound ▸ hnew)

/-- In `entryScope` the parameters are known, and the entry takes no inputs. -/
theorem Job.grounded_entryScope {entry : Node} (hn : job.method.entryNode? = some entry)
    (hg : Grounded job entry) : (entryScope entry).Grounded job where
  values v hv := by
    obtain ⟨i, hi, rfl⟩ := List.mem_mapIdx.1 hv
    exact ⟨entry, Method.node?_id hn, hg⟩
  emitted id hid := by cases hid

/-- Along every `Way` of control without repetitions, nodes are `Grounded` and code was written. -/
theorem Way.continues {signature : String} {code : Code} {pins : List PinRef} {n : Node}
    (hm : job.method.Consistent) (hpins : job.method.HasPins) (h : job.source = .ok ⟨signature, some code⟩)
    (hw : Way job.method pins n) (hnd : (trail pins n).Nodup) :
    Grounded job n ∧ ∀ slot next, job.method.next? (.execOut n.id slot) = some next →
      job.Continues (trail pins n) (job.method.openLoops (.execOut n.id slot :: pins)) (.execOut n.id slot) := by
  -- along the way: what was written up to a node was written for each way on from it
  induction hw with
  | @entry n hn =>
    obtain ⟨entry, hentry, hbody⟩ := Job.body_of_source h
    rw [hn] at hentry
    cases hentry
    obtain ⟨_, hn', hkind⟩ := hm.entry
    rw [show job.method.node? job.method.entry = some n from hn] at hn'
    cases hn'
    obtain ⟨types, hk⟩ := NodeKind.eq_methodEntry hkind
    have hg : Grounded job n := .of_dataIns_eq_nil (hpins.dataIns_eq_nil hn (by rw [hk]; rfl))
    have hself := Method.node?_id hn
    refine ⟨hg, fun slot next hnext => ?_⟩
    have hslot := hpins.lt_execOuts hself hnext
    rw [hk] at hslot
    cases Nat.lt_one_iff.1 hslot
    rw [Method.openLoops_cons, Method.opens_eq_false hself (by rw [hk]; simp)]
    rcases Job.walks_of_body hbody with ⟨hnone, -⟩ | ⟨counts, hwalk⟩
    · simp [Method.next?, PinRef.execOut, hself, hnone] at hnext
    · exact ⟨_, _, _, _, Job.grounded_entryScope hn hg, hwalk⟩
  | @step pins n n' slot hw hf ih =>
    obtain ⟨hnew, hnd⟩ := List.nodup_cons.1 hnd
    have hcontinues := (ih hnd).2 slot n' hf
    obtain ⟨hg, hgo⟩ := hcontinues.entered hpins hf hnew
    refine ⟨hg, fun slot' next hnext => ?_⟩
    rw [Method.openLoops_cons]
    exact hgo slot' next hnext

/-- A way to a node can be had without repetitions, and what feeds it is `Grounded` with it. -/
theorem Method.Live.grounded {signature : String} {code : Code} {n : Node} (hm : job.method.Consistent)
    (hpins : job.method.HasPins) (h : job.source = .ok ⟨signature, some code⟩) (hn : job.method.Live n) :
    Grounded job n := by
  obtain ⟨r, hr, hfeeds⟩ := hn
  obtain ⟨pins, hway⟩ := hr.exists_way
  obtain ⟨pins', hway', hnodup⟩ := hway.exists_nodup
  exact (hway'.continues hm hpins h hnodup).1.of_reflTransGen hfeeds

end Walks

/-! ### Whole methods -/

/-- If the body of a method could be written, then every input of a node that is `Live` is fed by an output whose
type fits, no such node waits for its own values, and wherever control would come back to a node on its way, that
node is the innermost loop whose body it is in (`openLoops`). -/
theorem Job.guarantees_of_source {job : Job} {signature : String} {code : Code} (hm : job.method.Consistent)
    (hpins : job.method.HasPins) (h : job.source = .ok ⟨signature, some code⟩) :
    (∀ n, job.method.Live n →
        (∀ (slot : Nat) (pin : DataIn), n.dataIns[slot]? = some pin →
          ∃ source produced, pin.incoming = some source ∧
          job.method.pin? dataOuts source = some produced ∧
            job.catalog.checkAssignable produced.type pin.type = .ok true) ∧
        ¬ TransGen job.method.Feeds n n) ∧
      ∀ pins n slot next, Way job.method pins n → (trail pins n).Nodup →
        job.method.next? (.execOut n.id slot) = some next → next.id ∈ trail pins n →
          (job.method.openLoops (.execOut n.id slot :: pins)).head? = some next.id := by
  have hlive : ∀ n, job.method.Live n → Grounded job n := fun n hn => hn.grounded hm hpins h
  refine ⟨fun n hn => ⟨fun slot pin hpin => ?_, (hlive n hn).not_transGen⟩, ?_⟩
  · cases hlive n hn with
    | intro supplied _ =>
      obtain ⟨s, hs⟩ := supplied slot (List.getElem?_eq_some_iff.1 hpin).1
      obtain ⟨-, -, pin', hpin', hsource⟩ := supply_eq_ok hs
      rw [hpin] at hpin'
      cases hpin'
      have hmirrored : job.method.Mirrored := Method.dangling_eq_nil_iff.1 hm.dangling
      exact ⟨s.source, s.produced, hsource, hmirrored.pin?_of_supply hn.node? hs,
        TypeCatalog.isAssignable_iff.1 (isAssignable_of_supply hs hpin)⟩
  · intro pins n slot next hway hnd hnext hmem
    exact ((hway.continues hm hpins h hnd).2 slot next hnext).loops_head? hnext hmem

/-- A loop whose body assigns a call of `f` on the index to `x` and goes back to the loop. -/
def spinning : Job where
  method := (Method.make "main" [.int] []).run (.ofPairs [])
    [.addNode (.literal "0" .int) {}, .addNode .forLoop {},
      .addNode (.callStatic (.named "T") "f" [.int] [.int]) {}, .addNode (.setter ⟨"x", .int⟩) {},
      .connect (.execOut 0 0) (.execIn 2 0), .connect (.execOut 2 0) (.execIn 4 0),
      .connect (.execOut 4 0) (.execIn 2 0), .connect (.dataOut 1 0) (.dataIn 2 0),
      .connect (.dataOut 0 0) (.dataIn 2 1), .connect (.dataOut 2 0) (.dataIn 3 0),
      .connect (.dataOut 3 0) (.dataIn 4 0)]
  catalog := .ofPairs []
  config := {}

def spinningCode : Code :=
  .loop 2 "i0" "0" "arg0"
    (.step (.callStatic 3 [(.int, "temp0_Int32")] (.named "T") "f" ["i0"])
      (.step (.assign 4 "x" "temp0_Int32") (.again 2))) .done

theorem Job.guarantees_of_source_spinning :
    spinning.method.Consistent ∧ spinning.method.HasPins ∧
      spinning.source = .ok ⟨"public void main(System.Int32 arg0)", some spinningCode⟩ ∧
      ∃ n next, Way spinning.method [.execOut 2 0, .execOut 0 0] n ∧
        spinning.method.next? (.execOut n.id 0) = some next ∧
        (spinning.method.openLoops [.execOut n.id 0, .execOut 2 0, .execOut 0 0]).head? = some next.id ∧
        ∀ k, spinning.method.Feeds k n → ¬ TransGen spinning.method.Feeds k k := by
  have hm : spinning.method.Consistent :=
    (Method.coherent_iff.1 (Method.coherent_run (Method.coherent_make "main" [.int] [] (.ofPairs [])) _)).1
  have hpins : spinning.method.HasPins :=
    Method.hasPins_run (Method.hasPins_make "main" [.int] []) (by simp [Operation.Puts])
  have hs : spinning.source = .ok ⟨"public void main(System.Int32 arg0)", some spinningCode⟩ := by
    decide +kernel
  obtain ⟨hlive, hback⟩ := Job.guarantees_of_source hm hpins hs
  -- the way from the entry into the body, and from its end back to the loop
  let entry := (spinning.method.node? 0).get (by decide +kernel)
  let loop := (spinning.method.node? 2).get (by decide +kernel)
  let store := (spinning.method.node? 4).get (by decide +kernel)
  have hway : Way spinning.method [.execOut loop.id 0, .execOut entry.id 0] store :=
    .step (.step (.entry (by decide +kernel)) (by decide +kernel)) (by decide +kernel)
  have hnext : spinning.method.next? (.execOut store.id 0) = some loop := by decide +kernel
  refine ⟨hm, hpins, hs, store, loop, hway, hnext, ?_, fun k hk => ?_⟩
  · exact hback _ store 0 loop hway (by decide +kernel) hnext (by decide +kernel)
  · exact (hlive k ⟨store, hway.reached, .single hk⟩).2

end VisualScript
