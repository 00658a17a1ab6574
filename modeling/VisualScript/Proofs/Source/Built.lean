import VisualScript.Proofs.Source.Failure

/-!
# Errors that built graphs cannot have

In a graph that operations built, links are answered and carry fitting types, and nodes have the pins of their
kinds. Writing such a graph never follows a reference into nothing, and what it has made it knows the values of.
The only value that it can miss is the index of a loop, read where control is not in the loop's body.

* `Scope.Grows`: what finding operands does to a scope. Values get lost only if they were read from variables.
* `Scope.Complete`: the values of the entry, of the open loops and of all statements made are known.
-/

namespace VisualScript

open Relation

theorem NodeKind.ne_getter {k : NodeKind} (h : k.isStatement = true ∨ k.isEntry = true) (v : VariableRef) :
    k ≠ .getter v := by
  rintro rfl
  simp [isStatement, isEntry] at h

/-! ### Known values -/

namespace Scope

variable {m : Method} {s s₁ s' : Scope} {p q : PinRef} {text : String} {which : String → Bool}

/-- The output `p` has a text. -/
def Knows (s : Scope) (p : PinRef) : Prop := ∃ v ∈ s.values, v.1 = p

theorem value?_eq_none_iff : s.value? p = none ↔ ¬ s.Knows p := by
  unfold value? Knows
  rw [Option.map_eq_none_iff, List.find?_eq_none]
  constructor
  · rintro h ⟨v, hv, hp⟩
    exact h v hv (decide_eq_true hp)
  · intro h v hv hp
    exact h ⟨v, hv, of_decide_eq_true hp⟩

theorem knows_bind : (s.bind p text).Knows q ↔ q = p ∨ s.Knows q := by
  simp [bind, Knows, eq_comm]

theorem Knows.forget (h : s.Knows p) (hp : reads m which p = false) : (s.forget m which).Knows p := by
  obtain ⟨v, hv, rfl⟩ := h
  exact ⟨v, List.mem_filter.2 ⟨hv, by simp [hp]⟩, rfl⟩

theorem knows_named {node : NodeId} {results : List (TypeSpec × String)} :
    (s.named node results).Knows p ↔ (∃ i < results.length, p = .dataOut node i) ∨ s.Knows p := by
  unfold Knows named
  constructor
  · rintro ⟨v, hv, rfl⟩
    rcases List.mem_append.1 hv with hv | hv
    · obtain ⟨i, hi, rfl⟩ := List.mem_mapIdx.1 (List.mem_reverse.1 hv)
      exact Or.inl ⟨i, hi, rfl⟩
    · exact Or.inr ⟨v, hv, rfl⟩
  · rintro (⟨i, hi, rfl⟩ | ⟨v, hv, rfl⟩)
    · exact ⟨_, List.mem_append_left _ (List.mem_reverse.2 (List.mem_mapIdx.2 ⟨i, hi, rfl⟩)), rfl⟩
    · exact ⟨v, List.mem_append_right _ hv, rfl⟩

/-- The scope `Knows` all outputs of the node. -/
def Tells (s : Scope) (n : Node) : Prop := ∀ slot < n.dataOuts.length, s.Knows (.dataOut n.id slot)

/-- The pin `p` does not stand for the reading of a variable, and so `forget` never gives it up. -/
def Lasting (m : Method) (p : PinRef) : Prop := reads m (fun _ => true) p = false

theorem Lasting.reads_eq_false (h : Lasting m p) (which : String → Bool) : reads m which p = false := by
  unfold Lasting reads at h
  unfold reads
  cases hn : m.node? p.node with
  | none => rfl
  | some n =>
    rw [hn] at h
    cases hk : n.kind <;> simp_all

theorem lasting_dataOut {n : Node} (hn : m.node? n.id = some n) (hk : ∀ v, n.kind ≠ .getter v) (slot : Nat) :
    Lasting m (.dataOut n.id slot) := by
  unfold Lasting reads
  rw [show (PinRef.dataOut n.id slot).node = n.id from rfl, hn]
  cases h : n.kind <;> simp_all

/-- `s'` comes out of `s`: values that are `Lasting` are kept, and those of new statements are known. -/
structure Grows (m : Method) (s s' : Scope) : Prop where
  kept : ∀ p, Lasting m p → s.Knows p → s'.Knows p
  emitted : ∀ id ∈ s'.emitted, id ∈ s.emitted ∨
    ∃ n, m.node? id = some n ∧ n.kind.isStatement = true ∧ s'.Tells n

theorem Grows.refl (m : Method) (s : Scope) : Grows m s s := ⟨fun _ _ h => h, fun _ h => Or.inl h⟩

theorem Grows.tells {n : Node} (h : Grows m s s') (hn : m.node? n.id = some n) (hk : ∀ v, n.kind ≠ .getter v)
    (ht : s.Tells n) : s'.Tells n :=
  fun slot hslot => h.kept _ (lasting_dataOut hn hk slot) (ht slot hslot)

theorem Grows.trans (h : Grows m s s₁) (h' : Grows m s₁ s') : Grows m s s' where
  kept p hp hs := h'.kept p hp (h.kept p hp hs)
  emitted id hid := by
    -- what the first step has made still tells its values after the second
    rcases h'.emitted id hid with hid | hnew
    · rcases h.emitted id hid with hid | ⟨n, hn, hk, ht⟩
      · exact Or.inl hid
      · exact Or.inr ⟨n, hn, hk, h'.tells (Method.node?_id hn) (NodeKind.ne_getter (Or.inl hk)) ht⟩
    · exact Or.inr hnew

theorem grows_bind (m : Method) (s : Scope) (p : PinRef) (text : String) : Grows m s (s.bind p text) :=
  ⟨fun _ _ h => knows_bind.2 (Or.inr h), fun _ h => Or.inl h⟩

theorem grows_forget (m : Method) (s : Scope) (which : String → Bool) : Grows m s (s.forget m which) :=
  ⟨fun _ hp h => h.forget (hp.reads_eq_false which), fun _ h => Or.inl h⟩

theorem grows_forgetAll (m : Method) (s : Scope) : Grows m s (s.forgetAll m) := grows_forget m s fun _ => true

/-- The values of the entry, of the `loops` that stand open and of all statements made are known. -/
def Complete (s : Scope) (m : Method) (loops : List NodeId) : Prop :=
  ∀ n, m.node? n.id = some n → (n.id = m.entry ∨ n.id ∈ loops ∨ n.id ∈ s.emitted) →
    (∀ v, n.kind ≠ .getter v) ∧ s.Tells n

theorem Complete.grows {loops : List NodeId} (h : s.Complete m loops) (hs : Grows m s s') :
    s'.Complete m loops := by
  intro n hn hid
  have hold : (n.id = m.entry ∨ n.id ∈ loops ∨ n.id ∈ s.emitted) → (∀ v, n.kind ≠ .getter v) ∧ s'.Tells n := by
    intro hid
    obtain ⟨hk, ht⟩ := h n hn hid
    exact ⟨hk, hs.tells hn hk ht⟩
  rcases hid with hid | hid | hid
  · exact hold (Or.inl hid)
  · exact hold (Or.inr (Or.inl hid))
  · rcases hs.emitted _ hid with hid | ⟨n', hn', hk, ht⟩
    · exact hold (Or.inr (Or.inr hid))
    · rw [hn] at hn'
      cases hn'
      exact ⟨NodeKind.ne_getter (Or.inl hk), ht⟩

end Scope

/-! ### Finding operands -/

section Drafts

open Scope

variable {job : Job}

/-- `mark` comes once the values of the node are known. -/
theorem Draft.grows_mark {m : Method} {s : Scope} {d : Draft} {n : Node} (h : Grows m s d.scope)
    (hn : m.node? n.id = some n) (hk : n.kind.isStatement = true) (ht : d.scope.Tells n) :
    Grows m s (d.mark n.id).scope where
  kept := h.kept
  emitted id hid := by
    rcases List.mem_cons.1 hid with rfl | hid
    · exact Or.inr ⟨n, hn, hk, ht⟩
    · exact h.emitted id hid

theorem Method.HasPins.length_dataOuts {m : Method} (h : m.HasPins) {n : Node} {id : NodeId}
    (hn : m.node? id = some n) : n.dataOuts.length = n.kind.dataOuts.length :=
  (h.node hn).length_pins dataOuts_lawful

theorem Method.HasPins.name_mem_dataOuts {m : Method} (h : m.HasPins) {n : Node} {id : NodeId} {pin : DataOut}
    (hn : m.node? id = some n) (hpin : pin ∈ n.dataOuts) : pin.name ∈ n.kind.dataOuts.map (·.name) := by
  have hclear : n.dataOuts.map Linkable.clear = n.kind.dataOuts := (h.node hn).map_clear dataOuts_lawful
  rw [← hclear, List.map_map]
  exact List.mem_map.2 ⟨pin, hpin, rfl⟩

mutual

/-- Finding an operand only makes the scope grow, also where a statement has to be made for it. -/
theorem Resolves.grows (hpins : job.method.HasPins) :
    ∀ {pending : List NodeId} {node : Node} {slot : Nat} {d : Draft} {text : String} {d' : Draft},
      Resolves job pending node slot d text d' → Grows job.method d.scope d'.scope
  | _, _, _, _, _, _, .known _ _ => .refl _ _
  | _, _, _, _, _, _, .literal _ _ _ => .refl _ _
  | _, _, _, _, _, _, .read _ _ _ _ => grows_bind _ _ _ _
  | _, _, _, _, _, _, .pulled hs _ _ _ _ hm _ => (hm.grows hpins (Method.node?_id (Job.supply_eq_ok hs).1)).1

theorem ResolvesFrom.grows (hpins : job.method.HasPins) :
    ∀ {pending : List NodeId} {node : Node} {slot : Nat} {d : Draft} {texts : List String} {d' : Draft},
      ResolvesFrom job pending node slot d texts d' → Grows job.method d.scope d'.scope
  | _, _, _, _, _, _, .nil => .refl _ _
  | _, _, _, _, _, _, .cons h hs => (h.grows hpins).trans (hs.grows hpins)

theorem Makes.grows (hpins : job.method.HasPins) :
    ∀ {pending : List NodeId} {node : Node} {d d' : Draft}, Makes job pending node d d' →
      job.method.node? node.id = some node → Grows job.method d.scope d'.scope ∧ d'.scope.Tells node
  | _, node, _, _, @Makes.call _ _ _ _ d₁ texts s hk hl hr hs, hn => by
    have hnamed : Grows job.method d₁.scope (d₁.call node.id (job.results node d₁.temps) s).scope :=
      ⟨fun _ _ h => knows_named.2 (Or.inr h), fun _ h => Or.inl h⟩
    have ht : (d₁.call node.id (job.results node d₁.temps) s).scope.Tells node := by
      intro slot hslot
      exact knows_named.2 (Or.inl ⟨slot, by simpa [Job.results] using hslot, rfl⟩)
    exact ⟨Draft.grows_mark ((hr.grows hpins).trans hnamed) hn (NodeKind.isStatement_of_isCall hk) ht, ht⟩
  | _, node, _, _, @Makes.assign _ _ _ _ d₁ v value hk hr, hn => by
    have hassign : Grows job.method d₁.scope (d₁.assign job.method node.id v.name value).scope :=
      (grows_forget _ _ _).trans (grows_bind _ _ _ _)
    have ht : (d₁.assign job.method node.id v.name value).scope.Tells node := by
      intro slot hslot
      rw [hpins.length_dataOuts hn, hk] at hslot
      exact knows_bind.2 (Or.inl (by rw [Nat.lt_one_iff.1 hslot]))
    exact ⟨Draft.grows_mark ((hr.grows hpins).trans hassign) hn (by rw [hk]; rfl) ht, ht⟩

end

end Drafts

/-! ### Ways of control -/

section Places

variable {job : Job} {path loops pending : List NodeId} {pin : PinRef} {scope : Scope} {node : Node} {d : Draft}

theorem Job.complete_entryScope {entry : Node} (hm : job.method.Consistent)
    (hn : job.method.entryNode? = some entry) : (entryScope entry).Complete job.method [] := by
  intro n hn' hid
  have heq : n.id = job.method.entry := by
    rcases hid with hid | hid | hid
    · exact hid
    · cases hid
    · cases hid
  rw [heq] at hn'
  have hsame : entry = n := Option.some.inj (hn.symm.trans hn')
  obtain ⟨k, hk, hkind⟩ := hm.entry
  have hsame' : k = entry := Option.some.inj (hk.symm.trans hn)
  subst hsame hsame'
  refine ⟨NodeKind.ne_getter (Or.inr hkind), fun slot hslot => ?_⟩
  exact ⟨_, List.mem_mapIdx.2 ⟨slot, hslot, rfl⟩, rfl⟩

/-- Wherever writing arrives, all values are known that can be. -/
theorem Arrives.complete (hm : job.method.Consistent) (hpins : job.method.HasPins)
    (h : Arrives job path loops pin scope) : scope.Complete job.method loops := by
  induction h with
  | entry hn => exact Job.complete_entryScope hm hn
  | skip _ _ _ _ _ ih => exact ih
  | make _ hf _ _ _ hmakes ih => exact ih.grows (hmakes.grows hpins (Job.node?_of_follow hf)).1
  | branch _ _ _ _ hr _ ih => exact ih.grows (hr.grows hpins)
  | @body path loops pin scope node counts d initial limit index _ hf _ hk hr ih =>
    have hfresh := (ih.grows (hr.grows hpins)).grows (Scope.grows_forgetAll job.method d.scope)
    have hbound := hfresh.grows (Scope.grows_bind _ _ (.dataOut node.id 0) index)
    have hn := Job.node?_of_follow hf
    intro n hn' hid
    by_cases heq : n.id = node.id
    · -- the loop itself, whose index now has a name
      rw [heq, hn] at hn'
      cases hn'
      refine ⟨by simp [hk], fun slot hslot => ?_⟩
      rw [hpins.length_dataOuts hn, hk] at hslot
      exact Scope.knows_bind.2 (Or.inl (by rw [Nat.lt_one_iff.1 hslot]))
    · exact hbound n hn' (by simpa [heq] using hid)
  | @completed path loops pin scope node counts d _ _ _ _ _ _ hr ih =>
    exact (ih.grows (hr.grows hpins)).grows (Scope.grows_forgetAll job.method d.scope)

/-- Writing follows a `Way` of control, and the `loops` that it keeps are those whose bodies the way is in. -/
theorem Arrives.exists_open_way (hm : job.method.Consistent) (hpins : job.method.HasPins)
    (h : Arrives job path loops pin scope) :
    ∃ pins n slot, Way job.method pins n ∧ pin = .execOut n.id slot ∧ slot < n.execOuts.length ∧
      loops = job.method.openLoops (pin :: pins) := by
  have hlen {id : NodeId} {n : Node} (hn : job.method.node? id = some n) :
      n.execOuts.length = n.kind.execOuts.length := (hpins.node hn).length_pins execOuts_lawful
  refine h.induction_along (P := fun _ loops pin => ∃ pins n slot, Way job.method pins n ∧
    pin = .execOut n.id slot ∧ slot < n.execOuts.length ∧ loops = job.method.openLoops (pin :: pins)) ?_ ?_
  · intro entry hn
    obtain ⟨k, hk, hkind⟩ := hm.entry
    obtain rfl : k = entry := Option.some.inj (hk.symm.trans hn)
    obtain ⟨types, hkind⟩ := NodeKind.eq_methodEntry hkind
    refine ⟨[], k, 0, .entry hn, rfl, by rw [hlen hn, hkind]; exact Nat.one_pos, ?_⟩
    rw [Method.openLoops_cons, Method.opens_eq_false (Method.node?_id hn) (by simp [hkind])]
    rfl
  · rintro path loops pin node slot ⟨pins, n, slot', hw, rfl, -, rfl⟩ hf _ hslot
    refine ⟨_, node, slot, hw.step (Job.next?_of_follow hf), rfl, ?_, ?_⟩
    · rwa [hlen (Job.node?_of_follow hf)]
    · exact (Method.openLoops_cons (.execOut node.id slot) _).symm

/-- Where inputs are looked for: on behalf of a node `top` that control has come to, in a scope that is `Complete`
there. -/
theorem Begins.complete (hm : job.method.Consistent) (hpins : job.method.HasPins) (h : Begins job pending node d) :
    ∃ pins top, Way job.method pins top ∧ ReflTransGen job.method.Feeds node top ∧
      d.scope.Complete job.method (job.method.openLoops pins) := by
  have arrived {path loops : List NodeId} {pin : PinRef} {scope : Scope} {node : Node}
      (h : Arrives job path loops pin scope) (hf : job.follow pin = .ok (some node)) :
      ∃ pins top, Way job.method pins top ∧ ReflTransGen job.method.Feeds node top ∧
        scope.Complete job.method (job.method.openLoops pins) := by
    have hcomplete := h.complete hm hpins
    obtain ⟨pins, n, slot, hw, rfl, -, rfl⟩ := h.exists_open_way hm hpins
    exact ⟨_, node, hw.step (Job.next?_of_follow hf), .refl, hcomplete⟩
  induction h with
  | enter h hf => exact arrived h hf
  | make h hf => exact arrived h hf
  | pull _ hr hs _ _ ih =>
    obtain ⟨pins, top, hw, hfeeds, hcomplete⟩ := ih
    exact ⟨pins, top, hw, hfeeds.head (Job.feeds_of_supply hs), hcomplete.grows (hr.grows hpins)⟩

end Places

/-! ### References lead somewhere -/

section References

variable {job : Job} {pending loops : List NodeId} {node : Node} {slot : Nat} {d : Draft} {e : SourceError}

/-- Where references are answered (`Mirrored`), an exec link leads to an exec input. -/
theorem Method.Mirrored.exists_execIn {m : Method} (hm : m.Mirrored) {n : Node} {out : ExecOut} {target : PinRef}
    (hn : m.node? n.id = some n) (hout : n.execOuts[slot]? = some out) (htarget : out.outgoing = some target) :
    ∃ node, m.node? target.node = some node ∧ 0 < node.execIns.length := by
  obtain ⟨hkind, hback⟩ := hm _ _ (mem_refs_execOut hn hout htarget)
  obtain ⟨node, hnode, hslot⟩ := node?_of_mem_refs hback
  rw [hkind] at hslot
  exact ⟨node, hnode, Nat.lt_of_le_of_lt (Nat.zero_le _) hslot⟩

theorem Astray.not_mirrored {n : Node} (h : Astray job (.execOut n.id slot) e)
    (hn : job.method.node? n.id = some n) (hslot : slot < n.execOuts.length) : ¬ job.method.Mirrored := by
  intro hm
  cases h with
  | noOutput h =>
    have hnone : n.execOuts[slot]? = none := h n hn
    rw [List.getElem?_eq_getElem hslot] at hnone
    cases hnone
  | noTarget hsource hout htarget h =>
    rw [show (PinRef.execOut n.id slot).node = n.id from rfl, hn] at hsource
    cases hsource
    obtain ⟨node, hnode, -⟩ := hm.exists_execIn hn hout htarget
    rw [h] at hnode
    cases hnode

/-- Control is never led to a node without exec inputs. -/
theorem Job.not_isSource (hm : job.method.Mirrored) (hpins : job.method.HasPins) {n : Node}
    (hn : job.method.node? n.id = some n) (hf : job.follow (.execOut n.id slot) = .ok (some node)) :
    ¬ node.kind.isSource = true := by
  intro hk
  obtain ⟨source, out, hsource, hout, hfound⟩ := follow_eq_ok hf
  obtain ⟨target, htarget, hnode⟩ := Option.bind_eq_some_iff.1 hfound
  rw [show (PinRef.execOut n.id slot).node = n.id from rfl, hn] at hsource
  cases hsource
  obtain ⟨node', hnode', hpos⟩ := hm.exists_execIn hn hout htarget
  rw [hnode] at hnode'
  cases hnode'
  have hlen : node.execIns.length = node.kind.execIns.length := (hpins.node hnode).length_pins execIns_lawful
  have hnone : node.kind.execIns = [] := by cases h : node.kind <;> simp [h, NodeKind.isSource] at hk <;> rfl
  rw [hlen, hnone] at hpos
  exact Nat.lt_irrefl 0 hpos

/-- In a `Coherent` graph, what an input lacks can only be a link. -/
theorem Unsupplied.of_coherent (h : Unsupplied job node slot e) (hm : job.method.Coherent job.catalog)
    (hpins : job.method.HasPins) (hn : job.method.node? node.id = some node) (hslot : slot < node.inputCount) :
    ∃ label pin, e = .missingConnection node.id label pin := by
  cases h with
  | noInput h =>
    rw [hpins.inputCount hn] at hslot
    rw [List.getElem?_eq_getElem hslot] at h
    cases h
  | unlinked => exact ⟨_, _, rfl⟩
  | astray hpin hsource h =>
    -- the reference is answered, so the output that it names is there
    obtain ⟨hkind, hback⟩ := hm.mirrored _ _ (Method.mem_refs_dataIn hn hpin hsource)
    obtain ⟨producer, hproducer, hlt⟩ := Method.node?_of_mem_refs hback
    rw [hkind] at hlt
    have hnone := h producer hproducer
    rw [List.getElem?_eq_none_iff] at hnone
    exact absurd hlt (Nat.not_lt.2 hnone)
  | @misfit pin source producer produced hpin hsource hproducer hproduced h =>
    -- the link was admitted under the same catalog
    obtain ⟨hkind, hback⟩ := hm.mirrored _ _ (Method.mem_refs_dataIn hn hpin hsource)
    have hlinked : job.method.Linked ⟨source, .dataIn node.id slot⟩ := ⟨by rw [hkind]; rfl, hback⟩
    have hout : job.method.pin? dataOuts source = some produced :=
      Method.pin?_eq_some_iff.2 ⟨hkind, producer, hproducer, hproduced⟩
    have hin : job.method.pin? dataIns (.dataIn node.id slot) = some pin :=
      Method.pin?_eq_some_iff.2 ⟨rfl, node, hn, hpin⟩
    rcases hm.admitted _ hlinked with ⟨_, _, _, hexec⟩ | ⟨produced', pin', hout', hin', hfits⟩
    · cases (Method.pin?_eq_some_iff.1 hexec).1
    · rw [hout] at hout'
      rw [hin] at hin'
      cases hout'
      cases hin'
      rw [TypeCatalog.isAssignable_iff.2 hfits] at h
      cases h

/-- Where references are answered, a node of which the scope `Tells` supplies a text. -/
theorem Scope.Tells.value?_ne_none {scope : Scope} {s : Supply} (h : scope.Tells s.producer)
    (hm : job.method.Mirrored) (hn : job.method.node? node.id = some node) (hs : job.supply node slot = .ok s) :
    scope.value? s.source ≠ none := by
  have hkind : s.source.kind = .dataOut := (Method.pin?_eq_some_iff.1 (hm.pin?_of_supply hn hs)).1
  have hid : s.producer.id = s.source.node := Method.id_of_node? (Job.supply_eq_ok hs).1
  have hsource : s.source = .dataOut s.producer.id s.source.slot := by
    rw [hid, PinRef.dataOut, ← hkind]
  have hslot : s.source.slot < s.producer.dataOuts.length :=
    (List.getElem?_eq_some_iff.1 (Job.supply_eq_ok hs).2.1).1
  intro hnone
  rw [hsource] at hnone
  exact value?_eq_none_iff.1 hnone (h _ hslot)

/-- Of the nodes that are no statements, only a `forLoop` can have a value that is not known. -/
theorem Scope.Complete.eq_forLoop {scope : Scope} {s : Supply} (h : scope.Complete job.method loops)
    (hm : job.method.Coherent job.catalog) (hpins : job.method.HasPins)
    (hn : job.method.node? node.id = some node) (hs : job.supply node slot = .ok s)
    (hv : scope.value? s.source = none) (hk : s.producer.kind.isControl = true) :
    s.producer.kind = .forLoop ∧ s.producer.id ∉ loops ∧ s.produced.name = "Index" := by
  obtain ⟨hproducer, hproduced, -⟩ := Job.supply_eq_ok hs
  have hself := Method.node?_id hproducer
  have hslot : s.source.slot < s.producer.dataOuts.length := (List.getElem?_eq_some_iff.1 hproduced).1
  have hunknown : ¬ (s.producer.id = job.method.entry ∨ s.producer.id ∈ loops ∨ s.producer.id ∈ scope.emitted) :=
    fun hid => (h _ hself hid).2.value?_ne_none hm.mirrored hn hs hv
  have hloop : s.producer.kind = .forLoop := by
    -- the values of the entry are known, and returns and branches have none
    cases hkind : s.producer.kind <;> simp [hkind, NodeKind.isControl] at hk
    case methodEntry types =>
      refine absurd (Or.inl ?_) hunknown
      exact hm.onlyEntry _ (Method.mem_of_node? hproducer) (by rw [hkind]; rfl)
    case forLoop => rfl
    all_goals
      rw [hpins.length_dataOuts hproducer, hkind] at hslot
      exact absurd hslot (Nat.not_lt_zero _)
  refine ⟨hloop, fun hid => hunknown (Or.inr (Or.inl hid)), ?_⟩
  have hname := hpins.name_mem_dataOuts hproducer (List.mem_of_getElem? hproduced)
  rw [hloop] at hname
  exact List.mem_singleton.1 hname

/-- Refusals in a `Coherent` graph, with a scope that is `Complete`. -/
theorem Refuses.of_coherent (h : Refuses job pending node slot d e) (hm : job.method.Coherent job.catalog)
    (hpins : job.method.HasPins) (hn : job.method.node? node.id = some node) (hslot : slot < node.inputCount)
    (hd : d.scope.Complete job.method loops) :
    (∃ id label pin, e = .missingConnection id label pin) ∨ (∃ id label, e = .dataCycle id label) ∨
      ∃ loop, e = .valueOutOfScope loop.id loop.label "Index" ∧ job.method.node? loop.id = some loop ∧
        loop.kind = .forLoop ∧ loop.id ∉ loops ∧ job.method.Feeds loop node := by
  cases h with
  | unsupplied hu => exact Or.inl ⟨node.id, hu.of_coherent hm hpins hn hslot⟩
  | cyclic => exact Or.inr (Or.inl ⟨_, _, rfl⟩)
  | spent hs hv he =>
    -- what was made before has its values known
    have hself := Method.node?_id (Job.supply_eq_ok hs).1
    exact absurd hv ((hd _ hself (Or.inr (Or.inr he))).2.value?_ne_none hm.mirrored hn hs)
  | unnamed hs hmakes hv =>
    -- and so has what was made just now
    have hself := Method.node?_id (Job.supply_eq_ok hs).1
    exact absurd hv ((hmakes.grows hpins hself).2.value?_ne_none hm.mirrored hn hs)
  | @outside s hs hv hk =>
    obtain ⟨hloop, hnot, hname⟩ := hd.eq_forLoop hm hpins hn hs hv hk
    refine Or.inr (Or.inr ⟨s.producer, ?_, Method.node?_id (Job.supply_eq_ok hs).1, hloop, hnot,
      Job.feeds_of_supply hs⟩)
    unfold Supply.outOfScope
    rw [hname]

end References

/-! ### Whole methods -/

/-- The index of `loop` is read for a node to which control comes by a way that is not in the loop's body. -/
def Method.ReadOutside (m : Method) (loop : Node) : Prop :=
  m.node? loop.id = some loop ∧ loop.kind = .forLoop ∧
    ∃ pins top reader, Way m pins top ∧ loop.id ∉ m.openLoops pins ∧ ReflTransGen m.Feeds reader top ∧
      m.Feeds loop reader

theorem Fails.of_coherent {job : Job} {e : SourceError} (h : Fails job e) (hm : job.method.Coherent job.catalog)
    (hpins : job.method.HasPins) :
    (∃ id label pin, e = .missingConnection id label pin) ∨ (∃ id label, e = .dataCycle id label) ∨
      (∃ id label, e = .execCycle id label) ∨
      ∃ loop, e = .valueOutOfScope loop.id loop.label "Index" ∧ job.method.ReadOutside loop := by
  have hconsistent : job.method.Consistent := (Method.coherent_iff.1 hm).1
  cases h with
  | noEntry h =>
    obtain ⟨n, hn, -⟩ := hm.entry
    rw [show job.method.node? job.method.entry = none from h] at hn
    cases hn
  | astray h hx =>
    -- writing leaves nodes by outputs that they have, and links are answered
    obtain ⟨pins, n, slot, hw, rfl, hslot, -⟩ := h.exists_open_way hconsistent hpins
    exact absurd hm.mirrored (hx.not_mirrored hw.node? hslot)
  | reenters => exact Or.inr (Or.inr (Or.inl ⟨_, _, rfl⟩))
  | barred h hf hk =>
    obtain ⟨pins, n, slot, hw, rfl, hslot, -⟩ := h.exists_open_way hconsistent hpins
    exact absurd hk (Job.not_isSource hm.mirrored hpins hw.node? hf)
  | @refused pending node d d' texts _ h hr hl hx =>
    obtain ⟨pins, top, hw, hfeeds, hd⟩ := h.complete hconsistent hpins
    rcases hx.of_coherent hm hpins h.live.node? hl (hd.grows (hr.grows hpins)) with he | he | hloop
    · exact Or.inl he
    · exact Or.inr (Or.inl he)
    · obtain ⟨loop, he, hn, hk, hnot, hfed⟩ := hloop
      exact Or.inr (Or.inr (Or.inr ⟨loop, he, hn, hk, pins, top, node, hw, hnot, hfeeds, hfed⟩))

/-- A method that `Method.run` built under a catalog, from nodes with the pins of their kinds, has under the same
catalog no references into nothing, no missing entry and no types that do not fit. The only value that can be out
of scope is the index of a loop, read outside of the loop's body (`Method.ReadOutside`). -/
theorem Method.source_error_of_run {c : TypeCatalog} {name : String} {argumentTypes returnTypes : List TypeSpec}
    {ops : List Operation} {m : Method} {config : Config} {e : SourceError}
    (hrun : m = (make name argumentTypes returnTypes).run c ops) (hops : ∀ op ∈ ops, op.HasPins)
    (h : Job.source ⟨m, c, config⟩ = .error e) :
    (∀ pin, e ≠ .danglingReference pin) ∧ e ≠ .missingEntry ∧
      (∀ id pin expected found, e ≠ .typeMismatch id pin expected found) ∧
      ∀ id label pin, e = .valueOutOfScope id label pin →
        ∃ loop, id = loop.id ∧ label = loop.label ∧ pin = "Index" ∧ m.ReadOutside loop := by
  have hm : m.Coherent c := hrun ▸ coherent_run (coherent_make name argumentTypes returnTypes c) ops
  have hpins : m.HasPins := hrun ▸ hasPins_run (hasPins_make name argumentTypes returnTypes) hops
  rcases (Job.fails_of_source h).of_coherent hm hpins with
    ⟨_, _, _, rfl⟩ | ⟨_, _, rfl⟩ | ⟨_, _, rfl⟩ | ⟨loop, rfl, hloop⟩
  · simp
  · simp
  · simp
  · refine ⟨by simp, by simp, by simp, ?_⟩
    rintro id label pin he
    cases he
    exact ⟨loop, rfl, rfl, rfl, hloop⟩

/-- A loop whose index is assigned to `x` once the loop is over. -/
def overrun : List Operation :=
  [.addNode (.literal "0" .int) {}, .addNode .forLoop {}, .insertNode (.make 3 (.setter ⟨"x", .int⟩) {}),
    .connect (.execOut 0 0) (.execIn 2 0), .connect (.execOut 2 1) (.execIn 3 0),
    .connect (.dataOut 1 0) (.dataIn 2 0), .connect (.dataOut 0 0) (.dataIn 2 1),
    .connect (.dataOut 2 0) (.dataIn 3 0)]

theorem Method.source_error_of_run_overrun :
    (∀ op ∈ overrun, op.HasPins) ∧
      Job.source ⟨(make "main" [.int] []).run (.ofPairs []) overrun, .ofPairs [], {}⟩ =
        .error (.valueOutOfScope 2 "For" "Index") ∧
      ∃ loop, loop.id = 2 ∧ ((make "main" [.int] []).run (.ofPairs []) overrun).ReadOutside loop := by
  have hops : ∀ op ∈ overrun, op.HasPins := by
    simp [overrun, Operation.Puts, Node.HasPins.make]
  have h : Job.source ⟨(make "main" [.int] []).run (.ofPairs []) overrun, .ofPairs [], {}⟩ =
      .error (.valueOutOfScope 2 "For" "Index") := by
    decide +kernel
  obtain ⟨-, -, -, hscope⟩ := Method.source_error_of_run rfl hops h
  obtain ⟨loop, hid, -, -, hloop⟩ := hscope 2 "For" "Index" rfl
  exact ⟨hops, h, loop, hid.symm, hloop⟩

end VisualScript
