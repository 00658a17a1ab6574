import VisualScript.Proofs.Source.Failure
import VisualScript.Proofs.Source.Renaming

/-!
# Writing two methods in step

Two methods are written side by side, the second under other ids. `Lockstep` says when that works: on a set of live
ids, which holds the entry and is closed under the links that writing follows, the nodes of the one match those
of the other, and what is assignable for the first job is so for the second.

* `Follows` compares outcomes: a success is matched by a success, and an error by the same error if the two runs
  are `firm`, that is, if the second catalog accepts nothing more than the first.
* `InStep` is the same for drafts, which carry a scope and steps along, and is closed under the ways of putting
  drafts together; so each function that makes source needs one lemma that follows its text.
* `Room` keeps the budgets apart from all that. The two methods may have different numbers of nodes, and neither
  budget is used up.

The result is `Lockstep.follows_sourceText`.
-/

namespace VisualScript

/-! ### Outcomes -/

section Outcomes

variable {α β γ δ : Type} {f : NodeId → NodeId} {firm : Prop} {live : NodeId → Prop}

/-- The second outcome follows the first: it succeeds if the first does, with a value that `R` relates, and if the
runs are `firm` it fails where the first does. -/
inductive Follows (f : NodeId → NodeId) (firm : Prop) (R : α → β → Prop) :
    Except SourceError α → Except SourceError β → Prop
  | ok {a : α} {b : β} (h : R a b) : Follows f firm R (.ok a) (.ok b)
  | error {e : SourceError} {y : Except SourceError β} (h : firm → y = .error (e.rename f)) :
      Follows f firm R (.error e) y

namespace Follows

variable {R : α → β → Prop} {S : γ → δ → Prop} {x : Except SourceError α} {y : Except SourceError β}

theorem bind {g : α → Except SourceError γ} {k : β → Except SourceError δ} (hx : Follows f firm R x y)
    (hg : ∀ a b, R a b → Follows f firm S (g a) (k b)) : Follows f firm S (x >>= g) (y >>= k) := by
  cases hx with
  | ok h => exact hg _ _ h
  | error h =>
    refine .error fun hfirm => ?_
    rw [h hfirm]
    rfl

theorem map {g : α → γ} {k : β → δ} (hx : Follows f firm R x y) (hg : ∀ a b, R a b → S (g a) (k b)) :
    Follows f firm S (x.map g) (y.map k) := by
  cases hx with
  | ok h => exact .ok (hg _ _ h)
  | error h =>
    refine .error fun hfirm => ?_
    rw [h hfirm]
    rfl

/-- If the runs are `firm` and end in equal values, they differ in the ids of errors only. -/
theorem eq_mapError {x y : Except SourceError α} (h : Follows f firm Eq x y) (hfirm : firm) :
    y = x.mapError (SourceError.rename f) := by
  cases h with
  | ok h => rw [h]; rfl
  | error h => exact h hfirm

/-- If the runs are `firm` and under the same ids, they have the same outcome. -/
theorem eq_of_id {x y : Except SourceError α} (h : Follows id firm Eq x y) (hfirm : firm) : y = x := by
  cases h with
  | ok h => rw [h]
  | error h => rw [h hfirm, SourceError.rename_id]

/-- A success is followed by a success, `firm` or not. -/
theorem eq_ok {a : α} {y : Except SourceError α} (h : Follows f firm Eq (.ok a) y) : y = .ok a := by
  cases h with
  | ok h => rw [h]

end Follows

/-- What the scope knows is known of nodes whose ids are `live`. -/
def Scope.Within (live : NodeId → Prop) (s : Scope) : Prop := ∀ v ∈ s.values, live v.1.node

namespace Scope.Within

variable {s : Scope}

theorem bind {p : PinRef} {text : String} (h : s.Within live) (hp : live p.node) :
    (s.bind p text).Within live := by
  intro v hv
  rcases List.mem_cons.1 hv with rfl | hv
  · exact hp
  · exact h v hv

theorem forget {m : Method} {which : String → Bool} (h : s.Within live) : (s.forget m which).Within live :=
  fun v hv => h v (List.mem_of_mem_filter hv)

theorem named {node : NodeId} {results : List (TypeSpec × String)} (h : s.Within live) (hn : live node) :
    (s.named node results).Within live := by
  intro v hv
  rcases Scope.mem_named hv with hv | hv
  · exact h v hv
  · rw [hv]
    exact hn

end Scope.Within

/-- From a draft and the same draft under other ids, the outcomes follow each other as `Follows` says, and so do
the drafts. -/
def InStep (f : NodeId → NodeId) (firm : Prop) (live : NodeId → Prop) (R : α → β → Prop) (x : DraftM α)
    (y : DraftM β) : Prop :=
  ∀ d : Draft, d.scope.Within live →
    Follows f firm (fun r r' => R r.1 r'.1 ∧ r'.2 = Draft.rename f r.2 ∧ r.2.scope.Within live) (x.run d)
      (y.run (d.rename f))

namespace InStep

variable {R : α → β → Prop} {S : γ → δ → Prop}

theorem pure {a : α} {b : β} (h : R a b) : InStep f firm live R (Pure.pure a) (Pure.pure b) :=
  fun _ hd => .ok ⟨h, rfl, hd⟩

theorem throw (e : SourceError) :
    InStep f firm live R (MonadExcept.throw e) (MonadExcept.throw (e.rename f)) :=
  fun _ _ => .error fun _ => rfl

theorem lift {x : Except SourceError α} {y : Except SourceError β} (h : Follows f firm R x y) :
    InStep f firm live R (liftM x) (liftM y) := by
  intro d hd
  cases h with
  | ok h => exact .ok ⟨h, rfl, hd⟩
  | error h =>
    refine .error fun hfirm => ?_
    rw [h hfirm]
    rfl

theorem bind {x : DraftM α} {y : DraftM β} {g : α → DraftM γ} {k : β → DraftM δ}
    (hx : InStep f firm live R x y) (hg : ∀ a b, R a b → InStep f firm live S (g a) (k b)) :
    InStep f firm live S (x >>= g) (y >>= k) := by
  intro d hd
  rw [StateT.run_bind, StateT.run_bind]
  refine (hx d hd).bind ?_
  -- the second draft is the first under other ids, so both go on from there
  rintro ⟨a, d₁⟩ ⟨b, d₁'⟩ ⟨hab, hd', hd₁⟩
  simp only at hd'
  subst hd'
  exact hg a b hab d₁ hd₁

/-- As `bind`, where both sides go on with the same value. -/
theorem bind_eq {x y : DraftM α} {g : α → DraftM γ} {k : α → DraftM δ} (hx : InStep f firm live Eq x y)
    (hg : ∀ a, InStep f firm live S (g a) (k a)) : InStep f firm live S (x >>= g) (y >>= k) :=
  hx.bind fun a _ hab => hab ▸ hg a

theorem mapM {g k : α → DraftM β} (l : List α) (h : ∀ a, InStep f firm live Eq (g a) (k a)) :
    InStep f firm live Eq (l.mapM g) (l.mapM k) := by
  induction l with
  | nil => exact InStep.pure rfl
  | cons a l ih =>
    rw [List.mapM_cons, List.mapM_cons]
    exact (h a).bind_eq fun _ => ih.bind_eq fun _ => InStep.pure rfl

theorem get : InStep f firm live (fun d d' => d' = Draft.rename f d) MonadState.get MonadState.get :=
  fun _ hd => .ok ⟨rfl, rfl, hd⟩

theorem value? (hf : Function.Injective f) (p : PinRef) :
    InStep f firm live Eq (DraftM.value? p) (DraftM.value? (p.rename f)) :=
  fun d hd => .ok ⟨(Scope.value?_rename hf d.scope p).symm, rfl, hd⟩

theorem write (s : Step) : InStep f firm live Eq (DraftM.write s) (DraftM.write (s.rename f)) := by
  intro d hd
  refine .ok ⟨rfl, ?_, hd⟩
  show DraftOf.mk _ _ (d.steps.map (Step.rename f) ++ [s.rename f]) =
    DraftOf.mk _ _ ((d.steps ++ [s]).map (Step.rename f))
  rw [List.map_append]
  rfl

theorem freshTemp (c : Config) (hint : String) :
    InStep f firm live Eq (DraftM.freshTemp c hint) (DraftM.freshTemp c hint) :=
  fun _ hd => .ok ⟨rfl, rfl, hd⟩

theorem changeScope {g k : Scope → Scope}
    (h : ∀ s : Scope, s.Within live → k (s.rename f) = (g s).rename f ∧ (g s).Within live) :
    InStep f firm live Eq (DraftM.changeScope g) (DraftM.changeScope k) := by
  intro d hd
  obtain ⟨hk, hg⟩ := h d.scope hd
  refine .ok ⟨rfl, ?_, hg⟩
  show DraftOf.mk _ _ _ = DraftOf.mk _ _ _
  simp [Draft.rename, hk]

end InStep

end Outcomes

/-! ### Nodes that match -/

/-- What writing reads of a node it finds at `n'` as at `n`, under other ids. -/
structure Node.Matches (f : NodeId → NodeId) (n n' : Node) : Prop where
  id : n'.id = f n.id
  kind : n'.kind = n.kind
  targets : n'.execOuts.map (·.outgoing) = n.execOuts.map fun p => p.outgoing.map (PinRef.rename f)
  inputs : n'.dataIns = n.dataIns.map fun p => { p with incoming := p.incoming.map (PinRef.rename f) }
  outputs : n'.dataOuts.map (fun p => (p.name, p.type)) = n.dataOuts.map fun p => (p.name, p.type)

/-- Lists with the same image under `g` and `k` agree place by place. -/
theorem getElem?_cases_of_map_eq {α β γ : Type} {g : α → γ} {k : β → γ} {xs : List α} {ys : List β}
    (h : ys.map k = xs.map g) (i : Nat) :
    (xs[i]? = none ∧ ys[i]? = none) ∨ ∃ a b, xs[i]? = some a ∧ ys[i]? = some b ∧ k b = g a := by
  have hi : (ys[i]?).map k = (xs[i]?).map g := by rw [← List.getElem?_map, h, List.getElem?_map]
  cases hx : xs[i]? with
  | none =>
    rw [hx] at hi
    exact Or.inl ⟨rfl, Option.map_eq_none_iff.1 hi⟩
  | some a =>
    rw [hx] at hi
    obtain ⟨b, hb, hba⟩ := Option.map_eq_some_iff.1 hi
    exact Or.inr ⟨a, b, rfl, hb, hba⟩

namespace Node.Matches

variable {f : NodeId → NodeId} {n n' : Node}

theorem label (h : n.Matches f n') : n'.label = n.label := by
  unfold Node.label
  rw [h.kind]

theorem length_dataIns (h : n.Matches f n') : n'.dataIns.length = n.dataIns.length := by
  rw [h.inputs, List.length_map]

theorem isEmpty_execOuts (h : n.Matches f n') : n'.execOuts.isEmpty = n.execOuts.isEmpty := by
  have hlen := congrArg List.isEmpty h.targets
  simpa using hlen

theorem hasSuccessor (h : n.Matches f n') (slot : Nat) : Job.hasSuccessor n' slot = Job.hasSuccessor n slot := by
  unfold Job.hasSuccessor
  rcases getElem?_cases_of_map_eq h.targets slot with ⟨hout, hout'⟩ | ⟨out, out', hout, hout', heq⟩
  · rw [hout, hout']
  · rw [hout, hout', Option.any_some, Option.any_some, heq, Option.isSome_map]

theorem rename_execOut (h : n.Matches f n') (slot : Nat) :
    (PinRef.execOut n.id slot).rename f = .execOut n'.id slot := by
  rw [h.id]
  rfl

theorem rename_dataOut (h : n.Matches f n') (slot : Nat) :
    (PinRef.dataOut n.id slot).rename f = .dataOut n'.id slot := by
  rw [h.id]
  rfl

end Node.Matches

/-! ### Jobs in step -/

/-- `job'` does under other ids what `job` does. The nodes need match on the `live` ids only. -/
structure Lockstep (f : NodeId → NodeId) (firm : Prop) (live : NodeId → Prop) (job job' : Job) : Prop where
  injective : Function.Injective f
  config : job'.config = job.config
  signature : job'.method.signature = job.method.signature
  isAbstract : job'.method.isAbstract = job.method.isAbstract
  entry : job'.method.entry = f job.method.entry
  live_entry : live job.method.entry
  live_target : ∀ {n : Node}, live n.id → job.method.node? n.id = some n → ∀ out ∈ n.execOuts,
    ∀ t, out.outgoing = some t → live t.node
  live_source : ∀ {n : Node}, live n.id → job.method.node? n.id = some n → ∀ pin ∈ n.dataIns,
    ∀ s, pin.incoming = some s → live s.node
  matching : ∀ id, live id → Option.Rel (Node.Matches f) (job.method.node? id) (job'.method.node? (f id))
  assignable : ∀ a b, job.catalog.isAssignable a b = true → job'.catalog.isAssignable a b = true
  assignable_only : firm → ∀ a b, job'.catalog.isAssignable a b = true → job.catalog.isAssignable a b = true

/-- A `live` node of the first method, and its match. -/
structure Job.Paired (f : NodeId → NodeId) (live : NodeId → Prop) (job : Job) (n n' : Node) : Prop where
  matching : n.Matches f n'
  live : live n.id
  node? : job.method.node? n.id = some n

namespace Lockstep

variable {f : NodeId → NodeId} {firm : Prop} {live : NodeId → Prop} {job job' : Job} {n n' : Node}

/-- A `live` id names a node of both methods or of neither. -/
theorem node?_cases (h : Lockstep f firm live job job') {id : NodeId} (hid : live id) :
    (job.method.node? id = none ∧ job'.method.node? (f id) = none) ∨
      ∃ n n', job.method.node? id = some n ∧ job'.method.node? (f id) = some n' ∧ job.Paired f live n n' := by
  have hrel := h.matching id hid
  cases hn : job.method.node? id with
  | none =>
    rw [hn] at hrel
    cases hn' : job'.method.node? (f id) with
    | none => exact Or.inl ⟨rfl, rfl⟩
    | some n' =>
      rw [hn'] at hrel
      cases hrel
  | some n =>
    rw [hn] at hrel
    cases hn' : job'.method.node? (f id) with
    | none =>
      rw [hn'] at hrel
      cases hrel
    | some n' =>
      rw [hn'] at hrel
      cases hrel with
      | some hm =>
        have hid' : n.id = id := Method.id_of_node? hn
        exact Or.inr ⟨n, n', rfl, rfl, hm, hid'.symm ▸ hid, Method.node?_id hn⟩

/-! ### Budgets -/

/-- The `ids` of a path, or of nodes that wait for each other, with what is left of the budgets of both jobs. -/
structure Room (live : NodeId → Prop) (job job' : Job) (ids : List NodeId) (budget budget' : Nat) : Prop where
  nodup : ids.Nodup
  there : ∀ id ∈ ids, live id ∧ ∃ n, job.method.node? id = some n
  left : job.method.nodes.length ≤ ids.length + budget
  right : job'.method.nodes.length ≤ ids.length + budget'

theorem room_nil : Room live job job' [] job.budget job'.budget where
  nodup := List.nodup_nil
  there _ hid := absurd hid List.not_mem_nil
  left := Nat.le_add_left _ _
  right := Nat.le_add_left _ _

/-- If there is `Room`, both methods have something left of their budgets for one more node. -/
theorem Room.push (h : Lockstep f firm live job job') {ids : List NodeId} {budget budget' : Nat}
    (hroom : Room live job job' ids budget budget') (hn : job.Paired f live n n') (hid : n.id ∉ ids) :
    ∃ b b', budget = b + 1 ∧ budget' = b' + 1 ∧ Room live job job' (n.id :: ids) b b' := by
  have hnodup : (n.id :: ids).Nodup := List.nodup_cons.2 ⟨hid, hroom.nodup⟩
  have hthere : ∀ id ∈ n.id :: ids, live id ∧ ∃ n, job.method.node? id = some n := by
    intro id hmem
    rcases List.mem_cons.1 hmem with rfl | hmem
    · exact ⟨hn.live, n, hn.node?⟩
    · exact hroom.there id hmem
  have hthere' : ∀ id ∈ (n.id :: ids).map f, ∃ n, job'.method.node? id = some n := by
    intro id hmem
    obtain ⟨a, ha, rfl⟩ := List.mem_map.1 hmem
    obtain ⟨hlive, k, hk⟩ := hthere a ha
    rcases h.node?_cases hlive with ⟨hnone, -⟩ | ⟨_, k', _, hk', _⟩
    · rw [hk] at hnone
      cases hnone
    · exact ⟨k', hk'⟩
  -- each method has a node for every id of the list, so each budget covers one more
  have hle := Method.length_le_nodes hnodup fun id hmem => (hthere id hmem).2
  have hle' := Method.length_le_nodes (hnodup.map h.injective) hthere'
  have hleft := hroom.left
  have hright := hroom.right
  rw [List.length_map] at hle'
  rw [List.length_cons] at hle hle'
  refine ⟨budget - 1, budget' - 1, by omega, by omega, hnodup, hthere, ?_, ?_⟩
  · rw [List.length_cons]
    omega
  · rw [List.length_cons]
    omega

/-! ### Operands -/

/-- The supplies `s` and `s'` match. -/
structure Supplied (f : NodeId → NodeId) (live : NodeId → Prop) (job : Job) (s s' : Supply) : Prop where
  source : s'.source = s.source.rename f
  live_source : live s.source.node
  producer : job.Paired f live s.producer s'.producer
  name : s'.produced.name = s.produced.name
  type : s'.produced.type = s.produced.type

theorem follows_supply (h : Lockstep f firm live job job') (hn : job.Paired f live n n') (slot : Nat) :
    Follows f firm (Supplied f live job) (job.supply n slot) (job'.supply n' slot) := by
  have hid : n'.id = f n.id := hn.matching.id
  unfold Job.supply
  rw [hn.matching.inputs, List.getElem?_map]
  cases hpin : n.dataIns[slot]? with
  | none => exact .error fun _ => by rw [hid]; rfl
  | some pin =>
    cases hsource : pin.incoming with
    | none =>
      simp only [Option.map_some, hsource, Option.map_none]
      exact .error fun _ => by rw [hid, hn.matching.label]; rfl
    | some source =>
      simp only [Option.map_some, hsource]
      have hlive : live source.node :=
        h.live_source hn.live hn.node? pin (List.mem_of_getElem? hpin) source hsource
      have hnode : (source.rename f).node = f source.node := rfl
      rcases h.node?_cases hlive with ⟨hp, hp'⟩ | ⟨p, p', hp, hp', hpaired⟩
      · rw [hp, hnode, hp']
        exact .error fun _ => rfl
      · rw [hp, hnode, hp']
        have hslot : (source.rename f).slot = source.slot := rfl
        simp only [hslot]
        rcases getElem?_cases_of_map_eq hpaired.matching.outputs source.slot with
          ⟨hout, hout'⟩ | ⟨out, out', hout, hout', heq⟩
        · rw [hout, hout']
          exact .error fun _ => rfl
        · obtain ⟨hname, htype⟩ := Prod.mk.inj heq
          simp only [hout, hout']
          cases hfits : job.catalog.isAssignable out.type pin.type with
          | true =>
            rw [htype, h.assignable _ _ hfits]
            exact .ok ⟨rfl, hlive, hpaired, hname, htype⟩
          | false =>
            -- here the second catalog may accept what the first does not, unless the runs are firm
            refine .error fun hfirm => ?_
            have hfits' : job'.catalog.isAssignable out.type pin.type = false := by
              rw [Bool.eq_false_iff]
              intro htrue
              rw [h.assignable_only hfirm _ _ htrue] at hfits
              cases hfits
            rw [htype, hfits', hid]
            rfl

/-- Statements are made `InStep` for nodes that do not wait themselves. -/
def Pulls (f : NodeId → NodeId) (firm : Prop) (live : NodeId → Prop) (job : Job) (pending : List NodeId)
    (pull pull' : Node → DraftM Unit) : Prop :=
  ∀ n n', job.Paired f live n n' → n.id ∉ pending → InStep f firm live Eq (pull n) (pull' n')

variable {pending : List NodeId} {pull pull' : Node → DraftM Unit}

theorem inStep_outOfScope {s s' : Supply} (hs : Supplied f live job s s') :
    InStep f firm live (Eq : String → String → Prop)
      (throw s.outOfScope) (throw s'.outOfScope) := by
  have hrename : s'.outOfScope = s.outOfScope.rename f := by
    unfold Supply.outOfScope
    rw [hs.producer.matching.id, hs.producer.matching.label, hs.name]
    rfl
  rw [hrename]
  exact InStep.throw s.outOfScope

theorem inStep_pullText (h : Lockstep f firm live job job') (hpull : Pulls f firm live job pending pull pull')
    {s s' : Supply} (hs : Supplied f live job s s') :
    InStep f firm live Eq (Job.pullText pending pull s) (Job.pullText (pending.map f) pull' s') := by
  have hid : s'.producer.id = f s.producer.id := hs.producer.matching.id
  have hpending : s'.producer.id ∈ pending.map f ↔ s.producer.id ∈ pending := by
    rw [hid]
    exact List.mem_map_of_injective h.injective
  unfold Job.pullText
  by_cases hp : s.producer.id ∈ pending
  · -- both find the cycle, at nodes with the same label
    simp only [hp, hpending.2 hp, if_true]
    rw [hid, hs.producer.matching.label]
    exact InStep.throw (.dataCycle s.producer.id s.producer.label)
  simp only [hp, mt hpending.1 hp, if_false]
  refine InStep.get.bind fun d d' hd => ?_
  have hemitted : s'.producer.id ∈ d'.scope.emitted ↔ s.producer.id ∈ d.scope.emitted := by
    rw [hid, hd]
    exact Scope.mem_emitted_rename h.injective
  by_cases he : s.producer.id ∈ d.scope.emitted
  · simp only [he, hemitted.2 he, if_true]
    exact inStep_outOfScope hs
  simp only [he, mt hemitted.1 he, if_false, hs.source]
  refine (hpull _ _ hs.producer hp).bind_eq fun _ => ?_
  refine (InStep.value? h.injective s.source).bind_eq fun known => ?_
  cases known with
  | none => exact inStep_outOfScope hs
  | some text => exact InStep.pure rfl

theorem inStep_operand (h : Lockstep f firm live job job') (hpull : Pulls f firm live job pending pull pull')
    (hn : job.Paired f live n n') (slot : Nat) :
    InStep f firm live Eq (job.operand pending pull n slot) (job'.operand (pending.map f) pull' n' slot) := by
  unfold Job.operand
  refine (InStep.lift (h.follows_supply hn slot)).bind fun s s' hs => ?_
  have hid : s'.producer.id = f s.producer.id := hs.producer.matching.id
  have hpulled := h.inStep_pullText hpull hs
  refine InStep.bind (R := Eq) ?_ fun known known' hknown => ?_
  · rw [hs.source]
    exact InStep.value? h.injective s.source
  subst hknown
  cases known with
  | some text => exact InStep.pure rfl
  | none =>
    have hkind : s'.producer.kind = s.producer.kind := hs.producer.matching.kind
    -- the producers are of the same kind, so both take the same case
    cases hk : s.producer.kind <;> rw [hk] at hkind <;> simp only [hkind]
    case literal value type => exact InStep.pure rfl
    case getter v =>
      rw [h.config, hs.source, hs.type, hid]
      refine (InStep.freshTemp job.config v.name).bind_eq fun name => ?_
      refine (InStep.write (.read s.producer.id s.produced.type name v.name)).bind_eq fun _ => ?_
      refine (InStep.changeScope fun scope hscope => ?_).bind_eq fun _ => InStep.pure rfl
      exact ⟨(Scope.rename_bind scope s.source name).symm, hscope.bind hs.live_source⟩
    case callMethod => exact hpulled
    case callStatic => exact hpulled
    case setter => exact hpulled
    all_goals exact inStep_outOfScope hs

theorem inStep_operandsFrom (h : Lockstep f firm live job job') (hpull : Pulls f firm live job pending pull pull')
    (hn : job.Paired f live n n') (first : Nat) :
    InStep f firm live Eq (job.operandsFrom pending pull n first)
      (job'.operandsFrom (pending.map f) pull' n' first) := by
  unfold Job.operandsFrom
  rw [hn.matching.length_dataIns]
  exact InStep.mapM _ fun slot => h.inStep_operand hpull hn slot

/-! ### Statements -/

theorem results_eq (h : Lockstep f firm live job job') (hn : n.Matches f n') (k : Nat) :
    job'.results n' k = job.results n k := by
  refine List.ext_getElem? fun i => ?_
  unfold Job.results
  rw [List.getElem?_mapIdx, List.getElem?_mapIdx, h.config]
  rcases getElem?_cases_of_map_eq hn.outputs i with ⟨hout, hout'⟩ | ⟨out, out', hout, hout', heq⟩
  · rw [hout, hout']
  · obtain ⟨hname, htype⟩ := Prod.mk.inj heq
    rw [hout, hout', Option.map_some, Option.map_some, hname, htype]

theorem inStep_bindOutputs (h : Lockstep f firm live job job') (hn : job.Paired f live n n') :
    InStep f firm live Eq (job.bindOutputs n) (job'.bindOutputs n') := by
  intro d hd
  have hresults := h.results_eq hn.matching d.temps
  have htemps : (d.rename f).temps = d.temps := rfl
  rw [Job.run_bindOutputs, Job.run_bindOutputs, htemps, hresults, hn.matching.id]
  refine .ok ⟨rfl, ?_, hd.named hn.live⟩
  simp [Draft.rename, Scope.rename_named]

theorem reads_rename (h : Lockstep f firm live job job') (which : String → Bool) {p : PinRef} (hp : live p.node) :
    Scope.reads job'.method which (p.rename f) = Scope.reads job.method which p := by
  have hnode : (p.rename f).node = f p.node := rfl
  unfold Scope.reads
  rw [hnode]
  rcases h.node?_cases hp with ⟨hnone, hnone'⟩ | ⟨k, k', hk, hk', hpaired⟩
  · rw [hnone, hnone']
  · rw [hk, hk', Option.any_some, Option.any_some, hpaired.matching.kind]

theorem rename_forget (h : Lockstep f firm live job job') {s : Scope} (hs : s.Within live)
    (which : String → Bool) :
    (s.rename f).forget job'.method which = (s.forget job.method which).rename f := by
  unfold Scope.forget Scope.rename
  simp only [List.filter_map]
  congr 2
  refine List.filter_congr fun v hv => ?_
  exact congrArg not (h.reads_rename which (hs v hv))

theorem inStep_build (h : Lockstep f firm live job job') (hpull : Pulls f firm live job pending pull pull')
    (hn : job.Paired f live n n') :
    InStep f firm live Eq (job.build pending pull n) (job'.build (pending.map f) pull' n') := by
  have hkind : n'.kind = n.kind := hn.matching.kind
  unfold Job.build
  rw [hn.matching.id]
  cases hk : n.kind <;> rw [hk] at hkind <;> simp only [hkind]
  case callMethod name _ _ =>
    refine (h.inStep_operand hpull hn 0).bind_eq fun target => ?_
    refine (h.inStep_operandsFrom hpull hn 1).bind_eq fun arguments => ?_
    refine (h.inStep_bindOutputs hn).bind_eq fun results => ?_
    exact InStep.write (.callMethod n.id results target name arguments)
  case callStatic type name _ _ =>
    refine (h.inStep_operandsFrom hpull hn 0).bind_eq fun arguments => ?_
    refine (h.inStep_bindOutputs hn).bind_eq fun results => ?_
    exact InStep.write (.callStatic n.id results type name arguments)
  case setter v =>
    refine (h.inStep_operand hpull hn 0).bind_eq fun value => ?_
    refine (InStep.write (.assign n.id v.name value)).bind_eq fun _ => ?_
    refine InStep.changeScope fun scope hscope => ⟨?_, hscope.forget.bind hn.live⟩
    rw [h.rename_forget hscope]
    rfl
  all_goals exact InStep.pure rfl

theorem inStep_statement (h : Lockstep f firm live job job') {budget budget' : Nat}
    (hroom : Room live job job' pending budget budget') :
    Pulls f firm live job pending (job.statement budget pending) (job'.statement budget' (pending.map f)) := by
  -- each statement takes a node off the budgets, and there is room for every node that does not wait
  induction budget generalizing budget' pending with
  | zero =>
    intro n n' hn hid
    obtain ⟨_, _, hzero, _⟩ := hroom.push h hn hid
    cases hzero
  | succ budget ih =>
    intro n n' hn hid
    obtain ⟨b, b', hb, rfl, hroom'⟩ := hroom.push h hn hid
    cases hb
    have hpull := ih hroom'
    rw [List.map_cons, ← hn.matching.id] at hpull
    unfold Job.statement
    have hbuild := h.inStep_build hpull hn
    rw [List.map_cons, ← hn.matching.id] at hbuild
    refine hbuild.bind_eq fun _ => InStep.changeScope fun scope hscope => ⟨?_, hscope⟩
    rw [hn.matching.id]
    rfl

theorem inStep_input (h : Lockstep f firm live job job') (hn : job.Paired f live n n') (slot : Nat) :
    InStep f firm live Eq (job.operand [] (job.statement job.budget []) n slot)
      (job'.operand [] (job'.statement job'.budget []) n' slot) :=
  h.inStep_operand (h.inStep_statement room_nil) hn slot

theorem inStep_inputs (h : Lockstep f firm live job job') (hn : job.Paired f live n n') :
    InStep f firm live Eq (job.operandsFrom [] (job.statement job.budget []) n 0)
      (job'.operandsFrom [] (job'.statement job'.budget []) n' 0) :=
  h.inStep_operandsFrom (h.inStep_statement room_nil) hn 0

theorem inStep_bounds (h : Lockstep f firm live job job') (hn : job.Paired f live n n') :
    InStep f firm live Eq (job.bounds (job.statement job.budget []) n)
      (job'.bounds (job'.statement job'.budget []) n') :=
  (h.inStep_input hn 0).bind_eq fun _ => (h.inStep_input hn 1).bind_eq fun _ => InStep.pure rfl

/-! ### Code -/

/-- `follow` leads nowhere in both, or to nodes that match. -/
theorem follows_follow (h : Lockstep f firm live job job') {pin : PinRef} (hpin : live pin.node) :
    Follows f firm (Option.Rel (job.Paired f live)) (job.follow pin) (job'.follow (pin.rename f)) := by
  have hnode : (pin.rename f).node = f pin.node := rfl
  have hslot : (pin.rename f).slot = pin.slot := rfl
  unfold Job.follow
  rw [hnode, hslot]
  rcases h.node?_cases hpin with ⟨hk, hk'⟩ | ⟨k, k', hk, hk', hpaired⟩
  · rw [hk, hk']
    exact .error fun _ => rfl
  simp only [hk, hk']
  rcases getElem?_cases_of_map_eq hpaired.matching.targets pin.slot with
    ⟨hout, hout'⟩ | ⟨out, out', hout, hout', heq⟩
  · rw [hout, hout']
    exact .error fun _ => rfl
  simp only [hout, hout', heq]
  cases htarget : out.outgoing with
  | none => exact .ok .none
  | some target =>
    have hlive := h.live_target hpaired.live hpaired.node? out (List.mem_of_getElem? hout) target htarget
    have htnode : (target.rename f).node = f target.node := rfl
    simp only [Option.map_some, htnode]
    rcases h.node?_cases hlive with ⟨ht, ht'⟩ | ⟨t, t', ht, ht', htpaired⟩
    · rw [ht, ht']
      exact .error fun _ => rfl
    · rw [ht, ht']
      exact .ok (.some htpaired)

/-- `r'` has the same code as `r` under other ids, and the same counts. -/
def SameCode (f : NodeId → NodeId) (r r' : Code × Counts) : Prop := r' = (r.1.rename f, r.2)

/-- Operands are found in step, and the code after them is the same under other ids. -/
theorem follows_after {α β : Type} {R : α → β → Prop} {x : DraftM α} {y : DraftM β}
    (hxy : InStep f firm live R x y) {scope : Scope} (hscope : scope.Within live) (counts : Counts)
    {next : α → Scope → Counts → Drafted}
    {next' : β → Scope → Counts → Drafted}
    (hnext : ∀ a b scope counts, R a b → scope.Within live →
      Follows f firm (SameCode f) (next a scope counts) (next' b (scope.rename f) counts)) :
    Follows f firm (SameCode f) (Job.after x scope counts next) (Job.after y (scope.rename f) counts next') := by
  unfold Job.after
  refine (hxy (scope.draft counts) hscope).bind ?_
  rintro ⟨a, d⟩ ⟨b, d'⟩ ⟨hab, hd, hlive⟩
  simp only at hd
  subst hd
  refine (hnext a b d.scope { counts with temps := d.temps } hab hlive).bind ?_
  rintro ⟨code, counts₁⟩ _ rfl
  exact .ok (by simp [SameCode, Code.rename_steps, Draft.rename])

/-- What `go` and `go'` write from an exec output of `n` and `n'` on is the same code under other ids. -/
def Goes (f : NodeId → NodeId) (firm : Prop) (live : NodeId → Prop) (n n' : Node)
    (go go' : List NodeId → PinRef → Scope → Counts → Drafted) : Prop :=
  ∀ loops slot scope counts, scope.Within live →
    Follows f firm (SameCode f) (go loops (.execOut n.id slot) scope counts)
      (go' (loops.map f) (.execOut n'.id slot) (scope.rename f) counts)

variable {go go' : List NodeId → PinRef → Scope → Counts → Drafted}

theorem follows_enterStatement (h : Lockstep f firm live job job') (hn : job.Paired f live n n')
    (hgo : Goes f firm live n n' go go') (loops : List NodeId) {scope : Scope} (hscope : scope.Within live)
    (counts : Counts) :
    Follows f firm (SameCode f) (Job.enterStatement (job.statement job.budget []) go loops n scope counts)
      (Job.enterStatement (job'.statement job'.budget []) go' (loops.map f) n' (scope.rename f) counts) := by
  have hemitted : n'.id ∈ (scope.rename f).emitted ↔ n.id ∈ scope.emitted := by
    rw [hn.matching.id]
    exact Scope.mem_emitted_rename h.injective
  unfold Job.enterStatement
  by_cases he : n.id ∈ scope.emitted
  · rw [if_pos he, if_pos (hemitted.2 he)]
    exact hgo loops 0 scope counts hscope
  · rw [if_neg he, if_neg (mt hemitted.1 he)]
    have hmade := h.inStep_statement room_nil n n' hn List.not_mem_nil
    exact follows_after hmade hscope counts fun _ _ scope₁ counts₁ _ hscope₁ =>
      hgo loops 0 scope₁ counts₁ hscope₁

theorem follows_enterBranch (hn : job.Paired f live n n') (hgo : Goes f firm live n n' go go')
    (loops : List NodeId) {scope : Scope} (hscope : scope.Within live) (counts : Counts) (condition : String) :
    Follows f firm (SameCode f) (Job.enterBranch go loops n scope counts condition)
      (Job.enterBranch go' (loops.map f) n' (scope.rename f) counts condition) := by
  unfold Job.enterBranch
  refine (hgo loops thenSlot scope counts hscope).bind ?_
  rintro ⟨whenTrue, counts₁⟩ _ rfl
  simp only [hn.matching.hasSuccessor, hn.matching.id]
  by_cases he : Job.hasSuccessor n elseSlot
  · simp only [he, if_true]
    have helse := hgo loops elseSlot scope counts₁ hscope
    rw [hn.matching.id] at helse
    refine helse.bind ?_
    rintro ⟨whenFalse, counts₂⟩ _ rfl
    exact .ok rfl
  · simp only [he]
    exact .ok rfl

theorem follows_enterLoop (h : Lockstep f firm live job job') (hn : job.Paired f live n n')
    (hgo : Goes f firm live n n' go go') (loops : List NodeId) {scope : Scope} (hscope : scope.Within live)
    (counts : Counts) (bounds : String × String) :
    Follows f firm (SameCode f) (job.enterLoop go loops n scope counts bounds)
      (job'.enterLoop go' (loops.map f) n' (scope.rename f) counts bounds) := by
  have hid : n'.id = f n.id := hn.matching.id
  have hforget : (scope.rename f).forgetAll job'.method = (scope.forgetAll job.method).rename f :=
    h.rename_forget hscope fun _ => true
  have hfresh : (scope.forgetAll job.method).Within live := hscope.forget
  unfold Job.enterLoop
  simp only [hforget, h.config]
  -- the body knows the index besides, and what follows the loop does not
  generalize scope.forgetAll job.method = fresh at hfresh
  have hbody := hgo (n.id :: loops) bodySlot
    (fresh.bind (.dataOut n.id 0) (job.config.indexName counts.loops))
    { counts with loops := counts.loops + 1 } (hfresh.bind hn.live)
  rw [Scope.rename_bind, hn.matching.rename_dataOut, List.map_cons, ← hid] at hbody
  refine Follows.bind hbody ?_
  rintro ⟨body, counts₁⟩ _ rfl
  refine (hgo loops completedSlot fresh counts₁ hfresh).bind ?_
  rintro ⟨next, counts₂⟩ _ rfl
  exact .ok (by simp [SameCode, Code.rename, hid])

theorem follows_enter (h : Lockstep f firm live job job') (hn : job.Paired f live n n')
    (hgo : Goes f firm live n n' go go') (loops : List NodeId) {scope : Scope} (hscope : scope.Within live)
    (counts : Counts) :
    Follows f firm (SameCode f) (job.enter go loops n scope counts)
      (job'.enter go' (loops.map f) n' (scope.rename f) counts) := by
  have hkind : n'.kind = n.kind := hn.matching.kind
  have hid : n'.id = f n.id := hn.matching.id
  have hmake := h.follows_enterStatement hn hgo loops hscope counts
  unfold Job.enter Job.enterWith
  cases hk : n.kind <;> rw [hk] at hkind <;> simp only [hkind]
  case ret types =>
    refine follows_after (h.inStep_inputs hn) hscope counts ?_
    rintro values _ scope₁ counts₁ rfl -
    exact .ok (by simp [SameCode, Code.rename, hid])
  case callMethod => exact hmake
  case callStatic => exact hmake
  case setter => exact hmake
  case ifElse =>
    refine follows_after (h.inStep_input hn 0) hscope counts ?_
    rintro condition _ scope₁ counts₁ rfl hscope₁
    exact follows_enterBranch hn hgo loops hscope₁ counts₁ condition
  case forLoop =>
    refine follows_after (h.inStep_bounds hn) hscope counts ?_
    rintro bounds _ scope₁ counts₁ rfl hscope₁
    exact h.follows_enterLoop hn hgo loops hscope₁ counts₁ bounds
  all_goals exact .error fun _ => by rw [hid]; rfl

/-- The ends of a path are the same for both, and a node that one enters matches the one that the other enters. -/
theorem follows_onward (h : Lockstep f firm live job job') {path loops : List NodeId} {pin : PinRef}
    (hpin : live pin.node) {into into' : Node → List NodeId → Scope → Counts → Drafted} {scope : Scope}
    {counts : Counts} (hinto : ∀ n n', job.Paired f live n n' → n.id ∉ path →
      Follows f firm (SameCode f) (into n loops scope counts)
      (into' n' (loops.map f) (scope.rename f) counts)) :
    Follows f firm (SameCode f) (job.onward path into loops pin scope counts)
      (job'.onward (path.map f) into' (loops.map f) (pin.rename f) (scope.rename f) counts) := by
  unfold Job.onward
  refine (h.follows_follow hpin).bind ?_
  intro o o' ho
  cases ho with
  | none => exact .ok rfl
  | @some n n' hn =>
    have hid : n'.id = f n.id := hn.matching.id
    have hpath : n'.id ∈ path.map f ↔ n.id ∈ path := by
      rw [hid]
      exact List.mem_map_of_injective h.injective
    by_cases hp : n.id ∈ path
    · -- the end of the innermost loop in both, or a cycle in both
      have hhead : (loops.map f).head? = some n'.id ↔ loops.head? = some n.id := by
        rw [hid, List.head?_map, ← Option.map_some]
        exact (Option.map_injective h.injective).eq_iff
      simp only [hp, hpath.2 hp, if_true]
      by_cases hl : loops.head? = some n.id
      · rw [if_pos hl, if_pos (hhead.2 hl), hid]
        exact .ok rfl
      · rw [if_neg hl, if_neg (mt hhead.1 hl), hid, hn.matching.label]
        exact .error fun _ => rfl
    · simp only [hp, mt hpath.1 hp, if_false]
      exact hinto n n' hn hp

theorem follows_walk (h : Lockstep f firm live job job') {path : List NodeId} {budget budget' : Nat}
    (hroom : Room live job job' path budget budget') (loops : List NodeId) {pin : PinRef} (hpin : live pin.node)
    {scope : Scope} (hscope : scope.Within live) (counts : Counts) :
    Follows f firm (SameCode f) (job.walk budget path loops pin scope counts)
      (job'.walk budget' (path.map f) (loops.map f) (pin.rename f) (scope.rename f) counts) := by
  -- whoever enters a node has something left, so neither budget is the one that ends the path
  induction budget generalizing path budget' loops pin scope counts with
  | zero =>
    cases budget' <;> refine h.follows_onward hpin fun n n' hn hp => ?_
    all_goals
      obtain ⟨_, _, hzero, _⟩ := hroom.push h hn hp
      cases hzero
  | succ budget ih =>
    cases budget' <;> refine h.follows_onward hpin fun n n' hn hp => ?_
    · obtain ⟨_, _, _, hzero, _⟩ := hroom.push h hn hp
      cases hzero
    · obtain ⟨b, b', hb, hb', hroom'⟩ := hroom.push h hn hp
      cases hb
      cases hb'
      have hid : n'.id = f n.id := hn.matching.id
      refine h.follows_enter hn (fun loops slot scope counts hscope => ?_) loops hscope counts
      have hlive : live (PinRef.execOut n.id slot).node := hn.live
      have hnext := ih hroom' loops hlive hscope counts
      rwa [List.map_cons, ← hid, hn.matching.rename_execOut] at hnext

/-! ### Methods -/

theorem within_entryScope (hn : job.Paired f live n n') : (Job.entryScope n).Within live := by
  intro v hv
  obtain ⟨i, hi, rfl⟩ := List.mem_mapIdx.1 hv
  exact hn.live

theorem entryScope_rename (hn : n.Matches f n') : Job.entryScope n' = (Job.entryScope n).rename f := by
  have hvalues : (Job.entryScope n').values = ((Job.entryScope n).rename f).values := by
    refine List.ext_getElem? fun i => ?_
    unfold Job.entryScope Scope.rename
    rw [List.getElem?_mapIdx, List.getElem?_map, List.getElem?_mapIdx, hn.id]
    rcases getElem?_cases_of_map_eq hn.outputs i with ⟨hout, hout'⟩ | ⟨out, out', hout, hout', -⟩
    · rw [hout, hout']
      rfl
    · rw [hout, hout']
      rfl
  exact congrArg (Scope.mk · []) hvalues

theorem follows_body (h : Lockstep f firm live job job') (hn : job.Paired f live n n') :
    Follows f firm (fun code code' => code' = code.rename f) (job.body n) (job'.body n') := by
  have hid : n'.id = f n.id := hn.matching.id
  unfold Job.body
  rw [hn.matching.isEmpty_execOuts]
  by_cases he : n.execOuts.isEmpty
  · simp only [he, if_true]
    exact .ok rfl
  · simp only [he]
    obtain ⟨_, _, -, -, hentered⟩ := room_nil.push h hn List.not_mem_nil
    have hroom : Room live job job' [n.id] job.budget job'.budget :=
      ⟨hentered.nodup, hentered.there, Nat.le_add_left _ _, Nat.le_add_left _ _⟩
    have hlive : live (PinRef.execOut n.id 0).node := hn.live
    have hwalk := h.follows_walk hroom [] hlive (within_entryScope hn) {}
    rw [hn.matching.rename_execOut, ← entryScope_rename hn.matching, List.map_singleton, ← hid] at hwalk
    refine hwalk.bind ?_
    rintro ⟨code, counts⟩ _ rfl
    exact .ok rfl

theorem follows_source (h : Lockstep f firm live job job') :
    Follows f firm (fun s s' => s' = { s with body := s.body.map (Code.rename f) }) job.source job'.source := by
  unfold Job.source Method.entryNode?
  rw [h.entry, h.isAbstract, h.signature]
  rcases h.node?_cases h.live_entry with ⟨hn, hn'⟩ | ⟨n, n', hn, hn', hpaired⟩
  · rw [hn, hn']
    exact .error fun _ => rfl
  · simp only [hn, hn']
    by_cases ha : job.method.isAbstract
    · rw [if_pos ha, if_pos ha]
      exact .ok rfl
    · rw [if_neg ha, if_neg ha]
      refine (h.follows_body hpaired).map fun code code' hcode => ?_
      rw [hcode]
      rfl

/-- The two methods have the same `sourceText`, or the second follows the first in its error. -/
theorem follows_sourceText (h : Lockstep f firm live job job') :
    Follows f firm Eq (job.method.sourceText job.catalog job.config)
      (job'.method.sourceText job'.catalog job'.config) := by
  unfold Method.sourceText
  refine h.follows_source.map fun s s' hs => ?_
  rw [hs, h.config]
  unfold MethodSource.text MethodSource.lines
  cases s.body with
  | none => rfl
  | some code => simp only [Option.map_some, Code.lines_rename]

end Lockstep

end VisualScript
