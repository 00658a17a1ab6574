import VisualScript.Proofs.Graph.Pins
import VisualScript.Proofs.Source.Rows

/-!
# The order of statements

Along any way through the nested blocks of a body, the calls and assignments stand in the order in which a
naive traversal of the graph first meets them: node by node as control enters them, and for each node its
inputs first. Nothing is written twice, however often its value is used.

* `Post` lists what a node needs, with repetitions; `Enters` is the way that control takes.
* `Settled`: what has been written so far, each statement after those it takes values from.
* `Makes.gathers`: making a statement adds exactly what its `Post` has and is not there yet.
* `Walks.along`: so does a whole way through the code.
-/

namespace VisualScript

/-! ### First occurrences -/

/-- Adds to `seen` what it does not have yet of `ids`, in order. -/
def gather (seen ids : List NodeId) : List NodeId :=
  ids.foldl (fun seen x => if x ∈ seen then seen else seen ++ [x]) seen

section Gather

variable {seen ids : List NodeId} {x : NodeId}

theorem gather_append (seen xs ys : List NodeId) : gather seen (xs ++ ys) = gather (gather seen xs) ys :=
  List.foldl_append

theorem gather_cons (seen : List NodeId) (x : NodeId) (ids : List NodeId) :
    gather seen (x :: ids) = gather (if x ∈ seen then seen else seen ++ [x]) ids := rfl

theorem gather_eq_self (h : ∀ x ∈ ids, x ∈ seen) : gather seen ids = seen := by
  induction ids with
  | nil => rfl
  | cons x ids ih =>
    rw [gather_cons, if_pos (h x (by simp))]
    exact ih fun y hy => h y (by simp [hy])

theorem gather_singleton (h : x ∉ seen) : gather seen [x] = seen ++ [x] := by
  rw [gather_cons, if_neg h]
  rfl

theorem mem_gather : x ∈ gather seen ids ↔ x ∈ seen ∨ x ∈ ids := by
  induction ids generalizing seen with
  | nil => simp [gather]
  | cons y ids ih =>
    rw [gather_cons, ih]
    by_cases hy : y ∈ seen
    · rw [if_pos hy, List.mem_cons]
      constructor
      · tauto
      · rintro (h | rfl | h)
        · exact Or.inl h
        · exact Or.inl hy
        · exact Or.inr h
    · rw [if_neg hy, List.mem_append, List.mem_singleton, List.mem_cons]
      tauto

theorem gather_eq_append (seen ids : List NodeId) :
    gather seen ids = seen ++ (ids.filter (· ∉ seen)).eraseDups := by
  induction ids generalizing seen with
  | nil => simp [gather]
  | cons x ids ih =>
    rw [gather_cons, ih]
    by_cases hx : x ∈ seen
    · simp [hx]
    · have hp : (fun y => decide (y ∉ seen ++ [x])) = fun y => (!y == x) && decide (y ∉ seen) := by
        funext y
        by_cases hy : y = x
        · simp [hy]
        · simp [hy, beq_eq_false_iff_ne.2 hy]
      rw [if_neg hx, List.filter_cons_of_pos (by simpa using hx), List.eraseDups_cons, List.filter_filter,
        List.append_assoc, hp]
      rfl

theorem gather_nil (ids : List NodeId) : gather [] ids = ids.eraseDups := by
  simp [gather_eq_append]

end Gather

/-! ### The graph as a reader sees it -/

namespace Method

/-- The call or assignment whose value the input `pin` takes, if it takes one. -/
def feeder? (m : Method) (pin : DataIn) : Option Node :=
  match pin.incoming.bind fun source => m.node? source.node with
  | some n => if n.kind.isStatement then some n else none
  | none => none

/-- The node that control goes to from the exec output `pin`. -/
def next? (m : Method) (pin : PinRef) : Option Node := do
  let source ← m.node? pin.node
  let out ← source.execOuts[pin.slot]?
  let target ← out.outgoing
  m.node? target.node

end Method

mutual

/-- What the source of a node needs, input by input (`PostInputs`), and at last the node if it is a statement
itself. -/
inductive Post (m : Method) : Node → List NodeId → Prop
  | statement {n : Node} {ids : List NodeId} (hk : n.kind.isStatement = true)
      (h : PostInputs m n.dataIns ids) : Post m n (ids ++ [n.id])
  | other {n : Node} {ids : List NodeId} (hk : n.kind.isStatement = false)
      (h : PostInputs m n.dataIns ids) : Post m n ids

inductive PostInputs (m : Method) : List DataIn → List NodeId → Prop
  | nil : PostInputs m [] []
  | fed {pin : DataIn} {pins : List DataIn} {p : Node} {ids ids' : List NodeId}
      (hp : m.feeder? pin = some p) (h : Post m p ids) (hs : PostInputs m pins ids') :
      PostInputs m (pin :: pins) (ids ++ ids')
  | unfed {pin : DataIn} {pins : List DataIn} {ids : List NodeId} (hp : m.feeder? pin = none)
      (hs : PostInputs m pins ids) : PostInputs m (pin :: pins) ids

end

/-- Control forks at `ifElse` into two blocks, and at `forLoop` into a block and what follows it. -/
def NodeKind.forks : NodeKind → Bool
  | .ifElse | .forLoop => true
  | _ => false

/-- The nodes that control enters from an exec output on, none of them on `path`. At each fork, `turns` says
whether to take the first way; without a turn left, the way ends at the fork. -/
inductive Enters (m : Method) : List NodeId → PinRef → List Bool → List Node → Prop
  | stop {path : List NodeId} {pin : PinRef} {turns : List Bool} (hf : m.next? pin = none) :
      Enters m path pin turns []
  | back {path : List NodeId} {pin : PinRef} {turns : List Bool} {node : Node}
      (hf : m.next? pin = some node) (hp : node.id ∈ path) : Enters m path pin turns []
  | straight {path : List NodeId} {pin : PinRef} {turns : List Bool} {node : Node} {nodes : List Node}
      (hf : m.next? pin = some node) (hp : node.id ∉ path) (hk : node.kind.isStatement = true)
      (h : Enters m (node.id :: path) (.execOut node.id 0) turns nodes) :
      Enters m path pin turns (node :: nodes)
  | fork {path : List NodeId} {pin : PinRef} {first : Bool} {turns : List Bool} {node : Node}
      {nodes : List Node} (hf : m.next? pin = some node) (hp : node.id ∉ path)
      (hk : node.kind.forks = true)
      (h : Enters m (node.id :: path) (.execOut node.id (if first then 0 else 1)) turns nodes) :
      Enters m path pin (first :: turns) (node :: nodes)
  | halt {path : List NodeId} {pin : PinRef} {node : Node} (hf : m.next? pin = some node)
      (hp : node.id ∉ path) (hk : node.kind.forks = true) : Enters m path pin [] [node]
  | last {path : List NodeId} {pin : PinRef} {turns : List Bool} {node : Node}
      (hf : m.next? pin = some node) (hp : node.id ∉ path) (hk : node.kind.isStatement = false)
      (hk' : node.kind.forks = false) : Enters m path pin turns [node]

section Graph

variable {m : Method}

mutual

theorem Post.unique : ∀ {n : Node} {ids ids' : List NodeId}, Post m n ids → Post m n ids' → ids = ids'
  | _, _, _, .statement _ h, .statement _ h' => by rw [h.unique h']
  | _, _, _, .other _ h, .other _ h' => h.unique h'
  | _, _, _, .statement hk _, .other hk' _ => by simp [hk] at hk'
  | _, _, _, .other hk _, .statement hk' _ => by simp [hk] at hk'

theorem PostInputs.unique : ∀ {pins : List DataIn} {ids ids' : List NodeId},
    PostInputs m pins ids → PostInputs m pins ids' → ids = ids'
  | _, _, _, .nil, .nil => rfl
  | _, _, _, .fed hp h hs, .fed hp' h' hs' => by
    rw [hp] at hp'
    cases hp'
    rw [h.unique h', hs.unique hs']
  | _, _, _, .unfed _ hs, .unfed _ hs' => hs.unique hs'
  | _, _, _, .fed hp _ _, .unfed hp' _ => by simp [hp] at hp'
  | _, _, _, .unfed hp _, .fed hp' _ _ => by simp [hp] at hp'

end

theorem forall₂_post_unique {nodes : List Node} {posts posts' : List (List NodeId)}
    (h : List.Forall₂ (Post m) nodes posts) (h' : List.Forall₂ (Post m) nodes posts') : posts = posts' := by
  induction h generalizing posts' with
  | nil =>
    cases h'
    rfl
  | cons hp _ ih =>
    cases h' with
    | cons hp' hs' => rw [hp.unique hp', ih hs']

theorem NodeKind.isStatement_of_forks {k : NodeKind} (h : k.forks = true) : k.isStatement = false := by
  cases k <;> simp_all [forks, isStatement]

theorem Enters.unique {path : List NodeId} {pin : PinRef} {turns : List Bool} {nodes nodes' : List Node}
    (h : Enters m path pin turns nodes) (h' : Enters m path pin turns nodes') : nodes = nodes' := by
  induction h generalizing nodes' with
  | straight hf hp hk h ih =>
    cases h' with
    | straight hf' _ _ h' =>
      rw [hf] at hf'
      cases hf'
      rw [ih h']
    | _ => simp_all [NodeKind.isStatement_of_forks]
  | fork hf hp hk h ih =>
    cases h' with
    | fork hf' _ _ h' =>
      rw [hf] at hf'
      cases hf'
      rw [ih h']
    | _ => simp_all [NodeKind.isStatement_of_forks]
  | _ => cases h' <;> simp_all [NodeKind.isStatement_of_forks]

end Graph

/-! ### What has been written -/

/-- The ids of statements, newest first, each later than those whose values it takes (`Method.feeder?`). -/
inductive Settled (m : Method) : List NodeId → Prop
  | nil : Settled m []
  | cons {n : Node} {ids : List NodeId} (hn : m.node? n.id = some n) (hk : n.kind.isStatement = true)
      (hnew : n.id ∉ ids) (hf : ∀ pin ∈ n.dataIns, ∀ p, m.feeder? pin = some p → p.id ∈ ids)
      (h : Settled m ids) : Settled m (n.id :: ids)

section Settled

variable {m : Method} {ids : List NodeId} {pins : List DataIn} {n : Node}

theorem Method.feeder?_eq_some {pin : DataIn} {p : Node} (h : m.feeder? pin = some p) :
    p.kind.isStatement = true ∧ m.node? p.id = some p := by
  unfold feeder? at h
  cases hb : pin.incoming.bind fun source => m.node? source.node with
  | none =>
    rw [hb] at h
    cases h
  | some n =>
    simp only [hb] at h
    split_ifs at h with hk
    cases h
    obtain ⟨source, -, hn⟩ := Option.bind_eq_some_iff.1 hb
    exact ⟨hk, node?_id hn⟩

theorem Method.feeder?_of_node? {pin : DataIn} {source : PinRef} (hs : pin.incoming = some source)
    (hn : m.node? source.node = some n) :
    m.feeder? pin = if n.kind.isStatement then some n else none := by
  unfold feeder?
  rw [hs, Option.bind_some, hn]

theorem Post.mem_self (h : Post m n ids) (hk : n.kind.isStatement = true) : n.id ∈ ids := by
  cases h with
  | statement _ _ => simp
  | other hk' _ => simp [hk] at hk'

theorem PostInputs.mem_feeder (h : PostInputs m pins ids) {pin : DataIn} (hpin : pin ∈ pins) {p : Node}
    (hp : m.feeder? pin = some p) : p.id ∈ ids := by
  induction pins generalizing ids with
  | nil => cases hpin
  | cons q pins ih =>
    cases h with
    | fed hp' h hs =>
      rw [List.mem_append]
      rcases List.mem_cons.1 hpin with rfl | hpin
      · rw [hp] at hp'
        cases hp'
        exact Or.inl (h.mem_self (Method.feeder?_eq_some hp).1)
      · exact Or.inr (ih hs hpin)
    | unfed hp' hs =>
      rcases List.mem_cons.1 hpin with rfl | hpin
      · simp [hp] at hp'
      · exact ih hs hpin

/-- If the feeders of all `pins` have a list, the pins have one. -/
theorem exists_postInputs
    (h : ∀ pin ∈ pins, ∀ p, m.feeder? pin = some p → ∃ l, Post m p l ∧ ∀ x ∈ l, x ∈ ids) :
    ∃ l, PostInputs m pins l ∧ ∀ x ∈ l, x ∈ ids := by
  induction pins with
  | nil => exact ⟨[], .nil, by simp⟩
  | cons pin pins ih =>
    obtain ⟨l', hs, hl'⟩ := ih fun q hq => h q (by simp [hq])
    cases hp : m.feeder? pin with
    | none => exact ⟨l', .unfed hp hs, hl'⟩
    | some p =>
      obtain ⟨l, hl, hsub⟩ := h pin (by simp) p hp
      refine ⟨l ++ l', .fed hp hl hs, fun x hx => ?_⟩
      rcases List.mem_append.1 hx with hx | hx
      · exact hsub x hx
      · exact hl' x hx

/-- In `Settled` ids, all that a written statement needs is written. -/
theorem Settled.exists_post (h : Settled m ids) (hn : m.node? n.id = some n) (hmem : n.id ∈ ids) :
    ∃ l, Post m n l ∧ ∀ x ∈ l, x ∈ ids := by
  induction h generalizing n with
  | nil => cases hmem
  | @cons k ids hn' hk hnew hf h ih =>
    rcases List.mem_cons.1 hmem with heq | hmem
    · -- the newest one: its feeders are older, and each has its list
      rw [heq, hn'] at hn
      cases hn
      have hex := exists_postInputs fun pin hpin p hp =>
        ih (Method.feeder?_eq_some hp).2 (hf pin hpin p hp)
      obtain ⟨l, hl, hsub⟩ := hex
      refine ⟨l ++ [k.id], .statement hk hl, fun x hx => ?_⟩
      rcases List.mem_append.1 hx with hx | hx
      · exact List.mem_cons_of_mem _ (hsub x hx)
      · exact List.mem_cons.2 (Or.inl (List.mem_singleton.1 hx))
    · obtain ⟨l, hl, hsub⟩ := ih hn hmem
      exact ⟨l, hl, fun x hx => List.mem_cons_of_mem _ (hsub x hx)⟩

theorem Settled.feeder_mem {xs ys : List NodeId} {id : NodeId} (h : Settled m (xs ++ id :: ys))
    (hn : m.node? id = some n) {pin : DataIn} (hpin : pin ∈ n.dataIns) {p : Node}
    (hp : m.feeder? pin = some p) : p.id ∈ ys := by
  induction xs with
  | nil =>
    cases h with
    | cons hn' _ _ hf _ =>
      rw [hn'] at hn
      cases hn
      exact hf pin hpin p hp
  | cons x xs ih =>
    cases h with
    | cons _ _ _ _ h => exact ih h

theorem Settled.nodup (h : Settled m ids) : ids.Nodup := by
  induction h with
  | nil => exact List.nodup_nil
  | cons _ _ hnew _ _ ih => exact List.nodup_cons.2 ⟨hnew, ih⟩

end Settled

/-! ### Finding operands -/

theorem Method.HasPins.inputCount {m : Method} (h : m.HasPins) {n : Node} {id : NodeId}
    (hn : m.node? id = some n) : n.inputCount = n.dataIns.length := by
  have hu := h n (Method.mem_of_node? hn)
  have hlen : n.dataIns.length = n.kind.dataIns.length := by
    have hins := congrArg (fun k => k.dataIns.length) hu
    simpa [Node.unlinked, Node.make] using hins
  unfold Node.inputCount
  rw [hlen]
  cases n.kind <;> simp [NodeKind.dataIns, NodeKind.inputsFor]

/-- Calls and assignments, as opposed to reads of variables. -/
def Step.isStatement : Step → Bool
  | .read .. => false
  | _ => true

/-- The nodes whose statements are among the steps `ss`. -/
def made (ss : List Step) : List NodeId := (ss.filter Step.isStatement).map Step.node

theorem made_append (xs ys : List Step) : made (xs ++ ys) = made xs ++ made ys := by
  simp [made]

/-- What is written is `Settled`, and only what is written has a value. -/
structure Scope.Tracks (m : Method) (s : Scope) : Prop where
  settled : Settled m s.emitted
  valued : ∀ v ∈ s.values, ∀ n, m.node? v.1.node = some n → n.kind.isStatement = true → n.id ∈ s.emitted

/-- From `d` to `d'`, exactly what `ids` has and was not written yet is written, in that order. -/
structure Gathers (m : Method) (pending : List NodeId) (d : Draft) (ids : List NodeId) (d' : Draft) :
    Prop where
  tracks : d'.scope.Tracks m
  order : d'.scope.emitted.reverse = gather d.scope.emitted.reverse ids
  steps : ∃ new, d'.steps = d.steps ++ new ∧
    d'.scope.emitted.reverse = d.scope.emitted.reverse ++ made new
  fresh : ∀ x ∈ d'.scope.emitted, x ∈ d.scope.emitted ∨ x ∉ pending

section Gathers

variable {m : Method} {pending ids ids' : List NodeId} {d d₁ d' : Draft}

theorem Gathers.refl (h : d.scope.Tracks m) (hids : ∀ x ∈ ids, x ∈ d.scope.emitted) :
    Gathers m pending d ids d where
  tracks := h
  order := (gather_eq_self fun x hx => List.mem_reverse.2 (hids x hx)).symm
  steps := ⟨[], by simp, by simp [made]⟩
  fresh _ hx := Or.inl hx

theorem Gathers.trans (h : Gathers m pending d ids d₁) (h' : Gathers m pending d₁ ids' d') :
    Gathers m pending d (ids ++ ids') d' where
  tracks := h'.tracks
  order := by rw [gather_append, ← h.order, h'.order]
  steps := by
    obtain ⟨xs, hxs, hex⟩ := h.steps
    obtain ⟨ys, hys, hey⟩ := h'.steps
    refine ⟨xs ++ ys, by rw [hys, hxs, List.append_assoc], ?_⟩
    rw [hey, hex, made_append, List.append_assoc]
  fresh x hx := by
    rcases h'.fresh x hx with hx | hx
    · exact h.fresh x hx
    · exact Or.inr hx

theorem Gathers.mem (h : Gathers m pending d ids d') {x : NodeId} (hx : x ∈ ids) :
    x ∈ d'.scope.emitted := by
  rw [← List.mem_reverse, h.order, mem_gather]
  exact Or.inr hx

theorem PostInputs.append {xs ys : List DataIn} (h : PostInputs m xs ids) (h' : PostInputs m ys ids') :
    PostInputs m (xs ++ ys) (ids ++ ids') := by
  induction xs generalizing ids with
  | nil =>
    cases h
    exact h'
  | cons x xs ih =>
    cases h with
    | fed hp h hs =>
      rw [List.append_assoc]
      exact .fed hp h (ih hs)
    | unfed hp hs => exact .unfed hp (ih hs)

theorem PostInputs.single {pin : DataIn} {p : Node} (hp : m.feeder? pin = some p) (h : Post m p ids) :
    PostInputs m [pin] ids := by
  have hs := PostInputs.fed hp h .nil
  rwa [List.append_nil] at hs

/-- The statement of `node` is written and marked, once its inputs are found. -/
theorem Gathers.mark {node : Node} {s : Step} (hn : m.node? node.id = some node)
    (hk : node.kind.isStatement = true) (hp : node.id ∉ pending) (he : node.id ∉ d.scope.emitted)
    (hpost : PostInputs m node.dataIns ids) (h : Gathers m (node.id :: pending) d ids d₁)
    (hs : s.node = node.id) (hs' : s.isStatement = true) (hsteps : d'.steps = d₁.steps ++ [s])
    (hemitted : d'.scope.emitted = node.id :: d₁.scope.emitted)
    (hvalues : ∀ v ∈ d'.scope.values, v ∈ d₁.scope.values ∨ v.1.node = node.id) :
    Gathers m pending d (ids ++ [node.id]) d' := by
  -- the node was waiting while its inputs were found, so none of them can have made it
  have hnew : node.id ∉ d₁.scope.emitted := by
    intro hmem
    rcases h.fresh _ hmem with hmem | hmem
    · exact he hmem
    · simp at hmem
  refine ⟨⟨?_, fun v hv n hvn hkn => ?_⟩, ?_, ?_, fun x hx => ?_⟩
  · rw [hemitted]
    exact .cons hn hk hnew (fun pin hpin p hp => h.mem (hpost.mem_feeder hpin hp)) h.tracks.settled
  · rw [hemitted]
    rcases hvalues v hv with hv | hv
    · exact List.mem_cons_of_mem _ (h.tracks.valued v hv n hvn hkn)
    · rw [hv, hn] at hvn
      cases hvn
      exact List.mem_cons_self
  · rw [hemitted, List.reverse_cons, gather_append, ← h.order, gather_singleton]
    simpa using hnew
  · obtain ⟨new, hd₁, he₁⟩ := h.steps
    refine ⟨new ++ [s], by rw [hsteps, hd₁, List.append_assoc], ?_⟩
    rw [hemitted, List.reverse_cons, he₁, made_append, List.append_assoc]
    simp [made, hs, hs']
  · rw [hemitted] at hx
    rcases List.mem_cons.1 hx with rfl | hx
    · exact Or.inr hp
    · rcases h.fresh x hx with hx | hx
      · exact Or.inl hx
      · exact Or.inr fun hmem => hx (List.mem_cons_of_mem _ hmem)

end Gathers

section Drafts

variable {job : Job}

/-- An input that takes no value of a statement adds none. -/
theorem postInputs_of_not_isStatement {m : Method} {pin : DataIn} {source : PinRef} {n : Node}
    (hs : pin.incoming = some source) (hn : m.node? source.node = some n)
    (hk : n.kind.isStatement = false) : PostInputs m [pin] [] := by
  refine .unfed ?_ .nil
  rw [Method.feeder?_of_node? hs hn, hk]
  rfl

theorem Scope.Tracks.bind {m : Method} {scope : Scope} {p : PinRef} {n : Node} {text : String}
    (h : scope.Tracks m) (hn : m.node? p.node = some n) (hk : n.kind.isStatement = false) :
    (scope.bind p text).Tracks m where
  settled := h.settled
  valued v hv k hvk hkk := by
    rcases List.mem_cons.1 hv with rfl | hv
    · rw [hn] at hvk
      cases hvk
      simp [hk] at hkk
    · exact h.valued v hv k hvk hkk

theorem Gathers.read {m : Method} {pending : List NodeId} {d : Draft} {p : PinRef} {n : Node} {s : Step}
    {name : String} (h : d.scope.Tracks m) (hn : m.node? p.node = some n)
    (hk : n.kind.isStatement = false) (hs : s.isStatement = false) :
    Gathers m pending d [] (d.read p s name) where
  tracks := h.bind hn hk
  order := rfl
  steps := ⟨[s], rfl, by simp [made, hs, Draft.read, Scope.bind]⟩
  fresh _ hx := Or.inl hx

theorem Node.isStatement_callStep? {n : Node} {results : List (TypeSpec × String)} {texts : List String}
    {s : Step} (h : n.callStep? results texts = some s) : s.isStatement = true := by
  unfold callStep? at h
  split at h <;> cases h <;> rfl

theorem NodeKind.isStatement_of_isCall {k : NodeKind} (h : k.isCall = true) : k.isStatement = true := by
  cases k <;> simp_all [isCall, isStatement]

mutual

/-- To find an operand is to gather what its `Post` has, which is nothing new if it is known. -/
theorem Resolves.gathers (hpins : job.method.HasPins) :
    ∀ {pending : List NodeId} {node : Node} {slot : Nat} {d : Draft} {text : String} {d' : Draft},
      Resolves job pending node slot d text d' → d.scope.Tracks job.method →
        ∃ pin ids, node.dataIns[slot]? = some pin ∧ PostInputs job.method [pin] ids ∧
          Gathers job.method pending d ids d'
  | _, node, slot, d, text, _, @Resolves.known _ _ _ _ _ s _ hs hv, hd => by
    obtain ⟨hproducer, -, pin, hpin, hsource⟩ := Job.supply_eq_ok hs
    cases hk : s.producer.kind.isStatement with
    | false =>
      exact ⟨pin, [], hpin, postInputs_of_not_isStatement hsource hproducer hk, .refl hd (by simp)⟩
    | true =>
      -- the value is known, so the statement and all that it needs are written
      obtain ⟨v, hfind, -⟩ := Option.map_eq_some_iff.1 hv
      have hp : v.1 = s.source := by simpa using List.find?_some hfind
      have hmem := hd.valued v (List.mem_of_find?_eq_some hfind) s.producer (hp ▸ hproducer) hk
      obtain ⟨ids, hpost, hsub⟩ := hd.settled.exists_post (Method.node?_id hproducer) hmem
      have hfeed : job.method.feeder? pin = some s.producer := by
        rw [Method.feeder?_of_node? hsource hproducer, hk]
        rfl
      exact ⟨pin, ids, hpin, .single hfeed hpost, .refl hd hsub⟩
  | _, node, slot, d, _, _, @Resolves.literal _ _ _ _ _ s _ _ hs hv hk, hd => by
    obtain ⟨hproducer, -, pin, hpin, hsource⟩ := Job.supply_eq_ok hs
    have hk' : s.producer.kind.isStatement = false := by rw [hk]; rfl
    exact ⟨pin, [], hpin, postInputs_of_not_isStatement hsource hproducer hk', .refl hd (by simp)⟩
  | _, node, slot, d, _, _, @Resolves.read _ _ _ _ _ s _ _ hs hv hk _, hd => by
    obtain ⟨hproducer, -, pin, hpin, hsource⟩ := Job.supply_eq_ok hs
    have hk' : s.producer.kind.isStatement = false := by rw [hk]; rfl
    exact ⟨pin, [], hpin, postInputs_of_not_isStatement hsource hproducer hk', .read hd hproducer hk' rfl⟩
  | _, node, slot, d, _, _, @Resolves.pulled _ _ _ _ _ _ s _ hs hv hk hp he hm hv', hd => by
    obtain ⟨hproducer, -, pin, hpin, hsource⟩ := Job.supply_eq_ok hs
    obtain ⟨ids, hpost, hg⟩ := hm.gathers hpins (Method.node?_id hproducer) hp he hd
    have hfeed : job.method.feeder? pin = some s.producer := by
      rw [Method.feeder?_of_node? hsource hproducer, hk]
      rfl
    exact ⟨pin, ids, hpin, .single hfeed hpost, hg⟩

theorem ResolvesFrom.gathers (hpins : job.method.HasPins) :
    ∀ {pending : List NodeId} {node : Node} {slot : Nat} {d : Draft} {texts : List String} {d' : Draft},
      ResolvesFrom job pending node slot d texts d' → d.scope.Tracks job.method →
        ∃ ids, PostInputs job.method ((node.dataIns.drop slot).take texts.length) ids ∧
          Gathers job.method pending d ids d'
  | _, node, slot, d, _, _, .nil, hd => ⟨[], by simpa using PostInputs.nil, .refl hd (by simp)⟩
  | _, node, slot, d, _, _, @ResolvesFrom.cons _ _ _ _ _ _ _ text texts h hs, hd => by
    obtain ⟨pin, ids, hpin, hpost, hg⟩ := h.gathers hpins hd
    obtain ⟨ids', hpost', hg'⟩ := hs.gathers hpins hg.tracks
    refine ⟨ids ++ ids', ?_, hg.trans hg'⟩
    have hdrop : node.dataIns.drop slot = pin :: node.dataIns.drop (slot + 1) := by
      obtain ⟨hlt, hget⟩ := List.getElem?_eq_some_iff.1 hpin
      rw [List.drop_eq_getElem_cons hlt, hget]
    rw [hdrop, List.length_cons, List.take_succ_cons]
    exact hpost.append hpost'

theorem Makes.gathers (hpins : job.method.HasPins) :
    ∀ {pending : List NodeId} {node : Node} {d d' : Draft}, Makes job pending node d d' →
      job.method.node? node.id = some node → node.id ∉ pending → node.id ∉ d.scope.emitted →
        d.scope.Tracks job.method →
          ∃ ids, Post job.method node ids ∧ Gathers job.method pending d ids d'
  | pending, node, d, _, @Makes.call _ _ _ _ d₁ texts s hk hl hr hs, hn, hp, he, hd => by
    obtain ⟨ids, hpost, hg⟩ := hr.gathers hpins hd
    rw [hl, hpins.inputCount hn, List.drop_zero, List.take_length] at hpost
    have hk' := NodeKind.isStatement_of_isCall hk
    obtain ⟨hnode, -, -⟩ := Node.callStep?_eq_some hs
    have hstatement := Node.isStatement_callStep? hs
    exact ⟨ids ++ [node.id], .statement hk' hpost,
      hg.mark hn hk' hp he hpost hnode hstatement rfl rfl fun _ => Scope.mem_named⟩
  | pending, node, d, _, @Makes.assign _ _ _ _ d₁ v value hk hr, hn, hp, he, hd => by
    obtain ⟨ids, hpost, hg⟩ := hr.gathers hpins hd
    have hcount := hpins.inputCount hn
    have hone : node.inputCount = 1 := by unfold Node.inputCount; rw [hk]
    have hk' : node.kind.isStatement = true := by rw [hk]; rfl
    rw [List.drop_zero, List.length_singleton, ← hone, hcount, List.take_length] at hpost
    exact ⟨ids ++ [node.id], .statement hk' hpost,
      hg.mark hn hk' hp he hpost rfl rfl rfl rfl fun _ => Draft.mem_assign⟩

end

end Drafts

/-! ### Ways through the code -/

/-- The steps on the way through the code that takes the given turns, `true` for the first block. -/
def Code.along : Code → List Bool → List Step
  | .done, _ | .ret _ _, _ | .again _, _ => []
  | .step s next, turns => s :: next.along turns
  | .branch .., [] | .branchElse .., [] | .loop .., [] => []
  | .branch _ _ t, first :: turns => if first then t.along turns else []
  | .branchElse _ _ t e, first :: turns => if first then t.along turns else e.along turns
  | .loop _ _ _ _ body next, first :: turns => if first then body.along turns else next.along turns

theorem Code.along_steps (ss : List Step) (next : Code) (turns : List Bool) :
    (steps ss next).along turns = ss ++ next.along turns := by
  induction ss with
  | nil => rfl
  | cons s ss ih => exact congrArg (s :: ·) ih

/-- From `scope` on, the steps `ss` write what the lists in `posts` have and was not written yet, in that order. -/
def Traces (m : Method) (scope : Scope) (ss : List Step) (posts : List (List NodeId)) : Prop :=
  ∃ ids, Settled m ids ∧ ids.reverse = scope.emitted.reverse ++ made ss ∧
    ids.reverse = gather scope.emitted.reverse posts.flatten

section Walks

variable {job : Job} {scope : Scope} {ss : List Step} {posts : List (List NodeId)}

theorem Traces.nil {m : Method} (h : scope.Tracks m) : Traces m scope [] [] :=
  ⟨scope.emitted, h.settled, by simp [made], rfl⟩

theorem Traces.cons {m : Method} {counts : Counts} {d : Draft} {scope' : Scope} {ids : List NodeId}
    (hg : Gathers m [] (scope.draft counts) ids d) (he : scope'.emitted = d.scope.emitted)
    (h : Traces m scope' ss posts) : Traces m scope (d.steps ++ ss) (ids :: posts) := by
  obtain ⟨all, hs, hmade, hgather⟩ := h
  obtain ⟨new, hnew, hemitted⟩ := hg.steps
  have hsteps : d.steps = new := by simpa [Scope.draft] using hnew
  have horder : d.scope.emitted.reverse = gather scope.emitted.reverse ids := hg.order
  have hwritten : d.scope.emitted.reverse = scope.emitted.reverse ++ made new := hemitted
  refine ⟨all, hs, ?_, ?_⟩
  · rw [hmade, he, hwritten, hsteps, made_append, List.append_assoc]
  · rw [hgather, he, horder, List.flatten_cons, gather_append]

/-- A node whose `ids` are all written adds nothing. -/
theorem Traces.skip {m : Method} {ids : List NodeId} (hids : ∀ x ∈ ids, x ∈ scope.emitted)
    (h : Traces m scope ss posts) : Traces m scope ss (ids :: posts) := by
  obtain ⟨all, hs, hmade, hgather⟩ := h
  refine ⟨all, hs, hmade, ?_⟩
  rw [List.flatten_cons, gather_append, gather_eq_self fun x hx => List.mem_reverse.2 (hids x hx), hgather]

theorem Scope.Tracks.forgetAll {m : Method} (h : scope.Tracks m) : (scope.forgetAll m).Tracks m :=
  ⟨h.settled, fun v hv => h.valued v (List.mem_of_mem_filter hv)⟩

theorem Job.next?_of_follow {pin : PinRef} {found : Option Node} (h : job.follow pin = .ok found) :
    job.method.next? pin = found := by
  obtain ⟨source, out, hsource, hout, hfound⟩ := follow_eq_ok h
  simp [Method.next?, hsource, hout, hfound]

/-- If the output `slot` has no successor, `next?` leads nowhere. -/
theorem next?_of_not_hasSuccessor {m : Method} {node : Node} {slot : Nat} (hn : m.node? node.id = some node)
    (h : Job.hasSuccessor node slot = false) : m.next? (.execOut node.id slot) = none := by
  unfold Job.hasSuccessor at h
  cases hout : node.execOuts[slot]? with
  | none => simp [Method.next?, PinRef.execOut, hn, hout]
  | some out =>
    have hnone : out.outgoing = none := by simpa [hout] using h
    simp [Method.next?, PinRef.execOut, hn, hout, hnone]

/-- To find the inputs of a node that is no statement is to gather its `Post`. -/
theorem ResolvesFrom.post {node : Node} {counts : Counts} {texts : List String} {d : Draft}
    (hpins : job.method.HasPins) (h : ResolvesFrom job [] node 0 (scope.draft counts) texts d)
    (hd : scope.Tracks job.method) (hn : job.method.node? node.id = some node)
    (hk : node.kind.isStatement = false) (hl : texts.length = node.inputCount) :
    ∃ ids, Post job.method node ids ∧ Gathers job.method [] (scope.draft counts) ids d := by
  obtain ⟨ids, hpost, hg⟩ := h.gathers hpins hd
  rw [hl, hpins.inputCount hn, List.drop_zero, List.take_length] at hpost
  exact ⟨ids, .other hk hpost, hg⟩

/-- Where control forks, a way ends or goes on in one of two directions. -/
theorem Traces.fork {m : Method} {path : List NodeId} {pin : PinRef} {node : Node} {counts : Counts} {d : Draft}
    {ids : List NodeId} {code : Code} (hnext : m.next? pin = some node) (hp : node.id ∉ path)
    (hk : node.kind.forks = true) (hpost : Post m node ids) (hg : Gathers m [] (scope.draft counts) ids d)
    (hend : code.along [] = [])
    (hgo : ∀ first turns, ∃ scope' nodes posts, scope'.emitted = d.scope.emitted ∧
      Enters m (node.id :: path) (.execOut node.id (if first then 0 else 1)) turns nodes ∧
      List.Forall₂ (Post m) nodes posts ∧ Traces m scope' (code.along (first :: turns)) posts)
    (turns : List Bool) :
    ∃ nodes posts, Enters m path pin turns nodes ∧ List.Forall₂ (Post m) nodes posts ∧
      Traces m scope ((Code.steps d.steps code).along turns) posts := by
  rw [Code.along_steps]
  cases turns with
  | nil =>
    rw [hend]
    exact ⟨[node], [ids], .halt hnext hp hk, .cons hpost .nil, Traces.cons hg rfl (.nil hg.tracks)⟩
  | cons first turns =>
    obtain ⟨scope', nodes, posts, he, henters, hposts, htraces⟩ := hgo first turns
    exact ⟨node :: nodes, ids :: posts, .fork hnext hp hk henters, .cons hpost hposts,
      Traces.cons hg he htraces⟩

/-- Along every way through the code, control enters the nodes that `Enters` says, and what they need is
written. -/
theorem Walks.along (hpins : job.method.HasPins) {path loops : List NodeId} {pin : PinRef}
    {counts counts' : Counts} {code : Code} (h : Walks job path loops pin scope counts code counts')
    (hs : scope.Tracks job.method) (turns : List Bool) :
    ∃ nodes posts, Enters job.method path pin turns nodes ∧ List.Forall₂ (Post job.method) nodes posts ∧
      Traces job.method scope (code.along turns) posts := by
  induction h generalizing turns with
  | stop hf => exact ⟨[], [], .stop (Job.next?_of_follow hf), .nil, .nil hs⟩
  | again hf hp hl => exact ⟨[], [], .back (Job.next?_of_follow hf) hp, .nil, .nil hs⟩
  | ret hf hp hk hl hr =>
    obtain ⟨ids, hpost, hg⟩ := hr.post hpins hs (Job.node?_of_follow hf) (by rw [hk]; rfl) hl
    refine ⟨_, [ids], .last (Job.next?_of_follow hf) hp (by rw [hk]; rfl) (by rw [hk]; rfl),
      .cons hpost .nil, ?_⟩
    rw [Code.along_steps]
    exact Traces.cons hg rfl (.nil hg.tracks)
  | skip hf hp hk he h ih =>
    -- its statement and all that it needs are written, so it adds nothing
    obtain ⟨nodes, posts, henters, hposts, htraces⟩ := ih hs turns
    obtain ⟨ids, hpost, hsub⟩ := hs.settled.exists_post (Job.node?_of_follow hf) he
    exact ⟨_, ids :: posts, .straight (Job.next?_of_follow hf) hp hk henters, .cons hpost hposts,
      htraces.skip hsub⟩
  | make hf hp hk he hm h ih =>
    obtain ⟨ids, hpost, hg⟩ := hm.gathers hpins (Job.node?_of_follow hf) (by simp) he hs
    obtain ⟨nodes, posts, henters, hposts, htraces⟩ := ih hg.tracks turns
    refine ⟨_, ids :: posts, .straight (Job.next?_of_follow hf) hp hk henters, .cons hpost hposts, ?_⟩
    rw [Code.along_steps]
    exact Traces.cons hg rfl htraces
  | branch hf hp hk hr he h ih =>
    have hnode := Job.node?_of_follow hf
    obtain ⟨ids, hpost, hg⟩ := hr.post hpins hs hnode (by rw [hk]; rfl) (by unfold Node.inputCount; rw [hk]; rfl)
    refine Traces.fork (Job.next?_of_follow hf) hp (by rw [hk]; rfl) hpost hg rfl (fun first turns => ?_) turns
    cases first with
    | true =>
      obtain ⟨nodes, posts, hw⟩ := ih hg.tracks turns
      exact ⟨_, nodes, posts, rfl, hw⟩
    | false =>
      -- the second way of a branch without `else` ends at once
      exact ⟨_, [], [], rfl, .stop (next?_of_not_hasSuccessor hnode he), .nil, .nil hg.tracks⟩
  | branchElse hf hp hk hr he ht hn iht ihn =>
    obtain ⟨ids, hpost, hg⟩ := hr.post hpins hs (Job.node?_of_follow hf) (by rw [hk]; rfl)
      (by unfold Node.inputCount; rw [hk]; rfl)
    refine Traces.fork (Job.next?_of_follow hf) hp (by rw [hk]; rfl) hpost hg rfl (fun first turns => ?_) turns
    cases first with
    | true =>
      obtain ⟨nodes, posts, hw⟩ := iht hg.tracks turns
      exact ⟨_, nodes, posts, rfl, hw⟩
    | false =>
      obtain ⟨nodes, posts, hw⟩ := ihn hg.tracks turns
      exact ⟨_, nodes, posts, rfl, hw⟩
  | loop hf hp hk hr hb hn ihb ihn =>
    have hnode := Job.node?_of_follow hf
    obtain ⟨ids, hpost, hg⟩ := hr.post hpins hs hnode (by rw [hk]; rfl) (by unfold Node.inputCount; rw [hk]; rfl)
    refine Traces.fork (Job.next?_of_follow hf) hp (by rw [hk]; rfl) hpost hg rfl (fun first turns => ?_) turns
    -- the body and what follows the loop both start without what was read of variables
    cases first with
    | true =>
      obtain ⟨nodes, posts, hw⟩ := ihb (hg.tracks.forgetAll.bind hnode (by rw [hk]; rfl)) turns
      exact ⟨_, nodes, posts, rfl, hw⟩
    | false =>
      obtain ⟨nodes, posts, hw⟩ := ihn hg.tracks.forgetAll turns
      exact ⟨_, nodes, posts, rfl, hw⟩

end Walks

/-! ### Whole bodies -/

theorem Job.tracks_entryScope {job : Job} {entry : Node} (hn : job.method.entryNode? = some entry)
    (hk : entry.kind.isEntry = true) : (entryScope entry).Tracks job.method := by
  refine ⟨.nil, fun v hv n hvn hkn => ?_⟩
  obtain ⟨i, hi, rfl⟩ := List.mem_mapIdx.1 hv
  have hentry : job.method.node? entry.id = some entry := Method.node?_id hn
  rw [show job.method.node? entry.id = some n from hvn] at hentry
  cases hentry
  cases hkind : entry.kind <;> simp [hkind, NodeKind.isEntry, NodeKind.isStatement] at hk hkn

/-- Along every way through `job.body`, statements come in the order of first need. -/
theorem Job.traces_body {job : Job} {entry : Node} {code : Code} (hpins : job.method.HasPins)
    (hn : job.method.entryNode? = some entry) (hk : entry.kind.isEntry = true)
    (h : job.body entry = .ok code) (turns : List Bool) :
    ∃ nodes posts, Enters job.method [entry.id] (.execOut entry.id 0) turns nodes ∧
      List.Forall₂ (Post job.method) nodes posts ∧ Traces job.method {} (code.along turns) posts := by
  rcases walks_of_body h with ⟨hnone, rfl⟩ | ⟨counts, hw⟩
  · have hentry : job.method.node? entry.id = some entry := Method.node?_id hn
    have hnext : job.method.next? (.execOut entry.id 0) = none := by
      simp [Method.next?, PinRef.execOut, hentry, hnone]
    exact ⟨[], [], .stop hnext, .nil, .nil ⟨.nil, by simp⟩⟩
  · exact hw.along hpins (tracks_entryScope hn hk) turns

/-- On every way through the body of a method (`Code.along`), each call and each assignment that is needed stands
once, where the naive order of `Post` first has it, and later than those whose values it takes. -/
theorem Job.statements_along {job : Job} {signature : String} {code : Code} (hm : job.method.Consistent)
    (hpins : job.method.HasPins) (h : job.source = .ok ⟨signature, some code⟩) (turns : List Bool) :
    (∃ nodes posts, Enters job.method [job.method.entry] (.execOut job.method.entry 0) turns nodes ∧
        List.Forall₂ (Post job.method) nodes posts) ∧
      (∀ nodes posts, Enters job.method [job.method.entry] (.execOut job.method.entry 0) turns nodes →
        List.Forall₂ (Post job.method) nodes posts →
          made (code.along turns) = posts.flatten.eraseDups) ∧
      (made (code.along turns)).Nodup ∧
      ∀ xs id ys, made (code.along turns) = xs ++ id :: ys → ∀ n, job.method.node? id = some n →
        ∀ pin ∈ n.dataIns, ∀ p, job.method.feeder? pin = some p → p.id ∈ xs := by
  obtain ⟨entry, hn, hbody⟩ := body_of_source h
  have hid : entry.id = job.method.entry := Method.id_of_node? hn
  have hk : entry.kind.isEntry = true := by
    obtain ⟨n, hn', hk⟩ := hm.entry
    rw [show job.method.node? job.method.entry = some entry from hn] at hn'
    cases hn'
    exact hk
  obtain ⟨nodes, posts, henters, hposts, ids, hsettled, hmade, hgather⟩ :=
    traces_body hpins hn hk hbody turns
  rw [hid] at henters
  have hmade' : ids.reverse = made (code.along turns) := hmade
  refine ⟨⟨nodes, posts, henters, hposts⟩, fun nodes' posts' henters' hposts' => ?_, ?_, ?_⟩
  · -- the nodes entered are the same on every account, and so is what they need
    rw [henters'.unique henters] at hposts'
    rw [forall₂_post_unique hposts' hposts, ← gather_nil, ← hmade', hgather]
    rfl
  · rw [← hmade']
    exact List.nodup_reverse.2 hsettled.nodup
  · intro xs id ys heq n hid' pin hpin p hp
    -- the scope has the ids newest first
    have hids : ids = ys.reverse ++ id :: xs.reverse := by
      rw [← List.reverse_reverse ids, hmade', heq]
      simp
    rw [hids] at hsettled
    exact List.mem_reverse.1 (hsettled.feeder_mem hid' hpin hp)

/-- A call of `g` decides a branch, is assigned in it, and is entered once more after that. -/
def sharing : Job where
  method := (Method.make "main" [] []).run (.ofPairs [])
    [.addNode (.callStatic (.named "T") "g" [] [.bool]) {}, .addNode .ifElse {},
      .addNode (.setter ⟨"x", .bool⟩) {}, .addNode (.setter ⟨"y", .bool⟩) {},
      .connect (.execOut 0 0) (.execIn 2 0), .connect (.execOut 2 0) (.execIn 3 0),
      .connect (.execOut 3 0) (.execIn 1 0), .connect (.execOut 1 0) (.execIn 4 0),
      .connect (.dataOut 1 0) (.dataIn 2 0), .connect (.dataOut 1 0) (.dataIn 3 0),
      .connect (.dataOut 3 0) (.dataIn 4 0)]
  catalog := .ofPairs []
  config := {}

def sharingCode : Code :=
  .step (.callStatic 1 [(.bool, "temp0_Boolean")] (.named "T") "g" [])
    (.branch 2 "temp0_Boolean"
      (.step (.assign 3 "x" "temp0_Boolean") (.step (.assign 4 "y" "temp0_Boolean") .done)))

theorem Job.statements_along_sharing :
    sharing.method.Consistent ∧ sharing.method.HasPins ∧
      sharing.source = .ok ⟨"public void main()", some sharingCode⟩ ∧
      ∃ nodes posts, Enters sharing.method [0] (.execOut 0 0) [true] nodes ∧
        List.Forall₂ (Post sharing.method) nodes posts ∧ posts.flatten.eraseDups = [1, 3, 4] := by
  have hm : sharing.method.Consistent :=
    (Method.coherent_iff.1 (Method.coherent_run (Method.coherent_make "main" [] [] (.ofPairs [])) _)).1
  have hpins : sharing.method.HasPins := by
    unfold Method.HasPins
    decide +kernel
  have hs : sharing.source = .ok ⟨"public void main()", some sharingCode⟩ := by decide +kernel
  have hall := Job.statements_along hm hpins hs [true]
  obtain ⟨nodes, posts, henters, hposts⟩ := hall.1
  refine ⟨hm, hpins, hs, nodes, posts, henters, hposts, ?_⟩
  rw [← hall.2.1 nodes posts henters hposts]
  decide +kernel

end VisualScript
