import VisualScript.Proofs.Source.Alarms

/-!
# Writing ends

Two recursions write a method: one enters nodes along exec links, and within it one makes statements along data
links. Both look at the nodes on their way before they go on, so neither has a node on its way twice, whatever the
graph.

Here each recursion is cut at a depth, with something arbitrary below. What is below is asked only while different
nodes of the method are on the way, one for each level (`statementTo_congr`, `enterTo_congr`). A method has no
more nodes than that, so from its number of nodes on the depth makes no difference, nor does what is below
(`source_settled`).
-/

namespace VisualScript

/-! ### Nodes on the way -/

namespace Method

/-- The `ids` are those of different nodes of the method. -/
def Distinct (m : Method) (ids : List NodeId) : Prop := ids.Nodup ∧ ∀ id ∈ ids, ∃ n, m.node? id = some n

/-- The answers `f` and `g` for a node are the same, when the node comes after `depth` others and all are different
nodes of the method. -/
def AgreeAt {α : Type} (m : Method) (depth : Nat) (f g : List NodeId → Node → α) : Prop :=
  ∀ ids n, m.Distinct (n.id :: ids) → ids.length = depth → f ids n = g ids n

variable {m : Method} {ids : List NodeId} {n : Node}

theorem distinct_nil : m.Distinct [] := ⟨List.nodup_nil, fun _ h => absurd h List.not_mem_nil⟩

theorem Distinct.cons (h : m.Distinct ids) (hn : m.node? n.id = some n) (hnew : n.id ∉ ids) :
    m.Distinct (n.id :: ids) := by
  refine ⟨List.nodup_cons.2 ⟨hnew, h.1⟩, fun id hid => ?_⟩
  rcases List.mem_cons.1 hid with rfl | hid
  · exact ⟨n, hn⟩
  · exact h.2 id hid

theorem Distinct.head {id : NodeId} (h : m.Distinct (id :: ids)) : m.Distinct [id] :=
  ⟨List.nodup_singleton id, fun _ hid => h.2 _ (List.mem_singleton.1 hid ▸ List.mem_cons_self)⟩

/-- After all nodes of the method there is no other one, so any `f` and `g` agree there. -/
theorem agreeAt_of_length_le {α : Type} {f g : List NodeId → Node → α} {depth : Nat} (h : m.nodes.length ≤ depth) :
    m.AgreeAt depth f g := by
  intro ids n hn hlen
  have hle : (n.id :: ids).length ≤ m.nodes.length := length_le_nodes hn.1 hn.2
  rw [List.length_cons] at hle
  omega

end Method

namespace Job

open DraftM

/-! ### Statements down to a depth -/

/-- Makes the statement of a node, and those that it waits for down to a depth, with `below` for the rest. -/
def statementTo (job : Job) (below : List NodeId → Node → DraftM Unit) :
    (depth : Nat) → (pending : List NodeId) → Node → DraftM Unit
  | 0, pending, node => below pending node
  | depth + 1, pending, node => do
    job.build (node.id :: pending) (job.statementTo below depth (node.id :: pending)) node
    changeScope fun s => { s with emitted := node.id :: s.emitted }

section Statements

variable {job : Job} {pending : List NodeId} {pull pull' : Node → DraftM Unit}
  {below below' : List NodeId → Node → DraftM Unit} {node : Node}

theorem statement_eq_statementTo (job : Job) (budget : Nat) :
    job.statement budget = job.statementTo (fun _ node => throw (.dataCycle node.id node.label)) budget := by
  induction budget with
  | zero => rfl
  | succ budget ih =>
    funext pending node
    unfold statement statementTo
    rw [ih]

/-- A cut at `depth + more` is a cut at `more` below a cut at `depth`. -/
theorem statementTo_add (depth more : Nat) :
    job.statementTo below (depth + more) = job.statementTo (job.statementTo below more) depth := by
  induction depth with
  | zero =>
    rw [Nat.zero_add]
    rfl
  | succ depth ih =>
    rw [Nat.add_right_comm]
    funext pending node
    unfold statementTo
    rw [ih]

theorem run_bind_congr {α β : Type} {x : DraftM α} {f g : α → DraftM β} {d : Draft}
    (h : ∀ a d', x.run d = .ok (a, d') → (f a).run d' = (g a).run d') : (x >>= f).run d = (x >>= g).run d := by
  rw [StateT.run_bind, StateT.run_bind]
  rcases hx : x.run d with e | ⟨a, d'⟩
  · rfl
  · exact h a d' hx

/-- An input asks `pull` only for statements of nodes that do not wait. -/
theorem operand_congr (hpending : job.method.Distinct pending)
    (h : ∀ n, job.method.Distinct (n.id :: pending) → pull n = pull' n) :
    job.operand pending pull = job.operand pending pull' := by
  funext node slot
  refine StateT.ext fun d => ?_
  unfold operand
  refine run_bind_congr fun s d₁ hlift => run_bind_congr fun known d₂ _ => ?_
  obtain ⟨hs, rfl⟩ := DraftM.run_lift_eq_ok hlift
  have hpull : pullText pending pull s = pullText pending pull' s := by
    unfold pullText
    by_cases hp : s.producer.id ∈ pending
    · -- the cycle is found before anything is asked
      simp only [hp, if_true]
      rfl
    · have hnode : job.method.node? s.producer.id = some s.producer := Method.node?_id (supply_eq_ok hs).1
      rw [h s.producer (hpending.cons hnode hp)]
  rw [hpull]

theorem build_congr (hpending : job.method.Distinct pending)
    (h : ∀ n, job.method.Distinct (n.id :: pending) → pull n = pull' n) :
    job.build pending pull = job.build pending pull' := by
  funext node
  unfold build operandsFrom
  rw [operand_congr hpending h]

/-- What is `below` is asked only while one node waits for each level. -/
theorem statementTo_congr {depth : Nat} (hnode : job.method.Distinct (node.id :: pending))
    (h : job.method.AgreeAt (pending.length + depth) below below') :
    job.statementTo below depth pending node = job.statementTo below' depth pending node := by
  induction depth generalizing pending node with
  | zero => exact h pending node hnode rfl
  | succ depth ih =>
    have hlen : pending.length + (depth + 1) = (node.id :: pending).length + depth := by
      rw [List.length_cons]
      omega
    rw [hlen] at h
    unfold statementTo
    rw [build_congr hnode fun n hn => ih hn h]

end Statements

/-! ### Code down to a depth -/

/-- Code from a node on, with a path down to a depth and `below` for what comes after. -/
def enterTo (job : Job) (pull : Node → DraftM Unit)
    (below : List NodeId → Node → List NodeId → Scope → Counts → Drafted) :
    (depth : Nat) → (path : List NodeId) → Node → (loops : List NodeId) → Scope → Counts → Drafted
  | 0, path, node, loops, scope, counts => below path node loops scope counts
  | depth + 1, path, node, loops, scope, counts =>
    job.enterWith pull (job.onward (node.id :: path) (job.enterTo pull below depth (node.id :: path))) loops node
      scope counts

section Code

variable {job : Job} {path loops : List NodeId} {pull pull' : Node → DraftM Unit}
  {below below' : List NodeId → Node → List NodeId → Scope → Counts → Drafted} {node : Node}

theorem walk_eq_onward (job : Job) (budget : Nat) (path : List NodeId) :
    job.walk budget path = job.onward path (job.enterTo (job.statement job.budget [])
      (fun _ node _ _ _ => .error (.execCycle node.id node.label)) budget path) := by
  induction budget generalizing path with
  | zero => rfl
  | succ budget ih =>
    show job.onward path (fun node loops => job.enter (job.walk budget (node.id :: path)) loops node) = _
    simp only [ih]
    rfl

theorem enterTo_add (depth more : Nat) :
    job.enterTo pull below (depth + more) = job.enterTo pull (job.enterTo pull below more) depth := by
  induction depth with
  | zero =>
    rw [Nat.zero_add]
    rfl
  | succ depth ih =>
    rw [Nat.add_right_comm]
    funext path node loops scope counts
    unfold enterTo
    rw [ih]

/-- An exec output leads only into nodes that are not on the `path`. -/
theorem onward_congr {into into' : Node → List NodeId → Scope → Counts → Drafted}
    (hpath : job.method.Distinct path) (h : ∀ n, job.method.Distinct (n.id :: path) → into n = into' n) :
    job.onward path into = job.onward path into' := by
  funext loops pin scope counts
  unfold onward
  rcases hf : job.follow pin with e | _ | node
  · rfl
  · rfl
  · show (if node.id ∈ path then _ else _ : Drafted) = if node.id ∈ path then _ else _
    by_cases hp : node.id ∈ path
    · -- a cycle or the end of a loop, and nothing is entered
      rw [if_pos hp, if_pos hp]
    · rw [if_neg hp, if_neg hp, h node (hpath.cons (node?_of_follow hf) hp)]

theorem enterWith_congr {go : List NodeId → PinRef → Scope → Counts → Drafted}
    (hnode : job.method.Distinct [node.id]) (h : ∀ n, job.method.Distinct [n.id] → pull n = pull' n) :
    job.enterWith pull go loops node = job.enterWith pull' go loops node := by
  unfold enterWith enterStatement bounds operandsFrom
  rw [operand_congr Method.distinct_nil h, h node hnode]

/-- What is `below` is asked only while one node of the path stands for each level. -/
theorem enterTo_congr {depth : Nat} (hnode : job.method.Distinct (node.id :: path))
    (hpull : ∀ n, job.method.Distinct [n.id] → pull n = pull' n)
    (h : job.method.AgreeAt (path.length + depth) below below') :
    job.enterTo pull below depth path node = job.enterTo pull' below' depth path node := by
  induction depth generalizing path node with
  | zero => exact h path node hnode rfl
  | succ depth ih =>
    have hlen : path.length + (depth + 1) = (node.id :: path).length + depth := by
      rw [List.length_cons]
      omega
    rw [hlen] at h
    funext loops scope counts
    unfold enterTo
    rw [onward_congr hnode fun n hn => ih hn h, enterWith_congr hnode.head hpull]

end Code

/-! ### The whole source -/

/-- The body, with what is `below` a depth of statements and `beyond` a depth of the path. -/
def bodyTo (job : Job) (below : List NodeId → Node → DraftM Unit)
    (beyond : List NodeId → Node → List NodeId → Scope → Counts → Drafted) (depth : Nat) (entry : Node) :
    Except SourceError Code := do
  if entry.execOuts.isEmpty then return .done
  let (code, _) ← job.onward [entry.id] (job.enterTo (job.statementTo below depth []) beyond depth [entry.id]) []
    (.execOut entry.id 0) (entryScope entry) {}
  return code

/-- The source with the body that `bodyTo` gives. -/
def sourceTo (job : Job) (below : List NodeId → Node → DraftM Unit)
    (beyond : List NodeId → Node → List NodeId → Scope → Counts → Drafted) (depth : Nat) :
    Except SourceError MethodSource :=
  match job.method.entryNode? with
  | none => .error .missingEntry
  | some entry =>
    if job.method.isAbstract then .ok ⟨job.method.signature, none⟩
    else (job.bodyTo below beyond depth entry).map fun code => ⟨job.method.signature, some code⟩

section Source

variable {job : Job} {below below' : List NodeId → Node → DraftM Unit}
  {beyond beyond' : List NodeId → Node → List NodeId → Scope → Counts → Drafted} {depth : Nat} {entry : Node}

theorem source_eq_sourceTo (job : Job) :
    job.source = job.sourceTo (fun _ node => throw (.dataCycle node.id node.label))
      (fun _ node _ _ _ => .error (.execCycle node.id node.label)) job.method.nodes.length := by
  have hbody : ∀ entry, job.body entry = job.bodyTo (fun _ node => throw (.dataCycle node.id node.label))
      (fun _ node _ _ _ => .error (.execCycle node.id node.label)) job.budget entry := by
    intro entry
    unfold body bodyTo
    rw [walk_eq_onward, statement_eq_statementTo]
  unfold source sourceTo
  simp only [hbody]
  rfl

theorem bodyTo_congr (hentry : job.method.node? entry.id = some entry)
    (hbelow : job.method.AgreeAt depth below below') (hbeyond : job.method.AgreeAt (depth + 1) beyond beyond') :
    job.bodyTo below beyond depth entry = job.bodyTo below' beyond' depth entry := by
  have hpull : ∀ n, job.method.Distinct [n.id] →
      job.statementTo below depth [] n = job.statementTo below' depth [] n := by
    intro n hn
    refine statementTo_congr hn ?_
    rwa [List.length_nil, Nat.zero_add]
  have hinto : job.onward [entry.id] (job.enterTo (job.statementTo below depth []) beyond depth [entry.id]) =
      job.onward [entry.id] (job.enterTo (job.statementTo below' depth []) beyond' depth [entry.id]) := by
    -- the entry is on the path from the start, so the path is one level ahead of the statements
    refine onward_congr (Method.distinct_nil.cons hentry List.not_mem_nil) fun n hn => enterTo_congr hn hpull ?_
    rwa [List.length_singleton, Nat.add_comm]
  unfold bodyTo
  rw [hinto]

theorem sourceTo_congr (hbelow : job.method.AgreeAt depth below below')
    (hbeyond : job.method.AgreeAt (depth + 1) beyond beyond') :
    job.sourceTo below beyond depth = job.sourceTo below' beyond' depth := by
  unfold sourceTo
  cases hentry : job.method.entryNode? with
  | none => rfl
  | some entry => simp only [bodyTo_congr (Method.node?_id hentry) hbelow hbeyond]

theorem sourceTo_add (more : Nat) :
    job.sourceTo below beyond (depth + more) = job.sourceTo (job.statementTo below more)
      (job.enterTo (job.statementTo below (depth + more) []) beyond more) depth := by
  unfold sourceTo bodyTo
  rw [enterTo_add, statementTo_add]

/-- Writing that is cut at a `depth` asks what is `below` or `beyond` only for nodes that come after as many
others as there are levels, all of them different nodes of the method. So from as many levels as the method has
nodes on nothing is asked, and the answer is the source or its error. -/
theorem source_settled (job : Job) (depth : Nat) :
    (∀ below below' beyond beyond', job.method.AgreeAt depth below below' →
      job.method.AgreeAt (depth + 1) beyond beyond' →
        job.sourceTo below beyond depth = job.sourceTo below' beyond' depth) ∧
    (job.method.nodes.length ≤ depth → ∀ below beyond, job.sourceTo below beyond depth = job.source) := by
  refine ⟨fun below below' beyond beyond' => sourceTo_congr, fun hdepth below beyond => ?_⟩
  -- cut at the number of nodes first, where nothing below is asked
  obtain ⟨more, rfl⟩ := Nat.exists_eq_add_of_le hdepth
  rw [sourceTo_add, source_eq_sourceTo]
  exact sourceTo_congr (Method.agreeAt_of_length_le (Nat.le_refl _)) (Method.agreeAt_of_length_le (Nat.le_succ _))

/-- Two calls that want each other's results: with two levels what is `below` is asked, with one for each node of
the method the cycle is found. -/
theorem source_settled_entangled :
    entangled.sourceTo (fun _ _ => throw .missingEntry) (fun _ _ _ _ _ => .ok (.done, {})) 2 =
        .error .missingEntry ∧
      entangled.sourceTo (fun _ _ => throw .missingEntry) (fun _ _ _ _ _ => .ok (.done, {})) 4 =
        .error (.dataCycle 1 "Call T.f") := by
  have hsource : entangled.source = .error (.dataCycle 1 "Call T.f") := by decide +kernel
  refine ⟨by decide +kernel, ?_⟩
  rw [← hsource]
  exact (source_settled entangled 4).2 (by decide +kernel) _ _

end Source

end Job

end VisualScript
