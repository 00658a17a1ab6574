import VisualScript.Proofs.Graph.Ends
import VisualScript.Source.Body

/-!
# How source comes about

Writing a method is a recursion over its graph that can fail at every step. The relations here say what a
success consists of, one constructor per way to succeed, so that what is proved of all written source is proved
by induction on them and never opens the functions again.

* `Resolves`: an input gets its text, and `ResolvesFrom` several inputs in turn;
* `Makes`: a call or an assignment becomes a statement, after those that it waits for;
* `Walks`: the code from an exec output on.

A success of the functions is a derivation: `makes_of_statement`, `resolvesFrom_of_inputs`, `walks_of_body`.
-/

namespace VisualScript

/-! ### Successes of drafts -/

namespace DraftM

variable {α β : Type} {x : DraftM α} {d d' : Draft}

theorem run_bind_ok {a : α} (h : x.run d = .ok (a, d')) (f : α → DraftM β) :
    (x >>= f).run d = (f a).run d' := by
  rw [StateT.run_bind, h]
  rfl

theorem run_bind_eq_ok {f : α → DraftM β} {b : β} (h : (x >>= f).run d = .ok (b, d')) :
    ∃ a d₁, x.run d = .ok (a, d₁) ∧ (f a).run d₁ = .ok (b, d') := by
  rw [StateT.run_bind] at h
  rcases hx : x.run d with e | ⟨a, d₁⟩
  · rw [hx] at h
    cases h
  · rw [hx] at h
    exact ⟨a, d₁, rfl, h⟩

theorem run_lift_eq_ok {x : Except SourceError α} {a : α} (h : (liftM x : DraftM α).run d = .ok (a, d')) :
    x = .ok a ∧ d' = d := by
  rcases x with e | b
  · cases h
  · cases h
    exact ⟨rfl, rfl⟩

theorem run_pure_eq_ok {a b : α} (h : (pure a : DraftM α).run d = .ok (b, d')) : b = a ∧ d' = d := by
  cases h
  exact ⟨rfl, rfl⟩

end DraftM

/-! ### Inputs -/

namespace NodeKind

def isCall : NodeKind → Bool
  | .callMethod .. | .callStatic .. => true
  | _ => false

/-- Calls (`isCall`) and assignments are statements of their own. -/
def isStatement : NodeKind → Bool
  | .callMethod .. | .callStatic .. | .setter _ => true
  | _ => false

end NodeKind

namespace Node

/-- How many inputs the source of a node takes, from the first on. -/
def inputCount (n : Node) : Nat :=
  match n.kind with
  | .callMethod .. => n.dataIns.length - 1 + 1
  | .callStatic .. | .ret _ => n.dataIns.length
  | .setter _ | .ifElse => 1
  | .forLoop => 2
  | .methodEntry _ | .getter _ | .literal .. => 0

/-- The call that a node stands for, with the names of its `results` and the `texts` of its inputs. -/
def callStep? (n : Node) (results : List (TypeSpec × String)) (texts : List String) : Option Step :=
  match n.kind, texts with
  | .callMethod name _ _, target :: arguments => some (.callMethod n.id results target name arguments)
  | .callStatic t name _ _, arguments => some (.callStatic n.id results t name arguments)
  | _, _ => none

end Node

/-- The temporaries for the outputs of a node, the first of them with number `k`. -/
def Job.results (job : Job) (node : Node) (k : Nat) : List (TypeSpec × String) :=
  node.dataOuts.mapIdx fun i pin => (pin.type, job.config.tempName (k + i) pin.name)

/-- The scope in which the outputs of `node` have the names in `results`. -/
def Scope.named (s : Scope) (node : NodeId) (results : List (TypeSpec × String)) : Scope :=
  { s with values := (results.mapIdx fun i r => (PinRef.dataOut node i, r.2)).reverse ++ s.values }

/-- By `named`, only the node's own outputs get a name. -/
theorem Scope.mem_named {s : Scope} {node : NodeId} {results : List (TypeSpec × String)} {v : PinRef × String}
    (h : v ∈ (s.named node results).values) : v ∈ s.values ∨ v.1.node = node := by
  rcases List.mem_append.1 h with h | h
  · obtain ⟨i, hi, rfl⟩ := List.mem_mapIdx.1 (List.mem_reverse.1 h)
    exact Or.inr rfl
  · exact Or.inl h

namespace Draft

def mark (d : Draft) (node : NodeId) : Draft :=
  { d with scope := { d.scope with emitted := node :: d.scope.emitted } }

/-- The draft after a variable was read for the pin `p`. -/
def read (d : Draft) (p : PinRef) (s : Step) (name : String) : Draft :=
  { scope := d.scope.bind p name, temps := d.temps + 1, steps := d.steps ++ [s] }

/-- The draft after a call whose `results` got names. -/
def call (d : Draft) (node : NodeId) (results : List (TypeSpec × String)) (s : Step) : Draft :=
  { scope := d.scope.named node results, temps := d.temps + results.length, steps := d.steps ++ [s] }

/-- The draft after an assignment to `variableName`: what was read of it before no longer holds. -/
def assign (d : Draft) (m : Method) (node : NodeId) (variableName value : String) : Draft :=
  { d with
    scope := (d.scope.forget m (· = variableName)).bind (.dataOut node 0) value
    steps := d.steps ++ [.assign node variableName value] }

theorem mem_assign {d : Draft} {m : Method} {node : NodeId} {variableName value : String} {v : PinRef × String}
    (h : v ∈ (d.assign m node variableName value).scope.values) : v ∈ d.scope.values ∨ v.1.node = node := by
  rcases List.mem_cons.1 h with rfl | h
  · exact Or.inr rfl
  · exact Or.inl (List.mem_of_mem_filter h)

end Draft

mutual

/-- The input of a node gets its text: it is `known`, or what supplies it is spelled out, `read` or made first. -/
inductive Resolves (job : Job) : List NodeId → Node → Nat → Draft → String → Draft → Prop
  | known {pending : List NodeId} {node : Node} {slot : Nat} {d : Draft} {s : Supply} {text : String}
      (hs : job.supply node slot = .ok s) (hv : d.scope.value? s.source = some text) :
      Resolves job pending node slot d text d
  | literal {pending : List NodeId} {node : Node} {slot : Nat} {d : Draft} {s : Supply} {value : String}
      {type : TypeSpec} (hs : job.supply node slot = .ok s) (hv : d.scope.value? s.source = none)
      (hk : s.producer.kind = .literal value type) :
      Resolves job pending node slot d (Spelling.literal value type) d
  | read {pending : List NodeId} {node : Node} {slot : Nat} {d : Draft} {s : Supply} {v : VariableRef}
      {name : String} (hs : job.supply node slot = .ok s) (hv : d.scope.value? s.source = none)
      (hk : s.producer.kind = .getter v) (hn : name = job.config.tempName d.temps v.name) :
      Resolves job pending node slot d name
        (d.read s.source (.read s.producer.id s.produced.type name v.name) name)
  | pulled {pending : List NodeId} {node : Node} {slot : Nat} {d d' : Draft} {s : Supply} {text : String}
      (hs : job.supply node slot = .ok s) (hv : d.scope.value? s.source = none)
      (hk : s.producer.kind.isStatement = true) (hp : s.producer.id ∉ pending)
      (he : s.producer.id ∉ d.scope.emitted) (hm : Makes job pending s.producer d d')
      (hv' : d'.scope.value? s.source = some text) : Resolves job pending node slot d text d'

/-- The inputs of a node from a slot on get their texts, in turn, each as `Resolves` says. -/
inductive ResolvesFrom (job : Job) :
    List NodeId → Node → Nat → Draft → List String → Draft → Prop
  | nil {pending : List NodeId} {node : Node} {slot : Nat} {d : Draft} :
      ResolvesFrom job pending node slot d [] d
  | cons {pending : List NodeId} {node : Node} {slot : Nat} {d d₁ d' : Draft} {text : String}
      {texts : List String} (h : Resolves job pending node slot d text d₁)
      (hs : ResolvesFrom job pending node (slot + 1) d₁ texts d') :
      ResolvesFrom job pending node slot d (text :: texts) d'

/-- A call or an assignment becomes a statement (`NodeKind.isStatement`). -/
inductive Makes (job : Job) : List NodeId → Node → Draft → Draft → Prop
  | call {pending : List NodeId} {node : Node} {d d' : Draft} {texts : List String} {s : Step}
      (hk : node.kind.isCall = true) (hl : texts.length = node.inputCount)
      (hr : ResolvesFrom job (node.id :: pending) node 0 d texts d')
      (hs : node.callStep? (job.results node d'.temps) texts = some s) :
      Makes job pending node d ((d'.call node.id (job.results node d'.temps) s).mark node.id)
  | assign {pending : List NodeId} {node : Node} {d d' : Draft} {v : VariableRef} {value : String}
      (hk : node.kind = .setter v) (hr : ResolvesFrom job (node.id :: pending) node 0 d [value] d') :
      Makes job pending node d ((d'.assign job.method node.id v.name value).mark node.id)

end

/-! ### Successes of operands and statements -/

theorem TypeCatalog.isAssignable_iff {c : TypeCatalog} {a b : TypeSpec} :
    c.isAssignable a b = true ↔ c.checkAssignable a b = .ok true := by
  unfold isAssignable
  cases h : c.checkAssignable a b with
  | error e => simp
  | ok r => simp

namespace Job

variable {job : Job} {pending : List NodeId} {pull : Node → DraftM Unit} {node : Node} {d d' : Draft}

theorem supply_eq_ok {slot : Nat} {s : Supply} (h : job.supply node slot = .ok s) :
    job.method.node? s.source.node = some s.producer ∧
      s.producer.dataOuts[s.source.slot]? = some s.produced ∧
      ∃ pin, node.dataIns[slot]? = some pin ∧ pin.incoming = some s.source := by
  unfold supply at h
  cases hpin : node.dataIns[slot]? with
  | none =>
    rw [hpin] at h
    cases h
  | some pin =>
    simp only [hpin] at h
    cases hsource : pin.incoming with
    | none =>
      rw [hsource] at h
      cases h
    | some source =>
      simp only [hsource] at h
      cases hproducer : job.method.node? source.node with
      | none =>
        rw [hproducer] at h
        cases h
      | some producer =>
        simp only [hproducer] at h
        cases hproduced : producer.dataOuts[source.slot]? with
        | none =>
          rw [hproduced] at h
          cases h
        | some produced =>
          simp only [hproduced] at h
          split at h
          · cases h
            exact ⟨hproducer, hproduced, pin, rfl, hsource⟩
          · cases h

theorem pullText_eq_ok {s : Supply} {text : String}
    (h : (pullText pending pull s).run d = .ok (text, d')) :
    s.producer.id ∉ pending ∧ s.producer.id ∉ d.scope.emitted ∧
      (pull s.producer).run d = .ok ((), d') ∧ d'.scope.value? s.source = some text := by
  unfold pullText at h
  by_cases hp : s.producer.id ∈ pending
  · simp only [hp, if_true] at h
    cases h
  simp only [hp, if_false] at h
  obtain ⟨d₁, d₂, hget, h⟩ := DraftM.run_bind_eq_ok h
  cases hget
  by_cases he : s.producer.id ∈ d.scope.emitted
  · simp only [he, if_true] at h
    cases h
  simp only [he, if_false] at h
  obtain ⟨⟨⟩, d₃, hpull, h⟩ := DraftM.run_bind_eq_ok h
  obtain ⟨known, d₄, hv, h⟩ := DraftM.run_bind_eq_ok h
  cases hv
  cases hval : d₃.scope.value? s.source with
  | none =>
    simp only [hval] at h
    cases h
  | some text' =>
    simp only [hval] at h
    obtain ⟨rfl, rfl⟩ := DraftM.run_pure_eq_ok h
    exact ⟨hp, he, hpull, hval⟩

theorem resolves_of_operand {slot : Nat} {text : String}
    (hpull : ∀ {node d d'}, node.kind.isStatement = true → (pull node).run d = .ok ((), d') →
      Makes job pending node d d')
    (h : (job.operand pending pull node slot).run d = .ok (text, d')) :
    Resolves job pending node slot d text d' := by
  unfold operand at h
  obtain ⟨s, d₁, hlift, hrest⟩ := DraftM.run_bind_eq_ok h
  obtain ⟨hs, rfl⟩ := DraftM.run_lift_eq_ok hlift
  obtain ⟨known, d₂, hv, h⟩ := DraftM.run_bind_eq_ok hrest
  cases hv
  cases hval : d₁.scope.value? s.source with
  | some text' =>
    simp only [hval] at h
    obtain ⟨rfl, rfl⟩ := DraftM.run_pure_eq_ok h
    exact .known hs hval
  | none =>
    simp only [hval] at h
    -- calls and assignments are asked for in the same way, so that is settled before the kinds
    have hstatement : s.producer.kind.isStatement = true →
        (pullText pending pull s).run d₁ = .ok (text, d') → Resolves job pending node slot d₁ text d' := by
      intro hk h
      obtain ⟨hp, he, hrun, hv'⟩ := pullText_eq_ok h
      exact .pulled hs hval hk hp he (hpull hk hrun) hv'
    cases hk : s.producer.kind <;> simp only [hk] at h
    case literal value type =>
      obtain ⟨rfl, rfl⟩ := DraftM.run_pure_eq_ok h
      exact .literal hs hval hk
    case getter v =>
      cases h
      exact .read hs hval hk rfl
    case callMethod => exact hstatement (by rw [hk]; rfl) h
    case callStatic => exact hstatement (by rw [hk]; rfl) h
    case setter => exact hstatement (by rw [hk]; rfl) h
    -- the kinds that are left have no text to give
    all_goals cases h

theorem resolvesFrom_of_mapM {first count : Nat} {texts : List String}
    (hpull : ∀ {node d d'}, node.kind.isStatement = true → (pull node).run d = .ok ((), d') →
      Makes job pending node d d')
    (h : ((List.range' first count).mapM (job.operand pending pull node)).run d = .ok (texts, d')) :
    texts.length = count ∧ ResolvesFrom job pending node first d texts d' := by
  induction count generalizing first d texts with
  | zero =>
    cases h
    exact ⟨rfl, .nil⟩
  | succ count ih =>
    rw [List.range'_succ, List.mapM_cons] at h
    obtain ⟨text, d₁, htext, h₁⟩ := DraftM.run_bind_eq_ok h
    obtain ⟨rest, d₂, hrest, h₂⟩ := DraftM.run_bind_eq_ok h₁
    cases h₂
    obtain ⟨hl, hr⟩ := ih hrest
    exact ⟨by rw [List.length_cons, hl], .cons (resolves_of_operand hpull htext) hr⟩

theorem run_mapM_bindOutput (job : Job) (node : NodeId) (pins : List DataOut) (i : Nat) (d : Draft) :
    ((pins.mapIdx fun k pin => (k + i, pin)).mapM (job.bindOutput node)).run d =
      .ok (pins.mapIdx fun k pin => (pin.type, job.config.tempName (k + d.temps) pin.name),
        { d with
          scope := { d.scope with
            values := (pins.mapIdx fun k pin =>
              (PinRef.dataOut node (k + i), job.config.tempName (k + d.temps) pin.name)).reverse ++
                d.scope.values }
          temps := d.temps + pins.length }) := by
  induction pins generalizing i d with
  | nil => rfl
  | cons pin pins ih =>
    have hpin : (job.bindOutput node (0 + i, pin)).run d =
        .ok ((pin.type, job.config.tempName d.temps pin.name),
          { d with
            scope := d.scope.bind (.dataOut node (0 + i)) (job.config.tempName d.temps pin.name)
            temps := d.temps + 1 }) := rfl
    -- the pins left are numbered from the next output and the next temporary on
    have hrest := ih (i + 1) { d with
      scope := d.scope.bind (.dataOut node (0 + i)) (job.config.tempName d.temps pin.name)
      temps := d.temps + 1 }
    simp only [List.mapIdx_cons, List.mapM_cons, Nat.add_assoc, Nat.add_comm 1]
    rw [DraftM.run_bind_ok hpin, DraftM.run_bind_ok hrest]
    simp [Scope.bind, Nat.add_assoc, Nat.add_comm 1]
    rfl

theorem run_bindOutputs (job : Job) (node : Node) (d : Draft) :
    (job.bindOutputs node).run d =
      .ok (job.results node d.temps,
        { d with
          scope := d.scope.named node.id (job.results node d.temps)
          temps := d.temps + (job.results node d.temps).length }) := by
  refine Eq.trans (run_mapM_bindOutput job node.id node.dataOuts 0 d) ?_
  simp [results, Scope.named, List.mapIdx_mapIdx, Nat.add_comm]
  rfl

/-- `build` makes the statement of a node, apart from the `mark` that it is made. -/
theorem makes_of_build (hk : node.kind.isStatement = true)
    (hpull : ∀ {n d d'}, n.kind.isStatement = true → (pull n).run d = .ok ((), d') →
      Makes job (node.id :: pending) n d d')
    (h : (job.build (node.id :: pending) pull node).run d = .ok ((), d')) :
    Makes job pending node d (d'.mark node.id) := by
  unfold build at h
  cases hkind : node.kind <;> simp only [hkind] at h
  case callMethod name as rs =>
    -- the target is the first input, and the arguments follow it
    obtain ⟨target, d₁, htarget, h₁⟩ := DraftM.run_bind_eq_ok h
    obtain ⟨arguments, d₂, harguments, h₂⟩ := DraftM.run_bind_eq_ok h₁
    rw [DraftM.run_bind_ok (run_bindOutputs job node d₂)] at h₂
    cases h₂
    obtain ⟨hl, hr⟩ := resolvesFrom_of_mapM hpull harguments
    refine .call (by rw [hkind]; rfl) ?_ (.cons (resolves_of_operand hpull htarget) hr) ?_
    · unfold Node.inputCount
      rw [hkind, List.length_cons, hl]
    · unfold Node.callStep?
      rw [hkind]
  case callStatic t name as rs =>
    obtain ⟨arguments, d₁, harguments, h₁⟩ := DraftM.run_bind_eq_ok h
    rw [DraftM.run_bind_ok (run_bindOutputs job node d₁)] at h₁
    cases h₁
    obtain ⟨hl, hr⟩ := resolvesFrom_of_mapM hpull harguments
    refine .call (by rw [hkind]; rfl) ?_ hr ?_
    · unfold Node.inputCount
      rw [hkind, hl]
      rfl
    · unfold Node.callStep?
      rw [hkind]
  case setter v =>
    obtain ⟨value, d₁, hvalue, h₁⟩ := DraftM.run_bind_eq_ok h
    cases h₁
    exact .assign hkind (.cons (resolves_of_operand hpull hvalue) .nil)
  all_goals
    rw [hkind] at hk
    cases hk

theorem makes_of_statement {budget : Nat} (hk : node.kind.isStatement = true)
    (h : (job.statement budget pending node).run d = .ok ((), d')) : Makes job pending node d d' := by
  -- each statement on the way is made with one less of the budget
  induction budget generalizing pending node d d' with
  | zero => cases h
  | succ budget ih =>
    unfold statement at h
    obtain ⟨⟨⟩, d₁, hbuild, hmark⟩ := DraftM.run_bind_eq_ok h
    cases hmark
    exact makes_of_build hk ih hbuild

theorem resolves_of_input {slot budget : Nat} {text : String}
    (h : (job.operand [] (job.statement budget []) node slot).run d = .ok (text, d')) :
    Resolves job [] node slot d text d' :=
  resolves_of_operand makes_of_statement h

theorem resolvesFrom_of_inputs {budget : Nat} {texts : List String}
    (h : (job.operandsFrom [] (job.statement budget []) node 0).run d = .ok (texts, d')) :
    texts.length = node.dataIns.length ∧ ResolvesFrom job [] node 0 d texts d' :=
  resolvesFrom_of_mapM makes_of_statement h

theorem resolvesFrom_of_bounds {budget : Nat} {initial limit : String}
    (h : (job.bounds (job.statement budget []) node).run d = .ok ((initial, limit), d')) :
    ResolvesFrom job [] node 0 d [initial, limit] d' := by
  unfold bounds at h
  obtain ⟨initial', d₁, hinitial, h₁⟩ := DraftM.run_bind_eq_ok h
  obtain ⟨limit', d₂, hlimit, h₂⟩ := DraftM.run_bind_eq_ok h₁
  cases h₂
  exact .cons (resolves_of_input hinitial) (.cons (resolves_of_input hlimit) .nil)

end Job

/-! ### Code -/

/-- Code from an exec output on. `path` are the nodes entered before, and `loops` those whose bodies stand open. -/
inductive Walks (job : Job) :
    List NodeId → List NodeId → PinRef → Scope → Counts → Code → Counts → Prop
  | stop {path loops : List NodeId} {pin : PinRef} {scope : Scope} {counts : Counts}
      (hf : job.follow pin = .ok none) : Walks job path loops pin scope counts .done counts
  | again {path loops : List NodeId} {pin : PinRef} {scope : Scope} {counts : Counts} {node : Node}
      (hf : job.follow pin = .ok (some node)) (hp : node.id ∈ path) (hl : loops.head? = some node.id) :
      Walks job path loops pin scope counts (.again node.id) counts
  | ret {path loops : List NodeId} {pin : PinRef} {scope : Scope} {counts : Counts} {node : Node}
      {types : List TypeSpec} {values : List String} {d : Draft}
      (hf : job.follow pin = .ok (some node)) (hp : node.id ∉ path) (hk : node.kind = .ret types)
      (hl : values.length = node.inputCount)
      (hr : ResolvesFrom job [] node 0 (scope.draft counts) values d) :
      Walks job path loops pin scope counts (.steps d.steps (.ret node.id values))
        { counts with temps := d.temps }
  /-- A call or an assignment that another node has already asked for. -/
  | skip {path loops : List NodeId} {pin : PinRef} {scope : Scope} {counts counts' : Counts} {node : Node}
      {code : Code} (hf : job.follow pin = .ok (some node)) (hp : node.id ∉ path)
      (hk : node.kind.isStatement = true) (he : node.id ∈ scope.emitted)
      (h : Walks job (node.id :: path) loops (.execOut node.id 0) scope counts code counts') :
      Walks job path loops pin scope counts code counts'
  | make {path loops : List NodeId} {pin : PinRef} {scope : Scope} {counts counts' : Counts} {node : Node}
      {d : Draft} {code : Code} (hf : job.follow pin = .ok (some node)) (hp : node.id ∉ path)
      (hk : node.kind.isStatement = true) (he : node.id ∉ scope.emitted)
      (hm : Makes job [] node (scope.draft counts) d)
      (h : Walks job (node.id :: path) loops (.execOut node.id 0) d.scope { counts with temps := d.temps }
        code counts') :
      Walks job path loops pin scope counts (.steps d.steps code) counts'
  | branch {path loops : List NodeId} {pin : PinRef} {scope : Scope} {counts counts' : Counts} {node : Node}
      {condition : String} {d : Draft} {code : Code}
      (hf : job.follow pin = .ok (some node)) (hp : node.id ∉ path) (hk : node.kind = .ifElse)
      (hr : ResolvesFrom job [] node 0 (scope.draft counts) [condition] d)
      (he : Job.hasSuccessor node elseSlot = false)
      (h : Walks job (node.id :: path) loops (.execOut node.id thenSlot) d.scope
        { counts with temps := d.temps } code counts') :
      Walks job path loops pin scope counts (.steps d.steps (.branch node.id condition code)) counts'
  | branchElse {path loops : List NodeId} {pin : PinRef} {scope : Scope} {counts counts₁ counts' : Counts}
      {node : Node} {condition : String} {d : Draft} {whenTrue whenFalse : Code}
      (hf : job.follow pin = .ok (some node)) (hp : node.id ∉ path) (hk : node.kind = .ifElse)
      (hr : ResolvesFrom job [] node 0 (scope.draft counts) [condition] d)
      (he : Job.hasSuccessor node elseSlot = true)
      (ht : Walks job (node.id :: path) loops (.execOut node.id thenSlot) d.scope
        { counts with temps := d.temps } whenTrue counts₁)
      (hn : Walks job (node.id :: path) loops (.execOut node.id elseSlot) d.scope counts₁ whenFalse
        counts') :
      Walks job path loops pin scope counts
        (.steps d.steps (.branchElse node.id condition whenTrue whenFalse)) counts'
  | loop {path loops : List NodeId} {pin : PinRef} {scope : Scope} {counts counts₁ counts' : Counts}
      {node : Node} {initial limit : String} {d : Draft} {body next : Code}
      (hf : job.follow pin = .ok (some node)) (hp : node.id ∉ path) (hk : node.kind = .forLoop)
      (hr : ResolvesFrom job [] node 0 (scope.draft counts) [initial, limit] d)
      (hb : Walks job (node.id :: path) (node.id :: loops) (.execOut node.id bodySlot)
        ((d.scope.forgetAll job.method).bind (.dataOut node.id 0) (job.config.indexName counts.loops))
        { temps := d.temps, loops := counts.loops + 1 } body counts₁)
      (hn : Walks job (node.id :: path) loops (.execOut node.id completedSlot)
        (d.scope.forgetAll job.method) counts₁ next counts') :
      Walks job path loops pin scope counts
        (.steps d.steps (.loop node.id (job.config.indexName counts.loops) initial limit body next)) counts'

namespace Job

variable {job : Job} {path loops : List NodeId} {pin : PinRef} {scope : Scope} {counts counts' : Counts}
  {code : Code} {node : Node}

theorem bind_eq_ok {α β : Type} {x : Except SourceError α} {f : α → Except SourceError β} {b : β}
    (h : x >>= f = .ok b) : ∃ a, x = .ok a ∧ f a = .ok b := by
  rcases x with e | a
  · cases h
  · exact ⟨a, rfl, h⟩

theorem after_eq_ok {α : Type} {x : DraftM α} {next : α → Scope → Counts → Drafted}
    (h : after x scope counts next = .ok (code, counts')) :
    ∃ a d rest, x.run (scope.draft counts) = .ok (a, d) ∧
      next a d.scope { counts with temps := d.temps } = .ok (rest, counts') ∧ code = .steps d.steps rest := by
  obtain ⟨⟨a, d⟩, hrun, h₁⟩ := bind_eq_ok h
  obtain ⟨⟨rest, counts₁⟩, hnext, h₂⟩ := bind_eq_ok h₁
  cases h₂
  exact ⟨a, d, rest, hrun, hnext, rfl⟩

theorem follow_eq_ok {found : Option Node} (h : job.follow pin = .ok found) :
    ∃ source out, job.method.node? pin.node = some source ∧ source.execOuts[pin.slot]? = some out ∧
      (out.outgoing.bind fun target => job.method.node? target.node) = found := by
  unfold follow at h
  cases hsource : job.method.node? pin.node with
  | none =>
    rw [hsource] at h
    cases h
  | some source =>
    simp only [hsource] at h
    cases hout : source.execOuts[pin.slot]? with
    | none =>
      rw [hout] at h
      cases h
    | some out =>
      simp only [hout] at h
      refine ⟨source, out, rfl, hout, ?_⟩
      cases htarget : out.outgoing with
      | none =>
        rw [htarget] at h
        cases h
        rfl
      | some target =>
        simp only [htarget] at h
        rw [Option.bind_some]
        cases hnode : job.method.node? target.node <;> rw [hnode] at h <;> cases h
        rfl

theorem node?_of_follow (h : job.follow pin = .ok (some node)) : job.method.node? node.id = some node := by
  obtain ⟨_, _, _, _, hfound⟩ := follow_eq_ok h
  obtain ⟨target, -, hnode⟩ := Option.bind_eq_some_iff.1 hfound
  exact Method.node?_id hnode

/-- What `enter` makes of a node, given that `go` writes the ways on from it. -/
theorem walks_of_enter {go : List NodeId → PinRef → Scope → Counts → Drafted}
    (hgo : ∀ {loops pin scope counts code counts'}, go loops pin scope counts = .ok (code, counts') →
      Walks job (node.id :: path) loops pin scope counts code counts')
    (hf : job.follow pin = .ok (some node)) (hp : node.id ∉ path)
    (h : job.enter go loops node scope counts = .ok (code, counts')) :
    Walks job path loops pin scope counts code counts' := by
  unfold enter enterWith at h
  cases hk : node.kind <;> simp only [hk] at h
  case ret types =>
    obtain ⟨values, d, rest, hrun, hret, rfl⟩ := after_eq_ok h
    cases hret
    obtain ⟨hl, hr⟩ := resolvesFrom_of_inputs hrun
    refine .ret hf hp hk ?_ hr
    unfold Node.inputCount
    rw [hk, hl]
  case callMethod | callStatic | setter =>
    have hstatement : node.kind.isStatement = true := by rw [hk]; rfl
    unfold enterStatement at h
    -- its statement may stand already, since another node has asked for its values
    by_cases he : node.id ∈ scope.emitted
    · rw [if_pos he] at h
      exact .skip hf hp hstatement he (hgo h)
    · rw [if_neg he] at h
      obtain ⟨⟨⟩, d, next, hrun, hnext, rfl⟩ := after_eq_ok h
      exact .make hf hp hstatement he (makes_of_statement hstatement hrun) (hgo hnext)
  case ifElse =>
    obtain ⟨condition, d, rest, hrun, hbranch, rfl⟩ := after_eq_ok h
    have hr := ResolvesFrom.cons (resolves_of_input hrun) .nil
    obtain ⟨⟨whenTrue, counts₁⟩, ht, h₁⟩ := bind_eq_ok hbranch
    cases he : hasSuccessor node elseSlot with
    | true =>
      simp only [he, if_true] at h₁
      obtain ⟨⟨whenFalse, counts₂⟩, hn, h₂⟩ := bind_eq_ok h₁
      cases h₂
      exact .branchElse hf hp hk hr he (hgo ht) (hgo hn)
    | false =>
      simp only [he, Bool.false_eq_true, if_false] at h₁
      cases h₁
      exact .branch hf hp hk hr he (hgo ht)
  case forLoop =>
    obtain ⟨⟨initial, limit⟩, d, rest, hrun, hloop, rfl⟩ := after_eq_ok h
    obtain ⟨⟨body, counts₁⟩, hb, h₁⟩ := bind_eq_ok hloop
    obtain ⟨⟨next, counts₂⟩, hn, h₂⟩ := bind_eq_ok h₁
    cases h₂
    exact .loop hf hp hk (resolvesFrom_of_bounds hrun) (hgo hb) (hgo hn)
  all_goals cases h

/-- `onward` knows the ends of a path, and uses `into` for a node that it enters. -/
theorem walks_of_onward {into : Node → List NodeId → Scope → Counts → Drafted}
    (hinto : ∀ {node}, job.follow pin = .ok (some node) → node.id ∉ path →
      into node loops scope counts = .ok (code, counts') → Walks job path loops pin scope counts code counts')
    (h : job.onward path into loops pin scope counts = .ok (code, counts')) :
    Walks job path loops pin scope counts code counts' := by
  unfold onward at h
  obtain ⟨_ | node, hf, h₁⟩ := bind_eq_ok h
  · cases h₁
    exact .stop hf
  · by_cases hp : node.id ∈ path
    · by_cases hl : loops.head? = some node.id
      · simp only [hp, hl, if_true] at h₁
        cases h₁
        exact .again hf hp hl
      · simp only [hp, hl, if_true, if_false] at h₁
        cases h₁
    · simp only [hp, if_false] at h₁
      exact hinto hf hp h₁

theorem walks_of_walk {budget : Nat}
    (h : job.walk budget path loops pin scope counts = .ok (code, counts')) :
    Walks job path loops pin scope counts code counts' := by
  induction budget generalizing path loops pin scope counts code counts' with
  | zero => exact walks_of_onward (fun _ _ hinto => by cases hinto) h
  | succ budget ih => exact walks_of_onward (fun hf hp hinto => walks_of_enter ih hf hp hinto) h

/-- An abstract method has no body; any other has the one that is written from its entry on. -/
theorem source_eq_ok {source : MethodSource} (h : job.source = .ok source) :
    source.signature = job.method.signature ∧
      ((job.method.isAbstract = true ∧ source.body = none) ∨
        job.method.isAbstract = false ∧ ∃ entry code, job.method.entryNode? = some entry ∧
          job.body entry = .ok code ∧ source.body = some code) := by
  unfold Job.source at h
  cases hentry : job.method.entryNode? with
  | none =>
    rw [hentry] at h
    cases h
  | some entry =>
    simp only [hentry] at h
    cases ha : job.method.isAbstract with
    | true =>
      rw [if_pos ha] at h
      cases h
      exact ⟨rfl, .inl ⟨rfl, rfl⟩⟩
    | false =>
      rw [if_neg (by simp [ha])] at h
      cases hbody : job.body entry with
      | error e =>
        rw [hbody] at h
        cases h
      | ok code =>
        rw [hbody] at h
        cases h
        exact ⟨rfl, .inr ⟨rfl, entry, code, rfl, hbody, rfl⟩⟩

theorem body_of_source {signature : String} (h : job.source = .ok ⟨signature, some code⟩) :
    ∃ entry, job.method.entryNode? = some entry ∧ job.body entry = .ok code := by
  obtain ⟨-, ⟨-, hnone⟩ | ⟨-, entry, code', hentry, hbody, hcode⟩⟩ := source_eq_ok h
  · cases hnone
  · cases hcode
    exact ⟨entry, hentry, hbody⟩

theorem walks_of_body {entry : Node} (h : job.body entry = .ok code) :
    (entry.execOuts = [] ∧ code = .done) ∨
      ∃ counts, Walks job [entry.id] [] (.execOut entry.id 0) (entryScope entry) {} code counts := by
  unfold body at h
  by_cases he : entry.execOuts.isEmpty = true
  · simp only [he, if_true] at h
    cases h
    exact Or.inl ⟨List.isEmpty_iff.1 he, rfl⟩
  · simp only [he] at h
    obtain ⟨⟨code', counts⟩, hw, h₁⟩ := bind_eq_ok h
    cases h₁
    exact Or.inr ⟨counts, walks_of_walk hw⟩

end Job

end VisualScript
