import VisualScript.Proofs.Graph.Consistency
import VisualScript.Proofs.Source.Rows

/-!
# The names in a method

Besides the variables of its class, the source of a method names locals: parameters, temporaries and loop indices.
Their names are made up from numbers, each count going up by one from zero in the order of the text
(`Walks.temporaries`, `Walks.indices`), and nobody asks whether a variable has such a name already. A variable
that does is captured (`Captured`): where the source reads or assigns it, it means the local. So an assignment to
it can change what was taken for a fixed value.
-/

namespace VisualScript

/-! ### Names in the source -/

namespace Step

/-- The variable that a `read` or an `assign` is of. -/
def member? : Step → Option String
  | .read _ _ _ v | .assign _ v _ => some v
  | .callMethod .. | .callStatic .. => none

/-- The temporaries that the statement declares, for a `read` or for the results of a call. -/
def temporaries : Step → List String
  | .read _ _ name _ => [name]
  | s => s.results.map (·.2)

/-- What the `temporaries` of the statement hold, in the words of the graph `m`. -/
def hints (m : Method) : Step → List String
  | .read _ _ _ v => [v]
  | .callMethod n .. | .callStatic n .. => ((m.node? n).map fun node => node.dataOuts.map (·.name)).getD []
  | .assign .. => []

end Step

namespace Code

/-- Every `step` of all blocks, in the order of the text. -/
def allSteps : Code → List Step
  | .done | .ret .. | .again _ => []
  | .branch _ _ t => t.allSteps
  | .branchElse _ _ t e => t.allSteps ++ e.allSteps
  | .step s next => s :: next.allSteps
  | .loop _ _ _ _ body next => body.allSteps ++ next.allSteps

/-- The index of every `loop`, in the order of the text. -/
def indices : Code → List String
  | .done | .ret .. | .again _ => []
  | .branch _ _ t => t.indices
  | .branchElse _ _ t e => t.indices ++ e.indices
  | .step _ next => next.indices
  | .loop _ index _ _ body next => index :: (body.indices ++ next.indices)

def members (code : Code) : List String := code.allSteps.filterMap Step.member?

def temporaries (code : Code) : List String := code.allSteps.flatMap Step.temporaries

def hints (m : Method) (code : Code) : List String := code.allSteps.flatMap (Step.hints m)

theorem allSteps_steps (ss : List Step) (next : Code) : (steps ss next).allSteps = ss ++ next.allSteps := by
  induction ss with
  | nil => rfl
  | cons s ss ih => exact congrArg (s :: ·) ih

theorem indices_steps (ss : List Step) (next : Code) : (steps ss next).indices = next.indices := by
  induction ss with
  | nil => rfl
  | cons s ss ih => exact ih

end Code

/-- The `body` of a method. An abstract one has none, and then this is `done`. -/
def MethodSource.code (s : MethodSource) : Code := s.body.getD .done

namespace Method

/-- The parameters, with the names that they have in the source (`argumentName`). -/
def parameters (m : Method) : List (TypeSpec × String) := m.argumentTypes.mapIdx fun i t => (t, argumentName i)

theorem signature_parameters (m : Method) :
    m.signature = s!"{modifierText m.modifiers}{resultText m.returnTypes} " ++
      s!"{m.name}({Spelling.commas (m.parameters.map Step.resultName)})" := by
  have hparameters : m.parameters.map Step.resultName =
      m.argumentTypes.mapIdx fun i t => s!"{t.text} {argumentName i}" :=
    List.ext_getElem (by simp [parameters]) (by simp [parameters, Step.resultName])
  rw [hparameters]
  simp only [signature, String.append_assoc]

theorem mem_parameters {m : Method} {v : String} :
    v ∈ m.parameters.map (·.2) ↔ ∃ i < m.argumentTypes.length, v = argumentName i := by
  simp [parameters, List.mem_iff_getElem, eq_comm]

end Method

/-- The variable of a `getter` or a `setter`. -/
def Node.member? (n : Node) : Option String :=
  match n.kind with
  | .getter v | .setter v => some v.name
  | _ => none

/-- The variables that the graph names (`Node.member?`), on a path of control or not. -/
def Method.members (m : Method) : List String := m.nodes.filterMap Node.member?

/-- The names that the source of a method gives to its locals: parameters, `temporaries` and `indices`. -/
def Code.locals (m : Method) (code : Code) : List String :=
  m.parameters.map (·.2) ++ code.temporaries ++ code.indices

/-- The code reads or assigns a variable under a name `v` that it also gives to a local. -/
def Captured (m : Method) (code : Code) (v : String) : Prop := v ∈ code.members ∧ v ∈ code.locals m

instance (m : Method) (code : Code) (v : String) : Decidable (Captured m code v) :=
  inferInstanceAs (Decidable (_ ∧ _))

/-! ### Numbered names -/

namespace Config

variable {c : Config}

/-- Temporaries with consecutive numbers, from `first` on. -/
def tempNames (c : Config) (first : Nat) (hints : List String) : List String :=
  hints.mapIdx fun i hint => c.tempName (first + i) hint

/-- Loop indices with consecutive numbers, from `first` on. -/
def indexNames (c : Config) (first count : Nat) : List String := (List.range' first count).map c.indexName

theorem tempNames_append (first : Nat) (xs ys : List String) :
    c.tempNames first (xs ++ ys) = c.tempNames first xs ++ c.tempNames (first + xs.length) ys := by
  unfold tempNames
  rw [List.mapIdx_append]
  simp only [Nat.add_assoc, Nat.add_comm xs.length]

theorem indexNames_append (first m n : Nat) :
    c.indexNames first (m + n) = c.indexNames first m ++ c.indexNames (first + m) n := by
  unfold indexNames
  rw [← List.map_append, List.range'_append_1]

theorem mem_tempNames {hints : List String} {v : String} :
    v ∈ c.tempNames 0 hints ↔ ∃ k hint, hints[k]? = some hint ∧ v = c.tempName k hint := by
  simp only [tempNames, List.mem_mapIdx, Nat.zero_add, List.getElem?_eq_some_iff]
  constructor
  · rintro ⟨k, hk, rfl⟩
    exact ⟨k, hints[k], ⟨hk, rfl⟩, rfl⟩
  · rintro ⟨k, _, ⟨hk, rfl⟩, rfl⟩
    exact ⟨k, hk, rfl⟩

theorem mem_indexNames {count : Nat} {v : String} :
    v ∈ c.indexNames 0 count ↔ ∃ k < count, v = c.indexName k := by
  simp [indexNames, List.mem_range'_1, eq_comm]

end Config

/-- There is a decimal digit in `name`. -/
def HasDigit (name : String) : Prop := ∃ c ∈ name.toList, c.isDigit = true

instance : DecidablePred HasDigit := fun name =>
  decidable_of_iff (name.toList.any Char.isDigit = true) List.any_eq_true

theorem hasDigit_number (before : String) (k : Nat) (after : String) :
    HasDigit (before ++ toString k ++ after) := by
  obtain ⟨c, hc⟩ := List.exists_mem_of_ne_nil _ (Nat.toDigits_ne_nil : Nat.toDigits 10 k ≠ [])
  refine ⟨c, ?_, Nat.isDigit_of_mem_toDigits (by decide) (by decide) hc⟩
  simp [hc]

theorem hasDigit_argumentName (i : Nat) : HasDigit (argumentName i) := by
  have h := hasDigit_number "arg" i ""
  rwa [String.append_empty] at h

namespace Config

variable (c : Config) (k : Nat)

theorem hasDigit_indexName : HasDigit (c.indexName k) := by
  have h := hasDigit_number c.indexStem k ""
  rwa [String.append_empty] at h

theorem hasDigit_tempName (hint : String) : HasDigit (c.tempName k hint) := by
  have h := hasDigit_number c.tempStem k ("_" ++ Spelling.identifier hint)
  rwa [← String.append_assoc] at h

end Config

/-- The indices have the numbers from `k` up to `k'`. -/
structure Indexes (c : Config) (k : Nat) (indices : List String) (k' : Nat) : Prop where
  count : k' = k + indices.length
  names : indices = c.indexNames k indices.length

namespace Indexes

variable {c : Config} {k k₁ k' : Nat} {xs ys : List String}

theorem nil : Indexes c k [] k := ⟨rfl, rfl⟩

theorem single : Indexes c k [c.indexName k] (k + 1) := ⟨rfl, rfl⟩

theorem append (hx : Indexes c k xs k₁) (hy : Indexes c k₁ ys k') : Indexes c k (xs ++ ys) k' := by
  have hcount := hx.count
  constructor
  · rw [List.length_append, hy.count, hcount, Nat.add_assoc]
  · rw [List.length_append, Config.indexNames_append, ← hx.names, ← hcount, ← hy.names]

end Indexes

/-! ### Finding operands -/

theorem Method.mem_members {m : Method} {id : NodeId} {n : Node} {v : String} (hn : m.node? id = some n)
    (hv : n.member? = some v) : v ∈ m.members :=
  List.mem_filterMap.2 ⟨n, Method.mem_of_node? hn, hv⟩

/-- The temporaries of the statements have the numbers from `k` up to `k'`, and the graph has their variables. -/
structure Declares (job : Job) (k : Nat) (ss : List Step) (k' : Nat) : Prop where
  count : k' = k + (ss.flatMap (Step.hints job.method)).length
  names : ss.flatMap Step.temporaries = job.config.tempNames k (ss.flatMap (Step.hints job.method))
  members : ∀ s ∈ ss, ∀ v, s.member? = some v → v ∈ job.method.members

namespace Declares

variable {job : Job} {k k₁ k' : Nat} {xs ys : List Step} {node : Node}

theorem nil : Declares job k [] k := ⟨rfl, rfl, nofun⟩

theorem append (hx : Declares job k xs k₁) (hy : Declares job k₁ ys k') : Declares job k (xs ++ ys) k' := by
  have hcount := hx.count
  constructor
  · rw [List.flatMap_append, List.length_append, hy.count, hcount, Nat.add_assoc]
  · rw [List.flatMap_append, List.flatMap_append, Config.tempNames_append, hx.names, hy.names, hcount]
  · intro s hs
    rcases List.mem_append.1 hs with hs | hs
    · exact hx.members s hs
    · exact hy.members s hs

theorem single {s : Step} (htemps : s.temporaries = job.config.tempNames k (s.hints job.method))
    (hmember : ∀ v, s.member? = some v → v ∈ job.method.members) :
    Declares job k [s] (k + (s.hints job.method).length) := by
  constructor
  · rw [List.flatMap_singleton]
  · rw [List.flatMap_singleton, List.flatMap_singleton, htemps]
  · intro t ht
    rwa [List.mem_singleton.1 ht]

theorem read {v : VariableRef} {id : NodeId} (hn : job.method.node? id = some node) (hk : node.kind = .getter v)
    (type : TypeSpec) :
    Declares job k [.read node.id type (job.config.tempName k v.name) v.name] (k + 1) := by
  refine single rfl fun w hw => Method.mem_members hn ?_
  cases hw
  simp [Node.member?, hk]

theorem assign {v : VariableRef} (hn : job.method.node? node.id = some node) (hk : node.kind = .setter v)
    (value : String) : Declares job k [.assign node.id v.name value] k := by
  refine single rfl fun w hw => Method.mem_members hn ?_
  cases hw
  simp [Node.member?, hk]

theorem call {texts : List String} {s : Step} (hn : job.method.node? node.id = some node)
    (hs : node.callStep? (job.results node k) texts = some s) :
    Declares job k [s] (k + (job.results node k).length) := by
  have hparts : s.member? = none ∧ s.temporaries = (job.results node k).map (·.2) ∧
      s.hints job.method = node.dataOuts.map (·.name) := by
    unfold Node.callStep? at hs
    split at hs <;> cases hs <;> exact ⟨rfl, rfl, by simp [Step.hints, hn]⟩
  obtain ⟨hmember, htemps, hhints⟩ := hparts
  have hnames : (job.results node k).map (·.2) = job.config.tempNames k (node.dataOuts.map (·.name)) :=
    List.ext_getElem (by simp [Job.results, Config.tempNames]) (by simp [Job.results, Config.tempNames])
  have hlength : (job.results node k).length = (s.hints job.method).length := by simp [hhints, Job.results]
  rw [hlength]
  refine single (by rw [htemps, hnames, hhints]) fun v hv => ?_
  rw [hmember] at hv
  cases hv

end Declares

/-- `d'` adds statements to `d` whose temporaries are numbered. -/
def Draft.Continues (job : Job) (d d' : Draft) : Prop :=
  ∃ new, d'.steps = d.steps ++ new ∧ Declares job d.temps new d'.temps

namespace Draft.Continues

variable {job : Job} {d d₁ d' : Draft}

theorem refl (d : Draft) : Continues job d d := ⟨[], (List.append_nil _).symm, .nil⟩

theorem trans (h : Continues job d d₁) (h' : Continues job d₁ d') : Continues job d d' := by
  obtain ⟨xs, hxs, hx⟩ := h
  obtain ⟨ys, hys, hy⟩ := h'
  exact ⟨xs ++ ys, by rw [hys, hxs, List.append_assoc], hx.append hy⟩

end Draft.Continues

section Drafts

variable {job : Job}

mutual

theorem Resolves.continues : ∀ {pending : List NodeId} {node : Node} {slot : Nat} {d : Draft} {text : String}
    {d' : Draft}, Resolves job pending node slot d text d' → d.Continues job d'
  | _, _, _, _, _, _, .known .. => .refl _
  | _, _, _, _, _, _, .literal .. => .refl _
  | _, _, _, _, _, _, .read hs hv hk hn => by
    subst hn
    exact ⟨_, rfl, .read (Job.supply_eq_ok hs).1 hk _⟩
  | _, _, _, _, _, _, .pulled hs hv hk hp he hm hv' => hm.continues (Method.node?_id (Job.supply_eq_ok hs).1)

theorem ResolvesFrom.continues : ∀ {pending : List NodeId} {node : Node} {slot : Nat} {d : Draft}
    {texts : List String} {d' : Draft}, ResolvesFrom job pending node slot d texts d' → d.Continues job d'
  | _, _, _, _, _, _, .nil => .refl _
  | _, _, _, _, _, _, .cons h hs => h.continues.trans hs.continues

theorem Makes.continues : ∀ {pending : List NodeId} {node : Node} {d d' : Draft},
    Makes job pending node d d' → job.method.node? node.id = some node → d.Continues job d'
  | _, _, _, _, .call _ _ hr hs, hn => hr.continues.trans ⟨_, rfl, .call hn hs⟩
  | _, _, _, _, .assign hk hr, hn => hr.continues.trans ⟨_, rfl, .assign hn hk _⟩

end

end Drafts

/-! ### Following control -/

section Walks

variable {job : Job} {path loops : List NodeId} {pin : PinRef} {scope : Scope} {counts counts' : Counts}
  {code : Code}

theorem Draft.Continues.declares {d : Draft} (h : (scope.draft counts).Continues job d) :
    Declares job counts.temps d.steps d.temps := by
  obtain ⟨new, hsteps, hnew⟩ := h
  rw [hsteps]
  exact hnew

/-- Temporaries are numbered in the order of the text, through all blocks. -/
theorem Walks.temporaries (h : Walks job path loops pin scope counts code counts') :
    Declares job counts.temps code.allSteps counts'.temps := by
  induction h with
  | stop hf => exact .nil
  | again hf hp hl => exact .nil
  | ret hf hp hk hl hr =>
    rw [Code.allSteps_steps]
    exact hr.continues.declares.append .nil
  | skip hf hp hk he h ih => exact ih
  | make hf hp hk he hm h ih =>
    rw [Code.allSteps_steps]
    exact (hm.continues (Job.node?_of_follow hf)).declares.append ih
  | branch hf hp hk hr he h ih =>
    rw [Code.allSteps_steps]
    exact hr.continues.declares.append ih
  | branchElse hf hp hk hr he ht hn iht ihn =>
    -- the second block goes on with the numbers that the first one has left
    rw [Code.allSteps_steps]
    exact hr.continues.declares.append (iht.append ihn)
  | loop hf hp hk hr hb hn ihb ihn =>
    rw [Code.allSteps_steps]
    exact hr.continues.declares.append (ihb.append ihn)

theorem Walks.indices (h : Walks job path loops pin scope counts code counts') :
    Indexes job.config counts.loops code.indices counts'.loops := by
  induction h with
  | stop hf => exact .nil
  | again hf hp hl => exact .nil
  | ret hf hp hk hl hr =>
    rw [Code.indices_steps]
    exact .nil
  | skip hf hp hk he h ih => exact ih
  | make hf hp hk he hm h ih =>
    rw [Code.indices_steps]
    exact ih
  | branch hf hp hk hr he h ih =>
    rw [Code.indices_steps]
    exact ih
  | branchElse hf hp hk hr he ht hn iht ihn =>
    rw [Code.indices_steps]
    exact iht.append ihn
  | loop hf hp hk hr hb hn ihb ihn =>
    -- the loop takes its number before its body, and what follows goes on after both
    rw [Code.indices_steps]
    exact Indexes.single.append (ihb.append ihn)

end Walks

/-! ### Whole methods -/

namespace Job

variable {job : Job} {source : MethodSource}

theorem names_of_source (h : job.source = .ok source) :
    (∃ k, Declares job 0 source.code.allSteps k) ∧ ∃ k, Indexes job.config 0 source.code.indices k := by
  obtain ⟨signature, body⟩ := source
  obtain ⟨-, ⟨-, rfl⟩ | ⟨-, entry, code, -, hbody, rfl⟩⟩ := source_eq_ok h
  · exact ⟨⟨0, .nil⟩, 0, .nil⟩
  · rcases walks_of_body hbody with ⟨-, rfl⟩ | ⟨counts, hwalk⟩
    · exact ⟨⟨0, .nil⟩, 0, .nil⟩
    · exact ⟨⟨_, hwalk.temporaries⟩, _, hwalk.indices⟩

theorem temporaries_of_source (h : job.source = .ok source) :
    source.code.temporaries = job.config.tempNames 0 (source.code.hints job.method) := by
  obtain ⟨⟨_, htemps⟩, -⟩ := names_of_source h
  exact htemps.names

theorem indices_of_source (h : job.source = .ok source) :
    source.code.indices = job.config.indexNames 0 source.code.indices.length := by
  obtain ⟨-, _, hindices⟩ := names_of_source h
  exact hindices.names

theorem mem_temporaries (h : job.source = .ok source) {v : String} : v ∈ source.code.temporaries ↔
    ∃ k hint, (source.code.hints job.method)[k]? = some hint ∧ v = job.config.tempName k hint := by
  rw [temporaries_of_source h, Config.mem_tempNames]

theorem mem_indices (h : job.source = .ok source) {v : String} :
    v ∈ source.code.indices ↔ ∃ k < source.code.indices.length, v = job.config.indexName k := by
  rw [← Config.mem_indexNames, ← indices_of_source h]

theorem mem_locals (h : job.source = .ok source) {v : String} :
    v ∈ source.code.locals job.method ↔
      (∃ i < job.method.argumentTypes.length, v = argumentName i) ∨
        (∃ k hint, (source.code.hints job.method)[k]? = some hint ∧ v = job.config.tempName k hint) ∨
        ∃ k < source.code.indices.length, v = job.config.indexName k := by
  unfold Code.locals
  rw [List.mem_append, List.mem_append, or_assoc, Method.mem_parameters, mem_temporaries h, mem_indices h]

theorem hasDigit_of_mem_locals (h : job.source = .ok source) {v : String}
    (hv : v ∈ source.code.locals job.method) : HasDigit v := by
  rcases (mem_locals h).1 hv with ⟨i, -, rfl⟩ | ⟨k, hint, -, rfl⟩ | ⟨k, -, rfl⟩
  · exact hasDigit_argumentName i
  · exact job.config.hasDigit_tempName k hint
  · exact job.config.hasDigit_indexName k

/-- The source mentions only variables that the graph names (`Method.members`). -/
theorem mem_members_of_source (h : job.source = .ok source) {v : String} (hv : v ∈ source.code.members) :
    v ∈ job.method.members := by
  obtain ⟨⟨_, htemps⟩, -⟩ := names_of_source h
  obtain ⟨s, hs, hsv⟩ := List.mem_filterMap.1 hv
  exact htemps.members s hs v hsv

/-- The signature declares the parameters. A name is `Captured` just if the source mentions a variable of that
name and it is the name of a parameter, of the temporary with some number, or of the index with some number. In
particular it is a variable that the graph names, and there is a digit in it. -/
theorem captured_iff (h : job.source = .ok source) :
    (source.signature =
      s!"{Method.modifierText job.method.modifiers}{Method.resultText job.method.returnTypes} " ++
        s!"{job.method.name}({Spelling.commas (job.method.parameters.map Step.resultName)})") ∧
      ∀ v, (Captured job.method source.code v ↔ v ∈ source.code.members ∧
          ((∃ i < job.method.argumentTypes.length, v = argumentName i) ∨
            (∃ k hint, (source.code.hints job.method)[k]? = some hint ∧ v = job.config.tempName k hint) ∨
            ∃ k < source.code.indices.length, v = job.config.indexName k)) ∧
        (Captured job.method source.code v → v ∈ job.method.members ∧ HasDigit v) := by
  refine ⟨(source_eq_ok h).1.trans job.method.signature_parameters, fun v => ⟨?_, ?_⟩⟩
  · exact and_congr_right fun _ => mem_locals h
  · rintro ⟨hmember, hlocal⟩
    exact ⟨mem_members_of_source h hmember, hasDigit_of_mem_locals h hlocal⟩

end Job

/-- A loop that assigns `x` to two other variables, which are called as its temporary and its index are. -/
def shadowing : Job where
  method := (Method.make "main" [] []).run (.ofPairs [])
    [.addNode (.literal "0" .int) {}, .addNode .forLoop {}, .addNode (.getter ⟨"x", .int⟩) {},
      .addNode (.setter ⟨"temp0_x", .int⟩) {}, .addNode (.setter ⟨"i0", .int⟩) {},
      .connect (.execOut 0 0) (.execIn 2 0), .connect (.execOut 2 0) (.execIn 4 0),
      .connect (.execOut 4 0) (.execIn 5 0), .connect (.dataOut 1 0) (.dataIn 2 0),
      .connect (.dataOut 1 0) (.dataIn 2 1), .connect (.dataOut 3 0) (.dataIn 4 0),
      .connect (.dataOut 3 0) (.dataIn 5 0)]
  catalog := .ofPairs []
  config := {}

def shadowingCode : Code :=
  .loop 2 "i0" "0" "0"
    (.step (.read 3 .int "temp0_x" "x")
      (.step (.assign 4 "temp0_x" "temp0_x") (.step (.assign 5 "i0" "temp0_x") .done))) .done

theorem Job.captured_iff_shadowing :
    shadowing.source = .ok ⟨"public void main()", some shadowingCode⟩ ∧
      Captured shadowing.method shadowingCode "temp0_x" ∧ Captured shadowing.method shadowingCode "i0" ∧
      "x" ∈ shadowingCode.members ∧ ¬ Captured shadowing.method shadowingCode "x" := by
  have hs : shadowing.source = .ok ⟨"public void main()", some shadowingCode⟩ := by decide +kernel
  have hcaptured := (Job.captured_iff hs).2
  refine ⟨hs, (hcaptured "temp0_x").1.2 ⟨by decide +kernel, ?_⟩, (hcaptured "i0").1.2 ⟨by decide +kernel, ?_⟩,
    by decide +kernel, ?_⟩
  · exact .inr (.inl ⟨0, "x", by decide +kernel, by decide +kernel⟩)
  · exact .inr (.inr ⟨0, by decide +kernel, by decide +kernel⟩)
  · intro hx
    exact absurd ((hcaptured "x").2 hx).2 (by decide +kernel)

/-- Assigns its parameter to `a`, a number to `arg0`, and what was assigned to `a` to `b`. -/
def mirroring : Job where
  method := (Method.make "Mirror" [.int] []).run (.ofPairs [])
    [.addNode (.setter ⟨"a", .int⟩) {}, .addNode (.setter ⟨"arg0", .int⟩) {}, .addNode (.setter ⟨"b", .int⟩) {},
      .addNode (.literal "7" .int) {}, .connect (.execOut 0 0) (.execIn 1 0),
      .connect (.execOut 1 0) (.execIn 2 0), .connect (.execOut 2 0) (.execIn 3 0),
      .connect (.dataOut 0 0) (.dataIn 1 0), .connect (.dataOut 4 0) (.dataIn 2 0),
      .connect (.dataOut 1 0) (.dataIn 3 0)]
  catalog := .ofPairs []
  config := {}

/-- The number ends up in `b`. -/
def mirroringCode : Code :=
  .step (.assign 1 "a" "arg0") (.step (.assign 2 "arg0" "7") (.step (.assign 3 "b" "arg0") .done))

theorem Job.captured_mirroring :
    mirroring.source = .ok ⟨"public void Mirror(System.Int32 arg0)", some mirroringCode⟩ ∧
      Captured mirroring.method mirroringCode "arg0" := by
  decide +kernel

end VisualScript
