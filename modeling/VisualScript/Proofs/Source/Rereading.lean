import VisualScript.Proofs.Source.Built

/-!
# Variables are read anew in time

What a getter reads is kept in a temporary, and the temporary is used again as long as it can be relied on. Here
that is said of the source alone, with the statements that the path to a point passes in place of the scopes that
writing works with.

* `Fresh`: a read is the latest one of its getter on the path, and since then the variable was not assigned and
  the path went neither into the body of a loop nor past a loop.
* `Reread` is the rule for one input: a fresh read is used again, and without one the variable is read.
* `Operand`, `Operands`, `Stated` and `Rereads` take the source apart into what each input, each statement and each
  block has written. `Method.rereads_of_source` finds the rule kept all over the source.

A scope knows the outputs of those getters that have a fresh read (`Recalls`), and each step of writing keeps it
so.
-/

namespace VisualScript

/-- The node that feeds the input at `slot`. -/
def Method.source? (m : Method) (node : Node) (slot : Nat) : Option Node := do
  let pin ← node.dataIns[slot]?
  let source ← pin.incoming
  m.node? source.node

namespace Reading

/-! ### Paths -/

/-- What a path through the source passes. -/
inductive Mark where
  | step (s : Step)
  /-- The head of a loop, from where the path goes into the body or past the loop. -/
  | loop

/-- From here on, what the getter `g` of the variable `x` has read before is not used any more. -/
def Mark.Ends (g : NodeId) (x : String) : Mark → Prop
  | .loop => True
  | .step (.assign _ y _) => y = x
  | .step (.read n ..) => n = g
  | .step (.callMethod ..) | .step (.callStatic ..) => False

/-- On a path, the latest mark first, the getter `g` has read the variable `x` into `t`, and nothing has ended
that. -/
def Fresh (path : List Mark) (g : NodeId) (x t : String) : Prop :=
  ∃ after type before, path = after ++ .step (.read g type t x) :: before ∧ ∀ mark ∈ after, ¬ mark.Ends g x

/-- The `path` with the steps `ss` after it. -/
def pass (path : List Mark) (ss : List Step) : List Mark := (ss.map .step).reverse ++ path

/-- The statement of the node `id` is on the path. -/
def Made (path : List Mark) (id : NodeId) : Prop := ∃ s, Mark.step s ∈ path ∧ s.isStatement = true ∧ s.node = id

/-! ### The rule -/

/-- An input that the getter `g` of the variable `x` feeds gets its `text`, by way of the steps `ss`. -/
structure Reread (path : List Mark) (g : NodeId) (x text : String) (ss : List Step) : Prop where
  again : ∀ t, Fresh path g x t → text = t ∧ ss = []
  anew : (∀ t, ¬ Fresh path g x t) → ∃ type, ss = [.read g type text x]
  /-- Either way it is read after all assignments on the path, and within the innermost loop. -/
  fresh : Fresh (pass path ss) g x text

mutual

/-- The input at a slot gets its text at the end of a path, by way of some steps; if a getter feeds it, by the rule
`Reread`. -/
inductive Operand (m : Method) : List Mark → Node → Nat → String → List Step → Prop
  | getter {path : List Mark} {node g : Node} {slot : Nat} {v : VariableRef} {text : String} {ss : List Step}
      (hf : m.source? node slot = some g) (hk : g.kind = .getter v) (h : Reread path g.id v.name text ss) :
      Operand m path node slot text ss
  /-- A literal, or a value that has a name on the path. -/
  | named {path : List Mark} {node n : Node} {slot : Nat} {text : String}
      (hf : m.source? node slot = some n) (hk : ∀ v, n.kind ≠ .getter v)
      (hm : n.kind.isStatement = true → Made path n.id) : Operand m path node slot text []
  | pulled {path : List Mark} {node n : Node} {slot : Nat} {text : String} {ss : List Step}
      (hf : m.source? node slot = some n) (hk : n.kind.isStatement = true) (hn : ¬ Made path n.id)
      (h : Stated m path n ss) : Operand m path node slot text ss

/-- The inputs from a slot on get their texts in turn, each an `Operand` at the end of the path so far. -/
inductive Operands (m : Method) : List Mark → Node → Nat → List String → List Step → Prop
  | nil {path : List Mark} {node : Node} {slot : Nat} : Operands m path node slot [] []
  | cons {path : List Mark} {node : Node} {slot : Nat} {text : String} {texts : List String} {ss ss' : List Step}
      (h : Operand m path node slot text ss) (hs : Operands m (pass path ss) node (slot + 1) texts ss') :
      Operands m path node slot (text :: texts) (ss ++ ss')

/-- The statement of a node is made, after the steps of all its `Operands`. -/
inductive Stated (m : Method) : List Mark → Node → List Step → Prop
  | intro {path : List Mark} {node : Node} {texts : List String} {ss : List Step} {s : Step}
      (h : Operands m path node 0 texts ss) (hl : texts.length = node.dataIns.length) (hk : s.isStatement = true)
      (hn : s.node = node.id) (hu : s.uses = Use.ofTexts node.id texts) : Stated m path node (ss ++ [s])

end

/-- The code from an exec output on, at the end of a path, with the rule `Reread` kept all over it. -/
inductive Rereads (m : Method) : List Mark → PinRef → Code → Prop
  | stop {path : List Mark} {pin : PinRef} (hf : m.next? pin = none) : Rereads m path pin .done
  | again {path : List Mark} {pin : PinRef} {node : Node} (hf : m.next? pin = some node) :
      Rereads m path pin (.again node.id)
  | ret {path : List Mark} {pin : PinRef} {node : Node} {values : List String} {ss : List Step}
      (hf : m.next? pin = some node) (h : Operands m path node 0 values ss)
      (hl : values.length = node.dataIns.length) : Rereads m path pin (.steps ss (.ret node.id values))
  /-- The statement is there already, since another one wanted its value. -/
  | skip {path : List Mark} {pin : PinRef} {node : Node} {code : Code} (hf : m.next? pin = some node)
      (hm : Made path node.id) (h : Rereads m path (.execOut node.id 0) code) : Rereads m path pin code
  | make {path : List Mark} {pin : PinRef} {node : Node} {ss : List Step} {code : Code}
      (hf : m.next? pin = some node) (hm : ¬ Made path node.id) (hs : Stated m path node ss)
      (h : Rereads m (pass path ss) (.execOut node.id 0) code) : Rereads m path pin (.steps ss code)
  | branch {path : List Mark} {pin : PinRef} {node : Node} {condition : String} {ss : List Step} {code : Code}
      (hf : m.next? pin = some node) (hc : Operands m path node 0 [condition] ss)
      (h : Rereads m (pass path ss) (.execOut node.id thenSlot) code) :
      Rereads m path pin (.steps ss (.branch node.id condition code))
  | branchElse {path : List Mark} {pin : PinRef} {node : Node} {condition : String} {ss : List Step}
      {whenTrue whenFalse : Code} (hf : m.next? pin = some node) (hc : Operands m path node 0 [condition] ss)
      (ht : Rereads m (pass path ss) (.execOut node.id thenSlot) whenTrue)
      (he : Rereads m (pass path ss) (.execOut node.id elseSlot) whenFalse) :
      Rereads m path pin (.steps ss (.branchElse node.id condition whenTrue whenFalse))
  | loop {path : List Mark} {pin : PinRef} {node : Node} {index initial limit : String} {ss : List Step}
      {body next : Code} (hf : m.next? pin = some node) (hb : Operands m path node 0 [initial, limit] ss)
      (h : Rereads m (.loop :: pass path ss) (.execOut node.id bodySlot) body)
      (hn : Rereads m (.loop :: pass path ss) (.execOut node.id completedSlot) next) :
      Rereads m path pin (.steps ss (.loop node.id index initial limit body next))

section Paths

variable {path : List Mark} {mark : Mark} {g id : NodeId} {x t : String}

theorem pass_append (path : List Mark) (xs ys : List Step) : pass path (xs ++ ys) = pass (pass path xs) ys := by
  simp [pass]

theorem not_fresh_nil : ¬ Fresh [] g x t := by
  rintro ⟨after, type, before, heq, -⟩
  simp at heq

/-- A mark on the path is a read that is fresh, or it leaves fresh reads as they are, or it ends them. -/
theorem fresh_cons :
    Fresh (mark :: path) g x t ↔
      (∃ type, mark = .step (.read g type t x)) ∨ ¬ mark.Ends g x ∧ Fresh path g x t := by
  constructor
  · rintro ⟨after, type, before, heq, hall⟩
    -- the read is the mark itself, or it is further back
    rcases List.cons_eq_append_iff.1 heq with ⟨rfl, hcons⟩ | ⟨rest, rfl, rfl⟩
    · exact Or.inl ⟨type, (List.cons.inj hcons).1.symm⟩
    · exact Or.inr ⟨hall mark List.mem_cons_self, rest, type, before, rfl,
        fun k hk => hall k (List.mem_cons_of_mem _ hk)⟩
  · rintro (⟨type, rfl⟩ | ⟨hmark, after, type, before, rfl, hall⟩)
    · exact ⟨[], type, path, rfl, fun _ h => absurd h List.not_mem_nil⟩
    · refine ⟨mark :: after, type, before, rfl, fun k hk => ?_⟩
      rcases List.mem_cons.1 hk with rfl | hk
      · exact hmark
      · exact hall k hk

theorem made_cons :
    Made (mark :: path) id ↔ (∃ s, mark = .step s ∧ s.isStatement = true ∧ s.node = id) ∨ Made path id := by
  unfold Made
  constructor
  · rintro ⟨s, hs, h⟩
    rcases List.mem_cons.1 hs with hs | hs
    · exact Or.inl ⟨s, hs.symm, h⟩
    · exact Or.inr ⟨s, hs, h⟩
  · rintro (⟨s, rfl, h⟩ | ⟨s, hs, h⟩)
    · exact ⟨s, List.mem_cons_self, h⟩
    · exact ⟨s, List.mem_cons_of_mem _ hs, h⟩

theorem fresh_read {n : NodeId} {type : TypeSpec} {name y : String} :
    Fresh (.step (.read n type name y) :: path) g x t ↔ n = g ∧ name = t ∧ y = x ∨ n ≠ g ∧ Fresh path g x t := by
  simp [fresh_cons, Mark.Ends]

theorem fresh_assign {n : NodeId} {y value : String} :
    Fresh (.step (.assign n y value) :: path) g x t ↔ y ≠ x ∧ Fresh path g x t := by
  simp [fresh_cons, Mark.Ends]

theorem fresh_call {node : Node} {results : List (TypeSpec × String)} {texts : List String} {s : Step}
    (hs : node.callStep? results texts = some s) : Fresh (.step s :: path) g x t ↔ Fresh path g x t := by
  unfold Node.callStep? at hs
  split at hs <;> cases hs <;> simp [fresh_cons, Mark.Ends]

theorem not_fresh_loop : ¬ Fresh (.loop :: path) g x t := by
  simp [fresh_cons, Mark.Ends]

end Paths

end Reading

/-! ### Scopes -/

namespace Scope

variable {m : Method} {s : Scope} {p q : PinRef} {text : String}

theorem value?_bind : (s.bind p text).value? q = if p = q then some text else s.value? q := by
  unfold value? bind
  rw [List.find?_cons]
  by_cases h : p = q
  · simp [h]
  · simp [h]

theorem value?_forget (which : String → Bool) :
    (s.forget m which).value? p = if reads m which p then none else s.value? p := by
  unfold value? forget
  rw [List.find?_filter]
  cases h : reads m which p with
  | true =>
    rw [if_pos rfl, Option.map_eq_none_iff, List.find?_eq_none]
    intro v _ hv
    obtain ⟨hreads, rfl⟩ : reads m which v.1 = false ∧ v.1 = p := by simpa using hv
    rw [h] at hreads
    cases hreads
  | false =>
    rw [if_neg Bool.false_ne_true]
    congr 2
    funext v
    by_cases hv : v.1 = p
    · simp [hv, h]
    · simp [hv]

/-- Outputs of other nodes than the `node` keep their texts. -/
theorem value?_named {node : NodeId} {results : List (TypeSpec × String)} (h : p.node ≠ node) :
    (s.named node results).value? p = s.value? p := by
  unfold value? named
  rw [List.find?_append, List.find?_eq_none.2, Option.none_or]
  intro v hv hp
  obtain ⟨i, hi, rfl⟩ := List.mem_mapIdx.1 (List.mem_reverse.1 hv)
  exact h (by rw [← of_decide_eq_true hp]; rfl)

/-- Of the only output of a getter, `reads` asks for the name of the variable. -/
theorem reads_getter {g : Node} {v : VariableRef} (hg : m.node? g.id = some g) (hk : g.kind = .getter v)
    (which : String → Bool) : reads m which (.dataOut g.id 0) = which v.name := by
  unfold reads
  rw [show (PinRef.dataOut g.id 0).node = g.id from rfl, hg]
  simp [hk]

end Scope

open Reading

/-- A scope knows just the `Fresh` reads of the path, the statements that are `Made` on it, and only values of such
statements. -/
structure Scope.Recalls (m : Method) (scope : Scope) (path : List Mark) : Prop where
  reads : ∀ g v, m.node? g.id = some g → g.kind = .getter v →
    ∀ t, scope.value? (.dataOut g.id 0) = some t ↔ Fresh path g.id v.name t
  made : ∀ id, id ∈ scope.emitted ↔ Made path id
  valued : ∀ v ∈ scope.values, ∀ n, m.node? v.1.node = some n → n.kind.isStatement = true → n.id ∈ scope.emitted

namespace Scope.Recalls

variable {m : Method} {scope scope' : Scope} {path : List Mark} {node : Node}

theorem of_value? (h : scope.Recalls m path) {p : PinRef} {text : String} (hv : scope.value? p = some text)
    (hn : m.node? p.node = some node) (hk : node.kind.isStatement = true) : Made path node.id := by
  obtain ⟨v, hfind, -⟩ := Option.map_eq_some_iff.1 hv
  have hp : v.1 = p := by simpa using List.find?_some hfind
  exact (h.made _).1 (h.valued v (List.mem_of_find?_eq_some hfind) node (hp ▸ hn) hk)

/-- To `bind` an output that is neither a getter's nor a statement's is no mark on the path. -/
theorem bind (h : scope.Recalls m path) (hn : m.node? node.id = some node) (hg : ∀ v, node.kind ≠ .getter v)
    (hk : node.kind.isStatement = false) (slot : Nat) (text : String) :
    (scope.bind (.dataOut node.id slot) text).Recalls m path where
  reads g v hg' hkg t := by
    have hne : PinRef.dataOut node.id slot ≠ .dataOut g.id 0 := by
      intro heq
      have hid : node.id = g.id := congrArg PinRef.node heq
      rw [hid, hg'] at hn
      cases hn
      exact hg v hkg
    rw [value?_bind, if_neg hne]
    exact h.reads g v hg' hkg t
  made := h.made
  valued v hv n hvn hkn := by
    rcases List.mem_cons.1 hv with rfl | hv
    · rw [show m.node? node.id = some n from hvn] at hn
      cases hn
      rw [hk] at hkn
      cases hkn
    · exact h.valued v hv n hvn hkn

theorem read (h : scope.Recalls m path) (hn : m.node? node.id = some node) {v : VariableRef}
    (hk : node.kind = .getter v) (type : TypeSpec) (name : String) :
    (scope.bind (.dataOut node.id 0) name).Recalls m (.step (.read node.id type name v.name) :: path) where
  reads g w hg hkg t := by
    rw [value?_bind, fresh_read]
    by_cases hid : node.id = g.id
    · -- the same getter, and so the same variable
      rw [hid, hg] at hn
      cases hn
      rw [hk] at hkg
      cases hkg
      simp
    · have hne : PinRef.dataOut node.id 0 ≠ .dataOut g.id 0 := fun heq => hid (congrArg PinRef.node heq)
      rw [if_neg hne, h.reads g w hg hkg t]
      simp [hid]
  made id := by
    rw [made_cons]
    exact (h.made id).trans (or_iff_right (by rintro ⟨s, hs, hk, -⟩; cases hs; cases hk)).symm
  valued u hu n hun hkn := by
    rcases List.mem_cons.1 hu with rfl | hu
    · rw [show m.node? node.id = some n from hun] at hn
      cases hn
      rw [hk] at hkn
      cases hkn
    · exact h.valued u hu n hun hkn

/-- The statement `s` of `node` is made and marked. -/
theorem statement {s : Step} (h : scope.Recalls m path) (hs : s.isStatement = true) (hnode : s.node = node.id)
    (hemitted : scope'.emitted = node.id :: scope.emitted)
    (hvalues : ∀ v ∈ scope'.values, v ∈ scope.values ∨ v.1.node = node.id)
    (hreads : ∀ g v, m.node? g.id = some g → g.kind = .getter v →
      ∀ t, scope'.value? (.dataOut g.id 0) = some t ↔ Fresh (.step s :: path) g.id v.name t) :
    scope'.Recalls m (.step s :: path) where
  reads := hreads
  made id := by
    rw [hemitted, List.mem_cons, h.made, made_cons]
    refine or_congr_left ⟨?_, ?_⟩
    · rintro rfl
      exact ⟨s, rfl, hs, hnode⟩
    · rintro ⟨s', heq, -, rfl⟩
      cases heq
      exact hnode
  valued v hv n hvn hkn := by
    rw [hemitted]
    rcases hvalues v hv with hv | hv
    · exact List.mem_cons_of_mem _ (h.valued v hv n hvn hkn)
    · rw [Method.id_of_node? hvn, hv]
      exact List.mem_cons_self

theorem forgetAll (h : scope.Recalls m path) : (scope.forgetAll m).Recalls m (.loop :: path) where
  reads g v hg hk t := by
    unfold Scope.forgetAll
    rw [value?_forget, reads_getter hg hk]
    simp [not_fresh_loop]
  made id := by
    rw [made_cons]
    exact (h.made id).trans (or_iff_right (by rintro ⟨s, hs, -⟩; cases hs)).symm
  valued v hv := h.valued v (List.mem_of_mem_filter hv)

end Scope.Recalls

/-! ### Finding operands -/

section Drafts

variable {job : Job} {path : List Mark}

theorem Job.source?_of_supply {node : Node} {slot : Nat} {s : Supply} (hs : job.supply node slot = .ok s) :
    job.method.source? node slot = some s.producer := by
  obtain ⟨hproducer, -, pin, hpin, hsource⟩ := supply_eq_ok hs
  simp [Method.source?, hpin, hsource, hproducer]

/-- A getter has one output only, so the `source` of what it supplies is that. -/
theorem Job.source_eq_of_getter (hm : job.method.Mirrored) (hpins : job.method.HasPins) {node : Node} {slot : Nat}
    {s : Supply} {v : VariableRef} (hn : job.method.node? node.id = some node) (hs : job.supply node slot = .ok s)
    (hk : s.producer.kind = .getter v) : s.source = .dataOut s.producer.id 0 := by
  obtain ⟨hproducer, hproduced, -⟩ := supply_eq_ok hs
  have hkind : s.source.kind = .dataOut := (Method.pin?_eq_some_iff.1 (hm.pin?_of_supply hn hs)).1
  have hid : s.producer.id = s.source.node := Method.id_of_node? hproducer
  have hslot : s.source.slot < s.producer.dataOuts.length := (List.getElem?_eq_some_iff.1 hproduced).1
  rw [hpins.length_dataOuts hproducer, hk] at hslot
  have hzero : s.source.slot = 0 := Nat.lt_one_iff.1 hslot
  rw [PinRef.dataOut, hid, ← hkind, ← hzero]

/-- A getter is read where the scope knows nothing of it, and so nothing is `Fresh`. -/
theorem Reading.Reread.of_read {scope : Scope} {g : Node} {v : VariableRef} (h : scope.Recalls job.method path)
    (hg : job.method.node? g.id = some g) (hk : g.kind = .getter v) (hv : scope.value? (.dataOut g.id 0) = none)
    (type : TypeSpec) (name : String) : Reread path g.id v.name name [.read g.id type name v.name] where
  again t ht := by
    rw [(h.reads g v hg hk t).2 ht] at hv
    cases hv
  anew _ := ⟨type, rfl⟩
  fresh := fresh_read.2 (Or.inl ⟨rfl, rfl, rfl⟩)

theorem Reading.Reread.of_known {scope : Scope} {g : Node} {v : VariableRef} {text : String}
    (h : scope.Recalls job.method path) (hg : job.method.node? g.id = some g) (hk : g.kind = .getter v)
    (hv : scope.value? (.dataOut g.id 0) = some text) : Reread path g.id v.name text [] where
  again t ht := by
    rw [(h.reads g v hg hk t).2 ht] at hv
    exact ⟨(Option.some.inj hv).symm, rfl⟩
  anew hnone := absurd ((h.reads g v hg hk text).1 hv) (hnone text)
  fresh := (h.reads g v hg hk text).1 hv

mutual

/-- One operand is found by the rule `Reread` or by a statement, and the scope `Recalls` the path with its
steps. -/
theorem Resolves.reads (hm : job.method.Mirrored) (hpins : job.method.HasPins) :
    ∀ {pending : List NodeId} {node : Node} {slot : Nat} {d : Draft} {text : String} {d' : Draft}
      {path : List Mark}, Resolves job pending node slot d text d' → job.method.node? node.id = some node →
        d.scope.Recalls job.method path → ∃ ss, d'.steps = d.steps ++ ss ∧
          Operand job.method path node slot text ss ∧ d'.scope.Recalls job.method (pass path ss)
  | _, node, slot, d, text, _, path, @Resolves.known _ _ _ _ _ s _ hs hv, hn, hd => by
    have hproducer := (Job.supply_eq_ok hs).1
    -- what is known of a getter is a fresh read of it
    refine ⟨[], (List.append_nil _).symm, ?_, hd⟩
    by_cases hk : ∃ v, s.producer.kind = .getter v
    · obtain ⟨v, hk⟩ := hk
      rw [Job.source_eq_of_getter hm hpins hn hs hk] at hv
      exact .getter (Job.source?_of_supply hs) hk (.of_known hd (Method.node?_id hproducer) hk hv)
    · exact .named (Job.source?_of_supply hs) (fun v hv => hk ⟨v, hv⟩) (hd.of_value? hv hproducer)
  | _, node, slot, d, _, _, path, @Resolves.literal _ _ _ _ _ s _ _ hs _ hk, _, hd => by
    refine ⟨[], (List.append_nil _).symm, .named (Job.source?_of_supply hs) ?_ ?_, hd⟩
    · intro v hv
      rw [hk] at hv
      cases hv
    · intro hstatement
      rw [hk] at hstatement
      cases hstatement
  | _, node, slot, d, _, _, path, @Resolves.read _ _ _ _ _ s v name hs hv hk _, hn, hd => by
    have hproducer := Method.node?_id (Job.supply_eq_ok hs).1
    have hsource := Job.source_eq_of_getter hm hpins hn hs hk
    rw [hsource] at hv
    refine ⟨[.read s.producer.id s.produced.type name v.name], rfl, ?_, ?_⟩
    · exact .getter (Job.source?_of_supply hs) hk (.of_read hd hproducer hk hv _ _)
    · show (d.scope.bind s.source name).Recalls job.method _
      rw [hsource]
      exact hd.read hproducer hk _ _
  | _, node, slot, d, _, _, path, @Resolves.pulled _ _ _ _ _ _ s _ hs _ hk _ he hmakes _, _, hd => by
    obtain ⟨ss, hsteps, hstated, hd'⟩ := hmakes.reads hm hpins (Method.node?_id (Job.supply_eq_ok hs).1) hd
    exact ⟨ss, hsteps, .pulled (Job.source?_of_supply hs) hk (fun h => he ((hd.made _).2 h)) hstated, hd'⟩

theorem ResolvesFrom.reads (hm : job.method.Mirrored) (hpins : job.method.HasPins) :
    ∀ {pending : List NodeId} {node : Node} {slot : Nat} {d : Draft} {texts : List String} {d' : Draft}
      {path : List Mark}, ResolvesFrom job pending node slot d texts d' → job.method.node? node.id = some node →
        d.scope.Recalls job.method path → ∃ ss, d'.steps = d.steps ++ ss ∧
          Operands job.method path node slot texts ss ∧ d'.scope.Recalls job.method (pass path ss)
  | _, _, _, _, _, _, _, .nil, _, hd => ⟨[], (List.append_nil _).symm, .nil, hd⟩
  | _, _, _, _, _, _, path, .cons h hs, hn, hd => by
    obtain ⟨ss, hsteps, hop, hd₁⟩ := h.reads hm hpins hn hd
    obtain ⟨ss', hsteps', hops, hd'⟩ := hs.reads hm hpins hn hd₁
    refine ⟨ss ++ ss', by rw [hsteps', hsteps, List.append_assoc], .cons hop hops, ?_⟩
    rw [pass_append]
    exact hd'

theorem Makes.reads (hm : job.method.Mirrored) (hpins : job.method.HasPins) :
    ∀ {pending : List NodeId} {node : Node} {d d' : Draft} {path : List Mark}, Makes job pending node d d' →
      job.method.node? node.id = some node → d.scope.Recalls job.method path →
        ∃ ss, d'.steps = d.steps ++ ss ∧ Stated job.method path node ss ∧
          d'.scope.Recalls job.method (pass path ss)
  | _, node, d, _, path, @Makes.call _ _ _ _ d₁ texts s hk hl hr hs, hn, hd => by
    obtain ⟨ss, hsteps, hops, hd₁⟩ := hr.reads hm hpins hn hd
    obtain ⟨hnode, -, huses⟩ := Node.callStep?_eq_some hs
    have hstatement := Node.isStatement_callStep? hs
    refine ⟨ss ++ [s], ?_, .intro hops ?_ hstatement hnode huses, ?_⟩
    · show d₁.steps ++ [s] = _
      rw [hsteps, List.append_assoc]
    · rw [hl, hpins.inputCount hn]
    · -- a call ends no read
      rw [pass_append]
      refine hd₁.statement hstatement hnode rfl (fun _ => Scope.mem_named) fun g v hg hkg t => ?_
      have hne : g.id ≠ node.id := by
        intro hid
        rw [hid, hn] at hg
        cases hg
        rw [hkg] at hk
        cases hk
      rw [fresh_call hs, ← hd₁.reads g v hg hkg t]
      show (d₁.scope.named node.id _).value? _ = some t ↔ _
      rw [Scope.value?_named hne]
  | _, node, d, _, path, @Makes.assign _ _ _ _ d₁ w value hk hr, hn, hd => by
    obtain ⟨ss, hsteps, hops, hd₁⟩ := hr.reads hm hpins hn hd
    refine ⟨ss ++ [.assign node.id w.name value], ?_, .intro hops ?_ rfl rfl rfl, ?_⟩
    · show d₁.steps ++ [_] = _
      rw [hsteps, List.append_assoc]
    · rw [← hpins.inputCount hn]
      unfold Node.inputCount
      rw [hk]
      rfl
    · -- an assignment ends the reads of its variable, by whatever getter
      rw [pass_append]
      refine hd₁.statement rfl rfl rfl (fun _ => Draft.mem_assign) fun g v hg hkg t => ?_
      have hne : PinRef.dataOut node.id 0 ≠ .dataOut g.id 0 := by
        intro heq
        have hid : node.id = g.id := congrArg PinRef.node heq
        rw [hid, hg] at hn
        cases hn
        rw [hkg] at hk
        cases hk
      rw [fresh_assign, ← hd₁.reads g v hg hkg t]
      show (((d₁.scope.forget job.method _).bind _ _).value? _ = some t) ↔ _
      rw [Scope.value?_bind, if_neg hne, Scope.value?_forget, Scope.reads_getter hg hkg]
      by_cases hname : v.name = w.name
      · simp [hname]
      · simp [hname, Ne.symm hname]

end

end Drafts

/-! ### Following control -/

section Walks

variable {job : Job} {ids loops : List NodeId} {pin : PinRef} {scope : Scope} {counts counts' : Counts}
  {code : Code} {node : Node} {d : Draft} {path : List Mark}

/-- The `Operands` of a node that control has come to. -/
theorem ResolvesFrom.reads_entered (hm : job.method.Mirrored) (hpins : job.method.HasPins) {texts : List String}
    (h : ResolvesFrom job [] node 0 (scope.draft counts) texts d) (hf : job.follow pin = .ok (some node))
    (hd : scope.Recalls job.method path) :
    Operands job.method path node 0 texts d.steps ∧ d.scope.Recalls job.method (pass path d.steps) := by
  obtain ⟨ss, rfl, hops, hd'⟩ : ∃ ss, d.steps = ss ∧ _ := h.reads hm hpins (Job.node?_of_follow hf) hd
  exact ⟨hops, hd'⟩

theorem Walks.rereads (hm : job.method.Mirrored) (hpins : job.method.HasPins)
    (h : Walks job ids loops pin scope counts code counts') (hd : scope.Recalls job.method path) :
    Rereads job.method path pin code := by
  induction h generalizing path with
  | stop hf => exact .stop (Job.next?_of_follow hf)
  | again hf hp hl => exact .again (Job.next?_of_follow hf)
  | ret hf hp hk hl hr =>
    obtain ⟨hops, -⟩ := hr.reads_entered hm hpins hf hd
    exact .ret (Job.next?_of_follow hf) hops (by rw [hl, hpins.inputCount (Job.node?_of_follow hf)])
  | skip hf hp hk he h ih => exact .skip (Job.next?_of_follow hf) ((hd.made _).1 he) (ih hd)
  | @make _ _ _ _ _ _ node d _ hf hp hk he hmakes h ih =>
    obtain ⟨ss, rfl, hstated, hd'⟩ : ∃ ss, d.steps = ss ∧ _ := hmakes.reads hm hpins (Job.node?_of_follow hf) hd
    exact .make (Job.next?_of_follow hf) (fun h => he ((hd.made _).2 h)) hstated (ih hd')
  | branch hf hp hk hr he h ih =>
    obtain ⟨hops, hd'⟩ := hr.reads_entered hm hpins hf hd
    exact .branch (Job.next?_of_follow hf) hops (ih hd')
  | branchElse hf hp hk hr he ht hn iht ihn =>
    obtain ⟨hops, hd'⟩ := hr.reads_entered hm hpins hf hd
    exact .branchElse (Job.next?_of_follow hf) hops (iht hd') (ihn hd')
  | loop hf hp hk hr hb hn ihb ihn =>
    obtain ⟨hops, hd'⟩ := hr.reads_entered hm hpins hf hd
    -- the index is known in the body only, and no getter reads it
    have hindex := hd'.forgetAll.bind (Job.node?_of_follow hf) (by simp [hk]) (by rw [hk]; rfl) 0
    exact .loop (Job.next?_of_follow hf) hops (ihb (hindex _)) (ihn hd'.forgetAll)

/-- `entryScope` knows parameters only, and nothing is on the path yet. -/
theorem Job.recalls_entryScope {entry : Node} (hn : job.method.entryNode? = some entry)
    (hk : entry.kind.isEntry = true) : (entryScope entry).Recalls job.method [] where
  reads g v hg hkg t := by
    have hnone : (entryScope entry).value? (.dataOut g.id 0) = none := by
      refine Option.map_eq_none_iff.2 (List.find?_eq_none.2 fun u hu hp => ?_)
      obtain ⟨i, hi, rfl⟩ := List.mem_mapIdx.1 hu
      have hid : entry.id = g.id := congrArg PinRef.node (of_decide_eq_true hp)
      have hentry : job.method.node? entry.id = some entry := Method.node?_id hn
      rw [hid, hg] at hentry
      cases hentry
      rw [hkg] at hk
      cases hk
    rw [hnone]
    simp [not_fresh_nil]
  made id := by simp [entryScope, Made]
  valued := (tracks_entryScope hn hk).valued

end Walks

/-- In the source of a method, an input that a getter feeds uses the getter's latest read on the path as long as
it is `Fresh`: the variable is not assigned after it and no loop is entered or passed. Else the variable is read
right there (`Reread`). -/
theorem Method.rereads_of_source {m : Method} {c : TypeCatalog} {config : Config} {signature : String}
    {code : Code} (hm : m.Consistent) (hpins : m.HasPins)
    (h : Job.source ⟨m, c, config⟩ = .ok ⟨signature, some code⟩) :
    Rereads m [] (.execOut m.entry 0) code := by
  obtain ⟨entry, hentry, hbody⟩ := Job.body_of_source h
  obtain ⟨entry', hentry', hkind⟩ := hm.entry
  have hsame : entry' = entry := Option.some.inj (hentry'.symm.trans hentry)
  subst hsame
  rw [← Method.id_of_node? hentry]
  rcases Job.walks_of_body hbody with ⟨hnone, rfl⟩ | ⟨counts, hw⟩
  · have hnext : m.next? (.execOut entry'.id 0) = none := by
      simp [Method.next?, PinRef.execOut, Method.node?_id hentry, hnone]
    exact .stop hnext
  · have hmirrored : m.Mirrored := dangling_eq_nil_iff.1 hm.dangling
    exact hw.rereads hmirrored hpins (Job.recalls_entryScope hentry hkind)

/-- The variable `x` is read for a call and for its own assignment, and later for a call and the bounds of a loop.
The loop reads it for a call, and another call follows. -/
def revisions : List Operation :=
  [.addNode (.getter ⟨"x", .int⟩) {}, .addNode (.callStatic (.named "T") "f" [.int] []) {},
    .addNode (.setter ⟨"x", .int⟩) {}, .addNode (.callStatic (.named "T") "f" [.int] []) {}, .addNode .forLoop {},
    .addNode (.callStatic (.named "T") "f" [.int] []) {}, .addNode (.callStatic (.named "T") "f" [.int] []) {},
    .connect (.execOut 0 0) (.execIn 2 0), .connect (.execOut 2 0) (.execIn 3 0),
    .connect (.execOut 3 0) (.execIn 4 0), .connect (.execOut 4 0) (.execIn 5 0),
    .connect (.execOut 5 0) (.execIn 6 0), .connect (.execOut 5 1) (.execIn 7 0),
    .connect (.dataOut 1 0) (.dataIn 2 0), .connect (.dataOut 1 0) (.dataIn 3 0),
    .connect (.dataOut 1 0) (.dataIn 4 0), .connect (.dataOut 1 0) (.dataIn 5 0),
    .connect (.dataOut 1 0) (.dataIn 5 1), .connect (.dataOut 1 0) (.dataIn 6 0),
    .connect (.dataOut 1 0) (.dataIn 7 0)]

def revising : Method := (Method.make "main" [] []).run (.ofPairs []) revisions

def revisingCode : Code :=
  .steps
    [.read 1 .int "temp0_x" "x", .callStatic 2 [] (.named "T") "f" ["temp0_x"], .assign 3 "x" "temp0_x",
      .read 1 .int "temp1_x" "x", .callStatic 4 [] (.named "T") "f" ["temp1_x"]]
    (.loop 5 "i0" "temp1_x" "temp1_x"
      (.steps [.read 1 .int "temp2_x" "x", .callStatic 6 [] (.named "T") "f" ["temp2_x"]] .done)
      (.steps [.read 1 .int "temp3_x" "x", .callStatic 7 [] (.named "T") "f" ["temp3_x"]] .done))

theorem Method.rereads_of_source_revising :
    revising.Consistent ∧ revising.HasPins ∧
      Job.source ⟨revising, .ofPairs [], {}⟩ = .ok ⟨"public void main()", some revisingCode⟩ ∧
      Rereads revising [] (.execOut revising.entry 0) revisingCode := by
  obtain ⟨hm, -⟩ : revising.Consistent ∧ revising.Assignable (.ofPairs []) :=
    Method.coherent_iff.1 (Method.coherent_run (Method.coherent_make "main" [] [] (.ofPairs [])) revisions)
  have hops : ∀ op ∈ revisions, op.HasPins := by simp [revisions, Operation.Puts]
  have hpins : revising.HasPins := Method.hasPins_run (Method.hasPins_make "main" [] []) hops
  have hs : Job.source ⟨revising, .ofPairs [], {}⟩ = .ok ⟨"public void main()", some revisingCode⟩ := by
    decide +kernel
  exact ⟨hm, hpins, hs, Method.rereads_of_source hm hpins hs⟩

end VisualScript
