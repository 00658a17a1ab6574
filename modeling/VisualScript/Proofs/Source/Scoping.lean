import VisualScript.Proofs.Graph.Consistency
import VisualScript.Proofs.Source.Rows

/-!
# Operands are in scope

Every text that a line takes for an input means the value that the input is fed: the spelling of a literal, a
parameter, the index of a loop around the line, or a name that an earlier line gave to the value and whose
block is still open.

* `Node.Supplies` says it for each kind of node, relative to the declarations that are known.
* `Draft.Sound`: all texts in a scope mean what they should, and so do those in the statements made so far;
  finding operands keeps it (`Makes.sound`).
* `Walks.everywhere` carries it over to the rows: what a scope knows is visible at the row.
-/

namespace VisualScript

/-- The `text` means the output `slot` of the node, given that `K` is declared. -/
def Node.Supplies (n : Node) (K : Declaration → Prop) (slot : Nat) (text : String) : Prop :=
  match n.kind with
  | .literal value type => text = Spelling.literal value type
  | .methodEntry _ => text = argumentName slot
  | .forLoop => K (.index n.id text)
  | .callMethod .. | .callStatic .. =>
    ∃ s, K (.step s) ∧ s.node = n.id ∧ ∃ r, s.results[slot]? = some r ∧ r.2 = text
  | .setter v => K (.step (.assign n.id v.name text))
  | .getter v => ∃ type, K (.step (.read n.id type text v.name))
  | .ret _ | .ifElse => False

/-- The text of an input means the output that feeds the input, given that `K` is declared. -/
def Justified (m : Method) (K : Declaration → Prop) (u : Use) : Prop :=
  ∃ node pin source producer, m.node? u.node = some node ∧ node.dataIns[u.slot]? = some pin ∧
    pin.incoming = some source ∧ m.node? source.node = some producer ∧
    producer.Supplies K source.slot u.text

/-- All texts of a scope mean the pins that they stand for, given that `K` is declared. -/
def Scope.Sound (scope : Scope) (m : Method) (K : Declaration → Prop) : Prop :=
  ∀ v ∈ scope.values, ∃ n, m.node? v.1.node = some n ∧ n.Supplies K v.1.slot v.2

/-- What `K` has, and the statements `ss`. -/
def Adding (K : Declaration → Prop) (ss : List Step) (x : Declaration) : Prop := K x ∨ ∃ s ∈ ss, x = .step s

/-- The inputs of each statement are `Justified` by what stands before it. -/
inductive StepsSound (m : Method) (K : Declaration → Prop) : List Step → Prop
  | nil : StepsSound m K []
  | snoc {ss : List Step} {s : Step} (h : StepsSound m K ss)
      (hs : ∀ u ∈ s.uses, Justified m (Adding K ss) u) : StepsSound m K (ss ++ [s])

structure Draft.Sound (m : Method) (K : Declaration → Prop) (d : Draft) : Prop where
  scope : d.scope.Sound m (Adding K d.steps)
  steps : StepsSound m K d.steps

section Mono

variable {K K' : Declaration → Prop}

theorem Node.Supplies.mono {n : Node} {slot : Nat} {text : String} (h : n.Supplies K slot text)
    (hK : ∀ x, K x → K' x) : n.Supplies K' slot text := by
  unfold Supplies at h ⊢
  cases hk : n.kind <;> simp only [hk] at h ⊢
  case literal => exact h
  case methodEntry => exact h
  case forLoop => exact hK _ h
  case callMethod =>
    obtain ⟨s, hs, hr⟩ := h
    exact ⟨s, hK _ hs, hr⟩
  case callStatic =>
    obtain ⟨s, hs, hr⟩ := h
    exact ⟨s, hK _ hs, hr⟩
  case setter => exact hK _ h
  case getter =>
    obtain ⟨t, ht⟩ := h
    exact ⟨t, hK _ ht⟩

theorem Justified.mono {m : Method} {u : Use} (h : Justified m K u) (hK : ∀ x, K x → K' x) :
    Justified m K' u := by
  obtain ⟨node, pin, source, producer, hn, hpin, hsource, hproducer, ht⟩ := h
  exact ⟨node, pin, source, producer, hn, hpin, hsource, hproducer, ht.mono hK⟩

theorem adding_mono {ss ss' : List Step} (h : ss <+: ss') (x : Declaration) (hx : Adding K ss x) :
    Adding K ss' x := by
  rcases hx with hx | ⟨s, hs, rfl⟩
  · exact Or.inl hx
  · exact Or.inr ⟨s, h.subset hs, rfl⟩

end Mono

/-! ### Scopes -/

namespace Scope.Sound

variable {scope : Scope} {m : Method} {K K' : Declaration → Prop} {p : PinRef} {n : Node} {text : String}

theorem mono (h : scope.Sound m K) (hK : ∀ x, K x → K' x) : scope.Sound m K' := by
  intro v hv
  obtain ⟨n, hn, ht⟩ := h v hv
  exact ⟨n, hn, ht.mono hK⟩

theorem of_value? (h : scope.Sound m K) (hv : scope.value? p = some text) (hn : m.node? p.node = some n) :
    n.Supplies K p.slot text := by
  obtain ⟨v, hfind, rfl⟩ := Option.map_eq_some_iff.1 hv
  have hp : v.1 = p := by simpa using List.find?_some hfind
  obtain ⟨n', hn', ht⟩ := h v (List.mem_of_find?_eq_some hfind)
  rw [hp] at hn' ht
  rw [hn] at hn'
  cases hn'
  exact ht

theorem bind (h : scope.Sound m K) (hn : m.node? p.node = some n) (ht : n.Supplies K p.slot text) :
    (scope.bind p text).Sound m K := by
  intro v hv
  rcases List.mem_cons.1 hv with rfl | hv
  · exact ⟨n, hn, ht⟩
  · exact h v hv

theorem forget (h : scope.Sound m K) (which : String → Bool) : (scope.forget m which).Sound m K :=
  fun v hv => h v (List.mem_of_mem_filter hv)

theorem named {results : List (TypeSpec × String)} (h : scope.Sound m K) (hn : m.node? n.id = some n)
    (ht : ∀ i r, results[i]? = some r → n.Supplies K i r.2) : (scope.named n.id results).Sound m K := by
  intro v hv
  rcases List.mem_append.1 hv with hv | hv
  · obtain ⟨i, hi, rfl⟩ := List.mem_mapIdx.1 (List.mem_reverse.1 hv)
    exact ⟨n, hn, ht i _ (List.getElem?_eq_getElem hi)⟩
  · exact h v hv

end Scope.Sound

/-! ### Finding operands -/

theorem Node.supplies_of_isCall {n : Node} (hk : n.kind.isCall = true) {K : Declaration → Prop} {slot : Nat}
    {s : Step} {r : TypeSpec × String} (hs : K (.step s)) (hnode : s.node = n.id)
    (hr : s.results[slot]? = some r) : n.Supplies K slot r.2 := by
  unfold Supplies
  cases hkind : n.kind <;> simp only [hkind, NodeKind.isCall, Bool.false_eq_true] at hk
  · exact ⟨s, hs, hnode, r, hr, rfl⟩
  · exact ⟨s, hs, hnode, r, hr, rfl⟩

section Drafts

variable {job : Job} {K : Declaration → Prop} {d : Draft} {node : Node}

theorem justified_of_supply {slot : Nat} {s : Supply} {text : String}
    (hn : job.method.node? node.id = some node) (hs : job.supply node slot = .ok s)
    (ht : s.producer.Supplies K s.source.slot text) : Justified job.method K ⟨node.id, slot, text⟩ := by
  obtain ⟨hproducer, -, pin, hpin, hsource⟩ := Job.supply_eq_ok hs
  exact ⟨node, pin, s.source, s.producer, hn, hpin, hsource, hproducer, ht⟩

/-- A new statement whose inputs are `Justified` can be added. -/
theorem StepsSound.uses {ss : List Step} {s : Step} {texts : List String} (h : StepsSound job.method K ss)
    (hs : s.uses = Use.ofTexts node.id texts)
    (ht : ∀ i t, texts[i]? = some t → Justified job.method (Adding K ss) ⟨node.id, i, t⟩) :
    StepsSound job.method K (ss ++ [s]) := by
  refine .snoc h fun u hu => ?_
  rw [hs] at hu
  obtain ⟨i, hi, rfl⟩ := List.mem_mapIdx.1 hu
  exact ht i _ (List.getElem?_eq_getElem hi)

theorem Draft.Sound.read {s : Supply} {v : VariableRef} {name : String} (h : d.Sound job.method K)
    (hn : job.method.node? s.source.node = some s.producer) (hk : s.producer.kind = .getter v) :
    (d.read s.source (.read s.producer.id s.produced.type name v.name) name).Sound job.method K ∧
      s.producer.Supplies
        (Adding K (d.steps ++ [.read s.producer.id s.produced.type name v.name])) s.source.slot name := by
  have ht : s.producer.Supplies
      (Adding K (d.steps ++ [.read s.producer.id s.produced.type name v.name])) s.source.slot name := by
    unfold Node.Supplies
    simp only [hk]
    exact ⟨s.produced.type, Or.inr ⟨_, by simp, rfl⟩⟩
  exact ⟨⟨(h.scope.mono (adding_mono (List.prefix_append _ _))).bind hn ht,
    .snoc h.steps (by simp [Step.uses])⟩, ht⟩

theorem Draft.Sound.call {texts : List String} {results : List (TypeSpec × String)} {s : Step}
    (h : d.Sound job.method K) (hn : job.method.node? node.id = some node) (hk : node.kind.isCall = true)
    (hs : node.callStep? results texts = some s)
    (ht : ∀ i t, texts[i]? = some t → Justified job.method (Adding K d.steps) ⟨node.id, i, t⟩) :
    ((d.call node.id results s).mark node.id).Sound job.method K := by
  obtain ⟨hnode, hresults, huses⟩ := Node.callStep?_eq_some hs
  refine ⟨?_, h.steps.uses huses ht⟩
  refine (h.scope.mono (adding_mono (List.prefix_append _ [s]))).named hn fun i r hr => ?_
  exact Node.supplies_of_isCall hk (Or.inr ⟨s, by simp, rfl⟩) hnode (hresults ▸ hr)

theorem Draft.Sound.assign {v : VariableRef} {value : String} (h : d.Sound job.method K)
    (hn : job.method.node? node.id = some node) (hk : node.kind = .setter v)
    (ht : ∀ i t, [value][i]? = some t → Justified job.method (Adding K d.steps) ⟨node.id, i, t⟩) :
    ((d.assign job.method node.id v.name value).mark node.id).Sound job.method K := by
  refine ⟨?_, h.steps.uses rfl ht⟩
  refine ((h.scope.mono (adding_mono (List.prefix_append _ _))).forget _).bind hn ?_
  unfold Node.Supplies
  simp only [hk]
  exact Or.inr ⟨_, by simp, rfl⟩

mutual

/-- An operand is justified in the draft that is `Sound` after it, by all statements of that. -/
theorem Resolves.sound : ∀ {pending : List NodeId} {node : Node} {slot : Nat} {d : Draft} {text : String}
    {d' : Draft}, Resolves job pending node slot d text d' → job.method.node? node.id = some node →
      d.Sound job.method K → d'.Sound job.method K ∧ d.steps <+: d'.steps ∧
        Justified job.method (Adding K d'.steps) ⟨node.id, slot, text⟩
  | _, node, _, d, _, _, .known hs hv, hn, hd =>
    ⟨hd, List.prefix_rfl, justified_of_supply hn hs (hd.scope.of_value? hv (Job.supply_eq_ok hs).1)⟩
  | _, node, _, d, _, _, .literal hs hv hk, hn, hd =>
    ⟨hd, List.prefix_rfl, justified_of_supply hn hs (by unfold Node.Supplies; rw [hk])⟩
  | _, node, _, d, _, _, .read hs hv hk _, hn, hd => by
    obtain ⟨hd', ht⟩ := hd.read (Job.supply_eq_ok hs).1 hk
    exact ⟨hd', List.prefix_append _ _, justified_of_supply hn hs ht⟩
  | _, node, _, d, _, _, @Resolves.pulled _ _ _ _ _ _ s _ hs hv hk hp he hm hv', hn, hd => by
    have hproducer := (Job.supply_eq_ok hs).1
    obtain ⟨hd', hpre⟩ := hm.sound (Method.node?_id hproducer) hd
    exact ⟨hd', hpre, justified_of_supply hn hs (hd'.scope.of_value? hv' hproducer)⟩

theorem ResolvesFrom.sound : ∀ {pending : List NodeId} {node : Node} {slot : Nat} {d : Draft}
    {texts : List String} {d' : Draft}, ResolvesFrom job pending node slot d texts d' →
      job.method.node? node.id = some node → d.Sound job.method K → d'.Sound job.method K ∧ d.steps <+: d'.steps ∧
        ∀ i t, texts[i]? = some t → Justified job.method (Adding K d'.steps) ⟨node.id, slot + i, t⟩
  | _, node, _, d, _, _, .nil, hn, hd => ⟨hd, List.prefix_rfl, by simp⟩
  | _, node, slot, d, _, _, .cons h hs, hn, hd => by
    obtain ⟨hd₁, hpre₁, ht₁⟩ := h.sound hn hd
    obtain ⟨hd', hpre, ht⟩ := hs.sound hn hd₁
    refine ⟨hd', hpre₁.trans hpre, fun i t hi => ?_⟩
    cases i with
    | zero =>
      -- the later inputs may have added statements
      cases hi
      exact ht₁.mono (adding_mono hpre)
    | succ i =>
      have := ht i t hi
      rwa [Nat.add_right_comm, Nat.add_assoc] at this

theorem Makes.sound : ∀ {pending : List NodeId} {node : Node} {d d' : Draft},
    Makes job pending node d d' → job.method.node? node.id = some node → d.Sound job.method K →
      d'.Sound job.method K ∧ d.steps <+: d'.steps
  | _, node, d, _, .call hk hl hr hs, hn, hd => by
    obtain ⟨hd', hpre, ht⟩ := hr.sound hn hd
    simp only [Nat.zero_add] at ht
    exact ⟨hd'.call hn hk hs ht, hpre.trans (List.prefix_append _ _)⟩
  | _, node, d, _, .assign hk hr, hn, hd => by
    obtain ⟨hd', hpre, ht⟩ := hr.sound hn hd
    simp only [Nat.zero_add] at ht
    exact ⟨hd'.assign hn hk ht, hpre.trans (List.prefix_append _ _)⟩

end

end Drafts

/-! ### Rows -/

/-- The inputs on a row are `Justified` by what is `Visible` there. -/
def Row.Justified (m : Method) (before : List Row) (r : Row) : Prop :=
  ∀ u ∈ r.statement.uses, VisualScript.Justified m (Visible before) u

section Rows

variable {job : Job} {before : List Row} {level : Nat} {ss : List Step} {d : Draft} {node : Node}

theorem visible_of_adding (level : Nat) (x : Declaration) (hx : Adding (Visible before) ss x) :
    Visible (before ++ ss.map fun s => ⟨level, .step s⟩) x := by
  rcases hx with hx | ⟨s, hs, rfl⟩
  · exact hx.steps level ss
  · exact Visible.of_mem hs before level

theorem StepsSound.everywhere (h : StepsSound job.method (Visible before) ss) :
    Everywhere (Row.Justified job.method) before (ss.map fun s => ⟨level, .step s⟩) := by
  induction h with
  | nil => trivial
  | snoc _ hs ih =>
    rw [List.map_append]
    exact everywhere_append.2 ⟨ih, fun u hu => (hs u hu).mono (visible_of_adding level), trivial⟩

theorem Row.justified_of_ofTexts {st : Statement} {texts : List String}
    (hu : st.uses = Use.ofTexts node.id texts)
    (ht : ∀ i t, texts[i]? = some t →
      VisualScript.Justified job.method (Adding (Visible before) ss) ⟨node.id, 0 + i, t⟩) :
    Row.Justified job.method (before ++ ss.map fun s => ⟨level, .step s⟩) ⟨level, st⟩ := by
  intro u hmem
  rw [show (Row.mk level st).statement.uses = _ from hu] at hmem
  obtain ⟨i, hi, rfl⟩ := List.mem_mapIdx.1 hmem
  have h := ht i _ (List.getElem?_eq_getElem hi)
  rw [Nat.zero_add] at h
  exact h.mono (visible_of_adding level)

theorem Row.justified_of_uses_eq_nil {st : Statement} (hu : st.uses = []) (level : Nat) (before : List Row) :
    Row.Justified job.method before ⟨level, st⟩ := by
  intro u hmem
  rw [show (Row.mk level st).statement.uses = [] from hu] at hmem
  cases hmem

theorem Scope.Sound.draft {scope : Scope} {K : Declaration → Prop} (h : scope.Sound job.method K)
    (counts : Counts) : (scope.draft counts).Sound job.method K :=
  ⟨h.mono fun _ => Or.inl, .nil⟩

/-- What a scope knows is `Visible` at the rows of the code that is written from it on, in all blocks. -/
theorem Walks.everywhere {path loops : List NodeId} {pin : PinRef} {scope : Scope} {counts counts' : Counts}
    {code : Code} (h : Walks job path loops pin scope counts code counts')
    (hs : scope.Sound job.method (Visible before)) :
    Everywhere (Row.Justified job.method) before (code.rows level) := by
  have hopen : ∀ level before, Row.Justified job.method before ⟨level, .opening⟩ :=
    Row.justified_of_uses_eq_nil rfl
  have hclose : ∀ level before, Row.Justified job.method before ⟨level, .closing⟩ :=
    Row.justified_of_uses_eq_nil rfl
  induction h generalizing before level with
  | stop hf => trivial
  | again hf hp hl => exact ⟨Row.justified_of_uses_eq_nil rfl _ _, trivial⟩
  | ret hf hp hk hl hr =>
    obtain ⟨hd, -, ht⟩ := hr.sound (Job.node?_of_follow hf) (hs.draft _)
    rw [Code.rows_steps]
    exact everywhere_append.2 ⟨hd.steps.everywhere, Row.justified_of_ofTexts rfl ht, trivial⟩
  | skip hf hp hk he h ih => exact ih hs
  | make hf hp hk he hm h ih =>
    obtain ⟨hd, -⟩ := hm.sound (Job.node?_of_follow hf) (hs.draft _)
    rw [Code.rows_steps]
    exact everywhere_append.2 ⟨hd.steps.everywhere, ih (hd.scope.mono (visible_of_adding level))⟩
  | branch hf hp hk hr he h ih =>
    obtain ⟨hd, -, ht⟩ := hr.sound (Job.node?_of_follow hf) (hs.draft _)
    have hnow := hd.scope.mono (visible_of_adding level)
    rw [Code.rows_steps]
    refine everywhere_append.2 ⟨hd.steps.everywhere, ?_⟩
    refine everywhere_block (hopen _) (hclose _) (Row.justified_of_ofTexts rfl ht) (ih ?_)
    exact hnow.mono fun _ hx => hx.opened (fun _ => rfl) level
  | branchElse hf hp hk hr he ht hn iht ihn =>
    obtain ⟨hd, -, htext⟩ := hr.sound (Job.node?_of_follow hf) (hs.draft _)
    have hnow := hd.scope.mono (visible_of_adding level)
    have helse : ∀ level before, Row.Justified job.method before ⟨level, .elseHead⟩ :=
      Row.justified_of_uses_eq_nil rfl
    rw [Code.rows_steps]
    refine everywhere_append.2 ⟨hd.steps.everywhere, everywhere_append.2 ⟨?_, ?_⟩⟩
    · refine everywhere_block (hopen _) (hclose _) (Row.justified_of_ofTexts rfl htext) (iht ?_)
      exact hnow.mono fun _ hx => hx.opened (fun _ => rfl) level
    · -- the first block is closed before the second opens
      refine everywhere_block (hopen _) (hclose _) (helse _ _) (ihn ?_)
      exact hnow.mono fun _ hx => (hx.block (fun _ => rfl) level _).opened (fun _ => rfl) level
  | loop hf hp hk hr hb hn ihb ihn =>
    have hnode := Job.node?_of_follow hf
    obtain ⟨hd, -, htext⟩ := hr.sound hnode (hs.draft _)
    have hnow := (hd.scope.mono (visible_of_adding level)).forget fun _ => true
    rw [Code.rows_steps]
    refine everywhere_append.2 ⟨hd.steps.everywhere, everywhere_append.2 ⟨?_, ihn ?_⟩⟩
    · refine everywhere_block (hopen _) (hclose _) (Row.justified_of_ofTexts rfl htext) (ihb ?_)
      -- in the body the index is visible too
      refine (hnow.mono fun _ hx => hx.opened (fun _ => rfl) level).bind hnode ?_
      unfold Node.Supplies
      simp only [hk]
      exact ⟨_, level, _, _, [], 0, rfl, rfl⟩
    · exact hnow.mono fun _ hx => hx.block (fun _ => rfl) level _

end Rows

/-! ### Whole bodies -/

theorem Job.sound_entryScope {job : Job} {entry : Node} {K : Declaration → Prop}
    (hn : job.method.entryNode? = some entry) (hk : entry.kind.isEntry = true) :
    (entryScope entry).Sound job.method K := by
  intro v hv
  obtain ⟨i, hi, rfl⟩ := List.mem_mapIdx.1 hv
  refine ⟨entry, Method.node?_id hn, ?_⟩
  unfold Node.Supplies
  cases hkind : entry.kind <;> simp only [hkind, NodeKind.isEntry, Bool.false_eq_true] at hk
  rfl

/-- Every text that a line of the body uses for an input stands for the output that feeds the input: what gives it
that meaning stands before the line, in a block that is open there (`Visible`). -/
theorem Job.operands_in_scope {job : Job} {signature : String} {code : Code}
    (he : ∃ entry, job.method.entryNode? = some entry ∧ entry.kind.isEntry = true)
    (h : job.source = .ok ⟨signature, some code⟩) :
    (MethodSource.mk signature (some code)).lines =
        ⟨0, signature⟩ :: Line.block 0 ((code.rows 1).map Row.line) ∧
      ∀ before r after, code.rows 1 = before ++ r :: after →
        ∀ u ∈ r.statement.uses, Justified job.method (Visible before) u := by
  refine ⟨by rw [← Code.lines_eq_rows]; rfl, fun before r after hrows => ?_⟩
  obtain ⟨entry, hentry, hbody⟩ := body_of_source h
  obtain ⟨_, hentry', hk⟩ := he
  rw [hentry] at hentry'
  cases hentry'
  have hall : Everywhere (Row.Justified job.method) [] (code.rows 1) := by
    rcases walks_of_body hbody with ⟨-, rfl⟩ | ⟨counts, hw⟩
    · trivial
    · exact hw.everywhere (sound_entryScope hentry hk)
  rw [hrows] at hall
  exact hall.row

/-- A loop up to a parameter that calls `f` of its index and a variable `y`, and assigns the result to `x`. -/
def counting : Job where
  method := (Method.make "main" [.int] []).run (.ofPairs [])
    [.addNode (.literal "0" .int) {}, .addNode .forLoop {}, .addNode (.getter ⟨"y", .int⟩) {},
      .addNode (.callStatic (.named "T") "f" [.int, .int] [.int]) {}, .addNode (.setter ⟨"x", .int⟩) {},
      .connect (.execOut 0 0) (.execIn 2 0), .connect (.execOut 2 0) (.execIn 4 0),
      .connect (.execOut 4 0) (.execIn 5 0), .connect (.dataOut 1 0) (.dataIn 2 0),
      .connect (.dataOut 0 0) (.dataIn 2 1), .connect (.dataOut 2 0) (.dataIn 4 0),
      .connect (.dataOut 3 0) (.dataIn 4 1), .connect (.dataOut 4 0) (.dataIn 5 0)]
  catalog := .ofPairs []
  config := {}

/-- In the loop of `counting`, the variable is read, the call is made and its result is assigned. -/
def countingCode : Code :=
  .loop 2 "i0" "0" "arg0"
    (.step (.read 3 .int "temp0_y" "y")
      (.step (.callStatic 4 [(.int, "temp1_Int32")] (.named "T") "f" ["i0", "temp0_y"])
        (.step (.assign 5 "x" "temp1_Int32") .done))) .done

theorem Job.operands_in_scope_counting :
    (∃ entry, counting.method.entryNode? = some entry ∧ entry.kind.isEntry = true) ∧
      counting.source = .ok ⟨"public void main(System.Int32 arg0)", some countingCode⟩ ∧
      ∀ before r after, countingCode.rows 1 = before ++ r :: after →
        ∀ u ∈ r.statement.uses, Justified counting.method (Visible before) u := by
  have he : ∃ entry, counting.method.entryNode? = some entry ∧ entry.kind.isEntry = true :=
    ⟨(counting.method.entryNode?).get (by decide +kernel), by simp, by decide +kernel⟩
  have hs : counting.source = .ok ⟨"public void main(System.Int32 arg0)", some countingCode⟩ := by
    decide +kernel
  exact ⟨he, hs, (Job.operands_in_scope he hs).2⟩

end VisualScript
