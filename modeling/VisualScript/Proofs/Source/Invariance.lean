import VisualScript.Proofs.Catalog.Closure
import VisualScript.Proofs.Source.Lockstep

/-!
# What source does not depend on

Three uses of writing in step.

* Only what is in use matters: nodes that control does not get to and that supply no value can be anything, and so
  can the places of nodes, the ends of links that point back, and the counter.
* Ids do not matter: a method whose nodes get other ids has the same text, or fails with the same error about the
  nodes' new ids.
* What else is assignable does not matter: a method that has source has the same source under a catalog that
  accepts more, such as one that has grown by registrations.
-/

namespace VisualScript

/-! ### Parts that are not in use -/

/-- The ids that writing can get to: the `entry`, the targets of exec links and the sources of data links. -/
inductive Method.InUse (m : Method) : NodeId → Prop
  | entry : InUse m m.entry
  | target {id : NodeId} {n : Node} {out : ExecOut} {t : PinRef} (h : InUse m id) (hn : m.node? id = some n)
      (ho : out ∈ n.execOuts) (ht : out.outgoing = some t) : InUse m t.node
  | source {id : NodeId} {n : Node} {pin : DataIn} {s : PinRef} (h : InUse m id) (hn : m.node? id = some n)
      (hp : pin ∈ n.dataIns) (hs : pin.incoming = some s) : InUse m s.node

/-- What writing reads of a `Node`: its links the way they are followed, and its outputs without links. -/
structure Node.View where
  kind : NodeKind
  targets : List (Option PinRef)
  inputs : List DataIn
  outputs : List (String × TypeSpec)
deriving DecidableEq

def Node.view (n : Node) : Node.View where
  kind := n.kind
  targets := n.execOuts.map (·.outgoing)
  inputs := n.dataIns
  outputs := n.dataOuts.map fun p => (p.name, p.type)

/-- The methods agree in what `m` has `InUse`: an id is there in both, with the same `view`, or in neither. -/
structure Method.Agrees (m m' : Method) : Prop where
  name : m'.name = m.name
  argumentTypes : m'.argumentTypes = m.argumentTypes
  returnTypes : m'.returnTypes = m.returnTypes
  modifiers : m'.modifiers = m.modifiers
  entry : m'.entry = m.entry
  view : ∀ id, m.InUse id → (m'.node? id).map Node.view = (m.node? id).map Node.view

/-- Nodes with the same id and the same `view` match. -/
theorem matches_of_view_eq {n n' : Node} (hid : n'.id = n.id) (h : n'.view = n.view) : n.Matches id n' where
  id := hid
  kind := congrArg Node.View.kind h
  targets := by simpa [Node.view] using congrArg Node.View.targets h
  inputs := by simpa [Node.view] using congrArg Node.View.inputs h
  outputs := congrArg Node.View.outputs h

namespace Method

variable {m m' : Method}

/-- What is `InUse` lies in every list of ids that holds the entry and is closed under the links. -/
theorem InUse.mem_of_closed {ids : List NodeId} (hentry : m.entry ∈ ids)
    (hclosed : ∀ id ∈ ids, ∀ n ∈ m.node? id, (∀ out ∈ n.execOuts, ∀ t ∈ out.outgoing, t.node ∈ ids) ∧
      ∀ pin ∈ n.dataIns, ∀ s ∈ pin.incoming, s.node ∈ ids) {id : NodeId} (h : m.InUse id) : id ∈ ids := by
  induction h with
  | entry => exact hentry
  | target _ hn ho ht ih => exact (hclosed _ ih _ hn).1 _ ho _ ht
  | source _ hn hp hs ih => exact (hclosed _ ih _ hn).2 _ hp _ hs

theorem signature_eq (hname : m'.name = m.name) (harguments : m'.argumentTypes = m.argumentTypes)
    (hreturns : m'.returnTypes = m.returnTypes) (hmodifiers : m'.modifiers = m.modifiers) :
    m'.signature = m.signature := by
  unfold signature
  rw [hname, harguments, hreturns, hmodifiers]

theorem Agrees.rel_node? (h : m.Agrees m') {key : NodeId} (hkey : m.InUse key) :
    Option.Rel (Node.Matches id) (m.node? key) (m'.node? key) := by
  have hview := h.view key hkey
  cases hn : m.node? key with
  | none =>
    rw [hn] at hview
    rw [Option.map_eq_none_iff.1 hview]
    exact .none
  | some n =>
    rw [hn] at hview
    obtain ⟨n', hn', heq⟩ := Option.map_eq_some_iff.1 hview
    rw [hn']
    exact .some (matches_of_view_eq ((id_of_node? hn').trans (id_of_node? hn).symm) heq)

theorem Agrees.lockstep (h : m.Agrees m') (c : TypeCatalog) (config : Config) :
    Lockstep id True m.InUse ⟨m, c, config⟩ ⟨m', c, config⟩ where
  injective := Function.injective_id
  config := rfl
  signature := signature_eq h.name h.argumentTypes h.returnTypes h.modifiers
  isAbstract := congrArg (fun modifiers => decide (MethodModifier.isAbstract ∈ modifiers)) h.modifiers
  entry := h.entry
  live_entry := .entry
  live_target hlive hn _ ho _ ht := .target hlive hn ho ht
  live_source hlive hn _ hp _ hs := .source hlive hn hp hs
  matching _ hlive := h.rel_node? hlive
  assignable _ _ := id
  assignable_only _ _ _ := id

/-- If `m.Agrees m'` then both have the same text, or fail with the same error. -/
theorem sourceText_eq_of_agrees (h : m.Agrees m') (c : TypeCatalog) (config : Config) :
    m'.sourceText c config = m.sourceText c config :=
  (h.lockstep c config).follows_sourceText.eq_of_id trivial

/-- A call of `f` whose result is assigned to `x`, in a method that reads nothing else. -/
def plain : Method :=
  (make "main" [] []).run (.ofPairs [])
    [.addNode (.callStatic (.named "T") "f" [] [.int]) {}, .addNode (.setter ⟨"x", .int⟩) {},
      .connect (.execOut 0 0) (.execIn 2 0), .connect (.dataOut 1 0) (.dataIn 2 0)]

/-- `plain` with a node that control never gets to. It takes the result too and leads on to the assignment. -/
def littered : Method :=
  plain.run (.ofPairs [])
    [.addNode (.setter ⟨"y", .int⟩) {}, .connect (.dataOut 1 0) (.dataIn 3 0),
      .connect (.execOut 3 0) (.execIn 2 0)]

theorem sourceText_eq_of_agrees_littered :
    littered ≠ plain ∧ plain.Agrees littered ∧
      plain.sourceText (.ofPairs []) {} =
        .ok "public void main()\n\x7b\n    System.Int32 temp0_Int32 = T.f();\n    x = temp0_Int32;\n\x7d\n" ∧
      littered.sourceText (.ofPairs []) {} = plain.sourceText (.ofPairs []) {} := by
  -- what is in use is bounded by a closed list, and on that list the views can be compared
  have hused : ∀ id, plain.InUse id → id ∈ [0, 1, 2] := fun id hid =>
    hid.mem_of_closed (by decide +kernel) (by decide +kernel)
  have hview : ∀ id ∈ [0, 1, 2], (littered.node? id).map Node.view = (plain.node? id).map Node.view := by
    decide +kernel
  have hagrees : plain.Agrees littered :=
    ⟨by decide +kernel, by decide +kernel, by decide +kernel, by decide +kernel, by decide +kernel,
      fun id hid => hview id (hused id hid)⟩
  exact ⟨by decide +kernel, hagrees, by decide +kernel, sourceText_eq_of_agrees hagrees _ _⟩

/-! ### Ids -/

variable {f : NodeId → NodeId}

theorem matches_rename (n : Node) : n.Matches f (n.rename f) where
  id := rfl
  kind := rfl
  targets := by
    unfold Node.rename
    rw [List.map_map]
    rfl
  inputs := rfl
  outputs := by
    unfold Node.rename
    rw [List.map_map]
    rfl

theorem lockstep_rename (hf : Function.Injective f) (m : Method) (c : TypeCatalog) (config : Config) :
    Lockstep f True (fun _ => True) ⟨m, c, config⟩ ⟨m.rename f, c, config⟩ where
  injective := hf
  config := rfl
  signature := rfl
  isAbstract := rfl
  entry := rfl
  live_entry := trivial
  live_target _ _ _ _ _ _ := trivial
  live_source _ _ _ _ _ _ := trivial
  matching id _ := by
    show Option.Rel (Node.Matches f) (m.node? id) ((m.rename f).node? (f id))
    rw [node?_rename hf]
    cases m.node? id with
    | none => exact .none
    | some n => exact .some (matches_rename n)
  assignable _ _ := id
  assignable_only _ _ _ := id

/-- A method whose nodes got other ids by `rename` has the same text, or fails with the same error about those
ids. -/
theorem sourceText_rename (hf : Function.Injective f) (m : Method) (c : TypeCatalog) (config : Config) :
    (m.rename f).sourceText c config = (m.sourceText c config).mapError (SourceError.rename f) :=
  (lockstep_rename hf m c config).follows_sourceText.eq_mapError trivial

/-- The assignment of `plain` without the call that it needs. -/
def wanting : Method := plain.run (.ofPairs []) [.disconnect (.dataIn 2 0)]

/-- The entry of `plain` becomes the last node, and the assignment the first. -/
theorem sourceText_rename_swap :
    (plain.rename (Equiv.swap 0 2)).sourceText (.ofPairs []) {} = plain.sourceText (.ofPairs []) {} ∧
      (wanting.rename (Equiv.swap 0 2)).sourceText (.ofPairs []) {} =
        .error (.missingConnection 0 "Set x" "Value") := by
  have hf : Function.Injective (Equiv.swap (0 : NodeId) 2) := Equiv.injective _
  constructor
  · rw [sourceText_rename hf]
    decide +kernel
  · rw [sourceText_rename hf]
    decide +kernel

end Method

/-! ### What is assignable -/

theorem TypeSpec.name_eq_of_same {a b : TypeSpec} (h : a.Same b) : a.name = b.name := by
  have hname : ∀ t : TypeSpec, t.erase.name = t.name := by
    rintro ⟨name, args, isEnum⟩
    rfl
  rw [← hname a, ← hname b, show a.erase = b.erase from h]

namespace TypeCatalog

/-- What is assignable under `c` is so under `c'`. -/
def GrowsTo (c c' : TypeCatalog) : Prop :=
  ∀ a b, c.checkAssignable a b = .ok true → c'.checkAssignable a b = .ok true

variable {c c' : TypeCatalog}

theorem growsTo_of_isSubtype (h : ∀ a b, c.isSubtype a b = true → c'.isSubtype a b = true) : c.GrowsTo c' := by
  intro a b hab
  unfold checkAssignable at hab ⊢
  cases hmatches : a.matches? b with
  | error e =>
    rw [hmatches] at hab
    cases hab
  | ok same =>
    rw [hmatches] at hab
    cases same with
    | true => rfl
    | false =>
      have hsub : c.isSubtype a b = true := Except.ok.inj hab
      show Except.ok (c'.isSubtype a b) = Except.ok true
      rw [h a b hsub]

/-- Failures need not agree here: an input that `c` refuses may be all right for `c'`. -/
theorem GrowsTo.lockstep (h : c.GrowsTo c') (m : Method) (config : Config) :
    Lockstep id False (fun _ => True) ⟨m, c, config⟩ ⟨m, c', config⟩ where
  injective := Function.injective_id
  config := rfl
  signature := rfl
  isAbstract := rfl
  entry := rfl
  live_entry := trivial
  live_target _ _ _ _ _ _ := trivial
  live_source _ _ _ _ _ _ := trivial
  matching key _ := by
    show Option.Rel (Node.Matches id) (m.node? key) (m.node? key)
    cases m.node? key with
    | none => exact .none
    | some n => exact .some (matches_of_view_eq rfl rfl)
  assignable a b hab := isAssignable_iff.2 (h a b (isAssignable_iff.1 hab))
  assignable_only hfalse := hfalse.elim

/-- A catalog that grows (`GrowsTo`) changes no source there is, and a `MemoryCatalog` only grows by
registrations. -/
theorem sourceText_of_growsTo :
    (∀ c c' : TypeCatalog, c.GrowsTo c' → ∀ (m : Method) (config : Config) (text : String),
        m.sourceText c config = .ok text → m.sourceText c' config = .ok text) ∧
      ∀ (c : MemoryCatalog) (rs : List MemoryCatalog.Registration),
        c.toCatalog.GrowsTo (c.registerAll rs).toCatalog := by
  refine ⟨fun c c' hgrows m config text htext => ?_, fun c rs => ?_⟩
  · have hfollows := (hgrows.lockstep m config).follows_sourceText
    simp only [htext] at hfollows
    exact hfollows.eq_ok
  · exact growsTo_of_isSubtype fun a b hab => MemoryCatalog.isSubtype_registerAll rs hab

/-- Passes its `Dog` on to a call that wants an `Animal`. -/
def errand : Method :=
  (Method.make "main" [.named "Dog"] []).run (.ofPairs [(.named "Dog", .named "Animal")])
    [.addNode (.callStatic (.named "T") "feed" [.named "Animal"] []) {},
      .connect (.execOut 0 0) (.execIn 1 0), .connect (.dataOut 0 0) (.dataIn 1 0)]

/-- Knows that `Dog` derives from `Animal` by way of `Pet`. -/
def zoo : MemoryCatalog :=
  MemoryCatalog.registerAll ⟨[], MemoryCatalog.sorted_nil⟩
    [.type (.named "Dog") [.named "Pet"], .type (.named "Pet") [.named "Animal"]]

theorem growsTo_zoo : (ofPairs [(.named "Dog", .named "Animal")]).GrowsTo zoo.toCatalog := by
  refine growsTo_of_isSubtype fun a b hab => ?_
  obtain ⟨ha, hb⟩ : (TypeSpec.named "Dog").Same a ∧ (TypeSpec.named "Animal").Same b := by
    simpa [ofPairs] using hab
  have hnameA : a.name = "Dog" := (TypeSpec.name_eq_of_same ha).symm
  have hnameB : b.name = "Animal" := (TypeSpec.name_eq_of_same hb).symm
  refine MemoryCatalog.isSubtype_iff.2 ⟨fun hsame => ?_, Or.inr ⟨?_, .named "Pet", ?_, .named "Animal", ?_, hb⟩⟩
  · have hname := TypeSpec.name_eq_of_same hsame
    rw [hnameA, hnameB] at hname
    exact absurd hname (by decide)
  · unfold TypeSpec.isObject
    rw [hnameB]
    rfl
  · unfold MemoryCatalog.basesOf
    rw [hnameA]
    decide +kernel
  · exact .single (MemoryCatalog.mem_basesOf.1 (by decide +kernel))

/-- Under `zoo` the argument can be more than it was, and the call is the same. -/
theorem sourceText_of_growsTo_zoo :
    (ofPairs [(.named "Dog", .named "Animal")]).GrowsTo zoo.toCatalog ∧
      errand.sourceText (ofPairs [(.named "Dog", .named "Animal")]) {} =
        .ok "public void main(Dog arg0)\n\x7b\n    T.feed(arg0);\n\x7d\n" ∧
      errand.sourceText
        (zoo.registerAll [.type (.named "Dog") [.named "Guard"], .enum (.named "Pet") ["Tame"]]).toCatalog {} =
          .ok "public void main(Dog arg0)\n\x7b\n    T.feed(arg0);\n\x7d\n" := by
  obtain ⟨hsource, hregister⟩ := sourceText_of_growsTo
  have htext : errand.sourceText (ofPairs [(.named "Dog", .named "Animal")]) {} =
      .ok "public void main(Dog arg0)\n\x7b\n    T.feed(arg0);\n\x7d\n" := by
    decide +kernel
  exact ⟨growsTo_zoo, htext, hsource _ _ (hregister zoo _) _ _ _ (hsource _ _ growsTo_zoo _ _ _ htext)⟩

end TypeCatalog

end VisualScript
