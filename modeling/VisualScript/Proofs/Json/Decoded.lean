import VisualScript.Proofs.Graph.Invariant
import VisualScript.Proofs.Json.RoundTrip

/-!
# What decoders give

`Gives decode P` says that all values that come out of a decoder have `P`, whatever it was given. Numbers that
were decoded fit and a method that was decoded is in order, so it can be written and decoded again
(`Method.decodes_of_ofJson`).
-/

namespace VisualScript

/-- Every value that `decode` gives has `P`, whatever document it was given. -/
def Gives {α : Type} (decode : Document → Decoded α) (P : α → Prop) : Prop := ∀ d a, decode d = .ok a → P a

/-- Every value that the fields give on the members `ms` has `P`. -/
def Fields.Gives {α : Type} (x : Fields α) (ms : Members) (P : α → Prop) : Prop := ∀ a, x.read ms = .ok a → P a

namespace Fields

variable {α β γ : Type} {ms : Members}

theorem both_eq_ok {f : α → β → γ} {x : Fields α} {y : Fields β} {c : γ} (h : (both f x y).read ms = .ok c) :
    ∃ a b, x.read ms = .ok a ∧ y.read ms = .ok b ∧ c = f a b := by
  unfold both at h
  cases hx : x.read ms with
  | error e => cases hy : y.read ms <;> simp [hx, hy] at h
  | ok a =>
    cases hy : y.read ms with
    | error e => simp [hx, hy] at h
    | ok b =>
      simp only [hx, hy, Except.ok.injEq] at h
      exact ⟨a, b, rfl, rfl, h.symm⟩

/-- A `single` member is absent, or it stands once. -/
theorem single_eq_ok {key : String} {absent : Option α} {value : Document → Decoded α} {a : α}
    (h : (single key absent value).read ms = .ok a) :
    (Members.occurrences ms key = [] ∧ absent = some a) ∨
      ∃ d i, Members.occurrences ms key = [(d, i)] ∧ value d = .ok a := by
  unfold single at h
  simp only at h
  split at h
  · rename_i hnone
    split at h
    · cases h
      exact .inl ⟨hnone, rfl⟩
    · cases h
  · rename_i d i more hsome
    split at h
    · cases h
    · rename_i hvalue
      cases h
      exact .inr ⟨d, i, hsome, hvalue⟩
    · cases h

theorem decode_eq_ok {x : Fields α} {d : Document} {a : α} (h : x.decode d = .ok a) :
    ∃ ms, d.members = .ok ms ∧ x.read ms = .ok a := by
  unfold decode at h
  cases hms : d.members with
  | error e =>
    rw [hms] at h
    cases h
  | ok ms =>
    rw [hms] at h
    change ((both (fun a _ => a) x (others x.keys)).read ms).mapError _ = _ at h
    cases hboth : (both (fun a _ => a) x (others x.keys)).read ms with
    | error e =>
      rw [hboth] at h
      cases h
    | ok b =>
      rw [hboth] at h
      cases h
      obtain ⟨a', -, ha', -, heq⟩ := both_eq_ok hboth
      exact ⟨ms, rfl, heq ▸ ha'⟩

namespace Gives

variable {P : β → Prop} {X : α → Prop} {key : String} {value : Document → Decoded α}

/-- One more field: what the others give makes `P` out of what this one gives. -/
theorem seq {f : Fields (α → β)} {x : Fields α} (hf : f.Gives ms fun g => ∀ a, X a → P (g a)) (hx : x.Gives ms X) :
    (f <*> x).Gives ms P := by
  intro b h
  obtain ⟨g, a, hg, ha, heq⟩ := both_eq_ok (f := id) h
  exact heq ▸ hf g hg a (hx a ha)

theorem map {f : α → β} {x : Fields α} (hx : x.Gives ms X) (hf : ∀ a, X a → P (f a)) : (f <$> x).Gives ms P := by
  have hconst : (Fields.const f).Gives ms fun g => ∀ a, X a → P (g a) := by
    intro g hg
    cases hg
    exact hf
  exact hconst.seq hx

theorem required (h : VisualScript.Gives value X) : (Fields.required key value).Gives ms X := by
  intro a ha
  obtain ⟨-, habsent⟩ | ⟨d, -, -, hvalue⟩ := single_eq_ok ha
  · cases habsent
  · exact h d a hvalue

theorem optional {default : α} (hd : X default) (h : VisualScript.Gives value X) :
    (Fields.optional key default value).Gives ms X := by
  intro a ha
  obtain ⟨-, habsent⟩ | ⟨d, -, -, hvalue⟩ := single_eq_ok ha
  · exact Option.some.inj habsent ▸ hd
  · exact h d a hvalue

/-- A member `v` that stands among others of different keys is the one that is read. -/
theorem present {ns : List (String × Json)} {v : Json} {default : α} (hn : (ns.map (·.1)).Nodup)
    (hv : (key, v) ∈ ns) :
    (Fields.optional key default value).Gives (Json.documentMembers ns) fun a => value v.document = .ok a := by
  intro a ha
  obtain ⟨i, hi⟩ := Members.occurrences_of_mem hn hv
  obtain ⟨hnone, -⟩ | ⟨d, j, hsome, hvalue⟩ := single_eq_ok ha
  · rw [hi] at hnone
    cases hnone
  · rw [hi] at hsome
    cases hsome
    exact hvalue

end Gives

end Fields

theorem Document.eq_of_asNat {bits n k : Nat} (h : (Json.nat n).document.asNat bits = .ok k) : k = n := by
  change (if 0 ≤ (n : Int) ∧ (n : Int).toNat < Nat.pow 2 bits then Except.ok (n : Int).toNat else _) = _ at h
  split at h
  · cases h
    exact Int.toNat_natCast n
  · cases h

namespace Gives

variable {α : Type} {decode : Document → Decoded α} {P : α → Prop}

theorem any : Gives decode fun _ => True := fun _ _ _ => trivial

theorem object {x : Fields α} (h : ∀ ms, x.Gives ms P) : Gives x.decode P := by
  intro d a ha
  obtain ⟨ms, -, hread⟩ := Fields.decode_eq_ok ha
  exact h ms a hread

theorem nat {bits : Nat} : Gives (Document.asNat bits) (· < Nat.pow 2 bits) := by
  intro d n h
  unfold Document.asNat at h
  split at h
  · split at h
    · rename_i hrange
      cases h
      exact hrange.2
    · cases h
  · cases h

theorem mapM (h : Gives decode P) {items : List Document} {as : List α} (has : items.mapM decode = .ok as) :
    ∀ a ∈ as, P a := by
  -- an item that fails makes the whole fail, so each one gave its value
  induction items generalizing as with
  | nil =>
    cases has
    simp
  | cons x xs ih =>
    rw [List.mapM_cons] at has
    cases hx : decode x with
    | error e =>
      rw [hx] at has
      cases has
    | ok b =>
      cases hxs : xs.mapM decode with
      | error e =>
        rw [hx, hxs] at has
        cases has
      | ok bs =>
        rw [hx, hxs] at has
        cases has
        intro a ha
        rcases List.mem_cons.1 ha with rfl | ha
        · exact h x a hx
        · exact ih hxs a ha

theorem list (h : Gives decode P) : Gives (Document.asList decode) fun as => ∀ a ∈ as, P a := by
  intro d as has
  unfold Document.asList at has
  split at has
  · exact h.mapM has
  · cases has

theorem sortedSet [Ranked α] (h : Gives decode P) :
    Gives (fun d => SortedSet.ofList <$> Document.asList decode d) fun s => ∀ a ∈ s, P a := by
  intro d s hs a ha
  change SortedSet.ofList <$> Document.asList decode d = _ at hs
  cases hlist : Document.asList decode d with
  | error e =>
    rw [hlist] at hs
    cases hs
  | ok l =>
    rw [hlist] at hs
    cases hs
    exact h.list d l hlist a (SortedSet.mem_ofList.1 ha)

theorem option (h : Gives decode P) : Gives (Document.asOption decode) fun x => ∀ a ∈ x, P a := by
  intro d x hx a ha
  unfold Document.asOption at hx
  split at hx
  · cases hx
    cases ha
  · cases hvalue : decode d with
    | error e =>
      rw [hvalue] at hx
      cases hx
    | ok b =>
      rw [hvalue] at hx
      cases hx
      cases ha
      exact h d a hvalue

end Gives

/-! ### Numbers that were read fit -/

section Numbers

variable (delivery : Delivery)

theorem PinRef.gives_fits : Gives (PinRef.ofJson delivery) PinRef.Fits :=
  .object fun _ =>
    (((Fields.Gives.required .nat).map fun _ hnode _ _ _ hslot => ⟨hnode, hslot⟩).seq
      (.required .any)).seq (.required .nat)

theorem ExecIn.gives_fits : Gives (ExecIn.ofJson delivery) fun p => ∀ r ∈ p.incoming, r.Fits :=
  .object fun _ =>
    ((Fields.Gives.required .any).map fun _ _ _ hincoming => hincoming).seq
      (.optional (by simp) (PinRef.gives_fits delivery).sortedSet)

theorem ExecOut.gives_fits : Gives (ExecOut.ofJson delivery) fun p => ∀ r ∈ p.outgoing, r.Fits :=
  .object fun _ =>
    ((Fields.Gives.required .any).map fun _ _ _ houtgoing => houtgoing).seq
      (.optional (by simp) (PinRef.gives_fits delivery).option)

theorem DataIn.gives_fits : Gives (DataIn.ofJson delivery) fun p => ∀ r ∈ p.incoming, r.Fits :=
  .object fun _ =>
    (((Fields.Gives.required .any).map fun _ _ _ _ _ hincoming => hincoming).seq (.required .any)).seq
      (.optional (by simp) (PinRef.gives_fits delivery).option)

theorem DataOut.gives_fits : Gives (DataOut.ofJson delivery) fun p => ∀ r ∈ p.outgoing, r.Fits :=
  .object fun _ =>
    (((Fields.Gives.required .any).map fun _ _ _ _ _ houtgoing => houtgoing).seq (.required .any)).seq
      (.optional (by simp) (PinRef.gives_fits delivery).sortedSet)

theorem Node.gives_fits : Gives (Node.ofJson delivery) Node.Fits :=
  .object fun _ =>
    (((((((Fields.Gives.required .nat).map fun _ hid _ _ _ _ _ hexecIns _ hexecOuts _ hdataIns _ hdataOuts =>
      ⟨hid, hexecIns, hexecOuts, hdataIns, hdataOuts⟩).seq
      (.required .any)).seq
      (.required .any)).seq
      (.required (ExecIn.gives_fits delivery).list)).seq
      (.required (ExecOut.gives_fits delivery).list)).seq
      (.required (DataIn.gives_fits delivery).list)).seq
      (.required (DataOut.gives_fits delivery).list)

end Numbers

/-! ### Methods that were read -/

namespace Method

variable {d : Document} {m raw : Method}

theorem gives_raw : Gives rawOfJson fun raw => ∀ n ∈ raw.nodes, n.Fits :=
  .object fun _ =>
    (((((((Fields.Gives.required .any).map fun _ _ _ _ _ _ _ _ _ hnodes _ _ _ _ => hnodes).seq
      (.required .any)).seq
      (.required .any)).seq
      (.optional trivial .any)).seq
      (.required (Node.gives_fits .direct).list)).seq
      (.required .any)).seq
      (.optional trivial .any)

theorem ofJson_eq_ok (h : Method.ofJson d = .ok m) : ∃ raw, rawOfJson d = .ok raw ∧ load raw = .ok m := by
  unfold Method.ofJson at h
  cases hraw : rawOfJson d with
  | error e =>
    rw [hraw] at h
    cases h
  | ok raw =>
    rw [hraw] at h
    change (load raw).mapError _ = _ at h
    cases hload : load raw with
    | error e =>
      rw [hload] at h
      cases h
    | ok m' =>
      rw [hload] at h
      cases h
      exact ⟨raw, rfl, hload⟩

theorem identified_of_ofJson (h : Method.ofJson d = .ok m) : m.Identified := by
  obtain ⟨raw, -, hload⟩ := ofJson_eq_ok h
  exact identified_load hload

/-- The nodes of a method that was decoded fit, since `load` only puts those that were read in order. -/
theorem fits_of_ofJson (h : Method.ofJson d = .ok m) (hcounter : m.nextId < Nat.pow 2 32) : m.Fits := by
  obtain ⟨raw, hraw, hload⟩ := ofJson_eq_ok h
  exact ⟨fun n hn => gives_raw d raw hraw n ((perm_nodes_load hload).mem_iff.1 hn), hcounter⟩

/-- A method that is written and decoded never counts back: `nextId` is read from its member and can only be
raised by `load`. -/
theorem nextId_le_of_ofJson {m' : Method} (h : Method.ofJson m.toJson.document = .ok m') :
    m.nextId ≤ m'.nextId := by
  obtain ⟨raw, hraw, hload⟩ := ofJson_eq_ok h
  obtain ⟨ms, hms, hread⟩ := Fields.decode_eq_ok hraw
  cases hms
  have hcounter : NodeId.ofJson (Json.nat m.nextId).document = .ok raw.nextId := by
    refine Fields.Gives.seq (P := fun raw => NodeId.ofJson (Json.nat m.nextId).document = .ok raw.nextId) ?_
      (Fields.Gives.present (v := Json.nat m.nextId) (by simp) (by simp)) raw hread
    exact ((((((Fields.Gives.required .any).map fun _ _ _ _ _ _ _ _ _ _ _ _ _ hnext => hnext).seq
      (.required .any)).seq
      (.required .any)).seq
      (.optional trivial .any)).seq
      (.required .any)).seq
      (.required .any)
  exact Document.eq_of_asNat hcounter ▸ nextId_le_load hload

/-- A method as programs come by it: new or decoded, and changed by an `Operation` or given another name and other
modifiers, any number of times. -/
inductive Obtained : Method → Prop where
  | make (name : String) (argumentTypes returnTypes : List TypeSpec) :
    Obtained (make name argumentTypes returnTypes)
  | decoded {d : Document} {m : Method} (h : Method.ofJson d = .ok m) : Obtained m
  | operation {m : Method} (c : TypeCatalog) (op : Operation) (h : Obtained m) : Obtained (op.after c m)
  | declared {m : Method} (name : String) (modifiers : SortedSet MethodModifier) (h : Obtained m) :
    Obtained { m with name, modifiers }

theorem Obtained.identified (h : m.Obtained) : m.Identified := by
  induction h with
  | make name argumentTypes returnTypes => exact identified_make name argumentTypes returnTypes
  | decoded h => exact identified_of_ofJson h
  | operation c op _ ih => exact op.identified_after ih
  | declared name modifiers _ ih => exact ⟨ih.ordered, ih.bounded, ih.entry, ih.onlyEntry⟩

theorem Obtained.decodes (h : m.Obtained) (hfits : m.Fits) : Decodes Method.ofJson m.toJson m :=
  hfits.decodes h.identified

end Method

/-- What `toJson` writes is found again by `ofJson`, whatever order the members of objects are brought into: types
with the flags of all their arguments, kinds and nodes with every reference, edits with batches in batches, and
methods with their counter, alone and in classes and projects. A method that was decoded, from whatever document,
is written so that decoding finds it again. -/
theorem toJson_faithful :
    (∀ (t : TypeSpec) (delivery : Delivery), Decodes (TypeSpec.ofJson delivery) t.toJson t) ∧
    (∀ (a : TypeArg) (delivery : Delivery), Decodes (TypeArg.ofJson delivery) a.toJson a) ∧
    (∀ (k : NodeKind) (delivery : Delivery), Decodes (NodeKind.ofJson delivery) k.toJson k) ∧
    (∀ (n : Node) (delivery : Delivery), n.Fits → Decodes (Node.ofJson delivery) n.toJson n) ∧
    (∀ e : Edit, e.Fits → Decodes Edit.ofJson e.toJson e) ∧
    (∀ v : Variable, Decodes Variable.ofJson v.toJson v) ∧
    (∀ m : Method, m.Obtained → m.Fits → Decodes Method.ofJson m.toJson m) ∧
    (∀ c : Class, (∀ m ∈ c.methods, m.Obtained ∧ m.Fits) → Decodes Class.ofJson c.toJson c) ∧
    (∀ p : Project, (∀ c ∈ p.classes, ∀ m ∈ c.methods, m.Obtained ∧ m.Fits) →
      Decodes Project.ofJson p.toJson p) ∧
    ∀ (d : Document) (m : Method), Method.ofJson d = .ok m → m.nextId < Nat.pow 2 32 →
      Decodes Method.ofJson m.toJson m := by
  have hclass : ∀ c : Class, (∀ m ∈ c.methods, m.Obtained ∧ m.Fits) → Decodes Class.ofJson c.toJson c :=
    fun c hc => Class.decodes fun m hm => (hc m hm).1.decodes (hc m hm).2
  refine ⟨TypeSpec.decodes, TypeArg.decodes, NodeKind.decodes, fun n delivery h => h.decodes delivery,
    fun e h => h.decodes, Variable.decodes, fun m h hfits => h.decodes hfits, hclass, fun p hp => ?_,
    fun d m h hcounter => ?_⟩
  · exact Project.decodes fun c hc => hclass c (hp c hc)
  · exact (Method.Obtained.decoded h).decodes (Method.fits_of_ofJson h hcounter)

/-- Lists of the enum `Colour`. -/
def palette : TypeSpec := (TypeSpec.named "List").withArgs [.concrete (.enum "Colour")]

/-- A method from outside: its nodes stand out of order and there is no `next_node_id`. -/
def picking : Json :=
  .object
    [("nodes", .array [(Node.make 4 (.ret [palette]) {}).toJson, (Node.make 0 (.methodEntry []) {}).toJson]),
      ("entry", .nat 0), ("name", .string "Pick"), ("argument_types", .array []),
      ("return_types", TypeSpec.listToJson [palette])]

/-- The method of `picking` as it is loaded. -/
def picked : Method where
  name := "Pick"
  argumentTypes := []
  returnTypes := [palette]
  modifiers := .empty
  nodes := [Node.make 0 (.methodEntry []) {}, Node.make 4 (.ret [palette]) {}]
  entry := 0
  nextId := 5

/-- `picked` with its nodes linked. -/
def answering : Method := (Operation.connect (.execOut 0 0) (.execIn 4 0)).after (.ofPairs []) picked

/-- A `batch` in a `batch`. -/
def relinking : Edit :=
  .batch [.batch [.restoreNode (Node.make 4 (.ret [palette]) {}) [⟨.execOut 0 0, .execIn 4 0⟩]], .removeNode 3]

theorem toJson_faithful_picking :
    Method.ofJson picking.document = .ok picked ∧ picked.nextId < Nat.pow 2 32 ∧
      Method.ofJson picked.toJson.document = .ok picked ∧ relinking.Fits ∧
      Decodes Edit.ofJson relinking.toJson relinking ∧
      answering.Obtained ∧ answering.Fits ∧ answering.links = [⟨.execOut 0 0, .execIn 4 0⟩] ∧
      Decodes Project.ofJson
        (Project.toJson
          { name := "P", defaultSpace := "",
            classes := [{ name := "C", space := "", methods := [answering] }] })
        { name := "P", defaultSpace := "",
          classes := [{ name := "C", space := "", methods := [answering] }] } := by
  obtain ⟨-, -, -, -, hedit, -, -, -, hproject, hmethod⟩ := toJson_faithful
  -- the kernel does not unfold the sort, so it is rewritten before the rest is evaluated
  have hsort : [Node.make 4 (.ret [palette]) {}, Node.make 0 (.methodEntry []) {}].mergeSort
      (fun a b => a.id ≤ b.id) = picked.nodes := by
    simp [List.mergeSort, Node.make, picked]
  have hraw : Method.rawOfJson picking.document =
      .ok { picked with
        nodes := [Node.make 4 (.ret [palette]) {}, Node.make 0 (.methodEntry []) {}], nextId := 0 } := by
    decide +kernel
  have hpicked : Method.ofJson picking.document = .ok picked := by
    unfold Method.ofJson
    rw [hraw]
    show (Method.load _).mapError _ = _
    unfold Method.load
    simp only [hsort]
    rfl
  have hcounter : picked.nextId < Nat.pow 2 32 := by decide
  have hrelinking : relinking.Fits := by
    have hremoved : (3 : NodeId) < Nat.pow 2 32 := by decide
    refine ⟨⟨⟨by decide, ?_⟩, trivial⟩, hremoved, trivial⟩
    simp only [List.forall_mem_singleton]
    exact ⟨by decide, by decide⟩
  have hobtained : answering.Obtained := .operation _ _ (.decoded hpicked)
  have hfits : answering.Fits := by decide +kernel
  refine ⟨hpicked, hcounter, (hmethod _ _ hpicked hcounter).document, hrelinking, hedit _ hrelinking, hobtained,
    hfits, by decide +kernel, hproject _ ?_⟩
  simp [hobtained, hfits]

end VisualScript
