import VisualScript.Project.Basic
import VisualScript.Proofs.Graph.Loading
import VisualScript.Proofs.Json.Reading

/-!
# Model values come back from JSON

Every value of the model is found again by its decoder, whatever the order of the members that its encoder wrote
(`Decodes`). A type nests in its own arguments and an edit in its batches, so their decoders are followed to the
depth of the document (`TypeArg.decodesWithin`, `Edit.Fits.decodesWithin`). Numbers come back if they are in
range, which is what `Fits` says of pins, nodes, methods and edits.
-/

namespace VisualScript

/-! ### Types -/

theorem TypeArg.toJsonAll_eq_map (as : List TypeArg) : TypeArg.toJsonAll as = as.map TypeArg.toJson := by
  induction as with
  | nil => rfl
  | cons a as ih => exact congrArg (_ :: ·) ih

namespace TypeSpec

theorem nodup_jsonMembers (t : TypeSpec) : ("kind" :: t.jsonMembers.map (·.1)).Nodup := by
  obtain ⟨name, args, isEnum⟩ := t
  unfold jsonMembers
  cases args.isEmpty <;> cases isEnum <;> simp

/-- The arguments stand in the member `generic_arguments`, unless there are none. -/
theorem mem_jsonMembers {t : TypeSpec} (h : t.args ≠ []) :
    ("generic_arguments", .array (t.args.map TypeArg.toJson)) ∈ t.jsonMembers := by
  obtain ⟨name, args, isEnum⟩ := t
  unfold jsonMembers
  rw [if_neg (by simpa using h), TypeArg.toJsonAll_eq_map]
  simp

theorem reads_fields {arg : Document → Decoded TypeArg} {t : TypeSpec} (h : ∀ a ∈ t.args, Decodes arg a.toJson a) :
    (fields arg).Reads t.jsonMembers t := by
  obtain ⟨name, args, isEnum⟩ := t
  refine (((Fields.Reads.required (v := .string name) ?_ (.string name)).map TypeSpec.mk).seq ?_).seq ?_
  · simp [jsonMembers]
  · cases args with
    | nil => exact .absent (by cases isEnum <;> simp [jsonMembers]) _
    | cons a as => exact .optional (mem_jsonMembers (by simp)) (.list _ h)
  · cases isEnum with
    | false => exact .absent (by cases args <;> simp [jsonMembers]) _
    | true => exact .optional (v := .bool true) (by simp [jsonMembers]) (.bool true)

/-- An argument does not nest as deep as an object that holds the `jsonMembers` of its type. -/
theorem depth_arg_lt {t : TypeSpec} {a : TypeArg} (h : a ∈ t.args) {ms : List (String × Json)}
    (hms : t.jsonMembers ⊆ ms) : a.toJson.document.depth + 1 < (Json.object ms).document.depth := by
  have harray := Json.depth_le_object (hms (mem_jsonMembers (List.ne_nil_of_mem h)))
  have harg := Json.depth_le_array (List.mem_map_of_mem (f := TypeArg.toJson) h)
  omega

end TypeSpec

mutual

theorem TypeArg.decodesWithin : ∀ (a : TypeArg) (n : Nat) (delivery : Delivery), a.toJson.document.depth ≤ n →
    Decodes (TypeArg.ofJsonWithin n delivery) a.toJson a
  | .concrete ⟨name, args, isEnum⟩, n, delivery, hn => by
    intro w hw
    cases n with
    | zero => cases hn
    | succ n =>
      -- what stands beside a tag has been held back, so the arguments are delivered that way
      have hargs : ∀ a ∈ args, Decodes (TypeArg.ofJsonWithin n .held) a.toJson a := by
        refine TypeArg.allDecodeWithin args n .held fun a ha => ?_
        have hlt := TypeSpec.depth_arg_lt (t := ⟨name, args, isEnum⟩) ha
          (List.subset_cons_self ("kind", .string "specifier") _)
        exact Nat.le_of_lt_succ (Nat.lt_of_lt_of_le (Nat.lt_of_succ_lt hlt) hn)
      have hknown : "specifier" ∈ ["specifier", "generic"] := by simp
      obtain ⟨ns, htag, hns⟩ := tagged_of_rearranged hw (TypeSpec.nodup_jsonMembers _) hknown delivery
      unfold TypeArg.ofJsonWithin
      simp only [htag, bind, Except.bind, if_true, (TypeSpec.reads_fields hargs).decodeMembers hns]
      rfl
  | .parameter name, n, delivery, hn => by
    intro w hw
    cases n with
    | zero => cases hn
    | succ n =>
      have hknown : "generic" ∈ ["specifier", "generic"] := by simp
      obtain ⟨ns, htag, hns⟩ := tagged_of_rearranged hw (by simp) hknown delivery
      have hname : (Fields.required "name" Document.asString).decodeMembers (Json.documentMembers ns) = .ok name :=
        (Fields.Reads.required (by simp) (.string name)).decodeMembers hns
      unfold TypeArg.ofJsonWithin
      simp only [htag, bind, Except.bind, hname]
      rfl

theorem TypeArg.allDecodeWithin : ∀ (as : List TypeArg) (n : Nat) (delivery : Delivery),
    (∀ a ∈ as, a.toJson.document.depth ≤ n) → ∀ a ∈ as, Decodes (TypeArg.ofJsonWithin n delivery) a.toJson a
  | [], _, _, _, _, ha => by cases ha
  | b :: bs, n, delivery, hn, a, ha => by
    rcases List.mem_cons.1 ha with h | ha
    · exact h ▸ TypeArg.decodesWithin b n delivery (hn b List.mem_cons_self)
    · exact TypeArg.allDecodeWithin bs n delivery (fun a ha => hn a (List.mem_cons_of_mem _ ha)) a ha

end

theorem TypeArg.decodes (a : TypeArg) (delivery : Delivery) : Decodes (TypeArg.ofJson delivery) a.toJson a :=
  fun w hw => a.decodesWithin _ delivery (Nat.le_of_eq hw.depth_eq.symm) w hw

namespace TypeSpec

theorem decodes (t : TypeSpec) (delivery : Delivery) : Decodes (TypeSpec.ofJson delivery) t.toJson t := by
  intro w hw
  have hargs : ∀ a ∈ t.args, Decodes (TypeArg.ofJsonWithin w.document.depth delivery) a.toJson a := by
    intro a ha
    have hlt := depth_arg_lt ha (List.Subset.refl t.jsonMembers)
    have hdepth : w.document.depth = (Json.object t.jsonMembers).document.depth := hw.depth_eq
    exact a.decodesWithin _ delivery (by omega)
  exact Decodes.object (List.nodup_cons.1 t.nodup_jsonMembers).2 (reads_fields hargs) w hw

theorem decodes_list (ts : List TypeSpec) (delivery : Delivery) :
    Decodes (TypeSpec.listOfJson delivery) (TypeSpec.listToJson ts) ts :=
  .list ts fun t _ => t.decodes delivery

end TypeSpec

/-! ### Names and sets -/

theorem PinKind.ofName?_jsonName (k : PinKind) : PinKind.ofName? k.jsonName = some k := by
  cases k <;> rfl

theorem MethodModifier.ofName?_keyword (m : MethodModifier) : MethodModifier.ofName? m.keyword = some m := by
  cases m <;> rfl

theorem VariableModifier.ofName?_jsonName (m : VariableModifier) :
    VariableModifier.ofName? m.jsonName = some m := by
  cases m <;> rfl

theorem ClassModifier.ofName?_keyword (m : ClassModifier) : ClassModifier.ofName? m.keyword = some m := by
  cases m <;> rfl

theorem OutputKind.ofName?_jsonName (k : OutputKind) : OutputKind.ofName? k.jsonName = some k := by
  cases k <;> rfl

theorem SortedSet.ofList_toList {α : Type} [Ranked α] (s : SortedSet α) : SortedSet.ofList s.toList = s :=
  SortedSet.eq_of_mem_iff fun _ => SortedSet.mem_ofList

namespace Decodes

variable {α : Type} [Ranked α] {decode : Document → Decoded α}

theorem sortedSet {encode : α → Json} {s : SortedSet α} (h : ∀ a ∈ s, Decodes decode (encode a) a) :
    Decodes (fun d => SortedSet.ofList <$> Document.asList decode d) (.array (s.toList.map encode)) s := by
  have hlist := (list s.toList h).map (f := SortedSet.ofList)
  rwa [s.ofList_toList] at hlist

/-- A set of names, each of which `ofName?` turns back. -/
theorem names {name : α → String} {ofName? : String → Option α} (h : ∀ a, ofName? (name a) = some a)
    (s : SortedSet α) : Decodes (fun d => SortedSet.ofList <$> Document.asList (Document.asName .direct ofName?) d)
      (Json.strings (s.toList.map name)) s := by
  unfold Json.strings
  rw [List.map_map]
  exact sortedSet fun a _ => .name (h a) .direct

theorem strings (l : List String) : Decodes (Document.asList Document.asString) (Json.strings l) l :=
  .list l fun s _ => .string s

end Decodes

/-! ### Pins -/

/-- The `node` has 32 bits and the `slot` has 64. -/
structure PinRef.Fits (p : PinRef) : Prop where
  node : p.node < Nat.pow 2 32
  slot : p.slot < Nat.pow 2 64

instance (p : PinRef) : Decidable p.Fits :=
  decidable_of_iff (p.node < Nat.pow 2 32 ∧ p.slot < Nat.pow 2 64) ⟨fun h => ⟨h.1, h.2⟩, fun h => ⟨h.1, h.2⟩⟩

def Link.Fits (l : Link) : Prop := l.source.Fits ∧ l.target.Fits

section Pins

variable (delivery : Delivery)

theorem PinRef.Fits.decodes {p : PinRef} (h : p.Fits) : Decodes (PinRef.ofJson delivery) p.toJson p :=
  .object (by simp) <|
    (((Fields.Reads.required (by simp) (.nat h.node)).map PinRef.mk).seq
      (.required (by simp) (.name p.kind.ofName?_jsonName delivery))).seq
      (.required (by simp) (.nat h.slot))

theorem PinRef.decodes_set {s : PinSet} (h : ∀ p ∈ s, p.Fits) :
    Decodes (PinRef.setOfJson delivery) (PinRef.setToJson s) s :=
  .sortedSet fun p hp => (h p hp).decodes delivery

theorem PinRef.decodes_orNull {x : Option PinRef} (h : ∀ p ∈ x, p.Fits) :
    Decodes (Document.asOption (PinRef.ofJson delivery)) (Json.orNull PinRef.toJson x) x :=
  .orNull (fun p hp => (h p hp).decodes delivery) fun _ => nofun

theorem Link.decodes {l : Link} (h : l.Fits) : Decodes (Link.ofJson delivery) l.toJson l :=
  .object (by simp) <|
    ((Fields.Reads.required (by simp) (h.1.decodes delivery)).map Link.mk).seq
      (.required (by simp) (h.2.decodes delivery))

theorem ExecIn.decodes {p : ExecIn} (h : ∀ r ∈ p.incoming, r.Fits) :
    Decodes (ExecIn.ofJson delivery) p.toJson p :=
  .object (by simp) <|
    ((Fields.Reads.required (by simp) (.string p.name)).map ExecIn.mk).seq
      (.optional (by simp) (PinRef.decodes_set delivery h))

theorem ExecOut.decodes {p : ExecOut} (h : ∀ r ∈ p.outgoing, r.Fits) :
    Decodes (ExecOut.ofJson delivery) p.toJson p :=
  .object (by simp) <|
    ((Fields.Reads.required (by simp) (.string p.name)).map ExecOut.mk).seq
      (.optional (by simp) (PinRef.decodes_orNull delivery h))

theorem DataIn.decodes {p : DataIn} (h : ∀ r ∈ p.incoming, r.Fits) :
    Decodes (DataIn.ofJson delivery) p.toJson p :=
  .object (by simp) <|
    (((Fields.Reads.required (by simp) (.string p.name)).map DataIn.mk).seq
      (.required (by simp) (p.type.decodes delivery))).seq
      (.optional (by simp) (PinRef.decodes_orNull delivery h))

theorem DataOut.decodes {p : DataOut} (h : ∀ r ∈ p.outgoing, r.Fits) :
    Decodes (DataOut.ofJson delivery) p.toJson p :=
  .object (by simp) <|
    (((Fields.Reads.required (by simp) (.string p.name)).map DataOut.mk).seq
      (.required (by simp) (p.type.decodes delivery))).seq
      (.optional (by simp) (PinRef.decodes_set delivery h))

end Pins

/-! ### Nodes -/

theorem Position.decodes (p : Position) : Decodes Position.ofJson p.toJson p :=
  .object (by simp) <|
    ((Fields.Reads.required (by simp) (.real p.x)).map Position.mk).seq (.required (by simp) (.real p.y))

theorem VariableRef.decodes (v : VariableRef) (delivery : Delivery) :
    Decodes (VariableRef.ofJson delivery) v.toJson v :=
  .object (by simp) <|
    ((Fields.Reads.required (by simp) (.string v.name)).map VariableRef.mk).seq
      (.required (by simp) (v.type.decodes delivery))

namespace NodeKind

theorem nodup_fields (k : NodeKind) : ("kind" :: k.fields.map (·.1)).Nodup := by
  cases k <;> simp [fields]

theorem tag_mem_tags (k : NodeKind) : k.tag ∈ tags := by
  cases k <;> simp [tag, tags]

/-- The members beside the `tag` give the kind back. -/
theorem ofMembers_of_presents {k : NodeKind} {ns : List (String × Json)} (h : Json.Presents k.fields ns) :
    ofMembers k.tag (Json.documentMembers ns) = .ok k := by
  -- one fact for each type of field; the kinds differ in which they have
  have text {key s : String} {ms : List (String × Json)} (hk : (key, .string s) ∈ ms) :
      (Fields.required key Document.asString).Reads ms s := .required hk (.string s)
  have type {key : String} {t : TypeSpec} {ms : List (String × Json)} (hk : (key, t.toJson) ∈ ms) :
      (Fields.required key (TypeSpec.ofJson .held)).Reads ms t := .required hk (t.decodes .held)
  have types {key : String} {ts : List TypeSpec} {ms : List (String × Json)}
      (hk : (key, TypeSpec.listToJson ts) ∈ ms) :
      (Fields.required key (TypeSpec.listOfJson .held)).Reads ms ts :=
    .required hk (TypeSpec.decodes_list ts .held)
  have ref {v : VariableRef} : (Fields.required "variable" (VariableRef.ofJson .held)).Reads
      [("variable", v.toJson)] v := .required (by simp) (v.decodes .held)
  cases k with
  | methodEntry args => exact ((types (by simp [fields])).map methodEntry).decodeMembers h
  | ret results => exact ((types (by simp [fields])).map ret).decodeMembers h
  | callMethod name args results =>
    exact ((((text (by simp [fields])).map callMethod).seq (types (by simp [fields]))).seq
      (types (by simp [fields]))).decodeMembers h
  | callStatic t name args results =>
    exact (((((type (by simp [fields])).map callStatic).seq (text (by simp [fields]))).seq
      (types (by simp [fields]))).seq (types (by simp [fields]))).decodeMembers h
  | getter v => exact (ref.map getter).decodeMembers h
  | setter v => exact (ref.map setter).decodeMembers h
  | ifElse => rfl
  | forLoop => rfl
  | literal value t =>
    exact (((text (by simp [fields])).map literal).seq (type (by simp [fields]))).decodeMembers h

theorem decodes (k : NodeKind) (delivery : Delivery) : Decodes (NodeKind.ofJson delivery) k.toJson k := by
  intro w hw
  obtain ⟨ns, htag, hns⟩ := tagged_of_rearranged hw k.nodup_fields k.tag_mem_tags delivery
  unfold ofJson
  rw [htag]
  exact ofMembers_of_presents hns

end NodeKind

/-- The `id` of the node and every reference of its pins fit. -/
structure Node.Fits (n : Node) : Prop where
  id : n.id < Nat.pow 2 32
  execIns : ∀ p ∈ n.execIns, ∀ r ∈ p.incoming, r.Fits
  execOuts : ∀ p ∈ n.execOuts, ∀ r ∈ p.outgoing, r.Fits
  dataIns : ∀ p ∈ n.dataIns, ∀ r ∈ p.incoming, r.Fits
  dataOuts : ∀ p ∈ n.dataOuts, ∀ r ∈ p.outgoing, r.Fits

instance (n : Node) : Decidable n.Fits :=
  decidable_of_iff (n.id < Nat.pow 2 32 ∧ (∀ p ∈ n.execIns, ∀ r ∈ p.incoming.toList, r.Fits) ∧
      (∀ p ∈ n.execOuts, ∀ r ∈ p.outgoing, r.Fits) ∧ (∀ p ∈ n.dataIns, ∀ r ∈ p.incoming, r.Fits) ∧
      ∀ p ∈ n.dataOuts, ∀ r ∈ p.outgoing.toList, r.Fits)
    ⟨fun h => ⟨h.1, h.2.1, h.2.2.1, h.2.2.2.1, h.2.2.2.2⟩,
      fun h => ⟨h.id, h.execIns, h.execOuts, h.dataIns, h.dataOuts⟩⟩

theorem Node.Fits.decodes {n : Node} (h : n.Fits) (delivery : Delivery) :
    Decodes (Node.ofJson delivery) n.toJson n :=
  .object (by simp) <|
    (((((((Fields.Reads.required (by simp) (.nat h.id)).map Node.mk).seq
      (.required (by simp) (n.kind.decodes delivery))).seq
      (.required (by simp) n.position.decodes)).seq
      (.required (by simp) (.list n.execIns fun p hp => ExecIn.decodes delivery (h.execIns p hp)))).seq
      (.required (by simp) (.list n.execOuts fun p hp => ExecOut.decodes delivery (h.execOuts p hp)))).seq
      (.required (by simp) (.list n.dataIns fun p hp => DataIn.decodes delivery (h.dataIns p hp)))).seq
      (.required (by simp) (.list n.dataOuts fun p hp => DataOut.decodes delivery (h.dataOuts p hp)))

/-! ### Methods -/

namespace Method

/-- Every number in the graph fits, and so does `nextId`. -/
structure Fits (m : Method) : Prop where
  nodes : ∀ n ∈ m.nodes, n.Fits
  counter : m.nextId < Nat.pow 2 32

instance (m : Method) : Decidable m.Fits :=
  decidable_of_iff ((∀ n ∈ m.nodes, n.Fits) ∧ m.nextId < Nat.pow 2 32) ⟨fun h => ⟨h.1, h.2⟩, fun h => ⟨h.1, h.2⟩⟩

theorem Fits.decodes_raw {m : Method} (h : m.Fits) (hi : m.Identified) : Decodes rawOfJson m.toJson m := by
  -- the entry is the id of a node
  have hentry : m.entry < Nat.pow 2 32 := by
    obtain ⟨n, hn, -⟩ := hi.entry
    exact id_of_node? hn ▸ (h.nodes n (mem_of_node? hn)).id
  exact .object (by simp) <|
    (((((((Fields.Reads.required (by simp) (.string m.name)).map Method.mk).seq
      (.required (by simp) (TypeSpec.decodes_list m.argumentTypes .direct))).seq
      (.required (by simp) (TypeSpec.decodes_list m.returnTypes .direct))).seq
      (.optional (by simp [MethodModifier.setToJson]) (.names MethodModifier.ofName?_keyword m.modifiers))).seq
      (.required (by simp) (.list m.nodes fun n hn => (h.nodes n hn).decodes .direct))).seq
      (.required (by simp) (.nat hentry))).seq
      (.optional (by simp) (.nat h.counter))

/-- A method that is `Identified` is accepted as it is. -/
theorem Fits.decodes {m : Method} (h : m.Fits) (hi : m.Identified) : Decodes Method.ofJson m.toJson m := by
  intro w hw
  unfold Method.ofJson
  rw [h.decodes_raw hi w hw]
  show (load m).mapError _ = _
  rw [load_of_identified hi]
  rfl

end Method

/-! ### Edits -/

namespace Edit

theorem toJsonAll_eq_map (es : List Edit) : toJsonAll es = es.map toJson := by
  induction es with
  | nil => rfl
  | cons e es ih => exact congrArg (_ :: ·) ih

mutual

/-- Every number in the edit fits. -/
def Fits : Edit → Prop
  | .addNode _ _ => True
  | .restoreNode node links => node.Fits ∧ ∀ l ∈ links, l.Fits
  | .removeNode id => id < Nat.pow 2 32
  | .connect a b => a.Fits ∧ b.Fits
  | .unlink link => link.Fits
  | .disconnect pin => pin.Fits
  | .batch edits => AllFit edits

def AllFit : List Edit → Prop
  | [] => True
  | e :: es => e.Fits ∧ AllFit es

end

/-- `edit` and `args` are found in any order, though the order tells how the arguments are delivered. -/
theorem ofJsonWithin_tagged {tag : String} {args w : Json} (hw : (tagged tag args).Rearranged w) (ht : tag ∈ tags)
    (n : Nat) (delivery : Delivery) : ∃ a delivery', args.Rearranged a ∧
      ofJsonWithin (n + 1) delivery w.document =
        if tag = "batch" then batch <$> a.document.asList (ofJsonWithin n delivery')
        else singleOfJson delivery' tag a.document := by
  obtain ⟨ns, rfl, hns⟩ := hw.presents (by simp)
  obtain ⟨a, hmem, hargs⟩ := hns.mem "args" args (by simp)
  have htag : (Fields.required "edit" (tagOfJson delivery)).read (Json.documentMembers ns) = .ok tag :=
    Fields.Reads.required (by simp) (.name (if_pos ht) delivery) ns hns
  -- the arguments are kept as they are, since only the tag tells how to read them
  have hread : (Fields.required "args" pure).read (Json.documentMembers ns) = .ok a.document := by
    obtain ⟨i, hi⟩ := Members.occurrences_of_mem hns.nodup hmem
    unfold Fields.required Fields.single
    simp only [hi]
    rfl
  have hboth : (Prod.mk <$> Fields.required "edit" (tagOfJson delivery)
      <*> Fields.required "args" pure).decodeMembers (Json.documentMembers ns) = .ok (tag, a.document) :=
    Fields.decodeMembers_of_read
      (Fields.both_read id (Fields.both_read id (show (Fields.const Prod.mk).read _ = _ from rfl) htag) hread)
  refine ⟨a, deliveryOfArgs delivery (Json.documentMembers ns), hargs, ?_⟩
  have hmembers : (Json.object ns).document.members = .ok (Json.documentMembers ns) := rfl
  unfold ofJsonWithin
  simp only [hmembers, bind, Except.bind, hboth, Json.fits_document, Bool.not_true, Bool.false_eq_true, and_false,
    if_false]

theorem depth_pos (e : Edit) : 0 < e.toJson.document.depth := by
  cases e <;> exact Nat.succ_pos _

/-- An edit that is no `batch`, from its fields. -/
theorem decodes_single {tag : String} {args : Json} {e : Edit} (ht : tag ∈ tags) (hb : tag ≠ "batch")
    (h : ∀ delivery, Decodes (singleOfJson delivery tag) args e) (n : Nat) (delivery : Delivery) :
    Decodes (ofJsonWithin (n + 1) delivery) (tagged tag args) e := by
  intro w hw
  obtain ⟨a, delivery', hargs, heq⟩ := ofJsonWithin_tagged hw ht n delivery
  rw [heq, if_neg hb]
  exact h delivery' a hargs

mutual

theorem Fits.decodesWithin : ∀ {e : Edit}, e.Fits → ∀ (n : Nat) (delivery : Delivery),
    e.toJson.document.depth ≤ n → Decodes (ofJsonWithin n delivery) e.toJson e
  | e, _, 0, _, hn => absurd hn (Nat.not_le.2 e.depth_pos)
  | .addNode kind position, _, n + 1, delivery, _ => by
    refine decodes_single (by simp [tags]) (by simp) (fun delivery => ?_) n delivery
    exact .object (by simp) <|
      ((Fields.Reads.required (by simp) (kind.decodes delivery)).map addNode).seq
        (.required (by simp) position.decodes)
  | .restoreNode node links, h, n + 1, delivery, _ => by
    refine decodes_single (by simp [tags]) (by simp) (fun delivery => ?_) n delivery
    exact .object (by simp) <|
      ((Fields.Reads.required (by simp) (h.1.decodes delivery)).map restoreNode).seq
        (.required (by simp) (.list links fun l hl => Link.decodes delivery (h.2 l hl)))
  | .removeNode id, h, n + 1, delivery, _ => by
    refine decodes_single (by simp [tags]) (by simp) (fun delivery => ?_) n delivery
    exact .object (by simp) <| (Fields.Reads.required (by simp) (.nat h)).map removeNode
  | .connect a b, h, n + 1, delivery, _ => by
    refine decodes_single (by simp [tags]) (by simp) (fun delivery => ?_) n delivery
    exact .object (by simp) <|
      ((Fields.Reads.required (by simp) (h.1.decodes delivery)).map connect).seq
        (.required (by simp) (h.2.decodes delivery))
  | .unlink link, h, n + 1, delivery, _ => by
    refine decodes_single (by simp [tags]) (by simp) (fun delivery => ?_) n delivery
    exact .object (by simp) <| (Fields.Reads.required (by simp) (Link.decodes delivery h)).map unlink
  | .disconnect pin, h, n + 1, delivery, _ => by
    refine decodes_single (by simp [tags]) (by simp) (fun delivery => ?_) n delivery
    exact .object (by simp) <| (Fields.Reads.required (by simp) (h.decodes delivery)).map disconnect
  | .batch edits, h, n + 1, delivery, hn => by
    intro w hw
    obtain ⟨a, delivery', hargs, heq⟩ := ofJsonWithin_tagged hw (by simp [tags]) n delivery
    rw [toJsonAll_eq_map] at hargs
    -- each edit of the batch is two levels down: in the array, and that in the object
    have hall : ∀ e ∈ edits, Decodes (ofJsonWithin n delivery') e.toJson e := by
      refine AllFit.decodesWithin h n delivery' fun e he => ?_
      have hitem := Json.depth_le_array (List.mem_map_of_mem (f := toJson) he)
      have hmem : ("args", Json.array (edits.map toJson)) ∈
          [("edit", Json.string "batch"), ("args", Json.array (toJsonAll edits))] := by simp [toJsonAll_eq_map]
      have hargs : _ < (batch edits).toJson.document.depth := Json.depth_le_object hmem
      omega
    rw [heq, if_pos rfl]
    exact (Decodes.list edits hall).map a hargs

theorem AllFit.decodesWithin : ∀ {es : List Edit}, AllFit es → ∀ (n : Nat) (delivery : Delivery),
    (∀ e ∈ es, e.toJson.document.depth ≤ n) → ∀ e ∈ es, Decodes (ofJsonWithin n delivery) e.toJson e
  | [], _, _, _, _, _, he => by cases he
  | b :: bs, h, n, delivery, hn, e, he => by
    rcases List.mem_cons.1 he with heq | he
    · exact heq ▸ Fits.decodesWithin h.1 n delivery (hn b List.mem_cons_self)
    · exact AllFit.decodesWithin h.2 n delivery (fun e he => hn e (List.mem_cons_of_mem _ he)) e he

end

theorem Fits.decodes {e : Edit} (h : e.Fits) : Decodes Edit.ofJson e.toJson e :=
  fun w hw => h.decodesWithin _ .direct (Nat.le_of_eq hw.depth_eq.symm) w hw

end Edit

/-! ### Classes and projects -/

theorem Variable.decodes (v : Variable) : Decodes Variable.ofJson v.toJson v :=
  .object (by simp) <|
    ((((Fields.Reads.required (by simp) (.string v.name)).map Variable.mk).seq
      (.required (by simp) (v.type.decodes .direct))).seq
      (.optional (by simp [VariableModifier.setToJson])
        (.names VariableModifier.ofName?_jsonName v.modifiers))).seq
      (.optional (by simp) (.orNull (fun s _ => .string s) fun _ => nofun))

theorem Class.decodes {c : Class} (h : ∀ m ∈ c.methods, Decodes Method.ofJson m.toJson m) :
    Decodes Class.ofJson c.toJson c :=
  .object (by simp) <|
    ((((((Fields.Reads.required (by simp) (.string c.name)).map Class.mk).seq
      (.required (by simp) (.string c.space))).seq
      (.required (by simp) (c.superType.decodes .direct))).seq
      (.optional (by simp [ClassModifier.setToJson]) (.names ClassModifier.ofName?_keyword c.modifiers))).seq
      (.optional (by simp) (.list c.attributes fun v _ => v.decodes))).seq
      (.optional (by simp) (.list c.methods h))

theorem Project.decodes {p : Project} (h : ∀ c ∈ p.classes, Decodes Class.ofJson c.toJson c) :
    Decodes Project.ofJson p.toJson p :=
  .object (by simp) <|
    (((((Fields.Reads.required (by simp) (.string p.name)).map Project.mk).seq
      (.required (by simp) (.string p.defaultSpace))).seq
      (.optional (by simp) (.strings p.references))).seq
      (.optional (by simp [OutputKind.toJson]) (.name p.outputKind.ofName?_jsonName .direct))).seq
      (.optional (by simp) (.list p.classes h))

end VisualScript
