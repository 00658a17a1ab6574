import Mathlib.Data.List.Nodup
import VisualScript.Json.Decode

/-!
# Reading what was written

An object is a set of members, so a decoder must not depend on the order in which they stand. `Rearranged` values
differ in nothing but that order, at every depth, and `Decodes` says that a decoder finds a value in every
rearrangement of a JSON value. It goes through arrays, options and objects:

* `Fields.Reads` is the same for the fields of an object, and follows the way in which fields are put together;
* `Decodes.object` and `tagged_of_rearranged` turn fields into decoders of whole objects.
-/

namespace VisualScript

/-! ### Values and the order of members -/

mutual

/-- The second value is the first with the members of each `object` in some other order, at any depth. -/
inductive Json.Rearranged : Json → Json → Prop
  | null : Rearranged .null .null
  | bool (b : Bool) : Rearranged (.bool b) (.bool b)
  | number (n : JsonNumber) : Rearranged (.number n) (.number n)
  | string (s : String) : Rearranged (.string s) (.string s)
  | array {xs ys : List Json} (h : RearrangedItems xs ys) : Rearranged (.array xs) (.array ys)
  | object {ms ns ms' : List (String × Json)} (h : RearrangedMembers ms ns) (hp : ns.Perm ms') :
      Rearranged (.object ms) (.object ms')

inductive Json.RearrangedItems : List Json → List Json → Prop
  | nil : RearrangedItems [] []
  | cons {x y : Json} {xs ys : List Json} (h : Rearranged x y) (hs : RearrangedItems xs ys) :
      RearrangedItems (x :: xs) (y :: ys)

inductive Json.RearrangedMembers : List (String × Json) → List (String × Json) → Prop
  | nil : RearrangedMembers [] []
  | cons {key : String} {x y : Json} {ms ns : List (String × Json)} (h : Rearranged x y)
      (hs : RearrangedMembers ms ns) : RearrangedMembers ((key, x) :: ms) ((key, y) :: ns)

end

namespace Json

mutual

theorem Rearranged.refl : ∀ v : Json, v.Rearranged v
  | .null => .null
  | .bool b => .bool b
  | .number n => .number n
  | .string s => .string s
  | .array xs => .array (RearrangedItems.refl xs)
  | .object ms => .object (RearrangedMembers.refl ms) (.refl _)

theorem RearrangedItems.refl : ∀ xs : List Json, RearrangedItems xs xs
  | [] => .nil
  | x :: xs => .cons (Rearranged.refl x) (RearrangedItems.refl xs)

theorem RearrangedMembers.refl : ∀ ms : List (String × Json), RearrangedMembers ms ms
  | [] => .nil
  | (_, x) :: ms => .cons (Rearranged.refl x) (RearrangedMembers.refl ms)

end

theorem RearrangedMembers.map_fst {ms ns : List (String × Json)} (h : RearrangedMembers ms ns) :
    ns.map (·.1) = ms.map (·.1) := by
  match h with
  | .nil => rfl
  | .cons _ hs => exact congrArg (_ :: ·) hs.map_fst

theorem RearrangedMembers.exists_mem {ms ns : List (String × Json)} (h : RearrangedMembers ms ns) {key : String}
    {v : Json} (hv : (key, v) ∈ ms) : ∃ w, (key, w) ∈ ns ∧ v.Rearranged w := by
  match h with
  | .nil => cases hv
  | .cons hx hs =>
    rcases List.mem_cons.1 hv with heq | hv
    · cases heq
      exact ⟨_, List.mem_cons_self, hx⟩
    · obtain ⟨w, hw, hr⟩ := hs.exists_mem hv
      exact ⟨w, List.mem_cons_of_mem _ hw, hr⟩

/-! ### Documents without faults -/

theorem documentMembers_eq_map (ms : List (String × Json)) :
    documentMembers ms = ms.map fun m => (some m.1, m.2.document) := by
  induction ms with
  | nil => rfl
  | cons m ms ih => exact congrArg (_ :: ·) ih

mutual

theorem toJson?_document : ∀ v : Json, v.document.toJson? = some v
  | .null | .bool _ | .number _ | .string _ => rfl
  | .array xs => by simp [document, Document.toJson?, toJsonItems?_documentItems xs]
  | .object ms => by simp [document, Document.toJson?, toJsonMembers?_documentMembers ms]

theorem toJsonItems?_documentItems : ∀ xs : List Json, Document.toJsonItems? (documentItems xs) = some xs
  | [] => rfl
  | x :: xs => by
    simp [documentItems, Document.toJsonItems?, toJson?_document x, toJsonItems?_documentItems xs]

theorem toJsonMembers?_documentMembers :
    ∀ ms : List (String × Json), Document.toJsonMembers? (documentMembers ms) = some ms
  | [] => rfl
  | (k, x) :: ms => by
    simp [documentMembers, Document.toJsonMembers?, toJson?_document x, toJsonMembers?_documentMembers ms]

end

theorem fits_document (v : Json) : v.document.fits = true := by
  unfold Document.fits
  rw [toJson?_document]
  rfl

mutual

theorem wellFormed_document : ∀ v : Json, v.document.wellFormed = true
  | .null | .bool _ | .number _ | .string _ => rfl
  | .array xs => wellFormedItems_documentItems xs
  | .object ms => wellFormedMembers_documentMembers ms

theorem wellFormedItems_documentItems : ∀ xs : List Json, Document.wellFormedItems (documentItems xs) = true
  | [] => rfl
  | x :: xs => by
    simp [documentItems, Document.wellFormedItems, wellFormed_document x, wellFormedItems_documentItems xs]

theorem wellFormedMembers_documentMembers :
    ∀ ms : List (String × Json), Document.wellFormedMembers (documentMembers ms) = true
  | [] => rfl
  | (k, x) :: ms => by
    simp [documentMembers, Document.wellFormedMembers, wellFormed_document x,
      wellFormedMembers_documentMembers ms]

end

/-! ### How deep values nest -/

theorem depth_le_array {v : Json} {vs : List Json} (h : v ∈ vs) :
    v.document.depth < (Json.array vs).document.depth := by
  show _ < Document.depthOfItems (documentItems vs) + 1
  induction vs with
  | nil => cases h
  | cons w ws ih =>
    show _ < max w.document.depth (Document.depthOfItems (documentItems ws)) + 1
    rcases List.mem_cons.1 h with rfl | h
    · omega
    · have := ih h
      omega

theorem depth_le_object {key : String} {v : Json} {ms : List (String × Json)} (h : (key, v) ∈ ms) :
    v.document.depth < (Json.object ms).document.depth := by
  show _ < Document.depthOfMembers (documentMembers ms) + 1
  induction ms with
  | nil => cases h
  | cons m ms ih =>
    obtain ⟨k, w⟩ := m
    show _ < max w.document.depth (Document.depthOfMembers (documentMembers ms)) + 1
    rcases List.mem_cons.1 h with heq | h
    · cases heq
      omega
    · have := ih h
      omega

theorem depthOfMembers_perm {ms ns : List (String × Json)} (h : ms.Perm ns) :
    Document.depthOfMembers (documentMembers ms) = Document.depthOfMembers (documentMembers ns) := by
  induction h with
  | nil => rfl
  | cons m _ ih => exact congrArg (max m.2.document.depth) ih
  | swap m n ms => exact Nat.max_left_comm _ _ _
  | trans _ _ ih ih' => exact ih.trans ih'

mutual

/-- The order of members has no part in how deep a value nests. -/
theorem Rearranged.depth_eq : ∀ {v w : Json}, v.Rearranged w → w.document.depth = v.document.depth
  | _, _, .null | _, _, .bool _ | _, _, .number _ | _, _, .string _ => rfl
  | _, _, .array h => congrArg (· + 1) h.depth_eq
  | _, _, .object h hp => congrArg (· + 1) ((depthOfMembers_perm hp).symm.trans h.depth_eq)

theorem RearrangedItems.depth_eq : ∀ {xs ys : List Json}, RearrangedItems xs ys →
    Document.depthOfItems (documentItems ys) = Document.depthOfItems (documentItems xs)
  | _, _, .nil => rfl
  | _, _, .cons h hs => congrArg₂ max h.depth_eq hs.depth_eq

theorem RearrangedMembers.depth_eq : ∀ {ms ns : List (String × Json)}, RearrangedMembers ms ns →
    Document.depthOfMembers (documentMembers ns) = Document.depthOfMembers (documentMembers ms)
  | _, _, .nil => rfl
  | _, _, .cons h hs => congrArg₂ max h.depth_eq hs.depth_eq

end

end Json

/-! ### Members by their keys -/

namespace Members

/-- The value and the place of a member, if it has the `key`. -/
def pick (key : String) (x : (Option String × Document) × Nat) : Option (Document × Nat) :=
  if x.1.1 = some key then some (x.1.2, x.2) else none

theorem filterMap_pick_eq_nil {ns : List (String × Json)} {key : String} (h : key ∉ ns.map (·.1)) (start : Nat) :
    ((Json.documentMembers ns).zipIdx start).filterMap (pick key) = [] := by
  rw [Json.documentMembers_eq_map, List.filterMap_eq_nil_iff]
  rintro ⟨⟨k, d⟩, i⟩ hmem
  obtain ⟨m, hm, heq⟩ := List.mem_map.1 (List.fst_mem_of_mem_zipIdx hmem)
  cases heq
  exact if_neg fun hk => h (List.mem_map.2 ⟨m, hm, Option.some.inj hk⟩)

theorem occurrences_eq_nil {ns : List (String × Json)} {key : String} (h : key ∉ ns.map (·.1)) :
    occurrences (Json.documentMembers ns) key = [] :=
  filterMap_pick_eq_nil h 0

/-- Among members of different keys, each has one place (`occurrences`). -/
theorem occurrences_of_mem {ns : List (String × Json)} {key : String} {v : Json} (hn : (ns.map (·.1)).Nodup)
    (h : (key, v) ∈ ns) : ∃ i, occurrences (Json.documentMembers ns) key = [(v.document, i)] := by
  obtain ⟨xs, ys, rfl⟩ := List.append_of_mem h
  rw [List.map_append, List.map_cons] at hn
  obtain ⟨-, hys, hxs⟩ := List.nodup_append.1 hn
  -- the key stands neither before nor after this place
  have hbefore : key ∉ xs.map (·.1) := fun hk => hxs key hk key (by simp) rfl
  have hafter : key ∉ ys.map (·.1) := (List.nodup_cons.1 hys).1
  refine ⟨xs.length, ?_⟩
  show ((Json.documentMembers (xs ++ (key, v) :: ys)).zipIdx 0).filterMap (pick key) = _
  rw [Json.documentMembers_eq_map, List.map_append, List.map_cons, List.zipIdx_append, List.zipIdx_cons,
    List.filterMap_append, List.filterMap_cons, ← Json.documentMembers_eq_map, ← Json.documentMembers_eq_map,
    filterMap_pick_eq_nil hbefore, filterMap_pick_eq_nil hafter]
  simp [pick, Json.documentMembers_eq_map]

theorem fit_documentMembers (ns : List (String × Json)) : fit (Json.documentMembers ns) = true := by
  unfold fit
  rw [Json.documentMembers_eq_map, List.all_map]
  exact List.all_eq_true.2 fun m _ => Json.fits_document m.2

end Members

/-- The members of an object that is a rearrangement of one with the members `ms`. -/
structure Json.Presents (ms ns : List (String × Json)) : Prop where
  nodup : (ns.map (·.1)).Nodup
  keys : ∀ key ∈ ns.map (·.1), key ∈ ms.map (·.1)
  mem : ∀ key v, (key, v) ∈ ms → ∃ w, (key, w) ∈ ns ∧ v.Rearranged w

theorem Json.Rearranged.presents {ms : List (String × Json)} {w : Json} (h : (Json.object ms).Rearranged w)
    (hn : (ms.map (·.1)).Nodup) : ∃ ns, w = .object ns ∧ Json.Presents ms ns := by
  cases h with
  | @object _ ns ms' h hp =>
    have hkeys : (ms'.map (·.1)).Perm (ms.map (·.1)) := h.map_fst ▸ (hp.map _).symm
    refine ⟨ms', rfl, hkeys.nodup_iff.2 hn, fun key hk => hkeys.mem_iff.1 hk, fun key v hv => ?_⟩
    obtain ⟨w, hw, hr⟩ := h.exists_mem hv
    exact ⟨w, hp.mem_iff.1 hw, hr⟩

/-! ### Decoders that find a value -/

/-- `decode` finds the value `a` in every rearrangement of the JSON value `v`. -/
def Decodes {α : Type} (decode : Document → Decoded α) (v : Json) (a : α) : Prop :=
  ∀ w, v.Rearranged w → decode w.document = .ok a

/-- The fields `x` give the value `a` on all members that present `ms`. -/
def Fields.Reads {α : Type} (x : Fields α) (ms : List (String × Json)) (a : α) : Prop :=
  ∀ ns, Json.Presents ms ns → x.read (Json.documentMembers ns) = .ok a

theorem Fields.both_read {α β γ : Type} (f : α → β → γ) {x : Fields α} {y : Fields β} {ns : Members}
    {a : α} {b : β} (hx : x.read ns = .ok a) (hy : y.read ns = .ok b) :
    (Fields.both f x y).read ns = .ok (f a b) := by
  unfold Fields.both
  simp only [hx, hy]

namespace Fields.Reads

variable {α β : Type} {ms : List (String × Json)} {key : String} {v : Json} {a : α}
  {value : Document → Decoded α}

theorem map {x : Fields α} (f : α → β) (h : x.Reads ms a) : (f <$> x).Reads ms (f a) :=
  fun ns hns => both_read id (show (Fields.const f).read _ = _ from rfl) (h ns hns)

theorem seq {f : Fields (α → β)} {g : α → β} {x : Fields α} (hf : f.Reads ms g) (h : x.Reads ms a) :
    (f <*> x).Reads ms (g a) :=
  fun ns hns => both_read id (hf ns hns) (h ns hns)

/-- A member that is there, whatever stands for its absence in `absent`. -/
theorem single {absent : Option α} (hv : (key, v) ∈ ms) (h : Decodes value v a) :
    (Fields.single key absent value).Reads ms a := by
  intro ns hns
  obtain ⟨w, hw, hr⟩ := hns.mem key v hv
  obtain ⟨i, hi⟩ := Members.occurrences_of_mem hns.nodup hw
  unfold Fields.single
  simp only [hi, h w hr]

theorem required (hv : (key, v) ∈ ms) (h : Decodes value v a) : (Fields.required key value).Reads ms a :=
  single hv h

theorem optional {default : α} (hv : (key, v) ∈ ms) (h : Decodes value v a) :
    (Fields.optional key default value).Reads ms a :=
  single hv h

theorem absent (hk : key ∉ ms.map (·.1)) (default : α) : (Fields.optional key default value).Reads ms default := by
  intro ns hns
  unfold Fields.optional Fields.single
  simp only [Members.occurrences_eq_nil fun h => hk (hns.keys key h)]

end Fields.Reads

namespace Fields

variable {α : Type} {x : Fields α} {ms ns : List (String × Json)} {a : α}

theorem decodeMembers_of_read (h : x.read (Json.documentMembers ns) = .ok a) :
    x.decodeMembers (Json.documentMembers ns) = .ok a := by
  have hothers : (others x.keys).read (Json.documentMembers ns) = .ok () := by
    have hpass : (Json.documentMembers ns).findIdx? (!passes x.keys ·) = none := by
      rw [Json.documentMembers_eq_map, List.findIdx?_eq_none_iff]
      rintro ⟨k, d⟩ hmem
      obtain ⟨m, -, heq⟩ := List.mem_map.1 hmem
      cases heq
      simp [passes, Json.wellFormed_document]
    unfold others
    simp only [hpass]
  unfold decodeMembers
  rw [both_read _ h hothers]
  rfl

theorem Reads.decodeMembers (h : x.Reads ms a) (hns : Json.Presents ms ns) :
    x.decodeMembers (Json.documentMembers ns) = .ok a :=
  decodeMembers_of_read (h ns hns)

end Fields

namespace Decodes

variable {α β : Type} {decode : Document → Decoded α} {v : Json} {a : α}

theorem document (h : Decodes decode v a) : decode v.document = .ok a := h v (.refl v)

theorem map {f : α → β} (h : Decodes decode v a) : Decodes (fun d => f <$> decode d) v (f a) := by
  intro w hw
  show f <$> decode w.document = _
  rw [h w hw]
  rfl

theorem object {x : Fields α} {ms : List (String × Json)} (hn : (ms.map (·.1)).Nodup) (h : x.Reads ms a) :
    Decodes x.decode (.object ms) a := by
  intro w hw
  obtain ⟨ns, rfl, hns⟩ := hw.presents hn
  exact h.decodeMembers hns

theorem string (s : String) : Decodes Document.asString (.string s) s := by
  intro w hw
  cases hw
  rfl

theorem bool (b : Bool) : Decodes Document.asBool (.bool b) b := by
  intro w hw
  cases hw
  rfl

theorem real (x : Binary64) : Decodes Document.asBinary64 (.number (.real x)) x := by
  intro w hw
  cases hw
  rfl

theorem nat {bits n : Nat} (h : n < Nat.pow 2 bits) : Decodes (Document.asNat bits) (.nat n) n := by
  intro w hw
  cases hw
  show (if 0 ≤ (n : Int) ∧ (n : Int).toNat < Nat.pow 2 bits then Except.ok (n : Int).toNat else _) = _
  rw [if_pos ⟨Int.natCast_nonneg n, by rwa [Int.toNat_natCast]⟩, Int.toNat_natCast]

theorem name {ofName? : String → Option α} {s : String} (h : ofName? s = some a) (delivery : Delivery) :
    Decodes (Document.asName delivery ofName?) (.string s) a := by
  intro w hw
  cases hw
  show Document.asName.named ofName? s = _
  unfold Document.asName.named
  rw [h]

theorem list {encode : α → Json} (as : List α) (h : ∀ a ∈ as, Decodes decode (encode a) a) :
    Decodes (Document.asList decode) (.array (as.map encode)) as := by
  intro w hw
  cases hw with
  | @array _ ys hys =>
    show (Json.documentItems ys).mapM decode = _
    -- the items of an array stay in order, each rearranged in itself
    induction as generalizing ys with
    | nil =>
      cases hys
      rfl
    | cons a as ih =>
      cases hys with
      | @cons _ y _ ys hy hys =>
        have hrest := ih (fun b hb => h b (List.mem_cons_of_mem _ hb)) hys
        rw [Json.documentItems, List.mapM_cons, h a List.mem_cons_self y hy, hrest]
        rfl

/-- What is never written as `null` can be told from none. -/
theorem orNull {encode : α → Json} {x : Option α} (h : ∀ a, x = some a → Decodes decode (encode a) a)
    (hne : ∀ a, encode a ≠ .null) : Decodes (Document.asOption decode) (Json.orNull encode x) x := by
  intro w hw
  cases x with
  | none =>
    cases hw
    rfl
  | some a =>
    have hvalue : decode w.document = .ok a := h a rfl w hw
    have hsome : Document.asOption decode w.document = some <$> decode w.document := by
      -- only `null` is rearranged to `null`
      cases w with
      | null =>
        refine absurd ?_ (hne a)
        change (encode a).Rearranged .null at hw
        generalize encode a = v at hw
        cases hw
        rfl
      | _ => rfl
    rw [hsome, hvalue]
    rfl

end Decodes

/-! ### Tagged objects -/

/-- An object that carries a `tag` under `key`, wherever it stands, is divided into the tag and the other
members. -/
theorem tagged_of_rearranged {key tag : String} {tags : List String} {ms : List (String × Json)} {w : Json}
    (h : (Json.object ((key, .string tag) :: ms)).Rearranged w) (hn : (key :: ms.map (·.1)).Nodup)
    (ht : tag ∈ tags) (delivery : Delivery) :
    ∃ ns, Document.tagged delivery key tags w.document = .ok (tag, Json.documentMembers ns) ∧
      Json.Presents ms ns := by
  obtain ⟨ns, rfl, hns⟩ := h.presents hn
  obtain ⟨t, ht', hr⟩ := hns.mem key (.string tag) List.mem_cons_self
  cases hr
  obtain ⟨i, hi⟩ := Members.occurrences_of_mem hns.nodup ht'
  have hothers : (Json.documentMembers ns).filter (·.1 ≠ some key) =
      Json.documentMembers (ns.filter (·.1 ≠ key)) := by
    rw [Json.documentMembers_eq_map, Json.documentMembers_eq_map, List.filter_map]
    congr 1
    refine List.filter_congr fun m _ => ?_
    simp
  refine ⟨ns.filter (·.1 ≠ key), ?_, ?_, fun k hk => ?_, fun k v hv => ?_⟩
  · have hmembers : (Json.object ns).document.members = .ok (Json.documentMembers ns) := rfl
    have htag : (Json.string tag).document.asTag delivery tags = .ok tag := if_pos ht
    unfold Document.tagged
    simp only [hmembers, bind, Except.bind, hi, hothers, Members.fit_documentMembers, if_true, htag]
    rfl
  · exact hns.nodup.sublist (List.filter_sublist.map _)
  · -- a key that is not the tag's is one of the others
    obtain ⟨m, hm, rfl⟩ := List.mem_map.1 hk
    obtain ⟨hm, hne⟩ := List.mem_filter.1 hm
    rcases List.mem_cons.1 (hns.keys m.1 (List.mem_map_of_mem hm)) with heq | hmem
    · exact absurd heq (by simpa using hne)
    · exact hmem
  · obtain ⟨w, hw, hr⟩ := hns.mem k v (List.mem_cons_of_mem _ hv)
    refine ⟨w, List.mem_filter.2 ⟨hw, ?_⟩, hr⟩
    have hne : k ≠ key := by
      rintro rfl
      exact (List.nodup_cons.1 hn).1 (List.mem_map_of_mem (f := (·.1)) hv)
    simpa using hne

end VisualScript
