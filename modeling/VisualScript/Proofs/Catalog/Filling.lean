import VisualScript.Proofs.Catalog.Search

/-!
# Filling a catalog

A catalog is loaded from descriptions one after the other, and each is turned into types, bases and signatures
before anything of it is registered. All of these steps are of one kind: they use some descriptions as types and
fail at the first that is a bare generic parameter (`unlessBare`). Such steps in a row use their descriptions in a
row, so a whole load fails at the first bare parameter that anything in the list uses (`load_eq`).

When none is bare, what the catalog holds under a name is what the descriptions of that name declare, joined in
their order (`entryOf_fill`). Generic arguments are never in the way: inside of them a parameter is an open
argument (`convert_eq`).
-/

namespace VisualScript

open Relation

/-! ### Descriptions used as types -/

/-- The value `a`, if no description in `used` is a bare parameter; the first that is one is to blame. -/
def unlessBare {α : Type} (used : List ReflectedType) (a : α) : Except TypeError α :=
  match used.find? (·.isParameter) with
  | some r => .error (.genericParameter r.name)
  | none => .ok a

section Steps

variable {α β γ : Type} {used used' : List ReflectedType} {a : α} {e : TypeError}

theorem unlessBare_eq_error_iff :
    unlessBare used a = .error e ↔ ∃ r, used.find? (·.isParameter) = some r ∧ e = .genericParameter r.name := by
  unfold unlessBare
  cases used.find? (·.isParameter) with
  | none => simp
  | some r => simp [eq_comm]

theorem exists_unlessBare_eq_error_iff :
    (∃ e, unlessBare used a = .error e) ↔ ∃ r ∈ used, r.isParameter = true := by
  simp only [unlessBare_eq_error_iff, ← List.find?_isSome, Option.isSome_iff_exists]
  constructor
  · rintro ⟨_, r, hr, -⟩
    exact ⟨r, hr⟩
  · rintro ⟨r, hr⟩
    exact ⟨_, r, hr, rfl⟩

theorem unlessBare_eq_ok_iff {b : α} :
    unlessBare used a = .ok b ↔ (∀ r ∈ used, r.isParameter = false) ∧ a = b := by
  unfold unlessBare
  cases hfind : used.find? (·.isParameter) with
  | none => simpa using fun _ => List.find?_eq_none.1 hfind
  | some r =>
    have hr : r.isParameter = true := List.find?_some hfind
    refine iff_of_false (by simp) fun ⟨hall, _⟩ => ?_
    rw [hall r (List.mem_of_find?_eq_some hfind)] at hr
    cases hr

/-- Two steps in a row blame the first bare parameter of `used ++ used'`. -/
theorem unlessBare_bind (f : α → β) :
    (unlessBare used a >>= fun b => unlessBare used' (f b)) = unlessBare (used ++ used') (f a) := by
  unfold unlessBare
  rw [List.find?_append]
  cases used.find? (·.isParameter) with
  | none => rfl
  | some r => rfl

theorem unlessBare_map (f : α → β) : (unlessBare used a >>= fun b => pure (f b)) = unlessBare used (f a) := by
  have h : (unlessBare used a >>= fun b => unlessBare [] (f b)) = unlessBare (used ++ []) (f a) :=
    unlessBare_bind f
  rw [List.append_nil] at h
  exact h

/-- `unlessBare_bind` for each item of a list. -/
theorem mapM_unlessBare {f : β → Except TypeError γ} {uses : β → List ReflectedType} {g : β → γ}
    (h : ∀ b, f b = unlessBare (uses b) (g b)) (l : List β) :
    l.mapM f = unlessBare (l.flatMap uses) (l.map g) := by
  induction l with
  | nil => rfl
  | cons b l ih =>
    rw [List.mapM_cons, h, ih]
    simp only [unlessBare_map]
    rw [unlessBare_bind (fun c => c :: l.map g), List.flatMap_cons, List.map_cons]

/-- `unlessBare_bind` for steps that each go on from the last one. -/
theorem foldlM_unlessBare {f : α → β → Except TypeError α} {uses : β → List ReflectedType} {g : α → β → α}
    (h : ∀ a b, f a b = unlessBare (uses b) (g a b)) (l : List β) (a : α) :
    l.foldlM f a = unlessBare (l.flatMap uses) (l.foldl g a) := by
  induction l generalizing a with
  | nil => rfl
  | cons b l ih =>
    rw [List.foldlM_cons, h, funext ih, unlessBare_bind (fun a => l.foldl g a), List.flatMap_cons, List.foldl_cons]

/-- An item that `p` lets through uses a bare parameter. -/
theorem exists_bare_flatMap_filter {uses : β → List ReflectedType} {p : β → Bool} {l : List β} :
    (∃ r ∈ (l.filter p).flatMap uses, r.isParameter = true) ↔
      ∃ b ∈ l, p b = true ∧ ∃ r ∈ uses b, r.isParameter = true := by
  simp only [List.mem_flatMap, List.mem_filter]
  constructor
  · rintro ⟨r, ⟨b, ⟨hb, hp⟩, hr⟩, hbare⟩
    exact ⟨b, hb, hp, r, hr, hbare⟩
  · rintro ⟨b, hb, hp, r, hr, hbare⟩
    exact ⟨r, ⟨b, ⟨hb, hp⟩, hr⟩, hbare⟩

end Steps

theorem TypeSpec.ofReflected_eq (r : ReflectedType) : TypeSpec.ofReflected r = unlessBare [r] r.spec := by
  unfold TypeSpec.ofReflected unlessBare
  rw [List.find?_singleton]
  split_ifs
  · rfl
  · rfl

theorem TypeSpec.mapM_ofReflected (rs : List ReflectedType) :
    rs.mapM TypeSpec.ofReflected = unlessBare rs (rs.map ReflectedType.spec) := by
  rw [mapM_unlessBare TypeSpec.ofReflected_eq, List.flatMap_singleton']

/-! ### Generic arguments -/

mutual

/-- `TypeSpec.ofReflected` with every argument converted on its own, which could fail at any depth. -/
def ReflectedType.convert : ReflectedType → Except TypeError TypeSpec
  | ⟨name, space, isEnum, isParameter, _, args, _, _, _, _⟩ =>
    if isParameter then .error (.genericParameter name)
    else do
      let args ← ReflectedType.convertArgs args
      return ⟨ReflectedType.qualifiedName name space, args, isEnum⟩

def ReflectedType.convertArgs : List ReflectedType → Except TypeError (List TypeArg)
  | [] => .ok []
  | r :: rs =>
    if r.isParameter then do
      let args ← ReflectedType.convertArgs rs
      return .parameter r.name :: args
    else do
      let t ← r.convert
      let args ← ReflectedType.convertArgs rs
      return .concrete t :: args

end

mutual

theorem ReflectedType.convert_eq : ∀ r : ReflectedType, r.convert = TypeSpec.ofReflected r
  | ⟨name, space, isEnum, isParameter, _, args, _, _, _, _⟩ => by
    unfold ReflectedType.convert TypeSpec.ofReflected
    rw [ReflectedType.convertArgs_eq args]
    rfl

/-- `convert` is only asked for arguments that are no parameters, so `convertArgs` never fails. -/
theorem ReflectedType.convertArgs_eq :
    ∀ rs : List ReflectedType, ReflectedType.convertArgs rs = .ok (ReflectedType.typeArgs rs)
  | [] => rfl
  | r :: rs => by
    unfold ReflectedType.convertArgs ReflectedType.typeArgs
    rw [ReflectedType.convertArgs_eq rs, r.convert_eq]
    unfold TypeSpec.ofReflected
    split_ifs
    · rfl
    · rfl

end

/-! ### What a description uses and declares -/

namespace ReflectedMethod

/-- The descriptions that the signature is made of: the parameters, and the result if there is one. -/
def uses (m : ReflectedMethod) : List ReflectedType := m.parameters ++ m.result.toList.filter (!·.isVoid)

/-- What `MethodSpec.ofReflected` answers when `uses` holds no bare parameter. -/
def signature (declaringType : TypeSpec) (m : ReflectedMethod) : MethodSpec where
  name := m.name
  declaringType := declaringType
  argumentTypes := m.parameters.map ReflectedType.spec
  returnTypes := (m.result.toList.filter (!·.isVoid)).map ReflectedType.spec
  isStatic := m.isStatic

theorem exists_mem_uses_iff {m : ReflectedMethod} :
    (∃ u ∈ m.uses, u.isParameter = true) ↔ (∃ p ∈ m.parameters, p.isParameter = true) ∨
      ∃ t, m.result = some t ∧ t.isVoid = false ∧ t.isParameter = true := by
  unfold uses
  simp only [List.mem_append, List.mem_filter, Option.mem_toList, Bool.not_eq_true', or_and_right, exists_or,
    and_assoc]

end ReflectedMethod

theorem MethodSpec.ofReflected_eq (t : TypeSpec) (m : ReflectedMethod) :
    MethodSpec.ofReflected t m = unlessBare m.uses (m.signature t) := by
  unfold MethodSpec.ofReflected
  simp only [TypeSpec.mapM_ofReflected, unlessBare_map]
  rw [unlessBare_bind fun argumentTypes => MethodSpec.mk m.name t argumentTypes _ m.isStatic]
  rfl

theorem MethodSpec.mapM_ofReflected (t : TypeSpec) (ms : List ReflectedMethod) :
    ms.mapM (MethodSpec.ofReflected t) = unlessBare (ms.flatMap ReflectedMethod.uses) (ms.map (·.signature t)) :=
  mapM_unlessBare (MethodSpec.ofReflected_eq t) ms

namespace ReflectedType

/-- The `base` and the `interfaces`. -/
def parents (r : ReflectedType) : List ReflectedType := r.base.toList ++ r.interfaces

/-- The `methods` that have a plain name. -/
def plainMethods (r : ReflectedType) : List ReflectedMethod := r.methods.filter (!·.isSpecial)

/-- Every description that is used as a type, in the order of use. -/
def uses (r : ReflectedType) : List ReflectedType := r :: r.parents ++ r.plainMethods.flatMap ReflectedMethod.uses

/-- The `qualifiedName` that the description is registered under. -/
def fullName (r : ReflectedType) : String := qualifiedName r.name r.space

/-- What `MemoryCatalog.fill` registers for the description. -/
def entry (r : ReflectedType) : CatalogEntry where
  name := r.fullName
  bases := r.parents.map spec
  methods := r.plainMethods.map (·.signature r.spec)
  enumNames := if r.isEnum then r.enumNames else []

/-- A bare parameter stands where a type is needed. -/
def NamesBare (r : ReflectedType) : Prop :=
  r.isParameter = true ∨ (∃ b, r.base = some b ∧ b.isParameter = true) ∨
    (∃ i ∈ r.interfaces, i.isParameter = true) ∨
    ∃ m ∈ r.methods, m.isSpecial = false ∧ ((∃ p ∈ m.parameters, p.isParameter = true) ∨
      ∃ t, m.result = some t ∧ t.isVoid = false ∧ t.isParameter = true)

theorem spec_name (r : ReflectedType) : r.spec.name = r.fullName := by
  cases r
  rfl

theorem exists_mem_uses_iff {r : ReflectedType} : (∃ u ∈ r.uses, u.isParameter = true) ↔ r.NamesBare := by
  have hmethods : (∃ u ∈ r.plainMethods.flatMap ReflectedMethod.uses, u.isParameter = true) ↔
      ∃ m ∈ r.methods, m.isSpecial = false ∧ ∃ u ∈ m.uses, u.isParameter = true := by
    unfold plainMethods
    simp only [exists_bare_flatMap_filter, Bool.not_eq_true']
  unfold NamesBare
  simp only [← ReflectedMethod.exists_mem_uses_iff, ← hmethods]
  unfold uses parents
  simp only [List.mem_append, List.mem_cons, Option.mem_toList, or_and_right, exists_or, exists_eq_left, or_assoc]

end ReflectedType

/-! ### One more description -/

/-- The entry `e` with the bases, methods and enum names of `more` after its own. -/
def CatalogEntry.join (e more : CatalogEntry) : CatalogEntry :=
  { e with
    bases := e.bases ++ more.bases
    methods := e.methods ++ more.methods
    enumNames := e.enumNames ++ more.enumNames }

namespace MemoryCatalog

variable {c : MemoryCatalog} {name : String}

/-- `entry?`, or a blank entry if there is none. -/
def entryOf (c : MemoryCatalog) (name : String) : CatalogEntry := (c.entry? name).getD { name }

/-- What `addReflected` makes of the catalog when `r.uses` holds no bare parameter. -/
def fill (c : MemoryCatalog) (r : ReflectedType) : MemoryCatalog :=
  let c := c.registerType r.spec (r.parents.map ReflectedType.spec)
  let c := (r.plainMethods.map (·.signature r.spec)).foldl registerMethod c
  if r.isEnum then c.registerEnum r.spec r.enumNames else c

theorem addReflected_eq (c : MemoryCatalog) (r : ReflectedType) :
    c.addReflected r = unlessBare r.uses (c.fill r) := by
  unfold addReflected
  simp only [TypeSpec.ofReflected_eq, TypeSpec.mapM_ofReflected, MethodSpec.mapM_ofReflected, unlessBare_map,
    unlessBare_bind]
  rfl

theorem load_eq (types : List ReflectedType) :
    load types =
      unlessBare ((types.filter (·.isPublic)).flatMap ReflectedType.uses)
        ((types.filter (·.isPublic)).foldl fill ⟨[], sorted_nil⟩) :=
  foldlM_unlessBare addReflected_eq _ _

/-! ### What a catalog holds -/

theorem entryOf_change {f : CatalogEntry → CatalogEntry} {more : CatalogEntry} (hf : ∀ e, f e = e.join more)
    (hsorted : Sorted (change name f c.entries)) (n : String) :
    entryOf ⟨change name f c.entries, hsorted⟩ n = if n = name then (c.entryOf n).join more else c.entryOf n := by
  have hname : ∀ e, (f e).name = e.name := fun e => by rw [hf]; rfl
  unfold entryOf entry?
  rw [find?_change hname c.sorted]
  split_ifs with hn
  · rw [hn, Option.getD_some, hf]
  · rfl

theorem entryOf_registerType (c : MemoryCatalog) (t : TypeSpec) (bases : List TypeSpec) (n : String) :
    (c.registerType t bases).entryOf n =
      if n = t.name then (c.entryOf n).join { name := n, bases := bases } else c.entryOf n :=
  entryOf_change (fun e => by simp [CatalogEntry.join]) _ n

theorem entryOf_registerMethod (c : MemoryCatalog) (m : MethodSpec) (n : String) :
    (c.registerMethod m).entryOf n =
      if n = m.declaringType.name then (c.entryOf n).join { name := n, methods := [m] } else c.entryOf n :=
  entryOf_change (fun e => by simp [CatalogEntry.join]) _ n

theorem entryOf_registerEnum (c : MemoryCatalog) (t : TypeSpec) (names : List String) (n : String) :
    (c.registerEnum t names).entryOf n =
      if n = t.name then (c.entryOf n).join { name := n, enumNames := names } else c.entryOf n :=
  entryOf_change (fun e => by simp [CatalogEntry.join]) _ n

theorem entryOf_registerMethods (c : MemoryCatalog) (t : TypeSpec) (ms : List MethodSpec)
    (h : ∀ m ∈ ms, m.declaringType = t) (n : String) :
    (ms.foldl registerMethod c).entryOf n =
      if n = t.name then (c.entryOf n).join { name := n, methods := ms } else c.entryOf n := by
  induction ms generalizing c with
  | nil => simp [CatalogEntry.join]
  | cons m ms ih =>
    rw [List.foldl_cons, ih _ fun k hk => h k (List.mem_cons_of_mem _ hk), entryOf_registerMethod,
      h m List.mem_cons_self]
    split_ifs
    · simp [CatalogEntry.join]
    · rfl

/-- `fill` joins `r.entry` to the entry of its name and touches no other entry. -/
theorem entryOf_fill (c : MemoryCatalog) (r : ReflectedType) (n : String) :
    (c.fill r).entryOf n = if n = r.fullName then (c.entryOf n).join r.entry else c.entryOf n := by
  have hdeclaring : ∀ m ∈ r.plainMethods.map (·.signature r.spec), m.declaringType = r.spec := by
    intro m hm
    obtain ⟨_, -, rfl⟩ := List.mem_map.1 hm
    rfl
  unfold fill
  -- enum names are registered for enums only; `entry` has none otherwise
  by_cases henum : r.isEnum = true
  · simp only [if_pos henum]
    rw [entryOf_registerEnum, entryOf_registerMethods _ _ _ hdeclaring, entryOf_registerType, r.spec_name]
    split_ifs with hn
    · simp [CatalogEntry.join, ReflectedType.entry, henum]
    · rfl
  · simp only [if_neg henum]
    rw [entryOf_registerMethods _ _ _ hdeclaring, entryOf_registerType, r.spec_name]
    split_ifs with hn
    · simp [CatalogEntry.join, ReflectedType.entry, henum]
    · rfl

/-- The descriptions of a name `join` its entry one after the other. -/
theorem entryOf_foldl_fill (c : MemoryCatalog) (rs : List ReflectedType) (n : String) :
    (rs.foldl fill c).entryOf n =
      (rs.filter (·.fullName = n)).foldl (fun e r => e.join r.entry) (c.entryOf n) := by
  induction rs generalizing c with
  | nil => rfl
  | cons r rs ih =>
    rw [List.foldl_cons, ih, entryOf_fill]
    by_cases hn : n = r.fullName
    · rw [if_pos hn, List.filter_cons_of_pos (by simpa using hn.symm), List.foldl_cons]
    · rw [if_neg hn, List.filter_cons_of_neg (by simpa using fun heq => hn heq.symm)]

theorem foldl_join (rs : List ReflectedType) (e : CatalogEntry) :
    rs.foldl (fun e r => e.join r.entry) e =
      { e with
        bases := e.bases ++ rs.flatMap (·.entry.bases)
        methods := e.methods ++ rs.flatMap (·.entry.methods)
        enumNames := e.enumNames ++ rs.flatMap (·.entry.enumNames) } := by
  induction rs generalizing e with
  | nil => simp
  | cons r rs ih =>
    rw [List.foldl_cons, ih]
    simp [CatalogEntry.join]

/-! ### Whole lists of descriptions -/

/-- The public descriptions of a name. -/
def described (types : List ReflectedType) (name : String) : List ReflectedType :=
  types.filter fun r => r.isPublic && r.fullName = name

/-- A public description under the name of `s` has `t` as its base or as one of its interfaces. -/
def Declares (types : List ReflectedType) (s t : TypeSpec) : Prop :=
  ∃ r ∈ types, r.isPublic = true ∧ r.fullName = s.name ∧ ∃ p ∈ r.parents, p.spec = t

variable {types : List ReflectedType}

theorem entryOf_load (h : load types = .ok c) (n : String) :
    c.entryOf n =
      { name := n
        bases := (described types n).flatMap (·.entry.bases)
        methods := (described types n).flatMap (·.entry.methods)
        enumNames := (described types n).flatMap (·.entry.enumNames) } := by
  rw [load_eq] at h
  obtain ⟨-, rfl⟩ := unlessBare_eq_ok_iff.1 h
  have hpublic : (types.filter (·.isPublic)).filter (·.fullName = n) = described types n := by
    unfold described
    rw [List.filter_filter]
    congr 1
    funext r
    exact Bool.and_comm _ _
  rw [entryOf_foldl_fill, hpublic, foldl_join]
  rfl

/-- What is asked of a catalog about a name is asked of `entryOf`. -/
theorem getD_map_entry? {α : Type} (c : MemoryCatalog) (name : String) {f : CatalogEntry → List α}
    (hblank : f { name } = []) : ((c.entry? name).map f).getD [] = f (c.entryOf name) := by
  unfold entryOf
  cases c.entry? name with
  | none => exact hblank.symm
  | some e => rfl

theorem publicMethods_load (h : load types = .ok c) (t : TypeSpec) :
    c.toCatalog.publicMethods t = (described types t.name).flatMap fun r =>
      (r.methods.filter fun m => !m.isStatic && !m.isSpecial).map (·.signature r.spec) := by
  show (((c.entry? t.name).map (·.methods)).getD []).filter (!·.isStatic) = _
  rw [c.getD_map_entry? t.name rfl, entryOf_load h, List.filter_flatMap]
  congr 1
  funext r
  unfold ReflectedType.entry ReflectedType.plainMethods
  rw [List.filter_map, List.filter_filter]
  rfl

theorem enumNames_load (h : load types = .ok c) (t : TypeSpec) :
    c.toCatalog.enumNames t = ((described types t.name).filter (·.isEnum)).flatMap (·.enumNames) := by
  have hentry : c.toCatalog.enumNames t = (c.entryOf t.name).enumNames := c.getD_map_entry? t.name rfl
  rw [hentry, entryOf_load h]
  show (described types t.name).flatMap (fun r => if r.isEnum then r.enumNames else []) = _
  induction described types t.name with
  | nil => rfl
  | cons r rs ih =>
    rw [List.flatMap_cons, ih, List.filter_cons]
    split_ifs
    · rw [List.flatMap_cons]
    · rfl

theorem mem_basesOf_load (h : load types = .ok c) {s t : TypeSpec} : t ∈ c.basesOf s ↔ Declares types s t := by
  have hentry : c.basesOf s = (c.entryOf s.name).bases := by
    unfold basesOf entryOf
    cases c.entry? s.name with
    | none => rfl
    | some e => rfl
  rw [hentry, entryOf_load h]
  unfold Declares described
  simp only [List.mem_flatMap, List.mem_filter, Bool.and_eq_true, decide_eq_true_eq, and_assoc]
  refine exists_congr fun r => ?_
  unfold ReflectedType.entry
  simp only [List.mem_map]

theorem isSubtype_load (h : load types = .ok c) (a b : TypeSpec) :
    c.toCatalog.isSubtype a b = true ↔
      ¬ a.Same b ∧ (b.Same .object ∨ ∃ u, TransGen (Declares types) a u ∧ u.Same b) := by
  have hdeclares : (fun s t => t ∈ c.basesOf s) = Declares types := by
    funext s t
    exact propext (mem_basesOf_load h)
  show c.isSubtype a b = true ↔ _
  by_cases hab : a.Same b
  · simp [isSubtype_iff, hab]
  rw [← isObject_iff, and_iff_right hab]
  by_cases hb : b.isObject = true
  · exact iff_of_true (isSubtype_of_isObject hab hb) (.inl hb)
  · rw [or_iff_right hb, ← finds_start_iff hab (Bool.eq_false_iff.2 hb), finds_start, hdeclares]

theorem exists_load_eq_error_iff :
    (∃ e, load types = .error e) ↔ ∃ r ∈ types, r.isPublic = true ∧ r.NamesBare := by
  rw [load_eq, exists_unlessBare_eq_error_iff, exists_bare_flatMap_filter]
  simp only [ReflectedType.exists_mem_uses_iff]

/-- A list of descriptions makes no catalog exactly if a public one `NamesBare`, and the first bare parameter that
is used is named; a description that is itself no parameter is converted whatever its arguments are. Otherwise the
catalog has, under each name, the methods and enum names of the `described` ones one after the other, and a type
derives from another one as `Declares` says, or as everything does from the root. -/
theorem load_complete (types : List ReflectedType) :
    ((∃ e, load types = .error e) ↔ ∃ r ∈ types, r.isPublic = true ∧ r.NamesBare) ∧
      (∀ e, load types = .error e ↔ ∃ r,
        ((types.filter (·.isPublic)).flatMap ReflectedType.uses).find? (·.isParameter) = some r ∧
          e = .genericParameter r.name) ∧
      (∀ r : ReflectedType, r.convert = if r.isParameter then .error (.genericParameter r.name) else .ok r.spec) ∧
      ∀ c, load types = .ok c → ∀ t : TypeSpec,
        (c.toCatalog.publicMethods t = (described types t.name).flatMap fun r =>
          (r.methods.filter fun m => !m.isStatic && !m.isSpecial).map (·.signature r.spec)) ∧
        c.toCatalog.enumNames t = ((described types t.name).filter (·.isEnum)).flatMap (·.enumNames) ∧
        ∀ b, c.toCatalog.isSubtype t b = true ↔
          ¬ t.Same b ∧ (b.Same .object ∨ ∃ u, TransGen (Declares types) t u ∧ u.Same b) := by
  refine ⟨exists_load_eq_error_iff, fun e => ?_, fun r => r.convert_eq, fun c hc t => ?_⟩
  · rw [load_eq, unlessBare_eq_error_iff]
  · exact ⟨publicMethods_load hc t, enumNames_load hc t, fun b => isSubtype_load hc t b⟩

/-- Two descriptions of one name, whose arguments hold parameters, and a parameter that is not public. -/
def collections : List ReflectedType :=
  [{ name := "List`1", space := some "Data", args := [{ name := "T", isParameter := true }]
     base := some { name := "Bag`1", space := some "Data", args := [{ name := "T", isParameter := true }] }
     methods := [{ name := "Add", parameters := [{ name := "Int32", space := some "System" }] },
       { name := "get_First", result := some { name := "T", isParameter := true }, isSpecial := true },
       { name := "Make", isStatic := true }] },
    { name := "T", isParameter := true, isPublic := false },
    { name := "List`2", space := some "Data", isEnum := true, enumNames := ["Empty"]
      methods := [{ name := "Clear", result := some { name := "Void", space := some "System" } }] },
    { name := "Bag", space := some "Data", interfaces := [{ name := "Source", space := some "Data" }] }]

/-- Both lists of `collections` are found under their common name, and one more description takes all of it
back. -/
theorem load_complete_collections :
    (∃ c, load collections = .ok c ∧
        (c.toCatalog.publicMethods (.named "Data.List")).map (·.name) = ["Add", "Clear"] ∧
        c.toCatalog.enumNames (.named "Data.List") = ["Empty"] ∧
        c.toCatalog.isSubtype (.named "Data.List") (.named "Data.Source") = true) ∧
      load (collections ++ [{ name := "Map", base := some { name := "K", isParameter := true } }]) =
        .error (.genericParameter "K") := by
  obtain ⟨-, herror, -, hholds⟩ := load_complete collections
  have hbag : Declares collections (.named "Data.List")
      ((TypeSpec.named "Data.Bag").withArgs [.parameter "T"]) :=
    ⟨_, .head _, rfl, by decide +kernel, _, .head _, by decide +kernel⟩
  have hsource : Declares collections ((TypeSpec.named "Data.Bag").withArgs [.parameter "T"])
      (.named "Data.Source") :=
    ⟨_, .tail _ (.tail _ (.tail _ (.head _))), rfl, by decide +kernel, _, .head _, by decide +kernel⟩
  -- the list is a bag, and a bag is a source
  refine ⟨?_, ((load_complete _).2.1 _).2 ⟨{ name := "K", isParameter := true }, by rfl, rfl⟩⟩
  cases hload : load collections with
  | error e =>
    obtain ⟨r, hr, -⟩ := (herror e).1 hload
    cases hr
  | ok c =>
    obtain ⟨hmethods, hnames, hsubtype⟩ := hholds c hload (.named "Data.List")
    refine ⟨c, rfl, ?_, ?_, ?_⟩
    · rw [hmethods]
      decide +kernel
    · rw [hnames]
      decide +kernel
    · exact (hsubtype _).2 ⟨by decide, .inr ⟨.named "Data.Source", .tail (.single hbag) hsource, .refl _⟩⟩

end MemoryCatalog

end VisualScript
