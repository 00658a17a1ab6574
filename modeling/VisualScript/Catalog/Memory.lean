import VisualScript.Catalog.Basic

/-!
# Catalogs in memory

A `MemoryCatalog` has one entry per type name, in the order of the names. A type derives from what
is reached from it by steps to a declared base; every type but the root derives from the root.
`load` fills a catalog from reflected types, all of them or none.
-/

namespace VisualScript

structure CatalogEntry where
  name : String
  bases : List TypeSpec := []
  methods : List MethodSpec := []
  enumNames : List String := []
deriving DecidableEq

namespace MemoryCatalog

/-- Each entry stands before those with later names. -/
def Sorted (entries : List CatalogEntry) : Prop := entries.Pairwise fun a b => a.name < b.name

/-- Changes the entry of a name, made blank at its place if there is none. -/
def change (name : String) (f : CatalogEntry → CatalogEntry) : List CatalogEntry → List CatalogEntry
  | [] => [f { name }]
  | e :: es =>
    if e.name = name then f e :: es
    else if name < e.name then f { name } :: e :: es
    else e :: change name f es

theorem name_of_mem_change {name : String} {f : CatalogEntry → CatalogEntry} {es : List CatalogEntry}
    (hf : ∀ e, (f e).name = e.name) {x : CatalogEntry} (hx : x ∈ change name f es) :
    x.name = name ∨ ∃ e ∈ es, x.name = e.name := by
  induction es with
  | nil => exact .inl (by rw [List.mem_singleton.1 hx, hf])
  | cons e es ih =>
    unfold change at hx
    split at hx
    · rcases List.mem_cons.1 hx with rfl | hx
      · exact .inr ⟨e, by simp, hf e⟩
      · exact .inr ⟨x, by simp [hx], rfl⟩
    · split at hx
      · rcases List.mem_cons.1 hx with rfl | hx
        · exact .inl (hf _)
        · exact .inr ⟨x, hx, rfl⟩
      · rcases List.mem_cons.1 hx with rfl | hx
        · exact .inr ⟨x, by simp, rfl⟩
        · exact (ih hx).imp_right fun ⟨y, hy, hxy⟩ => ⟨y, by simp [hy], hxy⟩

/-- A change that keeps the name leaves the entries in order. -/
theorem sorted_change {name : String} {f : CatalogEntry → CatalogEntry} {es : List CatalogEntry}
    (hf : ∀ e, (f e).name = e.name) (h : Sorted es) : Sorted (change name f es) := by
  induction es with
  | nil => exact List.pairwise_singleton _ _
  | cons e es ih =>
    obtain ⟨he, hes⟩ := List.pairwise_cons.1 h
    unfold change
    split
    · refine List.pairwise_cons.2 ⟨fun x hx => ?_, hes⟩
      rw [hf]
      exact he x hx
    · rename_i hne
      split
      · rename_i hlt
        refine List.pairwise_cons.2 ⟨fun x hx => ?_, h⟩
        rw [hf]
        rcases List.mem_cons.1 hx with rfl | hx
        · exact hlt
        · exact String.lt_trans hlt (he x hx)
      · rename_i hnlt
        have hlt : e.name < name :=
          Decidable.byContradiction fun hn => hne (String.le_antisymm hnlt hn)
        refine List.pairwise_cons.2 ⟨fun x hx => ?_, ih hes⟩
        rcases name_of_mem_change hf hx with hx | ⟨y, hy, hx⟩
        · exact hx ▸ hlt
        · exact hx ▸ he y hy

end MemoryCatalog

structure MemoryCatalog where
  entries : List CatalogEntry := []
  sorted : MemoryCatalog.Sorted entries := by exact List.Pairwise.nil
deriving DecidableEq

namespace MemoryCatalog

def registerType (c : MemoryCatalog) (t : TypeSpec) (bases : List TypeSpec) : MemoryCatalog :=
  ⟨change t.name (fun e => { e with bases := e.bases ++ bases }) c.entries,
    sorted_change (fun _ => rfl) c.sorted⟩

def registerMethod (c : MemoryCatalog) (m : MethodSpec) : MemoryCatalog :=
  ⟨change m.declaringType.name (fun e => { e with methods := e.methods ++ [m] }) c.entries,
    sorted_change (fun _ => rfl) c.sorted⟩

def registerEnum (c : MemoryCatalog) (t : TypeSpec) (names : List String) : MemoryCatalog :=
  ⟨change t.name (fun e => { e with enumNames := e.enumNames ++ names }) c.entries,
    sorted_change (fun _ => rfl) c.sorted⟩

def entry? (c : MemoryCatalog) (name : String) : Option CatalogEntry :=
  c.entries.find? (·.name = name)

/-- The bases declared under the type's name. -/
def basesOf (c : MemoryCatalog) (t : TypeSpec) : List TypeSpec :=
  match c.entry? t.name with
  | some e => e.bases
  | none => []

/-- The entries of other names. -/
def without (name : String) (entries : List CatalogEntry) : List CatalogEntry :=
  entries.filter (·.name ≠ name)

theorem length_without_lt {name : String} {entries : List CatalogEntry} {e : CatalogEntry}
    (h : entries.find? (·.name = name) = some e) : (without name entries).length < entries.length := by
  refine List.length_filter_lt_length_iff_exists.2 ⟨e, List.mem_of_find?_eq_some h, ?_⟩
  simpa using List.find?_some h

/-- Whether the target is among the `pending` types or reached from one of them. `left` holds the
entries whose bases have not been taken yet: each is taken once, so the search ends. -/
def reaches (target : TypeSpec) (left : List CatalogEntry) : (pending : List TypeSpec) → Bool
  | [] => false
  | t :: pending =>
    if t.Same target then true
    else
      match _found : left.find? (·.name = t.name) with
      | none => reaches target left pending
      | some e => reaches target (without t.name left) (pending ++ e.bases)
termination_by pending => (left.length, pending.length)
decreasing_by
  · simp [Prod.lex_def]
  · exact Prod.Lex.left _ _ (length_without_lt _found)

def isSubtype (c : MemoryCatalog) (a b : TypeSpec) : Bool :=
  if a.Same b then false
  else if b.isObject then !a.isObject
  else reaches b c.entries (c.basesOf a)

def toCatalog (c : MemoryCatalog) : TypeCatalog where
  isSubtype := c.isSubtype
  publicMethods t := ((c.entry? t.name).map (·.methods)).getD [] |>.filter (!·.isStatic)
  staticFunctions := c.entries.flatMap fun e => e.methods.filter (·.isStatic)
  enumNames t := ((c.entry? t.name).map (·.enumNames)).getD []

end MemoryCatalog

/-- The signature that a method's description gives; a `System.Void` result is none. -/
def MethodSpec.ofReflected (declaringType : TypeSpec) (m : ReflectedMethod) :
    Except TypeError MethodSpec := do
  let argumentTypes ← m.parameters.mapM TypeSpec.ofReflected
  let results := m.result.toList.filter (!·.isVoid)
  let returnTypes ← results.mapM TypeSpec.ofReflected
  return { name := m.name, declaringType, argumentTypes, returnTypes, isStatic := m.isStatic }

namespace MemoryCatalog

/-- Adds one description: its bases, its methods that have a plain name, its names if an enum. -/
def addReflected (c : MemoryCatalog) (r : ReflectedType) : Except TypeError MemoryCatalog := do
  let t ← TypeSpec.ofReflected r
  let bases ← (r.base.toList ++ r.interfaces).mapM TypeSpec.ofReflected
  let methods ← (r.methods.filter (!·.isSpecial)).mapM (MethodSpec.ofReflected t)
  let c := methods.foldl registerMethod (c.registerType t bases)
  return if r.isEnum then c.registerEnum t r.enumNames else c

/-- The catalog of the public ones among some descriptions. -/
def load (types : List ReflectedType) : Except TypeError MemoryCatalog :=
  (types.filter (·.isPublic)).foldlM addReflected {}

end MemoryCatalog

/-- Why a text holds no catalog. -/
inductive CatalogError where
  | unreadable
  | type (cause : TypeError)
deriving DecidableEq

def CatalogError.message : CatalogError → String
  | .unreadable => "Failed to parse type descriptions"
  | .type e => s!"Invalid type description: {e.message}"

/-- Loads a catalog from the JSON text of an array of descriptions. -/
def MemoryCatalog.ofText (text : String) : Except CatalogError MemoryCatalog :=
  match Document.decodeText (Document.asList ReflectedType.ofJson) text with
  | .error _ => .error .unreadable
  | .ok types => (MemoryCatalog.load types).mapError .type

end VisualScript
