import Mathlib.Data.List.Forall2
import VisualScript.Project.Build
import VisualScript.Proofs.Class.Members

/-!
# What a build reports

A class is `Broken` if a name in it clashes or a method has no source. Whatever is wrong with it is told
(`Class.Explained`), and a class that is not broken is made up of the sources of all its methods (`Class.Written`).

`Project.Builds` puts this together for the classes of a project. Both lists of outcomes keep the order of the
classes, and a class has no part in the outcome of another one. The compiler is a parameter of the build: where a
class is broken the build is the same for every compiler, and otherwise it depends on the answer to one request
alone.
-/

namespace VisualScript

/-! ### Outcomes in order -/

section Outcomes

variable {α β ε : Type}

/-- The error of an outcome, if it is no `ok`. -/
def error? : Except ε α → Option ε
  | .ok _ => none
  | .error e => some e

theorem forall₂_filterMap_of_forall {f : α → Option β} {l : List α} (h : ∀ a ∈ l, ∃ b, f a = some b) :
    List.Forall₂ (fun a b => f a = some b) l (l.filterMap f) := by
  induction l with
  | nil => exact .nil
  | cons a l ih =>
    obtain ⟨hhead, htail⟩ := List.forall_mem_cons.1 h
    obtain ⟨b, hb⟩ := hhead
    rw [List.filterMap_cons_some hb]
    exact .cons hb (ih htail)

/-- What `f` picks from a list stands in the order of the list. -/
theorem forall₂_filterMap {f : α → Option β} {P : α → Prop} [DecidablePred P] (h : ∀ a, P a ↔ ∃ b, f a = some b)
    (l : List α) : List.Forall₂ (fun a b => f a = some b) (l.filter P) (l.filterMap f) := by
  have hpicked : l.filterMap f = (l.filter P).filterMap f := by
    rw [List.filterMap_filter]
    refine List.filterMap_congr fun a _ => ?_
    by_cases hP : P a
    · simp [hP]
    · have hnone : f a = none := Option.eq_none_iff_forall_ne_some.2 fun b hb => hP ((h a).2 ⟨b, hb⟩)
      simp [hP, hnone]
  rw [hpicked]
  refine forall₂_filterMap_of_forall fun a ha => (h a).1 ?_
  simpa using (List.mem_filter.1 ha).2

end Outcomes

/-! ### Classes -/

namespace Class

variable {catalog : TypeCatalog} {config : Config} {c : Class}

/-- A name of the class clashes (`Clashes`) or a method has no source. -/
def Broken (catalog : TypeCatalog) (config : Config) (c : Class) : Prop :=
  (∃ name, c.Clashes name) ∨ ∃ m ∈ c.methods, ∃ cause, m.sourceText catalog config = .error cause

/-- The error `e` is that of the method `m`, which has no source. -/
def Blames (catalog : TypeCatalog) (config : Config) (c : Class) (m : Method) (e : ClassError) : Prop :=
  ∃ cause, m.sourceText catalog config = .error cause ∧ e = .method c.fullName m.name cause

/-- `f` has all clashing names of the class, then the methods that have no source, in order, each with its
error. -/
structure Explained (catalog : TypeCatalog) (config : Config) (c : Class) (f : ClassFailure) : Prop where
  fullName : f.fullName = c.fullName
  names : c.duplicateNames.Nodup ∧ ∀ name, name ∈ c.duplicateNames ↔ c.Clashes name
  errors : ∃ faults, f.errors = c.duplicateNames.map (.duplicateName c.fullName) ++ faults ∧
    List.Forall₂ (c.Blames catalog config)
      (c.methods.filter fun m => (m.sourceText catalog config).isOk = false) faults

/-- The source `s` of the class is put together from the sources of all its methods, in order. -/
structure Written (catalog : TypeCatalog) (config : Config) (c : Class) (s : ClassSource) : Prop where
  fullName : s.fullName = c.fullName
  source : ∃ texts, List.Forall₂ (fun m text => m.sourceText catalog config = .ok text) c.methods texts ∧
    s.source = Line.renderAll config (c.lines config texts)

theorem error?_methodText_eq_some_iff {m : Method} {e : ClassError} :
    error? (c.methodText catalog config m) = some e ↔ c.Blames catalog config m e := by
  unfold methodText Blames
  cases m.sourceText catalog config <;> simp [error?, Except.mapError, eq_comm]

theorem faults_methodTexts (c : Class) : faults (c.methodTexts catalog config) =
    c.methods.filterMap fun m => error? (c.methodText catalog config m) := by
  unfold faults methodTexts
  rw [List.filterMap_map]
  refine List.filterMap_congr fun m _ => ?_
  rw [Function.comp_apply]
  cases c.methodText catalog config m <;> rfl

theorem forall₂_faults (c : Class) :
    List.Forall₂ (c.Blames catalog config) (c.methods.filter fun m => (m.sourceText catalog config).isOk = false)
      (faults (c.methodTexts catalog config)) := by
  rw [faults_methodTexts]
  have hfails : ∀ m : Method, (m.sourceText catalog config).isOk = false ↔
      ∃ e, error? (c.methodText catalog config m) = some e := by
    intro m
    simp only [error?_methodText_eq_some_iff, Blames]
    cases m.sourceText catalog config <;> simp [Except.isOk, Except.toBool]
  refine (forall₂_filterMap hfails c.methods).imp fun m e h => ?_
  exact error?_methodText_eq_some_iff.1 h

theorem faults_eq_nil_iff : faults (c.methodTexts catalog config) = [] ↔
    ∀ m ∈ c.methods, ∃ text, m.sourceText catalog config = .ok text := by
  rw [faults_methodTexts, List.filterMap_eq_nil_iff]
  refine forall₂_congr fun m _ => ?_
  unfold methodText
  cases m.sourceText catalog config <;> simp [error?, Except.mapError]

theorem not_broken_iff : ¬ c.Broken catalog config ↔
    (∀ name, ¬ c.Clashes name) ∧ ∀ m ∈ c.methods, ∃ text, m.sourceText catalog config = .ok text := by
  unfold Broken
  rw [not_or, not_exists]
  refine and_congr_right fun _ => ?_
  push Not
  refine forall₂_congr fun m _ => ?_
  cases m.sourceText catalog config <;> simp

theorem errors_eq_nil_iff : c.errors catalog config = [] ↔ ¬ c.Broken catalog config := by
  unfold errors
  rw [not_broken_iff, List.append_eq_nil_iff, List.map_eq_nil_iff, duplicateNames_eq_nil_iff, faults_eq_nil_iff]

instance (c : Class) : Decidable (c.Broken catalog config) :=
  decidable_of_iff (c.errors catalog config ≠ []) (by rw [ne_eq, errors_eq_nil_iff, not_not])

theorem source_of_broken (h : c.Broken catalog config) :
    c.source catalog config = .error ⟨c.fullName, c.errors catalog config⟩ := by
  have hne : (c.errors catalog config).isEmpty = false := by
    rw [List.isEmpty_eq_false_iff, ne_eq, errors_eq_nil_iff, not_not]
    exact h
  unfold source
  simp only [hne]
  rfl

theorem source_of_not_broken (h : ¬ c.Broken catalog config) :
    c.source catalog config =
      .ok ⟨c.fullName, Line.renderAll config (c.lines config (texts (c.methodTexts catalog config)))⟩ := by
  unfold source
  rw [errors_eq_nil_iff.2 h]
  rfl

theorem explained (c : Class) : c.Explained catalog config ⟨c.fullName, c.errors catalog config⟩ where
  fullName := rfl
  names := ⟨c.nodup_duplicateNames, fun _ => mem_duplicateNames⟩
  errors := ⟨faults (c.methodTexts catalog config), rfl, c.forall₂_faults⟩

theorem forall₂_texts (h : ∀ m ∈ c.methods, ∃ text, m.sourceText catalog config = .ok text) :
    List.Forall₂ (fun m text => m.sourceText catalog config = .ok text) c.methods
      (texts (c.methodTexts catalog config)) := by
  have htexts : texts (c.methodTexts catalog config) =
      c.methods.filterMap fun m => (c.methodText catalog config m).toOption := by
    unfold texts methodTexts
    rw [List.filterMap_map]
    rfl
  have htext : ∀ m text, (c.methodText catalog config m).toOption = some text ↔
      m.sourceText catalog config = .ok text := by
    intro m text
    unfold methodText
    cases m.sourceText catalog config <;> simp [Except.mapError, Except.toOption]
  rw [htexts]
  refine (forall₂_filterMap_of_forall fun m hm => ?_).imp fun m text => (htext m text).1
  obtain ⟨text, h⟩ := h m hm
  exact ⟨text, (htext m text).2 h⟩

theorem written (h : ¬ c.Broken catalog config) :
    ∃ s, c.source catalog config = .ok s ∧ c.Written catalog config s :=
  ⟨_, source_of_not_broken h, rfl, _, forall₂_texts (not_broken_iff.1 h).2, rfl⟩

end Class

/-! ### Projects -/

namespace Project

variable {catalog : TypeCatalog} {config : Config}

/-- What `build` makes of the classes of a project, and of what the compiler answers. -/
structure Builds (p : Project) (catalog : TypeCatalog) (config : Config) : Prop where
  /-- Each class that is `Broken` is reported, in order. -/
  failed : List.Forall₂ (Class.Explained catalog config) (p.classes.filter fun c => c.Broken catalog config)
    (p.sources catalog config).failed
  /-- Each of the others has a source, in order. -/
  succeeded : List.Forall₂ (Class.Written catalog config) (p.classes.filter fun c => ¬ c.Broken catalog config)
    (p.sources catalog config).succeeded
  /-- Whichever class stands at a place, the outcomes of the classes before and after it are the same. -/
  apart : ∀ before later, ∃ s₁ s₂ f₁ f₂, ∀ c : Class,
    { p with classes := before ++ c :: later }.sources catalog config =
      match c.source catalog config with
      | .ok s => ⟨s₁ ++ s :: s₂, f₁ ++ f₂⟩
      | .error f => ⟨s₁ ++ s₂, f₁ ++ f :: f₂⟩
  /-- If some class is broken, then no compiler is asked. -/
  refused : (∃ c ∈ p.classes, c.Broken catalog config) → p.request? catalog config = none ∧
    ∀ compiler, p.build catalog config compiler = .error (.sources (p.sources catalog config).failed)
  /-- Otherwise the compiler gets one source per class, in order. Errors that it reports are reported alone, and
  without errors all that it reports is passed on. -/
  asked : (∀ c ∈ p.classes, ¬ c.Broken catalog config) → ∃ r, p.request? catalog config = some r ∧
    List.Forall₂ (fun c text => ∃ s, c.Written catalog config s ∧ s.source = text) p.classes r.sources ∧
    r.outputName = s!"{p.name}.{p.outputKind.extension}" ∧ r.outputKind = p.outputKind ∧
    r.references = p.references ∧
    ∀ compiler,
      ((compiler r).diagnostics.filter (·.severity = .error) = [] → p.build catalog config compiler =
        .ok ⟨(compiler r).artifact, (p.sources catalog config).succeeded, (compiler r).diagnostics⟩) ∧
      ((compiler r).diagnostics.filter (·.severity = .error) ≠ [] → p.build catalog config compiler =
        .error (.compilation ((compiler r).diagnostics.filter (·.severity = .error))))
  /-- A build succeeds if no name clashes, every method has a source, and the compiler finds no error. -/
  succeeds : ∀ compiler, (∃ output, p.build catalog config compiler = .ok output) ↔
    (∀ c ∈ p.classes, (∀ name, ¬ c.Clashes name) ∧
      ∀ m ∈ c.methods, ∃ text, m.sourceText catalog config = .ok text) ∧
      ∀ r, p.request? catalog config = some r → ∀ d ∈ (compiler r).diagnostics, d.severity ≠ .error

theorem failed_sources (p : Project) :
    (p.sources catalog config).failed = p.classes.filterMap fun c => error? (c.source catalog config) := by
  simp only [sources, List.filterMap_map]
  refine List.filterMap_congr fun c _ => ?_
  rw [Function.comp_apply]
  cases c.source catalog config <;> rfl

theorem succeeded_sources (p : Project) :
    (p.sources catalog config).succeeded = p.classes.filterMap fun c => (c.source catalog config).toOption := by
  simp only [sources, List.filterMap_map]
  rfl

theorem error?_source_eq_some_iff {c : Class} {f : ClassFailure} :
    error? (c.source catalog config) = some f ↔
      c.Broken catalog config ∧ f = ⟨c.fullName, c.errors catalog config⟩ := by
  by_cases h : c.Broken catalog config
  · rw [Class.source_of_broken h]
    simp [error?, h, eq_comm]
  · rw [Class.source_of_not_broken h]
    simp [error?, h]

theorem written_of_toOption {c : Class} {s : ClassSource} (h : (c.source catalog config).toOption = some s) :
    c.Written catalog config s := by
  by_cases hc : c.Broken catalog config
  · rw [Class.source_of_broken hc] at h
    cases h
  · obtain ⟨s', hs', hwritten⟩ := Class.written hc
    rw [hs'] at h
    cases h
    exact hwritten

theorem exists_toOption_iff {c : Class} :
    (∃ s, (c.source catalog config).toOption = some s) ↔ ¬ c.Broken catalog config := by
  by_cases h : c.Broken catalog config
  · rw [Class.source_of_broken h]
    simp [h, Except.toOption]
  · rw [Class.source_of_not_broken h]
    simp [h, Except.toOption]

theorem forall₂_failed (p : Project) :
    List.Forall₂ (Class.Explained catalog config) (p.classes.filter fun c => c.Broken catalog config)
      (p.sources catalog config).failed := by
  rw [failed_sources]
  refine (forall₂_filterMap (fun c => ?_) p.classes).imp fun c f hf => ?_
  · simp [error?_source_eq_some_iff]
  · obtain ⟨-, rfl⟩ := error?_source_eq_some_iff.1 hf
    exact c.explained

theorem forall₂_succeeded (p : Project) :
    List.Forall₂ (Class.Written catalog config) (p.classes.filter fun c => ¬ c.Broken catalog config)
      (p.sources catalog config).succeeded := by
  rw [succeeded_sources]
  have hsource : ∀ c : Class, ¬ c.Broken catalog config ↔ ∃ s, (c.source catalog config).toOption = some s :=
    fun c => exists_toOption_iff.symm
  exact (forall₂_filterMap hsource p.classes).imp fun c s hs => written_of_toOption hs

theorem isEmpty_failed_iff {p : Project} : (p.sources catalog config).failed.isEmpty = true ↔
    ∀ c ∈ p.classes, ¬ c.Broken catalog config := by
  rw [List.isEmpty_iff, failed_sources, List.filterMap_eq_nil_iff]
  refine forall₂_congr fun c _ => ?_
  rw [Option.eq_none_iff_forall_ne_some]
  simp [error?_source_eq_some_iff]

/-- A class `c` adds its own outcome to those of the classes before and after it. -/
theorem sources_split (p : Project) (before later : List Class) (c : Class) :
    { p with classes := before ++ c :: later }.sources catalog config =
      match c.source catalog config with
      | .ok s => ⟨({ p with classes := before }.sources catalog config).succeeded ++
          s :: ({ p with classes := later }.sources catalog config).succeeded,
          ({ p with classes := before }.sources catalog config).failed ++
          ({ p with classes := later }.sources catalog config).failed⟩
      | .error f => ⟨({ p with classes := before }.sources catalog config).succeeded ++
          ({ p with classes := later }.sources catalog config).succeeded,
          ({ p with classes := before }.sources catalog config).failed ++
          f :: ({ p with classes := later }.sources catalog config).failed⟩ := by
  simp only [sources, List.map_append, List.map_cons, List.filterMap_append]
  cases c.source catalog config <;> rfl

theorem request?_of_broken {p : Project} (h : ∃ c ∈ p.classes, c.Broken catalog config) :
    p.request? catalog config = none ∧
      ∀ compiler, p.build catalog config compiler = .error (.sources (p.sources catalog config).failed) := by
  have hfailed : (p.sources catalog config).failed.isEmpty = false := by
    rw [← Bool.not_eq_true, isEmpty_failed_iff]
    push Not
    exact h
  constructor
  · simp only [request?, hfailed]
    rfl
  · intro compiler
    simp only [build, hfailed]
    rfl

theorem request?_of_not_broken {p : Project} (h : ∀ c ∈ p.classes, ¬ c.Broken catalog config) :
    p.request? catalog config = some (p.request (p.sources catalog config).succeeded) := by
  simp only [request?, isEmpty_failed_iff.2 h]
  rfl

/-- `request` has one source per class, in the order of the classes. -/
theorem forall₂_request {p : Project} (h : ∀ c ∈ p.classes, ¬ c.Broken catalog config) :
    List.Forall₂ (fun c text => ∃ s, c.Written catalog config s ∧ s.source = text) p.classes
      (p.request (p.sources catalog config).succeeded).sources := by
  have hwritten : List.Forall₂ (Class.Written catalog config) _ _ := p.forall₂_succeeded
  -- where no class is broken the filter keeps all of them
  rw [List.filter_eq_self.2 fun c hc => by simpa using h c hc] at hwritten
  exact List.forall₂_map_right_iff.2 (hwritten.imp fun c s hs => ⟨s, hs, rfl⟩)

theorem filter_severity_eq_nil_iff {ds : List Diagnostic} :
    ds.filter (·.severity = .error) = [] ↔ ∀ d ∈ ds, d.severity ≠ .error := by
  simp [List.filter_eq_nil_iff]

variable {p : Project} {compiler : Compiler} {request : BuildRequest}

/-- If the compiler reports no error, then `build` passes on all that it reports. -/
theorem build_eq_ok (h : ∀ c ∈ p.classes, ¬ c.Broken catalog config)
    (hr : p.request? catalog config = some request)
    (hnone : (compiler request).diagnostics.filter (·.severity = .error) = []) :
    p.build catalog config compiler =
      .ok ⟨(compiler request).artifact, (p.sources catalog config).succeeded, (compiler request).diagnostics⟩ := by
  rw [request?_of_not_broken h, Option.some_inj] at hr
  subst hr
  -- the diagnostics that are no errors are all of them, so their order is kept too
  have hothers : (compiler (p.request (p.sources catalog config).succeeded)).diagnostics.filter
      (not ∘ fun d => d.severity = .error) =
        (compiler (p.request (p.sources catalog config).succeeded)).diagnostics :=
    List.filter_eq_self.2 fun d hd => by simpa using filter_severity_eq_nil_iff.1 hnone d hd
  simp only [build, isEmpty_failed_iff.2 h, List.partition_eq_filter_filter, hnone, hothers]
  rfl

/-- If it reports errors, then `build` fails with these alone. -/
theorem build_eq_compilation (h : ∀ c ∈ p.classes, ¬ c.Broken catalog config)
    (hr : p.request? catalog config = some request)
    (hsome : (compiler request).diagnostics.filter (·.severity = .error) ≠ []) :
    p.build catalog config compiler =
      .error (.compilation ((compiler request).diagnostics.filter (·.severity = .error))) := by
  rw [request?_of_not_broken h, Option.some_inj] at hr
  subst hr
  simp only [build, isEmpty_failed_iff.2 h, List.partition_eq_filter_filter, List.isEmpty_eq_false_iff.2 hsome]
  rfl

theorem build_succeeds_iff : (∃ output, p.build catalog config compiler = .ok output) ↔
    (∀ c ∈ p.classes, ¬ c.Broken catalog config) ∧
      ∀ r, p.request? catalog config = some r → ∀ d ∈ (compiler r).diagnostics, d.severity ≠ .error := by
  by_cases h : ∀ c ∈ p.classes, ¬ c.Broken catalog config
  · have hr := request?_of_not_broken h
    rw [and_iff_right h, hr]
    simp only [Option.some.injEq, forall_eq', ← filter_severity_eq_nil_iff]
    constructor
    · rintro ⟨output, hbuild⟩
      by_contra hsome
      rw [build_eq_compilation h hr hsome] at hbuild
      cases hbuild
    · intro hnone
      exact ⟨_, build_eq_ok h hr hnone⟩
  · have hbroken : ∃ c ∈ p.classes, c.Broken catalog config := by
      push Not at h
      exact h
    simp [(request?_of_broken hbroken).2 compiler, h]

/-- `build` neither drops nor mixes up what comes of the classes and what the compiler reports. -/
theorem builds (p : Project) (catalog : TypeCatalog) (config : Config) : p.Builds catalog config where
  failed := p.forall₂_failed
  succeeded := p.forall₂_succeeded
  apart before later := ⟨_, _, _, _, fun c => p.sources_split before later c⟩
  refused := request?_of_broken
  asked h := by
    have hr := request?_of_not_broken h
    exact ⟨_, hr, forall₂_request h, rfl, rfl, rfl, fun compiler => ⟨build_eq_ok h hr, build_eq_compilation h hr⟩⟩
  succeeds compiler := by
    simp only [← Class.not_broken_iff]
    exact build_succeeds_iff

/-- Assigns the variable `x` and has no value for it. -/
def unassigned : Method :=
  ((do
    let id ← GraphM.addNode (.setter ⟨"x", .int⟩) {}
    let _ ← GraphM.connect (.ofPairs []) (.execOut 0 0) (.execIn id 0)
    return () : GraphM Unit).exec (.make "First" [] [])).2

/-- A class with all that can be wrong with one: two attributes and a method are named `x`, and the setter of
`unassigned` lacks its value. -/
def clashing : Class where
  name := "Broken"
  space := "Game"
  attributes := [{ name := "x", type := .int }, { name := "x", type := .bool }]
  methods := [unassigned, .make "x" [] [], .make "Fine" [] []]

def mixed : Project where
  name := "Demo"
  defaultSpace := "Game"
  classes := [clashing, { name := "Whole", space := "Game", methods := [.make "Run" [] []] }]

theorem builds_mixed :
    (∃ c ∈ mixed.classes, c.Broken (.ofPairs []) {}) ∧
      (mixed.sources (.ofPairs []) {}).succeeded.map (·.fullName) = ["Game.Whole"] ∧
      ∀ compiler, mixed.build (.ofPairs []) {} compiler = .error (.sources
        [⟨"Game.Broken", [.duplicateName "Game.Broken" "x",
          .method "Game.Broken" "First" (.missingConnection 1 "Set x" "Value")]⟩]) := by
  have hbroken : ∃ c ∈ mixed.classes, c.Broken (.ofPairs []) {} :=
    ⟨clashing, List.mem_cons_self, by decide +kernel⟩
  obtain ⟨-, hbuild⟩ := (builds mixed (.ofPairs []) {}).refused hbroken
  refine ⟨hbroken, by decide +kernel, fun compiler => ?_⟩
  rw [hbuild]
  decide +kernel

end Project

end VisualScript
