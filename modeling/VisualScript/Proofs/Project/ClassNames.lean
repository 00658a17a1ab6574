import Mathlib.Data.List.Induction
import VisualScript.Project.Basic
import VisualScript.Proofs.Project.FreshNames

/-!
# Full names of classes

A class that is added is compared by its full name with every class of the project. A class that is created is
compared by its simple name, and only with the classes of the default namespace. A class of another namespace may
have the same full name if there is a dot in its simple name, and then two classes of one full name stand in the
project.

* `distinct_createClass_iff`: just when that happens.
* `Eclipses`: of two classes of one full name, the first is from another namespace and the second was created. Any
  two such classes of any project that changes lead to are of this sort (`pairwise_run`).
* `distinct_of_dotless`: it does not happen as long as simple names have no dot.
-/

namespace VisualScript

/-! ### Parts of a full name -/

theorem append_dot_inj {a b a' b' : List Char} (hb : '.' ∉ b) (hb' : '.' ∉ b')
    (h : a ++ '.' :: b = a' ++ '.' :: b') : a = a' ∧ b = b' := by
  rcases List.append_eq_append_iff.1 h with ⟨_ | ⟨x, xs⟩, ha, hcons⟩ | ⟨_ | ⟨x, xs⟩, ha, hcons⟩
  · simp_all
  · obtain ⟨-, rfl⟩ := List.cons.inj hcons
    simp at hb
  · simp_all
  · obtain ⟨-, rfl⟩ := List.cons.inj hcons
    simp at hb'

namespace Class

variable {c d : Class}

/-- No dot in the simple name `c.name`. -/
def Dotless (c : Class) : Prop := '.' ∉ c.name.toList

instance (c : Class) : Decidable c.Dotless := inferInstanceAs (Decidable (¬ _))

theorem toList_fullName (c : Class) :
    c.fullName.toList = if c.space.isEmpty then c.name.toList else c.space.toList ++ '.' :: c.name.toList := by
  unfold fullName
  split_ifs <;> simp

theorem name_eq_of_fullName (hs : c.space = d.space) (h : c.fullName = d.fullName) : c.name = d.name := by
  have hlist := congrArg String.toList h
  rw [toList_fullName, toList_fullName, hs] at hlist
  refine String.toList_injective ?_
  split_ifs at hlist
  · exact hlist
  · exact List.cons.inj (List.append_cancel_left hlist) |>.2

/-- Where simple names have no dot, the last dot of `fullName` ends the namespace. -/
theorem Dotless.space_eq_of_fullName (hc : c.Dotless) (hd : d.Dotless) (h : c.fullName = d.fullName) :
    c.space = d.space := by
  have hlist := congrArg String.toList h
  rw [toList_fullName, toList_fullName] at hlist
  split_ifs at hlist with hcs hds hds
  · rw [String.isEmpty_iff.1 hcs, String.isEmpty_iff.1 hds]
  · exact absurd (by rw [hlist]; simp) hc
  · exact absurd (by rw [← hlist]; simp) hd
  · exact String.toList_injective (append_dot_inj hc hd hlist).1

end Class

namespace Project

variable {p : Project} {c d : Class}

/-! ### Changes -/

/-- A change of the classes of a `Project`. -/
inductive Change where
  | add (c : Class)
  | create
  | remove (fullName : String)

/-- The project after a change. A class that is refused changes nothing. -/
def after (p : Project) : Change → Project
  | .add c => (p.addClass c).toOption.getD p
  | .create => p.createClass
  | .remove fullName => (p.removeClass fullName).2

/-- The project after `changes` in turn. -/
def run (p : Project) (changes : List Change) : Project := changes.foldl after p

/-- A project without classes, whose default namespace is `space`. -/
def make (name space : String) : Project := { name := name, defaultSpace := space }

theorem run_concat (p : Project) (changes : List Change) (change : Change) :
    p.run (changes ++ [change]) = (p.run changes).after change := by
  simp [run, List.foldl_append]

theorem class?_eq_none_iff {fullName : String} :
    p.class? fullName = none ↔ ∀ d ∈ p.classes, d.fullName ≠ fullName := by
  simp [class?]

/-- A class is added at the end, unless its `fullName` is taken. -/
theorem after_add (p : Project) (c : Class) :
    p.after (.add c) = p ∨
      (∀ d ∈ p.classes, d.fullName ≠ c.fullName) ∧ p.after (.add c) = { p with classes := p.classes ++ [c] } := by
  rw [show p.after (.add c) = (p.addClass c).toOption.getD p from rfl, addClass]
  cases h : p.class? c.fullName with
  | some d => exact Or.inl rfl
  | none => exact Or.inr ⟨class?_eq_none_iff.1 h, rfl⟩

theorem defaultSpace_after (p : Project) (change : Change) : (p.after change).defaultSpace = p.defaultSpace := by
  cases change with
  | add c =>
    rcases p.after_add c with h | ⟨-, h⟩ <;> rw [h]
  | create => rfl
  | remove fullName => rfl

theorem defaultSpace_run (p : Project) (changes : List Change) :
    (p.run changes).defaultSpace = p.defaultSpace := by
  induction changes using List.reverseRecOn with
  | nil => rfl
  | append_singleton changes change ih => rw [run_concat, defaultSpace_after, ih]

/-- The simple names that a created class is compared with: those of the classes in `defaultSpace`. -/
def simpleNames (p : Project) : List String := (p.classes.filter (·.space = p.defaultSpace)).map (·.name)

theorem newClass_eq (p : Project) :
    p.newClass = { name := freshName "MyClass" p.simpleNames, space := p.defaultSpace } := rfl

/-- `newClass` differs from the classes of `defaultSpace`. -/
theorem fullName_newClass_ne (hc : c ∈ p.classes) (hs : c.space = p.defaultSpace) :
    c.fullName ≠ p.newClass.fullName := by
  intro h
  have hname : c.name = freshName "MyClass" p.simpleNames := Class.name_eq_of_fullName hs h
  have hmem : c.name ∈ p.simpleNames :=
    List.mem_map_of_mem (List.mem_filter.2 ⟨hc, by simpa using hs⟩)
  rw [hname] at hmem
  exact freshName_not_mem _ _ hmem

/-! ### Distinct full names -/

/-- No two classes have the same `fullName`. -/
def Distinct (p : Project) : Prop := (p.classes.map Class.fullName).Nodup

instance (p : Project) : Decidable p.Distinct := inferInstanceAs (Decidable (List.Nodup _))

/-- No class of another namespace has the full name that `newClass` gets next. -/
def NewNameFree (p : Project) : Prop :=
  ∀ c ∈ p.classes, c.space ≠ p.defaultSpace → c.fullName ≠ p.newClass.fullName

theorem distinct_append_iff :
    { p with classes := p.classes ++ [c] }.Distinct ↔ p.Distinct ∧ ∀ d ∈ p.classes, d.fullName ≠ c.fullName := by
  unfold Distinct
  rw [List.map_append, List.nodup_append]
  simp

theorem distinct_createClass_iff : p.createClass.Distinct ↔ p.Distinct ∧ p.NewNameFree := by
  unfold createClass
  rw [distinct_append_iff]
  refine and_congr_right fun _ => ⟨fun h c hc _ => h c hc, fun h c hc => ?_⟩
  by_cases hs : c.space = p.defaultSpace
  · exact fullName_newClass_ne hc hs
  · exact h c hc hs

/-- Only `create` can take a full name that another class has. -/
theorem Distinct.after_of_ne_create {change : Change} (h : p.Distinct) (hne : change ≠ .create) :
    (p.after change).Distinct := by
  cases change with
  | create => exact absurd rfl hne
  | remove fullName => exact List.Nodup.sublist (List.eraseP_sublist.map _) h
  | add c =>
    rcases p.after_add c with hp | ⟨hfree, hp⟩ <;> rw [hp]
    · exact h
    · exact distinct_append_iff.2 ⟨h, hfree⟩

theorem distinct_run_iff (h : p.Distinct) (changes : List Change) :
    (∀ done, done <+: changes → (p.run done).Distinct) ↔
      ∀ done, done ++ [.create] <+: changes → (p.run done).NewNameFree := by
  constructor
  · -- the changes up to and with the creation leave distinct names
    intro hall done hdone
    have hd := hall _ hdone
    rw [run_concat] at hd
    exact (distinct_createClass_iff.1 hd).2
  · intro hfree done
    induction done using List.reverseRecOn with
    | nil => exact fun _ => h
    | append_singleton done change ih =>
      intro hdone
      have hd : (p.run done).Distinct := ih ((List.prefix_append done [change]).trans hdone)
      rw [run_concat]
      by_cases hchange : change = .create
      · subst hchange
        exact distinct_createClass_iff.2 ⟨hd, hfree done hdone⟩
      · exact hd.after_of_ne_create hchange

theorem Distinct.class?_of_mem (h : p.Distinct) (hc : c ∈ p.classes) : p.class? c.fullName = some c := by
  cases hfind : p.class? c.fullName with
  | none => exact absurd rfl (class?_eq_none_iff.1 hfind c hc)
  | some d =>
    have hname : d.fullName = c.fullName := by simpa using List.find?_some hfind
    rw [List.inj_on_of_nodup_map h (List.mem_of_find?_eq_some hfind) hc hname]

/-! ### Classes of one full name -/

/-- The class `c` is of another namespace than `space` and `d` was created in `space`. -/
def Eclipses (space : String) (c d : Class) : Prop :=
  c.space ≠ space ∧ ∃ taken, d = { name := freshName "MyClass" taken, space := space }

/-- If `c` and `d` have one full name, they are of different namespaces, and `d` was created. -/
def Apart (space : String) (c d : Class) : Prop := c.fullName = d.fullName → Eclipses space c d

theorem pairwise_append (h : p.classes.Pairwise (Apart p.defaultSpace))
    (hc : ∀ d ∈ p.classes, Apart p.defaultSpace d c) : (p.classes ++ [c]).Pairwise (Apart p.defaultSpace) :=
  List.pairwise_append.2 ⟨h, List.pairwise_singleton _ _, fun d hd c' hc' => by
    rw [List.mem_singleton.1 hc']
    exact hc d hd⟩

theorem pairwise_after (h : p.classes.Pairwise (Apart p.defaultSpace)) (change : Change) :
    (p.after change).classes.Pairwise (Apart p.defaultSpace) := by
  -- a class that is added has a full name of its own, so only a created one can share one
  cases change with
  | remove fullName => exact h.sublist List.eraseP_sublist
  | add c =>
    rcases p.after_add c with hp | ⟨hfree, hp⟩ <;> rw [hp]
    · exact h
    · exact pairwise_append h fun d hd he => absurd he (hfree d hd)
  | create =>
    exact pairwise_append h fun d hd he =>
      ⟨fun hs => fullName_newClass_ne hd hs he, p.simpleNames, p.newClass_eq⟩

theorem pairwise_run (h : p.classes.Pairwise (Apart p.defaultSpace)) (changes : List Change) :
    (p.run changes).classes.Pairwise (Apart p.defaultSpace) := by
  induction changes using List.reverseRecOn with
  | nil => exact h
  | append_singleton changes change ih =>
    rw [run_concat, ← p.defaultSpace_run changes]
    rw [← p.defaultSpace_run changes] at ih
    exact pairwise_after ih change

/-- A class is found by its `fullName`, unless another one `Eclipses` it. -/
theorem class?_of_mem {space : String} (h : p.classes.Pairwise (Apart space)) (hc : c ∈ p.classes) :
    ∃ d, p.class? c.fullName = some d ∧ d.fullName = c.fullName ∧ (d = c ∨ Eclipses space d c) := by
  cases hfind : p.class? c.fullName with
  | none => exact absurd rfl (class?_eq_none_iff.1 hfind c hc)
  | some d =>
    obtain ⟨hd, before, later, hclasses, hbefore⟩ := List.find?_eq_some_iff_append.1 hfind
    have hname : d.fullName = c.fullName := by simpa using hd
    refine ⟨d, rfl, hname, ?_⟩
    rw [hclasses] at hc h
    -- what is found is the first class of that name, so `c` does not stand before it
    rcases List.mem_append.1 hc with hmem | hmem
    · simpa using hbefore c hmem
    · rcases List.mem_cons.1 hmem with rfl | hlater
      · exact Or.inl rfl
      · have hpairs := (List.pairwise_cons.1 (List.pairwise_append.1 h).2.1).1
        exact Or.inr (hpairs c hlater hname)

/-! ### Simple names without dots -/

theorem dotless_newClass (p : Project) : p.newClass.Dotless := by
  have hbase : '.' ∉ "MyClass".toList := by decide
  rw [newClass_eq]
  show '.' ∉ (freshName "MyClass" p.simpleNames).toList
  rcases freshName_eq "MyClass" p.simpleNames with h | ⟨k, h⟩
  · rw [h]
    exact hbase
  · have hk : '.' ∉ Nat.toDigits 10 k := fun hmem =>
      absurd (Nat.isDigit_of_mem_toDigits (by decide) (by decide) hmem) (by decide)
    have hlist : (freshName "MyClass" p.simpleNames).toList = "MyClass".toList ++ Nat.toDigits 10 k := by
      rw [h, String.toList_append]
      exact congrArg _ Nat.toList_repr
    rw [hlist, List.mem_append, not_or]
    exact ⟨hbase, hk⟩

theorem dotless_run {changes : List Change} (hp : ∀ c ∈ p.classes, c.Dotless)
    (hadd : ∀ c, .add c ∈ changes → c.Dotless) : ∀ c ∈ (p.run changes).classes, c.Dotless := by
  induction changes using List.reverseRecOn with
  | nil => exact hp
  | append_singleton changes change ih =>
    have hold := ih fun c hc => hadd c (by simp [hc])
    rw [run_concat]
    intro c hc
    cases change with
    | remove fullName => exact hold c (List.mem_of_mem_eraseP hc)
    | create =>
      rcases List.mem_append.1 hc with hc | hc
      · exact hold c hc
      · rw [List.mem_singleton.1 hc]
        exact dotless_newClass _
    | add a =>
      -- a class that is refused changes nothing
      rcases (p.run changes).after_add a with h | ⟨-, h⟩ <;> rw [h] at hc
      · exact hold c hc
      · rcases List.mem_append.1 hc with hc | hc
        · exact hold c hc
        · rw [List.mem_singleton.1 hc]
          exact hadd a (by simp)

theorem distinct_of_dotless {space : String} (h : p.classes.Pairwise (Apart space))
    (hdot : ∀ c ∈ p.classes, c.Dotless) : p.Distinct := by
  refine List.pairwise_map.2 (h.imp_of_mem fun {c d} hc hd hapart hname => ?_)
  obtain ⟨hspace, taken, rfl⟩ := hapart hname
  exact hspace ((hdot c hc).space_eq_of_fullName (hdot _ hd) hname)

/-- Full names stay `Distinct` along a run of changes just as long as no class is created under the full name of a
class from another namespace (`NewNameFree`). Otherwise the created class comes after that other one, which is then
found in its place (`Eclipses`). Where each class that is added is `Dotless`, this does not happen. -/
theorem fullNames_run (name space : String) (changes : List Change) :
    ((∀ done, done <+: changes → ((make name space).run done).Distinct) ↔
      ∀ done, done ++ [.create] <+: changes → ((make name space).run done).NewNameFree) ∧
    ((make name space).run changes).classes.Pairwise (Apart space) ∧
    (∀ c ∈ ((make name space).run changes).classes,
      ∃ d, ((make name space).run changes).class? c.fullName = some d ∧ d.fullName = c.fullName ∧
        (d = c ∨ Eclipses space d c)) ∧
    (((make name space).run changes).Distinct →
      ∀ c ∈ ((make name space).run changes).classes,
        ((make name space).run changes).class? c.fullName = some c) ∧
    ((∀ c, .add c ∈ changes → c.Dotless) → ((make name space).run changes).Distinct) := by
  have hpairs : ((make name space).run changes).classes.Pairwise (Apart space) :=
    pairwise_run (p := make name space) List.Pairwise.nil changes
  refine ⟨distinct_run_iff (p := make name space) List.nodup_nil changes, hpairs,
    fun c hc => class?_of_mem hpairs hc, fun hdistinct c hc => hdistinct.class?_of_mem hc, fun hadd => ?_⟩
  exact distinct_of_dotless hpairs (dotless_run (p := make name space) (by simp [make]) hadd)

/-- Classes are created before and after others come and go. The last `add` is refused. -/
def renewal : List Change :=
  [.create, .add { name := "Player", space := "Game.MyClass" }, .create, .remove "Game.MyClass", .create,
    .add { name := "MyClass2", space := "Game" }]

theorem fullNames_run_renewal :
    (∀ c, .add c ∈ renewal → c.Dotless) ∧ ((make "Demo" "Game").run renewal).Distinct ∧
      ((make "Demo" "Game").run renewal).classes.map Class.fullName =
        ["Game.MyClass.Player", "Game.MyClass2", "Game.MyClass"] := by
  have hdotless : ∀ c, .add c ∈ renewal → c.Dotless := by
    intro c hc
    simp only [renewal, List.mem_cons, Change.add.injEq, reduceCtorEq, List.not_mem_nil, or_false, false_or] at hc
    rcases hc with rfl | rfl <;> decide
  obtain ⟨-, -, -, -, hdistinct⟩ := fullNames_run "Demo" "Game" renewal
  exact ⟨hdotless, hdistinct hdotless, by decide +kernel⟩

/-- A class outside any namespace has the full name that the created class gets, and is found in its place. -/
theorem createClass_eclipsed :
    ¬ ((make "Demo" "Game").run [.add { name := "Game.MyClass", space := "" }, .create]).Distinct ∧
      ((make "Demo" "Game").run [.add { name := "Game.MyClass", space := "" }, .create]).classes.map
        Class.fullName = ["Game.MyClass", "Game.MyClass"] ∧
      ((make "Demo" "Game").run [.add { name := "Game.MyClass", space := "" }, .create]).class? "Game.MyClass" =
        some { name := "Game.MyClass", space := "" } := by
  decide +kernel

end Project

end VisualScript
