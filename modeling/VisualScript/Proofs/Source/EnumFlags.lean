import VisualScript.Proofs.Source.Acceptance

/-!
# Enum flags that differ

Two types that are the same but for their enum flags stand for one type that is described in two ways. Where the
flags differ at the top this is an error, and no value flows from one to the other: pins of the types cannot be
linked, and a link that is there already is refused when the method is written. The comparison looks no further
than the top. Types whose flags differ only inside their arguments pass everywhere.

* `FlagsDiffer` says that the flags differ at some depth; of types that are the same, it is all that can tell them
  apart (`flagsDiffer_iff_ne`).
* `checkAssignable_of_same` is the one comparison that linking and writing both ask for.
-/

namespace VisualScript

namespace TypeSpec

/-- The flags `isEnum` of the types differ, here or in some place among the arguments. -/
inductive FlagsDiffer : TypeSpec → TypeSpec → Prop
  | top {a b : TypeSpec} (h : a.isEnum ≠ b.isEnum) : FlagsDiffer a b
  | inside {a b s t : TypeSpec} {i : Nat} (hs : a.args[i]? = some (.concrete s))
      (ht : b.args[i]? = some (.concrete t)) (h : FlagsDiffer s t) : FlagsDiffer a b

theorem FlagsDiffer.ne {a b : TypeSpec} (h : a.FlagsDiffer b) : a ≠ b := by
  induction h with
  | top h =>
    rintro rfl
    exact h rfl
  | inside hs ht _ ih =>
    rintro rfl
    rw [hs] at ht
    cases ht
    exact ih rfl

end TypeSpec

mutual

/-- `erase` forgets the flags and nothing else. -/
theorem TypeSpec.eq_of_erase_eq : ∀ {a b : TypeSpec}, a.erase = b.erase → ¬ a.FlagsDiffer b → a = b
  | ⟨n, as, e⟩, ⟨n', bs, e'⟩, h, hflags => by
    simp only [TypeSpec.erase, TypeSpec.mk.injEq, and_true] at h
    have htop : e = e' := by
      by_contra hne
      exact hflags (.top hne)
    have hargs : as = bs := TypeArg.eq_of_eraseAll_eq h.2 fun i s t hs ht hst => hflags (.inside hs ht hst)
    rw [h.1, htop, hargs]

theorem TypeArg.eq_of_eraseAll_eq : ∀ {as bs : List TypeArg}, TypeArg.eraseAll as = TypeArg.eraseAll bs →
    (∀ (i : Nat) (s t : TypeSpec), as[i]? = some (.concrete s) → bs[i]? = some (.concrete t) → ¬ s.FlagsDiffer t) →
      as = bs
  | [], [], _, _ => rfl
  | [], _ :: _, h, _ => by simp [TypeArg.eraseAll] at h
  | _ :: _, [], h, _ => by simp [TypeArg.eraseAll] at h
  | .parameter n :: as, .parameter n' :: bs, h, hflags => by
    simp only [TypeArg.eraseAll, TypeArg.erase, List.cons.injEq, TypeArg.parameter.injEq] at h
    rw [h.1, TypeArg.eq_of_eraseAll_eq h.2 fun i => hflags (i + 1)]
  | .concrete s :: as, .concrete t :: bs, h, hflags => by
    simp only [TypeArg.eraseAll, TypeArg.erase, List.cons.injEq, TypeArg.concrete.injEq] at h
    rw [TypeSpec.eq_of_erase_eq h.1 (hflags 0 s t rfl rfl), TypeArg.eq_of_eraseAll_eq h.2 fun i => hflags (i + 1)]
  | .parameter _ :: _, .concrete _ :: _, h, _ => by simp [TypeArg.eraseAll, TypeArg.erase] at h
  | .concrete _ :: _, .parameter _ :: _, h, _ => by simp [TypeArg.eraseAll, TypeArg.erase] at h

end

theorem TypeSpec.flagsDiffer_iff_ne {a b : TypeSpec} (h : a.Same b) : a.FlagsDiffer b ↔ a ≠ b := by
  refine ⟨FlagsDiffer.ne, fun hne => ?_⟩
  by_contra hflags
  exact hne (TypeSpec.eq_of_erase_eq h hflags)

/-! ### The comparison -/

section Comparison

variable {a b : TypeSpec}

theorem TypeSpec.matches?_of_same (h : a.Same b) :
    a.matches? b = if a.isEnum = b.isEnum then .ok true else .error (.enumFlagConflict a.name) := by
  unfold TypeSpec.matches?
  rw [if_neg (not_not.2 h)]
  by_cases htop : a.isEnum = b.isEnum
  · rw [if_pos htop, if_neg (not_not.2 htop)]
  · rw [if_neg htop, if_pos htop]

/-- Types that are the `Same` compare alike in every catalog. -/
theorem TypeCatalog.checkAssignable_of_same (c : TypeCatalog) (h : a.Same b) :
    c.checkAssignable a b = if a.isEnum = b.isEnum then .ok true else .error (.enumFlagConflict a.name) := by
  unfold TypeCatalog.checkAssignable
  rw [TypeSpec.matches?_of_same h]
  split_ifs
  · rfl
  · rfl

theorem TypeCatalog.isAssignable_iff_of_same (c : TypeCatalog) (h : a.Same b) :
    c.isAssignable a b = true ↔ a.isEnum = b.isEnum := by
  rw [TypeCatalog.isAssignable_iff, c.checkAssignable_of_same h]
  split_ifs with htop
  · simp [htop]
  · simp [htop]

end Comparison

/-! ### Linking -/

section Linking

variable {m : Method} {c : TypeCatalog} {p q x y : PinRef} {out : DataOut} {pin : DataIn}

theorem Method.orient?_of_data (hp : m.pin? dataOuts p = some out) (hq : m.pin? dataIns q = some pin) :
    Method.orient? p q = some ⟨p, q⟩ ∧ Method.orient? q p = some ⟨p, q⟩ := by
  have hpk : p.kind = .dataOut := (Method.pin?_eq_some_iff.1 hp).1
  have hqk : q.kind = .dataIn := (Method.pin?_eq_some_iff.1 hq).1
  unfold Method.orient?
  rw [hpk, hqk]
  exact ⟨rfl, rfl⟩

/-- Two data pins of one type may be linked if its flags agree at the top, in whichever order `x` and `y` they are
given. -/
theorem Method.checkConnection_of_same (hp : m.pin? dataOuts p = some out) (hq : m.pin? dataIns q = some pin)
    (hxy : Method.orient? x y = some ⟨p, q⟩) (h : out.type.Same pin.type) :
    m.checkConnection c x y =
      if out.type.isEnum = pin.type.isEnum then .ok ⟨p, q⟩
      else .error (.typeMismatch x y (.types (.enumFlagConflict out.type.name))) := by
  have hexec : Link.isExec ⟨p, q⟩ = false := by
    have hpk : p.kind = .dataOut := (Method.pin?_eq_some_iff.1 hp).1
    simp [Link.isExec, hpk, PinKind.isExec]
  have hassignable := c.checkAssignable_of_same h
  unfold Method.checkConnection
  rw [hxy]
  by_cases htop : out.type.isEnum = pin.type.isEnum
  · rw [if_pos htop] at hassignable ⊢
    simp [hexec, Method.requirePin, hp, hq, hassignable, bind, Except.bind, pure, Except.pure]
  · rw [if_neg htop] at hassignable ⊢
    simp [hexec, Method.requirePin, hp, hq, hassignable, bind, Except.bind]

end Linking

/-! ### Writing -/

/-- The input at `slot` is fed by `s`, along references as writing follows them. -/
structure Method.Fed (m : Method) (n : Node) (slot : Nat) (pin : DataIn) (s : Supply) : Prop where
  input : n.dataIns[slot]? = some pin
  source : pin.incoming = some s.source
  producer : m.node? s.source.node = some s.producer
  produced : s.producer.dataOuts[s.source.slot]? = some s.produced

section Writing

variable {job : Job} {n : Node} {slot : Nat} {pin : DataIn} {s : Supply}

/-- An input of one type with what feeds it gets its `supply` if the flags agree at the top. -/
theorem Job.supply_of_same (hfed : job.method.Fed n slot pin s) (h : s.produced.type.Same pin.type) :
    job.supply n slot =
      if s.produced.type.isEnum = pin.type.isEnum then .ok s
      else .error (.typeMismatch n.id pin.name pin.type s.produced.type) := by
  unfold Job.supply
  simp only [hfed.input, hfed.source, hfed.producer, hfed.produced]
  exact if_congr (job.catalog.isAssignable_iff_of_same h) rfl rfl

theorem Job.isEnum_eq_of_source {signature : String} {code : Code} (hm : job.method.Consistent)
    (hpins : job.method.HasPins) (h : job.source = .ok ⟨signature, some code⟩) (hn : job.method.Live n)
    (hfed : job.method.Fed n slot pin s) (hsame : s.produced.type.Same pin.type) :
    s.produced.type.isEnum = pin.type.isEnum := by
  -- a written method has all inputs of its live nodes supplied, and this one is refused
  by_contra htop
  have hrefused := Job.supply_of_same hfed hsame
  rw [if_neg htop] at hrefused
  cases hn.grounded hm hpins h with
  | intro supplied _ =>
    obtain ⟨s', hs'⟩ := supplied slot (List.getElem?_eq_some_iff.1 hfed.input).1
    rw [hrefused] at hs'
    cases hs'

end Writing

/-! ### All of it -/

/-- Of two types that are the `Same`, just the flags can differ. If they differ at the top then this is reported in
every catalog, no pins of these types can be linked in either order, no link between them is followed, and no
method is written that needs such a link. If the flags agree at the top then all of this passes, however they
differ inside (`FlagsDiffer`). -/
theorem TypeSpec.flags_compared_at_top (c : TypeCatalog) {a b : TypeSpec} (h : a.Same b) :
    (a.FlagsDiffer b ↔ a ≠ b) ∧
      (a.matches? b = if a.isEnum = b.isEnum then .ok true else .error (.enumFlagConflict a.name)) ∧
      (c.checkAssignable a b = if a.isEnum = b.isEnum then .ok true else .error (.enumFlagConflict a.name)) ∧
      (∀ (m : Method) (p q : PinRef) (out : DataOut) (pin : DataIn), m.pin? dataOuts p = some out →
        m.pin? dataIns q = some pin → out.type = a → pin.type = b →
          if a.isEnum = b.isEnum then m.canConnect c p q = true ∧ m.canConnect c q p = true
          else
            (GraphM.connect c p q).exec m =
              (.error (.typeMismatch p q (.types (.enumFlagConflict a.name))), m) ∧
            (GraphM.connect c q p).exec m =
              (.error (.typeMismatch q p (.types (.enumFlagConflict a.name))), m)) ∧
      (∀ (m : Method) (config : Config) (n : Node) (slot : Nat) (pin : DataIn) (s : Supply), m.Fed n slot pin s →
        s.produced.type = a → pin.type = b →
          Job.supply ⟨m, c, config⟩ n slot =
            if a.isEnum = b.isEnum then .ok s else .error (.typeMismatch n.id pin.name b a)) ∧
      ∀ (m : Method) (config : Config) (signature : String) (code : Code), m.Consistent → m.HasPins →
        Job.source ⟨m, c, config⟩ = .ok ⟨signature, some code⟩ →
          ∀ (n : Node) (slot : Nat) (pin : DataIn) (s : Supply), m.Live n → m.Fed n slot pin s →
            s.produced.type = a → pin.type = b → a.isEnum = b.isEnum := by
  refine ⟨flagsDiffer_iff_ne h, matches?_of_same h, c.checkAssignable_of_same h, ?_, ?_, ?_⟩
  · rintro m p q out pin hp hq rfl rfl
    obtain ⟨hpq, hqp⟩ := Method.orient?_of_data hp hq
    have hforth := Method.checkConnection_of_same (c := c) hp hq hpq h
    have hback := Method.checkConnection_of_same (c := c) hp hq hqp h
    split_ifs with htop
    · rw [if_pos htop] at hforth hback
      unfold Method.canConnect
      rw [hforth, hback]
      exact ⟨rfl, rfl⟩
    · rw [if_neg htop] at hforth hback
      exact ⟨GraphM.exec_connect_error hforth, GraphM.exec_connect_error hback⟩
  · rintro m config n slot pin s hfed rfl rfl
    exact @Job.supply_of_same ⟨m, c, config⟩ n slot pin s hfed h
  · rintro m config signature code hm hpins hsource n slot pin s hn hfed rfl rfl
    exact @Job.isEnum_eq_of_source ⟨m, c, config⟩ n slot pin s signature code hm hpins hsource hn hfed h

/-- An argument of the type `a` is stored in a variable of the type `b`. -/
def Method.storing (a b : TypeSpec) : Method :=
  (Method.make "main" [a] []).run (.ofPairs [])
    [.addNode (.setter ⟨"x", b⟩) {}, .connect (.execOut 0 0) (.execIn 1 0),
      .connect (.dataOut 0 0) (.dataIn 1 0)]

/-- The argument of `storing` has become an enum, with the link that was there before. -/
def Method.recolored : Method :=
  (Method.storing (.named "Color") (.named "Color")).changeNode 0 fun n =>
    { n with
      kind := .methodEntry [.enum "Color"]
      dataOuts := n.dataOuts.map fun pin => { pin with type := .enum "Color" } }

theorem TypeSpec.flags_compared_at_top_color :
    (TypeSpec.enum "Color").Same (.named "Color") ∧
      (TypeSpec.enum "Color").matches? (.named "Color") = .error (.enumFlagConflict "Color") ∧
      (GraphM.connect (.ofPairs []) (.dataIn 1 0) (.dataOut 0 0)).exec
          (Method.storing (.enum "Color") (.named "Color")) =
        (.error (.typeMismatch (.dataIn 1 0) (.dataOut 0 0) (.types (.enumFlagConflict "Color"))),
          Method.storing (.enum "Color") (.named "Color")) ∧
      Method.recolored.Consistent ∧ Method.recolored.HasPins ∧
      ⟨.dataOut 0 0, .dataIn 1 0⟩ ∈ Method.recolored.links ∧
      ∀ signature code, Job.source ⟨Method.recolored, .ofPairs [], {}⟩ ≠ .ok ⟨signature, some code⟩ := by
  have hsame : (TypeSpec.enum "Color").Same (.named "Color") := by decide
  obtain ⟨-, hmatches, -, hconnect, -, hsource⟩ := TypeSpec.flags_compared_at_top (.ofPairs []) hsame
  have hm : Method.recolored.Consistent :=
    { ordered := by
        unfold Method.Ordered
        decide +kernel
      bounded := by decide +kernel
      entry := ⟨_, rfl, rfl⟩
      onlyEntry := by decide +kernel
      dangling := by decide +kernel }
  have hpins : Method.recolored.HasPins := by
    unfold Method.HasPins
    decide +kernel
  refine ⟨hsame, hmatches, ?_, hm, hpins, by decide +kernel, ?_⟩
  · exact (hconnect _ (.dataOut 0 0) (.dataIn 1 0) _ _ rfl rfl rfl rfl).2
  · -- the setter is live and its input is fed by a type whose flag differs
    intro signature code h
    let store := (Method.recolored.node? 1).get (by decide +kernel)
    let input := (Method.recolored.pin? dataIns (.dataIn 1 0)).get (by decide +kernel)
    let entry := (Method.recolored.node? 0).get (by decide +kernel)
    let argument := (Method.recolored.pin? dataOuts (.dataOut 0 0)).get (by decide +kernel)
    have hway : Way Method.recolored [.execOut entry.id 0] store :=
      .step (.entry (by decide +kernel)) (by decide +kernel)
    have hlive : Method.recolored.Live store := ⟨store, hway.reached, .refl⟩
    have hfed : Method.recolored.Fed store 0 input ⟨.dataOut 0 0, entry, argument⟩ := ⟨rfl, rfl, rfl, rfl⟩
    have hagree := hsource _ _ signature code hm hpins h store 0 input _ hlive hfed rfl rfl
    cases hagree

/-- Lists of `Color`, with the flag of the element given. -/
def TypeSpec.colors (isEnum : Bool) : TypeSpec :=
  (TypeSpec.named "List").withArgs [.concrete ⟨"Color", [], isEnum⟩]

/-- Flags that differ inside an argument are not reported: the pins are linked and the method is written. -/
theorem TypeSpec.flags_inside_accepted :
    (colors true).Same (colors false) ∧ (colors true).FlagsDiffer (colors false) ∧
      (colors true).matches? (colors false) = .ok true ∧
      (TypeCatalog.ofPairs []).checkAssignable (colors true) (colors false) = .ok true ∧
      ⟨.dataOut 0 0, .dataIn 1 0⟩ ∈ (Method.storing (colors true) (colors false)).links ∧
      Job.source ⟨Method.storing (colors true) (colors false), .ofPairs [], {}⟩ =
        .ok ⟨"public void main(List<Color> arg0)", some (.step (.assign 1 "x" "arg0") .done)⟩ := by
  have hinside : (colors true).FlagsDiffer (colors false) := .inside (i := 0) rfl rfl (.top (by decide))
  exact ⟨by decide, hinside, by decide, by decide +kernel, by decide +kernel, by decide +kernel⟩

end VisualScript
