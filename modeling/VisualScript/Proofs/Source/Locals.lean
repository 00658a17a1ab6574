import VisualScript.Proofs.Project.FreshNames
import VisualScript.Proofs.Source.Capture

/-!
# Locals have different names

A temporary is named by a stem, a number and a hint, an index by a stem and a number, a parameter by a number.
Stem and hint are free texts, digits at the seams included, so `t1` and `0` may meet as `t10` in more than one
way. Still a name tells its number: all temporaries of a source have one stem, and the number ends at an
underscore, which is no digit (`eq_of_tempName_eq`). As each count goes up by one over the whole source, no local
is declared twice (`nodup_locals`).

Between the three sorts only the stem of the indices matters. A temporary has an underscore after its number and a
parameter has none, so these two never clash; an index clashes with neither if its stem `StandsApart`.
-/

namespace VisualScript

/-! ### What a name tells -/

theorem isDigit_of_mem_toDigits {k : Nat} {c : Char} (h : c ∈ Nat.toDigits 10 k) : c.isDigit = true :=
  Nat.isDigit_of_mem_toDigits (by decide) (by decide) h

theorem underscore_not_mem_toDigits (k : Nat) : '_' ∉ Nat.toDigits 10 k := by
  intro h
  have hdigit : Char.isDigit '_' = true := isDigit_of_mem_toDigits h
  revert hdigit
  decide

/-- A number in decimal digits ends where `_` stands. -/
theorem takeWhile_isDigit (k : Nat) (cs : List Char) :
    (Nat.toDigits 10 k ++ '_' :: cs).takeWhile Char.isDigit = Nat.toDigits 10 k := by
  rw [List.takeWhile_append_of_pos fun d hd => isDigit_of_mem_toDigits hd, List.takeWhile_cons_of_neg (by decide),
    List.append_nil]

/-- If `name` tells the place in the list, all names are different. -/
theorem nodup_mapIdx {α : Type} {name : Nat → α → String} (h : ∀ {i j a b}, name i a = name j b → i = j)
    (xs : List α) : (xs.mapIdx name).Nodup := by
  refine List.pairwise_iff_getElem.2 fun i j hi hj hij he => ?_
  rw [List.getElem_mapIdx, List.getElem_mapIdx] at he
  have hplace := h he
  omega

theorem toList_argumentName (i : Nat) : (argumentName i).toList = "arg".toList ++ Nat.toDigits 10 i := by
  have hname : argumentName i = "arg" ++ toString i := rfl
  simp [hname]

theorem argumentName_injective : Function.Injective argumentName := numbered_injective "arg"

theorem underscore_not_mem_argumentName (i : Nat) : '_' ∉ (argumentName i).toList := by
  rw [toList_argumentName, List.mem_append, not_or]
  exact ⟨by decide, underscore_not_mem_toDigits i⟩

namespace Config

variable {c : Config} {j k : Nat}

theorem toList_tempName (c : Config) (k : Nat) (hint : String) :
    (c.tempName k hint).toList =
      c.tempStem.toList ++ (Nat.toDigits 10 k ++ '_' :: (Spelling.identifier hint).toList) := by
  have hname : c.tempName k hint = c.tempStem ++ toString k ++ "_" ++ Spelling.identifier hint := rfl
  simp [hname]

theorem toList_indexName (c : Config) (k : Nat) :
    (c.indexName k).toList = c.indexStem.toList ++ Nat.toDigits 10 k := by
  have hname : c.indexName k = c.indexStem ++ toString k := rfl
  simp [hname]

/-- `tempName` tells the number, whatever the hints. -/
theorem eq_of_tempName_eq {hint hint' : String} (h : c.tempName j hint = c.tempName k hint') : j = k := by
  have hlists := congrArg String.toList h
  rw [toList_tempName, toList_tempName] at hlists
  -- the stems are the same, and then the digits up to the underscore
  have htails := List.append_cancel_left hlists
  have hnumbers := congrArg (List.takeWhile Char.isDigit) htails
  rw [takeWhile_isDigit, takeWhile_isDigit] at hnumbers
  exact toDigits_injective hnumbers

theorem indexName_injective (c : Config) : Function.Injective c.indexName := numbered_injective c.indexStem

theorem underscore_mem_tempName (c : Config) (k : Nat) (hint : String) : '_' ∈ (c.tempName k hint).toList := by
  rw [toList_tempName]
  simp

theorem tempName_ne_argumentName (c : Config) (k i : Nat) (hint : String) :
    c.tempName k hint ≠ argumentName i := by
  intro h
  have hmem := c.underscore_mem_tempName k hint
  rw [h] at hmem
  exact underscore_not_mem_argumentName i hmem

/-- `indexStem` has no underscore, which every temporary has, and does not begin with `arg` as parameters do. -/
def StandsApart (c : Config) : Prop := '_' ∉ c.indexStem.toList ∧ ¬ "arg".toList <+: c.indexStem.toList

theorem StandsApart.indexName_ne_tempName (h : c.StandsApart) (j k : Nat) (hint : String) :
    c.indexName j ≠ c.tempName k hint := by
  intro he
  have hmem := c.underscore_mem_tempName k hint
  rw [← he, toList_indexName, List.mem_append] at hmem
  rcases hmem with hstem | hnumber
  · exact h.1 hstem
  · exact underscore_not_mem_toDigits j hnumber

theorem StandsApart.indexName_ne_argumentName (h : c.StandsApart) (k i : Nat) :
    c.indexName k ≠ argumentName i := by
  intro he
  have hlists := congrArg String.toList he
  rw [toList_indexName, toList_argumentName] at hlists
  rcases List.append_eq_append_iff.1 hlists with ⟨rest, harg, hnumber⟩ | ⟨rest, hstem, -⟩
  · -- the stem ends within `arg`, and the letters that are left of it would be digits
    cases rest with
    | nil => exact h.2 ⟨[], by rw [harg]; simp⟩
    | cons d ds =>
      have hdigit : d.isDigit = true := isDigit_of_mem_toDigits (k := k) (by rw [hnumber]; simp)
      have hletter : d ∈ "arg".toList := by rw [harg]; simp
      have hletters : ("arg".toList.all fun x => !x.isDigit) = true := by decide
      have hnot := List.all_eq_true.1 hletters d hletter
      simp [hdigit] at hnot
  · exact h.2 ⟨rest, hstem.symm⟩

/-! ### Names with consecutive numbers -/

theorem nodup_tempNames (c : Config) (first : Nat) (hints : List String) : (c.tempNames first hints).Nodup := by
  refine nodup_mapIdx (fun he => ?_) hints
  have hnumber := eq_of_tempName_eq he
  omega

theorem nodup_indexNames (c : Config) (first count : Nat) : (c.indexNames first count).Nodup :=
  List.Nodup.map c.indexName_injective List.nodup_range'

end Config

theorem Method.nodup_parameters (m : Method) : (m.parameters.map (·.2)).Nodup := by
  have hnames : m.parameters.map (·.2) = m.argumentTypes.mapIdx fun i _ => argumentName i :=
    List.ext_getElem (by simp [parameters]) (by simp [parameters])
  rw [hnames]
  exact nodup_mapIdx (fun he => argumentName_injective he) m.argumentTypes

/-! ### Whole methods -/

namespace Job

variable {job : Job} {source : MethodSource}

theorem nodup_temporaries (h : job.source = .ok source) : source.code.temporaries.Nodup := by
  rw [temporaries_of_source h]
  exact job.config.nodup_tempNames 0 _

theorem nodup_indices (h : job.source = .ok source) : source.code.indices.Nodup := by
  rw [indices_of_source h]
  exact job.config.nodup_indexNames 0 _

/-- Parameters and temporaries differ with any `tempStem`. -/
theorem nodup_parameters_temporaries (h : job.source = .ok source) :
    (job.method.parameters.map (·.2) ++ source.code.temporaries).Nodup := by
  refine List.nodup_append.2 ⟨job.method.nodup_parameters, nodup_temporaries h, fun a ha b hb => ?_⟩
  obtain ⟨i, -, rfl⟩ := Method.mem_parameters.1 ha
  obtain ⟨k, hint, -, rfl⟩ := (mem_temporaries h).1 hb
  exact (job.config.tempName_ne_argumentName k i hint).symm

theorem nodup_locals_of_standsApart (h : job.source = .ok source) (hstem : job.config.StandsApart) :
    (source.code.locals job.method).Nodup := by
  refine List.nodup_append.2 ⟨nodup_parameters_temporaries h, nodup_indices h, fun a ha b hb => ?_⟩
  obtain ⟨j, -, rfl⟩ := (mem_indices h).1 hb
  rcases List.mem_append.1 ha with hparameter | htemporary
  · obtain ⟨i, -, rfl⟩ := Method.mem_parameters.1 hparameter
    exact (hstem.indexName_ne_argumentName j i).symm
  · obtain ⟨k, hint, -, rfl⟩ := (mem_temporaries h).1 htemporary
    exact (hstem.indexName_ne_tempName j k hint).symm

/-- Over all blocks of a source no temporary and no index is declared twice, and no temporary is a parameter. If
the stem of the indices `StandsApart`, as the stem that is the default does, all `locals` have different names. -/
theorem nodup_locals (h : job.source = .ok source) :
    source.code.temporaries.Nodup ∧ source.code.indices.Nodup ∧
      (job.method.parameters.map (·.2) ++ source.code.temporaries).Nodup ∧
      (job.config.StandsApart → (source.code.locals job.method).Nodup) ∧
      (job.config.tempStem = Config.tempStem {} → job.config.indexStem = Config.indexStem {} →
        (source.code.locals job.method).Nodup) := by
  refine ⟨nodup_temporaries h, nodup_indices h, nodup_parameters_temporaries h, nodup_locals_of_standsApart h, ?_⟩
  intro _ hindex
  apply nodup_locals_of_standsApart h
  unfold Config.StandsApart
  rw [hindex]
  decide

end Job

/-- A branch to two loops, which run the same call. The call has two results, and the loops end at a variable that
is called `0_x`. -/
def forking (config : Config) : Job where
  method := (Method.make "Fork" [.bool] []).run (.ofPairs [])
    [.addNode .ifElse {}, .addNode .forLoop {}, .addNode .forLoop {}, .addNode (.getter ⟨"0_x", .int⟩) {},
      .addNode (.callStatic (.named "Dice") "Roll" [] [.int, .int]) {}, .addNode (.literal "0" .int) {},
      .connect (.execOut 0 0) (.execIn 1 0), .connect (.execOut 1 0) (.execIn 2 0),
      .connect (.execOut 1 1) (.execIn 3 0), .connect (.execOut 2 0) (.execIn 5 0),
      .connect (.execOut 3 0) (.execIn 5 0), .connect (.dataOut 0 0) (.dataIn 1 0),
      .connect (.dataOut 6 0) (.dataIn 2 0), .connect (.dataOut 4 0) (.dataIn 2 1),
      .connect (.dataOut 6 0) (.dataIn 3 0), .connect (.dataOut 4 0) (.dataIn 3 1)]
  catalog := .ofPairs []
  config := config

/-- One way of the branch: the node `loop`, the first number `k` of a temporary, and the number `j` of the
index. -/
def forkingArm (config : Config) (loop : NodeId) (k j : Nat) : Code :=
  .step (.read 4 .int (config.tempName k "0_x") "0_x")
    (.loop loop (config.indexName j) "0" (config.tempName k "0_x")
      (.step (.callStatic 5 [(.int, config.tempName (k + 1) "Int32"), (.int, config.tempName (k + 2) "Int32")]
        (.named "Dice") "Roll" []) .done) .done)

def forkingCode (config : Config) : Code :=
  .branchElse 1 "arg0" (forkingArm config 2 0 0) (forkingArm config 3 3 1)

/-- Temporaries that begin with a digit, and indices that begin with `arg` as parameters do. -/
def seamless : Config := { tempStem := "1", indexStem := "arg" }

/-- Six temporaries in two blocks, and an index in each. With the stems of `seamless` the temporaries and the
indices still differ among themselves, but the first index is called as the parameter is. -/
theorem Job.nodup_locals_forking :
    (forking {}).source = .ok ⟨"public void Fork(System.Boolean arg0)", some (forkingCode {})⟩ ∧
      (forkingCode {}).locals (forking {}).method =
        ["arg0", "temp0_0_x", "temp1_Int32", "temp2_Int32", "temp3_0_x", "temp4_Int32", "temp5_Int32",
          "i0", "i1"] ∧
      ((forkingCode {}).locals (forking {}).method).Nodup ∧
      (forkingCode seamless).temporaries.Nodup ∧ (forkingCode seamless).indices.Nodup ∧
      ¬ ((forkingCode seamless).locals (forking seamless).method).Nodup := by
  have hs : (forking {}).source = .ok ⟨"public void Fork(System.Boolean arg0)", some (forkingCode {})⟩ := by
    decide +kernel
  have hs' : (forking seamless).source =
      .ok ⟨"public void Fork(System.Boolean arg0)", some (forkingCode seamless)⟩ := by
    decide +kernel
  obtain ⟨-, -, -, -, hdefault⟩ := Job.nodup_locals hs
  obtain ⟨htemps, hindices, -⟩ := Job.nodup_locals hs'
  exact ⟨hs, by decide +kernel, hdefault rfl rfl, htemps, hindices, by decide +kernel⟩

end VisualScript
