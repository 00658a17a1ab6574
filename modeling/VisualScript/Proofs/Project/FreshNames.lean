import Mathlib.Data.List.Nodup
import Mathlib.Data.List.Perm.Subperm
import Mathlib.Order.Nat
import VisualScript.Naming

/-!
# Fresh names are free

The candidates for a fresh name are pairwise different, and there is one more of them than names are taken, so not
all of them can be taken. A search through the numbers that nothing bounds therefore comes to an end. `freshName`
looks only at as many numbers as names are taken, and they are enough to find the same name.

* `SearchEnds` is the search without a bound. One that went on for ever would end nowhere.
* `exists_isLeast_freeFrom`: some number gives a free name, and the least one is bounded by the names taken.
* `searchEnds_iff`, `find?_numberedNames`: without a bound and with one, the search ends at that least number.
-/

namespace VisualScript

variable {base : String} {taken : List String} {k m : Nat}

/-! ### Candidates -/

/-- A number can be read back from `Nat.toDigits`. -/
theorem toDigits_injective : Function.Injective (Nat.toDigits 10) := by
  intro a b h
  rw [← Nat.ofDigitChars_toDigits (n := a) (b := 10) (by decide) (by decide), h,
    Nat.ofDigitChars_toDigits (by decide) (by decide)]

theorem numbered_injective (base : String) : Function.Injective fun k : Nat => s!"{base}{k}" := by
  intro a b h
  have hrepr : a.repr = b.repr := by simpa using h
  exact toDigits_injective (by simpa using congrArg String.toList hrepr)

theorem numbered_ne (base : String) (k : Nat) : s!"{base}{k}" ≠ base := by
  intro h
  have happend : base ++ k.repr = base := h
  have hdigits : Nat.toDigits 10 k = [] := by
    simpa using congrArg String.toList happend
  exact Nat.toDigits_ne_nil hdigits

theorem nodup_candidates (base : String) (n : Nat) : (base :: numberedNames base n).Nodup := by
  refine List.nodup_cons.2 ⟨fun h => ?_, List.Nodup.map (numbered_injective base) List.nodup_range'⟩
  obtain ⟨k, -, hk⟩ := List.mem_map.1 h
  exact numbered_ne base k hk

theorem exists_candidate_not_mem (h : base ∈ taken) : ∃ name ∈ numberedNames base taken.length, name ∉ taken := by
  by_contra hall
  push Not at hall
  -- the base is taken too, which makes one name more than there are
  have hsub : base :: numberedNames base taken.length ⊆ taken := List.cons_subset.2 ⟨h, hall⟩
  have hle := ((nodup_candidates base taken.length).subperm hsub).length_le
  simp only [numberedNames, List.length_cons, List.length_map, List.length_range'] at hle
  omega

/-! ### The search without a bound -/

/-- The search that tries the numbers from `k` on, as long as their names are taken, ends at `m`. -/
inductive SearchEnds (base : String) (taken : List String) : (k m : Nat) → Prop where
  | free {k : Nat} : s!"{base}{k}" ∉ taken → SearchEnds base taken k k
  | next {k m : Nat} : s!"{base}{k}" ∈ taken → SearchEnds base taken (k + 1) m → SearchEnds base taken k m

/-- The numbers from `k` on that give a free name. -/
def freeFrom (base : String) (taken : List String) (k : Nat) : Set Nat := {j | k ≤ j ∧ s!"{base}{j}" ∉ taken}

theorem isLeast_freeFrom_of_not_mem (h : s!"{base}{k}" ∉ taken) : IsLeast (freeFrom base taken k) k :=
  ⟨⟨le_rfl, h⟩, fun _ hj => hj.1⟩

theorem freeFrom_of_mem (h : s!"{base}{k}" ∈ taken) : freeFrom base taken k = freeFrom base taken (k + 1) := by
  ext j
  refine and_congr_left fun hfree => ⟨fun hle => ?_, fun hlt => by omega⟩
  have hne : j ≠ k := by
    rintro rfl
    exact hfree h
  omega

theorem SearchEnds.isLeast (h : SearchEnds base taken k m) : IsLeast (freeFrom base taken k) m := by
  induction h with
  | free hfree => exact isLeast_freeFrom_of_not_mem hfree
  | next htaken _ ih =>
    rw [freeFrom_of_mem htaken]
    exact ih

theorem SearchEnds.of_isLeast (h : IsLeast (freeFrom base taken k) m) : SearchEnds base taken k m := by
  -- each number that is passed over brings the search one closer to `m`
  obtain ⟨n, rfl⟩ := Nat.exists_eq_add_of_le h.1.1
  induction n generalizing k with
  | zero => exact .free h.1.2
  | succ n ih =>
    have htaken : s!"{base}{k}" ∈ taken := by
      by_contra hfree
      have hle := h.2 (isLeast_freeFrom_of_not_mem hfree).1
      omega
    rw [freeFrom_of_mem htaken] at h
    rw [show k + (n + 1) = k + 1 + n by omega] at h ⊢
    exact .next htaken (ih h)

theorem searchEnds_iff : SearchEnds base taken k m ↔ IsLeast (freeFrom base taken k) m :=
  ⟨SearchEnds.isLeast, SearchEnds.of_isLeast⟩

/-- `base` and the numbers up to one more than `taken` has names are too many candidates for all to be taken. -/
theorem exists_isLeast_freeFrom (h : base ∈ taken) :
    ∃ k, IsLeast (freeFrom base taken 2) k ∧ k ≤ taken.length + 1 := by
  classical
  obtain ⟨name, hname, hfree⟩ := exists_candidate_not_mem h
  obtain ⟨j, hj, rfl⟩ := List.mem_map.1 hname
  obtain ⟨hle, hlt⟩ := List.mem_range'_1.1 hj
  have hmem : j ∈ freeFrom base taken 2 := ⟨hle, hfree⟩
  have hleast := Set.Nonempty.isLeast_natFind ⟨j, hmem⟩
  have hbound := hleast.2 hmem
  exact ⟨_, hleast, by omega⟩

/-! ### The fresh name -/

/-- Candidates that reach as far as the least number of a free name are enough to find it. -/
theorem find?_numberedNames {n : Nat} (h : IsLeast (freeFrom base taken 2) k) (hle : k ≤ n + 1) :
    (numberedNames base n).find? (· ∉ taken) = some s!"{base}{k}" := by
  obtain ⟨⟨htwo, hfree⟩, hleast⟩ := h
  have hfind : (List.range' 2 n).find? ((fun name => decide (name ∉ taken)) ∘ fun k => s!"{base}{k}") =
      some k := by
    refine List.find?_range'_eq_some.2
      ⟨by simpa using hfree, List.mem_range'_1.2 ⟨htwo, by omega⟩, fun j hj hjk => ?_⟩
    have htaken : s!"{base}{j}" ∈ taken := by
      by_contra hj'
      have hkj := hleast ⟨hj, hj'⟩
      omega
    simpa using htaken
  rw [numberedNames, List.find?_map, hfind, Option.map_some]

theorem freshName_of_not_mem (h : base ∉ taken) : freshName base taken = base := if_neg h

theorem freshName_of_mem (h : base ∈ taken) :
    ∃ k, IsLeast (freeFrom base taken 2) k ∧ k ≤ taken.length + 1 ∧ freshName base taken = s!"{base}{k}" := by
  obtain ⟨k, hk, hle⟩ := exists_isLeast_freeFrom h
  refine ⟨k, hk, hle, ?_⟩
  rw [freshName, if_pos h, find?_numberedNames hk hle, Option.getD_some]

theorem freshName_not_mem (base : String) (taken : List String) : freshName base taken ∉ taken := by
  by_cases h : base ∈ taken
  · obtain ⟨k, hk, -, hname⟩ := freshName_of_mem h
    rw [hname]
    exact hk.1.2
  · rw [freshName_of_not_mem h]
    exact h

theorem freshName_eq (base : String) (taken : List String) :
    freshName base taken = base ∨ ∃ k : Nat, freshName base taken = s!"{base}{k}" := by
  by_cases h : base ∈ taken
  · obtain ⟨k, -, -, hname⟩ := freshName_of_mem h
    exact Or.inr ⟨k, hname⟩
  · exact Or.inl (freshName_of_not_mem h)

/-- `freshName` is `base` itself if that is free. Otherwise the search from two on ends, at the least number of a
free name, and the fresh name has that number. It is at most one more than the names taken. -/
theorem freshName_first_free (base : String) (taken : List String) :
    freshName base taken ∉ taken ∧
      (base ∉ taken ∧ freshName base taken = base ∨
        base ∈ taken ∧ ∃ k, SearchEnds base taken 2 k ∧ freshName base taken = s!"{base}{k}" ∧
          IsLeast {j | 2 ≤ j ∧ s!"{base}{j}" ∉ taken} k ∧ k ≤ taken.length + 1) := by
  refine ⟨freshName_not_mem base taken, ?_⟩
  by_cases h : base ∈ taken
  · obtain ⟨k, hk, hle, hname⟩ := freshName_of_mem h
    exact Or.inr ⟨h, k, searchEnds_iff.2 hk, hname, hk, hle⟩
  · exact Or.inl ⟨h, freshName_of_not_mem h⟩

-- a repeated name and a number with a leading zero take no candidate away
example : freshName "MyClass" ["MyClass", "MyClass3", "MyClass", "MyClass02", "MyClass2"] = "MyClass4" := by decide

end VisualScript
