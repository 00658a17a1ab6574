import Mathlib.Data.List.Induction
import VisualScript.Proofs.Graph.Consistency

/-!
# Loading a method

A method from outside is accepted once its nodes are in order. What comes out is `Identified`, whatever its links
are like (`identified_load`), its nodes are the given ones and its counter is not below the given one. A method
that is identified already is taken as it is (`load_of_identified`).
-/

namespace VisualScript.Method

/-- Ids that rise and among which `repeated?` finds none twice in a row rise strictly. -/
theorem pairwise_lt_of_repeated? {ids : List NodeId} (h : repeated? ids = none)
    (hs : ids.Pairwise (· ≤ ·)) : ids.Pairwise (· < ·) := by
  fun_induction repeated? ids with
  | case1 => cases h
  | case2 a b ids hab ih =>
    obtain ⟨hle, hs⟩ := List.pairwise_cons.1 hs
    have hrest := ih h hs
    have hlt : a < b := Nat.lt_of_le_of_ne (hle b (by simp)) hab
    refine List.pairwise_cons.2 ⟨fun x hx => ?_, hrest⟩
    rcases List.mem_cons.1 hx with rfl | hx
    · exact hlt
    · exact Nat.lt_trans hlt (List.rel_of_pairwise_cons hrest hx)
  | case3 ids hshort =>
    -- fewer than two ids are left
    match ids, hshort with
    | [], _ => exact .nil
    | [a], _ => exact List.pairwise_singleton _ _
    | a :: b :: ids, hshort => exact (hshort a b ids rfl).elim

theorem repeated?_eq_none {ids : List NodeId} (h : ids.Pairwise (· < ·)) : repeated? ids = none := by
  fun_induction repeated? ids with
  | case1 a ids => exact absurd (List.rel_of_pairwise_cons h (by simp)) (Nat.lt_irrefl _)
  | case2 a b ids _ ih => exact ih (List.Pairwise.of_cons h)
  | case3 => rfl

theorem pairwise_mergeSort_id (nodes : List Node) :
    (nodes.mergeSort fun a b => a.id ≤ b.id).Pairwise fun a b => a.id ≤ b.id := by
  have h : (nodes.mergeSort fun a b => a.id ≤ b.id).Pairwise fun a b => decide (a.id ≤ b.id) = true := by
    refine List.pairwise_mergeSort (fun a b c hab hbc => ?_) (fun a b => ?_) nodes
    · simp only [decide_eq_true_eq] at hab hbc ⊢
      exact Nat.le_trans hab hbc
    · simp only [Bool.or_eq_true, decide_eq_true_eq]
      exact Nat.le_total a.id b.id
  exact h.imp of_decide_eq_true

/-- In rising ids, the last one is the greatest. -/
theorem id_lt_top {nodes : List Node} (h : nodes.Pairwise fun a b => a.id < b.id) {n : Node} (hn : n ∈ nodes) :
    n.id < (nodes.getLast?.map (·.id + 1)).getD 0 := by
  induction nodes using List.reverseRecOn with
  | nil => cases hn
  | append_singleton nodes last =>
    rw [List.getLast?_concat]
    show n.id < last.id + 1
    rcases List.mem_append.1 hn with hx | hx
    · exact Nat.lt_succ_of_lt ((List.pairwise_append.1 h).2.2 n hx last (by simp))
    · rw [List.mem_singleton.1 hx]
      exact Nat.lt_succ_self _

/-- What `load` takes over of `raw` and what it checks. -/
theorem load_eq_ok {raw m : Method} (h : load raw = .ok m) :
    m.Ordered ∧ (m.nodes.find? (·.id = m.entry)).any (·.kind.isEntry) = true ∧
      (m.nodes.find? fun n => n.id ≠ m.entry ∧ n.kind.isEntry) = none ∧
      m = { raw with
        nodes := raw.nodes.mergeSort fun a b => a.id ≤ b.id
        nextId := max raw.nextId ((m.nodes.getLast?.map (·.id + 1)).getD 0) } := by
  unfold load at h
  simp only at h
  cases hr : repeated? ((raw.nodes.mergeSort fun a b => a.id ≤ b.id).map (·.id)) with
  | some id =>
    rw [hr] at h
    cases h
  | none =>
    simp only [hr] at h
    split at h
    · cases h
    · rename_i hentry
      split at h
      · cases h
      · rename_i honly
        cases h
        -- sorted and without a repetition, the ids go up
        refine ⟨?_, by simpa using hentry, honly, rfl⟩
        exact List.pairwise_map.1 (pairwise_lt_of_repeated? hr (List.pairwise_map.2 (pairwise_mergeSort_id _)))

theorem identified_load {raw m : Method} (h : load raw = .ok m) : m.Identified := by
  obtain ⟨hordered, hentry, honly, hm⟩ := load_eq_ok h
  refine ⟨hordered, fun n hn => ?_, ?_, fun n hn hk => ?_⟩
  · rw [hm]
    exact Nat.lt_of_lt_of_le (id_lt_top hordered hn) (Nat.le_max_right _ _)
  · obtain ⟨n, hn, hk⟩ := (Option.any_eq_true _ _).1 hentry
    exact ⟨n, hn, hk⟩
  · by_contra hne
    exact List.find?_eq_none.1 honly n hn (by simp [hne, hk])

/-- `load` never sets the counter back. -/
theorem nextId_le_load {raw m : Method} (h : load raw = .ok m) : raw.nextId ≤ m.nextId := by
  obtain ⟨-, -, -, hm⟩ := load_eq_ok h
  rw [hm]
  exact Nat.le_max_left _ _

theorem perm_nodes_load {raw m : Method} (h : load raw = .ok m) : m.nodes.Perm raw.nodes := by
  obtain ⟨-, -, -, hm⟩ := load_eq_ok h
  rw [hm]
  exact List.mergeSort_perm _ _

/-- What is `Identified` already stays as it is. -/
theorem load_of_identified {m : Method} (h : m.Identified) : load m = .ok m := by
  have hsort : (m.nodes.mergeSort fun a b => a.id ≤ b.id) = m.nodes :=
    List.mergeSort_of_pairwise (h.ordered.imp fun hlt => decide_eq_true (Nat.le_of_lt hlt))
  have hids : repeated? (m.nodes.map (·.id)) = none := repeated?_eq_none (List.pairwise_map.2 h.ordered)
  obtain ⟨entry, hentry, hk⟩ := h.entry
  -- no other entry, and no id that the counter would have to pass
  have honly : (m.nodes.find? fun n => n.id ≠ m.entry ∧ n.kind.isEntry) = none := by
    refine List.find?_eq_none.2 fun n hn => ?_
    simp only [decide_eq_true_eq, not_and, Bool.not_eq_true]
    intro hne
    by_contra hentry
    exact hne (h.onlyEntry n hn (by simpa using hentry))
  have htop : max m.nextId ((m.nodes.getLast?.map (·.id + 1)).getD 0) = m.nextId := by
    refine Nat.max_eq_left ?_
    cases hlast : m.nodes.getLast? with
    | none => exact Nat.zero_le _
    | some last => exact h.bounded last (List.mem_of_getLast? hlast)
  have hfind : m.nodes.find? (·.id = m.entry) = some entry := hentry
  unfold load
  simp only [hsort, hids, hfind, Option.any_some, hk, Bool.not_true, Bool.false_eq_true, if_false, honly, htop]

end VisualScript.Method
