import Mathlib.Data.List.Duplicate
import Mathlib.Order.Bounds.Basic
import VisualScript.Proofs.Json.Reordering

/-!
# Which methods are accepted

A record of a method is accepted if no two of its nodes have the same id and its entry is its one entry node.
Nothing depends on the order in which the nodes are given, not even which node an error names: the scan for equal
neighbours and the scan for a second entry both go over nodes in order, so each finds the least id there is to
find.

* `WellIdentified` is what is asked of a record, `Defect` what is wrong with any other one, and `LoadsAs` what is
  made of it.
* `load_eq_error_iff`, `Defect.unique`: a record that is not accepted has one fault, and that is the error.
* `LoadsAs.unique`: records that differ in the order of their nodes make the same method.
* `LoadsAs.bisect_eq_node?`: in an accepted method a search by halves finds a node by its id.
* `rawOfJson_reordered`: to reorder the nodes of a document is to reorder those of the record.
-/

namespace VisualScript.Method

/-- Some node with the id `m.entry` is an entry node. -/
def HasEntry (m : Method) : Prop := ∃ n ∈ m.nodes, n.id = m.entry ∧ n.kind.isEntry = true

/-- The ids that more than one node has. -/
def repeatedIds (m : Method) : Set NodeId := {id | (m.nodes.map (·.id)).Duplicate id}

/-- The ids of entry nodes other than `m.entry`. -/
def extraEntries (m : Method) : Set NodeId :=
  {id | ∃ n ∈ m.nodes, n.id = id ∧ n.id ≠ m.entry ∧ n.kind.isEntry = true}

/-- The ids of the nodes differ, and the entry is the one entry node. -/
structure WellIdentified (m : Method) : Prop where
  distinct : (m.nodes.map (·.id)).Nodup
  entry : m.HasEntry
  onlyEntry : ∀ n ∈ m.nodes, n.kind.isEntry = true → n.id = m.entry

/-- What is wrong with a record, and the node to name: the least of `repeatedIds`, or the least of
`extraEntries`. -/
inductive Defect (m : Method) : GraphError → Prop
  | repeated {id : NodeId} (least : IsLeast m.repeatedIds id) : Defect m (.nodeIdInUse id)
  | noEntry (distinct : (m.nodes.map (·.id)).Nodup) (none : ¬ m.HasEntry) : Defect m (.nodeNotFound m.entry)
  | extra {id : NodeId} (distinct : (m.nodes.map (·.id)).Nodup) (entry : m.HasEntry)
      (least : IsLeast m.extraEntries id) : Defect m (.duplicateEntry id)

/-- What `load` makes of a record: the given nodes in rising order, and the least counter above all ids that is not
set back. -/
structure LoadsAs (raw m : Method) : Prop where
  ordered : m.Ordered
  perm : m.nodes.Perm raw.nodes
  counter : IsLeast {k | raw.nextId ≤ k ∧ ∀ n ∈ raw.nodes, n.id < k} m.nextId
  others : m = { raw with nodes := m.nodes, nextId := m.nextId }

variable {raw raw' m m' : Method} {e e' : GraphError}

/-! ### The scans -/

/-- Of the ids that repeat, `repeated?` finds the first in order. -/
theorem isLeast_of_repeated? {ids : List NodeId} {id : NodeId} (h : repeated? ids = some id)
    (hs : ids.Pairwise (· ≤ ·)) : IsLeast {x | ids.Duplicate x} id := by
  fun_induction repeated? ids with
  | case1 a ids =>
    cases h
    refine ⟨List.Mem.duplicate_cons_self (by simp), fun x hx => ?_⟩
    rcases List.mem_cons.1 hx.mem with rfl | hmem
    · exact Nat.le_refl _
    · exact List.rel_of_pairwise_cons hs hmem
  | case2 a b ids hab ih =>
    -- ids rise, so `a` cannot come again once its neighbour is another
    obtain ⟨hle, hs⟩ := List.pairwise_cons.1 hs
    obtain ⟨hdup, hleast⟩ := ih h hs
    have hnot : a ∉ b :: ids := by
      intro hmem
      have hab' : a ≤ b := hle b (by simp)
      rcases List.mem_cons.1 hmem with heq | hmem
      · exact hab heq
      · have hba : b ≤ a := List.rel_of_pairwise_cons hs hmem
        exact hab (Nat.le_antisymm hab' hba)
    refine ⟨hdup.cons_duplicate, fun x hx => ?_⟩
    rcases List.duplicate_cons_iff.1 hx with ⟨rfl, hmem⟩ | hx
    · exact absurd hmem hnot
    · exact hleast hx
  | case3 => cases h

/-- Of the nodes that have `P`, the first in order has the least id. -/
theorem isLeast_of_find? {nodes : List Node} (hs : nodes.Pairwise fun a b => a.id < b.id) {P : Node → Prop}
    [DecidablePred P] {n : Node} (h : (nodes.find? fun k => P k) = some n) :
    IsLeast {id | ∃ k ∈ nodes, k.id = id ∧ P k} n.id := by
  obtain ⟨hn, before, after, rfl, hbefore⟩ := List.find?_eq_some_iff_append.1 h
  refine ⟨⟨n, by simp, rfl, of_decide_eq_true hn⟩, ?_⟩
  rintro id ⟨k, hk, rfl, hPk⟩
  rcases List.mem_append.1 hk with hk | hk
  · have hnot := hbefore k hk
    simp [hPk] at hnot
  · rcases List.mem_cons.1 hk with rfl | hk
    · exact Nat.le_refl _
    · have hafter := (List.pairwise_append.1 hs).2.1
      exact Nat.le_of_lt (List.rel_of_pairwise_cons hafter hk)

theorem any_find?_iff (h : m.Ordered) :
    (m.nodes.find? (·.id = m.entry)).any (·.kind.isEntry) = true ↔ m.HasEntry := by
  rw [Option.any_eq_true]
  constructor
  · rintro ⟨n, hn, hk⟩
    exact ⟨n, List.mem_of_find?_eq_some hn, by simpa using List.find?_some hn, hk⟩
  · rintro ⟨n, hn, hid, hk⟩
    exact ⟨n, hid ▸ h.node?_of_mem hn, hk⟩

/-! ### The order of the nodes -/

section Reordered

variable (h : m'.nodes.Perm m.nodes)

include h

theorem nodup_congr : (m'.nodes.map (·.id)).Nodup ↔ (m.nodes.map (·.id)).Nodup := (h.map _).nodup_iff

theorem repeatedIds_congr : m'.repeatedIds = m.repeatedIds := by
  ext id
  have hcount : (m'.nodes.map (·.id)).count id = (m.nodes.map (·.id)).count id := (h.map _).count_eq id
  show List.Duplicate _ _ ↔ List.Duplicate _ _
  rw [List.duplicate_iff_two_le_count, List.duplicate_iff_two_le_count, hcount]

variable (hentry : m'.entry = m.entry)

include hentry

theorem hasEntry_congr : m'.HasEntry ↔ m.HasEntry := by
  unfold HasEntry
  simp only [h.mem_iff, hentry]

theorem extraEntries_congr : m'.extraEntries = m.extraEntries := by
  unfold extraEntries
  simp only [h.mem_iff, hentry]

theorem WellIdentified.congr (hm : m.WellIdentified) : m'.WellIdentified where
  distinct := (nodup_congr h).2 hm.distinct
  entry := (hasEntry_congr h hentry).2 hm.entry
  onlyEntry n hn hk := hentry ▸ hm.onlyEntry n (h.mem_iff.1 hn) hk

theorem Defect.congr (hm : m.Defect e) : m'.Defect e := by
  cases hm with
  | repeated hleast => exact .repeated (repeatedIds_congr h ▸ hleast)
  | noEntry hdistinct hnone =>
    rw [← hentry]
    exact .noEntry ((nodup_congr h).2 hdistinct) fun hhas => hnone ((hasEntry_congr h hentry).1 hhas)
  | extra hdistinct hhas hleast =>
    exact .extra ((nodup_congr h).2 hdistinct) ((hasEntry_congr h hentry).2 hhas)
      (extraEntries_congr h hentry ▸ hleast)

end Reordered

/-! ### Errors -/

theorem Defect.unique (h : m.Defect e) (h' : m.Defect e') : e = e' := by
  cases h with
  | repeated hleast =>
    have hdup : (m.nodes.map (·.id)).Duplicate _ := hleast.1
    cases h' with
    | repeated hleast' => rw [hleast.unique hleast']
    | noEntry hdistinct => exact absurd hdistinct hdup.not_nodup
    | extra hdistinct => exact absurd hdistinct hdup.not_nodup
  | noEntry hdistinct hnone =>
    cases h' with
    | repeated hleast' => exact absurd hdistinct (List.Duplicate.not_nodup hleast'.1)
    | noEntry => rfl
    | extra _ hhas => exact absurd hhas hnone
  | extra hdistinct hhas hleast =>
    cases h' with
    | repeated hleast' => exact absurd hdistinct (List.Duplicate.not_nodup hleast'.1)
    | noEntry _ hnone => exact absurd hhas hnone
    | extra _ _ hleast' => rw [hleast.unique hleast']

theorem Defect.not_wellIdentified (h : m.Defect e) : ¬ m.WellIdentified := by
  intro hm
  cases h with
  | repeated hleast => exact absurd hm.distinct (List.Duplicate.not_nodup hleast.1)
  | noEntry _ hnone => exact hnone hm.entry
  | extra _ _ hleast =>
    obtain ⟨n, hn, -, hne, hk⟩ := hleast.1
    exact hne (hm.onlyEntry n hn hk)

/-- `load` makes its checks one after the other, each on nodes that passed the ones before. -/
theorem defect_of_load (h : load raw = .error e) : raw.Defect e := by
  have hperm := List.mergeSort_perm raw.nodes fun a b => a.id ≤ b.id
  have hsorted := pairwise_mergeSort_id raw.nodes
  unfold load at h
  simp only at h
  generalize (raw.nodes.mergeSort fun a b => a.id ≤ b.id) = nodes at h hperm hsorted
  refine Defect.congr (m := { raw with nodes }) hperm.symm rfl ?_
  -- first ids that repeat, then the entry, then other entries
  split at h
  · rename_i id hrepeated
    cases h
    exact .repeated (isLeast_of_repeated? hrepeated (List.pairwise_map.2 hsorted))
  · rename_i hrepeated
    have hrising : (nodes.map (·.id)).Pairwise (· < ·) :=
      pairwise_lt_of_repeated? hrepeated (List.pairwise_map.2 hsorted)
    have hdistinct : (nodes.map (·.id)).Nodup := hrising.imp Nat.ne_of_lt
    have hordered : Ordered { raw with nodes } := List.pairwise_map.1 hrising
    have hentry := any_find?_iff hordered
    split at h
    · rename_i hnone
      cases h
      exact .noEntry hdistinct fun hhas => by simp [hentry.2 hhas] at hnone
    · rename_i hhas
      split at h
      · rename_i n hextra
        cases h
        exact .extra hdistinct (hentry.1 (by simpa using hhas)) (isLeast_of_find? hordered hextra)
      · cases h

/-! ### Accepted records -/

theorem loadsAs_of_load (h : load raw = .ok m) : LoadsAs raw m := by
  have hperm : m.nodes.Perm raw.nodes := perm_nodes_load h
  obtain ⟨hordered, -, -, hm⟩ := load_eq_ok h
  have hnext : m.nextId = max raw.nextId ((m.nodes.getLast?.map (·.id + 1)).getD 0) := congrArg Method.nextId hm
  refine ⟨hordered, hperm, ⟨⟨nextId_le_load h, fun n hn => ?_⟩, ?_⟩, ?_⟩
  · exact (identified_load h).bounded n (hperm.mem_iff.2 hn)
  · rintro k ⟨hk, habove⟩
    rw [hnext]
    refine Nat.max_le.2 ⟨hk, ?_⟩
    cases hlast : m.nodes.getLast? with
    | none => exact Nat.zero_le k
    | some last => exact habove last (hperm.mem_iff.1 (List.mem_of_getLast? hlast))
  · rw [hm]

theorem wellIdentified_of_load (h : load raw = .ok m) : raw.WellIdentified := by
  have hm : m.Identified := identified_load h
  have hperm : raw.nodes.Perm m.nodes := (perm_nodes_load h).symm
  have hentry : raw.entry = m.entry := by rw [(loadsAs_of_load h).others]
  obtain ⟨n, hn, hk⟩ := hm.entry
  refine WellIdentified.congr hperm hentry ⟨?_, ⟨n, mem_of_node? hn, id_of_node? hn, hk⟩, hm.onlyEntry⟩
  exact (List.pairwise_map.2 hm.ordered).imp Nat.ne_of_lt

theorem exists_load_iff : (∃ m, load raw = .ok m) ↔ raw.WellIdentified := by
  constructor
  · rintro ⟨m, hm⟩
    exact wellIdentified_of_load hm
  · intro hraw
    cases h : load raw with
    | ok m => exact ⟨m, rfl⟩
    | error e => exact absurd hraw (defect_of_load h).not_wellIdentified

theorem load_eq_error_iff : load raw = .error e ↔ raw.Defect e := by
  refine ⟨defect_of_load, fun he => ?_⟩
  cases h : load raw with
  | ok m => exact absurd (wellIdentified_of_load h) he.not_wellIdentified
  | error e' => rw [he.unique (defect_of_load h)]

/-- In an accepted method `node?` finds the given nodes by their ids. -/
theorem LoadsAs.node?_eq_some_iff (h : LoadsAs raw m) {id : NodeId} {n : Node} :
    m.node? id = some n ↔ n ∈ raw.nodes ∧ n.id = id := by
  rw [← h.perm.mem_iff]
  constructor
  · intro hn
    exact ⟨mem_of_node? hn, id_of_node? hn⟩
  · rintro ⟨hn, rfl⟩
    exact h.ordered.node?_of_mem hn

/-- The order in which nodes were given leaves no trace in what a record `LoadsAs`. -/
theorem LoadsAs.unique (h : LoadsAs raw m) (h' : LoadsAs raw' m') (hperm : raw'.nodes.Perm raw.nodes)
    (hothers : raw' = { raw with nodes := raw'.nodes }) : m' = m := by
  have hnodes : m'.nodes = m.nodes := by
    refine List.Perm.eq_of_pairwise (fun a b _ _ hab hba => ?_) h'.ordered h.ordered
      ((h'.perm.trans hperm).trans h.perm.symm)
    exact absurd hab (Nat.lt_asymm hba)
  have hcounter : m'.nextId = m.nextId := by
    have hleast := h'.counter
    rw [hothers] at hleast
    simp only [hperm.mem_iff] at hleast
    exact hleast.unique h.counter
  rw [h.others, h'.others, hothers, hnodes, hcounter]

theorem load_congr (hperm : raw'.nodes.Perm raw.nodes) (hothers : raw' = { raw with nodes := raw'.nodes }) :
    load raw' = load raw := by
  have hentry : raw'.entry = raw.entry := by rw [hothers]
  cases h : load raw with
  | error e => exact load_eq_error_iff.2 ((defect_of_load h).congr hperm hentry)
  | ok m =>
    obtain ⟨m', hm'⟩ := exists_load_iff.2 ((wellIdentified_of_load h).congr hperm hentry)
    rw [hm', (loadsAs_of_load h).unique (loadsAs_of_load hm') hperm hothers]

/-! ### Looking up by halves -/

/-- Looks for an id by halves: the node in the middle has it, or the search goes on behind it or before it. -/
def bisect (id : NodeId) (nodes : List Node) : Option Node :=
  match _middle : nodes[nodes.length / 2]? with
  | none => none
  | some n =>
    if n.id = id then some n
    else if n.id < id then bisect id (nodes.drop (nodes.length / 2 + 1))
    else bisect id (nodes.take (nodes.length / 2))
termination_by nodes.length
decreasing_by
  · have hlt := (List.getElem?_eq_some_iff.1 _middle).1
    simp only [List.length_drop]
    omega
  · have hlt := (List.getElem?_eq_some_iff.1 _middle).1
    simp only [List.length_take]
    omega

/-- What stands before the node `k` at `i` has lesser ids and what stands behind it greater ones. -/
theorem pairwise_middle {nodes : List Node} {i : Nat} {k : Node} (hs : nodes.Pairwise fun a b => a.id < b.id)
    (hk : nodes[i]? = some k) :
    (∀ n, n ∈ nodes ↔ n ∈ nodes.take i ∨ n = k ∨ n ∈ nodes.drop (i + 1)) ∧
      (∀ n ∈ nodes.take i, n.id < k.id) ∧ ∀ n ∈ nodes.drop (i + 1), k.id < n.id := by
  obtain ⟨hlt, hget⟩ := List.getElem?_eq_some_iff.1 hk
  have hsplit : nodes = nodes.take i ++ k :: nodes.drop (i + 1) := by
    rw [← hget, List.getElem_cons_drop, List.take_append_drop]
  rw [hsplit] at hs
  obtain ⟨-, hbehind, hbefore⟩ := List.pairwise_append.1 hs
  refine ⟨fun n => ?_, fun n hn => hbefore n hn k (by simp), fun n hn => List.rel_of_pairwise_cons hbehind hn⟩
  conv_lhs => rw [hsplit]
  simp

theorem bisect_eq_some_iff {id : NodeId} {nodes : List Node} {n : Node}
    (hs : nodes.Pairwise fun a b => a.id < b.id) :
    bisect id nodes = some n ↔ n ∈ nodes ∧ n.id = id := by
  fun_induction bisect id nodes with
  | case1 nodes hmiddle =>
    have hlength := List.getElem?_eq_none_iff.1 hmiddle
    have hnil : nodes = [] := List.eq_nil_of_length_eq_zero (by omega)
    simp [hnil]
  | case2 nodes k hmiddle hk =>
    -- the middle has the id
    obtain ⟨hmem, hbefore, hbehind⟩ := pairwise_middle hs hmiddle
    rw [hmem]
    constructor
    · intro h
      cases h
      exact ⟨.inr (.inl rfl), hk⟩
    · rintro ⟨hn | rfl | hn, hid⟩
      · exact absurd (hid.trans hk.symm) (Nat.ne_of_lt (hbefore n hn))
      · rfl
      · exact absurd (hk.trans hid.symm) (Nat.ne_of_lt (hbehind n hn))
  | case3 nodes k hmiddle hk hless ih =>
    -- only what stands behind the middle can have it
    obtain ⟨hmem, hbefore, hbehind⟩ := pairwise_middle hs hmiddle
    rw [ih (hs.sublist (List.drop_sublist _ _)), hmem]
    constructor
    · rintro ⟨hn, hid⟩
      exact ⟨.inr (.inr hn), hid⟩
    · rintro ⟨hn | rfl | hn, hid⟩
      · exact absurd hid (Nat.ne_of_lt (Nat.lt_trans (hbefore n hn) hless))
      · exact absurd hid hk
      · exact ⟨hn, hid⟩
  | case4 nodes k hmiddle hk hless ih =>
    -- only what stands before it can
    obtain ⟨hmem, hbefore, hbehind⟩ := pairwise_middle hs hmiddle
    rw [ih (hs.sublist (List.take_sublist _ _)), hmem]
    constructor
    · rintro ⟨hn, hid⟩
      exact ⟨.inl hn, hid⟩
    · rintro ⟨hn | rfl | hn, hid⟩
      · exact ⟨hn, hid⟩
      · exact absurd hid hk
      · exact absurd (hid ▸ hbehind n hn) hless

theorem LoadsAs.bisect_eq_node? (h : LoadsAs raw m) (id : NodeId) : bisect id m.nodes = m.node? id := by
  ext n
  rw [bisect_eq_some_iff h.ordered, h.node?_eq_some_iff, h.perm.mem_iff]

/-! ### Documents -/

/-- An object whose member `nodes` is an array of these items. -/
def documentOf (before after : Members) (items : List Document) : Document :=
  .object (Members.around before after "nodes" (.array items))

theorem rawOfJson_reordered {before after : Members} {items items' : List Document} (h : items'.Perm items)
    (hraw : rawOfJson (documentOf before after items) = .ok raw) :
    ∃ nodes, nodes.Perm raw.nodes ∧ rawOfJson (documentOf before after items') = .ok { raw with nodes } := by
  have hcarries : ∃ raw', rawOfJson (documentOf before after items') = .ok raw' ∧
      ∃ nodes, nodes.Perm raw.nodes ∧ raw' = { raw with nodes } := by
    refine Fields.decode_carries (R := fun r r' => ∃ nodes, nodes.Perm r.nodes ∧ r' = { r with nodes }) ?_ ?_ hraw
    · decide
    · refine Fields.Carries.seq (.seq (.seq (.seq (.seq (.seq
        (.map (X := Eq) (Fields.carries_other (by decide)) ?_)
        (Fields.carries_other (by decide))) (Fields.carries_other (by decide))) (Fields.carries_other (by decide)))
        (Fields.carries_list h)) (Fields.carries_other (by decide))) (Fields.carries_other (by decide))
      rintro name _ rfl arguments _ rfl returns _ rfl modifiers _ rfl nodes nodes' hnodes entry _ rfl next _ rfl
      exact ⟨nodes', hnodes, rfl⟩
  obtain ⟨_, hraw', nodes, hperm, rfl⟩ := hcarries
  exact ⟨nodes, hperm, hraw'⟩

theorem ofJson_of_raw {d : Document} (h : rawOfJson d = .ok raw) :
    ofJson d = (load raw).mapError fun e => .refused e.message := by
  unfold ofJson
  rw [h]
  rfl

/-! ### Every record -/

/-- A record is accepted exactly if it is `WellIdentified`. Its nodes then stand in rising order, where `node?` and
`bisect` find the given node of an id, and the counter is the least that is above every id and not below the given
one (`LoadsAs`). Otherwise the error is its `Defect`: it names the least id that repeats, else the entry, else the
least id of another entry node. To reorder the nodes, in the record or in the document that it was decoded from,
changes nothing of this. -/
theorem load_outcome (raw : Method) :
    ((∃ m, load raw = .ok m) ↔ raw.WellIdentified) ∧
      (∀ m, load raw = .ok m → LoadsAs raw m ∧
        ∀ id n, (m.node? id = some n ↔ n ∈ raw.nodes ∧ n.id = id) ∧ bisect id m.nodes = m.node? id) ∧
      (∀ e, load raw = .error e ↔ raw.Defect e) ∧
      (∀ nodes, nodes.Perm raw.nodes → load { raw with nodes } = load raw) ∧
      ∀ before after items, rawOfJson (documentOf before after items) = .ok raw →
        ofJson (documentOf before after items) = (load raw).mapError (fun e => .refused e.message) ∧
          ∀ items', items'.Perm items →
            ofJson (documentOf before after items') = ofJson (documentOf before after items) := by
  refine ⟨exists_load_iff, fun m hm => ?_, fun e => load_eq_error_iff, fun nodes hperm => load_congr hperm rfl, ?_⟩
  · have hloads : LoadsAs raw m := loadsAs_of_load hm
    exact ⟨hloads, fun id n => ⟨hloads.node?_eq_some_iff, hloads.bisect_eq_node? id⟩⟩
  · intro before after items hraw
    refine ⟨ofJson_of_raw hraw, fun items' hitems => ?_⟩
    obtain ⟨nodes, hperm, hraw'⟩ := rawOfJson_reordered hitems hraw
    rw [ofJson_of_raw hraw, ofJson_of_raw hraw', load_congr hperm rfl]

/-- A record whose entry stands last, with a counter that is too low. -/
def shuffled : Method where
  name := "M"
  argumentTypes := []
  returnTypes := []
  modifiers := .empty
  nodes := [.make 5 (.literal "1" .int) {}, .make 2 .ifElse {}, .make 0 (.methodEntry []) {}]
  entry := 0
  nextId := 3

/-- A record in which two ids repeat and there is no entry. -/
def clashing : Method :=
  { shuffled with
    nodes := [.make 7 .ifElse {}, .make 4 .ifElse {}, .make 7 .ifElse {}, .make 4 .ifElse {}] }

theorem load_outcome_shuffled :
    (∃ m, load shuffled = .ok m ∧ m.node? 5 = some (.make 5 (.literal "1" .int) {}) ∧ m.nextId = 6 ∧
        load { shuffled with nodes := shuffled.nodes.reverse } = .ok m ∧
        ofJson { shuffled with nodes := shuffled.nodes.reverse }.toJson.document = .ok m) ∧
      load clashing = .error (.nodeIdInUse 4) := by
  obtain ⟨haccepted, hloads, -, hreordered, hdocument⟩ := load_outcome shuffled
  obtain ⟨m, hm⟩ := haccepted.2
    ⟨by decide, ⟨.make 0 (.methodEntry []) {}, by decide, by decide, by decide⟩, by decide⟩
  obtain ⟨h, hfound⟩ := hloads m hm
  -- the document of the nodes in the other order is one with its items in the other order
  have hraw : rawOfJson shuffled.toJson.document = .ok shuffled := by decide +kernel
  have hitems : (Json.documentItems (shuffled.nodes.reverse.map Node.toJson)).Perm
      (Json.documentItems (shuffled.nodes.map Node.toJson)) :=
    List.reverse_perm (Json.documentItems (shuffled.nodes.map Node.toJson))
  obtain ⟨hload, hsame⟩ := hdocument
    (Json.documentMembers [("name", .string "M"), ("argument_types", TypeSpec.listToJson []),
      ("return_types", TypeSpec.listToJson []), ("modifiers", MethodModifier.setToJson .empty)])
    (Json.documentMembers [("entry", .nat 0), ("next_node_id", .nat 3)]) _ hraw
  have hleast : IsLeast (repeatedIds clashing) 4 := by
    refine ⟨show List.Duplicate 4 _ by decide, fun x hx => ?_⟩
    exact (show ∀ x ∈ clashing.nodes.map (·.id), 4 ≤ x by decide) x (List.Duplicate.mem hx)
  refine ⟨⟨m, hm, ?_, ?_, ?_, ?_⟩, ?_⟩
  · exact (hfound 5 _).1.2 ⟨by decide, by decide⟩
  · refine h.counter.unique ⟨⟨by decide, by decide⟩, fun k hk => ?_⟩
    exact hk.2 (.make 5 (.literal "1" .int) {}) (by decide)
  · rw [hreordered _ (List.reverse_perm _), hm]
  · have hsame' := hsame _ hitems
    rw [hload, hm] at hsame'
    exact hsame'
  · exact ((load_outcome clashing).2.2.1 _).2 (.repeated hleast)

end VisualScript.Method
