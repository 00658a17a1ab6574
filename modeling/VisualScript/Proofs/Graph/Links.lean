import VisualScript.Proofs.Graph.Ends

/-!
# Links

A graph without dangling ends is one in which references come in pairs (`dangling_eq_nil_iff`). Then
each link can be read off either end: `links` reads the outputs and `isLinked` the end that has only
one link, and both say the same (`mem_links_iff`, `isLinked_iff`).

Whether two pins may be linked is a matter of the shape alone. `Admits` says what
`checkConnection` accepts, apart from the order in which the pins are given.
-/

namespace VisualScript

/-- The kind of pin at the other end of a link. -/
def PinKind.opposite : PinKind → PinKind
  | .execIn => .execOut
  | .execOut => .execIn
  | .dataIn => .dataOut
  | .dataOut => .dataIn

theorem PinRef.ne_of_kind_ne {p q : PinRef} (h : p.kind ≠ q.kind) : p ≠ q := fun he => h (he ▸ rfl)

namespace Link

/-- The end that has no other link: the `source` for control, the `target` for a value. -/
def solo (l : Link) : PinRef := if l.isExec then l.source else l.target

/-- The end that may have other links, opposite to `solo`. -/
def shared (l : Link) : PinRef := if l.isExec then l.target else l.source

theorem solo_eq (l : Link) : l.solo = l.source ∨ l.solo = l.target := by
  unfold solo
  split_ifs
  · exact Or.inl rfl
  · exact Or.inr rfl

/-- From an output to an input of the same sort. -/
def Oriented (l : Link) : Prop :=
  l.source.kind.isInput = false ∧ l.target.kind = l.source.kind.opposite

theorem Oriented.cases {l : Link} (h : l.Oriented) :
    (l.source.kind = .execOut ∧ l.target.kind = .execIn ∧ l.solo = l.source ∧ l.shared = l.target) ∨
    (l.source.kind = .dataOut ∧ l.target.kind = .dataIn ∧ l.solo = l.target ∧ l.shared = l.source) := by
  obtain ⟨hs, ht⟩ := h
  unfold solo shared isExec
  cases hk : l.source.kind <;> rw [hk] at hs ht
  · cases hs
  · exact Or.inl ⟨rfl, ht, rfl, rfl⟩
  · cases hs
  · exact Or.inr ⟨rfl, ht, rfl, rfl⟩

theorem Oriented.kind_solo {l : Link} (h : l.Oriented) : l.solo.kind = .execOut ∨ l.solo.kind = .dataIn := by
  rcases h.cases with ⟨hs, -, hsolo, -⟩ | ⟨-, ht, hsolo, -⟩
  · exact Or.inl (hsolo ▸ hs)
  · exact Or.inr (hsolo ▸ ht)

theorem Oriented.solo_ne_iff {k l : Link} (hk : k.Oriented) (hl : l.Oriented) :
    k.solo ≠ l.solo ↔ k.source ≠ l.solo ∧ k.target ≠ l.solo := by
  rcases hk.cases with ⟨k1, k2, k3, -⟩ | ⟨k1, k2, k3, -⟩ <;>
    rcases hl.cases with ⟨l1, l2, l3, -⟩ | ⟨l1, l2, l3, -⟩ <;> rw [k3, l3]
  -- the other end of `k` is of another kind than `l.solo`, whichever the sorts of both
  · exact ⟨fun h => ⟨h, PinRef.ne_of_kind_ne (by simp [k2, l1])⟩, And.left⟩
  · exact ⟨fun h => ⟨h, PinRef.ne_of_kind_ne (by simp [k2, l2])⟩, And.left⟩
  · exact ⟨fun h => ⟨PinRef.ne_of_kind_ne (by simp [k1, l1]), h⟩, And.right⟩
  · exact ⟨fun h => ⟨PinRef.ne_of_kind_ne (by simp [k1, l2]), h⟩, And.right⟩

end Link

/-- The link between `pin` and `s`, from output to input. -/
def PinRef.linkTo (pin s : PinRef) : Link := if pin.kind.isInput then ⟨s, pin⟩ else ⟨pin, s⟩

theorem PinRef.linkTo_of_output {pin : PinRef} (h : pin.kind.isInput = false) :
    pin.linkTo = (⟨pin, ·⟩) := by
  funext s
  simp [linkTo, h]

theorem PinRef.linkTo_of_input {pin : PinRef} (h : pin.kind.isInput = true) :
    pin.linkTo = (⟨·, pin⟩) := by
  funext s
  simp [linkTo, h]

theorem PinRef.linkTo_injective (pin : PinRef) : Function.Injective pin.linkTo := by
  intro s t h
  unfold linkTo at h
  split_ifs at h
  · exact congrArg Link.source h
  · exact congrArg Link.target h

theorem PinRef.solo_linkTo {p q : PinRef} (hk : p.kind = .execOut ∨ p.kind = .dataIn)
    (ho : (p.linkTo q).Oriented) : (p.linkTo q).solo = p := by
  rcases hk with hk | hk
  · have hl : p.linkTo q = ⟨p, q⟩ := by rw [linkTo_of_output (by rw [hk]; rfl)]
    rw [hl, Link.solo, Link.isExec, hk]
    rfl
  · have hl : p.linkTo q = ⟨q, p⟩ := by rw [linkTo_of_input (by rw [hk]; rfl)]
    rw [hl] at ho ⊢
    rcases ho.cases with ⟨-, h2, -⟩ | ⟨-, -, h3, -⟩
    · rw [hk] at h2
      cases h2
    · exact h3

namespace Node

/-- How many pins of a kind the node has: the bound on `PinRef.slot`. -/
def pinCount (n : Node) : PinKind → Nat
  | .execIn => n.execIns.length
  | .execOut => n.execOuts.length
  | .dataIn => n.dataIns.length
  | .dataOut => n.dataOuts.length

theorem mem_pinRefs {n : Node} {p : PinRef} :
    p ∈ n.pinRefs ↔ p.node = n.id ∧ p.slot < n.pinCount p.kind := by
  obtain ⟨i, kind, slot⟩ := p
  cases kind <;>
    simp [pinRefs, pinCount, PinRef.execIn, PinRef.execOut, PinRef.dataIn, PinRef.dataOut,
      and_comm, eq_comm]

theorem lt_pinCount_of_mem_refs {n : Node} {kind : PinKind} {slot : Nat} {q : PinRef}
    (h : q ∈ n.refs kind slot) : slot < n.pinCount kind := by
  by_contra hge
  cases kind <;> simp [refs, List.getElem?_eq_none (Nat.le_of_not_lt hge)] at h

theorem mem_links {n : Node} {l : Link} :
    l ∈ n.links ↔ l.source.node = n.id ∧ l.source.kind.isInput = false ∧
      l.target ∈ n.refs l.source.kind l.source.slot := by
  obtain ⟨⟨i, kind, slot⟩, t⟩ := l
  simp only [links, List.mem_append, List.mem_flatten, List.mem_mapIdx]
  constructor
  · rintro (⟨_, ⟨s, hs, rfl⟩, ht⟩ | ⟨_, ⟨s, hs, rfl⟩, ht⟩)
    · obtain ⟨q, hq, he⟩ := List.mem_map.1 ht
      cases he
      refine ⟨rfl, rfl, ?_⟩
      simpa [refs, List.getElem?_eq_getElem hs, Linkable.refs] using hq
    · obtain ⟨q, hq, he⟩ := List.mem_map.1 ht
      cases he
      refine ⟨rfl, rfl, ?_⟩
      simpa [refs, List.getElem?_eq_getElem hs, Linkable.refs] using hq
  · rintro ⟨rfl, hk, ht⟩
    -- links are listed at their outputs only
    have hs := lt_pinCount_of_mem_refs ht
    cases kind with
    | execIn => cases hk
    | dataIn => cases hk
    | execOut =>
      refine Or.inl ⟨_, ⟨slot, hs, rfl⟩, List.mem_map.2 ⟨t, ?_, rfl⟩⟩
      simp only [refs, List.getElem?_eq_getElem hs] at ht
      exact ht
    | dataOut =>
      refine Or.inr ⟨_, ⟨slot, hs, rfl⟩, List.mem_map.2 ⟨t, ?_, rfl⟩⟩
      simp only [refs, List.getElem?_eq_getElem hs] at ht
      exact ht

end Node

@[simp] theorem SortedSet.mem_ofList {α : Type} [Ranked α] {a : α} {l : List α} :
    a ∈ SortedSet.ofList l ↔ a ∈ l := by
  have h : ∀ (l : List α) (s : SortedSet α), a ∈ l.foldl SortedSet.insert s ↔ a ∈ s ∨ a ∈ l := by
    intro l
    induction l with
    | nil => simp
    | cons b bs ih =>
      intro s
      rw [List.foldl_cons, ih]
      simp only [mem_insert, List.mem_cons]
      tauto
  rw [ofList, h]
  simp

namespace Method

variable {m : Method}

/-- Both ends of every link know of each other: `refs` come in pairs of opposite kinds. -/
def Mirrored (m : Method) : Prop :=
  ∀ p q, q ∈ m.refs p → q.kind = p.kind.opposite ∧ p ∈ m.refs q

/-- The link is there, as its `source` tells. -/
def Linked (m : Method) (l : Link) : Prop :=
  l.source.kind.isInput = false ∧ l.target ∈ m.refs l.source

/-! ### Dangling ends -/

theorem outgoing_eq_some_iff {p q : PinRef} :
    (m.pin? execOuts p).bind (·.outgoing) = some q ↔ p.kind = .execOut ∧ q ∈ m.refs p := by
  by_cases hk : p.kind = .execOut
  · rw [mem_refs_iff execOuts_lawful hk, Option.bind_eq_some_iff]
    simp [hk, Linkable.refs]
  · have hn : m.pin? execOuts p = none := if_neg hk
    simp [hn, hk]

theorem incoming_eq_some_iff {p q : PinRef} :
    (m.pin? dataIns p).bind (·.incoming) = some q ↔ p.kind = .dataIn ∧ q ∈ m.refs p := by
  by_cases hk : p.kind = .dataIn
  · rw [mem_refs_iff dataIns_lawful hk, Option.bind_eq_some_iff]
    simp [hk, Linkable.refs]
  · have hn : m.pin? dataIns p = none := if_neg hk
    simp [hn, hk]

theorem mem_incoming_iff {p q : PinRef} :
    ((m.pin? execIns p).any fun pin => decide (q ∈ pin.incoming)) = true ↔
      p.kind = .execIn ∧ q ∈ m.refs p := by
  by_cases hk : p.kind = .execIn
  · rw [mem_refs_iff execIns_lawful hk, Option.any_eq_true]
    simp [hk, Linkable.refs, SortedSet.mem_def]
  · have hn : m.pin? execIns p = none := if_neg hk
    simp [hn, hk]

theorem mem_outgoing_iff {p q : PinRef} :
    ((m.pin? dataOuts p).any fun pin => decide (q ∈ pin.outgoing)) = true ↔
      p.kind = .dataOut ∧ q ∈ m.refs p := by
  by_cases hk : p.kind = .dataOut
  · rw [mem_refs_iff dataOuts_lawful hk, Option.any_eq_true]
    simp [hk, Linkable.refs, SortedSet.mem_def]
  · have hn : m.pin? dataOuts p = none := if_neg hk
    simp [hn, hk]

theorem paired_iff {p : PinRef} :
    m.paired p = true ↔ ∀ q ∈ m.refs p, q.kind = p.kind.opposite ∧ p ∈ m.refs q := by
  unfold paired
  cases hk : p.kind with
  | execIn =>
    simp only [mem_refs_iff execIns_lawful hk, Option.all_eq_true, List.all_eq_true,
      decide_eq_true_eq, outgoing_eq_some_iff]
    exact ⟨fun h q ⟨pin, hp, hq⟩ => h pin hp q hq, fun h pin hp q hq => h q ⟨pin, hp, hq⟩⟩
  | execOut =>
    simp only [mem_refs_iff execOuts_lawful hk, Option.all_eq_true, mem_incoming_iff]
    exact ⟨fun h q ⟨pin, hp, hq⟩ => h pin hp q (Option.mem_toList.1 hq),
      fun h pin hp q hq => h q ⟨pin, hp, Option.mem_toList.2 hq⟩⟩
  | dataIn =>
    simp only [mem_refs_iff dataIns_lawful hk, Option.all_eq_true, mem_outgoing_iff]
    exact ⟨fun h q ⟨pin, hp, hq⟩ => h pin hp q (Option.mem_toList.1 hq),
      fun h pin hp q hq => h q ⟨pin, hp, Option.mem_toList.2 hq⟩⟩
  | dataOut =>
    simp only [mem_refs_iff dataOuts_lawful hk, Option.all_eq_true, List.all_eq_true,
      decide_eq_true_eq, incoming_eq_some_iff]
    exact ⟨fun h q ⟨pin, hp, hq⟩ => h pin hp q hq, fun h pin hp q hq => h q ⟨pin, hp, hq⟩⟩

theorem node?_of_mem_refs {p q : PinRef} (h : q ∈ m.refs p) :
    ∃ n, m.node? p.node = some n ∧ p.slot < n.pinCount p.kind := by
  unfold refs at h
  cases hn : m.node? p.node with
  | none => simp [hn] at h
  | some n =>
    rw [hn] at h
    exact ⟨n, rfl, Node.lt_pinCount_of_mem_refs h⟩

/-- No pin is `dangling` exactly if references come in pairs. -/
theorem dangling_eq_nil_iff : m.dangling = [] ↔ m.Mirrored := by
  have hp : m.dangling = [] ↔ ∀ n ∈ m.nodes, ∀ p ∈ n.pinRefs, m.paired p = true := by
    unfold dangling
    rw [List.eq_nil_iff_forall_not_mem]
    simp only [← SortedSet.mem_def, SortedSet.mem_ofList, List.mem_filter, List.mem_flatMap,
      Bool.not_eq_true']
    constructor
    · intro h n hn p hp
      by_contra hne
      exact h p ⟨⟨n, hn, hp⟩, by simpa using hne⟩
    · rintro h p ⟨⟨n, hn, hp⟩, hne⟩
      simp [h n hn p hp] at hne
  rw [hp]
  constructor
  -- a pin that holds a reference is one of `pinRefs`
  · intro h p q hq
    obtain ⟨n, hn, hslot⟩ := node?_of_mem_refs hq
    have hmem : p ∈ n.pinRefs := Node.mem_pinRefs.2 ⟨(id_of_node? hn).symm, hslot⟩
    exact paired_iff.1 (h n (mem_of_node? hn) p hmem) q hq
  · intro h n _ p _
    exact paired_iff.2 (h p)

/-! ### Links from either end -/

theorem mem_links_iff (h : m.Ordered) {l : Link} : l ∈ m.links ↔ m.Linked l := by
  unfold links Linked
  rw [List.mem_flatMap]
  constructor
  · rintro ⟨n, hn, hl⟩
    obtain ⟨hid, hk, ht⟩ := Node.mem_links.1 hl
    refine ⟨hk, ?_⟩
    rw [← refs_of_mem h hn, ← hid] at ht
    exact ht
  · rintro ⟨hk, ht⟩
    obtain ⟨n, hn, -⟩ := node?_of_mem_refs ht
    refine ⟨n, mem_of_node? hn, Node.mem_links.2 ⟨(id_of_node? hn).symm, hk, ?_⟩⟩
    unfold refs at ht
    rw [hn] at ht
    exact ht

theorem Mirrored.ne (h : m.Mirrored) {p q : PinRef} (hq : q ∈ m.refs p) : q ≠ p := by
  rintro rfl
  have hk := (h _ _ hq).1
  cases hkind : q.kind <;> rw [hkind] at hk <;> cases hk

theorem Mirrored.oriented (h : m.Mirrored) {l : Link} (hl : m.Linked l) : l.Oriented :=
  ⟨hl.1, (h _ _ hl.2).1⟩

theorem isLinked_iff (h : m.Mirrored) {l : Link} : m.isLinked l = true ↔ m.Linked l := by
  unfold isLinked Linked Link.isExec
  cases hk : l.source.kind with
  | execIn => simp [PinKind.isExec, PinKind.isInput, outgoing_eq_some_iff, hk]
  | execOut => simp [PinKind.isExec, PinKind.isInput, outgoing_eq_some_iff, hk]
  | dataIn =>
    -- two inputs cannot refer to each other
    simp only [PinKind.isExec, PinKind.isInput, Bool.false_eq_true, if_false, decide_eq_true_eq,
      incoming_eq_some_iff, false_and, iff_false, reduceCtorEq]
    rintro ⟨ht, hs⟩
    have hopp := (h _ _ hs).1
    rw [ht, hk] at hopp
    cases hopp
  | dataOut =>
    simp only [PinKind.isExec, PinKind.isInput, Bool.false_eq_true, if_false, decide_eq_true_eq,
      incoming_eq_some_iff, true_and]
    constructor
    · rintro ⟨-, hs⟩
      exact (h _ _ hs).2
    · intro ht
      have hopp := (h _ _ ht).1
      rw [hk] at hopp
      exact ⟨hopp, (h _ _ ht).2⟩

/-- Pins of the kinds `execOut` and `dataIn` hold one reference at most. -/
theorem eq_of_mem_refs {p q q' : PinRef} (hk : p.kind = .execOut ∨ p.kind = .dataIn)
    (hq : q ∈ m.refs p) (hq' : q' ∈ m.refs p) : q = q' := by
  rcases hk with hk | hk
  · have h := outgoing_eq_some_iff.2 ⟨hk, hq⟩
    rw [outgoing_eq_some_iff.2 ⟨hk, hq'⟩] at h
    exact (Option.some.inj h).symm
  · have h := incoming_eq_some_iff.2 ⟨hk, hq⟩
    rw [incoming_eq_some_iff.2 ⟨hk, hq'⟩] at h
    exact (Option.some.inj h).symm

/-- Two links do not share the end `solo`. -/
theorem Mirrored.eq_of_solo (h : m.Mirrored) {k l : Link} (hk : m.Linked k) (hl : m.Linked l)
    (hs : k.solo = l.solo) : k = l := by
  have hk' := (h _ _ hk.2).2
  have hl' := (h _ _ hl.2).2
  obtain ⟨⟨ks, kt⟩, ⟨ls, lt⟩⟩ := k, l
  rcases (h.oriented hk).cases with ⟨k1, k2, k3, -⟩ | ⟨k1, k2, k3, -⟩ <;>
    rcases (h.oriented hl).cases with ⟨l1, l2, l3, -⟩ | ⟨l1, l2, l3, -⟩ <;>
    rw [k3, l3] at hs
  · cases hs
    exact congrArg (Link.mk ks) (eq_of_mem_refs (Or.inl k1) hk.2 hl.2)
  -- one for control and one for a value: their solo ends are of different kinds
  · rw [hs] at k1
    rw [k1] at l2
    cases l2
  · rw [hs] at k2
    rw [k2] at l1
    cases l1
  · cases hs
    exact congrArg (Link.mk · kt) (eq_of_mem_refs (Or.inr k2) hk' hl')

/-- `refs` can be told from `Linked`. -/
theorem Mirrored.mem_refs_iff_linked (h : m.Mirrored) {p q : PinRef} :
    q ∈ m.refs p ↔ m.Linked (p.linkTo q) := by
  unfold Linked PinRef.linkTo
  split_ifs with hp
  · constructor
    · intro hq
      obtain ⟨hk, hpq⟩ := h _ _ hq
      refine ⟨?_, hpq⟩
      rw [hk]
      cases hkind : p.kind <;> rw [hkind] at hp <;> first | rfl | cases hp
    · intro hl
      exact (h _ _ hl.2).2
  · simp [hp]

/-- A link at the pin `p` is one of those that its `refs` tell of. -/
theorem Mirrored.exists_linkTo (h : m.Mirrored) {k : Link} {p : PinRef} (hk : m.Linked k)
    (hp : k.source = p ∨ k.target = p) : ∃ q ∈ m.refs p, p.linkTo q = k := by
  rcases hp with rfl | rfl
  · exact ⟨k.target, hk.2, by rw [PinRef.linkTo_of_output hk.1]⟩
  · have hi : k.target.kind.isInput = true := by
      rcases (h.oriented hk).cases with ⟨-, h2, -⟩ | ⟨-, h2, -⟩ <;> rw [h2] <;> rfl
    exact ⟨k.source, (h _ _ hk.2).2, by rw [PinRef.linkTo_of_input hi]⟩

/-! ### Links that may be made -/

/-- Both pins are there, an output and an input of the same sort, and a value can flow. -/
def Admits (m : Method) (c : TypeCatalog) (l : Link) : Prop :=
  (∃ a b, m.pin? execOuts l.source = some a ∧ m.pin? execIns l.target = some b) ∨
  (∃ a b, m.pin? dataOuts l.source = some a ∧ m.pin? dataIns l.target = some b ∧
    c.checkAssignable a.type b.type = .ok true)

theorem Admits.oriented {c : TypeCatalog} {l : Link} (h : m.Admits c l) : l.Oriented := by
  unfold Link.Oriented
  obtain ⟨a, b, ha, hb⟩ | ⟨a, b, ha, hb, -⟩ := h
  · rw [(pin?_eq_some_iff.1 ha).1, (pin?_eq_some_iff.1 hb).1]
    exact ⟨rfl, rfl⟩
  · rw [(pin?_eq_some_iff.1 ha).1, (pin?_eq_some_iff.1 hb).1]
    exact ⟨rfl, rfl⟩

theorem orient?_eq_some_iff {a b : PinRef} {l : Link} :
    orient? a b = some l ↔ l.Oriented ∧ (l = ⟨a, b⟩ ∨ l = ⟨b, a⟩) := by
  unfold orient? Link.Oriented
  constructor
  · intro h
    cases ha : a.kind <;> cases hb : b.kind <;> simp only [ha, hb, Option.some.injEq, reduceCtorEq] at h
    all_goals
      subst h
      simp [ha, hb, PinKind.isInput, PinKind.opposite]
  · rintro ⟨⟨hs, ht⟩, rfl | rfl⟩
    · cases ha : a.kind <;> simp_all [PinKind.isInput, PinKind.opposite]
    · cases hb : b.kind <;> simp_all [PinKind.isInput, PinKind.opposite]

theorem checkConnection_eq_ok_iff {c : TypeCatalog} {a b : PinRef} {l : Link} :
    m.checkConnection c a b = .ok l ↔ m.Admits c l ∧ (l = ⟨a, b⟩ ∨ l = ⟨b, a⟩) := by
  unfold checkConnection
  cases ho : orient? a b with
  | none =>
    simp only [reduceCtorEq, false_iff, not_and]
    intro hl hab
    rw [orient?_eq_some_iff.2 ⟨hl.oriented, hab⟩] at ho
    cases ho
  | some k =>
    obtain ⟨-, hk⟩ := orient?_eq_some_iff.1 ho
    have hkl : m.Admits c l ∧ (l = ⟨a, b⟩ ∨ l = ⟨b, a⟩) ↔ m.Admits c k ∧ k = l := by
      constructor
      · rintro ⟨hl, hab⟩
        rw [orient?_eq_some_iff.2 ⟨hl.oriented, hab⟩] at ho
        cases ho
        exact ⟨hl, rfl⟩
      · rintro ⟨hl, rfl⟩
        exact ⟨hl, hk⟩
    rw [hkl]
    unfold requirePin Admits
    -- a pin of the one sort is none of the other, so only one half of `Admits` is open
    by_cases hx : k.isExec = true
    · have hd : m.pin? dataOuts k.source = none := by
        refine if_neg fun he => ?_
        simp [Link.isExec, he, dataOuts, PinKind.isExec] at hx
      cases hs : m.pin? execOuts k.source <;> cases ht : m.pin? execIns k.target <;>
        simp [hx, hd, hs, ht, bind, Except.bind, pure, Except.pure]
    · have hd : m.pin? execOuts k.source = none := by
        refine if_neg fun he => ?_
        simp [Link.isExec, he, execOuts, PinKind.isExec] at hx
      cases hs : m.pin? dataOuts k.source with
      | none => simp [hx, hd, hs, bind, Except.bind]
      | some a =>
        cases ht : m.pin? dataIns k.target with
        | none => simp [hx, hd, hs, ht, bind, Except.bind]
        | some b =>
          rcases hc : c.checkAssignable a.type b.type with e | _ | _ <;>
            simp [hx, hd, hs, ht, hc, bind, Except.bind, pure, Except.pure]

end Method

end VisualScript
