import VisualScript.Proofs.Graph.Effects
import VisualScript.Proofs.Graph.Restoration

/-!
# The list of links

A link is stored at both of its ends, in four sorts of pins. `links` reads the outputs and lists what it finds in
the order of links: by the node of the output, then exec before data, then by slot, then by the target
(`Method.pairwise_links`). `isLinked` reads the end with one link only, which is an input for a value, and a
consistent graph has the same links there.

So the list is all that need be known of the links of a consistent graph. Methods that are the same without links
and have the same list are the same (`links_canonical`), also where sameness leaves out enum flags, the sign of a
zero and the counter.
-/

namespace VisualScript

/-! ### The order of links -/

theorem PinKind.index_inj {a b : PinKind} : a.index = b.index ↔ a = b := ⟨index_injective, congrArg index⟩

theorem PinRef.before_iff {p q : PinRef} :
    Ranked.Before p q ↔ p.node < q.node ∨ (p.node = q.node ∧
      (p.kind.index < q.kind.index ∨ (p.kind = q.kind ∧ p.slot < q.slot))) := by
  unfold Ranked.Before
  simp [Ranked.rank, List.cons_lt_cons_iff, PinKind.index_inj]

theorem Link.before_iff {k l : Link} :
    Ranked.Before k l ↔
      Ranked.Before k.source l.source ∨ (k.source = l.source ∧ Ranked.Before k.target l.target) := by
  obtain ⟨⟨n, kind, slot⟩, target⟩ := k
  obtain ⟨⟨n', kind', slot'⟩, target'⟩ := l
  rw [PinRef.before_iff]
  unfold Ranked.Before
  simp only [Ranked.rank, List.cons_append, List.nil_append, List.cons_lt_cons_iff, PinKind.index_inj,
    PinRef.mk.injEq]
  tauto

namespace Node

section Pins

variable {π : Type} {id : NodeId} {kind : PinKind} {pins : List π} {targets : π → List PinRef}

theorem source_of_mem_pins {k : Link}
    (h : k ∈ (pins.mapIdx fun slot p => (targets p).map (Link.mk ⟨id, kind, slot⟩)).flatten) :
    ∃ slot, k.source = ⟨id, kind, slot⟩ := by
  obtain ⟨ls, hls, hk⟩ := List.mem_flatten.1 h
  obtain ⟨slot, hslot, rfl⟩ := List.mem_mapIdx.1 hls
  obtain ⟨t, -, rfl⟩ := List.mem_map.1 hk
  exact ⟨slot, rfl⟩

/-- The links of the pins of one `kind` stand slot by slot. -/
theorem pairwise_pins (ht : ∀ p ∈ pins, (targets p).Pairwise Ranked.Before) :
    (pins.mapIdx fun slot p => (targets p).map (Link.mk ⟨id, kind, slot⟩)).flatten.Pairwise Ranked.Before := by
  rw [List.pairwise_flatten]
  constructor
  -- within a pin by the target, between pins by the slot
  · intro ls hls
    obtain ⟨slot, hslot, rfl⟩ := List.mem_mapIdx.1 hls
    refine List.pairwise_map.2 ((ht _ (List.getElem_mem hslot)).imp ?_)
    intro s t hst
    exact Link.before_iff.2 (Or.inr ⟨rfl, hst⟩)
  · refine List.pairwise_iff_getElem.2 fun i j hi hj hij k hk l hl => ?_
    rw [List.getElem_mapIdx] at hk hl
    obtain ⟨s, -, rfl⟩ := List.mem_map.1 hk
    obtain ⟨t, -, rfl⟩ := List.mem_map.1 hl
    exact Link.before_iff.2 (Or.inl (PinRef.before_iff.2 (Or.inr ⟨rfl, Or.inr ⟨rfl, hij⟩⟩)))

end Pins

theorem pairwise_links (n : Node) : n.links.Pairwise Ranked.Before := by
  unfold links
  -- exec links, data links, and the ones before the others
  refine List.pairwise_append.2 ⟨?_, ?_, ?_⟩
  · apply pairwise_pins
    intro p _
    cases p.outgoing <;> simp
  · apply pairwise_pins
    intro p _
    exact p.outgoing.sorted
  · intro k hk l hl
    obtain ⟨slot, hk⟩ := source_of_mem_pins hk
    obtain ⟨slot', hl⟩ := source_of_mem_pins hl
    have hkinds : PinKind.index .execOut < PinKind.index .dataOut := by decide
    rw [Link.before_iff, hk, hl]
    exact Or.inl (PinRef.before_iff.2 (Or.inr ⟨rfl, Or.inl hkinds⟩))

end Node

namespace Method

variable {m m' : Method}

theorem pairwise_links (h : m.Ordered) : m.links.Pairwise Ranked.Before := by
  unfold links
  refine List.pairwise_flatMap.2 ⟨fun n _ => n.pairwise_links, h.imp ?_⟩
  intro a b hab k hk l hl
  have hsource : k.source.node < l.source.node := by
    rw [(Node.mem_links.1 hk).1, (Node.mem_links.1 hl).1]
    exact hab
  exact Link.before_iff.2 (Or.inl (PinRef.before_iff.2 (Or.inl hsource)))

end Method

/-! ### What sameness leaves out -/

theorem Node.refs_erase (n : Node) (kind : PinKind) (slot : Nat) : n.erase.refs kind slot = n.refs kind slot := by
  cases kind with
  | execIn => rfl
  | execOut => rfl
  | dataIn =>
    simp only [refs, erase, List.getElem?_map, Option.map_map]
    rfl
  | dataOut =>
    simp only [refs, erase, List.getElem?_map, Option.map_map]
    rfl

namespace Method

variable {m m' : Method}

theorem node?_erase (m : Method) (id : NodeId) : m.erase.node? id = (m.node? id).map Node.erase := by
  unfold erase node?
  rw [List.find?_map]
  rfl

theorem refs_erase (m : Method) (p : PinRef) : m.erase.refs p = m.refs p := by
  unfold refs
  rw [node?_erase, Option.map_map]
  simp only [Function.comp_def, Node.refs_erase]

theorem ordered_erase : m.erase.Ordered ↔ m.Ordered := List.pairwise_map

theorem mirrored_erase : m.erase.Mirrored ↔ m.Mirrored := by
  unfold Mirrored
  simp only [refs_erase]

theorem linked_erase {l : Link} : m.erase.Linked l ↔ m.Linked l := by
  unfold Linked
  rw [refs_erase]

/-- Links and what `Same` leaves out can be dropped in either order. -/
theorem shape_erase (m : Method) : m.erase.shape = m.shape.erase := by
  have hnode : ∀ n : Node, n.erase.unlinked = n.unlinked.erase := by
    intro n
    simp [Node.erase, Node.unlinked, DataIn.erase, DataOut.erase]
  unfold shape erase
  simp [hnode]

/-- Two consistent graphs are `Same` just if their `shape` is and they have the same `links`. -/
theorem Consistent.same_iff (h : m.Consistent) (h' : m'.Consistent) :
    m.Same m' ↔ m.shape.Same m'.shape ∧ m.links = m'.links := by
  have hshape : m.shape.Same m'.shape ↔ m.erase.shape = m'.erase.shape := by
    unfold Same
    rw [shape_erase, shape_erase]
  rw [hshape]
  constructor
  · intro hsame
    exact ⟨congrArg shape hsame, hsame.links_eq⟩
  · rintro ⟨hs, hl⟩
    refine eq_of_shape_of_linked (ordered_erase.2 h.ordered) (mirrored_erase.2 h.mirrored)
      (mirrored_erase.2 h'.mirrored) hs fun k => ?_
    rw [linked_erase, linked_erase, ← h.mem_links, ← h'.mem_links, hl]

theorem Consistent.eq_iff (h : m.Consistent) (h' : m'.Consistent) :
    m = m' ↔ m.shape = m'.shape ∧ m.links = m'.links := by
  constructor
  · rintro rfl
    exact ⟨rfl, rfl⟩
  · rintro ⟨hs, hl⟩
    refine eq_of_shape_of_linked h.ordered h.mirrored h'.mirrored hs fun k => ?_
    rw [← h.mem_links, ← h'.mem_links, hl]

/-- `links` lists in strictly rising order, and so once each, what `isLinked` says is a link, of any two pins at
all, and there is no other such list. With what is left of a consistent graph when its links are dropped (name,
signature, modifiers, entry and bare nodes), the list is the whole graph: two such graphs that have both in common
are the same, and if they have the counter and all flags in common too, they are equal. -/
theorem links_canonical (h : m.Consistent) :
    m.links.Pairwise Ranked.Before ∧ m.links.Nodup ∧ (∀ l, l ∈ m.links ↔ m.isLinked l = true) ∧
      (∀ ls : List Link, ls.Pairwise Ranked.Before → (∀ l, l ∈ ls ↔ m.isLinked l = true) → ls = m.links) ∧
      ∀ m' : Method, m'.Consistent →
        (m.Same m' ↔ m.shape.Same m'.shape ∧ m.links = m'.links) ∧
        (m = m' ↔ m.shape = m'.shape ∧ m.links = m'.links) := by
  let sorted : SortedSet Link := ⟨m.links, pairwise_links h.ordered⟩
  have hmem : ∀ l, l ∈ m.links ↔ m.isLinked l = true := by
    intro l
    rw [h.isLinked_eq, decide_eq_true_iff]
  refine ⟨sorted.sorted, sorted.nodup, hmem, ?_, fun m' h' => ⟨h.same_iff h', h.eq_iff h'⟩⟩
  intro ls hls hmem'
  -- two sorted lists of the same members are one
  have hsets : (⟨ls, hls⟩ : SortedSet Link) = sorted :=
    SortedSet.eq_of_mem_iff fun l => (hmem' l).trans (hmem l).symm
  exact congrArg SortedSet.toList hsets

end Method

/-- The graph of `GraphM.revolving`, made in another order and not straight away: a node is added and removed
again, the body of the loop first leads to the branch, and the branch stands at the other zero. -/
def rewound : Method :=
  (Method.make "main" [] []).run (.ofPairs [])
    [.addNode .forLoop {}, .addNode .ifElse ⟨.zero true, .zero false⟩, .addNode (.literal "0" .int) {},
      .connect (.execIn 2 0) (.execOut 2 1), .connect (.dataOut 3 0) (.dataIn 1 1),
      .connect (.dataIn 1 1) (.dataOut 1 0), .connect (.execOut 1 0) (.execIn 2 0),
      .connect (.execOut 1 0) (.execIn 1 0), .removeNode 3, .connect (.execOut 0 0) (.execIn 1 0)]

theorem consistent_rewound : rewound.Consistent :=
  (Method.coherent_iff.1 (Method.coherent_run (Method.coherent_make "main" [] [] (.ofPairs [])) _)).1

/-- `revolving` and `rewound` have one list, and are the same but for the counter and the sign of the zero. A link
told from its input is none, nor is one between pins of two sorts. -/
theorem Method.links_canonical_rewound :
    GraphM.revolving.links =
        [⟨.execOut 0 0, .execIn 1 0⟩, ⟨.execOut 1 0, .execIn 1 0⟩, ⟨.dataOut 1 0, .dataIn 1 1⟩,
          ⟨.execOut 2 1, .execIn 2 0⟩] ∧
      GraphM.revolving.Same rewound ∧ GraphM.revolving ≠ rewound ∧
      GraphM.revolving.isLinked ⟨.execIn 1 0, .execOut 0 0⟩ = false ∧
      GraphM.revolving.isLinked ⟨.dataOut 1 0, .execIn 1 0⟩ = false := by
  have hlinks : GraphM.revolving.links =
      [⟨.execOut 0 0, .execIn 1 0⟩, ⟨.execOut 1 0, .execIn 1 0⟩, ⟨.dataOut 1 0, .dataIn 1 1⟩,
        ⟨.execOut 2 1, .execIn 2 0⟩] := by decide +kernel
  obtain ⟨-, -, hmem, -, hknown⟩ := Method.links_canonical GraphM.consistent_revolving
  obtain ⟨hsame, hequal⟩ := hknown rewound consistent_rewound
  have habsent : ∀ l, l ∉ GraphM.revolving.links → GraphM.revolving.isLinked l = false := by
    intro l hl
    rw [hmem] at hl
    exact Bool.eq_false_of_not_eq_true hl
  refine ⟨hlinks, hsame.2 ⟨by decide +kernel, by decide +kernel⟩, ?_, habsent _ ?_, habsent _ ?_⟩
  · -- they have the same links, but not the same shape
    intro he
    have hshape := (hequal.1 he).1
    revert hshape
    decide +kernel
  · rw [hlinks]
    decide
  · rw [hlinks]
    decide

end VisualScript
