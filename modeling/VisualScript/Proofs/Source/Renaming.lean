import VisualScript.Proofs.Source.Derivation

/-!
# Renaming nodes

Nodes go by ids, and so do the pins, the errors and the statements that mention them. `rename` gives every node
another id, in all that writing reads and makes. What is looked up under a new id is what was there under the old
one as long as no two ids become one (`Method.node?_rename`, `Scope.value?_rename`), and the text of source names
no ids (`Code.lines_rename`).
-/

namespace VisualScript

variable {f : NodeId → NodeId}

namespace PinRef

def rename (f : NodeId → NodeId) (p : PinRef) : PinRef := { p with node := f p.node }

theorem rename_injective (hf : Function.Injective f) : Function.Injective (rename f) := by
  rintro ⟨n, k, s⟩ ⟨n', k', s'⟩ h
  simp only [rename, mk.injEq] at h ⊢
  exact ⟨hf h.1, h.2⟩

@[simp] theorem rename_id : rename id = id := rfl

end PinRef

/-! ### Graphs -/

def PinSet.rename (f : NodeId → NodeId) (s : PinSet) : PinSet := .ofList (s.toList.map (PinRef.rename f))

def Node.rename (f : NodeId → NodeId) (n : Node) : Node where
  id := f n.id
  kind := n.kind
  position := n.position
  execIns := n.execIns.map fun p => { p with incoming := PinSet.rename f p.incoming }
  execOuts := n.execOuts.map fun p => { p with outgoing := p.outgoing.map (PinRef.rename f) }
  dataIns := n.dataIns.map fun p => { p with incoming := p.incoming.map (PinRef.rename f) }
  dataOuts := n.dataOuts.map fun p => { p with outgoing := PinSet.rename f p.outgoing }

/-- The `nodes` are put in the order of their new ids. -/
def Method.rename (f : NodeId → NodeId) (m : Method) : Method :=
  { m with
    nodes := (m.nodes.map (Node.rename f)).mergeSort fun a b => a.id ≤ b.id
    entry := f m.entry }

/-- `mergeSort` is stable, so the first element with a key stays the first. -/
theorem find?_mergeSort {α : Type} (key : α → Nat) (l : List α) (k : Nat) :
    (l.mergeSort fun a b => key a ≤ key b).find? (key · = k) = l.find? (key · = k) := by
  have hpairwise : (l.filter (key · = k)).Pairwise fun a b => decide (key a ≤ key b) = true := by
    refine List.pairwise_iff_getElem.2 fun i j hi hj _ => ?_
    have hki := List.of_mem_filter (List.getElem_mem hi)
    have hkj := List.of_mem_filter (List.getElem_mem hj)
    simp only [decide_eq_true_eq] at hki hkj ⊢
    omega
  -- the elements with the key keep their order, and sorting adds none
  have hsub : (l.filter (key · = k)).Sublist (l.mergeSort fun a b => key a ≤ key b) := by
    refine List.sublist_mergeSort (fun a b c hab hbc => ?_) (fun a b => ?_) hpairwise List.filter_sublist
    · simp only [decide_eq_true_eq] at hab hbc ⊢
      omega
    · simp only [Bool.or_eq_true, decide_eq_true_eq]
      omega
  have hfilter := hsub.filter (key · = k)
  rw [List.filter_filter] at hfilter
  simp only [Bool.and_self] at hfilter
  have hlength := ((List.mergeSort_perm l fun a b => key a ≤ key b).filter (key · = k)).length_eq
  rw [← List.head?_filter, ← List.head?_filter, hfilter.eq_of_length_le (Nat.le_of_eq hlength)]

theorem Method.node?_rename (hf : Function.Injective f) (m : Method) (id : NodeId) :
    (m.rename f).node? (f id) = (m.node? id).map (Node.rename f) := by
  have hid : ((fun n : Node => decide (n.id = f id)) ∘ Node.rename f) = fun n => decide (n.id = id) := by
    funext n
    simp [Node.rename, hf.eq_iff]
  unfold node? rename
  rw [find?_mergeSort Node.id, List.find?_map, hid]

/-! ### Errors and code -/

def SourceError.rename (f : NodeId → NodeId) : SourceError → SourceError
  | .missingConnection node label pin => .missingConnection (f node) label pin
  | .typeMismatch node pin expected found => .typeMismatch (f node) pin expected found
  | .valueOutOfScope node label pin => .valueOutOfScope (f node) label pin
  | .execCycle node label => .execCycle (f node) label
  | .dataCycle node label => .dataCycle (f node) label
  | .missingEntry => .missingEntry
  | .danglingReference pin => .danglingReference (pin.rename f)

@[simp] theorem SourceError.rename_id (e : SourceError) : e.rename id = e := by cases e <;> rfl

namespace Step

def rename (f : NodeId → NodeId) : Step → Step
  | .read node type name variableName => .read (f node) type name variableName
  | .callMethod node results target name arguments => .callMethod (f node) results target name arguments
  | .callStatic node results type name arguments => .callStatic (f node) results type name arguments
  | .assign node variableName value => .assign (f node) variableName value

@[simp] theorem text_rename (s : Step) : (s.rename f).text = s.text := by cases s <;> rfl

end Step

namespace Code

def rename (f : NodeId → NodeId) : Code → Code
  | .done => .done
  | .ret node values => .ret (f node) values
  | .again node => .again (f node)
  | .branch node condition whenTrue => .branch (f node) condition (whenTrue.rename f)
  | .branchElse node condition whenTrue whenFalse =>
    .branchElse (f node) condition (whenTrue.rename f) (whenFalse.rename f)
  | .step s next => .step (s.rename f) (next.rename f)
  | .loop node index initial limit body next =>
    .loop (f node) index initial limit (body.rename f) (next.rename f)

theorem rename_steps (ss : List Step) (next : Code) :
    (steps ss next).rename f = steps (ss.map (Step.rename f)) (next.rename f) := by
  induction ss with
  | nil => rfl
  | cons s ss ih => exact congrArg (Code.step (s.rename f)) ih

/-- No line names a node, so `rename` leaves the `lines` as they are. -/
@[simp] theorem lines_rename (code : Code) (level : Nat) : (code.rename f).lines level = code.lines level := by
  induction code generalizing level with
  | done => rfl
  | ret => rfl
  | again => rfl
  | branch node condition t iht => simp only [rename, lines, iht]
  | branchElse node condition t e iht ihe => simp only [rename, lines, iht, ihe]
  | step s next ih => simp only [rename, lines, Step.text_rename, ih]
  | loop node index initial limit body next ihb ihn => simp only [rename, lines, ihb, ihn]

end Code

/-! ### Scopes and drafts -/

namespace Scope

def rename (f : NodeId → NodeId) (s : Scope) : Scope where
  values := s.values.map fun v => (v.1.rename f, v.2)
  emitted := s.emitted.map f

theorem value?_rename (hf : Function.Injective f) (s : Scope) (p : PinRef) :
    (s.rename f).value? (p.rename f) = s.value? p := by
  have hp : ((fun v : PinRef × String => decide (v.1 = p.rename f)) ∘
      fun v : PinRef × String => (v.1.rename f, v.2)) = fun v => decide (v.1 = p) := by
    funext v
    simp [(PinRef.rename_injective hf).eq_iff]
  unfold value? rename
  rw [List.find?_map, hp, Option.map_map]
  rfl

theorem mem_emitted_rename (hf : Function.Injective f) {s : Scope} {id : NodeId} :
    f id ∈ (s.rename f).emitted ↔ id ∈ s.emitted :=
  List.mem_map_of_injective hf

theorem rename_bind (s : Scope) (p : PinRef) (text : String) :
    (s.bind p text).rename f = (s.rename f).bind (p.rename f) text := rfl

theorem rename_named (s : Scope) (node : NodeId) (results : List (TypeSpec × String)) :
    (s.named node results).rename f = (s.rename f).named (f node) results := by
  simp [named, rename, List.mapIdx_eq_zipIdx_map, PinRef.rename, PinRef.dataOut]

end Scope

def Draft.rename (f : NodeId → NodeId) (d : Draft) : Draft :=
  { d with scope := d.scope.rename f, steps := d.steps.map (Step.rename f) }

end VisualScript
