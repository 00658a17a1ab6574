import VisualScript.Proofs.Graph.Coupling

/-!
# Properties that operations keep

`GraphM.Yields P Q x` says that the operation `x` keeps the property `P` of the method, also when it fails, and
that its answers have `Q`. That is to be in step with itself on equal methods that have `P` (`GraphM.yields_iff`),
so the rules of `Couples` apply. `Kept c P N` says that each single operation keeps `P`, given that a node from
outside has `N`; then every edit keeps it with all its rollbacks (`Edit.yields_apply`), and so does every run
(`Method.kept_run`).
-/

namespace VisualScript

open EditM

/-- One and the same method, which has `P`. -/
def Method.Holding (P : Method → Prop) (a b : Method) : Prop := a = b ∧ P a

namespace GraphM

variable {α : Type} {P : Method → Prop} {Q : α → Prop} {x : GraphM α}

/-- The operation keeps `P`, also when it fails, and when it succeeds its answer has `Q`. -/
def Yields (P : Method → Prop) (Q : α → Prop) (x : GraphM α) : Prop :=
  ∀ m, P m → P (x.exec m).2 ∧ ∀ a, (x.exec m).1 = .ok a → Q a

theorem yields_iff : Yields P Q x ↔ Couples (Method.Holding P) Q x x := by
  constructor
  · rintro h s _ ⟨rfl, hs⟩
    exact ⟨rfl, ⟨rfl, (h s hs).1⟩, (h s hs).2⟩
  · intro h m hm
    obtain ⟨-, ⟨-, hm'⟩, hQ⟩ := h m m ⟨rfl, hm⟩
    exact ⟨hm', hQ⟩

/-- An operation of which nothing more is said than that it keeps `P`. -/
theorem Yields.of_leaves (h : ∀ m, P m → P (x.exec m).2) : Yields P (fun _ => True) x :=
  fun m hm => ⟨h m hm, fun _ _ => trivial⟩

/-- A stronger property `P` that is kept can be given up for `P'` afterwards. -/
theorem Yields.leaves {P' : Method → Prop} (h : Yields P Q x) {m : Method} (hm : P m) (hi : ∀ m, P m → P' m) :
    P' (x.exec m).2 ∧ ∀ a, (x.exec m).1 = .ok a → Q a :=
  ⟨hi _ (h m hm).1, (h m hm).2⟩

end GraphM

/-- Every single operation keeps `P`. A node that is put in has to have `N`, and one that is taken out has it. -/
structure Kept (c : TypeCatalog) (P : Method → Prop) (N : Node → Prop) : Prop where
  addNode : ∀ kind position, GraphM.Yields P (fun _ => True) (GraphM.addNode kind position)
  insertNode : ∀ {a : Node}, N a → GraphM.Yields P (fun _ => True) (GraphM.insertNode a)
  removeNode : ∀ id, GraphM.Yields P N (GraphM.removeNode id)
  connect : ∀ a b, GraphM.Yields P (fun _ => True) (GraphM.connect c a b)
  unlink : ∀ l, GraphM.Yields P (fun _ => True) (GraphM.unlink l)
  disconnect : ∀ pin, GraphM.Yields P (fun _ => True) (GraphM.disconnect pin)
  disconnectAll : ∀ id, GraphM.Yields P (fun _ => True) (GraphM.disconnectAll id)

variable {P : Method → Prop} {N : Node → Prop} {c : TypeCatalog} {m : Method}

theorem Kept.fullyCoupled (h : Kept c P N) : FullyCoupled c (Method.Holding P) N where
  alike := by
    rintro s _ ⟨rfl, -⟩
    exact .refl s
  addNode kind position := GraphM.yields_iff.1 (h.addNode kind position)
  insertNode hN := GraphM.yields_iff.1 (h.insertNode hN)
  removeNode id := GraphM.yields_iff.1 (h.removeNode id)
  connect a b := GraphM.yields_iff.1 (h.connect a b)
  unlink l := GraphM.yields_iff.1 (h.unlink l)
  disconnect pin := GraphM.yields_iff.1 (h.disconnect pin)

namespace Edit

variable {undo : Edit → Method → Method}

theorem yields_applyWith (h : Kept c P N) (hu : ∀ e m, e.Puts N → P m → P (undo e m)) {e : Edit} (he : e.Puts N) :
    GraphM.Yields P (Puts N) (applyWith undo c e) := by
  refine GraphM.yields_iff.2 (couples_applyWith h.fullyCoupled ?_ e he)
  rintro e s _ he ⟨rfl, hs⟩
  exact ⟨rfl, hu e s he hs⟩

theorem kept_rollBack (h : Kept c P N) (turns : Nat) (e : Edit) (m : Method) (he : e.Puts N) (hm : P m) :
    P (rollBack c turns e m) :=
  (related_rollBack h.fullyCoupled turns e m m he ⟨rfl, hm⟩).2

theorem yields_apply (h : Kept c P N) {e : Edit} (he : e.Puts N) : GraphM.Yields P (Puts N) (e.apply c) :=
  yields_applyWith h (kept_rollBack h e.turns) he

end Edit

/-! ### Runs -/

/-- A change that can be made to a `Method` from outside. -/
inductive Operation where
  | addNode (kind : NodeKind) (position : Position)
  | insertNode (node : Node)
  | removeNode (id : NodeId)
  | connect (a b : PinRef)
  | unlink (link : Link)
  | disconnect (pin : PinRef)
  | disconnectAll (id : NodeId)
  | edit (e : Edit)

namespace Operation

/-- The method that the operation leaves behind, whether it succeeds or fails, for the catalog `c`. -/
def after (c : TypeCatalog) (m : Method) : Operation → Method
  | .addNode kind position => ((GraphM.addNode kind position).exec m).2
  | .insertNode node => ((GraphM.insertNode node).exec m).2
  | .removeNode id => ((GraphM.removeNode id).exec m).2
  | .connect a b => ((GraphM.connect c a b).exec m).2
  | .unlink l => ((GraphM.unlink l).exec m).2
  | .disconnect pin => ((GraphM.disconnect pin).exec m).2
  | .disconnectAll id => ((GraphM.disconnectAll id).exec m).2
  | .edit e => ((e.apply c).exec m).2

end Operation

namespace Method

/-- The method after the operations `ops` in turn. -/
def run (c : TypeCatalog) (m : Method) (ops : List Operation) : Method :=
  ops.foldl (fun m op => op.after c m) m

end Method

/-- Every node that the operation puts in from outside has `N`. -/
def Operation.Puts (N : Node → Prop) : Operation → Prop
  | .insertNode node => N node
  | .edit e => e.Puts N
  | _ => True

/-- Where every node has `N` there is nothing to show. -/
theorem Operation.puts_of_forall (hN : ∀ n, N n) : ∀ op : Operation, op.Puts N
  | .insertNode node => hN node
  | .edit e => e.puts_of_forall hN
  | .addNode .. | .removeNode _ | .connect .. | .unlink _ | .disconnect _ | .disconnectAll _ => trivial

/-- The step of a run. -/
theorem Operation.kept_after (h : Kept c P N) (hm : P m) {op : Operation} (hop : op.Puts N) :
    P (op.after c m) := by
  cases op with
  | addNode kind position => exact (h.addNode kind position m hm).1
  | insertNode node => exact (h.insertNode hop m hm).1
  | removeNode id => exact (h.removeNode id m hm).1
  | connect a b => exact (h.connect a b m hm).1
  | unlink l => exact (h.unlink l m hm).1
  | disconnect pin => exact (h.disconnect pin m hm).1
  | disconnectAll id => exact (h.disconnectAll id m hm).1
  | edit e => exact (Edit.yields_apply h hop m hm).1

/-- What each operation keeps holds along a whole run, if the nodes that `ops` put in have `N`. -/
theorem Method.kept_run (h : Kept c P N) (hm : P m) {ops : List Operation} (hops : ∀ op ∈ ops, op.Puts N) :
    P (m.run c ops) := by
  induction ops generalizing m with
  | nil => exact hm
  | cons op ops ih =>
    exact ih (Operation.kept_after h hm (hops op (by simp))) fun op' hop' => hops op' (by simp [hop'])

end VisualScript
