import VisualScript.Graph.Wiring

/-!
# Edits

An `Edit` is a change to a graph as a value. `Edit.apply` makes the change and returns the edit that
takes it back. A batch that fails takes back what it has done so far, last change first, and a
restored node whose links cannot all be made is taken out again.
-/

namespace VisualScript

inductive Edit where
  | addNode (kind : NodeKind) (position : Position)
  /-- Puts a node back under its id and makes its links again. -/
  | restoreNode (node : Node) (links : List Link)
  | removeNode (node : NodeId)
  | connect (a b : PinRef)
  | unlink (link : Link)
  | disconnect (pin : PinRef)
  | batch (edits : List Edit)

namespace Edit

/-- The edit that makes a link. -/
def relink (l : Link) : Edit := .connect l.source l.target

mutual

/-- How deep batches nest. -/
def depth : Edit → Nat
  | .batch edits => depthOfAll edits + 1
  | _ => 0

def depthOfAll : List Edit → Nat
  | [] => 0
  | e :: es => max e.depth (depthOfAll es)

end

end Edit

/-- What edits can be applied to: it has a present method, and takes the operations on it. Handing out an
id is set apart from the others. -/
class Host (σ : Type) where
  present : σ → Method
  addNode : NodeKind → Position → EditM σ NodeId
  perform {α : Type} : GraphM α → EditM σ α

instance : Host Method where
  present m := m
  addNode := GraphM.addNode
  perform x := x

namespace Edit

section Apply

variable {σ : Type} [Host σ]

/-- Makes links one by one. If one fails, the node is taken out again and the displaced links, kept
last first, are put back as far as they can be. -/
def restoreLinks (c : TypeCatalog) (node : NodeId) : (displaced links : List Link) → EditM σ Unit
  | _, [] => pure ()
  | displaced, l :: ls => do
    let made ← tryCatch (Host.perform (GraphM.connect c l.source l.target)) fun e => do
      (Host.perform (GraphM.removeNode node) : EditM σ Node).attempt
      displaced.forM fun d =>
        (Host.perform (GraphM.connect c d.source d.target) : EditM σ (Option Link)).attempt
      throw e
    restoreLinks c node (made.toList ++ displaced) ls

mutual

/-- Applies an edit; `undo` is how a batch takes an edit back. -/
def applyWith (undo : Edit → σ → σ) (c : TypeCatalog) : Edit → EditM σ Edit
  | .addNode kind position => return .removeNode (← Host.addNode kind position)
  | .restoreNode node links => do
    let id ← Host.perform (GraphM.insertNode node)
    restoreLinks c id [] links
    return .removeNode id
  | .removeNode id => do
    let links := (Host.present (← get)).nodeLinks id
    return .restoreNode (← Host.perform (GraphM.removeNode id)) links
  | .connect a b => do
    let link ← (Host.present (← get)).checkConnection c a b
    if (Host.present (← get)).isLinked link then return .batch []
    let displaced ← Host.perform (GraphM.connect c a b)
    return .batch (.unlink link :: displaced.toList.map relink)
  | .unlink link => do
    if ← Host.perform (GraphM.unlink link) then return relink link else return .batch []
  | .disconnect pin => return .batch ((← Host.perform (GraphM.disconnect pin)).map relink)
  | .batch edits => applyAll undo c [] edits

/-- Applies edits in turn. `done` holds the inverses of those before, last first. -/
def applyAll (undo : Edit → σ → σ) (c : TypeCatalog) (done : List Edit) : List Edit → EditM σ Edit
  | [] => return .batch done
  | e :: es => do
    let inverse ← tryCatch (applyWith undo c e) fun error => do
      modify fun s => done.foldl (fun s i => undo i s) s
      throw error
    applyAll undo c (inverse :: done) es

end

/-- Applies an edit on the way back from an error, whatever comes of it. A batch that fails there
is taken back in turn, and so on for `turns` turns. -/
def rollBack (c : TypeCatalog) : (turns : Nat) → Edit → σ → σ
  | 0, _, s => s
  | turns + 1, e, s => ((applyWith (rollBack c turns) c e).exec s).2

end Apply

/-- Each turn goes one level down, and below the innermost batches two more turns can follow: a
disconnected pin comes back as a batch of links, and a link that displaced another as a batch of
two. More turns change nothing (`Edit.applyWith_rollBack`). -/
def turns (e : Edit) : Nat := e.depth + 2

/-- Makes the change and returns its inverse. -/
def apply (c : TypeCatalog) (e : Edit) : GraphM Edit := applyWith (rollBack c e.turns) c e

end Edit

/-- A method with the edits that take its last changes back, and those that bring back what was
undone, newest first. -/
structure History where
  method : Method
  undoStack : List Edit := []
  redoStack : List Edit := []

namespace History

/-- Applies an edit. If it succeeds, it can be undone and nothing can be redone any more. -/
def edit (c : TypeCatalog) (e : Edit) (h : History) : Except GraphError Edit × History :=
  match (e.apply c).exec h.method with
  | (.ok inverse, m) => (.ok inverse, ⟨m, inverse :: h.undoStack, []⟩)
  | (.error error, m) => (.error error, { h with method := m })

/-- Takes the last change back, if there is one. An inverse that fails is lost. -/
def undo (c : TypeCatalog) (h : History) : Except GraphError (Option Edit) × History :=
  match h.undoStack with
  | [] => (.ok none, h)
  | e :: rest =>
    match (e.apply c).exec h.method with
    | (.ok inverse, m) => (.ok (some inverse), ⟨m, rest, inverse :: h.redoStack⟩)
    | (.error error, m) => (.error error, ⟨m, rest, h.redoStack⟩)

/-- Makes the last undone change again, if there is one. -/
def redo (c : TypeCatalog) (h : History) : Except GraphError (Option Edit) × History :=
  match h.redoStack with
  | [] => (.ok none, h)
  | e :: rest =>
    match (e.apply c).exec h.method with
    | (.ok inverse, m) => (.ok (some inverse), ⟨m, inverse :: h.undoStack, rest⟩)
    | (.error error, m) => (.error error, ⟨m, h.undoStack, rest⟩)

end History

end VisualScript
