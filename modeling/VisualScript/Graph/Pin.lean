import VisualScript.Order.SortedSet
import VisualScript.Types.Basic

/-!
# Pins and links

Nodes are joined at their pins. A pin carries control (exec) or a value (data) and is an input or an
output; a `PinRef` names it by its node, its kind and its place among the node's pins of that kind.
A link runs from an output to an input and is kept at both ends. An exec output has one target and an
exec input any number of sources; a data input has one source and a data output any number of
targets.
-/

namespace VisualScript

abbrev NodeId := Nat

/-- A node as messages name it. -/
def NodeId.text (id : NodeId) : String := s!"#{id}"

inductive PinKind where
  | execIn
  | execOut
  | dataIn
  | dataOut
deriving DecidableEq

namespace PinKind

def isExec : PinKind → Bool
  | .execIn | .execOut => true
  | .dataIn | .dataOut => false

def isInput : PinKind → Bool
  | .execIn | .dataIn => true
  | .execOut | .dataOut => false

/-- The place in the order of kinds. -/
def index : PinKind → Nat
  | .execIn => 0
  | .execOut => 1
  | .dataIn => 2
  | .dataOut => 3

theorem index_injective {a b : PinKind} (h : a.index = b.index) : a = b := by
  cases a <;> cases b <;> first | rfl | cases h

def text : PinKind → String
  | .execIn => "exec-in"
  | .execOut => "exec-out"
  | .dataIn => "data-in"
  | .dataOut => "data-out"

end PinKind

structure PinRef where
  node : NodeId
  kind : PinKind
  slot : Nat
deriving DecidableEq

namespace PinRef

def text (p : PinRef) : String := s!"{NodeId.text p.node}:{p.kind.text}[{p.slot}]"

def execIn (node : NodeId) (slot : Nat) : PinRef := ⟨node, .execIn, slot⟩

def execOut (node : NodeId) (slot : Nat) : PinRef := ⟨node, .execOut, slot⟩

def dataIn (node : NodeId) (slot : Nat) : PinRef := ⟨node, .dataIn, slot⟩

def dataOut (node : NodeId) (slot : Nat) : PinRef := ⟨node, .dataOut, slot⟩

end PinRef

/-- Pins are ordered by node, then by kind, then by slot. -/
instance : Ranked PinRef where
  rank p := [p.node, p.kind.index, p.slot]
  rank_injective {a b} h := by
    obtain ⟨n, k, s⟩ := a
    obtain ⟨n', k', s'⟩ := b
    simp only [List.cons.injEq, and_true] at h
    obtain ⟨rfl, hk, rfl⟩ := h
    rw [PinKind.index_injective hk]

abbrev PinSet := SortedSet PinRef

/-- A link from an output pin to an input pin. -/
structure Link where
  source : PinRef
  target : PinRef
deriving DecidableEq

namespace Link

def isExec (l : Link) : Bool := l.source.kind.isExec

def text (l : Link) : String := s!"{l.source.text}->{l.target.text}"

/-- Whether one end of the link is at the node. -/
def touches (l : Link) (id : NodeId) : Bool := l.source.node == id || l.target.node == id

end Link

/-- Links are ordered by their sources, then by their targets. -/
instance : Ranked Link where
  rank l := Ranked.rank l.source ++ Ranked.rank l.target
  rank_injective {a b} h := by
    obtain ⟨hs, ht⟩ := List.append_inj h rfl
    cases a
    cases b
    simp only [Link.mk.injEq]
    exact ⟨Ranked.rank_injective hs, Ranked.rank_injective ht⟩

structure ExecIn where
  name : String
  incoming : PinSet := .empty
deriving DecidableEq

structure ExecOut where
  name : String
  outgoing : Option PinRef := none
deriving DecidableEq

structure DataIn where
  name : String
  type : TypeSpec
  incoming : Option PinRef := none
deriving DecidableEq

structure DataOut where
  name : String
  type : TypeSpec
  outgoing : PinSet := .empty
deriving DecidableEq

def DataIn.erase (p : DataIn) : DataIn := { p with type := p.type.erase }

def DataOut.erase (p : DataOut) : DataOut := { p with type := p.type.erase }

end VisualScript
