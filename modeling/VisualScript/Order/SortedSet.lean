/-!
# Sorted sets

`Ranked α` orders `α` by a list of numbers, compared from the left. A `SortedSet α` lists its
members in strictly rising rank, so two sets with the same members are the same value.
-/

namespace VisualScript

/-- A total order given by a key: elements compare as their ranks do. -/
class Ranked (α : Type) where
  rank : α → List Nat
  rank_injective : ∀ {a b : α}, rank a = rank b → a = b

namespace Ranked

variable {α : Type} [Ranked α]

/-- The strict order of the ranks. -/
def Before (a b : α) : Prop := rank a < rank b

instance (a b : α) : Decidable (Before a b) := inferInstanceAs (Decidable (rank a < rank b))

theorem before_irrefl (a : α) : ¬ Before a a := List.lt_irrefl _

theorem Before.trans {a b c : α} (h : Before a b) (h' : Before b c) : Before a c :=
  List.lt_trans h h'

theorem eq_of_not_before {a b : α} (h : ¬ Before a b) (h' : ¬ Before b a) : a = b :=
  rank_injective (List.le_antisymm h' h)

/-- Puts `a` at its place; a list that holds `a` stays as it is. -/
def place (a : α) : List α → List α
  | [] => [a]
  | b :: bs => if Before a b then a :: b :: bs else if Before b a then b :: place a bs else b :: bs

@[simp] theorem mem_place {a x : α} {l : List α} : x ∈ place a l ↔ x = a ∨ x ∈ l := by
  induction l with
  | nil => simp [place]
  | cons b bs ih =>
    unfold place
    split
    · simp
    · split
      · simp only [List.mem_cons, ih, or_left_comm]
      · rename_i h h'
        obtain rfl := eq_of_not_before h h'
        simp

theorem pairwise_place {a : α} {l : List α} (h : l.Pairwise Before) :
    (place a l).Pairwise Before := by
  induction l with
  | nil => simp [place]
  | cons b bs ih =>
    obtain ⟨hb, hs⟩ := List.pairwise_cons.1 h
    unfold place
    split
    · rename_i hab
      refine List.pairwise_cons.2 ⟨fun x hx => ?_, h⟩
      rcases List.mem_cons.1 hx with rfl | hx
      · exact hab
      · exact hab.trans (hb x hx)
    · split
      · rename_i hba
        refine List.pairwise_cons.2 ⟨fun x hx => ?_, ih hs⟩
        rcases mem_place.1 hx with rfl | hx
        · exact hba
        · exact hb x hx
      · exact h

end Ranked

/-- A finite set, listed in rising order. -/
structure SortedSet (α : Type) [Ranked α] where
  toList : List α
  sorted : toList.Pairwise Ranked.Before

namespace SortedSet

variable {α : Type} [Ranked α]

instance [DecidableEq α] : DecidableEq (SortedSet α) := fun s t =>
  if h : s.toList = t.toList then isTrue (by cases s; cases t; cases h; rfl)
  else isFalse (fun e => h (by rw [e]))

def empty : SortedSet α := ⟨[], .nil⟩

def singleton (a : α) : SortedSet α := ⟨[a], by simp⟩

def insert (s : SortedSet α) (a : α) : SortedSet α :=
  ⟨Ranked.place a s.toList, Ranked.pairwise_place s.sorted⟩

def ofList (l : List α) : SortedSet α := l.foldl insert empty

instance : Membership α (SortedSet α) := ⟨fun s a => a ∈ s.toList⟩

instance [DecidableEq α] (a : α) (s : SortedSet α) : Decidable (a ∈ s) :=
  inferInstanceAs (Decidable (a ∈ s.toList))

def erase [DecidableEq α] (s : SortedSet α) (a : α) : SortedSet α :=
  ⟨s.toList.filter (· ≠ a), s.sorted.filter _⟩

theorem mem_def {a : α} {s : SortedSet α} : a ∈ s ↔ a ∈ s.toList := Iff.rfl

@[simp] theorem not_mem_empty (a : α) : ¬ a ∈ (empty : SortedSet α) := List.not_mem_nil

@[simp] theorem mem_singleton {a x : α} : x ∈ singleton a ↔ x = a := List.mem_singleton

@[simp] theorem mem_insert {a x : α} {s : SortedSet α} : x ∈ s.insert a ↔ x = a ∨ x ∈ s :=
  Ranked.mem_place

@[simp] theorem mem_erase [DecidableEq α] {a x : α} {s : SortedSet α} :
    x ∈ s.erase a ↔ x ∈ s ∧ x ≠ a := by
  simp [mem_def, erase]

end SortedSet

end VisualScript
