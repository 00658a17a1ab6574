/-!
# Fresh names

`freshName base taken` is the first of `base`, `base2`, `base3` and so on that is not taken. With `n`
names taken, one of the first `n + 1` candidates is free.
-/

namespace VisualScript

/-- The candidates after the base itself, enough of them for `n` names taken. -/
def numberedNames (base : String) (n : Nat) : List String :=
  (List.range' 2 n).map fun k => s!"{base}{k}"

def freshName (base : String) (taken : List String) : String :=
  if base ∈ taken then
    ((numberedNames base taken.length).find? (· ∉ taken)).getD base
  else base

end VisualScript
