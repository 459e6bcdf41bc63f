import Mathlib.Data.List.Sort

/-!
# Strict weak orders given by a comparison function

What sorting and heap routines ask of the `less` they are handed. `less` is
read as "strictly before"; elements neither of which is before the other are
tied, and ties are transitive. `NotAfter less` is then a total preorder,
which is what a sorted list and a heap are ordered by.
-/

namespace Bbdb

variable {α : Type}

/-- `less` is a strict weak order: asymmetric, and what is before something
is separated from it by every third element. -/
structure StrictWeak (less : α → α → Bool) : Prop where
  asymm : ∀ {a b}, less a b = true → less b a = false
  cotrans : ∀ {a c}, less a c = true → ∀ b, less a b = true ∨ less b c = true

/-- `a` does not come after `b`. -/
def NotAfter (less : α → α → Bool) (a b : α) : Prop := less b a = false

instance (less : α → α → Bool) : DecidableRel (NotAfter less) :=
  fun a b => inferInstanceAs (Decidable (less b a = false))

namespace StrictWeak

variable {less : α → α → Bool} {a b c : α}

theorem refl (h : StrictWeak less) (a : α) : NotAfter less a a := by
  cases haa : less a a with
  | false => exact haa
  | true => exact h.asymm haa

theorem trans (h : StrictWeak less) (hab : NotAfter less a b) (hbc : NotAfter less b c) :
    NotAfter less a c := by
  cases hca : less c a with
  | false => exact hca
  | true =>
      rcases h.cotrans hca b with hcb | hba
      · exact absurd hcb (by rw [hbc]; decide)
      · exact absurd hba (by rw [hab]; decide)

theorem total (h : StrictWeak less) (a b : α) : NotAfter less a b ∨ NotAfter less b a := by
  cases hba : less b a with
  | false => exact Or.inl hba
  | true => exact Or.inr (h.asymm hba)

/-- Insertion sort sorts by it, whichever elements are tied. -/
theorem pairwise_insertionSort (h : StrictWeak less) (l : List α) :
    (l.insertionSort (NotAfter less)).Pairwise (NotAfter less) := by
  have : Std.Total (NotAfter less) := ⟨h.total⟩
  have : IsTrans α (NotAfter less) := ⟨fun _ _ _ => h.trans⟩
  exact List.pairwise_insertionSort (NotAfter less) l

end StrictWeak

end Bbdb
