import Mathlib.Data.List.Basic
import Mathlib.Data.Nat.Bitwise
import Mathlib.Data.UInt

/-!
# Ring buffers with free-running counters

A ring of `2^k` slots and two 64-bit counters that are never reset. The
counters stand for unbounded positions (`counter`): as long as two positions
are less than `2^64` apart their difference, their equality and the slot of
each can be read off the wrapped counters.

`Window` is the state of such a ring: from position `low` on, every item lies
in the slot of its position, and there are no more of them than slots.
-/

namespace Bbdb.Ring

/-- The 64-bit counter at position `n`. -/
def counter (n : Nat) : UInt64 := UInt64.ofNat n

theorem toNat_counter (n : Nat) : (counter n).toNat = n % 2 ^ 64 := UInt64.toNat_ofNat'

theorem counter_add (n k : Nat) : counter n + counter k = counter (n + k) := by
  apply UInt64.toNat_inj.mp
  rw [UInt64.toNat_add, toNat_counter, toNat_counter, toNat_counter, ← Nat.add_mod]

theorem counter_succ (n : Nat) : counter n + 1 = counter (n + 1) := counter_add n 1

/-- **The difference of the counters is the difference of the positions**,
wrapped or not. -/
theorem toNat_sub_counter {low high : Nat} (h : low ≤ high) (hlt : high - low < 2 ^ 64) :
    (counter high - counter low).toNat = high - low := by
  rw [UInt64.toNat_sub, toNat_counter, toNat_counter]
  omega

theorem counter_inj {low high : Nat} (h : low ≤ high) (hlt : high - low < 2 ^ 64)
    (he : counter low = counter high) : low = high := by
  have hz := toNat_sub_counter h hlt
  rw [← he, UInt64.sub_self] at hz
  have h0 : (0 : UInt64).toNat = 0 := rfl
  omega

/-- The slot of a position can be read off its counter. -/
theorem toNat_counter_mod {k : Nat} (hk : k ≤ 64) (n : Nat) :
    (counter n).toNat % 2 ^ k = n % 2 ^ k := by
  rw [toNat_counter, Nat.mod_mod_of_dvd _ (Nat.pow_dvd_pow 2 hk)]

/-- Positions less than a lap apart have different slots. -/
theorem mod_ne_of_lt {size i j : Nat} (h : i < j) (h' : j < i + size) : i % size ≠ j % size := by
  intro he
  obtain ⟨d, rfl⟩ : ∃ d, j = i + d := ⟨j - i, by omega⟩
  have hd : d % size = 0 := by
    have := Nat.sub_mod_eq_zero_of_mod_eq he.symm
    rwa [Nat.add_sub_cancel_left] at this
  rw [Nat.mod_eq_of_lt (by omega)] at hd
  omega

variable {α : Type} {slots : Nat → α} {size low : Nat} {items : List α}

/-- The items from position `low` on lie in their slots. -/
structure Window (slots : Nat → α) (size : Nat) (items : List α) (low : Nat) : Prop where
  low_le : low ≤ items.length
  le_size : items.length ≤ low + size
  slot : ∀ i x, low ≤ i → items[i]? = some x → slots (i % size) = x

theorem window_empty (slots : Nat → α) (size : Nat) : Window slots size [] 0 :=
  ⟨Nat.le_refl _, Nat.zero_le _, fun i x _ h => by cases h⟩

/-- **Writing the next slot** of a ring with room disturbs no item. -/
theorem Window.write (h : Window slots size items low) (hroom : items.length < low + size)
    {slots' : Nat → α} (hother : ∀ i, i ≠ items.length % size → slots' i = slots i) :
    Window slots' size items low := by
  refine ⟨h.low_le, h.le_size, fun i y hi hy => ?_⟩
  have hlt : i < items.length := (List.getElem?_eq_some_iff.mp hy).1
  rw [hother _ (mod_ne_of_lt hlt (by omega))]
  exact h.slot i y hi hy

/-- The written item counts once the position moves on. -/
theorem Window.push (h : Window slots size items low) (hroom : items.length < low + size) {x : α}
    (hx : slots (items.length % size) = x) : Window slots size (items ++ [x]) low := by
  have hlen : (items ++ [x]).length = items.length + 1 := by simp
  refine ⟨by rw [hlen]; exact h.low_le.trans (Nat.le_succ _), by omega, fun i y hi hy => ?_⟩
  by_cases hlt : i < items.length
  · rw [List.getElem?_append_left hlt] at hy
    exact h.slot i y hi hy
  · have hle : i < (items ++ [x]).length := (List.getElem?_eq_some_iff.mp hy).1
    obtain rfl : i = items.length := by omega
    rw [List.getElem?_concat_length] at hy
    cases hy
    exact hx

/-- The oldest item is given up. -/
theorem Window.pop (h : Window slots size items low) (hsome : low < items.length) :
    Window slots size items (low + 1) :=
  ⟨hsome, by have := h.le_size; omega, fun i x hi hx => h.slot i x (by omega) hx⟩

end Bbdb.Ring
