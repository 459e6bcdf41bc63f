import Bbdb.Lib.StrictWeak
import Mathlib.Data.List.Perm.Basic
import Mathlib.Logic.Equiv.Basic

/-!
# The binary heap of Go's container/heap

A heap is a slice in which no element comes before its parent. `up` and
`down` are the two loops of the package; `push` and `pop` are `heap.Push` and
`heap.Pop` over a slice type that appends and cuts at its end.

Whatever the comparison does with ties, `push` adds its element and `pop`
takes out one that nothing left comes before (`push_spec`, `pop_spec`).
-/

namespace Bbdb.Heap

variable {α : Type}

/-- The place above `i`; that of the root is the root. -/
def parent (i : Nat) : Nat := (i - 1) / 2

section Loops

variable (less : α → α → Bool)

/-- `h.Less(i, j)`. -/
def lessAt (a : Array α) (i j : Nat) : Bool :=
  match a[i]?, a[j]? with
  | some x, some y => less x y
  | _, _ => false

/-- The loop of `up` from place `j`. Every pass moves to a smaller place, so
`j` bounds the number of passes. -/
def up : Nat → Array α → Nat → Array α
  | 0, a, _ => a
  | m + 1, a, j =>
      if parent j = j ∨ lessAt less a j (parent j) = false then a
      else up m (a.swapIfInBounds (parent j) j) (parent j)

/-- The smaller child of `i` among the first `n` places; the left one, if
they are tied. -/
def minChild (a : Array α) (i n : Nat) : Nat :=
  if 2 * i + 2 < n ∧ lessAt less a (2 * i + 2) (2 * i + 1) = true then 2 * i + 2 else 2 * i + 1

/-- The loop of `down` from place `i` among the first `n` places. Every pass
moves to a larger place, so `n` bounds the number of passes. -/
def down : Nat → Array α → Nat → Nat → Array α
  | 0, a, _, _ => a
  | m + 1, a, i, n =>
      if n ≤ 2 * i + 1 ∨ lessAt less a (minChild less a i n) i = false then a
      else down m (a.swapIfInBounds i (minChild less a i n)) (minChild less a i n) n

/-- `heap.Push`. -/
def push (a : Array α) (x : α) : Array α := up less a.size (a.push x) a.size

/-- `heap.Pop`: what it returns, and what is left. -/
def pop (a : Array α) : Option (α × Array α) :=
  let n := a.size - 1
  let b := down less n (a.swapIfInBounds 0 n) 0 n
  b.back?.map fun x => (x, b.pop)

end Loops

/-! ## Places -/

variable {less : α → α → Bool} {a : Array α} {i j k n : Nat}

/-- The element at `j` does not come before the one at `i`. -/
def Above (less : α → α → Bool) (a : Array α) (i j : Nat) : Prop := lessAt less a j i = false

/-- No element among the first `n` comes before its parent. -/
def Ordered (less : α → α → Bool) (a : Array α) (n : Nat) : Prop :=
  ∀ k, 0 < k → k < n → Above less a (parent k) k

theorem parent_lt (h : 0 < k) : parent k < k := by
  unfold parent
  omega

theorem lessAt_eq (hi : i < a.size) (hj : j < a.size) : lessAt less a i j = less a[i] a[j] := by
  simp only [lessAt, Array.getElem?_eq_getElem hi, Array.getElem?_eq_getElem hj]

theorem Above.trans (h : StrictWeak less) (hj : j < a.size) (hij : Above less a i j)
    (hjk : Above less a j k) : Above less a i k := by
  by_cases hi : i < a.size
  · by_cases hk : k < a.size
    · rw [Above, lessAt_eq hj hi] at hij
      rw [Above, lessAt_eq hk hj] at hjk
      rw [Above, lessAt_eq hk hi]
      exact h.trans hij hjk
    · simp [Above, lessAt, hk]
  · simp [Above, lessAt, hi]

theorem above_of_lessAt (h : StrictWeak less) (hij : lessAt less a i j = true) :
    Above less a i j := by
  by_cases hi : i < a.size
  · by_cases hj : j < a.size
    · rw [lessAt_eq hi hj] at hij
      rw [Above, lessAt_eq hj hi]
      exact h.asymm hij
    · simp [Above, lessAt, hj]
  · simp [Above, lessAt, hi]

theorem above_refl (h : StrictWeak less) (i : Nat) : Above less a i i := by
  cases hii : lessAt less a i i with
  | false => exact hii
  | true => exact above_of_lessAt h hii

/-- Reading after a swap. -/
theorem getElem?_swap (hi : i < a.size) (hj : j < a.size) (k : Nat) :
    (a.swapIfInBounds i j)[k]? = a[Equiv.swap i j k]? := by
  rw [Array.swapIfInBounds, dif_pos hi, dif_pos hj, Array.getElem?_swap]
  by_cases hkj : j = k
  · rw [if_pos hkj, ← hkj, Equiv.swap_apply_right, Array.getElem?_eq_getElem hi]
  · by_cases hki : i = k
    · rw [if_neg hkj, if_pos hki, ← hki, Equiv.swap_apply_left, Array.getElem?_eq_getElem hj]
    · rw [if_neg hkj, if_neg hki, Equiv.swap_apply_of_ne_of_ne (Ne.symm hki) (Ne.symm hkj)]

theorem above_swap (hi : i < a.size) (hj : j < a.size) {k l : Nat} :
    Above less (a.swapIfInBounds i j) k l ↔
      Above less a (Equiv.swap i j k) (Equiv.swap i j l) := by
  simp only [Above, lessAt, getElem?_swap hi hj]

theorem perm_swap (a : Array α) (i j : Nat) : (a.swapIfInBounds i j).toList.Perm a.toList := by
  unfold Array.swapIfInBounds
  split_ifs with hi hj
  · exact Array.perm_iff_toList_perm.mp (Array.swap_perm hi hj)
  · exact List.Perm.refl _
  · exact List.Perm.refl _

/-! ## The loop up -/

/-- The heap is ordered but for the element at `j`, which may come before its
parent; its children do not. -/
structure UpOrder (less : α → α → Bool) (a : Array α) (j : Nat) : Prop where
  except : ∀ k, 0 < k → k < a.size → k ≠ j → Above less a (parent k) k
  grand : ∀ k, 0 < k → k < a.size → parent k = j → 0 < j → Above less a (parent j) k

theorem UpOrder.swap (h : StrictWeak less) (ho : UpOrder less a j) (hj : j < a.size)
    (hpos : 0 < j) (hless : lessAt less a j (parent j) = true) :
    UpOrder less (a.swapIfInBounds (parent j) j) (parent j) := by
  have hp : parent j < a.size := (parent_lt hpos).trans hj
  have hpj := parent_lt hpos
  -- the old parent is not after anything the moved element was not after
  have hdown : ∀ k, Above less a (parent j) k → Above less a j k :=
    fun k hk => (above_of_lessAt h hless).trans h hp hk
  constructor
  · intro k hk hks hne
    rw [Array.size_swapIfInBounds] at hks
    rw [above_swap hp hj]
    by_cases hkj : k = j
    · rw [hkj, Equiv.swap_apply_right, Equiv.swap_apply_left]
      exact above_of_lessAt h hless
    · rw [Equiv.swap_apply_of_ne_of_ne hne hkj]
      by_cases hpk : parent k = j
      · rw [hpk, Equiv.swap_apply_right]
        exact ho.grand k hk hks hpk hpos
      · by_cases hpp : parent k = parent j
        · rw [hpp, Equiv.swap_apply_left]
          exact hdown k (hpp ▸ ho.except k hk hks hkj)
        · rw [Equiv.swap_apply_of_ne_of_ne hpp hpk]
          exact ho.except k hk hks hkj
  · intro k hk hks hpk hp0
    rw [Array.size_swapIfInBounds] at hks
    have hup := ho.except (parent j) hp0 hp hpj.ne
    have hpp := parent_lt hp0
    rw [above_swap hp hj, Equiv.swap_apply_of_ne_of_ne hpp.ne (hpp.trans hpj).ne]
    by_cases hkj : k = j
    · rw [hkj, Equiv.swap_apply_right]
      exact hup
    · have hkp : k ≠ parent j := fun he => absurd (parent_lt hk) (by rw [hpk, ← he]; exact lt_irrefl k)
      rw [Equiv.swap_apply_of_ne_of_ne hkp hkj]
      exact hup.trans h hp (hpk ▸ ho.except k hk hks hkj)

theorem UpOrder.finish (ho : UpOrder less a j)
    (hstop : parent j = j ∨ lessAt less a j (parent j) = false) : Ordered less a a.size := by
  intro k hk hks
  by_cases hkj : k = j
  · subst hkj
    rcases hstop with hstop | hstop
    · exact absurd hstop (parent_lt hk).ne
    · exact hstop
  · exact ho.except k hk hks hkj

theorem up_spec (h : StrictWeak less) :
    ∀ m a j, j ≤ m → j < a.size → UpOrder less a j →
      (up less m a j).toList.Perm a.toList ∧ Ordered less (up less m a j) (up less m a j).size := by
  intro m
  induction m with
  | zero =>
      intro a j hm _ ho
      obtain rfl : j = 0 := Nat.le_zero.mp hm
      exact ⟨List.Perm.refl _, ho.finish (Or.inl rfl)⟩
  | succ m ih =>
      intro a j hm hj ho
      rw [up]
      split_ifs with hstop
      · exact ⟨List.Perm.refl _, ho.finish hstop⟩
      · obtain ⟨hne, hless⟩ := not_or.mp hstop
        have hpos : 0 < j := by
          rcases Nat.eq_zero_or_pos j with rfl | hpos
          · exact absurd rfl hne
          · exact hpos
        have hpj := parent_lt hpos
        have hsize : parent j < (a.swapIfInBounds (parent j) j).size := by
          rw [Array.size_swapIfInBounds]
          exact hpj.trans hj
        obtain ⟨hperm, hord⟩ := ih _ _ (by omega) hsize
          (ho.swap h hj hpos (Bool.eq_true_of_not_eq_false hless))
        exact ⟨hperm.trans (perm_swap _ _ _), hord⟩

/-- **Pushing adds the element and keeps the order.** -/
theorem push_spec (h : StrictWeak less) {x : α} (ho : Ordered less a a.size) :
    (push less a x).toList.Perm (x :: a.toList) ∧
      Ordered less (push less a x) (push less a x).size := by
  have hlast : UpOrder less (a.push x) a.size := by
    constructor
    · intro k hk hks hne
      rw [Array.size_push] at hks
      have hlt : k < a.size := by omega
      have hplt : parent k < a.size := (parent_lt hk).trans hlt
      have hold := ho k hk hlt
      rw [Above, lessAt_eq hlt hplt] at hold
      rw [Above, lessAt_eq (by rw [Array.size_push]; omega) (by rw [Array.size_push]; omega),
        Array.getElem_push_lt hlt, Array.getElem_push_lt hplt]
      exact hold
    · -- the last place has no children
      intro k hk hks hpk
      rw [Array.size_push] at hks
      have := parent_lt hk
      omega
  obtain ⟨hperm, hord⟩ := up_spec h a.size (a.push x) a.size (Nat.le_refl _) (by simp) hlast
  refine ⟨hperm.trans ?_, hord⟩
  rw [Array.toList_push]
  exact List.perm_append_singleton x a.toList

/-! ## The loop down -/

/-- The first `n` places are ordered but for the element at `i`, which its
children may come before; they do not come before its parent. -/
structure DownOrder (less : α → α → Bool) (a : Array α) (i n : Nat) : Prop where
  except : ∀ k, 0 < k → k < n → parent k ≠ i → Above less a (parent k) k
  grand : ∀ k, 0 < k → k < n → parent k = i → 0 < i → Above less a (parent i) k

theorem minChild_bounds (less : α → α → Bool) (a : Array α) (hi : 2 * i + 1 < n) :
    i < minChild less a i n ∧ minChild less a i n < n ∧ parent (minChild less a i n) = i := by
  unfold minChild parent
  split_ifs with h
  · omega
  · omega

/-- No child comes before the chosen one. -/
theorem above_minChild (h : StrictWeak less) (hk : 0 < k) (hkn : k < n) (hpk : parent k = i) :
    Above less a (minChild less a i n) k := by
  have hcases : k = 2 * i + 1 ∨ k = 2 * i + 2 := by
    unfold parent at hpk
    omega
  unfold minChild
  split_ifs with hless
  · rcases hcases with rfl | rfl
    · exact above_of_lessAt h hless.2
    · exact above_refl h _
  · rcases hcases with rfl | rfl
    · exact above_refl h _
    · exact Bool.eq_false_of_not_eq_true fun ht => hless ⟨hkn, ht⟩

theorem DownOrder.swap (h : StrictWeak less) (ho : DownOrder less a i n) (hn : n ≤ a.size)
    (hi : 2 * i + 1 < n) (hless : lessAt less a (minChild less a i n) i = true) :
    DownOrder less (a.swapIfInBounds i (minChild less a i n)) (minChild less a i n) n := by
  obtain ⟨hij, hjn, hpj⟩ := minChild_bounds less a hi
  have hmin : ∀ k, 0 < k → k < n → parent k = i → Above less a (minChild less a i n) k :=
    fun k hk hkn hpk => above_minChild h hk hkn hpk
  generalize minChild less a i n = j at *
  have hjs : j < a.size := lt_of_lt_of_le hjn hn
  have his : i < a.size := hij.trans hjs
  constructor
  · intro k hk hkn hpk
    rw [above_swap his hjs]
    by_cases hkj : k = j
    · rw [hkj, hpj, Equiv.swap_apply_left, Equiv.swap_apply_right]
      exact above_of_lessAt h hless
    · by_cases hki : k = i
      · have hpi := parent_lt hk
        rw [hki] at hpi hk ⊢
        rw [Equiv.swap_apply_left, Equiv.swap_apply_of_ne_of_ne hpi.ne (hpi.trans hij).ne]
        exact ho.grand j (hk.trans hij) hjn hpj hk
      · rw [Equiv.swap_apply_of_ne_of_ne hki hkj]
        by_cases hpi : parent k = i
        · -- the other child of `i`
          rw [hpi, Equiv.swap_apply_left]
          exact hmin k hk hkn hpi
        · rw [Equiv.swap_apply_of_ne_of_ne hpi hpk]
          exact ho.except k hk hkn hpi
  · intro k hk hkn hpk hj0
    have hjk := parent_lt hk
    rw [hpk] at hjk
    rw [above_swap his hjs, hpj, Equiv.swap_apply_left,
      Equiv.swap_apply_of_ne_of_ne (hij.trans hjk).ne' hjk.ne', ← hpk]
    exact ho.except k hk hkn (by rw [hpk]; exact hij.ne')

theorem DownOrder.finish (h : StrictWeak less) (ho : DownOrder less a i n) (hn : n ≤ a.size)
    (hstop : n ≤ 2 * i + 1 ∨ lessAt less a (minChild less a i n) i = false) :
    Ordered less a n := by
  intro k hk hkn
  by_cases hpk : parent k = i
  · have hi : 2 * i + 1 < n := by
      unfold parent at hpk
      omega
    obtain ⟨-, hjn, -⟩ := minChild_bounds less a hi
    rcases hstop with hstop | hstop
    · omega
    · rw [hpk]
      exact Above.trans h (lt_of_lt_of_le hjn hn) hstop (above_minChild h hk hkn hpk)
  · exact ho.except k hk hkn hpk

/-- What the loop does: it reorders the first `n` places and leaves the rest. -/
theorem down_spec (h : StrictWeak less) :
    ∀ m a i n, n ≤ m + i → n ≤ a.size → DownOrder less a i n →
      (down less m a i n).toList.Perm a.toList ∧ Ordered less (down less m a i n) n ∧
        ∀ k, n ≤ k → (down less m a i n)[k]? = a[k]? := by
  intro m
  induction m with
  | zero =>
      intro a i n hm hn ho
      exact ⟨List.Perm.refl _, ho.finish h hn (Or.inl (by omega)), fun _ _ => rfl⟩
  | succ m ih =>
      intro a i n hm hn ho
      rw [down]
      split_ifs with hstop
      · exact ⟨List.Perm.refl _, ho.finish h hn hstop, fun _ _ => rfl⟩
      · obtain ⟨hi, hless⟩ := not_or.mp hstop
        have hi := Nat.lt_of_not_le hi
        obtain ⟨hij, hjn, -⟩ := minChild_bounds less a hi
        have hjs := lt_of_lt_of_le hjn hn
        obtain ⟨hperm, hord, hrest⟩ := ih _ _ n (by omega)
          (by rw [Array.size_swapIfInBounds]; exact hn)
          (ho.swap h hn hi (Bool.eq_true_of_not_eq_false hless))
        refine ⟨hperm.trans (perm_swap _ _ _), hord, fun k hk => ?_⟩
        rw [hrest k hk, getElem?_swap (hij.trans hjs) hjs,
          Equiv.swap_apply_of_ne_of_ne (by omega) (by omega)]

/-- Nothing comes before the root. -/
theorem Ordered.root (h : StrictWeak less) (ho : Ordered less a n) (hn : n ≤ a.size) :
    ∀ k, k < n → Above less a 0 k := by
  intro k
  induction k using Nat.strongRecOn with
  | ind k ih =>
      intro hk
      rcases Nat.eq_zero_or_pos k with rfl | hpos
      · exact above_refl h 0
      · have hp := parent_lt hpos
        exact (ih (parent k) hp (hp.trans hk)).trans h (by omega) (ho k hpos hk)

/-- Cutting the last place off. -/
theorem Ordered.pop (ho : Ordered less a (a.size - 1)) : Ordered less a.pop a.pop.size := by
  intro k hk hkn
  rw [Array.size_pop] at hkn
  have hpk := parent_lt hk
  have hold := ho k hk hkn
  have hget : ∀ {l : Nat}, l < a.size - 1 → a.pop[l]? = a[l]? := by
    intro l hl
    rw [Array.getElem?_pop, if_pos hl]
  simp only [Above, lessAt, hget hkn, hget (hpk.trans hkn)]
  exact hold

/-- **Popping takes out an element that nothing left comes before**, and keeps
the order. -/
theorem pop_spec (h : StrictWeak less) (ho : Ordered less a a.size) (hne : 0 < a.size) :
    ∃ x b, pop less a = some (x, b) ∧ a.toList.Perm (x :: b.toList) ∧
      Ordered less b b.size ∧ ∀ y ∈ b.toList, NotAfter less x y := by
  have hn : a.size - 1 < a.size := by omega
  -- the last element goes to the root, the root to the end
  have hstart : DownOrder less (a.swapIfInBounds 0 (a.size - 1)) 0 (a.size - 1) := by
    constructor
    · intro k hk hkn hpk
      have hp := parent_lt hk
      rw [above_swap hne hn, Equiv.swap_apply_of_ne_of_ne hpk (by omega),
        Equiv.swap_apply_of_ne_of_ne hk.ne' hkn.ne]
      exact ho k hk (by omega)
    · intro k _ _ _ h0
      exact absurd h0 (lt_irrefl 0)
  obtain ⟨hperm, hord, hrest⟩ := down_spec h (a.size - 1) _ 0 (a.size - 1) (by omega)
    (by rw [Array.size_swapIfInBounds]; exact hn.le) hstart
  generalize hb : down less (a.size - 1) (a.swapIfInBounds 0 (a.size - 1)) 0 (a.size - 1) = b at *
  have hperm := hperm.trans (perm_swap a 0 (a.size - 1))
  have hsize : b.size = a.size := by
    rw [← Array.length_toList, hperm.length_eq, Array.length_toList]
  have hback : b.back? = some a[0] := by
    rw [Array.back?_eq_getElem?, hsize, hrest _ (Nat.le_refl _), getElem?_swap hne hn,
      Equiv.swap_apply_right, Array.getElem?_eq_getElem hne]
  have hlist : a.toList.Perm (a[0] :: b.pop.toList) := by
    have hcut : b.toList = b.pop.toList ++ [a[0]] := by
      obtain ⟨ys, hys⟩ := Array.back?_eq_some_iff.mp hback
      rw [hys, Array.pop_push, Array.toList_push]
    refine hperm.symm.trans ?_
    rw [hcut]
    exact List.perm_append_singleton _ _
  refine ⟨a[0], b.pop, by simp only [pop, hb, hback, Option.map_some], hlist, ?_, ?_⟩
  · rw [← hsize] at hord
    exact hord.pop
  · intro y hy
    have hya : y ∈ a.toList := hlist.mem_iff.mpr (List.mem_cons_of_mem _ hy)
    obtain ⟨k, hk, rfl⟩ := List.mem_iff_getElem.mp hya
    have hroot := ho.root h (Nat.le_refl _) k hk
    rw [Above, lessAt_eq hk hne] at hroot
    exact hroot

end Bbdb.Heap
