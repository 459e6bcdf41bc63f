import Mathlib.Data.List.Lex
import Mathlib.Data.List.Pairwise
import Mathlib.Order.Lattice

/-!
# Ordered maps

A finite map over a linearly ordered key type, as the list of its
bindings in ascending key order. The order is a field of the structure, so
a map that holds a key twice, or out of order, cannot be built.

The operations are those of an ordered key-value store: point read and
write, point and range deletion, and the ascending scan of a half-open
range. Each has one lemma that says what a point read sees afterwards
(`get_set`, `get_erase`, `get_eraseRange`), and `mem_range` says what a
scan returns; nothing outside this module looks at the list.
-/

namespace Bbdb

/-- A finite map with its bindings in strictly ascending key order. -/
structure OrdMap (κ ν : Type) [LinearOrder κ] where
  entries : List (κ × ν)
  sorted : entries.Pairwise fun a b => a.1 < b.1

namespace OrdMap

variable {κ ν : Type} [LinearOrder κ]

/-- The map with no binding. -/
def empty : OrdMap κ ν := ⟨[], List.Pairwise.nil⟩

/-- Point read. -/
def get (m : OrdMap κ ν) (k : κ) : Option ν :=
  (m.entries.find? fun p => p.1 = k).map Prod.snd

/-- Point write: the bindings below `k`, the new one, the bindings above. -/
def set (m : OrdMap κ ν) (k : κ) (v : ν) : OrdMap κ ν where
  entries := m.entries.filter (fun p => p.1 < k) ++ (k, v) :: m.entries.filter fun p => k < p.1
  sorted := by
    rw [List.pairwise_append]
    refine ⟨m.sorted.filter _, ?_, ?_⟩
    · rw [List.pairwise_cons]
      exact ⟨fun p hp => by simpa using (List.mem_filter.mp hp).2, m.sorted.filter _⟩
    · intro a ha b hb
      have hak : a.1 < k := by simpa using (List.mem_filter.mp ha).2
      rcases List.mem_cons.mp hb with rfl | hb
      · exact hak
      · have hkb : k < b.1 := by simpa using (List.mem_filter.mp hb).2
        exact hak.trans hkb

/-- Keep the bindings whose key satisfies `p`. -/
def keep (m : OrdMap κ ν) (p : κ → Bool) : OrdMap κ ν where
  entries := m.entries.filter fun e => p e.1
  sorted := m.sorted.filter _

/-- Point deletion. -/
def erase (m : OrdMap κ ν) (k : κ) : OrdMap κ ν := m.keep fun x => x ≠ k

/-- Deletion of every key of the half-open range `[lo, hi)`. -/
def eraseRange (m : OrdMap κ ν) (lo hi : κ) : OrdMap κ ν :=
  m.keep fun x => ¬ (lo ≤ x ∧ x < hi)

/-- The bindings of the half-open range `[lo, hi)`, in ascending key order. -/
def range (m : OrdMap κ ν) (lo hi : κ) : List (κ × ν) :=
  m.entries.filter fun e => lo ≤ e.1 ∧ e.1 < hi

/-- Whether every binding passes a test. -/
def all (m : OrdMap κ ν) (p : κ → ν → Bool) : Bool := m.entries.all fun e => p e.1 e.2

/-! ## Point reads -/

@[simp] theorem get_empty (k : κ) : (empty : OrdMap κ ν).get k = none := rfl

/-- A binding is read back at its key and nowhere else. -/
theorem get_eq_some {m : OrdMap κ ν} {k : κ} {v : ν} :
    m.get k = some v ↔ (k, v) ∈ m.entries := by
  obtain ⟨l, hl⟩ := m
  show (l.find? fun p => p.1 = k).map Prod.snd = some v ↔ (k, v) ∈ l
  induction l with
  | nil => simp
  | cons p l ih =>
      rw [List.pairwise_cons] at hl
      obtain ⟨hp, hl⟩ := hl
      obtain ⟨a, b⟩ := p
      by_cases h : a = k
      · subst h
        have hout : (a, v) ∉ l := fun hm => lt_irrefl a (hp (a, v) hm)
        simp [hout, eq_comm]
      · have hne : (k, v) ≠ (a, b) := fun he => h (by simpa using (congrArg Prod.fst he).symm)
        rw [List.find?_cons_of_neg (by simpa using h), ih hl, List.mem_cons]
        simp [hne]

theorem all_eq_true {m : OrdMap κ ν} {p : κ → ν → Bool} :
    m.all p = true ↔ ∀ k v, m.get k = some v → p k v = true := by
  simp only [all, List.all_eq_true, get_eq_some, Prod.forall]

theorem get_keep (m : OrdMap κ ν) (p : κ → Bool) (k : κ) :
    (m.keep p).get k = if p k then m.get k else none := by
  apply Option.ext
  intro v
  rw [get_eq_some]
  by_cases h : p k = true
  · rw [if_pos h, get_eq_some]
    simp [keep, h]
  · rw [if_neg h]
    simp [keep, h]

/-- **A write changes one key.** -/
theorem get_set (m : OrdMap κ ν) (k x : κ) (v : ν) :
    (m.set k v).get x = if x = k then some v else m.get x := by
  apply Option.ext
  intro y
  rw [get_eq_some]
  simp only [set, List.mem_append, List.mem_cons, List.mem_filter, decide_eq_true_eq]
  by_cases h : x = k
  · subst h
    simp [eq_comm]
  · rw [if_neg h, get_eq_some]
    have hne : (x, y) ≠ (k, v) := fun he => h (congrArg Prod.fst he)
    rcases lt_or_gt_of_ne h with hlt | hgt
    · simp [hne, hlt, not_lt.mpr hlt.le]
    · simp [hne, hgt, not_lt.mpr hgt.le]

theorem get_set_ne (m : OrdMap κ ν) {k x : κ} (v : ν) (h : x ≠ k) :
    (m.set k v).get x = m.get x := by
  rw [get_set, if_neg h]

theorem get_erase (m : OrdMap κ ν) (k x : κ) :
    (m.erase k).get x = if x = k then none else m.get x := by
  rw [erase, get_keep]
  by_cases h : x = k <;> simp [h]

theorem get_eraseRange (m : OrdMap κ ν) (lo hi x : κ) :
    (m.eraseRange lo hi).get x = if lo ≤ x ∧ x < hi then none else m.get x := by
  rw [eraseRange, get_keep]
  by_cases h : lo ≤ x ∧ x < hi <;> simp [h]

/-! ## Range scans -/

/-- **A scan returns exactly the bindings of its range.** -/
theorem mem_range {m : OrdMap κ ν} {lo hi k : κ} {v : ν} :
    (k, v) ∈ m.range lo hi ↔ m.get k = some v ∧ lo ≤ k ∧ k < hi := by
  simp [range, get_eq_some]

theorem range_sorted (m : OrdMap κ ν) (lo hi : κ) :
    (m.range lo hi).Pairwise fun a b => a.1 < b.1 :=
  m.sorted.filter _

theorem range_nodup (m : OrdMap κ ν) (lo hi : κ) : (m.range lo hi).Nodup := by
  apply (m.range_sorted lo hi).imp
  intro a b hab he
  subst he
  exact lt_irrefl _ hab

/-- Maps that agree on a range are scanned alike. -/
theorem range_congr {m m' : OrdMap κ ν} {lo hi : κ}
    (h : ∀ k, lo ≤ k → k < hi → m'.get k = m.get k) : m'.range lo hi = m.range lo hi := by
  refine List.Perm.eq_of_pairwise (fun a b _ _ hab hba => absurd hba (lt_asymm hab))
    (m'.range_sorted lo hi) (m.range_sorted lo hi) ?_
  refine (List.perm_ext_iff_of_nodup (m'.range_nodup lo hi) (m.range_nodup lo hi)).mpr ?_
  rintro ⟨k, v⟩
  rw [mem_range, mem_range]
  constructor
  · rintro ⟨hget, hlo, hhi⟩
    exact ⟨(h k hlo hhi).symm.trans hget, hlo, hhi⟩
  · rintro ⟨hget, hlo, hhi⟩
    exact ⟨(h k hlo hhi).trans hget, hlo, hhi⟩

end OrdMap

end Bbdb
