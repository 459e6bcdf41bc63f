import Mathlib.Data.List.Nodup
import Mathlib.Data.List.Perm.Basic

/-!
# Lists with distinct keys

A list whose elements carry distinct keys: an element is determined by its key,
so what has one key is at most one element, and taking it out is a filter.

`Recent` orders such a list by a history of accesses, most recent first: the
keys stand in the order in which they were last accessed.
-/

namespace Bbdb.Keyed

section Keys

variable {α κ : Type*} [DecidableEq κ] {key : α → κ} {l l' : List α} {a : α}

/-- Elements of one key are one element or none. -/
theorem length_filter_key (h : (l.map key).Nodup) (k : κ) :
    (l.filter fun x => key x = k).length ≤ 1 := by
  have hsub : ((l.filter fun x => key x = k).map key).Nodup :=
    h.sublist (List.filter_sublist.map _)
  have hall : ∀ x ∈ (l.filter fun x => key x = k).map key, x = k := by
    intro x hx
    obtain ⟨y, hy, rfl⟩ := List.mem_map.mp hx
    simpa using (List.mem_filter.mp hy).2
  rw [List.eq_replicate_of_mem hall, List.length_map] at hsub
  exact List.nodup_replicate.mp hsub

/-- The order of the list does not show in what has one key. -/
theorem filter_key_perm (hperm : l.Perm l') (h : (l.map key).Nodup) (k : κ) :
    (l.filter fun x => key x = k) = l'.filter fun x => key x = k := by
  have hp := hperm.filter fun x => key x = k
  rcases Nat.le_one_iff_eq_zero_or_eq_one.mp (length_filter_key h k) with h0 | h1
  · have hnil := List.length_eq_zero_iff.mp h0
    rw [hnil] at hp ⊢
    exact (List.nil_perm.mp hp).symm
  · obtain ⟨x, hx⟩ := List.length_eq_one_iff.mp h1
    rw [hx] at hp ⊢
    exact List.singleton_perm.mp hp

/-- Taking an element out: the rest has the other keys. -/
theorem perm_cons_filter (h : (l.map key).Nodup) (ha : a ∈ l) :
    l.Perm (a :: l.filter fun x => key x ≠ key a) := by
  induction l with
  | nil => cases ha
  | cons b l ih =>
      obtain ⟨hb, hl⟩ := List.nodup_cons.mp h
      rcases List.mem_cons.mp ha with rfl | ha
      · have hrest : (l.filter fun x => key x ≠ key a) = l := by
          rw [List.filter_eq_self]
          intro x hx
          simpa using fun he => hb (List.mem_map.mpr ⟨x, hx, he⟩)
        rw [List.filter_cons_of_neg (by simp), hrest]
      · have hne : key b ≠ key a := fun he => hb (List.mem_map.mpr ⟨a, ha, he.symm⟩)
        rw [List.filter_cons_of_pos (by simpa using hne)]
        exact ((ih hl ha).cons b).trans (List.Perm.swap a b _)

/-- Taking the last element out. -/
theorem filter_ne_last (h : ((l ++ [a]).map key).Nodup) :
    ((l ++ [a]).filter fun x => key x ≠ key a) = l := by
  rw [List.map_append, List.nodup_append] at h
  have hrest : (l.filter fun x => key x ≠ key a) = l := by
    rw [List.filter_eq_self]
    intro x hx
    simpa using h.2.2 (key x) (List.mem_map_of_mem hx) (key a) (by simp)
  rw [List.filter_append, hrest]
  simp

end Keys

/-! ## Recency -/

section Recency

variable {κ : Type*} [BEq κ] {hist ks ks' : List κ} {k : κ}

/-- The keys were all accessed, and stand in the order of their last access. -/
structure Recent (hist ks : List κ) : Prop where
  accessed : ∀ k ∈ ks, k ∈ hist
  sorted : ks.Pairwise fun a b => hist.idxOf a < hist.idxOf b

theorem recent_nil (hist : List κ) : Recent hist [] := ⟨by simp, List.Pairwise.nil⟩

theorem Recent.sublist (h : Recent hist ks) (hs : ks'.Sublist ks) : Recent hist ks' :=
  ⟨fun k hk => h.accessed k (hs.subset hk), h.sorted.sublist hs⟩

variable [LawfulBEq κ]

/-- An access to another key keeps the order. -/
theorem Recent.pass (h : Recent hist ks) (hk : k ∉ ks) : Recent (k :: hist) ks := by
  have hshift : ∀ x ∈ ks, (k :: hist).idxOf x = hist.idxOf x + 1 := by
    intro x hx
    exact List.idxOf_cons_ne _ fun he => hk (he ▸ hx)
  refine ⟨fun x hx => List.mem_cons_of_mem _ (h.accessed x hx), ?_⟩
  refine h.sorted.imp_of_mem fun {a b} ha hb hlt => ?_
  rw [hshift a ha, hshift b hb]
  omega

/-- The accessed key comes first. -/
theorem Recent.access (h : Recent hist ks) (hk : k ∉ ks) : Recent (k :: hist) (k :: ks) := by
  have hp := h.pass hk
  refine ⟨fun x hx => ?_, List.pairwise_cons.mpr ⟨fun x hx => ?_, hp.sorted⟩⟩
  · rcases List.mem_cons.mp hx with rfl | hx
    · exact List.mem_cons_self
    · exact hp.accessed x hx
  · have hne : k ≠ x := fun he => hk (he ▸ hx)
    rw [List.idxOf_cons_self, List.idxOf_cons_ne _ hne]
    omega

end Recency

end Bbdb.Keyed
