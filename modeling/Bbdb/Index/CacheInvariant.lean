import Bbdb.Index.BloomCache
import Bbdb.Lib.Keyed

/-!
# Index — the representation of the bloom filter cache

A cache is two linked structures and a counter: the map from ids to list
elements, the list in the order of use, and the bytes in use. `Rep` says how
they belong together; hits, loads, evictions and removals keep it, whatever the
bloom files are at the time (`CacheRun.rep`).

An element is taken out by its address, and addresses are distinct, so eviction
cuts the list at its end (`evictUntil_order`). The list is ordered by the last
test of each id (`CacheRun.recent`): what an eviction leaves was tested later
than what it takes.
-/

namespace Bbdb.Index.BloomCache

open Bbdb.Meta Bbdb.Block Bbdb.Tier Keyed
open Prog hiding pure bind

variable {libs : Libs}

/-- The id an element stands for. -/
def elemID (elem : Elem libs) : BlockID := elem.value.id

/-- The bytes of the elements. -/
def sizes (order : List (Elem libs)) : Int := (order.map fun x => x.value.size.toInt).sum

/-- **The representation**: map and list have the same elements, each under its
own id, and the counter is the sum of their sizes. -/
structure Rep (c : BloomCache libs) : Prop where
  ids : (c.order.map elemID).Nodup
  addrs : (c.order.map Elem.addr).Nodup
  allocated : ∀ x ∈ c.order, x.addr < c.next
  items : ∀ id elem, c.items.get id = some elem ↔ elem ∈ c.order ∧ elemID elem = id
  used : c.usedMem.toInt = sizes c.order
  nonneg : ∀ x ∈ c.order, 0 ≤ x.value.size.toInt

/-- The memory cap: a single entry may exceed it. -/
def Capped (c : BloomCache libs) : Prop :=
  0 < c.maxMem → c.usedMem ≤ c.maxMem ∨ c.order.length = 1

variable {c c' : BloomCache libs} {elem : Elem libs} {id : BlockID}

@[simp] theorem sizes_cons (x : Elem libs) (l : List (Elem libs)) :
    sizes (x :: l) = x.value.size.toInt + sizes l := by
  simp [sizes]

theorem sizes_nonneg {l : List (Elem libs)} (h : ∀ x ∈ l, 0 ≤ x.value.size.toInt) :
    0 ≤ sizes l := by
  induction l with
  | nil => exact le_refl _
  | cons x l ih =>
      have hx := h x List.mem_cons_self
      have hl := ih fun y hy => h y (List.mem_cons_of_mem _ hy)
      rw [sizes_cons]
      omega

theorem sizes_perm {l l' : List (Elem libs)} (h : l.Perm l') : sizes l = sizes l' := by
  induction h with
  | nil => rfl
  | cons x _ ih => simp [ih]
  | swap x y l =>
      simp only [sizes_cons]
      omega
  | trans _ _ ih₁ ih₂ => exact ih₁.trans ih₂

/-! The counter is exact as long as it fits into 64 bits. -/

theorem toInt_add_of_fits {a b : Int64} (ha : 0 ≤ a.toInt) (hb : 0 ≤ b.toInt)
    (h : a.toInt + b.toInt < 2 ^ 63) : (a + b).toInt = a.toInt + b.toInt := by
  rw [Int64.toInt_add]
  exact Int.bmod_eq_of_le (by omega) (by omega)

theorem toInt_sub_of_le {a b : Int64} (hb : 0 ≤ b.toInt) (h : b.toInt ≤ a.toInt) :
    (a - b).toInt = a.toInt - b.toInt := by
  have ha := Int64.toInt_lt a
  rw [Int64.toInt_sub]
  exact Int.bmod_eq_of_le (by omega) (by omega)

theorem rep_new (store : LocalStore) (maxMem : Int64) :
    Rep (newBloomCache store maxMem : BloomCache libs) where
  ids := List.nodup_nil
  addrs := List.nodup_nil
  allocated := by simp [newBloomCache]
  items id elem := by simp [newBloomCache]
  used := rfl
  nonneg := by simp [newBloomCache]

/-! ## The operations on the list -/

/-- An element of the list is found under its own id only. -/
theorem Rep.eq_of_id (h : Rep c) {x y : Elem libs} (hx : x ∈ c.order) (hy : y ∈ c.order)
    (hid : elemID x = elemID y) : x = y :=
  List.inj_on_of_nodup_map h.ids hx hy hid

/-- Taking an element out by its address takes out its id, and nothing else. -/
theorem Rep.perm_removed (h : Rep c) (helem : elem ∈ c.order) :
    c.order.Perm (elem :: (c.removeElem elem).order) :=
  perm_cons_filter h.addrs helem

theorem Rep.removeElem (h : Rep c) (helem : elem ∈ c.order) : Rep (c.removeElem elem) where
  ids := h.ids.sublist (List.filter_sublist.map _)
  addrs := h.addrs.sublist (List.filter_sublist.map _)
  allocated x hx := h.allocated x (List.mem_of_mem_filter hx)
  items id x := by
    have hperm := h.perm_removed helem
    have hnot : elem ∉ (c.removeElem elem).order := by
      simp [BloomCache.removeElem]
    show (c.items.erase (elemID elem)).get id = some x ↔ _
    rw [OrdMap.get_erase]
    split_ifs with hid
    · -- no other element has this id
      subst hid
      constructor
      · intro hx
        cases hx
      · rintro ⟨hx, hid⟩
        have he := h.eq_of_id (hperm.mem_iff.mpr (List.mem_cons_of_mem _ hx)) helem hid
        exact absurd (he ▸ hx) hnot
    · rw [h.items, hperm.mem_iff, List.mem_cons]
      constructor
      · rintro ⟨rfl | hx, rfl⟩
        · exact absurd rfl hid
        · exact ⟨hx, rfl⟩
      · rintro ⟨hx, rfl⟩
        exact ⟨Or.inr hx, rfl⟩
  used := by
    have hsum := h.used
    have hsize := h.nonneg elem helem
    have hrest : 0 ≤ sizes (c.removeElem elem).order :=
      sizes_nonneg fun x hx => h.nonneg x (List.mem_of_mem_filter hx)
    rw [sizes_perm (h.perm_removed helem), sizes_cons] at hsum
    show (c.usedMem - elem.value.size).toInt = sizes (c.removeElem elem).order
    rw [toInt_sub_of_le hsize (by omega)]
    omega
  nonneg x hx := h.nonneg x (List.mem_of_mem_filter hx)

/-- A hit reorders the list. -/
theorem Rep.perm_moveToFront (h : Rep c) (helem : elem ∈ c.order) :
    c.moveToFront elem = { c with order := elem :: (c.removeElem elem).order } ∧
      c.order.Perm (c.moveToFront elem).order := by
  have hany : (c.order.any fun x => x.addr = elem.addr) = true :=
    List.any_eq_true.mpr ⟨elem, helem, by simp⟩
  have heq : c.moveToFront elem = { c with order := elem :: (c.removeElem elem).order } := by
    rw [moveToFront, if_pos hany]
    rfl
  rw [heq]
  exact ⟨rfl, h.perm_removed helem⟩

theorem Rep.moveToFront (h : Rep c) (helem : elem ∈ c.order) : Rep (c.moveToFront elem) := by
  obtain ⟨heq, hperm⟩ := h.perm_moveToFront helem
  rw [heq] at hperm ⊢
  exact
    { ids := (hperm.map _).nodup_iff.mp h.ids
      addrs := (hperm.map _).nodup_iff.mp h.addrs
      allocated := fun x hx => h.allocated x (hperm.mem_iff.mpr hx)
      items := fun id x => (h.items id x).trans (by rw [hperm.mem_iff])
      used := h.used.trans (sizes_perm hperm)
      nonneg := fun x hx => h.nonneg x (hperm.mem_iff.mpr hx) }

/-- A load puts a new element in front, as long as the counter has room for
it. -/
theorem Rep.insert (h : Rep c) (hnew : c.items.get id = none) (filter : libs.Filter)
    {size : Int64} (hsize : 0 ≤ size.toInt) (hfits : sizes c.order + size.toInt < 2 ^ 63) :
    Rep (c.insert id filter size) where
  ids := by
    refine List.nodup_cons.mpr ⟨fun hmem => ?_, h.ids⟩
    obtain ⟨x, hx, hid⟩ := List.mem_map.mp hmem
    rw [(h.items id x).mpr ⟨hx, hid⟩] at hnew
    cases hnew
  addrs := by
    refine List.nodup_cons.mpr ⟨fun hmem => ?_, h.addrs⟩
    obtain ⟨x, hx, haddr⟩ := List.mem_map.mp hmem
    exact Nat.lt_irrefl _ (haddr ▸ h.allocated x hx)
  allocated x hx := by
    rcases List.mem_cons.mp hx with rfl | hx
    · exact Nat.lt_succ_self _
    · exact Nat.lt_succ_of_lt (h.allocated x hx)
  items id' x := by
    show (c.items.set id ⟨c.next, ⟨id, filter, size⟩⟩).get id' = some x ↔
      x ∈ (⟨c.next, ⟨id, filter, size⟩⟩ : Elem libs) :: c.order ∧ elemID x = id'
    rw [OrdMap.get_set, List.mem_cons]
    split_ifs with hid
    · subst hid
      constructor
      · intro hx
        cases hx
        exact ⟨Or.inl rfl, rfl⟩
      · rintro ⟨rfl | hx, hid⟩
        · rfl
        · rw [(h.items id' x).mpr ⟨hx, hid⟩] at hnew
          cases hnew
    · rw [h.items]
      constructor
      · rintro ⟨hx, rfl⟩
        exact ⟨Or.inr hx, rfl⟩
      · rintro ⟨rfl | hx, rfl⟩
        · exact absurd rfl hid
        · exact ⟨hx, rfl⟩
  used := by
    have hpos := sizes_nonneg h.nonneg
    show (c.usedMem + size).toInt = size.toInt + sizes c.order
    rw [toInt_add_of_fits (by rw [h.used]; exact hpos) hsize (by rw [h.used]; exact hfits), h.used]
    exact Int.add_comm _ _
  nonneg x hx := by
    rcases List.mem_cons.mp hx with rfl | hx
    · exact hsize
    · exact h.nonneg x hx

/-! ## Eviction -/

/-- Evicting the oldest cuts off the last element. -/
theorem Rep.evictOldest (h : Rep c) :
    Rep c.evictOldest ∧ c.evictOldest.order = c.order.dropLast ∧
      c.evictOldest.maxMem = c.maxMem := by
  unfold BloomCache.evictOldest
  cases hlast : c.order.getLast? with
  | none =>
      rw [List.getLast?_eq_none_iff] at hlast
      exact ⟨h, by simp [hlast], rfl⟩
  | some back =>
      obtain ⟨front, horder⟩ := List.getLast?_eq_some_iff.mp hlast
      have haddrs := h.addrs
      rw [horder] at haddrs
      refine ⟨h.removeElem (by simp [horder]), ?_, rfl⟩
      show (c.order.filter fun x => x.addr ≠ back.addr) = c.order.dropLast
      rw [horder, filter_ne_last haddrs, List.dropLast_concat]

theorem evictUntil_next (size : Int64) (n : Nat) (c : BloomCache libs) :
    (evictUntil size n c).next = c.next := by
  induction n generalizing c with
  | zero => rfl
  | succ n ih =>
      rw [evictUntil]
      split_ifs
      · rw [ih, BloomCache.evictOldest]
        split <;> rfl
      · rfl

/-- The condition of the loop that makes room. -/
def NoRoom (size : Int64) (c : BloomCache libs) : Prop :=
  c.maxMem > 0 ∧ c.usedMem + size > c.maxMem ∧ c.order.length > 0

/-- **What the loop does**: it keeps the representation, cuts the list at its
end, and stops when there is room or nothing left; more passes than the list is
long change nothing. -/
theorem Rep.evictUntil (size : Int64) (n : Nat) (h : Rep c) (hn : c.order.length ≤ n) :
    Rep (evictUntil size n c) ∧ (evictUntil size n c).maxMem = c.maxMem ∧
      (∃ k, (evictUntil size n c).order = c.order.take k) ∧ ¬ NoRoom size (evictUntil size n c) ∧
      evictUntil size n c = evictUntil size c.order.length c := by
  induction n generalizing c with
  | zero =>
      have hnil : c.order.length = 0 := Nat.le_zero.mp hn
      refine ⟨h, rfl, ⟨c.order.length, by simp [evictUntil]⟩, fun hroom => ?_, by rw [hnil]⟩
      have hpos : c.order.length > 0 := hroom.2.2
      omega
  | succ n ih =>
      by_cases hroom : NoRoom size c
      · obtain ⟨hrep, horder, hmax⟩ := h.evictOldest
        have hlen : c.evictOldest.order.length = c.order.length - 1 := by
          rw [horder, List.length_dropLast]
        have hpos : c.order.length > 0 := hroom.2.2
        obtain ⟨hrep', hmax', ⟨k, hk⟩, hstop, hfuel⟩ := ih hrep (by omega)
        have hstep : ∀ m, BloomCache.evictUntil size (m + 1) c =
            BloomCache.evictUntil size m c.evictOldest := fun m => if_pos hroom
        obtain ⟨m, hm⟩ : ∃ m, c.order.length = m + 1 := ⟨c.order.length - 1, by omega⟩
        rw [hstep]
        refine ⟨hrep', hmax'.trans hmax, ⟨min k (c.order.length - 1), ?_⟩, hstop, ?_⟩
        · rw [hk, horder, List.dropLast_eq_take, List.take_take]
        · rw [hfuel, hm, hstep, hlen, hm, Nat.add_sub_cancel]
      · have hstop : ∀ m, BloomCache.evictUntil size m c = c := by
          intro m
          cases m with
          | zero => rfl
          | succ m => exact if_neg hroom
        rw [hstop, hstop]
        exact ⟨h, rfl, ⟨c.order.length, by simp⟩, hroom, rfl⟩

/-- With the room made, the new entry fits or is alone. -/
theorem capped_insert {filter : libs.Filter} {size : Int64} (h : ¬ NoRoom size c) :
    Capped (c.insert id filter size) := by
  intro hmax
  have hmax : 0 < c.maxMem := hmax
  show c.usedMem + size ≤ c.maxMem ∨ c.order.length + 1 = 1
  by_cases hfit : c.usedMem + size ≤ c.maxMem
  · exact Or.inl hfit
  · refine Or.inr ?_
    by_contra hne
    exact h ⟨hmax, Int64.not_le.mp hfit, by omega⟩

/-! ## Tests -/

variable {w w' : World} {ws : List World} {keyHash : UInt64} {r : Except Err Bool}

/-- **What a test does to the cache**: a hit moves the element to the front; a
load puts a new one there after making room; any other test changes nothing. -/
theorem test_cases (h : Runs sem (c.test id keyHash) w ws (r, c') w') :
    (∃ elem, c.items.get id = some elem ∧ c' = c.moveToFront elem ∧ ∃ b, r = .ok b) ∨
    c.items.get id = none ∧ (c' = c ∨ ∃ filter data, w.fs (c.store.bloomPath id) = some data ∧
      c' = (evictUntil (Int64.ofNat data.length) c.order.length c).insert id filter
        (Int64.ofNat data.length) ∧ ∃ b, r = .ok b) := by
  rcases runs_test_cases h with ⟨elem, hitem, hr, hc⟩ |
    ⟨hitem, _, _, ⟨e, -, -, hc⟩ | ⟨f, size, hload, hr, hc⟩⟩
  · exact Or.inl ⟨elem, hitem, hc, _, hr⟩
  · exact Or.inr ⟨hitem, Or.inl hc⟩
  · obtain ⟨data, hdata, -, rfl⟩ := runs_loadFromDisk_ok hload
    exact Or.inr ⟨hitem, Or.inr ⟨f, data, hdata, hc, _, hr⟩⟩

/-- A test that fails, or that finds neither an entry nor a file, leaves the
cache as it is. -/
theorem test_unchanged (h : Runs sem (c.test id keyHash) w ws (r, c') w')
    (hr : (∃ e, r = .error e) ∨ c.items.get id = none ∧ w.fs (c.store.bloomPath id) = none) :
    c' = c := by
  rcases test_cases h with ⟨elem, hitem, -, b, rfl⟩ | ⟨-, rfl | ⟨f, data, hdata, -, b, rfl⟩⟩
  · rcases hr with ⟨e, he⟩ | ⟨hnone, -⟩
    · cases he
    · rw [hitem] at hnone
      cases hnone
  · rfl
  · rcases hr with ⟨e, he⟩ | ⟨-, hnone⟩
    · cases he
    · rw [hnone] at hdata
      cases hdata

/-- The list after a test: unchanged, or the tested id in front of what is
left of the others, cut off at the end. -/
theorem Rep.test_order (h : Rep c) (ht : Runs sem (c.test id keyHash) w ws (r, c') w') :
    c' = c ∧ c.items.get id = none ∨
      ∃ elem k, elemID elem = id ∧
        c'.order = elem :: (c.order.filter fun x => elemID x ≠ id).take k := by
  rcases test_cases ht with ⟨elem, hitem, rfl, -⟩ | ⟨hnone, rfl | ⟨f, data, -, rfl, -⟩⟩
  · right
    obtain ⟨helem, hid⟩ := (h.items id elem).mp hitem
    obtain ⟨heq, -⟩ := h.perm_moveToFront helem
    have hfilter : (c.removeElem elem).order = c.order.filter fun x => elemID x ≠ id := by
      refine List.filter_congr fun x hx => ?_
      have hiff : x.addr = elem.addr ↔ elemID x = id := by
        constructor
        · intro ha
          rw [List.inj_on_of_nodup_map h.addrs hx helem ha, hid]
        · intro hx'
          rw [h.eq_of_id hx helem (hx'.trans hid.symm)]
      simp [hiff]
    refine ⟨elem, c.order.length, hid, ?_⟩
    rw [heq, hfilter, List.take_of_length_le (List.length_filter_le _ _)]
  · exact Or.inl ⟨rfl, hnone⟩
  · right
    obtain ⟨-, -, ⟨k, hk⟩, -⟩ :=
      h.evictUntil (Int64.ofNat data.length) c.order.length (Nat.le_refl _)
    have hall : (c.order.filter fun x => elemID x ≠ id) = c.order := by
      rw [List.filter_eq_self]
      intro x hx
      have hne : elemID x ≠ id := by
        intro hid
        rw [(h.items id x).mpr ⟨hx, hid⟩] at hnone
        cases hnone
      simpa using hne
    exact ⟨_, k, rfl, by rw [hall, ← hk]; rfl⟩

/-! ## Histories -/

/-- The filters in the cache and the bloom file that a test would load have
less than 2^63 bytes together: a test has them in memory at once. -/
def Fits (c : BloomCache libs) (w : World) (id : BlockID) : Prop :=
  ∀ data, w.fs (c.store.bloomPath id) = some data → sizes c.order + data.length < 2 ^ 63

/-- The caches that tests and evictions can lead to, with the ids tested so
far, the last one first. Every call may find other bloom files. -/
inductive CacheRun (store : LocalStore) (maxMem : Int64) :
    List BlockID → BloomCache libs → Prop
  | new : CacheRun store maxMem [] (newBloomCache store maxMem)
  | test {hist : List BlockID} {c c' : BloomCache libs} {id : BlockID} {keyHash : UInt64}
      {w w' : World} {ws : List World} {r : Except Err Bool} (h : CacheRun store maxMem hist c)
      (hfits : Fits c w id) (hrun : Runs sem (c.test id keyHash) w ws (r, c') w') :
      CacheRun store maxMem (id :: hist) c'
  | evict {hist : List BlockID} {c : BloomCache libs} (id : BlockID)
      (h : CacheRun store maxMem hist c) : CacheRun store maxMem hist (c.evict id)

/-- What every cache of a history satisfies. -/
structure Invariant (maxMem : Int64) (hist : List BlockID) (c : BloomCache libs) : Prop where
  rep : Rep c
  capped : Capped c
  recent : Recent hist (c.order.map elemID)
  maxMem_eq : c.maxMem = maxMem

variable {maxMem : Int64} {hist : List BlockID}

/-- A cache has no element of an id that is not in its map. -/
theorem Rep.notMem_ids (h : Rep c) (hnone : c.items.get id = none) :
    id ∉ c.order.map elemID := by
  intro hmem
  obtain ⟨x, hx, hid⟩ := List.mem_map.mp hmem
  rw [(h.items id x).mpr ⟨hx, hid⟩] at hnone
  cases hnone

/-- Making room leaves no more bytes than there were. -/
theorem Rep.sizes_take (h : Rep c) (k : Nat) : sizes (c.order.take k) ≤ sizes c.order := by
  have hsplit : sizes c.order = sizes (c.order.take k) + sizes (c.order.drop k) := by
    rw [sizes, sizes, sizes, ← List.sum_append, ← List.map_append, List.take_append_drop]
  have hrest : 0 ≤ sizes (c.order.drop k) :=
    sizes_nonneg fun x hx => h.nonneg x (List.mem_of_mem_drop hx)
  omega

theorem Invariant.test (h : Invariant maxMem hist c) (hfits : Fits c w id)
    (ht : Runs sem (c.test id keyHash) w ws (r, c') w') : Invariant maxMem (id :: hist) c' := by
  have hrecent : Recent (id :: hist) (c'.order.map elemID) := by
    rcases h.rep.test_order ht with ⟨rfl, hnone⟩ | ⟨elem, k, rfl, horder⟩
    · exact h.recent.pass (h.rep.notMem_ids hnone)
    · have hsub : (((c.order.filter fun x => elemID x ≠ elemID elem).take k).map elemID).Sublist
          (c.order.map elemID) := ((List.take_sublist _ _).trans List.filter_sublist).map _
      rw [horder, List.map_cons]
      refine (h.recent.sublist hsub).access fun hmem => ?_
      obtain ⟨x, hx, hid⟩ := List.mem_map.mp hmem
      have hne := (List.mem_filter.mp (List.mem_of_mem_take hx)).2
      simp [hid] at hne
  rcases test_cases ht with ⟨elem, hitem, rfl, -⟩ | ⟨hnone, rfl | ⟨f, data, hdata, rfl, -⟩⟩
  · obtain ⟨helem, -⟩ := (h.rep.items id elem).mp hitem
    obtain ⟨heq, hperm⟩ := h.rep.perm_moveToFront helem
    refine ⟨h.rep.moveToFront helem, ?_, hrecent, by rw [heq]; exact h.maxMem_eq⟩
    have hlen := hperm.length_eq
    rw [heq] at hlen ⊢
    intro hmax
    have hcap := h.capped hmax
    rw [hlen] at hcap
    exact hcap
  · exact ⟨h.rep, h.capped, hrecent, h.maxMem_eq⟩
  · generalize hsize : Int64.ofNat data.length = size at hrecent ⊢
    obtain ⟨hrep, hmax, ⟨k, hk⟩, hroom, -⟩ :=
      h.rep.evictUntil size c.order.length (Nat.le_refl _)
    have hnone' : (evictUntil size c.order.length c).items.get id = none := by
      cases hget : (evictUntil size c.order.length c).items.get id with
      | none => rfl
      | some x =>
          rw [(shrinks_evictUntil size c.order.length c).items id x hget] at hnone
          cases hnone
    have hall := hfits data hdata
    have hpos := sizes_nonneg h.rep.nonneg
    have hlen : size.toInt = data.length := by
      rw [← hsize]
      exact Int64.toInt_ofNat_of_lt (by omega)
    have hcut := h.rep.sizes_take k
    rw [← hk] at hcut
    exact ⟨hrep.insert hnone' f (by omega) (by omega), capped_insert hroom, hrecent,
      hmax.trans h.maxMem_eq⟩

theorem Invariant.evict (h : Invariant maxMem hist c) (id : BlockID) :
    Invariant maxMem hist (c.evict id) := by
  unfold BloomCache.evict
  cases hitem : c.items.get id with
  | none => exact h
  | some elem =>
      obtain ⟨helem, -⟩ := (h.rep.items id elem).mp hitem
      have hrep := h.rep.removeElem helem
      have hperm := h.rep.perm_removed helem
      refine ⟨hrep, fun hmax => Or.inl ?_, h.recent.sublist (List.filter_sublist.map _),
        h.maxMem_eq⟩
      have hsize := h.rep.nonneg elem helem
      rcases h.capped hmax with hle | hone
      · show c.usedMem - elem.value.size ≤ c.maxMem
        have hsum := hrep.used
        rw [Int64.le_iff_toInt_le] at hle ⊢
        have hrest := h.rep.used
        rw [sizes_perm hperm, sizes_cons] at hrest
        have hused : (c.usedMem - elem.value.size).toInt = sizes (c.removeElem elem).order := hsum
        omega
      · -- the only entry goes
        have hlen := hperm.length_eq
        rw [hone, List.length_cons] at hlen
        have hnil : (c.removeElem elem).order = [] := List.length_eq_zero_iff.mp (by omega)
        have hused := hrep.used
        rw [hnil] at hused
        rw [Int64.le_iff_toInt_le, hused]
        exact Int.le_of_lt (Int64.lt_iff_toInt_lt.mp hmax)

/-- **Every cache of a history is represented, capped and in the order of
use.** -/
theorem CacheRun.invariant {store : LocalStore} (h : CacheRun store maxMem hist c) :
    Invariant maxMem hist c := by
  induction h with
  | new =>
      refine ⟨rep_new store maxMem, fun hmax => Or.inl ?_, recent_nil _, rfl⟩
      exact Int64.le_of_lt hmax
  | test _ hfits hrun ih => exact ih.test hfits hrun
  | evict id _ ih => exact ih.evict id

/-- **A test evicts what was tested least recently**: whatever stays was tested
after everything that goes. -/
theorem Invariant.evicted_older (h : Invariant maxMem hist c)
    (ht : Runs sem (c.test id keyHash) w ws (r, c') w') {x y : Elem libs} (hx : x ∈ c.order)
    (hgone : x ∉ c'.order) (hy : y ∈ c.order) (hkept : y ∈ c'.order) :
    hist.idxOf (elemID y) < hist.idxOf (elemID x) := by
  rcases test_cases ht with ⟨elem, hitem, rfl, -⟩ | ⟨-, rfl | ⟨f, data, -, rfl, -⟩⟩
  · obtain ⟨helem, -⟩ := (h.rep.items id elem).mp hitem
    exact absurd ((h.rep.perm_moveToFront helem).2.mem_iff.mp hx) hgone
  · exact absurd hx hgone
  · generalize Int64.ofNat data.length = size at hkept hgone
    obtain ⟨-, -, ⟨k, hk⟩, -⟩ := h.rep.evictUntil size c.order.length (Nat.le_refl _)
    have hcut : ((c.order.take k).map elemID ++ (c.order.drop k).map elemID).Pairwise
        fun a b => hist.idxOf a < hist.idxOf b := by
      rw [← List.map_append, List.take_append_drop]
      exact h.recent.sorted
    -- the kept element is an old one: the new one has a fresh address
    have hyold : y ∈ c.order.take k := by
      rcases List.mem_cons.mp hkept with rfl | hold
      · have hfresh : (evictUntil size c.order.length c).next = c.next := evictUntil_next _ _ _
        have hlt := h.rep.allocated _ hy
        rw [hfresh] at hlt
        exact absurd hlt (Nat.lt_irrefl _)
      · exact hk ▸ hold
    have hxold : x ∈ c.order.drop k := by
      rw [← List.take_append_drop k c.order, List.mem_append] at hx
      rcases hx with hx | hx
      · exact absurd (List.mem_cons_of_mem _ (hk ▸ hx)) hgone
      · exact hx
    exact (List.pairwise_append.mp hcut).2.2 _ (List.mem_map_of_mem hyold) _
      (List.mem_map_of_mem hxold)

/-- **The representation of the cache, over all histories.** Map and list hold
the same elements, one for an id; the counter is the sum of the sizes and not
negative; a positive cap holds unless there is a single entry; a test that fails
or finds no file changes nothing; the loop that makes room ends with room or an
empty list, after at most as many passes as there are entries; and the list is
in the order of the last tests, of which eviction takes the oldest. -/
theorem cache_represents {store : LocalStore} (h : CacheRun store maxMem hist c) :
    (c.order.map elemID).Nodup ∧
    (∀ id elem, c.items.get id = some elem ↔ elem ∈ c.order ∧ elem.value.id = id) ∧
    c.usedMem.toInt = (c.order.map fun x => x.value.size.toInt).sum ∧ 0 ≤ c.usedMem ∧
    (0 < maxMem → c.usedMem ≤ maxMem ∨ c.order.length = 1) ∧
    (∀ id keyHash w ws r c' w', Runs sem (c.test id keyHash) w ws (r, c') w' →
      (∃ e, r = .error e) ∨ c.items.get id = none ∧ w.fs (c.store.bloomPath id) = none →
      c' = c) ∧
    (∀ size n, c.order.length ≤ n →
      evictUntil size n c = evictUntil size c.order.length c ∧
      ¬ ((evictUntil size n c).maxMem > 0 ∧
        (evictUntil size n c).usedMem + size > (evictUntil size n c).maxMem ∧
        (evictUntil size n c).order.length > 0)) ∧
    ((c.order.map elemID).Pairwise fun a b => hist.idxOf a < hist.idxOf b) ∧
    ∀ id keyHash w ws r c' w', Runs sem (c.test id keyHash) w ws (r, c') w' →
      ∀ x ∈ c.order, x ∉ c'.order → ∀ y ∈ c.order, y ∈ c'.order →
        hist.idxOf (elemID y) < hist.idxOf (elemID x) := by
  have hinv := h.invariant
  refine ⟨hinv.rep.ids, hinv.rep.items, hinv.rep.used, ?_, ?_, ?_, ?_, hinv.recent.sorted, ?_⟩
  · rw [Int64.le_iff_toInt_le, hinv.rep.used]
    exact sizes_nonneg hinv.rep.nonneg
  · intro hmax
    rw [← hinv.maxMem_eq] at hmax ⊢
    exact hinv.capped hmax
  · intro id keyHash w ws r c' w' ht
    exact test_unchanged ht
  · intro size n hn
    obtain ⟨-, -, -, hroom, hfuel⟩ := hinv.rep.evictUntil size n hn
    exact ⟨hfuel, hroom⟩
  · intro id keyHash w ws r c' w' ht x hx hgone y hy hkept
    exact hinv.evicted_older ht hx hgone hy hkept

/-- A disk on which every file has three bytes. -/
def threeBytes : World := ⟨Pebble.empty, fun _ => some [1, 2, 3], 0⟩

/-- One test, with room for one filter of three bytes. -/
def oneTested : BloomCache Libs.plain :=
  (((newBloomCache ⟨[], tierHot⟩ 4).test [1] 5).exec threeBytes).1.2

def twoTested : BloomCache Libs.plain := ((oneTested.test [2] 5).exec threeBytes).1.2

theorem cacheRun_twoTested : CacheRun ⟨[], tierHot⟩ 4 [[2], [1]] twoTested := by
  have hfirst : Fits (newBloomCache ⟨[], tierHot⟩ 4 : BloomCache Libs.plain) threeBytes [1] := by
    rintro data hdata
    cases hdata
    decide
  have hsecond : Fits oneTested threeBytes [2] := by
    rintro data hdata
    cases hdata
    decide
  have hone : CacheRun ⟨[], tierHot⟩ 4 [[1]] oneTested :=
    CacheRun.new.test hfirst (runs_procExec ((newBloomCache ⟨[], tierHot⟩ 4).test [1] 5) threeBytes)
  exact hone.test hsecond (runs_procExec (oneTested.test [2] 5) threeBytes)

/-- The first filter went to make room for the second. -/
theorem cache_represents_twoTested :
    twoTested.order.map elemID = [[2]] ∧ twoTested.usedMem = 3 ∧
      (twoTested.usedMem ≤ 4 ∨ twoTested.order.length = 1) := by
  refine ⟨by decide, by decide, ?_⟩
  exact (cache_represents cacheRun_twoTested).2.2.2.2.1 (by decide)

end Bbdb.Index.BloomCache
