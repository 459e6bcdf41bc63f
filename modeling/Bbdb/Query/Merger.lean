import Bbdb.Block.Event
import Bbdb.Lib.Heap
import Bbdb.Lib.Keyed

/-!
# Query — the merge of the block results

`mergeEvents` merges sorted slices through a heap that holds the next event of
every slice. What is still to come of a heap is the rest of the slices its
items point into (`remaining`); popping an item and pushing its successor
takes one event out of that, and none of the others comes before it. So the
result is a sorted permutation of all events (`mergeEvents_spec`), and since
the heap has one item of a slice at a time, each slice comes out in its own
order (`mergeEvents_slices`).
-/

namespace Bbdb.Query

open Bbdb.Block Bbdb.Heap

/-- An event with the slice and the position it comes from. -/
structure HeapItem where
  event : Event
  slice : Nat
  pos : Nat
  deriving DecidableEq, Repr

/-- `eventHeap.Less`. -/
def HeapItem.less (a b : HeapItem) : Bool := a.event.less b.event

/-- The item for a position, if the slice is long enough. -/
def itemAt (slices : List (List Event)) (slice pos : Nat) : Option HeapItem :=
  ((slices.getD slice [])[pos]?).map fun e => ⟨e, slice, pos⟩

/-- Push an item, if there is one. -/
def pushItem (h : Array HeapItem) : Option HeapItem → Array HeapItem
  | none => h
  | some item => Heap.push HeapItem.less h item

/-- The first item of every non-empty slice. -/
def firstItems (slices : List (List Event)) : Array HeapItem :=
  (List.range slices.length).foldl (fun h i => pushItem h (itemAt slices i 0)) #[]

/-- The loop; each pass returns one event, so their total number bounds the
passes. -/
def mergeLoop (slices : List (List Event)) : Nat → Array HeapItem → List Event
  | 0, _ => []
  | n + 1, h =>
      match Heap.pop HeapItem.less h with
      | none => []
      | some (item, h') =>
          item.event :: mergeLoop slices n (pushItem h' (itemAt slices item.slice (item.pos + 1)))

def mergeEvents (slices : List (List Event)) : List Event :=
  if slices.length = 0 then []
  else if slices.length = 1 then slices.headD []
  else
    let total := (slices.map List.length).sum
    if total = 0 then [] else mergeLoop slices total (firstItems slices)

/-! ## The heap of items -/

theorem strictWeak_itemLess : StrictWeak HeapItem.less where
  asymm h := Event.strictWeak_less.asymm h
  cotrans h b := Event.strictWeak_less.cotrans h b.event

variable {slices : List (List Event)} {h : Array HeapItem}

/-- What is left of an item's slice, from the item on. -/
def HeapItem.rest (slices : List (List Event)) (item : HeapItem) : List Event :=
  (slices.getD item.slice []).drop item.pos

/-- What is still to come. -/
def remaining (slices : List (List Event)) (h : Array HeapItem) : List Event :=
  h.toList.flatMap (HeapItem.rest slices)

/-- A heap of items that are where they say they are. -/
structure GoodHeap (slices : List (List Event)) (h : Array HeapItem) : Prop where
  ordered : Ordered HeapItem.less h h.size
  items : ∀ item ∈ h.toList, itemAt slices item.slice item.pos = some item

/-- The events an optional item stands for. -/
def restOf (slices : List (List Event)) : Option HeapItem → List Event
  | none => []
  | some item => item.rest slices

theorem restOf_itemAt (slices : List (List Event)) (i pos : Nat) :
    restOf slices (itemAt slices i pos) = (slices.getD i []).drop pos := by
  unfold itemAt
  cases hget : (slices.getD i [])[pos]? with
  | none => exact (List.drop_eq_nil_of_le (List.getElem?_eq_none_iff.mp hget)).symm
  | some e => rfl

/-- The rest of a slice is its item's event and the rest after it. -/
theorem rest_eq {item : HeapItem} (hitem : itemAt slices item.slice item.pos = some item) :
    item.rest slices = item.event :: restOf slices (itemAt slices item.slice (item.pos + 1)) := by
  obtain ⟨e, hget, he⟩ := Option.map_eq_some_iff.mp hitem
  obtain ⟨hlt, hval⟩ := List.getElem?_eq_some_iff.mp hget
  rw [restOf_itemAt, HeapItem.rest, List.drop_eq_getElem_cons hlt, hval, ← he]

theorem itemAt_valid {i pos : Nat} {item : HeapItem} (h : itemAt slices i pos = some item) :
    itemAt slices item.slice item.pos = some item := by
  obtain ⟨e, -, rfl⟩ := Option.map_eq_some_iff.mp h
  exact h

/-- **Pushing the next item of a slice** adds its rest to what is to come. -/
theorem GoodHeap.pushItem (hg : GoodHeap slices h) (i pos : Nat) :
    GoodHeap slices (pushItem h (itemAt slices i pos)) ∧
      (remaining slices (Query.pushItem h (itemAt slices i pos))).Perm
        ((slices.getD i []).drop pos ++ remaining slices h) := by
  rw [← restOf_itemAt]
  cases hitem : itemAt slices i pos with
  | none => exact ⟨hg, List.Perm.refl _⟩
  | some item =>
      obtain ⟨hperm, hord⟩ := push_spec strictWeak_itemLess (x := item) hg.ordered
      refine ⟨⟨hord, fun x hx => ?_⟩, hperm.flatMap_right _⟩
      rcases List.mem_cons.mp (hperm.mem_iff.mp hx) with rfl | hx
      · exact itemAt_valid hitem
      · exact hg.items x hx

theorem goodHeap_empty : GoodHeap slices #[] :=
  ⟨fun _ _ hk => absurd hk (Nat.not_lt_zero _), fun _ hx => absurd hx List.not_mem_nil⟩

/-- The heap the loop starts with has every event to come. -/
theorem firstItems_spec (slices : List (List Event)) :
    GoodHeap slices (firstItems slices) ∧
      (remaining slices (firstItems slices)).Perm slices.flatten := by
  have hloop : ∀ (is : List Nat) (h : Array HeapItem), GoodHeap slices h →
      GoodHeap slices (is.foldl (fun h i => pushItem h (itemAt slices i 0)) h) ∧
        (remaining slices (is.foldl (fun h i => pushItem h (itemAt slices i 0)) h)).Perm
          (remaining slices h ++ is.flatMap fun i => slices.getD i []) := by
    intro is
    induction is with
    | nil =>
        intro h hg
        exact ⟨hg, by simp⟩
    | cons i is ih =>
        intro h hg
        obtain ⟨hg', hperm⟩ := hg.pushItem i 0
        obtain ⟨hgood, hrest⟩ := ih _ hg'
        refine ⟨hgood, hrest.trans ?_⟩
        rw [List.flatMap_cons, ← List.append_assoc]
        exact (hperm.trans List.perm_append_comm).append_right _
  have hall : (List.range slices.length).flatMap (fun i => slices.getD i []) = slices.flatten := by
    rw [List.flatMap_def]
    congr 1
    refine List.ext_getElem (by simp) fun i h₁ h₂ => ?_
    simp [List.getD_eq_getElem?_getD, h₂]
  obtain ⟨hgood, hperm⟩ := hloop (List.range slices.length) #[] goodHeap_empty
  rw [hall] at hperm
  exact ⟨hgood, hperm⟩

/-! ## The loop -/

/-- Every slice is sorted. -/
def Sorted (l : List Event) : Prop := l.Pairwise (NotAfter Event.less)

theorem sorted_rest (hs : ∀ s ∈ slices, Sorted s) (item : HeapItem) :
    Sorted (item.rest slices) := by
  have hslice : Sorted (slices.getD item.slice []) := by
    rw [List.getD_eq_getElem?_getD]
    cases hget : slices[item.slice]? with
    | none => exact List.Pairwise.nil
    | some s => exact hs s (List.mem_of_getElem? hget)
  exact hslice.sublist (List.drop_sublist _ _)

/-- An item that nothing in the heap comes before is before all there is to come. -/
theorem notAfter_remaining (hg : GoodHeap slices h) (hs : ∀ s ∈ slices, Sorted s) {x : Event}
    (hx : ∀ item ∈ h.toList, NotAfter Event.less x item.event) :
    ∀ y ∈ remaining slices h, NotAfter Event.less x y := by
  intro y hy
  obtain ⟨item, hitem, hrest⟩ := List.mem_flatMap.mp hy
  have hsorted := sorted_rest hs item
  rw [rest_eq (hg.items item hitem)] at hrest hsorted
  rcases List.mem_cons.mp hrest with rfl | hlater
  · exact hx item hitem
  · exact Event.strictWeak_less.trans (hx item hitem) ((List.pairwise_cons.mp hsorted).1 y hlater)

/-- A heap that holds an item is not at the end. -/
theorem GoodHeap.remaining_eq_nil (hg : GoodHeap slices h) :
    remaining slices h = [] ↔ h.size = 0 := by
  constructor
  · intro hnil
    cases hitems : h.toList with
    | nil => simpa using hitems
    | cons item items =>
        have hitem := hg.items item (by rw [hitems]; exact List.mem_cons_self)
        rw [remaining, hitems, List.flatMap_cons, rest_eq hitem] at hnil
        cases hnil
  · intro h0
    rw [Array.size_eq_zero_iff.mp h0]
    rfl

/-- **One pass of the loop**: the item that comes out, the heap without it,
and what is to come after its successor went in. -/
theorem GoodHeap.pop (hg : GoodHeap slices h) (hne : 0 < h.size) :
    ∃ item h', Heap.pop HeapItem.less h = some (item, h') ∧ h.toList.Perm (item :: h'.toList) ∧
      itemAt slices item.slice item.pos = some item ∧ GoodHeap slices h' ∧
      (∀ x ∈ h'.toList, NotAfter Event.less item.event x.event) ∧
      (remaining slices h).Perm (item.event :: remaining slices
        (Query.pushItem h' (itemAt slices item.slice (item.pos + 1)))) := by
  obtain ⟨item, h', hpop, hperm, hord, hmin⟩ := pop_spec strictWeak_itemLess hg.ordered hne
  have hitem := hg.items item (hperm.mem_iff.mpr List.mem_cons_self)
  have hg' : GoodHeap slices h' :=
    ⟨hord, fun x hx => hg.items x (hperm.mem_iff.mpr (List.mem_cons_of_mem _ hx))⟩
  refine ⟨item, h', hpop, hperm, hitem, hg', hmin, (hperm.flatMap_right _).trans ?_⟩
  rw [List.flatMap_cons, rest_eq hitem, restOf_itemAt, List.cons_append]
  exact ((hg'.pushItem item.slice (item.pos + 1)).2.symm).cons _

/-- The loop returns all there is to come, in order if the slices are. -/
theorem mergeLoop_spec (slices : List (List Event)) :
    ∀ n h, GoodHeap slices h → (remaining slices h).length = n →
      (mergeLoop slices n h).Perm (remaining slices h) ∧
        ((∀ s ∈ slices, Sorted s) → Sorted (mergeLoop slices n h)) := by
  intro n
  induction n with
  | zero =>
      intro h _ hlen
      rw [List.length_eq_zero_iff.mp hlen]
      exact ⟨List.Perm.refl _, fun _ => List.Pairwise.nil⟩
  | succ n ih =>
      intro h hg hlen
      have hne : 0 < h.size := by
        rcases Nat.eq_zero_or_pos h.size with h0 | hpos
        · rw [hg.remaining_eq_nil.mpr h0] at hlen
          cases hlen
        · exact hpos
      obtain ⟨item, h', hpop, -, hitem, hg', hmin, hstep⟩ := hg.pop hne
      obtain ⟨hgood, hnext⟩ := hg'.pushItem item.slice (item.pos + 1)
      have hlen' := hstep.length_eq
      rw [hlen, List.length_cons] at hlen'
      obtain ⟨hp, hsorted⟩ := ih _ hgood (by omega)
      simp only [mergeLoop, hpop]
      refine ⟨(hp.cons _).trans hstep.symm, fun hs =>
        List.pairwise_cons.mpr ⟨fun y hy => ?_, hsorted hs⟩⟩
      -- the popped event is not after the rest of its slice, nor after the other items
      have hy' := hnext.mem_iff.mp (hp.mem_iff.mp hy)
      rcases List.mem_append.mp hy' with hmine | hother
      · have hslice := sorted_rest hs item
        rw [rest_eq hitem, restOf_itemAt] at hslice
        exact (List.pairwise_cons.mp hslice).1 y hmine
      · exact notAfter_remaining hg' hs hmin y hother

/-- **The merge returns all events of its slices**, in order if the slices
are. -/
theorem mergeEvents_spec (slices : List (List Event)) :
    (mergeEvents slices).Perm slices.flatten ∧
      ((∀ s ∈ slices, Sorted s) → Sorted (mergeEvents slices)) := by
  simp only [mergeEvents]
  split_ifs with h0 h1 ht
  · rw [List.length_eq_zero_iff.mp h0]
    exact ⟨List.Perm.refl _, fun _ => List.Pairwise.nil⟩
  · obtain ⟨s, rfl⟩ := List.length_eq_one_iff.mp h1
    exact ⟨by simp, fun hs => hs s List.mem_cons_self⟩
  · have hnil : slices.flatten = [] := by
      rw [← List.length_eq_zero_iff, List.length_flatten]
      exact ht
    rw [hnil]
    exact ⟨List.Perm.refl _, fun _ => List.Pairwise.nil⟩
  · obtain ⟨hgood, hperm⟩ := firstItems_spec slices
    obtain ⟨hp, hsorted⟩ := mergeLoop_spec slices _ _ hgood
      (by rw [hperm.length_eq, List.length_flatten])
    exact ⟨hp.trans hperm, hsorted⟩

theorem mergeEvents_perm (slices : List (List Event)) :
    (mergeEvents slices).Perm slices.flatten :=
  (mergeEvents_spec slices).1

/-- Sorted slices are merged in order. -/
theorem mergeEvents_sorted (hs : ∀ s ∈ slices, Sorted s) : Sorted (mergeEvents slices) :=
  (mergeEvents_spec slices).2 hs

/-! ## The order within a slice

The heap holds at most one item of a slice, so a slice comes out in its own
order. -/

/-- What is to come of slice `i`. -/
def pending (slices : List (List Event)) (h : Array HeapItem) (i : Nat) : List Event :=
  (h.toList.filter fun item => item.slice = i).flatMap (HeapItem.rest slices)

/-- A good heap with at most one item of every slice. -/
structure Cursors (slices : List (List Event)) (h : Array HeapItem) : Prop where
  good : GoodHeap slices h
  nodup : (h.toList.map HeapItem.slice).Nodup

theorem pending_of_perm {l : List HeapItem} {item : HeapItem} (hperm : h.toList.Perm (item :: l))
    (hnd : ((item :: l).map HeapItem.slice).Nodup) (i : Nat) :
    pending slices h i = if item.slice = i then item.rest slices
      else (l.filter fun x => x.slice = i).flatMap (HeapItem.rest slices) := by
  have hnd' := (hperm.map HeapItem.slice).nodup_iff.mpr hnd
  rw [pending, Keyed.filter_key_perm hperm hnd' i]
  by_cases hi : item.slice = i
  · have hnone : (l.filter fun x => x.slice = i) = [] := by
      rw [List.filter_eq_nil_iff]
      intro x hx
      have hne : x.slice ≠ item.slice := by
        intro he
        exact (List.nodup_cons.mp hnd).1 (List.mem_map.mpr ⟨x, hx, he⟩)
      simpa [← hi] using hne
    simp [hi, hnone]
  · simp [hi]

/-- **Pushing the next item of a slice that has none** adds its rest to that
slice, and to no other. -/
theorem Cursors.pushItem (hc : Cursors slices h) {i : Nat}
    (hi : i ∉ h.toList.map HeapItem.slice) (pos : Nat) :
    Cursors slices (pushItem h (itemAt slices i pos)) ∧
      (∀ j, pending slices (Query.pushItem h (itemAt slices i pos)) j =
        if i = j then (slices.getD i []).drop pos else pending slices h j) ∧
      ∀ j ∈ (Query.pushItem h (itemAt slices i pos)).toList.map HeapItem.slice,
        j = i ∨ j ∈ h.toList.map HeapItem.slice := by
  have hgood := (hc.good.pushItem i pos).1
  rw [← restOf_itemAt]
  cases hitem : itemAt slices i pos with
  | none =>
      refine ⟨hc, fun j => ?_, fun j hj => Or.inr hj⟩
      split_ifs with hij
      · have hnone : (h.toList.filter fun x => x.slice = j) = [] := by
          rw [List.filter_eq_nil_iff]
          intro x hx
          have hne : x.slice ≠ i := fun he => hi (List.mem_map.mpr ⟨x, hx, he⟩)
          simpa [← hij] using hne
        rw [Query.pushItem, pending, hnone]
        rfl
      · rfl
  | some item =>
      have hslice : item.slice = i := by
        obtain ⟨e, -, rfl⟩ := Option.map_eq_some_iff.mp hitem
        rfl
      rw [hitem] at hgood
      have hperm : (Query.pushItem h (some item)).toList.Perm (item :: h.toList) :=
        (push_spec strictWeak_itemLess (x := item) hc.good.ordered).1
      have hnd : ((item :: h.toList).map HeapItem.slice).Nodup := by
        rw [List.map_cons, hslice]
        exact List.nodup_cons.mpr ⟨hi, hc.nodup⟩
      refine ⟨⟨hgood, (hperm.map _).nodup_iff.mpr hnd⟩, fun j => ?_, fun j hj => ?_⟩
      · rw [pending_of_perm hperm hnd, hslice]
        rfl
      · have hj' := (hperm.map HeapItem.slice).mem_iff.mp hj
        rw [List.map_cons, hslice, List.mem_cons] at hj'
        exact hj'

/-- The heap the loop starts with has a cursor at the start of every slice. -/
theorem cursors_firstItems (slices : List (List Event)) :
    Cursors slices (firstItems slices) ∧
      ∀ j, pending slices (firstItems slices) j = slices.getD j [] := by
  have hloop : ∀ (is : List Nat) (h : Array HeapItem), is.Nodup → Cursors slices h →
      (∀ i ∈ is, i ∉ h.toList.map HeapItem.slice) →
      Cursors slices (is.foldl (fun h i => pushItem h (itemAt slices i 0)) h) ∧
        ∀ j, pending slices (is.foldl (fun h i => pushItem h (itemAt slices i 0)) h) j =
          if j ∈ is then slices.getD j [] else pending slices h j := by
    intro is
    induction is with
    | nil =>
        intro h _ hc _
        exact ⟨hc, fun j => by simp⟩
    | cons i is ih =>
        intro h hnd hc hout
        obtain ⟨hi, hnd'⟩ := List.nodup_cons.mp hnd
        obtain ⟨hc', hpend, hslices⟩ := hc.pushItem (hout i List.mem_cons_self) 0
        have hout' : ∀ k ∈ is, k ∉
            (pushItem h (itemAt slices i 0)).toList.map HeapItem.slice := by
          intro k hk hmem
          rcases hslices k hmem with rfl | hold
          · exact hi hk
          · exact hout k (List.mem_cons_of_mem _ hk) hold
        obtain ⟨hcur, hrest⟩ := ih _ hnd' hc' hout'
        refine ⟨hcur, fun j => ?_⟩
        rw [List.foldl_cons, hrest j, hpend j]
        by_cases hj : j ∈ is
        · simp [hj]
        · by_cases hij : i = j
          · simp [hij]
          · simp [hj, hij, Ne.symm hij]
  obtain ⟨hc, hpend⟩ := hloop (List.range slices.length) #[] List.nodup_range
    ⟨goodHeap_empty, List.nodup_nil⟩ (by simp)
  refine ⟨hc, fun j => (hpend j).trans ?_⟩
  split_ifs with hj
  · rfl
  · rw [List.getD_eq_getElem?_getD, List.getElem?_eq_none (by simpa using hj)]
    rfl

/-- The items the loop takes out of the heap. -/
def poppedItems (slices : List (List Event)) : Nat → Array HeapItem → List HeapItem
  | 0, _ => []
  | n + 1, h =>
      match Heap.pop HeapItem.less h with
      | none => []
      | some (item, h') =>
          item :: poppedItems slices n (pushItem h' (itemAt slices item.slice (item.pos + 1)))

theorem mergeLoop_eq (slices : List (List Event)) (n : Nat) (h : Array HeapItem) :
    mergeLoop slices n h = (poppedItems slices n h).map HeapItem.event := by
  induction n generalizing h with
  | zero => rfl
  | succ n ih =>
      simp only [mergeLoop, poppedItems]
      cases Heap.pop HeapItem.less h with
      | none => rfl
      | some p =>
          show p.1.event :: mergeLoop slices n _ = _
          rw [ih]
          rfl

/-- The popped items of a slice are what was to come of it, in its order. -/
theorem poppedItems_slice (slices : List (List Event)) (i : Nat) :
    ∀ n h, Cursors slices h → (remaining slices h).length ≤ n →
      ((poppedItems slices n h).filter fun item => item.slice = i).map HeapItem.event =
        pending slices h i := by
  intro n
  induction n with
  | zero =>
      intro h hc hlen
      have hnil := List.length_eq_zero_iff.mp (Nat.le_zero.mp hlen)
      rw [Array.size_eq_zero_iff.mp (hc.good.remaining_eq_nil.mp hnil)]
      rfl
  | succ n ih =>
      intro h hc hlen
      rcases Nat.eq_zero_or_pos h.size with h0 | hpos
      · rw [Array.size_eq_zero_iff.mp h0]
        rfl
      · obtain ⟨item, h', hpop, hperm, hitem, hg', -, hstep⟩ := hc.good.pop hpos
        have hnd := (hperm.map HeapItem.slice).nodup_iff.mp hc.nodup
        obtain ⟨hnew, hnd'⟩ := List.nodup_cons.mp hnd
        obtain ⟨hc', hpend, -⟩ := Cursors.pushItem ⟨hg', hnd'⟩ hnew (item.pos + 1)
        have hlen' := hstep.length_eq
        rw [List.length_cons] at hlen'
        have hih := ih _ hc' (by omega)
        rw [hpend i] at hih
        simp only [poppedItems, hpop]
        rw [pending_of_perm hperm hnd, rest_eq hitem, restOf_itemAt]
        by_cases hi : item.slice = i
        · rw [if_pos hi] at hih ⊢
          rw [List.filter_cons_of_pos (by simpa using hi), List.map_cons, hih]
        · rw [if_neg hi] at hih ⊢
          rw [List.filter_cons_of_neg (by simpa using hi), hih]
          rfl

/-- More passes than there are events change nothing: the heap is empty. -/
theorem mergeLoop_fuel (slices : List (List Event)) :
    ∀ n h, GoodHeap slices h → (remaining slices h).length ≤ n →
      mergeLoop slices n h = mergeLoop slices (remaining slices h).length h := by
  intro n
  induction n with
  | zero =>
      intro h _ hlen
      rw [Nat.le_zero.mp hlen]
  | succ n ih =>
      intro h hg hlen
      rcases Nat.eq_zero_or_pos h.size with h0 | hpos
      · rw [Array.size_eq_zero_iff.mp h0]
        rfl
      · obtain ⟨item, h', hpop, -, -, hg', -, hstep⟩ := hg.pop hpos
        have hlen' := hstep.length_eq
        rw [List.length_cons] at hlen'
        rw [hlen']
        simp only [mergeLoop, hpop]
        rw [ih _ (hg'.pushItem _ _).1 (by omega)]

/-- The events of the merge with the slices they come from. -/
theorem mergeEvents_slices (slices : List (List Event)) :
    ∃ items : List (Nat × Event), items.map Prod.snd = mergeEvents slices ∧
      ∀ i, (items.filter fun p => p.1 = i).map Prod.snd = slices.getD i [] := by
  simp only [mergeEvents]
  split_ifs with h0 h1 ht
  · rw [List.length_eq_zero_iff.mp h0]
    exact ⟨[], rfl, fun i => by simp⟩
  · obtain ⟨s, rfl⟩ := List.length_eq_one_iff.mp h1
    refine ⟨s.map fun e => (0, e), by simp [Function.comp_def], fun i => ?_⟩
    cases i with
    | zero => simp [List.filter_map, Function.comp_def]
    | succ i => simp [List.filter_map, Function.comp_def]
  · -- all slices are empty
    have hnil : slices.flatten = [] := by
      rw [← List.length_eq_zero_iff, List.length_flatten]
      exact ht
    refine ⟨[], rfl, fun i => ?_⟩
    rw [List.getD_eq_getElem?_getD]
    cases hget : slices[i]? with
    | none => rfl
    | some s => exact (List.flatten_eq_nil_iff.mp hnil s (List.mem_of_getElem? hget)).symm
  · obtain ⟨hc, hpend⟩ := cursors_firstItems slices
    obtain ⟨-, hperm⟩ := firstItems_spec slices
    refine ⟨(poppedItems slices (slices.map List.length).sum (firstItems slices)).map
      fun item => (item.slice, item.event), ?_, fun i => ?_⟩
    · rw [mergeLoop_eq, List.map_map]
      rfl
    · rw [← hpend i, ← poppedItems_slice slices i _ _ hc
        (by rw [hperm.length_eq, List.length_flatten]), List.filter_map, List.map_map]
      rfl

/-- **A k-way merge**: the loop ends with an empty heap after as many passes as
there are events, and sorted slices come out in order, every event once, each
slice in its own order. -/
theorem mergeEvents_merges (slices : List (List Event))
    (hs : ∀ s ∈ slices, s.Pairwise fun a b =>
      a.keyHash < b.keyHash ∨ a.keyHash = b.keyHash ∧ a.timestamp ≤ b.timestamp) :
    (∀ n, (slices.map List.length).sum ≤ n →
      mergeLoop slices n (firstItems slices) =
        mergeLoop slices (slices.map List.length).sum (firstItems slices)) ∧
    ((mergeEvents slices).Pairwise fun a b =>
      a.keyHash < b.keyHash ∨ a.keyHash = b.keyHash ∧ a.timestamp ≤ b.timestamp) ∧
    (mergeEvents slices).Perm slices.flatten ∧
    ∃ items : List (Nat × Event), items.map Prod.snd = mergeEvents slices ∧
      ∀ i, (items.filter fun p => p.1 = i).map Prod.snd = slices.getD i [] := by
  have hsorted : ∀ s ∈ slices, Sorted s := fun s h =>
    (hs s h).imp fun hab => Event.notAfter_less.mpr hab
  obtain ⟨hgood, hperm⟩ := firstItems_spec slices
  have htotal : (remaining slices (firstItems slices)).length = (slices.map List.length).sum := by
    rw [hperm.length_eq, List.length_flatten]
  refine ⟨fun n hn => ?_, ?_, mergeEvents_perm slices, mergeEvents_slices slices⟩
  · rw [mergeLoop_fuel slices n _ hgood (by rw [htotal]; exact hn), htotal]
  · exact (mergeEvents_sorted hsorted).imp fun hab => Event.notAfter_less.mp hab

/-- Three slices with a tie, one of them empty. -/
theorem mergeEvents_merges_threeSlices :
    (mergeEvents [[⟨1, 5, []⟩, ⟨2, 1, []⟩], [], [⟨1, 3, []⟩, ⟨1, 5, [7]⟩]]).Perm
      [⟨1, 5, []⟩, ⟨2, 1, []⟩, ⟨1, 3, []⟩, ⟨1, 5, [7]⟩] :=
  (mergeEvents_merges [[⟨1, 5, []⟩, ⟨2, 1, []⟩], [], [⟨1, 3, []⟩, ⟨1, 5, [7]⟩]]
    (by decide)).2.2.1

example : mergeEvents [[⟨1, 5, []⟩, ⟨2, 1, []⟩], [], [⟨1, 3, []⟩, ⟨1, 5, [7]⟩]] =
    [⟨1, 3, []⟩, ⟨1, 5, []⟩, ⟨1, 5, [7]⟩, ⟨2, 1, []⟩] := by decide

end Bbdb.Query
