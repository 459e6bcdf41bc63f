import Bbdb.Block.Event
import Mathlib.Data.Nat.Bitwise

/-!
# Ingestion — the ring buffer

The ring between the streams and a shard's writer. Its capacity is a power of
two and its mask one less, which the type carries, so a position masked is a
position modulo the capacity (`index_eq_mod`) and every slot access is in
bounds. Head and tail are free-running 64-bit counters.

`push`, `pop` and `drainAll` are the calls run without interference.
-/

namespace Bbdb.Ingestion

open Bbdb.Block

/-- The loop of `nextPow2`: double from 1 until `n` is reached. It ends for
every `n` up to `2^62`, after at most 62 passes. -/
def nextPow2Loop : Nat → Nat → Nat → Nat
  | 0, p, _ => p
  | fuel + 1, p, n => if p < n then nextPow2Loop fuel (2 * p) n else p

def nextPow2 (n : Int) : Nat := if n ≤ 1 then 1 else nextPow2Loop 62 1 n.toNat

theorem nextPow2Loop_pow (fuel k n : Nat) :
    ∃ j, j ≤ k + fuel ∧ nextPow2Loop fuel (2 ^ k) n = 2 ^ j := by
  induction fuel generalizing k with
  | zero => exact ⟨k, Nat.le_refl _, rfl⟩
  | succ fuel ih =>
      rw [nextPow2Loop]
      split
      · obtain ⟨j, hj, he⟩ := ih (k + 1)
        refine ⟨j, by omega, ?_⟩
        rw [← he, Nat.pow_succ, Nat.mul_comm]
      · exact ⟨k, by omega, rfl⟩

theorem nextPow2_pow (n : Int) : ∃ j, j ≤ 62 ∧ nextPow2 n = 2 ^ j := by
  unfold nextPow2
  split
  · exact ⟨0, by decide, rfl⟩
  · obtain ⟨j, hj, he⟩ := nextPow2Loop_pow 62 0 n.toNat
    exact ⟨j, by omega, he⟩

/-- Up to `2^62` the loop ends before the fuel does, at the first power that
is large enough. -/
theorem nextPow2Loop_spec {fuel p n : Nat} (hfuel : n ≤ p * 2 ^ fuel) (hp : p < 2 * n) :
    n ≤ nextPow2Loop fuel p n ∧ nextPow2Loop fuel p n < 2 * n := by
  induction fuel generalizing p with
  | zero =>
      rw [nextPow2Loop]
      exact ⟨by simpa using hfuel, hp⟩
  | succ fuel ih =>
      rw [nextPow2Loop]
      split
      · refine ih ?_ (by omega)
        rwa [Nat.pow_succ, Nat.mul_comm (2 ^ fuel), ← Nat.mul_assoc, Nat.mul_comm p] at hfuel
      · exact ⟨by omega, hp⟩

/-- **`nextPow2` rounds up to the next power of two.** -/
theorem nextPow2_spec {n : Int} (h1 : 1 ≤ n) (h2 : n ≤ 2 ^ 62) :
    n ≤ nextPow2 n ∧ (nextPow2 n : Int) < 2 * n := by
  unfold nextPow2
  split
  · omega
  · have := nextPow2Loop_spec (show n.toNat ≤ 1 * 2 ^ 62 by omega) (show 1 < 2 * n.toNat by omega)
    omega

/-- The value of a slot that was never written. -/
def zeroEvent : Event := ⟨0, 0, []⟩

/-- The ring: `2^log` slots. -/
structure RingBuf where
  buf : List Event
  mask : UInt64
  /-- Next write position. -/
  head : UInt64
  /-- Next read position. -/
  tail : UInt64
  log : Nat
  log_le : log ≤ 62
  length_buf : buf.length = 2 ^ log
  mask_eq : mask.toNat = 2 ^ log - 1

namespace RingBuf

/-- The slot of a position. -/
def index (rb : RingBuf) (pos : UInt64) : Nat := (pos &&& rb.mask).toNat

/-- A masked position is the position modulo the capacity. -/
theorem index_eq_mod (rb : RingBuf) (pos : UInt64) : rb.index pos = pos.toNat % 2 ^ rb.log := by
  rw [index, UInt64.toNat_and, rb.mask_eq, Nat.and_two_pow_sub_one_eq_mod]

theorem index_lt (rb : RingBuf) (pos : UInt64) : rb.index pos < rb.buf.length := by
  rw [index_eq_mod, rb.length_buf]
  exact Nat.mod_lt _ (Nat.two_pow_pos _)

/-- There is room for one more event, as seen with these two counters. -/
def hasRoom (rb : RingBuf) (head tail : UInt64) : Bool :=
  head - tail < UInt64.ofNat rb.buf.length

/-- `rb.buf[pos & rb.mask] = e`. -/
def setSlot (rb : RingBuf) (pos : UInt64) (e : Event) : RingBuf where
  buf := rb.buf.set (rb.index pos) e
  mask := rb.mask
  head := rb.head
  tail := rb.tail
  log := rb.log
  log_le := rb.log_le
  length_buf := by rw [List.length_set, rb.length_buf]
  mask_eq := rb.mask_eq

/-- `rb.buf[pos & rb.mask]`. -/
def slot (rb : RingBuf) (pos : UInt64) : Event := rb.buf.getD (rb.index pos) zeroEvent

/-- `rb.head.Store(v)`. -/
def setHead (rb : RingBuf) (v : UInt64) : RingBuf := { rb with head := v }

/-- `rb.tail.Store(v)`. -/
def setTail (rb : RingBuf) (v : UInt64) : RingBuf := { rb with tail := v }

/-- `Push` without interference: the ring with the event added, or nothing
while it is full and the call blocks. -/
def push (rb : RingBuf) (e : Event) : Option RingBuf :=
  if rb.hasRoom rb.head rb.tail then some ((rb.setSlot rb.head e).setHead (rb.head + 1)) else none

/-- `Pop` without interference. -/
def pop (rb : RingBuf) : Option (Event × RingBuf) :=
  if rb.tail = rb.head then none else some (rb.slot rb.tail, rb.setTail (rb.tail + 1))

/-- The loop of `DrainAll`, at most `n` passes. -/
def drainLoop : Nat → RingBuf → List Event × RingBuf
  | 0, rb => ([], rb)
  | n + 1, rb =>
      match rb.pop with
      | none => ([], rb)
      | some (e, rb') => (e :: (drainLoop n rb').1, (drainLoop n rb').2)

/-- `DrainAll` without interference: the tail meets the head after
`head - tail` passes. -/
def drainAll (rb : RingBuf) : List Event × RingBuf := drainLoop (rb.head - rb.tail).toNat rb

theorem toNat_sub_tail {rb : RingBuf} (h : rb.tail ≠ rb.head) :
    (rb.head - rb.tail).toNat = (rb.head - (rb.tail + 1)).toNat + 1 := by
  have hh := UInt64.toNat_lt rb.head
  have ht := UInt64.toNat_lt rb.tail
  have hne : rb.tail.toNat ≠ rb.head.toNat := fun he => h (UInt64.toNat_inj.mp he)
  have h1 : (1 : UInt64).toNat = 1 := rfl
  rw [UInt64.toNat_sub, UInt64.toNat_sub, UInt64.toNat_add, h1]
  omega

/-- The first pass of a drain. -/
theorem drainAll_of_pop {rb rb' : RingBuf} {e : Event} (h : rb.pop = some (e, rb')) :
    rb.drainAll = (e :: rb'.drainAll.1, rb'.drainAll.2) := by
  have hne : rb.tail ≠ rb.head := by
    intro he
    rw [pop, if_pos he] at h
    cases h
  have hrb' : rb' = rb.setTail (rb.tail + 1) := by
    rw [pop, if_neg hne] at h
    cases h
    rfl
  rw [drainAll, toNat_sub_tail hne, drainLoop, h, hrb']
  rfl

/-- The last pass. -/
theorem drainAll_of_pop_none {rb : RingBuf} (h : rb.pop = none) : rb.drainAll = ([], rb) := by
  have he : rb.tail = rb.head := by
    rw [pop] at h
    split_ifs at h with he
    exact he
  rw [drainAll, he, UInt64.sub_self]
  rfl

theorem buf_drainLoop (n : Nat) (rb : RingBuf) : (drainLoop n rb).2.buf = rb.buf := by
  induction n generalizing rb with
  | zero => rfl
  | succ n ih =>
      rw [drainLoop, pop]
      by_cases h : rb.tail = rb.head
      · rw [if_pos h]
      · rw [if_neg h]
        exact ih (rb.setTail (rb.tail + 1))

theorem buf_drainAll (rb : RingBuf) : rb.drainAll.2.buf = rb.buf := buf_drainLoop _ rb

/-- A drain returns what the slots hold. -/
theorem mem_drainLoop {n : Nat} {rb : RingBuf} {e : Event} (h : e ∈ (drainLoop n rb).1) :
    e ∈ rb.buf := by
  induction n generalizing rb with
  | zero => cases h
  | succ n ih =>
      rw [drainLoop, pop] at h
      by_cases ht : rb.tail = rb.head
      · rw [if_pos ht] at h
        cases h
      · rw [if_neg ht] at h
        rcases List.mem_cons.mp h with he | he
        · have hlt := rb.index_lt rb.tail
          rw [he, slot, List.getD_eq_getElem _ _ hlt]
          exact List.getElem_mem hlt
        · exact @ih (rb.setTail (rb.tail + 1)) he

theorem mem_drainAll {rb : RingBuf} {e : Event} (h : e ∈ rb.drainAll.1) : e ∈ rb.buf :=
  mem_drainLoop h

theorem mem_buf_push {rb rb' : RingBuf} {e x : Event} (h : rb.push e = some rb')
    (hx : x ∈ rb'.buf) : x = e ∨ x ∈ rb.buf := by
  rw [push] at h
  split_ifs at h
  cases h
  rcases List.mem_or_eq_of_mem_set hx with hx | hx
  · exact Or.inr hx
  · exact Or.inl hx

end RingBuf

/-- `NewRingBuf`. -/
def newRingBuf (capacity : Int) : RingBuf :=
  let log := Nat.log2 (nextPow2 capacity)
  have hpow : ∃ j, j ≤ 62 ∧ nextPow2 capacity = 2 ^ j := nextPow2_pow capacity
  have hlog : log ≤ 62 ∧ nextPow2 capacity = 2 ^ log := by
    obtain ⟨j, hj, he⟩ := hpow
    have hl : log = j := by
      show Nat.log2 (nextPow2 capacity) = j
      rw [he, Nat.log2_two_pow]
    rw [hl]
    exact ⟨hj, he⟩
  { buf := List.replicate (nextPow2 capacity) zeroEvent
    mask := UInt64.ofNat (nextPow2 capacity - 1)
    head := 0
    tail := 0
    log := log
    log_le := hlog.1
    length_buf := by rw [List.length_replicate, hlog.2]
    mask_eq := by
      have hle : 2 ^ log ≤ 2 ^ 62 := Nat.pow_le_pow_right (by decide) hlog.1
      rw [hlog.2, UInt64.toNat_ofNat_of_lt']
      show 2 ^ log - 1 < 2 ^ 64
      omega }

theorem two_pow_log_newRingBuf (capacity : Int) :
    2 ^ (newRingBuf capacity).log = nextPow2 capacity := by
  rw [← (newRingBuf capacity).length_buf]
  exact List.length_replicate

/-- `DrainAll` leaves the ring empty. -/
theorem drainAll_empty (rb : RingBuf) :
    (RingBuf.drainAll rb).2.tail = (RingBuf.drainAll rb).2.head := by
  induction hn : (rb.head - rb.tail).toNat generalizing rb with
  | zero =>
      have hh := UInt64.toNat_lt rb.head
      have ht := UInt64.toNat_lt rb.tail
      rw [RingBuf.drainAll, hn]
      rw [UInt64.toNat_sub] at hn
      exact UInt64.toNat_inj.mp (by show rb.tail.toNat = rb.head.toNat; omega)
  | succ n ih =>
      have hne : rb.tail ≠ rb.head := by
        intro he
        rw [he, UInt64.sub_self] at hn
        cases hn
      have hpop : rb.pop = some (rb.slot rb.tail, rb.setTail (rb.tail + 1)) := if_neg hne
      rw [RingBuf.drainAll_of_pop hpop]
      refine ih (rb.setTail (rb.tail + 1)) ?_
      have hlen := RingBuf.toNat_sub_tail hne
      show (rb.head - (rb.tail + 1)).toNat = n
      omega

end Bbdb.Ingestion
