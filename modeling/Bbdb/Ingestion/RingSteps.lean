import Bbdb.Ingestion.RingBuf
import Bbdb.Lib.Machine
import Bbdb.Lib.Ring

/-!
# Ingestion — the ring step by step

`RingBuf` has the calls run alone. Here any number of streams are in `Push`
while the writer is in `Pop` or `DrainAll`, and each load, slot access and
store is a step of its own. `pushed` and `popped` are ghosts: the events of
the head stores and of the tail stores, in order.

The ring is correct as long as one `Push` is in progress at a time
(`RingInv`, kept by every step): head and tail are the numbers of pushed and
popped events modulo `2^64`, the popped events are the first pushed ones, and
every event between tail and head lies in its slot. A stale copy of the tail
only makes a producer see less room, a stale copy of the head only makes the
consumer see fewer events.
-/

namespace Bbdb.Ingestion

open Bbdb.Block Bbdb.Ring Bbdb.Machine

/-! ## The machine -/

/-- Where a stream is in `Push`. -/
inductive PushPC
  | idle
  | start (e : Event)
  | loadedHead (e : Event) (head : UInt64)
  | loadedTail (e : Event) (head tail : UInt64)
  | wrote (e : Event) (head : UInt64)
  deriving DecidableEq

/-- Where the writer is in `Pop`. In `DrainAll`, `out` is what the loop has
collected. -/
inductive PopPC
  | idle
  | start (out : Option (List Event))
  | loadedHead (out : Option (List Event)) (head : UInt64)
  | loadedTail (out : Option (List Event)) (head tail : UInt64)
  | read (out : Option (List Event)) (tail : UInt64) (e : Event)
  deriving DecidableEq

structure RingState (ι : Type) where
  rb : RingBuf
  producers : ι → PushPC
  consumer : PopPC
  pushed : List Event
  popped : List Event

inductive RingAct (ι : Type)
  /-- The stream calls `Push`. -/
  | push (i : ι) (e : Event)
  /-- The stream takes the next step of its `Push`. -/
  | next (i : ι)
  /-- The stream finds its context done. -/
  | cancel (i : ι)
  /-- The writer calls `Pop`. -/
  | pop
  /-- The writer calls `DrainAll`. -/
  | drain
  /-- The writer takes the next step of its call. -/
  | take

/-- The next step of a `Push`: the ring, where the call is then, and what it
has pushed. -/
def PushPC.next (rb : RingBuf) : PushPC → Option (RingBuf × PushPC × List Event)
  | .idle => none
  | .start e => some (rb, .loadedHead e rb.head, [])
  | .loadedHead e head => some (rb, .loadedTail e head rb.tail, [])
  | .loadedTail e head tail =>
      if rb.hasRoom head tail then some (rb.setSlot head e, .wrote e head, [])
      -- the context is not done: the loop starts over
      else some (rb, .start e, [])
  | .wrote e head => some (rb.setHead (head + 1), .idle, [e])

/-- The next step of a `Pop`, alone or in the loop of `DrainAll`. -/
def PopPC.next (rb : RingBuf) : PopPC → Option (RingBuf × PopPC × List Event)
  | .idle => none
  | .start out => some (rb, .loadedHead out rb.head, [])
  | .loadedHead out head => some (rb, .loadedTail out head rb.tail, [])
  | .loadedTail out head tail =>
      if tail = head then some (rb, .idle, []) else some (rb, .read out tail (rb.slot tail), [])
  | .read none tail e => some (rb.setTail (tail + 1), .idle, [e])
  | .read (some out) tail e => some (rb.setTail (tail + 1), .start (some (out ++ [e])), [e])

namespace RingState

variable {ι : Type}

/-- No call in progress. -/
def init (ι : Type) (rb : RingBuf) : RingState ι := ⟨rb, fun _ => .idle, .idle, [], []⟩

def step [DecidableEq ι] (s : RingState ι) : RingAct ι → Option (RingState ι)
  | .push i e =>
      if s.producers i = .idle then
        some { s with producers := Function.update s.producers i (.start e) }
      else none
  | .next i =>
      ((s.producers i).next s.rb).map fun r =>
        { s with
          rb := r.1
          producers := Function.update s.producers i r.2.1
          pushed := s.pushed ++ r.2.2 }
  | .cancel i =>
      match s.producers i with
      | .loadedTail _ head tail =>
          if s.rb.hasRoom head tail then none
          else some { s with producers := Function.update s.producers i .idle }
      | _ => none
  | .pop => if s.consumer = .idle then some { s with consumer := .start none } else none
  | .drain => if s.consumer = .idle then some { s with consumer := .start (some []) } else none
  | .take =>
      (s.consumer.next s.rb).map fun r =>
        { s with rb := r.1, consumer := r.2.1, popped := s.popped ++ r.2.2 }

/-- A `Push` starts only when no other one is in progress. -/
def Solo (s : RingState ι) : RingAct ι → Prop
  | .push _ _ => ∀ i, s.producers i = .idle
  | _ => True

end RingState

/-! ## The ring and its counters -/

/-- The ring holds the pushed events that are not popped. -/
structure RingOK (rb : RingBuf) (pushed popped : List Event) : Prop where
  window : Window (rb.buf.getD · zeroEvent) (2 ^ rb.log) pushed popped.length
  head : rb.head = counter pushed.length
  tail : rb.tail = counter popped.length
  popped : popped <+: pushed

theorem RingBuf.two_pow_log_le (rb : RingBuf) : 2 ^ rb.log ≤ 2 ^ 62 :=
  Nat.pow_le_pow_right (by decide) rb.log_le

theorem RingBuf.index_counter (rb : RingBuf) (n : Nat) :
    rb.index (counter n) = n % 2 ^ rb.log := by
  rw [rb.index_eq_mod, toNat_counter_mod (rb.log_le.trans (by decide))]

theorem RingBuf.slot_counter (rb : RingBuf) (n : Nat) :
    rb.slot (counter n) = rb.buf.getD (n % 2 ^ rb.log) zeroEvent := by
  rw [RingBuf.slot, rb.index_counter]

/-- The test of `Push`, on positions. -/
theorem RingBuf.hasRoom_counter (rb : RingBuf) {low high : Nat} (h : low ≤ high)
    (hle : high ≤ low + 2 ^ rb.log) :
    rb.hasRoom (counter high) (counter low) = true ↔ high < low + 2 ^ rb.log := by
  have hlog := rb.two_pow_log_le
  have hlen : (UInt64.ofNat rb.buf.length).toNat = 2 ^ rb.log := by
    rw [rb.length_buf]
    exact UInt64.toNat_ofNat_of_lt' (by show 2 ^ rb.log < 2 ^ 64; omega)
  rw [RingBuf.hasRoom, decide_eq_true_iff, UInt64.lt_iff_toNat_lt, hlen,
    toNat_sub_counter h (by omega)]
  omega

/-- The events between the two counters, oldest first. -/
def RingBuf.contents (rb : RingBuf) : List Event :=
  (List.range (rb.head - rb.tail).toNat).map fun k => rb.slot (rb.tail + counter k)

theorem getD_set_self (l : List Event) {i : Nat} (h : i < l.length) (e d : Event) :
    (l.set i e).getD i d = e := by
  simp [h]

theorem getD_set_ne (l : List Event) {i j : Nat} (h : i ≠ j) (e d : Event) :
    (l.set i e).getD j d = l.getD j d := by
  simp [List.getElem?_set_ne h]

/-- **A `Push` appends its event to what the ring holds.** -/
theorem RingBuf.contents_push {rb rb' : RingBuf} {e : Event} (h : rb.push e = some rb') :
    rb'.contents = rb.contents ++ [e] := by
  rw [RingBuf.push] at h
  split_ifs at h with hroom
  cases h
  have hlog := rb.two_pow_log_le
  -- the counters as positions: `n` events from position `t` on
  obtain ⟨t, ht⟩ : ∃ t, rb.tail = counter t := ⟨rb.tail.toNat, by simp [counter]⟩
  obtain ⟨n, hn⟩ : ∃ n, (rb.head - rb.tail).toNat = n := ⟨_, rfl⟩
  have hhead : rb.head = counter (t + n) := by
    rw [← counter_add, ← ht, ← hn, counter, UInt64.ofNat_toNat, UInt64.add_comm,
      UInt64.sub_add_cancel]
  have hlt : n < 2 ^ rb.log := by
    have hlen : (UInt64.ofNat rb.buf.length).toNat = 2 ^ rb.log := by
      rw [rb.length_buf]
      exact UInt64.toNat_ofNat_of_lt' (by show 2 ^ rb.log < 2 ^ 64; omega)
    rw [RingBuf.hasRoom, decide_eq_true_iff, UInt64.lt_iff_toNat_lt, hlen, hn] at hroom
    exact hroom
  have hcount : (rb.head + 1 - rb.tail).toNat = n + 1 := by
    rw [hhead, ht, counter_succ, toNat_sub_counter (by omega) (by omega)]
    omega
  have hslot : ∀ k, ((rb.setSlot rb.head e).setHead (rb.head + 1)).slot (rb.tail + counter k) =
      (rb.buf.set ((t + n) % 2 ^ rb.log) e).getD ((t + k) % 2 ^ rb.log) zeroEvent := by
    intro k
    rw [ht, hhead, counter_add, RingBuf.slot_counter, ← rb.index_counter (t + n)]
    rfl
  have hold : ∀ k, rb.slot (rb.tail + counter k) =
      rb.buf.getD ((t + k) % 2 ^ rb.log) zeroEvent := by
    intro k
    rw [ht, counter_add, rb.slot_counter]
  show (List.range (rb.head + 1 - rb.tail).toNat).map _ = (List.range _).map _ ++ [e]
  rw [hcount, hn, List.range_succ, List.map_append, List.map_singleton]
  congr 1
  · refine List.map_congr_left fun k hk => ?_
    have hk := List.mem_range.mp hk
    -- an older event is in another slot
    have hne : (t + k) % 2 ^ rb.log ≠ (t + n) % 2 ^ rb.log :=
      mod_ne_of_lt (by omega) (by omega)
    show ((rb.setSlot rb.head e).setHead (rb.head + 1)).slot (rb.tail + counter k) = _
    rw [hslot, hold, getD_set_ne _ hne.symm]
  · show [((rb.setSlot rb.head e).setHead (rb.head + 1)).slot (rb.tail + counter n)] = [e]
    rw [hslot, getD_set_self]
    rw [rb.length_buf]
    exact Nat.mod_lt _ (Nat.two_pow_pos _)

namespace RingOK

variable {rb : RingBuf} {pushed popped : List Event}

/-- The producer writes a slot that holds no event still to be popped. -/
theorem write (h : RingOK rb pushed popped) (hroom : pushed.length < popped.length + 2 ^ rb.log)
    (e : Event) : RingOK (rb.setSlot (counter pushed.length) e) pushed popped := by
  refine ⟨h.window.write hroom fun i hi => ?_, h.head, h.tail, h.popped⟩
  rw [← rb.index_counter] at hi
  exact getD_set_ne _ (Ne.symm hi) e _

theorem slot_write (rb : RingBuf) (n : Nat) (e : Event) :
    (rb.setSlot (counter n) e).buf.getD (n % 2 ^ rb.log) zeroEvent = e := by
  rw [← rb.index_counter]
  exact getD_set_self _ (rb.index_lt _) e _

theorem push (h : RingOK rb pushed popped) (hroom : pushed.length < popped.length + 2 ^ rb.log)
    {e : Event} (he : rb.buf.getD (pushed.length % 2 ^ rb.log) zeroEvent = e) :
    RingOK (rb.setHead (counter pushed.length + 1)) (pushed ++ [e]) popped := by
  refine ⟨h.window.push hroom he, ?_, h.tail, h.popped.trans (List.prefix_append _ _)⟩
  rw [List.length_append]
  exact counter_succ _

theorem pop (h : RingOK rb pushed popped) {e : Event} (he : pushed[popped.length]? = some e) :
    RingOK (rb.setTail (counter popped.length + 1)) pushed (popped ++ [e]) := by
  have hlt : popped.length < pushed.length := (List.getElem?_eq_some_iff.mp he).1
  have hlen : (popped ++ [e]).length = popped.length + 1 := by simp
  refine ⟨?_, h.head, ?_, ?_⟩
  · rw [hlen]
    exact h.window.pop hlt
  · rw [hlen]
    exact counter_succ _
  · obtain ⟨rest, rfl⟩ := h.popped
    rw [List.getElem?_append_right (Nat.le_refl _), Nat.sub_self] at he
    obtain ⟨rest, rfl⟩ : ∃ l, rest = e :: l := by
      cases rest with
      | nil => cases he
      | cons x l =>
          cases he
          exact ⟨l, rfl⟩
    exact ⟨rest, by simp⟩

/-- The counters differ by the number of events in the ring. -/
theorem toNat_sub (h : RingOK rb pushed popped) :
    (rb.head - rb.tail).toNat = pushed.length - popped.length := by
  have hlog := rb.two_pow_log_le
  have hle := h.window.le_size
  rw [h.head, h.tail, toNat_sub_counter h.window.low_le (by omega)]

/-- An empty ring has handed over everything. -/
theorem eq_of_empty (h : RingOK rb pushed popped) (he : rb.tail = rb.head) : popped = pushed := by
  have hlog := rb.two_pow_log_le
  have hle := h.window.le_size
  rw [h.head, h.tail] at he
  exact h.popped.eq_of_length (counter_inj h.window.low_le (by omega) he)

/-! ### Calls run alone -/

theorem push_call (h : RingOK rb pushed popped) {e : Event} {rb' : RingBuf}
    (hp : rb.push e = some rb') : RingOK rb' (pushed ++ [e]) popped := by
  rw [RingBuf.push] at hp
  split_ifs at hp with hroom
  cases hp
  rw [h.head, h.tail, rb.hasRoom_counter h.window.low_le h.window.le_size] at hroom
  rw [h.head]
  exact (h.write hroom e).push hroom (slot_write rb _ e)

theorem pop_call (h : RingOK rb pushed popped) {e : Event} {rb' : RingBuf}
    (hp : rb.pop = some (e, rb')) : RingOK rb' pushed (popped ++ [e]) := by
  rw [RingBuf.pop] at hp
  split_ifs at hp with hne
  cases hp
  have hlt : popped.length < pushed.length := by
    have hle := h.window.low_le
    have hne' : popped.length ≠ pushed.length := by
      intro he
      rw [h.tail, h.head, he] at hne
      exact hne rfl
    omega
  have hget := List.getElem?_eq_getElem hlt
  have hslot : rb.slot rb.tail = pushed[popped.length] := by
    rw [h.tail, rb.slot_counter]
    exact h.window.slot _ _ (Nat.le_refl _) hget
  rw [hslot, h.tail]
  exact h.pop hget

theorem eq_of_pop_none (h : RingOK rb pushed popped) (hp : rb.pop = none) : popped = pushed := by
  rw [RingBuf.pop] at hp
  split_ifs at hp with he
  exact h.eq_of_empty he

theorem drainLoop_call (n : Nat) (h : RingOK rb pushed popped) :
    RingOK (RingBuf.drainLoop n rb).2 pushed (popped ++ (RingBuf.drainLoop n rb).1) := by
  induction n generalizing rb popped with
  | zero =>
      rw [RingBuf.drainLoop, List.append_nil]
      exact h
  | succ n ih =>
      rw [RingBuf.drainLoop]
      cases hp : rb.pop with
      | none =>
          dsimp only
          rw [List.append_nil]
          exact h
      | some r =>
          have hrest := ih (h.pop_call hp)
          rw [List.append_assoc] at hrest
          exact hrest

/-- `DrainAll` hands over events that were pushed. -/
theorem drain_call (h : RingOK rb pushed popped) :
    RingOK rb.drainAll.2 pushed (popped ++ rb.drainAll.1) := h.drainLoop_call _

/-- The slots between the counters hold what is still to be popped. -/
theorem contents_eq (h : RingOK rb pushed popped) :
    rb.contents = pushed.drop popped.length := by
  have hlen : rb.contents.length = pushed.length - popped.length := by
    rw [RingBuf.contents, List.length_map, List.length_range, h.toNat_sub]
  apply List.ext_getElem
  · rw [hlen, List.length_drop]
  · intro k hk hk'
    rw [hlen] at hk
    have hlt : popped.length + k < pushed.length := by omega
    simp only [RingBuf.contents, List.getElem_map, List.getElem_range, List.getElem_drop]
    rw [h.tail, counter_add, rb.slot_counter]
    exact h.window.slot _ _ (Nat.le_add_right _ _) (List.getElem?_eq_getElem hlt)

/-- What was pushed was popped or is in the ring. -/
theorem popped_append_contents (h : RingOK rb pushed popped) :
    popped ++ rb.contents = pushed := by
  rw [h.contents_eq]
  obtain ⟨rest, rfl⟩ := h.popped
  rw [List.drop_left]

end RingOK

/-! ## What each thread knows -/

/-- What a `Push` can rely on when no other one is in progress. -/
def PushOK (rb : RingBuf) (pushed popped : List Event) : PushPC → Prop
  | .idle => True
  | .start _ => True
  | .loadedHead _ head => head = counter pushed.length
  | .loadedTail _ head tail =>
      head = counter pushed.length ∧
        ∃ low, low ≤ popped.length ∧ pushed.length ≤ low + 2 ^ rb.log ∧ tail = counter low
  | .wrote e head =>
      head = counter pushed.length ∧ pushed.length < popped.length + 2 ^ rb.log ∧
        rb.buf.getD (pushed.length % 2 ^ rb.log) zeroEvent = e

/-- What the consumer can rely on. -/
def PopOK (pushed popped : List Event) : PopPC → Prop
  | .idle => True
  | .start _ => True
  | .loadedHead _ head =>
      ∃ high, popped.length ≤ high ∧ high ≤ pushed.length ∧ head = counter high
  | .loadedTail _ head tail =>
      (∃ high, popped.length ≤ high ∧ high ≤ pushed.length ∧ head = counter high) ∧
        tail = counter popped.length
  | .read _ tail e => tail = counter popped.length ∧ pushed[popped.length]? = some e

section
variable {rb rb' : RingBuf} {pushed popped es : List Event}

/-- The consumer's steps do not disturb a `Push`. -/
theorem PushOK.mono {pc : PushPC} (h : PushOK rb pushed popped pc) (hlog : rb'.log = rb.log)
    (hbuf : rb'.buf = rb.buf) (es : List Event) : PushOK rb' pushed (popped ++ es) pc := by
  have hlen : popped.length ≤ (popped ++ es).length := by simp
  cases pc with
  | idle => trivial
  | start e => trivial
  | loadedHead e head => exact h
  | loadedTail e head tail =>
      obtain ⟨hhead, low, hlow, hle, htail⟩ := h
      exact ⟨hhead, low, hlow.trans hlen, by rw [hlog]; exact hle, htail⟩
  | wrote e head =>
      obtain ⟨hhead, hroom, he⟩ := h
      rw [PushOK, hlog, hbuf]
      exact ⟨hhead, by omega, he⟩

/-- A producer's steps do not disturb the consumer. -/
theorem PopOK.mono {pc : PopPC} (h : PopOK pushed popped pc) (es : List Event) :
    PopOK (pushed ++ es) popped pc := by
  have hlen : pushed.length ≤ (pushed ++ es).length := by simp
  cases pc with
  | idle => trivial
  | start out => trivial
  | loadedHead out head =>
      obtain ⟨high, hlow, hhigh, hhead⟩ := h
      exact ⟨high, hlow, hhigh.trans hlen, hhead⟩
  | loadedTail out head tail =>
      obtain ⟨⟨high, hlow, hhigh, hhead⟩, htail⟩ := h
      exact ⟨⟨high, hlow, hhigh.trans hlen, hhead⟩, htail⟩
  | read out tail e =>
      obtain ⟨htail, he⟩ := h
      refine ⟨htail, ?_⟩
      rw [List.getElem?_append_left (List.getElem?_eq_some_iff.mp he).1, he]

theorem PushPC.next_log {pc pc' : PushPC} (hn : pc.next rb = some (rb', pc', es)) :
    rb'.log = rb.log := by
  cases pc with
  | idle => cases hn
  | start e =>
      cases hn
      rfl
  | loadedHead e head =>
      cases hn
      rfl
  | loadedTail e head tail =>
      rw [PushPC.next] at hn
      split_ifs at hn
      · cases hn
        rfl
      · cases hn
        rfl
  | wrote e head =>
      cases hn
      rfl

/-- The consumer writes no slot. -/
theorem PopPC.next_fixed {pc pc' : PopPC} (hn : pc.next rb = some (rb', pc', es)) :
    rb'.log = rb.log ∧ rb'.buf = rb.buf := by
  cases pc with
  | idle => cases hn
  | start out =>
      cases hn
      exact ⟨rfl, rfl⟩
  | loadedHead out head =>
      cases hn
      exact ⟨rfl, rfl⟩
  | loadedTail out head tail =>
      rw [PopPC.next] at hn
      split_ifs at hn
      · cases hn
        exact ⟨rfl, rfl⟩
      · cases hn
        exact ⟨rfl, rfl⟩
  | read out tail e =>
      cases out with
      | none =>
          cases hn
          exact ⟨rfl, rfl⟩
      | some out =>
          cases hn
          exact ⟨rfl, rfl⟩

/-- **A step of the only `Push` in progress** keeps the ring in order. -/
theorem PushPC.next_ok {pc pc' : PushPC} (h : RingOK rb pushed popped)
    (hpc : PushOK rb pushed popped pc) (hn : pc.next rb = some (rb', pc', es)) :
    RingOK rb' (pushed ++ es) popped ∧ PushOK rb' (pushed ++ es) popped pc' := by
  cases pc with
  | idle => cases hn
  | start e =>
      cases hn
      rw [List.append_nil]
      exact ⟨h, h.head⟩
  | loadedHead e head =>
      cases hn
      rw [List.append_nil]
      exact ⟨h, hpc, popped.length, Nat.le_refl _, h.window.le_size, h.tail⟩
  | loadedTail e head tail =>
      obtain ⟨rfl, low, hlow, hle, rfl⟩ := hpc
      have hroom := rb.hasRoom_counter (hlow.trans h.window.low_le) hle
      rw [PushPC.next] at hn
      split_ifs at hn with hr
      · cases hn
        -- the copy of the tail may be old: there is at least the room it shows
        have hlt : pushed.length < popped.length + 2 ^ rb.log := by
          have := hroom.mp hr
          omega
        rw [List.append_nil]
        exact ⟨h.write hlt e, rfl, hlt, RingOK.slot_write rb _ e⟩
      · cases hn
        rw [List.append_nil]
        exact ⟨h, trivial⟩
  | wrote e head =>
      obtain ⟨rfl, hroom, he⟩ := hpc
      cases hn
      exact ⟨h.push hroom he, trivial⟩

/-- **A step of the consumer** keeps the ring in order. -/
theorem PopPC.next_ok {pc pc' : PopPC} (h : RingOK rb pushed popped)
    (hpc : PopOK pushed popped pc) (hn : pc.next rb = some (rb', pc', es)) :
    RingOK rb' pushed (popped ++ es) ∧ PopOK pushed (popped ++ es) pc' := by
  cases pc with
  | idle => cases hn
  | start out =>
      cases hn
      rw [List.append_nil]
      exact ⟨h, ⟨pushed.length, h.window.low_le, Nat.le_refl _, h.head⟩⟩
  | loadedHead out head =>
      cases hn
      rw [List.append_nil]
      exact ⟨h, ⟨hpc, h.tail⟩⟩
  | loadedTail out head tail =>
      obtain ⟨⟨high, hlow, hhigh, rfl⟩, rfl⟩ := hpc
      rw [PopPC.next] at hn
      split_ifs at hn with he
      · cases hn
        rw [List.append_nil]
        exact ⟨h, trivial⟩
      · cases hn
        -- the copy of the head may be old: at least the events it shows are there
        have hne : popped.length ≠ high := fun heq => he (by rw [heq])
        have hlt : popped.length < pushed.length := by omega
        have hget := List.getElem?_eq_getElem hlt
        rw [List.append_nil, rb.slot_counter]
        refine ⟨h, ⟨rfl, ?_⟩⟩
        rw [hget, ← h.window.slot _ _ (Nat.le_refl _) hget]
  | read out tail e =>
      obtain ⟨rfl, he⟩ := hpc
      cases out with
      | none =>
          cases hn
          exact ⟨h.pop he, trivial⟩
      | some out =>
          cases hn
          exact ⟨h.pop he, trivial⟩

end

/-! ## The invariant -/

/-- The ring is in order and at most one `Push` is in progress. -/
structure RingInv {ι : Type} (s : RingState ι) : Prop where
  ring : RingOK s.rb s.pushed s.popped
  alone : ∀ i j, s.producers i ≠ .idle → s.producers j ≠ .idle → i = j
  producer : ∀ i, PushOK s.rb s.pushed s.popped (s.producers i)
  consumer : PopOK s.pushed s.popped s.consumer

theorem ringOK_newRingBuf (capacity : Int) : RingOK (newRingBuf capacity) [] [] :=
  ⟨window_empty _ _, rfl, rfl, List.prefix_refl _⟩

theorem ringInv_init (ι : Type) (capacity : Int) :
    RingInv (RingState.init ι (newRingBuf capacity)) :=
  ⟨ringOK_newRingBuf capacity, fun _ _ hi => absurd rfl hi, fun _ => trivial, trivial⟩

section
variable {ι : Type} {s s' : RingState ι}

theorem RingInv.others (h : RingInv s) {i : ι} (hi : s.producers i ≠ .idle) :
    ∀ j, j ≠ i → s.producers j = .idle := by
  intro j hj
  by_contra hne
  exact hj (h.alone j i hne hi)

variable [DecidableEq ι]

/-- One stream moves and all the others stay idle. -/
theorem update_alone {producers : ι → PushPC} {i : ι}
    (h : ∀ j, j ≠ i → producers j = .idle) (pc : PushPC) :
    ∀ j k, Function.update producers i pc j ≠ .idle → Function.update producers i pc k ≠ .idle →
      j = k := by
  have key : ∀ j, Function.update producers i pc j ≠ .idle → j = i := by
    intro j hj
    by_contra hne
    rw [Function.update_of_ne hne] at hj
    exact hj (h j hne)
  intro j k hj hk
  rw [key j hj, key k hk]

/-- The invariant after the step of one stream. -/
theorem RingInv.update (h : RingInv s) {i : ι} (hothers : ∀ j, j ≠ i → s.producers j = .idle)
    {rb : RingBuf} {pc : PushPC} {es : List Event} (hring : RingOK rb (s.pushed ++ es) s.popped)
    (hpc : PushOK rb (s.pushed ++ es) s.popped pc) :
    RingInv { s with
      rb := rb, producers := Function.update s.producers i pc, pushed := s.pushed ++ es } := by
  refine ⟨hring, update_alone hothers pc, fun j => ?_, h.consumer.mono es⟩
  show PushOK rb (s.pushed ++ es) s.popped (Function.update s.producers i pc j)
  by_cases hj : j = i
  · subst hj
    rw [Function.update_self]
    exact hpc
  · rw [Function.update_of_ne hj, hothers j hj]
    trivial

/-- **Step lemma.** -/
theorem RingInv.step (h : RingInv s) {a : RingAct ι} (hsolo : s.Solo a)
    (hstep : s.step a = some s') : RingInv s' := by
  cases a with
  | push i e =>
      rw [RingState.step] at hstep
      split_ifs at hstep
      cases hstep
      have hring := h.ring
      rw [← List.append_nil s.pushed] at hring
      have hinv := h.update (fun j _ => hsolo j) (i := i) hring
        (show PushOK _ _ _ (.start e) from trivial)
      rwa [List.append_nil] at hinv
  | next i =>
      obtain ⟨⟨rb, pc, es⟩, hn, rfl⟩ := Option.map_eq_some_iff.mp hstep
      have hi : s.producers i ≠ .idle := by
        intro hi
        rw [hi] at hn
        cases hn
      obtain ⟨hring, hpc⟩ := PushPC.next_ok h.ring (h.producer i) hn
      exact h.update (h.others hi) hring hpc
  | cancel i =>
      rw [RingState.step] at hstep
      split at hstep
      case h_2 => cases hstep
      next e head tail hpc =>
        split_ifs at hstep
        cases hstep
        have hi : s.producers i ≠ .idle := by
          rw [hpc]
          exact PushPC.noConfusion
        have hring := h.ring
        rw [← List.append_nil s.pushed] at hring
        have hinv := h.update (h.others hi) hring (show PushOK _ _ _ .idle from trivial)
        rwa [List.append_nil] at hinv
  | pop =>
      rw [RingState.step] at hstep
      split_ifs at hstep
      cases hstep
      exact ⟨h.ring, h.alone, h.producer, trivial⟩
  | drain =>
      rw [RingState.step] at hstep
      split_ifs at hstep
      cases hstep
      exact ⟨h.ring, h.alone, h.producer, trivial⟩
  | take =>
      obtain ⟨⟨rb, pc, es⟩, hn, rfl⟩ := Option.map_eq_some_iff.mp hstep
      obtain ⟨hring, hpc⟩ := PopPC.next_ok h.ring h.consumer hn
      obtain ⟨hlog, hbuf⟩ := PopPC.next_fixed hn
      exact ⟨hring, h.alone, fun i => (h.producer i).mono hlog hbuf es, hpc⟩

/-- The capacity is fixed. -/
theorem RingState.log_step {a : RingAct ι} (hstep : s.step a = some s') :
    s'.rb.log = s.rb.log := by
  cases a with
  | push i e =>
      rw [RingState.step] at hstep
      split_ifs at hstep
      cases hstep
      rfl
  | next i =>
      obtain ⟨⟨rb, pc, es⟩, hn, rfl⟩ := Option.map_eq_some_iff.mp hstep
      exact PushPC.next_log hn
  | cancel i =>
      rw [RingState.step] at hstep
      split at hstep
      case h_2 => cases hstep
      split_ifs at hstep
      cases hstep
      rfl
  | pop =>
      rw [RingState.step] at hstep
      split_ifs at hstep
      cases hstep
      rfl
  | drain =>
      rw [RingState.step] at hstep
      split_ifs at hstep
      cases hstep
      rfl
  | take =>
      obtain ⟨⟨rb, pc, es⟩, hn, rfl⟩ := Option.map_eq_some_iff.mp hstep
      exact (PopPC.next_fixed hn).1

/-- **Run lemma.** -/
theorem ringInv_of_reach {capacity : Int}
    (h : Reachable RingState.step RingState.Solo (RingState.init ι (newRingBuf capacity)) s) :
    RingInv s :=
  h.invariant (ringInv_init ι capacity) fun _ _ _ hinv hc hs => hinv.step hc hs

theorem two_pow_log_of_reach {capacity : Int} {cond : RingState ι → RingAct ι → Prop}
    (h : Reachable RingState.step cond (RingState.init ι (newRingBuf capacity)) s) :
    2 ^ s.rb.log = nextPow2 capacity := by
  induction h with
  | start => exact two_pow_log_newRingBuf capacity
  | step _ _ hs ih => rw [RingState.log_step hs, ih]

end

/-! ## One producer -/

/-- With one stream there is never another `Push` in progress. -/
theorem solo_unit {s s' : RingState Unit} {a : RingAct Unit} (h : s.step a = some s') :
    s.Solo a := by
  cases a with
  | push i e =>
      rw [RingState.step] at h
      split_ifs at h with hi
      exact fun _ => hi
  | next i => trivial
  | cancel i => trivial
  | pop => trivial
  | drain => trivial
  | take => trivial

theorem RingOK.index_ne {rb : RingBuf} {pushed popped : List Event} (h : RingOK rb pushed popped)
    (hroom : pushed.length < popped.length + 2 ^ rb.log) {k : Nat}
    (hk : k < (rb.head - rb.tail).toNat) :
    rb.index (rb.tail + UInt64.ofNat k) ≠ rb.index (counter pushed.length) := by
  rw [h.toNat_sub] at hk
  rw [h.tail, show counter popped.length + UInt64.ofNat k = _ from counter_add _ _,
    rb.index_counter, rb.index_counter]
  exact mod_ne_of_lt (by omega) (by omega)

/-- **One producer and one consumer.** For every capacity that `nextPow2` can
round up, in every state of every interleaving and however often the counters
have wrapped: the popped events are the first of the pushed ones, the ring
never holds more than its capacity, the slots from tail to head hold the
events in between, and a producer about to write writes none of those. -/
theorem ring_single_producer {capacity : Int} (h1 : 1 ≤ capacity) (h2 : capacity ≤ 2 ^ 62)
    {s : RingState Unit}
    (hrun : Reachable RingState.step always (RingState.init Unit (newRingBuf capacity)) s) :
    s.popped <+: s.pushed ∧
      (s.rb.head - s.rb.tail).toNat ≤ nextPow2 capacity ∧
      (∃ j, nextPow2 capacity = 2 ^ j ∧ capacity ≤ 2 ^ j ∧ 2 ^ j < 2 * capacity) ∧
      (∀ k, k < (s.rb.head - s.rb.tail).toNat →
        s.pushed[s.popped.length + k]? = some (s.rb.slot (s.rb.tail + UInt64.ofNat k))) ∧
      ∀ e head tail, s.producers () = .loadedTail e head tail → s.rb.hasRoom head tail = true →
        ∀ k, k < (s.rb.head - s.rb.tail).toNat →
          s.rb.index (s.rb.tail + UInt64.ofNat k) ≠ s.rb.index head := by
  have hsolo : Reachable RingState.step RingState.Solo
      (RingState.init Unit (newRingBuf capacity)) s := by
    clear h1 h2
    induction hrun with
    | start => exact .start
    | step _ _ hs ih => exact ih.step (solo_unit hs) hs
  have hinv := ringInv_of_reach hsolo
  have hlog := two_pow_log_of_reach hrun
  have hlow := hinv.ring.window.low_le
  have hsize := hinv.ring.window.le_size
  refine ⟨hinv.ring.popped, ?_, ?_, fun k hk => ?_, fun e head tail hpc hroom k hk => ?_⟩
  · rw [hinv.ring.toNat_sub]
    omega
  · obtain ⟨j, _, hj⟩ := nextPow2_pow capacity
    have hspec := nextPow2_spec h1 h2
    rw [hj] at hspec
    push_cast at hspec
    exact ⟨j, hj, hspec⟩
  · rw [hinv.ring.toNat_sub] at hk
    have hget := List.getElem?_eq_getElem (show s.popped.length + k < s.pushed.length by omega)
    rw [hinv.ring.tail, show counter s.popped.length + UInt64.ofNat k = _ from counter_add _ _,
      s.rb.slot_counter, hget, ← hinv.ring.window.slot _ _ (Nat.le_add_right _ _) hget]
  · have hok := hinv.producer ()
    rw [hpc] at hok
    obtain ⟨rfl, low, hle, hcap, rfl⟩ := hok
    have hlt := (s.rb.hasRoom_counter (hle.trans hlow) hcap).mp hroom
    exact hinv.ring.index_ne (by omega) hk

/-- Two events, told apart by their payloads. -/
def eventA : Event := ⟨1, 0, [1]⟩
def eventB : Event := ⟨1, 0, [2]⟩

/-- A full push, a full pop and the first steps of another push. -/
def oneStream : List (RingAct Unit) :=
  [.push () eventA, .next (), .next (), .next (), .next (), .pop, .take, .take,
   .push () eventB, .next (), .take, .take, .next ()]

theorem ring_single_producer_oneStream :
    ∃ s, Reachable RingState.step always (RingState.init Unit (newRingBuf 1)) s ∧
      s.producers () = .loadedTail eventB 1 1 ∧ s.pushed = [eventA] ∧ s.popped = [eventA] ∧
      s.popped <+: s.pushed ∧ (s.rb.head - s.rb.tail).toNat ≤ nextPow2 1 := by
  obtain ⟨s, hrun, hs⟩ := exists_reach_of_run RingState.step always
    (RingState.init Unit (newRingBuf 1)) oneStream
    (fun s => decide (s.producers () = .loadedTail eventB 1 1 ∧ s.pushed = [eventA] ∧
      s.popped = [eventA])) (by decide +kernel)
  obtain ⟨hpc, hpush, hpop⟩ := of_decide_eq_true hs
  obtain ⟨hpre, hle, -⟩ := ring_single_producer (by decide) (by decide) hrun
  exact ⟨s, hrun, hpc, hpush, hpop, hpre, hle⟩

/-! ## Many producers -/

namespace RingState

variable {ι : Type}

/-- Every `Push` has returned and the writer has found the ring empty. -/
def Quiet (s : RingState ι) : Prop :=
  (∀ i, s.producers i = .idle) ∧ s.consumer = .idle ∧ s.rb.tail = s.rb.head

instance (s : RingState Bool) : Decidable s.Quiet :=
  inferInstanceAs (Decidable ((∀ i, s.producers i = .idle) ∧ _))

instance (s : RingState Bool) (a : RingAct Bool) : Decidable (s.Solo a) :=
  match a with
  | .push _ _ => inferInstanceAs (Decidable (∀ i, s.producers i = .idle))
  | .next _ => isTrue trivial
  | .cancel _ => isTrue trivial
  | .pop => isTrue trivial
  | .drain => isTrue trivial
  | .take => isTrue trivial

end RingState

/-- **No event is lost** while the streams take turns: in every run in which a
`Push` starts only when no other one is in progress, an emptied ring has
handed over exactly the events it was given. -/
theorem ring_no_event_lost {ι : Type} [DecidableEq ι] {capacity : Int} {s : RingState ι}
    (hrun : Reachable RingState.step RingState.Solo (RingState.init ι (newRingBuf capacity)) s)
    (hquiet : s.Quiet) : s.popped.Perm s.pushed := by
  have hinv := ringInv_of_reach hrun
  rw [hinv.ring.eq_of_empty hquiet.2.2]

/-- Two streams push one event each, in turn. -/
def inTurn : List (RingAct Bool) :=
  [.push false eventA, .next false, .next false, .next false, .next false,
   .push true eventB, .next true, .next true, .next true, .next true]

/-- Two streams push one event each, step by step together. -/
def together : List (RingAct Bool) :=
  [.push false eventA, .push true eventB, .next false, .next true, .next false, .next true,
   .next false, .next true, .next false, .next true]

/-- `n` steps of the writer. -/
def takes (n : Nat) : List (RingAct Bool) := List.replicate n .take

theorem ring_no_event_lost_inTurn :
    ∃ s, Reachable RingState.step RingState.Solo (RingState.init Bool (newRingBuf 2)) s ∧ s.Quiet ∧
      s.pushed = [eventA, eventB] ∧ s.popped.Perm s.pushed := by
  obtain ⟨s, hrun, hs⟩ := exists_reach_of_run RingState.step RingState.Solo
    (RingState.init Bool (newRingBuf 2)) (inTurn ++ [.drain] ++ takes 11)
    (fun s => decide (s.Quiet ∧ s.pushed = [eventA, eventB])) (by decide +kernel)
  obtain ⟨hq, hp⟩ := of_decide_eq_true hs
  exact ⟨s, hrun, hq, hp, ring_no_event_lost hrun hq⟩

/-- Both streams load the same head, write the same slot and store the same
head: both calls return nil and one event is gone. -/
theorem ring_loses_event :
    ∃ s, Reachable RingState.step always (RingState.init Bool (newRingBuf 2)) s ∧ s.Quiet ∧
      s.pushed = [eventA, eventB] ∧ s.popped = [eventB] ∧ ¬ s.popped.Perm s.pushed := by
  obtain ⟨s, hrun, hs⟩ := exists_reach_of_run RingState.step always
    (RingState.init Bool (newRingBuf 2)) (together ++ [.drain] ++ takes 7)
    (fun s => decide (s.Quiet ∧ s.pushed = [eventA, eventB] ∧ s.popped = [eventB]))
    (by decide +kernel)
  obtain ⟨hq, hp, hpop⟩ := of_decide_eq_true hs
  refine ⟨s, hrun, hq, hp, hpop, ?_⟩
  rw [hp, hpop]
  intro hperm
  exact absurd hperm.length_eq (by decide)

end Bbdb.Ingestion
