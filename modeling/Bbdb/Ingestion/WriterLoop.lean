import Bbdb.Ingestion.RingSteps

/-!
# Ingestion — the loop of a writer

What `ShardWriter.run` does with the events of its ring, and nothing of where
it puts them: in its `select` the writer takes a tick or the stop signal; it
pops until the ring is empty; it processes what it has popped, one event after
the other; and after the flush that follows the stop signal it is done.

An event that was pushed is in the ring, popped, or processed, and in that
order (`LiveWriter.OK`). The final drain has left the ring empty, so a stopped
writer has processed everything that was pushed before it.
-/

namespace Bbdb.Ingestion

open Bbdb.Block

/-- Where a writer is in `run`: in its `select`, draining the ring, processing
what it has drained, or done. `final` is the flush after the stop signal. -/
inductive FlushPC
  | idle
  | draining (final : Bool) (out : List Event)
  | processing (final : Bool) (rest : List Event)
  | stopped
  deriving DecidableEq

/-- Drained and not yet processed. -/
def FlushPC.pending : FlushPC → List Event
  | .draining _ out => out
  | .processing _ rest => rest
  | _ => []

/-- The final drain has found the ring empty. -/
def FlushPC.closed : FlushPC → Bool
  | .processing final _ => final
  | .stopped => true
  | _ => false

structure LiveWriter where
  ring : RingBuf
  /-- The stop channel is closed. -/
  stopCh : Bool
  pc : FlushPC
  pushed : List Event
  popped : List Event
  processed : List Event

inductive WriterAct
  | tick
  | wake
  | work
  deriving DecidableEq

namespace LiveWriter

def fresh (capacity : Int) : LiveWriter := ⟨newRingBuf capacity, false, .idle, [], [], []⟩

/-- The writer's goroutine: a tick, the stop signal, or the next step of the
flush. -/
def step (lw : LiveWriter) : WriterAct → Option LiveWriter
  | .tick => if lw.pc = .idle then some { lw with pc := .draining false [] } else none
  | .wake =>
      if lw.pc = .idle ∧ lw.stopCh then some { lw with pc := .draining true [] } else none
  | .work =>
      match lw.pc with
      | .idle => none
      | .draining final out =>
          match lw.ring.pop with
          | some (e, rb) =>
              some { lw with
                ring := rb, pc := .draining final (out ++ [e]), popped := lw.popped ++ [e] }
          | none => some { lw with pc := .processing final out }
      | .processing final (e :: rest) =>
          some { lw with pc := .processing final rest, processed := lw.processed ++ [e] }
      | .processing false [] => some { lw with pc := .idle }
      | .processing true [] => some { lw with pc := .stopped }
      | .stopped => none

/-- `Push`. -/
def push (lw : LiveWriter) (e : Event) : Option LiveWriter :=
  (lw.ring.push e).map fun rb => { lw with ring := rb, pushed := lw.pushed ++ [e] }

/-- `close(sw.stopCh)`. -/
def close (lw : LiveWriter) : LiveWriter := { lw with stopCh := true }

/-- Every event is in the ring, drained, or processed, in order; after the
final drain the ring is empty. -/
structure OK (lw : LiveWriter) : Prop where
  ring : RingOK lw.ring lw.pushed lw.popped
  split : lw.popped = lw.processed ++ lw.pc.pending
  closed : lw.pc.closed = true → lw.popped = lw.pushed

variable {lw lw' : LiveWriter}

theorem ok_fresh (capacity : Int) : (fresh capacity).OK :=
  ⟨ringOK_newRingBuf capacity, rfl, fun h => by cases h⟩

/-- **Step lemma** of the loop. -/
theorem OK.step (h : lw.OK) {a : WriterAct} (hs : lw.step a = some lw') :
    lw'.OK ∧ lw'.pushed = lw.pushed := by
  cases a with
  | tick =>
      rw [LiveWriter.step] at hs
      split_ifs at hs with hi
      cases hs
      have hsplit := h.split
      rw [hi] at hsplit
      exact ⟨⟨h.ring, hsplit, fun hc => by cases hc⟩, rfl⟩
  | wake =>
      rw [LiveWriter.step] at hs
      split_ifs at hs with hi
      cases hs
      have hsplit := h.split
      rw [hi.1] at hsplit
      exact ⟨⟨h.ring, hsplit, fun hc => by cases hc⟩, rfl⟩
  | work =>
      obtain ⟨hring, hsplit, hclosed⟩ := h
      rw [LiveWriter.step] at hs
      split at hs
      case h_1 => cases hs
      case h_2 final out hpc =>
        rw [hpc] at hsplit
        split at hs
        · rename_i e rb hpop
          cases hs
          refine ⟨⟨hring.pop_call hpop, ?_, fun hc => by cases hc⟩, rfl⟩
          show lw.popped ++ [e] = lw.processed ++ (out ++ [e])
          rw [hsplit]
          exact List.append_assoc ..
        · rename_i hpop
          cases hs
          exact ⟨⟨hring, hsplit, fun _ => hring.eq_of_pop_none hpop⟩, rfl⟩
      case h_3 final e rest hpc =>
        cases hs
        rw [hpc] at hsplit hclosed
        refine ⟨⟨hring, ?_, hclosed⟩, rfl⟩
        show lw.popped = lw.processed ++ [e] ++ rest
        rw [hsplit, List.append_assoc]
        rfl
      case h_4 hpc =>
        cases hs
        rw [hpc] at hsplit
        exact ⟨⟨hring, hsplit, fun hc => by cases hc⟩, rfl⟩
      case h_5 hpc =>
        cases hs
        rw [hpc] at hsplit hclosed
        exact ⟨⟨hring, hsplit, hclosed⟩, rfl⟩
      case h_6 => cases hs

/-- A `Push` before the final drain is over. -/
theorem OK.push (h : lw.OK) {e : Event} (hs : lw.push e = some lw') (hopen : lw.pc.closed = false) :
    lw'.OK := by
  obtain ⟨rb, hrb, rfl⟩ := Option.map_eq_some_iff.mp hs
  refine ⟨h.ring.push_call hrb, h.split, fun hc => ?_⟩
  change lw.pc.closed = true at hc
  rw [hopen] at hc
  cases hc

theorem OK.close (h : lw.OK) : lw.close.OK := ⟨h.ring, h.split, h.closed⟩

/-- A stopped writer has processed everything. -/
theorem OK.processed_of_stopped (h : lw.OK) (hpc : lw.pc = .stopped) : lw.processed = lw.pushed := by
  have hsplit := h.split
  have hclosed := h.closed
  rw [hpc] at hsplit hclosed
  rw [← hclosed rfl, hsplit]
  exact (List.append_nil _).symm

theorem step_stopped (hpc : lw.pc = .stopped) (a : WriterAct) : lw.step a = none := by
  cases a with
  | tick => simp [LiveWriter.step, hpc]
  | wake => simp [LiveWriter.step, hpc]
  | work => simp [LiveWriter.step, hpc]

end LiveWriter

end Bbdb.Ingestion
