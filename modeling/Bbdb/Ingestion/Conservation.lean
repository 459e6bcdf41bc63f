import Bbdb.Ingestion.Sealed
import Bbdb.Ingestion.WriterLoop
import Bbdb.Meta.WalHistory

/-!
# Ingestion — where the events of a shard are

A writer hands its events from one container to the next: ring, drained
slice, WAL and memtable, sealed block. `WriterRun` is a writer at work on the
machine, one `Push`, one `Pop`, one processed event or one check of the seal
triggers at a time; streams push while it drains, and whatever else runs on
the machine moves in between, as long as it leaves the WAL of this shard
alone. Here `WALAppend` and `Seal` succeed.

Its loop is the one of `LiveWriter` (`WriterStep.live`), which already says
what is pushed, drained and processed. What is new is where processed events
go: to the memtable, from there to a block (`WriterInv.rows`), and each row of
the memtable also lies in the WAL. The last rows have the last sequence
numbers (`Covered`), so an append overwrites the entry of none of them, even
where the counter wraps.
-/

namespace Bbdb.Ingestion

open Bbdb.Meta Bbdb.Block Bbdb.Bytes Bbdb.Ring
open Prog hiding pure bind

/-! ## Rows and WAL entries -/

/-- The last sequence number that was handed out. -/
def lastSeq (shard : ShardID) (m : KV) : Option UInt64 :=
  (m.get (walSeqKey shard)).map getUint64

theorem freshSeq_of_lastSeq {shard : ShardID} {m : KV} {c : UInt64}
    (h : lastSeq shard m = some c) : freshSeq shard m = c + 1 := by
  obtain ⟨val, hval, rfl⟩ := Option.map_eq_some_iff.mp h
  rw [freshSeq, hval]

/-- The row `k` places before the last lies in the WAL, under the number `k`
before the last. -/
def Covered (libs : Libs) (shard : ShardID) (m : KV) (rows : List Event) : Prop :=
  ∀ k e, rows.reverse[k]? = some e → ∃ q d, lastSeq shard m = some (q + counter k) ∧
    m.get (walKey shard q) = some d ∧ libs.unmarshal d = some e

/-- From `w` to `w'` the WAL of the shard is the same. -/
structure SameWal (shard : ShardID) (w w' : World) : Prop where
  seq : w'.db.view.get (walSeqKey shard) = w.db.view.get (walSeqKey shard)
  entry : ∀ q, w'.db.view.get (walKey shard q) = w.db.view.get (walKey shard q)

section Covered

variable {libs : Libs} {shard : ShardID} {w w' : World} {rows : List Event}

theorem covered_nil (m : KV) : Covered libs shard m [] := by
  intro k e h
  cases h

theorem Covered.same (h : Covered libs shard w.db.view rows) (hs : SameWal shard w w') :
    Covered libs shard w'.db.view rows := by
  intro k e hk
  obtain ⟨q, d, hq, hd, hu⟩ := h k e hk
  refine ⟨q, d, ?_, (hs.entry q).trans hd, hu⟩
  rw [lastSeq, hs.seq]
  exact hq

/-- **An append covers the new row, and keeps the others covered.** -/
theorem Covered.append (h : Covered libs shard w.db.view rows) (hlen : rows.length < 2 ^ 63)
    {e : Event} {data : Bytes} (hu : libs.unmarshal data = some e) {ws : List World} {u : Unit}
    (hrun : Runs sem (walAppend shard data).run w ws (.ok u) w') :
    Covered libs shard w'.db.view (rows ++ [e]) := by
  obtain rfl := runs_walAppend_ok hrun
  generalize hc : freshSeq shard w.db.view = c
  -- the new counter, and the entries
  have hlast : lastSeq shard ((w.commit [.set (walSeqKey shard) (putUint64 c)] true).commit
      [.set (walKey shard c) data] true).db.view = some c := by
    rw [lastSeq, get_commit_set, if_neg (walKey_ne_walSeqKey shard shard c).symm, get_commit_set,
      if_pos rfl]
    simp
  have hentry : ∀ q, ((w.commit [.set (walSeqKey shard) (putUint64 c)] true).commit
      [.set (walKey shard c) data] true).db.view.get (walKey shard q) =
        if q = c then some data else w.db.view.get (walKey shard q) := by
    intro q
    rw [get_commit_set, get_commit_set, if_neg (walKey_ne_walSeqKey shard shard q)]
    simp [walKey_inj]
  intro k x hx
  rw [List.reverse_append, List.reverse_singleton, List.singleton_append] at hx
  cases k with
  | zero =>
      cases hx
      refine ⟨c, data, ?_, ?_, hu⟩
      · rw [hlast]
        simp [counter]
      · rw [hentry, if_pos rfl]
  | succ k =>
      rw [List.getElem?_cons_succ] at hx
      obtain ⟨q, d, hq, hd, hux⟩ := h k x hx
      have hqc : q + counter (k + 1) = c := by
        rw [← hc, freshSeq_of_lastSeq hq, ← counter_succ, UInt64.add_assoc]
      refine ⟨q, d, by rw [hlast, hqc], ?_, hux⟩
      -- fewer rows than numbers, so the new number is not the one of this row
      have hk : k < rows.length := by
        rw [← List.length_reverse]
        exact (List.getElem?_eq_some_iff.mp hx).1
      have hne : q ≠ c := by
        intro he
        have ht := congrArg UInt64.toNat hqc
        have hlt := UInt64.toNat_lt q
        rw [he, UInt64.toNat_add, toNat_counter] at ht
        rw [he] at hlt
        omega
      rw [hentry, if_neg hne, hd]

end Covered

/-! ## The writer at work -/

/-- A writer on its machine. `pushed`, `popped`, `processed` and `handedOver`
are what has happened so far. -/
structure WriterRun where
  world : World
  writer : ShardWriter
  /-- The stop channel is closed. -/
  stopCh : Bool
  pc : FlushPC
  pushed : List Event
  popped : List Event
  processed : List Event
  /-- The memtables that were handed to a successful `Seal`. -/
  handedOver : List Memtable

/-- The loop of the writer, without machine and memtable. -/
def WriterRun.live (s : WriterRun) : LiveWriter :=
  ⟨s.writer.ring, s.stopCh, s.pc, s.pushed, s.popped, s.processed⟩

/-- A writer that `NewShardWriter` has just returned. -/
def WriterRun.start (w : World) (sw : ShardWriter) : WriterRun :=
  ⟨w, sw, false, .idle, [], [], [], []⟩

/-- The steps of a flush. -/
inductive FlushStep (libs : Libs) : WriterRun → WriterRun → Prop
  /-- `DrainAll` pops an event. -/
  | pop {s : WriterRun} {final : Bool} {out : List Event} {e : Event} {rb : RingBuf}
      (hpc : s.pc = .draining final out) (h : s.writer.ring.pop = some (e, rb)) :
      FlushStep libs s
        { s with
          writer := { s.writer with ring := rb }
          pc := .draining final (out ++ [e])
          popped := s.popped ++ [e] }
  /-- `DrainAll` finds the ring empty. -/
  | drained {s : WriterRun} {final : Bool} {out : List Event}
      (hpc : s.pc = .draining final out) (h : s.writer.ring.pop = none) :
      FlushStep libs s { s with pc := .processing final out }
  /-- One pass of the loop over the drained events. The columns of a memtable
  are slices, whose length is an `int`. -/
  | process {s : WriterRun} {final : Bool} {e : Event} {rest : List Event} {data : Bytes}
      {ws : List World} {u : Unit} {w' : World} (hpc : s.pc = .processing final (e :: rest))
      (hdata : libs.marshal e = .ok data) (hlen : s.writer.memtable.len < 2 ^ 63)
      (h : Runs sem (walAppend s.writer.shard data).run s.world ws (.ok u) w') :
      FlushStep libs s
        { s with
          world := w'
          writer := { s.writer with memtable := s.writer.memtable.append e }
          pc := .processing final rest
          processed := s.processed ++ [e] }
  /-- The triggers are checked once all drained events are processed. -/
  | check {s : WriterRun} {final : Bool} {ws : List World} {sw : ShardWriter}
      {r : Option (Except Err BlockID)} {w' : World} (hpc : s.pc = .processing final [])
      (h : Runs sem (maybeSeal libs s.writer final) s.world ws (sw, r) w')
      (hok : ∀ e, r ≠ some (.error e)) :
      FlushStep libs s
        { s with
          world := w'
          writer := sw
          pc := if final then .stopped else .idle
          handedOver := s.handedOver ++ if r.isSome then [s.writer.memtable] else [] }

inductive WriterStep (libs : Libs) : WriterRun → WriterRun → Prop
  /-- `Push`, by a producer that is done before `Stop`. -/
  | push {s : WriterRun} {e : Event} {rb : RingBuf} (hopen : s.stopCh = false)
      (h : s.writer.ring.push e = some rb) :
      WriterStep libs s
        { s with writer := { s.writer with ring := rb }, pushed := s.pushed ++ [e] }
  /-- `Stop` closes the channel. -/
  | stop {s : WriterRun} (hopen : s.stopCh = false) : WriterStep libs s { s with stopCh := true }
  | tick {s : WriterRun} (hpc : s.pc = .idle) :
      WriterStep libs s { s with pc := .draining false [] }
  | wake {s : WriterRun} (hpc : s.pc = .idle) (hstop : s.stopCh = true) :
      WriterStep libs s { s with pc := .draining true [] }
  | flush {s s' : WriterRun} (h : FlushStep libs s s') : WriterStep libs s s'
  /-- Something else happens on the machine. -/
  | around {s : WriterRun} {w' : World} (h : SameWal s.writer.shard s.world w') :
      WriterStep libs s { s with world := w' }

/-! ## A flush without interruption -/

/-- The rest of the flush in which the writer is. -/
def WriterRun.remaining (libs : Libs) (s : WriterRun) :
    Proc (ShardWriter × Option (Except Err BlockID)) :=
  match s.pc with
  | .draining final out => do
      let mt ← processEvents libs s.writer.shard (out ++ s.writer.ring.drainAll.1) s.writer.memtable
      maybeSeal libs { s.writer with ring := s.writer.ring.drainAll.2, memtable := mt } final
  | .processing final rest => do
      let mt ← processEvents libs s.writer.shard rest s.writer.memtable
      maybeSeal libs { s.writer with memtable := mt } final
  | _ => pure (s.writer, none)

/-- Between two flushes. -/
def FlushPC.resting : FlushPC → Bool
  | .idle => true
  | .stopped => true
  | _ => false

section Flush

variable {libs : Libs} {s s' : WriterRun}

theorem FlushStep.busy (h : FlushStep libs s s') : s.pc.resting = false := by
  cases h with
  | pop hpc h => rw [hpc]; rfl
  | drained hpc h => rw [hpc]; rfl
  | process hpc hdata hlen h => rw [hpc]; rfl
  | check hpc h hok => rw [hpc]; rfl

/-- A step of a flush takes one step off the rest of it. -/
theorem FlushStep.remaining (h : FlushStep libs s s') :
    (s'.pc.resting = false ∧ ∀ ws a w', Runs sem (s'.remaining libs) s'.world ws a w' →
      ∃ ws', Runs sem (s.remaining libs) s.world ws' a w') ∨
    (s'.pc.resting = true ∧
      ∃ ws r, Runs sem (s.remaining libs) s.world ws (s'.writer, r) s'.world) := by
  cases h with
  | @pop final out e rb hpc h =>
      refine Or.inl ⟨rfl, fun ws a w' hrun => ⟨ws, ?_⟩⟩
      simp only [WriterRun.remaining, hpc, RingBuf.drainAll_of_pop h] at hrun ⊢
      rwa [List.append_assoc] at hrun
  | drained hpc h =>
      refine Or.inl ⟨rfl, fun ws a w' hrun => ⟨ws, ?_⟩⟩
      simp only [WriterRun.remaining, hpc, RingBuf.drainAll_of_pop_none h] at hrun ⊢
      simpa only [List.append_nil] using hrun
  | @process final e rest data ws₁ u w₁ hpc hdata hlen h =>
      refine Or.inl ⟨rfl, fun ws a w' hrun => ⟨ws₁ ++ ws, ?_⟩⟩
      simp only [WriterRun.remaining, hpc, processEvents, hdata] at hrun ⊢
      rw [Prog.bind_assoc]
      exact runs_bind.mpr ⟨.ok u, w₁, ws₁, ws, rfl, h, hrun⟩
  | @check final ws sw r w' hpc h hok =>
      refine Or.inr ⟨?_, ws, r, ?_⟩
      · cases final with
        | false => rfl
        | true => rfl
      · simp only [WriterRun.remaining, hpc, processEvents]
        exact h

/-- **A flush that nothing interrupts is a run of `flushAndMaybeSeal`.** -/
theorem runs_of_flushSteps {final : Bool} (hpc : s.pc = .draining final [])
    (hsteps : Relation.ReflTransGen (FlushStep libs) s s') (hrest : s'.pc.resting = true) :
    ∃ ws r, Runs sem (flushAndMaybeSeal libs s.writer final) s.world ws
      (s'.writer, r) s'.world := by
  have key : s.pc.resting = false →
      ∃ ws r, Runs sem (s.remaining libs) s.world ws (s'.writer, r) s'.world := by
    clear hpc
    induction hsteps using Relation.ReflTransGen.head_induction_on with
    | refl =>
        intro hs
        rw [hs] at hrest
        cases hrest
    | head hstep hrun ih =>
        intro _
        rcases hstep.remaining with ⟨hs, hback⟩ | ⟨hs, hdone⟩
        · obtain ⟨ws, r, h⟩ := ih hs
          obtain ⟨ws', h'⟩ := hback ws _ _ h
          exact ⟨ws', r, h'⟩
        · -- nothing follows the last step of a flush
          rcases hrun.cases_head with rfl | ⟨_, hnext, -⟩
          · exact hdone
          · rw [hnext.busy] at hs
            cases hs
  obtain ⟨ws, r, h⟩ := key (by rw [hpc]; rfl)
  simp only [WriterRun.remaining, hpc, List.nil_append] at h
  exact ⟨ws, r, h⟩

end Flush

/-! ## The invariant -/

/-- In the flush that follows the stop signal, or done. -/
def FlushPC.final : FlushPC → Bool
  | .idle => false
  | .draining final _ => final
  | .processing final _ => final
  | .stopped => true

theorem FlushPC.final_of_closed {pc : FlushPC} (h : pc.closed = true) : pc.final = true := by
  cases pc with
  | idle => cases h
  | draining final out => cases h
  | processing final rest => exact h
  | stopped => rfl

section Loop

variable {libs : Libs} {s s' : WriterRun}

/-- The triggers have been checked: the next state of the loop. -/
theorem ring_of_maybeSeal {sw sw' : ShardWriter} {final : Bool} {w w' : World} {ws : List World}
    {r : Option (Except Err BlockID)} (h : Runs sem (maybeSeal libs sw final) w ws (sw', r) w') :
    sw'.ring = sw.ring ∧ sw'.shard = sw.shard ∧ sw'.cfg = sw.cfg := by
  rcases runs_maybeSeal h with ⟨-, rfl, -⟩ | ⟨_, t, _, _, -, -, -, -, -, -, rfl⟩
  · exact ⟨rfl, rfl, rfl⟩
  · exact ⟨rfl, rfl, rfl⟩

theorem FlushStep.live (h : FlushStep libs s s') : s.live.step .work = some s'.live := by
  cases h with
  | pop hpc h => simp [WriterRun.live, LiveWriter.step, hpc, h]
  | drained hpc h => simp [WriterRun.live, LiveWriter.step, hpc, h]
  | process hpc hdata hlen h => simp [WriterRun.live, LiveWriter.step, hpc]
  | @check final _ sw _ _ hpc h hok =>
      have hring := (ring_of_maybeSeal h).1
      cases final with
      | false => simp [WriterRun.live, LiveWriter.step, hpc, hring]
      | true => simp [WriterRun.live, LiveWriter.step, hpc, hring]

/-- **The writer runs the loop of `LiveWriter`**: each of its steps is one of
the loop, a `Push`, the closing of the channel, or none of them. -/
theorem WriterStep.live (h : WriterStep libs s s') :
    (∃ a, s.live.step a = some s'.live) ∨
      (s.stopCh = false ∧ ∃ e, s.live.push e = some s'.live) ∨
      s'.live = s.live.close ∨ s'.live = s.live := by
  cases h with
  | @push e _ hopen h =>
      refine Or.inr (Or.inl ⟨hopen, e, ?_⟩)
      show Option.map _ (s.writer.ring.push e) = _
      rw [h]
      rfl
  | stop hopen => exact Or.inr (Or.inr (Or.inl rfl))
  | tick hpc => exact Or.inl ⟨.tick, by simp [WriterRun.live, LiveWriter.step, hpc]⟩
  | wake hpc hstop => exact Or.inl ⟨.wake, by simp [WriterRun.live, LiveWriter.step, hpc, hstop]⟩
  | flush h => exact Or.inl ⟨.work, h.live⟩
  | around h => exact Or.inr (Or.inr (Or.inr rfl))

end Loop

/-- What holds between two steps of a writer of shard `shard`. -/
structure WriterInv (libs : Libs) (shard : ShardID) (store : Option Tier.LocalStore)
    (s : WriterRun) : Prop where
  live : s.live.OK
  /-- The last flush follows the stop signal. -/
  stop : s.pc.final = true → s.stopCh = true
  shard_eq : s.writer.shard = shard
  store_eq : s.writer.cfg.store = store
  rows : s.processed = s.handedOver.flatMap Memtable.rows ++ s.writer.memtable.rows
  covered : Covered libs shard s.world.db.view s.writer.memtable.rows
  /-- With a store, the last flush seals what is left. -/
  done : s.pc = .stopped → store.isSome = true → s.writer.memtable.rows = []

section Invariant

variable {libs : Libs} {shard : ShardID} {store : Option Tier.LocalStore} {s s' : WriterRun}

theorem WriterInv.live_step (h : WriterInv libs shard store s) (hs : WriterStep libs s s') :
    s'.live.OK := by
  rcases hs.live with ⟨a, ha⟩ | ⟨hopen, e, he⟩ | hclose | hsame
  · exact (h.live.step ha).1
  · refine h.live.push he ?_
    -- before the stop signal there is no last flush
    cases hc : s.pc.closed with
    | false => exact hc
    | true =>
        have hstop := h.stop (FlushPC.final_of_closed hc)
        rw [hopen] at hstop
        cases hstop
  · rw [hclose]
    exact h.live.close
  · rw [hsame]
    exact h.live

/-- The memtable after the triggers have been checked, and what was handed
over. -/
theorem rows_of_maybeSeal {sw sw' : ShardWriter} {final : Bool} {w w' : World} {ws : List World}
    {r : Option (Except Err BlockID)} (h : Runs sem (maybeSeal libs sw final) w ws (sw', r) w') :
    (r.isSome = true ∧ sw'.memtable.rows = []) ∨
      (r.isSome = false ∧ sw' = sw ∧ SameWal sw.shard w w' ∧
        (final = true → sw.cfg.store.isSome = true → sw.memtable.rows = [])) := by
  rcases runs_maybeSeal h with ⟨rfl, rfl, hw, hwhy⟩ | ⟨_, t, res, _, -, -, rfl, -, -, -, rfl⟩
  · refine Or.inr ⟨rfl, rfl, ?_, fun hfinal hstore => ?_⟩
    · rcases hw with ⟨-, rfl⟩ | ⟨t, -, rfl, -⟩
      · exact ⟨rfl, fun _ => rfl⟩
      · exact ⟨rfl, fun _ => rfl⟩
    · rcases hwhy with hnone | hlen | hforce
      · rw [hnone] at hstore
        cases hstore
      · rw [← List.length_eq_zero_iff, Memtable.length_rows]
        exact hlen
      · rw [hforce] at hfinal
        cases hfinal
  · exact Or.inl ⟨rfl, rfl⟩

/-- **Step lemma** of a flush. -/
theorem WriterInv.flush (h : WriterInv libs shard store s) (hs : FlushStep libs s s') :
    WriterInv libs shard store s' := by
  have hlive := h.live_step (.flush hs)
  obtain ⟨-, hstop, hshard, hstore, hrows, hcov, hdone⟩ := h
  cases hs with
  | pop hpc h =>
      rw [hpc] at hstop
      exact ⟨hlive, hstop, hshard, hstore, hrows, hcov, fun hp => by cases hp⟩
  | drained hpc h =>
      rw [hpc] at hstop
      exact ⟨hlive, hstop, hshard, hstore, hrows, hcov, fun hp => by cases hp⟩
  | @process final e rest data _ _ w' hpc hdata hlen h =>
      rw [hpc] at hstop
      refine ⟨hlive, hstop, hshard, hstore, ?_, ?_, fun hp => by cases hp⟩
      · show s.processed ++ [e] = _ ++ (s.writer.memtable.append e).rows
        rw [hrows, Memtable.rows_append, List.append_assoc]
      · show Covered libs shard w'.db.view (s.writer.memtable.append e).rows
        obtain ⟨d, hd, hu⟩ := libs.unmarshal_marshal e
        rw [hdata] at hd
        cases hd
        rw [hshard] at h
        rw [Memtable.rows_append]
        exact hcov.append (by rw [Memtable.length_rows]; exact hlen) hu h
  | @check final _ sw r w' hpc h hok =>
      rw [hpc] at hstop
      obtain ⟨-, hsh, hcfg⟩ := ring_of_maybeSeal h
      have hstop' : FlushPC.final (if final then .stopped else .idle) = true → s.stopCh = true := by
        cases final with
        | false => exact fun hf => by cases hf
        | true => exact fun _ => hstop rfl
      have hstore' : sw.cfg.store = store := by rw [hcfg, hstore]
      rcases rows_of_maybeSeal h with ⟨hr, hnil⟩ | ⟨hr, rfl, hsame, hlast⟩
      · -- sealed: the old memtable is handed over, the new one is empty
        refine ⟨hlive, hstop', hsh.trans hshard, hstore', ?_, ?_, fun _ _ => hnil⟩
        · simp [hr, hnil, hrows]
        · show Covered libs shard w'.db.view sw.memtable.rows
          rw [hnil]
          exact covered_nil _
      · rw [hshard] at hsame
        refine ⟨hlive, hstop', hshard, hstore', ?_, hcov.same hsame, fun hp hst => ?_⟩
        · simp [hr, hrows]
        · refine hlast ?_ (by rw [hstore]; exact hst)
          cases final with
          | false => cases hp
          | true => rfl

/-- **Step lemma.** -/
theorem WriterInv.step (h : WriterInv libs shard store s) (hs : WriterStep libs s s') :
    WriterInv libs shard store s' := by
  have hlive := h.live_step hs
  obtain ⟨hok, hstop, hshard, hstore, hrows, hcov, hdone⟩ := h
  cases hs with
  | push hopen h => exact ⟨hlive, hstop, hshard, hstore, hrows, hcov, hdone⟩
  | stop hopen => exact ⟨hlive, fun _ => rfl, hshard, hstore, hrows, hcov, hdone⟩
  | tick hpc =>
      exact ⟨hlive, fun hf => (by cases hf), hshard, hstore, hrows, hcov, fun hp => by cases hp⟩
  | wake hpc hstopped =>
      exact ⟨hlive, fun _ => hstopped, hshard, hstore, hrows, hcov, fun hp => by cases hp⟩
  | flush hs => exact WriterInv.flush ⟨hok, hstop, hshard, hstore, hrows, hcov, hdone⟩ hs
  | around h =>
      rw [hshard] at h
      exact ⟨hlive, hstop, hshard, hstore, hrows, hcov.same h, hdone⟩

end Invariant

/-- The fields of a new writer. -/
theorem writerInv_start (libs : Libs) {shard : ShardID} {cfg : WriterConfig} {w w' : World}
    {ws : List World} {sw : ShardWriter} (h : Runs sem (newShardWriter shard cfg) w ws sw w') :
    WriterInv libs shard cfg.store (.start w' sw) := by
  obtain ⟨t, w₁, _, _, -, -, -, rfl, -⟩ := runs_bind.mp h
  exact ⟨LiveWriter.ok_fresh cfg.ringBufSize, fun hf => (by cases hf), rfl, rfl, rfl,
    covered_nil _, fun hp => by cases hp⟩

/-- **Run lemma.** -/
theorem WriterInv.run {libs : Libs} {shard : ShardID} {store : Option Tier.LocalStore}
    {s s' : WriterRun} (h : WriterInv libs shard store s)
    (hr : Relation.ReflTransGen (WriterStep libs) s s') : WriterInv libs shard store s' := by
  induction hr with
  | refl => exact h
  | tail _ hs ih => exact ih.step hs

/-! ## Running the machine -/

/-- The next step of a flush in which nothing fails. -/
def WriterRun.flush (libs : Libs) (s : WriterRun) : Option WriterRun :=
  match s.pc with
  | .draining final out =>
      match s.writer.ring.pop with
      | some (e, rb) =>
          some { s with
            writer := { s.writer with ring := rb }
            pc := .draining final (out ++ [e])
            popped := s.popped ++ [e] }
      | none => some { s with pc := .processing final out }
  | .processing final (e :: rest) =>
      match libs.marshal e with
      | .error _ => none
      | .ok data =>
          let x := (walAppend s.writer.shard data).run.exec s.world
          if x.1 = .ok () ∧ s.writer.memtable.len < 2 ^ 63 then
            some { s with
              world := x.2
              writer := { s.writer with memtable := s.writer.memtable.append e }
              pc := .processing final rest
              processed := s.processed ++ [e] }
          else none
  | .processing final [] =>
      let x := (maybeSeal libs s.writer final).exec s.world
      match x.1.2 with
      | some (.error _) => none
      | r =>
          some { s with
            world := x.2
            writer := x.1.1
            pc := if final then .stopped else .idle
            handedOver := s.handedOver ++ if r.isSome then [s.writer.memtable] else [] }
  | _ => none

inductive WriterMove
  | push (e : Event)
  | stop
  | tick
  | wake
  | flush

def WriterRun.move (libs : Libs) (s : WriterRun) : WriterMove → Option WriterRun
  | .push e =>
      if s.stopCh then none
      else (s.writer.ring.push e).map fun rb =>
        { s with writer := { s.writer with ring := rb }, pushed := s.pushed ++ [e] }
  | .stop => if s.stopCh then none else some { s with stopCh := true }
  | .tick => if s.pc = .idle then some { s with pc := .draining false [] } else none
  | .wake => if s.pc = .idle ∧ s.stopCh then some { s with pc := .draining true [] } else none
  | .flush => s.flush libs

section Move

variable {libs : Libs} {s s' : WriterRun}

theorem flushStep_of_flush (h : s.flush libs = some s') : FlushStep libs s s' := by
  unfold WriterRun.flush at h
  split at h
  · rename_i final out hpc
    split at h
    · rename_i e rb hpop
      cases h
      exact .pop hpc hpop
    · rename_i hpop
      cases h
      exact .drained hpc hpop
  · rename_i final e rest hpc
    split at h
    · cases h
    · rename_i data hdata
      dsimp only at h
      split_ifs at h with hx
      cases h
      have hrun := runs_procExec (walAppend s.writer.shard data).run s.world
      rw [hx.1] at hrun
      exact .process hpc hdata hx.2 hrun
  · rename_i final hpc
    dsimp only at h
    split at h
    · cases h
    · rename_i r hr
      cases h
      exact .check hpc (runs_procExec _ _) fun e he => hr e he
  · cases h

theorem writerStep_of_move {a : WriterMove} (h : s.move libs a = some s') :
    WriterStep libs s s' := by
  cases a with
  | push e =>
      rw [WriterRun.move] at h
      split_ifs at h with hopen
      obtain ⟨rb, hrb, rfl⟩ := Option.map_eq_some_iff.mp h
      exact .push (by simpa using hopen) hrb
  | stop =>
      rw [WriterRun.move] at h
      split_ifs at h with hopen
      cases h
      exact .stop (by simpa using hopen)
  | tick =>
      rw [WriterRun.move] at h
      split_ifs at h with hpc
      cases h
      exact .tick hpc
  | wake =>
      rw [WriterRun.move] at h
      split_ifs at h with hpc
      cases h
      exact .wake hpc.1 hpc.2
  | flush => exact .flush (flushStep_of_flush h)

theorem reach_of_moves (h : Machine.Reachable (WriterRun.move libs) Machine.always s s') :
    Relation.ReflTransGen (WriterStep libs) s s' := by
  induction h with
  | start => exact .refl
  | step _ _ hs ih => exact ih.tail (writerStep_of_move hs)

end Move

/-! ## Conservation -/

/-- **No event is lost between the containers of a writer.** In every state
of every run: what was pushed was processed, is drained or is in the ring;
what was processed was handed to a successful `Seal` or is in the memtable;
each row of the memtable is in the WAL; and when `Stop` has returned, with a
store, ring and memtable are empty. The steps of a flush are those of
`flushAndMaybeSeal`: one that begins in the state and is not interrupted is a
run of it. -/
theorem write_path_conservation (libs : Libs) (shard : ShardID) (cfg : WriterConfig)
    (w₀ w₁ : World) (ws : List World) (sw : ShardWriter) (s : WriterRun)
    (hnew : Runs sem (newShardWriter shard cfg) w₀ ws sw w₁)
    (hrun : Relation.ReflTransGen (WriterStep libs) (.start w₁ sw) s) :
    s.pushed = s.processed ++ s.pc.pending ++ s.writer.ring.contents ∧
      s.processed.Perm (s.handedOver.flatMap Memtable.rows ++ s.writer.memtable.rows) ∧
      (∀ e ∈ s.writer.memtable.rows, ∃ q d,
        s.world.db.view.get (walKey shard q) = some d ∧ libs.unmarshal d = some e) ∧
      (s.pc = .stopped → cfg.store.isSome = true →
        s.writer.ring.contents = [] ∧ s.writer.memtable.len = 0) ∧
      ∀ (final : Bool) (s' : WriterRun), s.pc = .draining final [] →
        Relation.ReflTransGen (FlushStep libs) s s' → s'.pc.resting = true →
          ∃ ws r, Runs sem (flushAndMaybeSeal libs s.writer final) s.world ws
            (s'.writer, r) s'.world := by
  have hinv := (writerInv_start libs hnew).run hrun
  have hring : RingOK s.writer.ring s.pushed s.popped := hinv.live.ring
  have hsplit : s.popped = s.processed ++ s.pc.pending := hinv.live.split
  refine ⟨?_, by rw [← hinv.rows], fun e he => ?_, fun hpc hstore => ⟨?_, ?_⟩,
    fun final s' hpc hsteps hrest => runs_of_flushSteps hpc hsteps hrest⟩
  · rw [← hsplit, hring.popped_append_contents]
  · obtain ⟨k, hk⟩ := List.mem_iff_getElem?.mp (List.mem_reverse.mpr he)
    obtain ⟨q, d, -, hd, hu⟩ := hinv.covered k e hk
    exact ⟨q, d, hd, hu⟩
  · have hall : s.popped = s.pushed := hinv.live.closed (by show s.pc.closed = true; rw [hpc]; rfl)
    rw [hring.contents_eq, hall, List.drop_length]
  · rw [← Memtable.length_rows, hinv.done hpc hstore]
    rfl

/-- A writer with one slot, created in the afternoon. -/
def oneSlot : ShardWriter × World := (newShardWriter 7 plainConfig).exec (emptyDir afternoon)

/-- The second event is pushed while the first is being drained; a tick, then
`Stop`. -/
def twoEvents : List WriterMove :=
  [.push eventA, .tick, .flush, .push eventB, .flush, .flush, .flush, .flush, .flush,
    .stop, .wake, .flush, .flush]

set_option maxRecDepth 100000 in
theorem write_path_conservation_twoEvents :
    ∃ s : WriterRun, s.pc = .stopped ∧ s.pushed = [eventA, eventB] ∧
      s.pushed = s.processed ++ s.pc.pending ++ s.writer.ring.contents ∧
      s.processed.Perm (s.handedOver.flatMap Memtable.rows) := by
  obtain ⟨s, hreach, hs⟩ := Machine.exists_reach_of_run (WriterRun.move Libs.plain) Machine.always
    (.start oneSlot.2 oneSlot.1) twoEvents
    (fun s => decide (s.pc = .stopped ∧ s.pushed = [eventA, eventB])) (by decide +kernel)
  obtain ⟨hpc, hpushed⟩ := of_decide_eq_true hs
  obtain ⟨hall, hperm, -, hdone, -⟩ := write_path_conservation Libs.plain 7 plainConfig _ _ _ _ s
    (runs_procExec _ (emptyDir afternoon)) (reach_of_moves hreach)
  have hrows := List.length_eq_zero_iff.mp
    ((Memtable.length_rows _).trans (hdone hpc rfl).2)
  rw [hrows, List.append_nil] at hperm
  exact ⟨s, hpc, hpushed, hall, hperm⟩

end Bbdb.Ingestion
