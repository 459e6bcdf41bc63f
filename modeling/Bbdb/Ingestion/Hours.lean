import Bbdb.Grpc.Convert
import Bbdb.Index.SparseIndex
import Bbdb.Ingestion.Sealed

/-!
# Ingestion — the hour of a block

A block is filed under the hour in which its writer opened it. Two other
times meet that hour: the timestamp of a row, by which the index decides
whether a query needs the block, and the time at which the row was drained.
Nothing in the writer ties either of them to the hour.

`lookup_finds_iff` says exactly which rows of sealed blocks the index finds,
in every state of every run; `sealed_in_hour` says which schedules of drains
keep every row within the hour of its block.
-/

namespace Bbdb.Ingestion

open Bbdb.Meta Bbdb.Block Bbdb.Tier Bbdb.Ttl Bbdb.Index Bbdb.Grpc GoTime
open Prog hiding pure bind

/-! ## Index keys -/

/-- The event type of a shard, its upper byte. -/
def eventTypeOf (shard : ShardID) : UInt8 := (shard >>> 8).toUInt8

/-- The hour a call of `Seal` filed its block under. -/
def SealCall.blockHour (c : SealCall) : Time := truncateHour (Int64.ofInt c.openedAt).toInt

/-- A successful `Seal` has made its id from the open time, and every row of
its block has a durable index key. -/
def Indexed (shard : ShardID) (s : Sys) (c : SealCall) : Prop :=
  ∀ id, c.result = .ok id → id = blockIDForShard shard (Int64.ofInt c.openedAt) ∧
    ∀ a ∈ c.rows, DurableIdx s.world (idxKey (eventTypeOf shard) a.event.keyHash id)

section Index

variable {libs : Libs} {st : LocalStore} {shard : ShardID} {s : Sys} {t : Time} {cond : Cond}

theorem FlushReq.eventType_eq {sw : ShardWriter} {req : SealRequest} (h : FlushReq sw req) :
    req.eventType = eventTypeOf sw.shard := by
  obtain ⟨mt, store, now, -, -, rfl⟩ := h
  rfl

/-- The commit of a block makes the index keys of its rows durable. -/
theorem durableIdx_commit {req : SealRequest} {x₀ x : World} (h : Prepared libs req x₀ x)
    {e : Event} (he : e ∈ req.memtable.rows) :
    DurableIdx (x.commit (sealOps req.shard req.blockID (req.blockMeta libs) req.expiryHour) true)
      (idxKey req.eventType e.keyHash req.blockID) := by
  refine ⟨family_idxKey _ _ _, ?_⟩
  have hmem : e.keyHash ∈ (req.sorted libs).uniqueKeyHashes libs 1 :=
    (Memtable.mem_uniqueKeyHashes libs).mpr
      ⟨e, (req.memtable.perm_rows_sort libs).mem_iff.mpr he, rfl⟩
  show (((sealOps _ _ _ _).apply x.db.view).get _).isSome
  rw [get_sealOps, if_neg (ne_of_family (by rw [family_idxKey, family_expiryKey]; decide)),
    if_neg (ne_of_family (by rw [family_idxKey, family_blockKey]; decide)), if_neg, h.view,
    if_pos ⟨_, hmem, rfl⟩]
  · rfl
  · intro hr
    have hfam := family_of_mem_walRange hr.1 hr.2
    rw [family_idxKey] at hfam
    exact absurd hfam (by decide)

/-- **Every sealed row is indexed**, in every state of every run. -/
theorem rows_indexed (h : Reach libs st shard cond (Sys.start t) s) :
    Base st shard s ∧ ∀ c ∈ s.seals, Indexed shard s c := by
  let Inv : Sys → Prop := fun s => ∀ c ∈ s.seals, Indexed shard s c
  have hstart : Inv (Sys.start t) := fun c hc => absurd hc List.not_mem_nil
  refine h.invariant_base hstart fun a act b hs _ hb hinv => ?_
  refine hs.forall_seals (fun c _ hc id hid => ?_) (fun hw _ ht hr he id hid => ?_) hinv
  · obtain ⟨heq, hrows⟩ := hc id hid
    exact ⟨heq, fun r hr => hs.tame.idx hb.pending_world _ (hrows r hr)⟩
  · cases hid
    obtain ⟨req, x₀, x, hq, rfl, hx, rfl⟩ := flush_sealed hr
    have hok := hb.writer _ hw
    refine ⟨?_, fun r hmem => ?_⟩
    · rw [hq.blockID_eq, ShardWriter.blockID, hok.shard_eq]
    · have hrow : r.event ∈ req.memtable.rows := by
        rw [hq.rows_eq, ← map_event_drainedRows hok.rows ht]
        exact List.mem_map_of_mem hmem
      have hdur := durableIdx_commit hx hrow
      rw [hq.eventType_eq, hok.shard_eq] at hdur
      rw [he]
      exact hdur

/-- Every interval that contains the timestamp of `e` makes a lookup of its
key find the block `id`. -/
def Found (shard : ShardID) (w : World) (id : BlockID) (e : Event) : Prop :=
  ∀ from_ to_ : Time, from_ ≤ e.timestamp.toInt → e.timestamp.toInt < to_ →
    ∃ ids, ((lookup (eventTypeOf shard) e.keyHash from_ to_).run.exec w).1 = .ok ids ∧ id ∈ ids

/-- The rows of every sealed block are found. -/
def RowsFound (shard : ShardID) (s : Sys) : Prop :=
  ∀ c ∈ s.seals, ∀ id, c.result = .ok id → ∀ a ∈ c.rows, Found shard s.world id a.event

/-- An indexed row is found exactly if its timestamp is in the block's hour. -/
theorem found_iff {c : SealCall} {id : BlockID} {a : Arrival} (hb : Base st shard s)
    (hc : Indexed shard s c) (hid : c.result = .ok id) (ha : a ∈ c.rows) :
    Found shard s.world id a.event ↔
      c.blockHour ≤ a.event.timestamp.toInt ∧
        a.event.timestamp.toInt < c.blockHour + hour := by
  obtain ⟨rfl, hrows⟩ := hc id hid
  have hkey := (hrows a ha).view hb.pending_world
  constructor
  · intro hfound
    have hthere := mem_lookup.mp
      (hfound a.event.timestamp.toInt (a.event.timestamp.toInt + 1) (le_refl _) (Int.lt_succ _))
    exact ⟨Int.le_of_lt_add_one hthere.2.1, hthere.2.2⟩
  · intro hin from_ to_ hfrom hto
    exact mem_lookup.mpr ⟨hkey, lt_of_le_of_lt hin.1 hto, lt_of_le_of_lt hfrom hin.2⟩

end Index

/-- **The index finds a sealed row exactly if its timestamp lies in the hour
its block is filed under**, in every state of every run. -/
theorem lookup_finds_iff (libs : Libs) (st : LocalStore) (shard : ShardID) (t : Time) (s : Sys)
    (h : Reach libs st shard (fun _ _ _ => True) (Sys.start t) s) (c : SealCall)
    (hc : c ∈ s.seals) (id : BlockID) (hid : c.result = .ok id) (a : Arrival) (ha : a ∈ c.rows) :
    Found shard s.world id a.event ↔
      c.blockHour ≤ a.event.timestamp.toInt ∧
        a.event.timestamp.toInt < c.blockHour + hour := by
  obtain ⟨hb, hindexed⟩ := rows_indexed h
  exact found_iff hb (hindexed c hc) hid ha

set_option maxRecDepth 100000 in
/-- The first row a successful `Seal` was given in the run of one writer. -/
theorem stoppedOnce_sealed : ∃ c ∈ stoppedOnce.seals, ∃ id, c.result = .ok id ∧
    ∃ a ∈ c.rows, a.event = ⟨256, 1, [1]⟩ ∧ c.openedAt = afternoon := by
  have hany : (stoppedOnce.seals.any fun c => c.result.toBool && (c.openedAt = afternoon &&
      c.rows.any fun a => a.event = ⟨256, 1, [1]⟩)) = true := by decide +kernel
  obtain ⟨c, hc, hcall⟩ := List.any_eq_true.mp hany
  obtain ⟨hok, hrest⟩ := Bool.and_eq_true_iff.mp hcall
  obtain ⟨hopen, hrows⟩ := Bool.and_eq_true_iff.mp hrest
  obtain ⟨a, ha, he⟩ := List.any_eq_true.mp hrows
  cases hres : c.result with
  | error err =>
      rw [hres] at hok
      cases hok
  | ok id => exact ⟨c, hc, id, hres, a, ha, of_decide_eq_true he, of_decide_eq_true hopen⟩

theorem lookup_finds_iff_stoppedOnce : ∃ c ∈ stoppedOnce.seals, ∃ id, c.result = .ok id ∧
    ∃ a ∈ c.rows, (Found 0 stoppedOnce.world id a.event ↔
      c.blockHour ≤ a.event.timestamp.toInt ∧
        a.event.timestamp.toInt < c.blockHour + hour) := by
  obtain ⟨c, hc, id, hid, a, ha, -⟩ := stoppedOnce_sealed
  exact ⟨c, hc, id, hid, a, ha, lookup_finds_iff Libs.plain hotStore 0 afternoon stoppedOnce
    (reach_stoppedOnce trivial trivial trivial) c hc id hid a ha⟩

/-- An event as a client may send it: a partition key of shard 0 and a
timestamp in 1970. -/
def backdated : ProtoEvent := ⟨[1, 0], 0, 1, [1]⟩

/-- **A back-dated event is stored and never found**: the write API takes it
as it is, its block is filed under the hour of the server, and a query around
its timestamp does not look there. -/
theorem backdated_event_not_found :
    ((protoEventsToBlock Libs.plain (fun _ => []) 0 [backdated]).exec (emptyDir afternoon)).1.1 =
        [⟨256, 1, [1]⟩] ∧
      shardFor Libs.plain backdated.partitionKey 0 = 0 ∧
      Reach Libs.plain hotStore 0 NoReap (Sys.start afternoon) stoppedOnce ∧
      ¬ RowsFound 0 stoppedOnce := by
  have hreach : Reach Libs.plain hotStore 0 NoReap (Sys.start afternoon) stoppedOnce :=
    reach_stoppedOnce nofun nofun nofun
  refine ⟨by decide, by decide, hreach, fun hfound => ?_⟩
  obtain ⟨c, hc, id, hid, a, ha, he, hopen⟩ := stoppedOnce_sealed
  obtain ⟨hb, hindexed⟩ := rows_indexed hreach
  have hin := (found_iff hb (hindexed c hc) hid ha).mp (hfound c hc id hid a ha)
  rw [he, SealCall.blockHour, hopen] at hin
  exact absurd hin (by decide)

/-! ## Drain times -/

/-- A drain that finds events is over before the hour of the current block. -/
def DrainsInHour : Cond := fun s act _ =>
  ∀ sw times, s.writer = some sw → act.Flushes times → sw.ring.drainAll.1 ≠ [] →
    lastTime s.world.clock times < sw.openedAt + hour

/-- Every row passed to `Seal` was drained in the hour of its block. -/
def SealedInHour (s : Sys) : Prop :=
  ∀ c ∈ s.seals, ∀ a ∈ c.rows, c.openedAt ≤ a.time ∧ a.time < c.openedAt + hour

section Drains

variable {libs : Libs} {st : LocalStore} {shard : ShardID} {s s' : Sys} {act : Act}

theorem mem_drainedAt {events : List Event} {times : List Time} {a : Arrival}
    (h : a ∈ drainedAt events times) : a.time ∈ times ∧ events ≠ [] := by
  induction events generalizing times with
  | nil => cases h
  | cons e events ih =>
      cases times with
      | nil => cases h
      | cons t times =>
          rcases List.mem_cons.mp h with h | h
          · rw [h]
            exact ⟨List.mem_cons_self, List.cons_ne_nil _ _⟩
          · exact ⟨List.mem_cons_of_mem _ (ih h).1, List.cons_ne_nil _ _⟩

/-- The rows of the memtable were drained in the hour of the block. -/
def RowsInHour (s : Sys) : Prop :=
  ∀ sw, s.writer = some sw → ∀ a ∈ s.arrivals, sw.openedAt ≤ a.time ∧ a.time < sw.openedAt + hour

/-- A drain within the hour keeps it so: a drain time is not before the clock,
which is not before the open time. -/
theorem drainedRows_inHour {sw : ShardWriter} {times : List Time} (hb : Base st shard s)
    (hrows : RowsInHour s) (hw : s.writer = some sw)
    (ht : DrainTimes s.world.clock sw.ring.drainAll.1 times)
    (hin : sw.ring.drainAll.1 ≠ [] → lastTime s.world.clock times < sw.openedAt + hour) :
    ∀ a ∈ s.drainedRows sw times, sw.openedAt ≤ a.time ∧ a.time < sw.openedAt + hour := by
  intro a ha
  rcases List.mem_append.mp ha with ha | ha
  · exact hrows sw hw a ha
  · obtain ⟨hmem, hne⟩ := mem_drainedAt ha
    obtain ⟨hlo, hhi⟩ := drainTimes_bounds ht a.time hmem
    exact ⟨(hb.writer sw hw).opened.trans hlo, lt_of_le_of_lt hhi (hin hne)⟩

theorem Step.rowsInHour (h : Step libs st shard s act s') (hb : Base st shard s)
    (hc : DrainsInHour s act s') (hrows : RowsInHour s) : RowsInHour s' := by
  intro sw' hsw' a ha
  cases h with
  | create hw hst h => cases ha
  | push hw h =>
      cases hsw'
      exact hrows _ hw a ha
  | tick hw ht h =>
      cases hsw'
      obtain ⟨-, -, -, hk⟩ := flush_writer h
      rcases hk with ⟨rfl, ho, -⟩ | ⟨res, t, rfl, -⟩
      · rw [ho]
        exact drainedRows_inHour hb hrows hw ht (hc _ _ hw (Or.inl rfl)) a ha
      · cases ha
  | stop hw ht h => cases hsw'
  | crash h => cases hsw'
  | crashFlush hw ht hc h => cases hsw'
  | reap h => exact hrows sw' hsw' a ha

end Drains

/-- **Blocks hold rows of their own hour**, in every run in which every drain
that finds events is over before the hour of the block it drains into. -/
theorem sealed_in_hour (libs : Libs) (st : LocalStore) (shard : ShardID) (t : Time) (s : Sys)
    (h : Reach libs st shard DrainsInHour (Sys.start t) s) : SealedInHour s := by
  let Inv : Sys → Prop := fun s => RowsInHour s ∧ SealedInHour s
  have hstart : Inv (Sys.start t) :=
    ⟨fun sw hsw => (by cases hsw), fun c hc => absurd hc List.not_mem_nil⟩
  refine (h.invariant_base hstart fun a act b hs hc hb hinv => ⟨?_, ?_⟩).2.2
  · exact hs.rowsInHour hb hc hinv.1
  · refine hs.forall_seals (P := fun _ c => ∀ a ∈ c.rows, c.openedAt ≤ a.time ∧
      a.time < c.openedAt + hour) (fun c _ hc => hc) ?_ hinv.2
    intro sw sw' times force ws w' res next hw hf ht hr he
    exact drainedRows_inHour hb hinv.1 hw ht (hc sw times hw hf)

set_option maxRecDepth 100000 in
/-- A writer that is stopped in the hour it was created in. -/
theorem sealed_in_hour_stoppedOnce :
    Reach Libs.plain hotStore 0 DrainsInHour (Sys.start afternoon) stoppedOnce ∧
      SealedInHour stoppedOnce := by
  have h : Reach Libs.plain hotStore 0 DrainsInHour (Sys.start afternoon) stoppedOnce := by
    refine reach_stoppedOnce ?_ ?_ ?_
    · intro sw times hw
      cases hw
    · intro sw times _ hf
      rcases hf with hf | hf | hf
      · cases hf
      · cases hf
      · cases hf
    · intro sw times hw hf _
      cases hw
      rcases hf with hf | hf | hf
      · cases hf
      · cases hf
        decide +kernel
      · cases hf
  exact ⟨h, sealed_in_hour Libs.plain hotStore 0 afternoon stoppedOnce h⟩

/-- A writer created at 14:00 that gets its first event after 15:00, drains
it at 15:30 and is stopped. -/
def stoppedLate : Sys :=
  ((Sys.start afternoon).opened ⟨256, 1, [1]⟩).flushes (execAt 0) Libs.plain false
    [afternoon + 5400 * second]

set_option maxRecDepth 100000 in
/-- **An idle writer files late rows under an old hour**: nothing refreshes
the open time while the memtable is empty. -/
theorem idle_writer_seals_late_row :
    Reach Libs.plain hotStore 0 NoReap (Sys.start afternoon) stoppedLate ∧
      ¬ SealedInHour stoppedLate := by
  constructor
  · have hst : ∀ x, plainConfig.store = some x → x = hotStore := by
      intro x hx
      exact (Option.some.inj hx).symm
    have h₀ : Reach Libs.plain hotStore 0 NoReap (Sys.start afternoon) (Sys.start afternoon) :=
      Relation.ReflTransGen.refl
    have h₁ := h₀.step (step_created (sem_execAt 0) rfl hst) nofun
    have h₂ := h₁.step (step_pushed (e := ⟨256, 1, [1]⟩) (by decide +kernel)) nofun
    exact h₂.step (step_stopped (sem_execAt 0) (by decide +kernel) (by decide +kernel)) nofun
  · intro hin
    have hany : (stoppedLate.seals.any fun c => c.rows.any fun a =>
        c.openedAt + hour ≤ a.time) = true := by decide +kernel
    obtain ⟨c, hc, hrows⟩ := List.any_eq_true.mp hany
    obtain ⟨a, ha, hlate⟩ := List.any_eq_true.mp hrows
    exact absurd (hin c hc a ha).2 (not_lt.mpr (of_decide_eq_true hlate))

end Bbdb.Ingestion
