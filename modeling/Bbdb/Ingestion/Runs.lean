import Bbdb.Ingestion.Writer
import Bbdb.Ttl.Reaper
import Mathlib.Logic.Relation

/-!
# Ingestion — runs of a shard

The life of one shard on one data directory: a writer is created, events are
pushed into its ring, it ticks, it is stopped or the process crashes, another
writer is created over what is left, and the reaper passes by. Every
operation may fail, every clock reading may be later than the one before, and
a crash may hit between any two operations of a flush.

Beside the machine and the writer a state keeps ghosts that nothing in the
program reads: when each row of the memtable was drained, what every call of
`Seal` was given and what it answered, whether the WAL can hold entries that
are not in the memtable, and every world the machine has gone through.

`StepRule` is the proof rule of the development: a relation between worlds
that every operation of a step keeps holds between any two successive worlds
of the run (`Step.extends`).
-/

namespace Bbdb.Ingestion

open Bbdb.Meta Bbdb.Block Bbdb.Tier Bbdb.Ttl GoTime
open Prog hiding pure bind

/-! ## States -/

/-- A row and the time at which it was drained from the ring. -/
structure Arrival where
  event : Event
  time : Time

/-- A call of `Seal`: the open time its block id is made of, the rows it was
given, and its answer. -/
structure SealCall where
  openedAt : Time
  rows : List Arrival
  result : Except Err BlockID

structure Sys where
  world : World
  writer : Option ShardWriter
  /-- The rows of the writer's memtable. -/
  arrivals : List Arrival
  /-- The calls of `Seal` so far. -/
  seals : List SealCall
  /-- The writer was created over a WAL with entries, or one of its seals has
  failed. -/
  stale : Prop
  /-- The worlds so far: the first, and one after every operation. -/
  moments : List World

/-- An empty data directory at time `t`. -/
def emptyDir (t : Time) : World := ⟨Pebble.empty, fun _ => none, t⟩

def Sys.start (t : Time) : Sys := ⟨emptyDir t, none, [], [], False, [emptyDir t]⟩

/-- The drained events with their drain times. -/
def drainedAt (events : List Event) (times : List Time) : List Arrival :=
  List.zipWith Arrival.mk events times

/-- One drain time for each event, none before the clock, none before the
one before it. -/
structure DrainTimes (clock : Time) (events : List Event) (times : List Time) : Prop where
  length : times.length = events.length
  chain : List.IsChain (· ≤ ·) (clock :: times)

instance (clock : Time) (events : List Event) (times : List Time) :
    Decidable (DrainTimes clock events times) :=
  decidable_of_iff (times.length = events.length ∧ List.IsChain (· ≤ ·) (clock :: times))
    ⟨fun h => ⟨h.1, h.2⟩, fun h => ⟨h.length, h.chain⟩⟩

/-- The time when the drain is over. -/
def lastTime (clock : Time) (times : List Time) : Time := times.getLastD clock

/-- The rows of the memtable after a drain. -/
def Sys.drainedRows (s : Sys) (sw : ShardWriter) (times : List Time) : List Arrival :=
  s.arrivals ++ drainedAt sw.ring.drainAll.1 times

/-- The events that wait in the ring. -/
def Sys.waiting (s : Sys) : List Event :=
  match s.writer with
  | none => []
  | some sw => sw.ring.drainAll.1

/-- The world in which the drained events are processed. -/
def Sys.drainedWorld (s : Sys) (times : List Time) : World :=
  readClock s.world (lastTime s.world.clock times)

/-- The state after a flush of `sw` that went through `ws` to `w'`, with
answer `r` of `Seal` if it sealed, and left the writer as `next`. -/
def Sys.flushed (s : Sys) (sw : ShardWriter) (times : List Time) (ws : List World) (w' : World)
    (r : Option (Except Err BlockID)) (next : Option ShardWriter) : Sys where
  world := w'
  writer := next
  arrivals := if next.isSome && r.isNone then s.drainedRows sw times else []
  seals := s.seals ++ r.toList.map fun res => ⟨sw.openedAt, s.drainedRows sw times, res⟩
  stale := s.stale ∨ ∃ e, r = some (.error e)
  moments := s.moments ++ s.drainedWorld times :: ws

/-! ## Steps -/

/-- What can happen next. -/
inductive Act where
  | create (cfg : WriterConfig)
  | push (e : Event)
  | tick (times : List Time)
  | stop (times : List Time)
  /-- A crash between two flushes. -/
  | crash
  /-- A crash in the middle of a flush. -/
  | crashFlush (times : List Time)
  | reap (cfg : ReaperConfig)

/-- The steps of shard `shard` over the store `st`. -/
inductive Step (libs : Libs) (st : LocalStore) (shard : ShardID) : Sys → Act → Sys → Prop
  | create {s : Sys} {cfg : WriterConfig} {sw : ShardWriter} {ws : List World} {w' : World}
      (hw : s.writer = none) (hst : ∀ x, cfg.store = some x → x = st)
      (h : Runs sem (newShardWriter shard cfg) s.world ws sw w') :
      Step libs st shard s (.create cfg)
        { s with world := w', writer := some sw, arrivals := [],
                 stale := ∃ q d, s.world.db.view.get (walKey shard q) = some d,
                 moments := s.moments ++ ws }
  | push {s : Sys} {e : Event} {sw : ShardWriter} {ring : RingBuf}
      (hw : s.writer = some sw) (h : sw.ring.push e = some ring) :
      Step libs st shard s (.push e) { s with writer := some { sw with ring := ring } }
  | tick {s : Sys} {times : List Time} {sw sw' : ShardWriter} {ws : List World} {w' : World}
      {r : Option (Except Err BlockID)} (hw : s.writer = some sw)
      (ht : DrainTimes s.world.clock sw.ring.drainAll.1 times)
      (h : Runs sem (flushAndMaybeSeal libs sw false) (s.drainedWorld times) ws (sw', r) w') :
      Step libs st shard s (.tick times) (s.flushed sw times ws w' r (some sw'))
  | stop {s : Sys} {times : List Time} {sw sw' : ShardWriter} {ws : List World} {w' : World}
      {r : Option (Except Err BlockID)} (hw : s.writer = some sw)
      (ht : DrainTimes s.world.clock sw.ring.drainAll.1 times)
      (h : Runs sem (flushAndMaybeSeal libs sw true) (s.drainedWorld times) ws (sw', r) w') :
      Step libs st shard s (.stop times) (s.flushed sw times ws w' r none)
  | crash {s : Sys} {w' : World} (h : s.world.Crash w') :
      Step libs st shard s .crash
        { s with world := w', writer := none, arrivals := [], moments := s.moments ++ [w'] }
  | crashFlush {s : Sys} {times : List Time} {sw : ShardWriter} {force : Bool} {ws : List World}
      {w₁ w' : World} (hw : s.writer = some sw)
      (ht : DrainTimes s.world.clock sw.ring.drainAll.1 times)
      (hc : Cuts sem (flushAndMaybeSeal libs sw force) (s.drainedWorld times) ws w₁)
      (h : w₁.Crash w') :
      Step libs st shard s (.crashFlush times)
        { s with world := w', writer := none, arrivals := [],
                 moments := s.moments ++ s.drainedWorld times :: (ws ++ [w']) }
  | reap {s : Sys} {cfg : ReaperConfig} {ws : List World} {r : Except Err Unit} {w' : World}
      (h : Runs sem (runOnce cfg).run s.world ws r w') :
      Step libs st shard s (.reap cfg) { s with world := w', moments := s.moments ++ ws }

/-- A condition on steps: the state before, what happens, the state after. -/
abbrev Cond := Sys → Act → Sys → Prop

/-- The states of the runs all of whose steps meet a condition. -/
def Reach (libs : Libs) (st : LocalStore) (shard : ShardID) (cond : Cond) (s₀ s : Sys) : Prop :=
  Relation.ReflTransGen (fun a b => ∃ act, Step libs st shard a act b ∧ cond a act b) s₀ s

/-- **The invariant rule**: what holds at the start and is kept by every step
of the kind considered holds in every state. -/
theorem Reach.invariant {libs : Libs} {st : LocalStore} {shard : ShardID} {cond : Cond}
    {s₀ s : Sys} {I : Sys → Prop} (h : Reach libs st shard cond s₀ s) (h₀ : I s₀)
    (hstep : ∀ a act b, Step libs st shard a act b → cond a act b → I a → I b) : I s := by
  induction h with
  | refl => exact h₀
  | tail _ hs ih =>
      obtain ⟨act, hs, hc⟩ := hs
      exact hstep _ act _ hs hc ih

theorem Reach.step {libs : Libs} {st : LocalStore} {shard : ShardID} {cond : Cond}
    {s₀ s s' : Sys} {act : Act} (h : Reach libs st shard cond s₀ s)
    (hs : Step libs st shard s act s') (hc : cond s act s') : Reach libs st shard cond s₀ s' :=
  h.tail ⟨act, hs, hc⟩

/-! ## What every run keeps -/

/-- A key that is durable and stays so: in the synced state. -/
def DurableIdx (w : World) (k : Bytes) : Prop :=
  family k = prefixIdx ∧ (w.db.synced.get k).isSome

/-- From `w` to `w'` time has not gone back, unsynced batches are still index
batches, and durable index keys are still durable. -/
structure Tame (w w' : World) : Prop where
  clock : w.clock ≤ w'.clock
  pending : PendingIdx w.db → PendingIdx w'.db
  idx : PendingIdx w.db → ∀ k, DurableIdx w k → DurableIdx w' k

theorem Tame.refl (w : World) : Tame w w := ⟨le_refl _, id, fun _ _ h => h⟩

theorem Tame.trans {a b c : World} (h₁ : Tame a b) (h₂ : Tame b c) : Tame a c :=
  ⟨h₁.clock.trans h₂.clock, fun h => h₂.pending (h₁.pending h),
    fun h k hk => h₂.idx (h₁.pending h) k (h₁.idx h k hk)⟩

/-- A durable key is visible. -/
theorem DurableIdx.view {w : World} {k : Bytes} (h : DurableIdx w k) (hp : PendingIdx w.db) :
    (w.db.view.get k).isSome :=
  isSome_idxBatches hp w.db.synced h.2

/-- A synced commit that leaves the index keys alone. -/
theorem tame_commit {w w' : World} {b : Batch} (hclock : w.clock ≤ w'.clock)
    (hdb : w'.db = w.db.commit b true)
    (hget : ∀ k, family k = prefixIdx → (b.apply w.db.view).get k = w.db.view.get k) :
    Tame w w' := by
  refine ⟨hclock, fun _ => ?_, fun hp k hk => ⟨hk.1, ?_⟩⟩
  · rw [hdb]
    intro x hx
    exact absurd hx List.not_mem_nil
  · rw [hdb]
    show ((b.apply w.db.view).get k).isSome
    rw [hget k hk.1]
    exact hk.view hp

theorem tame_of_walStep {shard : ShardID} {w w' : World} (h : WalStep shard w w') : Tame w w' := by
  rcases h.db with hdb | ⟨k, v, hk, hdb⟩
  · exact ⟨h.clock, fun hp => by rw [hdb]; exact hp, fun _ k hk => by rw [DurableIdx, hdb]; exact hk⟩
  · refine tame_commit h.clock hdb fun x hx => ?_
    refine OrdMap.get_set_ne _ _ fun he => ?_
    rcases hk with rfl | ⟨q, rfl⟩
    · rw [he, family_walSeqKey] at hx
      exact absurd hx (by decide)
    · rw [he, family_walKey] at hx
      exact absurd hx (by decide)

theorem tame_of_idxStep {w w' : World} (hclock : w.clock ≤ w'.clock) (h : IdxStep w w') :
    Tame w w' :=
  ⟨hclock, h.pendingIdx, fun _ k hk => ⟨hk.1, by rw [h.1]; exact hk.2⟩⟩

theorem tame_of_crash {w w' : World} (h : w.Crash w') : Tame w w' := by
  obtain ⟨n, hdb⟩ := h.db
  refine ⟨h.clock, fun _ => ?_, fun hp k hk => ⟨hk.1, ?_⟩⟩
  · rw [hdb]
    intro x hx
    exact absurd hx List.not_mem_nil
  · rw [hdb]
    exact isSome_idxBatches (fun b hb => hp b (List.mem_of_mem_take hb)) _ hk.2

theorem tame_readClock {w : World} {t : Time} (h : w.clock ≤ t) : Tame w (readClock w t) :=
  ⟨h, id, fun _ _ hk => hk⟩

theorem tame_of_reapStep {cfg : ReaperConfig} {E : ExpiredEntry → Prop} {w w' : World}
    (h : ReapStep cfg E w w') : Tame w w' := by
  rcases h.db with hdb | ⟨e, -, hdb⟩
  · exact ⟨h.clock, fun hp => by rw [hdb]; exact hp, fun _ k hk => by rw [DurableIdx, hdb]; exact hk⟩
  · refine tame_commit h.clock hdb fun k hk => ?_
    rw [get_deleteOps, if_neg]
    intro he
    rcases he with he | he
    · rw [he, family_expiryKey] at hk
      exact absurd hk (by decide)
    · rw [he, family_blockKey] at hk
      exact absurd hk (by decide)

theorem tame_of_sealOps {w : World} (shard : ShardID) (id : BlockID) (bm : BlockMeta)
    (hour : UInt64) : Tame w (w.commit (sealOps shard id bm hour) true) := by
  refine tame_commit (le_refl _) rfl fun k hk => ?_
  rw [get_sealOps, if_neg, if_neg, if_neg]
  · intro hr
    rw [family_of_mem_walRange hr.1 hr.2] at hk
    exact absurd hk (by decide)
  · exact ne_of_family (by rw [hk, family_blockKey]; decide)
  · exact ne_of_family (by rw [hk, family_expiryKey]; decide)

/-! ## The proof rule -/

/-- The requests a flush of `sw` can hand to `Seal`. -/
def FlushReq (sw : ShardWriter) (req : SealRequest) : Prop :=
  ∃ mt store t, mt.rows = sw.memtable.rows ++ sw.ring.drainAll.1 ∧ sw.cfg.store = some store ∧
    req = (sw.drained mt).sealRequest store t

/-- The id of the block a writer will seal next. -/
def ShardWriter.blockID (sw : ShardWriter) : BlockID :=
  blockIDForShard sw.shard (Int64.ofInt sw.openedAt)

section Request

variable {sw : ShardWriter} {req : SealRequest}

theorem FlushReq.blockID_eq (h : FlushReq sw req) : req.blockID = sw.blockID := by
  obtain ⟨mt, store, t, -, -, rfl⟩ := h
  rfl

theorem FlushReq.shard_eq (h : FlushReq sw req) : req.shard = sw.shard := by
  obtain ⟨mt, store, t, -, -, rfl⟩ := h
  rfl

theorem FlushReq.store_eq (h : FlushReq sw req) : sw.cfg.store = some req.store := by
  obtain ⟨mt, store, t, -, hstore, rfl⟩ := h
  exact hstore

theorem FlushReq.rows_eq (h : FlushReq sw req) :
    req.memtable.rows = sw.memtable.rows ++ sw.ring.drainAll.1 := by
  obtain ⟨mt, store, t, hrows, -, rfl⟩ := h
  exact hrows

end Request

/-- The operations of `Seal` keep `G`, as long as `P` holds of the world,
which the operations before the commit preserve. Of the commit that is asked
only if there is one. -/
structure SealRule (libs : Libs) (sw : ShardWriter) (G : World → World → Prop)
    (P : SealRequest → World → Prop) (committed : Prop) : Prop where
  prep : ∀ {req : SealRequest} {x y : World}, FlushReq sw req → P req x → PrepStep req x y →
    P req y ∧ G x y
  commit : ∀ {req : SealRequest} {x₀ x : World}, committed → FlushReq sw req → P req x →
    Prepared libs req x₀ x → G x (x.commit (sealOps req.shard req.blockID (req.blockMeta libs)
      req.expiryHour) true)

/-- The drain of a flush keeps `G` and, if `Seal` is called after it, leads to
a world with `P`. -/
def DrainRule (libs : Libs) (sw : ShardWriter) (G : World → World → Prop)
    (P : SealRequest → World → Prop) (called : Prop) (w : World) : Prop :=
  Ensures sem G (processEvents libs sw.shard sw.ring.drainAll.1 sw.memtable)
    (fun _ w₁ => called → ∀ req t, FlushReq sw req → P req (readClock w₁ t)) w

section Flush

variable {libs : Libs} {G : World → World → Prop} {P : SealRequest → World → Prop}
  {called committed : Prop} {sw sw' : ShardWriter} {force : Bool} {w w' : World} {ws : List World}
  {r : Option (Except Err BlockID)}

theorem SealRule.chain_prep {req : SealRequest} (hr : SealRule libs sw G P committed)
    (hq : FlushReq sw req) (hP : P req w) (h : List.IsChain (PrepStep req) (w :: ws)) :
    List.IsChain G (w :: ws) ∧ ∀ x ∈ w :: ws, P req x := by
  induction ws generalizing w with
  | nil =>
      refine ⟨List.isChain_singleton _, fun x hx => ?_⟩
      rw [List.mem_singleton.mp hx]
      exact hP
  | cons y ws ih =>
      obtain ⟨hstep, hrest⟩ := List.isChain_cons_cons.mp h
      obtain ⟨hPy, hG⟩ := hr.prep hq hP hstep
      obtain ⟨hc, hall⟩ := ih hPy hrest
      refine ⟨List.isChain_cons_cons.mpr ⟨hG, hc⟩, fun x hx => ?_⟩
      rcases List.mem_cons.mp hx with hx | hx
      · rw [hx]
        exact hP
      · exact hall x hx

/-- A run of `Seal`: preparing steps, and at most one commit, at the end. -/
theorem SealRule.chain_seal {req : SealRequest} (hr : SealRule libs sw G P committed)
    (hq : FlushReq sw req) (hP : P req w) {res : Except Err BlockID}
    (hcommitted : ∀ id, res = .ok id → committed)
    (h : Runs sem (sealBlock libs req).run w ws res w') : List.IsChain G (w :: ws) := by
  rcases runs_sealBlock libs req h with ⟨-, hc⟩ | ⟨hok, ws₁, w₁, rfl, hlast, hc, hp, rfl⟩
  · exact (hr.chain_prep hq hP hc).1
  · obtain ⟨hchain, hall⟩ := hr.chain_prep hq hP hc
    refine chain_append hchain hlast (List.isChain_cons_cons.mpr ⟨?_, List.isChain_singleton _⟩)
    exact hr.commit (hcommitted _ hok) hq (hall w₁ (List.mem_of_getLast? hlast)) hp

variable (hclock : ∀ {x : World} {t : Time}, x.clock ≤ t → G x (readClock x t))

include hclock

/-- **A complete flush, operation by operation.** -/
theorem SealRule.chain_flush (hr : SealRule libs sw G P committed)
    (hd : DrainRule libs sw G P called w) (hcalled : r.isSome → called)
    (hcommitted : ∀ id, r = some (.ok id) → committed)
    (h : Runs sem (flushAndMaybeSeal libs sw force) w ws (sw', r) w') :
    List.IsChain G (w :: ws) := by
  obtain ⟨mt, w₁, ws₁, hp, hk⟩ := runs_flush h
  obtain ⟨hdrain, hP⟩ := hd.runs hp
  rcases hk with ⟨-, -, ⟨rfl, rfl⟩ | ⟨t, ht, rfl, rfl⟩⟩
    | ⟨store, t, res, ws₂, hstore, ht, rfl, -, hs, rfl, -⟩
  · exact hdrain
  · refine chain_append hdrain hp.getLast ?_
    exact List.isChain_cons_cons.mpr ⟨hclock ht, List.isChain_singleton _⟩
  · have hq : FlushReq sw ((sw.drained mt).sealRequest store t) :=
      ⟨mt, store, t, runs_processEvents_rows hp, hstore, rfl⟩
    refine chain_append hdrain hp.getLast ?_
    refine List.isChain_cons_cons.mpr ⟨hclock ht, ?_⟩
    exact hr.chain_seal hq (hP (hcalled rfl) _ t hq) (fun id hid => hcommitted id (by rw [hid])) hs

/-- **A flush cut off by a crash, operation by operation.** -/
theorem SealRule.chain_cut (hr : SealRule libs sw G P committed)
    (hd : DrainRule libs sw G P called w) (hcalled : called)
    (h : Cuts sem (flushAndMaybeSeal libs sw force) w ws w') : List.IsChain G (w :: ws) := by
  rcases cuts_flush h with hc | ⟨mt, w₁, ws₁, hp, hk⟩
  · exact hd.cuts hc
  · obtain ⟨hdrain, hP⟩ := hd.runs hp
    rcases hk with ⟨rfl, -⟩ | ⟨store, t, ws₂, hstore, ht, -, hs, rfl⟩
    · exact hdrain
    · have hq : FlushReq sw ((sw.drained mt).sealRequest store t) :=
        ⟨mt, store, t, runs_processEvents_rows hp, hstore, rfl⟩
      refine chain_append hdrain hp.getLast (List.isChain_cons_cons.mpr ⟨hclock ht, ?_⟩)
      exact (hr.chain_prep hq (hP hcalled _ t hq) (cuts_sealBlock libs _ hs)).1

end Flush

/-- The steps that drain the ring, with their drain times. -/
def Act.Flushes (act : Act) (times : List Time) : Prop :=
  act = .tick times ∨ act = .stop times ∨ act = .crashFlush times

/-- The step calls `Seal`, or a crash may have hit it there. -/
def SealCalled (s : Sys) (act : Act) (s' : Sys) : Prop :=
  s'.seals ≠ s.seals ∨ ∃ times, act = .crashFlush times

/-- The step ends a `Seal` that succeeds. -/
def SealCommitted (s s' : Sys) : Prop :=
  ∃ c id, s'.seals = s.seals ++ [c] ∧ c.result = .ok id

/-- Every operation of a step keeps `G`. -/
structure StepRule (libs : Libs) (s : Sys) (act : Act) (s' : Sys) (G : World → World → Prop) :
    Prop where
  clock : ∀ {x : World} {t : Time}, x.clock ≤ t → G x (readClock x t)
  crash : ∀ {x y : World}, x.Crash y → G x y
  flush : ∀ {sw : ShardWriter} {times : List Time}, s.writer = some sw → act.Flushes times →
    ∃ P, SealRule libs sw G P (SealCommitted s s') ∧
      DrainRule libs sw G P (SealCalled s act s') (s.drainedWorld times)
  reap : ∀ {cfg : ReaperConfig} {E : ExpiredEntry → Prop} {x y : World}, act = .reap cfg →
    ReapStep cfg E x y → G x y

theorem runs_newShardWriter {shard : ShardID} {cfg : WriterConfig} {w w' : World}
    {ws : List World} {sw : ShardWriter} (h : Runs sem (newShardWriter shard cfg) w ws sw w') :
    ∃ t, w.clock ≤ t ∧ w' = readClock w t ∧ ws = [w'] ∧ sw.shard = shard ∧
      sw.cfg.store = cfg.store ∧ sw.cfg.retention = cfg.retention ∧
      sw.ring = newRingBuf cfg.ringBufSize ∧ sw.memtable = Memtable.new ∧
      sw.openedAt = hourBoundary t := by
  obtain ⟨t, w₁, ws₁, ws₂, rfl, hnow, rfl, rfl, rfl⟩ := runs_bind.mp h
  obtain ⟨ht, rfl, rfl⟩ := runs_timeNow hnow
  exact ⟨t, ht, rfl, rfl, rfl, rfl, rfl, rfl, rfl, rfl⟩

/-- The drain times lie between the start and the end of the drain. -/
theorem drainTimes_bounds {clock : Time} {events : List Event} {times : List Time}
    (h : DrainTimes clock events times) : ∀ t ∈ times, clock ≤ t ∧ t ≤ lastTime clock times := by
  have hchain := h.chain
  clear h
  induction times generalizing clock with
  | nil =>
      intro t ht
      cases ht
  | cons x times ih =>
      obtain ⟨hx, hrest⟩ := List.isChain_cons_cons.mp hchain
      have hall := chain_forall (le_refl) (fun h₁ h₂ => le_trans h₁ h₂) hrest
      have hlast : lastTime clock (x :: times) = lastTime x times := List.getLastD_cons
      intro t ht
      rw [hlast]
      rcases List.mem_cons.mp ht with ht | ht
      · rw [ht]
        exact ⟨hx, hall _ List.getLastD_mem_cons⟩
      · obtain ⟨hlo, hhi⟩ := ih hrest t ht
        exact ⟨hx.trans hlo, hhi⟩

/-- The drain ends at or after the time the flush started. -/
theorem le_lastTime {clock : Time} {events : List Event} {times : List Time}
    (h : DrainTimes clock events times) : clock ≤ lastTime clock times := by
  have hall := chain_forall (le_refl) (fun h₁ h₂ => le_trans h₁ h₂) h.chain
  exact hall _ List.getLastD_mem_cons

section Rule

variable {libs : Libs} {st : LocalStore} {shard : ShardID} {s s' : Sys} {act : Act}
  {G : World → World → Prop}

/-- **The worlds a step goes through** are related one to the next. -/
theorem Step.extends (h : Step libs st shard s act s') (hr : StepRule libs s act s' G) :
    ∃ ws, s'.moments = s.moments ++ ws ∧ List.IsChain G (s.world :: ws) ∧
      (s.world :: ws).getLast? = some s'.world := by
  have hend : ∀ {x y : World}, G x y → List.IsChain G [x, y] := by
    intro x y hg
    exact List.isChain_cons_cons.mpr ⟨hg, List.isChain_singleton _⟩
  have hcalled : ∀ {sw times ws w' r next act'}, r.isSome →
      SealCalled s act' (s.flushed sw times ws w' r next) := by
    intro sw times ws w' r next act' hsome
    obtain ⟨res, rfl⟩ := Option.isSome_iff_exists.mp hsome
    exact Or.inl (by simp [Sys.flushed])
  have hcommitted : ∀ {sw times ws w' r next id}, r = some (.ok id) →
      SealCommitted s (s.flushed sw times ws w' r next) := by
    intro sw times ws w' r next id hok
    subst hok
    exact ⟨_, id, rfl, rfl⟩
  cases h with
  | create hw hst h =>
      obtain ⟨t, ht, rfl, rfl, -⟩ := runs_newShardWriter h
      exact ⟨_, rfl, hend (hr.clock ht), rfl⟩
  | push hw h => exact ⟨[], (List.append_nil _).symm, List.isChain_singleton _, rfl⟩
  | tick hw ht h =>
      obtain ⟨P, hs, hd⟩ := hr.flush hw (Or.inl rfl)
      refine ⟨_, rfl, List.isChain_cons_cons.mpr ⟨hr.clock (le_lastTime ht), ?_⟩, ?_⟩
      · exact hs.chain_flush hr.clock hd hcalled (fun _ hid => hcommitted hid) h
      · rw [List.getLast?_cons_cons]
        exact h.getLast
  | stop hw ht h =>
      obtain ⟨P, hs, hd⟩ := hr.flush hw (Or.inr (Or.inl rfl))
      refine ⟨_, rfl, List.isChain_cons_cons.mpr ⟨hr.clock (le_lastTime ht), ?_⟩, ?_⟩
      · exact hs.chain_flush hr.clock hd hcalled (fun _ hid => hcommitted hid) h
      · rw [List.getLast?_cons_cons]
        exact h.getLast
  | crash h => exact ⟨_, rfl, hend (hr.crash h), rfl⟩
  | crashFlush hw ht hc h =>
      obtain ⟨P, hs, hd⟩ := hr.flush hw (Or.inr (Or.inr rfl))
      refine ⟨_, rfl, List.isChain_cons_cons.mpr ⟨hr.clock (le_lastTime ht), ?_⟩, ?_⟩
      · exact chain_append (hs.chain_cut hr.clock hd (Or.inr ⟨_, rfl⟩) hc) hc.getLast
          (hend (hr.crash h))
      · rw [List.getLast?_cons_cons, ← List.cons_append, List.getLast?_concat]
  | reap h =>
      refine ⟨_, rfl, ?_, h.getLast⟩
      obtain ⟨t, ws', ht, rfl, hc⟩ := runs_runOnce h
      exact List.isChain_cons_cons.mpr ⟨hr.clock ht, hc.imp fun _ _ hx => hr.reap rfl hx⟩

/-- Every step is tame. -/
theorem stepRule_tame (s : Sys) (act : Act) (s' : Sys) : StepRule libs s act s' Tame where
  clock := tame_readClock
  crash := tame_of_crash
  flush := by
    intro sw times _ _
    refine ⟨fun _ _ => True, ⟨?_, ?_⟩, ?_⟩
    · intro req x y _ _ h
      exact ⟨trivial, tame_of_idxStep h.clock h.idxStep⟩
    · intro req x₀ x _ _ _ _
      exact tame_of_sealOps _ _ _ _
    · refine ((ensures_walStep libs _ _ _ _).weaken fun _ _ h => tame_of_walStep h).mono ?_
      exact fun _ _ _ _ _ _ _ => trivial
  reap := by
    intro cfg E x y _ h
    exact tame_of_reapStep h

/-! ## What holds in every state -/

/-- What every writer of a run satisfies. -/
structure WriterOK (st : LocalStore) (shard : ShardID) (s : Sys) (sw : ShardWriter) : Prop where
  shard_eq : sw.shard = shard
  store : ∀ x, sw.cfg.store = some x → x = st
  rows : sw.memtable.rows = s.arrivals.map Arrival.event
  hour : truncateHour sw.openedAt = sw.openedAt
  opened : sw.openedAt ≤ s.world.clock

structure Base (st : LocalStore) (shard : ShardID) (s : Sys) : Prop where
  last : s.moments.getLast? = some s.world
  pending : ∀ w ∈ s.moments, PendingIdx w.db
  writer : ∀ sw, s.writer = some sw → WriterOK st shard s sw

theorem Base.pending_world (h : Base st shard s) : PendingIdx s.world.db :=
  h.pending _ (List.mem_of_getLast? h.last)

theorem map_event_drainedAt {events : List Event} {times : List Time}
    (h : times.length = events.length) : (drainedAt events times).map Arrival.event = events := by
  induction events generalizing times with
  | nil => rfl
  | cons e events ih =>
      cases times with
      | nil => cases h
      | cons t times =>
          show e :: (drainedAt events times).map Arrival.event = e :: events
          rw [ih (Nat.succ.inj h)]

theorem map_event_drainedRows {sw : ShardWriter} {times : List Time}
    (hrows : sw.memtable.rows = s.arrivals.map Arrival.event)
    (ht : DrainTimes s.world.clock sw.ring.drainAll.1 times) :
    (s.drainedRows sw times).map Arrival.event = sw.memtable.rows ++ sw.ring.drainAll.1 := by
  rw [Sys.drainedRows, List.map_append, map_event_drainedAt ht.length, hrows]

/-- The writer a flush leaves: the drained one, or one that starts over. -/
theorem flush_writer {sw sw' : ShardWriter} {force : Bool} {w w' : World} {ws : List World}
    {r : Option (Except Err BlockID)}
    (h : Runs sem (flushAndMaybeSeal libs sw force) w ws (sw', r) w') :
    sw'.shard = sw.shard ∧ sw'.cfg = sw.cfg ∧ sw'.ring = sw.ring.drainAll.2 ∧
      ((r = none ∧ sw'.openedAt = sw.openedAt ∧
          sw'.memtable.rows = sw.memtable.rows ++ sw.ring.drainAll.1) ∨
        ∃ res t, r = some res ∧ (w.clock ≤ t ∧ t ≤ w'.clock) ∧ sw'.openedAt = hourBoundary t ∧
          sw'.memtable = Memtable.new) := by
  obtain ⟨mt, w₁, ws₁, hp, hk⟩ := runs_flush h
  have hdrain : w.clock ≤ w₁.clock :=
    (((ensures_walStep libs _ _ _ w).strengthen (R := fun x y => x.clock ≤ y.clock)
      (fun _ _ hx => hx.clock) (fun _ => le_refl _) fun h₁ h₂ => le_trans h₁ h₂).runs hp).2.2
  rcases hk with ⟨rfl, rfl, -⟩ | ⟨store, t, res, ws₂, hstore, ht, rfl, -, hs, -, rfl⟩
  · exact ⟨rfl, rfl, rfl, Or.inl ⟨rfl, rfl, runs_processEvents_rows hp⟩⟩
  · have hrule : SealRule libs sw (fun x y => x.clock ≤ y.clock) (fun _ _ => True) True :=
      ⟨fun _ _ hx => ⟨trivial, hx.clock⟩, fun _ _ _ _ => le_refl _⟩
    have hq : FlushReq sw ((sw.drained mt).sealRequest store t) :=
      ⟨mt, store, t, runs_processEvents_rows hp, hstore, rfl⟩
    have hle := chain_forall (G := fun x y : World => x.clock ≤ y.clock) (fun _ => le_refl _)
      (fun h₁ h₂ => le_trans h₁ h₂) (hrule.chain_seal hq trivial (fun _ _ => trivial) hs) w'
      (List.mem_of_getLast? hs.getLast)
    exact ⟨rfl, rfl, rfl, Or.inr ⟨res, t, rfl, ⟨hdrain.trans ht, hle⟩, rfl, rfl⟩⟩

theorem WriterOK.flushed {sw sw' : ShardWriter} {times : List Time} {force : Bool}
    {ws : List World} {w' : World} {r : Option (Except Err BlockID)} (hok : WriterOK st shard s sw)
    (ht : DrainTimes s.world.clock sw.ring.drainAll.1 times)
    (h : Runs sem (flushAndMaybeSeal libs sw force) (s.drainedWorld times) ws (sw', r) w')
    (hclock : s.world.clock ≤ w'.clock) :
    WriterOK st shard (s.flushed sw times ws w' r (some sw')) sw' := by
  obtain ⟨hshard, hcfg, -, hk⟩ := flush_writer h
  refine ⟨hshard.trans hok.shard_eq, fun x hx => hok.store x (hcfg ▸ hx), ?_, ?_, ?_⟩
  · rcases hk with ⟨rfl, -, hrows⟩ | ⟨res, t, rfl, -, -, hmt⟩
    · rw [hrows]
      exact (map_event_drainedRows hok.rows ht).symm
    · rw [hmt]
      exact Memtable.rows_new
  · rcases hk with ⟨-, ho, -⟩ | ⟨res, t, -, -, ho, -⟩
    · rw [ho, hok.hour]
    · rw [ho]
      exact truncateHour_truncateHour t
  · rcases hk with ⟨-, ho, -⟩ | ⟨res, t, -, hle, ho, -⟩
    · rw [ho]
      exact hok.opened.trans hclock
    · rw [ho]
      exact (truncateHour_le t).trans hle.2

theorem Step.tame (h : Step libs st shard s act s') : Tame s.world s'.world := by
  obtain ⟨ws, -, hc, hlast⟩ := h.extends (stepRule_tame s act s')
  exact chain_forall Tame.refl (fun h₁ h₂ => h₁.trans h₂) hc _ (List.mem_of_getLast? hlast)

theorem Step.base (h : Step libs st shard s act s') (hb : Base st shard s) : Base st shard s' := by
  obtain ⟨ws, hm, hc, hlast⟩ := h.extends (stepRule_tame s act s')
  have htame := chain_forall Tame.refl (fun h₁ h₂ => h₁.trans h₂) hc
  have hclock : s.world.clock ≤ s'.world.clock := (htame _ (List.mem_of_getLast? hlast)).clock
  refine ⟨?_, ?_, ?_⟩
  · rw [hm]
    cases ws with
    | nil => simpa [hb.last] using hlast
    | cons x ws =>
        rw [List.getLast?_append_cons]
        rw [List.getLast?_cons_cons] at hlast
        exact hlast
  · intro x hx
    rw [hm] at hx
    rcases List.mem_append.mp hx with hx | hx
    · exact hb.pending x hx
    · exact (htame x (List.mem_cons_of_mem _ hx)).pending hb.pending_world
  · intro sw' hsw'
    cases h with
    | create hw hst h =>
        cases hsw'
        obtain ⟨t, ht, rfl, -, h1, h2, -, -, h5, h6⟩ := runs_newShardWriter h
        refine ⟨h1, fun x hx => hst x (h2 ▸ hx), ?_, ?_, ?_⟩
        · rw [h5]
          exact Memtable.rows_new
        · rw [h6]
          exact truncateHour_truncateHour t
        · rw [h6]
          exact truncateHour_le t
    | push hw h =>
        cases hsw'
        have hok := hb.writer _ hw
        exact ⟨hok.shard_eq, hok.store, hok.rows, hok.hour, hok.opened⟩
    | tick hw ht h =>
        cases hsw'
        exact (hb.writer _ hw).flushed ht h hclock
    | stop hw ht h => cases hsw'
    | crash h => cases hsw'
    | crashFlush hw ht hc h => cases hsw'
    | reap h =>
        have hok := hb.writer _ hsw'
        exact ⟨hok.shard_eq, hok.store, hok.rows, hok.hour, hok.opened.trans hclock⟩

theorem base_start (st : LocalStore) (shard : ShardID) (t : Time) : Base st shard (Sys.start t) := by
  refine ⟨rfl, ?_, ?_⟩
  · intro w hw
    rw [List.mem_singleton.mp hw]
    intro b hb
    exact absurd hb List.not_mem_nil
  · intro sw hsw
    cases hsw

/-- **The invariant rule over `Base`**, which every state of every run
satisfies. -/
theorem Reach.invariant_base {cond : Cond} {t : Time} {I : Sys → Prop}
    (h : Reach libs st shard cond (Sys.start t) s) (h₀ : I (Sys.start t))
    (hstep : ∀ a act b, Step libs st shard a act b → cond a act b → Base st shard a → I a → I b) :
    Base st shard s ∧ I s := by
  refine h.invariant (I := fun s => Base st shard s ∧ I s) ⟨base_start st shard t, h₀⟩ ?_
  intro a act b hs hc hI
  exact ⟨hs.base hI.1, hstep a act b hs hc hI.1 hI.2⟩

/-- **The rule as invariants use it**: every world on the way has index
batches pending at most, so `G` may rely on that. -/
theorem Step.relates (h : Step libs st shard s act s') (hb : Base st shard s)
    (hr : StepRule libs s act s' fun x y => PendingIdx x.db → G x y) :
    ∃ ws, s'.moments = s.moments ++ ws ∧ List.IsChain G (s.world :: ws) ∧
      (s.world :: ws).getLast? = some s'.world := by
  obtain ⟨ws, hm, hc, hlast⟩ := h.extends hr
  refine ⟨ws, hm, ?_, hlast⟩
  refine chain_imp_of_mem hc (fun x hx => ?_) fun x y hp hxy => hxy hp
  rcases List.mem_cons.mp hx with hx | hx
  · rw [hx]
    exact hb.pending_world
  · exact (h.base hb).pending x (by rw [hm]; exact List.mem_append_right _ hx)

/-- A chain over the worlds so far is extended by the worlds of a step. -/
theorem Base.chain_moments {ws : List World} (hb : Base st shard s)
    (hc : List.IsChain G s.moments) (hws : List.IsChain G (s.world :: ws))
    (hm : s'.moments = s.moments ++ ws) : List.IsChain G s'.moments := by
  cases hmoments : s.moments with
  | nil =>
      have hlast := hb.last
      rw [hmoments] at hlast
      cases hlast
  | cons w₀ rest =>
      rw [hm, hmoments, List.cons_append]
      refine chain_append (hmoments ▸ hc) ?_ hws
      rw [← hmoments, hb.last]

/-- The rule for a drain of which only the WAL keys matter. -/
theorem drainRule {sw : ShardWriter} {P : SealRequest → World → Prop} {called : Prop} {w : World}
    (hG : ∀ x y, WalStep sw.shard x y → G x y)
    (hP : called → ∀ w₁, WalOnly w w₁ → ∀ req t, FlushReq sw req → P req (readClock w₁ t)) :
    DrainRule libs sw G P called w := by
  have hens := (ensures_walStep libs sw.shard sw.ring.drainAll.1 sw.memtable w).strengthen
    (fun x y h => h.walOnly) WalOnly.refl fun h₁ h₂ => h₁.trans h₂
  refine (hens.weaken hG).mono fun _ w₁ h hc req t hq => ?_
  exact hP hc w₁ h.2 req t hq

/-- **A step either makes no call of `Seal`, or it is a flush that made one**,
which is the last in the log. -/
theorem Step.seals_cases (h : Step libs st shard s act s') :
    s'.seals = s.seals ∨ ∃ sw sw' times force ws w' res next, s.writer = some sw ∧
      act.Flushes times ∧ DrainTimes s.world.clock sw.ring.drainAll.1 times ∧
      Runs sem (flushAndMaybeSeal libs sw force) (s.drainedWorld times) ws (sw', some res) w' ∧
      s' = s.flushed sw times ws w' (some res) next := by
  cases h with
  | create | push | crash | crashFlush | reap => exact Or.inl rfl
  | @tick times sw sw' ws w' r hw ht h =>
      cases r with
      | none => exact Or.inl (List.append_nil _)
      | some res =>
          exact Or.inr ⟨sw, sw', times, false, ws, w', res, some sw', hw, Or.inl rfl, ht, h, rfl⟩
  | @stop times sw sw' ws w' r hw ht h =>
      cases r with
      | none => exact Or.inl (List.append_nil _)
      | some res =>
          exact Or.inr ⟨sw, sw', times, true, ws, w', res, none, hw, Or.inr (Or.inl rfl), ht, h, rfl⟩

/-- The rule for what is known of every call of `Seal`: kept for the earlier
ones, shown for the new one. -/
theorem Step.forall_seals {P : Sys → SealCall → Prop} (h : Step libs st shard s act s')
    (hkeep : ∀ c ∈ s.seals, P s c → P s' c)
    (hnew : ∀ {sw sw' times force ws w' res next}, s.writer = some sw → act.Flushes times →
      DrainTimes s.world.clock sw.ring.drainAll.1 times →
      Runs sem (flushAndMaybeSeal libs sw force) (s.drainedWorld times) ws (sw', some res) w' →
      s' = s.flushed sw times ws w' (some res) next →
      P s' ⟨sw.openedAt, s.drainedRows sw times, res⟩)
    (hs : ∀ c ∈ s.seals, P s c) : ∀ c ∈ s'.seals, P s' c := by
  intro c hc
  rcases h.seals_cases with hsame | ⟨sw, sw', times, force, ws, w', res, next, hw, hf, ht, hr, he⟩
  · rw [hsame] at hc
    exact hkeep c hc (hs c hc)
  · have hseals : s'.seals = s.seals ++ [⟨sw.openedAt, s.drainedRows sw times, res⟩] := by
      rw [he]
      rfl
    rw [hseals] at hc
    rcases List.mem_append.mp hc with hc | hc
    · exact hkeep c hc (hs c hc)
    · rw [List.mem_singleton.mp hc]
      exact hnew hw hf ht hr he

/-- What a flush did whose `Seal` succeeded. -/
theorem flush_sealed {sw sw' : ShardWriter} {force : Bool} {w w' : World} {ws : List World}
    {id : BlockID}
    (h : Runs sem (flushAndMaybeSeal libs sw force) w ws (sw', some (.ok id)) w') :
    ∃ req x₀ x, FlushReq sw req ∧ id = req.blockID ∧ Prepared libs req x₀ x ∧
      w' = x.commit (sealOps req.shard req.blockID (req.blockMeta libs) req.expiryHour) true := by
  obtain ⟨mt, w₁, ws₁, hp, hk⟩ := runs_flush h
  rcases hk with ⟨hr, -⟩ | ⟨store, t, res, ws₂, hstore, -, hr, -, hs, -, -⟩
  · cases hr
  · cases hr
    have hq : FlushReq sw ((sw.drained mt).sealRequest store t) :=
      ⟨mt, store, t, runs_processEvents_rows hp, hstore, rfl⟩
    rcases runs_sealBlock libs _ hs with ⟨⟨e, he⟩, -⟩ | ⟨hid, _, x, -, -, -, hx, hw'⟩
    · cases he
    · exact ⟨_, _, x, hq, Except.ok.inj hid, hx, hw'⟩

/-! ## The events of a run -/

/-- Every event in the ring and in the memtable satisfies `p`. -/
structure EventsAll (p : Event → Prop) (s : Sys) : Prop where
  ring : ∀ sw, s.writer = some sw → ∀ e ∈ sw.ring.buf, p e
  rows : ∀ a ∈ s.arrivals, p a.event

theorem EventsAll.drainedRows {p : Event → Prop} {sw : ShardWriter} {times : List Time}
    (hs : EventsAll p s) (hw : s.writer = some sw) : ∀ a ∈ s.drainedRows sw times, p a.event := by
  intro a ha
  rcases List.mem_append.mp ha with ha | ha
  · exact hs.rows a ha
  · obtain ⟨i, hi, rfl⟩ := List.getElem_of_mem ha
    simp only [drainedAt, List.getElem_zipWith]
    exact hs.ring sw hw _ (RingBuf.mem_drainAll (List.getElem_mem _))

theorem eventsAll_start (p : Event → Prop) (t : Time) : EventsAll p (Sys.start t) :=
  ⟨fun sw hsw => (by cases hsw), fun a ha => absurd ha List.not_mem_nil⟩

/-- What every pushed event satisfies, every event satisfies. -/
theorem Step.eventsAll {p : Event → Prop} (h : Step libs st shard s act s') (hzero : p zeroEvent)
    (hpush : ∀ e, act = .push e → p e) (hs : EventsAll p s) : EventsAll p s' := by
  cases h with
  | create hw hst h =>
      refine ⟨fun sw hsw e he => ?_, fun a ha => absurd ha List.not_mem_nil⟩
      cases hsw
      obtain ⟨t, -, -, -, -, -, -, hring, -⟩ := runs_newShardWriter h
      rw [hring] at he
      rw [List.eq_of_mem_replicate he]
      exact hzero
  | push hw h =>
      refine ⟨fun sw hsw e he => ?_, hs.rows⟩
      cases hsw
      rcases RingBuf.mem_buf_push h he with he | he
      · rw [he]
        exact hpush _ rfl
      · exact hs.ring _ hw e he
  | tick hw ht h =>
      refine ⟨fun sw hsw e he => ?_, fun a ha => ?_⟩
      · cases hsw
        obtain ⟨-, -, hring, -⟩ := flush_writer h
        rw [hring, RingBuf.buf_drainAll] at he
        exact hs.ring _ hw e he
      · simp only [Sys.flushed] at ha
        split_ifs at ha
        · exact hs.drainedRows hw a ha
        · exact absurd ha List.not_mem_nil
  | stop hw ht h =>
      refine ⟨fun sw hsw => (by cases hsw), fun a ha => ?_⟩
      simp [Sys.flushed] at ha
  | crash h => exact ⟨fun sw hsw => (by cases hsw), fun a ha => absurd ha List.not_mem_nil⟩
  | crashFlush hw ht hc h =>
      exact ⟨fun sw hsw => (by cases hsw), fun a ha => absurd ha List.not_mem_nil⟩
  | reap h => exact ⟨hs.ring, hs.rows⟩

end Rule

/-! ## Executed steps

The same steps under a function that performs each operation. -/

/-- A clock reading at `t`, unless it is already later. -/
def later (w : World) (t : Time) : Time := max w.clock t

/-- Operations without errors, with a clock that reads at least `t`. -/
def execAt (t : Time) : (o : Op) → World → o.Res × World
  | .now, w => (later w t, readClock w (later w t))
  | o, w => o.exec w

/-- The same, on a file system that can create no file. -/
def execFull (t : Time) : (o : Op) → World → o.Res × World
  | .create _, w => (.error .io, w)
  | o, w => execAt t o w

theorem sem_execAt (t : Time) (o : Op) (w : World) :
    sem o w (execAt t o w).1 (execAt t o w).2 := by
  cases o with
  | now => exact Or.inr ⟨le_max_left _ _, rfl⟩
  | _ => exact Or.inl rfl

theorem sem_execFull (t : Time) (o : Op) (w : World) :
    sem o w (execFull t o w).1 (execFull t o w).2 := by
  cases o with
  | create p => exact Or.inr ⟨rfl, rfl⟩
  | _ => exact sem_execAt t _ w

section Exec

variable (step : (o : Op) → World → o.Res × World)

def Sys.created (shard : ShardID) (cfg : WriterConfig) (s : Sys) : Sys :=
  let p := newShardWriter shard cfg
  { s with world := (exec (S := machine) step p s.world).2
           writer := some (exec (S := machine) step p s.world).1
           arrivals := []
           stale := ∃ q d, s.world.db.view.get (walKey shard q) = some d
           moments := s.moments ++ trace (S := machine) step p s.world }

def Sys.pushed (e : Event) (s : Sys) : Sys :=
  match s.writer with
  | none => s
  | some sw =>
      match sw.ring.push e with
      | none => s
      | some ring => { s with writer := some { sw with ring := ring } }

/-- A flush after which the writer goes on, or not. -/
def Sys.flushes (libs : Libs) (goesOn : Bool) (times : List Time) (s : Sys) : Sys :=
  match s.writer with
  | none => s
  | some sw =>
      let p := flushAndMaybeSeal libs sw (!goesOn)
      let out := exec (S := machine) step p (s.drainedWorld times)
      s.flushed sw times (trace (S := machine) step p (s.drainedWorld times)) out.2 out.1.2
        (if goesOn then some out.1.1 else none)

def Sys.reaped (cfg : ReaperConfig) (s : Sys) : Sys :=
  { s with world := (exec (S := machine) step (runOnce cfg).run s.world).2
           moments := s.moments ++ trace (S := machine) step (runOnce cfg).run s.world }

/-- A crash that loses nothing that was committed. -/
def Sys.crashed (s : Sys) : Sys :=
  let w := { s.world with db := { synced := s.world.db.view, pending := [] } }
  { s with world := w, writer := none, arrivals := [], moments := s.moments ++ [w] }

variable {step} (hstep : ∀ o w, sem o w (step o w).1 (step o w).2)
  {libs : Libs} {st : LocalStore} {shard : ShardID} {s : Sys}

theorem step_pushed {e : Event} (h : (s.writer.bind fun sw => sw.ring.push e).isSome) :
    Step libs st shard s (.push e) (s.pushed e) := by
  cases hw : s.writer with
  | none =>
      rw [hw] at h
      cases h
  | some sw =>
      rw [hw] at h
      obtain ⟨ring, hring⟩ := Option.isSome_iff_exists.mp h
      have hpush : sw.ring.push e = some ring := hring
      simp only [Sys.pushed, hw, hpush]
      exact .push hw hpush

theorem step_crashed : Step libs st shard s .crash s.crashed := by
  refine .crash ⟨⟨s.world.db.pending.length, ?_⟩, rfl, le_refl _⟩
  rw [List.take_length]
  rfl

include hstep

theorem step_created {cfg : WriterConfig} (hw : s.writer = none)
    (hst : ∀ x, cfg.store = some x → x = st) :
    Step libs st shard s (.create cfg) (s.created step shard cfg) :=
  .create hw hst (runs_exec hstep _ _)

theorem step_ticked {times : List Time} (hw : s.writer.isSome)
    (ht : DrainTimes s.world.clock s.waiting times) :
    Step libs st shard s (.tick times) (s.flushes step libs true times) := by
  obtain ⟨sw, hsw⟩ := Option.isSome_iff_exists.mp hw
  simp only [Sys.waiting, hsw] at ht
  simp only [Sys.flushes, hsw]
  exact .tick hsw ht (runs_exec hstep _ _)

theorem step_stopped {times : List Time} (hw : s.writer.isSome)
    (ht : DrainTimes s.world.clock s.waiting times) :
    Step libs st shard s (.stop times) (s.flushes step libs false times) := by
  obtain ⟨sw, hsw⟩ := Option.isSome_iff_exists.mp hw
  simp only [Sys.waiting, hsw] at ht
  simp only [Sys.flushes, hsw]
  exact .stop hsw ht (runs_exec hstep _ _)

theorem step_reaped {cfg : ReaperConfig} :
    Step libs st shard s (.reap cfg) (s.reaped step cfg) :=
  .reap (runs_exec hstep _ _)

end Exec

end Bbdb.Ingestion
