import Bbdb.Ingestion.Runs

/-!
# Ingestion — what becomes of sealed rows

A block is committed while its key is in pebble and its file can be read at
the block's path. A block id names a shard and an hour only, and `Seal`
overwrites what it finds under the id, so a committed block is safe exactly
as long as its id is not used again: every operation of a flush keeps the
committed blocks if the id it is sealing under is unused (`BlocksKept`).

`sealed_rows_readable` is the resulting invariant of whole runs, and
`restarted_in_the_hour` is a run in which an id is used twice.
-/

namespace Bbdb.Ingestion

open Bbdb.Meta Bbdb.Block Bbdb.Tier Bbdb.Ttl GoTime
open Prog hiding pure bind

/-! ## Committed blocks -/

/-- A committed block: its key is present and its file holds `rows`. -/
def Holds (libs : Libs) (st : LocalStore) (w : World) (id : BlockID) (rows : List Event) : Prop :=
  (w.db.view.get (blockKey id)).isSome ∧
    ∃ content, w.fs (st.blockPath id) = some content ∧ blockRows libs content = .ok rows

/-- The event is a row of a committed block. -/
def Readable (libs : Libs) (st : LocalStore) (w : World) (e : Event) : Prop :=
  ∃ id rows, Holds libs st w id rows ∧ e ∈ rows

/-- The rows of the block with the key `k`. -/
def rowsAt (libs : Libs) (st : LocalStore) (w : World) (k : Bytes) : List Event :=
  match (w.fs (st.blockPath (k.drop 4))).map (blockRows libs) with
  | some (.ok rows) => rows
  | _ => []

/-- All rows of committed blocks. -/
def readableRows (libs : Libs) (st : LocalStore) (w : World) : List Event :=
  (w.db.view.range prefixBlock (ascii "blk\x01")).flatMap fun p => rowsAt libs st w p.1

theorem mem_readableRows {libs : Libs} {st : LocalStore} {w : World} {e : Event}
    (h : Readable libs st w e) : e ∈ readableRows libs st w := by
  obtain ⟨id, rows, ⟨hkey, content, hfile, hrows⟩, he⟩ := h
  obtain ⟨v, hv⟩ := Option.isSome_iff_exists.mp hkey
  have hrange : prefixBlock ≤ blockKey id ∧ blockKey id < ascii "blk\x01" := by
    have hpre : prefixBlock = ascii "blk" ++ [0] := by decide
    have hup : ascii "blk\x01" = ascii "blk" ++ [1] := by decide
    rw [hup, hpre]
    refine (Bytes.mem_prefixRange (by decide) fun x hx hx' => ?_).mpr ?_
    · rw [UInt8.lt_iff_toNat_lt] at hx hx'
      have h1 : (1 : UInt8).toNat = 1 := rfl
      omega
    · rw [← hpre]
      exact List.prefix_append _ _
  refine List.mem_flatMap.mpr ⟨(blockKey id, v), OrdMap.mem_range.mpr ⟨hv, hrange⟩, ?_⟩
  have hdrop : (blockKey id).drop 4 = id := rfl
  simp only [rowsAt, hdrop, hfile, Option.map_some, hrows]
  exact he

/-- Every committed block of `w` is one of `w'`, with the same rows. -/
def BlocksKept (libs : Libs) (st : LocalStore) (w w' : World) : Prop :=
  ∀ id rows, Holds libs st w id rows → Holds libs st w' id rows

section Kept

variable {libs : Libs} {st : LocalStore} {w w' : World}

theorem BlocksKept.refl (w : World) : BlocksKept libs st w w := fun _ _ h => h

theorem BlocksKept.trans {a b c : World} (h₁ : BlocksKept libs st a b)
    (h₂ : BlocksKept libs st b c) : BlocksKept libs st a c :=
  fun id rows h => h₂ id rows (h₁ id rows h)

theorem blocksKept_of_same (hfs : w'.fs = w.fs)
    (hkeys : ∀ id, w'.db.view.get (blockKey id) = w.db.view.get (blockKey id)) :
    BlocksKept libs st w w' := by
  intro id rows h
  rw [Holds, hfs, hkeys]
  exact h

theorem blocksKept_of_walOnly (h : WalOnly w w') : BlocksKept libs st w w' :=
  blocksKept_of_same h.1 fun id =>
    h.2 _ (by rw [family_blockKey]; decide) (by rw [family_blockKey]; decide)

theorem blocksKept_of_crash (hp : PendingIdx w.db) (h : w.Crash w') : BlocksKept libs st w w' :=
  blocksKept_of_same h.fs fun _ => get_view_crash hp h.db (by rw [family_blockKey]; decide)

variable {req : SealRequest}

/-- Preparing a block under an unused id harms no committed block: the only
block file it touches is that of its id. -/
theorem blocksKept_of_prepStep (hfresh : w.db.view.get (blockKey req.blockID) = none)
    (h : PrepStep req w w') : BlocksKept libs st w w' := by
  intro id rows hid
  obtain ⟨hkey, content, hfile, hrows⟩ := hid
  have hsame : w'.db.view.get (blockKey id) = w.db.view.get (blockKey id) :=
    h.idxStep.get_view (by rw [family_blockKey]; decide)
  refine ⟨by rw [hsame]; exact hkey, content, ?_, hrows⟩
  rw [h.files, hfile]
  · exact (tmpPath_ne_blockPath _ _ _ _).symm
  · exact blockPath_ne_bloomPath _ _ _ _
  · intro hpath
    have hid : req.blockID = id := blockPath_inj ⟨_, _, rfl⟩ hpath.symm
    rw [← hid, hfresh] at hkey
    cases hkey

theorem blocksKept_of_sealOps (shard : ShardID) (id : BlockID) (bm : BlockMeta) (hour : UInt64) :
    BlocksKept libs st w (w.commit (sealOps shard id bm hour) true) := by
  intro id' rows h
  refine ⟨?_, h.2⟩
  rw [World.commit_db, Pebble.view_commit, get_sealOps]
  split_ifs with h₁ h₂ h₃
  · rfl
  · rfl
  · have hfam := family_of_mem_walRange h₃.1 h₃.2
    rw [family_blockKey] at hfam
    exact absurd hfam (by decide)
  · exact h.1

/-- The commit of a prepared block makes its rows a committed block. -/
theorem holds_of_prepared {x₀ x : World} (h : Prepared libs req x₀ x)
    (hp : ∀ e ∈ req.memtable.rows, e.payload.length < 2 ^ 32) :
    Holds libs req.store
      (x.commit (sealOps req.shard req.blockID (req.blockMeta libs) req.expiryHour) true)
      req.blockID (req.sorted libs).rows := by
  refine ⟨?_, req.file libs, h.block, blockRows_file libs req h.size hp⟩
  rw [World.commit_db, Pebble.view_commit, get_sealOps, if_neg, if_pos rfl]
  · rfl
  · exact ne_of_family (by rw [family_blockKey, family_expiryKey]; decide)

end Kept

/-! ## Runs -/

/-- The id the writer will seal under is not in use. -/
def Sys.IdUnused (s : Sys) : Prop :=
  ∀ sw, s.writer = some sw → s.world.db.view.get (blockKey sw.blockID) = none

/-- No block id is used twice, nothing is reaped, payloads fit their column. -/
def SealsFresh : Cond := fun s act s' =>
  match act with
  | .push e => e.payload.length < 2 ^ 32
  | .reap _ => False
  | _ => SealCalled s act s' → s.IdUnused

/-- The runs without a TTL deletion. -/
def NoReap : Cond := fun _ act _ => ∀ cfg, act ≠ .reap cfg

/-- The rows of every successful `Seal` can still be read. -/
def RowsReadable (libs : Libs) (st : LocalStore) (s : Sys) : Prop :=
  ∀ c ∈ s.seals, ∀ id, c.result = .ok id → ∀ a ∈ c.rows, Readable libs st s.world a.event

/-- The block of a successful `Seal` is committed and holds its rows. -/
def BlockStands (libs : Libs) (st : LocalStore) (s : Sys) (c : SealCall) : Prop :=
  ∀ id, c.result = .ok id →
    ∃ rows, Holds libs st s.world id rows ∧ rows.Perm (c.rows.map Arrival.event)

section Runs

variable {libs : Libs} {st : LocalStore} {shard : ShardID} {s s' : Sys} {act : Act} {t : Time}

theorem sealRule_blocks (sw : ShardWriter) (committed : Prop) :
    SealRule libs sw (BlocksKept libs st)
      (fun req w => w.db.view.get (blockKey req.blockID) = none) committed where
  prep _ hfresh h :=
    ⟨(h.idxStep.get_view (by rw [family_blockKey]; decide)).trans hfresh,
      blocksKept_of_prepStep hfresh h⟩
  commit _ _ _ _ := blocksKept_of_sealOps _ _ _ _

/-- A flush under an unused id keeps the committed blocks. -/
theorem drainRule_blocks {sw : ShardWriter} {called : Prop} {times : List Time}
    (hw : s.writer = some sw) (hfresh : called → s.IdUnused) :
    DrainRule libs sw (BlocksKept libs st)
      (fun req w => w.db.view.get (blockKey req.blockID) = none) called
      (s.drainedWorld times) := by
  refine drainRule (fun x y h => blocksKept_of_walOnly h.walOnly) fun hc w₁ honly req t hq => ?_
  have hsame := honly.2 (blockKey req.blockID) (by rw [family_blockKey]; decide)
    (by rw [family_blockKey]; decide)
  rw [hq.blockID_eq] at hsame ⊢
  exact hsame.trans (hfresh hc sw hw)

theorem stepRule_blocks (hfresh : SealCalled s act s' → s.IdUnused)
    (hreap : ∀ cfg, act ≠ .reap cfg) :
    StepRule libs s act s' fun x y => PendingIdx x.db → BlocksKept libs st x y where
  clock _ _ := blocksKept_of_same rfl fun _ => rfl
  crash h hp := blocksKept_of_crash hp h
  flush := by
    intro sw times hw _
    have hs : SealRule libs sw (BlocksKept libs st) _ (SealCommitted s s') := sealRule_blocks sw _
    refine ⟨_, ⟨fun hq hP hx => ⟨(hs.prep hq hP hx).1, fun _ => (hs.prep hq hP hx).2⟩,
      fun hc hq hP hx _ => hs.commit hc hq hP hx⟩, ?_⟩
    exact (drainRule_blocks hw hfresh).weaken fun _ _ hk _ => hk
  reap he := absurd he (hreap _)

theorem Step.blocksKept (h : Step libs st shard s act s') (hb : Base st shard s)
    (hfresh : SealCalled s act s' → s.IdUnused) (hreap : ∀ cfg, act ≠ .reap cfg) :
    BlocksKept libs st s.world s'.world := by
  obtain ⟨ws, -, hc, hlast⟩ := h.relates hb (stepRule_blocks hfresh hreap)
  exact chain_forall BlocksKept.refl (fun h₁ h₂ => h₁.trans h₂) hc _ (List.mem_of_getLast? hlast)

/-- **A successful `Seal` leaves a committed block with exactly its rows.** -/
theorem flushed_stands {sw sw' : ShardWriter} {times : List Time} {force : Bool} {ws : List World}
    {w' : World} {res : Except Err BlockID} {next : Option ShardWriter}
    (hb : Base st shard s) (hp : EventsAll (fun e => e.payload.length < 2 ^ 32) s)
    (hw : s.writer = some sw) (ht : DrainTimes s.world.clock sw.ring.drainAll.1 times)
    (h : Runs sem (flushAndMaybeSeal libs sw force) (s.drainedWorld times) ws (sw', some res) w') :
    BlockStands libs st (s.flushed sw times ws w' (some res) next)
      ⟨sw.openedAt, s.drainedRows sw times, res⟩ := by
  intro id hid
  cases hid
  obtain ⟨req, x₀, x, hq, rfl, hx, rfl⟩ := flush_sealed h
  have hok := hb.writer sw hw
  have hstore : req.store = st := hok.store _ hq.store_eq
  subst hstore
  have hrows : req.memtable.rows = (s.drainedRows sw times).map Arrival.event := by
    rw [hq.rows_eq, map_event_drainedRows hok.rows ht]
  refine ⟨_, holds_of_prepared hx fun e he => ?_, ?_⟩
  · have hmem : e ∈ (s.drainedRows sw times).map Arrival.event := hrows ▸ he
    obtain ⟨a, ha, rfl⟩ := List.mem_map.mp hmem
    exact hp.drainedRows hw a ha
  · rw [← hrows]
    exact req.memtable.perm_rows_sort libs

theorem SealsFresh.not_reap (h : SealsFresh s act s') (cfg : ReaperConfig) : act ≠ .reap cfg := by
  intro he
  subst he
  exact h

theorem SealsFresh.payload (h : SealsFresh s act s') (e : Event) (he : act = .push e) :
    e.payload.length < 2 ^ 32 := by
  subst he
  exact h

theorem SealsFresh.idUnused (h : SealsFresh s act s') (hs : Step libs st shard s act s')
    (hcalled : SealCalled s act s') : s.IdUnused := by
  cases act with
  | push e =>
      cases hs
      rcases hcalled with hne | ⟨times, he⟩
      · exact absurd rfl hne
      · cases he
  | reap cfg => exact h.elim
  | create | tick | stop | crash | crashFlush => exact h hcalled

/-- **Without a second use of an id every sealed block stands.** -/
theorem blocks_stand (h : Reach libs st shard SealsFresh (Sys.start t) s) :
    ∀ c ∈ s.seals, BlockStands libs st s c := by
  let Inv : Sys → Prop := fun s =>
    EventsAll (fun e => e.payload.length < 2 ^ 32) s ∧ ∀ c ∈ s.seals, BlockStands libs st s c
  have hstart : Inv (Sys.start t) := ⟨eventsAll_start _ t, fun c hc => absurd hc List.not_mem_nil⟩
  refine (h.invariant_base hstart fun a act b hs hc hb hinv => ?_).2.2
  obtain ⟨hp, hstand⟩ := hinv
  refine ⟨hs.eventsAll (by decide) hc.payload hp, ?_⟩
  refine hs.forall_seals (fun c _ hcall id hid => ?_) (fun hw _ ht hr he => ?_) hstand
  · obtain ⟨rows, hholds, hperm⟩ := hcall id hid
    exact ⟨rows, hs.blocksKept hb (hc.idUnused hs) hc.not_reap id rows hholds, hperm⟩
  · rw [he]
    exact flushed_stands hb hp hw ht hr

/-- **Sealed rows stay readable**, in every run in which no block id is used
a second time. -/
theorem sealed_rows_readable (libs : Libs) (st : LocalStore) (shard : ShardID) (t : Time) (s : Sys)
    (h : Reach libs st shard SealsFresh (Sys.start t) s) : RowsReadable libs st s := by
  intro c hc id hid a ha
  obtain ⟨rows, hholds, hperm⟩ := blocks_stand h c hc id hid
  exact ⟨id, rows, hholds, hperm.mem_iff.mpr (List.mem_map_of_mem ha)⟩

end Runs

/-! ## An id used twice -/

/-- A hot store at the root, and a writer configuration with every default. -/
def hotStore : LocalStore := ⟨[], tierHot⟩

def plainConfig : WriterConfig := ⟨1, some hotStore, [ascii "tmp"], 0, 0, 0, 0⟩

/-- 2026-06-11T14:00:00Z. -/
def afternoon : Time := 1781186400000000000

/-- A writer is created and gets `e`. -/
def Sys.opened (e : Event) (s : Sys) : Sys := (s.created (execAt 0) 0 plainConfig).pushed e

/-- The writer is stopped at once. -/
def Sys.stopped (s : Sys) : Sys := s.flushes (execAt 0) Libs.plain false [s.world.clock]

/-- Two writers, one after the other, within one hour. -/
def restarted : Sys :=
  (((Sys.start afternoon).opened ⟨256, 1, [1]⟩).stopped.opened ⟨512, 2, [2]⟩).stopped

/-- Creating, writing and stopping as three steps. -/
theorem reach_stopped {cond : Cond} {s₀ s : Sys} {e : Event}
    (h : Reach Libs.plain hotStore 0 cond s₀ s) (hw : s.writer = none)
    (hroom : ((s.created (execAt 0) 0 plainConfig).writer.bind fun sw => sw.ring.push e).isSome)
    (hopen : (s.opened e).writer.isSome)
    (ht : DrainTimes (s.opened e).world.clock (s.opened e).waiting [(s.opened e).world.clock])
    (hcreate : cond s (.create plainConfig) (s.created (execAt 0) 0 plainConfig))
    (hpush : cond (s.created (execAt 0) 0 plainConfig) (.push e) (s.opened e))
    (hstop : cond (s.opened e) (.stop [(s.opened e).world.clock]) (s.opened e).stopped) :
    Reach Libs.plain hotStore 0 cond s₀ (s.opened e).stopped := by
  have hst : ∀ x, plainConfig.store = some x → x = hotStore := by
    intro x hx
    exact (Option.some.inj hx).symm
  have h₁ := h.step (step_created (sem_execAt 0) hw hst) hcreate
  have h₂ := h₁.step (step_pushed hroom) hpush
  exact h₂.step (step_stopped (sem_execAt 0) hopen ht) hstop

/-- One writer, stopped. -/
def stoppedOnce : Sys := ((Sys.start afternoon).opened ⟨256, 1, [1]⟩).stopped

set_option maxRecDepth 100000 in
theorem reach_stoppedOnce {cond : Cond}
    (hcreate : cond (Sys.start afternoon) (.create plainConfig)
      ((Sys.start afternoon).created (execAt 0) 0 plainConfig))
    (hpush : cond ((Sys.start afternoon).created (execAt 0) 0 plainConfig) (.push ⟨256, 1, [1]⟩)
      ((Sys.start afternoon).opened ⟨256, 1, [1]⟩))
    (hstop : cond ((Sys.start afternoon).opened ⟨256, 1, [1]⟩) (.stop [afternoon]) stoppedOnce) :
    Reach Libs.plain hotStore 0 cond (Sys.start afternoon) stoppedOnce :=
  reach_stopped Relation.ReflTransGen.refl rfl (by decide +kernel) (by decide +kernel)
    (by decide +kernel) hcreate hpush hstop

/-- Another writer, created and stopped an hour later. -/
def nextHour : Time := afternoon + hour

def reopenedLater : Sys :=
  (stoppedOnce.created (execAt nextHour) 0 plainConfig).pushed ⟨512, 2, [2]⟩

def stoppedTwice : Sys := reopenedLater.flushes (execAt nextHour) Libs.plain false [nextHour]

theorem idUnused_of_none {s s' : Sys} {act : Act} (h : s.writer = none) : SealCalled s act s' →
    s.IdUnused := by
  intro _ sw hsw
  rw [h] at hsw
  cases hsw

set_option maxRecDepth 100000 in
theorem reach_stoppedTwice :
    Reach Libs.plain hotStore 0 SealsFresh (Sys.start afternoon) stoppedTwice := by
  have hst : ∀ x, plainConfig.store = some x → x = hotStore := by
    intro x hx
    exact (Option.some.inj hx).symm
  have h₀ : Reach Libs.plain hotStore 0 SealsFresh (Sys.start afternoon) stoppedOnce := by
    refine reach_stoppedOnce (idUnused_of_none rfl) ?_ fun _ => ?_
    · show [(1 : UInt8)].length < 2 ^ 32
      decide
    · intro sw hsw
      cases hsw
      rfl
  have h₁ := h₀.step (step_created (sem_execAt nextHour) rfl hst) (idUnused_of_none rfl)
  have h₂ := h₁.step (step_pushed (e := ⟨512, 2, [2]⟩) (by decide +kernel))
    (show [(2 : UInt8)].length < 2 ^ 32 by decide)
  refine h₂.step (step_stopped (sem_execAt nextHour) (by decide +kernel)
    (show DrainTimes _ _ [nextHour] by decide +kernel)) fun _ => ?_
  -- the second block has the id of its own hour
  intro sw hsw
  have hunused : (reopenedLater.writer.all fun sw =>
      decide (reopenedLater.world.db.view.get (blockKey sw.blockID) = none)) = true := by
    decide +kernel
  have hwriter : reopenedLater.writer = some sw := hsw
  rw [hwriter] at hunused
  exact of_decide_eq_true hunused

set_option maxRecDepth 100000 in
/-- Two blocks of two hours: both rows are readable. -/
theorem sealed_rows_readable_stoppedTwice :
    Reach Libs.plain hotStore 0 SealsFresh (Sys.start afternoon) stoppedTwice ∧
      RowsReadable Libs.plain hotStore stoppedTwice ∧
      stoppedTwice.seals.map (fun c => (c.result.toBool, c.rows.map Arrival.event)) =
        [(true, [⟨256, 1, [1]⟩]), (true, [⟨512, 2, [2]⟩])] :=
  ⟨reach_stoppedTwice, sealed_rows_readable Libs.plain hotStore 0 afternoon stoppedTwice
    reach_stoppedTwice, by decide +kernel⟩

set_option maxRecDepth 100000 in
/-- **Sealing twice in an hour destroys the first block**: no error occurs,
both seals succeed, and the first one's row is in no committed block. -/
theorem restart_overwrites_sealed_block :
    Reach Libs.plain hotStore 0 NoReap (Sys.start afternoon) restarted ∧
      ¬ RowsReadable Libs.plain hotStore restarted := by
  constructor
  · have h₁ : Reach Libs.plain hotStore 0 NoReap (Sys.start afternoon) stoppedOnce :=
      reach_stoppedOnce nofun nofun nofun
    exact reach_stopped h₁ rfl (by decide +kernel) (by decide +kernel) (by decide +kernel)
      nofun nofun nofun
  · intro hread
    have hsealed : (restarted.seals.any fun c => c.result.toBool &&
        c.rows.any fun a => a.event = ⟨256, 1, [1]⟩) = true := by decide +kernel
    obtain ⟨c, hc, hcall⟩ := List.any_eq_true.mp hsealed
    obtain ⟨hok, hrows⟩ := Bool.and_eq_true_iff.mp hcall
    obtain ⟨a, ha, he⟩ := List.any_eq_true.mp hrows
    have hlost : ⟨256, 1, [1]⟩ ∉ readableRows Libs.plain hotStore restarted.world := by
      decide +kernel
    cases hres : c.result with
    | error err =>
        rw [hres] at hok
        cases hok
    | ok id =>
        have hmem := mem_readableRows (hread c hc id hres a ha)
        rw [of_decide_eq_true he] at hmem
        exact hlost hmem

end Bbdb.Ingestion
