import Bbdb.Block.CrashSafety
import Bbdb.Ingestion.RingBuf
import Bbdb.Meta.Wal

/-!
# Ingestion — the shard writer

A shard's writer drains its ring, appends every event to the WAL and to the
memtable, and seals the memtable when the UTC hour has changed, when it has
grown too large, or when it is stopped.

`flushAndMaybeSeal` also returns what `Seal` answered, which the source only
logs. What a run of it can do is said once, in `runs_flush` and `cuts_flush`:
first `WalStep`s, one clock reading, then the run of a `Seal`.
-/

namespace Bbdb.Ingestion

open Bbdb.Meta Bbdb.Block Bbdb.Tier GoTime
open Prog hiding pure bind

def defaultMaxBlockBytes : Int64 := 268435456

structure WriterConfig where
  ringBufSize : Int
  /-- Autoseal is disabled without a store. -/
  store : Option LocalStore
  tmpDir : Path
  retention : Int
  maxBlockBytes : Int64
  bloomFPR : Rat
  idxChunkSize : Int

structure ShardWriter where
  shard : ShardID
  cfg : WriterConfig
  ring : RingBuf
  memtable : Memtable
  /-- The start of the UTC hour in which the current block was opened. -/
  openedAt : Time

def hourBoundary (t : Time) : Time := truncateHour t

/-- `NewShardWriter`. -/
def newShardWriter (shard : ShardID) (cfg : WriterConfig) : Proc ShardWriter := do
  let now ← timeNow
  pure { shard := shard
         cfg := { cfg with maxBlockBytes :=
           if cfg.maxBlockBytes ≤ 0 then defaultMaxBlockBytes else cfg.maxBlockBytes }
         ring := newRingBuf cfg.ringBufSize
         memtable := Memtable.new
         openedAt := hourBoundary now }

variable (libs : Libs)

/-- The loop over the drained events. An event that cannot be marshalled is
dropped; one whose WAL append fails is kept in the memtable all the same. -/
def processEvents (shard : ShardID) : List Event → Memtable → Proc Memtable
  | [], mt => pure mt
  | e :: events, mt =>
      match libs.marshal e with
      | .error _ => processEvents shard events mt
      | .ok data => do
          let _ ← (walAppend shard data).run
          processEvents shard events (mt.append e)

/-- What `sealCurrent` asks `Seal` to do. -/
def ShardWriter.sealRequest (sw : ShardWriter) (store : LocalStore) (sealedAt : Time) :
    SealRequest where
  store := store
  tmpDir := sw.cfg.tmpDir
  shard := sw.shard
  eventType := (sw.shard >>> 8).toUInt8
  openedAt := Int64.ofInt sw.openedAt
  sealedAt := Int64.ofInt sealedAt
  memtable := sw.memtable
  retention := sw.cfg.retention
  bloomFPR := sw.cfg.bloomFPR
  idxChunkSize := sw.cfg.idxChunkSize

/-- `sealCurrent`: whatever `Seal` answers, the memtable is replaced. -/
def sealCurrent (sw : ShardWriter) (store : LocalStore) (sealedAt : Time) :
    Proc (ShardWriter × Except Err BlockID) := do
  let r ← (sealBlock libs (sw.sealRequest store sealedAt)).run
  pure ({ sw with memtable := Memtable.new, openedAt := hourBoundary sealedAt }, r)

/-- The three seal triggers. -/
def ShardWriter.sealTriggered (sw : ShardWriter) (forceSeal : Bool) (now : Time) : Bool :=
  let hourChanged := (utc now).hour ≠ (utc sw.openedAt).hour ∨ (utc now).day ≠ (utc sw.openedAt).day
    ∨ (utc now).month ≠ (utc sw.openedAt).month ∨ (utc now).year ≠ (utc sw.openedAt).year
  let sizeExceeded := sw.memtable.approxBytes ≥ sw.cfg.maxBlockBytes
  forceSeal || hourChanged || sizeExceeded

/-- The second half of `flushAndMaybeSeal`: check the triggers. -/
def maybeSeal (sw : ShardWriter) (forceSeal : Bool) :
    Proc (ShardWriter × Option (Except Err BlockID)) :=
  match sw.cfg.store with
  | none => pure (sw, none)
  | some store =>
      if sw.memtable.len = 0 then pure (sw, none)
      else do
        let now ← timeNow
        if sw.sealTriggered forceSeal now then do
          let (sw', r) ← sealCurrent libs sw store now
          pure (sw', some r)
        else pure (sw, none)

/-- `flushAndMaybeSeal`. -/
def flushAndMaybeSeal (sw : ShardWriter) (forceSeal : Bool) :
    Proc (ShardWriter × Option (Except Err BlockID)) := do
  let (events, ring) := sw.ring.drainAll
  let mt ← processEvents libs sw.shard events sw.memtable
  maybeSeal libs { sw with ring := ring, memtable := mt } forceSeal

/-! ## Draining into WAL and memtable -/

/-- Every event can be marshalled, so the loop always appends. -/
theorem processEvents_cons (shard : ShardID) (e : Event) (events : List Event) (mt : Memtable) :
    ∃ data, libs.unmarshal data = some e ∧ processEvents libs shard (e :: events) mt =
      (walAppend shard data).run >>= fun _ => processEvents libs shard events (mt.append e) := by
  obtain ⟨data, hm, hu⟩ := libs.unmarshal_marshal e
  exact ⟨data, hu, by rw [processEvents, hm]⟩

theorem calls_processEvents (shard : ShardID) (events : List Event) (mt : Memtable) :
    Calls (S := machine) (WalCalls shard) (processEvents libs shard events mt) := by
  induction events generalizing mt with
  | nil => exact calls_pure _
  | cons e events ih =>
      obtain ⟨data, -, he⟩ := processEvents_cons libs shard e events mt
      rw [he]
      exact calls_bind (calls_walAppend shard data) fun _ => ih _

theorem ensures_walStep (shard : ShardID) (events : List Event) (mt : Memtable) (w : World) :
    Ensures sem (WalStep shard) (processEvents libs shard events mt) (fun _ _ => True) w :=
  (calls_processEvents libs shard events mt).ensures
    (fun _ _ _ _ ho hs => walStep_of_sem ho hs) w

variable {libs} {w w' : World} {ws : List World}

/-- Whatever the WAL does, every drained event ends up in the memtable. -/
theorem runs_processEvents_rows {shard : ShardID} {events : List Event} {mt mt' : Memtable}
    (h : Runs sem (processEvents libs shard events mt) w ws mt' w') :
    mt'.rows = mt.rows ++ events := by
  induction events generalizing mt w ws with
  | nil =>
      obtain ⟨-, rfl, -⟩ := h
      simp
  | cons e events ih =>
      obtain ⟨data, -, he⟩ := processEvents_cons libs shard e events mt
      rw [he] at h
      obtain ⟨_, _, _, _, -, -, hk⟩ := runs_bind.mp h
      rw [ih hk, Memtable.rows_append, List.append_assoc, List.singleton_append]

theorem walOnly_of_processEvents {shard : ShardID} {events : List Event} {mt mt' : Memtable}
    (h : Runs sem (processEvents libs shard events mt) w ws mt' w') : WalOnly w w' := by
  have hchain := ((ensures_walStep libs shard events mt w).runs h).1
  exact Prog.chain_forall WalOnly.refl (fun h₁ h₂ => h₁.trans h₂)
    (hchain.imp fun _ _ hs => hs.walOnly) w' (List.mem_of_getLast? h.getLast)

theorem result_processEvents (shard : ShardID) (events : List Event) (mt : Memtable) (w : World) :
    ((processEvents libs shard events mt).exec w).1 = events.foldl Memtable.append mt := by
  induction events generalizing mt w with
  | nil => rfl
  | cons e events ih =>
      obtain ⟨data, -, he⟩ := processEvents_cons libs shard e events mt
      rw [he, List.foldl_cons]
      have hwal : (walAppend shard data).run.exec w = (((walAppend shard data).run.exec w).1,
          ((walAppend shard data).run.exec w).2) := rfl
      exact (congrArg Prod.fst (exec_bind_of hwal)).trans (ih _ _)

/-- From `w` to `w'` the WAL of the shard has only gained entries, and those
hold events of the list. -/
structure WalGrows (libs : Libs) (shard : ShardID) (events : List Event) (w w' : World) : Prop
    extends WalStep shard w w' where
  inv : SeqInv shard w'.db.view
  kept : ∀ q d, w.db.view.get (walKey shard q) = some d →
    w'.db.view.get (walKey shard q) = some d
  new : ∀ q d, w'.db.view.get (walKey shard q) = some d →
    w.db.view.get (walKey shard q) = some d ∨ ∃ e ∈ events, libs.unmarshal d = some e

/-- **As long as the counter does not wrap, draining only adds WAL entries.** -/
theorem ensures_processEvents {shard : ShardID} {events : List Event} {mt : Memtable}
    (hinv : SeqInv shard w.db.view)
    (hroom : nextSeq shard w.db.view + events.length ≤ 2 ^ 64) :
    Ensures sem (WalGrows libs shard events) (processEvents libs shard events mt)
      (fun _ w' => SeqInv shard w'.db.view ∧
        nextSeq shard w'.db.view ≤ nextSeq shard w.db.view + events.length) w := by
  induction events generalizing mt w with
  | nil => exact ⟨hinv, Nat.le_refl _⟩
  | cons e events ih =>
      rw [List.length_cons] at hroom
      obtain ⟨data, hu, he⟩ := processEvents_cons libs shard e events mt
      rw [he]
      refine ensures_bind (((@ensures_walAppend shard w data hinv (by omega)).weaken ?_).mono ?_)
      · -- the entry of this append holds this event
        intro x y hxy
        refine ⟨hxy.toWalStep, hxy.inv, hxy.kept shard, fun q d hd => ?_⟩
        rcases hxy.new shard q d hd with hold | ⟨-, rfl⟩
        · exact Or.inl hold
        · exact Or.inr ⟨e, List.mem_cons_self, hu⟩
      · rintro _ w₁ ⟨hinv₁, hseq₁⟩
        refine ((ih hinv₁ (by omega)).weaken ?_).mono ?_
        · intro x y hxy
          refine ⟨hxy.toWalStep, hxy.inv, hxy.kept, fun q d hd => ?_⟩
          rcases hxy.new q d hd with hold | ⟨e', he', hu'⟩
          · exact Or.inl hold
          · exact Or.inr ⟨e', List.mem_cons_of_mem _ he', hu'⟩
        · rintro _ w₂ ⟨hinv₂, hseq₂⟩
          rw [List.length_cons]
          exact ⟨hinv₂, by omega⟩

/-! ## What a flush does -/

/-- The writer between its drain and the seal triggers. -/
def ShardWriter.drained (sw : ShardWriter) (mt : Memtable) : ShardWriter :=
  { sw with ring := sw.ring.drainAll.2, memtable := mt }

/-- The writer after a seal at `t`. -/
def ShardWriter.reopened (sw : ShardWriter) (t : Time) : ShardWriter :=
  { sw with memtable := Memtable.new, openedAt := hourBoundary t }

variable {sw sw' : ShardWriter} {force : Bool} {r : Option (Except Err BlockID)}

/-- **What the check of the triggers did.** It left the writer alone, after a
clock reading at most, and that only without a store, on an empty memtable or
unforced; or it read the clock and ran `Seal`. -/
theorem runs_maybeSeal (h : Runs sem (maybeSeal libs sw force) w ws (sw', r) w') :
    (r = none ∧ sw' = sw ∧
        ((ws = [] ∧ w' = w) ∨ ∃ t, w.clock ≤ t ∧ w' = readClock w t ∧ ws = [w']) ∧
        (sw.cfg.store = none ∨ sw.memtable.len = 0 ∨ force = false)) ∨
      ∃ store t res ws₂, sw.cfg.store = some store ∧ w.clock ≤ t ∧ r = some res ∧
        sw.sealTriggered force t = true ∧
        Runs sem (sealBlock libs (sw.sealRequest store t)).run (readClock w t) ws₂ res w' ∧
        ws = readClock w t :: ws₂ ∧ sw' = sw.reopened t := by
  unfold maybeSeal at h
  split at h
  · -- no store
    rename_i hstore
    obtain ⟨rfl, hr, rfl⟩ := h
    cases hr
    exact Or.inl ⟨rfl, rfl, Or.inl ⟨rfl, rfl⟩, Or.inl hstore⟩
  · rename_i store hstore
    split at h
    · -- an empty memtable
      rename_i hlen
      obtain ⟨rfl, hr, rfl⟩ := h
      cases hr
      exact Or.inl ⟨rfl, rfl, Or.inl ⟨rfl, rfl⟩, Or.inr (Or.inl hlen)⟩
    · obtain ⟨t, w₂, _, ws₃, rfl, hnow, hk₂⟩ := runs_bind.mp h
      obtain ⟨ht, rfl, rfl⟩ := runs_timeNow hnow
      split at hk₂
      · rename_i htrig
        obtain ⟨⟨sw₂, res⟩, w₃, _, ws₄, rfl, hseal, hk₃⟩ := runs_bind.mp hk₂
        obtain ⟨rfl, hr, rfl⟩ := hk₃
        cases hr
        obtain ⟨res', w₄, ws₅, ws₆, rfl, hs, hk₄⟩ := runs_bind.mp hseal
        obtain ⟨rfl, hr, rfl⟩ := hk₄
        cases hr
        exact Or.inr ⟨store, t, res, ws₅, hstore, ht, rfl, htrig, hs, by simp, rfl⟩
      · rename_i htrig
        obtain ⟨rfl, hr, rfl⟩ := hk₂
        cases hr
        have hforce : force = false := by
          cases force with
          | false => rfl
          | true => exact absurd rfl htrig
        exact Or.inl ⟨rfl, rfl, Or.inr ⟨t, ht, rfl, rfl⟩, Or.inr (Or.inr hforce)⟩

/-- **What a complete flush did.** It drained the ring into WAL and memtable;
then it either left it at that, after a clock reading at most, or it read the
clock and ran `Seal`. -/
theorem runs_flush (h : Runs sem (flushAndMaybeSeal libs sw force) w ws (sw', r) w') :
    ∃ mt w₁ ws₁, Runs sem (processEvents libs sw.shard sw.ring.drainAll.1 sw.memtable) w ws₁ mt w₁ ∧
      ((r = none ∧ sw' = sw.drained mt ∧
          ((ws = ws₁ ∧ w' = w₁) ∨ ∃ t, w₁.clock ≤ t ∧ w' = readClock w₁ t ∧ ws = ws₁ ++ [w'])) ∨
        ∃ store t res ws₂, sw.cfg.store = some store ∧ w₁.clock ≤ t ∧ r = some res ∧
          (sw.drained mt).sealTriggered force t = true ∧
          Runs sem (sealBlock libs ((sw.drained mt).sealRequest store t)).run
            (readClock w₁ t) ws₂ res w' ∧
          ws = ws₁ ++ readClock w₁ t :: ws₂ ∧ sw' = (sw.drained mt).reopened t) := by
  obtain ⟨mt, w₁, ws₁, ws₂, rfl, hp, hk⟩ := runs_bind.mp h
  refine ⟨mt, w₁, ws₁, hp, ?_⟩
  change Runs sem (maybeSeal libs (sw.drained mt) force) w₁ ws₂ (sw', r) w' at hk
  rcases runs_maybeSeal hk with
    ⟨hr, hsw, hquiet | ⟨t, ht, hw, hws⟩, -⟩ | ⟨store, t, res, ws₃, hst, ht, hr, htr, hs, hws, hsw⟩
  · exact Or.inl ⟨hr, hsw, Or.inl ⟨by rw [hquiet.1, List.append_nil], hquiet.2⟩⟩
  · exact Or.inl ⟨hr, hsw, Or.inr ⟨t, ht, hw, by rw [hws]⟩⟩
  · exact Or.inr ⟨store, t, res, ws₃, hst, ht, hr, htr, hs, by rw [hws], hsw⟩

/-- **Where a flush can be when a crash cuts it off**: in its drain, before
its clock reading, or in `Seal`. -/
theorem cuts_flush (h : Cuts sem (flushAndMaybeSeal libs sw force) w ws w') :
    Cuts sem (processEvents libs sw.shard sw.ring.drainAll.1 sw.memtable) w ws w' ∨
    ∃ mt w₁ ws₁, Runs sem (processEvents libs sw.shard sw.ring.drainAll.1 sw.memtable) w ws₁ mt w₁ ∧
      ((ws = ws₁ ∧ w' = w₁) ∨
        ∃ store t ws₂, sw.cfg.store = some store ∧ w₁.clock ≤ t ∧
          (sw.drained mt).sealTriggered force t = true ∧
          Cuts sem (sealBlock libs ((sw.drained mt).sealRequest store t)).run
            (readClock w₁ t) ws₂ w' ∧
          ws = ws₁ ++ readClock w₁ t :: ws₂) := by
  rcases cuts_bind.mp h with hc | ⟨mt, w₁, ws₁, ws₂, rfl, hp, hk⟩
  · exact Or.inl hc
  · refine Or.inr ⟨mt, w₁, ws₁, hp, ?_⟩
    change Cuts sem (maybeSeal libs (sw.drained mt) force) w₁ ws₂ w' at hk
    unfold maybeSeal at hk
    split at hk
    · exact hk.elim
    · rename_i store hstore
      split at hk
      · exact hk.elim
      · rcases cuts_bind.mp hk with hc | ⟨t, w₂, _, ws₃, rfl, hnow, hk₂⟩
        · -- the clock has not been read yet
          rcases hc with ⟨rfl, rfl⟩ | ⟨_, _, _, -, -, hc⟩
          · exact Or.inl ⟨by simp, rfl⟩
          · exact hc.elim
        · obtain ⟨ht, rfl, rfl⟩ := runs_timeNow hnow
          split at hk₂
          · rename_i htrig
            rcases cuts_bind.mp hk₂ with hc | ⟨_, _, _, _, -, -, hk₃⟩
            · rcases cuts_bind.mp hc with hs | ⟨_, _, _, _, -, -, hk₄⟩
              · exact Or.inr ⟨store, t, ws₃, hstore, ht, htrig, hs, by simp⟩
              · exact hk₄.elim
            · exact hk₃.elim
          · exact hk₂.elim

/-- **A forced flush when nothing goes wrong** runs `Seal` on what there is. -/
theorem exec_flush_forced {sw : ShardWriter} {store : LocalStore} {mt : Memtable}
    (hstore : sw.cfg.store = some store)
    (hmt : sw.ring.drainAll.1.foldl Memtable.append sw.memtable = mt) (hlen : mt.len ≠ 0)
    (w : World) : ∃ w₁, WalOnly w w₁ ∧ (flushAndMaybeSeal libs sw true).exec w =
      (((sw.drained mt).reopened w₁.clock,
        some ((sealBlock libs ((sw.drained mt).sealRequest store w₁.clock)).run.exec w₁).1),
        ((sealBlock libs ((sw.drained mt).sealRequest store w₁.clock)).run.exec w₁).2) := by
  obtain ⟨w₁, hwal, hdrained⟩ : ∃ w₁, WalOnly w w₁ ∧
      (processEvents libs sw.shard sw.ring.drainAll.1 sw.memtable).exec w = (mt, w₁) :=
    ⟨_, walOnly_of_processEvents (runs_procExec _ w),
      Prod.ext ((result_processEvents _ _ _ w).trans hmt) rfl⟩
  refine ⟨w₁, hwal, (exec_bind_of hdrained).trans ?_⟩
  show (maybeSeal libs (sw.drained mt) true).exec w₁ = _
  have hstore' : (sw.drained mt).cfg.store = some store := hstore
  have hlen' : (sw.drained mt).memtable.len ≠ 0 := hlen
  unfold maybeSeal
  simp only [hstore', if_neg hlen']
  refine (exec_bind_of (show timeNow.exec w₁ = (w₁.clock, w₁) from rfl)).trans ?_
  have htrig : (sw.drained mt).sealTriggered true w₁.clock = true := rfl
  rw [if_pos htrig]
  have hseal : (sealCurrent libs (sw.drained mt) store w₁.clock).exec w₁ =
      (((sw.drained mt).reopened w₁.clock,
        ((sealBlock libs ((sw.drained mt).sealRequest store w₁.clock)).run.exec w₁).1),
        ((sealBlock libs ((sw.drained mt).sealRequest store w₁.clock)).run.exec w₁).2) :=
    exec_bind_of rfl
  exact exec_bind_of hseal

end Bbdb.Ingestion
