import Bbdb.Block.Sealer

/-!
# Block — Seal and crashes

A crash can come after any operation of `Seal`, also of one that is failing,
and can lose any suffix of the batches not yet synced. What survives is all
or nothing (`sealBlock_crash_atomic`): before the final batch nothing but
files and index keys has changed, and the final batch makes everything before
it durable.

The argument is one relation, `IdxStep`: the operations before the batch
leave the synced state alone and only append index batches to the rest.
-/

namespace Bbdb.Block

open Bbdb.Meta Bbdb.Tier GoTime
open Prog hiding pure bind

/-- From `w` to `w'` pebble has only gained unsynced index batches. -/
def IdxStep (w w' : World) : Prop :=
  w'.db.synced = w.db.synced ∧
    ∃ bs, w'.db.pending = w.db.pending ++ bs ∧ ∀ b ∈ bs, IdxBatch b

theorem IdxStep.refl (w : World) : IdxStep w w := ⟨rfl, [], by simp, by simp⟩

theorem IdxStep.trans {a b c : World} (h₁ : IdxStep a b) (h₂ : IdxStep b c) : IdxStep a c := by
  obtain ⟨hs₁, bs₁, hp₁, hi₁⟩ := h₁
  obtain ⟨hs₂, bs₂, hp₂, hi₂⟩ := h₂
  refine ⟨hs₂.trans hs₁, bs₁ ++ bs₂, by rw [hp₂, hp₁, List.append_assoc], fun x hx => ?_⟩
  rcases List.mem_append.mp hx with hx | hx
  · exact hi₁ x hx
  · exact hi₂ x hx

theorem IdxStep.pendingIdx {w w' : World} (h : IdxStep w w') (hw : PendingIdx w.db) :
    PendingIdx w'.db := by
  obtain ⟨-, bs, hp, hi⟩ := h
  intro b hb
  rw [hp] at hb
  rcases List.mem_append.mp hb with hb | hb
  · exact hw b hb
  · exact hi b hb

/-- No key of another family has changed. -/
theorem IdxStep.get_view {w w' : World} (h : IdxStep w w') {k : Bytes}
    (hk : family k ≠ prefixIdx) : w'.db.view.get k = w.db.view.get k := by
  obtain ⟨hs, bs, hp, hi⟩ := h
  show (w'.db.pending.foldl _ w'.db.synced).get k = _
  rw [hs, hp, List.foldl_append, get_idxBatches hi _ hk]
  rfl

theorem PrepStep.idxStep {req : SealRequest} {w w' : World} (h : PrepStep req w w') :
    IdxStep w w' := by
  rcases h.db with hdb | ⟨hs, hdb⟩
  · rw [IdxStep, hdb]
    exact IdxStep.refl w
  · refine ⟨by rw [hdb]; rfl, [idxOps req.eventType hs req.blockID], by rw [hdb]; rfl, ?_⟩
    intro b hb
    rw [List.mem_singleton.mp hb]
    exact idxBatch_idxOps _ _ _

/-- A chain of preparing operations is one `IdxStep` from its first world to
any of its worlds. -/
theorem idxStep_of_chain {req : SealRequest} {w w' : World} {ws : List World}
    (h : List.IsChain (PrepStep req) (w :: ws)) (hlast : (w :: ws).getLast? = some w') :
    IdxStep w w' := by
  have hchain : List.IsChain IdxStep (w :: ws) := h.imp fun _ _ hs => hs.idxStep
  refine chain_forall IdxStep.refl (fun h₁ h₂ => h₁.trans h₂) hchain w' ?_
  exact List.mem_of_getLast? hlast

/-- Where a run of `Seal` can be when the machine goes down: in the middle,
or at its end. -/
def SealReaches (libs : Libs) (req : SealRequest) (w w' : World) : Prop :=
  (∃ ws, Cuts sem (sealBlock libs req).run w ws w') ∨
    ∃ ws r, Runs sem (sealBlock libs req).run w ws r w'

/-- **Before the final batch, or after it.** -/
theorem sealReaches_cases {libs : Libs} {req : SealRequest} {w w' : World}
    (h : SealReaches libs req w w') :
    IdxStep w w' ∨ ∃ w₁, IdxStep w w₁ ∧ Prepared libs req w w₁ ∧
      w' = w₁.commit (sealOps req.shard req.blockID (req.blockMeta libs) req.expiryHour) true := by
  rcases h with ⟨ws, hcut⟩ | ⟨ws, r, hrun⟩
  · exact Or.inl (idxStep_of_chain (cuts_sealBlock libs req hcut) hcut.getLast)
  · rcases runs_sealBlock libs req hrun with ⟨-, hc⟩ | ⟨-, ws₁, w₁, -, hlast, hc, hp, hw'⟩
    · exact Or.inl (idxStep_of_chain hc hrun.getLast)
    · exact Or.inr ⟨w₁, idxStep_of_chain hc hlast, hp, hw'⟩

/-- **Seal is crash-atomic.** Start it in a world without a block key for its
id, let it be anywhere in its run, with any faults, when the machine crashes.
Afterwards either the block key is absent, and the expiry keys of the block
and the WAL of the shard are what they were; or block key, expiry key, the
complete block and bloom files and an index key for every hash of the
memtable are all there. -/
theorem sealBlock_crash_atomic (libs : Libs) (req : SealRequest) (w w₁ w₂ : World)
    (hpending : PendingIdx w.db) (hfresh : w.db.view.get (blockKey req.blockID) = none)
    (hrun : SealReaches libs req w w₁) (hcrash : w₁.Crash w₂) :
    (w₂.db.view.get (blockKey req.blockID) = none ∧
      (∀ h, w₂.db.view.get (expiryKey h req.blockID) = w.db.view.get (expiryKey h req.blockID)) ∧
      ∀ q, w₂.db.view.get (walKey req.shard q) = w.db.view.get (walKey req.shard q)) ∨
    (w₂.db.view.get (blockKey req.blockID) = some (encodeBlockMeta (req.blockMeta libs)) ∧
      w₂.db.view.get (expiryKey req.expiryHour req.blockID) = some [] ∧
      w₂.fs req.blockPath = some (req.file libs) ∧
      (∃ data, serialize libs (buildBloomFromMemtable libs 0 (req.sorted libs) req.bloomFPR)
          = .ok data ∧ w₂.fs req.bloomPath = some data) ∧
      ∀ e ∈ req.memtable.rows,
        w₂.db.view.get (idxKey req.eventType e.keyHash req.blockID) = some []) := by
  rcases sealReaches_cases hrun with hidx | ⟨wp, hidx, hprep, rfl⟩
  · -- nothing but index keys has been committed since the start
    left
    have hsame : ∀ k, family k ≠ prefixIdx → w₂.db.view.get k = w.db.view.get k := by
      intro k hk
      rw [get_view_crash (hidx.pendingIdx hpending) hcrash.db hk, hidx.get_view hk]
    refine ⟨?_, fun h => hsame _ ?_, fun q => hsame _ ?_⟩
    · rw [hsame _ (by rw [family_blockKey]; decide), hfresh]
    · rw [family_expiryKey]
      decide
    · rw [family_walKey]
      decide
  · -- the final batch is synced, and so is everything before it
    right
    have hview := view_crash_sync hcrash.db
    have hget := fun k => congrArg (fun m => OrdMap.get m k) hview
    simp only [Pebble.view_commit, get_sealOps] at hget
    have hbe : blockKey req.blockID ≠ expiryKey req.expiryHour req.blockID :=
      ne_of_family (by rw [family_blockKey, family_expiryKey]; decide)
    refine ⟨?_, ?_, ?_, ?_, ?_⟩
    · rw [hget, if_neg hbe, if_pos rfl]
    · rw [hget, if_pos rfl]
    · rw [hcrash.fs, World.commit_fs, hprep.block]
    · obtain ⟨data, hdata, hfile⟩ := hprep.bloom
      exact ⟨data, hdata, by rw [hcrash.fs, World.commit_fs, hfile]⟩
    · intro e he
      have hmem : e.keyHash ∈ (req.sorted libs).uniqueKeyHashes libs 1 :=
        (Memtable.mem_uniqueKeyHashes libs).mpr
          ⟨e, (req.memtable.perm_rows_sort libs).mem_iff.mpr he, rfl⟩
      have hwal : ¬ (walKeyStart req.shard ≤ idxKey req.eventType e.keyHash req.blockID ∧
          idxKey req.eventType e.keyHash req.blockID < walKeyEnd req.shard) := by
        rintro ⟨hlo, hhi⟩
        have hf := family_of_mem_walRange hlo hhi
        rw [family_idxKey] at hf
        exact absurd hf (by decide)
      rw [hget, if_neg (ne_of_family (by rw [family_idxKey, family_expiryKey]; decide)),
        if_neg (ne_of_family (by rw [family_idxKey, family_blockKey]; decide)), if_neg hwal,
        hprep.view, if_pos ⟨_, hmem, rfl⟩]

/-- A block of one row. -/
def oneRow : SealRequest where
  store := ⟨[], tierHot⟩
  tmpDir := [ascii "tmp"]
  shard := 0
  eventType := 0
  openedAt := 0
  sealedAt := 0
  memtable := Memtable.new.append ⟨256, 1, [1]⟩
  retention := 0
  bloomFPR := 0
  idxChunkSize := 0

/-- The world after sealing it in an empty directory. -/
def oneRowSealed : World :=
  ((sealBlock Libs.plain oneRow).run.exec ⟨Pebble.empty, fun _ => none, 0⟩).2

set_option maxRecDepth 100000 in
theorem runs_oneRowSealed : ∃ ws, Runs sem (sealBlock Libs.plain oneRow).run
    ⟨Pebble.empty, fun _ => none, 0⟩ ws (.ok oneRow.blockID) oneRowSealed := by
  have hok : ((sealBlock Libs.plain oneRow).run.exec ⟨Pebble.empty, fun _ => none, 0⟩).1 =
      .ok oneRow.blockID := by decide +kernel
  have hrun := runs_procExec (sealBlock Libs.plain oneRow).run ⟨Pebble.empty, fun _ => none, 0⟩
  rw [hok] at hrun
  exact ⟨_, hrun⟩

/-- A block of the hour after that of `oneRow`. -/
def nextRow : SealRequest :=
  { oneRow with
    openedAt := Int64.ofInt hour
    memtable := Memtable.new.append ⟨256, Int64.ofInt hour, [2]⟩ }

/-- The world right before the final batch. -/
def oneRowPrepared : World :=
  ((prepareBlock Libs.plain oneRow).run.exec ⟨Pebble.empty, fun _ => none, 0⟩).2

set_option maxRecDepth 100000 in
/-- The machine can go down when all is prepared. -/
theorem reaches_oneRowPrepared :
    SealReaches Libs.plain oneRow ⟨Pebble.empty, fun _ => none, 0⟩ oneRowPrepared := by
  have hok : ((prepareBlock Libs.plain oneRow).run.exec ⟨Pebble.empty, fun _ => none, 0⟩).1 =
      .ok (oneRow.blockMeta Libs.plain) := by
    decide +kernel
  have hrun := runs_procExec (prepareBlock Libs.plain oneRow).run ⟨Pebble.empty, fun _ => none, 0⟩
  rw [hok] at hrun
  refine Or.inl ⟨_, cuts_bindE.mpr (Or.inr ⟨_, oneRowPrepared, _, [], rfl, hrun, ?_⟩)⟩
  exact cuts_bindE.mpr (Or.inl (Or.inl ⟨rfl, rfl⟩))

set_option maxRecDepth 100000 in
/-- A crash right before the final batch loses the index key and leaves no
block; one right after it keeps block, file and index key. -/
theorem sealBlock_crash_atomic_oneRow :
    (oneRowPrepared.Crash oneRowPrepared.syncedOnly ∧
      oneRowPrepared.db.view.get (idxKey 0 256 oneRow.blockID) = some [] ∧
      oneRowPrepared.syncedOnly.db.view.get (idxKey 0 256 oneRow.blockID) = none ∧
      oneRowPrepared.syncedOnly.db.view.get (blockKey oneRow.blockID) = none) ∧
    oneRowSealed.Crash oneRowSealed.syncedOnly ∧
      oneRowSealed.syncedOnly.fs oneRow.blockPath = some (oneRow.file Libs.plain) ∧
      oneRowSealed.syncedOnly.db.view.get (idxKey 0 256 oneRow.blockID) = some [] := by
  have hpending : PendingIdx Pebble.empty := fun b hb => absurd hb List.not_mem_nil
  have hbefore := sealBlock_crash_atomic Libs.plain oneRow ⟨Pebble.empty, fun _ => none, 0⟩ _ _
    hpending rfl reaches_oneRowPrepared oneRowPrepared.crash_syncedOnly
  have hafter := sealBlock_crash_atomic Libs.plain oneRow ⟨Pebble.empty, fun _ => none, 0⟩ _ _
    hpending rfl (Or.inr ⟨_, _, runs_procExec _ _⟩) oneRowSealed.crash_syncedOnly
  refine ⟨⟨oneRowPrepared.crash_syncedOnly, by decide +kernel, by decide +kernel, ?_⟩,
    oneRowSealed.crash_syncedOnly, ?_⟩
  · rcases hbefore with ⟨hnone, -⟩ | ⟨hsome, -⟩
    · exact hnone
    · exact absurd hsome (by decide +kernel)
  · rcases hafter with ⟨hnone, -⟩ | ⟨-, -, hfile, -, hidx⟩
    · -- the block key is there, so the crash came after the batch
      exact absurd hnone (by decide +kernel)
    · exact ⟨hfile, hidx ⟨256, 1, [1]⟩ (by decide +kernel)⟩

end Bbdb.Block
