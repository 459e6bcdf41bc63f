import Bbdb.Block.Sealer
import Bbdb.Index.SparseIndex

/-!
# Index — what a lookup finds over a history

The sparse index is written by the chunk loop of `Seal` and by `AddBlock`.
After any sequence of such calls, in a pebble whose other families may change
at any time, the index keys are those the calls recorded (`Indexed.keys`).
A lookup then returns exactly the recorded ids whose hour meets the queried
interval, each once (`lookup_recorded`).
-/

namespace Bbdb.Index

open Bbdb.Meta Bbdb.Block GoTime
open Prog hiding pure bind

/-! ## Writes -/

/-- A call that writes the index: a seal, or a single block. -/
inductive IdxWrite
  | sealing (req : SealRequest)
  | add (eventType : UInt8) (keyHash : UInt64) (shard : ShardID) (unixNano : Int64)

namespace IdxWrite

/-- What a call is to record: a seal the hashes of its memtable, under its
event type. -/
def Records (et : UInt8) (kh : UInt64) (shard : ShardID) (ns : Int64) : IdxWrite → Prop
  | .sealing req => req.eventType = et ∧ (∃ e ∈ req.memtable.rows, e.keyHash = kh) ∧
      req.shard = shard ∧ req.openedAt = ns
  | .add et' kh' shard' ns' => et' = et ∧ kh' = kh ∧ shard' = shard ∧ ns' = ns

end IdxWrite

/-- Pebbles that the calls have built: from one without index keys, with any
changes to the keys of other families in between. A `Seal` counts once it has
written the index, whether or not its final batch succeeds. -/
inductive Indexed (libs : Libs) : List IdxWrite → World → Prop
  | start {w : World} (h : ∀ k, family k = prefixIdx → w.db.view.get k = none) :
      Indexed libs [] w
  | sealBlock {writes : List IdxWrite} {w w' : World} {ws : List World} {req : SealRequest}
      {id : BlockID} (h : Indexed libs writes w)
      (hrun : Runs sem (sealBlock libs req).run w ws (.ok id) w') :
      Indexed libs (writes ++ [.sealing req]) w'
  | prepareBlock {writes : List IdxWrite} {w w' : World} {ws : List World} {req : SealRequest}
      {bm : BlockMeta} (h : Indexed libs writes w)
      (hrun : Runs sem (prepareBlock libs req).run w ws (.ok bm) w') :
      Indexed libs (writes ++ [.sealing req]) w'
  | addBlock {writes : List IdxWrite} {w w' : World} {ws : List World} {et : UInt8} {kh : UInt64}
      {shard : ShardID} {ns : Int64} {u : Unit} (h : Indexed libs writes w)
      (hrun : Runs sem (addBlock et kh (blockIDForShard shard ns)).run w ws (.ok u) w') :
      Indexed libs (writes ++ [.add et kh shard ns]) w'
  | other {writes : List IdxWrite} {w w' : World} (h : Indexed libs writes w)
      (hsame : ∀ k, family k = prefixIdx → w'.db.view.get k = w.db.view.get k) :
      Indexed libs writes w'

/-! ## Keys -/

variable {libs : Libs} {writes : List IdxWrite} {w w' : World} {ws : List World} {k : Bytes}

/-- The key of a recorded id. -/
def IdxWrite.HasKey (k : Bytes) (x : IdxWrite) : Prop :=
  ∃ et kh shard ns, x.Records et kh shard ns ∧ k = idxKey et kh (blockIDForShard shard ns)

/-- `w'` has the index keys of `w` and those of `x`. -/
def Adds (x : IdxWrite) (w w' : World) : Prop :=
  ∀ k, family k = prefixIdx → ((w'.db.view.get k).isSome ↔ (w.db.view.get k).isSome ∨ x.HasKey k)

/-- The keys of a seal are those of the distinct hashes of its memtable. -/
theorem hasKey_sealing (libs : Libs) {req : SealRequest} :
    (IdxWrite.sealing req).HasKey k ↔
      ∃ h ∈ (req.sorted libs).uniqueKeyHashes libs 1, k = idxKey req.eventType h req.blockID := by
  constructor
  · rintro ⟨et, kh, shard, ns, ⟨rfl, ⟨e, he, rfl⟩, rfl, rfl⟩, rfl⟩
    refine ⟨e.keyHash, (Memtable.mem_uniqueKeyHashes libs).mpr ⟨e, ?_, rfl⟩, rfl⟩
    exact (req.memtable.perm_rows_sort libs).mem_iff.mpr he
  · rintro ⟨kh, hkh, rfl⟩
    obtain ⟨e, he, rfl⟩ := (Memtable.mem_uniqueKeyHashes libs).mp hkh
    have hrow := (req.memtable.perm_rows_sort libs).mem_iff.mp he
    exact ⟨_, _, _, _, ⟨rfl, ⟨e, hrow, rfl⟩, rfl, rfl⟩, rfl⟩

/-- **The chunk loop of `Seal` adds the keys it is to record**, whatever the
size of its chunks. -/
theorem adds_of_prepared {req : SealRequest} (h : Prepared libs req w w') :
    Adds (.sealing req) w w' := by
  intro k _
  rw [h.view, hasKey_sealing libs]
  split_ifs with hk
  · simp [hk]
  · simp [hk]

/-- The final batch leaves the index alone. -/
theorem adds_of_sealBlock {req : SealRequest} {id : BlockID}
    (hrun : Runs sem (sealBlock libs req).run w ws (.ok id) w') : Adds (.sealing req) w w' := by
  rcases runs_sealBlock libs req hrun with ⟨⟨e, he⟩, -⟩ | ⟨-, ws₁, w₁, -, -, -, hprep, rfl⟩
  · cases he
  · intro k hfam
    rw [← adds_of_prepared hprep k hfam, World.commit_db, Pebble.view_commit,
      get_sealOps_of_family _ _ _ _ _ (by rw [hfam]; decide) (by rw [hfam]; decide), if_neg]
    exact notMem_walRange (by rw [hfam]; decide)

theorem adds_of_addBlock {et : UInt8} {kh : UInt64} {shard : ShardID} {ns : Int64} {u : Unit}
    (hrun : Runs sem (addBlock et kh (blockIDForShard shard ns)).run w ws (.ok u) w') :
    Adds (.add et kh shard ns) w w' := by
  intro k _
  have hkey : (IdxWrite.add et kh shard ns).HasKey k ↔
      ∃ h ∈ [kh], k = idxKey et h (blockIDForShard shard ns) := by
    constructor
    · rintro ⟨_, _, _, _, ⟨rfl, rfl, rfl, rfl⟩, rfl⟩
      exact ⟨_, List.mem_singleton_self _, rfl⟩
    · rintro ⟨h, hmem, rfl⟩
      rw [List.mem_singleton.mp hmem]
      exact ⟨_, _, _, _, ⟨rfl, rfl, rfl, rfl⟩, rfl⟩
  obtain rfl := runs_batchCommit_ok hrun
  rw [World.commit_db, Pebble.view_commit, get_idxOps, hkey]
  split_ifs with hk
  · simp only [Option.isSome_some, hk, or_true]
  · simp only [hk, or_false]

/-- One more recorded call. -/
theorem keys_snoc {x : IdxWrite} (hadds : Adds x w w') (hk : family k = prefixIdx)
    (ih : (w.db.view.get k).isSome ↔ ∃ x ∈ writes, x.HasKey k) :
    (w'.db.view.get k).isSome ↔ ∃ y ∈ writes ++ [x], y.HasKey k := by
  rw [hadds k hk, ih]
  simp [or_and_right, exists_or]

/-- **The index keys are the recorded ones**, after any history. -/
theorem Indexed.keys (h : Indexed libs writes w) (hk : family k = prefixIdx) :
    (w.db.view.get k).isSome ↔ ∃ x ∈ writes, x.HasKey k := by
  induction h with
  | start hnone => simp [hnone k hk]
  | sealBlock _ hrun ih => exact keys_snoc (adds_of_sealBlock hrun) hk ih
  | prepareBlock _ hrun ih =>
      exact keys_snoc (adds_of_prepared (runs_prepareBlock_ok libs _ hrun).1) hk ih
  | addBlock _ hrun ih => exact keys_snoc (adds_of_addBlock hrun) hk ih
  | other _ hsame ih => rw [hsame k hk, ih]

/-! ## Lookups -/

/-- The ids a lookup finds after a history. -/
theorem Indexed.mem_foundBlocks (h : Indexed libs writes w) {et : UInt8} {kh : UInt64}
    {from_ to_ : Time} {id : BlockID} :
    id ∈ foundBlocks w et kh from_ to_ ↔ ∃ shard ns, id = blockIDForShard shard ns ∧
      (∃ x ∈ writes, x.Records et kh shard ns) ∧
      truncateHour ns.toInt < to_ ∧ from_ < truncateHour ns.toInt + hour := by
  rw [Index.mem_foundBlocks, h.keys (family_idxKey et kh id)]
  constructor
  · rintro ⟨⟨x, hx, et', kh', shard, ns, hrec, hkey⟩, hover⟩
    obtain ⟨rfl, rfl, rfl⟩ := idxKey_inj.mp hkey
    exact ⟨shard, ns, rfl, ⟨x, hx, hrec⟩, overlaps_blockID.mp hover⟩
  · rintro ⟨shard, ns, rfl, ⟨x, hx, hrec⟩, hover⟩
    exact ⟨⟨x, hx, et, kh, shard, ns, hrec, rfl⟩, overlaps_blockID.mpr hover⟩

/-- **A lookup is exact**: whatever was written before, it returns the ids
recorded for its event type and hash whose hour meets the interval, and no id
twice. -/
theorem lookup_recorded (h : Indexed libs writes w) (et : UInt8) (kh : UInt64)
    (from_ to_ : Time) :
    ∃ ids, (lookup et kh from_ to_).run.exec w = (.ok ids, w) ∧
      (∀ ws res w', Runs sem (lookup et kh from_ to_).run w ws (.ok res) w' → res = ids) ∧
      ids.Nodup ∧
      ∀ id, id ∈ ids ↔ ∃ shard ns, id = blockIDForShard shard ns ∧
        (∃ x ∈ writes, x.Records et kh shard ns) ∧
        truncateHour ns.toInt < to_ ∧ from_ < truncateHour ns.toInt + hour :=
  ⟨foundBlocks w et kh from_ to_, exec_lookup w et kh from_ to_, fun _ _ _ hr => runs_lookup hr,
    nodup_foundBlocks w et kh from_ to_, fun _ => h.mem_foundBlocks⟩

/-- A seal of three hashes whose index is written in chunks of two. -/
def threeHashes : SealRequest where
  store := ⟨[], tierHot⟩
  tmpDir := [ascii "tmp"]
  shard := 0x0a07
  eventType := 10
  openedAt := 1781186400000000000
  sealedAt := 1781190000000000000
  memtable := ((Memtable.new.append ⟨7, 1, [1]⟩).append ⟨8, 2, [2]⟩).append ⟨9, 3, []⟩
  retention := 0
  bloomFPR := 0
  idxChunkSize := 2

/-- A pebble after an `AddBlock` for the hour before, and the seal. -/
def threeIndexed : World :=
  ((sealBlock Libs.plain threeHashes).run.exec
    ((addBlock 10 7 (blockIDForShard 0x0a07 1781182800000000000)).run.exec
      ⟨Pebble.empty, fun _ => none, 0⟩).2).2

set_option maxRecDepth 100000 in
theorem indexed_threeIndexed :
    Indexed Libs.plain [.add 10 7 0x0a07 1781182800000000000, .sealing threeHashes]
      threeIndexed := by
  have hadd := runs_procExec (addBlock 10 7 (blockIDForShard 0x0a07 1781182800000000000)).run
    ⟨Pebble.empty, fun _ => none, 0⟩
  have hone : Indexed Libs.plain [.add 10 7 0x0a07 1781182800000000000] _ :=
    (Indexed.start fun _ _ => rfl).addBlock hadd
  have hseal := runs_procExec (sealBlock Libs.plain threeHashes).run
    ((addBlock 10 7 (blockIDForShard 0x0a07 1781182800000000000)).run.exec
      ⟨Pebble.empty, fun _ => none, 0⟩).2
  rw [result_sealBlock Libs.plain threeHashes (by decide +kernel) rfl (by decide)] at hseal
  exact hone.sealBlock hseal

/-- The hash of the second chunk is found in its block, in the hour of the
block and not before; a hash that neither call has recorded is found nowhere. -/
theorem lookup_recorded_threeIndexed :
    (∃ ids, (lookup 10 9 1781189999999999999 1781200000000000000).run.exec threeIndexed =
        (.ok ids, threeIndexed) ∧ threeHashes.blockID ∈ ids) ∧
      (∃ ids, (lookup 10 9 0 1781186400000000000).run.exec threeIndexed =
        (.ok ids, threeIndexed) ∧ threeHashes.blockID ∉ ids) ∧
      ∃ ids, (lookup 10 6 0 1781200000000000000).run.exec threeIndexed =
        (.ok ids, threeIndexed) ∧ ids = [] := by
  have hblock : threeHashes.blockID = blockIDForShard 0x0a07 1781186400000000000 := rfl
  refine ⟨?_, ?_, ?_⟩
  · obtain ⟨ids, hexec, -, -, hmem⟩ :=
      lookup_recorded indexed_threeIndexed 10 9 1781189999999999999 1781200000000000000
    refine ⟨ids, hexec, (hmem _).mpr ⟨_, _, hblock, ⟨.sealing threeHashes, by simp, rfl,
      ⟨⟨9, 3, []⟩, by decide, rfl⟩, rfl, rfl⟩, by decide⟩⟩
  · obtain ⟨ids, hexec, -, -, hmem⟩ :=
      lookup_recorded indexed_threeIndexed 10 9 0 1781186400000000000
    refine ⟨ids, hexec, fun h => ?_⟩
    obtain ⟨shard, ns, -, ⟨x, hx, hrec⟩, hto, -⟩ := (hmem _).mp h
    rcases List.mem_cons.mp hx with rfl | hx
    · obtain ⟨-, hkh, -⟩ := hrec
      exact absurd hkh (by decide)
    · obtain rfl := List.mem_singleton.mp hx
      obtain ⟨-, -, -, rfl⟩ := hrec
      exact absurd hto (by decide)
  · obtain ⟨ids, hexec, -, -, hmem⟩ :=
      lookup_recorded indexed_threeIndexed 10 6 0 1781200000000000000
    refine ⟨ids, hexec, List.eq_nil_iff_forall_not_mem.mpr fun id h => ?_⟩
    obtain ⟨shard, ns, -, ⟨x, hx, hrec⟩, -⟩ := (hmem _).mp h
    rcases List.mem_cons.mp hx with rfl | hx
    · obtain ⟨-, hkh, -⟩ := hrec
      exact absurd hkh (by decide)
    · obtain rfl := List.mem_singleton.mp hx
      obtain ⟨-, ⟨e, he, hkh⟩, -⟩ := hrec
      have hnone : ∀ e ∈ threeHashes.memtable.rows, e.keyHash ≠ 6 := by decide
      exact hnone e he hkh

end Bbdb.Index
