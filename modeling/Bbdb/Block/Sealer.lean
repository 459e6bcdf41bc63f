import Bbdb.Block.Format
import Bbdb.Meta.Store
import Bbdb.Tier.Local

/-!
# Block — Seal

`sealBlock` turns a memtable into a block: write and sync the block file under a
temporary name, write and sync the bloom file, rename the block into the
tier, add the index keys in unsynced chunks, and commit one synced batch that
truncates the WAL and makes the block and its expiry known. Everything before
that batch is `prepareBlock`.

What a run of `sealBlock` can do is said once: `runs_sealBlock` for complete runs and
`cuts_sealBlock` for runs cut off by a crash. Every operation before the last is a
`PrepStep`, which touches three files and adds index keys; a run that
succeeds ends with the commit, over a world that is `Prepared`.
-/

namespace Bbdb.Block

open Bbdb.Meta Bbdb.Tier GoTime
open Prog hiding pure bind

/-! ## The request -/

def defaultIdxChunkSize : Nat := 100000

def defaultRetentionHours : UInt64 := 5 * 365 * 24

structure SealRequest where
  store : LocalStore
  tmpDir : Path
  shard : ShardID
  eventType : UInt8
  openedAt : Int64
  sealedAt : Int64
  memtable : Memtable
  /-- A `time.Duration`; 0 stands for five years. -/
  retention : Int
  bloomFPR : Rat
  idxChunkSize : Int

namespace SealRequest

variable (libs : Libs) (req : SealRequest)

def blockID : BlockID := blockIDForShard req.shard req.openedAt

def tmpPath : Path := Tier.tmpPath req.tmpDir req.blockID

def blockPath : Path := req.store.blockPath req.blockID

def bloomPath : Path := req.store.bloomPath req.blockID

/-- The memtable after `Sort`. -/
def sorted : Memtable := req.memtable.sort libs

def header : BlockHeader where
  shardID := req.shard
  eventType := req.eventType
  openedAt := req.openedAt
  sealedAt := req.sealedAt
  rowCount := UInt64.ofNat req.memtable.len

/-- The complete block file of the request. -/
def file : Bytes := blockFile libs req.header (req.sorted libs)

/-- `uint64(time.Unix(0, OpenedAt).UTC().Unix() / 3600)`. -/
def openHour : UInt64 := UInt64.ofInt ((unix req.openedAt.toInt).tdiv 3600)

def retentionHours : UInt64 :=
  let h := UInt64.ofInt (hoursTrunc req.retention)
  if h = 0 then defaultRetentionHours else h

def expiryHour : UInt64 := req.openHour + req.retentionHours

/-- The metadata of the sealed block. -/
def blockMeta : BlockMeta where
  shardID := req.shard
  openedAt := req.openedAt
  sealedAt := req.sealedAt
  tier := tierHot
  size := UInt64.ofNat (req.file libs).length
  checksum := (blockFooter libs (req.sorted libs)).bodyChecksum

def chunkSize : Nat :=
  if req.idxChunkSize ≤ 0 then defaultIdxChunkSize else req.idxChunkSize.toNat

end SealRequest

/-! ## The function -/

/-- The slices `hashes[start:end]` of the chunk loop; `n` bounds the number
of passes. -/
def idxChunks (size : Nat) : Nat → List UInt64 → List (List UInt64)
  | 0, _ => []
  | n + 1, hashes =>
      if hashes.isEmpty then [] else hashes.take size :: idxChunks size n (hashes.drop size)

def putIdxChunks (eventType : UInt8) (blockID : BlockID) : List (List UInt64) → Go Unit
  | [] => pure ()
  | c :: cs => do
      orElse (putIdxBatch eventType c blockID) [] (.wrap "put idx batch")
      putIdxChunks eventType blockID cs

variable (libs : Libs) (req : SealRequest)

/-- Steps 1 and 2: the block file, under its temporary name, synced. -/
def writeBlockFile : Go (UInt64 × BlockFooter) := do
  osMkdirAll req.tmpDir
  orElse (osCreate req.tmpPath) [] (.wrap "create tmp block")
  let footer ← orElse (writeBlockBody libs req.tmpPath req.header (req.sorted libs))
    [req.tmpPath] (.wrap "write block body")
  orElse (fileWrite req.tmpPath (encodeFooter footer)) [req.tmpPath] (.wrap "write footer")
  orElse (fileSync req.tmpPath) [req.tmpPath] (.wrap "fsync block")
  let size ← orElse (osStat req.tmpPath) [req.tmpPath] id
  pure (UInt64.ofNat size, footer)

/-- Step 3: the bloom file, synced before the block is renamed. -/
def writeBloomFile : Go Unit := do
  let bloomData ← orElse
    (ExceptT.mk (pure (serialize libs (buildBloomFromMemtable libs 0 (req.sorted libs)
      req.bloomFPR)))) [req.tmpPath] (.wrap "build bloom")
  orElse (osMkdirAll req.bloomPath.dropLast) [req.tmpPath] id
  orElse (osCreate req.bloomPath) [req.tmpPath] (.wrap "create bloom file")
  orElse (fileWrite req.bloomPath bloomData) [req.bloomPath, req.tmpPath] (.wrap "write bloom")
  orElse (fileSync req.bloomPath) [req.bloomPath, req.tmpPath] (.wrap "fsync bloom")

/-- Everything before the final batch; the result is the metadata that the
batch will hold. -/
def prepareBlock : Go BlockMeta := do
  let (blockSize, footer) ← writeBlockFile libs req
  writeBloomFile libs req
  orElse (req.store.put req.blockID req.tmpPath) [req.bloomPath, req.tmpPath] (.wrap "store.Put")
  let uniqueHashes := (req.sorted libs).uniqueKeyHashes libs 1
  putIdxChunks req.eventType req.blockID
    (idxChunks req.chunkSize uniqueHashes.length uniqueHashes)
  pure { shardID := req.shard
         openedAt := req.openedAt
         sealedAt := req.sealedAt
         tier := tierHot
         size := blockSize
         checksum := footer.bodyChecksum }

/-- `Seal`. -/
def sealBlock : Go BlockID := do
  let bm ← prepareBlock libs req
  sealBatch req.shard req.blockID bm req.expiryHour
  pure req.blockID

/-! ## Before the commit -/

/-- The operations of `prepareBlock`: they touch the three files of the
block and commit nothing but unsynced index keys. -/
def Prepares : Op → Prop
  | .commit b sync => sync = false ∧ ∃ hs, b = idxOps req.eventType hs req.blockID
  | .create p => p = req.tmpPath ∨ p = req.bloomPath
  | .write p _ => p = req.tmpPath ∨ p = req.bloomPath
  | .remove p => p = req.tmpPath ∨ p = req.bloomPath
  | .rename src dst => src = req.tmpPath ∧ dst = req.blockPath
  | _ => True

/-- What one operation of `prepareBlock` can change. -/
structure PrepStep (w w' : World) : Prop where
  files : ∀ p, p ≠ req.tmpPath → p ≠ req.bloomPath → p ≠ req.blockPath → w'.fs p = w.fs p
  db : w'.db = w.db ∨ ∃ hs, w'.db = w.db.commit (idxOps req.eventType hs req.blockID) false
  clock : w.clock ≤ w'.clock

theorem calls_putIdxChunks (cs : List (List UInt64)) :
    Calls (S := machine) (Prepares req) (putIdxChunks req.eventType req.blockID cs).run := by
  induction cs with
  | nil => exact calls_pure _
  | cons c cs ih =>
      refine calls_bindE (calls_orElse (calls_call.mpr ⟨rfl, c, rfl⟩) ?_) fun _ => ih
      simp

/-- The operations that commit nothing. -/
def CommitsNothing : Op → Prop
  | .commit _ _ => False
  | _ => True

/-- The operations before the index keys: they concern the three files of the
block. -/
def WritesFiles : Op → Prop
  | .mkdirAll _ => True
  | .create p | .write p _ | .fsync p | .stat p | .remove p => p = req.tmpPath ∨ p = req.bloomPath
  | .rename src dst => src = req.tmpPath ∧ dst = req.blockPath
  | _ => False

theorem prepares_of_writesFiles {o : Op} (h : WritesFiles req o) :
    Prepares req o ∧ CommitsNothing o := by
  cases o with
  | create _ | write _ _ | remove _ | rename _ _ => exact ⟨h, trivial⟩
  | mkdirAll _ | fsync _ | stat _ => exact ⟨trivial, trivial⟩
  | _ => exact h.elim

/-- The operations before the rename: they concern the two files that are
written. -/
def WritesParts : Op → Prop
  | .mkdirAll _ => True
  | .create p | .write p _ | .fsync p | .stat p | .remove p => p = req.tmpPath ∨ p = req.bloomPath
  | _ => False

theorem writesFiles_of_writesParts {o : Op} (h : WritesParts req o) : WritesFiles req o := by
  cases o with
  | create _ | write _ _ | remove _ | mkdirAll _ | fsync _ | stat _ => exact h
  | _ => exact h.elim

theorem within_of_writesParts {o : Op} (h : WritesParts req o) :
    Op.Within [req.tmpPath, req.bloomPath] o := by
  cases o with
  | create p | write p _ | remove p =>
      refine ⟨fun q hq => ?_, fun _ _ he => (by cases he)⟩
      obtain rfl : q = p := hq
      simpa [WritesParts] using h
  | mkdirAll _ | fsync _ | stat _ => exact ⟨fun q hq => hq.elim, fun _ _ he => (by cases he)⟩
  | _ => exact h.elim

/-- The operations on the block file under its temporary name. -/
def WritesTmp : Op → Prop
  | .mkdirAll _ => True
  | .create p | .write p _ | .fsync p | .stat p | .remove p => p = req.tmpPath
  | _ => False

theorem writesParts_of_writesTmp {o : Op} (h : WritesTmp req o) : WritesParts req o := by
  cases o with
  | create _ | write _ _ | remove _ | fsync _ | stat _ => exact Or.inl h
  | mkdirAll _ => trivial
  | _ => exact h.elim

theorem within_of_writesTmp {o : Op} (h : WritesTmp req o) : Op.Within [req.tmpPath] o := by
  cases o with
  | create p | write p _ | remove p =>
      refine ⟨fun q hq => ?_, fun _ _ he => (by cases he)⟩
      obtain rfl : q = p := hq
      exact List.mem_singleton.mpr h
  | mkdirAll _ | fsync _ | stat _ => exact ⟨fun q hq => hq.elim, fun _ _ he => (by cases he)⟩
  | _ => exact h.elim

theorem writesTmp_writeBlockFile :
    Calls (S := machine) (WritesTmp req) (writeBlockFile libs req).run := by
  have hrm : ∀ p ∈ [req.tmpPath], WritesTmp req (.remove p) := fun p hp => List.mem_singleton.mp hp
  have hnil : ∀ p ∈ ([] : List Path), WritesTmp req (.remove p) := by simp
  refine calls_bindE (calls_call.mpr trivial) fun _ => ?_
  refine calls_bindE (calls_orElse (calls_call.mpr rfl) hnil) fun _ => ?_
  refine calls_bindE (calls_orElse ?_ hrm) fun _ => ?_
  · exact calls_bindE (calls_call.mpr rfl) fun _ => calls_bindE (calls_pure _) fun _ =>
      calls_bindE (calls_call.mpr rfl) fun _ => calls_pure _
  refine calls_bindE (calls_orElse (calls_call.mpr rfl) hrm) fun _ => ?_
  refine calls_bindE (calls_orElse (calls_call.mpr rfl) hrm) fun _ => ?_
  exact calls_bindE (calls_orElse (calls_call.mpr rfl) hrm) fun _ => calls_pure _

theorem writesParts_writeBlockFile :
    Calls (S := machine) (WritesParts req) (writeBlockFile libs req).run :=
  (writesTmp_writeBlockFile libs req).mono fun _ h => writesParts_of_writesTmp req h

theorem writesParts_writeBloomFile :
    Calls (S := machine) (WritesParts req) (writeBloomFile libs req).run := by
  have hrm : ∀ p ∈ [req.tmpPath], WritesParts req (.remove p) :=
    fun p hp => Or.inl (List.mem_singleton.mp hp)
  have hrm2 : ∀ p ∈ [req.bloomPath, req.tmpPath], WritesParts req (.remove p) := by
    intro p hp
    rcases List.mem_cons.mp hp with h | h
    · exact Or.inr h
    · exact hrm p h
  refine calls_bindE (calls_orElse (calls_pure _) hrm) fun _ => ?_
  refine calls_bindE (calls_orElse (calls_call.mpr trivial) hrm) fun _ => ?_
  refine calls_bindE (calls_orElse (calls_call.mpr (Or.inr rfl)) hrm) fun _ => ?_
  refine calls_bindE (calls_orElse (calls_call.mpr (Or.inr rfl)) hrm2) fun _ => ?_
  exact calls_orElse (calls_call.mpr (Or.inr rfl)) hrm2

theorem writesFiles_writeBlockFile :
    Calls (S := machine) (WritesFiles req) (writeBlockFile libs req).run :=
  (writesParts_writeBlockFile libs req).mono fun _ h => writesFiles_of_writesParts req h

theorem writesFiles_writeBloomFile :
    Calls (S := machine) (WritesFiles req) (writeBloomFile libs req).run :=
  (writesParts_writeBloomFile libs req).mono fun _ h => writesFiles_of_writesParts req h

/-- The rename into the tier. -/
theorem writesFiles_put :
    Calls (S := machine) (WritesFiles req)
      (orElse (req.store.put req.blockID req.tmpPath) [req.bloomPath, req.tmpPath]
        (.wrap "store.Put")).run := by
  have hrm : ∀ p ∈ [req.bloomPath, req.tmpPath], WritesFiles req (.remove p) := by
    intro p hp
    simpa [WritesFiles, or_comm] using hp
  refine calls_orElse ?_ hrm
  exact calls_bindE (calls_call.mpr trivial) fun _ => calls_call.mpr ⟨rfl, rfl⟩

theorem calls_prepareBlock :
    Calls (S := machine) (Prepares req) (prepareBlock libs req).run := by
  have hw : ∀ o, WritesFiles req o → Prepares req o := fun _ h => (prepares_of_writesFiles req h).1
  refine calls_bindE ((writesFiles_writeBlockFile libs req).mono hw) fun _ => ?_
  refine calls_bindE ((writesFiles_writeBloomFile libs req).mono hw) fun _ => ?_
  refine calls_bindE ((writesFiles_put req).mono hw) fun _ => ?_
  exact calls_bindE (calls_putIdxChunks req _) fun _ => calls_pure _

/-- Whatever happens to it, an operation of `prepareBlock` is a `PrepStep`. -/
theorem prepStep_of_sem {o : Op} {w w' : World} {r : o.Res} (ho : Prepares req o)
    (h : sem o w r w') : PrepStep req w w' := by
  have he := sem_effect h
  refine ⟨?_, ?_, he.clock⟩
  · intro p htmp hbloom hblock
    refine he.files p fun ht => ?_
    cases o with
    | create q | write q _ | remove q =>
        have hq : p = q := ht
        rcases ho with h | h
        · exact htmp (hq.trans h)
        · exact hbloom (hq.trans h)
    | rename src dst =>
        rcases ht with ht | ht
        · exact htmp (ht.trans ho.1)
        · exact hblock (ht.trans ho.2)
    | _ => exact ht
  · rcases he.db with hdb | ⟨b, sync, rfl, hdb⟩
    · exact Or.inl hdb
    · obtain ⟨rfl, hs, rfl⟩ := ho
      exact Or.inr ⟨hs, hdb⟩

/-! ## What a successful preparation leaves -/

/-- The world in which the final batch is committed: both files are
complete, and the index has a key for every hash of the memtable. -/
structure Prepared (w w' : World) : Prop where
  block : w'.fs req.blockPath = some (req.file libs)
  size : (req.file libs).length < maxBlockFile
  bloom : ∃ data, serialize libs (buildBloomFromMemtable libs 0 (req.sorted libs) req.bloomFPR)
    = .ok data ∧ w'.fs req.bloomPath = some data
  files : ∀ p, p ≠ req.tmpPath → p ≠ req.bloomPath → p ≠ req.blockPath → w'.fs p = w.fs p
  view : ∀ k, w'.db.view.get k =
    if ∃ h ∈ (req.sorted libs).uniqueKeyHashes libs 1, k = idxKey req.eventType h req.blockID
    then some [] else w.db.view.get k
  clock : w'.clock = w.clock

/-- A reader of the complete file gets the sorted rows. -/
theorem blockRows_file (hsize : (req.file libs).length < maxBlockFile)
    (hp : ∀ e ∈ req.memtable.rows, e.payload.length < 2 ^ 32) :
    blockRows libs (req.file libs) = .ok (req.sorted libs).rows := by
  refine blockRows_blockFile hsize fun p hmem => ?_
  rw [← (req.sorted libs).map_rows.2.2] at hmem
  obtain ⟨e, he, rfl⟩ := List.mem_map.mp hmem
  exact hp e ((req.memtable.perm_rows_sort libs).mem_iff.mp he)

theorem flatten_idxChunks {size : Nat} (hsize : 0 < size) :
    ∀ n hashes, hashes.length ≤ n → (idxChunks size n hashes).flatten = hashes := by
  intro n
  induction n with
  | zero =>
      intro hashes h
      rw [List.length_eq_zero_iff.mp (Nat.le_zero.mp h)]
      rfl
  | succ n ih =>
      intro hashes h
      cases hashes with
      | nil => rfl
      | cons x xs =>
          have hlen : ((x :: xs).drop size).length ≤ n := by
            rw [List.length_drop, List.length_cons] at *
            omega
          rw [idxChunks, List.isEmpty_cons, if_neg (by decide), List.flatten_cons, ih _ hlen,
            List.take_append_drop]

theorem chunkSize_pos : 0 < req.chunkSize := by
  unfold SealRequest.chunkSize
  split_ifs
  · decide
  · omega

variable {w w' : World} {ws : List World}

theorem runs_putIdxChunks_ok {et : UInt8} {id : BlockID} {cs : List (List UInt64)} {u : Unit}
    (h : Runs sem (putIdxChunks et id cs).run w ws (.ok u) w') :
    w'.fs = w.fs ∧ w'.clock = w.clock ∧ ∀ k, w'.db.view.get k =
      if ∃ h ∈ cs.flatten, k = idxKey et h id then some [] else w.db.view.get k := by
  induction cs generalizing w ws with
  | nil =>
      obtain ⟨-, -, rfl⟩ := h
      simp
  | cons c cs ih =>
      obtain ⟨_, w₁, _, _, -, hc, hcs⟩ := runs_bindE_ok.mp h
      obtain rfl := runs_batchCommit_ok (runs_orElse_ok.mp hc)
      obtain ⟨hfs, hclock, hview⟩ := ih hcs
      refine ⟨hfs, hclock, fun k => ?_⟩
      rw [hview, World.commit_db, Pebble.view_commit, get_idxOps]
      -- a key of this chunk, of a later one, or of neither
      by_cases hk : ∃ h ∈ cs.flatten, k = idxKey et h id
      · obtain ⟨x, hx, rfl⟩ := hk
        rw [if_pos ⟨x, hx, rfl⟩, if_pos ⟨x, List.mem_append_right _ hx, rfl⟩]
      · rw [if_neg hk]
        by_cases hc : ∃ h ∈ c, k = idxKey et h id
        · obtain ⟨x, hx, rfl⟩ := hc
          rw [if_pos ⟨x, hx, rfl⟩, if_pos ⟨x, List.mem_append_left _ hx, rfl⟩]
        · rw [if_neg hc, if_neg]
          rintro ⟨x, hx, he⟩
          rcases List.mem_append.mp hx with hx | hx
          · exact hc ⟨x, hx, he⟩
          · exact hk ⟨x, hx, he⟩

/-- A successful write of the block file leaves it complete under its
temporary name. -/
theorem runs_writeBlockFile_ok {r : UInt64 × BlockFooter}
    (h : Runs sem (writeBlockFile libs req).run w ws (.ok r) w') :
    (req.file libs).length < maxBlockFile ∧
      r = (UInt64.ofNat (req.file libs).length, blockFooter libs (req.sorted libs)) ∧
      w' = w.setFile req.tmpPath (some (req.file libs)) := by
  obtain ⟨_, w₁, _, _, -, h1, k1⟩ := runs_bindE_ok.mp h
  obtain rfl := runs_osMkdirAll_ok h1
  obtain ⟨_, w₂, _, _, -, h2, k2⟩ := runs_bindE_ok.mp k1
  obtain rfl := runs_osCreate_ok (runs_orElse_ok.mp h2)
  obtain ⟨footer, w₃, _, _, -, h3, k3⟩ := runs_bindE_ok.mp k2
  obtain ⟨rfl, hbody, rfl⟩ := runs_writeBlockBody_ok (FS.put_self _ _ _) (runs_orElse_ok.mp h3)
  -- footer, sync and size
  obtain ⟨_, w₆, _, _, -, h6, k6⟩ := runs_bindE_ok.mp k3
  obtain ⟨-, rfl⟩ := runs_fileWrite_ok (FS.put_self _ _ _) (runs_orElse_ok.mp h6)
  obtain ⟨_, w₇, _, _, -, h7, k7⟩ := runs_bindE_ok.mp k6
  obtain rfl := runs_fileSync_ok (runs_orElse_ok.mp h7)
  obtain ⟨_, w₈, _, _, -, h8, k8⟩ := runs_bindE_ok.mp k7
  obtain ⟨rfl, content, hcontent, rfl⟩ := runs_osStat_ok (runs_orElse_ok.mp h8)
  obtain ⟨-, hr, rfl⟩ := k8
  have hfile : encodeHeader req.header ++ blockBody libs (req.sorted libs) ++
      encodeFooter (blockFooter libs (req.sorted libs)) = req.file libs := by
    simp [SealRequest.file, blockFile]
  have hsize : (req.file libs).length < maxBlockFile := by
    rw [← hfile, List.length_append, List.length_append, length_encodeHeader, length_encodeFooter,
      maxBlockFile]
    omega
  rw [World.setFile_fs, FS.put_self, Option.some.injEq, hfile] at hcontent
  cases hr
  exact ⟨hsize, by rw [← hcontent], by simp only [World.setFile_setFile, hfile]⟩

/-- A successful write of the bloom file leaves it complete. -/
theorem runs_writeBloomFile_ok {u : Unit}
    (h : Runs sem (writeBloomFile libs req).run w ws (.ok u) w') :
    ∃ data, serialize libs (buildBloomFromMemtable libs 0 (req.sorted libs) req.bloomFPR)
        = .ok data ∧
      w'.db = w.db ∧ w'.clock = w.clock ∧ w'.fs req.bloomPath = some data ∧
      ∀ p, p ≠ req.bloomPath → w'.fs p = w.fs p := by
  obtain ⟨data, w₁, _, _, -, h1, k1⟩ := runs_bindE_ok.mp h
  obtain ⟨-, hdata, rfl⟩ := runs_orElse_ok.mp h1
  obtain ⟨_, w₂, _, _, -, h2, k2⟩ := runs_bindE_ok.mp k1
  obtain rfl := runs_osMkdirAll_ok (runs_orElse_ok.mp h2)
  obtain ⟨_, w₃, _, _, -, h3, k3⟩ := runs_bindE_ok.mp k2
  obtain rfl := runs_osCreate_ok (runs_orElse_ok.mp h3)
  obtain ⟨_, w₄, _, _, -, h4, k4⟩ := runs_bindE_ok.mp k3
  obtain ⟨-, rfl⟩ := runs_fileWrite_ok (FS.put_self _ _ _) (runs_orElse_ok.mp h4)
  obtain rfl := runs_fileSync_ok (runs_orElse_ok.mp k4)
  rw [World.setFile_setFile]
  exact ⟨data, hdata.symm, rfl, rfl, FS.put_self _ _ _, fun p hp => FS.put_ne _ _ hp⟩

/-- **What a successful preparation leaves.** -/
theorem runs_prepareBlock_ok {bm : BlockMeta}
    (h : Runs sem (prepareBlock libs req).run w ws (.ok bm) w') :
    Prepared libs req w w' ∧ bm = req.blockMeta libs := by
  have htmpBloom : req.tmpPath ≠ req.bloomPath := tmpPath_ne_bloomPath _ _ _ _
  have htmpBlock : req.tmpPath ≠ req.blockPath := tmpPath_ne_blockPath _ _ _ _
  have hbloomBlock : req.blockPath ≠ req.bloomPath := blockPath_ne_bloomPath _ _ _ _
  obtain ⟨r, w₁, _, _, -, h1, k1⟩ := runs_bindE_ok.mp h
  obtain ⟨hsize, rfl, rfl⟩ := runs_writeBlockFile_ok libs req h1
  obtain ⟨_, w₂, _, _, -, h2, k2⟩ := runs_bindE_ok.mp k1
  obtain ⟨data, hdata, hdb₂, hclock₂, hbloom₂, hfs₂⟩ := runs_writeBloomFile_ok libs req h2
  obtain ⟨_, w₃, _, _, -, h3, k3⟩ := runs_bindE_ok.mp k2
  -- the rename moves the complete block file into the tier
  obtain ⟨_, w₄, _, _, -, h4, j4⟩ := runs_bindE_ok.mp (runs_orElse_ok.mp h3)
  obtain rfl := runs_osMkdirAll_ok h4
  obtain ⟨content, hcontent, rfl⟩ := runs_osRename_ok j4
  rw [hfs₂ _ htmpBloom, World.setFile_fs, FS.put_self, Option.some.injEq] at hcontent
  obtain ⟨_, w₅, _, _, -, h5, k5⟩ := runs_bindE_ok.mp k3
  obtain ⟨hfs₅, hclock₅, hview₅⟩ := runs_putIdxChunks_ok h5
  obtain ⟨-, hbm, rfl⟩ := k5
  refine ⟨⟨?_, hsize, ⟨data, hdata, ?_⟩, ?_, ?_, ?_⟩, by cases hbm; rfl⟩
  · rw [hfs₅, World.setFile_fs, FS.put_ne _ _ htmpBlock.symm]
    exact (FS.put_self _ _ _).trans (congrArg some hcontent.symm)
  · rw [hfs₅, World.setFile_fs, FS.put_ne _ _ htmpBloom.symm]
    exact (FS.put_ne _ _ hbloomBlock.symm).trans hbloom₂
  · intro p htmp hbloom hblock
    rw [hfs₅, World.setFile_fs, FS.put_ne _ _ htmp]
    refine (FS.put_ne _ _ hblock).trans ?_
    rw [hfs₂ p hbloom]
    exact FS.put_ne _ _ htmp
  · intro k
    rw [hview₅, flatten_idxChunks (chunkSize_pos req) _ _ (Nat.le_refl _)]
    simp only [World.setFile_db, hdb₂]
  · rw [hclock₅]
    exact hclock₂

/-! ## Runs of Seal -/

/-- **What a complete run of `Seal` did.** If it failed, every operation was
a `PrepStep`. If it succeeded, they all were but the last, which committed
the final batch over a prepared world. -/
theorem runs_sealBlock {r : Except Err BlockID}
    (h : Runs sem (sealBlock libs req).run w ws r w') :
    ((∃ e, r = .error e) ∧ List.IsChain (PrepStep req) (w :: ws)) ∨
    (r = .ok req.blockID ∧ ∃ ws₁ w₁, ws = ws₁ ++ [w'] ∧ (w :: ws₁).getLast? = some w₁ ∧
      List.IsChain (PrepStep req) (w :: ws₁) ∧ Prepared libs req w w₁ ∧
      w' = w₁.commit (sealOps req.shard req.blockID (req.blockMeta libs) req.expiryHour) true) := by
  have hprep : ∀ {ws₁ : List World} {r₁ : Except Err BlockMeta} {w₁ : World},
      Runs sem (prepareBlock libs req).run w ws₁ r₁ w₁ →
        List.IsChain (PrepStep req) (w :: ws₁) := by
    intro ws₁ r₁ w₁ hr
    refine ((calls_prepareBlock libs req).ensures ?_ w).runs hr |>.1
    exact fun o w r w' ho hs => prepStep_of_sem req ho hs
  rcases runs_bindE.mp h with ⟨e, rfl, hr⟩ | ⟨bm, w₁, ws₁, ws₂, rfl, hr, hk⟩
  · exact Or.inl ⟨⟨e, rfl⟩, hprep hr⟩
  · rcases runs_bindE.mp hk with ⟨e, rfl, hc⟩ | ⟨_, w₂, ws₃, ws₄, rfl, hc, hpure⟩
    · -- the commit failed and left the world as it was
      left
      have hws : ws₂ = [w₁] := by rw [(runs_call.mp hc).2, runs_batchCommit_error hc]
      refine ⟨⟨e, rfl⟩, ?_⟩
      rw [hws, ← List.cons_append]
      refine List.isChain_append.mpr ⟨hprep hr, List.isChain_singleton _, ?_⟩
      intro x hx y hy
      obtain rfl : x = w₁ := by simpa [hr.getLast] using hx.symm
      obtain rfl : x = y := by simpa using hy
      exact ⟨fun _ _ _ _ => rfl, Or.inl rfl, le_refl _⟩
    · right
      obtain ⟨rfl, rfl, rfl⟩ := hpure
      have hws : ws₃ = [w'] := (runs_call.mp hc).2
      obtain ⟨hp, rfl⟩ := runs_prepareBlock_ok libs req hr
      have hw' := runs_batchCommit_ok hc
      exact ⟨rfl, ws₁, w₁, by simp [hws], hr.getLast, hprep hr, hp, hw'⟩

/-- **A run of `Seal` that a crash cuts off** has not committed. -/
theorem cuts_sealBlock (h : Cuts sem (sealBlock libs req).run w ws w') :
    List.IsChain (PrepStep req) (w :: ws) := by
  have hop : ∀ (o : Op) (w : World) (r : o.Res) (w' : World),
      Prepares req o → sem o w r w' → PrepStep req w w' :=
    fun o w r w' ho hs => prepStep_of_sem req ho hs
  have hens := (calls_prepareBlock libs req).ensures hop w
  rcases cuts_bindE.mp h with hc | ⟨bm, w₁, ws₁, ws₂, rfl, hr, hk⟩
  · exact hens.cuts hc
  · -- the only operation left is the commit itself
    rcases cuts_bindE.mp hk with hc | ⟨_, w₂, ws₃, ws₄, -, -, hk⟩
    · rcases hc with ⟨rfl, -⟩ | ⟨_, _, _, -, -, hc⟩
      · rw [List.append_nil]
        exact (hens.runs hr).1
      · exact hc.elim
    · exact hk.elim

/-! ## When nothing goes wrong -/

theorem exec_writeBlockFile (hsize : (req.file libs).length < maxBlockFile) :
    (writeBlockFile libs req).run.exec w =
      (.ok (UInt64.ofNat (req.file libs).length, blockFooter libs (req.sorted libs)),
        w.setFile req.tmpPath (some (req.file libs))) := by
  have hfile : encodeHeader req.header ++ blockBody libs (req.sorted libs) ++
      encodeFooter (blockFooter libs (req.sorted libs)) = req.file libs := by
    simp [SealRequest.file, blockFile]
  have hlen := hsize
  rw [← hfile, List.length_append, List.length_append, length_encodeHeader, length_encodeFooter,
    maxBlockFile] at hlen
  have hfits : (blockBody libs (req.sorted libs)).length ≤ maxAlloc := by omega
  have hmax : headerSize + maxAlloc + footerSize < maxFileSize := by decide
  -- the header, the columns and the footer, one after the other
  have hbody : (writeBlockBody libs req.tmpPath req.header (req.sorted libs)).run.exec
      (w.setFile req.tmpPath (some [])) = (.ok (blockFooter libs (req.sorted libs)),
        w.setFile req.tmpPath (some (encodeHeader req.header ++ blockBody libs (req.sorted libs)))) := by
    rw [writeBlockBody, bufferBytes_eq_ok.mpr ⟨hfits, rfl⟩]
    refine (exec_bindE_of (exec_fileWrite (FS.put_self _ _ _) ?_)).trans ?_
    · rw [List.length_nil, length_encodeHeader]
      omega
    refine (exec_bindE_of (exec_fileWrite (FS.put_self _ _ _) ?_)).trans ?_
    · simp only [List.length_nil, List.length_append, length_encodeHeader]
      omega
    simp only [World.setFile_setFile, List.nil_append]
    rfl
  have hfooter : (fileWrite req.tmpPath (encodeFooter (blockFooter libs (req.sorted libs)))).run.exec
      (w.setFile req.tmpPath
        (some (encodeHeader req.header ++ blockBody libs (req.sorted libs)))) =
      (.ok (), w.setFile req.tmpPath (some (req.file libs))) := by
    rw [exec_fileWrite (FS.put_self _ _ _)
      (by rw [List.length_append, length_encodeHeader, length_encodeFooter]; omega),
      World.setFile_setFile, hfile]
  have hstat : (osStat req.tmpPath).run.exec (w.setFile req.tmpPath (some (req.file libs))) =
      (.ok (req.file libs).length, w.setFile req.tmpPath (some (req.file libs))) :=
    exec_osStat (FS.put_self _ _ _)
  refine (exec_bindE_of (show (osMkdirAll req.tmpDir).run.exec w = (.ok (), w) from rfl)).trans ?_
  refine (exec_bindE_of (exec_orElse
    (show (osCreate req.tmpPath).run.exec w = (.ok (), w.setFile req.tmpPath (some [])) from
      rfl))).trans ?_
  refine (exec_bindE_of (exec_orElse hbody)).trans ?_
  refine (exec_bindE_of (exec_orElse hfooter)).trans ?_
  refine (exec_bindE_of (exec_orElse (show (fileSync req.tmpPath).run.exec
    (w.setFile req.tmpPath (some (req.file libs))) = (.ok (), _) from rfl))).trans ?_
  exact (exec_bindE_of (exec_orElse hstat)).trans rfl

theorem exec_writeBloomFile {data : Bytes}
    (hdata : serialize libs (buildBloomFromMemtable libs 0 (req.sorted libs) req.bloomFPR) =
      .ok data) (hsize : data.length < maxFileSize) :
    (writeBloomFile libs req).run.exec w = (.ok (), w.setFile req.bloomPath (some data)) := by
  have hwrite : (fileWrite req.bloomPath data).run.exec (w.setFile req.bloomPath (some [])) =
      (.ok (), w.setFile req.bloomPath (some data)) := by
    rw [exec_fileWrite (FS.put_self _ _ _) (by simpa using hsize), World.setFile_setFile,
      List.nil_append]
  refine (exec_bindE_of (exec_orElse (show _ = (Except.ok data, w) from ?_))).trans ?_
  · exact congrArg (fun r => (r, w)) hdata
  refine (exec_bindE_of (exec_orElse
    (show (osMkdirAll _).run.exec w = (.ok (), w) from rfl))).trans ?_
  refine (exec_bindE_of (exec_orElse (show (osCreate req.bloomPath).run.exec w =
    (.ok (), w.setFile req.bloomPath (some [])) from rfl))).trans ?_
  refine (exec_bindE_of (exec_orElse hwrite)).trans ?_
  exact exec_orElse rfl

theorem result_putIdxChunks (et : UInt8) (id : BlockID) (cs : List (List UInt64)) (w : World) :
    ((putIdxChunks et id cs).run.exec w).1 = .ok () := by
  induction cs generalizing w with
  | nil => rfl
  | cons c cs ih =>
      have hbatch : (orElse (putIdxBatch et c id) [] (.wrap "put idx batch")).run.exec w =
          (.ok (), w.commit (idxOps et c id) false) := exec_orElse rfl
      exact (congrArg Prod.fst (exec_bindE_of hbatch)).trans (ih _)

theorem result_prepareBlock (hsize : (req.file libs).length < maxBlockFile) {data : Bytes}
    (hdata : serialize libs (buildBloomFromMemtable libs 0 (req.sorted libs) req.bloomFPR) =
      .ok data) (hbloom : data.length < maxFileSize) (w : World) :
    ((prepareBlock libs req).run.exec w).1 = .ok (req.blockMeta libs) := by
  have htmp : req.tmpPath ≠ req.bloomPath := tmpPath_ne_bloomPath _ _ _ _
  have hwritten : ((w.setFile req.tmpPath (some (req.file libs))).setFile req.bloomPath
      (some data)).fs req.tmpPath = some (req.file libs) := by
    rw [World.setFile_fs, FS.put_ne _ _ htmp]
    exact FS.put_self _ _ _
  have hput : (orElse (req.store.put req.blockID req.tmpPath) [req.bloomPath, req.tmpPath]
      (.wrap "store.Put")).run.exec _ = (.ok (), _) := exec_orElse (exec_put hwritten)
  refine (congrArg Prod.fst (exec_bindE_of (exec_writeBlockFile libs req hsize))).trans ?_
  refine (congrArg Prod.fst (exec_bindE_of (exec_writeBloomFile libs req hdata hbloom))).trans ?_
  refine (congrArg Prod.fst (exec_bindE_of hput)).trans ?_
  exact congrArg Prod.fst (exec_bindE_of (Prod.ext (result_putIdxChunks _ _ _ _) rfl))

/-- **`Seal` succeeds when nothing goes wrong** and its files are not too
large. -/
theorem result_sealBlock (hsize : (req.file libs).length < maxBlockFile) {data : Bytes}
    (hdata : serialize libs (buildBloomFromMemtable libs 0 (req.sorted libs) req.bloomFPR) =
      .ok data) (hbloom : data.length < maxFileSize) (w : World) :
    ((sealBlock libs req).run.exec w).1 = .ok req.blockID := by
  have hprep := result_prepareBlock libs req hsize hdata hbloom w
  exact congrArg Prod.fst (exec_bindE_of (Prod.ext hprep rfl))

end Bbdb.Block
