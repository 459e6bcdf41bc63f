import Bbdb.Lib.Layout
import Bbdb.Meta.Keys
import Mathlib.Data.List.TakeWhile

/-!
# Meta — the metadata store

The functions of package `meta` over pebble: the WAL of a shard, block
metadata, the sparse index, the expiry keys, and the two atomic batches —
`sealBatch`, which commits a block and truncates its shard's WAL, and
`deleteBlockAndExpiry`, which takes a block out again.

Each batch has one lemma that says what a reader finds at any key after it
(`get_sealOps`, `get_idxOps`, `get_deleteOps`); `mem_idxRange` and
`mem_expiredEntries_iff` say what the scans return.
-/

namespace Bbdb.Meta

open Bbdb.Bytes

/-! ## WAL -/

/-- The next sequence number of a shard, stored back before it is used. The
counter key holds eight bytes: nothing else writes it. -/
def walNextSeq (shard : ShardID) : Go UInt64 := do
  let next ← ExceptT.mk do
    match ← (dbGet (walSeqKey shard)).run with
    | .ok val => pure (.ok (getUint64 val + 1))
    | .error e => pure (if e = .pebbleNotFound then .ok 0 else .error e)
  dbSet (walSeqKey shard) (putUint64 next)
  pure next

def walAppend (shard : ShardID) (data : Bytes) : Go Unit := do
  let seq ← walNextSeq shard
  dbSet (walKey shard seq) data

/-- All WAL entries of a shard in sequence order. -/
def walScan (shard : ShardID) : Go (List Bytes) := do
  let entries ← dbIter (walKeyStart shard) (walKeyEnd shard)
  pure (entries.map Prod.snd)

def walTruncate (shard : ShardID) : Go Unit :=
  batchCommit [.deleteRange (walKeyStart shard) (walKeyEnd shard)] true

/-! ## Block metadata -/

def blockMetaSize : Nat := 31

def encodeBlockMeta (m : BlockMeta) : Bytes :=
  putUint16 m.shardID ++ (putUint64 m.openedAt.toUInt64 ++ (putUint64 m.sealedAt.toUInt64 ++
    (m.tier :: (putUint64 m.size ++ putUint32 m.checksum))))

def decodeBlockMeta (buf : Bytes) : Except Err BlockMeta :=
  if buf.length < blockMetaSize then .error (.msg "block meta too short")
  else .ok {
    shardID := getUint16 buf
    openedAt := (getUint64 (buf.drop 2)).toInt64
    sealedAt := (getUint64 (buf.drop 10)).toInt64
    tier := buf.getD 18 0
    size := getUint64 (buf.drop 19)
    checksum := getUint32 (buf.drop 27) }

def getBlockMeta (id : BlockID) : Go BlockMeta :=
  ExceptT.mk do
    match ← (dbGet (blockKey id)).run with
    | .ok val => pure (decodeBlockMeta val)
    | .error e =>
        if Err.is .pebbleNotFound e then pure (.error (.wrap ("block " ++ Text.quote id) .notFound))
        else pure (.error e)

def putBlockMeta (id : BlockID) (m : BlockMeta) : Go Unit := dbSet (blockKey id) (encodeBlockMeta m)

def deleteBlockMeta (id : BlockID) : Go Unit := dbDelete (blockKey id)

/-! ## Sealing -/

/-- The entries of the seal batch: WAL truncation, block metadata, expiry. -/
def sealOps (shard : ShardID) (blockID : BlockID) (bm : BlockMeta) (expiryHour : UInt64) : Batch :=
  [.deleteRange (walKeyStart shard) (walKeyEnd shard),
   .set (blockKey blockID) (encodeBlockMeta bm),
   .set (expiryKey expiryHour blockID) []]

def sealBatch (shard : ShardID) (blockID : BlockID) (bm : BlockMeta) (expiryHour : UInt64) :
    Go Unit :=
  batchCommit (sealOps shard blockID bm expiryHour) true

/-! ## Sparse index -/

def idxOps (eventType : UInt8) (keyHashes : List UInt64) (blockID : BlockID) : Batch :=
  keyHashes.map fun h => .set (idxKey eventType h blockID) []

def putIdxBatch (eventType : UInt8) (keyHashes : List UInt64) (blockID : BlockID) : Go Unit :=
  batchCommit (idxOps eventType keyHashes blockID) false

/-- The prefix with its last byte incremented. -/
def idxKeyUpper (eventType : UInt8) (keyHash : UInt64) : Bytes :=
  let pre := idxKeyPrefix eventType keyHash
  pre.dropLast ++ [pre.getLastD 0 + 1]

/-- The block ids of the idx entries an iterator passed; a key that does not
parse is skipped. -/
def idxIDs (entries : List (Bytes × Bytes)) : List BlockID :=
  entries.filterMap fun p =>
    match parseIdxKey p.1 with
    | .ok (_, _, id) => some id
    | .error _ => none

def idxLookupBlocks (eventType : UInt8) (keyHash : UInt64) : Go (List BlockID) := do
  let entries ← dbIter (idxKeyPrefix eventType keyHash) (idxKeyUpper eventType keyHash)
  pure (idxIDs entries)

/-! ## Expiry -/

structure ExpiredEntry where
  id : BlockID
  hour : UInt64
  deriving DecidableEq, Repr

/-- The entries of the expiry keys an iterator passed, up to the first key
of another family; a key that does not parse is skipped. -/
def expiredEntries (entries : List (Bytes × Bytes)) : List ExpiredEntry :=
  (entries.takeWhile fun p => prefixExpiry.isPrefixOf p.1).filterMap fun p =>
    match parseExpiryKey p.1 with
    | .ok (h, id) => some { id := id, hour := h }
    | .error _ => none

def scanExpiredEntries (nowHour : UInt64) : Go (List ExpiredEntry) := do
  let entries ← dbIter prefixExpiry (expiryKeyUpperBound nowHour)
  pure (expiredEntries entries)

/-- The ids of the expiry keys an iterator passed: the loop of `ScanExpired`,
which does not look at the prefix. -/
def expiredIDs (entries : List (Bytes × Bytes)) : List BlockID :=
  entries.filterMap fun p =>
    match parseExpiryKey p.1 with
    | .ok (_, id) => some id
    | .error _ => none

def scanExpired (nowHour : UInt64) : Go (List BlockID) := do
  let entries ← dbIter prefixExpiry (expiryKeyUpperBound nowHour)
  pure (expiredIDs entries)

def putExpiryKey (unixHour : UInt64) (id : BlockID) : Go Unit := dbSet (expiryKey unixHour id) []

def deleteExpiryKey (unixHour : UInt64) (id : BlockID) : Go Unit := dbDelete (expiryKey unixHour id)

def deleteOps (unixHour : UInt64) (id : BlockID) : Batch :=
  [.delete (blockKey id), .delete (expiryKey unixHour id)]

def deleteBlockAndExpiry (unixHour : UInt64) (id : BlockID) : Go Unit :=
  batchCommit (deleteOps unixHour id) true

/-! ## Metadata round trip -/

@[simp] theorem length_encodeBlockMeta (m : BlockMeta) :
    (encodeBlockMeta m).length = blockMetaSize := by
  simp [encodeBlockMeta, blockMetaSize]

/-- The fields of the metadata, byte after byte. -/
def blockMetaLayout : Layout BlockMeta :=
  (Layout.uint16.seq (Layout.int64.seq (Layout.int64.seq (Layout.uint8.seq
    (Layout.uint64.seq Layout.uint32))))).map
      { toFun := fun x => ⟨x.1, x.2.1, x.2.2.1, x.2.2.2.1, x.2.2.2.2.1, x.2.2.2.2.2⟩
        invFun := fun m => (m.shardID, m.openedAt, m.sealedAt, m.tier, m.size, m.checksum)
        left_inv := fun _ => rfl
        right_inv := fun _ => rfl }

theorem encodeBlockMeta_eq (m : BlockMeta) : encodeBlockMeta m = blockMetaLayout.put m := rfl

theorem decodeBlockMeta_eq {buf : Bytes} (h : blockMetaSize ≤ buf.length) :
    decodeBlockMeta buf = .ok (blockMetaLayout.get buf) := by
  rw [decodeBlockMeta, if_neg (Nat.not_lt.mpr h)]
  simp [blockMetaLayout, Layout.seq, Layout.map, Layout.uint8, Layout.uint16, Layout.uint32,
    Layout.uint64, Layout.int64]

/-- **Block metadata reads back as it was written.** -/
theorem decodeBlockMeta_encodeBlockMeta (m : BlockMeta) :
    decodeBlockMeta (encodeBlockMeta m) = .ok m := by
  rw [decodeBlockMeta_eq (length_encodeBlockMeta m).ge, encodeBlockMeta_eq,
    blockMetaLayout.get_put_self]

/-- Reading the metadata is one read of pebble. -/
theorem calls_getBlockMeta {P : Op → Prop} (hget : ∀ k, P (.get k)) (id : BlockID) :
    Prog.Calls (S := machine) P (getBlockMeta id).run := by
  refine Prog.calls_bind (Prog.calls_call.mpr (hget _)) fun r => ?_
  cases r with
  | ok val => exact Prog.calls_pure _
  | error e =>
      dsimp only
      split_ifs
      · exact Prog.calls_pure _
      · exact Prog.calls_pure _

/-- What an error-free read of the metadata returns. -/
theorem result_getBlockMeta (w : World) (id : BlockID) :
    ((getBlockMeta id).run.exec w).1 =
      match w.db.view.get (blockKey id) with
      | none => .error (.wrap ("block " ++ Text.quote id) .notFound)
      | some val => decodeBlockMeta val := by
  cases hval : w.db.view.get (blockKey id) with
  | none => exact congrArg Prod.fst (Prog.exec_bind_of (exec_dbGet_none hval))
  | some val => exact congrArg Prod.fst (Prog.exec_bind_of (exec_dbGet hval))

/-! ## Reading after a batch -/

theorem get_sealOps (m : KV) (s : ShardID) (id : BlockID) (bm : BlockMeta) (h : UInt64)
    (k : Bytes) :
    ((sealOps s id bm h).apply m).get k =
      if k = expiryKey h id then some []
      else if k = blockKey id then some (encodeBlockMeta bm)
      else if walKeyStart s ≤ k ∧ k < walKeyEnd s then none else m.get k := by
  simp only [sealOps, Batch.apply, List.foldl, BatchOp.apply, OrdMap.get_set,
    OrdMap.get_eraseRange]
  congr

/-- On other families than its two, the seal batch is a truncation. -/
theorem get_sealOps_of_family (m : KV) (s : ShardID) (id : BlockID) (bm : BlockMeta) (h : UInt64)
    {k : Bytes} (hexp : family k ≠ prefixExpiry) (hblk : family k ≠ prefixBlock) :
    ((sealOps s id bm h).apply m).get k =
      if walKeyStart s ≤ k ∧ k < walKeyEnd s then none else m.get k := by
  rw [get_sealOps, if_neg (ne_of_family (by rwa [family_expiryKey])),
    if_neg (ne_of_family (by rwa [family_blockKey]))]

/-- The seal batch leaves the index alone. -/
theorem get_sealOps_idxKey (m : KV) (s : ShardID) (id : BlockID) (bm : BlockMeta) (h : UInt64)
    (et : UInt8) (kh : UInt64) (id' : BlockID) :
    ((sealOps s id bm h).apply m).get (idxKey et kh id') = m.get (idxKey et kh id') := by
  rw [get_sealOps, if_neg idxKey_ne_expiryKey, if_neg idxKey_ne_blockKey, if_neg]
  exact notMem_walRange (by rw [family_idxKey]; decide)

/-- The seal batch sets the metadata of its block and of no other. -/
theorem get_sealOps_blockKey (m : KV) (s : ShardID) (id : BlockID) (bm : BlockMeta) (h : UInt64)
    (id' : BlockID) :
    ((sealOps s id bm h).apply m).get (blockKey id') =
      if id' = id then some (encodeBlockMeta bm) else m.get (blockKey id') := by
  rw [get_sealOps, if_neg blockKey_ne_expiryKey]
  by_cases hid : id' = id
  · rw [if_pos (blockKey_inj.mpr hid), if_pos hid]
  · rw [if_neg (fun he => hid (blockKey_inj.mp he)), if_neg hid, if_neg]
    exact notMem_walRange (by rw [family_blockKey]; decide)

/-- The seal batch sets one expiry key. -/
theorem get_sealOps_expiryKey (m : KV) (s : ShardID) (id : BlockID) (bm : BlockMeta) (h n : UInt64)
    (id' : BlockID) :
    ((sealOps s id bm h).apply m).get (expiryKey n id') =
      if n = h ∧ id' = id then some [] else m.get (expiryKey n id') := by
  rw [get_sealOps]
  by_cases he : n = h ∧ id' = id
  · rw [if_pos (expiryKey_inj.mpr he), if_pos he]
  · rw [if_neg (fun hk => he (expiryKey_inj.mp hk)), if_neg he, if_neg blockKey_ne_expiryKey.symm,
      if_neg]
    exact notMem_walRange (by rw [family_expiryKey]; decide)

theorem get_idxOps (m : KV) (et : UInt8) (hs : List UInt64) (id : BlockID) (k : Bytes) :
    ((idxOps et hs id).apply m).get k =
      if ∃ h ∈ hs, k = idxKey et h id then some [] else m.get k := by
  induction hs generalizing m with
  | nil => simp [idxOps, Batch.apply]
  | cons h hs ih =>
      show ((idxOps et hs id).apply (m.set (idxKey et h id) [])).get k = _
      rw [ih, OrdMap.get_set]
      by_cases hk : k = idxKey et h id
      · simp [hk]
      · simp [hk]

theorem get_deleteOps (m : KV) (h : UInt64) (id : BlockID) (k : Bytes) :
    ((deleteOps h id).apply m).get k =
      if k = expiryKey h id ∨ k = blockKey id then none else m.get k := by
  simp only [deleteOps, Batch.apply, List.foldl, BatchOp.apply, OrdMap.get_erase]
  split_ifs <;> simp_all

theorem get_deleteOps_idxKey (m : KV) (h : UInt64) (id : BlockID) (et : UInt8) (kh : UInt64)
    (id' : BlockID) :
    ((deleteOps h id).apply m).get (idxKey et kh id') = m.get (idxKey et kh id') := by
  rw [get_deleteOps, if_neg]
  rintro (he | he)
  · exact idxKey_ne_expiryKey he
  · exact idxKey_ne_blockKey he

/-! ## Unsynced batches

The only batches the code commits without `Sync` hold index keys. A crash
can lose those; every other key reads the same before and after it. -/

/-- A batch that sets index keys and nothing else. -/
def IdxBatch (b : Batch) : Prop := ∀ o ∈ b, ∃ k v, o = .set k v ∧ family k = prefixIdx

/-- Every unsynced batch of a pebble is an index batch. -/
def PendingIdx (d : Pebble) : Prop := ∀ b ∈ d.pending, IdxBatch b

theorem idxBatch_idxOps (et : UInt8) (hs : List UInt64) (id : BlockID) :
    IdxBatch (idxOps et hs id) := by
  intro o ho
  obtain ⟨h, -, rfl⟩ := List.mem_map.mp ho
  exact ⟨_, _, rfl, family_idxKey et h id⟩

theorem get_idxBatch {b : Batch} (hb : IdxBatch b) (m : KV) {k : Bytes}
    (hk : family k ≠ prefixIdx) : (b.apply m).get k = m.get k := by
  induction b generalizing m with
  | nil => rfl
  | cons o b ih =>
      obtain ⟨x, v, rfl, hx⟩ := hb o List.mem_cons_self
      show (Batch.apply b (m.set x v)).get k = m.get k
      rw [ih (fun o ho => hb o (List.mem_cons_of_mem _ ho)), OrdMap.get_set_ne]
      exact ne_of_family (by rw [hx]; exact hk)

theorem get_idxBatches {bs : List Batch} (hbs : ∀ b ∈ bs, IdxBatch b) (m : KV) {k : Bytes}
    (hk : family k ≠ prefixIdx) : (bs.foldl (fun m b => Batch.apply b m) m).get k = m.get k := by
  induction bs generalizing m with
  | nil => rfl
  | cons b bs ih =>
      show (bs.foldl _ (Batch.apply b m)).get k = m.get k
      rw [ih (fun b hb => hbs b (List.mem_cons_of_mem _ hb)),
        get_idxBatch (hbs b List.mem_cons_self) m hk]

/-- **A crash loses index keys only.** -/
theorem get_view_crash {d d' : Pebble} (hd : PendingIdx d) (hc : d.Crash d') {k : Bytes}
    (hk : family k ≠ prefixIdx) : d'.view.get k = d.view.get k := by
  obtain ⟨n, rfl⟩ := hc
  have hsub : ∀ b ∈ d.pending.take n, IdxBatch b := fun b hb => hd b (List.mem_of_mem_take hb)
  show ((d.pending.take n).foldl _ d.synced).get k = (d.pending.foldl _ d.synced).get k
  rw [get_idxBatches hsub d.synced hk, get_idxBatches hd d.synced hk]

/-- An index batch removes nothing. -/
theorem isSome_idxBatch {b : Batch} (hb : IdxBatch b) (m : KV) {k : Bytes}
    (hk : (m.get k).isSome) : ((b.apply m).get k).isSome := by
  induction b generalizing m with
  | nil => exact hk
  | cons o b ih =>
      obtain ⟨x, v, rfl, -⟩ := hb o List.mem_cons_self
      refine ih (fun o ho => hb o (List.mem_cons_of_mem _ ho)) (m.set x v) ?_
      rw [OrdMap.get_set]
      split_ifs
      · rfl
      · exact hk

theorem isSome_idxBatches {bs : List Batch} (hbs : ∀ b ∈ bs, IdxBatch b) (m : KV) {k : Bytes}
    (hk : (m.get k).isSome) : ((bs.foldl (fun m b => Batch.apply b m) m).get k).isSome := by
  induction bs generalizing m with
  | nil => exact hk
  | cons b bs ih =>
      exact ih (fun b hb => hbs b (List.mem_cons_of_mem _ hb)) _
        (isSome_idxBatch (hbs b List.mem_cons_self) m hk)

/-- A key that is there after a crash was there before. -/
theorem isSome_of_crash {d d' : Pebble} (hd : PendingIdx d) (hc : d.Crash d') {k : Bytes}
    (hk : (d'.view.get k).isSome) : (d.view.get k).isSome := by
  obtain ⟨n, rfl⟩ := hc
  have hview : d.view = (d.pending.drop n).foldl (fun m b => Batch.apply b m)
      ((d.pending.take n).foldl (fun m b => Batch.apply b m) d.synced) := by
    rw [← List.foldl_append, List.take_append_drop]
    rfl
  rw [hview]
  exact isSome_idxBatches (fun b hb => hd b (List.mem_of_mem_drop hb)) _ hk

/-- After a synced commit a crash loses nothing. -/
theorem view_crash_sync {d d' : Pebble} {b : Batch} (hc : (d.commit b true).Crash d') :
    d'.view = (d.commit b true).view := by
  obtain ⟨n, rfl⟩ := hc
  simp [Pebble.view]

/-! ## What the scans return -/

/-- The range of a lookup holds exactly the keys that extend its prefix. -/
theorem mem_idxRange {et : UInt8} {kh : UInt64} {k : Bytes} :
    (idxKeyPrefix et kh ≤ k ∧ k < idxKeyUpper et kh) ↔ idxKeyPrefix et kh <+: k := by
  have hlow : idxKeyPrefix et kh = (prefixIdx ++ (et :: putUint64 kh)) ++ [colon] := by
    simp [idxKeyPrefix]
  have hup : idxKeyUpper et kh = (prefixIdx ++ (et :: putUint64 kh)) ++ [59] := by
    simp only [idxKeyUpper, hlow, List.dropLast_concat, List.getLastD_concat]
    rfl
  rw [hup, hlow]
  refine mem_prefixRange (by decide) fun x hx hx' => ?_
  rw [UInt8.lt_iff_toNat_lt] at hx hx'
  have h58 : colon.toNat = 58 := rfl
  have h59 : (59 : UInt8).toNat = 59 := rfl
  omega

theorem prefix_idxKey_iff {et et' : UInt8} {kh kh' : UInt64} {id : BlockID} :
    idxKeyPrefix et kh <+: idxKey et' kh' id ↔ et = et' ∧ kh = kh' := by
  rw [idxKey_eq]
  constructor
  · rintro ⟨r, hr⟩
    have hlen : (idxKeyPrefix et kh).length = (idxKeyPrefix et' kh').length := by
      rw [length_idxKeyPrefix, length_idxKeyPrefix]
    exact idxKeyPrefix_inj.mp (List.append_inj hr hlen).1
  · rintro ⟨rfl, rfl⟩
    exact List.prefix_append _ _

/-- A range scan over keys of one form, in ascending order, without
repetition: the ids of `idxKeyPrefix et kh ++ id` for every bound key. -/
theorem idxIDs_range {m : KV} {et : UInt8} {kh : UInt64} {id : BlockID} :
    id ∈ idxIDs (m.range (idxKeyPrefix et kh) (idxKeyUpper et kh)) ↔
      (m.get (idxKey et kh id)).isSome := by
  simp only [idxIDs, List.mem_filterMap]
  constructor
  · rintro ⟨⟨k, v⟩, hmem, hp⟩
    obtain ⟨hget, hrange⟩ := OrdMap.mem_range.mp hmem
    obtain ⟨id', rfl⟩ := mem_idxRange.mp hrange
    rw [← idxKey_eq] at hp hget
    simp only [parseIdxKey_idxKey, Option.some.injEq] at hp
    subst hp
    rw [hget]
    rfl
  · intro h
    obtain ⟨v, hv⟩ := Option.isSome_iff_exists.mp h
    refine ⟨(idxKey et kh id, v), OrdMap.mem_range.mpr ⟨hv, ?_⟩, by simp⟩
    exact mem_idxRange.mpr (prefix_idxKey_iff.mpr ⟨rfl, rfl⟩)

/-- The ids come in ascending order. -/
theorem idxIDs_sorted (m : KV) (et : UInt8) (kh : UInt64) :
    (idxIDs (m.range (idxKeyPrefix et kh) (idxKeyUpper et kh))).Pairwise (· < ·) := by
  have hkey : ∀ p ∈ m.range (idxKeyPrefix et kh) (idxKeyUpper et kh),
      ∃ id, p.1 = idxKey et kh id := by
    rintro ⟨k, v⟩ hp
    obtain ⟨id, rfl⟩ := mem_idxRange.mp (OrdMap.mem_range.mp hp).2
    exact ⟨id, (idxKey_eq ..).symm⟩
  have hs := m.range_sorted (idxKeyPrefix et kh) (idxKeyUpper et kh)
  rw [idxIDs, List.pairwise_filterMap]
  refine hs.imp_of_mem fun {a b} ha hb hlt x hx y hy => ?_
  obtain ⟨ia, hia⟩ := hkey a ha
  obtain ⟨ib, hib⟩ := hkey b hb
  simp only [hia, hib, parseIdxKey_idxKey, Option.some.injEq] at hx hy
  rw [hia, hib, hx, hy, idxKey_eq, idxKey_eq] at hlt
  exact (append_lt_append_left _ _ _).mp hlt

theorem idxIDs_nodup (m : KV) (et : UInt8) (kh : UInt64) :
    (idxIDs (m.range (idxKeyPrefix et kh) (idxKeyUpper et kh))).Nodup :=
  List.Pairwise.imp (fun h => ne_of_lt h) (idxIDs_sorted m et kh)

/-- Every key in the range of an expiry scan has its prefix. -/
theorem isPrefixOf_of_mem_expiryRange {m : KV} {n : UInt64} {p : Bytes × Bytes}
    (h : p ∈ m.range prefixExpiry (expiryKeyUpperBound n)) : prefixExpiry.isPrefixOf p.1 = true := by
  obtain ⟨-, hlo, hhi⟩ := OrdMap.mem_range.mp h
  rw [← List.append_nil prefixExpiry] at hlo
  exact List.isPrefixOf_iff_prefix.mpr (prefix_of_mem_range hlo hhi)

/-- By hour, then by block id. -/
def ExpiredEntry.Before (a b : ExpiredEntry) : Prop := a.hour < b.hour ∨ a.hour = b.hour ∧ a.id < b.id

theorem ExpiredEntry.before_iff {a b : ExpiredEntry} :
    a.Before b ↔ expiryKey a.hour a.id < expiryKey b.hour b.id :=
  expiryKey_lt.symm

/-- The entry of an expiry key. -/
def expiredEntry (p : Bytes × Bytes) : Option ExpiredEntry :=
  match parseExpiryKey p.1 with
  | .ok (h, id) => some { id := id, hour := h }
  | .error _ => none

theorem expiryKey_of_expiredEntry {p : Bytes × Bytes} {e : ExpiredEntry}
    (h : expiredEntry p = some e) : p.1 = expiryKey e.hour e.id := by
  unfold expiredEntry at h
  cases hparse : parseExpiryKey p.1 with
  | error err => simp [hparse] at h
  | ok r =>
      simp only [hparse, Option.some.injEq] at h
      subst h
      exact expiryKey_of_parse hparse

/-- The prefix test of `ScanExpiredEntries` never ends its loop. -/
theorem expiredEntries_range (m : KV) (n : UInt64) :
    expiredEntries (m.range prefixExpiry (expiryKeyUpperBound n)) =
      (m.range prefixExpiry (expiryKeyUpperBound n)).filterMap expiredEntry := by
  have hall : (m.range prefixExpiry (expiryKeyUpperBound n)).takeWhile
      (fun p => prefixExpiry.isPrefixOf p.1) = m.range prefixExpiry (expiryKeyUpperBound n) :=
    List.takeWhile_eq_self_iff.mpr fun p hp => isPrefixOf_of_mem_expiryRange hp
  rw [expiredEntries, hall]
  rfl

/-- **An expiry scan returns the entries whose hour has been reached**, each
from its own key. -/
theorem mem_expiredEntries_iff {m : KV} {n : UInt64} {e : ExpiredEntry} :
    e ∈ expiredEntries (m.range prefixExpiry (expiryKeyUpperBound n)) ↔
      (m.get (expiryKey e.hour e.id)).isSome ∧ e.hour < n + 1 := by
  rw [expiredEntries_range, List.mem_filterMap]
  constructor
  · rintro ⟨⟨k, v⟩, hmem, he⟩
    obtain ⟨hget, -, hub⟩ := OrdMap.mem_range.mp hmem
    obtain rfl : k = expiryKey e.hour e.id := expiryKey_of_expiredEntry he
    exact ⟨by rw [hget]; rfl, expiryKey_lt_upperBound.mp hub⟩
  · rintro ⟨hsome, hlt⟩
    obtain ⟨v, hv⟩ := Option.isSome_iff_exists.mp hsome
    refine ⟨(expiryKey e.hour e.id, v), OrdMap.mem_range.mpr ⟨hv, ?_, ?_⟩, ?_⟩
    · exact le_append_right _ _
    · exact expiryKey_lt_upperBound.mpr hlt
    · rw [expiredEntry, parseExpiryKey_expiryKey]

/-- **The entries come in ascending order**: byte order of the keys is the
order of the entries. -/
theorem expiredEntries_sorted (m : KV) (n : UInt64) :
    (expiredEntries (m.range prefixExpiry (expiryKeyUpperBound n))).Pairwise
      ExpiredEntry.Before := by
  rw [expiredEntries_range, List.pairwise_filterMap]
  refine (m.range_sorted prefixExpiry (expiryKeyUpperBound n)).imp fun {a b} hlt x hx y hy => ?_
  rw [ExpiredEntry.before_iff, ← expiryKey_of_expiredEntry hx, ← expiryKey_of_expiredEntry hy]
  exact hlt

/-- The entries of an expiry scan are different. -/
theorem expiredEntries_nodup (m : KV) (n : UInt64) :
    (expiredEntries (m.range prefixExpiry (expiryKeyUpperBound n))).Nodup := by
  refine (expiredEntries_sorted m n).imp fun {a b} hlt hab => ?_
  rw [hab, ExpiredEntry.before_iff] at hlt
  exact lt_irrefl _ hlt

end Bbdb.Meta
