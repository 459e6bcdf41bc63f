import Bbdb.Lib.Checked
import Bbdb.Query.BlockReader

/-!
# Query — files that nobody sealed

`ReadBlock` on any bytes whatever. Every index and slice expression of the
reader and of the decoders it calls is written out here with its bounds check,
and every buffer made from a footer field is recorded. The checked reader
returns what `readRows` does (`readRowsChecked_res`), so its only panics are
those of `readRows`: a buffer of a size no slice can have, and a timestamp
column that is shorter than the column of key hashes.

Which files do no harm is decided by the sizes in the footer and the lengths
of the two columns (`InBounds`).
-/

namespace Bbdb.Query

open Bbdb.Block Bbdb.Meta Bbdb.Tier Bbdb.Bytes
open Checked

/-- Reading code, with its bounds checks. -/
abbrev Chk := Checked Err

/-- The run-time panic of an access out of bounds. -/
def oob : Err := .panic "index out of range"

/-- `binary.BigEndian.Uint16(b[off:])`, which looks at `b[off:][1]` first. -/
def uint16At (b : Bytes) (off : Nat) : Chk UInt16 := do
  let rest ← sliceFrom oob b off
  let _ ← index oob rest 1
  pure (getUint16 rest)

def uint32At (b : Bytes) (off : Nat) : Chk UInt32 := do
  let rest ← sliceFrom oob b off
  let _ ← index oob rest 3
  pure (getUint32 rest)

def uint64At (b : Bytes) (off : Nat) : Chk UInt64 := do
  let rest ← sliceFrom oob b off
  let _ ← index oob rest 7
  pure (getUint64 rest)

theorem uint16At_eq {b : Bytes} {off : Nat} (h : off + 2 ≤ b.length) :
    uint16At b off = pure (getUint16 (b.drop off)) := by
  have hlt : 1 < (b.drop off).length := by rw [List.length_drop]; omega
  rw [uint16At, sliceFrom_of_le (by omega), Checked.pure_bind, index_of_lt hlt 0,
    Checked.pure_bind]

theorem uint32At_eq {b : Bytes} {off : Nat} (h : off + 4 ≤ b.length) :
    uint32At b off = pure (getUint32 (b.drop off)) := by
  have hlt : 3 < (b.drop off).length := by rw [List.length_drop]; omega
  rw [uint32At, sliceFrom_of_le (by omega), Checked.pure_bind, index_of_lt hlt 0,
    Checked.pure_bind]

theorem uint64At_eq {b : Bytes} {off : Nat} (h : off + 8 ≤ b.length) :
    uint64At b off = pure (getUint64 (b.drop off)) := by
  have hlt : 7 < (b.drop off).length := by rw [List.length_drop]; omega
  rw [uint64At, sliceFrom_of_le (by omega), Checked.pure_bind, index_of_lt hlt 0,
    Checked.pure_bind]

/-! ## Header and footer -/

def decodeFooterChecked (buf : Bytes) : Chk BlockFooter :=
  if buf.length < footerSize then lift (.error (.msg s!"footer too short: {buf.length}"))
  else do
    let magic ← sliceFrom oob buf (footerSize - 4)
    if magic ≠ magicTBBD then lift (.error (.msg "invalid footer magic: expected TBBD"))
    else do
      let o0 ← uint64At buf 0
      let o1 ← uint64At buf 8
      let o2 ← uint64At buf 16
      let s0 ← uint64At buf 24
      let s1 ← uint64At buf 32
      let s2 ← uint64At buf 40
      let sum ← uint32At buf 48
      pure ⟨⟨o0, o1, o2⟩, ⟨s0, s1, s2⟩, sum⟩

theorem decodeFooterChecked_eq (buf : Bytes) :
    decodeFooterChecked buf = lift (decodeFooter buf) := by
  unfold decodeFooterChecked decodeFooter
  by_cases hlen : buf.length < footerSize
  · rw [if_pos hlen, if_pos hlen]
  · rw [if_neg hlen, if_neg hlen]
    have hlong : 56 ≤ buf.length := not_lt.mp hlen
    rw [sliceFrom_of_le (by unfold footerSize; omega), Checked.pure_bind]
    by_cases hmagic : buf.drop (footerSize - 4) ≠ magicTBBD
    · rw [if_pos hmagic, if_pos hmagic]
    · rw [if_neg hmagic, if_neg hmagic]
      rw [uint64At_eq (by omega : 0 + 8 ≤ buf.length), Checked.pure_bind,
        uint64At_eq (by omega : 8 + 8 ≤ buf.length), Checked.pure_bind,
        uint64At_eq (by omega : 16 + 8 ≤ buf.length), Checked.pure_bind,
        uint64At_eq (by omega : 24 + 8 ≤ buf.length), Checked.pure_bind,
        uint64At_eq (by omega : 32 + 8 ≤ buf.length), Checked.pure_bind,
        uint64At_eq (by omega : 40 + 8 ≤ buf.length), Checked.pure_bind,
        uint32At_eq (by omega : 48 + 4 ≤ buf.length), Checked.pure_bind]
      rfl

def decodeHeaderChecked (buf : Bytes) : Chk BlockHeader :=
  if buf.length < headerSize then lift (.error (.msg s!"header too short: {buf.length}"))
  else do
    let magic ← slice oob buf 0 4
    if magic ≠ magicBBDB then lift (.error (.msg "invalid magic: expected BBDB"))
    else do
      let fields ← slice oob buf 0 60
      let gotCS ← uint32At buf 60
      if checksumIEEE fields ≠ gotCS then
        lift (.error (.msg ("header checksum mismatch: want " ++ hex8 (checksumIEEE fields) ++
          " got " ++ hex8 gotCS)))
      else do
        let shardID ← uint16At buf 5
        let eventType ← index oob buf 7
        let openedAt ← uint64At buf 8
        let sealedAt ← uint64At buf 16
        let rowCount ← uint64At buf 24
        pure ⟨shardID, eventType, openedAt.toInt64, sealedAt.toInt64, rowCount⟩

theorem decodeHeaderChecked_eq (buf : Bytes) :
    decodeHeaderChecked buf = lift (decodeHeader buf) := by
  unfold decodeHeaderChecked decodeHeader
  by_cases hlen : buf.length < headerSize
  · rw [if_pos hlen, if_pos hlen]
  · rw [if_neg hlen, if_neg hlen]
    have hlong : 64 ≤ buf.length := not_lt.mp hlen
    rw [slice_of_le (by omega) (by omega), Checked.pure_bind, List.drop_zero, Nat.sub_zero]
    by_cases hmagic : buf.take 4 ≠ magicBBDB
    · rw [if_pos hmagic, if_pos hmagic]
    · rw [if_neg hmagic, if_neg hmagic, slice_of_le (by omega) (by omega), Checked.pure_bind,
        List.drop_zero, Nat.sub_zero, uint32At_eq (by omega : 60 + 4 ≤ buf.length),
        Checked.pure_bind]
      by_cases hsum : checksumIEEE (buf.take 60) ≠ getUint32 (buf.drop 60)
      · rw [if_pos hsum, if_pos hsum]
      · rw [if_neg hsum, if_neg hsum, uint16At_eq (by omega : 5 + 2 ≤ buf.length),
          Checked.pure_bind, index_of_lt (by omega) 0, Checked.pure_bind,
          uint64At_eq (by omega : 8 + 8 ≤ buf.length), Checked.pure_bind,
          uint64At_eq (by omega : 16 + 8 ≤ buf.length), Checked.pure_bind,
          uint64At_eq (by omega : 24 + 8 ≤ buf.length), Checked.pure_bind]
        rfl

/-! ## Columns -/

variable (libs : Libs)

/-- The values at `i*8`, for each `i` in the list. -/
def wordsChecked (raw : Bytes) : List Nat → Chk (List UInt64)
  | [] => pure []
  | i :: is => do
      let v ← uint64At raw (i * 8)
      let vs ← wordsChecked raw is
      pure (v :: vs)

theorem wordsChecked_eq {raw : Bytes} {is : List Nat} (h : ∀ i ∈ is, i * 8 + 8 ≤ raw.length) :
    wordsChecked raw is = pure (is.map fun i => getUint64 (raw.drop (i * 8))) := by
  induction is with
  | nil => rfl
  | cons i is ih =>
      have hrest := ih fun j hj => h j (List.mem_cons_of_mem _ hj)
      rw [wordsChecked, uint64At_eq (h i List.mem_cons_self), Checked.pure_bind, hrest,
        Checked.pure_bind]
      rfl

def decompressWordsChecked (what : String) (data : Bytes) : Chk (List UInt64) := do
  let raw ← lift (libs.decodeAll data)
  if raw.length % 8 ≠ 0 then
    lift (.error (.msg (what ++ " column: raw length not multiple of 8")))
  else wordsChecked raw (List.range (raw.length / 8))

theorem decompressWordsChecked_eq (what : String) (data : Bytes) :
    decompressWordsChecked libs what data = lift (decompressWords libs what data) := by
  unfold decompressWordsChecked decompressWords
  cases libs.decodeAll data with
  | error e => rfl
  | ok raw =>
      rw [lift_ok_bind]
      by_cases hmod : raw.length % 8 ≠ 0
      · simp only [bind, Except.bind, if_pos hmod]
      · have hin : ∀ i ∈ List.range (raw.length / 8), i * 8 + 8 ≤ raw.length := by
          intro i hi
          have := List.mem_range.mp hi
          omega
        simp only [bind, Except.bind, if_neg hmod, wordsChecked_eq hin]
        rfl

def decompressInt64Checked (data : Bytes) : Chk (List Int64) := do
  let words ← decompressWordsChecked libs "int64" data
  pure (words.map UInt64.toInt64)

theorem decompressInt64Checked_eq (data : Bytes) :
    decompressInt64Checked libs data = lift (decompressInt64Column libs data) := by
  unfold decompressInt64Checked decompressInt64Column
  rw [decompressWordsChecked_eq]
  cases decompressWords libs "int64" data <;> rfl

/-- The loop of `DecompressBytesColumn` from position `i` on. -/
def payloadLoopChecked (raw : Bytes) : Nat → Nat → Chk (List Bytes)
  | 0, _ => pure []
  | n + 1, i =>
      if raw.length ≤ i then pure []
      else if raw.length < i + 4 then lift (.error (.msg "bytes column: truncated length prefix"))
      else do
        let length ← uint32At raw i
        if raw.length < i + 4 + length.toNat then
          lift (.error (.msg "bytes column: truncated payload"))
        else do
          let payload ← slice oob raw (i + 4) (i + 4 + length.toNat)
          let rest ← payloadLoopChecked raw n (i + 4 + length.toNat)
          pure (payload :: rest)

theorem payloadLoopChecked_eq (raw : Bytes) (n : Nat) :
    ∀ i, i ≤ raw.length → payloadLoopChecked raw n i = lift (payloadLoop n (raw.drop i)) := by
  induction n with
  | zero => exact fun _ _ => rfl
  | succ n ih =>
      intro i hi
      rw [payloadLoopChecked, payloadLoop_drop hi]
      split_ifs with hend hshort hcut
      · rfl
      · rfl
      · rw [uint32At_eq (by omega), Checked.pure_bind, if_pos hcut]
      · rw [uint32At_eq (by omega), Checked.pure_bind, if_neg hcut,
          slice_of_le (by omega) (by omega), Checked.pure_bind, ih _ (by omega),
          Nat.add_sub_cancel_left]
        cases payloadLoop n (raw.drop (i + 4 + (getUint32 (raw.drop i)).toNat)) <;> rfl

def decompressBytesChecked (data : Bytes) : Chk (List Bytes) := do
  let raw ← lift (libs.decodeAll data)
  payloadLoopChecked raw raw.length 0

theorem decompressBytesChecked_eq (data : Bytes) :
    decompressBytesChecked libs data = lift (decompressBytesColumn libs data) := by
  unfold decompressBytesChecked decompressBytesColumn
  cases libs.decodeAll data with
  | error e => rfl
  | ok raw =>
      rw [lift_ok_bind, payloadLoopChecked_eq raw raw.length 0 (Nat.zero_le _), List.drop_zero]
      rfl

/-! ## The reader -/

/-- `make([]byte, n)` for a size `n` of the footer, and `ReadAt`. -/
def readAtChecked (file : Bytes) (off n : UInt64) : Chk Bytes := ⟨readAt file off n, [n.toNat]⟩

def readFilterColumnsChecked (file : Bytes) (footer : BlockFooter) :
    Chk (List UInt64 × List Int64) := do
  let khData ← mapRes (wrapErr "read key_hash column")
    (readAtChecked file footer.colOffsets.kh footer.colSizes.kh)
  let keyHashes ← mapRes (wrapErr "decompress key_hash") (decompressWordsChecked libs "uint64" khData)
  let tsData ← mapRes (wrapErr "read timestamp column")
    (readAtChecked file footer.colOffsets.ts footer.colSizes.ts)
  let timestamps ← mapRes (wrapErr "decompress timestamp") (decompressInt64Checked libs tsData)
  pure (keyHashes, timestamps)

def readPayloadColumnChecked (file : Bytes) (footer : BlockFooter) : Chk (List Bytes) := do
  let payloadData ← mapRes (wrapErr "read payload column")
    (readAtChecked file footer.colOffsets.pl footer.colSizes.pl)
  mapRes (wrapErr "decompress payload") (decompressBytesChecked libs payloadData)

def matchIdxChecked (keyHash : UInt64) (fromNano toNano : Int64) (timestamps : List Int64) :
    Nat → List UInt64 → Chk (List Nat)
  | _, [] => pure []
  | i, kh :: khs =>
      if kh ≠ keyHash then matchIdxChecked keyHash fromNano toNano timestamps (i + 1) khs
      else do
        let ts ← index oob timestamps i
        let rest ← matchIdxChecked keyHash fromNano toNano timestamps (i + 1) khs
        pure (if fromNano ≤ ts && ts < toNano then i :: rest else rest)

/-- The loop over the matching rows. -/
def collectRowsChecked (keyHashes : List UInt64) (timestamps : List Int64)
    (payloads : List Bytes) : List Nat → Chk (List Event)
  | [] => pure []
  | i :: idx =>
      if payloads.length ≤ i then collectRowsChecked keyHashes timestamps payloads idx
      else do
        let payload ← index oob payloads i
        let keyHash ← index oob keyHashes i
        let timestamp ← index oob timestamps i
        let rest ← collectRowsChecked keyHashes timestamps payloads idx
        pure (⟨keyHash, timestamp, payload⟩ :: rest)

/-- What `ReadBlock` does with the opened file, bounds checks included. -/
def readRowsChecked (id : BlockID) (file : Bytes) (keyHash : UInt64) (fromNano toNano : Int64) :
    Chk (List Event) :=
  if file.length < headerSize + footerSize then
    lift (.error
      (.msg ("block " ++ Text.quote id ++ " too small: " ++ toString file.length ++ " bytes")))
  else do
    let footer ← mapRes (wrapErr "decode footer")
      (decodeFooterChecked (file.drop (file.length - footerSize)))
    let _ ← mapRes (wrapErr "decode header") (decodeHeaderChecked (file.take headerSize))
    let cols ← mapRes (wrapErr "read filter columns") (readFilterColumnsChecked libs file footer)
    let idx ← matchIdxChecked keyHash fromNano toNano cols.2 0 cols.1
    if idx.length = 0 then pure []
    else do
      let payloads ← readPayloadColumnChecked libs file footer
      collectRowsChecked cols.1 cols.2 payloads idx

section Refines

variable {keyHash : UInt64} {fromNano toNano : Int64} {timestamps : List Int64}

theorem matchIdxChecked_eq (khs : List UInt64) : ∀ i,
    matchIdxChecked keyHash fromNano toNano timestamps i khs =
      lift (matchIdx keyHash fromNano toNano timestamps i khs) := by
  induction khs with
  | nil => exact fun _ => rfl
  | cons kh khs ih =>
      intro i
      rw [matchIdxChecked, matchIdx, ih]
      by_cases hk : kh ≠ keyHash
      · rw [if_pos hk, if_pos hk]
      · rw [if_neg hk, if_neg hk]
        cases hts : timestamps[i]? with
        | none =>
            rw [index, hts]
            rfl
        | some ts =>
            rw [index_of_some hts, Checked.pure_bind]
            cases matchIdx keyHash fromNano toNano timestamps (i + 1) khs <;> rfl

/-- Row `j` of the columns, of which `khs` are the hashes from row `i` on, has
the hash and a timestamp in the interval. -/
def Matches (keyHash : UInt64) (fromNano toNano : Int64) (timestamps : List Int64) (i : Nat)
    (khs : List UInt64) (j : Nat) : Prop :=
  ∃ k ts, j = i + k ∧ khs[k]? = some keyHash ∧ timestamps[j]? = some ts ∧ fromNano ≤ ts ∧ ts < toNano

theorem matches_cons {kh : UInt64} {khs : List UInt64} {i j : Nat} :
    Matches keyHash fromNano toNano timestamps i (kh :: khs) j ↔
      (kh = keyHash ∧ j = i ∧ ∃ ts, timestamps[i]? = some ts ∧ fromNano ≤ ts ∧ ts < toNano) ∨
        Matches keyHash fromNano toNano timestamps (i + 1) khs j := by
  constructor
  · rintro ⟨k, ts, rfl, hk, hts, hin⟩
    cases k with
    | zero => exact Or.inl ⟨Option.some.inj hk, rfl, ts, hts, hin⟩
    | succ k => exact Or.inr ⟨k, ts, by omega, hk, hts, hin⟩
  · rintro (⟨rfl, rfl, ts, hts, hin⟩ | ⟨k, ts, rfl, hk, hts, hin⟩)
    · exact ⟨0, ts, rfl, rfl, hts, hin⟩
    · exact ⟨k + 1, ts, by omega, hk, hts, hin⟩

/-- With a timestamp for every row of the hash, the loop finds the matching
rows. -/
theorem matchIdx_ok {khs : List UInt64} : ∀ {i : Nat},
    (∀ k, khs[k]? = some keyHash → i + k < timestamps.length) →
    ∃ idx, matchIdx keyHash fromNano toNano timestamps i khs = .ok idx ∧
      ∀ j, j ∈ idx ↔ Matches keyHash fromNano toNano timestamps i khs j := by
  induction khs with
  | nil =>
      intro i _
      refine ⟨[], rfl, fun j => ⟨fun hj => absurd hj List.not_mem_nil, ?_⟩⟩
      rintro ⟨k, ts, -, hk, -⟩
      cases hk
  | cons kh khs ih =>
      intro i h
      obtain ⟨idx, hidx, hmem⟩ := @ih (i + 1) fun k hk => by
        have := h (k + 1) hk
        omega
      rw [matchIdx, hidx]
      by_cases hk : kh = keyHash
      · have hi : i < timestamps.length := h 0 (congrArg some hk)
        rw [if_neg (not_not.mpr hk), List.getElem?_eq_getElem hi]
        refine ⟨_, rfl, fun j => ?_⟩
        rw [matches_cons, ← hmem]
        simp only [hk, true_and, List.getElem?_eq_getElem hi, Option.some.injEq, exists_eq_left',
          Bool.and_eq_true, decide_eq_true_eq]
        split_ifs with hin
        · simp [hin]
        · simp [hin]
      · rw [if_pos hk]
        refine ⟨idx, rfl, fun j => ?_⟩
        rw [matches_cons, ← hmem]
        simp [hk]

/-- **Without one, it panics.** -/
theorem matchIdx_panic {khs : List UInt64} : ∀ {i : Nat},
    (∃ k, khs[k]? = some keyHash ∧ timestamps.length ≤ i + k) →
    matchIdx keyHash fromNano toNano timestamps i khs = .error oob := by
  induction khs with
  | nil =>
      rintro i ⟨k, hk, -⟩
      cases hk
  | cons kh khs ih =>
      rintro i ⟨k, hk, hlen⟩
      rw [matchIdx]
      by_cases hne : kh ≠ keyHash
      · rw [if_pos hne]
        cases k with
        | zero => exact absurd (Option.some.inj hk) hne
        | succ k => exact ih ⟨k, hk, by omega⟩
      · rw [if_neg hne]
        cases hts : timestamps[i]? with
        | none => rfl
        | some ts =>
            have hi : i < timestamps.length := (List.getElem?_eq_some_iff.mp hts).1
            cases k with
            | zero => omega
            | succ k =>
                rw [ih ⟨k, hk, by omega⟩]
                rfl

/-- The loop ends exactly if no row of the hash lies past the timestamps. -/
theorem matchIdx_eq_ok {khs : List UInt64} {i : Nat} {idx : List Nat}
    (h : matchIdx keyHash fromNano toNano timestamps i khs = .ok idx) :
    (∀ k, khs[k]? = some keyHash → i + k < timestamps.length) ∧
      ∀ j, j ∈ idx ↔ Matches keyHash fromNano toNano timestamps i khs j := by
  have hall : ∀ k, khs[k]? = some keyHash → i + k < timestamps.length := by
    by_contra hnot
    push Not at hnot
    obtain ⟨k, hk, hlen⟩ := hnot
    rw [matchIdx_panic ⟨k, hk, hlen⟩] at h
    cases h
  obtain ⟨idx', hidx, hmem⟩ := @matchIdx_ok keyHash fromNano toNano timestamps khs i hall
  rw [hidx] at h
  cases h
  exact ⟨hall, hmem⟩

/-- The rows found are rows of both columns. -/
theorem index_bounds {khs : List UInt64} {idx : List Nat}
    (h : matchIdx keyHash fromNano toNano timestamps 0 khs = .ok idx) :
    ∀ j ∈ idx, j < khs.length ∧ j < timestamps.length := by
  intro j hj
  obtain ⟨k, ts, rfl, hk, hts, -⟩ := ((matchIdx_eq_ok h).2 j).mp hj
  rw [Nat.zero_add] at hts ⊢
  exact ⟨(List.getElem?_eq_some_iff.mp hk).1, (List.getElem?_eq_some_iff.mp hts).1⟩

theorem collectRowsChecked_eq {keyHashes : List UInt64} {payloads : List Bytes} {idx : List Nat}
    (h : ∀ i ∈ idx, i < keyHashes.length ∧ i < timestamps.length) :
    collectRowsChecked keyHashes timestamps payloads idx =
      pure (collectRows keyHashes timestamps payloads idx) := by
  induction idx with
  | nil => rfl
  | cons i idx ih =>
      have hrest := ih fun j hj => h j (List.mem_cons_of_mem _ hj)
      obtain ⟨hkh, hts⟩ := h i List.mem_cons_self
      rw [collectRowsChecked, hrest]
      by_cases hpl : payloads.length ≤ i
      · have hskip : collectRows keyHashes timestamps payloads (i :: idx) =
            collectRows keyHashes timestamps payloads idx := by
          simp only [collectRows, List.filterMap_cons, List.getElem?_eq_none hpl, Option.map_none]
        rw [if_pos hpl, hskip]
      · have hrow : collectRows keyHashes timestamps payloads (i :: idx) =
            ⟨keyHashes.getD i 0, timestamps.getD i 0, payloads.getD i []⟩ ::
              collectRows keyHashes timestamps payloads idx := by
          simp only [collectRows, List.filterMap_cons, List.getD_eq_getElem?_getD,
            List.getElem?_eq_getElem (not_le.mp hpl), Option.map_some, Option.getD_some]
        rw [if_neg hpl, index_of_lt (not_le.mp hpl) [], Checked.pure_bind, index_of_lt hkh 0,
          Checked.pure_bind, index_of_lt hts 0, Checked.pure_bind, Checked.pure_bind, hrow]

theorem readFilterColumnsChecked_res (file : Bytes) (footer : BlockFooter) :
    (readFilterColumnsChecked libs file footer).res = readFilterColumns libs file footer := by
  simp only [readFilterColumnsChecked, readFilterColumns, res_bind, decompressWordsChecked_eq,
    decompressInt64Checked_eq, mapRes_lift, lift_res, mapRes_res, decompressUint64Column]
  rfl

theorem readPayloadColumnChecked_res (file : Bytes) (footer : BlockFooter) :
    (readPayloadColumnChecked libs file footer).res = readPayloadColumn libs file footer := by
  simp only [readPayloadColumnChecked, readPayloadColumn, res_bind, decompressBytesChecked_eq,
    mapRes_lift, lift_res, mapRes_res]
  rfl

/-- **The checked reader returns what the reader does.** -/
theorem readRowsChecked_res (id : BlockID) (file : Bytes) :
    (readRowsChecked libs id file keyHash fromNano toNano).res =
      readRows libs id file keyHash fromNano toNano := by
  unfold readRowsChecked readRows
  split_ifs
  · rfl
  · simp only [res_bind, decodeFooterChecked_eq, decodeHeaderChecked_eq, mapRes_lift, lift_res,
      mapRes_res, readFilterColumnsChecked_res, matchIdxChecked_eq]
    refine bind_congr fun footer => bind_congr fun _ => bind_congr fun cols => ?_
    cases hidx : matchIdx keyHash fromNano toNano cols.2 0 cols.1 with
    | error e => rfl
    | ok idx =>
        simp only [bind, Except.bind]
        split_ifs
        · rfl
        · show (readPayloadColumnChecked libs file footer >>= _).res = _
          rw [res_bind, readPayloadColumnChecked_res]
          simp only [collectRowsChecked_eq (index_bounds hidx)]
          rfl

end Refines

/-! ## Which files are read within bounds -/

/-- A run-time panic. -/
def IsPanic (e : Err) : Prop := ∃ text, e = .panic text

theorem wrapErr_ok {α : Type} {text : String} {r : Except Err α} {a : α} :
    wrapErr text r = .ok a ↔ r = .ok a := by
  cases r with
  | ok b => rfl
  | error e => cases e <;> simp [wrapErr]

theorem isPanic_wrapErr {α : Type} {text : String} {r : Except Err α} :
    (∀ e, wrapErr text r = .error e → ¬ IsPanic e) ↔ ∀ e, r = .error e → ¬ IsPanic e := by
  cases r with
  | ok b => simp [wrapErr]
  | error e => cases e <;> simp [wrapErr, IsPanic]

theorem within_mapRes {α : Type} {text : String} {x : Chk α} {limit : Nat} :
    Within IsPanic limit (mapRes (wrapErr text) x) ↔ Within IsPanic limit x :=
  ⟨fun h => ⟨isPanic_wrapErr.mp h.res, h.made⟩, fun h => ⟨isPanic_wrapErr.mpr h.res, h.made⟩⟩

/-- A buffer that the runtime can make and that is no longer than the file. -/
def Makes (file : Bytes) (n : UInt64) : Prop := n.toNat ≤ min file.length maxAlloc

theorem within_readAt {file : Bytes} {off n : UInt64} :
    Within IsPanic file.length (readAtChecked file off n) ↔ Makes file n := by
  rw [Makes, Nat.le_min]
  constructor
  · intro h
    refine ⟨h.made _ (List.mem_singleton_self _), ?_⟩
    by_contra hn
    have hlarge : maxAlloc < n.toNat := Nat.not_le.mp hn
    refine h.res (.panic "makeslice: len out of range") ?_ ⟨_, rfl⟩
    simp only [readAtChecked, readAt, if_pos hlarge]
  · rintro ⟨h, hmake⟩
    refine ⟨fun e he => ?_, fun m hm => List.mem_singleton.mp hm ▸ h⟩
    have hn : ¬ maxAlloc < n.toNat := by omega
    simp only [readAtChecked, readAt, if_neg hn] at he
    split_ifs at he <;> cases he <;> simp [IsPanic]

theorem noPanic_decodeFooter (buf : Bytes) : ∀ e, decodeFooter buf = .error e → ¬ IsPanic e := by
  intro e he
  unfold decodeFooter at he
  split_ifs at he <;> cases he <;> simp [IsPanic]

theorem noPanic_decodeHeader (buf : Bytes) : ∀ e, decodeHeader buf = .error e → ¬ IsPanic e := by
  intro e he
  unfold decodeHeader at he
  split_ifs at he <;> cases he <;> simp [IsPanic]

theorem noPanic_payloadLoop (n : Nat) :
    ∀ raw e, payloadLoop n raw = .error e → ¬ IsPanic e := by
  induction n with
  | zero =>
      intro raw e he
      cases he
  | succ n ih =>
      intro raw e he
      rw [payloadLoop] at he
      split_ifs at he
      · cases he
        simp [IsPanic]
      · cases he
        simp [IsPanic]
      · cases hrest : payloadLoop n (raw.drop (4 + (getUint32 raw).toNat)) with
        | error e' =>
            rw [hrest] at he
            cases he
            exact ih _ _ hrest
        | ok rest =>
            rw [hrest] at he
            cases he

section Decoder

variable {libs} (hzstd : ∀ data e, libs.decodeAll data = .error e → ¬ IsPanic e)

include hzstd

theorem noPanic_decompressWords (what : String) (data : Bytes) :
    ∀ e, decompressWords libs what data = .error e → ¬ IsPanic e := by
  intro e he
  unfold decompressWords at he
  cases hraw : libs.decodeAll data with
  | error e' =>
      rw [hraw] at he
      cases he
      exact hzstd _ _ hraw
  | ok raw =>
      simp only [hraw, bind, Except.bind] at he
      split_ifs at he
      cases he
      simp [IsPanic]

theorem noPanic_decompressInt64 (data : Bytes) :
    ∀ e, decompressInt64Column libs data = .error e → ¬ IsPanic e := by
  intro e he
  unfold decompressInt64Column at he
  cases hwords : decompressWords libs "int64" data with
  | error e' =>
      rw [hwords] at he
      cases he
      exact noPanic_decompressWords hzstd _ _ _ hwords
  | ok words =>
      rw [hwords] at he
      cases he

theorem noPanic_decompressBytes (data : Bytes) :
    ∀ e, decompressBytesColumn libs data = .error e → ¬ IsPanic e := by
  intro e he
  unfold decompressBytesColumn at he
  cases hraw : libs.decodeAll data with
  | error e' =>
      rw [hraw] at he
      cases he
      exact hzstd _ _ hraw
  | ok raw =>
      rw [hraw] at he
      exact noPanic_payloadLoop _ _ _ he

end Decoder

/-- The bytes at this place of the file decode to the column. -/
def Column {α : Type} (decode : Bytes → Except Err α) (file : Bytes) (off n : UInt64) (vals : α) :
    Prop :=
  ∃ data, readAt file off n = .ok data ∧ decode data = .ok vals

theorem bind_eq_ok {α β : Type} {x : Except Err α} {f : α → Except Err β} {b : β} :
    x >>= f = .ok b ↔ ∃ a, x = .ok a ∧ f a = .ok b := by
  cases x with
  | error e => simp [bind, Except.bind]
  | ok a => simp [bind, Except.bind]

theorem readFilterColumns_eq_ok {file : Bytes} {footer : BlockFooter}
    {cols : List UInt64 × List Int64} :
    readFilterColumns libs file footer = .ok cols ↔
      Column (decompressUint64Column libs) file footer.colOffsets.kh footer.colSizes.kh cols.1 ∧
      Column (decompressInt64Column libs) file footer.colOffsets.ts footer.colSizes.ts cols.2 := by
  simp only [readFilterColumns, bind_eq_ok, wrapErr_ok, Column, Except.ok.injEq]
  constructor
  · rintro ⟨khData, hkd, khs, hkh, tsData, htd, tss, hts, rfl⟩
    exact ⟨⟨khData, hkd, hkh⟩, tsData, htd, hts⟩
  · rintro ⟨⟨khData, hkd, hkh⟩, tsData, htd, hts⟩
    exact ⟨khData, hkd, cols.1, hkh, tsData, htd, cols.2, hts, rfl⟩

/-- If footer and header are accepted, no column that is read is said to be
longer than the file or than any buffer can be, and no row with the hash lies
past the timestamps. -/
def InBounds (file : Bytes) (keyHash : UInt64) (fromNano toNano : Int64) : Prop :=
  ∀ footer hdr, headerSize + footerSize ≤ file.length →
    decodeFooter (file.drop (file.length - footerSize)) = .ok footer →
    decodeHeader (file.take headerSize) = .ok hdr →
    Makes file footer.colSizes.kh ∧
    ∀ khs, Column (decompressUint64Column libs) file footer.colOffsets.kh footer.colSizes.kh khs →
      Makes file footer.colSizes.ts ∧
      ∀ tss, Column (decompressInt64Column libs) file footer.colOffsets.ts footer.colSizes.ts tss →
        (∀ i, khs[i]? = some keyHash → i < tss.length) ∧
        ((∃ i, Matches keyHash fromNano toNano tss 0 khs i) → Makes file footer.colSizes.pl)

/-- Reading one column, and going on with what it decodes to. -/
theorem within_column {α β : Type} {decode : Bytes → Except Err α} {file : Bytes} {off n : UInt64}
    {text text' : String} {f : α → Chk β}
    (hdecode : ∀ data e, decode data = .error e → ¬ IsPanic e) :
    Within IsPanic file.length (mapRes (wrapErr text) (readAtChecked file off n) >>= fun data =>
      mapRes (wrapErr text') (lift (decode data)) >>= f) ↔
      Makes file n ∧
        ∀ vals, Column decode file off n vals → Within IsPanic file.length (f vals) := by
  rw [within_bind, within_mapRes, within_readAt]
  refine and_congr_right fun _ => ⟨fun h vals hcol => ?_, fun h data hdata => ?_⟩
  · obtain ⟨data, hdata, hvals⟩ := hcol
    exact (within_bind.mp (h data (wrapErr_ok.mpr hdata))).2 vals (wrapErr_ok.mpr hvals)
  · refine within_bind.mpr ⟨within_mapRes.mpr (within_lift.mpr (hdecode data)), fun vals hvals => ?_⟩
    exact h vals ⟨data, wrapErr_ok.mp hdata, wrapErr_ok.mp hvals⟩

section Iff

variable {libs} {file : Bytes} {footer : BlockFooter} {keyHash : UInt64} {fromNano toNano : Int64}
  (hzstd : ∀ data e, libs.decodeAll data = .error e → ¬ IsPanic e)

include hzstd

/-- The two columns of the row filter. -/
theorem within_filterColumns {β : Type} {f : List UInt64 × List Int64 → Chk β} :
    Within IsPanic file.length
      (mapRes (wrapErr "read filter columns") (readFilterColumnsChecked libs file footer) >>= f) ↔
      Makes file footer.colSizes.kh ∧
      ∀ khs, Column (decompressUint64Column libs) file footer.colOffsets.kh footer.colSizes.kh khs →
        Makes file footer.colSizes.ts ∧
        ∀ tss, Column (decompressInt64Column libs) file footer.colOffsets.ts
            footer.colSizes.ts tss → Within IsPanic file.length (f (khs, tss)) := by
  have hcols : Within IsPanic file.length (readFilterColumnsChecked libs file footer) ↔
      Makes file footer.colSizes.kh ∧
      ∀ khs, Column (decompressUint64Column libs) file footer.colOffsets.kh footer.colSizes.kh khs →
        Makes file footer.colSizes.ts := by
    unfold readFilterColumnsChecked
    simp only [decompressWordsChecked_eq, decompressInt64Checked_eq]
    rw [within_column (noPanic_decompressWords hzstd "uint64")]
    refine and_congr_right fun _ => forall_congr' fun khs => imp_congr_right fun _ => ?_
    rw [within_column (noPanic_decompressInt64 hzstd)]
    exact and_iff_left fun _ _ => within_pure _
  rw [within_bind, within_mapRes, hcols]
  constructor
  · rintro ⟨⟨hkh, hts⟩, hrest⟩
    refine ⟨hkh, fun khs hkhs => ⟨hts khs hkhs, fun tss htss => hrest (khs, tss) ?_⟩⟩
    exact wrapErr_ok.mpr ((readFilterColumnsChecked_res libs file footer).trans
      ((readFilterColumns_eq_ok libs).mpr ⟨hkhs, htss⟩))
  · rintro ⟨hkh, hrest⟩
    refine ⟨⟨hkh, fun khs hkhs => (hrest khs hkhs).1⟩, fun cols hres => ?_⟩
    have hok := wrapErr_ok.mp hres
    rw [readFilterColumnsChecked_res, readFilterColumns_eq_ok] at hok
    exact (hrest cols.1 hok.1).2 cols.2 hok.2

/-- The payload column. -/
theorem within_payloadColumn :
    Within IsPanic file.length (readPayloadColumnChecked libs file footer) ↔
      Makes file footer.colSizes.pl := by
  unfold readPayloadColumnChecked
  rw [within_bind, within_mapRes, within_readAt]
  refine and_iff_left fun data _ => ?_
  rw [within_mapRes, decompressBytesChecked_eq, within_lift]
  exact noPanic_decompressBytes hzstd data

/-- From the row filter on. -/
theorem within_rows {khs : List UInt64} {tss : List Int64} :
    Within IsPanic file.length (matchIdxChecked keyHash fromNano toNano tss 0 khs >>= fun idx =>
      if idx.length = 0 then pure []
      else readPayloadColumnChecked libs file footer >>= fun payloads =>
        collectRowsChecked khs tss payloads idx) ↔
      (∀ i, khs[i]? = some keyHash → i < tss.length) ∧
        ((∃ i, Matches keyHash fromNano toNano tss 0 khs i) → Makes file footer.colSizes.pl) := by
  rw [matchIdxChecked_eq]
  by_cases hall : ∀ i, khs[i]? = some keyHash → i < tss.length
  · obtain ⟨idx, hidx, hmem⟩ := @matchIdx_ok keyHash fromNano toNano tss khs 0 fun k hk => by
      rw [Nat.zero_add]
      exact hall k hk
    have hin := index_bounds hidx
    rw [hidx, lift_ok_bind, and_iff_right hall]
    by_cases hnone : idx.length = 0
    · -- no row matches
      rw [if_pos hnone]
      refine iff_of_true (within_pure _) fun ⟨i, hi⟩ => ?_
      rw [← hmem, List.length_eq_zero_iff.mp hnone] at hi
      exact absurd hi List.not_mem_nil
    · have hsome : ∃ i, Matches keyHash fromNano toNano tss 0 khs i := by
        obtain ⟨i, hi⟩ := List.exists_mem_of_length_pos (Nat.pos_of_ne_zero hnone)
        exact ⟨i, (hmem i).mp hi⟩
      rw [if_neg hnone, within_bind, within_payloadColumn hzstd, forall_prop_of_true hsome]
      refine and_iff_left fun payloads _ => ?_
      rw [collectRowsChecked_eq hin]
      exact within_pure _
  · have hpanic : ∃ k, khs[k]? = some keyHash ∧ tss.length ≤ 0 + k := by
      push Not at hall
      obtain ⟨k, hk, hlen⟩ := hall
      exact ⟨k, hk, by omega⟩
    rw [matchIdx_panic hpanic, lift_error_bind, within_lift]
    exact iff_of_false (fun h => h oob rfl ⟨_, rfl⟩) fun h => hall h.1

end Iff

/-- **`ReadBlock` evaluates every index and slice within bounds, makes no
buffer longer than the file and does not panic exactly on these files.** -/
theorem readBlock_within_iff (libs : Libs)
    (hzstd : ∀ data e, libs.decodeAll data = .error e → ¬ IsPanic e) (id : BlockID) (file : Bytes)
    (keyHash : UInt64) (fromNano toNano : Int64) :
    Within IsPanic file.length (readRowsChecked libs id file keyHash fromNano toNano) ↔
      InBounds libs file keyHash fromNano toNano := by
  unfold readRowsChecked InBounds
  by_cases hsmall : file.length < headerSize + footerSize
  · rw [if_pos hsmall, within_lift]
    refine iff_of_true (fun e he => ?_) fun _ _ hlong => absurd hlong (not_le.mpr hsmall)
    cases he
    simp [IsPanic]
  · rw [if_neg hsmall, decodeFooterChecked_eq, mapRes_lift, decodeHeaderChecked_eq, mapRes_lift,
      within_bind, within_lift, isPanic_wrapErr, and_iff_right (noPanic_decodeFooter _)]
    refine forall_congr' fun footer => ?_
    rw [lift_res, wrapErr_ok, within_bind, within_lift, isPanic_wrapErr,
      and_iff_right (noPanic_decodeHeader _), lift_res]
    constructor
    · intro h hdr _ hfooter hhdr
      have hrest := (within_filterColumns hzstd).mp (h hfooter hdr (wrapErr_ok.mpr hhdr))
      refine ⟨hrest.1, fun khs hkhs => ⟨(hrest.2 khs hkhs).1, fun tss htss => ?_⟩⟩
      exact (within_rows hzstd).mp ((hrest.2 khs hkhs).2 tss htss)
    · intro h hfooter hdr hhdr
      have hrest := h hdr (not_lt.mp hsmall) hfooter (wrapErr_ok.mp hhdr)
      refine (within_filterColumns hzstd).mpr
        ⟨hrest.1, fun khs hkhs => ⟨(hrest.2 khs hkhs).1, fun tss htss => ?_⟩⟩
      exact (within_rows hzstd).mpr ((hrest.2 khs hkhs).2 tss htss)

/-- **A file that `WriteBlockBody` and the footer wrote does no harm.** -/
theorem inBounds_blockFile {libs : Libs} {hdr : BlockHeader} {mt : Memtable}
    (hsize : (blockFile libs hdr mt).length < maxBlockFile) (keyHash : UInt64)
    (fromNano toNano : Int64) :
    InBounds libs (blockFile libs hdr mt) keyHash fromNano toNano := by
  intro footer hdr' _ hfooter _
  rw [drop_footer_blockFile, decodeFooter_encodeFooter] at hfooter
  cases hfooter
  obtain ⟨okh, ots, opl, hend⟩ := tiles_blockFooter hsize
  have hlen := hsize
  rw [maxBlockFile] at hlen
  have hmakes : ∀ n : UInt64, n.toNat + headerSize + footerSize ≤ (blockFile libs hdr mt).length →
      Makes (blockFile libs hdr mt) n := fun n hn => Nat.le_min.mpr ⟨by omega, by omega⟩
  refine ⟨hmakes _ (by omega), fun khs hkhs => ⟨hmakes _ (by omega), fun tss htss =>
    ⟨fun i hi => ?_, fun _ => hmakes _ (by omega)⟩⟩⟩
  have hcols : readFilterColumns libs (blockFile libs hdr mt) _ = .ok (khs, tss) :=
    (readFilterColumns_eq_ok libs).mpr ⟨hkhs, htss⟩
  rw [readFilterColumns_blockFile hsize] at hcols
  cases hcols
  rw [mt.length_timestamps]
  exact (List.getElem?_eq_some_iff.mp hi).1

/-! ## A short timestamp column -/

/-- A file with one key hash and no timestamp. -/
def shortColumn : Bytes :=
  encodeHeader ⟨0, 0, 0, 0, 1⟩ ++ (putUint64 256 ++
    encodeFooter ⟨⟨64, 72, 72⟩, ⟨8, 0, 0⟩, checksumIEEE (putUint64 256)⟩)

/-- A file whose footer says that the first column is `2^63` bytes long. -/
def hugeColumn : Bytes :=
  encodeHeader ⟨0, 0, 0, 0, 0⟩ ++ encodeFooter ⟨⟨64, 64, 64⟩, ⟨0x8000000000000000, 0, 0⟩, 0⟩

set_option maxRecDepth 100000 in
/-- **Footer and header are accepted, and `ReadBlock` panics**: on an index
out of range, and on a buffer that cannot be made. -/
theorem readBlock_panics :
    readRows Libs.plain (ascii "a") shortColumn 256 0 2 = .error (.panic "index out of range") ∧
    readRows Libs.plain (ascii "a") hugeColumn 256 0 2 =
      .error (.panic "makeslice: len out of range") := by
  constructor
  · decide +kernel
  · decide +kernel

set_option maxRecDepth 100000 in
theorem readBlock_within_iff_oneRow :
    Within IsPanic (blockFile Libs.plain ⟨0, 0, 0, 0, 1⟩ oneRowTable).length
      (readRowsChecked Libs.plain (ascii "a") (blockFile Libs.plain ⟨0, 0, 0, 0, 1⟩ oneRowTable)
        256 0 2) := by
  have hlen : (blockFile Libs.plain ⟨0, 0, 0, 0, 1⟩ oneRowTable).length < maxBlockFile := by
    decide +kernel
  exact (readBlock_within_iff Libs.plain (fun data e he => by cases he) (ascii "a") _
    256 0 2).mpr (inBounds_blockFile hlen 256 0 2)

/-! ## What is not verified

Footer and header are checked, the header against its own checksum. The
checksum of the body and the row count are written and never looked at. -/

/-- The column bytes of a file. -/
def bodyOf (file : Bytes) : Bytes :=
  (file.drop headerSize).take (file.length - headerSize - footerSize)

/-- The body has the checksum of the footer, and the columns that are read
have the row count of the header. -/
def Verified (file : Bytes) (keyHash : UInt64) (fromNano toNano : Int64) : Prop :=
  ∃ footer hdr khs tss,
    decodeFooter (file.drop (file.length - footerSize)) = .ok footer ∧
    decodeHeader (file.take headerSize) = .ok hdr ∧
    Column (decompressUint64Column libs) file footer.colOffsets.kh footer.colSizes.kh khs ∧
    Column (decompressInt64Column libs) file footer.colOffsets.ts footer.colSizes.ts tss ∧
    checksumIEEE (bodyOf file) = footer.bodyChecksum ∧
    khs.length = hdr.rowCount.toNat ∧ tss.length = hdr.rowCount.toNat ∧
    ((∃ i, Matches keyHash fromNano toNano tss 0 khs i) →
      ∃ pls, Column (decompressBytesColumn libs) file footer.colOffsets.pl footer.colSizes.pl pls ∧
        pls.length = hdr.rowCount.toNat)

theorem readPayloadColumn_eq_ok {libs : Libs} {file : Bytes} {footer : BlockFooter}
    {pls : List Bytes} :
    readPayloadColumn libs file footer = .ok pls ↔
      Column (decompressBytesColumn libs) file footer.colOffsets.pl footer.colSizes.pl pls := by
  simp only [readPayloadColumn, bind_eq_ok, wrapErr_ok, Column]

theorem bodyOf_blockFile (libs : Libs) (hdr : BlockHeader) (mt : Memtable) :
    bodyOf (blockFile libs hdr mt) = blockBody libs mt := by
  unfold bodyOf blockFile
  rw [List.drop_left' (length_encodeHeader hdr)]
  refine List.take_left' ?_
  simp only [List.length_append, length_encodeHeader, length_encodeFooter]
  omega

/-- A file as `Seal` writes it: the columns of a memtable with the row count
of the header. -/
structure Written (file : Bytes) (hdr : BlockHeader) (mt : Memtable) : Prop where
  bytes : file = blockFile libs hdr mt
  size : file.length < maxBlockFile
  rows : hdr.rowCount.toNat = mt.len
  payloads : ∀ p ∈ mt.payloads, p.length < 2 ^ 32

section Verify

variable {libs} {file : Bytes} {hdr : BlockHeader} {mt : Memtable} {keyHash : UInt64}
  {fromNano toNano : Int64}

theorem Written.readRows (h : Written libs file hdr mt) (id : BlockID) :
    readRows libs id file keyHash fromNano toNano =
      .ok (mt.rows.filter (rowMatches keyHash fromNano toNano)) := by
  obtain ⟨rfl, hsize, -, hp⟩ := h
  exact readRows_blockFile id hsize hp

/-- A file as `Seal` wrote it has its checksum and its row count. -/
theorem Written.verified (h : Written libs file hdr mt) :
    Verified libs file keyHash fromNano toNano := by
  obtain ⟨rfl, hsize, hrows, hp⟩ := h
  obtain ⟨hkh, hts⟩ := (readFilterColumns_eq_ok libs).mp (readFilterColumns_blockFile hsize)
  refine ⟨blockFooter libs mt, hdr, mt.keyHashes, mt.timestamps, ?_, ?_, hkh, hts, ?_, hrows.symm,
    ?_, fun _ => ⟨mt.payloads, ?_, ?_⟩⟩
  · rw [drop_footer_blockFile, decodeFooter_encodeFooter]
  · rw [take_header_blockFile, decodeHeader_encodeHeader]
  · rw [bodyOf_blockFile]
    rfl
  · rw [hrows, mt.length_timestamps]
    rfl
  · exact readPayloadColumn_eq_ok.mp (readPayloadColumn_blockFile hsize hp)
  · rw [hrows, mt.length_payloads]
    rfl

variable (libs) in
/-- What `ReadBlock` does ask of a file: its size, the magic of the footer, the
header with its checksum, that the two key columns decode, that every row of the
hash has a timestamp and, if a row matches, that the payload column decodes. -/
def Accepted (file : Bytes) (keyHash : UInt64) (fromNano toNano : Int64) : Prop :=
  headerSize + footerSize ≤ file.length ∧ ∃ footer hdr khs tss,
    decodeFooter (file.drop (file.length - footerSize)) = .ok footer ∧
    decodeHeader (file.take headerSize) = .ok hdr ∧
    Column (decompressUint64Column libs) file footer.colOffsets.kh footer.colSizes.kh khs ∧
    Column (decompressInt64Column libs) file footer.colOffsets.ts footer.colSizes.ts tss ∧
    (∀ i, khs[i]? = some keyHash → i < tss.length) ∧
    ((∃ i, Matches keyHash fromNano toNano tss 0 khs i) →
      ∃ pls, Column (decompressBytesColumn libs) file footer.colOffsets.pl footer.colSizes.pl pls)

/-- **`ReadBlock` returns rows from the accepted files only.** -/
theorem accepted_of_readRows {id : BlockID} {rows : List Event}
    (h : readRows libs id file keyHash fromNano toNano = .ok rows) :
    Accepted libs file keyHash fromNano toNano := by
  unfold Query.readRows at h
  split_ifs at h with hsmall
  simp only [bind_eq_ok, wrapErr_ok] at h
  obtain ⟨footer, hfooter, hdr, hhdr, cols, hcols, idx, hidx, hrest⟩ := h
  obtain ⟨hkh, hts⟩ := (readFilterColumns_eq_ok libs).mp hcols
  obtain ⟨hall, hmem⟩ := matchIdx_eq_ok hidx
  refine ⟨Nat.not_lt.mp hsmall, footer, hdr, cols.1, cols.2, hfooter, hhdr, hkh, hts, ?_, ?_⟩
  · intro i hi
    have hlt := hall i hi
    omega
  · rintro ⟨i, hi⟩
    have hne : ¬ idx.length = 0 := by
      intro hnone
      rw [← hmem, List.length_eq_zero_iff.mp hnone] at hi
      exact absurd hi List.not_mem_nil
    rw [if_neg hne, bind_eq_ok] at hrest
    obtain ⟨pls, hpls, -⟩ := hrest
    exact ⟨pls, readPayloadColumn_eq_ok.mp hpls⟩

/-! A footer behind some bytes, in which the columns lie. -/

/-- The columns end before `n`. -/
structure Inside (footer : BlockFooter) (n : Nat) : Prop where
  kh : footer.colOffsets.kh.toNat + footer.colSizes.kh.toNat ≤ n
  ts : footer.colOffsets.ts.toNat + footer.colSizes.ts.toNat ≤ n
  pl : footer.colOffsets.pl.toNat + footer.colSizes.pl.toNat ≤ n

theorem drop_append_encodeFooter (pre : Bytes) (footer : BlockFooter) :
    (pre ++ encodeFooter footer).drop ((pre ++ encodeFooter footer).length - footerSize) =
      encodeFooter footer := by
  refine List.drop_left' ?_
  rw [List.length_append, length_encodeFooter, Nat.add_sub_cancel]

/-- What is read of the first bytes does not depend on the bytes after them. -/
theorem readAt_append {pre x y : Bytes} {off n : UInt64} (hin : off.toNat + n.toNat ≤ pre.length) :
    readAt (pre ++ x) off n = readAt (pre ++ y) off n := by
  have hcut : ∀ z : Bytes, ((pre ++ z).drop off.toNat).take n.toNat =
      (pre.drop off.toNat).take n.toNat := by
    intro z
    rw [List.drop_append_of_le_length (by omega),
      List.take_append_of_le_length (by rw [List.length_drop]; omega)]
  have hfits : ∀ z : Bytes, off.toNat + n.toNat ≤ (pre ++ z).length := by
    intro z
    rw [List.length_append]
    omega
  simp only [readAt, hcut, if_pos (hfits _)]

/-- **`ReadBlock` does not look at the body checksum**: with another one in the
footer it returns the same. -/
theorem readRows_checksum (id : BlockID) {pre : Bytes} {footer : BlockFooter}
    (hpre : headerSize ≤ pre.length) (hin : Inside footer pre.length) (sum : UInt32) :
    readRows libs id (pre ++ encodeFooter { footer with bodyChecksum := sum }) keyHash fromNano
        toNano =
      readRows libs id (pre ++ encodeFooter footer) keyHash fromNano toNano := by
  have hlen : (pre ++ encodeFooter { footer with bodyChecksum := sum }).length =
      (pre ++ encodeFooter footer).length := by
    simp only [List.length_append, length_encodeFooter]
  have hdrop := drop_append_encodeFooter pre { footer with bodyChecksum := sum }
  rw [hlen] at hdrop
  have hhead : ∀ z : Bytes, (pre ++ z).take headerSize = pre.take headerSize :=
    fun z => List.take_append_of_le_length hpre
  have hfilter : readFilterColumns libs (pre ++ encodeFooter { footer with bodyChecksum := sum })
      { footer with bodyChecksum := sum } =
      readFilterColumns libs (pre ++ encodeFooter footer) footer := by
    simp only [readFilterColumns]
    rw [readAt_append hin.kh, readAt_append hin.ts]
  have hpayload : readPayloadColumn libs (pre ++ encodeFooter { footer with bodyChecksum := sum })
      { footer with bodyChecksum := sum } =
      readPayloadColumn libs (pre ++ encodeFooter footer) footer := by
    simp only [readPayloadColumn]
    rw [readAt_append hin.pl]
  simp only [Query.readRows, hlen, hdrop, drop_append_encodeFooter, decodeFooter_encodeFooter,
    hhead, wrapErr, bind, Except.bind, hfilter, hpayload]

/-- Only one checksum is that of the body. -/
theorem Verified.checksum {pre : Bytes} {footer : BlockFooter} (hpre : headerSize ≤ pre.length)
    (h : Verified libs (pre ++ encodeFooter footer) keyHash fromNano toNano) :
    footer.bodyChecksum = checksumIEEE (pre.drop headerSize) := by
  obtain ⟨footer', hdr, khs, tss, hfooter, -, -, -, hsum, -⟩ := h
  rw [drop_append_encodeFooter, decodeFooter_encodeFooter] at hfooter
  cases hfooter
  have hbody : bodyOf (pre ++ encodeFooter footer) = pre.drop headerSize := by
    unfold bodyOf
    rw [List.drop_append_of_le_length hpre]
    refine List.take_left' ?_
    simp only [List.length_drop, List.length_append, length_encodeFooter]
    omega
  rw [← hsum, hbody]

end Verify

/-- **Whatever `ReadBlock` returns is verified, if it rejects the file or if
`Seal` wrote it** (then it returns all matching rows). On other files only the
comparisons that it does not make could tell: with its columns in front of its
footer, a file is read the same whatever checksum the footer has, and one
checksum only is right. -/
theorem readBlock_verified (libs : Libs) (id : BlockID) (keyHash : UInt64)
    (fromNano toNano : Int64) :
    (∀ file, (¬ Accepted libs file keyHash fromNano toNano ∨ ∃ hdr mt, Written libs file hdr mt) →
      ∀ rows, readRows libs id file keyHash fromNano toNano = .ok rows →
        Verified libs file keyHash fromNano toNano) ∧
    (∀ file hdr mt, Written libs file hdr mt →
      readRows libs id file keyHash fromNano toNano =
        .ok (mt.rows.filter (rowMatches keyHash fromNano toNano))) ∧
    ∀ pre footer, headerSize ≤ pre.length → Inside footer pre.length → ∀ sum,
      readRows libs id (pre ++ encodeFooter { footer with bodyChecksum := sum }) keyHash fromNano
          toNano =
        readRows libs id (pre ++ encodeFooter footer) keyHash fromNano toNano ∧
      (Verified libs (pre ++ encodeFooter { footer with bodyChecksum := sum }) keyHash fromNano
          toNano → sum = checksumIEEE (pre.drop headerSize)) := by
  refine ⟨?_, fun file hdr mt hw => hw.readRows id, ?_⟩
  · intro file hfile rows hrows
    rcases hfile with hrej | ⟨hdr, mt, hw⟩
    · exact absurd (accepted_of_readRows hrows) hrej
    · exact hw.verified
  · intro pre footer hpre hin sum
    exact ⟨readRows_checksum id hpre hin sum, Verified.checksum hpre⟩

set_option maxRecDepth 100000 in
/-- The file of one row verifies, one without a footer is rejected, and with
another checksum the first is read all the same. -/
theorem readBlock_verified_oneRow :
    Verified Libs.plain (blockFile Libs.plain ⟨0, 0, 0, 0, 1⟩ oneRowTable) 256 0 2 ∧
    (∀ rows, readRows Libs.plain (ascii "a") (encodeHeader ⟨0, 0, 0, 0, 1⟩) 256 0 2 = .ok rows →
      Verified Libs.plain (encodeHeader ⟨0, 0, 0, 0, 1⟩) 256 0 2) ∧
    readRows Libs.plain (ascii "a") (encodeHeader ⟨0, 0, 0, 0, 1⟩ ++
      blockBody Libs.plain oneRowTable ++
        encodeFooter { blockFooter Libs.plain oneRowTable with bodyChecksum := 0 }) 256 0 2 =
      .ok [⟨256, 1, [1]⟩] := by
  have hw : Written Libs.plain (blockFile Libs.plain ⟨0, 0, 0, 0, 1⟩ oneRowTable) ⟨0, 0, 0, 0, 1⟩
      oneRowTable := ⟨rfl, by decide +kernel, by decide, by decide⟩
  obtain ⟨hver, hrows, hsum⟩ := readBlock_verified Libs.plain (ascii "a") 256 0 2
  have hread : readRows Libs.plain (ascii "a") (blockFile Libs.plain ⟨0, 0, 0, 0, 1⟩ oneRowTable)
      256 0 2 = .ok [⟨256, 1, [1]⟩] := by
    rw [hrows _ _ _ hw]
    decide +kernel
  refine ⟨hver _ (Or.inr ⟨_, _, hw⟩) _ hread, hver _ (Or.inl ?_), ?_⟩
  · intro hacc
    have hsmall := hacc.1
    rw [length_encodeHeader] at hsmall
    exact absurd hsmall (by decide)
  · rw [(hsum _ _ (by decide +kernel) ⟨by decide +kernel, by decide +kernel, by decide +kernel⟩ 0).1,
      List.append_assoc]
    exact hread

/-- Two hashes, two timestamps, one payload; the checksum is that of nothing
and the row count is wrong. -/
def damaged : Bytes :=
  encodeHeader ⟨0, 0, 0, 0, 7⟩ ++ ((putUint64 256 ++ putUint64 256) ++ ((putUint64 0 ++ putUint64 1)
    ++ ((putUint32 1 ++ [9]) ++ encodeFooter ⟨⟨64, 80, 96⟩, ⟨16, 16, 5⟩, 0⟩)))

set_option maxRecDepth 100000 in
/-- **`ReadBlock` accepts a damaged file**: the body does not have its
checksum, no column has the row count of the header, and of the two matching
rows one is dropped. -/
theorem readBlock_accepts_damaged :
    readRows Libs.plain (ascii "a") damaged 256 0 2 = .ok [⟨256, 0, [9]⟩] ∧
    ¬ Verified Libs.plain damaged 256 0 2 := by
  refine ⟨by decide +kernel, ?_⟩
  rintro ⟨footer, hdr, khs, tss, hfooter, -, -, -, hsum, -⟩
  have hdecoded : decodeFooter (damaged.drop (damaged.length - footerSize)) =
      .ok ⟨⟨64, 80, 96⟩, ⟨16, 16, 5⟩, 0⟩ := by decide +kernel
  rw [hdecoded] at hfooter
  cases hfooter
  have hne : checksumIEEE (bodyOf damaged) ≠ 0 := by decide +kernel
  exact hne hsum

end Bbdb.Query
