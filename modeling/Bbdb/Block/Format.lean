import Bbdb.Block.Memtable
import Bbdb.Lib.Frames
import Bbdb.Lib.Layout

/-!
# Block — the block and bloom files

The layout of a `.block` file: a 64-byte header, the three compressed
columns, a 56-byte footer that locates them. `blockFile` is the whole file of
a memtable, `blockRows` reads all of its rows back, and
`blockRows_blockFile` is the round trip. A `.bloom` file holds the
serialised filter over the distinct key hashes (`testHash_buildBloom`).
-/

namespace Bbdb.Block

open Bbdb.Bytes

/-! ## Header and footer -/

def headerSize : Nat := 64

def footerSize : Nat := 56

def magicBBDB : Bytes := ascii "BBDB"

def magicTBBD : Bytes := ascii "TBBD"

def version : UInt8 := 1

/-- One bit of the reflected CRC-32 division. -/
def crcBit (c : UInt32) : UInt32 :=
  if c &&& 1 = 1 then (c >>> 1) ^^^ 0xedb88320 else c >>> 1

def crcByte (c : UInt32) (b : UInt8) : UInt32 :=
  crcBit (crcBit (crcBit (crcBit (crcBit (crcBit (crcBit (crcBit (c ^^^ b.toUInt32))))))))

/-- `crc32.ChecksumIEEE`. -/
def checksumIEEE (data : Bytes) : UInt32 := ~~~ data.foldl crcByte 0xffffffff

example : checksumIEEE (ascii "123456789") = 0xcbf43926 := by decide +kernel

/-- `%08x` in an error text. -/
def hex8 (x : UInt32) : String := Text.str (Text.fmtHex 8 x.toNat)

structure BlockHeader where
  shardID : UInt16
  eventType : UInt8
  openedAt : Int64
  sealedAt : Int64
  rowCount : UInt64
  deriving DecidableEq, Repr

/-- A `[3]uint64` with one entry per column: hash, timestamp, payload. -/
structure PerColumn where
  kh : UInt64
  ts : UInt64
  pl : UInt64
  deriving DecidableEq, Repr

/-- Absolute offsets and compressed sizes of the three columns, and the checksum of their bytes. -/
structure BlockFooter where
  colOffsets : PerColumn
  colSizes : PerColumn
  bodyChecksum : UInt32
  deriving DecidableEq, Repr

/-- The first 60 bytes of a header, which its checksum covers. -/
def headerFields (h : BlockHeader) : Bytes :=
  magicBBDB ++ (version :: (putUint16 h.shardID ++ (h.eventType ::
    (putUint64 h.openedAt.toUInt64 ++ (putUint64 h.sealedAt.toUInt64 ++
      (putUint64 h.rowCount ++ List.replicate 28 0))))))

def encodeHeader (h : BlockHeader) : Bytes :=
  headerFields h ++ putUint32 (checksumIEEE (headerFields h))

def decodeHeader (buf : Bytes) : Except Err BlockHeader :=
  if buf.length < headerSize then .error (.msg s!"header too short: {buf.length}")
  else if buf.take 4 ≠ magicBBDB then .error (.msg "invalid magic: expected BBDB")
  else if checksumIEEE (buf.take 60) ≠ getUint32 (buf.drop 60) then
    .error (.msg ("header checksum mismatch: want " ++ hex8 (checksumIEEE (buf.take 60)) ++
      " got " ++ hex8 (getUint32 (buf.drop 60))))
  else .ok {
    shardID := getUint16 (buf.drop 5)
    eventType := buf.getD 7 0
    openedAt := (getUint64 (buf.drop 8)).toInt64
    sealedAt := (getUint64 (buf.drop 16)).toInt64
    rowCount := getUint64 (buf.drop 24) }

def encodeFooter (f : BlockFooter) : Bytes :=
  putUint64 f.colOffsets.kh ++ (putUint64 f.colOffsets.ts ++ (putUint64 f.colOffsets.pl ++
    (putUint64 f.colSizes.kh ++ (putUint64 f.colSizes.ts ++ (putUint64 f.colSizes.pl ++
      (putUint32 f.bodyChecksum ++ magicTBBD))))))

def decodeFooter (buf : Bytes) : Except Err BlockFooter :=
  if buf.length < footerSize then .error (.msg s!"footer too short: {buf.length}")
  else if buf.drop (footerSize - 4) ≠ magicTBBD then
    .error (.msg "invalid footer magic: expected TBBD")
  else .ok {
    colOffsets := ⟨getUint64 buf, getUint64 (buf.drop 8), getUint64 (buf.drop 16)⟩
    colSizes := ⟨getUint64 (buf.drop 24), getUint64 (buf.drop 32), getUint64 (buf.drop 40)⟩
    bodyChecksum := getUint32 (buf.drop 48) }

/-! ## Columns -/

variable (libs : Libs)

/-- The raw bytes of a column of eight-byte values. -/
def encodeUint64s (vals : List UInt64) : Bytes := vals.flatMap putUint64

def compressUint64Column (vals : List UInt64) : Bytes := libs.encodeAll (encodeUint64s vals)

def compressInt64Column (vals : List Int64) : Bytes :=
  libs.encodeAll (encodeUint64s (vals.map Int64.toUInt64))

/-- The decompression the two integer columns share; `what` names the
column in the error. -/
def decompressWords (what : String) (data : Bytes) : Except Err (List UInt64) := do
  let raw ← libs.decodeAll data
  if raw.length % 8 ≠ 0 then .error (.msg (what ++ " column: raw length not multiple of 8"))
  else .ok ((List.range (raw.length / 8)).map fun i => getUint64 (raw.drop (i * 8)))

def decompressUint64Column (data : Bytes) : Except Err (List UInt64) :=
  decompressWords libs "uint64" data

def decompressInt64Column (data : Bytes) : Except Err (List Int64) := do
  let words ← decompressWords libs "int64" data
  .ok (words.map UInt64.toInt64)

/-- Each payload after its length, which is cut to 32 bits. -/
def encodePayloads (payloads : List Bytes) : Bytes :=
  payloads.flatMap fun p => putUint32 (UInt32.ofNat p.length) ++ p

def compressBytesColumn (payloads : List Bytes) : Bytes := libs.encodeAll (encodePayloads payloads)

/-- The loop of `DecompressBytesColumn` on what is left of the raw bytes.
Every pass takes at least four bytes, so the length of the input bounds the
number of passes. -/
def payloadLoop : Nat → Bytes → Except Err (List Bytes)
  | 0, _ => .ok []
  | n + 1, raw =>
      if raw.length = 0 then .ok []
      else if raw.length < 4 then .error (.msg "bytes column: truncated length prefix")
      else if raw.length - 4 < (getUint32 raw).toNat then
        .error (.msg "bytes column: truncated payload")
      else do
        let rest ← payloadLoop n (raw.drop (4 + (getUint32 raw).toNat))
        .ok ((raw.drop 4).take (getUint32 raw).toNat :: rest)

def decompressBytesColumn (data : Bytes) : Except Err (List Bytes) := do
  let raw ← libs.decodeAll data
  payloadLoop raw.length raw

/-! ## Writing and reading a block file -/

def khCol (mt : Memtable) : Bytes := compressUint64Column libs mt.keyHashes

def tsCol (mt : Memtable) : Bytes := compressInt64Column libs mt.timestamps

def plCol (mt : Memtable) : Bytes := compressBytesColumn libs mt.payloads

def blockBody (mt : Memtable) : Bytes := khCol libs mt ++ (tsCol libs mt ++ plCol libs mt)

/-- The footer `WriteBlockBody` returns. -/
def blockFooter (mt : Memtable) : BlockFooter :=
  let size0 := UInt64.ofNat (khCol libs mt).length
  let size1 := UInt64.ofNat (tsCol libs mt).length
  let size2 := UInt64.ofNat (plCol libs mt).length
  let off0 := UInt64.ofNat headerSize
  { colOffsets := ⟨off0, off0 + size0, off0 + size0 + size1⟩
    colSizes := ⟨size0, size1, size2⟩
    bodyChecksum := checksumIEEE (blockBody libs mt) }

/-- The bytes of a `bytes.Buffer` to which `data` was written. It cannot grow
past what the runtime allocates. -/
def bufferBytes (data : Bytes) : Except Err Bytes :=
  if maxAlloc < data.length then .error (.panic "bytes.Buffer: too large") else .ok data

/-- Write header and columns to the file created at `p`. -/
def writeBlockBody (p : Path) (hdr : BlockHeader) (mt : Memtable) : Go BlockFooter := do
  fileWrite p (encodeHeader hdr)
  let body ← ExceptT.mk (pure (bufferBytes (blockBody libs mt)))
  fileWrite p body
  pure (blockFooter libs mt)

/-- The complete file of a memtable. -/
def blockFile (hdr : BlockHeader) (mt : Memtable) : Bytes :=
  encodeHeader hdr ++ (blockBody libs mt ++ encodeFooter (blockFooter libs mt))

/-- The files `WriteBlockBody` and the footer can make are shorter. -/
def maxBlockFile : Nat := headerSize + maxAlloc + footerSize + 1

/-- `make([]byte, n)` and `ReadAt(buf, int64(off))`: the runtime must be able
to allocate the buffer, the offset must be non-negative, and the file long
enough. -/
def readAt (file : Bytes) (off n : UInt64) : Except Err Bytes :=
  if maxAlloc < n.toNat then .error (.panic "makeslice: len out of range")
  else if 2 ^ 63 ≤ off.toNat then .error (.msg "negative offset")
  else if n = 0 then .ok []
  else if off.toNat + n.toNat ≤ file.length then .ok ((file.drop off.toNat).take n.toNat)
  else .error .io

/-- Wrap the error of a step, as `fmt.Errorf("text: %w", err)`. -/
def wrapErr {α : Type} (text : String) : Except Err α → Except Err α
  | .ok a => .ok a
  | .error (.panic t) => .error (.panic t)
  | .error e => .error (.wrap text e)

def readFilterColumns (file : Bytes) (footer : BlockFooter) :
    Except Err (List UInt64 × List Int64) := do
  let khData ← wrapErr "read key_hash column" (readAt file footer.colOffsets.kh footer.colSizes.kh)
  let keyHashes ← wrapErr "decompress key_hash" (decompressUint64Column libs khData)
  let tsData ← wrapErr "read timestamp column"
    (readAt file footer.colOffsets.ts footer.colSizes.ts)
  let timestamps ← wrapErr "decompress timestamp" (decompressInt64Column libs tsData)
  .ok (keyHashes, timestamps)

def readPayloadColumn (file : Bytes) (footer : BlockFooter) : Except Err (List Bytes) := do
  let payloadData ← wrapErr "read payload column"
    (readAt file footer.colOffsets.pl footer.colSizes.pl)
  wrapErr "decompress payload" (decompressBytesColumn libs payloadData)

/-- Columns put together row by row. -/
def zipRows (khs : List UInt64) (tss : List Int64) (pls : List Bytes) : List Event :=
  (khs.zip (tss.zip pls)).map fun r => ⟨r.1, r.2.1, r.2.2⟩

/-- What a block file holds: every row of its three columns. -/
def blockRows (file : Bytes) : Except Err (List Event) := do
  let footer ← decodeFooter (file.drop (file.length - footerSize))
  let _ ← decodeHeader (file.take headerSize)
  let cols ← readFilterColumns libs file footer
  let payloads ← readPayloadColumn libs file footer
  .ok (zipRows cols.1 cols.2 payloads)

/-! ## Header and footer round trips -/

@[simp] theorem length_encodeHeader (h : BlockHeader) : (encodeHeader h).length = headerSize := by
  simp [encodeHeader, headerFields, magicBBDB, ascii, headerSize]

@[simp] theorem length_encodeFooter (f : BlockFooter) : (encodeFooter f).length = footerSize := by
  simp [encodeFooter, magicTBBD, ascii, footerSize]

/-- The fields of a header between its magic and its reserved bytes: the
version, and then what a `BlockHeader` holds. -/
def headerLayout : Layout (UInt8 × BlockHeader) :=
  Layout.uint8.seq ((Layout.uint16.seq (Layout.uint8.seq (Layout.int64.seq
    (Layout.int64.seq Layout.uint64)))).map
      { toFun := fun x => ⟨x.1, x.2.1, x.2.2.1, x.2.2.2.1, x.2.2.2.2⟩
        invFun := fun h => (h.shardID, h.eventType, h.openedAt, h.sealedAt, h.rowCount)
        left_inv := fun _ => rfl
        right_inv := fun _ => rfl })

/-- The fields of a footer in front of its magic. -/
def footerLayout : Layout BlockFooter :=
  (Layout.uint64.seq (Layout.uint64.seq (Layout.uint64.seq (Layout.uint64.seq
    (Layout.uint64.seq (Layout.uint64.seq Layout.uint32)))))).map
      { toFun := fun x => ⟨⟨x.1, x.2.1, x.2.2.1⟩,
          ⟨x.2.2.2.1, x.2.2.2.2.1, x.2.2.2.2.2.1⟩, x.2.2.2.2.2.2⟩
        invFun := fun f => (f.colOffsets.kh, f.colOffsets.ts, f.colOffsets.pl,
          f.colSizes.kh, f.colSizes.ts, f.colSizes.pl, f.bodyChecksum)
        left_inv := fun _ => rfl
        right_inv := fun _ => rfl }

/-- The 60 bytes under the checksum, for any version and any reserved bytes. -/
def headerBody (v : UInt8) (h : BlockHeader) (reserved : Bytes) : Bytes :=
  magicBBDB ++ (headerLayout.put (v, h) ++ reserved)

theorem headerFields_eq (h : BlockHeader) :
    headerFields h = headerBody version h (List.replicate 28 0) := by
  simp [headerFields, headerBody, headerLayout, Layout.seq, Layout.map, Layout.uint8,
    Layout.uint16, Layout.uint64, Layout.int64]

theorem encodeFooter_eq (f : BlockFooter) : encodeFooter f = footerLayout.put f ++ magicTBBD := by
  simp [encodeFooter, footerLayout, Layout.seq, Layout.map, Layout.uint64, Layout.uint32]

/-- The three checks of `DecodeHeader`, and the fields it then returns. -/
theorem decodeHeader_eq_ok {buf : Bytes} {h : BlockHeader} :
    decodeHeader buf = .ok h ↔
      headerSize ≤ buf.length ∧ buf.take 4 = magicBBDB ∧
        checksumIEEE (buf.take 60) = getUint32 (buf.drop 60) ∧
        (headerLayout.get (buf.drop 4)).2 = h := by
  have hget : (headerLayout.get (buf.drop 4)).2 =
      { shardID := getUint16 (buf.drop 5)
        eventType := buf.getD 7 0
        openedAt := (getUint64 (buf.drop 8)).toInt64
        sealedAt := (getUint64 (buf.drop 16)).toInt64
        rowCount := getUint64 (buf.drop 24) } := by
    simp [headerLayout, Layout.seq, Layout.map, Layout.uint8, Layout.uint16, Layout.uint64,
      Layout.int64]
  rw [hget, decodeHeader]
  split_ifs with hlen hmagic hsum
  · simp [hlen]
  · simp [hmagic]
  · simp [hsum]
  · simp only [not_not] at hmagic hsum
    simp [Nat.not_lt.mp hlen, hmagic, hsum]

/-- The two checks of `DecodeFooter`, and the fields it then returns. -/
theorem decodeFooter_eq_ok {buf : Bytes} {f : BlockFooter} :
    decodeFooter buf = .ok f ↔
      footerSize ≤ buf.length ∧ buf.drop (footerSize - 4) = magicTBBD ∧
        footerLayout.get buf = f := by
  have hget : footerLayout.get buf =
      { colOffsets := ⟨getUint64 buf, getUint64 (buf.drop 8), getUint64 (buf.drop 16)⟩
        colSizes := ⟨getUint64 (buf.drop 24), getUint64 (buf.drop 32), getUint64 (buf.drop 40)⟩
        bodyChecksum := getUint32 (buf.drop 48) } := by
    simp [footerLayout, Layout.seq, Layout.map, Layout.uint64, Layout.uint32]
  rw [hget, decodeFooter]
  split_ifs with hlen hmagic
  · simp [hlen]
  · simp [hmagic]
  · simp only [not_not] at hmagic
    simp [Nat.not_lt.mp hlen, hmagic]

/-- A header is read whatever its version and its reserved bytes are. -/
theorem decodeHeader_headerBody (v : UInt8) (h : BlockHeader) {reserved : Bytes}
    (hlen : reserved.length = 28) :
    decodeHeader (headerBody v h reserved ++ putUint32 (checksumIEEE (headerBody v h reserved))) =
      .ok h := by
  have hmagic : magicBBDB.length = 4 := rfl
  have hbody : (headerBody v h reserved).length = 60 := by
    rw [headerBody, List.length_append, List.length_append, headerLayout.length_put, hlen]
    rfl
  have hbuf : ∀ r, headerBody v h reserved ++ r =
      magicBBDB ++ (headerLayout.put (v, h) ++ (reserved ++ r)) := by
    simp [headerBody]
  refine decodeHeader_eq_ok.mpr ⟨?_, ?_, ?_, ?_⟩
  · rw [List.length_append, hbody, length_putUint32]
    rfl
  · rw [hbuf, List.take_left' hmagic]
  · rw [List.take_left' hbody, List.drop_left' hbody, ← List.append_nil (putUint32 _),
      getUint32_put]
  · rw [hbuf, List.drop_left' hmagic, headerLayout.get_put]

theorem decodeHeader_encodeHeader (h : BlockHeader) : decodeHeader (encodeHeader h) = .ok h := by
  rw [encodeHeader, headerFields_eq]
  exact decodeHeader_headerBody version h List.length_replicate

theorem decodeFooter_encodeFooter (f : BlockFooter) : decodeFooter (encodeFooter f) = .ok f := by
  refine decodeFooter_eq_ok.mpr ⟨(length_encodeFooter f).ge, ?_, ?_⟩
  · rw [encodeFooter_eq]
    exact List.drop_left' (footerLayout.length_put f)
  · rw [encodeFooter_eq, footerLayout.get_put]

/-! ## Column round trips -/

theorem length_encodeUint64s (vals : List UInt64) :
    (encodeUint64s vals).length = vals.length * 8 := by
  induction vals with
  | nil => rfl
  | cons v vals ih =>
      rw [encodeUint64s, List.flatMap_cons, List.length_append, length_putUint64,
        ← encodeUint64s, ih, List.length_cons]
      omega

theorem map_getUint64_encodeUint64s (vals : List UInt64) :
    (List.range vals.length).map (fun i => getUint64 ((encodeUint64s vals).drop (i * 8))) =
      vals := by
  induction vals with
  | nil => rfl
  | cons v vals ih =>
      have hcons : encodeUint64s (v :: vals) = putUint64 v ++ encodeUint64s vals := rfl
      have hstep : ∀ i, (putUint64 v ++ encodeUint64s vals).drop ((i + 1) * 8)
          = (encodeUint64s vals).drop (i * 8) := by
        intro i
        rw [drop_putUint64 (by omega)]
        congr 1
        omega
      rw [List.length_cons, List.range_succ_eq_map, List.map_cons, List.map_map, hcons]
      simp only [Nat.zero_mul, List.drop_zero, getUint64_put, Function.comp_def,
        Nat.succ_eq_add_one, hstep]
      rw [ih]

theorem decompressWords_encode (what : String) (vals : List UInt64) :
    decompressWords libs what (libs.encodeAll (encodeUint64s vals)) = .ok vals := by
  have hlen := length_encodeUint64s vals
  have hmod : ¬ (encodeUint64s vals).length % 8 ≠ 0 := by omega
  have hdiv : (encodeUint64s vals).length / 8 = vals.length := by omega
  simp only [decompressWords, libs.decode_encode, bind, Except.bind]
  rw [if_neg hmod, hdiv, map_getUint64_encodeUint64s]

theorem decompressInt64Column_compress (vals : List Int64) :
    decompressInt64Column libs (compressInt64Column libs vals) = .ok vals := by
  simp only [decompressInt64Column, compressInt64Column, decompressWords_encode, bind, Except.bind,
    List.map_map]
  congr 1
  exact (List.map_congr_left fun v _ => by simp).trans (List.map_id _)

/-- One pass of the loop, with the tests of the source on the position `i`. -/
theorem payloadLoop_drop {raw : Bytes} {i : Nat} (hi : i ≤ raw.length) (n : Nat) :
    payloadLoop (n + 1) (raw.drop i) =
      if raw.length ≤ i then .ok []
      else if raw.length < i + 4 then .error (.msg "bytes column: truncated length prefix")
      else if raw.length < i + 4 + (getUint32 (raw.drop i)).toNat then
        .error (.msg "bytes column: truncated payload")
      else (payloadLoop n (raw.drop (i + 4 + (getUint32 (raw.drop i)).toNat))).map
        ((raw.drop (i + 4)).take (getUint32 (raw.drop i)).toNat :: ·) := by
  have hend : raw.length - i = 0 ↔ raw.length ≤ i := by omega
  have hshort : raw.length - i < 4 ↔ raw.length < i + 4 := by omega
  have hcut : raw.length < i + 4 ∨ (raw.length - i - 4 < (getUint32 (raw.drop i)).toNat ↔
      raw.length < i + 4 + (getUint32 (raw.drop i)).toNat) := by omega
  rw [payloadLoop, List.length_drop, List.drop_drop, List.drop_drop, ← Nat.add_assoc]
  simp only [hend, hshort]
  rcases hcut with hcut | hcut
  · simp only [if_pos hcut]
  · simp only [hcut]
    rfl

/-- One payload after its length, as a format of items. -/
def payloadFrames : Frames Err UInt8 Bytes where
  Fits p := p.length < 2 ^ 32
  write p := putUint32 (UInt32.ofNat p.length) ++ p
  read raw :=
    if raw.length < 4 then .error (.msg "bytes column: truncated length prefix")
    else if raw.length - 4 < (getUint32 raw).toNat then
      .error (.msg "bytes column: truncated payload")
    else .ok ((raw.drop 4).take (getUint32 raw).toNat, raw.drop (4 + (getUint32 raw).toNat))
  write_ne_nil p := by
    intro hnil
    have hlen := congrArg List.length hnil
    simp at hlen
  read_write p s hp := by
    have hget : (getUint32 (putUint32 (UInt32.ofNat p.length) ++ p ++ s)).toNat = p.length := by
      rw [List.append_assoc, getUint32_put, UInt32.toNat_ofNat_of_lt' hp]
    have hlen : (putUint32 (UInt32.ofNat p.length) ++ p ++ s).length =
        4 + (p.length + s.length) := by
      simp
    have hdrop : (putUint32 (UInt32.ofNat p.length) ++ p ++ s).drop 4 = p ++ s := by
      rw [List.append_assoc, drop_putUint32 (Nat.le_refl 4), Nat.sub_self, List.drop_zero]
    rw [hget, if_neg (by omega), if_neg (by omega), ← List.drop_drop, hdrop, List.take_left,
      List.drop_left]
  fits_of_read raw p rest h := by
    split_ifs at h
    cases h
    exact (List.length_take_le _ _).trans_lt (UInt32.toNat_lt _)
  write_of_read raw p rest h := by
    split_ifs at h with hshort hcut
    cases h
    have hlen : ((raw.drop 4).take (getUint32 raw).toNat).length = (getUint32 raw).toNat :=
      List.length_take_of_le (by rw [List.length_drop]; omega)
    rw [hlen, UInt32.ofNat_toNat, putUint32_get (by omega), List.append_assoc, ← List.drop_drop,
      List.take_append_drop, List.take_append_drop]

/-- The loop is the one that reads items until nothing is left. -/
theorem payloadLoop_of_readAll {n : Nat} {raw : Bytes} {r : Except Err (List Bytes)}
    (h : payloadFrames.readAll n raw = some r) : payloadLoop n raw = r := by
  induction n generalizing raw r with
  | zero =>
      cases raw with
      | nil =>
          cases h
          rfl
      | cons b raw => cases h
  | succ n ih =>
      by_cases hnil : raw = []
      · rw [hnil] at h ⊢
        cases h
        rfl
      have hpos : ¬ raw.length = 0 := fun hzero => hnil (List.length_eq_zero_iff.mp hzero)
      rw [payloadLoop, if_neg hpos]
      cases hread : payloadFrames.read raw with
      | error e =>
          rw [Frames.readAll_error hnil hread] at h
          cases h
          simp only [payloadFrames] at hread
          split_ifs at hread with hshort hcut
          · cases hread
            rw [if_pos hshort]
          · cases hread
            rw [if_neg hshort, if_pos hcut]
      | ok p =>
          rw [Frames.readAll_ok hnil hread, Option.map_eq_some_iff] at h
          obtain ⟨rest, hrest, rfl⟩ := h
          simp only [payloadFrames] at hread
          split_ifs at hread with hshort hcut
          cases hread
          rw [if_neg hshort, if_neg hcut, ih hrest]
          cases rest <;> rfl

/-- It needs no more passes than there are raw bytes. -/
theorem readAll_payloadFrames {n : Nat} {raw : Bytes} (h : raw.length ≤ n) :
    payloadFrames.readAll n raw = some (payloadLoop n raw) := by
  obtain ⟨r, hr⟩ := Frames.readAll_terminates (F := payloadFrames) h
  rw [hr, payloadLoop_of_readAll hr]

/-- The loop reads back every payload whose length fits its prefix. -/
theorem payloadLoop_encode {payloads : List Bytes} (h : ∀ p ∈ payloads, p.length < 2 ^ 32)
    (n : Nat) (hn : (encodePayloads payloads).length ≤ n) :
    payloadLoop n (encodePayloads payloads) = .ok payloads := by
  apply Option.some.inj
  rw [← readAll_payloadFrames hn]
  exact Frames.readAll_writeAll (F := payloadFrames) h n hn

/-! ## The whole file -/

/-- Reading at the place of a segment returns the segment. -/
theorem readAt_segment {a b c : Bytes} {off n : UInt64} (hoff : off.toNat = a.length)
    (hn : n.toNat = b.length) (hb : b.length ≤ maxAlloc) (ha : a.length < 2 ^ 63) :
    readAt (a ++ (b ++ c)) off n = .ok b := by
  have hb : ¬ maxAlloc < n.toNat := by omega
  have ha : ¬ 2 ^ 63 ≤ off.toNat := by omega
  rw [readAt, if_neg hb, if_neg ha]
  by_cases hz : n = 0
  · rw [if_pos hz]
    have : b = [] := by
      rw [← List.length_eq_zero_iff, ← hn, hz]
      rfl
    rw [this]
  · have hfit : off.toNat + n.toNat ≤ (a ++ (b ++ c)).length := by
      simp only [List.length_append]
      omega
    rw [if_neg hz, if_pos hfit, hoff, hn, List.drop_left, List.take_left]

theorem drop_footer_blockFile (hdr : BlockHeader) (mt : Memtable) :
    (blockFile libs hdr mt).drop ((blockFile libs hdr mt).length - footerSize)
      = encodeFooter (blockFooter libs mt) := by
  have hfile : blockFile libs hdr mt =
      (encodeHeader hdr ++ blockBody libs mt) ++ encodeFooter (blockFooter libs mt) := by
    simp [blockFile]
  rw [hfile]
  refine List.drop_left' ?_
  simp only [List.length_append, length_encodeFooter, Nat.add_sub_cancel]

theorem take_header_blockFile (hdr : BlockHeader) (mt : Memtable) :
    (blockFile libs hdr mt).take headerSize = encodeHeader hdr :=
  List.take_left' (length_encodeHeader hdr)

theorem zipRows_rows (mt : Memtable) :
    zipRows mt.keyHashes mt.timestamps mt.payloads = mt.rows := by
  obtain ⟨hkh, hts, hpl⟩ := mt.map_rows
  rw [← hkh, ← hts, ← hpl, zipRows]
  induction mt.rows with
  | nil => rfl
  | cons e rows ih => simp [ih]

theorem bufferBytes_eq_ok {data body : Bytes} :
    bufferBytes data = .ok body ↔ data.length ≤ maxAlloc ∧ body = data := by
  rw [bufferBytes]
  split_ifs with h
  · simp [Nat.not_le.mpr h]
  · simp [Nat.not_lt.mp h, eq_comm]

/-- A successful `WriteBlockBody` to a new file writes header and columns. -/
theorem runs_writeBlockBody_ok {libs : Libs} {p : Path} {hdr : BlockHeader} {mt : Memtable}
    {w w' : World} {ws : List World} {footer : BlockFooter} (hnew : w.fs p = some [])
    (h : Prog.Runs sem (writeBlockBody libs p hdr mt).run w ws (.ok footer) w') :
    footer = blockFooter libs mt ∧ (blockBody libs mt).length ≤ maxAlloc ∧
      w' = w.setFile p (some (encodeHeader hdr ++ blockBody libs mt)) := by
  obtain ⟨_, w₁, _, _, -, h1, k1⟩ := Prog.runs_bindE_ok.mp h
  obtain ⟨-, rfl⟩ := runs_fileWrite_ok hnew h1
  obtain ⟨body, w₂, _, _, -, ⟨-, hbody, rfl⟩, k2⟩ := Prog.runs_bindE_ok.mp k1
  obtain ⟨hfits, rfl⟩ := bufferBytes_eq_ok.mp hbody.symm
  obtain ⟨_, w₃, _, _, -, h3, k3⟩ := Prog.runs_bindE_ok.mp k2
  obtain ⟨-, rfl⟩ := runs_fileWrite_ok (FS.put_self _ _ _) h3
  obtain ⟨-, hfooter, rfl⟩ := k3
  cases hfooter
  exact ⟨rfl, hfits, by simp only [World.setFile_setFile, List.nil_append]⟩

section Columns

variable {libs} {hdr : BlockHeader} {mt : Memtable}
  (hsize : (blockFile libs hdr mt).length < maxBlockFile)

include hsize

/-- In a file that could be written no offset and no size wraps. -/
theorem blockFooter_toNat :
    (blockFooter libs mt).colSizes.kh.toNat = (khCol libs mt).length ∧
    (blockFooter libs mt).colSizes.ts.toNat = (tsCol libs mt).length ∧
    (blockFooter libs mt).colSizes.pl.toNat = (plCol libs mt).length ∧
    (blockFooter libs mt).colOffsets.kh.toNat = headerSize ∧
    (blockFooter libs mt).colOffsets.ts.toNat = headerSize + (khCol libs mt).length ∧
    (blockFooter libs mt).colOffsets.pl.toNat
      = headerSize + (khCol libs mt).length + (tsCol libs mt).length := by
  simp only [blockFile, blockBody, List.length_append, length_encodeHeader, length_encodeFooter,
    headerSize, footerSize, maxBlockFile, maxAlloc] at hsize
  have h0 : (UInt64.ofNat (khCol libs mt).length).toNat = (khCol libs mt).length :=
    UInt64.toNat_ofNat_of_lt' (by simp [UInt64.size]; omega)
  have h1 : (UInt64.ofNat (tsCol libs mt).length).toNat = (tsCol libs mt).length :=
    UInt64.toNat_ofNat_of_lt' (by simp [UInt64.size]; omega)
  have h2 : (UInt64.ofNat (plCol libs mt).length).toNat = (plCol libs mt).length :=
    UInt64.toNat_ofNat_of_lt' (by simp [UInt64.size]; omega)
  have h64 : (UInt64.ofNat headerSize).toNat = 64 := rfl
  refine ⟨h0, h1, h2, h64, ?_, ?_⟩
  · show (UInt64.ofNat headerSize + UInt64.ofNat (khCol libs mt).length).toNat = _
    rw [UInt64.toNat_add, h0, h64, headerSize]
    omega
  · show (UInt64.ofNat headerSize + UInt64.ofNat (khCol libs mt).length
      + UInt64.ofNat (tsCol libs mt).length).toNat = _
    rw [UInt64.toNat_add, UInt64.toNat_add, h0, h1, h64, headerSize]
    omega

/-- Its columns could be put together in memory. -/
theorem le_maxAlloc_of_blockFile :
    (khCol libs mt).length + (tsCol libs mt).length + (plCol libs mt).length ≤ maxAlloc := by
  simp only [blockFile, blockBody, List.length_append, length_encodeHeader, length_encodeFooter,
    maxBlockFile] at hsize
  omega

theorem readFilterColumns_blockFile :
    readFilterColumns libs (blockFile libs hdr mt) (blockFooter libs mt)
      = .ok (mt.keyHashes, mt.timestamps) := by
  obtain ⟨s0, s1, -, o0, o1, -⟩ := blockFooter_toNat hsize
  have hcols := le_maxAlloc_of_blockFile hsize
  have hkh : readAt (blockFile libs hdr mt) (blockFooter libs mt).colOffsets.kh
      (blockFooter libs mt).colSizes.kh = .ok (khCol libs mt) := by
    have hfile : blockFile libs hdr mt = encodeHeader hdr ++ (khCol libs mt ++
        (tsCol libs mt ++ plCol libs mt ++ encodeFooter (blockFooter libs mt))) := by
      simp [blockFile, blockBody]
    rw [hfile]
    exact readAt_segment (by rw [o0, length_encodeHeader]) s0 (by omega)
      (by rw [length_encodeHeader]; decide)
  have hts : readAt (blockFile libs hdr mt) (blockFooter libs mt).colOffsets.ts
      (blockFooter libs mt).colSizes.ts = .ok (tsCol libs mt) := by
    have hfile : blockFile libs hdr mt = (encodeHeader hdr ++ khCol libs mt) ++ (tsCol libs mt ++
        (plCol libs mt ++ encodeFooter (blockFooter libs mt))) := by
      simp [blockFile, blockBody]
    have hlen : (encodeHeader hdr ++ khCol libs mt).length
        = headerSize + (khCol libs mt).length := by simp
    rw [hfile]
    refine readAt_segment (by rw [o1, hlen]) s1 (by omega) ?_
    rw [hlen, headerSize]
    unfold maxAlloc at hcols
    omega
  have hkd : decompressUint64Column libs (khCol libs mt) = .ok mt.keyHashes :=
    decompressWords_encode libs _ _
  have htd : decompressInt64Column libs (tsCol libs mt) = .ok mt.timestamps :=
    decompressInt64Column_compress libs _
  simp only [readFilterColumns, hkh, hts, wrapErr, hkd, htd, bind, Except.bind]

theorem readPayloadColumn_blockFile (hp : ∀ p ∈ mt.payloads, p.length < 2 ^ 32) :
    readPayloadColumn libs (blockFile libs hdr mt) (blockFooter libs mt) = .ok mt.payloads := by
  obtain ⟨-, -, s2, -, -, o2⟩ := blockFooter_toNat hsize
  have hcols := le_maxAlloc_of_blockFile hsize
  have hpl : readAt (blockFile libs hdr mt) (blockFooter libs mt).colOffsets.pl
      (blockFooter libs mt).colSizes.pl = .ok (plCol libs mt) := by
    have hfile : blockFile libs hdr mt = (encodeHeader hdr ++ (khCol libs mt ++ tsCol libs mt)) ++
        (plCol libs mt ++ encodeFooter (blockFooter libs mt)) := by
      simp [blockFile, blockBody]
    have hlen : (encodeHeader hdr ++ (khCol libs mt ++ tsCol libs mt)).length
        = headerSize + (khCol libs mt).length + (tsCol libs mt).length := by
      simp
      omega
    rw [hfile]
    refine readAt_segment (by rw [o2, hlen]) s2 (by omega) ?_
    rw [hlen, headerSize]
    unfold maxAlloc at hcols
    omega
  have hpd : decompressBytesColumn libs (plCol libs mt) = .ok mt.payloads := by
    simp only [decompressBytesColumn, plCol, compressBytesColumn, libs.decode_encode, bind,
      Except.bind]
    exact payloadLoop_encode hp _ (Nat.le_refl _)
  simp only [readPayloadColumn, hpl, wrapErr, hpd, bind, Except.bind]

/-- **A block file holds exactly the rows it was written from.** -/
theorem blockRows_blockFile (hp : ∀ p ∈ mt.payloads, p.length < 2 ^ 32) :
    blockRows libs (blockFile libs hdr mt) = .ok mt.rows := by
  simp only [blockRows, drop_footer_blockFile, decodeFooter_encodeFooter, take_header_blockFile,
    decodeHeader_encodeHeader, readFilterColumns_blockFile hsize,
    readPayloadColumn_blockFile hsize hp, bind, Except.bind, zipRows_rows]

end Columns

/-! ## Bloom files -/

def defaultBloomFPR : Rat := 1 / 100

/-- The filter over a list of hashes, each added as its eight bytes. -/
def buildBloom (keyHashes : List UInt64) (fpr : Rat) : libs.Filter :=
  let fpr := if fpr ≤ 0 then defaultBloomFPR else fpr
  let n := if keyHashes.length = 0 then 1 else keyHashes.length
  keyHashes.foldl (fun f h => libs.add f (putUint64 h)) (libs.newWithEstimates n fpr)

def buildBloomFromMemtable (n : Nat) (mt : Memtable) (fpr : Rat) : libs.Filter :=
  buildBloom libs (mt.uniqueKeyHashes libs n) fpr

def testHash (f : libs.Filter) (keyHash : UInt64) : Bool := libs.test f (putUint64 keyHash)

def serialize (f : libs.Filter) : Except Err Bytes := libs.writeTo f

def deserializeBloom (data : Bytes) : Except Err libs.Filter := libs.readFrom data

/-- **A filter finds every hash it was built from.** -/
theorem testHash_buildBloom {keyHashes : List UInt64} {h : UInt64} (hmem : h ∈ keyHashes)
    (fpr : Rat) : testHash libs (buildBloom libs keyHashes fpr) h = true := by
  -- a hash that is in the filter stays in it while the rest is added
  have hkeep : ∀ (hs : List UInt64) (f : libs.Filter), libs.test f (putUint64 h) = true →
      libs.test (hs.foldl (fun f h => libs.add f (putUint64 h)) f) (putUint64 h) = true := by
    intro hs
    induction hs with
    | nil => exact fun _ hf => hf
    | cons x hs ih => exact fun f hf => ih _ (libs.test_add f _ _ hf)
  have hall : ∀ (hs : List UInt64) (f : libs.Filter), h ∈ hs →
      libs.test (hs.foldl (fun f h => libs.add f (putUint64 h)) f) (putUint64 h) = true := by
    intro hs
    induction hs with
    | nil => exact fun _ hin => absurd hin List.not_mem_nil
    | cons x hs ih =>
        intro f hin
        rcases List.mem_cons.mp hin with rfl | hin
        · exact hkeep hs _ (libs.test_add_self f _)
        · exact ih _ hin
  exact hall keyHashes _ hmem

end Bbdb.Block
