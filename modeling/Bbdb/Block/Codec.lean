import Bbdb.Block.Format
import Bbdb.Meta.Store

/-!
# Block — what the decoders accept

The converse of the round trips: which bytes the decoders of the block format
take. A footer and a metadata record are read back as the bytes they were
read from (`footer_and_blockMeta_exact`). A payload column is read exactly
when it is a row of length-prefixed payloads (`payload_column_exact`), by a
loop over a 64-bit index (`payloadScan`) that always ends.

A header is read for its magic, its fields and its checksum only. The version
byte and the reserved bytes are covered by the checksum and not looked at, so
an accepted header is the encoder's if and only if these bytes are
(`header_accepted_iff`).
-/

namespace Bbdb.Block

open Bbdb.Bytes Bbdb.Meta

/-! ## Headers -/

/-- An accepted header, byte for byte: what the encoder writes, but for the
version and the reserved bytes. -/
theorem eq_of_decodeHeader {b : Bytes} {h : BlockHeader} (hlen : b.length = headerSize)
    (hok : decodeHeader b = .ok h) :
    b = headerBody (b.getD 4 0) h ((b.drop 32).take 28) ++
      putUint32 (checksumIEEE (headerBody (b.getD 4 0) h ((b.drop 32).take 28))) := by
  obtain ⟨-, hmagic, hsum, hfields⟩ := decodeHeader_eq_ok.mp hok
  have hwidth : headerLayout.width = 28 := rfl
  have hlen4 : (b.drop 4).length = 60 := by
    rw [List.length_drop, hlen]
    rfl
  have hlen60 : (b.drop 60).length = 4 := by
    rw [List.length_drop, hlen]
    rfl
  have hget : headerLayout.get (b.drop 4) = (b.getD 4 0, h) := by
    refine Prod.ext ?_ hfields
    show (b.drop 4).getD 0 0 = b.getD 4 0
    simp
  have hbody : b.take 60 = headerBody (b.getD 4 0) h ((b.drop 32).take 28) := by
    calc b.take 60 = b.take (4 + (28 + 28)) := rfl
      _ = b.take 4 ++ ((b.drop 4).take 28 ++ ((b.drop 4).drop 28).take 28) := by
          rw [List.take_add, List.take_add]
      _ = magicBBDB ++ (headerLayout.put (b.getD 4 0, h) ++ (b.drop 32).take 28) := by
          rw [hmagic, ← hget, headerLayout.put_get _ (by omega), hwidth, List.drop_drop]
  have hcheck : putUint32 (checksumIEEE (b.take 60)) = b.drop 60 := by
    rw [hsum]
    exact Layout.uint32.put_get_self hlen60
  rw [← hbody, hcheck, List.take_append_drop]

/-- **The headers that are read.** The encoder's are, and an accepted header is
the encoder's if and only if its version and its reserved bytes are. -/
theorem header_accepted_iff :
    (∀ h : BlockHeader, decodeHeader (encodeHeader h) = .ok h) ∧
    ∀ (b : Bytes) (h : BlockHeader), b.length = headerSize → decodeHeader b = .ok h →
      (b = encodeHeader h ↔
        b.getD 4 0 = version ∧ (b.drop 32).take 28 = List.replicate 28 0) := by
  refine ⟨decodeHeader_encodeHeader, fun b h hlen hok => ⟨?_, ?_⟩⟩
  · rintro rfl
    have hm : magicBBDB = [66, 66, 68, 66] := rfl
    constructor
    · simp [encodeHeader, headerFields, hm]
    · simp [encodeHeader, headerFields, hm]
  · rintro ⟨hversion, hreserved⟩
    have hb := eq_of_decodeHeader hlen hok
    rw [hversion, hreserved, ← headerFields_eq] at hb
    exact hb

/-- The header of a small block. -/
def smallHeader : BlockHeader := ⟨0x0a07, 0x0a, 1_000_000_000, 1_000_003_600, 42⟩

/-- Its bytes, for a version byte `v`, a first reserved byte `r` and a checksum. -/
def smallHeaderBytes (v r : UInt8) (checksum : Bytes) : Bytes :=
  [66, 66, 68, 66, v, 10, 7, 10, 0, 0, 0, 0, 59, 154, 202, 0, 0, 0, 0, 0, 59, 154, 216, 16,
    0, 0, 0, 0, 0, 0, 0, 42, r] ++ List.replicate 27 0 ++ checksum

theorem small_header_accepted :
    decodeHeader (smallHeaderBytes 1 0 [118, 246, 53, 139]) = .ok smallHeader ∧
      smallHeaderBytes 1 0 [118, 246, 53, 139] = encodeHeader smallHeader := by
  have hok : decodeHeader (smallHeaderBytes 1 0 [118, 246, 53, 139]) = .ok smallHeader := by
    decide +kernel
  exact ⟨hok, (header_accepted_iff.2 _ _ rfl hok).mpr ⟨rfl, rfl⟩⟩

/-- A header of version 2, and one of version 1 with a reserved byte set, are
read as the header they would be without. -/
theorem other_headers_accepted :
    (smallHeaderBytes 2 0 [80, 73, 1, 242]).length = headerSize ∧
    decodeHeader (smallHeaderBytes 2 0 [80, 73, 1, 242]) = .ok smallHeader ∧
    smallHeaderBytes 2 0 [80, 73, 1, 242] ≠ encodeHeader smallHeader ∧
    (smallHeaderBytes 1 1 [119, 67, 200, 150]).length = headerSize ∧
    decodeHeader (smallHeaderBytes 1 1 [119, 67, 200, 150]) = .ok smallHeader ∧
    smallHeaderBytes 1 1 [119, 67, 200, 150] ≠ encodeHeader smallHeader := by
  decide +kernel

/-! ## Payload columns -/

/-- The format of a payload column: four bytes that denote a length, then that
many bytes, and so on to the end. -/
inductive LengthPrefixed : Bytes → Prop
  | nil : LengthPrefixed []
  | cons {length payload rest : Bytes} : length.length = 4 → payload.length = beNat length →
      LengthPrefixed rest → LengthPrefixed (length ++ (payload ++ rest))

/-- The loop of `DecompressBytesColumn` over its own variables, the `int` index
and the payloads so far; `none` when it has not ended after `n` passes. -/
def payloadScan (raw : Bytes) : Nat → Int64 → List Bytes → Option (Except Err (List Bytes))
  | 0, i, out => if i < Int64.ofNat raw.length then none else some (.ok out)
  | n + 1, i, out =>
      if i < Int64.ofNat raw.length then
        if Int64.ofNat raw.length < i + 4 then
          some (.error (.msg "bytes column: truncated length prefix"))
        else
          let length := (getUint32 (raw.drop i.toNatClampNeg)).toUInt64.toInt64
          if Int64.ofNat raw.length < i + 4 + length then
            some (.error (.msg "bytes column: truncated payload"))
          else
            let payload := (raw.drop (i + 4).toNatClampNeg).take length.toNatClampNeg
            payloadScan raw n (i + 4 + length) (out ++ [payload])
      else some (.ok out)

/-! ### The loop on machine integers -/

/-- One pass: the index is at position `k`, and neither sum wraps. -/
theorem payloadScan_succ {raw : Bytes} {k : Nat} (hk : k ≤ raw.length)
    (hfit : raw.length + 4 + 2 ^ 32 ≤ 2 ^ 63) (n : Nat) (out : List Bytes) :
    payloadScan raw (n + 1) (Int64.ofNat k) out =
      if raw.length ≤ k then some (.ok out)
      else if raw.length < k + 4 then some (.error (.msg "bytes column: truncated length prefix"))
      else if raw.length < k + 4 + (getUint32 (raw.drop k)).toNat then
        some (.error (.msg "bytes column: truncated payload"))
      else payloadScan raw n (Int64.ofNat (k + 4 + (getUint32 (raw.drop k)).toNat))
        (out ++ [(raw.drop (k + 4)).take (getUint32 (raw.drop k)).toNat]) := by
  have hword : (getUint32 (raw.drop k)).toNat < 2 ^ 32 := UInt32.toNat_lt _
  have hlength : (getUint32 (raw.drop k)).toUInt64.toInt64 =
      Int64.ofNat (getUint32 (raw.drop k)).toNat := by
    rw [← UInt64.toInt64_ofNat', UInt64.ofNat_uInt32ToNat]
  have hk4 : Int64.ofNat k + 4 = Int64.ofNat (k + 4) := (Int64.ofNat_add k 4).symm
  have hsum : Int64.ofNat (k + 4) + Int64.ofNat (getUint32 (raw.drop k)).toNat =
      Int64.ofNat (k + 4 + (getUint32 (raw.drop k)).toNat) := (Int64.ofNat_add _ _).symm
  rw [payloadScan]
  simp only [Int64.toNatClampNeg_ofNat_of_lt (show k < 2 ^ 63 by omega), hlength, hk4, hsum,
    Int64.toNatClampNeg_ofNat_of_lt (show k + 4 < 2 ^ 63 by omega),
    Int64.toNatClampNeg_ofNat_of_lt (show (getUint32 (raw.drop k)).toNat < 2 ^ 63 by omega),
    Int64.ofNat_lt_iff_lt (show k < 2 ^ 63 by omega) (show raw.length < 2 ^ 63 by omega),
    Int64.ofNat_lt_iff_lt (show raw.length < 2 ^ 63 by omega) (show k + 4 < 2 ^ 63 by omega),
    Int64.ofNat_lt_iff_lt (show raw.length < 2 ^ 63 by omega)
      (show k + 4 + (getUint32 (raw.drop k)).toNat < 2 ^ 63 by omega)]
  by_cases hend : raw.length ≤ k
  · rw [if_pos hend, if_neg (Nat.not_lt.mpr hend)]
  · rw [if_neg hend, if_pos (Nat.not_le.mp hend)]

theorem payloadScan_zero {raw : Bytes} (hfit : raw.length + 4 + 2 ^ 32 ≤ 2 ^ 63) (out : List Bytes) :
    payloadScan raw 0 (Int64.ofNat raw.length) out = some (.ok out) := by
  rw [payloadScan, if_neg]
  rw [Int64.ofNat_lt_iff_lt (by omega) (by omega)]
  exact Nat.lt_irrefl _

/-- From position `k` on, the loop appends what `payloadLoop` finds in the rest
of the bytes. -/
theorem payloadScan_eq {raw : Bytes} (hfit : raw.length + 4 + 2 ^ 32 ≤ 2 ^ 63) (n : Nat) :
    ∀ k out, k ≤ raw.length → raw.length - k ≤ n →
      payloadScan raw n (Int64.ofNat k) out = some ((payloadLoop n (raw.drop k)).map (out ++ ·)) := by
  induction n with
  | zero =>
      intro k out hk hn
      have hend : k = raw.length := by omega
      rw [hend, payloadScan_zero hfit, payloadLoop]
      simp [Except.map]
  | succ n ih =>
      intro k out hk hn
      rw [payloadScan_succ hk hfit, payloadLoop_drop hk]
      split_ifs with hend hshort hcut
      · simp [Except.map]
      · rfl
      · rfl
      · rw [ih _ _ (by omega) (by omega)]
        cases payloadLoop n (raw.drop (k + 4 + (getUint32 (raw.drop k)).toNat)) with
        | error e => rfl
        | ok rest => simp [Except.map]

/-! ### What the loop accepts -/

theorem payloadLoop_ok_iff {n : Nat} {raw : Bytes} (hn : raw.length ≤ n) {ps : List Bytes} :
    payloadLoop n raw = .ok ps ↔ encodePayloads ps = raw ∧ ∀ p ∈ ps, p.length < 2 ^ 32 := by
  have hiff := @Frames.readAll_ok_iff _ _ _ payloadFrames n raw hn ps
  rw [readAll_payloadFrames hn, Option.some.injEq] at hiff
  exact hiff

/-- More passes than bytes change nothing. -/
theorem payloadLoop_of_le {n : Nat} {raw : Bytes} (hn : raw.length ≤ n) :
    payloadLoop n raw = payloadLoop raw.length raw := by
  have hmono := Frames.readAll_of_le (F := payloadFrames) hn
    (readAll_payloadFrames (Nat.le_refl raw.length))
  rw [readAll_payloadFrames hn] at hmono
  exact Option.some.inj hmono

/-- A row of length-prefixed payloads is what the encoder writes for them. -/
theorem lengthPrefixed_iff {raw : Bytes} :
    LengthPrefixed raw ↔ ∃ ps, encodePayloads ps = raw ∧ ∀ p ∈ ps, p.length < 2 ^ 32 := by
  constructor
  · intro h
    induction h with
    | nil => exact ⟨[], rfl, by simp⟩
    | @cons length payload rest hlength hpayload _ ih =>
        obtain ⟨ps, rfl, hps⟩ := ih
        have hlt : payload.length < 2 ^ 32 := by
          have := beNat_lt length
          rw [hlength] at this
          rw [hpayload]
          exact this
        have hput : putUint32 (UInt32.ofNat payload.length) = length := by
          rw [putUint32, UInt32.toNat_ofNat_of_lt' hlt, hpayload, ← hlength, be_beNat]
        refine ⟨payload :: ps, ?_, ?_⟩
        · rw [encodePayloads, List.flatMap_cons, hput, List.append_assoc]
          rfl
        · rw [List.forall_mem_cons]
          exact ⟨hlt, hps⟩
  · rintro ⟨ps, rfl, hps⟩
    induction ps with
    | nil => exact .nil
    | cons p ps ih =>
        rw [List.forall_mem_cons] at hps
        have hcons : encodePayloads (p :: ps) =
            putUint32 (UInt32.ofNat p.length) ++ (p ++ encodePayloads ps) := by
          simp [encodePayloads]
        rw [hcons]
        refine .cons (length_putUint32 _) ?_ (ih hps.2)
        rw [putUint32, UInt32.toNat_ofNat_of_lt' hps.1, beNat_be_of_lt hps.1]

/-- **The payload column is read exactly.** On the raw bytes `raw` that zstd
gives for `data`: the loop ends, within as many passes as there are bytes, and
neither its index nor a sum wraps in 64 bits; what it returns is encoded as
`raw`; it succeeds if and only if `raw` is a row of length-prefixed payloads;
and it returns the payloads that `raw` encodes. -/
theorem payload_column_exact (libs : Libs) (data raw : Bytes)
    (hraw : libs.decodeAll data = .ok raw) :
    (∀ n, raw.length ≤ n → payloadLoop n raw = decompressBytesColumn libs data) ∧
    (raw.length + 4 + 2 ^ 32 ≤ 2 ^ 63 → ∀ n, raw.length ≤ n →
      payloadScan raw n 0 [] = some (decompressBytesColumn libs data)) ∧
    (∀ ps, decompressBytesColumn libs data = .ok ps → encodePayloads ps = raw) ∧
    ((∃ ps, decompressBytesColumn libs data = .ok ps) ↔ LengthPrefixed raw) ∧
    (∀ ps : List Bytes, (∀ p ∈ ps, p.length < 2 ^ 32) → raw = encodePayloads ps →
      decompressBytesColumn libs data = .ok ps) := by
  have hloop : decompressBytesColumn libs data = payloadLoop raw.length raw := by
    rw [decompressBytesColumn, hraw]
    rfl
  have hok : ∀ ps, decompressBytesColumn libs data = .ok ps ↔
      encodePayloads ps = raw ∧ ∀ p ∈ ps, p.length < 2 ^ 32 := by
    intro ps
    rw [hloop, payloadLoop_ok_iff (Nat.le_refl _)]
  refine ⟨?_, ?_, ?_, ?_, ?_⟩
  · intro n hn
    rw [hloop, payloadLoop_of_le hn]
  · intro hfit n hn
    have hscan := payloadScan_eq hfit n 0 [] (Nat.zero_le _) (by omega)
    rw [List.drop_zero, payloadLoop_of_le hn, ← hloop] at hscan
    rw [show (0 : Int64) = Int64.ofNat 0 from rfl, hscan]
    cases decompressBytesColumn libs data <;> rfl
  · intro ps h
    exact ((hok ps).mp h).1
  · rw [lengthPrefixed_iff]
    exact exists_congr hok
  · intro ps hps h
    exact (hok ps).mpr ⟨h.symm, hps⟩

theorem payload_column_two :
    Libs.plain.decodeAll [0, 0, 0, 1, 65, 0, 0, 0, 0] = .ok [0, 0, 0, 1, 65, 0, 0, 0, 0] ∧
      decompressBytesColumn Libs.plain [0, 0, 0, 1, 65, 0, 0, 0, 0] = .ok [[65], []] ∧
      LengthPrefixed [0, 0, 0, 1, 65, 0, 0, 0, 0] := by
  obtain ⟨-, -, -, hiff, hread⟩ :=
    payload_column_exact Libs.plain [0, 0, 0, 1, 65, 0, 0, 0, 0] [0, 0, 0, 1, 65, 0, 0, 0, 0] rfl
  have hok := hread [[65], []] (by decide) (by decide)
  exact ⟨rfl, hok, hiff.mp ⟨_, hok⟩⟩

/-! ## Footers and block metadata -/

theorem eq_of_decodeFooter {b : Bytes} {f : BlockFooter} (hlen : b.length = footerSize)
    (hok : decodeFooter b = .ok f) : b = encodeFooter f := by
  obtain ⟨-, hmagic, rfl⟩ := decodeFooter_eq_ok.mp hok
  have hwidth : footerLayout.width = footerSize - 4 := rfl
  rw [encodeFooter_eq, ← hmagic, ← hwidth]
  exact footerLayout.eq_put_append (by rw [hlen]; decide)

/-- **Footers and metadata are read and written without loss**, in both
directions: every value comes back from its bytes, and every accepted buffer
comes back from its value. -/
theorem footer_and_blockMeta_exact :
    (∀ f : BlockFooter, decodeFooter (encodeFooter f) = .ok f) ∧
    (∀ (b : Bytes) (f : BlockFooter), b.length = footerSize → decodeFooter b = .ok f →
      b = encodeFooter f) ∧
    (∀ m : BlockMeta, decodeBlockMeta (encodeBlockMeta m) = .ok m) ∧
    (∀ b : Bytes, b.length = blockMetaSize →
      ∃ m, decodeBlockMeta b = .ok m ∧ encodeBlockMeta m = b) := by
  refine ⟨decodeFooter_encodeFooter, fun b f => eq_of_decodeFooter,
    decodeBlockMeta_encodeBlockMeta, fun b hlen => ?_⟩
  refine ⟨blockMetaLayout.get b, decodeBlockMeta_eq hlen.ge, ?_⟩
  rw [encodeBlockMeta_eq]
  exact blockMetaLayout.put_get_self hlen

/-- A footer whose fields are all zero, and metadata whose bits are all set. -/
theorem small_footer_and_blockMeta :
    List.replicate 52 0 ++ magicTBBD = encodeFooter ⟨⟨0, 0, 0⟩, ⟨0, 0, 0⟩, 0⟩ ∧
      ∃ m, decodeBlockMeta (List.replicate 31 255) = .ok m ∧
        encodeBlockMeta m = List.replicate 31 255 :=
  ⟨footer_and_blockMeta_exact.2.1 _ _ rfl (by decide +kernel),
    footer_and_blockMeta_exact.2.2.2 _ rfl⟩

end Bbdb.Block
