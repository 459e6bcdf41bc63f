import Bbdb.Index.SparseIndex
import Bbdb.Tier.Local

/-!
# Tier — block ids as names

A block id is a name for a shard and an hour, and for the files of that hour.
The fields of an id have fixed widths, so ids of one shard compare byte by byte
as their hours do (`blockID_lt_iff`), and the shard and the hour can be read
back (`blockID_inj`). A file belongs to one id and is of one kind
(`filePath_inj`).
-/

namespace Bbdb.Tier

open Bbdb.Meta Bbdb.Block Bbdb.Index GoTime Text

/-! ## Order -/

/-- Comparison of a printed field and what follows it after a separator. -/
theorem fmtDec_append_lt {w n m : Nat} (hn : n < 10 ^ w) (hm : m < 10 ^ w) (sep : UInt8)
    (a b : Bytes) :
    fmtDec w n ++ sep :: a < fmtDec w m ++ sep :: b ↔ n < m ∨ n = m ∧ a < b := by
  have heq : padded 10 w n = padded 10 w m ↔ n = m :=
    ⟨padded_inj (by decide) (by decide) hn hm, fun h => by rw [h]⟩
  rw [fmtDec, fmtDec, if_pos hn, if_pos hm,
    Bytes.append_lt_append_iff (by rw [length_padded, length_padded]),
    padded_lt (by decide) (by decide) hn hm, heq, List.cons_lt_cons_iff]
  simp

/-- The texts of two hours compare as their fields do. -/
theorem hourText_lt_iff (a b : Int64) :
    hourText (utc a.toInt) < hourText (utc b.toInt) ↔ (utc a.toInt).Before (utc b.toInt) := by
  obtain ⟨hm, hd, hh⟩ := utc_bounds a.toInt
  obtain ⟨hm', hd', hh'⟩ := utc_bounds b.toInt
  have hy := utc_year (Int64.le_toInt a) (Int64.toInt_lt a)
  have hy' := utc_year (Int64.le_toInt b) (Int64.toInt_lt b)
  generalize utc a.toInt = f at *
  generalize utc b.toInt = g at *
  have hlast : fmtDec 2 f.hour.toNat < fmtDec 2 g.hour.toNat ↔ f.hour.toNat < g.hour.toNat := by
    rw [fmtDec, fmtDec, if_pos (by omega), if_pos (by omega)]
    exact padded_lt (by decide) (by decide) (by omega) (by omega)
  rw [hourText, hourText, fmtDec_append_lt (by omega) (by omega),
    fmtDec_append_lt (by omega) (by omega), fmtDec_append_lt (by omega) (by omega), hlast,
    Fields.Before]
  omega

/-- **Ids of one shard compare as their hours.** -/
theorem blockID_lt_iff (shard : ShardID) (a b : Int64) :
    blockIDForShard shard a < blockIDForShard shard b ↔
      truncateHour a.toInt < truncateHour b.toInt := by
  rw [blockIDForShard, blockIDForShard, blockIDFromShardAndHour, blockIDFromShardAndHour,
    Bytes.append_lt_append_left, List.cons_lt_cons_iff, hourText_lt_iff, utc_before_iff]
  simp

/-! ## Identity -/

/-- An id names its shard and its hour. -/
theorem blockID_inj {s s' : ShardID} {a b : Int64} :
    blockIDForShard s a = blockIDForShard s' b ↔
      s = s' ∧ truncateHour a.toInt = truncateHour b.toInt := by
  constructor
  · intro h
    have hsplit := congrArg (splitFirst colon) h
    rw [blockIDForShard, blockIDForShard, splitFirst_blockID, splitFirst_blockID] at hsplit
    have hshard := (Prod.mk.inj (Option.some.inj hsplit)).1
    have hs : s.toNat < 16 ^ 4 := UInt16.toNat_lt s
    have hs' : s'.toNat < 16 ^ 4 := UInt16.toNat_lt s'
    rw [fmtHex, fmtHex, if_pos hs, if_pos hs'] at hshard
    have hss : s = s' := UInt16.toNat_inj.mp (padded_inj (by decide) (by decide) hs hs' hshard)
    subst hss
    exact ⟨rfl, blockID_eq_iff.mp h⟩
  · rintro ⟨rfl, h⟩
    exact blockID_eq_iff.mpr h

/-! ## Files -/

/-- The kinds of files a block has. -/
inductive FileKind
  | block
  | bloom
  | tmp
  deriving DecidableEq, Repr

/-- Where a file of a block lies: in a store, or in the directory for
temporary files. -/
def filePath (s : LocalStore) (tmpDir : Path) (id : BlockID) : FileKind → Path
  | .block => s.blockPath id
  | .bloom => s.bloomPath id
  | .tmp => tmpPath tmpDir id

/-- A file belongs to one id and is of one kind, whatever the stores. -/
theorem filePath_inj {s s' : LocalStore} {tmpDir tmpDir' : Path} {id id' : BlockID}
    {k k' : FileKind} (hid : IsBlockID id)
    (h : filePath s tmpDir id k = filePath s' tmpDir' id' k') : id = id' ∧ k = k' := by
  cases k with
  | block =>
      cases k' with
      | block => exact ⟨blockPath_inj hid h, rfl⟩
      | bloom => exact absurd h (blockPath_ne_bloomPath s s' id id')
      | tmp => exact absurd h.symm (tmpPath_ne_blockPath s tmpDir' id' id)
  | bloom =>
      cases k' with
      | block => exact absurd h.symm (blockPath_ne_bloomPath s' s id' id)
      | bloom => exact ⟨bloomPath_inj hid h, rfl⟩
      | tmp => exact absurd h.symm (tmpPath_ne_bloomPath s tmpDir' id' id)
  | tmp =>
      cases k' with
      | block => exact absurd h (tmpPath_ne_blockPath s' tmpDir id id')
      | bloom => exact absurd h (tmpPath_ne_bloomPath s' tmpDir id id')
      | tmp => exact ⟨tmpPath_inj h, rfl⟩

/-- **Block ids, hours and files name each other.** The hour read back from an
id is the start of the hour of the instant it was made from; ids are equal
exactly for the same shard and hour, and in one shard they are ordered by hour;
and two files coincide only for one id and one kind. -/
theorem blockID_names (s s' : ShardID) (t t' : Int64) :
    (∃ h, parseBlockHour (blockIDForShard s t) = .ok h ∧ h % hour = 0 ∧
      h ≤ t.toInt ∧ t.toInt < h + hour) ∧
    (blockIDForShard s t = blockIDForShard s' t' ↔
      s = s' ∧ truncateHour t.toInt = truncateHour t'.toInt) ∧
    (blockIDForShard s t < blockIDForShard s t' ↔
      truncateHour t.toInt < truncateHour t'.toInt) ∧
    ∀ (store store' : LocalStore) (tmpDir tmpDir' : Path) (k k' : FileKind),
      filePath store tmpDir (blockIDForShard s t) k =
        filePath store' tmpDir' (blockIDForShard s' t') k' →
      blockIDForShard s t = blockIDForShard s' t' ∧ k = k' := by
  refine ⟨⟨truncateHour t.toInt, parseBlockHour_blockID s t, ?_, truncateHour_le _,
    lt_truncateHour_add _⟩, blockID_inj, blockID_lt_iff s t t', ?_⟩
  · rw [truncateHour_eq]
    exact Int.mul_emod_left _ _
  · intro store store' tmpDir tmpDir' k k' h
    exact filePath_inj ⟨s, t, rfl⟩ h

end Bbdb.Tier
