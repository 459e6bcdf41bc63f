import Bbdb.Block.Event
import Bbdb.Meta.Store

/-!
# Index — the sparse index

`lookup` finds the blocks of an event type and a key hash and drops those
whose hour does not meet the queried interval. The hour is read back from the
text of the block id; for an id the sealer made that is the hour it was
printed from (`parseBlockHour_blockID`).
-/

namespace Bbdb.Index

open Bbdb.Meta Bbdb.Block GoTime Text
open Prog hiding pure bind

/-- `AddBlock`. -/
def addBlock (eventType : UInt8) (keyHash : UInt64) (blockID : BlockID) : Go Unit :=
  putIdxBatch eventType [keyHash] blockID

/-- `parseBlockHour`: the hour in a block id like "0a07:2026-06-11T14". The
errors of `Atoi` are ignored. -/
def parseBlockHour (id : BlockID) : Except Err Time :=
  match splitFirst colon id with
  | none => .error (.msg ("invalid block ID: " ++ quote id))
  | some (_, hourStr) =>
      match splitFirst 84 hourStr with
      | none => .error (.msg ("invalid block ID hour: " ++ quote id))
      | some (ymd, hh) =>
          match splitAll 45 ymd with
          | [year, month, day] =>
              .ok (date ⟨(atoi year).1, (atoi month).1, (atoi day).1, (atoi hh).1⟩)
          | _ => .error (.msg ("invalid block ID date: " ++ quote id))

/-- The block of `id` covers [blockHour, blockHour+1h); whether that meets
[from, to]. An id that does not parse is skipped. -/
def overlaps (from_ to_ : Time) (id : BlockID) : Bool :=
  match parseBlockHour id with
  | .error _ => false
  | .ok blockHour => blockHour < to_ && from_ < blockHour + hour

/-- `Lookup`. -/
def lookup (eventType : UInt8) (keyHash : UInt64) (from_ to_ : Time) : Go (List BlockID) := do
  let all ← idxLookupBlocks eventType keyHash
  pure (all.filter (overlaps from_ to_))

/-! ## Block hours -/

theorem notMem_fmtDec {w n : Nat} (hn : n < 10 ^ w) {x : UInt8} (hx : x = 45 ∨ x = 84) :
    x ∉ fmtDec w n := by
  rw [fmtDec, if_pos hn]
  rcases hx with rfl | rfl
  · exact notMem_padded (by decide) (by decide) (by decide)
  · exact notMem_padded (by decide) (by decide) (by decide)

/-- The text of an hour reads back as its fields. -/
theorem parse_hourText {f : Fields} (hy : 0 ≤ f.year ∧ f.year < 10000)
    (hm : 1 ≤ f.month ∧ f.month ≤ 12) (hd : 1 ≤ f.day ∧ f.day ≤ 31)
    (hh : 0 ≤ f.hour ∧ f.hour ≤ 23) (shard : ShardID) :
    parseBlockHour (blockIDFromShardAndHour shard (hourText f)) = .ok (date f) := by
  have year : f.year.toNat < 10 ^ 4 := by omega
  have month : f.month.toNat < 10 ^ 2 := by omega
  have day : f.day.toNat < 10 ^ 2 := by omega
  have hour : f.hour.toNat < 10 ^ 2 := by omega
  -- no `T` in the date, no dash in a number
  have hdate : (84 : UInt8) ∉ fmtDec 4 f.year.toNat ++ 45 :: (fmtDec 2 f.month.toNat ++
      45 :: fmtDec 2 f.day.toNat) := by
    simp only [List.mem_append, List.mem_cons, not_or]
    exact ⟨notMem_fmtDec year (Or.inr rfl), by decide, notMem_fmtDec month (Or.inr rfl),
      by decide, notMem_fmtDec day (Or.inr rfl)⟩
  have hsplit : splitFirst 84 (hourText f) = some (fmtDec 4 f.year.toNat ++
      45 :: (fmtDec 2 f.month.toNat ++ 45 :: fmtDec 2 f.day.toNat), fmtDec 2 f.hour.toNat) := by
    rw [← splitFirst_append hdate]
    simp [hourText]
  have hymd : splitAll 45 (fmtDec 4 f.year.toNat ++ 45 :: (fmtDec 2 f.month.toNat ++
      45 :: fmtDec 2 f.day.toNat)) =
      [fmtDec 4 f.year.toNat, fmtDec 2 f.month.toNat, fmtDec 2 f.day.toNat] := by
    rw [splitAll_append (notMem_fmtDec year (Or.inl rfl)),
      splitAll_append (notMem_fmtDec month (Or.inl rfl)),
      splitAll_of_notMem (notMem_fmtDec day (Or.inl rfl))]
  have hfields : (⟨(f.year.toNat : Int), (f.month.toNat : Int), (f.day.toNat : Int),
      (f.hour.toNat : Int)⟩ : Fields) = f := by
    rw [Int.toNat_of_nonneg hy.1, Int.toNat_of_nonneg (by omega), Int.toNat_of_nonneg (by omega),
      Int.toNat_of_nonneg hh.1]
  simp only [parseBlockHour, splitFirst_blockID, hsplit, hymd]
  rw [atoi_fmtDec (by decide) year (by omega), atoi_fmtDec (by decide) month (by omega),
    atoi_fmtDec (by decide) day (by omega), atoi_fmtDec (by decide) hour (by omega), hfields]

/-- **The hour of a block id is the hour of the instant it was made from.** -/
theorem parseBlockHour_blockID (shard : ShardID) (unixNano : Int64) :
    parseBlockHour (blockIDForShard shard unixNano) = .ok (truncateHour unixNano.toInt) := by
  obtain ⟨hm, hd, hh⟩ := utc_bounds unixNano.toInt
  have hy := utc_year (Int64.le_toInt unixNano) (Int64.toInt_lt unixNano)
  rw [blockIDForShard, parse_hourText hy hm hd hh, date_utc]

/-- Block ids of one shard are equal exactly when their hours are. -/
theorem blockID_eq_iff {shard : ShardID} {a b : Int64} :
    blockIDForShard shard a = blockIDForShard shard b ↔
      truncateHour a.toInt = truncateHour b.toInt := by
  constructor
  · intro h
    have hp := congrArg parseBlockHour h
    rw [parseBlockHour_blockID, parseBlockHour_blockID] at hp
    exact Except.ok.inj hp
  · intro h
    rw [blockIDForShard, blockIDForShard, utc_eq_iff.mpr h]

/-! ## Lookups -/

/-- The blocks a lookup finds in `w`. -/
def foundBlocks (w : World) (et : UInt8) (kh : UInt64) (from_ to_ : Time) : List BlockID :=
  (idxIDs (w.db.view.range (idxKeyPrefix et kh) (idxKeyUpper et kh))).filter (overlaps from_ to_)

theorem mem_foundBlocks {w : World} {et : UInt8} {kh : UInt64} {from_ to_ : Time} {id : BlockID} :
    id ∈ foundBlocks w et kh from_ to_ ↔
      (w.db.view.get (idxKey et kh id)).isSome ∧ overlaps from_ to_ id = true := by
  rw [foundBlocks, List.mem_filter, idxIDs_range]

theorem nodup_foundBlocks (w : World) (et : UInt8) (kh : UInt64) (from_ to_ : Time) :
    (foundBlocks w et kh from_ to_).Nodup :=
  (idxIDs_nodup _ _ _).filter _

/-- What an error-free lookup returns. -/
theorem exec_lookup (w : World) (et : UInt8) (kh : UInt64) (from_ to_ : Time) :
    (lookup et kh from_ to_).run.exec w = (.ok (foundBlocks w et kh from_ to_), w) := rfl

/-- A lookup that succeeds returns the same. -/
theorem runs_lookup {w w' : World} {ws : List World} {et : UInt8} {kh : UInt64} {from_ to_ : Time}
    {ids : List BlockID} (h : Runs sem (lookup et kh from_ to_).run w ws (.ok ids) w') :
    ids = foundBlocks w et kh from_ to_ := by
  obtain ⟨all, w₁, _, _, -, hall, hk⟩ := runs_bindE_ok.mp h
  obtain ⟨-, hids⟩ := runs_dbIter_map hall
  obtain ⟨-, hres, -⟩ := hk
  cases hres
  rw [hids]
  rfl

theorem calls_lookup (et : UInt8) (kh : UInt64) (from_ to_ : Time) :
    Calls (S := machine) Op.Reads (lookup et kh from_ to_).run :=
  calls_bindE (calls_bindE (calls_call.mpr trivial) fun _ => calls_pure _) fun _ => calls_pure _

/-- The hour test on an id the sealer made. -/
theorem overlaps_blockID {from_ to_ : Time} {shard : ShardID} {ns : Int64} :
    overlaps from_ to_ (blockIDForShard shard ns) = true ↔
      truncateHour ns.toInt < to_ ∧ from_ < truncateHour ns.toInt + hour := by
  rw [overlaps, parseBlockHour_blockID]
  simp

/-- **A lookup finds a block exactly when it has the index key and its hour
meets the interval.** -/
theorem mem_lookup {w : World} {et : UInt8} {kh : UInt64} {from_ to_ : Time} {shard : ShardID}
    {ns : Int64} :
    (∃ ids, ((lookup et kh from_ to_).run.exec w).1 = .ok ids ∧ blockIDForShard shard ns ∈ ids) ↔
      (w.db.view.get (idxKey et kh (blockIDForShard shard ns))).isSome ∧
        truncateHour ns.toInt < to_ ∧ from_ < truncateHour ns.toInt + hour := by
  rw [exec_lookup, ← overlaps_blockID, ← mem_foundBlocks]
  constructor
  · intro h
    obtain ⟨ids, hids, hmem⟩ := h
    cases hids
    exact hmem
  · intro h
    exact ⟨_, rfl, h⟩

end Bbdb.Index
