import Bbdb.Meta.Store

/-!
# Meta — the expiry index

The expiry keys stand for a set of (hour, block id) pairs. The calls that
write them add and remove single pairs (`Sequence.expirySet`), and a scan up
to an hour returns the pairs of the set that are due, in order of hour and
then of id, each once (`expiry_scan_exact`).

The package has the scan twice. `ScanExpiredEntries` also stops at the first
key without the family's prefix; no key of its range is one, so the two
loops pass the same keys.
-/

namespace Bbdb.Meta

open Bbdb.Bytes
open Prog hiding pure bind

/-! ## The two scans -/

/-- The other scan returns the ids of the entries. -/
theorem expiredIDs_range (m : KV) (n : UInt64) :
    expiredIDs (m.range prefixExpiry (expiryKeyUpperBound n)) =
      (expiredEntries (m.range prefixExpiry (expiryKeyUpperBound n))).map ExpiredEntry.id := by
  rw [expiredEntries_range, List.map_filterMap, expiredIDs]
  congr 1
  funext p
  unfold expiredEntry
  cases parseExpiryKey p.1 <;> rfl

theorem runs_scanExpiredEntries {w w' : World} {ws : List World} {n : UInt64}
    {entries : List ExpiredEntry} (h : Runs sem (scanExpiredEntries n).run w ws (.ok entries) w') :
    w' = w ∧ entries = expiredEntries (w.db.view.range prefixExpiry (expiryKeyUpperBound n)) :=
  runs_dbIter_map h

theorem runs_scanExpired {w w' : World} {ws : List World} {n : UInt64} {ids : List BlockID}
    (h : Runs sem (scanExpired n).run w ws (.ok ids) w') :
    w' = w ∧ ids = expiredIDs (w.db.view.range prefixExpiry (expiryKeyUpperBound n)) :=
  runs_dbIter_map h

/-- **The expiry scans are exact and ordered.** Without an error of pebble both
scans up to `n` succeed, with the entries whose expiry key is there and whose
hour is at most `n`, each once, by hour and then by id; and a scan that
succeeds returns nothing else. -/
theorem expiry_scan_exact (w : World) (n : UInt64) (hn : n.toNat < 2 ^ 64 - 1) :
    ∃ entries : List ExpiredEntry,
      (∀ (h : UInt64) (id : BlockID), { id := id, hour := h } ∈ entries ↔
        (w.db.view.get (expiryKey h id)).isSome ∧ h ≤ n) ∧
      entries.Nodup ∧ entries.Pairwise ExpiredEntry.Before ∧
      (scanExpiredEntries n).run.exec w = (.ok entries, w) ∧
      (scanExpired n).run.exec w = (.ok (entries.map ExpiredEntry.id), w) ∧
      (∀ r ws w', Runs sem (scanExpiredEntries n).run w ws (.ok r) w' → r = entries) ∧
      (∀ r ws w', Runs sem (scanExpired n).run w ws (.ok r) w' →
        r = entries.map ExpiredEntry.id) := by
  refine ⟨expiredEntries (w.db.view.range prefixExpiry (expiryKeyUpperBound n)), ?_,
    expiredEntries_nodup _ _, expiredEntries_sorted _ _, rfl, ?_, ?_, ?_⟩
  · intro h id
    rw [mem_expiredEntries_iff, lt_succ_iff hn]
  · rw [← expiredIDs_range]
    rfl
  · intro r ws w' hrun
    exact (runs_scanExpiredEntries hrun).2
  · intro r ws w' hrun
    rw [← expiredIDs_range]
    exact (runs_scanExpired hrun).2

/-- Three expiry keys, put in another order than that of their hours. -/
def threeKeys : World :=
  World.commit ⟨Pebble.empty, fun _ => none, 0⟩ [.set (expiryKey 300 [99]) [],
    .set (expiryKey 100 [97]) [], .set (expiryKey 301 [98]) []] true

theorem expiry_scan_threeKeys :
    ∃ entries : List ExpiredEntry,
      (scanExpiredEntries 300).run.exec threeKeys = (.ok entries, threeKeys) ∧
      ({ id := [97], hour := 100 } : ExpiredEntry) ∈ entries ∧
      ({ id := [99], hour := 300 } : ExpiredEntry) ∈ entries ∧
      ({ id := [98], hour := 301 } : ExpiredEntry) ∉ entries ∧
      entries.Pairwise ExpiredEntry.Before ∧
      (scanExpired 300).run.exec threeKeys = (.ok (entries.map ExpiredEntry.id), threeKeys) := by
  obtain ⟨entries, hmem, -, hsorted, hscan, hids, -, -⟩ :=
    expiry_scan_exact threeKeys 300 (by decide)
  refine ⟨entries, hscan, (hmem 100 [97]).mpr (by decide +kernel),
    (hmem 300 [99]).mpr (by decide +kernel), fun h => ?_, hsorted, hids⟩
  exact absurd ((hmem 301 [98]).mp h).2 (by decide)

/-! ## The index as a set

What the calls that write expiry keys do to the set of pairs, one at a time
and in any order. A call that reports an error has changed nothing. -/

/-- The pairs that have an expiry key. -/
def expirySet (m : KV) : Set (UInt64 × BlockID) := {x | (m.get (expiryKey x.1 x.2)).isSome}

/-- The calls that write expiry keys. -/
inductive ExpiryCall
  | putExpiryKey (hour : UInt64) (id : BlockID)
  | deleteExpiryKey (hour : UInt64) (id : BlockID)
  | sealBatch (shard : ShardID) (id : BlockID) (bm : BlockMeta) (hour : UInt64)
  | deleteBlockAndExpiry (hour : UInt64) (id : BlockID)

/-- The batch a call commits. -/
def ExpiryCall.batch : ExpiryCall → Batch
  | .putExpiryKey hour id => [.set (expiryKey hour id) []]
  | .deleteExpiryKey hour id => [.delete (expiryKey hour id)]
  | .sealBatch shard id bm hour => sealOps shard id bm hour
  | .deleteBlockAndExpiry hour id => deleteOps hour id

def ExpiryCall.prog : ExpiryCall → Go Unit
  | .putExpiryKey hour id => Meta.putExpiryKey hour id
  | .deleteExpiryKey hour id => Meta.deleteExpiryKey hour id
  | .sealBatch shard id bm hour => Meta.sealBatch shard id bm hour
  | .deleteBlockAndExpiry hour id => Meta.deleteBlockAndExpiry hour id

/-- What a call is for: one pair comes or goes. -/
def ExpiryCall.effect : ExpiryCall → Set (UInt64 × BlockID) → Set (UInt64 × BlockID)
  | .putExpiryKey hour id, S => insert (hour, id) S
  | .deleteExpiryKey hour id, S => S \ {(hour, id)}
  | .sealBatch _ id _ hour, S => insert (hour, id) S
  | .deleteBlockAndExpiry hour id, S => S \ {(hour, id)}

theorem ExpiryCall.prog_eq (c : ExpiryCall) : c.prog = batchCommit c.batch true := by
  cases c <;> rfl

theorem expirySet_batch (c : ExpiryCall) (m : KV) :
    expirySet (c.batch.apply m) = c.effect (expirySet m) := by
  have hkey : ∀ (h n : UInt64) (id id' : BlockID),
      expiryKey n id' = expiryKey h id ↔ (n, id') = (h, id) := by
    intro h n id id'
    rw [expiryKey_inj, Prod.mk.injEq]
  ext ⟨n, id'⟩
  cases c with
  | putExpiryKey hour id =>
      show ((m.set (expiryKey hour id) []).get (expiryKey n id')).isSome ↔ _
      rw [OrdMap.get_set]
      by_cases he : (n, id') = (hour, id)
      · simp [ExpiryCall.effect, hkey, he]
      · simp [ExpiryCall.effect, hkey, he, expirySet]
  | deleteExpiryKey hour id =>
      show ((m.erase (expiryKey hour id)).get (expiryKey n id')).isSome ↔ _
      rw [OrdMap.get_erase]
      by_cases he : (n, id') = (hour, id)
      · simp [ExpiryCall.effect, hkey, he]
      · simp [ExpiryCall.effect, hkey, he, expirySet]
  | sealBatch shard id bm hour =>
      show (((sealOps shard id bm hour).apply m).get (expiryKey n id')).isSome ↔ _
      rw [get_sealOps_expiryKey]
      by_cases he : n = hour ∧ id' = id
      · simp [ExpiryCall.effect, he]
      · simp [ExpiryCall.effect, he, expirySet]
  | deleteBlockAndExpiry hour id =>
      show (((deleteOps hour id).apply m).get (expiryKey n id')).isSome ↔ _
      rw [get_deleteOps]
      by_cases he : (n, id') = (hour, id)
      · simp [ExpiryCall.effect, hkey, he]
      · simp [ExpiryCall.effect, hkey, he, expirySet, blockKey_ne_expiryKey.symm]

/-- One call. -/
theorem runs_expiryCall {c : ExpiryCall} {w w' : World} {ws : List World} {u : Unit}
    (h : Runs sem c.prog.run w ws (.ok u) w') :
    expirySet w'.db.view = c.effect (expirySet w.db.view) := by
  rw [ExpiryCall.prog_eq] at h
  rw [runs_batchCommit_ok h, World.commit_db, Pebble.view_commit, expirySet_batch]

/-- A sequence of calls, of which those that succeeded are listed. -/
inductive Sequence : World → List ExpiryCall → World → Prop
  | nil (w : World) : Sequence w [] w
  | succeeded {c : ExpiryCall} {w w₁ w₂ : World} {ws : List World} {u : Unit}
      {cs : List ExpiryCall} : Runs sem c.prog.run w ws (.ok u) w₁ → Sequence w₁ cs w₂ →
      Sequence w (c :: cs) w₂
  | failed {c : ExpiryCall} {w w₁ w₂ : World} {ws : List World} {e : Err}
      {cs : List ExpiryCall} : Runs sem c.prog.run w ws (.error e) w₁ → Sequence w₁ cs w₂ →
      Sequence w cs w₂

/-- **After any sequence of calls** the index holds the pairs that were put and
not taken out again. -/
theorem Sequence.expirySet {w w' : World} {cs : List ExpiryCall} (h : Sequence w cs w') :
    expirySet w'.db.view = cs.foldl (fun S c => c.effect S) (Meta.expirySet w.db.view) := by
  induction h with
  | nil w => rfl
  | succeeded hrun _ ih => rw [ih, List.foldl_cons, runs_expiryCall hrun]
  | failed hrun _ ih =>
      rw [ExpiryCall.prog_eq] at hrun
      rw [ih, runs_batchCommit_error hrun]

/-- A scan after a sequence of calls finds those pairs, up to its hour. -/
theorem Sequence.mem_scan {w w' w'' : World} {cs : List ExpiryCall} {ws : List World} {n : UInt64}
    {entries : List ExpiredEntry} (h : Sequence w cs w') (hn : n.toNat < 2 ^ 64 - 1)
    (hscan : Runs sem (scanExpiredEntries n).run w' ws (.ok entries) w'') (e : ExpiredEntry) :
    e ∈ entries ↔
      (e.hour, e.id) ∈ cs.foldl (fun S c => c.effect S) (Meta.expirySet w.db.view) ∧ e.hour ≤ n := by
  rw [← h.expirySet, (runs_scanExpiredEntries hscan).2, mem_expiredEntries_iff, lt_succ_iff hn]
  rfl

end Bbdb.Meta
