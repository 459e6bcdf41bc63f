import Bbdb.Block.CrashSafety
import Bbdb.Block.Publish
import Bbdb.Meta.ExpiryScan
import Bbdb.Ttl.Retention

/-!
# TTL — how long rows are kept at most

A sealed block is listed by every expiry scan from its expiry hour on. That
hour is the one the block was opened in plus the retention in whole hours, and
a retention that has no whole hour stands for the default: five years. So the
retention is an upper bound if it is at least an hour (`seal_listed_iff`); a
block that is to be kept for half an hour is kept for five years
(`halfHour_kept`), unless an earlier `Seal` of its id has left an expiry key.
-/

namespace Bbdb.Ttl

open Bbdb.Meta Bbdb.Block Bbdb.Tier GoTime
open Prog hiding pure bind

/-! ## Expiry scans -/

/-- Every scan of the expiry keys up to the hour `n` that succeeds returns the
block. -/
def Listed (w : World) (n : UInt64) (id : BlockID) : Prop :=
  ∀ entries ws w', Runs sem (scanExpiredEntries n).run w ws (.ok entries) w' →
    ∃ e ∈ entries, e.id = id

theorem listed_iff {w : World} {n : UInt64} {id : BlockID} :
    Listed w n id ↔ ∃ h, (w.db.view.get (expiryKey h id)).isSome ∧ h < n + 1 := by
  constructor
  · intro hlisted
    obtain ⟨e, he, rfl⟩ := hlisted _ _ _ (runs_procExec (scanExpiredEntries n).run w)
    exact ⟨e.hour, mem_expiredEntries_iff.mp he⟩
  · rintro ⟨h, hsome, hlt⟩ entries ws w' hrun
    obtain ⟨-, rfl⟩ := runs_scanExpiredEntries hrun
    exact ⟨⟨id, h⟩, mem_expiredEntries_iff.mpr ⟨hsome, hlt⟩, rfl⟩

/-! ## The expiry of a sealed block -/

section Sealed

variable {libs : Libs} {req : SealRequest} {w w' : World} {ws : List World} {id : BlockID}

/-- The expiry keys of a block after its `Seal`. -/
theorem expiryKey_of_seal (h : Runs sem (sealBlock libs req).run w ws (.ok id) w') (n : UInt64) :
    (w'.db.view.get (expiryKey n id)).isSome ↔
      n = req.expiryHour ∨ (w.db.view.get (expiryKey n id)).isSome := by
  rcases runs_sealBlock _ _ h with ⟨⟨e, he⟩, -⟩ | ⟨hid, ws₁, w₁, -, hlast, hchain, -, rfl⟩
  · cases he
  · cases hid
    have hprep := get_of_chain hchain hlast (k := expiryKey n req.blockID)
      fun x => idxKey_ne_expiryKey.symm
    rw [World.commit_db, Pebble.view_commit, get_sealOps_expiryKey, hprep]
    by_cases hn : n = req.expiryHour
    · simp [hn]
    · simp [hn]

theorem toNat_openHour (h : 0 ≤ req.openedAt) :
    (req.openHour.toNat : Int) = req.openedAt.toInt / hour :=
  toNat_unixHour (Int64.le_iff_toInt_le.mp h) (Int64.toInt_lt _)

/-- The expiry of a block is a number of hours after its open hour. -/
theorem toNat_expiryHour (hopen : 0 ≤ req.openedAt) (hret : req.retentionHours.toNat < 2 ^ 62) :
    (req.expiryHour.toNat : Int) = req.openedAt.toInt / hour + req.retentionHours.toNat := by
  have hle : req.openedAt.toInt / hour ≤ req.openedAt.toInt :=
    Int.ediv_le_self _ (Int64.le_iff_toInt_le.mp hopen)
  have hlt := Int64.toInt_lt req.openedAt
  have hopen' := toNat_openHour hopen
  rw [SealRequest.expiryHour, UInt64.toNat_add]
  omega

/-- An hour or more is at most rounded up. -/
theorem retentionHours_of_le (hle : hour ≤ req.retention) (hlt : req.retention < 2 ^ 63) :
    (req.retentionHours.toNat : Int) ≤ hoursUp req.retention ∧
      req.retentionHours.toNat < 2 ^ 62 := by
  have hh : hour = 3600000000000 := rfl
  obtain ⟨hlow, hhigh⟩ := hoursTrunc_bounds (d := req.retention) (by omega)
  have hup : hoursUp req.retention < 2 ^ 62 := by
    rw [hoursUp, hh]
    omega
  have hone : 1 ≤ hoursTrunc req.retention := by
    rw [hh] at hlow hle
    omega
  have hnat := toNat_ofInt (n := hoursTrunc req.retention) (by omega) (by omega)
  have hne : UInt64.ofInt (hoursTrunc req.retention) ≠ 0 := by
    intro hzero
    rw [hzero] at hnat
    have hnat' : (0 : Nat) = (hoursTrunc req.retention).toNat := hnat
    omega
  rw [SealRequest.retentionHours, if_neg hne, hnat]
  omega

/-- Less than an hour is five years. -/
theorem retentionHours_of_lt {m : Nat} (hret : req.retention = m * minute)
    (hlt : req.retention < hour) : req.retentionHours = defaultRetentionHours := by
  have hm : m < 60 := by
    rw [hret, show minute = 60000000000 from rfl, show hour = 3600000000000 from rfl] at hlt
    omega
  rw [SealRequest.retentionHours, hret, hoursTrunc_minutes ⟨m, hm⟩]
  rfl

/-- **When the retention is an upper bound.** For a retention of a whole
number of minutes, a sealed block is listed by every expiry scan from its open
hour plus the retention, rounded up, on, if and only if the retention is at
least an hour, or an earlier `Seal` has left the block an expiry key that
early. -/
theorem seal_listed_iff (libs : Libs) (req : SealRequest) (w w' : World) (ws : List World)
    (id : BlockID) (m : Nat) (hm : 0 < m) (hret : req.retention = m * minute)
    (hbound : req.retention < 2 ^ 63) (hopen : 0 ≤ req.openedAt)
    (hrun : Runs sem (sealBlock libs req).run w ws (.ok id) w') :
    (∀ n : UInt64, req.openedAt.toInt / hour + hoursUp req.retention ≤ n.toNat →
      n.toNat < 2 ^ 64 - 1 → Listed w' n id) ↔
    hour ≤ req.retention ∨ ∃ h : UInt64, (w.db.view.get (expiryKey h id)).isSome ∧
      (h.toNat : Int) ≤ req.openedAt.toInt / hour + hoursUp req.retention := by
  have hsucc : ∀ {h n : UInt64}, n.toNat < 2 ^ 64 - 1 → (h < n + 1 ↔ h.toNat ≤ n.toNat) :=
    fun hn => (lt_succ_iff hn).trans UInt64.le_iff_toNat_le
  have hpos : 0 < req.retention := by
    rw [hret, show minute = 60000000000 from rfl]
    omega
  constructor
  · intro hlisted
    by_contra hnot
    obtain ⟨hshort, hnone⟩ := not_or.mp hnot
    have hdefault := retentionHours_of_lt hret (not_le.mp hshort)
    have hexp := toNat_expiryHour hopen (by rw [hdefault]; decide)
    have hup : hoursUp req.retention = 1 := by
      rw [hoursUp]
      rw [show hour = 3600000000000 from rfl] at hshort ⊢
      omega
    have hzero : 0 ≤ req.openedAt.toInt / hour :=
      Int.ediv_nonneg (Int64.le_iff_toInt_le.mp hopen) (by decide)
    have hlt := Int64.toInt_lt req.openedAt
    have hle : req.openedAt.toInt / hour ≤ req.openedAt.toInt :=
      Int.ediv_le_self _ (Int64.le_iff_toInt_le.mp hopen)
    -- the hour after the open hour, at which the block is due
    have hdue := toNat_ofInt (n := req.openedAt.toInt / hour + 1) (by omega) (by omega)
    obtain ⟨h, hkey, hn⟩ := listed_iff.mp
      (hlisted (UInt64.ofInt (req.openedAt.toInt / hour + 1)) (by omega) (by omega))
    rw [hsucc (by omega)] at hn
    rcases (expiryKey_of_seal hrun h).mp hkey with rfl | hold
    · rw [hdefault, show defaultRetentionHours.toNat = 43800 from rfl] at hexp
      omega
    · exact hnone ⟨h, hold, by omega⟩
  · rintro (hlong | ⟨h, hsome, hle⟩) n hn hn'
    · obtain ⟨hup, hsmall⟩ := retentionHours_of_le hlong hbound
      refine listed_iff.mpr ⟨req.expiryHour, (expiryKey_of_seal hrun _).mpr (Or.inl rfl), ?_⟩
      have hexp := toNat_expiryHour hopen hsmall
      rw [hsucc hn']
      omega
    · refine listed_iff.mpr ⟨h, (expiryKey_of_seal hrun _).mpr (Or.inr hsome), ?_⟩
      rw [hsucc hn']
      omega

end Sealed

/-! ### Half an hour, and an hour -/

/-- A block of one row, to be kept for `m` minutes. -/
def keptFor (m : Nat) : SealRequest := { oneRow with retention := m * minute }

/-- The world after sealing it in an empty directory. -/
def sealedFor (m : Nat) : World :=
  ((sealBlock Libs.plain (keptFor m)).run.exec ⟨Pebble.empty, fun _ => none, 0⟩).2

theorem runs_keptFor {m : Nat} (h : ((sealBlock Libs.plain (keptFor m)).run.exec
    ⟨Pebble.empty, fun _ => none, 0⟩).1 = .ok oneRow.blockID) :
    ∃ ws, Runs sem (sealBlock Libs.plain (keptFor m)).run ⟨Pebble.empty, fun _ => none, 0⟩ ws
      (.ok oneRow.blockID) (sealedFor m) := by
  have hrun := runs_procExec (sealBlock Libs.plain (keptFor m)).run
    ⟨Pebble.empty, fun _ => none, 0⟩
  rw [h] at hrun
  exact ⟨_, hrun⟩

/-- **A retention of half an hour keeps a block for five years.** -/
theorem halfHour_kept : ∃ ws, Runs sem (sealBlock Libs.plain (keptFor 30)).run
    ⟨Pebble.empty, fun _ => none, 0⟩ ws (.ok oneRow.blockID) (sealedFor 30) ∧
    (keptFor 30).retention = 30 * minute ∧
    (keptFor 30).openedAt.toInt / hour + hoursUp (30 * minute) ≤ (43799 : UInt64).toNat ∧
    ¬ Listed (sealedFor 30) 43799 oneRow.blockID := by
  obtain ⟨ws, hrun⟩ := runs_keptFor (m := 30) (by decide +kernel)
  refine ⟨ws, hrun, rfl, by decide, fun hlisted => ?_⟩
  obtain ⟨h, hkey, hlt⟩ := listed_iff.mp hlisted
  rcases (expiryKey_of_seal hrun h).mp hkey with rfl | hold
  · revert hlt
    decide +kernel
  · cases hold

/-- A retention of an hour is kept: the block is listed at hour 1. -/
theorem seal_listed_iff_oneHour : hour ≤ (keptFor 60).retention ∧
    Listed (sealedFor 60) 1 oneRow.blockID := by
  obtain ⟨ws, hrun⟩ := runs_keptFor (m := 60) (by decide +kernel)
  refine ⟨by decide, ?_⟩
  exact (seal_listed_iff Libs.plain (keptFor 60) _ _ ws _ 60 (by decide) rfl (by decide)
    (by decide) hrun).mpr (Or.inl (by decide)) 1 (by decide) (by decide)

end Bbdb.Ttl
