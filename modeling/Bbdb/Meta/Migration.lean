import Bbdb.Meta.KeySpace
import Bbdb.Meta.Store

/-!
# Meta — migration state

The state of a tier migration, kept under the block's `mgr` key while it
runs. `ScanInProgressMigrations` returns the blocks that have such a key,
whatever it holds: the `InProgress` byte is read back by `GetMigrationMeta`
and asked for by nobody.
-/

namespace Bbdb.Meta

open Bbdb.Bytes
open Prog hiding pure bind

structure MigrationMeta where
  dstTier : Tier
  inProgress : Bool
  deriving DecidableEq, Repr

def migrationMetaSize : Nat := 2

def encodeMigrationMeta (m : MigrationMeta) : Bytes :=
  [m.dstTier, if m.inProgress then 1 else 0]

def decodeMigrationMeta (val : Bytes) : Except Err MigrationMeta :=
  if val.length < migrationMetaSize then .error (.msg "migration meta too short")
  else .ok { dstTier := val.getD 0 0, inProgress := val.getD 1 0 = 1 }

def putMigrationMeta (id : BlockID) (m : MigrationMeta) : Go Unit :=
  dbSet (migrationKey id) (encodeMigrationMeta m)

def getMigrationMeta (id : BlockID) : Go MigrationMeta :=
  ExceptT.mk do
    match ← (dbGet (migrationKey id)).run with
    | .ok val => pure (decodeMigrationMeta val)
    | .error e => pure (.error (if Err.is .pebbleNotFound e then .notFound else e))

def deleteMigrationMeta (id : BlockID) : Go Unit := dbDelete (migrationKey id)

/-- The end of the family. -/
def migrationFamilyEnd : Bytes :=
  [prefixMigr.getD 0 0, prefixMigr.getD 1 0, prefixMigr.getD 2 0, prefixMigr.getD 3 0 + 1]

/-- The block id of a key; one that does not parse is skipped. -/
def migrationID (p : Bytes × Bytes) : Option BlockID := (parseMigrationKey p.1).toOption

def migrationIDs (entries : List (Bytes × Bytes)) : List BlockID := entries.filterMap migrationID

def scanInProgressMigrations : Go (List BlockID) := do
  let entries ← dbIter prefixMigr migrationFamilyEnd
  pure (migrationIDs entries)

/-! ## What is read back -/

theorem decodeMigrationMeta_encodeMigrationMeta (m : MigrationMeta) :
    decodeMigrationMeta (encodeMigrationMeta m) = .ok m := by
  obtain ⟨tier, inProgress⟩ := m
  cases inProgress <;> rfl

theorem mem_migrationFamily {k : Bytes} :
    (prefixMigr ≤ k ∧ k < migrationFamilyEnd) ↔ prefixMigr <+: k := by
  have hlow : prefixMigr = prefixMigr.take 3 ++ [0] := rfl
  have hup : migrationFamilyEnd = prefixMigr.take 3 ++ [1] := rfl
  rw [hup, hlow]
  refine mem_prefixRange (by decide) fun x hx hx' => ?_
  rw [UInt8.lt_iff_toNat_lt] at hx hx'
  have h0 : (0 : UInt8).toNat = 0 := rfl
  have h1 : (1 : UInt8).toNat = 1 := rfl
  omega

theorem parseMigrationKey_ok {k : Bytes} {id : BlockID} :
    parseMigrationKey k = .ok id ↔ k = migrationKey id ∧ id ≠ [] := by
  constructor
  · intro h
    have hk : k = migrationKey id := (append_of_parseTagged h).symm
    refine ⟨hk, ?_⟩
    rintro rfl
    rw [hk] at h
    cases h
  · rintro ⟨rfl, hid⟩
    exact parseTagged_append rfl hid _

theorem migrationKey_of_migrationID {p : Bytes × Bytes} {id : BlockID}
    (h : migrationID p = some id) : p.1 = migrationKey id ∧ id ≠ [] := by
  unfold migrationID at h
  cases hp : parseMigrationKey p.1 with
  | error e =>
      rw [hp] at h
      cases h
  | ok id' =>
      rw [hp] at h
      cases h
      exact parseMigrationKey_ok.mp hp

/-- The scan finds the blocks that have a key. -/
theorem mem_migrationIDs {m : KV} {id : BlockID} :
    id ∈ migrationIDs (m.range prefixMigr migrationFamilyEnd) ↔
      id ≠ [] ∧ (m.get (migrationKey id)).isSome := by
  rw [migrationIDs, List.mem_filterMap]
  constructor
  · rintro ⟨⟨k, v⟩, hmem, hp⟩
    obtain ⟨rfl, hid⟩ := migrationKey_of_migrationID hp
    rw [(OrdMap.mem_range.mp hmem).1]
    exact ⟨hid, rfl⟩
  · rintro ⟨hid, hsome⟩
    obtain ⟨v, hv⟩ := Option.isSome_iff_exists.mp hsome
    have hrange := mem_migrationFamily.mpr (List.prefix_append prefixMigr id)
    refine ⟨(migrationKey id, v), OrdMap.mem_range.mpr ⟨hv, hrange⟩, ?_⟩
    rw [migrationID, parseMigrationKey_ok.mpr ⟨rfl, hid⟩]
    rfl

/-- In ascending order, each once. -/
theorem migrationIDs_sorted (m : KV) :
    (migrationIDs (m.range prefixMigr migrationFamilyEnd)).Pairwise (· < ·) := by
  rw [migrationIDs, List.pairwise_filterMap]
  refine (m.range_sorted prefixMigr migrationFamilyEnd).imp fun {a b} hlt x hx y hy => ?_
  rw [(migrationKey_of_migrationID hx).1, (migrationKey_of_migrationID hy).1] at hlt
  exact (append_lt_append_left _ _ _).mp hlt

end Bbdb.Meta
