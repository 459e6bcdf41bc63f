import Bbdb.Meta.ExpiryScan
import Bbdb.Meta.Migration
import Bbdb.Meta.WalRange
import Mathlib.Logic.Function.Basic

/-!
# Meta — what the metadata store is for

Pebble holds byte strings under byte strings. What package `meta` keeps there
is a table: each `Key` is unbound or has a value of its own type — the data
of a WAL entry, a shard's last sequence number, a block's metadata, a
migration state, or nothing but its presence. `Catalog` is that table with the
changes that are not yet durable, `Call` are the functions that write, and
`Catalog.Step` says what each of them is for, also if it fails or is cut off by
a crash.

`Rep` relates a pebble to the catalog it stands for. Every call keeps it
(`Rep.run`), and every read returns what the table says (`ReadsExact`): the
byte layout of the keys and values, the key ranges of the scans and the
batches are seen by nobody outside the package (`meta_store_refines`).
-/

namespace Bbdb.Meta

open Bbdb.Bytes
open Prog hiding pure bind

/-! ## The table -/

/-- What is kept under a key. -/
def Key.Val : Key → Type
  | .wal _ _ => Bytes
  | .block _ => BlockMeta
  | .idx _ _ _ => Unit
  | .expiry _ _ => Unit
  | .seq _ => UInt64
  | .migration _ => MigrationMeta

abbrev Table := (k : Key) → Option k.Val

/-- The bytes of a value. -/
def Key.encodeVal : (k : Key) → k.Val → Bytes
  | .wal _ _, data => data
  | .block _, m => encodeBlockMeta m
  | .idx _ _ _, _ => []
  | .expiry _ _, _ => []
  | .seq _, n => putUint64 n
  | .migration _, m => encodeMigrationMeta m

/-- One change of the table. -/
inductive Change
  | set (k : Key) (v : k.Val)
  | delete (k : Key)
  /-- All WAL entries of a shard. -/
  | clearWAL (shard : ShardID)

/-- Clearing the WAL does nothing for the last shard. -/
def Change.apply : Change → Table → Table
  | .set k v, T => Function.update T k (some v)
  | .delete k, T => Function.update T k none
  | .clearWAL s, T => fun k =>
      match k with
      | .wal t q => if t = s ∧ s ≠ 0xffff then none else T (.wal t q)
      | k => T k

def Change.op : Change → BatchOp
  | .set k v => .set k.encode (k.encodeVal v)
  | .delete k => .delete k.encode
  | .clearWAL s => .deleteRange (walKeyStart s) (walKeyEnd s)

def applyAll (changes : List Change) (T : Table) : Table := changes.foldl (fun T c => c.apply T) T

/-- The table, and the changes since the last one that is sure to survive. -/
structure Catalog where
  synced : Table
  pending : List (List Change)

def Catalog.empty : Catalog := ⟨fun _ => none, []⟩

/-- What a reader sees. -/
def Catalog.now (C : Catalog) : Table := C.pending.foldl (fun T b => applyAll b T) C.synced

/-- Changes made together, durable or not. -/
def Catalog.commit (C : Catalog) (b : List Change) (sync : Bool) : Catalog :=
  if sync then ⟨applyAll b C.now, []⟩ else { C with pending := C.pending ++ [b] }

/-- After a crash the last of the pending changes can be gone. -/
def Catalog.Crash (C C' : Catalog) : Prop :=
  ∃ n, C' = ⟨(C.pending.take n).foldl (fun T b => applyAll b T) C.synced, []⟩

/-! ## The calls -/

/-- The functions of the package that write. -/
inductive Call
  | walNextSeq (shard : ShardID)
  | walAppend (shard : ShardID) (data : Bytes)
  | walTruncate (shard : ShardID)
  | putBlockMeta (id : BlockID) (m : BlockMeta)
  | deleteBlockMeta (id : BlockID)
  | sealBatch (shard : ShardID) (id : BlockID) (bm : BlockMeta) (expiryHour : UInt64)
  | putIdxBatch (eventType : UInt8) (keyHashes : List UInt64) (id : BlockID)
  | putExpiryKey (unixHour : UInt64) (id : BlockID)
  | deleteExpiryKey (unixHour : UInt64) (id : BlockID)
  | deleteBlockAndExpiry (unixHour : UInt64) (id : BlockID)
  | putMigrationMeta (id : BlockID) (m : MigrationMeta)
  | deleteMigrationMeta (id : BlockID)

/-- The call, without the number that `WALNextSeq` returns. -/
def Call.prog : Call → Go Unit
  | .walNextSeq shard => do
      let _ ← Meta.walNextSeq shard
  | .walAppend shard data => Meta.walAppend shard data
  | .walTruncate shard => Meta.walTruncate shard
  | .putBlockMeta id m => Meta.putBlockMeta id m
  | .deleteBlockMeta id => Meta.deleteBlockMeta id
  | .sealBatch shard id bm expiryHour => Meta.sealBatch shard id bm expiryHour
  | .putIdxBatch eventType keyHashes id => Meta.putIdxBatch eventType keyHashes id
  | .putExpiryKey unixHour id => Meta.putExpiryKey unixHour id
  | .deleteExpiryKey unixHour id => Meta.deleteExpiryKey unixHour id
  | .deleteBlockAndExpiry unixHour id => Meta.deleteBlockAndExpiry unixHour id
  | .putMigrationMeta id m => Meta.putMigrationMeta id m
  | .deleteMigrationMeta id => Meta.deleteMigrationMeta id

/-- The sequence number that comes next. -/
def Table.nextSeq (T : Table) (shard : ShardID) : UInt64 :=
  match T (.seq shard) with
  | none => 0
  | some (n : UInt64) => n + 1

/-- What a call changes, and what it has changed halfway: `WALAppend` counts
before it stores. -/
def Call.changes (T : Table) : Call → List Change
  | .walNextSeq shard => [.set (.seq shard) (T.nextSeq shard)]
  | .walAppend shard data => [.set (.wal shard (T.nextSeq shard)) data]
  | .walTruncate shard => [.clearWAL shard]
  | .putBlockMeta id m => [.set (.block id) m]
  | .deleteBlockMeta id => [.delete (.block id)]
  | .sealBatch shard id bm expiryHour =>
      [.clearWAL shard, .set (.block id) bm, .set (.expiry expiryHour id) ()]
  | .putIdxBatch eventType keyHashes id => keyHashes.map fun h => .set (.idx eventType h id) ()
  | .putExpiryKey unixHour id => [.set (.expiry unixHour id) ()]
  | .deleteExpiryKey unixHour id => [.delete (.expiry unixHour id)]
  | .deleteBlockAndExpiry unixHour id => [.delete (.block id), .delete (.expiry unixHour id)]
  | .putMigrationMeta id m => [.set (.migration id) m]
  | .deleteMigrationMeta id => [.delete (.migration id)]

/-- Only index entries are written without waiting for the disk. -/
def Call.sync : Call → Bool
  | .putIdxBatch _ _ _ => false
  | _ => true

/-- Halfway through a call. -/
def Call.halfway : Call → Catalog → Catalog
  | .walAppend shard _, C => C.commit [.set (.seq shard) (C.now.nextSeq shard)] true
  | _, C => C

/-- What a call is for. -/
def Call.effect (c : Call) (C : Catalog) : Catalog :=
  (c.halfway C).commit (c.changes C.now) c.sync

/-- What happened to a call: it returned no error, it returned one, or a crash
came, in the middle of a call or between two. -/
inductive Outcome
  | done (c : Call)
  | failed (c : Call)
  | crashed (c : Option Call)

/-- **What the package promises.** -/
inductive Catalog.Step : Catalog → Outcome → Catalog → Prop
  | done {C c} : Catalog.Step C (.done c) (c.effect C)
  /-- A call that fails has changed nothing, or is halfway. -/
  | failed {C c} : Catalog.Step C (.failed c) C
  | failedHalfway {C c} : Catalog.Step C (.failed c) (c.halfway C)
  | crashed {C C'} : C.Crash C' → Catalog.Step C (.crashed none) C'
  | cut {C C' c} : C.Crash C' → Catalog.Step C (.crashed (some c)) C'
  | cutHalfway {C C' c} : (c.halfway C).Crash C' → Catalog.Step C (.crashed (some c)) C'

/-- One outcome after another. -/
inductive Catalog.Run (C₀ : Catalog) : List Outcome → Catalog → Prop
  | nil : Catalog.Run C₀ [] C₀
  | step {C C' os o} : Catalog.Run C₀ os C → Catalog.Step C o C' → Catalog.Run C₀ (os ++ [o]) C'

/-- The calls on pebble, one after another, each with any failures, and crashes
anywhere. -/
inductive MetaRun (w₀ : World) : List Outcome → World → Prop
  | nil : MetaRun w₀ [] w₀
  | done {w w' os c ws} : MetaRun w₀ os w → Runs sem (Call.prog c).run w ws (.ok ()) w' →
      MetaRun w₀ (os ++ [.done c]) w'
  | failed {w w' os c ws e} : MetaRun w₀ os w → Runs sem (Call.prog c).run w ws (.error e) w' →
      MetaRun w₀ (os ++ [.failed c]) w'
  | crashed {w w' os} : MetaRun w₀ os w → w.Crash w' → MetaRun w₀ (os ++ [.crashed none]) w'
  | cut {w x w' os c ws} : MetaRun w₀ os w → Cuts sem (Call.prog c).run w ws x → x.Crash w' →
      MetaRun w₀ (os ++ [.crashed (some c)]) w'

/-! ## What a pebble stands for -/

/-- The bindings are those of the table, and there is nothing else. -/
structure Table.Rep (m : KV) (T : Table) : Prop where
  bound : ∀ k : Key, m.get k.encode = (T k).map k.encodeVal
  keys : ∀ b v, m.get b = some v → ∃ k : Key, b = k.encode

section Rep

variable {m : KV} {T : Table}

/-- The truncation range of a shard holds its own entries and no other keys. -/
theorem encode_mem_walRange {s : ShardID} {k : Key} :
    (walKeyStart s ≤ k.encode ∧ k.encode < walKeyEnd s) ↔ s ≠ 0xffff ∧ ∃ q, k = .wal s q := by
  by_cases hk : k.family = .wal
  · cases k with
    | wal t q =>
        refine mem_walRange.trans ⟨?_, ?_⟩
        · rintro ⟨rfl, hs⟩
          exact ⟨hs, q, rfl⟩
        · rintro ⟨hs, q', he⟩
          cases he
          exact ⟨rfl, hs⟩
    | _ => cases hk
  · refine ⟨fun hr => absurd (family_of_mem_walRange hr.1 hr.2) ?_, ?_⟩
    · rw [family_encode]
      exact fun he => hk (tag_inj he)
    · rintro ⟨-, q, rfl⟩
      exact absurd rfl hk

theorem clearWAL_of_not {s : ShardID} {k : Key} (h : ¬ (s ≠ 0xffff ∧ ∃ q, k = .wal s q)) :
    (Change.clearWAL s).apply T k = T k := by
  cases k with
  | wal t q =>
      refine if_neg fun hts => h ⟨hts.2, q, ?_⟩
      rw [hts.1]
  | _ => rfl

theorem Table.Rep.change (h : T.Rep m) (c : Change) : (c.apply T).Rep (c.op.apply m) := by
  cases c with
  | set k v =>
      refine ⟨fun k' => ?_, fun b x hb => ?_⟩
      · show (m.set k.encode (k.encodeVal v)).get k'.encode = _
        rw [OrdMap.get_set]
        by_cases hk : k' = k
        · subst hk
          simp [Change.apply]
        · have hne : ¬ k'.encode = k.encode := fun he => hk (encode_inj he)
          simp [Change.apply, hk, hne, h.bound k']
      · change (m.set k.encode (k.encodeVal v)).get b = some x at hb
        rw [OrdMap.get_set] at hb
        split_ifs at hb with he
        · exact ⟨k, he⟩
        · exact h.keys b x hb
  | delete k =>
      refine ⟨fun k' => ?_, fun b x hb => ?_⟩
      · show (m.erase k.encode).get k'.encode = _
        rw [OrdMap.get_erase]
        by_cases hk : k' = k
        · subst hk
          simp [Change.apply]
        · have hne : ¬ k'.encode = k.encode := fun he => hk (encode_inj he)
          simp [Change.apply, hk, hne, h.bound k']
      · change (m.erase k.encode).get b = some x at hb
        rw [OrdMap.get_erase] at hb
        split_ifs at hb
        exact h.keys b x hb
  | clearWAL s =>
      refine ⟨fun k' => ?_, fun b x hb => ?_⟩
      · show (m.eraseRange (walKeyStart s) (walKeyEnd s)).get k'.encode = _
        rw [OrdMap.get_eraseRange]
        by_cases hk : s ≠ 0xffff ∧ ∃ q, k' = .wal s q
        · rw [if_pos (encode_mem_walRange.mpr hk)]
          obtain ⟨hs, q, rfl⟩ := hk
          simp [Change.apply, hs]
        · rw [if_neg fun hr => hk (encode_mem_walRange.mp hr), h.bound k', clearWAL_of_not hk]
      · change (m.eraseRange (walKeyStart s) (walKeyEnd s)).get b = some x at hb
        rw [OrdMap.get_eraseRange] at hb
        split_ifs at hb
        exact h.keys b x hb

theorem Table.Rep.changes (h : T.Rep m) (b : List Change) :
    (applyAll b T).Rep (Batch.apply (b.map Change.op) m) := by
  induction b generalizing m T with
  | nil => exact h
  | cons c b ih => exact ih (h.change c)

theorem Table.Rep.batches (h : T.Rep m) (bs : List (List Change)) :
    Table.Rep ((bs.map (List.map Change.op)).foldl (fun m b => Batch.apply b m) m)
      (bs.foldl (fun T b => applyAll b T) T) := by
  induction bs generalizing m T with
  | nil => exact h
  | cons b bs ih => exact ih (h.changes b)

theorem Table.Rep.freshSeq (h : T.Rep m) (s : ShardID) : Meta.freshSeq s m = T.nextSeq s := by
  have hbound : m.get (walSeqKey s) = (T (.seq s)).map putUint64 := h.bound (.seq s)
  rw [Meta.freshSeq, Table.nextSeq, hbound]
  cases T (.seq s) with
  | none => rfl
  | some n => exact congrArg (· + 1) (getUint64_put_nil n)

end Rep

/-- **The pebble stands for the catalog**, durable state and pending batches. -/
structure Rep (w : World) (C : Catalog) : Prop where
  synced : C.synced.Rep w.db.synced
  pending : w.db.pending = C.pending.map (List.map Change.op)

section Run

variable {w w' : World} {C : Catalog} {ws : List World}

theorem Rep.now (h : Rep w C) : C.now.Rep w.db.view := by
  rw [Pebble.view, h.pending]
  exact h.synced.batches C.pending

theorem Rep.commit (h : Rep w C) (b : List Change) (sync : Bool) :
    Rep (w.commit (b.map Change.op) sync) (C.commit b sync) := by
  cases sync with
  | true => exact ⟨h.now.changes b, rfl⟩
  | false =>
      refine ⟨h.synced, ?_⟩
      show w.db.pending ++ [b.map Change.op] = (C.pending ++ [b]).map (List.map Change.op)
      rw [h.pending, List.map_append, List.map_singleton]

theorem Rep.crash (h : Rep w C) (hc : w.Crash w') : ∃ C', C.Crash C' ∧ Rep w' C' := by
  obtain ⟨n, hdb⟩ := hc.db
  refine ⟨_, ⟨n, rfl⟩, ?_, ?_⟩
  · rw [hdb, h.pending, ← List.map_take]
    exact h.synced.batches _
  · rw [hdb]
    rfl

theorem Rep.freshSeq (h : Rep w C) (s : ShardID) : freshSeq s w.db.view = C.now.nextSeq s :=
  h.now.freshSeq s

/-- `WALNextSeq` leaves the catalog halfway. -/
theorem Rep.halfway (h : Rep w C) (s : ShardID) (data : Bytes) :
    Rep (w.commit [.set (walSeqKey s) (putUint64 (Meta.freshSeq s w.db.view))] true)
      ((Call.walAppend s data).halfway C) := by
  rw [h.freshSeq]
  exact h.commit [.set (.seq s) (C.now.nextSeq s)] true

/-- The calls that commit one batch and do nothing else. -/
def Call.OneBatch : Call → Prop
  | .walNextSeq _ | .walAppend _ _ => False
  | _ => True

theorem Call.prog_eq (T : Table) (c : Call) (hc : c.OneBatch) :
    c.prog = batchCommit ((c.changes T).map Change.op) c.sync := by
  cases c with
  | walNextSeq s => exact hc.elim
  | walAppend s data => exact hc.elim
  | putIdxBatch et hs id =>
      show batchCommit (idxOps et hs id) false = _
      rw [idxOps, Call.changes, List.map_map]
      rfl
  | _ => rfl

theorem Call.halfway_eq (c : Call) (hc : c.OneBatch) (C : Catalog) : c.halfway C = C := by
  cases c with
  | walAppend s data => exact hc.elim
  | _ => rfl

theorem cuts_batchCommit {b : Batch} {sync : Bool} (h : Cuts sem (batchCommit b sync).run w ws w') :
    w' = w := by
  rcases h with ⟨-, rfl⟩ | ⟨r, w₁, ws', -, -, hk⟩
  · rfl
  · exact hk.elim

theorem Rep.done (h : Rep w C) {c : Call} (hrun : Runs sem c.prog.run w ws (.ok ()) w') :
    Rep w' (c.effect C) := by
  have hbatch : c.OneBatch → Rep w' (c.effect C) := by
    intro hc
    rw [Call.prog_eq C.now c hc] at hrun
    rw [runs_batchCommit_ok hrun, Call.effect, Call.halfway_eq c hc]
    exact h.commit _ _
  cases c with
  | walNextSeq s =>
      obtain ⟨q, w₁, _, _, -, hnext, -, -, rfl⟩ := runs_bindE_ok.mp hrun
      obtain ⟨rfl, rfl⟩ := runs_walNextSeq hnext
      exact h.halfway s []
  | walAppend s data =>
      rw [runs_walAppend_ok hrun]
      have hnext := (h.halfway s data).commit [.set (.wal s (C.now.nextSeq s)) data] true
      rw [h.freshSeq] at hnext ⊢
      exact hnext
  | _ => exact hbatch trivial

theorem Rep.failed (h : Rep w C) {c : Call} {e : Err}
    (hrun : Runs sem c.prog.run w ws (.error e) w') : Rep w' C ∨ Rep w' (c.halfway C) := by
  have hbatch : c.OneBatch → Rep w' C ∨ Rep w' (c.halfway C) := by
    intro hc
    rw [Call.prog_eq C.now c hc] at hrun
    rw [runs_batchCommit_error hrun]
    exact Or.inl h
  cases c with
  | walNextSeq s =>
      rcases runs_bindE.mp hrun with ⟨_, -, hnext⟩ | ⟨q, w₁, _, _, -, -, -, he, -⟩
      · rw [runs_walNextSeq_error hnext]
        exact Or.inl h
      · cases he
  | walAppend s data =>
      rcases runs_bindE.mp hrun with ⟨_, -, hnext⟩ | ⟨q, w₁, _, _, -, hnext, hset⟩
      · rw [runs_walNextSeq_error hnext]
        exact Or.inl h
      · obtain ⟨rfl, rfl⟩ := runs_walNextSeq hnext
        rw [runs_batchCommit_error hset]
        exact Or.inr (h.halfway s data)
  | _ => exact hbatch trivial

theorem Rep.cut (h : Rep w C) {c : Call} (hcut : Cuts sem c.prog.run w ws w') :
    Rep w' C ∨ Rep w' (c.halfway C) := by
  have hbatch : c.OneBatch → Rep w' C ∨ Rep w' (c.halfway C) := by
    intro hc
    rw [Call.prog_eq C.now c hc] at hcut
    rw [cuts_batchCommit hcut]
    exact Or.inl h
  cases c with
  | walNextSeq s =>
      rcases cuts_bindE.mp hcut with hnext | ⟨q, w₁, _, _, -, -, hpure⟩
      · rw [cuts_walNextSeq hnext]
        exact Or.inl h
      · exact hpure.elim
  | walAppend s data =>
      rcases cuts_bindE.mp hcut with hnext | ⟨q, w₁, _, _, -, hnext, hset⟩
      · rw [cuts_walNextSeq hnext]
        exact Or.inl h
      · obtain ⟨rfl, rfl⟩ := runs_walNextSeq hnext
        rw [cuts_batchCommit hset]
        exact Or.inr (h.halfway s data)
  | _ => exact hbatch trivial

/-- **Every run of calls is a run of the catalog**, with the same outcomes. -/
theorem Rep.run {w₀ : World} {C₀ : Catalog} (h : Rep w₀ C₀) {os : List Outcome}
    (hrun : MetaRun w₀ os w) : ∃ C, Catalog.Run C₀ os C ∧ Rep w C := by
  induction hrun with
  | nil => exact ⟨C₀, .nil, h⟩
  | done _ hcall ih =>
      obtain ⟨C, hC, hrep⟩ := ih
      exact ⟨_, hC.step .done, hrep.done hcall⟩
  | failed _ hcall ih =>
      obtain ⟨C, hC, hrep⟩ := ih
      rcases hrep.failed hcall with hrep | hrep
      · exact ⟨_, hC.step .failed, hrep⟩
      · exact ⟨_, hC.step .failedHalfway, hrep⟩
  | crashed _ hcrash ih =>
      obtain ⟨C, hC, hrep⟩ := ih
      obtain ⟨C', hC', hrep'⟩ := hrep.crash hcrash
      exact ⟨C', hC.step (.crashed hC'), hrep'⟩
  | cut _ hcut hcrash ih =>
      obtain ⟨C, hC, hrep⟩ := ih
      rcases hrep.cut hcut with hrep | hrep
      · obtain ⟨C', hC', hrep'⟩ := hrep.crash hcrash
        exact ⟨C', hC.step (.cut hC'), hrep'⟩
      · obtain ⟨C', hC', hrep'⟩ := hrep.crash hcrash
        exact ⟨C', hC.step (.cutHalfway hC'), hrep'⟩

end Run

/-! ## What is read -/

/-- Without an error of pebble the function returns `a`, and whenever it
succeeds it returns `a`. It changes nothing. -/
def Returns {α : Type} (p : Go α) (w : World) (a : α) : Prop :=
  p.run.exec w = (.ok a, w) ∧ ∀ r ws w', Runs sem p.run w ws (.ok r) w' → r = a ∧ w' = w

/-- Without an error of pebble the function returns the error `e`, and it never
succeeds. -/
def Fails {α : Type} (p : Go α) (w : World) (e : Err) : Prop :=
  p.run.exec w = (.error e, w) ∧ ∀ r ws w', ¬ Runs sem p.run w ws (.ok r) w'

/-- The functions of the package that read, by what the table says. -/
structure ReadsExact (w : World) (T : Table) : Prop where
  /-- What `WALNextSeq` does to the table is one of the calls. -/
  nextSeq : ∀ s, ((walNextSeq s).run.exec w).1 = .ok (T.nextSeq s) ∧
    ∀ q ws w', Runs sem (walNextSeq s).run w ws (.ok q) w' → q = T.nextSeq s
  blockMeta : ∀ id bm, T (.block id) = some bm → Returns (getBlockMeta id) w bm
  noBlockMeta : ∀ id, T (.block id) = none →
    Fails (getBlockMeta id) w (.wrap ("block " ++ Text.quote id) .notFound)
  migrationMeta : ∀ id mm, T (.migration id) = some mm → Returns (getMigrationMeta id) w mm
  noMigrationMeta : ∀ id, T (.migration id) = none → Fails (getMigrationMeta id) w .notFound
  /-- The data of the entries in the order of their numbers; of the last shard,
  none. -/
  walScan : ∀ s, ∃ entries : List (UInt64 × Bytes),
    (∀ q data, (q, data) ∈ entries ↔ s ≠ 0xffff ∧ T (.wal s q) = some data) ∧
    entries.Pairwise (fun a b => a.1 < b.1) ∧ Returns (Meta.walScan s) w (entries.map Prod.snd)
  orphans : ∀ range, ∃ shards : List ShardID,
    (∀ s, s ∈ shards ↔ s ≠ 0xffff ∧ ∃ q, (T (.wal s q)).isSome) ∧ shards.Nodup ∧
    (findOrphanedWALShards range).run.exec w = (.ok shards, w)
  lookup : ∀ et kh, ∃ ids : List BlockID, (∀ id, id ∈ ids ↔ (T (.idx et kh id)).isSome) ∧
    ids.Pairwise (· < ·) ∧ Returns (idxLookupBlocks et kh) w ids
  expired : ∀ n : UInt64, n.toNat < 2 ^ 64 - 1 → ∃ entries : List ExpiredEntry,
    (∀ e, e ∈ entries ↔ (T (.expiry e.hour e.id)).isSome ∧ e.hour ≤ n) ∧
    entries.Pairwise ExpiredEntry.Before ∧ Returns (scanExpiredEntries n) w entries ∧
    Returns (scanExpired n) w (entries.map ExpiredEntry.id)
  /-- Whatever their state, and but for an empty id. -/
  migrations : ∃ ids : List BlockID, (∀ id, id ∈ ids ↔ id ≠ [] ∧ (T (.migration id)).isSome) ∧
    ids.Pairwise (· < ·) ∧ Returns scanInProgressMigrations w ids

section Reads

variable {w : World} {T : Table}

/-- A scan with one iterator. -/
theorem returns_dbIter {α : Type} (lo hi : Bytes) (f : List (Bytes × Bytes) → α) (w : World) :
    Returns (do let entries ← dbIter lo hi; pure (f entries)) w (f (w.db.view.range lo hi)) := by
  refine ⟨rfl, fun r ws w' hrun => ?_⟩
  obtain ⟨hw, hr⟩ := runs_dbIter_map hrun
  exact ⟨hr, hw⟩

theorem runs_dbGet_ok {k v : Bytes} {w' : World} {ws : List World}
    (h : Runs sem (dbGet k).run w ws (.ok v) w') : w' = w ∧ w.db.view.get k = some v := by
  rcases (runs_call.mp h).1 with hs | ⟨he, -⟩
  · simp only [Op.exec] at hs
    cases hval : w.db.view.get k with
    | none =>
        rw [hval] at hs
        cases hs
    | some x =>
        rw [hval] at hs
        cases hs
        exact ⟨rfl, rfl⟩
  · cases he

theorem runs_getBlockMeta_ok {id : BlockID} {bm : BlockMeta} {w' : World} {ws : List World}
    (h : Runs sem (getBlockMeta id).run w ws (.ok bm) w') :
    w' = w ∧ ∃ v, w.db.view.get (blockKey id) = some v ∧ decodeBlockMeta v = .ok bm := by
  obtain ⟨res, w₁, _, _, -, hget, hk⟩ := runs_bind.mp h
  cases res with
  | error e =>
      dsimp only at hk
      split_ifs at hk
      all_goals
        obtain ⟨-, hr, -⟩ := hk
        cases hr
  | ok v =>
      obtain ⟨-, hr, rfl⟩ := hk
      obtain ⟨rfl, hval⟩ := runs_dbGet_ok hget
      exact ⟨rfl, v, hval, hr.symm⟩

theorem runs_getMigrationMeta_ok {id : BlockID} {mm : MigrationMeta} {w' : World}
    {ws : List World} (h : Runs sem (getMigrationMeta id).run w ws (.ok mm) w') :
    w' = w ∧ ∃ v, w.db.view.get (migrationKey id) = some v ∧ decodeMigrationMeta v = .ok mm := by
  obtain ⟨res, w₁, _, _, -, hget, hk⟩ := runs_bind.mp h
  cases res with
  | error e =>
      obtain ⟨-, hr, -⟩ := hk
      cases hr
  | ok v =>
      obtain ⟨-, hr, rfl⟩ := hk
      obtain ⟨rfl, hval⟩ := runs_dbGet_ok hget
      exact ⟨rfl, v, hval, hr.symm⟩

theorem Table.Rep.blockMeta (h : T.Rep w.db.view) {id : BlockID} {bm : BlockMeta}
    (hid : T (.block id) = some bm) : Returns (getBlockMeta id) w bm := by
  have hget : w.db.view.get (blockKey id) = some (encodeBlockMeta bm) := by
    refine (h.bound (.block id)).trans ?_
    rw [hid]
    rfl
  refine ⟨?_, fun r ws w' hrun => ?_⟩
  · refine (exec_bind_of (exec_dbGet hget)).trans ?_
    show (decodeBlockMeta (encodeBlockMeta bm), w) = _
    rw [decodeBlockMeta_encodeBlockMeta]
  · obtain ⟨rfl, v, hv, hdec⟩ := runs_getBlockMeta_ok hrun
    rw [hget] at hv
    cases hv
    rw [decodeBlockMeta_encodeBlockMeta] at hdec
    cases hdec
    exact ⟨rfl, rfl⟩

theorem Table.Rep.noBlockMeta (h : T.Rep w.db.view) {id : BlockID} (hid : T (.block id) = none) :
    Fails (getBlockMeta id) w (.wrap ("block " ++ Text.quote id) .notFound) := by
  have hget : w.db.view.get (blockKey id) = none := by
    refine (h.bound (.block id)).trans ?_
    rw [hid]
    rfl
  refine ⟨exec_bind_of (exec_dbGet_none hget), fun r ws w' hrun => ?_⟩
  obtain ⟨-, v, hv, -⟩ := runs_getBlockMeta_ok hrun
  rw [hget] at hv
  cases hv

theorem Table.Rep.migrationMeta (h : T.Rep w.db.view) {id : BlockID} {mm : MigrationMeta}
    (hid : T (.migration id) = some mm) : Returns (getMigrationMeta id) w mm := by
  have hget : w.db.view.get (migrationKey id) = some (encodeMigrationMeta mm) := by
    refine (h.bound (.migration id)).trans ?_
    rw [hid]
    rfl
  refine ⟨?_, fun r ws w' hrun => ?_⟩
  · refine (exec_bind_of (exec_dbGet hget)).trans ?_
    show (decodeMigrationMeta (encodeMigrationMeta mm), w) = _
    rw [decodeMigrationMeta_encodeMigrationMeta]
  · obtain ⟨rfl, v, hv, hdec⟩ := runs_getMigrationMeta_ok hrun
    rw [hget] at hv
    cases hv
    rw [decodeMigrationMeta_encodeMigrationMeta] at hdec
    cases hdec
    exact ⟨rfl, rfl⟩

theorem Table.Rep.noMigrationMeta (h : T.Rep w.db.view) {id : BlockID}
    (hid : T (.migration id) = none) : Fails (getMigrationMeta id) w .notFound := by
  have hget : w.db.view.get (migrationKey id) = none := by
    refine (h.bound (.migration id)).trans ?_
    rw [hid]
    rfl
  refine ⟨exec_bind_of (exec_dbGet_none hget), fun r ws w' hrun => ?_⟩
  obtain ⟨-, v, hv, -⟩ := runs_getMigrationMeta_ok hrun
  rw [hget] at hv
  cases hv

theorem result_walNextSeq (s : ShardID) (w : World) :
    ((walNextSeq s).run.exec w).1 = .ok (freshSeq s w.db.view) := by
  have hread : (readSeq s).run.exec w = (.ok (freshSeq s w.db.view), w) := by
    unfold freshSeq
    cases hval : w.db.view.get (walSeqKey s) with
    | none => exact exec_bind_of (exec_dbGet_none hval)
    | some val => exact exec_bind_of (exec_dbGet hval)
  rw [walNextSeq_eq]
  exact congrArg Prod.fst (exec_bindE_of hread)

theorem Table.Rep.isSome (h : T.Rep w.db.view) (k : Key) :
    (w.db.view.get k.encode).isSome ↔ (T k).isSome := by
  rw [h.bound k, Option.isSome_map]

theorem Table.Rep.walKeys (h : T.Rep w.db.view) : WalKeys w.db.view := by
  intro b v hb hf
  obtain ⟨k, rfl⟩ := h.keys b v hb
  rw [family_encode] at hf
  have hk : k.family = .wal := tag_inj hf
  cases k with
  | wal s q => exact ⟨s, q, rfl⟩
  | _ => cases hk

theorem Table.Rep.mem_walEntries (h : T.Rep w.db.view) {s : ShardID} {q : UInt64} {data : Bytes} :
    (q, data) ∈ walEntries w.db.view s ↔ T (.wal s q) = some data := by
  have hbound : w.db.view.get (walKey s q) = T (.wal s q) := by
    refine (h.bound (.wal s q)).trans ?_
    cases T (.wal s q) <;> rfl
  rw [Meta.mem_walEntries, hbound]
  exact Iff.rfl

theorem Table.Rep.walScan (h : T.Rep w.db.view) (s : ShardID) :
    ∃ entries : List (UInt64 × Bytes),
      (∀ q data, (q, data) ∈ entries ↔ s ≠ 0xffff ∧ T (.wal s q) = some data) ∧
      entries.Pairwise (fun a b => a.1 < b.1) ∧
      Returns (Meta.walScan s) w (entries.map Prod.snd) := by
  have hscan := returns_dbIter (walKeyStart s) (walKeyEnd s) (List.map Prod.snd) w
  rw [h.walKeys.range_eq] at hscan
  by_cases hs : s = 0xffff
  · rw [if_pos hs] at hscan
    exact ⟨[], fun q data => by simp [hs], List.Pairwise.nil, hscan⟩
  · rw [if_neg hs] at hscan
    refine ⟨walEntries w.db.view s, fun q data => ?_, entries_sorted _ _ _ _, hscan⟩
    rw [h.mem_walEntries]
    exact ⟨fun hq => ⟨hs, hq⟩, fun hq => hq.2⟩

theorem Table.Rep.orphans (h : T.Rep w.db.view) (range : MapOrder) : ∃ shards : List ShardID,
    (∀ s, s ∈ shards ↔ s ≠ 0xffff ∧ ∃ q, (T (.wal s q)).isSome) ∧ shards.Nodup ∧
      (findOrphanedWALShards range).run.exec w = (.ok shards, w) := by
  have hperm := range.perm (shardsSeen (w.db.view.range prefixWAL walFamilyEnd))
  refine ⟨_, fun s => ?_, ?_, exec_bind_of (exec_scanSeen h.walKeys
    (range.order (shardsSeen (w.db.view.range prefixWAL walFamilyEnd))))⟩
  · rw [List.mem_filter, decide_eq_true_eq, hperm.mem_iff, mem_shardsSeen]
    constructor
    · rintro ⟨hne, hs, -⟩
      obtain ⟨⟨q, data⟩, hmem⟩ := List.exists_mem_of_ne_nil _ hne
      refine ⟨hs, q, ?_⟩
      rw [h.mem_walEntries.mp hmem]
      rfl
    · rintro ⟨hs, q, hq⟩
      obtain ⟨data, hdata⟩ := Option.isSome_iff_exists.mp hq
      have hne := List.ne_nil_of_mem (h.mem_walEntries.mpr hdata)
      exact ⟨hne, hs, hne⟩
  · exact (hperm.nodup_iff.mpr (List.nodup_dedup _)).filter _

/-- **Every read returns what the table says.** -/
theorem Table.Rep.reads (h : T.Rep w.db.view) : ReadsExact w T where
  nextSeq s := by
    rw [← h.freshSeq]
    exact ⟨result_walNextSeq s w, fun q ws w' hrun => (runs_walNextSeq hrun).1⟩
  blockMeta _ _ := h.blockMeta
  noBlockMeta _ := h.noBlockMeta
  migrationMeta _ _ := h.migrationMeta
  noMigrationMeta _ := h.noMigrationMeta
  walScan := h.walScan
  orphans := h.orphans
  lookup et kh := by
    refine ⟨_, fun id => ?_, idxIDs_sorted _ et kh, returns_dbIter _ _ _ w⟩
    rw [idxIDs_range]
    exact h.isSome (.idx et kh id)
  expired n hn := by
    refine ⟨_, fun e => ?_, expiredEntries_sorted _ n, returns_dbIter _ _ _ w, ?_⟩
    · rw [mem_expiredEntries_iff, lt_succ_iff hn]
      exact and_congr_left' (h.isSome (.expiry e.hour e.id))
    · rw [← expiredIDs_range]
      exact returns_dbIter _ _ _ w
  migrations := by
    refine ⟨_, fun id => ?_, migrationIDs_sorted _, returns_dbIter _ _ _ w⟩
    rw [mem_migrationIDs]
    exact and_congr_right' (h.isSome (.migration id))

end Reads

theorem rep_empty {w : World} (h : w.db = Pebble.empty) : Rep w Catalog.empty := by
  refine ⟨⟨fun k => ?_, fun b v hb => ?_⟩, by rw [h]; rfl⟩
  · rw [h]
    rfl
  · rw [h] at hb
    cases hb

/-- **The metadata store is the catalog.** From an empty pebble, after any
sequence of calls of the package, each with any errors of pebble, with crashes
in the middle of calls and between them: the outcomes are those of a run of the
catalog, and every function that reads returns what the catalog's table says. -/
theorem meta_store_refines (w₀ w : World) (hempty : w₀.db = Pebble.empty) (os : List Outcome)
    (hrun : MetaRun w₀ os w) : ∃ C, Catalog.Run Catalog.empty os C ∧ ReadsExact w C.now := by
  obtain ⟨C, hC, hrep⟩ := (rep_empty hempty).run hrun
  exact ⟨C, hC, hrep.now.reads⟩

/-- One WAL entry was appended, its block is sealed, and the machine crashes. -/
def sealedOnce : World :=
  ((sealBatch 7 [1] ⟨7, 0, 0, 0, 0, 0⟩ 5).run.exec
    ((walAppend 7 [1]).run.exec ⟨Pebble.empty, fun _ => none, 0⟩).2).2

theorem metaRun_sealedOnce : MetaRun ⟨Pebble.empty, fun _ => none, 0⟩
    [.done (.walAppend 7 [1]), .done (.sealBatch 7 [1] ⟨7, 0, 0, 0, 0, 0⟩ 5)] sealedOnce := by
  have hfirst : MetaRun ⟨Pebble.empty, fun _ => none, 0⟩ [.done (.walAppend 7 [1])] _ :=
    MetaRun.nil.done (runs_procExec (walAppend 7 [1]).run _)
  exact hfirst.done (runs_procExec (sealBatch 7 [1] ⟨7, 0, 0, 0, 0, 0⟩ 5).run _)

theorem meta_store_refines_sealedOnce : ∃ C, Catalog.Run Catalog.empty
    [.done (.walAppend 7 [1]), .done (.sealBatch 7 [1] ⟨7, 0, 0, 0, 0, 0⟩ 5)] C ∧
    ReadsExact sealedOnce C.now :=
  meta_store_refines _ _ rfl _ metaRun_sealedOnce

/-! ## Crashes -/

/-- Only index entries wait for the disk. -/
def Catalog.OnlyIdx (C : Catalog) : Prop :=
  ∀ b ∈ C.pending, ∀ c ∈ b, ∃ et kh id, c = .set (.idx et kh id) ()

theorem Catalog.Run.onlyIdx {C₀ C : Catalog} {os : List Outcome} (h₀ : C₀.OnlyIdx)
    (h : Catalog.Run C₀ os C) : C.OnlyIdx := by
  have hnone : ∀ {T : Table}, Catalog.OnlyIdx ⟨T, []⟩ := fun b hb => absurd hb List.not_mem_nil
  have hhalf : ∀ {C : Catalog} (c : Call), C.OnlyIdx → (c.halfway C).OnlyIdx := by
    intro C c hC
    cases c with
    | walAppend s data => exact hnone
    | _ => exact hC
  have hcrash : ∀ {C C' : Catalog}, C.Crash C' → C'.OnlyIdx := by
    rintro C C' ⟨n, rfl⟩
    exact hnone
  induction h with
  | nil => exact h₀
  | step _ hs ih =>
      cases hs with
      | @done c =>
          by_cases hsync : c.sync = true
          · rw [Call.effect, hsync]
            exact hnone
          · cases c with
            | putIdxBatch et hs id =>
                intro b hb
                rcases List.mem_append.mp hb with hb | hb
                · exact ih b hb
                · rw [List.mem_singleton.mp hb]
                  intro c hc
                  obtain ⟨h, -, rfl⟩ := List.mem_map.mp hc
                  exact ⟨et, h, id, rfl⟩
            | _ => exact absurd rfl hsync
      | failed => exact ih
      | failedHalfway => exact hhalf _ ih
      | crashed hc => exact hcrash hc
      | cut hc => exact hcrash hc
      | cutHalfway hc => exact hcrash hc

section Lost

variable {T : Table}

theorem applyAll_of_family {b : List Change} (hb : ∀ c ∈ b, ∃ et kh id, c = .set (.idx et kh id) ())
    {k : Key} (hk : k.family ≠ .idx) : applyAll b T k = T k := by
  induction b generalizing T with
  | nil => rfl
  | cons c b ih =>
      obtain ⟨et, kh, id, rfl⟩ := hb c List.mem_cons_self
      refine (ih fun c hc => hb c (List.mem_cons_of_mem _ hc)).trans ?_
      refine Function.update_of_ne ?_ _ T
      rintro rfl
      exact hk rfl

/-- An index entry that is there stays. -/
theorem applyAll_keeps {b : List Change} (hb : ∀ c ∈ b, ∃ et kh id, c = .set (.idx et kh id) ())
    {k : Key} {v : k.Val} (hv : T k = some v) : applyAll b T k = some v := by
  induction b generalizing T with
  | nil => exact hv
  | cons c b ih =>
      obtain ⟨et, kh, id, rfl⟩ := hb c List.mem_cons_self
      refine ih (fun c hc => hb c (List.mem_cons_of_mem _ hc)) ?_
      by_cases hk : k = .idx et kh id
      · subst hk
        exact Function.update_self _ _ T
      · exact (Function.update_of_ne hk _ T).trans hv

theorem batches_of_family {bs : List (List Change)}
    (hbs : ∀ b ∈ bs, ∀ c ∈ b, ∃ et kh id, c = .set (.idx et kh id) ()) {k : Key}
    (hk : k.family ≠ .idx) : bs.foldl (fun T b => applyAll b T) T k = T k := by
  induction bs generalizing T with
  | nil => rfl
  | cons b bs ih =>
      exact (ih fun b hb => hbs b (List.mem_cons_of_mem _ hb)).trans
        (applyAll_of_family (hbs b List.mem_cons_self) hk)

theorem batches_keep {bs : List (List Change)}
    (hbs : ∀ b ∈ bs, ∀ c ∈ b, ∃ et kh id, c = .set (.idx et kh id) ()) {k : Key} {v : k.Val}
    (hv : T k = some v) : bs.foldl (fun T b => applyAll b T) T k = some v := by
  induction bs generalizing T with
  | nil => exact hv
  | cons b bs ih =>
      exact ih (fun b hb => hbs b (List.mem_cons_of_mem _ hb))
        (applyAll_keeps (hbs b List.mem_cons_self) hv)

end Lost

/-- What a crash takes from the table. -/
theorem Catalog.Crash.lost {C C' : Catalog} (hidx : C.OnlyIdx) (h : C.Crash C') :
    (∀ k, k.family ≠ .idx → C'.now k = C.now k) ∧ ∀ k v, C'.now k = some v → C.now k = some v := by
  obtain ⟨n, rfl⟩ := h
  have hnow : C.now = (C.pending.drop n).foldl (fun T b => applyAll b T)
      ((C.pending.take n).foldl (fun T b => applyAll b T) C.synced) := by
    rw [← List.foldl_append, List.take_append_drop]
    rfl
  have hdrop : ∀ b ∈ C.pending.drop n, ∀ c ∈ b, ∃ et kh id, c = .set (.idx et kh id) () :=
    fun b hb => hidx b (List.mem_of_mem_drop hb)
  rw [hnow]
  exact ⟨fun k hk => (batches_of_family hdrop hk).symm, fun k v hv => batches_keep hdrop hv⟩

theorem Catalog.Run.last_done {C₀ C : Catalog} {os os' : List Outcome} {c : Call}
    (h : Catalog.Run C₀ os C) (hos : os = os' ++ [.done c]) : ∃ C₁, C = c.effect C₁ := by
  cases h with
  | nil => simp at hos
  | @step C₁ _ os₁ o _ hs =>
      obtain ⟨-, ho⟩ := List.append_inj' hos rfl
      cases ho
      cases hs
      exact ⟨C₁, rfl⟩

/-- **What a crash can do to the metadata store**, after any sequence of calls:
all that is lost are index entries, none comes back that was not there, and
right after a call that waits for the disk nothing at all is lost. -/
theorem metadata_survives_crash (w₀ w w' : World) (hempty : w₀.db = Pebble.empty)
    (os : List Outcome) (hrun : MetaRun w₀ os w) (hcrash : w.Crash w') :
    ∃ C C' : Catalog, Catalog.Run Catalog.empty os C ∧ ReadsExact w C.now ∧ ReadsExact w' C'.now ∧
      (∀ k, k.family ≠ .idx → C'.now k = C.now k) ∧
      (∀ k v, C'.now k = some v → C.now k = some v) ∧
      ∀ os' c, os = os' ++ [.done c] → c.sync = true → C'.now = C.now := by
  obtain ⟨C, hC, hrep⟩ := (rep_empty hempty).run hrun
  obtain ⟨C', hC', hrep'⟩ := hrep.crash hcrash
  have hidx : C.OnlyIdx := hC.onlyIdx fun b hb => absurd hb List.not_mem_nil
  obtain ⟨hsame, hback⟩ := hC'.lost hidx
  refine ⟨C, C', hC, hrep.now.reads, hrep'.now.reads, hsame, hback, fun os' c hos hsync => ?_⟩
  obtain ⟨C₁, rfl⟩ := hC.last_done hos
  obtain ⟨n, rfl⟩ := hC'
  rw [Call.effect, hsync]
  show ((([] : List (List Change)).take n).foldl (fun T b => applyAll b T) _) = _
  rw [List.take_nil]
  rfl

/-- An index entry is written after the block is sealed. -/
def indexedLast : World := ((putIdxBatch 0 [256] [1]).run.exec sealedOnce).2

theorem metaRun_indexedLast : MetaRun ⟨Pebble.empty, fun _ => none, 0⟩
    [.done (.walAppend 7 [1]), .done (.sealBatch 7 [1] ⟨7, 0, 0, 0, 0, 0⟩ 5),
      .done (.putIdxBatch 0 [256] [1])] indexedLast :=
  metaRun_sealedOnce.done (runs_procExec (putIdxBatch 0 [256] [1]).run _)

/-- A crash takes the index entry, and leaves the block. -/
theorem metadata_survives_crash_indexedLast : ∃ C C' : Catalog, Catalog.Run Catalog.empty
    [.done (.walAppend 7 [1]), .done (.sealBatch 7 [1] ⟨7, 0, 0, 0, 0, 0⟩ 5),
      .done (.putIdxBatch 0 [256] [1])] C ∧
    ReadsExact indexedLast C.now ∧ ReadsExact indexedLast.syncedOnly C'.now ∧
    (C.now (.idx 0 256 [1])).isSome ∧ C'.now (.idx 0 256 [1]) = none ∧
    C'.now (.block [1]) = C.now (.block [1]) := by
  obtain ⟨C, C', hC, hreads, hreads', hsame, -, -⟩ :=
    metadata_survives_crash _ _ _ rfl _ metaRun_indexedLast indexedLast.crash_syncedOnly
  refine ⟨C, C', hC, hreads, hreads', ?_, ?_, hsame (.block [1]) fun he => (by cases he)⟩
  · obtain ⟨ids, hids, -, hlookup, -⟩ := hreads.lookup 0 256
    have hfound : ((idxLookupBlocks 0 256).run.exec indexedLast).1 = .ok [[1]] := by decide +kernel
    rw [hlookup, Except.ok.injEq] at hfound
    rw [← hids, hfound]
    exact List.mem_singleton_self _
  · obtain ⟨ids, hids, -, hlookup, -⟩ := hreads'.lookup 0 256
    have hgone : ((idxLookupBlocks 0 256).run.exec indexedLast.syncedOnly).1 = .ok [] := by
      decide +kernel
    rw [hlookup, Except.ok.injEq] at hgone
    rw [← Option.not_isSome_iff_eq_none, ← hids, hgone]
    exact List.not_mem_nil

end Bbdb.Meta
