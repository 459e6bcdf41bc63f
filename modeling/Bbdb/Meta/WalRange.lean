import Bbdb.Meta.WalHistory
import Mathlib.Data.List.Dedup

/-!
# Meta — the WAL range of a shard

Scan, truncation and seal batch work on the key range from
`WALKeyStart(s)` to `WALKeyEnd(s)`, and `FindOrphanedWALShards` asks the scan
whether a shard has entries. In every state of a `WalRun` the range holds
exactly the entries of the shard — but for shard `0xffff`: `s + 1` wraps to
shard 0, the range is empty, and its entries are neither scanned nor
truncated nor recovered (`wal_isolation_iff`).
-/

namespace Bbdb.Meta

open Bbdb.Bytes
open Prog hiding pure bind

/-! ## Recovery -/

/-- The order in which a loop over a Go map visits its keys. -/
structure MapOrder where
  order : List ShardID → List ShardID
  perm : ∀ l, (order l).Perm l

/-- The keys of the map `seen`; a key that does not parse is skipped. -/
def shardsSeen (entries : List (Bytes × Bytes)) : List ShardID :=
  (entries.filterMap fun p =>
    match parseWALKey p.1 with
    | .ok (s, _) => some s
    | .error _ => none).dedup

/-- The shards among `seen` that the scan finds entries for. -/
def scanSeen : List ShardID → Proc (List ShardID)
  | [] => pure []
  | s :: rest => do
      match ← (walScan s).run with
      | .ok (_ :: _) => do
          let orphans ← scanSeen rest
          pure (s :: orphans)
      | _ => scanSeen rest

def findOrphanedWALShards (range : MapOrder) : Go (List ShardID) := do
  let entries ← dbIter prefixWAL walFamilyEnd
  scanSeen (range.order (shardsSeen entries))

/-! ## The keys of the WAL family -/

section Keys

variable {m : KV} {s : ShardID}

theorem mem_shardsSeen :
    s ∈ shardsSeen (m.range prefixWAL walFamilyEnd) ↔ walEntries m s ≠ [] := by
  rw [shardsSeen, List.mem_dedup, List.mem_filterMap]
  constructor
  · rintro ⟨⟨k, v⟩, hmem, hp⟩
    cases hparse : parseWALKey k with
    | error e =>
        rw [hparse] at hp
        cases hp
    | ok r =>
        simp only [hparse] at hp
        cases hp
        refine List.ne_nil_of_mem (a := (r.2, v)) (mem_walEntries.mpr ?_)
        rw [← walKey_of_parse hparse]
        exact (OrdMap.mem_range.mp hmem).1
  · intro hne
    obtain ⟨⟨q, d⟩, hmem⟩ := List.exists_mem_of_ne_nil _ hne
    refine ⟨(walKey s q, d), OrdMap.mem_range.mpr ⟨mem_walEntries.mp hmem,
      walKey_mem_walFamily s q⟩, ?_⟩
    simp

/-- Only the entries of the shard lie in its range. -/
theorem WalKeys.of_mem_range (h : WalKeys m) {p : Bytes × Bytes}
    (hp : p ∈ m.range (walKeyStart s) (walKeyEnd s)) :
    s ≠ 0xffff ∧ ∃ q, entryOf s p = some (q, p.2) := by
  obtain ⟨k, v⟩ := p
  obtain ⟨hget, hlo, hhi⟩ := OrdMap.mem_range.mp hp
  obtain ⟨t, q, rfl⟩ := h k v hget (family_of_mem_walRange hlo hhi)
  obtain ⟨rfl, hs⟩ := mem_walRange.mp ⟨hlo, hhi⟩
  exact ⟨hs, q, entryOf_eq_some.mpr rfl⟩

/-- **The range of a shard holds exactly its entries**, in their order, unless
the shard is the last one. -/
theorem WalKeys.range_eq (h : WalKeys m) :
    (m.range (walKeyStart s) (walKeyEnd s)).map Prod.snd =
      if s = 0xffff then [] else (walEntries m s).map Prod.snd := by
  by_cases hs : s = 0xffff
  · rw [if_pos hs, List.map_eq_nil_iff, List.eq_nil_iff_forall_not_mem]
    intro p hp
    exact (h.of_mem_range hp).1 hs
  · rw [if_neg hs]
    have hvals : ∀ l : List (Bytes × Bytes), (∀ p ∈ l, ∃ q, entryOf s p = some (q, p.2)) →
        (l.filterMap (entryOf s)).map Prod.snd = l.map Prod.snd := by
      intro l hl
      induction l with
      | nil => rfl
      | cons p l ih =>
          obtain ⟨q, hq⟩ := hl p List.mem_cons_self
          rw [List.filterMap_cons_some hq, List.map_cons, List.map_cons,
            ih fun x hx => hl x (List.mem_cons_of_mem _ hx)]
    rw [← hvals _ fun p hp => (h.of_mem_range hp).2]
    congr 1
    -- both lists are ascending and have the same elements
    have hl := entries_sorted m s (walKeyStart s) (walKeyEnd s)
    have hr := entries_sorted m s prefixWAL walFamilyEnd
    refine (sublist_of_ascending hl hr fun x hx => ?_).antisymm
      (sublist_of_ascending hr hl fun x hx => ?_)
    · obtain ⟨p, hp, he⟩ := List.mem_filterMap.mp hx
      refine mem_walEntries.mpr ?_
      rw [entryOf_eq_some.mp he] at hp
      exact (OrdMap.mem_range.mp hp).1
    · refine List.mem_filterMap.mpr ⟨(walKey s x.1, x.2), ?_, entryOf_eq_some.mpr rfl⟩
      exact OrdMap.mem_range.mpr ⟨mem_walEntries.mp hx, mem_walRange.mpr ⟨rfl, hs⟩⟩

end Keys

/-! ## Exactness -/

/-- The entries of the shard are gone and no other key has changed, but for
the keys `sets` that are set. -/
def DropsShard (s : ShardID) (sets : List Bytes) (m m' : KV) : Prop :=
  ∀ k, k ∉ sets → ((∃ q, parseWALKey k = .ok (s, q)) → m'.get k = none) ∧
    ((¬ ∃ q, parseWALKey k = .ok (s, q)) → m'.get k = m.get k)

/-- Scan, truncation and seal batch of the shard do what they should. -/
structure ShardExact (w : World) (s : ShardID) : Prop where
  scan : ((walScan s).run.exec w).1 = .ok ((walEntries w.db.view s).map Prod.snd)
  truncate : ∀ ws w', Runs sem (walTruncate s).run w ws (.ok ()) w' →
    DropsShard s [] w.db.view w'.db.view
  seals : ∀ id bm hour ws w', Runs sem (sealBatch s id bm hour).run w ws (.ok ()) w' →
    DropsShard s [blockKey id, expiryKey hour id] w.db.view w'.db.view

/-- Recovery returns each shard with WAL entries once, and no other. -/
def FindExact (w : World) (range : MapOrder) : Prop :=
  ∃ shards, ((findOrphanedWALShards range).run.exec w).1 = .ok shards ∧ shards.Nodup ∧
    ∀ s, s ∈ shards ↔ walEntries w.db.view s ≠ []

section Exact

variable {w : World} {s : ShardID}

theorem exec_walScan (h : WalKeys w.db.view) (s : ShardID) :
    (walScan s).run.exec w =
      (.ok (if s = 0xffff then [] else (walEntries w.db.view s).map Prod.snd), w) := by
  rw [← h.range_eq]
  rfl

/-- A key range that is erased drops the shard, if it is the shard's and the
shard is not the last one. -/
theorem dropsShard_iff {m m' : KV} {sets : List Bytes} (h : WalKeys m)
    (hsets : ∀ k ∈ sets, family k ≠ prefixWAL)
    (hm : ∀ k, k ∉ sets → m'.get k =
      if walKeyStart s ≤ k ∧ k < walKeyEnd s then none else m.get k) :
    DropsShard s sets m m' ↔ (s = 0xffff → walEntries m s = []) := by
  have hnot : ∀ {t : ShardID} {q : UInt64}, walKey t q ∉ sets :=
    fun hmem => hsets _ hmem (family_walKey _ _)
  constructor
  · -- the range of the last shard is empty
    rintro hd rfl
    rw [List.eq_nil_iff_forall_not_mem]
    rintro ⟨q, d⟩ hmem
    have hget := mem_walEntries.mp hmem
    have hnone := (hd _ hnot).1 ⟨q, parseWALKey_walKey _ q⟩
    rw [hm _ hnot, if_neg fun hr => (mem_walRange.mp hr).2 rfl, hget] at hnone
    cases hnone
  · intro hs k hk
    rw [hm k hk]
    constructor
    · rintro ⟨q, hq⟩
      rw [walKey_of_parse hq]
      by_cases hlast : s = 0xffff
      · rw [if_neg fun hr => (mem_walRange.mp hr).2 hlast]
        cases hget : m.get (walKey s q) with
        | none => rfl
        | some d =>
            have hmem := mem_walEntries.mpr hget
            rw [hs hlast] at hmem
            cases hmem
      · rw [if_pos (mem_walRange.mpr ⟨rfl, hlast⟩)]
    · intro hno
      by_cases hr : walKeyStart s ≤ k ∧ k < walKeyEnd s
      · -- a key in the range that does not parse is in use nowhere
        rw [if_pos hr]
        cases hget : m.get k with
        | none => rfl
        | some d =>
            obtain ⟨t, q, rfl⟩ := h k d hget (family_of_mem_walRange hr.1 hr.2)
            obtain ⟨rfl, -⟩ := mem_walRange.mp hr
            exact absurd ⟨q, parseWALKey_walKey _ q⟩ hno
      · rw [if_neg hr]

theorem shardExact_iff (h : WalKeys w.db.view) :
    ShardExact w s ↔ (s = 0xffff → walEntries w.db.view s = []) := by
  have htrunc : ∀ k, k ∉ ([] : List Bytes) →
      (Batch.apply [.deleteRange (walKeyStart s) (walKeyEnd s)] w.db.view).get k =
        if walKeyStart s ≤ k ∧ k < walKeyEnd s then none else w.db.view.get k :=
    fun k _ => get_truncateOps _ _ k
  constructor
  · intro hx
    have hd := hx.truncate _ _ (runs_procExec (walTruncate s).run w)
    exact (dropsShard_iff h (by simp) htrunc).mp hd
  · intro hs
    refine ⟨?_, fun ws w' hrun => ?_, fun id bm hour ws w' hrun => ?_⟩
    · rw [exec_walScan h]
      by_cases hlast : s = 0xffff
      · rw [if_pos hlast, hs hlast]
        rfl
      · rw [if_neg hlast]
    · rw [runs_batchCommit_ok hrun, World.commit_db, Pebble.view_commit]
      exact (dropsShard_iff h (by simp) htrunc).mpr hs
    · rw [runs_batchCommit_ok hrun, World.commit_db, Pebble.view_commit]
      refine (dropsShard_iff h (fun k hk => ?_) fun k hk => ?_).mpr hs
      · rcases List.mem_cons.mp hk with rfl | hk
        · rw [family_blockKey]
          decide
        · rw [List.mem_singleton.mp hk, family_expiryKey]
          decide
      · simp only [List.mem_cons, List.not_mem_nil, or_false, not_or] at hk
        rw [get_sealOps, if_neg hk.2, if_neg hk.1]

/-- The scans of recovery keep the shards they find entries for. -/
theorem exec_scanSeen (h : WalKeys w.db.view) (l : List ShardID) :
    (scanSeen l).exec w =
      (l.filter fun s => s ≠ 0xffff ∧ walEntries w.db.view s ≠ [], w) := by
  induction l with
  | nil => rfl
  | cons s l ih =>
      have hscan := exec_walScan h s
      refine (exec_bind_of hscan).trans ?_
      by_cases hlast : s = 0xffff
      · rw [if_pos hlast, List.filter_cons_of_neg (by simp [hlast])]
        exact ih
      · rw [if_neg hlast]
        cases hent : walEntries w.db.view s with
        | nil =>
            rw [List.filter_cons_of_neg (by simp [hent])]
            exact ih
        | cons e es =>
            rw [List.filter_cons_of_pos (by simp [hent, hlast])]
            exact exec_bind_of ih

theorem findExact_iff (h : WalKeys w.db.view) (range : MapOrder) :
    FindExact w range ↔ walEntries w.db.view 0xffff = [] := by
  have hseen : (range.order (shardsSeen (w.db.view.range prefixWAL walFamilyEnd))).Perm
      (shardsSeen (w.db.view.range prefixWAL walFamilyEnd)) := range.perm _
  have hexec : ((findOrphanedWALShards range).run.exec w).1 = .ok
      ((range.order (shardsSeen (w.db.view.range prefixWAL walFamilyEnd))).filter
        fun s => s ≠ 0xffff ∧ walEntries w.db.view s ≠ []) := by
    have hscan := exec_scanSeen h (range.order (shardsSeen (w.db.view.range prefixWAL walFamilyEnd)))
    have hlift : (liftM (scanSeen (range.order
        (shardsSeen (w.db.view.range prefixWAL walFamilyEnd)))) : Go (List ShardID)).run.exec w =
        (.ok ((range.order (shardsSeen (w.db.view.range prefixWAL walFamilyEnd))).filter
          fun s => s ≠ 0xffff ∧ walEntries w.db.view s ≠ []), w) := exec_bind_of hscan
    exact congrArg Prod.fst hlift
  have hmem : ∀ s, s ∈ (range.order (shardsSeen (w.db.view.range prefixWAL walFamilyEnd))).filter
      (fun s => s ≠ 0xffff ∧ walEntries w.db.view s ≠ []) ↔
        s ≠ 0xffff ∧ walEntries w.db.view s ≠ [] := by
    intro s
    rw [List.mem_filter, decide_eq_true_eq, hseen.mem_iff, mem_shardsSeen]
    exact ⟨fun hs => hs.2, fun hs => ⟨hs.2, hs⟩⟩
  constructor
  · rintro ⟨shards, hres, -, hall⟩
    rw [hexec, Except.ok.injEq] at hres
    by_contra hne
    have hin := (hall 0xffff).mpr hne
    rw [← hres, hmem] at hin
    exact hin.1 rfl
  · intro hnone
    refine ⟨_, hexec, (hseen.nodup_iff.mpr (List.nodup_dedup _)).filter _, fun s => ?_⟩
    rw [hmem]
    refine ⟨fun hs => hs.2, fun hs => ⟨?_, hs⟩⟩
    rintro rfl
    exact hs hnone

end Exact

/-- **The WAL functions isolate the shards exactly, as long as the last shard
has no entries**: for every other shard always, for `0xffff` and for recovery
only if nothing is stored under it. -/
theorem wal_isolation_iff (w : World) (log : WalLog) (h : WalRun w log) :
    (∀ s, ShardExact w s ↔ (s = 0xffff → walEntries w.db.view s = [])) ∧
    ∀ range, FindExact w range ↔ walEntries w.db.view 0xffff = [] :=
  ⟨fun _ => shardExact_iff h.synced.2, fun range => findExact_iff h.synced.2 range⟩

/-- The order of the keys. -/
def sameOrder : MapOrder := ⟨fun l => l, fun l => List.Perm.refl l⟩

/-- After an append to shard 7 everything is exact. -/
theorem wal_isolation_iff_oneEntry : ShardExact oneEntry.1 7 ∧ FindExact oneEntry.1 sameOrder := by
  obtain ⟨hshard, hfind⟩ := wal_isolation_iff oneEntry.1 oneEntry.2 walRun_oneEntry
  exact ⟨(hshard 7).mpr (by decide), (hfind sameOrder).mpr (by decide +kernel)⟩

/-- Pebble after one append to the last shard. -/
def lastEntry : World × WalLog := andAppend 0xffff [1] noEntry

/-- **The entries of the last shard are lost**: neither scanned, nor
truncated, nor found by recovery. -/
theorem last_shard_not_scanned :
    WalRun lastEntry.1 lastEntry.2 ∧
    walEntries lastEntry.1.db.view 0xffff = [(0, [1])] ∧
    ((walScan 0xffff).run.exec lastEntry.1).1 = .ok [] ∧
    walEntries ((walTruncate 0xffff).run.exec lastEntry.1).2.db.view 0xffff = [(0, [1])] ∧
    ((findOrphanedWALShards sameOrder).run.exec lastEntry.1).1 = .ok [] := by
  refine ⟨walRun_noEntry.andAppend 0xffff [1], ?_, ?_, ?_, ?_⟩
  · decide +kernel
  · decide +kernel
  · decide +kernel
  · decide +kernel

end Bbdb.Meta
