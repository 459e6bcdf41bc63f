import Bbdb.Meta.Wal
import Mathlib.Data.List.Sort

/-!
# Meta — the history of the WAL

`WalRun` are the runs of `WALAppend`, `WALTruncate` and `SealBatch` on all
shards, with failures anywhere and crashes between any two of their
operations. The machine records every binding it sets, so the numbers that were
handed out and the entries that were written are there to be looked at when
they are long gone from pebble. The counter of a shard has counted the numbers
(`WalLogOK`), whatever was truncated in between; so until it wraps, no key is
ever written twice and the entries that are left stand in the order in which
they were appended (`wal_append_order`).
-/

namespace Bbdb.Meta

open Bbdb.Bytes
open Prog hiding pure bind

/-! ## The entries of a shard -/

/-- The end of the WAL family, as recovery computes it. -/
def walFamilyEnd : Bytes :=
  [prefixWAL.getD 0 0, prefixWAL.getD 1 0, prefixWAL.getD 2 0, prefixWAL.getD 3 0 + 1]

/-- Number and data of a binding whose key names the shard. -/
def entryOf (shard : ShardID) (p : Bytes × Bytes) : Option (UInt64 × Bytes) :=
  match parseWALKey p.1 with
  | .ok (t, q) => if t = shard then some (q, p.2) else none
  | .error _ => none

/-- All WAL entries of a shard, in byte order of their keys. -/
def walEntries (m : KV) (shard : ShardID) : List (UInt64 × Bytes) :=
  (m.range prefixWAL walFamilyEnd).filterMap (entryOf shard)

/-- The WAL family is one key range. -/
theorem mem_walFamily {k : Bytes} : (prefixWAL ≤ k ∧ k < walFamilyEnd) ↔ prefixWAL <+: k := by
  have hlow : prefixWAL = prefixWAL.take 3 ++ [0] := rfl
  have hup : walFamilyEnd = prefixWAL.take 3 ++ [1] := rfl
  rw [hup, hlow]
  refine mem_prefixRange (by decide) fun x hx hx' => ?_
  rw [UInt8.lt_iff_toNat_lt] at hx hx'
  have h0 : (0 : UInt8).toNat = 0 := rfl
  have h1 : (1 : UInt8).toNat = 1 := rfl
  omega

theorem walKey_mem_walFamily (s : ShardID) (q : UInt64) :
    prefixWAL ≤ walKey s q ∧ walKey s q < walFamilyEnd :=
  mem_walFamily.mpr ⟨_, rfl⟩

theorem entryOf_eq_some {s : ShardID} {p : Bytes × Bytes} {q : UInt64} {d : Bytes} :
    entryOf s p = some (q, d) ↔ p = (walKey s q, d) := by
  constructor
  · intro h
    unfold entryOf at h
    cases hparse : parseWALKey p.1 with
    | error e =>
        rw [hparse] at h
        cases h
    | ok r =>
        simp only [hparse] at h
        split_ifs at h with hs
        cases h
        exact Prod.ext (hs ▸ walKey_of_parse hparse) rfl
  · rintro rfl
    simp [entryOf]

theorem mem_walEntries {m : KV} {s : ShardID} {q : UInt64} {d : Bytes} :
    (q, d) ∈ walEntries m s ↔ m.get (walKey s q) = some d := by
  simp only [walEntries, List.mem_filterMap, entryOf_eq_some]
  constructor
  · rintro ⟨p, hmem, rfl⟩
    exact (OrdMap.mem_range.mp hmem).1
  · intro h
    exact ⟨_, OrdMap.mem_range.mpr ⟨h, walKey_mem_walFamily s q⟩, rfl⟩

/-- Byte order is the order of the sequence numbers. -/
theorem entries_sorted (m : KV) (s : ShardID) (lo hi : Bytes) :
    ((m.range lo hi).filterMap (entryOf s)).Pairwise fun a b => a.1 < b.1 := by
  rw [List.pairwise_filterMap]
  refine (m.range_sorted _ _).imp fun {a b} hlt x hx y hy => ?_
  rw [entryOf_eq_some.mp hx, entryOf_eq_some.mp hy, walKey_lt] at hlt
  rcases hlt with hlt | ⟨-, hlt⟩
  · exact absurd hlt (by simp)
  · exact hlt

/-! ## Runs -/

/-- The bindings that were set so far, in order. -/
abbrev WalLog := List (Bytes × Bytes)

/-- The states of pebble under calls on any shards, and what was set so far. A
call may fail anywhere, and a crash may come before each of its operations. -/
inductive WalRun : World → WalLog → Prop
  | start {w : World} (hempty : ∀ k, w.db.view.get k = none) (hsynced : w.db.pending = []) :
      WalRun w []
  | append {w w' : World} {log log' : WalLog} {shard : ShardID} {data : Bytes}
      {ws : List (World × WalLog)} {r : Except Err Unit} (h : WalRun w log)
      (hrun : Runs semLogged (walAppend shard data).run (w, log) ws r (w', log')) : WalRun w' log'
  | appendCut {w w₁ w' : World} {log log' : WalLog} {shard : ShardID} {data : Bytes}
      {ws : List (World × WalLog)} (h : WalRun w log)
      (hcut : Cuts semLogged (walAppend shard data).run (w, log) ws (w₁, log'))
      (hcrash : w₁.Crash w') : WalRun w' log'
  | truncate {w w' : World} {log log' : WalLog} {shard : ShardID} {ws : List (World × WalLog)}
      {r : Except Err Unit} (h : WalRun w log)
      (hrun : Runs semLogged (walTruncate shard).run (w, log) ws r (w', log')) : WalRun w' log'
  | sealBlock {w w' : World} {log log' : WalLog} {shard : ShardID} {id : BlockID}
      {bm : BlockMeta} {hour : UInt64} {ws : List (World × WalLog)} {r : Except Err Unit}
      (h : WalRun w log)
      (hrun : Runs semLogged (sealBatch shard id bm hour).run (w, log) ws r (w', log')) :
      WalRun w' log'
  | crash {w w' : World} {log : WalLog} (h : WalRun w log) (hcrash : w.Crash w') : WalRun w' log

/-! ## What the steps do -/

section Steps

variable {w w' : World} {ws : List World} {shard : ShardID}

/-- With nothing pending, a crash loses nothing. -/
theorem view_of_crash (h : w.Crash w') (hp : w.db.pending = []) :
    w'.db.view = w.db.view ∧ w'.db.pending = [] := by
  obtain ⟨n, hdb⟩ := h.db
  rw [hdb]
  refine ⟨?_, rfl⟩
  simp [Pebble.view, hp]

theorem get_truncateOps (m : KV) (s : ShardID) (k : Bytes) :
    (Batch.apply [.deleteRange (walKeyStart s) (walKeyEnd s)] m).get k =
      if walKeyStart s ≤ k ∧ k < walKeyEnd s then none else m.get k := by
  simp only [Batch.apply, List.foldl, BatchOp.apply, OrdMap.get_eraseRange]
  congr

/-- What `WALNextSeq` returned is now the counter. -/
theorem runs_walNextSeq {q : UInt64} (h : Runs sem (walNextSeq shard).run w ws (.ok q) w') :
    q = freshSeq shard w.db.view ∧
      w' = w.commit [.set (walSeqKey shard) (putUint64 q)] true := by
  obtain ⟨next, w₁, _, _, -, hget, hk⟩ := runs_bindE_ok.mp h
  obtain ⟨_, w₂, _, _, -, hset, -, hq, rfl⟩ := runs_bindE_ok.mp hk
  cases hq
  obtain rfl := runs_batchCommit_ok hset
  obtain ⟨res, w₃, _, _, -, hcall, hpure⟩ := runs_bind.mp hget
  rcases (runs_call.mp hcall).1 with hs | ⟨rfl, rfl⟩
  · simp only [Op.exec] at hs
    split at hs
    · -- no counter yet
      rename_i hnone
      cases hs
      obtain ⟨-, hq, rfl⟩ := hpure
      cases hq
      exact ⟨by rw [freshSeq, hnone], rfl⟩
    · rename_i val hval
      cases hs
      obtain ⟨-, hq, rfl⟩ := hpure
      cases hq
      exact ⟨by rw [freshSeq, hval], rfl⟩
  · obtain ⟨-, hq, -⟩ := hpure
    cases hq

/-- **What a successful append did**: it counted, and stored its entry under
the new number. -/
theorem runs_walAppend_ok {data : Bytes} {u : Unit}
    (h : Runs sem (walAppend shard data).run w ws (.ok u) w') :
    w' = (w.commit [.set (walSeqKey shard) (putUint64 (freshSeq shard w.db.view))] true).commit
      [.set (walKey shard (freshSeq shard w.db.view)) data] true := by
  obtain ⟨q, w₁, _, _, -, hnext, hset⟩ := runs_bindE_ok.mp h
  obtain ⟨rfl, rfl⟩ := runs_walNextSeq hnext
  exact runs_batchCommit_ok hset

/-- Reading the counter. -/
def readSeq (shard : ShardID) : Go UInt64 :=
  ExceptT.mk do
    match ← (dbGet (walSeqKey shard)).run with
    | .ok val => pure (.ok (getUint64 val + 1))
    | .error e => pure (if e = .pebbleNotFound then .ok 0 else .error e)

theorem walNextSeq_eq (shard : ShardID) :
    walNextSeq shard = readSeq shard >>= fun next =>
      dbSet (walSeqKey shard) (putUint64 next) >>= fun _ => pure next := rfl

theorem runs_readSeq {r : Except Err UInt64} (h : Runs sem (readSeq shard).run w ws r w') :
    w' = w := by
  have hget : Op.Reads (.get (walSeqKey shard)) := trivial
  refine runs_reads (calls_bind (calls_call.mpr hget) fun res => ?_) h
  cases res with
  | ok val => exact calls_pure _
  | error e => exact calls_pure _

/-- Until it has returned, `WALNextSeq` has changed nothing. -/
theorem runs_walNextSeq_error {e : Err}
    (h : Runs sem (walNextSeq shard).run w ws (.error e) w') : w' = w := by
  rw [walNextSeq_eq] at h
  rcases runs_bindE.mp h with ⟨_, -, hget⟩ | ⟨next, w₁, _, _, -, hget, hk⟩
  · exact runs_readSeq hget
  · rcases runs_bindE.mp hk with ⟨_, -, hset⟩ | ⟨_, _, _, _, -, -, -, he, -⟩
    · rw [runs_batchCommit_error hset, runs_readSeq hget]
    · cases he

theorem cuts_walNextSeq (h : Cuts sem (walNextSeq shard).run w ws w') : w' = w := by
  rw [walNextSeq_eq] at h
  rcases cuts_bindE.mp h with hc | ⟨next, w₁, _, _, -, hget, hc⟩
  · rcases hc with ⟨-, hw⟩ | ⟨r, _, _, -, -, hc⟩
    · exact hw
    · cases r with
      | ok val => exact hc.elim
      | error e => exact hc.elim
  · obtain rfl := runs_readSeq hget
    rcases hc with ⟨-, hw⟩ | ⟨r, _, _, -, -, hc⟩
    · exact hw
    · cases r with
      | ok u => exact hc.elim
      | error e => exact hc.elim

end Steps

/-! ## The keys of the WAL family -/

/-- The WAL family has keys of entries only. -/
def WalKeys (m : KV) : Prop := ∀ k v, m.get k = some v → family k = prefixWAL → ∃ s q, k = walKey s q

/-- Everything is synced, and the WAL family is as it should be. -/
def WalSynced (w : World) : Prop := w.db.pending = [] ∧ WalKeys w.db.view

/-- A synced batch that sets no key of the WAL family, except of entries. -/
theorem WalSynced.commit {w : World} {b : Batch} (h : WalSynced w)
    (hb : ∀ (m : KV) k v, (b.apply m).get k = some v → family k = prefixWAL →
      m.get k = some v ∨ ∃ s q, k = walKey s q) : WalSynced (w.commit b true) := by
  refine ⟨rfl, fun k v hk hf => ?_⟩
  rw [World.commit_db, Pebble.view_commit] at hk
  rcases hb _ k v hk hf with hold | hnew
  · exact h.2 k v hold hf
  · exact hnew

theorem WalSynced.runs {w w' : World} {ws : List World} {b : Batch} {r : Except Err Unit}
    (h : WalSynced w) (hrun : Runs sem (batchCommit b true).run w ws r w')
    (hb : ∀ (m : KV) k v, (b.apply m).get k = some v → family k = prefixWAL →
      m.get k = some v ∨ ∃ s q, k = walKey s q) : WalSynced w' := by
  cases r with
  | error e =>
      rw [runs_batchCommit_error hrun]
      exact h
  | ok u =>
      rw [runs_batchCommit_ok hrun]
      exact h.commit hb

/-- A step of `WALNextSeq` or `WALAppend`. -/
theorem WalSynced.walStep {s : ShardID} {w w' : World} (h : WalSynced w) (hs : WalStep s w w') :
    WalSynced w' := by
  rcases hs.db with hdb | ⟨k, v, hk, hdb⟩
  · rwa [WalSynced, hdb]
  · have hc : WalSynced (w.commit [.set k v] true) := by
      refine h.commit fun m x y hx hf => ?_
      simp only [Batch.apply, List.foldl, BatchOp.apply, OrdMap.get_set] at hx
      split_ifs at hx with he
      · rcases hk with rfl | ⟨q, rfl⟩
        · rw [he, family_walSeqKey] at hf
          exact absurd hf (by decide)
        · exact Or.inr ⟨s, q, he⟩
      · exact Or.inl hx
    rwa [WalSynced, hdb]

/-- The WAL functions keep it with every operation. -/
theorem WalSynced.ensures {s : ShardID} {α : Type} {p : Proc α}
    (hp : Calls (S := machine) (WalCalls s) p) (w : World) :
    Ensures sem (fun x y => WalSynced x → WalSynced y) p (fun _ _ => True) w :=
  hp.ensures (fun _ _ _ _ ho hs hx => hx.walStep (walStep_of_sem ho hs)) w

theorem WalSynced.append {s : ShardID} {data : Bytes} {w w' : World} {ws : List World}
    {r : Except Err Unit} (h : WalSynced w)
    (hrun : Runs sem (walAppend s data).run w ws r w') : WalSynced w' :=
  chain_forall (fun _ hx => hx) (fun h₁ h₂ hx => h₂ (h₁ hx))
    ((WalSynced.ensures (calls_walAppend s data) w).runs hrun).1 w'
    (List.mem_of_getLast? hrun.getLast) h

theorem WalSynced.appendCut {s : ShardID} {data : Bytes} {w w' : World} {ws : List World}
    (h : WalSynced w) (hcut : Cuts sem (walAppend s data).run w ws w') : WalSynced w' :=
  chain_forall (fun _ hx => hx) (fun h₁ h₂ hx => h₂ (h₁ hx))
    ((WalSynced.ensures (calls_walAppend s data) w).cuts hcut) w'
    (List.mem_of_getLast? hcut.getLast) h

theorem WalSynced.crash {w w' : World} (h : WalSynced w) (hc : w.Crash w') : WalSynced w' := by
  obtain ⟨hview, hpend⟩ := view_of_crash hc h.1
  exact ⟨hpend, hview ▸ h.2⟩

theorem WalRun.synced {w : World} {log : WalLog} (h : WalRun w log) : WalSynced w := by
  induction h with
  | start hempty hsynced =>
      refine ⟨hsynced, fun k v hk => ?_⟩
      rw [hempty] at hk
      cases hk
  | append h hrun ih => exact ih.append hrun.unlogged
  | appendCut h hcut hcrash ih => exact (ih.appendCut hcut.unlogged).crash hcrash
  | truncate h hrun ih =>
      refine ih.runs hrun.unlogged fun m k v hk hf => Or.inl ?_
      rw [get_truncateOps] at hk
      split_ifs at hk
      exact hk
  | sealBlock h hrun ih =>
      refine ih.runs hrun.unlogged fun m k v hk hf => Or.inl ?_
      rw [get_sealOps_of_family _ _ _ _ _ (by rw [hf]; decide) (by rw [hf]; decide)] at hk
      split_ifs at hk
      exact hk
  | crash h hcrash ih => exact ih.crash hcrash

/-! ## The invariant -/

/-- The numbers that were handed out for a shard: what its counter was set to. -/
def handedOut (log : WalLog) (s : ShardID) : List UInt64 :=
  (log.filter fun p => p.1 = walSeqKey s).map fun p => getUint64 p.2

/-- The entries that were written for a shard. -/
def written (log : WalLog) (s : ShardID) : List (UInt64 × Bytes) := log.filterMap (entryOf s)

section Log

variable {log : WalLog} {s t : ShardID} {q : UInt64} {d : Bytes}

@[simp] theorem handedOut_append (l l' : WalLog) (s : ShardID) :
    handedOut (l ++ l') s = handedOut l s ++ handedOut l' s := by
  simp [handedOut]

@[simp] theorem written_append (l l' : WalLog) (s : ShardID) :
    written (l ++ l') s = written l s ++ written l' s := by
  simp [written]

theorem handedOut_counter : handedOut [(walSeqKey t, putUint64 q)] s = if t = s then [q] else [] := by
  by_cases h : t = s
  · simp [handedOut, h]
  · simp [handedOut, h, walSeqKey_inj]

theorem written_entry : written [(walKey t q, d)] s = if t = s then [(q, d)] else [] := by
  by_cases h : t = s
  · simp [written, entryOf, h]
  · simp [written, entryOf, h]

/-- Bindings of other families are neither. -/
theorem handedOut_append_other {l : WalLog} (h : ∀ p ∈ l, family p.1 ≠ prefixSeq) :
    handedOut (log ++ l) s = handedOut log s := by
  have hnone : handedOut l s = [] := by
    rw [handedOut, List.map_eq_nil_iff, List.filter_eq_nil_iff]
    intro p hp hkey
    rw [decide_eq_true_eq] at hkey
    exact h p hp (by rw [hkey, family_walSeqKey])
  rw [handedOut_append, hnone, List.append_nil]

theorem written_append_other {l : WalLog} (h : ∀ p ∈ l, family p.1 ≠ prefixWAL) :
    written (log ++ l) s = written log s := by
  have hnone : written l s = [] := by
    rw [written, List.filterMap_eq_nil_iff]
    intro p hp
    cases he : entryOf s p with
    | none => rfl
    | some e =>
        rw [entryOf_eq_some.mp he] at hp
        exact absurd (family_walKey s e.1) (h _ hp)
  rw [written_append, hnone, List.append_nil]

/-- Handing out a number writes no entry. -/
theorem written_append_counter :
    written (log ++ [(walSeqKey t, putUint64 q)]) s = written log s := by
  refine written_append_other fun p hp => ?_
  rw [List.mem_singleton.mp hp, family_walSeqKey]
  decide

theorem mem_written : (q, d) ∈ written log s ↔ (walKey s q, d) ∈ log := by
  simp [written, List.mem_filterMap, entryOf_eq_some]

end Log

/-- What the record says about pebble. -/
structure WalLogOK (m : KV) (log : WalLog) : Prop where
  /-- The numbers of a shard are 0, 1, 2, … in this order. -/
  seqs : ∀ s, (handedOut log s).map UInt64.toNat = List.range (handedOut log s).length
  /-- The counter of a shard has counted them. -/
  next : ∀ s, nextSeq s m = (handedOut log s).length
  /-- Entries were written under ascending numbers, all of them handed out. -/
  sorted : ∀ s, (written log s).Pairwise fun a b => a.1 < b.1
  below : ∀ s, ∀ e ∈ written log s, e.1.toNat < nextSeq s m
  /-- Every entry in pebble was written. -/
  entries : ∀ s q d, m.get (walKey s q) = some d → (q, d) ∈ written log s
  keys : ∀ p ∈ log, family p.1 = prefixWAL → ∃ s q, p.1 = walKey s q

section Invariant

variable {m m' : KV} {log : WalLog} {w : World} {shard : ShardID} {q : UInt64}

theorem nextSeq_congr {s : ShardID} (h : m'.get (walSeqKey s) = m.get (walSeqKey s)) :
    nextSeq s m' = nextSeq s m := by
  rw [nextSeq, nextSeq, h]

/-- An empty store with an empty record. -/
theorem WalLogOK.start (hempty : ∀ k, m.get k = none) : WalLogOK m [] where
  seqs _ := rfl
  next s := by
    rw [nextSeq, hempty]
    rfl
  sorted _ := List.Pairwise.nil
  below _ e he := absurd he List.not_mem_nil
  entries s q d hd := by
    rw [hempty] at hd
    cases hd
  keys p hp := absurd hp List.not_mem_nil

/-- Deleting entries and setting keys of other families keeps the invariant. -/
theorem WalLogOK.other (h : WalLogOK m log) {new : WalLog}
    (hnew : ∀ p ∈ new, family p.1 ≠ prefixWAL ∧ family p.1 ≠ prefixSeq)
    (hseq : ∀ s, m'.get (walSeqKey s) = m.get (walSeqKey s))
    (hwal : ∀ s q d, m'.get (walKey s q) = some d → m.get (walKey s q) = some d) :
    WalLogOK m' (log ++ new) := by
  have hout : ∀ s, handedOut (log ++ new) s = handedOut log s := fun s =>
    handedOut_append_other fun p hp => (hnew p hp).2
  have hwritten : ∀ s, written (log ++ new) s = written log s := fun s =>
    written_append_other fun p hp => (hnew p hp).1
  have hnext : ∀ s, nextSeq s m' = nextSeq s m := fun s => nextSeq_congr (hseq s)
  constructor
  · intro s
    rw [hout]
    exact h.seqs s
  · intro s
    rw [hout, hnext]
    exact h.next s
  · intro s
    rw [hwritten]
    exact h.sorted s
  · intro s
    rw [hwritten, hnext]
    exact h.below s
  · intro s q d hd
    rw [hwritten]
    exact h.entries s q d (hwal s q d hd)
  · intro p hp hf
    rcases List.mem_append.mp hp with hp | hp
    · exact h.keys p hp hf
    · exact absurd hf (hnew p hp).1

/-- Handing out a number keeps the invariant. -/
theorem WalLogOK.count (h : WalLogOK w.db.view log) (hq : q.toNat = nextSeq shard w.db.view) :
    WalLogOK (w.commit [.set (walSeqKey shard) (putUint64 q)] true).db.view
      (log ++ [(walSeqKey shard, putUint64 q)]) := by
  have hout : ∀ s, handedOut (log ++ [(walSeqKey shard, putUint64 q)]) s =
      if shard = s then handedOut log s ++ [q] else handedOut log s := by
    intro s
    rw [handedOut_append, handedOut_counter]
    split_ifs with hs
    · rfl
    · exact List.append_nil _
  have hnext : ∀ s, nextSeq s (w.commit [.set (walSeqKey shard) (putUint64 q)] true).db.view =
      if shard = s then nextSeq s w.db.view + 1 else nextSeq s w.db.view := by
    intro s
    split_ifs with hs
    · subst hs
      rw [nextSeq_counter, hq]
    · refine nextSeq_congr ?_
      rw [get_commit_set, if_neg]
      exact fun he => hs (walSeqKey_inj.mp he).symm
  constructor
  · intro s
    rw [hout]
    split_ifs with hs
    · subst hs
      rw [List.map_append, h.seqs, List.length_append, List.length_singleton, List.range_succ,
        List.map_singleton, hq, h.next]
    · exact h.seqs s
  · intro s
    rw [hout, hnext]
    split_ifs with hs
    · rw [h.next, List.length_append, List.length_singleton]
    · exact h.next s
  · intro s
    rw [written_append_counter]
    exact h.sorted s
  · intro s e he
    rw [written_append_counter] at he
    have hlt := h.below s e he
    rw [hnext]
    split_ifs <;> omega
  · intro s q' d hd
    rw [get_commit_set, if_neg (walKey_ne_walSeqKey s shard q')] at hd
    rw [written_append_counter]
    exact h.entries s q' d hd
  · intro p hp hf
    rcases List.mem_append.mp hp with hp | hp
    · exact h.keys p hp hf
    · rw [List.mem_singleton.mp hp, family_walSeqKey] at hf
      exact absurd hf (by decide)

/-- Writing an entry under a number above all written ones keeps it. -/
theorem WalLogOK.write (h : WalLogOK w.db.view log) (hq : q.toNat < nextSeq shard w.db.view)
    (hnew : ∀ e ∈ written log shard, e.1.toNat < q.toNat) (data : Bytes) :
    WalLogOK (w.commit [.set (walKey shard q) data] true).db.view
      (log ++ [(walKey shard q, data)]) := by
  have hout : ∀ s, handedOut (log ++ [(walKey shard q, data)]) s = handedOut log s := by
    intro s
    refine handedOut_append_other fun p hp => ?_
    rw [List.mem_singleton.mp hp, family_walKey]
    decide
  have hwritten : ∀ s, written (log ++ [(walKey shard q, data)]) s =
      if shard = s then written log s ++ [(q, data)] else written log s := by
    intro s
    rw [written_append, written_entry]
    split_ifs with hs
    · rfl
    · exact List.append_nil _
  have hnext : ∀ s, nextSeq s (w.commit [.set (walKey shard q) data] true).db.view =
      nextSeq s w.db.view := by
    intro s
    refine nextSeq_congr ?_
    rw [get_commit_set, if_neg (walKey_ne_walSeqKey shard s q).symm]
  constructor
  · intro s
    rw [hout]
    exact h.seqs s
  · intro s
    rw [hout, hnext]
    exact h.next s
  · intro s
    rw [hwritten]
    split_ifs with hs
    · subst hs
      refine List.pairwise_append.mpr ⟨h.sorted _, List.pairwise_singleton _ _, fun a ha b hb => ?_⟩
      rw [List.mem_singleton.mp hb]
      exact UInt64.lt_iff_toNat_lt.mpr (hnew a ha)
    · exact h.sorted s
  · intro s e he
    rw [hnext]
    rw [hwritten] at he
    split_ifs at he with hs
    · subst hs
      rcases List.mem_append.mp he with he | he
      · exact h.below _ e he
      · rw [List.mem_singleton.mp he]
        exact hq
    · exact h.below s e he
  · intro s q' d hd
    rw [get_commit_set] at hd
    rw [hwritten]
    split_ifs at hd with he
    · obtain ⟨rfl, rfl⟩ := walKey_inj.mp he
      cases hd
      simp
    · have hold := h.entries s q' d hd
      split_ifs
      · exact List.mem_append_left _ hold
      · exact hold
  · intro p hp hf
    rcases List.mem_append.mp hp with hp | hp
    · exact h.keys p hp hf
    · exact ⟨shard, q, by rw [List.mem_singleton.mp hp]⟩

end Invariant

/-- The invariant of a state with its record. -/
def LogOK (x : World × WalLog) : Prop := WalLogOK x.1.db.view x.2

/-- What a successful append leaves: the next number is counted, and the entry
is stored under it. -/
def appended (shard : ShardID) (data : Bytes) (x : World × WalLog) : World × WalLog :=
  let q := freshSeq shard x.1.db.view
  ((x.1.commit [.set (walSeqKey shard) (putUint64 q)] true).commit [.set (walKey shard q) data] true,
    x.2 ++ [(walSeqKey shard, putUint64 q), (walKey shard q, data)])

/-- **An append keeps the invariant with every operation.** -/
theorem ensures_logOK_walAppend {shard : ShardID} {data : Bytes} {x : World × WalLog}
    (h : LogOK x) (hroom : nextSeq shard x.1.db.view < 2 ^ 64) :
    Ensures semLogged (fun x y => LogOK x → LogOK y) (walAppend shard data).run
      (fun r y => LogOK y ∧ (r = .ok () → y = appended shard data x)) x := by
  have hq := toNat_freshSeq hroom
  have hcount : LogOK (x.1.commit [.set (walSeqKey shard)
      (putUint64 (freshSeq shard x.1.db.view))] true,
      x.2 ++ [(walSeqKey shard, putUint64 (freshSeq shard x.1.db.view))]) := h.count hq
  -- the numbers in use are those below the new one
  have hentry : LogOK (appended shard data x) := by
    have hbelow : ∀ e ∈ written (x.2 ++ [(walSeqKey shard,
        putUint64 (freshSeq shard x.1.db.view))]) shard,
        e.1.toNat < (freshSeq shard x.1.db.view).toNat := by
      intro e he
      rw [written_append_counter] at he
      rw [hq]
      exact h.below shard e he
    have hwrite := WalLogOK.write hcount (by rw [nextSeq_counter]; omega) hbelow data
    rwa [List.append_assoc] at hwrite
  refine ensures_walAppend_logged rfl rfl rfl (fun hx => hx) (fun e => ⟨h, fun he => by cases he⟩)
    (fun _ => hcount) (fun hx => hx) (fun e => ⟨hcount, fun he => by cases he⟩)
    (fun _ => ?_) ⟨?_, fun _ => ?_⟩
  · simpa [LogOK, appended] using hentry
  · simpa [LogOK, appended] using hentry
  · simp [appended]

/-- A commit of a batch that touches no counter and adds no entry. -/
theorem LogOK.commit {x y : World × WalLog} {ws : List (World × WalLog)} {b : Batch}
    {r : Except Err Unit} (h : LogOK x) (hrun : Runs semLogged (batchCommit b true).run x ws r y)
    (hsets : ∀ p ∈ b.sets, family p.1 ≠ prefixWAL ∧ family p.1 ≠ prefixSeq)
    (hseq : ∀ (m : KV) s, (b.apply m).get (walSeqKey s) = m.get (walSeqKey s))
    (hwal : ∀ (m : KV) s q d, (b.apply m).get (walKey s q) = some d →
      m.get (walKey s q) = some d) : LogOK y := by
  rcases logged_commit (runs_call.mp hrun).1 with ⟨-, rfl⟩ | ⟨-, rfl⟩
  · rw [LogOK, World.commit_db, Pebble.view_commit]
    exact WalLogOK.other h hsets (hseq _) (hwal _)
  · exact h

/-- Fewer than 2^64 numbers were handed out for each shard. -/
def HasRoom (log : WalLog) : Prop := ∀ s, (handedOut log s).length < 2 ^ 64

theorem HasRoom.of_prefix {log log' : WalLog} (h : HasRoom log') (hpre : log <+: log') :
    HasRoom log := by
  obtain ⟨l, rfl⟩ := hpre
  intro s
  have hs := h s
  rw [handedOut_append, List.length_append] at hs
  omega

/-- **The record describes pebble** as long as no counter wraps. -/
theorem WalRun.ok {w : World} {log : WalLog} (h : WalRun w log) (hroom : HasRoom log) :
    LogOK (w, log) := by
  induction h with
  | start hempty hsynced => exact WalLogOK.start hempty
  | @append _ _ _ _ shard _ _ _ _ hrun ih =>
      have hroom₁ := hroom.of_prefix hrun.log_prefix
      have hok := ih hroom₁
      exact ((ensures_logOK_walAppend hok (by rw [hok.next shard]; exact hroom₁ shard)).runs hrun).2.1
  | @appendCut _ _ _ _ _ shard data _ h hcut hcrash ih =>
      have hroom₁ := hroom.of_prefix hcut.log_prefix
      have hok := ih hroom₁
      have hens := @ensures_logOK_walAppend shard data _ hok
        (by rw [hok.next shard]; exact hroom₁ shard)
      have hcut' := chain_forall (fun _ hx => hx) (fun h₁ h₂ hx => h₂ (h₁ hx)) (hens.cuts hcut) _
        (List.mem_of_getLast? hcut.getLast) hok
      rw [LogOK, (view_of_crash hcrash (h.synced.appendCut hcut.unlogged).1).1]
      exact hcut'
  | truncate h hrun ih =>
      refine (ih (hroom.of_prefix hrun.log_prefix)).commit hrun ?_ (fun m s => ?_)
        fun m s q d hd => ?_
      · intro p hp
        cases hp
      · rw [get_truncateOps, if_neg]
        exact notMem_walRange (by rw [family_walSeqKey]; decide)
      · rw [get_truncateOps] at hd
        split_ifs at hd
        exact hd
  | sealBlock h hrun ih =>
      refine (ih (hroom.of_prefix hrun.log_prefix)).commit hrun ?_ (fun m s => ?_)
        fun m s q d hd => ?_
      · intro p hp
        rcases List.mem_cons.mp hp with rfl | hp
        · rw [family_blockKey]
          decide
        · rw [List.mem_singleton.mp hp, family_expiryKey]
          decide
      · rw [get_sealOps_of_family _ _ _ _ _ (by rw [family_walSeqKey]; decide)
          (by rw [family_walSeqKey]; decide), if_neg]
        exact notMem_walRange (by rw [family_walSeqKey]; decide)
      · rw [get_sealOps_of_family _ _ _ _ _ (by rw [family_walKey]; decide)
          (by rw [family_walKey]; decide)] at hd
        split_ifs at hd
        exact hd
  | crash h hcrash ih =>
      rw [LogOK, (view_of_crash hcrash h.synced.1).1]
      exact ih hroom

/-! ## The order of the entries -/

/-- A list with ascending keys is a sublist of each such list that has all
its elements. -/
theorem sublist_of_ascending {α : Type} {l l' : List (UInt64 × α)}
    (h : l.Pairwise fun a b => a.1 < b.1) (h' : l'.Pairwise fun a b => a.1 < b.1)
    (hsub : ∀ p ∈ l, p ∈ l') : l.Sublist l' := by
  have hirr : ∀ {a b : UInt64 × α}, a.1 < b.1 → a ≠ b := by
    rintro a b hab rfl
    exact UInt64.lt_irrefl _ hab
  have hnodup : l.Nodup := h.imp hirr
  have hasymm : Std.Antisymm fun a b : UInt64 × α => a.1 < b.1 :=
    ⟨fun a b hab hba => absurd hab (UInt64.lt_asymm hba)⟩
  exact List.sublist_of_subperm_of_pairwise (List.subperm_of_subset hnodup hsub) h h'

/-- The numbers of a shard are handed out in ascending order. -/
theorem WalLogOK.handedOut_sorted {m : KV} {log : WalLog} (h : WalLogOK m log) (s : ShardID) :
    (handedOut log s).Pairwise (· < ·) := by
  have hrange : ((handedOut log s).map UInt64.toNat).Pairwise (· < ·) := by
    rw [h.seqs]
    exact List.pairwise_lt_range
  exact (List.pairwise_map.mp hrange).imp fun hlt => UInt64.lt_iff_toNat_lt.mpr hlt

/-- No key of the WAL family was set twice. -/
theorem WalLogOK.nodup {m : KV} {log : WalLog} (h : WalLogOK m log) :
    ((log.filter fun p => family p.1 = prefixWAL).map Prod.fst).Nodup := by
  refine List.pairwise_map.mpr (List.pairwise_iff_forall_sublist.mpr fun {a b} hsub hkey => ?_)
  have hmem := List.mem_filter.mp (hsub.subset List.mem_cons_self)
  obtain ⟨s, q, ha⟩ := h.keys a hmem.1 (by simpa using hmem.2)
  -- both would be entries of one shard under one number
  have hea : entryOf s a = some (q, a.2) := entryOf_eq_some.mpr (Prod.ext ha rfl)
  have heb : entryOf s b = some (q, b.2) := entryOf_eq_some.mpr (Prod.ext (hkey ▸ ha) rfl)
  have htwo := (hsub.trans List.filter_sublist).filterMap (entryOf s)
  rw [List.filterMap_cons_some hea, List.filterMap_cons_some heb] at htwo
  have hlt : (q, a.2).1 < (q, b.2).1 := List.pairwise_iff_forall_sublist.mp (h.sorted s) htwo
  exact UInt64.lt_irrefl _ hlt

/-- An append adds its entry behind those that are there. -/
theorem walEntries_append {w : World} {log : WalLog} (h : WalLogOK w.db.view log) {s : ShardID}
    (hroom : nextSeq s w.db.view < 2 ^ 64) (data : Bytes) (t : ShardID) :
    walEntries (appended s data (w, log)).1.db.view t =
      walEntries w.db.view t ++ if s = t then [(freshSeq s w.db.view, data)] else [] := by
  have hq := toNat_freshSeq hroom
  have hget : ∀ q d, (appended s data (w, log)).1.db.view.get (walKey t q) = some d ↔
      w.db.view.get (walKey t q) = some d ∨ s = t ∧ q = freshSeq s w.db.view ∧ d = data := by
    intro q d
    rw [appended, get_commit_set, get_commit_set, if_neg (walKey_ne_walSeqKey t s q)]
    split_ifs with hkey
    · obtain ⟨rfl, rfl⟩ := walKey_inj.mp hkey
      have hfree : w.db.view.get (walKey t (freshSeq t w.db.view)) ≠ some d := by
        intro hd
        have hlt : (freshSeq t w.db.view).toNat < _ := h.below t _ (h.entries t _ d hd)
        omega
      simp [hfree, eq_comm]
    · have hno : ¬ (s = t ∧ q = freshSeq s w.db.view ∧ d = data) := by
        rintro ⟨rfl, rfl, -⟩
        exact hkey rfl
      simp [hno]
  have hsorted : (walEntries w.db.view t ++
      if s = t then [(freshSeq s w.db.view, data)] else []).Pairwise fun a b => a.1 < b.1 := by
    refine List.pairwise_append.mpr ⟨entries_sorted _ _ _ _, ?_, fun a ha b hb => ?_⟩
    · split_ifs <;> simp
    · split_ifs at hb with hst
      · subst hst
        rw [List.mem_singleton.mp hb]
        have hlt : a.1.toNat < _ := h.below s _ (h.entries s a.1 a.2 (mem_walEntries.mp ha))
        exact UInt64.lt_iff_toNat_lt.mpr (hq ▸ hlt)
      · cases hb
  have hmem : ∀ e : UInt64 × Bytes, e ∈ walEntries (appended s data (w, log)).1.db.view t ↔
      e ∈ walEntries w.db.view t ++ if s = t then [(freshSeq s w.db.view, data)] else [] := by
    rintro ⟨q, d⟩
    rw [mem_walEntries, hget, List.mem_append, mem_walEntries]
    split_ifs with hst
    · simp [hst]
    · simp [hst]
  -- two ascending lists with the same elements
  exact (sublist_of_ascending (entries_sorted _ _ _ _) hsorted fun e he => (hmem e).mp he).antisymm
    (sublist_of_ascending hsorted (entries_sorted _ _ _ _) fun e he => (hmem e).mpr he)

/-- A successful append, with its record. -/
theorem runs_walAppend_logged {w w' : World} {log : WalLog} {s : ShardID} {data : Bytes}
    {ws : List World} (h : LogOK (w, log)) (hroom : nextSeq s w.db.view < 2 ^ 64)
    (hrun : Runs sem (walAppend s data).run w ws (.ok ()) w') :
    (appended s data (w, log)).1 = w' ∧ ∃ ws',
      Runs semLogged (walAppend s data).run (w, log) ws' (.ok ()) (appended s data (w, log)) := by
  obtain ⟨ws', log', hlogged⟩ := hrun.logged Op.sets log
  have hend := ((ensures_logOK_walAppend h hroom).runs hlogged).2.2 rfl
  exact ⟨(congrArg Prod.fst hend).symm, ws', hend ▸ hlogged⟩

/-- **No WAL key is written twice, and entries keep the order in which they
were appended**, over truncations, seals, failures and crashes: a successful
append stores its data behind all entries of its shard, under a number that was
never in use before. -/
theorem wal_append_order (w : World) (log : WalLog) (h : WalRun w log)
    (hcount : ∀ s, (handedOut log s).length < 2 ^ 64) :
    ((log.filter fun p => family p.1 = prefixWAL).map Prod.fst).Nodup ∧
    (∀ s, (handedOut log s).Pairwise (· < ·)) ∧
    (∀ s, (written log s).Pairwise fun a b => a.1 < b.1) ∧
    (∀ s, (walEntries w.db.view s).Sublist (written log s)) ∧
    ∀ s data ws w', Runs sem (walAppend s data).run w ws (.ok ()) w' →
      ∃ q, q ∉ handedOut log s ∧ (∀ d, (walKey s q, d) ∉ log) ∧
        WalRun w' (log ++ [(walSeqKey s, putUint64 q), (walKey s q, data)]) ∧
        ∀ t, walEntries w'.db.view t =
          walEntries w.db.view t ++ if s = t then [(q, data)] else [] := by
  have hok : WalLogOK w.db.view log := h.ok hcount
  refine ⟨hok.nodup, hok.handedOut_sorted, hok.sorted, fun s => ?_, ?_⟩
  · refine sublist_of_ascending (entries_sorted _ _ _ _) (hok.sorted s) fun e he => ?_
    exact hok.entries s e.1 e.2 (mem_walEntries.mp he)
  · intro s data ws w' hrun
    have hroom : nextSeq s w.db.view < 2 ^ 64 := by
      rw [hok.next s]
      exact hcount s
    have hq := toNat_freshSeq hroom
    obtain ⟨hw', ws', hlogged⟩ := runs_walAppend_logged hok hroom hrun
    refine ⟨freshSeq s w.db.view, fun hmem => ?_, fun d hmem => ?_, ?_, fun t => ?_⟩
    · -- the numbers handed out lie below the counter
      have hin := List.mem_map_of_mem (f := UInt64.toNat) hmem
      rw [hok.seqs, List.mem_range, hq, hok.next] at hin
      omega
    · have hlt : (freshSeq s w.db.view).toNat < _ := hok.below s _ (mem_written.mpr hmem)
      omega
    · rw [← hw']
      exact h.append hlogged
    · rw [← hw']
      exact walEntries_append hok hroom data t

/-! ## Error-free histories -/

/-- The error-free execution, with its record. -/
def execLogged {α : Type} (p : Proc α) (x : World × WalLog) : α × (World × WalLog) :=
  Prog.exec (S := machine) (fun (o : Op) (x : World × WalLog) =>
    ((o.exec x.1).1, ((o.exec x.1).2, x.2 ++ o.sets (o.exec x.1).1))) p x

theorem runs_execLogged {α : Type} (p : Proc α) (x : World × WalLog) :
    ∃ ws, Runs semLogged p x ws (execLogged p x).1 (execLogged p x).2 :=
  ⟨_, runs_exec (fun _ _ => ⟨Or.inl rfl, rfl⟩) p x⟩

/-- An empty pebble. -/
def noEntry : World × WalLog := (⟨Pebble.empty, fun _ => none, 0⟩, [])

theorem walRun_noEntry : WalRun noEntry.1 noEntry.2 := .start (fun _ => rfl) rfl

/-- The state after an append in which nothing goes wrong. -/
def andAppend (shard : ShardID) (data : Bytes) (x : World × WalLog) : World × WalLog :=
  (execLogged (walAppend shard data).run x).2

theorem WalRun.andAppend {x : World × WalLog} (h : WalRun x.1 x.2) (shard : ShardID)
    (data : Bytes) : WalRun (andAppend shard data x).1 (andAppend shard data x).2 := by
  obtain ⟨ws, hrun⟩ := runs_execLogged (walAppend shard data).run x
  exact h.append hrun

/-- Pebble after one append. -/
def oneEntry : World × WalLog := andAppend 7 [1] noEntry

theorem walRun_oneEntry : WalRun oneEntry.1 oneEntry.2 := walRun_noEntry.andAppend 7 [1]

/-- Two appends, a truncation, and two more appends. -/
def truncatedOnce : World × WalLog :=
  andAppend 7 [4] (andAppend 7 [3]
    (execLogged (walTruncate 7).run (andAppend 7 [2] oneEntry)).2)

theorem walRun_truncatedOnce : WalRun truncatedOnce.1 truncatedOnce.2 := by
  obtain ⟨ws, hrun⟩ := runs_execLogged (walTruncate 7).run (andAppend 7 [2] oneEntry)
  exact (((walRun_oneEntry.andAppend 7 [2]).truncate hrun).andAppend 7 [3]).andAppend 7 [4]

set_option maxRecDepth 100000 in
/-- The numbers go on after the truncation, and what is left is in order. -/
theorem wal_append_order_truncatedOnce :
    handedOut truncatedOnce.2 7 = [0, 1, 2, 3] ∧ (handedOut truncatedOnce.2 7).Pairwise (· < ·) ∧
    walEntries truncatedOnce.1.db.view 7 = [(2, [3]), (3, [4])] ∧
    (walEntries truncatedOnce.1.db.view 7).Sublist [(0, [1]), (1, [2]), (2, [3]), (3, [4])] := by
  have hwritten : written truncatedOnce.2 7 = [(0, [1]), (1, [2]), (2, [3]), (3, [4])] := by
    decide +kernel
  have hcount : ∀ s, (handedOut truncatedOnce.2 s).length < 2 ^ 64 := by
    intro s
    have hlen : truncatedOnce.2.length = 8 := by decide +kernel
    have hle : (handedOut truncatedOnce.2 s).length ≤ 8 := by
      rw [handedOut, List.length_map, ← hlen]
      exact List.length_filter_le _ _
    omega
  obtain ⟨-, hseqs, -, hsub, -⟩ :=
    wal_append_order truncatedOnce.1 truncatedOnce.2 walRun_truncatedOnce hcount
  exact ⟨by decide +kernel, hseqs 7, by decide +kernel, hwritten ▸ hsub 7⟩

end Bbdb.Meta
