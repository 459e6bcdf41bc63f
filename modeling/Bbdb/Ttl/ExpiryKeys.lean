import Bbdb.Ttl.Janitor
import Bbdb.Ttl.Retention

/-!
# TTL — blocks and their expiry keys

The metadata of a store that is changed by `SealBatch`, the reaper and the
janitor. `last` is a ghost: the expiry hour that the last successful
`SealBatch` of a block was given.

`SealBatch` adds an expiry key and never removes one, and a sweep deletes the
metadata of a block for any of its expiry keys. So a block that is sealed
again under another hour has two keys, and the earlier one ends it. As long as
no `SealBatch` finds an expiry key of its block with another hour, blocks and
expiry keys correspond one to one (`expiry_keys_match`).
-/

namespace Bbdb.Ttl

open Bbdb.Meta Bbdb.Tier GoTime
open Prog hiding pure bind

/-! ## Runs -/

/-- The stores reached from the empty one; a `SealBatch` is called only with
`cond`. Between the calls the clock may be set and the files may change. -/
inductive ExpiryRun (cond : World → BlockID → UInt64 → Prop) :
    World → (BlockID → Option UInt64) → Prop
  | start (t : Time) : ExpiryRun cond ⟨Pebble.empty, fun _ => none, t⟩ fun _ => none
  | sealBatch {w w' : World} {last : BlockID → Option UInt64} {shard : ShardID} {id : BlockID}
      {bm : BlockMeta} {hour : UInt64} {ws : List World} {r : Except Err Unit} :
      ExpiryRun cond w last → cond w id hour →
      Runs sem (sealBatch shard id bm hour).run w ws r w' →
      ExpiryRun cond w' (if r.isOk then Function.update last id (some hour) else last)
  | reap {w w' : World} {last : BlockID → Option UInt64} {cfg : ReaperConfig} {ws : List World}
      {r : Except Err Unit} :
      ExpiryRun cond w last → Runs sem (runOnce cfg).run w ws r w' → ExpiryRun cond w' last
  | clean {w w' : World} {last : BlockID → Option UInt64} {cfg : JanitorConfig} {ws : List World}
      {r : Except Err Unit} :
      ExpiryRun cond w last → Runs sem (janitorRunOnce cfg).run w ws r w' → ExpiryRun cond w' last
  | around {w w' : World} {last : BlockID → Option UInt64} :
      ExpiryRun cond w last → w'.db = w.db → ExpiryRun cond w' last

/-- The block has no expiry key of another hour. -/
def SameHour (w : World) (id : BlockID) (hour : UInt64) : Prop :=
  ∀ h, (w.db.view.get (expiryKey h id)).isSome → h = hour

/-! ## The invariant -/

structure ExpiryInv (m : KV) (last : BlockID → Option UInt64) : Prop where
  exp : ∀ h id, (m.get (expiryKey h id)).isSome → last id = some h
  blk : ∀ id, (m.get (blockKey id)).isSome →
    ∃ h, last id = some h ∧ (m.get (expiryKey h id)).isSome

section
variable {m : KV} {last : BlockID → Option UInt64} {w w' : World}

theorem ExpiryInv.sealOps (h : ExpiryInv m last) {shard : ShardID} {id : BlockID}
    {bm : BlockMeta} {hour : UInt64}
    (hsame : ∀ n, (m.get (expiryKey n id)).isSome → n = hour) :
    ExpiryInv ((sealOps shard id bm hour).apply m) (Function.update last id (some hour)) := by
  constructor
  · intro n id' hn
    rw [get_sealOps_expiryKey] at hn
    by_cases hid : id' = id
    · subst hid
      rw [Function.update_self]
      split_ifs at hn with he
      · rw [he.1]
      · rw [hsame n hn]
    · rw [if_neg fun he => hid he.2] at hn
      rw [Function.update_of_ne hid]
      exact h.exp n id' hn
  · intro id' hblk
    rw [get_sealOps_blockKey] at hblk
    by_cases hid : id' = id
    · subst hid
      refine ⟨hour, Function.update_self .., ?_⟩
      rw [get_sealOps_expiryKey, if_pos ⟨rfl, rfl⟩]
      rfl
    · rw [if_neg hid] at hblk
      obtain ⟨n, hlast, hn⟩ := h.blk id' hblk
      refine ⟨n, by rwa [Function.update_of_ne hid], ?_⟩
      rw [get_sealOps_expiryKey, if_neg fun he => hid he.2]
      exact hn

/-- Deleting a block together with an expiry key. -/
theorem ExpiryInv.deleteOps (h : ExpiryInv m last) (e : ExpiredEntry) :
    ExpiryInv ((deleteOps e.hour e.id).apply m) last := by
  constructor
  · intro n id hn
    rw [get_deleteOps] at hn
    split_ifs at hn
    · cases hn
    · exact h.exp n id hn
  · intro id hblk
    rw [get_deleteOps] at hblk
    split_ifs at hblk with hk
    · cases hblk
    · rw [not_or] at hk
      have hid : id ≠ e.id := fun hid => hk.2 (by rw [hid])
      obtain ⟨n, hlast, hn⟩ := h.blk id hblk
      refine ⟨n, hlast, ?_⟩
      rw [get_deleteOps, if_neg]
      · exact hn
      · rintro (hk' | hk')
        · exact hid (expiryKey_inj.mp hk').2
        · exact blockKey_ne_expiryKey hk'.symm

theorem ExpiryInv.reapStep {cfg : ReaperConfig} {E : ExpiredEntry → Prop}
    (h : ExpiryInv w.db.view last) (hs : ReapStep cfg E w w') : ExpiryInv w'.db.view last := by
  rcases hs.db with hdb | ⟨e, -, hdb⟩
  · rwa [hdb]
  · rw [hdb, Pebble.view_commit]
    exact h.deleteOps e

theorem ExpiryInv.sweep (cfg : ReaperConfig) {loop : List ExpiredEntry → Go Unit}
    {ws : List World} {r : Except Err Unit} (h : ExpiryInv w.db.view last)
    (hloop : ∀ (E : ExpiredEntry → Prop) entries, (∀ e ∈ entries, E e) →
      Calls (S := machine) (ReapCalls cfg E) (loop entries).run)
    (hrun : Runs sem (sweep loop).run w ws r w') : ExpiryInv w'.db.view last := by
  obtain ⟨t, ws', -, rfl, hchain⟩ := runs_sweep hloop hrun
  have hlast := hrun.getLast
  rw [List.getLast?_cons_cons] at hlast
  have hinv : List.IsChain (fun x y => ExpiryInv x.db.view last → ExpiryInv y.db.view last)
      (readClock w t :: ws') := hchain.imp fun _ _ hs hx => hx.reapStep hs
  exact chain_forall (fun _ hx => hx) (fun h₁ h₂ hx => h₂ (h₁ hx)) hinv w'
    (List.mem_of_getLast? hlast) h

/-- **Run lemma.** -/
theorem expiryInv_of_run (h : ExpiryRun SameHour w last) : ExpiryInv w.db.view last := by
  induction h with
  | start t => exact ⟨fun _ _ h => (by cases h), fun _ h => (by cases h)⟩
  | @sealBatch w w' last shard id bm hour ws r _ hsame hrun ih =>
      cases r with
      | error e =>
          rw [runs_batchCommit_error hrun]
          exact ih
      | ok u =>
          obtain rfl := runs_batchCommit_ok hrun
          rw [World.commit_db, Pebble.view_commit]
          exact ih.sealOps hsame
  | @reap w w' last cfg ws r _ hrun ih =>
      exact ih.sweep cfg (fun _ _ hE => calls_reapEntries hE) hrun
  | clean _ hrun ih =>
      exact ih.sweep ⟨fun _ => none⟩ (fun _ _ hE => calls_cleanEntries hE) hrun
  | around _ hdb ih => rwa [hdb]

end

/-! ## One to one -/

/-- The metadata of the block is there in `w` and gone in `x`; or so is its
file in a store, where the id is one that names a file. -/
def LostIn (w x : World) (id : BlockID) : Prop :=
  (w.db.view.get (blockKey id)).isSome ∧ x.db.view.get (blockKey id) = none ∨
    IsBlockID id ∧ ∃ st : LocalStore, (w.fs (st.blockPath id)).isSome ∧
      x.fs (st.blockPath id) = none

/-- The block is in `b` as it is in `a`. -/
def KeepsBlock (id : BlockID) (a b : World) : Prop :=
  b.db.view.get (blockKey id) = a.db.view.get (blockKey id) ∧
    (IsBlockID id → ∀ st : LocalStore, b.fs (st.blockPath id) = a.fs (st.blockPath id))

/-- Without an entry for the block, a sweep leaves it alone. -/
theorem not_lostIn_of_chain {cfg : ReaperConfig} {E : ExpiredEntry → Prop} {w x : World}
    {ws : List World} {id : BlockID} (hE : ∀ e, E e → e.id ≠ id)
    (h : List.IsChain (ReapStep cfg E) (w :: ws)) (hx : x ∈ w :: ws) : ¬ LostIn w x id := by
  have hkeeps : List.IsChain (KeepsBlock id) (w :: ws) :=
    h.imp fun _ _ hs => ⟨hs.blk hE, fun hid => hs.blockFile hid hE⟩
  have hsame : KeepsBlock id w x :=
    chain_forall (fun _ => ⟨rfl, fun _ _ => rfl⟩)
      (fun h₁ h₂ => ⟨h₂.1.trans h₁.1, fun hid st => (h₂.2 hid st).trans (h₁.2 hid st)⟩) hkeeps x hx
  rintro (⟨hsome, hnone⟩ | ⟨hid, st, hsome, hnone⟩)
  · rw [← hsame.1, hnone] at hsome
    cases hsome
  · rw [← hsame.2 hid st, hnone] at hsome
    cases hsome

/-- **Blocks and expiry keys correspond one to one**, in every store reached by
any calls of `SealBatch`, reaper and janitor in which no `SealBatch` finds an
expiry key of its block with another hour: a block has exactly one expiry key,
with the hour of its last `SealBatch`, and no reaper cycle deletes it before
that hour has come. -/
theorem expiry_keys_match {w : World} {last : BlockID → Option UInt64}
    (h : ExpiryRun SameHour w last) :
    (∀ id, (w.db.view.get (blockKey id)).isSome →
      ∃ hour, last id = some hour ∧ ∀ n, (w.db.view.get (expiryKey n id)).isSome ↔ n = hour) ∧
    ∀ cfg ws r w', Runs sem (runOnce cfg).run w ws r w' → ∀ id, ∀ x ∈ ws, LostIn w x id →
      ∃ hour t, last id = some hour ∧ ws.head? = some (readClock w t) ∧ hour ≤ unixHour t := by
  have hinv := expiryInv_of_run h
  refine ⟨fun id hblk => ?_, fun cfg ws r w' hrun id x hx hlost => ?_⟩
  · obtain ⟨hour, hlast, hexp⟩ := hinv.blk id hblk
    refine ⟨hour, hlast, fun n => ⟨fun hn => ?_, fun hn => hn ▸ hexp⟩⟩
    exact Option.some.inj ((hinv.exp n id hn).symm.trans hlast)
  · obtain ⟨t, ws', -, rfl, hchain⟩ := runs_runOnce hrun
    by_contra hno
    refine not_lostIn_of_chain (fun e he hid => hno ?_) hchain hx hlost
    exact ⟨e.hour, t, hid ▸ hinv.exp e.hour e.id he.1, rfl, le_unixHour he.2⟩

/-! ### A block sealed twice -/

def blockA : BlockID := blockIDFromShardAndHour 0 (ascii "1970-01-01T00")

def hotMeta : BlockMeta := ⟨0, 0, 0, tierHot, 0, 0⟩

def sealA (w : World) (hour : UInt64) : World := ((sealBatch 0 blockA hotMeta hour).run.exec w).2

/-- Sealed to expire at hour 10. -/
def sealedOnce : World := sealA ⟨Pebble.empty, fun _ => none, 0⟩ 10

/-- Sealed again to expire at hour 20. -/
def sealedTwice : World := sealA sealedOnce 20

/-- The clock stands at hour 10. -/
def atTen (w : World) : World := { w with clock := 10 * hour }

theorem run_sealA {cond : World → BlockID → UInt64 → Prop} {w : World}
    {last : BlockID → Option UInt64} (h : ExpiryRun cond w last) {n : UInt64}
    (hc : cond w blockA n) :
    ExpiryRun cond (sealA w n) (Function.update last blockA (some n)) :=
  .sealBatch h hc (runs_procExec (sealBatch 0 blockA hotMeta n).run w)

theorem run_sealedOnce {cond : World → BlockID → UInt64 → Prop}
    (hc : cond ⟨Pebble.empty, fun _ => none, 0⟩ blockA 10) :
    ExpiryRun cond sealedOnce (Function.update (fun _ => none) blockA (some 10)) :=
  run_sealA (.start 0) hc

theorem expiry_keys_match_sealedOnce :
    ExpiryRun SameHour sealedOnce (Function.update (fun _ => none) blockA (some 10)) ∧
      (sealedOnce.db.view.get (blockKey blockA)).isSome ∧
      ∃ hour, Function.update (fun _ => none) blockA (some 10) blockA = some hour ∧
        ∀ n, (sealedOnce.db.view.get (expiryKey n blockA)).isSome ↔ n = hour := by
  have hrun : ExpiryRun SameHour sealedOnce (Function.update (fun _ => none) blockA (some 10)) :=
    run_sealedOnce fun _ h => (by cases h)
  have hblk : (sealedOnce.db.view.get (blockKey blockA)).isSome := by decide +kernel
  exact ⟨hrun, hblk, (expiry_keys_match hrun).1 blockA hblk⟩

/-- **The earlier of two expiry keys ends the block**: sealed for hour 10 and
again for hour 20, it has both keys, and a reaper cycle at hour 10 deletes its
metadata. -/
theorem resealed_block_reaped_early :
    ∃ last, ExpiryRun (fun _ _ _ => True) (atTen sealedTwice) last ∧ last blockA = some 20 ∧
      ((atTen sealedTwice).db.view.get (blockKey blockA)).isSome ∧
      ((atTen sealedTwice).db.view.get (expiryKey 10 blockA)).isSome ∧
      ((atTen sealedTwice).db.view.get (expiryKey 20 blockA)).isSome ∧
      ∃ ws r w', Runs sem (runOnce hotReaper).run (atTen sealedTwice) ws r w' ∧
        w'.db.view.get (blockKey blockA) = none ∧ unixHour w'.clock = 10 := by
  refine ⟨_, .around (run_sealA (run_sealedOnce trivial) trivial) rfl, Function.update_self ..,
    by decide +kernel, by decide +kernel, by decide +kernel, _, _, _,
    runs_procExec (runOnce hotReaper).run (atTen sealedTwice), by decide +kernel,
    by decide +kernel⟩

end Bbdb.Ttl
