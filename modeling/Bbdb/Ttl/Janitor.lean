import Bbdb.Ttl.Reaper

/-!
# TTL — the janitor

One sweep of the janitor: scan the expiry keys whose hour has come, and for
each entry whose block file is gone delete the keys of the block. Like the
reaper it deletes the keys only of a block whose metadata cannot be read, and
skips a block on a tier that is not configured. Whether a block is gone it
learns from its block file alone.
-/

namespace Bbdb.Ttl

open Bbdb.Meta Bbdb.Tier GoTime
open Prog hiding pure bind

structure JanitorConfig where
  tiers : Tier → Option LocalStore

/-- The loop of the janitor's `RunOnce` over the expired entries. -/
def cleanEntries (cfg : JanitorConfig) : List ExpiredEntry → Go Unit
  | [] => pure ()
  | entry :: rest => do
      if ← ctxErr then return ()
      match ← attempt (getBlockMeta entry.id) with
      | .error _ => do
          -- already gone: clean up the leftover expiry key, best effort
          let _ ← attempt (deleteBlockAndExpiry entry.hour entry.id)
          cleanEntries cfg rest
      | .ok bm =>
          match cfg.tiers bm.tier with
          | none => cleanEntries cfg rest
          | some store => do
              let exist ← store.exists_ entry.id
              if exist then cleanEntries cfg rest
              else do
                deleteBlockAndExpiry entry.hour entry.id
                cleanEntries cfg rest

/-- `Janitor.RunOnce`. -/
def janitorRunOnce (cfg : JanitorConfig) : Go Unit := do
  let now ← timeNow
  let entries ← scanExpiredEntries (unixHour now)
  cleanEntries cfg entries

/-! ## What a sweep does -/

theorem janitorRunOnce_eq (cfg : JanitorConfig) : janitorRunOnce cfg = sweep (cleanEntries cfg) :=
  rfl

theorem cleanEntries_cons (cfg : JanitorConfig) (entry : ExpiredEntry)
    (rest : List ExpiredEntry) :
    cleanEntries cfg (entry :: rest) = sweepEntry cfg.tiers entry (fun store => do
      let exist ← store.exists_ entry.id
      if exist then cleanEntries cfg rest
      else do
        deleteBlockAndExpiry entry.hour entry.id
        cleanEntries cfg rest) (cleanEntries cfg rest) := rfl

variable {cfg : ReaperConfig} {E : ExpiredEntry → Prop}

theorem calls_exists (s : LocalStore) (id : BlockID) :
    Calls (S := machine) (ReapCalls cfg E) (s.exists_ id).run := by
  refine calls_bind (calls_call.mpr trivial) fun r => ?_
  cases r with
  | ok n => exact calls_pure _
  | error e => exact calls_pure _

/-- The loop deletes keys of its entries and nothing else. -/
theorem calls_cleanEntries {jcfg : JanitorConfig} {entries : List ExpiredEntry}
    (hE : ∀ e ∈ entries, E e) :
    Calls (S := machine) (ReapCalls cfg E) (cleanEntries jcfg entries).run := by
  induction entries with
  | nil => exact calls_pure _
  | cons e rest ih =>
      have he : E e := hE e List.mem_cons_self
      have hrest := ih fun x hx => hE x (List.mem_cons_of_mem _ hx)
      rw [cleanEntries_cons]
      refine calls_sweepEntry he (fun tier store hstore => ?_) hrest
      refine calls_bindE (calls_exists store e.id) fun exist => ?_
      cases exist with
      | true => exact hrest
      | false => exact calls_bindE (calls_deleteBlockAndExpiry he) fun _ => hrest

end Bbdb.Ttl
