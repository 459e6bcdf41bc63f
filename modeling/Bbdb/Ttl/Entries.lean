import Bbdb.Ttl.Janitor

/-!
# TTL — one entry at a time

The reaper and the janitor go through the expired entries in one way: ask for
the metadata of the block, handle the entry by the answer, go on or stop
(`loop_cons`). What they do with an answer is a function of that answer
(`Sweeper.handle`), whatever made pebble give it.

A run of a sweep is therefore a list of handled entries. `Swept` says which
lists belong to which runs, and `runs_runOnce_records` that every run has one.
-/

namespace Bbdb.Ttl

open Bbdb.Meta Bbdb.Tier GoTime
open Prog hiding pure bind

/-- The two sweeps. -/
inductive Sweeper where
  | reaper
  | janitor
  deriving DecidableEq, Repr

namespace Sweeper

/-- What is done for a block with metadata on a configured tier, and whether
the loop goes on. -/
def body (entry : ExpiredEntry) (store : LocalStore) : Sweeper → Go Bool
  | .reaper => do
      store.delete entry.id
      deleteBlockAndExpiry entry.hour entry.id
      let cancelled ← ctxErr
      pure (!cancelled)
  | .janitor => do
      let exist ← store.exists_ entry.id
      if exist then pure true
      else do
        deleteBlockAndExpiry entry.hour entry.id
        pure true

/-- What is done for an entry once `GetBlockMeta` has answered. -/
def handle (sw : Sweeper) (tiers : Tier → Option LocalStore) (entry : ExpiredEntry) :
    Except Err BlockMeta → Go Bool
  | .error _ => do
      let _ ← attempt (deleteBlockAndExpiry entry.hour entry.id)
      pure true
  | .ok bm =>
      match tiers bm.tier with
      | none => pure true
      | some store => sw.body entry store

def loop (tiers : Tier → Option LocalStore) : Sweeper → List ExpiredEntry → Go Unit
  | .reaper => reapEntries ⟨tiers⟩
  | .janitor => cleanEntries ⟨tiers⟩

/-- `RunOnce` of either. -/
def runOnce (tiers : Tier → Option LocalStore) : Sweeper → Go Unit
  | .reaper => Ttl.runOnce ⟨tiers⟩
  | .janitor => janitorRunOnce ⟨tiers⟩

variable {sw : Sweeper} {tiers : Tier → Option LocalStore}

theorem runOnce_eq_sweep (sw : Sweeper) (tiers : Tier → Option LocalStore) :
    sw.runOnce tiers = sweep (sw.loop tiers) := by
  cases sw with
  | reaper => exact Ttl.runOnce_eq _
  | janitor => exact janitorRunOnce_eq _

theorem loop_nil (sw : Sweeper) (tiers : Tier → Option LocalStore) :
    sw.loop tiers [] = pure () := by
  cases sw <;> rfl

/-- A loop body that ends in the rest of the loop handles its entry first. -/
theorem sweepEntry_eq {entry : ExpiredEntry} {inner : LocalStore → Go Unit} {rest : Go Unit}
    (hinner : ∀ store,
      inner store = sw.body entry store >>= fun on => if on then rest else pure ()) :
    sweepEntry tiers entry inner rest = (do
      if ← ctxErr then return ()
      let found ← attempt (getBlockMeta entry.id)
      if ← sw.handle tiers entry found then rest else pure ()) := by
  refine bind_congr fun cancelled => ?_
  cases cancelled with
  | true => rfl
  | false =>
      refine bind_congr fun found => ?_
      cases found with
      | error e => simp [handle]
      | ok bm =>
          dsimp only [handle]
          cases tiers bm.tier with
          | none => simp
          | some store => exact hinner store

/-- **The loop, one entry at a time.** -/
theorem loop_cons (sw : Sweeper) (tiers : Tier → Option LocalStore) (entry : ExpiredEntry)
    (rest : List ExpiredEntry) :
    sw.loop tiers (entry :: rest) = (do
      if ← ctxErr then return ()
      let found ← attempt (getBlockMeta entry.id)
      if ← sw.handle tiers entry found then sw.loop tiers rest else pure ()) := by
  cases sw with
  | reaper =>
      refine (reapEntries_cons _ _ _).trans (sweepEntry_eq fun store => ?_)
      simp only [body, LawfulMonad.bind_assoc]
      refine bind_congr fun _ => bind_congr fun _ => bind_congr fun cancelled => ?_
      cases cancelled <;> simp
  | janitor =>
      refine (cleanEntries_cons _ _ _).trans (sweepEntry_eq fun store => ?_)
      simp only [body, LawfulMonad.bind_assoc]
      refine bind_congr fun exist => ?_
      cases exist <;> simp

end Sweeper

/-- Handling an entry deletes what belongs to it. -/
theorem calls_handle {sw : Sweeper} {cfg : ReaperConfig} {E : ExpiredEntry → Prop}
    {entry : ExpiredEntry} (he : E entry) (found : Except Err BlockMeta) :
    Calls (S := machine) (ReapCalls cfg E) (sw.handle cfg.tiers entry found).run := by
  cases found with
  | error e => exact calls_bindE (calls_attempt (calls_deleteBlockAndExpiry he)) fun _ => calls_pure _
  | ok bm =>
      dsimp only [Sweeper.handle]
      cases hstore : cfg.tiers bm.tier with
      | none => exact calls_pure _
      | some store =>
          cases sw with
          | reaper =>
              refine calls_bindE (calls_delete he hstore) fun _ => ?_
              exact calls_bindE (calls_deleteBlockAndExpiry he) fun _ =>
                calls_bindE calls_ctxErr fun _ => calls_pure _
          | janitor =>
              refine calls_bindE (calls_exists store entry.id) fun exist => ?_
              cases exist with
              | true => exact calls_pure _
              | false => exact calls_bindE (calls_deleteBlockAndExpiry he) fun _ => calls_pure _

/-! ## What a run handled -/

/-- One entry of a run: the world in which `GetBlockMeta` was asked, its
answer, and the worlds after that. -/
structure Handling where
  entry : ExpiredEntry
  before : World
  found : Except Err BlockMeta
  after : List World

/-- `GetBlockMeta` can give this answer. -/
def MetaAnswer (w : World) (id : BlockID) (found : Except Err BlockMeta) : Prop :=
  Runs sem (getBlockMeta id).run w [w] found w

/-- The answer was given, and handling it ended with `r` in `w'`. -/
structure Handling.Ends (sw : Sweeper) (tiers : Tier → Option LocalStore) (h : Handling)
    (r : Except Err Bool) (w' : World) : Prop where
  asked : MetaAnswer h.before h.entry.id h.found
  handled : Runs sem (sw.handle tiers h.entry h.found).run h.before h.after r w'

/-- The loop over `entries` from `w` passes the worlds `ws` and handles `hs`.
Asking for a cancellation and for the metadata changes nothing. -/
inductive Swept (sw : Sweeper) (tiers : Tier → Option LocalStore) :
    List ExpiredEntry → World → List World → List Handling → Prop
  | finished (w : World) : Swept sw tiers [] w [] []
  | cancelled (entry : ExpiredEntry) (rest : List ExpiredEntry) (w : World) :
      Swept sw tiers (entry :: rest) w [w] []
  | stopped {h : Handling} {r : Except Err Bool} {w' : World} (rest : List ExpiredEntry) :
      h.Ends sw tiers r w' → r ≠ .ok true →
      Swept sw tiers (h.entry :: rest) h.before (h.before :: h.before :: h.after) [h]
  | next {h : Handling} {w' : World} {rest : List ExpiredEntry} {ws : List World}
      {hs : List Handling} :
      h.Ends sw tiers (.ok true) w' → Swept sw tiers rest w' ws hs →
      Swept sw tiers (h.entry :: rest) h.before (h.before :: h.before :: (h.after ++ ws)) (h :: hs)

/-- A whole sweep: a clock reading, a scan, and the loop unless the scan
failed. -/
def Sweeper.Records (sw : Sweeper) (tiers : Tier → Option LocalStore) (w : World)
    (ws : List World) (hs : List Handling) : Prop :=
  ∃ t, w.clock ≤ t ∧
    (ws = [readClock w t, readClock w t] ∧ hs = [] ∨
      ∃ ws', ws = readClock w t :: readClock w t :: ws' ∧
        Swept sw tiers
          (expiredEntries (w.db.view.range prefixExpiry (expiryKeyUpperBound (unixHour t))))
          (readClock w t) ws' hs)

variable {sw : Sweeper} {tiers : Tier → Option LocalStore} {w w' : World} {ws : List World}
  {id : BlockID}

/-- Reading the metadata is one operation, which changes nothing. -/
theorem answers_of_runs {found : Except Err BlockMeta}
    (h : Runs sem (getBlockMeta id).run w ws found w') :
    w' = w ∧ ws = [w] ∧ MetaAnswer w id found := by
  have hw : w' = w := runs_reads (calls_getBlockMeta (fun _ => trivial) id) h
  have hws : ws = [w] := by
    obtain ⟨val, x, ws₁, ws₂, rfl, hget, hk⟩ := runs_bind.mp h
    obtain ⟨hs, rfl⟩ := runs_call.mp hget
    have hsame : w = x := @sem_reads _ _ (.get (blockKey id)) _ trivial hs
    subst hsame
    cases val with
    | ok v =>
        obtain ⟨rfl, -, -⟩ := hk
        rfl
    | error e =>
        dsimp only at hk
        split_ifs at hk
        · obtain ⟨rfl, -, -⟩ := hk
          rfl
        · obtain ⟨rfl, -, -⟩ := hk
          rfl
  refine ⟨hw, hws, ?_⟩
  rw [MetaAnswer]
  rwa [hw, hws] at h

theorem runs_ctxErr {r : Except Err Bool}
    (h : Runs sem (liftM ctxErr : Go Bool).run w ws r w') :
    w' = w ∧ ws = [w] ∧ ∃ b, r = .ok b := by
  obtain ⟨b, x, ws₁, ws₂, rfl, hctx, rfl, rfl, rfl⟩ := runs_bind.mp h
  obtain ⟨hs, rfl⟩ := runs_call.mp hctx
  obtain rfl := sem_ctxErr hs
  exact ⟨rfl, rfl, b, rfl⟩

theorem runs_attempt {α : Type} {f : Go α} {r : Except Err (Except Err α)}
    (h : Runs sem (attempt f).run w ws r w') :
    ∃ r', r = .ok r' ∧ Runs sem f.run w ws r' w' := by
  obtain ⟨r', x, ws₁, ws₂, rfl, hf, rfl, rfl, rfl⟩ := runs_bind.mp h
  exact ⟨r', rfl, by rwa [List.append_nil]⟩

/-- **Every run of the loop is a list of handled entries.** -/
theorem runs_loop_swept {entries : List ExpiredEntry} {r : Except Err Unit}
    (h : Runs sem (sw.loop tiers entries).run w ws r w') :
    ∃ hs, Swept sw tiers entries w ws hs := by
  induction entries generalizing w ws with
  | nil =>
      rw [Sweeper.loop_nil] at h
      obtain ⟨rfl, -, rfl⟩ := h
      exact ⟨[], .finished _⟩
  | cons entry rest ih =>
      rw [Sweeper.loop_cons] at h
      rcases runs_bindE.mp h with ⟨e, -, hctx⟩ | ⟨stop, w₁, ws₁, ws₂, rfl, hctx, hk⟩
      · obtain ⟨-, -, b, hb⟩ := runs_ctxErr hctx
        cases hb
      obtain ⟨rfl, rfl, -⟩ := runs_ctxErr hctx
      cases stop with
      | true =>
          obtain ⟨rfl, -, -⟩ := hk
          exact ⟨[], .cancelled entry rest _⟩
      | false =>
          rcases runs_bindE.mp hk with ⟨e, -, hmeta⟩ | ⟨found, w₂, ws₃, ws₄, rfl, hmeta, hk₂⟩
          · obtain ⟨_, hr, -⟩ := runs_attempt hmeta
            cases hr
          obtain ⟨found', hfound, hget⟩ := runs_attempt hmeta
          cases hfound
          obtain ⟨rfl, rfl, hasked⟩ := answers_of_runs hget
          rcases runs_bindE.mp hk₂ with ⟨e, -, hrun⟩ | ⟨on, w₃, ws₅, ws₆, rfl, hrun, hk₃⟩
          · -- the handling failed, and the loop with it
            exact ⟨_, .stopped rest (h := ⟨entry, _, found, ws₄⟩) ⟨hasked, hrun⟩ (by simp)⟩
          · cases on with
            | false =>
                obtain ⟨rfl, -, -⟩ := hk₃
                rw [List.append_nil]
                exact ⟨_, .stopped rest (h := ⟨entry, _, found, ws₅⟩) ⟨hasked, hrun⟩ (by simp)⟩
            | true =>
                obtain ⟨hs, hswept⟩ := ih hk₃
                exact ⟨_, .next (h := ⟨entry, _, found, ws₅⟩) ⟨hasked, hrun⟩ hswept⟩

/-- **Every run of a sweep is a list of handled entries.** -/
theorem runs_runOnce_records {r : Except Err Unit}
    (h : Runs sem (sw.runOnce tiers).run w ws r w') : ∃ hs, sw.Records tiers w ws hs := by
  rw [Sweeper.runOnce_eq_sweep] at h
  obtain ⟨t, ht, rfl | ⟨ws', rfl, hloop⟩⟩ := runs_sweep_cases h
  · exact ⟨[], t, ht, Or.inl ⟨rfl, rfl⟩⟩
  · obtain ⟨hs, hswept⟩ := runs_loop_swept hloop
    exact ⟨hs, t, ht, Or.inr ⟨ws', rfl, hswept⟩⟩

/-! ## The entries of a run -/

/-- Handling an entry leaves the other keys alone. -/
theorem Handling.Ends.key {h : Handling} {r : Except Err Bool} (hends : h.Ends sw tiers r w')
    {k : Bytes} (hblk : k ≠ blockKey h.entry.id) (hexp : k ≠ expiryKey h.entry.hour h.entry.id) :
    w'.db.view.get k = h.before.db.view.get k := by
  have hcalls : Calls (S := machine) (ReapCalls ⟨tiers⟩ (h.entry = ·))
      (sw.handle tiers h.entry h.found).run := @calls_handle sw ⟨tiers⟩ _ _ rfl h.found
  have hkeep : ∀ x y : World, ReapStep ⟨tiers⟩ (h.entry = ·) x y →
      y.db.view.get k = x.db.view.get k := by
    intro x y hstep
    rcases hstep.db with hdb | ⟨e, rfl, hdb⟩
    · rw [hdb]
    · rw [hdb, Pebble.view_commit, get_deleteOps, if_neg]
      rintro (hk | hk)
      · exact hexp hk
      · exact hblk hk
  refine hcalls.runs (G := fun x y => y.db.view.get k = x.db.view.get k) (fun _ => rfl) ?_
    (fun o x r y ho hs => hkeep x y (reapStep_of_sem ho hs)) hends.handled
  intro x y z hxy hyz
  exact hyz.trans hxy

/-- **When an entry is handled its expiry key is still there**: the entries of
a scan are different, and none takes the expiry key of another with it. -/
theorem Swept.present {entries : List ExpiredEntry} {hs : List Handling}
    (h : Swept sw tiers entries w ws hs) (hnodup : entries.Nodup)
    (hkeys : ∀ e ∈ entries, (w.db.view.get (expiryKey e.hour e.id)).isSome) :
    ∀ x ∈ hs, (x.before.db.view.get (expiryKey x.entry.hour x.entry.id)).isSome := by
  induction h with
  | finished w => exact fun x hx => absurd hx List.not_mem_nil
  | cancelled entry rest w => exact fun x hx => absurd hx List.not_mem_nil
  | stopped rest hends hr =>
      intro x hx
      rw [List.mem_singleton.mp hx]
      exact hkeys _ List.mem_cons_self
  | next hends _ ih =>
      obtain ⟨hnotin, hnodup⟩ := List.nodup_cons.mp hnodup
      intro x hx
      rcases List.mem_cons.mp hx with rfl | hx
      · exact hkeys _ List.mem_cons_self
      · refine ih hnodup (fun e he => ?_) x hx
        rw [hends.key blockKey_ne_expiryKey.symm]
        · exact hkeys e (List.mem_cons_of_mem _ he)
        · intro hk
          obtain ⟨hhour, hid⟩ := expiryKey_inj.mp hk
          cases e
          subst hhour hid
          exact hnotin he

end Bbdb.Ttl
