import Bbdb.Meta.Store
import Bbdb.Tier.Local

/-!
# TTL — the reaper

One cycle of the reaper: scan the expiry keys whose hour has come, and for
each entry delete the files of the block from its tier and then its keys. A
block whose metadata cannot be read loses its keys only; a block on a tier
that is not configured is skipped.

A cycle of the reaper and one of the janitor have one shape (`sweep`): a clock
reading, a scan and a loop over what the scan found. `runs_sweep` says what it
can do: after its clock reading it only deletes files and keys of blocks whose
expiry it has found.
-/

namespace Bbdb.Ttl

open Bbdb.Meta Bbdb.Tier GoTime
open Prog hiding pure bind

/-- The configured stores. The pause between two deletions is not observed
by anything the cycle does. -/
structure ReaperConfig where
  tiers : Tier → Option LocalStore

/-- `uint64(t.UTC().Unix() / 3600)`. -/
def unixHour (t : Time) : UInt64 := UInt64.ofInt ((unix t).tdiv 3600)

/-- The loop of `RunOnce` over the expired entries. -/
def reapEntries (cfg : ReaperConfig) : List ExpiredEntry → Go Unit
  | [] => pure ()
  | entry :: rest => do
      if ← ctxErr then return ()
      match ← attempt (getBlockMeta entry.id) with
      | .error _ => do
          -- already gone: clean up the orphaned expiry key, best effort
          let _ ← attempt (deleteBlockAndExpiry entry.hour entry.id)
          reapEntries cfg rest
      | .ok bm =>
          match cfg.tiers bm.tier with
          | none => reapEntries cfg rest
          | some store => do
              store.delete entry.id
              deleteBlockAndExpiry entry.hour entry.id
              -- the pause, which the context can cut short
              if ← ctxErr then return ()
              reapEntries cfg rest

/-- What the loop does for one entry: `body` for a block with metadata on a
configured tier, then `rest`. The loop of the janitor has the same shape. -/
def sweepEntry (tiers : Tier → Option LocalStore) (entry : ExpiredEntry)
    (body : LocalStore → Go Unit) (rest : Go Unit) : Go Unit := do
  if ← ctxErr then return ()
  match ← attempt (getBlockMeta entry.id) with
  | .error _ => do
      let _ ← attempt (deleteBlockAndExpiry entry.hour entry.id)
      rest
  | .ok bm =>
      match tiers bm.tier with
      | none => rest
      | some store => body store

theorem reapEntries_cons (cfg : ReaperConfig) (entry : ExpiredEntry) (rest : List ExpiredEntry) :
    reapEntries cfg (entry :: rest) = sweepEntry cfg.tiers entry (fun store => do
      store.delete entry.id
      deleteBlockAndExpiry entry.hour entry.id
      if ← ctxErr then return ()
      reapEntries cfg rest) (reapEntries cfg rest) := rfl

/-- `RunOnce`. -/
def runOnce (cfg : ReaperConfig) : Go Unit := do
  let now ← timeNow
  let expired ← scanExpiredEntries (unixHour now)
  reapEntries cfg expired

/-- The hour number counts the hours that have passed. -/
theorem unixHour_eq {t : Int} (h₀ : 0 ≤ t) : unixHour t = UInt64.ofInt (t / hour) := by
  have hsec : 0 ≤ unix t := Int.ediv_nonneg h₀ (by decide)
  rw [unixHour, Int.tdiv_eq_ediv_of_nonneg hsec, unix, Int.ediv_ediv_of_nonneg (by decide)]
  rfl

/-- Whatever wraps, the hour number is at most the number of hours that have
passed. -/
theorem toNat_unixHour_le {t : Int} (h₀ : 0 ≤ t) : ((unixHour t).toNat : Int) ≤ t / hour := by
  obtain ⟨m, hm⟩ := Int.eq_ofNat_of_zero_le (Int.ediv_nonneg h₀ (show 0 ≤ hour by decide))
  rw [unixHour_eq h₀, hm, UInt64.ofInt, UInt64.toNat_ofNat']
  omega

/-! ## What a cycle does -/

/-- An entry whose expiry key is in `m` and whose hour has come at `t`. -/
def Expired (m : KV) (t : Time) (e : ExpiredEntry) : Prop :=
  (m.get (expiryKey e.hour e.id)).isSome ∧ e.hour < unixHour t + 1

/-- Whatever the limit of the scan wraps to, an entry it returns has come to
its hour. -/
theorem le_unixHour {t : Time} {h : UInt64} (hlt : h < unixHour t + 1) : h ≤ unixHour t := by
  have h1 : (1 : UInt64).toNat = 1 := rfl
  rw [UInt64.lt_iff_toNat_lt, UInt64.toNat_add, h1] at hlt
  rw [UInt64.le_iff_toNat_le]
  omega

/-- The files a cycle may remove for the entries in `E`. -/
def Reapable (cfg : ReaperConfig) (E : ExpiredEntry → Prop) (p : Path) : Prop :=
  ∃ e tier store, E e ∧ cfg.tiers tier = some store ∧
    (p = store.blockPath e.id ∨ p = store.bloomPath e.id)

/-- The operations of the loop, and of the loop of the janitor. -/
def ReapCalls (cfg : ReaperConfig) (E : ExpiredEntry → Prop) : Op → Prop
  | .ctxErr => True
  | .get _ => True
  | .stat _ => True
  | .remove p => Reapable cfg E p
  | .commit b sync => sync = true ∧ ∃ e, E e ∧ b = deleteOps e.hour e.id
  | _ => False

/-- What one of them can change. -/
structure ReapStep (cfg : ReaperConfig) (E : ExpiredEntry → Prop) (w w' : World) : Prop where
  files : ∀ p, ¬ Reapable cfg E p → w'.fs p = w.fs p
  db : w'.db = w.db ∨ ∃ e, E e ∧ w'.db = w.db.commit (deleteOps e.hour e.id) true
  clock : w.clock ≤ w'.clock

variable {cfg : ReaperConfig} {E : ExpiredEntry → Prop} {w w' : World} {ws : List World}

theorem reapStep_of_sem {o : Op} {r : o.Res} (ho : ReapCalls cfg E o) (h : sem o w r w') :
    ReapStep cfg E w w' := by
  have he := sem_effect h
  refine ⟨fun p hp => he.files p fun ht => ?_, ?_, he.clock⟩
  · cases o with
    | remove q =>
        have hq : p = q := ht
        exact hp (hq ▸ ho)
    | ctxErr | get _ | stat _ | commit _ _ => exact ht
    | _ => exact ho
  · rcases he.db with hdb | ⟨b, sync, rfl, hdb⟩
    · exact Or.inl hdb
    · obtain ⟨rfl, e, hE, rfl⟩ := ho
      exact Or.inr ⟨e, hE, hdb⟩

/-- A block without an entry keeps its metadata. -/
theorem ReapStep.blk (h : ReapStep cfg E w w') {id : BlockID} (hE : ∀ e, E e → e.id ≠ id) :
    w'.db.view.get (blockKey id) = w.db.view.get (blockKey id) := by
  rcases h.db with hdb | ⟨e, he, hdb⟩
  · rw [hdb]
  · rw [hdb, Pebble.view_commit, get_deleteOps, if_neg]
    rintro (hk | hk)
    · exact blockKey_ne_expiryKey hk
    · exact hE e he (blockKey_inj.mp hk).symm

/-- It keeps its file. -/
theorem ReapStep.blockFile (h : ReapStep cfg E w w') {id : BlockID} (hid : IsBlockID id)
    (hE : ∀ e, E e → e.id ≠ id) (st : LocalStore) :
    w'.fs (st.blockPath id) = w.fs (st.blockPath id) := by
  refine h.files _ ?_
  rintro ⟨e, tier, store, he, -, hp | hp⟩
  · exact hE e he (blockPath_inj hid hp).symm
  · exact blockPath_ne_bloomPath _ _ _ _ hp

theorem calls_removeIfPresent {p : Path} (text : String) (hp : Reapable cfg E p) :
    Calls (S := machine) (ReapCalls cfg E) (removeIfPresent p text).run := by
  refine calls_bind (calls_call.mpr hp) fun r => ?_
  cases r with
  | ok _ => exact calls_pure _
  | error e =>
      show Calls _ (if e = .notExist then _ else _)
      split_ifs <;> exact calls_pure _

theorem calls_delete {e : ExpiredEntry} {tier : Tier} {store : LocalStore} (he : E e)
    (hstore : cfg.tiers tier = some store) :
    Calls (S := machine) (ReapCalls cfg E) (store.delete e.id).run := by
  refine calls_bindE ?_ fun _ => ?_
  · exact calls_removeIfPresent _ ⟨e, tier, store, he, hstore, Or.inl rfl⟩
  · exact calls_removeIfPresent _ ⟨e, tier, store, he, hstore, Or.inr rfl⟩

theorem calls_attempt {P : Op → Prop} {α : Type} {f : Go α} (h : Calls (S := machine) P f.run) :
    Calls (S := machine) P (attempt f).run :=
  calls_bind h fun _ => calls_pure _

theorem calls_ctxErr : Calls (S := machine) (ReapCalls cfg E) (liftM ctxErr : Go Bool).run :=
  calls_bind (calls_call.mpr trivial) fun _ => calls_pure _

theorem calls_deleteBlockAndExpiry {e : ExpiredEntry} (he : E e) :
    Calls (S := machine) (ReapCalls cfg E) (deleteBlockAndExpiry e.hour e.id).run :=
  calls_call.mpr ⟨rfl, e, he, rfl⟩

theorem calls_sweepEntry {tiers : Tier → Option LocalStore} {e : ExpiredEntry}
    {body : LocalStore → Go Unit} {rest : Go Unit} (he : E e)
    (hbody : ∀ tier store, tiers tier = some store →
      Calls (S := machine) (ReapCalls cfg E) (body store).run)
    (hrest : Calls (S := machine) (ReapCalls cfg E) rest.run) :
    Calls (S := machine) (ReapCalls cfg E) (sweepEntry tiers e body rest).run := by
  refine calls_bindE calls_ctxErr fun cancelled => ?_
  cases cancelled with
  | true => exact calls_pure _
  | false =>
      refine calls_bindE (calls_attempt (calls_getBlockMeta (fun _ => trivial) e.id)) fun r => ?_
      cases r with
      | error err =>
          exact calls_bindE (calls_attempt (calls_deleteBlockAndExpiry he)) fun _ => hrest
      | ok bm =>
          show Calls _ (match tiers bm.tier with
            | none => rest
            | some store => body store).run
          cases hstore : tiers bm.tier with
          | none => exact hrest
          | some store => exact hbody _ store hstore

/-- The loop deletes for its entries and does nothing else. -/
theorem calls_reapEntries {entries : List ExpiredEntry} (hE : ∀ e ∈ entries, E e) :
    Calls (S := machine) (ReapCalls cfg E) (reapEntries cfg entries).run := by
  induction entries with
  | nil => exact calls_pure _
  | cons e rest ih =>
      have he : E e := hE e List.mem_cons_self
      have hrest := ih fun x hx => hE x (List.mem_cons_of_mem _ hx)
      rw [reapEntries_cons]
      refine calls_sweepEntry he (fun tier store hstore => ?_) hrest
      refine calls_bindE (calls_delete he hstore) fun _ => ?_
      refine calls_bindE (calls_deleteBlockAndExpiry he) fun _ =>
        calls_bindE calls_ctxErr fun cancelled => ?_
      cases cancelled with
      | true => exact calls_pure _
      | false => exact hrest

/-- A clock reading, a scan, and a loop over the entries found: a cycle of the
reaper, or of the janitor. -/
def sweep (loop : List ExpiredEntry → Go Unit) : Go Unit := do
  let now ← timeNow
  let entries ← scanExpiredEntries (unixHour now)
  loop entries

theorem runOnce_eq (cfg : ReaperConfig) : runOnce cfg = sweep (reapEntries cfg) := rfl

/-- The ways a sweep can go: the clock is read, and then the scan fails, or the
loop runs over the entries that have expired by then. -/
theorem runs_sweep_cases {loop : List ExpiredEntry → Go Unit} {r : Except Err Unit}
    (h : Runs sem (sweep loop).run w ws r w') :
    ∃ t, w.clock ≤ t ∧ (ws = [readClock w t, readClock w t] ∨
      ∃ ws', ws = readClock w t :: readClock w t :: ws' ∧
        Runs sem (loop (expiredEntries
          (w.db.view.range prefixExpiry (expiryKeyUpperBound (unixHour t))))).run
          (readClock w t) ws' r w') := by
  rcases runs_bindE.mp h with ⟨e, -, hr⟩ | ⟨t, w₁, ws₁, ws₂, rfl, hr, hk⟩
  · obtain ⟨_, _, _, _, -, -, -, he, -⟩ := runs_bind.mp hr
    cases he
  obtain ⟨t', w₂, ws₃, ws₄, rfl, hnow, rfl, ht, rfl⟩ := runs_bind.mp hr
  cases ht
  obtain ⟨ht, rfl, rfl⟩ := runs_timeNow hnow
  refine ⟨t, ht, ?_⟩
  rcases runs_bindE.mp hk with ⟨e, -, hscan⟩ | ⟨expired, w₃, ws₅, ws₆, rfl, hscan, hentries⟩
  · -- the scan failed
    rcases runs_bindE.mp hscan with ⟨e, -, hiter⟩ | ⟨_, _, _, _, -, -, -, he, -⟩
    · obtain ⟨-, rfl, -⟩ := runs_dbIter hiter
      exact Or.inl rfl
    · cases he
  · obtain ⟨entries, w₄, ws₇, ws₈, rfl, hiter, rfl, he, rfl⟩ := runs_bindE_ok.mp hscan
    cases he
    obtain ⟨rfl, rfl, hl⟩ := runs_dbIter hiter
    rw [hl entries rfl] at hentries
    exact Or.inr ⟨ws₆, rfl, hentries⟩

/-- **What a sweep did**: one clock reading, and then nothing but deletions
for entries that had expired by then. -/
theorem runs_sweep {loop : List ExpiredEntry → Go Unit} {r : Except Err Unit}
    (hloop : ∀ (E : ExpiredEntry → Prop) entries, (∀ e ∈ entries, E e) →
      Calls (S := machine) (ReapCalls cfg E) (loop entries).run)
    (h : Runs sem (sweep loop).run w ws r w') :
    ∃ t ws', w.clock ≤ t ∧ ws = readClock w t :: ws' ∧
      List.IsChain (ReapStep cfg (Expired w.db.view t)) (readClock w t :: ws') := by
  obtain ⟨t, ht, hcases⟩ := runs_sweep_cases h
  have hstay : ∀ x : World, ReapStep cfg (Expired w.db.view t) x x :=
    fun x => ⟨fun _ _ => rfl, Or.inl rfl, le_refl _⟩
  rcases hcases with rfl | ⟨ws', rfl, hentries⟩
  · refine ⟨t, _, ht, rfl, ?_⟩
    exact List.isChain_cons_cons.mpr ⟨hstay _, List.isChain_singleton _⟩
  · refine ⟨t, _, ht, rfl, List.isChain_cons_cons.mpr ⟨hstay _, ?_⟩⟩
    have hE : ∀ e ∈ expiredEntries
        (w.db.view.range prefixExpiry (expiryKeyUpperBound (unixHour t))),
        Expired w.db.view t e := fun e he => mem_expiredEntries_iff.mp he
    refine ((hloop _ _ hE).ensures ?_ _).runs hentries |>.1
    exact fun o w r w' ho hs => reapStep_of_sem ho hs

theorem runs_runOnce {r : Except Err Unit} (h : Runs sem (runOnce cfg).run w ws r w') :
    ∃ t ws', w.clock ≤ t ∧ ws = readClock w t :: ws' ∧
      List.IsChain (ReapStep cfg (Expired w.db.view t)) (readClock w t :: ws') :=
  runs_sweep (fun _ _ hE => calls_reapEntries hE) h

/-! ## The order of the deletions -/

/-- A bloom file is removed only when its block file is gone; metadata is
left as it is or deleted. -/
structure BlockFirst (w w' : World) : Prop where
  files : ∀ (s : LocalStore) (id : BlockID),
    (w'.fs (s.blockPath id) = w.fs (s.blockPath id) ∧
      w'.fs (s.bloomPath id) = w.fs (s.bloomPath id)) ∨ w'.fs (s.blockPath id) = none
  blk : ∀ id v, w'.db.view.get (blockKey id) = some v → w.db.view.get (blockKey id) = some v

theorem BlockFirst.of_same (hfs : w'.fs = w.fs) (hdb : w'.db = w.db) : BlockFirst w w' :=
  ⟨fun s id => Or.inl ⟨by rw [hfs], by rw [hfs]⟩, fun id v h => by rwa [hdb] at h⟩

theorem BlockFirst.refl (w : World) : BlockFirst w w := .of_same rfl rfl

theorem BlockFirst.trans {a b c : World} (h₁ : BlockFirst a b) (h₂ : BlockFirst b c) :
    BlockFirst a c := by
  refine ⟨fun s id => ?_, fun id v h => h₁.blk id v (h₂.blk id v h)⟩
  rcases h₂.files s id with ⟨hblock, hbloom⟩ | hnone
  · rcases h₁.files s id with ⟨hblock', hbloom'⟩ | hnone'
    · exact Or.inl ⟨hblock.trans hblock', hbloom.trans hbloom'⟩
    · exact Or.inr (hblock.trans hnone')
  · exact Or.inr hnone

theorem blockFirst_removeBlock (w : World) (s : LocalStore) (id : BlockID) :
    BlockFirst w (w.setFile (s.blockPath id) none) := by
  refine ⟨fun s' id' => ?_, fun _ _ h => h⟩
  by_cases hp : s'.blockPath id' = s.blockPath id
  · exact Or.inr (by rw [hp, World.setFile_fs, FS.put_self])
  · refine Or.inl ⟨FS.put_ne _ _ hp, FS.put_ne _ _ ?_⟩
    exact (blockPath_ne_bloomPath s s' id id').symm

theorem blockFirst_removeBloom {s : LocalStore} {id : BlockID}
    (h : w.fs (s.blockPath id) = none) : BlockFirst w (w.setFile (s.bloomPath id) none) := by
  refine ⟨fun s' id' => ?_, fun _ _ h => h⟩
  have hblock : (w.setFile (s.bloomPath id) none).fs (s'.blockPath id') =
      w.fs (s'.blockPath id') := FS.put_ne _ _ (blockPath_ne_bloomPath s' s id' id)
  by_cases hp : s'.bloomPath id' = s.bloomPath id
  · exact Or.inr (by rw [hblock, blockPath_eq_of_bloomPath hp, h])
  · exact Or.inl ⟨hblock, FS.put_ne _ _ hp⟩

theorem blockFirst_commit (w : World) (hour : UInt64) (id : BlockID) :
    BlockFirst w (w.commit (deleteOps hour id) true) := by
  refine ⟨fun _ _ => Or.inl ⟨rfl, rfl⟩, fun id' v h => ?_⟩
  rw [World.commit_db, Pebble.view_commit, get_deleteOps] at h
  split_ifs at h
  exact h

/-- `Delete` removes the block file first. -/
theorem ensures_delete (s : LocalStore) (id : BlockID) (w : World) :
    Ensures sem BlockFirst (s.delete id).run (fun _ _ => True) w := by
  refine ensures_bindE ((ensures_removeIfPresent (.refl w)
    (blockFirst_removeBlock w s id)).mono fun r x hx => ?_)
  cases r with
  | error e => trivial
  | ok u =>
      have hbloom : Ensures sem BlockFirst (removeIfPresent (s.bloomPath id) "delete bloom").run
          _ x := ensures_removeIfPresent (.refl x) (blockFirst_removeBloom hx)
      exact hbloom.mono fun _ _ _ => trivial

/-- The operations of the loop besides `Delete`: those of a reaper without
tiers. -/
theorem ensures_noTiers {α : Type} {p : Proc α}
    (hp : Calls (S := machine) (ReapCalls ⟨fun _ => none⟩ fun _ => True) p) (w : World) :
    Ensures sem BlockFirst p (fun _ _ => True) w := by
  refine hp.ensures (fun o x r y ho hs => ?_) w
  have hstep := reapStep_of_sem ho hs
  have hfs : y.fs = x.fs := by
    funext q
    refine hstep.files q fun hq => ?_
    obtain ⟨_, _, _, -, ht, -⟩ := hq
    cases ht
  rcases hstep.db with hdb | ⟨e, -, hdb⟩
  · exact .of_same hfs hdb
  · refine (blockFirst_commit x e.hour e.id).trans (.of_same hfs ?_)
    rw [hdb, World.commit_db]

theorem calls_deleteKeys (e : ExpiredEntry) :
    Calls (S := machine) (ReapCalls ⟨fun _ => none⟩ fun _ => True)
      (deleteBlockAndExpiry e.hour e.id).run :=
  calls_call.mpr ⟨rfl, e, trivial, rfl⟩

theorem ensures_sweepEntry {tiers : Tier → Option LocalStore} {e : ExpiredEntry}
    {body : LocalStore → Go Unit} {rest : Go Unit}
    (hbody : ∀ s w, Ensures sem BlockFirst (body s).run (fun _ _ => True) w)
    (hrest : ∀ w, Ensures sem BlockFirst rest.run (fun _ _ => True) w) (w : World) :
    Ensures sem BlockFirst (sweepEntry tiers e body rest).run (fun _ _ => True) w := by
  have hmeta : Calls (S := machine) (ReapCalls ⟨fun _ => none⟩ fun _ => True)
      (attempt (getBlockMeta e.id)).run :=
    calls_attempt (calls_getBlockMeta (fun _ => trivial) e.id)
  refine ensures_seqE (ensures_noTiers calls_ctxErr w) fun cancelled w₁ => ?_
  cases cancelled with
  | true => trivial
  | false =>
      refine ensures_seqE (ensures_noTiers hmeta w₁) fun found w₂ => ?_
      cases found with
      | error err =>
          have hdel := ensures_noTiers (calls_attempt (calls_deleteKeys e)) w₂
          exact ensures_seqE hdel fun _ => hrest
      | ok bm =>
          dsimp only
          cases tiers bm.tier with
          | none => exact hrest w₂
          | some s => exact hbody s w₂

theorem ensures_reapEntries (entries : List ExpiredEntry) (w : World) :
    Ensures sem BlockFirst (reapEntries cfg entries).run (fun _ _ => True) w := by
  induction entries generalizing w with
  | nil => trivial
  | cons e rest ih =>
      rw [reapEntries_cons]
      refine ensures_sweepEntry (fun store w₁ => ?_) ih w
      refine ensures_seqE (ensures_delete store e.id w₁) fun _ w₂ => ?_
      refine ensures_seqE (ensures_noTiers (calls_deleteKeys e) w₂) fun _ w₃ => ?_
      refine ensures_seqE (ensures_noTiers calls_ctxErr w₃) fun cancelled w₄ => ?_
      cases cancelled with
      | true => trivial
      | false => exact ih w₄

/-- **A cycle removes block files before bloom files**, also if it fails. -/
theorem blockFirst_of_runs {r : Except Err Unit} (h : Runs sem (runOnce cfg).run w ws r w') :
    BlockFirst w w' := by
  have hnow : ∀ x : World, Ensures sem BlockFirst (liftM timeNow : Go Time).run
      (fun _ _ => True) x := by
    intro x
    refine ensures_bind (ensures_call fun t y hs => ?_)
    rcases hs with hs | ⟨-, rfl⟩
    · cases hs
      exact ⟨.refl x, trivial⟩
    · exact ⟨.of_same rfl rfl, trivial⟩
  have hscan : ∀ (n : UInt64) (x : World), Ensures sem BlockFirst (scanExpiredEntries n).run
      (fun _ _ => True) x := by
    intro n x
    refine ensures_bindE (ensures_call fun res y hs => ?_)
    rcases hs with hs | ⟨rfl, rfl⟩
    · cases hs
      exact ⟨.refl x, trivial⟩
    · exact ⟨.refl _, trivial⟩
  have hall : Ensures sem BlockFirst (runOnce cfg).run (fun _ _ => True) w :=
    ensures_seqE (hnow w) fun t x => ensures_seqE (hscan (unixHour t) x) ensures_reapEntries
  exact Prog.chain_forall BlockFirst.refl BlockFirst.trans (hall.runs h).1 w'
    (List.mem_of_getLast? h.getLast)

end Bbdb.Ttl
