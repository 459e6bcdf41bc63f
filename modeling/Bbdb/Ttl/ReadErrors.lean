import Bbdb.Ttl.Entries
import Bbdb.Ttl.Orphans

/-!
# TTL — metadata that cannot be read

`GetBlockMeta` fails in two ways: there is no metadata, or there may be some
and it could not be read or decoded. Both sweeps take every failure for the
first and delete the keys of the entry. After a read error the block is left
with its files and without keys (`readError_orphans`): no sweep will find it
again.

Whatever else fails, a sweep that meets no such error deletes the metadata of
a block only when its block file is gone, and an entry is treated well
whatever happens next exactly when its metadata could be read
(`sweep_safe_iff`).
-/

namespace Bbdb.Ttl

open Bbdb.Meta Bbdb.Block Bbdb.Tier GoTime
open Prog hiding pure bind

/-- An error of `GetBlockMeta` other than `ErrNotFound`. -/
def OtherError : Except Err BlockMeta → Prop
  | .ok _ => False
  | .error e => Err.is .notFound e = false

/-- The block file is absent from the tier that the metadata names. -/
def GoneFromTier (tiers : Tier → Option LocalStore) (w : World) (id : BlockID) : Prop :=
  ∃ val bm store, w.db.view.get (blockKey id) = some val ∧ decodeBlockMeta val = .ok bm ∧
    tiers bm.tier = some store ∧ w.fs (store.blockPath id) = none

/-- Metadata goes only when the block file is gone. -/
def MetaAfterFile (tiers : Tier → Option LocalStore) (w w' : World) : Prop :=
  ∀ id, (w.db.view.get (blockKey id)).isSome → w'.db.view.get (blockKey id) = none →
    GoneFromTier tiers w id

/-- How an entry should be handled: metadata goes only when the block file is
gone, and after an error other than `ErrNotFound` the keys stay. -/
structure Handling.Safe (tiers : Tier → Option LocalStore) (h : Handling) : Prop where
  file : List.IsChain (MetaAfterFile tiers) (h.before :: h.after)
  keys : OtherError h.found → ∀ w ∈ h.after,
    w.db.view.get (blockKey h.entry.id) = h.before.db.view.get (blockKey h.entry.id) ∧
    w.db.view.get (expiryKey h.entry.hour h.entry.id) =
      h.before.db.view.get (expiryKey h.entry.hour h.entry.id)

variable {sw : Sweeper} {tiers : Tier → Option LocalStore} {w w' : World} {ws : List World}
  {id : BlockID}

/-! ## What an answer says -/

/-- The metadata that is found is the one that is there. -/
theorem MetaAnswer.ok {bm : BlockMeta} (h : MetaAnswer w id (.ok bm)) :
    ∃ val, w.db.view.get (blockKey id) = some val ∧ decodeBlockMeta val = .ok bm := by
  obtain ⟨res, x, _, _, -, hget, hk⟩ := runs_bind.mp h
  rcases (runs_call.mp hget).1 with hs | ⟨rfl, -⟩
  · simp only [Op.exec] at hs
    cases hval : w.db.view.get (blockKey id) with
    | none =>
        rw [hval] at hs
        cases hs
        obtain ⟨-, he, -⟩ := hk
        cases he
    | some val =>
        rw [hval] at hs
        cases hs
        obtain ⟨-, he, -⟩ := hk
        exact ⟨val, rfl, he.symm⟩
  · obtain ⟨-, he, -⟩ := hk
    cases he

/-- `ErrNotFound` says that there is none. -/
theorem MetaAnswer.notFound {e : Err} (h : MetaAnswer w id (.error e)) (he : Err.is .notFound e = true) :
    w.db.view.get (blockKey id) = none := by
  obtain ⟨res, x, _, _, -, hget, hk⟩ := runs_bind.mp h
  rcases (runs_call.mp hget).1 with hs | ⟨rfl, -⟩
  · simp only [Op.exec] at hs
    cases hval : w.db.view.get (blockKey id) with
    | none => rfl
    | some val =>
        rw [hval] at hs
        cases hs
        -- a value that does not decode is another error
        obtain ⟨-, hdec, -⟩ := hk
        rw [decodeBlockMeta] at hdec
        split_ifs at hdec
        cases hdec
        cases he
  · obtain ⟨-, hio, -⟩ := hk
    cases hio
    cases he

/-! ## One entry -/

theorem metaAfterFile_of_same (hdb : w'.db = w.db) : MetaAfterFile tiers w w' := by
  intro id hsome hnone
  rw [← hdb, hnone] at hsome
  cases hsome

/-- The keys of an entry, once they may go. -/
theorem metaAfterFile_commit {n : UInt64}
    (h : (w.db.view.get (blockKey id)).isSome → GoneFromTier tiers w id) :
    MetaAfterFile tiers w (w.commit (deleteOps n id) true) := by
  intro id' hsome hnone
  rw [World.commit_db, Pebble.view_commit, get_deleteOps] at hnone
  split_ifs at hnone with hk
  · rcases hk with hk | hk
    · exact absurd hk blockKey_ne_expiryKey
    · obtain rfl := blockKey_inj.mp hk
      exact h hsome
  · rw [hnone] at hsome
    cases hsome

theorem ensures_deleteKeys {n : UInt64}
    (h : (w.db.view.get (blockKey id)).isSome → GoneFromTier tiers w id) :
    Ensures sem (MetaAfterFile tiers) (deleteBlockAndExpiry n id).run (fun _ _ => True) w := by
  refine ensures_call fun r w' hs => ⟨?_, trivial⟩
  rcases hs with hs | ⟨-, rfl⟩
  · cases hs
    exact metaAfterFile_commit h
  · exact metaAfterFile_of_same rfl

/-- Files may have been removed, and nothing else has happened. -/
structure Unlinks (x y : World) : Prop where
  db : y.db = x.db
  files : ∀ q, y.fs q = x.fs q ∨ y.fs q = none

theorem Unlinks.gone {x y : World} {p : Path} (h : Unlinks x y) (hp : x.fs p = none) :
    y.fs p = none := by
  rcases h.files p with hsame | hnone
  · rw [hsame, hp]
  · exact hnone

theorem ensures_unlink (w : World) (p : Path) (text : String) :
    Ensures sem Unlinks (removeIfPresent p text).run
      (OnResult (fun _ y => y.fs p = none) fun _ _ => True) w := by
  refine ensures_removeIfPresent ⟨rfl, fun _ => Or.inl rfl⟩ ⟨rfl, fun q => ?_⟩
  by_cases hq : q = p
  · exact Or.inr (by rw [hq, World.setFile_fs, FS.put_self])
  · exact Or.inl (FS.put_ne _ _ hq)

/-- After a `Delete` that succeeds the block file is gone. -/
theorem ensures_unlinkFiles (store : LocalStore) (id : BlockID) (w : World) :
    Ensures sem Unlinks (store.delete id).run
      (OnResult (fun _ x => x.fs (store.blockPath id) = none) fun _ _ => True) w := by
  refine ensures_bindE ((ensures_unlink w _ _).mono fun r x hx => ?_)
  cases r with
  | error e => trivial
  | ok u =>
      -- the bloom file goes next, and the block file does not come back
      have hstays := (ensures_unlink x (store.bloomPath id) "delete bloom").strengthen
        (R := fun x y : World => x.fs (store.blockPath id) = none →
          y.fs (store.blockPath id) = none)
        (fun _ _ h => h.gone) (fun _ h => h) (fun h₁ h₂ h => h₂ (h₁ h))
      refine hstays.mono fun r y hy => ?_
      cases r with
      | error e => trivial
      | ok u => exact hy.2 hx

/-- `Delete` leaves pebble alone and, if it succeeds, the block file gone. -/
theorem ensures_deleteFiles (store : LocalStore) (id : BlockID) (w : World) :
    Ensures sem (MetaAfterFile tiers) (store.delete id).run
      (OnResult (fun _ x => x.db = w.db ∧ x.fs (store.blockPath id) = none) fun _ _ => True)
      w := by
  have hdb := (ensures_unlinkFiles store id w).strengthen
    (R := fun x y : World => y.db = x.db)
    (fun _ _ h => h.db) (fun _ => rfl) (fun h₁ h₂ => Eq.trans h₂ h₁)
  refine (hdb.weaken fun x y h => metaAfterFile_of_same h.db).mono fun r x hx => ?_
  cases r with
  | error e => trivial
  | ok u => exact ⟨hx.2, hx.1⟩

theorem ensures_exists (store : LocalStore) (id : BlockID) (w : World) :
    Ensures sem (MetaAfterFile tiers) (store.exists_ id).run
      (OnResult (fun exist x => x = w ∧ (exist = false → w.fs (store.blockPath id) = none))
        fun _ _ => True) w := by
  refine ensures_bind (ensures_call fun r x hs => ?_)
  have hx : w = x := @sem_reads _ _ (.stat (store.blockPath id)) _ trivial hs
  subst hx
  refine ⟨metaAfterFile_of_same rfl, ?_⟩
  rcases hs with hs | ⟨rfl, -⟩
  · simp only [Op.exec] at hs
    cases hfile : w.fs (store.blockPath id) with
    | none =>
        rw [hfile] at hs
        cases hs
        exact ⟨rfl, fun _ => rfl⟩
    | some c =>
        rw [hfile] at hs
        cases hs
        exact ⟨rfl, fun h => by cases h⟩
  · exact trivial

/-- **A readable answer is handled well**, whatever fails after it. -/
theorem ensures_handle {entry : ExpiredEntry} {found : Except Err BlockMeta}
    (hasked : MetaAnswer w entry.id found) (hfound : ¬ OtherError found) :
    Ensures sem (MetaAfterFile tiers) (sw.handle tiers entry found).run (fun _ _ => True) w := by
  cases found with
  | error e =>
      have hnone := hasked.notFound (by simpa [OtherError] using hfound)
      refine ensures_bindE (ensures_bind ((ensures_deleteKeys ?_).mono fun r x _ => trivial))
      intro hsome
      rw [hnone] at hsome
      cases hsome
  | ok bm =>
      obtain ⟨val, hval, hdec⟩ := hasked.ok
      dsimp only [Sweeper.handle]
      cases hstore : tiers bm.tier with
      | none => trivial
      | some store =>
          cases sw with
          | reaper =>
              refine ensures_bindE ((ensures_deleteFiles store entry.id w).mono fun r x hx => ?_)
              cases r with
              | error e => trivial
              | ok u =>
                  obtain ⟨hdb, hgone⟩ := hx
                  refine ensures_seqE (ensures_deleteKeys fun _ => ?_) fun _ y => ?_
                  · exact ⟨val, bm, store, by rw [hdb, hval], hdec, hstore, hgone⟩
                  · refine ensures_seqE (ensures_bind (ensures_call fun b z hs => ?_)) fun _ _ => trivial
                    exact ⟨metaAfterFile_of_same (by rw [sem_ctxErr hs]), trivial⟩
          | janitor =>
              refine ensures_bindE ((ensures_exists store entry.id w).mono fun r x hx => ?_)
              cases r with
              | error e => trivial
              | ok exist =>
                  obtain ⟨rfl, hgone⟩ := hx
                  cases exist with
                  | true => trivial
                  | false =>
                      refine ensures_seqE (ensures_deleteKeys fun _ => ?_) fun _ _ => trivial
                      exact ⟨val, bm, store, hval, hdec, hstore, hgone rfl⟩

theorem Handling.Ends.safe {h : Handling} {r : Except Err Bool} (hends : h.Ends sw tiers r w')
    (hfound : ¬ OtherError h.found) : h.Safe tiers :=
  ⟨((ensures_handle hends.asked hfound).runs hends.handled).1, fun h => absurd h hfound⟩

/-- After another error the keys can go, and then they do. -/
theorem exists_unsafe {h : Handling} (hasked : MetaAnswer h.before h.entry.id h.found)
    (hkey : (h.before.db.view.get (expiryKey h.entry.hour h.entry.id)).isSome)
    (hfound : OtherError h.found) :
    ∃ after r w', Handling.Ends sw tiers { h with after := after } r w' ∧
      ¬ Handling.Safe tiers { h with after := after } := by
  obtain ⟨entry, before, found, after⟩ := h
  cases found with
  | ok bm => exact hfound.elim
  | error e =>
      have hrun : Runs sem (sw.handle tiers entry (.error e)).run before
          [before.commit (deleteOps entry.hour entry.id) true] (.ok true)
          (before.commit (deleteOps entry.hour entry.id) true) :=
        runs_procExec (sw.handle tiers entry (.error e)).run before
      refine ⟨[before.commit (deleteOps entry.hour entry.id) true], _, _, ⟨hasked, hrun⟩,
        fun hsafe => ?_⟩
      have hkept := (hsafe.keys hfound _ (List.mem_singleton_self _)).2
      rw [World.commit_db, Pebble.view_commit, get_deleteOps, if_pos (Or.inl rfl)] at hkept
      rw [← hkept] at hkey
      cases hkey

/-! ## A whole sweep -/

theorem Swept.chain {entries : List ExpiredEntry} {hs : List Handling}
    (h : Swept sw tiers entries w ws hs) (hfound : ∀ x ∈ hs, ¬ OtherError x.found) :
    List.IsChain (MetaAfterFile tiers) (w :: ws) := by
  have hstay : ∀ x : World, MetaAfterFile tiers x x := fun x => metaAfterFile_of_same rfl
  induction h with
  | finished w => exact List.isChain_singleton _
  | cancelled entry rest w => exact List.isChain_cons_cons.mpr ⟨hstay _, List.isChain_singleton _⟩
  | stopped rest hends hr =>
      have hsafe := hends.safe (hfound _ List.mem_cons_self)
      exact List.isChain_cons_cons.mpr ⟨hstay _, List.isChain_cons_cons.mpr ⟨hstay _, hsafe.file⟩⟩
  | next hends _ ih =>
      have hsafe := hends.safe (hfound _ List.mem_cons_self)
      have hrest := ih fun x hx => hfound x (List.mem_cons_of_mem _ hx)
      refine List.isChain_cons_cons.mpr ⟨hstay _, List.isChain_cons_cons.mpr ⟨hstay _, ?_⟩⟩
      exact chain_append hsafe.file hends.handled.getLast hrest

theorem Swept.asked {entries : List ExpiredEntry} {hs : List Handling}
    (h : Swept sw tiers entries w ws hs) :
    ∀ x ∈ hs, MetaAnswer x.before x.entry.id x.found := by
  induction h with
  | finished w => exact fun x hx => absurd hx List.not_mem_nil
  | cancelled entry rest w => exact fun x hx => absurd hx List.not_mem_nil
  | stopped rest hends hr =>
      intro x hx
      rw [List.mem_singleton.mp hx]
      exact hends.asked
  | next hends _ ih =>
      intro x hx
      rcases List.mem_cons.mp hx with rfl | hx
      · exact hends.asked
      · exact ih x hx

/-- **A sweep is safe as long as metadata can be read.** Every run of a sweep
is a list of handled entries. If none of them met an error other than
`ErrNotFound`, the run deleted metadata only of blocks whose block file was
gone; and an entry is handled safely in every way the run can go on exactly
when its metadata could be read. -/
theorem sweep_safe_iff (sw : Sweeper) (tiers : Tier → Option LocalStore) :
    (∀ w ws r w', Runs sem (sw.runOnce tiers).run w ws r w' → ∃ hs, sw.Records tiers w ws hs) ∧
    ∀ w ws hs, sw.Records tiers w ws hs →
      ((∀ h ∈ hs, ¬ OtherError h.found) → List.IsChain (MetaAfterFile tiers) (w :: ws)) ∧
      ∀ h ∈ hs,
        ((∀ after r w', Handling.Ends sw tiers { h with after := after } r w' →
          Handling.Safe tiers { h with after := after }) ↔ ¬ OtherError h.found) := by
  refine ⟨fun w ws r w' h => runs_runOnce_records h, ?_⟩
  rintro w ws hs ⟨t, -, ⟨rfl, rfl⟩ | ⟨ws', rfl, hswept⟩⟩
  · -- the scan failed
    refine ⟨fun _ => ?_, fun h hh => absurd hh List.not_mem_nil⟩
    exact List.isChain_cons_cons.mpr ⟨metaAfterFile_of_same rfl,
      List.isChain_cons_cons.mpr ⟨metaAfterFile_of_same rfl, List.isChain_singleton _⟩⟩
  · refine ⟨fun hfound => ?_, fun h hh => ⟨fun hsafe hother => ?_, fun hfound after r w' hends => ?_⟩⟩
    · exact List.isChain_cons_cons.mpr ⟨metaAfterFile_of_same rfl,
        List.isChain_cons_cons.mpr ⟨metaAfterFile_of_same rfl, hswept.chain hfound⟩⟩
    · have hkey := hswept.present (expiredEntries_nodup _ _)
        (fun e he => (mem_expiredEntries_iff.mp he).1) h hh
      obtain ⟨after, r, w', hends, hunsafe⟩ := exists_unsafe (hswept.asked h hh) hkey hother
      exact hunsafe (hsafe after r w' hends)
    · exact hends.safe hfound

/-! ## One block -/

/-- One tier for all blocks. -/
def oneTier (_ : Tier) : Option LocalStore := some oneRow.store

/-- The entry of the block, the hour after its five years. -/
def oneEntry : ExpiredEntry := ⟨oneRow.blockID, 43800⟩

/-- What the reaper does for it when nothing fails. -/
def oneHandling : Handling where
  entry := oneEntry
  before := oneRowExpired
  found := ((getBlockMeta oneRow.blockID).run.exec oneRowExpired).1
  after := (Sweeper.reaper.handle oneTier oneEntry
    ((getBlockMeta oneRow.blockID).run.exec oneRowExpired).1).run.trace oneRowExpired

set_option maxRecDepth 100000 in
/-- The reaper deletes the block in the safe order. -/
theorem sweep_safe_iff_oneRow :
    ∃ ws, Sweeper.reaper.Records oneTier oneRowExpired ws [oneHandling] ∧
      List.IsChain (MetaAfterFile oneTier) (oneRowExpired :: ws) ∧
      ∃ w ∈ ws, w.db.view.get (blockKey oneRow.blockID) = none := by
  have hends : oneHandling.Ends .reaper oneTier (.ok true)
      ((Sweeper.reaper.handle oneTier oneEntry oneHandling.found).run.exec oneRowExpired).2 := by
    refine ⟨(answers_of_runs (runs_procExec _ _)).2.2, ?_⟩
    have hrun := runs_procExec (Sweeper.reaper.handle oneTier oneEntry oneHandling.found).run
      oneRowExpired
    have hok : ((Sweeper.reaper.handle oneTier oneEntry oneHandling.found).run.exec
        oneRowExpired).1 = .ok true := by decide +kernel
    rwa [hok] at hrun
  have hentries : expiredEntries (oneRowExpired.db.view.range prefixExpiry
      (expiryKeyUpperBound (unixHour (43800 * hour)))) = [oneEntry] := by decide +kernel
  have hrec : Sweeper.reaper.Records oneTier oneRowExpired
      (readClock oneRowExpired (43800 * hour) :: readClock oneRowExpired (43800 * hour) ::
        (oneRowExpired :: oneRowExpired :: (oneHandling.after ++ []))) [oneHandling] := by
    refine ⟨43800 * hour, by decide, Or.inr ⟨_, rfl, ?_⟩⟩
    rw [hentries]
    exact .next hends (.finished _)
  refine ⟨_, hrec, ((sweep_safe_iff .reaper oneTier).2 _ _ _ hrec).1 ?_, ?_⟩
  · intro h hh
    rw [List.mem_singleton.mp hh]
    have hfound : oneHandling.found = .ok (oneRow.blockMeta Libs.plain) := by decide +kernel
    rw [hfound]
    exact fun h => h
  · refine ⟨((Sweeper.reaper.handle oneTier oneEntry oneHandling.found).run.exec
      oneRowExpired).2, ?_, by decide +kernel⟩
    have hlast := List.mem_of_getLast? hends.handled.getLast
    simp only [List.append_nil, List.mem_cons]
    exact Or.inr (Or.inr (Or.inr (List.mem_cons.mp hlast)))

/-- Operations without errors, except that pebble cannot be read. -/
def execUnread : (o : Op) → World → o.Res × World
  | .get _, w => (.error .io, w)
  | o, w => o.exec w

theorem sem_execUnread (o : Op) (w : World) :
    sem o w (execUnread o w).1 (execUnread o w).2 := by
  cases o with
  | get k => exact Or.inr ⟨rfl, rfl⟩
  | _ => exact Or.inl rfl

/-- The sweep ends well and leaves the block with its file and without keys,
though it had both. -/
def OrphanedBy (sw : Sweeper) : Prop := ∃ ws w',
  Runs sem (sw.runOnce oneTier).run oneRowExpired ws (.ok ()) w' ∧
  oneRowExpired.db.view.get (blockKey oneRow.blockID) =
    some (encodeBlockMeta (oneRow.blockMeta Libs.plain)) ∧
  (oneRowExpired.db.view.get (expiryKey 43800 oneRow.blockID)).isSome ∧
  w'.fs oneRow.blockPath = some (oneRow.file Libs.plain) ∧
  w'.db.view.get (blockKey oneRow.blockID) = none ∧
  w'.db.view.get (expiryKey 43800 oneRow.blockID) = none

set_option maxRecDepth 100000 in
theorem orphanedBy (sw : Sweeper) : OrphanedBy sw := by
  have hrun := runs_exec sem_execUnread (sw.runOnce oneTier).run oneRowExpired
  have hok : (exec (S := machine) execUnread (sw.runOnce oneTier).run oneRowExpired).1 = .ok () := by
    cases sw <;> decide +kernel
  rw [hok] at hrun
  refine ⟨_, _, hrun, by decide +kernel, by decide +kernel, ?_, ?_, ?_⟩
  · cases sw <;> decide +kernel
  · cases sw <;> decide +kernel
  · cases sw <;> decide +kernel

/-- **After a read error a block keeps its file and loses its keys**, by
either sweep. -/
theorem readError_orphans : OrphanedBy .reaper ∧ OrphanedBy .janitor :=
  ⟨orphanedBy .reaper, orphanedBy .janitor⟩

end Bbdb.Ttl
