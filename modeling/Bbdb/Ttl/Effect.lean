import Bbdb.Ttl.Entries

/-!
# TTL — what a sweep removes

When nothing fails, what a sweep removes can be read off the state before it:
for every entry whose hour has come, the keys of a block that is due and, by
the reaper, its files. That the loop itself changes the state its later turns
read (a block can have several entries) makes no difference: `Removed`
compares with the state before the sweep, one turn of the loop extends it by
one entry (`Removed.settle`), and so the whole loop by all
(`exec_runOnce_removed`).
-/

namespace Bbdb.Ttl

open Bbdb.Meta Bbdb.Tier GoTime
open Prog hiding pure bind

variable {sw : Sweeper} {tiers : Tier → Option LocalStore} {w x : World} {id : BlockID}
  {entry : ExpiredEntry}

/-! ## Error-free turns of the loop -/

theorem setFile_of_none {p : Path} (h : w.fs p = none) : w.setFile p none = w := by
  have hfs : w.fs.put p none = w.fs := by
    funext q
    by_cases hq : q = p
    · rw [hq, FS.put_self, h]
    · exact FS.put_ne _ _ hq
  rw [World.setFile, hfs]

theorem exec_removeIfPresent (w : World) (p : Path) (text : String) :
    (removeIfPresent p text).run.exec w = (.ok (), w.setFile p none) := by
  cases hfile : w.fs p with
  | none =>
      have hrm : (osRemove p).run.exec w = (.error .notExist, w) := by
        show Op.exec (.remove p) w = _
        simp only [Op.exec, hfile]
        rfl
      rw [setFile_of_none hfile]
      exact exec_bind_of hrm
  | some c =>
      have hrm : (osRemove p).run.exec w = (.ok (), w.setFile p none) := by
        show Op.exec (.remove p) w = _
        simp only [Op.exec, hfile]
        rfl
      exact exec_bind_of hrm

theorem exec_delete (store : LocalStore) (id : BlockID) (w : World) :
    (store.delete id).run.exec w =
      (.ok (), (w.setFile (store.blockPath id) none).setFile (store.bloomPath id) none) :=
  (exec_bindE_of (exec_removeIfPresent w _ _)).trans (exec_removeIfPresent _ _ _)

theorem exec_exists (store : LocalStore) (id : BlockID) (w : World) :
    (store.exists_ id).run.exec w = (.ok (w.fs (store.blockPath id)).isSome, w) := by
  cases hfile : w.fs (store.blockPath id) with
  | none =>
      have hstat : (osStat (store.blockPath id)).run.exec w = (.error .notExist, w) := by
        show Op.exec (.stat (store.blockPath id)) w = _
        simp only [Op.exec, hfile]
        rfl
      exact exec_bind_of hstat
  | some c => exact exec_bind_of (exec_osStat hfile)

/-- The world after an entry was handled. -/
def Sweeper.settle (sw : Sweeper) (tiers : Tier → Option LocalStore) (w : World)
    (entry : ExpiredEntry) : World :=
  match ((getBlockMeta entry.id).run.exec w).1 with
  | .error _ => w.commit (deleteOps entry.hour entry.id) true
  | .ok bm =>
      match tiers bm.tier, sw with
      | none, _ => w
      | some store, .reaper =>
          ((w.setFile (store.blockPath entry.id) none).setFile (store.bloomPath entry.id) none).commit
            (deleteOps entry.hour entry.id) true
      | some store, .janitor =>
          if (w.fs (store.blockPath entry.id)).isSome then w
          else w.commit (deleteOps entry.hour entry.id) true

theorem exec_handle (sw : Sweeper) (tiers : Tier → Option LocalStore) (w : World)
    (entry : ExpiredEntry) :
    (sw.handle tiers entry ((getBlockMeta entry.id).run.exec w).1).run.exec w =
      (.ok true, sw.settle tiers w entry) := by
  have hcommit : ∀ x : World, (deleteBlockAndExpiry entry.hour entry.id).run.exec x =
      (.ok (), x.commit (deleteOps entry.hour entry.id) true) := fun _ => rfl
  rw [Sweeper.settle]
  cases ((getBlockMeta entry.id).run.exec w).1 with
  | error e => rfl
  | ok bm =>
      dsimp only [Sweeper.handle]
      cases tiers bm.tier with
      | none => rfl
      | some store =>
          cases sw with
          | reaper =>
              refine (exec_bindE_of (exec_delete store entry.id w)).trans ?_
              exact exec_bindE_of (hcommit _)
          | janitor =>
              refine (exec_bindE_of (exec_exists store entry.id w)).trans ?_
              dsimp only
              cases (w.fs (store.blockPath entry.id)).isSome with
              | true => rfl
              | false => exact exec_bindE_of (hcommit w)

/-- **The loop settles its entries one after the other.** -/
theorem exec_loop (sw : Sweeper) (tiers : Tier → Option LocalStore) (entries : List ExpiredEntry)
    (w : World) :
    (sw.loop tiers entries).run.exec w = (.ok (), entries.foldl (sw.settle tiers) w) := by
  induction entries generalizing w with
  | nil =>
      rw [Sweeper.loop_nil]
      rfl
  | cons entry rest ih =>
      have hctx : (liftM ctxErr : Go Bool).run.exec w = (.ok false, w) := rfl
      have hget : (getBlockMeta entry.id).run.exec w =
          (((getBlockMeta entry.id).run.exec w).1, w) :=
        Prod.ext rfl (runs_reads (calls_getBlockMeta (fun _ => trivial) _) (runs_procExec _ w))
      have hask : (attempt (getBlockMeta entry.id)).run.exec w =
          (.ok ((getBlockMeta entry.id).run.exec w).1, w) := exec_bind_of hget
      rw [Sweeper.loop_cons]
      refine (exec_bindE_of hctx).trans ((exec_bindE_of hask).trans ?_)
      exact (exec_bindE_of (exec_handle sw tiers w entry)).trans (ih _)

/-! ## The effect of a sweep -/

/-- The block has metadata on the configured tier `store`, and the sweep
deletes it: the reaper in any case, the janitor if its block file is gone. -/
def Doomed (sw : Sweeper) (tiers : Tier → Option LocalStore) (w : World) (id : BlockID)
    (store : LocalStore) : Prop :=
  ∃ val bm, w.db.view.get (blockKey id) = some val ∧ decodeBlockMeta val = .ok bm ∧
    tiers bm.tier = some store ∧ (sw = .janitor → w.fs (store.blockPath id) = none)

/-- The keys of the entry go: the block is deleted, or it has no metadata. -/
def Leaves (sw : Sweeper) (tiers : Tier → Option LocalStore) (w : World) (id : BlockID) : Prop :=
  w.db.view.get (blockKey id) = none ∨ ∃ store, Doomed sw tiers w id store

/-- The keys that go with the entries in `E`. -/
def KeyGoes (sw : Sweeper) (tiers : Tier → Option LocalStore) (w : World)
    (E : ExpiredEntry → Prop) (k : Bytes) : Prop :=
  ∃ e, E e ∧ Leaves sw tiers w e.id ∧ (k = blockKey e.id ∨ k = expiryKey e.hour e.id)

/-- The files that go with the entries in `E`. -/
def FileGoes (sw : Sweeper) (tiers : Tier → Option LocalStore) (w : World)
    (E : ExpiredEntry → Prop) (p : Path) : Prop :=
  sw = .reaper ∧ ∃ e store, E e ∧ Doomed sw tiers w e.id store ∧
    (p = store.blockPath e.id ∨ p = store.bloomPath e.id)

/-- From `w` to `x`, what belongs to the entries in `E` was removed, and
nothing else was changed. -/
structure Removed (sw : Sweeper) (tiers : Tier → Option LocalStore) (w : World)
    (E : ExpiredEntry → Prop) (x : World) : Prop where
  key_gone : ∀ k, KeyGoes sw tiers w E k → x.db.view.get k = none
  key_kept : ∀ k, ¬ KeyGoes sw tiers w E k → x.db.view.get k = w.db.view.get k
  file_gone : ∀ p, FileGoes sw tiers w E p → x.fs p = none
  file_kept : ∀ p, ¬ FileGoes sw tiers w E p → x.fs p = w.fs p

variable {E : ExpiredEntry → Prop}

theorem Removed.start (w : World) : Removed sw tiers w (fun _ => False) w :=
  ⟨fun _ ⟨_, h, _⟩ => h.elim, fun _ _ => rfl, fun _ ⟨_, _, _, h, _⟩ => h.elim, fun _ _ => rfl⟩

theorem keyGoes_insert {k : Bytes} :
    KeyGoes sw tiers w (fun e => E e ∨ e = entry) k ↔ KeyGoes sw tiers w E k ∨
      Leaves sw tiers w entry.id ∧ (k = blockKey entry.id ∨ k = expiryKey entry.hour entry.id) := by
  constructor
  · rintro ⟨e, he | rfl, h⟩
    · exact Or.inl ⟨e, he, h⟩
    · exact Or.inr h
  · rintro (⟨e, he, h⟩ | h)
    · exact ⟨e, Or.inl he, h⟩
    · exact ⟨entry, Or.inr rfl, h⟩

theorem fileGoes_insert {p : Path} :
    FileGoes sw tiers w (fun e => E e ∨ e = entry) p ↔ FileGoes sw tiers w E p ∨
      sw = .reaper ∧ ∃ store, Doomed sw tiers w entry.id store ∧
        (p = store.blockPath entry.id ∨ p = store.bloomPath entry.id) := by
  constructor
  · rintro ⟨hsw, e, store, he | rfl, h⟩
    · exact Or.inl ⟨hsw, e, store, he, h⟩
    · exact Or.inr ⟨hsw, store, h⟩
  · rintro (⟨hsw, e, store, he, h⟩ | ⟨hsw, store, h⟩)
    · exact ⟨hsw, e, store, Or.inl he, h⟩
    · exact ⟨hsw, entry, store, Or.inr rfl, h⟩

/-- A block is on one tier. -/
theorem Doomed.unique {s s' : LocalStore} (h : Doomed sw tiers w id s) (h' : Doomed sw tiers w id s') :
    s = s' := by
  obtain ⟨val, bm, hval, hdec, htier, -⟩ := h
  obtain ⟨val', bm', hval', hdec', htier', -⟩ := h'
  rw [hval, Option.some.injEq] at hval'
  rw [← hval', hdec] at hdec'
  cases hdec'
  rw [htier] at htier'
  exact Option.some.inj htier'

/-- A block with metadata goes if its tier is configured and, for the janitor,
its block file is gone. -/
theorem leaves_iff {val : Bytes} {bm : BlockMeta} (hval : w.db.view.get (blockKey id) = some val)
    (hbm : decodeBlockMeta val = .ok bm) :
    Leaves sw tiers w id ↔ ∃ store, tiers bm.tier = some store ∧
      (sw = .janitor → w.fs (store.blockPath id) = none) := by
  constructor
  · rintro (hnone | ⟨store, val', bm', hval', hbm', h⟩)
    · rw [hval] at hnone
      cases hnone
    · rw [hval, Option.some.injEq] at hval'
      rw [← hval', hbm] at hbm'
      cases hbm'
      exact ⟨store, h⟩
  · rintro ⟨store, h⟩
    exact Or.inr ⟨store, val, bm, hval, hbm, h⟩

/-- An entry that goes, with the files of its block if there are any. -/
theorem Removed.delete (h : Removed sw tiers w E x) (hleaves : Leaves sw tiers w entry.id)
    {y : World} (hdb : y.db = x.db)
    (hgone : ∀ p, (sw = .reaper ∧ ∃ store, Doomed sw tiers w entry.id store ∧
      (p = store.blockPath entry.id ∨ p = store.bloomPath entry.id)) → y.fs p = none)
    (hkept : ∀ p, ¬ (sw = .reaper ∧ ∃ store, Doomed sw tiers w entry.id store ∧
      (p = store.blockPath entry.id ∨ p = store.bloomPath entry.id)) → y.fs p = x.fs p) :
    Removed sw tiers w (fun e => E e ∨ e = entry)
      (y.commit (deleteOps entry.hour entry.id) true) := by
  have hget : ∀ k, (y.commit (deleteOps entry.hour entry.id) true).db.view.get k =
      if k = expiryKey entry.hour entry.id ∨ k = blockKey entry.id then none
      else x.db.view.get k := by
    intro k
    rw [World.commit_db, hdb, Pebble.view_commit, get_deleteOps]
  refine ⟨fun k hk => ?_, fun k hk => ?_, fun p hp => ?_, fun p hp => ?_⟩
  · rw [hget]
    split_ifs with hown
    · rfl
    · rcases keyGoes_insert.mp hk with hold | ⟨-, hk | hk⟩
      · exact h.key_gone k hold
      · exact absurd (Or.inr hk) hown
      · exact absurd (Or.inl hk) hown
  · rw [keyGoes_insert, not_or] at hk
    obtain ⟨hold, hnew⟩ := hk
    rw [hget, if_neg, h.key_kept k hold]
    rintro (hk | hk)
    · exact hnew ⟨hleaves, Or.inr hk⟩
    · exact hnew ⟨hleaves, Or.inl hk⟩
  · rw [World.commit_fs]
    by_cases hnew : sw = .reaper ∧ ∃ store, Doomed sw tiers w entry.id store ∧
        (p = store.blockPath entry.id ∨ p = store.bloomPath entry.id)
    · exact hgone p hnew
    · rw [hkept p hnew]
      exact h.file_gone p ((fileGoes_insert.mp hp).resolve_right hnew)
  · rw [fileGoes_insert, not_or] at hp
    rw [World.commit_fs, hkept p hp.2, h.file_kept p hp.1]

/-- An entry that stays. -/
theorem Removed.keep (h : Removed sw tiers w E x) (hstays : ¬ Leaves sw tiers w entry.id) :
    Removed sw tiers w (fun e => E e ∨ e = entry) x := by
  have hkey : ∀ k, KeyGoes sw tiers w (fun e => E e ∨ e = entry) k ↔ KeyGoes sw tiers w E k := by
    intro k
    rw [keyGoes_insert]
    exact or_iff_left fun h => hstays h.1
  have hfile : ∀ p, FileGoes sw tiers w (fun e => E e ∨ e = entry) p ↔ FileGoes sw tiers w E p := by
    intro p
    rw [fileGoes_insert]
    refine or_iff_left ?_
    rintro ⟨-, store, hdoomed, -⟩
    exact hstays (Or.inr ⟨store, hdoomed⟩)
  exact ⟨fun k hk => h.key_gone k ((hkey k).mp hk), fun k hk => h.key_kept k (mt (hkey k).mpr hk),
    fun p hp => h.file_gone p ((hfile p).mp hp), fun p hp => h.file_kept p (mt (hfile p).mpr hp)⟩

/-- The metadata of a block reads as before, or it is gone and belonged to a
block that goes. -/
theorem Removed.blk (h : Removed sw tiers w E x) (id : BlockID) :
    x.db.view.get (blockKey id) = w.db.view.get (blockKey id) ∨
      x.db.view.get (blockKey id) = none ∧ Leaves sw tiers w id ∧ ∃ e, E e ∧ e.id = id := by
  by_cases hgoes : KeyGoes sw tiers w E (blockKey id)
  · refine Or.inr ⟨h.key_gone _ hgoes, ?_⟩
    obtain ⟨e, he, hleaves, hk | hk⟩ := hgoes
    · rw [← blockKey_inj.mp hk] at hleaves
      exact ⟨hleaves, e, he, (blockKey_inj.mp hk).symm⟩
    · exact absurd hk blockKey_ne_expiryKey
  · exact Or.inl (h.key_kept _ hgoes)

/-- The reaper deletes a block that is on a configured tier. -/
theorem Removed.reap {store : LocalStore} (h : Removed .reaper tiers w E x)
    (hdoomed : Doomed .reaper tiers w entry.id store) :
    Removed .reaper tiers w (fun e => E e ∨ e = entry)
      (((x.setFile (store.blockPath entry.id) none).setFile (store.bloomPath entry.id) none).commit
        (deleteOps entry.hour entry.id) true) := by
  refine h.delete (Or.inr ⟨store, hdoomed⟩) rfl ?_ fun p hp => ?_
  · rintro p ⟨-, store', hdoomed', rfl | rfl⟩
    · rw [hdoomed'.unique hdoomed, World.setFile_fs,
        FS.put_ne _ _ (blockPath_ne_bloomPath store store entry.id entry.id), World.setFile_fs,
        FS.put_self]
    · rw [hdoomed'.unique hdoomed, World.setFile_fs, FS.put_self]
  · have hblock : p ≠ store.blockPath entry.id := fun he => hp ⟨rfl, store, hdoomed, Or.inl he⟩
    have hbloom : p ≠ store.bloomPath entry.id := fun he => hp ⟨rfl, store, hdoomed, Or.inr he⟩
    rw [World.setFile_fs, FS.put_ne _ _ hbloom, World.setFile_fs, FS.put_ne _ _ hblock]

/-- The janitor deletes the keys of a block on a configured tier if the block
file is gone. -/
theorem Removed.clean {store : LocalStore} {val : Bytes} {bm : BlockMeta}
    (h : Removed .janitor tiers w E x) (hval : w.db.view.get (blockKey entry.id) = some val)
    (hbm : decodeBlockMeta val = .ok bm) (htier : tiers bm.tier = some store) :
    Removed .janitor tiers w (fun e => E e ∨ e = entry)
      (if (x.fs (store.blockPath entry.id)).isSome then x
        else x.commit (deleteOps entry.hour entry.id) true) := by
  have hfile : x.fs (store.blockPath entry.id) = w.fs (store.blockPath entry.id) :=
    h.file_kept _ fun hp => by cases hp.1
  rw [hfile]
  cases hthere : w.fs (store.blockPath entry.id) with
  | none =>
      have hdoomed : Doomed .janitor tiers w entry.id store :=
        ⟨val, bm, hval, hbm, htier, fun _ => hthere⟩
      exact h.delete (Or.inr ⟨store, hdoomed⟩) rfl (fun p hp => by cases hp.1) fun _ _ => rfl
  | some c =>
      refine h.keep fun hleaves => ?_
      obtain ⟨store', htier', hgone⟩ := (leaves_iff hval hbm).mp hleaves
      rw [htier, Option.some.injEq] at htier'
      rw [← htier', hthere] at hgone
      cases hgone rfl

/-- **One turn of the loop removes one entry more.** -/
theorem Removed.settle (h : Removed sw tiers w E x)
    (hdec : ∀ val, w.db.view.get (blockKey entry.id) = some val →
      ∃ bm, decodeBlockMeta val = .ok bm) :
    Removed sw tiers w (fun e => E e ∨ e = entry) (sw.settle tiers x entry) := by
  rw [Sweeper.settle, result_getBlockMeta]
  rcases h.blk entry.id with hsame | ⟨hnone, hleaves, e, he, hid⟩
  · rw [hsame]
    cases hval : w.db.view.get (blockKey entry.id) with
    | none =>
        refine h.delete (Or.inl hval) rfl ?_ fun _ _ => rfl
        rintro p ⟨-, store, ⟨val, bm, hval', -⟩, -⟩
        rw [hval] at hval'
        cases hval'
    | some val =>
        obtain ⟨bm, hbm⟩ := hdec val hval
        dsimp only
        rw [hbm]
        dsimp only
        cases htier : tiers bm.tier with
        | none =>
            refine h.keep fun hleaves => ?_
            obtain ⟨store, htier', -⟩ := (leaves_iff hval hbm).mp hleaves
            rw [htier] at htier'
            cases htier'
        | some store =>
            cases sw with
            | reaper => exact h.reap ⟨val, bm, hval, hbm, htier, fun h => by cases h⟩
            | janitor => exact h.clean hval hbm htier
  · -- an earlier entry of the block has already taken its metadata, and its files
    rw [hnone]
    refine h.delete hleaves rfl ?_ fun _ _ => rfl
    rintro p ⟨hsw, store, hdoomed, hp⟩
    rw [← hid] at hdoomed hp
    exact h.file_gone p ⟨hsw, e, store, he, hdoomed, hp⟩

theorem Removed.congr {E' : ExpiredEntry → Prop} (h : Removed sw tiers w E x)
    (hE : ∀ e, E e ↔ E' e) : Removed sw tiers w E' x := by
  obtain rfl : E = E' := funext fun e => propext (hE e)
  exact h

theorem Removed.settleAll (entries : List ExpiredEntry) (h : Removed sw tiers w E x)
    (hdec : ∀ id val, w.db.view.get (blockKey id) = some val → ∃ bm, decodeBlockMeta val = .ok bm) :
    Removed sw tiers w (fun e => E e ∨ e ∈ entries) (entries.foldl (sw.settle tiers) x) := by
  induction entries generalizing E x with
  | nil => exact h.congr fun e => by simp
  | cons entry rest ih =>
      refine (ih (h.settle (hdec entry.id))).congr fun e => ?_
      rw [List.mem_cons, or_assoc]

/-- **An error-free sweep removes what belongs to the expired entries**, by
the state before it. -/
theorem exec_runOnce_removed (sw : Sweeper) (tiers : Tier → Option LocalStore) (w : World)
    (hdec : ∀ id val, w.db.view.get (blockKey id) = some val → ∃ bm, decodeBlockMeta val = .ok bm) :
    ((sw.runOnce tiers).run.exec w).1 = .ok () ∧
      Removed sw tiers w (Expired w.db.view w.clock) ((sw.runOnce tiers).run.exec w).2 := by
  have hnow : (liftM timeNow : Go Time).run.exec w = (.ok w.clock, w) := rfl
  have hscan : (scanExpiredEntries (unixHour w.clock)).run.exec w =
      (.ok (expiredEntries (w.db.view.range prefixExpiry
        (expiryKeyUpperBound (unixHour w.clock)))), w) := rfl
  have hrun : (sweep (sw.loop tiers)).run.exec w = _ :=
    (exec_bindE_of hnow).trans ((exec_bindE_of hscan).trans (exec_loop sw tiers _ w))
  rw [Sweeper.runOnce_eq_sweep, hrun]
  refine ⟨rfl, ((Removed.start w).settleAll _ hdec).congr fun e => ?_⟩
  rw [false_or, mem_expiredEntries_iff, Expired]

/-! ## The job of each sweep -/

/-- The block has an expiry key of hour `h`, which is at most `n`. -/
def Due (w : World) (n h : UInt64) (id : BlockID) : Prop :=
  (w.db.view.get (expiryKey h id)).isSome ∧ h ≤ n

/-- The metadata of the block names the configured tier `store`. -/
def OnTier (tiers : Tier → Option LocalStore) (w : World) (id : BlockID) (store : LocalStore) :
    Prop :=
  ∃ val bm, w.db.view.get (blockKey id) = some val ∧ decodeBlockMeta val = .ok bm ∧
    tiers bm.tier = some store

/-- The metadata of the block names a tier that is not configured. -/
def OffTiers (tiers : Tier → Option LocalStore) (w : World) (id : BlockID) : Prop :=
  ∃ val bm, w.db.view.get (blockKey id) = some val ∧ decodeBlockMeta val = .ok bm ∧
    tiers bm.tier = none

/-- What a cycle of the reaper at hour `n` does. -/
structure ReaperEffect (tiers : Tier → Option LocalStore) (n : UInt64) (w w' : World) : Prop where
  /-- A block that is due loses its files, -/
  files : ∀ id store h, OnTier tiers w id store → Due w n h id →
    w'.fs (store.blockPath id) = none ∧ w'.fs (store.bloomPath id) = none
  /-- its metadata -/
  blk : ∀ id store h, OnTier tiers w id store → Due w n h id → w'.db.view.get (blockKey id) = none
  /-- and its expiry keys that are due. -/
  exp : ∀ id store h, OnTier tiers w id store → Due w n h id →
    w'.db.view.get (expiryKey h id) = none
  /-- An expiry key without metadata goes. -/
  orphan : ∀ id h, w.db.view.get (blockKey id) = none → Due w n h id →
    w'.db.view.get (expiryKey h id) = none
  /-- A block on another tier keeps its keys and files, wherever they are. -/
  offTiers : ∀ id, OffTiers tiers w id →
    w'.db.view.get (blockKey id) = w.db.view.get (blockKey id) ∧
    (∀ h, w'.db.view.get (expiryKey h id) = w.db.view.get (expiryKey h id)) ∧
    ∀ s : LocalStore, w'.fs (s.blockPath id) = w.fs (s.blockPath id) ∧
      w'.fs (s.bloomPath id) = w.fs (s.bloomPath id)
  /-- Every other key is unchanged, -/
  key : ∀ k, (∀ id store h, OnTier tiers w id store → Due w n h id →
      k ≠ blockKey id ∧ k ≠ expiryKey h id) →
    (∀ id h, w.db.view.get (blockKey id) = none → Due w n h id → k ≠ expiryKey h id) →
    w'.db.view.get k = w.db.view.get k
  /-- and every other file. -/
  file : ∀ p, (∀ id store h, OnTier tiers w id store → Due w n h id →
      p ≠ store.blockPath id ∧ p ≠ store.bloomPath id) → w'.fs p = w.fs p

/-- What a sweep of the janitor at hour `n` does. -/
structure JanitorEffect (tiers : Tier → Option LocalStore) (n : UInt64) (w w' : World) :
    Prop where
  /-- No file changes. -/
  files : w'.fs = w.fs
  /-- The keys that change go, and are those of an entry that is due and whose
  metadata, or else block file, is gone. -/
  keys : ∀ k, w'.db.view.get k = w.db.view.get k ∨ w'.db.view.get k = none ∧
    ∃ id h, Due w n h id ∧ (k = blockKey id ∨ k = expiryKey h id) ∧
      (w.db.view.get (blockKey id) = none ∨
        ∃ store, OnTier tiers w id store ∧ w.fs (store.blockPath id) = none)

theorem expired_iff_due {n : UInt64} (hn : unixHour w.clock = n) (hlt : n.toNat < 2 ^ 64 - 1)
    {e : ExpiredEntry} : Expired w.db.view w.clock e ↔ Due w n e.hour e.id := by
  rw [Expired, Due, hn, lt_succ_iff hlt]

theorem doomed_reaper {store : LocalStore} :
    Doomed .reaper tiers w id store ↔ OnTier tiers w id store := by
  constructor
  · rintro ⟨val, bm, hval, hbm, htier, -⟩
    exact ⟨val, bm, hval, hbm, htier⟩
  · rintro ⟨val, bm, hval, hbm, htier⟩
    exact ⟨val, bm, hval, hbm, htier, fun h => by cases h⟩

theorem doomed_janitor {store : LocalStore} (h : Doomed .janitor tiers w id store) :
    OnTier tiers w id store ∧ w.fs (store.blockPath id) = none := by
  obtain ⟨val, bm, hval, hbm, htier, hgone⟩ := h
  exact ⟨⟨val, bm, hval, hbm, htier⟩, hgone rfl⟩

theorem OffTiers.stays (h : OffTiers tiers w id) : ¬ Leaves sw tiers w id := by
  obtain ⟨val, bm, hval, hbm, htier⟩ := h
  intro hleaves
  obtain ⟨store, hstore, -⟩ := (leaves_iff hval hbm).mp hleaves
  rw [htier] at hstore
  cases hstore

/-- The files of a block that does not go stay, wherever they are. -/
theorem Removed.files_kept (h : Removed sw tiers w E x) (hE : ∀ e, E e → IsBlockID e.id)
    (hid : ¬ ∃ e, E e ∧ e.id = id ∧ ∃ store, Doomed sw tiers w id store) (s : LocalStore) :
    x.fs (s.blockPath id) = w.fs (s.blockPath id) ∧
      x.fs (s.bloomPath id) = w.fs (s.bloomPath id) := by
  constructor
  · refine h.file_kept _ ?_
    rintro ⟨-, e, store, he, hdoomed, hp | hp⟩
    · obtain rfl := blockPath_inj (hE e he) hp.symm
      exact hid ⟨e, he, rfl, store, hdoomed⟩
    · exact blockPath_ne_bloomPath _ _ _ _ hp
  · refine h.file_kept _ ?_
    rintro ⟨-, e, store, he, hdoomed, hp | hp⟩
    · exact blockPath_ne_bloomPath _ _ _ _ hp.symm
    · obtain rfl := bloomPath_inj (hE e he) hp.symm
      exact hid ⟨e, he, rfl, store, hdoomed⟩

theorem Removed.reaperEffect {n : UInt64} (h : Removed .reaper tiers w E x)
    (hE : ∀ e, E e ↔ Due w n e.hour e.id) (hids : ∀ e, E e → IsBlockID e.id) :
    ReaperEffect tiers n w x where
  files id store h' htier hdue := by
    have he : E ⟨id, h'⟩ := (hE _).mpr hdue
    exact ⟨h.file_gone _ ⟨rfl, _, store, he, doomed_reaper.mpr htier, Or.inl rfl⟩,
      h.file_gone _ ⟨rfl, _, store, he, doomed_reaper.mpr htier, Or.inr rfl⟩⟩
  blk id store h' htier hdue :=
    h.key_gone _ ⟨⟨id, h'⟩, (hE _).mpr hdue, Or.inr ⟨store, doomed_reaper.mpr htier⟩, Or.inl rfl⟩
  exp id store h' htier hdue :=
    h.key_gone _ ⟨⟨id, h'⟩, (hE _).mpr hdue, Or.inr ⟨store, doomed_reaper.mpr htier⟩, Or.inr rfl⟩
  orphan id h' hnone hdue :=
    h.key_gone _ ⟨⟨id, h'⟩, (hE _).mpr hdue, Or.inl hnone, Or.inr rfl⟩
  offTiers id hoff := by
    have hkey : ∀ k, (k = blockKey id ∨ ∃ h', k = expiryKey h' id) →
        ¬ KeyGoes .reaper tiers w E k := by
      rintro k hk ⟨e, he, hleaves, hk'⟩
      have hid : e.id = id := by
        rcases hk with rfl | ⟨h', rfl⟩
        · rcases hk' with hk' | hk'
          · exact (blockKey_inj.mp hk').symm
          · exact absurd hk' blockKey_ne_expiryKey
        · rcases hk' with hk' | hk'
          · exact absurd hk'.symm blockKey_ne_expiryKey
          · exact (expiryKey_inj.mp hk').2.symm
      rw [hid] at hleaves
      exact hoff.stays hleaves
    refine ⟨h.key_kept _ (hkey _ (Or.inl rfl)), fun h' => h.key_kept _ (hkey _ (Or.inr ⟨h', rfl⟩)),
      h.files_kept hids ?_⟩
    rintro ⟨e, he, -, store, hdoomed⟩
    exact hoff.stays (Or.inr ⟨store, hdoomed⟩)
  key k htier hnone := by
    by_cases hgoes : KeyGoes .reaper tiers w E k
    · have hgone := h.key_gone k hgoes
      obtain ⟨e, he, hleaves, hk⟩ := hgoes
      have hdue := (hE e).mp he
      rcases hleaves with hblk | ⟨store, hdoomed⟩
      · rcases hk with rfl | hk
        · -- the batch deletes a key that is not there
          rw [hgone, hblk]
        · exact absurd hk (hnone e.id e.hour hblk hdue)
      · obtain ⟨hblk, hexp⟩ := htier e.id store e.hour (doomed_reaper.mp hdoomed) hdue
        rcases hk with hk | hk
        · exact absurd hk hblk
        · exact absurd hk hexp
    · exact h.key_kept k hgoes
  file p hp := by
    refine h.file_kept p ?_
    rintro ⟨-, e, store, he, hdoomed, hpath⟩
    obtain ⟨hblock, hbloom⟩ :=
      hp e.id store e.hour (doomed_reaper.mp hdoomed) ((hE e).mp he)
    rcases hpath with hpath | hpath
    · exact hblock hpath
    · exact hbloom hpath

theorem Removed.janitorEffect {n : UInt64} (h : Removed .janitor tiers w E x)
    (hE : ∀ e, E e ↔ Due w n e.hour e.id) : JanitorEffect tiers n w x where
  files := funext fun p => h.file_kept p fun hp => by cases hp.1
  keys k := by
    by_cases hgoes : KeyGoes .janitor tiers w E k
    · have hgone := h.key_gone k hgoes
      obtain ⟨e, he, hleaves, hk⟩ := hgoes
      refine Or.inr ⟨hgone, e.id, e.hour, (hE e).mp he, hk, ?_⟩
      exact hleaves.imp_right fun ⟨store, hdoomed⟩ => ⟨store, doomed_janitor hdoomed⟩
    · exact Or.inl (h.key_kept k hgoes)

end Bbdb.Ttl
