import Bbdb.Block.Event

/-!
# Tier — the local store

Where the files of a block live. The `.block` and `.bloom` files of a block
id lie in the directory of its shard; their names, and that of the temporary
file a block is written to, end differently, so no two of them coincide
(`blockPath_ne_bloomPath`, `tmpPath_ne_blockPath`, `tmpPath_ne_bloomPath`),
and block ids with different paths stay apart (`blockPath_inj`).
-/

namespace Bbdb.Tier

open Bbdb.Meta Bbdb.Block GoTime
open Prog hiding pure bind

/-- `LocalStore`: a directory and the tier it serves. -/
structure LocalStore where
  root : Path
  tier : Tier
  deriving DecidableEq, Repr

/-- `splitBlockID`: shard and hour of a block id. -/
def splitBlockID (id : BlockID) : Bytes × Bytes := (Text.splitFirst colon id).getD (id, [])

def LocalStore.blockPath (s : LocalStore) (id : BlockID) : Path :=
  s.root ++ [ascii "blocks", (splitBlockID id).1, (splitBlockID id).2 ++ ascii ".block"]

def LocalStore.bloomPath (s : LocalStore) (id : BlockID) : Path :=
  s.root ++ [ascii "blocks", (splitBlockID id).1, (splitBlockID id).2 ++ ascii ".bloom"]

/-- The path a block is written to before it is moved into the tier. -/
def tmpPath (tmpDir : Path) (id : BlockID) : Path := tmpDir ++ [id ++ ascii ".block.tmp"]

/-- `Put`: rename into place. -/
def LocalStore.put (s : LocalStore) (id : BlockID) (srcPath : Path) : Go Unit := do
  osMkdirAll (s.blockPath id).dropLast
  osRename srcPath (s.blockPath id)

/-- `os.Remove`, with a missing file counting as removed. -/
def removeIfPresent (p : Path) (text : String) : Go Unit :=
  ExceptT.mk do
    match ← (osRemove p).run with
    | .ok _ => pure (.ok ())
    | .error e => if e = .notExist then pure (.ok ()) else pure (.error (.wrap text e))

/-- `Delete`: unlink the block, then its bloom file. -/
def LocalStore.delete (s : LocalStore) (id : BlockID) : Go Unit := do
  removeIfPresent (s.blockPath id) "delete block"
  removeIfPresent (s.bloomPath id) "delete bloom"

/-- `Exists`: whether the block file is there. -/
def LocalStore.exists_ (s : LocalStore) (id : BlockID) : Go Bool :=
  ExceptT.mk do
    match ← (osStat (s.blockPath id)).run with
    | .ok _ => pure (.ok true)
    | .error e => pure (if e = .notExist then .ok false else .error e)

/-- `Get`: open the block file. The reader returns what the file holds. -/
def LocalStore.get (s : LocalStore) (id : BlockID) : Go Bytes := osReadFile (s.blockPath id)

def copyFile (src dst : Path) : Go Unit := do
  let data ← osReadFile src
  osCreate dst
  fileWrite dst data
  fileSync dst

/-- The name that `os.CreateTemp` makes up. -/
def migratePath (tempDir : Path) (random : Bytes) : Path :=
  tempDir ++ [ascii "bbdb-migrate-" ++ random ++ ascii ".block.tmp"]

/-- `Migrate`: copy to the destination by way of a temporary file, then
delete here. -/
def LocalStore.migrate (s dst : LocalStore) (id : BlockID) (tmpPath : Path) : Go Unit := do
  osCreate tmpPath
  orElse (copyFile (s.blockPath id) tmpPath) [tmpPath] (.wrap "migrate copy")
  orElse (dst.put id tmpPath) [tmpPath] (.wrap "migrate put")
  s.delete id

/-! ## Paths -/

/-- Paths whose last components end in different bytes differ. -/
theorem path_ne_of_getLast {a b : Path} {x y : Bytes} (h : x.getLast? ≠ y.getLast?) :
    a ++ [x] ≠ b ++ [y] := by
  intro he
  have hlast := congrArg List.getLast? he
  simp only [List.getLast?_concat, Option.some.injEq] at hlast
  exact h (hlast ▸ rfl)

variable (s s' : LocalStore) (tmpDir : Path) (id id' : BlockID)

theorem blockPath_eq : s.blockPath id = (s.root ++ [ascii "blocks", (splitBlockID id).1]) ++
    [(splitBlockID id).2 ++ ascii ".block"] := by
  simp [LocalStore.blockPath]

theorem bloomPath_eq : s.bloomPath id = (s.root ++ [ascii "blocks", (splitBlockID id).1]) ++
    [(splitBlockID id).2 ++ ascii ".bloom"] := by
  simp [LocalStore.bloomPath]

theorem blockPath_ne_bloomPath : s.blockPath id ≠ s'.bloomPath id' := by
  rw [blockPath_eq, bloomPath_eq]
  exact path_ne_of_getLast (by simp [ascii])

theorem tmpPath_ne_blockPath : tmpPath tmpDir id ≠ s.blockPath id' := by
  rw [blockPath_eq, tmpPath]
  exact path_ne_of_getLast (by simp [ascii])

theorem tmpPath_ne_bloomPath : tmpPath tmpDir id ≠ s.bloomPath id' := by
  rw [bloomPath_eq, tmpPath]
  exact path_ne_of_getLast (by simp [ascii])

theorem migratePath_ne_blockPath (random : Bytes) :
    migratePath tmpDir random ≠ s.blockPath id' := by
  rw [blockPath_eq, migratePath]
  refine path_ne_of_getLast ?_
  rw [List.getLast?_append_of_ne_nil _ (by decide), List.getLast?_append_of_ne_nil _ (by decide)]
  decide

theorem migratePath_ne_bloomPath (random : Bytes) :
    migratePath tmpDir random ≠ s.bloomPath id' := by
  rw [bloomPath_eq, migratePath]
  refine path_ne_of_getLast ?_
  rw [List.getLast?_append_of_ne_nil _ (by decide), List.getLast?_append_of_ne_nil _ (by decide)]
  decide

variable {s s' id id'}

/-- A block id that `BlockIDForShard` prints. -/
def IsBlockID (id : BlockID) : Prop := ∃ shard t, id = blockIDForShard shard t

/-- Shard and hour determine a printed block id. -/
theorem splitBlockID_inj (h : IsBlockID id) (he : splitBlockID id = splitBlockID id') :
    id = id' := by
  obtain ⟨a, t, rfl⟩ := h
  have hsplit := splitFirst_blockID a (hourText (utc t.toInt))
  rw [splitBlockID, splitBlockID, blockIDForShard, hsplit, Option.getD_some] at he
  cases hs : Text.splitFirst colon id' with
  | none =>
      -- without a colon the hour part would be empty
      rw [hs, Option.getD_none, Prod.mk.injEq] at he
      exact absurd he.2 (by simp [hourText])
  | some p =>
      rw [hs, Option.getD_some] at he
      subst he
      rw [Text.eq_of_splitFirst hs]
      exact Text.eq_of_splitFirst hsplit

/-- Different block ids have different block files, also in different stores. -/
theorem blockPath_inj (h : IsBlockID id) (he : s.blockPath id = s'.blockPath id') : id = id' := by
  have hc := (List.append_inj' he rfl).2
  simp only [List.cons.injEq, true_and, and_true] at hc
  exact splitBlockID_inj h (Prod.ext hc.1 (List.append_cancel_right hc.2))

theorem bloomPath_inj (h : IsBlockID id) (he : s.bloomPath id = s'.bloomPath id') : id = id' := by
  have hc := (List.append_inj' he rfl).2
  simp only [List.cons.injEq, true_and, and_true] at hc
  exact splitBlockID_inj h (Prod.ext hc.1 (List.append_cancel_right hc.2))

theorem tmpPath_inj {tmpDir tmpDir' : Path} (he : tmpPath tmpDir id = tmpPath tmpDir' id') :
    id = id' := by
  have hlast := (List.append_inj' he rfl).2
  exact List.append_cancel_right (List.cons.inj hlast).1

/-- Bloom files of one path belong to block files of one path. -/
theorem blockPath_eq_of_bloomPath (he : s.bloomPath id = s'.bloomPath id') :
    s.blockPath id = s'.blockPath id' := by
  obtain ⟨hroot, hc⟩ := List.append_inj' he rfl
  simp only [List.cons.injEq, true_and, and_true] at hc
  have hhour := List.append_cancel_right hc.2
  rw [LocalStore.blockPath, LocalStore.blockPath, hroot, hc.1, hhour]

/-! ## Removing and moving files -/

variable {w w' : World} {ws : List World}

/-- Removing a file leaves it gone, or fails. -/
theorem ensures_removeIfPresent {G : World → World → Prop} {p : Path} {text : String}
    (hsame : G w w) (hgone : G w (w.setFile p none)) :
    Ensures sem G (removeIfPresent p text).run
      (OnResult (fun _ w' => w'.fs p = none) fun _ _ => True) w := by
  refine ensures_bind (ensures_call fun r w' hs => ?_)
  rcases hs with hs | ⟨rfl, rfl⟩
  · simp only [Op.exec] at hs
    cases hfile : w.fs p with
    | none =>
        rw [hfile] at hs
        cases hs
        exact ⟨hsame, hfile⟩
    | some c =>
        rw [hfile] at hs
        cases hs
        exact ⟨hgone, FS.put_self _ _ _⟩
  · exact ⟨hsame, trivial⟩

/-- The files a migration works on. -/
def migrateFiles (s dst : LocalStore) (id : BlockID) (tmpPath : Path) : List Path :=
  [tmpPath, dst.blockPath id, s.blockPath id, s.bloomPath id]

theorem calls_copyFile (src dst : Path) :
    Calls (S := machine) (Op.Within [dst]) (copyFile src dst).run := by
  have hread : (Op.readFile src).Within [dst] := ⟨fun _ h => h.elim, fun _ _ h => by cases h⟩
  have hcreate : (Op.create dst).Within [dst] :=
    ⟨fun _ h => List.mem_singleton.mpr h, fun _ _ h => by cases h⟩
  have hsync : (Op.fsync dst).Within [dst] := ⟨fun _ h => h.elim, fun _ _ h => by cases h⟩
  refine calls_bindE (calls_call.mpr hread) fun data => ?_
  refine calls_bindE (calls_call.mpr hcreate) fun _ => ?_
  have hwrite : (Op.write dst data).Within [dst] :=
    ⟨fun _ h => List.mem_singleton.mpr h, fun _ _ h => by cases h⟩
  exact calls_bindE (calls_call.mpr hwrite) fun _ => calls_call.mpr hsync

theorem runs_removeIfPresent {p : Path} {text : String} {r : Except Err Unit}
    (h : Runs sem (removeIfPresent p text).run w ws r w') :
    w'.db = w.db ∧ (∀ q, q ≠ p → w'.fs q = w.fs q) ∧
      OnResult (fun _ x => x.fs p = none) (fun e _ => ∃ e', e = .wrap text e') r w' := by
  obtain ⟨res, w₁, _, _, -, hrm, hk⟩ := runs_bind.mp h
  have he := sem_effect (runs_call.mp hrm).1
  have hdb : w₁.db = w.db := by
    rcases he.db with hdb | ⟨_, _, ho, -⟩
    · exact hdb
    · cases ho
  have hgone := ((ensures_removeIfPresent (w := w) (G := fun _ _ => True) trivial trivial).runs h).2
  cases res with
  | ok u =>
      obtain ⟨-, rfl, rfl⟩ := hk
      exact ⟨hdb, fun q hq => he.files q hq, hgone⟩
  | error e =>
      -- a missing file is not an error
      by_cases hne : e = .notExist
      · rw [hne] at hk
        obtain ⟨-, rfl, rfl⟩ := hk
        exact ⟨hdb, fun q hq => he.files q hq, hgone⟩
      · have hk' : Runs sem (if e = .notExist then Pure.pure (.ok ())
            else Pure.pure (.error (.wrap text e)) : Proc (Except Err Unit)) w₁ _ r w' := hk
        rw [if_neg hne] at hk'
        obtain ⟨-, rfl, rfl⟩ := hk'
        exact ⟨hdb, fun q hq => he.files q hq, e, rfl⟩

/-- **What a successful migration did**: the bloom file is gone. -/
theorem runs_migrate_ok {s dst : LocalStore} {tmpPath : Path} {u : Unit}
    (h : Runs sem (s.migrate dst id tmpPath).run w ws (.ok u) w') :
    w'.db = w.db ∧ w'.fs (s.bloomPath id) = none ∧
      ∀ q, q ∉ migrateFiles s dst id tmpPath → w'.fs q = w.fs q := by
  obtain ⟨_, w₁, _, _, -, hcreate, k₁⟩ := runs_bindE_ok.mp h
  obtain rfl := runs_osCreate_ok hcreate
  obtain ⟨_, w₂, _, _, -, hcopy, k₂⟩ := runs_bindE_ok.mp k₁
  obtain ⟨hdb₂, hfs₂⟩ := runs_within (calls_copyFile _ _) (runs_orElse_ok.mp hcopy)
  obtain ⟨_, w₃, _, _, -, hput, k₃⟩ := runs_bindE_ok.mp k₂
  obtain ⟨_, w₄, _, _, -, hmkdir, hrename⟩ := runs_bindE_ok.mp (runs_orElse_ok.mp hput)
  obtain rfl := runs_osMkdirAll_ok hmkdir
  obtain ⟨c, -, rfl⟩ := runs_osRename_ok hrename
  obtain ⟨_, w₅, _, _, -, hblock, hbloom⟩ := runs_bindE_ok.mp k₃
  obtain ⟨hdb₅, hfs₅, -⟩ := runs_removeIfPresent hblock
  obtain ⟨hdb₆, hfs₆, hgone⟩ := runs_removeIfPresent hbloom
  refine ⟨hdb₆.trans (hdb₅.trans hdb₂), hgone, fun q hq => ?_⟩
  simp only [migrateFiles, List.mem_cons, List.not_mem_nil, or_false, not_or] at hq
  obtain ⟨htmp, hdst, hsrc, hsrc'⟩ := hq
  rw [hfs₆ q hsrc', hfs₅ q hsrc, World.setFile_fs, FS.put_ne _ _ htmp, World.setFile_fs,
    FS.put_ne _ _ hdst, hfs₂ q (by simpa using htmp), World.setFile_fs, FS.put_ne _ _ htmp]

/-- A migration that fails before its `Delete` leaves all files but the
temporary one alone. -/
theorem runs_migrate_error {s dst : LocalStore} {tmpPath : Path} {e : Err}
    (h : Runs sem (s.migrate dst id tmpPath).run w ws (.error e) w')
    (he : ∃ e', e = .wrap "migrate copy" e' ∨ e = .wrap "migrate put" e') :
    ∀ q, q ≠ tmpPath → w'.fs q = w.fs q := by
  intro q hq
  have hq' : q ∉ [tmpPath] := by simpa using hq
  rcases runs_bindE.mp h with ⟨e₁, he₁, hcreate⟩ | ⟨_, w₁, _, _, -, hcreate, k₁⟩
  · exact (sem_effect (runs_call.mp hcreate).1).files q hq
  obtain rfl := runs_osCreate_ok hcreate
  have hfs₁ : (w.setFile tmpPath (some [])).fs q = w.fs q := FS.put_ne _ _ hq
  rcases runs_bindE.mp k₁ with ⟨e₂, he₂, hcopy⟩ | ⟨_, w₂, _, _, -, hcopy, k₂⟩
  · obtain ⟨_, w₂, _, hrun, hclean⟩ := runs_orElse_error hcopy
    rw [hclean q hq', (runs_within (calls_copyFile _ _) hrun).2 q hq', hfs₁]
  have hfs₂ := (runs_within (calls_copyFile _ _) (runs_orElse_ok.mp hcopy)).2 q hq'
  rcases runs_bindE.mp k₂ with ⟨e₃, he₃, hput⟩ | ⟨_, w₃, _, _, -, -, k₃⟩
  · obtain ⟨_, w₃, _, hrun, hclean⟩ := runs_orElse_error hput
    rw [hclean q hq', ← hfs₁, ← hfs₂]
    -- neither the directory nor the failed rename changes a file
    rcases runs_bindE.mp hrun with ⟨_, -, hmkdir⟩ | ⟨_, w₄, _, _, -, hmkdir, hrename⟩
    · exact (sem_effect (runs_call.mp hmkdir).1).files q fun ht => ht
    · obtain rfl := runs_osMkdirAll_ok hmkdir
      rw [runs_osRename_error hrename]
  · -- the errors of `Delete` are others
    have htext : ∃ text e', e = .wrap text e' ∧ (text = "delete block" ∨ text = "delete bloom") := by
      rcases runs_bindE.mp k₃ with ⟨_, he', hblock⟩ | ⟨_, _, _, _, -, -, hbloom⟩
      · cases he'
        obtain ⟨-, -, e', rfl⟩ := runs_removeIfPresent hblock
        exact ⟨_, e', rfl, Or.inl rfl⟩
      · obtain ⟨-, -, e', rfl⟩ := runs_removeIfPresent hbloom
        exact ⟨_, e', rfl, Or.inr rfl⟩
    obtain ⟨text, e', rfl, ht⟩ := htext
    obtain ⟨e'', he''⟩ := he
    rcases ht with rfl | rfl
    · simp at he''
    · simp at he''

theorem exec_put {w : World} {s : LocalStore} {id : BlockID} {src : Path} {c : Bytes}
    (h : w.fs src = some c) :
    (s.put id src).run.exec w = (.ok (), (w.setFile (s.blockPath id) (some c)).setFile src none) := by
  have hdir : (osMkdirAll (s.blockPath id).dropLast).run.exec w = (.ok (), w) := rfl
  exact (exec_bindE_of hdir).trans (exec_osRename h)

end Bbdb.Tier
