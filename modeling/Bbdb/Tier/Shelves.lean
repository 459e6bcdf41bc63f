import Bbdb.Tier.Local
import Mathlib.Logic.Function.Basic

/-!
# Tier — the stores as shelves

What package `tier` is for: a block lies on a shelf, the root of a store
together with a block id, and `Put`, `Delete` and `Migrate` change what lies
where. This module compares the three functions, with every failure and cut off
anywhere, with that picture.

A call that returns no error has the effect it should have; any other leaves one
of a few stages (`TierCall.stages`), so no shelf ever holds part of a block
(`tiers_refine_shelves`). A block that is only ever migrated stays on some shelf
throughout, provided no migration goes from a store to one with the same root
(`migration_keeps_block`): such a migration deletes the block
(`migrate_same_root`).
-/

namespace Bbdb.Tier

open Bbdb.Meta Bbdb.Block
open Prog hiding pure bind

/-! ## The picture -/

/-- A block id as `BlockIDForShard` prints it. -/
abbrev PrintedID := { id : BlockID // IsBlockID id }

/-- The root of a store and a block id. -/
abbrev Shelf := Path × PrintedID

/-- What lies on each shelf. -/
abbrev Shelves := Shelf → Option Bytes

def LocalStore.shelf (s : LocalStore) (id : PrintedID) : Shelf := (s.root, id)

/-- A path that is no block file. -/
def NoBlock (p : Path) : Prop := ∀ (s : LocalStore) (id : BlockID), p ≠ s.blockPath id

/-- The functions that change blocks. The argument `srcPath` of `Put` holds
`data`, or is missing. -/
inductive TierCall
  | put (s : LocalStore) (id : PrintedID) (srcPath : Path) (data : Option Bytes)
  | delete (s : LocalStore) (id : PrintedID)
  | migrate (s dst : LocalStore) (id : PrintedID) (tempDir : Path) (random : Bytes)

namespace TierCall

def prog : TierCall → Go Unit
  | put s id srcPath _ => s.put id.1 srcPath
  | delete s id => s.delete id.1
  | migrate s dst id tempDir random => s.migrate dst id.1 (migratePath tempDir random)

/-- `Put` takes a file that is no block of any store. -/
def Ready (w : World) : TierCall → Prop
  | put _ _ srcPath data => NoBlock srcPath ∧ w.fs srcPath = data
  | _ => True

/-- The block the call is about. -/
def block : TierCall → PrintedID
  | put _ id _ _ | delete _ id | migrate _ _ id _ _ => id

/-- The shelves after a call that returned no error. There is none such for a
`Put` of a missing file and a migration of a block that is not there. -/
def result (B : Shelves) : TierCall → Option Shelves
  | put s id _ data => data.map fun d => Function.update B (s.shelf id) (some d)
  | delete s id => some (Function.update B (s.shelf id) none)
  | migrate s dst id _ _ => (B (s.shelf id)).map fun data =>
      Function.update (Function.update B (dst.shelf id) (some data)) (s.shelf id) none

/-- The shelves after a call that returned an error or was cut off. -/
def stages (B : Shelves) : TierCall → List Shelves
  | put _ _ _ _ => [B]
  | delete s id => [B, Function.update B (s.shelf id) none]
  | migrate s dst id _ _ => B :: ((B (s.shelf id)).toList.flatMap fun data =>
      [Function.update B (dst.shelf id) (some data),
        Function.update (Function.update B (dst.shelf id) (some data)) (s.shelf id) none])

end TierCall

/-- How a call ended. -/
inductive TierOutcome
  | done (c : TierCall)
  | stopped (c : TierCall)

def TierOutcome.call : TierOutcome → TierCall
  | done c | stopped c => c

/-- **What the package promises.** -/
inductive Shelves.Step (B : Shelves) : TierOutcome → Shelves → Prop
  | done {c B'} : c.result B = some B' → Shelves.Step B (.done c) B'
  | stopped {c B'} : B' ∈ c.stages B → Shelves.Step B (.stopped c) B'

/-- One outcome after another. -/
inductive Shelves.Run (B₀ : Shelves) : List TierOutcome → Shelves → Prop
  | nil : Shelves.Run B₀ [] B₀
  | step {B B' os o} : Shelves.Run B₀ os B → Shelves.Step B o B' →
      Shelves.Run B₀ (os ++ [o]) B'

/-- What lies on the shelves of a file system. -/
def shelves (w : World) : Shelves := fun k => w.fs (LocalStore.blockPath ⟨k.1, tierHot⟩ k.2.1)

/-- The calls on the file system, one after another, with any failures and cut
off anywhere. In between anything may happen that leaves the block files alone:
crashes, commits, writes to temporary files. -/
inductive TierRun (w₀ : World) : List TierOutcome → World → Prop
  | nil : TierRun w₀ [] w₀
  | elsewhere {w w' os} : TierRun w₀ os w → shelves w' = shelves w → TierRun w₀ os w'
  | done {w w' os ws} {c : TierCall} : TierRun w₀ os w → c.Ready w →
      Runs sem c.prog.run w ws (.ok ()) w' → TierRun w₀ (os ++ [.done c]) w'
  | stopped {w w' os} {c : TierCall} : TierRun w₀ os w → c.Ready w →
      Stops sem c.prog w w' → TierRun w₀ (os ++ [.stopped c]) w'

/-! ## Shelves and files -/

variable {w w' : World} {ws : List World} {s dst : LocalStore} {id : PrintedID}

@[simp] theorem shelves_shelf (w : World) (s : LocalStore) (id : PrintedID) :
    shelves w (s.shelf id) = w.fs (s.blockPath id.1) := rfl

/-- Different shelves are different files. -/
theorem shelf_inj {k k' : Shelf}
    (h : LocalStore.blockPath ⟨k.1, tierHot⟩ k.2.1 = LocalStore.blockPath ⟨k'.1, tierHot⟩ k'.2.1) :
    k = k' := by
  have hroot : k.1 = k'.1 := (List.append_inj' h rfl).1
  exact Prod.ext hroot (Subtype.ext (blockPath_inj k.2.2 h))

/-- A file of a shelf was replaced or removed, and no other file of a shelf has
changed. -/
theorem shelves_update {c : Option Bytes} (hself : w'.fs (s.blockPath id.1) = c)
    (hrest : ∀ k : Shelf, LocalStore.blockPath ⟨k.1, tierHot⟩ k.2.1 ≠ s.blockPath id.1 →
      shelves w' k = shelves w k) :
    shelves w' = Function.update (shelves w) (s.shelf id) c := by
  funext k
  by_cases hk : k = s.shelf id
  · rw [hk, Function.update_self, shelves_shelf, hself]
  · rw [Function.update_of_ne hk]
    exact hrest k fun he => hk (shelf_inj he)

/-- Outside `ps` no file has changed. -/
def SameBut (ps : List Path) (x y : World) : Prop := ∀ q, q ∉ ps → y.fs q = x.fs q

theorem SameBut.refl (ps : List Path) (x : World) : SameBut ps x x := fun _ _ => rfl

theorem SameBut.trans {ps : List Path} {x y z : World} (h₁ : SameBut ps x y)
    (h₂ : SameBut ps y z) : SameBut ps x z := fun q hq => (h₂ q hq).trans (h₁ q hq)

theorem noBlock_migratePath (tempDir : Path) (random : Bytes) :
    NoBlock (migratePath tempDir random) :=
  fun s id => migratePath_ne_blockPath s tempDir id random

theorem noBlock_bloomPath (s : LocalStore) (id : BlockID) : NoBlock (s.bloomPath id) :=
  fun s' id' => (blockPath_ne_bloomPath s' s id' id).symm

/-- Changes to another file are not seen. -/
theorem SameBut.shelves {p : Path} (hp : NoBlock p) (h : SameBut [p] w w') :
    shelves w' = shelves w := by
  funext k
  exact h _ fun hmem => hp _ _ (List.mem_singleton.mp hmem).symm

theorem ensures_within {α : Type} {f : Proc α} {ps : List Path}
    (hf : Calls (S := machine) (Op.Within ps) f) (w : World) :
    Ensures sem (SameBut ps) f (fun _ _ => True) w := by
  refine hf.ensures (fun o x r y ho hs q hq => ?_) w
  exact (sem_effect hs).files q fun ht => hq (ho.1 q ht)

theorem stops_within {α : Type} {f : Go α} {ps : List Path}
    (hf : Calls (S := machine) (Op.Within ps) f.run) (h : Stops sem f w w') : SameBut ps w w' :=
  (ensures_within hf w).stops (SameBut.refl ps) SameBut.trans h

/-- An error exit stops where the function stops, but for the files it removes. -/
theorem stops_orElse {α : Type} {f : Go α} {cleanup : List Path} {wrap : Err → Err}
    (h : Stops sem (orElse f cleanup wrap) w w') :
    ∃ w₁, Stops sem f w w₁ ∧ SameBut cleanup w₁ w' := by
  rcases h with ⟨ws, hcut⟩ | ⟨ws, e, hrun⟩
  · rcases cuts_bind.mp hcut with hf | ⟨r, w₁, ws₁, ws₂, -, hf, hk⟩
    · exact ⟨w', Or.inl ⟨ws, hf⟩, SameBut.refl _ _⟩
    · cases r with
      | ok a => exact hk.elim
      | error e =>
          refine ⟨w₁, Or.inr ⟨ws₁, e, hf⟩, ?_⟩
          exact chain_forall (SameBut.refl _) SameBut.trans
            ((ensures_within (within_errorExit e) w₁).cuts hk) w'
            (List.mem_of_getLast? hk.getLast)
  · obtain ⟨e', w₁, ws₁, hf, hclean⟩ := runs_orElse_error hrun
    exact ⟨w₁, Or.inr ⟨ws₁, e', hf⟩, hclean⟩

/-! ## The three functions -/

/-- **Put** moves a file onto the shelf. -/
theorem runs_put_shelves {src : Path} (hsrc : NoBlock src)
    (h : Runs sem (s.put id.1 src).run w ws (.ok ()) w') : ∃ data, w.fs src = some data ∧
      shelves w' = Function.update (shelves w) (s.shelf id) (some data) := by
  obtain ⟨_, w₁, _, _, -, hmkdir, hrename⟩ := runs_bindE_ok.mp h
  obtain rfl := runs_osMkdirAll_ok hmkdir
  obtain ⟨data, hdata, rfl⟩ := runs_osRename_ok hrename
  have hne : s.blockPath id.1 ≠ src := (hsrc s id.1).symm
  refine ⟨data, hdata, shelves_update ?_ fun k hk => ?_⟩
  · rw [World.setFile_fs, FS.put_ne _ _ hne, World.setFile_fs, FS.put_self]
  · rw [shelves, World.setFile_fs, FS.put_ne _ _ (hsrc _ _).symm, World.setFile_fs,
      FS.put_ne _ _ hk]
    rfl

/-- Up to its rename, `Put` changes no file. -/
theorem stops_put {src : Path} (h : Stops sem (s.put id.1 src) w w') : w'.fs = w.fs := by
  have hmk : ∀ x y : World, (∃ r, sem (.mkdirAll (s.blockPath id.1).dropLast) x r y) →
      y.fs = x.fs := by
    rintro x y ⟨r, hs⟩
    exact funext fun q => (sem_effect hs).files q fun ht => ht
  rcases stops_bindE.mp h with (⟨ws, hcut⟩ | ⟨ws, e, hrun⟩) | ⟨_, w₁, ws, hok, hrest⟩
  · rcases hcut with ⟨-, rfl⟩ | ⟨_, _, _, -, -, hpure⟩
    · rfl
    · exact hpure.elim
  · exact hmk _ _ ⟨_, (runs_call.mp hrun).1⟩
  · rw [← hmk _ _ ⟨_, (runs_call.mp hok).1⟩]
    rcases hrest with ⟨ws, hcut⟩ | ⟨ws, e, hrun⟩
    · rcases hcut with ⟨-, rfl⟩ | ⟨_, _, _, -, -, hpure⟩
      · rfl
      · exact hpure.elim
    · rw [runs_osRename_error hrun]

/-- Removing a file that is no block. -/
theorem calls_removeIfPresent (p : Path) (text : String) :
    Calls (S := machine) (Op.Within [p]) (removeIfPresent p text).run := by
  have hrm : (Op.remove p).Within [p] :=
    ⟨fun _ h => List.mem_singleton.mpr h, fun _ _ h => by cases h⟩
  refine calls_bind (calls_call.mpr hrm) fun r => ?_
  cases r with
  | ok u => exact calls_pure _
  | error e =>
      by_cases he : e = .notExist
      · rw [he]
        exact calls_pure _
      · show Calls _ (if e = .notExist then _ else _)
        rw [if_neg he]
        exact calls_pure _

/-- Emptying a shelf. -/
theorem runs_removeBlock {text : String} {r : Except Err Unit}
    (h : Runs sem (removeIfPresent (s.blockPath id.1) text).run w ws r w')
    (hgone : w'.fs (s.blockPath id.1) = none) :
    shelves w' = Function.update (shelves w) (s.shelf id) none :=
  shelves_update hgone fun _ hk => (runs_removeIfPresent h).2.1 _ hk

/-- A removal that stops has taken place, or not. -/
theorem stops_removeBlock {text : String}
    (h : Stops sem (removeIfPresent (s.blockPath id.1) text) w w') :
    shelves w' = shelves w ∨ shelves w' = Function.update (shelves w) (s.shelf id) none := by
  let G : World → World → Prop := fun x y =>
    SameBut [s.blockPath id.1] x y ∧
      (y.fs (s.blockPath id.1) = x.fs (s.blockPath id.1) ∨ y.fs (s.blockPath id.1) = none)
  have htrans : ∀ {x y z : World}, G x y → G y z → G x z := by
    rintro x y z ⟨hxy, hp⟩ ⟨hyz, hp'⟩
    refine ⟨hxy.trans hyz, ?_⟩
    rcases hp' with hp' | hp'
    · rw [hp']
      exact hp
    · exact Or.inr hp'
  have hrefl : ∀ x : World, G x x := fun x => ⟨SameBut.refl _ x, Or.inl rfl⟩
  have hrm : G w (w.setFile (s.blockPath id.1) none) :=
    ⟨fun q hq => FS.put_ne _ _ (by simpa using hq), Or.inr (FS.put_self _ _ _)⟩
  obtain ⟨hrest, hold | hgone⟩ : G w w' :=
    (ensures_removeIfPresent (hrefl w) hrm).stops hrefl htrans h
  · left
    funext k
    by_cases hk : LocalStore.blockPath ⟨k.1, tierHot⟩ k.2.1 = s.blockPath id.1
    · rw [shelves, shelves, hk, hold]
    · exact hrest _ (by simpa using hk)
  · exact Or.inr (shelves_update hgone fun k hk => hrest _ (by simpa using hk))

/-- **Delete** empties the shelf. -/
theorem runs_delete_shelves (h : Runs sem (s.delete id.1).run w ws (.ok ()) w') :
    shelves w' = Function.update (shelves w) (s.shelf id) none := by
  obtain ⟨_, w₁, _, _, -, hblock, hbloom⟩ := runs_bindE_ok.mp h
  have hrest : SameBut [s.bloomPath id.1] w₁ w' := fun q hq =>
    (runs_removeIfPresent hbloom).2.1 q (by simpa using hq)
  rw [hrest.shelves (noBlock_bloomPath s id.1),
    runs_removeBlock hblock (runs_removeIfPresent hblock).2.2]

theorem stops_delete (h : Stops sem (s.delete id.1) w w') :
    shelves w' = shelves w ∨ shelves w' = Function.update (shelves w) (s.shelf id) none := by
  rcases stops_bindE.mp h with hblock | ⟨_, w₁, ws, hblock, hbloom⟩
  · exact stops_removeBlock hblock
  · right
    rw [(stops_within (calls_removeIfPresent _ _) hbloom).shelves (noBlock_bloomPath s id.1),
      runs_removeBlock hblock (runs_removeIfPresent hblock).2.2]

/-- The copy is complete, and the shelves have not been touched. -/
theorem runs_copyFile_shelves {p : Path} (hp : NoBlock p)
    (h : Runs sem (copyFile (s.blockPath id.1) p).run w ws (.ok ()) w') :
    ∃ data, shelves w (s.shelf id) = some data ∧ w'.fs p = some data ∧ shelves w' = shelves w := by
  have hrest : SameBut [p] w w' := (runs_within (calls_copyFile _ _) h).2
  obtain ⟨data, w₁, _, _, -, hread, k₁⟩ := runs_bindE_ok.mp h
  obtain ⟨rfl, hdata⟩ := runs_osReadFile hread
  obtain ⟨_, w₂, _, _, -, hcreate, k₂⟩ := runs_bindE_ok.mp k₁
  obtain rfl := runs_osCreate_ok hcreate
  obtain ⟨_, w₃, _, _, -, hwrite, hsync⟩ := runs_bindE_ok.mp k₂
  obtain ⟨-, rfl⟩ := runs_fileWrite_ok (FS.put_self _ _ _) hwrite
  obtain rfl := runs_fileSync_ok hsync
  exact ⟨data, hdata data rfl, FS.put_self _ _ _, hrest.shelves hp⟩

section Migrate

variable {p : Path} (hp : NoBlock p)

include hp

/-- What `Migrate` has before it touches a shelf. -/
theorem runs_migrate_copied {w₁ w₂ : World} {ws₁ ws₂ : List World}
    (hcreate : Runs sem (osCreate p).run w ws₁ (.ok ()) w₁)
    (hcopy : Runs sem (orElse (copyFile (s.blockPath id.1) p) [p] (.wrap "migrate copy")).run
      w₁ ws₂ (.ok ()) w₂) :
    ∃ data, shelves w (s.shelf id) = some data ∧ w₂.fs p = some data ∧ shelves w₂ = shelves w := by
  obtain rfl := runs_osCreate_ok hcreate
  have hsame : shelves (w.setFile p (some [])) = shelves w :=
    SameBut.shelves hp fun q hq => FS.put_ne _ _ (by simpa using hq)
  obtain ⟨data, hdata, hfile, hshelves⟩ := runs_copyFile_shelves hp (runs_orElse_ok.mp hcopy)
  exact ⟨data, hsame ▸ hdata, hfile, hshelves.trans hsame⟩

/-- **Migrate** takes the block from one shelf to the other. -/
theorem runs_migrate_shelves (h : Runs sem (s.migrate dst id.1 p).run w ws (.ok ()) w') :
    ∃ data, shelves w (s.shelf id) = some data ∧ shelves w' =
      Function.update (Function.update (shelves w) (dst.shelf id) (some data)) (s.shelf id) none := by
  obtain ⟨_, w₁, _, _, -, hcreate, k₁⟩ := runs_bindE_ok.mp h
  obtain ⟨_, w₂, _, _, -, hcopy, k₂⟩ := runs_bindE_ok.mp k₁
  obtain ⟨_, w₃, _, _, -, hput, hdelete⟩ := runs_bindE_ok.mp k₂
  obtain ⟨data, hdata, hfile, hsame⟩ := runs_migrate_copied hp hcreate hcopy
  obtain ⟨data', hfile', hmoved⟩ := runs_put_shelves hp (runs_orElse_ok.mp hput)
  obtain rfl : data = data' := Option.some.inj (hfile.symm.trans hfile')
  refine ⟨data, hdata, ?_⟩
  rw [runs_delete_shelves hdelete, hmoved, hsame]

/-- A migration that stops has done nothing yet, has copied the block, or has
also deleted it where it was. -/
theorem stops_migrate (h : Stops sem (s.migrate dst id.1 p) w w') :
    shelves w' = shelves w ∨ ∃ data, shelves w (s.shelf id) = some data ∧
      (shelves w' = Function.update (shelves w) (dst.shelf id) (some data) ∨
        shelves w' = Function.update (Function.update (shelves w) (dst.shelf id) (some data))
          (s.shelf id) none) := by
  have hcreate : Calls (S := machine) (Op.Within [p]) (osCreate p).run :=
    calls_call.mpr ⟨fun _ h => List.mem_singleton.mpr h, fun _ _ h => by cases h⟩
  rcases stops_bindE.mp h with hstop | ⟨_, w₁, ws₁, hrun₁, h₁⟩
  · exact Or.inl ((stops_within hcreate hstop).shelves hp)
  have hsame₁ : shelves w₁ = shelves w := SameBut.shelves hp (runs_within hcreate hrun₁).2
  rcases stops_bindE.mp h₁ with hstop | ⟨_, w₂, ws₂, hrun₂, h₂⟩
  · -- the copy stopped, and at most the temporary file has changed
    left
    obtain ⟨w₂, hcopy, hclean⟩ := stops_orElse hstop
    rw [hclean.shelves hp, (stops_within (calls_copyFile _ _) hcopy).shelves hp, hsame₁]
  obtain ⟨data, hdata, hfile, hsame₂⟩ := runs_migrate_copied hp hrun₁ hrun₂
  rcases stops_bindE.mp h₂ with hstop | ⟨_, w₃, ws₃, hrun₃, h₃⟩
  · -- before the rename no shelf has changed
    left
    obtain ⟨w₃, hput, hclean⟩ := stops_orElse hstop
    have hsame₃ : shelves w₃ = shelves w₂ := by
      funext k
      rw [shelves, stops_put hput]
      rfl
    rw [hclean.shelves hp, hsame₃, hsame₂]
  · obtain ⟨data', hfile', hcopied⟩ := runs_put_shelves hp (runs_orElse_ok.mp hrun₃)
    obtain rfl : data = data' := Option.some.inj (hfile.symm.trans hfile')
    rw [hsame₂] at hcopied
    right
    refine ⟨data, hdata, ?_⟩
    rw [← hcopied]
    exact stops_delete h₃

end Migrate

/-! ## Without faults -/

/-- Without faults a removal succeeds. -/
theorem exec_removeIfPresent_ok (w : World) (p : Path) (text : String) :
    ∃ w', (removeIfPresent p text).run.exec w = (.ok (), w') := by
  cases hfile : w.fs p with
  | none =>
      have hrm : (osRemove p).run.exec w = (.error .notExist, w) := by
        show Op.exec (.remove p) w = _
        simp only [Op.exec, hfile]
        rfl
      exact ⟨w, exec_bind_of hrm⟩
  | some c =>
      have hrm : (osRemove p).run.exec w = (.ok (), w.setFile p none) := by
        show Op.exec (.remove p) w = _
        simp only [Op.exec, hfile]
        rfl
      exact ⟨_, exec_bind_of hrm⟩

/-- Without faults the copy is made. -/
theorem exec_copyFile {p : Path} {data : Bytes} (hsize : data.length < maxFileSize)
    (hdata : w.fs (s.blockPath id.1) = some data) :
    ∃ w', (copyFile (s.blockPath id.1) p).run.exec w = (.ok (), w') ∧ w'.fs p = some data := by
  have hcreate : (osCreate p).run.exec w = (.ok (), w.setFile p (some [])) := rfl
  have hwrite : (fileWrite p data).run.exec (w.setFile p (some [])) =
      (.ok (), (w.setFile p (some [])).setFile p (some ([] ++ data))) :=
    exec_fileWrite (FS.put_self _ _ _) (by simpa using hsize)
  refine ⟨_, (exec_bindE_of (exec_osReadFile hdata)).trans ((exec_bindE_of hcreate).trans
    (exec_bindE_of hwrite)), ?_⟩
  exact FS.put_self _ _ _

/-- Without faults a migration of a block succeeds. -/
theorem exec_migrate {p : Path} {data : Bytes} (hp : NoBlock p) (hsize : data.length < maxFileSize)
    (hdata : w.fs (s.blockPath id.1) = some data) :
    ∃ w', (s.migrate dst id.1 p).run.exec w = (.ok (), w') := by
  have hcreate : (osCreate p).run.exec w = (.ok (), w.setFile p (some [])) := rfl
  have hsrc : (w.setFile p (some [])).fs (s.blockPath id.1) = some data := by
    rw [World.setFile_fs, FS.put_ne _ _ (hp s id.1).symm, hdata]
  obtain ⟨w₂, hcopy, hfile⟩ := exec_copyFile hsize hsrc (p := p)
  obtain ⟨w₄, hblock⟩ := exec_removeIfPresent_ok _ (s.blockPath id.1) "delete block"
  obtain ⟨w₅, hbloom⟩ := exec_removeIfPresent_ok w₄ (s.bloomPath id.1) "delete bloom"
  refine ⟨w₅, (exec_bindE_of hcreate).trans ((exec_bindE_of (exec_orElse hcopy)).trans ?_)⟩
  exact (exec_bindE_of (exec_orElse (exec_put hfile))).trans ((exec_bindE_of hblock).trans hbloom)

/-- A migration can be cut off when the block lies in both stores. -/
theorem exists_migrate_copied {p : Path} {data : Bytes} (hp : NoBlock p)
    (hsize : data.length < maxFileSize) (hroot : s.root ≠ dst.root)
    (hdata : w.fs (s.blockPath id.1) = some data) :
    ∃ w', Stops sem (s.migrate dst id.1 p) w w' ∧ w'.fs (s.blockPath id.1) = some data ∧
      w'.fs (dst.blockPath id.1) = some data := by
  have hsrc : (w.setFile p (some [])).fs (s.blockPath id.1) = some data := by
    rw [World.setFile_fs, FS.put_ne _ _ (hp s id.1).symm, hdata]
  obtain ⟨w₂, hcopy, hfile⟩ := exec_copyFile hsize hsrc (p := p)
  have hcreated := runs_procExec (osCreate p).run w
  have hcopied := runs_procExec (orElse (copyFile (s.blockPath id.1) p) [p]
    (.wrap "migrate copy")).run (w.setFile p (some []))
  rw [exec_orElse hcopy] at hcopied
  have hput := runs_procExec (orElse (dst.put id.1 p) [p] (.wrap "migrate put")).run w₂
  rw [exec_orElse (exec_put hfile)] at hput
  refine ⟨_, stops_bindE.mpr (Or.inr ⟨_, _, _, hcreated, stops_bindE.mpr (Or.inr ⟨_, _, _, hcopied,
    stops_bindE.mpr (Or.inr ⟨_, _, _, hput, Or.inl ⟨[], Or.inl ⟨rfl, rfl⟩⟩⟩)⟩)⟩), ?_⟩
  -- the shelves show both copies
  obtain ⟨_, -, -, hsame⟩ := runs_migrate_copied hp hcreated hcopied
  obtain ⟨c, hc, hafter⟩ := runs_put_shelves hp (runs_orElse_ok.mp hput)
  obtain rfl : data = c := Option.some.inj (hfile.symm.trans hc)
  have hne : s.shelf id ≠ dst.shelf id := fun he => hroot (congrArg Prod.fst he)
  rw [← shelves_shelf, ← shelves_shelf, hafter, hsame, Function.update_of_ne hne,
    Function.update_self]
  exact ⟨hdata, rfl⟩

/-- A store with one block, and a store to move it to. -/
def moveSrc : LocalStore := ⟨[ascii "hot"], tierHot⟩

def moveDst : LocalStore := ⟨[ascii "warm"], tierWarm⟩

def moveWorld : World where
  db := Pebble.empty
  fs := fun q => if q = moveSrc.blockPath (blockIDForShard 7 0) then some [1] else none
  clock := 0

def moveID : PrintedID := ⟨blockIDForShard 7 0, 7, 0, rfl⟩

theorem moveWorld_hot : moveWorld.fs (moveSrc.blockPath moveID.1) = some [1] := by
  simp [moveWorld, moveID]

/-- The move is cut off and made again. -/
def movedTwice : List TierOutcome :=
  [.stopped (.migrate moveSrc moveDst moveID [] []),
    .done (.migrate moveSrc moveDst moveID [] [])]

/-- In between the block lies in both stores. -/
theorem tierRun_movedTwice : ∃ w₁ w, w₁.fs (moveSrc.blockPath moveID.1) = some [1] ∧
    w₁.fs (moveDst.blockPath moveID.1) = some [1] ∧
    TierRun moveWorld [.stopped (.migrate moveSrc moveDst moveID [] [])] w₁ ∧
    TierRun moveWorld movedTwice w := by
  have hp := noBlock_migratePath [] []
  have hroot : moveSrc.root ≠ moveDst.root := by decide
  obtain ⟨w₁, hstop, hhot, hwarm⟩ := exists_migrate_copied hp (by decide) hroot moveWorld_hot
  have hcut : TierRun moveWorld [.stopped (.migrate moveSrc moveDst moveID [] [])] w₁ :=
    TierRun.nil.stopped trivial hstop
  obtain ⟨w, hexec⟩ : ∃ w, (moveSrc.migrate moveDst moveID.1 (migratePath [] [])).run.exec w₁ =
      (.ok (), w) := exec_migrate hp (by decide) hhot
  have hrun := runs_procExec (moveSrc.migrate moveDst moveID.1 (migratePath [] [])).run w₁
  rw [hexec] at hrun
  exact ⟨w₁, w, hhot, hwarm, hcut, hcut.done trivial hrun⟩

/-! ## Refinement -/

/-- A call that returns no error has the effect it should have. -/
theorem TierCall.runs {c : TierCall} (hready : c.Ready w)
    (h : Runs sem c.prog.run w ws (.ok ()) w') : c.result (shelves w) = some (shelves w') := by
  cases c with
  | put s id srcPath data =>
      obtain ⟨hsrc, rfl⟩ := hready
      obtain ⟨data, hdata, hafter⟩ := runs_put_shelves hsrc h
      rw [result, hdata, hafter]
      rfl
  | delete s id => rw [result, runs_delete_shelves h]
  | migrate s dst id tempDir random =>
      obtain ⟨data, hdata, hafter⟩ := runs_migrate_shelves (noBlock_migratePath tempDir random) h
      rw [result, hdata, hafter]
      rfl

/-- Any other call leaves one of its stages. -/
theorem TierCall.stops {c : TierCall} (h : Stops sem c.prog w w') :
    shelves w' ∈ c.stages (shelves w) := by
  cases c with
  | put s id srcPath data =>
      have hsame : shelves w' = shelves w := funext fun k => by
        rw [shelves, stops_put h]
        rfl
      simp [stages, hsame]
  | delete s id => simpa [stages] using stops_delete h
  | migrate s dst id tempDir random =>
      rcases stops_migrate (noBlock_migratePath tempDir random) h with hsame | ⟨data, hdata, hafter⟩
      · simp [stages, hsame]
      · rw [stages, hdata]
        rcases hafter with hafter | hafter
        · simp [hafter]
        · simp [hafter]

/-- **Every run of calls is a run of the shelves**, with the same outcomes. -/
theorem TierRun.shelves {w₀ : World} {os : List TierOutcome} (h : TierRun w₀ os w) :
    Shelves.Run (shelves w₀) os (shelves w) := by
  induction h with
  | nil => exact .nil
  | elsewhere _ hsame ih => rwa [hsame]
  | done _ hready hrun ih => exact ih.step (.done (TierCall.runs hready hrun))
  | stopped _ _ hstop ih => exact ih.step (.stopped (TierCall.stops hstop))

/-- `Exists` answers whether the shelf is full. -/
theorem runs_exists_shelves {b : Bool} (h : Runs sem (s.exists_ id.1).run w ws (.ok b) w') :
    b = (shelves w (s.shelf id)).isSome := by
  obtain ⟨r, w₁, _, _, -, hstat, hk⟩ := runs_bind.mp h
  have hs := (runs_call.mp hstat).1
  rw [shelves_shelf]
  cases r with
  | ok n =>
      obtain ⟨-, hb, -⟩ := hk
      obtain ⟨-, c, hc, -⟩ := runs_osStat_ok hstat
      rw [hc, Except.ok.inj hb]
      rfl
  | error e =>
      obtain ⟨-, hb, -⟩ := hk
      by_cases he : e = .notExist
      · rw [if_pos he] at hb
        rcases hs with hs | ⟨hs, -⟩
        · simp only [Op.exec] at hs
          cases hfile : w.fs (s.blockPath id.1) with
          | none => exact Except.ok.inj hb
          | some c =>
              rw [hfile] at hs
              cases hs
        · rw [Except.error.inj hs] at he
          cases he
      · rw [if_neg he] at hb
        cases hb

/-- **The stores are shelves.** After any calls of `Put`, `Delete` and
`Migrate`, with any failures, cut off anywhere, and anything else that leaves
block files alone in between: each call that returned no error had its effect,
every other one left one of its stages, and what `Exists` and `Get` answer is
what lies on the shelf. -/
theorem tiers_refine_shelves (w₀ w : World) (os : List TierOutcome) (hrun : TierRun w₀ os w) :
    ∃ B, Shelves.Run (shelves w₀) os B ∧ ∀ (s : LocalStore) (id : PrintedID) (ws : List World)
      (w' : World),
      (∀ b, Runs sem (s.exists_ id.1).run w ws (.ok b) w' → b = (B (s.shelf id)).isSome) ∧
      ∀ data, Runs sem (s.get id.1).run w ws (.ok data) w' → B (s.shelf id) = some data := by
  refine ⟨shelves w, hrun.shelves, fun s id ws w' => ⟨fun b h => ?_, fun data h => ?_⟩⟩
  · exact runs_exists_shelves h
  · exact (runs_osReadFile h).2 data rfl

theorem tiers_refine_shelves_movedTwice :
    (∃ w B, TierRun moveWorld [.stopped (.migrate moveSrc moveDst moveID [] [])] w ∧
      Shelves.Run (shelves moveWorld) [.stopped (.migrate moveSrc moveDst moveID [] [])] B ∧
      B (moveSrc.shelf moveID) = some [1] ∧ B (moveDst.shelf moveID) = some [1]) ∧
    ∃ w B, TierRun moveWorld movedTwice w ∧ Shelves.Run (shelves moveWorld) movedTwice B ∧
      ∀ ws w' b, Runs sem (moveDst.exists_ moveID.1).run w ws (.ok b) w' →
        b = (B (moveDst.shelf moveID)).isSome := by
  obtain ⟨w₁, w, hhot, hwarm, hcut, hw⟩ := tierRun_movedTwice
  obtain ⟨B₁, hB₁, hget⟩ := tiers_refine_shelves _ _ _ hcut
  obtain ⟨B, hB, hreads⟩ := tiers_refine_shelves _ _ _ hw
  have hread : ∀ s : LocalStore, w₁.fs (s.blockPath moveID.1) = some [1] →
      B₁ (s.shelf moveID) = some [1] := by
    intro s hs
    have hrun := runs_procExec (s.get moveID.1).run w₁
    rw [show (s.get moveID.1).run.exec w₁ = _ from exec_osReadFile hs] at hrun
    exact (hget s moveID _ _).2 _ hrun
  exact ⟨⟨w₁, B₁, hcut, hB₁, hread _ hhot, hread _ hwarm⟩, w, B, hw, hB,
    fun ws w' b => (hreads moveDst moveID ws w').1 b⟩

/-! ## A block that is only migrated -/

namespace Shelves

variable {B B' : Shelves} {o : TierOutcome} {data : Bytes} {roots : Set Path}

/-- A call is about one block. -/
theorem Step.off (h : Step B o B') (hid : id ≠ o.call.block) (root : Path) :
    B' (root, id) = B (root, id) := by
  have hne : ∀ (s : LocalStore) id', o.call.block = id' → (root, id) ≠ s.shelf id' := by
    rintro s _ rfl he
    exact hid (congrArg Prod.snd he)
  cases h with
  | @done c _ hres =>
      cases c with
      | put s id' srcPath data =>
          obtain ⟨data, -, rfl⟩ := Option.map_eq_some_iff.mp hres
          exact Function.update_of_ne (hne s id' rfl) _ _
      | delete s id' =>
          cases hres
          exact Function.update_of_ne (hne s id' rfl) _ _
      | migrate s dst id' tempDir random =>
          obtain ⟨data, -, rfl⟩ := Option.map_eq_some_iff.mp hres
          rw [Function.update_of_ne (hne s id' rfl), Function.update_of_ne (hne dst id' rfl)]
  | @stopped c _ hmem =>
      cases c with
      | put s id' srcPath data => rw [List.mem_singleton.mp hmem]
      | delete s id' =>
          simp only [TierCall.stages, List.mem_cons, List.not_mem_nil, or_false] at hmem
          rcases hmem with rfl | rfl
          · rfl
          · exact Function.update_of_ne (hne s id' rfl) _ _
      | migrate s dst id' tempDir random =>
          simp only [TierCall.stages, List.mem_cons, List.mem_flatMap, List.not_mem_nil,
            or_false] at hmem
          rcases hmem with rfl | ⟨data, -, rfl | rfl⟩
          · rfl
          · exact Function.update_of_ne (hne dst id' rfl) _ _
          · rw [Function.update_of_ne (hne s id' rfl), Function.update_of_ne (hne dst id' rfl)]

/-- A migration has done nothing, has copied, or has moved the block. -/
theorem Step.migrate {tempDir : Path} {random : Bytes} (h : Step B o B')
    (ho : o.call = .migrate s dst id tempDir random) :
    B' = B ∨ ∃ data, B (s.shelf id) = some data ∧
      (B' = Function.update B (dst.shelf id) (some data) ∨
        B' = Function.update (Function.update B (dst.shelf id) (some data)) (s.shelf id) none) := by
  cases h with
  | @done c _ hres =>
      obtain rfl : c = _ := ho
      obtain ⟨data, hdata, rfl⟩ := Option.map_eq_some_iff.mp hres
      exact Or.inr ⟨data, hdata, Or.inr rfl⟩
  | @stopped c _ hmem =>
      obtain rfl : c = _ := ho
      simp only [TierCall.stages, List.mem_cons, List.mem_flatMap, List.not_mem_nil, or_false,
        Option.mem_toList] at hmem
      exact hmem

/-- The call is about another block, or is a migration between two stores whose
roots differ. -/
def Migrates (roots : Set Path) (id : PrintedID) (o : TierOutcome) : Prop :=
  o.call.block = id → ∃ s dst tempDir random, o.call = .migrate s dst id tempDir random ∧
    s.root ≠ dst.root ∧ dst.root ∈ roots

/-- The block lies on a shelf, and nothing else of its name on any other. -/
structure Holds (roots : Set Path) (id : PrintedID) (data : Bytes) (B : Shelves) : Prop where
  here : ∃ root ∈ roots, B (root, id) = some data
  only : ∀ root, B (root, id) = none ∨ B (root, id) = some data

/-- **One call keeps the block.** -/
theorem Holds.step (h : Holds roots id data B) (hstep : Step B o B')
    (ho : Migrates roots id o) : Holds roots id data B' := by
  by_cases hid : o.call.block = id
  · obtain ⟨s, dst, tempDir, random, hcall, hroot, hdst⟩ := ho hid
    -- the copy replaces what lies at the destination by the same block
    have hcopy : Holds roots id data (Function.update B (dst.shelf id) (some data)) := by
      refine ⟨⟨dst.root, hdst, Function.update_self _ _ _⟩, fun root => ?_⟩
      by_cases hk : (root, id) = dst.shelf id
      · rw [hk, Function.update_self]
        exact Or.inr rfl
      · rw [Function.update_of_ne hk]
        exact h.only root
    rcases hstep.migrate hcall with rfl | ⟨data', hdata, hafter⟩
    · exact h
    · obtain rfl : data' = data := by
        rcases h.only s.root with hnone | hsome
        · exact absurd (hnone.symm.trans hdata) (by simp)
        · exact Option.some.inj (hdata.symm.trans hsome)
      rcases hafter with rfl | rfl
      · exact hcopy
      · refine ⟨⟨dst.root, hdst, ?_⟩, fun root => ?_⟩
        · have hne : (dst.root, id) ≠ s.shelf id := fun he => hroot (congrArg Prod.fst he).symm
          rw [Function.update_of_ne hne]
          exact Function.update_self _ _ _
        · by_cases hk : (root, id) = s.shelf id
          · rw [hk, Function.update_self]
            exact Or.inl rfl
          · rw [Function.update_of_ne hk]
            exact hcopy.only root
  · have hsame := hstep.off (Ne.symm hid)
    obtain ⟨root, hmem, hroot⟩ := h.here
    exact ⟨⟨root, hmem, (hsame root).trans hroot⟩, fun r => hsame r ▸ h.only r⟩

theorem Run.holds {B₀ : Shelves} {os : List TierOutcome} (h : Holds roots id data B₀)
    (hrun : Run B₀ os B) (hos : ∀ o ∈ os, Migrates roots id o) : Holds roots id data B := by
  induction hrun with
  | nil => exact h
  | step _ hstep ih =>
      refine (ih fun o ho => hos o (List.mem_append_left _ ho)).step hstep ?_
      exact hos _ (List.mem_append_right _ (List.mem_singleton.mpr rfl))

/-- The block lies on exactly one shelf. -/
def Once (id : PrintedID) (data : Bytes) (B : Shelves) : Prop :=
  ∃ root, B (root, id) = some data ∧ ∀ r, r ≠ root → B (r, id) = none

/-- **A migration that returns no error moves the block.** -/
theorem Once.step {c : TierCall} (h : Once id data B) (hstep : Step B (.done c) B')
    (hc : Migrates roots id (.done c)) : Once id data B' := by
  obtain ⟨root, hroot, hnone⟩ := h
  by_cases hid : c.block = id
  · obtain ⟨s, dst, tempDir, random, rfl, hne, -⟩ := hc hid
    cases hstep with
    | done hres =>
        obtain ⟨data', hdata, rfl⟩ := Option.map_eq_some_iff.mp hres
        obtain rfl : s.root = root := by
          by_contra hs
          exact absurd ((hnone s.root hs).symm.trans hdata) (by simp)
        obtain rfl : data' = data := Option.some.inj (hdata.symm.trans hroot)
        refine ⟨dst.root, ?_, fun r hr => ?_⟩
        · have hd : (dst.root, id) ≠ s.shelf id := fun he => hne (congrArg Prod.fst he).symm
          rw [Function.update_of_ne hd]
          exact Function.update_self _ _ _
        · by_cases hs : r = s.root
          · subst hs
            exact Function.update_self _ _ _
          · have hs' : (r, id) ≠ s.shelf id := fun he => hs (congrArg Prod.fst he)
            have hd' : (r, id) ≠ dst.shelf id := fun he => hr (congrArg Prod.fst he)
            rw [Function.update_of_ne hs', Function.update_of_ne hd', hnone r hs]
  · have hsame := hstep.off (Ne.symm hid)
    exact ⟨root, (hsame root).trans hroot, fun r hr => (hsame r).trans (hnone r hr)⟩

theorem Run.once {B₀ : Shelves} {os : List TierOutcome} (h : Once id data B₀)
    (hrun : Run B₀ os B) (hos : ∀ o ∈ os, Migrates roots id o)
    (hdone : ∀ o ∈ os, o.call.block = id → ∃ c, o = .done c) : Once id data B := by
  induction hrun with
  | nil => exact h
  | @step B₁ B₂ os o _ hstep ih =>
      have hold := ih (fun o ho => hos o (List.mem_append_left _ ho))
        fun o ho => hdone o (List.mem_append_left _ ho)
      have hmem : o ∈ os ++ [o] := List.mem_append_right _ (List.mem_singleton.mpr rfl)
      by_cases hid : o.call.block = id
      · obtain ⟨c, rfl⟩ := hdone o hmem hid
        exact hold.step hstep (hos _ hmem)
      · -- another block's call, whichever way it ended
        obtain ⟨root, hroot, hnone⟩ := hold
        have hsame := hstep.off (Ne.symm hid)
        exact ⟨root, (hsame root).trans hroot, fun r hr => (hsame r).trans (hnone r hr)⟩

end Shelves

/-- **Migrations do not lose a block.** A block lies in one store. Then come any
calls: on other blocks any, on this one only migrations between stores with
different roots, each with any failures and cut off anywhere. At every moment the
block lies complete in some store, no store holds anything else under its id, and
if none of its migrations failed it lies in exactly one. -/
theorem migration_keeps_block (w₀ w : World) (os : List TierOutcome) (hrun : TierRun w₀ os w)
    (roots : Set Path) (id : PrintedID) (s : LocalStore) (data : Bytes) (hs : s.root ∈ roots)
    (hdata : w₀.fs (s.blockPath id.1) = some data)
    (hnone : ∀ s' : LocalStore, s'.root ≠ s.root → w₀.fs (s'.blockPath id.1) = none)
    (hos : ∀ o ∈ os, Shelves.Migrates roots id o) :
    (∃ s' : LocalStore, s'.root ∈ roots ∧ w.fs (s'.blockPath id.1) = some data) ∧
      (∀ s' : LocalStore, w.fs (s'.blockPath id.1) = none ∨ w.fs (s'.blockPath id.1) = some data) ∧
      ((∀ o ∈ os, o.call.block = id → ∃ c, o = .done c) → ∃ root, ∀ s' : LocalStore,
        w.fs (s'.blockPath id.1) = if s'.root = root then some data else none) := by
  have hempty : ∀ r, r ≠ s.root → shelves w₀ (r, id) = none := fun r hr => hnone ⟨r, tierHot⟩ hr
  have hstart : Shelves.Holds roots id data (shelves w₀) := by
    refine ⟨⟨s.root, hs, hdata⟩, fun r => ?_⟩
    by_cases hr : r = s.root
    · subst hr
      exact Or.inr hdata
    · exact Or.inl (hempty r hr)
  have hend := hrun.shelves.holds hstart hos
  refine ⟨?_, fun s' => hend.only s'.root, fun hdone => ?_⟩
  · obtain ⟨root, hmem, hroot⟩ := hend.here
    exact ⟨⟨root, tierHot⟩, hmem, hroot⟩
  · obtain ⟨root, hroot, hrest⟩ := hrun.shelves.once ⟨s.root, hdata, hempty⟩ hos hdone
    refine ⟨root, fun s' => ?_⟩
    by_cases hr : s'.root = root
    · rw [if_pos hr]
      subst hr
      exact hroot
    · rw [if_neg hr]
      exact hrest s'.root hr

theorem migration_keeps_block_movedTwice : ∃ w, TierRun moveWorld movedTwice w ∧
    ∃ s' : LocalStore, s'.root ∈ ({moveSrc.root, moveDst.root} : Set Path) ∧
      w.fs (s'.blockPath moveID.1) = some [1] := by
  obtain ⟨-, w, -, -, -, hw⟩ := tierRun_movedTwice
  refine ⟨w, hw, (migration_keeps_block _ _ _ hw {moveSrc.root, moveDst.root} moveID moveSrc [1]
    (by simp) moveWorld_hot (fun s' hs' => if_neg ?_) fun o ho _ => ?_).1⟩
  · exact fun he => hs' (List.append_inj' he rfl).1
  · have hcall : o.call = .migrate moveSrc moveDst moveID [] [] := by
      simp only [movedTwice, List.mem_cons, List.not_mem_nil, or_false] at ho
      rcases ho with rfl | rfl
      · rfl
      · rfl
    exact ⟨moveSrc, moveDst, [], [], hcall, by decide, by simp⟩

/-- A migration to a store with the same root deletes the block. -/
theorem migrate_same_root {tempDir : Path} {random : Bytes} (hroot : s.root = dst.root)
    (h : Runs sem (s.migrate dst id.1 (migratePath tempDir random)).run w ws (.ok ()) w') :
    w'.fs (s.blockPath id.1) = none ∧ w'.fs (dst.blockPath id.1) = none := by
  obtain ⟨data, -, hafter⟩ := runs_migrate_shelves (noBlock_migratePath tempDir random) h
  have hs : shelves w' (s.shelf id) = none := by
    rw [hafter, Function.update_self]
  have hshelf : dst.shelf id = s.shelf id := by
    rw [LocalStore.shelf, LocalStore.shelf, hroot]
  have hd : shelves w' (dst.shelf id) = none := by
    rw [hshelf, hs]
  exact ⟨hs, hd⟩

end Bbdb.Tier
