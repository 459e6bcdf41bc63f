import Bbdb.Block.Publish

/-!
# Block — where a Seal can fail

A `Seal` that fails cleans up after itself: it removes the files it has
written so far, as long as the block file is not yet in its tier. Two of the
three paths are those of the block id itself, so what matters is whether the
bloom file has been created when it fails. `createBloom` is everything up to
that operation, `finishSeal` the rest.

Before that, no file but the temporary one changes (`unchanged_of_createBloom`).
After it, if the removals work (`semTidy`), the bloom file is gone or both
files are complete (`files_of_finishSeal`), and both can happen
(`exists_hidden`, `exists_prepared`).
-/

namespace Bbdb.Block

open Bbdb.Meta Bbdb.Tier GoTime
open Prog hiding pure bind

/-! ## Removals that work -/

/-- The machine on which `os.Remove` does what it is asked; everything else
can fail. -/
def semTidy : Prog.Sem machine World := fun (o : Op) w r w' =>
  (r, w') = o.exec w ∨ (o.Deviates w r w' ∧ ∀ p, o ≠ .remove p)

theorem sem_of_semTidy (o : Op) (w : World) (r : o.Res) (w' : World) (h : semTidy o w r w') :
    sem o w r w' :=
  h.imp_right And.left

theorem runs_of_tidy {α : Type} {p : Proc α} {w w' : World} {ws : List World} {a : α}
    (h : Runs semTidy p w ws a w') : Runs sem p w ws a w' :=
  Runs.mono sem_of_semTidy h

theorem runs_tidyExec {α : Type} (p : Proc α) (w : World) :
    Runs semTidy p w (p.trace w) (p.exec w).1 (p.exec w).2 :=
  Prog.runs_exec (fun _ _ => Or.inl rfl) p w

variable {w w' : World} {ws : List World}

/-- The file is gone, whether it was there or not. -/
theorem fs_of_remove {p : Path} {r : Except Err Unit} (h : semTidy (.remove p) w r w') :
    w'.fs = w.fs.put p none := by
  rcases h with h | ⟨-, hne⟩
  · simp only [Op.exec] at h
    split at h
    · rename_i hp
      cases h
      funext q
      by_cases hq : q = p
      · rw [hq, FS.put_self, hp]
      · rw [FS.put_ne _ _ hq]
    · cases h
      rfl
  · exact absurd rfl (hne p)

/-- A clean-up removes its files and nothing else. -/
theorem fs_of_cleanup {cleanup : List Path} {u : Unit}
    (h : Runs semTidy (cleanup.forM fun p => (osRemove p).run *> pure ()) w ws u w') (q : Path) :
    w'.fs q = if q ∈ cleanup then none else w.fs q := by
  induction cleanup generalizing w ws with
  | nil =>
      obtain ⟨-, -, rfl⟩ := h
      simp
  | cons p ps ih =>
      obtain ⟨_, w₁, _, _, -, hone, hrest⟩ := runs_bind.mp h
      obtain ⟨_, w₂, _, _, -, hrm, hpure⟩ := runs_bind.mp hone
      obtain ⟨-, -, rfl⟩ := hpure
      rw [ih hrest, fs_of_remove (runs_call.mp hrm).1]
      by_cases hq : q = p
      · simp [hq]
      · rw [FS.put_ne _ _ hq]
        simp [hq]

/-- After an error that is no panic, the files of the clean-up are gone. -/
theorem removed_of_orElse {α : Type} {f : Go α} {cleanup : List Path} {wrap : Err → Err} {e : Err}
    (hf : ∀ ws e w', Runs sem f.run w ws (.error e) w' → ∀ text, e ≠ .panic text)
    (h : Runs semTidy (orElse f cleanup wrap).run w ws (.error e) w') :
    ∀ p ∈ cleanup, w'.fs p = none := by
  obtain ⟨r, w₁, ws₁, ws₂, rfl, hr, hk⟩ := runs_bind.mp h
  cases r with
  | ok a =>
      obtain ⟨-, he, -⟩ := hk
      cases he
  | error e' =>
      have hnot := hf _ _ _ (runs_of_tidy hr)
      intro p hp
      simp only [errorExit] at hk
      obtain ⟨_, w₂, _, _, -, hclean, hpure⟩ := runs_bind.mp hk
      obtain ⟨-, -, rfl⟩ := hpure
      rw [fs_of_cleanup hclean, if_pos hp]

/-! ## The two parts of Seal -/

section Parts

variable (libs : Libs) (req : SealRequest)

/-- Everything up to the creation of the bloom file. -/
def createBloom : Go ((UInt64 × BlockFooter) × Bytes) := do
  let written ← writeBlockFile libs req
  let bloomData ← orElse
    (ExceptT.mk (pure (serialize libs (buildBloomFromMemtable libs 0 (req.sorted libs)
      req.bloomFPR)))) [req.tmpPath] (.wrap "build bloom")
  orElse (osMkdirAll req.bloomPath.dropLast) [req.tmpPath] id
  orElse (osCreate req.bloomPath) [req.tmpPath] (.wrap "create bloom file")
  pure (written, bloomData)

/-- From there to the last index key. -/
def storeBlock (made : (UInt64 × BlockFooter) × Bytes) : Go BlockMeta := do
  orElse (fileWrite req.bloomPath made.2) [req.bloomPath, req.tmpPath] (.wrap "write bloom")
  orElse (fileSync req.bloomPath) [req.bloomPath, req.tmpPath] (.wrap "fsync bloom")
  orElse (req.store.put req.blockID req.tmpPath) [req.bloomPath, req.tmpPath] (.wrap "store.Put")
  let uniqueHashes := (req.sorted libs).uniqueKeyHashes libs 1
  putIdxChunks req.eventType req.blockID
    (idxChunks req.chunkSize uniqueHashes.length uniqueHashes)
  pure { shardID := req.shard
         openedAt := req.openedAt
         sealedAt := req.sealedAt
         tier := tierHot
         size := made.1.1
         checksum := made.1.2.bodyChecksum }

/-- Everything after the creation of the bloom file. -/
def finishSeal (made : (UInt64 × BlockFooter) × Bytes) : Go BlockID := do
  let bm ← storeBlock libs req made
  sealBatch req.shard req.blockID bm req.expiryHour
  pure req.blockID

theorem prepareBlock_eq :
    prepareBlock libs req = createBloom libs req >>= storeBlock libs req := by
  simp only [prepareBlock, createBloom, storeBlock, writeBloomFile,
    LawfulMonad.bind_assoc, LawfulMonad.pure_bind]

theorem sealBlock_eq : sealBlock libs req = createBloom libs req >>= finishSeal libs req := by
  simp only [sealBlock, prepareBlock_eq, LawfulMonad.bind_assoc]
  rfl

/-- Whether the bloom file has been created when a `Seal` fails. -/
inductive FailPoint
  | beforeBloom
  | afterBloom
  deriving DecidableEq, Repr

/-- A run of `Seal` that fails there, and whose removals work. -/
def FailsAt (w : World) (ws : List World) (e : Err) (w' : World) : FailPoint → Prop
  | .beforeBloom => Runs semTidy (createBloom libs req).run w ws (.error e) w'
  | .afterBloom => ∃ made w₁ ws₁ ws₂, ws = ws₁ ++ ws₂ ∧
      Runs semTidy (createBloom libs req).run w ws₁ (.ok made) w₁ ∧
      Runs semTidy (finishSeal libs req made).run w₁ ws₂ (.error e) w'

/-- **A `Seal` that fails** fails at one of the two points. -/
theorem runs_error_iff {e : Err} : Runs semTidy (sealBlock libs req).run w ws (.error e) w' ↔
    ∃ p, FailsAt libs req w ws e w' p := by
  rw [sealBlock_eq]
  constructor
  · intro h
    rcases runs_bindE.mp h with ⟨e', he, hr⟩ | ⟨made, w₁, ws₁, ws₂, hws, hr, hk⟩
    · cases he
      exact ⟨.beforeBloom, hr⟩
    · exact ⟨.afterBloom, made, w₁, ws₁, ws₂, hws, hr, hk⟩
  · rintro ⟨p, hp⟩
    cases p with
    | beforeBloom => exact runs_bindE.mpr (Or.inl ⟨e, rfl, hp⟩)
    | afterBloom =>
        obtain ⟨made, w₁, ws₁, ws₂, hws, hr, hk⟩ := hp
        exact runs_bindE.mpr (Or.inr ⟨made, w₁, ws₁, ws₂, hws, hr, hk⟩)

/-- `Seal` can get as far as creating the bloom file: the block file can be
written, and the filter can be serialized. -/
def CreatesBloom : Prop :=
  (req.file libs).length < maxBlockFile ∧
    ∃ data, serialize libs (buildBloomFromMemtable libs 0 (req.sorted libs) req.bloomFPR) = .ok data

end Parts

variable {libs : Libs} {req : SealRequest}

/-! ## Before the bloom file is created -/

theorem unchanged_of_orElse {α : Type} {f : Go α} {wrap : Err → Err} {e : Err}
    (hf : ∀ ws e w', Runs sem f.run w ws (.error e) w' → w' = w)
    (h : Runs sem (orElse f [req.tmpPath] wrap).run w ws (.error e) w') :
    w'.db = w.db ∧ ∀ p, p ≠ req.tmpPath → w'.fs p = w.fs p := by
  obtain ⟨r, w₁, ws₁, ws₂, rfl, hr, hk⟩ := runs_bind.mp h
  cases r with
  | ok a =>
      obtain ⟨-, he, -⟩ := hk
      cases he
  | error e' =>
      obtain rfl := hf _ _ _ hr
      obtain ⟨hdb, hfs⟩ := runs_within (within_errorExit e') hk
      exact ⟨hdb, fun p hp => hfs p (by simpa using hp)⟩

/-- **A `Seal` that fails before the bloom file is created** has changed
nothing but its temporary file. -/
theorem unchanged_of_createBloom {e : Err}
    (h : Runs sem (createBloom libs req).run w ws (.error e) w') :
    w'.db = w.db ∧ ∀ p, p ≠ req.tmpPath → w'.fs p = w.fs p := by
  have hfile : ∀ {ws : List World} {r : Except Err (UInt64 × BlockFooter)} {x : World},
      Runs sem (writeBlockFile libs req).run w ws r x →
        x.db = w.db ∧ ∀ p, p ≠ req.tmpPath → x.fs p = w.fs p := by
    intro ws r x hr
    obtain ⟨hdb, hfs⟩ := runs_within ((writesTmp_writeBlockFile libs req).mono fun _ ho =>
      within_of_writesTmp req ho) hr
    exact ⟨hdb, fun p hp => hfs p (by simpa using hp)⟩
  rcases runs_bindE.mp h with ⟨_, -, h1⟩ | ⟨_, w₁, _, _, -, h1, k1⟩
  · exact hfile h1
  obtain ⟨hdb₁, hfs₁⟩ := hfile h1
  have hafter : ∀ {x : World}, (x.db = w₁.db ∧ ∀ p, p ≠ req.tmpPath → x.fs p = w₁.fs p) →
      x.db = w.db ∧ ∀ p, p ≠ req.tmpPath → x.fs p = w.fs p := by
    intro x hx
    exact ⟨hx.1.trans hdb₁, fun p hp => (hx.2 p hp).trans (hfs₁ p hp)⟩
  -- from here on an operation that fails does nothing
  rcases runs_bindE.mp k1 with ⟨_, -, h2⟩ | ⟨data, w₂, _, _, -, h2, k2⟩
  · refine hafter (unchanged_of_orElse (fun _ _ _ hr => ?_) h2)
    obtain ⟨-, -, rfl⟩ := hr
    rfl
  obtain ⟨-, -, rfl⟩ := runs_orElse_ok.mp h2
  rcases runs_bindE.mp k2 with ⟨_, -, h3⟩ | ⟨_, w₃, _, _, -, h3, k3⟩
  · exact hafter (unchanged_of_orElse (fun _ _ _ hr => runs_osMkdirAll_error hr) h3)
  obtain rfl := runs_osMkdirAll_ok (runs_orElse_ok.mp h3)
  rcases runs_bindE.mp k3 with ⟨_, -, h4⟩ | ⟨_, w₄, _, _, -, h4, k4⟩
  · exact hafter (unchanged_of_orElse (fun _ _ _ hr => runs_osCreate_error hr) h4)
  · obtain ⟨-, he, -⟩ := k4
    cases he

/-- What there is when the bloom file has been created. -/
theorem runs_createBloom_ok {made : (UInt64 × BlockFooter) × Bytes}
    (h : Runs sem (createBloom libs req).run w ws (.ok made) w') :
    (req.file libs).length < maxBlockFile ∧
      serialize libs (buildBloomFromMemtable libs 0 (req.sorted libs) req.bloomFPR) = .ok made.2 ∧
      w' = (w.setFile req.tmpPath (some (req.file libs))).setFile req.bloomPath (some []) := by
  obtain ⟨_, w₁, _, _, -, h1, k1⟩ := runs_bindE_ok.mp h
  obtain ⟨hsize, -, rfl⟩ := runs_writeBlockFile_ok libs req h1
  obtain ⟨data, w₂, _, _, -, h2, k2⟩ := runs_bindE_ok.mp k1
  obtain ⟨-, hdata, rfl⟩ := runs_orElse_ok.mp h2
  obtain ⟨_, w₃, _, _, -, h3, k3⟩ := runs_bindE_ok.mp k2
  obtain rfl := runs_osMkdirAll_ok (runs_orElse_ok.mp h3)
  obtain ⟨_, w₄, _, _, -, h4, k4⟩ := runs_bindE_ok.mp k3
  obtain rfl := runs_osCreate_ok (runs_orElse_ok.mp h4)
  obtain ⟨-, hmade, rfl⟩ := k4
  cases hmade
  exact ⟨hsize, hdata.symm, rfl⟩

/-! ## After the bloom file is created -/

theorem noPanic_of_fileWrite {p : Path} {data : Bytes} {e : Err}
    (h : Runs sem (fileWrite p data).run w ws (.error e) w') (text : String) : e ≠ .panic text := by
  rcases (runs_call.mp h).1 with h | ⟨h, -⟩
  · simp only [Op.exec, World.writeFile] at h
    split at h
    · cases h
    · split_ifs at h <;> cases h
      exact Err.noConfusion
  · cases h
    exact Err.noConfusion

theorem noPanic_of_fileSync {p : Path} {e : Err}
    (h : Runs sem (fileSync p).run w ws (.error e) w') (text : String) : e ≠ .panic text := by
  rcases (runs_call.mp h).1 with h | ⟨h, -⟩ <;> cases h
  exact Err.noConfusion

theorem noPanic_of_put {st : LocalStore} {id : BlockID} {src : Path} {e : Err}
    (h : Runs sem (st.put id src).run w ws (.error e) w') (text : String) : e ≠ .panic text := by
  rcases runs_bindE.mp h with ⟨e', he, hdir⟩ | ⟨_, w₁, _, _, -, -, hren⟩
  · cases he
    rcases (runs_call.mp hdir).1 with h | ⟨h, -⟩ <;> cases h
    exact Err.noConfusion
  · rcases (runs_call.mp hren).1 with h | ⟨h, -⟩
    · simp only [Op.exec] at h
      split at h <;> cases h
      exact Err.noConfusion
    · cases h
      exact Err.noConfusion

/-- What `storeBlock` leaves: no bloom file, or both files complete. -/
theorem files_of_storeBlock {made : (UInt64 × BlockFooter) × Bytes} {res : Except Err BlockMeta}
    (hsize : (req.file libs).length < maxBlockFile)
    (hdata : serialize libs (buildBloomFromMemtable libs 0 (req.sorted libs) req.bloomFPR) =
      .ok made.2)
    (htmp : w.fs req.tmpPath = some (req.file libs)) (hbloom : w.fs req.bloomPath = some [])
    (h : Runs semTidy (storeBlock libs req made).run w ws res w') :
    w'.fs req.bloomPath = none ∨ HasBloom libs w' req ∧ HasFile libs w' req := by
  have htmpBloom : req.tmpPath ≠ req.bloomPath := tmpPath_ne_bloomPath _ _ _ _
  have htmpBlock : req.tmpPath ≠ req.blockPath := tmpPath_ne_blockPath _ _ _ _
  have hblockBloom : req.blockPath ≠ req.bloomPath := blockPath_ne_bloomPath _ _ _ _
  have hgone : ∀ {f : Go Unit} {wrap : Err → Err} {e : Err} {x : World} {ws : List World},
      (∀ ws e y, Runs sem f.run x ws (.error e) y → ∀ text, e ≠ .panic text) →
      Runs semTidy (orElse f [req.bloomPath, req.tmpPath] wrap).run x ws (.error e) w' →
        w'.fs req.bloomPath = none :=
    fun hf hr => removed_of_orElse hf hr _ List.mem_cons_self
  rcases runs_bindE.mp h with ⟨_, -, h1⟩ | ⟨_, w₁, _, _, -, h1, k1⟩
  · exact Or.inl (hgone (fun _ _ _ hr => noPanic_of_fileWrite hr) h1)
  obtain ⟨-, rfl⟩ := runs_fileWrite_ok hbloom (runs_orElse_ok.mp (runs_of_tidy h1))
  rcases runs_bindE.mp k1 with ⟨_, -, h2⟩ | ⟨_, w₂, _, _, -, h2, k2⟩
  · exact Or.inl (hgone (fun _ _ _ hr => noPanic_of_fileSync hr) h2)
  obtain rfl := runs_fileSync_ok (runs_orElse_ok.mp (runs_of_tidy h2))
  rcases runs_bindE.mp k2 with ⟨_, -, h3⟩ | ⟨_, w₃, _, _, -, h3, k3⟩
  · exact Or.inl (hgone (fun _ _ _ hr => noPanic_of_put hr) h3)
  -- the block file is in its tier; from here on both files stay as they are
  obtain ⟨_, w₄, _, _, -, hdir, hren⟩ := runs_bindE_ok.mp (runs_orElse_ok.mp (runs_of_tidy h3))
  obtain rfl := runs_osMkdirAll_ok hdir
  obtain ⟨content, hcontent, rfl⟩ := runs_osRename_ok hren
  rw [World.setFile_fs, FS.put_ne _ _ htmpBloom, htmp, Option.some.injEq] at hcontent
  have hfs : w'.fs = (((w.setFile req.bloomPath (some ([] ++ made.2))).setFile req.blockPath
      (some content)).setFile req.tmpPath none).fs := by
    rcases runs_bindE.mp k3 with ⟨_, -, h4⟩ | ⟨_, w₅, _, _, -, h4, k4⟩
    · exact fs_of_putIdxChunks (runs_of_tidy h4)
    · obtain ⟨-, -, rfl⟩ := k4
      exact fs_of_putIdxChunks (runs_of_tidy h4)
  refine Or.inr ⟨⟨made.2, hdata, ?_⟩, ?_, hsize⟩
  · rw [hfs, World.setFile_fs, FS.put_ne _ _ htmpBloom.symm, World.setFile_fs,
      FS.put_ne _ _ hblockBloom.symm]
    exact FS.put_self _ _ _
  · rw [hfs, World.setFile_fs, FS.put_ne _ _ htmpBlock.symm, hcontent]
    exact FS.put_self _ _ _

/-- The world in which the bloom file has just been created. -/
theorem files_of_createBloom {made : (UInt64 × BlockFooter) × Bytes}
    (h : Runs semTidy (createBloom libs req).run w ws (.ok made) w') :
    w'.fs req.tmpPath = some (req.file libs) ∧ w'.fs req.bloomPath = some [] := by
  have hne : req.tmpPath ≠ req.bloomPath := tmpPath_ne_bloomPath _ _ _ _
  obtain ⟨-, -, rfl⟩ := runs_createBloom_ok (runs_of_tidy h)
  constructor
  · rw [World.setFile_fs, FS.put_ne _ _ hne]
    exact FS.put_self _ _ _
  · exact FS.put_self _ _ _

/-- **A `Seal` that fails after the bloom file is created** leaves no bloom
file, or both files complete. -/
theorem files_of_failsAfter {e : Err} (h : FailsAt libs req w ws e w' .afterBloom) :
    w'.fs req.bloomPath = none ∨ HasBloom libs w' req ∧ HasFile libs w' req := by
  obtain ⟨made, w₁, ws₁, ws₂, -, hmade, hrest⟩ := h
  obtain ⟨hsize, hdata, -⟩ := runs_createBloom_ok (runs_of_tidy hmade)
  obtain ⟨htmp, hbloom⟩ := files_of_createBloom hmade
  rcases runs_bindE.mp hrest with ⟨_, -, hs⟩ | ⟨bm, w₂, _, _, -, hs, hk⟩
  · exact files_of_storeBlock hsize hdata htmp hbloom hs
  · -- the final batch failed
    rcases runs_bindE.mp hk with ⟨_, -, hc⟩ | ⟨_, _, _, _, -, -, hpure⟩
    · rw [runs_batchCommit_error (runs_of_tidy hc)]
      exact files_of_storeBlock hsize hdata htmp hbloom hs
    · obtain ⟨-, he, -⟩ := hpure
      cases he

/-- The bloom file was created only if it can be. -/
theorem creates_of_failsAfter {e : Err} (h : FailsAt libs req w ws e w' .afterBloom) :
    CreatesBloom libs req := by
  obtain ⟨made, w₁, ws₁, ws₂, -, hmade, -⟩ := h
  obtain ⟨hsize, hdata, -⟩ := runs_createBloom_ok (runs_of_tidy hmade)
  exact ⟨hsize, made.2, hdata⟩

/-! ## Both happen -/

section Happens

variable (hcreates : CreatesBloom libs req)
  (hfits : ∀ data, serialize libs (buildBloomFromMemtable libs 0 (req.sorted libs) req.bloomFPR) =
    .ok data → data.length < maxFileSize)

include hcreates hfits

/-- A run that gets through to the final batch. -/
theorem exists_prepared (w : World) : ∃ made ws₁ w₁ ws₂ bm w₂,
    Runs semTidy (createBloom libs req).run w ws₁ (.ok made) w₁ ∧
      Runs semTidy (storeBlock libs req made).run w₁ ws₂ (.ok bm) w₂ ∧ Prepared libs req w w₂ := by
  obtain ⟨hsize, data, hdata⟩ := hcreates
  have hrun := runs_tidyExec (prepareBlock libs req).run w
  rw [result_prepareBlock libs req hsize hdata (hfits data hdata)] at hrun
  have hprepared := (runs_prepareBlock_ok libs req (runs_of_tidy hrun)).1
  rw [prepareBlock_eq] at hrun hprepared
  obtain ⟨made, w₁, ws₁, ws₂, -, hmade, hstore⟩ := runs_bindE_ok.mp hrun
  exact ⟨made, ws₁, w₁, ws₂, _, _, hmade, hstore, hprepared⟩

/-- **The bloom file is gone** after a `Seal` that could not write it. -/
theorem exists_hidden (w : World) :
    ∃ ws e w', FailsAt libs req w ws e w' .afterBloom ∧ w'.fs req.bloomPath = none := by
  obtain ⟨made, ws₁, w₁, -, -, -, hmade, -, -⟩ := exists_prepared hcreates hfits w
  let exit : Proc (Except Err Unit) :=
    errorExit [req.bloomPath, req.tmpPath] (.wrap "write bloom") .io
  have hwrite : Runs semTidy (fileWrite req.bloomPath made.2).run w₁ [w₁] (.error .io) w₁ := by
    refine runs_call.mpr ⟨Or.inr ⟨⟨rfl, Or.inl rfl⟩, fun p hp => ?_⟩, rfl⟩
    cases hp
  have horElse : Runs semTidy (orElse (fileWrite req.bloomPath made.2)
      [req.bloomPath, req.tmpPath] (.wrap "write bloom")).run w₁ ([w₁] ++ exit.trace w₁)
      (.error (.wrap "write bloom" .io)) (exit.exec w₁).2 := by
    refine runs_bind.mpr ⟨.error .io, w₁, [w₁], exit.trace w₁, rfl, hwrite, ?_⟩
    exact runs_tidyExec exit w₁
  have hstore : Runs semTidy (storeBlock libs req made).run w₁ ([w₁] ++ exit.trace w₁)
      (.error (.wrap "write bloom" .io)) (exit.exec w₁).2 :=
    runs_bindE.mpr (Or.inl ⟨_, rfl, horElse⟩)
  have hfails : Runs semTidy (finishSeal libs req made).run w₁ ([w₁] ++ exit.trace w₁)
      (.error (.wrap "write bloom" .io)) (exit.exec w₁).2 :=
    runs_bindE.mpr (Or.inl ⟨_, rfl, hstore⟩)
  refine ⟨_, _, _, ⟨made, w₁, ws₁, _, rfl, hmade, hfails⟩, ?_⟩
  exact removed_of_orElse (fun _ _ _ hr => noPanic_of_fileWrite hr) horElse _ List.mem_cons_self

/-- **All is there but the metadata** after a `Seal` whose final batch failed. -/
theorem exists_uncommitted (w : World) :
    ∃ ws e w', FailsAt libs req w ws e w' .afterBloom ∧ Prepared libs req w w' := by
  obtain ⟨made, ws₁, w₁, ws₂, bm, w₂, hmade, hstore, hprepared⟩ := exists_prepared hcreates hfits w
  have hcommit : Runs semTidy (sealBatch req.shard req.blockID bm req.expiryHour).run w₂ [w₂]
      (.error .io) w₂ := by
    refine runs_call.mpr ⟨Or.inr ⟨⟨rfl, rfl⟩, fun p hp => ?_⟩, rfl⟩
    cases hp
  refine ⟨_, .io, w₂, ⟨made, w₁, ws₁, ws₂ ++ [w₂], rfl, hmade, ?_⟩, hprepared⟩
  refine runs_bindE.mpr (Or.inr ⟨bm, w₂, ws₂, [w₂], rfl, hstore, ?_⟩)
  exact runs_bindE.mpr (Or.inl ⟨.io, rfl, hcommit⟩)

end Happens

end Bbdb.Block
