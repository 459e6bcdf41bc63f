import Bbdb.Block.Sealer

/-!
# Block — what a Seal makes visible

A reader meets a block in four places: index keys, bloom file, metadata and
block file. `Present` says that all four are complete. A successful `Seal`
ends with its block present (`present_of_prepared`), and whatever `Seal` does,
nothing a reader sees of other blocks changes (`Beside`).
-/

namespace Bbdb.Block

open Bbdb.Meta Bbdb.Tier GoTime
open Prog hiding pure bind

/-! ## The state of a block -/

section Blocks

variable (libs : Libs) (w : World) (r : SealRequest)

/-- The bloom file is complete. -/
def HasBloom : Prop :=
  ∃ data, serialize libs (buildBloomFromMemtable libs 0 (r.sorted libs) r.bloomFPR) = .ok data ∧
    w.fs r.bloomPath = some data

/-- The block file is complete. -/
def HasFile : Prop :=
  w.fs r.blockPath = some (r.file libs) ∧ (r.file libs).length < maxBlockFile

def HasMeta : Prop :=
  w.db.view.get (blockKey r.blockID) = some (encodeBlockMeta (r.blockMeta libs))

/-- Some index key names the block. -/
def Named : Prop := ∃ et kh, (w.db.view.get (idxKey et kh r.blockID)).isSome

/-- Every hash of the block has its index key. -/
def Indexed : Prop :=
  ∀ e ∈ r.memtable.rows, (w.db.view.get (idxKey r.eventType e.keyHash r.blockID)).isSome

/-- Some row of the block has the hash. -/
def HasHash (kh : UInt64) : Prop := ∃ e ∈ r.memtable.rows, e.keyHash = kh

/-- Everything a reader needs of the block. -/
structure Present : Prop where
  bloom : HasBloom libs w r
  file : HasFile libs w r
  blk : HasMeta libs w r
  indexed : Indexed w r

end Blocks

theorem HasBloom.of_file {libs : Libs} {r : SealRequest} {w w' : World} (h : HasBloom libs w r)
    (he : w'.fs r.bloomPath = w.fs r.bloomPath) : HasBloom libs w' r := by
  obtain ⟨data, hser, hdata⟩ := h
  exact ⟨data, hser, he.trans hdata⟩

theorem HasFile.of_file {libs : Libs} {r : SealRequest} {w w' : World} (h : HasFile libs w r)
    (he : w'.fs r.blockPath = w.fs r.blockPath) : HasFile libs w' r :=
  ⟨he.trans h.1, h.2⟩

/-! ## Other blocks -/

/-- What a reader sees of blocks other than `id` is the same. -/
structure Beside (id : BlockID) (w w' : World) : Prop where
  block : ∀ (s : LocalStore) id', id' ≠ id → w'.fs (s.blockPath id') = w.fs (s.blockPath id')
  bloom : ∀ (s : LocalStore) id', id' ≠ id → w'.fs (s.bloomPath id') = w.fs (s.bloomPath id')
  blk : ∀ id', id' ≠ id → w'.db.view.get (blockKey id') = w.db.view.get (blockKey id')
  idx : ∀ et kh id', id' ≠ id →
    w'.db.view.get (idxKey et kh id') = w.db.view.get (idxKey et kh id')

theorem Beside.refl (id : BlockID) (w : World) : Beside id w w :=
  ⟨fun _ _ _ => rfl, fun _ _ _ => rfl, fun _ _ => rfl, fun _ _ _ _ => rfl⟩

theorem Beside.trans {id : BlockID} {a b c : World} (h₁ : Beside id a b) (h₂ : Beside id b c) :
    Beside id a c where
  block s id' h := (h₂.block s id' h).trans (h₁.block s id' h)
  bloom s id' h := (h₂.bloom s id' h).trans (h₁.bloom s id' h)
  blk id' h := (h₂.blk id' h).trans (h₁.blk id' h)
  idx et kh id' h := (h₂.idx et kh id' h).trans (h₁.idx et kh id' h)

theorem Beside.symm {id : BlockID} {a b : World} (h : Beside id a b) : Beside id b a where
  block s id' hne := (h.block s id' hne).symm
  bloom s id' hne := (h.bloom s id' hne).symm
  blk id' hne := (h.blk id' hne).symm
  idx et kh id' hne := (h.idx et kh id' hne).symm

variable {libs : Libs} {req : SealRequest} {w w' : World} {ws : List World}

theorem Beside.present {id : BlockID} {r : SealRequest} (h : Beside id w w')
    (hr : r.blockID ≠ id) (hp : Present libs w r) : Present libs w' r := by
  obtain ⟨⟨data, hser, hdata⟩, ⟨hfile, hsize⟩, hblk, hidx⟩ := hp
  refine ⟨⟨data, hser, ?_⟩, ⟨?_, hsize⟩, ?_, fun e he => ?_⟩
  · rw [SealRequest.bloomPath, h.bloom _ _ hr]
    exact hdata
  · rw [SealRequest.blockPath, h.block _ _ hr]
    exact hfile
  · rw [HasMeta, h.blk _ hr]
    exact hblk
  · rw [h.idx _ _ _ hr]
    exact hidx e he

theorem isBlockID_blockID (req : SealRequest) : IsBlockID req.blockID :=
  ⟨req.shard, req.openedAt, rfl⟩

/-- The files of other blocks are none of those that `Seal` writes. -/
theorem beside_files
    (h : ∀ p, p ≠ req.tmpPath → p ≠ req.bloomPath → p ≠ req.blockPath → w'.fs p = w.fs p)
    (s : LocalStore) {id : BlockID} (hid : id ≠ req.blockID) :
    w'.fs (s.blockPath id) = w.fs (s.blockPath id) ∧
      w'.fs (s.bloomPath id) = w.fs (s.bloomPath id) := by
  constructor
  · refine h _ (tmpPath_ne_blockPath _ _ _ _).symm (blockPath_ne_bloomPath _ _ _ _) ?_
    intro he
    exact hid (blockPath_inj (isBlockID_blockID req) he.symm).symm
  · refine h _ (tmpPath_ne_bloomPath _ _ _ _).symm ?_ (blockPath_ne_bloomPath _ _ _ _).symm
    intro he
    exact hid (bloomPath_inj (isBlockID_blockID req) he.symm).symm

/-- Before the commit, only index keys of the block change. -/
theorem get_of_prepStep (h : PrepStep req w w') {k : Bytes}
    (hk : ∀ x, k ≠ idxKey req.eventType x req.blockID) :
    w'.db.view.get k = w.db.view.get k := by
  rcases h.db with hdb | ⟨hs, hdb⟩
  · rw [hdb]
  · rw [hdb, Pebble.view_commit, get_idxOps, if_neg]
    intro hx
    obtain ⟨x, -, he⟩ := hx
    exact hk x he

theorem get_of_chain (h : List.IsChain (PrepStep req) (w :: ws))
    (hlast : (w :: ws).getLast? = some w') {k : Bytes}
    (hk : ∀ x, k ≠ idxKey req.eventType x req.blockID) :
    w'.db.view.get k = w.db.view.get k := by
  let Same : World → World → Prop := fun x y => y.db.view.get k = x.db.view.get k
  have hc : List.IsChain Same (w :: ws) := h.imp fun _ _ hs => get_of_prepStep hs hk
  have htrans : ∀ {a b c}, Same a b → Same b c → Same a c := fun h₁ h₂ => Eq.trans h₂ h₁
  exact Prog.chain_forall (G := Same) (fun _ => rfl) htrans hc w' (List.mem_of_getLast? hlast)

theorem beside_of_prepStep (h : PrepStep req w w') : Beside req.blockID w w' where
  block s _ hid := (beside_files h.files s hid).1
  bloom s _ hid := (beside_files h.files s hid).2
  blk _ _ := get_of_prepStep h fun _ he => idxKey_ne_blockKey he.symm
  idx _ _ _ hid := get_of_prepStep h fun _ he => hid (idxKey_inj.mp he).2.2

theorem beside_of_commit (w : World) (req : SealRequest) (bm : BlockMeta) (hour : UInt64) :
    Beside req.blockID w (w.commit (sealOps req.shard req.blockID bm hour) true) := by
  refine ⟨fun _ _ _ => rfl, fun _ _ _ => rfl, fun id hid => ?_, fun et kh id _ => ?_⟩
  · rw [World.commit_db, Pebble.view_commit, get_sealOps_blockKey, if_neg hid]
  · rw [World.commit_db, Pebble.view_commit, get_sealOps_idxKey]

theorem beside_of_chain (h : List.IsChain (PrepStep req) (w :: ws))
    (hlast : (w :: ws).getLast? = some w') : Beside req.blockID w w' := by
  have hc := h.imp fun _ _ => beside_of_prepStep
  have hall := Prog.chain_forall (Beside.refl _) Beside.trans hc
  exact hall _ (List.mem_of_getLast? hlast)

/-- **A run of `Seal` changes nothing about other blocks**, whatever its
outcome. -/
theorem beside_of_runs {r : Except Err BlockID} (h : Runs sem (sealBlock libs req).run w ws r w') :
    Beside req.blockID w w' := by
  rcases runs_sealBlock libs req h with ⟨-, hc⟩ | ⟨-, ws₁, w₁, -, hlast, hc, -, rfl⟩
  · exact beside_of_chain hc h.getLast
  · exact (beside_of_chain hc hlast).trans (beside_of_commit ..)

/-! ## The new block -/

/-- The final batch over a prepared world makes the block present. -/
theorem present_of_prepared {w₁ : World} (hp : Prepared libs req w w₁) :
    Present libs
      (w₁.commit (sealOps req.shard req.blockID (req.blockMeta libs) req.expiryHour) true) req := by
  refine ⟨hp.bloom, ⟨hp.block, hp.size⟩, ?_, fun e he => ?_⟩
  · rw [HasMeta, World.commit_db, Pebble.view_commit, get_sealOps_blockKey, if_pos rfl]
  · have hmem : e.keyHash ∈ (req.sorted libs).uniqueKeyHashes libs 1 := by
      refine (Memtable.mem_uniqueKeyHashes libs).mpr ⟨e, ?_, rfl⟩
      exact (req.memtable.perm_rows_sort libs).mem_iff.mpr he
    rw [World.commit_db, Pebble.view_commit, get_sealOps_idxKey, hp.view,
      if_pos ⟨e.keyHash, hmem, rfl⟩]
    rfl

/-- **A successful `Seal` leaves its block present.** -/
theorem present_of_runs {id : BlockID}
    (h : Runs sem (sealBlock libs req).run w ws (.ok id) w') : Present libs w' req := by
  rcases runs_sealBlock libs req h with ⟨⟨e, he⟩, -⟩ | ⟨-, ws₁, w₁, -, -, -, hp, rfl⟩
  · cases he
  · exact present_of_prepared hp

/-- The index keys that a `Seal` adds have its event type. -/
theorem idx_of_runs {r : Except Err BlockID} (h : Runs sem (sealBlock libs req).run w ws r w')
    {et : UInt8} {kh : UInt64} (het : et ≠ req.eventType) :
    w'.db.view.get (idxKey et kh req.blockID) = w.db.view.get (idxKey et kh req.blockID) := by
  have hk : ∀ x, idxKey et kh req.blockID ≠ idxKey req.eventType x req.blockID :=
    fun x he => het (idxKey_inj.mp he).1
  rcases runs_sealBlock libs req h with ⟨-, hc⟩ | ⟨-, ws₁, w₁, -, hlast, hc, -, rfl⟩
  · exact get_of_chain hc h.getLast hk
  · rw [World.commit_db, Pebble.view_commit, get_sealOps_idxKey]
    exact get_of_chain hc hlast hk

/-! ## A Seal that fails -/

theorem db_of_commitsNothing {α : Type} {p : Proc α} {a : α}
    (hp : Calls (S := machine) CommitsNothing p) (h : Runs sem p w ws a w') : w'.db = w.db := by
  have hop : ∀ (o : Op) (x : World) (r : o.Res) (y : World), CommitsNothing o → sem o x r y →
      y.db = x.db := by
    intro o x r y ho hs
    rcases (sem_effect hs).db with hdb | ⟨b, sync, rfl, -⟩
    · exact hdb
    · exact ho.elim
  let Same : World → World → Prop := fun x y => y.db = x.db
  have htrans : ∀ {a b c}, Same a b → Same b c → Same a c := fun h₁ h₂ => Eq.trans h₂ h₁
  exact hp.runs (G := Same) (fun _ => rfl) htrans hop h

theorem db_of_writesFiles {α : Type} {p : Proc α} {a : α}
    (hp : Calls (S := machine) (WritesFiles req) p) (h : Runs sem p w ws a w') : w'.db = w.db :=
  db_of_commitsNothing (hp.mono fun _ h => (prepares_of_writesFiles req h).2) h

/-- Adding index keys leaves the files alone. -/
theorem fs_of_putIdxChunks {et : UInt8} {id : BlockID} {cs : List (List UInt64)}
    {r : Except Err Unit} (h : Runs sem (putIdxChunks et id cs).run w ws r w') : w'.fs = w.fs := by
  induction cs generalizing w ws with
  | nil =>
      obtain ⟨-, -, rfl⟩ := h
      rfl
  | cons c cs ih =>
      have hfirst : ∀ {ws : List World} {r : Except Err Unit} {x : World},
          Runs sem (orElse (putIdxBatch et c id) [] (.wrap "put idx batch")).run w ws r x →
            x.fs = w.fs := by
        intro ws r x hr
        obtain ⟨res, y, _, _, -, hc, hk⟩ := runs_bind.mp hr
        have hfs : y.fs = w.fs := by
          funext p
          exact (sem_effect (runs_call.mp hc).1).files p fun ht => ht
        cases res with
        | ok u =>
            obtain ⟨-, -, rfl⟩ := hk
            exact hfs
        | error e =>
            funext p
            rw [(runs_within (within_errorExit e) hk).2 p List.not_mem_nil, hfs]
      rcases runs_bindE.mp h with ⟨e, rfl, hr⟩ | ⟨_, w₁, ws₁, ws₂, rfl, hr, hk⟩
      · exact hfirst hr
      · exact (ih hk).trans (hfirst hr)

/-- The rename into the tier leaves the bloom file alone. -/
theorem bloom_of_put {u u' : Unit} {w₂ w₃ : World} {ws' : List World}
    (hbloom : Runs sem (writeBloomFile libs req).run w ws (.ok u) w₂)
    (hput : Runs sem (orElse (req.store.put req.blockID req.tmpPath) [req.bloomPath, req.tmpPath]
      (.wrap "store.Put")).run w₂ ws' (.ok u') w₃) : HasBloom libs w₃ req := by
  have hbloomBlock : req.bloomPath ≠ req.blockPath := (blockPath_ne_bloomPath _ _ _ _).symm
  have htmpBloom : req.bloomPath ≠ req.tmpPath := (tmpPath_ne_bloomPath _ _ _ _).symm
  obtain ⟨data, hdata, -, -, hfile, -⟩ := runs_writeBloomFile_ok libs req hbloom
  obtain ⟨_, w₄, _, _, -, hdir, hren⟩ := runs_bindE_ok.mp (runs_orElse_ok.mp hput)
  obtain rfl := runs_osMkdirAll_ok hdir
  obtain ⟨content, -, rfl⟩ := runs_osRename_ok hren
  refine ⟨data, hdata, ?_⟩
  rw [World.setFile_fs, FS.put_ne _ _ htmpBloom]
  exact (FS.put_ne _ _ hbloomBlock).trans hfile

/-- **A `Seal` that fails** has added index keys only if its bloom file is
complete. -/
theorem bloom_of_runs_error {e : Err} (h : Runs sem (sealBlock libs req).run w ws (.error e) w') :
    w'.db = w.db ∨ HasBloom libs w' req := by
  have hprep : ∀ {ws : List World} {r : Except Err BlockMeta} {x : World},
      Runs sem (prepareBlock libs req).run w ws r x → x.db = w.db ∨ HasBloom libs x req := by
    intro ws r x hr
    rcases runs_bindE.mp hr with ⟨e, rfl, h1⟩ | ⟨p, w₁, _, _, -, h1, k1⟩
    · exact Or.inl (db_of_writesFiles (writesFiles_writeBlockFile libs req) h1)
    have hdb₁ := db_of_writesFiles (writesFiles_writeBlockFile libs req) h1
    rcases runs_bindE.mp k1 with ⟨e, rfl, h2⟩ | ⟨_, w₂, _, _, -, h2, k2⟩
    · exact Or.inl ((db_of_writesFiles (writesFiles_writeBloomFile libs req) h2).trans hdb₁)
    rcases runs_bindE.mp k2 with ⟨e, rfl, h3⟩ | ⟨_, w₃, _, _, -, h3, k3⟩
    · have hdb₂ := db_of_writesFiles (writesFiles_writeBloomFile libs req) h2
      exact Or.inl ((db_of_writesFiles (writesFiles_put req) h3).trans (hdb₂.trans hdb₁))
    -- from here on the bloom file is complete
    have hkeep : ∀ {y : World}, y.fs = w₃.fs → HasBloom libs y req := by
      intro y hy
      obtain ⟨data, hdata, hfile⟩ := bloom_of_put h2 h3
      exact ⟨data, hdata, by rw [hy, hfile]⟩
    rcases runs_bindE.mp k3 with ⟨e, rfl, h5⟩ | ⟨_, w₅, _, _, -, h5, k5⟩
    · exact Or.inr (hkeep (fs_of_putIdxChunks h5))
    · obtain ⟨-, -, rfl⟩ := k5
      exact Or.inr (hkeep (fs_of_putIdxChunks h5))
  rcases runs_bindE.mp h with ⟨e', he, hr⟩ | ⟨bm, w₁, _, _, -, hr, hk⟩
  · exact hprep hr
  rcases runs_bindE.mp hk with ⟨e', he, hc⟩ | ⟨_, _, _, _, -, -, hpure⟩
  · rw [runs_batchCommit_error hc]
    exact hprep hr
  · obtain ⟨-, he, -⟩ := hpure
    cases he

/-! ## The block file -/

/-- A `Seal` changes no file but its three. -/
theorem files_of_runs {r : Except Err BlockID} (h : Runs sem (sealBlock libs req).run w ws r w')
    {p : Path} (htmp : p ≠ req.tmpPath) (hbloom : p ≠ req.bloomPath) (hblock : p ≠ req.blockPath) :
    w'.fs p = w.fs p := by
  let Same : World → World → Prop := fun x y => y.fs p = x.fs p
  have htrans : ∀ {a b c}, Same a b → Same b c → Same a c := fun h₁ h₂ => Eq.trans h₂ h₁
  have hchain : ∀ {ws : List World} {x : World}, List.IsChain (PrepStep req) (w :: ws) →
      (w :: ws).getLast? = some x → x.fs p = w.fs p := by
    intro ws x hc hlast
    have hsame : List.IsChain Same (w :: ws) :=
      hc.imp fun _ _ hs => hs.files p htmp hbloom hblock
    exact Prog.chain_forall (G := Same) (fun _ => rfl) htrans hsame x (List.mem_of_getLast? hlast)
  rcases runs_sealBlock libs req h with ⟨-, hc⟩ | ⟨-, ws₁, w₁, -, hlast, hc, -, rfl⟩
  · exact hchain hc h.getLast
  · have hlast' : w₁.fs p = w.fs p := hchain hc hlast
    exact hlast'

/-- The rename into the tier makes the temporary file the block file, or does
nothing to it. -/
theorem blockFile_of_put {r : Except Err Unit}
    (h : Runs sem (orElse (req.store.put req.blockID req.tmpPath) [req.bloomPath, req.tmpPath]
      (.wrap "store.Put")).run w ws r w') :
    w'.fs req.blockPath = w.fs req.blockPath ∨ w'.fs req.blockPath = w.fs req.tmpPath := by
  have htmp : req.blockPath ≠ req.tmpPath := (tmpPath_ne_blockPath _ _ _ _).symm
  have hbloom : req.blockPath ≠ req.bloomPath := blockPath_ne_bloomPath _ _ _ _
  cases r with
  | ok u =>
      obtain ⟨_, w₁, _, _, -, hdir, hren⟩ := runs_bindE_ok.mp (runs_orElse_ok.mp h)
      obtain rfl := runs_osMkdirAll_ok hdir
      obtain ⟨content, hcontent, rfl⟩ := runs_osRename_ok hren
      right
      rw [World.setFile_fs, FS.put_ne _ _ htmp, hcontent]
      exact FS.put_self _ _ _
  | error e =>
      left
      obtain ⟨e', w₁, ws₁, hput, hfs⟩ := runs_orElse_error h
      rw [hfs _ (by simp [htmp, hbloom])]
      have hdirs : ∀ {r : Except Err Unit} {ws : List World} {x : World},
          Runs sem (osMkdirAll (req.store.blockPath req.blockID).dropLast).run w ws r x →
            x.fs = w.fs := by
        intro r ws x hr
        funext p
        exact (sem_effect (runs_call.mp hr).1).files p fun ht => ht
      rcases runs_bindE.mp hput with ⟨_, -, hdir⟩ | ⟨_, w₂, _, _, -, hdir, hren⟩
      · rw [hdirs hdir]
      · rw [runs_osRename_error hren, hdirs hdir]

/-- The block file after `prepareBlock`. -/
theorem blockFile_of_prepareBlock {r : Except Err BlockMeta}
    (h : Runs sem (prepareBlock libs req).run w ws r w') :
    w'.fs req.blockPath = w.fs req.blockPath ∨
      w'.fs req.blockPath = some (req.file libs) ∧ (req.file libs).length < maxBlockFile := by
  have hout : req.blockPath ∉ [req.tmpPath, req.bloomPath] := by
    have htmp : req.blockPath ≠ req.tmpPath := (tmpPath_ne_blockPath _ _ _ _).symm
    have hbloom : req.blockPath ≠ req.bloomPath := blockPath_ne_bloomPath _ _ _ _
    simp [htmp, hbloom]
  have hparts : ∀ {α : Type} {p : Proc α} {a : α} {x y : World} {ws : List World},
      Calls (S := machine) (WritesParts req) p → Runs sem p x ws a y →
        y.fs req.blockPath = x.fs req.blockPath := by
    intro α p a x y ws hp hr
    exact (runs_within (hp.mono fun _ ho => within_of_writesParts req ho) hr).2 _ hout
  rcases runs_bindE.mp h with ⟨e, rfl, h1⟩ | ⟨p, w₁, _, _, -, h1, k1⟩
  · exact Or.inl (hparts (writesParts_writeBlockFile libs req) h1)
  have hsame₁ := hparts (writesParts_writeBlockFile libs req) h1
  rcases runs_bindE.mp k1 with ⟨e, rfl, h2⟩ | ⟨_, w₂, _, _, -, h2, k2⟩
  · exact Or.inl ((hparts (writesParts_writeBloomFile libs req) h2).trans hsame₁)
  have hsame₂ := (hparts (writesParts_writeBloomFile libs req) h2).trans hsame₁
  -- from here on the temporary file is complete
  obtain ⟨hsize, -, rfl⟩ := runs_writeBlockFile_ok libs req h1
  obtain ⟨data, -, -, -, -, hfs₂⟩ := runs_writeBloomFile_ok libs req h2
  have htmp : w₂.fs req.tmpPath = some (req.file libs) := by
    have hne : req.tmpPath ≠ req.bloomPath := tmpPath_ne_bloomPath _ _ _ _
    rw [hfs₂ _ hne, World.setFile_fs, FS.put_self]
  have hput : ∀ {ws : List World} {r : Except Err Unit} {y : World},
      Runs sem (orElse (req.store.put req.blockID req.tmpPath) [req.bloomPath, req.tmpPath]
        (.wrap "store.Put")).run w₂ ws r y →
      y.fs req.blockPath = w.fs req.blockPath ∨
        y.fs req.blockPath = some (req.file libs) ∧ (req.file libs).length < maxBlockFile := by
    intro ws r y hr
    rcases blockFile_of_put hr with hold | hnew
    · exact Or.inl (hold.trans hsame₂)
    · exact Or.inr ⟨hnew.trans htmp, hsize⟩
  rcases runs_bindE.mp k2 with ⟨e, rfl, h3⟩ | ⟨_, w₃, _, _, -, h3, k3⟩
  · exact hput h3
  rcases runs_bindE.mp k3 with ⟨e, rfl, h5⟩ | ⟨_, w₅, _, _, -, h5, k5⟩
  · rw [fs_of_putIdxChunks h5]
    exact hput h3
  · obtain ⟨-, -, rfl⟩ := k5
    rw [fs_of_putIdxChunks h5]
    exact hput h3

/-- **The block file after a `Seal`**, whether it succeeded or not, is the one
from before or the complete new one. -/
theorem blockFile_of_runs {r : Except Err BlockID}
    (h : Runs sem (sealBlock libs req).run w ws r w') :
    w'.fs req.blockPath = w.fs req.blockPath ∨
      w'.fs req.blockPath = some (req.file libs) ∧ (req.file libs).length < maxBlockFile := by
  rcases runs_bindE.mp h with ⟨e', he, hr⟩ | ⟨bm, w₁, _, _, -, hr, hk⟩
  · exact blockFile_of_prepareBlock hr
  have hcommit : ∀ {ws : List World} {r : Except Err Unit} {x : World},
      Runs sem (sealBatch req.shard req.blockID bm req.expiryHour).run w₁ ws r x →
        x.fs = w₁.fs := by
    intro ws r x hr
    funext p
    exact (sem_effect (runs_call.mp hr).1).files p fun ht => ht
  rcases runs_bindE.mp hk with ⟨e', he, hc⟩ | ⟨_, w₂, _, _, -, hc, hpure⟩
  · rw [hcommit hc]
    exact blockFile_of_prepareBlock hr
  · obtain ⟨-, -, rfl⟩ := hpure
    rw [hcommit hc]
    exact blockFile_of_prepareBlock hr

end Bbdb.Block
