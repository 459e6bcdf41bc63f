import Bbdb.Block.CrashSafety
import Bbdb.Block.Publish
import Bbdb.Lib.Conc
import Bbdb.Ttl.Janitor

/-!
# TTL — live blocks

Any number of seals, reaper cycles and janitor sweeps run side by side, each
with scans that may be old, and the process may crash at any step
(`ttlStep`). A block that has been committed with an expiry hour stays
complete as long as the hour of the clock is before it
(`live_block_untouched`).

The argument looks back from a moment before that hour. Until then, no scan
has found the expiry key of the block (`follows_sweep`), seals of other
blocks have other files and keys (`follows_other`), and the block's own
`Seal` is done once its batch is committed (`follows_own`). Each of these is
a guarantee to the others; `Pool.Follow.reach` puts them together.
-/

namespace Bbdb.Ttl

open Bbdb.Meta Bbdb.Block Bbdb.Tier GoTime
open Prog hiding pure bind

/-! ## The system -/

/-- What can be started. -/
inductive Job where
  | sealBlock (r : SealRequest)
  | reap (cfg : ReaperConfig)
  | clean (cfg : JanitorConfig)

/-- The program of a job. -/
def Job.text (libs : Libs) : Job → Proc Unit
  | .sealBlock r => (Block.sealBlock libs r).run.void
  | .reap cfg => (runOnce cfg).run.void
  | .clean cfg => (janitorRunOnce cfg).run.void

/-- Time goes on. -/
def Tick (w w' : World) : Prop := ∃ t, w.clock ≤ t ∧ w' = readClock w t

/-- Everything that is there of a committed block. -/
structure Complete (libs : Libs) (r : SealRequest) (w : World) : Prop where
  file : HasFile libs w r
  bloom : HasBloom libs w r
  blk : HasMeta libs w r
  exp : (w.db.view.get (expiryKey r.expiryHour r.blockID)).isSome

/-- The hour of the clock is before the expiry hour of the block. -/
def Live (r : SealRequest) (w : World) : Prop := w.clock / hour < r.expiryHour.toNat

variable {libs : Libs} {r : SealRequest} {x y : World}

theorem Live.of_le (h : Live r y) (hle : x.clock ≤ y.clock) : Live r x :=
  lt_of_le_of_lt (Int.ediv_le_ediv (by decide) hle) h

/-! ## What the jobs guarantee about one block -/

/-- The files of the block, and the one it is written to. -/
def files (r : SealRequest) : List Path := [r.tmpPath, r.bloomPath, r.blockPath]

/-- What holds all the time: only index keys are unsynced, and the block has
no expiry key but its own. -/
structure BlockBase (r : SealRequest) (w : World) : Prop where
  pending : PendingIdx w.db
  clock : 0 ≤ w.clock
  exp : ∀ h, (w.db.view.get (expiryKey h r.blockID)).isSome → h = r.expiryHour

structure Common (r : SealRequest) (x y : World) : Prop where
  clock : x.clock ≤ y.clock
  base : BlockBase r x → BlockBase r y

/-- Files and keys of the block are as they were. -/
structure Untouched (r : SealRequest) (x y : World) : Prop where
  files : ∀ p ∈ files r, y.fs p = x.fs p
  blk : y.db.view.get (blockKey r.blockID) = x.db.view.get (blockKey r.blockID)
  exp : ∀ h, y.db.view.get (expiryKey h r.blockID) = x.db.view.get (expiryKey h r.blockID)

/-- What the other jobs guarantee. -/
structure Keep (r : SealRequest) (x y : World) : Prop extends Common r x y, Untouched r x y

/-- What the `Seal` of the block guarantees: it works before the commit, and
the commit finds everything in place. -/
structure Own (libs : Libs) (r : SealRequest) (x y : World) : Prop extends Common r x y where
  before : x.db.view.get (blockKey r.blockID) = none
  after : (y.db.view.get (blockKey r.blockID)).isSome → Complete libs r y

theorem rely_common (r : SealRequest) : Rely (Common r) where
  refl _ := ⟨le_refl _, fun h => h⟩
  trans h₁ h₂ := ⟨h₁.clock.trans h₂.clock, fun h => h₂.base (h₁.base h)⟩

theorem rely_keep (r : SealRequest) : Rely (Keep r) where
  refl x := ⟨(rely_common r).refl x, fun _ _ => rfl, rfl, fun _ => rfl⟩
  trans h₁ h₂ := ⟨(rely_common r).trans h₁.toCommon h₂.toCommon,
    fun p hp => (h₂.files p hp).trans (h₁.files p hp), h₂.blk.trans h₁.blk,
    fun h => (h₂.exp h).trans (h₁.exp h)⟩

/-- A step that leaves the keys of the block alone. -/
theorem BlockBase.of_untouched (h : BlockBase r x) (hle : x.clock ≤ y.clock) (hp : PendingIdx y.db)
    (hexp : ∀ h, y.db.view.get (expiryKey h r.blockID) = x.db.view.get (expiryKey h r.blockID)) :
    BlockBase r y :=
  ⟨hp, h.clock.trans hle, fun n hn => h.exp n (by rwa [hexp] at hn)⟩

theorem Complete.of_untouched (h : Complete libs r x) (hu : Untouched r x y) :
    Complete libs r y := by
  obtain ⟨⟨hfile, hsize⟩, ⟨data, hser, hdata⟩, hblk, hexp⟩ := h
  refine ⟨⟨?_, hsize⟩, ⟨data, hser, ?_⟩, hu.blk.trans hblk, by rwa [hu.exp]⟩
  · rw [hu.files _ (by simp [files]), hfile]
  · rw [hu.files _ (by simp [files]), hdata]

/-! ## Sweeps -/

/-- An entry of the block is found only when its hour has come. -/
def Harmless (r : SealRequest) (t : Time) (e : ExpiredEntry) : Prop :=
  e.id = r.blockID → (r.expiryHour.toNat : Int) ≤ t / hour

theorem harmless_of_expired {t : Time} (hb : BlockBase r x) (ht : 0 ≤ t) {e : ExpiredEntry}
    (he : Expired x.db.view t e) : Harmless r t e := by
  intro hid
  obtain ⟨hkey, hlt⟩ := he
  rw [hid] at hkey
  rw [hb.exp _ hkey] at hlt
  have hle := toNat_unixHour_le ht
  have hnat := UInt64.le_iff_toNat_le.mp (le_unixHour hlt)
  omega

/-- Before the expiry hour, a sweep leaves the block alone. -/
theorem keep_of_reapStep {cfg : ReaperConfig} {t : Time} (h : ReapStep cfg (Harmless r t) x y)
    (ht : t ≤ x.clock) (hl : Live r y) : Keep r x y := by
  -- no entry of the sweep is of this block
  have hne : ∀ e, Harmless r t e → e.id ≠ r.blockID := by
    intro e he hid
    have hmono : t / hour ≤ y.clock / hour := Int.ediv_le_ediv (by decide) (ht.trans h.clock)
    exact absurd (lt_of_le_of_lt (he hid |>.trans hmono) hl) (lt_irrefl _)
  have hexp : ∀ n, y.db.view.get (expiryKey n r.blockID) = x.db.view.get (expiryKey n r.blockID) := by
    intro n
    rcases h.db with hdb | ⟨e, he, hdb⟩
    · rw [hdb]
    · rw [hdb, Pebble.view_commit, get_deleteOps, if_neg]
      rintro (hk | hk)
      · exact hne e he (expiryKey_inj.mp hk).2.symm
      · exact blockKey_ne_expiryKey hk.symm
  refine ⟨⟨h.clock, fun hb => hb.of_untouched h.clock ?_ hexp⟩, fun p hp => h.files p ?_, ?_, hexp⟩
  · rcases h.db with hdb | ⟨e, -, hdb⟩
    · rw [hdb]
      exact hb.pending
    · rw [hdb]
      exact fun b hb => absurd hb List.not_mem_nil
  · -- the files of other blocks are others
    rintro ⟨e, tier, store, he, -, hpath⟩
    simp only [files, List.mem_cons, List.not_mem_nil, or_false] at hp
    rcases hp with rfl | rfl | rfl
    · rcases hpath with hpath | hpath
      · exact tmpPath_ne_blockPath _ _ _ _ hpath
      · exact tmpPath_ne_bloomPath _ _ _ _ hpath
    · rcases hpath with hpath | hpath
      · exact blockPath_ne_bloomPath _ _ _ _ hpath.symm
      · exact hne e he (bloomPath_inj (isBlockID_blockID r) hpath).symm
    · rcases hpath with hpath | hpath
      · exact hne e he (blockPath_inj (isBlockID_blockID r) hpath).symm
      · exact blockPath_ne_bloomPath _ _ _ _ hpath
  · exact h.blk hne

/-- **A sweep does not touch a live block**, however old its scan. -/
theorem follows_sweep (cfg : ReaperConfig) {loop : List ExpiredEntry → Go Unit}
    (hloop : ∀ {E : ExpiredEntry → Prop} {entries : List ExpiredEntry}, (∀ e ∈ entries, E e) →
      Calls (S := machine) (ReapCalls cfg E) (loop entries).run) {w : World} (hw : BlockBase r w) :
    Follows (Sem.within sem (Live r)) (Common r) (Keep r) (sweep loop).run (fun _ _ => True) w := by
  have hR := rely_common r
  refine follows_bindE hR (follows_bind hR (follows_call fun x hx t y hs => ?_))
  obtain ⟨hs, -⟩ := hs
  -- the clock reading
  have hxy : Keep r x y ∧ t = y.clock := by
    rcases hs with hs | ⟨hle, rfl⟩
    · cases hs
      exact ⟨(rely_keep r).refl x, rfl⟩
    · refine ⟨⟨⟨hle, fun hb => ?_⟩, fun _ _ => rfl, rfl, fun _ => rfl⟩, rfl⟩
      exact ⟨hb.pending, hb.clock.trans hle, hb.exp⟩
  obtain ⟨hkeep, rfl⟩ := hxy
  have hy := hkeep.base (hx.base hw)
  refine ⟨hkeep, fun z hz v hv => follows_bindE hR (follows_bindE hR
    (follows_call fun x' hx' res y' hs' => ?_))⟩
  have hyx : Common r y x' := hR.trans hz (hR.trans hv hx')
  obtain ⟨hs', -⟩ := hs'
  -- the scan
  have hscan : y' = x' ∧ ∀ l, res = .ok l →
      l = x'.db.view.range prefixExpiry (expiryKeyUpperBound (unixHour y.clock)) := by
    rcases hs' with hs' | ⟨rfl, rfl⟩
    · cases hs'
      exact ⟨rfl, fun l hl => by cases hl; rfl⟩
    · exact ⟨rfl, fun l hl => by cases hl⟩
  obtain ⟨rfl, hentries⟩ := hscan
  refine ⟨(rely_keep r).refl y', fun x₂ hx₂ => ?_⟩
  cases res with
  | error e => exact fun _ _ _ _ => trivial
  | ok l =>
      rw [hentries l rfl]
      intro x₃ hx₃
      have hb := hyx.base hy
      have hE : ∀ e ∈ expiredEntries
          (y'.db.view.range prefixExpiry (expiryKeyUpperBound (unixHour y.clock))),
          Harmless r y.clock e :=
        fun e he => harmless_of_expired hb hy.clock (mem_expiredEntries_iff.mp he)
      -- the loop: its entries are harmless, and time has gone on
      let Inv : World → Prop := fun w => BlockBase r w ∧ y.clock ≤ w.clock
      have hmove : ∀ {a b : World}, Inv a → Common r a b → Inv b :=
        fun ha hab => ⟨hab.base ha.1, ha.2.trans hab.clock⟩
      have hop : ∀ (o : Op) (a : World) (res : o.Res) (b : World),
          ReapCalls cfg (Harmless r y.clock) o → Inv a → Sem.within sem (Live r) o a res b →
            Keep r a b ∧ Inv b := by
        intro o a res b ho ha hab
        have hk := keep_of_reapStep (reapStep_of_sem ho hab.1) ha.2 hab.2
        exact ⟨hk, hmove ha hk.toCommon⟩
      have hfollows : Follows (Sem.within sem (Live r)) (Common r) (Keep r) (loop _).run
          (fun _ => Inv) x₃ :=
        (hloop hE).follows hmove hop (hmove ⟨hb, hyx.clock⟩ (hR.trans hx₂ hx₃))
      exact hfollows.mono fun _ _ _ => trivial

/-! ## Seals of other blocks -/

/-- The operations of `Seal`. -/
def SealCalls (r : SealRequest) (o : Op) : Prop :=
  Prepares r o ∨ ∃ bm, o = .commit (sealOps r.shard r.blockID bm r.expiryHour) true

theorem calls_sealBlock (libs : Libs) (r : SealRequest) :
    Calls (S := machine) (SealCalls r) (Block.sealBlock libs r).run := by
  refine calls_bindE ((calls_prepareBlock libs r).mono fun _ => Or.inl) fun bm => ?_
  exact calls_bindE (calls_call.mpr (Or.inr ⟨bm, rfl⟩)) fun _ => calls_pure _

/-- The files of two blocks are different. -/
theorem files_ne {r r' : SealRequest} (hne : r'.blockID ≠ r.blockID) {p : Path} (hp : p ∈ files r) :
    p ≠ r'.tmpPath ∧ p ≠ r'.bloomPath ∧ p ≠ r'.blockPath := by
  simp only [files, List.mem_cons, List.not_mem_nil, or_false] at hp
  rcases hp with rfl | rfl | rfl
  · refine ⟨fun he => ?_, tmpPath_ne_bloomPath _ _ _ _, tmpPath_ne_blockPath _ _ _ _⟩
    exact hne (tmpPath_inj he).symm
  · refine ⟨(tmpPath_ne_bloomPath _ _ _ _).symm, fun he => ?_, (blockPath_ne_bloomPath _ _ _ _).symm⟩
    exact hne (bloomPath_inj (isBlockID_blockID r) he).symm
  · refine ⟨(tmpPath_ne_blockPath _ _ _ _).symm, blockPath_ne_bloomPath _ _ _ _, fun he => ?_⟩
    exact hne (blockPath_inj (isBlockID_blockID r) he).symm

theorem common_of_prepStep {r' : SealRequest} (h : PrepStep r' x y) : Common r x y :=
  ⟨h.clock, fun hb => hb.of_untouched h.clock (h.idxStep.pendingIdx hb.pending) fun n =>
    h.idxStep.get_view (by rw [family_expiryKey]; decide)⟩

theorem keep_of_prepStep {r' : SealRequest} (hne : r'.blockID ≠ r.blockID) (h : PrepStep r' x y) :
    Keep r x y := by
  refine ⟨common_of_prepStep h, fun p hp => ?_, ?_, fun n => ?_⟩
  · obtain ⟨htmp, hbloom, hblock⟩ := files_ne hne hp
    exact h.files p htmp hbloom hblock
  · exact h.idxStep.get_view (by rw [family_blockKey]; decide)
  · exact h.idxStep.get_view (by rw [family_expiryKey]; decide)

theorem keep_of_commit {r' : SealRequest} (hne : r'.blockID ≠ r.blockID) (x : World)
    (bm : BlockMeta) :
    Keep r x (x.commit (sealOps r'.shard r'.blockID bm r'.expiryHour) true) := by
  have hexp : ∀ n, (x.commit (sealOps r'.shard r'.blockID bm r'.expiryHour) true).db.view.get
      (expiryKey n r.blockID) = x.db.view.get (expiryKey n r.blockID) := by
    intro n
    rw [World.commit_db, Pebble.view_commit, get_sealOps_expiryKey,
      if_neg fun he => hne he.2.symm]
  refine ⟨⟨le_refl _, fun hb => hb.of_untouched (le_refl _) ?_ hexp⟩, fun _ _ => rfl, ?_, hexp⟩
  · exact fun b hb => absurd hb List.not_mem_nil
  · rw [World.commit_db, Pebble.view_commit, get_sealOps_blockKey, if_neg hne.symm]

/-- **The `Seal` of another block does not touch the block.** -/
theorem follows_other {r' : SealRequest} (hne : r'.blockID ≠ r.blockID) (w : World) :
    Follows (Sem.within sem (Live r)) (Common r) (Keep r) (Block.sealBlock libs r').run
      (fun _ _ => True) w := by
  refine (calls_sealBlock libs r').follows (fun _ _ => trivial) (fun o x res y ho _ hs => ?_) trivial
  obtain ⟨hs, -⟩ := hs
  rcases ho with ho | ⟨bm, rfl⟩
  · exact ⟨keep_of_prepStep hne (prepStep_of_sem r' ho hs), trivial⟩
  · rcases hs with hs | ⟨-, rfl⟩
    · cases hs
      exact ⟨keep_of_commit hne x bm, trivial⟩
    · exact ⟨(rely_keep r).refl _, trivial⟩

/-! ## The seal of the block -/

/-- The block is not committed, and its files are those of a `Seal` that runs
alone in `g`. -/
structure Working (r : SealRequest) (x g : World) : Prop where
  files : AgreeOn (files r) x g
  blk : x.db.view.get (blockKey r.blockID) = none

theorem Working.keep {g : World} (h : Working r x g) (hk : Keep r x y) : Working r y g :=
  ⟨fun p hp => (hk.files p hp).trans (h.files p hp), hk.blk.trans h.blk⟩

/-- The operations before the commit. -/
def PreparesOwn (r : SealRequest) (o : Op) : Prop :=
  WritesFiles r o ∨ ∃ hs, o = .commit (idxOps r.eventType hs r.blockID) false

theorem calls_prepareOwn (libs : Libs) (r : SealRequest) :
    Calls (S := machine) (PreparesOwn r) (prepareBlock libs r).run := by
  have hw : ∀ o, WritesFiles r o → PreparesOwn r o := fun _ => Or.inl
  refine calls_bindE ((writesFiles_writeBlockFile libs r).mono hw) fun _ => ?_
  refine calls_bindE ((writesFiles_writeBloomFile libs r).mono hw) fun _ => ?_
  refine calls_bindE ((writesFiles_put r).mono hw) fun _ => ?_
  refine calls_bindE ?_ fun _ => calls_pure _
  generalize idxChunks _ _ _ = cs
  induction cs with
  | nil => exact calls_pure _
  | cons c cs ih =>
      refine calls_bindE (calls_orElse (calls_call.mpr (Or.inr ⟨c, rfl⟩)) ?_) fun _ => ih
      simp

theorem PreparesOwn.onFiles {o : Op} (h : PreparesOwn r o) :
    o.OnFiles (files r) ∧ Prepares r o := by
  have hmem : ∀ {p : Path}, p = r.tmpPath ∨ p = r.bloomPath → p ∈ files r := by
    rintro p (rfl | rfl)
    · simp [files]
    · simp [files]
  rcases h with h | ⟨hs, rfl⟩
  · refine ⟨?_, (prepares_of_writesFiles r h).1⟩
    cases o with
    | mkdirAll _ => trivial
    | create _ | write _ _ | fsync _ | stat _ | remove _ => exact hmem h
    | rename src dst =>
        obtain ⟨rfl, rfl⟩ := h
        exact ⟨by simp [files], by simp [files]⟩
    | _ => exact h.elim
  · exact ⟨trivial, rfl, hs, rfl⟩

/-- The commit over a prepared world. -/
theorem own_of_commit {w g : World} (hp : Prepared libs r w g) (h : Working r x g) :
    Own libs r x
      (x.commit (sealOps r.shard r.blockID (r.blockMeta libs) r.expiryHour) true) := by
  have hexp : ∀ n, ((x.commit (sealOps r.shard r.blockID (r.blockMeta libs) r.expiryHour)
      true).db.view.get (expiryKey n r.blockID)) =
        if n = r.expiryHour then some [] else x.db.view.get (expiryKey n r.blockID) := by
    intro n
    rw [World.commit_db, Pebble.view_commit, get_sealOps_expiryKey]
    exact if_congr (and_iff_left rfl) rfl rfl
  have hblock := h.files r.blockPath (by simp [files])
  have hbloom := h.files r.bloomPath (by simp [files])
  refine ⟨⟨le_refl _, fun hb => ⟨?_, hb.clock, fun n hn => ?_⟩⟩, h.blk, fun _ => ?_⟩
  · exact fun b hb => absurd hb List.not_mem_nil
  · rw [hexp] at hn
    split_ifs at hn with he
    · exact he
    · exact hb.exp n hn
  · obtain ⟨data, hser, hdata⟩ := hp.bloom
    refine ⟨⟨hblock.trans hp.block, hp.size⟩, ⟨data, hser, hbloom.trans hdata⟩, ?_, ?_⟩
    · rw [HasMeta, World.commit_db, Pebble.view_commit, get_sealOps_blockKey, if_pos rfl]
    · rw [hexp, if_pos rfl]
      rfl

/-- **The `Seal` of the block commits it complete.** -/
theorem follows_own {w : World} (hw : w.db.view.get (blockKey r.blockID) = none) :
    Follows (Sem.within sem (Live r)) (Keep r) (Own libs r) (Block.sealBlock libs r).run
      (fun _ _ => True) w := by
  have hR := rely_keep r
  have hop : ∀ (o : Op) (x : World) (res : o.Res) (y g : World), PreparesOwn r o →
      Working r x g → Sem.within sem (Live r) o x res y →
        Own libs r x y ∧ ∃ g', sem o g res g' ∧ Working r y g' := by
    intro o x res y g ho hx hs
    obtain ⟨honf, hprep⟩ := ho.onFiles
    have hstep := prepStep_of_sem r hprep hs.1
    have hblk : y.db.view.get (blockKey r.blockID) = none := by
      rw [hstep.idxStep.get_view (by rw [family_blockKey]; decide), hx.blk]
    obtain ⟨g', hg', hagree⟩ := sem_onFiles honf hx.files hs.1
    refine ⟨⟨common_of_prepStep hstep, hx.blk, fun hsome => ?_⟩, g', hg', hagree, hblk⟩
    rw [hblk] at hsome
    cases hsome
  have hprep : Follows (Sem.within sem (Live r)) (Keep r) (Own libs r) (prepareBlock libs r).run
      (fun a y => ∃ ws g', Runs sem (prepareBlock libs r).run w ws a g' ∧ Working r y g') w :=
    (calls_prepareOwn libs r).follows_runs (fun h hk => h.keep hk) hop ⟨fun _ _ => rfl, hw⟩
  refine follows_bindE hR (hprep.mono fun res y h => ?_)
  obtain ⟨ws, g', hrun, hwork⟩ := h
  cases res with
  | error e => exact fun _ _ => trivial
  | ok bm =>
      obtain ⟨hprepared, rfl⟩ := runs_prepareBlock_ok libs r hrun
      refine follows_bindE hR (follows_call fun x hx res y hs => ?_)
      have hx := hwork.keep hx
      rcases hs.1 with hs | ⟨rfl, rfl⟩
      · cases hs
        exact ⟨own_of_commit hprepared hx, fun _ _ _ _ => trivial⟩
      · refine ⟨⟨(rely_common r).refl _, hx.blk, fun hsome => ?_⟩, fun _ _ _ _ => trivial⟩
        rw [hx.blk] at hsome
        cases hsome

/-! ## All together -/

section System

variable {ι : Type} {jobs : ι → Job} {i₀ : ι}

/-- What a job relies on, seen from the block of job `i₀`. -/
def Relies (r : SealRequest) (i₀ i : ι) (x y : World) : Prop :=
  Common r x y ∧ (i = i₀ → Untouched r x y)

/-- What it guarantees. -/
def Guarantees (libs : Libs) (r : SealRequest) (i₀ i : ι) (x y : World) : Prop :=
  (i = i₀ → Own libs r x y) ∧ (i ≠ i₀ → Keep r x y)

/-- What must be so when it starts. -/
def Startable (r : SealRequest) (i₀ i : ι) (x : World) : Prop :=
  BlockBase r x ∧ (i = i₀ → x.db.view.get (blockKey r.blockID) = none)

theorem rely_relies (r : SealRequest) (i₀ i : ι) : Rely (Relies r i₀ i) where
  refl x := ⟨(rely_common r).refl x, fun _ => ((rely_keep r).refl x).toUntouched⟩
  trans {a b c} h₁ h₂ := by
    refine ⟨(rely_common r).trans h₁.1 h₂.1, fun hi => ?_⟩
    exact ((rely_keep r).trans ⟨h₁.1, h₁.2 hi⟩ ⟨h₂.1, h₂.2 hi⟩ : Keep r a c).toUntouched

/-- A crash leaves the block alone: only index keys were unsynced. -/
theorem BlockBase.crash (hb : BlockBase r x) (hc : x.Crash y) : BlockBase r y ∧ Untouched r x y := by
  have hexp : ∀ n, y.db.view.get (expiryKey n r.blockID) = x.db.view.get (expiryKey n r.blockID) :=
    fun n => get_view_crash hb.pending hc.db (by rw [family_expiryKey]; decide)
  have hblk := get_view_crash hb.pending hc.db (k := blockKey r.blockID)
    (by rw [family_blockKey]; decide)
  obtain ⟨n, hdb⟩ := hc.db
  refine ⟨hb.of_untouched hc.clock ?_ hexp, fun p _ => by rw [hc.fs], hblk, hexp⟩
  rw [hdb]
  exact fun b hb => absurd hb List.not_mem_nil

/-- Time going on leaves it alone. -/
theorem keep_of_tick (h : Tick x y) : Keep r x y := by
  obtain ⟨t, ht, rfl⟩ := h
  exact ⟨⟨ht, fun hb => ⟨hb.pending, hb.clock.trans ht, hb.exp⟩⟩, fun _ _ => rfl, rfl,
    fun _ => rfl⟩

/-- **The contract of the jobs.** -/
theorem contract (hjob : jobs i₀ = .sealBlock r)
    (hids : ∀ i r', jobs i = .sealBlock r' → r'.blockID = r.blockID → i = i₀) :
    Pool.Contract (Sem.within sem (Live r)) (fun i => (jobs i).text libs)
      (fun x y => Tick x y ∧ Live r y) (fun x y => x.Crash y ∧ Live r y)
      (Relies r i₀) (Guarantees libs r i₀) (Startable r i₀) where
  rely i := rely_relies r i₀ i
  others := by
    intro i j x y hij hg
    by_cases hi : i = i₀
    · exact ⟨(hg.1 hi).toCommon, fun hj => absurd (hi.trans hj.symm) hij⟩
    · exact ⟨(hg.2 hi).toCommon, fun _ => (hg.2 hi).toUntouched⟩
  env h := ⟨(keep_of_tick h.1).toCommon, fun _ => (keep_of_tick h.1).toUntouched⟩
  start := by
    intro i w hw
    by_cases hi : i = i₀
    · have hown : Follows (Sem.within sem (Live r)) (Keep r) (Own libs r)
          (Block.sealBlock libs r).run.void (fun _ _ => True) w :=
        (follows_own (hw.2 hi)).void (rely_keep r)
      rw [hi, hjob]
      refine hown.weaken (fun h => ⟨h.1, h.2 rfl⟩) fun h => ⟨fun _ => h, fun hne => absurd rfl hne⟩
    · have hother : ∀ {p : Proc Unit},
          Follows (Sem.within sem (Live r)) (Common r) (Keep r) p (fun _ _ => True) w →
          Follows (Sem.within sem (Live r)) (Relies r i₀ i) (Guarantees libs r i₀ i) p
            (fun _ _ => True) w := fun h =>
        h.weaken (fun hr => hr.1) fun hk => ⟨fun he => absurd he hi, fun _ => hk⟩
      cases hj : jobs i with
      | sealBlock r' =>
          have hne : r'.blockID ≠ r.blockID := fun he => hi (hids i r' hj he)
          exact hother ((follows_other hne w).void (rely_common r))
      | reap cfg =>
          exact hother ((follows_sweep cfg calls_reapEntries hw.1).void (rely_common r))
      | clean cfg =>
          exact hother ((follows_sweep ⟨fun _ => none⟩ calls_cleanEntries hw.1).void
            (rely_common r))
  ready h hw := ⟨h.1.base hw.1, fun hi => (h.2 hi).blk.trans (hw.2 hi)⟩
  crash h hw := by
    obtain ⟨hb, hu⟩ := hw.1.crash h.1
    exact ⟨hb, fun hi => hu.blk.trans (hw.2 hi)⟩

/-- The runs of the system. -/
abbrev TtlReach (libs : Libs) (jobs : ι → Job) :
    Pool machine World ι → Pool machine World ι → Prop :=
  Pool.Reach sem (fun i => (jobs i).text libs) Tick World.Crash

/-- The clock does not go back: what is live at the end was live all the
time. -/
theorem within_of_reach {c c' : Pool machine World ι} (h : TtlReach libs jobs c c')
    (hl : Live r c'.world) :
    Live r c.world ∧ Pool.Reach (Sem.within sem (Live r)) (fun i => (jobs i).text libs)
      (fun x y => Tick x y ∧ Live r y) (fun x y => x.Crash y ∧ Live r y) c c' := by
  refine Pool.Reach.within (L := Live r) (fun hs hl => hl.of_le (sem_effect hs).clock) ?_
    (fun hc hl => hl.of_le hc.clock) h hl
  rintro x _ ⟨t, ht, rfl⟩ hl
  exact hl.of_le ht

/-- What is so at every moment before the expiry hour. -/
structure Sound (libs : Libs) (r : SealRequest) (w : World) : Prop where
  base : BlockBase r w
  committed : (w.db.view.get (blockKey r.blockID)).isSome → Complete libs r w

/-- One move keeps that, and a complete block stays complete. -/
theorem sound_of_moves
    (h : Pool.Moves (fun x y => Tick x y ∧ Live r y) (fun x y => x.Crash y ∧ Live r y)
      (Guarantees libs r i₀) x y) (hx : Sound libs r x) :
    Sound libs r y ∧ (Complete libs r x → Complete libs r y) := by
  have huntouched : BlockBase r y → Untouched r x y →
      Sound libs r y ∧ (Complete libs r x → Complete libs r y) := by
    intro hb hu
    refine ⟨⟨hb, fun hsome => ?_⟩, fun hc => hc.of_untouched hu⟩
    rw [hu.blk] at hsome
    exact (hx.committed hsome).of_untouched hu
  rcases h with rfl | ⟨i, hg⟩ | ⟨ht, -⟩ | ⟨hc, -⟩
  · exact ⟨hx, fun hc => hc⟩
  · by_cases hi : i = i₀
    · have hown := hg.1 hi
      refine ⟨⟨hown.base hx.base, hown.after⟩, fun hc => ?_⟩
      -- the block's own `Seal` has nothing left to do once it is committed
      have hblk := hc.blk
      rw [HasMeta, hown.before] at hblk
      cases hblk
    · have hkeep := hg.2 hi
      exact huntouched (hkeep.base hx.base) hkeep.toUntouched
  · exact huntouched ((keep_of_tick ht).base hx.base) (keep_of_tick ht).toUntouched
  · obtain ⟨hb, hu⟩ := hx.base.crash hc
    exact huntouched hb hu

/-- **TTL never touches a live block.** Seals of different blocks, reaper
cycles and janitor sweeps run in any interleaving, with crashes at any step.
Once a block is committed, its files and keys are complete in every later
state in which the hour of the clock is before the block's expiry hour. -/
theorem live_block_untouched (libs : Libs) (jobs : ι → Job) (i₀ : ι) (r : SealRequest)
    (hjob : jobs i₀ = .sealBlock r)
    (hids : ∀ i j r' r'', jobs i = .sealBlock r' → jobs j = .sealBlock r'' →
      r'.blockID = r''.blockID → i = j)
    (w : World) (hpending : PendingIdx w.db) (hclock : 0 ≤ w.clock)
    (hblk : w.db.view.get (blockKey r.blockID) = none)
    (hexp : ∀ h, w.db.view.get (expiryKey h r.blockID) = none)
    (c₁ c₂ : Pool machine World ι) (h₁ : TtlReach libs jobs ⟨w, [], []⟩ c₁)
    (hcommitted : (c₁.world.db.view.get (blockKey r.blockID)).isSome)
    (h₂ : TtlReach libs jobs c₁ c₂) (hlive : c₂.world.clock / hour < r.expiryHour.toNat) :
    Complete libs r c₂.world := by
  have hc : Pool.Contract _ (fun i => (jobs i).text libs) _ _ (Relies r i₀) (Guarantees libs r i₀)
      (Startable r i₀) := contract hjob fun i r' hi he => hids i i₀ r' r hi hjob he
  -- looking back from `c₂`, the clock has always been before the hour
  obtain ⟨hlive₁, hr₂⟩ := within_of_reach h₂ hlive
  obtain ⟨-, hr₁⟩ := within_of_reach h₁ hlive₁
  let K : World → World → Prop := fun x y => Sound libs r x →
    Sound libs r y ∧ (Complete libs r x → Complete libs r y)
  have hK : Rely K := by
    refine ⟨fun x hx => ⟨hx, fun hc => hc⟩, fun hab hbc ha => ?_⟩
    obtain ⟨hb, hcb⟩ := hab ha
    obtain ⟨hc, hcc⟩ := hbc hb
    exact ⟨hc, fun h => hcc (hcb h)⟩
  have hbase : BlockBase r w := by
    refine ⟨hpending, hclock, fun n hn => ?_⟩
    rw [hexp] at hn
    cases hn
  have hstart : Pool.Follow (Sem.within sem (Live r)) (Relies r i₀) (Guarantees libs r i₀)
      (Startable r i₀) (⟨w, [], []⟩ : Pool machine World ι) := by
    refine ⟨List.nodup_nil, ?_, ?_, fun i _ => ⟨hbase, fun _ => hblk⟩⟩
    · exact fun p hp => absurd hp List.not_mem_nil
    · exact fun p hp => absurd hp List.not_mem_nil
  have hsound : Sound libs r w := by
    refine ⟨hbase, fun hsome => ?_⟩
    rw [hblk] at hsome
    cases hsome
  obtain ⟨hf₁, hk₁⟩ := hstart.reach hc hK sound_of_moves hr₁
  obtain ⟨-, hk₂⟩ := hf₁.reach hc hK sound_of_moves hr₂
  have hsound₁ := (hk₁ hsound).1
  exact (hk₂ hsound₁).2 (hsound₁.committed hcommitted)

end System

/-! ### Stale scans -/

/-- The sealed block, when its expiry hour has come. -/
def oneRowExpired : World := readClock oneRowSealed (43800 * hour)

/-- A reaper cycle, a janitor sweep and the `Seal` of the next hour. -/
inductive SideJob
  | reaper
  | janitor
  | sealing
  deriving DecidableEq

def SideJob.job : SideJob → Job
  | .reaper => .reap ⟨fun _ => some oneRow.store⟩
  | .janitor => .clean ⟨fun _ => some oneRow.store⟩
  | .sealing => .sealBlock nextRow

/-- A sweep that has scanned: the expired block is all it has found. -/
def scanned (b : SideJob) : Proc Unit × World :=
  advance Op.exec 2 (b.job.text Libs.plain) oneRowExpired

/-- The `Seal` has written its files. -/
def sealingBeside : Proc Unit × World :=
  advance Op.exec 9 ((SideJob.job .sealing).text Libs.plain) (scanned .janitor).2

/-- The janitor goes on with its scan. -/
def cleanedBeside : Proc Unit × World := advance Op.exec 3 (scanned .janitor).1 sealingBeside.2

/-- The `Seal` goes on and commits. -/
def sealedBeside : Proc Unit × World := advance Op.exec 6 sealingBeside.1 cleanedBeside.2

/-- The reaper goes on with its scan. -/
def reapedBeside : Proc Unit × World := advance Op.exec 6 (scanned .reaper).1 sealedBeside.2

/-- No expiry key of the next block. -/
theorem expiry_nextRow (h : UInt64) :
    oneRowSealed.db.view.get (expiryKey h nextRow.blockID) = none := by
  have hne : nextRow.blockID ≠ oneRow.blockID := by decide +kernel
  obtain ⟨ws, hrun⟩ := runs_oneRowSealed
  rcases runs_sealBlock _ _ hrun with ⟨⟨e, he⟩, -⟩ | ⟨-, _, w₁, -, -, -, hprep, hw⟩
  · cases he
  · rw [hw, World.commit_db, Pebble.view_commit, get_sealOps_expiryKey,
      if_neg fun he => hne he.2, hprep.view, if_neg]
    · rfl
    · rintro ⟨k, -, he⟩
      exact ne_of_family (by rw [family_expiryKey, family_idxKey]; decide) he

set_option maxRecDepth 100000 in
/-- Reaper and janitor scan, the next hour is sealed, the janitor goes on in
the middle of that and the reaper after it, and the process crashes: the
expired block is gone, the one of the next hour complete. -/
theorem live_block_untouched_staleScans : ∃ w, reapedBeside.2.Crash w ∧
    sealedBeside.2.fs oneRow.blockPath ≠ none ∧ w.fs oneRow.blockPath = none ∧
    Complete Libs.plain nextRow w := by
  have hexec : ∀ {n : Nat} {p : Proc Unit} {w : World}, ∀ q ∈ visits Op.exec n p w,
      sem q.1 q.2 (Op.exec q.1 q.2).1 (Op.exec q.1 q.2).2 := fun _ _ => Or.inl rfl
  -- up to the commit
  have hreach₁ : TtlReach Libs.plain SideJob.job ⟨oneRowExpired, [], []⟩
      ⟨sealedBeside.2, [(.sealing, sealedBeside.1), (.janitor, cleanedBeside.1),
        (.reaper, (scanned .reaper).1)], [.sealing, .janitor, .reaper]⟩ := by
    refine .head (.spawn (i := .reaper) (by decide)) ((Pool.reach_advance (n := 2) hexec).trans ?_)
    refine .head (.spawn (i := .janitor) (by decide)) ((Pool.reach_advance (n := 2) hexec).trans ?_)
    refine .head (.spawn (i := .sealing) (by decide)) ((Pool.reach_advance (n := 9) hexec).trans ?_)
    refine (Pool.reach_advance_at [(SideJob.sealing, sealingBeside.1)] (n := 3) hexec).trans ?_
    exact Pool.reach_advance (n := 6) hexec
  -- the reaper, and the crash
  have hreach₂ : TtlReach Libs.plain SideJob.job
      ⟨sealedBeside.2, [(.sealing, sealedBeside.1), (.janitor, cleanedBeside.1),
        (.reaper, (scanned .reaper).1)], [.sealing, .janitor, .reaper]⟩
      ⟨reapedBeside.2.syncedOnly, [], [.sealing, .janitor, .reaper]⟩ :=
    (Pool.reach_advance_at [(SideJob.sealing, sealedBeside.1), (.janitor, cleanedBeside.1)] (n := 6)
      hexec).tail (.crash reapedBeside.2.crash_syncedOnly)
  refine ⟨_, reapedBeside.2.crash_syncedOnly, by decide +kernel, by decide +kernel, ?_⟩
  refine live_block_untouched Libs.plain SideJob.job .sealing nextRow rfl ?_ oneRowExpired ?_
    (by decide +kernel) (by decide +kernel) expiry_nextRow _ _ hreach₁ (by decide +kernel) hreach₂
    (by decide +kernel)
  · intro i j r' r'' hi hj _
    cases i with
    | sealing => cases j with
      | sealing => rfl
      | reaper => cases hj
      | janitor => cases hj
    | reaper => cases hi
    | janitor => cases hi
  · have hnil : oneRowExpired.db.pending = [] := by decide +kernel
    intro b hb
    rw [hnil] at hb
    exact absurd hb List.not_mem_nil

end Bbdb.Ttl
