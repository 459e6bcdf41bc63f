import Bbdb.Block.CrashSafety
import Bbdb.Block.Publish
import Bbdb.Lib.Conc

/-!
# Block — how a new block appears

`Seal` works in the order bloom file, block file, index keys, final batch. At
every moment of its run a reader therefore finds a complete bloom file once
the index names the block, and everything once the block has metadata
(`Stage`). What was complete stays so (`Grows`). Both hold after every single
operation of `Seal` (`follows_sealBlock`), so also wherever it is cut off
(`stage_of_reaches`).
-/

namespace Bbdb.Block

open Bbdb.Meta Bbdb.Tier
open Prog hiding pure bind

variable {libs : Libs} {r : SealRequest} {w x y : World}

/-- Nothing is known of the block. -/
structure Unknown (r : SealRequest) (w : World) : Prop where
  idx : ∀ et kh, w.db.view.get (idxKey et kh r.blockID) = none
  blk : w.db.view.get (blockKey r.blockID) = none

/-- What a reader finds of the block, however far `Seal` has come. -/
structure Stage (libs : Libs) (r : SealRequest) (w : World) : Prop where
  type : ∀ et kh, (w.db.view.get (idxKey et kh r.blockID)).isSome → et = r.eventType
  named : Named w r → HasBloom libs w r
  blk : w.db.view.get (blockKey r.blockID) = none ∨ Present libs w r

/-- What `Seal` does to the worlds of its readers. -/
structure Grows (libs : Libs) (r : SealRequest) (x y : World) : Prop where
  beside : Beside r.blockID x y
  stage : Stage libs r x → Stage libs r y
  named : Named x r → Named y r
  present : Present libs x r → Present libs y r

theorem rely_grows (libs : Libs) (r : SealRequest) : Rely (Grows libs r) where
  refl x := ⟨Beside.refl _ x, fun h => h, fun h => h, fun h => h⟩
  trans h₁ h₂ := ⟨h₁.beside.trans h₂.beside, fun h => h₂.stage (h₁.stage h),
    fun h => h₂.named (h₁.named h), fun h => h₂.present (h₁.present h)⟩

theorem Unknown.not_named (h : Unknown r w) : ¬ Named w r := by
  rintro ⟨et, kh, hk⟩
  rw [h.idx] at hk
  cases hk

theorem Unknown.stage (h : Unknown r w) : Stage libs r w := by
  refine ⟨fun et kh hk => ?_, fun hn => absurd hn h.not_named, Or.inl h.blk⟩
  rw [h.idx] at hk
  cases hk

theorem Unknown.of_db (h : Unknown r x) (hdb : y.db = x.db) : Unknown r y :=
  ⟨fun et kh => by rw [hdb, h.idx], by rw [hdb, h.blk]⟩

theorem not_present_of_blk (h : x.db.view.get (blockKey r.blockID) = none) :
    ¬ Present libs x r := by
  intro hp
  have hblk := hp.blk
  rw [HasMeta, h] at hblk
  cases hblk

/-! ## The operations of Seal -/

/-- Writing files of a block of which nothing is known. -/
theorem grows_of_writesFiles {o : Op} {res : o.Res} (ho : WritesFiles r o) (hx : Unknown r x)
    (h : sem o x res y) : Grows libs r x y ∧ Unknown r y := by
  obtain ⟨hprep, hnothing⟩ := prepares_of_writesFiles r ho
  have hdb : y.db = x.db := by
    rcases (sem_effect h).db with hdb | ⟨b, sync, rfl, -⟩
    · exact hdb
    · exact hnothing.elim
  have hy := hx.of_db hdb
  exact ⟨⟨beside_of_prepStep (prepStep_of_sem r hprep h), fun _ => hy.stage,
    fun hn => absurd hn hx.not_named, fun hp => absurd hp (not_present_of_blk hx.blk)⟩, hy⟩

/-- Both files are complete, and there is no metadata yet. -/
structure Written (libs : Libs) (r : SealRequest) (w : World) : Prop where
  bloom : HasBloom libs w r
  type : ∀ et kh, (w.db.view.get (idxKey et kh r.blockID)).isSome → et = r.eventType
  blk : w.db.view.get (blockKey r.blockID) = none

/-- Adding index keys to a block with complete files. -/
theorem grows_of_idx {hs : List UInt64} (hx : Written libs r x) :
    Grows libs r x (x.commit (idxOps r.eventType hs r.blockID) false) ∧
      Written libs r (x.commit (idxOps r.eventType hs r.blockID) false) := by
  have hstep : PrepStep r x (x.commit (idxOps r.eventType hs r.blockID) false) :=
    ⟨fun _ _ _ _ => rfl, Or.inr ⟨hs, rfl⟩, le_refl _⟩
  have hblk : (x.commit (idxOps r.eventType hs r.blockID) false).db.view.get
      (blockKey r.blockID) = none := by
    rw [get_of_prepStep hstep fun _ he => idxKey_ne_blockKey he.symm, hx.blk]
  have hidx : ∀ et kh, (x.db.view.get (idxKey et kh r.blockID)).isSome →
      ((x.commit (idxOps r.eventType hs r.blockID) false).db.view.get
        (idxKey et kh r.blockID)).isSome := by
    intro et kh hk
    rw [World.commit_db, Pebble.view_commit, get_idxOps]
    split_ifs
    · rfl
    · exact hk
  have htype : ∀ et kh, ((x.commit (idxOps r.eventType hs r.blockID) false).db.view.get
      (idxKey et kh r.blockID)).isSome → et = r.eventType := by
    intro et kh hk
    by_contra hne
    rw [get_of_prepStep hstep fun _ he => hne (idxKey_inj.mp he).1] at hk
    exact hne (hx.type et kh hk)
  have hbloom : HasBloom libs (x.commit (idxOps r.eventType hs r.blockID) false) r := hx.bloom
  refine ⟨⟨beside_of_prepStep hstep, fun _ => ⟨htype, fun _ => hbloom, Or.inl hblk⟩, ?_, ?_⟩,
    hbloom, htype, hblk⟩
  · rintro ⟨et, kh, hk⟩
    exact ⟨et, kh, hidx et kh hk⟩
  · exact fun hp => absurd hp (not_present_of_blk hx.blk)

/-- The final batch. -/
theorem grows_of_commit (hp : Prepared libs r w x) (hx : Written libs r x) :
    Grows libs r x
      (x.commit (sealOps r.shard r.blockID (r.blockMeta libs) r.expiryHour) true) := by
  have hpresent := present_of_prepared hp
  have hidx : ∀ et kh, (x.commit (sealOps r.shard r.blockID (r.blockMeta libs) r.expiryHour)
      true).db.view.get (idxKey et kh r.blockID) = x.db.view.get (idxKey et kh r.blockID) := by
    intro et kh
    rw [World.commit_db, Pebble.view_commit, get_sealOps_idxKey]
  refine ⟨beside_of_commit .., fun _ => ⟨fun et kh hk => ?_, fun _ => hpresent.bloom,
    Or.inr hpresent⟩, ?_, fun _ => hpresent⟩
  · rw [hidx] at hk
    exact hx.type et kh hk
  · rintro ⟨et, kh, hk⟩
    exact ⟨et, kh, by rwa [hidx]⟩

/-! ## All of Seal -/

theorem follows_writes {α : Type} {f : Go α} (hf : Calls (S := machine) (WritesFiles r) f.run)
    (hx : Unknown r x) :
    Follows sem Eq (Grows libs r) f.run
      (fun a y => (∃ ws, Runs sem f.run x ws a y) ∧ Unknown r y) x :=
  hf.follows_alone (fun _ _ _ _ ho hy hs => grows_of_writesFiles ho hy hs) hx

theorem calls_idx (cs : List (List UInt64)) :
    Calls (S := machine) (fun o => ∃ hs, o = .commit (idxOps r.eventType hs r.blockID) false)
      (putIdxChunks r.eventType r.blockID cs).run := by
  induction cs with
  | nil => exact calls_pure _
  | cons c cs ih =>
      refine calls_bindE (calls_orElse (calls_call.mpr ⟨c, rfl⟩) ?_) fun _ => ih
      exact fun p hp => absurd hp List.not_mem_nil

theorem follows_idx (hx : Written libs r x) (cs : List (List UInt64)) :
    Follows sem Eq (Grows libs r) (putIdxChunks r.eventType r.blockID cs).run
      (fun a y => (∃ ws, Runs sem (putIdxChunks r.eventType r.blockID cs).run x ws a y) ∧
        Written libs r y) x := by
  refine (calls_idx cs).follows_alone (fun o y res z ho hy hsem => ?_) hx
  obtain ⟨hs, rfl⟩ := ho
  rcases hsem with he | ⟨rfl, rfl⟩
  · cases he
    exact grows_of_idx hy
  · exact ⟨(rely_grows libs r).refl _, hy⟩

/-- **Every operation of `Seal`**, also of one that fails. -/
theorem follows_sealBlock (hw : Unknown r w) :
    Follows sem Eq (Grows libs r) (sealBlock libs r).run (fun _ _ => True) w := by
  have hR : Rely (Eq : World → World → Prop) := ⟨fun _ => rfl, Eq.trans⟩
  have hprep : Follows sem Eq (Grows libs r) (prepareBlock libs r).run
      (OnResult (fun bm y => Prepared libs r w y ∧ bm = r.blockMeta libs ∧ Written libs r y)
        fun _ _ => True) w := by
    refine follows_bindE hR ((follows_writes (writesFiles_writeBlockFile libs r) hw).mono
      fun res y₁ h => ?_)
    obtain ⟨⟨ws₁, run₁⟩, hy₁⟩ := h
    cases res with
    | error e => exact fun _ _ => trivial
    | ok info =>
        refine follows_bindE hR ((follows_writes (writesFiles_writeBloomFile libs r) hy₁).mono
          fun res y₂ h => ?_)
        obtain ⟨⟨ws₂, run₂⟩, hy₂⟩ := h
        cases res with
        | error e => exact fun _ _ => trivial
        | ok u₂ =>
            refine follows_bindE hR ((follows_writes (writesFiles_put r) hy₂).mono
              fun res y₃ h => ?_)
            obtain ⟨⟨ws₃, run₃⟩, hy₃⟩ := h
            cases res with
            | error e => exact fun _ _ => trivial
            | ok u₃ =>
                have hwritten : Written libs r y₃ := by
                  refine ⟨?_, fun et kh hk => ?_, hy₃.blk⟩
                  · exact bloom_of_put run₂ run₃
                  · rw [hy₃.idx] at hk
                    cases hk
                refine follows_bindE hR ((follows_idx hwritten _).mono fun res y₄ h => ?_)
                obtain ⟨⟨ws₄, run₄⟩, hy₄⟩ := h
                cases res with
                | error e => exact fun _ _ => trivial
                | ok u₄ =>
                    rintro y rfl
                    have hrun : Runs sem (prepareBlock libs r).run w _ (.ok _) y₄ :=
                      runs_bindE_ok.mpr ⟨info, y₁, ws₁, _, rfl, run₁,
                        runs_bindE_ok.mpr ⟨u₂, y₂, ws₂, _, rfl, run₂,
                          runs_bindE_ok.mpr ⟨u₃, y₃, ws₃, _, rfl, run₃,
                            runs_bindE_ok.mpr ⟨u₄, y₄, ws₄, _, rfl, run₄, ⟨rfl, rfl, rfl⟩⟩⟩⟩⟩
                    obtain ⟨hp, hbm⟩ := runs_prepareBlock_ok libs r hrun
                    exact ⟨hp, hbm, hy₄⟩
  refine follows_bindE hR (hprep.mono fun res y h => ?_)
  cases res with
  | error e => exact fun _ _ => trivial
  | ok bm =>
      obtain ⟨hp, rfl, hy⟩ := h
      refine follows_bindE hR (follows_call fun x hx res z hs => ?_)
      subst hx
      rcases hs with hs | ⟨rfl, rfl⟩
      · cases hs
        exact ⟨grows_of_commit hp hy, fun _ _ _ _ => trivial⟩
      · exact ⟨(rely_grows libs r).refl _, fun _ _ _ _ => trivial⟩

/-- **Wherever `Seal` is cut off.** -/
theorem grows_of_reaches (hw : Unknown r w) (h : SealReaches libs r w x) : Grows libs r w x := by
  have hR := rely_grows libs r
  have hens : Ensures sem (Grows libs r) (sealBlock libs r).run (fun _ _ => True) w :=
    (follows_sealBlock hw).ensures
  rcases h with ⟨ws, hcut⟩ | ⟨ws, res, hrun⟩
  · have hall := chain_forall hR.refl hR.trans (hens.cuts hcut)
    exact hall x (List.mem_of_getLast? hcut.getLast)
  · have hall := chain_forall hR.refl hR.trans (hens.runs hrun).1
    exact hall x (List.mem_of_getLast? hrun.getLast)

theorem clock_of_reaches (h : SealReaches libs r w x) : w.clock ≤ x.clock := by
  have hens := ensures_clock (sealBlock libs r).run w
  let Later : World → World → Prop := fun a b => a.clock ≤ b.clock
  have htrans : ∀ {a b c}, Later a b → Later b c → Later a c := fun h₁ h₂ => h₁.trans h₂
  rcases h with ⟨ws, hcut⟩ | ⟨ws, res, hrun⟩
  · have hall := chain_forall (G := Later) (fun _ => le_refl _) htrans (hens.cuts hcut)
    exact hall x (List.mem_of_getLast? hcut.getLast)
  · have hall := chain_forall (G := Later) (fun _ => le_refl _) htrans (hens.runs hrun).1
    exact hall x (List.mem_of_getLast? hrun.getLast)

/-- What `Seal` has done to keys of any block: only index keys are unsynced,
no expiry key but its own is new, no synced index key is lost; and if it has
changed the metadata, everything is synced. -/
structure SealKeys (r : SealRequest) (w x : World) : Prop where
  pending : PendingIdx x.db
  exps : ∀ n id, (x.db.view.get (expiryKey n id)).isSome →
    (w.db.view.get (expiryKey n id)).isSome ∨ n = r.expiryHour ∧ id = r.blockID
  synced : ∀ et kh id, (w.db.synced.get (idxKey et kh id)).isSome →
    (x.db.synced.get (idxKey et kh id)).isSome
  blk : x.db.view.get (blockKey r.blockID) = w.db.view.get (blockKey r.blockID) ∨
    ∀ k, x.db.synced.get k = x.db.view.get k

theorem sealKeys_of_reaches (hp : PendingIdx w.db) (h : SealReaches libs r w x) :
    SealKeys r w x := by
  rcases sealReaches_cases h with hidx | ⟨w₁, hidx, hprep, rfl⟩
  · -- the final batch is not committed
    refine ⟨hidx.pendingIdx hp, fun n id hk => ?_, fun et kh id hk => ?_, Or.inl ?_⟩
    · rw [hidx.get_view (by rw [family_expiryKey]; decide)] at hk
      exact Or.inl hk
    · rwa [hidx.1]
    · exact hidx.get_view (by rw [family_blockKey]; decide)
  · refine ⟨fun b hb => absurd hb List.not_mem_nil, fun n id hk => ?_, fun et kh id hk => ?_,
      Or.inr fun k => rfl⟩
    · rw [World.commit_db, Pebble.view_commit, get_sealOps_expiryKey] at hk
      split_ifs at hk with he
      · exact Or.inr he
      · rw [hidx.get_view (by rw [family_expiryKey]; decide)] at hk
        exact Or.inl hk
    · have hview : (w.db.view.get (idxKey et kh id)).isSome := isSome_idxBatches hp _ hk
      show ((Batch.apply (sealOps r.shard r.blockID (r.blockMeta libs) r.expiryHour)
        w₁.db.view).get (idxKey et kh id)).isSome
      rw [get_sealOps_idxKey, hprep.view]
      split_ifs
      · rfl
      · exact hview

end Bbdb.Block
