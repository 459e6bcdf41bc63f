import Bbdb.Ttl.Live

/-!
# TTL — orphaned files

Reaper cycles and janitor sweeps run side by side, with crashes and restarts
at any step. The reaper removes the block file, then the bloom file, then the
keys of a block. A crash between the two files leaves a block without block
file, which the janitor takes for one whose files are gone: it deletes the
keys, and the bloom file stays for ever (`janitor_orphans_bloom`).

As long as every block that the janitor finds without block file has no bloom
file either, no file outlives the keys of its block
(`deleted_block_leaves_no_files`).
-/

namespace Bbdb.Ttl

open Bbdb.Meta Bbdb.Block Bbdb.Tier GoTime
open Prog hiding pure bind

/-! ## The system -/

/-- The sweeps. -/
inductive Sweep where
  | reap (cfg : ReaperConfig)
  | clean (cfg : JanitorConfig)

def Sweep.text : Sweep → Proc Unit
  | .reap cfg => (runOnce cfg).run.void
  | .clean cfg => (janitorRunOnce cfg).run.void

def Sweep.tiers : Sweep → Tier → Option LocalStore
  | .reap cfg => cfg.tiers
  | .clean cfg => cfg.tiers

/-- Runs without read errors. -/
def semReads : Sem machine World := fun (o : Op) x r y =>
  sem o x r y ∧ (o.Reads → (r, y) = o.exec x)

/-- Runs in which a block that the janitor finds without block file has no
bloom file either. -/
def semChecked : Sem machine World := fun (o : Op) x r y =>
  semReads o x r y ∧ ∀ (s : LocalStore) (id : BlockID), o = .stat (s.blockPath id) →
    x.fs (s.blockPath id) = none → x.fs (s.bloomPath id) = none

/-! ## What the sweeps do to one block -/

/-- The block is as it was, or its keys went after its files. -/
structure Mv (s : LocalStore) (id : BlockID) (x y : World) : Prop where
  pending : PendingIdx x.db → PendingIdx y.db
  block : y.fs (s.blockPath id) = x.fs (s.blockPath id) ∨ y.fs (s.blockPath id) = none
  bloom : y.fs (s.bloomPath id) = x.fs (s.bloomPath id) ∨ y.fs (s.bloomPath id) = none
  blk : y.db.view.get (blockKey id) = x.db.view.get (blockKey id) ∨
    y.db.view.get (blockKey id) = none ∧ y.fs (s.blockPath id) = none ∧
      y.fs (s.bloomPath id) = none

variable {s : LocalStore} {id : BlockID} {bm : BlockMeta} {x y w : World}

theorem rely_mv (s : LocalStore) (id : BlockID) : Rely (Mv s id) where
  refl _ := ⟨fun h => h, Or.inl rfl, Or.inl rfl, Or.inl rfl⟩
  trans {a b c} h₁ h₂ := by
    have hkeep : ∀ p : Path, b.fs p = none → (c.fs p = b.fs p ∨ c.fs p = none) → c.fs p = none := by
      rintro p hb (h | h)
      · rw [h, hb]
      · exact h
    refine ⟨fun h => h₂.pending (h₁.pending h), ?_, ?_, ?_⟩
    · rcases h₂.block with h | h
      · rw [h]
        exact h₁.block
      · exact Or.inr h
    · rcases h₂.bloom with h | h
      · rw [h]
        exact h₁.bloom
      · exact Or.inr h
    · rcases h₂.blk with h | h
      · rw [h]
        rcases h₁.blk with h' | ⟨hk, hblock, hbloom⟩
        · exact Or.inl h'
        · exact Or.inr ⟨hk, hkeep _ hblock h₂.block, hkeep _ hbloom h₂.bloom⟩
      · exact Or.inr h

theorem Mv.block_none (h : Mv s id x y) (hx : x.fs (s.blockPath id) = none) :
    y.fs (s.blockPath id) = none := by
  rcases h.block with h | h
  · rw [h, hx]
  · exact h

theorem Mv.bloom_none (h : Mv s id x y) (hx : x.fs (s.bloomPath id) = none) :
    y.fs (s.bloomPath id) = none := by
  rcases h.bloom with h | h
  · rw [h, hx]
  · exact h

theorem Mv.blk_none (h : Mv s id x y) (hx : x.db.view.get (blockKey id) = none) :
    y.db.view.get (blockKey id) = none := by
  rcases h.blk with h | h
  · rw [h, hx]
  · exact h.1

/-- Nothing but the clock. -/
theorem mv_of_same (hfs : y.fs = x.fs) (hdb : y.db = x.db) : Mv s id x y :=
  ⟨fun h => by rwa [hdb], Or.inl (by rw [hfs]), Or.inl (by rw [hfs]), Or.inl (by rw [hdb])⟩

/-- A file that is removed. -/
theorem mv_remove (s : LocalStore) (id : BlockID) (x : World) (p : Path) :
    Mv s id x (x.setFile p none) := by
  have hfile : ∀ q : Path, (x.setFile p none).fs q = x.fs q ∨ (x.setFile p none).fs q = none := by
    intro q
    by_cases hq : q = p
    · exact Or.inr (by rw [hq, World.setFile_fs, FS.put_self])
    · exact Or.inl (FS.put_ne _ _ hq)
  exact ⟨fun h => h, hfile _, hfile _, Or.inl rfl⟩

/-- The block has the metadata `bm`, or none. -/
def Known (id : BlockID) (bm : BlockMeta) (w : World) : Prop :=
  ∀ val, w.db.view.get (blockKey id) = some val → val = encodeBlockMeta bm

theorem Known.mv (h : Known id bm x) (hm : Mv s id x y) : Known id bm y := by
  intro val hval
  rcases hm.blk with hb | ⟨hb, -⟩
  · exact h val (by rw [← hb, hval])
  · rw [hb] at hval
    cases hval

/-- The keys of the block may go: the metadata is gone, or both files are. -/
def Gone (s : LocalStore) (id : BlockID) (w : World) : Prop :=
  w.db.view.get (blockKey id) = none ∨
    w.fs (s.blockPath id) = none ∧ w.fs (s.bloomPath id) = none

theorem Gone.mv (h : Gone s id x) (hm : Mv s id x y) : Gone s id y := by
  rcases h with h | ⟨hblock, hbloom⟩
  · exact Or.inl (hm.blk_none h)
  · exact Or.inr ⟨hm.block_none hblock, hm.bloom_none hbloom⟩

/-- The keys of a block, once they may go. -/
theorem mv_commit {n : UInt64} {id' : BlockID} (h : id' = id → Gone s id x) :
    Mv s id x (x.commit (deleteOps n id') true) := by
  refine ⟨fun _ b hb => absurd hb List.not_mem_nil, Or.inl rfl, Or.inl rfl, ?_⟩
  rw [World.commit_db, Pebble.view_commit, get_deleteOps]
  by_cases hid : id' = id
  · rw [if_pos (Or.inr (by rw [hid]))]
    rcases h hid with hnone | hgone
    · exact Or.inl hnone.symm
    · exact Or.inr ⟨rfl, hgone⟩
  · rw [if_neg]
    · exact Or.inl rfl
    · rintro (he | he)
      · exact blockKey_ne_expiryKey he
      · exact hid (blockKey_inj.mp he).symm

/-! ## The functions a sweep calls -/

/-- Among other sweeps, `p` moves the block in the allowed way and ends with
`Q`. -/
abbrev Sweeps (s : LocalStore) (id : BlockID) {α : Type} (p : Proc α) (Q : α → World → Prop)
    (w : World) : Prop :=
  Follows semChecked (Mv s id) (Mv s id) p Q w

section Ops

theorem sweeps_ctxErr (s : LocalStore) (id : BlockID) (w : World) :
    Sweeps s id (liftM ctxErr : Go Bool).run (OnResult (fun _ => Mv s id w) fun _ => Mv s id w)
      w := by
  have hR := rely_mv s id
  refine follows_bind hR (follows_call fun x hx b y hs => ?_)
  rw [sem_ctxErr hs.1.1]
  exact ⟨hR.refl x, fun z hz v hv => hR.trans hx (hR.trans hz hv)⟩

/-- Without read errors, the metadata that is found is the block's. -/
theorem sweeps_getBlockMeta {id' : BlockID} (hw : Known id bm w) :
    Sweeps s id (attempt (getBlockMeta id')).run
      (fun r z => Mv s id w z ∧ ∃ res, r = .ok res ∧
        (id' = id → res = .ok bm ∨ z.db.view.get (blockKey id) = none)) w := by
  have hR := rely_mv s id
  refine follows_bind hR (follows_bind hR (follows_call fun x hx r y hs => ?_))
  have hexec := hs.1.2 trivial
  simp only [Op.exec] at hexec
  cases hval : x.db.view.get (blockKey id') with
  | none =>
      rw [hval] at hexec
      cases hexec
      refine ⟨hR.refl x, fun z hz v hv u hu => ?_⟩
      have hxu : Mv s id x u := hR.trans hz (hR.trans hv hu)
      refine ⟨hR.trans hx hxu, _, rfl, fun hid => Or.inr (hxu.blk_none ?_)⟩
      rw [← hid, hval]
  | some val =>
      rw [hval] at hexec
      cases hexec
      refine ⟨hR.refl x, fun z hz v hv u hu => ?_⟩
      refine ⟨hR.trans hx (hR.trans hz (hR.trans hv hu)), _, rfl, fun hid => Or.inl ?_⟩
      rw [(hw.mv hx) val (by rw [← hid, hval]), decodeBlockMeta_encodeBlockMeta]

theorem sweeps_deleteBlockAndExpiry {n : UInt64} {id' : BlockID} (h : id' = id → Gone s id w) :
    Sweeps s id (deleteBlockAndExpiry n id').run (fun _ => Mv s id w) w := by
  have hR := rely_mv s id
  refine follows_call fun x hx r y hs => ?_
  have hxy : Mv s id x y := by
    rcases hs.1.1 with hs | ⟨-, rfl⟩
    · cases hs
      exact mv_commit fun hid => (h hid).mv hx
    · exact hR.refl _
  exact ⟨hxy, fun z hz => hR.trans hx (hR.trans hxy hz)⟩

theorem sweeps_removeIfPresent (p : Path) (text : String) (w : World) :
    Sweeps s id (removeIfPresent p text).run
      (fun r z => Mv s id w z ∧
        (r.isOk → p = s.blockPath id ∨ p = s.bloomPath id → z.fs p = none)) w := by
  have hR := rely_mv s id
  -- a file of the block that is gone stays gone
  have hgone : ∀ {x z : World}, Mv s id x z → x.fs p = none →
      p = s.blockPath id ∨ p = s.bloomPath id → z.fs p = none := by
    rintro x z hz hx (rfl | rfl)
    · exact hz.block_none hx
    · exact hz.bloom_none hx
  refine follows_bind hR (follows_call fun x hx r y hs => ?_)
  rcases hs.1.1 with hs | ⟨rfl, rfl⟩
  · simp only [Op.exec] at hs
    cases hfile : x.fs p with
    | none =>
        rw [hfile] at hs
        cases hs
        refine ⟨hR.refl x, fun z hz v hv => ?_⟩
        have hxv : Mv s id x v := hR.trans hz hv
        exact ⟨hR.trans hx hxv, fun _ => hgone hxv hfile⟩
    | some _ =>
        rw [hfile] at hs
        cases hs
        refine ⟨mv_remove s id x p, fun z hz v hv => ?_⟩
        have hyv : Mv s id (x.setFile p none) v := hR.trans hz hv
        refine ⟨hR.trans hx (hR.trans (mv_remove s id x p) hyv), fun _ => hgone hyv ?_⟩
        rw [World.setFile_fs, FS.put_self]
  · refine ⟨hR.refl y, fun z hz v hv => ⟨hR.trans hx (hR.trans hz hv), fun hok => ?_⟩⟩
    cases hok

/-- After `Delete`, the keys may go. -/
theorem sweeps_delete (s' : LocalStore) (id' : BlockID) (w : World) :
    Sweeps s id (s'.delete id').run
      (fun r z => Mv s id w z ∧ (r.isOk → s' = s → id' = id → Gone s id z)) w := by
  have hR := rely_mv s id
  refine follows_bindE hR ((sweeps_removeIfPresent _ _ w).mono fun r x hx => ?_)
  obtain ⟨hwx, hblock⟩ := hx
  cases r with
  | error e => exact fun z hz => ⟨hR.trans hwx hz, fun hok => by cases hok⟩
  | ok u =>
      refine (sweeps_removeIfPresent _ _ x).mono fun r z hz => ?_
      obtain ⟨hxz, hbloom⟩ := hz
      refine ⟨hR.trans hwx hxz, fun hok hs hid => Or.inr ?_⟩
      rw [hs, hid] at hblock hbloom
      exact ⟨hxz.block_none (hblock rfl (Or.inl rfl)), hbloom hok (Or.inr rfl)⟩

/-- A block that `Exists` does not find has no files. -/
theorem sweeps_exists (s' : LocalStore) (id' : BlockID) (w : World) :
    Sweeps s id (s'.exists_ id').run
      (fun r z => Mv s id w z ∧ (r = .ok false → s' = s → id' = id → Gone s id z)) w := by
  have hR := rely_mv s id
  refine follows_bind hR (follows_call fun x hx r y hs => ?_)
  have hexec := hs.1.2 trivial
  simp only [Op.exec] at hexec
  cases hfile : x.fs (s'.blockPath id') with
  | none =>
      rw [hfile] at hexec
      cases hexec
      refine ⟨hR.refl x, fun z hz v hv => ?_⟩
      have hxv : Mv s id x v := hR.trans hz hv
      refine ⟨hR.trans hx hxv, fun _ hs' hid => ?_⟩
      have hbloom := hs.2 s' id' rfl hfile
      rw [hs', hid] at hfile hbloom
      exact Gone.mv (Or.inr ⟨hfile, hbloom⟩) hxv
  | some content =>
      rw [hfile] at hexec
      cases hexec
      refine ⟨hR.refl x, fun z hz v hv => ⟨hR.trans hx (hR.trans hz hv), fun hr => ?_⟩⟩
      cases hr

end Ops

/-! ## The sweeps -/

/-- One entry of a sweep. Where `body` is called for the block, it is called
with the store that the block is on. -/
theorem sweeps_sweepEntry {tiers : Tier → Option LocalStore} (htiers : tiers bm.tier = some s)
    {e : ExpiredEntry} {body : LocalStore → Go Unit} {rest : Go Unit}
    (hbody : ∀ s' x, Known id bm x → (e.id = id → s' = s ∨ Gone s id x) →
      Sweeps s id (body s').run (fun _ _ => True) x)
    (hrest : ∀ x, Known id bm x → Sweeps s id rest.run (fun _ _ => True) x)
    (hw : Known id bm w) :
    Sweeps s id (sweepEntry tiers e body rest).run (fun _ _ => True) w := by
  have hR := rely_mv s id
  refine follows_bindE hR ((sweeps_ctxErr s id w).mono fun r x hx => ?_)
  cases r with
  | error _ => exact fun _ _ => trivial
  | ok cancelled =>
      cases cancelled with
      | true => exact fun _ _ => trivial
      | false =>
          have hx := hw.mv hx
          refine follows_bindE hR ((sweeps_getBlockMeta hx).mono fun r y hy => ?_)
          obtain ⟨hxy, res, rfl, hres⟩ := hy
          have hy := hx.mv hxy
          cases res with
          | error err =>
              have hgone : e.id = id → Gone s id y := fun hid =>
                Or.inl ((hres hid).resolve_left (by simp))
              refine follows_bindE hR (follows_bind hR
                ((sweeps_deleteBlockAndExpiry hgone).mono fun r z hz => ?_))
              exact fun v hv => hrest v ((hy.mv hz).mv hv)
          | ok m =>
              dsimp only [OnResult]
              cases hstore : tiers m.tier with
              | none => exact hrest y hy
              | some s' =>
                  refine hbody s' y hy fun hid => ?_
                  rcases hres hid with hm | hnone
                  · cases hm
                    rw [htiers] at hstore
                    cases hstore
                    exact Or.inl rfl
                  · exact Or.inr (Or.inl hnone)

/-- The reaper deletes the keys of a block after its files. -/
theorem sweeps_reapEntries {cfg : ReaperConfig} (hcfg : cfg.tiers bm.tier = some s)
    (entries : List ExpiredEntry) (hw : Known id bm w) :
    Sweeps s id (reapEntries cfg entries).run (fun _ _ => True) w := by
  have hR := rely_mv s id
  induction entries generalizing w with
  | nil => exact fun _ _ => trivial
  | cons e rest ih =>
      rw [reapEntries_cons]
      refine sweeps_sweepEntry hcfg (fun s' x hx hstore => ?_) (fun x hx => ih hx) hw
      refine follows_bindE hR ((sweeps_delete s' e.id x).mono fun r y hy => ?_)
      obtain ⟨hxy, hdel⟩ := hy
      cases r with
      | error _ => exact fun _ _ => trivial
      | ok u =>
          have hgone : e.id = id → Gone s id y := by
            intro hid
            rcases hstore hid with hs | hgone
            · exact hdel rfl hs hid
            · exact hgone.mv hxy
          have hy := hx.mv hxy
          refine follows_bindE hR ((sweeps_deleteBlockAndExpiry hgone).mono fun r z hz => ?_)
          cases r with
          | error _ => exact fun _ _ => trivial
          | ok u =>
              have hz := hy.mv hz
              refine follows_bindE hR ((sweeps_ctxErr s id z).mono fun r v hv => ?_)
              cases r with
              | error _ => exact fun _ _ => trivial
              | ok cancelled =>
                  cases cancelled with
                  | true => exact fun _ _ => trivial
                  | false => exact ih (hz.mv hv)

/-- The janitor deletes the keys of a block that has no files. -/
theorem sweeps_cleanEntries {cfg : JanitorConfig} (hcfg : cfg.tiers bm.tier = some s)
    (entries : List ExpiredEntry) (hw : Known id bm w) :
    Sweeps s id (cleanEntries cfg entries).run (fun _ _ => True) w := by
  have hR := rely_mv s id
  induction entries generalizing w with
  | nil => exact fun _ _ => trivial
  | cons e rest ih =>
      rw [cleanEntries_cons]
      refine sweeps_sweepEntry hcfg (fun s' x hx hstore => ?_) (fun x hx => ih hx) hw
      refine follows_bindE hR ((sweeps_exists s' e.id x).mono fun r y hy => ?_)
      obtain ⟨hxy, hex⟩ := hy
      have hy := hx.mv hxy
      cases r with
      | error _ => exact fun _ _ => trivial
      | ok exist =>
          cases exist with
          | true => exact ih hy
          | false =>
              have hgone : e.id = id → Gone s id y := by
                intro hid
                rcases hstore hid with hs | hgone
                · exact hex rfl hs hid
                · exact hgone.mv hxy
              refine follows_bindE hR ((sweeps_deleteBlockAndExpiry hgone).mono fun r z hz => ?_)
              cases r with
              | error _ => exact fun _ _ => trivial
              | ok u => exact ih (hy.mv hz)

/-- The clock reading and the scan touch nothing. -/
theorem sweeps_sweep {loop : List ExpiredEntry → Go Unit}
    (hloop : ∀ entries x, Known id bm x → Sweeps s id (loop entries).run (fun _ _ => True) x)
    (hw : Known id bm w) : Sweeps s id (sweep loop).run (fun _ _ => True) w := by
  have hR := rely_mv s id
  refine follows_bindE hR (follows_bind hR (follows_call fun x hx t y hs => ?_))
  have hxy : Mv s id x y := by
    rcases hs.1.1 with hs | ⟨-, rfl⟩
    · cases hs
      exact hR.refl x
    · exact mv_of_same rfl rfl
  refine ⟨hxy, fun z hz v hv => follows_bindE hR (follows_bindE hR
    (follows_call fun x' hx' res y' hs' => ?_))⟩
  have hsame : y' = x' := by
    have hexec := hs'.1.2 trivial
    cases hexec
    rfl
  rw [hsame]
  refine ⟨hR.refl x', fun u hu => ?_⟩
  cases res with
  | error _ => exact fun _ _ _ _ => trivial
  | ok l =>
      intro u' hu'
      exact hloop _ u' ((((((hw.mv hx).mv hxy).mv hz).mv hv).mv hx').mv (hR.trans hu hu'))

/-! ## All together -/

section System

variable {ι : Type} {jobs : ι → Sweep}

/-- The runs of the system, with operations by `sem'`. -/
abbrev SweepReach (sem' : Sem machine World) (jobs : ι → Sweep) :
    Pool machine World ι → Pool machine World ι → Prop :=
  Pool.Reach sem' (fun i => (jobs i).text) Tick World.Crash

theorem mv_of_crash (hp : PendingIdx x.db) (h : x.Crash y) : Mv s id x y := by
  refine ⟨fun _ => ?_, Or.inl (by rw [h.fs]), Or.inl (by rw [h.fs]), Or.inl ?_⟩
  · obtain ⟨n, hdb⟩ := h.db
    rw [hdb]
    exact fun b hb => absurd hb List.not_mem_nil
  · exact get_view_crash hp h.db (by rw [family_blockKey]; decide)

theorem mv_of_tick (h : Tick x y) : Mv s id x y := by
  obtain ⟨t, -, rfl⟩ := h
  exact mv_of_same rfl rfl

theorem contract_sweeps (hjobs : ∀ i, (jobs i).tiers bm.tier = some s) :
    Pool.Contract semChecked (fun i => (jobs i).text) Tick World.Crash (fun _ => Mv s id)
      (fun _ => Mv s id) (fun _ w => PendingIdx w.db ∧ Known id bm w) where
  rely _ := rely_mv s id
  others _ h := h
  env := mv_of_tick
  start := by
    intro i w hw
    have htiers := hjobs i
    cases hj : jobs i with
    | reap cfg =>
        rw [hj] at htiers
        exact (sweeps_sweep (fun l x hx => sweeps_reapEntries htiers l hx) hw.2).void (rely_mv s id)
    | clean cfg =>
        rw [hj] at htiers
        exact (sweeps_sweep (fun l x hx => sweeps_cleanEntries htiers l hx) hw.2).void
          (rely_mv s id)
  ready h hw := ⟨h.pending hw.1, hw.2.mv h⟩
  crash h hw := by
    have hm : Mv s id _ _ := mv_of_crash hw.1 h
    exact ⟨hm.pending hw.1, hw.2.mv hm⟩

/-- **No file outlives the keys of its block**, in every run of reaper cycles
and janitor sweeps without read errors in which a block that the janitor finds
without block file has no bloom file either. -/
theorem deleted_block_leaves_no_files (jobs : ι → Sweep) (s : LocalStore) (id : BlockID)
    (bm : BlockMeta) (hjobs : ∀ i, (jobs i).tiers bm.tier = some s) (w : World)
    (hpending : PendingIdx w.db)
    (hblk : w.db.view.get (blockKey id) = some (encodeBlockMeta bm))
    (c : Pool machine World ι) (h : SweepReach semChecked jobs ⟨w, [], []⟩ c)
    (hdel : c.world.db.view.get (blockKey id) = none) :
    c.world.fs (s.blockPath id) = none ∧ c.world.fs (s.bloomPath id) = none := by
  have hknown : Known id bm w := by
    intro val hval
    rw [hblk] at hval
    cases hval
    rfl
  have hstart : Pool.Follow semChecked (fun _ => Mv s id) (fun _ => Mv s id)
      (fun _ w => PendingIdx w.db ∧ Known id bm w) (⟨w, [], []⟩ : Pool machine World ι) := by
    refine ⟨List.nodup_nil, ?_, ?_, fun _ _ => ⟨hpending, hknown⟩⟩
    · exact fun p hp => absurd hp List.not_mem_nil
    · exact fun p hp => absurd hp List.not_mem_nil
  -- every step of the run is a move, crashes included
  let K : World → World → Prop := fun x y => PendingIdx x.db → Mv s id x y
  have hK : Rely K := by
    refine ⟨fun x _ => (rely_mv s id).refl x, fun hab hbc ha => ?_⟩
    exact (rely_mv s id).trans (hab ha) (hbc ((hab ha).pending ha))
  have hmoves : ∀ {x y : World}, Pool.Moves Tick World.Crash (fun _ : ι => Mv s id) x y → K x y := by
    rintro x y (rfl | ⟨-, hm⟩ | ht | hc) hp
    · exact (rely_mv s id).refl x
    · exact hm
    · exact mv_of_tick ht
    · exact mv_of_crash hp hc
  obtain ⟨-, hk⟩ := hstart.reach (contract_sweeps hjobs) hK hmoves h
  rcases (hk hpending).blk with hsame | ⟨-, hfiles⟩
  · rw [hdel, hblk] at hsame
    cases hsame
  · exact hfiles

end System

/-- A reaper and a janitor. -/
def reapAndClean : Bool → Sweep
  | true => .reap ⟨fun _ => some oneRow.store⟩
  | false => .clean ⟨fun _ => some oneRow.store⟩

theorem semReads_exec (o : Op) (w : World) : semReads o w (o.exec w).1 (o.exec w).2 :=
  ⟨Or.inl rfl, fun _ => rfl⟩

theorem semChecked_exec {o : Op} (ho : ∀ p, o ≠ .stat p) (w : World) :
    semChecked o w (o.exec w).1 (o.exec w).2 :=
  ⟨semReads_exec o w, fun _ _ h => absurd h (ho _)⟩

/-- Whether the operation is a `Stat`. -/
def isStat : Op → Bool
  | .stat _ => true
  | _ => false

set_option maxRecDepth 100000 in
/-- The reaper alone, from the sealed block to the end of its cycle. -/
theorem deleted_block_leaves_no_files_oneRow :
    let w := (advance Op.exec 8 (reapAndClean true).text oneRowExpired).2
    w.db.view.get (blockKey oneRow.blockID) = none ∧ w.fs oneRow.blockPath = none ∧
      w.fs oneRow.bloomPath = none := by
  have hexpired : Tick oneRowSealed oneRowExpired := ⟨43800 * hour, by decide +kernel, rfl⟩
  have hstats : (visits Op.exec 8 (reapAndClean true).text oneRowExpired).all
      (fun q => !isStat q.1) = true := by decide +kernel
  have hreach : SweepReach semChecked reapAndClean ⟨oneRowSealed, [], []⟩
      ⟨(advance Op.exec 8 (reapAndClean true).text oneRowExpired).2,
        [(true, (advance Op.exec 8 (reapAndClean true).text oneRowExpired).1)], [true]⟩ := by
    refine .head (.env hexpired) (.head (.spawn (i := true) List.not_mem_nil) ?_)
    refine Pool.reach_advance fun q hq => semChecked_exec (fun p hp => ?_) q.2
    have hq := List.all_eq_true.mp hstats q hq
    rw [hp] at hq
    cases hq
  have hdel : (advance Op.exec 8 (reapAndClean true).text oneRowExpired).2.db.view.get
      (blockKey oneRow.blockID) = none := by decide +kernel
  refine ⟨hdel, deleted_block_leaves_no_files reapAndClean oneRow.store oneRow.blockID
    (oneRow.blockMeta Libs.plain) ?_ oneRowSealed ?_ ?_ _ hreach hdel⟩
  · rintro (_ | _)
    · rfl
    · rfl
  · have hnil : oneRowSealed.db.pending = [] := by decide +kernel
    intro b hb
    rw [hnil] at hb
    exact absurd hb List.not_mem_nil
  · decide +kernel

/-! ## The orphan -/

/-- The reaper has removed the block file, then the process crashed. -/
def oneRowHalf : World :=
  (advance Op.exec 5 (reapAndClean true).text oneRowExpired).2.syncedOnly

set_option maxRecDepth 100000 in
/-- **After a crash between the two removals of `Delete`, the janitor deletes
the keys of the block and its bloom file stays.** Nothing failed to be read. -/
theorem janitor_orphans_bloom :
    oneRowSealed.db.view.get (blockKey oneRow.blockID) =
      some (encodeBlockMeta (oneRow.blockMeta Libs.plain)) ∧ oneRowSealed.db.pending = [] ∧
    ∃ c : Pool machine World Bool, SweepReach semReads reapAndClean ⟨oneRowSealed, [], []⟩ c ∧
      c.world.db.view.get (blockKey oneRow.blockID) = none ∧
      (c.world.fs (oneRow.store.bloomPath oneRow.blockID)).isSome := by
  refine ⟨by decide +kernel, by decide +kernel,
    ⟨(advance Op.exec 6 (reapAndClean false).text oneRowHalf).2,
      [(false, (advance Op.exec 6 (reapAndClean false).text oneRowHalf).1)], [false, true]⟩,
    ?_, by decide +kernel, by decide +kernel⟩
  have hexec : ∀ {n : Nat} {p : Proc Unit} {w : World}, ∀ q ∈ visits Op.exec n p w,
      semReads q.1 q.2 (Op.exec q.1 q.2).1 (Op.exec q.1 q.2).2 := fun q _ => semReads_exec q.1 q.2
  have hexpired : Tick oneRowSealed oneRowExpired := ⟨43800 * hour, by decide +kernel, rfl⟩
  have hcrash : (advance Op.exec 5 (reapAndClean true).text oneRowExpired).2.Crash oneRowHalf :=
    World.crash_syncedOnly _
  refine .head (.env hexpired) (.head (.spawn (i := true) List.not_mem_nil) ?_)
  refine (Pool.reach_advance (n := 5) hexec).trans (.head (.crash hcrash) ?_)
  exact .head (.spawn (i := false) (by decide)) (Pool.reach_advance hexec)

end Bbdb.Ttl
