import Bbdb.Query.Appears
import Bbdb.Ttl.Orphans

/-!
# Query — while expired blocks are deleted

A store is filled, queried and swept over a long time: `Aged` are the states
that seals of different blocks, reaper cycles and janitor sweeps, queries that
run at the same time and crashes lead to. A sweep may be in the middle of its
work.

In such a state a query can fail: the reaper removes the block file first, and
a query that has read the metadata before finds no file
(`reaped_block_fails_query`). As long as the block files it opens are there,
it returns the wanted rows of every block that has not expired
(`query_while_reaping`).

What a sweep can do is one relation, `Sweeping`: files and keys stay or go,
index keys stay, and nothing of a live block changes.
-/

namespace Bbdb.Query

open Bbdb.Block Bbdb.Meta Bbdb.Tier Bbdb.Index Bbdb.Ttl GoTime
open Prog hiding pure bind

variable {libs : Libs} {eng : Engine} {st : LocalStore} {A : List SealRequest} {r : SealRequest}
  {w x y : World}

/-! ## What a sweep does -/

/-- Files and keys stay or go; index keys stay. -/
structure Erodes (x y : World) : Prop where
  fs : ∀ p, y.fs p = x.fs p ∨ y.fs p = none
  idx : ∀ et kh id, y.db.view.get (idxKey et kh id) = x.db.view.get (idxKey et kh id)
  blk : ∀ id, y.db.view.get (blockKey id) = x.db.view.get (blockKey id) ∨
    y.db.view.get (blockKey id) = none
  exp : ∀ h id, y.db.view.get (expiryKey h id) = x.db.view.get (expiryKey h id) ∨
    y.db.view.get (expiryKey h id) = none
  pending : PendingIdx x.db → PendingIdx y.db
  synced : PendingIdx x.db → ∀ et kh id, (x.db.synced.get (idxKey et kh id)).isSome →
    (y.db.synced.get (idxKey et kh id)).isSome
  clock : x.clock ≤ y.clock

theorem rely_erodes : Rely Erodes where
  refl x := ⟨fun _ => Or.inl rfl, fun _ _ _ => rfl, fun _ => Or.inl rfl, fun _ _ => Or.inl rfl,
    fun h => h, fun _ _ _ _ h => h, le_refl _⟩
  trans {a b c} h₁ h₂ := by
    have hstep : ∀ {α : Type} {va vb vc : Option α}, vb = va ∨ vb = none → vc = vb ∨ vc = none →
        vc = va ∨ vc = none := by
      rintro α va vb vc h (rfl | h')
      · exact h
      · exact Or.inr h'
    exact ⟨fun p => hstep (h₁.fs p) (h₂.fs p),
      fun et kh id => (h₂.idx et kh id).trans (h₁.idx et kh id),
      fun id => hstep (h₁.blk id) (h₂.blk id), fun h id => hstep (h₁.exp h id) (h₂.exp h id),
      fun h => h₂.pending (h₁.pending h),
      fun h et kh id hk => h₂.synced (h₁.pending h) et kh id (h₁.synced h et kh id hk),
      h₁.clock.trans h₂.clock⟩

/-- The operations of a sweep. -/
def SweepCalls : Op → Prop
  | .now | .ctxErr | .get _ | .stat _ | .iter _ _ | .remove _ => True
  | .commit b sync => sync = true ∧ ∃ h id, b = deleteOps h id
  | _ => False

/-- The deletion of the keys of a block. -/
theorem erodes_commit (x : World) (h : UInt64) (id : BlockID) :
    Erodes x (x.commit (deleteOps h id) true) := by
  have hkeys : ∀ k, (x.commit (deleteOps h id) true).db.view.get k = x.db.view.get k ∨
      (x.commit (deleteOps h id) true).db.view.get k = none := by
    intro k
    rw [World.commit_db, Pebble.view_commit, get_deleteOps]
    split_ifs
    · exact Or.inr rfl
    · exact Or.inl rfl
  have hidx : ∀ et kh id', (x.commit (deleteOps h id) true).db.view.get (idxKey et kh id') =
      x.db.view.get (idxKey et kh id') := by
    intro et kh id'
    rw [World.commit_db, Pebble.view_commit, get_deleteOps_idxKey]
  refine ⟨fun _ => Or.inl rfl, hidx, fun _ => hkeys _, fun _ _ => hkeys _,
    fun _ b hb => absurd hb List.not_mem_nil, fun hp et kh id' hk => ?_, le_refl _⟩
  -- what was synced is in the view, and the view is synced now
  have hview : (x.db.view.get (idxKey et kh id')).isSome := isSome_idxBatches hp _ hk
  rw [← hidx] at hview
  exact hview

theorem erodes_of_sem {o : Op} {res : o.Res} (ho : SweepCalls o) (h : sem o x res y) :
    Erodes x y := by
  have hsame : y.db = x.db → (∀ p, y.fs p = x.fs p ∨ y.fs p = none) → x.clock ≤ y.clock →
      Erodes x y := by
    intro hdb hfs hclock
    refine ⟨hfs, ?_, ?_, ?_, ?_, ?_, hclock⟩
    · exact fun _ _ _ => by rw [hdb]
    · exact fun _ => Or.inl (by rw [hdb])
    · exact fun _ _ => Or.inl (by rw [hdb])
    · exact fun hp => by rwa [hdb]
    · exact fun _ _ _ _ hk => by rwa [hdb]
  have he := sem_effect h
  cases o with
  | commit b sync =>
      obtain ⟨rfl, n, id, rfl⟩ := ho
      rcases h with h | ⟨-, rfl⟩
      · cases h
        exact erodes_commit x n id
      · exact rely_erodes.refl _
  | remove p =>
      rcases h with h | ⟨-, rfl⟩
      · simp only [Op.exec] at h
        cases hfile : x.fs p with
        | none =>
            rw [hfile] at h
            cases h
            exact rely_erodes.refl _
        | some _ =>
            rw [hfile] at h
            cases h
            refine hsame rfl (fun q => ?_) (le_refl _)
            by_cases hq : q = p
            · exact Or.inr (by rw [hq, World.setFile_fs, FS.put_self])
            · exact Or.inl (FS.put_ne _ _ hq)
      · exact rely_erodes.refl _
  | now | ctxErr | get _ | stat _ | iter _ _ =>
      refine hsame ?_ (fun q => Or.inl (he.files q fun ht => ht)) he.clock
      rcases he.db with hdb | ⟨b, sync, ho, -⟩
      · exact hdb
      · cases ho
  | _ => exact ho.elim

theorem calls_sweep {loop : List ExpiredEntry → Go Unit}
    (hloop : ∀ {entries : List ExpiredEntry}, Calls (S := machine) SweepCalls (loop entries).run) :
    Calls (S := machine) SweepCalls (sweep loop).run := by
  refine calls_bindE (calls_bind (calls_call.mpr trivial) fun _ => calls_pure _) fun t => ?_
  refine calls_bindE (calls_bindE (calls_call.mpr trivial) fun _ => calls_pure _) fun entries => ?_
  exact hloop

theorem sweepCalls_of_reapCalls {cfg : ReaperConfig} {E : ExpiredEntry → Prop} {o : Op}
    (h : ReapCalls cfg E o) : SweepCalls o := by
  cases o with
  | ctxErr | get _ | stat _ | remove _ => trivial
  | commit b sync =>
      obtain ⟨rfl, e, -, rfl⟩ := h
      exact ⟨rfl, e.hour, e.id, rfl⟩
  | _ => exact h.elim

theorem calls_sweepText (job : Sweep) : Calls (S := machine) SweepCalls job.text := by
  cases job with
  | reap cfg =>
      refine calls_bind (calls_sweep ?_) fun _ => calls_pure _
      exact (calls_reapEntries (E := fun _ => True) fun _ _ => trivial).mono fun _ =>
        sweepCalls_of_reapCalls
  | clean cfg =>
      refine calls_bind (calls_sweep ?_) fun _ => calls_pure _
      intro entries
      have hclean : Calls (S := machine) (ReapCalls ⟨fun _ => none⟩ fun _ => True)
          (cleanEntries cfg entries).run := calls_cleanEntries fun _ _ => trivial
      exact hclean.mono fun _ => sweepCalls_of_reapCalls

/-! ## The state of the store -/

/-- What there may be of a block, from its `Seal` to its deletion. -/
structure BlockOK (libs : Libs) (w : World) (r : SealRequest) : Prop where
  named : Named w r → HasBloom libs w r ∨ w.fs r.bloomPath = none
  blk : HasMeta libs w r ∨ w.db.view.get (blockKey r.blockID) = none
  file : HasMeta libs w r → HasFile libs w r ∨ w.fs r.blockPath = none
  live : HasMeta libs w r → Live r w → Present libs w r
  synced : HasMeta libs w r → ∀ e ∈ r.memtable.rows,
    (w.db.synced.get (idxKey r.eventType e.keyHash r.blockID)).isSome

/-- A store whose keys are those of the blocks in `A`. -/
structure Stock (libs : Libs) (st : LocalStore) (A : List SealRequest) (w : World) : Prop where
  catalog : Catalog st A
  index : ∀ et kh id, (w.db.view.get (idxKey et kh id)).isSome →
    ∃ r ∈ A, r.blockID = id ∧ r.eventType = et
  metas : ∀ id, (w.db.view.get (blockKey id)).isSome → ∃ r ∈ A, r.blockID = id
  exps : ∀ h id, (w.db.view.get (expiryKey h id)).isSome →
    ∃ r ∈ A, r.blockID = id ∧ h = r.expiryHour
  pending : PendingIdx w.db
  clock : 0 ≤ w.clock
  blocks : ∀ r ∈ A, BlockOK libs w r

theorem Stock.base (h : Stock libs st A w) (hr : r ∈ A) : BlockBase r w := by
  refine ⟨h.pending, h.clock, fun n hn => ?_⟩
  obtain ⟨r', hr', hid, hexp⟩ := h.exps n _ hn
  rwa [h.catalog.eq_of_id hr' hr hid] at hexp

/-- One operation of a sweep: nothing of a live block changes. -/
structure Sweeping (A : List SealRequest) (x y : World) : Prop where
  erodes : Erodes x y
  live : ∀ r ∈ A, Live r y → Untouched r x y

theorem rely_sweeping (A : List SealRequest) : Rely (Sweeping A) where
  refl x := ⟨rely_erodes.refl x, fun r _ _ => ((rely_keep r).refl x).toUntouched⟩
  trans {a b c} h₁ h₂ := by
    refine ⟨rely_erodes.trans h₁.erodes h₂.erodes, fun r hr hl => ?_⟩
    have hab := h₁.live r hr (hl.of_le h₂.erodes.clock)
    have hbc := h₂.live r hr hl
    exact ⟨fun p hp => (hbc.files p hp).trans (hab.files p hp), hbc.blk.trans hab.blk,
      fun n => (hbc.exp n).trans (hab.exp n)⟩

theorem rely_tick : Rely Tick where
  refl x := ⟨x.clock, le_refl _, rfl⟩
  trans := by
    rintro a b c ⟨t, ht, rfl⟩ ⟨t', ht', rfl⟩
    exact ⟨t', ht.trans ht', rfl⟩

/-- **Every operation of a sweep**, from a store with the blocks of `A`. -/
theorem follows_sweepText (h : Stock libs st A w) (job : Sweep) :
    Follows sem Tick (Sweeping A) job.text (fun _ _ => True) w := by
  have herodes : Follows sem Tick Erodes job.text (fun _ _ => True) w :=
    (calls_sweepText job).follows (fun _ _ => trivial)
      (fun o x res y ho _ hs => ⟨erodes_of_sem ho hs, trivial⟩) trivial
  have hlive : Follows sem Tick (fun x y => ∀ r, r ∈ A → Live r y → Keep r x y) job.text
      (fun _ _ => True) w := by
    refine Follows.all fun r hr => ?_
    refine Follows.of_within (fun hs hl => hl.of_le (sem_effect hs).clock)
      (fun ht hl => hl.of_le (keep_of_tick (r := r) ht).clock) fun _ => ?_
    have hcommon : ∀ {x y : World}, Tick x y → Common r x y := fun ht =>
      (keep_of_tick ht).toCommon
    cases job with
    | reap cfg =>
        exact ((follows_sweep cfg calls_reapEntries (h.base hr)).void (rely_common r)).weaken
          hcommon fun hk => hk
    | clean cfg =>
        exact ((follows_sweep ⟨fun _ => none⟩ calls_cleanEntries (h.base hr)).void
          (rely_common r)).weaken hcommon fun hk => hk
  refine ((herodes.and hlive).weaken (fun he => he) fun hg => ?_).mono fun _ _ _ => trivial
  exact ⟨hg.1, fun r hr hl => (hg.2 r hr hl).toUntouched⟩

theorem named_iff (h : Erodes x y) : Named y r ↔ Named x r := by
  unfold Named
  simp only [h.idx]

/-- **A sweep keeps the store in order.** -/
theorem BlockOK.swept (h : BlockOK libs x r) (he : Erodes x y) (hp : PendingIdx x.db)
    (hl : Live r y → Untouched r x y) : BlockOK libs y r := by
  have hmeta : HasMeta libs y r → HasMeta libs x r := by
    intro hm
    rcases he.blk r.blockID with hb | hb
    · rwa [HasMeta, ← hb]
    · rw [HasMeta, hb] at hm
      cases hm
  refine ⟨fun hn => ?_, ?_, fun hm => ?_, fun hm hlive => ?_, fun hm e hmem => ?_⟩
  · rcases he.fs r.bloomPath with hsame | hnone
    · rcases h.named ((named_iff he).mp hn) with hb | hb
      · exact Or.inl (hb.of_file hsame)
      · exact Or.inr (hsame.trans hb)
    · exact Or.inr hnone
  · rcases he.blk r.blockID with hsame | hnone
    · rcases h.blk with hm | hn
      · exact Or.inl (hsame.trans hm)
      · exact Or.inr (hsame.trans hn)
    · exact Or.inr hnone
  · rcases he.fs r.blockPath with hsame | hnone
    · rcases h.file (hmeta hm) with hf | hf
      · exact Or.inl ⟨hsame.trans hf.1, hf.2⟩
      · exact Or.inr (hsame.trans hf)
    · exact Or.inr hnone
  · -- a live block is untouched
    have hu := hl hlive
    have hpresent := h.live (hmeta hm) (hlive.of_le he.clock)
    refine ⟨hpresent.bloom.of_file (hu.files _ (by simp [files])),
      ⟨(hu.files _ (by simp [files])).trans hpresent.file.1, hpresent.file.2⟩, hm, fun e hmem => ?_⟩
    rw [he.idx]
    exact hpresent.indexed e hmem
  · exact he.synced hp _ _ _ (h.synced (hmeta hm) e hmem)

theorem Stock.swept (h : Stock libs st A x) (hs : Sweeping A x y) : Stock libs st A y := by
  have he := hs.erodes
  refine ⟨h.catalog, fun et kh id hk => h.index et kh id (by rwa [he.idx] at hk),
    fun id hk => ?_, fun n id hk => ?_, he.pending h.pending, h.clock.trans he.clock,
    fun r hr => (h.blocks r hr).swept he h.pending (hs.live r hr)⟩
  · rcases he.blk id with hb | hb
    · exact h.metas id (by rwa [hb] at hk)
    · rw [hb] at hk
      cases hk
  · rcases he.exp n id with hb | hb
    · exact h.exps n id (by rwa [hb] at hk)
    · rw [hb] at hk
      cases hk

/-! ## Crashes and time -/

/-- A crash keeps what was synced. -/
theorem BlockOK.crashed (h : BlockOK libs x r) (hp : PendingIdx x.db) (hc : x.Crash y) :
    BlockOK libs y r := by
  have hblk : y.db.view.get (blockKey r.blockID) = x.db.view.get (blockKey r.blockID) :=
    get_view_crash hp hc.db (by rw [family_blockKey]; decide)
  have hmeta : HasMeta libs y r ↔ HasMeta libs x r := by rw [HasMeta, HasMeta, hblk]
  have hfs : ∀ p, y.fs p = x.fs p := fun p => by rw [hc.fs]
  have hsynced : HasMeta libs x r → ∀ e ∈ r.memtable.rows,
      (y.db.synced.get (idxKey r.eventType e.keyHash r.blockID)).isSome := by
    intro hm e hmem
    obtain ⟨n, hdb⟩ := hc.db
    rw [hdb]
    exact isSome_idxBatches (fun b hb => hp b (List.mem_of_mem_take hb)) _ (h.synced hm e hmem)
  refine ⟨fun hn => ?_, ?_, fun hm => ?_, fun hm hlive => ?_, fun hm => hsynced (hmeta.mp hm)⟩
  · have hnamed : Named x r := by
      obtain ⟨et, kh, hk⟩ := hn
      exact ⟨et, kh, isSome_of_crash hp hc.db hk⟩
    rw [hfs]
    exact (h.named hnamed).imp_left fun hb => hb.of_file (hfs _)
  · rw [hmeta, hblk]
    exact h.blk
  · rw [hfs]
    exact (h.file (hmeta.mp hm)).imp_left fun hf => ⟨(hfs _).trans hf.1, hf.2⟩
  · have hp' := h.live (hmeta.mp hm) (hlive.of_le hc.clock)
    refine ⟨hp'.bloom.of_file (hfs _), ⟨(hfs _).trans hp'.file.1, hp'.file.2⟩, hm,
      fun e hmem => ?_⟩
    obtain ⟨n, hdb⟩ := hc.db
    have hs := hsynced (hmeta.mp hm) e hmem
    rw [hdb] at hs ⊢
    exact hs

theorem Stock.crashed (h : Stock libs st A x) (hc : x.Crash y) : Stock libs st A y := by
  have hp := h.pending
  refine ⟨h.catalog, fun et kh id hk => h.index et kh id (isSome_of_crash hp hc.db hk),
    fun id hk => ?_, fun n id hk => ?_, ?_, h.clock.trans hc.clock,
    fun r hr => (h.blocks r hr).crashed hp hc⟩
  · rw [get_view_crash hp hc.db (by rw [family_blockKey]; decide)] at hk
    exact h.metas id hk
  · rw [get_view_crash hp hc.db (by rw [family_expiryKey]; decide)] at hk
    exact h.exps n id hk
  · obtain ⟨n, hdb⟩ := hc.db
    rw [hdb]
    exact fun b hb => absurd hb List.not_mem_nil

theorem sweeping_of_tick (h : Tick x y) : Sweeping A x y := by
  obtain ⟨t, ht, rfl⟩ := h
  refine ⟨?_, fun r _ _ => ⟨fun _ _ => rfl, rfl, fun _ => rfl⟩⟩
  exact ⟨fun _ => Or.inl rfl, fun _ _ _ => rfl, fun _ => Or.inl rfl, fun _ _ => Or.inl rfl,
    fun hp => hp, fun _ _ _ _ hk => hk, ht⟩

/-! ## Seals -/

/-- Another block is sealed. -/
theorem BlockOK.beside (h : BlockOK libs x r) {id : BlockID} (hne : r.blockID ≠ id)
    (hb : Beside id x y) (hclock : x.clock ≤ y.clock)
    (hs : ∀ et kh, (x.db.synced.get (idxKey et kh r.blockID)).isSome →
      (y.db.synced.get (idxKey et kh r.blockID)).isSome) : BlockOK libs y r := by
  have hblk := hb.blk _ hne
  have hmeta : HasMeta libs y r ↔ HasMeta libs x r := by rw [HasMeta, HasMeta, hblk]
  have hbloom : y.fs r.bloomPath = x.fs r.bloomPath := hb.bloom _ _ hne
  have hfile : y.fs r.blockPath = x.fs r.blockPath := hb.block _ _ hne
  refine ⟨fun hn => ?_, ?_, fun hm => ?_, fun hm hl => ?_, fun hm e hmem => ?_⟩
  · have hnamed : Named x r := by
      obtain ⟨et, kh, hk⟩ := hn
      exact ⟨et, kh, by rwa [hb.idx _ _ _ hne] at hk⟩
    rw [hbloom]
    exact (h.named hnamed).imp_left fun hb => hb.of_file hbloom
  · rw [hmeta, hblk]
    exact h.blk
  · rw [hfile]
    exact (h.file (hmeta.mp hm)).imp_left fun hf => ⟨hfile.trans hf.1, hf.2⟩
  · exact hb.present hne (h.live (hmeta.mp hm) (hl.of_le hclock))
  · exact hs _ _ (h.synced (hmeta.mp hm) e hmem)

/-- **A `Seal`**, as far as it has come, adds its block to the store. -/
theorem Stock.sealed (h : Stock libs st A w) (hstore : r.store = st)
    (hnew : r.blockID ∉ A.map SealRequest.blockID)
    (hpayloads : ∀ e ∈ r.memtable.rows, e.payload.length < 2 ^ 32)
    (hrun : SealReaches libs r w x) : Stock libs st (A ++ [r]) x := by
  have hne : ∀ r' ∈ A, r'.blockID ≠ r.blockID := fun r' hr' he =>
    hnew (he ▸ List.mem_map_of_mem hr')
  have hunknown : Unknown r w := by
    refine ⟨fun et kh => ?_, ?_⟩
    · by_contra hk
      obtain ⟨r', hr', he, -⟩ := h.index et kh _ (Option.isSome_iff_ne_none.mpr hk)
      exact hne r' hr' he
    · by_contra hk
      obtain ⟨r', hr', he⟩ := h.metas _ (Option.isSome_iff_ne_none.mpr hk)
      exact hne r' hr' he
  have hgrows := grows_of_reaches hunknown hrun
  have hbeside := hgrows.beside
  have hstage := hgrows.stage hunknown.stage
  have hclock := clock_of_reaches hrun
  have hkeys := sealKeys_of_reaches h.pending hrun
  have hmine : r ∈ A ++ [r] := List.mem_append_right _ (List.mem_singleton_self r)
  -- the new block: there is no metadata of it, or everything
  have hpresent : HasMeta libs x r → Present libs x r := by
    intro hm
    rcases hstage.blk with hnone | hp
    · rw [HasMeta, hnone] at hm
      cases hm
    · exact hp
  have hok : BlockOK libs x r := by
    refine ⟨fun hn => Or.inl (hstage.named hn), ?_, fun hm => Or.inl (hpresent hm).file,
      fun hm _ => hpresent hm, fun hm e hmem => ?_⟩
    · exact (hstage.blk.imp_right fun hp => hp.blk).symm
    · rcases hkeys.blk with hsame | hall
      · rw [HasMeta, hsame, hunknown.blk] at hm
        cases hm
      · rw [hall]
        exact (hpresent hm).indexed e hmem
  refine ⟨h.catalog.append hstore hnew hpayloads, fun et kh id hk => ?_, fun id hk => ?_,
    fun n id hk => ?_, hkeys.pending, h.clock.trans hclock, fun r' hr' => ?_⟩
  · by_cases hid : id = r.blockID
    · subst hid
      exact ⟨r, hmine, rfl, (hstage.type et kh hk).symm⟩
    · rw [hbeside.idx et kh id hid] at hk
      obtain ⟨r', hr', he⟩ := h.index et kh id hk
      exact ⟨r', List.mem_append_left _ hr', he⟩
  · by_cases hid : id = r.blockID
    · exact ⟨r, hmine, hid.symm⟩
    · rw [hbeside.blk id hid] at hk
      obtain ⟨r', hr', he⟩ := h.metas id hk
      exact ⟨r', List.mem_append_left _ hr', he⟩
  · rcases hkeys.exps n id hk with hk | ⟨rfl, rfl⟩
    · obtain ⟨r', hr', he⟩ := h.exps n id hk
      exact ⟨r', List.mem_append_left _ hr', he⟩
    · exact ⟨r, hmine, rfl, rfl⟩
  · rcases List.mem_append.mp hr' with hr' | hr'
    · exact (h.blocks r' hr').beside (hne r' hr') hbeside hclock fun et kh => hkeys.synced et kh _
    · rw [List.mem_singleton.mp hr']
      exact hok

/-! ## The cache -/

/-- Only filters of the blocks in `A` are cached, and none hides a row. -/
structure Cached (st : LocalStore) (A : List SealRequest) (c : BloomCache libs) : Prop where
  sound : Scene.Sound A st c
  ids : ∀ id elem, c.items.get id = some elem → ∃ r ∈ A, r.blockID = id

theorem Cached.loads {c c' : BloomCache libs} (h : Cached st A c) (hs : Stock libs st A x)
    (hr : r ∈ A) (hn : Named x r) (hl : BloomCache.Loads x [r.blockID] c c') : Cached st A c' := by
  refine ⟨⟨hl.store.trans h.sound.store, fun r' hr' elem hi => ?_⟩, fun id elem hi => ?_⟩
  · rcases hl.items _ elem hi with hold | ⟨hid, data, hdata, hf⟩
    · exact h.sound.finds r' hr' elem hold
    · -- a filter that was loaded just now
      obtain rfl := hs.catalog.eq_of_id hr' hr (List.mem_singleton.mp hid)
      rw [h.sound.store, ← hs.catalog.store r' hr'] at hdata
      rcases (hs.blocks r' hr').named hn with hb | hb
      · obtain ⟨f, hf', htest⟩ := Scene.filter_of_hasBloom hb hdata
        rw [hf] at hf'
        cases hf'
        exact htest
      · rw [SealRequest.bloomPath, hdata] at hb
        cases hb
  · rcases hl.items id elem hi with hold | ⟨hid, -⟩
    · exact h.ids id elem hold
    · exact ⟨r, hr, (List.mem_singleton.mp hid).symm⟩

/-- The index names the candidates. -/
def Candidates (A : List SealRequest) (w : World) (ids : List BlockID) : Prop :=
  ∀ id ∈ ids, ∃ r ∈ A, r.blockID = id ∧ Named w r

theorem Candidates.swept {ids : List BlockID} (h : Candidates A x ids) (hs : Sweeping A x y) :
    Candidates A y ids := by
  intro id hid
  obtain ⟨r, hr, he, hn⟩ := h id hid
  exact ⟨r, hr, he, (named_iff hs.erodes).mpr hn⟩

section Faults

variable {kh : UInt64}

/-- One look at the world, with operations that may fail. -/
theorem follows_look {α : Type} {p : Proc α} {Q : α → World → Prop} (hp : Single p)
    (hreads : Calls (S := machine) Op.Reads p)
    (h : ∀ x, Sweeping A w x → ∀ ws a, Runs sem p x ws a x → ∀ z, Sweeping A x z → Q a z) :
    Follows sem (Sweeping A) Eq p Q w := by
  refine hp.follows_runs (rely_sweeping A) (fun x hx ws a y hrun => ?_) fun _ => rfl
  obtain rfl := runs_reads hreads hrun
  exact ⟨Or.inl rfl, h y hx ws a hrun⟩

theorem caches_test {c : BloomCache libs} (hw : Stock libs st A w) (hc : Cached st A c) (hr : r ∈ A)
    (hn : Named w r) :
    Follows sem (Sweeping A) Eq (c.test r.blockID kh)
      (fun res y => Sweeping A w y ∧ Cached st A res.2) w := by
  refine follows_look (single_test c r.blockID) (BloomCache.calls_test c r.blockID kh)
    fun x hx ws res hrun y hy => ⟨(rely_sweeping A).trans hx hy, ?_⟩
  exact hc.loads (hw.swept hx) hr ((named_iff hx.erodes).mpr hn) (BloomCache.runs_test hrun)

theorem caches_lookup (hw : Stock libs st A w) (et : UInt8) (from_ to_ : Time) :
    Follows sem (Sweeping A) Eq (lookup et kh from_ to_).run
      (fun res y => Sweeping A w y ∧ ∀ ids, res = .ok ids → Candidates A y ids) w := by
  have hR := rely_sweeping A
  refine follows_look (single_lookup et kh from_ to_) (calls_lookup et kh from_ to_)
    fun x hx ws res hrun y hy => ⟨hR.trans hx hy, ?_⟩
  rintro ids rfl
  refine Candidates.swept (fun id hid => ?_) hy
  rw [runs_lookup hrun] at hid
  have hk := (mem_foundBlocks.mp hid).1
  obtain ⟨r, hr, rfl, -⟩ := (hw.swept hx).index et kh id hk
  exact ⟨r, hr, rfl, et, kh, hk⟩

theorem caches_lookupTypes (hw : Stock libs st A w) (from_ to_ : Time) (ets : List UInt8) :
    Follows sem (Sweeping A) Eq (lookupTypes kh from_ to_ ets).run
      (fun res y => Sweeping A w y ∧ ∀ ids, res = .ok ids → Candidates A y ids) w := by
  have hR := rely_sweeping A
  induction ets generalizing w with
  | nil =>
      refine follows_pure fun y hy => ⟨hy, fun ids hids => ?_⟩
      cases hids
      exact fun id hid => absurd hid List.not_mem_nil
  | cons et ets ih =>
      refine follows_bindE hR ((caches_lookup hw et from_ to_).mono fun res x h => ?_)
      obtain ⟨hwx, hfirst⟩ := h
      cases res with
      | error e =>
          exact fun y hy => ⟨hR.trans hwx hy, fun ids hids => by cases hids⟩
      | ok ids =>
          refine follows_bindE hR ((ih (hw.swept hwx)).mono fun res y h => ?_)
          obtain ⟨hxy, hrest⟩ := h
          cases res with
          | error e =>
              exact fun z hz => ⟨hR.trans hwx (hR.trans hxy hz), fun ids hids => by cases hids⟩
          | ok ids' =>
              intro z hz
              refine ⟨hR.trans hwx (hR.trans hxy hz), fun all hall id hid => ?_⟩
              cases hall
              rcases List.mem_append.mp hid with hid | hid
              · exact ((hfirst ids rfl).swept (hR.trans hxy hz)) id hid
              · exact ((hrest ids' rfl).swept hz) id hid

theorem caches_candidates (hw : Stock libs st A w) (req : QueryRequest) :
    Follows sem (Sweeping A) Eq (candidates req kh).run
      (fun res y => Sweeping A w y ∧ ∀ ids, res = .ok ids → Candidates A y ids) w := by
  unfold candidates
  cases req.eventType with
  | some et => exact caches_lookup hw et req.from_ req.to_
  | none => exact caches_lookupTypes hw req.from_ req.to_ allTypes

/-- What becomes of the metadata of a candidate does not matter to the cache. -/
theorem caches_selectMeta {c : BloomCache libs} {id : BlockID} (hc : Cached st A c)
    {rest : Proc (Except Err (List BlockTask) × BloomCache libs)}
    (hrest : ∀ y, Sweeping A w y →
      Follows sem (Sweeping A) Eq rest (fun res _ => Cached st A res.2) y) :
    Follows sem (Sweeping A) Eq (selectMeta libs eng id c rest)
      (fun res _ => Cached st A res.2) w := by
  have hR := rely_sweeping A
  have hmeta : Follows sem (Sweeping A) Eq (getBlockMeta id).run (fun _ y => Sweeping A w y) w :=
    follows_look (single_getBlockMeta id) (calls_getBlockMeta (fun _ => trivial) id)
      fun x hx _ _ _ y hy => hR.trans hx hy
  refine follows_bind hR (hmeta.mono fun res y hy => ?_)
  cases res with
  | error e =>
      show Follows sem (Sweeping A) Eq
        (if Err.is .notFound e then rest else Pure.pure (.error e, c)) _ y
      split_ifs
      · exact hrest y hy
      · exact follows_pure fun _ _ => hc
  | ok bmeta =>
      dsimp only
      cases eng.tiers bmeta.tier with
      | none => exact hrest y hy
      | some store =>
          exact follows_bind hR ((hrest y hy).mono fun found z hfound =>
            follows_pure fun _ _ => hfound)

theorem caches_selectTasks (ids : List BlockID) :
    ∀ {c : BloomCache libs} {w : World}, Stock libs st A w → Cached st A c →
      Candidates A w ids →
      Follows sem (Sweeping A) Eq (selectTasks libs eng kh c ids)
        (fun res _ => Cached st A res.2) w := by
  have hR := rely_sweeping A
  induction ids with
  | nil => exact fun _ hc _ => follows_pure fun _ _ => hc
  | cons id ids ih =>
      intro c w hw hc hids
      rw [selectTasks_cons]
      obtain ⟨r, hr, rfl, hn⟩ := hids id List.mem_cons_self
      refine follows_bind hR ((caches_test hw hc hr hn).mono fun tested x h => ?_)
      obtain ⟨hwx, hc'⟩ := h
      have hrest : ∀ {y : World}, Sweeping A x y → Follows sem (Sweeping A) Eq
          (selectTasks libs eng kh tested.2 ids) (fun res _ => Cached st A res.2) y := by
        intro y hxy
        have hwy := hR.trans hwx hxy
        refine ih (hw.swept hwy) hc' (Candidates.swept (fun i hi => ?_) hwy)
        exact hids i (List.mem_cons_of_mem _ hi)
      obtain ⟨res, c'⟩ := tested
      cases res with
      | error e => exact follows_pure fun _ _ => hc'
      | ok hit =>
          cases hit with
          | false => exact hrest (hR.refl x)
          | true => exact caches_selectMeta hc' fun y hy => hrest hy

/-- Nor does what the goroutines read. -/
theorem caches_merge {c : BloomCache libs} (hc : Cached st A c) {from_ to_ : Time}
    (tasks : List BlockTask) :
    Follows sem (Sweeping A) Eq
      (if tasks.length = 0 then (Pure.pure (.ok [], c) : Proc (Except Err (List Event) × _))
      else do
        let done ← readTasks libs kh from_ to_ tasks (eng.readOrder tasks.length)
        match collectSlices (resultsOf tasks.length done) with
        | .error e => Pure.pure (.error e, c)
        | .ok slices => Pure.pure (.ok (mergeEvents slices), c))
      (fun res _ => Cached st A res.2) w := by
  split_ifs
  · exact follows_pure fun _ _ => hc
  · have hread : Follows sem (Sweeping A) Eq
        (readTasks libs kh from_ to_ tasks (eng.readOrder tasks.length)) (fun _ _ => True) w :=
      (calls_readTasks from_ to_ tasks _).follows (fun _ _ => trivial)
        (fun o x res y ho _ h => ⟨sem_reads ho h, trivial⟩) trivial
    refine follows_bind (rely_sweeping A) (hread.mono fun done y _ => ?_)
    cases collectSlices (resultsOf tasks.length done) with
    | error e => exact follows_pure fun _ _ => hc
    | ok slices => exact follows_pure fun _ _ => hc

/-- **The cache after a query**, whatever fails and whatever is deleted
meanwhile. -/
theorem caches_query {c : BloomCache libs} (hw : Stock libs st A w) (hc : Cached st A c)
    (req : QueryRequest) :
    Follows sem (Sweeping A) Eq (query libs eng c req) (fun res _ => Cached st A res.2) w := by
  have hR := rely_sweeping A
  unfold query
  split_ifs
  · exact follows_pure fun _ _ => hc
  · refine follows_bind hR ((caches_candidates hw req).mono fun res x h => ?_)
    obtain ⟨hwx, hids⟩ := h
    cases res with
    | error e => exact follows_pure fun _ _ => hc
    | ok ids =>
        show Follows sem (Sweeping A) Eq (if ids.length = 0 then _ else _) _ x
        split_ifs
        · exact follows_pure fun _ _ => hc
        · refine follows_bind hR
            ((caches_selectTasks ids (hw.swept hwx) hc (hids ids rfl)).mono fun found y hc' => ?_)
          obtain ⟨res, c'⟩ := found
          cases res with
          | error e => exact follows_pure fun _ _ => hc'
          | ok tasks => exact caches_merge hc' tasks
  · exact follows_pure fun _ _ => hc

end Faults

/-! ## A long time -/

/-- The states of a store, of a sweep and of the bloom cache over a long time:
the blocks of `A` were sealed or half sealed, what is left of the sweep is the
program, and the cache is shared by queries. -/
inductive Aged (libs : Libs) (eng : Engine) (st : LocalStore) :
    List SealRequest → World → Proc Unit → BloomCache libs → Prop
  | start {w : World} {maxMem : Int64} (hempty : ∀ k, w.db.view.get k = none)
      (hpending : w.db.pending = []) (hclock : 0 ≤ w.clock) :
      Aged libs eng st [] w (.pure ()) (newBloomCache st maxMem)
  | sealed {A : List SealRequest} {w w' : World} {p : Proc Unit} {c : BloomCache libs}
      {r : SealRequest} (h : Aged libs eng st A w p c) (hstore : r.store = st)
      (hnew : r.blockID ∉ A.map SealRequest.blockID)
      (hpayloads : ∀ e ∈ r.memtable.rows, e.payload.length < 2 ^ 32)
      (hrun : SealReaches libs r w w') : Aged libs eng st (A ++ [r]) w' (.pure ()) c
  /-- A sweep starts; the last one has ended or was abandoned. -/
  | started {A : List SealRequest} {w : World} {p : Proc Unit} {c : BloomCache libs} {job : Sweep}
      (h : Aged libs eng st A w p c) : Aged libs eng st A w job.text c
  | swept {A : List SealRequest} {w w' : World} {p p' : Proc Unit} {c : BloomCache libs}
      (h : Aged libs eng st A w p c)
      (hreach : Pair.Reach sem sem ⟨w, p, (.pure () : Proc Unit)⟩ ⟨w', p', .pure ()⟩) :
      Aged libs eng st A w' p' c
  /-- A query tests a candidate while the sweep goes on. Queries that run at
  the same time take turns in this. -/
  | tested {A : List SealRequest} {w w' : World} {p p' : Proc Unit} {c c' : BloomCache libs}
      {et : UInt8} {id : BlockID} {kh kh' : UInt64} {res : Except Err Bool}
      (h : Aged libs eng st A w p c) (hid : (w.db.view.get (idxKey et kh' id)).isSome)
      (hreach : Pair.Reach sem sem ⟨w, p, c.test id kh⟩ ⟨w', p', .pure (res, c')⟩) :
      Aged libs eng st A w' p' c'
  | queried {A : List SealRequest} {w w' : World} {p p' : Proc Unit} {c c' : BloomCache libs}
      {req : QueryRequest} {res : Except Err (List Event)} (h : Aged libs eng st A w p c)
      (hreach : Pair.Reach sem sem ⟨w, p, query libs eng c req⟩ ⟨w', p', .pure (res, c')⟩) :
      Aged libs eng st A w' p' c'
  | ticked {A : List SealRequest} {w w' : World} {p : Proc Unit} {c : BloomCache libs}
      (h : Aged libs eng st A w p c) (ht : Tick w w') : Aged libs eng st A w' p c
  | crashed {A : List SealRequest} {w w' : World} {p : Proc Unit} {c : BloomCache libs}
      {maxMem : Int64} (h : Aged libs eng st A w p c) (hc : w.Crash w') :
      Aged libs eng st A w' (.pure ()) (newBloomCache st maxMem)

/-- What is so in each of these states. -/
structure AgedOK (libs : Libs) (st : LocalStore) (A : List SealRequest) (w : World)
    (p : Proc Unit) (c : BloomCache libs) : Prop where
  stock : Stock libs st A w
  cached : Cached st A c
  sweep : Follows sem Tick (Sweeping A) p (fun _ _ => True) w

theorem cached_new (maxMem : Int64) : Cached st A (newBloomCache st maxMem : BloomCache libs) :=
  ⟨⟨rfl, fun _ _ _ hi => by cases hi⟩, fun _ _ hi => by cases hi⟩

/-- Of a new block nothing is cached. -/
theorem Cached.sealed {c : BloomCache libs} (h : Cached st A c)
    (hnew : r.blockID ∉ A.map SealRequest.blockID) : Cached st (A ++ [r]) c := by
  refine ⟨⟨h.sound.store, fun r' hr' elem hi => ?_⟩, fun id elem hi => ?_⟩
  · rcases List.mem_append.mp hr' with hr' | hr'
    · exact h.sound.finds r' hr' elem hi
    · obtain rfl := List.mem_singleton.mp hr'
      obtain ⟨r₀, hr₀, he⟩ := h.ids _ elem hi
      exact absurd (he ▸ List.mem_map_of_mem hr₀) hnew
  · obtain ⟨r₀, hr₀, he⟩ := h.ids id elem hi
    exact ⟨r₀, List.mem_append_left _ hr₀, he⟩

theorem stock_start (hempty : ∀ k, w.db.view.get k = none) (hpending : w.db.pending = [])
    (hclock : 0 ≤ w.clock) : Stock libs st [] w := by
  have hno : ∀ k, ¬ (w.db.view.get k).isSome := fun k => by simp [hempty k]
  refine ⟨⟨List.nodup_nil, ?_, ?_⟩, fun _ _ _ hk => absurd hk (hno _),
    fun _ hk => absurd hk (hno _), fun _ _ hk => absurd hk (hno _), ?_, hclock, ?_⟩
  · exact fun _ hr => absurd hr List.not_mem_nil
  · exact fun _ hr => absurd hr List.not_mem_nil
  · intro b hb
    rw [hpending] at hb
    exact absurd hb List.not_mem_nil
  · exact fun _ hr => absurd hr List.not_mem_nil

theorem follows_idle {R G : World → World → Prop} :
    Follows sem R G (.pure () : Proc Unit) (fun _ _ => True) w := fun _ _ => trivial

/-- A program that only reads, beside the sweep. -/
theorem AgedOK.beside {α : Type} {p p' : Proc Unit} {q q' : Proc α} {c : BloomCache libs}
    {Q : α → World → Prop} (h : AgedOK libs st A w p c)
    (hq : Follows sem (Sweeping A) Eq q Q w)
    (hreach : Pair.Reach sem sem ⟨w, p, q⟩ ⟨x, p', q'⟩) :
    AgedOK libs st A x p' c ∧ ∀ a, q' = .pure a → Q a x := by
  have hstart : Pair.Follow sem sem Tick (Sweeping A) (Sweeping A) Eq (fun _ _ => True) Q
      ⟨w, p, q⟩ := ⟨h.sweep, hq⟩
  have hR := rely_sweeping A
  have hRL : ∀ {a b : World}, a = b → Tick a b := fun he => he ▸ rely_tick.refl _
  have hend := hstart.reach (fun hs => hs) hRL rely_tick hR hreach
  have hmoves := hstart.moves (fun hs => hs) hRL rely_tick hR hR (fun hs => hs)
    (fun he => he ▸ hR.refl _) hreach
  refine ⟨⟨h.stock.swept hmoves, h.cached, hend.left⟩, fun a ha => ?_⟩
  exact hstart.result (fun hs => hs) hRL rely_tick hR hreach ha

theorem Aged.ok {p : Proc Unit} {c : BloomCache libs} (h : Aged libs eng st A w p c) :
    AgedOK libs st A w p c := by
  induction h with
  | start hempty hpending hclock =>
      exact ⟨stock_start hempty hpending hclock, cached_new _, follows_idle⟩
  | sealed _ hstore hnew hpayloads hrun ih =>
      exact ⟨ih.stock.sealed hstore hnew hpayloads hrun, ih.cached.sealed hnew, follows_idle⟩
  | started _ ih => exact ⟨ih.stock, ih.cached, follows_sweepText ih.stock _⟩
  | swept _ hreach ih => exact (ih.beside follows_idle hreach).1
  | tested _ hid hreach ih =>
      obtain ⟨r, hr, rfl, -⟩ := ih.stock.index _ _ _ hid
      obtain ⟨hok, hres⟩ := ih.beside (caches_test ih.stock ih.cached hr ⟨_, _, hid⟩) hreach
      exact ⟨hok.stock, (hres _ rfl).2, hok.sweep⟩
  | queried _ hreach ih =>
      obtain ⟨hok, hres⟩ := ih.beside (caches_query ih.stock ih.cached _) hreach
      exact ⟨hok.stock, hres _ rfl, hok.sweep⟩
  | ticked _ ht ih =>
      exact ⟨ih.stock.swept (sweeping_of_tick ht), ih.cached, ih.sweep.env rely_tick ht⟩
  | crashed _ hc ih => exact ⟨ih.stock.crashed hc, cached_new _, follows_idle⟩

/-! ## A query beside a sweep -/

/-- Nothing fails, and a block file that is opened is there. -/
def semOpen : Sem machine World := fun o x res y =>
  (res, y) = o.exec x ∧
    ∀ (s : LocalStore) (id : BlockID), o = .readFile (s.blockPath id) →
      (x.fs (s.blockPath id)).isSome

section Query

variable {S : List SealRequest} {req : QueryRequest}

/-- The blocks of `S` are there and do not expire. -/
structure Stays (libs : Libs) (st : LocalStore) (A S : List SealRequest) (w : World) : Prop where
  stock : Stock libs st A w
  metas : ∀ r ∈ S, HasMeta libs w r
  live : ∀ r ∈ S, Live r w

/-- A move of the sweep before the blocks of `S` expire. -/
def SweepsOthers (A S : List SealRequest) (x y : World) : Prop :=
  Sweeping A x y ∧ ((∀ r ∈ S, Live r x) → ∀ r ∈ S, Live r y)

theorem rely_sweepsOthers (A S : List SealRequest) : Rely (SweepsOthers A S) where
  refl x := ⟨(rely_sweeping A).refl x, fun h => h⟩
  trans h₁ h₂ := ⟨(rely_sweeping A).trans h₁.1 h₂.1, fun h => h₂.2 (h₁.2 h)⟩

theorem Stays.swept (hsub : ∀ r ∈ S, r ∈ A) (h : Stays libs st A S x)
    (hs : SweepsOthers A S x y) : Stays libs st A S y := by
  have hlive := hs.2 h.live
  refine ⟨h.stock.swept hs.1, fun r hr => ?_, hlive⟩
  rw [HasMeta, (hs.1.live r (hsub r hr) (hlive r hr)).blk]
  exact h.metas r hr

/-- **The scene of a query while expired blocks are deleted.** -/
theorem scene_sweeping (hA : Catalog st A) (hsub : ∀ r ∈ S, r ∈ A)
    (L : World → Prop) :
    Scene libs st A S (semOpen.within L) (SweepsOthers A S) (Stays libs st A S) where
  catalog := hA
  sub := hsub
  exec h := h.1.1
  rely := rely_sweepsOthers A S
  keep h hs := h.swept hsub hs
  index h hk := h.stock.index _ _ _ hk
  present h r hr := (h.stock.blocks r (hsub r hr)).live (h.metas r hr) (h.live r hr)
  bloom {x y} h hs r hr hn :=
    ((h.stock.swept hs.1).blocks r hr).named ((named_iff hs.1.erodes).mpr hn)
  blk h r hr := (h.stock.blocks r hr).blk
  read {x y} h hs r hr hm {res y'} hop := by
    have hthere := hop.1.2 r.store r.blockID rfl
    have hfile : HasFile libs x r ∨ x.fs r.blockPath = none := (h.stock.blocks r hr).file hm
    rcases hs.1.erodes.fs r.blockPath with hsame | hnone
    · rcases hfile with hf | hf
      · exact ⟨hsame.trans hf.1, hf.2⟩
      · rw [← SealRequest.blockPath, hsame, hf] at hthere
        cases hthere
    · rw [← SealRequest.blockPath, hnone] at hthere
      cases hthere

end Query

/-- **A query beside a reaper cycle returns the wanted rows of all blocks that
have not expired**, if the block files that it opens are there: from every
state of the store and of the bloom cache, in every interleaving. -/
theorem query_while_reaping (libs : Libs) (eng : Engine) (st : LocalStore)
    (htier : eng.tiers tierHot = some st) (A : List SealRequest) (w : World) (p : Proc Unit)
    (c : BloomCache libs) (h : Aged libs eng st A w p c) (req : QueryRequest) (hreq : Proper req)
    (w' : World) (p' : Proc Unit) (res : Except Err (List Event)) (c' : BloomCache libs)
    (hreach : Pair.Reach sem semOpen ⟨w, p, query libs eng c req⟩ ⟨w', p', .pure (res, c')⟩)
    (S : List SealRequest) (hS : ∀ r ∈ S, r ∈ A ∧ HasMeta libs w r ∧ Live r w') :
    Answers libs req A S (fun _ => True) res := by
  have hok := h.ok
  -- the clock does not go back, so the blocks are live all the time
  let L : World → Prop := fun x => ∀ r ∈ S, Live r x
  have hback : ∀ {o : Op} {x y : World} {a : o.Res}, sem o x a y → L y → L x :=
    fun hs hl r hr => (hl r hr).of_le (sem_effect hs).clock
  have hback' : ∀ {o : Op} {x y : World} {a : o.Res}, semOpen o x a y → L y → L x :=
    fun hs => hback (Or.inl hs.1)
  obtain ⟨hL, hreach⟩ := hreach.within (L := L) hback hback' fun r hr => (hS r hr).2.2
  have sc : Scene libs st A S (semOpen.within L) (SweepsOthers A S) (Stays libs st A S) :=
    scene_sweeping hok.stock.catalog (fun r hr => (hS r hr).1) L
  have hsound : Scene.Sound S st c :=
    ⟨hok.cached.sound.store, fun r hr => hok.cached.sound.finds r (hS r hr).1⟩
  have hquery := sc.follows_query htier hsound
    ⟨hok.stock, fun r hr => (hS r hr).2.1, hL⟩ hreq
  have hsweep : Follows (sem.within L) Tick (SweepsOthers A S) p (fun _ _ => True) w :=
    (hok.sweep.within (L := L)).weaken (fun ht => ht) fun hs => ⟨hs.1, fun _ => hs.2⟩
  have hstart : Pair.Follow (sem.within L) (semOpen.within L) Tick (SweepsOthers A S)
      (SweepsOthers A S) Eq (fun _ _ => True) _ ⟨w, p, query libs eng c req⟩ := ⟨hsweep, hquery⟩
  obtain ⟨-, hans⟩ := hstart.result (fun hs => hs) (fun he => he ▸ rely_tick.refl _) rely_tick
    sc.rely hreach rfl
  obtain ⟨out, V, hout, hV, hSV, -, hperm, hord⟩ := hans
  exact ⟨out, V, hout, hV, hSV, fun _ _ => Or.inr trivial, hperm, hord⟩

/-! ## Two blocks -/

/-- Both are sealed, and the first has expired. -/
def twoRows : World :=
  readClock ((sealBlock Libs.plain nextRow).run.exec oneRowSealed).2 (43800 * hour)

/-- A reaper cycle. -/
def reapOnce : Sweep := .reap ⟨fun _ => some oneRow.store⟩

/-- An empty cache for the store of both. -/
def noBlooms : BloomCache Libs.plain := newBloomCache oneRow.store 0

set_option maxRecDepth 100000 in
theorem aged_twoRows {eng : Engine} :
    Aged Libs.plain eng oneRow.store [oneRow, nextRow] twoRows reapOnce.text noBlooms := by
  have hfirst : SealReaches Libs.plain oneRow ⟨Pebble.empty, fun _ => none, 0⟩ oneRowSealed :=
    Or.inr ⟨_, _, runs_procExec (sealBlock Libs.plain oneRow).run _⟩
  have hsecond : SealReaches Libs.plain nextRow oneRowSealed
      ((sealBlock Libs.plain nextRow).run.exec oneRowSealed).2 :=
    Or.inr ⟨_, _, runs_procExec (sealBlock Libs.plain nextRow).run _⟩
  have hstart : Aged Libs.plain eng oneRow.store [] ⟨Pebble.empty, fun _ => none, 0⟩ (.pure ())
      noBlooms := .start (fun _ => rfl) rfl (le_refl _)
  have hone := hstart.sealed (r := oneRow) rfl (by simp) (by decide +kernel) hfirst
  have htwo := hone.sealed (r := nextRow) rfl (by decide +kernel) (by decide +kernel) hsecond
  exact (htwo.ticked ⟨43800 * hour, by decide +kernel, rfl⟩).started

/-- The error is or wraps this one. -/
def failsWith (e : Err) : Except Err (List Event) → Bool
  | .ok _ => false
  | .error e' => Err.is e e'

/-- The operation does not open a file, or the file is there. -/
def opensFile : Op × World → Bool
  | (.readFile p, w) => (w.fs p).isSome
  | _ => true

/-- The world when the reaper has performed `n` operations. -/
def reaped (n : Nat) : World := (advance Op.exec n reapOnce.text twoRows).2

set_option maxRecDepth 100000 in
/-- The reaper has read the metadata of the first block and is about to delete
it: the query returns the rows of both. -/
theorem query_while_reaping_twoRows :
    ((query Libs.plain oneRowEngine noBlooms twoRowsQuery).exec (reaped 4)).1.1 = .ok bothRows ∧
    Answers Libs.plain twoRowsQuery [oneRow, nextRow] [nextRow] (fun _ => True)
      ((query Libs.plain oneRowEngine noBlooms twoRowsQuery).exec (reaped 4)).1.1 := by
  have hruns : ((query Libs.plain oneRowEngine noBlooms twoRowsQuery).exec (reaped 4)).1.1 =
        .ok bothRows ∧
      (performs Op.exec (query Libs.plain oneRowEngine noBlooms twoRowsQuery)
        (reaped 4)).all opensFile = true := by decide +kernel
  obtain ⟨hquery, hopen⟩ := hruns
  refine ⟨hquery, ?_⟩
  have hsteps : ∀ v ∈ performs Op.exec (query Libs.plain oneRowEngine noBlooms twoRowsQuery)
      (reaped 4), semOpen v.1 v.2 (Op.exec v.1 v.2).1 (Op.exec v.1 v.2).2 := by
    refine fun v hv => ⟨rfl, fun s id ho => ?_⟩
    have hthere := List.all_eq_true.mp hopen v hv
    obtain ⟨o, w⟩ := v
    subst ho
    exact hthere
  have hreap : Pair.Reach sem semOpen
      ⟨twoRows, reapOnce.text, query Libs.plain oneRowEngine noBlooms twoRowsQuery⟩
      ⟨reaped 4, (advance Op.exec 4 reapOnce.text twoRows).1, _⟩ :=
    Pair.reach_advance fun _ _ => Or.inl rfl
  exact query_while_reaping Libs.plain oneRowEngine oneRow.store rfl [oneRow, nextRow] twoRows
    reapOnce.text noBlooms aged_twoRows twoRowsQuery
    ⟨by decide, by decide +kernel, by decide +kernel, by decide +kernel⟩ _ _ _ _
    (hreap.trans (Pair.reach_right (runs_performs hsteps))) [nextRow] fun r hr => by
      obtain rfl := List.mem_singleton.mp hr
      refine ⟨by simp, ?_, ?_⟩
      · unfold HasMeta
        decide +kernel
      · unfold Live
        decide +kernel

set_option maxRecDepth 100000 in
/-- **The reaper has removed the block file of an expired block and not yet its
keys: the query fails**, also for the row of the block that has not expired. No
operation failed. -/
theorem reaped_block_fails_query : ∃ p' c' e,
    Aged Libs.plain oneRowEngine oneRow.store [oneRow, nextRow] twoRows reapOnce.text noBlooms ∧
    Live nextRow (reaped 5) ∧ Err.is .notExist e = true ∧
    ((query Libs.plain oneRowEngine noBlooms twoRowsQuery).exec twoRows).1.1 = .ok bothRows ∧
    Pair.Reach semExec semExec
      ⟨twoRows, reapOnce.text, query Libs.plain oneRowEngine noBlooms twoRowsQuery⟩
      ⟨reaped 5, p', .pure (.error e, c')⟩ := by
  have hfails : ∃ e, ((query Libs.plain oneRowEngine noBlooms twoRowsQuery).exec (reaped 5)).1.1 =
      .error e ∧ Err.is .notExist e = true := by
    have hcases : failsWith .notExist ((query Libs.plain oneRowEngine noBlooms twoRowsQuery).exec
        (reaped 5)).1.1 = true := by decide +kernel
    cases hres : ((query Libs.plain oneRowEngine noBlooms twoRowsQuery).exec (reaped 5)).1.1 with
    | ok out =>
        rw [hres] at hcases
        cases hcases
    | error e =>
        rw [hres] at hcases
        exact ⟨e, rfl, hcases⟩
  obtain ⟨e, he, hnot⟩ := hfails
  have hquery := runs_semExec (query Libs.plain oneRowEngine noBlooms twoRowsQuery) (reaped 5)
  rw [exec_of_calls (calls_query _ _ _) (reaped 5), ← Prod.mk.eta
    (p := ((query Libs.plain oneRowEngine noBlooms twoRowsQuery).exec (reaped 5)).1), he] at hquery
  have hreap : Pair.Reach semExec semExec
      ⟨twoRows, reapOnce.text, query Libs.plain oneRowEngine noBlooms twoRowsQuery⟩
      ⟨reaped 5, (advance Op.exec 5 reapOnce.text twoRows).1, _⟩ :=
    Pair.reach_advance fun _ _ => rfl
  refine ⟨_, _, e, aged_twoRows, ?_, hnot, by decide +kernel,
    hreap.trans (Pair.reach_right hquery)⟩
  unfold Live
  decide +kernel

end Bbdb.Query
