import Bbdb.Block.Stages
import Bbdb.Lib.Workers
import Bbdb.Meta.Wal
import Bbdb.Query.Refines
import Bbdb.Ttl.Live
import Mathlib.Data.List.Flatten

/-!
# Query — beside any number of seals

Every shard has a writer with a goroutine of its own, so any number of `Seal`
calls run at the same time, in any order of their operations, while the
writers append to their WAL and a client sends one query after another
(`Session`).

Each `Seal` has files and keys of its own (`SamePart`). What it does alone, it
therefore does among the others (`follows_seal`): the lemma about a single
`Seal` is used as it is. To a query, blocks only ever appear
(`later_of_moves`). So it succeeds, returns every row of the blocks that were
committed when it began, and of the others only what is committed when it
ends (`session_answers`); and what a client has been told once, it is told
again (`session_monotone`).
-/

namespace Bbdb.Query

open Bbdb.Block Bbdb.Meta Bbdb.Tier Bbdb.Index GoTime
open Prog hiding pure bind

variable {libs : Libs} {eng : Engine} {st : LocalStore} {A B : List SealRequest}
  {r r' : SealRequest} {w x y : World}

/-! ## The part of the world a Seal works on -/

/-- The files of the block, the temporary one included, and its keys are the
same in both worlds. -/
structure SamePart (r : SealRequest) (x y : World) : Prop where
  files : AgreeOn (Ttl.files r) x y
  blk : x.db.view.get (blockKey r.blockID) = y.db.view.get (blockKey r.blockID)
  idx : ∀ et kh, x.db.view.get (idxKey et kh r.blockID) = y.db.view.get (idxKey et kh r.blockID)

theorem rely_samePart (r : SealRequest) : Rely (SamePart r) where
  refl _ := ⟨fun _ _ => rfl, rfl, fun _ _ => rfl⟩
  trans h₁ h₂ := ⟨fun p hp => (h₁.files p hp).trans (h₂.files p hp), h₁.blk.trans h₂.blk,
    fun et kh => (h₁.idx et kh).trans (h₂.idx et kh)⟩

theorem SamePart.symm (h : SamePart r x y) : SamePart r y x :=
  ⟨fun p hp => (h.files p hp).symm, h.blk.symm, fun et kh => (h.idx et kh).symm⟩

theorem SamePart.unknown (h : SamePart r x y) (hx : Unknown r x) : Unknown r y :=
  ⟨fun et kh => (h.idx et kh).symm.trans (hx.idx et kh), h.blk.symm.trans hx.blk⟩

theorem SamePart.named (h : SamePart r x y) (hx : Named x r) : Named y r := by
  obtain ⟨et, kh, hk⟩ := hx
  exact ⟨et, kh, by rwa [← h.idx]⟩

theorem SamePart.hasBloom (h : SamePart r x y) (hx : HasBloom libs x r) : HasBloom libs y r :=
  hx.of_file (h.files r.bloomPath (by simp [Ttl.files])).symm

theorem SamePart.present (h : SamePart r x y) (hx : Present libs x r) : Present libs y r := by
  refine ⟨h.hasBloom hx.bloom, ⟨?_, hx.file.2⟩, h.blk.symm.trans hx.blk, fun e he => ?_⟩
  · rw [← h.files r.blockPath (by simp [Ttl.files]), hx.file.1]
  · rw [← h.idx]
    exact hx.indexed e he

theorem SamePart.stage (h : SamePart r x y) (hx : Stage libs r x) : Stage libs r y := by
  refine ⟨fun et kh hk => hx.type et kh (by rwa [h.idx]),
    fun hn => h.hasBloom (hx.named (h.symm.named hn)), ?_⟩
  exact hx.blk.imp (h.blk.symm.trans ·) h.present

/-- What a batch makes of a key depends on that key only. -/
theorem get_apply_congr {k : Bytes} (b : Batch) {m m' : KV} (h : m.get k = m'.get k) :
    (Batch.apply b m).get k = (Batch.apply b m').get k := by
  induction b generalizing m m' with
  | nil => exact h
  | cons o b ih =>
      refine ih ?_
      cases o with
      | set x v =>
          simp only [BatchOp.apply, OrdMap.get_set]
          rw [h]
      | delete x =>
          simp only [BatchOp.apply, OrdMap.get_erase]
          rw [h]
      | deleteRange lo hi =>
          simp only [BatchOp.apply, OrdMap.get_eraseRange]
          rw [h]

theorem SamePart.commit (h : SamePart r x y) (b : Batch) (sync : Bool) :
    SamePart r (x.commit b sync) (y.commit b sync) := by
  refine ⟨h.files, ?_, fun et kh => ?_⟩
  · simp only [World.commit_db, Pebble.view_commit]
    exact get_apply_congr b h.blk
  · simp only [World.commit_db, Pebble.view_commit]
    exact get_apply_congr b (h.idx et kh)

/-- The writers' WAL is no part of it. -/
theorem samePart_of_walOnly (h : WalOnly x y) : SamePart r x y := by
  refine ⟨fun p _ => by rw [h.1], (h.2 _ ?_ ?_).symm, fun et kh => (h.2 _ ?_ ?_).symm⟩
  all_goals simp only [family_blockKey, family_idxKey]; decide

/-! ## Seals beside each other -/

/-- What one operation of a `Seal` does: its own block comes further, the
others' parts stay as they are. -/
structure SealMove (libs : Libs) (r : SealRequest) (x y : World) : Prop where
  grows : Grows libs r x y
  others : ∀ r', r'.blockID ≠ r.blockID → SamePart r' x y

/-- The operations of `Seal`. -/
def SealsOwn (r : SealRequest) (o : Op) : Prop :=
  Ttl.PreparesOwn r o ∨ ∃ bm, o = .commit (sealOps r.shard r.blockID bm r.expiryHour) true

theorem calls_sealOwn (libs : Libs) (r : SealRequest) :
    Calls (S := machine) (SealsOwn r) (sealBlock libs r).run := by
  refine calls_bindE ((Ttl.calls_prepareOwn libs r).mono fun _ => Or.inl) fun bm => ?_
  exact calls_bindE (calls_call.mpr (Or.inr ⟨bm, rfl⟩)) fun _ => calls_pure _

theorem samePart_of_prepStep (hne : r'.blockID ≠ r.blockID) (h : PrepStep r x y) :
    SamePart r' x y := by
  refine ⟨fun p hp => ?_, ?_, fun et kh => ?_⟩
  · obtain ⟨htmp, hbloom, hblock⟩ := Ttl.files_ne hne.symm hp
    exact (h.files p htmp hbloom hblock).symm
  · exact ((beside_of_prepStep h).blk _ hne).symm
  · exact ((beside_of_prepStep h).idx et kh _ hne).symm

theorem samePart_of_commit (hne : r'.blockID ≠ r.blockID) (x : World) (bm : BlockMeta) :
    SamePart r' x (x.commit (sealOps r.shard r.blockID bm r.expiryHour) true) := by
  have hbeside := beside_of_commit x r bm r.expiryHour
  exact ⟨fun _ _ => rfl, (hbeside.blk _ hne).symm, fun et kh => (hbeside.idx et kh _ hne).symm⟩

/-- A world that has the block's part of another grows as that one. -/
theorem grows_of_samePart {g g' : World} (h : Grows libs r g g') (hx : SamePart r x g)
    (hy : SamePart r y g') (hbeside : Beside r.blockID x y) : Grows libs r x y where
  beside := hbeside
  stage hs := hy.symm.stage (h.stage (hx.stage hs))
  named hn := hy.symm.named (h.named (hx.named hn))
  present hp := hy.symm.present (h.present (hx.present hp))

/-- One operation of `Seal` among others is one of a `Seal` that runs alone
in a world with the same part. -/
theorem sealMove_of_sem {o : Op} {res : o.Res} {g : World} (ho : SealsOwn r o)
    (hx : SamePart r x g) (h : sem o x res y) :
    ∃ g', sem o g res g' ∧ SamePart r y g' ∧ (Grows libs r g g' → SealMove libs r x y) := by
  -- a batch, or its failure, is the same in both worlds
  have hbatch : ∀ {b : Batch} {sync : Bool} {e : Except Err Unit},
      sem (.commit b sync) x e y → ∃ g', sem (.commit b sync) g e g' ∧ SamePart r y g' := by
    rintro b sync e (hs | ⟨rfl, rfl⟩)
    · cases hs
      exact ⟨_, Or.inl rfl, hx.commit b sync⟩
    · exact ⟨g, Or.inr ⟨rfl, rfl⟩, hx⟩
  rcases ho with ho | ⟨bm, rfl⟩
  · obtain ⟨honf, hprep⟩ := ho.onFiles
    have hstep := prepStep_of_sem r hprep h
    have hmove : ∀ {g'}, SamePart r y g' → Grows libs r g g' → SealMove libs r x y :=
      fun hy hg => ⟨grows_of_samePart hg hx hy (beside_of_prepStep hstep),
        fun r' hne => samePart_of_prepStep hne hstep⟩
    rcases ho with ho | ⟨hs, rfl⟩
    · -- files are written, the database stays as it is
      obtain ⟨-, hnothing⟩ := prepares_of_writesFiles r ho
      have hdb : ∀ {a b : World}, sem o a res b → b.db = a.db := by
        intro a b hab
        rcases (sem_effect hab).db with hdb | ⟨_, _, rfl, -⟩
        · exact hdb
        · exact hnothing.elim
      obtain ⟨g', hg', hfiles⟩ := sem_onFiles honf hx.files h
      have hy : SamePart r y g' :=
        ⟨hfiles, by rw [hdb h, hdb hg', hx.blk], fun et kh => by rw [hdb h, hdb hg', hx.idx]⟩
      exact ⟨g', hg', hy, hmove hy⟩
    · obtain ⟨g', hg', hy⟩ := hbatch h
      exact ⟨g', hg', hy, hmove hy⟩
  · obtain ⟨g', hg', hy⟩ := hbatch h
    refine ⟨g', hg', hy, fun hg => ?_⟩
    rcases h with hs | ⟨-, rfl⟩
    · cases hs
      exact ⟨grows_of_samePart hg hx hy (beside_of_commit ..),
        fun r' hne => samePart_of_commit hne x bm⟩
    · exact ⟨(rely_grows libs r).refl _, fun r' _ => (rely_samePart r').refl _⟩

/-- **A `Seal` among others** that leave its part to it. -/
theorem follows_seal (hw : Unknown r w) :
    Follows sem (SamePart r) (SealMove libs r) (sealBlock libs r).run (fun _ _ => True) w := by
  have halone : Follows sem Eq (Grows libs r) (sealBlock libs r).run (fun _ _ => True) w :=
    follows_sealBlock hw
  have hsim : ∀ {x y g}, SamePart r x g → SamePart r x y → SamePart r y g :=
    fun hx hxy => (rely_samePart r).trans hxy.symm hx
  have hop : ∀ (o : Op) (x : World) (res : o.Res) (y g : World), SealsOwn r o → SamePart r x g →
      sem o x res y →
        ∃ g', sem o g res g' ∧ SamePart r y g' ∧ (Grows libs r g g' → SealMove libs r x y) :=
    fun _ _ _ _ _ ho hx hs => sealMove_of_sem ho hx hs
  exact (halone.apart (calls_sealOwn libs r) @hsim hop ((rely_samePart r).refl w)).mono
    fun _ _ _ => trivial

/-- The seals of `B`, one program for each. -/
def sealText (libs : Libs) (B : List SealRequest) (r : {r // r ∈ B}) : Proc Unit :=
  (sealBlock libs r.1).run.void

/-- One step of the seals of `B`: an operation of one of them, the start of
one, or something the writers do to their WAL. -/
abbrev SealStep (libs : Libs) (B : List SealRequest) :
    Pool machine World {r // r ∈ B} → Pool machine World {r // r ∈ B} → Prop :=
  Pool.Step sem (sealText libs B) WalOnly fun _ _ => False

/-- **The contract of the seals.** -/
theorem contract_seals (hids : (B.map SealRequest.blockID).Nodup) :
    Pool.Contract sem (sealText libs B) WalOnly (fun _ _ => False) (fun r => SamePart r.1)
      (fun r => SealMove libs r.1) (fun r => Unknown r.1) where
  rely r := rely_samePart r.1
  others {i j _ _} hne h := h.others _ fun he =>
    hne (Subtype.ext (List.inj_on_of_nodup_map hids i.2 j.2 he.symm))
  env := samePart_of_walOnly
  start h := (follows_seal h).void (rely_samePart _)
  ready h := h.unknown
  crash h := h.elim

/-! ## Blocks only appear -/

/-- What is so of the store at every moment: each block is somewhere on its
way, and the index names no others. -/
structure Stocked (libs : Libs) (A : List SealRequest) (w : World) : Prop where
  stage : ∀ r ∈ A, Stage libs r w
  index : ∀ et kh id, (w.db.view.get (idxKey et kh id)).isSome → ∃ r ∈ A, r.blockID = id

/-- What was so of a block is still so. -/
structure Progress (libs : Libs) (A : List SealRequest) (x y : World) : Prop where
  named : ∀ r ∈ A, Named x r → Named y r
  present : ∀ r ∈ A, Present libs x r → Present libs y r

def Later (libs : Libs) (A : List SealRequest) (x y : World) : Prop :=
  Stocked libs A x → Stocked libs A y ∧ Progress libs A x y

theorem rely_later (libs : Libs) (A : List SealRequest) : Rely (Later libs A) where
  refl _ h := ⟨h, fun _ _ hn => hn, fun _ _ hp => hp⟩
  trans h₁ h₂ h := by
    obtain ⟨hb, hab⟩ := h₁ h
    obtain ⟨hc, hbc⟩ := h₂ hb
    exact ⟨hc, fun r hr hn => hbc.named r hr (hab.named r hr hn),
      fun r hr hp => hbc.present r hr (hab.present r hr hp)⟩

/-- A step that leaves all blocks as they are. -/
theorem later_of_samePart (h : ∀ r ∈ A, SamePart r x y)
    (hidx : ∀ et kh id, y.db.view.get (idxKey et kh id) = x.db.view.get (idxKey et kh id)) :
    Later libs A x y := by
  refine fun hs => ⟨⟨fun r hr => (h r hr).stage (hs.stage r hr), fun et kh id hk => ?_⟩,
    fun r hr hn => (h r hr).named hn, fun r hr hp => (h r hr).present hp⟩
  rw [hidx] at hk
  exact hs.index et kh id hk

/-- An operation of a `Seal`. -/
theorem later_of_sealMove (hids : (A.map SealRequest.blockID).Nodup) (hr : r ∈ A)
    (h : SealMove libs r x y) : Later libs A x y := by
  intro hs
  -- it is about its own block, or leaves the block alone
  have hcases : ∀ r' ∈ A, r' = r ∨ SamePart r' x y := by
    intro r' hr'
    by_cases he : r'.blockID = r.blockID
    · exact Or.inl (List.inj_on_of_nodup_map hids hr' hr he)
    · exact Or.inr (h.others r' he)
  refine ⟨⟨fun r' hr' => ?_, fun et kh id hk => ?_⟩, fun r' hr' hn => ?_, fun r' hr' hp => ?_⟩
  · rcases hcases r' hr' with rfl | hsame
    · exact h.grows.stage (hs.stage r' hr')
    · exact hsame.stage (hs.stage r' hr')
  · by_cases hid : id = r.blockID
    · exact ⟨r, hr, hid.symm⟩
    · rw [h.grows.beside.idx et kh id hid] at hk
      exact hs.index et kh id hk
  · rcases hcases r' hr' with rfl | hsame
    · exact h.grows.named hn
    · exact hsame.named hn
  · rcases hcases r' hr' with rfl | hsame
    · exact h.grows.present hp
    · exact hsame.present hp

/-- **Whatever the pool does, blocks only appear.** -/
theorem later_of_moves (hids : (A.map SealRequest.blockID).Nodup) (hB : ∀ r ∈ B, r ∈ A)
    (h : Pool.Moves WalOnly (fun _ _ => False) (fun r : {r // r ∈ B} => SealMove libs r.1) x y) :
    Later libs A x y := by
  rcases h with rfl | ⟨i, hi⟩ | hwal | hcrash
  · exact (rely_later libs A).refl x
  · exact later_of_sealMove hids (hB i.1 i.2) hi
  · refine later_of_samePart (fun r _ => samePart_of_walOnly hwal) fun et kh id => hwal.2 _ ?_ ?_
    all_goals rw [family_idxKey]; decide
  · exact hcrash.elim

/-- What a query can rely on, if the blocks of `S` are there when it begins. -/
theorem scene_later {S : List SealRequest} (hcat : Catalog st A) (hsub : ∀ r ∈ S, r ∈ A) :
    Scene libs st A S semExec (Later libs A)
      fun w => Stocked libs A w ∧ ∀ r ∈ S, Present libs w r where
  catalog := hcat
  sub := hsub
  exec he := he
  rely := rely_later libs A
  keep hw hR := ⟨(hR hw.1).1, fun r hr => (hR hw.1).2.present r (hsub r hr) (hw.2 r hr)⟩
  index {_ et kh _} hw hk := by
    obtain ⟨r, hr, rfl⟩ := hw.1.index _ _ _ hk
    exact ⟨r, hr, rfl, ((hw.1.stage r hr).type et kh hk).symm⟩
  present hw := hw.2
  bloom hw hR r hr hn := Or.inl (((hR hw.1).1.stage r hr).named ((hR hw.1).2.named r hr hn))
  blk hw r hr := ((hw.1.stage r hr).blk.imp_right fun hp => hp.blk).symm
  read {w w'} hw hR r hr hm _ _ _ := by
    rcases (hw.1.stage r hr).blk with hnone | hp
    · rw [HasMeta, hnone] at hm
      cases hm
    · exact ((hR hw.1).2.present r hr hp).file

/-! ## The cache -/

section Cache

variable {S : List SealRequest} {semQ : Sem machine World} {R : World → World → Prop}
  {Good : World → Prop} (sc : Scene libs st A S semQ R Good) {kh : UInt64}

include sc

/-- No filter of any block hides a row, also not one that was loaded while
the block's `Seal` was at work. -/
theorem sound_test {c : BloomCache libs} (hc : Scene.Sound A st c) (hr : r ∈ A)
    (hnamed : Scene.Earlier R Good (Named · r) w) :
    Follows semQ R Eq (c.test r.blockID kh) (fun res _ => Scene.Sound A st res.2) w := by
  unfold BloomCache.test
  cases hitem : c.items.get r.blockID with
  | some elem => exact follows_pure fun _ _ => hc.shrink (BloomCache.shrinks_moveToFront c elem)
  | none =>
      rw [hc.store]
      refine follows_bind sc.rely ((sc.follows_loadFromDisk hr hnamed).mono fun res x h => ?_)
      rcases h with ⟨-, rfl⟩ | ⟨f, size, rfl, htest⟩
      · exact follows_pure fun _ _ => hc
      · have hs := hc.shrink (BloomCache.shrinks_evictUntil size c.order.length c)
        refine follows_pure fun _ _ => ⟨hs.store, fun r' hr' elem hi => ?_⟩
        simp only [BloomCache.insert, OrdMap.get_set] at hi
        split_ifs at hi with hid
        · cases hi
          rw [sc.catalog.eq_of_id hr' hr hid]
          exact htest
        · exact hs.finds r' hr' elem hi

theorem sound_selectTasks {rs : List SealRequest} :
    ∀ {c : BloomCache libs} {w : World}, Good w → Scene.Sound A st c → (∀ r ∈ rs, r ∈ A) →
      (∀ r ∈ rs, Scene.Earlier R Good (Named · r) w) →
      Follows semQ R Eq (selectTasks libs eng kh c (rs.map SealRequest.blockID))
        (fun res _ => Scene.Sound A st res.2) w := by
  induction rs with
  | nil => exact fun _ hc _ _ => follows_pure fun _ _ => hc
  | cons r rs ih =>
      intro c w hw hc hA hnamed
      have hr := hA r List.mem_cons_self
      refine follows_bind sc.rely ((sc.moves (sound_test sc hc hr
        (hnamed r List.mem_cons_self))).mono fun tested x h => ?_)
      obtain ⟨hsound, hwx⟩ := h
      have hrest : ∀ y, R w y → Follows semQ R Eq
          (selectTasks libs eng kh tested.2 (rs.map SealRequest.blockID))
            (fun res _ => Scene.Sound A st res.2) y := fun y hy =>
        ih (sc.keep hw hy) hsound (fun r' h => hA r' (List.mem_cons_of_mem _ h))
          fun r' h => (hnamed r' (List.mem_cons_of_mem _ h)).env sc hy
      rcases tested.1 with e | b
      · exact follows_pure fun _ _ => hsound
      cases b with
      | false => exact hrest x hwx
      | true =>
          refine follows_bind sc.rely ((sc.moves (sc.follows_getBlockMeta (sc.keep hw hwx)
            hr)).mono fun res y h => ?_)
          have hwy := sc.rely.trans hwx h.2
          cases res with
          | error e =>
              dsimp only
              split_ifs
              · exact hrest y hwy
              · exact follows_pure fun _ _ => hsound
          | ok bmeta =>
              dsimp only
              cases eng.tiers bmeta.tier with
              | none => exact hrest y hwy
              | some store =>
                  exact follows_bind sc.rely ((hrest y hwy).mono fun _ _ hfound =>
                    follows_pure fun _ _ => hfound)

theorem sound_query {c : BloomCache libs} (hc : Scene.Sound A st c) (hw : Good w)
    (req : QueryRequest) :
    Follows semQ R Eq (query libs eng c req) (fun res _ => Scene.Sound A st res.2) w := by
  have hpure : ∀ {c' : BloomCache libs} {a : Except Err (List Event)} {y : World},
      Scene.Sound A st c' → Follows semQ R Eq
        (Pure.pure (a, c') : Proc (Except Err (List Event) × BloomCache libs))
          (fun res _ => Scene.Sound A st res.2) y :=
    fun h => follows_pure fun _ _ => h
  unfold query
  split
  · exact hpure hc
  split
  · exact hpure hc
  refine follows_bind sc.rely ((sc.follows_candidates hw req).mono fun res x h => ?_)
  obtain ⟨rs, rfl, hfinds⟩ := h
  dsimp only
  split_ifs
  · exact hpure hc
  refine follows_bind sc.rely ((sound_selectTasks sc hfinds.good hc
    (fun r hr => (hfinds.mem r hr).1) hfinds.named).mono fun selected y hsound => ?_)
  rcases selected.1 with e | tasks
  · exact hpure hsound
  dsimp only
  split_ifs
  · exact hpure hsound
  -- the rest only reads blocks
  have hreads : Follows semQ R Eq (readTasks libs (keyHashFor libs req.partitionKey) req.from_
      req.to_ tasks (eng.readOrder tasks.length)) (fun _ _ => True) y := by
    refine (calls_readTasks _ _ tasks _).follows (fun _ _ => trivial) (fun o a res b ho _ hs => ?_)
      trivial
    exact ⟨sem_reads ho (Or.inl (sc.exec hs)), trivial⟩
  refine follows_bind sc.rely (hreads.mono fun done z _ => ?_)
  rcases collectSlices (resultsOf tasks.length done) with e | slices
  · exact hpure hsound
  · exact hpure hsound

end Cache

/-! ## A client beside the seals -/

/-- What the seals and the queries work on: the pool of seals, with its world,
and the bloom cache. -/
abbrev SessionState (libs : Libs) (B : List SealRequest) : Type :=
  Pool machine World {r // r ∈ B} × BloomCache libs

/-- A query, with steps of the seals before each of its reads and at its end. -/
abbrev QueriedAmong (libs : Libs) (eng : Engine) (B : List SealRequest) (s : SessionState libs B)
    (req : QueryRequest) (res : Except Err (List Event)) (s' : SessionState libs B) : Prop :=
  RunsAmong semExec.inPool (SealStep libs B) (query libs eng s.2 req) s.1 (res, s'.2) s'.1

/-- The seals go on, or the client sends a query. -/
inductive SessionStep (libs : Libs) (eng : Engine) (B : List SealRequest) :
    SessionState libs B → SessionState libs B → Prop
  | seals {c c' : Pool machine World {r // r ∈ B}} {bc : BloomCache libs} :
      SealStep libs B c c' → SessionStep libs eng B (c, bc) (c', bc)
  | queried {s s' : SessionState libs B} {req : QueryRequest} {res : Except Err (List Event)} :
      QueriedAmong libs eng B s req res s' → SessionStep libs eng B s s'

abbrev Session (libs : Libs) (eng : Engine) (B : List SealRequest) :
    SessionState libs B → SessionState libs B → Prop :=
  Relation.ReflTransGen (SessionStep libs eng B)

/-- The final batch of the block is committed. -/
def Committed (w : World) (r : SealRequest) : Prop :=
  (w.db.view.get (blockKey r.blockID)).isSome

/-- A committed block is complete. -/
theorem Stocked.present (h : Stocked libs A w) (hr : r ∈ A) (hc : Committed w r) :
    Present libs w r := by
  rcases (h.stage r hr).blk with hnone | hp
  · rw [Committed, hnone] at hc
    cases hc
  · exact hp

theorem committed_of_present (h : Present libs w r) : Committed w r := by
  rw [Committed, h.blk]
  rfl

/-- The blocks of a store and those still to be sealed. -/
theorem Catalog.seals (h : Catalog st A) (hids : ((A ++ B).map SealRequest.blockID).Nodup)
    (hstore : ∀ r ∈ B, r.store = st)
    (hpayloads : ∀ r ∈ B, ∀ e ∈ r.memtable.rows, e.payload.length < 2 ^ 32) :
    Catalog st (A ++ B) :=
  ⟨hids, List.forall_mem_append.mpr ⟨h.store, hstore⟩,
    List.forall_mem_append.mpr ⟨h.payloads, hpayloads⟩⟩

/-- What is so at every moment of a session. -/
structure SessionOK (libs : Libs) (st : LocalStore) (A B : List SealRequest)
    (s : SessionState libs B) : Prop where
  follow : s.1.Follow sem (fun r => SamePart r.1) (fun r => SealMove libs r.1)
    (fun r => Unknown r.1)
  stocked : Stocked libs (A ++ B) s.1.world
  sound : Scene.Sound (A ++ B) st s.2

section Session

variable {s s' s₁ s₂ s₃ : SessionState libs B} {req : QueryRequest}
  {res : Except Err (List Event)} (hcat : Catalog st (A ++ B))

include hcat

/-- At the beginning, with the blocks of `B` still to be sealed. -/
theorem sessionOK_start {bc : BloomCache libs} (hfilled : FilledOK libs st A w bc)
    (hnew : ∀ r ∈ B, Unknown r w) : SessionOK libs st A B (⟨w, [], []⟩, bc) where
  follow := by
    refine ⟨List.nodup_nil, ?_, ?_, fun r _ => hnew r.1 r.2⟩
    · exact fun p hp => absurd hp List.not_mem_nil
    · exact fun p hp => absurd hp List.not_mem_nil
  stocked := by
    refine ⟨List.forall_mem_append.mpr ⟨fun r hr => ?_, fun r hr => (hnew r hr).stage⟩, ?_⟩
    · have hp := hfilled.present r hr
      refine ⟨fun et kh hk => ?_, fun _ => hp.bloom, Or.inr hp⟩
      obtain ⟨r', hr', he, rfl⟩ := hfilled.index et kh _ hk
      rw [hfilled.catalog.eq_of_id hr' hr he]
    · intro et kh id hk
      obtain ⟨r, hr, he, -⟩ := hfilled.index et kh id hk
      exact ⟨r, List.mem_append_left B hr, he⟩
  sound := by
    refine ⟨hfilled.sound.store, List.forall_mem_append.mpr ⟨hfilled.sound.finds, ?_⟩⟩
    -- no filter is cached of a block that is still to be sealed
    intro r hr elem hi
    obtain ⟨r', hr', he⟩ := hfilled.cached _ elem hi
    obtain rfl := hcat.eq_of_id (List.mem_append_left B hr') (List.mem_append_right A hr) he
    exact hfilled.sound.finds r' hr' elem hi

theorem contract_session :
    Pool.Contract sem (sealText libs B) WalOnly (fun _ _ => False) (fun r => SamePart r.1)
      (fun r => SealMove libs r.1) (fun r => Unknown r.1) := by
  have hids := hcat.ids
  rw [List.map_append] at hids
  exact contract_seals hids.of_append_right

theorem later_of_pool
    (h : Pool.Moves WalOnly (fun _ _ => False) (fun r : {r // r ∈ B} => SealMove libs r.1) x y) :
    Later libs (A ++ B) x y :=
  later_of_moves hcat.ids (fun _ => List.mem_append_right A) h

/-- What the logic says of a query in a session. -/
theorem SessionOK.run {Q : Except Err (List Event) × BloomCache libs → World → Prop}
    (h : SessionOK libs st A B s)
    (hf : Follows semExec (Later libs (A ++ B)) Eq (query libs eng s.2 req) Q s.1.world)
    (hq : QueriedAmong libs eng B s req res s') :
    Q (res, s'.2) s'.1.world ∧ Later libs (A ++ B) s.1.world s'.1.world ∧
      s'.1.Follow sem (fun r => SamePart r.1) (fun r => SealMove libs r.1)
        (fun r => Unknown r.1) := by
  have hR := rely_later libs (A ++ B)
  obtain ⟨hfollow, hruns⟩ := RunsAmong.inPool (contract_session hcat)
    (fun ho hs => (sem_reads ho (Or.inl hs)).symm) (calls_query eng s.2 req) h.follow hq
  have heq : ∀ {x y : World}, x = y → Later libs (A ++ B) x y := fun he => he ▸ hR.refl _
  obtain ⟨hQ, hlater⟩ := (hf.moves hR heq).runsAmong hR (later_of_pool hcat) hruns
  exact ⟨hQ, hlater, hfollow⟩

/-- One step of a session. -/
theorem SessionOK.step (h : SessionOK libs st A B s) (hs : SessionStep libs eng B s s') :
    SessionOK libs st A B s' ∧ Progress libs (A ++ B) s.1.world s'.1.world := by
  cases hs with
  | seals hs =>
      obtain ⟨hfollow, hmove⟩ := h.follow.step (contract_session hcat) hs
      obtain ⟨hstocked, hprogress⟩ := later_of_pool hcat hmove h.stocked
      exact ⟨⟨hfollow, hstocked, h.sound⟩, hprogress⟩
  | queried hq =>
      have hnil : ∀ r ∈ ([] : List SealRequest), r ∈ A ++ B := fun r hr => absurd hr List.not_mem_nil
      have hgood : Stocked libs (A ++ B) s.1.world ∧
          ∀ r ∈ ([] : List SealRequest), Present libs s.1.world r :=
        ⟨h.stocked, fun r hr => absurd hr List.not_mem_nil⟩
      obtain ⟨hsound, hlater, hfollow⟩ := h.run hcat
        (sound_query (scene_later hcat hnil) h.sound hgood _) hq
      obtain ⟨hstocked, hprogress⟩ := hlater h.stocked
      exact ⟨⟨hfollow, hstocked, hsound⟩, hprogress⟩

/-- **All of a session.** -/
theorem SessionOK.session (h : SessionOK libs st A B s) (hs : Session libs eng B s s') :
    SessionOK libs st A B s' ∧ Progress libs (A ++ B) s.1.world s'.1.world := by
  induction hs with
  | refl => exact ⟨h, fun _ _ hn => hn, fun _ _ hp => hp⟩
  | tail _ hstep ih =>
      obtain ⟨hok, hp⟩ := ih
      obtain ⟨hok', hp'⟩ := hok.step hcat hstep
      exact ⟨hok', fun r hr hn => hp'.named r hr (hp.named r hr hn),
        fun r hr hn => hp'.present r hr (hp.present r hr hn)⟩

/-- **What a query of a session returns.** -/
theorem SessionOK.answers (h : SessionOK libs st A B s) (htier : eng.tiers tierHot = some st)
    (hreq : Proper req) (hq : QueriedAmong libs eng B s req res s') :
    ∃ (out : List Event) (V : List SealRequest), res = .ok out ∧ V.Sublist (A ++ B) ∧
      (∀ r ∈ A ++ B, Committed s.1.world r → r ∈ V) ∧ (∀ r ∈ V, Committed s'.1.world r) ∧
      out.Perm (V.flatMap (wanted libs req)) ∧
      out.Pairwise fun a b => a.timestamp ≤ b.timestamp := by
  classical
  -- the blocks that are there when the query begins
  let S := (A ++ B).filter fun r => Committed s.1.world r
  have hS : ∀ {r}, r ∈ S ↔ r ∈ A ++ B ∧ Committed s.1.world r := by
    intro r
    rw [List.mem_filter, decide_eq_true_iff]
  have hsub : ∀ r ∈ S, r ∈ A ++ B := fun r hr => (hS.mp hr).1
  have hpresent : ∀ r ∈ S, Present libs s.1.world r :=
    fun r hr => h.stocked.present (hsub r hr) (hS.mp hr).2
  have hsound : Scene.Sound S st s.2 :=
    ⟨h.sound.store, fun r hr => h.sound.finds r (hsub r hr)⟩
  obtain ⟨⟨-, out, V, hout, hV, hSV, hVP, hperm, hord⟩, hlater, -⟩ := h.run hcat
    ((scene_later hcat hsub).follows_query htier hsound ⟨h.stocked, hpresent⟩ hreq) hq
  refine ⟨out, V, hout, hV, fun r hr hc => hSV r (hS.mpr ⟨hr, hc⟩), fun r hr => ?_, hperm, hord⟩
  have hmem := hV.subset hr
  rcases hVP r hr with hr | ⟨z, hz, hzy, hm⟩
  · exact committed_of_present ((hlater h.stocked).2.present r hmem (hpresent r hr))
  · -- its metadata was seen on the way
    have hc : Committed z r := by
      rw [Committed, hm]
      rfl
    exact committed_of_present ((hzy hz.1).2.present r hmem (hz.1.present hmem hc))

end Session

/-- **A query beside any number of seals.** From a filled store, seals of new
blocks run side by side in any interleaving, and a client sends queries. Each
query succeeds and returns, by timestamp, exactly the wanted rows of some
blocks: of all that were committed when it began, and of none that is not
committed when it ends. -/
theorem session_answers (libs : Libs) (eng : Engine) (st : LocalStore)
    (htier : eng.tiers tierHot = some st) (A B : List SealRequest) (w : World)
    (bc : BloomCache libs) (hfilled : Filled libs eng st A w bc)
    (hids : ((A ++ B).map SealRequest.blockID).Nodup) (hstore : ∀ r ∈ B, r.store = st)
    (hpayloads : ∀ r ∈ B, ∀ e ∈ r.memtable.rows, e.payload.length < 2 ^ 32)
    (hnew : ∀ r ∈ B, Unknown r w) (s s' : SessionState libs B)
    (hsession : Session libs eng B (⟨w, [], []⟩, bc) s) (req : QueryRequest) (hreq : Proper req)
    (res : Except Err (List Event)) (hquery : QueriedAmong libs eng B s req res s') :
    ∃ (out : List Event) (V : List SealRequest), res = .ok out ∧ V.Sublist (A ++ B) ∧
      (∀ r ∈ A ++ B, Committed s.1.world r → r ∈ V) ∧ (∀ r ∈ V, Committed s'.1.world r) ∧
      out.Perm (V.flatMap (wanted libs req)) ∧
      out.Pairwise fun a b => a.timestamp ≤ b.timestamp := by
  have hok := hfilled.ok
  have hcat := hok.catalog.seals hids hstore hpayloads
  obtain ⟨h, -⟩ := (sessionOK_start hcat hok hnew).session hcat hsession
  exact h.answers hcat htier hreq hquery

/-- **What a client has been told, it is told again.** Of two queries for the
same, the later one returns at least the rows of the earlier. -/
theorem session_monotone (libs : Libs) (eng : Engine) (st : LocalStore)
    (htier : eng.tiers tierHot = some st) (A B : List SealRequest) (w : World)
    (bc : BloomCache libs) (hfilled : Filled libs eng st A w bc)
    (hids : ((A ++ B).map SealRequest.blockID).Nodup) (hstore : ∀ r ∈ B, r.store = st)
    (hpayloads : ∀ r ∈ B, ∀ e ∈ r.memtable.rows, e.payload.length < 2 ^ 32)
    (hnew : ∀ r ∈ B, Unknown r w) (s₁ s₂ s₃ s₄ : SessionState libs B)
    (h₁ : Session libs eng B (⟨w, [], []⟩, bc) s₁) (req : QueryRequest) (hreq : Proper req)
    (res₁ res₂ : Except Err (List Event)) (hq₁ : QueriedAmong libs eng B s₁ req res₁ s₂)
    (h₂ : Session libs eng B s₂ s₃) (hq₂ : QueriedAmong libs eng B s₃ req res₂ s₄) :
    ∃ out₁ out₂, res₁ = .ok out₁ ∧ res₂ = .ok out₂ ∧ out₁.Subperm out₂ := by
  have hok := hfilled.ok
  have hcat := hok.catalog.seals hids hstore hpayloads
  obtain ⟨hok₁, -⟩ := (sessionOK_start hcat hok hnew).session hcat h₁
  obtain ⟨hok₂, -⟩ := hok₁.step hcat (.queried hq₁)
  obtain ⟨hok₃, hprogress⟩ := hok₂.session hcat h₂
  obtain ⟨out₁, V₁, rfl, hV₁, -, hseen, hperm₁, -⟩ := hok₁.answers hcat htier hreq hq₁
  obtain ⟨out₂, V₂, rfl, hV₂, hall, -, hperm₂, -⟩ := hok₃.answers hcat htier hreq hq₂
  -- what the first query has seen is committed when the second begins
  have hsub : V₁ ⊆ V₂ := by
    intro r hr
    have hmem := hV₁.subset hr
    exact hall r hmem (committed_of_present
      (hprogress.present r hmem (hok₂.stocked.present hmem (hseen r hr))))
  have hsubperm : V₁.Subperm V₂ :=
    List.subperm_of_subset (hcat.ids.of_map.sublist hV₁) hsub
  obtain ⟨V, hVperm, hVsub⟩ := hsubperm
  have hrows : (V₁.flatMap (wanted libs req)).Subperm (V₂.flatMap (wanted libs req)) :=
    ⟨V.flatMap (wanted libs req), hVperm.flatMap_right _, hVsub.flatMap _⟩
  exact ⟨out₁, out₂, rfl, rfl, hperm₁.subperm.trans (hrows.trans hperm₂.symm.subperm)⟩

/-! A seal beside queries: `oneRow` is there, `nextRow` is sealed. -/

/-- The empty store. -/
def blankWorld : World := ⟨Pebble.empty, fun _ => none, 0⟩

/-- The only `Seal` of the session. -/
def nextSeal : {r // r ∈ [nextRow]} := ⟨nextRow, List.mem_singleton_self _⟩

/-- It has performed all its operations but the final batch. -/
def sealingNext : Proc Unit × World :=
  advance Op.exec 14 (sealText Libs.plain [nextRow] nextSeal) oneRowSealed

def poolSealing : Pool machine World {r // r ∈ [nextRow]} :=
  ⟨sealingNext.2, [(nextSeal, sealingNext.1)], [nextSeal]⟩

/-- It goes on to its end from some world. -/
def poolSealed (w : World) : Pool machine World {r // r ∈ [nextRow]} :=
  ⟨(sealingNext.1.exec w).2, [(nextSeal, .pure ())], [nextSeal]⟩

theorem reach_poolSealed (w : World) :
    Pool.Reach sem (sealText Libs.plain [nextRow]) WalOnly (fun _ _ => False)
      ⟨w, [(nextSeal, sealingNext.1)], [nextSeal]⟩ (poolSealed w) :=
  Pool.reach_of_runs (runs_procExec sealingNext.1 w)

theorem session_of_reach {eng : Engine} {c c' : Pool machine World {r // r ∈ B}}
    (h : Pool.Reach sem (sealText libs B) WalOnly (fun _ _ => False) c c') (bc : BloomCache libs) :
    Session libs eng B (c, bc) (c', bc) :=
  h.lift (fun c => (c, bc)) fun _ _ hs => .seals hs

theorem session_poolSealing {eng : Engine} (bc : BloomCache Libs.plain) :
    Session Libs.plain eng [nextRow] (⟨oneRowSealed, [], []⟩, bc) (poolSealing, bc) :=
  session_of_reach (.head (.spawn List.not_mem_nil) (Pool.reach_advance fun _ _ => Or.inl rfl)) bc

/-- Nothing is known of the second block. -/
theorem unknown_nextRow : ∀ r ∈ [nextRow], Unknown r oneRowSealed := by
  intro r hr
  obtain rfl := List.mem_singleton.mp hr
  have hne : nextRow.blockID ≠ oneRow.blockID := by decide +kernel
  obtain ⟨ws, hrun⟩ := runs_oneRowSealed
  have hbeside := beside_of_runs hrun
  exact ⟨fun et kh => hbeside.idx et kh _ hne, hbeside.blk _ hne⟩

/-- A query while the seals rest. -/
theorem queriedAmong_exec (eng : Engine) (c : Pool machine World {r // r ∈ B})
    (bc : BloomCache libs) (req : QueryRequest) :
    QueriedAmong libs eng B (c, bc) req ((query libs eng bc req).exec c.world).1.1
      (c, ((query libs eng bc req).exec c.world).1.2) := by
  have hrun := runs_semExec (query libs eng bc req) c.world
  rw [show ((query libs eng bc req).exec c.world).2 = c.world from
    congrArg Prod.snd (exec_of_calls (calls_query eng bc req) c.world)] at hrun
  exact RunsAmong.of_runs hrun

/-- What the query does after its lookup. -/
def lookedUpBoth : Proc (Except Err (List Event) × BloomCache Libs.plain) × World :=
  advance Op.exec 1 (query Libs.plain oneRowEngine (newBloomCache oneRow.store 0) twoRowsQuery)
    sealingNext.2

/-- The world when the `Seal` has committed right after the lookup. -/
def sealedThen : World := (sealingNext.1.exec lookedUpBoth.2).2

set_option maxRecDepth 100000 in
theorem result_lookedUpBoth : (lookedUpBoth.1.exec sealedThen).1.1 = .ok bothRows := by
  decide +kernel

/-- The `Seal` commits between the lookup of the query and its other reads. -/
theorem queriedAmong_sealing : ∃ s',
    QueriedAmong Libs.plain oneRowEngine [nextRow] (poolSealing, newBloomCache oneRow.store 0)
      twoRowsQuery (.ok bothRows) s' := by
  have hrest := runs_semExec lookedUpBoth.1 sealedThen
  rw [Prod.fst_eq_iff.mp result_lookedUpBoth] at hrest
  have hafter : RunsAmong semExec.inPool (SealStep Libs.plain [nextRow]) lookedUpBoth.1
      ⟨lookedUpBoth.2, [(nextSeal, sealingNext.1)], [nextSeal]⟩
      (.ok bothRows, (lookedUpBoth.1.exec sealedThen).1.2)
      ⟨(lookedUpBoth.1.exec sealedThen).2, [(nextSeal, .pure ())], [nextSeal]⟩ :=
    (RunsAmong.of_runs hrest).head (reach_poolSealed lookedUpBoth.2)
  have hlookup : ∀ v ∈ visits Op.exec 1 (query Libs.plain oneRowEngine
      (newBloomCache oneRow.store 0) twoRowsQuery) sealingNext.2,
      semExec v.1 v.2 (Op.exec v.1 v.2).1 (Op.exec v.1 v.2).2 := fun _ _ => rfl
  have hquery := RunsAmong.of_advance (S := machine) Op.exec 1 hlookup hafter
  exact ⟨(⟨_, _, _⟩, _), by simpa only [QueriedAmong, poolSealing] using hquery⟩

set_option maxRecDepth 100000 in
/-- The query returns the rows of both blocks, although the second was not
committed when it began. -/
theorem session_answers_nextRow : ∃ s',
    QueriedAmong Libs.plain oneRowEngine [nextRow] (poolSealing, newBloomCache oneRow.store 0)
      twoRowsQuery (.ok bothRows) s' ∧
    Committed poolSealing.world oneRow ∧ ¬ Committed poolSealing.world nextRow ∧
    ∃ V : List SealRequest, V.Sublist [oneRow, nextRow] ∧ oneRow ∈ V ∧
      (∀ r ∈ V, Committed s'.1.world r) ∧
      bothRows.Perm (V.flatMap (wanted Libs.plain twoRowsQuery)) := by
  obtain ⟨s', hquery⟩ := queriedAmong_sealing
  have hone : Committed poolSealing.world oneRow := by
    unfold Committed
    decide +kernel
  have hnext : ¬ Committed poolSealing.world nextRow := by
    unfold Committed
    decide +kernel
  obtain ⟨out, V, hout, hV, hall, hdone, hperm, -⟩ := session_answers Libs.plain oneRowEngine
    oneRow.store rfl [oneRow] [nextRow] oneRowSealed _ (filled_oneRow 0) (by decide +kernel)
    (by simp [nextRow]) (by decide +kernel) unknown_nextRow _ _ (session_poolSealing _) twoRowsQuery
    proper_twoRowsQuery _ hquery
  rw [Except.ok.injEq] at hout
  subst hout
  exact ⟨s', hquery, hone, hnext, V, hV, hall oneRow (by simp) hone, hdone, hperm⟩

/-- The cache after a query before the final batch. -/
def cacheSealing : BloomCache Libs.plain :=
  ((query Libs.plain oneRowEngine (newBloomCache oneRow.store 0) twoRowsQuery).exec
    poolSealing.world).1.2

set_option maxRecDepth 100000 in
theorem queriedAmong_poolSealing :
    QueriedAmong Libs.plain oneRowEngine [nextRow] (poolSealing, newBloomCache oneRow.store 0)
      twoRowsQuery (.ok [⟨256, 1, [1]⟩]) (poolSealing, cacheSealing) := by
  have hresult : ((query Libs.plain oneRowEngine (newBloomCache oneRow.store 0)
      twoRowsQuery).exec poolSealing.world).1.1 = .ok [⟨256, 1, [1]⟩] := by decide +kernel
  exact hresult ▸ queriedAmong_exec oneRowEngine poolSealing _ twoRowsQuery

set_option maxRecDepth 100000 in
theorem queriedAmong_poolSealed : ∃ s',
    QueriedAmong Libs.plain oneRowEngine [nextRow] (poolSealed sealingNext.2, cacheSealing)
      twoRowsQuery (.ok bothRows) s' := by
  have hresult : ((query Libs.plain oneRowEngine cacheSealing twoRowsQuery).exec
      (poolSealed sealingNext.2).world).1.1 = .ok bothRows := by decide +kernel
  exact ⟨_, hresult ▸ queriedAmong_exec oneRowEngine (poolSealed sealingNext.2) _ twoRowsQuery⟩

/-- Before the final batch of the `Seal` the query returns one row, after it
both. -/
theorem session_monotone_nextRow : ∃ s₂ s₃ s₄ : SessionState Libs.plain [nextRow],
    QueriedAmong Libs.plain oneRowEngine [nextRow] (poolSealing, newBloomCache oneRow.store 0)
      twoRowsQuery (.ok [⟨256, 1, [1]⟩]) s₂ ∧
    Session Libs.plain oneRowEngine [nextRow] s₂ s₃ ∧
    QueriedAmong Libs.plain oneRowEngine [nextRow] s₃ twoRowsQuery (.ok bothRows) s₄ ∧
    [⟨256, 1, [1]⟩].Subperm bothRows := by
  have hsealed : Session Libs.plain oneRowEngine [nextRow] (poolSealing, cacheSealing)
      (poolSealed sealingNext.2, cacheSealing) :=
    session_of_reach (reach_poolSealed sealingNext.2) cacheSealing
  obtain ⟨s₄, hsecond⟩ := queriedAmong_poolSealed
  obtain ⟨out₁, out₂, hout₁, hout₂, hsub⟩ := session_monotone Libs.plain oneRowEngine
    oneRow.store rfl [oneRow] [nextRow] oneRowSealed _ (filled_oneRow 0) (by decide +kernel)
    (by simp [nextRow]) (by decide +kernel) unknown_nextRow _ _ _ _ (session_poolSealing _)
    twoRowsQuery proper_twoRowsQuery _ _ queriedAmong_poolSealing hsealed hsecond
  rw [Except.ok.injEq] at hout₁ hout₂
  subst hout₁ hout₂
  exact ⟨_, _, s₄, queriedAmong_poolSealing, hsealed, hsecond, hsub⟩

end Bbdb.Query
