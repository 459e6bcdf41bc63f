import Bbdb.Block.Stages
import Bbdb.Query.Refines

/-!
# Query — while a new block is sealed

A query runs while `Seal` works on a block of which nothing was known before.
The rest of the store is arbitrary: blocks may be damaged or half deleted, and
the bloom cache may hold anything but a filter of the new block.

Each function a query calls for a candidate looks at the world once, so it
returns what it would return alone at that moment. For other candidates every
moment is as good as the first (`Watch.beside`). The new block has a complete
bloom file once the lookup has found it, and a complete block file once its
metadata has been read (`Watch.stage`). So a query that fails does so because
of another block, and one that succeeds returns all or nothing of the new
block (`new_block_appears_atomically`).
-/

namespace Bbdb.Query

open Bbdb.Block Bbdb.Meta Bbdb.Tier Bbdb.Index GoTime
open Prog hiding pure bind

variable {libs : Libs} {eng : Engine} {r : SealRequest} {w₀ w x y : World} {kh : UInt64}
  {req : QueryRequest}

/-! ## One look at the world -/

theorem follows_single {α : Type} {R : World → World → Prop} {p : Proc α} {Q : α → World → Prop}
    (hp : Single p) (hreads : Calls (S := machine) Op.Reads p) (hR : Rely R)
    (h : ∀ x, R w x → ∀ y, R x y → Q (p.exec x).1 y) : Follows semExec R Eq p Q w := by
  have hsem : ∀ {o : Op} {x : World} {res : o.Res} {y : World}, semExec o x res y →
      (res, y) = Op.exec o x := fun hs => hs
  exact hp.follows hR hsem (fun x => congrArg Prod.snd (exec_of_calls hreads x)) h

theorem single_lookup (et : UInt8) (kh : UInt64) (from_ to_ : Time) :
    Single (lookup et kh from_ to_).run := by
  intro res
  cases res with
  | ok l => exact ⟨_, rfl⟩
  | error e => exact ⟨_, rfl⟩

theorem single_getBlockMeta (id : BlockID) : Single (getBlockMeta id).run := by
  intro res
  cases res with
  | ok val => exact ⟨_, rfl⟩
  | error e =>
      by_cases he : Err.is .pebbleNotFound e = true
      · exact ⟨_, if_pos he⟩
      · exact ⟨_, if_neg he⟩

theorem single_readBlock (store : LocalStore) (id : BlockID) (from_ to_ : Time) :
    Single (readBlock libs store id kh from_ to_).run := by
  intro res
  cases res with
  | ok l => exact ⟨_, rfl⟩
  | error e => cases e <;> exact ⟨_, rfl⟩

theorem single_test (c : BloomCache libs) (id : BlockID) : Single (c.test id kh) := by
  unfold BloomCache.test
  cases c.items.get id with
  | some elem => trivial
  | none =>
      have hload : Single (BloomCache.loadFromDisk libs c.store id).run := by
        intro res
        cases res with
        | ok data =>
            show ∃ a, (ExceptT.mk (Pure.pure (deserializeBloom libs data)) >>= fun bf =>
              Pure.pure (bf, Int64.ofNat data.length) : Go (libs.Filter × Int64)).run = .pure a
            generalize deserializeBloom libs data = res
            cases res with
            | ok f => exact ⟨_, rfl⟩
            | error e => exact ⟨_, rfl⟩
        | error e => exact ⟨_, rfl⟩
      refine hload.map fun res => ?_
      cases res with
      | ok p => exact ⟨_, rfl⟩
      | error e => exact ⟨_, rfl⟩

/-- What an error-free test returns, whatever the cache holds. -/
theorem result_test (c : BloomCache libs) (id : BlockID) (w : World) :
    ((c.test id kh).exec w).1 =
      match c.items.get id with
      | some elem => (.ok (testHash libs elem.value.filter kh), c.moveToFront elem)
      | none =>
          match BloomCache.loadIn libs w c.store id with
          | .error e => (if e = .notExist then .ok false else .error e, c)
          | .ok p => (.ok (testHash libs p.1 kh),
              (BloomCache.evictUntil p.2 c.order.length c).insert id p.1 p.2) := by
  unfold BloomCache.test
  cases c.items.get id with
  | some elem => rfl
  | none =>
      have hload := @BloomCache.exec_loadFromDisk libs w c.store id
      refine (congrArg Prod.fst (exec_bind_of hload)).trans ?_
      cases BloomCache.loadIn libs w c.store id with
      | error e => rfl
      | ok p => rfl

/-! ## What the query watches -/

/-- The world of a query while the block is sealed. -/
structure Watch (libs : Libs) (r : SealRequest) (w₀ w : World) : Prop where
  beside : Beside r.blockID w₀ w
  stage : Stage libs r w

theorem Watch.grows (h : Watch libs r w₀ x) (hg : Grows libs r x y) : Watch libs r w₀ y :=
  ⟨h.beside.trans hg.beside, hg.stage h.stage⟩

/-- Reading what `w` has of the block fails with `e`: its bloom file, its
metadata or its block file. -/
def BlockFails (libs : Libs) (st : LocalStore) (w : World) (req : QueryRequest) (kh : UInt64)
    (id : BlockID) (e : Err) : Prop :=
  BloomCache.testFile libs w st id kh = .error e ∨ ((getBlockMeta id).run.exec w).1 = .error e ∨
    ∃ store, rowsIn libs w kh req ⟨id, store⟩ = .error e

/-! ## Lookups -/

/-- What the lookups for some types return, started in `w` and done in `y`. -/
structure Found (libs : Libs) (r : SealRequest) (w₀ w y : World) (kh : UInt64) (from_ to_ : Time)
    (ets : List UInt8) (ids : List BlockID) : Prop where
  others : ∀ id ∈ ids, id ≠ r.blockID → ∃ et ∈ ets, id ∈ foundBlocks w₀ et kh from_ to_
  once : ids.count r.blockID ≤ ets.count r.eventType
  named : r.blockID ∈ ids → Named y r ∧ r.eventType ∈ ets ∧ overlaps from_ to_ r.blockID = true
  all : Present libs w r → r.eventType ∈ ets → HasHash r kh →
    overlaps from_ to_ r.blockID = true → r.blockID ∈ ids

theorem found_of_foundBlocks {from_ to_ : Time} {et : UInt8} (hx : Watch libs r w₀ x)
    (hwx : Grows libs r w x) (hxy : Grows libs r x y) :
    Found libs r w₀ w y kh from_ to_ [et] (foundBlocks x et kh from_ to_) := by
  refine ⟨fun id hid hne => ⟨et, List.mem_singleton_self et, ?_⟩, ?_, fun hid => ?_,
    fun hp het hhash hov => ?_⟩
  · obtain ⟨hk, hov⟩ := mem_foundBlocks.mp hid
    rw [hx.beside.idx et kh id hne] at hk
    exact mem_foundBlocks.mpr ⟨hk, hov⟩
  · by_cases hid : r.blockID ∈ foundBlocks x et kh from_ to_
    · have het := hx.stage.type et kh (mem_foundBlocks.mp hid).1
      rw [het, List.count_singleton_self]
      exact List.nodup_iff_count_le_one.mp (nodup_foundBlocks ..) _
    · rw [List.count_eq_zero.mpr hid]
      exact Nat.zero_le _
  · obtain ⟨hk, hov⟩ := mem_foundBlocks.mp hid
    refine ⟨hxy.named ⟨et, kh, hk⟩, ?_, hov⟩
    rw [hx.stage.type et kh hk]
    exact List.mem_singleton_self _
  · obtain ⟨e, he, hkh⟩ := hhash
    have hk := (hwx.present hp).indexed e he
    rw [List.mem_singleton.mp het, hkh] at hk
    exact mem_foundBlocks.mpr ⟨hk, hov⟩

theorem Found.append {from_ to_ : Time} {ets₁ ets₂ : List UInt8} {ids₁ ids₂ : List BlockID}
    {w₁ : World} (h₁ : Found libs r w₀ w w₁ kh from_ to_ ets₁ ids₁) (hw : Grows libs r w w₁)
    (h₂ : Found libs r w₀ w₁ y kh from_ to_ ets₂ ids₂) (hy : Grows libs r w₁ y) :
    Found libs r w₀ w y kh from_ to_ (ets₁ ++ ets₂) (ids₁ ++ ids₂) := by
  refine ⟨fun id hid hne => ?_, ?_, fun hid => ?_, fun hp het hhash hov => ?_⟩
  · rcases List.mem_append.mp hid with hid | hid
    · obtain ⟨et, het, hf⟩ := h₁.others id hid hne
      exact ⟨et, List.mem_append_left _ het, hf⟩
    · obtain ⟨et, het, hf⟩ := h₂.others id hid hne
      exact ⟨et, List.mem_append_right _ het, hf⟩
  · rw [List.count_append, List.count_append]
    exact Nat.add_le_add h₁.once h₂.once
  · rcases List.mem_append.mp hid with hid | hid
    · obtain ⟨hn, het, hov⟩ := h₁.named hid
      exact ⟨hy.named hn, List.mem_append_left _ het, hov⟩
    · obtain ⟨hn, het, hov⟩ := h₂.named hid
      exact ⟨hn, List.mem_append_right _ het, hov⟩
  · rcases List.mem_append.mp het with het | het
    · exact List.mem_append_left _ (h₁.all hp het hhash hov)
    · exact List.mem_append_right _ (h₂.all (hw.present hp) het hhash hov)

theorem Found.grows {from_ to_ : Time} {ets : List UInt8} {ids : List BlockID} {z : World}
    (h : Found libs r w₀ w y kh from_ to_ ets ids) (hy : Grows libs r y z) :
    Found libs r w₀ w z kh from_ to_ ets ids :=
  ⟨h.others, h.once, fun hid => (h.named hid).imp_left hy.named, h.all⟩

section Query

theorem watches_lookup (hw : Watch libs r w₀ w) (et : UInt8) (from_ to_ : Time) :
    Follows semExec (Grows libs r) Eq (lookup et kh from_ to_).run
      (fun res y => Grows libs r w y ∧ ∃ ids, res = .ok ids ∧
        Found libs r w₀ w y kh from_ to_ [et] ids) w := by
  have hR := rely_grows libs r
  refine follows_single (single_lookup et kh from_ to_) (calls_lookup et kh from_ to_) hR
    fun x hx y hy => ?_
  rw [exec_lookup]
  exact ⟨hR.trans hx hy, _, rfl, found_of_foundBlocks (hw.grows hx) hx hy⟩

theorem watches_lookupTypes (hw : Watch libs r w₀ w) (from_ to_ : Time) (ets : List UInt8) :
    Follows semExec (Grows libs r) Eq (lookupTypes kh from_ to_ ets).run
      (fun res y => Grows libs r w y ∧ ∃ ids, res = .ok ids ∧
        Found libs r w₀ w y kh from_ to_ ets ids) w := by
  have hR := rely_grows libs r
  induction ets generalizing w with
  | nil =>
      refine follows_pure fun y hy => ⟨hy, [], rfl, ?_, ?_, ?_, ?_⟩
      · exact fun id hid => absurd hid List.not_mem_nil
      · exact Nat.le_refl _
      · exact fun hid => absurd hid List.not_mem_nil
      · exact fun _ het => absurd het List.not_mem_nil
  | cons et ets ih =>
      refine follows_bindE hR ((watches_lookup hw et from_ to_).mono fun res x h => ?_)
      obtain ⟨hwx, ids, rfl, hfirst⟩ := h
      refine follows_bindE hR ((ih (hw.grows hwx)).mono fun res y h => ?_)
      obtain ⟨hxy, ids', rfl, hrest⟩ := h
      intro z hz
      exact ⟨hR.trans hwx (hR.trans hxy hz), _, rfl,
        hfirst.append hwx (hrest.grows hz) (hR.trans hxy hz)⟩

theorem watches_candidates (hw : Watch libs r w₀ w) (req : QueryRequest) :
    Follows semExec (Grows libs r) Eq (candidates req kh).run
      (fun res y => Grows libs r w y ∧ ∃ ids, res = .ok ids ∧
        Found libs r w₀ w y kh req.from_ req.to_ (typesOf req) ids) w := by
  unfold candidates typesOf
  cases req.eventType with
  | some et => exact watches_lookup hw et req.from_ req.to_
  | none => exact watches_lookupTypes hw req.from_ req.to_ allTypes

/-! ## Selection -/

/-- A test of another block answers, or fails like its bloom file. -/
theorem watches_test_other (hw : Watch libs r w₀ w) {c : BloomCache libs} {id : BlockID}
    (hid : id ≠ r.blockID) :
    Follows semExec (Grows libs r) Eq (c.test id kh)
      (fun res y => Grows libs r w y ∧ res.2.store = c.store ∧
        (c.items.get r.blockID = none → res.2.items.get r.blockID = none) ∧
        ((∃ b, res.1 = .ok b) ∨
          ∃ e, res.1 = .error e ∧ BloomCache.testFile libs w₀ c.store id kh = .error e)) w := by
  have hR := rely_grows libs r
  refine follows_single (single_test c id) (BloomCache.calls_test c id kh) hR fun x hx y hy => ?_
  have hshrink : ∀ {c' : BloomCache libs}, BloomCache.Shrinks c c' →
      c.items.get r.blockID = none → c'.items.get r.blockID = none := by
    intro c' hs hnone
    cases hitem : c'.items.get r.blockID with
    | none => rfl
    | some elem =>
        rw [hs.items _ _ hitem] at hnone
        cases hnone
  rw [result_test]
  cases hitem : c.items.get id with
  | some elem =>
      have hs := BloomCache.shrinks_moveToFront c elem
      exact ⟨hR.trans hx hy, hs.store, hshrink hs, Or.inl ⟨_, rfl⟩⟩
  | none =>
      -- the bloom file is that of the first world
      have hfile := (hw.grows hx).beside.bloom c.store id hid
      cases hload : BloomCache.loadIn libs x c.store id with
      | ok p =>
          have hs := BloomCache.shrinks_evictUntil p.2 c.order.length c
          refine ⟨hR.trans hx hy, hs.store, fun hnone => ?_, Or.inl ⟨_, rfl⟩⟩
          simp only [BloomCache.insert, OrdMap.get_set]
          rw [if_neg hid.symm]
          exact hshrink hs hnone
      | error e =>
          refine ⟨hR.trans hx hy, rfl, fun hnone => hnone, ?_⟩
          unfold BloomCache.loadIn at hload
          unfold BloomCache.testFile
          rw [hfile] at hload
          cases hdata : w₀.fs (c.store.bloomPath id) with
          | none =>
              simp only [hdata] at hload
              cases hload
              exact Or.inl ⟨false, by simp⟩
          | some data =>
              cases hf : deserializeBloom libs data with
              | ok f =>
                  simp only [hdata, hf] at hload
                  cases hload
              | error e' =>
                  simp only [hdata, hf] at hload
                  cases hload
                  by_cases he : e = .notExist
                  · exact Or.inl ⟨false, if_pos he⟩
                  · exact Or.inr ⟨e, if_neg he, by simp only [hf, if_neg he]⟩

/-- A test of the new block answers, and says yes for its hashes. -/
theorem watches_test_new (hw : Watch libs r w₀ w) (hnamed : Named w r) {c : BloomCache libs}
    (hstore : c.store = r.store) (hitem : c.items.get r.blockID = none) :
    Follows semExec (Grows libs r) Eq (c.test r.blockID kh)
      (fun res y => Grows libs r w y ∧ res.2.store = c.store ∧
        ∃ b, res.1 = .ok b ∧ (HasHash r kh → b = true)) w := by
  have hR := rely_grows libs r
  refine follows_single (single_test c r.blockID) (BloomCache.calls_test c r.blockID kh) hR
    fun x hx y hy => ?_
  have hbloom := (hw.grows hx).stage.named (hx.named hnamed)
  obtain ⟨data, -, hdata⟩ := id hbloom
  obtain ⟨f, hf, htest⟩ := Scene.filter_of_hasBloom hbloom hdata
  have hload : BloomCache.loadIn libs x c.store r.blockID = .ok (f, Int64.ofNat data.length) := by
    have hpath : x.fs (c.store.bloomPath r.blockID) = some data := by rw [hstore]; exact hdata
    simp only [BloomCache.loadIn, hpath, hf]
  rw [result_test, hitem, hload]
  refine ⟨hR.trans hx hy, (BloomCache.shrinks_evictUntil _ _ c).store, _, rfl, fun hhash => ?_⟩
  obtain ⟨e, he, rfl⟩ := hhash
  exact htest e he

/-- What the loop over the candidates selects, started in `w` and done in
`y`. -/
structure Selected (libs : Libs) (r : SealRequest) (w y : World) (kh : UInt64)
    (ids : List BlockID) (ts : List BlockTask) : Prop where
  mem : ∀ t ∈ ts, t.id ∈ ids
  once : (ts.map BlockTask.id).count r.blockID ≤ ids.count r.blockID
  new : ∀ t ∈ ts, t.id = r.blockID → t.store = r.store ∧ Present libs y r
  all : Present libs w r → HasHash r kh → r.blockID ∈ ids → r.blockID ∈ ts.map BlockTask.id

theorem Selected.skip {ids : List BlockID} {ts : List BlockTask} {id : BlockID}
    (h : Selected libs r x y kh ids ts) (hw : Grows libs r w x)
    (hnew : id = r.blockID → Present libs w r → HasHash r kh → False) :
    Selected libs r w y kh (id :: ids) ts := by
  refine ⟨fun t ht => List.mem_cons_of_mem _ (h.mem t ht), ?_, h.new, fun hp hhash hid => ?_⟩
  · exact h.once.trans (List.count_le_count_cons)
  · rcases List.mem_cons.mp hid with he | hid
    · exact (hnew he.symm hp hhash).elim
    · exact h.all (hw.present hp) hhash hid

theorem Selected.take {ids : List BlockID} {ts : List BlockTask} {id : BlockID}
    {store : LocalStore} (h : Selected libs r x y kh ids ts) (hw : Grows libs r w x)
    (hnew : id = r.blockID → store = r.store ∧ Present libs y r) :
    Selected libs r w y kh (id :: ids) (⟨id, store⟩ :: ts) := by
  refine ⟨fun t ht => ?_, ?_, fun t ht hid => ?_, fun hp hhash hid => ?_⟩
  · rcases List.mem_cons.mp ht with rfl | ht
    · exact List.mem_cons_self
    · exact List.mem_cons_of_mem _ (h.mem t ht)
  · rw [List.map_cons, List.count_cons, List.count_cons]
    exact Nat.add_le_add_right h.once _
  · rcases List.mem_cons.mp ht with rfl | ht
    · exact hnew hid
    · exact h.new t ht hid
  · rw [List.map_cons]
    rcases List.mem_cons.mp hid with he | hid
    · rw [he]
      exact List.mem_cons_self
    · exact List.mem_cons_of_mem _ (h.all (hw.present hp) hhash hid)

/-- The metadata of another block, and of the new one. -/
theorem watches_getBlockMeta (hw : Watch libs r w₀ w) (id : BlockID) :
    Follows semExec (Grows libs r) Eq (getBlockMeta id).run
      (fun res y => Grows libs r w y ∧
        (id ≠ r.blockID → res = ((getBlockMeta id).run.exec w₀).1) ∧
        (id = r.blockID → (res = .ok (r.blockMeta libs) ∧ Present libs y r) ∨
          ¬ Present libs w r ∧ ∃ e, res = .error e ∧ Err.is .notFound e = true)) w := by
  have hR := rely_grows libs r
  refine follows_single (single_getBlockMeta id) (calls_getBlockMeta (fun _ => trivial) id) hR
    fun x hx y hy => ?_
  have hwx := hw.grows hx
  refine ⟨hR.trans hx hy, fun hid => ?_, fun hid => ?_⟩
  · rw [result_getBlockMeta, result_getBlockMeta, hwx.beside.blk id hid]
  · subst hid
    rw [result_getBlockMeta]
    rcases hwx.stage.blk with hnone | hp
    · rw [hnone]
      refine Or.inr ⟨fun hp => not_present_of_blk hnone (hx.present hp), _, rfl, ?_⟩
      simp [Err.is]
    · have hblk : x.db.view.get (blockKey r.blockID) = _ := hp.blk
      rw [hblk]
      exact Or.inl ⟨decodeBlockMeta_encodeBlockMeta _, hy.present hp⟩

/-- The loop over the candidates fails because of another block, or selects
the new one as a whole. -/
def Outcome (libs : Libs) (r : SealRequest) (w₀ : World) (req : QueryRequest) (kh : UInt64)
    (ids : List BlockID) (w y : World) (res : Except Err (List BlockTask)) : Prop :=
  (∃ e, res = .error e ∧ ∃ id ∈ ids, id ≠ r.blockID ∧ BlockFails libs r.store w₀ req kh id e) ∨
    ∃ ts, res = .ok ts ∧ Selected libs r w y kh ids ts

theorem Outcome.skip {ids : List BlockID} {id : BlockID} {res : Except Err (List BlockTask)}
    (h : Outcome libs r w₀ req kh ids x y res) (hw : Grows libs r w x)
    (hnew : id = r.blockID → Present libs w r → HasHash r kh → False) :
    Outcome libs r w₀ req kh (id :: ids) w y res := by
  rcases h with ⟨e, he, id', hid', hfails⟩ | ⟨ts, hts, hsel⟩
  · exact Or.inl ⟨e, he, id', List.mem_cons_of_mem _ hid', hfails⟩
  · exact Or.inr ⟨ts, hts, hsel.skip hw hnew⟩

theorem Outcome.take {ids : List BlockID} {id : BlockID} {store : LocalStore}
    {res : Except Err (List BlockTask)} (h : Outcome libs r w₀ req kh ids x y res)
    (hw : Grows libs r w x) (hnew : id = r.blockID → store = r.store ∧ Present libs y r) :
    Outcome libs r w₀ req kh (id :: ids) w y (res.map fun tasks => ⟨id, store⟩ :: tasks) := by
  rcases h with ⟨e, rfl, id', hid', hfails⟩ | ⟨ts, rfl, hsel⟩
  · exact Or.inl ⟨e, rfl, id', List.mem_cons_of_mem _ hid', hfails⟩
  · exact Or.inr ⟨_, rfl, hsel.take hw hnew⟩

theorem Outcome.grows {ids : List BlockID} {res : Except Err (List BlockTask)} {z : World}
    (h : Outcome libs r w₀ req kh ids w y res) (hy : Grows libs r y z) :
    Outcome libs r w₀ req kh ids w z res := by
  rcases h with hfails | ⟨ts, hts, hsel⟩
  · exact Or.inl hfails
  · exact Or.inr ⟨ts, hts, hsel.mem, hsel.once, fun t ht hid =>
      (hsel.new t ht hid).imp_right hy.present, hsel.all⟩

variable (libs eng) in
/-- The body of the loop after a bloom test that said yes; `rest` is the loop
over the other candidates. -/
def selectMeta (id : BlockID) (c : BloomCache libs)
    (rest : Proc (Except Err (List BlockTask) × BloomCache libs)) :
    Proc (Except Err (List BlockTask) × BloomCache libs) := do
  match ← (getBlockMeta id).run with
  | .error e => if Err.is .notFound e then rest else pure (.error e, c)
  | .ok bmeta =>
      match eng.tiers bmeta.tier with
      | none => rest
      | some store => do
          let found ← rest
          pure (found.1.map fun tasks => ⟨id, store⟩ :: tasks, found.2)

theorem selectTasks_cons (c : BloomCache libs) (id : BlockID) (ids : List BlockID) :
    selectTasks libs eng kh c (id :: ids) = (do
      let tested ← c.test id kh
      match tested.1 with
      | .error e => pure (.error e, tested.2)
      | .ok false => selectTasks libs eng kh tested.2 ids
      | .ok true => selectMeta libs eng id tested.2 (selectTasks libs eng kh tested.2 ids)) := rfl

/-- After a test that said yes, the candidate is skipped, or fails with its
metadata, or is taken; the new block is skipped only if it was not there. -/
theorem watches_selectMeta (hw : Watch libs r w₀ w) (htier : eng.tiers tierHot = some r.store)
    {id : BlockID} {c : BloomCache libs}
    {rest : Proc (Except Err (List BlockTask) × BloomCache libs)}
    {Q : Except Err (List BlockTask) × BloomCache libs → World → Prop}
    (hskip : ∀ y, Grows libs r w y → (id = r.blockID → ¬ Present libs w r) →
      Follows semExec (Grows libs r) Eq rest Q y)
    (hfail : ∀ e y, Grows libs r w y → id ≠ r.blockID →
      ((getBlockMeta id).run.exec w₀).1 = .error e → Q (.error e, c) y)
    (htake : ∀ store y, Grows libs r w y → (id = r.blockID → store = r.store ∧ Present libs y r) →
      Follows semExec (Grows libs r) Eq rest (fun res z => ∀ v, Grows libs r z v →
        Q (res.1.map fun tasks => ⟨id, store⟩ :: tasks, res.2) v) y) :
    Follows semExec (Grows libs r) Eq (selectMeta libs eng id c rest) Q w := by
  have hR := rely_grows libs r
  refine follows_bind hR ((watches_getBlockMeta hw id).mono fun res y h => ?_)
  obtain ⟨hwy, hother, hmine⟩ := h
  -- a block that is skipped or fails for want of metadata
  cases res with
  | error e =>
      show Follows semExec (Grows libs r) Eq
        (if Err.is .notFound e then rest else Pure.pure (.error e, c)) Q y
      by_cases hid : id = r.blockID
      · rcases hmine hid with ⟨he, -⟩ | ⟨hnot, e', he', hnf⟩
        · cases he
        · cases he'
          rw [if_pos hnf]
          exact hskip y hwy fun _ => hnot
      · by_cases hnf : Err.is .notFound e = true
        · rw [if_pos hnf]
          exact hskip y hwy fun h => absurd h hid
        · rw [if_neg hnf]
          exact follows_pure fun z hz => hfail e z (hR.trans hwy hz) hid (hother hid).symm
  | ok bmeta =>
      show Follows semExec (Grows libs r) Eq (match eng.tiers bmeta.tier with
        | none => rest
        | some store => rest >>= fun found =>
            Pure.pure (found.1.map fun tasks => ⟨id, store⟩ :: tasks, found.2)) Q y
      have hnew : id = r.blockID → eng.tiers bmeta.tier = some r.store ∧ Present libs y r := by
        intro hid
        rcases hmine hid with ⟨hbm, hp⟩ | ⟨-, e, he, -⟩
        · cases hbm
          exact ⟨htier, hp⟩
        · cases he
      cases hst : eng.tiers bmeta.tier with
      | none =>
          refine hskip y hwy fun hid => ?_
          rw [(hnew hid).1] at hst
          cases hst
      | some store =>
          refine follows_bind hR ((htake store y hwy fun hid => ?_).mono fun res z h => ?_)
          · obtain ⟨ht, hp⟩ := hnew hid
            rw [hst] at ht
            exact ⟨Option.some.inj ht, hp⟩
          · exact follows_pure h

/-- **The loop over the candidates.** -/
theorem watches_selectTasks (htier : eng.tiers tierHot = some r.store) (req : QueryRequest)
    (ids : List BlockID) :
    ∀ {c : BloomCache libs} {w : World}, Watch libs r w₀ w → c.store = r.store →
      (r.blockID ∈ ids → c.items.get r.blockID = none) → ids.count r.blockID ≤ 1 →
      (r.blockID ∈ ids → Named w r) →
      Follows semExec (Grows libs r) Eq (selectTasks libs eng kh c ids)
        (fun res y => Grows libs r w y ∧ Outcome libs r w₀ req kh ids w y res.1) w := by
  have hR := rely_grows libs r
  induction ids with
  | nil =>
      intro c w _ _ _ _ _
      refine follows_pure fun y hy => ⟨hy, Or.inr ⟨[], rfl, ?_, ?_, ?_, ?_⟩⟩
      · exact fun t ht => absurd ht List.not_mem_nil
      · exact Nat.le_refl _
      · exact fun t ht => absurd ht List.not_mem_nil
      · exact fun _ _ hid => absurd hid List.not_mem_nil
  | cons id ids ih =>
      intro c w hw hstore hitem honce hnamed
      -- the rest of the loop, from a later world with another cache
      have hrest : ∀ {c' : BloomCache libs} {x : World}, Grows libs r w x → c'.store = r.store →
          (r.blockID ∈ ids → c'.items.get r.blockID = none) →
          Follows semExec (Grows libs r) Eq (selectTasks libs eng kh c' ids)
            (fun res y => Grows libs r x y ∧ Outcome libs r w₀ req kh ids x y res.1) x := by
        intro c' x hx hst hit
        refine ih (hw.grows hx) hst hit ?_ fun h => hx.named (hnamed (List.mem_cons_of_mem _ h))
        exact (List.count_le_count_cons).trans honce
      have hskip : ∀ {c' : BloomCache libs} {x : World}, Grows libs r w x → c'.store = r.store →
          (r.blockID ∈ ids → c'.items.get r.blockID = none) →
          (id = r.blockID → Present libs w r → HasHash r kh → False) →
          Follows semExec (Grows libs r) Eq (selectTasks libs eng kh c' ids)
            (fun res y => Grows libs r w y ∧ Outcome libs r w₀ req kh (id :: ids) w y res.1) x := by
        intro c' x hx hst hit hnew
        refine (hrest hx hst hit).mono fun res y h => ?_
        exact ⟨hR.trans hx h.1, h.2.skip hx hnew⟩
      have hmeta : ∀ {c' : BloomCache libs} {x : World}, Grows libs r w x → c'.store = r.store →
          (r.blockID ∈ ids → c'.items.get r.blockID = none) →
          Follows semExec (Grows libs r) Eq
            (selectMeta libs eng id c' (selectTasks libs eng kh c' ids))
            (fun res y => Grows libs r w y ∧ Outcome libs r w₀ req kh (id :: ids) w y res.1) x := by
        intro c' x hx hst hit
        refine watches_selectMeta (hw.grows hx) htier (fun y hy hnot => ?_) (fun e y hy hid he => ?_)
          fun store y hy hnew => ?_
        · exact hskip (hR.trans hx hy) hst hit fun hid hp _ => hnot hid (hx.present hp)
        · exact ⟨hR.trans hx hy, Or.inl ⟨e, rfl, id, List.mem_cons_self, hid, Or.inr (Or.inl he)⟩⟩
        · refine (hrest (hR.trans hx hy) hst hit).mono fun res z h v hv => ?_
          obtain ⟨hyz, hout⟩ := h
          refine ⟨hR.trans hx (hR.trans hy (hR.trans hyz hv)),
            (hout.grows hv).take (hR.trans hx hy) fun hid => ?_⟩
          exact (hnew hid).imp_right fun hp => hv.present (hyz.present hp)
      rw [selectTasks_cons]
      by_cases hid : id = r.blockID
      · -- the new block, which is not among the rest
        subst hid
        have hnot : r.blockID ∉ ids := by
          rw [List.count_cons_self] at honce
          exact List.count_eq_zero.mp (by omega)
        refine follows_bind hR ((watches_test_new hw (hnamed List.mem_cons_self) hstore
          (hitem List.mem_cons_self)).mono fun res x h => ?_)
        obtain ⟨hx, hst, b, hb, hyes⟩ := h
        have hst := hst.trans hstore
        simp only [hb]
        cases b with
        | false =>
            refine hskip hx hst (fun h => absurd h hnot) fun _ _ hhash => ?_
            exact Bool.false_ne_true (hyes hhash)
        | true => exact hmeta hx hst fun h => absurd h hnot
      · refine follows_bind hR ((watches_test_other hw hid).mono fun res x h => ?_)
        obtain ⟨hx, hst, hnone, hres⟩ := h
        have hst := hst.trans hstore
        have hit : r.blockID ∈ ids → res.2.items.get r.blockID = none := fun h =>
          hnone (hitem (List.mem_cons_of_mem _ h))
        rcases hres with ⟨b, hb⟩ | ⟨e, he, hfile⟩
        · simp only [hb]
          cases b with
          | false => exact hskip hx hst hit fun h => absurd h hid
          | true => exact hmeta hx hst hit
        · simp only [he]
          rw [hstore] at hfile
          refine follows_pure fun y hy => ⟨hR.trans hx hy, Or.inl ?_⟩
          exact ⟨e, rfl, id, List.mem_cons_self, hid, Or.inl hfile⟩

/-! ## Reading -/

variable (libs r w₀ req kh) in
/-- What reading a selected block returns. -/
def taskRows (t : BlockTask) : Except Err (List Event) :=
  if t.id = r.blockID then .ok (rowsOf libs kh req.from_ req.to_ r) else rowsIn libs w₀ kh req t

theorem watches_readBlock (hw : Watch libs r w₀ w)
    (hpayloads : ∀ e ∈ r.memtable.rows, e.payload.length < 2 ^ 32) {t : BlockTask}
    (ht : t.id = r.blockID → t.store = r.store ∧ Present libs w r) :
    Follows semExec (Grows libs r) Eq
      (readBlock libs t.store t.id kh req.from_ req.to_).run
      (fun res y => Grows libs r w y ∧ res = taskRows libs r w₀ kh req t) w := by
  have hR := rely_grows libs r
  refine follows_single (single_readBlock t.store t.id req.from_ req.to_)
    (calls_readBlock t.store t.id req.from_ req.to_) hR fun x hx y hy => ⟨hR.trans hx hy, ?_⟩
  unfold taskRows
  by_cases hid : t.id = r.blockID
  · obtain ⟨hstore, hp⟩ := ht hid
    obtain ⟨hfile, hsize⟩ := (hx.present hp).file
    have hfile : x.fs (r.store.blockPath r.blockID) = some (r.file libs) := hfile
    rw [if_pos hid, result_readBlock, hstore, hid, hfile]
    exact readRows_file hsize hpayloads
  · rw [if_neg hid, rowsIn, result_readBlock, result_readBlock,
      (hw.grows hx).beside.block t.store t.id hid]

theorem watches_readTasks (hpayloads : ∀ e ∈ r.memtable.rows, e.payload.length < 2 ^ 32)
    {ts : List BlockTask} (is : List Nat) :
    ∀ {w : World}, Watch libs r w₀ w →
      (∀ t ∈ ts, t.id = r.blockID → t.store = r.store ∧ Present libs w r) →
      Follows semExec (Grows libs r) Eq (readTasks libs kh req.from_ req.to_ ts is)
        (fun done _ => done = doneOf (taskRows libs r w₀ kh req) ts is) w := by
  have hR := rely_grows libs r
  induction is with
  | nil => exact fun _ _ => follows_pure fun _ _ => rfl
  | cons i is ih =>
      intro w hw hnew
      rw [readTasks, doneOf]
      cases hi : ts[i]? with
      | none =>
          simp only [List.filterMap_cons, hi]
          exact ih hw hnew
      | some t =>
          simp only [List.filterMap_cons, hi]
          refine follows_bind hR ((watches_readBlock hw hpayloads
            (hnew t (List.mem_of_getElem? hi))).mono fun res x h => ?_)
          obtain ⟨hx, rfl⟩ := h
          refine follows_bind hR ((ih (hw.grows hx) fun t' ht' hid =>
            (hnew t' ht' hid).imp_right hx.present).mono fun done y h => ?_)
          subst h
          exact follows_pure fun _ _ => rfl

/-! ## The result -/

/-- Slices are collected unless one of them is an error. -/
theorem collectSlices_cases (l : List (Except Err (List Event))) :
    (∃ e, collectSlices l = .error e ∧ .error e ∈ l) ∨
      ∃ rows : List (List Event), l = rows.map .ok ∧
        collectSlices l = .ok (rows.filter fun s => s.length > 0) := by
  induction l with
  | nil => exact Or.inr ⟨[], rfl, rfl⟩
  | cons res l ih =>
      cases res with
      | error e => exact Or.inl ⟨e, rfl, List.mem_cons_self⟩
      | ok events =>
          rcases ih with ⟨e, he, hmem⟩ | ⟨rows, rfl, hok⟩
          · refine Or.inl ⟨e, ?_, List.mem_cons_of_mem _ hmem⟩
            rw [collectSlices, he]
            rfl
          · exact Or.inr ⟨events :: rows, rfl, collectSlices_ok (events :: rows)⟩

/-- Rows that were read from other blocks than `id`, as they are in `w`. -/
def RowsOfOthers (libs : Libs) (w : World) (req : QueryRequest) (kh : UInt64) (id : BlockID)
    (others : List Event) : Prop :=
  ∃ (ts : List BlockTask) (rows : List (List Event)),
    (∀ t ∈ ts, t.id ≠ id ∧ t.id ∈ candidatesIn w req kh) ∧
    ts.map (rowsIn libs w kh req) = rows.map .ok ∧ others = rows.flatten

/-- The rows of the selected blocks are those of other blocks, and those of
the new one if it is selected. -/
theorem exists_others {ts : List BlockTask} {rows : List (List Event)}
    (honce : (ts.map BlockTask.id).count r.blockID ≤ 1)
    (hids : ∀ t ∈ ts, t.id ≠ r.blockID → t.id ∈ candidatesIn w₀ req kh)
    (hrows : ts.map (taskRows libs r w₀ kh req) = rows.map .ok) :
    ∃ others new, rows.flatten.Perm (others ++ new) ∧
      RowsOfOthers libs w₀ req kh r.blockID others ∧
      (r.blockID ∉ ts.map BlockTask.id ∧ new = [] ∨
        r.blockID ∈ ts.map BlockTask.id ∧ new = rowsOf libs kh req.from_ req.to_ r) := by
  induction ts generalizing rows with
  | nil =>
      cases rows with
      | nil =>
          refine ⟨[], [], List.Perm.refl _, ⟨[], [], ?_, rfl, rfl⟩, Or.inl ⟨?_, rfl⟩⟩
          · exact fun t ht => absurd ht List.not_mem_nil
          · exact List.not_mem_nil
      | cons s rows => cases hrows
  | cons t ts ih =>
      cases rows with
      | nil => cases hrows
      | cons s rows =>
          simp only [List.map_cons, List.cons.injEq] at hrows
          obtain ⟨hs, hrows⟩ := hrows
          have hids' : ∀ t' ∈ ts, t'.id ≠ r.blockID → t'.id ∈ candidatesIn w₀ req kh :=
            fun t' ht' => hids t' (List.mem_cons_of_mem _ ht')
          rw [List.map_cons, List.count_cons] at honce
          obtain ⟨others, new, hperm, ⟨ts', rows', hts', hread, rfl⟩, hnew⟩ :=
            ih (by omega) hids' hrows
          unfold taskRows at hs
          by_cases hid : t.id = r.blockID
          · -- the new block, which is selected once
            rw [if_pos hid] at hs
            cases hs
            have hnot : r.blockID ∉ ts.map BlockTask.id := by
              rw [if_pos (by simpa using hid)] at honce
              exact List.count_eq_zero.mp (by omega)
            rcases hnew with ⟨-, rfl⟩ | ⟨hmem, -⟩
            · refine ⟨rows'.flatten, _, ?_, ⟨ts', rows', hts', hread, rfl⟩, Or.inr ⟨?_, rfl⟩⟩
              · rw [List.append_nil] at hperm
                exact (hperm.append_left _).trans List.perm_append_comm
              · rw [List.map_cons, hid]
                exact List.mem_cons_self
            · exact absurd hmem hnot
          · rw [if_neg hid] at hs
            have hmem : r.blockID ∈ (t :: ts).map BlockTask.id ↔
                r.blockID ∈ ts.map BlockTask.id := by
              rw [List.map_cons, List.mem_cons]
              exact or_iff_right (Ne.symm hid)
            refine ⟨s ++ rows'.flatten, new, ?_, ⟨t :: ts', s :: rows', ?_, ?_, rfl⟩, ?_⟩
            · rw [List.append_assoc]
              exact hperm.append_left s
            · intro t' ht'
              rcases List.mem_cons.mp ht' with rfl | ht'
              · exact ⟨hid, hids t' List.mem_cons_self hid⟩
              · exact hts' t' ht'
            · rw [List.map_cons, List.map_cons, hs, hread]
            · rwa [hmem]

/-- What a query returns that ran from `w` on: another block's error, or rows
of other blocks with none or all wanted rows of the new one. -/
def Appears (libs : Libs) (r : SealRequest) (w₀ : World) (req : QueryRequest) (w : World)
    (res : Except Err (List Event)) : Prop :=
  (∃ e, res = .error e ∧ ∃ id ∈ candidatesIn w₀ req (keyHashFor libs req.partitionKey),
    id ≠ r.blockID ∧ BlockFails libs r.store w₀ req (keyHashFor libs req.partitionKey) id e) ∨
  ∃ out others new, res = .ok out ∧ out.Perm (others ++ new) ∧
    RowsOfOthers libs w₀ req (keyHashFor libs req.partitionKey) r.blockID others ∧
    (new = [] ∨ new = wanted libs req r) ∧
    ((w.db.view.get (blockKey r.blockID)).isSome → new = wanted libs req r)

theorem appears_of_selected (hw : Watch libs r w₀ w) (hreq : Proper req) (hwx : Grows libs r w x)
    {z : World} {ids : List BlockID} {ts : List BlockTask} {out : List Event}
    (hfound : Found libs r w₀ w x (keyHashFor libs req.partitionKey) req.from_ req.to_
      (typesOf req) ids)
    (hsel : Selected libs r x z (keyHashFor libs req.partitionKey) ids ts)
    (honce : ids.count r.blockID ≤ 1)
    (hothers : ∀ id ∈ ids, id ≠ r.blockID →
      id ∈ candidatesIn w₀ req (keyHashFor libs req.partitionKey))
    (rows : List (List Event))
    (hrows : ts.map (taskRows libs r w₀ (keyHashFor libs req.partitionKey) req) = rows.map .ok)
    (hout : out.Perm rows.flatten) : Appears libs r w₀ req w (.ok out) := by
  obtain ⟨others, new, hperm, hof, hnew⟩ := exists_others (hsel.once.trans honce)
    (fun t ht => hothers t.id (hsel.mem t ht)) hrows
  have hout := hout.trans hperm
  rcases hnew with ⟨hnot, rfl⟩ | ⟨hmem, rfl⟩
  · -- the new block was not selected
    refine Or.inr ⟨out, others, [], rfl, hout, hof, Or.inl rfl, fun hcommitted => ?_⟩
    have hp : Present libs w r := by
      rcases hw.stage.blk with hnone | hp
      · rw [hnone] at hcommitted
        cases hcommitted
      · exact hp
    by_contra hne
    obtain ⟨hscope, hhash⟩ := of_wanted_ne_nil (Ne.symm hne)
    obtain ⟨het, hov⟩ := inScope_iff.mp hscope
    exact hnot (hsel.all (hwx.present hp) hhash (hfound.all hp het hhash hov))
  · have hid : r.blockID ∈ ids := by
      obtain ⟨t, ht, he⟩ := List.mem_map.mp hmem
      exact he ▸ hsel.mem t ht
    obtain ⟨-, het, hov⟩ := hfound.named hid
    have hwant := @perm_rowsOf libs req hreq r (inScope_iff.mpr ⟨het, hov⟩)
    exact Or.inr ⟨out, others, wanted libs req r, rfl, hout.trans (hwant.append_left _), hof,
      Or.inr rfl, fun _ => rfl⟩

/-- **A query while the block is sealed.** -/
theorem watches_query (hw : Watch libs r w₀ w) (htier : eng.tiers tierHot = some r.store)
    (hpayloads : ∀ e ∈ r.memtable.rows, e.payload.length < 2 ^ 32) {c : BloomCache libs}
    (hstore : c.store = r.store) (hitem : c.items.get r.blockID = none) (hreq : Proper req) :
    Follows semExec (Grows libs r) Eq (query libs eng c req)
      (fun res _ => Appears libs r w₀ req w res.1) w := by
  have hR := rely_grows libs r
  have hkey : ¬ req.partitionKey.length = 0 := fun h => hreq.key (List.length_eq_zero_iff.mp h)
  rw [query, if_neg hkey, if_neg (not_not.mpr hreq.order)]
  refine follows_bind hR ((watches_candidates hw req).mono fun res x h => ?_)
  obtain ⟨hwx, ids, rfl, hfound⟩ := h
  have hothers : ∀ id ∈ ids, id ≠ r.blockID →
      id ∈ candidatesIn w₀ req (keyHashFor libs req.partitionKey) := by
    intro id hid hne
    obtain ⟨et, het, hf⟩ := hfound.others id hid hne
    exact mem_candidatesIn.mpr ⟨et, mem_typesOf.mp het, hf⟩
  have honce : ids.count r.blockID ≤ 1 := by
    refine hfound.once.trans (List.nodup_iff_count_le_one.mp ?_ _)
    unfold typesOf
    cases req.eventType with
    | some et => exact List.nodup_singleton et
    | none => exact nodup_allTypes
  show Follows semExec (Grows libs r) Eq (if ids.length = 0 then _ else _) _ x
  by_cases hlen : ids.length = 0
  · rw [if_pos hlen]
    obtain rfl := List.length_eq_zero_iff.mp hlen
    have hsel : Selected libs r x x (keyHashFor libs req.partitionKey) [] [] := by
      refine ⟨?_, Nat.le_refl _, ?_, ?_⟩
      · exact fun t ht => absurd ht List.not_mem_nil
      · exact fun t ht => absurd ht List.not_mem_nil
      · exact fun _ _ hid => absurd hid List.not_mem_nil
    exact follows_pure fun y _ => appears_of_selected hw hreq hwx hfound hsel honce hothers
      [] rfl (List.Perm.refl _)
  rw [if_neg hlen]
  refine follows_bind hR ((watches_selectTasks htier req ids (hw.grows hwx) hstore
    (fun _ => hitem) honce fun hid => (hfound.named hid).1).mono fun selected y h => ?_)
  obtain ⟨hxy, hout⟩ := h
  have hfail : ∀ {e : Err} {id : BlockID}, id ∈ ids → id ≠ r.blockID →
      BlockFails libs r.store w₀ req (keyHashFor libs req.partitionKey) id e →
      Appears libs r w₀ req w (.error e) :=
    fun hid hne hf => Or.inl ⟨_, rfl, _, hothers _ hid hne, hne, hf⟩
  rcases hout with ⟨e, he, id, hid, hne, hf⟩ | ⟨ts, hts, hsel⟩
  · simp only [he]
    exact follows_pure fun z _ => hfail hid hne hf
  simp only [hts]
  by_cases hlen' : ts.length = 0
  · rw [if_pos hlen']
    obtain rfl := List.length_eq_zero_iff.mp hlen'
    exact follows_pure fun z _ => appears_of_selected hw hreq hwx hfound hsel honce hothers
      [] rfl (List.Perm.refl _)
  rw [if_neg hlen']
  refine follows_bind hR ((watches_readTasks hpayloads (eng.readOrder ts.length)
    (hw.grows (hR.trans hwx hxy)) hsel.new).mono fun done z h => ?_)
  subst h
  rw [resultsOf_doneOf _ ts (eng.readOrder_perm _)]
  rcases collectSlices_cases (ts.map (taskRows libs r w₀ (keyHashFor libs req.partitionKey) req))
    with ⟨e, he, hmem⟩ | ⟨rows, hrows, hok⟩
  · -- a block that could not be read, which is not the new one
    simp only [he]
    refine follows_pure fun v _ => ?_
    obtain ⟨t, ht, hte⟩ := List.mem_map.mp hmem
    unfold taskRows at hte
    by_cases hid : t.id = r.blockID
    · rw [if_pos hid] at hte
      cases hte
    · rw [if_neg hid] at hte
      exact hfail (hsel.mem t ht) hid (Or.inr (Or.inr ⟨t.store, hte⟩))
  · simp only [hok]
    refine follows_pure fun v _ => ?_
    refine appears_of_selected hw hreq hwx hfound hsel honce hothers rows hrows ?_
    rw [← flatten_filter_nonempty rows]
    exact mergeEvents_perm _

end Query

/-- **A newly sealed block becomes visible atomically.** `Seal` of a block of
which nothing is known and a query run in any interleaving, from any store and
any bloom cache without a filter of the block. The query fails only with an
error that reading another block gives. Otherwise it returns rows of other
blocks and none or all wanted rows of the new block; all of them if the final
batch was committed when the query started. -/
theorem new_block_appears_atomically (libs : Libs) (eng : Engine) (r : SealRequest)
    (htier : eng.tiers tierHot = some r.store)
    (hpayloads : ∀ e ∈ r.memtable.rows, e.payload.length < 2 ^ 32) (w : World)
    (hidx : ∀ et kh, w.db.view.get (idxKey et kh r.blockID) = none)
    (hblk : w.db.view.get (blockKey r.blockID) = none) (c : BloomCache libs)
    (hstore : c.store = r.store) (hitem : c.items.get r.blockID = none) (req : QueryRequest)
    (hreq : Proper req) (w₁ w₂ : World) (p₁ p₂ : Proc (Except Err BlockID))
    (h₁ : Pair.Reach sem semExec ⟨w, (sealBlock libs r).run, query libs eng c req⟩
      ⟨w₁, p₁, query libs eng c req⟩)
    (res : Except Err (List Event)) (c' : BloomCache libs)
    (h₂ : Pair.Reach sem semExec ⟨w₁, p₁, query libs eng c req⟩ ⟨w₂, p₂, .pure (res, c')⟩) :
    Appears libs r w req w₁ res := by
  have hunknown : Unknown r w := ⟨hidx, hblk⟩
  have hRelyL : Rely (Eq : World → World → Prop) := ⟨fun _ => rfl, Eq.trans⟩
  have hR := rely_grows libs r
  have hsame : ∀ {x y : World}, x = y → Grows libs r x y := fun he => he ▸ hR.refl _
  have hquery : ∀ {x : World}, Watch libs r w x → Follows semExec (Grows libs r) Eq
      (query libs eng c req) (fun res _ => Appears libs r w req x res.1) x :=
    fun hx => watches_query hx htier hpayloads hstore hitem hreq
  have hwatch : Watch libs r w w := ⟨Beside.refl _ w, hunknown.stage⟩
  have hstart : Pair.Follow sem semExec Eq (Grows libs r) (Grows libs r) Eq (fun _ _ => True)
      (fun res _ => Appears libs r w req w res.1)
      ⟨w, (sealBlock libs r).run, query libs eng c req⟩ :=
    ⟨follows_sealBlock hunknown, hquery hwatch⟩
  -- the query starts in a world in which `Seal` has come some way
  have hw₁ : Watch libs r w w₁ :=
    hwatch.grows (hstart.moves (fun h => h) (fun h => h) hRelyL hR hR (fun h => h) hsame h₁)
  have hmid : Pair.Follow sem semExec Eq (Grows libs r) (Grows libs r) Eq (fun _ _ => True)
      (fun res _ => Appears libs r w req w₁ res.1) ⟨w₁, p₁, query libs eng c req⟩ :=
    ⟨(hstart.reach (fun h => h) (fun h => h) hRelyL hR h₁).left, hquery hw₁⟩
  exact hmid.result (fun h => h) (fun h => h) hRelyL hR h₂ rfl

/-- `Seal` has performed all its operations but the final batch. -/
def almostSealed : Proc (Except Err BlockID) × World :=
  advance Op.exec 14 (sealBlock Libs.plain oneRow).run ⟨Pebble.empty, fun _ => none, 0⟩

/-- A query has looked up its candidates by then. -/
def lookedUp : Proc (Except Err (List Event) × BloomCache Libs.plain) × World :=
  advance Op.exec 1 (query Libs.plain oneRowEngine (newBloomCache oneRow.store 0) oneRowQuery)
    almostSealed.2

set_option maxRecDepth 100000 in
/-- The final batch comes between the lookup of a query and its other reads:
the query finds the row, although the block had no metadata when it began. -/
theorem new_block_appears_atomically_oneRow : ∃ w c',
    almostSealed.2.db.view.get (blockKey oneRow.blockID) = none ∧
    Pair.Reach sem semExec ⟨almostSealed.2, almostSealed.1,
        query Libs.plain oneRowEngine (newBloomCache oneRow.store 0) oneRowQuery⟩
      ⟨w, .pure (.ok oneRow.blockID), .pure (.ok [⟨256, 1, [1]⟩], c')⟩ ∧
    Appears Libs.plain oneRow ⟨Pebble.empty, fun _ => none, 0⟩ oneRowQuery almostSealed.2
      (.ok [⟨256, 1, [1]⟩]) := by
  let w := (almostSealed.1.exec lookedUp.2).2
  have hsealed : (almostSealed.1.exec lookedUp.2).1 = .ok oneRow.blockID := by decide +kernel
  have hres : (lookedUp.1.exec w).1.1 = .ok [⟨256, 1, [1]⟩] := by decide +kernel
  have hseal := runs_procExec almostSealed.1 lookedUp.2
  rw [hsealed] at hseal
  have hquery := runs_semExec lookedUp.1 w
  rw [show (lookedUp.1.exec w).1 = (.ok [⟨256, 1, [1]⟩], (lookedUp.1.exec w).1.2) from
    Prod.ext hres rfl] at hquery
  have hbefore : Pair.Reach sem semExec
      ⟨⟨Pebble.empty, fun _ => none, 0⟩, (sealBlock Libs.plain oneRow).run,
        query Libs.plain oneRowEngine (newBloomCache oneRow.store 0) oneRowQuery⟩
      ⟨almostSealed.2, almostSealed.1, _⟩ :=
    Pair.reach_advance fun _ _ => Or.inl rfl
  have hlookup : Pair.Reach sem semExec
      ⟨almostSealed.2, almostSealed.1,
        query Libs.plain oneRowEngine (newBloomCache oneRow.store 0) oneRowQuery⟩
      ⟨lookedUp.2, almostSealed.1, lookedUp.1⟩ :=
    Pair.reach_advance_right fun _ _ => rfl
  have hreach := (hlookup.trans (Pair.reach_left hseal)).trans (Pair.reach_right hquery)
  refine ⟨_, _, by decide +kernel, hreach, ?_⟩
  exact new_block_appears_atomically Libs.plain oneRowEngine oneRow rfl (by decide) _
    (fun _ _ => rfl) rfl (newBloomCache oneRow.store 0) rfl rfl oneRowQuery
    proper_oneRowQuery almostSealed.2 _ _ _ hbefore _ _ hreach

end Bbdb.Query
