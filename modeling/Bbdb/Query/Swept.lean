import Bbdb.Index.Coherence
import Bbdb.Query.Intact
import Bbdb.Query.Reaped
import Bbdb.Ttl.Effect

/-!
# Query — before and after a reaper cycle

A cycle of the reaper takes the rows of the deleted blocks out of every
answer and leaves the rest (`sweeps_do_their_job`). The index still names the
deleted blocks, and the bloom cache may still hold their filters: without
metadata such a candidate is skipped.

The cached filters of the other blocks have to be current. Before the cycle a
query loads the filter of a block that is due, which can evict another one;
after it there is no file to load, and the other filter stays. If that filter
is out of date, rows disappear that were found before
(`stale_filter_hides_row`).
-/

namespace Bbdb.Query

open Bbdb.Block Bbdb.Meta Bbdb.Tier Bbdb.Index Bbdb.Ttl GoTime
open Prog hiding pure bind

variable {libs : Libs} {eng : Engine} {st : LocalStore} {w x : World} {id : BlockID}
  {ids : List BlockID} {req : QueryRequest} {kh : UInt64}

/-! ## The rows of one block -/

/-- What one candidate adds to an answer. -/
def candidateRows (libs : Libs) (eng : Engine) (st : LocalStore) (w : World) (req : QueryRequest)
    (kh : UInt64) (id : BlockID) : Except Err (List Event) :=
  match taskIn libs eng st w kh id with
  | .error e => .error e
  | .ok none => .ok []
  | .ok (some t) => rowsIn libs w kh req t

/-- The rows of a candidate. -/
def blockRows (libs : Libs) (eng : Engine) (st : LocalStore) (w : World) (req : QueryRequest)
    (kh : UInt64) (id : BlockID) : List Event :=
  match candidateRows libs eng st w req kh id with
  | .ok rows => rows
  | .error _ => []

/-- The slices that are merged into an answer. -/
def slicesOf (libs : Libs) (eng : Engine) (st : LocalStore) (w : World) (req : QueryRequest)
    (kh : UInt64) (ids : List BlockID) : Except Err (List (List Event)) := do
  let tasks ← tasksIn libs eng st w kh ids
  collectSlices (tasks.map (rowsIn libs w kh req))

theorem answerOf_eq_map : answerOf libs eng st w req kh ids =
    (slicesOf libs eng st w req kh ids).map mergeEvents := by
  unfold answerOf slicesOf
  cases tasksIn libs eng st w kh ids with
  | error e => rfl
  | ok tasks =>
      simp only [bind, Except.bind]
      cases collectSlices (tasks.map (rowsIn libs w kh req)) with
      | error e => rfl
      | ok slices => rfl

/-- A candidate adds its rows to the slices. -/
theorem slicesOf_cons {rows : List Event} (h : candidateRows libs eng st w req kh id = .ok rows) :
    slicesOf libs eng st w req kh (id :: ids) = (slicesOf libs eng st w req kh ids).map fun s =>
      if rows.length > 0 then rows :: s else s := by
  unfold candidateRows at h
  cases htask : taskIn libs eng st w kh id with
  | error e =>
      rw [htask] at h
      cases h
  | ok task =>
      rw [htask] at h
      cases task with
      | none =>
          cases h
          have hskip : slicesOf libs eng st w req kh (id :: ids) =
              slicesOf libs eng st w req kh ids := by
            unfold slicesOf
            rw [tasksIn_skip htask]
          rw [hskip]
          cases slicesOf libs eng st w req kh ids <;> rfl
      | some t =>
          dsimp only at h
          unfold slicesOf
          rw [tasksIn_take htask]
          cases tasksIn libs eng st w kh ids with
          | error e => rfl
          | ok tasks =>
              simp only [Except.map, bind, Except.bind, List.map_cons, h, collectSlices]

theorem slicesOf_cons_error {e : Err} (h : candidateRows libs eng st w req kh id = .error e) :
    ∃ e', slicesOf libs eng st w req kh (id :: ids) = .error e' := by
  unfold candidateRows at h
  unfold slicesOf
  cases htask : taskIn libs eng st w kh id with
  | error e' =>
      rw [tasksIn_error htask]
      exact ⟨e', rfl⟩
  | ok task =>
      rw [htask] at h
      cases task with
      | none => cases h
      | some t =>
          dsimp only at h
          rw [tasksIn_take htask]
          cases tasksIn libs eng st w kh ids with
          | error e' => exact ⟨e', rfl⟩
          | ok tasks =>
              simp only [Except.map, bind, Except.bind, List.map_cons, h, collectSlices]
              exact ⟨e, rfl⟩

/-- **An answer has the rows of its candidates**, all of which can be read. -/
theorem slicesOf_ok {slices : List (List Event)}
    (h : slicesOf libs eng st w req kh ids = .ok slices) :
    (∀ id ∈ ids, candidateRows libs eng st w req kh id = .ok (blockRows libs eng st w req kh id)) ∧
      slices.flatten = ids.flatMap (blockRows libs eng st w req kh) := by
  induction ids generalizing slices with
  | nil =>
      cases h
      exact ⟨fun _ hid => absurd hid List.not_mem_nil, rfl⟩
  | cons id ids ih =>
      cases hrows : candidateRows libs eng st w req kh id with
      | error e =>
          obtain ⟨e', he⟩ := @slicesOf_cons_error libs eng st w id ids req kh e hrows
          rw [he] at h
          cases h
      | ok rows =>
          have hblock : blockRows libs eng st w req kh id = rows := by rw [blockRows, hrows]
          rw [slicesOf_cons hrows] at h
          cases hrest : slicesOf libs eng st w req kh ids with
          | error e =>
              rw [hrest] at h
              cases h
          | ok rest =>
              rw [hrest] at h
              cases h
              obtain ⟨hall, hflat⟩ := ih hrest
              refine ⟨fun y hy => ?_, ?_⟩
              · rcases List.mem_cons.mp hy with rfl | hy
                · rw [hrows, hblock]
                · exact hall y hy
              · rw [List.flatMap_cons, hblock, ← hflat]
                cases rows with
                | nil => rfl
                | cons r rows => rfl

theorem exists_slicesOf
    (h : ∀ id ∈ ids, ∃ rows, candidateRows libs eng st w req kh id = .ok rows) :
    ∃ slices, slicesOf libs eng st w req kh ids = .ok slices := by
  induction ids with
  | nil => exact ⟨[], rfl⟩
  | cons id ids ih =>
      obtain ⟨rows, hrows⟩ := h id List.mem_cons_self
      obtain ⟨slices, hslices⟩ := ih fun y hy => h y (List.mem_cons_of_mem _ hy)
      rw [slicesOf_cons hrows, hslices]
      exact ⟨_, rfl⟩

/-! ## Candidates that are gone -/

/-- Splitting rows by their block. -/
theorem flatMap_perm_filter {α β : Type} (p : α → Bool) (f g : α → List β) (l : List α)
    (hgone : ∀ a ∈ l, p a = true → g a = []) (hkept : ∀ a ∈ l, p a = false → g a = f a) :
    (l.flatMap f).Perm (l.flatMap g ++ (l.filter p).flatMap f) := by
  induction l with
  | nil => exact .refl _
  | cons a l ih =>
      have ih := ih (fun b hb => hgone b (List.mem_cons_of_mem _ hb))
        fun b hb => hkept b (List.mem_cons_of_mem _ hb)
      cases hp : p a with
      | true =>
          rw [List.filter_cons_of_pos hp, List.flatMap_cons, List.flatMap_cons, List.flatMap_cons,
            hgone a List.mem_cons_self hp, List.nil_append]
          refine (ih.append_left (f a)).trans ?_
          rw [← List.append_assoc, ← List.append_assoc]
          exact List.perm_append_comm.append_right _
      | false =>
          rw [List.filter_cons_of_neg (by simp [hp]), List.flatMap_cons, List.flatMap_cons,
            hkept a List.mem_cons_self hp, List.append_assoc]
          exact ih.append_left _

/-- **Leaving candidates without rows takes their rows out of the answer** and
nothing else. -/
theorem answerOf_without {out : List Event} (p : BlockID → Bool)
    (hgone : ∀ id ∈ ids, p id = true → ∀ rows, candidateRows libs eng st w req kh id = .ok rows →
      candidateRows libs eng st x req kh id = .ok [])
    (hkept : ∀ id ∈ ids, p id = false →
      candidateRows libs eng st x req kh id = candidateRows libs eng st w req kh id)
    (h : answerOf libs eng st w req kh ids = .ok out) :
    ∃ out', answerOf libs eng st x req kh ids = .ok out' ∧
      out.Perm (out' ++ (ids.filter p).flatMap (blockRows libs eng st w req kh)) := by
  rw [answerOf_eq_map] at h ⊢
  cases hslices : slicesOf libs eng st w req kh ids with
  | error e =>
      rw [hslices] at h
      cases h
  | ok slices =>
      rw [hslices] at h
      cases h
      obtain ⟨hall, hflat⟩ := slicesOf_ok hslices
      obtain ⟨slices', hslices'⟩ :
          ∃ slices', slicesOf libs eng st x req kh ids = .ok slices' := by
        refine exists_slicesOf fun id hid => ?_
        cases hp : p id with
        | true => exact ⟨[], hgone id hid hp _ (hall id hid)⟩
        | false => exact ⟨_, (hkept id hid hp).trans (hall id hid)⟩
      obtain ⟨hall', hflat'⟩ := slicesOf_ok hslices'
      refine ⟨mergeEvents slices', by rw [hslices']; rfl, ?_⟩
      have hsplit := flatMap_perm_filter p (blockRows libs eng st w req kh)
        (blockRows libs eng st x req kh) ids
        (fun id hid hp => by rw [blockRows, hgone id hid hp _ (hall id hid)])
        (fun id hid hp => by rw [blockRows, blockRows, hkept id hid hp])
      rw [← hflat, ← hflat'] at hsplit
      exact (mergeEvents_perm slices).trans
        (hsplit.trans ((mergeEvents_perm slices').symm.append_right _))

/-! ## What a cycle changes for a query -/

/-- The block had metadata and has lost it. -/
def deletedBlock (w x : World) (id : BlockID) : Bool :=
  (w.db.view.get (blockKey id)).isSome && (x.db.view.get (blockKey id)).isNone

variable {tiers : Tier → Option LocalStore} {E : ExpiredEntry → Prop}

theorem deletedBlock_iff (h : Removed .reaper tiers w E x) :
    deletedBlock w x id = true ↔
      ∃ e, E e ∧ e.id = id ∧ ∃ store, Doomed .reaper tiers w id store := by
  rw [deletedBlock, Bool.and_eq_true]
  constructor
  · rintro ⟨hsome, hnone⟩
    rcases h.blk id with hsame | ⟨-, hleaves, e, he, hid⟩
    · rw [hsame] at hnone
      simp_all
    · refine ⟨e, he, hid, hleaves.resolve_left fun hblk => ?_⟩
      rw [hblk] at hsome
      cases hsome
  · rintro ⟨e, he, rfl, store, hdoomed⟩
    rw [h.key_gone _ ⟨e, he, Or.inr ⟨store, hdoomed⟩, Or.inl rfl⟩]
    obtain ⟨val, bm, hval, -⟩ := hdoomed
    rw [hval]
    exact ⟨rfl, rfl⟩

/-- The index is not changed. -/
theorem candidatesIn_removed {sw : Sweeper} (h : Removed sw tiers w E x) :
    candidatesIn x req kh = candidatesIn w req kh := by
  have hfound : ∀ et, foundBlocks x et kh req.from_ req.to_ =
      foundBlocks w et kh req.from_ req.to_ := by
    intro et
    have hrange := @OrdMap.range_congr _ _ _ w.db.view x.db.view (idxKeyPrefix et kh)
      (idxKeyUpper et kh) fun k hlo hhi => by
        obtain ⟨rest, rfl⟩ := mem_idxRange.mp ⟨hlo, hhi⟩
        rw [← idxKey_eq]
        refine h.key_kept _ ?_
        rintro ⟨e, -, -, hk | hk⟩
        · exact idxKey_ne_blockKey hk
        · exact idxKey_ne_expiryKey hk
    rw [foundBlocks, foundBlocks, hrange]
  unfold candidatesIn
  cases req.eventType with
  | some et => exact hfound et
  | none => exact congrArg (fun f => List.flatMap f allTypes) (funext hfound)

/-- A block that stays adds what it added. -/
theorem candidateRows_kept (h : Removed .reaper tiers w E x) (hE : ∀ e, E e → IsBlockID e.id)
    (hkept : deletedBlock w x id = false) :
    candidateRows libs eng st x req kh id = candidateRows libs eng st w req kh id := by
  have hnot : ¬ ∃ e, E e ∧ e.id = id ∧ ∃ store, Doomed .reaper tiers w id store := by
    rw [← deletedBlock_iff h, hkept]
    exact Bool.false_ne_true
  have hfiles := h.files_kept hE hnot
  have hblk : x.db.view.get (blockKey id) = w.db.view.get (blockKey id) := by
    rcases h.blk id with hsame | ⟨hgone, hleaves, e, he, hid⟩
    · exact hsame
    · rcases hleaves with hnone | hdoomed
      · rw [hgone, hnone]
      · exact absurd ⟨e, he, hid, hdoomed⟩ hnot
  have htest : BloomCache.testFile libs x st id kh = BloomCache.testFile libs w st id kh := by
    unfold BloomCache.testFile
    rw [(hfiles st).2]
  have htask : taskIn libs eng st x kh id = taskIn libs eng st w kh id := by
    rw [taskIn, taskIn, htest, result_getBlockMeta, result_getBlockMeta, hblk]
  rw [candidateRows, candidateRows, htask]
  cases ht : taskIn libs eng st w kh id with
  | error e => rfl
  | ok task =>
      cases task with
      | none => rfl
      | some t =>
          dsimp only
          rw [rowsIn, rowsIn, result_readBlock, result_readBlock, id_of_taskIn ht,
            (hfiles t.store).1]

/-- A deleted block adds nothing any more. -/
theorem candidateRows_gone (h : Removed .reaper tiers w E x)
    (hgone : deletedBlock w x id = true) {rows : List Event}
    (hrows : candidateRows libs eng st w req kh id = .ok rows) :
    candidateRows libs eng st x req kh id = .ok [] := by
  have hblk : x.db.view.get (blockKey id) = none := by
    rw [deletedBlock, Bool.and_eq_true] at hgone
    exact Option.isNone_iff_eq_none.mp hgone.2
  have htest : ∃ b, BloomCache.testFile libs x st id kh = .ok b := by
    by_cases hfile : FileGoes .reaper tiers w E (st.bloomPath id)
    · refine ⟨false, ?_⟩
      rw [BloomCache.testFile, h.file_gone _ hfile]
    · -- the file in the store of the cache is not that of the tier: it was read before
      have hsame : BloomCache.testFile libs x st id kh = BloomCache.testFile libs w st id kh := by
        unfold BloomCache.testFile
        rw [h.file_kept _ hfile]
      rw [hsame]
      cases ht : BloomCache.testFile libs w st id kh with
      | ok b => exact ⟨b, rfl⟩
      | error e =>
          rw [candidateRows, taskIn, ht] at hrows
          cases hrows
  obtain ⟨b, hb⟩ := htest
  rw [candidateRows, taskIn_of_deleted hb hblk]

/-- The cached filters are as current as they were. -/
theorem current_removed {c : BloomCache libs} (h : Removed .reaper tiers w E x)
    (hE : ∀ e, E e → IsBlockID e.id) (hc : BloomCache.Current w c) : BloomCache.Current x c := by
  intro id elem hitem
  by_cases hfile : FileGoes .reaper tiers w E (c.store.bloomPath id)
  · -- the filter of a block that was deleted
    refine Or.inr ⟨h.file_gone _ hfile, ?_⟩
    obtain ⟨-, e, store, he, hdoomed, hp | hp⟩ := hfile
    · exact absurd hp.symm (blockPath_ne_bloomPath _ _ _ _)
    · obtain rfl := bloomPath_inj (hE e he) hp.symm
      exact h.key_gone _ ⟨e, he, Or.inr ⟨store, hdoomed⟩, Or.inl rfl⟩
  · have hsame := h.file_kept _ hfile
    rcases hc id elem hitem with ⟨data, hdata, hf⟩ | ⟨hnone, hblk⟩
    · exact Or.inl ⟨data, hsame.trans hdata, hf⟩
    · refine Or.inr ⟨hsame.trans hnone, ?_⟩
      rcases h.blk id with hkey | ⟨hkey, -⟩
      · rw [hkey, hblk]
      · exact hkey

theorem answer_eq_answerOf (hkey : req.partitionKey.length ≠ 0) (horder : req.from_ < req.to_) :
    answer libs eng st w req = answerOf libs eng st w req (keyHashFor libs req.partitionKey)
      (candidatesIn w req (keyHashFor libs req.partitionKey)) := by
  rw [answer, if_neg hkey, if_neg (not_not.mpr horder)]
  rfl

/-- **After a cycle of the reaper a query returns what it returned before,
without the rows of the deleted blocks.** -/
theorem query_removed {c : BloomCache libs} {out : List Event} (h : Removed .reaper tiers w E x)
    (hE : ∀ e, E e → IsBlockID e.id) (hc : BloomCache.Current w c)
    (hout : ((query libs eng c req).exec w).1.1 = .ok out) :
    ∃ out', ((query libs eng c req).exec x).1.1 = .ok out' ∧
      out.Perm (out' ++ ((candidatesIn w req (keyHashFor libs req.partitionKey)).filter
        (deletedBlock w x)).flatMap
          (blockRows libs eng c.store w req (keyHashFor libs req.partitionKey))) := by
  rw [exec_query_current hc] at hout
  rw [exec_query_current (current_removed h hE hc)]
  by_cases hkey : req.partitionKey.length = 0
  · rw [answer, if_pos hkey] at hout
    cases hout
  by_cases horder : req.from_ < req.to_
  case neg =>
    rw [answer, if_neg hkey, if_pos horder] at hout
    cases hout
  rw [answer_eq_answerOf hkey horder] at hout ⊢
  rw [candidatesIn_removed h]
  exact answerOf_without (deletedBlock w x)
    (fun id _ hgone rows hrows => candidateRows_gone h hgone hrows)
    (fun id _ hkept => candidateRows_kept h hE hkept) hout

/-! ## The job of the sweeps -/

/-- **Reaper and janitor do their job and nothing else**, when nothing fails:
the reaper deletes the blocks that are due and takes their rows out of every
answer; the janitor deletes keys whose block is gone. -/
theorem sweeps_do_their_job (tiers : Tier → Option LocalStore) (w : World) (n : UInt64)
    (hn : unixHour w.clock = n) (hlt : n.toNat < 2 ^ 64 - 1)
    (hids : ∀ h id, (w.db.view.get (expiryKey h id)).isSome → IsBlockID id)
    (hdec : ∀ id val, w.db.view.get (blockKey id) = some val →
      ∃ bm, decodeBlockMeta val = .ok bm) :
    (∃ w', (runOnce ⟨tiers⟩).run.exec w = (.ok (), w') ∧ ReaperEffect tiers n w w' ∧
      ∀ (libs : Libs) (eng : Engine) (c : BloomCache libs) (req : QueryRequest) (out : List Event),
        BloomCache.Current w c → ((query libs eng c req).exec w).1.1 = .ok out →
        ∃ out', ((query libs eng c req).exec w').1.1 = .ok out' ∧
          out.Perm (out' ++ ((candidatesIn w req (keyHashFor libs req.partitionKey)).filter
            (deletedBlock w w')).flatMap
              (blockRows libs eng c.store w req (keyHashFor libs req.partitionKey)))) ∧
    ∃ w', (janitorRunOnce ⟨tiers⟩).run.exec w = (.ok (), w') ∧ JanitorEffect tiers n w w' := by
  have hE : ∀ e, Expired w.db.view w.clock e ↔ Due w n e.hour e.id :=
    fun e => expired_iff_due hn hlt
  have hblock : ∀ e, Expired w.db.view w.clock e → IsBlockID e.id :=
    fun e he => hids e.hour e.id he.1
  obtain ⟨hok, hreaped⟩ := exec_runOnce_removed .reaper tiers w hdec
  obtain ⟨hok', hcleaned⟩ := exec_runOnce_removed .janitor tiers w hdec
  refine ⟨⟨_, Prod.ext hok rfl, hreaped.reaperEffect hE hblock, ?_⟩,
    ⟨_, Prod.ext hok' rfl, hcleaned.janitorEffect hE⟩⟩
  intro libs eng c req out hc hout
  exact query_removed hreaped hblock hc hout

/-! ### Two blocks -/

/-- The key is no expiry key, or one of the two blocks'. -/
def expiryOfTwo (k : Bytes) : Bool :=
  match parseExpiryKey k with
  | .error _ => true
  | .ok (_, id) => id = oneRow.blockID || id = nextRow.blockID

/-- The binding is no metadata, or decodes. -/
def decodes (k v : Bytes) : Bool := family k ≠ prefixBlock || (decodeBlockMeta v).toOption.isSome

theorem isBlockID_of_all (hall : w.db.view.all (fun k _ => expiryOfTwo k) = true) :
    ∀ h id, (w.db.view.get (expiryKey h id)).isSome → IsBlockID id := by
  intro h id hkey
  obtain ⟨v, hv⟩ := Option.isSome_iff_exists.mp hkey
  have htwo := OrdMap.all_eq_true.mp hall _ v hv
  simp only [expiryOfTwo, parseExpiryKey_expiryKey, Bool.or_eq_true, decide_eq_true_eq] at htwo
  rcases htwo with rfl | rfl
  · exact isBlockID_blockID oneRow
  · exact isBlockID_blockID nextRow

theorem decodes_of_all (hall : w.db.view.all decodes = true) :
    ∀ id val, w.db.view.get (blockKey id) = some val → ∃ bm, decodeBlockMeta val = .ok bm := by
  intro id val hval
  have hdec := OrdMap.all_eq_true.mp hall _ val hval
  simp only [decodes, family_blockKey, ne_eq, not_true, decide_false, Bool.false_or] at hdec
  cases hbm : decodeBlockMeta val with
  | ok bm => exact ⟨bm, rfl⟩
  | error e =>
      rw [hbm] at hdec
      cases hdec

set_option maxRecDepth 100000 in
/-- The first of the two blocks goes, and its row. -/
theorem sweeps_do_their_job_twoRows : ∃ w' out',
    (runOnce ⟨oneRowEngine.tiers⟩).run.exec twoRows = (.ok (), w') ∧ ReaperEffect oneRowEngine.tiers 43800 twoRows w' ∧
    w'.db.view.get (blockKey oneRow.blockID) = none ∧
    ((query Libs.plain oneRowEngine noBlooms twoRowsQuery).exec w').1.1 = .ok out' ∧
    bothRows.Perm (out' ++ [⟨256, 1, [1]⟩]) := by
  have hclock : unixHour twoRows.clock = 43800 := by decide +kernel
  obtain ⟨⟨w', hrun, heffect, hquery⟩, -⟩ := sweeps_do_their_job oneRowEngine.tiers twoRows 43800 hclock
    (by decide) (isBlockID_of_all (by decide +kernel)) (decodes_of_all (by decide +kernel))
  have hw' : w' = ((runOnce ⟨oneRowEngine.tiers⟩).run.exec twoRows).2 := by rw [hrun]
  obtain ⟨out', hout', hperm⟩ := hquery Libs.plain oneRowEngine noBlooms twoRowsQuery bothRows
    (BloomCache.agrees_new _ _ _).current (by decide +kernel)
  have hrows : ((candidatesIn twoRows twoRowsQuery
      (keyHashFor Libs.plain twoRowsQuery.partitionKey)).filter (deletedBlock twoRows w')).flatMap
      (blockRows Libs.plain oneRowEngine noBlooms.store twoRows twoRowsQuery
        (keyHashFor Libs.plain twoRowsQuery.partitionKey)) = [⟨256, 1, [1]⟩] := by
    rw [hw']
    decide +kernel
  rw [hrows] at hperm
  refine ⟨w', out', hrun, heffect, ?_, hout', hperm⟩
  rw [hw']
  decide +kernel

/-- A second row in the hour of `nextRow`, with another key. -/
def otherNext : SealRequest :=
  { nextRow with memtable := Memtable.new.append ⟨512, Int64.ofInt hour, [2]⟩ }

/-- `oneRow` and `otherNext` are sealed. -/
def sealedOther : World :=
  ((sealBlock listLibs otherNext).run.exec
    ((sealBlock listLibs oneRow).run.exec ⟨Pebble.empty, fun _ => none, 0⟩).2).2

/-- A cache with room for one filter, which is that of `otherNext`. -/
def staleBlooms : BloomCache listLibs :=
  (((newBloomCache oneRow.store 1).test nextRow.blockID 512).exec sealedOther).1.2

/-- `nextRow` is sealed for the block id of `otherNext`, and `oneRow` has
expired. -/
def sealedAgain : World :=
  readClock ((sealBlock listLibs nextRow).run.exec sealedOther).2 (43800 * hour)

set_option maxRecDepth 100000 in
/-- **With an outdated filter in the cache, deleting one block hides the row of
another**, whose file and metadata are as before. -/
theorem stale_filter_hides_row : ∃ w',
    (∀ h id, (sealedAgain.db.view.get (expiryKey h id)).isSome → IsBlockID id) ∧
    (∀ id val, sealedAgain.db.view.get (blockKey id) = some val →
      ∃ bm, decodeBlockMeta val = .ok bm) ∧
    unixHour sealedAgain.clock = 43800 ∧
    (runOnce ⟨oneRowEngine.tiers⟩).run.exec sealedAgain = (.ok (), w') ∧
    ((query listLibs oneRowEngine staleBlooms twoRowsQuery).exec sealedAgain).1.1 = .ok bothRows ∧
    w'.fs nextRow.blockPath = some (nextRow.file listLibs) ∧
    deletedBlock sealedAgain w' nextRow.blockID = false ∧
    ((query listLibs oneRowEngine staleBlooms twoRowsQuery).exec w').1.1 = .ok [] := by
  let w' := ((runOnce ⟨oneRowEngine.tiers⟩).run.exec sealedAgain).2
  -- one evaluation for all of them: each runs the two seals again
  have hruns : sealedAgain.db.view.all (fun k _ => expiryOfTwo k) = true ∧
      sealedAgain.db.view.all decodes = true ∧ unixHour sealedAgain.clock = 43800 ∧
      ((runOnce ⟨oneRowEngine.tiers⟩).run.exec sealedAgain).1 = .ok () ∧
      ((query listLibs oneRowEngine staleBlooms twoRowsQuery).exec sealedAgain).1.1 =
        .ok bothRows ∧
      w'.fs nextRow.blockPath = some (nextRow.file listLibs) ∧
      deletedBlock sealedAgain w' nextRow.blockID = false ∧
      ((query listLibs oneRowEngine staleBlooms twoRowsQuery).exec w').1.1 = .ok [] := by
    decide +kernel
  obtain ⟨hids, hmetas, hclock, hok, hbefore, hfile, hkept, hafter⟩ := hruns
  exact ⟨w', isBlockID_of_all hids, decodes_of_all hmetas, hclock, Prod.ext hok rfl, hbefore,
    hfile, hkept, hafter⟩

end Bbdb.Query
