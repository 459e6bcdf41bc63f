import Bbdb.Block.FailPoints
import Bbdb.Meta.Wal
import Bbdb.Query.Swept
import Mathlib.Data.Fintype.EquivFin

/-!
# Query — after a Seal that failed

A `Seal` that fails should leave the stored data as it was (`Intact`). No key
but index keys changes in any case. Whether queries notice depends on two
things: whether a block is committed under the id of the request, and whether
the bloom file had been created when `Seal` failed
(`failed_seal_intact_iff`).

If no block is committed under the id, the block is skipped before and after:
it has no metadata. If there is one, `Seal` has overwritten its bloom file
and then removes it (`failed_reseal_hides_block`), or leaves the new files to
the old metadata. Both can come of the same state and request, and the
answers differ, so one of them is not the one from before.
-/

namespace Bbdb.Query

open Bbdb.Block Bbdb.Meta Bbdb.Tier Bbdb.Index GoTime
open Prog hiding pure bind

variable {libs : Libs} {eng : Engine} {st : LocalStore} {w w' : World} {ws : List World}
  {id : BlockID} {req : QueryRequest} {kh : UInt64} {r : SealRequest}

/-! ## Stored data -/

/-- Nothing is lost and nothing is added: all keys but index keys are the
same, and so is the result of every query that starts with an empty cache. -/
structure Intact (libs : Libs) (eng : Engine) (st : LocalStore) (w w' : World) : Prop where
  keys : ∀ k, family k ≠ prefixIdx → w'.db.view.get k = w.db.view.get k
  queries : ∀ (maxMem : Int64) (req : QueryRequest),
    ((query libs eng (newBloomCache st maxMem) req).exec w').1.1 =
      ((query libs eng (newBloomCache st maxMem) req).exec w).1.1

theorem result_query_empty (maxMem : Int64) :
    ((query libs eng (newBloomCache st maxMem) req).exec w).1.1 = answer libs eng st w req :=
  exec_query (BloomCache.agrees_new w st maxMem) eng req

theorem Intact.answer (h : Intact libs eng st w w') (req : QueryRequest) :
    answer libs eng st w' req = answer libs eng st w req := by
  have hquery := h.queries 0 req
  rwa [result_query_empty, result_query_empty] at hquery

theorem intact_of_answer (hkeys : ∀ k, family k ≠ prefixIdx → w'.db.view.get k = w.db.view.get k)
    (hanswer : ∀ req, answer libs eng st w' req = answer libs eng st w req) :
    Intact libs eng st w w' := by
  refine ⟨hkeys, fun maxMem req => ?_⟩
  rw [result_query_empty, result_query_empty, hanswer]

/-- Two worlds that differ in a block which adds nothing in either. -/
theorem intact_of_silent (hkeys : ∀ k, family k ≠ prefixIdx → w'.db.view.get k = w.db.view.get k)
    (hbeside : Beside id w w')
    (hw : ∀ req, Silent libs eng st w req (keyHashFor libs req.partitionKey) id)
    (hw' : ∀ req, Silent libs eng st w' req (keyHashFor libs req.partitionKey) id) :
    Intact libs eng st w w' :=
  intact_of_answer hkeys fun req => answer_beside hbeside (hw req) (hw' req)

/-- **A `Seal` that fails changes no key but index keys.** -/
theorem keys_of_error {e : Err} (h : Runs sem (sealBlock libs r).run w ws (.error e) w') (k : Bytes)
    (hk : family k ≠ prefixIdx) : w'.db.view.get k = w.db.view.get k := by
  rcases runs_sealBlock libs r h with ⟨-, hc⟩ | ⟨he, -⟩
  · refine get_of_chain hc h.getLast fun x hx => hk ?_
    rw [hx, family_idxKey]
  · cases he

/-! ## States that seals reach -/

/-- The states of a store after any number of `Seal` calls, for any block ids
and with any outcome, with WAL entries written in between. The removals of a
failed `Seal` have worked. -/
inductive SealHistory (libs : Libs) (st : LocalStore) : World → Prop
  | start {w : World} (hkeys : ∀ k, w.db.view.get k = none)
      (hfiles : ∀ id, w.fs (st.bloomPath id) = none) : SealHistory libs st w
  | sealed {w w' : World} {ws : List World} {r : SealRequest} {res : Except Err BlockID}
      (h : SealHistory libs st w) (hstore : r.store = st)
      (hpayloads : ∀ e ∈ r.memtable.rows, e.payload.length < 2 ^ 32)
      (hrun : Runs semTidy (sealBlock libs r).run w ws res w') : SealHistory libs st w'
  | logged {w w' : World} (h : SealHistory libs st w) (hwal : WalOnly w w') :
      SealHistory libs st w'

/-- What is so in each of these states: a bloom file can be decoded, the
metadata says the block is in the hot tier, and a block with both has a
complete file. -/
structure Orderly (libs : Libs) (st : LocalStore) (w : World) : Prop where
  bloom : ∀ id data, w.fs (st.bloomPath id) = some data → ∃ f, deserializeBloom libs data = .ok f
  blk : ∀ id val, w.db.view.get (blockKey id) = some val →
    ∃ bm, decodeBlockMeta val = .ok bm ∧ bm.tier = tierHot
  file : ∀ id, (w.db.view.get (blockKey id)).isSome → (w.fs (st.bloomPath id)).isSome →
    ∃ r : SealRequest, r.store = st ∧ r.blockID = id ∧ HasFile libs w r ∧
      ∀ e ∈ r.memtable.rows, e.payload.length < 2 ^ 32

/-- What a `Seal` leaves of its own block: all as before, or no bloom file, or
both files complete; the metadata is that from before or the new one. -/
theorem own_of_runs {res : Except Err BlockID}
    (h : Runs semTidy (sealBlock libs r).run w ws res w') :
    (w'.fs r.bloomPath = w.fs r.bloomPath ∧ w'.fs r.blockPath = w.fs r.blockPath ∨
      w'.fs r.bloomPath = none ∨ HasBloom libs w' r ∧ HasFile libs w' r) ∧
    (w'.db.view.get (blockKey r.blockID) = w.db.view.get (blockKey r.blockID) ∨
      HasMeta libs w' r ∧ HasBloom libs w' r ∧ HasFile libs w' r) := by
  cases res with
  | ok id =>
      have hp := present_of_runs (runs_of_tidy h)
      exact ⟨Or.inr (Or.inr ⟨hp.bloom, hp.file⟩), Or.inr ⟨hp.blk, hp.bloom, hp.file⟩⟩
  | error e =>
      refine ⟨?_, Or.inl (keys_of_error (runs_of_tidy h) _ (by rw [family_blockKey]; decide))⟩
      obtain ⟨p, hp⟩ := (runs_error_iff libs r).mp h
      cases p with
      | beforeBloom =>
          obtain ⟨-, hfs⟩ := unchanged_of_createBloom (runs_of_tidy hp)
          exact Or.inl ⟨hfs _ (tmpPath_ne_bloomPath _ _ _ _).symm,
            hfs _ (tmpPath_ne_blockPath _ _ _ _).symm⟩
      | afterBloom => exact Or.inr (files_of_failsAfter hp)

/-- **A `Seal` keeps the store orderly**, whatever its outcome. -/
theorem Orderly.sealed {res : Except Err BlockID} (h : Orderly libs r.store w)
    (hpayloads : ∀ e ∈ r.memtable.rows, e.payload.length < 2 ^ 32)
    (hrun : Runs semTidy (sealBlock libs r).run w ws res w') : Orderly libs r.store w' := by
  have hbeside := beside_of_runs (runs_of_tidy hrun)
  obtain ⟨hfiles, hmeta⟩ := own_of_runs hrun
  refine ⟨fun id data hdata => ?_, fun id val hval => ?_, fun id hval hbloom => ?_⟩
  · by_cases hid : id = r.blockID
    · subst hid
      rcases hfiles with ⟨hsame, -⟩ | hnone | ⟨hnew, -⟩
      · exact h.bloom _ data (hsame ▸ hdata)
      · rw [SealRequest.bloomPath, hdata] at hnone
        cases hnone
      · obtain ⟨f, hf, -⟩ := Scene.filter_of_hasBloom hnew hdata
        exact ⟨f, hf⟩
    · rw [hbeside.bloom _ _ hid] at hdata
      exact h.bloom id data hdata
  · by_cases hid : id = r.blockID
    · subst hid
      rcases hmeta with hsame | ⟨hnew, -⟩
      · exact h.blk _ val (hsame ▸ hval)
      · rw [HasMeta, hval, Option.some.injEq] at hnew
        rw [hnew]
        exact ⟨_, decodeBlockMeta_encodeBlockMeta _, rfl⟩
    · rw [hbeside.blk _ hid] at hval
      exact h.blk id val hval
  · by_cases hid : id = r.blockID
    · subst hid
      rcases hfiles with ⟨hbloom', hblock⟩ | hnone | ⟨-, hnew⟩
      · rcases hmeta with hblk | ⟨-, -, hnew⟩
        · have hbefore : (w.fs r.bloomPath).isSome := hbloom' ▸ hbloom
          obtain ⟨r', hstore, hid', hfile, hp⟩ := h.file _ (hblk ▸ hval) hbefore
          refine ⟨r', hstore, hid', hfile.of_file ?_, hp⟩
          rw [SealRequest.blockPath, hstore, hid']
          exact hblock
        · exact ⟨r, rfl, rfl, hnew, hpayloads⟩
      · rw [SealRequest.bloomPath] at hnone
        rw [hnone] at hbloom
        cases hbloom
      · exact ⟨r, rfl, rfl, hnew, hpayloads⟩
    · rw [hbeside.blk _ hid] at hval
      rw [hbeside.bloom _ _ hid] at hbloom
      obtain ⟨r', hstore, hid', hfile, hp⟩ := h.file id hval hbloom
      refine ⟨r', hstore, hid', hfile.of_file ?_, hp⟩
      rw [SealRequest.blockPath, hid', hbeside.block _ _ hid]

theorem Orderly.logged (h : Orderly libs st w) (hwal : WalOnly w w') : Orderly libs st w' := by
  have hblk : ∀ id, w'.db.view.get (blockKey id) = w.db.view.get (blockKey id) := fun id =>
    hwal.2 _ (by rw [family_blockKey]; decide) (by rw [family_blockKey]; decide)
  refine ⟨fun id data hdata => ?_, fun id val hval => ?_, fun id hval hbloom => ?_⟩
  · rw [hwal.1] at hdata
    exact h.bloom id data hdata
  · rw [hblk] at hval
    exact h.blk id val hval
  · rw [hblk] at hval
    rw [hwal.1] at hbloom
    obtain ⟨r, hstore, hid, hfile, hp⟩ := h.file id hval hbloom
    exact ⟨r, hstore, hid, hfile.of_file (by rw [hwal.1]), hp⟩

theorem SealHistory.orderly (h : SealHistory libs st w) : Orderly libs st w := by
  induction h with
  | start hkeys hfiles =>
      refine ⟨fun id data hdata => ?_, fun id val hval => ?_, fun id hval _ => ?_⟩
      · rw [hfiles] at hdata
        cases hdata
      · rw [hkeys] at hval
        cases hval
      · rw [hkeys] at hval
        cases hval
  | sealed _ hstore hpayloads hrun ih =>
      subst hstore
      exact ih.sealed hpayloads hrun
  | logged _ hwal ih => exact ih.logged hwal

/-- A block without metadata adds nothing. -/
theorem Orderly.silent (h : Orderly libs st w) (hblk : w.db.view.get (blockKey id) = none) :
    Silent libs eng st w req kh id :=
  silent_of_decodes (h.bloom id) hblk

/-- Every candidate can be read. -/
theorem Orderly.candidateRows (h : Orderly libs st w) (htier : eng.tiers tierHot = some st)
    (id : BlockID) : ∃ rows, candidateRows libs eng st w req kh id = .ok rows := by
  unfold Query.candidateRows
  cases hbloom : w.fs (st.bloomPath id) with
  | none =>
      refine ⟨[], ?_⟩
      rw [taskIn, BloomCache.testFile, hbloom]
  | some data =>
      obtain ⟨f, hf⟩ := h.bloom id data hbloom
      have htest : BloomCache.testFile libs w st id kh = .ok (testHash libs f kh) :=
        BloomCache.InFile.testFile ⟨data, hbloom, hf⟩
      cases hval : w.db.view.get (blockKey id) with
      | none =>
          refine ⟨[], ?_⟩
          rw [taskIn_of_deleted htest hval]
      | some val =>
          obtain ⟨bm, hbm, hhot⟩ := h.blk id val hval
          obtain ⟨r, rfl, rfl, ⟨hfile, hsize⟩, hp⟩ := h.file id (by rw [hval]; rfl)
            (by rw [hbloom]; rfl)
          rw [taskIn, htest, result_getBlockMeta, hval]
          cases testHash libs f kh with
          | false => exact ⟨[], rfl⟩
          | true =>
              simp only [hbm, hhot, htier, Option.map_some]
              rw [rowsIn, result_readBlock]
              rw [SealRequest.blockPath] at hfile
              rw [hfile]
              exact ⟨_, readRows_file hsize hp⟩

/-! ## A block that is hidden and one that is not -/

/-- Some query asks for a row of the block. -/
def Askable (libs : Libs) (r : SealRequest) : Prop :=
  ∃ req, Proper req ∧ wanted libs req r ≠ []

theorem exists_asked (h : wanted libs req r ≠ []) :
    InScope req r ∧ ∃ e ∈ r.memtable.rows, Asked libs req e := by
  unfold wanted at h
  split_ifs at h with hscope
  · obtain ⟨e, he⟩ := List.exists_mem_of_ne_nil _ h
    obtain ⟨hmem, hasked⟩ := List.mem_filter.mp he
    exact ⟨hscope, e, hmem, of_decide_eq_true hasked⟩
  · exact absurd rfl h

/-- A block with files and metadata adds its rows. -/
theorem candidateRows_of_files (hbloom : HasBloom libs w r) (hfile : HasFile libs w r)
    (hp : ∀ e ∈ r.memtable.rows, e.payload.length < 2 ^ 32) {val : Bytes} {bm : BlockMeta}
    (hval : w.db.view.get (blockKey r.blockID) = some val) (hbm : decodeBlockMeta val = .ok bm)
    (hhot : bm.tier = tierHot) (htier : eng.tiers tierHot = some r.store) (hhash : HasHash r kh) :
    candidateRows libs eng r.store w req kh r.blockID =
      .ok (rowsOf libs kh req.from_ req.to_ r) := by
  obtain ⟨data, hser, hdata⟩ := hbloom
  obtain ⟨f, hf, hall⟩ := Scene.filter_of_hasBloom ⟨data, hser, hdata⟩ hdata
  obtain ⟨e, he, rfl⟩ := hhash
  have htest : BloomCache.testFile libs w r.store r.blockID e.keyHash = .ok true := by
    rw [← hall e he]
    exact BloomCache.InFile.testFile ⟨data, hdata, hf⟩
  have hread : w.fs (r.store.blockPath r.blockID) = some (r.file libs) := hfile.1
  rw [candidateRows, taskIn, htest, result_getBlockMeta, hval]
  simp only [hbm, hhot, htier, Option.map_some]
  rw [rowsIn, result_readBlock, hread]
  exact readRows_file hfile.2 hp

/-- Another block adds the same. -/
theorem candidateRows_beside (h : Beside id w w') {x : BlockID} (hx : x ≠ id) :
    candidateRows libs eng st w' req kh x = candidateRows libs eng st w req kh x := by
  rw [candidateRows, candidateRows, taskIn_beside h hx]
  cases htask : taskIn libs eng st w kh x with
  | error e => rfl
  | ok task =>
      cases task with
      | none => rfl
      | some t =>
          have hne : t.id ≠ id := id_of_taskIn htask ▸ hx
          dsimp only
          rw [rowsIn, rowsIn, result_readBlock, result_readBlock, h.block t.store t.id hne]

/-- **A query tells a hidden block from one with rows.** -/
theorem answer_ne_of_hidden {rows : List Event} (hreq : Proper req) (h : Orderly libs st w)
    (htier : eng.tiers tierHot = some st) (hbeside : Beside id w w')
    (hhidden : w'.fs (st.bloomPath id) = none)
    (hmem : id ∈ candidatesIn w req (keyHashFor libs req.partitionKey))
    (hrows : candidateRows libs eng st w req (keyHashFor libs req.partitionKey) id = .ok rows)
    (hne : rows ≠ []) : answer libs eng st w' req ≠ answer libs eng st w req := by
  have hkey : req.partitionKey.length ≠ 0 := fun he => hreq.key (List.length_eq_zero_iff.mp he)
  rw [answer_eq_answerOf hkey hreq.order, answer_eq_answerOf hkey hreq.order]
  let kh := keyHashFor libs req.partitionKey
  have hskip : taskIn libs eng st w' kh id = .ok none := by
    rw [taskIn, BloomCache.testFile, hhidden]
  -- without the block, both worlds have the same candidates
  have hleft : answerOf libs eng st w' req kh (candidatesIn w' req kh) =
      answerOf libs eng st w' req kh (candidatesIn w req kh) := by
    rw [answerOf_filter fun _ => ⟨none, hskip, fun _ ht => by cases ht⟩, candidatesIn_beside hbeside,
      ← answerOf_filter fun _ => ⟨none, hskip, fun _ ht => by cases ht⟩]
  obtain ⟨slices, hslices⟩ := exists_slicesOf fun x (_ : x ∈ candidatesIn w req kh) =>
    h.candidateRows htier x
  have hout : answerOf libs eng st w req kh (candidatesIn w req kh) = .ok (mergeEvents slices) := by
    rw [answerOf_eq_map, hslices]
    rfl
  obtain ⟨out', hout', hperm⟩ := answerOf_without (fun x => decide (x = id))
    (fun x _ hx rows _ => by rw [of_decide_eq_true hx, candidateRows, hskip])
    (fun x _ hx => candidateRows_beside hbeside (of_decide_eq_false hx)) hout
  intro heq
  rw [hleft, hout', hout, Except.ok.injEq] at heq
  -- the rows of the block are missing on one side
  have hlen := hperm.length_eq
  rw [heq, List.length_append] at hlen
  have hblock : blockRows libs eng st w req kh id = rows := by rw [blockRows, hrows]
  have hin : id ∈ (candidatesIn w req kh).filter fun x => decide (x = id) :=
    List.mem_filter.mpr ⟨hmem, decide_eq_true rfl⟩
  obtain ⟨e, he⟩ := List.exists_mem_of_ne_nil _ hne
  have hpos := List.length_pos_of_mem (List.mem_flatMap.mpr ⟨id, hin, hblock ▸ he⟩)
  omega

/-! ## A Seal that failed -/

/-- Before the bloom file is created, nothing that is read has changed. -/
theorem intact_of_createBloom {e : Err}
    (h : Runs sem (createBloom libs r).run w ws (.error e) w') : Intact libs eng st w w' := by
  obtain ⟨hdb, hfs⟩ := unchanged_of_createBloom h
  have hsame : ∀ id, Beside id w w' := fun id =>
    ⟨fun s id' _ => hfs _ (tmpPath_ne_blockPath _ _ _ _).symm,
      fun s id' _ => hfs _ (tmpPath_ne_bloomPath _ _ _ _).symm,
      fun _ _ => by rw [hdb], fun _ _ _ _ => by rw [hdb]⟩
  refine intact_of_answer (fun k _ => by rw [hdb]) fun req => ?_
  -- the worlds agree beside an id that is no candidate
  obtain ⟨id, hid⟩ := Infinite.exists_notMem_finset
    (candidatesIn w req (keyHashFor libs req.partitionKey)).toFinset
  have hnot : id ∉ candidatesIn w req (keyHashFor libs req.partitionKey) := by simpa using hid
  have hcand : candidatesIn w' req (keyHashFor libs req.partitionKey) =
      candidatesIn w req (keyHashFor libs req.partitionKey) := by
    unfold candidatesIn foundBlocks
    rw [hdb]
  exact answer_beside (hsame id) (fun hmem => absurd hmem hnot)
    fun hmem => absurd (hcand ▸ hmem) hnot

/-- A first `Seal` of its id, even if its removals fail. -/
theorem intact_of_unknown {e : Err} (h : Runs sem (sealBlock libs r).run w ws (.error e) w')
    (hblk : w.db.view.get (blockKey r.blockID) = none)
    (hidx : ∀ et kh, w.db.view.get (idxKey et kh r.blockID) = none) :
    Intact libs eng r.store w w' := by
  have hnone : ∀ x : World, (∀ et kh, x.db.view.get (idxKey et kh r.blockID) = none) →
      ∀ req, Silent libs eng r.store x req (keyHashFor libs req.partitionKey) r.blockID := by
    intro x hx req hmem
    obtain ⟨et, -, hfound⟩ := mem_candidatesIn.mp hmem
    have hkey := (mem_foundBlocks.mp hfound).1
    rw [hx] at hkey
    cases hkey
  refine intact_of_silent (keys_of_error h) (beside_of_runs h) (hnone w hidx) ?_
  rcases bloom_of_runs_error h with hdb | hbloom
  · exact hnone w' (by rw [hdb]; exact hidx)
  · refine fun req => silent_of_hasBloom hbloom ?_
    rw [keys_of_error h _ (by rw [family_blockKey]; decide), hblk]

/-- **A `Seal` of the id of a committed block can fail in two ways that
queries tell apart.** -/
theorem not_intact_of_committed (hhistory : SealHistory libs r.store w)
    (hpayloads : ∀ e ∈ r.memtable.rows, e.payload.length < 2 ^ 32)
    (hfits : ∀ data, serialize libs (buildBloomFromMemtable libs 0 (r.sorted libs) r.bloomFPR) =
      .ok data → data.length < maxFileSize)
    (hcreates : CreatesBloom libs r) (hask : Askable libs r)
    (htier : eng.tiers tierHot = some r.store)
    (hblk : w.db.view.get (blockKey r.blockID) ≠ none) :
    ¬ ∀ ws e w', FailsAt libs r w ws e w' .afterBloom → Intact libs eng r.store w w' := by
  intro hall
  obtain ⟨ws₁, e₁, x, hx, hhidden⟩ := exists_hidden hcreates hfits w
  obtain ⟨ws₂, e₂, y, hy, hprepared⟩ := exists_uncommitted hcreates hfits w
  have hrunx := (runs_error_iff libs r).mpr ⟨_, hx⟩
  have hruny := (runs_error_iff libs r).mpr ⟨_, hy⟩
  have hbeside : Beside r.blockID y x :=
    (beside_of_runs (runs_of_tidy hruny)).symm.trans (beside_of_runs (runs_of_tidy hrunx))
  have horderly : Orderly libs r.store y := hhistory.orderly.sealed hpayloads hruny
  -- the metadata from before, now with the new files
  obtain ⟨val, hval⟩ := Option.ne_none_iff_exists'.mp hblk
  rw [← keys_of_error (runs_of_tidy hruny) _ (by rw [family_blockKey]; decide)] at hval
  obtain ⟨bm, hbm, hhot⟩ := horderly.blk _ val hval
  obtain ⟨req, hreq, hwanted⟩ := hask
  obtain ⟨⟨htype, hov⟩, e, he, hkh, hlo, hhi⟩ := exists_asked hwanted
  have hsorted : e ∈ (r.sorted libs).rows := (r.memtable.perm_rows_sort libs).mem_iff.mpr he
  have hmem : r.blockID ∈ candidatesIn y req (keyHashFor libs req.partitionKey) := by
    refine mem_candidatesIn.mpr ⟨r.eventType, htype, mem_foundBlocks.mpr ⟨?_, ?_⟩⟩
    · rw [hprepared.view, if_pos ⟨_, (Memtable.mem_uniqueKeyHashes libs).mpr ⟨e, hsorted, hkh⟩, rfl⟩]
      rfl
    · exact overlaps_blockID.mpr hov
  have hrows : candidateRows libs eng r.store y req (keyHashFor libs req.partitionKey) r.blockID =
      .ok (rowsOf libs (keyHashFor libs req.partitionKey) req.from_ req.to_ r) :=
    candidateRows_of_files hprepared.bloom ⟨hprepared.block, hprepared.size⟩ hpayloads hval hbm hhot
      htier ⟨e, he, hkh⟩
  have hne : rowsOf libs (keyHashFor libs req.partitionKey) req.from_ req.to_ r ≠ [] :=
    List.ne_nil_of_mem (List.mem_filter.mpr
      ⟨hsorted, (rowMatches_iff hreq e).mpr ⟨hkh, hlo, hhi⟩⟩)
  refine answer_ne_of_hidden hreq horderly htier hbeside hhidden hmem hrows hne ?_
  rw [(hall ws₁ e₁ x hx).answer, (hall ws₂ e₂ y hy).answer]

/-- **When a failed `Seal` leaves the stored data intact.** From every state
that seals reach: exactly if no block is committed under the id of the
request, or the bloom file has not been created when it fails, as it never is
if the request cannot be written. Other keys than index keys never change;
and where the id is unknown, the data is intact even if the removals fail. -/
theorem failed_seal_intact_iff (libs : Libs) (eng : Engine) (r : SealRequest) (w : World)
    (htier : eng.tiers tierHot = some r.store) (hhistory : SealHistory libs r.store w)
    (hpayloads : ∀ e ∈ r.memtable.rows, e.payload.length < 2 ^ 32)
    (hfits : ∀ data, serialize libs (buildBloomFromMemtable libs 0 (r.sorted libs) r.bloomFPR) =
      .ok data → data.length < maxFileSize) (hask : Askable libs r) :
    (∀ p, (∀ ws e w', FailsAt libs r w ws e w' p → Intact libs eng r.store w w') ↔
      w.db.view.get (blockKey r.blockID) = none ∨ p = .beforeBloom ∨ ¬ CreatesBloom libs r) ∧
    ∀ ws e w', Runs sem (sealBlock libs r).run w ws (.error e) w' →
      (∀ k, family k ≠ prefixIdx → w'.db.view.get k = w.db.view.get k) ∧
      (w.db.view.get (blockKey r.blockID) = none →
        (∀ et kh, w.db.view.get (idxKey et kh r.blockID) = none) →
        Intact libs eng r.store w w') := by
  refine ⟨fun p => ⟨fun hall => ?_, fun hcond ws e w' hfails => ?_⟩,
    fun ws e w' h => ⟨keys_of_error h, intact_of_unknown h⟩⟩
  · cases p with
    | beforeBloom => exact Or.inr (Or.inl rfl)
    | afterBloom =>
        by_contra hnot
        push Not at hnot
        obtain ⟨hblk, -, hcreates⟩ := hnot
        exact not_intact_of_committed hhistory hpayloads hfits hcreates hask htier hblk hall
  · cases p with
    | beforeBloom => exact intact_of_createBloom (runs_of_tidy hfails)
    | afterBloom =>
        rcases hcond with hblk | hp | hnot
        · have hrun := (runs_error_iff libs r).mpr ⟨_, hfails⟩
          have hkeys := keys_of_error (runs_of_tidy hrun)
          have hblk' : w'.db.view.get (blockKey r.blockID) = none := by
            rw [hkeys _ (by rw [family_blockKey]; decide), hblk]
          exact intact_of_silent hkeys (beside_of_runs (runs_of_tidy hrun))
            (fun _ => hhistory.orderly.silent hblk)
            fun _ => (hhistory.orderly.sealed hpayloads hrun).silent hblk'
        · cases hp
        · exact absurd (creates_of_failsAfter hfails) hnot

/-! Three seals of `oneRow` that fail: two after one that succeeded, and one
after one that failed at its last step. -/

theorem createsBloom_oneRow : CreatesBloom Libs.plain oneRow := by
  refine ⟨by decide +kernel, ?_⟩
  cases hser : serialize Libs.plain (buildBloomFromMemtable Libs.plain 0
      (oneRow.sorted Libs.plain) oneRow.bloomFPR) with
  | ok data => exact ⟨data, rfl⟩
  | error e => cases hser

theorem bloom_fits_oneRow (data : Bytes)
    (h : serialize Libs.plain (buildBloomFromMemtable Libs.plain 0 (oneRow.sorted Libs.plain)
      oneRow.bloomFPR) = .ok data) : data.length < maxFileSize := by
  cases h
  decide +kernel

theorem askable_oneRow : Askable Libs.plain oneRow :=
  ⟨oneRowQuery, proper_oneRowQuery, by decide +kernel⟩

theorem history_empty : SealHistory Libs.plain oneRow.store ⟨Pebble.empty, fun _ => none, 0⟩ :=
  .start (fun _ => rfl) fun _ => rfl

set_option maxRecDepth 100000 in
theorem failed_seal_intact_iff_oneRow :
    (¬ ∀ ws e w', FailsAt Libs.plain oneRow oneRowSealed ws e w' .afterBloom →
      Intact Libs.plain oneRowEngine oneRow.store oneRowSealed w') ∧
    (∃ ws e w', FailsAt Libs.plain oneRow oneRowSealed ws e w' .beforeBloom ∧
      Intact Libs.plain oneRowEngine oneRow.store oneRowSealed w') ∧
    ∃ w, (w.db.view.get (idxKey 0 256 oneRow.blockID)).isSome ∧
      ∃ ws e w', FailsAt Libs.plain oneRow w ws e w' .afterBloom ∧
        Intact Libs.plain oneRowEngine oneRow.store w w' := by
  have hpayloads : ∀ e ∈ oneRow.memtable.rows, e.payload.length < 2 ^ 32 := by decide +kernel
  have hiff := fun w hhistory => (failed_seal_intact_iff Libs.plain oneRowEngine oneRow w rfl hhistory
    hpayloads bloom_fits_oneRow askable_oneRow).1
  have hsealed : SealHistory Libs.plain oneRow.store oneRowSealed :=
    history_empty.sealed rfl hpayloads (runs_tidyExec _ _)
  refine ⟨?_, ?_, ?_⟩
  · rw [hiff oneRowSealed hsealed]
    rintro (hblk | hp | hnot)
    · exact absurd hblk (by decide +kernel)
    · cases hp
    · exact hnot createsBloom_oneRow
  · -- the directory of the temporary file cannot be made
    have hfails : FailsAt Libs.plain oneRow oneRowSealed [oneRowSealed] .io oneRowSealed
        .beforeBloom := by
      have hdir : Runs semTidy (osMkdirAll oneRow.tmpDir).run oneRowSealed [oneRowSealed]
          (.error .io) oneRowSealed := by
        refine runs_call.mpr ⟨Or.inr ⟨⟨rfl, rfl⟩, fun p hp => ?_⟩, rfl⟩
        cases hp
      exact runs_bindE.mpr (Or.inl ⟨.io, rfl, runs_bindE.mpr (Or.inl ⟨.io, rfl, hdir⟩)⟩)
    exact ⟨_, _, _, hfails, (hiff oneRowSealed hsealed _).mpr (Or.inr (Or.inl rfl)) _ _ _ hfails⟩
  · obtain ⟨ws, e, w, hfirst, hprepared⟩ :=
      exists_uncommitted createsBloom_oneRow bloom_fits_oneRow ⟨Pebble.empty, fun _ => none, 0⟩
    have hrun := (runs_error_iff Libs.plain oneRow).mpr ⟨_, hfirst⟩
    have hblk : w.db.view.get (blockKey oneRow.blockID) = none :=
      keys_of_error (runs_of_tidy hrun) _ (by rw [family_blockKey]; decide)
    obtain ⟨ws', e', w', hsecond, -⟩ := exists_hidden createsBloom_oneRow bloom_fits_oneRow w
    refine ⟨w, ?_, ws', e', w', hsecond, ?_⟩
    · rw [hprepared.view, if_pos ⟨256, by decide +kernel, rfl⟩]
      rfl
    · exact (hiff w (history_empty.sealed rfl hpayloads hrun) _).mpr (Or.inl hblk) _ _ _ hsecond

/-- A disk on which one file cannot be written. -/
def execFailing (p : Path) : (o : Op) → World → o.Res × World
  | .write q data, w => if q = p then (.error .io, w) else Op.exec (.write q data) w
  | o, w => o.exec w

theorem sem_execFailing (p : Path) (o : Op) (w : World) :
    sem o w (execFailing p o w).1 (execFailing p o w).2 := by
  cases o with
  | write q data =>
      rw [execFailing]
      split_ifs
      · exact Or.inr ⟨rfl, Or.inl rfl⟩
      · exact Or.inl rfl
  | _ => exact Or.inl rfl

/-- `Seal` of `oneRow` while its bloom file cannot be written. -/
def sealFails (w : World) : Except Err BlockID × World :=
  exec (S := machine) (execFailing oneRow.bloomPath) (sealBlock Libs.plain oneRow).run w

theorem runs_sealFails (w : World) (h : ((sealFails w).1 matches .error _) = true) :
    ∃ ws e, Runs sem (sealBlock Libs.plain oneRow).run w ws (.error e) (sealFails w).2 := by
  have hrun := Prog.runs_exec (sem_execFailing oneRow.bloomPath) (sealBlock Libs.plain oneRow).run w
  cases hres : (sealFails w).1 with
  | ok id =>
      rw [hres] at h
      cases h
  | error e =>
      have hres' : (exec (S := machine) (execFailing oneRow.bloomPath)
        (sealBlock Libs.plain oneRow).run w).1 = .error e := hres
      rw [hres'] at hrun
      exact ⟨_, e, hrun⟩

set_option maxRecDepth 100000 in
/-- **A failed second `Seal` hides the block**: its clean-up removes the bloom
file that the first one wrote, and a query returns nothing of the block. -/
theorem failed_reseal_hides_block :
    Filled Libs.plain oneRowEngine oneRow.store [oneRow] oneRowSealed
      (newBloomCache oneRow.store 0) ∧
    (∃ ws e, Runs sem (sealBlock Libs.plain oneRow).run oneRowSealed ws (.error e)
      (sealFails oneRowSealed).2) ∧
    ((query Libs.plain oneRowEngine (newBloomCache oneRow.store 0) oneRowQuery).exec
      oneRowSealed).1.1 = .ok [⟨256, 1, [1]⟩] ∧
    ((query Libs.plain oneRowEngine (newBloomCache oneRow.store 0) oneRowQuery).exec
      (sealFails oneRowSealed).2).1.1 = .ok [] := by
  refine ⟨filled_oneRow 0, runs_sealFails oneRowSealed (by decide +kernel), ?_, ?_⟩
  · decide +kernel
  · decide +kernel

end Bbdb.Query
