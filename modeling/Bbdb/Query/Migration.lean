import Bbdb.Query.Intact
import Mathlib.Data.List.Flatten

/-!
# Query — after a migration

`Migrate` copies the block file to another tier and deletes the block, with
its bloom file, from this one. The bloom cache loads filters from the hot
store alone, so a migrated block has no filter any more and every query skips
it (`silent_of_migrated`).

A query returns what it returned before exactly if the block has no wanted
row (`migration_preserves_iff`).
-/

namespace Bbdb.Query

open Bbdb.Block Bbdb.Meta Bbdb.Tier Bbdb.Index GoTime
open Prog hiding pure bind

variable {libs : Libs} {eng : Engine} {st dst : LocalStore} {A : List SealRequest}
  {w w' : World} {c : BloomCache libs} {req : QueryRequest} {r : SealRequest}

/-! ## A block that adds nothing -/

/-- A block without wanted rows adds nothing to the answer. -/
theorem FilledOK.silent (h : FilledOK libs st A w c) (htier : eng.tiers tierHot = some st)
    (hreq : Proper req) (hr : r ∈ A) (hnil : wanted libs req r = []) :
    Silent libs eng st w req (keyHashFor libs req.partitionKey) r.blockID := by
  intro hmem
  obtain ⟨hbloom, ⟨hfile, hsize⟩, hblk, -⟩ := h.present r hr
  obtain ⟨data, hser, hdata⟩ := hbloom
  obtain ⟨f, hf, -⟩ := libs.readFrom_writeTo _ _ hser
  have hst := h.catalog.store r hr
  rw [SealRequest.bloomPath, hst] at hdata
  rw [SealRequest.blockPath, hst] at hfile
  have htest : BloomCache.testFile libs w st r.blockID (keyHashFor libs req.partitionKey) =
      .ok (testHash libs f (keyHashFor libs req.partitionKey)) :=
    BloomCache.InFile.testFile ⟨data, hdata, hf⟩
  rw [taskIn, htest, result_getBlockMeta, hblk]
  cases testHash libs f (keyHashFor libs req.partitionKey) with
  | false => exact ⟨none, rfl, fun t ht => by cases ht⟩
  | true =>
      simp only [decodeBlockMeta_encodeBlockMeta, show (r.blockMeta libs).tier = tierHot from rfl,
        htier]
      refine ⟨some ⟨r.blockID, st⟩, rfl, fun t ht => ?_⟩
      cases ht
      -- the candidate is in scope, so its rows are the wanted ones
      obtain ⟨et, het, hfound⟩ := mem_candidatesIn.mp hmem
      obtain ⟨hkey, hov⟩ := mem_foundBlocks.mp hfound
      obtain ⟨r', hr', hid, rfl⟩ := h.index _ _ _ hkey
      obtain rfl := h.catalog.eq_of_id hr' hr hid
      have hscope : InScope req r' := inScope_iff.mpr ⟨mem_typesOf.mpr het, hov⟩
      have hrows : (rowsOf libs (keyHashFor libs req.partitionKey) req.from_ req.to_ r').Perm
          (wanted libs req r') := perm_rowsOf hreq hscope
      rw [hnil, List.perm_nil] at hrows
      simp only [rowsIn, result_readBlock, hfile]
      rw [readRows_file hsize (h.catalog.payloads r' hr), hrows]

/-- A block without bloom file is skipped. -/
theorem silent_of_migrated {kh : UInt64} {id : BlockID} (hbloom : w.fs (st.bloomPath id) = none) :
    Silent libs eng st w req kh id := by
  refine silent_of_skipped fun _ => ?_
  rw [taskIn, BloomCache.testFile, hbloom]

/-! ## The other blocks -/

theorem beside_deleteOps (w : World) (hour : UInt64) (id : BlockID) :
    Beside id w (w.commit (deleteOps hour id) true) := by
  refine ⟨fun _ _ _ => rfl, fun _ _ _ => rfl, fun id' hid => ?_, fun et kh id' _ => ?_⟩
  · rw [World.commit_db, Pebble.view_commit, get_deleteOps, if_neg]
    rintro (he | he)
    · exact blockKey_ne_expiryKey he
    · exact hid (blockKey_inj.mp he)
  · rw [World.commit_db, Pebble.view_commit, get_deleteOps_idxKey]

/-- Without its keys, a query returns the rows of all blocks but `r`. -/
theorem FilledOK.answer_without (h : FilledOK libs st A w c) (htier : eng.tiers tierHot = some st)
    (hreq : Proper req) :
    ∃ (out : List Event) (V : List SealRequest),
      answer libs eng st (w.commit (deleteOps 0 r.blockID) true) req = .ok out ∧ V.Sublist A ∧
      r ∉ V ∧ out.Perm (V.flatMap (wanted libs req)) := by
  let x := w.commit (deleteOps 0 r.blockID) true
  have hbeside : Beside r.blockID w x := beside_deleteOps w 0 r.blockID
  have hblk : x.db.view.get (blockKey r.blockID) = none := by
    rw [World.commit_db, Pebble.view_commit, get_deleteOps, if_pos (Or.inr rfl)]
  have hidx : ∀ et kh id, x.db.view.get (idxKey et kh id) = w.db.view.get (idxKey et kh id) := by
    intro et kh id
    rw [World.commit_db, Pebble.view_commit, get_deleteOps_idxKey]
  have hother : ∀ r' ∈ A, r'.blockID ≠ r.blockID → Present libs x r' :=
    fun r' hr' hne => hbeside.present hne (h.present r' hr')
  have sc : Scene libs st A (A.filter fun r' => r'.blockID ≠ r.blockID) semExec Eq (· = x) := by
    refine ⟨h.catalog, fun r' hr' => (List.mem_filter.mp hr').1, fun he => he,
      ⟨fun _ => rfl, Eq.trans⟩, fun hw hR => hR ▸ hw, fun {y et kh id} hy hk => ?_,
      fun {y} hy r' hr' => ?_, fun {y z} hy hR r' hr' _ => Or.inl ?_, fun {y} hy r' hr' => ?_,
      fun {y z} hy hR r' hr' hm res _ _ => ?_⟩
    · rw [hy, hidx] at hk
      exact h.index et kh id hk
    · obtain ⟨hmem, hne⟩ := List.mem_filter.mp hr'
      exact hy ▸ hother r' hmem (of_decide_eq_true hne)
    · rw [← hR, hy]
      exact (h.present r' hr').bloom
    · by_cases hne : r'.blockID = r.blockID
      · exact Or.inr (by rw [hy, hne, hblk])
      · exact Or.inl (hy ▸ (hother r' hr' hne).blk)
    · rw [← hR, hy]
      exact (h.present r' hr').file
  have hsound : Scene.Sound (A.filter fun r' => r'.blockID ≠ r.blockID) st
      (newBloomCache st 0 : BloomCache libs) := ⟨rfl, fun _ _ _ hi => by cases hi⟩
  have hfollows := sc.follows_query htier hsound rfl hreq
  obtain ⟨-, out, V, hout, hV, -, hseen, hperm, -⟩ :=
    hfollows.runs sc.rely (runs_semExec (query libs eng (newBloomCache st 0) req) x)
  rw [exec_query (BloomCache.agrees_new x st 0)] at hout
  refine ⟨out, V, hout, hV, fun hrV => ?_, hperm⟩
  rcases hseen r hrV with hmem | ⟨y, rfl, -, hm⟩
  · exact of_decide_eq_true (List.mem_filter.mp hmem).2 rfl
  · rw [HasMeta, hblk] at hm
    cases hm

/-! ## The migrated block -/

/-- A migration concerns its block alone. -/
theorem beside_of_migrated {tempDir : Path} {random : Bytes} {ws : List World} {u : Unit}
    (h : Runs sem (st.migrate dst r.blockID (migratePath tempDir random)).run w ws (.ok u) w') :
    Beside r.blockID w w' := by
  obtain ⟨hdb, -, hfs⟩ := runs_migrate_ok h
  have hid : ∀ {s s' : LocalStore} {id : BlockID}, id ≠ r.blockID →
      s.blockPath id ≠ s'.blockPath r.blockID ∧ s.bloomPath id ≠ s'.bloomPath r.blockID := by
    intro s s' id hne
    exact ⟨fun he => hne (blockPath_inj (isBlockID_blockID r) he.symm).symm,
      fun he => hne (bloomPath_inj (isBlockID_blockID r) he.symm).symm⟩
  refine ⟨fun s id hne => hfs _ ?_, fun s id hne => hfs _ ?_, fun _ _ => by rw [hdb],
    fun _ _ _ _ => by rw [hdb]⟩
  · simp only [migrateFiles, List.mem_cons, List.not_mem_nil, or_false, not_or]
    exact ⟨(migratePath_ne_blockPath _ _ _ _).symm, (hid hne).1, (hid hne).1,
      blockPath_ne_bloomPath _ _ _ _⟩
  · simp only [migrateFiles, List.mem_cons, List.not_mem_nil, or_false, not_or]
    exact ⟨(migratePath_ne_bloomPath _ _ _ _).symm, (blockPath_ne_bloomPath _ _ _ _).symm,
      (blockPath_ne_bloomPath _ _ _ _).symm, (hid hne).2⟩

theorem beside_putBlockMeta {ws : List World} {id : BlockID} {m : BlockMeta} {u : Unit}
    (h : Runs sem (putBlockMeta id m).run w ws (.ok u) w') : Beside id w w' ∧ w'.fs = w.fs := by
  obtain rfl := runs_batchCommit_ok h
  have hget : ∀ k, k ≠ blockKey id →
      (w.commit [.set (blockKey id) (encodeBlockMeta m)] true).db.view.get k = w.db.view.get k := by
    intro k hk
    rw [World.commit_db, Pebble.view_commit, Batch.apply, List.foldl_cons, List.foldl_nil,
      BatchOp.apply, OrdMap.get_set, if_neg hk]
  refine ⟨⟨fun _ _ _ => rfl, fun _ _ _ => rfl, fun id' hne => hget _ ?_, fun _ _ _ _ => hget _ ?_⟩,
    rfl⟩
  · exact fun he => hne (blockKey_inj.mp he)
  · exact fun he => idxKey_ne_blockKey he

/-- The rows of some blocks and of one more are no more than those of all. -/
theorem length_wanted_le (libs : Libs) (req : QueryRequest) {V : List SealRequest} (hA : A.Nodup)
    (hV : V.Sublist A) (hr : r ∈ A) (hrV : r ∉ V) :
    (V.flatMap (wanted libs req)).length + (wanted libs req r).length ≤
      (A.flatMap (wanted libs req)).length := by
  have hsub : (r :: V).Subperm A := by
    refine List.subperm_of_subset (List.nodup_cons.mpr ⟨hrV, hA.sublist hV⟩) ?_
    exact List.cons_subset.mpr ⟨hr, hV.subset⟩
  obtain ⟨l, hperm, hl⟩ := hsub
  have hle := (hl.flatMap (wanted libs req)).length_le
  rw [(hperm.flatMap_right (wanted libs req)).length_eq, List.flatMap_cons,
    List.length_append] at hle
  omega

/-- **A migration preserves the results of a query exactly if no row of the
block is wanted**; one whose copy or put fails leaves the block's files as
they were. -/
theorem migration_preserves_iff (libs : Libs) (eng : Engine) (st dst : LocalStore)
    (htier : eng.tiers tierHot = some st) (A : List SealRequest) (w : World) (c : BloomCache libs)
    (h : Filled libs eng st A w c) (r : SealRequest) (hr : r ∈ A)
    (hc : c.items.get r.blockID = none) (tempDir : Path) (random : Bytes) :
    (∀ ws w₁ ws' w₂, Runs sem (st.migrate dst r.blockID (migratePath tempDir random)).run w ws
        (.ok ()) w₁ →
      Runs sem (putBlockMeta r.blockID { r.blockMeta libs with tier := dst.tier }).run w₁ ws'
        (.ok ()) w₂ →
      ∀ req, Proper req →
        (((query libs eng c req).exec w₂).1.1 = ((query libs eng c req).exec w).1.1 ↔
          wanted libs req r = [])) ∧
    ∀ ws e w', Runs sem (st.migrate dst r.blockID (migratePath tempDir random)).run w ws
        (.error e) w' →
      (∃ e', e = .wrap "migrate copy" e' ∨ e = .wrap "migrate put" e') →
      w'.fs r.blockPath = w.fs r.blockPath ∧ w'.fs r.bloomPath = w.fs r.bloomPath := by
  have hok := h.ok
  constructor
  · intro ws w₁ ws' w₂ hmig hput req hreq
    obtain ⟨hput, hfs⟩ := beside_putBlockMeta hput
    have hbeside : Beside r.blockID w w₂ := (beside_of_migrated hmig).trans hput
    have hgone : w₂.fs (st.bloomPath r.blockID) = none := by
      rw [hfs]
      exact (runs_migrate_ok hmig).2.1
    have hafter : Silent libs eng st w₂ req (keyHashFor libs req.partitionKey) r.blockID :=
      silent_of_migrated hgone
    rw [exec_query (agrees_beside hbeside hc hok.agrees), exec_query hok.agrees, hok.sound.store]
    constructor
    · -- the answer after has the rows of fewer blocks
      intro heq
      obtain ⟨out, c', hout, hperm, -⟩ := hok.query_all htier hreq
      obtain ⟨out', V, hout', hV, hrV, hperm'⟩ := hok.answer_without htier hreq (r := r)
      have hx : Silent libs eng st (w.commit (deleteOps 0 r.blockID) true) req
          (keyHashFor libs req.partitionKey) r.blockID := by
        rw [← hok.catalog.store r hr]
        refine silent_of_hasBloom (hok.present r hr).bloom ?_
        rw [World.commit_db, Pebble.view_commit, get_deleteOps, if_pos (Or.inr rfl)]
      have hsame := answer_beside
        ((beside_deleteOps w 0 r.blockID).symm.trans hbeside) hx hafter
      have hbefore : answer libs eng st w req = .ok out := by
        rw [← hok.sound.store, ← exec_query hok.agrees, hout]
      rw [hsame, hout', hbefore, Except.ok.injEq] at heq
      have hle := length_wanted_le libs req hok.catalog.ids.of_map hV hr hrV
      rw [← hperm.length_eq, ← hperm'.length_eq, heq] at hle
      exact List.length_eq_zero_iff.mp (by omega)
    · intro hnil
      exact answer_beside hbeside (hok.silent htier hreq hr hnil) hafter
  · intro ws e w' hrun he
    have hfs := runs_migrate_error hrun he
    exact ⟨hfs _ (migratePath_ne_blockPath _ _ _ _).symm,
      hfs _ (migratePath_ne_bloomPath _ _ _ _).symm⟩

/-! ## One migration -/

/-- Another directory, as the warm tier. -/
def warmStore : LocalStore := ⟨[ascii "warm"], tierWarm⟩

/-- An engine with two tiers. -/
def twoTierEngine : Engine :=
  { oneRowEngine with
    tiers := fun tier => if tier = tierHot then some oneRow.store else
      if tier = tierWarm then some warmStore else none }

/-- The block of `oneRow` is moved to the warm tier, and its metadata says so. -/
def oneRowMoved : World :=
  ((putBlockMeta oneRow.blockID { oneRow.blockMeta Libs.plain with tier := tierWarm }).run.exec
    ((oneRow.store.migrate warmStore oneRow.blockID (migratePath [] [])).run.exec
      oneRowSealed).2).2

set_option maxRecDepth 100000 in
theorem runs_oneRowMoved : ∃ ws w₁ ws',
    Runs sem (oneRow.store.migrate warmStore oneRow.blockID (migratePath [] [])).run oneRowSealed
      ws (.ok ()) w₁ ∧
    Runs sem (putBlockMeta oneRow.blockID
      { oneRow.blockMeta Libs.plain with tier := warmStore.tier }).run w₁ ws' (.ok ())
      oneRowMoved := by
  have hok : ((oneRow.store.migrate warmStore oneRow.blockID (migratePath [] [])).run.exec
      oneRowSealed).1 = .ok () := by decide +kernel
  have hrun := runs_procExec (oneRow.store.migrate warmStore oneRow.blockID
    (migratePath [] [])).run oneRowSealed
  rw [hok] at hrun
  exact ⟨_, _, _, hrun, runs_procExec (putBlockMeta oneRow.blockID
    { oneRow.blockMeta Libs.plain with tier := tierWarm }).run _⟩

set_option maxRecDepth 100000 in
/-- A query for a later interval does not see the migration. -/
theorem migration_preserves_iff_oneRow :
    ((query Libs.plain twoTierEngine (newBloomCache oneRow.store 0) ⟨[1, 0], some 0, 2, 3⟩).exec
      oneRowMoved).1.1 =
    ((query Libs.plain twoTierEngine (newBloomCache oneRow.store 0) ⟨[1, 0], some 0, 2, 3⟩).exec
      oneRowSealed).1.1 := by
  obtain ⟨ws, w₁, ws', hmig, hput⟩ := runs_oneRowMoved
  refine ((migration_preserves_iff Libs.plain twoTierEngine oneRow.store warmStore rfl [oneRow]
    oneRowSealed (newBloomCache oneRow.store 0) (filled_oneRow 0) oneRow (List.mem_singleton_self _)
    rfl [] []).1 ws w₁ ws' _ hmig hput _ ⟨by decide, by decide, by decide, by decide⟩).mpr ?_
  decide +kernel

set_option maxRecDepth 100000 in
/-- **A migration hides the block**: a query that returned its row returns
nothing afterwards, though the block file is on the warm tier. -/
theorem migration_hides_block :
    Filled Libs.plain twoTierEngine oneRow.store [oneRow] oneRowSealed
      (newBloomCache oneRow.store 0) ∧
    (∃ ws w₁ ws',
      Runs sem (oneRow.store.migrate warmStore oneRow.blockID (migratePath [] [])).run oneRowSealed
        ws (.ok ()) w₁ ∧
      Runs sem (putBlockMeta oneRow.blockID
        { oneRow.blockMeta Libs.plain with tier := warmStore.tier }).run w₁ ws' (.ok ())
        oneRowMoved) ∧
    oneRowMoved.fs (warmStore.blockPath oneRow.blockID) = some (oneRow.file Libs.plain) ∧
    ((query Libs.plain twoTierEngine (newBloomCache oneRow.store 0) oneRowQuery).exec
      oneRowSealed).1.1 = .ok [⟨256, 1, [1]⟩] ∧
    ((query Libs.plain twoTierEngine (newBloomCache oneRow.store 0) oneRowQuery).exec
      oneRowMoved).1.1 = .ok [] := by
  refine ⟨filled_oneRow 0, runs_oneRowMoved, ?_, ?_, ?_⟩
  · decide +kernel
  · decide +kernel
  · decide +kernel

end Bbdb.Query
