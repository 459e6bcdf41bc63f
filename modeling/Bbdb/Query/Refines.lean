import Bbdb.Block.CrashSafety
import Bbdb.Query.Visible

/-!
# Query — refinement of the event multiset

What the blocks of a store hold is, to its users, a multiset of events.
`Filled` are the states that successful seals of different blocks and any
queries between them reach. In each of them a query returns exactly the
wanted rows of the sealed memtables (`query_refines_events`).
-/

namespace Bbdb.Query

open Bbdb.Block Bbdb.Meta Bbdb.Tier Bbdb.Index GoTime
open Prog hiding pure bind

/-- The states of a store and its bloom cache after some successful `Seal`
calls, for different block ids, and queries, which may have failed. -/
inductive Filled (libs : Libs) (eng : Engine) (st : LocalStore) :
    List SealRequest → World → BloomCache libs → Prop
  | start {w : World} {maxMem : Int64} (hempty : ∀ k, w.db.view.get k = none) :
      Filled libs eng st [] w (newBloomCache st maxMem)
  | sealed {A : List SealRequest} {w w' : World} {c : BloomCache libs} {r : SealRequest}
      {ws : List World} {id : BlockID} (h : Filled libs eng st A w c) (hstore : r.store = st)
      (hnew : r.blockID ∉ A.map SealRequest.blockID)
      (hpayloads : ∀ e ∈ r.memtable.rows, e.payload.length < 2 ^ 32)
      (hrun : Runs sem (sealBlock libs r).run w ws (.ok id) w') :
      Filled libs eng st (A ++ [r]) w' c
  | queried {A : List SealRequest} {w w' : World} {c c' : BloomCache libs} {req : QueryRequest}
      {ws : List World} {res : Except Err (List Event)} (h : Filled libs eng st A w c)
      (hrun : Runs sem (query libs eng c req) w ws (res, c') w') :
      Filled libs eng st A w' c'

variable {libs : Libs} {eng : Engine} {st : LocalStore} {A : List SealRequest} {w w' : World}
  {c : BloomCache libs}

/-- What is so in each of these states. -/
structure FilledOK (libs : Libs) (st : LocalStore) (A : List SealRequest) (w : World)
    (c : BloomCache libs) : Prop where
  catalog : Catalog st A
  present : ∀ r ∈ A, Present libs w r
  index : ∀ et kh id, (w.db.view.get (idxKey et kh id)).isSome →
    ∃ r ∈ A, r.blockID = id ∧ r.eventType = et
  sound : Scene.Sound A st c
  /-- Only filters of sealed blocks are cached. -/
  cached : ∀ id elem, c.items.get id = some elem → ∃ r ∈ A, r.blockID = id
  agrees : BloomCache.Agrees w c

/-- No block yet. -/
theorem filledOK_nil {maxMem : Int64} (hidx : ∀ et kh id, w.db.view.get (idxKey et kh id) = none) :
    FilledOK libs st [] w (newBloomCache st maxMem) where
  catalog := ⟨List.nodup_nil, by simp, by simp⟩
  present := by simp
  index et kh id h := by simp [hidx] at h
  sound := ⟨rfl, by simp⟩
  cached id elem h := by cases h
  agrees := BloomCache.agrees_new w st maxMem

theorem filledOK_start {maxMem : Int64} (hempty : ∀ k, w.db.view.get k = none) :
    FilledOK libs st [] w (newBloomCache st maxMem) :=
  filledOK_nil fun _ _ _ => hempty _

/-- A change to a block of which no filter is cached. -/
theorem agrees_beside {id : BlockID} (h : Beside id w w') (hc : c.items.get id = none)
    (ha : BloomCache.Agrees w c) : BloomCache.Agrees w' c := by
  intro x elem hx
  have hne : x ≠ id := by
    rintro rfl
    rw [hc] at hx
    cases hx
  obtain ⟨data, hdata, hf⟩ := ha x elem hx
  exact ⟨data, by rw [h.bloom _ _ hne, hdata], hf⟩

theorem FilledOK.sealed {r : SealRequest} {ws : List World} {id : BlockID}
    (h : FilledOK libs st A w c) (hstore : r.store = st)
    (hnew : r.blockID ∉ A.map SealRequest.blockID)
    (hpayloads : ∀ e ∈ r.memtable.rows, e.payload.length < 2 ^ 32)
    (hrun : Runs sem (sealBlock libs r).run w ws (.ok id) w') :
    FilledOK libs st (A ++ [r]) w' c := by
  have hbeside := beside_of_runs hrun
  have hne : ∀ r' ∈ A, r'.blockID ≠ r.blockID := by
    intro r' hr' he
    exact hnew (he ▸ List.mem_map_of_mem hr')
  -- no filter of the new block is cached
  have hnone : c.items.get r.blockID = none := by
    by_contra hsome
    obtain ⟨elem, hi⟩ := Option.ne_none_iff_exists'.mp hsome
    obtain ⟨r', hr', he⟩ := h.cached _ elem hi
    exact hne r' hr' he
  have hpresent : ∀ r' ∈ A ++ [r], Present libs w' r' :=
    List.forall_mem_append.mpr ⟨fun r' hr' => hbeside.present (hne r' hr') (h.present r' hr'),
      List.forall_mem_singleton.mpr (present_of_runs hrun)⟩
  refine ⟨h.catalog.append hstore hnew hpayloads, hpresent, fun et kh id' hk => ?_,
    ⟨h.sound.store, List.forall_mem_append.mpr ⟨h.sound.finds, List.forall_mem_singleton.mpr ?_⟩⟩,
    fun id' elem hi => ?_, agrees_beside hbeside hnone h.agrees⟩
  · -- an index key of the new block, or of an earlier one
    by_cases hid : id' = r.blockID
    · refine ⟨r, List.mem_append_right _ (List.mem_singleton_self r), hid.symm, ?_⟩
      by_contra het
      rw [hid, idx_of_runs hrun (Ne.symm het)] at hk
      obtain ⟨r', hr', he, -⟩ := h.index et kh _ hk
      exact hne r' hr' he
    · rw [hbeside.idx et kh id' hid] at hk
      obtain ⟨r', hr', he⟩ := h.index et kh id' hk
      exact ⟨r', List.mem_append_left _ hr', he⟩
  · intro elem hi
    rw [hnone] at hi
    cases hi
  · obtain ⟨r', hr', he⟩ := h.cached id' elem hi
    exact ⟨r', List.mem_append_left _ hr', he⟩

theorem FilledOK.queried {c' : BloomCache libs} {req : QueryRequest} {ws : List World}
    {res : Except Err (List Event)} (h : FilledOK libs st A w c)
    (hrun : Runs sem (query libs eng c req) w ws (res, c') w') : FilledOK libs st A w' c' := by
  obtain ⟨rfl, hloads⟩ := runs_query hrun
  have hnamed : ∀ id ∈ candidatesIn w' req (keyHashFor libs req.partitionKey),
      ∃ r ∈ A, r.blockID = id := by
    intro id hid
    obtain ⟨et, -, hfound⟩ := mem_candidatesIn.mp hid
    obtain ⟨r, hr, he, -⟩ := h.index et _ id (mem_foundBlocks.mp hfound).1
    exact ⟨r, hr, he⟩
  refine ⟨h.catalog, h.present, h.index, ⟨hloads.store.trans h.sound.store, ?_⟩, ?_,
    hloads.agrees h.agrees⟩
  · intro r hr elem hi
    rcases hloads.items _ elem hi with hold | ⟨-, data, hdata, hf⟩
    · exact h.sound.finds r hr elem hold
    · -- a filter that was loaded just now
      rw [h.sound.store, ← h.catalog.store r hr] at hdata
      obtain ⟨f, hf', htest⟩ := Scene.filter_of_hasBloom (h.present r hr).bloom hdata
      rw [hf] at hf'
      cases hf'
      exact htest
  · intro id elem hi
    rcases hloads.items id elem hi with hold | ⟨hid, -⟩
    · exact h.cached id elem hold
    · exact hnamed id hid

theorem Filled.ok (h : Filled libs eng st A w c) : FilledOK libs st A w c := by
  induction h with
  | start hempty => exact filledOK_start hempty
  | sealed _ hstore hnew hpayloads hrun ih => exact ih.sealed hstore hnew hpayloads hrun
  | queried _ hrun ih => exact ih.queried hrun

/-- Alone, a query relies on a world that does not change. -/
theorem FilledOK.scene (h : FilledOK libs st A w c) :
    Scene libs st A A semExec Eq (· = w) where
  catalog := h.catalog
  sub := fun _ hr => hr
  exec he := he
  rely := ⟨fun _ => rfl, Eq.trans⟩
  keep hw hR := hR ▸ hw
  index hw hk := h.index _ _ _ (hw ▸ hk)
  present hw r hr := hw ▸ h.present r hr
  bloom hw hR r hr _ := Or.inl (hR ▸ hw ▸ (h.present r hr).bloom)
  blk hw r hr := Or.inl (hw ▸ (h.present r hr).blk)
  read hw hR r hr _ _ _ _ := hR ▸ hw ▸ (h.present r hr).file

/-- With all of `A` in place, all of it is visible. -/
theorem FilledOK.query_all (h : FilledOK libs st A w c) (htier : eng.tiers tierHot = some st)
    {req : QueryRequest} (hreq : Proper req) :
    ∃ out c', (query libs eng c req).exec w = ((.ok out, c'), w) ∧
      out.Perm (A.flatMap (wanted libs req)) ∧
      out.Pairwise fun a b => a.timestamp ≤ b.timestamp := by
  have hfollows := h.scene.follows_query htier h.sound rfl hreq
  obtain ⟨-, out, V, hout, hV, hAV, -, hperm, hord⟩ :=
    hfollows.runs h.scene.rely (runs_semExec (query libs eng c req) w)
  have hlen : A.length ≤ V.length :=
    (List.subperm_of_subset h.catalog.ids.of_map hAV).length_le
  obtain rfl : V = A := hV.eq_of_length_le hlen
  refine ⟨out, ((query libs eng c req).exec w).1.2, ?_, hperm, hord⟩
  rw [exec_of_calls (calls_query eng c req) w, ← hout]

/-- **A query returns exactly the wanted rows of all sealed memtables**, each
as often as it was sealed, in the order of their timestamps. -/
theorem query_refines_events (libs : Libs) (eng : Engine) (st : LocalStore)
    (htier : eng.tiers tierHot = some st) (A : List SealRequest) (w : World) (c : BloomCache libs)
    (h : Filled libs eng st A w c) (req : QueryRequest) (hreq : Proper req) :
    ∃ out c', (query libs eng c req).exec w = ((.ok out, c'), w) ∧
      out.Perm (A.flatMap (wanted libs req)) ∧
      out.Pairwise fun a b => a.timestamp ≤ b.timestamp :=
  h.ok.query_all htier hreq

/-- An engine with the store of `oneRow` as its hot tier. -/
def oneRowEngine : Engine where
  tiers tier := if tier = tierHot then some oneRow.store else none
  readOrder := List.range
  readOrder_perm n := List.Perm.refl (List.range n)

/-- A query for the key of `oneRow`. -/
def oneRowQuery : QueryRequest := ⟨[1, 0], some 0, 0, 2⟩

theorem proper_oneRowQuery : Proper oneRowQuery := ⟨by decide, by decide, by decide, by decide⟩

/-- A query for the rows of `oneRow` and `nextRow`. -/
def twoRowsQuery : QueryRequest := ⟨[1, 0], some 0, 0, 2 * hour⟩

theorem proper_twoRowsQuery : Proper twoRowsQuery := ⟨by decide, by decide, by decide, by decide⟩

/-- The two rows, in the order of their timestamps. -/
def bothRows : List Event := [⟨256, 1, [1]⟩, ⟨256, Int64.ofInt hour, [2]⟩]

theorem filled_oneRow {eng : Engine} (maxMem : Int64) :
    Filled Libs.plain eng oneRow.store [oneRow] oneRowSealed
      (newBloomCache oneRow.store maxMem) := by
  obtain ⟨ws, hrun⟩ := runs_oneRowSealed
  exact (Filled.start fun _ => rfl).sealed rfl (by simp) (by decide +kernel) hrun

theorem query_refines_events_oneRow : ∃ c',
    (query Libs.plain oneRowEngine (newBloomCache oneRow.store 0) oneRowQuery).exec oneRowSealed =
      ((.ok [⟨256, 1, [1]⟩], c'), oneRowSealed) := by
  obtain ⟨out, c', hexec, hperm, -⟩ := query_refines_events Libs.plain oneRowEngine oneRow.store
    rfl [oneRow] oneRowSealed (newBloomCache oneRow.store 0) (filled_oneRow 0) oneRowQuery
    proper_oneRowQuery
  have hwanted : [oneRow].flatMap (wanted Libs.plain oneRowQuery) = [⟨256, 1, [1]⟩] := by
    decide +kernel
  rw [hwanted, List.perm_singleton] at hperm
  rw [hperm] at hexec
  exact ⟨c', hexec⟩

end Bbdb.Query
