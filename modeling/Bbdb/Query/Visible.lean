import Bbdb.Block.Publish
import Bbdb.Lib.Conc
import Bbdb.Query.Engine

/-!
# Query — what a query sees while others work

While a query runs, a `Seal` or a sweep may be at work on the same store. A
`Scene` says what the query can rely on: the index names only blocks of `A`
under their own event type and hashes, a block the index names has a
complete bloom file or none, a block with metadata can be read; the blocks of
`S` are there all the time.

Then the query does not fail, and there is a set `V` of blocks, all of `S`
and some of the others of `A` that have metadata, such that it returns exactly the wanted rows
of `V` (`query_follows`): of a block that comes or goes it returns all wanted
rows or none.
-/

namespace Bbdb.Query

open Bbdb.Block Bbdb.Meta Bbdb.Tier Bbdb.Index GoTime
open Prog hiding pure bind

/-! ## What is asked for -/

/-- The row has the key and lies in the queried interval. -/
def Asked (libs : Libs) (req : QueryRequest) (e : Event) : Prop :=
  e.keyHash = keyHashFor libs req.partitionKey ∧ req.from_ ≤ e.timestamp.toInt ∧
    e.timestamp.toInt < req.to_

instance (libs : Libs) (req : QueryRequest) : DecidablePred (Asked libs req) :=
  fun _ => inferInstanceAs (Decidable (_ ∧ _ ∧ _))

/-- The block has the event type and its hour meets the queried interval. -/
def InScope (req : QueryRequest) (r : SealRequest) : Prop :=
  (req.eventType = none ∨ req.eventType = some r.eventType) ∧
    truncateHour r.openedAt.toInt < req.to_ ∧ req.from_ < truncateHour r.openedAt.toInt + hour

instance (req : QueryRequest) : DecidablePred (InScope req) :=
  fun _ => inferInstanceAs (Decidable (_ ∧ _ ∧ _))

/-- **What a query should return of one block.** -/
def wanted (libs : Libs) (req : QueryRequest) (r : SealRequest) : List Event :=
  if InScope req r then r.memtable.rows.filter (fun e => Asked libs req e) else []

/-- The result of a query has the wanted rows of all blocks of `S` and of
some others of `A` with `P`, each with its multiplicity, by timestamp. -/
def Answers (libs : Libs) (req : QueryRequest) (A S : List SealRequest) (P : SealRequest → Prop)
    (res : Except Err (List Event)) : Prop :=
  ∃ (out : List Event) (V : List SealRequest), res = .ok out ∧ V.Sublist A ∧ (∀ r ∈ S, r ∈ V) ∧
    (∀ r ∈ V, r ∈ S ∨ P r) ∧ out.Perm (V.flatMap (wanted libs req)) ∧
    out.Pairwise fun a b => a.timestamp ≤ b.timestamp

/-- The rows that reading the block returns, in the order of the file. -/
def rowsOf (libs : Libs) (kh : UInt64) (from_ to_ : Time) (r : SealRequest) : List Event :=
  (r.sorted libs).rows.filter (rowMatches kh (Int64.ofInt from_) (Int64.ofInt to_))

/-- Reading a complete file returns these rows. -/
theorem readRows_file {libs : Libs} {r : SealRequest} {kh : UInt64} {from_ to_ : Time}
    (hsize : (r.file libs).length < maxBlockFile)
    (hpayloads : ∀ e ∈ r.memtable.rows, e.payload.length < 2 ^ 32) :
    readRows libs r.blockID (r.file libs) kh (Int64.ofInt from_) (Int64.ofInt to_) =
      .ok (rowsOf libs kh from_ to_ r) := by
  refine readRows_blockFile r.blockID hsize fun p hp => ?_
  rw [← (r.sorted libs).map_rows.2.2] at hp
  obtain ⟨e, he, rfl⟩ := List.mem_map.mp hp
  exact hpayloads e ((r.memtable.perm_rows_sort libs).mem_iff.mp he)

/-- A query that is not rejected, with bounds that fit their type. -/
structure Proper (req : QueryRequest) : Prop where
  key : req.partitionKey ≠ []
  order : req.from_ < req.to_
  lower : -2 ^ 63 ≤ req.from_
  upper : req.to_ < 2 ^ 63

/-- The row test of the reader is the one of the specification. -/
theorem rowMatches_iff {libs : Libs} {req : QueryRequest} (h : Proper req) (e : Event) :
    rowMatches (keyHashFor libs req.partitionKey) (Int64.ofInt req.from_) (Int64.ofInt req.to_) e
      = true ↔ Asked libs req e := by
  exact rowMatches_eq_true ⟨h.lower, h.order.trans h.upper⟩ ⟨h.lower.trans h.order.le, h.upper⟩

/-- The event types a query asks for. -/
def typesOf (req : QueryRequest) : List UInt8 :=
  match req.eventType with
  | some et => [et]
  | none => allTypes

theorem mem_typesOf {req : QueryRequest} {et : UInt8} :
    et ∈ typesOf req ↔ req.eventType = none ∨ req.eventType = some et := by
  unfold typesOf
  cases req.eventType with
  | none => simp [mem_allTypes]
  | some x => simp [eq_comm]

/-! ## What a query can rely on -/

/-- The blocks of a store: their ids differ, and their payloads can be
written. -/
structure Catalog (st : LocalStore) (A : List SealRequest) : Prop where
  ids : (A.map SealRequest.blockID).Nodup
  store : ∀ r ∈ A, r.store = st
  payloads : ∀ r ∈ A, ∀ e ∈ r.memtable.rows, e.payload.length < 2 ^ 32

theorem Catalog.eq_of_id {st : LocalStore} {A : List SealRequest} (h : Catalog st A)
    {r r' : SealRequest} (hr : r ∈ A) (hr' : r' ∈ A) (he : r.blockID = r'.blockID) : r = r' :=
  List.inj_on_of_nodup_map h.ids hr hr' he

/-- One more block, with a new id. -/
theorem Catalog.append {st : LocalStore} {A : List SealRequest} {r : SealRequest}
    (h : Catalog st A) (hstore : r.store = st) (hnew : r.blockID ∉ A.map SealRequest.blockID)
    (hpayloads : ∀ e ∈ r.memtable.rows, e.payload.length < 2 ^ 32) : Catalog st (A ++ [r]) := by
  refine ⟨?_, List.forall_mem_append.mpr ⟨h.store, List.forall_mem_singleton.mpr hstore⟩,
    List.forall_mem_append.mpr ⟨h.payloads, List.forall_mem_singleton.mpr hpayloads⟩⟩
  rw [List.map_append]
  exact List.nodup_append.mpr ⟨h.ids, List.nodup_singleton _, fun a ha b hb he =>
    hnew (List.mem_singleton.mp hb ▸ he ▸ ha)⟩

/-- What a query can rely on. -/
structure Scene (libs : Libs) (st : LocalStore) (A S : List SealRequest)
    (semQ : Sem machine World) (R : World → World → Prop) (Good : World → Prop) : Prop where
  catalog : Catalog st A
  sub : ∀ r ∈ S, r ∈ A
  exec : ∀ {o : Op} {w : World} {r : o.Res} {w' : World}, semQ o w r w' → (r, w') = o.exec w
  rely : Rely R
  keep : ∀ {w w'}, Good w → R w w' → Good w'
  index : ∀ {w et kh id}, Good w → (w.db.view.get (idxKey et kh id)).isSome →
    ∃ r ∈ A, r.blockID = id ∧ r.eventType = et
  present : ∀ {w}, Good w → ∀ r ∈ S, Present libs w r
  bloom : ∀ {w w'}, Good w → R w w' → ∀ r ∈ A, Named w r →
    HasBloom libs w' r ∨ w'.fs r.bloomPath = none
  blk : ∀ {w}, Good w → ∀ r ∈ A, HasMeta libs w r ∨ w.db.view.get (blockKey r.blockID) = none
  read : ∀ {w w'}, Good w → R w w' → ∀ r ∈ A, HasMeta libs w r → ∀ {res w''},
    semQ (.readFile r.blockPath) w' res w'' → HasFile libs w' r

namespace Scene

variable {libs : Libs} {st : LocalStore} {A S : List SealRequest} {semQ : Sem machine World}
  {R : World → World → Prop} {Good : World → Prop} {w w' : World}

/-- At an earlier good world, `P` held. -/
def Earlier (R : World → World → Prop) (Good : World → Prop) (P : World → Prop) (w : World) :
    Prop :=
  ∃ x, Good x ∧ R x w ∧ P x

theorem Earlier.env {P : World → Prop} (sc : Scene libs st A S semQ R Good)
    (h : Earlier R Good P w) (hw : R w w') : Earlier R Good P w' := by
  obtain ⟨x, hx, hxw, hp⟩ := h
  exact ⟨x, hx, sc.rely.trans hxw hw, hp⟩

/-! ## The operations of a query -/

section Ops

variable (sc : Scene libs st A S semQ R Good)

include sc

/-- A query as a whole changes nothing. -/
theorem moves {α : Type} {p : Proc α} {Q : α → World → Prop} (h : Follows semQ R Eq p Q w) :
    Follows semQ R Eq p (fun a x => Q a x ∧ R w x) w :=
  h.moves sc.rely fun he => he ▸ sc.rely.refl _

theorem follows_iter {lo hi : Bytes} {Q : Except Err (List (Bytes × Bytes)) → World → Prop}
    (h : ∀ x, R w x → ∀ y, R x y → Q (.ok (x.db.view.range lo hi)) y) :
    Follows semQ R Eq (dbIter lo hi).run Q w := by
  refine follows_call fun x hx r y hs => ?_
  have he := sc.exec hs
  cases he
  exact ⟨rfl, h x hx⟩

theorem follows_readFile {p : Path} {Q : Except Err Bytes → World → Prop}
    (hnone : ∀ x, R w x → x.fs p = none → (∃ r y, semQ (.readFile p) x r y) →
      ∀ y, R x y → Q (.error .notExist) y)
    (hsome : ∀ x, R w x → ∀ c, x.fs p = some c → ∀ y, R x y → Q (.ok c) y) :
    Follows semQ R Eq (osReadFile p).run Q w := by
  refine follows_call fun x hx r y hs => ?_
  have he := sc.exec hs
  simp only [Op.exec] at he
  cases hfile : x.fs p with
  | none =>
      rw [hfile] at he
      cases he
      exact ⟨rfl, hnone x hx hfile ⟨_, _, hs⟩⟩
  | some c =>
      rw [hfile] at he
      cases he
      exact ⟨rfl, hsome x hx c hfile⟩

theorem follows_get {k : Bytes} {Q : Except Err Bytes → World → Prop}
    (hnone : ∀ x, R w x → x.db.view.get k = none → ∀ y, R x y → Q (.error .pebbleNotFound) y)
    (hsome : ∀ x, R w x → ∀ v, x.db.view.get k = some v → ∀ y, R x y → Q (.ok v) y) :
    Follows semQ R Eq (dbGet k).run Q w := by
  refine follows_call fun x hx r y hs => ?_
  have he := sc.exec hs
  simp only [Op.exec] at he
  cases hval : x.db.view.get k with
  | none =>
      rw [hval] at he
      cases he
      exact ⟨rfl, hnone x hx hval⟩
  | some v =>
      rw [hval] at he
      cases he
      exact ⟨rfl, hsome x hx v hval⟩

/-! ## Lookups -/

end Ops

/-- What a lookup of `et` and `kh` can return: blocks of `A` that the index
named, among them those of `S`. -/
structure Finds (A S : List SealRequest) (R : World → World → Prop) (Good : World → Prop)
    (ets : List UInt8) (kh : UInt64) (from_ to_ : Time) (rs : List SealRequest) (w : World) :
    Prop where
  good : Good w
  nodup : rs.Nodup
  mem : ∀ r ∈ rs, r ∈ A ∧ r.eventType ∈ ets ∧ overlaps from_ to_ r.blockID = true
  named : ∀ r ∈ rs, Earlier R Good (Named · r) w
  all : ∀ r ∈ S, r.eventType ∈ ets → HasHash r kh → overlaps from_ to_ r.blockID = true → r ∈ rs

section Lookups

variable (sc : Scene libs st A S semQ R Good) {kh : UInt64} {from_ to_ : Time}

include sc

theorem Finds.env {ets : List UInt8} {rs : List SealRequest}
    (h : Finds A S R Good ets kh from_ to_ rs w) (hw : R w w') :
    Finds A S R Good ets kh from_ to_ rs w' :=
  ⟨sc.keep h.good hw, h.nodup, h.mem, fun r hr => (h.named r hr).env sc hw, h.all⟩

/-- Ids that the index names come from blocks of `A`. -/
theorem requests_of_ids (hw : Good w) {et : UInt8} {ids : List BlockID}
    (h : ∀ id ∈ ids, (w.db.view.get (idxKey et kh id)).isSome) :
    ∃ rs : List SealRequest, ids = rs.map SealRequest.blockID ∧
      ∀ r ∈ rs, r ∈ A ∧ r.eventType = et ∧ Named w r := by
  induction ids with
  | nil => exact ⟨[], rfl, fun r hr => absurd hr List.not_mem_nil⟩
  | cons id ids ih =>
      obtain ⟨rs, rfl, hrs⟩ := ih fun x hx => h x (List.mem_cons_of_mem _ hx)
      have hid := h id List.mem_cons_self
      obtain ⟨r, hr, rfl, het⟩ := sc.index hw hid
      refine ⟨r :: rs, rfl, fun x hx => ?_⟩
      rcases List.mem_cons.mp hx with rfl | hx
      · exact ⟨hr, het, et, kh, hid⟩
      · exact hrs x hx

theorem follows_lookup (hw : Good w) (et : UInt8) :
    Follows semQ R Eq (lookup et kh from_ to_).run
      (fun res x => ∃ rs, res = .ok (rs.map SealRequest.blockID) ∧
        Finds A S R Good [et] kh from_ to_ rs x) w := by
  refine follows_bindE sc.rely (follows_bindE sc.rely (sc.follows_iter fun x hx y hy => ?_))
  intro z hz v hv
  have hgood := sc.keep hw hx
  -- what was found, at the world of the scan
  have hfound : ∀ id ∈ foundBlocks x et kh from_ to_,
      (x.db.view.get (idxKey et kh id)).isSome := fun id hid => (mem_foundBlocks.mp hid).1
  obtain ⟨rs, hids, hrs⟩ := requests_of_ids sc hgood hfound
  have hxv : R x v := sc.rely.trans hy (sc.rely.trans hz hv)
  refine ⟨rs, congrArg Except.ok hids, ?_⟩
  have hover : ∀ r ∈ rs, overlaps from_ to_ r.blockID = true := by
    intro r hr
    have hmem : r.blockID ∈ foundBlocks x et kh from_ to_ := by
      rw [hids]
      exact List.mem_map_of_mem hr
    exact (mem_foundBlocks.mp hmem).2
  refine ⟨sc.keep hgood hxv, ?_, fun r hr => ?_, fun r hr => ?_, fun r hr het hhash hov => ?_⟩
  · have hnodup := nodup_foundBlocks x et kh from_ to_
    rw [hids] at hnodup
    exact hnodup.of_map
  · obtain ⟨hA, het, -⟩ := hrs r hr
    exact ⟨hA, by rw [het]; exact List.mem_singleton_self et, hover r hr⟩
  · exact ⟨x, hgood, hxv, (hrs r hr).2.2⟩
  · -- a block of `S` has its key in the index
    obtain ⟨e, he, hkh⟩ := hhash
    have hkey := (sc.present hgood r hr).indexed e he
    rw [List.mem_singleton.mp het, hkh] at hkey
    have hmem : r.blockID ∈ foundBlocks x et kh from_ to_ := mem_foundBlocks.mpr ⟨hkey, hov⟩
    rw [hids] at hmem
    obtain ⟨r', hr', he'⟩ := List.mem_map.mp hmem
    rwa [← sc.catalog.eq_of_id (hrs r' hr').1 (sc.sub r hr) he']

/-- One lookup for each of several types. -/
theorem follows_lookupTypes (hw : Good w) {ets : List UInt8} (hets : ets.Nodup) :
    Follows semQ R Eq (lookupTypes kh from_ to_ ets).run
      (fun res x => ∃ rs, res = .ok (rs.map SealRequest.blockID) ∧
        Finds A S R Good ets kh from_ to_ rs x) w := by
  induction ets generalizing w with
  | nil =>
      refine follows_pure fun x hx => ⟨[], rfl, sc.keep hw hx, List.nodup_nil, ?_, ?_, ?_⟩
      · exact fun r hr => absurd hr List.not_mem_nil
      · exact fun r hr => absurd hr List.not_mem_nil
      · exact fun r _ het => absurd het List.not_mem_nil
  | cons et ets ih =>
      obtain ⟨hnot, hnodup⟩ := List.nodup_cons.mp hets
      refine follows_bindE sc.rely ((sc.follows_lookup hw et).mono fun res x h => ?_)
      obtain ⟨rs, rfl, hfirst⟩ := h
      refine follows_bindE sc.rely ((sc.moves (ih hfirst.good hnodup)).mono fun res y h => ?_)
      obtain ⟨⟨rs', rfl, hrest⟩, hxy⟩ := h
      intro z hz
      refine ⟨rs ++ rs', congrArg Except.ok (List.map_append).symm, ?_⟩
      have hfirst := Finds.env sc hfirst (sc.rely.trans hxy hz)
      have hrest := Finds.env sc hrest hz
      refine ⟨hfirst.good, ?_, fun r hr => ?_, fun r hr => ?_, fun r hr het hhash hov => ?_⟩
      · -- the two lookups are for different types
        refine List.nodup_append.mpr ⟨hfirst.nodup, hrest.nodup, fun a ha b hb he => ?_⟩
        subst he
        have h₁ := List.mem_singleton.mp (hfirst.mem a ha).2.1
        exact hnot (h₁ ▸ (hrest.mem a hb).2.1)
      · rcases List.mem_append.mp hr with hr | hr
        · obtain ⟨hA, het, hmem⟩ := hfirst.mem r hr
          exact ⟨hA, List.mem_cons.mpr (Or.inl (List.mem_singleton.mp het)), hmem⟩
        · obtain ⟨hA, het, hmem⟩ := hrest.mem r hr
          exact ⟨hA, List.mem_cons_of_mem _ het, hmem⟩
      · rcases List.mem_append.mp hr with hr | hr
        · exact hfirst.named r hr
        · exact hrest.named r hr
      · rcases List.mem_cons.mp het with rfl | het
        · exact List.mem_append_left _
            (hfirst.all r hr (List.mem_singleton_self _) hhash hov)
        · exact List.mem_append_right _ (hrest.all r hr het hhash hov)

theorem follows_candidates (hw : Good w) (req : QueryRequest) :
    Follows semQ R Eq (candidates req kh).run
      (fun res x => ∃ rs, res = .ok (rs.map SealRequest.blockID) ∧
        Finds A S R Good (typesOf req) kh req.from_ req.to_ rs x) w := by
  unfold candidates typesOf
  cases req.eventType with
  | some et => exact sc.follows_lookup hw et
  | none => exact sc.follows_lookupTypes hw nodup_allTypes

end Lookups

/-! ## Bloom filters and metadata -/

/-- No cached filter of a block of `S` hides one of its rows. -/
structure Sound (S : List SealRequest) (st : LocalStore) (c : BloomCache libs) : Prop where
  store : c.store = st
  finds : ∀ r ∈ S, ∀ elem, c.items.get r.blockID = some elem →
    ∀ e ∈ r.memtable.rows, testHash libs elem.value.filter e.keyHash = true

theorem Sound.shrink {c c' : BloomCache libs} (h : Sound S st c) (hs : BloomCache.Shrinks c c') :
    Sound S st c' :=
  ⟨hs.store.trans h.store, fun r hr elem hi => h.finds r hr elem (hs.items _ _ hi)⟩

/-- The filter of a complete bloom file has every row. -/
theorem filter_of_hasBloom {r : SealRequest} (h : HasBloom libs w r) {data : Bytes}
    (hdata : w.fs r.bloomPath = some data) :
    ∃ f, deserializeBloom libs data = .ok f ∧
      ∀ e ∈ r.memtable.rows, testHash libs f e.keyHash = true := by
  obtain ⟨data', hser, hfile⟩ := h
  rw [hdata, Option.some.injEq] at hfile
  subst hfile
  obtain ⟨f, hf, htest⟩ := libs.readFrom_writeTo _ _ hser
  refine ⟨f, hf, fun e he => ?_⟩
  have he' : e ∈ (r.sorted libs).rows := (r.memtable.perm_rows_sort libs).mem_iff.mpr he
  rw [testHash, htest]
  exact testHash_buildBloom libs ((Memtable.mem_uniqueKeyHashes libs).mpr ⟨e, he', rfl⟩) _

section Blocks

variable (sc : Scene libs st A S semQ R Good) {kh : UInt64} {r : SealRequest}

include sc

/-- Loading a filter finds none, or one with every row. -/
theorem follows_loadFromDisk (hr : r ∈ A) (hnamed : Earlier R Good (Named · r) w) :
    Follows semQ R Eq (BloomCache.loadFromDisk libs st r.blockID).run
      (fun res _ => (r ∉ S ∧ res = .error .notExist) ∨
        ∃ f size, res = .ok (f, size) ∧
          ∀ e ∈ r.memtable.rows, testHash libs f e.keyHash = true) w := by
  have hpath : st.bloomPath r.blockID = r.bloomPath := by
    rw [SealRequest.bloomPath, sc.catalog.store r hr]
  obtain ⟨x₀, hx₀, hx₀w, hn⟩ := hnamed
  refine follows_bindE sc.rely (sc.follows_readFile ?_ ?_)
  · -- no bloom file
    intro x hx hnone _ y hy z hz
    refine Or.inl ⟨fun hS => ?_, rfl⟩
    rw [hpath] at hnone
    obtain ⟨data, -, hdata⟩ := (sc.present (sc.keep hx₀ (sc.rely.trans hx₀w hx)) r hS).bloom
    rw [hnone] at hdata
    cases hdata
  · intro x hx data hdata y hy
    rw [hpath] at hdata
    have hbloom : HasBloom libs x r := by
      rcases sc.bloom hx₀ (sc.rely.trans hx₀w hx) r hr hn with h | h
      · exact h
      · rw [h] at hdata
        cases hdata
    obtain ⟨f, hf, htest⟩ := filter_of_hasBloom hbloom hdata
    refine follows_bindE sc.rely ?_
    rw [hf]
    intro z hz v hv
    exact Or.inr ⟨f, _, rfl, htest⟩

/-- **A bloom test** answers, and says yes for a hash of a block of `S`. -/
theorem follows_test {c : BloomCache libs} (hc : Sound S st c) (hr : r ∈ A)
    (hnamed : Earlier R Good (Named · r) w) :
    Follows semQ R Eq (c.test r.blockID kh)
      (fun res _ => (∃ b, res.1 = .ok b ∧ (r ∈ S → HasHash r kh → b = true)) ∧
        Sound S st res.2) w := by
  unfold BloomCache.test
  cases hitem : c.items.get r.blockID with
  | some elem =>
      refine follows_pure fun x hx => ⟨⟨_, rfl, fun hS hhash => ?_⟩,
        hc.shrink (BloomCache.shrinks_moveToFront c elem)⟩
      obtain ⟨e, he, rfl⟩ := hhash
      exact hc.finds r hS elem hitem e he
  | none =>
      rw [hc.store]
      refine follows_bind sc.rely ((sc.follows_loadFromDisk hr hnamed).mono fun res x h => ?_)
      rcases h with ⟨hS, rfl⟩ | ⟨f, size, rfl, htest⟩
      · exact follows_pure fun y hy => ⟨⟨false, rfl, fun h => absurd h hS⟩, hc⟩
      · refine follows_pure fun y hy => ⟨⟨_, rfl, fun _ hhash => ?_⟩, ?_⟩
        · obtain ⟨e, he, rfl⟩ := hhash
          exact htest e he
        · have hs := hc.shrink (BloomCache.shrinks_evictUntil size c.order.length c)
          refine ⟨hs.store, fun r' hr' elem hi => ?_⟩
          simp only [BloomCache.insert, OrdMap.get_set] at hi
          split_ifs at hi with hid
          · cases hi
            rw [sc.catalog.eq_of_id (sc.sub r' hr') hr hid]
            exact htest
          · exact hs.finds r' hr' elem hi

/-- **Reading the metadata** finds the block's, or none. -/
theorem follows_getBlockMeta (hw : Good w) (hr : r ∈ A) :
    Follows semQ R Eq (getBlockMeta r.blockID).run
      (fun res x => (res = .ok (r.blockMeta libs) ∧ Earlier R Good (HasMeta libs · r) x) ∨
        r ∉ S ∧ ∃ e, res = .error e ∧ Err.is .notFound e = true) w := by
  refine follows_bind sc.rely (sc.follows_get ?_ ?_)
  · intro x hx hnone y hy z hz
    refine Or.inr ⟨fun hS => ?_, _, rfl, ?_⟩
    · have hmeta := (sc.present (sc.keep hw hx) r hS).blk
      rw [HasMeta, hnone] at hmeta
      cases hmeta
    · simp [Err.is]
  · intro x hx v hv y hy z hz
    have hgood := sc.keep hw hx
    have hmeta : HasMeta libs x r := by
      rcases sc.blk hgood r hr with h | h
      · exact h
      · rw [h] at hv
        cases hv
    have hval : v = encodeBlockMeta (r.blockMeta libs) := Option.some.inj (hv.symm.trans hmeta)
    rw [hval]
    exact Or.inl ⟨decodeBlockMeta_encodeBlockMeta _, x, hgood, sc.rely.trans hy hz, hmeta⟩

/-- A block that had metadata can be read. -/
theorem follows_readBlock (hr : r ∈ A) (hmeta : Earlier R Good (HasMeta libs · r) w)
    (from_ to_ : Time) :
    Follows semQ R Eq (readBlock libs st r.blockID kh from_ to_).run
      (fun res _ => res = .ok (rowsOf libs kh from_ to_ r)) w := by
  have hpath : st.blockPath r.blockID = r.blockPath := by
    rw [SealRequest.blockPath, sc.catalog.store r hr]
  obtain ⟨x₀, hx₀, hx₀w, hm⟩ := hmeta
  refine follows_bindE sc.rely (follows_bind sc.rely ?_)
  rw [hpath]
  refine follows_call fun x hx res y hs => ?_
  have hfile : HasFile libs x r := sc.read hx₀ (sc.rely.trans hx₀w hx) r hr hm hs
  have he := sc.exec hs
  simp only [Op.exec, hfile.1] at he
  cases he
  refine ⟨rfl, fun y hy z hz v hv => ?_⟩
  exact readRows_file hfile.2 (sc.catalog.payloads r hr)

/-- **The loop over the candidates** keeps all blocks of `S`, and of the
others those whose metadata it saw. -/
theorem follows_selectTasks {eng : Engine} (htier : eng.tiers tierHot = some st)
    {rs : List SealRequest} :
    ∀ {c : BloomCache libs} {w : World}, Good w → Sound S st c → (∀ r ∈ rs, r ∈ A) →
      (∀ r ∈ rs, Earlier R Good (Named · r) w) →
      Follows semQ R Eq (selectTasks libs eng kh c (rs.map SealRequest.blockID))
        (fun res x => Sound S st res.2 ∧ ∃ vs : List SealRequest,
          res.1 = .ok (vs.map fun r => ⟨r.blockID, st⟩) ∧ vs.Sublist rs ∧
          (∀ r ∈ rs, r ∈ S → HasHash r kh → r ∈ vs) ∧
          ∀ r ∈ vs, Earlier R Good (HasMeta libs · r) x) w := by
  induction rs with
  | nil =>
      intro c w _ hc _ _
      refine follows_pure fun x hx => ⟨hc, [], rfl, List.Sublist.refl _, ?_, ?_⟩
      · exact fun r hr => absurd hr List.not_mem_nil
      · exact fun r hr => absurd hr List.not_mem_nil
  | cons r rs ih =>
      intro c w hw hc hA hnamed
      have hr := hA r List.mem_cons_self
      -- the candidate is skipped: it is none of `S`, or has not the hash
      have hskip : ∀ {c' : BloomCache libs} {x : World}, R w x → Sound S st c' →
          (r ∈ S → HasHash r kh → False) →
          Follows semQ R Eq (selectTasks libs eng kh c' (rs.map SealRequest.blockID))
            (fun res x => Sound S st res.2 ∧ ∃ vs : List SealRequest,
              res.1 = .ok (vs.map fun r => ⟨r.blockID, st⟩) ∧ vs.Sublist (r :: rs) ∧
              (∀ r' ∈ r :: rs, r' ∈ S → HasHash r' kh → r' ∈ vs) ∧
              ∀ r ∈ vs, Earlier R Good (HasMeta libs · r) x) x := by
        intro c' x hx hc' hS
        refine (ih (sc.keep hw hx) hc' (fun r' h => hA r' (List.mem_cons_of_mem _ h))
          fun r' h => (hnamed r' (List.mem_cons_of_mem _ h)).env sc hx).mono fun res y h => ?_
        obtain ⟨hsound, vs, hres, hsub, hall, hmeta⟩ := h
        refine ⟨hsound, vs, hres, hsub.cons _, fun r' hr' hS' hhash => ?_, hmeta⟩
        rcases List.mem_cons.mp hr' with rfl | hr'
        · exact (hS hS' hhash).elim
        · exact hall r' hr' hS' hhash
      refine follows_bind sc.rely ((sc.moves (sc.follows_test hc hr
        (hnamed r List.mem_cons_self))).mono fun tested x h => ?_)
      obtain ⟨⟨⟨b, hb, hyes⟩, hsound⟩, hwx⟩ := h
      simp only [hb]
      cases b with
      | false =>
          exact hskip hwx hsound fun hS hhash => absurd (hyes hS hhash) Bool.false_ne_true
      | true =>
          refine follows_bind sc.rely ((sc.moves (sc.follows_getBlockMeta (sc.keep hw hwx)
            hr)).mono fun res y h => ?_)
          obtain ⟨h, hxy⟩ := h
          have hwy := sc.rely.trans hwx hxy
          rcases h with ⟨rfl, hmeta⟩ | ⟨hS, e, rfl, he⟩
          · -- the block is read later
            simp only [show (r.blockMeta libs).tier = tierHot from rfl, htier]
            refine follows_bind sc.rely ((sc.moves (ih (sc.keep hw hwy) hsound
              (fun r' h => hA r' (List.mem_cons_of_mem _ h))
              fun r' h => (hnamed r' (List.mem_cons_of_mem _ h)).env sc hwy)).mono
              fun rest z h => ?_)
            obtain ⟨⟨hrest, vs, hres, hsub, hall, hmetas⟩, hyz⟩ := h
            refine follows_pure fun v hv => ⟨hrest, r :: vs, ?_, hsub.cons_cons _, ?_, ?_⟩
            · rw [hres]
              rfl
            · intro r' hr' hS' hhash
              rcases List.mem_cons.mp hr' with rfl | hr'
              · exact List.mem_cons_self
              · exact List.mem_cons_of_mem _ (hall r' hr' hS' hhash)
            · intro r' hr'
              rcases List.mem_cons.mp hr' with rfl | hr'
              · exact hmeta.env sc (sc.rely.trans hyz hv)
              · exact (hmetas r' hr').env sc hv
          · simp only [he, if_true]
            exact hskip hwy hsound fun h _ => hS h

/-- The goroutines read what they are to read, in whatever order. -/
theorem follows_readTasks {vs : List SealRequest} {from_ to_ : Time} (is : List Nat) :
    ∀ {w : World}, (∀ r ∈ vs, r ∈ A) → (∀ r ∈ vs, Earlier R Good (HasMeta libs · r) w) →
      Follows semQ R Eq
        (readTasks libs kh from_ to_ (vs.map fun r => ⟨r.blockID, st⟩) is)
        (fun done _ => done = doneOf (fun r => .ok (rowsOf libs kh from_ to_ r)) vs is) w := by
  induction is with
  | nil => exact fun _ _ => follows_pure fun x hx => rfl
  | cons i is ih =>
      intro w hA hmeta
      rw [readTasks, List.getElem?_map, doneOf]
      cases hi : vs[i]? with
      | none =>
          simp only [Option.map_none, List.filterMap_cons, hi]
          exact ih hA hmeta
      | some r =>
          have hr : r ∈ vs := List.mem_of_getElem? hi
          simp only [Option.map_some, List.filterMap_cons, hi]
          refine follows_bind sc.rely ((sc.moves (sc.follows_readBlock (hA r hr) (hmeta r hr)
            from_ to_)).mono fun res x h => ?_)
          obtain ⟨rfl, hwx⟩ := h
          refine follows_bind sc.rely ((ih hA fun r' h => (hmeta r' h).env sc hwx).mono
            fun done y h => ?_)
          subst h
          exact follows_pure fun z hz => rfl

end Blocks

end Scene

/-! ## The whole query -/

variable {libs : Libs} {req : QueryRequest}

/-- Read rows are the wanted rows of a block in scope, in file order. -/
theorem perm_rowsOf (h : Proper req) {r : SealRequest} (hr : InScope req r) :
    (rowsOf libs (keyHashFor libs req.partitionKey) req.from_ req.to_ r).Perm
      (wanted libs req r) := by
  rw [wanted, if_pos hr, rowsOf]
  refine ((r.memtable.perm_rows_sort libs).filter _).trans (List.Perm.of_eq ?_)
  refine List.filter_congr fun e _ => ?_
  rw [Bool.eq_iff_iff, rowMatches_iff h, decide_eq_true_eq]

theorem mem_rowsOf (h : Proper req) {r : SealRequest} {e : Event}
    (he : e ∈ rowsOf libs (keyHashFor libs req.partitionKey) req.from_ req.to_ r) :
    e.keyHash = keyHashFor libs req.partitionKey :=
  ((rowMatches_iff h e).mp (List.mem_filter.mp he).2).1

/-- A block found by the lookups is in scope, and the other way round. -/
theorem inScope_iff {r : SealRequest} :
    InScope req r ↔ r.eventType ∈ typesOf req ∧ overlaps req.from_ req.to_ r.blockID = true := by
  rw [InScope, mem_typesOf, SealRequest.blockID, overlaps_blockID]

/-- A block with a wanted row is in scope and has the hash. -/
theorem of_wanted_ne_nil {r : SealRequest} (h : wanted libs req r ≠ []) :
    InScope req r ∧ HasHash r (keyHashFor libs req.partitionKey) := by
  unfold wanted at h
  split_ifs at h with hs
  · refine ⟨hs, ?_⟩
    obtain ⟨e, he⟩ := List.exists_mem_of_ne_nil _ h
    obtain ⟨hmem, hasked⟩ := List.mem_filter.mp he
    exact ⟨e, hmem, (of_decide_eq_true hasked).1⟩
  · exact absurd rfl h

/-- Events of one key in the order of `Event.less` are in the order of their
timestamps. -/
theorem pairwise_timestamps {l : List Event} {kh : UInt64} (hs : Sorted l)
    (hkh : ∀ e ∈ l, e.keyHash = kh) : l.Pairwise fun a b => a.timestamp ≤ b.timestamp := by
  refine hs.imp_of_mem fun {a b} ha hb hab => ?_
  have hnot : ¬ b.less a = true := by
    rw [hab]
    exact Bool.false_ne_true
  rw [Event.less_iff, hkh a ha, hkh b hb] at hnot
  by_contra hlt
  exact hnot (Or.inr ⟨rfl, Int64.lt_iff_toInt_lt.mp (Int64.not_le.mp hlt)⟩)

/-- Adding the blocks of `S` that have no wanted row changes nothing. -/
theorem exists_sublist_wanted {A S vs : List SealRequest} (hA : A.Nodup) (hvs : vs.Nodup)
    (hsub : ∀ r ∈ vs, r ∈ A) (hS : ∀ r ∈ S, r ∈ A)
    (hall : ∀ r ∈ S, wanted libs req r ≠ [] → r ∈ vs) :
    ∃ V : List SealRequest, V.Sublist A ∧ (∀ r ∈ S, r ∈ V) ∧ (∀ r ∈ V, r ∈ S ∨ r ∈ vs) ∧
      (vs.flatMap (wanted libs req)).Perm (V.flatMap (wanted libs req)) := by
  classical
  let V := A.filter fun r => r ∈ vs ∨ r ∈ S
  have hV : ∀ r, r ∈ V ↔ r ∈ A ∧ (r ∈ vs ∨ r ∈ S) := by
    intro r
    simp [V]
  refine ⟨V, List.filter_sublist, fun r hr => (hV r).mpr ⟨hS r hr, Or.inr hr⟩,
    fun r hr => ((hV r).mp hr).2.symm, ?_⟩
  -- `V` is `vs` and blocks with nothing to return
  have hmine : (V.filter fun r => r ∈ vs).Perm vs := by
    refine (List.perm_ext_iff_of_nodup ((hA.filter _).filter _) hvs).mpr fun r => ?_
    rw [List.mem_filter, hV, decide_eq_true_eq]
    exact ⟨fun h => h.2, fun h => ⟨⟨hsub r h, Or.inl h⟩, h⟩⟩
  have hother : (V.filter fun r => !decide (r ∈ vs)).flatMap (wanted libs req) = [] := by
    refine List.flatMap_eq_nil_iff.mpr fun r hr => ?_
    obtain ⟨hr, hnot⟩ := List.mem_filter.mp hr
    have hnot : r ∉ vs := by simpa using hnot
    by_contra hne
    rcases ((hV r).mp hr).2 with h | h
    · exact hnot h
    · exact hnot (hall r h hne)
  have hsplit := (List.filter_append_perm (fun r => decide (r ∈ vs)) V).flatMap_right
    (wanted libs req)
  rw [List.flatMap_append, hother, List.append_nil] at hsplit
  exact (hmine.flatMap_right _).symm.trans hsplit

section Query

variable {st : LocalStore} {A S : List SealRequest} {semQ : Sem machine World}
  {R : World → World → Prop} {Good : World → Prop} {w : World}

/-- The rows of the selected blocks, merged, are wanted rows. -/
theorem Scene.merge_wanted (sc : Scene libs st A S semQ R Good) (hreq : Proper req)
    {rs vs : List SealRequest} {P : SealRequest → Prop}
    (hfinds : Scene.Finds A S R Good (typesOf req) (keyHashFor libs req.partitionKey)
      req.from_ req.to_ rs w)
    (hsub : vs.Sublist rs)
    (hall : ∀ r ∈ rs, r ∈ S → HasHash r (keyHashFor libs req.partitionKey) → r ∈ vs)
    (hseen : ∀ r ∈ vs, P r) {out : List Event}
    (hout : out = mergeEvents ((vs.map (rowsOf libs (keyHashFor libs req.partitionKey)
      req.from_ req.to_)).filter fun s => s.length > 0)) :
    Answers libs req A S P (.ok out) := by
  have hsorted : ∀ s ∈ (vs.map (rowsOf libs (keyHashFor libs req.partitionKey)
      req.from_ req.to_)).filter (fun s => s.length > 0), Sorted s := by
    intro s hs
    obtain ⟨r, -, rfl⟩ := List.mem_map.mp (List.mem_filter.mp hs).1
    exact (r.memtable.pairwise_rows_sort libs).sublist List.filter_sublist
  have hperm := mergeEvents_perm ((vs.map (rowsOf libs (keyHashFor libs req.partitionKey)
    req.from_ req.to_)).filter fun s => s.length > 0)
  have hord := mergeEvents_sorted hsorted
  rw [← hout, flatten_filter_nonempty, ← List.flatMap_def] at hperm
  rw [← hout] at hord
  -- every wanted row of `S` is in a selected block
  have hwanted : ∀ r ∈ S, wanted libs req r ≠ [] → r ∈ vs := by
    intro r hr hne
    obtain ⟨hscope, hhash⟩ := of_wanted_ne_nil hne
    obtain ⟨het, hov⟩ := inScope_iff.mp hscope
    exact hall r (hfinds.all r hr het hhash hov) hr hhash
  obtain ⟨V, hV, hSV, hVS, hwant⟩ := exists_sublist_wanted sc.catalog.ids.of_map
    (hfinds.nodup.sublist hsub) (fun r hr => (hfinds.mem r (hsub.subset hr)).1) sc.sub hwanted
  refine ⟨out, V, rfl, hV, hSV, fun r hr => (hVS r hr).imp_right (hseen r),
    hperm.trans (List.Perm.trans ?_ hwant), ?_⟩
  · refine List.Perm.flatMap_left vs fun r hr => perm_rowsOf hreq ?_
    obtain ⟨-, het, hov⟩ := hfinds.mem r (hsub.subset hr)
    exact inScope_iff.mpr ⟨het, hov⟩
  · have hone : ∀ e ∈ out, e.keyHash = keyHashFor libs req.partitionKey := by
      intro e he
      obtain ⟨r, -, hmem⟩ := List.mem_flatMap.mp (hperm.mem_iff.mp he)
      exact mem_rowsOf hreq hmem
    exact pairwise_timestamps hord hone

/-- **What a query returns while others work**: the wanted rows of all
blocks of `S` and of some others of `A` that had metadata, in the order of
their timestamps. -/
theorem Scene.follows_query (sc : Scene libs st A S semQ R Good) {eng : Engine}
    (htier : eng.tiers tierHot = some st) {c : BloomCache libs} (hc : Scene.Sound S st c)
    (hw : Good w) (hreq : Proper req) :
    Follows semQ R Eq (query libs eng c req)
      (fun res x => Scene.Sound S st res.2 ∧
        Answers libs req A S (fun r => Scene.Earlier R Good (HasMeta libs · r) x) res.1) w := by
  have hkey : ¬ req.partitionKey.length = 0 := fun h => hreq.key (List.length_eq_zero_iff.mp h)
  rw [query, if_neg hkey, if_neg (not_not.mpr hreq.order)]
  refine follows_bind sc.rely ((sc.follows_candidates hw req).mono fun res x h => ?_)
  obtain ⟨rs, rfl, hfinds⟩ := h
  -- nothing is selected
  have hnone : ∀ {c' : BloomCache libs} {y : World}, Scene.Sound S st c' →
      (∀ r ∈ rs, r ∈ S → HasHash r (keyHashFor libs req.partitionKey) →
        r ∈ ([] : List SealRequest)) →
      Follows semQ R Eq (Pure.pure (.ok [], c') : Proc (Except Err (List Event) × BloomCache libs))
        (fun res x => Scene.Sound S st res.2 ∧
          Answers libs req A S (fun r => Scene.Earlier R Good (HasMeta libs · r) x) res.1) y := by
    intro c' y hc' hall
    refine follows_pure fun z hz =>
      ⟨hc', sc.merge_wanted hreq hfinds (List.nil_sublist rs) hall ?_ rfl⟩
    exact fun r hr => absurd hr List.not_mem_nil
  simp only [List.length_map]
  split_ifs with hlen
  · rw [List.length_eq_zero_iff.mp hlen] at hnone
    exact hnone hc fun r hr => absurd hr List.not_mem_nil
  refine follows_bind sc.rely ((sc.follows_selectTasks htier hfinds.good hc
    (fun r hr => (hfinds.mem r hr).1) hfinds.named).mono fun selected y h => ?_)
  obtain ⟨hsound, vs, hres, hsub, hall, hmeta⟩ := h
  simp only [hres, List.length_map]
  split_ifs with hlen'
  · rw [List.length_eq_zero_iff.mp hlen'] at hall
    exact hnone hsound hall
  refine follows_bind sc.rely ((sc.moves (sc.follows_readTasks (eng.readOrder vs.length)
    (fun r hr => (hfinds.mem r (hsub.subset hr)).1) hmeta)).mono fun done z h => ?_)
  obtain ⟨rfl, hyz⟩ := h
  rw [resultsOf_doneOf _ vs (eng.readOrder_perm _)]
  have hcollect := collectSlices_ok (vs.map (rowsOf libs (keyHashFor libs req.partitionKey)
    req.from_ req.to_))
  rw [List.map_map] at hcollect
  simp only [Function.comp_def] at hcollect
  simp only [hcollect]
  refine follows_pure fun v hv => ⟨hsound, sc.merge_wanted hreq hfinds hsub hall ?_ rfl⟩
  exact fun r hr => (hmeta r hr).env sc (sc.rely.trans hyz hv)

end Query

end Bbdb.Query
