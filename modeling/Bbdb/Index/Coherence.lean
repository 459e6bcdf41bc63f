import Bbdb.Block.CrashSafety
import Bbdb.Block.Publish
import Bbdb.Index.BloomCache
import Bbdb.Ttl.Reaper

/-!
# Index — the bloom cache and the files

A cached filter is used without a look at the disk, and neither `Seal` nor the
reaper evicts one. Over all runs of seals, tests, evictions and reaper cycles:
as long as every `Seal` is for a block id that has no metadata and no cached
filter, no test hides a row of a committed block (`test_finds_committed_key`).
A second `Seal` for a cached id does hide rows (`reseal_hides_key`).
-/

namespace Bbdb.Index

open Bbdb.Meta Bbdb.Block Bbdb.Tier Bbdb.Ttl
open Prog hiding pure bind

/-- The key-hash column of a block file. -/
def keyHashesOf (libs : Libs) (file : Bytes) : Except Err (List UInt64) := do
  let footer ← decodeFooter (file.drop (file.length - footerSize))
  let cols ← readFilterColumns libs file footer
  .ok cols.1

/-- The current block file of `id` contains a row with the hash. -/
def HoldsKey (libs : Libs) (st : LocalStore) (w : World) (id : BlockID) (h : UInt64) : Prop :=
  ∃ file hs, w.fs (st.blockPath id) = some file ∧ keyHashesOf libs file = .ok hs ∧ h ∈ hs

/-! ## The system -/

/-- A machine and its bloom cache. -/
structure CacheSys (libs : Libs) where
  world : World
  cache : BloomCache libs

inductive CacheAct where
  | sealBlock (r : SealRequest)
  | test (id : BlockID) (h : UInt64)
  | evict (id : BlockID)
  | reap (cfg : ReaperConfig)

/-- What can happen. Every call may fail, at any of its operations. -/
inductive CacheStep (libs : Libs) : CacheSys libs → CacheAct → CacheSys libs → Prop
  | sealed {w w' : World} {c : BloomCache libs} {r : SealRequest} {ws : List World}
      {res : Except Err BlockID} (hstore : r.store = c.store)
      (hrun : Runs sem (sealBlock libs r).run w ws res w') :
      CacheStep libs ⟨w, c⟩ (.sealBlock r) ⟨w', c⟩
  | tested {w w' : World} {c c' : BloomCache libs} {id : BlockID} {h : UInt64} {ws : List World}
      {res : Except Err Bool} (hrun : Runs sem (c.test id h) w ws (res, c') w') :
      CacheStep libs ⟨w, c⟩ (.test id h) ⟨w', c'⟩
  | evicted {w : World} {c : BloomCache libs} (id : BlockID) :
      CacheStep libs ⟨w, c⟩ (.evict id) ⟨w, c.evict id⟩
  | reaped {w w' : World} {c : BloomCache libs} {cfg : ReaperConfig} {ws : List World}
      {res : Except Err Unit} (hrun : Runs sem (runOnce cfg).run w ws res w') :
      CacheStep libs ⟨w, c⟩ (.reap cfg) ⟨w', c⟩

/-- The states that runs reach whose steps all meet `cond`. -/
def CacheReach (libs : Libs) (cond : CacheSys libs → CacheAct → Prop) :
    CacheSys libs → CacheSys libs → Prop :=
  Relation.ReflTransGen fun s s' => ∃ act, cond s act ∧ CacheStep libs s act s'

/-- A store without blocks and an empty cache with the given memory cap. -/
structure Fresh (st : LocalStore) (maxMem : Int64) {libs : Libs} (s : CacheSys libs) : Prop where
  blk : ∀ id, s.world.db.view.get (blockKey id) = none
  cache : s.cache = newBloomCache st maxMem

/-- No test of `s` hides a key of a committed block. -/
def NoKeyHidden (libs : Libs) (s : CacheSys libs) : Prop :=
  ∀ id h, (s.world.db.view.get (blockKey id)).isSome → HoldsKey libs s.cache.store s.world id h →
    ∀ ws c' w', ¬ Runs sem (s.cache.test id h) s.world ws (.ok false, c') w'

/-- A block id is sealed only while it has no metadata and no cached filter. -/
def SealsUncached {libs : Libs} (s : CacheSys libs) (act : CacheAct) : Prop :=
  ∀ r, act = .sealBlock r → s.world.db.view.get (blockKey r.blockID) = none ∧
    s.cache.items.get r.blockID = none

/-! ## Coherence -/

variable {libs : Libs} {st : LocalStore} {s s' : CacheSys libs} {act : CacheAct}

/-- The filter has every hash of the file. -/
def Covers (libs : Libs) (f : libs.Filter) (file : Bytes) : Prop :=
  ∀ hs, keyHashesOf libs file = .ok hs → ∀ h ∈ hs, testHash libs f h = true

/-- Bloom file and cached filter of a committed block cover its file. -/
structure Coherent (st : LocalStore) (s : CacheSys libs) : Prop where
  store : s.cache.store = st
  file : ∀ id v file, s.world.db.view.get (blockKey id) = some v →
    s.world.fs (st.blockPath id) = some file →
      ∃ f, BloomCache.InFile s.world st id f ∧ Covers libs f file
  cached : ∀ id v file elem, s.world.db.view.get (blockKey id) = some v →
    s.world.fs (st.blockPath id) = some file → s.cache.items.get id = some elem →
      Covers libs elem.value.filter file

/-- The hashes of a sealed file are those of its memtable. -/
theorem keyHashesOf_file {r : SealRequest} (hsize : (r.file libs).length < maxBlockFile) :
    keyHashesOf libs (r.file libs) = .ok (r.sorted libs).keyHashes := by
  simp only [keyHashesOf, SealRequest.file, drop_footer_blockFile, decodeFooter_encodeFooter]
  rw [SealRequest.file] at hsize
  simp only [bind, Except.bind, readFilterColumns_blockFile hsize]

/-- The bloom file of a present block covers its file. -/
theorem covers_of_present {w : World} {r : SealRequest} (h : Present libs w r) :
    ∃ f, BloomCache.InFile w r.store r.blockID f ∧ Covers libs f (r.file libs) := by
  obtain ⟨data, hser, hdata⟩ := h.bloom
  obtain ⟨f, hf, htest⟩ := libs.readFrom_writeTo _ _ hser
  refine ⟨f, ⟨data, hdata, hf⟩, fun hs hhs x hx => ?_⟩
  rw [keyHashesOf_file h.file.2] at hhs
  cases hhs
  obtain ⟨e, he, rfl⟩ := Memtable.mem_keyHashes_iff.mp hx
  rw [testHash, htest]
  exact testHash_buildBloom libs ((Memtable.mem_uniqueKeyHashes libs).mpr ⟨e, he, rfl⟩) _

theorem Coherent.sealed {w w' : World} {c : BloomCache libs} {r : SealRequest} {ws : List World}
    {res : Except Err BlockID} (h : Coherent st ⟨w, c⟩) (hstore : r.store = c.store)
    (hblk : w.db.view.get (blockKey r.blockID) = none) (hcache : c.items.get r.blockID = none)
    (hrun : Runs sem (sealBlock libs r).run w ws res w') : Coherent st ⟨w', c⟩ := by
  have hbeside := beside_of_runs hrun
  have hst : r.store = st := hstore.trans h.store
  -- the block itself is not committed, or present
  have hown : ∀ v, w'.db.view.get (blockKey r.blockID) = some v → Present libs w' r := by
    intro v hv
    cases res with
    | ok id => exact present_of_runs hrun
    | error e =>
        rcases runs_sealBlock libs r hrun with ⟨-, hc⟩ | ⟨he, -⟩
        · rw [get_of_chain hc hrun.getLast fun _ he => idxKey_ne_blockKey he.symm, hblk] at hv
          cases hv
        · cases he
  refine ⟨h.store, fun id v file hv hfile => ?_, fun id v file elem hv hfile hi => ?_⟩
  · have hv : w'.db.view.get (blockKey id) = some v := hv
    have hfile : w'.fs (st.blockPath id) = some file := hfile
    by_cases hid : id = r.blockID
    · subst hid
      have hp := hown v hv
      obtain ⟨f, hf, hcov⟩ := covers_of_present hp
      have hsame : w'.fs (st.blockPath r.blockID) = some (r.file libs) := hst ▸ hp.file.1
      rw [hsame] at hfile
      cases hfile
      exact ⟨f, hst ▸ hf, hcov⟩
    · rw [hbeside.blk id hid] at hv
      rw [hbeside.block st id hid] at hfile
      obtain ⟨f, ⟨data, hdata, hf⟩, hcov⟩ := h.file id v file hv hfile
      exact ⟨f, ⟨data, (hbeside.bloom st id hid).trans hdata, hf⟩, hcov⟩
  · have hv : w'.db.view.get (blockKey id) = some v := hv
    have hfile : w'.fs (st.blockPath id) = some file := hfile
    by_cases hid : id = r.blockID
    · subst hid
      have hi : c.items.get r.blockID = some elem := hi
      rw [hcache] at hi
      cases hi
    · rw [hbeside.blk id hid] at hv
      rw [hbeside.block st id hid] at hfile
      exact h.cached id v file elem hv hfile hi

theorem Coherent.tested {w w' : World} {c c' : BloomCache libs} {id : BlockID} {x : UInt64}
    {ws : List World} {res : Except Err Bool} (h : Coherent st ⟨w, c⟩)
    (hrun : Runs sem (c.test id x) w ws (res, c') w') : Coherent st ⟨w', c'⟩ := by
  obtain rfl := runs_reads (BloomCache.calls_test c id x) hrun
  have hloads := BloomCache.runs_test hrun
  refine ⟨hloads.store.trans h.store, h.file, fun id' v file elem hv hfile hi => ?_⟩
  rcases hloads.items id' elem hi with hold | ⟨-, data, hdata, hf⟩
  · exact h.cached id' v file elem hv hfile hold
  · -- just loaded: it is the filter of the bloom file
    obtain ⟨f, ⟨data', hdata', hf'⟩, hcov⟩ := h.file id' v file hv hfile
    rw [h.store, hdata', Option.some.injEq] at hdata
    rw [← hdata, hf'] at hf
    cases hf
    exact hcov

theorem Coherent.evicted {w : World} {c : BloomCache libs} (h : Coherent st ⟨w, c⟩)
    (id : BlockID) : Coherent st ⟨w, c.evict id⟩ := by
  have hs : BloomCache.Shrinks c (c.evict id) := by
    unfold BloomCache.evict
    cases c.items.get id with
    | none => exact BloomCache.Shrinks.refl c
    | some elem => exact BloomCache.shrinks_removeElem c elem
  exact ⟨hs.store.trans h.store, h.file, fun id' v file elem hv hfile hi =>
    h.cached id' v file elem hv hfile (hs.items id' elem hi)⟩

theorem Coherent.reaped {w w' : World} {c : BloomCache libs} {cfg : ReaperConfig}
    {ws : List World} {res : Except Err Unit} (h : Coherent st ⟨w, c⟩)
    (hrun : Runs sem (runOnce cfg).run w ws res w') : Coherent st ⟨w', c⟩ := by
  have hfirst := blockFirst_of_runs hrun
  -- a block file that is still there still has its bloom file
  have hkept : ∀ id file, w'.fs (st.blockPath id) = some file →
      w.fs (st.blockPath id) = some file ∧ w'.fs (st.bloomPath id) = w.fs (st.bloomPath id) := by
    intro id file hfile
    rcases hfirst.files st id with ⟨hblock, hbloom⟩ | hnone
    · exact ⟨hblock ▸ hfile, hbloom⟩
    · rw [hnone] at hfile
      cases hfile
  refine ⟨h.store, fun id v file hv hfile => ?_, fun id v file elem hv hfile hi => ?_⟩
  · obtain ⟨hfile', hbloom⟩ := hkept id file hfile
    obtain ⟨f, ⟨data, hdata, hf⟩, hcov⟩ := h.file id v file (hfirst.blk id v hv) hfile'
    exact ⟨f, ⟨data, hbloom.trans hdata, hf⟩, hcov⟩
  · exact h.cached id v file elem (hfirst.blk id v hv) (hkept id file hfile).1 hi

/-- One step keeps cache and files coherent. -/
theorem Coherent.step (h : Coherent st s) (hc : SealsUncached s act)
    (hs : CacheStep libs s act s') : Coherent st s' := by
  cases hs with
  | sealed hstore hrun =>
      obtain ⟨hblk, hcache⟩ := hc _ rfl
      exact h.sealed hstore hblk hcache hrun
  | tested hrun => exact h.tested hrun
  | evicted id => exact h.evicted id
  | reaped hrun => exact h.reaped hrun

/-- A coherent cache hides nothing. -/
theorem Coherent.noKeyHidden (h : Coherent st s) : NoKeyHidden libs s := by
  intro id x hblk hkey ws c' w' hrun
  obtain ⟨v, hv⟩ := Option.isSome_iff_exists.mp hblk
  obtain ⟨file, hs, hfile, hhs, hx⟩ := hkey
  rw [h.store] at hfile
  rcases BloomCache.runs_test_result hrun with ⟨elem, hi, he⟩ | ⟨-, ⟨e, he⟩ | ⟨-, hno⟩ | ⟨f, hf, he⟩⟩
  · rw [h.cached id v file elem hv hfile hi hs hhs x hx] at he
    cases he
  · cases he
  · obtain ⟨f, hf, -⟩ := h.file id v file hv hfile
    rw [h.store] at hno
    exact hno f hf
  · obtain ⟨f', ⟨data', hdata', hf'⟩, hcov⟩ := h.file id v file hv hfile
    obtain ⟨data, hdata, hf⟩ := hf
    rw [h.store, hdata', Option.some.injEq] at hdata
    rw [← hdata, hf'] at hf
    cases hf
    rw [hcov hs hhs x hx] at he
    cases he

/-- **The bloom cache never hides a committed key**, in any run in which
block ids are sealed only while they have no metadata and no cached filter. -/
theorem test_finds_committed_key (libs : Libs) (st : LocalStore) (maxMem : Int64)
    (s₀ s : CacheSys libs) (hstart : Fresh st maxMem s₀)
    (h : CacheReach libs SealsUncached s₀ s) : NoKeyHidden libs s := by
  have hinit : Coherent st s₀ := by
    refine ⟨by rw [hstart.cache]; rfl, fun id v file hv => ?_, fun id v file elem hv => ?_⟩
    all_goals
      rw [hstart.blk] at hv
      cases hv
  have hinv : Coherent st s := by
    induction h with
    | refl => exact hinit
    | tail _ hstep ih =>
        obtain ⟨act, hc, hs⟩ := hstep
        exact ih.step hc hs
  exact hinv.noKeyHidden

/-! ## A block that is sealed twice -/

/-- A byte string with an end mark. -/
def markItem : Bytes → Bytes
  | [] => [0]
  | b :: bs => 1 :: b :: markItem bs

def readItems : Bytes → Option (List Bytes)
  | [] => some []
  | 0 :: rest => (readItems rest).map ([] :: ·)
  | 1 :: b :: rest =>
      match readItems rest with
      | some (x :: xs) => some ((b :: x) :: xs)
      | _ => none
  | _ => none

theorem readItems_markItem {rest : Bytes} {xs : List Bytes} (h : readItems rest = some xs) :
    ∀ b, readItems (markItem b ++ rest) = some (b :: xs) := by
  intro b
  induction b with
  | nil => simp [markItem, readItems, h]
  | cons x b ih => simp [markItem, readItems, ih]

theorem readItems_flatMap (xs : List Bytes) : readItems (xs.flatMap markItem) = some xs := by
  induction xs with
  | nil => rfl
  | cons x xs ih => exact readItems_markItem ih x

/-- The plain libraries with filters that say no to what was not added. -/
def listLibs : Libs :=
  { Libs.plain with
    Filter := List Bytes
    newWithEstimates := fun _ _ => []
    add := fun f x => x :: f
    test := fun f x => f.contains x
    writeTo := fun f => .ok (f.flatMap markItem)
    readFrom := fun d => (readItems d).elim (.error .io) .ok
    test_add_self := fun f x => by simp
    test_add := fun f x y h => by simp_all
    readFrom_writeTo := fun f d h => by
      cases h
      exact ⟨f, by rw [readItems_flatMap]; rfl, fun _ => rfl⟩ }

/-- A second memtable for the block id of `oneRow`. -/
def otherRow : SealRequest := { oneRow with memtable := Memtable.new.append ⟨512, 1, [1]⟩ }

/-- The world after sealing `r`. -/
def afterSeal (r : SealRequest) (s : CacheSys listLibs) : CacheSys listLibs :=
  ⟨((sealBlock listLibs r).run.exec s.world).2, s.cache⟩

def afterTest (h : UInt64) (s : CacheSys listLibs) : CacheSys listLibs :=
  ⟨((s.cache.test oneRow.blockID h).exec s.world).2,
    ((s.cache.test oneRow.blockID h).exec s.world).1.2⟩

theorem step_afterSeal {r : SealRequest} {s : CacheSys listLibs} (h : r.store = s.cache.store) :
    CacheStep listLibs s (.sealBlock r) (afterSeal r s) :=
  .sealed h (runs_procExec _ _)

theorem step_afterTest (h : UInt64) (s : CacheSys listLibs) :
    CacheStep listLibs s (.test oneRow.blockID h) (afterTest h s) :=
  .tested (runs_procExec _ _)

def emptyCacheSys : CacheSys listLibs :=
  ⟨⟨Pebble.empty, fun _ => none, 0⟩, newBloomCache oneRow.store 0⟩

theorem fresh_emptyCacheSys : Fresh oneRow.store 0 emptyCacheSys := ⟨fun _ => rfl, rfl⟩

/-- Sealed, tested, and sealed again with another row. -/
def resealed : CacheSys listLibs :=
  afterSeal otherRow (afterTest 256 (afterSeal oneRow emptyCacheSys))

set_option maxRecDepth 100000 in
/-- **After a second `Seal` the cached filter hides the new row.** -/
theorem reseal_hides_key :
    Fresh oneRow.store 0 emptyCacheSys ∧
    CacheReach listLibs (fun _ _ => True) emptyCacheSys resealed ∧
    ¬ NoKeyHidden listLibs resealed := by
  refine ⟨fresh_emptyCacheSys, ?_, fun hno => ?_⟩
  · refine .tail (.tail (.single ⟨_, trivial, step_afterSeal rfl⟩) ⟨_, trivial, step_afterTest 256 _⟩)
      ⟨_, trivial, step_afterSeal ?_⟩
    decide +kernel
  · have hkey : HoldsKey listLibs resealed.cache.store resealed.world oneRow.blockID 512 :=
      ⟨otherRow.file listLibs, [512], by decide +kernel, by decide +kernel, by decide⟩
    have hrun := runs_procExec (resealed.cache.test oneRow.blockID 512) resealed.world
    have hres : ((resealed.cache.test oneRow.blockID 512).exec resealed.world).1.1 = .ok false := by
      decide +kernel
    have hpair : ((resealed.cache.test oneRow.blockID 512).exec resealed.world).1 =
        (.ok false, ((resealed.cache.test oneRow.blockID 512).exec resealed.world).1.2) :=
      Prod.ext hres rfl
    rw [hpair] at hrun
    exact hno oneRow.blockID 512 (by decide +kernel) hkey _ _ _ hrun

set_option maxRecDepth 100000 in
theorem test_finds_committed_key_oneRow :
    HoldsKey listLibs oneRow.store (afterSeal oneRow emptyCacheSys).world oneRow.blockID 256 ∧
    NoKeyHidden listLibs (afterSeal oneRow emptyCacheSys) := by
  refine ⟨⟨oneRow.file listLibs, [256], by decide +kernel, by decide +kernel, by decide⟩, ?_⟩
  refine test_finds_committed_key listLibs oneRow.store 0 emptyCacheSys _ fresh_emptyCacheSys
    (.single ⟨_, ?_, step_afterSeal rfl⟩)
  intro r hr
  cases hr
  exact ⟨rfl, rfl⟩

end Bbdb.Index
