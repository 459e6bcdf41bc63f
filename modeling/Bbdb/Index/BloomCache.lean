import Bbdb.Tier.Local
import Bbdb.Block.Format

/-!
# Index — the bloom filter cache

An LRU cache of bloom filters, loaded from the tier store on a miss. A list
element is known by its address: `items` maps a block id to its element,
`order` has the elements from the most to the least recently used.

Whatever is evicted, a cached filter is one that was read from the bloom file
of its block (`runs_test`), and an error-free `test` answers like the filter
in the file as long as the cached ones are those in the files (`exec_test`).
-/

namespace Bbdb.Index

open Bbdb.Meta Bbdb.Block Bbdb.Tier
open Prog hiding pure bind

variable (libs : Libs)

structure BloomEntry where
  id : BlockID
  filter : libs.Filter
  size : Int64

/-- A `list.Element`: its identity and its value. -/
structure Elem where
  addr : Nat
  value : BloomEntry libs

structure BloomCache where
  store : LocalStore
  maxMem : Int64
  usedMem : Int64
  items : OrdMap BlockID (Elem libs)
  /-- The front of the list comes first. -/
  order : List (Elem libs)
  /-- The address of the next element. -/
  next : Nat

variable {libs}

/-- `NewBloomCache`. -/
def newBloomCache (store : LocalStore) (maxMemBytes : Int64) : BloomCache libs where
  store := store
  maxMem := maxMemBytes
  usedMem := 0
  items := OrdMap.empty
  order := []
  next := 0

namespace BloomCache

/-- `order.MoveToFront(elem)`. -/
def moveToFront (c : BloomCache libs) (elem : Elem libs) : BloomCache libs :=
  if c.order.any fun x => x.addr = elem.addr then
    { c with order := elem :: c.order.filter fun x => x.addr ≠ elem.addr }
  else c

def removeElem (c : BloomCache libs) (elem : Elem libs) : BloomCache libs :=
  { c with
    order := c.order.filter fun x => x.addr ≠ elem.addr
    items := c.items.erase elem.value.id
    usedMem := c.usedMem - elem.value.size }

def evictOldest (c : BloomCache libs) : BloomCache libs :=
  match c.order.getLast? with
  | none => c
  | some back => c.removeElem back

/-- The loop that makes room for `size` more bytes. Every pass shortens the
list, so its length bounds the number of passes. -/
def evictUntil (size : Int64) : Nat → BloomCache libs → BloomCache libs
  | 0, c => c
  | n + 1, c =>
      if c.maxMem > 0 ∧ c.usedMem + size > c.maxMem ∧ c.order.length > 0 then
        evictUntil size n c.evictOldest
      else c

/-- A loaded filter becomes the front of the list. -/
def insert (c : BloomCache libs) (id : BlockID) (filter : libs.Filter) (size : Int64) :
    BloomCache libs :=
  let elem : Elem libs := ⟨c.next, ⟨id, filter, size⟩⟩
  { c with
    order := elem :: c.order
    items := c.items.set id elem
    usedMem := c.usedMem + size
    next := c.next + 1 }

/-- `Evict`. -/
def evict (c : BloomCache libs) (id : BlockID) : BloomCache libs :=
  match c.items.get id with
  | none => c
  | some elem => c.removeElem elem

variable (libs) in
def loadFromDisk (store : LocalStore) (id : BlockID) : Go (libs.Filter × Int64) := do
  let data ← osReadFile (store.bloomPath id)
  let bf ← ExceptT.mk (pure (deserializeBloom libs data))
  pure (bf, Int64.ofNat data.length)

/-- `Test`, with the cache it leaves. A missing bloom file means that the
block was deleted. -/
def test (c : BloomCache libs) (id : BlockID) (keyHash : UInt64) :
    Proc (Except Err Bool × BloomCache libs) :=
  match c.items.get id with
  | some elem => pure (.ok (testHash libs elem.value.filter keyHash), c.moveToFront elem)
  | none => do
      match ← (loadFromDisk libs c.store id).run with
      | .error e => pure (if e = .notExist then .ok false else .error e, c)
      | .ok (bf, size) =>
          pure (.ok (testHash libs bf keyHash),
            (evictUntil size c.order.length c).insert id bf size)

/-! ## What stays in the cache -/

/-- Every item of `c'` is an item of `c`; store and bound are the same. -/
structure Shrinks (c c' : BloomCache libs) : Prop where
  store : c'.store = c.store
  items : ∀ id elem, c'.items.get id = some elem → c.items.get id = some elem

theorem Shrinks.refl (c : BloomCache libs) : Shrinks c c := ⟨rfl, fun _ _ h => h⟩

theorem Shrinks.trans {a b c : BloomCache libs} (h₁ : Shrinks a b) (h₂ : Shrinks b c) :
    Shrinks a c :=
  ⟨h₂.store.trans h₁.store, fun id elem h => h₁.items id elem (h₂.items id elem h)⟩

theorem shrinks_removeElem (c : BloomCache libs) (elem : Elem libs) :
    Shrinks c (c.removeElem elem) := by
  refine ⟨rfl, fun id x h => ?_⟩
  simp only [removeElem, OrdMap.get_erase] at h
  split_ifs at h
  exact h

theorem shrinks_evictUntil (size : Int64) (n : Nat) (c : BloomCache libs) :
    Shrinks c (evictUntil size n c) := by
  induction n generalizing c with
  | zero => exact Shrinks.refl c
  | succ n ih =>
      rw [evictUntil]
      split_ifs with h
      · refine Shrinks.trans ?_ (ih _)
        unfold evictOldest
        cases c.order.getLast? with
        | none => exact Shrinks.refl c
        | some back => exact shrinks_removeElem c back
      · exact Shrinks.refl c

theorem shrinks_moveToFront (c : BloomCache libs) (elem : Elem libs) :
    Shrinks c (c.moveToFront elem) := by
  unfold moveToFront
  split_ifs
  · exact ⟨rfl, fun _ _ h => h⟩
  · exact Shrinks.refl c

/-! ## Tests -/

/-- The filter of a block, as its bloom file in `w` has it. -/
def InFile (w : World) (store : LocalStore) (id : BlockID) (f : libs.Filter) : Prop :=
  ∃ data, w.fs (store.bloomPath id) = some data ∧ deserializeBloom libs data = .ok f

/-- Every item of `c'` is an item of `c`, or is one of `ids` with the filter of its bloom
file. -/
structure Loads (w : World) (ids : List BlockID) (c c' : BloomCache libs) : Prop where
  store : c'.store = c.store
  items : ∀ id elem, c'.items.get id = some elem →
    c.items.get id = some elem ∨ id ∈ ids ∧ InFile w c.store id elem.value.filter

variable {w w' : World} {ws : List World} {ids : List BlockID} {c c' : BloomCache libs}
  {id : BlockID} {keyHash : UInt64}

theorem Shrinks.loads (h : Shrinks c c') : Loads w ids c c' :=
  ⟨h.store, fun id elem hi => Or.inl (h.items id elem hi)⟩

theorem Loads.trans {a b c : BloomCache libs} (h₁ : Loads w ids a b) (h₂ : Loads w ids b c) :
    Loads w ids a c := by
  refine ⟨h₂.store.trans h₁.store, fun id elem hi => ?_⟩
  rcases h₂.items id elem hi with hb | ⟨hid, hf⟩
  · exact h₁.items id elem hb
  · rw [h₁.store] at hf
    exact Or.inr ⟨hid, hf⟩

theorem Loads.mono {ids' : List BlockID} (h : Loads w ids c c') (hsub : ∀ x ∈ ids, x ∈ ids') :
    Loads w ids' c c' := by
  refine ⟨h.store, fun id elem hi => ?_⟩
  rcases h.items id elem hi with hold | ⟨hid, hf⟩
  · exact Or.inl hold
  · exact Or.inr ⟨hsub id hid, hf⟩

theorem loads_insert {f : libs.Filter} {size : Int64} (hf : InFile w c.store id f)
    (hs : Shrinks c c') : Loads w [id] c (c'.insert id f size) := by
  refine ⟨hs.store, fun x elem hi => ?_⟩
  simp only [insert, OrdMap.get_set] at hi
  split_ifs at hi with hx
  · cases hi
    rw [hx]
    exact Or.inr ⟨List.mem_cons_self, hf⟩
  · exact Or.inl (hs.items x elem hi)

theorem calls_test (c : BloomCache libs) (id : BlockID) (keyHash : UInt64) :
    Calls (S := machine) Op.Reads (c.test id keyHash) := by
  unfold test
  cases c.items.get id with
  | some elem => exact calls_pure _
  | none =>
      refine calls_bind ?_ fun r => ?_
      · exact calls_bindE (calls_call.mpr trivial) fun _ =>
          calls_bindE (calls_pure _) fun _ => calls_pure _
      · cases r with
        | error e => exact calls_pure _
        | ok p => exact calls_pure _

theorem runs_loadFromDisk_ok {store : LocalStore} {f : libs.Filter} {size : Int64}
    (h : Runs sem (loadFromDisk libs store id).run w ws (.ok (f, size)) w') :
    ∃ data, w.fs (store.bloomPath id) = some data ∧ deserializeBloom libs data = .ok f ∧
      size = Int64.ofNat data.length := by
  obtain ⟨data, w₁, _, _, -, hread, hk⟩ := runs_bindE_ok.mp h
  obtain ⟨rfl, hdata⟩ := runs_osReadFile hread
  obtain ⟨bf, w₂, _, _, -, hbf, hpure⟩ := runs_bindE_ok.mp hk
  obtain ⟨-, hbf, rfl⟩ := hbf
  obtain ⟨-, hres, -⟩ := hpure
  cases hres
  exact ⟨data, hdata data rfl, hbf.symm, rfl⟩

/-- **The ways a test can go**: a hit moves the element to the front; a load that
fails leaves the cache alone; one that succeeds makes room for the new filter. -/
theorem runs_test_cases {r : Except Err Bool} (h : Runs sem (c.test id keyHash) w ws (r, c') w') :
    (∃ elem, c.items.get id = some elem ∧ r = .ok (testHash libs elem.value.filter keyHash) ∧
      c' = c.moveToFront elem) ∨
    c.items.get id = none ∧ ∃ ws' w₁,
      ((∃ e, Runs sem (loadFromDisk libs c.store id).run w ws' (.error e) w₁ ∧
        r = (if e = .notExist then .ok false else .error e) ∧ c' = c) ∨
      ∃ f size, Runs sem (loadFromDisk libs c.store id).run w ws' (.ok (f, size)) w₁ ∧
        r = .ok (testHash libs f keyHash) ∧
        c' = (evictUntil size c.order.length c).insert id f size) := by
  unfold test at h
  cases hitem : c.items.get id with
  | some elem =>
      rw [hitem] at h
      obtain ⟨-, he, -⟩ := h
      cases he
      exact Or.inl ⟨elem, rfl, rfl, rfl⟩
  | none =>
      rw [hitem] at h
      obtain ⟨res, w₁, ws', _, -, hload, hk⟩ := runs_bind.mp h
      refine Or.inr ⟨rfl, ws', w₁, ?_⟩
      cases res with
      | error e =>
          obtain ⟨-, he, -⟩ := hk
          cases he
          exact Or.inl ⟨e, hload, rfl, rfl⟩
      | ok p =>
          obtain ⟨-, he, -⟩ := hk
          cases he
          exact Or.inr ⟨p.1, p.2, hload, rfl, rfl⟩

/-- **What a test leaves in the cache**, also if it fails. -/
theorem runs_test {r : Except Err Bool} (h : Runs sem (c.test id keyHash) w ws (r, c') w') :
    Loads w [id] c c' := by
  rcases runs_test_cases h with ⟨elem, -, -, rfl⟩ |
    ⟨-, _, _, ⟨e, -, -, rfl⟩ | ⟨f, size, hload, -, rfl⟩⟩
  · exact (shrinks_moveToFront c elem).loads
  · exact (Shrinks.refl _).loads
  · obtain ⟨data, hdata, hf, -⟩ := runs_loadFromDisk_ok hload
    exact loads_insert ⟨data, hdata, hf⟩ (shrinks_evictUntil _ _ c)

/-- A load that finds no file means that there is no filter. -/
theorem runs_loadFromDisk_notExist {store : LocalStore}
    (h : Runs sem (loadFromDisk libs store id).run w ws (.error .notExist) w') (f : libs.Filter) :
    ¬ InFile w store id f := by
  intro hf
  obtain ⟨data, hdata, hf⟩ := hf
  rcases runs_bindE.mp h with ⟨e, he, hread⟩ | ⟨data', w₁, _, _, -, hread, hk⟩
  · cases he
    rcases (runs_call.mp hread).1 with hs | ⟨hs, -⟩
    · simp only [Op.exec, hdata] at hs
      cases hs
    · cases hs
  · obtain ⟨rfl, hdata'⟩ := runs_osReadFile hread
    have hd : data' = data := Option.some.inj ((hdata' data' rfl).symm.trans hdata)
    rcases runs_bindE.mp hk with ⟨e, he, hpure⟩ | ⟨_, _, _, _, -, -, -, he, -⟩
    · obtain ⟨-, hres, -⟩ := hpure
      rw [hd, hf] at hres
      cases hres
    · cases he

/-- **What a test can answer**: what the cached filter says, an error, no if
there is no filter in the file, or what the filter in the file says. -/
theorem runs_test_result {r : Except Err Bool}
    (h : Runs sem (c.test id keyHash) w ws (r, c') w') :
    (∃ elem, c.items.get id = some elem ∧ r = .ok (testHash libs elem.value.filter keyHash)) ∨
    c.items.get id = none ∧ ((∃ e, r = .error e) ∨
      (r = .ok false ∧ ∀ f : libs.Filter, ¬ InFile w c.store id f) ∨
      ∃ f, InFile w c.store id f ∧ r = .ok (testHash libs f keyHash)) := by
  rcases runs_test_cases h with ⟨elem, hitem, hr, -⟩ |
    ⟨hitem, _, _, ⟨e, hload, rfl, -⟩ | ⟨f, size, hload, hr, -⟩⟩
  · exact Or.inl ⟨elem, hitem, hr⟩
  · refine Or.inr ⟨hitem, ?_⟩
    by_cases hne : e = .notExist
    · subst hne
      exact Or.inr (Or.inl ⟨rfl, runs_loadFromDisk_notExist hload⟩)
    · rw [if_neg hne]
      exact Or.inl ⟨e, rfl⟩
  · obtain ⟨data, hdata, hf, -⟩ := runs_loadFromDisk_ok hload
    exact Or.inr ⟨hitem, Or.inr (Or.inr ⟨f, ⟨data, hdata, hf⟩, hr⟩)⟩

/-- What a test answers if it has to look at the file. -/
def testFile (libs : Libs) (w : World) (store : LocalStore) (id : BlockID) (keyHash : UInt64) :
    Except Err Bool :=
  match w.fs (store.bloomPath id) with
  | none => .ok false
  | some data =>
      match deserializeBloom libs data with
      | .error e => if e = .notExist then .ok false else .error e
      | .ok f => .ok (testHash libs f keyHash)

theorem InFile.testFile {store : LocalStore} {f : libs.Filter} (h : InFile w store id f) :
    testFile libs w store id keyHash = .ok (testHash libs f keyHash) := by
  obtain ⟨data, hdata, hf⟩ := h
  simp only [BloomCache.testFile, hdata, hf]

/-- Every cached filter is the one in its bloom file. -/
def Agrees (w : World) (c : BloomCache libs) : Prop :=
  ∀ id elem, c.items.get id = some elem → InFile w c.store id elem.value.filter

/-- Every cached filter is the one in its bloom file, or belongs to a block
that was deleted. -/
def Current (w : World) (c : BloomCache libs) : Prop :=
  ∀ id elem, c.items.get id = some elem → InFile w c.store id elem.value.filter ∨
    w.fs (c.store.bloomPath id) = none ∧ w.db.view.get (blockKey id) = none

theorem Agrees.current (h : Agrees w c) : Current w c := fun id elem hi => Or.inl (h id elem hi)

theorem agrees_new (w : World) (store : LocalStore) (maxMem : Int64) :
    Agrees w (newBloomCache store maxMem : BloomCache libs) :=
  fun _ _ h => (by cases h)

theorem Loads.agrees (h : Loads w ids c c') (ha : Agrees w c) : Agrees w c' := by
  intro id elem hi
  rw [h.store]
  rcases h.items id elem hi with hold | ⟨-, hf⟩
  · exact ha id elem hold
  · exact hf

theorem Loads.current (h : Loads w ids c c') (ha : Current w c) : Current w c' := by
  intro id elem hi
  rw [h.store]
  rcases h.items id elem hi with hold | ⟨-, hf⟩
  · exact ha id elem hold
  · exact Or.inl hf

/-- What an error-free load returns. -/
def loadIn (libs : Libs) (w : World) (store : LocalStore) (id : BlockID) :
    Except Err (libs.Filter × Int64) :=
  match w.fs (store.bloomPath id) with
  | none => .error .notExist
  | some data =>
      match deserializeBloom libs data with
      | .error e => .error e
      | .ok f => .ok (f, Int64.ofNat data.length)

theorem exec_loadFromDisk (w : World) (store : LocalStore) (id : BlockID) :
    (loadFromDisk libs store id).run.exec w = (loadIn libs w store id, w) := by
  unfold loadIn
  cases hfile : w.fs (store.bloomPath id) with
  | none => exact exec_bind_of (exec_osReadFile_none hfile)
  | some data =>
      refine (exec_bindE_of (exec_osReadFile hfile)).trans ?_
      cases hf : deserializeBloom libs data with
      | error e =>
          simp only [hf]
          rfl
      | ok f =>
          simp only [hf]
          rfl

/-- A test of a filter that is not cached looks at the file. -/
theorem exec_test_miss (hitem : c.items.get id = none) (keyHash : UInt64) :
    ∃ c', (c.test id keyHash).exec w = ((testFile libs w c.store id keyHash, c'), w) := by
  have hload := @exec_loadFromDisk libs w c.store id
  unfold loadIn at hload
  unfold test testFile
  rw [hitem]
  cases hfile : w.fs (c.store.bloomPath id) with
  | none =>
      simp only [hfile] at hload
      exact ⟨_, exec_bind_of hload⟩
  | some data =>
      cases hf : deserializeBloom libs data with
      | error e =>
          simp only [hfile, hf] at hload ⊢
          exact ⟨_, exec_bind_of hload⟩
      | ok f =>
          simp only [hfile, hf] at hload ⊢
          exact ⟨_, exec_bind_of hload⟩

theorem exec_test_hit {elem : Elem libs} (hitem : c.items.get id = some elem) (keyHash : UInt64) :
    ∃ c', (c.test id keyHash).exec w = ((.ok (testHash libs elem.value.filter keyHash), c'), w) := by
  unfold test
  rw [hitem]
  exact ⟨_, rfl⟩

theorem loads_of_exec_test {r : Except Err Bool} {keyHash : UInt64}
    (h : (c.test id keyHash).exec w = ((r, c'), w)) : Loads w [id] c c' := by
  have hrun := runs_procExec (c.test id keyHash) w
  rw [h] at hrun
  exact runs_test hrun

/-- **An error-free test answers like the bloom file**, if the cached filters
are current. Only for a block that was deleted it may say yes instead of no. -/
theorem exec_test (ha : Current w c) (id : BlockID) (keyHash : UInt64) :
    ∃ r c', (c.test id keyHash).exec w = ((r, c'), w) ∧ Loads w [id] c c' ∧
      (r = testFile libs w c.store id keyHash ∨
        testFile libs w c.store id keyHash = .ok false ∧
          w.db.view.get (blockKey id) = none ∧ ∃ b, r = .ok b) := by
  cases hitem : c.items.get id with
  | none =>
      obtain ⟨c', he⟩ := @exec_test_miss libs w c id hitem keyHash
      exact ⟨_, c', he, loads_of_exec_test he, Or.inl rfl⟩
  | some elem =>
      obtain ⟨c', he⟩ := @exec_test_hit libs w c id elem hitem keyHash
      refine ⟨_, c', he, loads_of_exec_test he, ?_⟩
      rcases ha id elem hitem with hfile | ⟨hnone, hblk⟩
      · exact Or.inl hfile.testFile.symm
      · refine Or.inr ⟨?_, hblk, _, rfl⟩
        rw [testFile, hnone]

end BloomCache

end Bbdb.Index
