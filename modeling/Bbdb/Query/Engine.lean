import Bbdb.Index.BloomCache
import Bbdb.Index.SparseIndex
import Bbdb.Query.BlockReader
import Bbdb.Query.Merger

/-!
# Query — the engine

A query looks the key up in the sparse index, drops the blocks whose bloom
filter or metadata rule them out, reads the rest and merges the rows. The
blocks are read by goroutines, each storing its result at its own place: an
`Engine` has some order in which that happens, and no result depends on it.

While nothing else happens, and the cached filters agree with the files, the
outcome of a query is a function of the world (`answer`, `exec_query`).
-/

namespace Bbdb.Query

open Bbdb.Block Bbdb.Meta Bbdb.Tier Bbdb.Index
open Prog hiding pure bind

structure QueryRequest where
  partitionKey : Bytes
  /-- Without one, all event types. -/
  eventType : Option UInt8
  from_ : Time
  to_ : Time

/-- The configuration of an `Engine`. -/
structure Engine where
  tiers : Tier → Option LocalStore
  /-- The order in which the goroutines of a query get to their `n` blocks. -/
  readOrder : Nat → List Nat
  readOrder_perm : ∀ n, (readOrder n).Perm (List.range n)

/-- A block to read, and the store it is in. -/
structure BlockTask where
  id : BlockID
  store : LocalStore
  deriving DecidableEq, Repr

/-! ## The function -/

/-- One lookup for each of the event types. -/
def lookupTypes (keyHash : UInt64) (from_ to_ : Time) : List UInt8 → Go (List BlockID)
  | [] => pure []
  | et :: ets => do
      let ids ← lookup et keyHash from_ to_
      let rest ← lookupTypes keyHash from_ to_ ets
      pure (ids ++ rest)

/-- All 256 event types. -/
def allTypes : List UInt8 := (List.range 256).map UInt8.ofNat

theorem nodup_allTypes : allTypes.Nodup := by
  refine List.Nodup.map_on (fun a ha b hb hab => ?_) List.nodup_range
  have h := congrArg UInt8.toNat hab
  rw [UInt8.toNat_ofNat_of_lt' (List.mem_range.mp ha),
    UInt8.toNat_ofNat_of_lt' (List.mem_range.mp hb)] at h
  exact h

theorem mem_allTypes (et : UInt8) : et ∈ allTypes := by
  refine List.mem_map.mpr ⟨et.toNat, List.mem_range.mpr et.toNat_lt, ?_⟩
  exact UInt8.ofNat_toNat

/-- The candidate blocks. -/
def candidates (req : QueryRequest) (keyHash : UInt64) : Go (List BlockID) :=
  match req.eventType with
  | some et => lookup et keyHash req.from_ req.to_
  | none => lookupTypes keyHash req.from_ req.to_ allTypes

variable (libs : Libs)

/-- The loop over the candidates: bloom filter, metadata, tier. A block
without metadata, or on a tier that is not configured, is skipped. -/
def selectTasks (eng : Engine) (keyHash : UInt64) :
    BloomCache libs → List BlockID → Proc (Except Err (List BlockTask) × BloomCache libs)
  | c, [] => pure (.ok [], c)
  | c, id :: ids => do
      let tested ← c.test id keyHash
      match tested.1 with
      | .error e => pure (.error e, tested.2)
      | .ok false => selectTasks eng keyHash tested.2 ids
      | .ok true => do
          match ← (getBlockMeta id).run with
          | .error e =>
              if Err.is .notFound e then selectTasks eng keyHash tested.2 ids
              else pure (.error e, tested.2)
          | .ok bmeta =>
              match eng.tiers bmeta.tier with
              | none => selectTasks eng keyHash tested.2 ids
              | some store => do
                  let rest ← selectTasks eng keyHash tested.2 ids
                  pure (rest.1.map fun tasks => ⟨id, store⟩ :: tasks, rest.2)

/-- The goroutines, in the order they get to their blocks, each with the
place of its result. -/
def readTasks (keyHash : UInt64) (from_ to_ : Time) (tasks : List BlockTask) :
    List Nat → Proc (List (Nat × Except Err (List Event)))
  | [] => pure []
  | i :: is =>
      match tasks[i]? with
      | none => readTasks keyHash from_ to_ tasks is
      | some t => do
          let r ← (readBlock libs t.store t.id keyHash from_ to_).run
          let rest ← readTasks keyHash from_ to_ tasks is
          pure ((i, r) :: rest)

/-- The `results` slice of length `n`. -/
def resultsOf (n : Nat) (done : List (Nat × Except Err (List Event))) :
    List (Except Err (List Event)) :=
  (List.range n).map fun i => ((done.find? fun d => d.1 = i).map Prod.snd).getD (.ok [])

/-- The first error in the order of the results, or the non-empty slices. -/
def collectSlices : List (Except Err (List Event)) → Except Err (List (List Event))
  | [] => .ok []
  | .error e :: _ => .error e
  | .ok events :: rest => do
      let slices ← collectSlices rest
      .ok (if events.length > 0 then events :: slices else slices)

/-- `Engine.Query`, with the cache it leaves. -/
def query (eng : Engine) (c : BloomCache libs) (req : QueryRequest) :
    Proc (Except Err (List Event) × BloomCache libs) :=
  if req.partitionKey.length = 0 then
    pure (.error (.msg "PartitionKey must not be empty"), c)
  else if ¬ req.from_ < req.to_ then pure (.error (.msg "From must be before To"), c)
  else do
    let keyHash := keyHashFor libs req.partitionKey
    match ← (candidates req keyHash).run with
    | .error e => pure (.error e, c)
    | .ok blockIDs =>
        if blockIDs.length = 0 then pure (.ok [], c)
        else do
          let selected ← selectTasks libs eng keyHash c blockIDs
          match selected.1 with
          | .error e => pure (.error e, selected.2)
          | .ok tasks =>
              if tasks.length = 0 then pure (.ok [], selected.2)
              else do
                let done ← readTasks libs keyHash req.from_ req.to_ tasks
                  (eng.readOrder tasks.length)
                match collectSlices (resultsOf tasks.length done) with
                | .error e => pure (.error e, selected.2)
                | .ok slices => pure (.ok (mergeEvents slices), selected.2)

/-! ## Results of goroutines -/

/-- What the goroutines have done when they took their tasks in the order
`is`. -/
def doneOf {α : Type} (f : α → Except Err (List Event)) (tasks : List α) (is : List Nat) :
    List (Nat × Except Err (List Event)) :=
  is.filterMap fun i => tasks[i]?.map fun t => (i, f t)

theorem find?_doneOf {α : Type} (f : α → Except Err (List Event)) (tasks : List α) {is : List Nat}
    {i : Nat} (hi : i ∈ is) :
    ((doneOf f tasks is).find? fun d => d.1 = i) = tasks[i]?.map fun t => (i, f t) := by
  induction is with
  | nil => cases hi
  | cons j is ih =>
      by_cases hij : j = i
      · subst hij
        rw [doneOf, List.filterMap_cons]
        cases ht : tasks[j]? with
        | none =>
            -- no later entry has this place either
            simp only [Option.map_none]
            refine List.find?_eq_none.mpr fun d hd => ?_
            obtain ⟨k, -, hk⟩ := List.mem_filterMap.mp hd
            obtain ⟨t, hkt, rfl⟩ := Option.map_eq_some_iff.mp hk
            intro he
            have hkj : k = j := by simpa using he
            rw [hkj, ht] at hkt
            cases hkt
        | some t => simp
      · have hmem : i ∈ is := by
          rcases List.mem_cons.mp hi with h | h
          · exact absurd h.symm hij
          · exact h
        have hrest := ih hmem
        rw [doneOf] at hrest ⊢
        rw [List.filterMap_cons]
        cases ht : tasks[j]? with
        | none => simpa only [Option.map_none] using hrest
        | some t =>
            simp only [Option.map_some]
            rw [List.find?_cons_of_neg (by simpa using hij)]
            exact hrest

/-- **The results do not depend on the order of the goroutines.** -/
theorem resultsOf_doneOf {α : Type} (f : α → Except Err (List Event)) (tasks : List α)
    {is : List Nat} (his : is.Perm (List.range tasks.length)) :
    resultsOf tasks.length (doneOf f tasks is) = tasks.map f := by
  refine List.ext_getElem (by simp [resultsOf]) fun i h₁ h₂ => ?_
  have hlt : i < tasks.length := by simpa using h₂
  have hi : i ∈ is := his.mem_iff.mpr (List.mem_range.mpr hlt)
  simp only [resultsOf, List.getElem_map, List.getElem_range, find?_doneOf f tasks hi]
  simp [hlt]

theorem collectSlices_ok (l : List (List Event)) :
    collectSlices (l.map .ok) = .ok (l.filter fun s => s.length > 0) := by
  induction l with
  | nil => rfl
  | cons s l ih =>
      rw [List.map_cons, collectSlices, ih, List.filter_cons]
      simp [bind, Except.bind]

/-- What is merged are all rows: an empty slice has none. -/
theorem flatten_filter_nonempty (l : List (List Event)) :
    (l.filter fun s => s.length > 0).flatten = l.flatten := by
  induction l with
  | nil => rfl
  | cons s l ih =>
      cases s with
      | nil => simpa using ih
      | cons x s => simpa using ih

/-! ## Without interference -/

/-- What the lookups of a query find in `w`. -/
def candidatesIn (w : World) (req : QueryRequest) (keyHash : UInt64) : List BlockID :=
  match req.eventType with
  | some et => foundBlocks w et keyHash req.from_ req.to_
  | none => allTypes.flatMap fun et => foundBlocks w et keyHash req.from_ req.to_

/-- What becomes of one candidate in `w`. -/
def taskIn (eng : Engine) (store : LocalStore) (w : World) (keyHash : UInt64) (id : BlockID) :
    Except Err (Option BlockTask) :=
  match BloomCache.testFile libs w store id keyHash with
  | .error e => .error e
  | .ok false => .ok none
  | .ok true =>
      match ((getBlockMeta id).run.exec w).1 with
      | .error e => if Err.is .notFound e then .ok none else .error e
      | .ok bmeta => .ok ((eng.tiers bmeta.tier).map fun st => ⟨id, st⟩)

/-- The tasks of the candidates, or the first error. -/
def tasksIn (eng : Engine) (store : LocalStore) (w : World) (keyHash : UInt64) :
    List BlockID → Except Err (List BlockTask)
  | [] => .ok []
  | id :: ids => do
      let task ← taskIn libs eng store w keyHash id
      let tasks ← tasksIn eng store w keyHash ids
      .ok (task.toList ++ tasks)

/-- What reading a task returns in `w`. -/
def rowsIn (w : World) (keyHash : UInt64) (req : QueryRequest) (t : BlockTask) :
    Except Err (List Event) :=
  ((readBlock libs t.store t.id keyHash req.from_ req.to_).run.exec w).1

/-- **The answer to a query in `w`.** -/
def answer (eng : Engine) (store : LocalStore) (w : World) (req : QueryRequest) :
    Except Err (List Event) :=
  if req.partitionKey.length = 0 then .error (.msg "PartitionKey must not be empty")
  else if ¬ req.from_ < req.to_ then .error (.msg "From must be before To")
  else do
    let keyHash := keyHashFor libs req.partitionKey
    let tasks ← tasksIn libs eng store w keyHash (candidatesIn w req keyHash)
    let slices ← collectSlices (tasks.map (rowsIn libs w keyHash req))
    .ok (mergeEvents slices)

variable {libs} {eng : Engine} {w w' : World} {ws : List World} {c c' : BloomCache libs}
  {req : QueryRequest} {keyHash : UInt64}

/-! ### Lookups -/

theorem mem_candidatesIn {id : BlockID} :
    id ∈ candidatesIn w req keyHash ↔ ∃ et, (req.eventType = none ∨ req.eventType = some et) ∧
      id ∈ foundBlocks w et keyHash req.from_ req.to_ := by
  unfold candidatesIn
  cases req.eventType with
  | some x => simp
  | none => simp [List.mem_flatMap, mem_allTypes]

theorem exec_lookupTypes (w : World) (from_ to_ : Time) (ets : List UInt8) :
    (lookupTypes keyHash from_ to_ ets).run.exec w =
      (.ok (ets.flatMap fun et => foundBlocks w et keyHash from_ to_), w) := by
  induction ets with
  | nil => rfl
  | cons et ets ih =>
      refine (exec_bindE_of (exec_lookup w et keyHash from_ to_)).trans ?_
      exact exec_bindE_of ih

theorem exec_candidates (w : World) (req : QueryRequest) (keyHash : UInt64) :
    (candidates req keyHash).run.exec w = (.ok (candidatesIn w req keyHash), w) := by
  unfold candidates candidatesIn
  cases req.eventType with
  | some et => exact exec_lookup w et keyHash req.from_ req.to_
  | none => exact exec_lookupTypes w req.from_ req.to_ allTypes

theorem calls_lookupTypes (from_ to_ : Time) (ets : List UInt8) :
    Calls (S := machine) Op.Reads (lookupTypes keyHash from_ to_ ets).run := by
  induction ets with
  | nil => exact calls_pure _
  | cons et ets ih =>
      exact calls_bindE (calls_lookup et keyHash from_ to_) fun _ =>
        calls_bindE ih fun _ => calls_pure _

theorem calls_candidates (req : QueryRequest) (keyHash : UInt64) :
    Calls (S := machine) Op.Reads (candidates req keyHash).run := by
  unfold candidates
  cases req.eventType with
  | some et => exact calls_lookup et keyHash req.from_ req.to_
  | none => exact calls_lookupTypes req.from_ req.to_ allTypes

theorem runs_lookupTypes {from_ to_ : Time} {ets : List UInt8} {ids : List BlockID}
    (h : Runs sem (lookupTypes keyHash from_ to_ ets).run w ws (.ok ids) w') :
    ids = ets.flatMap fun et => foundBlocks w et keyHash from_ to_ := by
  induction ets generalizing w ws w' ids with
  | nil =>
      obtain ⟨-, hids, -⟩ := h
      cases hids
      rfl
  | cons et ets ih =>
      obtain ⟨found, w₁, _, _, -, hfound, hk⟩ := runs_bindE_ok.mp h
      obtain rfl := runs_reads (calls_lookup et keyHash from_ to_) hfound
      obtain ⟨rest, w₂, _, _, -, hrest, hpure⟩ := runs_bindE_ok.mp hk
      obtain ⟨-, hids, -⟩ := hpure
      cases hids
      rw [List.flatMap_cons, runs_lookup hfound, ih hrest]

/-- Lookups that succeed find the candidates. -/
theorem runs_candidates {ids : List BlockID}
    (h : Runs sem (candidates req keyHash).run w ws (.ok ids) w') :
    ids = candidatesIn w req keyHash := by
  unfold candidates at h
  unfold candidatesIn
  cases het : req.eventType with
  | some et =>
      rw [het] at h
      exact runs_lookup h
  | none =>
      rw [het] at h
      exact runs_lookupTypes h

/-! ### Selection -/

theorem calls_selectTasks (eng : Engine) (keyHash : UInt64) (ids : List BlockID) :
    ∀ c : BloomCache libs, Calls (S := machine) Op.Reads (selectTasks libs eng keyHash c ids) := by
  induction ids with
  | nil => exact fun _ => calls_pure _
  | cons id ids ih =>
      intro c
      refine calls_bind (BloomCache.calls_test c id keyHash) fun tested => ?_
      cases tested.1 with
      | error e => exact calls_pure _
      | ok b =>
          cases b with
          | false => exact ih _
          | true =>
              refine calls_bind (calls_getBlockMeta (fun _ => trivial) id) fun r => ?_
              cases r with
              | error e =>
                  dsimp only
                  split_ifs
                  · exact ih _
                  · exact calls_pure _
              | ok bmeta =>
                  dsimp only
                  cases eng.tiers bmeta.tier with
                  | none => exact ih _
                  | some store => exact calls_bind (ih _) fun _ => calls_pure _

/-- **What the loop over the candidates can do with the first one**: test it,
and then fail, or go on with the rest and perhaps put a task in front. -/
theorem runs_selectTasks_cons {res : Except Err (List BlockTask)} {id : BlockID}
    {ids : List BlockID}
    (h : Runs sem (selectTasks libs eng keyHash c (id :: ids)) w ws (res, c') w') :
    ∃ tested c₁ ws₁, Runs sem (c.test id keyHash) w ws₁ (tested, c₁) w ∧
      ((∃ e, res = .error e ∧ c' = c₁) ∨
        ∃ ws₂ rest, Runs sem (selectTasks libs eng keyHash c₁ ids) w ws₂ (rest, c') w' ∧
          (res = rest ∨ ∃ store, res = rest.map fun tasks => ⟨id, store⟩ :: tasks)) := by
  obtain ⟨⟨tested, c₁⟩, w₁, ws₁, ws₂, -, htest, hk⟩ := runs_bind.mp h
  obtain rfl := runs_reads (BloomCache.calls_test c id keyHash) htest
  refine ⟨tested, c₁, ws₁, htest, ?_⟩
  cases tested with
  | error e =>
      obtain ⟨-, he, -⟩ := hk
      obtain ⟨rfl, rfl⟩ := Prod.mk.inj he
      exact Or.inl ⟨e, rfl, rfl⟩
  | ok b =>
      cases b with
      | false => exact Or.inr ⟨ws₂, res, hk, Or.inl rfl⟩
      | true =>
          obtain ⟨r, w₂, _, ws₃, -, hmeta, hk₂⟩ := runs_bind.mp hk
          obtain rfl := runs_reads (calls_getBlockMeta (fun _ => trivial) id) hmeta
          cases r with
          | error e =>
              dsimp only at hk₂
              split_ifs at hk₂
              · exact Or.inr ⟨ws₃, res, hk₂, Or.inl rfl⟩
              · obtain ⟨-, he, -⟩ := hk₂
                obtain ⟨rfl, rfl⟩ := Prod.mk.inj he
                exact Or.inl ⟨e, rfl, rfl⟩
          | ok bmeta =>
              dsimp only at hk₂
              cases ht : eng.tiers bmeta.tier with
              | none =>
                  simp only [ht] at hk₂
                  exact Or.inr ⟨ws₃, res, hk₂, Or.inl rfl⟩
              | some store =>
                  simp only [ht] at hk₂
                  obtain ⟨⟨rest, c₂⟩, w₃, ws₄, _, -, hloop, -, he, rfl⟩ := runs_bind.mp hk₂
                  obtain ⟨rfl, rfl⟩ := Prod.mk.inj he
                  exact Or.inr ⟨ws₄, rest, hloop, Or.inr ⟨store, rfl⟩⟩

/-- What the loop over the candidates leaves in the cache, also if it fails. -/
theorem runs_selectTasks {res : Except Err (List BlockTask)} (ids : List BlockID) :
    ∀ {c : BloomCache libs} {ws : List World},
      Runs sem (selectTasks libs eng keyHash c ids) w ws (res, c') w' →
        BloomCache.Loads w ids c c' := by
  induction ids generalizing res with
  | nil =>
      intro c ws h
      obtain ⟨-, he, -⟩ := h
      cases he
      exact (BloomCache.Shrinks.refl _).loads
  | cons id ids ih =>
      intro c ws h
      obtain ⟨tested, c₁, ws₁, htest, hk⟩ := runs_selectTasks_cons h
      have hfirst : BloomCache.Loads w (id :: ids) c c₁ :=
        (BloomCache.runs_test htest).mono (by simp)
      rcases hk with ⟨e, -, rfl⟩ | ⟨ws₂, rest, hrest, -⟩
      · exact hfirst
      · exact hfirst.trans ((ih hrest).mono fun x hx => List.mem_cons_of_mem _ hx)

/-! ### The whole query -/

theorem calls_readBlock (store : LocalStore) (id : BlockID) (from_ to_ : Time) :
    Calls (S := machine) Op.Reads (readBlock libs store id keyHash from_ to_).run :=
  calls_bindE (calls_orElse (calls_call.mpr trivial) (by simp)) fun _ => calls_pure _

theorem calls_readTasks (from_ to_ : Time) (tasks : List BlockTask) (is : List Nat) :
    Calls (S := machine) Op.Reads (readTasks libs keyHash from_ to_ tasks is) := by
  induction is with
  | nil => exact calls_pure _
  | cons i is ih =>
      unfold readTasks
      cases tasks[i]? with
      | none => exact ih
      | some t =>
          exact calls_bind (calls_readBlock t.store t.id from_ to_) fun _ =>
            calls_bind ih fun _ => calls_pure _

/-- **A query only reads.** -/
theorem calls_query (eng : Engine) (c : BloomCache libs) (req : QueryRequest) :
    Calls (S := machine) Op.Reads (query libs eng c req) := by
  rw [query]
  by_cases hkey : req.partitionKey.length = 0
  · rw [if_pos hkey]
    exact calls_pure _
  by_cases horder : req.from_ < req.to_
  case neg =>
    rw [if_neg hkey, if_pos horder]
    exact calls_pure _
  rw [if_neg hkey, if_neg (not_not.mpr horder)]
  refine calls_bind (calls_candidates req _) fun r => ?_
  cases r with
  | error e => exact calls_pure _
  | ok ids =>
      dsimp only
      split_ifs
      · exact calls_pure _
      refine calls_bind (calls_selectTasks eng _ ids c) fun selected => ?_
      cases selected.1 with
      | error e => exact calls_pure _
      | ok tasks =>
          dsimp only
          split_ifs
          · exact calls_pure _
          refine calls_bind (calls_readTasks req.from_ req.to_ tasks _) fun done => ?_
          cases collectSlices (resultsOf tasks.length done) with
          | error e => exact calls_pure _
          | ok slices => exact calls_pure _

/-- **What a query can do**: return before it selects blocks, and then no
rows, or select blocks from the candidates, read them and merge. -/
theorem runs_query_cases {res : Except Err (List Event)}
    (h : Runs sem (query libs eng c req) w ws (res, c') w') :
    (c' = c ∧ ∀ out, res = .ok out → out = []) ∨
      ∃ selected ws₁, Runs sem (selectTasks libs eng (keyHashFor libs req.partitionKey) c
          (candidatesIn w req (keyHashFor libs req.partitionKey))) w ws₁ (selected, c') w ∧
        ∀ out, res = .ok out → out = [] ∨ ∃ tasks ws₂ done slices, selected = .ok tasks ∧
          Runs sem (readTasks libs (keyHashFor libs req.partitionKey) req.from_ req.to_ tasks
            (eng.readOrder tasks.length)) w ws₂ done w ∧
          collectSlices (resultsOf tasks.length done) = .ok slices ∧ out = mergeEvents slices := by
  rw [query] at h
  by_cases hkey : req.partitionKey.length = 0
  · rw [if_pos hkey] at h
    obtain ⟨-, he, -⟩ := h
    cases he
    exact Or.inl ⟨rfl, fun out hout => by cases hout⟩
  by_cases horder : req.from_ < req.to_
  case neg =>
    rw [if_neg hkey, if_pos horder] at h
    obtain ⟨-, he, -⟩ := h
    cases he
    exact Or.inl ⟨rfl, fun out hout => by cases hout⟩
  rw [if_neg hkey, if_neg (not_not.mpr horder)] at h
  obtain ⟨r, w₁, _, _, -, hcand, hk⟩ := runs_bind.mp h
  obtain rfl := runs_reads (calls_candidates req _) hcand
  cases r with
  | error e =>
      obtain ⟨-, he, -⟩ := hk
      cases he
      exact Or.inl ⟨rfl, fun out hout => by cases hout⟩
  | ok ids =>
      obtain rfl := runs_candidates hcand
      dsimp only at hk
      split_ifs at hk
      · obtain ⟨-, he, -⟩ := hk
        cases he
        exact Or.inl ⟨rfl, fun out hout => by cases hout; rfl⟩
      obtain ⟨⟨selected, c₁⟩, w₂, ws₁, _, -, hsel, hk₂⟩ := runs_bind.mp hk
      obtain rfl := runs_reads (calls_selectTasks eng _ _ c) hsel
      cases selected with
      | error e =>
          obtain ⟨-, he, -⟩ := hk₂
          cases he
          exact Or.inr ⟨_, ws₁, hsel, fun out hout => by cases hout⟩
      | ok tasks =>
          dsimp only at hk₂
          split_ifs at hk₂
          · obtain ⟨-, he, -⟩ := hk₂
            cases he
            exact Or.inr ⟨_, ws₁, hsel, fun out hout => by cases hout; exact Or.inl rfl⟩
          obtain ⟨done, w₃, ws₂, _, -, hdone, hk₃⟩ := runs_bind.mp hk₂
          obtain rfl := runs_reads (calls_readTasks req.from_ req.to_ tasks _) hdone
          cases hslices : collectSlices (resultsOf tasks.length done) with
          | error e =>
              simp only [hslices] at hk₃
              obtain ⟨-, he, -⟩ := hk₃
              cases he
              exact Or.inr ⟨_, ws₁, hsel, fun out hout => by cases hout⟩
          | ok slices =>
              simp only [hslices] at hk₃
              obtain ⟨-, he, -⟩ := hk₃
              cases he
              refine Or.inr ⟨_, ws₁, hsel, fun out hout => Or.inr ?_⟩
              cases hout
              exact ⟨tasks, ws₂, done, slices, rfl, hdone, hslices, rfl⟩

/-- **What a query leaves in the cache**, also if it fails: filters of
blocks that the index names. -/
theorem runs_query {res : Except Err (List Event)}
    (h : Runs sem (query libs eng c req) w ws (res, c') w') :
    w' = w ∧ BloomCache.Loads w (candidatesIn w req (keyHashFor libs req.partitionKey)) c c' := by
  refine ⟨runs_reads (calls_query eng c req) h, ?_⟩
  rcases runs_query_cases h with ⟨rfl, -⟩ | ⟨selected, ws₁, hsel, -⟩
  · exact (BloomCache.Shrinks.refl _).loads
  · exact runs_selectTasks _ hsel

/-! ### Where the rows come from -/

/-- The tasks are candidates. -/
theorem id_mem_of_selectTasks {tasks : List BlockTask} (ids : List BlockID) :
    ∀ {c : BloomCache libs} {ws : List World},
      Runs sem (selectTasks libs eng keyHash c ids) w ws (.ok tasks, c') w' →
        ∀ t ∈ tasks, t.id ∈ ids := by
  induction ids generalizing tasks with
  | nil =>
      intro c ws h t ht
      obtain ⟨-, he, -⟩ := h
      cases he
      cases ht
  | cons id ids ih =>
      intro c ws h t ht
      obtain ⟨tested, c₁, ws₁, -, hk⟩ := runs_selectTasks_cons h
      rcases hk with ⟨e, he, -⟩ | ⟨ws₂, rest, hrest, hres⟩
      · cases he
      cases rest with
      | error e => rcases hres with he | ⟨store, he⟩ <;> cases he
      | ok rest =>
          rcases hres with he | ⟨store, he⟩
          · cases he
            exact List.mem_cons_of_mem _ (ih hrest t ht)
          · cases he
            rcases List.mem_cons.mp ht with rfl | ht
            · exact List.mem_cons_self
            · exact List.mem_cons_of_mem _ (ih hrest t ht)

/-- The rows are what a read of the block's file returns. -/
def ReadFrom (libs : Libs) (w : World) (keyHash : UInt64) (from_ to_ : Time) (store : LocalStore)
    (id : BlockID) (rows : List Event) : Prop :=
  ∃ file, w.fs (store.blockPath id) = some file ∧
    readRows libs id file keyHash (Int64.ofInt from_) (Int64.ofInt to_) = .ok rows

theorem runs_readBlock_ok {store : LocalStore} {id : BlockID} {from_ to_ : Time}
    {rows : List Event}
    (h : Runs sem (readBlock libs store id keyHash from_ to_).run w ws (.ok rows) w') :
    ReadFrom libs w keyHash from_ to_ store id rows := by
  obtain ⟨file, w₁, _, _, -, hopen, hpure⟩ := runs_bindE_ok.mp h
  obtain ⟨-, hrows, -⟩ := hpure
  exact ⟨file, (runs_osReadFile (runs_orElse_ok.mp hopen)).2 file rfl, hrows.symm⟩

/-- What the goroutines that succeed return. -/
theorem runs_readTasks {from_ to_ : Time} {tasks : List BlockTask} {is : List Nat}
    {done : List (Nat × Except Err (List Event))}
    (h : Runs sem (readTasks libs keyHash from_ to_ tasks is) w ws done w') :
    ∀ i rows, (i, .ok rows) ∈ done →
      ∃ t ∈ tasks, ReadFrom libs w keyHash from_ to_ t.store t.id rows := by
  induction is generalizing w ws done w' with
  | nil =>
      obtain ⟨-, rfl, -⟩ := h
      intro i rows hmem
      cases hmem
  | cons j is ih =>
      rw [readTasks] at h
      cases ht : tasks[j]? with
      | none =>
          simp only [ht] at h
          exact ih h
      | some t =>
          simp only [ht] at h
          obtain ⟨r, w₁, _, _, -, hread, hk⟩ := runs_bind.mp h
          obtain rfl := runs_reads (calls_readBlock t.store t.id from_ to_) hread
          obtain ⟨rest, w₂, _, _, -, hrest, hpure⟩ := runs_bind.mp hk
          obtain ⟨-, rfl, -⟩ := hpure
          intro i rows hmem
          rcases List.mem_cons.mp hmem with he | hmem
          · cases he
            exact ⟨t, List.mem_of_getElem? ht, runs_readBlock_ok hread⟩
          · exact ih hrest i rows hmem

theorem mem_of_collectSlices {results : List (Except Err (List Event))} {slices : List (List Event)}
    (h : collectSlices results = .ok slices) : ∀ s ∈ slices, .ok s ∈ results := by
  induction results generalizing slices with
  | nil =>
      cases h
      intro s hs
      cases hs
  | cons r results ih =>
      cases r with
      | error e => cases h
      | ok events =>
          rw [collectSlices] at h
          cases hrest : collectSlices results with
          | error e =>
              rw [hrest] at h
              cases h
          | ok rest =>
              rw [hrest] at h
              cases h
              intro s hs
              split_ifs at hs
              · rcases List.mem_cons.mp hs with rfl | hs
                · exact List.mem_cons_self
                · exact List.mem_cons_of_mem _ (ih hrest s hs)
              · exact List.mem_cons_of_mem _ (ih hrest s hs)

theorem mem_of_resultsOf {n : Nat} {done : List (Nat × Except Err (List Event))}
    {r : Except Err (List Event)} (h : r ∈ resultsOf n done) : r = .ok [] ∨ ∃ i, (i, r) ∈ done := by
  obtain ⟨i, -, hi⟩ := List.mem_map.mp h
  cases hf : done.find? fun d => d.1 = i with
  | none =>
      rw [hf] at hi
      exact Or.inl hi.symm
  | some d =>
      rw [hf] at hi
      refine Or.inr ⟨d.1, ?_⟩
      rw [← hi]
      exact List.mem_of_find?_eq_some hf

/-- **Every row a query returns was read from the block file of a candidate**,
whatever else went wrong. -/
theorem mem_of_runs_query {out : List Event} {e : Event}
    (h : Runs sem (query libs eng c req) w ws (.ok out, c') w') (he : e ∈ out) :
    ∃ id ∈ candidatesIn w req (keyHashFor libs req.partitionKey), ∃ store rows,
      ReadFrom libs w (keyHashFor libs req.partitionKey) req.from_ req.to_ store id rows ∧
        e ∈ rows := by
  rcases runs_query_cases h with ⟨-, hnone⟩ | ⟨selected, ws₁, hsel, hread⟩
  · rw [hnone out rfl] at he
    cases he
  rcases hread out rfl with rfl | ⟨tasks, ws₂, done, slices, rfl, hdone, hslices, rfl⟩
  · cases he
  obtain ⟨rows, hrows, hmem⟩ := List.mem_flatten.mp ((mergeEvents_perm slices).mem_iff.mp he)
  rcases mem_of_resultsOf (mem_of_collectSlices hslices rows hrows) with hnil | ⟨i, hi⟩
  · cases hnil
    cases hmem
  · obtain ⟨t, ht, hfrom⟩ := runs_readTasks hdone i rows hi
    exact ⟨t.id, id_mem_of_selectTasks _ hsel t ht, t.store, rows, hfrom, hmem⟩

/-! ### Error-free queries -/

/-- Reading changes nothing. -/
theorem exec_of_calls {α : Type} {p : Proc α} (h : Calls (S := machine) Op.Reads p) (w : World) :
    p.exec w = ((p.exec w).1, w) :=
  Prod.ext rfl (runs_reads h (runs_procExec p w))

/-- The result of a sequence is that of its second part. -/
theorem result_bind_of {α β γ : Type} {p : Proc α} {f : α → Proc (β × γ)} {a : α}
    (h : p.exec w = (a, w')) : ((p >>= f).exec w).1.1 = ((f a).exec w').1.1 :=
  congrArg (fun r : (β × γ) × World => r.1.1) (exec_bind_of h)

/-- A candidate that is skipped does not count. -/
theorem tasksIn_skip {store : LocalStore} {id : BlockID} {ids : List BlockID}
    (h : taskIn libs eng store w keyHash id = .ok none) :
    tasksIn libs eng store w keyHash (id :: ids) = tasksIn libs eng store w keyHash ids := by
  rw [tasksIn, h]
  cases tasksIn libs eng store w keyHash ids with
  | error e => rfl
  | ok tasks => rfl

theorem tasksIn_take {store : LocalStore} {id : BlockID} {ids : List BlockID} {t : BlockTask}
    (h : taskIn libs eng store w keyHash id = .ok (some t)) :
    tasksIn libs eng store w keyHash (id :: ids) =
      (tasksIn libs eng store w keyHash ids).map (t :: ·) := by
  rw [tasksIn, h]
  cases tasksIn libs eng store w keyHash ids with
  | error e => rfl
  | ok tasks => rfl

theorem tasksIn_error {store : LocalStore} {id : BlockID} {ids : List BlockID} {e : Err}
    (h : taskIn libs eng store w keyHash id = .error e) :
    tasksIn libs eng store w keyHash (id :: ids) = .error e := by
  rw [tasksIn, h]
  rfl

/-- A block without metadata is skipped, whatever its filter says. -/
theorem taskIn_of_deleted {store : LocalStore} {id : BlockID} {b : Bool}
    (htest : BloomCache.testFile libs w store id keyHash = .ok b)
    (hblk : w.db.view.get (blockKey id) = none) :
    taskIn libs eng store w keyHash id = .ok none := by
  rw [taskIn, htest, result_getBlockMeta, hblk]
  cases b with
  | false => rfl
  | true => simp [Err.is]

/-- The loop selects the tasks of the candidates, if the cached filters are
current. -/
theorem exec_selectTasks (ids : List BlockID) :
    ∀ {c : BloomCache libs}, BloomCache.Current w c →
      ((selectTasks libs eng keyHash c ids).exec w).1.1 =
        tasksIn libs eng c.store w keyHash ids := by
  induction ids with
  | nil => exact fun _ => rfl
  | cons id ids ih =>
      intro c ha
      obtain ⟨r, c', htest, hloads, hr⟩ := BloomCache.exec_test ha id keyHash
      have hrest := ih (hloads.current ha)
      rw [hloads.store] at hrest
      have hexec : (selectTasks libs eng keyHash c (id :: ids)).exec w = _ := exec_bind_of htest
      have hmeta := exec_of_calls (calls_getBlockMeta (fun _ => trivial) id) w
      rw [hexec]
      rcases hr with rfl | ⟨hfalse, hblk, b, rfl⟩
      · cases hb : BloomCache.testFile libs w c.store id keyHash with
        | error e =>
            rw [tasksIn_error (e := e) (by rw [taskIn, hb])]
            rfl
        | ok b =>
            cases b with
            | false =>
                rw [tasksIn_skip (by rw [taskIn, hb])]
                exact hrest
            | true =>
                dsimp only
                rw [exec_bind_of hmeta]
                cases hm : ((getBlockMeta id).run.exec w).1 with
                | error e =>
                    dsimp only
                    split_ifs with he
                    · rw [tasksIn_skip (by simp only [taskIn, hb, hm, he, if_true])]
                      exact hrest
                    · rw [tasksIn_error (by simp only [taskIn, hb, hm, he]; rfl)]
                      rfl
                | ok bmeta =>
                    dsimp only
                    cases ht : eng.tiers bmeta.tier with
                    | none =>
                        rw [tasksIn_skip (by simp only [taskIn, hb, hm, ht, Option.map_none])]
                        exact hrest
                    | some store =>
                        rw [tasksIn_take (by simp only [taskIn, hb, hm, ht, Option.map_some]; rfl),
                          ← hrest]
                        have hloop := exec_of_calls (calls_selectTasks eng keyHash ids c') w
                        exact result_bind_of hloop
      · -- the cached filter of a deleted block: whatever it says, there is no metadata
        rw [tasksIn_skip (taskIn_of_deleted hfalse hblk), ← hrest]
        cases b with
        | false => rfl
        | true =>
            dsimp only
            rw [exec_bind_of hmeta, result_getBlockMeta, hblk]
            rfl

/-- The goroutines return the rows of their tasks. -/
theorem exec_readTasks (tasks : List BlockTask) (is : List Nat) :
    (readTasks libs keyHash req.from_ req.to_ tasks is).exec w =
      (doneOf (rowsIn libs w keyHash req) tasks is, w) := by
  induction is with
  | nil => rfl
  | cons i is ih =>
      rw [readTasks, doneOf]
      cases hi : tasks[i]? with
      | none =>
          simp only [List.filterMap_cons, hi, Option.map_none]
          exact ih
      | some t =>
          have hread := exec_of_calls (@calls_readBlock libs keyHash t.store t.id req.from_ req.to_) w
          simp only [List.filterMap_cons, hi, Option.map_some]
          exact (exec_bind_of hread).trans (exec_bind_of ih)

/-- **The result of a query**, if nothing goes wrong and the cached filters
are current. -/
theorem exec_query_current (ha : BloomCache.Current w c) (eng : Engine) (req : QueryRequest) :
    ((query libs eng c req).exec w).1.1 = answer libs eng c.store w req := by
  rw [query, answer]
  by_cases hkey : req.partitionKey.length = 0
  · rw [if_pos hkey, if_pos hkey]
    rfl
  rw [if_neg hkey, if_neg hkey]
  by_cases horder : req.from_ < req.to_
  case neg =>
    rw [if_pos horder, if_pos horder]
    rfl
  rw [if_neg (not_not.mpr horder), if_neg (not_not.mpr horder)]
  have hcand := exec_candidates w req (keyHashFor libs req.partitionKey)
  refine (result_bind_of hcand).trans ?_
  dsimp only
  split_ifs with hlen
  · rw [List.length_eq_zero_iff.mp hlen]
    rfl
  have hsel := exec_of_calls (calls_selectTasks eng (keyHashFor libs req.partitionKey)
    (candidatesIn w req (keyHashFor libs req.partitionKey)) c) w
  refine (result_bind_of hsel).trans ?_
  rw [exec_selectTasks _ ha]
  cases tasksIn libs eng c.store w (keyHashFor libs req.partitionKey)
      (candidatesIn w req (keyHashFor libs req.partitionKey)) with
  | error e => rfl
  | ok tasks =>
      dsimp only
      split_ifs with hnone
      · rw [List.length_eq_zero_iff.mp hnone]
        rfl
      refine (result_bind_of (exec_readTasks tasks _)).trans ?_
      rw [resultsOf_doneOf _ tasks (eng.readOrder_perm _)]
      simp only [bind, Except.bind]
      cases collectSlices (tasks.map (rowsIn libs w (keyHashFor libs req.partitionKey) req)) with
      | error e => rfl
      | ok slices => rfl

theorem exec_query (ha : BloomCache.Agrees w c) (eng : Engine) (req : QueryRequest) :
    ((query libs eng c req).exec w).1.1 = answer libs eng c.store w req :=
  exec_query_current ha.current eng req

end Bbdb.Query
