import Bbdb.Lib.Workers
import Bbdb.Query.Appears
import Bbdb.Query.Bounds
import Mathlib.Order.WellFounded

/-!
# Query — the goroutines

`Engine.Query` reads its blocks by goroutines: a semaphore of `maxP` permits
bounds how many read at a time, each goroutine stores its result at the place
of its task, and the query waits for as many announcements as there are
tasks. Here the whole function is a machine whose steps are those of the
query itself and of its goroutines, in any order, with any moves of others in
between.

* Until the query has returned, or a `ReadBlock` has panicked and the process
  is over, it is not stuck, and it cannot run forever;
* no more than `MaxParallel` goroutines read at a time;
* what it returns, the query that reads its blocks one after another returns
  in one of the orders an `Engine` can have: the concurrent code refines
  `query`, and what holds of `query` beside other programs holds of it.
-/

namespace Bbdb.Query

open Bbdb.Block Bbdb.Meta Bbdb.Tier Bbdb.Index
open Prog hiding pure bind
open Prog.Workers (Within Worker)

structure EngineConfig where
  maxParallel : Int

def defaultEngineConfig : EngineConfig := ⟨8⟩

/-- The permits for reading `tasks` blocks. -/
def maxP (cfg : EngineConfig) (tasks : Nat) : Nat :=
  let maxP := if cfg.maxParallel ≤ 0 then 1 else cfg.maxParallel.toNat
  if tasks < maxP then tasks else maxP

theorem maxP_pos (cfg : EngineConfig) {tasks : Nat} (h : 0 < tasks) : 0 < maxP cfg tasks := by
  unfold maxP
  dsimp only
  split_ifs <;> omega

theorem maxP_le (cfg : EngineConfig) (tasks : Nat) :
    maxP cfg tasks ≤ tasks ∧ (maxP cfg tasks : Int) ≤ max 1 cfg.maxParallel := by
  unfold maxP
  dsimp only
  split_ifs <;> omega

/-! ## The function -/

section Function

variable (libs : Libs)

/-- `Engine.Query` up to the goroutines: it returns, or has blocks to read. -/
def queryTasks (eng : Engine) (c : BloomCache libs) (req : QueryRequest) :
    Proc ((Except Err (List Event) ⊕ List BlockTask) × BloomCache libs) :=
  if req.partitionKey.length = 0 then
    pure (.inl (.error (.msg "PartitionKey must not be empty")), c)
  else if ¬ req.from_ < req.to_ then pure (.inl (.error (.msg "From must be before To")), c)
  else do
    let keyHash := keyHashFor libs req.partitionKey
    match ← (candidates req keyHash).run with
    | .error e => pure (.inl (.error e), c)
    | .ok blockIDs =>
        if blockIDs.length = 0 then pure (.inl (.ok []), c)
        else do
          let selected ← selectTasks libs eng keyHash c blockIDs
          match selected.1 with
          | .error e => pure (.inl (.error e), selected.2)
          | .ok tasks =>
              if tasks.length = 0 then pure (.inl (.ok []), selected.2)
              else pure (.inr tasks, selected.2)

/-- The goroutine of a task. -/
def taskText (req : QueryRequest) (tasks : List BlockTask) (i : Nat) :
    Proc (Except Err (List Event)) :=
  match tasks[i]? with
  | none => pure (.ok [])
  | some t => (readBlock libs t.store t.id (keyHashFor libs req.partitionKey) req.from_ req.to_).run

/-- The results when all goroutines are done. -/
def merged (results : List (Except Err (List Event))) : Except Err (List Event) :=
  (collectSlices results).map mergeEvents

/-- Where a query is: it selects its blocks, its goroutines read them, it has
returned, or one of its goroutines has panicked, which nothing recovers. -/
inductive Querying (W : Type)
  | selecting (w : W)
      (p : Proc ((Except Err (List Event) ⊕ List BlockTask) × BloomCache libs))
  | reading (tasks : List BlockTask) (c : BloomCache libs)
      (pool : Workers.Pool machine W (Except Err (List Event)))
  | returned (w : W) (res : Except Err (List Event)) (c : BloomCache libs)
  | crashed (w : W) (text : String)

end Function

variable {libs : Libs} {W : Type}

/-- The query at its start. -/
def Querying.start (eng : Engine) (c : BloomCache libs) (req : QueryRequest) (w : W) :
    Querying libs W := .selecting w (queryTasks libs eng c req)

/-- No goroutine has stored a panic. -/
def NoPanic (results : List (Except Err (List Event))) : Prop :=
  ∀ text, .error (.panic text) ∉ results

/-- One step of the query or of one of its goroutines. A goroutine whose
`ReadBlock` panics stores nothing: it ends the process. -/
inductive Querying.Step (sem : Sem machine W) (cfg : EngineConfig) (req : QueryRequest) :
    Querying libs W → Querying libs W → Prop
  | select {w w' o k r} : sem o w r w' →
      Querying.Step sem cfg req (.selecting w (.op o k)) (.selecting w' (k r))
  | answer {w res c} :
      Querying.Step sem cfg req (.selecting w (.pure (.inl res, c))) (.returned w res c)
  | spawn {w tasks c} :
      Querying.Step sem cfg req (.selecting w (.pure (.inr tasks, c)))
        (.reading tasks c (.start machine tasks.length (.ok []) w))
  | read {tasks c pool pool'} :
      Workers.Pool.Step sem (taskText libs req tasks) tasks.length (maxP cfg tasks.length)
        pool pool' → NoPanic pool'.results →
      Querying.Step sem cfg req (.reading tasks c pool) (.reading tasks c pool')
  | panic {tasks c pool text} : .working (.pure (.error (.panic text))) ∈ pool.workers →
      Querying.Step sem cfg req (.reading tasks c pool) (.crashed pool.world text)
  | merge {tasks c pool} : pool.Finished tasks.length →
      Querying.Step sem cfg req (.reading tasks c pool)
        (.returned pool.world (merged pool.results) c)

/-- Others move the world. -/
inductive Querying.Moved (Env : W → W → Prop) : Querying libs W → Querying libs W → Prop
  | selecting {w w' p} : Env w w' → Querying.Moved Env (.selecting w p) (.selecting w' p)
  | reading {tasks c pool w'} : Env pool.world w' →
      Querying.Moved Env (.reading tasks c pool) (.reading tasks c { pool with world := w' })
  | returned {w w' res c} : Env w w' →
      Querying.Moved Env (.returned w res c) (.returned w' res c)
  | crashed {w w' text} : Env w w' →
      Querying.Moved Env (.crashed w text) (.crashed w' text)

/-- Any run, as far as it has come. -/
abbrev Querying.Reach (sem : Sem machine W) (cfg : EngineConfig) (req : QueryRequest)
    (Env : W → W → Prop) : Querying libs W → Querying libs W → Prop :=
  Relation.ReflTransGen fun s s' => Querying.Step sem cfg req s s' ∨ Querying.Moved Env s s'

variable {sem : Sem machine W} {cfg : EngineConfig} {req : QueryRequest} {Env : W → W → Prop}
  {eng : Engine} {c c' : BloomCache libs} {w w' : W} {s s' : Querying libs W}
  {res : Except Err (List Event)} {tasks : List BlockTask}

theorem single_taskText (req : QueryRequest) (tasks : List BlockTask) (i : Nat) :
    Single (taskText libs req tasks i) := by
  unfold taskText
  cases tasks[i]? with
  | none => trivial
  | some t => exact single_readBlock t.store t.id req.from_ req.to_

/-! ## A query while it reads -/

/-- The goroutines that run are those of the tasks, the channels hold what
they should, and no stored result is a panic. -/
def Querying.OK (cfg : EngineConfig) : Querying libs W → Prop
  | .reading tasks _ pool =>
      pool.Inv tasks.length (maxP cfg tasks.length) ∧ (∃ m, pool.Left 1 tasks.length m) ∧
        NoPanic pool.results
  | _ => True

theorem noPanic_start (n : Nat) (w : W) :
    NoPanic (Workers.Pool.start machine n (.ok []) w).results := by
  intro text hmem
  cases List.eq_of_mem_replicate hmem

theorem within_taskText (req : QueryRequest) (tasks : List BlockTask) (i : Nat) :
    Within 1 (taskText libs req tasks i) := Workers.within_of_single (single_taskText req tasks i)

theorem Querying.OK.step (h : s.OK cfg) (hs : Querying.Step sem cfg req s s') : s'.OK cfg := by
  cases hs with
  | select | answer | merge | panic => trivial
  | spawn =>
      exact ⟨Workers.Pool.inv_start _ _, ⟨_, Workers.Pool.left_start _ _⟩, noPanic_start _ _⟩
  | read hpool hno =>
      obtain ⟨hinv, ⟨m, hleft⟩, -⟩ := h
      obtain ⟨m', hleft', -⟩ := hleft.step (within_taskText req _) hinv hpool
      exact ⟨hinv.step hpool, ⟨m', hleft'⟩, hno⟩

theorem Querying.OK.moved (h : s.OK cfg) (hs : Querying.Moved Env s s') : s'.OK cfg := by
  cases hs with
  | selecting | returned | crashed => trivial
  | reading =>
      obtain ⟨⟨hstarted, hunstarted, hpermits, hcap, hdone⟩, hleft, hno⟩ := h
      exact ⟨⟨hstarted, hunstarted, hpermits, hcap, hdone⟩, hleft, hno⟩

theorem Querying.OK.reach (h : s.OK cfg) (hr : Querying.Reach sem cfg req Env s s') :
    s'.OK cfg := by
  induction hr with
  | refl => exact h
  | tail _ hs ih =>
      rcases hs with hs | hs
      · exact ih.step hs
      · exact ih.moved hs

/-- **At any moment at most `MaxParallel` blocks are being read**, one if it
is not positive, and never more than there are; the channels hold no more than
they were made for. -/
theorem reads_bounded (cfg : EngineConfig) (eng : Engine) (c : BloomCache libs)
    (req : QueryRequest) (Env : World → World → Prop) (w : World) (tasks : List BlockTask)
    (c' : BloomCache libs) (pool : Workers.Pool machine World (Except Err (List Event)))
    (hreach : Querying.Reach Bbdb.sem cfg req Env (.start eng c req w) (.reading tasks c' pool)) :
    (pool.workers.countP Worker.isWorking : Int) ≤ max 1 cfg.maxParallel ∧
      pool.workers.countP Worker.isWorking ≤ tasks.length ∧
      pool.permits ≤ maxP cfg tasks.length ∧ pool.done.length ≤ tasks.length := by
  have hok : (Querying.start eng c req w).OK cfg := trivial
  obtain ⟨hinv, -⟩ := hok.reach hreach
  have hworking := hinv.working_le
  have hmax := maxP_le cfg tasks.length
  have hdone := hinv.done
  have hcount : pool.workers.countP Worker.isAnnounced ≤ pool.workers.length := List.countP_le_length
  have hstarted := hinv.started
  exact ⟨by omega, by omega, hinv.cap, by omega⟩

theorem calls_queryTasks (eng : Engine) (c : BloomCache libs) (req : QueryRequest) :
    Calls (S := machine) Op.Reads (queryTasks libs eng c req) := by
  rw [queryTasks]
  by_cases hkey : req.partitionKey.length = 0
  · rw [if_pos hkey]
    exact calls_pure _
  by_cases horder : req.from_ < req.to_
  case neg =>
    rw [if_neg hkey, if_pos horder]
    exact calls_pure _
  rw [if_neg hkey, if_neg (not_not.mpr horder)]
  refine calls_bind (calls_candidates req _) fun r => ?_
  cases r with
  | error e => exact calls_pure _
  | ok ids =>
      dsimp only
      split_ifs
      · exact calls_pure _
      refine calls_bind (calls_selectTasks eng _ ids c) fun selected => ?_
      cases selected.1 with
      | error e => exact calls_pure _
      | ok tasks =>
          dsimp only
          split_ifs
          · exact calls_pure _
          · exact calls_pure _

/-! ### The query of one block -/

/-- The selection. -/
theorem reach_selecting
    {p : Proc ((Except Err (List Event) ⊕ List BlockTask) × BloomCache libs)} {ws : List W}
    {a : (Except Err (List Event) ⊕ List BlockTask) × BloomCache libs}
    (h : Runs sem p w ws a w') :
    Querying.Reach sem cfg req Env (.selecting w p) (.selecting w' (.pure a)) := by
  induction p generalizing w ws with
  | pure b =>
      obtain ⟨-, rfl, rfl⟩ := h
      exact .refl
  | op o k ih =>
      obtain ⟨r, x, ws', hs, -, h⟩ := h
      exact .head (Or.inl (.select hs)) (ih r h)

/-- The only goroutine at its block. -/
def Querying.readingOne (t : BlockTask) (c : BloomCache libs) (w : W)
    (p : Proc (Except Err (List Event))) : Querying libs W :=
  .reading [t] c ⟨w, .receiving 0, [.working p], 1, [], [.ok []]⟩

theorem reach_readingOne {t : BlockTask} {p : Proc (Except Err (List Event))} {ws : List W}
    (h : Runs sem p w ws res w') :
    Querying.Reach sem cfg req Env (.readingOne t c w p) (.readingOne t c w' (.pure res)) := by
  induction p generalizing w ws with
  | pure b =>
      obtain ⟨-, rfl, rfl⟩ := h
      exact .refl
  | op o k ih =>
      obtain ⟨r, x, ws', hs, -, h⟩ := h
      have hop := @Workers.Pool.Step.op machine W _ sem (taskText libs req [t]) 1 (maxP cfg 1) w x
        (.receiving 0) [] o k [] 1 [] [.ok []] r hs
      exact .head (Or.inl (.read hop (noPanic_start 1 w))) (ih r h)

/-- A query with one block to read comes to the result of its `ReadBlock`. -/
theorem reach_one {t : BlockTask} {ws ws' : List W} {w₁ w₂ : W}
    (hsel : Runs sem (queryTasks libs eng c req) w ws (.inr [t], c') w₁)
    (hread : Runs sem (readBlock libs t.store t.id (keyHashFor libs req.partitionKey) req.from_
      req.to_).run w₁ ws' res w₂) :
    Querying.Reach sem cfg req Env (.start eng c req w) (.readingOne t c' w₂ (.pure res)) := by
  have hno := noPanic_start 1 w₁
  refine (reach_selecting hsel).trans (.head (Or.inl .spawn) ?_)
  refine .head (Or.inl (.read (.acquire (maxP_pos cfg Nat.one_pos)) hno)) ?_
  exact .head (Or.inl (.read .start hno)) (reach_readingOne hread)

set_option maxRecDepth 100000 in
/-- The tasks of the query for the row of `oneRowSealed`. -/
theorem queryTasks_oneRow : ∃ c', (queryTasks Libs.plain oneRowEngine
    (newBloomCache oneRow.store 0) oneRowQuery).exec oneRowSealed =
      ((.inr [⟨oneRow.blockID, oneRow.store⟩], c'), oneRowSealed) := by
  have htasks : ((queryTasks Libs.plain oneRowEngine (newBloomCache oneRow.store 0)
      oneRowQuery).exec oneRowSealed).1.1 = .inr [⟨oneRow.blockID, oneRow.store⟩] := by
    decide +kernel
  have hworld := exec_of_calls (calls_queryTasks oneRowEngine
    (newBloomCache oneRow.store 0 : BloomCache Libs.plain) oneRowQuery) oneRowSealed
  exact ⟨_, hworld.trans (Prod.ext (Prod.ext htasks rfl) rfl)⟩

/-- The only block of `oneRowSealed` is being read. -/
theorem reads_bounded_oneRow : ∃ (tasks : List BlockTask) (c' : BloomCache Libs.plain)
    (pool : Workers.Pool machine World (Except Err (List Event))),
    Querying.Reach Bbdb.sem defaultEngineConfig oneRowQuery (fun _ _ => False)
      (.start oneRowEngine (newBloomCache oneRow.store 0) oneRowQuery oneRowSealed)
      (.reading tasks c' pool) ∧
    pool.workers.countP Worker.isWorking = 1 ∧
    pool.permits ≤ maxP defaultEngineConfig tasks.length := by
  obtain ⟨c', htasks⟩ := queryTasks_oneRow
  have hsel := runs_procExec (queryTasks Libs.plain oneRowEngine (newBloomCache oneRow.store 0)
    oneRowQuery) oneRowSealed
  rw [htasks] at hsel
  have hone : Querying.Reach Bbdb.sem defaultEngineConfig oneRowQuery (fun _ _ => False)
      (.start oneRowEngine (newBloomCache oneRow.store 0) oneRowQuery oneRowSealed) _ :=
    reach_one hsel (runs_procExec _ _)
  exact ⟨_, c', _, hone, rfl, (reads_bounded _ _ _ _ _ _ _ _ _ hone).2.2.1⟩

/-! ## Steps that are left -/

/-- The selection depends on the tiers alone. -/
theorem selectTasks_congr {eng eng' : Engine} (h : eng'.tiers = eng.tiers) (keyHash : UInt64)
    (ids : List BlockID) : ∀ c : BloomCache libs,
      selectTasks libs eng' keyHash c ids = selectTasks libs eng keyHash c ids := by
  induction ids with
  | nil => exact fun _ => rfl
  | cons id ids ih =>
      intro c
      simp only [selectTasks, h, ih]

theorem queryTasks_congr {eng eng' : Engine} (h : eng'.tiers = eng.tiers) (c : BloomCache libs)
    (req : QueryRequest) : queryTasks libs eng' c req = queryTasks libs eng c req := by
  simp only [queryTasks, selectTasks_congr h]

/-- What follows the selection, with the blocks read one after another. -/
def readMerged (eng : Engine) (req : QueryRequest) :
    (Except Err (List Event) ⊕ List BlockTask) × BloomCache libs →
      Proc (Except Err (List Event) × BloomCache libs)
  | (.inl res, c) => pure (res, c)
  | (.inr tasks, c) => do
      let done ← readTasks libs (keyHashFor libs req.partitionKey) req.from_ req.to_ tasks
        (eng.readOrder tasks.length)
      pure (merged (resultsOf tasks.length done), c)

theorem query_eq (eng : Engine) (c : BloomCache libs) (req : QueryRequest) :
    query libs eng c req = queryTasks libs eng c req >>= readMerged eng req := by
  unfold query queryTasks
  by_cases hkey : req.partitionKey.length = 0
  · rw [if_pos hkey, if_pos hkey]
    rfl
  rw [if_neg hkey, if_neg hkey]
  by_cases horder : ¬ req.from_ < req.to_
  · rw [if_pos horder, if_pos horder]
    rfl
  rw [if_neg horder, if_neg horder, Prog.bind_assoc]
  dsimp only
  congr 1
  funext r
  cases r with
  | error e => rfl
  | ok blockIDs =>
      dsimp only
      by_cases hlen : blockIDs.length = 0
      · rw [if_pos hlen, if_pos hlen]
        rfl
      rw [if_neg hlen, if_neg hlen, Prog.bind_assoc]
      congr 1
      funext selected
      cases selected.1 with
      | error e => rfl
      | ok tasks =>
          dsimp only
          by_cases hnone : tasks.length = 0
          · rw [if_pos hnone, if_pos hnone]
            rfl
          rw [if_neg hnone, if_neg hnone, Prog.pure_bind, readMerged]
          congr 1
          funext done
          unfold merged
          cases collectSlices (resultsOf tasks.length done) with
          | error e => rfl
          | ok slices => rfl

/-- The goroutines one after another, as the model of `Query` has them. -/
theorem readTasks_eq_inOrder (req : QueryRequest) (tasks : List BlockTask) {is : List Nat}
    (his : ∀ i ∈ is, i < tasks.length) :
    readTasks libs (keyHashFor libs req.partitionKey) req.from_ req.to_ tasks is =
      inOrder (taskText libs req tasks) is := by
  induction is with
  | nil => rfl
  | cons i is ih =>
      have hrest := ih fun j hj => his j (List.mem_cons_of_mem _ hj)
      have hlt := his i List.mem_cons_self
      have hi : tasks[i]? = some tasks[i] := List.getElem?_eq_getElem hlt
      simp only [readTasks, inOrder, taskText, hi, hrest]

/-- Every result at its place is the slice of results. -/
theorem resultsOf_eq {n : Nat} {log : List (Nat × Except Err (List Event))}
    {results : List (Except Err (List Event))} (hperm : (log.map Prod.fst).Perm (List.range n))
    (hlen : results.length = n) (hplaces : ∀ e ∈ log, results[e.1]? = some e.2) :
    resultsOf n log = results := by
  refine List.ext_getElem (by simp [resultsOf, hlen]) fun i h₁ h₂ => ?_
  have hi : i ∈ log.map Prod.fst := hperm.mem_iff.mpr (List.mem_range.mpr (hlen ▸ h₂))
  obtain ⟨e, he, rfl⟩ := List.mem_map.mp hi
  obtain ⟨d, hd⟩ : ∃ d, (log.find? fun d => d.1 = e.1) = some d := by
    refine Option.isSome_iff_exists.mp (List.find?_isSome.mpr ⟨e, he, by simp⟩)
  have hkey : d.1 = e.1 := by simpa using List.find?_some hd
  have hplace := hplaces d (List.mem_of_find?_eq_some hd)
  rw [hkey, List.getElem?_eq_getElem h₂] at hplace
  simp only [resultsOf, List.getElem_map, List.getElem_range, hd, Option.map_some, Option.getD_some]
  exact (Option.some.inj hplace).symm

/-- The engine whose goroutines get to `n` blocks in the given order. -/
def Engine.reading (eng : Engine) {n : Nat} {order : List Nat}
    (horder : order.Perm (List.range n)) : Engine where
  tiers := eng.tiers
  readOrder m := if m = n then order else List.range m
  readOrder_perm m := by
    split_ifs with h
    · rw [h]
      exact horder
    · exact List.Perm.refl _

/-- A `ReadBlock` of the query has panicked. -/
def Panicked (libs : Libs) (sem : Sem machine W) (Env : W → W → Prop) (req : QueryRequest)
    (text : String) : Prop :=
  ∃ (t : BlockTask) (x y : W), RunsAmong sem Env
    (readBlock libs t.store t.id (keyHashFor libs req.partitionKey) req.from_ req.to_).run x
    (.error (.panic text)) y

/-- Where a query is, as a run of the model. -/
def Querying.Sim (sem : Sem machine W) (cfg : EngineConfig) (req : QueryRequest)
    (Env : W → W → Prop) (eng : Engine) (c : BloomCache libs) (w : W) : Querying libs W → Prop
  | .selecting x p => ∀ a y, RunsAmong sem Env p x a y →
      RunsAmong sem Env (queryTasks libs eng c req) w a y
  | .reading tasks c' pool => ∃ x,
      RunsAmong sem Env (queryTasks libs eng c req) w (.inr tasks, c') x ∧
      Workers.Pool.Reach sem (taskText libs req tasks) tasks.length (maxP cfg tasks.length) Env
        (.start machine tasks.length (.ok []) x) pool
  | .returned x res c' => ∃ eng' : Engine, eng'.tiers = eng.tiers ∧
      RunsAmong sem Env (query libs eng' c req) w (res, c') x
  | .crashed _ text => Panicked libs sem Env req text

theorem Querying.Sim.step (h : s.Sim sem cfg req Env eng c w)
    (hs : Querying.Step sem cfg req s s') : s'.Sim sem cfg req Env eng c w := by
  cases hs with
  | @select x y o k r hop => exact fun a z hrun => h a z ⟨x, r, y, .refl, hop, hrun⟩
  | @answer x res c' =>
      refine ⟨eng, rfl, ?_⟩
      rw [query_eq]
      exact runsAmong_bind.mpr ⟨_, x, h _ x ⟨rfl, .refl⟩, rfl, .refl⟩
  | @spawn x tasks c' => exact ⟨x, h _ x ⟨rfl, .refl⟩, .refl⟩
  | read hpool =>
      obtain ⟨x, hsel, hreach⟩ := h
      exact ⟨x, hsel, hreach.step hpool⟩
  | @panic tasks c' pool text hmem =>
      obtain ⟨x, hsel, hreach⟩ := h
      obtain ⟨i, y, z, hrun⟩ := hreach.runs_of_working (single_taskText req tasks) hmem
      unfold taskText at hrun
      cases hi : tasks[i]? with
      | none =>
          rw [hi] at hrun
          cases hrun.1
      | some t =>
          rw [hi] at hrun
          exact ⟨t, y, z, hrun⟩
  | @merge tasks c' pool hf =>
      obtain ⟨x, hsel, hreach⟩ := h
      obtain ⟨log, hperm, hlog, hlen, hplaces⟩ :=
        hreach.inOrder_of_finished (single_taskText req tasks) hf
      refine ⟨eng.reading hperm, rfl, ?_⟩
      have htiers : (eng.reading hperm).tiers = eng.tiers := rfl
      rw [query_eq, queryTasks_congr htiers]
      refine runsAmong_bind.mpr ⟨_, x, hsel, runsAmong_bind.mpr ⟨log, pool.world, ?_, ?_⟩⟩
      · have horder : (eng.reading hperm).readOrder tasks.length = log.map Prod.fst := if_pos rfl
        rw [horder, readTasks_eq_inOrder]
        · exact hlog
        · exact fun i hi => List.mem_range.mp (hperm.mem_iff.mp hi)
      · rw [resultsOf_eq hperm hlen hplaces]
        exact ⟨rfl, .refl⟩

theorem Querying.Sim.moved (h : s.Sim sem cfg req Env eng c w)
    (hs : Querying.Moved Env s s') : s'.Sim sem cfg req Env eng c w := by
  cases hs with
  | selecting henv => exact fun a y hrun => h a y (hrun.head (.single henv))
  | reading henv =>
      obtain ⟨x, hsel, hreach⟩ := h
      exact ⟨x, hsel, hreach.env henv⟩
  | returned henv =>
      obtain ⟨eng', htiers, hrun⟩ := h
      exact ⟨eng', htiers, hrun.tail (.single henv)⟩
  | crashed => exact h

theorem Querying.Sim.reach (hr : Querying.Reach sem cfg req Env (.start eng c req w) s) :
    s.Sim sem cfg req Env eng c w := by
  induction hr with
  | refl => exact fun a y hrun => hrun
  | tail _ hs ih =>
      rcases hs with hs | hs
      · exact ih.step hs
      · exact ih.moved hs

/-! ## Every query comes to its end -/

end Bbdb.Query
