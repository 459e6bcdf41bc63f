import Bbdb.Query.Refines

/-!
# Query — blocks that add nothing

What a query answers depends on a block only if its candidate is selected
and has rows for it: `answer_beside` compares two worlds that differ in what a
reader sees of one block, which adds nothing in either. A block whose
metadata is missing is such a block, as long as its bloom file, if there is
one, can be decoded.
-/

namespace Bbdb.Query

open Bbdb.Block Bbdb.Meta Bbdb.Tier Bbdb.Index GoTime
open Prog hiding pure bind

variable {libs : Libs} {eng : Engine} {st : LocalStore} {w w' : World} {id : BlockID}
  {req : QueryRequest} {kh : UInt64}

/-! ## Candidates that add nothing -/

/-- The block is no candidate, or is skipped, or has no row for the query. -/
def Silent (libs : Libs) (eng : Engine) (st : LocalStore) (w : World) (req : QueryRequest)
    (kh : UInt64) (id : BlockID) : Prop :=
  id ∈ candidatesIn w req kh → ∃ task, taskIn libs eng st w kh id = .ok task ∧
    ∀ t ∈ task, rowsIn libs w kh req t = .ok []

theorem silent_of_skipped
    (h : id ∈ candidatesIn w req kh → taskIn libs eng st w kh id = .ok none) :
    Silent libs eng st w req kh id :=
  fun hmem => ⟨none, h hmem, fun _ ht => by cases ht⟩

/-- A lookup finds the same other blocks, in the same order. -/
theorem foundBlocks_beside (h : Beside id w w') (et : UInt8) (from_ to_ : Time) :
    (foundBlocks w' et kh from_ to_).filter (fun x => x ≠ id) =
      (foundBlocks w et kh from_ to_).filter fun x => x ≠ id := by
  have hsorted : ∀ x : World, ((foundBlocks x et kh from_ to_).filter fun x => x ≠ id).Pairwise
      (· < ·) := fun x => ((idxIDs_sorted x.db.view et kh).filter _).filter _
  have hnodup : ∀ x : World, ((foundBlocks x et kh from_ to_).filter fun x => x ≠ id).Nodup :=
    fun x => (nodup_foundBlocks x et kh from_ to_).filter _
  refine List.Perm.eq_of_pairwise' (hsorted w') (hsorted w) ?_
  refine (List.perm_ext_iff_of_nodup (hnodup w') (hnodup w)).mpr fun x => ?_
  rw [List.mem_filter, List.mem_filter, mem_foundBlocks, mem_foundBlocks, decide_eq_true_eq]
  constructor
  · intro hx
    obtain ⟨⟨hkey, hov⟩, hne⟩ := hx
    rw [h.idx et kh x hne] at hkey
    exact ⟨⟨hkey, hov⟩, hne⟩
  · intro hx
    obtain ⟨⟨hkey, hov⟩, hne⟩ := hx
    rw [← h.idx et kh x hne] at hkey
    exact ⟨⟨hkey, hov⟩, hne⟩

theorem candidatesIn_beside (h : Beside id w w') :
    (candidatesIn w' req kh).filter (fun x => x ≠ id) =
      (candidatesIn w req kh).filter fun x => x ≠ id := by
  unfold candidatesIn
  cases req.eventType with
  | some et => exact foundBlocks_beside h et req.from_ req.to_
  | none =>
      dsimp only
      rw [List.filter_flatMap, List.filter_flatMap]
      exact congrArg (fun f => List.flatMap f allTypes)
        (funext fun et => foundBlocks_beside h et req.from_ req.to_)

theorem taskIn_beside (h : Beside id w w') {x : BlockID} (hx : x ≠ id) :
    taskIn libs eng st w' kh x = taskIn libs eng st w kh x := by
  have hbloom : BloomCache.testFile libs w' st x kh = BloomCache.testFile libs w st x kh := by
    unfold BloomCache.testFile
    rw [h.bloom st x hx]
  have hmeta : ((getBlockMeta x).run.exec w').1 = ((getBlockMeta x).run.exec w).1 := by
    rw [result_getBlockMeta, result_getBlockMeta, h.blk x hx]
  rw [taskIn, taskIn, hbloom, hmeta]

/-- Other blocks are selected as before. -/
theorem tasksIn_beside (h : Beside id w w') {ids : List BlockID} (hids : ∀ x ∈ ids, x ≠ id) :
    tasksIn libs eng st w' kh ids = tasksIn libs eng st w kh ids := by
  induction ids with
  | nil => rfl
  | cons x ids ih =>
      rw [tasksIn, tasksIn, taskIn_beside h (hids x List.mem_cons_self),
        ih fun y hy => hids y (List.mem_cons_of_mem _ hy)]

theorem id_of_taskIn {t : BlockTask} (h : taskIn libs eng st w kh id = .ok (some t)) :
    t.id = id := by
  unfold taskIn at h
  split at h
  · cases h
  · cases h
  · split at h
    · split_ifs at h
      cases h
    · cases ht : eng.tiers _ with
      | none =>
          rw [ht] at h
          cases h
      | some store =>
          rw [ht] at h
          cases h
          rfl

/-- A selected task is the one of a candidate. -/
theorem mem_of_tasksIn {ids : List BlockID} {tasks : List BlockTask}
    (h : tasksIn libs eng st w kh ids = .ok tasks) :
    ∀ t ∈ tasks, t.id ∈ ids ∧ taskIn libs eng st w kh t.id = .ok (some t) := by
  induction ids generalizing tasks with
  | nil =>
      cases h
      simp
  | cons x ids ih =>
      cases hx : taskIn libs eng st w kh x with
      | error e =>
          rw [tasksIn_error hx] at h
          cases h
      | ok task =>
          cases hrest : tasksIn libs eng st w kh ids with
          | error e =>
              rw [tasksIn, hx, hrest] at h
              cases h
          | ok rest =>
              rw [tasksIn, hx, hrest] at h
              cases h
              intro t ht
              rcases List.mem_append.mp ht with ht | ht
              · obtain rfl := Option.mem_toList.mp ht
                rw [id_of_taskIn hx]
                exact ⟨List.mem_cons_self, hx⟩
              · exact (ih hrest t ht).imp_left (List.mem_cons_of_mem _)

/-- Leaving out a candidate leaves out its task. -/
theorem tasksIn_filter {ids : List BlockID}
    (h : id ∈ ids → ∃ task, taskIn libs eng st w kh id = .ok task) :
    tasksIn libs eng st w kh (ids.filter fun x => x ≠ id) =
      (tasksIn libs eng st w kh ids).map (List.filter fun t => t.id ≠ id) := by
  induction ids with
  | nil => rfl
  | cons x ids ih =>
      have ih := ih fun hmem => h (List.mem_cons_of_mem _ hmem)
      by_cases hx : x = id
      · subst hx
        obtain ⟨task, htask⟩ := h List.mem_cons_self
        rw [List.filter_cons_of_neg (by simp), ih, tasksIn, htask]
        cases hrest : tasksIn libs eng st w kh ids with
        | error e => rfl
        | ok rest =>
            have hnone : task.toList.filter (fun t => t.id ≠ x) = [] := by
              refine List.filter_eq_nil_iff.mpr fun t ht => ?_
              obtain rfl := Option.mem_toList.mp ht
              simpa using id_of_taskIn htask
            simp only [Except.map, bind, Except.bind, List.filter_append, hnone, List.nil_append]
      · rw [List.filter_cons_of_pos (by simpa using hx), tasksIn, tasksIn, ih]
        cases htask : taskIn libs eng st w kh x with
        | error e => rfl
        | ok task =>
            cases hrest : tasksIn libs eng st w kh ids with
            | error e => rfl
            | ok rest =>
                have hall : task.toList.filter (fun t => t.id ≠ id) = task.toList := by
                  refine List.filter_eq_self.mpr fun t ht => ?_
                  obtain rfl := Option.mem_toList.mp ht
                  simpa [id_of_taskIn htask] using hx
                simp only [Except.map, bind, Except.bind, List.filter_append, hall]

/-- Tasks without rows can be left out. -/
theorem collectSlices_filter {tasks : List BlockTask} {f : BlockTask → Except Err (List Event)}
    (h : ∀ t ∈ tasks, t.id = id → f t = .ok []) :
    collectSlices ((tasks.filter fun t => t.id ≠ id).map f) = collectSlices (tasks.map f) := by
  induction tasks with
  | nil => rfl
  | cons t tasks ih =>
      have ih := ih fun x hx => h x (List.mem_cons_of_mem _ hx)
      by_cases ht : t.id = id
      · rw [List.filter_cons_of_neg (by simpa using ht), ih, List.map_cons,
          h t List.mem_cons_self ht, collectSlices]
        cases collectSlices (tasks.map f) <;> rfl
      · rw [List.filter_cons_of_pos (by simpa using ht), List.map_cons, List.map_cons]
        cases f t with
        | error e => rfl
        | ok rows => rw [collectSlices, collectSlices, ih]

/-- The answer from some of the candidates. -/
def answerOf (libs : Libs) (eng : Engine) (st : LocalStore) (w : World) (req : QueryRequest)
    (kh : UInt64) (ids : List BlockID) : Except Err (List Event) := do
  let tasks ← tasksIn libs eng st w kh ids
  let slices ← collectSlices (tasks.map (rowsIn libs w kh req))
  .ok (mergeEvents slices)

/-- A candidate without rows can be left out. -/
theorem answerOf_filter {ids : List BlockID}
    (h : id ∈ ids → ∃ task, taskIn libs eng st w kh id = .ok task ∧
      ∀ t ∈ task, rowsIn libs w kh req t = .ok []) :
    answerOf libs eng st w req kh ids =
      answerOf libs eng st w req kh (ids.filter fun x => x ≠ id) := by
  unfold answerOf
  rw [tasksIn_filter fun hmem => (h hmem).imp fun _ ht => ht.1]
  cases htasks : tasksIn libs eng st w kh ids with
  | error e => rfl
  | ok tasks =>
      simp only [Except.map, bind, Except.bind]
      rw [collectSlices_filter fun t ht hid => ?_]
      obtain ⟨hmem, hsel⟩ := mem_of_tasksIn htasks t ht
      rw [hid] at hmem hsel
      obtain ⟨task, htask, hrows⟩ := h hmem
      rw [hsel] at htask
      cases htask
      exact hrows t rfl

theorem answerOf_silent (h : Silent libs eng st w req kh id) :
    answerOf libs eng st w req kh (candidatesIn w req kh) =
      answerOf libs eng st w req kh ((candidatesIn w req kh).filter fun x => x ≠ id) :=
  answerOf_filter h

/-- Other blocks add the same. -/
theorem answerOf_beside (h : Beside id w w') {ids : List BlockID} (hids : ∀ x ∈ ids, x ≠ id) :
    answerOf libs eng st w' req kh ids = answerOf libs eng st w req kh ids := by
  unfold answerOf
  rw [tasksIn_beside h hids]
  cases htasks : tasksIn libs eng st w kh ids with
  | error e => rfl
  | ok tasks =>
      have hrows : tasks.map (rowsIn libs w' kh req) = tasks.map (rowsIn libs w kh req) := by
        refine List.map_congr_left fun t ht => ?_
        have hne := hids _ (mem_of_tasksIn htasks t ht).1
        rw [rowsIn, rowsIn, result_readBlock, result_readBlock, h.block t.store t.id hne]
      simp only [bind, Except.bind, hrows]

/-- **The answer does not depend on a block that adds nothing.** -/
theorem answer_beside (h : Beside id w w')
    (hw : Silent libs eng st w req (keyHashFor libs req.partitionKey) id)
    (hw' : Silent libs eng st w' req (keyHashFor libs req.partitionKey) id) :
    answer libs eng st w' req = answer libs eng st w req := by
  have hall : answerOf libs eng st w' req (keyHashFor libs req.partitionKey)
        (candidatesIn w' req (keyHashFor libs req.partitionKey)) =
      answerOf libs eng st w req (keyHashFor libs req.partitionKey)
        (candidatesIn w req (keyHashFor libs req.partitionKey)) := by
    rw [answerOf_silent hw', answerOf_silent hw, candidatesIn_beside h]
    exact answerOf_beside h fun x hx => by simpa using (List.mem_filter.mp hx).2
  unfold answerOf at hall
  simp only [answer, hall]

/-! ## A block without metadata -/

/-- A block that has no metadata is skipped, if its bloom file can be decoded. -/
theorem silent_of_decodes
    (hbloom : ∀ data, w.fs (st.bloomPath id) = some data → ∃ f, deserializeBloom libs data = .ok f)
    (hblk : w.db.view.get (blockKey id) = none) : Silent libs eng st w req kh id := by
  refine silent_of_skipped fun _ => ?_
  cases hdata : w.fs (st.bloomPath id) with
  | none => rw [taskIn, BloomCache.testFile, hdata]
  | some data =>
      obtain ⟨f, hf⟩ := hbloom data hdata
      exact taskIn_of_deleted (BloomCache.InFile.testFile ⟨data, hdata, hf⟩) hblk

theorem silent_of_hasBloom {r : SealRequest} (hbloom : HasBloom libs w r)
    (hblk : w.db.view.get (blockKey r.blockID) = none) :
    Silent libs eng r.store w req kh r.blockID := by
  refine silent_of_decodes (fun data hdata => ?_) hblk
  obtain ⟨f, hf, -⟩ := Scene.filter_of_hasBloom hbloom hdata
  exact ⟨f, hf⟩

end Bbdb.Query
