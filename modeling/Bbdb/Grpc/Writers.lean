import Bbdb.Lib.Lock
import Bbdb.Lib.Machine
import Bbdb.Meta.Keys

/-!
# gRPC — one writer per shard

`getOrCreateWriter` called by any number of streams at once, on any shards. A
call looks its shard up under the read lock, lets go of it, and when it found
nothing takes the write lock, looks again, creates a writer and inserts it.
Every access to the lock or to the map is a step.

A writer is known by its number in the order of creation; `created` and
`returned` are ghosts.

Between the two looks another call may create the writer. What rules out two
of them is that the second look, the creation and the insertion happen under
one hold of the write lock (`WritersInv.absent`).
-/

namespace Bbdb.Grpc

open Bbdb.Meta Bbdb.Machine

/-! ## The machine -/

/-- Where a stream is in `getOrCreateWriter`. -/
inductive LookupPC
  | idle
  | called (shard : ShardID)
  | readLocked (shard : ShardID)
  | looked (shard : ShardID) (found : Option Nat)
  | missed (shard : ShardID)
  | writeLocked (shard : ShardID)
  | absent (shard : ShardID)
  | made (shard : ShardID) (writer : Nat)
  | ready (shard : ShardID) (writer : Nat)
  deriving DecidableEq

/-- The calls that hold the write lock. -/
def LookupPC.Writing : LookupPC → Prop
  | .writeLocked _ | .absent _ | .made _ _ | .ready _ _ => True
  | _ => False

structure Writers (ι : Type) where
  mu : RWMutex ι
  writers : ShardID → Option Nat
  calls : ι → LookupPC
  /-- The shards of the writers created so far. -/
  created : List ShardID
  /-- The shard and the result of every call that has returned. -/
  returned : List (ShardID × Nat)

inductive LookupAct (ι : Type)
  | call (i : ι) (shard : ShardID)
  | next (i : ι)

namespace Writers

variable {ι : Type} [DecidableEq ι]

def init (ι : Type) : Writers ι := ⟨.free, fun _ => none, fun _ => .idle, [], []⟩

def goto (s : Writers ι) (i : ι) (pc : LookupPC) : Writers ι :=
  { s with calls := Function.update s.calls i pc }

/-- The next step of the call of `i`. -/
def next (s : Writers ι) (i : ι) : Option (Writers ι) :=
  match s.calls i with
  | .idle => none
  | .called shard =>
      (s.mu.rlock i).map fun mu => { s.goto i (.readLocked shard) with mu := mu }
  | .readLocked shard => some (s.goto i (.looked shard (s.writers shard)))
  | .looked shard (some w) =>
      some { s.goto i .idle with
        mu := s.mu.runlock i, returned := s.returned ++ [(shard, w)] }
  | .looked shard none => some { s.goto i (.missed shard) with mu := s.mu.runlock i }
  | .missed shard =>
      (s.mu.lock i).map fun mu => { s.goto i (.writeLocked shard) with mu := mu }
  | .writeLocked shard =>
      match s.writers shard with
      | some w => some (s.goto i (.ready shard w))
      | none => some (s.goto i (.absent shard))
  | .absent shard =>
      some { s.goto i (.made shard s.created.length) with created := s.created ++ [shard] }
  | .made shard w =>
      some { s.goto i (.ready shard w) with
        writers := Function.update s.writers shard (some w) }
  | .ready shard w =>
      some { s.goto i .idle with mu := s.mu.unlock, returned := s.returned ++ [(shard, w)] }

def step (s : Writers ι) : LookupAct ι → Option (Writers ι)
  | .call i shard => if s.calls i = .idle then some (s.goto i (.called shard)) else none
  | .next i => s.next i

end Writers

/-! ## The invariant -/

/-- What a call knows of the map. -/
def LookupPC.Knows (writers : ShardID → Option Nat) (created : List ShardID) : LookupPC → Prop
  | .looked shard (some w) => writers shard = some w
  | .absent shard => writers shard = none
  | .made shard w => writers shard = none ∧ created[w]? = some shard
  | .ready shard w => writers shard = some w
  | _ => True

structure WritersInv {ι : Type} (s : Writers ι) : Prop where
  /-- The write lock is held by the one call in the critical section. -/
  locked : ∀ i, (s.calls i).Writing ↔ s.mu.writer = some i
  knows : ∀ i, (s.calls i).Knows s.writers s.created
  entry : ∀ shard w, s.writers shard = some w → s.created[w]? = some shard
  /-- A created writer is in the map, or about to be inserted. -/
  inserted : ∀ shard ∈ s.created, s.writers shard ≠ none ∨ ∃ i w, s.calls i = .made shard w
  nodup : s.created.Nodup
  returned : ∀ r ∈ s.returned, s.writers r.1 = some r.2

theorem writersInv_init (ι : Type) : WritersInv (Writers.init ι) where
  locked _ := ⟨False.elim, fun h => by cases h⟩
  knows _ := trivial
  entry _ _ h := by cases h
  inserted _ h := by cases h
  nodup := List.nodup_nil
  returned _ h := by cases h

/-- A call outside the critical section only knows of entries. -/
theorem LookupPC.Knows.mono {writers writers' : ShardID → Option Nat}
    {created created' : List ShardID} {pc : LookupPC} (h : pc.Knows writers created)
    (hw : ¬ pc.Writing) (hgrows : ∀ shard w, writers shard = some w → writers' shard = some w) :
    pc.Knows writers' created' := by
  cases pc with
  | looked shard found =>
      cases found with
      | none => trivial
      | some w => exact hgrows shard w h
  | idle => trivial
  | called shard => trivial
  | readLocked shard => trivial
  | missed shard => trivial
  | writeLocked shard => exact absurd trivial hw
  | absent shard => exact absurd trivial hw
  | made shard w => exact absurd trivial hw
  | ready shard w => exact absurd trivial hw

namespace WritersInv

variable {ι : Type} {s s' : Writers ι}

/-- Whoever holds the write lock is alone in the critical section. -/
theorem alone (h : WritersInv s) {i j : ι} (hi : (s.calls i).Writing) (hj : (s.calls j).Writing) :
    i = j := by
  have he := ((h.locked i).mp hi).symm.trans ((h.locked j).mp hj)
  exact Option.some.inj he

/-- **The second look decides**: a shard found absent under the write lock has
no writer anywhere. -/
theorem absent (h : WritersInv s) {i : ι} {shard : ShardID} (hi : s.calls i = .absent shard) :
    shard ∉ s.created := by
  intro hmem
  have hnone : s.writers shard = none := by
    have := h.knows i
    rwa [hi] at this
  rcases h.inserted shard hmem with hsome | ⟨j, w, hj⟩
  · exact hsome hnone
  · obtain rfl : i = j := h.alone (by rw [hi]; trivial) (by rw [hj]; trivial)
    rw [hi] at hj
    cases hj

/-- The call returns what is in the map. -/
theorem mem_returned {shard : ShardID} {w : Nat} (hw : s.writers shard = some w) :
    ∀ r ∈ s.returned ++ [(shard, w)], r ∈ s.returned ∨ s.writers r.1 = some r.2 := by
  intro r hr
  rcases List.mem_append.mp hr with hr | hr
  · exact Or.inl hr
  · obtain rfl := List.mem_singleton.mp hr
    exact Or.inr hw

variable [DecidableEq ι]

/-- A step that leaves map and creations alone. -/
theorem goto (h : WritersInv s) (i : ι) (pc : LookupPC)
    (hmade : ∀ shard w, s.calls i ≠ .made shard w)
    (hcalls : s'.calls = Function.update s.calls i pc) (hwriters : s'.writers = s.writers)
    (hcreated : s'.created = s.created)
    (hlocked : ∀ j, (Function.update s.calls i pc j).Writing ↔ s'.mu.writer = some j)
    (hknows : pc.Knows s.writers s.created)
    (hreturned : ∀ r ∈ s'.returned, r ∈ s.returned ∨ s.writers r.1 = some r.2) :
    WritersInv s' := by
  constructor
  · rwa [hcalls]
  · intro j
    rw [hcalls, hwriters, hcreated]
    by_cases hj : j = i
    · subst hj
      rwa [Function.update_self]
    · rw [Function.update_of_ne hj]
      exact h.knows j
  · rw [hwriters, hcreated]
    exact h.entry
  · rw [hwriters, hcreated, hcalls]
    intro shard hmem
    refine (h.inserted shard hmem).imp id fun ⟨j, w, hj⟩ => ⟨j, w, ?_⟩
    have hne : j ≠ i := by
      rintro rfl
      exact hmade shard w hj
    rw [Function.update_of_ne hne, hj]
  · rw [hcreated]
    exact h.nodup
  · intro r hr
    rw [hwriters]
    exact (hreturned r hr).elim (h.returned r) id

/-- The lock is not touched. -/
theorem locked_keep (h : WritersInv s) {i : ι} {pc : LookupPC}
    (hpc : pc.Writing ↔ (s.calls i).Writing) :
    ∀ j, (Function.update s.calls i pc j).Writing ↔ s.mu.writer = some j := by
  intro j
  by_cases hj : j = i
  · subst hj
    rw [Function.update_self, hpc]
    exact h.locked j
  · rw [Function.update_of_ne hj]
    exact h.locked j

/-- The write lock is taken. -/
theorem locked_take (h : WritersInv s) {i : ι} {pc : LookupPC} (hfree : s.mu.writer = none)
    (hpc : pc.Writing) :
    ∀ j, (Function.update s.calls i pc j).Writing ↔ some i = some j := by
  intro j
  by_cases hj : j = i
  · subst hj
    rw [Function.update_self]
    exact ⟨fun _ => rfl, fun _ => hpc⟩
  · rw [Function.update_of_ne hj, h.locked j, hfree]
    exact ⟨fun he => (by cases he), fun he => absurd (Option.some.inj he).symm hj⟩

/-- The write lock is given back. -/
theorem locked_drop (h : WritersInv s) {i : ι} {pc : LookupPC} (hi : (s.calls i).Writing)
    (hpc : ¬ pc.Writing) :
    ∀ j, (Function.update s.calls i pc j).Writing ↔ none = some j := by
  intro j
  by_cases hj : j = i
  · subst hj
    rw [Function.update_self]
    exact ⟨fun hw => absurd hw hpc, fun he => by cases he⟩
  · rw [Function.update_of_ne hj]
    exact ⟨fun hw => absurd (h.alone hw hi) hj, fun he => by cases he⟩

/-- `NewShardWriter` under the write lock. -/
theorem create (h : WritersInv s) {i : ι} {shard : ShardID} (hi : s.calls i = .absent shard) :
    WritersInv { s.goto i (.made shard s.created.length) with
      created := s.created ++ [shard] } := by
  have hwriting : (s.calls i).Writing := by
    rw [hi]
    trivial
  refine ⟨h.locked_keep (by rw [hi]; exact Iff.rfl), fun j => ?_, fun sh w hw => ?_,
    fun sh hmem => ?_, ?_, h.returned⟩
  · show (Function.update s.calls i _ j).Knows s.writers (s.created ++ [shard])
    by_cases hj : j = i
    · subst hj
      have hnone := h.knows j
      rw [hi] at hnone
      rw [Function.update_self]
      exact ⟨hnone, List.getElem?_concat_length⟩
    · rw [Function.update_of_ne hj]
      exact (h.knows j).mono (fun hw => hj (h.alone hw hwriting)) fun _ _ hw => hw
  · have hget := h.entry sh w hw
    show (s.created ++ [shard])[w]? = some sh
    rw [List.getElem?_append_left (List.getElem?_eq_some_iff.mp hget).1, hget]
  · rcases List.mem_append.mp hmem with hmem | hmem
    · refine (h.inserted sh hmem).imp id fun ⟨j, w, hj⟩ => ?_
      -- nobody else is about to insert while this call holds the lock
      obtain rfl : j = i := h.alone (by rw [hj]; trivial) hwriting
      rw [hi] at hj
      cases hj
    · obtain rfl := List.mem_singleton.mp hmem
      exact Or.inr ⟨i, _, Function.update_self ..⟩
  · rw [List.nodup_append]
    refine ⟨h.nodup, by simp, fun a ha b hb => ?_⟩
    obtain rfl := List.mem_singleton.mp hb
    rintro rfl
    exact h.absent hi ha

/-- `s.writers[shard] = w` under the write lock replaces nothing. -/
theorem insert (h : WritersInv s) {i : ι} {shard : ShardID} {w : Nat}
    (hi : s.calls i = .made shard w) :
    WritersInv { s.goto i (.ready shard w) with
      writers := Function.update s.writers shard (some w) } := by
  have hwriting : (s.calls i).Writing := by
    rw [hi]
    trivial
  obtain ⟨hnone, hget⟩ : s.writers shard = none ∧ s.created[w]? = some shard := by
    have := h.knows i
    rwa [hi] at this
  have hgrows : ∀ sh x, s.writers sh = some x →
      Function.update s.writers shard (some w) sh = some x := by
    intro sh x hx
    by_cases hsh : sh = shard
    · rw [hsh, hnone] at hx
      cases hx
    · rw [Function.update_of_ne hsh, hx]
  refine ⟨h.locked_keep (by rw [hi]; exact Iff.rfl), fun j => ?_, fun sh x hx => ?_,
    fun sh hmem => ?_, h.nodup, fun r hr => hgrows _ _ (h.returned r hr)⟩
  · show (Function.update s.calls i _ j).Knows (Function.update s.writers shard (some w)) s.created
    by_cases hj : j = i
    · subst hj
      rw [Function.update_self]
      exact Function.update_self ..
    · rw [Function.update_of_ne hj]
      exact (h.knows j).mono (fun hw => hj (h.alone hw hwriting)) hgrows
  · change Function.update s.writers shard (some w) sh = some x at hx
    by_cases hsh : sh = shard
    · subst hsh
      rw [Function.update_self] at hx
      cases hx
      exact hget
    · rw [Function.update_of_ne hsh] at hx
      exact h.entry sh x hx
  · left
    show Function.update s.writers shard (some w) sh ≠ none
    by_cases hsh : sh = shard
    · subst hsh
      rw [Function.update_self]
      exact Option.some_ne_none w
    · rw [Function.update_of_ne hsh]
      rcases h.inserted sh hmem with hsome | ⟨j, x, hj⟩
      · exact hsome
      · obtain rfl : j = i := h.alone (by rw [hj]; trivial) hwriting
        rw [hi] at hj
        cases hj
        exact absurd rfl hsh

/-- The next step of a call. -/
theorem next (h : WritersInv s) {i : ι} (hnext : s.next i = some s') : WritersInv s' := by
  have hknows := h.knows i
  unfold Writers.next at hnext
  split at hnext
  case h_1 => cases hnext
  case h_2 shard hi =>
    obtain ⟨mu, hmu, rfl⟩ := Option.map_eq_some_iff.mp hnext
    obtain ⟨-, rfl⟩ := RWMutex.rlock_eq_some hmu
    exact h.goto i (.readLocked shard) (by simp [hi]) rfl rfl rfl
      (h.locked_keep (by rw [hi]; exact Iff.rfl)) trivial fun _ => Or.inl
  case h_3 shard hi =>
    cases hnext
    refine h.goto i (.looked shard (s.writers shard)) (by simp [hi]) rfl rfl rfl
      (h.locked_keep (by rw [hi]; exact Iff.rfl)) ?_ fun _ => Or.inl
    cases hw : s.writers shard with
    | none => trivial
    | some w => exact hw
  case h_4 shard w hi =>
    cases hnext
    rw [hi] at hknows
    exact h.goto i .idle (by simp [hi]) rfl rfl rfl
      (h.locked_keep (by rw [hi]; exact Iff.rfl)) trivial (mem_returned hknows)
  case h_5 shard hi =>
    cases hnext
    exact h.goto i (.missed shard) (by simp [hi]) rfl rfl rfl
      (h.locked_keep (by rw [hi]; exact Iff.rfl)) trivial fun _ => Or.inl
  case h_6 shard hi =>
    obtain ⟨mu, hmu, rfl⟩ := Option.map_eq_some_iff.mp hnext
    obtain ⟨hfree, -, rfl⟩ := RWMutex.lock_eq_some hmu
    exact h.goto i (.writeLocked shard) (by simp [hi]) rfl rfl rfl
      (h.locked_take hfree trivial) trivial fun _ => Or.inl
  case h_7 shard hi =>
    split at hnext
    · rename_i w hw
      cases hnext
      exact h.goto i (.ready shard w) (by simp [hi]) rfl rfl rfl
        (h.locked_keep (by rw [hi]; exact Iff.rfl)) hw fun _ => Or.inl
    · rename_i hw
      cases hnext
      exact h.goto i (.absent shard) (by simp [hi]) rfl rfl rfl
        (h.locked_keep (by rw [hi]; exact Iff.rfl)) hw fun _ => Or.inl
  case h_8 shard hi =>
    cases hnext
    exact h.create hi
  case h_9 shard w hi =>
    cases hnext
    exact h.insert hi
  case h_10 shard w hi =>
    cases hnext
    rw [hi] at hknows
    exact h.goto i .idle (by simp [hi]) rfl rfl rfl
      (h.locked_drop (by rw [hi]; trivial) id) trivial (mem_returned hknows)

/-- **Step lemma.** -/
theorem step (h : WritersInv s) {a : LookupAct ι} (hstep : s.step a = some s') :
    WritersInv s' := by
  cases a with
  | call i shard =>
      rw [Writers.step] at hstep
      split_ifs at hstep with hi
      cases hstep
      exact h.goto i (.called shard) (by simp [hi]) rfl rfl rfl
        (h.locked_keep (by rw [hi]; exact Iff.rfl)) trivial fun _ => Or.inl
  | next i => exact h.next hstep

end WritersInv

section
variable {ι : Type} [DecidableEq ι] {s s' : Writers ι}

theorem writersInv_of_reach (h : Reachable Writers.step always (Writers.init ι) s) : WritersInv s :=
  h.invariant (writersInv_init ι) fun _ _ _ hinv _ hs => hinv.step hs

/-- No step replaces an entry of the map. -/
theorem WritersInv.entry_kept (h : WritersInv s) {a : LookupAct ι} (hstep : s.step a = some s')
    {shard : ShardID} {w : Nat} (hw : s.writers shard = some w) : s'.writers shard = some w := by
  cases a with
  | call i shard' =>
      rw [Writers.step] at hstep
      split_ifs at hstep
      cases hstep
      exact hw
  | next i =>
      have hknows := h.knows i
      change s.next i = some s' at hstep
      unfold Writers.next at hstep
      split at hstep
      case h_1 => cases hstep
      case h_2 =>
        obtain ⟨mu, -, rfl⟩ := Option.map_eq_some_iff.mp hstep
        exact hw
      case h_6 =>
        obtain ⟨mu, -, rfl⟩ := Option.map_eq_some_iff.mp hstep
        exact hw
      case h_7 =>
        split at hstep
        · cases hstep
          exact hw
        · cases hstep
          exact hw
      case h_9 shard' w' hi =>
        cases hstep
        rw [hi] at hknows
        have hne : shard ≠ shard' := by
          rintro rfl
          rw [hknows.1] at hw
          cases hw
        exact (Function.update_of_ne hne ..).trans hw
      all_goals
        cases hstep
        exact hw

/-- **One writer per shard.** However many calls run at once: no shard gets
two writers, every call returns the writer its shard has in the map, and that
entry is never replaced. -/
theorem one_writer_per_shard
    (h : Reachable Writers.step always (Writers.init ι) s) :
    s.created.Nodup ∧
      (∀ r ∈ s.returned, s.writers r.1 = some r.2 ∧ s.created[r.2]? = some r.1) ∧
      ∀ s', Reachable Writers.step always s s' → ∀ shard w, s.writers shard = some w →
        s'.writers shard = some w := by
  have hinv := writersInv_of_reach h
  refine ⟨hinv.nodup, fun r hr => ?_, fun s' h' => ?_⟩
  · have hw := hinv.returned r hr
    exact ⟨hw, hinv.entry _ _ hw⟩
  · induction h' with
    | start => exact fun _ _ hw => hw
    | step hreach _ hs ih =>
        intro shard w hw
        exact (writersInv_of_reach (h.trans hreach)).entry_kept hs (ih shard w hw)

/-- Two streams race for one shard: both miss it under the read lock, and the
second finds what the first has inserted. -/
def race : List (LookupAct Bool) :=
  [.call false 7, .call true 7, .next false, .next true, .next false, .next true,
   .next false, .next true, .next true, .next true, .next true, .next true, .next true,
   .next false, .next false, .next false]

end

theorem one_writer_per_shard_race :
    ∃ s, Reachable Writers.step always (Writers.init Bool) s ∧ s.returned = [(7, 0), (7, 0)] ∧
      s.created = [7] ∧ s.created.Nodup := by
  obtain ⟨s, hrun, hs⟩ := exists_reach_of_run Writers.step always (Writers.init Bool) race
    (fun s => decide (s.returned = [(7, 0), (7, 0)] ∧ s.created = [7])) (by decide +kernel)
  obtain ⟨hr, hc⟩ := of_decide_eq_true hs
  exact ⟨s, hrun, hr, hc, (one_writer_per_shard hrun).1⟩

end Bbdb.Grpc
