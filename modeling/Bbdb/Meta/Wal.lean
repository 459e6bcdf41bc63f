import Bbdb.Meta.Store

/-!
# Meta — the WAL of a shard

What appending to the WAL does to pebble. The counter of a shard stays above
every sequence number in use (`SeqInv`), so as long as it does not wrap, an
append writes a key that no entry has: entries are only added (`WalAdds`).
-/

namespace Bbdb.Meta

open Bbdb.Bytes
open Prog hiding pure bind

/-- The operations of the WAL functions of a shard. -/
def WalCalls (shard : ShardID) : Op → Prop
  | .get _ => True
  | .commit b sync => sync = true ∧
      ∃ k v, b = [.set k v] ∧ (k = walSeqKey shard ∨ ∃ q, k = walKey shard q)
  | _ => False

/-- What one of them can change: the counter or one entry of the shard. -/
structure WalStep (shard : ShardID) (w w' : World) : Prop where
  fs : w'.fs = w.fs
  clock : w.clock ≤ w'.clock
  db : w'.db = w.db ∨ ∃ k v, (k = walSeqKey shard ∨ ∃ q, k = walKey shard q) ∧
    w'.db = w.db.commit [.set k v] true

theorem calls_walSet {shard : ShardID} {k v : Bytes}
    (hk : k = walSeqKey shard ∨ ∃ q, k = walKey shard q) :
    Calls (S := machine) (WalCalls shard) (dbSet k v).run :=
  calls_call.mpr ⟨rfl, k, v, rfl, hk⟩

theorem calls_walNextSeq (shard : ShardID) :
    Calls (S := machine) (WalCalls shard) (walNextSeq shard).run := by
  refine calls_bindE ?_ fun next => calls_bindE (calls_walSet (Or.inl rfl)) fun _ => calls_pure _
  refine calls_bind (calls_call.mpr trivial) fun r => ?_
  cases r with
  | ok val => exact calls_pure _
  | error e => exact calls_pure _

theorem calls_walAppend (shard : ShardID) (data : Bytes) :
    Calls (S := machine) (WalCalls shard) (walAppend shard data).run :=
  calls_bindE (calls_walNextSeq shard) fun seq => calls_walSet (Or.inr ⟨seq, rfl⟩)

theorem walStep_of_sem {shard : ShardID} {o : Op} {w w' : World} {r : o.Res}
    (ho : WalCalls shard o) (h : sem o w r w') : WalStep shard w w' := by
  have he := sem_effect h
  refine ⟨?_, he.clock, ?_⟩
  · funext p
    refine he.files p fun ht => ?_
    cases o with
    | get _ | commit _ _ => exact ht
    | _ => exact ho
  · rcases he.db with hdb | ⟨b, sync, rfl, hdb⟩
    · exact Or.inl hdb
    · obtain ⟨rfl, k, v, rfl, hk⟩ := ho
      exact Or.inr ⟨k, v, hk, hdb⟩

section Step

variable {shard : ShardID} {w w' : World}

theorem WalStep.get_other (h : WalStep shard w w') {k : Bytes} (hwal : family k ≠ prefixWAL)
    (hseq : family k ≠ prefixSeq) : w'.db.view.get k = w.db.view.get k := by
  rcases h.db with hdb | ⟨x, v, hx, hdb⟩
  · rw [hdb]
  · rw [hdb, Pebble.view_commit]
    refine OrdMap.get_set_ne _ _ ?_
    rcases hx with rfl | ⟨q, rfl⟩
    · exact ne_of_family (by rw [family_walSeqKey]; exact hseq)
    · exact ne_of_family (by rw [family_walKey]; exact hwal)

/-- From `w` to `w'` nothing but WAL keys has changed. -/
def WalOnly (w w' : World) : Prop :=
  w'.fs = w.fs ∧ ∀ k, family k ≠ prefixWAL → family k ≠ prefixSeq →
    w'.db.view.get k = w.db.view.get k

theorem WalOnly.refl (w : World) : WalOnly w w := ⟨rfl, fun _ _ _ => rfl⟩

theorem WalOnly.trans {a b c : World} (h₁ : WalOnly a b) (h₂ : WalOnly b c) : WalOnly a c :=
  ⟨h₂.1.trans h₁.1, fun k hw hs => (h₂.2 k hw hs).trans (h₁.2 k hw hs)⟩

theorem WalStep.walOnly (h : WalStep shard w w') : WalOnly w w' :=
  ⟨h.fs, fun _ hw hs => h.get_other hw hs⟩

end Step

/-! ## Fresh sequence numbers -/

/-- The number the next append of a shard will use, if it does not wrap. -/
def nextSeq (shard : ShardID) (m : KV) : Nat :=
  match m.get (walSeqKey shard) with
  | none => 0
  | some val => (getUint64 val).toNat + 1

/-- The number that `WALNextSeq` hands out next. -/
def freshSeq (shard : ShardID) (m : KV) : UInt64 :=
  match m.get (walSeqKey shard) with
  | none => 0
  | some val => getUint64 val + 1

theorem toNat_freshSeq {shard : ShardID} {m : KV} (hroom : nextSeq shard m < 2 ^ 64) :
    (freshSeq shard m).toNat = nextSeq shard m := by
  rw [freshSeq]
  cases hval : m.get (walSeqKey shard) with
  | none =>
      rw [nextSeq, hval]
      rfl
  | some val =>
      rw [nextSeq, hval] at hroom ⊢
      rw [UInt64.toNat_add]
      exact Nat.mod_eq_of_lt hroom

/-- Every sequence number in use lies below the next one. -/
def SeqInv (shard : ShardID) (m : KV) : Prop :=
  ∀ q d, m.get (walKey shard q) = some d → q.toNat < nextSeq shard m

/-- From `w` to `w'` the WAL has only gained entries, those hold `data`, and
their numbers are in order. -/
structure WalAdds (shard : ShardID) (data : Bytes) (w w' : World) : Prop extends
    WalStep shard w w' where
  inv : SeqInv shard w'.db.view
  kept : ∀ t q d, w.db.view.get (walKey t q) = some d → w'.db.view.get (walKey t q) = some d
  new : ∀ t q d, w'.db.view.get (walKey t q) = some d →
    w.db.view.get (walKey t q) = some d ∨ t = shard ∧ d = data

/-- What a reader finds after `DB.Set`. -/
theorem get_commit_set (w : World) (k v x : Bytes) :
    (w.commit [.set k v] true).db.view.get x = if x = k then some v else w.db.view.get x := by
  rw [World.commit_db, Pebble.view_commit]
  show (OrdMap.set w.db.view k v).get x = _
  rw [OrdMap.get_set]
  congr

theorem walKey_ne_walSeqKey (t s : ShardID) (q : UInt64) : walKey t q ≠ walSeqKey s :=
  ne_of_family (by rw [family_walKey, family_walSeqKey]; decide)

theorem WalAdds.refl {shard : ShardID} {w : World} (data : Bytes) (h : SeqInv shard w.db.view) :
    WalAdds shard data w w :=
  ⟨⟨rfl, le_refl _, Or.inl rfl⟩, h, fun _ _ _ h => h, fun _ _ _ h => Or.inl h⟩

section Append

variable {shard : ShardID} {w : World} {next : UInt64}

theorem nextSeq_counter (next : UInt64) :
    nextSeq shard (w.commit [.set (walSeqKey shard) (putUint64 next)] true).db.view
      = next.toNat + 1 := by
  rw [nextSeq, get_commit_set, if_pos rfl]
  simp

theorem seqInv_counter (hinv : SeqInv shard w.db.view)
    (hnext : next.toNat = nextSeq shard w.db.view) :
    SeqInv shard (w.commit [.set (walSeqKey shard) (putUint64 next)] true).db.view := by
  intro q d hq
  rw [get_commit_set, if_neg (walKey_ne_walSeqKey shard shard q)] at hq
  rw [nextSeq_counter, hnext]
  exact Nat.lt_succ_of_lt (hinv q d hq)

/-- Storing the counter leaves the entries alone. -/
theorem walAdds_counter (data : Bytes) (hinv : SeqInv shard w.db.view)
    (hnext : next.toNat = nextSeq shard w.db.view) :
    WalAdds shard data w (w.commit [.set (walSeqKey shard) (putUint64 next)] true) := by
  refine ⟨⟨rfl, le_refl _, Or.inr ⟨_, _, Or.inl rfl, rfl⟩⟩, seqInv_counter hinv hnext, ?_, ?_⟩
  · intro t q d h
    rw [get_commit_set, if_neg (walKey_ne_walSeqKey t shard q), h]
  · intro t q d h
    rw [get_commit_set, if_neg (walKey_ne_walSeqKey t shard q)] at h
    exact Or.inl h

theorem nextSeq_entry (data : Bytes) :
    nextSeq shard (w.commit [.set (walKey shard next) data] true).db.view
      = nextSeq shard w.db.view := by
  simp only [nextSeq, get_commit_set, if_neg (walKey_ne_walSeqKey shard shard next).symm]

theorem seqInv_entry {data : Bytes} (hinv : SeqInv shard w.db.view)
    (hnext : next.toNat < nextSeq shard w.db.view) :
    SeqInv shard (w.commit [.set (walKey shard next) data] true).db.view := by
  intro q d hq
  rw [nextSeq_entry]
  rw [get_commit_set] at hq
  split_ifs at hq with he
  · rw [(walKey_inj.mp he).2]
    exact hnext
  · exact hinv q d hq

/-- Storing an entry under a number that is not in use adds it. -/
theorem walAdds_entry {data : Bytes} (hinv : SeqInv shard w.db.view)
    (hnext : next.toNat < nextSeq shard w.db.view)
    (hfree : w.db.view.get (walKey shard next) = none) :
    WalAdds shard data w (w.commit [.set (walKey shard next) data] true) := by
  refine ⟨⟨rfl, le_refl _, Or.inr ⟨_, data, Or.inr ⟨next, rfl⟩, rfl⟩⟩, seqInv_entry hinv hnext,
    ?_, ?_⟩
  · intro t q d h
    rw [get_commit_set, if_neg, h]
    intro he
    rw [he, hfree] at h
    exact absurd h (by simp)
  · intro t q d h
    rw [get_commit_set] at h
    split_ifs at h with he
    · exact Or.inr ⟨(walKey_inj.mp he).1, (Option.some.inj h).symm⟩
    · exact Or.inl h

/-- A commit, with its record: the batch is applied and recorded, or nothing
has happened. -/
theorem logged_commit {b : Batch} {x y : World × List (Bytes × Bytes)} {r : Except Err Unit}
    (h : semLogged (.commit b true) x r y) :
    r = .ok () ∧ y = (x.1.commit b true, x.2 ++ b.sets) ∨ (∃ e, r = .error e) ∧ y = x := by
  obtain ⟨w, log⟩ := x
  obtain ⟨w', log'⟩ := y
  obtain ⟨hs, hlog⟩ := h
  rcases hs with hs | ⟨rfl, hw⟩
  · cases hs
    exact Or.inl ⟨rfl, Prod.ext rfl hlog⟩
  · refine Or.inr ⟨⟨_, rfl⟩, Prod.ext hw (hlog.trans ?_)⟩
    simp [Op.sets]

/-- **The rule for an append, with its record.** It reads the counter, stores
the next number and stores its entry under it; where one of the three fails, it
ends there. -/
theorem ensures_walAppend_logged
    {G : World × List (Bytes × Bytes) → World × List (Bytes × Bytes) → Prop}
    {Q : Except Err Unit → World × List (Bytes × Bytes) → Prop}
    {x x₁ x₂ : World × List (Bytes × Bytes)} {data : Bytes}
    (hnext : freshSeq shard x.1.db.view = next)
    (hx₁ : x₁ = (x.1.commit [.set (walSeqKey shard) (putUint64 next)] true,
      x.2 ++ [(walSeqKey shard, putUint64 next)]))
    (hx₂ : x₂ = (x₁.1.commit [.set (walKey shard next) data] true,
      x₁.2 ++ [(walKey shard next, data)]))
    (hrefl : G x x) (hstart : ∀ e, Q (.error e) x) (hcount : G x x₁)
    (hrefl₁ : G x₁ x₁) (hcounted : ∀ e, Q (.error e) x₁)
    (hentry : G x₁ x₂) (hdone : Q (.ok ()) x₂) :
    Ensures semLogged G (walAppend shard data).run Q x := by
  have hstores : Ensures semLogged G
      (dbSet (walSeqKey shard) (putUint64 next) >>= fun _ => pure next : Go UInt64).run
      (OnResult (fun seq => Ensures semLogged G (dbSet (walKey shard seq) data).run Q)
        fun e => Q (.error e)) x := by
    refine ensures_bindE (ensures_call fun r y hs => ?_)
    rcases logged_commit hs with ⟨rfl, hy⟩ | ⟨⟨e, rfl⟩, rfl⟩
    · obtain rfl := hy.trans hx₁.symm
      refine ⟨hcount, ensures_call fun r z hs => ?_⟩
      rcases logged_commit hs with ⟨rfl, hz⟩ | ⟨⟨e, rfl⟩, rfl⟩
      · obtain rfl := hz.trans hx₂.symm
        exact ⟨hentry, hdone⟩
      · exact ⟨hrefl₁, hcounted _⟩
    · exact ⟨hrefl, hstart _⟩
  subst hnext
  refine ensures_bindE (ensures_bindE (ensures_bind (ensures_call fun r y hs => ?_)))
  obtain ⟨w, log⟩ := x
  obtain ⟨w', log'⟩ := y
  obtain ⟨hs, hlog⟩ := hs
  have hsame : ∀ {r : Except Err Bytes}, log' = log ++ Op.sets (.get (walSeqKey shard)) r →
      log' = log := fun h => h.trans (List.append_nil _)
  obtain rfl := hsame hlog
  rcases hs with hs | ⟨rfl, rfl⟩
  · simp only [Op.exec] at hs
    split at hs
    · -- no counter yet: the first number is 0
      rename_i hnone
      cases hs
      rw [freshSeq, hnone] at hstores
      exact ⟨hrefl, ensures_pure hstores⟩
    · rename_i val hval
      cases hs
      rw [freshSeq, hval] at hstores
      exact ⟨hrefl, ensures_pure hstores⟩
  · exact ⟨hrefl, hstart _⟩

/-- The same without the record. -/
theorem ensures_walAppend_of {G : World → World → Prop} {Q : Except Err Unit → World → Prop}
    {w₁ : World} {data : Bytes} (hnext : freshSeq shard w.db.view = next)
    (hw₁ : w.commit [.set (walSeqKey shard) (putUint64 next)] true = w₁)
    (hrefl : G w w) (hstart : ∀ e, Q (.error e) w) (hcount : G w w₁)
    (hrefl₁ : G w₁ w₁) (hcounted : ∀ e, Q (.error e) w₁)
    (hentry : G w₁ (w₁.commit [.set (walKey shard next) data] true))
    (hdone : Q (.ok ()) (w₁.commit [.set (walKey shard next) data] true)) :
    Ensures sem G (walAppend shard data).run Q w := by
  subst hw₁
  exact Ensures.unlogged []
    (ensures_walAppend_logged hnext rfl rfl hrefl hstart hcount hrefl₁ hcounted hentry hdone)

/-- The state in which an append leaves the counter. -/
def AppendPost (shard : ShardID) (w w' : World) : Prop :=
  SeqInv shard w'.db.view ∧ nextSeq shard w'.db.view ≤ nextSeq shard w.db.view + 1

/-- **An append adds at most its own entry, under a number of its own.** -/
theorem ensures_walAppend {data : Bytes} (hinv : SeqInv shard w.db.view)
    (hroom : nextSeq shard w.db.view < 2 ^ 64) :
    Ensures sem (WalAdds shard data) (walAppend shard data).run
      (fun _ => AppendPost shard w) w := by
  generalize hc : freshSeq shard w.db.view = next
  have hnext : next.toNat = nextSeq shard w.db.view := by rw [← hc, toNat_freshSeq hroom]
  have hinv₁ := seqInv_counter hinv hnext
  have hseq₁ : nextSeq shard (w.commit [.set (walSeqKey shard) (putUint64 next)] true).db.view
      = next.toNat + 1 := nextSeq_counter next
  -- the number was not in use before, and the counter is no entry
  have hfree : (w.commit [.set (walSeqKey shard) (putUint64 next)] true).db.view.get
      (walKey shard next) = none := by
    rw [get_commit_set, if_neg (walKey_ne_walSeqKey shard shard next)]
    cases hq : w.db.view.get (walKey shard next) with
    | none => rfl
    | some d => exact absurd (hinv next d hq) (by omega)
  refine ensures_walAppend_of hc rfl (WalAdds.refl data hinv) (fun _ => ⟨hinv, Nat.le_succ _⟩)
    (walAdds_counter data hinv hnext) (WalAdds.refl data hinv₁) (fun _ => ⟨hinv₁, by omega⟩)
    (walAdds_entry hinv₁ (by omega) hfree) ⟨seqInv_entry hinv₁ (by omega), ?_⟩
  rw [nextSeq_entry, hseq₁]
  omega

end Append

end Bbdb.Meta
