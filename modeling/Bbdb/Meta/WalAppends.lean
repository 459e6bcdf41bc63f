import Bbdb.Meta.Wal
import Mathlib.Logic.Relation

/-!
# Meta — concurrent WAL appends

Any number of `WALAppend` calls on one shard, each operation on pebble a step
of its own. `done` is a ghost: the values of the calls that have returned nil.

`WALNextSeq` is a `Get` and a `Set`, so two calls can be given the same number
and the later entry replaces the earlier one. As long as a call starts only
when no other one is in progress, and the counter does not wrap, every value
has a key of its own (`appends_distinct`).
-/

namespace Bbdb.Meta

open Bbdb.Bytes
open Prog hiding pure bind

/-! ## The calls -/

/-- A call in progress: the value it appends, and what is left of it. -/
structure AppendCall where
  data : Bytes
  rest : Proc (Except Err Unit)

structure Appends (ι : Type) where
  world : World
  calls : ι → Option AppendCall
  done : List Bytes

namespace Appends

variable {ι : Type} [DecidableEq ι]

def init (ι : Type) (w : World) : Appends ι := ⟨w, fun _ => none, []⟩

def setCall (s : Appends ι) (i : ι) (c : Option AppendCall) : Appends ι :=
  { s with calls := Function.update s.calls i c }

/-- A caller calls `WALAppend`, takes its next operation, or returns. A call
starts only in states with `cond`. -/
inductive Step (shard : ShardID) (cond : Appends ι → Prop) : Appends ι → Appends ι → Prop
  | call {s : Appends ι} {i : ι} {data : Bytes} : s.calls i = none → cond s →
      Step shard cond s (s.setCall i (some ⟨data, (walAppend shard data).run⟩))
  | op {s : Appends ι} {i : ι} {data : Bytes} {o : Op} {k : o.Res → Proc (Except Err Unit)}
      {r : o.Res} {w' : World} : s.calls i = some ⟨data, .op o k⟩ → sem o s.world r w' →
      Step shard cond s { s.setCall i (some ⟨data, k r⟩) with world := w' }
  | ret {s : Appends ι} {i : ι} {data : Bytes} {r : Except Err Unit} :
      s.calls i = some ⟨data, .pure r⟩ →
      Step shard cond s { s.setCall i none with
        done := s.done ++ if r.isOk then [data] else [] }

/-- The states of the runs whose calls all start with `cond`. -/
abbrev Reach (shard : ShardID) (cond : Appends ι → Prop) : Appends ι → Appends ι → Prop :=
  Relation.ReflTransGen (Step shard cond)

/-- Distinct entries of the shard hold the values. -/
def Held (shard : ShardID) (m : KV) (values : List Bytes) : Prop :=
  ∃ seqs : List UInt64, seqs.Nodup ∧
    List.Forall₂ (fun seq data => m.get (walKey shard seq) = some data) seqs values

/-- No other call is in progress, and the counter is not at its maximum. -/
def Alone (shard : ShardID) (s : Appends ι) : Prop :=
  (∀ i, s.calls i = none) ∧ nextSeq shard s.world.db.view < 2 ^ 64

end Appends

/-! ## One call -/

/-- The entries below `n` stay, and their numbers stay in use. -/
def WalKeeps (shard : ShardID) (n : Nat) (w w' : World) : Prop :=
  (∀ q d, q.toNat < n → w.db.view.get (walKey shard q) = some d →
    w'.db.view.get (walKey shard q) = some d) ∧ n ≤ nextSeq shard w'.db.view

/-- What a call that was given the number `n` leaves. -/
def AppendLeaves (shard : ShardID) (n : Nat) (data : Bytes) (r : Except Err Unit) (w : World) :
    Prop :=
  r.isOk = true → n < nextSeq shard w.db.view ∧
    ∃ q : UInt64, q.toNat = n ∧ w.db.view.get (walKey shard q) = some data

section
variable {shard : ShardID} {w : World} {n : Nat} {data : Bytes}

theorem WalKeeps.refl (h : n ≤ nextSeq shard w.db.view) : WalKeeps shard n w w :=
  ⟨fun _ _ _ h => h, h⟩

/-- **A call that nobody interrupts** uses the next number of the counter. -/
theorem ensures_walAppend_own (hn : n = nextSeq shard w.db.view) (hroom : n < 2 ^ 64) :
    Ensures sem (WalKeeps shard n) (walAppend shard data).run (AppendLeaves shard n data) w := by
  generalize hc : freshSeq shard w.db.view = next
  have hnext : next.toNat = n := by rw [hn, ← hc, toNat_freshSeq (hn ▸ hroom)]
  have hseq : nextSeq shard (w.commit [.set (walSeqKey shard) (putUint64 next)] true).db.view
      = next.toNat + 1 := nextSeq_counter next
  refine ensures_walAppend_of hc rfl (WalKeeps.refl (by omega)) (fun _ hr => by cases hr)
    ⟨fun q d _ hd => ?_, by omega⟩ (WalKeeps.refl (by omega)) (fun _ hr => by cases hr)
    ⟨fun q d hq hd => ?_, by rw [nextSeq_entry]; omega⟩ fun _ => ⟨?_, next, hnext, ?_⟩
  · rw [get_commit_set, if_neg (walKey_ne_walSeqKey shard shard q), hd]
  · -- the new entry has a larger number
    rw [get_commit_set, if_neg, hd]
    intro he
    rw [(walKey_inj.mp he).2] at hq
    omega
  · rw [nextSeq_entry]
    omega
  · rw [get_commit_set, if_pos rfl]

end

/-! ## All calls -/

/-- The values of the calls that have returned lie under distinct numbers
below `n`. -/
def Kept (shard : ShardID) (m : KV) (done : List Bytes) (n : Nat) : Prop :=
  ∃ seqs : List UInt64, seqs.Nodup ∧
    List.Forall₂ (fun seq data => seq.toNat < n ∧ m.get (walKey shard seq) = some data) seqs done

/-- Nobody is in a call, or one caller is and the number it is given is `n`. -/
inductive AppendInv {ι : Type} (shard : ShardID) (s : Appends ι) : Prop
  | idle : (∀ i, s.calls i = none) →
      Kept shard s.world.db.view s.done (nextSeq shard s.world.db.view) → AppendInv shard s
  | busy (i : ι) (c : AppendCall) (n : Nat) : s.calls i = some c →
      (∀ j, j ≠ i → s.calls j = none) → Kept shard s.world.db.view s.done n →
      n ≤ nextSeq shard s.world.db.view →
      Ensures sem (WalKeeps shard n) c.rest (AppendLeaves shard n c.data) s.world →
      AppendInv shard s

section
variable {shard : ShardID} {m m' : KV} {done : List Bytes} {n n' : Nat}

theorem Kept.mono (h : Kept shard m done n) (hle : n ≤ n')
    (hkeep : ∀ q d, q.toNat < n → m.get (walKey shard q) = some d →
      m'.get (walKey shard q) = some d) : Kept shard m' done n' := by
  obtain ⟨seqs, hnodup, hall⟩ := h
  exact ⟨seqs, hnodup, hall.imp fun q d hq => ⟨hq.1.trans_le hle, hkeep q d hq.1 hq.2⟩⟩

/-- One more value, under a number that was not used before. -/
theorem Kept.snoc (h : Kept shard m done n) {q : UInt64} {data : Bytes} (hq : q.toNat = n)
    (hn : n < n') (hdata : m.get (walKey shard q) = some data) :
    Kept shard m (done ++ [data]) n' := by
  obtain ⟨seqs, hnodup, hall⟩ := h
  have hlt : ∀ x ∈ seqs, x.toNat < n := by
    clear hnodup
    induction hall with
    | nil => exact fun x hx => by cases hx
    | cons hx _ ih => exact List.forall_mem_cons.mpr ⟨hx.1, ih⟩
  refine ⟨seqs ++ [q], ?_, ?_⟩
  · refine List.nodup_append.mpr ⟨hnodup, by simp, fun a ha b hb => ?_⟩
    rintro rfl
    rw [List.mem_singleton.mp hb] at ha
    exact absurd (hlt q ha) (by omega)
  · refine List.rel_append (hall.imp fun x d hx => ⟨hx.1.trans hn, hx.2⟩) ?_
    exact List.Forall₂.cons ⟨by omega, hdata⟩ List.Forall₂.nil

theorem Kept.held (h : Kept shard m done n) : Appends.Held shard m done := by
  obtain ⟨seqs, hnodup, hall⟩ := h
  exact ⟨seqs, hnodup, hall.imp fun _ _ hq => hq.2⟩

end

theorem appendInv_init {ι : Type} (shard : ShardID) (w : World) :
    AppendInv shard (Appends.init ι w) :=
  .idle (fun _ => rfl) ⟨[], List.nodup_nil, List.Forall₂.nil⟩

section
variable {ι : Type} [DecidableEq ι] {shard : ShardID} {s s' : Appends ι}

/-- A caller in its call is the only one. -/
theorem AppendInv.of_call {i : ι} {c : AppendCall} (h : AppendInv shard s)
    (hi : s.calls i = some c) :
    ∃ n, (∀ j, j ≠ i → s.calls j = none) ∧ Kept shard s.world.db.view s.done n ∧
      n ≤ nextSeq shard s.world.db.view ∧
      Ensures sem (WalKeeps shard n) c.rest (AppendLeaves shard n c.data) s.world := by
  cases h with
  | idle hidle =>
      rw [hidle i] at hi
      cases hi
  | busy j c' n hj hothers hkept hle hens =>
      obtain rfl : j = i := by
        by_contra hne
        rw [hothers i (Ne.symm hne)] at hi
        cases hi
      obtain rfl : c' = c := Option.some.inj (hj.symm.trans hi)
      exact ⟨n, hothers, hkept, hle, hens⟩

/-- **Step lemma.** -/
theorem AppendInv.step (h : AppendInv shard s) (hs : Appends.Step shard (Appends.Alone shard) s s') :
    AppendInv shard s' := by
  cases hs with
  | @call i data hi halone =>
      obtain ⟨hidle, hroom⟩ := halone
      cases h with
      | idle _ hkept =>
          refine .busy i _ _ (Function.update_self ..) (fun j hj => ?_) hkept (Nat.le_refl _)
            (ensures_walAppend_own rfl hroom)
          exact (Function.update_of_ne hj ..).trans (hidle j)
      | busy j c n hj =>
          rw [hidle j] at hj
          cases hj
  | @op i data o k r w' hi hop =>
      obtain ⟨n, hothers, hkept, -, hens⟩ := h.of_call hi
      obtain ⟨hkeeps, hens'⟩ := hens r w' hop
      refine .busy i _ n (Function.update_self ..) (fun x hx => ?_)
        (hkept.mono (Nat.le_refl _) hkeeps.1) hkeeps.2 hens'
      exact (Function.update_of_ne hx ..).trans (hothers x hx)
  | @ret i data r hi =>
      obtain ⟨n, hothers, hkept, hle, hens⟩ := h.of_call hi
      refine .idle (fun x => ?_) ?_
      · by_cases hx : x = i
        · rw [hx]
          exact Function.update_self ..
        · exact (Function.update_of_ne hx ..).trans (hothers x hx)
      · show Kept shard s.world.db.view (s.done ++ if r.isOk then [data] else []) _
        split_ifs with hr
        · obtain ⟨hlt, q, hq, hget⟩ := hens hr
          exact hkept.snoc hq hlt hget
        · rw [List.append_nil]
          exact hkept.mono hle fun _ _ _ hd => hd

/-- **Appends that take turns keep every value.** Whatever the store held
before and whichever operations fail: in every run in which a call starts only
when no other is in progress and the counter is not at its maximum, distinct
entries of the shard hold the values of all calls that have returned nil. -/
theorem appends_distinct {w : World}
    (hrun : Appends.Reach shard (Appends.Alone shard) (Appends.init ι w) s) :
    Appends.Held shard s.world.db.view s.done := by
  have hinv : AppendInv shard s := by
    induction hrun with
    | refl => exact appendInv_init shard w
    | tail _ hs ih => exact ih.step hs
  cases hinv with
  | idle _ hkept => exact hkept.held
  | busy i c n _ _ hkept => exact hkept.held

end

/-! ### Two calls -/

namespace Appends

variable {ι : Type} [DecidableEq ι] {shard : ShardID} {cond : Appends ι → Prop}

/-- The next step of `i`'s call, without faults. -/
def advance (s : Appends ι) (i : ι) : Appends ι :=
  match s.calls i with
  | none => s
  | some ⟨data, .op o k⟩ =>
      { s.setCall i (some ⟨data, k (o.exec s.world).1⟩) with world := (o.exec s.world).2 }
  | some ⟨data, .pure r⟩ =>
      { s.setCall i none with done := s.done ++ if r.isOk then [data] else [] }

theorem reach_advance (s : Appends ι) (i : ι) : Reach shard cond s (s.advance i) := by
  rw [advance]
  split
  · exact .refl
  · rename_i data o k hi
    exact .single (.op hi (Or.inl rfl))
  · rename_i data r hi
    exact .single (.ret hi)

theorem reach_foldl (is : List ι) (s : Appends ι) :
    Reach shard cond s (is.foldl advance s) := by
  induction is generalizing s with
  | nil => exact .refl
  | cons i is ih => exact (reach_advance s i).trans (ih _)

/-- An empty store and two callers. -/
def start : Appends Bool := init Bool ⟨Pebble.empty, fun _ => none, 0⟩

def startCall (s : Appends Bool) (i : Bool) (data : Bytes) : Appends Bool :=
  s.setCall i (some ⟨data, (walAppend 7 data).run⟩)

/-- One call after the other: three operations and the return, twice. -/
def firstOfTwo : Appends Bool := (List.replicate 4 false).foldl advance (start.startCall false [1])

def oneByOne : Appends Bool :=
  (List.replicate 4 true).foldl advance (firstOfTwo.startCall true [2])

/-- Both calls side by side. -/
def sideBySide : Appends Bool :=
  [false, true, false, true, false, true, false, true].foldl advance
    ((start.startCall false [1]).startCall true [2])

theorem reach_startCall {cond : Appends Bool → Prop} {s : Appends Bool} {i : Bool} {data : Bytes}
    (hi : (s.calls i).isNone = true) (hc : cond s) : Reach 7 cond s (s.startCall i data) :=
  .single (.call (Option.isNone_iff_eq_none.mp hi) hc)

theorem reach_oneByOne : Reach 7 (Alone 7) start oneByOne := by
  have hidle : ∀ i, (firstOfTwo.calls i).isNone = true := by decide +kernel
  have halone : Alone 7 firstOfTwo :=
    ⟨fun i => Option.isNone_iff_eq_none.mp (hidle i), by decide +kernel⟩
  calc Reach 7 (Alone 7) start (start.startCall false [1]) :=
        reach_startCall rfl ⟨fun _ => rfl, by decide +kernel⟩
    Reach 7 (Alone 7) _ firstOfTwo := reach_foldl _ _
    Reach 7 (Alone 7) _ (firstOfTwo.startCall true [2]) := reach_startCall (hidle true) halone
    Reach 7 (Alone 7) _ oneByOne := reach_foldl _ _

theorem reach_sideBySide : Reach 7 (fun _ => True) start sideBySide := by
  have h₁ : Reach 7 (fun _ => True) start (start.startCall false [1]) := reach_startCall rfl trivial
  have h₂ : Reach 7 (fun _ => True) (start.startCall false [1])
      ((start.startCall false [1]).startCall true [2]) := reach_startCall rfl trivial
  exact (h₁.trans h₂).trans (reach_foldl _ _)

/-- Both calls have stored 0 as the counter and written the entry 0. -/
theorem world_sideBySide : sideBySide.world =
    (((start.world.commit [.set (walSeqKey 7) (putUint64 0)] true).commit
      [.set (walSeqKey 7) (putUint64 0)] true).commit [.set (walKey 7 0) [1]] true).commit
        [.set (walKey 7 0) [2]] true := rfl

end Appends

theorem appends_distinct_oneByOne :
    Appends.Reach 7 (Appends.Alone 7) Appends.start Appends.oneByOne ∧
      Appends.oneByOne.done = [[1], [2]] ∧
      Appends.Held 7 Appends.oneByOne.world.db.view [[1], [2]] := by
  have hdone : Appends.oneByOne.done = [[1], [2]] := by decide +kernel
  refine ⟨Appends.reach_oneByOne, hdone, ?_⟩
  rw [← hdone]
  exact appends_distinct Appends.reach_oneByOne

/-- Both calls read no counter, both store 0, both write the entry 0: both
return nil, and the first value is gone. -/
theorem appends_lose_value :
    Appends.Reach 7 (fun _ => True) Appends.start Appends.sideBySide ∧
      (∀ i, (Appends.sideBySide.calls i).isNone) ∧ Appends.sideBySide.done = [[1], [2]] ∧
      (∀ q, Appends.sideBySide.world.db.view.get (walKey 7 q) ≠ some [1]) ∧
      ¬ Appends.Held 7 Appends.sideBySide.world.db.view Appends.sideBySide.done := by
  have hdone : Appends.sideBySide.done = [[1], [2]] := by decide +kernel
  have hgone : ∀ q, Appends.sideBySide.world.db.view.get (walKey 7 q) ≠ some [1] := by
    intro q
    rw [Appends.world_sideBySide, get_commit_set]
    split_ifs with hq
    · decide
    · rw [get_commit_set, if_neg hq, get_commit_set, if_neg (walKey_ne_walSeqKey 7 7 q),
        get_commit_set, if_neg (walKey_ne_walSeqKey 7 7 q)]
      exact Option.some_ne_none [1] |>.symm
  refine ⟨Appends.reach_sideBySide, by decide +kernel, hdone, hgone, ?_⟩
  rw [hdone]
  rintro ⟨seqs, -, hall⟩
  cases hall with
  | cons hfirst _ => exact hgone _ hfirst

end Bbdb.Meta
