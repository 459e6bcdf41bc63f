import Bbdb.Ingestion.WriterLoop

/-!
# gRPC — shutdown

`IngestionServer.Stop` while streams are open: it copies the list of writers,
closes the stop channel of each and waits until each has made its final flush.
The streams go on with `handleBatch` in the meantime: they look up or create
the writer of each group of events and push. `Push` and `Pop` are single steps
here, and so is `getOrCreateWriter`.

An acknowledged event is known by its shard and its place in the order of
pushes into the shard's ring. It is safe once it is `processed`: appended to
the WAL and to the memtable.

Nothing is lost as long as no `Push` comes after the writer's final drain and
no writer is created after the list was copied (`acknowledged_processed`).
`Server.Run` stops the writers before the streams, so both do happen.
-/

namespace Bbdb.Grpc

open Bbdb.Block Bbdb.Meta Bbdb.Ingestion Bbdb.Machine

/-! ## The server -/

/-- An event, its shard and its place in the order of pushes. -/
structure Placed where
  shard : ShardID
  place : Nat
  event : Event
  deriving DecidableEq

/-- Where a stream is in `handleBatch`: between two groups of the batch, or
writing one; `written` is what it has pushed. -/
inductive BatchPC
  | idle
  | groups (todo : List (ShardID × List Event)) (written : List Placed)
  | writing (shard : ShardID) (events : List Event) (todo : List (ShardID × List Event))
      (written : List Placed)
  deriving DecidableEq

/-- Where `Stop` is. -/
inductive StopPC
  | running
  | waiting (writers : List ShardID)
  | returned (writers : List ShardID)
  deriving DecidableEq

structure Server (ι : Type) where
  /-- The shards that have a writer. -/
  shards : List ShardID
  writer : ShardID → LiveWriter
  batches : ι → BatchPC
  stop : StopPC
  /-- The events of the batches answered with `Accepted > 0`. -/
  acked : List Placed

inductive ServerAct (ι : Type)
  /-- A stream receives a batch, grouped by shard. -/
  | submit (i : ι) (batch : List (ShardID × List Event))
  /-- The next step of its `handleBatch`. -/
  | next (i : ι)
  /-- Its context is done while the ring is full. -/
  | cancel (i : ι)
  /-- A step of a writer's goroutine. -/
  | flush (shard : ShardID) (a : WriterAct)
  /-- `Stop` copies the list of writers. -/
  | stop
  /-- It closes a writer's stop channel. -/
  | close (shard : ShardID)
  /-- It has heard from every writer. -/
  | stopped

namespace Server

variable {ι : Type} [DecidableEq ι]

/-- No writers, and rings of one capacity for those to come. -/
def init (ι : Type) (capacity : Int) : Server ι :=
  ⟨[], fun _ => LiveWriter.fresh capacity, fun _ => .idle, .running, []⟩

def goto (s : Server ι) (i : ι) (pc : BatchPC) : Server ι :=
  { s with batches := Function.update s.batches i pc }

def setWriter (s : Server ι) (shard : ShardID) (lw : LiveWriter) : Server ι :=
  { s with writer := Function.update s.writer shard lw }

/-- The next step of a stream. -/
def next (s : Server ι) (i : ι) : Option (Server ι) :=
  match s.batches i with
  | .idle => none
  | .groups [] written => some { s.goto i .idle with acked := s.acked ++ written }
  | .groups ((shard, events) :: todo) written =>
      some { s.goto i (.writing shard events todo written) with
        shards := if shard ∈ s.shards then s.shards else s.shards ++ [shard] }
  | .writing _ [] todo written => some (s.goto i (.groups todo written))
  | .writing shard (e :: events) todo written =>
      ((s.writer shard).push e).map fun lw =>
        (s.setWriter shard lw).goto i (.writing shard events todo
          (written ++ [⟨shard, (s.writer shard).pushed.length, e⟩]))

def step (s : Server ι) : ServerAct ι → Option (Server ι)
  | .submit i batch =>
      if s.batches i = .idle then some (s.goto i (.groups batch [])) else none
  | .next i => s.next i
  | .cancel i =>
      match s.batches i with
      | .writing shard (e :: _) _ _ =>
          if ((s.writer shard).push e).isNone then some (s.goto i .idle) else none
      | _ => none
  | .flush shard a =>
      if shard ∈ s.shards then ((s.writer shard).step a).map (s.setWriter shard) else none
  | .stop => if s.stop = .running then some { s with stop := .waiting s.shards } else none
  | .close shard =>
      match s.stop with
      | .waiting writers =>
          if shard ∈ writers ∧ (s.writer shard).stopCh = false then
            some (s.setWriter shard (s.writer shard).close)
          else none
      | _ => none
  | .stopped =>
      match s.stop with
      | .waiting writers =>
          if writers.all fun shard => (s.writer shard).pc = .stopped then
            some { s with stop := .returned writers }
          else none
      | _ => none

/-- The stream's next step is no `Push` after the final drain of its writer,
and creates no writer after `Stop` has copied the list. -/
def TimelyAt (s : Server ι) : BatchPC → Prop
  | .groups ((shard, _) :: _) _ => shard ∈ s.shards ∨ s.stop = .running
  | .writing shard (_ :: _) _ _ => (s.writer shard).pc.closed = false
  | _ => True

def Timely (s : Server ι) : ServerAct ι → Prop
  | .next i => s.TimelyAt (s.batches i)
  | _ => True

end Server

/-! ## The invariant -/

/-- The event was pushed at its place. -/
def Server.Holds {ι : Type} (s : Server ι) (p : Placed) : Prop :=
  (s.writer p.shard).pushed[p.place]? = some p.event

/-- What a stream knows: it writes to a writer that exists, and what it has
written is there. -/
def Server.Knows {ι : Type} (s : Server ι) : BatchPC → Prop
  | .idle => True
  | .groups _ written => ∀ p ∈ written, s.Holds p
  | .writing shard _ _ written => shard ∈ s.shards ∧ ∀ p ∈ written, s.Holds p

theorem Server.Knows.mono {ι : Type} {s s' : Server ι} {pc : BatchPC} (h : s.Knows pc)
    (hshards : ∀ shard ∈ s.shards, shard ∈ s'.shards) (hholds : ∀ p, s.Holds p → s'.Holds p) :
    s'.Knows pc := by
  cases pc with
  | idle => trivial
  | groups todo written => exact fun p hp => hholds p (h p hp)
  | writing shard events todo written =>
      exact ⟨hshards shard h.1, fun p hp => hholds p (h.2 p hp)⟩

/-- The writers that `Stop` knows of, once it has copied the list. -/
def StopPC.listed : StopPC → Option (List ShardID)
  | .running => none
  | .waiting writers => some writers
  | .returned writers => some writers

structure ServerInv {ι : Type} (s : Server ι) : Prop where
  writers : ∀ shard, (s.writer shard).OK
  absent : ∀ shard, shard ∉ s.shards → (s.writer shard).pushed = []
  batches : ∀ i, s.Knows (s.batches i)
  acked : ∀ p ∈ s.acked, s.Holds p
  /-- `Stop` knows of every writer. -/
  listed : ∀ writers, s.stop.listed = some writers → ∀ shard ∈ s.shards, shard ∈ writers
  halted : ∀ writers, s.stop = .returned writers → ∀ shard ∈ writers,
    (s.writer shard).pc = .stopped

theorem serverInv_init (ι : Type) (capacity : Int) : ServerInv (Server.init ι capacity) where
  writers _ := LiveWriter.ok_fresh capacity
  absent _ _ := rfl
  batches _ := trivial
  acked _ h := by cases h
  listed _ h := by cases h
  halted _ h := by cases h

namespace ServerInv

variable {ι : Type} {s s' : Server ι}

/-- A writer moves on, and keeps what was pushed. -/
theorem setWriter (h : ServerInv s) {shard : ShardID} {lw : LiveWriter} (hok : lw.OK)
    (habsent : shard ∉ s.shards → lw.pushed = []) (hkeep : (s.writer shard).pushed <+: lw.pushed)
    (hstop : (s.writer shard).pc = .stopped → lw.pc = .stopped) :
    ServerInv (s.setWriter shard lw) := by
  have hwriter : ∀ sh, (s.setWriter shard lw).writer sh =
      if sh = shard then lw else s.writer sh := fun sh => Function.update_apply ..
  have hholds : ∀ p, s.Holds p → (s.setWriter shard lw).Holds p := by
    intro p hp
    rw [Server.Holds, hwriter]
    split_ifs with hsh
    · rw [Server.Holds, hsh] at hp
      obtain ⟨rest, hrest⟩ := hkeep
      rw [← hrest, List.getElem?_append_left (List.getElem?_eq_some_iff.mp hp).1, hp]
    · exact hp
  refine ⟨fun sh => ?_, fun sh hsh => ?_, fun i => ?_, fun p hp => hholds p (h.acked p hp),
    h.listed, fun ws hws sh hsh => ?_⟩
  · rw [hwriter]
    split_ifs
    · exact hok
    · exact h.writers sh
  · rw [hwriter]
    split_ifs with he
    · exact habsent (he ▸ hsh)
    · exact h.absent sh hsh
  · exact (h.batches i).mono (fun _ hsh => hsh) hholds
  · rw [hwriter]
    split_ifs with he
    · exact hstop (he ▸ h.halted ws hws sh hsh)
    · exact h.halted ws hws sh hsh

/-- The stream makes sure that the shard has a writer. -/
theorem addShard (h : ServerInv s) {shard : ShardID}
    (hnew : shard ∈ s.shards ∨ s.stop = .running) :
    ServerInv { s with
      shards := if shard ∈ s.shards then s.shards else s.shards ++ [shard] } := by
  by_cases hmem : shard ∈ s.shards
  · rw [if_pos hmem]
    exact h
  · have hrun : s.stop = .running := hnew.resolve_left hmem
    rw [if_neg hmem]
    refine ⟨h.writers, fun sh hsh => ?_, fun i => ?_, h.acked, fun ws hws => ?_, h.halted⟩
    · exact h.absent sh fun hold => hsh (List.mem_append_left _ hold)
    · exact (h.batches i).mono (fun _ hsh => List.mem_append_left _ hsh) fun _ hp => hp
    · change s.stop.listed = some ws at hws
      rw [hrun] at hws
      cases hws

variable [DecidableEq ι]

/-- A stream moves on. -/
theorem goto (h : ServerInv s) (i : ι) (pc : BatchPC) (hpc : s.Knows pc) :
    ServerInv (s.goto i pc) := by
  refine ⟨h.writers, h.absent, fun j => ?_, h.acked, h.listed, h.halted⟩
  show s.Knows (Function.update s.batches i pc j)
  by_cases hj : j = i
  · subst hj
    rwa [Function.update_self]
  · rw [Function.update_of_ne hj]
    exact h.batches j

/-- A step of a stream. -/
theorem next (h : ServerInv s) {i : ι} (htime : s.TimelyAt (s.batches i))
    (hs : s.next i = some s') : ServerInv s' := by
  have hi := h.batches i
  unfold Server.next at hs
  split at hs
  case h_1 => cases hs
  case h_2 written hb =>
    cases hs
    rw [hb] at hi
    have hgoto := h.goto i .idle trivial
    refine ⟨hgoto.writers, hgoto.absent, hgoto.batches, fun p hp => ?_, hgoto.listed,
      hgoto.halted⟩
    exact (List.mem_append.mp hp).elim (h.acked p) (hi p)
  case h_3 shard events todo written hb =>
    cases hs
    rw [hb] at hi htime
    have hmem : shard ∈ if shard ∈ s.shards then s.shards else s.shards ++ [shard] := by
      split_ifs with hmem
      · exact hmem
      · simp
    exact (h.addShard htime).goto i (.writing shard events todo written) ⟨hmem, hi⟩
  case h_4 shard todo written hb =>
    cases hs
    rw [hb] at hi
    exact h.goto i (.groups todo written) hi.2
  case h_5 shard e events todo written hb =>
    obtain ⟨lw, hlw, rfl⟩ := Option.map_eq_some_iff.mp hs
    rw [hb] at hi htime
    obtain ⟨rb, -, hpushed⟩ := Option.map_eq_some_iff.mp hlw
    have hlen : lw.pushed = (s.writer shard).pushed ++ [e] := by rw [← hpushed]
    have hset := h.setWriter ((h.writers shard).push hlw htime) (fun hno => absurd hi.1 hno)
      (by rw [hlen]; exact List.prefix_append _ _) (by rw [← hpushed]; exact id)
    have hwritten := hset.batches i
    change Server.Knows _ (s.batches i) at hwritten
    rw [hb] at hwritten
    refine hset.goto i _ ⟨hi.1, fun p hp => ?_⟩
    rcases List.mem_append.mp hp with hp | hp
    · exact hwritten.2 p hp
    · -- the event just pushed is the last one of its ring
      obtain rfl := List.mem_singleton.mp hp
      show (Function.update s.writer shard lw shard).pushed[_]? = some e
      rw [Function.update_self, hlen]
      exact List.getElem?_concat_length

/-- **Step lemma.** -/
theorem step (h : ServerInv s) {a : ServerAct ι} (htime : s.Timely a) (hs : s.step a = some s') :
    ServerInv s' := by
  cases a with
  | submit i batch =>
      rw [Server.step] at hs
      split_ifs at hs
      cases hs
      exact h.goto i (.groups batch []) fun p hp => by cases hp
  | next i => exact h.next htime hs
  | cancel i =>
      rw [Server.step] at hs
      split at hs
      · split_ifs at hs
        cases hs
        exact h.goto i .idle trivial
      · cases hs
  | flush shard a =>
      rw [Server.step] at hs
      split_ifs at hs with hmem
      obtain ⟨lw, hlw, rfl⟩ := Option.map_eq_some_iff.mp hs
      obtain ⟨hok, hpushed⟩ := (h.writers shard).step hlw
      refine h.setWriter hok (fun hno => absurd hmem hno) (by rw [hpushed]) fun hstop => ?_
      rw [LiveWriter.step_stopped hstop] at hlw
      cases hlw
  | stop =>
      rw [Server.step] at hs
      split_ifs at hs
      cases hs
      refine ⟨h.writers, h.absent, h.batches, h.acked, fun ws hws => ?_, fun ws hws => ?_⟩
      · cases hws
        exact fun _ hsh => hsh
      · cases hws
  | close shard =>
      rw [Server.step] at hs
      split at hs
      case h_2 => cases hs
      next writers hstop =>
        split_ifs at hs
        cases hs
        exact h.setWriter (h.writers shard).close (h.absent shard) (List.prefix_refl _) id
  | stopped =>
      rw [Server.step] at hs
      split at hs
      case h_2 => cases hs
      next writers hstop =>
        split_ifs at hs with hall
        cases hs
        have hlisted := h.listed writers (by rw [hstop]; rfl)
        refine ⟨h.writers, h.absent, h.batches, h.acked, fun ws hws => ?_, fun ws hws => ?_⟩
        · cases hws
          exact hlisted
        · cases hws
          exact fun shard hshard => of_decide_eq_true (List.all_eq_true.mp hall shard hshard)

end ServerInv

/-! ## Places -/

/-- What a stream has pushed of its batch. -/
def BatchPC.written : BatchPC → List Placed
  | .idle => []
  | .groups _ written => written
  | .writing _ _ _ written => written

/-- No event is counted twice: neither among the acknowledged ones, nor in the
batches under way. -/
structure Distinct {ι : Type} (s : Server ι) : Prop where
  acked : s.acked.Nodup
  written : ∀ i, (s.batches i).written.Nodup
  unacked : ∀ i, ∀ p ∈ (s.batches i).written, p ∉ s.acked
  apart : ∀ i j, i ≠ j → ∀ p ∈ (s.batches i).written, p ∉ (s.batches j).written

theorem distinct_init (ι : Type) (capacity : Int) : Distinct (Server.init ι capacity) where
  acked := List.nodup_nil
  written _ := List.nodup_nil
  unacked _ _ hp := by cases hp
  apart _ _ _ _ hp := by cases hp

namespace Distinct

variable {ι : Type} {s s' : Server ι}

theorem holds_written (h : ServerInv s) {i : ι} {p : Placed} (hp : p ∈ (s.batches i).written) :
    s.Holds p := by
  have hi := h.batches i
  cases hb : s.batches i with
  | idle =>
      rw [hb] at hp
      cases hp
  | groups todo written =>
      rw [hb] at hi hp
      exact hi p hp
  | writing shard events todo written =>
      rw [hb] at hi hp
      exact hi.2 p hp

/-- Only batches and acknowledgements matter. -/
theorem of_eq (h : Distinct s) (hb : s'.batches = s.batches) (ha : s'.acked = s.acked) :
    Distinct s' := by
  refine ⟨?_, ?_, ?_, ?_⟩
  · rw [ha]
    exact h.acked
  · rw [hb]
    exact h.written
  · rw [hb, ha]
    exact h.unacked
  · rw [hb]
    exact h.apart

variable [DecidableEq ι]

/-- A stream moves on; `ps` is what it has pushed in this step, new to
everyone. -/
theorem goto (h : Distinct s) (i : ι) (pc : BatchPC) (ps : List Placed)
    (hpc : pc.written = (s.batches i).written ++ ps ∨ pc.written = []) (hps : ps.Nodup)
    (hnew : ∀ p ∈ ps, p ∉ s.acked ∧ ∀ j, p ∉ (s.batches j).written)
    (hb : s'.batches = Function.update s.batches i pc) (ha : s'.acked = s.acked) :
    Distinct s' := by
  have hwritten : ∀ j, ((s'.batches j).written = (s.batches j).written ∧ j ≠ i) ∨
      ((s'.batches j).written = (s.batches j).written ++ ps ∧ j = i) ∨
      (s'.batches j).written = [] := by
    intro j
    by_cases hj : j = i
    · subst hj
      rw [hb, Function.update_self]
      exact hpc.elim (fun he => Or.inr (Or.inl ⟨he, rfl⟩)) fun he => Or.inr (Or.inr he)
    · rw [hb, Function.update_of_ne hj]
      exact Or.inl ⟨rfl, hj⟩
  refine ⟨by rw [ha]; exact h.acked, fun j => ?_, fun j p hp => ?_, fun j k hjk p hp hq => ?_⟩
  · rcases hwritten j with ⟨he, -⟩ | ⟨he, -⟩ | he
    · rw [he]
      exact h.written j
    · rw [he, List.nodup_append]
      refine ⟨h.written j, hps, fun a ha b hb => ?_⟩
      rintro rfl
      exact (hnew a hb).2 j ha
    · rw [he]
      exact List.nodup_nil
  · rw [ha]
    rcases hwritten j with ⟨he, -⟩ | ⟨he, -⟩ | he
    · rw [he] at hp
      exact h.unacked j p hp
    · rw [he] at hp
      exact (List.mem_append.mp hp).elim (h.unacked j p) fun hp => (hnew p hp).1
    · rw [he] at hp
      cases hp
  · rcases hwritten j with ⟨hj, -⟩ | ⟨hj, rfl⟩ | hj
    · rw [hj] at hp
      rcases hwritten k with ⟨hk, -⟩ | ⟨hk, -⟩ | hk
      · rw [hk] at hq
        exact h.apart j k hjk p hp hq
      · rw [hk] at hq
        exact (List.mem_append.mp hq).elim (h.apart j k hjk p hp) fun hq => (hnew p hq).2 j hp
      · rw [hk] at hq
        cases hq
    · rw [hj] at hp
      rcases hwritten k with ⟨hk, -⟩ | ⟨-, he⟩ | hk
      · rw [hk] at hq
        exact (List.mem_append.mp hp).elim (fun hp => h.apart j k hjk p hp hq)
          fun hp => (hnew p hp).2 k hq
      · exact hjk he.symm
      · rw [hk] at hq
        cases hq
    · rw [hj] at hp
      cases hp

/-- A step that pushes nothing. -/
theorem goto_same (h : Distinct s) (i : ι) (pc : BatchPC)
    (hpc : pc.written = (s.batches i).written ∨ pc.written = [])
    (hb : s'.batches = Function.update s.batches i pc) (ha : s'.acked = s.acked) : Distinct s' :=
  h.goto i pc [] (by rwa [List.append_nil]) List.nodup_nil (fun p hp => by cases hp) hb ha

/-- A batch is acknowledged. -/
theorem ack (h : Distinct s) (i : ι) (hb : s'.batches = Function.update s.batches i .idle)
    (ha : s'.acked = s.acked ++ (s.batches i).written) : Distinct s' := by
  have hwritten : ∀ j, ((s'.batches j).written = (s.batches j).written ∧ j ≠ i) ∨
      (s'.batches j).written = [] := by
    intro j
    by_cases hj : j = i
    · subst hj
      rw [hb, Function.update_self]
      exact Or.inr rfl
    · rw [hb, Function.update_of_ne hj]
      exact Or.inl ⟨rfl, hj⟩
  refine ⟨?_, fun j => ?_, fun j p hp => ?_, fun j k hjk p hp hq => ?_⟩
  · rw [ha, List.nodup_append]
    refine ⟨h.acked, h.written i, fun a hacked b hb => ?_⟩
    rintro rfl
    exact h.unacked i a hb hacked
  · rcases hwritten j with ⟨he, -⟩ | he
    · rw [he]
      exact h.written j
    · rw [he]
      exact List.nodup_nil
  · rcases hwritten j with ⟨he, hj⟩ | he
    · rw [he] at hp
      rw [ha, List.mem_append, not_or]
      exact ⟨h.unacked j p hp, h.apart j i hj p hp⟩
    · rw [he] at hp
      cases hp
  · rcases hwritten j with ⟨hj, -⟩ | hj
    · rcases hwritten k with ⟨hk, -⟩ | hk
      · rw [hj] at hp
        rw [hk] at hq
        exact h.apart j k hjk p hp hq
      · rw [hk] at hq
        cases hq
    · rw [hj] at hp
      cases hp

/-- A step of a stream. -/
theorem next (h : Distinct s) (hinv : ServerInv s) {i : ι} (hs : s.next i = some s') :
    Distinct s' := by
  unfold Server.next at hs
  split at hs
  case h_1 => cases hs
  case h_2 written hb =>
    cases hs
    exact h.ack i rfl (by rw [hb]; rfl)
  case h_3 shard events todo written hb =>
    cases hs
    exact h.goto_same i (.writing shard events todo written) (Or.inl (by rw [hb]; rfl)) rfl rfl
  case h_4 shard todo written hb =>
    cases hs
    exact h.goto_same i (.groups todo written) (Or.inl (by rw [hb]; rfl)) rfl rfl
  case h_5 shard e events todo written hb =>
    obtain ⟨lw, -, rfl⟩ := Option.map_eq_some_iff.mp hs
    -- the new place is beyond all places taken
    have hfresh : ∀ p, s.Holds p → p ≠ ⟨shard, (s.writer shard).pushed.length, e⟩ := by
      rintro p hp rfl
      exact absurd (List.getElem?_eq_some_iff.mp hp).1 (Nat.lt_irrefl _)
    refine h.goto i _ [⟨shard, (s.writer shard).pushed.length, e⟩] (Or.inl (by rw [hb]; rfl))
      (by simp) (fun p hp => ?_) rfl rfl
    obtain rfl := List.mem_singleton.mp hp
    exact ⟨fun hq => hfresh _ (hinv.acked _ hq) rfl,
      fun j hq => hfresh _ (holds_written hinv hq) rfl⟩

theorem step (h : Distinct s) (hinv : ServerInv s) {a : ServerAct ι} (hs : s.step a = some s') :
    Distinct s' := by
  cases a with
  | submit i batch =>
      rw [Server.step] at hs
      split_ifs at hs
      cases hs
      exact h.goto_same i (.groups batch []) (Or.inr rfl) rfl rfl
  | next i => exact h.next hinv hs
  | cancel i =>
      rw [Server.step] at hs
      split at hs
      · split_ifs at hs
        cases hs
        exact h.goto_same i .idle (Or.inr rfl) rfl rfl
      · cases hs
  | flush shard a =>
      rw [Server.step] at hs
      split_ifs at hs
      obtain ⟨lw, -, rfl⟩ := Option.map_eq_some_iff.mp hs
      exact h.of_eq rfl rfl
  | stop =>
      rw [Server.step] at hs
      split_ifs at hs
      cases hs
      exact h.of_eq rfl rfl
  | close shard =>
      rw [Server.step] at hs
      split at hs
      case h_2 => cases hs
      split_ifs at hs
      cases hs
      exact h.of_eq rfl rfl
  | stopped =>
      rw [Server.step] at hs
      split at hs
      case h_2 => cases hs
      split_ifs at hs
      cases hs
      exact h.of_eq rfl rfl

end Distinct

/-! ## Shutdown -/

section
variable {ι : Type} [DecidableEq ι] {capacity : Int} {s : Server ι}

/-- **Run lemma.** -/
theorem serverInv_of_reach
    (h : Reachable Server.step Server.Timely (Server.init ι capacity) s) :
    ServerInv s ∧ Distinct s := by
  induction h with
  | start => exact ⟨serverInv_init ι capacity, distinct_init ι capacity⟩
  | step _ ht hs ih => exact ⟨ih.1.step ht hs, ih.2.step ih.1 hs⟩

/-- **Nothing acknowledged is lost** in a timely shutdown: in every run in
which no `Push` comes after the final drain of its writer and no writer is
created after `Stop` has copied the list, once `Stop` has returned every
acknowledged event is processed, each in a place of its own. -/
theorem acknowledged_processed
    (hrun : Reachable Server.step Server.Timely (Server.init ι capacity) s) {writers : List ShardID}
    (hstop : s.stop = .returned writers) :
    s.acked.Nodup ∧
      ∀ p ∈ s.acked, (s.writer p.shard).processed[p.place]? = some p.event := by
  obtain ⟨hinv, hdistinct⟩ := serverInv_of_reach hrun
  refine ⟨hdistinct.acked, fun p hp => ?_⟩
  have hholds := hinv.acked p hp
  have hmem : p.shard ∈ s.shards := by
    by_contra hno
    rw [Server.Holds, hinv.absent p.shard hno] at hholds
    cases hholds
  have hpc := hinv.halted writers hstop p.shard
    (hinv.listed writers (by rw [hstop]; rfl) p.shard hmem)
  rw [(hinv.writers p.shard).processed_of_stopped hpc]
  exact hholds

end

instance {ι : Type} (s : Server ι) (pc : BatchPC) : Decidable (s.TimelyAt pc) :=
  match pc with
  | .idle => isTrue trivial
  | .groups [] _ => isTrue trivial
  | .groups ((shard, _) :: _) _ =>
      inferInstanceAs (Decidable (shard ∈ s.shards ∨ s.stop = .running))
  | .writing _ [] _ _ => isTrue trivial
  | .writing shard (_ :: _) _ _ => inferInstanceAs (Decidable ((s.writer shard).pc.closed = false))

instance {ι : Type} [DecidableEq ι] (s : Server ι) (a : ServerAct ι) : Decidable (s.Timely a) :=
  match a with
  | .next i => inferInstanceAs (Decidable (s.TimelyAt (s.batches i)))
  | .submit _ _ => isTrue trivial
  | .cancel _ => isTrue trivial
  | .flush _ _ => isTrue trivial
  | .stop => isTrue trivial
  | .close _ => isTrue trivial
  | .stopped => isTrue trivial

/-- `Stop` from beginning to end, for the one writer 7 with `n` events in its
ring. -/
def stopAll (n : Nat) : List (ServerAct Unit) :=
  [.stop, .close 7, .flush 7 .wake] ++ List.replicate (2 * n + 2) (.flush 7 .work) ++ [.stopped]

/-- A batch of one event, and the shutdown after it. -/
theorem acknowledged_processed_before :
    ∃ s, Reachable Server.step Server.Timely (Server.init Unit 1) s ∧ s.stop = .returned [7] ∧
      s.acked = [⟨7, 0, eventA⟩] ∧ s.acked.Nodup ∧
      ∀ p ∈ s.acked, (s.writer p.shard).processed[p.place]? = some p.event := by
  obtain ⟨s, hrun, hs⟩ := exists_reach_of_run Server.step Server.Timely (Server.init Unit 1)
    ([.submit () [(7, [eventA])], .next (), .next (), .next (), .next ()] ++ stopAll 1)
    (fun s => decide (s.stop = .returned [7] ∧ s.acked = [⟨7, 0, eventA⟩])) (by decide +kernel)
  obtain ⟨hstop, hacked⟩ := of_decide_eq_true hs
  exact ⟨s, hrun, hstop, hacked, acknowledged_processed hrun hstop⟩

/-- The stream has its writer when `Stop` runs from beginning to end; then it
pushes its event and acknowledges it. Nobody will ever drain it. -/
theorem acknowledged_lost :
    ∃ s, Reachable Server.step always (Server.init Unit 1) s ∧ s.stop = .returned [7] ∧
      s.batches () = .idle ∧ s.acked = [⟨7, 0, eventA⟩] ∧ (s.writer 7).pc = .stopped ∧
      (s.writer 7).processed = [] := by
  obtain ⟨s, hrun, hs⟩ := exists_reach_of_run Server.step always (Server.init Unit 1)
    ([.submit () [(7, [eventA])], .next ()] ++ stopAll 0 ++ [.next (), .next (), .next ()])
    (fun s => decide (s.stop = .returned [7] ∧ s.batches () = .idle ∧
      s.acked = [⟨7, 0, eventA⟩] ∧ (s.writer 7).pc = .stopped ∧ (s.writer 7).processed = []))
    (by decide +kernel)
  exact ⟨s, hrun, of_decide_eq_true hs⟩

end Bbdb.Grpc
