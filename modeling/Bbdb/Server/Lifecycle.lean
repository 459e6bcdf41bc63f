import Bbdb.Grpc.Shutdown

/-!
# Server — from start to shutdown

`Server.Run` starts three goroutines: the loops of janitor and reaper, and
`Run` of the gRPC server. The last one accepts RPCs, whose handlers create
shard writers with goroutines of their own. When the context is done, the loops
return, the gRPC server stops the writers (`IngestionServer.Stop`, of
`Bbdb.Grpc.Shutdown`) and waits for the handlers, and `Server.Run` waits for
all three, or for the timeout, before it closes the database.

If the timeout has not passed, nothing touches the closed database, with two
exceptions: writers that were created after `Stop` had copied its list, and
everything the gRPC server leaves behind if it fails on its own
(`closed_database_unused`). In the second case its writers are never stopped
(`failed_server_keeps_writers`).
-/

namespace Bbdb.Lifecycle

open Bbdb.Meta Bbdb.Ingestion Bbdb.Machine

/-! ## The goroutines -/

/-- Where `Reaper.Run` or `Janitor.Run` is: in `RunOnce`, in its `select`, or
done. -/
inductive LoopPC
  | sweeping
  | waiting
  | returned
  deriving DecidableEq

/-- `RunOnce` uses the database, or returns; the ticker fires; the context is
done. -/
inductive LoopAct
  | use
  | finish
  | tick
  | leave
  deriving DecidableEq

def LoopPC.step (ctxDone : Bool) : LoopPC → LoopAct → Option LoopPC
  | .sweeping, .use => some .sweeping
  | .sweeping, .finish => some .waiting
  | .waiting, .tick => some .sweeping
  | .waiting, .leave => if ctxDone then some .returned else none
  | _, _ => none

/-- Where `Run` of the gRPC server is: before `net.Listen` returns, in its
`select`, in `IngestionServer.Stop`, in `GracefulStop`, or done, with an error
if not `graceful`. -/
inductive GrpcPC
  | listening
  | serving
  | stopping
  | draining
  | returned (graceful : Bool)
  deriving DecidableEq

/-- Where `Server.Run` is: it waits for the context, for the goroutines or
the timeout; it is in `Shutdown` before or after the hook; or it is done. -/
inductive MainPC
  | started
  | waiting
  | shutdown
  | closing
  | returned
  deriving DecidableEq

structure Process (ι : Type) where
  ctxDone : Bool
  janitor : LoopPC
  reaper : LoopPC
  grpc : GrpcPC
  /-- RPCs can start: `Serve` accepts connections, or one is still open. -/
  accepting : Bool
  /-- `Serve` has returned an error. -/
  errCh : Bool
  /-- The write streams that are open. -/
  writes : List ι
  /-- The queries under way. -/
  queries : List ι
  /-- Batches, shard writers and `Stop`. -/
  ingestion : Grpc.Server ι
  main : MainPC
  timedOut : Bool
  /-- A hook is registered. -/
  onShutdown : Bool
  /-- How often it has been called. -/
  hooks : Nat
  dbOpen : Bool

inductive Act (ι : Type)
  /-- The process gets a signal. -/
  | cancel
  | janitor (a : LoopAct)
  | reaper (a : LoopAct)
  /-- `net.Listen` returns. -/
  | listen (ok : Bool)
  /-- `Serve` returns an error; `connected`: a connection that was accepted
  before is still open, and `Serve` leaves it so. -/
  | serveFails (connected : Bool)
  /-- The `select` of `Run` takes that error. -/
  | fail
  /-- The `select` takes the context, and `Stop` copies the list of writers. -/
  | stop
  /-- `Stop` returns, and `GracefulStop` begins. -/
  | stopped
  /-- `GracefulStop` returns. -/
  | drained
  | acceptWrite (i : ι)
  | acceptQuery (i : ι)
  | finishWrite (i : ι)
  | finishQuery (i : ι)
  /-- A query reads the database. -/
  | read (i : ι)
  /-- A step of a write stream, of a writer, or of `Stop`. -/
  | ingest (a : Grpc.ServerAct ι)
  /-- `Server.Run` sees the context done. -/
  | proceed
  /-- The three goroutines are done. -/
  | allDone
  | timeout
  /-- `Shutdown` calls the hook, if there is one. -/
  | hook
  | close

namespace Process

variable {ι : Type} [DecidableEq ι]

/-- All goroutines are started, and nothing has happened yet. -/
def init (ι : Type) (capacity : Int) (onShutdown : Bool) : Process ι where
  ctxDone := false
  janitor := .sweeping
  reaper := .sweeping
  grpc := .listening
  accepting := false
  errCh := false
  writes := []
  queries := []
  ingestion := .init ι capacity
  main := .started
  timedOut := false
  onShutdown := onShutdown
  hooks := 0
  dbOpen := true

/-- A stream moves as long as it is open; `Stop` is called by `Run` only. -/
def Enabled (s : Process ι) : Grpc.ServerAct ι → Prop
  | .submit i _ | .next i | .cancel i => i ∈ s.writes
  | .flush _ _ | .close _ => True
  | .stop | .stopped => False

instance decidableEnabled (s : Process ι) : DecidablePred s.Enabled
  | .submit i _ | .next i | .cancel i => inferInstanceAs (Decidable (i ∈ s.writes))
  | .flush _ _ | .close _ => isTrue trivial
  | .stop | .stopped => isFalse id

/-- The three goroutines have returned. -/
def AllDone (s : Process ι) : Prop :=
  s.janitor = .returned ∧ s.reaper = .returned ∧
    (s.grpc = .returned true ∨ s.grpc = .returned false)

instance decidableAllDone (s : Process ι) : Decidable s.AllDone :=
  inferInstanceAs (Decidable (_ ∧ _ ∧ _))

def step (s : Process ι) : Act ι → Option (Process ι)
  | .cancel => some { s with ctxDone := true }
  | .janitor a => (s.janitor.step s.ctxDone a).map fun pc => { s with janitor := pc }
  | .reaper a => (s.reaper.step s.ctxDone a).map fun pc => { s with reaper := pc }
  | .listen true =>
      if s.grpc = .listening then some { s with grpc := .serving, accepting := true } else none
  | .listen false =>
      if s.grpc = .listening then some { s with grpc := .returned false } else none
  | .serveFails connected =>
      if s.accepting ∧ s.errCh = false then
        some { s with accepting := connected, errCh := true }
      else none
  | .fail =>
      if s.grpc = .serving ∧ s.errCh then some { s with grpc := .returned false } else none
  | .stop =>
      if s.grpc = .serving ∧ s.ctxDone then
        (s.ingestion.step .stop).map fun srv => { s with grpc := .stopping, ingestion := srv }
      else none
  | .stopped =>
      if s.grpc = .stopping then
        (s.ingestion.step .stopped).map fun srv =>
          { s with grpc := .draining, ingestion := srv, accepting := false }
      else none
  | .drained =>
      if s.grpc = .draining ∧ s.writes = [] ∧ s.queries = [] then
        some { s with grpc := .returned true }
      else none
  | .acceptWrite i =>
      if s.accepting ∧ i ∉ s.writes then some { s with writes := i :: s.writes } else none
  | .acceptQuery i =>
      if s.accepting ∧ i ∉ s.queries then some { s with queries := i :: s.queries } else none
  | .finishWrite i =>
      if i ∈ s.writes ∧ s.ingestion.batches i = .idle then
        some { s with writes := s.writes.erase i }
      else none
  | .finishQuery i =>
      if i ∈ s.queries then some { s with queries := s.queries.erase i } else none
  | .read i => if i ∈ s.queries then some s else none
  | .ingest a =>
      if s.Enabled a then (s.ingestion.step a).map fun srv => { s with ingestion := srv } else none
  | .proceed => if s.main = .started ∧ s.ctxDone then some { s with main := .waiting } else none
  | .allDone => if s.main = .waiting ∧ s.AllDone then some { s with main := .shutdown } else none
  | .timeout =>
      if s.main = .waiting then some { s with main := .shutdown, timedOut := true } else none
  | .hook =>
      if s.main = .shutdown then
        -- `if s.onShutdown != nil`
        some { s with main := .closing, hooks := s.hooks + s.onShutdown.toNat }
      else none
  | .close =>
      if s.main = .closing then some { s with main := .returned, dbOpen := false } else none

end Process

/-- The action uses the database. -/
def UsesDb {ι : Type} : Act ι → Prop
  | .janitor .use | .reaper .use | .read _ | .ingest (.flush _ _) => True
  | _ => False

/-! ## What the ingestion server does to its writers -/

/-- The writer has not heard of `Stop`. -/
structure Unstopped (lw : LiveWriter) : Prop where
  stopCh : lw.stopCh = false
  pc : lw.pc = .idle ∨ (∃ out, lw.pc = .draining false out) ∨ ∃ rest, lw.pc = .processing false rest

/-- What the streams, the writers and `close` do. -/
structure Moves {ι : Type} (s s' : Grpc.Server ι) : Prop where
  stop : s'.stop = s.stop
  stopped : ∀ shard, (s.writer shard).pc = .stopped → (s'.writer shard).pc = .stopped
  unstopped : s.stop = .running → ∀ shard, Unstopped (s.writer shard) →
    Unstopped (s'.writer shard)

section Ingestion

variable {ι : Type} {s s' : Grpc.Server ι} {lw lw' : LiveWriter}

theorem Unstopped.step (h : Unstopped lw) {a : WriterAct} (hs : lw.step a = some lw') :
    Unstopped lw' := by
  obtain ⟨hstop, hpc⟩ := h
  cases a with
  | tick =>
      rw [LiveWriter.step] at hs
      split_ifs at hs
      cases hs
      exact ⟨hstop, Or.inr (Or.inl ⟨[], rfl⟩)⟩
  | wake =>
      rw [LiveWriter.step] at hs
      split_ifs at hs with hw
      rw [hstop] at hw
      cases hw.2
  | work =>
      rcases hpc with hpc | ⟨out, hpc⟩ | ⟨rest, hpc⟩
      · simp [LiveWriter.step, hpc] at hs
      · simp only [LiveWriter.step, hpc] at hs
        split at hs
        · cases hs
          exact ⟨hstop, Or.inr (Or.inl ⟨_, rfl⟩)⟩
        · cases hs
          exact ⟨hstop, Or.inr (Or.inr ⟨out, rfl⟩)⟩
      · cases rest with
        | nil =>
            simp only [LiveWriter.step, hpc] at hs
            cases hs
            exact ⟨hstop, Or.inl rfl⟩
        | cons e rest =>
            simp only [LiveWriter.step, hpc] at hs
            cases hs
            exact ⟨hstop, Or.inr (Or.inr ⟨rest, rfl⟩)⟩

/-- It can go on. -/
theorem Unstopped.enabled (h : Unstopped lw) : ∃ a, (lw.step a).isSome := by
  rcases h.pc with hpc | ⟨out, hpc⟩ | ⟨rest, hpc⟩
  · exact ⟨.tick, by simp [LiveWriter.step, hpc]⟩
  · refine ⟨.work, ?_⟩
    cases hpop : lw.ring.pop with
    | none => simp [LiveWriter.step, hpc, hpop]
    | some p => simp [LiveWriter.step, hpc, hpop]
  · refine ⟨.work, ?_⟩
    cases rest with
    | nil => simp [LiveWriter.step, hpc]
    | cons e rest => simp [LiveWriter.step, hpc]

theorem moves_of_writers (hstop : s'.stop = s.stop) (hwriter : s'.writer = s.writer) :
    Moves s s' :=
  ⟨hstop, fun _ h => by rwa [hwriter], fun _ _ h => by rwa [hwriter]⟩

/-- One writer changes. -/
theorem moves_of_setWriter {shard : ShardID} (hstop : s'.stop = s.stop)
    (hwriter : s'.writer = Function.update s.writer shard lw')
    (hstopped : (s.writer shard).pc = .stopped → lw'.pc = .stopped)
    (hun : s.stop = .running → Unstopped (s.writer shard) → Unstopped lw') : Moves s s' := by
  have hcases : ∀ sh, sh = shard ∧ s'.writer sh = lw' ∨ s'.writer sh = s.writer sh := by
    intro sh
    rw [hwriter]
    by_cases he : sh = shard
    · subst he
      exact Or.inl ⟨rfl, Function.update_self ..⟩
    · exact Or.inr (Function.update_of_ne he ..)
  refine ⟨hstop, fun sh h => ?_, fun hrun sh h => ?_⟩
  · rcases hcases sh with ⟨rfl, he⟩ | he
    · rw [he]
      exact hstopped h
    · rwa [he]
  · rcases hcases sh with ⟨rfl, he⟩ | he
    · rw [he]
      exact hun hrun h
    · rwa [he]

/-- **What a step can do to the writers.** -/
theorem moves_of_step [DecidableEq ι] {a : Grpc.ServerAct ι} (ha : a ≠ .stop) (ha' : a ≠ .stopped)
    (hs : s.step a = some s') : Moves s s' := by
  cases a with
  | submit i batch =>
      rw [Grpc.Server.step] at hs
      split_ifs at hs
      cases hs
      exact moves_of_writers rfl rfl
  | next i =>
      rw [Grpc.Server.step, Grpc.Server.next] at hs
      split at hs
      case h_1 => cases hs
      case h_2 | h_3 | h_4 =>
        cases hs
        exact moves_of_writers rfl rfl
      case h_5 shard e events todo written hb =>
        obtain ⟨lw, hlw, rfl⟩ := Option.map_eq_some_iff.mp hs
        obtain ⟨rb, -, rfl⟩ := Option.map_eq_some_iff.mp hlw
        exact moves_of_setWriter rfl rfl id fun _ h => ⟨h.stopCh, h.pc⟩
  | cancel i =>
      rw [Grpc.Server.step] at hs
      split at hs
      · split_ifs at hs
        cases hs
        exact moves_of_writers rfl rfl
      · cases hs
  | flush shard a =>
      rw [Grpc.Server.step] at hs
      split_ifs at hs
      obtain ⟨lw, hlw, rfl⟩ := Option.map_eq_some_iff.mp hs
      refine moves_of_setWriter rfl rfl (fun hstop => ?_) fun _ h => h.step hlw
      rw [LiveWriter.step_stopped hstop] at hlw
      cases hlw
  | close shard =>
      rw [Grpc.Server.step] at hs
      split at hs
      case h_2 => cases hs
      next writers hstop =>
        split_ifs at hs
        cases hs
        refine moves_of_setWriter rfl rfl id fun hrun _ => ?_
        rw [hstop] at hrun
        cases hrun
  | stop => exact absurd rfl ha
  | stopped => exact absurd rfl ha'

end Ingestion

/-! ## Who is done when -/

/-- Where `Server.Run` is, and what it knows. -/
structure MainInv {ι : Type} (s : Process ι) : Prop where
  ctx : s.main ≠ .started → s.ctxDone = true
  hooks : s.hooks = if s.main = .closing ∨ s.main = .returned then s.onShutdown.toNat else 0
  db : s.dbOpen = false → s.main = .returned
  done : s.main = .started ∨ s.main = .waiting ∨ s.timedOut = true ∨ s.AllDone

/-- `Stop` has not been called, and a server that failed never will. -/
def GrpcPC.unasked : GrpcPC → Bool
  | .listening | .serving | .returned false => true
  | _ => false

/-- `Stop` has returned. -/
def GrpcPC.stopped : GrpcPC → Bool
  | .draining | .returned true => true
  | _ => false

/-- Where the gRPC server is, and what holds of RPCs and writers. -/
structure GrpcInv {ι : Type} (s : Process ι) : Prop where
  before : s.grpc.unasked = true → s.ingestion.stop = .running
  after : s.grpc.stopped = true →
    s.accepting = false ∧ ∃ writers, s.ingestion.stop = .returned writers
  quiet : s.grpc = .returned true → s.writes = [] ∧ s.queries = []
  halted : ∀ writers, s.ingestion.stop = .returned writers → ∀ shard ∈ writers,
    (s.ingestion.writer shard).pc = .stopped
  running : s.ingestion.stop = .running → ∀ shard, Unstopped (s.ingestion.writer shard)

theorem mainInv_init (ι : Type) (capacity : Int) (onShutdown : Bool) :
    MainInv (Process.init ι capacity onShutdown) where
  ctx h := absurd rfl h
  hooks := rfl
  db h := by cases h
  done := Or.inl rfl

theorem grpcInv_init (ι : Type) (capacity : Int) (onShutdown : Bool) :
    GrpcInv (Process.init ι capacity onShutdown) where
  before _ := rfl
  after h := by cases h
  quiet h := by cases h
  halted _ h := by cases h
  running _ _ := ⟨rfl, Or.inl rfl⟩

section Inv

variable {ι : Type} {s s' : Process ι}

/-- Steps of others: what has returned stays so. -/
theorem MainInv.of_main (h : MainInv s) (hmain : s'.main = s.main)
    (hctx : s.ctxDone = true → s'.ctxDone = true) (htime : s'.timedOut = s.timedOut)
    (hhooks : s'.hooks = s.hooks) (hon : s'.onShutdown = s.onShutdown)
    (hdb : s'.dbOpen = s.dbOpen) (hdone : s.AllDone → s'.AllDone) : MainInv s' := by
  refine ⟨fun hne => hctx (h.ctx (hmain ▸ hne)), ?_, fun ho => ?_, ?_⟩
  · rw [hhooks, h.hooks, hmain, hon]
  · rw [hmain]
    exact h.db (hdb ▸ ho)
  · rw [hmain, htime]
    exact h.done.imp_right fun hd => hd.imp_right fun hd => hd.imp_right hdone

/-- Steps with which `Run` of the gRPC server stays where it is. -/
theorem GrpcInv.of_moves (h : GrpcInv s) (hm : Moves s.ingestion s'.ingestion)
    (hgrpc : s'.grpc = s.grpc) (hacc : s.accepting = false → s'.accepting = false)
    (hquiet : s.accepting = false → s.writes = [] ∧ s.queries = [] →
      s'.writes = [] ∧ s'.queries = []) : GrpcInv s' := by
  refine ⟨fun hb => ?_, fun ha => ?_, fun hr => ?_, fun ws hws sh hsh => ?_, fun hrun sh => ?_⟩
  · rw [hm.stop]
    exact h.before (hgrpc ▸ hb)
  · rw [hm.stop]
    exact (h.after (hgrpc ▸ ha)).imp_left hacc
  · rw [hgrpc] at hr
    exact hquiet (h.after (by rw [hr]; rfl)).1 (h.quiet hr)
  · rw [hm.stop] at hws
    exact hm.stopped sh (h.halted ws hws sh hsh)
  · rw [hm.stop] at hrun
    exact hm.unstopped hrun sh (h.running hrun sh)

theorem moves_refl (srv : Grpc.Server ι) : Moves srv srv := moves_of_writers rfl rfl

/-- Steps after which `Run` of the gRPC server has not called `Stop`. -/
theorem GrpcInv.of_unasked (h : GrpcInv s) (hs : s.grpc.unasked = true)
    (hs' : s'.grpc.unasked = true) (hing : s'.ingestion = s.ingestion) : GrpcInv s' := by
  have hstopped : s'.grpc.stopped ≠ true := fun hstop => by
    revert hs' hstop
    cases s'.grpc with
    | listening | serving => exact fun _ hf => Bool.noConfusion hf
    | stopping | draining => exact fun hf => Bool.noConfusion hf
    | returned graceful =>
        cases graceful with
        | true => exact fun hf => Bool.noConfusion hf
        | false => exact fun _ hf => Bool.noConfusion hf
  refine ⟨fun _ => ?_, fun hf => absurd hf hstopped, fun hr => ?_, ?_, ?_⟩
  · rw [hing]
    exact h.before hs
  · exact absurd (by rw [hr]; rfl) hstopped
  · rw [hing]
    exact h.halted
  · rw [hing]
    exact h.running

/-- A loop that has returned does nothing. -/
theorem LoopPC.step_returned (ctxDone : Bool) (a : LoopAct) :
    LoopPC.step ctxDone .returned a = none := by
  cases a <;> rfl

/-- A step of one of the three goroutines. -/
theorem MainInv.of_goroutine (h : MainInv s) {j r : LoopPC} {g : GrpcPC}
    (hj : s.janitor = .returned → j = .returned) (hr : s.reaper = .returned → r = .returned)
    (hg : ∀ b, s.grpc = .returned b → g = .returned b) (hmain : s'.main = s.main)
    (hctx : s'.ctxDone = s.ctxDone) (htime : s'.timedOut = s.timedOut)
    (hhooks : s'.hooks = s.hooks) (hon : s'.onShutdown = s.onShutdown)
    (hdb : s'.dbOpen = s.dbOpen) (hjanitor : s'.janitor = j) (hreaper : s'.reaper = r)
    (hgrpc : s'.grpc = g) : MainInv s' := by
  refine h.of_main hmain (fun hc => hctx ▸ hc) htime hhooks hon hdb fun hd => ?_
  rw [Process.AllDone, hjanitor, hreaper, hgrpc]
  exact ⟨hj hd.1, hr hd.2.1, hd.2.2.imp (hg true) (hg false)⟩

variable [DecidableEq ι]

/-- **Step lemma** of `Server.Run`. -/
theorem MainInv.step (h : MainInv s) {a : Act ι} (hs : s.step a = some s') : MainInv s' := by
  -- the gRPC server moves from `pc`
  have hgrpc : ∀ {t : Process ι} {pc : GrpcPC}, s.grpc = pc → (∀ b, pc ≠ .returned b) →
      t.main = s.main → t.ctxDone = s.ctxDone → t.timedOut = s.timedOut → t.hooks = s.hooks →
      t.onShutdown = s.onShutdown → t.dbOpen = s.dbOpen → t.janitor = s.janitor →
      t.reaper = s.reaper → MainInv t :=
    fun hpc hne hm hc ht hh ho hd hj hr => h.of_goroutine id id
      (fun b hb => absurd (hpc.symm.trans hb) (hne b)) hm hc ht hh ho hd hj hr rfl
  cases a with
  | cancel =>
      cases hs
      exact h.of_main rfl (fun _ => rfl) rfl rfl rfl rfl id
  | janitor a =>
      obtain ⟨pc, hpc, rfl⟩ := Option.map_eq_some_iff.mp hs
      refine h.of_goroutine (fun hret => ?_) id (fun _ hb => hb) rfl rfl rfl rfl rfl rfl rfl rfl rfl
      rw [hret, LoopPC.step_returned] at hpc
      cases hpc
  | reaper a =>
      obtain ⟨pc, hpc, rfl⟩ := Option.map_eq_some_iff.mp hs
      refine h.of_goroutine id (fun hret => ?_) (fun _ hb => hb) rfl rfl rfl rfl rfl rfl rfl rfl rfl
      rw [hret, LoopPC.step_returned] at hpc
      cases hpc
  | listen ok =>
      cases ok with
      | true =>
          simp only [Process.step] at hs
          split_ifs at hs with hl
          cases hs
          exact hgrpc hl (fun _ he => by cases he) rfl rfl rfl rfl rfl rfl rfl rfl
      | false =>
          simp only [Process.step] at hs
          split_ifs at hs with hl
          cases hs
          exact hgrpc hl (fun _ he => by cases he) rfl rfl rfl rfl rfl rfl rfl rfl
  | fail =>
      simp only [Process.step] at hs
      split_ifs at hs with hf
      cases hs
      exact hgrpc hf.1 (fun _ he => by cases he) rfl rfl rfl rfl rfl rfl rfl rfl
  | stop =>
      simp only [Process.step] at hs
      split_ifs at hs with hg
      obtain ⟨srv, -, rfl⟩ := Option.map_eq_some_iff.mp hs
      exact hgrpc hg.1 (fun _ he => by cases he) rfl rfl rfl rfl rfl rfl rfl rfl
  | stopped =>
      simp only [Process.step] at hs
      split_ifs at hs with hg
      obtain ⟨srv, -, rfl⟩ := Option.map_eq_some_iff.mp hs
      exact hgrpc hg (fun _ he => by cases he) rfl rfl rfl rfl rfl rfl rfl rfl
  | drained =>
      simp only [Process.step] at hs
      split_ifs at hs with hg
      cases hs
      exact hgrpc hg.1 (fun _ he => by cases he) rfl rfl rfl rfl rfl rfl rfl rfl
  | serveFails _ | acceptWrite i | acceptQuery i | finishWrite i | finishQuery i =>
      simp only [Process.step] at hs
      split_ifs at hs
      cases hs
      exact h.of_main rfl id rfl rfl rfl rfl id
  | read i =>
      simp only [Process.step] at hs
      split_ifs at hs
      cases hs
      exact h
  | ingest a =>
      simp only [Process.step] at hs
      split_ifs at hs
      obtain ⟨srv, -, rfl⟩ := Option.map_eq_some_iff.mp hs
      exact h.of_main rfl id rfl rfl rfl rfl id
  | proceed =>
      simp only [Process.step] at hs
      split_ifs at hs with hp
      cases hs
      have hhooks := h.hooks
      rw [hp.1] at hhooks
      refine ⟨fun _ => hp.2, hhooks, fun ho => ?_, Or.inr (Or.inl rfl)⟩
      cases hp.1.symm.trans (h.db ho)
  | allDone =>
      simp only [Process.step] at hs
      split_ifs at hs with hw
      cases hs
      have hhooks := h.hooks
      rw [hw.1] at hhooks
      refine ⟨fun _ => h.ctx (by rw [hw.1]; decide), hhooks, fun ho => ?_,
        Or.inr (Or.inr (Or.inr hw.2))⟩
      cases hw.1.symm.trans (h.db ho)
  | timeout =>
      simp only [Process.step] at hs
      split_ifs at hs with hw
      cases hs
      have hhooks := h.hooks
      rw [hw] at hhooks
      refine ⟨fun _ => h.ctx (by rw [hw]; decide), hhooks, fun ho => ?_,
        Or.inr (Or.inr (Or.inl rfl))⟩
      cases hw.symm.trans (h.db ho)
  | hook =>
      simp only [Process.step] at hs
      split_ifs at hs with hw
      cases hs
      have hhooks := h.hooks
      have hdone := h.done
      rw [hw] at hhooks hdone
      refine ⟨fun _ => h.ctx (by rw [hw]; decide), ?_, fun ho => ?_, ?_⟩
      · have hnone : s.hooks = 0 := hhooks
        show s.hooks + s.onShutdown.toNat = s.onShutdown.toNat
        omega
      · cases hw.symm.trans (h.db ho)
      · rcases hdone with hd | hd | hd
        · cases hd
        · cases hd
        · exact Or.inr (Or.inr hd)
  | close =>
      simp only [Process.step] at hs
      split_ifs at hs with hw
      cases hs
      have hhooks := h.hooks
      have hdone := h.done
      rw [hw] at hhooks hdone
      refine ⟨fun _ => h.ctx (by rw [hw]; decide), hhooks, fun _ => rfl, ?_⟩
      rcases hdone with hd | hd | hd
      · cases hd
      · cases hd
      · exact Or.inr (Or.inr hd)

/-- **Step lemma** of the gRPC server. -/
theorem GrpcInv.step (h : GrpcInv s) {a : Act ι} (hs : s.step a = some s') : GrpcInv s' := by
  -- others move
  have hother : ∀ {t : Process ι}, t.ingestion = s.ingestion → t.grpc = s.grpc →
      t.accepting = s.accepting → t.writes = s.writes → t.queries = s.queries → GrpcInv t := by
    intro t hi hg ha hw hq
    refine h.of_moves (hi ▸ moves_refl _) hg (fun hf => ha.trans hf) fun _ hnil => ?_
    rwa [hw, hq]
  cases a with
  | cancel =>
      cases hs
      exact hother rfl rfl rfl rfl rfl
  | janitor a | reaper a =>
      obtain ⟨pc, -, rfl⟩ := Option.map_eq_some_iff.mp hs
      exact hother rfl rfl rfl rfl rfl
  | proceed | allDone | timeout | hook | close =>
      simp only [Process.step] at hs
      split_ifs at hs
      cases hs
      exact hother rfl rfl rfl rfl rfl
  | read i =>
      simp only [Process.step] at hs
      split_ifs at hs
      cases hs
      exact h
  | listen ok =>
      cases ok with
      | true | false =>
          simp only [Process.step] at hs
          split_ifs at hs with hl
          cases hs
          exact h.of_unasked (by rw [hl]; rfl) rfl rfl
  | serveFails connected =>
      simp only [Process.step] at hs
      split_ifs at hs with hserve
      cases hs
      refine h.of_moves (moves_refl _) rfl (fun hacc => ?_) fun _ hnil => hnil
      rw [hacc] at hserve
      cases hserve.1
  | fail =>
      simp only [Process.step] at hs
      split_ifs at hs with hf
      cases hs
      exact h.of_unasked (by rw [hf.1]; rfl) rfl rfl
  | stop =>
      simp only [Process.step] at hs
      split_ifs at hs
      obtain ⟨srv, hsrv, rfl⟩ := Option.map_eq_some_iff.mp hs
      rw [Grpc.Server.step] at hsrv
      split_ifs at hsrv
      cases hsrv
      refine ⟨fun hf => ?_, fun hf => ?_, fun hf => ?_, fun _ hf => ?_, fun hf => ?_⟩
      all_goals cases hf
  | stopped =>
      simp only [Process.step] at hs
      split_ifs at hs
      obtain ⟨srv, hsrv, rfl⟩ := Option.map_eq_some_iff.mp hs
      rw [Grpc.Server.step] at hsrv
      split at hsrv
      case h_2 => cases hsrv
      next writers hstop =>
        split_ifs at hsrv with hall
        cases hsrv
        refine ⟨fun hf => ?_, fun _ => ⟨rfl, writers, rfl⟩, fun hf => ?_, fun ws hws => ?_,
          fun hf => ?_⟩
        · cases hf
        · cases hf
        · cases hws
          exact fun shard hsh => of_decide_eq_true (List.all_eq_true.mp hall shard hsh)
        · cases hf
  | drained =>
      simp only [Process.step] at hs
      split_ifs at hs with hg
      cases hs
      refine ⟨fun hf => ?_, fun _ => h.after (by rw [hg.1]; rfl), fun _ => hg.2, h.halted,
        h.running⟩
      cases hf
  | acceptWrite i | acceptQuery i =>
      simp only [Process.step] at hs
      split_ifs at hs with ha
      cases hs
      refine h.of_moves (moves_refl _) rfl id fun hf _ => ?_
      rw [hf] at ha
      cases ha.1
  | finishWrite i | finishQuery i =>
      simp only [Process.step] at hs
      split_ifs at hs
      cases hs
      refine h.of_moves (moves_refl _) rfl id fun _ hnil => ?_
      obtain ⟨hw, hq⟩ := hnil
      simp [hw, hq]
  | ingest a =>
      simp only [Process.step] at hs
      split_ifs at hs with hen
      obtain ⟨srv, hsrv, rfl⟩ := Option.map_eq_some_iff.mp hs
      refine h.of_moves (moves_of_step ?_ ?_ hsrv) rfl id fun _ hnil => hnil
      · rintro rfl
        exact hen
      · rintro rfl
        exact hen

/-- What a step does to the ingestion server. -/
theorem step_ingestion {a : Act ι} (hs : s.step a = some s') :
    s'.ingestion = s.ingestion ∨ ∃ b, s.ingestion.step b = some s'.ingestion ∧
      (a = .ingest b ∨ b = .stop ∨ b = .stopped) := by
  cases a with
  | cancel =>
      cases hs
      exact Or.inl rfl
  | janitor a | reaper a =>
      obtain ⟨pc, -, rfl⟩ := Option.map_eq_some_iff.mp hs
      exact Or.inl rfl
  | listen ok =>
      cases ok with
      | true | false =>
          simp only [Process.step] at hs
          split_ifs at hs
          cases hs
          exact Or.inl rfl
  | stop =>
      simp only [Process.step] at hs
      split_ifs at hs
      obtain ⟨srv, hsrv, rfl⟩ := Option.map_eq_some_iff.mp hs
      exact Or.inr ⟨.stop, hsrv, Or.inr (Or.inl rfl)⟩
  | stopped =>
      simp only [Process.step] at hs
      split_ifs at hs
      obtain ⟨srv, hsrv, rfl⟩ := Option.map_eq_some_iff.mp hs
      exact Or.inr ⟨.stopped, hsrv, Or.inr (Or.inr rfl)⟩
  | ingest b =>
      simp only [Process.step] at hs
      split_ifs at hs
      obtain ⟨srv, hsrv, rfl⟩ := Option.map_eq_some_iff.mp hs
      exact Or.inr ⟨b, hsrv, Or.inl rfl⟩
  | serveFails _ | fail | drained | acceptWrite i | acceptQuery i | finishWrite i | finishQuery i
  | read i | proceed | allDone | timeout | hook | close =>
      simp only [Process.step] at hs
      split_ifs at hs
      cases hs
      exact Or.inl rfl

end Inv

/-! ## Shutdown -/

/-- No `Push` comes after the final drain of its writer, and no writer is
created after `Stop` has copied its list. -/
def Timely {ι : Type} (s : Process ι) : Act ι → Prop
  | .ingest a => s.ingestion.Timely a
  | _ => True

instance decidableTimely {ι : Type} [DecidableEq ι] (s : Process ι) : DecidablePred (Timely s)
  | .ingest a => inferInstanceAs (Decidable (s.ingestion.Timely a))
  | .cancel | .janitor _ | .reaper _ | .listen _ | .serveFails _ | .fail | .stop | .stopped
  | .drained | .acceptWrite _ | .acceptQuery _ | .finishWrite _ | .finishQuery _ | .read _
  | .proceed | .allDone | .timeout | .hook | .close => isTrue trivial

/-- Everything has returned when the database is closed in time. -/
theorem allDone_of_closed {ι : Type} {s : Process ι} (h : MainInv s) (hclosed : s.dbOpen = false)
    (htime : s.timedOut = false) : s.AllDone := by
  have hmain := h.db hclosed
  rcases h.done with hd | hd | hd | hd
  · cases hmain.symm.trans hd
  · cases hmain.symm.trans hd
  · cases htime.symm.trans hd
  · exact hd

/-- The hook is registered before `Run`. -/
theorem step_onShutdown {ι : Type} [DecidableEq ι] {s s' : Process ι} {a : Act ι}
    (hs : s.step a = some s') : s'.onShutdown = s.onShutdown := by
  cases a with
  | cancel =>
      cases hs
      rfl
  | janitor a | reaper a =>
      obtain ⟨pc, -, rfl⟩ := Option.map_eq_some_iff.mp hs
      rfl
  | listen ok =>
      cases ok with
      | true | false =>
          simp only [Process.step] at hs
          split_ifs at hs
          cases hs
          rfl
  | stop | stopped | ingest a =>
      simp only [Process.step] at hs
      split_ifs at hs
      obtain ⟨srv, -, rfl⟩ := Option.map_eq_some_iff.mp hs
      rfl
  | serveFails _ | fail | drained | acceptWrite _ | acceptQuery _ | finishWrite _ | finishQuery _
  | read _ | proceed | allDone | timeout | hook | close =>
      simp only [Process.step] at hs
      split_ifs at hs
      cases hs
      rfl

section Runs

variable {ι : Type} [DecidableEq ι] {capacity : Int} {onShutdown : Bool} {s : Process ι}
  {cond : Process ι → Act ι → Prop}

/-- **Run lemma.** -/
theorem inv_of_reach (h : Reachable Process.step cond (Process.init ι capacity onShutdown) s) :
    MainInv s ∧ GrpcInv s := by
  induction h with
  | start => exact ⟨mainInv_init ι capacity onShutdown, grpcInv_init ι capacity onShutdown⟩
  | step _ _ hs ih => exact ⟨ih.1.step hs, ih.2.step hs⟩

theorem onShutdown_of_reach
    (h : Reachable Process.step cond (Process.init ι capacity onShutdown) s) :
    s.onShutdown = onShutdown := by
  induction h with
  | start => rfl
  | step _ _ hs ih => rw [step_onShutdown hs, ih]

/-- The ingestion server by itself. -/
theorem ingestion_of_reach
    (h : Reachable Process.step Timely (Process.init ι capacity onShutdown) s) :
    Reachable Grpc.Server.step Grpc.Server.Timely (Grpc.Server.init ι capacity) s.ingestion := by
  induction h with
  | start => exact .start
  | step _ htime hs ih =>
      rcases step_ingestion hs with he | ⟨b, hb, rfl | rfl | rfl⟩
      · rwa [he]
      · exact ih.step htime hb
      · exact ih.step (a := .stop) trivial hb
      · exact ih.step (a := .stopped) trivial hb

/-- **Who can still use the database** when the goroutines are done. -/
theorem left_behind (h : GrpcInv s) (hdone : s.AllDone) {a : Act ι} (hdb : UsesDb a)
    {s' : Process ι} (hs : s.step a = some s') :
    s.grpc = .returned false ∧ ((∃ i, a = .read i) ∨ ∃ shard b, a = .ingest (.flush shard b)) ∨
      ∃ shard b writers, a = .ingest (.flush shard b) ∧
        s.ingestion.stop = .returned writers ∧ shard ∉ writers := by
  obtain ⟨hjanitor, hreaper, hgrpc⟩ := hdone
  have hreturned : s.grpc = .returned true →
      ∃ writers, s.ingestion.stop = .returned writers := fun hr => (h.after (by rw [hr]; rfl)).2
  cases a with
  | janitor a =>
      simp [Process.step, hjanitor, LoopPC.step_returned] at hs
  | reaper a =>
      simp [Process.step, hreaper, LoopPC.step_returned] at hs
  | read i =>
      rcases hgrpc with hgrpc | hgrpc
      · simp [Process.step, (h.quiet hgrpc).2] at hs
      · exact Or.inl ⟨hgrpc, Or.inl ⟨i, rfl⟩⟩
  | ingest a =>
      cases a with
      | flush shard b =>
          rcases hgrpc with hgrpc | hgrpc
          · obtain ⟨writers, hstop⟩ := hreturned hgrpc
            refine Or.inr ⟨shard, b, writers, rfl, hstop, fun hmem => ?_⟩
            -- a writer of the list has stopped
            have hnone := LiveWriter.step_stopped (h.halted writers hstop shard hmem) b
            simp [Process.step, Grpc.Server.step, hnone] at hs
          · exact Or.inl ⟨hgrpc, Or.inr ⟨shard, b, rfl⟩⟩
      | _ => exact hdb.elim
  | _ => exact hdb.elim

end Runs

/-- A stream writes one event, which is acknowledged. -/
def writeOne : List (Act Unit) :=
  [.listen true, .acceptWrite (), .ingest (.submit () [(7, [eventA])])] ++
    List.replicate 4 (.ingest (.next ()))

/-- The context is done, and both loops return. -/
def endLoops : List (Act Unit) :=
  [.janitor .finish, .reaper .finish, .cancel, .janitor .leave, .reaper .leave]

/-- The gRPC server stops its writer and waits for the stream. -/
def endServer : List (Act Unit) :=
  [.stop, .ingest (.close 7), .ingest (.flush 7 .wake)] ++
    List.replicate 4 (.ingest (.flush 7 .work)) ++ [.stopped, .finishWrite (), .drained]

/-- `Server.Run` after the context is done. -/
def endMain : List (Act Unit) := [.proceed, .allDone, .hook, .close]

/-- **A closed database is not used.** If `Server.Run` closes the database
without a timeout, it does so after the context is done and the hook, if there
is one, has been called once. From then on nothing uses the database but the
queries and writers that a failed gRPC server has left behind, and writers that
were created after `Stop` had copied its list. -/
theorem closed_database_unused {ι : Type} [DecidableEq ι] (capacity : Int) (onShutdown : Bool)
    (s : Process ι) (h : Reachable Process.step always (Process.init ι capacity onShutdown) s)
    (hclosed : s.dbOpen = false) (htime : s.timedOut = false) :
    s.ctxDone = true ∧ s.hooks = onShutdown.toNat ∧
      ∀ a s', UsesDb a → s.step a = some s' →
        s.grpc = .returned false ∧
            ((∃ i, a = .read i) ∨ ∃ shard b, a = .ingest (.flush shard b)) ∨
          ∃ shard b writers, a = .ingest (.flush shard b) ∧
            s.ingestion.stop = .returned writers ∧ shard ∉ writers := by
  obtain ⟨hmain, hgrpc⟩ := inv_of_reach h
  have hret := hmain.db hclosed
  refine ⟨hmain.ctx (by rw [hret]; decide), ?_, fun a s' hdb hs => ?_⟩
  · rw [hmain.hooks, if_pos (Or.inr hret), onShutdown_of_reach h]
  · exact left_behind hgrpc (allDone_of_closed hmain hclosed htime) hdb hs

theorem closed_database_unused_writeOne :
    ∃ s : Process Unit, s.dbOpen = false ∧ s.timedOut = false ∧ s.ctxDone = true ∧ s.hooks = 1 ∧
      ∀ a s', UsesDb a → s.step a = some s' →
        s.grpc = .returned false ∧
            ((∃ i, a = .read i) ∨ ∃ shard b, a = .ingest (.flush shard b)) ∨
          ∃ shard b writers, a = .ingest (.flush shard b) ∧
            s.ingestion.stop = .returned writers ∧ shard ∉ writers := by
  obtain ⟨s, hrun, hs⟩ := exists_reach_of_run Process.step always (Process.init Unit 1 true)
    (writeOne ++ endLoops ++ endServer ++ endMain)
    (fun s => decide (s.dbOpen = false ∧ s.timedOut = false)) (by decide +kernel)
  obtain ⟨hclosed, htime⟩ := of_decide_eq_true hs
  obtain ⟨hctx, hhooks, hunused⟩ := closed_database_unused 1 true s hrun hclosed htime
  exact ⟨s, hclosed, htime, hctx, hhooks, hunused⟩

/-- **A timely shutdown loses nothing.** If moreover no `Push` and no new
writer came too late and the gRPC server has not failed, then nothing uses the
closed database, and every acknowledged event has been processed. -/
theorem shutdown_keeps_acknowledged {ι : Type} [DecidableEq ι] (capacity : Int)
    (onShutdown : Bool) (s : Process ι)
    (h : Reachable Process.step Timely (Process.init ι capacity onShutdown) s)
    (hclosed : s.dbOpen = false) (htime : s.timedOut = false) (hgraceful : s.grpc = .returned true) :
    (∀ a, UsesDb a → s.step a = none) ∧ s.ingestion.acked.Nodup ∧
      ∀ p ∈ s.ingestion.acked,
        (s.ingestion.writer p.shard).processed[p.place]? = some p.event := by
  obtain ⟨hmain, hgrpc⟩ := inv_of_reach h
  obtain ⟨hinv, hdistinct⟩ := Grpc.serverInv_of_reach (ingestion_of_reach h)
  obtain ⟨-, writers, hstop⟩ := hgrpc.after (by rw [hgraceful]; rfl)
  have hlisted := hinv.listed writers (by rw [hstop]; rfl)
  refine ⟨fun a hdb => ?_, hdistinct.acked, fun p hp => ?_⟩
  · cases hs : s.step a with
    | none => rfl
    | some s' =>
        exfalso
        rcases left_behind hgrpc (allDone_of_closed hmain hclosed htime) hdb hs with
          ⟨hf, -⟩ | ⟨shard, b, ws, rfl, hws, hnot⟩
        · cases hgraceful.symm.trans hf
        · -- only shards with a writer are flushed, and `Stop` knew them all
          cases hstop.symm.trans hws
          refine hnot (hlisted shard ?_)
          by_contra hno
          simp [Process.step, Grpc.Server.step, hno] at hs
  · have hholds := hinv.acked p hp
    have hmem : p.shard ∈ s.ingestion.shards := by
      by_contra hno
      rw [Grpc.Server.Holds, hinv.absent p.shard hno] at hholds
      cases hholds
    rw [(hinv.writers p.shard).processed_of_stopped
      (hinv.halted writers hstop p.shard (hlisted p.shard hmem))]
    exact hholds

theorem shutdown_keeps_acknowledged_writeOne :
    ∃ s : Process Unit, s.ingestion.acked = [⟨7, 0, eventA⟩] ∧ (∀ a, UsesDb a → s.step a = none) ∧
      s.ingestion.acked.Nodup ∧ ∀ p ∈ s.ingestion.acked,
        (s.ingestion.writer p.shard).processed[p.place]? = some p.event := by
  obtain ⟨s, hrun, hs⟩ := exists_reach_of_run Process.step Timely (Process.init Unit 1 true)
    (writeOne ++ endLoops ++ endServer ++ endMain)
    (fun s => decide (s.dbOpen = false ∧ s.timedOut = false ∧ s.grpc = .returned true ∧
      s.ingestion.acked = [⟨7, 0, eventA⟩])) (by decide +kernel)
  obtain ⟨hclosed, htime, hgraceful, hacked⟩ := of_decide_eq_true hs
  exact ⟨s, hacked, shutdown_keeps_acknowledged 1 true s hrun hclosed htime hgraceful⟩

/-- **A gRPC server that fails on its own never stops its writers**: in every
later state, also when the database is closed, each of them goes on. -/
theorem failed_server_keeps_writers {ι : Type} [DecidableEq ι] (capacity : Int)
    (onShutdown : Bool) (s : Process ι)
    (h : Reachable Process.step always (Process.init ι capacity onShutdown) s)
    (hfailed : s.grpc = .returned false) :
    s.ingestion.stop = .running ∧ ∀ shard ∈ s.ingestion.shards,
      (s.ingestion.writer shard).stopCh = false ∧
        ∃ a s', s.step (.ingest (.flush shard a)) = some s' := by
  obtain ⟨-, hgrpc⟩ := inv_of_reach h
  have hrunning := hgrpc.before (by rw [hfailed]; rfl)
  refine ⟨hrunning, fun shard hshard => ?_⟩
  have hun := hgrpc.running hrunning shard
  obtain ⟨a, ha⟩ := hun.enabled
  obtain ⟨lw, hlw⟩ := Option.isSome_iff_exists.mp ha
  have hflush : s.ingestion.step (.flush shard a) = some (s.ingestion.setWriter shard lw) := by
    rw [Grpc.Server.step, if_pos hshard, hlw]
    rfl
  refine ⟨hun.stopCh, a, { s with ingestion := s.ingestion.setWriter shard lw }, ?_⟩
  have hen : s.Enabled (.flush shard a) := trivial
  rw [Process.step, if_pos hen, hflush]
  rfl

/-- `Serve` fails after the event was written: its writer outlives the database. -/
theorem failed_server_keeps_writers_writeOne :
    ∃ s : Process Unit, s.dbOpen = false ∧ s.timedOut = false ∧ s.ingestion.stop = .running ∧
      ∃ a s', s.step (.ingest (.flush 7 a)) = some s' := by
  obtain ⟨s, hrun, hs⟩ := exists_reach_of_run Process.step always (Process.init Unit 1 true)
    (writeOne ++ [.serveFails true, .fail] ++ endLoops ++ endMain)
    (fun s => decide (s.dbOpen = false ∧ s.timedOut = false ∧ s.grpc = .returned false ∧
      7 ∈ s.ingestion.shards)) (by decide +kernel)
  obtain ⟨hclosed, htime, hfailed, hshard⟩ := of_decide_eq_true hs
  obtain ⟨hstop, hall⟩ := failed_server_keeps_writers 1 true s hrun hfailed
  exact ⟨s, hclosed, htime, hstop, (hall 7 hshard).2⟩

end Bbdb.Lifecycle
