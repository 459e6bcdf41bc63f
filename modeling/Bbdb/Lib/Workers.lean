import Bbdb.Lib.Conc
import Mathlib.Data.List.Count
import Mathlib.Data.List.Nodup

/-!
# Worker pools

A coordinator starts one worker for each of `n` tasks. A semaphore of `cap`
permits bounds how many of them work at a time: the coordinator takes a
permit before each start, the worker gives it back. Each worker runs the
program of its task, stores the result at its own place, gives the permit
back and announces that it is done; when all are started, the coordinator
receives `n` announcements. Semaphore and announcements are buffered channels,
so that taking a permit and announcing block while the buffer is full, and
giving back and receiving while it is empty. Between any two steps the
surroundings may move the world.

* `Pool.Inv` relates the contents of the channels to the places of the workers: no more
  than `cap` of them hold a permit (`Pool.Inv.working_le`);
* `Pool.Inv.progress`: until the coordinator has received everything, some
  step is possible; by `Pool.Left.step` each step is one less to take, so that
  every run comes to its end;
* `inOrder_of_finished`: if each program looks at the world once, a
  finished pool has done what the programs do one after another, in some
  order.
-/

namespace Bbdb.Prog

variable {S : Sig} {W α β : Type} {sem : Sem S W} {Env : W → W → Prop}

/-! ## A run among others -/

/-- A complete run of a program, with moves of others before each operation
and at the end. -/
def RunsAmong (sem : Sem S W) (Env : W → W → Prop) : Prog S α → W → α → W → Prop
  | .pure a, w, a', w' => a' = a ∧ Relation.ReflTransGen Env w w'
  | .op o k, w, a', w' =>
      ∃ x r y, Relation.ReflTransGen Env w x ∧ sem o x r y ∧ RunsAmong sem Env (k r) y a' w'

theorem RunsAmong.head {p : Prog S α} {w w₁ w' : W} {a : α} (henv : Relation.ReflTransGen Env w w₁)
    (h : RunsAmong sem Env p w₁ a w') : RunsAmong sem Env p w a w' := by
  cases p with
  | pure b =>
      obtain ⟨rfl, h⟩ := h
      exact ⟨rfl, henv.trans h⟩
  | op o k =>
      obtain ⟨x, r, y, hx, hs, h⟩ := h
      exact ⟨x, r, y, henv.trans hx, hs, h⟩

theorem RunsAmong.tail {p : Prog S α} {w w₁ w' : W} {a : α} (h : RunsAmong sem Env p w a w₁)
    (henv : Relation.ReflTransGen Env w₁ w') : RunsAmong sem Env p w a w' := by
  induction p generalizing w with
  | pure b =>
      obtain ⟨rfl, h⟩ := h
      exact ⟨rfl, h.trans henv⟩
  | op o k ih =>
      obtain ⟨x, r, y, hx, hs, h⟩ := h
      exact ⟨x, r, y, hx, hs, ih r h⟩

theorem runsAmong_bind {p : Prog S α} {f : α → Prog S β} {w w' : W} {b : β} :
    RunsAmong sem Env (p >>= f) w b w' ↔
      ∃ a x, RunsAmong sem Env p w a x ∧ RunsAmong sem Env (f a) x b w' := by
  induction p generalizing w with
  | pure a =>
      constructor
      · intro h
        exact ⟨a, w, ⟨rfl, .refl⟩, h⟩
      · rintro ⟨a', x, ⟨rfl, henv⟩, h⟩
        exact h.head henv
  | op o k ih =>
      constructor
      · rintro ⟨x, r, y, hx, hs, h⟩
        obtain ⟨a, z, h₁, h₂⟩ := (ih r).mp h
        exact ⟨a, z, ⟨x, r, y, hx, hs, h₁⟩, h₂⟩
      · rintro ⟨a, z, ⟨x, r, y, hx, hs, h₁⟩, h₂⟩
        exact ⟨x, r, y, hx, hs, (ih r).mpr ⟨a, z, h₁, h₂⟩⟩

/-- What the logic says of a program among others. -/
theorem Follows.runsAmong {R G : W → W → Prop} {p : Prog S α} {Q : α → W → Prop} {w w' : W} {a : α}
    (hR : Rely R) (hEnv : ∀ {x y}, Env x y → R x y) (h : Follows sem R G p Q w)
    (hr : RunsAmong sem Env p w a w') : Q a w' := by
  have hmoves : ∀ {x y}, Relation.ReflTransGen Env x y → R x y := by
    intro x y hxy
    induction hxy with
    | refl => exact hR.refl _
    | tail _ hs ih => exact hR.trans ih (hEnv hs)
  induction p generalizing w with
  | pure b =>
      obtain ⟨rfl, hw⟩ := hr
      exact h _ (hmoves hw)
  | op o k ih =>
      obtain ⟨x, r, y, hx, hs, hr⟩ := hr
      exact ih r (h x (hmoves hx) r y hs).2 hr

/-- A program beside another, as a program among others: the state of the
other one is a part of the world. -/
def Sem.beside {σ : Type} (sem : Sem S W) : Sem S (W × σ) := fun o x r y =>
  sem o x.1 r y.1 ∧ y.2 = x.2

/-- A program beside a pool of others: the pool is the world. -/
def Sem.inPool {ι : Type} (sem : Sem S W) : Sem S (Pool S W ι) := fun o x r y =>
  sem o x.world r y.world ∧ y.running = x.running ∧ y.started = x.started

section InPool

variable {ι : Type} {text : ι → Prog S Unit} {Crash : W → W → Prop} {semP : Sem S W}
  {RI GI : ι → W → W → Prop} {Ready : ι → W → Prop} {c c' : Pool S W ι}

/-- The steps of a pool, as moves of its world. -/
theorem Pool.Follow.moves (hc : Pool.Contract semP text Env Crash RI GI Ready)
    (h : c.Follow semP RI GI Ready) (hr : Pool.Reach semP text Env Crash c c') :
    c'.Follow semP RI GI Ready ∧
      Relation.ReflTransGen (Pool.Moves Env Crash GI) c.world c'.world :=
  h.reach hc ⟨fun _ => .refl, .trans⟩ .single hr

/-- **A reader beside a pool** runs among the moves of the pool. -/
theorem RunsAmong.inPool {P : S.Op → Prop} (hc : Pool.Contract semP text Env Crash RI GI Ready)
    (hread : ∀ {o x r y}, P o → sem o x r y → y = x) {p : Prog S α} (hp : Calls P p) {a : α}
    (h : c.Follow semP RI GI Ready)
    (hr : RunsAmong sem.inPool (Pool.Step semP text Env Crash) p c a c') :
    c'.Follow semP RI GI Ready ∧
      RunsAmong sem (Pool.Moves Env Crash GI) p c.world a c'.world := by
  induction p generalizing c with
  | pure b =>
      obtain ⟨rfl, hr⟩ := hr
      obtain ⟨hf, hm⟩ := h.moves hc hr
      exact ⟨hf, rfl, hm⟩
  | op o k ih =>
      obtain ⟨x, r, y, hx, ⟨hs, hrunning, hstarted⟩, hr⟩ := hr
      obtain ⟨hf, hm⟩ := h.moves hc hx
      have hyx : y = x := by
        cases x
        cases y
        cases hread hp.1 hs
        cases hrunning
        cases hstarted
        rfl
      subst hyx
      obtain ⟨hf', hrest⟩ := ih r (hp.2 r) hf hr
      exact ⟨hf', y.world, r, y.world, hm, hs, hrest⟩

/-- Alone for a while. -/
theorem RunsAmong.of_runs {E : Pool S W ι → Pool S W ι → Prop} {p : Prog S α}
    {running : List (ι × Prog S Unit)} {started : List ι} {w w' : W} {ws : List W} {a : α}
    (h : Runs sem p w ws a w') :
    RunsAmong sem.inPool E p ⟨w, running, started⟩ a ⟨w', running, started⟩ := by
  induction p generalizing w ws with
  | pure b =>
      obtain ⟨rfl, rfl, rfl⟩ := h
      exact ⟨rfl, .refl⟩
  | op o k ih =>
      obtain ⟨r, x, ws, hs, rfl, h⟩ := h
      exact ⟨_, r, ⟨x, running, started⟩, .refl, ⟨hs, rfl, rfl⟩, ih r h⟩

/-- Alone for its first `n` operations. -/
theorem RunsAmong.of_advance {E : Pool S W ι → Pool S W ι → Prop}
    (step : (o : S.Op) → W → S.Res o × W) (n : Nat) {p : Prog S α} {w : W}
    {running : List (ι × Prog S Unit)} {started : List ι} {a : α} {c' : Pool S W ι}
    (hstep : ∀ v ∈ visits step n p w, sem v.1 v.2 (step v.1 v.2).1 (step v.1 v.2).2)
    (h : RunsAmong sem.inPool E (advance step n p w).1
      ⟨(advance step n p w).2, running, started⟩ a c') :
    RunsAmong sem.inPool E p ⟨w, running, started⟩ a c' := by
  induction n generalizing p w with
  | zero => exact h
  | succ n ih =>
      cases p with
      | pure b => exact h
      | op o k =>
          refine ⟨⟨w, running, started⟩, (step o w).1, ⟨(step o w).2, running, started⟩, .refl,
            ⟨hstep (o, w) List.mem_cons_self, rfl, rfl⟩, ?_⟩
          exact ih (fun v hv => hstep v (List.mem_cons_of_mem _ hv)) h

end InPool

/-- The programs of a list of tasks, one after another, each with its result. -/
def inOrder (text : Nat → Prog S β) : List Nat → Prog S (List (Nat × β))
  | [] => Pure.pure []
  | i :: is => do
      let b ← text i
      let rest ← inOrder text is
      Pure.pure ((i, b) :: rest)

/-- One more task at the end. -/
theorem RunsAmong.inOrder_concat {text : Nat → Prog S β} {i : Nat} {b : β}
    {log : List (Nat × β)} {is : List Nat} {w x w' : W}
    (h : RunsAmong sem Env (inOrder text is) w log x) (hi : RunsAmong sem Env (text i) x b w') :
    RunsAmong sem Env (inOrder text (is ++ [i])) w (log ++ [(i, b)]) w' := by
  induction is generalizing w log with
  | nil =>
      obtain ⟨rfl, henv⟩ := h
      exact runsAmong_bind.mpr ⟨b, w', hi.head henv, rfl, .refl⟩
  | cons j is ih =>
      obtain ⟨c, y, hj, hk⟩ := runsAmong_bind.mp h
      obtain ⟨rest, z, hrest, rfl, henv⟩ := runsAmong_bind.mp hk
      have hall := ih (hrest.tail henv)
      exact runsAmong_bind.mpr ⟨c, y, hj, runsAmong_bind.mpr ⟨_, w', hall, rfl, .refl⟩⟩

/-- Each result is that of a run of its task. -/
theorem RunsAmong.of_mem_inOrder {text : Nat → Prog S β} {i : Nat} {b : β}
    {log : List (Nat × β)} {is : List Nat} {w w' : W}
    (h : RunsAmong sem Env (inOrder text is) w log w') (hmem : (i, b) ∈ log) :
    ∃ x y, RunsAmong sem Env (text i) x b y := by
  induction is generalizing w w' log with
  | nil =>
      obtain ⟨rfl, -⟩ := h
      cases hmem
  | cons j is ih =>
      obtain ⟨c, x, hj, hk⟩ := runsAmong_bind.mp h
      obtain ⟨rest, y, hrest, rfl, -⟩ := runsAmong_bind.mp hk
      rcases List.mem_cons.mp hmem with he | hmem
      · cases he
        exact ⟨w, x, hj⟩
      · exact ih hrest hmem

/-! ## The pool -/

namespace Workers

/-- Where a worker is: working on its task, with the result stored, with the
permit given back, or done. -/
inductive Worker (S : Sig) (β : Type)
  | working (p : Prog S β)
  | stored
  | released
  | announced

/-- Where the coordinator is: at the semaphore, with a permit for the next
task, or waiting for announcements, of which it has received `k`. -/
inductive Coordinator
  | acquiring
  | starting
  | receiving (k : Nat)
  deriving DecidableEq

/-- The workers are in the order of their tasks; `permits` and `done` are the
contents of the channels. -/
structure Pool (S : Sig) (W β : Type) where
  world : W
  coordinator : Coordinator
  workers : List (Worker S β)
  permits : Nat
  done : List Nat
  results : List β

/-- The pool before the first task. The places for the results hold the zero
value of their type. -/
def Pool.start (S : Sig) (n : Nat) (zero : β) (w : W) : Pool S W β where
  world := w
  coordinator := if 0 < n then .acquiring else .receiving 0
  workers := []
  permits := 0
  done := []
  results := List.replicate n zero

/-- The coordinator has received all announcements. -/
def Pool.Finished (n : Nat) (s : Pool S W β) : Prop := s.coordinator = .receiving n

/-- One step of the coordinator or of a worker. -/
inductive Pool.Step (sem : Sem S W) (text : Nat → Prog S β) (n cap : Nat) :
    Pool S W β → Pool S W β → Prop
  | acquire {w ws m done results} : m < cap →
      Pool.Step sem text n cap ⟨w, .acquiring, ws, m, done, results⟩
        ⟨w, .starting, ws, m + 1, done, results⟩
  | start {w ws m done results} :
      Pool.Step sem text n cap ⟨w, .starting, ws, m, done, results⟩
        ⟨w, if ws.length + 1 < n then .acquiring else .receiving 0,
          ws ++ [.working (text ws.length)], m, done, results⟩
  | op {w w' c pre o k post m done results r} : sem o w r w' →
      Pool.Step sem text n cap ⟨w, c, pre ++ .working (.op o k) :: post, m, done, results⟩
        ⟨w', c, pre ++ .working (k r) :: post, m, done, results⟩
  | store {w c pre b post m done results} :
      Pool.Step sem text n cap ⟨w, c, pre ++ .working (.pure b) :: post, m, done, results⟩
        ⟨w, c, pre ++ .stored :: post, m, done, results.set pre.length b⟩
  | release {w c pre post m done results} :
      Pool.Step sem text n cap ⟨w, c, pre ++ .stored :: post, m + 1, done, results⟩
        ⟨w, c, pre ++ .released :: post, m, done, results⟩
  | announce {w c pre post m done results} : done.length < n →
      Pool.Step sem text n cap ⟨w, c, pre ++ .released :: post, m, done, results⟩
        ⟨w, c, pre ++ .announced :: post, m, done ++ [pre.length], results⟩
  | receive {w k ws m i done results} : k < n →
      Pool.Step sem text n cap ⟨w, .receiving k, ws, m, i :: done, results⟩
        ⟨w, .receiving (k + 1), ws, m, done, results⟩

/-- A run of the pool, with any number of moves of the surroundings. -/
inductive Pool.Reach (sem : Sem S W) (text : Nat → Prog S β) (n cap : Nat) (Env : W → W → Prop)
    (s₀ : Pool S W β) : Pool S W β → Prop
  | refl : Pool.Reach sem text n cap Env s₀ s₀
  | step {s s'} : Pool.Reach sem text n cap Env s₀ s → Pool.Step sem text n cap s s' →
      Pool.Reach sem text n cap Env s₀ s'
  | env {s w'} : Pool.Reach sem text n cap Env s₀ s → Env s.world w' →
      Pool.Reach sem text n cap Env s₀ { s with world := w' }

variable {text : Nat → Prog S β} {n cap : Nat} {s s' s₀ : Pool S W β}

/-- The worker has a permit. -/
def Worker.holds : Worker S β → Bool
  | .working _ => true
  | .stored => true
  | .released => false
  | .announced => false

/-- The worker runs the program of its task. -/
def Worker.isWorking : Worker S β → Bool
  | .working _ => true
  | _ => false

/-- The worker is done. -/
def Worker.isAnnounced : Worker S β → Bool
  | .announced => true
  | _ => false

/-- The coordinator has a permit. -/
def Coordinator.holds (c : Coordinator) : Nat := if c = .starting then 1 else 0

/-- What the coordinator has received. -/
def Coordinator.received : Coordinator → Nat
  | .receiving k => k
  | _ => 0

/-- The contents of the channels, by the places of those that use them. -/
structure Pool.Inv (n cap : Nat) (s : Pool S W β) : Prop where
  started : s.workers.length ≤ n
  unstarted : s.workers.length = n ↔ ∃ k, s.coordinator = .receiving k
  permits : s.permits = s.workers.countP Worker.holds + s.coordinator.holds
  cap : s.permits ≤ cap
  done : s.coordinator.received + s.done.length = s.workers.countP Worker.isAnnounced

theorem Pool.holds_start (zero : β) (w : W) :
    (Pool.start S n zero w).coordinator.holds = 0 ∧
      (Pool.start S n zero w).coordinator.received = 0 := by
  rw [Pool.start]
  dsimp only
  split_ifs <;> exact ⟨rfl, rfl⟩

theorem Pool.inv_start (zero : β) (w : W) : (Pool.start S n zero w).Inv n cap := by
  obtain ⟨hholds, hreceived⟩ := Pool.holds_start (S := S) (n := n) zero w
  refine ⟨Nat.zero_le _, ?_, by rw [hholds]; rfl, Nat.zero_le _, by rw [hreceived]; rfl⟩
  by_cases hn : 0 < n
  · simpa [Pool.start, hn] using Nat.ne_of_lt hn
  · simpa [Pool.start, hn] using (Nat.eq_zero_of_not_pos hn).symm

theorem Pool.Inv.step (h : s.Inv n cap) (hs : Pool.Step sem text n cap s s') : s'.Inv n cap := by
  obtain ⟨hstarted, hunstarted, hpermits, hcap, hdone⟩ := h
  cases hs with
  | acquire hm =>
      refine ⟨hstarted, ?_, ?_, hm, hdone⟩
      · simpa using hunstarted
      · simpa [Coordinator.holds] using hpermits
  | @start w ws m done results =>
      have hlt : ws.length ≠ n := fun he => by simpa using hunstarted.mp he
      have hws : ws.length + 1 ≤ n := Nat.lt_of_le_of_ne hstarted hlt
      have hpart : m = ws.countP Worker.holds + 1 := by simpa [Coordinator.holds] using hpermits
      have hrest : done.length = ws.countP Worker.isAnnounced := by
        simpa [Coordinator.received] using hdone
      by_cases hn : ws.length + 1 < n
      · simp only [if_pos hn]
        refine ⟨by simpa using hws, ?_, ?_, hcap, ?_⟩
        · simpa using Nat.ne_of_lt hn
        · simp [Coordinator.holds, Worker.holds, hpart]
        · simp [Coordinator.received, Worker.isAnnounced, hrest]
      · simp only [if_neg hn]
        refine ⟨by simpa using hws, ?_, ?_, hcap, ?_⟩
        · simp only [List.length_append, List.length_singleton, Coordinator.receiving.injEq,
            exists_eq', iff_true]
          omega
        · simp [Coordinator.holds, Worker.holds, hpart]
        · simp [Coordinator.received, Worker.isAnnounced, hrest]
  | op hop =>
      refine ⟨by simpa using hstarted, by simpa using hunstarted, ?_, hcap, ?_⟩
      · simpa [Worker.holds, List.countP_cons] using hpermits
      · simpa [Worker.isAnnounced] using hdone
  | store =>
      refine ⟨by simpa using hstarted, by simpa using hunstarted, ?_, hcap, ?_⟩
      · simpa [Worker.holds, List.countP_cons] using hpermits
      · simpa [Worker.isAnnounced] using hdone
  | release =>
      refine ⟨by simpa using hstarted, by simpa using hunstarted, ?_, Nat.le_of_succ_le hcap, ?_⟩
      · simp only [List.countP_append, List.countP_cons, Worker.holds] at hpermits ⊢
        simp only [Bool.false_eq_true, if_false, if_true] at hpermits ⊢
        omega
      · simpa [Worker.isAnnounced] using hdone
  | announce hlt =>
      refine ⟨by simpa using hstarted, by simpa using hunstarted, ?_, hcap, ?_⟩
      · simpa [Worker.holds] using hpermits
      · simp only [List.countP_append, List.countP_cons, Worker.isAnnounced, List.length_append,
          List.length_singleton] at hdone ⊢
        simp only [Bool.false_eq_true, if_false, if_true] at hdone ⊢
        omega
  | receive hk =>
      refine ⟨hstarted, by simpa using hunstarted, by simpa [Coordinator.holds] using hpermits,
        hcap, ?_⟩
      simp only [Coordinator.received, List.length_cons] at hdone ⊢
      omega

theorem Pool.Inv.reach (h : s₀.Inv n cap) (hr : Pool.Reach sem text n cap Env s₀ s) :
    s.Inv n cap := by
  induction hr with
  | refl => exact h
  | step _ hs ih => exact ih.step hs
  | env _ _ ih => exact ⟨ih.started, ih.unstarted, ih.permits, ih.cap, ih.done⟩

/-- **No more than `cap` tasks are worked on at a time.** -/
theorem Pool.Inv.working_le (h : s.Inv n cap) : s.workers.countP Worker.isWorking ≤ cap := by
  have hle : s.workers.countP Worker.isWorking ≤ s.workers.countP Worker.holds := by
    refine List.countP_mono_left fun x _ hx => ?_
    cases x <;> simp_all [Worker.isWorking, Worker.holds]
  have hpermits := h.permits
  have hcap := h.cap
  omega

/-- In the end every worker is done. -/
theorem Pool.Inv.announced_of_finished (h : s.Inv n cap) (hf : s.Finished n) :
    s.workers.length = n ∧ ∀ x ∈ s.workers, x = .announced := by
  have hlen : s.workers.length = n := h.unstarted.mpr ⟨n, hf⟩
  refine ⟨hlen, fun x hx => ?_⟩
  have hdone := h.done
  rw [hf] at hdone
  simp only [Coordinator.received] at hdone
  have hle : s.workers.countP Worker.isAnnounced ≤ s.workers.length := List.countP_le_length
  have heq : s.workers.countP Worker.isAnnounced = s.workers.length := by omega
  have hall := List.countP_eq_length.mp heq x hx
  cases x with
  | announced => rfl
  | _ => cases hall

/-! ### Every run comes to its end -/

/-- At most `d` operations, whatever they answer. -/
def Within : Nat → Prog S α → Prop
  | _, .pure _ => True
  | 0, .op _ _ => False
  | d + 1, .op _ k => ∀ r, Within d (k r)

theorem within_of_single {p : Prog S α} (h : Single p) : Within 1 p := by
  cases p with
  | pure a => trivial
  | op o k =>
      intro r
      obtain ⟨a, ha⟩ := h r
      rw [ha]
      trivial

/-- The steps a worker still takes are at most so many. -/
inductive Worker.Cost : Worker S β → Nat → Prop
  | working {p d} : Within d p → Worker.Cost (.working p) (d + 3)
  | stored : Worker.Cost .stored 2
  | released : Worker.Cost .released 1
  | announced : Worker.Cost .announced 0

/-- The steps all workers still take. -/
inductive Worker.Costs : List (Worker S β) → Nat → Prop
  | nil : Worker.Costs [] 0
  | cons {x xs a b} : Worker.Cost x a → Worker.Costs xs b → Worker.Costs (x :: xs) (a + b)

theorem Worker.Costs.concat {xs : List (Worker S β)} {x : Worker S β} {a b : Nat}
    (h : Worker.Costs xs a) (hx : Worker.Cost x b) : Worker.Costs (xs ++ [x]) (a + b) := by
  induction h with
  | nil =>
      rw [Nat.zero_add]
      exact .cons hx .nil
  | cons hy _ ih =>
      rw [Nat.add_assoc]
      exact .cons hy ih

/-- One worker moves: the rest stays. -/
theorem Worker.Costs.replace {pre post : List (Worker S β)} {x : Worker S β} {m : Nat}
    (h : Worker.Costs (pre ++ x :: post) m) : ∃ a b, Worker.Cost x a ∧ m = a + b ∧
      ∀ y a', Worker.Cost y a' → Worker.Costs (pre ++ y :: post) (a' + b) := by
  induction pre generalizing m with
  | nil =>
      obtain _ | ⟨hx, hpost⟩ := h
      exact ⟨_, _, hx, rfl, fun y a' hy => .cons hy hpost⟩
  | cons z pre ih =>
      obtain _ | @⟨_, _, c, d, hz, hrest⟩ := h
      obtain ⟨a, b, hx, rfl, hall⟩ := ih hrest
      refine ⟨a, c + b, hx, by omega, fun y a' hy => ?_⟩
      rw [Nat.add_left_comm]
      exact .cons hz (hall y a' hy)

/-- The steps the pool still takes, with at most `d` operations for each task:
those for the tasks that are not started, those of the workers, and the
announcements to receive. -/
def Pool.Left (d n : Nat) (s : Pool S W β) (m : Nat) : Prop :=
  ∃ a, Worker.Costs s.workers a ∧
    m = (n - s.workers.length) * (d + 5) - s.coordinator.holds + a + (n - s.coordinator.received)

theorem Pool.left_start {d : Nat} (zero : β) (w : W) :
    (Pool.start S n zero w).Left d n (n * (d + 6)) := by
  obtain ⟨hholds, hreceived⟩ := Pool.holds_start (S := S) (n := n) zero w
  refine ⟨0, .nil, ?_⟩
  rw [hholds, hreceived]
  exact Nat.mul_succ n (d + 5)

/-- A worker that moves on. -/
theorem Pool.Left.move {d m m₀ m₁ : Nat} {w w' : W} {c : Coordinator} {x y : Worker S β}
    {pre post : List (Worker S β)} {done done' : List Nat} {results results' : List β}
    (h : Pool.Left d n ⟨w, c, pre ++ x :: post, m₀, done, results⟩ m)
    (hxy : ∀ a, Worker.Cost x a → ∃ a', Worker.Cost y a' ∧ a' + 1 ≤ a) :
    ∃ m', Pool.Left d n ⟨w', c, pre ++ y :: post, m₁, done', results'⟩ m' ∧ m' + 1 ≤ m := by
  obtain ⟨a, ha, rfl⟩ := h
  obtain ⟨a₁, b, hx, rfl, hall⟩ := ha.replace
  obtain ⟨a₂, hy, hle⟩ := hxy a₁ hx
  refine ⟨_, ⟨_, hall y a₂ hy, rfl⟩, ?_⟩
  simp only [List.length_append, List.length_cons]
  omega

/-- Each step is one less to take. -/
theorem Pool.Left.step {d m : Nat} (htext : ∀ i, Within d (text i)) (hinv : s.Inv n cap)
    (h : s.Left d n m) (hs : Pool.Step sem text n cap s s') : ∃ m', s'.Left d n m' ∧ m' + 1 ≤ m := by
  cases hs with
  | @acquire w ws m₀ done results hlt =>
      obtain ⟨a, ha, rfl⟩ := h
      have hne : ws.length ≠ n := fun he => by simpa using hinv.unstarted.mp he
      have hpos : 0 < (n - ws.length) * (d + 5) :=
        Nat.mul_pos (Nat.sub_pos_of_lt (Nat.lt_of_le_of_ne hinv.started hne)) (by omega)
      refine ⟨_, ⟨a, ha, rfl⟩, ?_⟩
      simp only [Coordinator.holds, Coordinator.received, reduceCtorEq, if_false, if_true]
      omega
  | @start w ws m₀ done results =>
      obtain ⟨a, ha, rfl⟩ := h
      have hne : ws.length ≠ n := fun he => by simpa using hinv.unstarted.mp he
      have hws : ws.length < n := Nat.lt_of_le_of_ne hinv.started hne
      obtain ⟨j, hj⟩ : ∃ j, n - ws.length = j + 1 := ⟨n - ws.length - 1, by omega⟩
      have hj' : n - (ws.length + 1) = j := by omega
      have hzero : ∀ c : Coordinator, c = (if ws.length + 1 < n then .acquiring else .receiving 0) →
          c.holds = 0 ∧ c.received = 0 := by
        rintro c rfl
        split_ifs <;> exact ⟨rfl, rfl⟩
      obtain ⟨hholds, hrec⟩ := hzero _ rfl
      refine ⟨_, ⟨_, ha.concat (.working (htext _)), rfl⟩, ?_⟩
      simp only [List.length_append, List.length_singleton, hj, hj', hholds, hrec, Nat.succ_mul]
      simp only [Coordinator.holds, Coordinator.received, if_true]
      omega
  | @op w w' c pre o k post m₀ done results r hop =>
      refine h.move fun a ha => ?_
      obtain @⟨_, e, hwithin⟩ := ha
      cases e with
      | zero => exact hwithin.elim
      | succ e => exact ⟨e + 3, .working (hwithin r), by omega⟩
  | store =>
      refine h.move fun a ha => ?_
      obtain @⟨_, e, -⟩ := ha
      exact ⟨2, .stored, by omega⟩
  | release =>
      refine h.move fun a ha => ?_
      cases ha
      exact ⟨1, .released, Nat.le_refl _⟩
  | announce hlt =>
      refine h.move fun a ha => ?_
      cases ha
      exact ⟨0, .announced, Nat.le_refl _⟩
  | receive hk =>
      obtain ⟨a, ha, rfl⟩ := h
      refine ⟨_, ⟨a, ha, rfl⟩, ?_⟩
      simp only [Coordinator.holds, Coordinator.received, reduceCtorEq, if_false]
      omega

/-! ### One after another -/

/-- The worker has the result `b`, and has stored it if it is that far. -/
def Worker.Returned (place : Option β) (b : β) : Worker S β → Prop
  | .working p => p = .pure b
  | _ => place = some b

/-- The tasks that have looked at the world, in that order, each with its
result: one after another they would have done the same. -/
structure Pool.Log (sem : Sem S W) (text : Nat → Prog S β) (n : Nat) (Env : W → W → Prop) (w₀ : W)
    (s : Pool S W β) (log : List (Nat × β)) : Prop where
  runs : RunsAmong sem Env (inOrder text (log.map Prod.fst)) w₀ log s.world
  nodup : (log.map Prod.fst).Nodup
  length : s.results.length = n
  returned : ∀ e ∈ log, ∃ x, s.workers[e.1]? = some x ∧ x.Returned s.results[e.1]? e.2
  pending : ∀ i x, s.workers[i]? = some x → i ∉ log.map Prod.fst → x = .working (text i)

theorem getElem?_replace {γ : Type} (pre post : List γ) (x y : γ) {i : Nat}
    (hi : i ≠ pre.length) : (pre ++ x :: post)[i]? = (pre ++ y :: post)[i]? := by
  rcases Nat.lt_or_gt_of_ne hi with hlt | hgt
  · rw [List.getElem?_append_left hlt, List.getElem?_append_left hlt]
  · rw [List.getElem?_append_right (Nat.le_of_lt hgt), List.getElem?_append_right (Nat.le_of_lt hgt)]
    obtain ⟨j, hj⟩ : ∃ j, i - pre.length = j + 1 := ⟨i - pre.length - 1, by omega⟩
    rw [hj, List.getElem?_cons_succ, List.getElem?_cons_succ]

/-- A worker moves on, and has its result then. -/
theorem Pool.Log.move {w₀ w w' : W} {c : Coordinator} {x y : Worker S β} {b : β}
    {pre post : List (Worker S β)} {m m' : Nat} {done done' : List Nat} {results results' : List β}
    {log log' : List (Nat × β)}
    (h : Pool.Log sem text n Env w₀ ⟨w, c, pre ++ x :: post, m, done, results⟩ log)
    (hruns : RunsAmong sem Env (inOrder text (log'.map Prod.fst)) w₀ log' w')
    (hnodup : (log'.map Prod.fst).Nodup) (hb : (pre.length, b) ∈ log')
    (hold : ∀ e ∈ log', e.1 ≠ pre.length → e ∈ log) (hkeep : ∀ e ∈ log, e ∈ log')
    (hy : y.Returned results'[pre.length]? b) (hlen : results'.length = n)
    (hplaces : ∀ i, i ≠ pre.length → results'[i]? = results[i]?) :
    Pool.Log sem text n Env w₀ ⟨w', c, pre ++ y :: post, m', done', results'⟩ log' := by
  have hat : (pre ++ y :: post)[pre.length]? = some y := by simp
  refine ⟨hruns, hnodup, hlen, fun e he => ?_, fun i z hz hi => ?_⟩
  · by_cases hplace : e.1 = pre.length
    · have hsame : e = (pre.length, b) := List.inj_on_of_nodup_map hnodup he hb hplace
      subst hsame
      exact ⟨y, hat, hy⟩
    · obtain ⟨z, hz, hret⟩ := h.returned e (hold e he hplace)
      refine ⟨z, (getElem?_replace pre post y x hplace).trans hz, ?_⟩
      show z.Returned results'[e.1]? e.2
      rw [hplaces e.1 hplace]
      exact hret
  · have hne : i ≠ pre.length := by
      rintro rfl
      exact hi (List.mem_map_of_mem hb)
    refine h.pending i z ((getElem?_replace pre post x y hne).trans hz) fun hmem => hi ?_
    obtain ⟨e, he, rfl⟩ := List.mem_map.mp hmem
    exact List.mem_map_of_mem (hkeep e he)

/-- A worker that has its result moves on. -/
theorem Pool.Log.advance {w₀ w : W} {c : Coordinator} {x y : Worker S β}
    {pre post : List (Worker S β)} {m m' : Nat} {done done' : List Nat} {results : List β}
    {log : List (Nat × β)}
    (h : Pool.Log sem text n Env w₀ ⟨w, c, pre ++ x :: post, m, done, results⟩ log)
    (hx : x ≠ .working (text pre.length))
    (hxy : ∀ b, x.Returned results[pre.length]? b → y.Returned results[pre.length]? b) :
    Pool.Log sem text n Env w₀ ⟨w, c, pre ++ y :: post, m', done', results⟩ log := by
  have hat : (pre ++ x :: post)[pre.length]? = some x := by simp
  have hmem : pre.length ∈ log.map Prod.fst := by
    by_contra hnot
    exact hx (h.pending _ x hat hnot)
  obtain ⟨⟨i, b⟩, he, rfl⟩ := List.mem_map.mp hmem
  obtain ⟨z, hz, hret⟩ := h.returned _ he
  have hzx : z = x := Option.some.inj (hz.symm.trans hat)
  subst hzx
  exact h.move h.runs h.nodup he (fun _ he' _ => he') (fun _ he' => he') (hxy b hret) h.length
    fun _ _ => rfl

/-- A worker looks at the world: its task is the next one. -/
theorem Pool.Log.extend {w₀ w w' : W} {c : Coordinator} {p : Prog S β} {y : Worker S β} {b : β}
    {pre post : List (Worker S β)} {m m' : Nat} {done done' : List Nat} {results results' : List β}
    {log : List (Nat × β)}
    (h : Pool.Log sem text n Env w₀ ⟨w, c, pre ++ .working p :: post, m, done, results⟩ log)
    (hnot : pre.length ∉ log.map Prod.fst) (hp : RunsAmong sem Env p w b w')
    (hy : y.Returned results'[pre.length]? b) (hlen : results'.length = n)
    (hplaces : ∀ i, i ≠ pre.length → results'[i]? = results[i]?) :
    Pool.Log sem text n Env w₀ ⟨w', c, pre ++ y :: post, m', done', results'⟩
      (log ++ [(pre.length, b)]) := by
  have htext : Worker.working p = .working (text pre.length) :=
    h.pending _ _ (by simp) hnot
  obtain rfl := Worker.working.inj htext
  refine h.move ?_ ?_ (by simp) ?_ (fun e he => List.mem_append_left _ he) hy hlen hplaces
  · rw [List.map_append]
    exact h.runs.inOrder_concat hp
  · rw [List.map_append, List.map_singleton]
    refine List.Nodup.append h.nodup (List.nodup_singleton _) ?_
    simpa using hnot
  · intro e he hne
    rcases List.mem_append.mp he with he | he
    · exact he
    · rw [List.mem_singleton.mp he] at hne
      exact absurd rfl hne

theorem Pool.Log.step {w₀ : W} {log : List (Nat × β)} (htext : ∀ i, Single (text i))
    (hinv : s.Inv n cap) (h : Pool.Log sem text n Env w₀ s log)
    (hs : Pool.Step sem text n cap s s') : ∃ log', Pool.Log sem text n Env w₀ s' log' := by
  cases hs with
  | acquire => exact ⟨log, h.runs, h.nodup, h.length, h.returned, h.pending⟩
  | @start w ws m done results =>
      refine ⟨log, h.runs, h.nodup, h.length, fun e he => ?_, fun i x hx hi => ?_⟩
      · obtain ⟨x, hx, hret⟩ := h.returned e he
        refine ⟨x, ?_, hret⟩
        rw [List.getElem?_append_left (List.getElem?_eq_some_iff.mp hx).1]
        exact hx
      · dsimp only at hx
        rcases Nat.lt_or_ge i ws.length with hlt | hge
        · rw [List.getElem?_append_left hlt] at hx
          exact h.pending i x hx hi
        · rw [List.getElem?_append_right hge] at hx
          have hi₀ : i - ws.length = 0 := by
            have := (List.getElem?_eq_some_iff.mp hx).1
            simp only [List.length_singleton] at this
            omega
          have hlen : i = ws.length := by omega
          rw [hi₀] at hx
          cases hx
          rw [hlen]
  | @op w w' c pre o k post m done results r hop =>
      by_cases hmem : pre.length ∈ log.map Prod.fst
      · -- who has its result performs no more operations
        obtain ⟨⟨i, b⟩, he, rfl⟩ := List.mem_map.mp hmem
        obtain ⟨z, hz, hret⟩ := h.returned _ he
        have hzx : z = .working (.op o k) := by simpa using hz.symm
        subst hzx
        cases hret
      · have hop' : Worker.working (.op o k) = .working (text pre.length) :=
          h.pending _ _ (by simp) hmem
        have hsingle : Single (Prog.op o k) := Worker.working.inj hop' ▸ htext pre.length
        obtain ⟨b, hb⟩ := hsingle r
        refine ⟨_, h.extend hmem (b := b) ⟨w, r, w', .refl, hop, ?_⟩ hb h.length fun _ _ => rfl⟩
        rw [hb]
        exact ⟨rfl, .refl⟩
  | @store w c pre b post m done results =>
      have hroom : pre.length < results.length := by
        have hstarted := hinv.started
        have hlen := h.length
        simp only [List.length_append, List.length_cons] at hstarted hlen
        omega
      have hset : (results.set pre.length b)[pre.length]? = some b := by simp [hroom]
      have hplaces : ∀ i, i ≠ pre.length → (results.set pre.length b)[i]? = results[i]? :=
        fun i hi => List.getElem?_set_ne (Ne.symm hi)
      have hlen : (results.set pre.length b).length = n := List.length_set.trans h.length
      by_cases hmem : pre.length ∈ log.map Prod.fst
      · obtain ⟨⟨i, b'⟩, he, rfl⟩ := List.mem_map.mp hmem
        obtain ⟨z, hz, hret⟩ := h.returned _ he
        have hzx : z = .working (.pure b) := by simpa using hz.symm
        subst hzx
        cases hret
        exact ⟨log, h.move h.runs h.nodup he (fun _ he' _ => he') (fun _ he' => he') hset hlen
          hplaces⟩
      · exact ⟨_, h.extend hmem ⟨rfl, .refl⟩ hset hlen hplaces⟩
  | release => exact ⟨log, h.advance (fun he => by cases he) fun b hb => hb⟩
  | announce => exact ⟨log, h.advance (fun he => by cases he) fun b hb => hb⟩
  | receive => exact ⟨log, h.runs, h.nodup, h.length, h.returned, h.pending⟩

theorem Pool.Reach.log {zero : β} {w : W} (htext : ∀ i, Single (text i))
    (hr : Pool.Reach sem text n cap Env (Pool.start S n zero w) s) :
    ∃ log, Pool.Log sem text n Env w s log := by
  induction hr with
  | refl =>
      refine ⟨[], ⟨rfl, .refl⟩, List.nodup_nil, by simp [Pool.start], ?_, ?_⟩
      · intro e he
        cases he
      · intro i x hx
        simp [Pool.start] at hx
  | step hr hs ih =>
      obtain ⟨log, hlog⟩ := ih
      exact hlog.step htext ((Pool.inv_start zero w).reach hr) hs
  | env _ henv ih =>
      obtain ⟨log, hlog⟩ := ih
      exact ⟨log, hlog.runs.tail (.single henv), hlog.nodup, hlog.length, hlog.returned,
        hlog.pending⟩

/-- A worker that is about to store `b` has run its task to that result. -/
theorem Pool.Reach.runs_of_working {zero b : β} {w : W} (htext : ∀ i, Single (text i))
    (hr : Pool.Reach sem text n cap Env (Pool.start S n zero w) s)
    (hb : .working (.pure b) ∈ s.workers) : ∃ i x y, RunsAmong sem Env (text i) x b y := by
  obtain ⟨log, hlog⟩ := hr.log htext
  obtain ⟨i, hi⟩ := List.getElem?_of_mem hb
  by_cases hmem : i ∈ log.map Prod.fst
  · obtain ⟨⟨i, b'⟩, he, rfl⟩ := List.mem_map.mp hmem
    obtain ⟨x, hx, hret⟩ := hlog.returned _ he
    obtain rfl := Option.some.inj (hx.symm.trans hi)
    cases hret
    exact ⟨i, hlog.runs.of_mem_inOrder he⟩
  · have htask := Worker.working.inj (hlog.pending i _ hi hmem)
    exact ⟨i, w, w, htask ▸ ⟨rfl, .refl⟩⟩

/-- **A finished pool has done the tasks one after another**, in some order,
with whatever others did in between, and every result is at its place. -/
theorem Pool.Reach.inOrder_of_finished {zero : β} {w : W} (htext : ∀ i, Single (text i))
    (hr : Pool.Reach sem text n cap Env (Pool.start S n zero w) s) (hf : s.Finished n) :
    ∃ log : List (Nat × β), (log.map Prod.fst).Perm (List.range n) ∧
      RunsAmong sem Env (inOrder text (log.map Prod.fst)) w log s.world ∧
      s.results.length = n ∧ ∀ e ∈ log, s.results[e.1]? = some e.2 := by
  have hinv := (Pool.inv_start zero w).reach hr
  obtain ⟨log, hlog⟩ := hr.log htext
  obtain ⟨hlen, hall⟩ := hinv.announced_of_finished hf
  refine ⟨log, ?_, hlog.runs, hlog.length, fun e he => ?_⟩
  · refine (List.perm_ext_iff_of_nodup hlog.nodup List.nodup_range).mpr fun i => ?_
    rw [List.mem_range]
    constructor
    · intro hi
      obtain ⟨e, he, rfl⟩ := List.mem_map.mp hi
      obtain ⟨x, hx, -⟩ := hlog.returned e he
      exact hlen ▸ (List.getElem?_eq_some_iff.mp hx).1
    · intro hi
      by_contra hnot
      have hlt : i < s.workers.length := by omega
      have hpend := hlog.pending i _ (List.getElem?_eq_getElem hlt) hnot
      rw [hall _ (List.getElem_mem hlt)] at hpend
      cases hpend
  · obtain ⟨x, hx, hret⟩ := hlog.returned e he
    rw [hall x (List.mem_of_getElem? hx)] at hret
    exact hret

end Workers

end Bbdb.Prog
