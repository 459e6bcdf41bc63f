import Mathlib.Data.List.Chain
import Mathlib.Logic.Relation

/-!
# Programs over atomic operations

A program is a tree of atomic operations: each node performs one operation
and continues with what it returned. The tree is the program text; what an
operation does to the world is a separate relation (`Sem`), so one text is
read under several semantics — with and without injected faults, run to its
end, or cut off by a crash after any number of operations.

* `Runs` is a complete run, together with the world after every operation;
* `Cuts` is a run stopped while operations are still to come;
* `Ensures` is the program logic: a postcondition on the result, and a
  two-state guarantee that every single operation meets. It is defined by
  recursion on the program, so a proof follows the program text, and
  `Ensures.runs` and `Ensures.cuts` turn it into a fact about every run and
  every crash point;
* `Calls` bounds the operations a program can perform at all, whatever they
  return. A frame condition needs no more than that;
* `Sem.logging` is a machine that also records what its operations did, for
  properties of a history that the world does not show any more.
-/

namespace Bbdb

/-- The operations of a machine, each with the type of its answer. -/
structure Sig where
  Op : Type
  Res : Op → Type

/-- A program: return a value, or perform an operation and go on. -/
inductive Prog (S : Sig) (α : Type) : Type
  | pure (a : α)
  | op (o : S.Op) (k : S.Res o → Prog S α)

namespace Prog

variable {S : Sig} {α β ε W : Type}

/-- Sequencing. -/
def bind : Prog S α → (α → Prog S β) → Prog S β
  | .pure a, f => f a
  | .op o k, f => .op o fun r => (k r).bind f

instance : Monad (Prog S) where
  pure := Prog.pure
  bind := Prog.bind

@[simp] theorem pure_bind (a : α) (f : α → Prog S β) : (Pure.pure a : Prog S α) >>= f = f a := rfl

@[simp] theorem op_bind (o : S.Op) (k : S.Res o → Prog S α) (f : α → Prog S β) :
    Prog.op o k >>= f = Prog.op o fun r => k r >>= f := rfl

theorem bind_assoc {γ : Type} (p : Prog S α) (f : α → Prog S β) (g : β → Prog S γ) :
    (p >>= f) >>= g = p >>= fun a => f a >>= g := by
  induction p with
  | pure a => rfl
  | op o k ih =>
      simp only [op_bind]
      congr 1
      funext r
      exact ih r

theorem bind_pure_self (p : Prog S α) : p >>= Pure.pure = p := by
  induction p with
  | pure a => rfl
  | op o k ih =>
      rw [op_bind]
      congr 1
      funext r
      exact ih r

instance instLawfulMonadProg : LawfulMonad (Prog S) :=
  LawfulMonad.mk' (Prog S) bind_pure_self (fun _ _ => rfl) bind_assoc

/-- One operation as a program. -/
def call (o : S.Op) : Prog S (S.Res o) := .op o .pure

/-- What an operation may do: the world before, its answer, the world after. -/
abbrev Sem (S : Sig) (W : Type) := (o : S.Op) → W → S.Res o → W → Prop

/-! ## Complete and interrupted runs -/

/-- A complete run of `p` from `w`: `ws` are the worlds after each of its
operations, `a` its result and `w'` the world it ends in. -/
def Runs (sem : Sem S W) : Prog S α → W → List W → α → W → Prop
  | .pure a, w, ws, a', w' => ws = [] ∧ a' = a ∧ w' = w
  | .op o k, w, ws, a', w' =>
      ∃ r w₁ ws', sem o w r w₁ ∧ ws = w₁ :: ws' ∧ Runs sem (k r) w₁ ws' a' w'

/-- A run of `p` from `w` that is cut off in `w'` before its last operation. -/
def Cuts (sem : Sem S W) : Prog S α → W → List W → W → Prop
  | .pure _, _, _, _ => False
  | .op o k, w, ws, w' =>
      (ws = [] ∧ w' = w) ∨
        ∃ r w₁ ws', sem o w r w₁ ∧ ws = w₁ :: ws' ∧ Cuts sem (k r) w₁ ws' w'

variable {sem : Sem S W}

@[simp] theorem runs_pure {a a' : α} {w w' : W} {ws : List W} :
    Runs sem (Pure.pure a : Prog S α) w ws a' w' ↔ ws = [] ∧ a' = a ∧ w' = w := Iff.rfl

theorem runs_call {o : S.Op} {w w' : W} {ws : List W} {r : S.Res o} :
    Runs sem (call o) w ws r w' ↔ sem o w r w' ∧ ws = [w'] := by
  constructor
  · rintro ⟨r', w₁, ws', h, rfl, rfl, rfl, rfl⟩
    exact ⟨h, rfl⟩
  · rintro ⟨h, rfl⟩
    exact ⟨r, w', [], h, rfl, rfl, rfl, rfl⟩

/-- A run of a sequence is a run of the first part, then of the second. -/
theorem runs_bind {p : Prog S α} {f : α → Prog S β} {w w'' : W} {ws : List W} {b : β} :
    Runs sem (p >>= f) w ws b w'' ↔
      ∃ a w' ws₁ ws₂, ws = ws₁ ++ ws₂ ∧ Runs sem p w ws₁ a w' ∧ Runs sem (f a) w' ws₂ b w'' := by
  induction p generalizing w ws with
  | pure a =>
      constructor
      · intro h
        exact ⟨a, w, [], ws, rfl, ⟨rfl, rfl, rfl⟩, h⟩
      · rintro ⟨a', w', ws₁, ws₂, rfl, ⟨rfl, rfl, rfl⟩, h⟩
        exact h
  | op o k ih =>
      constructor
      · rintro ⟨r, w₁, ws', hs, rfl, h⟩
        obtain ⟨a, w', ws₁, ws₂, rfl, h₁, h₂⟩ := (ih r).mp h
        exact ⟨a, w', w₁ :: ws₁, ws₂, rfl, ⟨r, w₁, ws₁, hs, rfl, h₁⟩, h₂⟩
      · rintro ⟨a, w', ws₁, ws₂, rfl, ⟨r, w₁, ws', hs, rfl, h₁⟩, h₂⟩
        exact ⟨r, w₁, ws' ++ ws₂, hs, rfl, (ih r).mpr ⟨a, w', ws', ws₂, rfl, h₁, h₂⟩⟩

/-- A sequence is cut in its first part, or after it in the second. -/
theorem cuts_bind {p : Prog S α} {f : α → Prog S β} {w w'' : W} {ws : List W} :
    Cuts sem (p >>= f) w ws w'' ↔
      Cuts sem p w ws w'' ∨
        ∃ a w' ws₁ ws₂, ws = ws₁ ++ ws₂ ∧ Runs sem p w ws₁ a w' ∧ Cuts sem (f a) w' ws₂ w'' := by
  induction p generalizing w ws with
  | pure a =>
      constructor
      · intro h
        exact Or.inr ⟨a, w, [], ws, rfl, ⟨rfl, rfl, rfl⟩, h⟩
      · rintro (h | ⟨a', w', ws₁, ws₂, rfl, ⟨rfl, rfl, rfl⟩, h⟩)
        · exact h.elim
        · exact h
  | op o k ih =>
      constructor
      · rintro (⟨rfl, rfl⟩ | ⟨r, w₁, ws', hs, rfl, h⟩)
        · exact Or.inl (Or.inl ⟨rfl, rfl⟩)
        · rcases (ih r).mp h with h | ⟨a, w', ws₁, ws₂, rfl, h₁, h₂⟩
          · exact Or.inl (Or.inr ⟨r, w₁, ws', hs, rfl, h⟩)
          · exact Or.inr ⟨a, w', w₁ :: ws₁, ws₂, rfl, ⟨r, w₁, ws₁, hs, rfl, h₁⟩, h₂⟩
      · rintro ((⟨rfl, rfl⟩ | ⟨r, w₁, ws', hs, rfl, h⟩)
          | ⟨a, w', ws₁, ws₂, rfl, ⟨r, w₁, ws', hs, rfl, h₁⟩, h₂⟩)
        · exact Or.inl ⟨rfl, rfl⟩
        · exact Or.inr ⟨r, w₁, ws', hs, rfl, (ih r).mpr (Or.inl h)⟩
        · exact Or.inr ⟨r, w₁, ws' ++ ws₂, hs, rfl,
            (ih r).mpr (Or.inr ⟨a, w', ws', ws₂, rfl, h₁, h₂⟩)⟩

/-- A run is one of every semantics that allows more. -/
theorem Runs.mono {sem' : Sem S W} (hsem : ∀ o w r w', sem o w r w' → sem' o w r w')
    {p : Prog S α} {w w' : W} {ws : List W} {a : α} (h : Runs sem p w ws a w') :
    Runs sem' p w ws a w' := by
  induction p generalizing w ws with
  | pure a => exact h
  | op o k ih =>
      obtain ⟨r, w₁, ws', hs, rfl, h⟩ := h
      exact ⟨r, w₁, ws', hsem o w r w₁ hs, rfl, ih r h⟩

/-- The world a run ends in is the last one it went through. -/
theorem Runs.getLast {p : Prog S α} {w w' : W} {ws : List W} {a : α}
    (h : Runs sem p w ws a w') : (w :: ws).getLast? = some w' := by
  induction p generalizing w ws with
  | pure a =>
      obtain ⟨rfl, rfl, rfl⟩ := h
      rfl
  | op o k ih =>
      obtain ⟨r, w₁, ws', -, rfl, h⟩ := h
      rw [List.getLast?_cons_cons]
      exact ih r h

theorem Cuts.getLast {p : Prog S α} {w w' : W} {ws : List W}
    (h : Cuts sem p w ws w') : (w :: ws).getLast? = some w' := by
  induction p generalizing w ws with
  | pure a => exact h.elim
  | op o k ih =>
      rcases h with ⟨rfl, rfl⟩ | ⟨r, w₁, ws', -, rfl, h⟩
      · rfl
      · rw [List.getLast?_cons_cons]
        exact ih r h

/-! ## The program logic -/

/-- Every operation of `p` from `w` meets the two-state guarantee `G`, and
every complete run ends with a result and a world that satisfy `Q`. -/
def Ensures (sem : Sem S W) (G : W → W → Prop) : Prog S α → (α → W → Prop) → W → Prop
  | .pure a, Q, w => Q a w
  | .op o k, Q, w => ∀ r w', sem o w r w' → G w w' ∧ Ensures sem G (k r) Q w'

variable {G : W → W → Prop}

theorem ensures_pure {a : α} {Q : α → W → Prop} {w : W} (h : Q a w) :
    Ensures sem G (Pure.pure a : Prog S α) Q w := h

theorem ensures_call {o : S.Op} {Q : S.Res o → W → Prop} {w : W}
    (h : ∀ r w', sem o w r w' → G w w' ∧ Q r w') : Ensures sem G (call o) Q w := h

theorem Ensures.mono {p : Prog S α} {Q Q' : α → W → Prop} {w : W}
    (h : Ensures sem G p Q w) (hQ : ∀ a w', Q a w' → Q' a w') : Ensures sem G p Q' w := by
  induction p generalizing w with
  | pure a => exact hQ a w h
  | op o k ih =>
      intro r w' hs
      obtain ⟨hg, hk⟩ := h r w' hs
      exact ⟨hg, ih r hk⟩

theorem Ensures.weaken {G' : W → W → Prop} {p : Prog S α} {Q : α → W → Prop} {w : W}
    (h : Ensures sem G p Q w) (hG : ∀ x y, G x y → G' x y) : Ensures sem G' p Q w := by
  induction p generalizing w with
  | pure a => exact h
  | op o k ih =>
      intro r w' hs
      obtain ⟨hg, hk⟩ := h r w' hs
      exact ⟨hG _ _ hg, ih r hk⟩

theorem ensures_bind {p : Prog S α} {f : α → Prog S β} {Q : β → W → Prop} {w : W}
    (h : Ensures sem G p (fun a w' => Ensures sem G (f a) Q w') w) :
    Ensures sem G (p >>= f) Q w := by
  induction p generalizing w with
  | pure a => exact h
  | op o k ih =>
      intro r w' hs
      obtain ⟨hg, hk⟩ := h r w' hs
      exact ⟨hg, ih r hk⟩

/-- Soundness on complete runs: consecutive worlds are related by the
guarantee, and the end satisfies the postcondition. -/
theorem Ensures.runs {p : Prog S α} {Q : α → W → Prop} {w w' : W} {ws : List W} {a : α}
    (h : Ensures sem G p Q w) (hr : Runs sem p w ws a w') :
    List.IsChain G (w :: ws) ∧ Q a w' := by
  induction p generalizing w ws with
  | pure a =>
      obtain ⟨rfl, rfl, rfl⟩ := hr
      exact ⟨List.isChain_singleton _, h⟩
  | op o k ih =>
      obtain ⟨r, w₁, ws', hs, rfl, hr⟩ := hr
      obtain ⟨hg, hk⟩ := h r w₁ hs
      obtain ⟨hc, hq⟩ := ih r hk hr
      exact ⟨List.isChain_cons_cons.mpr ⟨hg, hc⟩, hq⟩

/-- Soundness at every crash point. -/
theorem Ensures.cuts {p : Prog S α} {Q : α → W → Prop} {w w' : W} {ws : List W}
    (h : Ensures sem G p Q w) (hr : Cuts sem p w ws w') : List.IsChain G (w :: ws) := by
  induction p generalizing w ws with
  | pure a => exact hr.elim
  | op o k ih =>
      rcases hr with ⟨rfl, rfl⟩ | ⟨r, w₁, ws', hs, rfl, hr⟩
      · exact List.isChain_singleton _
      · obtain ⟨hg, hk⟩ := h r w₁ hs
        exact List.isChain_cons_cons.mpr ⟨hg, ih r hk hr⟩

/-- A reflexive and transitive guarantee relates the first world of a chain
to every later one. -/
theorem chain_forall (hrefl : ∀ w, G w w) (htrans : ∀ {a b c}, G a b → G b c → G a c)
    {w : W} {ws : List W} (h : List.IsChain G (w :: ws)) : ∀ x ∈ w :: ws, G w x := by
  induction ws generalizing w with
  | nil =>
      intro x hx
      obtain rfl := List.mem_singleton.mp hx
      exact hrefl _
  | cons w₁ ws ih =>
      obtain ⟨hg, hc⟩ := List.isChain_cons_cons.mp h
      intro x hx
      rcases List.mem_cons.mp hx with rfl | hx
      · exact hrefl _
      · exact htrans hg (ih hc x hx)

/-- What the guarantee adds up to holds between the start and the end. -/
theorem Ensures.strengthen {R : W → W → Prop} {p : Prog S α} {Q : α → W → Prop} {w : W}
    (h : Ensures sem G p Q w) (hR : ∀ x y, G x y → R x y) (hrefl : ∀ w, R w w)
    (htrans : ∀ {a b c}, R a b → R b c → R a c) :
    Ensures sem G p (fun a w' => Q a w' ∧ R w w') w := by
  induction p generalizing w with
  | pure a => exact ⟨h, hrefl w⟩
  | op o k ih =>
      intro r w' hs
      obtain ⟨hg, hk⟩ := h r w' hs
      exact ⟨hg, (ih r hk).mono fun a x hx => ⟨hx.1, htrans (hR _ _ hg) hx.2⟩⟩

/-- Two chains that meet in one world make one chain. -/
theorem chain_append {w w' : W} {ws ws' : List W} (h : List.IsChain G (w :: ws))
    (hlast : (w :: ws).getLast? = some w') (h' : List.IsChain G (w' :: ws')) :
    List.IsChain G (w :: (ws ++ ws')) := by
  induction ws generalizing w with
  | nil =>
      obtain rfl : w = w' := by simpa using hlast
      exact h'
  | cons x ws ih =>
      obtain ⟨hg, hc⟩ := List.isChain_cons_cons.mp h
      rw [List.getLast?_cons_cons] at hlast
      exact List.isChain_cons_cons.mpr ⟨hg, ih hc hlast⟩

/-- The second of two lists that meet in one world has the last word. -/
theorem getLast_append {w w' w'' : W} {ws ws' : List W} (h : (w :: ws).getLast? = some w')
    (h' : (w' :: ws').getLast? = some w'') : (w :: (ws ++ ws')).getLast? = some w'' := by
  cases ws' with
  | nil =>
      rw [List.append_nil, h]
      exact h'
  | cons x ws' =>
      rw [← List.cons_append, List.getLast?_append_cons, ← h', List.getLast?_cons_cons]

/-- A chain of steps that all start in worlds with `P` is a chain of what
such steps guarantee. -/
theorem chain_imp_of_mem {R : W → W → Prop} {P : W → Prop} {ws : List W}
    (h : List.IsChain R ws) (hP : ∀ x ∈ ws, P x) (hRG : ∀ x y, P x → R x y → G x y) :
    List.IsChain G ws := by
  induction ws with
  | nil => exact List.isChain_nil
  | cons x ws ih =>
      cases ws with
      | nil => exact List.isChain_singleton _
      | cons y ws =>
          obtain ⟨hr, hc⟩ := List.isChain_cons_cons.mp h
          refine List.isChain_cons_cons.mpr ⟨hRG x y (hP x List.mem_cons_self) hr, ?_⟩
          exact ih hc fun z hz => hP z (List.mem_cons_of_mem _ hz)

/-! ## Bounding the operations of a program -/

/-- Every operation `p` can perform satisfies `P`, whatever the earlier
operations answered. -/
def Calls (P : S.Op → Prop) : Prog S α → Prop
  | .pure _ => True
  | .op o k => P o ∧ ∀ r, Calls P (k r)

variable {P : S.Op → Prop}

@[simp] theorem calls_pure (a : α) : Calls P (Pure.pure a : Prog S α) := trivial

@[simp] theorem calls_call {o : S.Op} : Calls P (call o) ↔ P o :=
  ⟨fun h => h.1, fun h => ⟨h, fun _ => trivial⟩⟩

theorem calls_bind {p : Prog S α} {f : α → Prog S β} (hp : Calls P p) (hf : ∀ a, Calls P (f a)) :
    Calls P (p >>= f) := by
  induction p with
  | pure a => exact hf a
  | op o k ih => exact ⟨hp.1, fun r => ih r (hp.2 r)⟩

theorem Calls.mono {P' : S.Op → Prop} {p : Prog S α} (h : Calls P p) (hP : ∀ o, P o → P' o) :
    Calls P' p := by
  induction p with
  | pure a => trivial
  | op o k ih => exact ⟨hP o h.1, fun r => ih r (h.2 r)⟩

/-- A guarantee every permitted operation meets is met by the program. -/
theorem Calls.ensures {p : Prog S α} (h : Calls P p)
    (hop : ∀ o w r w', P o → sem o w r w' → G w w') (w : W) :
    Ensures sem G p (fun _ _ => True) w := by
  induction p generalizing w with
  | pure a => trivial
  | op o k ih =>
      intro r w' hs
      exact ⟨hop o w r w' h.1 hs, ih r (h.2 r) w'⟩

/-- **The rule for frames**: what every permitted operation keeps, the program
keeps. -/
theorem Calls.runs {p : Prog S α} (h : Calls P p) (hrefl : ∀ w, G w w)
    (htrans : ∀ {a b c}, G a b → G b c → G a c) (hop : ∀ o w r w', P o → sem o w r w' → G w w')
    {w w' : W} {ws : List W} {a : α} (hr : Runs sem p w ws a w') : G w w' :=
  chain_forall hrefl htrans ((h.ensures hop w).runs hr).1 w' (List.mem_of_getLast? hr.getLast)

/-! ## Programs that can fail

`ExceptT ε (Prog S)` is the text of a function that returns an error. -/

/-- A failing program's sequence, as a run: the first part failed, or it
returned a value and the rest ran. -/
theorem runs_bindE {p : ExceptT ε (Prog S) α} {f : α → ExceptT ε (Prog S) β} {w w'' : W}
    {ws : List W} {b : Except ε β} :
    Runs sem (p >>= f).run w ws b w'' ↔
      (∃ e, b = .error e ∧ Runs sem p.run w ws (.error e) w'') ∨
        ∃ a w' ws₁ ws₂, ws = ws₁ ++ ws₂ ∧ Runs sem p.run w ws₁ (.ok a) w' ∧
          Runs sem (f a).run w' ws₂ b w'' := by
  rw [ExceptT.run_bind, runs_bind]
  constructor
  · rintro ⟨r, w', ws₁, ws₂, rfl, hp, hf⟩
    cases r with
    | ok a => exact Or.inr ⟨a, w', ws₁, ws₂, rfl, hp, hf⟩
    | error e =>
        obtain ⟨rfl, rfl, rfl⟩ := hf
        exact Or.inl ⟨e, rfl, by simpa using hp⟩
  · rintro (⟨e, rfl, hp⟩ | ⟨a, w', ws₁, ws₂, rfl, hp, hf⟩)
    · exact ⟨.error e, w'', ws, [], by simp, hp, rfl, rfl, rfl⟩
    · exact ⟨.ok a, w', ws₁, ws₂, rfl, hp, hf⟩

/-- A failing program's sequence succeeds exactly when both parts do. -/
theorem runs_bindE_ok {p : ExceptT ε (Prog S) α} {f : α → ExceptT ε (Prog S) β} {w w'' : W}
    {ws : List W} {b : β} :
    Runs sem (p >>= f).run w ws (.ok b) w'' ↔
      ∃ a w' ws₁ ws₂, ws = ws₁ ++ ws₂ ∧ Runs sem p.run w ws₁ (.ok a) w' ∧
        Runs sem (f a).run w' ws₂ (.ok b) w'' := by
  rw [runs_bindE]
  constructor
  · rintro (⟨e, he, -⟩ | h)
    · cases he
    · exact h
  · exact Or.inr

theorem cuts_bindE {p : ExceptT ε (Prog S) α} {f : α → ExceptT ε (Prog S) β} {w w'' : W}
    {ws : List W} :
    Cuts sem (p >>= f).run w ws w'' ↔
      Cuts sem p.run w ws w'' ∨
        ∃ a w' ws₁ ws₂, ws = ws₁ ++ ws₂ ∧ Runs sem p.run w ws₁ (.ok a) w' ∧
          Cuts sem (f a).run w' ws₂ w'' := by
  rw [ExceptT.run_bind, cuts_bind]
  constructor
  · rintro (h | ⟨r, w', ws₁, ws₂, rfl, hp, hf⟩)
    · exact Or.inl h
    · cases r with
      | ok a => exact Or.inr ⟨a, w', ws₁, ws₂, rfl, hp, hf⟩
      | error e => exact hf.elim
  · rintro (h | ⟨a, w', ws₁, ws₂, rfl, hp, hf⟩)
    · exact Or.inl h
    · exact Or.inr ⟨.ok a, w', ws₁, ws₂, rfl, hp, hf⟩

theorem calls_bindE {p : ExceptT ε (Prog S) α} {f : α → ExceptT ε (Prog S) β}
    (hp : Calls P p.run) (hf : ∀ a, Calls P (f a).run) : Calls P (p >>= f).run := by
  rw [ExceptT.run_bind]
  refine calls_bind hp fun r => ?_
  cases r with
  | ok a => exact hf a
  | error e => exact calls_pure _

/-- A postcondition given by cases on the result. -/
def OnResult (f : α → W → Prop) (g : ε → W → Prop) : Except ε α → W → Prop
  | .ok a, w => f a w
  | .error e, w => g e w

theorem ensures_bindE {p : ExceptT ε (Prog S) α} {f : α → ExceptT ε (Prog S) β}
    {Q : Except ε β → W → Prop} {w : W}
    (h : Ensures sem G p.run
      (OnResult (fun a => Ensures sem G (f a).run Q) fun e => Q (.error e)) w) :
    Ensures sem G (p >>= f).run Q w := by
  rw [ExceptT.run_bind]
  refine ensures_bind (h.mono ?_)
  intro r w' hr
  cases r with
  | ok a => exact hr
  | error e => exact hr

/-- A guarantee of two functions is one of the two in a row. -/
theorem ensures_seqE {f : ExceptT ε (Prog S) α} {g : α → ExceptT ε (Prog S) β} {w : W}
    (hf : Ensures sem G f.run (fun _ _ => True) w)
    (hg : ∀ a w', Ensures sem G (g a).run (fun _ _ => True) w') :
    Ensures sem G (f >>= g).run (fun _ _ => True) w := by
  refine ensures_bindE (hf.mono fun r w' _ => ?_)
  cases r with
  | error e => trivial
  | ok a => exact hg a w'

/-! ## Programs that do not succeed -/

/-- The program does not get to its end: it returns an error, or is cut off. -/
def Stops (sem : Sem S W) (p : ExceptT ε (Prog S) α) (w w' : W) : Prop :=
  (∃ ws, Cuts sem p.run w ws w') ∨ ∃ ws e, Runs sem p.run w ws (.error e) w'

/-- A sequence stops in its first part, or in the rest. -/
theorem stops_bindE {p : ExceptT ε (Prog S) α} {f : α → ExceptT ε (Prog S) β} {w w'' : W} :
    Stops sem (p >>= f) w w'' ↔
      Stops sem p w w'' ∨ ∃ a w' ws, Runs sem p.run w ws (.ok a) w' ∧ Stops sem (f a) w' w'' := by
  constructor
  · rintro (⟨ws, hcut⟩ | ⟨ws, e, hrun⟩)
    · rcases cuts_bindE.mp hcut with hp | ⟨a, w', ws₁, ws₂, -, hp, hf⟩
      · exact Or.inl (Or.inl ⟨ws, hp⟩)
      · exact Or.inr ⟨a, w', ws₁, hp, Or.inl ⟨ws₂, hf⟩⟩
    · rcases runs_bindE.mp hrun with ⟨e', -, hp⟩ | ⟨a, w', ws₁, ws₂, -, hp, hf⟩
      · exact Or.inl (Or.inr ⟨ws, e', hp⟩)
      · exact Or.inr ⟨a, w', ws₁, hp, Or.inr ⟨ws₂, e, hf⟩⟩
  · rintro ((⟨ws, hp⟩ | ⟨ws, e, hp⟩) | ⟨a, w', ws₁, hp, ⟨ws₂, hf⟩ | ⟨ws₂, e, hf⟩⟩)
    · exact Or.inl ⟨ws, cuts_bindE.mpr (Or.inl hp)⟩
    · exact Or.inr ⟨ws, e, runs_bindE.mpr (Or.inl ⟨e, rfl, hp⟩)⟩
    · exact Or.inl ⟨ws₁ ++ ws₂, cuts_bindE.mpr (Or.inr ⟨a, w', ws₁, ws₂, rfl, hp, hf⟩)⟩
    · exact Or.inr ⟨ws₁ ++ ws₂, e, runs_bindE.mpr (Or.inr ⟨a, w', ws₁, ws₂, rfl, hp, hf⟩)⟩

/-- A reflexive and transitive guarantee relates the start to where a program
stops. -/
theorem Ensures.stops (hrefl : ∀ w, G w w) (htrans : ∀ {a b c}, G a b → G b c → G a c)
    {p : ExceptT ε (Prog S) α} {Q : Except ε α → W → Prop} {w w' : W}
    (h : Ensures sem G p.run Q w) (hs : Stops sem p w w') : G w w' := by
  rcases hs with ⟨ws, hcut⟩ | ⟨ws, e, hrun⟩
  · exact chain_forall hrefl htrans (h.cuts hcut) w' (List.mem_of_getLast? hcut.getLast)
  · exact chain_forall hrefl htrans (h.runs hrun).1 w' (List.mem_of_getLast? hrun.getLast)

/-! ## Deterministic execution -/

/-- Run a program under a function that performs each operation. -/
def exec (step : (o : S.Op) → W → S.Res o × W) : Prog S α → W → α × W
  | .pure a, w => (a, w)
  | .op o k, w => exec step (k (step o w).1) (step o w).2

variable {step : (o : S.Op) → W → S.Res o × W}

@[simp] theorem exec_pure (a : α) (w : W) : exec step (Pure.pure a : Prog S α) w = (a, w) := rfl

@[simp] theorem exec_call (o : S.Op) (w : W) : exec step (call o) w = step o w := rfl

@[simp] theorem exec_bind (p : Prog S α) (f : α → Prog S β) (w : W) :
    exec step (p >>= f) w = exec step (f (exec step p w).1) (exec step p w).2 := by
  induction p generalizing w with
  | pure a => rfl
  | op o k ih => exact ih _ _

/-- A sequence goes on with what its first part returned. -/
theorem exec_bind_of {p : Prog S α} {f : α → Prog S β} {a : α} {w w' : W}
    (h : exec step p w = (a, w')) : exec step (p >>= f) w = exec step (f a) w' := by
  rw [exec_bind, h]

theorem exec_bindE_of {ε : Type} {p : ExceptT ε (Prog S) α} {f : α → ExceptT ε (Prog S) β} {a : α}
    {w w' : W} (h : exec step p.run w = (.ok a, w')) :
    exec step (p >>= f).run w = exec step (f a).run w' := by
  rw [ExceptT.run_bind, exec_bind, h]

/-- The worlds a deterministic execution goes through. -/
def trace (step : (o : S.Op) → W → S.Res o × W) : Prog S α → W → List W
  | .pure _, _ => []
  | .op o k, w => (step o w).2 :: trace step (k (step o w).1) (step o w).2

/-- A deterministic execution is a run of every semantics that allows its
steps. -/
theorem runs_exec (h : ∀ o w, sem o w (step o w).1 (step o w).2) (p : Prog S α) (w : W) :
    Runs sem p w (trace step p w) (exec step p w).1 (exec step p w).2 := by
  induction p generalizing w with
  | pure a => exact ⟨rfl, rfl, rfl⟩
  | op o k ih => exact ⟨(step o w).1, (step o w).2, _, h o w, rfl, ih _ _⟩

/-! ## A record of what the operations did -/

section Logging

variable {L : Type} {entries : (o : S.Op) → S.Res o → List L}

/-- The machine that also keeps a log: an operation adds to it what it did, as
its answer tells. -/
def Sem.logging (sem : Sem S W) (entries : (o : S.Op) → S.Res o → List L) : Sem S (W × List L) :=
  fun o x r y => sem o x.1 r y.1 ∧ y.2 = x.2 ++ entries o r

/-- A run with a log is a run. -/
theorem Runs.unlogged {p : Prog S α} {x y : W × List L} {ws : List (W × List L)} {a : α}
    (h : Runs (sem.logging entries) p x ws a y) : Runs sem p x.1 (ws.map Prod.fst) a y.1 := by
  induction p generalizing x ws with
  | pure b =>
      obtain ⟨rfl, rfl, rfl⟩ := h
      exact ⟨rfl, rfl, rfl⟩
  | op o k ih =>
      obtain ⟨r, x₁, ws', hs, rfl, h⟩ := h
      exact ⟨r, x₁.1, ws'.map Prod.fst, hs.1, rfl, ih r h⟩

theorem Cuts.unlogged {p : Prog S α} {x y : W × List L} {ws : List (W × List L)}
    (h : Cuts (sem.logging entries) p x ws y) : Cuts sem p x.1 (ws.map Prod.fst) y.1 := by
  induction p generalizing x ws with
  | pure b => exact h.elim
  | op o k ih =>
      rcases h with ⟨rfl, rfl⟩ | ⟨r, x₁, ws', hs, rfl, h⟩
      · exact Or.inl ⟨rfl, rfl⟩
      · exact Or.inr ⟨r, x₁.1, ws'.map Prod.fst, hs.1, rfl, ih r h⟩

/-- A log only grows. -/
theorem Runs.log_prefix {p : Prog S α} {x y : W × List L} {ws : List (W × List L)} {a : α}
    (h : Runs (sem.logging entries) p x ws a y) : x.2 <+: y.2 := by
  induction p generalizing x ws with
  | pure b =>
      obtain ⟨-, -, rfl⟩ := h
      exact List.prefix_refl _
  | op o k ih =>
      obtain ⟨r, x₁, ws', hs, -, h⟩ := h
      exact (hs.2 ▸ List.prefix_append x.2 _ : x.2 <+: x₁.2).trans (ih r h)

theorem Cuts.log_prefix {p : Prog S α} {x y : W × List L} {ws : List (W × List L)}
    (h : Cuts (sem.logging entries) p x ws y) : x.2 <+: y.2 := by
  induction p generalizing x ws with
  | pure b => exact h.elim
  | op o k ih =>
      rcases h with ⟨-, rfl⟩ | ⟨r, x₁, ws', hs, -, h⟩
      · exact List.prefix_refl _
      · exact (hs.2 ▸ List.prefix_append x.2 _ : x.2 <+: x₁.2).trans (ih r h)

/-- Every run can be recorded. -/
theorem Runs.logged (entries : (o : S.Op) → S.Res o → List L) {p : Prog S α} {w w' : W}
    {ws : List W} {a : α} (h : Runs sem p w ws a w') (log : List L) :
    ∃ ws' log', Runs (sem.logging entries) p (w, log) ws' a (w', log') := by
  induction p generalizing w ws log with
  | pure b =>
      obtain ⟨rfl, rfl, rfl⟩ := h
      exact ⟨[], log, rfl, rfl, rfl⟩
  | op o k ih =>
      obtain ⟨r, w₁, ws', hs, rfl, h⟩ := h
      obtain ⟨ws'', log', h'⟩ := ih r h (log ++ entries o r)
      exact ⟨_, log', r, (w₁, log ++ entries o r), ws'', ⟨hs, rfl⟩, rfl, h'⟩

/-- A guarantee that does not look at the log holds without it. -/
theorem Ensures.unlogged (log : List L) {p : Prog S α} {Q : α → W → Prop} {w : W}
    (h : Ensures (sem.logging entries) (fun x y => G x.1 y.1) p (fun a y => Q a y.1) (w, log)) :
    Ensures sem G p Q w := by
  induction p generalizing w log with
  | pure a => exact h
  | op o k ih =>
      intro r w' hs
      obtain ⟨hg, hk⟩ := h r (w', log ++ entries o r) ⟨hs, rfl⟩
      exact ⟨hg, ih r _ hk⟩

end Logging

end Prog

end Bbdb
