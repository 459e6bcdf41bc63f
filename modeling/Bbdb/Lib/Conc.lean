import Bbdb.Lib.Prog

/-!
# Programs that run side by side

Several programs share one world and take their operations in any order.
`Follows` is the program logic for one of them: before each of its operations
the others may have moved the world by the rely `R`, and each of its own
operations meets the guarantee `G`. If what every program guarantees is
relied on by the others, all of them can be put together: `Pair` is two
programs of which the second's result is wanted, `Pool` any number of
programs that come and go.
-/

namespace Bbdb.Prog

variable {S : Sig} {W α β : Type}

/-! ## One program among others -/

/-- What the others may do: nothing, or one thing after another. -/
structure Rely (R : W → W → Prop) : Prop where
  refl : ∀ w, R w w
  trans : ∀ {a b c}, R a b → R b c → R a c

/-- From `w`, with moves of others by `R` before each operation, every
operation of `p` meets `G`, and every complete run ends with a result and a
world that satisfy `Q`. -/
def Follows (sem : Sem S W) (R G : W → W → Prop) : Prog S α → (α → W → Prop) → W → Prop
  | .pure a, Q, w => ∀ w', R w w' → Q a w'
  | .op o k, Q, w => ∀ w', R w w' → ∀ r w'', sem o w' r w'' →
      G w' w'' ∧ Follows sem R G (k r) Q w''

variable {sem : Sem S W} {R G : W → W → Prop} {Q Q' : α → W → Prop} {w w' : W}

theorem follows_pure {a : α} (h : ∀ w', R w w' → Q a w') :
    Follows sem R G (Pure.pure a : Prog S α) Q w := h

theorem follows_call {o : S.Op} {Q : S.Res o → W → Prop}
    (h : ∀ w', R w w' → ∀ r w'', sem o w' r w'' → G w' w'' ∧ ∀ x, R w'' x → Q r x) :
    Follows sem R G (call o) Q w := h

theorem Follows.mono {p : Prog S α} (h : Follows sem R G p Q w)
    (hQ : ∀ a w', Q a w' → Q' a w') : Follows sem R G p Q' w := by
  induction p generalizing w with
  | pure a => exact fun w' hw => hQ a w' (h w' hw)
  | op o k ih =>
      intro w' hw r w'' hs
      obtain ⟨hg, hk⟩ := h w' hw r w'' hs
      exact ⟨hg, ih r hk⟩

/-- To rely on more and to guarantee less. -/
theorem Follows.weaken {R' G' : W → W → Prop} {p : Prog S α} (h : Follows sem R G p Q w)
    (hR : ∀ {x y}, R' x y → R x y) (hG : ∀ {x y}, G x y → G' x y) : Follows sem R' G' p Q w := by
  induction p generalizing w with
  | pure a => exact fun w' hw => h w' (hR hw)
  | op o k ih =>
      intro w' hw r w'' hs
      obtain ⟨hg, hk⟩ := h w' (hR hw) r w'' hs
      exact ⟨hG hg, ih r hk⟩

/-- Two guarantees at once. -/
theorem Follows.and {G' : W → W → Prop} {p : Prog S α} (h : Follows sem R G p Q w)
    (h' : Follows sem R G' p Q' w) :
    Follows sem R (fun x y => G x y ∧ G' x y) p (fun a x => Q a x ∧ Q' a x) w := by
  induction p generalizing w with
  | pure a => exact fun w' hw => ⟨h w' hw, h' w' hw⟩
  | op o k ih =>
      intro w' hw r w'' hs
      obtain ⟨hg, hk⟩ := h w' hw r w'' hs
      obtain ⟨hg', hk'⟩ := h' w' hw r w'' hs
      exact ⟨⟨hg, hg'⟩, ih r hk hk'⟩

/-- A family of guarantees at once. -/
theorem Follows.all {κ : Type} {P : κ → Prop} {GK : κ → W → W → Prop} {p : Prog S α}
    (h : ∀ i, P i → Follows sem R (GK i) p (fun _ _ => True) w) :
    Follows sem R (fun x y => ∀ i, P i → GK i x y) p (fun _ _ => True) w := by
  induction p generalizing w with
  | pure a => exact fun _ _ => trivial
  | op o k ih =>
      intro w' hw r w'' hs
      exact ⟨fun i hi => (h i hi w' hw r w'' hs).1, ih r fun i hi => (h i hi w' hw r w'' hs).2⟩

/-- What holds now holds after moves of the others. -/
theorem Follows.env {p : Prog S α} (hR : Rely R) (h : Follows sem R G p Q w)
    (hw : R w w') : Follows sem R G p Q w' := by
  cases p with
  | pure a => exact fun x hx => h x (hR.trans hw hx)
  | op o k => exact fun x hx => h x (hR.trans hw hx)

/-- Where its own operations are moves the others could make, the program as
a whole is one. -/
theorem Follows.moves {p : Prog S α} (hR : Rely R) (hG : ∀ {x y}, G x y → R x y)
    (h : Follows sem R G p Q w) : Follows sem R G p (fun a w' => Q a w' ∧ R w w') w := by
  suffices hall : ∀ w₀, R w₀ w → Follows sem R G p (fun a w' => Q a w' ∧ R w₀ w') w from
    hall w (hR.refl w)
  induction p generalizing w with
  | pure a => exact fun w₀ h₀ w' hw => ⟨h w' hw, hR.trans h₀ hw⟩
  | op o k ih =>
      intro w₀ h₀ w' hw r w'' hs
      obtain ⟨hg, hk⟩ := h w' hw r w'' hs
      exact ⟨hg, ih r hk w₀ (hR.trans (hR.trans h₀ hw) (hG hg))⟩

theorem follows_bind {p : Prog S α} {f : α → Prog S β} {Q : β → W → Prop} (hR : Rely R)
    (h : Follows sem R G p (fun a w' => Follows sem R G (f a) Q w') w) :
    Follows sem R G (p >>= f) Q w := by
  induction p generalizing w with
  | pure a => exact h w (hR.refl w)
  | op o k ih =>
      intro w' hw r w'' hs
      obtain ⟨hg, hk⟩ := h w' hw r w'' hs
      exact ⟨hg, ih r hk⟩

theorem follows_bindE {ε : Type} {p : ExceptT ε (Prog S) α} {f : α → ExceptT ε (Prog S) β}
    {Q : Except ε β → W → Prop} (hR : Rely R)
    (h : Follows sem R G p.run
      (OnResult (fun a => Follows sem R G (f a).run Q) fun e w' => ∀ x, R w' x → Q (.error e) x) w) :
    Follows sem R G (p >>= f).run Q w := by
  rw [ExceptT.run_bind]
  refine follows_bind hR (h.mono fun r w' hr => ?_)
  cases r with
  | ok a => exact hr
  | error e => exact hr

/-- A program that only performs operations from `P`, under an invariant that
the others keep. -/
theorem Calls.follows {P : S.Op → Prop} {I : W → Prop} {p : Prog S α} (hp : Calls P p)
    (hI : ∀ {x y}, I x → R x y → I y)
    (hop : ∀ o x r y, P o → I x → sem o x r y → G x y ∧ I y) (hw : I w) :
    Follows sem R G p (fun _ => I) w := by
  induction p generalizing w with
  | pure a => exact fun w' h => hI hw h
  | op o k ih =>
      intro w' h r w'' hs
      obtain ⟨hg, hi⟩ := hop o w' r w'' hp.1 (hI hw h) hs
      exact ⟨hg, ih r (hp.2 r) hi⟩

/-- Alone in the world, a program that only performs operations from `P`
keeps an invariant and ends as one of its runs. -/
theorem Calls.follows_alone {P : S.Op → Prop} {I : W → Prop} {p : Prog S α} (hp : Calls P p)
    (hop : ∀ o x r y, P o → I x → sem o x r y → G x y ∧ I y) (hw : I w) :
    Follows sem Eq G p (fun a y => (∃ ws, Runs sem p w ws a y) ∧ I y) w := by
  induction p generalizing w with
  | pure a =>
      rintro y rfl
      exact ⟨⟨[], rfl, rfl, rfl⟩, hw⟩
  | op o k ih =>
      rintro x rfl r y hs
      obtain ⟨hg, hy⟩ := hop o w r y hp.1 hw hs
      refine ⟨hg, (ih r (hp.2 r) hy).mono fun a z hz => ?_⟩
      obtain ⟨⟨ws, hrun⟩, hz⟩ := hz
      exact ⟨⟨y :: ws, r, y, ws, hs, rfl, hrun⟩, hz⟩

/-- Alone in the world, a program follows what its runs do. -/
theorem Follows.runs {p : Prog S α} {ws : List W} {a : α} (hR : Rely R)
    (h : Follows sem R G p Q w) (hr : Runs sem p w ws a w') : Q a w' := by
  induction p generalizing w ws with
  | pure b =>
      obtain ⟨-, rfl, rfl⟩ := hr
      exact h _ (hR.refl _)
  | op o k ih =>
      obtain ⟨r, w₁, ws', hs, -, hr⟩ := hr
      exact ih r (h w (hR.refl w) r w₁ hs).2 hr

/-- A program that is alone, in the logic of single programs. -/
theorem Follows.ensures {p : Prog S α} (h : Follows sem Eq G p Q w) : Ensures sem G p Q w := by
  induction p generalizing w with
  | pure a => exact h w rfl
  | op o k ih =>
      intro r w' hs
      obtain ⟨hg, hk⟩ := h w rfl r w' hs
      exact ⟨hg, ih r hk⟩

/-! ## One look at the world -/

/-- A program with at most one operation. -/
def Single : Prog S α → Prop
  | .pure _ => True
  | .op _ k => ∀ r, ∃ a, k r = .pure a

theorem Single.map {p : Prog S α} (hp : Single p) {f : α → Prog S β}
    (hf : ∀ a, ∃ b, f a = .pure b) : Single (p >>= f) := by
  cases p with
  | pure a =>
      obtain ⟨b, hb⟩ := hf a
      show Single (f a)
      rw [hb]
      trivial
  | op o k =>
      intro r
      obtain ⟨a, ha⟩ := hp r
      obtain ⟨b, hb⟩ := hf a
      refine ⟨b, ?_⟩
      show k r >>= f = _
      rw [ha]
      exact hb

/-- A program that looks at the world once and changes nothing returns what
it would return alone at that moment. -/
theorem Single.follows {step : (o : S.Op) → W → S.Res o × W} {p : Prog S α} (hp : Single p)
    (hR : Rely R) (hsem : ∀ {o x r y}, sem o x r y → (r, y) = step o x)
    (hsame : ∀ x, (exec step p x).2 = x)
    (h : ∀ x, R w x → ∀ y, R x y → Q (exec step p x).1 y) : Follows sem R Eq p Q w := by
  cases p with
  | pure a => exact fun y hy => h y hy y (hR.refl y)
  | op o k =>
      intro x hx r y hs
      obtain ⟨a, ha⟩ := hp r
      have hstep := hsem hs
      have hexec : exec step (.op o k) x = (a, y) := by
        rw [exec, ← hstep]
        show exec step (k r) y = _
        rw [ha]
        rfl
      have hxy := hsame x
      rw [hexec] at hxy
      refine ⟨hxy.symm, ?_⟩
      rw [ha]
      intro z hz
      have hq := h x hx z (hxy ▸ hz)
      rwa [hexec] at hq

/-- The same with operations that can fail: what holds after its run at one
moment. -/
theorem Single.follows_runs {p : Prog S α} (hp : Single p) (hR : Rely R)
    (h : ∀ x, R w x → ∀ ws a y, Runs sem p x ws a y → (x = y ∨ G x y) ∧ ∀ z, R y z → Q a z)
    (hG : ∀ x, G x x) : Follows sem R G p Q w := by
  cases p with
  | pure a => exact fun y hy => (h y hy [] a y ⟨rfl, rfl, rfl⟩).2 y (hR.refl y)
  | op o k =>
      intro x hx r y hs
      obtain ⟨a, ha⟩ := hp r
      obtain ⟨hg, hq⟩ := h x hx [y] a y ⟨r, y, [], hs, rfl, by rw [ha]; exact ⟨rfl, rfl, rfl⟩⟩
      refine ⟨?_, by rw [ha]; exact hq⟩
      rcases hg with rfl | hg
      · exact hG x
      · exact hg

/-! ## Two programs -/

/-- A world and what is left of two programs in it. -/
structure Pair (S : Sig) (W α β : Type) where
  world : W
  left : Prog S α
  right : Prog S β

/-- One operation of either program. -/
inductive Pair.Step (semL semR : Sem S W) : Pair S W α β → Pair S W α β → Prop
  | left {w w' : W} {o : S.Op} {k : S.Res o → Prog S α} {q : Prog S β} {r : S.Res o} :
      semL o w r w' → Pair.Step semL semR ⟨w, .op o k, q⟩ ⟨w', k r, q⟩
  | right {w w' : W} {p : Prog S α} {o : S.Op} {k : S.Res o → Prog S β} {r : S.Res o} :
      semR o w r w' → Pair.Step semL semR ⟨w, p, .op o k⟩ ⟨w', p, k r⟩

/-- Any interleaving of the two, as far as it has come. -/
abbrev Pair.Reach (semL semR : Sem S W) : Pair S W α β → Pair S W α β → Prop :=
  Relation.ReflTransGen (Pair.Step semL semR)

section Pair

variable {semL semR : Sem S W} {relyL guarL relyR guarR : W → W → Prop} {QL : α → W → Prop}
  {QR : β → W → Prop} {c c' : Pair S W α β}

/-- Both programs are where their logic says. -/
structure Pair.Follow (semL semR : Sem S W) (relyL guarL relyR guarR : W → W → Prop)
    (QL : α → W → Prop)
    (QR : β → W → Prop) (c : Pair S W α β) : Prop where
  left : Follows semL relyL guarL c.left QL c.world
  right : Follows semR relyR guarR c.right QR c.world

variable (hLR : ∀ {x y}, guarL x y → relyR x y) (hRL : ∀ {x y}, guarR x y → relyL x y)
  (hRelyL : Rely relyL) (hRelyR : Rely relyR)

include hLR hRL hRelyL hRelyR

theorem Pair.Follow.step (h : c.Follow semL semR relyL guarL relyR guarR QL QR)
    (hs : Pair.Step semL semR c c') : c'.Follow semL semR relyL guarL relyR guarR QL QR := by
  cases hs with
  | left hop =>
      obtain ⟨hg, hk⟩ := h.left _ (hRelyL.refl _) _ _ hop
      exact ⟨hk, h.right.env hRelyR (hLR hg)⟩
  | right hop =>
      obtain ⟨hg, hk⟩ := h.right _ (hRelyR.refl _) _ _ hop
      exact ⟨h.left.env hRelyL (hRL hg), hk⟩

/-- **Guarantees that are relied on hold in every interleaving.** -/
theorem Pair.Follow.reach (h : c.Follow semL semR relyL guarL relyR guarR QL QR)
    (hr : Pair.Reach semL semR c c') : c'.Follow semL semR relyL guarL relyR guarR QL QR := by
  induction hr with
  | refl => exact h
  | tail _ hs ih => exact ih.step hLR hRL hRelyL hRelyR hs

/-- What both guarantee, a whole interleaving does. -/
theorem Pair.Follow.moves {K : W → W → Prop} (hK : Rely K) (hL : ∀ {x y}, guarL x y → K x y)
    (hR : ∀ {x y}, guarR x y → K x y) (h : c.Follow semL semR relyL guarL relyR guarR QL QR)
    (hr : Pair.Reach semL semR c c') : K c.world c'.world := by
  induction hr with
  | refl => exact hK.refl _
  | tail hr hs ih =>
      have hmid := h.reach hLR hRL hRelyL hRelyR hr
      refine hK.trans ih ?_
      cases hs with
      | left hop => exact hL (hmid.left _ (hRelyL.refl _) _ _ hop).1
      | right hop => exact hR (hmid.right _ (hRelyR.refl _) _ _ hop).1

/-- What the second program returns. -/
theorem Pair.Follow.result {b : β} (h : c.Follow semL semR relyL guarL relyR guarR QL QR)
    (hr : Pair.Reach semL semR c c') (hb : c'.right = .pure b) : QR b c'.world := by
  have hfollow := (h.reach hLR hRL hRelyL hRelyR hr).right
  rw [hb] at hfollow
  exact hfollow _ (hRelyR.refl _)

end Pair

/-- The first program alone. -/
theorem Pair.reach_left {semL semR : Sem S W} {p : Prog S α} {q : Prog S β} {ws : List W} {a : α}
    (h : Runs semL p w ws a w') : Pair.Reach semL semR ⟨w, p, q⟩ ⟨w', .pure a, q⟩ := by
  induction p generalizing w ws with
  | pure b =>
      obtain ⟨-, rfl, rfl⟩ := h
      exact .refl
  | op o k ih =>
      obtain ⟨r, w₁, ws', hs, -, h⟩ := h
      exact .head (.left hs) (ih r h)

/-- The second program alone. -/
theorem Pair.reach_right {semL semR : Sem S W} {p : Prog S α} {q : Prog S β} {ws : List W} {b : β}
    (h : Runs semR q w ws b w') : Pair.Reach semL semR ⟨w, p, q⟩ ⟨w', p, .pure b⟩ := by
  induction q generalizing w ws with
  | pure b =>
      obtain ⟨-, rfl, rfl⟩ := h
      exact .refl
  | op o k ih =>
      obtain ⟨r, w₁, ws', hs, -, h⟩ := h
      exact .head (.right hs) (ih r h)

/-! ## Any number of programs -/

/-- A program whose result nobody waits for. -/
def void (p : Prog S α) : Prog S Unit := p >>= fun _ => Pure.pure ()

theorem Follows.void {p : Prog S α} (hR : Rely R) (h : Follows sem R G p Q w) :
    Follows sem R G p.void (fun _ _ => True) w :=
  follows_bind hR (h.mono fun _ _ _ => follows_pure fun _ _ => trivial)

/-- A world and what is left of the programs that run in it. Each program has
a name and is started once. -/
structure Pool (S : Sig) (W ι : Type) where
  world : W
  running : List (ι × Prog S Unit)
  started : List ι

/-- One operation of a program, the start of one, a move of the surroundings,
or a crash that ends them all. -/
inductive Pool.Step {ι : Type} (sem : Sem S W) (text : ι → Prog S Unit) (Env Crash : W → W → Prop) :
    Pool S W ι → Pool S W ι → Prop
  | op {w w' : W} {pre post : List (ι × Prog S Unit)} {started : List ι} {i : ι} {o : S.Op}
      {k : S.Res o → Prog S Unit} {r : S.Res o} : sem o w r w' →
      Pool.Step sem text Env Crash ⟨w, pre ++ (i, .op o k) :: post, started⟩
        ⟨w', pre ++ (i, k r) :: post, started⟩
  | spawn {w : W} {running : List (ι × Prog S Unit)} {started : List ι} {i : ι} : i ∉ started →
      Pool.Step sem text Env Crash ⟨w, running, started⟩
        ⟨w, (i, text i) :: running, i :: started⟩
  | env {w w' : W} {running : List (ι × Prog S Unit)} {started : List ι} : Env w w' →
      Pool.Step sem text Env Crash ⟨w, running, started⟩ ⟨w', running, started⟩
  | crash {w w' : W} {running : List (ι × Prog S Unit)} {started : List ι} : Crash w w' →
      Pool.Step sem text Env Crash ⟨w, running, started⟩ ⟨w', [], started⟩

/-- Any run of the programs, as far as it has come. -/
abbrev Pool.Reach {ι : Type} (sem : Sem S W) (text : ι → Prog S Unit) (Env Crash : W → W → Prop) :
    Pool S W ι → Pool S W ι → Prop :=
  Relation.ReflTransGen (Pool.Step sem text Env Crash)

section Pool

variable {ι : Type} {text : ι → Prog S Unit} {Env Crash : W → W → Prop}
  {RI GI : ι → W → W → Prop} {Ready : ι → W → Prop} {c c' : Pool S W ι}

/-- What the programs of a pool guarantee each other. -/
structure Pool.Contract (sem : Sem S W) (text : ι → Prog S Unit) (Env Crash : W → W → Prop)
    (RI GI : ι → W → W → Prop) (Ready : ι → W → Prop) : Prop where
  rely : ∀ i, Rely (RI i)
  others : ∀ {i j x y}, i ≠ j → GI i x y → RI j x y
  env : ∀ {j x y}, Env x y → RI j x y
  start : ∀ {i x}, Ready i x → Follows sem (RI i) (GI i) (text i) (fun _ _ => True) x
  ready : ∀ {i x y}, RI i x y → Ready i x → Ready i y
  crash : ∀ {i x y}, Crash x y → Ready i x → Ready i y

/-- All programs are where their logic says. -/
structure Pool.Follow (sem : Sem S W) (RI GI : ι → W → W → Prop) (Ready : ι → W → Prop)
    (c : Pool S W ι) : Prop where
  nodup : (c.running.map Prod.fst).Nodup
  started : ∀ p ∈ c.running, p.1 ∈ c.started
  follows : ∀ p ∈ c.running, Follows sem (RI p.1) (GI p.1) p.2 (fun _ _ => True) c.world
  ready : ∀ i, i ∉ c.started → Ready i c.world

/-- What a step does to the world. -/
def Pool.Moves (Env Crash : W → W → Prop) (GI : ι → W → W → Prop) (x y : W) : Prop :=
  x = y ∨ (∃ i, GI i x y) ∨ Env x y ∨ Crash x y

/-- When one program has moved, the others are where they were. -/
theorem Pool.mem_advanced {pre post : List (ι × Prog S Unit)} {i : ι} {p q : Prog S Unit}
    {x : ι × Prog S Unit} (hnodup : ((pre ++ (i, p) :: post).map Prod.fst).Nodup)
    (hx : x ∈ pre ++ (i, q) :: post) :
    x = (i, q) ∨ x ∈ pre ++ (i, p) :: post ∧ i ≠ x.1 := by
  simp only [List.map_append, List.map_cons, List.nodup_append, List.nodup_cons] at hnodup
  obtain ⟨-, ⟨hpost, -⟩, hpre⟩ := hnodup
  rcases List.mem_append.mp hx with hx | hx
  · refine Or.inr ⟨List.mem_append_left _ hx, fun he => ?_⟩
    exact hpre x.1 (List.mem_map_of_mem hx) i List.mem_cons_self he.symm
  · rcases List.mem_cons.mp hx with rfl | hx
    · exact Or.inl rfl
    · refine Or.inr ⟨List.mem_append_right _ (List.mem_cons_of_mem _ hx), fun he => ?_⟩
      exact hpost (he ▸ List.mem_map_of_mem hx)

theorem Pool.Follow.step (hc : Pool.Contract sem text Env Crash RI GI Ready)
    (h : c.Follow sem RI GI Ready) (hs : Pool.Step sem text Env Crash c c') :
    c'.Follow sem RI GI Ready ∧ Pool.Moves Env Crash GI c.world c'.world := by
  cases hs with
  | @op w w' pre post started i o k r hop =>
      have hmem : (i, Prog.op o k) ∈ pre ++ (i, .op o k) :: post :=
        List.mem_append_right _ List.mem_cons_self
      obtain ⟨hg, hk⟩ := h.follows _ hmem w ((hc.rely i).refl w) r w' hop
      have hnames : (pre ++ (i, k r) :: post).map Prod.fst =
          (pre ++ (i, Prog.op o k) :: post).map Prod.fst := by simp
      refine ⟨⟨hnames ▸ h.nodup, fun p hp => ?_, fun p hp => ?_, fun j hj => ?_⟩,
        Or.inr (Or.inl ⟨i, hg⟩)⟩
      · rcases Pool.mem_advanced h.nodup hp with rfl | ⟨hp, -⟩
        · exact h.started (i, .op o k) hmem
        · exact h.started p hp
      · rcases Pool.mem_advanced h.nodup hp with rfl | ⟨hp, hne⟩
        · exact hk
        · exact (h.follows p hp).env (hc.rely p.1) (hc.others hne hg)
      · have hne : i ≠ j := by
          rintro rfl
          exact hj (h.started _ hmem)
        exact hc.ready (hc.others hne hg) (h.ready j hj)
  | @spawn w running started i hi =>
      refine ⟨⟨?_, fun p hp => ?_, fun p hp => ?_, fun j hj => ?_⟩, Or.inl rfl⟩
      · refine List.nodup_cons.mpr ⟨fun hmem => ?_, h.nodup⟩
        obtain ⟨p, hp, rfl⟩ := List.mem_map.mp hmem
        exact hi (h.started p hp)
      · rcases List.mem_cons.mp hp with rfl | hp
        · exact List.mem_cons_self
        · exact List.mem_cons_of_mem _ (h.started p hp)
      · rcases List.mem_cons.mp hp with rfl | hp
        · exact hc.start (h.ready i hi)
        · exact h.follows p hp
      · exact h.ready j fun hmem => hj (List.mem_cons_of_mem _ hmem)
  | env henv =>
      refine ⟨⟨h.nodup, h.started, fun p hp => ?_, fun j hj => ?_⟩, Or.inr (Or.inr (Or.inl henv))⟩
      · exact (h.follows p hp).env (hc.rely p.1) (hc.env henv)
      · exact hc.ready (hc.env henv) (h.ready j hj)
  | crash hcrash =>
      refine ⟨⟨List.nodup_nil, ?_, ?_, fun j hj => ?_⟩, Or.inr (Or.inr (Or.inr hcrash))⟩
      · exact fun p hp => absurd hp List.not_mem_nil
      · exact fun p hp => absurd hp List.not_mem_nil
      · exact hc.crash hcrash (h.ready j hj)

/-- **What every move of a pool does, a whole run does.** -/
theorem Pool.Follow.reach (hc : Pool.Contract sem text Env Crash RI GI Ready) {K : W → W → Prop}
    (hK : Rely K) (hmoves : ∀ {x y}, Pool.Moves Env Crash GI x y → K x y)
    (h : c.Follow sem RI GI Ready) (hr : Pool.Reach sem text Env Crash c c') :
    c'.Follow sem RI GI Ready ∧ K c.world c'.world := by
  induction hr with
  | refl => exact ⟨h, hK.refl _⟩
  | tail _ hs ih =>
      obtain ⟨hf, hk⟩ := ih
      obtain ⟨hf', hm⟩ := hf.step hc hs
      exact ⟨hf', hK.trans hk (hmoves hm)⟩

end Pool

/-- A program that nobody interrupts. -/
theorem Pool.reach_of_runs {ι : Type} {text : ι → Prog S Unit} {Env Crash : W → W → Prop} {i : ι}
    {rest : List (ι × Prog S Unit)} {started : List ι} {p : Prog S Unit} {ws : List W}
    (h : Runs sem p w ws () w') :
    Pool.Reach sem text Env Crash ⟨w, (i, p) :: rest, started⟩
      ⟨w', (i, .pure ()) :: rest, started⟩ := by
  induction p generalizing w ws with
  | pure a =>
      obtain ⟨-, -, rfl⟩ := h
      exact .refl
  | op o k ih =>
      obtain ⟨r, w₁, ws', hs, -, h⟩ := h
      exact .head (@Pool.Step.op S W ι sem text Env Crash _ _ [] _ _ _ _ _ _ hs) (ih r h)

/-- The first `n` operations of a program, each with its answer by `step`. -/
def advance (step : (o : S.Op) → W → S.Res o × W) : Nat → Prog S α → W → Prog S α × W
  | 0, p, w => (p, w)
  | _ + 1, .pure a, w => (.pure a, w)
  | n + 1, .op o k, w => advance step n (k (step o w).1) (step o w).2

/-- Those operations, each with the world it is performed in. -/
def visits (step : (o : S.Op) → W → S.Res o × W) : Nat → Prog S α → W → List (S.Op × W)
  | 0, _, _ => []
  | _ + 1, .pure _, _ => []
  | n + 1, .op o k, w => (o, w) :: visits step n (k (step o w).1) (step o w).2

/-- A program that nobody interrupts for `n` operations, wherever it stands
among the others. -/
theorem Pool.reach_advance_at {ι : Type} {text : ι → Prog S Unit} {Env Crash : W → W → Prop}
    {i : ι} (pre : List (ι × Prog S Unit)) {rest : List (ι × Prog S Unit)} {started : List ι}
    {step : (o : S.Op) → W → S.Res o × W} {n : Nat} {p : Prog S Unit} {w : W}
    (hstep : ∀ q ∈ visits step n p w, sem q.1 q.2 (step q.1 q.2).1 (step q.1 q.2).2) :
    Pool.Reach sem text Env Crash ⟨w, pre ++ (i, p) :: rest, started⟩
      ⟨(advance step n p w).2, pre ++ (i, (advance step n p w).1) :: rest, started⟩ := by
  induction n generalizing p w with
  | zero => exact .refl
  | succ n ih =>
      cases p with
      | pure a => exact .refl
      | op o k =>
          have hop := hstep (o, w) List.mem_cons_self
          refine .head (@Pool.Step.op S W ι sem text Env Crash _ _ pre _ _ _ _ _ _ hop) ?_
          exact ih fun q hq => hstep q (List.mem_cons_of_mem _ hq)

theorem Pool.reach_advance {ι : Type} {text : ι → Prog S Unit} {Env Crash : W → W → Prop} {i : ι}
    {rest : List (ι × Prog S Unit)} {started : List ι} {step : (o : S.Op) → W → S.Res o × W}
    {n : Nat} {p : Prog S Unit} {w : W}
    (hstep : ∀ q ∈ visits step n p w, sem q.1 q.2 (step q.1 q.2).1 (step q.1 q.2).2) :
    Pool.Reach sem text Env Crash ⟨w, (i, p) :: rest, started⟩
      ⟨(advance step n p w).2, (i, (advance step n p w).1) :: rest, started⟩ :=
  Pool.reach_advance_at [] hstep

/-- The same for the first of two programs. -/
theorem Pair.reach_advance {semL semR : Sem S W} {step : (o : S.Op) → W → S.Res o × W} {n : Nat}
    {p : Prog S α} {q : Prog S β} {w : W}
    (hstep : ∀ v ∈ visits step n p w, semL v.1 v.2 (step v.1 v.2).1 (step v.1 v.2).2) :
    Pair.Reach semL semR ⟨w, p, q⟩ ⟨(advance step n p w).2, (advance step n p w).1, q⟩ := by
  induction n generalizing p w with
  | zero => exact .refl
  | succ n ih =>
      cases p with
      | pure a => exact .refl
      | op o k =>
          refine .head (.left (hstep (o, w) List.mem_cons_self)) ?_
          exact ih fun v hv => hstep v (List.mem_cons_of_mem _ hv)

/-- And for the second. -/
theorem Pair.reach_advance_right {semL semR : Sem S W} {step : (o : S.Op) → W → S.Res o × W}
    {n : Nat} {p : Prog S α} {q : Prog S β} {w : W}
    (hstep : ∀ v ∈ visits step n q w, semR v.1 v.2 (step v.1 v.2).1 (step v.1 v.2).2) :
    Pair.Reach semL semR ⟨w, p, q⟩ ⟨(advance step n q w).2, p, (advance step n q w).1⟩ := by
  induction n generalizing q w with
  | zero => exact .refl
  | succ n ih =>
      cases q with
      | pure b => exact .refl
      | op o k =>
          refine .head (.right (hstep (o, w) List.mem_cons_self)) ?_
          exact ih fun v hv => hstep v (List.mem_cons_of_mem _ hv)

/-- All operations of a program, each with the world it is performed in. -/
def performs (step : (o : S.Op) → W → S.Res o × W) : Prog S α → W → List (S.Op × W)
  | .pure _, _ => []
  | .op o k, w => (o, w) :: performs step (k (step o w).1) (step o w).2

/-- An execution is a run of a semantics that allows the steps it takes. -/
theorem runs_performs {step : (o : S.Op) → W → S.Res o × W} {p : Prog S α} {w : W}
    (hstep : ∀ v ∈ performs step p w, sem v.1 v.2 (step v.1 v.2).1 (step v.1 v.2).2) :
    Runs sem p w (trace step p w) (exec step p w).1 (exec step p w).2 := by
  induction p generalizing w with
  | pure a => exact ⟨rfl, rfl, rfl⟩
  | op o k ih =>
      refine ⟨_, _, _, hstep (o, w) List.mem_cons_self, rfl, ih _ fun v hv => ?_⟩
      exact hstep v (List.mem_cons_of_mem _ hv)

/-! ## Looking back from the end of a run -/

/-- A semantics confined to worlds with `L`. -/
def Sem.within (sem : Sem S W) (L : W → Prop) : Sem S W := fun o x r y => sem o x r y ∧ L y

/-- If `L` at the end of a step implies `L` at its start, a run that ends in
`L` has never left it. -/
theorem Pool.Reach.within {ι : Type} {text : ι → Prog S Unit} {Env Crash : W → W → Prop}
    {L : W → Prop} {c c' : Pool S W ι} (hop : ∀ {o x r y}, sem o x r y → L y → L x)
    (henv : ∀ {x y}, Env x y → L y → L x) (hcrash : ∀ {x y}, Crash x y → L y → L x)
    (h : Pool.Reach sem text Env Crash c c') (hL : L c'.world) :
    L c.world ∧ Pool.Reach (sem.within L) text (fun x y => Env x y ∧ L y)
      (fun x y => Crash x y ∧ L y) c c' := by
  induction h with
  | refl => exact ⟨hL, .refl⟩
  | tail _ hs ih =>
      cases hs with
      | op ho =>
          obtain ⟨h₀, hr⟩ := ih (hop ho hL)
          exact ⟨h₀, hr.tail (.op ⟨ho, hL⟩)⟩
      | spawn hi =>
          obtain ⟨h₀, hr⟩ := ih hL
          exact ⟨h₀, hr.tail (.spawn hi)⟩
      | env he =>
          obtain ⟨h₀, hr⟩ := ih (henv he hL)
          exact ⟨h₀, hr.tail (.env ⟨he, hL⟩)⟩
      | crash hc =>
          obtain ⟨h₀, hr⟩ := ih (hcrash hc hL)
          exact ⟨h₀, hr.tail (.crash ⟨hc, hL⟩)⟩

/-- The same for two programs. -/
theorem Pair.Reach.within {semL semR : Sem S W} {L : W → Prop} {c c' : Pair S W α β}
    (hl : ∀ {o x r y}, semL o x r y → L y → L x) (hr : ∀ {o x r y}, semR o x r y → L y → L x)
    (h : Pair.Reach semL semR c c') (hL : L c'.world) :
    L c.world ∧ Pair.Reach (semL.within L) (semR.within L) c c' := by
  induction h with
  | refl => exact ⟨hL, .refl⟩
  | tail _ hs ih =>
      cases hs with
      | left hop =>
          obtain ⟨h₀, hreach⟩ := ih (hl hop hL)
          exact ⟨h₀, hreach.tail (.left ⟨hop, hL⟩)⟩
      | right hop =>
          obtain ⟨h₀, hreach⟩ := ih (hr hop hL)
          exact ⟨h₀, hreach.tail (.right ⟨hop, hL⟩)⟩

/-- What a program guarantees, it guarantees together with `L` where it stays
within `L`. -/
theorem Follows.within {L : W → Prop} {p : Prog S α} (h : Follows sem R G p Q w) :
    Follows (sem.within L) R (fun x y => G x y ∧ L y) p Q w := by
  induction p generalizing w with
  | pure a => exact h
  | op o k ih =>
      intro x hx r y hs
      obtain ⟨hg, hk⟩ := h x hx r y hs.1
      exact ⟨⟨hg, hs.2⟩, ih r hk⟩

/-- What a program guarantees as long as `L` holds, it guarantees whenever `L`
holds. -/
theorem Follows.of_within {L : W → Prop} {p : Prog S α} (hop : ∀ {o x r y}, sem o x r y → L y → L x)
    (hR : ∀ {x y}, R x y → L y → L x)
    (h : L w → Follows (sem.within L) R G p (fun _ _ => True) w) :
    Follows sem R (fun x y => L y → G x y) p (fun _ _ => True) w := by
  induction p generalizing w with
  | pure a => exact fun _ _ => trivial
  | op o k ih =>
      intro x hx r y hs
      refine ⟨fun hy => ?_, ih r fun hy => ?_⟩
      · have hlx := hop hs hy
        exact (h (hR hx hlx) x hx r y ⟨hs, hy⟩).1
      · have hlx := hop hs hy
        exact (h (hR hx hlx) x hx r y ⟨hs, hy⟩).2

/-! ## Working on a part of the world -/

/-- A program that works on a part of the world that the others leave alone:
what it does there, it could have done alone. `Sim x g` says that `x` has
that part as the world `g` of a run without the others. -/
theorem Calls.follows_runs {semA : Sem S W} {P : S.Op → Prop} {Sim : W → W → Prop} {p : Prog S α}
    {g : W} (hp : Calls P p) (hR : ∀ {x y g}, Sim x g → R x y → Sim y g)
    (hop : ∀ o x r y g, P o → Sim x g → sem o x r y → G x y ∧ ∃ g', semA o g r g' ∧ Sim y g')
    (h : Sim w g) :
    Follows sem R G p (fun a y => ∃ ws g', Runs semA p g ws a g' ∧ Sim y g') w := by
  induction p generalizing w g with
  | pure a => exact fun y hy => ⟨[], g, ⟨rfl, rfl, rfl⟩, hR h hy⟩
  | op o k ih =>
      intro x hx r y hs
      obtain ⟨hg, g₁, hs₁, hsim⟩ := hop o x r y g hp.1 (hR h hx) hs
      refine ⟨hg, (ih r (hp.2 r) hsim).mono fun a z hz => ?_⟩
      obtain ⟨ws, g', hrun, hz⟩ := hz
      exact ⟨g₁ :: ws, g', ⟨r, g₁, ws, hs₁, rfl, hrun⟩, hz⟩

/-- What a program guarantees alone in the world, it guarantees among others
that leave its part of the world to it. -/
theorem Follows.apart {semA : Sem S W} {P : S.Op → Prop} {Sim G' : W → W → Prop} {p : Prog S α}
    {g : W} (hp : Calls P p) (hR : ∀ {x y g}, Sim x g → R x y → Sim y g)
    (hop : ∀ o x r y g, P o → Sim x g → sem o x r y →
      ∃ g', semA o g r g' ∧ Sim y g' ∧ (G g g' → G' x y))
    (h : Follows semA Eq G p Q g) (hw : Sim w g) :
    Follows sem R G' p (fun a y => ∃ g', Sim y g' ∧ Q a g') w := by
  induction p generalizing w g with
  | pure a => exact fun y hy => ⟨g, hR hw hy, h g rfl⟩
  | op o k ih =>
      intro x hx r y hs
      obtain ⟨g', hg', hsim, hG⟩ := hop o x r y g hp.1 (hR hw hx) hs
      obtain ⟨hgg', hrest⟩ := h g rfl r g' hg'
      exact ⟨hG hgg', ih r (hp.2 r) hrest hsim⟩

end Bbdb.Prog
