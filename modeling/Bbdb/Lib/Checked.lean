import Mathlib.Data.List.Basic

/-!
# Code that checks its bounds

A `Checked` computation ends with a value or with an error, and tells how long
the buffers are that it has made on the way. Indexing or slicing out of bounds
ends it with an error of the caller's choice.

`Within bad limit x` says that `x` does not end with a bad error and makes no
buffer longer than `limit`; `within_bind` takes it apart along the program.
-/

namespace Bbdb

structure Checked (ε α : Type) where
  res : Except ε α
  /-- The lengths of the buffers made so far. -/
  made : List Nat

namespace Checked

variable {ε α β : Type}

protected def bind (x : Checked ε α) (f : α → Checked ε β) : Checked ε β :=
  match x.res with
  | .error e => ⟨.error e, x.made⟩
  | .ok a => ⟨(f a).res, x.made ++ (f a).made⟩

instance : Monad (Checked ε) where
  pure a := ⟨.ok a, []⟩
  bind := Checked.bind

/-- A step that makes no buffer. -/
def lift (r : Except ε α) : Checked ε α := ⟨r, []⟩

/-- Change the result of a step. -/
def mapRes (g : Except ε α → Except ε β) (x : Checked ε α) : Checked ε β := ⟨g x.res, x.made⟩

@[simp] theorem lift_res (r : Except ε α) : (lift r).res = r := rfl

@[simp] theorem mapRes_res (g : Except ε α → Except ε β) (x : Checked ε α) :
    (mapRes g x).res = g x.res := rfl

@[simp] theorem mapRes_lift (g : Except ε α → Except ε β) (r : Except ε α) :
    mapRes g (lift r) = lift (g r) := rfl

@[simp] theorem lift_ok_bind (a : α) (f : α → Checked ε β) : lift (.ok a) >>= f = f a := rfl

@[simp] theorem lift_error_bind (e : ε) (f : α → Checked ε β) :
    lift (.error e) >>= f = lift (.error e) := rfl

@[simp] theorem pure_bind (a : α) (f : α → Checked ε β) : pure a >>= f = f a := rfl

/-- The results of a program are those of the same program without buffers. -/
theorem res_bind (x : Checked ε α) (f : α → Checked ε β) :
    (x >>= f).res = x.res >>= fun a => (f a).res := by
  show (Checked.bind x f).res = _
  unfold Checked.bind
  cases x.res <;> rfl

/-- `s[i]`. -/
def index (oob : ε) (s : List α) (i : Nat) : Checked ε α :=
  match s[i]? with
  | some a => pure a
  | none => lift (.error oob)

/-- `s[lo:]`. -/
def sliceFrom (oob : ε) (s : List α) (lo : Nat) : Checked ε (List α) :=
  if lo ≤ s.length then pure (s.drop lo) else lift (.error oob)

/-- `s[lo:hi]`. -/
def slice (oob : ε) (s : List α) (lo hi : Nat) : Checked ε (List α) :=
  if lo ≤ hi ∧ hi ≤ s.length then pure ((s.drop lo).take (hi - lo)) else lift (.error oob)

theorem index_of_some {oob : ε} {s : List α} {i : Nat} {a : α} (h : s[i]? = some a) :
    index oob s i = pure a := by
  rw [index, h]

theorem index_of_lt {oob : ε} {s : List α} {i : Nat} (h : i < s.length) (d : α) :
    index oob s i = pure (s.getD i d) := by
  rw [List.getD_eq_getElem?_getD, List.getElem?_eq_getElem h]
  exact index_of_some (List.getElem?_eq_getElem h)

theorem sliceFrom_of_le {oob : ε} {s : List α} {lo : Nat} (h : lo ≤ s.length) :
    sliceFrom oob s lo = pure (s.drop lo) := if_pos h

theorem slice_of_le {oob : ε} {s : List α} {lo hi : Nat} (h : lo ≤ hi) (h' : hi ≤ s.length) :
    slice oob s lo hi = pure ((s.drop lo).take (hi - lo)) := if_pos ⟨h, h'⟩

/-! ## Staying within bounds -/

/-- No bad error, and no buffer longer than the limit. -/
structure Within (bad : ε → Prop) (limit : Nat) (x : Checked ε α) : Prop where
  res : ∀ e, x.res = .error e → ¬ bad e
  made : ∀ n ∈ x.made, n ≤ limit

variable {bad : ε → Prop} {limit : Nat}

theorem within_lift {r : Except ε α} :
    Within bad limit (lift r) ↔ ∀ e, r = .error e → ¬ bad e :=
  ⟨fun h => h.res, fun h => ⟨h, fun _ hn => absurd hn List.not_mem_nil⟩⟩

theorem within_pure (a : α) : Within bad limit (pure a : Checked ε α) :=
  within_lift.mpr fun _ h => by cases h

/-- **One step after the other**: each stays within bounds, as far as the
program gets. -/
theorem within_bind {x : Checked ε α} {f : α → Checked ε β} :
    Within bad limit (x >>= f) ↔
      Within bad limit x ∧ ∀ a, x.res = .ok a → Within bad limit (f a) := by
  obtain ⟨r, made⟩ := x
  cases r with
  | error e =>
      constructor
      · intro h
        exact ⟨⟨fun e' he' => h.res e' (by cases he'; rfl), h.made⟩, fun a ha => by cases ha⟩
      · intro h
        exact ⟨fun e' he' => h.1.res e' (by cases he'; rfl), h.1.made⟩
  | ok a =>
      constructor
      · intro h
        have hx : Within bad limit (⟨.ok a, made⟩ : Checked ε α) :=
          ⟨fun e he => (by cases he), fun n hn => h.made n (List.mem_append_left _ hn)⟩
        refine ⟨hx, ?_⟩
        rintro a' ha'
        cases ha'
        exact ⟨h.res, fun n hn => h.made n (List.mem_append_right _ hn)⟩
      · rintro ⟨hx, hf⟩
        refine ⟨(hf a rfl).res, fun n hn => ?_⟩
        rcases List.mem_append.mp hn with hn | hn
        · exact hx.made n hn
        · exact (hf a rfl).made n hn

end Checked

end Bbdb
