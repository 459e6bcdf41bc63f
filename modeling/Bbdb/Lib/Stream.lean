import Mathlib.Data.List.Basic

/-!
# Streams — batches, sent one after the other

A list cut into batches, the last batch marked, and a stream that takes
messages until one of them cannot be sent. `fails` says which attempts fail:
the `i`-th one fails with the error `fails i`, if there is one.
-/

namespace Bbdb.Stream

variable {α β μ ε : Type}

/-! ## Batches -/

/-- The list in batches of `n`; the empty list is one empty batch. -/
def batches (n : Nat) (l : List α) : List (List α) :=
  if _h : 0 < n ∧ n < l.length then l.take n :: batches n (l.drop n) else [l]
termination_by l.length
decreasing_by
  rw [List.length_drop]
  omega

theorem batches_of_lt {n : Nat} {l : List α} (hn : 0 < n) (h : n < l.length) :
    batches n l = l.take n :: batches n (l.drop n) := by
  rw [batches, dif_pos ⟨hn, h⟩]

theorem batches_of_le {n : Nat} {l : List α} (h : l.length ≤ n) : batches n l = [l] := by
  rw [batches, dif_neg (by omega)]

theorem batches_ne_nil (n : Nat) (l : List α) : batches n l ≠ [] := by
  rw [batches]
  split_ifs
  · exact List.cons_ne_nil _ _
  · exact List.cons_ne_nil _ _

/-- **Nothing is lost or reordered.** -/
theorem flatten_batches (n : Nat) (l : List α) : (batches n l).flatten = l := by
  fun_induction batches n l with
  | case1 l h ih => rw [List.flatten_cons, ih, List.take_append_drop]
  | case2 l h => rw [List.flatten_cons, List.flatten_nil, List.append_nil]

theorem length_le_of_mem_batches {n : Nat} {l b : List α} (hn : 0 < n) (hb : b ∈ batches n l) :
    b.length ≤ n := by
  fun_induction batches n l with
  | case1 l h ih =>
      rcases List.mem_cons.mp hb with rfl | hb
      · exact List.length_take_le _ _
      · exact ih hb
  | case2 l h =>
      rw [List.mem_singleton.mp hb]
      omega

/-! ## The last one -/

/-- `f true` for the last element, `f false` for the others. -/
def markLast (f : Bool → β → μ) : List β → List μ
  | [] => []
  | [b] => [f true b]
  | b :: b' :: bs => f false b :: markLast f (b' :: bs)

theorem markLast_cons {f : Bool → β → μ} {b : β} {bs : List β} (h : bs ≠ []) :
    markLast f (b :: bs) = f false b :: markLast f bs := by
  cases bs with
  | nil => exact absurd rfl h
  | cons b' bs => rw [markLast]

/-- **Exactly the last one is marked.** -/
theorem markLast_eq {f : Bool → β → μ} {l : List β} (h : l ≠ []) :
    ∃ front last, l = front ++ [last] ∧ markLast f l = front.map (f false) ++ [f true last] := by
  induction l with
  | nil => exact absurd rfl h
  | cons b bs ih =>
      by_cases hbs : bs = []
      · subst hbs
        exact ⟨[], b, rfl, rfl⟩
      · obtain ⟨front, last, rfl, hmark⟩ := ih hbs
        exact ⟨b :: front, last, rfl, by rw [markLast_cons hbs, hmark]; rfl⟩

theorem mem_markLast {f : Bool → β → μ} {l : List β} {x : μ} (h : x ∈ markLast f l) :
    ∃ last, ∃ b ∈ l, x = f last b := by
  induction l with
  | nil => cases h
  | cons b bs ih =>
      by_cases hbs : bs = []
      · subst hbs
        exact ⟨true, b, List.mem_singleton_self b, List.mem_singleton.mp h⟩
      · rw [markLast_cons hbs] at h
        rcases List.mem_cons.mp h with rfl | h
        · exact ⟨false, b, List.mem_cons_self, rfl⟩
        · obtain ⟨last, b', hb', rfl⟩ := ih h
          exact ⟨last, b', List.mem_cons_of_mem _ hb', rfl⟩

/-! ## Sending -/

variable (μ) in
/-- A stream: what it has taken, and how often something was sent. -/
structure Sent where
  sent : List μ
  tries : Nat

/-- Nothing sent yet. -/
def Sent.start : Sent μ := ⟨[], 0⟩

/-- One attempt to send a message. -/
def send (fails : Nat → Option ε) (m : μ) (s : Sent μ) : Option ε × Sent μ :=
  match fails s.tries with
  | some e => (some e, { s with tries := s.tries + 1 })
  | none => (none, ⟨s.sent ++ [m], s.tries + 1⟩)

/-- One message after the other, up to the first that cannot be sent. -/
def sendAll (fails : Nat → Option ε) : List μ → Sent μ → Option ε × Sent μ
  | [], s => (none, s)
  | m :: ms, s =>
      match send fails m s with
      | (some e, s') => (some e, s')
      | (none, s') => sendAll fails ms s'

theorem sendAll_singleton (fails : Nat → Option ε) (m : μ) (s : Sent μ) :
    sendAll fails [m] s = send fails m s := by
  rw [sendAll]
  split
  · rename_i e s' h
    exact h.symm
  · rename_i s' h
    exact h.symm

/-- **A stream takes the messages in order, up to the first failure**, and
that failure is what the sender is told. -/
theorem sendAll_spec (fails : Nat → Option ε) (ms : List μ) (s : Sent μ) :
    ∃ k ≤ ms.length, (sendAll fails ms s).2.sent = s.sent ++ ms.take k ∧
      (∀ i < k, fails (s.tries + i) = none) ∧
      (k = ms.length ∧ (sendAll fails ms s).1 = none ∨
        k < ms.length ∧ (sendAll fails ms s).1 = fails (s.tries + k) ∧
          fails (s.tries + k) ≠ none) := by
  induction ms generalizing s with
  | nil => exact ⟨0, Nat.le_refl _, (List.append_nil _).symm, by omega, Or.inl ⟨rfl, rfl⟩⟩
  | cons m ms ih =>
      cases hf : fails s.tries with
      | some e =>
          -- the attempt fails, and the message is not taken
          have hsend : sendAll fails (m :: ms) s = (some e, { s with tries := s.tries + 1 }) := by
            simp only [sendAll, send, hf]
          refine ⟨0, Nat.zero_le _, ?_, by omega, Or.inr ⟨Nat.succ_pos _, ?_, ?_⟩⟩
          · rw [hsend, List.take_zero, List.append_nil]
          · rw [hsend]
            exact hf.symm
          · rw [Nat.add_zero, hf]
            exact Option.some_ne_none e
      | none =>
          have hsend : sendAll fails (m :: ms) s =
              sendAll fails ms ⟨s.sent ++ [m], s.tries + 1⟩ := by
            simp only [sendAll, send, hf]
          obtain ⟨k, hk, hsent, hbefore, hend⟩ := ih ⟨s.sent ++ [m], s.tries + 1⟩
          have hshift : s.tries + (k + 1) = s.tries + 1 + k := by omega
          rw [hsend]
          refine ⟨k + 1, Nat.succ_le_succ hk, ?_, ?_, ?_⟩
          · rw [hsent, List.take_succ_cons, List.append_assoc, List.singleton_append]
          · intro i hi
            cases i with
            | zero => exact hf
            | succ i =>
                have := hbefore i (by omega)
                rwa [show s.tries + 1 + i = s.tries + (i + 1) by omega] at this
          · rw [hshift, List.length_cons]
            rcases hend with ⟨hk', h⟩ | ⟨hk', h⟩
            · exact Or.inl ⟨by rw [hk'], h⟩
            · exact Or.inr ⟨Nat.succ_lt_succ hk', h⟩

/-- What a new stream has taken is a first part of what there is to send. -/
theorem sent_prefix (fails : Nat → Option ε) (ms : List μ) :
    (sendAll fails ms Sent.start).2.sent <+: ms := by
  obtain ⟨k, -, hsent, -⟩ := sendAll_spec fails ms Sent.start
  have htake : (sendAll fails ms Sent.start).2.sent = ms.take k := hsent
  rw [htake]
  exact List.take_prefix k ms

/-- Without a failure, everything is sent. -/
theorem sendAll_all {fails : Nat → Option ε} (h : ∀ i, fails i = none) (ms : List μ)
    (s : Sent μ) :
    (sendAll fails ms s).1 = none ∧ (sendAll fails ms s).2.sent = s.sent ++ ms := by
  obtain ⟨k, hk, hsent, -, ⟨rfl, hnone⟩ | ⟨-, -, hfail⟩⟩ := sendAll_spec fails ms s
  · exact ⟨hnone, by rw [hsent, List.take_length]⟩
  · exact absurd (h _) hfail

end Bbdb.Stream
