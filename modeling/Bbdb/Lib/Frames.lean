import Mathlib.Data.List.Basic

/-!
# Frames — a string read item by item

A format whose strings are items written one after another, with nothing
between them and nothing at the end. The format says how one item is written
and how the first item of a string is read; `readAll` reads items until the
string is empty or an item cannot be read.

If reading one item is exact, so is the loop: it always comes to an end
(`readAll_terminates`), the items it returns are written as the string it
read (`writeAll_of_readAll`), and it returns any items from the string they
are written as (`readAll_writeAll`).
-/

namespace Bbdb

/-- A way of writing items that can be read off the front of a string, with
the items whose writing can be read back. -/
structure Frames (ε α β : Type*) where
  Fits : β → Prop
  write : β → List α
  read : List α → Except ε (β × List α)
  write_ne_nil : ∀ b, write b ≠ []
  read_write : ∀ b s, Fits b → read (write b ++ s) = .ok (b, s)
  fits_of_read : ∀ s b rest, read s = .ok (b, rest) → Fits b
  write_of_read : ∀ s b rest, read s = .ok (b, rest) → s = write b ++ rest

namespace Frames

variable {ε α β : Type*} (F : Frames ε α β)

/-- The items of a string, read in at most `n` turns of the loop; `none` when
the loop has not come to an end by then. -/
def readAll : Nat → List α → Option (Except ε (List β))
  | _, [] => some (.ok [])
  | 0, _ :: _ => none
  | n + 1, a :: s =>
      match F.read (a :: s) with
      | .error e => some (.error e)
      | .ok (b, rest) => (readAll n rest).map (Except.map (b :: ·))

def writeAll (bs : List β) : List α := bs.flatMap F.write

@[simp] theorem writeAll_nil : F.writeAll [] = [] := rfl

@[simp] theorem writeAll_cons (b : β) (bs : List β) :
    F.writeAll (b :: bs) = F.write b ++ F.writeAll bs := rfl

/-! ## One turn of the loop -/

@[simp] theorem readAll_nil (n : Nat) : F.readAll n [] = some (.ok []) := by
  cases n <;> rfl

variable {F}

theorem readAll_error {n : Nat} {s : List α} {e : ε} (hs : s ≠ []) (h : F.read s = .error e) :
    F.readAll (n + 1) s = some (.error e) := by
  cases s with
  | nil => exact absurd rfl hs
  | cons a s => rw [readAll, h]

theorem readAll_ok {n : Nat} {s rest : List α} {b : β} (hs : s ≠ [])
    (h : F.read s = .ok (b, rest)) :
    F.readAll (n + 1) s = (F.readAll n rest).map (Except.map (b :: ·)) := by
  cases s with
  | nil => exact absurd rfl hs
  | cons a s => rw [readAll, h]

/-- Reading an item shortens the string. -/
theorem length_lt_of_read {s rest : List α} {b : β} (h : F.read s = .ok (b, rest)) :
    rest.length < s.length := by
  have hpos : 0 < (F.write b).length := List.length_pos_of_ne_nil (F.write_ne_nil b)
  rw [F.write_of_read s b rest h, List.length_append]
  omega

/-! ## Whole strings -/

/-- **The loop comes to an end** within as many turns as the string is long. -/
theorem readAll_terminates {n : Nat} {s : List α} (h : s.length ≤ n) :
    ∃ r, F.readAll n s = some r := by
  induction n generalizing s with
  | zero =>
      have hs : s = [] := List.length_eq_zero_iff.mp (Nat.le_zero.mp h)
      exact ⟨.ok [], by rw [hs, readAll_nil]⟩
  | succ n ih =>
      by_cases hs : s = []
      · exact ⟨.ok [], by rw [hs, readAll_nil]⟩
      · cases hread : F.read s with
        | error e => exact ⟨_, readAll_error hs hread⟩
        | ok p =>
            have hlt := length_lt_of_read hread
            obtain ⟨r, hr⟩ := ih (Nat.le_of_lt_succ (Nat.lt_of_lt_of_le hlt h))
            exact ⟨_, by rw [readAll_ok hs hread, hr, Option.map_some]⟩

/-- More turns change nothing once the loop has come to its end. -/
theorem readAll_of_le {n k : Nat} {s : List α} {r : Except ε (List β)} (hle : n ≤ k)
    (h : F.readAll n s = some r) : F.readAll k s = some r := by
  induction n generalizing k s r with
  | zero =>
      cases s with
      | nil => rwa [readAll_nil] at h ⊢
      | cons a s => cases h
  | succ n ih =>
      obtain ⟨m, rfl⟩ : ∃ m, k = m + 1 := ⟨k - 1, by omega⟩
      by_cases hs : s = []
      · subst hs
        rwa [readAll_nil] at h ⊢
      · cases hread : F.read s with
        | error e => rwa [readAll_error hs hread] at h ⊢
        | ok p =>
            rw [readAll_ok hs hread, Option.map_eq_some_iff] at h ⊢
            obtain ⟨r', hr', hr⟩ := h
            exact ⟨r', ih (Nat.le_of_succ_le_succ hle) hr', hr⟩

/-- **What was read is what was written**: the items returned are ones that
can be read back, and the string is theirs. -/
theorem writeAll_of_readAll {n : Nat} {s : List α} {bs : List β}
    (h : F.readAll n s = some (.ok bs)) : F.writeAll bs = s ∧ ∀ b ∈ bs, F.Fits b := by
  induction n generalizing s bs with
  | zero =>
      cases s with
      | nil =>
          cases h
          exact ⟨rfl, by simp⟩
      | cons a s => cases h
  | succ n ih =>
      by_cases hs : s = []
      · rw [hs, readAll_nil] at h
        cases h
        exact ⟨hs.symm, by simp⟩
      · cases hread : F.read s with
        | error e => simp [readAll_error hs hread] at h
        | ok p =>
            rw [readAll_ok hs hread, Option.map_eq_some_iff] at h
            obtain ⟨r, hr, hbs⟩ := h
            cases r with
            | error e => cases hbs
            | ok rest =>
                cases hbs
                obtain ⟨hwrite, hfits⟩ := ih hr
                refine ⟨?_, ?_⟩
                · rw [writeAll_cons, hwrite, ← F.write_of_read s p.1 p.2 hread]
                · rw [List.forall_mem_cons]
                  exact ⟨F.fits_of_read s p.1 p.2 hread, hfits⟩

/-- **What was written is read.** -/
theorem readAll_writeAll {bs : List β} (hfits : ∀ b ∈ bs, F.Fits b) :
    ∀ n, (F.writeAll bs).length ≤ n → F.readAll n (F.writeAll bs) = some (.ok bs) := by
  induction bs with
  | nil =>
      intro n _
      rw [writeAll_nil, readAll_nil]
  | cons b bs ih =>
      intro n hn
      rw [List.forall_mem_cons] at hfits
      have hread := F.read_write b (F.writeAll bs) hfits.1
      have hlt := length_lt_of_read hread
      have hs : F.write b ++ F.writeAll bs ≠ [] := by
        simp [F.write_ne_nil b]
      rw [writeAll_cons] at hn ⊢
      cases n with
      | zero => omega
      | succ n =>
          rw [readAll_ok hs hread, ih hfits.2 n (by omega)]
          rfl

/-- The strings that are read are the ones that are written. -/
theorem readAll_ok_iff {n : Nat} {s : List α} (h : s.length ≤ n) {bs : List β} :
    F.readAll n s = some (.ok bs) ↔ F.writeAll bs = s ∧ ∀ b ∈ bs, F.Fits b := by
  refine ⟨writeAll_of_readAll, ?_⟩
  rintro ⟨rfl, hfits⟩
  exact readAll_writeAll hfits n h

end Frames

end Bbdb
