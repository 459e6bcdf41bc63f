import Bbdb.Lib.Bytes

/-!
# Numbers in text

Fixed-width digits as Go's `%04d`, `%02d` and `%04x` print them, `Atoi`
reading decimal text back, and the two splitters of package `strings` that
the development's identifiers are taken apart with.

A fixed-width field is never mistaken for a separator (`notMem_padded`), so
splitting a formatted text at its separators gives the fields back.
-/

namespace Bbdb.Text

open Bbdb.Bytes

/-! ## Digits -/

/-- The byte that prints digit `d`, in lower case above nine. -/
def digit (d : Nat) : UInt8 := if d < 10 then UInt8.ofNat (48 + d) else UInt8.ofNat (87 + d)

/-- The `w` low digits of `n` in base `b`, most significant first. -/
def padded (b : Nat) : Nat → Nat → Bytes
  | 0, _ => []
  | w + 1, n => digit (n / b ^ w % b) :: padded b w n

/-- `%0wd` of a non-negative number: at least `w` digits, more when the
number does not fit. -/
def fmtDec (w n : Nat) : Bytes :=
  if n < 10 ^ w then padded 10 w n else (Nat.toDigits 10 n).map fun c => UInt8.ofNat c.toNat

/-- `%0wx`, in the same way. -/
def fmtHex (w n : Nat) : Bytes :=
  if n < 16 ^ w then padded 16 w n else (Nat.toDigits 16 n).map fun c => UInt8.ofNat c.toNat

@[simp] theorem length_padded (b w n : Nat) : (padded b w n).length = w := by
  induction w with
  | zero => rfl
  | succ w ih => simp [padded, ih]

theorem digit_toNat_dec {d : Nat} (h : d < 10) : (digit d).toNat = 48 + d := by
  rw [digit, if_pos h, UInt8.toNat_ofNat']
  omega

theorem digit_toNat_hex {d : Nat} (h : d < 16) :
    (digit d).toNat = if d < 10 then 48 + d else 87 + d := by
  unfold digit
  split_ifs <;> rw [UInt8.toNat_ofNat'] <;> omega

theorem digit_inj {a b : Nat} (ha : a < 16) (hb : b < 16) (h : digit a = digit b) : a = b := by
  have hn := congrArg UInt8.toNat h
  rw [digit_toNat_hex ha, digit_toNat_hex hb] at hn
  split_ifs at hn <;> omega

/-- Every byte of a printed field is a digit of its base. -/
theorem mem_padded {b w n : Nat} (hb : 0 < b) {x : UInt8} (hx : x ∈ padded b w n) :
    ∃ d, d < b ∧ x = digit d := by
  induction w with
  | zero => simp [padded] at hx
  | succ w ih =>
      rcases List.mem_cons.mp hx with rfl | hx
      · exact ⟨_, Nat.mod_lt _ hb, rfl⟩
      · exact ih hx

/-- A byte outside `0`-`9` and `a`-`f` occurs in no printed field. -/
theorem notMem_padded {b w n : Nat} (hb0 : 0 < b) (hb : b ≤ 16) {x : UInt8}
    (hx : ¬ (48 ≤ x.toNat ∧ x.toNat ≤ 57) ∧ ¬ (97 ≤ x.toNat ∧ x.toNat ≤ 102)) :
    x ∉ padded b w n := by
  intro hm
  obtain ⟨d, hd, rfl⟩ := mem_padded hb0 hm
  rw [digit_toNat_hex (by omega)] at hx
  split_ifs at hx <;> omega

/-- A fixed-width field determines the number it prints. -/
theorem padded_inj {b w n m : Nat} (hb0 : 0 < b) (hb : b ≤ 16) (hn : n < b ^ w) (hm : m < b ^ w)
    (h : padded b w n = padded b w m) : n = m := by
  have key : ∀ w, padded b w n = padded b w m → n % b ^ w = m % b ^ w := by
    intro w
    induction w with
    | zero => intro _; simp [Nat.mod_one]
    | succ w ih =>
        intro h
        rw [padded, padded, List.cons.injEq] at h
        have hd := digit_inj (Nat.lt_of_lt_of_le (Nat.mod_lt _ hb0) hb)
          (Nat.lt_of_lt_of_le (Nat.mod_lt _ hb0) hb) h.1
        rw [Nat.pow_succ, Nat.mod_mul, Nat.mod_mul, hd, ih h.2]
  have hmod := key w h
  rwa [Nat.mod_eq_of_lt hn, Nat.mod_eq_of_lt hm] at hmod

theorem digit_lt {a b : Nat} (ha : a < 16) (hb : b < 16) : digit a < digit b ↔ a < b := by
  rw [UInt8.lt_iff_toNat_lt, digit_toNat_hex ha, digit_toNat_hex hb]
  split_ifs <;> omega

/-- Fields of one width compare as the numbers they print. -/
theorem padded_lt {b w n m : Nat} (hb0 : 0 < b) (hb : b ≤ 16) (hn : n < b ^ w) (hm : m < b ^ w) :
    padded b w n < padded b w m ↔ n < m := by
  have key : ∀ w, padded b w n < padded b w m ↔ n % b ^ w < m % b ^ w := by
    intro w
    induction w with
    | zero => simp [padded, Nat.mod_one]
    | succ w ih =>
        have hpos : 0 < b ^ w := Nat.pow_pos hb0
        have hdn : n / b ^ w % b < 16 := Nat.lt_of_lt_of_le (Nat.mod_lt _ hb0) hb
        have hdm : m / b ^ w % b < 16 := Nat.lt_of_lt_of_le (Nat.mod_lt _ hb0) hb
        have heq : digit (n / b ^ w % b) = digit (m / b ^ w % b) ↔
            n / b ^ w % b = m / b ^ w % b := ⟨digit_inj hdn hdm, fun h => by rw [h]⟩
        have hquot : ∀ x, x % b ^ (w + 1) / b ^ w = x / b ^ w % b := fun x => by
          rw [Nat.pow_succ, Nat.mod_mul_right_div_self]
        have hrest : ∀ x, x % b ^ (w + 1) % b ^ w = x % b ^ w := fun x => by
          rw [Nat.pow_succ, Nat.mod_mul_right_mod]
        rw [padded, padded, List.cons_lt_cons_iff, digit_lt hdn hdm, heq, ih,
          lt_iff_div_mod (b ^ w) (n % b ^ (w + 1)), hquot, hquot, hrest, hrest]
  rw [key w, Nat.mod_eq_of_lt hn, Nat.mod_eq_of_lt hm]

/-- ASCII text as a string. -/
def str (s : Bytes) : String := String.ofList (s.map fun c => Char.ofNat c.toNat)

/-- `%q` of printable text without quotes or backslashes. -/
def quote (s : Bytes) : String := "\"" ++ str s ++ "\""

/-! ## Atoi -/

/-- The value of a string of decimal digits. -/
def decVal : Bytes → Nat
  | [] => 0
  | c :: cs => (c.toNat - 48) * 10 ^ cs.length + decVal cs

/-- A decimal digit. -/
def isDigit (c : UInt8) : Bool := 48 ≤ c && c ≤ 57

/-- An unsigned number within `limit`: its value, `limit` when it is out of
range, and 0 for text that is no number. -/
def atou (limit : Nat) (s : Bytes) : Nat × Bool :=
  if s.isEmpty || !s.all isDigit then (0, false)
  else if decVal s ≤ limit then (decVal s, true)
  else (limit, false)

/-- `strconv.Atoi` on 64-bit ints: the value it returns and whether it
reported no error. -/
def atoi : Bytes → Int × Bool
  | [] => (0, false)
  | c :: s =>
      if c = 43 then ((atou (2 ^ 63 - 1) s).1, (atou (2 ^ 63 - 1) s).2)
      else if c = 45 then (-(atou (2 ^ 63) s).1, (atou (2 ^ 63) s).2)
      else ((atou (2 ^ 63 - 1) (c :: s)).1, (atou (2 ^ 63 - 1) (c :: s)).2)

theorem isDigit_digit {d : Nat} (h : d < 10) : isDigit (digit d) = true := by
  simp only [isDigit, Bool.and_eq_true, decide_eq_true_eq, UInt8.le_iff_toNat_le,
    digit_toNat_dec h]
  exact ⟨Nat.le_add_right 48 d, by show 48 + d ≤ 57; omega⟩

theorem decVal_padded (w n : Nat) : decVal (padded 10 w n) = n % 10 ^ w := by
  induction w with
  | zero => simp [padded, decVal, Nat.mod_one]
  | succ w ih =>
      have hd := digit_toNat_dec (d := n / 10 ^ w % 10) (Nat.mod_lt _ (by decide))
      rw [padded, decVal, length_padded, ih, hd, Nat.add_sub_cancel_left, Nat.pow_succ,
        Nat.mod_mul]
      ring

/-- **`Atoi` reads back what `%0wd` printed.** -/
theorem atoi_fmtDec {w n : Nat} (hw : 0 < w) (hn : n < 10 ^ w) (hmax : n < 2 ^ 63) :
    atoi (fmtDec w n) = ((n : Int), true) := by
  have hval : decVal (padded 10 w n) = n := by rw [decVal_padded, Nat.mod_eq_of_lt hn]
  have hall : (padded 10 w n).all isDigit = true := by
    rw [List.all_eq_true]
    intro x hx
    obtain ⟨d, hd, rfl⟩ := mem_padded (by decide) hx
    exact isDigit_digit hd
  have hu : atou (2 ^ 63 - 1) (padded 10 w n) = (n, true) := by
    have hne : (padded 10 w n).isEmpty = false := by
      rw [List.isEmpty_eq_false_iff, ← List.length_pos_iff, length_padded]
      exact hw
    have hle : n ≤ 2 ^ 63 - 1 := by omega
    rw [atou, hne, hall, hval, if_pos hle]
    rfl
  rw [fmtDec, if_pos hn]
  cases hp : padded 10 w n with
  | nil =>
      have := length_padded 10 w n
      rw [hp] at this
      simp at this
      omega
  | cons c s =>
      have hc : isDigit c = true := by
        rw [hp, List.all_cons, Bool.and_eq_true] at hall
        exact hall.1
      have h43 : c ≠ 43 := by rintro rfl; exact absurd hc (by decide)
      have h45 : c ≠ 45 := by rintro rfl; exact absurd hc (by decide)
      rw [hp] at hu
      simp only [atoi, if_neg h43, if_neg h45, hu]

/-! ## Splitting -/

/-- `strings.SplitN(s, sep, 2)`: what stands before and after the first
separator, if there is one. -/
def splitFirst (sep : UInt8) : Bytes → Option (Bytes × Bytes)
  | [] => none
  | c :: s => if c = sep then some ([], s) else (splitFirst sep s).map fun p => (c :: p.1, p.2)

/-- `strings.Split(s, sep)`: the fields between separators. -/
def splitAll (sep : UInt8) : Bytes → List Bytes
  | [] => [[]]
  | c :: s =>
      match splitAll sep s with
      | [] => [[c]]
      | f :: fs => if c = sep then [] :: f :: fs else (c :: f) :: fs

theorem splitFirst_append {sep : UInt8} {a : Bytes} (h : sep ∉ a) (b : Bytes) :
    splitFirst sep (a ++ sep :: b) = some (a, b) := by
  induction a with
  | nil => simp [splitFirst]
  | cons c a ih =>
      have hc : c ≠ sep := fun he => h (he ▸ List.mem_cons_self)
      have ha : sep ∉ a := fun hm => h (List.mem_cons_of_mem _ hm)
      simp [splitFirst, hc, ih ha]

theorem eq_of_splitFirst {sep : UInt8} {s a b : Bytes} (h : splitFirst sep s = some (a, b)) :
    s = a ++ sep :: b := by
  induction s generalizing a with
  | nil => cases h
  | cons c s ih =>
      rw [splitFirst] at h
      split_ifs at h with hc
      · cases h
        rw [hc]
        rfl
      · obtain ⟨⟨x, y⟩, hs, hp⟩ := Option.map_eq_some_iff.mp h
        cases hp
        rw [ih hs]
        rfl

theorem splitAll_of_notMem {sep : UInt8} {a : Bytes} (h : sep ∉ a) : splitAll sep a = [a] := by
  induction a with
  | nil => rfl
  | cons c a ih =>
      have hc : c ≠ sep := fun he => h (he ▸ List.mem_cons_self)
      have ha : sep ∉ a := fun hm => h (List.mem_cons_of_mem _ hm)
      simp [splitAll, ih ha, hc]

theorem splitAll_append {sep : UInt8} {a : Bytes} (h : sep ∉ a) (b : Bytes) :
    splitAll sep (a ++ sep :: b) = a :: splitAll sep b := by
  have hne : ∀ s, splitAll sep s ≠ [] := by
    intro s
    cases s with
    | nil => simp [splitAll]
    | cons c s =>
        simp only [splitAll]
        split
        · simp
        · split_ifs <;> simp
  induction a with
  | nil =>
      simp only [List.nil_append, splitAll]
      cases hs : splitAll sep b with
      | nil => exact absurd hs (hne b)
      | cons f fs => simp
  | cons c a ih =>
      have hc : c ≠ sep := fun he => h (he ▸ List.mem_cons_self)
      have ha : sep ∉ a := fun hm => h (List.mem_cons_of_mem _ hm)
      simp [splitAll, ih ha, hc]

end Bbdb.Text
