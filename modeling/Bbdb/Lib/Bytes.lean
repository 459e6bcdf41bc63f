import Mathlib.Data.List.Lex
import Mathlib.Tactic.Linarith
import Mathlib.Tactic.Ring

/-!
# Byte strings — order and big-endian numbers

The byte-level vocabulary every layout of the development is stated in:
byte strings are `List UInt8` under lexicographic order (the order of an
ordered byte-key store), `be w n` is the `w`-byte big-endian encoding of
`n`, and `beNat` reads it back.

The order lemmas are the ones a range scan consumes: a shared prefix is
cancelled (`append_lt_append_left`), two different prefixes of one length
decide the comparison (`append_lt_append_of_lt`), and a half-open range
whose bounds differ by one in the last byte holds exactly the extensions
of its lower bound (`mem_prefixRange`).
-/

namespace Bbdb

/-- A byte string; Go's `[]byte` and `string` alike. -/
abbrev Bytes := List UInt8

/-- The bytes of an ASCII literal. -/
def ascii (s : String) : Bytes := s.toList.map fun c => UInt8.ofNat c.toNat

/-- The numeric order on bytes, packaged for Mathlib's order library. -/
instance instLinearOrderByte : LinearOrder UInt8 where
  le_refl a := UInt8.le_refl a
  le_trans _ _ _ := UInt8.le_trans
  lt_iff_le_not_ge a b := by
    simp only [UInt8.lt_iff_toNat_lt, UInt8.le_iff_toNat_le]
    omega
  le_antisymm _ _ := UInt8.le_antisymm
  le_total a b := UInt8.le_total a b
  toDecidableLE := inferInstance
  toDecidableLT := inferInstance
  toDecidableEq := inferInstance

namespace Bytes

/-! ## Lexicographic order -/

section Order

variable {α : Type*} [LinearOrder α]

/-- A shared prefix does not take part in a comparison. -/
theorem append_lt_append_left (p a b : List α) : p ++ a < p ++ b ↔ a < b := by
  induction p with
  | nil => rfl
  | cons x p ih =>
      simp only [List.cons_append, List.cons_lt_cons_iff, lt_irrefl, false_or, true_and, ih]

theorem append_le_append_left (p a b : List α) : p ++ a ≤ p ++ b ↔ a ≤ b := by
  rw [← not_lt, ← not_lt, append_lt_append_left]

/-- Two prefixes of one length that differ decide the comparison. -/
theorem append_lt_append_of_lt {p q : List α} (hlen : p.length = q.length) (h : p < q)
    (a b : List α) : p ++ a < q ++ b := by
  induction p generalizing q with
  | nil =>
      have hq : q = [] := List.length_eq_zero_iff.mp hlen.symm
      subst hq
      exact absurd h (lt_irrefl _)
  | cons x p ih =>
      cases q with
      | nil => simp at hlen
      | cons y q =>
          rw [List.cons_lt_cons_iff] at h
          rw [List.cons_append, List.cons_append, List.cons_lt_cons_iff]
          rcases h with h | ⟨rfl, h⟩
          · exact Or.inl h
          · exact Or.inr ⟨rfl, ih (by simpa using hlen) h⟩

/-- Comparison of two strings with prefixes of one length: the prefixes
first, then what follows them. -/
theorem append_lt_append_iff {p q : List α} (hlen : p.length = q.length) (a b : List α) :
    p ++ a < q ++ b ↔ p < q ∨ p = q ∧ a < b := by
  rcases lt_trichotomy p q with h | rfl | h
  · exact ⟨fun _ => Or.inl h, fun _ => append_lt_append_of_lt hlen h a b⟩
  · simp [append_lt_append_left]
  · have hlt := append_lt_append_of_lt hlen.symm h b a
    constructor
    · intro hc
      exact absurd (hc.trans hlt) (lt_irrefl _)
    · rintro (hc | ⟨rfl, -⟩)
      · exact absurd (hc.trans h) (lt_irrefl _)
      · exact absurd h (lt_irrefl _)

/-- A string is at least every one of its prefixes. -/
theorem le_append_right (p a : List α) : p ≤ p ++ a := by
  have hnil : ([] : List α) ≤ a := not_lt.mp (List.not_lt_nil a)
  simpa using (append_le_append_left p [] a).mpr hnil

/-- The half-open range between `q ++ [c]` and `q ++ [d]`, for `d` the
successor of `c`, holds exactly the strings that extend `q ++ [c]`. -/
theorem mem_prefixRange {q k : List α} {c d : α} (hcd : c < d)
    (hsucc : ∀ x, c < x → ¬ x < d) :
    (q ++ [c] ≤ k ∧ k < q ++ [d]) ↔ q ++ [c] <+: k := by
  constructor
  · rintro ⟨hlo, hhi⟩
    induction q generalizing k with
    | nil =>
        cases k with
        | nil => exact absurd (List.nil_lt_cons c []) (not_lt.mpr hlo)
        | cons x k =>
            simp only [List.nil_append, List.cons_lt_cons_iff] at hhi
            have hxd : x < d := by
              rcases hhi with h | ⟨_, h⟩
              · exact h
              · exact absurd h (by simp)
            have hcx : ¬ x < c := by
              intro hxc
              apply absurd hlo
              rw [not_le]
              exact List.cons_lt_cons_iff.mpr (Or.inl hxc)
            rcases lt_trichotomy x c with h | rfl | h
            · exact absurd h hcx
            · exact ⟨k, rfl⟩
            · exact absurd hxd (hsucc x h)
    | cons y q ih =>
        cases k with
        | nil => exact absurd (List.nil_lt_cons y (q ++ [c])) (not_lt.mpr hlo)
        | cons x k =>
            simp only [List.cons_append] at hlo hhi ⊢
            rw [List.cons_lt_cons_iff] at hhi
            rw [← not_lt, List.cons_lt_cons_iff, not_or] at hlo
            obtain ⟨hxy, hlo⟩ := hlo
            rcases hhi with h | ⟨rfl, hhi⟩
            · exact absurd h hxy
            · obtain ⟨t, ht⟩ := ih (not_lt.mp fun h => hlo ⟨rfl, h⟩) hhi
              exact ⟨t, by simpa using ht⟩
  · rintro ⟨t, rfl⟩
    refine ⟨le_append_right _ _, ?_⟩
    rw [List.append_assoc, append_lt_append_left]
    simp [List.cons_lt_cons_iff, hcd]

/-- A string between two extensions of `p` extends `p`. -/
theorem prefix_of_mem_range {p a b k : List α} (hlo : p ++ a ≤ k) (hhi : k < p ++ b) : p <+: k := by
  induction p generalizing k with
  | nil => exact List.nil_prefix
  | cons x p ih =>
      cases k with
      | nil => exact absurd (List.nil_lt_cons x (p ++ a)) (not_lt.mpr hlo)
      | cons y k =>
          simp only [List.cons_append] at hlo hhi
          rw [← not_lt, List.cons_lt_cons_iff, not_or] at hlo
          rw [List.cons_lt_cons_iff] at hhi
          rcases hhi with h | ⟨rfl, hhi⟩
          · exact absurd h hlo.1
          · have hle : p ++ a ≤ k := not_lt.mp fun h => hlo.2 ⟨rfl, h⟩
            exact List.cons_prefix_cons.mpr ⟨rfl, ih hle hhi⟩

end Order

/-! ## Big-endian numbers -/

/-- The `w` low bytes of `n`, most significant first. -/
def be : Nat → Nat → Bytes
  | 0, _ => []
  | w + 1, n => UInt8.ofNat (n / 256 ^ w) :: be w n

/-- The number a big-endian byte string denotes. -/
def beNat : Bytes → Nat
  | [] => 0
  | b :: bs => b.toNat * 256 ^ bs.length + beNat bs

@[simp] theorem length_be (w n : Nat) : (be w n).length = w := by
  induction w with
  | zero => rfl
  | succ w ih => simp [be, ih]

/-- The encoding only looks at the low `w` bytes. -/
theorem be_mod (w n m : Nat) (h : n % 256 ^ w = m % 256 ^ w) : be w n = be w m := by
  induction w with
  | zero => rfl
  | succ w ih =>
      have hw : n % 256 ^ w = m % 256 ^ w := by
        have hd : 256 ^ w ∣ 256 ^ (w + 1) := Nat.pow_dvd_pow _ (Nat.le_succ w)
        rw [← Nat.mod_mod_of_dvd n hd, ← Nat.mod_mod_of_dvd m hd, h]
      have hq : n / 256 ^ w % 256 = m / 256 ^ w % 256 := by
        rw [← Nat.mod_mul_right_div_self, ← Nat.mod_mul_right_div_self, ← Nat.pow_succ, h]
      have hb : UInt8.ofNat (n / 256 ^ w) = UInt8.ofNat (m / 256 ^ w) := by
        apply UInt8.toNat_inj.mp
        simpa using hq
      rw [be, be, hb, ih hw]

theorem beNat_be (w n : Nat) : beNat (be w n) = n % 256 ^ w := by
  induction w with
  | zero => simp [be, beNat, Nat.mod_one]
  | succ w ih =>
      have hb : (UInt8.ofNat (n / 256 ^ w)).toNat = n / 256 ^ w % 256 := by simp
      rw [be, beNat, length_be, ih, hb, Nat.pow_succ, Nat.mod_mul]
      ring

theorem beNat_be_of_lt {w n : Nat} (h : n < 256 ^ w) : beNat (be w n) = n := by
  rw [beNat_be, Nat.mod_eq_of_lt h]

theorem beNat_lt (bs : Bytes) : beNat bs < 256 ^ bs.length := by
  induction bs with
  | nil => simp [beNat]
  | cons b bs ih =>
      have hb : b.toNat < 256 := UInt8.toNat_lt b
      have hmul : (b.toNat + 1) * 256 ^ bs.length ≤ 256 * 256 ^ bs.length :=
        Nat.mul_le_mul_right _ hb
      rw [beNat, List.length_cons, Nat.pow_succ]
      linarith

/-- Every byte string is the encoding of the number it denotes. -/
theorem be_beNat (bs : Bytes) : be bs.length (beNat bs) = bs := by
  induction bs with
  | nil => rfl
  | cons b bs ih =>
      have hlt := beNat_lt bs
      have hpos : 0 < 256 ^ bs.length := Nat.pow_pos (by decide)
      have hq : (b.toNat * 256 ^ bs.length + beNat bs) / 256 ^ bs.length = b.toNat := by
        rw [Nat.mul_comm, Nat.mul_add_div hpos, Nat.div_eq_of_lt hlt, Nat.add_zero]
      have hr : be bs.length (b.toNat * 256 ^ bs.length + beNat bs)
          = be bs.length (beNat bs) :=
        be_mod _ _ _ (by simp [Nat.add_mod])
      rw [beNat, List.length_cons, be, hq, hr, ih, UInt8.ofNat_toNat]

/-- Numbers compare by what stands above a digit boundary, then by what is
left below it. -/
theorem lt_iff_div_mod (b n m : Nat) : n < m ↔ n / b < m / b ∨ n / b = m / b ∧ n % b < m % b := by
  have hn := Nat.div_add_mod n b
  have hm := Nat.div_add_mod m b
  constructor
  · intro h
    rcases Nat.lt_or_ge (n / b) (m / b) with hq | hq
    · exact Or.inl hq
    · have heq : n / b = m / b := Nat.le_antisymm (Nat.div_le_div_right (Nat.le_of_lt h)) hq
      rw [← hn, ← hm, heq] at h
      exact Or.inr ⟨heq, Nat.lt_of_add_lt_add_left h⟩
  · rintro (h | ⟨h, hr⟩)
    · by_contra hc
      exact absurd (Nat.div_le_div_right (not_lt.mp hc)) (not_le.mpr h)
    · rw [← hn, ← hm, h]
      exact Nat.add_lt_add_left hr _

/-- Big-endian encodings of one width compare as the numbers do. -/
theorem be_lt_be {w n m : Nat} (hn : n < 256 ^ w) (hm : m < 256 ^ w) :
    be w n < be w m ↔ n < m := by
  induction w generalizing n m with
  | zero =>
      simp only [Nat.pow_zero, Nat.lt_one_iff] at hn hm
      simp [be, hn, hm]
  | succ w ih =>
      have hpos : 0 < 256 ^ w := Nat.pow_pos (by decide)
      have hnq : n / 256 ^ w < 256 := Nat.div_lt_of_lt_mul (by rwa [Nat.pow_succ] at hn)
      have hmq : m / 256 ^ w < 256 := Nat.div_lt_of_lt_mul (by rwa [Nat.pow_succ] at hm)
      have hnb : (UInt8.ofNat (n / 256 ^ w)).toNat = n / 256 ^ w := by simpa using hnq
      have hmb : (UInt8.ofNat (m / 256 ^ w)).toNat = m / 256 ^ w := by simpa using hmq
      have htail : be w n < be w m ↔ n % 256 ^ w < m % 256 ^ w := by
        rw [be_mod w n (n % 256 ^ w) (Nat.mod_mod _ _).symm,
          be_mod w m (m % 256 ^ w) (Nat.mod_mod _ _).symm,
          ih (Nat.mod_lt _ hpos) (Nat.mod_lt _ hpos)]
      rw [be, be, List.cons_lt_cons_iff, htail, UInt8.lt_iff_toNat_lt, hnb, hmb,
        ← UInt8.toNat_inj, hnb, hmb]
      exact (lt_iff_div_mod _ _ _).symm

/-! ## Fixed-width integers

`put` and `get` of package `encoding/binary`, big-endian: what `PutUintN`
writes at the start of a buffer and what `UintN` reads there. -/

def putUint16 (x : UInt16) : Bytes := be 2 x.toNat

def putUint32 (x : UInt32) : Bytes := be 4 x.toNat

def putUint64 (x : UInt64) : Bytes := be 8 x.toNat

def getUint16 (b : Bytes) : UInt16 := UInt16.ofNat (beNat (b.take 2))

def getUint32 (b : Bytes) : UInt32 := UInt32.ofNat (beNat (b.take 4))

def getUint64 (b : Bytes) : UInt64 := UInt64.ofNat (beNat (b.take 8))

@[simp] theorem length_putUint16 (x : UInt16) : (putUint16 x).length = 2 := length_be _ _

@[simp] theorem length_putUint32 (x : UInt32) : (putUint32 x).length = 4 := length_be _ _

@[simp] theorem length_putUint64 (x : UInt64) : (putUint64 x).length = 8 := length_be _ _

@[simp] theorem getUint16_put (x : UInt16) (r : Bytes) : getUint16 (putUint16 x ++ r) = x := by
  rw [getUint16, List.take_left' (length_putUint16 x), putUint16, beNat_be_of_lt (UInt16.toNat_lt x),
    UInt16.ofNat_toNat]

@[simp] theorem getUint32_put (x : UInt32) (r : Bytes) : getUint32 (putUint32 x ++ r) = x := by
  rw [getUint32, List.take_left' (length_putUint32 x), putUint32, beNat_be_of_lt (UInt32.toNat_lt x),
    UInt32.ofNat_toNat]

@[simp] theorem getUint64_put (x : UInt64) (r : Bytes) : getUint64 (putUint64 x ++ r) = x := by
  rw [getUint64, List.take_left' (length_putUint64 x), putUint64, beNat_be_of_lt (UInt64.toNat_lt x),
    UInt64.ofNat_toNat]

@[simp] theorem getUint64_put_nil (x : UInt64) : getUint64 (putUint64 x) = x := by
  simpa using getUint64_put x []

@[simp] theorem drop_putUint16 {x : UInt16} {r : Bytes} {k : Nat} (h : 2 ≤ k) :
    (putUint16 x ++ r).drop k = r.drop (k - 2) := by
  rw [List.drop_append, List.drop_eq_nil_of_le (by simpa using h), length_putUint16,
    List.nil_append]

@[simp] theorem drop_putUint32 {x : UInt32} {r : Bytes} {k : Nat} (h : 4 ≤ k) :
    (putUint32 x ++ r).drop k = r.drop (k - 4) := by
  rw [List.drop_append, List.drop_eq_nil_of_le (by simpa using h), length_putUint32,
    List.nil_append]

@[simp] theorem drop_putUint64 {x : UInt64} {r : Bytes} {k : Nat} (h : 8 ≤ k) :
    (putUint64 x ++ r).drop k = r.drop (k - 8) := by
  rw [List.drop_append, List.drop_eq_nil_of_le (by simpa using h), length_putUint64,
    List.nil_append]

/-- The first `w` bytes are the encoding of the number they denote. -/
theorem be_beNat_take {w : Nat} {b : Bytes} (h : w ≤ b.length) :
    be w (beNat (b.take w)) = b.take w := by
  have hself := be_beNat (b.take w)
  rwa [List.length_take_of_le h] at hself

theorem beNat_take_lt (w : Nat) (b : Bytes) : beNat (b.take w) < 256 ^ w := by
  have hle : (b.take w).length ≤ w := List.length_take_le w b
  exact (beNat_lt _).trans_le (Nat.pow_le_pow_right (by decide) hle)

/-! A number read is a number that would be written. -/

theorem putUint16_get {b : Bytes} (h : 2 ≤ b.length) : putUint16 (getUint16 b) = b.take 2 := by
  have hlt : beNat (b.take 2) < 2 ^ 16 := beNat_take_lt 2 b
  rw [putUint16, getUint16, UInt16.toNat_ofNat', Nat.mod_eq_of_lt hlt, be_beNat_take h]

theorem putUint32_get {b : Bytes} (h : 4 ≤ b.length) : putUint32 (getUint32 b) = b.take 4 := by
  have hlt : beNat (b.take 4) < 2 ^ 32 := beNat_take_lt 4 b
  rw [putUint32, getUint32, UInt32.toNat_ofNat', Nat.mod_eq_of_lt hlt, be_beNat_take h]

theorem putUint64_get {b : Bytes} (h : 8 ≤ b.length) : putUint64 (getUint64 b) = b.take 8 := by
  have hlt : beNat (b.take 8) < 2 ^ 64 := beNat_take_lt 8 b
  rw [putUint64, getUint64, UInt64.toNat_ofNat', Nat.mod_eq_of_lt hlt, be_beNat_take h]

theorem putUint64_inj {x y : UInt64} : putUint64 x = putUint64 y ↔ x = y :=
  ⟨fun h => by rw [← getUint64_put_nil x, ← getUint64_put_nil y, h], fun h => h ▸ rfl⟩

/-! What is left of a byte string after its first bytes, as one more field and
the rest. -/

theorem drop_eq_getD_cons {b : Bytes} {n : Nat} (h : n < b.length) :
    b.drop n = b.getD n 0 :: b.drop (n + 1) := by
  rw [List.drop_eq_getElem_cons h, List.getD_eq_getElem?_getD, List.getElem?_eq_getElem h,
    Option.getD_some]

theorem drop_eq_putUint16 {b : Bytes} {n : Nat} (h : n + 2 ≤ b.length) :
    b.drop n = putUint16 (getUint16 (b.drop n)) ++ b.drop (n + 2) := by
  rw [putUint16_get (by rw [List.length_drop]; omega), ← List.drop_drop, List.take_append_drop]

theorem drop_eq_putUint64 {b : Bytes} {n : Nat} (h : n + 8 ≤ b.length) :
    b.drop n = putUint64 (getUint64 (b.drop n)) ++ b.drop (n + 8) := by
  rw [putUint64_get (by rw [List.length_drop]; omega), ← List.drop_drop, List.take_append_drop]

theorem putUint64_lt {x y : UInt64} : putUint64 x < putUint64 y ↔ x < y := by
  rw [putUint64, putUint64, be_lt_be (UInt64.toNat_lt x) (UInt64.toNat_lt y),
    UInt64.lt_iff_toNat_lt]

theorem putUint16_lt {x y : UInt16} : putUint16 x < putUint16 y ↔ x < y := by
  rw [putUint16, putUint16, be_lt_be (UInt16.toNat_lt x) (UInt16.toNat_lt y),
    UInt16.lt_iff_toNat_lt]

end Bytes

end Bbdb
