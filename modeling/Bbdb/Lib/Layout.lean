import Bbdb.Lib.Bytes
import Mathlib.Logic.Equiv.Defs

/-!
# Layouts — records of fixed width

A layout says how a value is written as a fixed number of bytes and read
back from the start of a buffer. Reading and writing are inverse in both
directions: a written value reads back (`get_put`), and the bytes that were
read are the ones that would be written (`put_get`), so no byte of a layout
is unused.

Layouts are put together field after field (`seq`); `map` renames the fields
into a record.
-/

namespace Bbdb

open Bytes

/-- How the values of `α` are written in `width` bytes. -/
structure Layout (α : Type*) where
  width : Nat
  put : α → Bytes
  get : Bytes → α
  length_put : ∀ a, (put a).length = width
  get_put : ∀ a r, get (put a ++ r) = a
  put_get : ∀ b, width ≤ b.length → put (get b) = b.take width

namespace Layout

variable {α β : Type*}

/-! ## Single fields -/

/-- One byte. -/
def uint8 : Layout UInt8 where
  width := 1
  put x := [x]
  get b := b.getD 0 0
  length_put _ := rfl
  get_put _ _ := rfl
  put_get b h := by
    cases b with
    | nil => simp at h
    | cons x b => rfl

def uint16 : Layout UInt16 where
  width := 2
  put := putUint16
  get := getUint16
  length_put := length_putUint16
  get_put := getUint16_put
  put_get _ := putUint16_get

def uint32 : Layout UInt32 where
  width := 4
  put := putUint32
  get := getUint32
  length_put := length_putUint32
  get_put := getUint32_put
  put_get _ := putUint32_get

def uint64 : Layout UInt64 where
  width := 8
  put := putUint64
  get := getUint64
  length_put := length_putUint64
  get_put := getUint64_put
  put_get _ := putUint64_get

/-! ## Records -/

/-- The same bytes, read as another type. -/
def map (L : Layout α) (e : α ≃ β) : Layout β where
  width := L.width
  put b := L.put (e.symm b)
  get b := e (L.get b)
  length_put b := L.length_put _
  get_put b r := by rw [L.get_put, e.apply_symm_apply]
  put_get b h := by rw [e.symm_apply_apply, L.put_get b h]

/-- One field after another. -/
def seq (A : Layout α) (B : Layout β) : Layout (α × β) where
  width := A.width + B.width
  put p := A.put p.1 ++ B.put p.2
  get b := (A.get b, B.get (b.drop A.width))
  length_put p := by rw [List.length_append, A.length_put, B.length_put]
  get_put p r := by
    rw [List.append_assoc, A.get_put, List.drop_left' (A.length_put _), B.get_put]
  put_get b h := by
    have hB : B.width ≤ (b.drop A.width).length := by rw [List.length_drop]; omega
    rw [A.put_get b (by omega), B.put_get _ hB, List.take_add]

/-- An eight-byte field that holds a signed number. -/
def int64 : Layout Int64 :=
  uint64.map
    { toFun := UInt64.toInt64
      invFun := Int64.toUInt64
      left_inv := fun x => by simp
      right_inv := fun x => by simp }

/-! ## A buffer is what is read from it -/

/-- A long enough buffer starts with what was read from it. -/
theorem eq_put_append (L : Layout α) {b : Bytes} (h : L.width ≤ b.length) :
    b = L.put (L.get b) ++ b.drop L.width := by
  rw [L.put_get b h, List.take_append_drop]

/-- A buffer of the layout's width is what is written for what was read from it. -/
theorem put_get_self (L : Layout α) {b : Bytes} (h : b.length = L.width) : L.put (L.get b) = b := by
  rw [L.put_get b (Nat.le_of_eq h.symm), ← h, List.take_length]

/-- A written value reads back, with nothing after it. -/
theorem get_put_self (L : Layout α) (a : α) : L.get (L.put a) = a := by
  rw [← List.append_nil (L.put a), L.get_put]

end Layout

end Bbdb
