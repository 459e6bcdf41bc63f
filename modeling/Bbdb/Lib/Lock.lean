import Mathlib.Tactic.SplitIfs

/-!
# Readers-writer locks

A lock knows who holds it: any number of readers, or one writer. `rlock` and
`lock` are not enabled while the lock is taken by someone who excludes them.
-/

namespace Bbdb

structure RWMutex (ι : Type) where
  readers : List ι
  writer : Option ι

namespace RWMutex

variable {ι : Type}

/-- The zero value: nobody holds the lock. -/
def free : RWMutex ι := ⟨[], none⟩

def rlock (m : RWMutex ι) (i : ι) : Option (RWMutex ι) :=
  if m.writer.isNone then some { m with readers := i :: m.readers } else none

def runlock [DecidableEq ι] (m : RWMutex ι) (i : ι) : RWMutex ι :=
  { m with readers := m.readers.erase i }

def lock (m : RWMutex ι) (i : ι) : Option (RWMutex ι) :=
  if m.writer.isNone ∧ m.readers.isEmpty then some { m with writer := some i } else none

def unlock (m : RWMutex ι) : RWMutex ι := { m with writer := none }

variable {m m' : RWMutex ι} {i : ι}

theorem rlock_eq_some (h : m.rlock i = some m') :
    m.writer = none ∧ m' = { m with readers := i :: m.readers } := by
  rw [rlock] at h
  split_ifs at h with hw
  cases h
  exact ⟨Option.isNone_iff_eq_none.mp hw, rfl⟩

theorem lock_eq_some (h : m.lock i = some m') :
    m.writer = none ∧ m.readers = [] ∧ m' = { m with writer := some i } := by
  rw [lock] at h
  split_ifs at h with hw
  cases h
  exact ⟨Option.isNone_iff_eq_none.mp hw.1, List.isEmpty_iff.mp hw.2, rfl⟩

end RWMutex

end Bbdb
