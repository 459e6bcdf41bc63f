import Bbdb.Lib.Bytes
import Bbdb.Lib.OrdMap
import Bbdb.Lib.Prog

/-!
# The machine the database runs on

Pebble, the file system and the clock, and the atomic operations the code
performs on them. Pebble is an ordered byte-key map whose unsynced batches
a crash may lose from the end (`Pebble.Crash`); the file system is a map
from paths to contents with atomic rename.

`Op.exec` is what an operation does when nothing goes wrong. `sem` is the
semantics runs are taken in: the clock may have advanced, a context may have
been cancelled, and every fallible operation may also fail with an I/O
error, in which case only a write can have left a trace (a prefix of its
data).
-/

namespace Bbdb

/-- Go error values, as far as the code tells them apart. -/
inductive Err where
  /-- Any failure of the file system, of pebble or of a library. -/
  | io
  /-- `os.ErrNotExist`. -/
  | notExist
  /-- `pebble.ErrNotFound`. -/
  | pebbleNotFound
  /-- `meta.ErrNotFound`. -/
  | notFound
  /-- `errors.New(text)`, or `fmt.Errorf` without `%w`. -/
  | msg (text : String)
  /-- `fmt.Errorf("text: %w", e)`. -/
  | wrap (text : String) (e : Err)
  /-- A run-time panic, which no caller recovers. -/
  | panic (text : String)
  deriving DecidableEq, Repr

/-- `errors.Is`: some error of the chain is `target`. -/
def Err.is (target : Err) : Err → Bool
  | .wrap text e => .wrap text e = target || Err.is target e
  | e => e = target

/-! ## Pebble -/

/-- A pebble state as its readers see it. -/
abbrev KV := OrdMap Bytes Bytes

/-- One entry of a pebble batch. -/
inductive BatchOp where
  | set (k v : Bytes)
  | delete (k : Bytes)
  | deleteRange (lo hi : Bytes)
  deriving DecidableEq, Repr

/-- A batch: its entries take effect together, in order. -/
abbrev Batch := List BatchOp

/-- The bindings a batch sets, in order. -/
def Batch.sets (b : Batch) : List (Bytes × Bytes) :=
  b.filterMap fun
    | .set k v => some (k, v)
    | _ => none

def BatchOp.apply : BatchOp → KV → KV
  | .set k v, m => m.set k v
  | .delete k, m => m.erase k
  | .deleteRange lo hi, m => m.eraseRange lo hi

def Batch.apply (b : Batch) (m : KV) : KV := b.foldl (fun m o => o.apply m) m

/-- Pebble: what is durable, and the batches committed since with `NoSync`. -/
structure Pebble where
  synced : KV
  pending : List Batch

namespace Pebble

/-- What a reader sees: every committed batch. -/
def view (d : Pebble) : KV := d.pending.foldl (fun m b => Batch.apply b m) d.synced

/-- `Batch.Commit`: a `Sync` commit makes itself and everything before it
durable, a `NoSync` commit waits for the next one. -/
def commit (d : Pebble) (b : Batch) (sync : Bool) : Pebble :=
  if sync then { synced := Batch.apply b d.view, pending := [] }
  else { d with pending := d.pending ++ [b] }

/-- A crash keeps the synced state and some of the pending batches, without
a gap. -/
def Crash (d d' : Pebble) : Prop :=
  ∃ n, d' = { synced := (d.pending.take n).foldl (fun m b => Batch.apply b m) d.synced,
              pending := [] }

def empty : Pebble := { synced := OrdMap.empty, pending := [] }

/-- Readers see a batch as soon as it is committed, synced or not. -/
@[simp] theorem view_commit (d : Pebble) (b : Batch) (sync : Bool) :
    (d.commit b sync).view = Batch.apply b d.view := by
  cases sync with
  | true => rfl
  | false => simp [commit, view, List.foldl_append]

@[simp] theorem pending_commit_sync (d : Pebble) (b : Batch) :
    (d.commit b true).pending = [] := rfl

end Pebble

/-! ## Files -/

/-- A cleaned path, component by component. -/
abbrev Path := List Bytes

/-- The file system: the contents of every existing file. -/
abbrev FS := Path → Option Bytes

/-- Replace (or remove) one file. -/
def FS.put (fs : FS) (p : Path) (c : Option Bytes) : FS := fun q => if q = p then c else fs q

@[simp] theorem FS.put_self (fs : FS) (p : Path) (c : Option Bytes) : fs.put p c p = c := if_pos rfl

theorem FS.put_ne (fs : FS) {p q : Path} (c : Option Bytes) (h : q ≠ p) : fs.put p c q = fs q :=
  if_neg h

/-! ## Operations -/

/-- Instants, in nanoseconds since the Unix epoch. -/
abbrev Time := Int

/-- The state of the machine that outlives a function call. -/
structure World where
  db : Pebble
  fs : FS
  clock : Time

/-- Replace (or remove) one file. -/
def World.setFile (w : World) (p : Path) (c : Option Bytes) : World :=
  { w with fs := w.fs.put p c }

@[simp] theorem World.setFile_fs (w : World) (p : Path) (c : Option Bytes) :
    (w.setFile p c).fs = w.fs.put p c := rfl

@[simp] theorem World.setFile_db (w : World) (p : Path) (c : Option Bytes) :
    (w.setFile p c).db = w.db := rfl

@[simp] theorem World.setFile_setFile (w : World) (p : Path) (a b : Option Bytes) :
    (w.setFile p a).setFile p b = w.setFile p b := by
  simp only [World.setFile, World.mk.injEq, true_and, and_true]
  funext q
  by_cases hq : q = p
  · simp [FS.put, hq]
  · simp [FS.put, hq]

/-- Commit a batch. -/
def World.commit (w : World) (b : Batch) (sync : Bool) : World :=
  { w with db := w.db.commit b sync }

@[simp] theorem World.commit_fs (w : World) (b : Batch) (sync : Bool) :
    (w.commit b sync).fs = w.fs := rfl

@[simp] theorem World.commit_db (w : World) (b : Batch) (sync : Bool) :
    (w.commit b sync).db = w.db.commit b sync := rfl

/-- The world after a clock reading. -/
def readClock (w : World) (t : Time) : World := { w with clock := t }

/-- A crash and restart: completed file operations are durable, pebble
keeps what `Pebble.Crash` lets it keep, time goes on. -/
structure World.Crash (w w' : World) : Prop where
  db : w.db.Crash w'.db
  fs : w'.fs = w.fs
  clock : w.clock ≤ w'.clock

/-- What is left if a crash takes every batch that was not synced. -/
def World.syncedOnly (w : World) : World := { w with db := ⟨w.db.synced, []⟩ }

theorem World.crash_syncedOnly (w : World) : w.Crash w.syncedOnly := ⟨⟨0, rfl⟩, rfl, le_refl _⟩

/-- The atomic operations of the code. -/
inductive Op where
  /-- `time.Now`. -/
  | now
  /-- `ctx.Err() != nil`. -/
  | ctxErr
  | mkdirAll (dir : Path)
  /-- `os.Create`: create or truncate. -/
  | create (p : Path)
  /-- `File.Write` on the file created at `p`. -/
  | write (p : Path) (data : Bytes)
  /-- `File.Sync`. -/
  | fsync (p : Path)
  /-- The size of a file; also the existence test of `os.Stat`. -/
  | stat (p : Path)
  | remove (p : Path)
  | rename (src dst : Path)
  /-- `os.ReadFile`, and `os.Open` followed by reads of the opened file. -/
  | readFile (p : Path)
  /-- `pebble.DB.Get`. -/
  | get (k : Bytes)
  /-- `Batch.Commit`, and `DB.Set` and `DB.Delete` as batches of one entry. -/
  | commit (b : Batch) (sync : Bool)
  /-- A full pass of an iterator over `[lo, hi)`. -/
  | iter (lo hi : Bytes)

/-- What an operation answers. -/
def Op.Res : Op → Type
  | .now => Time
  | .ctxErr => Bool
  | .stat _ => Except Err Nat
  | .readFile _ => Except Err Bytes
  | .get _ => Except Err Bytes
  | .iter _ _ => Except Err (List (Bytes × Bytes))
  | _ => Except Err Unit

/-- The signature of the machine. -/
def machine : Sig := { Op := Op, Res := Op.Res }

/-- File offsets are non-negative `int64` values. -/
def maxFileSize : Nat := 2 ^ 63

/-- The runtime allocates no slice that is longer than its address space. -/
def maxAlloc : Nat := 2 ^ 48

/-- `File.Write` appends; a file cannot grow past the largest offset. -/
def World.writeFile (w : World) (p : Path) (data : Bytes) : Except Err Unit × World :=
  match w.fs p with
  | none => (.ok (), w)
  | some old =>
      if old.length + data.length < maxFileSize then
        (.ok (), w.setFile p (some (old ++ data)))
      else (.error .io, w)

/-- What an operation does when nothing goes wrong. -/
def Op.exec : (o : Op) → World → o.Res × World
  | .now, w => (w.clock, w)
  | .ctxErr, w => (false, w)
  | .mkdirAll _, w => (.ok (), w)
  | .create p, w => (.ok (), w.setFile p (some []))
  | .write p data, w => w.writeFile p data
  | .fsync _, w => (.ok (), w)
  | .stat p, w =>
      match w.fs p with
      | none => (.error .notExist, w)
      | some c => (.ok c.length, w)
  | .remove p, w =>
      match w.fs p with
      | none => (.error .notExist, w)
      | some _ => (.ok (), w.setFile p none)
  | .rename src dst, w =>
      match w.fs src with
      | none => (.error .notExist, w)
      | some c => (.ok (), (w.setFile dst (some c)).setFile src none)
  | .readFile p, w =>
      match w.fs p with
      | none => (.error .notExist, w)
      | some c => (.ok c, w)
  | .get k, w =>
      match w.db.view.get k with
      | none => (.error .pebbleNotFound, w)
      | some v => (.ok v, w)
  | .commit b sync, w => (.ok (), w.commit b sync)
  | .iter lo hi, w => (.ok (w.db.view.range lo hi), w)

/-- What the environment may make of an operation instead: a later clock
reading, a cancelled context, an I/O error. -/
def Op.Deviates : (o : Op) → World → o.Res → World → Prop
  | .now, w, t, w' => w.clock ≤ t ∧ w' = { w with clock := t }
  | .ctxErr, w, r, w' => r = true ∧ w' = w
  | .write p data, w, r, w' =>
      r = .error .io ∧
        (w' = w ∨ ∃ n old, w.fs p = some old ∧ w' = w.setFile p (some (old ++ data.take n)))
  | .mkdirAll _, w, r, w' => r = .error .io ∧ w' = w
  | .create _, w, r, w' => r = .error .io ∧ w' = w
  | .fsync _, w, r, w' => r = .error .io ∧ w' = w
  | .stat _, w, r, w' => r = .error .io ∧ w' = w
  | .remove _, w, r, w' => r = .error .io ∧ w' = w
  | .rename _ _, w, r, w' => r = .error .io ∧ w' = w
  | .readFile _, w, r, w' => r = .error .io ∧ w' = w
  | .get _, w, r, w' => r = .error .io ∧ w' = w
  | .commit _ _, w, r, w' => r = .error .io ∧ w' = w
  | .iter _ _, w, r, w' => r = .error .io ∧ w' = w

/-- The semantics of runs: the regular effect of an operation, or what the
environment makes of it. -/
def sem : Prog.Sem machine World := fun (o : Op) w r w' => (r, w') = o.exec w ∨ o.Deviates w r w'

/-- The bindings an operation has set in pebble, as its answer tells. -/
def Op.sets : (o : Op) → o.Res → List (Bytes × Bytes)
  | .commit b _, .ok _ => b.sets
  | _, _ => []

/-- The machine with a record of all bindings that were ever set. -/
def semLogged : Prog.Sem machine (World × List (Bytes × Bytes)) := sem.logging Op.sets

/-- Programs of the machine. -/
abbrev Proc := Prog machine

/-- Functions with an error result. -/
abbrev Go := ExceptT Err Proc

/-- The error-free execution of a program. -/
def Proc.exec {α : Type} (p : Proc α) (w : World) : α × World := Prog.exec (S := machine) Op.exec p w

/-! The operations as program text. -/

def timeNow : Proc Time := Prog.call (S := machine) Op.now

def ctxErr : Proc Bool := Prog.call (S := machine) Op.ctxErr

def osMkdirAll (dir : Path) : Go Unit := ExceptT.mk (Prog.call (S := machine) (Op.mkdirAll dir))

def osCreate (p : Path) : Go Unit := ExceptT.mk (Prog.call (S := machine) (Op.create p))

def fileWrite (p : Path) (data : Bytes) : Go Unit :=
  ExceptT.mk (Prog.call (S := machine) (Op.write p data))

def fileSync (p : Path) : Go Unit := ExceptT.mk (Prog.call (S := machine) (Op.fsync p))

def osStat (p : Path) : Go Nat := ExceptT.mk (Prog.call (S := machine) (Op.stat p))

def osRemove (p : Path) : Go Unit := ExceptT.mk (Prog.call (S := machine) (Op.remove p))

def osRename (src dst : Path) : Go Unit :=
  ExceptT.mk (Prog.call (S := machine) (Op.rename src dst))

def osReadFile (p : Path) : Go Bytes := ExceptT.mk (Prog.call (S := machine) (Op.readFile p))

def dbGet (k : Bytes) : Go Bytes := ExceptT.mk (Prog.call (S := machine) (Op.get k))

def batchCommit (b : Batch) (sync : Bool) : Go Unit :=
  ExceptT.mk (Prog.call (S := machine) (Op.commit b sync))

def dbSet (k v : Bytes) : Go Unit := batchCommit [.set k v] true

def dbDelete (k : Bytes) : Go Unit := batchCommit [.delete k] true

def dbIter (lo hi : Bytes) : Go (List (Bytes × Bytes)) :=
  ExceptT.mk (Prog.call (S := machine) (Op.iter lo hi))

/-- `v, err := f()`: go on with whatever the call returned. -/
def attempt {α : Type} (f : Go α) : Go (Except Err α) := ExceptT.mk (do pure (.ok (← f.run)))

/-- The error exit of a function: remove the given files, whether that works
or not, and wrap the error. A panic passes by. -/
def errorExit {α : Type} (cleanup : List Path) (wrap : Err → Err) : Err → Proc (Except Err α)
  | .panic text => pure (.error (.panic text))
  | e => do
      cleanup.forM fun p => (osRemove p).run *> pure ()
      pure (.error (wrap e))

/-- `if err := f(); err != nil { cleanup; return wrap(err) }`. -/
def orElse {α : Type} (f : Go α) (cleanup : List Path) (wrap : Err → Err) : Go α :=
  ExceptT.mk do
    match ← f.run with
    | .ok a => pure (.ok a)
    | .error e => errorExit cleanup wrap e

/-! ## What an operation touches -/

/-- The files an operation can change. -/
def Op.Touches : Op → Path → Prop
  | .create p, q => q = p
  | .write p _, q => q = p
  | .remove p, q => q = p
  | .rename src dst, q => q = src ∨ q = dst
  | _, _ => False

variable {w w' : World}

/-- What any outcome of an operation can have changed: the files it names,
pebble by a whole commit, and the clock forwards. -/
structure Op.Effect (o : Op) (w w' : World) : Prop where
  files : ∀ q, ¬ o.Touches q → w'.fs q = w.fs q
  db : w'.db = w.db ∨ ∃ b sync, o = .commit b sync ∧ w'.db = w.db.commit b sync
  clock : w.clock ≤ w'.clock

theorem Op.Effect.refl (o : Op) (w : World) : o.Effect w w :=
  ⟨fun _ _ => rfl, Or.inl rfl, le_refl _⟩

/-- An effect on one named file. -/
theorem Op.Effect.put {o : Op} {p : Path} (hp : o.Touches p) (c : Option Bytes) :
    o.Effect w (w.setFile p c) :=
  ⟨fun _ hq => FS.put_ne _ _ fun he => hq (he ▸ hp), Or.inl rfl, le_refl _⟩

/-- **Every outcome of an operation**, regular or not, stays within its effect. -/
theorem sem_effect {o : Op} {r : o.Res} (h : sem o w r w') : o.Effect w w' := by
  cases o with
  | now =>
      rcases h with h | ⟨ht, rfl⟩
      · cases h; exact .refl _ _
      · exact ⟨fun _ _ => rfl, Or.inl rfl, ht⟩
  | create p =>
      rcases h with h | ⟨-, rfl⟩
      · cases h; exact .put (p := p) (by rfl) _
      · exact .refl _ _
  | write p data =>
      rcases h with h | ⟨-, rfl | ⟨n, old, -, rfl⟩⟩
      · simp only [Op.exec, World.writeFile] at h
        split at h
        · cases h; exact .refl _ _
        · split at h <;> cases h
          · exact .put (p := p) (by rfl) _
          · exact .refl _ _
      · exact .refl _ _
      · exact .put (p := p) (by rfl) _
  | remove p =>
      rcases h with h | ⟨-, rfl⟩
      · simp only [Op.exec] at h
        split at h <;> cases h
        · exact .refl _ _
        · exact .put (p := p) (by rfl) _
      · exact .refl _ _
  | rename src dst =>
      rcases h with h | ⟨-, rfl⟩
      · simp only [Op.exec] at h
        split at h <;> cases h
        · exact .refl _ _
        · refine ⟨fun q hq => ?_, Or.inl rfl, le_refl _⟩
          obtain ⟨hs, hd⟩ := not_or.mp hq
          show ((w.fs.put dst _).put src none) q = w.fs q
          rw [FS.put_ne _ _ hs, FS.put_ne _ _ hd]
      · exact .refl _ _
  | commit b sync =>
      rcases h with h | ⟨-, rfl⟩
      · cases h
        exact ⟨fun _ _ => rfl, Or.inr ⟨b, sync, rfl, rfl⟩, le_refl _⟩
      · exact .refl _ _
  | stat _ | readFile _ | get _ =>
      rcases h with h | ⟨-, rfl⟩
      · simp only [Op.exec] at h
        split at h <;> cases h <;> exact .refl _ _
      · exact .refl _ _
  | ctxErr | mkdirAll _ | fsync _ | iter _ _ =>
      rcases h with h | ⟨-, rfl⟩
      · cases h; exact .refl _ _
      · exact .refl _ _

/-- The clock never goes back. -/
theorem ensures_clock {α : Type} (p : Proc α) (w : World) :
    Prog.Ensures sem (fun x y => x.clock ≤ y.clock) p (fun _ _ => True) w := by
  induction p generalizing w with
  | pure a => trivial
  | op o k ih => exact fun r w' hs => ⟨(sem_effect hs).clock, ih r w'⟩

/-- The worlds of an error-free execution. -/
def Proc.trace {α : Type} (p : Proc α) (w : World) : List World :=
  Prog.trace (S := machine) Op.exec p w

/-- An error-free execution is a run. -/
theorem runs_procExec {α : Type} (p : Proc α) (w : World) :
    Prog.Runs sem p w (p.trace w) (p.exec w).1 (p.exec w).2 :=
  Prog.runs_exec (fun _ _ => Or.inl rfl) p w

/-- The semantics without faults. -/
def semExec : Prog.Sem machine World := fun (o : Op) w r w' => (r, w') = o.exec w

theorem runs_semExec {α : Type} (p : Proc α) (w : World) :
    Prog.Runs semExec p w (p.trace w) (p.exec w).1 (p.exec w).2 :=
  Prog.runs_exec (fun _ _ => rfl) p w

/-! ## What a successful operation did

An operation that reports success had its regular effect. -/

open Prog (Runs Calls runs_call runs_bind runs_bindE_ok)

variable {ws : List World} {P : Op → Prop}

theorem runs_timeNow {t : Time} (h : Runs sem timeNow w ws t w') :
    w.clock ≤ t ∧ w' = readClock w t ∧ ws = [w'] := by
  obtain ⟨hs, hws⟩ := runs_call.mp h
  rcases hs with hs | ⟨ht, rfl⟩
  · cases hs
    exact ⟨le_refl _, rfl, hws⟩
  · exact ⟨ht, rfl, hws⟩

theorem runs_osMkdirAll_ok {dir : Path} {u : Unit}
    (h : Runs sem (osMkdirAll dir).run w ws (.ok u) w') : w' = w := by
  rcases (runs_call.mp h).1 with h | ⟨h, -⟩ <;> cases h
  rfl

theorem runs_osMkdirAll_error {dir : Path} {e : Err}
    (h : Runs sem (osMkdirAll dir).run w ws (.error e) w') : w' = w := by
  rcases (runs_call.mp h).1 with h | ⟨-, h⟩
  · cases h
  · exact h

theorem runs_osCreate_ok {p : Path} {u : Unit}
    (h : Runs sem (osCreate p).run w ws (.ok u) w') :
    w' = w.setFile p (some []) := by
  rcases (runs_call.mp h).1 with h | ⟨h, -⟩ <;> cases h
  rfl

theorem runs_osCreate_error {p : Path} {e : Err}
    (h : Runs sem (osCreate p).run w ws (.error e) w') : w' = w := by
  rcases (runs_call.mp h).1 with h | ⟨-, h⟩
  · cases h
  · exact h

theorem runs_fileWrite_ok {p : Path} {data old : Bytes} {u : Unit} (hp : w.fs p = some old)
    (h : Runs sem (fileWrite p data).run w ws (.ok u) w') :
    old.length + data.length < maxFileSize ∧ w' = w.setFile p (some (old ++ data)) := by
  rcases (runs_call.mp h).1 with h | ⟨h, -⟩
  · simp only [Op.exec, World.writeFile, hp] at h
    split at h
    · rename_i hlt
      cases h
      exact ⟨hlt, rfl⟩
    · cases h
  · cases h

theorem runs_fileSync_ok {p : Path} {u : Unit}
    (h : Runs sem (fileSync p).run w ws (.ok u) w') : w' = w := by
  rcases (runs_call.mp h).1 with h | ⟨h, -⟩ <;> cases h
  rfl

theorem runs_osStat_ok {p : Path} {n : Nat} (h : Runs sem (osStat p).run w ws (.ok n) w') :
    w' = w ∧ ∃ c, w.fs p = some c ∧ n = c.length := by
  rcases (runs_call.mp h).1 with h | ⟨h, -⟩
  · simp only [Op.exec] at h
    split at h
    · cases h
    · rename_i c hc
      cases h
      exact ⟨rfl, c, hc, rfl⟩
  · cases h

theorem runs_osRename_ok {src dst : Path} {u : Unit}
    (h : Runs sem (osRename src dst).run w ws (.ok u) w') :
    ∃ c, w.fs src = some c ∧ w' = (w.setFile dst (some c)).setFile src none := by
  rcases (runs_call.mp h).1 with h | ⟨h, -⟩
  · simp only [Op.exec] at h
    split at h
    · cases h
    · rename_i c hc
      cases h
      exact ⟨c, hc, rfl⟩
  · cases h

/-- A rename that reports an error has changed nothing. -/
theorem runs_osRename_error {src dst : Path} {e : Err}
    (h : Runs sem (osRename src dst).run w ws (.error e) w') : w' = w := by
  rcases (runs_call.mp h).1 with h | ⟨-, h⟩
  · simp only [Op.exec] at h
    split at h
    · cases h
      rfl
    · cases h
  · exact h

theorem runs_batchCommit_ok {b : Batch} {sync : Bool} {u : Unit}
    (h : Runs sem (batchCommit b sync).run w ws (.ok u) w') :
    w' = w.commit b sync := by
  rcases (runs_call.mp h).1 with h | ⟨h, -⟩ <;> cases h
  rfl

/-- A commit that reports an error has changed nothing. -/
theorem runs_batchCommit_error {b : Batch} {sync : Bool} {e : Err}
    (h : Runs sem (batchCommit b sync).run w ws (.error e) w') : w' = w := by
  rcases (runs_call.mp h).1 with h | ⟨-, h⟩
  · cases h
  · exact h

/-- An iterator changes nothing and, if it finishes, has passed its range. -/
theorem runs_dbIter {lo hi : Bytes} {r : Except Err (List (Bytes × Bytes))}
    (h : Runs sem (dbIter lo hi).run w ws r w') :
    w' = w ∧ ws = [w] ∧ ∀ l, r = .ok l → l = w.db.view.range lo hi := by
  obtain ⟨hs, rfl⟩ := runs_call.mp h
  rcases hs with hs | ⟨rfl, rfl⟩
  · cases hs
    exact ⟨rfl, rfl, fun l hl => by cases hl; rfl⟩
  · exact ⟨rfl, rfl, fun l hl => by cases hl⟩

/-- A scan that passes an iterator and looks at the keys afterwards. -/
theorem runs_dbIter_map {α : Type} {lo hi : Bytes} {f : List (Bytes × Bytes) → α} {a : α}
    (h : Runs sem (do let entries ← dbIter lo hi; pure (f entries) : Go α).run w ws (.ok a) w') :
    w' = w ∧ a = f (w.db.view.range lo hi) := by
  obtain ⟨entries, w₁, ws₁, ws₂, rfl, hiter, hpure⟩ := runs_bindE_ok.mp h
  obtain ⟨rfl, -, hl⟩ := runs_dbIter hiter
  obtain ⟨-, hres, rfl⟩ := hpure
  cases hres
  exact ⟨rfl, by rw [hl entries rfl]⟩

/-- Reading a file changes nothing and, if it succeeds, returns its contents. -/
theorem runs_osReadFile {p : Path} {r : Except Err Bytes}
    (h : Runs sem (osReadFile p).run w ws r w') :
    w' = w ∧ ∀ c, r = .ok c → w.fs p = some c := by
  rcases (runs_call.mp h).1 with hs | ⟨rfl, rfl⟩
  · simp only [Op.exec] at hs
    split at hs
    · cases hs
      exact ⟨rfl, fun c hc => by cases hc⟩
    · rename_i c hc
      cases hs
      exact ⟨rfl, fun d hd => by cases hd; exact hc⟩
  · exact ⟨rfl, fun c hc => by cases hc⟩

theorem exec_osReadFile {p : Path} {c : Bytes} (h : w.fs p = some c) :
    (osReadFile p).run.exec w = (.ok c, w) := by
  show Op.exec (.readFile p) w = _
  simp only [Op.exec, h]
  rfl

theorem exec_osReadFile_none {p : Path} (h : w.fs p = none) :
    (osReadFile p).run.exec w = (.error .notExist, w) := by
  show Op.exec (.readFile p) w = _
  simp only [Op.exec, h]
  rfl

theorem exec_dbGet {k v : Bytes} (h : w.db.view.get k = some v) :
    (dbGet k).run.exec w = (.ok v, w) := by
  show Op.exec (.get k) w = _
  simp only [Op.exec, h]
  rfl

theorem exec_dbGet_none {k : Bytes} (h : w.db.view.get k = none) :
    (dbGet k).run.exec w = (.error .pebbleNotFound, w) := by
  show Op.exec (.get k) w = _
  simp only [Op.exec, h]
  rfl

/-- Asking for a cancellation changes nothing. -/
theorem sem_ctxErr {b : Bool} (h : sem .ctxErr w b w') : w' = w := by
  rcases h with h | ⟨-, h⟩
  · cases h
    rfl
  · exact h

/-- The operations that change nothing, whatever they answer. -/
def Op.Reads : Op → Prop
  | .stat _ | .readFile _ | .get _ | .iter _ _ => True
  | _ => False

theorem sem_reads {o : Op} {r : o.Res} (ho : o.Reads) (h : sem o w r w') : w = w' := by
  cases o with
  | stat _ | readFile _ | get _ =>
      rcases h with h | ⟨-, rfl⟩
      · simp only [Op.exec] at h
        split at h <;> cases h <;> rfl
      · rfl
  | iter _ _ =>
      rcases h with h | ⟨-, rfl⟩
      · cases h
        rfl
      · rfl
  | _ => exact ho.elim

/-- **A function that only reads leaves the world as it is.** -/
theorem runs_reads {α : Type} {f : Proc α} {a : α} (hf : Calls (S := machine) Op.Reads f)
    (h : Runs sem f w ws a w') : w' = w := by
  have hsame : w = w' :=
    hf.runs (fun _ => rfl) (fun h₁ h₂ => h₁.trans h₂) (fun _ _ _ _ ho hs => sem_reads ho hs) h
  exact hsame.symm

/-- The operations that commit nothing and touch only the files `ps`. -/
def Op.Within (ps : List Path) (o : Op) : Prop :=
  (∀ q, o.Touches q → q ∈ ps) ∧ ∀ b sync, o ≠ .commit b sync

/-- **A function that works on a few files leaves the rest as it is.** -/
theorem runs_within {α : Type} {f : Proc α} {a : α} {ps : List Path}
    (hf : Calls (S := machine) (Op.Within ps) f) (h : Runs sem f w ws a w') :
    w'.db = w.db ∧ ∀ q, q ∉ ps → w'.fs q = w.fs q := by
  let Same : World → World → Prop := fun x y => y.db = x.db ∧ ∀ q, q ∉ ps → y.fs q = x.fs q
  have hop : ∀ (o : Op) (x : World) (r : o.Res) (y : World), o.Within ps → sem o x r y →
      Same x y := by
    intro o x r y ho hs
    have he := sem_effect hs
    refine ⟨?_, fun q hq => he.files q fun ht => hq (ho.1 q ht)⟩
    rcases he.db with hdb | ⟨b, sync, rfl, -⟩
    · exact hdb
    · exact absurd rfl (ho.2 b sync)
  have htrans : ∀ {a b c}, Same a b → Same b c → Same a c := fun h₁ h₂ =>
    ⟨h₂.1.trans h₁.1, fun q hq => (h₂.2 q hq).trans (h₁.2 q hq)⟩
  exact hf.runs (G := Same) (fun _ => ⟨rfl, fun _ _ => rfl⟩) htrans hop h

/-- An error exit ends with an error. -/
theorem runs_errorExit {α : Type} {cleanup : List Path} {wrap : Err → Err} {e : Err}
    {r : Except Err α} (h : Runs sem (errorExit cleanup wrap e) w ws r w') :
    ∃ e', r = .error e' := by
  unfold errorExit at h
  split at h
  · obtain ⟨-, rfl, -⟩ := h
    exact ⟨_, rfl⟩
  · obtain ⟨_, _, _, _, -, -, -, rfl, -⟩ := runs_bind.mp h
    exact ⟨_, rfl⟩

/-- The clean-up of an error exit does not show in a successful run. -/
theorem runs_orElse_ok {α : Type} {f : Go α} {cleanup : List Path} {wrap : Err → Err} {a : α} :
    Runs sem (orElse f cleanup wrap).run w ws (.ok a) w' ↔ Runs sem f.run w ws (.ok a) w' := by
  show Runs sem (f.run >>= _) w ws (Except.ok a) w' ↔ _
  rw [runs_bind]
  constructor
  · rintro ⟨r, w₁, ws₁, ws₂, rfl, hf, hk⟩
    cases r with
    | ok b =>
        obtain ⟨rfl, hb, rfl⟩ := hk
        cases hb
        rwa [List.append_nil]
    | error e =>
        obtain ⟨_, he⟩ := runs_errorExit hk
        cases he
  · intro hf
    exact ⟨.ok a, w', ws, [], by simp, hf, rfl, rfl, rfl⟩

/-- A clean-up only removes its files. -/
theorem calls_cleanup {cleanup : List Path} (hc : ∀ p ∈ cleanup, P (.remove p)) :
    Calls (S := machine) P (cleanup.forM fun p => (osRemove p).run *> pure ()) := by
  induction cleanup with
  | nil => exact Prog.calls_pure _
  | cons p ps ih =>
      refine Prog.calls_bind (Prog.calls_bind ⟨hc p List.mem_cons_self, fun _ => trivial⟩
        fun _ => Prog.calls_pure _) fun _ => ?_
      exact ih fun q hq => hc q (List.mem_cons_of_mem _ hq)

theorem calls_errorExit {α : Type} {cleanup : List Path} {wrap : Err → Err}
    (hc : ∀ p ∈ cleanup, P (.remove p)) (e : Err) :
    Calls (S := machine) P (errorExit (α := α) cleanup wrap e) := by
  unfold errorExit
  split
  · exact Prog.calls_pure _
  · exact Prog.calls_bind (calls_cleanup hc) fun _ => Prog.calls_pure _

/-- An error exit removes nothing but its files. -/
theorem within_errorExit {α : Type} {cleanup : List Path} {wrap : Err → Err} (e : Err) :
    Calls (S := machine) (Op.Within cleanup) (errorExit (α := α) cleanup wrap e) :=
  calls_errorExit (fun _ hp => ⟨fun _ hq => Eq.symm hq ▸ hp, fun _ _ he => by cases he⟩) e

/-- A failure of the function comes before its clean-up. -/
theorem runs_orElse_error {α : Type} {f : Go α} {cleanup : List Path} {wrap : Err → Err} {e : Err}
    (h : Runs sem (orElse f cleanup wrap).run w ws (.error e) w') :
    ∃ e' w₁ ws₁, Runs sem f.run w ws₁ (.error e') w₁ ∧
      ∀ q, q ∉ cleanup → w'.fs q = w₁.fs q := by
  obtain ⟨r, w₁, ws₁, ws₂, rfl, hf, hk⟩ := runs_bind.mp h
  cases r with
  | ok a =>
      obtain ⟨-, he, -⟩ := hk
      cases he
  | error e' => exact ⟨e', w₁, ws₁, hf, (runs_within (within_errorExit e') hk).2⟩

/-- An error exit performs what the function performs, and its removals. -/
theorem calls_orElse {α : Type} {f : Go α} {cleanup : List Path}
    {wrap : Err → Err} (hf : Calls (S := machine) P f.run) (hc : ∀ p ∈ cleanup, P (.remove p)) :
    Calls (S := machine) P (orElse f cleanup wrap).run := by
  refine Prog.calls_bind hf fun r => ?_
  cases r with
  | ok a => exact Prog.calls_pure _
  | error e => exact calls_errorExit hc e

/-! ## Operations on a few files -/

/-- The operations whose answer and effect on files depend on `ps` alone. -/
def Op.OnFiles (ps : List Path) : Op → Prop
  | .mkdirAll _ | .commit _ _ => True
  | .create p | .write p _ | .fsync p | .stat p | .remove p => p ∈ ps
  | .rename src dst => src ∈ ps ∧ dst ∈ ps
  | _ => False

/-- Both worlds have these files alike. -/
def AgreeOn (ps : List Path) (x y : World) : Prop := ∀ q ∈ ps, x.fs q = y.fs q

theorem AgreeOn.setFile {ps : List Path} {x y : World} (h : AgreeOn ps x y) (p : Path)
    (c : Option Bytes) : AgreeOn ps (x.setFile p c) (y.setFile p c) := by
  intro q hq
  by_cases hp : q = p
  · rw [World.setFile_fs, World.setFile_fs, hp, FS.put_self, FS.put_self]
  · rw [World.setFile_fs, World.setFile_fs, FS.put_ne _ _ hp, FS.put_ne _ _ hp, h q hq]

/-- **An operation on files does the same wherever those files are alike.** -/
theorem sem_onFiles {ps : List Path} {o : Op} {x y g : World} {r : o.Res} (ho : o.OnFiles ps)
    (ha : AgreeOn ps x g) (h : sem o x r y) : ∃ g', sem o g r g' ∧ AgreeOn ps y g' := by
  cases o with
  | mkdirAll _ | fsync _ =>
      rcases h with h | ⟨rfl, rfl⟩
      · cases h
        exact ⟨g, Or.inl rfl, ha⟩
      · exact ⟨g, Or.inr ⟨rfl, rfl⟩, ha⟩
  | create p =>
      rcases h with h | ⟨rfl, rfl⟩
      · cases h
        exact ⟨_, Or.inl rfl, ha.setFile p _⟩
      · exact ⟨g, Or.inr ⟨rfl, rfl⟩, ha⟩
  | commit b sync =>
      rcases h with h | ⟨rfl, rfl⟩
      · cases h
        exact ⟨_, Or.inl rfl, ha⟩
      · exact ⟨g, Or.inr ⟨rfl, rfl⟩, ha⟩
  | write p data =>
      rcases h with h | ⟨rfl, rfl | ⟨n, old, hold, rfl⟩⟩
      · simp only [Op.exec, World.writeFile] at h
        cases hfile : x.fs p with
        | none =>
            rw [hfile] at h
            cases h
            exact ⟨g, Or.inl (by simp only [Op.exec, World.writeFile, ← ha p ho, hfile]; rfl), ha⟩
        | some c =>
            simp only [hfile] at h
            split_ifs at h with hlt
            · cases h
              refine ⟨_, Or.inl ?_, ha.setFile p (some (c ++ data))⟩
              simp only [Op.exec, World.writeFile, ← ha p ho, hfile, if_pos hlt]
              rfl
            · cases h
              refine ⟨g, Or.inl ?_, ha⟩
              simp only [Op.exec, World.writeFile, ← ha p ho, hfile, if_neg hlt]
              rfl
      · exact ⟨g, Or.inr ⟨rfl, Or.inl rfl⟩, ha⟩
      · exact ⟨_, Or.inr ⟨rfl, Or.inr ⟨n, old, (ha p ho).symm.trans hold, rfl⟩⟩, ha.setFile p _⟩
  | stat p =>
      rcases h with h | ⟨rfl, rfl⟩
      · simp only [Op.exec] at h
        cases hfile : x.fs p with
        | none =>
            rw [hfile] at h
            cases h
            exact ⟨g, Or.inl (by simp only [Op.exec, ← ha p ho, hfile]; rfl), ha⟩
        | some c =>
            rw [hfile] at h
            cases h
            exact ⟨g, Or.inl (by simp only [Op.exec, ← ha p ho, hfile]; rfl), ha⟩
      · exact ⟨g, Or.inr ⟨rfl, rfl⟩, ha⟩
  | remove p =>
      rcases h with h | ⟨rfl, rfl⟩
      · simp only [Op.exec] at h
        cases hfile : x.fs p with
        | none =>
            rw [hfile] at h
            cases h
            exact ⟨g, Or.inl (by simp only [Op.exec, ← ha p ho, hfile]; rfl), ha⟩
        | some c =>
            rw [hfile] at h
            cases h
            exact ⟨g.setFile p none, Or.inl (by simp only [Op.exec, ← ha p ho, hfile]; rfl),
              ha.setFile p none⟩
      · exact ⟨g, Or.inr ⟨rfl, rfl⟩, ha⟩
  | rename src dst =>
      rcases h with h | ⟨rfl, rfl⟩
      · simp only [Op.exec] at h
        cases hfile : x.fs src with
        | none =>
            rw [hfile] at h
            cases h
            exact ⟨g, Or.inl (by simp only [Op.exec, ← ha src ho.1, hfile]; rfl), ha⟩
        | some c =>
            rw [hfile] at h
            cases h
            exact ⟨_, Or.inl (by simp only [Op.exec, ← ha src ho.1, hfile]; rfl),
              (ha.setFile dst (some c)).setFile src none⟩
      · exact ⟨g, Or.inr ⟨rfl, rfl⟩, ha⟩
  | _ => exact ho.elim

/-! ## Error-free execution -/

theorem exec_orElse {α : Type} {f : Go α} {cleanup : List Path} {wrap : Err → Err} {a : α}
    (h : f.run.exec w = (.ok a, w')) : (orElse f cleanup wrap).run.exec w = (.ok a, w') :=
  Prog.exec_bind_of h

theorem exec_fileWrite {p : Path} {old data : Bytes} (hold : w.fs p = some old)
    (hsize : old.length + data.length < maxFileSize) :
    (fileWrite p data).run.exec w = (.ok (), w.setFile p (some (old ++ data))) := by
  show Op.exec (.write p data) w = _
  simp only [Op.exec, World.writeFile, hold, if_pos hsize]
  rfl

theorem exec_osRename {src dst : Path} {c : Bytes} (h : w.fs src = some c) :
    (osRename src dst).run.exec w = (.ok (), (w.setFile dst (some c)).setFile src none) := by
  show Op.exec (.rename src dst) w = _
  simp only [Op.exec, h]
  rfl

theorem exec_osStat {p : Path} {c : Bytes} (h : w.fs p = some c) :
    (osStat p).run.exec w = (.ok c.length, w) := by
  show Op.exec (.stat p) w = _
  simp only [Op.exec, h]
  rfl

end Bbdb
