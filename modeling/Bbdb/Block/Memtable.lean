import Bbdb.Block.Event

/-!
# Block — the memtable

Three columns of equal length, which is part of the type: every row has its
hash, its timestamp and its payload. `rows` reads the columns as events;
`rows_append`, `perm_rows_sort` and `rows_reset` say what the updates do to
them. Over a whole history the rows are the events appended since the last
reset, in some order (`holds_after`).
-/

namespace Bbdb.Block

/-- The in-memory buffer of one shard, column by column. -/
structure Memtable where
  keyHashes : List UInt64
  timestamps : List Int64
  payloads : List Bytes
  approxBytes : Int64
  length_timestamps : timestamps.length = keyHashes.length
  length_payloads : payloads.length = keyHashes.length

namespace Memtable

/-- `NewMemtable`. -/
def new : Memtable := ⟨[], [], [], 0, rfl, rfl⟩

def append (m : Memtable) (e : Event) : Memtable where
  keyHashes := m.keyHashes ++ [e.keyHash]
  timestamps := m.timestamps ++ [e.timestamp]
  payloads := m.payloads ++ [e.payload]
  approxBytes := m.approxBytes + (8 + 8 + Int64.ofNat e.payload.length)
  length_timestamps := by simp [m.length_timestamps]
  length_payloads := by simp [m.length_payloads]

def len (m : Memtable) : Nat := m.keyHashes.length

/-- Row `i` of the columns. -/
def row (m : Memtable) (i : Nat) : Event where
  keyHash := m.keyHashes.getD i 0
  timestamp := m.timestamps.getD i 0
  payload := m.payloads.getD i []

/-- All rows, in their current order. -/
def rows (m : Memtable) : List Event := (List.range m.len).map m.row

variable (libs : Libs)

/-- `Sort`: order the row indices by (hash, timestamp), then permute every
column by them. -/
def sort (m : Memtable) : Memtable :=
  let idx := libs.sortSlice (fun a b => (m.row a).less (m.row b)) (List.range m.len)
  { keyHashes := idx.map fun i => m.keyHashes.getD i 0
    timestamps := idx.map fun i => m.timestamps.getD i 0
    payloads := idx.map fun i => m.payloads.getD i []
    approxBytes := m.approxBytes
    length_timestamps := by simp
    length_payloads := by simp }

/-- `Reset`: every column is cut to its first zero entries. -/
def reset (m : Memtable) : Memtable where
  keyHashes := m.keyHashes.take 0
  timestamps := m.timestamps.take 0
  payloads := m.payloads.take 0
  approxBytes := 0
  length_timestamps := rfl
  length_payloads := rfl

/-- `UniqueKeyHashes`, at the `n`-th loop over a map: the map `seen` has each
hash of the column as a key, and the loop appends its keys to `out`. -/
def uniqueKeyHashes (n : Nat) (m : Memtable) : List UInt64 :=
  let seen := m.keyHashes.foldl (fun seen h => seen.insert h) []
  (libs.rangeOrder n seen).foldl (fun out h => out ++ [h]) []

/-! ## Rows -/

@[simp] theorem rows_new : new.rows = [] := rfl

@[simp] theorem length_rows (m : Memtable) : m.rows.length = m.len := by simp [rows]

theorem rows_append (m : Memtable) (e : Event) : (m.append e).rows = m.rows ++ [e] := by
  have hlen : (m.append e).len = m.len + 1 := by simp [append, len]
  -- the old rows keep their index, the new one is the last
  have hold : ∀ i ∈ List.range m.len, (m.append e).row i = m.row i := by
    intro i hi
    have hi : i < m.keyHashes.length := List.mem_range.mp hi
    have hts : i < m.timestamps.length := by rw [m.length_timestamps]; exact hi
    have hpl : i < m.payloads.length := by rw [m.length_payloads]; exact hi
    simp [row, append, List.getElem?_append_left, hi, hts, hpl]
  have hnew : (m.append e).row m.len = e := by
    have hkh : (m.keyHashes ++ [e.keyHash])[m.len]? = some e.keyHash :=
      List.getElem?_concat_length
    have hts : (m.timestamps ++ [e.timestamp])[m.len]? = some e.timestamp := by
      rw [len, ← m.length_timestamps]
      exact List.getElem?_concat_length
    have hpl : (m.payloads ++ [e.payload])[m.len]? = some e.payload := by
      rw [len, ← m.length_payloads]
      exact List.getElem?_concat_length
    simp only [row, append, List.getD_eq_getElem?_getD, hkh, hts, hpl, Option.getD_some]
  rw [rows, hlen, List.range_succ, List.map_append, List.map_congr_left hold, rows]
  simp [hnew]

/-- The rows read back column by column. -/
theorem map_rows (m : Memtable) :
    m.rows.map Event.keyHash = m.keyHashes ∧ m.rows.map Event.timestamp = m.timestamps ∧
      m.rows.map Event.payload = m.payloads := by
  have hcol : ∀ {β : Type} (d : β) (l : List β), l.length = m.len →
      (List.range m.len).map (fun i => l.getD i d) = l := by
    intro β d l hl
    apply List.ext_getElem
    · simp [hl]
    · intro i h₁ h₂
      simp [h₂]
  refine ⟨?_, ?_, ?_⟩
  · rw [rows, List.map_map]
    exact hcol 0 m.keyHashes rfl
  · rw [rows, List.map_map]
    exact hcol 0 m.timestamps m.length_timestamps
  · rw [rows, List.map_map]
    exact hcol [] m.payloads m.length_payloads

theorem mem_keyHashes_iff {m : Memtable} {h : UInt64} :
    h ∈ m.keyHashes ↔ ∃ e ∈ m.rows, e.keyHash = h := by
  rw [← m.map_rows.1, List.mem_map]

/-- The comparison `Sort` hands to `sort.Slice`. -/
theorem strictWeak_rowLess (m : Memtable) :
    StrictWeak fun a b => (m.row a).less (m.row b) where
  asymm h := Event.strictWeak_less.asymm h
  cotrans h b := Event.strictWeak_less.cotrans h (m.row b)

/-- The rows after a sort are the old ones at the sorted indices. -/
theorem rows_sort (m : Memtable) :
    (m.sort libs).rows =
      (libs.sortSlice (fun a b => (m.row a).less (m.row b)) (List.range m.len)).map m.row := by
  apply List.ext_getElem
  · simp [rows, sort, len]
  · intro i h₁ h₂
    simp only [rows, sort, len, row, List.getElem_map, List.getElem_range]
    have hi : i < (libs.sortSlice (fun a b => (m.row a).less (m.row b))
        (List.range m.len)).length := by simpa using h₂
    simp [row, len] at hi ⊢
    simp [hi]

/-- **Sorting permutes the rows**: none is lost, added or torn apart. -/
theorem perm_rows_sort (m : Memtable) : (m.sort libs).rows.Perm m.rows := by
  rw [rows_sort]
  exact (libs.sortSlice_perm _ _ m.strictWeak_rowLess).map _

/-- **After a sort the rows are in (hash, timestamp) order.** -/
theorem pairwise_rows_sort (m : Memtable) :
    (m.sort libs).rows.Pairwise (NotAfter Event.less) := by
  rw [rows_sort, List.pairwise_map]
  exact libs.sortSlice_sorted _ _ m.strictWeak_rowLess

/-- The keys of a map after a loop that puts `hs` into it. -/
theorem mem_foldl_insert (hs : List UInt64) {seen : List UInt64} {h : UInt64} :
    h ∈ hs.foldl (fun seen h => seen.insert h) seen ↔ h ∈ seen ∨ h ∈ hs := by
  induction hs generalizing seen with
  | nil => simp
  | cons x hs ih =>
      rw [List.foldl_cons, ih, List.mem_insert_iff, List.mem_cons]
      tauto

theorem nodup_foldl_insert (hs : List UInt64) {seen : List UInt64} (h : seen.Nodup) :
    (hs.foldl (fun seen h => seen.insert h) seen).Nodup := by
  induction hs generalizing seen with
  | nil => exact h
  | cons x hs ih => exact ih (h.insert)

/-- `out` are the keys of `seen`, in some order. -/
theorem perm_uniqueKeyHashes (n : Nat) (m : Memtable) :
    (uniqueKeyHashes libs n m).Perm (m.keyHashes.foldl (fun seen h => seen.insert h) []) := by
  have happend : ∀ keys out : List UInt64,
      keys.foldl (fun out h => out ++ [h]) out = out ++ keys := by
    intro keys
    induction keys with
    | nil => simp
    | cons h keys ih => simp [ih]
  rw [uniqueKeyHashes, happend, List.nil_append]
  exact libs.rangeOrder_perm n _

theorem mem_uniqueKeyHashes {m : Memtable} {n : Nat} {h : UInt64} :
    h ∈ uniqueKeyHashes libs n m ↔ ∃ e ∈ m.rows, e.keyHash = h := by
  rw [(perm_uniqueKeyHashes libs n m).mem_iff, mem_foldl_insert, mem_keyHashes_iff]
  simp

theorem nodup_uniqueKeyHashes (n : Nat) (m : Memtable) : (uniqueKeyHashes libs n m).Nodup :=
  (perm_uniqueKeyHashes libs n m).nodup_iff.mpr (nodup_foldl_insert m.keyHashes List.nodup_nil)

@[simp] theorem rows_reset (m : Memtable) : m.reset.rows = [] := rfl

/-! ## Histories -/

/-- A call that changes a memtable. Each `Sort` has its own `sort.Slice`,
which may leave ties in another order every time. -/
inductive Call
  | append (e : Event)
  | sort (libs : Libs)
  | reset

def Call.apply (m : Memtable) : Call → Memtable
  | .append e => m.append e
  | .sort libs => m.sort libs
  | .reset => m.reset

/-- The events appended since the last reset, after `evs` were. -/
def Call.appended (evs : List Event) : Call → List Event
  | .append e => evs ++ [e]
  | .sort _ => evs
  | .reset => []

/-- The memtable after some calls on a new one. -/
def after (calls : List Call) : Memtable := calls.foldl Call.apply new

/-- The events the calls appended since the last reset. -/
def sinceReset (calls : List Call) : List Event := calls.foldl Call.appended []

/-- The bytes an event is counted with. -/
def eventBytes (e : Event) : Int := 16 + e.payload.length

/-- The memtable holds exactly `evs`, and counts their bytes in 64 bits. -/
structure Holds (m : Memtable) (evs : List Event) : Prop where
  rows : m.rows.Perm evs
  bytes : m.approxBytes = Int64.ofInt (evs.map eventBytes).sum

/-- What `Append` adds to the counter. -/
theorem ofInt_eventBytes (e : Event) :
    Int64.ofInt (eventBytes e) = 8 + 8 + Int64.ofNat e.payload.length := by
  rw [eventBytes, Int64.ofInt_add, Int64.ofInt_eq_ofNat]
  rfl

theorem Holds.apply {m : Memtable} {evs : List Event} (h : Holds m evs) (c : Call) :
    Holds (c.apply m) (c.appended evs) := by
  cases c with
  | append e =>
      constructor
      · show (m.append e).rows.Perm (evs ++ [e])
        rw [rows_append]
        exact h.rows.append_right [e]
      · show m.approxBytes + (8 + 8 + Int64.ofNat e.payload.length) =
          Int64.ofInt ((evs ++ [e]).map eventBytes).sum
        rw [List.map_append, List.sum_append, Int64.ofInt_add, ← h.bytes, List.map_singleton,
          List.sum_singleton, ofInt_eventBytes]
  | sort libs => exact ⟨(perm_rows_sort libs m).trans h.rows, h.bytes⟩
  | reset => exact ⟨List.Perm.refl _, rfl⟩

/-- **The memtable holds what was appended since the last reset**, after any
calls. -/
theorem holds_after (calls : List Call) : Holds (after calls) (sinceReset calls) := by
  have hrun : ∀ (calls : List Call) (m : Memtable) (evs : List Event), Holds m evs →
      Holds (calls.foldl Call.apply m) (calls.foldl Call.appended evs) := by
    intro calls
    induction calls with
    | nil =>
        intro m evs h
        exact h
    | cons c calls ih =>
        intro m evs h
        exact ih _ _ (h.apply c)
  exact hrun calls new [] ⟨List.Perm.refl _, rfl⟩

theorem sum_eventBytes_nonneg (evs : List Event) : 0 ≤ (evs.map eventBytes).sum := by
  induction evs with
  | nil => exact Int.le_refl 0
  | cons e evs ih =>
      rw [List.map_cons, List.sum_cons, eventBytes]
      omega

/-- The representation of a memtable after any calls: columns of one length,
the appended events as rows, every hash once, and right after a sort the rows
ordered by hash, then by timestamp. The byte counter is their sum as long as
that fits into 64 bits, and wraps beyond. -/
theorem memtable_represents (libs : Libs) (n : Nat) (calls : List Call) :
    (after calls).timestamps.length = (after calls).keyHashes.length ∧
    (after calls).payloads.length = (after calls).keyHashes.length ∧
    (after calls).rows.Perm (sinceReset calls) ∧
    (after calls).approxBytes =
      Int64.ofInt ((sinceReset calls).map fun e => 16 + (e.payload.length : Int)).sum ∧
    (((sinceReset calls).map fun e => 16 + (e.payload.length : Int)).sum < 2 ^ 63 →
      (after calls).approxBytes.toInt =
        ((sinceReset calls).map fun e => 16 + (e.payload.length : Int)).sum) ∧
    (uniqueKeyHashes libs n (after calls)).Nodup ∧
    (∀ h, h ∈ uniqueKeyHashes libs n (after calls) ↔ ∃ e ∈ sinceReset calls, e.keyHash = h) ∧
    ∀ sorter, (after (calls ++ [.sort sorter])).rows.Pairwise fun a b =>
      a.keyHash < b.keyHash ∨ a.keyHash = b.keyHash ∧ a.timestamp ≤ b.timestamp := by
  have h := holds_after calls
  refine ⟨(after calls).length_timestamps, (after calls).length_payloads, h.rows, h.bytes,
    fun hfits => ?_, nodup_uniqueKeyHashes libs n _, fun x => ?_, fun sorter => ?_⟩
  · have hpos : 0 ≤ ((sinceReset calls).map eventBytes).sum := sum_eventBytes_nonneg _
    rw [h.bytes]
    exact Int64.toInt_ofInt_of_le (by omega) hfits
  · rw [mem_uniqueKeyHashes]
    simp only [h.rows.mem_iff]
  · have hsort : after (calls ++ [.sort sorter]) = (after calls).sort sorter := by
      simp [after, Call.apply]
    rw [hsort]
    exact (pairwise_rows_sort sorter (after calls)).imp fun h => Event.notAfter_less.mp h

/-- Two events with one hash, appended after a reset and then sorted. -/
def twoRows : List Call :=
  [.append ⟨3, 1, [1]⟩, .reset, .append ⟨7, 9, [1, 2]⟩, .append ⟨7, 8, []⟩, .sort Libs.plain]

theorem memtable_represents_twoRows :
    (after twoRows).rows.Perm [⟨7, 9, [1, 2]⟩, ⟨7, 8, []⟩] ∧
      (after twoRows).approxBytes.toInt = 34 ∧
      ∀ h, h ∈ uniqueKeyHashes Libs.plain 0 (after twoRows) ↔ h = 7 := by
  obtain ⟨-, -, hrows, -, hbytes, -, hmem, -⟩ := memtable_represents Libs.plain 0 twoRows
  refine ⟨hrows, hbytes (by decide), fun h => ?_⟩
  rw [hmem]
  simp [twoRows, sinceReset, Call.appended, eq_comm]

end Memtable

end Bbdb.Block
