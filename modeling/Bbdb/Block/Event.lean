import Bbdb.Lib.GoTime
import Bbdb.Lib.StrictWeak
import Bbdb.Meta.Keys

/-!
# Block — events, block ids and the libraries behind them

`Event` is the row type of the whole write and read path. `Libs` collects
the third-party code the packages call — xxhash, zstd, the bloom filter —
and the parts of the Go library whose result is not determined (`sort.Slice`
leaves ties in any order, a `range` over a map may visit it in any order),
each with the law the code relies on. Every result of the development holds
for every `Libs`.

A block id prints the shard and the UTC hour of an instant;
`splitFirst_blockID` takes it apart again.
-/

namespace Bbdb.Block

open Bbdb.Meta GoTime Text

/-! ## Events -/

/-- A row: the hash of the partition key, Unix nanoseconds, the payload. -/
structure Event where
  keyHash : UInt64
  timestamp : Int64
  payload : Bytes
  deriving DecidableEq, Repr

/-- The order of `Memtable.Sort` and of the merge heap: by key hash, then by
timestamp. -/
def Event.less (a b : Event) : Bool :=
  if a.keyHash ≠ b.keyHash then a.keyHash < b.keyHash else a.timestamp < b.timestamp

theorem Event.less_iff {a b : Event} :
    a.less b = true ↔ a.keyHash.toNat < b.keyHash.toNat ∨
      a.keyHash.toNat = b.keyHash.toNat ∧ a.timestamp.toInt < b.timestamp.toInt := by
  rw [less]
  split_ifs with h
  · rw [decide_eq_true_eq, UInt64.lt_iff_toNat_lt]
    have hne : a.keyHash.toNat ≠ b.keyHash.toNat := fun he => h (UInt64.toNat_inj.mp he)
    omega
  · rw [not_not] at h
    rw [decide_eq_true_eq, Int64.lt_iff_toInt_lt, h]
    omega

/-- The event order is a strict weak order; events that differ in their
payload only are tied. -/
theorem Event.strictWeak_less : StrictWeak Event.less where
  asymm {a b} h := by
    rw [less_iff] at h
    rw [Bool.eq_false_iff, ne_eq, less_iff]
    omega
  cotrans {a c} h b := by
    rw [less_iff] at h ⊢
    rw [less_iff]
    omega

/-- Not after: a smaller hash, or the same hash and no later timestamp. -/
theorem Event.notAfter_less {a b : Event} :
    NotAfter Event.less a b ↔
      a.keyHash < b.keyHash ∨ a.keyHash = b.keyHash ∧ a.timestamp ≤ b.timestamp := by
  rw [NotAfter, Bool.eq_false_iff, ne_eq, less_iff, UInt64.lt_iff_toNat_lt, ← UInt64.toNat_inj,
    Int64.le_iff_toInt_le]
  omega

/-! ## Libraries -/

/-- The libraries, with the laws the code relies on. -/
structure Libs where
  /-- `xxhash.Sum64`. -/
  sum64 : Bytes → UInt64
  /-- `zstd.Encoder.EncodeAll`. -/
  encodeAll : Bytes → Bytes
  /-- `zstd.Decoder.DecodeAll`. -/
  decodeAll : Bytes → Except Err Bytes
  decode_encode : ∀ x, decodeAll (encodeAll x) = .ok x
  /-- `bloom.BloomFilter`. -/
  Filter : Type
  /-- `bloom.NewWithEstimates`. -/
  newWithEstimates : Nat → Rat → Filter
  add : Filter → Bytes → Filter
  test : Filter → Bytes → Bool
  writeTo : Filter → Except Err Bytes
  readFrom : Bytes → Except Err Filter
  /-- The filter has no false negatives. -/
  test_add_self : ∀ f x, test (add f x) x = true
  test_add : ∀ f x y, test f y = true → test (add f x) y = true
  /-- A filter read back tests like the one written. -/
  readFrom_writeTo : ∀ f d, writeTo f = .ok d →
    ∃ g, readFrom d = .ok g ∧ ∀ x, test g x = test f x
  /-- `sort.Slice` over a slice of indices. -/
  sortSlice : (Nat → Nat → Bool) → List Nat → List Nat
  sortSlice_perm : ∀ less l, StrictWeak less → (sortSlice less l).Perm l
  sortSlice_sorted : ∀ less l, StrictWeak less → (sortSlice less l).Pairwise (NotAfter less)
  /-- The order in which the `n`-th `range` loop over a map visits the keys of
  the map. -/
  rangeOrder : Nat → List UInt64 → List UInt64
  rangeOrder_perm : ∀ n keys, (rangeOrder n keys).Perm keys
  /-- `json.Marshal` and `json.Unmarshal` of an `Event`. -/
  marshal : Event → Except Err Bytes
  unmarshal : Bytes → Option Event
  unmarshal_marshal : ∀ e, ∃ d, marshal e = .ok d ∧ unmarshal d = some e

/-- Plain libraries that meet the laws: no compression, a filter that never
says no, insertion sort, maps visited in insertion order. -/
def Libs.plain : Libs where
  sum64 b := UInt64.ofNat (Bytes.beNat b)
  encodeAll := id
  decodeAll := .ok
  decode_encode _ := rfl
  Filter := Unit
  newWithEstimates _ _ := ()
  add f _ := f
  test _ _ := true
  writeTo _ := .ok []
  readFrom _ := .ok ()
  test_add_self _ _ := rfl
  test_add _ _ _ _ := rfl
  readFrom_writeTo _ _ _ := ⟨(), rfl, fun _ => rfl⟩
  sortSlice less l := l.insertionSort (NotAfter less)
  sortSlice_perm less l _ := List.perm_insertionSort (NotAfter less) l
  sortSlice_sorted _ l h := h.pairwise_insertionSort l
  rangeOrder _ keys := keys
  rangeOrder_perm _ keys := List.Perm.refl keys
  marshal e := .ok (Bytes.putUint64 e.keyHash ++
    (Bytes.putUint64 e.timestamp.toUInt64 ++ e.payload))
  unmarshal d := some
    { keyHash := Bytes.getUint64 d
      timestamp := (Bytes.getUint64 (d.drop 8)).toInt64
      payload := d.drop 16 }
  unmarshal_marshal e := by
    refine ⟨_, rfl, ?_⟩
    have h8 : (Bytes.putUint64 e.keyHash ++ (Bytes.putUint64 e.timestamp.toUInt64 ++
        e.payload)).drop 8 = Bytes.putUint64 e.timestamp.toUInt64 ++ e.payload :=
      List.drop_left' (Bytes.length_putUint64 _)
    have h16 : (Bytes.putUint64 e.keyHash ++ (Bytes.putUint64 e.timestamp.toUInt64 ++
        e.payload)).drop 16 = e.payload := by
      rw [show 16 = 8 + 8 from rfl, ← List.drop_drop, h8]
      exact List.drop_left' (Bytes.length_putUint64 _)
    simp [h8, h16]

/-! ## Routing -/

variable (libs : Libs)

def keyHashFor (partitionKey : Bytes) : UInt64 := libs.sum64 partitionKey

def shardFor (partitionKey : Bytes) (eventType : UInt8) : ShardID :=
  (eventType.toUInt16 <<< 8) ||| (libs.sum64 partitionKey % 256).toUInt16

/-- The upper byte of a shard is its event type. -/
theorem eventType_shardFor (key : Bytes) (eventType : UInt8) :
    (shardFor libs key eventType >>> 8).toUInt8 = eventType := by
  have hlow : (libs.sum64 key % 256).toUInt16.toNat < 2 ^ 8 := by
    simp
    omega
  have het := UInt8.toNat_lt eventType
  have h8 : (8 : UInt16).toNat % 16 = 8 := rfl
  apply UInt8.toNat_inj.mp
  rw [shardFor, UInt16.toNat_toUInt8, UInt16.toNat_shiftRight, UInt16.toNat_or,
    UInt16.toNat_shiftLeft, UInt8.toNat_toUInt16, h8, Nat.shiftRight_or_distrib,
    Nat.shiftRight_eq_div_pow, Nat.shiftRight_eq_div_pow, Nat.div_eq_of_lt hlow, Nat.or_zero,
    Nat.shiftLeft_eq]
  omega

/-! ## Block ids -/

/-- `%04d-%02d-%02dT%02d` of the UTC fields of an instant. -/
def hourText (f : Fields) : Bytes :=
  fmtDec 4 f.year.toNat ++ 45 :: (fmtDec 2 f.month.toNat ++ 45 :: (fmtDec 2 f.day.toNat ++
    84 :: fmtDec 2 f.hour.toNat))

def blockIDForShard (shard : ShardID) (unixNano : Int64) : BlockID :=
  blockIDFromShardAndHour shard (hourText (utc unixNano.toInt))

example : blockIDForShard 0x0a07 1781186400000000000 = ascii "0a07:2026-06-11T14" := by decide

/-- A block id splits into its shard and its hour. -/
theorem splitFirst_blockID (s : ShardID) (hour : Bytes) :
    splitFirst colon (blockIDFromShardAndHour s hour) = some (fmtHex 4 s.toNat, hour) := by
  have hs : s.toNat < 16 ^ 4 := UInt16.toNat_lt s
  refine splitFirst_append ?_ hour
  rw [fmtHex, if_pos hs]
  exact notMem_padded (by decide) (by decide) (by decide)

end Bbdb.Block
