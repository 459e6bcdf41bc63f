import Bbdb.Lib.Text
import Bbdb.World

/-!
# Meta — the pebble key space

The identifiers of package `meta` and the byte layout of its six key
families. Every key starts with a four-byte family tag (`family`), so keys
of different families never coincide, and a range whose bounds share a tag
holds keys of that family only.
-/

namespace Bbdb.Meta

open Bbdb.Bytes

/-! ## Types -/

/-- The canonical identifier of a block: `shard:YYYY-MM-DDThh`. -/
abbrev BlockID := Bytes

/-- Event type (upper byte) and partition bucket (lower byte). -/
abbrev ShardID := UInt16

/-- The storage tier a block lives on. -/
abbrev Tier := UInt8

def tierHot : Tier := 0

def tierWarm : Tier := 1

def tierCold : Tier := 2

/-- What pebble keeps about a sealed block. -/
structure BlockMeta where
  shardID : ShardID
  /-- Unix nanoseconds. -/
  openedAt : Int64
  sealedAt : Int64
  tier : Tier
  size : UInt64
  checksum : UInt32
  deriving DecidableEq, Repr

/-! ## Keys -/

def prefixWAL : Bytes := ascii "wal\x00"

def prefixBlock : Bytes := ascii "blk\x00"

def prefixIdx : Bytes := ascii "idx\x00"

def prefixExpiry : Bytes := ascii "exp\x00"

def prefixSeq : Bytes := ascii "seq\x00"

def prefixMigr : Bytes := ascii "mgr\x00"

/-- The separator of composite keys and of block ids. -/
def colon : UInt8 := 58

def walKey (shard : ShardID) (seq : UInt64) : Bytes :=
  prefixWAL ++ (putUint16 shard ++ putUint64 seq)

/-- The inclusive start of a shard's WAL range. -/
def walKeyStart (shard : ShardID) : Bytes := walKey shard 0

/-- The exclusive end of a shard's WAL range; `shard + 1` wraps. -/
def walKeyEnd (shard : ShardID) : Bytes := walKey (shard + 1) 0

def parseWALKey (key : Bytes) : Except Err (ShardID × UInt64) :=
  if key.length ≠ 14 ∨ key.take 4 ≠ prefixWAL then .error (.msg "invalid WAL key")
  else .ok (getUint16 (key.drop 4), getUint64 (key.drop 6))

def blockKey (id : BlockID) : Bytes := prefixBlock ++ id

/-- The key is the family tag and a block id, which may not be empty. -/
def parseTagged (tag key : Bytes) (text : String) : Except Err BlockID :=
  if key.length ≤ 4 ∨ key.take 4 ≠ tag then .error (.msg text) else .ok (key.drop 4)

def parseBlockKey (key : Bytes) : Except Err BlockID :=
  parseTagged prefixBlock key "invalid block key"

def idxKey (eventType : UInt8) (keyHash : UInt64) (blockID : BlockID) : Bytes :=
  prefixIdx ++ (eventType :: putUint64 keyHash ++ colon :: blockID)

/-- The prefix of all idx entries of (eventType, keyHash). -/
def idxKeyPrefix (eventType : UInt8) (keyHash : UInt64) : Bytes :=
  prefixIdx ++ (eventType :: putUint64 keyHash ++ [colon])

def parseIdxKey (key : Bytes) : Except Err (UInt8 × UInt64 × BlockID) :=
  if key.length < 14 ∨ key.take 4 ≠ prefixIdx then .error (.msg "invalid idx key")
  else if key.getD 13 0 ≠ colon then .error (.msg "invalid idx key: missing separator")
  else .ok (key.getD 4 0, getUint64 (key.drop 5), key.drop 14)

def expiryKey (unixHour : UInt64) (blockID : BlockID) : Bytes :=
  prefixExpiry ++ (putUint64 unixHour ++ colon :: blockID)

/-- An exclusive upper bound of the expiry keys up to `unixHour`. -/
def expiryKeyUpperBound (unixHour : UInt64) : Bytes := prefixExpiry ++ putUint64 (unixHour + 1)

def parseExpiryKey (key : Bytes) : Except Err (UInt64 × BlockID) :=
  if key.length < 13 ∨ key.take 4 ≠ prefixExpiry then .error (.msg "invalid expiry key")
  else if key.getD 12 0 ≠ colon then .error (.msg "invalid expiry key: missing separator")
  else .ok (getUint64 (key.drop 4), key.drop 13)

/-- The key of a shard's WAL sequence counter. -/
def walSeqKey (shard : ShardID) : Bytes := prefixSeq ++ putUint16 shard

def migrationKey (id : BlockID) : Bytes := prefixMigr ++ id

def parseMigrationKey (key : Bytes) : Except Err BlockID :=
  parseTagged prefixMigr key "invalid migration key"

def blockIDFromShardAndHour (shard : ShardID) (hour : Bytes) : BlockID :=
  Text.fmtHex 4 shard.toNat ++ colon :: hour

/-! ## Families -/

/-- The family tag of a key. -/
def family (key : Bytes) : Bytes := key.take 4

@[simp] theorem family_walKey (s : ShardID) (q : UInt64) : family (walKey s q) = prefixWAL := rfl

@[simp] theorem family_walSeqKey (s : ShardID) : family (walSeqKey s) = prefixSeq := rfl

@[simp] theorem family_blockKey (id : BlockID) : family (blockKey id) = prefixBlock := rfl

@[simp] theorem family_idxKey (t : UInt8) (h : UInt64) (id : BlockID) :
    family (idxKey t h id) = prefixIdx := rfl

@[simp] theorem family_expiryKey (h : UInt64) (id : BlockID) :
    family (expiryKey h id) = prefixExpiry := rfl

/-- Keys of different families are different. -/
theorem ne_of_family {a b : Bytes} (h : family a ≠ family b) : a ≠ b := fun he => h (he ▸ rfl)

/-- A key between two keys of the WAL family belongs to it. -/
theorem family_of_mem_walRange {s t : ShardID} {q r : UInt64} {k : Bytes} (hlo : walKey s q ≤ k)
    (hhi : k < walKey t r) : family k = prefixWAL := by
  obtain ⟨x, rfl⟩ := prefix_of_mem_range hlo hhi
  exact List.take_left' rfl

theorem notMem_walRange {s t : ShardID} {q r : UInt64} {k : Bytes} (hk : family k ≠ prefixWAL) :
    ¬ (walKey s q ≤ k ∧ k < walKey t r) := fun h => hk (family_of_mem_walRange h.1 h.2)

theorem idxKey_ne_expiryKey {t : UInt8} {h n : UInt64} {id id' : BlockID} :
    idxKey t h id ≠ expiryKey n id' :=
  ne_of_family (by rw [family_idxKey, family_expiryKey]; decide)

theorem idxKey_ne_blockKey {t : UInt8} {h : UInt64} {id id' : BlockID} :
    idxKey t h id ≠ blockKey id' :=
  ne_of_family (by rw [family_idxKey, family_blockKey]; decide)

theorem blockKey_ne_expiryKey {n : UInt64} {id id' : BlockID} : blockKey id ≠ expiryKey n id' :=
  ne_of_family (by rw [family_blockKey, family_expiryKey]; decide)

/-! ## Layout -/

theorem blockKey_inj {a b : BlockID} : blockKey a = blockKey b ↔ a = b :=
  List.append_right_inj _

theorem walKey_inj {s t : ShardID} {q r : UInt64} : walKey s q = walKey t r ↔ s = t ∧ q = r := by
  constructor
  · intro h
    have h' : putUint16 s ++ putUint64 q = putUint16 t ++ putUint64 r := List.append_cancel_left h
    have hs : s = t := by rw [← getUint16_put s (putUint64 q), ← getUint16_put t (putUint64 r), h']
    subst hs
    exact ⟨rfl, putUint64_inj.mp (List.append_cancel_left h')⟩
  · rintro ⟨rfl, rfl⟩
    rfl

theorem putUint16_inj {s t : UInt16} : putUint16 s = putUint16 t ↔ s = t := by
  constructor
  · intro h
    have hs := getUint16_put s []
    rw [h, getUint16_put] at hs
    exact hs.symm
  · rintro rfl
    rfl

theorem walSeqKey_inj {s t : ShardID} : walSeqKey s = walSeqKey t ↔ s = t := by
  rw [walSeqKey, walSeqKey, List.append_right_inj, putUint16_inj]

/-- WAL keys sort by shard, then by sequence number. -/
theorem walKey_lt {s t : ShardID} {q r : UInt64} :
    walKey s q < walKey t r ↔ s < t ∨ s = t ∧ q < r := by
  rw [walKey, walKey, append_lt_append_left,
    append_lt_append_iff (by simp), putUint16_lt, putUint64_lt, putUint16_inj]

/-- The truncation range of a shard holds its own WAL keys and no other;
for the last shard the end wraps to the first and the range is empty. -/
theorem mem_walRange {s t : ShardID} {q : UInt64} :
    (walKeyStart s ≤ walKey t q ∧ walKey t q < walKeyEnd s) ↔ t = s ∧ s ≠ 0xffff := by
  have h0 : ∀ x : UInt64, ¬ x < 0 := fun x hx => by
    simp [UInt64.lt_iff_toNat_lt] at hx
  rw [walKeyStart, walKeyEnd, ← not_lt, walKey_lt, walKey_lt]
  have hadd : (s + 1).toNat = (s.toNat + 1) % 65536 := by simp [UInt16.toNat_add]
  have hs := UInt16.toNat_lt s
  have ht := UInt16.toNat_lt t
  have hf : s = 0xffff ↔ s.toNat = 65535 := by
    rw [← UInt16.toNat_inj]
    rfl
  have heq : t = s ↔ t.toNat = s.toNat := UInt16.toNat_inj.symm
  have heq' : t = s + 1 ↔ t.toNat = (s + 1).toNat := UInt16.toNat_inj.symm
  simp only [h0, and_false, or_false, Ne, hf, heq, UInt16.lt_iff_toNat_lt, hadd]
  omega

@[simp] theorem parseWALKey_walKey (s : ShardID) (q : UInt64) :
    parseWALKey (walKey s q) = .ok (s, q) := by
  have h4 : (walKey s q).drop 4 = putUint16 s ++ putUint64 q := rfl
  have h6 : (walKey s q).drop 6 = putUint64 q := by
    rw [show 6 = 4 + 2 from rfl, ← List.drop_drop, h4]
    exact List.drop_left' (length_putUint16 s)
  have hlen : (walKey s q).length = 14 := by simp [walKey, prefixWAL, ascii]
  have hpre : (walKey s q).take 4 = prefixWAL := rfl
  simp [parseWALKey, hlen, hpre, h4, h6]

/-- **Every key `ParseWALKey` accepts is the key of what it returned.** -/
theorem walKey_of_parse {k : Bytes} {s : ShardID} {q : UInt64} (h : parseWALKey k = .ok (s, q)) :
    k = walKey s q := by
  unfold parseWALKey at h
  split_ifs at h with hbad
  obtain ⟨hlen, hpre⟩ := not_or.mp hbad
  rw [not_not] at hlen hpre
  cases h
  have hseq : k.drop 6 = putUint64 (getUint64 (k.drop 6)) := by
    have hdrop := drop_eq_putUint64 (b := k) (n := 6) (by omega)
    rwa [List.drop_eq_nil_of_le (i := 6 + 8) (by omega), List.append_nil] at hdrop
  calc k = k.take 4 ++ k.drop 4 := (List.take_append_drop 4 k).symm
    _ = prefixWAL ++ (putUint16 (getUint16 (k.drop 4)) ++ k.drop 6) := by
        rw [hpre, ← drop_eq_putUint16 (by omega)]
    _ = walKey (getUint16 (k.drop 4)) (getUint64 (k.drop 6)) := by rw [walKey, ← hseq]

/-! The idx family: an entry is its prefix followed by the block id. -/

theorem idxKey_eq (t : UInt8) (h : UInt64) (id : BlockID) :
    idxKey t h id = idxKeyPrefix t h ++ id := by
  simp [idxKey, idxKeyPrefix]

theorem length_idxKeyPrefix (t : UInt8) (h : UInt64) : (idxKeyPrefix t h).length = 14 := by
  simp [idxKeyPrefix, prefixIdx, ascii]

theorem idxKeyPrefix_inj {t t' : UInt8} {h h' : UInt64} :
    idxKeyPrefix t h = idxKeyPrefix t' h' ↔ t = t' ∧ h = h' := by
  constructor
  · intro he
    have hc := List.append_cancel_left he
    rw [List.cons_append, List.cons_append, List.cons.injEq] at hc
    exact ⟨hc.1, putUint64_inj.mp (List.append_cancel_right hc.2)⟩
  · rintro ⟨rfl, rfl⟩
    rfl

theorem idxKey_inj {t t' : UInt8} {h h' : UInt64} {id id' : BlockID} :
    idxKey t h id = idxKey t' h' id' ↔ t = t' ∧ h = h' ∧ id = id' := by
  constructor
  · intro he
    rw [idxKey_eq, idxKey_eq] at he
    obtain ⟨hp, hid⟩ := List.append_inj he (by rw [length_idxKeyPrefix, length_idxKeyPrefix])
    obtain ⟨ht, hh⟩ := idxKeyPrefix_inj.mp hp
    exact ⟨ht, hh, hid⟩
  · rintro ⟨rfl, rfl, rfl⟩
    rfl

@[simp] theorem parseIdxKey_idxKey (t : UInt8) (h : UInt64) (id : BlockID) :
    parseIdxKey (idxKey t h id) = .ok (t, h, id) := by
  have hlen : 14 ≤ (idxKey t h id).length := by
    rw [idxKey_eq, List.length_append, length_idxKeyPrefix]
    exact Nat.le_add_right _ _
  have hpre : (idxKey t h id).take 4 = prefixIdx := rfl
  have ht : (idxKey t h id).getD 4 0 = t := rfl
  have h5 : (idxKey t h id).drop 5 = putUint64 h ++ colon :: id := rfl
  have h13 : (idxKey t h id).drop 13 = colon :: id := by
    rw [show 13 = 5 + 8 from rfl, ← List.drop_drop, h5]
    exact List.drop_left' (length_putUint64 h)
  have hsep : (idxKey t h id).getD 13 0 = colon := by
    rw [List.getD_eq_getElem?_getD, ← List.head?_drop, h13]
    rfl
  have h14 : (idxKey t h id).drop 14 = id := by
    rw [show 14 = 13 + 1 from rfl, ← List.drop_drop, h13]
    rfl
  rw [parseIdxKey, if_neg (by simp [hpre]; omega), if_neg (not_not.mpr hsep), ht, h5,
    getUint64_put, h14]

/-- **Every key `ParseIdxKey` accepts is the key of what it returned.** -/
theorem idxKey_of_parse {k : Bytes} {t : UInt8} {n : UInt64} {id : BlockID}
    (h : parseIdxKey k = .ok (t, n, id)) : k = idxKey t n id := by
  unfold parseIdxKey at h
  split_ifs at h with hbad hsep
  obtain ⟨hlen, hpre⟩ := not_or.mp hbad
  rw [not_lt] at hlen
  rw [not_not] at hpre hsep
  cases h
  calc k = k.take 4 ++ k.drop 4 := (List.take_append_drop 4 k).symm
    _ = prefixIdx ++ (k.getD 4 0 :: (putUint64 (getUint64 (k.drop 5)) ++ k.drop 13)) := by
        rw [hpre, ← drop_eq_putUint64 (by omega), ← drop_eq_getD_cons (by omega)]
    _ = idxKey (k.getD 4 0) (getUint64 (k.drop 5)) (k.drop 14) := by
        rw [drop_eq_getD_cons (n := 13) (by omega), hsep]
        rfl

/-! The expiry family. -/

theorem expiryKey_inj {h h' : UInt64} {id id' : BlockID} :
    expiryKey h id = expiryKey h' id' ↔ h = h' ∧ id = id' := by
  constructor
  · intro he
    have hc := List.append_cancel_left he
    obtain ⟨hh, hid⟩ := List.append_inj hc (by simp)
    exact ⟨putUint64_inj.mp hh, (List.cons.inj hid).2⟩
  · rintro ⟨rfl, rfl⟩
    rfl

@[simp] theorem parseExpiryKey_expiryKey (n : UInt64) (id : BlockID) :
    parseExpiryKey (expiryKey n id) = .ok (n, id) := by
  have hlen : 13 ≤ (expiryKey n id).length := by
    simp [expiryKey, prefixExpiry, ascii]
    omega
  have hpre : (expiryKey n id).take 4 = prefixExpiry := rfl
  have h4 : (expiryKey n id).drop 4 = putUint64 n ++ colon :: id := rfl
  have h12 : (expiryKey n id).drop 12 = colon :: id := by
    rw [show 12 = 4 + 8 from rfl, ← List.drop_drop, h4]
    exact List.drop_left' (length_putUint64 n)
  have hsep : (expiryKey n id).getD 12 0 = colon := by
    rw [List.getD_eq_getElem?_getD, ← List.head?_drop, h12]
    rfl
  have h13 : (expiryKey n id).drop 13 = id := by
    rw [show 13 = 12 + 1 from rfl, ← List.drop_drop, h12]
    rfl
  rw [parseExpiryKey, if_neg (by simp [hpre]; omega), if_neg (not_not.mpr hsep), h4,
    getUint64_put, h13]

/-- **Every key `ParseExpiryKey` accepts is the key of what it returned.** -/
theorem expiryKey_of_parse {k : Bytes} {h : UInt64} {id : BlockID}
    (hp : parseExpiryKey k = .ok (h, id)) : k = expiryKey h id := by
  unfold parseExpiryKey at hp
  split_ifs at hp with h1 h2
  obtain ⟨hlen, hpre⟩ := not_or.mp h1
  rw [not_lt] at hlen
  rw [not_not] at hpre h2
  cases hp
  calc k = k.take 4 ++ k.drop 4 := (List.take_append_drop 4 k).symm
    _ = prefixExpiry ++ (putUint64 (getUint64 (k.drop 4)) ++ k.drop 12) := by
        rw [hpre, ← drop_eq_putUint64 (by omega)]
    _ = expiryKey (getUint64 (k.drop 4)) (k.drop 13) := by
        rw [drop_eq_getD_cons (n := 12) (by omega), h2, expiryKey]

/-- Expiry keys sort by hour, then by block id. -/
theorem expiryKey_lt {n n' : UInt64} {id id' : BlockID} :
    expiryKey n id < expiryKey n' id' ↔ n < n' ∨ n = n' ∧ id < id' := by
  have hcolon : ∀ a b : Bytes, colon :: a < colon :: b ↔ a < b :=
    fun a b => append_lt_append_left [colon] a b
  rw [expiryKey, expiryKey, append_lt_append_left, append_lt_append_iff (by simp), putUint64_lt,
    putUint64_inj, hcolon]

/-- The bound of an expiry scan cuts between hours. -/
theorem expiryKey_lt_upperBound {h n : UInt64} {id : BlockID} :
    expiryKey h id < expiryKeyUpperBound n ↔ h < n + 1 := by
  have happ : putUint64 (n + 1) = putUint64 (n + 1) ++ [] := by simp
  rw [expiryKey, expiryKeyUpperBound, append_lt_append_left, happ,
    append_lt_append_iff (by simp), putUint64_lt]
  simp

/-- The limit of the scan does not wrap before the last hour. -/
theorem lt_succ_iff {h n : UInt64} (hn : n.toNat < 2 ^ 64 - 1) : h < n + 1 ↔ h ≤ n := by
  rw [UInt64.lt_iff_toNat_lt, UInt64.le_iff_toNat_le, UInt64.toNat_add,
    show (1 : UInt64).toNat = 1 from rfl]
  omega

end Bbdb.Meta
