import Bbdb.Meta.Keys

/-!
# Meta — the key space as a whole

A `Key` is a key family with its fields. `Key.encode` is injective
(`encode_inj`), every parser of the package inverts it on its own family and
accepts nothing else (`Parses`), and within the families that are scanned by
range the byte order of the keys is the order of their fields.
-/

namespace Bbdb.Meta

open Bbdb.Bytes

inductive KeyFamily where
  | wal
  | block
  | idx
  | expiry
  | seq
  | migration
  deriving DecidableEq

/-- A family with the fields of one of its keys. -/
inductive Key where
  | wal (shard : ShardID) (seq : UInt64)
  | block (id : BlockID)
  | idx (eventType : UInt8) (keyHash : UInt64) (id : BlockID)
  | expiry (unixHour : UInt64) (id : BlockID)
  | seq (shard : ShardID)
  | migration (id : BlockID)
  deriving DecidableEq

def Key.family : Key → KeyFamily
  | .wal _ _ => .wal
  | .block _ => .block
  | .idx _ _ _ => .idx
  | .expiry _ _ => .expiry
  | .seq _ => .seq
  | .migration _ => .migration

def Key.encode : Key → Bytes
  | .wal shard n => walKey shard n
  | .block id => blockKey id
  | .idx eventType keyHash id => idxKey eventType keyHash id
  | .expiry unixHour id => expiryKey unixHour id
  | .seq shard => walSeqKey shard
  | .migration id => migrationKey id

/-- The block id of the key, if it has one, is not empty. -/
def Key.NonEmpty : Key → Prop
  | .block id | .idx _ _ id | .expiry _ id | .migration id => id ≠ []
  | .wal _ _ | .seq _ => True

/-- The first four bytes of a family's keys. -/
def KeyFamily.tag : KeyFamily → Bytes
  | .wal => prefixWAL
  | .block => prefixBlock
  | .idx => prefixIdx
  | .expiry => prefixExpiry
  | .seq => prefixSeq
  | .migration => prefixMigr

/-- The parser of a family; sequence keys are never parsed. -/
def KeyFamily.parser : KeyFamily → Option (Bytes → Except Err Key)
  | .wal => some fun key => (parseWALKey key).map fun p => .wal p.1 p.2
  | .block => some fun key => (parseBlockKey key).map .block
  | .idx => some fun key => (parseIdxKey key).map fun p => .idx p.1 p.2.1 p.2.2
  | .expiry => some fun key => (parseExpiryKey key).map fun p => .expiry p.1 p.2
  | .migration => some fun key => (parseMigrationKey key).map .migration
  | .seq => none

/-! ## Families -/

theorem tag_inj {f g : KeyFamily} (h : f.tag = g.tag) : f = g := by
  cases f <;> cases g <;> first | rfl | exact absurd h (by decide)

theorem family_encode (k : Key) : family k.encode = k.family.tag := by
  cases k <;> rfl

/-! ## Injectivity -/

theorem migrationKey_inj {a b : BlockID} : migrationKey a = migrationKey b ↔ a = b :=
  List.append_right_inj _

/-- **Different keys have different bytes**, within a family and across
families. -/
theorem encode_inj {k k' : Key} (h : k.encode = k'.encode) : k = k' := by
  have hfamily : k.family = k'.family := by
    apply tag_inj
    rw [← family_encode, ← family_encode, h]
  cases k <;> cases k' <;> cases hfamily
  case wal.wal =>
    obtain ⟨rfl, rfl⟩ := walKey_inj.mp h
    rfl
  case block.block => rw [blockKey_inj.mp h]
  case idx.idx =>
    obtain ⟨rfl, rfl, rfl⟩ := idxKey_inj.mp h
    rfl
  case expiry.expiry =>
    obtain ⟨rfl, rfl⟩ := expiryKey_inj.mp h
    rfl
  case seq.seq => rw [walSeqKey_inj.mp h]
  case migration.migration => rw [migrationKey_inj.mp h]

/-! ## Parsers -/

/-- What a parser of family `f` should do: invert the encoder, reject the keys
of every other family, and accept nothing but keys. -/
structure Parses (f : KeyFamily) (parse : Bytes → Except Err Key) : Prop where
  inverts : ∀ k : Key, k.family = f → k.NonEmpty → parse k.encode = .ok k
  rejects : ∀ k : Key, k.family ≠ f → ∃ e, parse k.encode = .error e
  sound : ∀ b k, parse b = .ok k → k.family = f ∧ k.encode = b

theorem parseTagged_append {tag : Bytes} (htag : tag.length = 4) {id : BlockID} (hid : id ≠ [])
    (text : String) : parseTagged tag (tag ++ id) text = .ok id := by
  have hlen : 0 < id.length := List.length_pos_of_ne_nil hid
  have hshort : ¬ (tag ++ id).length ≤ 4 := by
    rw [List.length_append]
    omega
  have htake : (tag ++ id).take 4 = tag := List.take_left' htag
  rw [parseTagged, if_neg (not_or.mpr ⟨hshort, not_not.mpr htake⟩), List.drop_left' htag]

theorem append_of_parseTagged {tag key : Bytes} {id : BlockID} {text : String}
    (h : parseTagged tag key text = .ok id) : tag ++ id = key := by
  unfold parseTagged at h
  split_ifs at h with hbad
  cases h
  rw [← not_not.mp (not_or.mp hbad).2, List.take_append_drop]

theorem ok_of_map {α β : Type} {f : α → β} {r : Except Err α} {b : β} (h : r.map f = .ok b) :
    ∃ a, r = .ok a ∧ f a = b := by
  cases r with
  | error e => cases h
  | ok a =>
      cases h
      exact ⟨a, rfl, rfl⟩

/-- **Every key a parser accepts is the encoding of what it returned.** -/
theorem parser_exact {f : KeyFamily} {parse : Bytes → Except Err Key} {b : Bytes} {k : Key}
    (hf : f.parser = some parse) (h : parse b = .ok k) : k.family = f ∧ k.encode = b := by
  cases f with
  | seq => cases hf
  | wal =>
      cases hf
      obtain ⟨p, hp, rfl⟩ := ok_of_map h
      exact ⟨rfl, (walKey_of_parse hp).symm⟩
  | block =>
      cases hf
      obtain ⟨id, hp, rfl⟩ := ok_of_map h
      exact ⟨rfl, append_of_parseTagged hp⟩
  | idx =>
      cases hf
      obtain ⟨p, hp, rfl⟩ := ok_of_map h
      exact ⟨rfl, (idxKey_of_parse hp).symm⟩
  | expiry =>
      cases hf
      obtain ⟨p, hp, rfl⟩ := ok_of_map h
      exact ⟨rfl, (expiryKey_of_parse hp).symm⟩
  | migration =>
      cases hf
      obtain ⟨id, hp, rfl⟩ := ok_of_map h
      exact ⟨rfl, append_of_parseTagged hp⟩

theorem parser_inverts {parse : Bytes → Except Err Key} {k : Key}
    (hf : k.family.parser = some parse) (hk : k.NonEmpty) : parse k.encode = .ok k := by
  cases k with
  | seq s => cases hf
  | wal s q =>
      cases hf
      show (parseWALKey (walKey s q)).map _ = _
      rw [parseWALKey_walKey]
      rfl
  | block id =>
      cases hf
      show (parseTagged prefixBlock (prefixBlock ++ id) _).map _ = _
      rw [parseTagged_append rfl hk]
      rfl
  | idx t n id =>
      cases hf
      show (parseIdxKey (idxKey t n id)).map _ = _
      rw [parseIdxKey_idxKey]
      rfl
  | expiry n id =>
      cases hf
      show (parseExpiryKey (expiryKey n id)).map _ = _
      rw [parseExpiryKey_expiryKey]
      rfl
  | migration id =>
      cases hf
      show (parseTagged prefixMigr (prefixMigr ++ id) _).map _ = _
      rw [parseTagged_append rfl hk]
      rfl

/-- **Every parser is exact.** -/
theorem parser_parses {f : KeyFamily} {parse : Bytes → Except Err Key}
    (hf : f.parser = some parse) : Parses f parse where
  inverts k hk hid := parser_inverts (hk ▸ hf) hid
  rejects k hk := by
    cases h : parse k.encode with
    | error e => exact ⟨e, rfl⟩
    | ok k' =>
        -- it would be the encoding of a key of family `f`
        obtain ⟨hfam, henc⟩ := parser_exact hf h
        exact absurd (encode_inj henc ▸ hfam) hk
  sound b k h := parser_exact hf h

/-! ## Order -/

/-- Index keys sort by event type, then by key hash, then by block id. -/
theorem idxKey_lt {t t' : UInt8} {n n' : UInt64} {id id' : BlockID} :
    idxKey t n id < idxKey t' n' id' ↔ t < t' ∨ t = t' ∧ (n < n' ∨ n = n' ∧ id < id') := by
  have hcolon : ∀ a b : Bytes, colon :: a < colon :: b ↔ a < b :=
    fun a b => append_lt_append_left [colon] a b
  rw [idxKey, idxKey, append_lt_append_left, List.cons_append, List.cons_append,
    List.cons_lt_cons_iff, append_lt_append_iff (by simp), putUint64_lt, putUint64_inj, hcolon]

/-- **The key space**: encodings are injective over all families, the parsers
are exact, and in the scanned families the byte order is the order of the
fields. -/
theorem key_space :
    (∀ k k' : Key, k.encode = k'.encode → k = k') ∧
    (∀ (f : KeyFamily) (parse : Bytes → Except Err Key), f.parser = some parse → Parses f parse) ∧
    (∀ (s s' : ShardID) (q q' : UInt64),
      walKey s q < walKey s' q' ↔ s < s' ∨ s = s' ∧ q < q') ∧
    (∀ (t t' : UInt8) (n n' : UInt64) (id id' : BlockID),
      idxKey t n id < idxKey t' n' id' ↔ t < t' ∨ t = t' ∧ (n < n' ∨ n = n' ∧ id < id')) ∧
    ∀ (n n' : UInt64) (id id' : BlockID),
      expiryKey n id < expiryKey n' id' ↔ n < n' ∨ n = n' ∧ id < id' :=
  ⟨fun _ _ h => encode_inj h, fun _ _ hf => parser_parses hf, fun _ _ _ _ => walKey_lt,
    fun _ _ _ _ _ _ => idxKey_lt, fun _ _ _ _ => expiryKey_lt⟩

end Bbdb.Meta
