import Bbdb.Block.Sealer

/-!
# Query — reading one block

`readBlock` opens a block file, checks footer and header, filters the rows by
the two key columns, and reads the payload column only if a row is left. From
the file of a sealed memtable it returns exactly the matching rows, in the
order of the file (`readRows_blockFile`).
-/

namespace Bbdb.Query

open Bbdb.Block Bbdb.Meta Bbdb.Tier
open Prog hiding pure bind

/-- Whether a row has the key and lies in [from, to). -/
def rowMatches (keyHash : UInt64) (fromNano toNano : Int64) (e : Event) : Bool :=
  e.keyHash = keyHash && fromNano ≤ e.timestamp && e.timestamp < toNano

/-- The loop over the key hashes from row `i` on: the matching row numbers.
The timestamps come from another column, which may be too short. -/
def matchIdx (keyHash : UInt64) (fromNano toNano : Int64) (timestamps : List Int64) :
    Nat → List UInt64 → Except Err (List Nat)
  | _, [] => .ok []
  | i, kh :: khs =>
      if kh ≠ keyHash then matchIdx keyHash fromNano toNano timestamps (i + 1) khs
      else
        match timestamps[i]? with
        | none => .error (.panic "index out of range")
        | some ts => do
            let rest ← matchIdx keyHash fromNano toNano timestamps (i + 1) khs
            .ok (if fromNano ≤ ts && ts < toNano then i :: rest else rest)

/-- The events of the matching rows; a row without a payload is skipped. -/
def collectRows (keyHashes : List UInt64) (timestamps : List Int64) (payloads : List Bytes)
    (idx : List Nat) : List Event :=
  idx.filterMap fun i => payloads[i]?.map fun p => ⟨keyHashes.getD i 0, timestamps.getD i 0, p⟩

variable (libs : Libs)

/-- What `ReadBlock` does with the opened file. -/
def readRows (id : BlockID) (file : Bytes) (keyHash : UInt64) (fromNano toNano : Int64) :
    Except Err (List Event) :=
  if file.length < headerSize + footerSize then
    .error (.msg ("block " ++ Text.quote id ++ " too small: " ++ toString file.length ++ " bytes"))
  else do
    let footer ← wrapErr "decode footer" (decodeFooter (file.drop (file.length - footerSize)))
    let _ ← wrapErr "decode header" (decodeHeader (file.take headerSize))
    let cols ← wrapErr "read filter columns" (readFilterColumns libs file footer)
    let idx ← matchIdx keyHash fromNano toNano cols.2 0 cols.1
    if idx.length = 0 then .ok []
    else do
      let payloads ← readPayloadColumn libs file footer
      .ok (collectRows cols.1 cols.2 payloads idx)

/-- `ReadBlock`. -/
def readBlock (store : LocalStore) (id : BlockID) (keyHash : UInt64) (from_ to_ : Time) :
    Go (List Event) := do
  let file ← orElse (osReadFile (store.blockPath id)) [] (.wrap ("open block " ++ Text.quote id))
  ExceptT.mk (pure (readRows libs id file keyHash (Int64.ofInt from_) (Int64.ofInt to_)))

/-- What an error-free read of a block returns. -/
theorem result_readBlock (w : World) (store : LocalStore) (id : BlockID) (keyHash : UInt64)
    (from_ to_ : Time) :
    ((readBlock libs store id keyHash from_ to_).run.exec w).1 =
      match w.fs (store.blockPath id) with
      | none => .error (.wrap ("open block " ++ Text.quote id) .notExist)
      | some file => readRows libs id file keyHash (Int64.ofInt from_) (Int64.ofInt to_) := by
  cases hfile : w.fs (store.blockPath id) with
  | none =>
      have hopen : (orElse (osReadFile (store.blockPath id)) []
          (.wrap ("open block " ++ Text.quote id))).run.exec w =
          (.error (.wrap ("open block " ++ Text.quote id) .notExist), w) :=
        exec_bind_of (exec_osReadFile_none hfile)
      exact congrArg Prod.fst (exec_bind_of hopen)
  | some file =>
      have hopen : (orElse (osReadFile (store.blockPath id)) []
          (.wrap ("open block " ++ Text.quote id))).run.exec w = (.ok file, w) :=
        exec_bind_of (exec_osReadFile hfile)
      exact congrArg Prod.fst (exec_bindE_of hopen)

/-! ## Reading a sealed memtable -/

section Sealed

variable {libs} {mt : Memtable} {keyHash : UInt64} {fromNano toNano : Int64}

/-- The columns of a memtable at one of its rows. -/
theorem getElem?_columns {i : Nat} (hi : i < mt.len) :
    mt.keyHashes[i]? = some (mt.row i).keyHash ∧ mt.timestamps[i]? = some (mt.row i).timestamp ∧
      mt.payloads[i]? = some (mt.row i).payload := by
  have hts : i < mt.timestamps.length := by rw [mt.length_timestamps]; exact hi
  have hpl : i < mt.payloads.length := by rw [mt.length_payloads]; exact hi
  have hkh : i < mt.keyHashes.length := hi
  simp [Memtable.row, hkh, hts, hpl]

/-- With a timestamp for every hash the loop finds the matching rows. -/
theorem matchIdx_columns (khs : List UInt64) :
    ∀ i, khs = mt.keyHashes.drop i →
      matchIdx keyHash fromNano toNano mt.timestamps i khs =
        .ok ((List.range' i khs.length).filter
          fun j => rowMatches keyHash fromNano toNano (mt.row j)) := by
  induction khs with
  | nil =>
      intro i _
      rfl
  | cons kh khs ih =>
      intro i hdrop
      have hi : i < mt.len := by
        have hlen := congrArg List.length hdrop
        rw [List.length_cons, List.length_drop] at hlen
        unfold Memtable.len
        omega
      obtain ⟨hkh, hts, -⟩ := getElem?_columns hi
      have hcons := List.drop_eq_getElem_cons hi
      rw [← hdrop, List.cons.injEq] at hcons
      have hmine : kh = (mt.row i).keyHash := by
        rw [hcons.1]
        exact Option.some.inj ((List.getElem?_eq_getElem hi).symm.trans hkh)
      have hrest := ih (i + 1) hcons.2
      rw [matchIdx, hts, List.length_cons, List.range'_succ, List.filter_cons, hmine, hrest]
      by_cases hk : (mt.row i).keyHash = keyHash
      · simp [rowMatches, hk, bind, Except.bind]
      · simp [rowMatches, hk]

theorem collectRows_columns {idx : List Nat} (h : ∀ i ∈ idx, i < mt.len) :
    collectRows mt.keyHashes mt.timestamps mt.payloads idx = idx.map mt.row := by
  induction idx with
  | nil => rfl
  | cons i idx ih =>
      have hi := h i List.mem_cons_self
      obtain ⟨-, -, hpl⟩ := getElem?_columns hi
      have hrest := ih fun j hj => h j (List.mem_cons_of_mem _ hj)
      rw [collectRows] at hrest ⊢
      rw [List.filterMap_cons, hpl, Option.map_some, hrest, List.map_cons]
      rfl

/-- **Reading a block file returns its matching rows**, in their order. -/
theorem readRows_blockFile {hdr : BlockHeader} (id : BlockID)
    (hsize : (blockFile libs hdr mt).length < maxBlockFile)
    (hp : ∀ p ∈ mt.payloads, p.length < 2 ^ 32) :
    readRows libs id (blockFile libs hdr mt) keyHash fromNano toNano =
      .ok (mt.rows.filter (rowMatches keyHash fromNano toNano)) := by
  have hlong : ¬ (blockFile libs hdr mt).length < headerSize + footerSize := by
    simp only [blockFile, List.length_append, length_encodeHeader, length_encodeFooter]
    omega
  have hidx : matchIdx keyHash fromNano toNano mt.timestamps 0 mt.keyHashes = _ :=
    matchIdx_columns mt.keyHashes 0 rfl
  have hrows : mt.rows.filter (rowMatches keyHash fromNano toNano) =
      ((List.range' 0 mt.keyHashes.length).filter
        fun j => rowMatches keyHash fromNano toNano (mt.row j)).map mt.row := by
    rw [Memtable.rows, List.filter_map, List.range_eq_range']
    rfl
  simp only [readRows, if_neg hlong, drop_footer_blockFile, decodeFooter_encodeFooter,
    take_header_blockFile, decodeHeader_encodeHeader, readFilterColumns_blockFile hsize, wrapErr,
    bind, Except.bind, hidx]
  split_ifs with hnone
  · rw [hrows, List.length_eq_zero_iff.mp hnone]
    rfl
  · have hin : ∀ i ∈ (List.range' 0 mt.keyHashes.length).filter
        (fun j => rowMatches keyHash fromNano toNano (mt.row j)), i < mt.len := by
      intro i hi
      have := (List.mem_range'_1.mp (List.mem_filter.mp hi).1).2
      unfold Memtable.len
      omega
    simp only [readPayloadColumn_blockFile hsize hp, collectRows_columns hin, hrows]

end Sealed

/-! ## The round trip -/

/-- With bounds that fit their type, a row matches as its timestamp says. -/
theorem rowMatches_eq_true {keyHash : UInt64} {from_ to_ : Time} {e : Event}
    (hfrom : -2 ^ 63 ≤ from_ ∧ from_ < 2 ^ 63) (hto : -2 ^ 63 ≤ to_ ∧ to_ < 2 ^ 63) :
    rowMatches keyHash (Int64.ofInt from_) (Int64.ofInt to_) e = true ↔
      e.keyHash = keyHash ∧ from_ ≤ e.timestamp.toInt ∧ e.timestamp.toInt < to_ := by
  rw [rowMatches, Bool.and_eq_true, Bool.and_eq_true, decide_eq_true_eq, decide_eq_true_eq,
    decide_eq_true_eq, Int64.le_iff_toInt_le, Int64.lt_iff_toInt_lt,
    Int64.toInt_ofInt_of_le hfrom.1 hfrom.2, Int64.toInt_ofInt_of_le hto.1 hto.2, and_assoc]

/-- The three columns follow one another between header and footer. -/
structure Tiles (footer : BlockFooter) (fileSize : Nat) : Prop where
  kh : footer.colOffsets.kh.toNat = headerSize
  ts : footer.colOffsets.ts.toNat = footer.colOffsets.kh.toNat + footer.colSizes.kh.toNat
  pl : footer.colOffsets.pl.toNat = footer.colOffsets.ts.toNat + footer.colSizes.ts.toNat
  end_ : footer.colOffsets.pl.toNat + footer.colSizes.pl.toNat + footerSize = fileSize

theorem tiles_blockFooter {libs : Libs} {hdr : BlockHeader} {mt : Memtable}
    (hsize : (blockFile libs hdr mt).length < maxBlockFile) :
    Tiles (blockFooter libs mt) (blockFile libs hdr mt).length := by
  obtain ⟨s0, s1, s2, o0, o1, o2⟩ := blockFooter_toNat hsize
  refine ⟨o0, by rw [o1, o0, s0], by rw [o2, o1, s1], ?_⟩
  simp only [o2, s2, blockFile, blockBody, List.length_append, length_encodeHeader,
    length_encodeFooter]
  omega

/-- **What `WriteBlockBody` and the footer write, the reader reads back**: the
footer, the header, the three columns row for row, and for every key and
interval exactly the matching rows, in their order. -/
theorem block_file_round_trip (libs : Libs) (hdr : BlockHeader) (mt : Memtable)
    (hp : ∀ p ∈ mt.payloads, p.length < 2 ^ 32) (path : Path) (w w₁ w₂ : World)
    (ws ws' : List World) (footer : BlockFooter) (u : Unit) (hnew : w.fs path = some [])
    (hbody : Runs sem (writeBlockBody libs path hdr mt).run w ws (.ok footer) w₁)
    (hfooter : Runs sem (fileWrite path (encodeFooter footer)).run w₁ ws' (.ok u) w₂) :
    ∃ file, w₂.fs path = some file ∧
      decodeFooter (file.drop (file.length - footerSize)) = .ok footer ∧
      decodeHeader (file.take headerSize) = .ok hdr ∧
      Tiles footer file.length ∧
      readFilterColumns libs file footer = .ok (mt.keyHashes, mt.timestamps) ∧
      readPayloadColumn libs file footer = .ok mt.payloads ∧
      ∀ (store : LocalStore) (id : BlockID) (keyHash : UInt64) (from_ to_ : Time) (w₃ : World),
        w₃.fs (store.blockPath id) = some file → -2 ^ 63 ≤ from_ ∧ from_ < 2 ^ 63 →
        -2 ^ 63 ≤ to_ ∧ to_ < 2 ^ 63 →
        ((readBlock libs store id keyHash from_ to_).run.exec w₃).1 =
          .ok (mt.rows.filter fun e => e.keyHash = keyHash ∧ from_ ≤ e.timestamp.toInt ∧
            e.timestamp.toInt < to_) := by
  obtain ⟨rfl, hfits, rfl⟩ := runs_writeBlockBody_ok hnew hbody
  obtain ⟨-, rfl⟩ := runs_fileWrite_ok (FS.put_self _ _ _) hfooter
  have hfile : encodeHeader hdr ++ blockBody libs mt ++ encodeFooter (blockFooter libs mt) =
      blockFile libs hdr mt := by simp [blockFile]
  have hsize : (blockFile libs hdr mt).length < maxBlockFile := by
    rw [← hfile, List.length_append, List.length_append, length_encodeHeader, length_encodeFooter,
      maxBlockFile]
    omega
  refine ⟨blockFile libs hdr mt, by rw [World.setFile_fs, FS.put_self, hfile], ?_, ?_,
    tiles_blockFooter hsize, readFilterColumns_blockFile hsize,
    readPayloadColumn_blockFile hsize hp, ?_⟩
  · rw [drop_footer_blockFile, decodeFooter_encodeFooter]
  · rw [take_header_blockFile, decodeHeader_encodeHeader]
  · intro store id keyHash from_ to_ w₃ hw₃ hfrom hto
    rw [result_readBlock, hw₃]
    dsimp only
    rw [readRows_blockFile id hsize hp]
    congr 1
    refine List.filter_congr fun e _ => ?_
    rw [Bool.eq_iff_iff, rowMatches_eq_true hfrom hto, decide_eq_true_eq]

/-- A memtable of one row. -/
def oneRowTable : Memtable := Memtable.new.append ⟨256, 1, [1]⟩

/-- A new, empty block file. -/
def emptyFile (path : Path) : World := ⟨Pebble.empty, FS.put (fun _ => none) path (some []), 0⟩

set_option maxRecDepth 100000 in
theorem block_file_round_trip_oneRow :
    let store : LocalStore := ⟨[], tierHot⟩
    let path := store.blockPath (ascii "0000:1970-01-01T00")
    let w₁ := ((writeBlockBody Libs.plain path ⟨0, 0, 0, 0, 1⟩ oneRowTable).run.exec
      (emptyFile path)).2
    let w₂ := ((fileWrite path (encodeFooter (blockFooter Libs.plain oneRowTable))).run.exec w₁).2
    ((readBlock Libs.plain store (ascii "0000:1970-01-01T00") 256 0 2).run.exec w₂).1 =
      .ok [⟨256, 1, [1]⟩] := by
  intro store path w₁ w₂
  have hnew : (emptyFile path).fs path = some [] := by simp [emptyFile]
  have hbody := runs_procExec (writeBlockBody Libs.plain path ⟨0, 0, 0, 0, 1⟩ oneRowTable).run
    (emptyFile path)
  have hok : ((writeBlockBody Libs.plain path ⟨0, 0, 0, 0, 1⟩ oneRowTable).run.exec
      (emptyFile path)).1 = .ok (blockFooter Libs.plain oneRowTable) := by decide +kernel
  rw [hok] at hbody
  have hfooter := runs_procExec (fileWrite path (encodeFooter (blockFooter Libs.plain
    oneRowTable))).run w₁
  have hok' : ((fileWrite path (encodeFooter (blockFooter Libs.plain oneRowTable))).run.exec w₁).1 =
      .ok () := by decide +kernel
  rw [hok'] at hfooter
  obtain ⟨file, hfile, -, -, -, -, -, hread⟩ := block_file_round_trip Libs.plain ⟨0, 0, 0, 0, 1⟩
    oneRowTable (by decide) path (emptyFile path) w₁ w₂ _ _ _ () hnew hbody hfooter
  rw [hread store _ 256 0 2 w₂ hfile (by decide) (by decide)]
  decide +kernel

end Bbdb.Query
