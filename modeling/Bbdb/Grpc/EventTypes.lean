import Bbdb.Grpc.QueryServer
import Bbdb.Ingestion.RingSteps
import Bbdb.Ingestion.Sealed
import Bbdb.Query.Refines
import Bbdb.Tier.Names
import Bbdb.Ttl.Reaper

/-!
# gRPC — event types, from the write API to the read API

On the wire an event type has 32 bits, in the store it has 8. The write API
refuses what does not fit; the read API cuts it off. So a query for the type
`v` streams events that were written with the type `v % 256`: those of `v` if
`v` is at most 255, and other ones, which it should not, if it is larger
(`eventType_filter_iff`).

The type of a row is not stored with it. It is the upper byte of its shard,
and the shard is part of the block id: what a block file of a shard holds was
pushed to that shard (`HoldsOnly`).
-/

namespace Bbdb.Grpc

open Bbdb.Block Bbdb.Meta Bbdb.Tier Bbdb.Index Bbdb.Ingestion Bbdb.Query Bbdb.Ttl Bbdb.Stream
open GoTime
open Prog hiding pure bind

/-! ## What the write API accepts -/

/-- An event that was written, with the key it was given. -/
structure Written where
  eventType : UInt32
  key : Bytes
  row : Event

def Written.shard (libs : Libs) (a : Written) : ShardID :=
  shardFor libs a.key a.eventType.toUInt8

/-- An event that `handleBatch` has pushed to the writer of its shard: one of
the converted events of the batch, with its type and the key it was given. A
message, and so a payload, is below two gigabytes. -/
def Admitted (libs : Libs) (a : Written) : Prop :=
  ∃ (uuids : Nat → Bytes) (env : Surroundings) (order : GroupOrder) (n : Nat) (req : WriteRequest)
    (rs rs' : Rings) (resp : WriteResponse) (rows : List Event) (w w' : World) (ws : List World)
    (pushes : List (ShardID × Event)) (i : Nat) (e : ProtoEvent),
    Runs sem (handleBatch libs uuids env order n req rs) w ws (some (resp, rs')) w' ∧
      rs'.pushed = rs.pushed ++ pushes ∧ (a.shard libs, a.row) ∈ pushes ∧
      Runs sem (protoEventsToBlock libs uuids 0 req.events) w ws (rows, resp.partitionKeys) w' ∧
      req.events[i]? = some e ∧ resp.partitionKeys[i]? = some a.key ∧ rows[i]? = some a.row ∧
      e.eventType = a.eventType ∧ e.payload.length < 2 ^ 31

/-- The types of a batch that pushes anything are all in range. -/
theorem Admitted.eventType_le {libs : Libs} {a : Written} (h : Admitted libs a) :
    a.eventType ≤ 255 := by
  obtain ⟨_, _, _, _, req, _, _, _, _, _, _, _, pushes, i, e, hrun, hnew, hmem, -, he, -, -,
    htype, -⟩ := h
  obtain ⟨rows, keys, -, hresp⟩ := runs_handleBatch hrun
  rw [← htype]
  by_contra hbad
  have hsame := respond_invalid ⟨e, List.mem_of_getElem? he, UInt32.not_le.mp hbad⟩ hresp
  rw [hsame] at hnew
  rw [List.append_right_eq_self.mp hnew.symm] at hmem
  cases hmem

theorem Admitted.payload_lt {libs : Libs} {a : Written} (h : Admitted libs a) :
    a.row.payload.length < 2 ^ 32 := by
  obtain ⟨_, _, _, _, req, _, _, _, rows, _, _, _, _, i, e, -, -, -, hrun, he, -, hrow, -,
    hlen⟩ := h
  obtain ⟨-, -, hall⟩ := runs_protoEventsToBlock hrun
  obtain ⟨hi, he⟩ := List.getElem?_eq_some_iff.mp he
  obtain ⟨hi', hrow⟩ := List.getElem?_eq_some_iff.mp hrow
  have hpayload := (hall.get hi hi').1
  rw [List.get_eq_getElem, List.get_eq_getElem, hrow, he] at hpayload
  rw [hpayload]
  omega

/-! ## What the blocks of a shard hold -/

/-- The event type of a shard. -/
def shardType (shard : ShardID) : UInt8 := (shard >>> 8).toUInt8

/-- Every block file is that of a memtable with rows of its shard, as `R` has
them, and the index keys of a block have the type of its shard. -/
structure HoldsOnly (libs : Libs) (R : ShardID → Event → Prop) (w : World) : Prop where
  file : ∀ (st : LocalStore) (shard : ShardID) (t : Int64) (file : Bytes),
    w.fs (st.blockPath (blockIDForShard shard t)) = some file →
      ∃ hdr mt, file = blockFile libs hdr mt ∧ file.length < maxBlockFile ∧
        ∀ e ∈ mt.rows, R shard e
  index : ∀ et kh id, (w.db.view.get (idxKey et kh id)).isSome →
    ∃ shard t, id = blockIDForShard shard t ∧ shardType shard = et

namespace HoldsOnly

variable {libs : Libs} {R R' : ShardID → Event → Prop} {w w' : World} {ws : List World}

theorem mono (h : HoldsOnly libs R w) (hR : ∀ shard e, R shard e → R' shard e) :
    HoldsOnly libs R' w := by
  refine ⟨fun st shard t file hfile => ?_, h.index⟩
  obtain ⟨hdr, mt, heq, hsize, hrows⟩ := h.file st shard t file hfile
  exact ⟨hdr, mt, heq, hsize, fun e he => hR shard e (hrows e he)⟩

/-- Block files that stay or go, and no new index keys. -/
theorem shrinks (h : HoldsOnly libs R w)
    (hfs : ∀ (st : LocalStore) id, w'.fs (st.blockPath id) = w.fs (st.blockPath id) ∨
      w'.fs (st.blockPath id) = none)
    (hidx : ∀ et kh id, w'.db.view.get (idxKey et kh id) = w.db.view.get (idxKey et kh id)) :
    HoldsOnly libs R w' := by
  refine ⟨fun st shard t file hfile => ?_, fun et kh id hk => h.index et kh id ?_⟩
  · rcases hfs st (blockIDForShard shard t) with hsame | hnone
    · exact h.file st shard t file (hsame ▸ hfile)
    · rw [hnone] at hfile
      cases hfile
  · rwa [hidx] at hk

theorem walOnly (h : HoldsOnly libs R w) (hw : WalOnly w w') : HoldsOnly libs R w' :=
  h.shrinks (fun _ _ => Or.inl (by rw [hw.1]))
    fun et kh id => hw.2 _ (by rw [family_idxKey]; decide) (by rw [family_idxKey]; decide)

/-- A `Seal` of rows of the shard, whatever its result. -/
theorem sealBlock {req : SealRequest} {r : Except Err BlockID} (h : HoldsOnly libs R w)
    (htype : req.eventType = shardType req.shard) (hrows : ∀ e ∈ req.memtable.rows, R req.shard e)
    (hrun : Runs sem (sealBlock libs req).run w ws r w') : HoldsOnly libs R w' := by
  have hbeside := beside_of_runs hrun
  refine ⟨fun st shard t file hfile => ?_, fun et kh id hk => ?_⟩
  · by_cases hid : blockIDForShard shard t = req.blockID
    · -- a file of this block: the new one, or one that was there
      obtain ⟨rfl, -⟩ := blockID_inj.mp hid
      have hkeep : w'.fs (st.blockPath (blockIDForShard req.shard t)) =
          w.fs (st.blockPath (blockIDForShard req.shard t)) ∨
          w'.fs (st.blockPath (blockIDForShard req.shard t)) = some (req.file libs) ∧
            (req.file libs).length < maxBlockFile := by
        by_cases hpath : st.blockPath (blockIDForShard req.shard t) = req.blockPath
        · rw [hpath]
          exact blockFile_of_runs hrun
        · exact Or.inl (files_of_runs hrun (tmpPath_ne_blockPath _ _ _ _).symm
            (blockPath_ne_bloomPath _ _ _ _) hpath)
      rcases hkeep with hold | ⟨hnew, hsize⟩
      · rw [hold] at hfile
        exact h.file st req.shard t file hfile
      · rw [hnew] at hfile
        cases hfile
        refine ⟨req.header, req.sorted libs, rfl, hsize, fun e he => hrows e ?_⟩
        exact (req.memtable.perm_rows_sort libs).mem_iff.mp he
    · rw [hbeside.block st _ hid] at hfile
      exact h.file st shard t file hfile
  · by_cases hid : id = req.blockID
    · by_cases het : et = req.eventType
      · exact ⟨req.shard, req.openedAt, hid, by rw [het, htype]⟩
      · subst hid
        rw [idx_of_runs hrun het] at hk
        exact h.index et kh _ hk
    · rw [hbeside.idx et kh id hid] at hk
      exact h.index et kh id hk

theorem runOnce {cfg : ReaperConfig} {r : Except Err Unit} (h : HoldsOnly libs R w)
    (hrun : Runs sem (Ttl.runOnce cfg).run w ws r w') : HoldsOnly libs R w' := by
  have hfirst := blockFirst_of_runs hrun
  obtain ⟨t, ws', -, rfl, hchain⟩ := runs_runOnce hrun
  refine h.shrinks (fun st id => (hfirst.files st id).imp_left And.left) fun et kh id => ?_
  let Same : World → World → Prop := fun x y =>
    y.db.view.get (idxKey et kh id) = x.db.view.get (idxKey et kh id)
  have hc : List.IsChain Same (readClock w t :: ws') := by
    refine hchain.imp fun x y hxy => ?_
    rcases hxy.db with hdb | ⟨e, -, hdb⟩
    · exact congrArg (fun d : Pebble => d.view.get (idxKey et kh id)) hdb
    · show y.db.view.get _ = x.db.view.get _
      rw [hdb, Pebble.view_commit, get_deleteOps_idxKey]
  have htrans : ∀ {a b c}, Same a b → Same b c → Same a c := fun h₁ h₂ => Eq.trans h₂ h₁
  have hlast : w' ∈ readClock w t :: ws' := by
    have := hrun.getLast
    rw [List.getLast?_cons_cons] at this
    exact List.mem_of_getLast? this
  exact Prog.chain_forall (G := Same) (fun _ => rfl) htrans hc w' hlast

/-- **What a query for one type returns was pushed to a shard of that type.** -/
theorem of_query {eng : Engine} {c c' : BloomCache libs} {req : QueryRequest} {et : UInt8}
    {out : List Event} {e : Event} (h : HoldsOnly libs R w)
    (hR : ∀ shard e, R shard e → e.payload.length < 2 ^ 32) (htype : req.eventType = some et)
    (hrun : Runs sem (query libs eng c req) w ws (.ok out, c') w') (he : e ∈ out) :
    e.keyHash = keyHashFor libs req.partitionKey ∧ ∃ shard, shardType shard = et ∧ R shard e := by
  obtain ⟨id, hid, store, rows, ⟨file, hfile, hread⟩, hmem⟩ := mem_of_runs_query hrun he
  rw [candidatesIn, htype] at hid
  obtain ⟨shard, t, rfl, hshard⟩ := h.index _ _ _ (mem_foundBlocks.mp hid).1
  obtain ⟨hdr, mt, rfl, hsize, hrows⟩ := h.file store shard t file hfile
  have hpayloads : ∀ p ∈ mt.payloads, p.length < 2 ^ 32 := by
    intro p hp
    rw [← mt.map_rows.2.2] at hp
    obtain ⟨x, hx, rfl⟩ := List.mem_map.mp hp
    exact hR shard x (hrows x hx)
  rw [readRows_blockFile _ hsize hpayloads] at hread
  cases hread
  obtain ⟨hin, hmatch⟩ := List.mem_filter.mp hmem
  refine ⟨?_, shard, hshard, hrows e hin⟩
  rw [rowMatches, Bool.and_eq_true, Bool.and_eq_true, decide_eq_true_eq] at hmatch
  exact hmatch.1.1

end HoldsOnly

/-! ## The server -/

structure ServerState where
  world : World
  writers : ShardID → Option ShardWriter
  /-- What has been pushed by batches so far. -/
  written : List Written

/-- A server on an empty directory. -/
def ServerState.start (clock : Time) : ServerState :=
  ⟨⟨Pebble.empty, fun _ => none, clock⟩, fun _ => none, []⟩

/-- The world changes, and the writer of a shard with it. -/
def ServerState.setWriter (s : ServerState) (w : World) (shard : ShardID)
    (sw : Option ShardWriter) : ServerState :=
  { s with world := w, writers := Function.update s.writers shard sw }

/-- The states of a server: writers are created and stopped, batches push
admitted events, writers flush and seal, the reaper sweeps. Each of these may
fail in any way. -/
inductive Serving (libs : Libs) : ServerState → Prop
  | start (clock : Time) : Serving libs (.start clock)
  | created {s : ServerState} {shard : ShardID} {cfg : WriterConfig} {sw : ShardWriter}
      {ws : List World} {w' : World} (h : Serving libs s) (hnone : s.writers shard = none)
      (hrun : Runs sem (newShardWriter shard cfg) s.world ws sw w') :
      Serving libs (s.setWriter w' shard (some sw))
  | pushed {s : ServerState} {a : Written} {sw : ShardWriter} {rb : RingBuf}
      (h : Serving libs s) (ha : Admitted libs a) (hw : s.writers (a.shard libs) = some sw)
      (hpush : sw.ring.push a.row = some rb) :
      Serving libs { s.setWriter s.world (a.shard libs) (some { sw with ring := rb }) with
        written := s.written ++ [a] }
  | flushed {s : ServerState} {shard : ShardID} {sw sw' : ShardWriter} {force : Bool}
      {r : Option (Except Err BlockID)} {ws : List World} {w' : World} (h : Serving libs s)
      (hw : s.writers shard = some sw)
      (hrun : Runs sem (flushAndMaybeSeal libs sw force) s.world ws (sw', r) w') :
      Serving libs (s.setWriter w' shard (some sw'))
  | stopped {s : ServerState} (shard : ShardID) (h : Serving libs s) :
      Serving libs (s.setWriter s.world shard none)
  | reaped {s : ServerState} {cfg : ReaperConfig} {r : Except Err Unit} {ws : List World}
      {w' : World} (h : Serving libs s) (hrun : Runs sem (runOnce cfg).run s.world ws r w') :
      Serving libs { s with world := w' }

/-- The row was written to the shard. -/
def ServerState.Wrote (libs : Libs) (s : ServerState) (shard : ShardID) (e : Event) : Prop :=
  ∃ a ∈ s.written, a.shard libs = shard ∧ a.row = e

/-- A writer handles rows of its own shard. -/
structure WriterHolds (R : ShardID → Event → Prop) (shard : ShardID) (sw : ShardWriter) :
    Prop where
  shard_eq : sw.shard = shard
  ring : ∃ pushed popped, RingOK sw.ring pushed popped ∧ ∀ e ∈ pushed, R shard e
  table : ∀ e ∈ sw.memtable.rows, R shard e

structure ServingOK (libs : Libs) (s : ServerState) : Prop where
  admitted : ∀ a ∈ s.written, Admitted libs a
  writers : ∀ shard sw, s.writers shard = some sw → WriterHolds (s.Wrote libs) shard sw
  blocks : HoldsOnly libs (s.Wrote libs) s.world

section Invariant

variable {libs : Libs} {s : ServerState} {R R' : ShardID → Event → Prop} {shard : ShardID}
  {sw sw' : ShardWriter} {w w' : World} {ws : List World}

theorem WriterHolds.mono (h : WriterHolds R shard sw) (hR : ∀ shard e, R shard e → R' shard e) :
    WriterHolds R' shard sw := by
  obtain ⟨pushed, popped, hring, hrows⟩ := h.ring
  exact ⟨h.shard_eq, ⟨pushed, popped, hring, fun e he => hR shard e (hrows e he)⟩,
    fun e he => hR shard e (h.table e he)⟩

/-- Drained rows are pushed ones. -/
theorem WriterHolds.drained (h : WriterHolds R shard sw) {mt : Memtable}
    (hrun : Runs sem (processEvents libs sw.shard sw.ring.drainAll.1 sw.memtable) w ws mt w') :
    WriterHolds R shard (sw.drained mt) := by
  obtain ⟨pushed, popped, hring, hrows⟩ := h.ring
  have hdrained := hring.drain_call
  refine ⟨h.shard_eq, ⟨pushed, _, hdrained, hrows⟩, fun e he => ?_⟩
  have hmt : e ∈ sw.memtable.rows ++ sw.ring.drainAll.1 := by
    rw [← runs_processEvents_rows hrun]
    exact he
  rcases List.mem_append.mp hmt with hold | hnew
  · exact h.table e hold
  · exact hrows e (hdrained.popped.subset (List.mem_append_right _ hnew))

theorem WriterHolds.reopened (h : WriterHolds R shard sw) (t : Time) :
    WriterHolds R shard (sw.reopened t) :=
  ⟨h.shard_eq, h.ring, fun e he => (by cases he)⟩

theorem holdsOnly_readClock (h : HoldsOnly libs R w) (t : Time) : HoldsOnly libs R (readClock w t) :=
  h.shrinks (fun _ _ => Or.inl rfl) fun _ _ _ => rfl

/-- A flush keeps the rows of the shard together. -/
theorem WriterHolds.flush {force : Bool} {r : Option (Except Err BlockID)}
    (h : WriterHolds R shard sw) (hb : HoldsOnly libs R w)
    (hrun : Runs sem (flushAndMaybeSeal libs sw force) w ws (sw', r) w') :
    WriterHolds R shard sw' ∧ HoldsOnly libs R w' := by
  obtain ⟨mt, w₁, ws₁, hdrain, hrest⟩ := runs_flush hrun
  have hholds := h.drained hdrain
  have hb₁ := hb.walOnly (walOnly_of_processEvents hdrain)
  rcases hrest with ⟨-, rfl, ⟨-, rfl⟩ | ⟨t, -, rfl, -⟩⟩ |
    ⟨store, t, res, ws₂, -, -, -, -, hseal, -, rfl⟩
  · exact ⟨hholds, hb₁⟩
  · exact ⟨hholds, holdsOnly_readClock hb₁ t⟩
  · refine ⟨hholds.reopened t, (holdsOnly_readClock hb₁ t).sealBlock rfl ?_ hseal⟩
    intro e he
    have hrow := hholds.table e he
    rw [← hholds.shard_eq] at hrow
    exact hrow

/-- The writers after the one of a shard has changed. -/
theorem forall_update {P : ShardID → ShardWriter → Prop} {m : ShardID → Option ShardWriter}
    {o : Option ShardWriter} (h : ∀ k sw, m k = some sw → P k sw)
    (ho : ∀ sw, o = some sw → P shard sw) :
    ∀ k sw, Function.update m shard o k = some sw → P k sw := by
  intro k sw hk
  by_cases hshard : k = shard
  · subst hshard
    rw [Function.update_self] at hk
    exact ho sw hk
  · rw [Function.update_of_ne hshard] at hk
    exact h k sw hk

theorem servingOK (h : Serving libs s) : ServingOK libs s := by
  induction h with
  | start clock =>
      refine ⟨fun a ha => (by cases ha), fun _ _ hw => (by cases hw), ⟨?_, ?_⟩⟩
      · intro _ _ _ _ hfile
        cases hfile
      · intro _ _ _ hk
        cases hk
  | @created s shard cfg sw ws w' _ hnone hrun ih =>
      obtain ⟨t, -, rfl, -, hshard, -, -, hring, htable, -⟩ := runs_newShardWriter hrun
      refine ⟨ih.admitted, forall_update ih.writers fun sw' hsw => ?_,
        holdsOnly_readClock ih.blocks t⟩
      cases hsw
      refine ⟨hshard, ⟨[], [], ?_, fun e he => (by cases he)⟩, ?_⟩
      · rw [hring]
        exact ringOK_newRingBuf _
      · rw [htable]
        intro e he
        cases he
  | @pushed s a sw rb _ ha hw hpush ih =>
      have hR : ∀ shard e, s.Wrote libs shard e →
          ∃ x ∈ s.written ++ [a], x.shard libs = shard ∧ x.row = e := by
        rintro shard e ⟨x, hx, heq⟩
        exact ⟨x, List.mem_append_left _ hx, heq⟩
      refine ⟨List.forall_mem_append.mpr ⟨ih.admitted, List.forall_mem_singleton.mpr ha⟩,
        forall_update (fun k sw hk => (ih.writers k sw hk).mono hR) fun sw' hsw => ?_,
        ih.blocks.mono hR⟩
      cases hsw
      have hold := (ih.writers _ sw hw).mono hR
      obtain ⟨pushed, popped, hring, hrows⟩ := hold.ring
      refine ⟨hold.shard_eq, ⟨pushed ++ [a.row], popped, hring.push_call hpush, ?_⟩, hold.table⟩
      refine List.forall_mem_append.mpr ⟨hrows, List.forall_mem_singleton.mpr ?_⟩
      exact ⟨a, List.mem_append_right _ (List.mem_singleton_self a), rfl, rfl⟩
  | flushed _ hw hrun ih =>
      obtain ⟨hwriter, hblocks⟩ := (ih.writers _ _ hw).flush ih.blocks hrun
      refine ⟨ih.admitted, forall_update ih.writers fun sw hsw => ?_, hblocks⟩
      cases hsw
      exact hwriter
  | stopped shard _ ih =>
      exact ⟨ih.admitted, forall_update ih.writers fun _ hsw => (by cases hsw), ih.blocks⟩
  | reaped _ hrun ih => exact ⟨ih.admitted, ih.writers, ih.blocks.runOnce hrun⟩

end Invariant

/-! ## Streams -/

/-- The engine as the reader of the server: a function of the cache it finds,
with `text` for the texts of its errors. -/
def engineReader (libs : Libs) (eng : Engine) (text : Err → String) (q : QueryRequest) :
    StateT (BloomCache libs) Proc (Except String (List Event)) := fun c => do
  let (r, c') ← Query.query libs eng c q
  pure (r.mapError text, c')

/-- A call of the read API, with the cache it leaves. -/
def serve (libs : Libs) (eng : Engine) (text : Err → String) (fails : Nat → Option String)
    (c : BloomCache libs) (req : ProtoQueryRequest) :
    Proc ((Option String × Sent QueryResponse) × BloomCache libs) :=
  (QueryServer.query fails (engineReader libs eng text) req Sent.start).run c

section Streams

variable {libs : Libs} {eng : Engine} {text : Err → String} {fails : Nat → Option String}
  {c c' : BloomCache libs} {req : ProtoQueryRequest} {w w' : World} {ws : List World}
  {out : Option String × Sent QueryResponse}

/-- The events of a stream. -/
def streamed (out : Option String × Sent QueryResponse) : List ProtoEvent :=
  out.2.sent.flatMap QueryResponse.events

theorem streamed_error (msg : String) :
    streamed (send fails (terminalError 0 msg) Sent.start) = [] :=
  QueryServer.events_terminalError msg

theorem streamed_ok (h : ∀ i, fails i = none) (events : List Event) :
    streamed (QueryServer.sendResult fails req Sent.start (.ok events)) =
      blockEventsToProto events req.partitionKey := by
  rw [QueryServer.sendResult_ok, streamed, (sendAll_all h _ _).2]
  exact (QueryServer.complete_messages _).told

/-- **A stream sends rows of the answer of its engine.** -/
theorem runs_serve (h : Runs sem (serve libs eng text fails c req) w ws (out, c') w')
    {p : ProtoEvent} (hp : p ∈ streamed out) :
    ∃ events ws' w'', Runs sem (Query.query libs eng c (QueryServer.qreq req)) w ws'
        (.ok events, c') w'' ∧ p ∈ blockEventsToProto events req.partitionKey := by
  unfold serve QueryServer.query at h
  split_ifs at h with hkey horder
  · obtain ⟨-, hout, -⟩ := h
    cases hout
    rw [streamed_error] at hp
    cases hp
  · obtain ⟨⟨r, c₁⟩, w₁, ws₁, ws₂, -, hread, hk⟩ := runs_bind.mp h
    obtain ⟨⟨res, c₂⟩, w₂, ws₃, ws₄, -, hquery, hpure⟩ := runs_bind.mp hread
    obtain ⟨-, hr, rfl⟩ := hpure
    cases hr
    obtain ⟨-, hout, rfl⟩ := hk
    cases hout
    cases res with
    | error e =>
        have hnone : streamed (QueryServer.sendResult fails req Sent.start (.error (text e))) = [] :=
          streamed_error (text e)
        have hp' : p ∈ streamed (QueryServer.sendResult fails req Sent.start (.error (text e))) := hp
        rw [hnone] at hp'
        cases hp'
    | ok events =>
        refine ⟨events, ws₃, _, hquery, ?_⟩
        have hp' : p ∈ streamed (QueryServer.sendResult fails req Sent.start (.ok events)) := hp
        rw [QueryServer.sendResult_ok] at hp'
        exact (QueryServer.events_prefix _).subset hp'
  · obtain ⟨-, hout, -⟩ := h
    cases hout
    rw [streamed_error] at hp
    cases hp

/-- What is sent when the engine has answered. -/
theorem exec_serve {events : List Event} (hkey : req.partitionKey.length ≠ 0)
    (horder : (QueryServer.qreq req).from_ < (QueryServer.qreq req).to_)
    (h : (Query.query libs eng c (QueryServer.qreq req)).exec w = ((.ok events, c'), w')) :
    (serve libs eng text fails c req).exec w =
      ((QueryServer.sendResult fails req Sent.start (.ok events), c'), w') := by
  have hread : (engineReader libs eng text (QueryServer.qreq req) c).exec w =
      ((.ok events, c'), w') := exec_bind_of h
  rw [serve, QueryServer.query, if_neg hkey, if_neg (not_not.mpr horder)]
  exact exec_bind_of hread

end Streams

/-! ## A store with one event -/

/-- An event of the type `et`. -/
def typedEvent (et : UInt8) : Written := ⟨et.toUInt32, [1, 0], ⟨256, 1, [1]⟩⟩

/-- A batch with nothing but that event. -/
def typedBatch (et : UInt8) : WriteRequest := ⟨[⟨[1, 0], et.toUInt32, 1, [1]⟩], ""⟩

theorem admitted_typedEvent (et : UInt8) : Admitted Libs.plain (typedEvent et) := by
  have hle : ¬ et.toUInt32 > 255 := by
    have := et.toNat_lt
    rw [gt_iff_lt, UInt32.lt_iff_toNat_lt, UInt8.toNat_toUInt32]
    exact Nat.not_lt.mpr (Nat.le_of_lt_succ this)
  have hring : ((newRingBuf 1).push ⟨256, 1, [1]⟩).isSome = true := by decide +kernel
  obtain ⟨rb, hpush⟩ := Option.isSome_iff_exists.mp hring
  have hresp : respond Libs.plain (alone false) insertionOrder 1 (typedBatch et) [⟨256, 1, [1]⟩]
      [[1, 0]] (freshRings 1) = some (⟨"", 1, [[1, 0]], none⟩,
        ((freshRings 1).look (alone false)).store ((typedEvent et).shard Libs.plain) rb
          ⟨256, 1, [1]⟩) := by
    have hfind : (typedBatch et).events.find? (fun e => e.eventType > 255) = none := by
      simpa [typedBatch] using hle
    have hlook : (((freshRings 1).look (alone false)).ring ((typedEvent et).shard Libs.plain)).push
        ⟨256, 1, [1]⟩ = some rb := hpush
    have hgroups : insertionOrder.visit (Group.group (routed Libs.plain (typedBatch et).events
        [⟨256, 1, [1]⟩] [[1, 0]])) = [((typedEvent et).shard Libs.plain, [⟨256, 1, [1]⟩])] := rfl
    rw [respond, hfind, hgroups]
    simp [writeGroups, write, push, hlook, typedBatch]
  have hrun := runs_procExec (handleBatch Libs.plain (fun _ => []) (alone false) insertionOrder 1
    (typedBatch et) (freshRings 1)) blankWorld
  have hexec : ((handleBatch Libs.plain (fun _ => []) (alone false) insertionOrder 1
      (typedBatch et) (freshRings 1)).exec blankWorld) = (some (_, _), blankWorld) :=
    congrArg (fun r => (r, blankWorld)) hresp
  rw [hexec] at hrun
  exact ⟨fun _ => [], alone false, insertionOrder, 1, typedBatch et, freshRings 1, _, _,
    [⟨256, 1, [1]⟩], blankWorld, blankWorld, _, [((typedEvent et).shard Libs.plain, ⟨256, 1, [1]⟩)],
    0, ⟨[1, 0], et.toUInt32, 1, [1]⟩, hrun, rfl, List.mem_singleton_self _,
    runs_procExec (protoEventsToBlock Libs.plain (fun _ => []) 0 (typedBatch et).events) blankWorld,
    rfl, rfl, rfl, rfl, show 1 < 2 ^ 31 by decide⟩

/-- The writer of its shard, with the event in the ring `rb` or in the
memtable. -/
def typedWriter (et : UInt8) (rb : RingBuf) (mt : Memtable) : ShardWriter where
  shard := (typedEvent et).shard Libs.plain
  cfg := { plainConfig with maxBlockBytes := defaultMaxBlockBytes }
  ring := rb
  memtable := mt
  openedAt := 0

def oneEvent : Memtable := Memtable.new.append ⟨256, 1, [1]⟩

def typedRequest (et : UInt8) (rb : RingBuf) (t : Time) : SealRequest :=
  (typedWriter et rb oneEvent).sealRequest hotStore t

theorem result_typedRequest (et : UInt8) (rb : RingBuf) (t : Time) (w : World) :
    ((sealBlock Libs.plain (typedRequest et rb t)).run.exec w).1 =
      .ok (typedRequest et rb t).blockID := by
  have hbody : (blockBody Libs.plain (oneEvent.sort Libs.plain)).length < 1000 := by
    decide +kernel
  have hsorted : (typedRequest et rb t).sorted Libs.plain = oneEvent.sort Libs.plain := rfl
  have hbloom : serialize Libs.plain (buildBloomFromMemtable Libs.plain 0
      ((typedRequest et rb t).sorted Libs.plain) (typedRequest et rb t).bloomFPR) = .ok [] := rfl
  refine result_sealBlock Libs.plain (typedRequest et rb t) ?_ hbloom (by decide) w
  rw [SealRequest.file, hsorted, blockFile, List.length_append, List.length_append,
    length_encodeHeader, length_encodeFooter, maxBlockFile, maxAlloc]
  omega

/-- A query for everything of the key. -/
def typedQuery (v : UInt32) : ProtoQueryRequest := ⟨[1, 0], v, 0, 2⟩

/-- An engine with `hotStore` as its hot tier. -/
def hotEngine : Engine :=
  { oneRowEngine with tiers := fun tier => if tier = tierHot then some hotStore else none }

/-- A sealed block of the type `et` answers a query for `v`, if `v` is cut down
to `et`. -/
theorem exec_query_typed (et : UInt8) (rb : RingBuf) (t : Time) {v : UInt32} (hv : v ≠ 0)
    (hcut : v.toUInt8 = et) {w : World}
    (hidx : ∀ et kh id, w.db.view.get (idxKey et kh id) = none) : ∃ c',
      (Query.query Libs.plain hotEngine (newBloomCache hotStore 0)
          (QueryServer.qreq (typedQuery v))).exec
        ((sealBlock Libs.plain (typedRequest et rb t)).run.exec w).2 =
      ((.ok [⟨256, 1, [1]⟩], c'), ((sealBlock Libs.plain (typedRequest et rb t)).run.exec w).2) := by
  have hq : QueryServer.qreq (typedQuery v) = ⟨[1, 0], some et, 0, 2⟩ := by
    have hne : (typedQuery v).eventType ≠ 0 := hv
    rw [QueryServer.qreq, if_pos hne]
    exact congrArg (fun x => (⟨[1, 0], some x, 0, 2⟩ : QueryRequest)) hcut
  have hproper : Proper ⟨[1, 0], some et, 0, 2⟩ :=
    ⟨List.cons_ne_nil _ _, show (0 : Int) < 2 by decide, show -2 ^ 63 ≤ (0 : Int) by decide,
      show (2 : Int) < 2 ^ 63 by decide⟩
  have hrows : (typedRequest et rb t).memtable.rows = [⟨256, 1, [1]⟩] :=
    show oneEvent.rows = _ by decide
  have hrun := runs_procExec (sealBlock Libs.plain (typedRequest et rb t)).run w
  rw [result_typedRequest] at hrun
  have hempty : FilledOK Libs.plain hotStore [] w (newBloomCache hotStore 0) := filledOK_nil hidx
  have hfilled := hempty.sealed rfl (by simp) (by rw [hrows]; decide) hrun
  have htier : hotEngine.tiers tierHot = some hotStore := rfl
  obtain ⟨out, c', hexec, hperm, -⟩ := hfilled.query_all htier hproper
  -- the block is of the type and of the first hour, and its row is asked for
  have hscope : InScope ⟨[1, 0], some et, 0, 2⟩ (typedRequest et rb t) := by
    refine ⟨Or.inr (congrArg some ?_), ?_⟩
    · show et = (shardFor Libs.plain [1, 0] et.toUInt32.toUInt8 >>> 8).toUInt8
      rw [eventType_shardFor, UInt8.toUInt8_toUInt32]
    · show truncateHour (Int64.ofInt 0).toInt < 2 ∧ 0 < truncateHour (Int64.ofInt 0).toInt + hour
      decide
  have hasked : Asked Libs.plain ⟨[1, 0], some et, 0, 2⟩ ⟨256, 1, [1]⟩ := by
    show (256 : UInt64) = keyHashFor Libs.plain [1, 0] ∧ (0 : Int) ≤ (1 : Int64).toInt ∧
      (1 : Int64).toInt < 2
    decide
  have hwanted : ([] ++ [typedRequest et rb t]).flatMap
      (wanted Libs.plain ⟨[1, 0], some et, 0, 2⟩) = [⟨256, 1, [1]⟩] := by
    simp [wanted, hscope, hrows, hasked]
  rw [hwanted, List.perm_singleton] at hperm
  rw [hperm] at hexec
  rw [hq]
  exact ⟨c', hexec⟩

/-- The event in the ring of a new writer. -/
theorem serving_typed (et : UInt8) {rb : RingBuf}
    (hpush : (newRingBuf 1).push ⟨256, 1, [1]⟩ = some rb) : ∃ s, Serving Libs.plain s ∧
      s.world = blankWorld ∧ s.written = [typedEvent et] ∧
      s.writers ((typedEvent et).shard Libs.plain) = some (typedWriter et rb Memtable.new) := by
  have hcreate := runs_procExec (newShardWriter ((typedEvent et).shard Libs.plain) plainConfig)
    blankWorld
  have hstart : Serving Libs.plain (.start 0) := .start 0
  have hcreated := hstart.created rfl hcreate
  exact ⟨_, hcreated.pushed (admitted_typedEvent et) (Function.update_self ..) hpush, rfl, rfl,
    Function.update_self ..⟩

/-- **For every type there is a store with an event of that type alone**, and
every query whose type is cut down to it gets that event. -/
theorem exists_typed_store (et : UInt8) : ∃ s, Serving Libs.plain s ∧
    s.written = [typedEvent et] ∧
    ∀ v : UInt32, v ≠ 0 → v.toUInt8 = et → ∃ ws out c' w',
      Runs sem (serve Libs.plain hotEngine (fun _ => "") (fun _ => none) (newBloomCache hotStore 0)
        (typedQuery v)) s.world ws (out, c') w' ∧ streamed out = [⟨[1, 0], 0, 1, [1]⟩] := by
  have hring : ((newRingBuf 1).push ⟨256, 1, [1]⟩).any
      (fun rb => rb.drainAll.1 = [⟨256, 1, [1]⟩]) = true := by decide +kernel
  obtain ⟨rb, hpush, hdrain⟩ := (Option.any_eq_true _ _).mp hring
  obtain ⟨s, hserving, hworld, hwritten, hwriter⟩ := serving_typed et hpush
  -- a forced flush seals the event
  have hmt : (typedWriter et rb Memtable.new).ring.drainAll.1.foldl Memtable.append Memtable.new =
      oneEvent := by
    rw [show (typedWriter et rb Memtable.new).ring.drainAll.1 = [⟨256, 1, [1]⟩] from
      of_decide_eq_true hdrain]
    rfl
  obtain ⟨w₁, hwal, hflush⟩ := @exec_flush_forced Libs.plain (typedWriter et rb Memtable.new)
    hotStore oneEvent rfl hmt (by decide) blankWorld
  have hrun := runs_procExec (flushAndMaybeSeal Libs.plain (typedWriter et rb Memtable.new) true)
    blankWorld
  rw [hflush, ← hworld] at hrun
  refine ⟨_, hserving.flushed hwriter hrun, hwritten, fun v hv hcut => ?_⟩
  have hidx : ∀ et kh id, w₁.db.view.get (idxKey et kh id) = none := by
    intro et kh id
    rw [hwal.2 _ (by rw [family_idxKey]; decide) (by rw [family_idxKey]; decide)]
    rfl
  obtain ⟨c', hquery⟩ := exec_query_typed et rb.drainAll.2 w₁.clock hv hcut hidx
  have horder : (QueryServer.qreq (typedQuery v)).from_ < (QueryServer.qreq (typedQuery v)).to_ :=
    show (0 : Int) < 2 by decide
  have hkey : (typedQuery v).partitionKey.length ≠ 0 := Nat.succ_ne_zero 1
  have hserved := runs_procExec (serve Libs.plain hotEngine (fun _ => "") (fun _ => none)
    (newBloomCache hotStore 0) (typedQuery v))
    ((sealBlock Libs.plain (typedRequest et rb.drainAll.2 w₁.clock)).run.exec w₁).2
  rw [exec_serve hkey horder hquery] at hserved
  exact ⟨_, _, _, _, hserved, streamed_ok (fun _ => rfl) _⟩

/-! ## The filter -/

/-- A stream for the type `v` sends only events that were written with the
type `v`, whatever the libraries, the state of the server, the configuration
of the engine, the content of its cache and the failures on the way. -/
def FiltersExactly (v : UInt32) : Prop :=
  ∀ (libs : Libs) (s : ServerState), Serving libs s →
    ∀ (eng : Engine) (text : Err → String) (fails : Nat → Option String) (c c' : BloomCache libs)
      (req : ProtoQueryRequest) (ws : List World) (w' : World)
      (out : Option String × Sent QueryResponse), req.eventType = v →
      Runs sem (serve libs eng text fails c req) s.world ws (out, c') w' →
        ∀ p ∈ streamed out, ∃ a ∈ s.written, a.eventType = v ∧
          a.row.keyHash = keyHashFor libs req.partitionKey ∧ p.partitionKey = req.partitionKey ∧
          p.timestampNs = a.row.timestamp ∧ p.payload = a.row.payload

theorem filtersExactly_of_le {v : UInt32} (hv : v ≠ 0) (hle : v ≤ 255) : FiltersExactly v := by
  intro libs s hserving eng text fails c c' req ws w' out htype hrun p hp
  have hok := servingOK hserving
  obtain ⟨events, ws', w'', hquery, hmem⟩ := runs_serve hrun hp
  obtain ⟨e, he, rfl⟩ := List.mem_map.mp hmem
  have hR : ∀ shard e, s.Wrote libs shard e → e.payload.length < 2 ^ 32 := by
    rintro shard e ⟨a, ha, -, rfl⟩
    exact (hok.admitted a ha).payload_lt
  have hqtype : (QueryServer.qreq req).eventType = some v.toUInt8 := by
    rw [QueryServer.qreq, htype, if_pos hv]
  obtain ⟨hhash, shard, hshard, a, ha, rfl, rfl⟩ := hok.blocks.of_query hR hqtype hquery he
  refine ⟨a, ha, ?_, hhash, rfl, rfl, rfl⟩
  -- both types have 8 bits, and those are the same
  have hle' := (hok.admitted a ha).eventType_le
  have hcut : a.eventType.toUInt8 = v.toUInt8 :=
    (eventType_shardFor libs a.key a.eventType.toUInt8).symm.trans hshard
  have hnat := congrArg UInt8.toNat hcut
  rw [UInt32.toNat_toUInt8, UInt32.toNat_toUInt8] at hnat
  rw [UInt32.le_iff_toNat_le, show (255 : UInt32).toNat = 255 from rfl] at hle hle'
  exact UInt32.toNat_inj.mp (by omega)

/-- **The filter of the read API is exact for the types the write API
admits**, and for no other. -/
theorem eventType_filter_iff (v : UInt32) (hv : v ≠ 0) : FiltersExactly v ↔ v ≤ 255 := by
  refine ⟨fun hexact => ?_, filtersExactly_of_le hv⟩
  obtain ⟨s, hserving, hwritten, hquery⟩ := exists_typed_store v.toUInt8
  obtain ⟨ws, out, c', w', hrun, hout⟩ := hquery v hv rfl
  obtain ⟨a, ha, htype, -⟩ := hexact Libs.plain s hserving hotEngine _ _ _ c' (typedQuery v) ws w'
    out rfl hrun _ (by rw [hout]; exact List.mem_singleton_self _)
  rw [hwritten, List.mem_singleton] at ha
  subst ha
  rw [← htype]
  exact (admitted_typedEvent v.toUInt8).eventType_le

theorem eventType_filter_iff_one : FiltersExactly 1 :=
  (eventType_filter_iff 1 (by decide)).mpr (by decide)

/-- **A query for the type 257 streams an event of the type 1.** -/
theorem type257_streams_type1 : ∃ s, Serving Libs.plain s ∧
    s.written = [⟨1, [1, 0], ⟨256, 1, [1]⟩⟩] ∧ ∃ ws out c' w',
      Runs sem (serve Libs.plain hotEngine (fun _ => "") (fun _ => none) (newBloomCache hotStore 0)
        ⟨[1, 0], 257, 0, 2⟩) s.world ws (out, c') w' ∧ streamed out = [⟨[1, 0], 0, 1, [1]⟩] := by
  obtain ⟨s, hserving, hwritten, hquery⟩ := exists_typed_store 1
  exact ⟨s, hserving, hwritten, hquery 257 (by decide) (by decide)⟩

end Bbdb.Grpc
