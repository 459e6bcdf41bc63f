import Bbdb.Grpc.EventTypes

/-!
# gRPC — from a write to a stream

What the whole server is for. Events come in through the write API, wait in a
ring and a memtable, are sealed into a block and go out through the read API.
`Storing` are the states of a server in which no `Seal` fails, no block id is
used twice and every block is sealed with events of its own hour. In each of
them a stream returns what was written, but for what still waits
(`written_then_streamed`).

The invariant is one equation of multisets: what was written is what lies in
sealed blocks and what waits in the writers (`StoringOK.conserved`).
-/

namespace Bbdb.Grpc

open Bbdb.Block Bbdb.Meta Bbdb.Tier Bbdb.Index Bbdb.Ingestion Bbdb.Query Bbdb.Stream
open GoTime
open Prog hiding pure bind

/-! ## The server -/

/-- A server with its bloom cache, its writers in the order of their creation,
and what was written so far. -/
structure Node (libs : Libs) where
  world : World
  cache : BloomCache libs
  writers : List ShardWriter
  written : List Written

/-- What a writer has not sealed yet. -/
def waiting (sw : ShardWriter) : List (ShardID × Event) :=
  (sw.memtable.rows ++ sw.ring.contents).map (Prod.mk sw.shard)

def Node.waiting {libs : Libs} (s : Node libs) : List (ShardID × Event) :=
  s.writers.flatMap Grpc.waiting

/-- The timestamp lies in the hour of a block. -/
def InHour (openedAt : Int64) (e : Event) : Prop :=
  truncateHour openedAt.toInt ≤ e.timestamp.toInt ∧
    e.timestamp.toInt < truncateHour openedAt.toInt + hour

/-- What a writer is about to seal is of the hour of its block, and the id of
the block is not in use. -/
structure Sealable (w : World) (sw : ShardWriter) : Prop where
  unused : w.db.view.get (blockKey sw.blockID) = none
  timely : ∀ p ∈ waiting sw, InHour (Int64.ofInt sw.openedAt) p.2

/-- The states of a server with the hot store `st`: writers are created, batches
push admitted events, writers flush and seal, streams read, the latter with any
failures. -/
inductive Storing (libs : Libs) (eng : Engine) (st : LocalStore) : Node libs → Prop
  | start {w : World} {maxMem : Int64} (hempty : ∀ k, w.db.view.get k = none) :
      Storing libs eng st ⟨w, newBloomCache st maxMem, [], []⟩
  | created {s : Node libs} {shard : ShardID} {cfg : WriterConfig} {sw : ShardWriter}
      {ws : List World} {w' : World} (h : Storing libs eng st s)
      (hnew : shard ∉ s.writers.map ShardWriter.shard) (hstore : cfg.store = some st)
      (hrun : Runs sem (newShardWriter shard cfg) s.world ws sw w') :
      Storing libs eng st { s with world := w', writers := s.writers ++ [sw] }
  | pushed {s : Node libs} {a : Written} {before after : List ShardWriter} {sw : ShardWriter}
      {rb : RingBuf} (h : Storing libs eng st s) (ha : Admitted libs a)
      (hw : s.writers = before ++ sw :: after) (hshard : sw.shard = a.shard libs)
      (hpush : sw.ring.push a.row = some rb) :
      Storing libs eng st { s with
        writers := before ++ { sw with ring := rb } :: after, written := s.written ++ [a] }
  | flushed {s : Node libs} {before after : List ShardWriter} {sw sw' : ShardWriter}
      {force : Bool} {r : Option (Except Err BlockID)} {ws : List World} {w' : World}
      (h : Storing libs eng st s) (hw : s.writers = before ++ sw :: after)
      (hrun : Runs sem (flushAndMaybeSeal libs sw force) s.world ws (sw', r) w')
      (hok : ∀ e, r ≠ some (.error e)) (hseal : r.isSome = true → Sealable s.world sw) :
      Storing libs eng st { s with world := w', writers := before ++ sw' :: after }
  | served {s : Node libs} {text : Err → String} {fails : Nat → Option String}
      {req : ProtoQueryRequest} {out : Option String × Sent QueryResponse} {c' : BloomCache libs}
      {ws : List World} {w' : World} (h : Storing libs eng st s)
      (hrun : Runs sem (serve libs eng text fails s.cache req) s.world ws (out, c') w') :
      Storing libs eng st { s with world := w', cache := c' }
  /-- The server is started again when nothing waits. -/
  | restarted {s : Node libs} {maxMem : Int64} (h : Storing libs eng st s) (hnone : s.waiting = []) :
      Storing libs eng st { s with cache := newBloomCache st maxMem, writers := [] }

/-! ## What waits in a writer -/

section Waiting

variable {libs : Libs} {sw sw' : ShardWriter} {rb rb' : RingBuf} {pushed popped : List Event}
  {w w' : World} {ws : List World}

/-- `DrainAll` returns what is in the ring and leaves it empty. -/
theorem contents_drainAll (h : RingOK rb pushed popped) :
    rb.drainAll.1 = rb.contents ∧ rb.drainAll.2.contents = [] := by
  have hempty : popped ++ rb.drainAll.1 = pushed := h.drain_call.eq_of_empty (drainAll_empty rb)
  constructor
  · rw [← h.popped_append_contents] at hempty
    exact List.append_cancel_left hempty
  · rw [h.drain_call.contents_eq, hempty, List.drop_length]

/-- **What a flush did with what was waiting**: it is still waiting, or it was
sealed. -/
theorem waiting_of_flush {force : Bool} {r : Option (Except Err BlockID)} {st : LocalStore}
    (hring : RingOK sw.ring pushed popped) (hstore : sw.cfg.store = some st)
    (h : Runs sem (flushAndMaybeSeal libs sw force) w ws (sw', r) w')
    (hok : ∀ e, r ≠ some (.error e)) :
    sw'.shard = sw.shard ∧ sw'.cfg = sw.cfg ∧ (∃ popped', RingOK sw'.ring pushed popped') ∧
      ((r = none ∧ waiting sw' = waiting sw ∧ WalOnly w w') ∨
        ∃ req w₁ ws₁ id, r.isSome = true ∧ waiting sw' = [] ∧ WalOnly w w₁ ∧
          Runs sem (sealBlock libs req).run w₁ ws₁ (.ok id) w' ∧ req.store = st ∧
          req.blockID = sw.blockID ∧ req.shard = sw.shard ∧ req.eventType = shardType sw.shard ∧
          req.openedAt = Int64.ofInt sw.openedAt ∧
          req.memtable.rows.map (Prod.mk req.shard) = waiting sw) := by
  obtain ⟨mt, w₁, ws₁, hdrain, hrest⟩ := runs_flush h
  obtain ⟨hdrained, hempty⟩ := contents_drainAll hring
  have hrows : mt.rows = sw.memtable.rows ++ sw.ring.contents := by
    rw [runs_processEvents_rows hdrain, hdrained]
  have hwal := walOnly_of_processEvents hdrain
  have hclock : ∀ t, WalOnly w (readClock w₁ t) := fun t => hwal.trans ⟨rfl, fun _ _ _ => rfl⟩
  rcases hrest with ⟨rfl, rfl, hw⟩ | ⟨store, t, res, ws₂, hst, -, rfl, -, hseal, -, rfl⟩
  · refine ⟨rfl, rfl, ⟨_, hring.drain_call⟩, Or.inl ⟨rfl, ?_, ?_⟩⟩
    · show (mt.rows ++ sw.ring.drainAll.2.contents).map _ = _
      rw [hrows, hempty, List.append_nil]
      rfl
    · rcases hw with ⟨-, rfl⟩ | ⟨t, -, rfl, -⟩
      · exact hwal
      · exact hclock t
  · cases res with
    | error e => exact absurd rfl (hok e)
    | ok id =>
        obtain rfl : store = st := Option.some.inj (hst.symm.trans hstore)
        refine ⟨rfl, rfl, ⟨_, hring.drain_call⟩, Or.inr ⟨(sw.drained mt).sealRequest store t,
          readClock w₁ t, ws₂, id, rfl, ?_, hclock t, hseal, rfl, rfl, rfl, rfl, rfl, ?_⟩⟩
        · show (Memtable.new.rows ++ sw.ring.drainAll.2.contents).map _ = _
          rw [hempty]
          rfl
        · show mt.rows.map _ = _
          rw [hrows]
          rfl

/-- The last flush of a writer with a store leaves nothing waiting. -/
theorem waiting_of_forced {r : Option (Except Err BlockID)} {st : LocalStore}
    (hring : RingOK sw.ring pushed popped) (hstore : sw.cfg.store = some st)
    (h : Runs sem (flushAndMaybeSeal libs sw true) w ws (sw', r) w')
    (hok : ∀ e, r ≠ some (.error e)) : waiting sw' = [] := by
  obtain ⟨-, -, -, ⟨hr, hsame, -⟩ | ⟨_, _, _, _, -, hnil, -⟩⟩ := waiting_of_flush hring hstore h hok
  · -- a forced check without a seal has found the memtable empty
    obtain ⟨mt, w₁, _, _, -, hdrain, hk⟩ := runs_bind.mp h
    have hrows : mt.rows = sw.memtable.rows ++ sw.ring.contents := by
      rw [← (contents_drainAll hring).1]
      exact runs_processEvents_rows hdrain
    rcases runs_maybeSeal hk with ⟨-, -, -, hnone | hlen | hforce⟩ | ⟨_, _, _, _, -, -, hsome, -⟩
    · rw [hstore] at hnone
      cases hnone
    · have hnil : mt.rows = [] := List.length_eq_zero_iff.mp ((Memtable.length_rows mt).trans hlen)
      rw [hsame, waiting, ← hrows, hnil]
      rfl
    · cases hforce
    · rw [hr] at hsome
      cases hsome
  · exact hnil

end Waiting

/-! ## What a reader finds -/

section Filled

variable {libs : Libs} {eng : Engine} {st : LocalStore} {A : List SealRequest} {w w' : World}
  {c c' : BloomCache libs} {ws : List World}

/-- Readers do not look at the WAL. -/
theorem filledOK_walOnly (h : FilledOK libs st A w c) (hw : WalOnly w w') :
    FilledOK libs st A w' c := by
  have hidx : ∀ et kh id, w'.db.view.get (idxKey et kh id) = w.db.view.get (idxKey et kh id) :=
    fun et kh id => hw.2 _ (by rw [family_idxKey]; decide) (by rw [family_idxKey]; decide)
  have hbeside : ∀ id, Beside id w w' := fun id =>
    ⟨fun _ _ _ => by rw [hw.1], fun _ _ _ => by rw [hw.1],
      fun _ _ => hw.2 _ (by rw [family_blockKey]; decide) (by rw [family_blockKey]; decide),
      fun _ _ _ _ => hidx _ _ _⟩
  refine ⟨h.catalog, fun r hr => ?_, fun et kh id hk => h.index et kh id ?_, h.sound, h.cached,
    fun id elem hi => ?_⟩
  · exact (hbeside (r.blockID ++ [0])).present (by simp) (h.present r hr)
  · rwa [hidx] at hk
  · obtain ⟨data, hdata, hf⟩ := h.agrees id elem hi
    exact ⟨data, by rw [hw.1]; exact hdata, hf⟩

/-- A stream that reads changes nothing but the cache. -/
theorem filledOK_serve {text : Err → String} {fails : Nat → Option String}
    {req : ProtoQueryRequest} {out : Option String × Sent QueryResponse}
    (h : FilledOK libs st A w c)
    (hrun : Runs sem (serve libs eng text fails c req) w ws (out, c') w') :
    FilledOK libs st A w' c' := by
  unfold serve QueryServer.query at hrun
  split_ifs at hrun with hkey horder
  · obtain ⟨-, hout, rfl⟩ := hrun
    cases hout
    exact h
  · obtain ⟨⟨r, c₁⟩, w₁, _, _, -, hread, hk⟩ := runs_bind.mp hrun
    obtain ⟨⟨res, c₂⟩, w₂, _, _, -, hquery, hpure⟩ := runs_bind.mp hread
    obtain ⟨-, hr, rfl⟩ := hpure
    cases hr
    obtain ⟨-, hout, rfl⟩ := hk
    cases hout
    exact h.queried hquery
  · obtain ⟨-, hout, rfl⟩ := hrun
    cases hout
    exact h

/-- A new cache finds what the old one found. -/
theorem filledOK_newCache (h : FilledOK libs st A w c) (maxMem : Int64) :
    FilledOK libs st A w (newBloomCache st maxMem) where
  catalog := h.catalog
  present := h.present
  index := h.index
  sound := ⟨rfl, fun r _ elem hi => by cases hi⟩
  cached id elem hi := by cases hi
  agrees := BloomCache.agrees_new w st maxMem

end Filled

/-! ## The invariant -/

/-- What was written, with its shard. -/
def Written.tagged (libs : Libs) (a : Written) : ShardID × Event := (a.shard libs, a.row)

/-- What lies in a block, with its shard. -/
def blockRowsOf (r : SealRequest) : List (ShardID × Event) := r.memtable.rows.map (Prod.mk r.shard)

structure StoringOK (libs : Libs) (st : LocalStore) (s : Node libs) (A : List SealRequest) :
    Prop where
  filled : FilledOK libs st A s.world s.cache
  typed : ∀ r ∈ A, r.eventType = shardType r.shard
  timely : ∀ r ∈ A, ∀ e ∈ r.memtable.rows, InHour r.openedAt e
  admitted : ∀ a ∈ s.written, Admitted libs a
  writers : ∀ sw ∈ s.writers, sw.cfg.store = some st ∧ ∃ pushed popped, RingOK sw.ring pushed popped
  shards : (s.writers.map ShardWriter.shard).Nodup
  /-- **Nothing is lost and nothing comes twice.** -/
  conserved : (s.written.map (Written.tagged libs)).Perm (A.flatMap blockRowsOf ++ s.waiting)

section Invariant

variable {libs : Libs} {eng : Engine} {st : LocalStore} {s : Node libs} {A : List SealRequest}

/-- What waits in a writer was written. -/
theorem StoringOK.payload (h : StoringOK libs st s A) {sw : ShardWriter} (hw : sw ∈ s.writers)
    {p : ShardID × Event} (hp : p ∈ waiting sw) : p.2.payload.length < 2 ^ 32 := by
  have hmem : p ∈ A.flatMap blockRowsOf ++ s.waiting :=
    List.mem_append_right _ (List.mem_flatMap.mpr ⟨sw, hw, hp⟩)
  obtain ⟨a, ha, rfl⟩ := List.mem_map.mp (h.conserved.mem_iff.mpr hmem)
  exact (h.admitted a ha).payload_lt

/-- One writer's events among those of all. -/
theorem perm_waiting (before after : List ShardWriter) (sw : ShardWriter) :
    ((before ++ sw :: after).flatMap waiting).Perm
      (waiting sw ++ (before ++ after).flatMap waiting) := by
  rw [List.flatMap_append, List.flatMap_append, List.flatMap_cons]
  exact List.perm_append_comm_assoc _ _ _

theorem mem_writers {before after : List ShardWriter} {sw : ShardWriter}
    (hw : s.writers = before ++ sw :: after) : sw ∈ s.writers := by
  rw [hw]
  exact List.mem_append_right _ List.mem_cons_self

/-- Facts about all writers, after one of them has changed. -/
theorem forall_replaced {P : ShardWriter → Prop} {before after : List ShardWriter}
    {sw sw' : ShardWriter} (hw : s.writers = before ++ sw :: after) (h : ∀ x ∈ s.writers, P x)
    (hsw : P sw') : ∀ x ∈ before ++ sw' :: after, P x := by
  rw [hw] at h
  obtain ⟨hb, ha⟩ := List.forall_mem_append.mp h
  exact List.forall_mem_append.mpr ⟨hb, List.forall_mem_cons.mpr ⟨hsw, (List.forall_mem_cons.mp ha).2⟩⟩

theorem map_replaced {before after : List ShardWriter} {sw sw' : ShardWriter}
    (hw : s.writers = before ++ sw :: after) (hshard : sw'.shard = sw.shard) :
    s.writers.map ShardWriter.shard = (before ++ sw' :: after).map ShardWriter.shard := by
  rw [hw]
  simp [hshard]

/-- **A new event waits in its writer.** -/
theorem StoringOK.push (h : StoringOK libs st s A) {a : Written} {before after : List ShardWriter}
    {sw : ShardWriter} {rb : RingBuf} (ha : Admitted libs a)
    (hw : s.writers = before ++ sw :: after) (hshard : sw.shard = a.shard libs)
    (hpush : sw.ring.push a.row = some rb) :
    StoringOK libs st { s with
      writers := before ++ { sw with ring := rb } :: after, written := s.written ++ [a] } A := by
  obtain ⟨hstore, pushed, popped, hring⟩ := h.writers sw (mem_writers hw)
  refine ⟨h.filled, h.typed, h.timely, ?_, ?_, ?_, ?_⟩
  · exact List.forall_mem_append.mpr ⟨h.admitted, List.forall_mem_singleton.mpr ha⟩
  · exact forall_replaced hw h.writers ⟨hstore, _, _, hring.push_call hpush⟩
  · have hshards : s.writers.map ShardWriter.shard =
        (before ++ { sw with ring := rb } :: after).map ShardWriter.shard := map_replaced hw rfl
    exact hshards ▸ h.shards
  · have hone : waiting { sw with ring := rb } = waiting sw ++ [a.tagged libs] := by
      show (sw.memtable.rows ++ rb.contents).map (Prod.mk sw.shard) = _
      rw [RingBuf.contents_push hpush, waiting, Written.tagged, ← hshard, ← List.append_assoc,
        List.map_append]
      rfl
    have hold : (s.written.map (Written.tagged libs)).Perm
        (A.flatMap blockRowsOf ++ (waiting sw ++ (before ++ after).flatMap waiting)) := by
      refine h.conserved.trans (List.Perm.append_left _ ?_)
      rw [Node.waiting, hw]
      exact perm_waiting before after sw
    show ((s.written ++ [a]).map (Written.tagged libs)).Perm
      (A.flatMap blockRowsOf ++ (before ++ { sw with ring := rb } :: after).flatMap waiting)
    refine List.Perm.trans ?_ (List.Perm.append_left _ (perm_waiting before after _).symm)
    rw [List.map_append, hone]
    refine (hold.append_right _).trans ?_
    simp only [List.append_assoc]
    exact List.Perm.append_left _ (List.Perm.append_left _ List.perm_append_comm)

/-- **A flush moves what waits in one writer into a block, or leaves it.** -/
theorem StoringOK.flush (h : StoringOK libs st s A) {before after : List ShardWriter}
    {sw sw' : ShardWriter} {force : Bool} {r : Option (Except Err BlockID)} {ws : List World}
    {w' : World} (hw : s.writers = before ++ sw :: after)
    (hrun : Runs sem (flushAndMaybeSeal libs sw force) s.world ws (sw', r) w')
    (hok : ∀ e, r ≠ some (.error e)) (hseal : r.isSome = true → Sealable s.world sw) :
    ∃ A', StoringOK libs st { s with world := w', writers := before ++ sw' :: after } A' := by
  obtain ⟨hstore, pushed, popped, hring⟩ := h.writers sw (mem_writers hw)
  obtain ⟨hshard, hcfg, ⟨popped', hring'⟩, hcase⟩ := waiting_of_flush hring hstore hrun hok
  have hshards := map_replaced hw hshard ▸ h.shards
  have hwriters := forall_replaced hw h.writers
    (⟨hcfg ▸ hstore, pushed, popped', hring'⟩ : sw'.cfg.store = some st ∧ _)
  have hold : (s.written.map (Written.tagged libs)).Perm
      (A.flatMap blockRowsOf ++ (waiting sw ++ (before ++ after).flatMap waiting)) := by
    refine h.conserved.trans (List.Perm.append_left _ ?_)
    rw [Node.waiting, hw]
    exact perm_waiting before after sw
  rcases hcase with ⟨-, hsame, hwal⟩ | ⟨req, w₁, ws₁, id, hsome, hnil, hwal, hsealed, hst, hid,
    hsh, hty, hopen, hrows⟩
  · refine ⟨A, filledOK_walOnly h.filled hwal, h.typed, h.timely, h.admitted, hwriters, hshards, ?_⟩
    show List.Perm _ (A.flatMap blockRowsOf ++ (before ++ sw' :: after).flatMap waiting)
    refine hold.trans (List.Perm.append_left _ ?_)
    rw [← hsame]
    exact (perm_waiting before after sw').symm
  · obtain ⟨hunused, htimely⟩ := hseal hsome
    have hmem : ∀ e ∈ req.memtable.rows, (req.shard, e) ∈ waiting sw := fun e he =>
      hrows ▸ List.mem_map_of_mem he
    have hfilled₁ := filledOK_walOnly h.filled hwal
    have hnew : req.blockID ∉ A.map SealRequest.blockID := by
      intro hin
      obtain ⟨r', hr', he⟩ := List.mem_map.mp hin
      have hblk : s.world.db.view.get (blockKey r'.blockID) = _ := (h.filled.present r' hr').blk
      rw [he, hid, hunused] at hblk
      cases hblk
    refine ⟨A ++ [req], hfilled₁.sealed hst hnew (fun e he => ?_) hsealed, ?_, ?_, h.admitted,
      hwriters, hshards, ?_⟩
    · exact h.payload (mem_writers hw) (hmem e he)
    · refine List.forall_mem_append.mpr ⟨h.typed, List.forall_mem_singleton.mpr ?_⟩
      rw [hty, hsh]
    · refine List.forall_mem_append.mpr ⟨h.timely, List.forall_mem_singleton.mpr fun e he => ?_⟩
      rw [hopen]
      exact htimely _ (hmem e he)
    · show List.Perm _ ((A ++ [req]).flatMap blockRowsOf ++ (before ++ sw' :: after).flatMap waiting)
      have hblock : (A ++ [req]).flatMap blockRowsOf = A.flatMap blockRowsOf ++ waiting sw := by
        rw [List.flatMap_append, List.flatMap_cons, List.flatMap_nil, List.append_nil,
          blockRowsOf, hrows]
      refine hold.trans ?_
      rw [hblock, List.append_assoc]
      refine List.Perm.append_left _ (List.Perm.append_left _ ?_)
      have hrest := (perm_waiting before after sw').symm
      rwa [hnil, List.nil_append] at hrest

theorem storingOK (h : Storing libs eng st s) : ∃ A, StoringOK libs st s A := by
  induction h with
  | start hempty =>
      exact ⟨[], filledOK_start hempty, by simp, by simp, by simp, by simp, List.nodup_nil,
        List.Perm.refl _⟩
  | @created s shard cfg sw ws w' _ hnew hstore hrun ih =>
      obtain ⟨A, h⟩ := ih
      obtain ⟨t, -, rfl, -, hshard, hcfg, -, hring, htable, -⟩ := runs_newShardWriter hrun
      have hnil : waiting sw = [] := by
        rw [waiting, htable, hring, (ringOK_newRingBuf _).contents_eq]
        rfl
      refine ⟨A, filledOK_walOnly h.filled ⟨rfl, fun _ _ _ => rfl⟩, h.typed, h.timely, h.admitted,
        List.forall_mem_append.mpr ⟨h.writers, List.forall_mem_singleton.mpr ?_⟩, ?_, ?_⟩
      · exact ⟨hcfg.trans hstore, [], [], hring ▸ ringOK_newRingBuf _⟩
      · rw [List.map_append, List.nodup_append]
        refine ⟨h.shards, List.nodup_singleton _, fun a ha b hb he => hnew ?_⟩
        rwa [← hshard, ← List.mem_singleton.mp hb, ← he]
      · show List.Perm _ (A.flatMap blockRowsOf ++ (s.writers ++ [sw]).flatMap waiting)
        rw [List.flatMap_append, List.flatMap_cons, List.flatMap_nil, hnil, List.append_nil,
          List.append_nil]
        exact h.conserved
  | pushed _ ha hw hshard hpush ih =>
      obtain ⟨A, h⟩ := ih
      exact ⟨A, h.push ha hw hshard hpush⟩
  | flushed _ hw hrun hok hseal ih =>
      obtain ⟨A, h⟩ := ih
      exact h.flush hw hrun hok hseal
  | served _ hrun ih =>
      obtain ⟨A, h⟩ := ih
      exact ⟨A, filledOK_serve h.filled hrun, h.typed, h.timely, h.admitted, h.writers, h.shards,
        h.conserved⟩
  | restarted _ hnone ih =>
      obtain ⟨A, h⟩ := ih
      refine ⟨A, filledOK_newCache h.filled _, h.typed, h.timely, h.admitted, by simp,
        List.nodup_nil, ?_⟩
      have hall := h.conserved
      rw [hnone] at hall
      exact hall

end Invariant

/-! ## The answer -/

/-- The event is one that a request asks for: its type, its key's hash and its
time. -/
def Hit (libs : Libs) (req : ProtoQueryRequest) (p : ShardID × Event) : Prop :=
  (req.eventType = 0 ∨ (shardType p.1).toUInt32 = req.eventType) ∧
    Asked libs (QueryServer.qreq req) p.2

instance (libs : Libs) (req : ProtoQueryRequest) : DecidablePred (Hit libs req) :=
  fun _ => inferInstanceAs (Decidable (_ ∧ _))

section Answer

variable {libs : Libs} {req : ProtoQueryRequest} {r : SealRequest}

theorem qreq_type_iff (htype : req.eventType ≤ 255) (et : UInt8) :
    ((QueryServer.qreq req).eventType = none ∨ (QueryServer.qreq req).eventType = some et) ↔
      (req.eventType = 0 ∨ et.toUInt32 = req.eventType) := by
  show ((if req.eventType ≠ 0 then some req.eventType.toUInt8 else none) = none ∨
    (if req.eventType ≠ 0 then some req.eventType.toUInt8 else none) = some et) ↔ _
  by_cases h0 : req.eventType = 0
  · simp [h0]
  · rw [if_pos h0, Option.some.injEq]
    have hiff : req.eventType.toUInt8 = et ↔ et.toUInt32 = req.eventType := by
      rw [UInt32.le_iff_toNat_le, show (255 : UInt32).toNat = 255 from rfl] at htype
      rw [← UInt8.toNat_inj, ← UInt32.toNat_inj, UInt32.toNat_toUInt8, UInt8.toNat_toUInt32]
      omega
    simp [h0, hiff]

/-- Of a block with events of its hour, a query returns all that hit. -/
theorem wanted_eq_hits (htype : req.eventType ≤ 255) (hty : r.eventType = shardType r.shard)
    (htimely : ∀ e ∈ r.memtable.rows, InHour r.openedAt e) :
    wanted libs (QueryServer.qreq req) r =
      ((blockRowsOf r).filter fun p => Hit libs req p).map Prod.snd := by
  have hmap : ((blockRowsOf r).filter fun p => Hit libs req p).map Prod.snd =
      r.memtable.rows.filter fun e => Hit libs req (r.shard, e) := by
    rw [blockRowsOf, List.filter_map, List.map_map]
    exact List.map_id _
  rw [hmap, wanted]
  by_cases hscope : InScope (QueryServer.qreq req) r
  · rw [if_pos hscope]
    refine List.filter_congr fun e _ => decide_eq_decide.mpr ?_
    have htypes := (qreq_type_iff htype r.eventType).mp hscope.1
    rw [hty] at htypes
    exact ⟨fun ha => ⟨htypes, ha⟩, fun ha => ha.2⟩
  · rw [if_neg hscope]
    -- outside the scope there is no hit: the type differs, or the hour does
    symm
    refine List.filter_eq_nil_iff.mpr fun e he hhit => hscope ?_
    obtain ⟨htypes, -, hfrom, hto⟩ := of_decide_eq_true hhit
    obtain ⟨hlo, hhi⟩ := htimely e he
    rw [← hty] at htypes
    exact ⟨(qreq_type_iff htype r.eventType).mpr htypes, lt_of_le_of_lt hlo hto,
      lt_of_le_of_lt hfrom hhi⟩

theorem hit_tagged_iff {a : Written} (ha : Admitted libs a) :
    Hit libs req (a.tagged libs) ↔ (req.eventType = 0 ∨ a.eventType = req.eventType) ∧
      Asked libs (QueryServer.qreq req) a.row := by
  have het : (shardType (a.shard libs)).toUInt32 = a.eventType := by
    have hle := ha.eventType_le
    rw [UInt32.le_iff_toNat_le, show (255 : UInt32).toNat = 255 from rfl] at hle
    rw [Written.shard, shardType, eventType_shardFor, ← UInt32.toNat_inj, UInt8.toNat_toUInt32,
      UInt32.toNat_toUInt8]
    omega
  rw [Hit, Written.tagged, het]

end Answer

/-- The written events that a request asks for. -/
def asked (libs : Libs) (req : ProtoQueryRequest) (written : List Written) : List Event :=
  (written.filter fun a => (req.eventType = 0 ∨ a.eventType = req.eventType) ∧
    Asked libs (QueryServer.qreq req) a.row).map Written.row

section Stream

variable {libs : Libs} {eng : Engine} {st : LocalStore} {s : Node libs} {req : ProtoQueryRequest}

/-- The stream for a request, and what is missing in it. -/
theorem stream_answer (htier : eng.tiers tierHot = some st) (h : Storing libs eng st s)
    (text : Err → String) (hkey : req.partitionKey ≠ []) (horder : req.fromNs < req.toNs)
    (htype : req.eventType ≤ 255) :
    ∃ (events : List Event) (out : Option String × Sent QueryResponse) (c' : BloomCache libs),
      (serve libs eng text (fun _ => none) s.cache req).exec s.world = ((out, c'), s.world) ∧
        out.1 = none ∧ streamed out = blockEventsToProto events req.partitionKey ∧
        (events.Pairwise fun a b => a.timestamp ≤ b.timestamp) ∧
        (events ++ (s.waiting.filter fun p => Hit libs req p).map Prod.snd).Perm
          (asked libs req s.written) := by
  obtain ⟨A, hok⟩ := storingOK h
  have hrange : (QueryServer.qreq req).from_ < (QueryServer.qreq req).to_ :=
    Int64.lt_iff_toInt_lt.mp horder
  have hproper : Proper (QueryServer.qreq req) :=
    ⟨hkey, hrange, Int64.le_toInt _, Int64.toInt_lt _⟩
  obtain ⟨events, c', hquery, hperm, hsorted⟩ := hok.filled.query_all htier hproper
  refine ⟨events, _, c', exec_serve (fun hl => hkey (List.length_eq_zero_iff.mp hl)) hrange hquery,
    ?_, streamed_ok (fun _ => rfl) events, hsorted, ?_⟩
  · rw [QueryServer.sendResult_ok]
    exact (sendAll_all (fun _ => rfl) _ _).1
  · -- the blocks hold what was written and does not wait
    have hblocks : A.flatMap (wanted libs (QueryServer.qreq req)) =
        ((A.flatMap blockRowsOf).filter fun p => Hit libs req p).map Prod.snd := by
      rw [List.filter_flatMap, List.map_flatMap]
      exact List.flatMap_congr fun r hr =>
        wanted_eq_hits htype (hok.typed r hr) (hok.timely r hr)
    have hwritten : asked libs req s.written =
        ((s.written.map (Written.tagged libs)).filter fun p => Hit libs req p).map Prod.snd := by
      rw [asked, List.filter_map, List.map_map]
      have hfilter : s.written.filter ((fun p => decide (Hit libs req p)) ∘ Written.tagged libs) =
          s.written.filter fun a => (req.eventType = 0 ∨ a.eventType = req.eventType) ∧
            Asked libs (QueryServer.qreq req) a.row :=
        List.filter_congr fun a ha => decide_eq_decide.mpr (hit_tagged_iff (hok.admitted a ha))
      rw [hfilter]
      rfl
    rw [hwritten]
    refine List.Perm.trans ?_ ((hok.conserved.filter _).map Prod.snd).symm
    rw [List.filter_append, List.map_append, ← hblocks]
    exact hperm.append_right _

end Stream

/-- **What was written is streamed.** In every state of such a server, a request
for a key and a time range, with the type 0 for all or a type the write API
admits, gets a stream without error. Its events are ordered by time; together
with those that still wait in a writer they are exactly the written events that
were asked for, each as often as it was written. -/
theorem written_then_streamed (libs : Libs) (eng : Engine) (st : LocalStore)
    (htier : eng.tiers tierHot = some st) (s : Node libs) (h : Storing libs eng st s)
    (text : Err → String) (req : ProtoQueryRequest) (hkey : req.partitionKey ≠ [])
    (horder : req.fromNs < req.toNs) (htype : req.eventType ≤ 255) :
    ∃ (events : List Event) (out : Option String × Sent QueryResponse) (c' : BloomCache libs),
      (serve libs eng text (fun _ => none) s.cache req).exec s.world = ((out, c'), s.world) ∧
        out.1 = none ∧ streamed out = blockEventsToProto events req.partitionKey ∧
        (events.Pairwise fun a b => a.timestamp ≤ b.timestamp) ∧
        (events ++ (s.waiting.filter fun p => Hit libs req p).map Prod.snd).Perm
          (asked libs req s.written) :=
  stream_answer htier h text hkey horder htype

/-- The event in the ring of a new writer. -/
theorem storing_typed (et : UInt8) {rb : RingBuf}
    (hpush : (newRingBuf 1).push ⟨256, 1, [1]⟩ = some rb) :
    Storing Libs.plain hotEngine hotStore ⟨blankWorld, newBloomCache hotStore 0,
      [typedWriter et rb Memtable.new], [typedEvent et]⟩ := by
  have hcreate := runs_procExec (newShardWriter ((typedEvent et).shard Libs.plain) plainConfig)
    blankWorld
  have hstart : Storing Libs.plain hotEngine hotStore
      ⟨blankWorld, newBloomCache hotStore 0, [], []⟩ := .start fun _ => rfl
  have hcreated := hstart.created List.not_mem_nil rfl hcreate
  have hone : [typedWriter et (newRingBuf 1) Memtable.new] =
      [] ++ typedWriter et (newRingBuf 1) Memtable.new :: [] := rfl
  exact hcreated.pushed (admitted_typedEvent et) hone rfl hpush

/-- A forced flush of that writer seals the event. -/
theorem flush_typed : ∃ rb sw' id w' ws, (newRingBuf 1).push ⟨256, 1, [1]⟩ = some rb ∧
    Runs sem (flushAndMaybeSeal Libs.plain (typedWriter 1 rb Memtable.new) true) blankWorld ws
      (sw', some (.ok id)) w' ∧
    Sealable blankWorld (typedWriter 1 rb Memtable.new) := by
  have hring : ((newRingBuf 1).push ⟨256, 1, [1]⟩).any
      (fun rb => rb.drainAll.1 = [⟨256, 1, [1]⟩]) = true := by decide +kernel
  obtain ⟨rb, hpush, hdrain⟩ := (Option.any_eq_true _ _).mp hring
  have hmt : (typedWriter 1 rb Memtable.new).ring.drainAll.1.foldl Memtable.append Memtable.new =
      oneEvent := by
    rw [show (typedWriter 1 rb Memtable.new).ring.drainAll.1 = [⟨256, 1, [1]⟩] from
      of_decide_eq_true hdrain]
    rfl
  obtain ⟨w₁, -, hflush⟩ := @exec_flush_forced Libs.plain (typedWriter 1 rb Memtable.new)
    hotStore oneEvent rfl hmt (by decide) blankWorld
  have hrun := runs_procExec (flushAndMaybeSeal Libs.plain (typedWriter 1 rb Memtable.new) true)
    blankWorld
  have hok : ((sealBlock Libs.plain (typedRequest 1 rb.drainAll.2 w₁.clock)).run.exec w₁).1 =
      .ok (typedRequest 1 rb.drainAll.2 w₁.clock).blockID := result_typedRequest 1 _ _ _
  rw [hflush] at hrun
  refine ⟨rb, _, _, _, _, hpush, hok ▸ hrun, rfl, fun p hp => ?_⟩
  have hwait : waiting (typedWriter 1 rb Memtable.new) =
      [((typedEvent 1).shard Libs.plain, ⟨256, 1, [1]⟩)] := by
    show (rb.contents).map _ = _
    rw [RingBuf.contents_push hpush, (ringOK_newRingBuf 1).contents_eq]
    rfl
  rw [hwait, List.mem_singleton] at hp
  subst hp
  show truncateHour (Int64.ofInt 0).toInt ≤ (1 : Int64).toInt ∧
    (1 : Int64).toInt < truncateHour (Int64.ofInt 0).toInt + hour
  decide

theorem asked_typed : asked Libs.plain (typedQuery 1) [typedEvent 1] = [⟨256, 1, [1]⟩] := by
  decide +kernel

/-- The event is pushed, sealed and streamed. -/
theorem written_then_streamed_typed : ∃ s out c', Storing Libs.plain hotEngine hotStore s ∧
    s.written = [typedEvent 1] ∧ s.waiting = [] ∧
    (serve Libs.plain hotEngine (fun _ => "") (fun _ => none) s.cache (typedQuery 1)).exec s.world =
      ((out, c'), s.world) ∧ out.1 = none ∧ streamed out = [⟨[1, 0], 0, 1, [1]⟩] := by
  obtain ⟨rb, sw', id, w', ws, hpush, hrun, hseal⟩ := flush_typed
  have hone : [typedWriter 1 rb Memtable.new] = [] ++ typedWriter 1 rb Memtable.new :: [] := rfl
  have hsealed := (storing_typed 1 hpush).flushed hone hrun (fun e he => by cases he) fun _ => hseal
  have hring : RingOK rb _ _ := (ringOK_newRingBuf 1).push_call hpush
  have hstore : (typedWriter 1 rb Memtable.new).cfg.store = some hotStore := rfl
  have hwaiting : waiting sw' = [] := waiting_of_forced hring hstore hrun fun e he => by cases he
  obtain ⟨events, out, c', hexec, hout, hstream, -, hperm⟩ := written_then_streamed Libs.plain
    hotEngine hotStore rfl _ hsealed (fun _ => "") (typedQuery 1) (by decide) (by decide)
    (by decide)
  have hnone : Node.waiting (⟨w', newBloomCache hotStore 0, [] ++ sw' :: [], [typedEvent 1]⟩ :
      Node Libs.plain) = [] := by simp [Node.waiting, hwaiting]
  rw [hnone, List.filter_nil, List.map_nil, List.append_nil, asked_typed,
    List.perm_singleton] at hperm
  exact ⟨_, out, c', hsealed, rfl, hnone, hexec, hout, by rw [hstream, hperm]; rfl⟩

/-! ## Shutting down -/

/-- `IngestionServer.Stop`: each writer flushes for the last time, in any order.
`stopped` are the shards whose writers are done. No `Seal` fails, and what is
sealed is of the hour of its block. -/
inductive Stopping (libs : Libs) (s : Node libs) : List ShardID → Node libs → Prop
  | start : Stopping libs s [] s
  | stop {stopped : List ShardID} {x : Node libs} {before after : List ShardWriter}
      {sw sw' : ShardWriter} {r : Option (Except Err BlockID)} {ws : List World} {w' : World}
      (h : Stopping libs s stopped x) (hw : x.writers = before ++ sw :: after)
      (hnot : sw.shard ∉ stopped)
      (hrun : Runs sem (flushAndMaybeSeal libs sw true) x.world ws (sw', r) w')
      (hok : ∀ e, r ≠ some (.error e)) (hseal : r.isSome = true → Sealable x.world sw) :
      Stopping libs s (sw.shard :: stopped)
        { x with world := w', writers := before ++ sw' :: after }

section Stopping

variable {libs : Libs} {eng : Engine} {st : LocalStore} {s x : Node libs} {stopped : List ShardID}

/-- Stopping is a sequence of flushes, and a stopped writer has nothing waiting. -/
theorem Stopping.storing (hstop : Stopping libs s stopped x) (h : Storing libs eng st s) :
    Storing libs eng st x ∧ x.written = s.written ∧
      x.writers.map ShardWriter.shard = s.writers.map ShardWriter.shard ∧
      ∀ sw ∈ x.writers, sw.shard ∈ stopped → waiting sw = [] := by
  induction hstop with
  | start => exact ⟨h, rfl, rfl, fun sw _ hmem => absurd hmem List.not_mem_nil⟩
  | @stop stopped x before after sw sw' r ws w' _ hw hnot hrun hok hseal ih =>
      obtain ⟨hx, hwritten, hshards, hnil⟩ := ih
      obtain ⟨A, hinv⟩ := storingOK hx
      obtain ⟨hstore, pushed, popped, hring⟩ := hinv.writers sw (mem_writers hw)
      have hshard : sw'.shard = sw.shard := (waiting_of_flush hring hstore hrun hok).1
      refine ⟨hx.flushed hw hrun hok hseal, hwritten, ?_, fun y hy hmem => ?_⟩
      · rw [← hshards]
        exact (map_replaced hw hshard).symm
      · have hother : sw.shard ∉ (before ++ after).map ShardWriter.shard := by
          have hnodup := hinv.shards
          rw [hw, List.map_append, List.map_cons, List.nodup_middle, List.nodup_cons,
            ← List.map_append] at hnodup
          exact hnodup.1
        have hcases : y = sw' ∨ y ∈ before ++ after := by
          simpa [or_left_comm] using hy
        rcases hcases with rfl | hy'
        · exact waiting_of_forced hring hstore hrun hok
        · have hne : y.shard ≠ sw.shard := fun he => hother (he ▸ List.mem_map_of_mem hy')
          refine hnil y ?_ (List.mem_of_ne_of_mem hne hmem)
          rw [hw]
          exact List.mem_append.mpr ((List.mem_append.mp hy').imp_right (List.mem_cons_of_mem _))

/-- **A clean shutdown keeps everything.** All writers of a server are stopped,
in any order, and the server is started again with an empty cache of any size:
a stream then gets exactly the written events it asks for. -/
theorem streamed_after_restart (libs : Libs) (eng : Engine) (st : LocalStore)
    (htier : eng.tiers tierHot = some st) (s x : Node libs) (h : Storing libs eng st s)
    (stopped : List ShardID) (hstop : Stopping libs s stopped x)
    (hall : ∀ sw ∈ s.writers, sw.shard ∈ stopped) (maxMem : Int64) (text : Err → String)
    (req : ProtoQueryRequest) (hkey : req.partitionKey ≠ []) (horder : req.fromNs < req.toNs)
    (htype : req.eventType ≤ 255) :
    ∃ (events : List Event) (out : Option String × Sent QueryResponse) (c' : BloomCache libs),
      (serve libs eng text (fun _ => none) (newBloomCache st maxMem) req).exec x.world =
          ((out, c'), x.world) ∧
        out.1 = none ∧ streamed out = blockEventsToProto events req.partitionKey ∧
        (events.Pairwise fun a b => a.timestamp ≤ b.timestamp) ∧
        events.Perm (asked libs req s.written) := by
  obtain ⟨hx, hwritten, hshards, hnil⟩ := hstop.storing h
  have hnone : x.waiting = [] := by
    refine List.flatMap_eq_nil_iff.mpr fun sw hsw => hnil sw hsw ?_
    have hmem : sw.shard ∈ s.writers.map ShardWriter.shard := hshards ▸ List.mem_map_of_mem hsw
    obtain ⟨sw₀, hsw₀, he⟩ := List.mem_map.mp hmem
    exact he ▸ hall sw₀ hsw₀
  have hrestart : Storing libs eng st { x with cache := newBloomCache st maxMem, writers := [] } :=
    hx.restarted hnone
  obtain ⟨events, out, c', hexec, hout, hstream, hsorted, hperm⟩ :=
    stream_answer htier hrestart text hkey horder htype
  refine ⟨events, out, c', hexec, hout, hstream, hsorted, ?_⟩
  rw [← hwritten]
  simpa [Node.waiting] using hperm

end Stopping

theorem streamed_after_restart_typed : ∃ (w : World) (out : Option String × Sent QueryResponse)
    (c' : BloomCache Libs.plain),
    (serve Libs.plain hotEngine (fun _ => "") (fun _ => none) (newBloomCache hotStore 5)
      (typedQuery 1)).exec w = ((out, c'), w) ∧ streamed out = [⟨[1, 0], 0, 1, [1]⟩] := by
  obtain ⟨rb, sw', id, w', ws, hpush, hrun, hseal⟩ := flush_typed
  have hone : [typedWriter 1 rb Memtable.new] = [] ++ typedWriter 1 rb Memtable.new :: [] := rfl
  have hbefore : Stopping Libs.plain ⟨blankWorld, newBloomCache hotStore 0,
      [typedWriter 1 rb Memtable.new], [typedEvent 1]⟩ [] _ := .start
  have hstop := hbefore.stop hone List.not_mem_nil hrun (fun e he => by cases he) fun _ => hseal
  obtain ⟨events, out, c', hexec, -, hstream, -, hperm⟩ := streamed_after_restart Libs.plain
    hotEngine hotStore rfl _ _ (storing_typed 1 hpush) _ hstop (by simp) 5 (fun _ => "")
    (typedQuery 1) (by decide) (by decide) (by decide)
  have hevents : events = [⟨256, 1, [1]⟩] := List.perm_singleton.mp (asked_typed ▸ hperm)
  exact ⟨_, out, c', hexec, by rw [hstream, hevents]; rfl⟩

end Bbdb.Grpc
