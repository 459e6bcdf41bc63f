import Bbdb.Grpc.IngestionServer
import Bbdb.Lib.Stream

/-!
# gRPC — the read API

`QueryServer.Query` checks a request, asks its reader and streams the rows
back in batches. The last message of a stream says so and carries the number
of rows; a request that fails is answered by that message alone, with the
error and without rows.

The reader is an interface: any program that takes a request and returns rows
or an error, of which the server only uses the text. What `Send` does is
decided by the transport (`fails`): the `i`-th message of a stream may be one
that cannot be sent.
-/

namespace Bbdb.Grpc

open Bbdb.Block Bbdb.Query Bbdb.Stream

/-! ## Messages -/

/-- `bbdbv1.QueryRequest`. -/
structure ProtoQueryRequest where
  partitionKey : Bytes
  /-- Zero means all event types. -/
  eventType : UInt32
  fromNs : Int64
  toNs : Int64
  deriving DecidableEq, Repr

/-- `bbdbv1.QueryResponse`. -/
structure QueryResponse where
  events : List ProtoEvent
  total : UInt64
  isLast : Bool
  error : Option ErrorReply
  deriving DecidableEq, Repr

def terminalError (total : UInt64) (msg : String) : QueryResponse :=
  ⟨[], total, true, some ⟨1, msg⟩⟩

/-! ## The handler -/

namespace QueryServer

def queryBatchSize : Nat := 256

/-- The request for the reader. -/
def qreq (req : ProtoQueryRequest) : QueryRequest where
  partitionKey := req.partitionKey
  eventType := if req.eventType ≠ 0 then some req.eventType.toUInt8 else none
  from_ := req.fromNs.toInt
  to_ := req.toNs.toInt

variable (fails : Nat → Option String)

/-- The loop over the batches. -/
def sendBatches (total : UInt64) (protoEvents : List ProtoEvent) (start : Nat)
    (s : Sent QueryResponse) : Option String × Sent QueryResponse :=
  if start < protoEvents.length then
    let stop :=
      if start + queryBatchSize > protoEvents.length then protoEvents.length
      else start + queryBatchSize
    -- protoEvents[start:stop]
    let batch := (protoEvents.take stop).drop start
    let isLast := decide (stop = protoEvents.length)
    match send fails ⟨batch, if isLast then total else 0, isLast, none⟩ s with
    | (some e, s') => (some e, s')
    | (none, s') => sendBatches total protoEvents (start + queryBatchSize) s'
  else (none, s)
termination_by protoEvents.length - start
decreasing_by
  rw [queryBatchSize]
  omega

/-- What follows the reader's answer. -/
def sendResult (req : ProtoQueryRequest) (s : Sent QueryResponse) :
    Except String (List Event) → Option String × Sent QueryResponse
  | .error msg => send fails (terminalError 0 msg) s
  | .ok events =>
      let protoEvents := blockEventsToProto events req.partitionKey
      match sendBatches fails (UInt64.ofNat events.length) protoEvents 0 s with
      | (some e, s') => (some e, s')
      | (none, s') =>
          if protoEvents.length = 0 then send fails ⟨[], 0, true, none⟩ s' else (none, s')

/-- `QueryServer.Query`: the error it returns, if any, and the stream it
leaves. -/
def query {m : Type → Type} [Monad m] (reader : QueryRequest → m (Except String (List Event)))
    (req : ProtoQueryRequest) (s : Sent QueryResponse) :
    m (Option String × Sent QueryResponse) :=
  if req.partitionKey.length = 0 then
    pure (send fails (terminalError 0 "partition_key must not be empty") s)
  else if ¬ (qreq req).from_ < (qreq req).to_ then
    pure (send fails (terminalError 0 "from_ns must be before to_ns") s)
  else do
    let result ← reader (qreq req)
    pure (sendResult fails req s result)

/-! ## What is sent -/

/-- The messages for a list of rows. -/
def messages (protoEvents : List ProtoEvent) : List QueryResponse :=
  markLast (fun isLast batch =>
      ⟨batch, if isLast then UInt64.ofNat protoEvents.length else 0, isLast, none⟩)
    (batches queryBatchSize protoEvents)

variable {fails} {total : UInt64} {protoEvents : List ProtoEvent} {start : Nat}
  {s : Sent QueryResponse}

theorem sendBatches_of_ge (h : protoEvents.length ≤ start) :
    sendBatches fails total protoEvents start s = (none, s) := by
  rw [sendBatches, if_neg (by omega)]

/-- A round with more to come. -/
theorem sendBatches_more (h : start + queryBatchSize < protoEvents.length) :
    sendBatches fails total protoEvents start s =
      match send fails ⟨(protoEvents.drop start).take queryBatchSize, 0, false, none⟩ s with
      | (some e, s') => (some e, s')
      | (none, s') => sendBatches fails total protoEvents (start + queryBatchSize) s' := by
  have hbatch : (protoEvents.take (start + queryBatchSize)).drop start =
      (protoEvents.drop start).take queryBatchSize := by
    rw [List.drop_take, Nat.add_sub_cancel_left]
  rw [sendBatches, if_pos (by omega)]
  simp only [if_neg (Nat.not_lt.mpr (Nat.le_of_lt h)), hbatch, Nat.ne_of_lt h, decide_false,
    Bool.false_eq_true, if_false]

/-- The last round. -/
theorem sendBatches_last (h : start < protoEvents.length)
    (hle : protoEvents.length ≤ start + queryBatchSize) :
    sendBatches fails total protoEvents start s =
      send fails ⟨protoEvents.drop start, total, true, none⟩ s := by
  have hstop : (if start + queryBatchSize > protoEvents.length then protoEvents.length
      else start + queryBatchSize) = protoEvents.length := by
    split_ifs with hgt
    · rfl
    · omega
  rw [sendBatches, if_pos h]
  simp only [hstop, List.take_length, decide_true, if_true]
  split
  · rename_i e s' hsend
    exact hsend.symm
  · rename_i s' hsend
    rw [sendBatches_of_ge hle, hsend]

/-- **The loop sends the batches of what is left**, the last one marked. -/
theorem sendBatches_eq (h : start < protoEvents.length) :
    sendBatches fails total protoEvents start s =
      sendAll fails (markLast
        (fun isLast batch => ⟨batch, if isLast then total else 0, isLast, none⟩)
        (batches queryBatchSize (protoEvents.drop start))) s := by
  induction hn : protoEvents.length - start using Nat.strong_induction_on generalizing start s with
  | _ n ih =>
      have hlen : (protoEvents.drop start).length = protoEvents.length - start := List.length_drop
      by_cases hmore : start + queryBatchSize < protoEvents.length
      · have hpos : 0 < queryBatchSize := by decide
        rw [sendBatches_more hmore, batches_of_lt hpos (by omega),
          markLast_cons (batches_ne_nil _ _), sendAll, List.drop_drop]
        simp only [Bool.false_eq_true, if_false]
        split
        · rename_i e s' hsend
          rw [hsend]
        · rename_i s' hsend
          rw [hsend]
          exact ih _ (by omega) hmore rfl
      · rw [sendBatches_last h (by omega), batches_of_le (by omega), markLast, sendAll_singleton]
        rfl

theorem sendResult_ok (req : ProtoQueryRequest) (events : List Event) :
    sendResult fails req s (.ok events) =
      sendAll fails (messages (blockEventsToProto events req.partitionKey)) s := by
  have hlen : (blockEventsToProto events req.partitionKey).length = events.length :=
    List.length_map _
  rw [sendResult, messages, ← hlen]
  by_cases hpos : 0 < (blockEventsToProto events req.partitionKey).length
  · rw [sendBatches_eq hpos, List.drop_zero]
    split
    · rename_i e s' hsend
      exact hsend.symm
    · rename_i s' hsend
      rw [if_neg (Nat.ne_of_gt hpos), hsend]
  · have hnil : blockEventsToProto events req.partitionKey = [] :=
      List.length_eq_zero_iff.mp (by omega)
    rw [sendBatches_of_ge (by omega), hnil, batches_of_le (Nat.zero_le _)]
    simp only [List.length_nil, if_true, markLast, sendAll_singleton]
    rfl

/-! ## What a client receives -/

/-- The messages of a stream that tells all of the rows. -/
structure Complete (rows : List ProtoEvent) (received : List QueryResponse) : Prop where
  /-- Exactly the last message says that it is the last. -/
  terminated : ∃ front last, received = front ++ [last] ∧ last.isLast = true ∧
    ∀ r ∈ front, r.isLast = false
  told : received.flatMap QueryResponse.events = rows
  bounded : ∀ r ∈ received, r.events.length ≤ 256
  /-- Only the last message has the number of rows. -/
  total : ∀ r ∈ received, r.total = if r.isLast then UInt64.ofNat rows.length else 0
  noError : ∀ r ∈ received, r.error = none

theorem complete_messages (rows : List ProtoEvent) : Complete rows (messages rows) := by
  obtain ⟨front, last, hbatches, heq⟩ := markLast_eq (f := fun isLast batch =>
    (⟨batch, if isLast then UInt64.ofNat rows.length else 0, isLast, none⟩ : QueryResponse))
    (batches_ne_nil queryBatchSize rows)
  have hflat := flatten_batches queryBatchSize rows
  constructor
  case terminated =>
    refine ⟨_, _, heq, rfl, fun r hr => ?_⟩
    obtain ⟨batch, -, rfl⟩ := List.mem_map.mp hr
    rfl
  case told =>
    rw [hbatches] at hflat
    rw [messages, heq]
    simpa [List.flatMap_map, List.flatten_append] using hflat
  case bounded =>
    intro r hr
    obtain ⟨isLast, batch, hb, rfl⟩ := mem_markLast hr
    exact length_le_of_mem_batches (by decide) hb
  case total =>
    intro r hr
    obtain ⟨isLast, batch, -, rfl⟩ := mem_markLast hr
    rfl
  case noError =>
    intro r hr
    obtain ⟨isLast, batch, -, rfl⟩ := mem_markLast hr
    rfl

/-- Whatever goes wrong on the way, the rows sent are a first part of the rows. -/
theorem events_prefix (rows : List ProtoEvent) :
    (sendAll fails (messages rows) Sent.start).2.sent.flatMap QueryResponse.events <+: rows := by
  obtain ⟨rest, hrest⟩ := sent_prefix fails (messages rows)
  have htold := (complete_messages rows).told
  rw [← hrest, List.flatMap_append] at htold
  exact ⟨_, htold⟩

/-- An error comes without rows. -/
theorem events_terminalError (msg : String) :
    (send fails (terminalError 0 msg) Sent.start).2.sent.flatMap QueryResponse.events = [] := by
  unfold send
  split
  · rfl
  · rfl

/-- What there is to tell: an error of the checks, or the answer of the
reader. -/
def outcome (reader : QueryRequest → Except String (List Event)) (req : ProtoQueryRequest) :
    Except String (List Event) :=
  if req.partitionKey.length = 0 then .error "partition_key must not be empty"
  else if ¬ req.fromNs < req.toNs then .error "from_ns must be before to_ns"
  else reader (qreq req)

/-- The messages for an outcome. -/
def messagesOf (req : ProtoQueryRequest) : Except String (List Event) → List QueryResponse
  | .error msg => [terminalError 0 msg]
  | .ok events => messages (blockEventsToProto events req.partitionKey)

theorem query_eq_sendAll (reader : QueryRequest → Except String (List Event))
    (req : ProtoQueryRequest) :
    query (m := Id) fails reader req s = sendAll fails (messagesOf req (outcome reader req)) s := by
  have hbounds : (qreq req).from_ < (qreq req).to_ ↔ req.fromNs < req.toNs :=
    Int64.lt_iff_toInt_lt.symm
  have hresult : ∀ r, sendResult fails req s r = sendAll fails (messagesOf req r) s := by
    intro r
    cases r with
    | error msg => rw [messagesOf, sendAll_singleton, sendResult]
    | ok events => rw [messagesOf, sendResult_ok]
  simp only [query, outcome, hbounds]
  split_ifs with hkey hlt
  · exact (sendAll_singleton _ _ _).symm
  · exact hresult (reader (qreq req))
  · exact (sendAll_singleton _ _ _).symm

/-- **A stream is complete and ends.** If nothing goes wrong on the way, the
client receives the rows in order, in messages of at most 256, of which
exactly the last one is marked and carries their number; or, for a request
that cannot be answered, the error and nothing else. If a message cannot be
sent, `Query` returns that error, and the rows sent before are a first part of
the rows. -/
theorem query_streams (reader : QueryRequest → Except String (List Event))
    (req : ProtoQueryRequest) (fails : Nat → Option String) :
    let run := query (m := Id) fails reader req Sent.start
    ((∀ i, fails i = none) → run.1 = none ∧
      match outcome reader req with
      | .error msg => run.2.sent = [⟨[], 0, true, some ⟨1, msg⟩⟩]
      | .ok events => Complete (events.map fun e =>
          ⟨req.partitionKey, 0, e.timestamp, e.payload⟩) run.2.sent) ∧
    (match outcome reader req with
      | .error _ => run.2.sent.flatMap QueryResponse.events = []
      | .ok events => run.2.sent.flatMap QueryResponse.events <+: events.map fun e =>
          ⟨req.partitionKey, 0, e.timestamp, e.payload⟩) ∧
    (run.1 ≠ none → ∃ i, run.1 = fails i) := by
  intro run
  have hrun : run = sendAll fails (messagesOf req (outcome reader req)) Sent.start :=
    query_eq_sendAll reader req
  rw [hrun]
  refine ⟨fun hall => ?_, ?_, fun hne => ?_⟩
  · obtain ⟨hnone, hsent⟩ := sendAll_all hall (messagesOf req (outcome reader req)) Sent.start
    refine ⟨hnone, ?_⟩
    rw [hsent]
    cases outcome reader req with
    | error msg => rfl
    | ok events => exact complete_messages _
  · cases outcome reader req with
    | error msg =>
        rw [messagesOf, sendAll_singleton]
        exact events_terminalError msg
    | ok events => exact events_prefix _
  · obtain ⟨k, -, -, -, ⟨-, hnone⟩ | ⟨-, heq, -⟩⟩ :=
      sendAll_spec fails (messagesOf req (outcome reader req)) Sent.start
    · exact absurd hnone hne
    · exact ⟨_, heq⟩

end QueryServer

end Bbdb.Grpc
