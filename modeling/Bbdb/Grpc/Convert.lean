import Bbdb.Block.Event

/-!
# gRPC — conversions

How events of the write API become rows. A client may leave its partition key
or its timestamp empty; the server then fills in a fresh key or its own time.
Every other timestamp is stored as the client sent it.
-/

namespace Bbdb.Grpc

open Bbdb.Block

/-- `bbdbv1.Event`. -/
structure ProtoEvent where
  partitionKey : Bytes
  eventType : UInt32
  timestampNs : Int64
  payload : Bytes
  deriving DecidableEq, Repr

/-- `ResolvePartitionKey`, with the bytes of a fresh UUID. -/
def resolvePartitionKey (uuid key : Bytes) : Bytes := if key.length > 0 then key else uuid

def resolveTimestamp (ts : Int64) : Proc Int64 :=
  if ts ≠ 0 then pure ts
  else do
    let now ← timeNow
    pure (Int64.ofInt now)

/-- `BlockEventsToProto`; the event type is not echoed. -/
def blockEventsToProto (events : List Event) (partitionKey : Bytes) : List ProtoEvent :=
  events.map fun e => ⟨partitionKey, 0, e.timestamp, e.payload⟩

/-- The loop of `ProtoEventsToBlock`; `uuids` are the keys it would generate,
one for each event. -/
def protoEventsToBlock (libs : Libs) (uuids : Nat → Bytes) :
    Nat → List ProtoEvent → Proc (List Event × List Bytes)
  | _, [] => pure ([], [])
  | i, e :: events => do
      let key := resolvePartitionKey (uuids i) e.partitionKey
      let ts ← resolveTimestamp e.timestampNs
      let (rows, keys) ← protoEventsToBlock libs uuids (i + 1) events
      pure (⟨keyHashFor libs key, ts, e.payload⟩ :: rows, key :: keys)

/-- **`len(resolvedKeys) == len(events)` always**, and every row carries the
hash of its key, the payload it came with and, unless that was zero, the
timestamp it came with. -/
theorem runs_protoEventsToBlock {libs : Libs} {uuids : Nat → Bytes} {i : Nat}
    {events : List ProtoEvent} {w w' : World} {ws : List World} {rows : List Event}
    {keys : List Bytes}
    (h : Prog.Runs sem (protoEventsToBlock libs uuids i events) w ws (rows, keys) w') :
    keys.length = events.length ∧ rows.map Event.keyHash = keys.map (keyHashFor libs) ∧
      List.Forall₂ (fun (e : ProtoEvent) (r : Event) => r.payload = e.payload ∧
        (e.timestampNs ≠ 0 → r.timestamp = e.timestampNs)) events rows := by
  induction events generalizing i w w' ws rows keys with
  | nil =>
      obtain ⟨-, hr, -⟩ := h
      cases hr
      exact ⟨rfl, rfl, List.Forall₂.nil⟩
  | cons e events ih =>
      obtain ⟨ts, w₁, ws₁, ws₂, rfl, hts, hk⟩ := Prog.runs_bind.mp h
      obtain ⟨⟨rows', keys'⟩, w₂, ws₃, ws₄, rfl, hrest, -, hr, -⟩ := Prog.runs_bind.mp hk
      cases hr
      obtain ⟨hlen, hhash, hall⟩ := ih hrest
      refine ⟨by simp [hlen], by simp [hhash], List.Forall₂.cons ⟨rfl, fun hne => ?_⟩ hall⟩
      rw [resolveTimestamp, if_pos hne] at hts
      obtain ⟨-, rfl, -⟩ := hts
      rfl

end Bbdb.Grpc
