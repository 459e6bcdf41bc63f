import Bbdb.Block.Publish
import Bbdb.Grpc.Convert
import Bbdb.Ingestion.RingSteps
import Bbdb.Ingestion.Writer
import Bbdb.Lib.Group
import Bbdb.Query.Engine

/-!
# gRPC — a batch of the write API

`handleBatch` converts the events of a request, checks their types, groups
them by shard and pushes them, one group after the other in the order the map
happens to have. A `Push` into a full ring looks again and again until there
is room or the context of the stream is done.

The rest of the server appears as `Surroundings`: what the writers and the
other streams do to the rings between two looks, and from when on the context
is done. The ring of a shard without a writer is a fresh one
(`getOrCreateWriter` is the subject of `Writers`).

A response with an error says `accepted = 0`, yet the pushes before the one
that failed have been made. The batch had no effect only if it was the first
`Push` that failed (`rejected_batch_iff`).
-/

namespace Bbdb.Grpc

open Bbdb.Block Bbdb.Meta Bbdb.Ingestion Bbdb.Query Bbdb.Index
open Prog hiding pure bind

/-! ## Messages -/

/-- `bbdbv1.WriteRequest`. -/
structure WriteRequest where
  events : List ProtoEvent
  batchId : String

/-- `bbdbv1.Error`. -/
structure ErrorReply where
  code : UInt32
  message : String
  deriving DecidableEq, Repr

/-- `bbdbv1.WriteResponse`. -/
structure WriteResponse where
  batchId : String
  accepted : UInt32
  partitionKeys : List Bytes
  error : Option ErrorReply
  deriving DecidableEq, Repr

/-! ## The rings -/

structure Rings where
  ring : ShardID → RingBuf
  /-- How often a `Push` of the batch has looked at its ring. -/
  looks : Nat
  /-- What the batch has pushed. -/
  pushed : List (ShardID × Event)

/-- What happens around a batch. -/
structure Surroundings where
  /-- What the writers and the other streams do to the rings before a look. -/
  others : Nat → ShardID → RingBuf → RingBuf
  /-- The context is found done after a look. -/
  done : Nat → Bool
  /-- The text of `ctx.Err()`. -/
  ctxErr : String

/-- The rings as the next look finds them. -/
def Rings.look (env : Surroundings) (s : Rings) : Rings :=
  { s with ring := fun shard => env.others s.looks shard (s.ring shard), looks := s.looks + 1 }

/-- The event is in its ring. -/
def Rings.store (s : Rings) (shard : ShardID) (rb : RingBuf) (e : Event) : Rings :=
  { s with ring := Function.update s.ring shard rb, pushed := s.pushed ++ [(shard, e)] }

/-- `Push`, at most `n` looks. -/
def push (env : Surroundings) (shard : ShardID) (e : Event) :
    Nat → Rings → Option (Except String Unit × Rings)
  | 0, _ => none
  | n + 1, s =>
      match ((s.look env).ring shard).push e with
      | some rb => some (.ok (), (s.look env).store shard rb e)
      | none =>
          if env.done s.looks then some (.error env.ctxErr, s.look env)
          else push env shard e n (s.look env)

/-- `ShardWriter.Write`. -/
def write (env : Surroundings) (n : Nat) (shard : ShardID) :
    List Event → Rings → Option (Except String Unit × Rings)
  | [], s => some (.ok (), s)
  | e :: events, s =>
      match push env shard e n s with
      | none => none
      | some (.error msg, s') => some (.error msg, s')
      | some (.ok _, s') => write env n shard events s'

/-- The loop over the groups. -/
def writeGroups (env : Surroundings) (n : Nat) :
    List (ShardID × List Event) → Rings → Option (Except String Unit × Rings)
  | [], s => some (.ok (), s)
  | g :: groups, s =>
      match write env n g.1 g.2 s with
      | none => none
      | some (.error msg, s') => some (.error msg, s')
      | some (.ok _, s') => writeGroups env n groups s'

/-! ## The handler -/

/-- The order in which a `range` loop visits the entries of the map. -/
structure GroupOrder where
  visit : List (ShardID × List Event) → List (ShardID × List Event)
  perm : ∀ m, (visit m).Perm m

variable (libs : Libs)

/-- Every converted event with its shard. -/
def routed (events : List ProtoEvent) (rows : List Event) (keys : List Bytes) :
    List (ShardID × Event) :=
  (events.zip (keys.zip rows)).map fun x => (shardFor libs x.2.1 x.1.eventType.toUInt8, x.2.2)

/-- `handleBatch` once the events are converted; nothing while a `Push` is
still looking after `n` looks. -/
def respond (env : Surroundings) (order : GroupOrder) (n : Nat) (req : WriteRequest)
    (rows : List Event) (keys : List Bytes) (s : Rings) : Option (WriteResponse × Rings) :=
  match req.events.find? fun e => e.eventType > 255 with
  | some e =>
      some (⟨req.batchId, 0, keys, some ⟨1, "event_type " ++ toString e.eventType.toNat ++
        " exceeds max value 255"⟩⟩, s)
  | none =>
      match writeGroups env n (order.visit (Group.group (routed libs req.events rows keys))) s with
      | none => none
      | some (.error msg, s') => some (⟨req.batchId, 0, keys, some ⟨2, msg⟩⟩, s')
      | some (.ok _, s') =>
          some (⟨req.batchId, UInt32.ofNat req.events.length, keys, none⟩, s')

/-- `handleBatch`. -/
def handleBatch (uuids : Nat → Bytes) (env : Surroundings) (order : GroupOrder) (n : Nat)
    (req : WriteRequest) (s : Rings) : Proc (Option (WriteResponse × Rings)) := do
  let (rows, keys) ← protoEventsToBlock libs uuids 0 req.events
  pure (respond libs env order n req rows keys s)

/-- The pushes of a batch, in order. -/
def batchPushes (order : GroupOrder) (req : WriteRequest) (rows : List Event) (keys : List Bytes) :
    List (ShardID × Event) :=
  Group.ungroup (order.visit (Group.group (routed libs req.events rows keys)))

/-! ## Pushes that fail -/

variable {libs} {env : Surroundings} {n : Nat} {s s' : Rings} {r : Except String Unit}

/-- No room in the ring. -/
def Full (rb : RingBuf) : Prop := rb.hasRoom rb.head rb.tail = false

/-- A `Push` that starts now finds its ring full at every look, up to one
after which the context is done. -/
inductive Blocked (env : Surroundings) (shard : ShardID) : Rings → Prop
  | cancelled {s : Rings} : Full ((s.look env).ring shard) → env.done s.looks = true →
      Blocked env shard s
  | waits {s : Rings} : Full ((s.look env).ring shard) → Blocked env shard (s.look env) →
      Blocked env shard s

/-- One push after the other, up to the first that fails. -/
def pushAll (env : Surroundings) (n : Nat) :
    List (ShardID × Event) → Rings → Option (Except String Unit × Rings)
  | [], s => some (.ok (), s)
  | p :: ps, s =>
      match push env p.1 p.2 n s with
      | none => none
      | some (.error msg, s') => some (.error msg, s')
      | some (.ok _, s') => pushAll env n ps s'

/-- In the state before each of the pushes, that push is not blocked. -/
def Flows (env : Surroundings) (n : Nat) : List (ShardID × Event) → Rings → Prop
  | [], _ => True
  | p :: ps, s =>
      ¬ Blocked env p.1 s ∧ ∀ s', push env p.1 p.2 n s = some (.ok (), s') → Flows env n ps s'

theorem push_none_iff {rb : RingBuf} {e : Event} : rb.push e = none ↔ Full rb := by
  rw [RingBuf.push, Full]
  cases rb.hasRoom rb.head rb.tail with
  | true => simp
  | false => simp

theorem blocked_iff {shard : ShardID} :
    Blocked env shard s ↔ Full ((s.look env).ring shard) ∧
      (env.done s.looks = true ∨ Blocked env shard (s.look env)) := by
  constructor
  · intro h
    cases h with
    | cancelled hf hd => exact ⟨hf, Or.inl hd⟩
    | waits hf hb => exact ⟨hf, Or.inr hb⟩
  · rintro ⟨hf, hd | hb⟩
    · exact .cancelled hf hd
    · exact .waits hf hb

/-- **What a `Push` that returned has done.** -/
theorem push_spec {shard : ShardID} {e : Event} (h : push env shard e n s = some (r, s')) :
    (r = .ok () ∧ ¬ Blocked env shard s ∧ s'.pushed = s.pushed ++ [(shard, e)]) ∨
      (r = .error env.ctxErr ∧ Blocked env shard s ∧ s'.pushed = s.pushed) := by
  induction n generalizing s with
  | zero => cases h
  | succ n ih =>
      rw [push] at h
      split at h
      · rename_i rb hrb
        cases h
        refine Or.inl ⟨rfl, fun hb => ?_, rfl⟩
        rw [push_none_iff.mpr (blocked_iff.mp hb).1] at hrb
        cases hrb
      · rename_i hnone
        have hfull := push_none_iff.mp hnone
        split_ifs at h with hdone
        · cases h
          exact Or.inr ⟨rfl, .cancelled hfull hdone, rfl⟩
        · -- the loop goes on from what this look has seen
          rcases ih h with ⟨hr, hb, hp⟩ | ⟨hr, hb, hp⟩
          · refine Or.inl ⟨hr, fun hb' => ?_, hp⟩
            exact (blocked_iff.mp hb').2.elim hdone hb
          · exact Or.inr ⟨hr, .waits hfull hb, hp⟩

/-- **What a sequence of pushes that returned has done**: all of them, or
those before the first one that failed. -/
theorem pushAll_spec {ps : List (ShardID × Event)} (h : pushAll env n ps s = some (r, s')) :
    (r = .ok () ∧ Flows env n ps s ∧ s'.pushed = s.pushed ++ ps) ∨
      (r = .error env.ctxErr ∧ ¬ Flows env n ps s ∧ ∃ qs, s'.pushed = s.pushed ++ qs ∧
        (qs = [] ↔ ∃ p ∈ ps.head?, Blocked env p.1 s)) := by
  induction ps generalizing s with
  | nil =>
      cases h
      exact Or.inl ⟨rfl, trivial, (List.append_nil _).symm⟩
  | cons p ps ih =>
      rw [pushAll] at h
      split at h
      · cases h
      · rename_i msg s₁ hp
        cases h
        rcases push_spec hp with ⟨hr, -⟩ | ⟨hr, hb, hs⟩
        · cases hr
        · exact Or.inr ⟨hr, fun hf => hf.1 hb, [], by rw [hs, List.append_nil],
            fun _ => ⟨p, rfl, hb⟩, fun _ => rfl⟩
      · rename_i u s₁ hp
        rcases push_spec hp with ⟨-, hb, hs⟩ | ⟨hr, -⟩
        · have happ : ∀ l, s₁.pushed ++ l = s.pushed ++ p :: l := by
            intro l
            rw [hs, List.append_assoc, List.singleton_append]
          rcases ih h with ⟨hr, hf, hs'⟩ | ⟨hr, hf, qs, hs', -⟩
          · refine Or.inl ⟨hr, ⟨hb, fun s₂ h₂ => ?_⟩, by rw [hs', happ]⟩
            rw [hp] at h₂
            cases h₂
            exact hf
          · refine Or.inr ⟨hr, fun hflows => hf (hflows.2 s₁ hp), p :: qs, by rw [hs', happ], ?_⟩
            -- the first push went through, so it was not blocked
            refine ⟨fun he => (by cases he), ?_⟩
            rintro ⟨q, hq, hbq⟩
            cases hq
            exact absurd hbq hb
        · cases hr

theorem pushAll_append (ps qs : List (ShardID × Event)) (s : Rings) :
    pushAll env n (ps ++ qs) s =
      match pushAll env n ps s with
      | none => none
      | some (.error msg, s') => some (.error msg, s')
      | some (.ok _, s') => pushAll env n qs s' := by
  induction ps generalizing s with
  | nil => rfl
  | cons p ps ih =>
      rw [List.cons_append, pushAll, pushAll]
      split
      · rfl
      · rfl
      · exact ih _

theorem write_eq_pushAll (shard : ShardID) (events : List Event) (s : Rings) :
    write env n shard events s = pushAll env n (events.map fun e => (shard, e)) s := by
  induction events generalizing s with
  | nil => rfl
  | cons e events ih =>
      rw [write, List.map_cons, pushAll]
      dsimp only
      split
      · rfl
      · rfl
      · exact ih _

theorem writeGroups_eq_pushAll (groups : List (ShardID × List Event)) (s : Rings) :
    writeGroups env n groups s = pushAll env n (Group.ungroup groups) s := by
  induction groups generalizing s with
  | nil => rfl
  | cons g groups ih =>
      rw [writeGroups, Group.ungroup, List.flatMap_cons, pushAll_append, write_eq_pushAll]
      split
      · rfl
      · rfl
      · exact ih _

/-! ## Responses -/

variable {uuids : Nat → Bytes} {order : GroupOrder} {req : WriteRequest} {resp : WriteResponse}
  {rows : List Event} {keys : List Bytes} {w w' : World} {ws : List World}

theorem runs_handleBatch {res : Option (WriteResponse × Rings)}
    (h : Runs sem (handleBatch libs uuids env order n req s) w ws res w') :
    ∃ rows keys, Runs sem (protoEventsToBlock libs uuids 0 req.events) w ws (rows, keys) w' ∧
      respond libs env order n req rows keys s = res := by
  obtain ⟨⟨rows, keys⟩, w₁, ws₁, ws₂, rfl, hconv, rfl, hres, rfl⟩ := runs_bind.mp h
  rw [List.append_nil]
  exact ⟨rows, keys, hconv, hres.symm⟩

/-- An event type out of range: rejected before anything is pushed. -/
theorem respond_invalid (hbad : ∃ e ∈ req.events, 255 < e.eventType)
    (h : respond libs env order n req rows keys s = some (resp, s')) :
    s' = s := by
  rw [respond] at h
  split at h
  · cases h
    rfl
  · rename_i hnone
    obtain ⟨e, he, hlt⟩ := hbad
    exact absurd (decide_eq_true hlt) (List.find?_eq_none.mp hnone e he)

/-- All event types in range: the pushes decide. -/
theorem respond_valid (hok : ∀ e ∈ req.events, e.eventType ≤ 255)
    (h : respond libs env order n req rows keys s = some (resp, s')) :
    ∃ r, pushAll env n (batchPushes libs order req rows keys) s = some (r, s') ∧
      resp = match r with
        | .error msg => ⟨req.batchId, 0, keys, some ⟨2, msg⟩⟩
        | .ok _ => ⟨req.batchId, UInt32.ofNat req.events.length, keys, none⟩ := by
  rw [respond] at h
  split at h
  · rename_i e he
    have hlt : 255 < e.eventType := by simpa using List.find?_some he
    exact absurd hlt (UInt32.not_lt.mpr (hok e (List.mem_of_find?_eq_some he)))
  · rw [writeGroups_eq_pushAll] at h
    split at h
    · cases h
    · rename_i msg s₁ hp
      cases h
      exact ⟨_, hp, rfl⟩
    · rename_i u s₁ hp
      cases h
      exact ⟨_, hp, rfl⟩

/-- **When a rejected batch has no effect.** A response with an error comes
from a batch that pushed nothing if and only if an event type was out of
range, or its first `Push` was blocked until the context was done, or no
`Push` was (and there is no error). -/
theorem rejected_batch_iff
    (hrun : Runs sem (handleBatch libs uuids env order n req s) w ws (some (resp, s')) w') :
    ∃ rows keys, Runs sem (protoEventsToBlock libs uuids 0 req.events) w ws (rows, keys) w' ∧
      ((resp.error ≠ none → s'.pushed = s.pushed) ↔
        (∃ e ∈ req.events, 255 < e.eventType) ∨
          (∃ p ∈ (batchPushes libs order req rows keys).head?, Blocked env p.1 s) ∨
          Flows env n (batchPushes libs order req rows keys) s) := by
  obtain ⟨rows, keys, hconv, hresp⟩ := runs_handleBatch hrun
  refine ⟨rows, keys, hconv, ?_⟩
  by_cases hbad : ∃ e ∈ req.events, 255 < e.eventType
  · rw [respond_invalid hbad hresp]
    exact ⟨fun _ => Or.inl hbad, fun _ _ => rfl⟩
  · have hok : ∀ e ∈ req.events, e.eventType ≤ 255 :=
      fun e he => UInt32.not_lt.mp fun hlt => hbad ⟨e, he, hlt⟩
    obtain ⟨r, hp, rfl⟩ := respond_valid hok hresp
    rcases pushAll_spec hp with ⟨rfl, hf, -⟩ | ⟨rfl, hf, qs, hs, hqs⟩
    · exact ⟨fun _ => Or.inr (Or.inr hf), fun _ herr => absurd rfl herr⟩
    · constructor
      · intro hnone
        have hqs' : qs = [] := by
          have := hnone (Option.some_ne_none _)
          rw [hs] at this
          exact List.append_right_eq_self.mp this
        exact Or.inr (Or.inl (hqs.mp hqs'))
      · rintro (hb | hb | hb) -
        · exact absurd hb hbad
        · rw [hs, hqs.mpr hb, List.append_nil]
        · exact absurd hb hf

/-! ### A batch of two -/

/-- Two events of one partition key. -/
def twoEvents : WriteRequest := ⟨[⟨[1, 0], 0, 1, [1]⟩, ⟨[1, 0], 0, 2, [2]⟩], "b1"⟩

/-- Nobody else touches the rings; the context is done, or will never be. -/
def alone (done : Bool) : Surroundings := ⟨fun _ _ rb => rb, fun _ => done, "context canceled"⟩

/-- Empty rings. -/
def freshRings (capacity : Int) : Rings := ⟨fun _ => newRingBuf capacity, 0, []⟩

def insertionOrder : GroupOrder := ⟨id, fun _ => List.Perm.refl _⟩

/-- The batch of two over fresh rings. -/
def handleTwo (done : Bool) (capacity : Int) : Proc (Option (WriteResponse × Rings)) :=
  handleBatch Libs.plain (fun _ => List.replicate 16 7) (alone done) insertionOrder 3 twoEvents
    (freshRings capacity)

def blankWorld : World := ⟨Pebble.empty, fun _ => none, 0⟩

/-- What a batch of two does, by evaluation. -/
theorem runs_handleTwo (done : Bool) (capacity : Int) (p : WriteResponse → Rings → Bool)
    (h : ((handleTwo done capacity).exec blankWorld).1.map (fun x => p x.1 x.2) = some true) :
    ∃ ws w' resp s', Runs sem (handleTwo done capacity) blankWorld ws (some (resp, s')) w' ∧
      p resp s' = true := by
  obtain ⟨⟨resp, s'⟩, he, hp⟩ := Option.map_eq_some_iff.mp h
  have hrun := runs_procExec (handleTwo done capacity) blankWorld
  rw [he] at hrun
  exact ⟨_, _, resp, s', hrun, hp⟩

/-- A ring of one slot and a context that is done: the second `Push` fails,
the response says that nothing was accepted, and the first event is in the
ring. -/
theorem rejected_batch_pushed : ∃ ws w' resp s',
    Runs sem (handleTwo true 1) blankWorld ws (some (resp, s')) w' ∧
      resp.error = some ⟨2, "context canceled"⟩ ∧ resp.accepted = 0 ∧
      s'.pushed = [(0, ⟨256, 1, [1]⟩)] := by
  obtain ⟨ws, w', resp, s', hrun, hp⟩ := runs_handleTwo true 1 (fun resp s' => decide
    (resp.error = some ⟨2, "context canceled"⟩ ∧ resp.accepted = 0 ∧
      s'.pushed = [(0, ⟨256, 1, [1]⟩)])) (by decide +kernel)
  exact ⟨ws, w', resp, s', hrun, of_decide_eq_true hp⟩

theorem rejected_batch_iff_two : ∃ ws w' resp s' rows keys,
    Runs sem (handleTwo true 1) blankWorld ws (some (resp, s')) w' ∧
      ((resp.error ≠ none → s'.pushed = []) ↔
        (∃ e ∈ twoEvents.events, 255 < e.eventType) ∨
          (∃ p ∈ (batchPushes Libs.plain insertionOrder twoEvents rows keys).head?,
            Blocked (alone true) p.1 (freshRings 1)) ∨
          Flows (alone true) 3 (batchPushes Libs.plain insertionOrder twoEvents rows keys)
            (freshRings 1)) := by
  obtain ⟨ws, w', resp, s', hrun, -⟩ := runs_handleTwo true 1 (fun _ _ => true) (by decide +kernel)
  obtain ⟨rows, keys, -, h⟩ := rejected_batch_iff hrun
  exact ⟨ws, w', resp, s', rows, keys, hrun, h⟩

/-! ## Routing -/

/-- What becomes of the ring of a shard while a batch is written: the rest of
the server does to it what it does, and the batch puts the events of `own`
behind what the ring holds, one after the other. -/
inductive Receives (env : Surroundings) (shard : ShardID) :
    List Event → RingBuf → RingBuf → Prop
  | nil (rb : RingBuf) : Receives env shard [] rb rb
  | others {own : List Event} {rb rb₁ : RingBuf} (k : Nat) (h : Receives env shard own rb rb₁) :
      Receives env shard own rb (env.others k shard rb₁)
  | pushed {own : List Event} {rb rb₁ rb₂ : RingBuf} {e : Event}
      (h : Receives env shard own rb rb₁) (hadd : rb₂.contents = rb₁.contents ++ [e]) :
      Receives env shard (own ++ [e]) rb rb₂

namespace Receives

variable {shard : ShardID} {own own' : List Event} {rb rb₁ rb₂ : RingBuf}

theorem trans (h₁ : Receives env shard own rb rb₁) (h₂ : Receives env shard own' rb₁ rb₂) :
    Receives env shard (own ++ own') rb rb₂ := by
  induction h₂ with
  | nil _ => simpa using h₁
  | others k _ ih => exact (ih h₁).others k
  | pushed _ hadd ih =>
      rw [← List.append_assoc]
      exact (ih h₁).pushed hadd

end Receives

end Bbdb.Grpc
