import Bbdb.Ingestion.Sealed

/-!
# Ingestion — what becomes of WAL entries

An event that has reached the WAL may leave it in one way only: a `Seal`
commits, and its batch deletes the WAL of the whole shard. Nothing is lost
as long as every entry deleted so is a row of the block committed with it
(`WalKept`). The writer drops its memtable when a `Seal` fails, and a new
writer does not read the WAL it finds; after either the WAL holds entries of
no memtable, which the state remembers as `stale`, and the next `Seal` that
succeeds deletes them.

`wal_entries_kept` and `events_survive_crashes` are the invariants of the
runs in which that does not happen. The shard 0xffff is an exception to all
of this: the range its batch deletes is empty.
-/

namespace Bbdb.Ingestion

open Bbdb.Meta Bbdb.Block Bbdb.Tier Bbdb.Ttl GoTime
open Prog hiding pure bind

/-! ## One operation -/

/-- The WAL entry of a shard under a sequence number. -/
def walAt (shard : ShardID) (w : World) (q : UInt64) : Option Bytes :=
  w.db.view.get (walKey shard q)

/-- From `w` to `w'` a seal batch commits a block that has the row `e`. -/
def CommitsRow (libs : Libs) (st : LocalStore) (shard : ShardID) (w w' : World) (e : Event) :
    Prop :=
  ∃ id bm hour rows, w'.db = w.db.commit (sealOps shard id bm hour) true ∧
    Holds libs st w' id rows ∧ e ∈ rows

/-- Every WAL entry of `w` is still there in `w'`, unless its event is a row
of the block that was committed in between. -/
def WalKept (libs : Libs) (st : LocalStore) (shard : ShardID) (w w' : World) : Prop :=
  ∀ q d, walAt shard w q = some d → walAt shard w' q = some d ∨
    ∃ e, libs.unmarshal d = some e ∧ CommitsRow libs st shard w w' e

/-- Every WAL entry of `w'` was there in `w`, or holds one of `events`. -/
def WalNew (libs : Libs) (shard : ShardID) (events : List Event) (w w' : World) : Prop :=
  ∀ q d, walAt shard w' q = some d → walAt shard w q = some d ∨
    ∃ e ∈ events, libs.unmarshal d = some e

/-- What the operations of a step do to the WAL, where `events` wait in the
ring. -/
structure WalSafe (libs : Libs) (st : LocalStore) (shard : ShardID) (events : List Event)
    (w w' : World) : Prop where
  kept : WalKept libs st shard w w'
  seq : SeqInv shard w.db.view → SeqInv shard w'.db.view
  new : WalNew libs shard events w w'

section Operation

variable {libs : Libs} {st : LocalStore} {shard : ShardID} {events : List Event} {w w' : World}

theorem WalNew.refl (w : World) : WalNew libs shard events w w := fun _ _ h => Or.inl h

theorem WalNew.trans {a b c : World} (h₁ : WalNew libs shard events a b)
    (h₂ : WalNew libs shard events b c) : WalNew libs shard events a c := by
  intro q d hd
  rcases h₂ q d hd with hb | he
  · exact h₁ q d hb
  · exact Or.inr he

/-- Entries that can only disappear, under a counter that stays, keep their
numbers below it. -/
theorem seqInv_of_subset (hseq : w'.db.view.get (walSeqKey shard) = w.db.view.get (walSeqKey shard))
    (hsub : ∀ q d, walAt shard w' q = some d → walAt shard w q = some d)
    (h : SeqInv shard w.db.view) : SeqInv shard w'.db.view := by
  intro q d hd
  have hlt := h q d (hsub q d hd)
  rw [nextSeq, hseq]
  exact hlt

/-- An operation after which WAL and counter read the same. -/
theorem walSafe_of_same (hwal : ∀ q, walAt shard w' q = walAt shard w q)
    (hseq : w'.db.view.get (walSeqKey shard) = w.db.view.get (walSeqKey shard)) :
    WalSafe libs st shard events w w' where
  kept q d hd := Or.inl (by rw [hwal, hd])
  seq := seqInv_of_subset hseq fun q d hd => by rwa [hwal] at hd
  new q d hd := Or.inl (by rwa [hwal] at hd)

theorem walSafe_readClock (t : Time) : WalSafe libs st shard events w (readClock w t) :=
  walSafe_of_same (fun _ => rfl) rfl

theorem walSafe_of_crash (hp : PendingIdx w.db) (h : w.Crash w') :
    WalSafe libs st shard events w w' :=
  walSafe_of_same (fun _ => get_view_crash hp h.db (by rw [family_walKey]; decide))
    (get_view_crash hp h.db (by rw [family_walSeqKey]; decide))

theorem walSafe_of_idxStep (h : IdxStep w w') : WalSafe libs st shard events w w' :=
  walSafe_of_same (fun _ => h.get_view (by rw [family_walKey]; decide))
    (h.get_view (by rw [family_walSeqKey]; decide))

theorem walSafe_of_reapStep {cfg : ReaperConfig} {E : ExpiredEntry → Prop}
    (h : ReapStep cfg E w w') : WalSafe libs st shard events w w' := by
  have hsame : ∀ k, family k ≠ prefixExpiry → family k ≠ prefixBlock →
      w'.db.view.get k = w.db.view.get k := by
    intro k hexp hblk
    rcases h.db with hdb | ⟨e, -, hdb⟩
    · rw [hdb]
    · rw [hdb, Pebble.view_commit, get_deleteOps, if_neg]
      intro hk
      rcases hk with hk | hk
      · exact hexp (by rw [hk, family_expiryKey])
      · exact hblk (by rw [hk, family_blockKey])
  refine walSafe_of_same (fun q => hsame _ ?_ ?_) (hsame _ ?_ ?_)
  · rw [family_walKey]; decide
  · rw [family_walKey]; decide
  · rw [family_walSeqKey]; decide
  · rw [family_walSeqKey]; decide

theorem walSafe_of_walGrows (h : WalGrows libs shard events w w') :
    WalSafe libs st shard events w w' :=
  ⟨fun q d hd => Or.inl (h.kept q d hd), fun _ => h.inv, h.new⟩

/-- The seal batch: it deletes all entries of the shard, or for the last
shard none. -/
theorem walAt_sealOps (id : BlockID) (bm : BlockMeta) (hour : UInt64) (q : UInt64) :
    walAt shard (w.commit (sealOps shard id bm hour) true) q =
      if shard = 0xffff then walAt shard w q else none := by
  rw [walAt, World.commit_db, Pebble.view_commit, get_sealOps,
    if_neg (ne_of_family (by rw [family_walKey, family_expiryKey]; decide)),
    if_neg (ne_of_family (by rw [family_walKey, family_blockKey]; decide))]
  by_cases hs : shard = 0xffff
  · rw [if_neg (fun h => (mem_walRange.mp h).2 hs), if_pos hs]
    rfl
  · rw [if_pos (mem_walRange.mpr ⟨rfl, hs⟩), if_neg hs]

/-- A commit keeps the WAL safe if every entry it deletes is a row of its
block. -/
theorem walSafe_of_sealOps {id : BlockID} {bm : BlockMeta} {hour : UInt64} {rows : List Event}
    (hholds : Holds libs st (w.commit (sealOps shard id bm hour) true) id rows)
    (hrows : shard ≠ 0xffff → ∀ q d, walAt shard w q = some d →
      ∃ e ∈ rows, libs.unmarshal d = some e) :
    WalSafe libs st shard events w (w.commit (sealOps shard id bm hour) true) := by
  have hsub : ∀ q d, walAt shard (w.commit (sealOps shard id bm hour) true) q = some d →
      walAt shard w q = some d := by
    intro q d hd
    rw [walAt_sealOps] at hd
    split_ifs at hd
    exact hd
  have hseq : (w.commit (sealOps shard id bm hour) true).db.view.get (walSeqKey shard) =
      w.db.view.get (walSeqKey shard) := by
    rw [World.commit_db, Pebble.view_commit, get_sealOps,
      if_neg (ne_of_family (by rw [family_walSeqKey, family_expiryKey]; decide)),
      if_neg (ne_of_family (by rw [family_walSeqKey, family_blockKey]; decide)), if_neg]
    intro h
    have hfam := family_of_mem_walRange h.1 h.2
    rw [family_walSeqKey] at hfam
    exact absurd hfam (by decide)
  refine ⟨fun q d hd => ?_, seqInv_of_subset hseq hsub, fun q d hd => Or.inl (hsub q d hd)⟩
  by_cases hs : shard = 0xffff
  · left
    rw [walAt_sealOps, if_pos hs, hd]
  · right
    obtain ⟨e, he, hu⟩ := hrows hs q d hd
    exact ⟨e, hu, id, bm, hour, rows, rfl, hholds, he⟩

end Operation

/-! ## One step -/

/-- The events a step drains. -/
def Sys.drains (s : Sys) : Act → List Event
  | .tick _ | .stop _ | .crashFlush _ => s.waiting
  | _ => []

/-- No `Seal` succeeds over a stale WAL, except for the last shard; sequence
numbers do not run out, and payloads fit their column. -/
def SealsOwnWal (shard : ShardID) : Cond := fun s act s' =>
  match act with
  | .push e => e.payload.length < 2 ^ 32
  | act => nextSeq shard s.world.db.view + (s.drains act).length ≤ 2 ^ 64 ∧
      (SealCommitted s s' → shard = 0xffff ∨ ¬ s.stale)

/-- The WAL of a state: numbers in order and, unless it is stale, no entry
that is not in the memtable. -/
structure WalInv (libs : Libs) (shard : ShardID) (s : Sys) : Prop where
  events : EventsAll (fun e => e.payload.length < 2 ^ 32) s
  seq : SeqInv shard s.world.db.view
  rows : shard ≠ 0xffff → ¬ s.stale → s.writer.isSome → ∀ q d, walAt shard s.world q = some d →
    ∃ e ∈ s.arrivals.map Arrival.event, libs.unmarshal d = some e

section Step

variable {libs : Libs} {st : LocalStore} {shard : ShardID} {s s' : Sys} {act : Act}

theorem waiting_eq {sw : ShardWriter} (hw : s.writer = some sw) :
    s.waiting = sw.ring.drainAll.1 := by
  rw [Sys.waiting, hw]

theorem drains_of_flushes {times : List Time} (hf : act.Flushes times) :
    s.drains act = s.waiting := by
  rcases hf with rfl | rfl | rfl
  · rfl
  · rfl
  · rfl

theorem SealsOwnWal.flush {times : List Time} (h : SealsOwnWal shard s act s')
    (hf : act.Flushes times) :
    nextSeq shard s.world.db.view + s.waiting.length ≤ 2 ^ 64 ∧
      (SealCommitted s s' → shard = 0xffff ∨ ¬ s.stale) := by
  rcases hf with rfl | rfl | rfl
  · exact h
  · exact h
  · exact h

/-- Every WAL entry is a row of the block to be committed. -/
def WalInRows (libs : Libs) (shard : ShardID) (s : Sys) (req : SealRequest) (w : World) : Prop :=
  shard ≠ 0xffff → ¬ s.stale → ∀ q d, walAt shard w q = some d →
    ∃ e ∈ req.memtable.rows, libs.unmarshal d = some e

theorem sealRule_wal {sw : ShardWriter} {events : List Event} (hb : Base st shard s)
    (hinv : WalInv libs shard s) (hw : s.writer = some sw)
    (hstale : SealCommitted s s' → shard = 0xffff ∨ ¬ s.stale) :
    SealRule libs sw (WalSafe libs st shard events) (WalInRows libs shard s)
      (SealCommitted s s') where
  prep := by
    intro req x y _ hP h
    refine ⟨fun hs hst q d hd => hP hs hst q d ?_, walSafe_of_idxStep h.idxStep⟩
    rw [← hd]
    exact (h.idxStep.get_view (by rw [family_walKey]; decide)).symm
  commit := by
    intro req x₀ x hc hq hP hx
    have hok := hb.writer sw hw
    have hstore : req.store = st := hok.store _ hq.store_eq
    have hshard : req.shard = shard := hq.shard_eq.trans hok.shard_eq
    subst hstore hshard
    have hpay : ∀ e ∈ req.memtable.rows, e.payload.length < 2 ^ 32 := by
      intro e he
      rw [hq.rows_eq, hok.rows] at he
      rcases List.mem_append.mp he with he | he
      · obtain ⟨a, ha, rfl⟩ := List.mem_map.mp he
        exact hinv.events.rows a ha
      · exact hinv.events.ring sw hw e (RingBuf.mem_drainAll he)
    refine walSafe_of_sealOps (holds_of_prepared hx hpay) fun hs q d hd => ?_
    obtain ⟨e, he, hu⟩ := hP hs ((hstale hc).resolve_left hs) q d hd
    exact ⟨e, (req.memtable.perm_rows_sort libs).mem_iff.mpr he, hu⟩

theorem drainRule_wal {sw : ShardWriter} {times : List Time} {called : Prop}
    (hb : Base st shard s) (hinv : WalInv libs shard s) (hw : s.writer = some sw)
    (hroom : nextSeq shard s.world.db.view + sw.ring.drainAll.1.length ≤ 2 ^ 64) :
    DrainRule libs sw (WalSafe libs st shard sw.ring.drainAll.1) (WalInRows libs shard s) called
      (s.drainedWorld times) := by
  have hok := hb.writer sw hw
  have hshard : sw.shard = shard := hok.shard_eq
  subst hshard
  have hens : Ensures sem (WalGrows libs sw.shard sw.ring.drainAll.1)
      (processEvents libs sw.shard sw.ring.drainAll.1 sw.memtable) _ (s.drainedWorld times) :=
    ensures_processEvents hinv.seq hroom
  have hnew := hens.strengthen (R := WalNew libs sw.shard sw.ring.drainAll.1)
    (fun x y h => h.new) WalNew.refl fun h₁ h₂ => h₁.trans h₂
  refine (hnew.weaken fun x y h => walSafe_of_walGrows h).mono ?_
  intro _ w₁ hpost _ req t hq hs hst q d hd
  rw [hq.rows_eq, hok.rows]
  rcases hpost.2 q d hd with hold | ⟨e, he, hu⟩
  · obtain ⟨e, he, hu⟩ := hinv.rows hs hst (by rw [hw]; rfl) q d hold
    exact ⟨e, List.mem_append_left _ he, hu⟩
  · exact ⟨e, List.mem_append_right _ he, hu⟩

theorem stepRule_wal (hb : Base st shard s) (hinv : WalInv libs shard s)
    (hc : SealsOwnWal shard s act s') :
    StepRule libs s act s' fun x y =>
      PendingIdx x.db → WalSafe libs st shard (s.drains act) x y where
  clock _ _ := walSafe_readClock _
  crash h hp := walSafe_of_crash hp h
  flush := by
    intro sw times hw hf
    obtain ⟨hroom, hstale⟩ := hc.flush hf
    rw [drains_of_flushes hf, waiting_eq hw]
    rw [waiting_eq hw] at hroom
    have hs : SealRule libs sw (WalSafe libs st shard sw.ring.drainAll.1) _ (SealCommitted s s') :=
      sealRule_wal hb hinv hw hstale
    refine ⟨_, ⟨fun hq hP hx => ⟨(hs.prep hq hP hx).1, fun _ => (hs.prep hq hP hx).2⟩,
      fun hcm hq hP hx _ => hs.commit hcm hq hP hx⟩, ?_⟩
    exact (drainRule_wal hb hinv hw hroom).weaken fun _ _ hk _ => hk
  reap _ h _ := walSafe_of_reapStep h

theorem SealsOwnWal.payload (h : SealsOwnWal shard s act s') (e : Event) (he : act = .push e) :
    e.payload.length < 2 ^ 32 := by
  subst he
  exact h

/-- After a flush the entries of a WAL that is not stale are in the memtable:
without a `Seal` because both have gained the same events, and after one
because the WAL is empty. -/
theorem flushed_rows {sw sw' : ShardWriter} {times : List Time} {force : Bool} {ws : List World}
    {w' : World} {r : Option (Except Err BlockID)} (hb : Base st shard s)
    (hinv : WalInv libs shard s) (hw : s.writer = some sw)
    (ht : DrainTimes s.world.clock sw.ring.drainAll.1 times)
    (h : Runs sem (flushAndMaybeSeal libs sw force) (s.drainedWorld times) ws (sw', r) w')
    (hnew : WalNew libs shard sw.ring.drainAll.1 s.world w') (hs : shard ≠ 0xffff)
    (hstale : ¬ (s.flushed sw times ws w' r (some sw')).stale) :
    ∀ q d, walAt shard w' q = some d →
      ∃ e ∈ (s.flushed sw times ws w' r (some sw')).arrivals.map Arrival.event,
        libs.unmarshal d = some e := by
  intro q d hd
  have hok := hb.writer sw hw
  cases r with
  | none =>
      show ∃ e ∈ (s.drainedRows sw times).map Arrival.event, libs.unmarshal d = some e
      rw [map_event_drainedRows hok.rows ht, hok.rows]
      rcases hnew q d hd with hold | ⟨e, he, hu⟩
      · have hst : ¬ s.stale := fun hst => hstale (Or.inl hst)
        obtain ⟨e, he, hu⟩ := hinv.rows hs hst (by rw [hw]; rfl) q d hold
        exact ⟨e, List.mem_append_left _ he, hu⟩
      · exact ⟨e, List.mem_append_right _ he, hu⟩
  | some res =>
      cases res with
      | error e => exact absurd (Or.inr ⟨e, rfl⟩) hstale
      | ok id =>
          obtain ⟨req, x₀, x, hq, rfl, -, rfl⟩ := flush_sealed h
          rw [hq.shard_eq, hok.shard_eq, walAt_sealOps, if_neg hs] at hd
          cases hd

/-- **The step lemma of the WAL**: its worlds are safe one after the other,
and the state after it is in order again. -/
theorem Step.walInv (h : Step libs st shard s act s') (hb : Base st shard s)
    (hinv : WalInv libs shard s) (hc : SealsOwnWal shard s act s') :
    WalInv libs shard s' ∧ ∃ ws, s'.moments = s.moments ++ ws ∧
      List.IsChain (WalKept libs st shard) (s.world :: ws) ∧
      (s.world :: ws).getLast? = some s'.world := by
  obtain ⟨ws, hm, hchain, hlast⟩ := h.relates hb (stepRule_wal hb hinv hc)
  have hmem := List.mem_of_getLast? hlast
  have hseq := chain_forall (G := fun x y : World => SeqInv shard x.db.view → SeqInv shard y.db.view)
    (fun _ h => h) (fun h₁ h₂ h => h₂ (h₁ h)) (hchain.imp fun _ _ hx => hx.seq) _ hmem
  have hnew := chain_forall WalNew.refl (fun h₁ h₂ => h₁.trans h₂)
    (hchain.imp fun _ _ hx => hx.new) _ hmem
  refine ⟨⟨h.eventsAll (by decide) hc.payload hinv.events, hseq hinv.seq, ?_⟩, ws, hm,
    hchain.imp fun _ _ hx => hx.kept, hlast⟩
  intro hs hst hsome q d hd
  cases h with
  | create hw hcfg h =>
      obtain ⟨t, -, rfl, -⟩ := runs_newShardWriter h
      exact absurd ⟨q, d, hd⟩ hst
  | push hw h => exact hinv.rows hs hst (by rw [hw]; rfl) q d hd
  | tick hw ht h =>
      rw [drains_of_flushes (Or.inl rfl), waiting_eq hw] at hnew
      exact flushed_rows hb hinv hw ht h hnew hs hst q d hd
  | stop hw ht h => cases hsome
  | crash h => cases hsome
  | crashFlush hw ht hc h => cases hsome
  | reap h =>
      rcases hnew q d hd with hold | ⟨e, he, -⟩
      · exact hinv.rows hs hst hsome q d hold
      · cases he

end Step

/-! ## Failing seals -/

/-- A WAL entry of one moment is there at every later one, or its event is a
row of a block whose batch was committed in between. -/
def WalPreserved (libs : Libs) (st : LocalStore) (shard : ShardID) (s : Sys) : Prop :=
  ∀ i j w w', i ≤ j → s.moments[i]? = some w → s.moments[j]? = some w' →
    ∀ q d, walAt shard w q = some d → walAt shard w' q = some d ∨
      ∃ e, libs.unmarshal d = some e ∧ ∃ k x y, i ≤ k ∧ k < j ∧ s.moments[k]? = some x ∧
        s.moments[k + 1]? = some y ∧ CommitsRow libs st shard x y e

section Runs

variable {libs : Libs} {st : LocalStore} {shard : ShardID} {s s₁ s₂ : Sys} {t : Time}

theorem walInv_start (libs : Libs) (shard : ShardID) (t : Time) :
    WalInv libs shard (Sys.start t) :=
  ⟨eventsAll_start _ t, fun _ _ hd => (by cases hd), fun _ _ hsome => (by cases hsome)⟩

theorem walPreserved_of_chain (h : List.IsChain (WalKept libs st shard) s.moments) :
    WalPreserved libs st shard s := by
  intro i j w w' hij
  induction j, hij using Nat.le_induction generalizing w' with
  | base =>
      intro hi hj q d hd
      rw [hi] at hj
      cases hj
      exact Or.inl hd
  | succ j hij ih =>
      intro hi hj q d hd
      obtain ⟨hlt, hget⟩ := List.getElem?_eq_some_iff.mp hj
      have hlt' : j < s.moments.length := by omega
      have hx : s.moments[j]? = some s.moments[j] := List.getElem?_eq_getElem hlt'
      have hstep : WalKept libs st shard s.moments[j] w' := by
        rw [← hget]
        exact List.isChain_iff_getElem.mp h j hlt
      rcases ih _ hi hx q d hd with hold | ⟨e, hu, k, x, y, hik, hkj, hk⟩
      · rcases hstep q d hold with hkept | ⟨e, hu, hrow⟩
        · exact Or.inl hkept
        · exact Or.inr ⟨e, hu, j, _, w', hij, Nat.lt_succ_self j, hx, hj, hrow⟩
      · exact Or.inr ⟨e, hu, k, x, y, hik, Nat.lt_succ_of_lt hkj, hk⟩

/-- **No WAL entry is lost**, in every run in which no `Seal` succeeds over a
stale WAL: neither after a `Seal` of the same writer has failed, nor for a
writer created over entries of an earlier one. -/
theorem wal_entries_kept (libs : Libs) (st : LocalStore) (shard : ShardID) (t : Time) (s : Sys)
    (h : Reach libs st shard (SealsOwnWal shard) (Sys.start t) s) :
    WalPreserved libs st shard s := by
  let Inv : Sys → Prop := fun s =>
    WalInv libs shard s ∧ List.IsChain (WalKept libs st shard) s.moments
  have hstart : Inv (Sys.start t) := ⟨walInv_start libs shard t, List.isChain_singleton _⟩
  refine walPreserved_of_chain (h.invariant_base hstart fun a act b hs hc hb hinv => ?_).2.2
  obtain ⟨hwal, ws, hm, hws, -⟩ := hs.walInv hb hinv.1 hc
  exact ⟨hwal, hb.chain_moments hinv.2 hws hm⟩

end Runs

/-- The WAL entry of an event, under the plain libraries. -/
def plainEntry (e : Event) : Bytes :=
  match Libs.plain.marshal e with
  | .ok d => d
  | .error _ => []

/-- From moment `i` to moment `j` the first WAL entry of shard 0, which holds
`e`, disappears, and no committed block has `e` at `j`. -/
def Sys.losesEntry (s : Sys) (i j : Nat) (e : Event) : Bool :=
  match s.moments[i]?, s.moments[j]? with
  | some w, some w' => walAt 0 w 0 = some (plainEntry e) ∧ walAt 0 w' 0 = none ∧
      e ∉ readableRows Libs.plain hotStore w'
  | _, _ => false

theorem losesEntry_iff {s : Sys} {i j : Nat} {e : Event} (h : s.losesEntry i j e = true) :
    ∃ w w', s.moments[i]? = some w ∧ s.moments[j]? = some w' ∧
      walAt 0 w 0 = some (plainEntry e) ∧ walAt 0 w' 0 = none ∧
      ¬ Readable Libs.plain hotStore w' e := by
  unfold Sys.losesEntry at h
  split at h
  · rename_i w w' hi hj
    obtain ⟨hw, hw', hrows⟩ := of_decide_eq_true h
    exact ⟨w, w', hi, hj, hw, hw', fun hread => hrows (mem_readableRows hread)⟩
  · cases h

/-- A configuration under which every tick with a row seals. -/
def smallConfig : WriterConfig := { plainConfig with maxBlockBytes := 1 }

/-- After a block is sealed, another writer's `Seal` fails: no file can be
created. -/
def reopenedSmall : Sys :=
  (stoppedOnce.created (execAt 0) 0 smallConfig).pushed ⟨512, 2, [2]⟩

def failedAfterSealed : Sys := reopenedSmall.flushes (execFull 0) Libs.plain true [afternoon]

set_option maxRecDepth 100000 in
theorem reach_failedAfterSealed :
    Reach Libs.plain hotStore 0 (SealsOwnWal 0) (Sys.start afternoon) failedAfterSealed := by
  have hst : ∀ x, smallConfig.store = some x → x = hotStore := by
    intro x hx
    exact (Option.some.inj hx).symm
  have h₀ : Reach Libs.plain hotStore 0 (SealsOwnWal 0) (Sys.start afternoon) stoppedOnce := by
    refine reach_stoppedOnce ⟨by decide +kernel, fun _ => Or.inr id⟩ ?_
      ⟨by decide +kernel, fun _ => Or.inr ?_⟩
    · show [(1 : UInt8)].length < 2 ^ 32
      decide
    · intro hstale
      obtain ⟨q, d, hd⟩ := hstale
      cases hd
  have h₁ := h₀.step (step_created (sem_execAt 0) rfl hst) ⟨by decide +kernel, fun hc => ?_⟩
  have h₂ := h₁.step (step_pushed (e := ⟨512, 2, [2]⟩) (by decide +kernel))
    (show [(2 : UInt8)].length < 2 ^ 32 by decide)
  refine h₂.step (step_ticked (sem_execFull 0) (by decide +kernel)
    (show DrainTimes _ _ [afternoon] by decide +kernel)) ⟨by decide +kernel, fun hc => ?_⟩
  · -- the call of `Seal` has failed
    obtain ⟨c, id, hseals, hok⟩ := hc
    have hlast : (failedAfterSealed.seals.getLast?.map fun c => c.result.toBool) = some false := by
      decide +kernel
    have hseals' : failedAfterSealed.seals = _ := hseals
    rw [hseals', List.getLast?_concat, Option.map_some, hok] at hlast
    cases hlast
  · -- a writer that is created seals nothing
    obtain ⟨c, id, hseals, -⟩ := hc
    simp [Sys.created] at hseals

set_option maxRecDepth 100000 in
/-- The entry of the failed `Seal` stays in the WAL; that of the other has
become a row. -/
theorem wal_entries_kept_failedAfterSealed :
    Reach Libs.plain hotStore 0 (SealsOwnWal 0) (Sys.start afternoon) failedAfterSealed ∧
      WalPreserved Libs.plain hotStore 0 failedAfterSealed ∧
      failedAfterSealed.seals.map (fun c => c.result.toBool) = [true, false] ∧
      walAt 0 failedAfterSealed.world 0 = none ∧
      walAt 0 failedAfterSealed.world 1 = some (plainEntry ⟨512, 2, [2]⟩) :=
  ⟨reach_failedAfterSealed, wal_entries_kept Libs.plain hotStore 0 afternoon failedAfterSealed
    reach_failedAfterSealed, by decide +kernel, by decide +kernel, by decide +kernel⟩

/-- The runs of a single writer that nothing interrupts. -/
def OneWriter : Cond := fun _ act _ =>
  match act with
  | .create _ | .push _ | .tick _ => True
  | _ => False

/-- A row is drained on a file system that can create no file, then another
one on a file system that works. -/
def failedOnce : Sys :=
  (((Sys.start afternoon).created (execAt 0) 0 smallConfig).pushed ⟨256, 1, [1]⟩).flushes
    (execFull 0) Libs.plain true [afternoon]

def sealedAfterFailure : Sys :=
  (failedOnce.pushed ⟨512, 2, [2]⟩).flushes (execAt 0) Libs.plain true [afternoon]

set_option maxRecDepth 100000 in
theorem reach_sealedAfterFailure :
    Reach Libs.plain hotStore 0 OneWriter (Sys.start afternoon) sealedAfterFailure := by
  have hst : ∀ x, smallConfig.store = some x → x = hotStore := by
    intro x hx
    exact (Option.some.inj hx).symm
  have h₀ : Reach Libs.plain hotStore 0 OneWriter (Sys.start afternoon) (Sys.start afternoon) :=
    Relation.ReflTransGen.refl
  have h₁ := h₀.step (step_created (sem_execAt 0) rfl hst) trivial
  have h₂ := h₁.step (step_pushed (e := ⟨256, 1, [1]⟩) (by decide +kernel)) trivial
  have h₃ := h₂.step (step_ticked (sem_execFull 0) (by decide +kernel)
    (show DrainTimes _ _ [afternoon] by decide +kernel)) trivial
  have h₄ := h₃.step (step_pushed (e := ⟨512, 2, [2]⟩) (by decide +kernel)) trivial
  exact h₄.step (step_ticked (sem_execAt 0) (by decide +kernel)
    (show DrainTimes _ _ [afternoon] by decide +kernel)) trivial

set_option maxRecDepth 100000 in
/-- **After a failed seal the next one deletes what it does not hold**: the
commit of the second row's block removes the WAL entry of the first row. -/
theorem failed_seal_loses_entry :
    Reach Libs.plain hotStore 0 OneWriter (Sys.start afternoon) sealedAfterFailure ∧
      ¬ WalPreserved Libs.plain hotStore 0 sealedAfterFailure := by
  refine ⟨reach_sealedAfterFailure, fun hpres => ?_⟩
  -- the last operation of the run is the commit
  have hloses : sealedAfterFailure.losesEntry (sealedAfterFailure.moments.length - 2)
      (sealedAfterFailure.moments.length - 2 + 1) ⟨256, 1, [1]⟩ = true := by decide +kernel
  obtain ⟨w, w', hi, hj, hw, hw', hnone⟩ := losesEntry_iff hloses
  rcases hpres _ _ w w' (Nat.le_succ _) hi hj 0 _ hw with hkept | ⟨e, hu, k, x, y, hik, hkj, hrow⟩
  · rw [hw'] at hkept
    cases hkept
  · obtain ⟨-, hy, id, bm, hour, rows, -, hholds, he⟩ := hrow
    have hk : k = sealedAfterFailure.moments.length - 2 := by omega
    rw [hk, hj] at hy
    cases hy
    have hevent : e = ⟨256, 1, [1]⟩ := by
      have hplain : Libs.plain.unmarshal (plainEntry ⟨256, 1, [1]⟩) = some ⟨256, 1, [1]⟩ := by decide
      rw [hplain] at hu
      exact (Option.some.inj hu).symm
    rw [hevent] at he
    exact hnone ⟨id, rows, hholds, he⟩

/-! ## Crashes -/

section Crashes

variable {libs : Libs} {st : LocalStore} {shard : ShardID} {s s₁ s₂ : Sys} {t : Time}

/-- From `w` to `w'` every WAL entry has been kept or has become a row of a
committed block, and committed blocks have been kept. -/
structure Survives (libs : Libs) (st : LocalStore) (shard : ShardID) (w w' : World) : Prop where
  wal : ∀ q d, walAt shard w q = some d → walAt shard w' q = some d ∨
    ∃ e, libs.unmarshal d = some e ∧ Readable libs st w' e
  blocks : BlocksKept libs st w w'

theorem Survives.refl (w : World) : Survives libs st shard w w :=
  ⟨fun _ _ h => Or.inl h, BlocksKept.refl w⟩

theorem Survives.trans {a b c : World} (h₁ : Survives libs st shard a b)
    (h₂ : Survives libs st shard b c) : Survives libs st shard a c := by
  refine ⟨fun q d hd => ?_, h₁.blocks.trans h₂.blocks⟩
  rcases h₁.wal q d hd with hb | ⟨e, hu, id, rows, hholds, he⟩
  · exact h₂.wal q d hb
  · exact Or.inr ⟨e, hu, id, rows, h₂.blocks id rows hholds, he⟩

theorem survives_of_kept {w w' : World} (hwal : WalKept libs st shard w w')
    (hblocks : BlocksKept libs st w w') : Survives libs st shard w w' := by
  refine ⟨fun q d hd => ?_, hblocks⟩
  rcases hwal q d hd with hkept | ⟨e, hu, id, bm, hour, rows, -, hholds, he⟩
  · exact Or.inl hkept
  · exact Or.inr ⟨e, hu, id, rows, hholds, he⟩

/-- Every WAL entry of `s₁` is, at every later moment of `s₂`, still there or
a row of a committed block. -/
def SurvivesFrom (libs : Libs) (st : LocalStore) (shard : ShardID) (s₁ s₂ : Sys) : Prop :=
  ∀ w ∈ s₂.moments.drop s₁.moments.length, ∀ q d, walAt shard s₁.world q = some d →
    walAt shard w q = some d ∨ ∃ e, libs.unmarshal d = some e ∧ Readable libs st w e

/-- No `Seal` succeeds over a stale WAL, no block id is used twice, and
nothing is reaped. -/
def SealsOwnFresh (shard : ShardID) : Cond := fun s act s' =>
  SealsOwnWal shard s act s' ∧ SealsFresh s act s'

theorem Step.survives {s' : Sys} {act : Act} (h : Step libs st shard s act s')
    (hb : Base st shard s) (hinv : WalInv libs shard s) (hc : SealsOwnFresh shard s act s') :
    ∃ ws, s'.moments = s.moments ++ ws ∧
      List.IsChain (Survives libs st shard) (s.world :: ws) ∧
      (s.world :: ws).getLast? = some s'.world := by
  obtain ⟨-, ws, hm, hwal, hlast⟩ := h.walInv hb hinv hc.1
  obtain ⟨ws', hm', hblocks, -⟩ := h.relates hb
    (stepRule_blocks (hc.2.idUnused h) hc.2.not_reap)
  obtain rfl : ws' = ws := List.append_cancel_left (hm'.symm.trans hm)
  refine ⟨ws', hm, List.isChain_iff_getElem.mpr fun i hi => ?_, hlast⟩
  exact survives_of_kept (List.isChain_iff_getElem.mp hwal i hi)
    (List.isChain_iff_getElem.mp hblocks i hi)

/-- **What has reached the WAL survives**: in every run that meets the
condition, from any state on and so from the state after any crash. -/
theorem events_survive_crashes (libs : Libs) (st : LocalStore) (shard : ShardID) (t : Time)
    (s₁ s₂ : Sys) (h₁ : Reach libs st shard (SealsOwnFresh shard) (Sys.start t) s₁)
    (h₂ : Reach libs st shard (SealsOwnFresh shard) s₁ s₂) :
    SurvivesFrom libs st shard s₁ s₂ := by
  have hinv₁ : Base st shard s₁ ∧ WalInv libs shard s₁ :=
    h₁.invariant_base (walInv_start libs shard t) fun a act b hs hc hb hinv =>
      (hs.walInv hb hinv hc.1).1
  let Inv : Sys → Prop := fun s => (Base st shard s ∧ WalInv libs shard s) ∧
    ∃ ws, s.moments = s₁.moments ++ ws ∧ List.IsChain (Survives libs st shard) (s₁.world :: ws) ∧
      (s₁.world :: ws).getLast? = some s.world
  have hend : Inv s₂ := by
    refine h₂.invariant ⟨hinv₁, [], (List.append_nil _).symm, List.isChain_singleton _, rfl⟩ ?_
    intro a act b hs hc hinv
    obtain ⟨⟨hb, hwal⟩, ws, hm, hchain, hlast⟩ := hinv
    obtain ⟨ws', hm', hchain', hlast'⟩ := hs.survives hb hwal hc
    refine ⟨⟨hs.base hb, (hs.walInv hb hwal hc.1).1⟩, ws ++ ws', ?_, ?_, ?_⟩
    · rw [hm', hm, List.append_assoc]
    · exact chain_append hchain hlast hchain'
    · exact getLast_append hlast hlast'
  obtain ⟨-, ws, hm, hchain, -⟩ := hend
  intro w hw q d hd
  rw [hm, List.drop_left] at hw
  have hsurv := chain_forall Survives.refl (fun h₁ h₂ => h₁.trans h₂) hchain w
    (List.mem_cons_of_mem _ hw)
  exact hsurv.wal q d hd

end Crashes

/-- A row reaches the WAL, and the process crashes before it is sealed. -/
def crashedOnce : Sys :=
  (((Sys.start afternoon).opened ⟨256, 1, [1]⟩).flushes (execAt 0) Libs.plain true
    [afternoon]).crashed

/-- A new writer gets another row and is stopped. -/
def sealedAfterCrash : Sys := (crashedOnce.opened ⟨512, 2, [2]⟩).stopped

set_option maxRecDepth 100000 in
theorem reach_crashedOnce {cond : Cond}
    (hcreate : cond (Sys.start afternoon) (.create plainConfig)
      ((Sys.start afternoon).created (execAt 0) 0 plainConfig))
    (hpush : cond ((Sys.start afternoon).created (execAt 0) 0 plainConfig) (.push ⟨256, 1, [1]⟩)
      ((Sys.start afternoon).opened ⟨256, 1, [1]⟩))
    (htick : cond ((Sys.start afternoon).opened ⟨256, 1, [1]⟩) (.tick [afternoon])
      (((Sys.start afternoon).opened ⟨256, 1, [1]⟩).flushes (execAt 0) Libs.plain true [afternoon]))
    (hcrash : cond (((Sys.start afternoon).opened ⟨256, 1, [1]⟩).flushes (execAt 0) Libs.plain true
      [afternoon]) .crash crashedOnce) :
    Reach Libs.plain hotStore 0 cond (Sys.start afternoon) crashedOnce := by
  have hst : ∀ x, plainConfig.store = some x → x = hotStore := by
    intro x hx
    exact (Option.some.inj hx).symm
  have h₀ : Reach Libs.plain hotStore 0 cond (Sys.start afternoon) (Sys.start afternoon) :=
    Relation.ReflTransGen.refl
  have h₁ := h₀.step (step_created (sem_execAt 0) rfl hst) hcreate
  have h₂ := h₁.step (step_pushed (by decide +kernel)) hpush
  have h₃ := h₂.step (step_ticked (sem_execAt 0) (by decide +kernel) (by decide +kernel)) htick
  exact h₃.step step_crashed hcrash

/-- After the crash a new writer drains another row, and nothing is sealed. -/
def reopenedAfterCrash : Sys :=
  (crashedOnce.opened ⟨512, 2, [2]⟩).flushes (execAt 0) Libs.plain true [afternoon]

theorem not_sealCommitted {s s' : Sys} (h : s'.seals.length = s.seals.length) :
    ¬ SealCommitted s s' := by
  intro hc
  obtain ⟨c, id, hseals, -⟩ := hc
  rw [hseals, List.length_append, List.length_singleton] at h
  omega

set_option maxRecDepth 100000 in
/-- While the new writer seals nothing, the entry of the old one stays. -/
theorem events_survive_crashes_reopened :
    Reach Libs.plain hotStore 0 (SealsOwnFresh 0) (Sys.start afternoon) crashedOnce ∧
      Reach Libs.plain hotStore 0 (SealsOwnFresh 0) crashedOnce reopenedAfterCrash ∧
      SurvivesFrom Libs.plain hotStore 0 crashedOnce reopenedAfterCrash := by
  have hst : ∀ x, plainConfig.store = some x → x = hotStore := by
    intro x hx
    exact (Option.some.inj hx).symm
  have h₁ : Reach Libs.plain hotStore 0 (SealsOwnFresh 0) (Sys.start afternoon) crashedOnce := by
    refine reach_crashedOnce ⟨⟨by decide +kernel, fun _ => Or.inr id⟩, fun _ sw hsw => ?_⟩
      ⟨by show [(1 : UInt8)].length < 2 ^ 32; decide, by show [(1 : UInt8)].length < 2 ^ 32; decide⟩
      ⟨⟨by decide +kernel, fun hc => absurd hc (not_sealCommitted (by decide +kernel))⟩,
        fun _ sw hsw => ?_⟩
      ⟨⟨by decide +kernel, fun hc => absurd hc (not_sealCommitted (by decide +kernel))⟩,
        fun hc => ?_⟩
    · cases hsw
    · cases hsw
      rfl
    · rcases hc with hc | ⟨times, hc⟩
      · exact absurd rfl hc
      · cases hc
  have h₂ : Reach Libs.plain hotStore 0 (SealsOwnFresh 0) crashedOnce crashedOnce :=
    Relation.ReflTransGen.refl
  have h₃ := h₂.step (step_created (sem_execAt 0) rfl hst)
    ⟨⟨by decide +kernel, fun hc => absurd hc (not_sealCommitted (by decide +kernel))⟩,
      fun _ sw hsw => by cases hsw⟩
  have h₄ := h₃.step (step_pushed (e := ⟨512, 2, [2]⟩) (by decide +kernel))
    ⟨by show [(2 : UInt8)].length < 2 ^ 32; decide, by show [(2 : UInt8)].length < 2 ^ 32; decide⟩
  have h₅ : Reach Libs.plain hotStore 0 (SealsOwnFresh 0) crashedOnce reopenedAfterCrash :=
    h₄.step (step_ticked (sem_execAt 0) (by decide +kernel) (by decide +kernel))
      ⟨⟨by decide +kernel, fun hc => absurd hc (not_sealCommitted (by decide +kernel))⟩,
        fun _ sw hsw => by cases hsw; rfl⟩
  exact ⟨h₁, h₅, events_survive_crashes Libs.plain hotStore 0 afternoon _ _ h₁ h₅⟩

set_option maxRecDepth 100000 in
/-- **The first seal after a crash deletes what the crash had left**: the WAL
is not replayed, and the new writer's block does not hold the old row. -/
theorem crash_then_seal_loses_entry :
    Reach Libs.plain hotStore 0 NoReap (Sys.start afternoon) crashedOnce ∧
      Reach Libs.plain hotStore 0 NoReap crashedOnce sealedAfterCrash ∧
      ¬ SurvivesFrom Libs.plain hotStore 0 crashedOnce sealedAfterCrash := by
  refine ⟨reach_crashedOnce nofun nofun nofun nofun, ?_, fun hsurv => ?_⟩
  · exact reach_stopped Relation.ReflTransGen.refl rfl (by decide +kernel) (by decide +kernel)
      (by decide +kernel) nofun nofun nofun
  · have hloses : sealedAfterCrash.losesEntry (crashedOnce.moments.length - 1)
        (sealedAfterCrash.moments.length - 1) ⟨256, 1, [1]⟩ = true := by decide +kernel
    obtain ⟨w, w', -, hj, -, hw', hnone⟩ := losesEntry_iff hloses
    have hlater : crashedOnce.moments.length ≤ sealedAfterCrash.moments.length - 1 := by
      decide +kernel
    have hmem : w' ∈ sealedAfterCrash.moments.drop crashedOnce.moments.length := by
      refine List.mem_of_getElem? (i := sealedAfterCrash.moments.length - 1 -
        crashedOnce.moments.length) ?_
      rw [List.getElem?_drop, Nat.add_sub_cancel' hlater]
      exact hj
    have hentry : walAt 0 crashedOnce.world 0 = some (plainEntry ⟨256, 1, [1]⟩) := by decide +kernel
    rcases hsurv w' hmem 0 _ hentry with hkept | ⟨e, hu, hread⟩
    · rw [hw'] at hkept
      cases hkept
    · have hplain : Libs.plain.unmarshal (plainEntry ⟨256, 1, [1]⟩) = some ⟨256, 1, [1]⟩ := by decide
      rw [hplain] at hu
      cases hu
      exact hnone hread

end Bbdb.Ingestion
