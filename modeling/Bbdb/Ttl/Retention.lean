import Bbdb.Index.SparseIndex
import Bbdb.Ingestion.Sealed

/-!
# TTL — how long rows are kept

The expiry of a block is the hour it was opened in plus the retention, both in
whole hours, and the reaper compares it with the hour of its clock. So a block
is deleted at the earliest `R` hours after the *start* of its open hour
(`reaped_block_expired`): a row drained at the end of that hour has been kept
for little more than `R - 1` hours.

The proof follows the expiry keys. Only the commit of a `Seal` writes one
(`ExpNew`), and the id in it determines the hour.
-/

namespace Bbdb.Ttl

open Bbdb.Meta Bbdb.Block Bbdb.Tier Bbdb.Ingestion Bbdb.Index GoTime
open Prog hiding pure bind

/-! ## Expiry keys -/

/-- Every expiry key of `w'` was there in `w`, or satisfies `Q`. -/
def ExpNew (Q : UInt64 → BlockID → Prop) (w w' : World) : Prop :=
  ∀ h id, (w'.db.view.get (expiryKey h id)).isSome →
    (w.db.view.get (expiryKey h id)).isSome ∨ Q h id

section Keys

variable {libs : Libs} {Q : UInt64 → BlockID → Prop} {w w' : World}

theorem ExpNew.refl (w : World) : ExpNew Q w w := fun _ _ h => Or.inl h

theorem ExpNew.trans {a b c : World} (h₁ : ExpNew Q a b) (h₂ : ExpNew Q b c) : ExpNew Q a c := by
  intro h id hc
  rcases h₂ h id hc with hb | hq
  · exact h₁ h id hb
  · exact Or.inr hq

theorem expNew_of_same (h : ∀ k, family k = prefixExpiry → w'.db.view.get k = w.db.view.get k) :
    ExpNew Q w w' := by
  intro hour id hk
  rw [h _ (family_expiryKey hour id)] at hk
  exact Or.inl hk

theorem expNew_of_walOnly (h : WalOnly w w') : ExpNew Q w w' :=
  expNew_of_same fun k hk => h.2 k (by rw [hk]; decide) (by rw [hk]; decide)

theorem expNew_of_idxStep (h : IdxStep w w') : ExpNew Q w w' :=
  expNew_of_same fun k hk => h.get_view (by rw [hk]; decide)

theorem expNew_of_crash (hp : PendingIdx w.db) (h : w.Crash w') : ExpNew Q w w' :=
  expNew_of_same fun k hk => get_view_crash hp h.db (by rw [hk]; decide)

theorem expNew_of_reapStep {cfg : ReaperConfig} {E : ExpiredEntry → Prop}
    (h : ReapStep cfg E w w') : ExpNew Q w w' := by
  intro hour id hk
  rcases h.db with hdb | ⟨e, -, hdb⟩
  · rw [hdb] at hk
    exact Or.inl hk
  · rw [hdb, Pebble.view_commit, get_deleteOps] at hk
    split_ifs at hk
    · cases hk
    · exact Or.inl hk

theorem expNew_of_sealOps {shard : ShardID} {id : BlockID} {bm : BlockMeta} {hour : UInt64}
    (hQ : Q hour id) : ExpNew Q w (w.commit (sealOps shard id bm hour) true) := by
  intro h id' hk
  rw [World.commit_db, Pebble.view_commit, get_sealOps] at hk
  split_ifs at hk with h₁ h₂ h₃
  · obtain ⟨rfl, rfl⟩ := expiryKey_inj.mp h₁
    exact Or.inr hQ
  · exact absurd h₂ (ne_of_family (by rw [family_expiryKey, family_blockKey]; decide))
  · cases hk
  · exact Or.inl hk

end Keys

/-! ## One step -/

/-- The expiry of the block a writer will seal next. -/
def expiryOf (openedAt : Time) (retention : Int) : UInt64 :=
  UInt64.ofInt ((unix (Int64.ofInt openedAt).toInt).tdiv 3600) +
    (if UInt64.ofInt (hoursTrunc retention) = 0 then defaultRetentionHours
      else UInt64.ofInt (hoursTrunc retention))

theorem expiryHour_eq {sw : ShardWriter} {req : SealRequest} (h : FlushReq sw req) :
    req.expiryHour = expiryOf sw.openedAt sw.cfg.retention := by
  obtain ⟨mt, store, t, -, -, rfl⟩ := h
  rfl

/-- The expiry key a step can add: that of the `Seal` it ends. -/
def NewExpiry (s s' : Sys) (h : UInt64) (id : BlockID) : Prop :=
  SealCommitted s s' ∧ ∃ sw, s.writer = some sw ∧ h = expiryOf sw.openedAt sw.cfg.retention ∧
    id = sw.blockID

section Step

variable {libs : Libs} {st : LocalStore} {shard : ShardID} {s s' : Sys} {act : Act}

theorem stepRule_exp (s : Sys) (act : Act) (s' : Sys) :
    StepRule libs s act s' fun x y => PendingIdx x.db → ExpNew (NewExpiry s s') x y where
  clock _ _ := expNew_of_same fun _ _ => rfl
  crash h hp := expNew_of_crash hp h
  flush := by
    intro sw times hw _
    refine ⟨fun _ _ => True, ⟨?_, ?_⟩, ?_⟩
    · intro req x y _ _ h
      exact ⟨trivial, fun _ => expNew_of_idxStep h.idxStep⟩
    · intro req x₀ x hc hq _ _ _
      exact expNew_of_sealOps ⟨hc, sw, hw, expiryHour_eq hq, hq.blockID_eq⟩
    · exact drainRule (fun x y h _ => expNew_of_walOnly h.walOnly) fun _ _ _ _ _ _ => trivial
  reap _ h _ := expNew_of_reapStep h

/-- The expiry keys after a step. -/
theorem step_expNew (h : Step libs st shard s act s') (hb : Base st shard s) :
    ExpNew (NewExpiry s s') s.world s'.world := by
  obtain ⟨ws, -, hc, hlast⟩ := h.relates hb (stepRule_exp s act s')
  exact chain_forall ExpNew.refl (fun h₁ h₂ => h₁.trans h₂) hc _ (List.mem_of_getLast? hlast)

end Step

/-! ## Runs -/

/-- Every writer is created with a retention of `R` hours, and the clock stays
within the `int64` nanoseconds. -/
def Retains (R : Int) : Cond := fun _ act s' =>
  s'.world.clock < 2 ^ 63 ∧ ∀ cfg, act = .create cfg → cfg.retention = R * hour

/-- The open time of a call is an hour in range, and its id prints it. -/
structure Dated (shard : ShardID) (c : SealCall) : Prop where
  nonneg : 0 ≤ c.openedAt
  bound : c.openedAt < 2 ^ 63
  hour : truncateHour c.openedAt = c.openedAt
  id : ∀ id, c.result = .ok id → id = blockIDForShard shard (Int64.ofInt c.openedAt)

/-- Every expiry key comes from a successful `Seal`. -/
structure ExpInv (R : Int) (shard : ShardID) (s : Sys) : Prop where
  clock : 0 ≤ s.world.clock
  bound : s.writer.isSome → s.world.clock < 2 ^ 63
  writer : ∀ sw, s.writer = some sw → sw.cfg.retention = R * hour ∧ 0 ≤ sw.openedAt
  dated : ∀ c ∈ s.seals, Dated shard c
  keys : ∀ h id, (s.world.db.view.get (expiryKey h id)).isSome →
    ∃ c ∈ s.seals, c.result = .ok id ∧ h = expiryOf c.openedAt (R * hour)

section Runs

variable {libs : Libs} {st : LocalStore} {shard : ShardID} {s s' : Sys} {act : Act} {R : Int}
  {t : Time}

theorem truncateHour_nonneg {t : Time} (h : 0 ≤ t) : 0 ≤ truncateHour t := by
  rw [truncateHour_eq]
  exact Int.mul_nonneg (Int.ediv_nonneg h (by decide)) (by decide)

theorem step_expWriter (h : Step libs st shard s act s') (hc : Retains R s act s')
    (hinv : ExpInv R shard s) :
    ∀ sw, s'.writer = some sw → sw.cfg.retention = R * hour ∧ 0 ≤ sw.openedAt := by
  intro sw' hsw'
  cases h with
  | create hw hst h =>
      cases hsw'
      obtain ⟨now, hnow, -, -, -, -, hret, -, -, ho⟩ := runs_newShardWriter h
      rw [hret, ho]
      exact ⟨hc.2 _ rfl, truncateHour_nonneg (hinv.clock.trans hnow)⟩
  | push hw h =>
      cases hsw'
      have hsame := hinv.writer _ hw
      exact hsame
  | tick hw ht h =>
      cases hsw'
      obtain ⟨-, hcfg, -, hk⟩ := flush_writer h
      obtain ⟨hret, hopen⟩ := hinv.writer _ hw
      refine ⟨by rw [hcfg, hret], ?_⟩
      rcases hk with ⟨-, ho, -⟩ | ⟨res, now, -, hnow, ho, -⟩
      · rw [ho]
        exact hopen
      · rw [ho]
        have hdrained : s.world.clock ≤ (s.drainedWorld _).clock := le_lastTime ht
        exact truncateHour_nonneg (hinv.clock.trans (hdrained.trans hnow.1))
  | stop hw ht h => cases hsw'
  | crash h => cases hsw'
  | crashFlush hw ht hc h => cases hsw'
  | reap h => exact hinv.writer _ hsw'

theorem step_dated (h : Step libs st shard s act s') (hb : Base st shard s)
    (hinv : ExpInv R shard s) : ∀ c ∈ s'.seals, Dated shard c := by
  refine h.forall_seals (P := fun _ c => Dated shard c) (fun _ _ hc => hc) ?_ hinv.dated
  intro sw sw' times force ws w' res next hw hf ht hr he
  have hok := hb.writer sw hw
  refine ⟨(hinv.writer sw hw).2, ?_, hok.hour, ?_⟩
  · exact lt_of_le_of_lt hok.opened (hinv.bound (by rw [hw]; rfl))
  · intro id hid
    cases hid
    obtain ⟨req, -, -, hq, rfl, -⟩ := flush_sealed hr
    rw [hq.blockID_eq, ShardWriter.blockID, hok.shard_eq]

theorem step_expKeys (h : Step libs st shard s act s') (hb : Base st shard s)
    (hinv : ExpInv R shard s) :
    ∀ hour' id, (s'.world.db.view.get (expiryKey hour' id)).isSome →
      ∃ c ∈ s'.seals, c.result = .ok id ∧ hour' = expiryOf c.openedAt (R * hour) := by
  intro hour' id hk
  have hsub : ∀ c ∈ s.seals, c ∈ s'.seals := by
    intro c hc
    rcases h.seals_cases with hsame | ⟨sw, sw', times, force, ws, w', res, next, -, -, -, -, rfl⟩
    · rw [hsame]
      exact hc
    · exact List.mem_append_left _ hc
  rcases step_expNew h hb hour' id hk with hold | ⟨⟨c, id', hseals, hres⟩, sw, hw, rfl, rfl⟩
  · obtain ⟨c, hc, hok⟩ := hinv.keys hour' id hold
    exact ⟨c, hsub c hc, hok⟩
  · -- the new key belongs to the call at the end of the log
    rcases h.seals_cases with hsame | ⟨sw₂, sw', times, force, ws, w', res, next, hw₂, -, -, hr, he⟩
    · rw [hsame] at hseals
      simp at hseals
    · rw [hw] at hw₂
      cases hw₂
      have hlast : c = ⟨sw.openedAt, s.drainedRows sw times, res⟩ := by
        rw [he] at hseals
        exact (List.append_cancel_left hseals |> List.singleton_inj.mp).symm
      rw [hlast] at hres
      change res = .ok id' at hres
      subst hres
      obtain ⟨req, -, -, hq, hid', -⟩ := flush_sealed hr
      refine ⟨c, by rw [hseals]; exact List.mem_append_right _ List.mem_cons_self, ?_, ?_⟩
      · rw [hlast]
        exact congrArg Except.ok (hid'.trans hq.blockID_eq)
      · rw [hlast, (hinv.writer sw hw).1]

theorem expInv_of_reach (ht : 0 ≤ t) (h : Reach libs st shard (Retains R) (Sys.start t) s) :
    Base st shard s ∧ ExpInv R shard s := by
  have hstart : ExpInv R shard (Sys.start t) :=
    ⟨ht, fun hsome => (by cases hsome), fun sw hsw => (by cases hsw),
      fun c hc => absurd hc List.not_mem_nil, fun _ _ hk => (by cases hk)⟩
  refine h.invariant_base hstart fun a act b hs hc hb hinv => ?_
  exact ⟨hinv.clock.trans hs.tame.clock, fun _ => hc.1, step_expWriter hs hc hinv,
    step_dated hs hb hinv, step_expKeys hs hb hinv⟩

end Runs

/-! ## Deletions -/

/-- The block `id` is in `w` and its metadata or its file is gone in `w'`. -/
def Deleted (st : LocalStore) (w w' : World) (id : BlockID) : Prop :=
  (w.db.view.get (blockKey id)).isSome ∧ w'.db.view.get (blockKey id) = none ∨
    (w.fs (st.blockPath id)).isSome ∧ w'.fs (st.blockPath id) = none

/-- The reaper touches the block `id` only for an entry in `E`. -/
def Spares (E : ExpiredEntry → Prop) (st : LocalStore) (id : BlockID) (w w' : World) : Prop :=
  (w.clock ≤ w'.clock ∧ w'.db.view.get (blockKey id) = w.db.view.get (blockKey id) ∧
    w'.fs (st.blockPath id) = w.fs (st.blockPath id)) ∨ w.clock ≤ w'.clock ∧ ∃ e, E e ∧ e.id = id

section Deletions

variable {E : ExpiredEntry → Prop} {st : LocalStore} {id : BlockID} {w w' : World}

theorem Spares.refl (w : World) : Spares E st id w w := Or.inl ⟨le_refl _, rfl, rfl⟩

theorem Spares.clock (h : Spares E st id w w') : w.clock ≤ w'.clock := by
  rcases h with h | h
  · exact h.1
  · exact h.1

theorem Spares.trans {a b c : World} (h₁ : Spares E st id a b) (h₂ : Spares E st id b c) :
    Spares E st id a c := by
  have hclock := h₁.clock.trans h₂.clock
  rcases h₁ with ⟨-, hdb₁, hfs₁⟩ | ⟨-, he⟩
  · rcases h₂ with ⟨-, hdb₂, hfs₂⟩ | ⟨-, he⟩
    · exact Or.inl ⟨hclock, hdb₂.trans hdb₁, hfs₂.trans hfs₁⟩
    · exact Or.inr ⟨hclock, he⟩
  · exact Or.inr ⟨hclock, he⟩

theorem spares_of_reapStep {cfg : ReaperConfig} (hid : IsBlockID id)
    (h : ReapStep cfg E w w') : Spares E st id w w' := by
  by_cases hmine : ∃ e, E e ∧ e.id = id
  · exact Or.inr ⟨h.clock, hmine⟩
  · have hE : ∀ e, E e → e.id ≠ id := fun e he hid' => hmine ⟨e, he, hid'⟩
    exact Or.inl ⟨h.clock, h.blk hE, h.blockFile hid hE st⟩

theorem Spares.deleted (h : Spares E st id w w') (hd : Deleted st w w' id) :
    ∃ e, E e ∧ e.id = id := by
  rcases h with ⟨-, hdb, hfs⟩ | ⟨-, he⟩
  · rcases hd with ⟨hsome, hnone⟩ | ⟨hsome, hnone⟩
    · rw [← hdb, hnone] at hsome
      cases hsome
    · rw [← hfs, hnone] at hsome
      cases hsome
  · exact he

end Deletions

/-! ## Hours -/

theorem toNat_ofInt {n : Int} (h₀ : 0 ≤ n) (h₁ : n < 2 ^ 64) : (UInt64.ofInt n).toNat = n.toNat := by
  obtain ⟨m, rfl⟩ := Int.eq_ofNat_of_zero_le h₀
  have hm : m < 2 ^ 64 := by exact_mod_cast h₁
  rw [UInt64.ofInt, UInt64.toNat_ofNat', Int.toNat_natCast]
  omega

/-- The hour number of an instant in range. -/
theorem toNat_unixHour {t : Int} (h₀ : 0 ≤ t) (h₁ : t < 2 ^ 63) :
    ((unixHour t).toNat : Int) = t / hour := by
  have hpos : 0 ≤ t / hour := Int.ediv_nonneg h₀ (by decide)
  have hle : t / hour ≤ t := Int.ediv_le_self _ h₀
  rw [unixHour_eq h₀, toNat_ofInt hpos (by omega), Int.toNat_of_nonneg hpos]

theorem toNat_expiryOf {o R : Int} (h₀ : 0 ≤ o) (h₁ : o < 2 ^ 63) (hR : 1 ≤ R)
    (hRb : R * hour < 2 ^ 63) : ((expiryOf o (R * hour)).toNat : Int) = o / hour + R := by
  have hRlt : R < 2 ^ 32 := by
    rw [show hour = 3600000000000 from rfl] at hRb
    omega
  have hRn : (UInt64.ofInt R).toNat = R.toNat := toNat_ofInt (by omega) (by omega)
  have hne : UInt64.ofInt R ≠ 0 := by
    intro h
    rw [h] at hRn
    have hzero : (0 : Nat) = R.toNat := hRn
    omega
  have hopen := toNat_unixHour h₀ h₁
  have hdiv : o / hour < 2 ^ 63 := lt_of_le_of_lt (Int.ediv_le_self _ h₀) h₁
  rw [expiryOf, hoursTrunc_mul_hour, if_neg hne, Int64.toInt_ofInt_of_le (by omega) h₁,
    show UInt64.ofInt ((unix o).tdiv 3600) = unixHour o from rfl, UInt64.toNat_add, hRn]
  omega

/-- An entry is expired once its hours have passed. -/
theorem le_of_expired {o t R : Int} (ho : 0 ≤ o) (hob : o < 2 ^ 63) (ht : 0 ≤ t) (htb : t < 2 ^ 63)
    (hhour : truncateHour o = o) (hR : 1 ≤ R) (hRb : R * hour < 2 ^ 63)
    (h : expiryOf o (R * hour) < unixHour t + 1) : o + R * hour ≤ t := by
  have hexp := toNat_expiryOf ho hob hR hRb
  have hnow := toNat_unixHour ht htb
  have hnat : ((expiryOf o (R * hour)).toNat : Int) ≤ (unixHour t).toNat :=
    Int.ofNat_le.mpr (UInt64.le_iff_toNat_le.mp (le_unixHour h))
  rw [hexp, hnow] at hnat
  calc o + R * hour = (o / hour + R) * hour := by
        rw [Int.add_mul, ← truncateHour_eq, hhour]
    _ ≤ t / hour * hour := Int.mul_le_mul_of_nonneg_right hnat (by decide)
    _ ≤ t := Int.ediv_mul_le t (by decide)

/-! ## Retention -/

/-- At the moment `w` of the step from `s` to `s'`, the block `id` of `s` is gone. -/
def DeletedAt (st : LocalStore) (s s' : Sys) (id : BlockID) (w : World) : Prop :=
  w ∈ s'.moments.drop s.moments.length ∧ Deleted st s.world w id

/-- Two successful calls with one id opened their blocks at the same time. -/
theorem Dated.openedAt_eq {shard : ShardID} {c c' : SealCall} {id : BlockID} (h : Dated shard c)
    (h' : Dated shard c') (hid : c.result = .ok id) (hid' : c'.result = .ok id) :
    c'.openedAt = c.openedAt := by
  have he := (h'.id id hid').symm.trans (h.id id hid)
  rw [blockID_eq_iff, Int64.toInt_ofInt_of_le ((by decide : (-2 ^ 63 : Int) ≤ 0).trans h.nonneg)
    h.bound, Int64.toInt_ofInt_of_le ((by decide : (-2 ^ 63 : Int) ≤ 0).trans h'.nonneg) h'.bound,
    h.hour, h'.hour] at he
  exact he

/-- A deleted block has an expired entry, read before the deletion. -/
theorem expired_of_deletedAt {libs : Libs} {st : LocalStore} {shard : ShardID} {s s' : Sys}
    {cfg : ReaperConfig} {id : BlockID} {w : World} (h : Step libs st shard s (.reap cfg) s')
    (hid : IsBlockID id) (hd : DeletedAt st s s' id w) :
    ∃ t hour', s.world.clock ≤ t ∧ t ≤ w.clock ∧
      (s.world.db.view.get (expiryKey hour' id)).isSome ∧ hour' < unixHour t + 1 := by
  cases h with
  | reap h =>
      obtain ⟨t, ws', ht, rfl, hc⟩ := runs_runOnce h
      obtain ⟨hw, hdel⟩ := hd
      rw [List.drop_left] at hw
      have hspares := chain_forall (G := Spares (Expired s.world.db.view t) st id) Spares.refl
        (fun h₁ h₂ => h₁.trans h₂) (hc.imp fun _ _ hx => spares_of_reapStep hid hx) w hw
      -- reading the clock changes nothing else, so the block was still there
      obtain ⟨e, ⟨hsome, hlt⟩, rfl⟩ := hspares.deleted hdel
      exact ⟨t, e.hour, ht, hspares.clock, hsome, hlt⟩

/-- **Retention counts from the start of the block's hour**: whenever a reaper
cycle deletes a block, at least `R` hours have passed since the block was
opened, so more than `R - 1` hours since any row drained in its hour. -/
theorem reaped_block_expired (libs : Libs) (st : LocalStore) (shard : ShardID) (t : Time) (R : Int)
    (s s' : Sys) (cfg : ReaperConfig) (ht : 0 ≤ t) (hR : 1 ≤ R) (hRb : R * hour < 2 ^ 63)
    (h : Reach libs st shard (Retains R) (Sys.start t) s)
    (hreap : Step libs st shard s (.reap cfg) s') :
    ∀ c ∈ s.seals, ∀ id, c.result = .ok id → ∀ w, w.clock < 2 ^ 63 → DeletedAt st s s' id w →
      c.openedAt + R * hour ≤ w.clock ∧
        ∀ a ∈ c.rows, a.time < c.openedAt + hour → a.time < w.clock - (R - 1) * hour := by
  intro c hc id hid w hw hd
  obtain ⟨hb, hinv⟩ := expInv_of_reach ht h
  have hdated := hinv.dated c hc
  obtain ⟨now, hour', hnow, hnow', hkey, hlt⟩ :=
    expired_of_deletedAt hreap ⟨shard, _, hdated.id id hid⟩ hd
  obtain ⟨c', hc', hid', rfl⟩ := hinv.keys hour' id hkey
  have hsame := hdated.openedAt_eq (hinv.dated c' hc') hid hid'
  rw [hsame] at hlt
  have hle : c.openedAt + R * hour ≤ w.clock :=
    (le_of_expired hdated.nonneg hdated.bound (hinv.clock.trans hnow) (lt_of_le_of_lt hnow' hw)
      hdated.hour hR hRb hlt).trans hnow'
  refine ⟨hle, fun a _ hin => ?_⟩
  calc a.time < c.openedAt + hour := hin
    _ = c.openedAt + R * hour - (R - 1) * hour := by ring
    _ ≤ w.clock - (R - 1) * hour := Int.sub_le_sub_right hle _

/-- No row is deleted before it has been kept for `R` hours. -/
def KeptInFull (st : LocalStore) (R : Int) (s s' : Sys) : Prop :=
  ∀ c ∈ s.seals, ∀ id, c.result = .ok id → ∀ w, DeletedAt st s s' id w →
    ∀ a ∈ c.rows, a.time ≤ w.clock - R * hour

/-- One hour of retention. -/
def hourConfig : WriterConfig := { plainConfig with retention := 1 * hour }

def hotReaper : ReaperConfig := ⟨fun tier => if tier = tierHot then some hotStore else none⟩

/-- A writer opened at 14:00 that drains its row at 14:59:59 and is stopped. -/
def sealedAtEnd : Sys :=
  (((Sys.start afternoon).created (execAt 0) 0 hourConfig).pushed ⟨256, 1, [1]⟩).flushes (execAt 0)
    Libs.plain false [afternoon + 3599 * second]

/-- A reaper cycle at 15:00:01. -/
def reapedEarly : Sys := sealedAtEnd.reaped (execAt (afternoon + 3601 * second)) hotReaper

set_option maxRecDepth 100000 in
theorem reach_sealedAtEnd :
    Reach Libs.plain hotStore 0 (Retains 1) (Sys.start afternoon) sealedAtEnd := by
  have hst : ∀ x, hourConfig.store = some x → x = hotStore := by
    intro x hx
    exact (Option.some.inj hx).symm
  have h₀ : Reach Libs.plain hotStore 0 (Retains 1) (Sys.start afternoon) (Sys.start afternoon) :=
    Relation.ReflTransGen.refl
  have h₁ := h₀.step (step_created (sem_execAt 0) rfl hst) ⟨by decide +kernel, by
    intro cfg hcfg
    cases hcfg
    rfl⟩
  have h₂ := h₁.step (step_pushed (e := ⟨256, 1, [1]⟩) (by decide +kernel))
    ⟨by decide +kernel, nofun⟩
  exact h₂.step (step_stopped (sem_execAt 0) (by decide +kernel) (by decide +kernel))
    ⟨by decide +kernel, nofun⟩

/-- A cycle ends in one of its moments: it has read the clock at least. -/
theorem world_mem_moments {libs : Libs} {st : LocalStore} {shard : ShardID} {s s' : Sys}
    {cfg : ReaperConfig} (h : Step libs st shard s (.reap cfg) s') :
    s'.world ∈ s'.moments.drop s.moments.length := by
  cases h with
  | reap h =>
      have hlast := h.getLast
      obtain ⟨t, ws', -, rfl, -⟩ := runs_runOnce h
      rw [List.getLast?_cons_cons] at hlast
      rw [List.drop_left]
      exact List.mem_of_getLast? hlast

set_option maxRecDepth 100000 in
/-- What the cycle deletes. -/
theorem deletedAt_reapedEarly : ∃ c ∈ sealedAtEnd.seals, ∃ id, c.result = .ok id ∧
    DeletedAt hotStore sealedAtEnd reapedEarly id reapedEarly.world ∧
      ∃ a ∈ c.rows, a.time = afternoon + 3599 * second := by
  have hany : (sealedAtEnd.seals.any fun c =>
      match c.result with
      | .ok id => (sealedAtEnd.world.db.view.get (blockKey id)).isSome &&
          (reapedEarly.world.db.view.get (blockKey id)).isNone &&
          c.rows.any fun a => a.time = afternoon + 3599 * second
      | .error _ => false) = true := by decide +kernel
  obtain ⟨c, hc, hcall⟩ := List.any_eq_true.mp hany
  cases hid : c.result with
  | error err =>
      rw [hid] at hcall
      cases hcall
  | ok id =>
      rw [hid] at hcall
      obtain ⟨hkeys, hrows⟩ := Bool.and_eq_true_iff.mp hcall
      obtain ⟨hsome, hnone⟩ := Bool.and_eq_true_iff.mp hkeys
      obtain ⟨a, ha, htime⟩ := List.any_eq_true.mp hrows
      have hreap : Step Libs.plain hotStore 0 sealedAtEnd (.reap hotReaper) reapedEarly :=
        step_reaped (sem_execAt _)
      exact ⟨c, hc, id, hid, ⟨world_mem_moments hreap,
        Or.inl ⟨hsome, Option.isNone_iff_eq_none.mp hnone⟩⟩, a, ha, of_decide_eq_true htime⟩

/-- **A row can be deleted two seconds after it arrived**, with a retention of
one hour. -/
theorem row_deleted_early :
    Reach Libs.plain hotStore 0 (Retains 1) (Sys.start afternoon) sealedAtEnd ∧
      Step Libs.plain hotStore 0 sealedAtEnd (.reap hotReaper) reapedEarly ∧
      ¬ KeptInFull hotStore 1 sealedAtEnd reapedEarly := by
  refine ⟨reach_sealedAtEnd, step_reaped (sem_execAt _), fun hkept => ?_⟩
  obtain ⟨c, hc, id, hid, hd, a, ha, htime⟩ := deletedAt_reapedEarly
  have hle := hkept c hc id hid _ hd a ha
  rw [htime] at hle
  revert hle
  decide +kernel

set_option maxRecDepth 100000 in
/-- The same cycle, two seconds late: the block has been open for its hour. -/
theorem reaped_block_expired_reapedEarly :
    Reach Libs.plain hotStore 0 (Retains 1) (Sys.start afternoon) sealedAtEnd ∧
      Step Libs.plain hotStore 0 sealedAtEnd (.reap hotReaper) reapedEarly ∧
      ∃ c ∈ sealedAtEnd.seals, ∃ id, c.result = .ok id ∧
        DeletedAt hotStore sealedAtEnd reapedEarly id reapedEarly.world ∧
        c.openedAt + 1 * hour ≤ reapedEarly.world.clock := by
  have hreap : Step Libs.plain hotStore 0 sealedAtEnd (.reap hotReaper) reapedEarly :=
    step_reaped (sem_execAt _)
  obtain ⟨c, hc, id, hid, hd, -⟩ := deletedAt_reapedEarly
  have hbound := reaped_block_expired Libs.plain hotStore 0 afternoon 1 sealedAtEnd reapedEarly
    hotReaper (by decide) (by decide) (by decide) reach_sealedAtEnd hreap c hc id hid
    reapedEarly.world (by decide +kernel) hd
  exact ⟨reach_sealedAtEnd, hreap, c, hc, id, hid, hd, hbound.1⟩

end Bbdb.Ttl
