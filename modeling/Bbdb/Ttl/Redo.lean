import Bbdb.Ttl.Effect
import Bbdb.Ttl.Orphans

/-!
# TTL — cycles that were cut off

A cycle of the reaper can end early: an operation fails, the context is done,
or the process crashes. The next complete cycle finishes what it has begun.
Files and keys are then as if no other cycle had ever run
(`interrupted_cycles_repaired`), however many there were, and even if they ran
side by side.

The reason is the order of deletion. `Between` says what any number of
unfinished cycles can have made of the state `w` before them: they removed
some of what belongs to entries that have come to their hour; the metadata of
a block goes after its files, and no expiry key goes without the metadata. So
what is left is still found by the next scan, and what is gone is what that
cycle would have deleted.
-/

namespace Bbdb.Ttl

open Bbdb.Meta Bbdb.Block Bbdb.Tier GoTime
open Prog hiding pure bind

variable {tiers : Tier → Option LocalStore} {w x y : World} {t t' : Time} {e : ExpiredEntry}
  {id : BlockID} {store : LocalStore}

/-! ## Entries -/

/-- An entry of `w` whose hour has come at time `t`. -/
def Come (w : World) (t : Time) (e : ExpiredEntry) : Prop :=
  (w.db.view.get (expiryKey e.hour e.id)).isSome ∧ (e.hour.toNat : Int) ≤ t / hour

theorem Come.mono (h : Come w t e) (hle : t ≤ t') : Come w t' e :=
  ⟨h.1, h.2.trans (Int.ediv_le_ediv (by decide) hle)⟩

theorem come_of_expired (ht : 0 ≤ t) (h : Expired w.db.view t e) : Come w t e := by
  refine ⟨h.1, le_trans ?_ (toNat_unixHour_le ht)⟩
  exact_mod_cast UInt64.le_iff_toNat_le.mp (le_unixHour h.2)

/-- As long as nanoseconds fit `int64`, the scan finds exactly these. -/
theorem expired_iff (ht : 0 ≤ t) (hlt : t < 2 ^ 63) : Expired w.db.view t e ↔ Come w t e := by
  refine ⟨come_of_expired ht, fun h => ⟨h.1, ?_⟩⟩
  have hle := h.2
  obtain ⟨m, hm⟩ := Int.eq_ofNat_of_zero_le (Int.ediv_nonneg ht (show 0 ≤ hour by decide))
  have hsmall : (m : Int) < 2 ^ 63 := by
    rw [← hm]
    exact lt_of_le_of_lt (Int.ediv_le_self hour ht) hlt
  have hnat : (unixHour t).toNat = m := by
    rw [unixHour_eq ht, hm, UInt64.ofInt, UInt64.toNat_ofNat']
    omega
  have h1 : (1 : UInt64).toNat = 1 := rfl
  rw [hm] at hle
  rw [UInt64.lt_iff_toNat_lt, UInt64.toNat_add, h1, hnat]
  omega

theorem KeyGoes.mono {sw : Sweeper} {E E' : ExpiredEntry → Prop} {k : Bytes}
    (h : KeyGoes sw tiers w E k) (hE : ∀ e, E e → E' e) : KeyGoes sw tiers w E' k := by
  obtain ⟨e, he, hk⟩ := h
  exact ⟨e, hE e he, hk⟩

theorem FileGoes.mono {sw : Sweeper} {E E' : ExpiredEntry → Prop} {p : Path}
    (h : FileGoes sw tiers w E p) (hE : ∀ e, E e → E' e) : FileGoes sw tiers w E' p := by
  obtain ⟨hsw, e, store, he, hp⟩ := h
  exact ⟨hsw, e, store, hE e he, hp⟩

/-! ## What unfinished cycles leave -/

/-- The state `x` after unfinished cycles in state `w`. -/
structure Between (tiers : Tier → Option LocalStore) (w x : World) : Prop where
  pending : PendingIdx x.db
  clock : 0 ≤ x.clock
  keys : ∀ k, family k ≠ prefixIdx → x.db.view.get k = w.db.view.get k ∨
    x.db.view.get k = none ∧ KeyGoes .reaper tiers w (Come w x.clock) k
  files : ∀ p, x.fs p = w.fs p ∨ x.fs p = none ∧ FileGoes .reaper tiers w (Come w x.clock) p
  /-- The metadata of a block goes after its files, -/
  order : ∀ id store, Doomed .reaper tiers w id store → x.db.view.get (blockKey id) = none →
    x.fs (store.blockPath id) = none ∧ x.fs (store.bloomPath id) = none
  /-- and with its first expiry key. -/
  exp : ∀ h id, (w.db.view.get (expiryKey h id)).isSome → x.db.view.get (expiryKey h id) = none →
    x.db.view.get (blockKey id) = none

theorem between_start (hp : PendingIdx w.db) (hclock : 0 ≤ w.clock) : Between tiers w w where
  pending := hp
  clock := hclock
  keys _ _ := Or.inl rfl
  files _ := Or.inl rfl
  order id store hdoomed hnone := by
    obtain ⟨val, bm, hval, -⟩ := hdoomed
    rw [hval] at hnone
    cases hnone
  exp h id hsome hnone := by
    rw [hnone] at hsome
    cases hsome

theorem family_blockKey_ne (id : BlockID) : family (blockKey id) ≠ prefixIdx := by
  rw [family_blockKey]
  decide

theorem family_expiryKey_ne (h : UInt64) (id : BlockID) :
    family (expiryKey h id) ≠ prefixIdx := by
  rw [family_expiryKey]
  decide

/-- The metadata of a block is still there, or it was none, or the block is
one that goes. -/
theorem Between.blk (h : Between tiers w x) (id : BlockID) :
    x.db.view.get (blockKey id) = w.db.view.get (blockKey id) ∨
      x.db.view.get (blockKey id) = none ∧ Leaves .reaper tiers w id := by
  rcases h.keys _ (family_blockKey_ne id) with hsame | ⟨hnone, e, -, hleaves, hk | hk⟩
  · exact Or.inl hsame
  · rw [← blockKey_inj.mp hk] at hleaves
    exact Or.inr ⟨hnone, hleaves⟩
  · exact absurd hk blockKey_ne_expiryKey

/-- Time goes on, and index keys may be lost. -/
theorem Between.later (h : Between tiers w x) (hp : PendingIdx y.db) (hfs : y.fs = x.fs)
    (hget : ∀ k, family k ≠ prefixIdx → y.db.view.get k = x.db.view.get k)
    (hclock : x.clock ≤ y.clock) : Between tiers w y where
  pending := hp
  clock := h.clock.trans hclock
  keys k hk := by
    rw [hget k hk]
    exact (h.keys k hk).imp_right fun hgone => ⟨hgone.1, hgone.2.mono fun _ he => he.mono hclock⟩
  files p := by
    rw [hfs]
    exact (h.files p).imp_right fun hgone => ⟨hgone.1, hgone.2.mono fun _ he => he.mono hclock⟩
  order id store hdoomed hnone := by
    rw [hfs]
    rw [hget _ (family_blockKey_ne id)] at hnone
    exact h.order id store hdoomed hnone
  exp n id hsome hnone := by
    rw [hget _ (family_expiryKey_ne n id)] at hnone
    rw [hget _ (family_blockKey_ne id)]
    exact h.exp n id hsome hnone

/-- A file of a block that is due is removed. -/
theorem Between.remove {p : Path} (h : Between tiers w x) (he : Come w x.clock e)
    (hdoomed : Doomed .reaper tiers w e.id store)
    (hp : p = store.blockPath e.id ∨ p = store.bloomPath e.id) :
    Between tiers w (x.setFile p none) := by
  have hfs : ∀ q, (x.setFile p none).fs q = x.fs q ∨ q = p ∧ (x.setFile p none).fs q = none := by
    intro q
    by_cases hq : q = p
    · exact Or.inr ⟨hq, by rw [hq, World.setFile_fs, FS.put_self]⟩
    · exact Or.inl (FS.put_ne _ _ hq)
  have hnone : ∀ q, x.fs q = none → (x.setFile p none).fs q = none := by
    intro q hq
    rcases hfs q with hs | hs
    · rw [hs, hq]
    · exact hs.2
  refine ⟨h.pending, h.clock, h.keys, fun q => ?_, fun id s hd hk => ?_, h.exp⟩
  · rcases hfs q with hs | ⟨rfl, hs⟩
    · rw [hs]
      exact h.files q
    · exact Or.inr ⟨hs, rfl, e, store, he, hdoomed, hp⟩
  · exact (h.order id s hd hk).imp (hnone _) (hnone _)

/-- The keys of a block may go: it has no metadata any more, or it has lost
its files. -/
def Settled (tiers : Tier → Option LocalStore) (w : World) (id : BlockID) (x : World) : Prop :=
  x.db.view.get (blockKey id) = none ∨ ∃ store, Doomed .reaper tiers w id store ∧
    x.fs (store.blockPath id) = none ∧ x.fs (store.bloomPath id) = none

/-- The keys of a block go, once they may. -/
theorem Between.delete (h : Between tiers w x) (he : Come w x.clock e)
    (hsettled : Settled tiers w e.id x) :
    Between tiers w (x.commit (deleteOps e.hour e.id) true) := by
  have hget : ∀ k, (x.commit (deleteOps e.hour e.id) true).db.view.get k =
      if k = expiryKey e.hour e.id ∨ k = blockKey e.id then none else x.db.view.get k := by
    intro k
    rw [World.commit_db, Pebble.view_commit, get_deleteOps]
  have hleaves : Leaves .reaper tiers w e.id := by
    rcases hsettled with hnone | ⟨store, hdoomed, -⟩
    · rcases h.blk e.id with hsame | ⟨-, hleaves⟩
      · exact Or.inl (hsame.symm.trans hnone)
      · exact hleaves
    · exact Or.inr ⟨store, hdoomed⟩
  refine ⟨fun b hb => absurd hb List.not_mem_nil, h.clock, fun k hk => ?_, h.files,
    fun id store hdoomed hnone => ?_, fun n id hsome hnone => ?_⟩
  · rw [hget]
    split_ifs with hown
    · exact Or.inr ⟨rfl, e, he, hleaves, hown.symm⟩
    · exact h.keys k hk
  · -- the block itself has lost its files; others are as before
    show x.fs (store.blockPath id) = none ∧ x.fs (store.bloomPath id) = none
    rw [hget] at hnone
    split_ifs at hnone with hown
    · rcases hown with hk | hk
      · exact absurd hk blockKey_ne_expiryKey
      · obtain rfl := blockKey_inj.mp hk
        rcases hsettled with hgone | ⟨store', hdoomed', hfiles⟩
        · exact h.order _ store hdoomed hgone
        · rwa [hdoomed.unique hdoomed']
    · exact h.order id store hdoomed hnone
  · rw [hget] at hnone ⊢
    split_ifs with hblk
    · rfl
    · rw [not_or] at hblk
      refine h.exp n id hsome ?_
      split_ifs at hnone with hown
      · rcases hown with hk | hk
        · exact absurd (congrArg blockKey (expiryKey_inj.mp hk).2) hblk.2
        · exact absurd hk.symm blockKey_ne_expiryKey
      · exact hnone

/-! ## The functions of a cycle, among other cycles -/

/-- What is gone stays gone, and time goes on. -/
structure Fewer (x y : World) : Prop where
  keys : ∀ k, family k ≠ prefixIdx → x.db.view.get k = none → y.db.view.get k = none
  files : ∀ p, x.fs p = none → y.fs p = none
  clock : x.clock ≤ y.clock

/-- What cycles do, and rely on. -/
def Trying (tiers : Tier → Option LocalStore) (w x y : World) : Prop :=
  Between tiers w x → Between tiers w y ∧ Fewer x y

theorem rely_trying (tiers : Tier → Option LocalStore) (w : World) : Rely (Trying tiers w) where
  refl _ h := ⟨h, fun _ _ hn => hn, fun _ hn => hn, le_refl _⟩
  trans h₁ h₂ h := by
    obtain ⟨hb, hab⟩ := h₁ h
    obtain ⟨hc, hbc⟩ := h₂ hb
    exact ⟨hc, fun k hk hn => hbc.keys k hk (hab.keys k hk hn),
      fun p hp => hbc.files p (hab.files p hp), hab.clock.trans hbc.clock⟩

/-- A part of a cycle, among other cycles. -/
abbrev Tries (tiers : Tier → Option LocalStore) (w : World) {α : Type} (p : Proc α)
    (Q : α → World → Prop) (x : World) : Prop :=
  Follows semReads (Trying tiers w) (Trying tiers w) p Q x

/-- An entry that has come, in a state that cycles have left. -/
structure At (tiers : Tier → Option LocalStore) (w : World) (e : ExpiredEntry) (x : World) :
    Prop where
  between : Between tiers w x
  come : Come w x.clock e

theorem At.after (h : At tiers w e x) (hr : Trying tiers w x y) : At tiers w e y :=
  ⟨(hr h.between).1, h.come.mono (hr h.between).2.clock⟩

theorem Settled.after (h : Settled tiers w id x) (hb : Between tiers w x)
    (hr : Trying tiers w x y) : Settled tiers w id y := by
  have hf := (hr hb).2
  refine h.imp (hf.keys _ (family_blockKey_ne id)) fun ⟨store, hdoomed, hblock, hbloom⟩ => ?_
  exact ⟨store, hdoomed, hf.files _ hblock, hf.files _ hbloom⟩

theorem trying_remove {p : Path} (h : At tiers w e x) (hdoomed : Doomed .reaper tiers w e.id store)
    (hp : p = store.blockPath e.id ∨ p = store.bloomPath e.id) :
    Trying tiers w x (x.setFile p none) := by
  refine fun _ => ⟨h.between.remove h.come hdoomed hp, fun _ _ hn => hn, fun q hq => ?_, le_refl _⟩
  by_cases hqp : q = p
  · rw [hqp, World.setFile_fs, FS.put_self]
  · rw [World.setFile_fs, FS.put_ne _ _ hqp, hq]

theorem trying_delete (h : At tiers w e x) (hs : Settled tiers w e.id x) :
    Trying tiers w x (x.commit (deleteOps e.hour e.id) true) := by
  refine fun _ => ⟨h.between.delete h.come hs, fun k _ hn => ?_, fun _ hq => hq, le_refl _⟩
  rw [World.commit_db, Pebble.view_commit, get_deleteOps]
  split_ifs
  · rfl
  · exact hn

theorem trying_tick (h : Tick x y) : Trying tiers w x y := by
  obtain ⟨t, ht, rfl⟩ := h
  exact fun hb => ⟨hb.later hb.pending rfl (fun _ _ => rfl) ht, fun _ _ hn => hn,
    fun _ hn => hn, ht⟩

theorem trying_crash (h : x.Crash y) : Trying tiers w x y := by
  intro hb
  have hget : ∀ k, family k ≠ prefixIdx → y.db.view.get k = x.db.view.get k :=
    fun k hk => get_view_crash hb.pending h.db hk
  refine ⟨hb.later ?_ h.fs hget h.clock, fun k hk hn => ?_, fun p hp => ?_, h.clock⟩
  · obtain ⟨n, hdb⟩ := h.db
    rw [hdb]
    exact fun b hb => absurd hb List.not_mem_nil
  · rw [hget k hk, hn]
  · rw [h.fs, hp]

theorem tries_ctxErr (x : World) :
    Tries tiers w (liftM ctxErr : Go Bool).run (fun _ => Trying tiers w x) x := by
  have hR := rely_trying tiers w
  refine follows_bind hR (follows_call fun y hy b z hs => ?_)
  rw [sem_ctxErr hs.1]
  exact ⟨hR.refl y, fun z hz v hv => hR.trans hy (hR.trans hz hv)⟩

/-- `GetBlockMeta` finds the metadata of `w`, or there is none any more. -/
theorem tries_getBlockMeta
    (hdec : ∀ val, w.db.view.get (blockKey id) = some val → ∃ bm, decodeBlockMeta val = .ok bm)
    (hx : Between tiers w x) :
    Tries tiers w (attempt (getBlockMeta id)).run
      (fun r y => Trying tiers w x y ∧ ∃ res, r = .ok res ∧
        ((∀ bm, res ≠ .ok bm) → y.db.view.get (blockKey id) = none) ∧
        ∀ bm store, res = .ok bm → tiers bm.tier = some store → Doomed .reaper tiers w id store)
      x := by
  have hR := rely_trying tiers w
  refine follows_bind hR (follows_bind hR (follows_call fun y hy r z hs => ?_))
  have hbet := (hy hx).1
  have hexec := hs.2 trivial
  simp only [Op.exec] at hexec
  cases hval : y.db.view.get (blockKey id) with
  | none =>
      rw [hval] at hexec
      cases hexec
      refine ⟨hR.refl y, fun a ha b hb c hc => ?_⟩
      have hyc : Trying tiers w y c := hR.trans ha (hR.trans hb hc)
      refine ⟨hR.trans hy hyc, _, rfl, fun _ => ?_, fun bm store hres => by cases hres⟩
      exact (hyc hbet).2.keys _ (family_blockKey_ne id) hval
  | some val =>
      rw [hval] at hexec
      cases hexec
      -- it is what it was in `w`
      have hw : w.db.view.get (blockKey id) = some val := by
        rcases hbet.blk id with hsame | ⟨hnone, -⟩
        · rw [← hsame, hval]
        · rw [hval] at hnone
          cases hnone
      obtain ⟨bm, hbm⟩ := hdec val hw
      refine ⟨hR.refl y, fun a ha b hb c hc => ?_⟩
      refine ⟨hR.trans hy (hR.trans ha (hR.trans hb hc)), _, rfl, fun hno => ?_,
        fun bm' store hres htier => ?_⟩
      · exact absurd hbm (hno bm)
      · exact ⟨val, bm', hw, hres, htier, fun h => by cases h⟩

theorem tries_deleteBlockAndExpiry (hx : At tiers w e x) (hs : Settled tiers w e.id x) :
    Tries tiers w (deleteBlockAndExpiry e.hour e.id).run (fun _ => Trying tiers w x) x := by
  have hR := rely_trying tiers w
  refine follows_call fun y hy r z hsem => ?_
  have hyz : Trying tiers w y z := by
    rcases hsem.1 with hsem | ⟨-, rfl⟩
    · cases hsem
      exact trying_delete (hx.after hy) (hs.after hx.between hy)
    · exact hR.refl _
  exact ⟨hyz, fun v hv => hR.trans hy (hR.trans hyz hv)⟩

theorem tries_removeIfPresent {p : Path} (text : String) (hx : At tiers w e x)
    (hdoomed : Doomed .reaper tiers w e.id store)
    (hp : p = store.blockPath e.id ∨ p = store.bloomPath e.id) :
    Tries tiers w (removeIfPresent p text).run
      (fun r y => Trying tiers w x y ∧ (r.isOk → y.fs p = none)) x := by
  have hR := rely_trying tiers w
  refine follows_bind hR (follows_call fun y hy r z hs => ?_)
  have hat := hx.after hy
  rcases hs.1 with hs | ⟨rfl, rfl⟩
  · simp only [Op.exec] at hs
    cases hfile : y.fs p with
    | none =>
        rw [hfile] at hs
        cases hs
        refine ⟨hR.refl y, fun a ha b hb => ?_⟩
        have hyb : Trying tiers w y b := hR.trans ha hb
        exact ⟨hR.trans hy hyb, fun _ => (hyb hat.between).2.files p hfile⟩
    | some _ =>
        rw [hfile] at hs
        cases hs
        have hrm := trying_remove hat hdoomed hp
        refine ⟨hrm, fun a ha b hb => ?_⟩
        have hzb : Trying tiers w (y.setFile p none) b := hR.trans ha hb
        refine ⟨hR.trans hy (hR.trans hrm hzb), fun _ => ?_⟩
        exact (hzb (hrm hat.between).1).2.files p (by rw [World.setFile_fs, FS.put_self])
  · refine ⟨hR.refl z, fun a ha b hb => ⟨hR.trans hy (hR.trans ha hb), fun hok => ?_⟩⟩
    cases hok

/-- After `Delete`, the keys may go. -/
theorem tries_delete (hx : At tiers w e x) (hdoomed : Doomed .reaper tiers w e.id store) :
    Tries tiers w (store.delete e.id).run
      (fun r y => Trying tiers w x y ∧ (r.isOk → Settled tiers w e.id y)) x := by
  have hR := rely_trying tiers w
  refine follows_bindE hR ((tries_removeIfPresent _ hx hdoomed (Or.inl rfl)).mono fun r y hy => ?_)
  obtain ⟨hxy, hblock⟩ := hy
  cases r with
  | error err => exact fun z hz => ⟨hR.trans hxy hz, fun hok => by cases hok⟩
  | ok u =>
      have hy := hx.after hxy
      refine (tries_removeIfPresent _ hy hdoomed (Or.inr rfl)).mono fun r z hz => ?_
      obtain ⟨hyz, hbloom⟩ := hz
      refine ⟨hR.trans hxy hyz, fun hok => Or.inr ⟨store, hdoomed, ?_, hbloom hok⟩⟩
      exact (hyz hy.between).2.files _ (hblock rfl)

section Cycle

variable (hdec : ∀ id val, w.db.view.get (blockKey id) = some val →
  ∃ bm, decodeBlockMeta val = .ok bm)

include hdec

/-- The loop, over entries that have come. -/
theorem tries_reapEntries (entries : List ExpiredEntry) (hx : Between tiers w x)
    (hcome : ∀ e ∈ entries, Come w x.clock e) :
    Tries tiers w (reapEntries ⟨tiers⟩ entries).run (fun _ _ => True) x := by
  have hR := rely_trying tiers w
  induction entries generalizing x with
  | nil => exact fun _ _ => trivial
  | cons e rest ih =>
      have hat : At tiers w e x := ⟨hx, hcome e List.mem_cons_self⟩
      have hrest : ∀ {y}, Trying tiers w x y →
          Tries tiers w (reapEntries ⟨tiers⟩ rest).run (fun _ _ => True) y := fun hxy =>
        ih (hxy hx).1 fun e' he' =>
          (hcome e' (List.mem_cons_of_mem _ he')).mono (hxy hx).2.clock
      rw [reapEntries_cons]
      refine follows_bindE hR ((tries_ctxErr x).mono fun r y hy => ?_)
      cases r with
      | error _ => exact fun _ _ => trivial
      | ok cancelled =>
          cases cancelled with
          | true => exact fun _ _ => trivial
          | false =>
              refine follows_bindE hR ((tries_getBlockMeta (hdec e.id) (hy hx).1).mono
                fun r z hz => ?_)
              obtain ⟨hyz, res, rfl, hgone, hfound⟩ := hz
              have hxz : Trying tiers w x z := hR.trans hy hyz
              cases res with
              | error err =>
                  -- the metadata is gone: so are the files
                  have hsettled : Settled tiers w e.id z := Or.inl (hgone fun _ he => by cases he)
                  refine follows_bindE hR (follows_bind hR
                    ((tries_deleteBlockAndExpiry (hat.after hxz) hsettled).mono fun r v hv => ?_))
                  exact fun u hu => hrest (hR.trans hxz (hR.trans hv hu))
              | ok bm =>
                  dsimp only [OnResult]
                  cases hstore : tiers bm.tier with
                  | none => exact hrest hxz
                  | some store =>
                      have hdoomed := hfound bm store rfl hstore
                      refine follows_bindE hR ((tries_delete (hat.after hxz) hdoomed).mono
                        fun r v hv => ?_)
                      obtain ⟨hzv, hsettled⟩ := hv
                      cases r with
                      | error _ => exact fun _ _ => trivial
                      | ok u =>
                          have hxv : Trying tiers w x v := hR.trans hxz hzv
                          refine follows_bindE hR ((tries_deleteBlockAndExpiry (hat.after hxv)
                            (hsettled rfl)).mono fun r u hu => ?_)
                          cases r with
                          | error _ => exact fun _ _ => trivial
                          | ok _ =>
                              refine follows_bindE hR ((tries_ctxErr u).mono fun r q hq => ?_)
                              cases r with
                              | error _ => exact fun _ _ => trivial
                              | ok cancelled =>
                                  cases cancelled with
                                  | true => exact fun _ _ => trivial
                                  | false => exact hrest (hR.trans hxv (hR.trans hu hq))

/-- **A cycle among others**, however far it comes. -/
theorem tries_runOnce (hx : Between tiers w x) :
    Tries tiers w (runOnce ⟨tiers⟩).run (fun _ _ => True) x := by
  have hR := rely_trying tiers w
  refine follows_bindE hR (follows_bind hR (follows_call fun y hy t z hs => ?_))
  -- the clock reading
  have hyz : Trying tiers w y z ∧ t = z.clock := by
    rcases hs.1 with hs | ⟨hle, rfl⟩
    · cases hs
      exact ⟨hR.refl y, rfl⟩
    · exact ⟨trying_tick ⟨t, hle, rfl⟩, rfl⟩
  obtain ⟨hyz, rfl⟩ := hyz
  refine ⟨hyz, fun a ha b hb => follows_bindE hR (follows_bindE hR
    (follows_call fun x' hx' res y' hs' => ?_))⟩
  have hzx' : Trying tiers w z x' := hR.trans ha (hR.trans hb hx')
  have hz := (hR.trans hy hyz hx).1
  have hbet := (hzx' hz).1
  -- the scan
  have hexec := hs'.2 trivial
  cases hexec
  refine ⟨hR.refl x', fun u hu v hv => ?_⟩
  have hxv : Trying tiers w x' v := hR.trans hu hv
  refine tries_reapEntries hdec _ (hxv hbet).1 fun e he => ?_
  have hexp := mem_expiredEntries_iff.mp he
  have hsome : (w.db.view.get (expiryKey e.hour e.id)).isSome := by
    rcases hbet.keys _ (family_expiryKey_ne e.hour e.id) with hsame | ⟨hnone, -⟩
    · rw [← hsame]
      exact hexp.1
    · have hk := hexp.1
      rw [hnone] at hk
      cases hk
  have hcome := come_of_expired (w := x') hz.clock hexp
  exact Come.mono ⟨hsome, hcome.2⟩ ((hzx' hz).2.clock.trans (hxv hbet).2.clock)

end Cycle

/-! ## The next complete cycle -/

theorem Removed.file_none {sw : Sweeper} {E : ExpiredEntry → Prop} {p : Path}
    (h : Removed sw tiers w E x) (hp : w.fs p = none) : x.fs p = none := by
  by_cases hg : FileGoes sw tiers w E p
  · exact h.file_gone p hg
  · rw [h.file_kept p hg, hp]

theorem Removed.key_none {sw : Sweeper} {E : ExpiredEntry → Prop} {k : Bytes}
    (h : Removed sw tiers w E x) (hk : w.db.view.get k = none) : x.db.view.get k = none := by
  by_cases hg : KeyGoes sw tiers w E k
  · exact h.key_gone k hg
  · rw [h.key_kept k hg, hk]

section Compare

variable (h : Between tiers w x)

include h

theorem Between.doomed (hd : Doomed .reaper tiers x id store) : Doomed .reaper tiers w id store := by
  obtain ⟨val, bm, hval, hbm, htier, -⟩ := hd
  rcases h.blk id with hsame | ⟨hnone, -⟩
  · exact ⟨val, bm, by rw [← hsame, hval], hbm, htier, nofun⟩
  · rw [hval] at hnone
    cases hnone

theorem Between.doomed_back (hd : Doomed .reaper tiers w id store)
    (hblk : x.db.view.get (blockKey id) ≠ none) : Doomed .reaper tiers x id store := by
  obtain ⟨val, bm, hval, hbm, htier, -⟩ := hd
  rcases h.blk id with hsame | ⟨hnone, -⟩
  · exact ⟨val, bm, by rw [hsame, hval], hbm, htier, nofun⟩
  · exact absurd hnone hblk

theorem Between.leaves (hl : Leaves .reaper tiers x id) : Leaves .reaper tiers w id := by
  rcases hl with hnone | ⟨store, hd⟩
  · rcases h.blk id with hsame | ⟨-, hl⟩
    · exact Or.inl (hsame.symm.trans hnone)
    · exact hl
  · exact Or.inr ⟨store, h.doomed hd⟩

theorem Between.leaves_back (hl : Leaves .reaper tiers w id) : Leaves .reaper tiers x id := by
  by_cases hblk : x.db.view.get (blockKey id) = none
  · exact Or.inl hblk
  · rcases hl with hnone | ⟨store, hd⟩
    · rcases h.blk id with hsame | ⟨hgone, -⟩
      · exact absurd (hsame.trans hnone) hblk
      · exact absurd hgone hblk
    · exact Or.inr ⟨store, h.doomed_back hd hblk⟩

theorem Between.come (he : Come x t e) : Come w t e := by
  refine ⟨?_, he.2⟩
  rcases h.keys _ (family_expiryKey_ne e.hour e.id) with hsame | ⟨hnone, -⟩
  · rw [← hsame]
    exact he.1
  · have hk := he.1
    rw [hnone] at hk
    cases hk

/-- An entry is still found as long as the block has metadata or the entry
itself is there. -/
theorem Between.come_back (he : Come w t e) (hthere : x.db.view.get (blockKey e.id) ≠ none ∨
    x.db.view.get (expiryKey e.hour e.id) ≠ none) : Come x t e := by
  have hexp : x.db.view.get (expiryKey e.hour e.id) ≠ none :=
    hthere.elim (mt (h.exp e.hour e.id he.1)) id
  exact ⟨Option.isSome_iff_ne_none.mpr hexp, he.2⟩

/-- **A complete cycle finishes what others have begun.** -/
theorem Between.finish {x' w' : World} (ht : t = x.clock)
    (hx : Removed .reaper tiers x (Come x t) x') (hw : Removed .reaper tiers w (Come w t) w') :
    x'.fs = w'.fs ∧ ∀ k, family k ≠ prefixIdx → x'.db.view.get k = w'.db.view.get k := by
  subst ht
  refine ⟨funext fun p => ?_, fun k hk => ?_⟩
  · by_cases hp : FileGoes .reaper tiers w (Come w x.clock) p
    · rw [hw.file_gone p hp]
      obtain ⟨-, e, store, he, hd, hpath⟩ := hp
      by_cases hblk : x.db.view.get (blockKey e.id) = none
      · refine hx.file_none ?_
        obtain ⟨hblock, hbloom⟩ := h.order e.id store hd hblk
        rcases hpath with rfl | rfl
        · exact hblock
        · exact hbloom
      · exact hx.file_gone p ⟨rfl, e, store, h.come_back he (Or.inl hblk),
          h.doomed_back hd hblk, hpath⟩
    · have hpx : ¬ FileGoes .reaper tiers x (Come x x.clock) p := by
        rintro ⟨-, e, store, he, hd, hpath⟩
        exact hp ⟨rfl, e, store, h.come he, h.doomed hd, hpath⟩
      rw [hw.file_kept p hp, hx.file_kept p hpx]
      exact (h.files p).resolve_right fun hgone => hp hgone.2
  · by_cases hg : KeyGoes .reaper tiers w (Come w x.clock) k
    · rw [hw.key_gone k hg]
      by_cases hthere : x.db.view.get k = none
      · exact hx.key_none hthere
      · obtain ⟨e, he, hl, hke⟩ := hg
        refine hx.key_gone k ⟨e, h.come_back he ?_, h.leaves_back hl, hke⟩
        rcases hke with rfl | rfl
        · exact Or.inl hthere
        · exact Or.inr hthere
    · have hgx : ¬ KeyGoes .reaper tiers x (Come x x.clock) k := by
        rintro ⟨e, he, hl, hke⟩
        exact hg ⟨e, h.come he, h.leaves hl, hke⟩
      rw [hw.key_kept k hg, hx.key_kept k hgx]
      exact (h.keys k hk).resolve_right fun hgone => hg hgone.2

end Compare

/-- Any number of cycles, each as far as it comes, with crashes and restarts
at any step, and without read errors. -/
abbrev CycleReach (tiers : Tier → Option LocalStore) (ι : Type) :
    Pool machine World ι → Pool machine World ι → Prop :=
  Pool.Reach semReads (fun _ => (runOnce ⟨tiers⟩).run.void) Tick World.Crash

/-- **The contract of the cycles.** -/
theorem contract_cycles (ι : Type)
    (hdec : ∀ id val, w.db.view.get (blockKey id) = some val → ∃ bm, decodeBlockMeta val = .ok bm) :
    Pool.Contract semReads (fun _ : ι => (runOnce ⟨tiers⟩).run.void) Tick World.Crash
      (fun _ => Trying tiers w) (fun _ => Trying tiers w) (fun _ => Between tiers w) where
  rely _ := rely_trying tiers w
  others _ h := h
  env := trying_tick
  start hx := (tries_runOnce hdec hx).void (rely_trying tiers w)
  ready h hx := (h hx).1
  crash h hx := (trying_crash h hx).1

theorem between_of_reach {ι : Type} {c : Pool machine World ι}
    (hdec : ∀ id val, w.db.view.get (blockKey id) = some val → ∃ bm, decodeBlockMeta val = .ok bm)
    (hpending : PendingIdx w.db) (hclock : 0 ≤ w.clock)
    (h : CycleReach tiers ι ⟨w, [], []⟩ c) : Between tiers w c.world := by
  have hstart : Pool.Follow semReads (fun _ => Trying tiers w) (fun _ => Trying tiers w)
      (fun _ => Between tiers w) (⟨w, [], []⟩ : Pool machine World ι) := by
    refine ⟨List.nodup_nil, ?_, ?_, fun _ _ => between_start hpending hclock⟩
    · exact fun p hp => absurd hp List.not_mem_nil
    · exact fun p hp => absurd hp List.not_mem_nil
  have hmoves : ∀ {x y : World},
      Pool.Moves Tick World.Crash (fun _ : ι => Trying tiers w) x y → Trying tiers w x y := by
    rintro x y (rfl | ⟨-, hm⟩ | ht | hc)
    · exact (rely_trying tiers w).refl x
    · exact hm
    · exact trying_tick ht
    · exact trying_crash hc
  obtain ⟨-, hk⟩ := hstart.reach (contract_cycles ι hdec) (rely_trying tiers w) hmoves h
  exact (hk (between_start hpending hclock)).1

/-- A complete cycle, by the state before it. -/
theorem removed_runOnce (tiers : Tier → Option LocalStore) (x : World)
    (hdec : ∀ id val, x.db.view.get (blockKey id) = some val → ∃ bm, decodeBlockMeta val = .ok bm)
    (h₀ : 0 ≤ x.clock) (ht : x.clock < 2 ^ 63) :
    ((runOnce ⟨tiers⟩).run.exec x).1 = .ok () ∧
      Removed .reaper tiers x (Come x x.clock) ((runOnce ⟨tiers⟩).run.exec x).2 := by
  obtain ⟨hok, hremoved⟩ := exec_runOnce_removed .reaper tiers x hdec
  exact ⟨hok, hremoved.congr fun e => expired_iff h₀ ht⟩

/-- **The next cycle repairs what unfinished ones have left.** Any number of
reaper cycles start in state `w`; each is cut off wherever an operation fails,
the context is done or the process crashes, and they may overlap. A complete
cycle after them leaves all files, and all keys outside the index, as it would
have left them in `w` without the others. -/
theorem interrupted_cycles_repaired {ι : Type} (tiers : Tier → Option LocalStore) (w : World)
    (hdec : ∀ id val, w.db.view.get (blockKey id) = some val → ∃ bm, decodeBlockMeta val = .ok bm)
    (hpending : PendingIdx w.db) (hclock : 0 ≤ w.clock) (c : Pool machine World ι)
    (h : CycleReach tiers ι ⟨w, [], []⟩ c) (htime : c.world.clock < 2 ^ 63) :
    ((runOnce ⟨tiers⟩).run.exec c.world).1 = .ok () ∧
      ((runOnce ⟨tiers⟩).run.exec c.world).2.fs =
        ((runOnce ⟨tiers⟩).run.exec (readClock w c.world.clock)).2.fs ∧
      ∀ k, family k ≠ prefixIdx →
        ((runOnce ⟨tiers⟩).run.exec c.world).2.db.view.get k =
          ((runOnce ⟨tiers⟩).run.exec (readClock w c.world.clock)).2.db.view.get k := by
  have hb := between_of_reach hdec hpending hclock h
  have hdecx : ∀ id val, c.world.db.view.get (blockKey id) = some val →
      ∃ bm, decodeBlockMeta val = .ok bm := by
    intro id val hval
    rcases hb.blk id with hsame | ⟨hnone, -⟩
    · exact hdec id val (by rw [← hsame, hval])
    · rw [hval] at hnone
      cases hnone
  obtain ⟨hok, hx⟩ := removed_runOnce tiers c.world hdecx hb.clock htime
  obtain ⟨-, hw⟩ := removed_runOnce tiers (readClock w c.world.clock) hdec hb.clock htime
  exact ⟨hok, hb.finish rfl hx ⟨hw.key_gone, hw.key_kept, hw.file_gone, hw.file_kept⟩⟩

/-- The only metadata after the `Seal` of `oneRow` is its own. -/
theorem decodes_oneRowSealed (id : BlockID) (val : Bytes)
    (hval : oneRowSealed.db.view.get (blockKey id) = some val) :
    ∃ bm, decodeBlockMeta val = .ok bm := by
  obtain ⟨ws, hrun⟩ := runs_oneRowSealed
  by_cases hid : id = oneRow.blockID
  · have hmeta : HasMeta Libs.plain oneRowSealed oneRow := (present_of_runs hrun).blk
    rw [hid, hmeta] at hval
    cases hval
    exact ⟨_, decodeBlockMeta_encodeBlockMeta _⟩
  · have hnone : oneRowSealed.db.view.get (blockKey id) = none :=
      (beside_of_runs hrun).blk id hid
    rw [hnone] at hval
    cases hval

set_option maxRecDepth 100000 in
/-- A crash between the two removals of `Delete`, and the next cycle. -/
theorem interrupted_cycles_repaired_oneRow :
    oneRowHalf.fs oneRow.blockPath = none ∧ (oneRowHalf.fs oneRow.bloomPath).isSome ∧
      ((runOnce ⟨fun _ => some oneRow.store⟩).run.exec oneRowHalf).2.fs =
        ((runOnce ⟨fun _ => some oneRow.store⟩).run.exec oneRowExpired).2.fs := by
  have hexpired : Tick oneRowSealed oneRowExpired := ⟨43800 * hour, by decide +kernel, rfl⟩
  have hcrash : (advance Op.exec 5 (reapAndClean true).text oneRowExpired).2.Crash oneRowHalf :=
    World.crash_syncedOnly _
  have hexec : ∀ q ∈ visits Op.exec 5 (reapAndClean true).text oneRowExpired,
      semReads q.1 q.2 (Op.exec q.1 q.2).1 (Op.exec q.1 q.2).2 := fun q _ => semReads_exec q.1 q.2
  have hreach : CycleReach (fun _ => some oneRow.store) Unit ⟨oneRowSealed, [], []⟩
      ⟨oneRowHalf, [], [()]⟩ :=
    .head (.env hexpired) (.head (.spawn List.not_mem_nil)
      ((Pool.reach_advance hexec).tail (.crash hcrash)))
  have hpending : PendingIdx oneRowSealed.db := by
    have hnil : oneRowSealed.db.pending = [] := by decide +kernel
    intro b hb
    rw [hnil] at hb
    exact absurd hb List.not_mem_nil
  obtain ⟨-, hfs, -⟩ := interrupted_cycles_repaired (fun _ => some oneRow.store) oneRowSealed
    decodes_oneRowSealed hpending (by decide +kernel) _ hreach (by decide +kernel)
  exact ⟨by decide +kernel, by decide +kernel, hfs⟩

end Bbdb.Ttl
