import BitcoinCash.AddrMan.Invariant
import Mathlib.Data.Fintype.Prod

/-!
# The public operations keep the invariant

Each public operation of `CAddrMan` takes a state that satisfies `Consistent` to one that does,
and so every run of them from `Clear()` satisfies the structural part of `Check_` after every
call.

Within an operation the invariant is broken at one entry at a time, the one being moved: its
reference count is out of range from the loop of `MakeTried` until it is marked tried, and from
`Create` until the end of `Add_`. The lemmas carry `RefRangeOn _ (· ≠ x)` and the counters'
offsets (`newGap`, `triedGap`) across these stretches.
-/

namespace BitcoinCash

namespace CAddrMan

variable {A K : Type} [DecidableEq A] [Inhabited A] (env : AddrManEnv A K)

/-! ### The loop of `MakeTried` -/

/-- What the loop of `MakeTried` leaves of the state it starts from: it empties slots of the new
table and changes the reference count of `x`, and nothing else. -/
structure LoopFrame (x : ℤ) (s s' : CAddrMan A K) : Prop where
  mapInfo_self : ∃ r, s'.mapInfo x = some { s.info x with nRefCount := r }
  mapInfo_ne : ∀ y, y ≠ x → s'.mapInfo y = s.mapInfo y
  vvNew_of_ne : ∀ b i, s'.vvNew b i ≠ -1 → s'.vvNew b i = s.vvNew b i
  vRandom : s'.vRandom = s.vRandom
  mapAddr : s'.mapAddr = s.mapAddr
  nIdCount : s'.nIdCount = s.nIdCount
  nNew : s'.nNew = s.nNew
  nTried : s'.nTried = s.nTried
  vvTried : s'.vvTried = s.vvTried
  nKey : s'.nKey = s.nKey
  mTriedCollisions : s'.mTriedCollisions = s.mTriedCollisions

section Loop

variable {s : CAddrMan A K} {x : ℤ}

theorem LoopFrame.refl {info : CAddrInfo A} (hm : s.mapInfo x = some info) : LoopFrame x s s :=
  ⟨⟨info.nRefCount, by rw [info_of_mapInfo hm, hm]⟩, fun _ _ => rfl, fun _ _ _ => rfl, rfl, rfl,
    rfl, rfl, rfl, rfl, rfl, rfl⟩

theorem LoopFrame.trans {s₁ s₂ : CAddrMan A K} (h₁ : LoopFrame x s s₁) (h₂ : LoopFrame x s₁ s₂) :
    LoopFrame x s s₂ := by
  obtain ⟨r₁, hm₁⟩ := h₁.mapInfo_self
  obtain ⟨r₂, hm₂⟩ := h₂.mapInfo_self
  refine ⟨⟨r₂, by rw [hm₂, info_of_mapInfo hm₁]⟩, fun y hy => ?_, fun b i hv => ?_,
    h₂.vRandom.trans h₁.vRandom, h₂.mapAddr.trans h₁.mapAddr, h₂.nIdCount.trans h₁.nIdCount,
    h₂.nNew.trans h₁.nNew, h₂.nTried.trans h₁.nTried, h₂.vvTried.trans h₁.vvTried,
    h₂.nKey.trans h₁.nKey, h₂.mTriedCollisions.trans h₁.mTriedCollisions⟩
  · rw [h₂.mapInfo_ne y hy, h₁.mapInfo_ne y hy]
  · have h₂b := h₂.vvNew_of_ne b i hv
    rw [h₂b] at hv ⊢
    exact h₁.vvNew_of_ne b i hv

theorem LoopFrame.info_self {s' : CAddrMan A K} (hf : LoopFrame x s s') :
    (s'.info x).toCService = (s.info x).toCService ∧ (s'.info x).fInTried = (s.info x).fInTried := by
  obtain ⟨r, hm⟩ := hf.mapInfo_self
  rw [info_of_mapInfo hm]
  exact ⟨rfl, rfl⟩

theorem LoopFrame.entries_ne {s' : CAddrMan A K} (hf : LoopFrame x s s') {y : ℤ} (hy : y ≠ x) :
    s'.entries y = s.entries y := by
  rw [entries, entries, hf.mapInfo_ne y hy]

/-- The loop keeps the counts. -/
theorem LoopFrame.gaps {s' : CAddrMan A K} (hf : LoopFrame x s s') (hm : (s.mapInfo x).isSome) :
    s'.newGap = s.newGap ∧ s'.triedGap = s.triedGap := by
  refine gaps_of_flags hf.vRandom hf.nNew hf.nTried fun y => ?_
  by_cases hyx : y = x
  · subst hyx
    obtain ⟨info, hinfo⟩ := Option.isSome_iff_exists.mp hm
    obtain ⟨r, hm'⟩ := hf.mapInfo_self
    rw [entries, entries, hm', hinfo, info_of_mapInfo hinfo]
    rfl
  · rw [hf.entries_ne hyx]

/-- One turn of the loop: the slot of `x` in the bucket is emptied if it holds `x`. -/
theorem makeTriedLoop_cons (b : Fin addrmanNewBucketCount) (bs : List (Fin addrmanNewBucketCount)) :
    makeTriedLoop env x s (b :: bs) =
      makeTriedLoop env x
        (if s.vvNew b (newPos env s.nKey (s.info x).toCService b) = x then
          (s.setNew b (newPos env s.nKey (s.info x).toCService b) (-1)).setInfo x
            { s.info x with nRefCount := (s.info x).nRefCount - 1 }
        else s) bs := rfl

theorem loopFrame_turn {info : CAddrInfo A} (hm : s.mapInfo x = some info)
    (b : Fin addrmanNewBucketCount) :
    LoopFrame x s (if s.vvNew b (newPos env s.nKey (s.info x).toCService b) = x then
        (s.setNew b (newPos env s.nKey (s.info x).toCService b) (-1)).setInfo x
          { s.info x with nRefCount := (s.info x).nRefCount - 1 }
      else s) := by
  split_ifs
  · refine ⟨⟨_, Function.update_self _ _ _⟩, fun y hy => Function.update_of_ne hy _ _,
      fun b' i' hv => ?_, rfl, rfl, rfl, rfl, rfl, rfl, rfl, rfl⟩
    rw [setInfo_vvNew, setNew_apply] at hv ⊢
    split_ifs at hv ⊢
    · exact absurd rfl hv
    · rfl
  · exact LoopFrame.refl hm

/-- The loop changes nothing but slots of the new table and the reference count of `x`. -/
theorem makeTriedLoop_frame {info : CAddrInfo A} (hm : s.mapInfo x = some info)
    (bs : List (Fin addrmanNewBucketCount)) : LoopFrame x s (makeTriedLoop env x s bs) := by
  induction bs generalizing s info with
  | nil => exact LoopFrame.refl hm
  | cons b bs ih =>
    have hf := loopFrame_turn env hm b
    obtain ⟨r, hm₁⟩ := hf.mapInfo_self
    rw [makeTriedLoop_cons]
    exact hf.trans (ih hm₁)

/-- The loop keeps the positions and the tables. -/
theorem core_makeTriedLoop (h : Core env s) (hx1 : x ≠ -1)
    (bs : List (Fin addrmanNewBucketCount)) : Core env (makeTriedLoop env x s bs) := by
  induction bs generalizing s with
  | nil => exact h
  | cons b bs ih =>
    rw [makeTriedLoop_cons]
    apply ih
    split_ifs with hslot
    · have hc := core_unlink env h (b := b) (hslot ▸ hx1)
      rw [hslot] at hc
      exact hc
    · exact h

/-- After the loop, no bucket it went through holds `x` at its slot. -/
theorem makeTriedLoop_cleared {info : CAddrInfo A} (hm : s.mapInfo x = some info) (hx1 : x ≠ -1)
    (bs : List (Fin addrmanNewBucketCount)) :
    ∀ b ∈ bs, (makeTriedLoop env x s bs).vvNew b (newPos env s.nKey (s.info x).toCService b) ≠ x := by
  induction bs generalizing s info with
  | nil => intro b hb; cases hb
  | cons b bs ih =>
    have hf := loopFrame_turn env hm b
    obtain ⟨r, hm₁⟩ := hf.mapInfo_self
    have hsvc := hf.info_self.1
    rw [makeTriedLoop_cons]
    intro b' hb'
    rcases List.mem_cons.mp hb' with rfl | hb'
    · -- the turn of `b'` emptied its slot, and later turns only empty slots
      have hturn : (if s.vvNew b' (newPos env s.nKey (s.info x).toCService b') = x then
          (s.setNew b' (newPos env s.nKey (s.info x).toCService b') (-1)).setInfo x
            { s.info x with nRefCount := (s.info x).nRefCount - 1 }
          else s).vvNew b' (newPos env s.nKey (s.info x).toCService b') ≠ x := by
        split_ifs with hslot
        · rw [setInfo_vvNew, setNew_apply, if_pos ⟨rfl, rfl⟩]
          exact hx1.symm
        · exact hslot
      intro hend
      have hrest := (makeTriedLoop_frame env hm₁ bs).vvNew_of_ne b' _ (hend ▸ hx1)
      exact hturn (hrest ▸ hend)
    · have := ih hm₁ b' hb'
      rwa [hf.nKey, hsvc] at this

end Loop

/-! ### The eviction of `MakeTried` -/

section Evict

variable {s : CAddrMan A K} {x : ℤ}

/-- The eviction, while `x` is a new entry in no slot, keeps the positions, the tables and the
counts, and the range of every entry but `x`; it leaves `x` alone and the tried slot empty. -/
theorem evictTried_spec (h : Core env s) (hr : RefRangeOn s.entries (· ≠ x)) {e : TableEntry A}
    (hx : s.entries x = some e) (hnt : e.fInTried = false) (h0 : e.nRefCount = 0)
    {b : Fin addrmanTriedBucketCount} {i : Fin addrmanBucketSize} (hslot : s.vvTried b i ≠ -1) :
    Core env (evictTried env s b i) ∧ RefRangeOn (evictTried env s b i).entries (· ≠ x) ∧
      (evictTried env s b i).entries x = some e ∧ (evictTried env s b i).vvTried b i = -1 ∧
      (evictTried env s b i).nKey = s.nKey ∧ (evictTried env s b i).newGap = s.newGap ∧
      (evictTried env s b i).triedGap = s.triedGap := by
  obtain ⟨eE, heE, htE, -⟩ := h.tables.tried_slot b i hslot
  obtain ⟨infoE, hmE, rfl⟩ := entries_eq_some.mp heE
  have hx1 := h.id_ne x e hx
  have hxE : x ≠ s.vvTried b i := by
    rintro hxE
    rw [hxE, heE, Option.some_inj] at hx
    rw [← hx, htE] at hnt
    cases hnt
  -- the evicted entry, marked new, has no reference
  have hE0 : infoE.nRefCount = 0 := by
    have := h.tables.refCount_eq _ _ heE
    rwa [h.tables.newRefs_eq_zero_of_tried env heE htE hslot] at this
  set sU := ((s.setInfo (s.vvTried b i) { s.info (s.vvTried b i) with fInTried := false }).setTried
    b i (-1)).addTried (-1) with hsU
  have hcU : Core env sU := core_unmarkTried env h hslot (-1)
  have hmU : sU.mapInfo (s.vvTried b i) = some { infoE with fInTried := false } := by
    rw [hsU, addTried_mapInfo, setTried_mapInfo, setInfo_mapInfo, Function.update_self,
      info_of_mapInfo hmE]
  have heU : sU.entries (s.vvTried b i) = some ⟨infoE.toCService, false, 0⟩ := by
    rw [entries, hmU, Option.map_some, ← hE0]
    rfl
  have hoffU : ∀ y, y ≠ s.vvTried b i → sU.entries y = s.entries y := fun y hy => by
    rw [hsU, entries_addTried, entries_setTried, entries_setInfo, Function.update_of_ne hy]
  have hgU : sU.newGap + 1 = s.newGap ∧ sU.triedGap = s.triedGap := by
    have hg := gaps_setInfo_unmark h.positions hmE htE
      (r := { s.info (s.vvTried b i) with fInTried := false }) rfl
    rw [hsU, newGap_addTried, triedGap_addTried, newGap_setTried, triedGap_setTried]
    omega
  -- the slot of the evicted entry in the bucket of its source, emptied
  set ub := env.getNewBucket sU.nKey (sU.info (s.vvTried b i)).toCService
    (sU.info (s.vvTried b i)).source with hub
  set upos := env.getBucketPosition sU.nKey (sU.info (s.vvTried b i)).toCService true ub.val
    with hupos
  set sC := sU.clearNew ub upos with hsC
  have hcC : Core env sC := core_clearNew env hcU
  have hnotU : ∀ y e', sU.entries y = some e' → e'.nRefCount = 0 → sU.vvNew ub upos ≠ y :=
    fun y e' hy hy0 => hcU.tables.new_ne_of_refCount env hy (hcU.id_ne y e' hy) hy0 ub upos
  have heC : sC.entries (s.vvTried b i) = some ⟨infoE.toCService, false, 0⟩ := by
    rw [hsC, entries_clearNew_of_ne env hcU (hnotU _ _ heU rfl), heU]
  have hxC : sC.entries x = some e := by
    rw [hsC, entries_clearNew_of_ne env hcU (hnotU x e (by rw [hoffU x hxE, hx]) h0), hoffU x hxE,
      hx]
  have hgC := gaps_clearNew env hcU (b := ub) (i := upos)
  -- the evicted entry goes in that slot, with one reference
  set sL := (sC.setInfo (s.vvTried b i) { sC.info (s.vvTried b i) with nRefCount := 1 }).setNew ub
    upos (s.vvTried b i) with hsL
  have hcL : Core env sL := by
    refine core_link env hcC heC rfl ?_ ?_ rfl
    · rw [newPos, hsC, clearNew_nKey, hupos, info_of_mapInfo hmU]
    · rw [hsC, clearNew_vvNew, if_pos ⟨rfl, rfl⟩]
  obtain ⟨infoC, hmC, -⟩ := entries_eq_some.mp heC
  have heL : sL.entries = Function.update sC.entries (s.vvTried b i)
      (some ⟨infoE.toCService, false, 1⟩) := by
    have hinfoC := info_tableEntry heC
    rw [hsL, entries_setNew, entries_setInfo]
    simp only [CAddrInfo.tableEntry, TableEntry.mk.injEq] at hinfoC
    rw [← hinfoC.1, ← hinfoC.2.1]
    rfl
  have hgL := gaps_setInfo_of_fInTried hcC.positions hmC
    (r := { sC.info (s.vvTried b i) with nRefCount := 1 }) (by rw [info_of_mapInfo hmC])
  have heq : evictTried env s b i = sL.addNew 1 := rfl
  rw [heq]
  refine ⟨(core_addNew env 1).mpr hcL, ?_, ?_, ?_, ?_, ?_, ?_⟩
  · -- the range: the evicted entry has one reference, the others are as they were
    rw [entries_addNew, heL]
    refine RefRangeOn.of_off ?_ (fun y hy => Function.update_of_ne hy _ _) ?_
    · refine refRange_clearNew env hcU fun y e' hy hy' hnt' => ?_
      rw [hoffU y hy.2] at hy'
      exact hr y e' hy.1 hy' hnt'
    · intro e' he' _
      rw [Function.update_self, Option.some_inj] at he'
      subst he'
      exact ⟨le_refl _, show (1 : ℤ) ≤ addrmanNewBucketsPerAddress by decide⟩
  · rw [entries_addNew, heL, Function.update_of_ne hxE, hxC]
  · rw [addNew_vvTried, hsL, setNew_vvTried, setInfo_vvTried, hsC, clearNew_vvTried, hsU,
      addTried_vvTried, setTried_apply, if_pos ⟨rfl, rfl⟩]
  · rw [addNew_nKey, hsL, setNew_nKey, setInfo_nKey, hsC, clearNew_nKey, hsU, addTried_nKey,
      setTried_nKey, setInfo_nKey]
  · rw [newGap_addNew, hsL, newGap_setNew, hgL.1, hgC.1]
    omega
  · rw [triedGap_addNew, hsL, triedGap_setNew, hgL.2, hgC.2, hgU.2]

end Evict

/-! ### `MakeTried` -/

section MakeTried

variable {s : CAddrMan A K} {x : ℤ}

/-- The loop of `MakeTried`, through every bucket, leaves its entry in none, without references. -/
theorem makeTriedLoop_entry (h : Core env s) {info : CAddrInfo A} (hm : s.mapInfo x = some info)
    (hnt : info.fInTried = false) (bs : List (Fin addrmanNewBucketCount)) (hbs : ∀ b, b ∈ bs) :
    (makeTriedLoop env x s bs).entries x = some ⟨info.toCService, false, 0⟩ := by
  have hx1 := h.id_ne x _ (show s.entries x = some info.tableEntry by rw [entries, hm]; rfl)
  have hf := makeTriedLoop_frame env hm bs
  have hcl := makeTriedLoop_cleared env hm hx1 bs
  obtain ⟨r, hmP⟩ := hf.mapInfo_self
  have heP : (makeTriedLoop env x s bs).entries x = some ⟨info.toCService, false, r⟩ := by
    rw [entries, hmP, info_of_mapInfo hm, Option.map_some, ← hnt]
    rfl
  -- the reference count is the number of buckets holding the entry, none of them
  have hr0 : r = 0 := by
    have href := (core_makeTriedLoop env h hx1 bs).tables.refCount_eq x _ heP
    rw [newRefs, Finset.card_eq_zero.mpr (Finset.filter_eq_empty_iff.mpr fun b _ => ?_)] at href
    · exact href
    · have hb := hcl b (hbs b)
      rw [info_of_mapInfo hm, ← hf.nKey] at hb
      exact hb
  rw [heP, hr0]

/-- `MakeTried` of a new entry keeps the invariant. -/
theorem makeTried_consistent (h : Consistent env s) {info : CAddrInfo A}
    (hm : s.mapInfo x = some info) (hnt : info.fInTried = false) :
    Consistent env (s.makeTried env x) := by
  have hx1 := h.core.id_ne x _ (show s.entries x = some info.tableEntry by rw [entries, hm]; rfl)
  have hg := counts_iff.mp h.counts
  -- the loop, over a list of buckets kept abstract
  have hall : ∀ b, b ∈ List.finRange addrmanNewBucketCount := List.mem_finRange
  unfold makeTried
  generalize List.finRange addrmanNewBucketCount = bs at hall ⊢
  set sP := makeTriedLoop env x s bs with hsP
  have hf := makeTriedLoop_frame env hm bs
  have hcP : Core env sP := core_makeTriedLoop env h.core hx1 bs
  have heP : sP.entries x = some ⟨info.toCService, false, 0⟩ :=
    makeTriedLoop_entry env h.core hm hnt bs hall
  have hrP : RefRangeOn sP.entries (· ≠ x) := fun y e hy he hnt' => by
    rw [hf.entries_ne hy] at he
    exact h.refRange y e trivial he hnt'
  have hgP := hf.gaps (by rw [hm]; rfl)
  obtain ⟨r, hmP⟩ := hf.mapInfo_self
  -- the tried slot of the entry, read after `nNew` is decremented
  set sA := sP.addNew (-1) with hsA
  have hcA : Core env sA := (core_addNew env _).mpr hcP
  have heA : sA.entries x = some ⟨info.toCService, false, 0⟩ := by rw [hsA, entries_addNew, heP]
  have hrA : RefRangeOn sA.entries (· ≠ x) := by rw [hsA, entries_addNew]; exact hrP
  have hsvc : (sA.info x).toCService = info.toCService := by
    rw [hsA, CAddrMan.info, addNew_mapInfo, hmP, Option.getD_some, info_of_mapInfo hm]
  set kb := env.getTriedBucket sA.nKey (sA.info x).toCService with hkb
  set kp := env.getBucketPosition sA.nKey (sA.info x).toCService false kb.val with hkp
  set sE := if sA.vvTried kb kp ≠ -1 then evictTried env sA kb kp else sA with hsE
  have hspec : Core env sE ∧ RefRangeOn sE.entries (· ≠ x) ∧
      sE.entries x = some ⟨info.toCService, false, 0⟩ ∧ sE.vvTried kb kp = -1 ∧
      sE.nKey = sA.nKey ∧ sE.newGap = sA.newGap ∧ sE.triedGap = sA.triedGap := by
    rw [hsE]
    split_ifs with hslot
    · exact evictTried_spec env hcA hrA heA rfl rfl hslot
    · exact ⟨hcA, hrA, heA, not_not.mp hslot, rfl, rfl, rfl⟩
  obtain ⟨hcE, hrE, heE, hemptyE, hkeyE, hgE1, hgE2⟩ := hspec
  obtain ⟨infoT, hmT, hinfoT⟩ := entries_eq_some.mp heE
  set sT := (sE.setTried kb kp x).addTried 1 with hsT
  show Consistent env (sT.setInfo x { sT.info x with fInTried := true })
  refine ⟨core_markTried env hcE heE rfl rfl ?_ hemptyE 1, ?_, ?_⟩
  · rw [triedSlot, hkeyE, hkp, hkb, hsvc]
  · -- the entry is now tried, and the range does not ask anything of a tried entry
    rw [entries_setInfo]
    refine RefRangeOn.of_off (hrE.mono fun y hy => hy.2) (fun y hy => Function.update_of_ne hy _ _) ?_
    intro e he hnt'
    rw [Function.update_self, Option.some_inj] at he
    rw [← he] at hnt'
    cases hnt'
  · have hmark := gaps_setInfo_mark (s := sT) ((positions_addTried 1).mpr
      ((positions_setTried kb kp x).mpr hcE.positions)) hmT
      (congrArg TableEntry.fInTried hinfoT) (r := { sT.info x with fInTried := true }) rfl
    have hT : sT.newGap = sE.newGap ∧ sT.triedGap = sE.triedGap + 1 := by
      rw [hsT, newGap_addTried, triedGap_addTried, newGap_setTried, triedGap_setTried]
      exact ⟨rfl, rfl⟩
    have hA : sA.newGap = sP.newGap + -1 ∧ sA.triedGap = sP.triedGap := by
      rw [hsA, newGap_addNew, triedGap_addNew]
      exact ⟨rfl, rfl⟩
    rw [← hsP] at hgP
    refine counts_iff.mpr ⟨?_, ?_⟩ <;> omega

end MakeTried

/-! ### The end of `Add_` -/

section AddToNew

variable {s : CAddrMan A K} {x : ℤ}

/-- The end of `Add_`, for a new entry below the maximum reference count whose range alone may be
off, keeps the invariant's parts and the counts. -/
theorem addToNew_spec (h : Core env s) (hr : RefRangeOn s.entries (· ≠ x)) {e : TableEntry A}
    (hx : s.entries x = some e) (hnt : e.fInTried = false)
    (hle : e.nRefCount < addrmanNewBucketsPerAddress) (source : A) (now : ℤ) :
    Core env (s.addToNew env x source now) ∧
      RefRangeOn (s.addToNew env x source now).entries (fun _ => True) ∧
      (s.addToNew env x source now).newGap = s.newGap ∧
      (s.addToNew env x source now).triedGap = s.triedGap := by
  have hinfo := info_tableEntry hx
  have hrefx : (s.info x).nRefCount = e.nRefCount := congrArg TableEntry.nRefCount hinfo
  have href0 : 0 ≤ e.nRefCount := by
    rw [h.tables.refCount_eq x e hx]
    exact Int.natCast_nonneg _
  -- the entry keeps its range where it stays as it is with a reference
  have hkeep : 1 ≤ e.nRefCount → RefRangeOn s.entries (fun _ => True) := fun h1 =>
    RefRangeOn.of_off (hr.mono fun y hy => hy.2) (fun _ _ => rfl) fun e' he' _ => by
      rw [hx, Option.some_inj] at he'
      subst he'
      exact ⟨h1, hle.le⟩
  unfold addToNew
  dsimp only
  set ub := env.getNewBucket s.nKey (s.info x).toCService source with hub
  set upos := env.getBucketPosition s.nKey (s.info x).toCService true ub.val with hupos
  split_ifs with hslot hins h0
  · -- the slot is taken over: it is cleared, and gets the entry with one more reference
    have hpos : newPos env (s.clearNew ub upos).nKey e.service ub = upos := by
      rw [newPos, clearNew_nKey, hupos, ← hinfo]
      rfl
    have hc1 := core_clearNew env h (b := ub) (i := upos)
    have he1 := (entries_clearNew_of_ne env h hslot).trans hx
    have hg1 := gaps_clearNew env h (b := ub) (i := upos)
    obtain ⟨info1, hm1, -⟩ := entries_eq_some.mp he1
    have hr1 := congrArg TableEntry.nRefCount (info_tableEntry he1)
    refine ⟨core_link env hc1 he1 hnt hpos (by rw [clearNew_vvNew, if_pos ⟨rfl, rfl⟩])
      (congrArg (· + 1) hr1), ?_, ?_, ?_⟩
    · rw [entries_setNew, entries_setInfo]
      refine RefRangeOn.of_off (refRange_clearNew env h (hr.mono fun y hy => hy.2))
        (fun y hy => Function.update_of_ne hy _ _) fun e' he' _ => ?_
      rw [Function.update_self, Option.some_inj] at he'
      subst he'
      simp only [CAddrInfo.tableEntry] at hr1 ⊢
      simp only [addrmanNewBucketsPerAddress] at hle ⊢
      omega
    all_goals
      have hg2 := gaps_setInfo_of_fInTried hc1.positions hm1
        (r := { (s.clearNew ub upos).info x with
          nRefCount := ((s.clearNew ub upos).info x).nRefCount + 1 })
        (by rw [info_of_mapInfo hm1])
      dsimp only at hg2
    · rw [newGap_setNew, hg2.1, hg1.1]
    · rw [triedGap_setNew, hg2.2, hg1.2]
  · -- no slot for an entry without references: it is deleted
    obtain ⟨info, hm, rfl⟩ := entries_eq_some.mp hx
    have h0' : info.tableEntry.nRefCount = 0 := hrefx ▸ h0
    have hgd := gaps_delete h.positions hm
    have hnt' : info.fInTried = false := hnt
    rw [hnt'] at hgd
    refine ⟨core_delete env h hx hnt h0', ?_, ?_, ?_⟩
    · rw [entries_delete h.positions hm]
      exact RefRangeOn.of_off (hr.mono fun y hy => hy.2) (fun y hy => Function.update_of_ne hy _ _)
        fun e' he' _ => by rw [Function.update_self] at he'; cases he'
    · simp at hgd
      omega
    · simpa using hgd.2
  · exact ⟨h, hkeep (by rw [← hrefx]; omega), rfl, rfl⟩
  · -- the entry already holds the slot, so it has a reference
    obtain ⟨e', he', -, hpos⟩ := h.tables.refCount_pos env (b := ub) (i := upos)
      (by rw [not_not.mp hslot]; exact h.id_ne x e hx)
    rw [not_not.mp hslot, hx, Option.some_inj] at he'
    subst he'
    exact ⟨h, hkeep hpos, rfl, rfl⟩

/-- An entry that `Find` returns is stored under its id. -/
theorem mapInfo_of_find {a : A} {nId : ℤ} {info : CAddrInfo A}
    (hf : s.find a = some (nId, info)) : s.mapInfo nId = some info := by
  obtain ⟨y, -, hy⟩ := Option.bind_eq_some_iff.mp hf
  obtain ⟨info', hm, hinfo⟩ := Option.map_eq_some_iff.mp hy
  cases hinfo
  exact hm

/-- An address that `Find` does not return is not in `mapAddr`. -/
theorem mapAddr_of_find (h : s.Positions) {a : A} (hf : s.find a = none) : s.mapAddr a = none := by
  cases ha : s.mapAddr a with
  | none => rfl
  | some y =>
    obtain ⟨info, hm, -⟩ := (h.mapAddr_iff a y).mp ha
    simp [find, ha, hm] at hf

end AddToNew

/-! ### `Add_` -/

section Add

variable {s : CAddrMan A K}

/-- `Add_` of an address that is stored: the entry is refreshed, then perhaps given one more
slot. -/
theorem add_existing (h : Consistent env s) {nId : ℤ} {pinfo pinfo' : CAddrInfo A}
    (hm : s.mapInfo nId = some pinfo) (he : pinfo'.tableEntry = pinfo.tableEntry)
    (hpos : pinfo'.nRandomPos = pinfo.nRandomPos) (source : A) (now : ℤ) :
    Consistent env (s.setInfo nId pinfo') ∧
      (¬pinfo'.fInTried = true → ¬pinfo'.nRefCount = addrmanNewBucketsPerAddress →
        Consistent env (addToNew env (s.setInfo nId pinfo') nId source now)) := by
  have h1 := consistent_setInfo env h hm he hpos
  refine ⟨h1, fun hnt hne => ?_⟩
  rw [Bool.not_eq_true] at hnt
  have he1 : (s.setInfo nId pinfo').entries nId = some pinfo'.tableEntry := by
    rw [entries_setInfo, Function.update_self]
  have hle := (h1.refRange nId _ trivial he1 hnt).2
  obtain ⟨hc, hr, hn, ht⟩ := addToNew_spec env h1.core (h1.refRange.mono fun _ _ => trivial) he1
    hnt (lt_of_le_of_ne hle hne) source now
  have hg := counts_iff.mp h1.counts
  exact ⟨hc, hr, counts_iff.mpr ⟨hn.trans hg.1, ht.trans hg.2⟩⟩

/-- `Add_` of an address that is not stored: a new entry, then a slot for it or its deletion. -/
theorem add_fresh (h : Consistent env s) (addr : CAddress A) (source : A)
    (hnone : s.mapAddr addr.addr = none) (nTimePenalty now : ℤ) :
    Consistent env (addToNew env
      (((s.create addr source).1.setInfo (s.create addr source).2
        { (s.create addr source).1.info (s.create addr source).2 with
          nTime := toUInt32 (max 0
            (((s.create addr source).1.info (s.create addr source).2).nTime - nTimePenalty)) }).addNew
        1) (s.create addr source).2 source now) := by
  have hc1 := core_create env h.core addr source hnone
  have hg1 := gaps_create h.core.positions addr source
  have hg := counts_iff.mp h.counts
  have he1 : (s.create addr source).1.entries s.nIdCount = some ⟨addr.toCService, false, 0⟩ := by
    rw [entries_create, Function.update_self]
  obtain ⟨info1, hm1, -⟩ := entries_eq_some.mp he1
  have hrn : RefRangeOn (s.create addr source).1.entries (· ≠ s.nIdCount) := by
    rw [entries_create]
    intro y e hy he hnt
    rw [Function.update_of_ne hy] at he
    exact h.refRange y e trivial he hnt
  -- the time written does not change what the tables read
  set rec : CAddrInfo A := { (s.create addr source).1.info s.nIdCount with
      nTime := toUInt32 (max 0 (((s.create addr source).1.info s.nIdCount).nTime - nTimePenalty)) }
    with hrec
  have hte : rec.tableEntry = info1.tableEntry := by
    rw [hrec, info_of_mapInfo hm1]
    rfl
  have hc2 := core_setInfo env hc1 hm1 hte (by rw [hrec, info_of_mapInfo hm1])
  have hent2 := entries_setInfo_of_tableEntry hm1 hte
  have hg2 := gaps_setInfo_of_fInTried hc1.positions hm1 (r := rec)
    (congrArg TableEntry.fInTried hte)
  rw [create_snd]
  obtain ⟨hc, hr, hn, ht⟩ := addToNew_spec env ((core_addNew env 1).mpr hc2)
    (by rw [entries_addNew, hent2]; exact hrn) (by rw [entries_addNew, hent2, he1]) rfl
    (show (0 : ℤ) < addrmanNewBucketsPerAddress by decide) source now
  refine ⟨hc, hr, counts_iff.mpr ⟨?_, ?_⟩⟩
  · rw [hn, newGap_addNew, hg2.1]
    omega
  · rw [ht, triedGap_addNew, hg2.2, hg1.2, hg.2]

/-- `Add_` keeps the invariant. -/
theorem add_consistent (h : Consistent env s) (addr : CAddress A) (source : A)
    (nTimePenalty now : ℤ) (nRandom : ℕ) :
    Consistent env (s.add_ env addr source nTimePenalty now nRandom).1 := by
  unfold add_
  by_cases hroute : (!env.isRoutable addr.addr) = true
  · rw [if_pos hroute]
    exact h
  rw [if_neg hroute]
  cases hf : s.find addr.addr with
  | none => exact add_fresh env h addr source (mapAddr_of_find h.core.positions hf) _ now
  | some p =>
    obtain ⟨nId, pinfo⟩ := p
    have hm := mapInfo_of_find hf
    dsimp only
    -- every branch keeps the refreshed entry, or gives it one more slot
    split_ifs <;> first
      | exact (add_existing env h hm (by rfl) (by rfl) source now).1
      | exact (add_existing env h hm (by rfl) (by rfl) source now).2 ‹_› ‹_›

end Add

/-! ### The other operations -/

section Others

variable {s : CAddrMan A K}

/-- The invariant does not read `nLastGood`. -/
theorem consistent_nLastGood (h : Consistent env s) (t : ℤ) :
    Consistent env { s with nLastGood := t } :=
  ⟨⟨⟨h.1.1.1, h.1.1.2, h.1.1.3, h.1.1.4, h.1.1.5⟩, h.1.2⟩, h.2, ⟨h.3.1, h.3.2⟩⟩

/-- The invariant does not read the collisions. -/
theorem consistent_mTriedCollisions (h : Consistent env s) (l : List ℤ) :
    Consistent env { s with mTriedCollisions := l } :=
  ⟨⟨⟨h.1.1.1, h.1.1.2, h.1.1.3, h.1.1.4, h.1.1.5⟩, h.1.2⟩, h.2, ⟨h.3.1, h.3.2⟩⟩

/-- `SwapRandom` keeps the invariant. -/
theorem consistent_swapRandom (h : Consistent env s) {p1 p2 : ℕ} (hp1 : p1 < s.vRandom.length)
    (hp2 : p2 < s.vRandom.length) : Consistent env (s.swapRandom p1 p2) := by
  have hg := gaps_swapRandom h.core.positions hp1 hp2
  have hg0 := counts_iff.mp h.counts
  refine ⟨core_swapRandom env h.core hp1 hp2, ?_, counts_iff.mpr ⟨hg.1.trans hg0.1, hg.2.trans hg0.2⟩⟩
  rw [entries_swapRandom h.core.positions hp1 hp2]
  exact h.refRange

/-- What `Good_` does once it has found the entry: refresh it, then perhaps record a collision or
move it to the tried table. -/
theorem good_found (h : Consistent env s) {nId : ℤ} {info r : CAddrInfo A}
    (hm : s.mapInfo nId = some info) (he : r.tableEntry = info.tableEntry)
    (hpos : r.nRandomPos = info.nRandomPos) :
    Consistent env (s.setInfo nId r) ∧
      (¬r.fInTried = true → Consistent env ((s.setInfo nId r).makeTried env nId)) ∧
      ∀ l, Consistent env { s.setInfo nId r with mTriedCollisions := l } := by
  have h1 := consistent_setInfo env h hm he hpos
  refine ⟨h1, fun hnt => ?_, consistent_mTriedCollisions env h1⟩
  rw [Bool.not_eq_true] at hnt
  exact makeTried_consistent env h1 (Function.update_self _ _ _) hnt

/-- `Good_` keeps the invariant. -/
theorem good_consistent (h : Consistent env s) (addr : CService A) (testBeforeEvict : Bool)
    (nTime : ℤ) (nRnd : ℕ) : Consistent env (s.good_ env addr testBeforeEvict nTime nRnd) := by
  have h0 := consistent_nLastGood env h nTime
  unfold good_
  dsimp only
  cases hf : ({ s with nLastGood := nTime } : CAddrMan A K).find addr.addr with
  | none => exact h0
  | some p =>
    obtain ⟨nId, info⟩ := p
    have hm := mapInfo_of_find hf
    dsimp only
    have hg := good_found env h0 hm
      (r := { info with nLastSuccess := nTime, nLastTry := nTime, nAttempts := 0 }) rfl rfl
    split_ifs with hsvc htried hbucket hcoll hlen
    · exact h0
    · exact hg.1
    · exact hg.1
    · exact hg.2.2 _
    · exact hg.1
    · exact hg.2.1 htried

/-- `Attempt_` keeps the invariant. -/
theorem attempt_consistent (h : Consistent env s) (addr : CService A) (fCountFailure : Bool)
    (nTime : ℤ) : Consistent env (s.attempt_ addr fCountFailure nTime) := by
  unfold attempt_
  cases hf : s.find addr.addr with
  | none => exact h
  | some p =>
    obtain ⟨nId, info⟩ := p
    have hm := mapInfo_of_find hf
    dsimp only
    split_ifs <;> first
      | exact h
      | exact consistent_setInfo env h hm (by rfl) (by rfl)

/-- `Connected_` keeps the invariant. -/
theorem connected_consistent (h : Consistent env s) (addr : CService A) (nTime : ℤ) :
    Consistent env (s.connected_ addr nTime) := by
  unfold connected_
  cases hf : s.find addr.addr with
  | none => exact h
  | some p =>
    obtain ⟨nId, info⟩ := p
    have hm := mapInfo_of_find hf
    dsimp only
    split_ifs <;> first
      | exact h
      | exact consistent_setInfo env h hm (by rfl) (by rfl)

/-- `SetServices_` keeps the invariant. -/
theorem setServices_consistent (h : Consistent env s) (addr : CService A) (nServices : ℕ) :
    Consistent env (s.setServices_ addr nServices) := by
  unfold setServices_
  cases hf : s.find addr.addr with
  | none => exact h
  | some p =>
    obtain ⟨nId, info⟩ := p
    have hm := mapInfo_of_find hf
    dsimp only
    split_ifs <;> first
      | exact h
      | exact consistent_setInfo env h hm (by rfl) (by rfl)

/-- The loop of `GetAddr_` keeps the invariant: it only swaps positions of `vRandom`. -/
theorem getAddrLoop_consistent (now : ℤ) (nNodes : ℕ) (rand : ℕ → ℕ) (fuel : ℕ) :
    ∀ (s : CAddrMan A K) (vAddr : List (CAddress A)) (n : ℕ), Consistent env s →
      Consistent env (getAddrLoop now nNodes rand fuel (s, vAddr) n).1 := by
  induction fuel with
  | zero => intro s vAddr n h; exact h
  | succ fuel ih =>
    intro s vAddr n h
    rw [getAddrLoop]
    split_ifs with hstop
    · exact h
    · -- the position drawn is between `n` and the end
      have hn : n < s.vRandom.length := by omega
      have hrnd : rand n % (s.vRandom.length - n) + n < s.vRandom.length := by
        have := Nat.mod_lt (rand n) (show 0 < s.vRandom.length - n by omega)
        omega
      exact ih _ _ _ (consistent_swapRandom env h hn hrnd)

/-- `GetAddr_` keeps the invariant. -/
theorem getAddr_consistent (h : Consistent env s) (maxAddresses maxPct : ℕ) (now : ℤ)
    (rand : ℕ → ℕ) : Consistent env (s.getAddr_ maxAddresses maxPct now rand).1 :=
  getAddrLoop_consistent env now _ rand _ s [] 0 h

/-- One collision of `ResolveCollisions_` keeps the invariant. -/
theorem resolveCollision_consistent (h : Consistent env s) (idNew now : ℤ) (nRnd : ℕ) :
    Consistent env (s.resolveCollision env idNew now nRnd).1 := by
  unfold resolveCollision
  cases s.mapInfo idNew with
  | none => exact h
  | some infoNew =>
    dsimp only
    split_ifs <;> first
      | exact h
      | exact good_consistent env h _ _ _ _

/-- The loop of `ResolveCollisions_` keeps the invariant. -/
theorem resolveCollisionsLoop_consistent (now : ℤ) (rand : ℕ → ℕ) (ids : List ℤ) :
    ∀ (s : CAddrMan A K) (i : ℕ), Consistent env s →
      Consistent env (resolveCollisionsLoop env now rand s i ids).1 := by
  induction ids with
  | nil => intro s i h; exact h
  | cons idNew ids ih =>
    intro s i h
    exact ih _ _ (resolveCollision_consistent env h idNew now (rand i))

/-- `ResolveCollisions_` keeps the invariant. -/
theorem resolveCollisions_consistent (h : Consistent env s) (now : ℤ) (rand : ℕ → ℕ) :
    Consistent env (s.resolveCollisions_ env now rand) :=
  consistent_mTriedCollisions env
    (resolveCollisionsLoop_consistent env now rand s.mTriedCollisions s 0 h) _

/-- `SelectTriedCollision_` keeps the invariant. -/
theorem selectTriedCollision_consistent (h : Consistent env s) (nRnd : ℕ) :
    Consistent env (s.selectTriedCollision_ env nRnd).1 := by
  unfold selectTriedCollision_
  split_ifs
  · exact h
  · dsimp only
    split
    · exact consistent_mTriedCollisions env h _
    · exact h

end Others

/-! ### Runs -/

section Runs

variable {s : CAddrMan A K}


/-- `Clear()` gives a state that satisfies the invariant: everything is empty. -/
theorem clear_consistent (nKey : K) : Consistent env (s.clear nKey) := by
  have hpos : (s.clear nKey).Positions := by
    refine ⟨⟨List.nodup_nil, fun y => ?_, fun y i hy => ?_⟩, fun y info hy => ?_, le_refl 0,
      fun y hy => ?_, fun a y => ?_⟩ <;> simp_all [clear, randomPos]
  refine ⟨⟨hpos, ⟨fun b i hslot => ?_, fun y e hy _ => ?_, fun b i hslot => ?_, fun y e hy => ?_⟩⟩,
    fun y e _ hy _ => ?_, ⟨rfl, rfl⟩⟩
  all_goals simp_all [clear, entries]

/-- Every public call keeps the invariant. -/
theorem step_consistent (h : Consistent env s) (op : AddrManOp A) :
    Consistent env (s.step env op) := by
  cases op with
  | add addr source nTimePenalty now nRandom => exact add_consistent env h addr source _ _ _
  | good addr testBeforeEvict nTime nRnd => exact good_consistent env h addr _ _ _
  | attempt addr fCountFailure nTime => exact attempt_consistent env h addr _ _
  | select => exact h
  | getAddr maxAddresses maxPct now rand => exact getAddr_consistent env h _ _ _ _
  | connected addr nTime => exact connected_consistent env h addr _
  | setServices addr nServices => exact setServices_consistent env h addr _
  | resolveCollisions now rand => exact resolveCollisions_consistent env h _ _
  | selectTriedCollision nRnd => exact selectTriedCollision_consistent env h _

/-- Every run of public calls keeps the invariant. -/
theorem run_consistent (h : Consistent env s) (ops : List (AddrManOp A)) :
    Consistent env (s.run env ops) := by
  induction ops generalizing s with
  | nil => exact h
  | cons op ops ih => exact ih (step_consistent env h op)

/-- A tried entry sits in exactly one slot of the tried table. -/
theorem Core.tried_slots (h : Core env s) {x : ℤ} {e : TableEntry A} (hx : s.entries x = some e)
    (ht : e.fInTried = true) :
    (Finset.univ.filter fun p : Fin addrmanTriedBucketCount × Fin addrmanBucketSize =>
      s.vvTried p.1 p.2 = x).card = 1 := by
  rw [Finset.card_eq_one]
  refine ⟨triedSlot env s.nKey e.service, Finset.ext fun p => ?_⟩
  simp only [Finset.mem_filter, Finset.mem_univ, true_and, Finset.mem_singleton]
  constructor
  · -- any slot holding `x` is the slot of its service
    intro hp
    obtain ⟨e', he', -, hslot⟩ := h.tables.tried_slot p.1 p.2 (hp ▸ h.id_ne x e hx)
    rw [hp, hx, Option.some_inj] at he'
    rw [he', hslot]
  · rintro rfl
    exact h.tables.tried_mem x e hx ht

/-- The slots of the new table holding an entry are one for each bucket that holds it. -/
theorem Core.new_slots (h : Core env s) {x : ℤ} {e : TableEntry A} (hx : s.entries x = some e) :
    ((Finset.univ.filter fun p : Fin addrmanNewBucketCount × Fin addrmanBucketSize =>
      s.vvNew p.1 p.2 = x).card : ℤ) = e.nRefCount := by
  have himage : (Finset.univ.filter fun p : Fin addrmanNewBucketCount × Fin addrmanBucketSize =>
      s.vvNew p.1 p.2 = x) = (Finset.univ.filter fun b =>
        s.vvNew b (newPos env s.nKey e.service b) = x).image
        fun b => (b, newPos env s.nKey e.service b) := by
    ext p
    simp only [Finset.mem_filter, Finset.mem_univ, true_and, Finset.mem_image]
    constructor
    · intro hp
      obtain ⟨e', he', -, hpos⟩ := h.tables.new_slot p.1 p.2 (hp ▸ h.id_ne x e hx)
      rw [hp, hx, Option.some_inj] at he'
      subst he'
      exact ⟨p.1, by rw [hpos]; exact hp, by rw [hpos]⟩
    · rintro ⟨b, hb, rfl⟩
      exact hb
  rw [himage, Finset.card_image_of_injective _ fun b b' hbb => (Prod.ext_iff.mp hbb).1,
    h.tables.refCount_eq x e hx]
  rfl

/-- From `Clear()`, after every run of `Add_`, `Good_`, `Attempt_`, `Select_`, `GetAddr_`,
`Connected_`, `SetServices_`, `ResolveCollisions_` and `SelectTriedCollision_`, the structural
checks of `Check_` hold: the invariant, each tried entry in exactly one tried slot, and each new
entry's reference count the number of its slots in the new table. -/
theorem run_clear_check (s : CAddrMan A K) (nKey : K) (ops : List (AddrManOp A)) :
    Consistent env ((s.clear nKey).run env ops) ∧
      (∀ x e, ((s.clear nKey).run env ops).entries x = some e → e.fInTried = true →
        (Finset.univ.filter fun p : Fin addrmanTriedBucketCount × Fin addrmanBucketSize =>
          ((s.clear nKey).run env ops).vvTried p.1 p.2 = x).card = 1) ∧
      (∀ x e, ((s.clear nKey).run env ops).entries x = some e → e.fInTried = false →
        ((Finset.univ.filter fun p : Fin addrmanNewBucketCount × Fin addrmanBucketSize =>
          ((s.clear nKey).run env ops).vvNew p.1 p.2 = x).card : ℤ) = e.nRefCount) := by
  have h := run_consistent env (clear_consistent env nKey (s := s)) ops
  exact ⟨h, fun x e hx ht => h.core.tried_slots env hx ht, fun x e hx _ => h.core.new_slots env hx⟩

end Runs

end CAddrMan

end BitcoinCash
