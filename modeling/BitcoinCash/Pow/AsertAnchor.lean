import BitcoinCash.Chain.SkipList
import BitcoinCash.Data.Median

/-!
# The ASERT anchor block

ASERT schedules difficulty from an anchor: the first block for which `IsAxionEnabled` holds, the
last one mined under the old rules. `GetASERTAnchorBlock` finds it by walking back from a block,
along `pskip` while that is still enabled and along `pprev` otherwise, and keeps what it found in
the global `cachedAnchor`, returned as it is the next time it is an ancestor of the block asked.

`IsAxionEnabled` compares either the height with a checkpointed anchor or the median time past
with the activation time. The median of a window of up to eleven times does not drop when the
window moves on by a block whose time is above the median, as the time-too-old rule of
`ContextualCheckBlockHeader` requires (`getMedianTimePast_le_of_pprev`); so along a chain that
obeys the rule, `IsAxionEnabled` is monotone (`monotoneAlong_of_timeRule`). On such a chain, the
walk ends at an anchor point, an enabled block above one that is not (`getASERTAnchorWalk_spec`),
and there is only one (`isAnchorPoint_unique`); the cache only ever holds anchor points
(`CacheReachable.isAnchorPoint`), so that a cache hit is the same block.

Blocks are indexes of the skip list (`Chain.CBlockIndex`), whose block `phashBlock` gives its
`nTime` through `blockTime`.
-/

namespace BitcoinCash

open Chain CBlockIndex

variable {β : Type}

namespace Chain.CBlockIndex

/-- `phashBlock`: the block of the index. -/
def phashBlock : CBlockIndex β → β
  | mk phashBlock _ _ _ => phashBlock


/-- `CBlockIndex::nMedianTimeSpan`. -/
def nMedianTimeSpan : ℕ := 11

end Chain.CBlockIndex

/-- The times the loop of `GetMedianTimePast` collects, at most `n` of them: that of the index and
those of its ancestors along `pprev`, newest first (the sort that follows makes the order
irrelevant). -/
def medianTimes (blockTime : β → ℤ) : ℕ → BlockPtr β → List ℤ
  | 0, _ => []
  | _ + 1, .null => []
  | n + 1, .ptr pindex => blockTime pindex.phashBlock :: medianTimes blockTime n pindex.pprev

/-- `CBlockIndex::GetMedianTimePast()`: the median of the times of the index and of up to ten of
its ancestors. -/
def getMedianTimePast (blockTime : β → ℤ) (pindex : CBlockIndex β) : ℤ :=
  Median.median 0 (medianTimes blockTime Chain.CBlockIndex.nMedianTimeSpan (.ptr pindex))

/-- What `IsAxionEnabled` reads of the consensus parameters: the height of the checkpointed anchor
block, `asertAnchorParams->nHeight` when there is one, and the activation time,
`-axionactivationtime` or its default `axionActivationTime`. -/
structure AxionParams where
  asertAnchorHeight : Option ℕ
  axionActivationTime : ℤ

/-- `IsAxionEnabled(params, pindexPrev)`. -/
def isAxionEnabled (params : AxionParams) (blockTime : β → ℤ) : BlockPtr β → Bool
  | .null => false
  | .ptr pindexPrev =>
    match params.asertAnchorHeight with
    -- This chain has a checkpointed anchor block, do simple height check
    | some nHeight => decide (pindexPrev.nHeight ≥ nHeight)
    -- Otherwise, do the MTP check
    | none => decide (getMedianTimePast blockTime pindexPrev ≥ params.axionActivationTime)

section MedianTimePast

/-- Collecting one more time adds at most one, at the old end of the window. -/
theorem medianTimes_prefix (blockTime : β → ℤ) (n : ℕ) (p : BlockPtr β) :
    medianTimes blockTime n p <+: medianTimes blockTime (n + 1) p ∧
      (medianTimes blockTime (n + 1) p).length ≤ (medianTimes blockTime n p).length + 1 := by
  induction n generalizing p with
  | zero => cases p <;> simp [medianTimes]
  | succ n ih =>
    cases p with
    | null => simp [medianTimes]
    | ptr b =>
      obtain ⟨hpre, hlen⟩ := ih b.pprev
      rw [medianTimes, medianTimes, List.length_cons, List.length_cons]
      exact ⟨List.cons_prefix_cons.mpr ⟨rfl, hpre⟩, by omega⟩

/-- The median time past does not drop from a block to a child whose time is above it: the child's
window is the parent's, without its oldest time, and with a time above its median. -/
theorem getMedianTimePast_le_of_pprev {blockTime : β → ℤ} {c p : CBlockIndex β}
    (hp : c.pprev = .ptr p) (htime : getMedianTimePast blockTime p < blockTime c.phashBlock) :
    getMedianTimePast blockTime p ≤ getMedianTimePast blockTime c := by
  obtain ⟨hpre, hlen⟩ := medianTimes_prefix blockTime 10 (.ptr p)
  have hc : medianTimes blockTime Chain.CBlockIndex.nMedianTimeSpan (.ptr c) =
      blockTime c.phashBlock :: medianTimes blockTime 10 (.ptr p) := by
    rw [Chain.CBlockIndex.nMedianTimeSpan, medianTimes, hp]
  rw [getMedianTimePast, getMedianTimePast, hc]
  exact Median.median_le_median_cons 0 (by simp [medianTimes]) hpre.sublist hlen htime.le

/-- Every block on the chain of `pindex` above the genesis block passes the time-too-old rule of
`ContextualCheckBlockHeader`: its time is above the median time past of its predecessor. -/
def TimeRule (blockTime : β → ℤ) (pindex : CBlockIndex β) : Prop :=
  ∀ e p, IsAncestor e pindex → e.pprev = .ptr p →
    getMedianTimePast blockTime p < blockTime e.phashBlock

/-- Along a chain that obeys the time rule, the median time past never drops; the induction is on
the number of steps from `e` down to `d`. -/
theorem getMedianTimePast_mono {blockTime : β → ℤ} {pindex : CBlockIndex β}
    (ht : TimeRule blockTime pindex) {d e : CBlockIndex β} (hd : IsAncestor d e)
    (he : IsAncestor e pindex) : getMedianTimePast blockTime d ≤ getMedianTimePast blockTime e := by
  obtain ⟨n, hn⟩ := hd
  induction n generalizing e with
  | zero =>
    cases hn
    exact le_rfl
  | succ n ih =>
    cases hp : e.pprev with
    | null => simp [pprevIter, hp] at hn
    | ptr p =>
      rw [pprevIter_succ_of_pprev hp] at hn
      have hpanc : IsAncestor p pindex :=
        IsAncestor.trans ⟨1, by rw [pprevIter_succ_of_pprev hp]; rfl⟩ he
      exact (ih hpanc hn).trans (getMedianTimePast_le_of_pprev hp (ht e p he hp))

end MedianTimePast

section Anchor

variable (params : AxionParams) (blockTime : β → ℤ)

/-- The slow path of `GetASERTAnchorBlock`: while there is a predecessor, skip back to `pskip` if
it is enabled, stop if `pprev` is not, and step back to `pprev` otherwise. -/
def getASERTAnchorWalk (anchor : CBlockIndex β) : CBlockIndex β :=
  match _hprev : anchor.pprev with
  | .null => anchor
  | .ptr pprev =>
    match _hskip : anchor.pskip with
    | .ptr pskip =>
      if isAxionEnabled params blockTime (.ptr pskip) then getASERTAnchorWalk pskip
      else if !isAxionEnabled params blockTime (.ptr pprev) then anchor
      else getASERTAnchorWalk pprev
    -- `IsAxionEnabled(params, nullptr)` is false: no skip
    | .null =>
      if !isAxionEnabled params blockTime (.ptr pprev) then anchor
      else getASERTAnchorWalk pprev
termination_by sizeOf anchor
decreasing_by
  · exact sizeOf_lt_of_pskip _hskip
  · exact sizeOf_lt_of_pprev _hprev
  · exact sizeOf_lt_of_pprev _hprev

/-- `GetASERTAnchorBlock(pindex, params)`, with the value of `cachedAnchor` before the call; returns
the anchor and the value of `cachedAnchor` after it. The cached anchor is returned when
`GetAncestor` at its height is the cached anchor; otherwise the walk finds the anchor, which then
overwrites the cache. -/
def getASERTAnchorBlock [DecidableEq β] (cachedAnchor : BlockPtr β) (pindex : CBlockIndex β) :
    Except String (CBlockIndex β × BlockPtr β) :=
  let anchor := getASERTAnchorWalk params blockTime pindex
  match cachedAnchor with
  | .ptr lastCached => do
    let ancestor ← pindex.getAncestor lastCached.nHeight
    pure (if ancestor = .ptr lastCached then (lastCached, cachedAnchor) else (anchor, .ptr anchor))
  | .null => pure (anchor, .ptr anchor)

/-- An anchor point: an enabled block that is the genesis block or above one that is not. -/
def IsAnchorPoint (A : CBlockIndex β) : Prop :=
  isAxionEnabled params blockTime (.ptr A) = true ∧ isAxionEnabled params blockTime A.pprev = false

/-- `IsAxionEnabled` is monotone along the chain of `pindex`: once enabled, it stays enabled on the
way up. -/
def MonotoneAlong (pindex : CBlockIndex β) : Prop :=
  ∀ d e, IsAncestor d e → IsAncestor e pindex →
    isAxionEnabled params blockTime (.ptr d) = true → isAxionEnabled params blockTime (.ptr e) = true

/-- The values `cachedAnchor` takes: null at first and after `ResetASERTAnchorBlockCache`, then
what each call of `GetASERTAnchorBlock` leaves, on an enabled block of the node database along
whose chain `IsAxionEnabled` is monotone. -/
inductive CacheReachable [DecidableEq β] : BlockPtr β → Prop
  | null : CacheReachable .null
  | call {cachedAnchor cachedAnchor' : BlockPtr β} {pindex A : CBlockIndex β} :
    CacheReachable cachedAnchor → Built pindex → MonotoneAlong params blockTime pindex →
      isAxionEnabled params blockTime (.ptr pindex) = true →
      getASERTAnchorBlock params blockTime cachedAnchor pindex = .ok (A, cachedAnchor') →
      CacheReachable cachedAnchor'

variable {params blockTime}

/-- The walk ends at an anchor point below where it starts. The induction follows the walk: each
step moves to `pskip` or `pprev`, an ancestor on the chain, only when that is enabled, and stops
only at an enabled block whose predecessor is not, or that has none. -/
theorem getASERTAnchorWalk_spec {anchor : CBlockIndex β} (hchain : SkipChain anchor)
    (henabled : isAxionEnabled params blockTime (.ptr anchor) = true) :
    IsAncestor (getASERTAnchorWalk params blockTime anchor) anchor ∧
      IsAnchorPoint params blockTime (getASERTAnchorWalk params blockTime anchor) := by
  fun_induction getASERTAnchorWalk params blockTime anchor with
  | case1 anchor hprev =>
    exact ⟨.refl anchor, henabled, by rw [hprev]; rfl⟩
  | case2 anchor pprev hprev pskip hskip hsk ih =>
    have hpos : 0 < anchor.nHeight := (hchain.of_pprev hprev).2 ▸ Nat.succ_pos _
    have hanc : IsAncestor pskip anchor := ⟨_, (hchain.pskip_eq hpos).symm.trans hskip⟩
    obtain ⟨hwalk, hpoint⟩ := ih (hchain.of_isAncestor hanc) hsk
    exact ⟨hwalk.trans hanc, hpoint⟩
  | case3 anchor pprev hprev pskip hskip hsk hpr =>
    exact ⟨.refl anchor, henabled, by rw [hprev]; simpa using hpr⟩
  | case4 anchor pprev hprev pskip hskip hsk hpr ih =>
    have hanc : IsAncestor pprev anchor := ⟨1, by rw [pprevIter_succ_of_pprev hprev]; rfl⟩
    obtain ⟨hwalk, hpoint⟩ := ih (hchain.of_pprev hprev).1 (by simpa using hpr)
    exact ⟨hwalk.trans hanc, hpoint⟩
  | case5 anchor pprev hprev hskip hpr =>
    exact ⟨.refl anchor, henabled, by rw [hprev]; simpa using hpr⟩
  | case6 anchor pprev hprev hskip hpr ih =>
    have hanc : IsAncestor pprev anchor := ⟨1, by rw [pprevIter_succ_of_pprev hprev]; rfl⟩
    obtain ⟨hwalk, hpoint⟩ := ih (hchain.of_pprev hprev).1 (by simpa using hpr)
    exact ⟨hwalk.trans hanc, hpoint⟩

/-- Along a chain on which `IsAxionEnabled` is monotone there is one anchor point: a lower one
would make the predecessor of a higher one enabled. -/
theorem isAnchorPoint_unique {pindex A A' : CBlockIndex β} (hchain : SkipChain pindex)
    (hmono : MonotoneAlong params blockTime pindex) (hA : IsAncestor A pindex)
    (hA' : IsAncestor A' pindex) (hpA : IsAnchorPoint params blockTime A)
    (hpA' : IsAnchorPoint params blockTime A') : A = A' := by
  -- an anchor point strictly below another is impossible
  have hlt : ∀ {A A' : CBlockIndex β}, IsAncestor A pindex → IsAncestor A' pindex →
      IsAnchorPoint params blockTime A → IsAnchorPoint params blockTime A' →
      ¬A.nHeight < A'.nHeight := by
    intro A A' hA hA' hpA hpA' hlt
    have hchainA' := hchain.of_isAncestor hA'
    obtain ⟨p, hp, -, hph⟩ := hchainA'.pprev_eq (by omega)
    have hpanc : IsAncestor p pindex :=
      IsAncestor.trans ⟨1, by rw [pprevIter_succ_of_pprev hp]; rfl⟩ hA'
    have hAp : IsAncestor A p := hchain.isAncestor_of_le hpanc hA (by omega)
    have henabled := hmono A p hAp hpanc hpA.1
    have hnot := hpA'.2
    rw [hp] at hnot
    rw [henabled] at hnot
    exact Bool.noConfusion hnot
  have hle : A.nHeight = A'.nHeight := by
    have h1 := hlt hA hA' hpA hpA'
    have h2 := hlt hA' hA hpA' hpA
    omega
  exact hchain.isAncestor_unique hA hA' hle

/-- What a call of `GetASERTAnchorBlock` can do: return the cached anchor, when `GetAncestor` at
its height is the cached anchor itself, or return and cache the anchor the walk finds. -/
theorem getASERTAnchorBlock_eq_ok [DecidableEq β] {cachedAnchor cachedAnchor' : BlockPtr β}
    {pindex A : CBlockIndex β}
    (h : getASERTAnchorBlock params blockTime cachedAnchor pindex = .ok (A, cachedAnchor')) :
    (cachedAnchor = .ptr A ∧ pindex.getAncestor A.nHeight = .ok (.ptr A) ∧
        cachedAnchor' = cachedAnchor) ∨
      (A = getASERTAnchorWalk params blockTime pindex ∧ cachedAnchor' = .ptr A) := by
  unfold getASERTAnchorBlock at h
  cases cachedAnchor with
  | null =>
    cases h
    exact .inr ⟨rfl, rfl⟩
  | ptr lastCached =>
    obtain ⟨ancestor, hanc, h⟩ := Except.bind_eq_ok.mp h
    rw [Except.pure_eq_ok, Except.ok.injEq] at h
    split_ifs at h with hhit <;> cases h
    · exact .inl ⟨rfl, hanc.trans (congrArg Except.ok hhit), rfl⟩
    · exact .inr ⟨rfl, rfl⟩

/-- The values of the cache are null or anchor points. -/
theorem CacheReachable.isAnchorPoint [DecidableEq β] {cachedAnchor : BlockPtr β}
    (h : CacheReachable params blockTime cachedAnchor) :
    cachedAnchor = .null ∨ ∃ A, cachedAnchor = .ptr A ∧ IsAnchorPoint params blockTime A := by
  induction h with
  | null => exact .inl rfl
  | call _ hbuilt _ henabled hcall ih =>
    rcases getASERTAnchorBlock_eq_ok hcall with ⟨hcached, -, rfl⟩ | ⟨rfl, rfl⟩
    · -- a hit leaves the cache as it was
      exact ih
    · exact .inr ⟨_, rfl, (getASERTAnchorWalk_spec (skipChain_of_built hbuilt) henabled).2⟩

/-- On a skip list, `GetAncestor` returning an index returns an ancestor. -/
theorem isAncestor_of_getAncestor {pindex d : CBlockIndex β} (hchain : SkipChain pindex) {k : ℤ}
    (h : pindex.getAncestor k = .ok (.ptr d)) : IsAncestor d pindex := by
  rw [getAncestor_eq hchain, Except.ok.injEq] at h
  split_ifs at h
  exact ⟨_, h⟩

/-- On a skip list, `GetASERTAnchorBlock` does not trip the assert of `GetAncestor`. -/
theorem getASERTAnchorBlock_ok [DecidableEq β] (cachedAnchor : BlockPtr β)
    {pindex : CBlockIndex β} (hchain : SkipChain pindex) :
    ∃ r, getASERTAnchorBlock params blockTime cachedAnchor pindex = .ok r := by
  unfold getASERTAnchorBlock
  cases cachedAnchor with
  | null => exact ⟨_, rfl⟩
  | ptr lastCached =>
    dsimp only
    rw [getAncestor_eq hchain, Except.bind_ok']
    exact ⟨_, rfl⟩

/-- Along a chain of the node database that obeys the time rule, `IsAxionEnabled` is monotone:
heights grow up the chain, and so does the median time past. -/
theorem monotoneAlong_of_timeRule (params : AxionParams) {blockTime : β → ℤ}
    {pindex : CBlockIndex β} (hchain : SkipChain pindex) (ht : TimeRule blockTime pindex) :
    MonotoneAlong params blockTime pindex := by
  intro d e hde he hd
  simp only [isAxionEnabled] at hd ⊢
  cases hparams : params.asertAnchorHeight with
  | some nHeight =>
    simp only [hparams, decide_eq_true_eq] at hd ⊢
    exact le_trans hd ((hchain.of_isAncestor he).nHeight_le_of_isAncestor hde)
  | none =>
    simp only [hparams, decide_eq_true_eq] at hd ⊢
    exact le_trans hd (getMedianTimePast_mono ht hde he)

end Anchor

/-- The ASERT anchor is the first Axion-enabled block of the chain, whatever the cache holds.
(a) The median time past does not drop from a block to a child that passes the time-too-old rule,
so that along a chain of the node database that obeys the rule `IsAxionEnabled` is monotone.
(b) Along a chain on which it is monotone, for every value the cache can take,
`GetASERTAnchorBlock` of an enabled block returns, without tripping the assert of `GetAncestor`,
an ancestor that is enabled and is the genesis block or above one that is not, and it is the only
such ancestor. -/
theorem getASERTAnchorBlock_first_enabled [DecidableEq β] (params : AxionParams)
    (blockTime : β → ℤ) :
    (∀ c p : CBlockIndex β, c.pprev = .ptr p →
      getMedianTimePast blockTime p < blockTime c.phashBlock →
      getMedianTimePast blockTime p ≤ getMedianTimePast blockTime c) ∧
    (∀ pindex : CBlockIndex β, Built pindex → TimeRule blockTime pindex →
      MonotoneAlong params blockTime pindex) ∧
    ∀ (cachedAnchor : BlockPtr β) (pindex : CBlockIndex β),
      CacheReachable params blockTime cachedAnchor → Built pindex →
      MonotoneAlong params blockTime pindex → isAxionEnabled params blockTime (.ptr pindex) = true →
      ∃ A cachedAnchor', getASERTAnchorBlock params blockTime cachedAnchor pindex =
          .ok (A, cachedAnchor') ∧ IsAncestor A pindex ∧ IsAnchorPoint params blockTime A ∧
        ∀ A', IsAncestor A' pindex → IsAnchorPoint params blockTime A' → A' = A := by
  refine ⟨fun c p hp htime => getMedianTimePast_le_of_pprev hp htime,
    fun pindex hbuilt ht => monotoneAlong_of_timeRule params (skipChain_of_built hbuilt) ht,
    fun cachedAnchor pindex hcache hbuilt hmono henabled => ?_⟩
  have hchain := skipChain_of_built hbuilt
  obtain ⟨⟨A, cachedAnchor'⟩, hcall⟩ := getASERTAnchorBlock_ok cachedAnchor hchain
  -- the block returned is an anchor point below `pindex`, by a cache hit or by the walk
  have hA : IsAncestor A pindex ∧ IsAnchorPoint params blockTime A := by
    rcases getASERTAnchorBlock_eq_ok hcall with ⟨rfl, hanc, -⟩ | ⟨rfl, -⟩
    · obtain hnull | ⟨B, hB, hpoint⟩ := hcache.isAnchorPoint
      · cases hnull
      · cases hB
        exact ⟨isAncestor_of_getAncestor hchain hanc, hpoint⟩
    · exact getASERTAnchorWalk_spec hchain henabled
  exact ⟨A, cachedAnchor', hcall, hA.1, hA.2,
    fun A' hA' hpA' => isAnchorPoint_unique hchain hmono hA' hA.1 hpA' hA.2⟩

/-- A chain of fifteen blocks with a checkpointed anchor height of `5`: a first call at the tip
walks down along `pskip` from `14` to `12` and `8`, and a second one, at `12`, starts from the
cache the first left. -/
theorem getASERTAnchorBlock_first_enabled_tower :
    let params : AxionParams := ⟨some 5, 0⟩
    let blockTime : ℕ → ℤ := fun _ => 0
    let cachedAnchor : BlockPtr ℕ := .ptr (getASERTAnchorWalk params blockTime (tower 14))
    (CacheReachable params blockTime cachedAnchor ∧ Built (tower 12) ∧
      MonotoneAlong params blockTime (tower 12) ∧
      isAxionEnabled params blockTime (.ptr (tower 12)) = true) ∧
    ∃ A cachedAnchor', getASERTAnchorBlock params blockTime cachedAnchor (tower 12) =
        .ok (A, cachedAnchor') ∧ IsAncestor A (tower 12) ∧ IsAnchorPoint params blockTime A ∧
      ∀ A', IsAncestor A' (tower 12) → IsAnchorPoint params blockTime A' → A' = A :=
  -- with a checkpointed height, `IsAxionEnabled` is monotone along every chain
  have hmono : ∀ n, MonotoneAlong ⟨some 5, 0⟩ (fun _ : ℕ => (0 : ℤ)) (tower n) :=
    fun n d e hde he hd => by
      simp only [isAxionEnabled, decide_eq_true_eq] at hd ⊢
      exact hd.trans
        (((skipChain_of_built (built_tower n).1).of_isAncestor he).nHeight_le_of_isAncestor hde)
  have henabled : ∀ n, 5 ≤ n →
      isAxionEnabled ⟨some 5, 0⟩ (fun _ : ℕ => (0 : ℤ)) (.ptr (tower n)) = true := fun n hn => by
    simp only [isAxionEnabled, decide_eq_true_eq, (built_tower n).2]
    exact hn
  have hcache := CacheReachable.call .null (built_tower 14).1 (hmono 14) (henabled 14 (by omega)) rfl
  ⟨⟨hcache, (built_tower 12).1, hmono 12, henabled 12 (by omega)⟩,
    (getASERTAnchorBlock_first_enabled ⟨some 5, 0⟩ (fun _ : ℕ => 0)).2.2 _ _ hcache
      (built_tower 12).1 (hmono 12) (henabled 12 (by omega))⟩

end BitcoinCash
