import Mathlib.Data.Nat.Bitwise
import BitcoinCash.Control.InputLoop

/-!
# The skip list of the block index

Every `CBlockIndex` (`chain.cpp`) keeps, besides `pprev`, a pointer `pskip` to an ancestor at the
height `GetSkipHeight(nHeight)`, set by `BuildSkip` when the index is created. `GetAncestor` walks
down with `pskip` whenever that does not overshoot, and `LastCommonAncestor` walks two indexes
down together, skipping while their skips differ.

A block index is modelled by its value: its block hash, which tells two blocks apart, its height
and its two pointers, each null or an index. Pointer equality is equality of these values.
`Built` says how the node database creates the indexes: a genesis index of height `0`, and a
child of an index one higher, with `pskip` set by `BuildSkip`. `SkipChain` is what `pskip` is for:
the ancestor at the skip height, reached along `pprev`.
-/

namespace BitcoinCash

namespace Chain

mutual

/-- `CBlockIndex`, as the skip list reads it: the hash of its block, `nHeight`, `pprev` and
`pskip`. -/
inductive CBlockIndex (β : Type) where
  | mk (phashBlock : β) (nHeight : ℕ) (pprev : BlockPtr β) (pskip : BlockPtr β)
  deriving DecidableEq

/-- A `CBlockIndex *`: `nullptr` or an index. -/
inductive BlockPtr (β : Type) where
  | null
  | ptr (pindex : CBlockIndex β)
  deriving DecidableEq

end

variable {β : Type}

namespace CBlockIndex

/-- `nHeight`. -/
def nHeight : CBlockIndex β → ℕ
  | mk _ nHeight _ _ => nHeight

/-- `pprev`. -/
def pprev : CBlockIndex β → BlockPtr β
  | mk _ _ pprev _ => pprev

/-- `pskip`. -/
def pskip : CBlockIndex β → BlockPtr β
  | mk _ _ _ pskip => pskip

@[simp] theorem nHeight_mk (h : β) (n : ℕ) (p s : BlockPtr β) : (mk h n p s).nHeight = n := rfl

@[simp] theorem pprev_mk (h : β) (n : ℕ) (p s : BlockPtr β) : (mk h n p s).pprev = p := rfl

@[simp] theorem pskip_mk (h : β) (n : ℕ) (p s : BlockPtr β) : (mk h n p s).pskip = s := rfl

theorem sizeOf_lt_of_pprev {b p : CBlockIndex β} (h : b.pprev = .ptr p) :
    sizeOf p < sizeOf b := by
  cases b
  cases h
  simp only [CBlockIndex.mk.sizeOf_spec, BlockPtr.ptr.sizeOf_spec]
  omega

theorem sizeOf_lt_of_pskip {b s : CBlockIndex β} (h : b.pskip = .ptr s) :
    sizeOf s < sizeOf b := by
  cases b
  cases h
  simp only [CBlockIndex.mk.sizeOf_spec, BlockPtr.ptr.sizeOf_spec]
  omega

theorem sizeOf_pprev_lt (b : CBlockIndex β) : sizeOf b.pprev < sizeOf (BlockPtr.ptr b) := by
  cases b
  simp only [pprev_mk, CBlockIndex.mk.sizeOf_spec, BlockPtr.ptr.sizeOf_spec]
  omega

end CBlockIndex

/-! ### Skip heights -/

/-- `InvertLowestOne`: clear the lowest set bit. -/
def invertLowestOne (n : ℕ) : ℕ := n &&& (n - 1)

/-- `GetSkipHeight`: the height `pskip` jumps back to. -/
def getSkipHeight (height : ℕ) : ℕ :=
  if height < 2 then 0
  else if height &&& 1 ≠ 0 then invertLowestOne (invertLowestOne (height - 1)) + 1
  else invertLowestOne height

theorem invertLowestOne_le (n : ℕ) : invertLowestOne n ≤ n := Nat.and_le_left

theorem invertLowestOne_le_pred (n : ℕ) : invertLowestOne n ≤ n - 1 := Nat.and_le_right

/-- The skip height of a positive height is lower: `pskip` always jumps back. -/
theorem getSkipHeight_lt {height : ℕ} (h : 1 ≤ height) : getSkipHeight height < height := by
  unfold getSkipHeight
  split_ifs with h2 hodd
  · omega
  · -- odd: both inversions clear a bit of `height - 1`, whose lowest bit is clear
    have h1 := invertLowestOne_le (invertLowestOne (height - 1))
    have h2 := invertLowestOne_le_pred (height - 1)
    omega
  · have := invertLowestOne_le_pred height
    omega

/-! ### `GetAncestor` and `BuildSkip` -/

namespace CBlockIndex

/-- The `while (heightWalk > height)` loop of `GetAncestor`: follow `pskip` when it lands at the
target, or above it and `pprev->pskip` is no better; otherwise follow `pprev`, asserting it. -/
def getAncestorLoop (height : ℕ) (pindexWalk : CBlockIndex β) (heightWalk : ℕ) :
    Except String (CBlockIndex β) :=
  if heightWalk > height then
    let heightSkip := getSkipHeight heightWalk
    let heightSkipPrev := getSkipHeight (heightWalk - 1)
    -- `heightSkipPrev < heightSkip - 2` is a comparison of `int`s
    match pindexWalk.pskip, decide (heightSkip = height ∨ (heightSkip > height ∧
        ¬((heightSkipPrev : ℤ) < heightSkip - 2 ∧ heightSkipPrev ≥ height))) with
    | .ptr pskip, true => getAncestorLoop height pskip heightSkip
    | _, _ =>
      match pindexWalk.pprev with
      | .ptr pprev => getAncestorLoop height pprev (heightWalk - 1)
      | .null => throw "assert(pindexWalk->pprev)"
  else pure pindexWalk
termination_by heightWalk
decreasing_by
  · exact getSkipHeight_lt (by omega)
  · omega

/-- `CBlockIndex::GetAncestor(height)`: null outside `[0, nHeight]`. -/
def getAncestor (b : CBlockIndex β) (height : ℤ) : Except String (BlockPtr β) :=
  if height > b.nHeight ∨ height < 0 then pure .null
  else BlockPtr.ptr <$> getAncestorLoop height.toNat b b.nHeight

/-- The index reached by following `pprev` `n` times, null past the genesis index. -/
def pprevIter (b : CBlockIndex β) : ℕ → BlockPtr β
  | 0 => .ptr b
  | n + 1 =>
    match b.pprev with
    | .ptr p => pprevIter p n
    | .null => .null

end CBlockIndex

open CBlockIndex

/-- The indexes the node database creates: a genesis index of height `0` without pointers, and the
child of an index, one higher, whose `pskip` `BuildSkip` sets to
`pprev->GetAncestor(GetSkipHeight(nHeight))`. -/
inductive Built : CBlockIndex β → Prop
  | genesis (phashBlock : β) : Built (.mk phashBlock 0 .null .null)
  | child {pprev : CBlockIndex β} {pskip : BlockPtr β} (phashBlock : β) :
    Built pprev → pprev.getAncestor (getSkipHeight (pprev.nHeight + 1)) = .ok pskip →
      Built (.mk phashBlock (pprev.nHeight + 1) (.ptr pprev) pskip)

/-- The intended skip list: along the chain, every index is one higher than its predecessor, the
chain ends at a genesis index of height `0`, and `pskip` is the ancestor at the skip height. -/
inductive SkipChain : CBlockIndex β → Prop
  | genesis (phashBlock : β) : SkipChain (.mk phashBlock 0 .null .null)
  | child {pprev : CBlockIndex β} (phashBlock : β) : SkipChain pprev →
      SkipChain (.mk phashBlock (pprev.nHeight + 1) (.ptr pprev)
        (pprev.pprevIter (pprev.nHeight - getSkipHeight (pprev.nHeight + 1))))

/-! ### The chain of an index -/

namespace CBlockIndex

@[simp] theorem pprevIter_zero (b : CBlockIndex β) : b.pprevIter 0 = .ptr b := rfl

theorem pprevIter_succ_of_pprev {b p : CBlockIndex β} (h : b.pprev = .ptr p) (n : ℕ) :
    b.pprevIter (n + 1) = p.pprevIter n := by
  simp [pprevIter, h]

/-- Following `pprev` `m + n` times is following it `m` times, then `n` times. -/
theorem pprevIter_add_of_eq {b c : CBlockIndex β} {m : ℕ} (h : b.pprevIter m = .ptr c) (n : ℕ) :
    b.pprevIter (m + n) = c.pprevIter n := by
  induction m generalizing b with
  | zero =>
    cases h
    rw [Nat.zero_add]
  | succ m ih =>
    cases hb : b.pprev with
    | null => simp [pprevIter, hb] at h
    | ptr p =>
      rw [pprevIter_succ_of_pprev hb] at h
      rw [Nat.add_right_comm, pprevIter_succ_of_pprev hb]
      exact ih h

end CBlockIndex

namespace SkipChain

variable {b : CBlockIndex β}

/-- An index above the genesis index has a predecessor one lower on the same chain. -/
theorem pprev_eq (hb : SkipChain b) (h : 0 < b.nHeight) :
    ∃ p, b.pprev = .ptr p ∧ SkipChain p ∧ p.nHeight + 1 = b.nHeight := by
  cases hb with
  | genesis => simp at h
  | @child pprev _ hp => exact ⟨pprev, rfl, hp, rfl⟩

/-- Its `pskip` is its ancestor at the skip height. -/
theorem pskip_eq (hb : SkipChain b) (h : 0 < b.nHeight) :
    b.pskip = b.pprevIter (b.nHeight - getSkipHeight b.nHeight) := by
  cases hb with
  | genesis => simp at h
  | @child pprev _ hp =>
    have hlt := getSkipHeight_lt (Nat.le_add_left 1 pprev.nHeight)
    simp only [pskip_mk, nHeight_mk]
    rw [show pprev.nHeight + 1 - getSkipHeight (pprev.nHeight + 1) =
      pprev.nHeight - getSkipHeight (pprev.nHeight + 1) + 1 by omega]
    rfl

/-- Below an index of a `SkipChain` lie `nHeight` more, one at each lower height. -/
theorem pprevIter_eq (hb : SkipChain b) {n : ℕ} (hn : n ≤ b.nHeight) :
    ∃ c, b.pprevIter n = .ptr c ∧ SkipChain c ∧ c.nHeight = b.nHeight - n := by
  induction n generalizing b with
  | zero => exact ⟨b, rfl, hb, rfl⟩
  | succ n ih =>
    obtain ⟨p, hp, hpc, hph⟩ := hb.pprev_eq (by omega)
    obtain ⟨c, hc, hcc, hch⟩ := ih hpc (by omega)
    exact ⟨c, by rw [pprevIter_succ_of_pprev hp, hc], hcc, by omega⟩

end SkipChain

/-! ### `GetAncestor` reaches the ancestor -/

/-- Along a `SkipChain`, the walk of `GetAncestor` from an index down to a height not above it
reaches the ancestor at that height without tripping its assert. The induction is on the height
of the walking index: each iteration moves to `pskip` or `pprev`, an index of the chain at a lower
height not below the target. -/
theorem getAncestorLoop_eq {w : CBlockIndex β} (hw : SkipChain w) {height : ℕ}
    (hle : height ≤ w.nHeight) :
    BlockPtr.ptr <$> w.getAncestorLoop height w.nHeight =
      .ok (w.pprevIter (w.nHeight - height)) := by
  induction hn : w.nHeight using Nat.strongRecOn generalizing w with
  | ind n ih =>
    subst hn
    rw [getAncestorLoop]
    by_cases hgt : w.nHeight > height
    · rw [if_pos hgt]
      dsimp only
      split
      · -- `pskip` leads to the ancestor at the skip height, still at or above the target
        next pskip hskip hcond =>
        have hlt := getSkipHeight_lt (show 1 ≤ w.nHeight by omega)
        have hge : height ≤ getSkipHeight w.nHeight := by
          simp only [decide_eq_true_eq] at hcond
          omega
        have hpskip := hw.pskip_eq (by omega)
        rw [hskip] at hpskip
        obtain ⟨c, hc, hcc, hch⟩ := hw.pprevIter_eq (show w.nHeight - getSkipHeight w.nHeight ≤
          w.nHeight by omega)
        rw [← hpskip] at hc
        cases hc
        have hheight : pskip.nHeight = getSkipHeight w.nHeight := by omega
        rw [← hheight, ih _ (by omega) hcc (by omega) rfl,
          show w.nHeight - height = w.nHeight - getSkipHeight w.nHeight + (pskip.nHeight - height)
            by omega, pprevIter_add_of_eq hpskip.symm]
      · -- otherwise `pprev`, which exists above the genesis index
        obtain ⟨p, hp, hpc, hph⟩ := hw.pprev_eq (by omega)
        rw [hp]
        dsimp only
        rw [← hph, Nat.add_sub_cancel, ih _ (by omega) hpc (by omega) rfl,
          show p.nHeight + 1 - height = p.nHeight - height + 1 by omega,
          pprevIter_succ_of_pprev hp]
    · rw [if_neg hgt, show w.nHeight - height = 0 by omega]
      rfl

/-- On a `SkipChain`, `GetAncestor(k)` returns, without tripping its assert, the index reached by
following `pprev` `nHeight - k` times for `0 ≤ k ≤ nHeight`, and null otherwise. -/
theorem getAncestor_eq {b : CBlockIndex β} (hb : SkipChain b) (k : ℤ) :
    b.getAncestor k =
      .ok (if 0 ≤ k ∧ k ≤ b.nHeight then b.pprevIter (b.nHeight - k.toNat) else .null) := by
  unfold getAncestor
  split_ifs with hout hin hin
  · omega
  · rfl
  · exact getAncestorLoop_eq hb (by omega)
  · omega

/-- `BuildSkip` sets every `pskip` to the ancestor at the skip height: the indexes the node
database creates form a `SkipChain`. -/
theorem skipChain_of_built {b : CBlockIndex β} (hb : Built b) : SkipChain b := by
  induction hb with
  | genesis phashBlock => exact .genesis phashBlock
  | @child pprev pskip phashBlock _ hskip ih =>
    have hlt := getSkipHeight_lt (Nat.le_add_left 1 pprev.nHeight)
    rw [getAncestor_eq ih, if_pos (by omega), Int.toNat_natCast, Except.ok.injEq] at hskip
    rw [← hskip]
    exact .child phashBlock ih

/-! ### Ancestors -/

/-- `d` is `b` or lies below it along `pprev`. -/
def IsAncestor (d b : CBlockIndex β) : Prop := ∃ n, b.pprevIter n = .ptr d

namespace SkipChain

variable {b : CBlockIndex β}

/-- The predecessor of an index of a `SkipChain` is one lower, on the same chain. -/
theorem of_pprev (hb : SkipChain b) {p : CBlockIndex β} (hp : b.pprev = .ptr p) :
    SkipChain p ∧ p.nHeight + 1 = b.nHeight := by
  cases hb with
  | genesis => cases hp
  | child _ hpc =>
    cases hp
    exact ⟨hpc, rfl⟩

/-- What `n` steps along `pprev` reach on a `SkipChain` is `n` lower, on the same chain. -/
theorem of_pprevIter (hb : SkipChain b) {n : ℕ} {d : CBlockIndex β} (h : b.pprevIter n = .ptr d) :
    SkipChain d ∧ n ≤ b.nHeight ∧ d.nHeight = b.nHeight - n := by
  induction n generalizing b with
  | zero =>
    cases h
    exact ⟨hb, Nat.zero_le _, rfl⟩
  | succ n ih =>
    cases hp : b.pprev with
    | null => simp [pprevIter, hp] at h
    | ptr p =>
      rw [pprevIter_succ_of_pprev hp] at h
      obtain ⟨hpc, hph⟩ := hb.of_pprev hp
      obtain ⟨hd, hn, hdh⟩ := ih hpc h
      exact ⟨hd, by omega, by omega⟩

theorem of_isAncestor (hb : SkipChain b) {d : CBlockIndex β} (h : IsAncestor d b) :
    SkipChain d := by
  obtain ⟨n, hn⟩ := h
  exact (hb.of_pprevIter hn).1

theorem nHeight_le_of_isAncestor (hb : SkipChain b) {d : CBlockIndex β} (h : IsAncestor d b) :
    d.nHeight ≤ b.nHeight := by
  obtain ⟨n, hn⟩ := h
  have := (hb.of_pprevIter hn).2.2
  omega

/-- A chain has one index at each height. -/
theorem isAncestor_unique (hb : SkipChain b) {d e : CBlockIndex β} (hd : IsAncestor d b)
    (he : IsAncestor e b) (heq : d.nHeight = e.nHeight) : d = e := by
  obtain ⟨n, hn⟩ := hd
  obtain ⟨m, hm⟩ := he
  obtain ⟨-, hnle, hdn⟩ := hb.of_pprevIter hn
  obtain ⟨-, hmle, hem⟩ := hb.of_pprevIter hm
  have : n = m := by omega
  subst this
  rw [hn] at hm
  cases hm
  rfl

/-- A chain has an index at every height up to its top. -/
theorem exists_isAncestor (hb : SkipChain b) {k : ℕ} (hk : k ≤ b.nHeight) :
    ∃ c, IsAncestor c b ∧ c.nHeight = k := by
  obtain ⟨c, hc, -, hch⟩ := hb.pprevIter_eq (show b.nHeight - k ≤ b.nHeight by omega)
  exact ⟨c, ⟨_, hc⟩, by omega⟩

end SkipChain

theorem IsAncestor.refl (b : CBlockIndex β) : IsAncestor b b := ⟨0, rfl⟩

theorem IsAncestor.trans {d c b : CBlockIndex β} (hdc : IsAncestor d c) (hcb : IsAncestor c b) :
    IsAncestor d b := by
  obtain ⟨n, hn⟩ := hdc
  obtain ⟨m, hm⟩ := hcb
  exact ⟨m + n, by rw [pprevIter_add_of_eq hm, hn]⟩

/-- On a chain, an ancestor no higher than another index of the chain lies below it. -/
theorem SkipChain.isAncestor_of_le {a c d : CBlockIndex β} (ha : SkipChain a) (hc : IsAncestor c a)
    (hd : IsAncestor d a) (hle : d.nHeight ≤ c.nHeight) : IsAncestor d c := by
  obtain ⟨e, he, heh⟩ := (ha.of_isAncestor hc).exists_isAncestor hle
  rwa [ha.isAncestor_unique hd (he.trans hc) heh.symm]

/-- `c` is the deepest common ancestor of `a` and `b`. -/
structure DeepestCommonAncestor (a b c : CBlockIndex β) : Prop where
  left : IsAncestor c a
  right : IsAncestor c b
  deepest : ∀ d, IsAncestor d a → IsAncestor d b → d.nHeight ≤ c.nHeight

/-! ### `LastCommonAncestor` -/

section LastCommonAncestor

variable [DecidableEq β]

/-- The `while (pa != pb && pa && pb)` loop of `LastCommonAncestor`, skipping both while their
skips differ and asserting the skips are at one height, then its `assert(pa == pb)`. -/
def lastCommonAncestorLoop (pa pb : BlockPtr β) : Except String (BlockPtr β) :=
  match pa, pb with
  | .ptr a, .ptr b =>
    if a = b then pure (.ptr a)
    else
      match ha : a.pskip, b.pskip with
      | .ptr sa, .ptr sb =>
        if sa ≠ sb then
          if sa.nHeight = sb.nHeight then lastCommonAncestorLoop (.ptr sa) (.ptr sb)
          else throw "assert(pa->nHeight == pb->nHeight)"
        else lastCommonAncestorLoop a.pprev b.pprev
      | _, _ => lastCommonAncestorLoop a.pprev b.pprev
  | pa, pb => if pa = pb then pure pa else throw "assert(pa == pb)"
termination_by sizeOf pa
decreasing_by
  · simp only [BlockPtr.ptr.sizeOf_spec]
    have := sizeOf_lt_of_pskip ha
    omega
  · exact sizeOf_pprev_lt a
  · exact sizeOf_pprev_lt a

/-- `LastCommonAncestor(pa, pb)` of two non-null indexes: bring the higher one down to the height
of the other, then walk both down together. -/
def lastCommonAncestor (pa pb : CBlockIndex β) : Except String (BlockPtr β) :=
  if pa.nHeight > pb.nHeight then do
    lastCommonAncestorLoop (← pa.getAncestor pb.nHeight) (.ptr pb)
  else if pb.nHeight > pa.nHeight then do
    lastCommonAncestorLoop (.ptr pa) (← pb.getAncestor pa.nHeight)
  else lastCommonAncestorLoop (.ptr pa) (.ptr pb)

variable {a b : CBlockIndex β}

/-- Two indexes of a chain at one height that are no common ancestor of `a` and `b` lie above
every common ancestor. -/
theorem nHeight_lt_of_ne (ha : SkipChain a) (hb : SkipChain b) {pa pb : CBlockIndex β}
    (hanca : IsAncestor pa a) (hancb : IsAncestor pb b) (hheight : pa.nHeight = pb.nHeight)
    (hne : pa ≠ pb) {d : CBlockIndex β} (hda : IsAncestor d a) (hdb : IsAncestor d b)
    (hle : d.nHeight ≤ pa.nHeight) : d.nHeight < pa.nHeight := by
  rcases Nat.lt_or_eq_of_le hle with hlt | heq
  · exact hlt
  · -- a common ancestor at their height would be both of them
    exact absurd ((ha.isAncestor_unique hda hanca heq).symm.trans
      (hb.isAncestor_unique hdb hancb (heq.trans hheight))) hne

/-- The loop of `LastCommonAncestor`, from two indexes at one height on the chains of `a` and
`b`, over one genesis index and above every common ancestor, returns the deepest common ancestor
without tripping its asserts. The induction is on the height: both indexes move to their skips,
which differ only above every common ancestor, or to their predecessors. -/
theorem lastCommonAncestorLoop_eq (ha : SkipChain a) (hb : SkipChain b) (h : ℕ) :
    ∀ {pa pb : CBlockIndex β}, pa.nHeight = h → pb.nHeight = h → IsAncestor pa a →
      IsAncestor pb b → pa.pprevIter h = pb.pprevIter h →
        (∀ d, IsAncestor d a → IsAncestor d b → d.nHeight ≤ h) →
          ∃ c, lastCommonAncestorLoop (.ptr pa) (.ptr pb) = .ok (.ptr c) ∧
            DeepestCommonAncestor a b c := by
  induction h using Nat.strongRecOn with
  | ind h ih =>
  intro pa pb hpa hpb hanca hancb hroot hbound
  have hca := ha.of_isAncestor hanca
  have hcb := hb.of_isAncestor hancb
  rw [lastCommonAncestorLoop]
  by_cases heq : pa = pb
  · subst heq
    exact ⟨pa, if_pos rfl, ⟨hanca, hancb, fun d hda hdb => hpa ▸ hbound d hda hdb⟩⟩
  rw [if_neg heq]
  -- two distinct indexes of height `0` would be two genesis indexes
  have hpos : 0 < h := by
    rcases Nat.eq_zero_or_pos h with rfl | hpos
    · simp only [pprevIter_zero, BlockPtr.ptr.injEq] at hroot
      exact absurd hroot heq
    · exact hpos
  have hskip := getSkipHeight_lt (show 1 ≤ h by omega)
  obtain ⟨sa, hsa, -, hsah⟩ := hca.pprevIter_eq (show h - getSkipHeight h ≤ pa.nHeight by omega)
  obtain ⟨sb, hsb, -, hsbh⟩ := hcb.pprevIter_eq (show h - getSkipHeight h ≤ pb.nHeight by omega)
  have hska : pa.pskip = .ptr sa := by rw [hca.pskip_eq (by omega), hpa, hsa]
  have hskb : pb.pskip = .ptr sb := by rw [hcb.pskip_eq (by omega), hpb, hsb]
  split
  · next sa' sb' hsa' hsb' =>
    rw [hska] at hsa'
    rw [hskb] at hsb'
    cases hsa'
    cases hsb'
    by_cases hne : sa = sb
    · rw [if_neg (not_not.mpr hne)]
      -- the predecessors, one lower, still above every common ancestor
      obtain ⟨p, hp, -, hph⟩ := hca.pprev_eq (by omega)
      obtain ⟨q, hq, -, hqh⟩ := hcb.pprev_eq (by omega)
      rw [hp, hq]
      refine ih (h - 1) (by omega) (by omega) (by omega) (IsAncestor.trans ⟨1, ?_⟩ hanca)
        (IsAncestor.trans ⟨1, ?_⟩ hancb) ?_ fun d hda hdb => ?_
      · rw [pprevIter_succ_of_pprev hp]; rfl
      · rw [pprevIter_succ_of_pprev hq]; rfl
      · rw [← pprevIter_succ_of_pprev hp, ← pprevIter_succ_of_pprev hq,
          show h - 1 + 1 = h by omega, hroot]
      · have := nHeight_lt_of_ne ha hb hanca hancb (hpa.trans hpb.symm) heq hda hdb
          (hpa ▸ hbound d hda hdb)
        omega
    · rw [if_pos hne, if_pos (show sa.nHeight = sb.nHeight by omega)]
      -- the skips, at the skip height, still above every common ancestor
      refine ih (getSkipHeight h) hskip (by omega) (by omega) (IsAncestor.trans ⟨_, hsa⟩ hanca)
        (IsAncestor.trans ⟨_, hsb⟩ hancb) ?_ fun d hda hdb => ?_
      · rw [← pprevIter_add_of_eq hsa, ← pprevIter_add_of_eq hsb,
          show h - getSkipHeight h + getSkipHeight h = h by omega, hroot]
      · -- a common ancestor at or above the skip height would make the skips equal
        by_contra hgt
        have hdh := hbound d hda hdb
        have hdpa := ha.isAncestor_of_le hanca hda (by omega)
        have hdpb := hb.isAncestor_of_le hancb hdb (by omega)
        obtain ⟨e, hed, heh⟩ := (ha.of_isAncestor hda).exists_isAncestor
          (show getSkipHeight h ≤ d.nHeight by omega)
        have hea := hca.isAncestor_unique (hed.trans hdpa) ⟨_, hsa⟩ (by omega)
        have heb := hcb.isAncestor_unique (hed.trans hdpb) ⟨_, hsb⟩ (by omega)
        exact hne (hea.symm.trans heb)
  · next hnot => exact absurd (hnot sa sb hska hskb) id

/-- `GetAncestor` brings an index of a chain down to a height not above it. -/
theorem getAncestor_of_le (ha : SkipChain a) {k : ℕ} (hk : k ≤ a.nHeight) :
    ∃ c, a.getAncestor k = .ok (.ptr c) ∧ IsAncestor c a ∧ c.nHeight = k := by
  obtain ⟨c, hc, -, hch⟩ := ha.pprevIter_eq (show a.nHeight - k ≤ a.nHeight by omega)
  refine ⟨c, ?_, ⟨_, hc⟩, by omega⟩
  rw [getAncestor_eq ha, if_pos ⟨by omega, by omega⟩, Int.toNat_natCast, hc]

/-- On two chains over one genesis index, `LastCommonAncestor` returns their deepest common
ancestor, and neither of its asserts trips. -/
theorem lastCommonAncestor_eq (ha : SkipChain a) (hb : SkipChain b)
    (hroot : a.pprevIter a.nHeight = b.pprevIter b.nHeight) :
    ∃ c, lastCommonAncestor a b = .ok (.ptr c) ∧ DeepestCommonAncestor a b c := by
  unfold lastCommonAncestor
  split_ifs with hab hba
  · -- `a` is brought down to the height of `b`
    obtain ⟨pa, hget, hanc, hpah⟩ := getAncestor_of_le ha (show b.nHeight ≤ a.nHeight by omega)
    rw [hget, Except.bind_ok']
    obtain ⟨n, hn⟩ := hanc
    obtain ⟨-, hnle, hnh⟩ := ha.of_pprevIter hn
    refine lastCommonAncestorLoop_eq ha hb b.nHeight hpah rfl ⟨n, hn⟩ (.refl b) ?_
      fun d _ hdb => hb.nHeight_le_of_isAncestor hdb
    rw [← pprevIter_add_of_eq hn, ← hroot, show n + b.nHeight = a.nHeight by omega]
  · obtain ⟨pb, hget, hanc, hpbh⟩ := getAncestor_of_le hb (show a.nHeight ≤ b.nHeight by omega)
    rw [hget, Except.bind_ok']
    obtain ⟨n, hn⟩ := hanc
    obtain ⟨-, hnle, hnh⟩ := hb.of_pprevIter hn
    refine lastCommonAncestorLoop_eq ha hb a.nHeight rfl hpbh (.refl a) ⟨n, hn⟩ ?_
      fun d hda _ => ha.nHeight_le_of_isAncestor hda
    rw [← pprevIter_add_of_eq hn, hroot, show n + a.nHeight = b.nHeight by omega]
  · exact lastCommonAncestorLoop_eq ha hb a.nHeight rfl (by omega) (.refl a) (.refl b)
      (by rw [hroot, show a.nHeight = b.nHeight by omega])
      fun d hda _ => ha.nHeight_le_of_isAncestor hda

end LastCommonAncestor

/-! ### The skip list of the node database -/

/-- The skip list is correct: a positive height skips to a lower one; on every index the node
database creates, `GetAncestor(k)` returns, without tripping its assert, the index `nHeight - k`
steps down along `pprev` for `0 ≤ k ≤ nHeight` and null otherwise; and on two indexes over one
genesis index, `LastCommonAncestor` returns their deepest common ancestor without tripping its
asserts. -/
theorem skipList_correct [DecidableEq β] :
    (∀ height, 1 ≤ height → getSkipHeight height < height) ∧
    (∀ b : CBlockIndex β, Built b → ∀ k : ℤ, b.getAncestor k =
      .ok (if 0 ≤ k ∧ k ≤ b.nHeight then b.pprevIter (b.nHeight - k.toNat) else .null)) ∧
    (∀ a b : CBlockIndex β, Built a → Built b → a.pprevIter a.nHeight = b.pprevIter b.nHeight →
      ∃ c, lastCommonAncestor a b = .ok (.ptr c) ∧ DeepestCommonAncestor a b c) :=
  ⟨fun _ h => getSkipHeight_lt h,
    fun _ hb => getAncestor_eq (skipChain_of_built hb),
    fun _ _ ha hb hroot => lastCommonAncestor_eq (skipChain_of_built ha) (skipChain_of_built hb)
      hroot⟩

/-- A genesis index. -/
def genesisIndex : CBlockIndex ℕ := .mk 0 0 .null .null

/-- A child of the genesis index, as `BuildSkip` leaves it. -/
def forkIndex (phashBlock : ℕ) : CBlockIndex ℕ :=
  .mk phashBlock 1 (.ptr genesisIndex) (.ptr genesisIndex)

theorem built_forkIndex (phashBlock : ℕ) : Built (forkIndex phashBlock) :=
  .child phashBlock (.genesis 0) (by rw [getAncestor_eq (.genesis 0)]; rfl)

/-- The chain of heights `0` to `n` as `BuildSkip` links it, each index with its height as hash. -/
def tower : ℕ → CBlockIndex ℕ
  | 0 => genesisIndex
  | n + 1 =>
    let p := tower n
    .mk (n + 1) (p.nHeight + 1) (.ptr p) (p.pprevIter (p.nHeight - getSkipHeight (p.nHeight + 1)))

theorem built_tower : ∀ n, Built (tower n) ∧ (tower n).nHeight = n
  | 0 => ⟨.genesis 0, rfl⟩
  | n + 1 => by
    obtain ⟨hb, hh⟩ := built_tower n
    have hlt := getSkipHeight_lt (Nat.le_add_left 1 (tower n).nHeight)
    refine ⟨.child (n + 1) hb ?_, show (tower n).nHeight + 1 = n + 1 by rw [hh]⟩
    rw [getAncestor_eq (skipChain_of_built hb), if_pos (by omega), Int.toNat_natCast]

/-- `skipList_correct` at the height `5`, and at two children of one genesis index. -/
theorem skipList_correct_fork :
    getSkipHeight 5 < 5 ∧
    (forkIndex 1).getAncestor 0 = .ok (if (0 : ℤ) ≤ 0 ∧ (0 : ℤ) ≤ (forkIndex 1).nHeight then
      (forkIndex 1).pprevIter ((forkIndex 1).nHeight - (0 : ℤ).toNat) else .null) ∧
    ∃ c, lastCommonAncestor (forkIndex 1) (forkIndex 2) = .ok (.ptr c) ∧
      DeepestCommonAncestor (forkIndex 1) (forkIndex 2) c :=
  ⟨(@skipList_correct ℕ _).1 5 (by decide), (@skipList_correct ℕ _).2.1 _ (built_forkIndex 1) 0,
    (@skipList_correct ℕ _).2.2 _ _ (built_forkIndex 1) (built_forkIndex 2) rfl⟩

/-! ### `AreOnTheSameFork` -/

/-- `AreOnTheSameFork(pa, pb)`: bring the higher index down to the height of the other, then
compare. -/
def areOnTheSameFork [DecidableEq β] (pa pb : CBlockIndex β) : Except String Bool :=
  if pa.nHeight > pb.nHeight then do pure ((← pa.getAncestor pb.nHeight) = .ptr pb)
  else if pb.nHeight > pa.nHeight then do pure (.ptr pa = (← pb.getAncestor pa.nHeight))
  else pure (pa = pb)

/-- An index of a chain brought down to the height of a lower index is that index exactly when
it is an ancestor. -/
theorem getAncestor_eq_ptr_iff [DecidableEq β] {a b : CBlockIndex β} (ha : SkipChain a)
    (h : b.nHeight ≤ a.nHeight) :
    ∃ c, a.getAncestor b.nHeight = .ok (.ptr c) ∧ (c = b ↔ IsAncestor b a) := by
  obtain ⟨c, hget, hc, hch⟩ := getAncestor_of_le ha h
  exact ⟨c, hget, fun h => h ▸ hc, fun hb => ha.isAncestor_unique hc hb hch⟩

/-- On indexes the node database creates, `AreOnTheSameFork` holds exactly when one index is an
ancestor of the other. -/
theorem areOnTheSameFork_iff [DecidableEq β] {a b : CBlockIndex β} (ha : Built a) (hb : Built b) :
    ∃ r, areOnTheSameFork a b = .ok r ∧ (r = true ↔ IsAncestor a b ∨ IsAncestor b a) := by
  replace ha := skipChain_of_built ha
  replace hb := skipChain_of_built hb
  unfold areOnTheSameFork
  split_ifs with hab hba
  · obtain ⟨c, hget, hc⟩ := getAncestor_eq_ptr_iff ha hab.le
    have hnot : ¬IsAncestor a b := fun h => by have := hb.nHeight_le_of_isAncestor h; omega
    refine ⟨_, by rw [hget]; rfl, ?_⟩
    simp [hc, hnot]
  · obtain ⟨c, hget, hc⟩ := getAncestor_eq_ptr_iff hb hba.le
    have hnot : ¬IsAncestor b a := fun h => by have := ha.nHeight_le_of_isAncestor h; omega
    refine ⟨_, by rw [hget]; rfl, ?_⟩
    simp only [decide_eq_true_eq, BlockPtr.ptr.injEq]
    rw [eq_comm, hc]
    simp [hnot]
  · -- at one height, an ancestor is the index itself
    have heq : a.nHeight = b.nHeight := by omega
    refine ⟨_, rfl, decide_eq_true_iff.trans ⟨fun h => .inl (h ▸ .refl a), ?_⟩⟩
    rintro (h | h)
    · exact hb.isAncestor_unique h (.refl b) heq
    · exact (ha.isAncestor_unique h (.refl a) heq.symm).symm

/-- At a genesis index and its child. -/
theorem areOnTheSameFork_iff_fork : Built genesisIndex ∧ Built (forkIndex 1) ∧
    ∃ r, areOnTheSameFork genesisIndex (forkIndex 1) = .ok r ∧
      (r = true ↔ IsAncestor genesisIndex (forkIndex 1) ∨ IsAncestor (forkIndex 1) genesisIndex) :=
  ⟨.genesis 0, built_forkIndex 1, areOnTheSameFork_iff (.genesis 0) (built_forkIndex 1)⟩

end Chain

end BitcoinCash
