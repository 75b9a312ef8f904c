import BitcoinCash.Chain.SkipList
import BitcoinCash.Memory.Slots
import Mathlib.Data.List.Nodup

/-!
# The active chain and its block locator

`CChain` (`chain.h`) keeps `vChain`, the index of the active chain at each height. `SetTip` resizes
it to the new tip and writes the tip and its ancestors from the top down, until it meets an entry
that already holds the right index. `GetLocator` lists block hashes from an index back to the
genesis block: ten steps of one, then steps that double, each height clamped at `0`. While the walk
is on the active chain it reads the next index from `vChain`, and otherwise from the skip list.

Pointers are compared by value, as in `SkipList`. On an arbitrary `vChain` the loop of
`GetLocator` has no bound, so it is modelled with fuel. On a chain that `SetTip` builds it ends,
with one iteration per entry of the locator, unless the `int` step doubles past `INT_MAX`, which
it does from a height of `2 ^ 30 + 10` on.
-/

namespace BitcoinCash

namespace Chain

variable {β : Type}

/-- `CBlockIndex::GetBlockHash`. -/
def CBlockIndex.getBlockHash : CBlockIndex β → β
  | .mk phashBlock _ _ _ => phashBlock

/-- `CChain`: `vChain`, the index of the active chain at each height. -/
structure CChain (β : Type) where
  vChain : List (BlockPtr β)

namespace CChain

/-- `operator[](nHeight)`: null outside `[0, Height()]`. -/
def get (c : CChain β) (nHeight : ℤ) : BlockPtr β :=
  if nHeight < 0 ∨ nHeight ≥ c.vChain.length then .null else c.vChain.getD nHeight.toNat .null

/-- `Tip()`. -/
def tip (c : CChain β) : BlockPtr β :=
  if c.vChain.length > 0 then c.vChain.getD (c.vChain.length - 1) .null else .null

section Code

variable [DecidableEq β]

/-- `Contains(pindex)`: the entry at its height is the index. -/
def contains (c : CChain β) (pindex : CBlockIndex β) : Bool :=
  c.get pindex.nHeight == .ptr pindex

/-- The `while (pindex && vChain[pindex->nHeight] != pindex)` loop of `SetTip`. -/
def setTipLoop (vChain : List (BlockPtr β)) : BlockPtr β → List (BlockPtr β)
  | .null => vChain
  | .ptr pindex =>
    if vChain.getD pindex.nHeight .null ≠ .ptr pindex then
      setTipLoop (vChain.set pindex.nHeight (.ptr pindex)) pindex.pprev
    else vChain
termination_by pindex => sizeOf pindex
decreasing_by exact pindex.sizeOf_pprev_lt

/-- `SetTip(pindex)`: a null tip clears the chain. -/
def setTip (c : CChain β) : BlockPtr β → CChain β
  | .null => ⟨[]⟩
  | .ptr pindex => ⟨setTipLoop (Slots.resize c.vChain (pindex.nHeight + 1) .null) (.ptr pindex)⟩

/-- The `while (pindex)` loop of `GetLocator`, for at most `fuel` iterations; `none` when the fuel
runs out. `nStep` is a positive `int`: doubling it past `INT_MAX` is a signed overflow, undefined
behaviour, an error here. -/
def getLocatorLoop (c : CChain β) :
    ℕ → BlockPtr β → ℕ → List β → Option (Except String (List β))
  | _, .null, _, vHave => some (.ok vHave)
  | 0, .ptr _, _, _ => none
  | fuel + 1, .ptr pindex, nStep, vHave =>
    let vHave := vHave ++ [pindex.getBlockHash]
    if pindex.nHeight = 0 then some (.ok vHave)
    else
      let nHeight : ℤ := max ((pindex.nHeight : ℤ) - nStep) 0
      let next : Except String (BlockPtr β) :=
        if c.contains pindex then .ok (c.get nHeight) else pindex.getAncestor nHeight
      match next with
      | .ok pindex =>
        if vHave.length > 10 then
          if nStep * 2 > 2 ^ 31 - 1 then some (.error "nStep *= 2 overflows int")
          else c.getLocatorLoop fuel pindex (nStep * 2) vHave
        else c.getLocatorLoop fuel pindex nStep vHave
      | .error e => some (.error e)

/-- `GetLocator(pindex)`, from the tip when `pindex` is null. -/
def getLocator (c : CChain β) (fuel : ℕ) (pindex : BlockPtr β) : Option (Except String (List β)) :=
  let pindex := match pindex with
    | .null => c.tip
    | .ptr p => .ptr p
  c.getLocatorLoop fuel pindex 1 []

end Code

/-! ### The chains `SetTip` builds -/

/-- The ancestors of `t`, by height: at `k`, the index `nHeight - k` `pprev` steps below `t`. -/
def ancestors (t : CBlockIndex β) : List (BlockPtr β) :=
  (List.range (t.nHeight + 1)).map fun k => t.pprevIter (t.nHeight - k)

/-- `vChain` holds the ancestors of `t`. -/
def ChainOf (c : CChain β) (t : CBlockIndex β) : Prop := c.vChain = ancestors t

/-- An empty chain, or one that holds the ancestors of its tip. -/
def Valid (c : CChain β) : Prop := c.vChain = [] ∨ ∃ t, c.ChainOf t

theorem getElem?_ancestors (t : CBlockIndex β) (k : ℕ) :
    (ancestors t)[k]? = if k ≤ t.nHeight then some (t.pprevIter (t.nHeight - k)) else none := by
  rw [ancestors, List.getElem?_map]
  by_cases hk : k ≤ t.nHeight
  · rw [List.getElem?_range (by omega), if_pos hk]
    rfl
  · rw [List.getElem?_eq_none (by rw [List.length_range]; omega), if_neg hk]
    rfl

theorem length_ancestors (t : CBlockIndex β) : (ancestors t).length = t.nHeight + 1 := by
  rw [ancestors, List.length_map, List.length_range]

/-- Below an ancestor `w` of `t`, the ancestors of `t` are those of `w`. -/
theorem pprevIter_sub_of_pprevIter {t w : CBlockIndex β}
    (h : t.pprevIter (t.nHeight - w.nHeight) = .ptr w) (hw : w.nHeight ≤ t.nHeight) {k : ℕ}
    (hk : k ≤ w.nHeight) : t.pprevIter (t.nHeight - k) = w.pprevIter (w.nHeight - k) := by
  rw [show t.nHeight - k = t.nHeight - w.nHeight + (w.nHeight - k) by omega,
    CBlockIndex.pprevIter_add_of_eq h]

variable {c : CChain β}

theorem get_of_chainOf {t : CBlockIndex β} (h : c.ChainOf t) {k : ℕ} (hk : k ≤ t.nHeight) :
    c.get k = t.pprevIter (t.nHeight - k) := by
  have hlen : c.vChain.length = t.nHeight + 1 := by rw [h, length_ancestors]
  rw [get, if_neg (by omega), Int.toNat_natCast, List.getD_eq_getElem?_getD, h,
    getElem?_ancestors, if_pos hk]
  rfl

section SetTip

variable {old : List (BlockPtr β)} {p : CBlockIndex β}

/-- The invariant of the loop of `SetTip` towards the tip `p`: below `m` the resized old entries,
from `m` up the ancestors of `p`. -/
def SetTipInv (old : List (BlockPtr β)) (p : CBlockIndex β) (m : ℕ) (v : List (BlockPtr β)) :
    Prop :=
  ∀ k, v[k]? = if k < m then (Slots.resize old (p.nHeight + 1) .null)[k]? else (ancestors p)[k]?

theorem setTipInv_resize :
    SetTipInv old p (p.nHeight + 1) (Slots.resize old (p.nHeight + 1) .null) := by
  intro k
  split_ifs with hk
  · rfl
  · rw [List.getElem?_eq_none (by rw [Slots.length_resize]; omega),
      List.getElem?_eq_none (by rw [length_ancestors]; omega)]

/-- Writing the ancestor at `m` moves the boundary down by one. -/
theorem setTipInv_set {m : ℕ} {v : List (BlockPtr β)} (hv : SetTipInv old p (m + 1) v)
    (hm : m ≤ p.nHeight) : SetTipInv old p m (v.set m (p.pprevIter (p.nHeight - m))) := by
  intro k
  by_cases hk : k = m
  · subst hk
    have hlen : k < v.length := by
      have hvk := hv k
      rw [if_pos (Nat.lt_succ_self k), Slots.getElem?_resize, if_pos (by omega)] at hvk
      exact (List.getElem?_eq_some_iff.mp hvk).fst
    rw [List.getElem?_set_self hlen, if_neg (Nat.lt_irrefl k), getElem?_ancestors, if_pos hm]
  · rw [List.getElem?_set_ne (Ne.symm hk), hv k]
    by_cases hlt : k < m
    · rw [if_pos (by omega), if_pos hlt]
    · rw [if_neg (by omega), if_neg hlt]

theorem eq_ancestors_of_setTipInv_zero {v : List (BlockPtr β)} (hv : SetTipInv old p 0 v) :
    v = ancestors p :=
  List.ext_getElem? fun k => by rw [hv k, if_neg (Nat.not_lt_zero k)]

/-- The loop stops at an entry that already holds the ancestor `w`: the old chain held the
ancestors of an index with `w` among them, so below `w` it already agrees with the new tip. -/
theorem eq_ancestors_of_stop (hold : Valid ⟨old⟩) {w : CBlockIndex β}
    (hpw : p.pprevIter (p.nHeight - w.nHeight) = .ptr w) (hwp : w.nHeight ≤ p.nHeight)
    {v : List (BlockPtr β)} (hv : SetTipInv old p (w.nHeight + 1) v)
    (hstop : v.getD w.nHeight .null = .ptr w) : v = ancestors p := by
  have hold_w : old.getD w.nHeight .null = .ptr w := by
    have hvw := hv w.nHeight
    rw [if_pos (Nat.lt_succ_self _), Slots.getElem?_resize, if_pos (by omega)] at hvw
    rw [List.getD_eq_getElem?_getD, hvw] at hstop
    exact hstop
  obtain hnil | ⟨t, ht⟩ := hold
  · simp [show old = [] from hnil] at hold_w
  · have htw : w.nHeight ≤ t.nHeight ∧ t.pprevIter (t.nHeight - w.nHeight) = .ptr w := by
      rw [List.getD_eq_getElem?_getD, show old = ancestors t from ht, getElem?_ancestors]
        at hold_w
      split_ifs at hold_w with hle
      · exact ⟨hle, hold_w⟩
      · cases hold_w
    apply List.ext_getElem?
    intro k
    rw [hv k]
    split_ifs with hk
    · rw [Slots.getElem?_resize, if_pos (by omega), List.getD_eq_getElem?_getD,
        show old = ancestors t from ht, getElem?_ancestors, if_pos (by omega),
        getElem?_ancestors, if_pos (by omega), Option.getD_some,
        pprevIter_sub_of_pprevIter htw.2 htw.1 (by omega),
        pprevIter_sub_of_pprevIter hpw hwp (by omega)]
    · rfl

end SetTip

variable [DecidableEq β]

theorem contains_of_nil (h : c.vChain = []) (q : CBlockIndex β) : c.contains q = false := by
  simp [contains, get, h]

/-- An index the chain contains is an ancestor of its tip. -/
theorem pprevIter_of_contains {t q : CBlockIndex β} (h : c.ChainOf t)
    (hq : c.contains q = true) :
    q.nHeight ≤ t.nHeight ∧ t.pprevIter (t.nHeight - q.nHeight) = .ptr q := by
  have hlen : c.vChain.length = t.nHeight + 1 := by rw [h, length_ancestors]
  have hle : q.nHeight ≤ t.nHeight := by
    by_contra hgt
    have hnull : c.get q.nHeight = .null := by rw [get, if_pos (Or.inr (by omega))]
    simp [contains, hnull] at hq
  refine ⟨hle, ?_⟩
  rw [← get_of_chainOf h hle]
  simpa [contains] using hq

theorem setTipLoop_ptr (v : List (BlockPtr β)) (w : CBlockIndex β) :
    setTipLoop v (.ptr w) =
      if v.getD w.nHeight .null ≠ .ptr w then setTipLoop (v.set w.nHeight (.ptr w)) w.pprev
      else v := by
  rw [setTipLoop]

theorem setTipLoop_null (v : List (BlockPtr β)) : setTipLoop v .null = v := by
  rw [setTipLoop]

section SetTip

variable {old : List (BlockPtr β)} {p : CBlockIndex β}

/-- The loop of `SetTip` from any ancestor `w` of the new tip `p`, with the entries above `w`
already written, leaves the ancestors of `p`. The induction follows the chain of `w` down. -/
theorem setTipLoop_eq (hold : Valid ⟨old⟩) {w : CBlockIndex β} (hw : SkipChain w) :
    ∀ {v : List (BlockPtr β)}, p.pprevIter (p.nHeight - w.nHeight) = .ptr w →
      w.nHeight ≤ p.nHeight → SetTipInv old p (w.nHeight + 1) v →
        setTipLoop v (.ptr w) = ancestors p := by
  induction hw with
  | genesis phashBlock =>
    intro v hpw hwp hv
    rw [setTipLoop_ptr]
    split_ifs with hne
    · have hset := setTipInv_set hv hwp
      rw [hpw] at hset
      rw [CBlockIndex.pprev_mk, setTipLoop_null]
      exact eq_ancestors_of_setTipInv_zero hset
    · exact eq_ancestors_of_stop hold hpw hwp hv (not_not.mp hne)
  | @child pprev phashBlock hprev ih =>
    intro v hpw hwp hv
    rw [setTipLoop_ptr]
    split_ifs with hne
    · have hset := setTipInv_set hv hwp
      rw [hpw] at hset
      rw [CBlockIndex.pprev_mk]
      simp only [CBlockIndex.nHeight_mk] at hwp
      -- the predecessor is one `pprev` step further below the tip
      have h1 := CBlockIndex.pprevIter_add_of_eq hpw 1
      rw [CBlockIndex.nHeight_mk,
        show p.nHeight - (pprev.nHeight + 1) + 1 = p.nHeight - pprev.nHeight by omega] at h1
      exact ih (h1.trans rfl) (by omega) hset
    · exact eq_ancestors_of_stop hold hpw hwp hv (not_not.mp hne)

end SetTip

/-- The chains `SetTip` builds from the empty chain, each tip an index the node database
created. -/
inductive Reachable : CChain β → Prop
  | empty : Reachable ⟨[]⟩
  | setTip {c : CChain β} {pindex : BlockPtr β} :
    Reachable c → (∀ p, pindex = .ptr p → Built p) → Reachable (c.setTip pindex)


/-- `SetTip` to an index of a `SkipChain` leaves `vChain` holding its ancestors. -/
theorem setTip_chainOf (hc : c.Valid) {p : CBlockIndex β} (hp : SkipChain p) :
    (c.setTip (.ptr p)).ChainOf p :=
  setTipLoop_eq hc hp (by rw [Nat.sub_self]; rfl) le_rfl setTipInv_resize

/-- Every chain `SetTip` builds from the empty chain holds the ancestors of its tip. -/
theorem Reachable.valid (hc : c.Reachable) : c.Valid := by
  induction hc with
  | empty => exact .inl rfl
  | @setTip c pindex _ hbuilt ih =>
    cases pindex with
    | null => exact .inl rfl
    | ptr p => exact .inr ⟨p, setTip_chainOf ih (skipChain_of_built (hbuilt p rfl))⟩

/-! ### The walk of `GetLocator` -/

/-- `std::max(nHeight - nStep, 0)` is the truncated difference. -/
theorem max_sub_zero (a b : ℕ) : max ((a : ℤ) - b) 0 = ((a - b : ℕ) : ℤ) := by omega

/-- Both branches of the walk reach the ancestor at the next height: `vChain` while the index is
on the active chain, the skip list otherwise. -/
theorem next_eq (hc : c.Valid) {q : CBlockIndex β} (hq : SkipChain q) {k : ℕ}
    (hk : k ≤ q.nHeight) :
    (if c.contains q then .ok (c.get k) else q.getAncestor k : Except String (BlockPtr β)) =
      .ok (q.pprevIter (q.nHeight - k)) := by
  cases hcq : c.contains q with
  | false =>
    rw [if_neg Bool.false_ne_true, getAncestor_eq hq, if_pos (by omega), Int.toNat_natCast]
  | true =>
    obtain hnil | ⟨t, ht⟩ := hc
    · rw [contains_of_nil hnil] at hcq
      cases hcq
    · obtain ⟨hle, htq⟩ := pprevIter_of_contains ht hcq
      rw [if_pos rfl, get_of_chainOf ht (by omega), pprevIter_sub_of_pprevIter htq hle hk]

/-- One iteration of the loop that goes on to `next`, its step doubled after ten entries. -/
theorem getLocatorLoop_succ_of_next {fuel nStep : ℕ} {q : CBlockIndex β} (vHave : List β)
    (h0 : q.nHeight ≠ 0) {next : BlockPtr β}
    (hnext : (if c.contains q then .ok (c.get (q.nHeight - nStep : ℕ))
      else q.getAncestor (q.nHeight - nStep : ℕ) : Except String (BlockPtr β)) = .ok next) :
    c.getLocatorLoop (fuel + 1) (.ptr q) nStep vHave =
      if vHave.length + 1 > 10 then
        if nStep * 2 > 2 ^ 31 - 1 then some (.error "nStep *= 2 overflows int")
        else c.getLocatorLoop fuel next (nStep * 2) (vHave ++ [q.getBlockHash])
      else c.getLocatorLoop fuel next nStep (vHave ++ [q.getBlockHash]) := by
  rw [getLocatorLoop]
  dsimp only
  rw [if_neg h0, max_sub_zero, hnext, List.length_append, List.length_singleton]

theorem getLocatorLoop_succ_of_zero {fuel nStep : ℕ} {q : CBlockIndex β} (vHave : List β)
    (h0 : q.nHeight = 0) :
    c.getLocatorLoop (fuel + 1) (.ptr q) nStep vHave = some (.ok (vHave ++ [q.getBlockHash])) := by
  rw [getLocatorLoop]
  dsimp only
  rw [if_pos h0]

/-- One iteration with the step at `2 ^ (i - 10)`, as `i` entries leave it: the step doubles from
the eleventh entry on, and overflows after the fortieth. -/
theorem getLocatorLoop_succ_pow {fuel : ℕ} {q : CBlockIndex β} (vHave : List β)
    (h0 : q.nHeight ≠ 0) {next : BlockPtr β}
    (hnext : (if c.contains q then .ok (c.get (q.nHeight - 2 ^ (vHave.length - 10) : ℕ))
      else q.getAncestor (q.nHeight - 2 ^ (vHave.length - 10) : ℕ) :
        Except String (BlockPtr β)) = .ok next) :
    c.getLocatorLoop (fuel + 1) (.ptr q) (2 ^ (vHave.length - 10)) vHave =
      if 40 ≤ vHave.length then some (.error "nStep *= 2 overflows int")
      else c.getLocatorLoop fuel next (2 ^ ((vHave ++ [q.getBlockHash]).length - 10))
        (vHave ++ [q.getBlockHash]) := by
  rw [getLocatorLoop_succ_of_next vHave h0 hnext, List.length_append, List.length_singleton]
  by_cases h10 : vHave.length + 1 > 10
  · rw [if_pos h10, ← pow_succ, show vHave.length - 10 + 1 = vHave.length + 1 - 10 by omega]
    by_cases h40 : 40 ≤ vHave.length
    · -- the doubled step no longer fits an `int`
      have := Nat.pow_le_pow_right (n := 2) (by omega) (show 31 ≤ vHave.length + 1 - 10 by omega)
      rw [if_pos (by omega), if_pos h40]
    · have := Nat.pow_le_pow_right (n := 2) (by omega) (show vHave.length + 1 - 10 ≤ 30 by omega)
      rw [if_neg (by omega), if_neg h40]
  · rw [if_neg h10, if_neg (by omega), show vHave.length + 1 - 10 = vHave.length - 10 by omega]

end CChain

/-- The heights a locator lists from height `h`, the entry at `h` being the `i`-th: each next one
`2 ^ (i - 10)` lower (by one for the first eleven steps, then by steps that double), clamped at
`0`, where the list ends. -/
def locatorHeights (h i : ℕ) : List ℕ :=
  if h = 0 then [0] else h :: locatorHeights (h - 2 ^ (i - 10)) (i + 1)
termination_by h
decreasing_by have := Nat.two_pow_pos (i - 10); omega

theorem locatorHeights_zero (i : ℕ) : locatorHeights 0 i = [0] := by
  rw [locatorHeights, if_pos rfl]

theorem locatorHeights_of_ne_zero {h : ℕ} (i : ℕ) (h0 : h ≠ 0) :
    locatorHeights h i = h :: locatorHeights (h - 2 ^ (i - 10)) (i + 1) := by
  rw [locatorHeights, if_neg h0]

theorem head?_locatorHeights (h i : ℕ) : (locatorHeights h i).head? = some h := by
  by_cases h0 : h = 0
  · rw [h0, locatorHeights_zero]
    rfl
  · rw [locatorHeights_of_ne_zero i h0]
    rfl

theorem getElem_zero_locatorHeights (h i : ℕ) (hpos : 0 < (locatorHeights h i).length) :
    (locatorHeights h i)[0] = h := by
  have hhead := head?_locatorHeights h i
  rw [List.head?_eq_getElem?, List.getElem?_eq_getElem hpos] at hhead
  exact Option.some.inj hhead

theorem le_of_mem_locatorHeights {h i k : ℕ} (hk : k ∈ locatorHeights h i) : k ≤ h := by
  induction h, i using locatorHeights.induct with
  | case1 i =>
    rw [locatorHeights_zero, List.mem_singleton] at hk
    omega
  | case2 h i h0 ih =>
    rw [locatorHeights_of_ne_zero i h0, List.mem_cons] at hk
    rcases hk with rfl | hk
    · exact le_rfl
    · exact (ih hk).trans (Nat.sub_le _ _)

/-- The list ends at the genesis height. -/
theorem getLast?_locatorHeights (h i : ℕ) : (locatorHeights h i).getLast? = some 0 := by
  induction h, i using locatorHeights.induct with
  | case1 i =>
    rw [locatorHeights_zero]
    rfl
  | case2 h i h0 ih =>
    rw [locatorHeights_of_ne_zero i h0, List.getLast?_cons, ih]
    rfl

/-- The heights strictly decrease. -/
theorem pairwise_locatorHeights (h i : ℕ) : (locatorHeights h i).Pairwise (· > ·) := by
  induction h, i using locatorHeights.induct with
  | case1 i =>
    rw [locatorHeights_zero]
    exact List.pairwise_singleton _ _
  | case2 h i h0 ih =>
    rw [locatorHeights_of_ne_zero i h0, List.pairwise_cons]
    refine ⟨fun k hk => ?_, ih⟩
    have hle := le_of_mem_locatorHeights hk
    have hpos := Nat.two_pow_pos (i - 10)
    omega

/-- Each entry lies `2 ^ (i + j - 10)` below the one before it, clamped at `0`. -/
theorem getElem_succ_locatorHeights (h i : ℕ) :
    ∀ j (hj : j + 1 < (locatorHeights h i).length),
      (locatorHeights h i)[j + 1] = (locatorHeights h i)[j] - 2 ^ (i + j - 10) := by
  induction h, i using locatorHeights.induct with
  | case1 i =>
    intro j hj
    simp [locatorHeights_zero] at hj
  | case2 h i h0 ih =>
    intro j hj
    simp only [locatorHeights_of_ne_zero i h0, List.getElem_cons_succ]
    cases j with
    | zero => rw [getElem_zero_locatorHeights, List.getElem_cons_zero, Nat.add_zero]
    | succ j =>
      rw [List.getElem_cons_succ, ih j, show i + 1 + j = i + (j + 1) by omega]

/-- One entry of the locator keeps `h + 2 ^ (i - 10) + (10 - i)`, against which `2 ^ 30` decides
whether the step overflows. -/
theorem locatorBound_succ {h i : ℕ} (hh : 2 ^ (i - 10) ≤ h) :
    h - 2 ^ (i - 10) + 2 ^ (i + 1 - 10) + (10 - i) = h + 2 ^ (i - 10) + (10 - (i + 1)) := by
  rcases Nat.lt_or_ge i 10 with hi | hi
  · rw [show i + 1 - 10 = 0 by omega]
    rw [show i - 10 = 0 by omega] at hh ⊢
    omega
  · rw [show i + 1 - 10 = i - 10 + 1 by omega, pow_succ]
    omega

/-- A locator from a height within the bound has at most `41 - i` more entries. -/
theorem length_locatorHeights_le {h i : ℕ} (hb : h + 2 ^ (i - 10) ≤ 2 ^ 30 + (10 - i)) :
    (locatorHeights h i).length + i ≤ 41 := by
  induction h, i using locatorHeights.induct with
  | case1 i =>
    rw [locatorHeights_zero, List.length_singleton]
    by_contra hi
    have := Nat.pow_le_pow_right (n := 2) (by omega) (show 31 ≤ i - 10 by omega)
    omega
  | case2 h i h0 ih =>
    rw [locatorHeights_of_ne_zero i h0, List.length_cons]
    by_cases hh : h - 2 ^ (i - 10) = 0
    · -- the next entry is the genesis one, reached with a step of at most `2 ^ 29`
      rw [hh, locatorHeights_zero, List.length_singleton]
      by_contra hi
      have := Nat.pow_le_pow_right (n := 2) (by omega) (show 30 ≤ i - 10 by omega)
      omega
    · have := locatorBound_succ (h := h) (i := i) (by omega)
      have := ih (by omega)
      omega

/-- A locator from a height past the bound reaches a nonzero height after forty entries. -/
theorem le_length_locatorHeights {h i : ℕ} (hb : 2 ^ 30 + (10 - i) < h + 2 ^ (i - 10)) :
    42 ≤ (locatorHeights h i).length + i := by
  induction h, i using locatorHeights.induct with
  | case1 i =>
    rw [locatorHeights_zero, List.length_singleton]
    by_contra hi
    have := Nat.pow_le_pow_right (n := 2) (by omega) (show i - 10 ≤ 30 by omega)
    omega
  | case2 h i h0 ih =>
    rw [locatorHeights_of_ne_zero i h0, List.length_cons]
    by_cases hh : h - 2 ^ (i - 10) = 0
    · rw [hh, locatorHeights_zero, List.length_singleton]
      by_contra hi
      have := Nat.pow_le_pow_right (n := 2) (by omega) (show i - 10 ≤ 29 by omega)
      omega
    · have := locatorBound_succ (h := h) (i := i) (by omega)
      have := ih (by omega)
      omega

namespace CChain

variable [DecidableEq β] {c : CChain β}

/-- On a chain that `SetTip` built, the loop of `GetLocator` from an index `q` of a `SkipChain`,
with `nStep` as the entries so far make it, walks the ancestors of `q` at `locatorHeights`, and
lists them unless it reaches a nonzero height after forty entries, where the step overflows. Each
iteration moves to a lower index, so fuel above the height suffices. -/
theorem getLocatorLoop_eq (hc : c.Valid) :
    ∀ (fuel : ℕ) {q : CBlockIndex β} (vHave : List β), SkipChain q → q.nHeight < fuel →
      ∃ blocks : List (CBlockIndex β),
        blocks.map CBlockIndex.nHeight = locatorHeights q.nHeight vHave.length ∧
        (∀ b ∈ blocks, IsAncestor b q) ∧
        c.getLocatorLoop fuel (.ptr q) (2 ^ (vHave.length - 10)) vHave =
          if 40 - vHave.length + 2 ≤ blocks.length then some (.error "nStep *= 2 overflows int")
          else some (.ok (vHave ++ blocks.map CBlockIndex.getBlockHash)) := by
  intro fuel
  induction fuel with
  | zero =>
    intro q vHave _ hfuel
    omega
  | succ fuel ih =>
    intro q vHave hq hfuel
    by_cases h0 : q.nHeight = 0
    · -- the genesis index ends the locator
      refine ⟨[q], ?_, ?_, ?_⟩
      · rw [h0, locatorHeights_zero, List.map_singleton, h0]
      · intro b hb
        rw [List.mem_singleton.mp hb]
        exact IsAncestor.refl q
      · rw [getLocatorLoop_succ_of_zero vHave h0, List.length_singleton, if_neg (by omega)]
        rfl
    · -- otherwise the walk steps to the ancestor `r` at the next height
      have hk : q.nHeight - 2 ^ (vHave.length - 10) ≤ q.nHeight := Nat.sub_le _ _
      obtain ⟨r, hr, hrc, hrh⟩ := hq.pprevIter_eq
        (show q.nHeight - (q.nHeight - 2 ^ (vHave.length - 10)) ≤ q.nHeight by omega)
      have hnext := next_eq hc hq hk
      rw [hr] at hnext
      have hpos := Nat.two_pow_pos (vHave.length - 10)
      have hrh' : r.nHeight = q.nHeight - 2 ^ (vHave.length - 10) := by omega
      obtain ⟨blocks, hheights, hanc, hrun⟩ := ih (vHave ++ [q.getBlockHash]) hrc (by omega)
      rw [List.length_append, List.length_singleton] at hheights
      have hne : blocks ≠ [] := by
        intro hnil
        rw [hnil, List.map_nil] at hheights
        exact absurd (head?_locatorHeights r.nHeight (vHave.length + 1)) (by rw [← hheights]; simp)
      have hlen := List.length_pos_of_ne_nil hne
      refine ⟨q :: blocks, ?_, ?_, ?_⟩
      · rw [List.map_cons, hheights, hrh', locatorHeights_of_ne_zero _ h0]
      · intro b hb
        rcases List.mem_cons.mp hb with rfl | hb
        · exact IsAncestor.refl b
        · exact (hanc b hb).trans ⟨_, hr⟩
      · rw [getLocatorLoop_succ_pow vHave h0 hnext, hrun, List.length_append,
          List.length_singleton, List.length_cons]
        simp only [List.map_cons, List.append_assoc, List.singleton_append]
        -- the step overflows when a nonzero height is reached after forty entries
        by_cases h40 : 40 ≤ vHave.length
        · rw [if_pos h40, if_pos (by omega)]
        · rw [if_neg h40]
          simp only [show 40 - (vHave.length + 1) + 2 ≤ blocks.length ↔
            40 - vHave.length + 2 ≤ blocks.length + 1 by omega]

end CChain

open CChain in
theorem getLocator_shape [DecidableEq β] :
    ∀ (c : CChain β), c.Reachable → ∀ p : CBlockIndex β, Built p → p.nHeight ≤ 2 ^ 30 + 9 →
      ∀ fuel, p.nHeight < fuel → ∃ blocks : List (CBlockIndex β),
        c.getLocator fuel (.ptr p) = some (.ok (blocks.map CBlockIndex.getBlockHash)) ∧
        (∀ b ∈ blocks, IsAncestor b p) ∧ blocks.head? = some p ∧
        (∀ j (hj : j + 1 < blocks.length),
          blocks[j + 1].nHeight = blocks[j].nHeight - 2 ^ (j - 10)) ∧
        (blocks.map CBlockIndex.nHeight).Pairwise (· > ·) ∧
        ∃ g, blocks.getLast? = some g ∧ g.nHeight = 0 ∧ blocks.count g = 1 := by
  intro c hc p hp hh fuel hfuel
  have hps := skipChain_of_built hp
  obtain ⟨blocks, hheights, hanc, hrun⟩ := getLocatorLoop_eq hc.valid fuel [] hps hfuel
  rw [List.length_nil] at hheights
  -- below `2 ^ 30 + 10` the locator has at most `41` entries, so the step never overflows
  have hlen : blocks.length ≤ 41 := by
    have := length_locatorHeights_le (h := p.nHeight) (i := 0) (by simp only [Nat.zero_sub, pow_zero]; omega)
    rw [← hheights, List.length_map] at this
    omega
  rw [List.length_nil, if_neg (by omega)] at hrun
  have hpair : (blocks.map CBlockIndex.nHeight).Pairwise (· > ·) := by
    rw [hheights]
    exact pairwise_locatorHeights _ _
  have hnodup : blocks.Nodup := List.Nodup.of_map CBlockIndex.nHeight (hpair.imp ne_of_gt)
  -- the last entry is at height `0`, the first at the height of `p`
  obtain ⟨g, hg, hg0⟩ : ∃ g, blocks.getLast? = some g ∧ g.nHeight = 0 := by
    have hlast := getLast?_locatorHeights p.nHeight 0
    rw [← hheights, List.getLast?_map, Option.map_eq_some_iff] at hlast
    exact hlast
  obtain ⟨b, hb, hbh⟩ : ∃ b, blocks.head? = some b ∧ b.nHeight = p.nHeight := by
    have hhead := head?_locatorHeights p.nHeight 0
    rw [← hheights, List.head?_map, Option.map_eq_some_iff] at hhead
    exact hhead
  have hbp : b = p := hps.isAncestor_unique (hanc b (List.mem_of_head? hb)) (IsAncestor.refl p) hbh
  refine ⟨blocks, hrun, hanc, hbp ▸ hb, fun j hj => ?_, hpair, g, hg, hg0,
    List.count_eq_one_of_mem hnodup (List.mem_of_getLast? hg)⟩
  have hstep := getElem_succ_locatorHeights p.nHeight 0 j (by
    rw [← hheights, List.length_map]
    exact hj)
  simp only [← hheights, List.getElem_map, Nat.zero_add] at hstep
  exact hstep

/-- The locator of a block two past the tip of the active chain: the walk takes its first two
ancestors from the skip list and the rest from `vChain`, and the step doubles after ten entries. -/
theorem getLocator_shape_tower :
    let c : CChain ℕ := (⟨[]⟩ : CChain ℕ).setTip (.ptr (tower 12))
    let p := tower 14
    c.Reachable ∧ Built p ∧ p.nHeight ≤ 2 ^ 30 + 9 ∧ p.nHeight < 15 ∧
      ∃ blocks : List (CBlockIndex ℕ),
        c.getLocator 15 (.ptr p) = some (.ok (blocks.map CBlockIndex.getBlockHash)) ∧
        (∀ b ∈ blocks, IsAncestor b p) ∧ blocks.head? = some p ∧
        (∀ j (hj : j + 1 < blocks.length),
          blocks[j + 1].nHeight = blocks[j].nHeight - 2 ^ (j - 10)) ∧
        (blocks.map CBlockIndex.nHeight).Pairwise (· > ·) ∧
        ∃ g, blocks.getLast? = some g ∧ g.nHeight = 0 ∧ blocks.count g = 1 :=
  have hp := built_tower 14
  have hc : ((⟨[]⟩ : CChain ℕ).setTip (.ptr (tower 12))).Reachable :=
    .setTip .empty fun _ h => BlockPtr.ptr.inj h ▸ (built_tower 12).1
  ⟨hc, hp.1, by rw [hp.2]; omega, by rw [hp.2]; omega,
    getLocator_shape _ hc _ hp.1 (by rw [hp.2]; omega) 15 (by rw [hp.2]; omega)⟩

open CChain in
/-- From a height of `2 ^ 30 + 10` on, `GetLocator` doubles its `int` step past `INT_MAX`. -/
theorem getLocator_overflow [DecidableEq β] {c : CChain β} (hc : c.Reachable) {p : CBlockIndex β}
    (hp : Built p) (hh : 2 ^ 30 + 10 ≤ p.nHeight) {fuel : ℕ} (hfuel : p.nHeight < fuel) :
    c.getLocator fuel (.ptr p) = some (.error "nStep *= 2 overflows int") := by
  obtain ⟨blocks, hheights, -, hrun⟩ :=
    getLocatorLoop_eq hc.valid fuel [] (skipChain_of_built hp) hfuel
  have hlen := le_length_locatorHeights (h := p.nHeight) (i := 0) (by
    simp only [Nat.zero_sub, pow_zero]
    omega)
  rw [List.length_nil] at hheights hrun
  rw [← hheights, List.length_map] at hlen
  rw [if_pos (by omega)] at hrun
  exact hrun

theorem getLocator_overflow_tower :
    let c : CChain ℕ := (⟨[]⟩ : CChain ℕ).setTip (.ptr (tower (2 ^ 30 + 10)))
    let p := tower (2 ^ 30 + 10)
    c.Reachable ∧ Built p ∧
      c.getLocator (2 ^ 30 + 11) (.ptr p) = some (.error "nStep *= 2 overflows int") :=
  have hp := built_tower (2 ^ 30 + 10)
  have hc : ((⟨[]⟩ : CChain ℕ).setTip (.ptr (tower (2 ^ 30 + 10)))).Reachable :=
    .setTip .empty fun _ h => BlockPtr.ptr.inj h ▸ hp.1
  ⟨hc, hp.1, getLocator_overflow hc hp.1 (by rw [hp.2]) (by rw [hp.2]; omega)⟩

end Chain

end BitcoinCash
