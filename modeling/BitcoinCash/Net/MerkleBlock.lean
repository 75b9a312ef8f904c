import BitcoinCash.Consensus.Merkle
import Mathlib.Data.List.GetD
import Mathlib.Data.Nat.Find
import Mathlib.Tactic.Positivity

/-!
# The merkle tree of `CPartialMerkleTree`

`CPartialMerkleTree` (`merkleblock.h`, `merkleblock.cpp`) describes the merkle tree of a block
top-down: `CalcTreeWidth(height)` is the number of nodes at a height, and `CalcHash(height, pos,
vTxid)` the hash of a node, its right child copied from the left one where the level has no
right child. `ComputeMerkleRoot` (`Consensus/Merkle.lean`) computes the same tree bottom-up,
level by level. This file proves that the two agree: the level the loop holds after `k`
iterations is the list of the `CalcHash` values at height `k`, so its root is `CalcHash` at the
least height of width one, and its `mutated` flag reports a pair of equal hashes in one of the
levels below.

`CalcTreeWidth` adds in `uint32_t`: the sum wraps modulo `2 ^ 32`. Up to `2 ^ 31` leaves it does
not wrap at any height up to `31`, and the width reaches one by height `31`; above `2 ^ 31` no
height has width one (`calcTreeWidth_ne_one_of_gt`).
-/

namespace BitcoinCash

namespace PartialMerkleTree

variable {α : Type} (H : α → α → α)

/-- `CalcTreeWidth(height)`: `(nTransactions + (1 << height) - 1) >> height`. The `int` shift
converts to the `uint32_t` of `nTransactions`, so the sum is taken modulo `2 ^ 32`; the loops of
`CPartialMerkleTree` stop by height `31`, below the shifts the code leaves undefined. -/
def calcTreeWidth (nTransactions height : ℕ) : ℕ :=
  (nTransactions + 2 ^ height - 1) % 2 ^ 32 / 2 ^ height

variable [Inhabited α]

/-- `CalcHash(height, pos, vTxid)` of a tree over `nTransactions` leaves: a leaf is `vTxid[pos]`;
an inner node hashes its left child with its right child, or with the left one again where
`pos * 2 + 1` is past the width of the level below. -/
def calcHash (nTransactions : ℕ) (vTxid : List α) : ℕ → ℕ → α
  | 0, pos => vTxid.getD pos default
  | height + 1, pos =>
    let left := calcHash nTransactions vTxid height (pos * 2)
    let right := if pos * 2 + 1 < calcTreeWidth nTransactions height then
      calcHash nTransactions vTxid height (pos * 2 + 1) else left
    H left right

/-- The nodes at `height` of the tree over `vTxid`: `CalcHash(height, pos, vTxid)` for every
`pos < CalcTreeWidth(height)`. -/
def treeLevel (vTxid : List α) (height : ℕ) : List α :=
  (List.range (calcTreeWidth vTxid.length height)).map (calcHash H vTxid.length vTxid height)

/-! ### Widths -/

/-- Where the sum fits in the `uint32_t`, the width is the number of blocks of `2 ^ height` leaves,
rounded up. -/
theorem calcTreeWidth_of_le {n height : ℕ} (hb : n + 2 ^ height ≤ 2 ^ 32) :
    calcTreeWidth n height = (n + 2 ^ height - 1) / 2 ^ height := by
  rw [calcTreeWidth, Nat.mod_eq_of_lt (by omega)]

/-- A bound at a height holds at the height below. -/
theorem add_two_pow_le_of_succ {n height : ℕ} (hb : n + 2 ^ (height + 1) ≤ 2 ^ 32) :
    n + 2 ^ height ≤ 2 ^ 32 := by
  have := Nat.pow_le_pow_right (n := 2) (by omega) (Nat.le_succ height)
  omega

theorem calcTreeWidth_zero {n : ℕ} (hn : n < 2 ^ 32) : calcTreeWidth n 0 = n := by
  rw [calcTreeWidth_of_le (by rw [pow_zero]; omega)]
  simp

/-- Each height halves the width, rounding up. -/
theorem calcTreeWidth_succ {n height : ℕ} (hb : n + 2 ^ (height + 1) ≤ 2 ^ 32) :
    calcTreeWidth n (height + 1) = (calcTreeWidth n height + 1) / 2 := by
  have hpos : 0 < 2 ^ height := by positivity
  rw [calcTreeWidth_of_le hb, calcTreeWidth_of_le (add_two_pow_le_of_succ hb), pow_succ,
    ← Nat.div_div_eq_div_mul,
    show n + 2 ^ height * 2 - 1 = n + 2 ^ height - 1 + 1 * 2 ^ height by omega,
    Nat.add_mul_div_right _ _ hpos]

theorem calcTreeWidth_pos {n height : ℕ} (hn : 0 < n) (hb : n + 2 ^ height ≤ 2 ^ 32) :
    0 < calcTreeWidth n height := by
  rw [calcTreeWidth_of_le hb]
  exact Nat.div_pos (by omega) (by positivity)

/-- Up to `2 ^ 31` leaves the width is one at height `31`. -/
theorem calcTreeWidth_thirtyOne {n : ℕ} (hn : 0 < n) (hn' : n ≤ 2 ^ 31) :
    calcTreeWidth n 31 = 1 := by
  rw [calcTreeWidth_of_le (by omega), Nat.div_eq_iff (by positivity)]
  constructor <;> omega

/-- Up to `2 ^ 31` leaves the least height of width one is at most `31`, and nothing wraps
up to it. -/
theorem add_two_pow_le_of_min {n top : ℕ} (hn : 0 < n) (hn' : n ≤ 2 ^ 31)
    (hmin : ∀ h' < top, calcTreeWidth n h' ≠ 1) : n + 2 ^ top ≤ 2 ^ 32 := by
  have htop : top ≤ 31 := by
    by_contra hlt
    exact hmin 31 (by omega) (calcTreeWidth_thirtyOne hn hn')
  have := Nat.pow_le_pow_right (n := 2) (by omega) htop
  omega

/-- The width reaches one, at the latest at height `31`. -/
theorem exists_calcTreeWidth_eq_one {n : ℕ} (hn : 0 < n) (hn' : n ≤ 2 ^ 31) :
    ∃ h, calcTreeWidth n h = 1 ∧ ∀ h' < h, calcTreeWidth n h' ≠ 1 := by
  have hex : ∃ h, calcTreeWidth n h = 1 := ⟨31, calcTreeWidth_thirtyOne hn hn'⟩
  exact ⟨Nat.find hex, Nat.find_spec hex, fun h' hlt => Nat.find_min hex hlt⟩

/-- Above `2 ^ 31` leaves no height has width one: where the sum does not wrap the height is
below `31` and the width at least two, and where it wraps the width is zero. -/
theorem calcTreeWidth_ne_one_of_gt {n : ℕ} (hn : 2 ^ 31 < n) (hn' : n < 2 ^ 32) (h : ℕ) :
    calcTreeWidth n h ≠ 1 := by
  have hpos : 0 < 2 ^ h := by positivity
  by_cases hwrap : n + 2 ^ h ≤ 2 ^ 32
  · have hh : h < 31 := by
      by_contra hge
      have := Nat.pow_le_pow_right (n := 2) (by omega) (Nat.le_of_not_lt hge)
      omega
    have hp : 2 ^ h * 2 ≤ 2 ^ 31 := by
      rw [← pow_succ]
      exact Nat.pow_le_pow_right (by omega) hh
    rw [calcTreeWidth_of_le hwrap]
    have : 2 ≤ (n + 2 ^ h - 1) / 2 ^ h := (Nat.le_div_iff_mul_le hpos).mpr (by omega)
    omega
  · have hlt : (n + 2 ^ h - 1) % 2 ^ 32 < 2 ^ h := by
      rw [Nat.mod_eq_sub_mod (by omega)]
      exact lt_of_le_of_lt (Nat.mod_le _ _) (by omega)
    rw [calcTreeWidth, Nat.div_eq_of_lt hlt]
    omega

/-! ### Levels -/

@[simp] theorem length_treeLevel (vTxid : List α) (height : ℕ) :
    (treeLevel H vTxid height).length = calcTreeWidth vTxid.length height := by
  simp [treeLevel]

theorem getD_treeLevel (vTxid : List α) {height pos : ℕ}
    (hpos : pos < calcTreeWidth vTxid.length height) (d : α) :
    (treeLevel H vTxid height).getD pos d = calcHash H vTxid.length vTxid height pos := by
  rw [List.getD_eq_getElem _ _ (by simpa using hpos)]
  simp [treeLevel]

/-- The leaves are the nodes at height `0`. -/
theorem treeLevel_zero {vTxid : List α} (hn : vTxid.length < 2 ^ 32) :
    treeLevel H vTxid 0 = vTxid := by
  apply List.ext_getElem (by simp [calcTreeWidth_zero hn])
  intro i h₁ h₂
  simp [treeLevel, calcHash, List.getElem?_eq_getElem h₂]

/-- One iteration of `ComputeMerkleRoot` on the nodes at `height` gives the nodes at
`height + 1`: the padding copies the last node exactly where `CalcHash` copies the left child. -/
theorem nextLevel_treeLevel {vTxid : List α} {height : ℕ}
    (hb : vTxid.length + 2 ^ (height + 1) ≤ 2 ^ 32) :
    sha256D64 H (padLevel (treeLevel H vTxid height)) = treeLevel H vTxid (height + 1) := by
  set w := calcTreeWidth vTxid.length height with hw
  by_cases hnil : treeLevel H vTxid height = []
  · -- no nodes at `height`, none above
    have hw0 : w = 0 := by simpa using congrArg List.length hnil
    have hw1 : calcTreeWidth vTxid.length (height + 1) = 0 := by
      rw [calcTreeWidth_succ hb, ← hw, hw0]
    rw [hnil, show treeLevel H vTxid (height + 1) = [] from
      List.eq_nil_of_length_eq_zero (by simpa using hw1)]
    rfl
  have hlen : (padLevel (treeLevel H vTxid height)).length / 2 =
      calcTreeWidth vTxid.length (height + 1) := by
    rw [length_padLevel hnil, length_treeLevel, calcTreeWidth_succ hb, ← hw]
    omega
  apply List.ext_getElem (by rw [length_sha256D64, hlen, length_treeLevel])
  intro i h₁ h₂
  have hi : i < calcTreeWidth vTxid.length (height + 1) := by simpa using h₂
  have hi' : i < (w + 1) / 2 := by rwa [calcTreeWidth_succ hb, ← hw] at hi
  rw [← List.getD_eq_getElem _ default h₁, ← List.getD_eq_getElem _ default h₂,
    getD_sha256D64 (H := H) default _ (by rw [hlen]; exact hi), getD_treeLevel H vTxid hi]
  have hplen := length_padLevel hnil
  rw [length_treeLevel, ← hw] at hplen
  rw [getD_padLevel hnil (by omega), getD_padLevel hnil (by omega), length_treeLevel, ← hw,
    getD_treeLevel H vTxid (show min (2 * i) (w - 1) < w by omega),
    getD_treeLevel H vTxid (show min (2 * i + 1) (w - 1) < w by omega), calcHash,
    min_eq_left (by omega : 2 * i ≤ w - 1), Nat.mul_comm i 2]
  -- the right child exists exactly when `2 * i + 1` is inside the level
  split_ifs with hright
  · rw [min_eq_left (by omega)]
  · rw [min_eq_right (by omega), show w - 1 = 2 * i by omega]

/-! ### `ComputeMerkleRoot` -/

variable {H}

/-- A tree whose width reaches one has leaves. -/
theorem length_pos_of_calcTreeWidth_eq_one {n height : ℕ} (h : calcTreeWidth n height = 1) :
    0 < n := by
  by_contra hn
  have hlt : (2 ^ height - 1) % 2 ^ 32 < 2 ^ height :=
    lt_of_le_of_lt (Nat.mod_le _ _) (Nat.sub_lt (by positivity) Nat.one_pos)
  rw [Nat.eq_zero_of_not_pos hn, calcTreeWidth, Nat.zero_add, Nat.div_eq_of_lt hlt] at h
  exact absurd h (by norm_num)

variable [DecidableEq α]

/-- The loop of `ComputeMerkleRoot` started on the nodes at height `k`, `d` heights below the
first of width one: it runs `d` iterations, ends with the nodes at the top, and adds to
`mutation` the pairs of equal hashes of the levels it checked. -/
theorem merkleLoop_treeLevel (vTxid : List α) {top : ℕ}
    (htop : calcTreeWidth vTxid.length top = 1) (hb : vTxid.length + 2 ^ top ≤ 2 ^ 32)
    (hmin : ∀ h' < top, calcTreeWidth vTxid.length h' ≠ 1) (d : ℕ) :
    ∀ k, k + d = top → ∀ m, merkleLoop H (treeLevel H vTxid k) m =
      (treeLevel H vTxid top,
        m || (List.range d).any fun j => hasEqualPair (treeLevel H vTxid (k + j))) := by
  have hpos := length_pos_of_calcTreeWidth_eq_one htop
  induction d with
  | zero =>
    intro k hk m
    rw [Nat.add_zero] at hk
    subst hk
    rw [merkleLoop_of_le (by rw [length_treeLevel, htop]), List.range_zero, List.any_nil,
      Bool.or_false]
  | succ d ih =>
    intro k hk m
    -- below the top every level has more than one node, so the loop iterates
    have hbk : vTxid.length + 2 ^ (k + 1) ≤ 2 ^ 32 := by
      have := Nat.pow_le_pow_right (n := 2) (by omega) (show k + 1 ≤ top by omega)
      omega
    have hwide : 1 < (treeLevel H vTxid k).length := by
      have := calcTreeWidth_pos hpos (add_two_pow_le_of_succ hbk)
      have := hmin k (by omega)
      rw [length_treeLevel]
      omega
    rw [merkleLoop_of_lt hwide, nextLevel_treeLevel H hbk, ih (k + 1) (by omega), List.range_succ_eq_map,
      List.any_cons, List.any_map, Nat.add_zero, Bool.or_assoc]
    congr 3
    exact congrArg _ (funext fun j => by rw [Function.comp_apply, Nat.add_right_comm, Nat.add_assoc])

/-- `ComputeMerkleRoot` runs to the least height `h` of width one: it returns `CalcHash(h, 0)`, and
whether a level below held a pair of equal hashes. -/
theorem computeMerkleRoot_eq (leaves : List α) {h : ℕ} (htop : calcTreeWidth leaves.length h = 1)
    (hmin : ∀ h' < h, calcTreeWidth leaves.length h' ≠ 1) (hb : leaves.length + 2 ^ h ≤ 2 ^ 32) :
    computeMerkleRoot H leaves = (calcHash H leaves.length leaves h 0,
      (List.range h).any fun j => hasEqualPair (treeLevel H leaves j)) := by
  have hrun := merkleLoop_treeLevel (H := H) leaves htop hb hmin h 0 (Nat.zero_add h) false
  have hpow : 0 < 2 ^ h := by positivity
  rw [treeLevel_zero H (by omega)] at hrun
  -- the top level holds the single node `CalcHash(h, 0)`
  have hroot : treeLevel H leaves h = [calcHash H leaves.length leaves h 0] := by
    simp [treeLevel, htop]
  rw [computeMerkleRoot, hrun, hroot]
  simp only [Bool.false_or, Nat.zero_add]
  rfl

theorem computeMerkleRoot_calcHash (leaves : List α) (hn : leaves.length ≤ 2 ^ 31) :
    (leaves = [] → computeMerkleRoot H leaves = (default, false)) ∧
      (leaves ≠ [] → ∃ h, calcTreeWidth leaves.length h = 1 ∧
        ∀ h' < h, calcTreeWidth leaves.length h' ≠ 1) ∧
      ∀ h, calcTreeWidth leaves.length h = 1 → (∀ h' < h, calcTreeWidth leaves.length h' ≠ 1) →
        (computeMerkleRoot H leaves).1 = calcHash H leaves.length leaves h 0 ∧
        ((computeMerkleRoot H leaves).2 = true ↔ ∃ k < h, ∃ j x,
          (treeLevel H leaves k)[2 * j]? = some x ∧ (treeLevel H leaves k)[2 * j + 1]? = some x) := by
  refine ⟨?_, fun hne => exists_calcTreeWidth_eq_one (List.length_pos_of_ne_nil hne) hn, ?_⟩
  · rintro rfl
    rw [computeMerkleRoot, merkleLoop_of_le (by simp)]
    rfl
  · intro h htop hmin
    rw [computeMerkleRoot_eq leaves htop hmin
      (add_two_pow_le_of_min (length_pos_of_calcTreeWidth_eq_one htop) hn hmin)]
    refine ⟨rfl, ?_⟩
    simp only [List.any_eq_true, List.mem_range, hasEqualPair_iff]

theorem computeMerkleRoot_calcHash_three :
    (computeMerkleRoot oddLeafPairHash [1, 2, 3]).1 = calcHash oddLeafPairHash 3 [1, 2, 3] 2 0 ∧
      ((computeMerkleRoot oddLeafPairHash [1, 2, 3]).2 = true ↔ ∃ k < 2, ∃ j x,
        (treeLevel oddLeafPairHash [1, 2, 3] k)[2 * j]? = some x ∧
          (treeLevel oddLeafPairHash [1, 2, 3] k)[2 * j + 1]? = some x) :=
  (computeMerkleRoot_calcHash [1, 2, 3] (by norm_num)).2.2 2 (by decide) (by decide)

/-- `2 ^ 31 + 1` leaves: no height has width one, so there is no least one whose `CalcHash` the
root could be. -/
theorem computeMerkleRoot_no_unit_width :
    List.replicate (2 ^ 31 + 1) (0 : ℕ) ≠ [] ∧
      ∀ h, calcTreeWidth (List.replicate (2 ^ 31 + 1) (0 : ℕ)).length h ≠ 1 := by
  have hlen : (List.replicate (2 ^ 31 + 1) (0 : ℕ)).length = 2 ^ 31 + 1 := List.length_replicate
  refine ⟨List.ne_nil_of_length_pos (by rw [hlen]; norm_num), fun h => ?_⟩
  rw [hlen]
  exact calcTreeWidth_ne_one_of_gt (by norm_num) (by norm_num) h

end PartialMerkleTree

end BitcoinCash
