import BitcoinCash.Hashing.Levels
import Mathlib.Data.List.Basic
import Mathlib.Data.List.GetD
import BitcoinCash.Control.WhileLoop
import Mathlib.Data.Nat.Pairing

/-!
# The merkle root of a block and its mutation check

`ComputeMerkleRoot` (`consensus/merkle.cpp`) hashes a list of hashes level by level; a level of
odd size has its last hash duplicated first. Two lists can then share a root (CVE-2012-2459):
`[1, 2, 3, 4, 5, 6]` and `[1, 2, 3, 4, 5, 6, 5, 6]` do. The function therefore reports whether it
hashed a pair of equal hashes, and a block whose leaves are reported is treated as having an
invalid root.

The hash `SHA256D64` of a pair is a parameter `H`. When it has no collisions and none of its
values is a leaf, this file proves that the check detects every such list: of two distinct lists
of leaves with the same root, at least one is reported. The proof goes down from the root: equal
levels come from equal padded levels, and a padded level equals an unpadded one only when the
latter ends with a pair of equal hashes.
-/

namespace BitcoinCash

open PairHash

variable {α : Type} (H : α → α → α)

/-! ### One level -/

/-- `SHA256D64(out, in, blocks)` with `blocks = hashes.size() / 2`: the hash of every pair of
adjacent hashes, written over the level. -/
def sha256D64 : List α → List α
  | a :: b :: rest => H a b :: sha256D64 rest
  | _ => []

/-- `if (hashes.size() & 1) hashes.push_back(hashes.back())`. -/
def padLevel (hashes : List α) : List α :=
  if hashes.length % 2 = 1 then hashes ++ hashes.getLast?.toList else hashes

/-- The `for` loop over the pairs: whether a pair holds two equal hashes. -/
def hasEqualPair [DecidableEq α] : List α → Bool
  | a :: b :: rest => a == b || hasEqualPair rest
  | _ => false

variable {H}

@[simp] theorem length_sha256D64 (l : List α) : (sha256D64 H l).length = l.length / 2 := by
  fun_induction sha256D64 H l with
  | case1 a b rest ih => simp [ih]; omega
  | case2 l hl =>
    -- a list that is no pair has at most one element
    rcases l with _ | ⟨a, _ | ⟨b, rest⟩⟩
    · simp
    · simp
    · exact absurd rfl (hl a b rest)

theorem length_padLevel {l : List α} (hl : l ≠ []) :
    (padLevel l).length = l.length + l.length % 2 := by
  unfold padLevel
  split_ifs with hodd
  · obtain ⟨x, hx⟩ := Option.ne_none_iff_exists'.mp (mt List.getLast?_eq_none_iff.mp hl)
    simp [hx, hodd]
  · simp [show l.length % 2 = 0 by omega]

/-- A padded level has an even size. -/
theorem length_padLevel_mod_two {l : List α} (hl : l ≠ []) : (padLevel l).length % 2 = 0 := by
  rw [length_padLevel hl]
  omega

theorem mem_of_mem_padLevel {l : List α} {x : α} (hx : x ∈ padLevel l) : x ∈ l := by
  unfold padLevel at hx
  split_ifs at hx
  · rcases List.mem_append.mp hx with hx | hx
    · exact hx
    · exact List.mem_of_getLast? (Option.mem_toList.mp hx)
  · exact hx

theorem mem_sha256D64 {l : List α} {x : α} (hx : x ∈ sha256D64 H l) :
    ∃ a ∈ l, ∃ b ∈ l, H a b = x := by
  fun_induction sha256D64 H l with
  | case1 a b rest ih =>
    rcases List.mem_cons.mp hx with rfl | hx
    · exact ⟨a, by simp, b, by simp, rfl⟩
    · obtain ⟨c, hc, d, hd, rfl⟩ := ih hx
      exact ⟨c, by simp [hc], d, by simp [hd], rfl⟩
  | case2 => simp at hx

/-- Without collisions the hashes of the pairs of an even level determine the level. -/
theorem sha256D64_injective (hinj : Function.Injective2 H) :
    ∀ {l l' : List α}, l.length % 2 = 0 → l'.length % 2 = 0 →
      sha256D64 H l = sha256D64 H l' → l = l'
  | [], [], _, _, _ => rfl
  | a :: b :: rest, a' :: b' :: rest', hl, hl', h => by
    simp only [sha256D64, List.cons.injEq] at h
    obtain ⟨hab, hrest⟩ := h
    obtain ⟨rfl, rfl⟩ := hinj hab
    simp only [List.length_cons] at hl hl'
    rw [sha256D64_injective hinj (by omega) (by omega) hrest]
  | [], a' :: b' :: rest', _, _, h => by simp [sha256D64] at h
  | a :: b :: rest, [], _, _, h => by simp [sha256D64] at h
  | [_], _, hl, _, _ => by simp at hl
  | _, [_], _, hl', _ => by simp at hl'

/-- Hash `i` of the next level is the hash of hashes `2 * i` and `2 * i + 1`. -/
theorem getD_sha256D64 (d : α) :
    ∀ (l : List α) {i : ℕ}, i < l.length / 2 →
      (sha256D64 H l).getD i d = H (l.getD (2 * i) d) (l.getD (2 * i + 1) d)
  | a :: b :: rest, 0, _ => rfl
  | a :: b :: rest, i + 1, hi => by
    simp only [List.length_cons] at hi
    rw [sha256D64, List.getD_cons_succ, getD_sha256D64 d rest (by omega),
      show 2 * (i + 1) = 2 * i + 1 + 1 by omega, List.getD_cons_succ, List.getD_cons_succ,
      List.getD_cons_succ, List.getD_cons_succ]
  | [], _, hi => by simp at hi
  | [_], _, hi => by simp at hi

/-! ### The level hashed in place -/

section InPlace

variable [Inhabited α]

variable (H) in
/-- `SHA256D64(hashes[0].begin(), hashes[0].begin(), hashes.size() / 2)`, one `TransformD64`
after another, then `hashes.resize(hashes.size() / 2)`: the hash of pair `pos` is written over
`hashes[pos]` while the pairs after it are still to be read. -/
def sha256D64InPlace (hashes : List α) : List α :=
  ((List.range (hashes.length / 2)).foldl
      (fun v pos => v.set pos (H (v.getD (2 * pos) default) (v.getD (2 * pos + 1) default)))
      hashes).take (hashes.length / 2)

variable (H) in
/-- After `k` passes over the level `l` the vector `v` holds the hashes of the first `k` pairs,
followed by what is left of `l`. -/
def InPlaceInv (l : List α) (k : ℕ) (v : List α) : Prop :=
  v.length = l.length ∧
    (∀ j < k, v.getD j default = H (l.getD (2 * j) default) (l.getD (2 * j + 1) default)) ∧
    ∀ j, k ≤ j → v.getD j default = l.getD j default

/-- One `TransformD64` keeps `InPlaceInv`: pair `k` is read from positions `2 * k` and
`2 * k + 1`, which the earlier passes have not written. -/
theorem inPlaceInv_step {l : List α} {k : ℕ} (hk : k < l.length / 2) {v : List α}
    (hv : InPlaceInv H l k v) :
    InPlaceInv H l (k + 1)
      (v.set k (H (v.getD (2 * k) default) (v.getD (2 * k + 1) default))) := by
  obtain ⟨hlen, hdone, hrest⟩ := hv
  have hread : H (v.getD (2 * k) default) (v.getD (2 * k + 1) default) =
      H (l.getD (2 * k) default) (l.getD (2 * k + 1) default) := by
    rw [hrest _ (by omega), hrest _ (by omega)]
  refine ⟨by rw [List.length_set, hlen], fun j hj => ?_, fun j hj => ?_⟩
  · rcases Nat.lt_succ_iff_lt_or_eq.mp hj with hj | rfl
    · rw [List.getD_eq_getElem?_getD, List.getElem?_set_ne (by omega),
        ← List.getD_eq_getElem?_getD, hdone j hj]
    · rw [List.getD_eq_getElem?_getD, List.getElem?_set_self (by omega), Option.getD_some,
        hread]
  · rw [List.getD_eq_getElem?_getD, List.getElem?_set_ne (by omega),
      ← List.getD_eq_getElem?_getD, hrest j (by omega)]

/-- The in-place loop computes `sha256D64`. -/
theorem sha256D64InPlace_eq (hashes : List α) : sha256D64InPlace H hashes = sha256D64 H hashes := by
  obtain ⟨hlen, hdone, -⟩ := foldl_range_invariant (InPlaceInv H hashes)
    (show InPlaceInv H hashes 0 hashes from ⟨rfl, fun j hj => absurd hj (Nat.not_lt_zero j),
      fun _ _ => rfl⟩) (n := hashes.length / 2) fun k hk v hv => inPlaceInv_step hk hv
  unfold sha256D64InPlace
  refine List.ext_getElem (by rw [List.length_take, hlen, length_sha256D64]; omega)
    fun j h₁ h₂ => ?_
  have hj : j < hashes.length / 2 := by simpa using h₂
  rw [List.getElem_take, ← List.getD_eq_getElem _ default, hdone j hj,
    ← List.getD_eq_getElem _ default, getD_sha256D64 default hashes hj]

end InPlace

theorem padLevel_of_even {l : List α} (hl : l.length % 2 = 0) : padLevel l = l := by
  simp [padLevel, hl]

theorem padLevel_of_odd {l : List α} {x : α} (hl : l.length % 2 = 1) (hx : l.getLast? = some x) :
    padLevel l = l ++ [x] := by
  simp [padLevel, hl, hx]

theorem exists_getLast?_of_odd {l : List α} (hl : l.length % 2 = 1) : ∃ x, l.getLast? = some x :=
  Option.ne_none_iff_exists'.mp fun h => by simp [List.getLast?_eq_none_iff.mp h] at hl

/-- The padded level repeats the last hash past the end. -/
theorem getD_padLevel {l : List α} (hl : l ≠ []) {j : ℕ} (hj : j < (padLevel l).length) (d : α) :
    (padLevel l).getD j d = l.getD (min j (l.length - 1)) d := by
  have hpos := List.length_pos_of_ne_nil hl
  unfold padLevel at hj ⊢
  split_ifs at hj ⊢ with hodd
  · obtain ⟨x, hx⟩ := exists_getLast?_of_odd hodd
    rw [hx, Option.toList_some] at hj ⊢
    rw [List.length_append, List.length_singleton] at hj
    rw [List.getD_eq_getElem?_getD, List.getD_eq_getElem?_getD]
    rcases Nat.lt_or_ge j l.length with hlt | hge
    · rw [List.getElem?_append_left hlt, min_eq_left (by omega)]
    · -- `j` is the position of the copy of the last hash
      have hjl : j = l.length := by omega
      rw [List.getElem?_append_right hge, hjl, Nat.sub_self, List.getElem?_cons_zero,
        min_eq_right (by omega), ← List.getLast?_eq_getElem?, hx]
  · rw [min_eq_left (by omega)]

/-- A level of more than one hash is followed by a shorter one. -/
theorem length_next_lt {l : List α} (h : 1 < l.length) :
    (sha256D64 H (padLevel l)).length < l.length := by
  rw [length_sha256D64, length_padLevel (List.ne_nil_of_length_pos (by omega))]
  omega

theorem next_ne_nil {l : List α} (h : 1 < l.length) : sha256D64 H (padLevel l) ≠ [] := by
  apply List.ne_nil_of_length_pos
  rw [length_sha256D64, length_padLevel (List.ne_nil_of_length_pos (by omega))]
  omega

/-- Induction over the levels of the loop: a property of the levels of at most one hash that
passes from the next level to the current one holds of every level. -/
theorem merkleLevel_induction {P : List α → Prop} (base : ∀ l, l.length ≤ 1 → P l)
    (step : ∀ l, 1 < l.length → P (sha256D64 H (padLevel l)) → P l) (l : List α) : P l := by
  induction hn : l.length using Nat.strongRecOn generalizing l with
  | ind n ih =>
    by_cases h : 1 < l.length
    · exact step l h (ih _ (hn ▸ length_next_lt h) _ rfl)
    · exact base l (by omega)

variable [DecidableEq α]

/-- A level of odd size followed by a copy of its last hash ends with a pair of equal hashes. -/
theorem hasEqualPair_append_getLast :
    ∀ {l : List α} {x : α}, l.length % 2 = 1 → l.getLast? = some x →
      hasEqualPair (l ++ [x]) = true
  | [y], x, _, hx => by
    simp only [List.getLast?_singleton, Option.some.injEq] at hx
    simp [hasEqualPair, hx]
  | a :: b :: rest, x, hl, hx => by
    simp only [List.length_cons] at hl
    obtain ⟨c, rest', rfl⟩ := List.exists_cons_of_ne_nil (show rest ≠ [] by rintro rfl; simp at hl)
    have hlast : (c :: rest').getLast? = some x := by simpa [List.getLast?_cons_cons] using hx
    have ih : hasEqualPair ((c :: rest') ++ [x]) = true :=
      hasEqualPair_append_getLast (by simp at hl ⊢; omega) hlast
    rw [List.cons_append] at ih
    simp [hasEqualPair, ih]
  | [], _, hl, _ => by simp at hl

/-- Padding is injective on the levels without a pair of equal hashes: a padded odd level ends
with a pair of equal hashes. -/
theorem eq_of_padLevel_eq {l l' : List α} (hl : hasEqualPair l = false)
    (hl' : hasEqualPair l' = false) (h : padLevel l = padLevel l') : l = l' := by
  rcases Nat.mod_two_eq_zero_or_one l.length with hl2 | hl2 <;>
    rcases Nat.mod_two_eq_zero_or_one l'.length with hl2' | hl2'
  · rwa [padLevel_of_even hl2, padLevel_of_even hl2'] at h
  · -- `l` would be `l'` padded, which ends with a pair of equal hashes
    obtain ⟨x', hx'⟩ := exists_getLast?_of_odd hl2'
    rw [padLevel_of_even hl2, padLevel_of_odd hl2' hx'] at h
    have hpair := hasEqualPair_append_getLast hl2' hx'
    rw [← h, hl] at hpair
    exact absurd hpair Bool.false_ne_true
  · obtain ⟨x, hx⟩ := exists_getLast?_of_odd hl2
    rw [padLevel_of_odd hl2 hx, padLevel_of_even hl2'] at h
    have hpair := hasEqualPair_append_getLast hl2 hx
    rw [h, hl'] at hpair
    exact absurd hpair Bool.false_ne_true
  · -- both are padded with their last hash
    obtain ⟨x, hx⟩ := exists_getLast?_of_odd hl2
    obtain ⟨x', hx'⟩ := exists_getLast?_of_odd hl2'
    rw [padLevel_of_odd hl2 hx, padLevel_of_odd hl2' hx'] at h
    exact (List.append_inj h (by simpa using congrArg List.length h)).1


/-! ### The loop -/

variable (H) in
/-- The `while (hashes.size() > 1)` loop of `ComputeMerkleRoot`, with `mutation`: check the
pairs, pad and hash the level. -/
def merkleLoop (hashes : List α) (mutation : Bool) : List α × Bool :=
  if 1 < hashes.length then
    merkleLoop (sha256D64 H (padLevel hashes)) (mutation || hasEqualPair hashes)
  else (hashes, mutation)
termination_by hashes.length
decreasing_by exact length_next_lt ‹_›

variable (H) in
/-- `ComputeMerkleRoot(hashes, &mutated)`: the root, `uint256()` for no hash, and whether a pair
of equal hashes was hashed. -/
def computeMerkleRoot [Inhabited α] (hashes : List α) : α × Bool :=
  ((merkleLoop H hashes false).1.headD default, (merkleLoop H hashes false).2)

theorem merkleLoop_of_le {l : List α} (h : l.length ≤ 1) (m : Bool) :
    merkleLoop H l m = (l, m) := by
  rw [merkleLoop, if_neg (by omega)]

theorem merkleLoop_of_lt {l : List α} (h : 1 < l.length) (m : Bool) :
    merkleLoop H l m = merkleLoop H (sha256D64 H (padLevel l)) (m || hasEqualPair l) := by
  rw [merkleLoop, if_pos h]

/-- The root does not depend on the flag. -/
theorem merkleLoop_fst_eq (l : List α) (m m' : Bool) :
    (merkleLoop H l m).1 = (merkleLoop H l m').1 := by
  induction l using merkleLevel_induction generalizing m m' with
  | base l hl => rw [merkleLoop_of_le hl, merkleLoop_of_le hl]
  | step l hl ih => rw [merkleLoop_of_lt hl, merkleLoop_of_lt hl, ih]

/-- Once set, `mutation` stays set. -/
theorem merkleLoop_true (l : List α) : (merkleLoop H l true).2 = true := by
  induction l using merkleLevel_induction with
  | base l hl => rw [merkleLoop_of_le hl]
  | step l hl ih => rw [merkleLoop_of_lt hl, Bool.true_or, ih]

/-- `hasEqualPair` finds a pair `(2 * j, 2 * j + 1)` of equal hashes. -/
theorem hasEqualPair_iff (l : List α) :
    hasEqualPair l = true ↔ ∃ j x, l[2 * j]? = some x ∧ l[2 * j + 1]? = some x := by
  fun_induction hasEqualPair l with
  | case1 a b rest ih =>
    rw [Bool.or_eq_true, beq_iff_eq, ih]
    constructor
    · rintro (rfl | ⟨j, x, hj, hj'⟩)
      · exact ⟨0, a, rfl, rfl⟩
      · refine ⟨j + 1, x, ?_, ?_⟩
        · rwa [show 2 * (j + 1) = 2 * j + 1 + 1 by omega, List.getElem?_cons_succ,
            List.getElem?_cons_succ]
        · rwa [show 2 * (j + 1) + 1 = 2 * j + 1 + 1 + 1 by omega, List.getElem?_cons_succ,
            List.getElem?_cons_succ]
    · rintro ⟨_ | j, x, hj, hj'⟩
      · simp only [Nat.mul_zero, List.getElem?_cons_zero, Option.some.injEq, Nat.zero_add,
          List.getElem?_cons_succ] at hj hj'
        exact .inl (hj.trans hj'.symm)
      · refine .inr ⟨j, x, ?_, ?_⟩
        · rwa [show 2 * (j + 1) = 2 * j + 1 + 1 by omega, List.getElem?_cons_succ,
            List.getElem?_cons_succ] at hj
        · rwa [show 2 * (j + 1) + 1 = 2 * j + 1 + 1 + 1 by omega, List.getElem?_cons_succ,
            List.getElem?_cons_succ] at hj'
  | case2 l hl =>
    -- a list that is no pair has at most one element, so no position `2 * j + 1`
    simp only [Bool.false_eq_true, false_iff, not_exists, not_and]
    intro j x _ hj'
    rcases l with _ | ⟨a, _ | ⟨b, rest⟩⟩
    · simp at hj'
    · simp at hj'
    · exact hl a b rest rfl

/-- An unreported level of more than one hash has no pair of equal hashes, and the next level is
unreported. -/
theorem merkleLoop_false_of_lt {l : List α} (hl : 1 < l.length)
    (h : (merkleLoop H l false).2 = false) :
    hasEqualPair l = false ∧ (merkleLoop H (sha256D64 H (padLevel l)) false).2 = false := by
  rw [merkleLoop_of_lt hl, Bool.false_or] at h
  cases hpair : hasEqualPair l
  · exact ⟨rfl, hpair ▸ h⟩
  · rw [hpair, merkleLoop_true] at h
    exact absurd h (by decide)


/-! ### Levels and roots -/

section Levels

variable {Leaf : Set α}

omit [DecidableEq α] in
/-- The next level of a level of height `k` has height `k + 1`. -/
theorem isLevel_next {l : List α} {k : ℕ} (hlev : ∀ x ∈ l, IsLevel H Leaf k x) :
    ∀ y ∈ sha256D64 H (padLevel l), IsLevel H Leaf (k + 1) y := by
  intro y hy
  obtain ⟨a, ha, b, hb, rfl⟩ := mem_sha256D64 hy
  exact isLevel_succ (hlev a (mem_of_mem_padLevel ha)) (hlev b (mem_of_mem_padLevel hb))

/-- The loop ends on one hash, the root, whose height is that of the level plus the number of
iterations, at least one when there is more than one hash. -/
theorem merkleLoop_root (l : List α) :
    ∀ (k : ℕ) (m : Bool), l ≠ [] → (∀ x ∈ l, IsLevel H Leaf k x) →
      ∃ r j, (merkleLoop H l m).1 = [r] ∧ k ≤ j ∧ (1 < l.length → k < j) ∧
        IsLevel H Leaf j r := by
  induction l using merkleLevel_induction with
  | base l hl =>
    intro k m hne hlev
    -- a level of one hash is its own root
    obtain ⟨x, rfl⟩ : ∃ x, l = [x] := by
      match l, hne, hl with
      | [x], _, _ => exact ⟨x, rfl⟩
    exact ⟨x, k, merkleLoop_of_le hl m ▸ rfl, Nat.le_refl k, by simp, hlev x (by simp)⟩
  | step l hl ih =>
    intro k m _ hlev
    obtain ⟨r, j, hr, hkj, -, hrj⟩ := ih (k + 1) (m || hasEqualPair l) (next_ne_nil hl)
      (isLevel_next hlev)
    exact ⟨r, j, by rw [merkleLoop_of_lt hl, hr], by omega, fun _ => by omega, hrj⟩

variable (hinj : Function.Injective2 H) (hdisj : ∀ a b, H a b ∉ Leaf)
include hinj hdisj

/-- A level of at most one hash and a longer level of the same height have different roots:
the root of the longer one is higher. -/
theorem merkleLoop_fst_ne {l l' : List α} {k : ℕ} (hl : l.length ≤ 1) (hl' : 1 < l'.length)
    (hlev : ∀ x ∈ l, IsLevel H Leaf k x) (hlev' : ∀ x ∈ l', IsLevel H Leaf k x) (m m' : Bool) :
    (merkleLoop H l m).1 ≠ (merkleLoop H l' m').1 := by
  obtain ⟨r', j, hr', -, hkj, hrj⟩ :=
    merkleLoop_root l' k m' (List.ne_nil_of_length_pos (by omega)) hlev'
  rw [merkleLoop_of_le hl, hr']
  rintro rfl
  -- the root of the longer level would be a hash of height `k`
  have hk : IsLevel H Leaf k r' := hlev r' (by simp)
  exact absurd (IsLevel.unique hinj hdisj hk hrj) (by omega)

/-- Two unreported levels of the same height with the same root are equal: going down from the
root, equal levels come from equal padded levels, hence from equal levels. -/
theorem eq_of_merkleLoop_eq (l : List α) :
    ∀ (l' : List α) (k : ℕ), (∀ x ∈ l, IsLevel H Leaf k x) → (∀ x ∈ l', IsLevel H Leaf k x) →
      (merkleLoop H l false).2 = false → (merkleLoop H l' false).2 = false →
        (merkleLoop H l false).1 = (merkleLoop H l' false).1 → l = l' := by
  induction l using merkleLevel_induction with
  | base l hl =>
    intro l' k hlev hlev' _ _ hroot
    by_cases hl' : 1 < l'.length
    · exact absurd hroot (merkleLoop_fst_ne hinj hdisj hl hl' hlev hlev' _ _)
    · rwa [merkleLoop_of_le hl, merkleLoop_of_le (by omega)] at hroot
  | step l hl ih =>
    intro l' k hlev hlev' hmut hmut' hroot
    by_cases hl' : 1 < l'.length
    · obtain ⟨hpair, hmut⟩ := merkleLoop_false_of_lt hl hmut
      obtain ⟨hpair', hmut'⟩ := merkleLoop_false_of_lt hl' hmut'
      rw [merkleLoop_of_lt hl, merkleLoop_of_lt hl', merkleLoop_fst_eq _ _ false,
        merkleLoop_fst_eq (sha256D64 H (padLevel l')) _ false] at hroot
      -- the next levels are equal, hence the padded levels, hence the levels
      have hnext := ih _ (k + 1) (isLevel_next hlev) (isLevel_next hlev') hmut hmut' hroot
      have hpad := sha256D64_injective hinj
        (length_padLevel_mod_two (List.ne_nil_of_length_pos (by omega)))
        (length_padLevel_mod_two (List.ne_nil_of_length_pos (by omega))) hnext
      exact eq_of_padLevel_eq hpair hpair' hpad
    · exact absurd hroot.symm (merkleLoop_fst_ne hinj hdisj (by omega) hl hlev' hlev _ _)

end Levels

/-- The mutation check of `ComputeMerkleRoot` detects every list of leaves that shares its root
with another: when the hash of a pair has no collisions and its values are no leaves, of two
distinct non-empty lists of leaves with the same root, `ComputeMerkleRoot` reports one as
mutated. -/
theorem computeMerkleRoot_mutation_detected [Inhabited α] (hinj : Function.Injective2 H)
    (Leaf : Set α) (hdisj : ∀ a b, H a b ∉ Leaf) {L L' : List α} (hL : L ≠ []) (hL' : L' ≠ [])
    (hleaf : ∀ x ∈ L, x ∈ Leaf) (hleaf' : ∀ x ∈ L', x ∈ Leaf) (hne : L ≠ L')
    (hroot : (computeMerkleRoot H L).1 = (computeMerkleRoot H L').1) :
    (computeMerkleRoot H L).2 = true ∨ (computeMerkleRoot H L').2 = true := by
  obtain ⟨r, -, hr, -⟩ := merkleLoop_root L 0 false hL hleaf
  obtain ⟨r', -, hr', -⟩ := merkleLoop_root L' 0 false hL' hleaf'
  unfold computeMerkleRoot at hroot ⊢
  rw [hr, hr', List.headD_cons, List.headD_cons] at hroot
  dsimp only at hroot
  by_contra hmut
  simp only [not_or, Bool.not_eq_true] at hmut
  exact hne (eq_of_merkleLoop_eq hinj hdisj L L' 0 hleaf hleaf' hmut.1 hmut.2
    (by rw [hr, hr', hroot]))


/-- A pairing of numbers without collisions whose values, even, are no odd leaf. -/
def oddLeafPairHash (a b : ℕ) : ℕ := 2 * Nat.pair a b

theorem oddLeafPairHash_injective2 : Function.Injective2 oddLeafPairHash := by
  intro a b c d h
  unfold oddLeafPairHash at h
  exact Nat.pair_eq_pair.mp (by omega)

/-- `computeMerkleRoot_mutation_detected` at `[1, 3, 5]` and `[1, 3, 5, 5]`, which share their
root as the lists of the comment of `merkle.cpp` do. -/
theorem computeMerkleRoot_mutation_detected_odd_level :
    (computeMerkleRoot oddLeafPairHash [1, 3, 5]).1 =
        (computeMerkleRoot oddLeafPairHash [1, 3, 5, 5]).1 ∧
      ((computeMerkleRoot oddLeafPairHash [1, 3, 5]).2 = true ∨
        (computeMerkleRoot oddLeafPairHash [1, 3, 5, 5]).2 = true) := by
  have hroot : (computeMerkleRoot oddLeafPairHash [1, 3, 5]).1 =
      (computeMerkleRoot oddLeafPairHash [1, 3, 5, 5]).1 := by
    simp [computeMerkleRoot, merkleLoop_of_lt, merkleLoop_of_le, padLevel, sha256D64,
      oddLeafPairHash, Nat.pair]
  refine ⟨hroot, computeMerkleRoot_mutation_detected oddLeafPairHash_injective2 {x | x % 2 = 1}
    (fun a b => by simp [oddLeafPairHash]) (by simp) (by simp) (by simp) (by simp) (by decide)
    hroot⟩

end BitcoinCash
