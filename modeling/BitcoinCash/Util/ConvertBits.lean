import BitcoinCash.Data.BitGroups
import Mathlib.Data.List.Basic
import Mathlib.Data.Nat.Bitwise
import Mathlib.Tactic.Ring

/-!
# `ConvertBits`

`ConvertBits<frombits, tobits, pad>` of `util/strencodings.h` reads values of `frombits` bits and
passes values of `tobits` bits to `outfn`. It shifts each value read into the accumulator `acc`,
counts in `bits` the bits of `acc` not written yet, and writes their top `tobits` while there are
that many. At the end, with `pad`, the bits left are written followed by zeros; without, fewer
than `frombits` of them must be left, all zero, or the conversion fails.

`acc` is cut to `frombits + tobits - 1` bits (`max_acc`). The bits not written yet are never more
than `tobits - 1` before a value is shifted in, so the cut keeps them: the loop invariant
`ConvertBits.Pending` says that the bits read are those written, then the low `bits` bits of
`acc`. Numbers of bits are those of `BitGroups.value`.

Callers pass a lambda taking a `uint8_t` as `outfn`, so the values written are `uint8_t`; the
lemmas ask `tobits <= 8`, where nothing is cut. `size_t` is 64 bits wide.
-/

namespace BitcoinCash

namespace ConvertBits

open BitGroups

/-- The template arguments `frombits` and `tobits`, with the `static_assert` of `ConvertBits` for a
64-bit `size_t` (the bound on the sum bounds each of them). -/
structure Widths where
  frombits : ℕ
  tobits : ℕ
  frombits_pos : 0 < frombits
  tobits_pos : 0 < tobits
  add_le : frombits + tobits ≤ 64

namespace Widths

/-- The widths the other way round, as a decoder uses them. -/
def swap (w : Widths) : Widths :=
  ⟨w.tobits, w.frombits, w.tobits_pos, w.frombits_pos, by rw [Nat.add_comm]; exact w.add_le⟩

@[simp] theorem swap_frombits (w : Widths) : w.swap.frombits = w.tobits := rfl

@[simp] theorem swap_tobits (w : Widths) : w.swap.tobits = w.frombits := rfl

/-- `maxv`. -/
def maxv (w : Widths) : ℕ := 2 ^ w.tobits - 1

/-- `max_acc`. -/
def maxAcc (w : Widths) : ℕ := 2 ^ (w.frombits + w.tobits - 1) - 1

end Widths

/-- The locals `acc` and `bits` of `ConvertBits`, and the values passed to `outfn` so far. -/
structure State where
  acc : ℕ
  bits : ℕ
  out : List UInt8

variable (w : Widths)

/-- The inner loop `while (bits >= tobits)`, for at most `fuel` rounds. -/
def drain (acc : ℕ) : ℕ → ℕ → List UInt8 → ℕ × List UInt8
  | 0, bits, out => (bits, out)
  | fuel + 1, bits, out =>
    if w.tobits ≤ bits then
      drain acc fuel (bits - w.tobits) (out ++ [((acc >>> (bits - w.tobits)) &&& w.maxv).toUInt8])
    else (bits, out)

/-- One round of the outer loop, on the value `*it`; each round of the inner loop writes at least
one bit, so `bits` rounds are enough. -/
def step (st : State) (x : UInt8) : State :=
  let acc := ((st.acc <<< w.frombits) ||| x.toNat) &&& w.maxAcc
  let bits := st.bits + w.frombits
  let r := drain w acc bits bits st.out
  ⟨acc, r.1, r.2⟩

/-- `ConvertBits<frombits, tobits, pad>`: the values passed to `outfn`, and the result. -/
def convertBits (pad : Bool) (input : List UInt8) : List UInt8 × Bool :=
  let st := input.foldl (step w) ⟨0, 0, []⟩
  if pad then
    if st.bits ≠ 0 then
      (st.out ++ [((st.acc <<< (w.tobits - st.bits)) &&& w.maxv).toUInt8], true)
    else (st.out, true)
  else if w.frombits ≤ st.bits ∨ (st.acc <<< (w.tobits - st.bits)) &&& w.maxv ≠ 0 then
    (st.out, false)
  else (st.out, true)

/-! ### The values written -/

theorem toNat_toUInt8_of_lt (hw : w.tobits ≤ 8) {x : ℕ} (hx : x < 2 ^ w.tobits) :
    x.toUInt8.toNat = x := by
  have hx8 : x < 2 ^ 8 := Nat.lt_of_lt_of_le hx (Nat.pow_le_pow_right (by omega) hw)
  rw [Nat.toUInt8, UInt8.toNat_ofNat', Nat.mod_eq_of_lt hx8]

/-- The value `(acc >> k) & maxv` is the `tobits`-bit group of `acc` above bit `k`. -/
theorem group_eq (acc k : ℕ) : (acc >>> k) &&& w.maxv = acc / 2 ^ k % 2 ^ w.tobits := by
  rw [Widths.maxv, Nat.and_two_pow_sub_one_eq_mod, Nat.shiftRight_eq_div_pow]

/-- The last value `(acc << (tobits - bits)) & maxv` is the low `bits` bits of `acc` followed by
zeros. -/
theorem padGroup_eq {bits : ℕ} (hb : bits ≤ w.tobits) (acc : ℕ) :
    (acc <<< (w.tobits - bits)) &&& w.maxv = acc % 2 ^ bits * 2 ^ (w.tobits - bits) := by
  rw [Widths.maxv, Nat.and_two_pow_sub_one_eq_mod, Nat.shiftLeft_eq, mul_two_pow_sub_mod hb]

/-! ### The loop invariant -/

/-- **The inner loop** writes the top groups of the low `bits` bits of `acc` until fewer than
`tobits` of them are left, given enough rounds. -/
theorem drain_spec (hw : w.tobits ≤ 8) (acc : ℕ) {fuel bits bits' : ℕ} {out out' : List UInt8}
    (hfuel : bits / w.tobits ≤ fuel) (hout : ∀ y ∈ out, y.toNat < 2 ^ w.tobits)
    (h : drain w acc fuel bits out = (bits', out')) :
    bits' < w.tobits ∧ w.tobits * out'.length + bits' = w.tobits * out.length + bits ∧
      (∀ y ∈ out', y.toNat < 2 ^ w.tobits) ∧
      value w.tobits (out'.map UInt8.toNat) * 2 ^ bits' + acc % 2 ^ bits' =
        value w.tobits (out.map UInt8.toNat) * 2 ^ bits + acc % 2 ^ bits := by
  induction fuel generalizing bits out with
  | zero =>
    rw [drain] at h
    cases h
    -- no round left: `bits / tobits = 0`
    refine ⟨Nat.lt_of_not_le fun hge => ?_, rfl, hout, rfl⟩
    have := Nat.div_pos hge w.tobits_pos
    omega
  | succ fuel ih =>
    rw [drain] at h
    split_ifs at h with hb
    · -- the group above the `bits - tobits` bits still pending is written
      have hd : (((acc >>> (bits - w.tobits)) &&& w.maxv).toUInt8).toNat =
          acc / 2 ^ (bits - w.tobits) % 2 ^ w.tobits := by
        rw [group_eq, toNat_toUInt8_of_lt w hw (Nat.mod_lt _ (Nat.two_pow_pos _))]
      have hdiv : bits / w.tobits = (bits - w.tobits) / w.tobits + 1 := by
        conv_lhs => rw [← Nat.sub_add_cancel hb]
        exact Nat.add_div_right _ w.tobits_pos
      have hout' : ∀ y ∈ out ++ [((acc >>> (bits - w.tobits)) &&& w.maxv).toUInt8],
          y.toNat < 2 ^ w.tobits := by
        intro y hy
        rcases List.mem_append.mp hy with hy | hy
        · exact hout y hy
        · rw [List.mem_singleton.mp hy, hd]
          exact Nat.mod_lt _ (Nat.two_pow_pos _)
      obtain ⟨h₁, h₂, h₃, h₄⟩ := ih (by omega) hout' h
      have hsplit := mod_two_pow_add acc (bits - w.tobits) w.tobits
      rw [Nat.sub_add_cancel hb] at hsplit
      have hpow : 2 ^ bits = 2 ^ w.tobits * 2 ^ (bits - w.tobits) := by
        rw [← Nat.pow_add, Nat.add_sub_cancel' hb]
      refine ⟨h₁, ?_, h₃, ?_⟩
      · rw [h₂, List.length_append, List.length_singleton, Nat.mul_succ]
        omega
      · rw [h₄, List.map_append, List.map_singleton, value_append_singleton, hd, hsplit, hpow]
        ring
    · cases h
      exact ⟨Nat.lt_of_not_le hb, rfl, hout, rfl⟩

/-- What the outer loop keeps after reading `xs`: the bits of `xs` are those of the values
written, then the low `bits` bits of `acc`, fewer than `tobits` of them. -/
structure Pending (xs : List UInt8) (st : State) : Prop where
  bits_lt : st.bits < w.tobits
  length_eq : w.tobits * st.out.length + st.bits = w.frombits * xs.length
  out_lt : ∀ y ∈ st.out, y.toNat < 2 ^ w.tobits
  value_eq : value w.tobits (st.out.map UInt8.toNat) * 2 ^ st.bits + st.acc % 2 ^ st.bits =
    value w.frombits (xs.map UInt8.toNat)

theorem pending_init : Pending w [] ⟨0, 0, []⟩ where
  bits_lt := w.tobits_pos
  length_eq := by simp
  out_lt := fun _ h => absurd h List.not_mem_nil
  value_eq := by simp

/-- **One round of the outer loop keeps the invariant**: the value read goes in below the pending
bits, all of which `max_acc` keeps. -/
theorem Pending.step (hw : w.tobits ≤ 8) {xs : List UInt8} {st : State} (hst : Pending w xs st)
    {x : UInt8} (hx : x.toNat < 2 ^ w.frombits) : Pending w (xs ++ [x]) (step w st x) := by
  have hacc : (((st.acc <<< w.frombits) ||| x.toNat) &&& w.maxAcc) % 2 ^ (st.bits + w.frombits) =
      st.acc % 2 ^ st.bits * 2 ^ w.frombits + x.toNat := by
    have hle : st.bits + w.frombits ≤ w.frombits + w.tobits - 1 := by
      have := hst.bits_lt
      omega
    rw [Widths.maxAcc, Nat.and_two_pow_sub_one_eq_mod, ← Nat.shiftLeft_add_eq_or_of_lt hx,
      Nat.shiftLeft_eq, Nat.mod_mod_of_dvd _ (Nat.pow_dvd_pow 2 hle), shift_add_mod hx]
  rcases hr : drain w (((st.acc <<< w.frombits) ||| x.toNat) &&& w.maxAcc)
    (st.bits + w.frombits) (st.bits + w.frombits) st.out with ⟨bits', out'⟩
  obtain ⟨h₁, h₂, h₃, h₄⟩ := drain_spec w hw _ (Nat.div_le_self _ _) hst.out_lt hr
  rw [ConvertBits.step, hr]
  refine ⟨h₁, ?_, h₃, ?_⟩ <;> dsimp only
  · rw [List.length_append, List.length_singleton, Nat.mul_succ, ← hst.length_eq]
    omega
  · rw [h₄, List.map_append, List.map_singleton, value_append_singleton, ← hst.value_eq, hacc,
      Nat.pow_add]
    ring

/-- **The outer loop keeps the invariant**, one round per value read. -/
theorem Pending.foldl (hw : w.tobits ≤ 8) {xs : List UInt8} {st : State} (hst : Pending w xs st)
    {ys : List UInt8} (hys : ∀ y ∈ ys, y.toNat < 2 ^ w.frombits) :
    Pending w (xs ++ ys) (ys.foldl (ConvertBits.step w) st) := by
  induction ys generalizing xs st with
  | nil => simpa using hst
  | cons y ys ih =>
    rw [List.forall_mem_cons] at hys
    rw [List.foldl_cons, ← List.singleton_append, ← List.append_assoc]
    exact ih (hst.step w hw hys.1) hys.2

theorem pending_convert (hw : w.tobits ≤ 8) {xs : List UInt8}
    (hxs : ∀ x ∈ xs, x.toNat < 2 ^ w.frombits) :
    Pending w xs (xs.foldl (step w) ⟨0, 0, []⟩) := by
  simpa using (pending_init w).foldl w hw hxs

/-! ### What the conversion computes -/

/-- **`ConvertBits` with padding** writes the bits of its input in groups of `tobits`, the last
group filled up with `p < tobits` zero bits. -/
theorem convertBits_true (hw : w.tobits ≤ 8) {xs : List UInt8}
    (hxs : ∀ x ∈ xs, x.toNat < 2 ^ w.frombits) :
    ∃ ys p, convertBits w true xs = (ys, true) ∧ (∀ y ∈ ys, y.toNat < 2 ^ w.tobits) ∧
      p < w.tobits ∧ w.tobits * ys.length = w.frombits * xs.length + p ∧
      value w.tobits (ys.map UInt8.toNat) = value w.frombits (xs.map UInt8.toNat) * 2 ^ p := by
  have hst := pending_convert w hw hxs
  rw [convertBits]
  generalize xs.foldl (step w) ⟨0, 0, []⟩ = st at hst ⊢
  by_cases hb : st.bits = 0
  · -- nothing left over
    refine ⟨st.out, 0, by rw [if_pos rfl, if_neg (not_not.mpr hb)], hst.out_lt, w.tobits_pos,
      ?_, ?_⟩
    · have hlen := hst.length_eq
      rw [hb] at hlen
      omega
    · rw [← hst.value_eq, hb]
      simp [Nat.mod_one]
  · -- the last group: the `bits` bits left over and `tobits - bits` zeros
    have hle := Nat.le_of_lt hst.bits_lt
    have hlt : st.acc % 2 ^ st.bits * 2 ^ (w.tobits - st.bits) < 2 ^ w.tobits := by
      rw [← mul_two_pow_sub_mod hle]
      exact Nat.mod_lt _ (Nat.two_pow_pos _)
    have hd : (((st.acc <<< (w.tobits - st.bits)) &&& w.maxv).toUInt8).toNat =
        st.acc % 2 ^ st.bits * 2 ^ (w.tobits - st.bits) := by
      rw [padGroup_eq w hle, toNat_toUInt8_of_lt w hw hlt]
    have hpow : 2 ^ w.tobits = 2 ^ st.bits * 2 ^ (w.tobits - st.bits) := by
      rw [← Nat.pow_add, Nat.add_sub_cancel' hle]
    refine ⟨st.out ++ [((st.acc <<< (w.tobits - st.bits)) &&& w.maxv).toUInt8], w.tobits - st.bits,
      by rw [if_pos rfl, if_pos hb], ?_, by omega, ?_, ?_⟩
    · intro y hy
      rcases List.mem_append.mp hy with hy | hy
      · exact hst.out_lt y hy
      · rw [List.mem_singleton.mp hy, hd]
        exact hlt
    · rw [List.length_append, List.length_singleton, Nat.mul_succ, ← hst.length_eq]
      omega
    · rw [List.map_append, List.map_singleton, value_append_singleton, hd, ← hst.value_eq, hpow]
      ring

/-- **`ConvertBits` without padding** writes the whole groups of `tobits` bits of its input, and
succeeds when the `r` bits left over are fewer than `frombits` and zero. -/
theorem convertBits_false (hw : w.tobits ≤ 8) {xs : List UInt8}
    (hxs : ∀ x ∈ xs, x.toNat < 2 ^ w.frombits) :
    ∃ out r a, convertBits w false xs = (out, decide (r < w.frombits ∧ a = 0)) ∧
      (∀ y ∈ out, y.toNat < 2 ^ w.tobits) ∧ r < w.tobits ∧ a < 2 ^ r ∧
      w.tobits * out.length + r = w.frombits * xs.length ∧
      value w.tobits (out.map UInt8.toNat) * 2 ^ r + a = value w.frombits (xs.map UInt8.toNat) := by
  have hst := pending_convert w hw hxs
  rw [convertBits]
  generalize xs.foldl (step w) ⟨0, 0, []⟩ = st at hst ⊢
  refine ⟨st.out, st.bits, st.acc % 2 ^ st.bits, ?_, hst.out_lt, hst.bits_lt,
    Nat.mod_lt _ (Nat.two_pow_pos _), hst.length_eq, hst.value_eq⟩
  -- the padding bits are zero exactly when the bits left over are
  have hpad : (st.acc <<< (w.tobits - st.bits)) &&& w.maxv ≠ 0 ↔ st.acc % 2 ^ st.bits ≠ 0 := by
    rw [padGroup_eq w (Nat.le_of_lt hst.bits_lt), Nat.mul_ne_zero_iff]
    exact ⟨fun h => h.1, fun h => ⟨h, (Nat.two_pow_pos _).ne'⟩⟩
  by_cases hfail : w.frombits ≤ st.bits ∨ st.acc % 2 ^ st.bits ≠ 0
  · rw [if_neg Bool.false_ne_true, if_pos (by rwa [hpad])]
    simp only [Prod.mk.injEq, true_and]
    rw [eq_comm, decide_eq_false_iff_not]
    omega
  · rw [if_neg Bool.false_ne_true, if_neg (by rwa [hpad])]
    simp only [Prod.mk.injEq, true_and]
    rw [eq_comm, decide_eq_true_iff]
    omega

/-! ### Round trips -/

theorem map_toNat_injective {xs ys : List UInt8} (h : xs.map UInt8.toNat = ys.map UInt8.toNat) :
    xs = ys :=
  List.map_injective_iff.mpr (fun _ _ h => UInt8.toNat_inj.mp h) h

/-- **Converting with padding and back without loses nothing**, when the groups are no wider than
the values. -/
theorem convertBits_swap_convertBits (hf : w.frombits ≤ 8) (ht : w.tobits ≤ w.frombits)
    {xs : List UInt8} (hxs : ∀ x ∈ xs, x.toNat < 2 ^ w.frombits) :
    convertBits w.swap false (convertBits w true xs).1 = (xs, true) := by
  obtain ⟨ys, p, hys, hys_lt, hp, hlen, hval⟩ := convertBits_true w (by omega) hxs
  obtain ⟨out, r, a, hout, hout_lt, hr, ha, hlen', hval'⟩ := convertBits_false w.swap hf hys_lt
  simp only [Widths.swap_frombits, Widths.swap_tobits] at hout hout_lt hr hlen' hval'
  -- as many values come back as went in, with the same `p` bits left over
  have hn : out.length = xs.length :=
    eq_of_mul_add_eq hr (by omega : p < w.frombits) (by rw [hlen', hlen])
  have hrp : r = p := by
    rw [hn, hlen] at hlen'
    omega
  subst hrp
  obtain ⟨rfl, hv⟩ := eq_of_mul_two_pow_add_eq ha (hval'.trans hval)
  have hxs' : out = xs := map_toNat_injective (eq_of_value_eq w.frombits_pos
    (by rw [List.length_map, List.length_map, hn]) (by simpa using hout_lt) (by simpa using hxs) hv)
  rw [hys, hout, hxs']
  simp [hp]

/-- **Canonicity**: what converts back without padding is exactly what the padded conversion of
the result writes, padding bits included. -/
theorem convertBits_of_convertBits_swap (hf : w.frombits ≤ 8) (ht : w.tobits ≤ w.frombits)
    {ys xs : List UInt8} (hys : ∀ y ∈ ys, y.toNat < 2 ^ w.tobits)
    (h : convertBits w.swap false ys = (xs, true)) : convertBits w true xs = (ys, true) := by
  obtain ⟨out, r, a, hout, hout_lt, hr, ha, hlen, hval⟩ := convertBits_false w.swap hf hys
  simp only [Widths.swap_frombits, Widths.swap_tobits] at hout hout_lt hr hlen hval
  rw [hout, Prod.mk.injEq] at h
  obtain ⟨rfl, hok⟩ := h
  obtain ⟨hrt, rfl⟩ := of_decide_eq_true hok
  obtain ⟨ys', p, hys', hys'_lt, hp, hlen', hval'⟩ := convertBits_true w (by omega) hout_lt
  -- the padded conversion writes as many groups, with as many zero bits, as `ys` has
  have hn : ys'.length = ys.length :=
    eq_of_mul_add_eq hrt hp (by rw [hlen', ← hlen]; ring)
  have hpr : p = r := by
    rw [hn, ← hlen] at hlen'
    omega
  subst hpr
  have hv : value w.tobits (ys'.map UInt8.toNat) = value w.tobits (ys.map UInt8.toNat) := by
    rw [hval', ← hval, Nat.add_zero]
  rw [hys', map_toNat_injective (eq_of_value_eq w.tobits_pos
    (by rw [List.length_map, List.length_map, hn]) (by simpa using hys'_lt) (by simpa using hys) hv)]

end ConvertBits

end BitcoinCash
