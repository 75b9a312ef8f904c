import BitcoinCash.Script.SigEncoding

/-!
# The strict DER grammar of `IsValidDERSignatureEncoding`

`IsValidDERSignatureEncoding` (BIP66) accepts a signature
`0x30 [total-length] 0x02 [R-length] [R] 0x02 [S-length] [S]` of 8 to 72 bytes whose integers
`R` and `S` are not empty, not negative and without a zero byte in front that the next byte does
not need. Its checks read `sig[i]` with no bound check of their own; the source orders them so
that each index is below the size by the checks before it.

The model `isValidDERSignatureEncoding` reads through `getD`, which hides a read past the end.
`isValidDERSignatureEncodingReads` is the same function with every `sig[i]` read through
`sig[i]?`, so that a read past the end makes it `none`; the two agree on every string
(`isValidDERSignatureEncodingReads_eq`), so no read leaves the slice. The grammar is
`derSignature` of two `ValidDERInteger`s.
-/

namespace BitcoinCash

open Bytes

/-! ### The grammar -/

/-- `0x30 [total-length] 0x02 [R-length] [R] 0x02 [S-length] [S]`. -/
def derSignature (r s : List UInt8) : List UInt8 :=
  [0x30, UInt8.ofNat (r.length + s.length + 4), 0x02, UInt8.ofNat r.length] ++ r ++
    [0x02, UInt8.ofNat s.length] ++ s

/-- An integer of a strict DER signature: not empty, its first byte below `0x80` (not
negative), and a first byte `0x00` only in front of a byte of at least `0x80`. -/
def ValidDERInteger : List UInt8 → Prop
  | [] => False
  | b :: rest => b.toNat < 0x80 ∧ (b = 0 → ∀ c ∈ rest.head?, 0x80 ≤ c.toNat)

/-- A check that rejects, read backwards from an accepted string. -/
theorem ite_false_eq_true {c : Prop} [Decidable c] {x : Bool}
    (h : (if c then false else x) = true) : ¬c ∧ x = true := by
  by_cases hc : c
  · rw [if_pos hc] at h
    exact absurd h Bool.false_ne_true
  · rw [if_neg hc] at h
    exact ⟨hc, h⟩

theorem toNat_and_128_eq_zero_iff (b : UInt8) : b.toNat &&& 128 = 0 ↔ b.toNat < 128 := by
  rw [← and_80_eq_zero_iff, ← UInt8.toNat_inj, UInt8.toNat_and]
  rfl

/-! ### Every read is in bounds -/

/-- `IsValidDERSignatureEncoding` with every `sig[i]` read through `sig[i]?`: `none` when a read
leaves the slice. The `&&` of the source reads `sig[5]` and `sig[startS + 3]` only when the
conditions before them hold. -/
def isValidDERSignatureEncodingReads (sig : List UInt8) : Option Bool :=
  let at_ (i : ℕ) : Option ℕ := sig[i]?.map UInt8.toNat
  if sig.length < 8 ∨ sig.length > 72 then some false else
  (at_ 0).bind fun b0 => if b0 ≠ 0x30 then some false else
  (at_ 1).bind fun b1 => if b1 ≠ sig.length - 2 then some false else
  (at_ 2).bind fun b2 => if b2 ≠ 0x02 then some false else
  (at_ 3).bind fun lenR => if lenR = 0 then some false else
  (at_ 4).bind fun b4 => if b4 &&& 0x80 ≠ 0 then some false else
  if lenR > sig.length - 7 then some false else
  (if lenR > 1 ∧ b4 = 0x00 then (at_ 5).bind fun b5 => some (decide (b5 &&& 0x80 = 0))
    else some false).bind fun padR =>
  if padR then some false else
  let startS := lenR + 4
  (at_ startS).bind fun bS => if bS ≠ 0x02 then some false else
  (at_ (startS + 1)).bind fun lenS => if lenS = 0 then some false else
  (at_ (startS + 2)).bind fun bS2 => if bS2 &&& 0x80 ≠ 0 then some false else
  if startS + lenS + 2 ≠ sig.length then some false else
  (if lenS > 1 ∧ bS2 = 0x00 then (at_ (startS + 3)).bind fun b => some (decide (b &&& 0x80 = 0))
    else some false).bind fun padS =>
  if padS then some false else some true

theorem read_of_lt {sig : List UInt8} {i : ℕ} (h : i < sig.length) :
    sig[i]?.map UInt8.toNat = some (sig.getD i 0).toNat := by
  simp [List.getD_eq_getElem?_getD, List.getElem?_eq_getElem h]

/-- A rejecting check in both readings. -/
theorem ite_some_false {c : Prop} [Decidable c] {x : Option Bool} {y : Bool}
    (h : ¬c → x = some y) : (if c then some false else x) = some (if c then false else y) := by
  by_cases hc : c
  · rw [if_pos hc, if_pos hc]
  · rw [if_neg hc, if_neg hc, h hc]

/-- The padding check `c && d && p(sig[k])`, reading `sig[k]` only after `c` and `d`. -/
theorem padding_step {c d : Prop} [Decidable c] [Decidable d] {r : Option ℕ} {n : ℕ}
    (hr : c ∧ d → r = some n) {p : ℕ → Prop} [DecidablePred p] {x : Option Bool} {y : Bool}
    (h : ¬(c ∧ d ∧ p n) → x = some y) :
    ((if c ∧ d then r.bind fun b => some (decide (p b)) else some false).bind
      fun pad => if pad then some false else x) = some (if c ∧ d ∧ p n then false else y) := by
  by_cases hcd : c ∧ d
  · by_cases hp : p n
    · simp [hcd, hr hcd, hp]
    · simp [hcd, hr hcd, hp, h]
  · have hn : ¬(c ∧ d ∧ p n) := fun h' => hcd ⟨h'.1, h'.2.1⟩
    simp only [if_neg hcd, if_neg hn, Option.bind_some, Bool.false_eq_true, if_false, h hn]

/-- No read of `IsValidDERSignatureEncoding` leaves the slice: with bound-checked reads it
computes what the model computes, on every string. Each read is justified by the checks before
it, in the order of the source. -/
theorem isValidDERSignatureEncodingReads_eq (sig : List UInt8) :
    isValidDERSignatureEncodingReads sig = some (isValidDERSignatureEncoding sig) := by
  unfold isValidDERSignatureEncodingReads isValidDERSignatureEncoding
  dsimp only
  refine ite_some_false fun hlen => ?_
  -- from here on the size is at least 8: the header reads `sig[0]` … `sig[5]` are in bounds
  rw [read_of_lt (by omega), Option.bind_some]
  refine ite_some_false fun _ => ?_
  rw [read_of_lt (by omega), Option.bind_some]
  refine ite_some_false fun _ => ?_
  rw [read_of_lt (by omega), Option.bind_some]
  refine ite_some_false fun _ => ?_
  rw [read_of_lt (by omega), Option.bind_some]
  refine ite_some_false fun _ => ?_
  rw [read_of_lt (by omega), Option.bind_some]
  refine ite_some_false fun _ => ?_
  refine ite_some_false fun hR => ?_
  refine padding_step (p := fun b => b &&& 0x80 = 0) (fun _ => read_of_lt (by omega))
    fun _ => ?_
  -- `lenR ≤ size - 7` puts `startS`, `startS + 1` and `startS + 2` below the size
  rw [read_of_lt (by omega), Option.bind_some]
  refine ite_some_false fun _ => ?_
  rw [read_of_lt (by omega), Option.bind_some]
  refine ite_some_false fun _ => ?_
  rw [read_of_lt (by omega), Option.bind_some]
  refine ite_some_false fun _ => ?_
  refine ite_some_false fun hS => ?_
  -- `startS + 3` is read only when `lenS > 1` and `startS + lenS + 2` is the size
  exact padding_step (p := fun b => b &&& 0x80 = 0) (fun hpad => read_of_lt (by omega))
    fun _ => rfl

/-! ### The check accepts the grammar -/

/-- Every signature of the grammar of at most 72 bytes passes. -/
theorem isValidDERSignatureEncoding_derSignature {r s : List UInt8} (hr : ValidDERInteger r)
    (hs : ValidDERInteger s) (hlen : (derSignature r s).length ≤ 72) :
    isValidDERSignatureEncoding (derSignature r s) = true := by
  obtain ⟨r0, rtl, rfl⟩ : ∃ r0 rtl, r = r0 :: rtl := by
    cases r with
    | nil => exact absurd hr id
    | cons r0 rtl => exact ⟨r0, rtl, rfl⟩
  obtain ⟨s0, stl, rfl⟩ : ∃ s0 stl, s = s0 :: stl := by
    cases s with
    | nil => exact absurd hs id
    | cons s0 stl => exact ⟨s0, stl, rfl⟩
  obtain ⟨hr0, hrpad⟩ := hr
  obtain ⟨hs0, hspad⟩ := hs
  simp only [derSignature, List.length_append, List.length_cons, List.length_nil] at hlen
  -- the length bytes are the lengths themselves
  have hrl : (rtl.length + 1) % 256 = rtl.length + 1 := Nat.mod_eq_of_lt (by omega)
  have hsl : (stl.length + 1) % 256 = stl.length + 1 := Nat.mod_eq_of_lt (by omega)
  have htl : (rtl.length + 1 + (stl.length + 1) + 4) % 256 =
      rtl.length + 1 + (stl.length + 1) + 4 := Nat.mod_eq_of_lt (by omega)
  simp only [isValidDERSignatureEncoding, derSignature, List.length_cons, UInt8.ofNat_add,
    UInt8.ofNat_one, UInt8.reduceOfNat, List.cons_append, List.nil_append, List.append_assoc,
    List.length_append, gt_iff_lt, List.getD_eq_getElem?_getD, lt_add_iff_pos_left, add_pos_iff,
    zero_lt_one, or_true, or_self, Nat.ofNat_pos, getElem?_pos, List.getElem_cons_zero,
    Option.getD_some, UInt8.reduceToNat, ne_eq, not_true_eq_false, ↓reduceIte,
    List.getElem_cons_succ, UInt8.toNat_add, UInt8.toNat_ofNat', Nat.reducePow, Nat.mod_add_mod, hrl,
    hsl, htl, Nat.reduceSubDiff, Nat.reduceEqDiff, Nat.add_eq_zero_iff, List.length_eq_zero_iff,
    one_ne_zero, and_false, add_lt_add_iff_right, lt_add_iff_pos_right, Std.le_refl,
    List.getElem_append_right, tsub_self, add_lt_add_iff_left, le_add_iff_nonneg_right, zero_le,
    add_tsub_cancel_left, List.getElem?_cons_succ, Nat.add_right_cancel_iff, Bool.if_true_right,
    Bool.decide_and, Bool.not_and, Bool.or_false, ite_not, Bool.if_false_right, Bool.if_false_left,
    Bool.decide_or, Bool.not_or, Bool.and_eq_true, Bool.not_eq_eq_eq_not, Bool.not_true,
    decide_eq_false_iff_not, not_lt, Nat.reduceLeDiff, decide_eq_true_eq, Bool.or_eq_true,
    nonpos_iff_eq_zero]
  refine ⟨by omega, by omega, (toNat_and_128_eq_zero_iff r0).mpr hr0, by omega, ?_,
    (toNat_and_128_eq_zero_iff s0).mpr hs0, by omega, ?_⟩
  · -- the padding of `R`
    rcases rtl with _ | ⟨c, rtl⟩
    · exact Or.inl rfl
    · refine Or.inr (Classical.or_iff_not_imp_left.mpr fun h0 => ?_)
      have := hrpad (UInt8.toNat_inj.mp (by simpa using h0)) c rfl
      simp only [List.cons_append, List.getElem_cons_zero]
      rw [toNat_and_128_eq_zero_iff]
      omega
  · -- the padding of `S`
    rcases stl with _ | ⟨c, stl⟩
    · exact Or.inl rfl
    · refine Or.inr (Classical.or_iff_not_imp_left.mpr fun h0 => ?_)
      have := hspad (UInt8.toNat_inj.mp (by simpa using h0)) c rfl
      rw [List.getElem?_append_right (by omega)]
      simp only [Nat.add_sub_cancel_left, List.getElem?_cons_succ, List.getElem?_cons_zero,
        Option.getD_some]
      rw [toNat_and_128_eq_zero_iff]
      omega

theorem drop_eq_getD_cons {l : List UInt8} {i : ℕ} (h : i < l.length) :
    l.drop i = l.getD i 0 :: l.drop (i + 1) := by
  rw [List.drop_eq_getElem_cons h, List.getD_eq_getElem _ _ h]

/-- The check reads a string as four header bytes, the `n` bytes of `R`, two more header bytes
and the bytes of `S`. -/
theorem eq_of_reads (sig : List UInt8) {n : ℕ} (h : n + 6 ≤ sig.length) :
    sig = [sig.getD 0 0, sig.getD 1 0, sig.getD 2 0, sig.getD 3 0] ++ (sig.drop 4).take n ++
      [sig.getD (n + 4) 0, sig.getD (n + 5) 0] ++ sig.drop (n + 6) := by
  have hmid : sig.drop 4 = (sig.drop 4).take n ++ sig.drop (n + 4) := by
    rw [Nat.add_comm n 4, ← List.drop_drop, List.take_append_drop]
  conv_lhs => rw [← List.drop_zero (l := sig), drop_eq_getD_cons (i := 0) (by omega),
    drop_eq_getD_cons (i := 0 + 1) (by omega), drop_eq_getD_cons (i := 0 + 1 + 1) (by omega),
    drop_eq_getD_cons (i := 0 + 1 + 1 + 1) (by omega), hmid,
    drop_eq_getD_cons (i := n + 4) (by omega), drop_eq_getD_cons (i := n + 4 + 1) (by omega)]
  simp

/-- The integer the check reads from position `i`: `n` bytes, the first below `0x80`, and a first
byte zero only in front of a byte with its top bit set. -/
theorem validDERInteger_of_reads {l : List UInt8} {i j n : ℕ} (hj : j = i + 1) (hn : 1 ≤ n)
    (hlen : i + n ≤ l.length) (htop : ¬(l.getD i 0).toNat &&& 128 ≠ 0)
    (hpad : ¬(n > 1 ∧ (l.getD i 0).toNat = 0 ∧ (l.getD j 0).toNat &&& 128 = 0)) :
    ValidDERInteger ((l.drop i).take n) := by
  obtain ⟨k, rfl⟩ : ∃ k, n = k + 1 := ⟨n - 1, by omega⟩
  subst hj
  rw [drop_eq_getD_cons (by omega), List.take_succ_cons]
  refine ⟨(toNat_and_128_eq_zero_iff _).mp (not_not.mp htop), fun h0 c hc => ?_⟩
  rw [List.head?_take, List.head?_drop] at hc
  have hk : k ≠ 0 := fun hk => by simp [hk] at hc
  rw [if_neg hk, List.getElem?_eq_getElem (by omega), Option.mem_some_iff] at hc
  have hc' : l.getD (i + 1) 0 = c := by rw [List.getD_eq_getElem _ _ (by omega), hc]
  have hbit : ¬(l.getD (i + 1) 0).toNat &&& 128 = 0 := fun hb =>
    hpad ⟨by omega, by rw [h0]; rfl, hb⟩
  rw [toNat_and_128_eq_zero_iff, hc'] at hbit
  omega

/-- Every string the check accepts is a signature of the grammar of 8 to 72 bytes. -/
theorem exists_derSignature_of_isValid {sig : List UInt8}
    (h : isValidDERSignatureEncoding sig = true) :
    8 ≤ sig.length ∧ sig.length ≤ 72 ∧
      ∃ r s, sig = derSignature r s ∧ ValidDERInteger r ∧ ValidDERInteger s := by
  unfold isValidDERSignatureEncoding at h
  dsimp only at h
  -- every check of the source passed, in order
  obtain ⟨hlen, h⟩ := ite_false_eq_true h
  obtain ⟨h0, h⟩ := ite_false_eq_true h
  obtain ⟨h1, h⟩ := ite_false_eq_true h
  obtain ⟨h2, h⟩ := ite_false_eq_true h
  obtain ⟨hR0, h⟩ := ite_false_eq_true h
  obtain ⟨h4, h⟩ := ite_false_eq_true h
  obtain ⟨hR, h⟩ := ite_false_eq_true h
  obtain ⟨hpadR, h⟩ := ite_false_eq_true h
  obtain ⟨hS, h⟩ := ite_false_eq_true h
  obtain ⟨hS0, h⟩ := ite_false_eq_true h
  obtain ⟨hS2, h⟩ := ite_false_eq_true h
  obtain ⟨hSlen, h⟩ := ite_false_eq_true h
  obtain ⟨hpadS, -⟩ := ite_false_eq_true h
  -- the names of the source: `lenR = sig[3]`, `lenS = sig[startS + 1]`
  set lenR := (sig.getD 3 0).toNat with hlenR
  set lenS := (sig.getD (lenR + 4 + 1) 0).toNat with hlenS
  have hslen : (sig.drop (lenR + 6)).length = lenS := by
    rw [List.length_drop]
    omega
  refine ⟨by omega, by omega, (sig.drop 4).take lenR, sig.drop (lenR + 6), ?_,
    validDERInteger_of_reads rfl (by omega) (by omega) h4 hpadR, ?_⟩
  · -- the header bytes are the ones `derSignature` writes
    have hrlen : ((sig.drop 4).take lenR).length = lenR := by
      rw [List.length_take, List.length_drop]
      omega
    have byte : ∀ {b : UInt8} {k : ℕ}, b.toNat = k → b = UInt8.ofNat k := fun hb => by
      rw [← hb, UInt8.ofNat_toNat]
    have hhead : [sig.getD 0 0, sig.getD 1 0, sig.getD 2 0, sig.getD 3 0] =
        [0x30, UInt8.ofNat (lenR + lenS + 4), 0x02, UInt8.ofNat lenR] := by
      rw [byte (not_not.mp h0), byte (b := sig.getD 1 0) (k := lenR + lenS + 4) (by omega), byte (not_not.mp h2),
        byte (k := lenR) rfl]
      rfl
    have hmid : [sig.getD (lenR + 4) 0, sig.getD (lenR + 5) 0] = [0x02, UInt8.ofNat lenS] := by
      rw [byte (not_not.mp hS), byte (k := lenS) rfl]
      rfl
    conv_lhs => rw [eq_of_reads sig (n := lenR) (by omega), hhead, hmid]
    rw [derSignature, hrlen, hslen]
  · rw [← List.take_of_length_le (Nat.le_of_eq hslen)]
    exact validDERInteger_of_reads (by omega) (by omega) (by omega) hS2 hpadS

/-- `IsValidDERSignatureEncoding` never reads outside its slice and accepts exactly the strict
DER signatures of 8 to 72 bytes: `0x30 (size - 2) 0x02 lenR R 0x02 lenS S` with `R` and `S` not
empty, their first byte below `0x80`, and a first byte `0x00` only in front of a byte of at
least `0x80`. -/
theorem isValidDERSignatureEncoding_strictDER (sig : List UInt8) :
    isValidDERSignatureEncodingReads sig = some (isValidDERSignatureEncoding sig) ∧
      (isValidDERSignatureEncoding sig = true ↔ 8 ≤ sig.length ∧ sig.length ≤ 72 ∧
        ∃ r s, sig = derSignature r s ∧ ValidDERInteger r ∧ ValidDERInteger s) := by
  refine ⟨isValidDERSignatureEncodingReads_eq sig, exists_derSignature_of_isValid, ?_⟩
  rintro ⟨-, hlen, r, s, rfl, hr, hs⟩
  exact isValidDERSignatureEncoding_derSignature hr hs hlen

/-- A zero `R` and a zero `S` of one byte each pass: the rule on a leading `0x00` applies only
when a byte follows it. -/
theorem isValidDERSignatureEncoding_zero_integers :
    derSignature [0] [0] = [0x30, 6, 2, 1, 0, 2, 1, 0] ∧
      isValidDERSignatureEncoding [0x30, 6, 2, 1, 0, 2, 1, 0] = true :=
  ⟨rfl, by decide⟩

end BitcoinCash
