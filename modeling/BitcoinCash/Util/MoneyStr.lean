import BitcoinCash.Util.StrEncodings
import BitcoinCash.Validation.Subsidy

/-!
# Amounts as text

`FormatMoney` writes an amount as `%d.%08d` of its whole coins and its remaining satoshis, then
trims zeros from the right for as long as two decimals remain. `ParseMoney` reads white space, the
whole digits, a point and at most eight decimals, and white space again. What `FormatMoney`
writes for an amount of the money range reads back as that amount (`parseMoney_formatMoney`):
the trimmed zeros are worth nothing in the eight decimals that `ParseMoney` scales by `COIN`.

Amounts are `ℤ`, in satoshis, so that `/ SATOSHI` drops out; a C string is the list of its bytes
before the terminating zero.
-/

namespace BitcoinCash

/-- The trimming loop of `FormatMoney`, on the string read backwards from `str[i]`: it counts the
zeros `str[i]` whose second neighbour to the left, `str[i - 2]`, is a digit. -/
def trimCount : List UInt8 → ℕ
  | c :: d :: e :: rest =>
    if c = '0'.toUInt8 ∧ isDigit e = true then trimCount (d :: e :: rest) + 1 else 0
  | _ => 0

/-- `FormatMoney(amt)`. For `amt = INT64_MIN`, where `-amt` overflows, the model negates in `ℤ`. -/
def formatMoney (amt : ℤ) : List UInt8 :=
  let amtAbs := if amt > 0 then amt else -amt
  let str := formatDecimal (amtAbs / coin).toNat ++
    '.'.toUInt8 :: (formatDecimal (amtAbs % coin).toNat).leftpad 8 '0'.toUInt8
  -- Right-trim excess zeros before the decimal point
  let nTrim := trimCount str.reverse
  let str := str.take (str.length - nTrim)
  if amt < 0 then '-'.toUInt8 :: str else str

/-- The decimals loop of `ParseMoney` after the point: each digit is worth `nMult`, which starts at
a tenth of `COIN` and is divided by ten after each digit, so that at most eight are read. Returns
`nUnits` and the rest of the string. -/
def parseFraction : List UInt8 → ℤ → ℤ → ℤ × List UInt8
  | c :: cs, nMult, nUnits =>
    if isDigit c = true ∧ nMult > 0 then parseFraction cs (nMult / 10) (nUnits + digitValue c * nMult)
    else (nUnits, c :: cs)
  | [], _, nUnits => (nUnits, [])

/-- The first loop of `ParseMoney`: the whole digits into `strWhole`, then the decimals after a
point. Returns `strWhole`, `nUnits` and the rest of the string; `none` is `return false` on a
character that is neither a digit, a point nor white space. -/
def parseWhole : List UInt8 → List UInt8 → Option (List UInt8 × ℤ × List UInt8)
  | strWhole, [] => some (strWhole, 0, [])
  | strWhole, c :: cs =>
    if c = '.'.toUInt8 then
      let (nUnits, rest) := parseFraction cs (coin / 10) 0
      some (strWhole, nUnits, rest)
    else if isSpace c = true then some (strWhole, 0, c :: cs)
    else if isDigit c = false then none
    else parseWhole (strWhole ++ [c]) cs

/-- `ParseMoney(const char *pszIn, Amount &nRet)`; `none` is `return false`. -/
def parseMoneyPsz (pszIn : List UInt8) : Option ℤ := do
  let (strWhole, nUnits, rest) ← parseWhole [] (pszIn.dropWhile isSpace)
  if rest.all isSpace = false then none
  -- guard against 63 bit overflow
  else if strWhole.length > 10 then none
  else if nUnits < 0 ∨ nUnits > coin then none
  else
    let nWhole := (atoi64 strWhole : ℤ) * coin
    some (nWhole + nUnits)

/-- `ParseMoney(const std::string &str, Amount &nRet)`, through `str.c_str()`. -/
def parseMoney (str : List UInt8) : Option ℤ := parseMoneyPsz (str.takeWhile (· != 0))

section Format

/-- The zeros `trimCount` counts are zeros. -/
theorem take_trimCount (s : List UInt8) :
    s.take (trimCount s) = List.replicate (trimCount s) '0'.toUInt8 := by
  fun_induction trimCount s with
  | case1 c d e rest hc ih =>
    rw [List.replicate_succ, List.take_succ_cons, ih, hc.1]
  | case2 c d e rest hc => rfl
  | case3 s _ => rfl

/-- The trimming stops two characters before the point: at least two decimals stay. -/
theorem trimCount_le (r rest : List UInt8) (hr : 2 ≤ r.length) :
    trimCount (r ++ '.'.toUInt8 :: rest) ≤ r.length - 2 := by
  induction r with
  | nil => simp at hr
  | cons c r ih =>
    match r, hr, ih with
    | [d], _, _ =>
      rw [List.cons_append, List.cons_append, List.nil_append, trimCount,
        if_neg fun h => absurd h.2 (by decide)]
      omega
    | d :: e :: r, _, ih =>
      rw [List.cons_append, List.cons_append, List.cons_append, trimCount]
      split_ifs
      · have := ih (by simp)
        simp only [List.cons_append, List.length_cons] at this ⊢
        omega
      · omega

/-- The eight decimals of `%08d`, as `FormatMoney` prints them before trimming. -/
theorem length_leftpad_formatDecimal {r : ℕ} (hr : r < coin) :
    ((formatDecimal r).leftpad 8 '0'.toUInt8).length = 8 := by
  have hlen : (formatDecimal r).length ≤ 8 :=
    length_formatDecimal_le (by omega) (by rw [coin] at hr; omega)
  rw [List.length_leftpad]
  omega

/-- Trimming `D.F`, for eight decimals `F`, keeps the point and `k ≥ 2` decimals and leaves out
only zeros. -/
theorem trim_point (D F : List UInt8) (hF : F.length = 8) :
    ∃ k, 2 ≤ k ∧ k ≤ 8 ∧
      (D ++ '.'.toUInt8 :: F).take ((D ++ '.'.toUInt8 :: F).length -
          trimCount (D ++ '.'.toUInt8 :: F).reverse) = D ++ '.'.toUInt8 :: F.take k ∧
      F.drop k = List.replicate (8 - k) '0'.toUInt8 := by
  have hrev : (D ++ '.'.toUInt8 :: F).reverse = F.reverse ++ '.'.toUInt8 :: D.reverse := by
    simp
  set t := trimCount (F.reverse ++ '.'.toUInt8 :: D.reverse) with ht
  have ht6 : t ≤ 6 := by
    have := trimCount_le F.reverse D.reverse (by rw [List.length_reverse, hF]; omega)
    rwa [List.length_reverse, hF] at this
  -- the `t` trimmed characters are the last `t` decimals, all zeros
  have hzeros : F.drop (8 - t) = List.replicate t '0'.toUInt8 := by
    have hz := take_trimCount (F.reverse ++ '.'.toUInt8 :: D.reverse)
    rw [← ht, List.take_append_of_le_length (by rw [List.length_reverse, hF]; omega),
      List.take_reverse, hF] at hz
    rw [← List.reverse_reverse (F.drop (8 - t)), hz, List.reverse_replicate]
  refine ⟨8 - t, by omega, by omega, ?_, by rw [hzeros]; congr 1; omega⟩
  rw [hrev, ← ht, List.length_append, List.length_cons, hF,
    show D.length + (8 + 1) - t = D.length + (8 - t + 1) by omega, List.take_append,
    List.take_of_length_le (by omega), show D.length + (8 - t + 1) - D.length = 8 - t + 1 by omega,
    List.take_succ_cons]

/-- `FormatMoney` of a nonnegative amount: its whole coins, a point, and the first `k` of its eight
decimals, for some `k ≥ 2` such that only zeros are left out. -/
theorem formatMoney_of_nonneg {amt : ℤ} (h0 : 0 ≤ amt) :
    ∃ k, 2 ≤ k ∧ k ≤ 8 ∧
      formatMoney amt = formatDecimal (amt / coin).toNat ++
        '.'.toUInt8 :: ((formatDecimal (amt % coin).toNat).leftpad 8 '0'.toUInt8).take k ∧
      ((formatDecimal (amt % coin).toNat).leftpad 8 '0'.toUInt8).drop k =
        List.replicate (8 - k) '0'.toUInt8 := by
  have habs : (if amt > 0 then amt else -amt) = amt := by split_ifs <;> omega
  have hmod := Int.emod_lt_of_pos amt (show (0 : ℤ) < coin by decide)
  have hmod0 := Int.emod_nonneg amt (show coin ≠ 0 by decide)
  have hF := length_leftpad_formatDecimal (r := (amt % coin).toNat) (by omega)
  simp only [formatMoney, habs, if_neg (show ¬amt < 0 by omega)]
  exact trim_point _ _ hF

end Format

section Parse

/-- The decimals after the point: `k ≤ m + 1` digits read with `nMult = 10 ^ m` are worth their
value shifted to `m + 1` places. -/
theorem parseFraction_digits (G : List UInt8) (hG : ∀ c ∈ G, isDigit c = true) :
    ∀ m, G.length ≤ m + 1 → ∀ nUnits,
      parseFraction G (10 ^ m) nUnits =
        (nUnits + decimalValue G * 10 ^ (m + 1 - G.length), []) := by
  induction G with
  | nil => intro m _ nUnits; simp [parseFraction]
  | cons c G ih =>
    intro m hm nUnits
    rw [List.length_cons] at hm
    have hc := hG c List.mem_cons_self
    have hG' := fun d hd => hG d (List.mem_cons_of_mem c hd)
    rw [parseFraction, if_pos ⟨hc, by positivity⟩, decimalValue_cons, List.length_cons]
    rcases m with _ | m
    · -- the last place: nothing may follow
      obtain rfl : G = [] := List.eq_nil_of_length_eq_zero (by omega)
      simp [parseFraction]
    · obtain ⟨j, hj⟩ : ∃ j, m + 1 = G.length + j := ⟨m + 1 - G.length, by omega⟩
      have hdiv : (10 : ℤ) ^ (m + 1) / 10 = 10 ^ m := by
        rw [pow_succ, Int.mul_ediv_cancel _ (by decide)]
      rw [hdiv, ih hG' m (by omega), show m + 1 - G.length = j by omega,
        show m + 1 + 1 - (G.length + 1) = j by omega, hj, pow_add]
      refine Prod.ext ?_ rfl
      push_cast
      ring

/-- The whole digits go to `strWhole`, up to the point. -/
theorem parseWhole_digits (D : List UInt8) (hD : ∀ c ∈ D, isDigit c = true)
    (strWhole rest : List UInt8) :
    parseWhole strWhole (D ++ '.'.toUInt8 :: rest) =
      some (strWhole ++ D, parseFraction rest (coin / 10) 0) := by
  induction D generalizing strWhole with
  | nil => simp [parseWhole]
  | cons c D ih =>
    obtain ⟨hspace, hpoint, -⟩ := isDigit_classes (hD c List.mem_cons_self)
    rw [List.cons_append, parseWhole, if_neg hpoint, if_neg (by rw [hspace]; decide),
      if_neg (by rw [hD c List.mem_cons_self]; decide),
      ih (fun d hd => hD d (List.mem_cons_of_mem c hd)), List.append_assoc, List.singleton_append]

/-- What `ParseMoney` reads from whole digits, a point and at most eight decimals. -/
theorem parseMoney_point (D G : List UInt8) (hD : ∀ c ∈ D, isDigit c = true) (hD0 : D ≠ [])
    (hDlen : D.length ≤ 10) (hG : ∀ c ∈ G, isDigit c = true) (hGlen : G.length ≤ 8) :
    parseMoney (D ++ '.'.toUInt8 :: G) =
      some (decimalValue D * coin + decimalValue G * 10 ^ (8 - G.length)) := by
  have hcstr : (D ++ '.'.toUInt8 :: G).takeWhile (· != 0) = D ++ '.'.toUInt8 :: G := by
    refine List.takeWhile_eq_self_iff.mpr fun c hc => ?_
    rcases List.mem_append.mp hc with hc | hc
    · simpa using (isDigit_classes (hD c hc)).2.2
    · rcases List.mem_cons.mp hc with rfl | hc
      · decide
      · simpa using (isDigit_classes (hG c hc)).2.2
  -- the string starts with a digit, so no white space is skipped
  have hskip : (D ++ '.'.toUInt8 :: G).dropWhile isSpace = D ++ '.'.toUInt8 :: G := by
    obtain ⟨c, D', rfl⟩ := List.exists_cons_of_ne_nil hD0
    rw [List.cons_append, List.dropWhile_cons_of_neg]
    simp [(isDigit_classes (hD c List.mem_cons_self)).1]
  have hfrac : parseFraction G (coin / 10) 0 =
      ((decimalValue G : ℤ) * 10 ^ (8 - G.length), []) := by
    rw [show coin / 10 = 10 ^ 7 from rfl, parseFraction_digits G hG 7 (by omega), Int.zero_add]
  have hunits : decimalValue G * 10 ^ (8 - G.length) < 10 ^ 8 := by
    calc decimalValue G * 10 ^ (8 - G.length)
        < 10 ^ G.length * 10 ^ (8 - G.length) :=
          Nat.mul_lt_mul_of_pos_right (decimalValue_lt G hG) (by positivity)
      _ = 10 ^ 8 := by rw [← pow_add]; congr 1; omega
  rw [parseMoney, hcstr, parseMoneyPsz, hskip, parseWhole_digits D hD, hfrac]
  simp only [List.nil_append, List.all_nil, Option.bind_eq_bind, Option.bind_some]
  have hcast : (decimalValue G : ℤ) * 10 ^ (8 - G.length) =
      ((decimalValue G * 10 ^ (8 - G.length) : ℕ) : ℤ) := by
    push_cast
    rfl
  rw [hcast, if_neg (by decide), if_neg (by omega), if_neg (by rw [coin]; omega), atoi64_eq hD]

end Parse

/-- `ParseMoney` reads back what `FormatMoney` writes, for every amount of the money range: the
decimals it reads are the eight of `%08d` without the zeros trimmed from their end. -/
theorem parseMoney_formatMoney (amt : ℤ) (h0 : 0 ≤ amt) (hmax : amt ≤ maxMoney) :
    parseMoney (formatMoney amt) = some amt := by
  obtain ⟨k, -, hk8, hfmt, hdrop⟩ := formatMoney_of_nonneg h0
  set F := (formatDecimal (amt % coin).toNat).leftpad 8 '0'.toUInt8 with hF
  have hmod := Int.emod_lt_of_pos amt (show (0 : ℤ) < coin by decide)
  have hmod0 := Int.emod_nonneg amt (show coin ≠ 0 by decide)
  have hFlen : F.length = 8 := length_leftpad_formatDecimal (by omega)
  have hFdig : ∀ c ∈ F, isDigit c = true := by
    intro c hc
    rw [hF, List.leftpad, List.mem_append] at hc
    rcases hc with hc | hc
    · rw [List.eq_of_mem_replicate hc]
      decide
    · exact isDigit_formatDecimal _ c hc
  -- the decimals left after trimming are worth all eight
  have hvalue : (decimalValue (F.take k) : ℤ) * 10 ^ (8 - (F.take k).length) =
      ((amt % coin).toNat : ℕ) := by
    have hFval : decimalValue F = (amt % coin).toNat := by
      rw [hF, List.leftpad, decimalValue_replicate_zero_append, decimalValue_formatDecimal]
    have hsplit := decimalValue_append (F.take k) (F.drop k)
    rw [List.take_append_drop, hdrop, decimalValue_replicate_zero, Nat.add_zero,
      List.length_replicate, hFval] at hsplit
    rw [List.length_take, hFlen, min_eq_left hk8, hsplit]
    push_cast
    rfl
  have hDlen : (formatDecimal (amt / coin).toNat).length ≤ 10 :=
    length_formatDecimal_le (by omega) (by rw [maxMoney] at hmax; rw [coin]; omega)
  rw [hfmt, parseMoney_point _ _ (isDigit_formatDecimal _) (by simp [formatDecimal]) hDlen
      (fun c hc => hFdig c (List.mem_of_mem_take hc)) (by rw [List.length_take]; omega),
    hvalue, decimalValue_formatDecimal]
  congr 1
  rw [coin]
  omega

theorem parseMoney_formatMoney_one_coin :
    (0 ≤ coin ∧ coin ≤ maxMoney) ∧ parseMoney (formatMoney coin) = some coin :=
  ⟨⟨by decide, by decide⟩, parseMoney_formatMoney coin (by decide) (by decide)⟩

end BitcoinCash
