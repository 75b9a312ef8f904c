import BitcoinCash.Validation.DisconnectBlock
import BitcoinCash.Consensus.TxCheck

/-!
# The fee `CheckTxInputs` computes

`Consensus::CheckTxInputs` (`consensus/tx_verify.cpp`) adds up the values of the coins the
inputs spend in an `Amount`, an `int64_t`, checking after each addition that the sum stays in
`MoneyRange`, and then subtracts `GetValueOut()`. On a transaction that passed
`CheckTransactionCommon`, whose outputs and their running total are in `[0, MAX_MONEY]`, and on
a view whose coins have values in `[0, MAX_MONEY]`, every operand of every addition and
subtraction is in `[0, MAX_MONEY]`, so nothing overflows, and the checks of the loop amount to
one check on the whole sum, the values being non-negative.

The maturity of a coinbase coin is the code's test: the depth `nSpendHeight - coin.GetHeight()`
is computed in `unsigned` arithmetic and compared with `COINBASE_MATURITY`.
-/

namespace BitcoinCash

/-- The value of the coin an input spends, as `CheckTxInputs` reads it. -/
def inputValue (inputs : CoinsView) (txin : TxIn) : ℤ :=
  (inputs.accessCoin txin.prevout).out.nValue.toInt

/-- The sum of the values of the coins some inputs spend. -/
def valueIn (inputs : CoinsView) (ins : List TxIn) : ℤ := (ins.map (inputValue inputs)).sum

/-- The sum of the values of some outputs. -/
def valueOutSum (outs : List TxOut) : ℤ := (outs.map (·.nValue.toInt)).sum

/-- An input `CheckTxInputs` lets through: its coin is unspent and, if it comes from a coinbase,
at a depth of at least `COINBASE_MATURITY` as the code computes it. -/
def Spendable (inputs : CoinsView) (nSpendHeight : ℤ) (txin : TxIn) : Prop :=
  (inputs.accessCoin txin.prevout).isSpent = false ∧
    ((inputs.accessCoin txin.prevout).isCoinBase = true →
      coinbaseMaturity ≤
        (UInt32.ofInt nSpendHeight - (inputs.accessCoin txin.prevout).getHeight).toNat)

/-- A view whose coins all have values in `MoneyRange`. -/
def ValuesInRange (inputs : CoinsView) : Prop :=
  ∀ o c, inputs.coins o = some c → moneyRange c.out.nValue.toInt = true

@[simp] theorem valueIn_nil (inputs : CoinsView) : valueIn inputs [] = 0 := rfl

@[simp] theorem valueIn_cons (inputs : CoinsView) (txin : TxIn) (ins : List TxIn) :
    valueIn inputs (txin :: ins) = inputValue inputs txin + valueIn inputs ins := by
  simp [valueIn]

@[simp] theorem valueOutSum_nil : valueOutSum [] = 0 := rfl

@[simp] theorem valueOutSum_cons (o : TxOut) (outs : List TxOut) :
    valueOutSum (o :: outs) = o.nValue.toInt + valueOutSum outs := by
  simp [valueOutSum]

/-! ### The inputs -/

section Inputs

variable {inputs : CoinsView} {nSpendHeight : ℤ}

/-- An unspent coin read from a view of values in range has its value in range. -/
theorem inputValue_mem_range (hv : ValuesInRange inputs) {txin : TxIn}
    (hs : (inputs.accessCoin txin.prevout).isSpent = false) :
    0 ≤ inputValue inputs txin ∧ inputValue inputs txin ≤ maxMoney := by
  rcases hc : inputs.coins txin.prevout with _ | c
  · -- no coin: `coinEmpty`, which is spent
    rw [CoinsView.accessCoin, hc, Option.getD_none, Coin.isSpent_empty] at hs
    cases hs
  · rw [inputValue, CoinsView.accessCoin_of_coins hc]
    exact moneyRange_eq_true.mp (hv _ _ hc)

theorem valueIn_nonneg (hv : ValuesInRange inputs) :
    ∀ {ins : List TxIn}, (∀ txin ∈ ins, Spendable inputs nSpendHeight txin) →
      0 ≤ valueIn inputs ins
  | [], _ => le_rfl
  | txin :: ins, hs => by
    have hhead := (inputValue_mem_range hv (hs txin List.mem_cons_self).1).1
    have hrest := valueIn_nonneg hv fun t ht => hs t (List.mem_cons_of_mem txin ht)
    rw [valueIn_cons]
    omega

/-- **One input.** From a sum in `MoneyRange`, the step of the loop adds the value of a
spendable coin while the sum stays at most `MAX_MONEY`, and otherwise rejects; the addition
cannot overflow. -/
theorem checkTxInput_spec (hv : ValuesInRange inputs) {acc : ℤ} (hacc : moneyRange acc = true)
    (txin : TxIn) :
    (Spendable inputs nSpendHeight txin ∧ acc + inputValue inputs txin ≤ maxMoney ∧
      checkTxInput inputs nSpendHeight acc txin = .ok (acc + inputValue inputs txin)) ∨
    (¬(Spendable inputs nSpendHeight txin ∧ acc + inputValue inputs txin ≤ maxMoney) ∧
      ∃ reason, checkTxInput inputs nSpendHeight acc txin = .error (.invalid reason)) := by
  have hacc' := moneyRange_eq_true.mp hacc
  rw [checkTxInput]
  by_cases hspent : (inputs.accessCoin txin.prevout).isSpent = true
  · refine .inr ⟨fun h => ?_, "bad-txns-inputs-missingorspent", by rw [if_pos hspent]⟩
    rw [h.1.1] at hspent
    cases hspent
  rw [if_neg hspent]
  have hs : (inputs.accessCoin txin.prevout).isSpent = false := Bool.eq_false_iff.mpr hspent
  by_cases hyoung : ((inputs.accessCoin txin.prevout).isCoinBase && decide
      ((UInt32.ofInt nSpendHeight - (inputs.accessCoin txin.prevout).getHeight).toNat <
        coinbaseMaturity)) = true
  · -- a coinbase coin spent too early
    rw [if_pos hyoung]
    rw [Bool.and_eq_true, decide_eq_true_eq] at hyoung
    exact .inr ⟨fun h => absurd (h.1.2 hyoung.1) (Nat.not_le.mpr hyoung.2),
      "bad-txns-premature-spend-of-coinbase", rfl⟩
  rw [if_neg hyoung]
  have hmature : Spendable inputs nSpendHeight txin := by
    refine ⟨hs, fun hcb => Nat.not_lt.mp fun hlt => hyoung ?_⟩
    rw [Bool.and_eq_true, decide_eq_true_eq]
    exact ⟨hcb, hlt⟩
  -- both operands are in `[0, MAX_MONEY]`, so the sum fits in an `int64_t`
  obtain ⟨h0, hmax⟩ := inputValue_mem_range hv hs
  have hvalue : inputValue inputs txin = (inputs.accessCoin txin.prevout).out.nValue.toInt := rfl
  have hadd : addAmount acc (inputs.accessCoin txin.prevout).out.nValue.toInt =
      .ok (acc + inputValue inputs txin) := by
    rw [addAmount, if_pos (by rw [maxMoney] at hacc' hmax; constructor <;> omega)]
    rfl
  rw [hadd]
  dsimp only
  have hrange : moneyRange (inputs.accessCoin txin.prevout).out.nValue.toInt = true :=
    moneyRange_eq_true.mpr ⟨by omega, by omega⟩
  by_cases hle : acc + inputValue inputs txin ≤ maxMoney
  · have hsum : moneyRange (acc + inputValue inputs txin) = true :=
      moneyRange_eq_true.mpr ⟨by omega, hle⟩
    exact .inl ⟨hmature, hle, by simp [hrange, hsum]⟩
  · have hsum : moneyRange (acc + inputValue inputs txin) = false := by
      rw [← Bool.not_eq_true, moneyRange_eq_true]
      exact fun h => hle h.2
    exact .inr ⟨fun h => hle h.2, "bad-txns-inputvalues-outofrange", by simp [hsum]⟩

/-- **The loop over the inputs.** From a sum in `MoneyRange` it returns that sum plus the values
of the inputs when every input is spendable and the total is at most `MAX_MONEY`, and rejects
otherwise. -/
theorem foldlM_checkTxInput_spec (hv : ValuesInRange inputs) :
    ∀ (ins : List TxIn) {acc : ℤ}, moneyRange acc = true →
      ((∀ txin ∈ ins, Spendable inputs nSpendHeight txin) ∧
          acc + valueIn inputs ins ≤ maxMoney ∧
          ins.foldlM (checkTxInput inputs nSpendHeight) acc = .ok (acc + valueIn inputs ins)) ∨
        (¬((∀ txin ∈ ins, Spendable inputs nSpendHeight txin) ∧
            acc + valueIn inputs ins ≤ maxMoney) ∧
          ∃ reason, ins.foldlM (checkTxInput inputs nSpendHeight) acc = .error (.invalid reason))
  | [], acc, hacc => .inl ⟨by simp, by simpa using (moneyRange_eq_true.mp hacc).2, by simp⟩
  | txin :: ins, acc, hacc => by
    rw [List.foldlM_cons, List.forall_mem_cons, valueIn_cons]
    rcases checkTxInput_spec hv hacc txin with ⟨hs, hle, hstep⟩ | ⟨hbad, reason, hstep⟩
    · -- the sum so far is in range again; the rest of the loop decides
      have h0 := (inputValue_mem_range hv hs.1).1
      have hacc' : moneyRange (acc + inputValue inputs txin) = true :=
        moneyRange_eq_true.mpr ⟨by have := (moneyRange_eq_true.mp hacc).1; omega, hle⟩
      rw [hstep, Except.bind_ok']
      rcases foldlM_checkTxInput_spec hv ins hacc' with ⟨hrest, hle', hok⟩ | ⟨hbad', hfail⟩
      · exact .inl ⟨⟨hs, hrest⟩, by omega, by rw [hok, add_assoc]⟩
      · exact .inr ⟨fun h => hbad' ⟨h.1.2, by omega⟩, hfail⟩
    · -- a later input cannot bring the sum back: spendable inputs have non-negative values
      rw [hstep, Except.bind_error']
      refine .inr ⟨fun h => hbad ⟨h.1.1, ?_⟩, reason, rfl⟩
      have := valueIn_nonneg hv h.1.2
      omega

end Inputs

/-! ### The outputs -/

/-- A step of the loop of `CheckTransactionCommon` that passes is a step of `GetValueOut` that
passes. -/
theorem valueOutStep_of_checkValueOut {acc r : ℤ} {o : TxOut} (hacc : moneyRange acc = true)
    (h : checkValueOut acc o = .ok r) :
    valueOutStep acc o = .ok r ∧ r = acc + o.nValue.toInt ∧ moneyRange r = true := by
  rw [checkValueOut] at h
  dsimp only at h
  split_ifs at h with hneg hbig hrange
  cases h
  have hacc' := moneyRange_eq_true.mp hacc
  have hsum : moneyRange (acc + o.nValue.toInt) = true := by simpa using hrange
  have hval : moneyRange o.nValue.toInt = true := moneyRange_eq_true.mpr ⟨by omega, by omega⟩
  have hadd : addAmount acc o.nValue.toInt = .ok (acc + o.nValue.toInt) := by
    rw [addAmount, if_pos (by rw [maxMoney] at hacc' hbig; constructor <;> omega)]
  refine ⟨?_, rfl, hsum⟩
  rw [valueOutStep, hadd, Except.bind_ok']
  simp [hval, hsum]

theorem foldlM_valueOutStep_of_checkValueOut :
    ∀ (outs : List TxOut) {acc r : ℤ}, moneyRange acc = true →
      outs.foldlM checkValueOut acc = .ok r →
      outs.foldlM valueOutStep acc = .ok r ∧ r = acc + valueOutSum outs ∧ moneyRange r = true
  | [], acc, r, hacc, h => by
    cases h
    exact ⟨rfl, by simp, hacc⟩
  | o :: outs, acc, r, hacc, h => by
    rw [List.foldlM_cons, Except.bind_eq_ok] at h
    obtain ⟨acc', hstep, hrest⟩ := h
    obtain ⟨hstep', rfl, hacc'⟩ := valueOutStep_of_checkValueOut hacc hstep
    obtain ⟨hrest', rfl, hr⟩ := foldlM_valueOutStep_of_checkValueOut outs hacc' hrest
    refine ⟨by rw [List.foldlM_cons, hstep', Except.bind_ok', hrest'], ?_, hr⟩
    rw [valueOutSum_cons, add_assoc]

/-- After `CheckTransactionCommon`, `GetValueOut` does not throw: it returns the sum of the
output values, which is in `MoneyRange`. -/
theorem getValueOut_of_checkTransactionCommon {tx : Transaction}
    (h : checkTransactionCommon tx = .ok ()) :
    getValueOut tx = .ok (valueOutSum tx.vout) ∧ moneyRange (valueOutSum tx.vout) = true := by
  obtain ⟨-, -, -, r, hr⟩ := checkTransactionCommon_eq_ok.mp h
  obtain ⟨hout, rfl, hrange⟩ := foldlM_valueOutStep_of_checkValueOut tx.vout rfl hr
  rw [zero_add] at hout hrange
  exact ⟨hout, hrange⟩

/-! ### `CheckTxInputs` -/

/-- **`CheckTxInputs`.** On a transaction that passed `CheckTransactionCommon` and a view whose
coins have values in range, it returns the value of the inputs less the value of the outputs
when every input is spendable, the inputs are worth at most `MAX_MONEY` and at least the
outputs, and rejects otherwise; it never faults. -/
theorem checkTxInputs_spec {tx : Transaction} {inputs : CoinsView} {nSpendHeight : ℤ}
    (hcb : tx.isCoinBase = false) (hcommon : checkTransactionCommon tx = .ok ())
    (hv : ValuesInRange inputs) :
    ((∀ txin ∈ tx.vin, Spendable inputs nSpendHeight txin) ∧
        valueIn inputs tx.vin ≤ maxMoney ∧ valueOutSum tx.vout ≤ valueIn inputs tx.vin ∧
        checkTxInputs tx inputs nSpendHeight =
          .ok (valueIn inputs tx.vin - valueOutSum tx.vout)) ∨
      (¬((∀ txin ∈ tx.vin, Spendable inputs nSpendHeight txin) ∧
          valueIn inputs tx.vin ≤ maxMoney ∧ valueOutSum tx.vout ≤ valueIn inputs tx.vin) ∧
        ∃ reason, checkTxInputs tx inputs nSpendHeight = .error (.invalid reason)) := by
  obtain ⟨hout, hrange⟩ := getValueOut_of_checkTransactionCommon hcommon
  have hout' := moneyRange_eq_true.mp hrange
  rw [checkTxInputs, if_neg (by simp [hcb])]
  rcases @foldlM_checkTxInput_spec inputs nSpendHeight hv tx.vin 0 rfl with
    ⟨hs, hle, hok⟩ | ⟨hbad, reason, herr⟩
  · rw [zero_add] at hle hok
    have hnonneg := valueIn_nonneg hv hs
    rw [hok, Except.bind_ok', hout]
    simp only [Except.mapError, Except.bind_ok']
    by_cases hbelow : valueIn inputs tx.vin < valueOutSum tx.vout
    · -- the inputs are worth less than the outputs
      refine .inr ⟨fun h => absurd h.2.2 (Int.not_le.mpr hbelow), "bad-txns-in-belowout", ?_⟩
      rw [if_pos hbelow]
    · -- the fee is in `[0, MAX_MONEY]`
      have hfee : moneyRange (valueIn inputs tx.vin - valueOutSum tx.vout) = true :=
        moneyRange_eq_true.mpr ⟨by omega, by omega⟩
      refine .inl ⟨hs, hle, Int.not_lt.mp hbelow, ?_⟩
      rw [if_neg hbelow]
      simp [hfee]
  · rw [zero_add] at hbad
    rw [herr, Except.bind_error']
    exact .inr ⟨fun h => hbad ⟨h.1, h.2.1⟩, reason, rfl⟩

theorem checkTxInputs_exact_fee :
    ∀ (tx : Transaction) (inputs : CoinsView) (nSpendHeight : ℤ), tx.isCoinBase = false →
      checkTransactionCommon tx = .ok () → ValuesInRange inputs →
      getValueOut tx = .ok (valueOutSum tx.vout) ∧
      (∀ f, checkTxInputs tx inputs nSpendHeight ≠ .error (.fault f)) ∧
      ((∃ txfee, checkTxInputs tx inputs nSpendHeight = .ok txfee) ↔
        (∀ txin ∈ tx.vin, Spendable inputs nSpendHeight txin) ∧
          valueIn inputs tx.vin ≤ maxMoney ∧ valueOutSum tx.vout ≤ valueIn inputs tx.vin) ∧
      ∀ txfee, checkTxInputs tx inputs nSpendHeight = .ok txfee →
        txfee = valueIn inputs tx.vin - valueOutSum tx.vout ∧ 0 ≤ txfee ∧ txfee ≤ maxMoney := by
  intro tx inputs nSpendHeight hcb hcommon hv
  have hout := getValueOut_of_checkTransactionCommon hcommon
  have hout' := moneyRange_eq_true.mp hout.2
  rcases @checkTxInputs_spec tx inputs nSpendHeight hcb hcommon hv with
    ⟨hs, hle, hge, hok⟩ | ⟨hbad, reason, herr⟩
  · refine ⟨hout.1, fun f => by rw [hok]; simp, ⟨fun _ => ⟨hs, hle, hge⟩, fun _ => ⟨_, hok⟩⟩,
      fun txfee h => ?_⟩
    rw [hok, Except.ok.injEq] at h
    subst h
    exact ⟨rfl, by omega, by omega⟩
  · refine ⟨hout.1, fun f => by rw [herr]; simp, ⟨fun ⟨txfee, h⟩ => ?_, fun h => absurd h hbad⟩,
      fun txfee h => ?_⟩ <;>
    · rw [herr] at h
      cases h

/-- The spend of `exampleView`'s coin of 50 satoshis into an output of 40. -/
theorem checkTxInputs_exact_fee_spend :
    let tx : Transaction := ⟨1, [⟨exampleOutPoint, [], 0xffffffff⟩], [⟨40, []⟩], 1⟩
    getValueOut tx = .ok (valueOutSum tx.vout) ∧
      (∀ f, checkTxInputs tx (exampleView []) 101 ≠ .error (.fault f)) ∧
      ((∃ txfee, checkTxInputs tx (exampleView []) 101 = .ok txfee) ↔
        (∀ txin ∈ tx.vin, Spendable (exampleView []) 101 txin) ∧
          valueIn (exampleView []) tx.vin ≤ maxMoney ∧
          valueOutSum tx.vout ≤ valueIn (exampleView []) tx.vin) ∧
      ∀ txfee, checkTxInputs tx (exampleView []) 101 = .ok txfee →
        txfee = valueIn (exampleView []) tx.vin - valueOutSum tx.vout ∧ 0 ≤ txfee ∧
          txfee ≤ maxMoney :=
  checkTxInputs_exact_fee _ _ _ (by decide) (by decide) fun o c h => by
    rw [exampleView_coins_eq_some h]
    decide

end BitcoinCash
