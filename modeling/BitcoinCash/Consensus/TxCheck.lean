import BitcoinCash.Coins.View
import BitcoinCash.Script.SignatureHash
import BitcoinCash.Data.AdjacentFind

/-!
# Context-free transaction checks

`consensus/tx_check.cpp`. `CheckTransactionCommon` rejects a transaction with no input or no
output, one whose serialization is larger than `MAX_TX_SIZE`, and one whose output values or
their running total leave `[0, MAX_MONEY]`. `CheckCoinbase` adds the bounds on the length of the
coinbase's `scriptSig`; `CheckRegularTransaction` rejects a coinbase, then a null prevout and two
inputs that spend the same prevout. For fewer than 120 inputs it compares every pair; from 120
on it sorts pointers to the prevouts by `COutPoint::operator<` and looks for equal neighbours
with `std::adjacent_find`.

`operator<` compares the txids as `base_blob::Compare` does, from the last byte to the first,
and then the output indices. It is a strict total order (`OutPoint.lt_trichotomy`,
`OutPoint.lt_trans`), so sorting puts equal prevouts next to each other and both detectors reject
exactly the inputs with a null or a repeated prevout (`duplicateScan_eq_ok_iff`,
`duplicateSort_eq_ok_iff`). They may give different reasons: the scan checks an input for a
null prevout only after the inputs before it were compared with all later ones.
-/

namespace BitcoinCash

/-- What `state.DoS(level, false, REJECT_INVALID, reason)` records: the ban score and the reject
reason. -/
structure TxRejection where
  level : ℕ
  reason : String
  deriving DecidableEq, Repr

/-- `MAX_COINBASE_SCRIPTSIG_SIZE`. -/
def maxCoinbaseScriptSigSize : ℕ := 100

/-! ### The serialized size -/

/-- `CTxIn::SERIALIZE_METHODS`. -/
def serializeTxIn (txin : TxIn) : List UInt8 :=
  serializeOutPoint txin.prevout ++ serializeScript txin.scriptSig ++ serializeUInt32 txin.nSequence

/-- `SerializeTransaction`: the version, the inputs and the outputs, each vector after its size,
and the lock time. -/
def serializeTransaction (tx : Transaction) : List UInt8 :=
  serializeInt32 tx.nVersion ++ writeCompactSize tx.vin.length ++
    (tx.vin.map serializeTxIn).flatten ++ writeCompactSize tx.vout.length ++
    (tx.vout.map serializeTxOut).flatten ++ serializeUInt32 tx.nLockTime

/-- `GetSerializeSize(tx, PROTOCOL_VERSION)`. -/
def getSerializeSize (tx : Transaction) : ℕ := (serializeTransaction tx).length

/-! ### `CheckTransactionCommon`, `CheckCoinbase` -/

/-- One output of the loop of `CheckTransactionCommon`, with the running total `nValueOut`.
`nValueOut += txout.nValue` adds two values of `[0, MAX_MONEY]`, so it cannot overflow. -/
def checkValueOut (nValueOut : ℤ) (txout : TxOut) : Except TxRejection ℤ :=
  if txout.nValue.toInt < 0 then .error ⟨100, "bad-txns-vout-negative"⟩
  else if txout.nValue.toInt > maxMoney then .error ⟨100, "bad-txns-vout-toolarge"⟩
  else
    let nValueOut := nValueOut + txout.nValue.toInt
    if !moneyRange nValueOut then .error ⟨100, "bad-txns-txouttotal-toolarge"⟩
    else .ok nValueOut

/-- `CheckTransactionCommon`. -/
def checkTransactionCommon (tx : Transaction) : Except TxRejection Unit := do
  if tx.vin.isEmpty then throw ⟨10, "bad-txns-vin-empty"⟩
  if tx.vout.isEmpty then throw ⟨10, "bad-txns-vout-empty"⟩
  if getSerializeSize tx > maxTxSize then throw ⟨100, "bad-txns-oversize"⟩
  let _ ← tx.vout.foldlM checkValueOut 0
  pure ()

/-- `CheckCoinbase`. -/
def checkCoinbase (tx : Transaction) : Except TxRejection Unit := do
  if !tx.isCoinBase then throw ⟨100, "bad-cb-missing"⟩
  checkTransactionCommon tx
  let scriptSigSize := (tx.vin.headD ⟨⟨Vector.replicate 32 0, 0⟩, [], 0⟩).scriptSig.length
  if scriptSigSize < 2 ∨ scriptSigSize > maxCoinbaseScriptSigSize then throw ⟨100, "bad-cb-length"⟩

/-- What passing `CheckTransactionCommon` means. -/
theorem checkTransactionCommon_eq_ok {tx : Transaction} :
    checkTransactionCommon tx = .ok () ↔
      tx.vin ≠ [] ∧ tx.vout ≠ [] ∧ getSerializeSize tx ≤ maxTxSize ∧
        ∃ r, tx.vout.foldlM checkValueOut 0 = .ok r := by
  rw [checkTransactionCommon]
  by_cases hin : tx.vin.isEmpty = true
  · simp [List.isEmpty_iff.mp hin]
  by_cases hout : tx.vout.isEmpty = true
  · simp [hin, List.isEmpty_iff.mp hout]
  by_cases hsize : getSerializeSize tx > maxTxSize
  · simp [hin, hout, hsize]
  have hin' : tx.vin ≠ [] := fun h => hin (List.isEmpty_iff.mpr h)
  have hout' : tx.vout ≠ [] := fun h => hout (List.isEmpty_iff.mpr h)
  simp only [hin, hout, hsize, Bool.false_eq_true, if_false, Except.bind_eq_ok]
  simp [hin', hout', Nat.le_of_not_gt hsize]

/-! ### The order on prevouts -/

/-- The loop of `base_blob::Compare` over the bytes from the most significant one. -/
def compareBytes : List UInt8 → List UInt8 → Ordering
  | a :: as, b :: bs => if a > b then .gt else if a < b then .lt else compareBytes as bs
  | _, _ => .eq

/-- `COutPoint::operator<`: the txids by `base_blob::Compare`, which reads the little-endian
bytes from the last, then the output indices. -/
def OutPoint.lt (a b : OutPoint) : Bool :=
  let cmp := compareBytes a.txid.toList.reverse b.txid.toList.reverse
  cmp == .lt || (cmp == .eq && a.n < b.n)

theorem compareBytes_swap : ∀ (a b : List UInt8), compareBytes b a = (compareBytes a b).swap
  | x :: xs, y :: ys => by
    rw [compareBytes, compareBytes]
    simp only [gt_iff_lt, UInt8.lt_iff_toNat_lt]
    split_ifs <;> first | rfl | omega | exact compareBytes_swap xs ys
  | [], [] => rfl
  | [], _ :: _ => rfl
  | _ :: _, [] => rfl

theorem compareBytes_eq_eq_iff : ∀ {a b : List UInt8}, a.length = b.length →
    (compareBytes a b = .eq ↔ a = b)
  | x :: xs, y :: ys, h => by
    have hxs : xs.length = ys.length := by simpa using h
    rw [compareBytes, List.cons.injEq, ← compareBytes_eq_eq_iff hxs, ← UInt8.toNat_inj]
    simp only [gt_iff_lt, UInt8.lt_iff_toNat_lt]
    split_ifs with hyx hxy
    · simp only [false_iff, not_and]
      omega
    · simp only [false_iff, not_and]
      omega
    · exact ⟨fun h => ⟨by omega, h⟩, And.right⟩
  | [], [], _ => by simp [compareBytes]
  | [], _ :: _, h => by simp at h
  | _ :: _, [], h => by simp at h

theorem compareBytes_lt_trans : ∀ {a b c : List UInt8}, compareBytes a b = .lt →
    compareBytes b c = .lt → compareBytes a c = .lt
  | x :: xs, y :: ys, z :: zs, hab, hbc => by
    rw [compareBytes] at hab hbc ⊢
    simp only [gt_iff_lt, UInt8.lt_iff_toNat_lt] at hab hbc ⊢
    split_ifs at hab hbc ⊢ <;> first | rfl | omega | (cases hab) | (cases hbc) |
      exact compareBytes_lt_trans hab hbc
  | [], _, _, hab, _ => by simp [compareBytes] at hab
  | _ :: _, [], _, hab, _ => by simp [compareBytes] at hab
  | _ :: _, _ :: _, [], _, hbc => by simp [compareBytes] at hbc

namespace OutPoint

/-- `base_blob::Compare` of the txids of two prevouts. -/
def compareTxid (a b : OutPoint) : Ordering :=
  compareBytes a.txid.toList.reverse b.txid.toList.reverse

theorem lt_eq_true_iff {a b : OutPoint} :
    a.lt b = true ↔ a.compareTxid b = .lt ∨ (a.compareTxid b = .eq ∧ a.n < b.n) := by
  rw [OutPoint.lt, ← compareTxid]
  cases a.compareTxid b <;> simp

theorem compareTxid_swap (a b : OutPoint) : b.compareTxid a = (a.compareTxid b).swap :=
  compareBytes_swap _ _

theorem txid_eq_of_compareTxid_eq {a b : OutPoint} (h : a.compareTxid b = .eq) :
    a.txid = b.txid := by
  rw [compareTxid, compareBytes_eq_eq_iff (by simp), List.reverse_inj] at h
  exact Vector.toList_inj.mp h

theorem compareTxid_of_txid_eq {a b : OutPoint} (h : a.txid = b.txid) (c : OutPoint) :
    a.compareTxid c = b.compareTxid c ∧ c.compareTxid a = c.compareTxid b := by
  rw [compareTxid, compareTxid, compareTxid, compareTxid, h]
  exact ⟨rfl, rfl⟩

theorem lt_asymm {a b : OutPoint} (h : a.lt b = true) : b.lt a = false := by
  rw [← Bool.not_eq_true, lt_eq_true_iff, compareTxid_swap]
  rcases lt_eq_true_iff.mp h with hlt | ⟨heq, hn⟩
  · simp [hlt]
  · rw [heq, UInt32.lt_iff_toNat_lt] at *
    simp only [Ordering.swap_eq, reduceCtorEq, true_and, false_or]
    omega

theorem lt_trans {a b c : OutPoint} (hab : a.lt b = true) (hbc : b.lt c = true) :
    a.lt c = true := by
  rw [lt_eq_true_iff] at hab hbc ⊢
  rcases hab with hab | ⟨hab, hnab⟩ <;> rcases hbc with hbc | ⟨hbc, hnbc⟩
  · exact .inl (compareBytes_lt_trans hab hbc)
  · -- `b` and `c` have the same txid
    rw [← (compareTxid_of_txid_eq (txid_eq_of_compareTxid_eq hbc) a).2]
    exact .inl hab
  · rw [(compareTxid_of_txid_eq (txid_eq_of_compareTxid_eq hab) c).1]
    exact .inl hbc
  · rw [(compareTxid_of_txid_eq (txid_eq_of_compareTxid_eq hab) c).1]
    rw [UInt32.lt_iff_toNat_lt] at hnab hnbc ⊢
    exact .inr ⟨hbc, by omega⟩

theorem lt_trichotomy (a b : OutPoint) : a.lt b = true ∨ a = b ∨ b.lt a = true := by
  rw [lt_eq_true_iff, lt_eq_true_iff, compareTxid_swap a b]
  rcases hc : a.compareTxid b
  · exact .inl (.inl rfl)
  · -- the same txid: the indices decide
    have htxid := txid_eq_of_compareTxid_eq hc
    rcases Nat.lt_trichotomy a.n.toNat b.n.toNat with hn | hn | hn
    · exact .inl (.inr ⟨rfl, UInt32.lt_iff_toNat_lt.mpr hn⟩)
    · obtain ⟨txid, n⟩ := a
      obtain ⟨txid', n'⟩ := b
      simp only at htxid hn
      rw [htxid, UInt32.toNat_inj.mp hn]
      exact .inr (.inl rfl)
    · exact .inr (.inr (.inr ⟨rfl, UInt32.lt_iff_toNat_lt.mpr hn⟩))
  · exact .inr (.inr (.inl rfl))

/-- The comparison `std::sort` uses, as `List.mergeSort` takes it, is transitive, total and
antisymmetric. -/
theorem sortLe_trans (a b c : OutPoint) (hab : (!b.lt a) = true) (hbc : (!c.lt b) = true) :
    (!c.lt a) = true := by
  rw [Bool.not_eq_true', ← Bool.not_eq_true] at *
  intro hca
  rcases lt_trichotomy c b with hcb | rfl | hbc'
  · exact hbc hcb
  · exact hab hca
  · exact hab (lt_trans hbc' hca)

theorem sortLe_total (a b : OutPoint) : ((!b.lt a) || !a.lt b) = true := by
  cases hba : b.lt a
  · rfl
  · simp [lt_asymm hba]

theorem sortLe_antisymm (a b : OutPoint) (hab : (!b.lt a) = true) (hba : (!a.lt b) = true) :
    a = b := by
  rw [Bool.not_eq_true'] at hab hba
  rcases lt_trichotomy a b with h | h | h
  · rw [h] at hba
    cases hba
  · exact h
  · rw [h] at hab
    cases hab

end OutPoint

/-! ### The two detectors of duplicate inputs -/

/-- The loops of `CheckRegularTransaction` for fewer than 120 inputs, over the prevouts from
input `i` on: a null prevout, or one equal to a later one, rejects. -/
def duplicateScan : List OutPoint → Except TxRejection Unit
  | [] => .ok ()
  | p :: rest =>
    if p.isNull then .error ⟨10, "bad-txns-prevout-null"⟩
    else if rest.any (p == ·) then .error ⟨100, "bad-txns-inputs-duplicate"⟩
    else duplicateScan rest

/-- The branch of `CheckRegularTransaction` for 120 inputs or more: reject a null prevout, sort
by `operator<` (`std::sort`, modelled by `List.mergeSort`, which puts `a` first when not
`b < a`) and look for equal neighbours. -/
def duplicateSort (prevouts : List OutPoint) : Except TxRejection Unit :=
  if prevouts.any OutPoint.isNull then .error ⟨10, "bad-txns-prevout-null"⟩
  else
    let sortedPrevOuts := prevouts.mergeSort fun a b => !OutPoint.lt b a
    if AdjacentFind.hasAdjacent (· == ·) sortedPrevOuts then
      .error ⟨100, "bad-txns-inputs-duplicate"⟩
    else .ok ()

/-- `CheckRegularTransaction`. -/
def checkRegularTransaction (tx : Transaction) : Except TxRejection Unit := do
  if tx.isCoinBase then throw ⟨100, "bad-tx-coinbase"⟩
  checkTransactionCommon tx
  let prevouts := tx.vin.map (·.prevout)
  if tx.vin.length < 120 then duplicateScan prevouts else duplicateSort prevouts

/-! ### Both detectors reject exactly the null and the repeated prevouts -/

/-- The pairwise scan accepts exactly the prevouts with none null and none twice. -/
theorem duplicateScan_eq_ok_iff : ∀ prevouts : List OutPoint,
    duplicateScan prevouts = .ok () ↔
      (∀ p ∈ prevouts, p.isNull = false) ∧ prevouts.Nodup
  | [] => by simp [duplicateScan]
  | p :: rest => by
    rw [duplicateScan, List.forall_mem_cons, List.nodup_cons]
    by_cases hnull : p.isNull = true
    · simp [hnull]
    · rw [if_neg hnull]
      by_cases hdup : rest.any (p == ·) = true
      · -- `p` is equal to a later prevout
        have hmem : p ∈ rest := by simpa [List.any_eq_true] using hdup
        simp [hdup, hmem]
      · have hmem : p ∉ rest := by simpa [List.any_eq_true] using hdup
        rw [if_neg hdup, duplicateScan_eq_ok_iff rest]
        simp [hnull, hmem]

/-- Sorting, then looking for equal neighbours, accepts exactly the prevouts with none null and
none twice. -/
theorem duplicateSort_eq_ok_iff (prevouts : List OutPoint) :
    duplicateSort prevouts = .ok () ↔ (∀ p ∈ prevouts, p.isNull = false) ∧ prevouts.Nodup := by
  rw [duplicateSort]
  by_cases hnull : prevouts.any OutPoint.isNull = true
  · obtain ⟨p, hp, hpnull⟩ := List.any_eq_true.mp hnull
    simp only [hnull, if_true, reduceCtorEq, false_iff, not_and]
    exact fun h => absurd (h p hp) (by simp [hpnull])
  · have hnull' : ∀ p ∈ prevouts, p.isNull = false := by simpa [List.any_eq_true] using hnull
    rw [if_neg hnull, and_iff_right hnull', ← AdjacentFind.hasAdjacent_mergeSort_eq_false_iff
      OutPoint.sortLe_trans OutPoint.sortLe_total OutPoint.sortLe_antisymm]
    dsimp only
    cases AdjacentFind.hasAdjacent (· == ·) (prevouts.mergeSort fun a b => !OutPoint.lt b a) <;>
      simp

/-- The detectors may give different reasons: the scan compares the first input with the later
ones before it looks at the null prevout of the last one. -/
example : duplicateScan [⟨Vector.replicate 32 1, 0⟩, ⟨Vector.replicate 32 1, 0⟩,
      ⟨Vector.replicate 32 0, 0xffffffff⟩] = .error ⟨100, "bad-txns-inputs-duplicate"⟩ ∧
    duplicateSort [⟨Vector.replicate 32 1, 0⟩, ⟨Vector.replicate 32 1, 0⟩,
      ⟨Vector.replicate 32 0, 0xffffffff⟩] = .error ⟨10, "bad-txns-prevout-null"⟩ := by
  decide

/-- Past the coinbase test and `CheckTransactionCommon`, the number of inputs picks the
detector. -/
theorem checkRegularTransaction_of_common {tx : Transaction} (hcb : tx.isCoinBase = false)
    (hcommon : checkTransactionCommon tx = .ok ()) :
    checkRegularTransaction tx = if tx.vin.length < 120 then duplicateScan (tx.vin.map (·.prevout))
      else duplicateSort (tx.vin.map (·.prevout)) := by
  rw [checkRegularTransaction, hcb]
  simp only [Bool.false_eq_true, if_false, hcommon]
  rfl

theorem checkRegularTransaction_inputs :
    (∀ tx : Transaction, tx.isCoinBase = false → checkTransactionCommon tx = .ok () →
      (checkRegularTransaction tx = .ok () ↔
        (∀ txin ∈ tx.vin, txin.prevout.isNull = false) ∧ (tx.vin.map (·.prevout)).Nodup)) ∧
    ∀ prevouts : List OutPoint, duplicateScan prevouts = .ok () ↔ duplicateSort prevouts = .ok () := by
  refine ⟨fun tx hcb hcommon => ?_, fun prevouts => ?_⟩
  · have hcond : (∀ p ∈ tx.vin.map (·.prevout), p.isNull = false) ↔
        ∀ txin ∈ tx.vin, txin.prevout.isNull = false := List.forall_mem_map
    rw [checkRegularTransaction_of_common hcb hcommon]
    -- whichever branch the number of inputs selects
    split_ifs
    · rw [duplicateScan_eq_ok_iff, hcond]
    · rw [duplicateSort_eq_ok_iff, hcond]
  · rw [duplicateScan_eq_ok_iff, duplicateSort_eq_ok_iff]

/-- A transaction spending two outputs of one txid, and the prevout list with the first twice. -/
theorem checkRegularTransaction_inputs_two_spends :
    (checkRegularTransaction ⟨1, [⟨⟨Vector.replicate 32 1, 0⟩, [], 0⟩,
        ⟨⟨Vector.replicate 32 1, 1⟩, [], 0⟩], [⟨5000, []⟩], 0⟩ = .ok () ↔
      (∀ txin ∈ [(⟨⟨Vector.replicate 32 1, 0⟩, [], 0⟩ : TxIn), ⟨⟨Vector.replicate 32 1, 1⟩, [], 0⟩],
          txin.prevout.isNull = false) ∧
        ([(⟨⟨Vector.replicate 32 1, 0⟩, [], 0⟩ : TxIn), ⟨⟨Vector.replicate 32 1, 1⟩, [], 0⟩].map
          (·.prevout)).Nodup) ∧
    (duplicateScan [⟨Vector.replicate 32 1, 0⟩, ⟨Vector.replicate 32 1, 0⟩] = .ok () ↔
      duplicateSort [⟨Vector.replicate 32 1, 0⟩, ⟨Vector.replicate 32 1, 0⟩] = .ok ()) :=
  ⟨checkRegularTransaction_inputs.1 _ (by decide) (by decide), checkRegularTransaction_inputs.2 _⟩

end BitcoinCash
