import Mathlib.Data.Nat.Bitwise
import BitcoinCash.Script.Machine
import BitcoinCash.Script.Script

/-!
# Coins

A `Coin` (`coins.h`) is an output of a transaction together with the height of the block that
holds the transaction and whether the transaction is a coinbase; the height and the flag share
one `uint32_t`, `nHeightAndIsCoinBase`, so a height keeps 31 bits. A spent coin is one whose
output is null, `nValue == -SATOSHI`.

Amounts are `int64_t` numbers of satoshis; they are integers here, and an addition that leaves
`int64_t` is undefined behaviour, a `CoinsFault`. So are the exceptions and the failed `assert`s
of the coin-level code.
-/

namespace BitcoinCash

deriving instance DecidableEq for OutPoint
deriving instance DecidableEq for TxOut
deriving instance DecidableEq for TxIn
deriving instance DecidableEq for Transaction

/-! ### Amounts -/

/-- `MAX_MONEY`: 21 million `COIN`, a `COIN` being `10 ^ 8` satoshis. -/
def maxMoney : ℤ := 21000000 * 100000000

/-- `MoneyRange`. -/
def moneyRange (nValue : ℤ) : Bool := 0 ≤ nValue && nValue ≤ maxMoney

theorem moneyRange_eq_true {nValue : ℤ} : moneyRange nValue = true ↔ 0 ≤ nValue ∧ nValue ≤ maxMoney := by
  simp [moneyRange]

/-- `COINBASE_MATURITY`. -/
def coinbaseMaturity : ℕ := 100

/-- How the coin-level code stops other than by rejecting a block: a C++ exception, undefined
behaviour or a failed `assert`. -/
inductive CoinsFault
  /-- `std::logic_error("Adding new coin that replaces non-pruned entry")` from `AddCoin`. -/
  | logicError
  /-- `std::runtime_error` from `GetValueOut`: an output value out of range. -/
  | runtimeError
  /-- `std::out_of_range` from `std::vector::at`. -/
  | outOfRange
  /-- `std::length_error` from `std::vector::resize`. -/
  | lengthError
  /-- An `int64_t` addition whose result does not fit. -/
  | signedOverflow
  /-- A failed `assert`, which aborts the process. -/
  | assertFailed
  deriving DecidableEq, Repr

/-- `a += b` on `Amount`, an `int64_t`. -/
def addAmount (a b : ℤ) : Except CoinsFault ℤ :=
  if -2 ^ 63 ≤ a + b ∧ a + b < 2 ^ 63 then .ok (a + b) else .error .signedOverflow

/-! ### Outputs, outpoints and transactions -/

/-- `CTxOut()`: `SetNull()`. -/
def TxOut.null : TxOut := ⟨-1, []⟩

/-- `CTxOut::IsNull`. -/
def TxOut.isNull (out : TxOut) : Bool := out.nValue == -1

/-- `COutPoint::IsNull`: a null txid and the index `NULL_INDEX`. -/
def OutPoint.isNull (outpoint : OutPoint) : Bool :=
  outpoint.txid == Vector.replicate 32 0 && outpoint.n == 0xffffffff

/-- `CTransaction::IsCoinBase`. -/
def Transaction.isCoinBase (tx : Transaction) : Bool :=
  match tx.vin with
  | [txin] => txin.prevout.isNull
  | _ => false

/-- `CScript::IsUnspendable`. -/
def isUnspendable (script : List UInt8) : Bool :=
  (script.length > 0 && script.head? == some opReturn) || script.length > maxScriptSize

/-- The step of `CTransaction::GetValueOut` for one output. -/
def valueOutStep (nValueOut : ℤ) (txOut : TxOut) : Except CoinsFault ℤ := do
  let nValueOut ← addAmount nValueOut txOut.nValue.toInt
  if !moneyRange txOut.nValue.toInt || !moneyRange nValueOut then throw .runtimeError
  pure nValueOut

/-- `CTransaction::GetValueOut`. -/
def getValueOut (tx : Transaction) : Except CoinsFault ℤ := tx.vout.foldlM valueOutStep 0

/-! ### Coins -/

/-- `Coin`. -/
structure Coin where
  out : TxOut
  nHeightAndIsCoinBase : UInt32
  deriving DecidableEq

namespace Coin

/-- `Coin(outIn, nHeightIn, IsCoinbase)`. -/
def ofTxOut (outIn : TxOut) (nHeightIn : UInt32) (isCoinbase : Bool) : Coin :=
  ⟨outIn, (nHeightIn <<< 1) ||| (if isCoinbase then 1 else 0)⟩

/-- `Coin()`, also `coinEmpty`. -/
def empty : Coin := ⟨TxOut.null, 0⟩

/-- `GetHeight`. -/
def getHeight (coin : Coin) : UInt32 := coin.nHeightAndIsCoinBase >>> 1

/-- `IsCoinBase`. -/
def isCoinBase (coin : Coin) : Bool := coin.nHeightAndIsCoinBase &&& 1 != 0

/-- `IsSpent`. -/
def isSpent (coin : Coin) : Bool := coin.out.isNull

theorem toNat_nHeightAndIsCoinBase_ofTxOut (outIn : TxOut) {nHeightIn : UInt32}
    (h : nHeightIn.toNat < 2 ^ 31) (isCoinbase : Bool) :
    (ofTxOut outIn nHeightIn isCoinbase).nHeightAndIsCoinBase.toNat =
      2 * nHeightIn.toNat + if isCoinbase then 1 else 0 := by
  have hflag : (if isCoinbase then (1 : UInt32) else 0).toNat = if isCoinbase then 1 else 0 := by
    cases isCoinbase <;> rfl
  have hshift : nHeightIn.toNat <<< 1 % 2 ^ 32 = nHeightIn.toNat <<< 1 := by
    rw [Nat.shiftLeft_eq]
    exact Nat.mod_eq_of_lt (by omega)
  rw [ofTxOut, UInt32.toNat_or, UInt32.toNat_shiftLeft, UInt32.toNat_one, Nat.one_mod, hshift,
    hflag, ← Nat.shiftLeft_add_eq_or_of_lt (by split <;> omega), Nat.shiftLeft_eq]
  ring

/-- A coin gives back its height, when the height fits in 31 bits. -/
@[simp] theorem getHeight_ofTxOut (outIn : TxOut) {nHeightIn : UInt32}
    (h : nHeightIn.toNat < 2 ^ 31) (isCoinbase : Bool) :
    (ofTxOut outIn nHeightIn isCoinbase).getHeight = nHeightIn := by
  apply UInt32.toNat_inj.mp
  rw [getHeight, UInt32.toNat_shiftRight, toNat_nHeightAndIsCoinBase_ofTxOut outIn h,
    UInt32.toNat_one, Nat.one_mod, Nat.shiftRight_eq_div_pow, Nat.pow_one]
  split <;> omega

/-- A coin gives back its coinbase flag, when its height fits in 31 bits. -/
@[simp] theorem isCoinBase_ofTxOut (outIn : TxOut) {nHeightIn : UInt32}
    (h : nHeightIn.toNat < 2 ^ 31) (isCoinbase : Bool) :
    (ofTxOut outIn nHeightIn isCoinbase).isCoinBase = isCoinbase := by
  have hbit : (ofTxOut outIn nHeightIn isCoinbase).nHeightAndIsCoinBase &&& 1 =
      if isCoinbase then 1 else 0 := by
    apply UInt32.toNat_inj.mp
    rw [UInt32.toNat_and, toNat_nHeightAndIsCoinBase_ofTxOut outIn h, UInt32.toNat_one,
      Nat.and_one_is_mod]
    cases isCoinbase
    · rw [if_neg Bool.false_ne_true]
      simp
    · rw [if_pos rfl]
      simp
  rw [isCoinBase, hbit]
  cases isCoinbase <;> rfl

@[simp] theorem out_ofTxOut (outIn : TxOut) (nHeightIn : UInt32) (isCoinbase : Bool) :
    (ofTxOut outIn nHeightIn isCoinbase).out = outIn := rfl

@[simp] theorem isSpent_empty : empty.isSpent = true := rfl

end Coin

end BitcoinCash
