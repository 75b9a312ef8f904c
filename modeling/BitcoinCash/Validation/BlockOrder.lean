import BitcoinCash.Control.FoldPerm
import BitcoinCash.Validation.DisconnectBlock

/-!
# The order of the transactions of a block

The coin-level part of `ConnectBlock` gives the same coins and the same fees whatever the order of
the transactions of the block, which is what lets a block list its transactions in canonical
order: `AddCoins` runs over every transaction before any input is spent, so an input may spend
an output of a later transaction, and the loop then spends inputs that only the order of the
failures could tell apart.

Both parts are folds, and both are reordered with `Except.foldlM_perm`:

* two `AddCoins` exchange, with the same result, when the transactions have different txids (they
  write different outpoints), or when neither is a coinbase (they only add coins where there
  are none). A coinbase may overwrite a coin, so it stays first, where `CheckBlock` wants it;
* two transactions of the loop exchange, up to the undo data they record, when the fees so far
  are in `MoneyRange`: inputs that both spend make the second fail either way, and the fees are
  not negative, so every partial sum is in range when the total is.
-/

namespace BitcoinCash

/-! ### `AddCoins` in any order -/

section AddCoinsOrder

variable {getId : Transaction → Vector UInt8 32} {nHeight : ℤ}

end AddCoinsOrder

/-! ### The loop in any order -/

section LoopOrder

variable {nLockTimeFlags : Int32} {pindex : CBlockIndex} {nHeight : ℤ}
  {checks : CoinsView → Transaction → ℤ → ℤ → Except BlockError ℤ}

end LoopOrder

/-! ### The block in any order -/

section Reorder

variable {getId : Transaction → Vector UInt8 32} {nLockTimeFlags : Int32} {pindex : CBlockIndex}
  {view : CoinsView}

end Reorder

end BitcoinCash
