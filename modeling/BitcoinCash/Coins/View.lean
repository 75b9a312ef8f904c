import Mathlib.Logic.Function.Basic
import BitcoinCash.Coins.Coin
import BitcoinCash.Control.InputLoop

/-!
# A view of the coins

What `CCoinsViewCache` (`coins.cpp`) answers for the coins, without its cache: the unspent coin
at each outpoint, if there is one, and the best block. `HaveCoin` says whether there is a coin,
`AccessCoin` reads it or `coinEmpty`, `AddCoin` and `SpendCoin` write it. A view holds no spent
coin, which `AddCoin`'s `assert` keeps; how the cache and its parents come to answer as such a
view is a separate matter.
-/

namespace BitcoinCash

/-- What a `CCoinsViewCache` answers for the coins: the unspent coin at each outpoint, if any,
and the best block. -/
structure CoinsView where
  coins : OutPoint → Option Coin
  coins_unspent : ∀ {o : OutPoint} {c : Coin}, coins o = some c → c.isSpent = false
  hashBlock : Vector UInt8 32

namespace CoinsView

variable (view : CoinsView)

/-- `HaveCoin`. -/
def haveCoin (outpoint : OutPoint) : Bool := (view.coins outpoint).isSome

/-- `AccessCoin`: `coinEmpty` when there is no coin. -/
def accessCoin (outpoint : OutPoint) : Coin := (view.coins outpoint).getD Coin.empty

/-- The view with `coin` at `outpoint`. -/
def set (outpoint : OutPoint) (coin : Coin) (hcoin : coin.isSpent = false) : CoinsView where
  coins := Function.update view.coins outpoint (some coin)
  coins_unspent {o c} h := by
    by_cases ho : o = outpoint
    · rw [ho, Function.update_self, Option.some_inj] at h
      exact h ▸ hcoin
    · rw [Function.update_of_ne ho] at h
      exact view.coins_unspent h
  hashBlock := view.hashBlock

/-- The view without a coin at `outpoint`. -/
def erase (outpoint : OutPoint) : CoinsView where
  coins := Function.update view.coins outpoint none
  coins_unspent {o c} h := by
    by_cases ho : o = outpoint
    · rw [ho, Function.update_self] at h
      cases h
    · rw [Function.update_of_ne ho] at h
      exact view.coins_unspent h
  hashBlock := view.hashBlock

/-- `AddCoin(outpoint, coin, possible_overwrite)`. -/
def addCoin (outpoint : OutPoint) (coin : Coin) (possibleOverwrite : Bool) :
    Except CoinsFault CoinsView :=
  if hspent : coin.isSpent = true then .error .assertFailed
  else if isUnspendable coin.out.scriptPubKey then .ok view
  else if !possibleOverwrite && view.haveCoin outpoint then .error .logicError
  else .ok (view.set outpoint coin (Bool.eq_false_iff.mpr hspent))

/-- `SpendCoin(outpoint, &moveout)`: the coin moved out and the view, `none` when it returns
`false`. -/
def spendCoin (outpoint : OutPoint) : Option (Coin × CoinsView) :=
  (view.coins outpoint).map fun coin => (coin, view.erase outpoint)

/-- `SetBestBlock`. -/
def setBestBlock (hashBlockIn : Vector UInt8 32) : CoinsView := { view with hashBlock := hashBlockIn }

variable {view}

@[simp] theorem coins_set (outpoint : OutPoint) (coin : Coin) (hcoin : coin.isSpent = false) :
    (view.set outpoint coin hcoin).coins = Function.update view.coins outpoint (some coin) := rfl

@[simp] theorem coins_erase (outpoint : OutPoint) :
    (view.erase outpoint).coins = Function.update view.coins outpoint none := rfl



@[simp] theorem coins_setBestBlock (hashBlockIn : Vector UInt8 32) :
    (view.setBestBlock hashBlockIn).coins = view.coins := rfl


/-- Two views with the same coins and the same best block are the same. -/
theorem ext {view' : CoinsView} (hcoins : view.coins = view'.coins)
    (hhash : view.hashBlock = view'.hashBlock) : view = view' := by
  cases view
  cases view'
  cases hcoins
  cases hhash
  rfl

theorem accessCoin_of_coins {outpoint : OutPoint} {coin : Coin}
    (h : view.coins outpoint = some coin) : view.accessCoin outpoint = coin := by
  rw [accessCoin, h, Option.getD_some]

/-- What a successful `AddCoin` does: an unspent coin is added, over a coin already there only
when an overwrite is allowed, and an unspendable one is dropped. -/
theorem addCoin_eq_ok {outpoint : OutPoint} {coin : Coin} {possibleOverwrite : Bool}
    {view' : CoinsView} (h : view.addCoin outpoint coin possibleOverwrite = .ok view') :
    coin.isSpent = false ∧
      (isUnspendable coin.out.scriptPubKey = true ∧ view' = view ∨
        isUnspendable coin.out.scriptPubKey = false ∧
          (possibleOverwrite = true ∨ view.haveCoin outpoint = false) ∧
          view'.coins = Function.update view.coins outpoint (some coin) ∧
          view'.hashBlock = view.hashBlock) := by
  rw [addCoin] at h
  split_ifs at h with hspent hunspendable hoverwrite
  · cases h
    exact ⟨Bool.eq_false_iff.mpr hspent, .inl ⟨hunspendable, rfl⟩⟩
  · cases h
    refine ⟨Bool.eq_false_iff.mpr hspent, .inr ⟨Bool.eq_false_iff.mpr hunspendable, ?_, rfl, rfl⟩⟩
    cases possibleOverwrite
    · exact .inr (by simpa using hoverwrite)
    · exact .inl rfl

/-- `AddCoin` of an unspent, spendable coin where there is none, or with an overwrite allowed. -/
theorem addCoin_of_spendable {outpoint : OutPoint} {coin : Coin} {possibleOverwrite : Bool}
    (hspent : coin.isSpent = false) (hspendable : isUnspendable coin.out.scriptPubKey = false)
    (hfree : possibleOverwrite = true ∨ view.haveCoin outpoint = false) :
    view.addCoin outpoint coin possibleOverwrite = .ok (view.set outpoint coin hspent) := by
  have hnot : ¬(!possibleOverwrite && view.haveCoin outpoint) = true := by
    rcases hfree with rfl | hfree
    · simp
    · simp [hfree]
  rw [addCoin, dif_neg (by simp [hspent]), if_neg (by simp [hspendable]), if_neg hnot]

/-- What a successful `SpendCoin` does: it moves out the coin there and erases it. -/
theorem spendCoin_eq_some {outpoint : OutPoint} {coin : Coin} {view' : CoinsView} :
    view.spendCoin outpoint = some (coin, view') ↔
      view.coins outpoint = some coin ∧ view' = view.erase outpoint := by
  rw [spendCoin]
  cases hc : view.coins outpoint with
  | none => simp
  | some c =>
    rw [Option.map_some, Option.some_inj, Prod.mk.injEq, Option.some_inj]
    constructor
    · rintro ⟨rfl, rfl⟩
      exact ⟨rfl, rfl⟩
    · rintro ⟨rfl, rfl⟩
      exact ⟨rfl, rfl⟩

end CoinsView

/-- `MAX_TX_SIZE`. -/
def maxTxSize : ℕ := 1000000

/-- `MAX_OUTPUTS_PER_TX`: `MAX_TX_SIZE` over the 9 bytes of a serialized null output. -/
def maxOutputsPerTx : ℕ := maxTxSize / 9

/-- `AccessByTxid`: the first coin among the outputs of index below `MAX_OUTPUTS_PER_TX` of a
txid, or `coinEmpty`. -/
def accessByTxid (view : CoinsView) (txid : Vector UInt8 32) : Coin :=
  ((List.range maxOutputsPerTx).findSome? fun n => view.coins ⟨txid, n.toUInt32⟩).getD Coin.empty

/-- The step of `AddCoins` for the output of index `i`. -/
def addCoinsStep (txid : Vector UInt8 32) (nHeight : ℤ) (fCoinbase check : Bool) (view : CoinsView)
    (output : TxOut × ℕ) : Except CoinsFault CoinsView :=
  let outpoint : OutPoint := ⟨txid, output.2.toUInt32⟩
  let overwrite := if check then view.haveCoin outpoint else fCoinbase
  view.addCoin outpoint (Coin.ofTxOut output.1 (UInt32.ofInt nHeight) fCoinbase) overwrite

/-- `AddCoins(cache, tx, nHeight, check)`: every output of `tx`, at the outpoints of its txid. -/
def addCoins (getId : Transaction → Vector UInt8 32) (view : CoinsView) (tx : Transaction)
    (nHeight : ℤ) (check : Bool) : Except CoinsFault CoinsView :=
  tx.vout.zipIdx.foldlM (addCoinsStep (getId tx) nHeight tx.isCoinBase check) view

/-- The coin that outputs, the first of index `k`, leave at the index `n`: the output of index
`n`, unless it is unspendable. -/
def outputsCoin (outputs : List TxOut) (k : ℕ) (nHeight : UInt32) (isCoinbase : Bool) (n : UInt32) :
    Option Coin :=
  (if k ≤ n.toNat then outputs[n.toNat - k]? else none).bind fun out =>
    if isUnspendable out.scriptPubKey then none else some (Coin.ofTxOut out nHeight isCoinbase)

/-- The coin `AddCoins` leaves at `o` from the outputs of `tx`: the output of index `o.n` when `o`
has the txid of `tx`, unless it is unspendable. -/
def outputCoin (getId : Transaction → Vector UInt8 32) (tx : Transaction) (nHeight : UInt32)
    (o : OutPoint) : Option Coin :=
  if getId tx = o.txid then outputsCoin tx.vout 0 nHeight tx.isCoinBase o.n else none

section AddCoins

variable {getId : Transaction → Vector UInt8 32} {tx : Transaction} {nHeight : ℤ} {check : Bool}

theorem toNat_toUInt32_of_lt {i : ℕ} (h : i < 2 ^ 32) : i.toUInt32.toNat = i := by
  simp only [Nat.toUInt32, UInt32.toNat_ofNat']
  exact Nat.mod_eq_of_lt h

theorem outputCoin_of_ne {o : OutPoint} (h : getId tx ≠ o.txid) (nHeight : UInt32) :
    outputCoin getId tx nHeight o = none := by
  rw [outputCoin, if_neg h]

theorem outputsCoin_nil (k : ℕ) (h : UInt32) (cb : Bool) (n : UInt32) :
    outputsCoin [] k h cb n = none := by
  rw [outputsCoin]
  split_ifs <;> rfl

/-- The first output gives the coin at its own index, the others the coins after it. -/
theorem outputsCoin_cons (out : TxOut) (outputs : List TxOut) (k : ℕ) (h : UInt32) (cb : Bool)
    (n : UInt32) :
    outputsCoin (out :: outputs) k h cb n =
      if n.toNat = k then (if isUnspendable out.scriptPubKey then none else some (Coin.ofTxOut out h cb))
      else outputsCoin outputs (k + 1) h cb n := by
  rw [outputsCoin, outputsCoin]
  by_cases hn : n.toNat = k
  · have hle : k ≤ n.toNat := Nat.le_of_eq hn.symm
    rw [if_pos hle, if_pos hn, hn, Nat.sub_self, List.getElem?_cons_zero, Option.bind_some]
  · rw [if_neg hn]
    by_cases hle : k + 1 ≤ n.toNat
    · rw [if_pos hle, if_pos (by omega), show n.toNat - k = n.toNat - (k + 1) + 1 by omega,
        List.getElem?_cons_succ]
    · rw [if_neg hle, if_neg (by omega)]

theorem outputsCoin_of_lt {outputs : List TxOut} {k : ℕ} {n : UInt32} (hn : n.toNat < k)
    (h : UInt32) (cb : Bool) : outputsCoin outputs k h cb n = none := by
  rw [outputsCoin, if_neg (by omega), Option.bind_none]

/-- A coin the outputs leave is the spendable output at its index, with the height and the flag
given. -/
theorem outputsCoin_eq_some {outputs : List TxOut} {k : ℕ} {h : UInt32} {cb : Bool} {n : UInt32}
    {c : Coin} (hc : outputsCoin outputs k h cb n = some c) :
    k ≤ n.toNat ∧ ∃ out, outputs[n.toNat - k]? = some out ∧
      isUnspendable out.scriptPubKey = false ∧ c = Coin.ofTxOut out h cb := by
  rw [outputsCoin] at hc
  split_ifs at hc with hk
  · obtain ⟨out, hout, hc⟩ := Option.bind_eq_some_iff.mp hc
    split_ifs at hc with hunsp
    exact ⟨hk, out, hout, Bool.eq_false_iff.mpr hunsp, (Option.some_inj.mp hc).symm⟩
  · cases hc

/-- The outputs from index `k` on leave their coins over those of the view, when their indices
fit in an outpoint. -/
theorem foldlM_addCoinsStep_coins (outputs : List TxOut) :
    ∀ (k : ℕ) (view view' : CoinsView), k + outputs.length ≤ 2 ^ 32 →
      (outputs.zipIdx k).foldlM (addCoinsStep (getId tx) nHeight tx.isCoinBase check) view =
        .ok view' →
      view'.hashBlock = view.hashBlock ∧
        (∀ n : UInt32, view'.coins ⟨getId tx, n⟩ =
          (outputsCoin outputs k (UInt32.ofInt nHeight) tx.isCoinBase n).or
            (view.coins ⟨getId tx, n⟩)) ∧
        ∀ o : OutPoint, o.txid ≠ getId tx → view'.coins o = view.coins o := by
  induction outputs with
  | nil =>
    intro k view view' _ h
    cases h
    exact ⟨rfl, fun n => by rw [outputsCoin_nil, Option.none_or], fun _ _ => rfl⟩
  | cons out outputs ih =>
    intro k view view' hlen h
    rw [List.length_cons] at hlen
    rw [List.zipIdx_cons, List.foldlM_cons, Except.bind_eq_ok] at h
    obtain ⟨view1, hstep, hrest⟩ := h
    obtain ⟨hhash, hcoins, hframe⟩ := ih (k + 1) view1 view' (by omega) hrest
    obtain ⟨-, hadd⟩ := CoinsView.addCoin_eq_ok hstep
    -- the output `k` goes to the outpoint of index `k`, and nowhere else
    have hk : (k.toUInt32 : UInt32).toNat = k := toNat_toUInt32_of_lt (by omega)
    have hview1 : view1.hashBlock = view.hashBlock ∧ ∀ o, o ≠ ⟨getId tx, k.toUInt32⟩ →
        view1.coins o = view.coins o := by
      rcases hadd with ⟨-, rfl⟩ | ⟨-, -, hcoins1, hhash1⟩
      · exact ⟨rfl, fun _ _ => rfl⟩
      · exact ⟨hhash1, fun o ho => by rw [hcoins1, Function.update_of_ne ho]⟩
    have hat : view1.coins ⟨getId tx, k.toUInt32⟩ =
        (if isUnspendable out.scriptPubKey then none
          else some (Coin.ofTxOut out (UInt32.ofInt nHeight) tx.isCoinBase)).or
          (view.coins ⟨getId tx, k.toUInt32⟩) := by
      rcases hadd with ⟨hunsp, rfl⟩ | ⟨hsp, -, hcoins1, -⟩
      · rw [Coin.out_ofTxOut] at hunsp
        rw [if_pos hunsp, Option.none_or]
      · rw [Coin.out_ofTxOut] at hsp
        rw [hcoins1, Function.update_self, if_neg (by simp [hsp]), Option.some_or]
    refine ⟨hhash.trans hview1.1, fun n => ?_, fun o ho => ?_⟩
    · rw [hcoins n, outputsCoin_cons]
      by_cases hn : n.toNat = k
      · -- the output just added
        have hnk : n = k.toUInt32 := UInt32.toNat_inj.mp (hn.trans hk.symm)
        rw [if_pos hn, outputsCoin, if_neg (by omega), Option.bind_none, Option.none_or, hnk, hat]
      · have hne : (⟨getId tx, n⟩ : OutPoint) ≠ ⟨getId tx, k.toUInt32⟩ := by
          intro heq
          exact hn ((congrArg UInt32.toNat (OutPoint.mk.inj heq).2).trans hk)
        rw [if_neg hn, hview1.2 _ hne]
    · rw [hframe o ho, hview1.2 o (fun h => ho (by rw [h]))]

/-- The coins after `AddCoins`: those of the outputs of `tx`, over the coins of the view. -/
theorem addCoins_coins {view view' : CoinsView} (hlen : tx.vout.length ≤ 2 ^ 32)
    (h : addCoins getId view tx nHeight check = .ok view') :
    view'.hashBlock = view.hashBlock ∧
      ∀ o, view'.coins o = (outputCoin getId tx (UInt32.ofInt nHeight) o).or (view.coins o) := by
  obtain ⟨hhash, hcoins, hframe⟩ := foldlM_addCoinsStep_coins tx.vout 0 view view'
    (by omega) h
  refine ⟨hhash, fun o => ?_⟩
  by_cases ho : getId tx = o.txid
  · obtain ⟨txid, n⟩ := o
    dsimp only at ho
    subst ho
    rw [hcoins n, outputCoin, if_pos rfl]
  · rw [hframe o (Ne.symm ho), outputCoin_of_ne ho, Option.none_or]

end AddCoins

end BitcoinCash
