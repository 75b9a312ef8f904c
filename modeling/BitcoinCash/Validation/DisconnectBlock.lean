import BitcoinCash.Validation.ConnectBlock

/-!
# Disconnecting a block

`ApplyBlockUndo` (`validation.cpp`), which `DisconnectBlock` calls with the undo data read from
disk, takes a block back off the coins: first it puts back, transaction by transaction, the
coins the inputs spent, from the undo data (`UndoCoinSpend`); then it spends every output the
block created, checking that it is there as the block made it. It ends at the block before.
The result says whether all of it matched (`DISCONNECT_OK`), whether the coins did not match
the block (`DISCONNECT_UNCLEAN`), or whether it could not go on (`DISCONNECT_FAILED`).

Disconnecting undoes connecting when the view held only coins that `AddCoin` keeps and that
carry a height: an unspendable coin that a block spends is recorded in the undo data, but
`AddCoin` drops it again on the way back (`applyBlockUndo_drops_unspendable`).
-/

namespace BitcoinCash

/-- `DisconnectResult`. -/
inductive DisconnectResult
  /-- `DISCONNECT_OK`: all good. -/
  | ok
  /-- `DISCONNECT_UNCLEAN`: rolled back, but the coins did not match the block. -/
  | unclean
  /-- `DISCONNECT_FAILED`: something else went wrong. -/
  | failed
  deriving DecidableEq, Repr

/-- `fClean ? DISCONNECT_OK : DISCONNECT_UNCLEAN`. -/
def DisconnectResult.ofClean (fClean : Bool) : DisconnectResult :=
  if fClean then .ok else .unclean

/-- `UndoCoinSpend(undo, view, out)`. An undo coin of height 0 is a record of an old version,
which kept the height and the flag only with the last output of a transaction spent: they are
taken from another output of the transaction. -/
def undoCoinSpend (undo : Coin) (view : CoinsView) (out : OutPoint) :
    Except CoinsFault (DisconnectResult × CoinsView) :=
  -- a coin already there is overwritten, which is not clean
  let fClean := !view.haveCoin out
  let alternate := accessByTxid view out.txid
  if undo.getHeight = 0 ∧ alternate.isSpent = true then .ok (.failed, view)
  else
    let undo := if undo.getHeight = 0 then
      Coin.ofTxOut undo.out alternate.getHeight alternate.isCoinBase else undo
    match view.addCoin out undo !fClean with
    | .error f => .error f
    | .ok view => .ok (.ofClean fClean, view)

/-- The inner loop of the first part of `ApplyBlockUndo`, over the inputs of a transaction with
the coins of its undo data. The flag `fClean` goes on through the whole first part. -/
def undoInputs : List (TxIn × Coin) → Bool → CoinsView →
    Except CoinsFault (DisconnectResult × CoinsView)
  | [], fClean, view => .ok (.ofClean fClean, view)
  | (txin, undo) :: rest, fClean, view =>
    match undoCoinSpend undo view txin.prevout with
    | .error f => .error f
    | .ok (res, view) =>
      if res = .failed then .ok (.failed, view)
      else undoInputs rest (fClean && res != .unclean) view

/-- The first part of `ApplyBlockUndo`, over the transactions but the coinbase with their undo
data. -/
def restoreInputs : List (Transaction × CTxUndo) → Bool → CoinsView →
    Except CoinsFault (DisconnectResult × CoinsView)
  | [], fClean, view => .ok (.ofClean fClean, view)
  | (tx, txundo) :: rest, fClean, view =>
    -- transaction and undo data inconsistent
    if txundo.vprevout.length ≠ tx.vin.length then .ok (.failed, view)
    else
      match undoInputs (tx.vin.zip txundo.vprevout) fClean view with
      | .error f => .error f
      | .ok (res, view) =>
        if res = .failed then .ok (.failed, view)
        else restoreInputs rest (res == .ok) view

/-- The step of the second part of `ApplyBlockUndo` for the output of index `o` of a
transaction: spend its coin, which must be there as the output made it. -/
def revertOutput (txid : Vector UInt8 32) (isCoinbase : Bool) (nHeight : ℤ)
    (acc : Bool × CoinsView) (output : TxOut × ℕ) : Bool × CoinsView :=
  if isUnspendable output.1.scriptPubKey then acc
  else
    match acc.2.spendCoin ⟨txid, output.2.toUInt32⟩ with
    -- transaction output mismatch
    | none => (false, acc.2)
    | some (coin, view) =>
      (acc.1 && output.1 == coin.out && UInt32.ofInt nHeight == coin.getHeight &&
        isCoinbase == coin.isCoinBase, view)

/-- The second part of `ApplyBlockUndo`, over every transaction of the block. -/
def revertOutputs (getId : Transaction → Vector UInt8 32) (nHeight : ℤ) (vtx : List Transaction)
    (acc : Bool × CoinsView) : Bool × CoinsView :=
  vtx.foldl (fun acc tx => tx.vout.zipIdx.foldl (revertOutput (getId tx) tx.isCoinBase nHeight) acc)
    acc

/-- `ApplyBlockUndo(blockUndo, block, pindex, view)`. On `DISCONNECT_FAILED` the view is the
one reached, which the source leaves indeterminate. -/
def applyBlockUndo (getId : Transaction → Vector UInt8 32) (blockUndo : CBlockUndo)
    (block : CBlock) (pindex : CBlockIndex) (view : CoinsView) :
    Except CoinsFault (DisconnectResult × CoinsView) :=
  -- block and undo data inconsistent
  if blockUndo.vtxundo.length + 1 ≠ block.vtx.length then .ok (.failed, view)
  else
    match restoreInputs (block.vtx.tail.zip blockUndo.vtxundo) true view with
    | .error f => .error f
    | .ok (res, view) =>
      if res = .failed then .ok (.failed, view)
      else
        let acc := revertOutputs getId pindex.nHeight block.vtx (res == .ok, view)
        .ok (.ofClean acc.1, acc.2.setBestBlock block.header.hashPrevBlock)

/-! ### Putting the spent coins back -/

/-- The coins of a view that `UndoCoinSpend` puts back as they are: `AddCoin` keeps them, and
their height is not the mark of an old record. -/
def Restorable (view : CoinsView) : Prop :=
  ∀ o c, view.coins o = some c → isUnspendable c.out.scriptPubKey = false ∧ c.getHeight ≠ 0

theorem ofClean_ne_failed (fClean : Bool) : DisconnectResult.ofClean fClean ≠ .failed := by
  cases fClean <;> rintro ⟨⟩

/-- `UndoCoinSpend` of a coin that `AddCoin` keeps, with its height, where there is no coin. -/
theorem undoCoinSpend_of_free {undo : Coin} {view : CoinsView} {out : OutPoint}
    (hfree : view.coins out = none) (hspent : undo.isSpent = false)
    (hspendable : isUnspendable undo.out.scriptPubKey = false) (hheight : undo.getHeight ≠ 0) :
    undoCoinSpend undo view out = .ok (.ok, view.set out undo hspent) := by
  have hhave : view.haveCoin out = false := by rw [CoinsView.haveCoin, hfree, Option.isSome_none]
  simp only [undoCoinSpend, hheight, false_and, if_false, hhave, Bool.not_false, Bool.not_true,
    CoinsView.addCoin_of_spendable hspent hspendable (.inr hhave)]
  rfl

section Restore

variable {S : CoinsView}

/-- The inputs of a transaction, with the coins `S` held for them, go back into a view that is
`S` without them and without `R`: the view is then `S` without `R`. -/
theorem undoInputs_eq_ok (hS : Restorable S) :
    ∀ (pairs : List (TxIn × Coin)) (R : List OutPoint) (fClean : Bool) (W : CoinsView),
      (pairs.map (·.1.prevout) ++ R).Nodup → (∀ p ∈ pairs, S.coins p.1.prevout = some p.2) →
      (∀ o, W.coins o = if o ∈ pairs.map (·.1.prevout) ++ R then none else S.coins o) →
      ∃ W', undoInputs pairs fClean W = .ok (.ofClean fClean, W') ∧
        (∀ o, W'.coins o = if o ∈ R then none else S.coins o) ∧ W'.hashBlock = W.hashBlock
  | [], R, fClean, W, _, _, hW => ⟨W, rfl, fun o => by rw [hW, List.map_nil, List.nil_append], rfl⟩
  | (txin, undo) :: rest, R, fClean, W, hnd, hpairs, hW => by
    rw [List.map_cons, List.cons_append, List.nodup_cons] at hnd
    have hundo : S.coins txin.prevout = some undo := hpairs _ List.mem_cons_self
    obtain ⟨hspendable, hheight⟩ := hS _ _ hundo
    have hspent := S.coins_unspent hundo
    have hfree : W.coins txin.prevout = none := by
      rw [hW, if_pos (by simp)]
    -- the view with the first coin back is `S` without the other inputs and `R`
    have hW1 : ∀ o, (W.set txin.prevout undo hspent).coins o =
        if o ∈ rest.map (·.1.prevout) ++ R then none else S.coins o := by
      intro o
      rw [CoinsView.coins_set]
      by_cases ho : o = txin.prevout
      · rw [ho, Function.update_self, if_neg hnd.1, hundo]
      · rw [Function.update_of_ne ho, hW, List.map_cons, List.cons_append]
        simp only [List.mem_cons, ho, false_or]
    obtain ⟨W', hrun, hcoins, hhash⟩ := undoInputs_eq_ok hS rest R fClean _ hnd.2
      (fun p hp => hpairs p (List.mem_cons_of_mem _ hp)) hW1
    have hclean : (fClean && DisconnectResult.ok != .unclean) = fClean := by cases fClean <;> rfl
    refine ⟨W', ?_, hcoins, hhash⟩
    rw [undoInputs, undoCoinSpend_of_free hfree hspent hspendable hheight]
    dsimp only
    rw [if_neg (by rintro ⟨⟩), hclean, hrun]

theorem zip_map_self {α β : Type} (l : List α) (f : α → β) :
    l.zip (l.map f) = l.map fun a => (a, f a) := by
  have h := @List.zip_map' _ _ _ id f l
  rwa [List.map_id] at h

/-- The first part of `ApplyBlockUndo`, over transactions with the undo data of their inputs in
`S`, into `S` without those inputs and without `R`, gives back `S` without `R`. -/
theorem restoreInputs_eq_ok (hS : Restorable S) :
    ∀ (txs : List Transaction) (R : List OutPoint) (fClean : Bool) (W : CoinsView),
      (spentOutpoints txs ++ R).Nodup → (∀ o ∈ spentOutpoints txs, (S.coins o).isSome) →
      (∀ o, W.coins o = if o ∈ spentOutpoints txs ++ R then none else S.coins o) →
      ∃ W', restoreInputs (txs.zip (txs.map (txUndoOf S))) fClean W = .ok (.ofClean fClean, W') ∧
        (∀ o, W'.coins o = if o ∈ R then none else S.coins o) ∧ W'.hashBlock = W.hashBlock
  | [], R, fClean, W, _, _, hW =>
    ⟨W, rfl, fun o => by rw [hW, spentOutpoints, List.flatMap_nil, List.nil_append], rfl⟩
  | tx :: txs, R, fClean, W, hnd, hsome, hW => by
    have hspent : spentOutpoints (tx :: txs) = tx.vin.map TxIn.prevout ++ spentOutpoints txs := by
      rw [spentOutpoints, List.flatMap_cons, ← spentOutpoints]
    -- the inputs of `tx` with the coins recorded for them
    have hpairs : tx.vin.zip (txUndoOf S tx).vprevout =
        tx.vin.map fun txin => (txin, S.accessCoin txin.prevout) := zip_map_self _ _
    have hins : (tx.vin.zip (txUndoOf S tx).vprevout).map (·.1.prevout) =
        tx.vin.map TxIn.prevout := by
      rw [hpairs, List.map_map]
      rfl
    have hcoins : ∀ p ∈ tx.vin.zip (txUndoOf S tx).vprevout, S.coins p.1.prevout = some p.2 := by
      intro p hp
      rw [hpairs, List.mem_map] at hp
      obtain ⟨txin, htxin, rfl⟩ := hp
      have hmem : txin.prevout ∈ spentOutpoints (tx :: txs) :=
        hspent ▸ List.mem_append_left _ (List.mem_map_of_mem htxin)
      exact (Option.eq_some_of_isSome (hsome _ hmem)).trans
        (congrArg some (CoinsView.accessCoin_of_coins (Option.eq_some_of_isSome _)).symm)
    rw [hspent, List.append_assoc] at hnd hW
    obtain ⟨W1, hrun1, hcoins1, hhash1⟩ := undoInputs_eq_ok hS _ (spentOutpoints txs ++ R) fClean W
      (hins ▸ hnd) hcoins (hins ▸ hW)
    obtain ⟨W', hrun, hcoins', hhash⟩ := restoreInputs_eq_ok hS txs R
      (DisconnectResult.ofClean fClean == DisconnectResult.ok) W1
      (List.nodup_append.mp hnd).2.1
      (fun o ho => hsome o (hspent ▸ List.mem_append_right _ ho)) hcoins1
    have hclean : DisconnectResult.ofClean (DisconnectResult.ofClean fClean == .ok) =
        .ofClean fClean := by cases fClean <;> rfl
    refine ⟨W', ?_, hcoins', hhash.trans hhash1⟩
    have hlen : (txUndoOf S tx).vprevout.length = tx.vin.length := List.length_map _
    rw [List.map_cons, List.zip_cons_cons, restoreInputs, if_neg (by rw [hlen]; exact not_not.mpr rfl),
      hrun1]
    dsimp only
    rw [if_neg (ofClean_ne_failed fClean), hrun, hclean]

end Restore

/-! ### Erasing the created coins -/

section Revert

variable {getId : Transaction → Vector UInt8 32} {nHeight : ℤ}

/-- The step for one output whose coin is there as the output made it: the coin is erased,
unless the output is unspendable, and the flag stays. -/
theorem revertOutput_of_coin {txid : Vector UInt8 32} {cb : Bool}
    (hU : (UInt32.ofInt nHeight).toNat < 2 ^ 31) (fClean : Bool) {W : CoinsView} {out : TxOut}
    {k : ℕ} (hcoin : isUnspendable out.scriptPubKey = false →
      W.coins ⟨txid, k.toUInt32⟩ = some (Coin.ofTxOut out (UInt32.ofInt nHeight) cb)) :
    ∃ W1, revertOutput txid cb nHeight (fClean, W) (out, k) = (fClean, W1) ∧
      W1.hashBlock = W.hashBlock ∧
      ∀ o, W1.coins o =
        if o = ⟨txid, k.toUInt32⟩ ∧ isUnspendable out.scriptPubKey = false then none else W.coins o := by
  cases hunsp : isUnspendable out.scriptPubKey
  · have hspend : W.spendCoin ⟨txid, k.toUInt32⟩ =
        some (Coin.ofTxOut out (UInt32.ofInt nHeight) cb, W.erase ⟨txid, k.toUInt32⟩) :=
      CoinsView.spendCoin_eq_some.mpr ⟨hcoin hunsp, rfl⟩
    refine ⟨W.erase ⟨txid, k.toUInt32⟩, ?_, rfl, fun o => ?_⟩
    · rw [revertOutput, if_neg (by rw [hunsp]; exact Bool.false_ne_true)]
      dsimp only
      rw [hspend]
      simp [Coin.getHeight_ofTxOut _ hU, Coin.isCoinBase_ofTxOut _ hU]
    · by_cases ho : o = ⟨txid, k.toUInt32⟩
      · rw [ho, CoinsView.coins_erase, Function.update_self, if_pos ⟨rfl, rfl⟩]
      · rw [CoinsView.coins_erase, Function.update_of_ne ho, if_neg (fun h => ho h.1)]
  · refine ⟨W, ?_, rfl, fun o => ?_⟩
    · rw [revertOutput, if_pos hunsp]
    · rw [if_neg (by rintro ⟨-, ⟨⟩⟩)]

/-- The outputs from index `k` on, whose coins are there as the outputs made them, are erased
and the flag stays. -/
theorem foldl_revertOutput {txid : Vector UInt8 32} {cb : Bool}
    (hU : (UInt32.ofInt nHeight).toNat < 2 ^ 31) (outputs : List TxOut) :
    ∀ (k : ℕ) (fClean : Bool) (W : CoinsView), k + outputs.length ≤ 2 ^ 32 →
      (∀ n c, outputsCoin outputs k (UInt32.ofInt nHeight) cb n = some c →
        W.coins ⟨txid, n⟩ = some c) →
      ∃ W', (outputs.zipIdx k).foldl (revertOutput txid cb nHeight) (fClean, W) = (fClean, W') ∧
        (∀ n, W'.coins ⟨txid, n⟩ =
          if (outputsCoin outputs k (UInt32.ofInt nHeight) cb n).isSome then none
          else W.coins ⟨txid, n⟩) ∧
        (∀ o, o.txid ≠ txid → W'.coins o = W.coins o) ∧ W'.hashBlock = W.hashBlock := by
  induction outputs with
  | nil =>
    intro k fClean W _ _
    exact ⟨W, rfl, fun n => by rw [outputsCoin_nil]; rfl, fun _ _ => rfl, rfl⟩
  | cons out outputs ih =>
    intro k fClean W hlen hW
    rw [List.length_cons] at hlen
    have hk : (k.toUInt32 : UInt32).toNat = k := toNat_toUInt32_of_lt (by omega)
    have hcoin : isUnspendable out.scriptPubKey = false →
        W.coins ⟨txid, k.toUInt32⟩ = some (Coin.ofTxOut out (UInt32.ofInt nHeight) cb) := by
      intro hunsp
      rw [hW k.toUInt32]
      rw [outputsCoin_cons, if_pos hk, if_neg (by rw [hunsp]; exact Bool.false_ne_true)]
    obtain ⟨W1, hstep, hhash1, hcoins1⟩ := revertOutput_of_coin hU fClean hcoin
    -- the outputs after `k` see the coins of `W` at their own indices
    have hW1 : ∀ n c, outputsCoin outputs (k + 1) (UInt32.ofInt nHeight) cb n = some c →
        W1.coins ⟨txid, n⟩ = some c := by
      intro n c hc
      have hn : n.toNat ≠ k := fun hn => by
        rw [outputsCoin_of_lt (by omega)] at hc
        cases hc
      rw [hcoins1, if_neg (fun h => hn (by rw [(OutPoint.mk.inj h.1).2, hk])),
        hW n c (by rw [outputsCoin_cons, if_neg hn, hc])]
    obtain ⟨W', hrun, hcoins, hframe, hhash⟩ := ih (k + 1) fClean W1 (by omega) hW1
    refine ⟨W', ?_, fun n => ?_, fun o ho => ?_, hhash.trans hhash1⟩
    · rw [List.zipIdx_cons, List.foldl_cons, hstep, hrun]
    · rw [hcoins n, hcoins1, outputsCoin_cons]
      by_cases hn : n.toNat = k
      · -- the output at `k` itself
        have hnk : n = k.toUInt32 := UInt32.toNat_inj.mp (hn.trans hk.symm)
        rw [outputsCoin_of_lt (by omega), if_pos hn, hnk]
        cases isUnspendable out.scriptPubKey <;> simp
      · have hne : (⟨txid, n⟩ : OutPoint) ≠ ⟨txid, k.toUInt32⟩ := fun h =>
          hn ((congrArg UInt32.toNat (OutPoint.mk.inj h).2).trans hk)
        rw [if_neg hn, if_neg (not_and_of_not_left _ hne)]
    · rw [hframe o ho, hcoins1, if_neg (fun h => ho (by rw [h.1]))]

theorem revertOutputs_cons (tx : Transaction) (vtx : List Transaction) (acc : Bool × CoinsView) :
    revertOutputs getId nHeight (tx :: vtx) acc = revertOutputs getId nHeight vtx
      (tx.vout.zipIdx.foldl (revertOutput (getId tx) tx.isCoinBase nHeight) acc) := rfl

/-- The second part of `ApplyBlockUndo`, over transactions of distinct txids whose coins are
there as the transactions made them, erases those coins and keeps the flag. -/
theorem revertOutputs_coins (hU : (UInt32.ofInt nHeight).toNat < 2 ^ 31) :
    ∀ (vtx : List Transaction) (fClean : Bool) (W : CoinsView), (vtx.map getId).Nodup →
      (∀ tx ∈ vtx, tx.vout.length ≤ 2 ^ 32) →
      (∀ o c, createdCoin getId vtx (UInt32.ofInt nHeight) o = some c → W.coins o = some c) →
      ∃ W', revertOutputs getId nHeight vtx (fClean, W) = (fClean, W') ∧
        (∀ o, W'.coins o =
          if (createdCoin getId vtx (UInt32.ofInt nHeight) o).isSome then none else W.coins o) ∧
        W'.hashBlock = W.hashBlock
  | [], fClean, W, _, _, _ => ⟨W, rfl, fun _ => rfl, rfl⟩
  | tx :: vtx, fClean, W, hids, houts, hW => by
    rw [List.map_cons, List.nodup_cons] at hids
    obtain ⟨W1, hrun1, hcoins1, hframe1, hhash1⟩ := foldl_revertOutput hU tx.vout 0 fClean W
      (by have := houts tx List.mem_cons_self; omega)
      fun n c hc => hW ⟨getId tx, n⟩ c (by
        rw [createdCoin_cons, outputCoin, if_pos rfl, hc, Option.some_or])
    -- the coins the rest of the block creates have other txids
    have hW1 : ∀ o c, createdCoin getId vtx (UInt32.ofInt nHeight) o = some c →
        W1.coins o = some c := by
      intro o c hc
      obtain ⟨tx', htx', hid', -⟩ := createdCoin_eq_some hc
      have hne : getId tx ≠ o.txid := fun h => hids.1 (List.mem_map.mpr ⟨tx', htx', hid'.trans h.symm⟩)
      rw [hframe1 o (Ne.symm hne), hW o c]
      rw [createdCoin_cons, outputCoin_of_ne hne, Option.none_or, hc]
    obtain ⟨W', hrun, hcoins, hhash⟩ := revertOutputs_coins hU vtx fClean W1 hids.2
      (fun tx' h' => houts tx' (List.mem_cons_of_mem _ h')) hW1
    refine ⟨W', by rw [revertOutputs_cons, hrun1, hrun], fun o => ?_, hhash.trans hhash1⟩
    rw [hcoins o, createdCoin_cons]
    by_cases hid : getId tx = o.txid
    · -- only `tx` creates coins at the txid of `o`
      obtain ⟨txid, n⟩ := o
      dsimp only at hid
      subst hid
      rw [createdCoin_of_not_mem hids.1, Option.or_none, hcoins1 n, outputCoin, if_pos rfl]
      rfl
    · rw [outputCoin_of_ne hid, Option.none_or, hframe1 o (Ne.symm hid)]

end Revert

/-! ### Disconnecting a connected block -/

/-- The height of a block index fits in 31 bits, and `uint32_t(nHeight)` keeps it. -/
theorem CBlockIndex.toNat_ofInt_nHeight (pindex : CBlockIndex) :
    (UInt32.ofInt pindex.nHeight).toNat = pindex.nHeight.toNat ∧ pindex.nHeight.toNat < 2 ^ 31 := by
  have hpos := List.length_pos_of_ne_nil pindex.times_ne_nil
  have hle := pindex.length_le
  rw [UInt32.ofInt, UInt32.toNat_ofNat', CBlockIndex.nHeight]
  omega

section Disconnect

variable {getId : Transaction → Vector UInt8 32} {view : CoinsView} {vtx : List Transaction}
  {nHeight : UInt32}

/-- After `AddCoins`, a view whose coins carry a height and are kept by `AddCoin` still has only
such coins, the block being above height 0. -/
theorem restorable_of_addBlockCoins {S : CoinsView}
    (hview : ∀ o c, view.coins o = some c →
      1 ≤ c.getHeight.toNat ∧ isUnspendable c.out.scriptPubKey = false)
    (hheight : nHeight.toNat < 2 ^ 31) (hpos : 1 ≤ nHeight.toNat)
    (hS : ∀ o, S.coins o = (createdCoin getId vtx nHeight o).or (view.coins o)) : Restorable S := by
  intro o c hc
  rw [hS o] at hc
  cases hcreated : createdCoin getId vtx nHeight o with
  | some c' =>
    rw [hcreated, Option.some_or, Option.some_inj] at hc
    obtain ⟨tx, -, -, out, -, hspendable, rfl⟩ := createdCoin_eq_some hcreated
    subst hc
    refine ⟨hspendable, ?_⟩
    rw [Coin.getHeight_ofTxOut _ hheight]
    intro h0
    rw [h0] at hpos
    exact absurd hpos (by decide)
  | none =>
    rw [hcreated, Option.none_or] at hc
    obtain ⟨hpos', hspendable⟩ := hview o c hc
    exact ⟨hspendable, fun h0 => by rw [h0] at hpos'; exact absurd hpos' (by decide)⟩

/-- Disconnecting a block connected to a view whose coins carry a height and are kept by
`AddCoin` gives back the coins of the view, cleanly, at the block before; whatever the checks
between `CheckTxInputs` and `SpendCoins`. The block is above height 0, a coinbase and then other
transactions, of distinct txids and fewer than `2 ^ 32` outputs each, and creates no coin where
the view has one (BIP30). -/
theorem applyBlockUndo_connectBlockCoins
    {checks : CoinsView → Transaction → ℤ → ℤ → Except BlockError ℤ} {block : CBlock}
    {pindex : CBlockIndex} {view' : CoinsView} {nFees : ℤ} {blockUndo : CBlockUndo}
    (hview : ∀ o c, view.coins o = some c →
      1 ≤ c.getHeight.toNat ∧ isUnspendable c.out.scriptPubKey = false)
    (hheight : 1 ≤ pindex.nHeight) (hcb : ∀ tx ∈ block.vtx.tail, tx.isCoinBase = false)
    (hids : (block.vtx.map getId).Nodup) (houts : ∀ tx ∈ block.vtx, tx.vout.length ≤ 2 ^ 32)
    (hbip30 : ∀ tx ∈ block.vtx, ∀ (i : ℕ) (out : TxOut), tx.vout[i]? = some out →
      isUnspendable out.scriptPubKey = false → view.coins ⟨getId tx, i.toUInt32⟩ = none)
    (h : connectBlockCoins getId checks block pindex view = .ok (view', nFees, blockUndo)) :
    ∃ view'', applyBlockUndo getId blockUndo block pindex view' = .ok (.ok, view'') ∧
      view''.coins = view.coins ∧ view''.hashBlock = block.header.hashPrevBlock := by
  obtain ⟨hU, hU31⟩ := pindex.toNat_ofInt_nHeight
  rw [connectBlockCoins] at h
  split_ifs at h with hnil
  obtain ⟨cb, txs, hvtx⟩ := List.exists_cons_of_ne_nil hnil
  cases hadd : addBlockCoins getId block.vtx pindex.nHeight view with
  | error f =>
    rw [hadd] at h
    cases f <;> cases h
  | ok S0 =>
    rw [hadd] at h
    obtain ⟨st, hloop, hst⟩ := Except.bind_eq_ok.mp h
    rw [Except.pure_eq_ok, Except.ok.injEq, Prod.mk.injEq, Prod.mk.injEq] at hst
    obtain ⟨rfl, -, rfl⟩ := hst
    -- the view after `AddCoins`: the coins the block creates over those of `view`
    obtain ⟨-, hS0⟩ := foldlM_addCoins_coins block.vtx view S0 hids houts hadd
    have hrestorable : Restorable S0 :=
      restorable_of_addBlockCoins hview (hU ▸ hU31) (by omega) hS0
    rw [hvtx, List.length_cons, Nat.add_sub_cancel] at hloop
    rw [hvtx, List.tail_cons] at hcb
    -- the first transaction is the coinbase, or the undo data is one entry short
    have hcb0 : cb.isCoinBase = true := by
      by_contra hne
      have hall : ∀ tx ∈ cb :: txs, tx.isCoinBase = false := by
        intro tx htx
        rcases List.mem_cons.mp htx with rfl | htx
        · exact Bool.eq_false_iff.mpr hne
        · exact hcb tx htx
      have hlen := (foldlM_connectTx_eq_ok (cb :: txs) S0 0 [] txs.length st hall hloop).1
      rw [List.length_cons] at hlen
      omega
    rw [List.foldlM_cons, Except.bind_eq_ok] at hloop
    obtain ⟨st1, hstep1, hrest⟩ := hloop
    rw [connectTx_of_isCoinBase hcb0 hstep1] at hrest
    obtain ⟨-, ⟨hnd, hsome, hcoins, -⟩, -, hvtxundo⟩ :=
      foldlM_connectTx_eq_ok txs S0 st1.nFees [] txs.length st hcb hrest
    rw [Nat.sub_self, List.replicate_zero, List.append_nil, List.nil_append] at hvtxundo
    -- the inputs go back: the view is that after `AddCoins`
    obtain ⟨W, hrestore, hW, -⟩ := restoreInputs_eq_ok hrestorable txs [] true st.view
      (by rwa [List.append_nil]) hsome (fun o => by rw [hcoins o, List.append_nil])
    have hWS0 : ∀ o, W.coins o = S0.coins o := fun o => by
      rw [hW o, if_neg List.not_mem_nil]
    -- the created coins go: the view is `view`
    obtain ⟨W', hrevert, hW', -⟩ := revertOutputs_coins (hU ▸ hU31) block.vtx true W
      hids houts (fun o c hc => by rw [hWS0, hS0, hc, Option.some_or])
    refine ⟨W'.setBestBlock block.header.hashPrevBlock, ?_, funext fun o => ?_, rfl⟩
    · have hsize : (⟨st.vtxundo⟩ : CBlockUndo).vtxundo.length + 1 = block.vtx.length := by
        rw [hvtxundo, hvtx, List.length_map, List.length_cons]
      have hzip : block.vtx.tail.zip (⟨st.vtxundo⟩ : CBlockUndo).vtxundo =
          txs.zip (txs.map (txUndoOf S0)) := by
        rw [hvtx, List.tail_cons, hvtxundo]
      have hclean : (DisconnectResult.ofClean true == DisconnectResult.ok) = true := rfl
      rw [applyBlockUndo, if_neg (not_not.mpr hsize), hzip, hrestore]
      dsimp only
      rw [if_neg (ofClean_ne_failed true), hclean, hrevert]
      rfl
    · rw [CoinsView.coins_setBestBlock, hW' o]
      cases hcreated : createdCoin getId block.vtx (UInt32.ofInt pindex.nHeight) o with
      | some c =>
        -- a coin the block creates was not a coin of `view` (BIP30)
        obtain ⟨tx, htx, hid, out, hout, hspendable, -⟩ := createdCoin_eq_some hcreated
        have hfresh := hbip30 tx htx o.n.toNat out hout hspendable
        rw [hid] at hfresh
        simpa using hfresh.symm
      | none => rw [Option.isSome_none, if_neg Bool.false_ne_true, hWS0, hS0, hcreated, Option.none_or]

end Disconnect

/-! ### A block spending one coin -/

/-- The txids of the transactions below: their lock time, repeated. -/
def exampleGetId (tx : Transaction) : Vector UInt8 32 := Vector.replicate 32 tx.nLockTime.toUInt8

/-- An outpoint of an earlier block. -/
def exampleOutPoint : OutPoint := ⟨Vector.replicate 32 7, 0⟩

/-- The coin at `exampleOutPoint`: 50 satoshis locked by `script`, at height 1. -/
def exampleCoin (script : List UInt8) : Coin := Coin.ofTxOut ⟨50, script⟩ 1 false

/-- A view with the one coin `exampleCoin script`. -/
def exampleView (script : List UInt8) : CoinsView where
  coins o := if o = exampleOutPoint then some (exampleCoin script) else none
  coins_unspent {o c} h := by
    split_ifs at h
    cases h
    rfl
  hashBlock := Vector.replicate 32 0

/-- A block at height 1: a coinbase without outputs, then a transaction that spends
`exampleOutPoint` into an output of 40 satoshis. -/
def exampleBlock : CBlock where
  header := ⟨1, Vector.replicate 32 0, Vector.replicate 32 0, 0, 0, 0⟩
  vtx := [⟨1, [⟨⟨Vector.replicate 32 0, 0xffffffff⟩, [], 0xffffffff⟩], [], 0⟩,
    ⟨1, [⟨exampleOutPoint, [], 0xffffffff⟩], [⟨40, []⟩], 1⟩]

/-- The index of `exampleBlock`, at height 1. -/
def examplePindex : CBlockIndex := ⟨[0, 0], by decide, by decide⟩

theorem exampleView_coins_eq_some {script : List UInt8} {o : OutPoint} {c : Coin}
    (h : (exampleView script).coins o = some c) : c = exampleCoin script := by
  simp only [exampleView] at h
  split_ifs at h
  exact (Option.some_inj.mp h).symm

/-- The block creates no coin where `exampleView` has one. -/
theorem exampleView_fresh (script : List UInt8) :
    ∀ tx ∈ exampleBlock.vtx, ∀ (i : ℕ) (out : TxOut), tx.vout[i]? = some out →
      isUnspendable out.scriptPubKey = false →
        (exampleView script).coins ⟨exampleGetId tx, i.toUInt32⟩ = none := by
  intro tx htx i out _ _
  have hid : ∀ tx ∈ exampleBlock.vtx, exampleGetId tx ≠ exampleOutPoint.txid := by decide
  simp only [exampleView]
  rw [if_neg (fun h => hid tx htx (congrArg OutPoint.txid h))]

theorem applyBlockUndo_connectBlockCoins_spend :
    ∃ view' nFees blockUndo, connectBlockCoins exampleGetId (connectChecks 0 examplePindex)
        exampleBlock examplePindex (exampleView []) = .ok (view', nFees, blockUndo) ∧
      ∃ view'', applyBlockUndo exampleGetId blockUndo exampleBlock examplePindex view' =
          .ok (.ok, view'') ∧
        view''.coins = (exampleView []).coins ∧ view''.hashBlock = exampleBlock.header.hashPrevBlock := by
  have hconnect : connectBlockCoins exampleGetId (connectChecks 0 examplePindex) exampleBlock
      examplePindex (exampleView []) = .ok _ := rfl
  have hview : ∀ o c, (exampleView []).coins o = some c →
      1 ≤ c.getHeight.toNat ∧ isUnspendable c.out.scriptPubKey = false := by
    intro o c hc
    rw [exampleView_coins_eq_some hc]
    decide
  exact ⟨_, _, _, hconnect, applyBlockUndo_connectBlockCoins hview (by decide) (by decide)
    (by decide) (by decide) (exampleView_fresh []) hconnect⟩

/-- An unspendable coin of height 1 that a block spends is recorded in the undo data, but
`AddCoin` drops it when the block is disconnected, which still reports `DISCONNECT_OK`. -/
theorem applyBlockUndo_drops_unspendable :
    (∀ o c, (exampleView [opReturn]).coins o = some c → 1 ≤ c.getHeight.toNat) ∧
      (exampleBlock.vtx.map exampleGetId).Nodup ∧
      (∀ tx ∈ exampleBlock.vtx, ∀ (i : ℕ) (out : TxOut), tx.vout[i]? = some out →
        isUnspendable out.scriptPubKey = false →
          (exampleView [opReturn]).coins ⟨exampleGetId tx, i.toUInt32⟩ = none) ∧
      ∃ view' nFees blockUndo, connectBlockCoins exampleGetId (connectChecks 0 examplePindex)
          exampleBlock examplePindex (exampleView [opReturn]) = .ok (view', nFees, blockUndo) ∧
        ∃ view'', applyBlockUndo exampleGetId blockUndo exampleBlock examplePindex view' =
            .ok (.ok, view'') ∧
          view''.coins exampleOutPoint = none ∧
          (exampleView [opReturn]).coins exampleOutPoint = some (exampleCoin [opReturn]) := by
  refine ⟨fun o c hc => ?_, by decide, exampleView_fresh [opReturn], _, _, _, rfl, _, rfl,
    by decide, by decide⟩
  rw [exampleView_coins_eq_some hc]
  decide

end BitcoinCash
