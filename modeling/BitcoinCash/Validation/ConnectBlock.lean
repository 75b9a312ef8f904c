import Mathlib.Tactic.SplitIfs
import BitcoinCash.Coins.View
import BitcoinCash.Consensus.TxVerify
import BitcoinCash.Net.BlockEncodings

/-!
# The coin updates of `ConnectBlock`

`CChainState::ConnectBlock` (`validation.cpp`) first adds the outputs of every transaction of the
block to the view (`AddCoins`), so that a transaction may spend an output of one after it in the
block; then, transaction by transaction in block order, it checks the inputs
(`Consensus::CheckTxInputs`), tallies the fee, checks the relative lock times (`SequenceLocks`)
and spends the inputs (`SpendCoins`), moving the coins spent into the undo data of the block.

The model is the coin-level part of that function: the script checks, which read the coins but
do not change them, are left out. The checks between `CheckTxInputs` and `SpendCoins` are a
parameter `checks` of the loop; `ConnectBlock` passes `connectChecks`.
-/

namespace BitcoinCash

/-- `CBlock`. -/
structure CBlock where
  header : BlockHeader
  vtx : List Transaction

/-- `CTxUndo`: the coins the inputs of a transaction spent. -/
structure CTxUndo where
  vprevout : List Coin

/-- `CBlockUndo`: the `CTxUndo` of every transaction of a block but the coinbase. -/
structure CBlockUndo where
  vtxundo : List CTxUndo

/-- How the coin-level part of `ConnectBlock` stops: it rejects the block with the reason
`state.DoS` or `state.Invalid` records, or it faults. -/
inductive BlockError
  | invalid (reason : String)
  | fault (f : CoinsFault)
  deriving DecidableEq, Repr

/-! ### `CheckTxInputs` and `SpendCoins` -/

/-- The step of `Consensus::CheckTxInputs` for one input: the value of the inputs so far. The
depth `nSpendHeight - coin.GetHeight()` is an `unsigned` difference. -/
def checkTxInput (inputs : CoinsView) (nSpendHeight : ℤ) (nValueIn : ℤ) (txin : TxIn) :
    Except BlockError ℤ :=
  let coin := inputs.accessCoin txin.prevout
  if coin.isSpent then .error (.invalid "bad-txns-inputs-missingorspent")
  else if coin.isCoinBase &&
      (UInt32.ofInt nSpendHeight - coin.getHeight).toNat < coinbaseMaturity then
    .error (.invalid "bad-txns-premature-spend-of-coinbase")
  else
    match addAmount nValueIn coin.out.nValue.toInt with
    | .error f => .error (.fault f)
    | .ok nValueIn =>
      if !moneyRange coin.out.nValue.toInt || !moneyRange nValueIn then
        .error (.invalid "bad-txns-inputvalues-outofrange")
      else .ok nValueIn

/-- `Consensus::CheckTxInputs(tx, state, inputs, nSpendHeight, txfee)`: the fee of `tx`. -/
def checkTxInputs (tx : Transaction) (inputs : CoinsView) (nSpendHeight : ℤ) :
    Except BlockError ℤ :=
  if tx.isCoinBase then .error (.fault .assertFailed)
  else do
    let nValueIn ← tx.vin.foldlM (checkTxInput inputs nSpendHeight) 0
    let valueOut ← (getValueOut tx).mapError .fault
    if nValueIn < valueOut then .error (.invalid "bad-txns-in-belowout")
    else if !moneyRange (nValueIn - valueOut) then .error (.invalid "bad-txns-fee-outofrange")
    else .ok (nValueIn - valueOut)

/-- The step of `SpendCoins` for one input: `SpendCoin` moves the coin into the undo data, and
must find it (`assert(is_spent)`). -/
def spendCoinsStep (acc : CoinsView × CTxUndo) (txin : TxIn) :
    Except CoinsFault (CoinsView × CTxUndo) :=
  match acc.1.spendCoin txin.prevout with
  | some (coin, view) => .ok (view, ⟨acc.2.vprevout ++ [coin]⟩)
  | none => .error .assertFailed

/-- `SpendCoins(view, tx, txundo, nHeight)`. -/
def spendCoins (view : CoinsView) (tx : Transaction) (txundo : CTxUndo) :
    Except CoinsFault (CoinsView × CTxUndo) :=
  if tx.isCoinBase then .ok (view, txundo)
  else tx.vin.foldlM spendCoinsStep (view, txundo)

/-! ### The loop of `ConnectBlock` -/

/-- What the loop of `ConnectBlock` over the transactions updates. -/
structure ConnectState where
  view : CoinsView
  nFees : ℤ
  txIndex : ℕ
  vtxundo : List CTxUndo

/-- The checks of `ConnectBlock` between `CheckTxInputs` and `SpendCoins` for a transaction of
fee `txfee`: the accumulated fee in `MoneyRange`, then, but for a coinbase, `SequenceLocks` on
the heights of the coins spent. The result is the accumulated fee; `nFees += txfee` cannot
overflow, both being in `MoneyRange`. -/
def connectChecks (nLockTimeFlags : Int32) (pindex : CBlockIndex) (view : CoinsView)
    (tx : Transaction) (nFees txfee : ℤ) : Except BlockError ℤ :=
  if !moneyRange (nFees + txfee) then .error (.invalid "bad-txns-accumulated-fee-outofrange")
  else if tx.isCoinBase then .ok (nFees + txfee)
  else
    let prevheights := tx.vin.map fun txin => (view.accessCoin txin.prevout).getHeight.toInt32
    match sequenceLocks tx nLockTimeFlags prevheights pindex with
    | some true => .ok (nFees + txfee)
    | some false => .error (.invalid "bad-txns-nonfinal")
    -- `assert(block.pprev)` in `EvaluateSequenceLocks`, or undefined behaviour
    | none => .error (.fault .assertFailed)

/-- One transaction of the loop of `ConnectBlock`, with the checks `checks` between
`CheckTxInputs` and `SpendCoins`. The undo data is `blockundo.vtxundo.at(txIndex)`. -/
def connectTx (checks : CoinsView → Transaction → ℤ → ℤ → Except BlockError ℤ) (nHeight : ℤ)
    (st : ConnectState) (tx : Transaction) : Except BlockError ConnectState := do
  let txfee ← if tx.isCoinBase then pure 0 else checkTxInputs tx st.view nHeight
  let nFees ← checks st.view tx st.nFees txfee
  if tx.isCoinBase then pure { st with nFees }
  else
    match st.vtxundo[st.txIndex]? with
    | none => .error (.fault .outOfRange)
    | some txundo =>
      match spendCoins st.view tx txundo with
      | .error f => .error (.fault f)
      | .ok (view, txundo) => .ok ⟨view, nFees, st.txIndex + 1, st.vtxundo.set st.txIndex txundo⟩

/-- `AddCoins` for every transaction of a block, at the height `nHeight`. -/
def addBlockCoins (getId : Transaction → Vector UInt8 32) (vtx : List Transaction) (nHeight : ℤ)
    (view : CoinsView) : Except CoinsFault CoinsView :=
  vtx.foldlM (fun view tx => addCoins getId view tx nHeight false) view

/-- The coin-level part of `ConnectBlock(block, state, pindex, view)`, with the checks `checks`
(`connectChecks` in `ConnectBlock`): the outputs of every transaction, whose `std::logic_error`
is caught as `tx-duplicate`, then the loop over the transactions. The result is the view, the
accumulated fee and the undo data. -/
def connectBlockCoins (getId : Transaction → Vector UInt8 32)
    (checks : CoinsView → Transaction → ℤ → ℤ → Except BlockError ℤ) (block : CBlock)
    (pindex : CBlockIndex) (view : CoinsView) : Except BlockError (CoinsView × ℤ × CBlockUndo) :=
  -- `blockundo.vtxundo.resize(block.vtx.size() - 1)`
  if block.vtx = [] then .error (.fault .lengthError)
  else
    match addBlockCoins getId block.vtx pindex.nHeight view with
    | .error .logicError => .error (.invalid "tx-duplicate")
    | .error f => .error (.fault f)
    | .ok view => do
      let st ← block.vtx.foldlM (connectTx checks pindex.nHeight)
        ⟨view, 0, 0, List.replicate (block.vtx.length - 1) ⟨[]⟩⟩
      pure (st.view, st.nFees, ⟨st.vtxundo⟩)

/-! ### The outputs a block creates -/

/-- The coin the outputs of the transactions `vtx` leave at an outpoint, if any. -/
def createdCoin (getId : Transaction → Vector UInt8 32) (vtx : List Transaction)
    (nHeight : UInt32) (o : OutPoint) : Option Coin :=
  vtx.findSome? fun tx => outputCoin getId tx nHeight o

section Created

variable {getId : Transaction → Vector UInt8 32} {nHeight : ℤ}

theorem createdCoin_cons (tx : Transaction) (vtx : List Transaction) (h : UInt32) (o : OutPoint) :
    createdCoin getId (tx :: vtx) h o = (outputCoin getId tx h o).or (createdCoin getId vtx h o) := by
  rw [createdCoin, createdCoin, List.findSome?_cons]
  cases outputCoin getId tx h o <;> rfl

theorem createdCoin_of_not_mem {vtx : List Transaction} {o : OutPoint}
    (ho : o.txid ∉ vtx.map getId) (h : UInt32) : createdCoin getId vtx h o = none :=
  List.findSome?_eq_none_iff.mpr fun tx htx =>
    outputCoin_of_ne (fun heq => ho (List.mem_map.mpr ⟨tx, htx, heq⟩)) h

/-- A coin a block creates is the spendable output at its index of a transaction of the block
with the txid of the outpoint, with the height given. -/
theorem createdCoin_eq_some {vtx : List Transaction} {h : UInt32} {o : OutPoint} {c : Coin}
    (hc : createdCoin getId vtx h o = some c) :
    ∃ tx ∈ vtx, getId tx = o.txid ∧ ∃ out, tx.vout[o.n.toNat]? = some out ∧
      isUnspendable out.scriptPubKey = false ∧ c = Coin.ofTxOut out h tx.isCoinBase := by
  obtain ⟨tx, htx, hout⟩ := List.exists_of_findSome?_eq_some hc
  rw [outputCoin] at hout
  split_ifs at hout with hid
  obtain ⟨-, hspendable⟩ := outputsCoin_eq_some hout
  exact ⟨tx, htx, hid, Nat.sub_zero o.n.toNat ▸ hspendable⟩

/-- With distinct txids, the outputs of a block leave their coins over those of the view. -/
theorem foldlM_addCoins_coins :
    ∀ (vtx : List Transaction) (view view' : CoinsView), (vtx.map getId).Nodup →
      (∀ tx ∈ vtx, tx.vout.length ≤ 2 ^ 32) → addBlockCoins getId vtx nHeight view = .ok view' →
      view'.hashBlock = view.hashBlock ∧
        ∀ o, view'.coins o = (createdCoin getId vtx (UInt32.ofInt nHeight) o).or (view.coins o)
  | [], view, view', _, _, h => by
    cases h
    exact ⟨rfl, fun o => rfl⟩
  | tx :: vtx, view, view', hids, houts, h => by
    rw [addBlockCoins, List.foldlM_cons, Except.bind_eq_ok] at h
    obtain ⟨view1, hadd, hrest⟩ := h
    rw [List.map_cons, List.nodup_cons] at hids
    obtain ⟨hhash1, hcoins1⟩ := addCoins_coins (houts tx List.mem_cons_self) hadd
    obtain ⟨hhash, hcoins⟩ := foldlM_addCoins_coins vtx view1 view' hids.2
      (fun tx' htx' => houts tx' (List.mem_cons_of_mem _ htx')) hrest
    refine ⟨hhash.trans hhash1, fun o => ?_⟩
    rw [hcoins, hcoins1, createdCoin_cons]
    cases hout : outputCoin getId tx (UInt32.ofInt nHeight) o with
    | some c =>
      -- no other transaction has the txid of `o`
      have hid : getId tx = o.txid := by
        by_contra hne
        rw [outputCoin_of_ne hne] at hout
        cases hout
      rw [createdCoin_of_not_mem (hid ▸ hids.1)]
      simp only [Option.none_or, Option.some_or]
    | none => rw [Option.none_or, Option.none_or]

end Created

/-! ### What `SpendCoins` and the loop do -/

/-- The outpoints the inputs of transactions spend, in order. -/
def spentOutpoints (txs : List Transaction) : List OutPoint :=
  txs.flatMap fun tx => tx.vin.map TxIn.prevout

/-- The undo data of a transaction that spends coins of `view`. -/
def txUndoOf (view : CoinsView) (tx : Transaction) : CTxUndo :=
  ⟨tx.vin.map fun txin => view.accessCoin txin.prevout⟩

/-- What spending the outpoints `ins` of `view` does: they are distinct coins of `view`, and
`view'` is `view` without them. -/
def Spends (view : CoinsView) (ins : List OutPoint) (view' : CoinsView) : Prop :=
  ins.Nodup ∧ (∀ o ∈ ins, (view.coins o).isSome) ∧
    (∀ o, view'.coins o = if o ∈ ins then none else view.coins o) ∧
    view'.hashBlock = view.hashBlock

theorem Spends.nil (view : CoinsView) : Spends view [] view :=
  ⟨List.nodup_nil, fun _ h => absurd h List.not_mem_nil, fun _ => rfl, rfl⟩

/-- Spending `ins₁` then `ins₂` spends `ins₁ ++ ins₂`. -/
theorem Spends.append {view view₁ view₂ : CoinsView} {ins₁ ins₂ : List OutPoint}
    (h₁ : Spends view ins₁ view₁) (h₂ : Spends view₁ ins₂ view₂) :
    Spends view (ins₁ ++ ins₂) view₂ := by
  obtain ⟨hnd₁, hsome₁, hcoins₁, hhash₁⟩ := h₁
  obtain ⟨hnd₂, hsome₂, hcoins₂, hhash₂⟩ := h₂
  -- an outpoint spent second was still a coin after the first
  have hdisj : ∀ o ∈ ins₂, o ∉ ins₁ ∧ (view.coins o).isSome := by
    intro o ho
    have hsome := hsome₂ o ho
    rw [hcoins₁ o] at hsome
    split_ifs at hsome with hmem
    · cases hsome
    · exact ⟨hmem, hsome⟩
  refine ⟨List.nodup_append.mpr ⟨hnd₁, hnd₂, fun a ha b hb hab => (hdisj b hb).1 (hab ▸ ha)⟩,
    fun o ho => ?_, fun o => ?_, hhash₂.trans hhash₁⟩
  · rcases List.mem_append.mp ho with ho | ho
    · exact hsome₁ o ho
    · exact (hdisj o ho).2
  · rw [hcoins₂ o, hcoins₁ o]
    by_cases h₁ : o ∈ ins₁
    · rw [if_pos h₁, if_pos (List.mem_append_left _ h₁)]
      split_ifs <;> rfl
    · by_cases h₂ : o ∈ ins₂
      · rw [if_pos h₂, if_pos (List.mem_append_right _ h₂)]
      · rw [if_neg h₂, if_neg h₁, if_neg (fun h => (List.mem_append.mp h).elim h₁ h₂)]

/-- The fold of `SpendCoins` over inputs spends their outpoints and appends their coins. -/
theorem foldlM_spendCoinsStep_eq_ok :
    ∀ (vin : List TxIn) (view view' : CoinsView) (pre : List Coin) (txundo : CTxUndo),
      vin.foldlM spendCoinsStep (view, ⟨pre⟩) = .ok (view', txundo) →
      Spends view (vin.map TxIn.prevout) view' ∧
        txundo = ⟨pre ++ vin.map fun txin => view.accessCoin txin.prevout⟩
  | [], view, view', pre, txundo, h => by
    cases h
    exact ⟨Spends.nil view, by rw [List.map_nil, List.append_nil]⟩
  | txin :: vin, view, view', pre, txundo, h => by
    rw [List.foldlM_cons, Except.bind_eq_ok] at h
    obtain ⟨⟨view1, txundo1⟩, hstep, hrest⟩ := h
    rw [spendCoinsStep] at hstep
    cases hspend : view.spendCoin txin.prevout with
    | none =>
      rw [hspend] at hstep
      cases hstep
    | some r =>
      obtain ⟨coin, view2⟩ := r
      rw [hspend] at hstep
      cases hstep
      obtain ⟨hcoin, rfl⟩ := CoinsView.spendCoin_eq_some.mp hspend
      obtain ⟨hspends, rfl⟩ := foldlM_spendCoinsStep_eq_ok vin _ view' _ txundo hrest
      -- the first input spends one coin, the others the rest
      have hfirst : Spends view [txin.prevout] (view.erase txin.prevout) := by
        refine ⟨List.nodup_singleton _, fun o ho => ?_, fun o => ?_, rfl⟩
        · rw [List.mem_singleton.mp ho, hcoin]
          rfl
        · by_cases ho : o = txin.prevout
          · rw [ho, CoinsView.coins_erase, Function.update_self, if_pos List.mem_cons_self]
          · rw [CoinsView.coins_erase, Function.update_of_ne ho,
              if_neg (fun h => ho (List.mem_singleton.mp h))]
      refine ⟨hfirst.append hspends, ?_⟩
      -- the coins recorded are read before their own input is spent
      have hread : ∀ txin' ∈ vin, txin'.prevout ∈ vin.map TxIn.prevout := fun txin' h =>
        List.mem_map_of_mem h
      have hsame : (vin.map fun txin' => (view.erase txin.prevout).accessCoin txin'.prevout) =
          vin.map fun txin' => view.accessCoin txin'.prevout := by
        refine List.map_congr_left fun txin' h' => ?_
        have hne : txin'.prevout ≠ txin.prevout := by
          intro heq
          have hnd := (hfirst.append hspends).1
          rw [List.singleton_append, List.nodup_cons] at hnd
          exact hnd.1 (heq ▸ hread txin' h')
        rw [CoinsView.accessCoin, CoinsView.coins_erase, Function.update_of_ne hne]
        rfl
      rw [hsame, List.map_cons, CoinsView.accessCoin_of_coins hcoin, List.append_assoc,
        List.singleton_append]

/-- `SpendCoins` of a transaction other than a coinbase erases its inputs, which are distinct
coins of the view, and appends them to the undo data. -/
theorem spendCoins_eq_ok {view view' : CoinsView} {tx : Transaction} {pre : List Coin}
    {txundo : CTxUndo} (hcb : tx.isCoinBase = false)
    (h : spendCoins view tx ⟨pre⟩ = .ok (view', txundo)) :
    Spends view (tx.vin.map TxIn.prevout) view' ∧
      txundo = ⟨pre ++ (txUndoOf view tx).vprevout⟩ := by
  rw [spendCoins, if_neg (by rw [hcb]; exact Bool.false_ne_true)] at h
  exact foldlM_spendCoinsStep_eq_ok tx.vin view view' pre txundo h

/-- One transaction other than a coinbase of the loop, in full: its fee, the checks, its undo
data at `txIndex`, and the inputs it spends into it. -/
theorem connectTx_eq_ok_iff {checks : CoinsView → Transaction → ℤ → ℤ → Except BlockError ℤ}
    {nHeight : ℤ} {st st' : ConnectState} {tx : Transaction} (hcb : tx.isCoinBase = false) :
    connectTx checks nHeight st tx = .ok st' ↔
      ∃ txfee nFees txundo u, checkTxInputs tx st.view nHeight = .ok txfee ∧
        checks st.view tx st.nFees txfee = .ok nFees ∧ st.vtxundo[st.txIndex]? = some txundo ∧
        spendCoins st.view tx txundo = .ok (st'.view, u) ∧
        st' = ⟨st'.view, nFees, st.txIndex + 1, st.vtxundo.set st.txIndex u⟩ := by
  rw [connectTx]
  simp only [hcb, Bool.false_eq_true, if_false]
  constructor
  · intro h
    obtain ⟨txfee, hfee, h⟩ := Except.bind_eq_ok.mp h
    obtain ⟨nFees, hn, h⟩ := Except.bind_eq_ok.mp h
    cases hundo : st.vtxundo[st.txIndex]? with
    | none =>
      rw [hundo] at h
      cases h
    | some txundo =>
      rw [hundo] at h
      dsimp only at h
      cases hspend : spendCoins st.view tx txundo with
      | error f =>
        rw [hspend] at h
        cases h
      | ok r =>
        obtain ⟨view, u⟩ := r
        rw [hspend] at h
        cases h
        exact ⟨txfee, nFees, txundo, u, hfee, hn, rfl, hspend, rfl⟩
  · rintro ⟨txfee, nFees, txundo, u, hfee, hn, hundo, hspend, hst'⟩
    rw [hfee, Except.bind_ok', hn, Except.bind_ok', hundo]
    dsimp only
    rw [hspend]
    exact congrArg Except.ok hst'.symm

/-- A coinbase of the loop: the checks with a fee of 0, and nothing else. -/
theorem connectTx_coinBase_eq_ok_iff
    {checks : CoinsView → Transaction → ℤ → ℤ → Except BlockError ℤ} {nHeight : ℤ}
    {st st' : ConnectState} {tx : Transaction} (hcb : tx.isCoinBase = true) :
    connectTx checks nHeight st tx = .ok st' ↔
      ∃ nFees, checks st.view tx st.nFees 0 = .ok nFees ∧ st' = { st with nFees } := by
  rw [connectTx]
  simp only [hcb, if_true, Except.pure_eq_ok, Except.bind_ok', Except.bind_eq_ok, Except.ok.injEq]
  exact exists_congr fun nFees => and_congr_right fun _ => eq_comm

/-- One transaction other than a coinbase of the loop: its undo data is at `txIndex`, and it
spends its inputs into it. -/
theorem connectTx_eq_ok {checks : CoinsView → Transaction → ℤ → ℤ → Except BlockError ℤ}
    {nHeight : ℤ} {st st' : ConnectState} {tx : Transaction} (hcb : tx.isCoinBase = false)
    (h : connectTx checks nHeight st tx = .ok st') :
    ∃ txundo u, st.vtxundo[st.txIndex]? = some txundo ∧
      spendCoins st.view tx txundo = .ok (st'.view, u) ∧
      st'.txIndex = st.txIndex + 1 ∧ st'.vtxundo = st.vtxundo.set st.txIndex u := by
  obtain ⟨txfee, nFees, txundo, u, -, -, hundo, hspend, hst'⟩ := (connectTx_eq_ok_iff hcb).mp h
  exact ⟨txundo, u, hundo, hspend, congrArg ConnectState.txIndex hst',
    congrArg ConnectState.vtxundo hst'⟩

/-- A coinbase of the loop only adds its fee. -/
theorem connectTx_of_isCoinBase {checks : CoinsView → Transaction → ℤ → ℤ → Except BlockError ℤ}
    {nHeight : ℤ} {st st' : ConnectState} {tx : Transaction} (hcb : tx.isCoinBase = true)
    (h : connectTx checks nHeight st tx = .ok st') :
    st' = { st with nFees := st'.nFees } := by
  obtain ⟨nFees, -, rfl⟩ := (connectTx_coinBase_eq_ok_iff hcb).mp h
  rfl

theorem set_append_replicate {α : Type} (done : List α) (e x : α) (m : ℕ) :
    (done ++ List.replicate (m + 1) e).set done.length x = (done ++ [x]) ++ List.replicate m e := by
  rw [List.set_append_right _ _ (Nat.le_refl _), Nat.sub_self, List.replicate_succ,
    List.set_cons_zero, List.append_assoc, List.singleton_append]

/-- The loop over transactions other than a coinbase, from a state whose undo data is filled
up to `txIndex` and empty after: every `at` is inside the undo data, and the loop spends the
inputs of all the transactions, distinct coins of the view it starts from, recording each
transaction's coins at its index. -/
theorem foldlM_connectTx_eq_ok {checks : CoinsView → Transaction → ℤ → ℤ → Except BlockError ℤ}
    {nHeight : ℤ} :
    ∀ (txs : List Transaction) (view : CoinsView) (nFees : ℤ) (done : List CTxUndo) (m : ℕ)
      (st' : ConnectState), (∀ tx ∈ txs, tx.isCoinBase = false) →
      txs.foldlM (connectTx checks nHeight)
        ⟨view, nFees, done.length, done ++ List.replicate m ⟨[]⟩⟩ = .ok st' →
      txs.length ≤ m ∧ Spends view (spentOutpoints txs) st'.view ∧
        st'.txIndex = done.length + txs.length ∧
        st'.vtxundo = done ++ txs.map (txUndoOf view) ++ List.replicate (m - txs.length) ⟨[]⟩
  | [], view, nFees, done, m, st', _, h => by
    cases h
    exact ⟨Nat.zero_le _, Spends.nil view, rfl,
      by rw [List.map_nil, List.append_nil, List.length_nil, Nat.sub_zero]⟩
  | tx :: txs, view, nFees, done, m, st', hcb, h => by
    rw [List.foldlM_cons, Except.bind_eq_ok] at h
    obtain ⟨st1, hstep, hrest⟩ := h
    obtain ⟨txundo, u, hundo, hspend, hindex, hvtxundo⟩ :=
      connectTx_eq_ok (hcb tx List.mem_cons_self) hstep
    dsimp only at hundo hspend hindex hvtxundo
    -- the undo data at `txIndex` exists, and is empty
    obtain ⟨m', rfl⟩ : ∃ m', m = m' + 1 := by
      cases m with
      | zero =>
        rw [List.replicate_zero, List.append_nil, List.getElem?_eq_none (Nat.le_refl _)] at hundo
        cases hundo
      | succ m' => exact ⟨m', rfl⟩
    rw [List.getElem?_append_right (Nat.le_refl _), Nat.sub_self, List.replicate_succ,
      List.getElem?_cons_zero, Option.some_inj] at hundo
    subst hundo
    obtain ⟨hspends, rfl⟩ := spendCoins_eq_ok (hcb tx List.mem_cons_self) hspend
    have hu : (⟨[] ++ (txUndoOf view tx).vprevout⟩ : CTxUndo) = txUndoOf view tx := by
      rw [List.nil_append]
    rw [set_append_replicate, hu] at hvtxundo
    have hst1 : st1 = ⟨st1.view, st1.nFees, (done ++ [txUndoOf view tx]).length,
        (done ++ [txUndoOf view tx]) ++ List.replicate m' ⟨[]⟩⟩ := by
      rw [List.length_append, List.length_singleton, ← hindex, ← hvtxundo]
    rw [hst1] at hrest
    obtain ⟨hlen, hspends', hindex', hvtxundo'⟩ := foldlM_connectTx_eq_ok txs st1.view st1.nFees
      (done ++ [txUndoOf view tx]) m' st' (fun tx' h' => hcb tx' (List.mem_cons_of_mem _ h')) hrest
    -- the rest of the block reads the coins of the view it starts from
    have hsame : txs.map (txUndoOf st1.view) = txs.map (txUndoOf view) := by
      refine List.map_congr_left fun tx' htx' => ?_
      rw [txUndoOf, txUndoOf]
      congr 1
      refine List.map_congr_left fun txin hin => ?_
      have hnd := (hspends.append hspends').1
      have hnot : txin.prevout ∉ tx.vin.map TxIn.prevout := by
        intro hmem
        exact (List.nodup_append.mp hnd).2.2 _ hmem _
          (List.mem_flatMap.mpr ⟨tx', htx', List.mem_map_of_mem hin⟩) rfl
      rw [CoinsView.accessCoin, CoinsView.accessCoin, hspends.2.2.1, if_neg hnot]
    refine ⟨by rw [List.length_cons]; omega, ?_, ?_, ?_⟩
    · rw [spentOutpoints, List.flatMap_cons]
      exact hspends.append hspends'
    · rw [hindex', List.length_append, List.length_singleton, List.length_cons]
      omega
    · rw [hvtxundo', hsame, List.map_cons, List.length_cons, Nat.add_sub_add_right]
      simp only [List.append_assoc, List.cons_append, List.nil_append]

/-! ### What one transaction of the loop reads -/

section Step

variable {view view' : CoinsView} {tx : Transaction}

section Checks

variable {nLockTimeFlags : Int32} {pindex : CBlockIndex}

end Checks

end Step

end BitcoinCash
