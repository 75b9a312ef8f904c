import BitcoinCash.Script.Push
import BitcoinCash.Net.Bloom
import Mathlib.Data.List.GetD
import Mathlib.Tactic.IntervalCases

/-!
# The standard output templates and their solver

`script/standard.cpp` writes the standard output scripts (`GetScriptForDestination`,
`GetScriptForRawPubKey`, `GetScriptForMultisig`) and reads them back (`Solver`, and
`ExtractDestination` over it). `Solver` tries pay-to-script-hash first, then a provably
unspendable data carrier, then pay-to-pubkey, pay-to-pubkey-hash and bare multisig, and calls
every other script nonstandard.

The reader is proved against the writers. A `Template` is one of the four standard kinds of
output with what it pays to; `Template.render` is the script the builders write for it and
`Template.solution` is what `Solver` should return for it. `Solver` returns the solution of every
well-formed template from its script (`solver_render`), and every script that it does not call
null-data or nonstandard is the script of a well-formed template (`solver_sound`): the minimal-push
rule, the small-integer opcodes and the key sizes leave a multisig script one encoding.
-/

namespace BitcoinCash

open Bytes

/-! ### Keys, destinations and small integers -/

namespace CPubKey

/-- `CPubKey::PUBLIC_KEY_SIZE`. -/
def publicKeySize : ℕ := 65

/-- `CPubKey::COMPRESSED_PUBLIC_KEY_SIZE`. -/
def compressedPublicKeySize : ℕ := 33

/-- `CPubKey::GetLen`: the size of a key from its header byte, `0` for an unknown header. -/
def getLen (chHeader : UInt8) : ℕ :=
  if chHeader = 2 ∨ chHeader = 3 then compressedPublicKeySize
  else if chHeader = 4 ∨ chHeader = 6 ∨ chHeader = 7 then publicKeySize
  else 0

/-- `CPubKey::ValidSize`. -/
def validSize (vch : ValType) : Bool :=
  decide (vch.length > 0) && getLen (vch.getD 0 0) == vch.length

end CPubKey

/-- `CTxDestination`: no destination, a `CKeyID` or a `CScriptID`, each a `uint160`. -/
inductive CTxDestination where
  | noDestination
  | keyID (id : Vector UInt8 20)
  | scriptID (id : Vector UInt8 20)
  deriving DecidableEq, Repr

/-- `uint160(const std::vector<uint8_t> &)`, which asserts that it is given 20 bytes; a failed
assertion is `none`. -/
def uint160OfBytes (vch : ValType) : Option (Vector UInt8 20) :=
  if h : vch.length = 20 then some ⟨vch.toArray, by simpa using h⟩ else none

/-- `OP_INVALIDOPCODE`, the opcode `GetOp` returns where it fails. -/
def opInvalidOpcode : UInt8 := 0xff

/-- `IsSmallInteger`: `OP_1` … `OP_16`. -/
def isSmallInteger (opcode : UInt8) : Bool :=
  op1 ≤ opcode && opcode ≤ op16

namespace CScript

/-- `CScript::DecodeOP_N`, which asserts `OP_0` or `OP_1` … `OP_16`. -/
def decodeOpN (opcode : UInt8) : ℕ :=
  if opcode = op0 then 0 else opcode.toNat - (op1.toNat - 1)

/-- `CScript::EncodeOP_N`, which asserts `0 ≤ n ≤ 16`. -/
def encodeOpN (n : ℕ) : UInt8 :=
  if n = 0 then op0 else UInt8.ofNat (op1.toNat + n - 1)

end CScript

/-! ### The builders -/

/-- `GetScriptForDestination`: through `CScriptVisitor`, the empty script for no destination,
`OP_DUP OP_HASH160 <keyID> OP_EQUALVERIFY OP_CHECKSIG` for a key and
`OP_HASH160 <scriptID> OP_EQUAL` for a script. -/
def getScriptForDestination : CTxDestination → List UInt8
  | .noDestination => []
  | .keyID keyID => [opDup, opHash160] ++ pushData keyID.toList ++ [opEqualVerify, opCheckSig]
  | .scriptID scriptID => [opHash160] ++ pushData scriptID.toList ++ [opEqual]

/-- `GetScriptForRawPubKey`, of the bytes of the key. -/
def getScriptForRawPubKey (pubKey : ValType) : List UInt8 :=
  pushData pubKey ++ [opCheckSig]

/-- `GetScriptForMultisig`, of the bytes of the keys. -/
def getScriptForMultisig (nRequired : ℕ) (keys : List ValType) : List UInt8 :=
  [CScript.encodeOpN nRequired] ++ keys.flatMap pushData ++
    [CScript.encodeOpN keys.length, opCheckMultiSig]

/-! ### The matchers and the solver -/

/-- `MatchPayToPubkey`: a direct push of a full or a compressed key and `OP_CHECKSIG`; the key
where it has a valid size. -/
def matchPayToPubkey (script : List UInt8) : Option ValType :=
  if script.length = CPubKey.publicKeySize + 2 ∧
      (script.getD 0 0).toNat = CPubKey.publicKeySize ∧ script.getLastD 0 = opCheckSig then
    let pubkey := (script.drop 1).take CPubKey.publicKeySize
    if CPubKey.validSize pubkey then some pubkey else none
  else if script.length = CPubKey.compressedPublicKeySize + 2 ∧
      (script.getD 0 0).toNat = CPubKey.compressedPublicKeySize ∧
      script.getLastD 0 = opCheckSig then
    let pubkey := (script.drop 1).take CPubKey.compressedPublicKeySize
    if CPubKey.validSize pubkey then some pubkey else none
  else none

/-- `MatchPayToPubkeyHash`: `OP_DUP OP_HASH160 <20 bytes> OP_EQUALVERIFY OP_CHECKSIG`. -/
def matchPayToPubkeyHash (script : List UInt8) : Option ValType :=
  if script.length = 25 ∧ script.getD 0 0 = opDup ∧ script.getD 1 0 = opHash160 ∧
      script.getD 2 0 = 20 ∧ script.getD 23 0 = opEqualVerify ∧ script.getD 24 0 = opCheckSig then
    some ((script.drop 3).take 20)
  else none

set_option linter.unusedVariables false in
/-- The loop `while (GetOp(it, opcode, data) && ValidSize(data))` of `MatchMultisig`: the pushes
of valid-size keys from `pc` on, each required to be a minimal push. It returns the opcode that
ends the loop (`OP_INVALIDOPCODE` where `GetOp` fails, after which the iterator is not read), the
bytes after it and the keys read, or `none` where a key push is not minimal. -/
def matchMultisigKeys (pc : List UInt8) : Option (UInt8 × List UInt8 × List ValType) :=
  match h : getScriptOp pc with
  | none => some (opInvalidOpcode, [], [])
  | some (opcode, data, rest) =>
    if CPubKey.validSize data then
      if opcode > opPushData4 || !checkMinimalPush data opcode then none
      else (matchMultisigKeys rest).map fun (op, after, keys) => (op, after, data :: keys)
    else some (opcode, rest, [])
termination_by pc.length
decreasing_by exact getScriptOp_length_lt h

/-- `MatchMultisig`: `OP_m <key> … <key> OP_n OP_CHECKMULTISIG` with `m ≤ n` and `n` keys; the
number of required signatures and the keys. -/
def matchMultisig (script : List UInt8) : Option (ℕ × List ValType) :=
  if script.length < 1 ∨ script.getLastD 0 ≠ opCheckMultiSig then none
  else match getScriptOp script with
    | none => none
    | some (opcode, _, it) =>
      if !isSmallInteger opcode then none
      else
        let required := CScript.decodeOpN opcode
        match matchMultisigKeys it with
        | none => none
        | some (opcode, it, pubkeys) =>
          if !isSmallInteger opcode then none
          else
            let keys := CScript.decodeOpN opcode
            if pubkeys.length ≠ keys ∨ keys < required then none
            else if it.length = 1 then some (required, pubkeys) else none

/-- The test of `Solver` for a provably unspendable data carrier: `OP_RETURN` followed by pushes
only. -/
def isNullData (scriptPubKey : List UInt8) : Bool :=
  decide (scriptPubKey.length ≥ 1) && scriptPubKey.getD 0 0 == opReturn &&
    isPushOnly (scriptPubKey.drop 1)

/-- `Solver`: the kind of an output script and its solutions. -/
def solver (scriptPubKey : List UInt8) : TxnOutType × List ValType :=
  if isPayToScriptHash scriptPubKey then (.scripthash, [(scriptPubKey.drop 2).take 20])
  else if isNullData scriptPubKey then (.nullData, [])
  else match matchPayToPubkey scriptPubKey with
    | some data => (.pubkey, [data])
    | none => match matchPayToPubkeyHash scriptPubKey with
      | some data => (.pubkeyhash, [data])
      | none => match matchMultisig scriptPubKey with
        | some (required, keys) =>
          (.multisig, [[UInt8.ofNat required]] ++ keys ++ [[UInt8.ofNat keys.length]])
        | none => (.nonstandard, [])

/-- `ExtractDestination`: the destination of a pay-to-pubkey, pay-to-pubkey-hash or
pay-to-script-hash output. `CPubKey(vSolutions[0])` keeps the bytes, and is valid, exactly when
they have a valid size; `hash160` is `Hash160`, of which `CPubKey::GetID` is the key's. -/
def extractDestination (hash160 : ValType → Vector UInt8 20) (scriptPubKey : List UInt8) :
    Option CTxDestination :=
  match solver scriptPubKey with
  | (.pubkey, vSolutions) =>
    let pubKey := vSolutions.headD []
    if !CPubKey.validSize pubKey then none else some (.keyID (hash160 pubKey))
  | (.pubkeyhash, vSolutions) => (uint160OfBytes (vSolutions.headD [])).map .keyID
  | (.scripthash, vSolutions) => (uint160OfBytes (vSolutions.headD [])).map .scriptID
  | _ => none

/-! ### Lists read at fixed positions -/

/-- A list with the bytes of `p` in front and those of `q` at the end is `p`, then the `n` bytes
between, then `q`. -/
theorem eq_append_of_getD {S p q : List UInt8} {n : ℕ}
    (hlen : S.length = p.length + n + q.length)
    (hp : ∀ i < p.length, S.getD i 0 = p.getD i 0)
    (hq : ∀ i < q.length, S.getD (p.length + n + i) 0 = q.getD i 0) :
    S = p ++ (S.drop p.length).take n ++ q := by
  have hpre : S.take p.length = p := List.ext_getElem (by simp; omega) fun i h1 h2 => by
    have := hp i h2
    rw [List.getD_eq_getElem _ _ (by omega), List.getD_eq_getElem _ _ h2] at this
    rw [List.getElem_take, this]
  have hsuf : S.drop (p.length + n) = q := List.ext_getElem (by simp; omega) fun i h1 h2 => by
    have := hq i h2
    rw [List.getD_eq_getElem _ _ (by omega), List.getD_eq_getElem _ _ h2] at this
    rw [List.getElem_drop, this]
  conv_lhs => rw [← List.take_append_drop p.length S, ← List.take_append_drop n (S.drop p.length),
    List.drop_drop, hpre, hsuf]
  rw [List.append_assoc]

theorem getLastD_eq_getD {l : List UInt8} : l.getLastD 0 = l.getD (l.length - 1) 0 := by
  simp [List.getLast?_eq_getElem?, List.getD_eq_getElem?_getD]

/-! ### Keys and small integers -/

namespace CPubKey

/-- A key of valid size has 33 or 65 bytes. -/
theorem length_of_validSize {vch : ValType} (h : validSize vch = true) :
    vch.length = compressedPublicKeySize ∨ vch.length = publicKeySize := by
  simp only [validSize, Bool.and_eq_true, decide_eq_true_eq, beq_iff_eq] at h
  obtain ⟨hpos, hlen⟩ := h
  unfold getLen at hlen
  split_ifs at hlen <;> omega

end CPubKey

theorem isSmallInteger_iff {opcode : UInt8} :
    isSmallInteger opcode = true ↔ 0x51 ≤ opcode.toNat ∧ opcode.toNat ≤ 0x60 := by
  simp [isSmallInteger, op1, op16, UInt8.le_iff_toNat_le]

/-- `OP_1` … `OP_16` carry no data. -/
theorem opPushData4_lt_of_isSmallInteger {opcode : UInt8} (h : isSmallInteger opcode = true) :
    opPushData4 < opcode := by
  rw [isSmallInteger_iff] at h
  rw [UInt8.lt_iff_toNat_lt, opPushData4]
  simp only [UInt8.reduceToNat]
  omega

namespace CScript

theorem decodeOpN_of_isSmallInteger {opcode : UInt8} (h : isSmallInteger opcode = true) :
    decodeOpN opcode = opcode.toNat - 0x50 := by
  rw [isSmallInteger_iff] at h
  have h0 : opcode ≠ op0 := fun h0 => by
    rw [h0] at h
    simp [op0] at h
  rw [decodeOpN, if_neg h0]
  rfl

/-- `DecodeOP_N` reads `OP_1` … `OP_16` as `1` … `16`. -/
theorem decodeOpN_mem {opcode : UInt8} (h : isSmallInteger opcode = true) :
    1 ≤ decodeOpN opcode ∧ decodeOpN opcode ≤ 16 := by
  rw [decodeOpN_of_isSmallInteger h]
  rw [isSmallInteger_iff] at h
  omega

theorem toNat_encodeOpN {n : ℕ} (h1 : 1 ≤ n) (h16 : n ≤ 16) : (encodeOpN n).toNat = 0x50 + n := by
  rw [encodeOpN, if_neg (by omega), UInt8.toNat_ofNat']
  simp only [op1, UInt8.reduceToNat]
  omega

theorem isSmallInteger_encodeOpN {n : ℕ} (h1 : 1 ≤ n) (h16 : n ≤ 16) :
    isSmallInteger (encodeOpN n) = true := by
  rw [isSmallInteger_iff, toNat_encodeOpN h1 h16]
  omega

/-- `EncodeOP_N` and `DecodeOP_N` are inverse on `1` … `16`. -/
theorem decodeOpN_encodeOpN {n : ℕ} (h1 : 1 ≤ n) (h16 : n ≤ 16) :
    decodeOpN (encodeOpN n) = n := by
  rw [decodeOpN_of_isSmallInteger (isSmallInteger_encodeOpN h1 h16), toNat_encodeOpN h1 h16]
  omega

theorem encodeOpN_decodeOpN {opcode : UInt8} (h : isSmallInteger opcode = true) :
    encodeOpN (decodeOpN opcode) = opcode := by
  obtain ⟨h1, h16⟩ := decodeOpN_mem h
  apply UInt8.toNat_inj.mp
  rw [toNat_encodeOpN h1 h16, decodeOpN_of_isSmallInteger h]
  rw [isSmallInteger_iff] at h
  omega

end CScript

/-! ### Decoding key pushes -/

/-- An opcode above `OP_PUSHDATA4` decodes alone. -/
theorem getScriptOp_of_gt {opcode : UInt8} (hop : opPushData4 < opcode) (rest : List UInt8) :
    getScriptOp (opcode :: rest) = some (opcode, [], rest) := by
  have hle : ¬opcode ≤ opPushData4 := by
    rw [UInt8.le_iff_toNat_le]
    rw [UInt8.lt_iff_toNat_lt] at hop
    omega
  simp [getScriptOp, hle]

theorem eq_of_getScriptOp_of_gt {pc rest : List UInt8} {opcode : UInt8} {data : ValType}
    (h : getScriptOp pc = some (opcode, data, rest)) (hop : opPushData4 < opcode) :
    pc = opcode :: rest ∧ data = [] := by
  obtain ⟨field, rfl⟩ := getScriptOp_eq_some h
  rw [getScriptOp_of_gt hop, Option.some.injEq, Prod.mk.injEq, Prod.mk.injEq] at h
  obtain ⟨-, rfl, hrest⟩ := h
  rw [hrest]
  exact ⟨rfl, rfl⟩

/-- A direct push is its size, its data and nothing else. -/
theorem getScriptOp_direct {pc rest : List UInt8} {opcode : UInt8} {data : ValType}
    (h : getScriptOp pc = some (opcode, data, rest)) (hop : opcode < opPushData1) :
    pc = opcode :: (data ++ rest) := by
  obtain ⟨field, rfl⟩ := getScriptOp_eq_some h
  have hle : opcode ≤ opPushData4 := by
    rw [UInt8.le_iff_toNat_le]
    rw [UInt8.lt_iff_toNat_lt] at hop
    simp only [opPushData1, opPushData4, UInt8.reduceToNat] at hop ⊢
    omega
  simp only [getScriptOp, if_pos hle, readPushSize, if_pos hop] at h
  split_ifs at h
  simp only [Option.some.injEq, Prod.mk.injEq, true_and] at h
  obtain ⟨hdata, hrest⟩ := h
  rw [List.cons.injEq]
  refine ⟨rfl, ?_⟩
  conv_lhs => rw [← List.take_append_drop opcode.toNat (field ++ data ++ rest), hdata, hrest]

/-- Fewer than `OP_PUSHDATA1` bytes are written as a direct push. -/
theorem pushData_of_lt {b : ValType} (h : b.length < opPushData1.toNat) :
    pushData b = UInt8.ofNat b.length :: b := by
  simp [pushData, h]

theorem pushData_key {k : ValType} (hk : CPubKey.validSize k = true) :
    pushData k = UInt8.ofNat k.length :: k := by
  apply pushData_of_lt
  rcases CPubKey.length_of_validSize hk with h | h <;> rw [h] <;> decide

theorem ofNat_length_key_le {k : ValType} (hk : CPubKey.validSize k = true) :
    UInt8.ofNat k.length ≤ opPushData4 := by
  rcases CPubKey.length_of_validSize hk with h | h <;> rw [h] <;> decide

/-- The push of a key reads back as one minimal push. -/
theorem getScriptOp_pushData_key {k : ValType} (hk : CPubKey.validSize k = true)
    (rest : List UInt8) :
    getScriptOp (pushData k ++ rest) = some (UInt8.ofNat k.length, k, rest) ∧
      checkMinimalPush k (UInt8.ofNat k.length) = true := by
  have hlen := CPubKey.length_of_validSize hk
  simp only [CPubKey.compressedPublicKeySize, CPubKey.publicKeySize] at hlen
  have hop := getScriptOp_append (getScriptOp_pushData k (by omega)) rest
  have hmin := (checkMinimalPush_pushData k).mpr (by omega)
  rw [pushData_key hk, List.headD_cons] at hmin
  rw [pushData_key hk, List.headD_cons, List.nil_append] at hop
  rw [pushData_key hk]
  exact ⟨hop, hmin⟩

/-- A minimal push of a key is the push `CScript::operator<<` writes. -/
theorem eq_pushData_of_key {pc rest : List UInt8} {opcode : UInt8} {data : ValType}
    (h : getScriptOp pc = some (opcode, data, rest)) (hk : CPubKey.validSize data = true)
    (hmin : checkMinimalPush data opcode = true) : pc = pushData data ++ rest := by
  have hlen := CPubKey.length_of_validSize hk
  simp only [CPubKey.compressedPublicKeySize, CPubKey.publicKeySize] at hlen
  -- `CheckMinimalPush` of 33 or 65 bytes asks for the direct push of that size
  have hsize : opcode.toNat = data.length := by
    unfold checkMinimalPush at hmin
    rw [if_neg (by omega), if_neg (by omega), if_neg (by omega), if_pos (by omega)] at hmin
    simpa using hmin
  have hop : opcode < opPushData1 := by
    rw [UInt8.lt_iff_toNat_lt, hsize]
    simp only [opPushData1, UInt8.reduceToNat]
    omega
  have hopcode : opcode = UInt8.ofNat data.length := by
    rw [← hsize, UInt8.ofNat_toNat]
  rw [getScriptOp_direct h hop, pushData_key hk, hopcode]
  rfl

/-! ### The key loop of `MatchMultisig` -/

theorem matchMultisigKeys_of_getScriptOp {pc rest : List UInt8} {opcode : UInt8} {data : ValType}
    (h : getScriptOp pc = some (opcode, data, rest)) :
    matchMultisigKeys pc =
      if CPubKey.validSize data then
        if opcode > opPushData4 || !checkMinimalPush data opcode then none
        else (matchMultisigKeys rest).map fun (op, after, keys) => (op, after, data :: keys)
      else some (opcode, rest, []) := by
  rw [matchMultisigKeys]
  split <;> simp_all

/-- The loop reads written keys back, up to the first opcode that is not a push. -/
theorem matchMultisigKeys_flatMap {keys : List ValType}
    (hkeys : ∀ k ∈ keys, CPubKey.validSize k = true) {opcode : UInt8}
    (hop : opPushData4 < opcode) (after : List UInt8) :
    matchMultisigKeys (keys.flatMap pushData ++ opcode :: after) = some (opcode, after, keys) := by
  induction keys with
  | nil =>
    rw [List.flatMap_nil, List.nil_append,
      matchMultisigKeys_of_getScriptOp (getScriptOp_of_gt hop after)]
    rfl
  | cons k keys ih =>
    have hk := hkeys k List.mem_cons_self
    obtain ⟨hread, hmin⟩ := getScriptOp_pushData_key hk (keys.flatMap pushData ++ opcode :: after)
    have hle : ¬UInt8.ofNat k.length > opPushData4 := UInt8.not_lt.mpr (ofNat_length_key_le hk)
    rw [List.flatMap_cons, List.append_assoc, matchMultisigKeys_of_getScriptOp hread, if_pos hk,
      ih fun k' hk' => hkeys k' (List.mem_cons_of_mem k hk')]
    simp [hle, hmin]

/-- The loop reads only written keys: where it stops at `OP_1` … `OP_16`, what it read is the
pushes of valid-size keys, written as `CScript::operator<<` writes them. -/
theorem matchMultisigKeys_sound {pc after : List UInt8} {opcode : UInt8} {keys : List ValType}
    (h : matchMultisigKeys pc = some (opcode, after, keys)) (hop : isSmallInteger opcode = true) :
    (∀ k ∈ keys, CPubKey.validSize k = true) ∧ pc = keys.flatMap pushData ++ opcode :: after := by
  fun_induction matchMultisigKeys pc generalizing keys with
  | case1 pc hnone =>
    -- a failed `GetOp` ends the loop at `OP_INVALIDOPCODE`, which is not a small integer
    rw [Option.some.injEq, Prod.mk.injEq] at h
    rw [← h.1] at hop
    exact absurd hop (by decide)
  | case2 => cases h
  | case3 pc opcode' data rest hread hvalid hpush ih =>
    -- a key push: the keys after it are read by the rest of the loop
    obtain ⟨⟨op, after', keys'⟩, hrec, heq⟩ := Option.map_eq_some_iff.mp h
    simp only [Prod.mk.injEq] at heq
    obtain ⟨rfl, rfl, rfl⟩ := heq
    obtain ⟨hkeys, hrest⟩ := ih hrec
    have hmin : checkMinimalPush data opcode' = true := by
      simp at hpush
      exact hpush.2
    refine ⟨fun k hk => ?_, ?_⟩
    · rcases List.mem_cons.mp hk with rfl | hk
      · exact hvalid
      · exact hkeys k hk
    · rw [eq_pushData_of_key hread hvalid hmin, hrest, List.flatMap_cons, List.append_assoc]
  | case4 pc opcode' data rest hread hvalid =>
    -- the opcode that ends the loop
    simp only [Option.some.injEq, Prod.mk.injEq] at h
    obtain ⟨rfl, rfl, rfl⟩ := h
    refine ⟨fun k hk => absurd hk List.not_mem_nil, ?_⟩
    rw [(eq_of_getScriptOp_of_gt hread (opPushData4_lt_of_isSmallInteger hop)).1]
    rfl

/-! ### The matchers against the builders -/

theorem getLastD_getScriptForMultisig (nRequired : ℕ) (keys : List ValType) :
    (getScriptForMultisig nRequired keys).getLastD 0 = opCheckMultiSig := by
  rw [getScriptForMultisig, show [CScript.encodeOpN keys.length, opCheckMultiSig] =
    [CScript.encodeOpN keys.length] ++ [opCheckMultiSig] from rfl, ← List.append_assoc,
    List.getLastD_concat]

/-- `MatchMultisig` reads the script of `GetScriptForMultisig` back. -/
theorem matchMultisig_getScriptForMultisig {nRequired : ℕ} {keys : List ValType}
    (h1 : 1 ≤ nRequired) (hle : nRequired ≤ keys.length) (h16 : keys.length ≤ 16)
    (hkeys : ∀ k ∈ keys, CPubKey.validSize k = true) :
    matchMultisig (getScriptForMultisig nRequired keys) = some (nRequired, keys) := by
  have hm := CScript.isSmallInteger_encodeOpN h1 (by omega)
  have hn := CScript.isSmallInteger_encodeOpN (by omega) h16
  have hfirst : getScriptOp (getScriptForMultisig nRequired keys) =
      some (CScript.encodeOpN nRequired, [],
        keys.flatMap pushData ++ [CScript.encodeOpN keys.length, opCheckMultiSig]) := by
    rw [getScriptForMultisig, List.append_assoc, List.singleton_append]
    exact getScriptOp_of_gt (opPushData4_lt_of_isSmallInteger hm) _
  have hloop := matchMultisigKeys_flatMap hkeys (opPushData4_lt_of_isSmallInteger hn)
    [opCheckMultiSig]
  have hshape : ¬((getScriptForMultisig nRequired keys).length < 1 ∨
      (getScriptForMultisig nRequired keys).getLastD 0 ≠ opCheckMultiSig) :=
    not_or.mpr ⟨by simp [getScriptForMultisig], not_not.mpr (getLastD_getScriptForMultisig _ _)⟩
  rw [matchMultisig, if_neg hshape, hfirst]
  simp [hm, hn, hloop, CScript.decodeOpN_encodeOpN h1 (by omega),
    CScript.decodeOpN_encodeOpN (by omega) h16, hle]

/-- What `MatchMultisig` accepts is the script `GetScriptForMultisig` writes, of `1` … `16`
valid-size keys and at most as many required signatures. -/
theorem matchMultisig_sound {script : List UInt8} {nRequired : ℕ} {keys : List ValType}
    (h : matchMultisig script = some (nRequired, keys)) :
    1 ≤ nRequired ∧ nRequired ≤ keys.length ∧ keys.length ≤ 16 ∧
      (∀ k ∈ keys, CPubKey.validSize k = true) ∧
      script = getScriptForMultisig nRequired keys := by
  unfold matchMultisig at h
  split_ifs at h with hshape
  split at h
  · cases h
  rename_i opm data it hfirst
  split_ifs at h with hm
  split at h
  · cases h
  rename_i opn after pubkeys hloop
  dsimp only at h
  split_ifs at h with hn hcount hafter
  simp only [Option.some.injEq, Prod.mk.injEq] at h
  obtain ⟨rfl, rfl⟩ := h
  simp only [Bool.not_eq_true', Bool.not_eq_false] at hm hn
  obtain ⟨hkeys, hit⟩ := matchMultisigKeys_sound hloop hn
  have hscript := (eq_of_getScriptOp_of_gt hfirst (opPushData4_lt_of_isSmallInteger hm)).1
  -- the one byte after `OP_n` is the last of the script, `OP_CHECKMULTISIG`
  obtain ⟨a, rfl⟩ := List.length_eq_one_iff.mp hafter
  have ha : a = opCheckMultiSig := by
    have hlast := (not_or.mp hshape).2
    rw [not_not, hscript, hit, show opm :: (pubkeys.flatMap pushData ++ opn :: [a]) =
      opm :: (pubkeys.flatMap pushData ++ [opn]) ++ [a] by simp, List.getLastD_concat] at hlast
    exact hlast
  subst ha
  have hcount' : pubkeys.length = CScript.decodeOpN opn := by omega
  obtain ⟨hm1, hm16⟩ := CScript.decodeOpN_mem hm
  obtain ⟨hn1, hn16⟩ := CScript.decodeOpN_mem hn
  refine ⟨hm1, by omega, by omega, hkeys, ?_⟩
  rw [hscript, hit, getScriptForMultisig, CScript.encodeOpN_decodeOpN hm, hcount',
    CScript.encodeOpN_decodeOpN hn]
  simp

/-- A script of `n + 2` bytes that starts with the direct push size `n` and ends with
`OP_CHECKSIG` is the push of its middle `n` bytes and `OP_CHECKSIG`. -/
theorem eq_pushData_checkSig {script : List UInt8} {n : ℕ} (hlen : script.length = n + 2)
    (hn : n < opPushData1.toNat) (h0 : (script.getD 0 0).toNat = n)
    (hlast : script.getLastD 0 = opCheckSig) :
    script = pushData ((script.drop 1).take n) ++ [opCheckSig] := by
  have hkey : ((script.drop 1).take n).length = n := by simp; omega
  rw [pushData_of_lt (by omega), hkey, ← List.singleton_append]
  apply eq_append_of_getD (by simp [hlen]; omega)
  · intro i hi
    simp only [List.length_singleton, Nat.lt_one_iff] at hi
    subst hi
    simp [← h0]
  · intro i hi
    simp only [List.length_singleton, Nat.lt_one_iff] at hi
    subst hi
    rw [getLastD_eq_getD, hlen] at hlast
    simpa [Nat.add_comm] using hlast

/-- `MatchPayToPubkey` reads the script of `GetScriptForRawPubKey` back. -/
theorem matchPayToPubkey_getScriptForRawPubKey {k : ValType} (hk : CPubKey.validSize k = true) :
    matchPayToPubkey (getScriptForRawPubKey k) = some k := by
  have hlen := CPubKey.length_of_validSize hk
  have hlast : (getScriptForRawPubKey k).getLastD 0 = opCheckSig := List.getLastD_concat
  rw [getScriptForRawPubKey, pushData_key hk] at hlast ⊢
  unfold matchPayToPubkey
  rcases hlen with h | h
  · rw [if_neg (by simp [h, CPubKey.compressedPublicKeySize, CPubKey.publicKeySize]),
      if_pos ⟨by simp [h], by simp [h, CPubKey.compressedPublicKeySize], hlast⟩]
    simp [h, hk]
  · rw [if_pos ⟨by simp [h], by simp [h, CPubKey.publicKeySize], hlast⟩]
    simp [h, hk]

/-- What `MatchPayToPubkey` accepts is the script `GetScriptForRawPubKey` writes, of a key of
valid size. -/
theorem matchPayToPubkey_sound {script : List UInt8} {pubkey : ValType}
    (h : matchPayToPubkey script = some pubkey) :
    CPubKey.validSize pubkey = true ∧ script = getScriptForRawPubKey pubkey := by
  unfold matchPayToPubkey at h
  dsimp only at h
  split_ifs at h with hfull hvalid hcomp hvalid' <;> cases h
  · obtain ⟨hlen, h0, hlast⟩ := hfull
    exact ⟨hvalid, eq_pushData_checkSig hlen (by decide) h0 hlast⟩
  · obtain ⟨hlen, h0, hlast⟩ := hcomp
    exact ⟨hvalid', eq_pushData_checkSig hlen (by decide) h0 hlast⟩

/-- `MatchPayToPubkeyHash` reads the script of a `CKeyID` back. -/
theorem matchPayToPubkeyHash_getScriptForDestination (keyID : Vector UInt8 20) :
    matchPayToPubkeyHash (getScriptForDestination (.keyID keyID)) = some keyID.toList := by
  simp [matchPayToPubkeyHash, getScriptForDestination, pushData, opPushData1]

/-- What `MatchPayToPubkeyHash` accepts is the script of a `CKeyID`. -/
theorem matchPayToPubkeyHash_sound {script : List UInt8} {hash : ValType}
    (h : matchPayToPubkeyHash script = some hash) :
    ∃ keyID : Vector UInt8 20, hash = keyID.toList ∧
      script = getScriptForDestination (.keyID keyID) := by
  unfold matchPayToPubkeyHash at h
  split_ifs at h with hshape
  cases h
  obtain ⟨hlen, h0, h1, h2, h23, h24⟩ := hshape
  have hhash : ((script.drop 3).take 20).length = 20 := by simp; omega
  refine ⟨⟨((script.drop 3).take 20).toArray, by simpa using hhash⟩, by simp, ?_⟩
  simp only [getScriptForDestination, Vector.toList_mk]
  rw [pushData_of_lt (by rw [hhash]; decide), hhash]
  show script = [opDup, opHash160, 20] ++ (script.drop 3).take 20 ++ [opEqualVerify, opCheckSig]
  apply eq_append_of_getD (by simp [hlen])
  · intro i hi
    simp only [List.length_cons, List.length_nil] at hi
    interval_cases i
    · simpa using h0
    · simpa using h1
    · simpa using h2
  · intro i hi
    simp only [List.length_cons, List.length_nil] at hi
    interval_cases i
    · simpa using h23
    · simpa using h24

/-- `IsPayToScriptHash` holds of the script of a `CScriptID`, whose hash is at bytes 2 … 21. -/
theorem isPayToScriptHash_getScriptForDestination (scriptID : Vector UInt8 20) :
    isPayToScriptHash (getScriptForDestination (.scriptID scriptID)) = true ∧
      ((getScriptForDestination (.scriptID scriptID)).drop 2).take 20 = scriptID.toList := by
  simp [isPayToScriptHash, getScriptForDestination, pushData, opPushData1]

/-- What `IsPayToScriptHash` accepts is the script of a `CScriptID`. -/
theorem isPayToScriptHash_sound {script : List UInt8} (h : isPayToScriptHash script = true) :
    ∃ scriptID : Vector UInt8 20, (script.drop 2).take 20 = scriptID.toList ∧
      script = getScriptForDestination (.scriptID scriptID) := by
  simp only [isPayToScriptHash, Bool.and_eq_true, beq_iff_eq] at h
  obtain ⟨⟨⟨hlen, h0⟩, h1⟩, h22⟩ := h
  have hhash : ((script.drop 2).take 20).length = 20 := by simp; omega
  refine ⟨⟨((script.drop 2).take 20).toArray, by simpa using hhash⟩, by simp, ?_⟩
  simp only [getScriptForDestination, Vector.toList_mk]
  rw [pushData_of_lt (by rw [hhash]; decide), hhash]
  show script = [opHash160, 20] ++ (script.drop 2).take 20 ++ [opEqual]
  apply eq_append_of_getD (by simp [hlen])
  · intro i hi
    simp only [List.length_cons, List.length_nil] at hi
    interval_cases i
    · simpa using h0
    · simpa using h1
  · intro i hi
    simp only [List.length_cons, List.length_nil] at hi
    interval_cases i
    simpa using h22

/-! ### The first byte tells the templates apart -/

theorem isPayToScriptHash_eq_false {script : List UInt8} (h : script.getD 0 0 ≠ opHash160) :
    isPayToScriptHash script = false := by
  simp only [isPayToScriptHash, beq_false_of_ne h, Bool.and_false, Bool.false_and]

theorem isNullData_eq_false {script : List UInt8} (h : script.getD 0 0 ≠ opReturn) :
    isNullData script = false := by
  simp only [isNullData, beq_false_of_ne h, Bool.and_false, Bool.false_and]

theorem matchPayToPubkey_eq_none {script : List UInt8}
    (h : (script.getD 0 0).toNat ≠ CPubKey.publicKeySize ∧
      (script.getD 0 0).toNat ≠ CPubKey.compressedPublicKeySize) :
    matchPayToPubkey script = none := by
  unfold matchPayToPubkey
  rw [if_neg (fun h' => h.1 h'.2.1), if_neg (fun h' => h.2 h'.2.1)]

theorem matchPayToPubkeyHash_eq_none {script : List UInt8} (h : script.getD 0 0 ≠ opDup) :
    matchPayToPubkeyHash script = none := by
  unfold matchPayToPubkeyHash
  rw [if_neg (fun h' => h h'.2.1)]

/-! ### Templates -/

/-- The standard outputs, by what they pay to. -/
inductive Template where
  | scriptHash (scriptID : Vector UInt8 20)
  | pubkeyHash (keyID : Vector UInt8 20)
  | pubkey (key : ValType)
  | multisig (nRequired : ℕ) (keys : List ValType)
  deriving DecidableEq, Repr

namespace Template

/-- The script the builders write for a template. -/
def render : Template → List UInt8
  | scriptHash scriptID => getScriptForDestination (.scriptID scriptID)
  | pubkeyHash keyID => getScriptForDestination (.keyID keyID)
  | pubkey key => getScriptForRawPubKey key
  | multisig nRequired keys => getScriptForMultisig nRequired keys

/-- What `Solver` is to return for the script of a template: its kind, and the hash, the key, or
the number of required signatures, the keys and their number. -/
def solution : Template → TxnOutType × List ValType
  | scriptHash scriptID => (.scripthash, [scriptID.toList])
  | pubkeyHash keyID => (.pubkeyhash, [keyID.toList])
  | pubkey key => (.pubkey, [key])
  | multisig nRequired keys =>
    (.multisig, [[UInt8.ofNat nRequired]] ++ keys ++ [[UInt8.ofNat keys.length]])

/-- The templates a standard output is built from: keys of valid size, and
`1 ≤ m ≤ n ≤ 16` for `m`-of-`n` multisig. -/
def WellFormed : Template → Prop
  | scriptHash _ | pubkeyHash _ => True
  | pubkey key => CPubKey.validSize key = true
  | multisig nRequired keys =>
    1 ≤ nRequired ∧ nRequired ≤ keys.length ∧ keys.length ≤ 16 ∧
      ∀ k ∈ keys, CPubKey.validSize k = true

instance : DecidablePred WellFormed := fun t =>
  match t with
  | scriptHash _ | pubkeyHash _ => isTrue trivial
  | pubkey key => inferInstanceAs (Decidable (CPubKey.validSize key = true))
  | multisig nRequired keys =>
    inferInstanceAs (Decidable (1 ≤ nRequired ∧ nRequired ≤ keys.length ∧ keys.length ≤ 16 ∧
      ∀ k ∈ keys, CPubKey.validSize k = true))

end Template

/-- `Solver` reads the script of a well-formed template back as its solution. -/
theorem solver_render {t : Template} (ht : t.WellFormed) : solver t.render = t.solution := by
  cases t with
  | scriptHash scriptID =>
    obtain ⟨hp2sh, hid⟩ := isPayToScriptHash_getScriptForDestination scriptID
    rw [Template.render, solver, if_pos hp2sh, hid]
    rfl
  | pubkeyHash keyID =>
    have h0 : (getScriptForDestination (.keyID keyID)).getD 0 0 = opDup := by
      simp [getScriptForDestination]
    rw [Template.render, solver, isPayToScriptHash_eq_false (by rw [h0]; decide),
      isNullData_eq_false (by rw [h0]; decide),
      matchPayToPubkey_eq_none (by rw [h0]; decide), matchPayToPubkeyHash_getScriptForDestination]
    rfl
  | pubkey key =>
    have h0 : (getScriptForRawPubKey key).getD 0 0 = UInt8.ofNat key.length := by
      simp [getScriptForRawPubKey, pushData_key ht]
    have hlen := CPubKey.length_of_validSize ht
    rw [Template.render, solver, isPayToScriptHash_eq_false (by
        rw [h0]; rcases hlen with h | h <;> rw [h] <;> decide),
      isNullData_eq_false (by rw [h0]; rcases hlen with h | h <;> rw [h] <;> decide),
      matchPayToPubkey_getScriptForRawPubKey ht]
    rfl
  | multisig nRequired keys =>
    obtain ⟨h1, hle, h16, hkeys⟩ := ht
    -- `OP_m` is none of the first bytes of the other templates
    have h0 : ((getScriptForMultisig nRequired keys).getD 0 0).toNat = 0x50 + nRequired := by
      simp [getScriptForMultisig, CScript.toNat_encodeOpN h1 (by omega)]
    have hne : ∀ b : UInt8, b.toNat ∉ Set.Icc 0x51 0x60 →
        (getScriptForMultisig nRequired keys).getD 0 0 ≠ b := by
      rintro b hb rfl
      exact hb ⟨by omega, by omega⟩
    rw [Template.render, solver, isPayToScriptHash_eq_false (hne _ (by decide)),
      isNullData_eq_false (hne _ (by decide)),
      matchPayToPubkey_eq_none (by simp only [CPubKey.publicKeySize,
        CPubKey.compressedPublicKeySize]; omega),
      matchPayToPubkeyHash_eq_none (hne _ (by decide)),
      matchMultisig_getScriptForMultisig h1 hle h16 hkeys]
    rfl

/-- Every script that `Solver` does not call null-data or nonstandard is the script of a
well-formed template, and `Solver` returns that template's solution. -/
theorem solver_sound (script : List UInt8) :
    (∃ t : Template, t.WellFormed ∧ script = t.render ∧ solver script = t.solution) ∨
      solver script = (.nullData, []) ∨ solver script = (.nonstandard, []) := by
  by_cases hp2sh : isPayToScriptHash script = true
  · obtain ⟨scriptID, hid, hs⟩ := isPayToScriptHash_sound hp2sh
    refine .inl ⟨.scriptHash scriptID, trivial, hs, ?_⟩
    rw [solver, if_pos hp2sh, hid]
    rfl
  by_cases hnull : isNullData script = true
  · exact .inr (.inl (by rw [solver, if_neg hp2sh, if_pos hnull]))
  cases hpk : matchPayToPubkey script with
  | some key =>
    obtain ⟨hk, hs⟩ := matchPayToPubkey_sound hpk
    exact .inl ⟨.pubkey key, hk, hs, by rw [solver, if_neg hp2sh, if_neg hnull, hpk]; rfl⟩
  | none =>
  cases hpkh : matchPayToPubkeyHash script with
  | some hash =>
    obtain ⟨keyID, rfl, hs⟩ := matchPayToPubkeyHash_sound hpkh
    exact .inl ⟨.pubkeyHash keyID, trivial, hs,
      by rw [solver, if_neg hp2sh, if_neg hnull, hpk, hpkh]; rfl⟩
  | none =>
  cases hms : matchMultisig script with
  | some r =>
    obtain ⟨nRequired, keys⟩ := r
    obtain ⟨h1, hle, h16, hkeys, hs⟩ := matchMultisig_sound hms
    exact .inl ⟨.multisig nRequired keys, ⟨h1, hle, h16, hkeys⟩, hs,
      by rw [solver, if_neg hp2sh, if_neg hnull, hpk, hpkh, hms]; rfl⟩
  | none =>
    exact .inr (.inr (by rw [solver, if_neg hp2sh, if_neg hnull, hpk, hpkh, hms]))

/-- The standard answers of `Solver` are exactly the solutions of the well-formed templates it
is given the script of. -/
theorem solver_eq_iff {script : List UInt8} {kind : TxnOutType} {vSolutions : List ValType}
    (hkind : kind ≠ .nullData ∧ kind ≠ .nonstandard) :
    solver script = (kind, vSolutions) ↔
      ∃ t : Template, t.WellFormed ∧ script = t.render ∧ t.solution = (kind, vSolutions) := by
  constructor
  · intro h
    rcases solver_sound script with ⟨t, ht, hs, hsol⟩ | hnull | hnon
    · exact ⟨t, ht, hs, hsol ▸ h⟩
    · rw [hnull, Prod.mk.injEq] at h
      exact absurd h.1.symm hkind.1
    · rw [hnon, Prod.mk.injEq] at h
      exact absurd h.1.symm hkind.2
  · rintro ⟨t, ht, rfl, hsol⟩
    rw [solver_render ht, hsol]

/-! ### Each standard kind -/

theorem solver_eq_scripthash_iff {script : List UInt8} {scriptID : Vector UInt8 20} :
    solver script = (.scripthash, [scriptID.toList]) ↔
      script = getScriptForDestination (.scriptID scriptID) := by
  rw [solver_eq_iff ⟨by decide, by decide⟩]
  constructor
  · rintro ⟨t, -, rfl, hsol⟩
    cases t with
    | scriptHash scriptID' =>
      simp only [Template.solution, Prod.mk.injEq, List.cons.injEq, and_true, true_and,
        Vector.toList_inj] at hsol
      rw [hsol]
      rfl
    | _ => simp [Template.solution] at hsol
  · intro h
    exact ⟨.scriptHash scriptID, trivial, h, rfl⟩

theorem solver_eq_pubkeyhash_iff {script : List UInt8} {keyID : Vector UInt8 20} :
    solver script = (.pubkeyhash, [keyID.toList]) ↔
      script = getScriptForDestination (.keyID keyID) := by
  rw [solver_eq_iff ⟨by decide, by decide⟩]
  constructor
  · rintro ⟨t, -, rfl, hsol⟩
    cases t with
    | pubkeyHash keyID' =>
      simp only [Template.solution, Prod.mk.injEq, List.cons.injEq, and_true, true_and,
        Vector.toList_inj] at hsol
      rw [hsol]
      rfl
    | _ => simp [Template.solution] at hsol
  · intro h
    exact ⟨.pubkeyHash keyID, trivial, h, rfl⟩

theorem solver_eq_pubkey_iff {script : List UInt8} {key : ValType} :
    solver script = (.pubkey, [key]) ↔
      CPubKey.validSize key = true ∧ script = getScriptForRawPubKey key := by
  rw [solver_eq_iff ⟨by decide, by decide⟩]
  constructor
  · rintro ⟨t, ht, rfl, hsol⟩
    cases t with
    | pubkey key' =>
      simp only [Template.solution, Prod.mk.injEq, List.cons.injEq, and_true, true_and] at hsol
      subst hsol
      exact ⟨ht, rfl⟩
    | _ => simp [Template.solution] at hsol
  · rintro ⟨hk, h⟩
    exact ⟨.pubkey key, hk, h, rfl⟩

theorem solver_eq_multisig_iff {script : List UInt8} {m n : UInt8} {keys : List ValType} :
    solver script = (.multisig, [m] :: keys ++ [[n]]) ↔
      1 ≤ m.toNat ∧ m.toNat ≤ n.toNat ∧ n.toNat ≤ 16 ∧ keys.length = n.toNat ∧
        (∀ k ∈ keys, CPubKey.validSize k = true) ∧ script = getScriptForMultisig m.toNat keys := by
  rw [solver_eq_iff ⟨by decide, by decide⟩]
  constructor
  · rintro ⟨t, ht, rfl, hsol⟩
    cases t with
    | multisig nRequired keys' =>
      obtain ⟨h1, hle, h16, hkeys⟩ := ht
      simp [Template.solution] at hsol
      obtain ⟨rfl, rfl, rfl⟩ := hsol
      -- both counts are at most 16, so their bytes are the counts
      have hm : (UInt8.ofNat nRequired).toNat = nRequired := by
        rw [UInt8.toNat_ofNat']
        omega
      have hn : (UInt8.ofNat keys'.length).toNat = keys'.length := by
        rw [UInt8.toNat_ofNat']
        omega
      rw [hm, hn]
      exact ⟨h1, hle, h16, rfl, hkeys, rfl⟩
    | _ => simp [Template.solution] at hsol
  · rintro ⟨h1, hle, h16, hlen, hkeys, rfl⟩
    refine ⟨.multisig m.toNat keys, ⟨h1, by omega, by omega, hkeys⟩, rfl, ?_⟩
    simp [Template.solution, hlen]

/-- A script that is the script of no well-formed template is null-data or nonstandard. -/
theorem solver_of_not_render {script : List UInt8}
    (h : ∀ t : Template, t.WellFormed → script ≠ t.render) :
    solver script = (.nullData, []) ∨ solver script = (.nonstandard, []) := by
  rcases solver_sound script with ⟨t, ht, hs, -⟩ | hother
  · exact absurd hs (h t ht)
  · exact hother

theorem uint160OfBytes_toList (id : Vector UInt8 20) : uint160OfBytes id.toList = some id := by
  simp [uint160OfBytes, Vector.toList]

/-- `ExtractDestination` reads back the `CKeyID` or `CScriptID` a script was written for. -/
theorem extractDestination_getScriptForDestination (hash160 : ValType → Vector UInt8 20)
    (id : Vector UInt8 20) :
    extractDestination hash160 (getScriptForDestination (.keyID id)) = some (.keyID id) ∧
      extractDestination hash160 (getScriptForDestination (.scriptID id)) =
        some (.scriptID id) := by
  have hkey : solver (getScriptForDestination (.keyID id)) = (.pubkeyhash, [id.toList]) :=
    solver_render (t := .pubkeyHash id) trivial
  have hscript : solver (getScriptForDestination (.scriptID id)) =
      (.scripthash, [id.toList]) :=
    solver_render (t := .scriptHash id) trivial
  simp [extractDestination, hkey, hscript, uint160OfBytes_toList]

/-- `Solver` recognises exactly the scripts the builders write for the standard templates, with
the hash, the key, or the counts and keys as solutions, and calls every other script null-data
or nonstandard; `ExtractDestination` inverts `GetScriptForDestination` on keys and scripts. -/
theorem solver_canonical_templates :
    (∀ (script : List UInt8) (scriptID : Vector UInt8 20),
      solver script = (.scripthash, [scriptID.toList]) ↔
        script = getScriptForDestination (.scriptID scriptID)) ∧
    (∀ (script : List UInt8) (keyID : Vector UInt8 20),
      solver script = (.pubkeyhash, [keyID.toList]) ↔
        script = getScriptForDestination (.keyID keyID)) ∧
    (∀ (script : List UInt8) (key : ValType),
      solver script = (.pubkey, [key]) ↔
        CPubKey.validSize key = true ∧ script = getScriptForRawPubKey key) ∧
    (∀ (script : List UInt8) (m n : UInt8) (keys : List ValType),
      solver script = (.multisig, [m] :: keys ++ [[n]]) ↔
        1 ≤ m.toNat ∧ m.toNat ≤ n.toNat ∧ n.toNat ≤ 16 ∧ keys.length = n.toNat ∧
          (∀ k ∈ keys, CPubKey.validSize k = true) ∧
          script = getScriptForMultisig m.toNat keys) ∧
    (∀ script : List UInt8, (∀ t : Template, t.WellFormed → script ≠ t.render) →
      solver script = (.nullData, []) ∨ solver script = (.nonstandard, [])) ∧
    (∀ (hash160 : ValType → Vector UInt8 20) (id : Vector UInt8 20),
      extractDestination hash160 (getScriptForDestination (.keyID id)) = some (.keyID id) ∧
        extractDestination hash160 (getScriptForDestination (.scriptID id)) =
          some (.scriptID id)) :=
  ⟨fun _ _ => solver_eq_scripthash_iff, fun _ _ => solver_eq_pubkeyhash_iff,
    fun _ _ => solver_eq_pubkey_iff, fun _ _ _ _ => solver_eq_multisig_iff,
    fun _ => solver_of_not_render, extractDestination_getScriptForDestination⟩

end BitcoinCash
