import Mathlib
import BitcoinCash.Net.NetAddress
import BitcoinCash.Serialize.CompactSize

/-!
# The ADDRv1 and ADDRv2 encodings of a network address

`CNetAddr` writes itself in two formats (`netaddress.h`). Before BIP155 an address is sixteen
bytes (`SerializeV1Array`): IPv6 as itself, IPv4, TORv2 and internal addresses behind the prefixes
`SetLegacyIPv6` strips again, and the other networks as the all-zero address. BIP155's format
(`SerializeV2Stream`) is a network id, a compact size and the bytes; an internal address travels
as an IPv6 one behind its prefix, which `UnserializeV2Stream` recognises.

An address is well formed when its size is the one `SetIP` asserts for its network and an IPv6
address carries none of the prefixes that embed another network. Both readers return only
well-formed addresses, every well-formed address reads back from its V2 encoding, and from its
V1 encoding when V1 has a form for its network.
-/

namespace BitcoinCash

/-- `CDataStream::ignore`: skip `n` bytes of the stream. -/
def ignore (n : ℕ) : Reader Unit := fun s =>
  if s.length < n then .error "CDataStream::ignore(): end of data" else .ok ((), s.drop n)

namespace CNetAddr

/-- `ADDR_TORV2_SIZE`. -/
def addrTorv2Size : ℕ := 10

/-- `ADDR_TORV3_SIZE`. -/
def addrTorv3Size : ℕ := 32

/-- `ADDR_I2P_SIZE`. -/
def addrI2PSize : ℕ := 32

/-- `ADDR_CJDNS_SIZE`. -/
def addrCJDNSSize : ℕ := 16

/-- `ADDR_INTERNAL_SIZE`. -/
def addrInternalSize : ℕ := 10

/-- `MAX_ADDRV2_SIZE`. -/
def maxAddrv2Size : ℕ := 512

/-- `enum BIP155Network`: the founding networks of BIP155. -/
inductive BIP155Network where
  | ipv4
  | ipv6
  | torv2
  | torv3
  | i2p
  | cjdns
  deriving DecidableEq, Repr

namespace BIP155Network

/-- The `uint8_t` value of each id. -/
def toUInt8 : BIP155Network → UInt8
  | ipv4 => 1
  | ipv6 => 2
  | torv2 => 3
  | torv3 => 4
  | i2p => 5
  | cjdns => 6

/-- The id a byte names, if any: the `case` labels of `SetNetFromBIP155Network`. -/
def ofUInt8? (b : UInt8) : Option BIP155Network :=
  match b.toNat with
  | 1 => some ipv4
  | 2 => some ipv6
  | 3 => some torv2
  | 4 => some torv3
  | 5 => some i2p
  | 6 => some cjdns
  | _ => none

/-- The `m_net` that `SetNetFromBIP155Network` sets for each id. -/
def net : BIP155Network → Network
  | ipv4 => .ipv4
  | ipv6 => .ipv6
  | torv2 | torv3 => .onion
  | i2p => .i2p
  | cjdns => .cjdns

/-- The size `SetNetFromBIP155Network` requires with each id. -/
def size : BIP155Network → ℕ
  | ipv4 => addrIPv4Size
  | ipv6 => addrIPv6Size
  | torv2 => addrTorv2Size
  | torv3 => addrTorv3Size
  | i2p => addrI2PSize
  | cjdns => addrCJDNSSize

/-- The name of each id in the failure of `SetNetFromBIP155Network`. -/
def name : BIP155Network → String
  | ipv4 => "IPv4"
  | ipv6 => "IPv6"
  | torv2 => "TORv2"
  | torv3 => "TORv3"
  | i2p => "I2P"
  | cjdns => "CJDNS"

@[simp] theorem ofUInt8?_toUInt8 (n : BIP155Network) : ofUInt8? n.toUInt8 = some n := by
  cases n <;> rfl

theorem size_of_net_ipv4 {n : BIP155Network} (h : n.net = .ipv4) : n.size = addrIPv4Size := by
  cases n <;> simp_all [net, size]

theorem size_of_net_ipv6 {n : BIP155Network} (h : n.net = .ipv6) : n.size = addrIPv6Size := by
  cases n <;> simp_all [net, size]

end BIP155Network

/-- `GetBIP155Network`; `none` where the code reaches `assert(false)`: an internal address, or an
onion address of neither TORv2 nor TORv3 size. -/
def getBIP155Network (a : CNetAddr) : Option BIP155Network :=
  match a.net with
  | .ipv4 => some .ipv4
  | .ipv6 => some .ipv6
  | .onion =>
    if a.addr.length = addrTorv2Size then some .torv2
    else if a.addr.length = addrTorv3Size then some .torv3
    else none
  | .i2p => some .i2p
  | .cjdns => some .cjdns
  | .internal | .unroutable => none

/-- The failure `SetNetFromBIP155Network` throws for a founding network read with another size. -/
def wrongLength (name : String) (addressSize expected : ℕ) : String :=
  "BIP155 " ++ name ++ " address with length " ++ toString addressSize ++ " (should be " ++
    toString expected ++ ")"

/-- `SetNetFromBIP155Network`: the id, whose network is the `m_net` it sets, when the size is the
id's own; a failure for another size; `none` for an id it does not know. -/
def setNetFromBIP155Network (possibleBip155Net : UInt8) (addressSize : ℕ) :
    Reader (Option BIP155Network) :=
  match BIP155Network.ofUInt8? possibleBip155Net with
  | some n =>
    if addressSize = n.size then pure (some n) else throw (wrongLength n.name addressSize n.size)
  | none => pure none

/-- The `memcpy`s of `SerializeV1Array` behind a prefix, after its `assert` that the prefix and the
address fill the array. -/
def embedV1 (pre addr : List UInt8) : Option (List UInt8) :=
  if pre.length + addr.length = addrIPv6Size then some (pre ++ addr) else none

/-- `SerializeV1Array`; `none` at a failed `assert`. -/
def serializeV1Array (a : CNetAddr) : Option (List UInt8) :=
  match a.net with
  | .ipv6 => if a.addr.length = addrIPv6Size then some a.addr else none
  | .ipv4 => embedV1 ipv4InIPv6Prefix a.addr
  | .onion =>
    -- TORv3 as all zeros
    if a.addr.length = addrTorv3Size then some (List.replicate addrIPv6Size 0)
    else embedV1 torv2InIPv6Prefix a.addr
  | .internal => embedV1 internalInIPv6Prefix a.addr
  | .i2p | .cjdns => some (List.replicate addrIPv6Size 0)
  | .unroutable => none

/-- `SerializeV1Stream`: the array, with no size before it. -/
def serializeV1Stream (a : CNetAddr) : Option (List UInt8) := a.serializeV1Array

/-- `SerializeV2Stream`: an internal address as the IPv6 id, the size sixteen and its V1 form; any
other as its BIP155 id and `m_addr` with its compact size. -/
def serializeV2Stream (a : CNetAddr) : Option (List UInt8) :=
  if a.isInternal then
    a.serializeV1Stream.map fun arr =>
      serWritedata8 BIP155Network.ipv6.toUInt8.toNat ++ writeCompactSize addrIPv6Size ++ arr
  else
    a.getBIP155Network.map fun n =>
      serWritedata8 n.toUInt8.toNat ++ writeCompactSize a.addr.length ++ a.addr

/-- The failure of `UnserializeV2Stream` for a size above `MAX_ADDRV2_SIZE`. -/
def addressTooLong (addressSize : ℕ) : String :=
  "Address too long: " ++ toString addressSize ++ " > " ++ toString maxAddrv2Size

theorem internal_ne_ipv4 : Network.internal ≠ .ipv4 := by decide

theorem internal_ne_ipv6 : Network.internal ≠ .ipv6 := by decide

/-- An address of a network other than IPv4 and IPv6, whose size the structure leaves open. -/
def ofOther (net : Network) (addr : List UInt8) (h4 : net ≠ .ipv4) (h6 : net ≠ .ipv6) : CNetAddr :=
  ⟨net, addr, (absurd · h4), (absurd · h6)⟩

/-- The address of the network an id sets and bytes of the size it requires. -/
def ofSized (n : BIP155Network) (addr : List UInt8) (h : addr.length = n.size) : CNetAddr :=
  ⟨n.net, addr, fun h4 => h.trans (BIP155Network.size_of_net_ipv4 h4),
    fun h6 => h.trans (BIP155Network.size_of_net_ipv6 h6)⟩

/-- What `UnserializeV2Stream` makes of a founding network and its bytes. Past `m_net != NET_IPV6`
it keeps them; on IPv6 its special checks turn an address behind the internal prefix into that
internal address, keep an address behind neither the IPv4 nor the TORv2 prefix, and replace the
rest by the all-zero address. -/
def ofBIP155 (n : BIP155Network) (addr : List UInt8) (h : addr.length = n.size) : CNetAddr :=
  if n.net ≠ .ipv6 then ofSized n addr h
  else if hasPrefix addr internalInIPv6Prefix then
    ofOther .internal (addr.drop internalInIPv6Prefix.length) internal_ne_ipv4 internal_ne_ipv6
  else if !hasPrefix addr ipv4InIPv6Prefix && !hasPrefix addr torv2InIPv6Prefix then
    ofSized n addr h
  else default

/-- `UnserializeV2Stream`: the id, the size through `COMPACTSIZE`, then the bytes of a founding
network, or the bytes of an unknown one skipped and the all-zero address. -/
def unserializeV2Stream : Reader CNetAddr := do
  let bip155Net ← serReaddata8
  let addressSize ← readCompactSize
  if addressSize > maxAddrv2Size then throw (addressTooLong addressSize)
  match ← setNetFromBIP155Network bip155Net addressSize with
  | some n =>
    let addr ← readBytes addressSize
    -- `readBytes` returns as many bytes as it is asked for
    if h : addr.length = n.size then pure (ofBIP155 n addr h) else throw endOfData
  | none =>
    ignore addressSize
    pure default

/-- The sizes `SetIP` asserts, network by network. -/
def sizeMatchesNet (a : CNetAddr) : Bool :=
  match a.net with
  | .ipv4 => a.addr.length == addrIPv4Size
  | .ipv6 => a.addr.length == addrIPv6Size
  | .onion => a.addr.length == addrTorv2Size || a.addr.length == addrTorv3Size
  | .i2p => a.addr.length == addrI2PSize
  | .cjdns => a.addr.length == addrCJDNSSize
  | .internal => a.addr.length == addrInternalSize
  | .unroutable => false

/-- `SetIP`: the address copied after its size check; `none` at a failed `assert`. -/
def setIP (ipIn : CNetAddr) : Option CNetAddr := if ipIn.sizeMatchesNet then some ipIn else none

/-- A well-formed address: the size `SetIP` asserts, and for IPv6 none of the prefixes that embed
another network. -/
def wellFormed (a : CNetAddr) : Bool :=
  a.sizeMatchesNet && (a.net != .ipv6 || !(hasPrefix a.addr ipv4InIPv6Prefix ||
    hasPrefix a.addr torv2InIPv6Prefix || hasPrefix a.addr internalInIPv6Prefix))

/-! ### What the readers return -/

section Readers

@[simp] theorem wellFormed_default : CNetAddr.default.wellFormed = true := by decide

theorem wellFormed_setLegacyIPv6 (ipv6 : List UInt8) (h : ipv6.length = addrIPv6Size) :
    (setLegacyIPv6 ipv6 h).wellFormed = true := by
  unfold setLegacyIPv6
  split_ifs with h4 ht hi <;> simp_all [wellFormed, sizeMatchesNet, addrIPv6Size, addrIPv4Size,
    addrTorv2Size, addrInternalSize, ipv4InIPv6Prefix, torv2InIPv6Prefix, internalInIPv6Prefix]

theorem wellFormed_ofBIP155 (n : BIP155Network) (addr : List UInt8) (h : addr.length = n.size) :
    (ofBIP155 n addr h).wellFormed = true := by
  unfold ofBIP155
  split_ifs with hn hi hp
  · cases n
    case ipv6 => exact absurd rfl hn
    all_goals simp_all [wellFormed, sizeMatchesNet, ofSized, BIP155Network.net, BIP155Network.size]
  · have h6 := BIP155Network.size_of_net_ipv6 (not_not.mp hn)
    simp [wellFormed, sizeMatchesNet, ofOther, h, h6, addrIPv6Size, addrInternalSize,
      internalInIPv6Prefix]
  · have h6 := BIP155Network.size_of_net_ipv6 (not_not.mp hn)
    simp_all [wellFormed, sizeMatchesNet, ofSized]
  · exact wellFormed_default

theorem unserializeV1_wellFormed {s s' : List UInt8} {b : CNetAddr}
    (hb : unserializeV1.run s = .ok (b, s')) : b.wellFormed = true := by
  obtain ⟨serialized, s₁, -, h₁⟩ := Reader.run_bind_eq_ok hb
  split_ifs at h₁ with h
  · cases h₁
    exact wellFormed_setLegacyIPv6 serialized h
  · cases h₁

theorem unserializeV2Stream_wellFormed {s s' : List UInt8} {b : CNetAddr}
    (hb : unserializeV2Stream.run s = .ok (b, s')) : b.wellFormed = true := by
  obtain ⟨bip155Net, s₁, -, h₁⟩ := Reader.run_bind_eq_ok hb
  obtain ⟨addressSize, s₂, -, h₂⟩ := Reader.run_bind_eq_ok h₁
  simp only at h₂
  split_ifs at h₂ with hlong
  · cases h₂
  obtain ⟨r, s₃, -, h₃⟩ := Reader.run_bind_eq_ok h₂
  cases r with
  | some n =>
    obtain ⟨addr, s₄, -, h₄⟩ := Reader.run_bind_eq_ok h₃
    split_ifs at h₄ with h
    · cases h₄
      exact wellFormed_ofBIP155 n addr h
    · cases h₄
  | none =>
    obtain ⟨_, s₄, -, h₄⟩ := Reader.run_bind_eq_ok h₃
    cases h₄
    exact wellFormed_default

end Readers

/-! ### Round trips -/

section RoundTrip

theorem hasPrefix_append (pre x : List UInt8) : hasPrefix (pre ++ x) pre = true := by
  simp [hasPrefix, List.isPrefixOf_iff_prefix]

theorem setNetFromBIP155Network_run (n : BIP155Network) {addressSize : ℕ}
    (h : addressSize = n.size) (s : List UInt8) :
    (setNetFromBIP155Network n.toUInt8 addressSize).run s = .ok (some n, s) := by
  rw [setNetFromBIP155Network, BIP155Network.ofUInt8?_toUInt8]
  dsimp only
  rw [if_pos h]
  rfl

/-- An id, a compact size and as many bytes as the id requires read back as what
`UnserializeV2Stream` makes of them. -/
theorem unserializeV2Stream_run_encode (n : BIP155Network) (addr : List UInt8)
    (h : addr.length = n.size) (rest : List UInt8) :
    unserializeV2Stream.run
        (serWritedata8 n.toUInt8.toNat ++ writeCompactSize addr.length ++ addr ++ rest) =
      .ok (ofBIP155 n addr h, rest) := by
  have hsmall : addr.length ≤ addrTorv3Size := by
    rw [h]
    cases n <;> decide
  rw [unserializeV2Stream, serWritedata8, UInt8.ofNat_toNat, List.append_assoc,
    List.append_assoc, List.singleton_append, Reader.run_bind_ok (serReaddata8_run_cons _ _),
    Reader.run_bind_ok (readCompactSize_run_write (by unfold maxSize addrTorv3Size at *; omega) _)]
  simp only
  rw [if_neg (by unfold maxAddrv2Size addrTorv3Size at *; omega),
    Reader.run_bind_ok (setNetFromBIP155Network_run n h _)]
  simp only
  rw [Reader.run_bind_ok (readBytes_run_append rfl rest), dif_pos h]
  rfl

example : (unserializeV2Stream.run ([2, 16] ++ internalInIPv6Prefix ++ List.replicate 10 7)).toOption.map
    (·.1.net) = some .internal := by
  decide

theorem ofBIP155_of_ne {n : BIP155Network} {addr : List UInt8} (h : addr.length = n.size)
    (hn : n.net ≠ .ipv6) {a : CNetAddr} (hnet : a.net = n.net) (haddr : a.addr = addr) :
    ofBIP155 n addr h = a :=
  CNetAddr.ext (by simp [ofBIP155, ofSized, hn, hnet]) (by simp [ofBIP155, ofSized, hn, haddr])

theorem sizeMatchesNet_of_wellFormed {a : CNetAddr} (ha : a.wellFormed = true) :
    a.sizeMatchesNet = true := by
  simp only [wellFormed, Bool.and_eq_true] at ha
  exact ha.1

/-- A well-formed IPv6 address has sixteen bytes and none of the three prefixes. -/
theorem wellFormed_ipv6 {addr : List UInt8} {h4 h6}
    (ha : (⟨.ipv6, addr, h4, h6⟩ : CNetAddr).wellFormed = true) :
    addr.length = addrIPv6Size ∧ hasPrefix addr ipv4InIPv6Prefix = false ∧
      hasPrefix addr torv2InIPv6Prefix = false ∧ hasPrefix addr internalInIPv6Prefix = false := by
  simpa [wellFormed, sizeMatchesNet, and_assoc] using ha

/-- A well-formed address is written in V2 as an id and bytes that `UnserializeV2Stream` makes
into the address again. -/
theorem serializeV2Stream_eq {a : CNetAddr} (ha : a.wellFormed = true) :
    ∃ n addr h, a.serializeV2Stream =
        some (serWritedata8 n.toUInt8.toNat ++ writeCompactSize addr.length ++ addr) ∧
      ofBIP155 n addr h = a := by
  have hs := sizeMatchesNet_of_wellFormed ha
  obtain ⟨net, addr, h4, h6⟩ := a
  cases net <;> simp only [sizeMatchesNet, Bool.or_eq_true, beq_iff_eq, Bool.false_eq_true] at hs
  case ipv4 => exact ⟨.ipv4, addr, hs, rfl, ofBIP155_of_ne _ (by decide) rfl rfl⟩
  case ipv6 =>
    obtain ⟨hlen, h4p, htp, hip⟩ := wellFormed_ipv6 ha
    refine ⟨.ipv6, addr, hlen, rfl, ?_⟩
    simp [ofBIP155, ofSized, BIP155Network.net, hip, h4p, htp]
  case onion =>
    rcases hs with h2 | h3
    · exact ⟨.torv2, addr, h2, by simp [serializeV2Stream, isInternal, getBIP155Network, h2],
        ofBIP155_of_ne _ (by decide) rfl rfl⟩
    · exact ⟨.torv3, addr, h3, by simp [serializeV2Stream, isInternal, getBIP155Network, h3,
          addrTorv2Size, addrTorv3Size], ofBIP155_of_ne _ (by decide) rfl rfl⟩
  case i2p => exact ⟨.i2p, addr, hs, rfl, ofBIP155_of_ne _ (by decide) rfl rfl⟩
  case cjdns => exact ⟨.cjdns, addr, hs, rfl, ofBIP155_of_ne _ (by decide) rfl rfl⟩
  case internal =>
    -- written as an IPv6 address behind the internal prefix
    have hsum : internalInIPv6Prefix.length + addr.length = addrIPv6Size := by
      rw [hs]
      rfl
    refine ⟨.ipv6, internalInIPv6Prefix ++ addr, (List.length_append ..).trans hsum, ?_, ?_⟩
    · simp [serializeV2Stream, isInternal, serializeV1Stream, serializeV1Array, embedV1, hsum]
    · simp [ofBIP155, ofOther, BIP155Network.net, hasPrefix_append]

theorem unserializeV1_run_append {arr : List UInt8} (h : arr.length = addrIPv6Size)
    (rest : List UInt8) : unserializeV1.run (arr ++ rest) = .ok (setLegacyIPv6 arr h, rest) := by
  rw [unserializeV1, Reader.run_bind_ok (readBytes_run_append h rest), dif_pos h]
  rfl

/-- The all-zero array of the networks V1 has no form for reads back as the all-zero address. -/
theorem setLegacyIPv6_zero (h : (List.replicate addrIPv6Size (0 : UInt8)).length = addrIPv6Size) :
    setLegacyIPv6 (List.replicate addrIPv6Size 0) h = CNetAddr.default := rfl

theorem embedV1_eq {pre addr : List UInt8} (h : pre.length + addr.length = addrIPv6Size) :
    embedV1 pre addr = some (pre ++ addr) := if_pos h

/-- The V1 form of a well-formed address: behind its prefix for IPv4, TORv2 and internal
addresses, itself for IPv6, and the all-zero array for TORv3, I2P and CJDNS. `SetLegacyIPv6`
makes the address of it again, or the all-zero address for the last three. -/
theorem serializeV1Stream_eq {a : CNetAddr} (ha : a.wellFormed = true) :
    ∃ arr h, a.serializeV1Stream = some arr ∧
      setLegacyIPv6 arr h = if a.net = .i2p ∨ a.net = .cjdns ∨
        a.net = .onion ∧ a.addr.length = addrTorv3Size then CNetAddr.default else a := by
  have hs := sizeMatchesNet_of_wellFormed ha
  obtain ⟨net, addr, h4, h6⟩ := a
  cases net <;> simp only [sizeMatchesNet, Bool.or_eq_true, beq_iff_eq, Bool.false_eq_true] at hs
  case ipv4 =>
    have hsum : ipv4InIPv6Prefix.length + addr.length = addrIPv6Size := by
      rw [hs]
      rfl
    refine ⟨_, (List.length_append ..).trans hsum, embedV1_eq hsum, ?_⟩
    simp only [setLegacyIPv6, hasPrefix_append, if_true]
    exact CNetAddr.ext rfl (by simp)
  case ipv6 =>
    obtain ⟨hlen, h4p, htp, hip⟩ := wellFormed_ipv6 ha
    refine ⟨addr, hlen, by simp [serializeV1Stream, serializeV1Array, hlen], ?_⟩
    simp [setLegacyIPv6, h4p, htp, hip]
  case onion =>
    rcases hs with h2 | h3
    · -- TORv2, behind its prefix
      have hsum : torv2InIPv6Prefix.length + addr.length = addrIPv6Size := by
        rw [h2]
        rfl
      have h4p : hasPrefix (torv2InIPv6Prefix ++ addr) ipv4InIPv6Prefix = false := rfl
      have h3 : addr.length ≠ addrTorv3Size := by
        rw [h2]
        decide
      refine ⟨_, (List.length_append ..).trans hsum,
        by rw [serializeV1Stream, serializeV1Array, if_neg h3, embedV1_eq hsum], ?_⟩
      simp only [setLegacyIPv6, h4p, hasPrefix_append, Bool.false_eq_true, if_false, if_true]
      rw [if_neg (by simp [h3])]
      exact CNetAddr.ext rfl (by simp)
    · -- TORv3, as zeros
      refine ⟨List.replicate addrIPv6Size 0, List.length_replicate,
        by simp [serializeV1Stream, serializeV1Array, h3], ?_⟩
      rw [setLegacyIPv6_zero, if_pos (.inr (.inr ⟨rfl, h3⟩))]
  case i2p =>
    exact ⟨_, List.length_replicate, rfl, by rw [setLegacyIPv6_zero, if_pos (.inl rfl)]⟩
  case cjdns =>
    exact ⟨_, List.length_replicate, rfl, by rw [setLegacyIPv6_zero, if_pos (.inr (.inl rfl))]⟩
  case internal =>
    have hsum : internalInIPv6Prefix.length + addr.length = addrIPv6Size := by
      rw [hs]
      rfl
    have h4p : hasPrefix (internalInIPv6Prefix ++ addr) ipv4InIPv6Prefix = false := rfl
    have htp : hasPrefix (internalInIPv6Prefix ++ addr) torv2InIPv6Prefix = false := rfl
    refine ⟨_, (List.length_append ..).trans hsum, embedV1_eq hsum, ?_⟩
    simp only [setLegacyIPv6, h4p, htp, hasPrefix_append, Bool.false_eq_true, if_false, if_true]
    rw [if_neg (by simp)]
    exact CNetAddr.ext rfl (by simp)

/-- On a well-formed address the `assert`s of `SerializeV1Array`, of `GetBIP155Network` when the
address is not internal, and of `SetIP` hold. -/
theorem asserts_of_wellFormed {a : CNetAddr} (ha : a.wellFormed = true) :
    a.serializeV1Array.isSome ∧ (a.isInternal = false → a.getBIP155Network.isSome) ∧
      a.setIP = some a := by
  obtain ⟨arr, -, hv1, -⟩ := serializeV1Stream_eq ha
  obtain ⟨n, addr, -, hv2, -⟩ := serializeV2Stream_eq ha
  refine ⟨by rw [← serializeV1Stream, hv1]; rfl, fun hint => ?_, ?_⟩
  · rw [serializeV2Stream, hint, if_neg Bool.false_ne_true] at hv2
    rw [← Option.isSome_map, hv2]
    rfl
  · rw [setIP, if_pos (sizeMatchesNet_of_wellFormed ha)]

end RoundTrip

end CNetAddr

open CNetAddr in
theorem netAddr_encodings_roundtrip :
    (∀ a : CNetAddr, a.wellFormed = true → ∃ bytes, a.serializeV2Stream = some bytes ∧
      ∀ rest, unserializeV2Stream.run (bytes ++ rest) = .ok (a, rest)) ∧
    (∀ a : CNetAddr, a.wellFormed = true → ∃ arr, a.serializeV1Stream = some arr ∧
      ∀ rest, unserializeV1.run (arr ++ rest) = .ok ((if a.net = .i2p ∨ a.net = .cjdns ∨
        a.net = .onion ∧ a.addr.length = addrTorv3Size then CNetAddr.default else a), rest)) ∧
    (∀ s b rest, unserializeV1.run s = .ok (b, rest) → b.wellFormed = true) ∧
    (∀ s b rest, unserializeV2Stream.run s = .ok (b, rest) → b.wellFormed = true) ∧
    (∀ a : CNetAddr, a.wellFormed = true → a.serializeV1Array.isSome ∧
      (a.isInternal = false → a.getBIP155Network.isSome) ∧ a.setIP = some a) := by
  refine ⟨fun a ha => ?_, fun a ha => ?_, fun _ _ _ => unserializeV1_wellFormed,
    fun _ _ _ => unserializeV2Stream_wellFormed, fun _ => asserts_of_wellFormed⟩
  · obtain ⟨n, addr, h, hser, hof⟩ := serializeV2Stream_eq ha
    exact ⟨_, hser, fun rest => hof ▸ unserializeV2Stream_run_encode n addr h rest⟩
  · obtain ⟨arr, h, hser, hlegacy⟩ := serializeV1Stream_eq ha
    exact ⟨arr, hser, fun rest => hlegacy ▸ unserializeV1_run_append h rest⟩

open CNetAddr in
/-- A Tor v3 address: it round-trips in the `ADDRv2` encoding, and the legacy one, which cannot
carry it, reads back as the well-formed `::`. -/
theorem netAddr_encodings_roundtrip_torv3 :
    let a : CNetAddr := ⟨.onion, List.replicate 32 7, (fun h => by cases h), fun h => by cases h⟩
    a.wellFormed = true ∧
      (∃ bytes, a.serializeV2Stream = some bytes ∧
        ∀ rest, unserializeV2Stream.run (bytes ++ rest) = .ok (a, rest)) ∧
      (∃ arr, a.serializeV1Stream = some arr ∧
        unserializeV1.run arr = .ok (CNetAddr.default, []) ∧ CNetAddr.default.wellFormed = true) ∧
      a.serializeV1Array.isSome ∧ a.getBIP155Network.isSome ∧ a.setIP = some a := by
  intro a
  have ha : a.wellFormed = true := by decide
  obtain ⟨bytes, hser, hrun⟩ := netAddr_encodings_roundtrip.1 a ha
  obtain ⟨arr, hser1, hrun1⟩ := netAddr_encodings_roundtrip.2.1 a ha
  -- the legacy encoding of a Tor v3 address is the default address
  have hdefault : unserializeV1.run arr = .ok (CNetAddr.default, []) := by
    simpa [a, addrTorv3Size] using hrun1 []
  obtain ⟨hv1, hbip, hset⟩ := netAddr_encodings_roundtrip.2.2.2.2 a ha
  exact ⟨ha, ⟨bytes, hser, hrun⟩,
    ⟨arr, hser1, hdefault, netAddr_encodings_roundtrip.2.2.1 _ _ _ hdefault⟩, hv1, hbip rfl, hset⟩

end BitcoinCash
