import BitcoinCash.Net.NetAddress
import BitcoinCash.Data.BitList

/-!
# Subnets

A `CSubNet` of `netaddress.h` is a network address, a netmask of sixteen bytes and a validity
flag. It is built from an address and a mask length, from an address and a mask address, or from
a single address, and it is read from a stream. `Match` tests an address against the network
under the mask and `GetCIDRLength` counts the leading one bits of the mask.

The constructors write a prefix mask: some one bits, then zero bits, over the bytes of the
address (`IsPrefixMask`), which is what `CSubNet(addr, mask)` checks of a mask address.
`Unserialize` checks only that the network has no bit outside the mask, so a stream can give a
valid subnet whose mask has a one bit after a zero bit; its CIDR length then stops at the first
zero bit while `Match` still tests the later one bits.
-/

namespace BitcoinCash

open BitList

/-- `std::memcpy` of at most sixteen bytes into the zeroed `uint8_t netmask[16]`. -/
def memcpyNetmask (src : List UInt8) : List UInt8 := (src ++ List.replicate 16 0).take 16

theorem length_memcpyNetmask (src : List UInt8) : (memcpyNetmask src).length = 16 := by
  simp [memcpyNetmask]

/-- `CSubNet`: the base address `network`, the `netmask` in network byte order and `valid`. -/
@[ext]
structure CSubNet where
  network : CNetAddr
  netmask : List UInt8
  valid : Bool
  length_netmask : netmask.length = 16

/-- `0xFFu << (8u - bits)` cast to `uint8_t`: a netmask byte with its first `bits` bits set. -/
def maskByte (bits : ℕ) : UInt8 := ((0xFF : UInt32) <<< (8 - bits).toUInt32).toUInt8

/-- `NetmaskBits`: the number of leading one bits of a netmask byte, `-1` if the byte is not a
run of ones and then zeros. -/
def netmaskBits (x : UInt8) : ℤ :=
  match x.toNat with
  | 0x00 => 0
  | 0x80 => 1
  | 0xc0 => 2
  | 0xe0 => 3
  | 0xf0 => 4
  | 0xf8 => 5
  | 0xfc => 6
  | 0xfe => 7
  | 0xff => 8
  | _ => -1

/-- The loop of `CSubNet(addr, mask)` over the address bytes with `n` mask bits left: each netmask
byte takes the next `bits` of them and normalizes the network byte. Returns the normalized
address bytes and the netmask bytes. -/
def prefixMaskLoop : List UInt8 → ℕ → List UInt8 × List UInt8
  | [], _ => ([], [])
  | b :: bs, n =>
    let bits := if n < 8 then n else 8
    let m := maskByte bits
    let rest := prefixMaskLoop bs (n - bits)
    ((b &&& m) :: rest.1, m :: rest.2)

/-- The mask check of `CSubNet(addr, mask)`: no byte other than a run of ones and then zeros,
and no one bit once a zero bit was found. -/
def contiguousLoop : List UInt8 → Bool → Bool
  | [], _ => true
  | b :: bs, zerosFound =>
    let numBits := netmaskBits b
    if numBits = -1 ∨ (zerosFound = true ∧ numBits ≠ 0) then false
    else contiguousLoop bs (zerosFound || decide (numBits < 8))

/-- The loop of `GetCIDRLength`: the mask bits of the bytes up to the first that has none or is
not a run of ones. -/
def cidrLoop : List UInt8 → ℕ
  | [] => 0
  | m :: ms =>
    let bits := netmaskBits m
    -- end of mask
    if bits ≤ 0 then 0 else bits.toNat + cidrLoop ms

/-- `pchSingleAddressNetmask`: all sixteen bytes set. -/
def pchSingleAddressNetmask : List UInt8 := List.replicate 16 0xFF

namespace CSubNet

/-- `CSubNet()`: invalid, with a zero netmask. -/
def default : CSubNet := ⟨CNetAddr.default, List.replicate 16 0, false, List.length_replicate⟩

theorem length_prefixMaskLoop_fst (bs : List UInt8) (n : ℕ) :
    (prefixMaskLoop bs n).1.length = bs.length := by
  induction bs generalizing n with
  | nil => rfl
  | cons b bs ih => simp [prefixMaskLoop, ih]

/-- `CSubNet(addr, uint8_t mask)`: the first `mask` bits of the address. -/
def ofMaskLength (addr : CNetAddr) (mask : UInt8) : CSubNet :=
  if (addr.isIPv4 && decide (mask.toNat ≤ addrIPv4Size * 8)) ||
      (addr.isIPv6 && decide (mask.toNat ≤ addrIPv6Size * 8)) then
    ⟨addr.withAddr (prefixMaskLoop addr.addr mask.toNat).1 (length_prefixMaskLoop_fst _ _),
      memcpyNetmask (prefixMaskLoop addr.addr mask.toNat).2, true, length_memcpyNetmask _⟩
  else default

/-- `CSubNet(addr, mask)` with a mask address of the same network. -/
def ofMask (addr mask : CNetAddr) : CSubNet :=
  if (addr.isIPv4 || addr.isIPv6) && addr.net == mask.net then
    -- Check if `mask` contains 1-bits after 0-bits (which is an invalid netmask).
    if contiguousLoop mask.addr false then
      let netmask := memcpyNetmask mask.addr
      -- Normalize network according to netmask
      ⟨addr.withAddr (addr.addr.mapIdx fun x b => b &&& netmask.getD x 0) List.length_mapIdx,
        netmask, true, length_memcpyNetmask _⟩
    else default
  else default

/-- `CSubNet(addr)`: the single address, with a netmask of all its bytes. -/
def ofAddr (addr : CNetAddr) : CSubNet :=
  if addr.isIPv4 || addr.isIPv6 then
    ⟨addr, memcpyNetmask (pchSingleAddressNetmask.take addr.addr.length), true,
      length_memcpyNetmask _⟩
  else default

/-- `Match`: the subnet and the address are valid, of one network, and the address under the
netmask is the network. The code asserts that the two addresses have one size. -/
def matchAddr (s : CSubNet) (addr : CNetAddr) : Bool :=
  if !s.valid || !addr.isValid || s.network.net != addr.net then false
  else List.zipWith (· &&& ·) addr.addr s.netmask == s.network.addr

/-- `GetCIDRLength`. -/
def getCIDRLength (s : CSubNet) : ℕ := cidrLoop (s.netmask.take s.network.addr.length)

/-- `SanityCheck`: an IPv4 or IPv6 network with no bit outside the netmask. -/
def sanityCheck (s : CSubNet) : Bool :=
  (s.network.isIPv4 || s.network.isIPv6) &&
    (List.zipWith (fun n m => n &&& ~~~m) s.network.addr s.netmask).all (· == 0)

/-- `Unserialize` into a default-constructed subnet: the network; for IPv4 twelve dummy bytes and
the first four netmask bytes, else all sixteen; the validity byte, then `SanityCheck`. -/
def unserialize : Reader CSubNet := do
  let network ← CNetAddr.unserializeV1
  let maskBytes ← (if network.isIPv4 then do
      let _dummy ← readBytes 12
      readBytes 4
    else readBytes 16)
  let f ← serReaddata8
  let s : CSubNet := ⟨network, memcpyNetmask maskBytes, f != 0, length_memcpyNetmask _⟩
  -- Mark invalid if the result doesn't pass sanity checking.
  pure (if s.valid then { s with valid := s.sanityCheck } else s)

end CSubNet

/-! ### Prefix masks -/

section PrefixMask

/-- The netmask bytes over `count` address bytes with the first `n` bits set, as the loop of
`CSubNet(addr, mask)` writes them. -/
def prefixMaskBytes : ℕ → ℕ → List UInt8
  | 0, _ => []
  | c + 1, n => maskByte (if n < 8 then n else 8) :: prefixMaskBytes c (n - if n < 8 then n else 8)

/-- The bytes are `L` one bits and then zero bits. -/
def IsPrefixMask (bytes : List UInt8) (L : ℕ) : Prop :=
  L ≤ 8 * bytes.length ∧
    bytesBits bytes = List.replicate L true ++ List.replicate (8 * bytes.length - L) false

instance (bytes : List UInt8) (L : ℕ) : Decidable (IsPrefixMask bytes L) :=
  inferInstanceAs (Decidable (_ ∧ _))

theorem prefixMaskBytes_succ (c n : ℕ) :
    prefixMaskBytes (c + 1) n = maskByte (min n 8) :: prefixMaskBytes c (n - min n 8) := by
  have h : (if n < 8 then n else 8) = min n 8 := by split_ifs <;> omega
  rw [prefixMaskBytes, h]

@[simp] theorem length_prefixMaskBytes (c n : ℕ) : (prefixMaskBytes c n).length = c := by
  induction c generalizing n with
  | zero => rfl
  | succ c ih => rw [prefixMaskBytes_succ, List.length_cons, ih]

/-- A mask byte of `k ≤ 8` bits: `NetmaskBits` reads `k` back, and its bits are `k` ones and then
zeros. -/
theorem maskByte_spec {k : ℕ} (hk : k ≤ 8) : netmaskBits (maskByte k) = k ∧
    bitsOf (maskByte k).toNat 8 = List.replicate k true ++ List.replicate (8 - k) false := by
  have h : ∀ k < 9, netmaskBits (maskByte k) = k ∧
      bitsOf (maskByte k).toNat 8 = List.replicate k true ++ List.replicate (8 - k) false := by
    decide
  exact h k (by omega)

theorem maskByte_inj {j k : ℕ} (hj : j ≤ 8) (hk : k ≤ 8) (h : maskByte j = maskByte k) :
    j = k := by
  have := (maskByte_spec hj).1
  rw [h, (maskByte_spec hk).1] at this
  omega

set_option maxRecDepth 4096 in
/-- Every byte is either refused by `NetmaskBits` or the mask byte of the bits it reads. -/
theorem netmaskBits_cases (b : UInt8) :
    netmaskBits b = -1 ∨ ∃ k : ℕ, k ≤ 8 ∧ netmaskBits b = k ∧ b = maskByte k := by
  cases b with | ofBitVec b => cases b with | ofFin b => revert b; decide

theorem bytesBits_prefixMaskBytes {c n : ℕ} (h : n ≤ 8 * c) :
    bytesBits (prefixMaskBytes c n) = List.replicate n true ++ List.replicate (8 * c - n) false := by
  induction c generalizing n with
  | zero =>
    obtain rfl : n = 0 := by omega
    rfl
  | succ c ih =>
    rw [prefixMaskBytes_succ, bytesBits_cons, (maskByte_spec (min_le_right n 8)).2, ih (by omega)]
    rcases Nat.lt_or_ge n 8 with hn | hn
    · -- the mask ends in this byte, and the later bytes are zero
      rw [min_eq_left hn.le, Nat.sub_self, List.replicate_zero, List.nil_append,
        List.append_assoc, List.replicate_append_replicate]
      congr 2
      omega
    · rw [min_eq_right hn, Nat.sub_self, List.replicate_zero, List.append_nil, ← List.append_assoc,
        List.replicate_append_replicate]
      congr 2 <;> omega

theorem isPrefixMask_prefixMaskBytes {c n : ℕ} (h : n ≤ 8 * c) :
    IsPrefixMask (prefixMaskBytes c n) n := by
  refine ⟨?_, ?_⟩
  · rwa [length_prefixMaskBytes]
  · rw [bytesBits_prefixMaskBytes h, length_prefixMaskBytes]

/-- A prefix mask is the one the loop of `CSubNet(addr, mask)` writes. -/
theorem eq_prefixMaskBytes_of_isPrefixMask {bytes : List UInt8} {L : ℕ} (h : IsPrefixMask bytes L) :
    bytes = prefixMaskBytes bytes.length L :=
  bytesBits_inj (by rw [h.2, bytesBits_prefixMaskBytes h.1])

theorem isPrefixMask_iff {bytes : List UInt8} {L : ℕ} :
    IsPrefixMask bytes L ↔ L ≤ 8 * bytes.length ∧ bytes = prefixMaskBytes bytes.length L := by
  constructor
  · intro h
    exact ⟨h.1, eq_prefixMaskBytes_of_isPrefixMask h⟩
  · rintro ⟨hL, h⟩
    have := isPrefixMask_prefixMaskBytes hL
    rwa [← h] at this

theorem prefixMaskBytes_zero (c : ℕ) : prefixMaskBytes c 0 = List.replicate c 0 := by
  induction c with
  | zero => rfl
  | succ c ih => rw [prefixMaskBytes_succ, Nat.zero_min, Nat.sub_zero, ih, List.replicate_succ]; rfl

theorem contiguousLoop_of_netmaskBits {b : UInt8} (h : netmaskBits b = -1) (bs : List UInt8)
    (zerosFound : Bool) : contiguousLoop (b :: bs) zerosFound = false := by
  simp [contiguousLoop, h]

theorem contiguousLoop_maskByte_cons {k : ℕ} (hk : k ≤ 8) (bs : List UInt8) (zerosFound : Bool) :
    contiguousLoop (maskByte k :: bs) zerosFound =
      if zerosFound = true ∧ k ≠ 0 then false else contiguousLoop bs (zerosFound || decide (k < 8)) := by
  have hk1 : (k : ℤ) ≠ -1 := by omega
  simp only [contiguousLoop, (maskByte_spec hk).1, hk1, false_or, ne_eq, Nat.cast_eq_zero,
    Nat.cast_lt_ofNat]

/-- Once a zero bit was found, the mask check passes the zero bytes only. -/
theorem contiguousLoop_true_iff (bs : List UInt8) :
    contiguousLoop bs true = true ↔ bs = prefixMaskBytes bs.length 0 := by
  rw [prefixMaskBytes_zero]
  induction bs with
  | nil => simp [contiguousLoop]
  | cons b bs ih =>
    rw [List.length_cons, List.replicate_succ, List.cons_eq_cons]
    rcases netmaskBits_cases b with hb | ⟨k, hk, -, rfl⟩
    · rw [contiguousLoop_of_netmaskBits hb]
      -- a refused byte is not the zero byte, which `NetmaskBits` reads as `0`
      have : b ≠ 0 := by
        rintro rfl
        exact absurd hb (by decide)
      simp [this]
    · have hk0 : maskByte k = 0 ↔ k = 0 :=
        ⟨fun h => maskByte_inj hk (Nat.zero_le 8) (h.trans rfl), by rintro rfl; rfl⟩
      rw [contiguousLoop_maskByte_cons hk, hk0, Bool.true_or, ← ih]
      by_cases h : k = 0 <;> simp [h]

/-- The mask check of `CSubNet(addr, mask)` passes exactly the prefix masks. -/
theorem contiguousLoop_false_iff (bs : List UInt8) :
    contiguousLoop bs false = true ↔ ∃ L, IsPrefixMask bs L := by
  simp only [isPrefixMask_iff]
  induction bs with
  | nil => exact ⟨fun _ => ⟨0, by simp, rfl⟩, fun _ => rfl⟩
  | cons b bs ih =>
    simp only [List.length_cons, prefixMaskBytes_succ, List.cons_eq_cons]
    rcases netmaskBits_cases b with hb | ⟨k, hk, -, rfl⟩
    · rw [contiguousLoop_of_netmaskBits hb]
      -- a refused byte is no mask byte
      refine ⟨(fun h => nomatch h), ?_⟩
      rintro ⟨L, -, rfl, -⟩
      exact absurd hb (by rw [(maskByte_spec (min_le_right L 8)).1]; omega)
    · rw [contiguousLoop_maskByte_cons hk, if_neg (by simp), Bool.false_or]
      rcases Nat.lt_or_ge k 8 with h8 | h8
      · -- a partial byte: the rest of the mask is zero bytes
        rw [decide_eq_true h8, contiguousLoop_true_iff]
        constructor
        · intro h
          exact ⟨k, by omega, by rw [min_eq_left h8.le], by rwa [min_eq_left h8.le, Nat.sub_self]⟩
        · rintro ⟨L, hL, hkL, h⟩
          have hLk : L = k := by
            have := maskByte_inj hk (min_le_right L 8) hkL
            omega
          rwa [hLk, min_eq_left h8.le, Nat.sub_self] at h
      · -- a full byte: the rest of the mask is a prefix mask of eight bits fewer
        rw [decide_eq_false (by omega), ih]
        obtain rfl : k = 8 := by omega
        constructor
        · rintro ⟨L, hL, h⟩
          exact ⟨L + 8, by omega, by rw [min_eq_right (by omega)], by rwa [min_eq_right (by omega),
            Nat.add_sub_cancel]⟩
        · rintro ⟨L, hL, hkL, h⟩
          have hL8 : min L 8 = 8 := (maskByte_inj le_rfl (min_le_right L 8) hkL).symm
          exact ⟨L - 8, by omega, by rwa [hL8] at h⟩

end PrefixMask

/-! ### A mask that is not a prefix -/

namespace CSubNet

/-- `Unserialize` accepts the IPv4 subnet `10.0.0.0` with the netmask `255.0.255.0`: it passes
`SanityCheck`, its CIDR length is `8`, and yet `10.0.5.1`, which agrees with it on the first eight
bits, does not match. -/
theorem unserialize_noncontiguous_netmask :
    ∃ (bytes : List UInt8) (s : CSubNet), unserialize.run bytes = .ok (s, []) ∧ s.valid = true ∧
      (∀ L, ¬IsPrefixMask (s.netmask.take s.network.addr.length) L) ∧
      ∃ a : CNetAddr, a.isValid = true ∧ a.net = s.network.net ∧
        (bytesBits a.addr).take s.getCIDRLength = (bytesBits s.network.addr).take s.getCIDRLength ∧
        s.matchAddr a = false := by
  refine ⟨ipv4InIPv6Prefix ++ [10, 0, 0, 0] ++ List.replicate 12 0 ++ [0xFF, 0, 0xFF, 0] ++ [1],
    ⟨⟨.ipv4, [10, 0, 0, 0], fun _ => rfl, fun h => by cases h⟩,
      [0xFF, 0, 0xFF, 0] ++ List.replicate 12 0, true, rfl⟩, rfl, rfl, ?_,
    ⟨.ipv4, [10, 0, 5, 1], fun _ => rfl, fun h => by cases h⟩, rfl, rfl, by decide, rfl⟩
  -- the mask check of `CSubNet(addr, mask)` would refuse this netmask
  intro L hL
  exact absurd ((contiguousLoop_false_iff _).mpr ⟨L, hL⟩) (by decide)

end CSubNet

end BitcoinCash
