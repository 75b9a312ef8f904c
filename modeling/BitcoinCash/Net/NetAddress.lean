import BitcoinCash.Serialize.Stream

/-!
# Network addresses

A `CNetAddr` of `netaddress.h` is a network and the bytes of an address in it: four for IPv4,
sixteen for IPv6, and other sizes for the overlay networks and the internal addresses. Every way
the code builds an address keeps the first two sizes, and the structure here carries them.

In the address format of before BIP155, an address is sixteen bytes, IPv6 or IPv6 with a prefix
that embeds an address of another network (`SetLegacyIPv6`).
-/

namespace BitcoinCash

/-- `enum Network`. -/
inductive Network where
  | unroutable
  | ipv4
  | ipv6
  | onion
  | i2p
  | cjdns
  | internal
  deriving DecidableEq, Repr

/-- `ADDR_IPV4_SIZE`. -/
def addrIPv4Size : ℕ := 4

/-- `ADDR_IPV6_SIZE`. -/
def addrIPv6Size : ℕ := 16

/-- `IPV4_IN_IPV6_PREFIX`. -/
def ipv4InIPv6Prefix : List UInt8 := [0x00, 0x00, 0x00, 0x00, 0x00, 0x00, 0x00, 0x00, 0x00, 0x00,
  0xFF, 0xFF]

/-- `TORV2_IN_IPV6_PREFIX`. -/
def torv2InIPv6Prefix : List UInt8 := [0xFD, 0x87, 0xD8, 0x7E, 0xEB, 0x43]

/-- `INTERNAL_IN_IPV6_PREFIX`. -/
def internalInIPv6Prefix : List UInt8 := [0xFD, 0x6B, 0x88, 0xC0, 0x87, 0x24]

/-- `HasPrefix`: the object is at least as long as the prefix and starts with it. -/
def hasPrefix (obj pre : List UInt8) : Bool := pre.isPrefixOf obj

/-- `CNetAddr`: the network `m_net` and the address bytes `m_addr`. -/
@[ext]
structure CNetAddr where
  net : Network
  addr : List UInt8
  length_ipv4 : net = .ipv4 → addr.length = addrIPv4Size
  length_ipv6 : net = .ipv6 → addr.length = addrIPv6Size

namespace CNetAddr

/-- `CNetAddr()`: the unspecified IPv6 address `::`. -/
def default : CNetAddr :=
  ⟨.ipv6, List.replicate addrIPv6Size 0, (fun h => nomatch h), fun _ => List.length_replicate⟩

/-- `IsIPv4`. -/
def isIPv4 (a : CNetAddr) : Bool := a.net == .ipv4

/-- `IsIPv6`. -/
def isIPv6 (a : CNetAddr) : Bool := a.net == .ipv6

/-- `IsInternal`. -/
def isInternal (a : CNetAddr) : Bool := a.net == .internal

/-- `IsRFC3849`: the IPv6 documentation prefix `2001:0DB8::/32`. -/
def isRFC3849 (a : CNetAddr) : Bool := a.isIPv6 && hasPrefix a.addr [0x20, 0x01, 0x0D, 0xB8]

/-- `ReadBE32`: the big-endian value of the first four bytes. -/
def readBE32 (bytes : List UInt8) : ℕ := (bytes.take 4).foldl (fun n b => 256 * n + b.toNat) 0

/-- `INADDR_ANY`. -/
def inaddrAny : ℕ := 0

/-- `INADDR_NONE`. -/
def inaddrNone : ℕ := 0xFFFFFFFF

/-- `IsValid`. -/
def isValid (a : CNetAddr) : Bool :=
  -- unspecified IPv6 address (::/128)
  if a.isIPv6 && a.addr == List.replicate addrIPv6Size 0 then false
  -- documentation IPv6 address
  else if a.isRFC3849 then false
  else if a.isInternal then false
  else if a.isIPv4 && (readBE32 a.addr == inaddrAny || readBE32 a.addr == inaddrNone) then false
  else true

/-- The address with its bytes replaced by as many others, as the code's writes to `m_addr[i]`
leave it. -/
def withAddr (a : CNetAddr) (bytes : List UInt8) (h : bytes.length = a.addr.length) : CNetAddr :=
  ⟨a.net, bytes, fun hn => h.trans (a.length_ipv4 hn), fun hn => h.trans (a.length_ipv6 hn)⟩

/-- `SetLegacyIPv6` on sixteen bytes: an embedded IPv4, TORv2 or internal address loses its
prefix. -/
def setLegacyIPv6 (ipv6 : List UInt8) (h : ipv6.length = addrIPv6Size) : CNetAddr :=
  if hasPrefix ipv6 ipv4InIPv6Prefix then
    -- IPv4-in-IPv6
    ⟨.ipv4, ipv6.drop ipv4InIPv6Prefix.length, fun _ => by
      rw [List.length_drop, h]
      rfl, (fun h => nomatch h)⟩
  else if hasPrefix ipv6 torv2InIPv6Prefix then
    -- TORv2-in-IPv6
    ⟨.onion, ipv6.drop torv2InIPv6Prefix.length, (fun h => nomatch h), (fun h => nomatch h)⟩
  else if hasPrefix ipv6 internalInIPv6Prefix then
    -- Internal-in-IPv6
    ⟨.internal, ipv6.drop internalInIPv6Prefix.length, (fun h => nomatch h),
      (fun h => nomatch h)⟩
  else
    -- IPv6
    ⟨.ipv6, ipv6, (fun h => nomatch h), fun _ => h⟩

/-- `UnserializeV1Stream`: sixteen bytes, through `SetLegacyIPv6`. -/
def unserializeV1 : Reader CNetAddr := do
  let serialized ← readBytes addrIPv6Size
  if h : serialized.length = addrIPv6Size then pure (setLegacyIPv6 serialized h)
  else throw endOfData

end CNetAddr

end BitcoinCash
