import Mathlib
import BitcoinCash.Address.CashAddr
import BitcoinCash.Bytes.LittleEndian
import BitcoinCash.Util.ConvertBits

/-!
# Cash addresses

`cashaddrenc.cpp` writes the content of an address, a type and a hash, as a CashAddr string:
`PackAddrData` puts a version byte before the hash, with the type in its bits 3 to 6 and the size
of the hash in its low three bits, and regroups these bytes into 5-bit values with
`ConvertBits<8, 5, true>`; `cashaddr::Encode` writes them. `DecodeCashAddrContent` reads them back
with `cashaddr::Decode` and `ConvertBits<5, 8, false>`, checks the version byte and computes the
size of the hash from it by its own formula.

`PackAddrData` throws `std::runtime_error` for a hash of another size; the model returns the
message as an error. `cashaddr::Encode` has the `Option` of `CashAddr.encode`.
-/

namespace BitcoinCash

open CashAddr ConvertBits

/-- `CashAddrContent`; `CashAddrType` is an enumeration over `uint8_t`. -/
structure CashAddrContent where
  type : UInt8
  hash : List UInt8
  deriving DecidableEq, Repr

/-- The widths of `ConvertBits<8, 5, ...>`. -/
def bits85 : Widths := ⟨8, 5, by decide, by decide, by decide⟩

/-- The `switch (size * 8)` of `PackAddrData`: the size bits of the version byte. -/
def encodedSize : ℕ → Option UInt8
  | 160 => some 0
  | 192 => some 1
  | 224 => some 2
  | 256 => some 3
  | 320 => some 4
  | 384 => some 5
  | 448 => some 6
  | 512 => some 7
  | _ => none

/-- `PackAddrData`: the version byte and the hash, as 5-bit values. -/
def packAddrData (id : List UInt8) (type : UInt8) : Except String (List UInt8) :=
  match encodedSize (id.length * 8) with
  | none => .error "Error packing cashaddr: invalid address length"
  | some encodedSize =>
    let versionByte := (type <<< 3) ||| encodedSize
    .ok (convertBits bits85 true (versionByte :: id)).1

/-- `EncodeCashAddr(prefix, content)`. -/
def encodeCashAddr (pfx : List UInt8) (content : CashAddrContent) :
    Except String (Option (List UInt8)) :=
  (packAddrData content.hash content.type).map (CashAddr.encode pfx)

/-- The `hash_size` that `DecodeCashAddrContent` computes from the version byte. -/
def hashSize (version : UInt8) : ℕ :=
  let hashSize := 20 + 4 * (version &&& 0x03).toNat
  if version &&& 0x04 ≠ 0 then hashSize * 2 else hashSize

/-- `DecodeCashAddrContent`; `{}` is the content of type `0` and no hash. -/
def decodeCashAddrContent (addr expectedPrefix : List UInt8) : Option CashAddrContent := do
  let (pfx, payload) ← CashAddr.decode addr expectedPrefix
  if pfx ≠ expectedPrefix then return ⟨0, []⟩
  if payload.isEmpty then return ⟨0, []⟩
  let (data, ok) := convertBits bits85.swap false payload
  if !ok then return ⟨0, []⟩
  -- `data[0]` of an empty `data` is undefined
  let version ← data.head?
  -- the first bit is reserved
  if version &&& 0x80 ≠ 0 then return ⟨0, []⟩
  let type := (version >>> 3) &&& 0x1f
  if data.length ≠ hashSize version + 1 then return ⟨0, []⟩
  return ⟨type, data.tail⟩

/-! ### The version byte -/

/-- **The size table of `PackAddrData` and the size formula of `DecodeCashAddrContent` agree**: for
every type below `16` and every size of hash, the version byte reads back as that type and size,
with the reserved bit clear. -/
theorem version_table : ∀ t : ℕ, t < 16 → ∀ n ∈ [20, 24, 28, 32, 40, 48, 56, 64],
    (encodedSize (n * 8)).any (fun (e : UInt8) => (let v : UInt8 := (t.toUInt8 <<< 3) ||| e
      v &&& 0x80 == 0 && (v >>> 3) &&& 0x1f == t.toUInt8 && hashSize v == n)) = true := by
  decide

/-- Every version byte with the reserved bit clear is the one `PackAddrData` writes for the type
and the size `DecodeCashAddrContent` reads from it. -/
theorem version_inverse_table : ∀ n : ℕ, n < 128 → (let v : UInt8 := n.toUInt8
    (encodedSize (hashSize v * 8)).any fun (e : UInt8) => ((v >>> 3) &&& 0x1f) <<< 3 ||| e == v) =
      true := by
  decide

theorem version_spec {type : UInt8} (ht : type.toNat ≤ 15) {n : ℕ}
    (hn : n ∈ [20, 24, 28, 32, 40, 48, 56, 64]) :
    ∃ e, encodedSize (n * 8) = some e ∧ ((type <<< 3) ||| e) &&& 0x80 = 0 ∧
      (((type <<< 3) ||| e) >>> 3) &&& 0x1f = type ∧ hashSize ((type <<< 3) ||| e) = n := by
  have h := version_table type.toNat (by omega) n hn
  simp only [UInt8.ofNat_toNat] at h
  cases he : encodedSize (n * 8) with
  | none =>
    rw [he] at h
    contradiction
  | some e =>
    simp only [he, Option.any_some, Bool.and_eq_true, beq_iff_eq] at h
    exact ⟨e, rfl, h.1.1, h.1.2, h.2⟩

theorem version_inverse {v : UInt8} (hv : v &&& 0x80 = 0) :
    ∃ e, encodedSize (hashSize v * 8) = some e ∧ (((v >>> 3) &&& 0x1f) <<< 3) ||| e = v := by
  have h := version_inverse_table v.toNat ((Bytes.and_80_eq_zero_iff v).mp hv)
  simp only [UInt8.ofNat_toNat] at h
  cases he : encodedSize (hashSize v * 8) with
  | none =>
    rw [he] at h
    contradiction
  | some e =>
    simp only [he, Option.any_some, beq_iff_eq] at h
    exact ⟨e, rfl, h⟩

/-! ### Packing -/

theorem packAddrData_eq {hash : List UInt8} {e : UInt8}
    (he : encodedSize (hash.length * 8) = some e) (type : UInt8) :
    packAddrData hash type = .ok (convertBits bits85 true (((type <<< 3) ||| e) :: hash)).1 := by
  rw [packAddrData, he]

/-- The packed values: some 5-bit values, which `ConvertBits<5, 8, false>` reads back. -/
theorem packed_spec (v : UInt8) (hash : List UInt8) :
    (convertBits bits85 true (v :: hash)).1 ≠ [] ∧
      (∀ y ∈ (convertBits bits85 true (v :: hash)).1, y.toNat < 32) ∧
      convertBits bits85.swap false (convertBits bits85 true (v :: hash)).1 = (v :: hash, true) := by
  have hbytes : ∀ x ∈ v :: hash, x.toNat < 2 ^ bits85.frombits := fun x _ => x.toNat_lt
  obtain ⟨ys, p, hys, hys_lt, -, hlen, -⟩ := convertBits_true bits85 (by decide) hbytes
  rw [hys]
  refine ⟨fun h => ?_, hys_lt, ?_⟩
  · -- eight bits or more make at least one value
    have hnil : ys = [] := h
    rw [hnil, List.length_nil, List.length_cons] at hlen
    simp only [bits85] at hlen
    omega
  · rw [← convertBits_swap_convertBits bits85 (by decide) (by decide) hbytes, hys]

/-! ### Round trips -/

/-- **The content of an address round-trips** through `EncodeCashAddr` and
`DecodeCashAddrContent`, for a prefix of lower case letters. -/
theorem decodeCashAddrContent_encodeCashAddr {pfx : List UInt8} (hpfx : pfx ≠ [])
    (hlow : ∀ c ∈ pfx, isLower c = true) {type : UInt8} (ht : type.toNat ≤ 15) {hash : List UInt8}
    (hn : hash.length ∈ [20, 24, 28, 32, 40, 48, 56, 64]) :
    ∃ str, encodeCashAddr pfx ⟨type, hash⟩ = .ok (some str) ∧
      decodeCashAddrContent str pfx = some ⟨type, hash⟩ := by
  obtain ⟨e, he, h80, htype, hsize⟩ := version_spec ht hn
  obtain ⟨hne, hlt, hback⟩ := packed_spec ((type <<< 3) ||| e) hash
  have hpack := packAddrData_eq he type
  generalize (convertBits bits85 true (((type <<< 3) ||| e) :: hash)).1 = packed
    at hne hlt hback hpack
  refine ⟨pfx ++ [':'.toUInt8] ++ (packed ++ createChecksum pfx packed).map charsetAt, ?_, ?_⟩
  · rw [encodeCashAddr, hpack]
    exact congrArg Except.ok (encode_eq_some hlt)
  · rw [decodeCashAddrContent, (decode_encode hpfx hlow hlt pfx).1]
    simp [hne, hback, h80, htype, hsize]

/-- What `DecodeCashAddrContent` accepts: a `Decode` with the expected prefix and some values, which
convert back to bytes, the first of them a version byte with the reserved bit clear whose size is
that of the rest. Every rejection returns the content with no hash. -/
theorem decodeCashAddrContent_eq_some {str pfx : List UInt8} {c : CashAddrContent}
    (h : decodeCashAddrContent str pfx = some c) (hc : c.hash ≠ []) :
    ∃ payload v, CashAddr.decode str pfx = some (pfx, payload) ∧ payload ≠ [] ∧
      convertBits bits85.swap false payload = (v :: c.hash, true) ∧ v &&& 0x80 = 0 ∧
      c.type = (v >>> 3) &&& 0x1f ∧ c.hash.length = hashSize v := by
  have hrej : (pure ⟨0, []⟩ : Option CashAddrContent) ≠ some c := fun h =>
    hc (by rw [← Option.some.inj h])
  cases hd : CashAddr.decode str pfx with
  | none =>
    rw [decodeCashAddrContent, hd] at h
    contradiction
  | some r =>
    obtain ⟨p, payload⟩ := r
    rcases hconv : convertBits bits85.swap false payload with ⟨data, ok⟩
    rw [decodeCashAddrContent, hd] at h
    simp only [Option.bind_eq_bind, Option.bind_some, hconv] at h
    split_ifs at h with hp hempty hok
    · exact absurd h hrej
    · exact absurd h hrej
    · exact absurd h hrej
    cases data with
    | nil => contradiction
    | cons v rest =>
      simp only [List.head?_cons, Option.bind_some] at h
      split_ifs at h with h80 hlen
      · exact absurd h hrej
      · exact absurd h hrej
      · -- the accepted content
        cases Option.some.inj h
        simp only [Bool.not_eq_true', Bool.not_eq_false] at hok
        simp only [ne_eq, not_not, List.isEmpty_iff] at hp hempty h80 hlen
        subst hp hok
        refine ⟨payload, v, rfl, hempty, hconv, h80, rfl, ?_⟩
        rw [List.length_cons] at hlen
        simp only [List.tail_cons]
        omega

/-- **An address that decodes is the one `EncodeCashAddr` writes for its content**, in lower
case, and after the expected prefix and the separator where it had no prefix: the padding bits
of the hash are zero. -/
theorem encodeCashAddr_of_decodeCashAddrContent {str pfx : List UInt8} {c : CashAddrContent}
    (h : decodeCashAddrContent str pfx = some c) (hc : c.hash ≠ []) :
    (':'.toUInt8 ∈ str → encodeCashAddr pfx c = .ok (some (str.map toLower))) ∧
      (':'.toUInt8 ∉ str →
        encodeCashAddr pfx c = .ok (some (pfx ++ [':'.toUInt8] ++ str.map toLower))) := by
  obtain ⟨payload, v, hd, hpay, hconv, h80, htype, hlen⟩ := decodeCashAddrContent_eq_some h hc
  have hne : (pfx, payload) ≠ ([], []) := fun h => hpay (congrArg Prod.snd h)
  -- the version byte is the one `PackAddrData` writes for this type and size
  obtain ⟨e, he, hv⟩ := version_inverse h80
  rw [← hlen] at he
  have hpack : packAddrData c.hash c.type = .ok payload := by
    rw [packAddrData_eq he, htype, hv,
      convertBits_of_convertBits_swap bits85 (by decide) (by decide) (decode_values_lt hd hne)
        hconv]
  obtain ⟨hsep, hnosep⟩ := encode_of_decode hd hne
  rw [encodeCashAddr, hpack]
  exact ⟨fun hm => congrArg Except.ok (hsep hm), fun hm => congrArg Except.ok (hnosep hm)⟩

/-- Contents round-trip through addresses with a prefix of lower case letters, and an address
that decodes is the one written for its content, up to case and an omitted prefix. -/
theorem cashAddrContent_roundtrip :
    (∀ (pfx : List UInt8) (type : UInt8) (hash : List UInt8), pfx ≠ [] →
      (∀ c ∈ pfx, isLower c = true) → type.toNat ≤ 15 →
      hash.length ∈ [20, 24, 28, 32, 40, 48, 56, 64] →
      ∃ str, encodeCashAddr pfx ⟨type, hash⟩ = .ok (some str) ∧
        decodeCashAddrContent str pfx = some ⟨type, hash⟩) ∧
    (∀ (str pfx : List UInt8) (c : CashAddrContent), decodeCashAddrContent str pfx = some c →
      c.hash ≠ [] →
      (':'.toUInt8 ∈ str → encodeCashAddr pfx c = .ok (some (str.map toLower))) ∧
      (':'.toUInt8 ∉ str →
        encodeCashAddr pfx c = .ok (some (pfx ++ [':'.toUInt8] ++ str.map toLower)))) :=
  ⟨fun _ _ _ hpfx hlow ht hn => decodeCashAddrContent_encodeCashAddr hpfx hlow ht hn,
    fun _ _ _ h hc => encodeCashAddr_of_decodeCashAddrContent h hc⟩

set_option maxRecDepth 20000 in
/-- The P2PKH address `bitcoincash:qpm2qsznhks23z7629mms6s4cwef74vcwvy22gdx6a` and its hash. -/
theorem cashAddrContent_roundtrip_p2pkh :
    (∃ str, encodeCashAddr ("bitcoincash".toList.map Char.toUInt8)
        ⟨0, [118, 160, 64, 83, 189, 160, 168, 139, 218, 81, 119, 184, 106, 21, 195, 178, 159, 85,
          152, 115]⟩ = .ok (some str) ∧
      decodeCashAddrContent str ("bitcoincash".toList.map Char.toUInt8) =
        some ⟨0, [118, 160, 64, 83, 189, 160, 168, 139, 218, 81, 119, 184, 106, 21, 195, 178, 159,
          85, 152, 115]⟩) ∧
    (':'.toUInt8 ∈ "bitcoincash:qpm2qsznhks23z7629mms6s4cwef74vcwvy22gdx6a".toList.map Char.toUInt8 →
      encodeCashAddr ("bitcoincash".toList.map Char.toUInt8)
        ⟨0, [118, 160, 64, 83, 189, 160, 168, 139, 218, 81, 119, 184, 106, 21, 195, 178, 159, 85,
          152, 115]⟩ =
        .ok (some (("bitcoincash:qpm2qsznhks23z7629mms6s4cwef74vcwvy22gdx6a".toList.map
          Char.toUInt8).map toLower))) :=
  ⟨cashAddrContent_roundtrip.1 _ _ _ (by decide) (by decide) (by decide) (by decide),
    (cashAddrContent_roundtrip.2 _ _ _ (by decide +kernel) (by decide)).1⟩

/-- With the empty prefix the string starts with the separator, which `Decode` rejects: the
content does not come back. -/
theorem encodeCashAddr_empty_prefix :
    encodeCashAddr [] ⟨0, List.replicate 20 0⟩ =
        .ok (some (":qqqqqqqqqqqqqqqqqqqqqqqqqqqqqqqqqqne5u5sf9".toList.map Char.toUInt8)) ∧
      decodeCashAddrContent (":qqqqqqqqqqqqqqqqqqqqqqqqqqqqqqqqqqne5u5sf9".toList.map Char.toUInt8)
        [] = some ⟨0, []⟩ :=
  ⟨by decide +kernel, by decide +kernel⟩

end BitcoinCash
