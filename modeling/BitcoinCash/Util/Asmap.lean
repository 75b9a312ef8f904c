import Mathlib
import BitcoinCash.Control.WhileLoop

/-!
# The asmap interpreter and its sanity check

An asmap maps the bits of an IP address to an AS number. It is a program over a bit vector:
each instruction starts with a prefix-coded type (`RETURN`, `JUMP`, `MATCH`, `DEFAULT`) followed
by a prefix-coded argument, read by `DecodeBits` (`decodeBits`). `Interpret` (`interpret`) runs
the program on the bits of one address; it reaches an `assert(false)` when it runs off the map
or when an instruction cannot be executed. `SanityCheckASMap` (`sanityCheckASMap`) walks the
program once, in order, keeping a stack of the jump targets still to come with the number of
input bits left there, and accepts only programs that `Interpret` should run safely.

Both loops are `WhileLoop`s: each iteration decodes one instruction and goes on from a position
after it, so both end. The C++ iterators become positions in `asmap`; the checker's `offset`s and
jump targets are `uint32_t`, reduced `% 2 ^ 32` here.
-/

namespace BitcoinCash.Asmap

open WhileLoop

/-! ### Decoding -/

/-- `INVALID`: what a decoder returns when the map ends inside an encoding. -/
def INVALID : ℕ := 0xFFFFFFFF

/-- The mantissa loop of `DecodeBits`: `k` more bits, most significant first, added to `val`.
The result is the value and the position after the bits read. -/
def decodeMantissa (asmap : List Bool) (pos val : ℕ) : ℕ → ℕ × ℕ
  | 0 => (val, pos)
  | k + 1 =>
    match asmap[pos]? with
    | none => (INVALID, pos)  -- reached EOF in mantissa
    | some bit => decodeMantissa asmap (pos + 1) (val + (bit.toNat <<< k)) k

/-- `DecodeBits` from `val = minval`: an exponent in unary, one bit per class of `sizes` but the
last, then a mantissa of the chosen class's size. -/
def decodeBits (asmap : List Bool) (pos val : ℕ) : List ℕ → ℕ × ℕ
  | [] => (INVALID, pos)
  -- the last class is chosen without reading a bit
  | [size] => decodeMantissa asmap pos val size
  | size :: sizes@(_ :: _) =>
    match asmap[pos]? with
    | none => (INVALID, pos)  -- reached EOF in exponent
    | some true => decodeBits asmap (pos + 1) (val + (1 <<< size)) sizes
    | some false => decodeMantissa asmap (pos + 1) val size

/-- The instructions of an asmap. -/
inductive Instruction
  | RETURN
  | JUMP
  | MATCH
  | DEFAULT
  deriving DecidableEq, Repr

/-- `Instruction(val)`; `none` for a value outside the enumeration, which only `INVALID` is. -/
def Instruction.ofNat? : ℕ → Option Instruction
  | 0 => some .RETURN
  | 1 => some .JUMP
  | 2 => some .MATCH
  | 3 => some .DEFAULT
  | _ => none

theorem Instruction.ofNat?_INVALID : Instruction.ofNat? INVALID = none := rfl

def TYPE_BIT_SIZES : List ℕ := [0, 0, 1]

def ASN_BIT_SIZES : List ℕ := [15, 16, 17, 18, 19, 20, 21, 22, 23, 24]

def MATCH_BIT_SIZES : List ℕ := [1, 2, 3, 4, 5, 6, 7, 8]

def JUMP_BIT_SIZES : List ℕ :=
  [5, 6, 7, 8, 9, 10, 11, 12, 13, 14, 15, 16, 17, 18, 19, 20, 21, 22, 23, 24, 25, 26, 27, 28, 29,
    30]

def decodeType (asmap : List Bool) (pos : ℕ) : Option Instruction × ℕ :=
  let (val, pos) := decodeBits asmap pos 0 TYPE_BIT_SIZES
  (Instruction.ofNat? val, pos)

def decodeASN (asmap : List Bool) (pos : ℕ) : ℕ × ℕ := decodeBits asmap pos 1 ASN_BIT_SIZES

def decodeMatch (asmap : List Bool) (pos : ℕ) : ℕ × ℕ := decodeBits asmap pos 2 MATCH_BIT_SIZES

def decodeJump (asmap : List Bool) (pos : ℕ) : ℕ × ℕ := decodeBits asmap pos 17 JUMP_BIT_SIZES

/-- `CountBits` of `crypto/common.h`: the least `n` with `x >> n = 0`. -/
def countBits (x : ℕ) : ℕ := x.size

section Decoding

variable {asmap : List Bool}

/-- A decoder moves forward and stays within the map. -/
theorem decodeMantissa_pos {pos : ℕ} (hpos : pos ≤ asmap.length) (val k : ℕ) :
    pos ≤ (decodeMantissa asmap pos val k).2 ∧ (decodeMantissa asmap pos val k).2 ≤ asmap.length := by
  induction k generalizing pos val with
  | zero => exact ⟨Nat.le_refl _, hpos⟩
  | succ k ih =>
    cases hbit : asmap[pos]? with
    | none =>
      simp only [decodeMantissa, hbit]
      exact ⟨Nat.le_refl _, hpos⟩
    | some bit =>
      simp only [decodeMantissa, hbit]
      have hlt : pos + 1 ≤ asmap.length := (List.getElem?_eq_some_iff.mp hbit).1
      obtain ⟨h1, h2⟩ := ih hlt (val + (bit.toNat <<< k))
      exact ⟨by omega, h2⟩

theorem decodeBits_pos {pos : ℕ} (hpos : pos ≤ asmap.length) (val : ℕ) (sizes : List ℕ) :
    pos ≤ (decodeBits asmap pos val sizes).2 ∧ (decodeBits asmap pos val sizes).2 ≤ asmap.length := by
  induction sizes generalizing pos val with
  | nil =>
    rw [decodeBits]
    exact ⟨Nat.le_refl _, hpos⟩
  | cons size sizes ih =>
    cases sizes with
    | nil =>
      rw [decodeBits]
      exact decodeMantissa_pos hpos val size
    | cons size' sizes =>
      cases hbit : asmap[pos]? with
      | none =>
        simp only [decodeBits, hbit]
        exact ⟨Nat.le_refl _, hpos⟩
      | some bit =>
        have hlt : pos + 1 ≤ asmap.length := (List.getElem?_eq_some_iff.mp hbit).1
        cases bit with
        | true =>
          simp only [decodeBits, hbit]
          obtain ⟨h1, h2⟩ := ih hlt (val + (1 <<< size))
          exact ⟨by omega, h2⟩
        | false =>
          simp only [decodeBits, hbit]
          obtain ⟨h1, h2⟩ := decodeMantissa_pos hlt val size
          exact ⟨by omega, h2⟩

/-- A decoder with at least two classes reads its first bit, or fails at the end of the map. -/
theorem decodeBits_cons_cons {pos : ℕ} (val size size' : ℕ) (sizes : List ℕ) :
    (asmap.length ≤ pos ∧ decodeBits asmap pos val (size :: size' :: sizes) = (INVALID, pos)) ∨
      (pos < asmap.length ∧ pos < (decodeBits asmap pos val (size :: size' :: sizes)).2 ∧
        (decodeBits asmap pos val (size :: size' :: sizes)).2 ≤ asmap.length) := by
  cases hbit : asmap[pos]? with
  | none =>
    simp only [decodeBits, hbit]
    exact .inl ⟨List.getElem?_eq_none_iff.mp hbit, trivial⟩
  | some bit =>
    have hlt : pos + 1 ≤ asmap.length := (List.getElem?_eq_some_iff.mp hbit).1
    refine .inr ⟨hlt, ?_⟩
    cases bit with
    | true =>
      simp only [decodeBits, hbit]
      obtain ⟨h1, h2⟩ := decodeBits_pos hlt (val + (1 <<< size)) (size' :: sizes)
      exact ⟨by omega, h2⟩
    | false =>
      simp only [decodeBits, hbit]
      obtain ⟨h1, h2⟩ := decodeMantissa_pos hlt val size
      exact ⟨by omega, h2⟩

/-- An instruction type is decoded only inside the map, and reading it moves forward. -/
theorem decodeType_pos {pos pos' : ℕ} {op : Instruction}
    (h : decodeType asmap pos = (some op, pos')) : pos < pos' ∧ pos' ≤ asmap.length := by
  rcases @decodeBits_cons_cons asmap pos 0 0 0 [1] with ⟨-, heq⟩ | ⟨-, h1, h2⟩
  · rw [decodeType, TYPE_BIT_SIZES, heq] at h
    dsimp only at h
    rw [Instruction.ofNat?_INVALID] at h
    cases h
  · rw [decodeType, TYPE_BIT_SIZES, Prod.mk.injEq] at h
    rw [← h.2]
    exact ⟨h1, h2⟩

theorem decodeASN_pos {pos pos' v : ℕ} (hpos : pos ≤ asmap.length)
    (h : decodeASN asmap pos = (v, pos')) : pos ≤ pos' ∧ pos' ≤ asmap.length := by
  have hb := decodeBits_pos hpos 1 ASN_BIT_SIZES
  rwa [← decodeASN, h] at hb

theorem decodeMatch_pos {pos pos' v : ℕ} (hpos : pos ≤ asmap.length)
    (h : decodeMatch asmap pos = (v, pos')) : pos ≤ pos' ∧ pos' ≤ asmap.length := by
  have hb := decodeBits_pos hpos 2 MATCH_BIT_SIZES
  rwa [← decodeMatch, h] at hb

theorem decodeJump_pos {pos pos' v : ℕ} (hpos : pos ≤ asmap.length)
    (h : decodeJump asmap pos = (v, pos')) : pos ≤ pos' ∧ pos' ≤ asmap.length := by
  have hb := decodeBits_pos hpos 17 JUMP_BIT_SIZES
  rwa [← decodeJump, h] at hb

end Decoding

/-! ### `Interpret` -/

/-- The ways a run of `Interpret` fails instead of returning an AS number. -/
inductive Fault
  /-- the loop is left, by a `break` or at the end of the map, into `assert(false)` -/
  | assertFalse
  /-- `ip` is read outside `[0, ip.size())` -/
  | ipOutOfRange
  deriving DecidableEq, Repr

/-- The local state of `Interpret` at the top of its loop. -/
structure InterpretState where
  pos : ℕ
  bits : ℕ
  defaultAsn : ℕ

/-- The `for` loop of a `MATCH`: compares the next `k` input bits, read at
`ip.size() - bits`, with the bits of `match` below bit `k`, most significant first. `none` is a
mismatch (`return default_asn`); otherwise the bits left. -/
def matchBits (ip : List Bool) (match_ : ℕ) : ℕ → ℕ → Except Fault (Option ℕ)
  | 0, bits => .ok (some bits)
  | k + 1, bits =>
    match ip[ip.length - bits]? with
    | none => .error .ipOutOfRange
    | some bit =>
      if bit.toNat ≠ (match_ >>> k) &&& 1 then .ok none else matchBits ip match_ k (bits - 1)

/-- A `MATCH` that goes on has used up the bits it compared. -/
theorem matchBits_eq_ok_some {ip : List Bool} {m k bits b : ℕ}
    (h : matchBits ip m k bits = .ok (some b)) : b = bits - k := by
  induction k generalizing bits with
  | zero => rw [matchBits] at h; cases h; rfl
  | succ k ih =>
    rw [matchBits] at h
    cases hbit : ip[ip.length - bits]? with
    | none => rw [hbit] at h; cases h
    | some bit =>
      rw [hbit] at h
      dsimp only at h
      by_cases hne : bit.toNat ≠ (m >>> k) &&& 1
      · rw [if_pos hne] at h
        cases h
      · rw [if_neg hne] at h
        rw [ih h]
        omega

/-- One iteration of the loop of `Interpret`. -/
def interpretStep (asmap ip : List Bool) (s : InterpretState) :
    Step InterpretState (Except Fault ℕ) :=
  -- `while (pos != endpos)`; after the loop, `assert(false)`
  if s.pos = asmap.length then .stop (.error .assertFalse)
  else
    match decodeType asmap s.pos with
    | (some .RETURN, pos) =>
      let (asn, _) := decodeASN asmap pos
      if asn = INVALID then .stop (.error .assertFalse) else .stop (.ok asn)
    | (some .JUMP, pos) =>
      let (jump, pos) := decodeJump asmap pos
      if jump = INVALID then .stop (.error .assertFalse)
      else if s.bits = 0 then .stop (.error .assertFalse)
      else if jump ≥ asmap.length - pos then .stop (.error .assertFalse)
      else
        match ip[ip.length - s.bits]? with
        | none => .stop (.error .ipOutOfRange)
        | some bit => .next { s with pos := if bit then pos + jump else pos, bits := s.bits - 1 }
    | (some .MATCH, pos) =>
      let (match_, pos) := decodeMatch asmap pos
      if match_ = INVALID then .stop (.error .assertFalse)
      else
        let matchlen := countBits match_ - 1
        if s.bits < matchlen then .stop (.error .assertFalse)
        else
          match matchBits ip match_ matchlen s.bits with
          | .error e => .stop (.error e)
          | .ok none => .stop (.ok s.defaultAsn)
          | .ok (some bits) => .next { s with pos, bits }
    | (some .DEFAULT, pos) =>
      let (asn, pos) := decodeASN asmap pos
      if asn = INVALID then .stop (.error .assertFalse) else .next { s with pos, defaultAsn := asn }
    | (none, _) => .stop (.error .assertFalse)

section Interpret

variable {asmap ip : List Bool}

/-- Everything an iteration of `Interpret` that goes on can do: it starts inside the map,
moves forward, stays inside the map, and uses up input bits. -/
theorem interpretStep_eq_next {s s' : InterpretState} (h : interpretStep asmap ip s = .next s') :
    s.pos < s'.pos ∧ s'.pos ≤ asmap.length ∧ s'.bits ≤ s.bits := by
  by_cases hend : s.pos = asmap.length
  · rw [interpretStep, if_pos hend] at h
    cases h
  rw [interpretStep, if_neg hend] at h
  rcases hd : decodeType asmap s.pos with ⟨op, p1⟩
  rw [hd] at h
  cases op with
  | none => cases h
  | some op =>
    obtain ⟨hp1, hp1len⟩ := decodeType_pos hd
    cases op with
    | RETURN =>
      dsimp only at h
      split_ifs at h
    | JUMP =>
      rcases hj : decodeJump asmap p1 with ⟨jump, p2⟩
      obtain ⟨hp2, hp2len⟩ := decodeJump_pos hp1len hj
      simp only [hj] at h
      split_ifs at h with hinv hzero hfar
      cases hbit : ip[ip.length - s.bits]? with
      | none => rw [hbit] at h; cases h
      | some bit =>
        rw [hbit] at h
        cases h
        cases bit
        · rw [if_neg Bool.false_ne_true]
          dsimp only
          exact ⟨by omega, hp2len, by omega⟩
        · rw [if_pos rfl]
          dsimp only
          exact ⟨by omega, by omega, by omega⟩
    | MATCH =>
      rcases hm : decodeMatch asmap p1 with ⟨m, p2⟩
      obtain ⟨hp2, hp2len⟩ := decodeMatch_pos hp1len hm
      simp only [hm] at h
      split_ifs at h with hinv hfew
      cases hmb : matchBits ip m (countBits m - 1) s.bits with
      | error e => rw [hmb] at h; cases h
      | ok r =>
        rw [hmb] at h
        cases r with
        | none => cases h
        | some b =>
          cases h
          have hb := matchBits_eq_ok_some hmb
          dsimp only
          exact ⟨by omega, hp2len, by omega⟩
    | DEFAULT =>
      rcases ha : decodeASN asmap p1 with ⟨asn, p2⟩
      obtain ⟨hp2, hp2len⟩ := decodeASN_pos hp1len ha
      dsimp only at h
      rw [ha] at h
      dsimp only at h
      split_ifs at h with hinv
      cases h
      dsimp only
      exact ⟨by omega, hp2len, Nat.le_refl _⟩

/-- A `MATCH` within the input either fails to match or uses up the bits it compares. -/
theorem matchBits_of_le {m k bits : ℕ} (hk : k ≤ bits) (hbits : bits ≤ ip.length) :
    matchBits ip m k bits = .ok none ∨ matchBits ip m k bits = .ok (some (bits - k)) := by
  induction k generalizing bits with
  | zero => exact .inr (by rw [matchBits, Nat.sub_zero])
  | succ k ih =>
    have hlt : ip.length - bits < ip.length := by omega
    rw [matchBits, List.getElem?_eq_getElem hlt]
    dsimp only
    by_cases hne : (ip[ip.length - bits]).toNat ≠ (m >>> k) &&& 1
    · exact .inl (if_pos hne)
    · have hrest : bits - (k + 1) = bits - 1 - k := by omega
      rw [if_neg hne, hrest]
      exact @ih (bits - 1) (by omega) (by omega)

/-! The four instructions, as `Interpret` executes them when nothing breaks. -/

section Branches

variable {s : InterpretState} {p1 p2 : ℕ} (hend : s.pos ≠ asmap.length)
include hend

theorem interpretStep_of_return {asn : ℕ} (hd : decodeType asmap s.pos = (some .RETURN, p1))
    (ha : decodeASN asmap p1 = (asn, p2)) (hasn : asn ≠ INVALID) :
    interpretStep asmap ip s = .stop (.ok asn) := by
  rw [interpretStep, if_neg hend, hd]
  simp only [ha]
  rw [if_neg hasn]

theorem interpretStep_of_jump {jump : ℕ} {bit : Bool}
    (hd : decodeType asmap s.pos = (some .JUMP, p1)) (hj : decodeJump asmap p1 = (jump, p2))
    (hjump : jump ≠ INVALID) (hbits : s.bits ≠ 0) (hrange : jump < asmap.length - p2)
    (hbit : ip[ip.length - s.bits]? = some bit) :
    interpretStep asmap ip s =
      .next { s with pos := if bit then p2 + jump else p2, bits := s.bits - 1 } := by
  rw [interpretStep, if_neg hend, hd]
  simp only [hj]
  rw [if_neg hjump, if_neg hbits, if_neg (Nat.not_le.mpr hrange), hbit]

theorem interpretStep_of_match {m : ℕ} (hd : decodeType asmap s.pos = (some .MATCH, p1))
    (hm : decodeMatch asmap p1 = (m, p2)) (hmatch : m ≠ INVALID)
    (hbits : countBits m - 1 ≤ s.bits) (hip : s.bits ≤ ip.length) :
    interpretStep asmap ip s = .stop (.ok s.defaultAsn) ∨
      interpretStep asmap ip s = .next { s with pos := p2, bits := s.bits - (countBits m - 1) } := by
  rw [interpretStep, if_neg hend, hd]
  simp only [hm]
  rw [if_neg hmatch, if_neg (Nat.not_lt.mpr hbits)]
  rcases matchBits_of_le (m := m) hbits hip with hmb | hmb
  · exact .inl (by rw [hmb])
  · exact .inr (by rw [hmb])

theorem interpretStep_of_default {asn : ℕ} (hd : decodeType asmap s.pos = (some .DEFAULT, p1))
    (ha : decodeASN asmap p1 = (asn, p2)) (hasn : asn ≠ INVALID) :
    interpretStep asmap ip s = .next { s with pos := p2, defaultAsn := asn } := by
  rw [interpretStep, if_neg hend, hd]
  simp only [ha]
  rw [if_neg hasn]

end Branches

variable (asmap ip) in
/-- The loop of `Interpret`; each iteration moves forward in the map. -/
def interpretLoop : WhileLoop InterpretState (Except Fault ℕ) where
  step := interpretStep asmap ip
  measure s := asmap.length - s.pos
  decreases h := by
    obtain ⟨hlt, hle, -⟩ := interpretStep_eq_next h
    omega

theorem interpretLoop_step : (interpretLoop asmap ip).step = interpretStep asmap ip := rfl

/-- The state on entry to the loop: `bits` is `ip.size()` stored in a `uint8_t`. -/
def interpretInit (ip : List Bool) : InterpretState :=
  { pos := 0, bits := ip.length % 256, defaultAsn := 0 }

/-- `Interpret(asmap, ip)`. -/
def interpret (asmap ip : List Bool) : Except Fault ℕ :=
  (interpretLoop asmap ip).run (interpretInit ip)

/-- Every state of a run of `Interpret` is inside the map, with no more input bits left than
`ip` has. -/
theorem pos_le_of_interpretReaches {s : InterpretState}
    (h : (interpretLoop asmap ip).Reaches (interpretInit ip) s) :
    s.pos ≤ asmap.length ∧ s.bits ≤ ip.length := by
  refine Reaches.invariant (fun s => s.pos ≤ asmap.length ∧ s.bits ≤ ip.length) ?_ h
    ⟨Nat.zero_le _, Nat.mod_le _ _⟩
  rintro s s' ⟨-, hbits⟩ hstep
  obtain ⟨-, hle, hdec⟩ := interpretStep_eq_next hstep
  exact ⟨hle, by omega⟩

end Interpret

/-! ### `SanityCheckASMap` -/

/-- The local state of `SanityCheckASMap` at the top of its loop. `jumps` is the stack of pending
jump targets, with `jumps.back()` at its head: each a `uint32_t` offset into the map and the
number of input bits left there. -/
structure SanityState where
  pos : ℕ
  bits : ℕ
  jumps : List (ℕ × ℕ)
  prevopcode : Instruction
  hadIncompleteMatch : Bool

/-- `!jumps.empty() && offset >= jumps.back().first`: `offset` is at or past the nearest pending
jump target. -/
def pastJump (jumps : List (ℕ × ℕ)) (offset : ℕ) : Bool :=
  match jumps with
  | [] => false
  | (target, _) :: _ => decide (target ≤ offset)

/-- One iteration of the loop of `SanityCheckASMap`. -/
def sanityStep (asmap : List Bool) (s : SanityState) : Step SanityState Bool :=
  -- `while (pos != endpos)`; after the loop, reached EOF without RETURN instruction
  if s.pos = asmap.length then .stop false
  -- there was a jump into the middle of the previous instruction
  else if pastJump s.jumps (s.pos % 2 ^ 32) then .stop false
  else
    match decodeType asmap s.pos with
    | (some .RETURN, pos) =>
      if s.prevopcode = .DEFAULT then .stop false
      else
        let (asn, pos) := decodeASN asmap pos
        if asn = INVALID then .stop false
        else
          match s.jumps with
          | [] =>
            -- nothing to execute anymore: at most seven bits of zero padding
            if asmap.length - pos > 7 then .stop false
            else .stop ((asmap.drop pos).all fun bit => !bit)
          | (target, bits) :: jumps =>
            -- continue by pretending we jumped to the next instruction
            if pos % 2 ^ 32 ≠ target then .stop false  -- unreachable code
            else .next { s with pos, bits, jumps, prevopcode := .JUMP }
    | (some .JUMP, pos) =>
      let (jump, pos) := decodeJump asmap pos
      if jump = INVALID then .stop false
      else if jump > asmap.length - pos then .stop false  -- jump out of range
      else if s.bits = 0 then .stop false  -- consuming bits past the end of the input
      else
        let jumpOffset := (pos + jump) % 2 ^ 32
        if pastJump s.jumps jumpOffset then .stop false  -- intersecting jumps
        else
          .next { s with
            pos, bits := s.bits - 1, jumps := (jumpOffset, s.bits - 1) :: s.jumps
            prevopcode := .JUMP }
    | (some .MATCH, pos) =>
      let (match_, pos) := decodeMatch asmap pos
      if match_ = INVALID then .stop false
      else
        let matchlen := countBits match_ - 1
        let hadIncompleteMatch := if s.prevopcode ≠ .MATCH then false else s.hadIncompleteMatch
        -- within a sequence of matches only at most one should be incomplete
        if matchlen < 8 ∧ hadIncompleteMatch then .stop false
        else if s.bits < matchlen then .stop false
        else
          .next {
            pos, bits := s.bits - matchlen, jumps := s.jumps, prevopcode := .MATCH
            hadIncompleteMatch := decide (matchlen < 8) }
    | (some .DEFAULT, pos) =>
      if s.prevopcode = .DEFAULT then .stop false  -- two successive DEFAULTs
      else
        let (asn, pos) := decodeASN asmap pos
        if asn = INVALID then .stop false else .next { s with pos, prevopcode := .DEFAULT }
    | (none, _) => .stop false  -- instruction straddles EOF

/-- What an iteration of the checker that goes on does, by the instruction it reads. -/
inductive SanityMove (asmap : List Bool) (s s' : SanityState) : Prop
  /-- a `RETURN` with a pending jump: the pass goes on at the nearest target -/
  | RETURN (p1 asn target : ℕ) (jumps : List (ℕ × ℕ))
      (hd : decodeType asmap s.pos = (some .RETURN, p1)) (ha : decodeASN asmap p1 = (asn, s'.pos))
      (hasn : asn ≠ INVALID) (hjumps : s.jumps = (target, s'.bits) :: jumps)
      (hjumps' : s'.jumps = jumps) (htarget : s'.pos % 2 ^ 32 = target)
  /-- a `JUMP`: one input bit used, and its target pushed -/
  | JUMP (p1 jump : ℕ) (hd : decodeType asmap s.pos = (some .JUMP, p1))
      (hj : decodeJump asmap p1 = (jump, s'.pos)) (hjump : jump ≠ INVALID)
      (hrange : jump ≤ asmap.length - s'.pos) (hbits : s.bits ≠ 0) (hbits' : s'.bits = s.bits - 1)
      (hjumps' : s'.jumps = ((s'.pos + jump) % 2 ^ 32, s.bits - 1) :: s.jumps)
  /-- a `MATCH`: its bits used -/
  | MATCH (p1 match_ : ℕ) (hd : decodeType asmap s.pos = (some .MATCH, p1))
      (hm : decodeMatch asmap p1 = (match_, s'.pos)) (hmatch : match_ ≠ INVALID)
      (hbits : countBits match_ - 1 ≤ s.bits) (hbits' : s'.bits = s.bits - (countBits match_ - 1))
      (hjumps' : s'.jumps = s.jumps)
  /-- a `DEFAULT` -/
  | DEFAULT (p1 asn : ℕ) (hd : decodeType asmap s.pos = (some .DEFAULT, p1))
      (ha : decodeASN asmap p1 = (asn, s'.pos)) (hasn : asn ≠ INVALID) (hbits' : s'.bits = s.bits)
      (hjumps' : s'.jumps = s.jumps)

section Sanity

variable {asmap : List Bool}

/-- Everything an iteration of the checker that goes on can do: it starts inside the map,
moves forward, stays inside the map, and makes one of the four moves. -/
theorem sanityStep_eq_next {s s' : SanityState} (h : sanityStep asmap s = .next s') :
    s.pos < s'.pos ∧ s'.pos ≤ asmap.length ∧ SanityMove asmap s s' := by
  by_cases hend : s.pos = asmap.length
  · rw [sanityStep, if_pos hend] at h
    cases h
  by_cases hpast : pastJump s.jumps (s.pos % 2 ^ 32) = true
  · rw [sanityStep, if_neg hend, if_pos hpast] at h
    cases h
  rw [sanityStep, if_neg hend, if_neg hpast] at h
  rcases hd : decodeType asmap s.pos with ⟨op, p1⟩
  rw [hd] at h
  cases op with
  | none => cases h
  | some op =>
    obtain ⟨hp1, hp1len⟩ := decodeType_pos hd
    cases op with
    | RETURN =>
      rcases ha : decodeASN asmap p1 with ⟨asn, p2⟩
      obtain ⟨hp2, hp2len⟩ := decodeASN_pos hp1len ha
      rcases hjumps : s.jumps with _ | ⟨⟨target, bits⟩, jumps⟩
      · simp only [ha, hjumps] at h
        split_ifs at h
      · simp only [ha, hjumps] at h
        split_ifs at h with hprev hinv htarget
        cases h
        dsimp only
        exact ⟨by omega, hp2len,
          .RETURN p1 asn target jumps hd ha hinv hjumps rfl (not_not.mp htarget)⟩
    | JUMP =>
      rcases hj : decodeJump asmap p1 with ⟨jump, p2⟩
      obtain ⟨hp2, hp2len⟩ := decodeJump_pos hp1len hj
      simp only [hj] at h
      split_ifs at h with hinv hfar hzero hcross
      cases h
      dsimp only
      exact ⟨by omega, hp2len, .JUMP p1 jump hd hj hinv (by dsimp only; omega) hzero rfl rfl⟩
    | MATCH =>
      rcases hm : decodeMatch asmap p1 with ⟨m, p2⟩
      obtain ⟨hp2, hp2len⟩ := decodeMatch_pos hp1len hm
      simp only [hm] at h
      -- the two branches of `had_incomplete_match` go on alike
      split_ifs at h with hinv <;>
      · cases h
        dsimp only
        exact ⟨by omega, hp2len, .MATCH p1 m hd hm hinv (by omega) rfl rfl⟩
    | DEFAULT =>
      rcases ha : decodeASN asmap p1 with ⟨asn, p2⟩
      obtain ⟨hp2, hp2len⟩ := decodeASN_pos hp1len ha
      simp only [ha] at h
      split_ifs at h with hprev hinv
      cases h
      dsimp only
      exact ⟨by omega, hp2len, .DEFAULT p1 asn hd ha hinv rfl rfl⟩

/-- The checker accepts only at a `RETURN`, with a valid AS number and no pending jump. -/
theorem sanityStep_eq_stop_true {s : SanityState} (h : sanityStep asmap s = .stop true) :
    s.pos ≠ asmap.length ∧ s.jumps = [] ∧ ∃ p1 asn p2,
      decodeType asmap s.pos = (some .RETURN, p1) ∧ decodeASN asmap p1 = (asn, p2) ∧
        asn ≠ INVALID := by
  by_cases hend : s.pos = asmap.length
  · rw [sanityStep, if_pos hend] at h
    cases h
  by_cases hpast : pastJump s.jumps (s.pos % 2 ^ 32) = true
  · rw [sanityStep, if_neg hend, if_pos hpast] at h
    cases h
  rw [sanityStep, if_neg hend, if_neg hpast] at h
  rcases hd : decodeType asmap s.pos with ⟨op, p1⟩
  rw [hd] at h
  cases op with
  | none => cases h
  | some op =>
    cases op with
    | RETURN =>
      rcases ha : decodeASN asmap p1 with ⟨asn, p2⟩
      rcases hjumps : s.jumps with _ | ⟨⟨target, bits⟩, jumps⟩
      · simp only [ha, hjumps] at h
        by_cases hprev : s.prevopcode = .DEFAULT
        · rw [if_pos hprev] at h
          cases h
        by_cases hinv : asn = INVALID
        · rw [if_neg hprev, if_pos hinv] at h
          cases h
        exact ⟨hend, rfl, p1, asn, p2, rfl, ha, hinv⟩
      · simp only [ha, hjumps] at h
        split_ifs at h <;> cases h
    | JUMP =>
      rcases hj : decodeJump asmap p1 with ⟨jump, p2⟩
      simp only [hj] at h
      split_ifs at h <;> cases h
    | MATCH =>
      rcases hm : decodeMatch asmap p1 with ⟨m, p2⟩
      simp only [hm] at h
      split_ifs at h <;> cases h
    | DEFAULT =>
      rcases ha : decodeASN asmap p1 with ⟨asn, p2⟩
      simp only [ha] at h
      split_ifs at h <;> cases h

variable (asmap) in
/-- The loop of `SanityCheckASMap`; each iteration moves forward in the map. -/
def sanityLoop : WhileLoop SanityState Bool where
  step := sanityStep asmap
  measure s := asmap.length - s.pos
  decreases h := by
    obtain ⟨hlt, hle, -⟩ := sanityStep_eq_next h
    omega

/-- The state on entry to the loop. -/
def sanityInit (bits : ℕ) : SanityState :=
  { pos := 0, bits, jumps := [], prevopcode := .JUMP, hadIncompleteMatch := false }

/-- `SanityCheckASMap(asmap, bits)`. -/
def sanityCheckASMap (asmap : List Bool) (bits : ℕ) : Bool :=
  (sanityLoop asmap).run (sanityInit bits)

end Sanity

end BitcoinCash.Asmap
