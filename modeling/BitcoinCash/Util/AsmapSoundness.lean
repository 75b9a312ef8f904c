import BitcoinCash.Util.Asmap

/-!
# `SanityCheckASMap` is sound for `Interpret`

The checker reads the program once, in order. At every instruction start it reaches it knows
how many input bits a run of `Interpret` has left there; a `JUMP` pushes its target with the bits
left after it, and a `RETURN` hands the pass over to the nearest pending target, which must start
exactly there. So, in an accepting pass:

* every pending target is reached later as an instruction start, with the bits pushed with it
  (`exists_reaches_of_mem_jumps`);
* at every instruction start, `Interpret` with as many bits left returns, or goes on to another
  instruction start of the pass with as many bits left as the pass has there
  (`interpretStep_of_accepting`).

By `WhileLoop.run_of_closed`, `Interpret` then returns on every input of the checked length. The
pass compares positions as `uint32_t` offsets; the argument needs the map to have fewer than
`2 ^ 32` bits, so that an offset is the position itself.
-/

namespace BitcoinCash.Asmap

open WhileLoop

variable {asmap : List Bool}

/-- An accepting pass never starts an instruction at the end of the map. -/
theorem pos_ne_length_of_run {σ : SanityState} (hrun : (sanityLoop asmap).run σ = true) :
    σ.pos ≠ asmap.length := by
  intro hend
  have hstop : sanityStep asmap σ = .stop false := by rw [sanityStep, if_pos hend]
  rw [run_of_stop (L := sanityLoop asmap) hstop] at hrun
  cases hrun

section Pass

variable (hlen : asmap.length < 2 ^ 32)
include hlen

/-- Every pending jump target of an accepting pass is reached later, as an instruction start,
with the input bits pushed with it. -/
theorem exists_reaches_of_mem_jumps (σ : SanityState) (hrun : (sanityLoop asmap).run σ = true)
    {t b : ℕ} (hmem : (t, b) ∈ σ.jumps) :
    ∃ σ', (sanityLoop asmap).Reaches σ σ' ∧ σ'.pos = t ∧ σ'.bits = b := by
  induction σ using WhileLoop.induction (L := sanityLoop asmap) with
  | hstep σ ih =>
    cases hstep : sanityStep asmap σ with
    | stop r =>
      -- the pass accepts only with no jump pending
      have hr : r = true := (run_of_stop (L := sanityLoop asmap) hstep).symm.trans hrun
      obtain ⟨-, hnil, -⟩ := sanityStep_eq_stop_true (hr ▸ hstep)
      rw [hnil] at hmem
      cases hmem
    | next σ' =>
      have hrun' : (sanityLoop asmap).run σ' = true :=
        (run_of_next (L := sanityLoop asmap) hstep).symm.trans hrun
      -- a target pending after the step is reached from the next state on
      have hlater (hmem' : (t, b) ∈ σ'.jumps) :
          ∃ σ'', (sanityLoop asmap).Reaches σ σ'' ∧ σ''.pos = t ∧ σ''.bits = b := by
        obtain ⟨σ'', hreach, hpos, hbits⟩ := ih σ' hstep hrun' hmem'
        exact ⟨σ'', Reaches.head hstep hreach, hpos, hbits⟩
      obtain ⟨-, hle, hmove⟩ := sanityStep_eq_next hstep
      cases hmove with
      | RETURN p1 asn target jumps hd ha hasn hjumps hjumps' htarget =>
        rw [hjumps] at hmem
        rcases List.mem_cons.mp hmem with heq | hmem'
        · -- the nearest target: the pass goes on there at once
          obtain ⟨rfl, rfl⟩ := Prod.mk.inj heq
          refine ⟨σ', Reaches.head hstep (Reaches.refl σ'), ?_, rfl⟩
          rw [← htarget, Nat.mod_eq_of_lt (by omega)]
        · exact hlater (hjumps' ▸ hmem')
      | JUMP p1 jump hd hj hjump hrange hbits hbits' hjumps' =>
        exact hlater (hjumps' ▸ List.mem_cons_of_mem _ hmem)
      | MATCH p1 m hd hm hmatch hbits hbits' hjumps' => exact hlater (hjumps' ▸ hmem)
      | DEFAULT p1 asn hd ha hasn hbits' hjumps' => exact hlater (hjumps' ▸ hmem)

/-- At an instruction start of an accepting pass, `Interpret` with as many input bits left
returns, or goes on to an instruction start of the pass with as many bits left as the pass. -/
theorem interpretStep_of_accepting {ip : List Bool} {n : ℕ}
    (hsane : sanityCheckASMap asmap n = true) {σ : SanityState}
    (hreach : (sanityLoop asmap).Reaches (sanityInit n) σ) {s : InterpretState}
    (hpos : s.pos = σ.pos) (hbits : s.bits = σ.bits) (hip : s.bits ≤ ip.length) :
    (∃ asn, interpretStep asmap ip s = .stop (.ok asn)) ∨
      ∃ s' σ', interpretStep asmap ip s = .next s' ∧
        (sanityLoop asmap).Reaches (sanityInit n) σ' ∧ s'.pos = σ'.pos ∧ s'.bits = σ'.bits := by
  have hrun : (sanityLoop asmap).run σ = true := (run_of_reaches hreach).symm.trans hsane
  have hend : s.pos ≠ asmap.length := hpos ▸ pos_ne_length_of_run hrun
  cases hstep : sanityStep asmap σ with
  | stop r =>
    have hr : r = true := (run_of_stop (L := sanityLoop asmap) hstep).symm.trans hrun
    obtain ⟨-, -, p1, asn, p2, hd, ha, hasn⟩ := sanityStep_eq_stop_true (hr ▸ hstep)
    exact .inl ⟨asn, interpretStep_of_return hend (hpos ▸ hd) ha hasn⟩
  | next σ' =>
    have hreach' : (sanityLoop asmap).Reaches (sanityInit n) σ' := Reaches.tail hreach hstep
    obtain ⟨-, hle, hmove⟩ := sanityStep_eq_next hstep
    cases hmove with
    | RETURN p1 asn target jumps hd ha hasn hjumps hjumps' htarget =>
      exact .inl ⟨asn, interpretStep_of_return hend (hpos ▸ hd) ha hasn⟩
    | JUMP p1 jump hd hj hjump hrange hnz hbits' hjumps' =>
      -- the target is an instruction start of the pass, so it lies inside the map
      have hrun' : (sanityLoop asmap).run σ' = true :=
        (run_of_next (L := sanityLoop asmap) hstep).symm.trans hrun
      have hoffset : (σ'.pos + jump) % 2 ^ 32 = σ'.pos + jump := Nat.mod_eq_of_lt (by omega)
      obtain ⟨σ'', hreach'', htpos, htbits⟩ := exists_reaches_of_mem_jumps hlen σ' hrun'
        (hjumps' ▸ List.mem_cons_self : ((σ'.pos + jump) % 2 ^ 32, σ.bits - 1) ∈ σ'.jumps)
      have hrun'' : (sanityLoop asmap).run σ'' = true := (run_of_reaches hreach'').symm.trans hrun'
      have hinside : jump < asmap.length - σ'.pos := by
        have := pos_ne_length_of_run hrun''
        omega
      -- the input bit read is inside `ip`
      have hidx : ip.length - s.bits < ip.length := by omega
      obtain ⟨bit, hbit⟩ : ∃ bit, ip[ip.length - s.bits]? = some bit :=
        ⟨_, List.getElem?_eq_getElem hidx⟩
      have hjumpStep := interpretStep_of_jump hend (hpos ▸ hd) hj hjump (hbits ▸ hnz) hinside hbit
      cases bit
      · -- not taken: the next instruction of the pass
        exact .inr ⟨_, σ', hjumpStep, hreach', by rw [if_neg Bool.false_ne_true],
          by dsimp only; omega⟩
      · -- taken: the target, which the pass reaches later
        exact .inr ⟨_, σ'', hjumpStep, hreach'.trans hreach'', by rw [if_pos rfl, htpos, hoffset],
          by dsimp only; omega⟩
    | MATCH p1 m hd hm hmatch hfits hbits' hjumps' =>
      rcases interpretStep_of_match hend (hpos ▸ hd) hm hmatch (hbits ▸ hfits) hip with hs | hs
      · exact .inl ⟨_, hs⟩
      · exact .inr ⟨_, σ', hs, hreach', rfl, by dsimp only; omega⟩
    | DEFAULT p1 asn hd ha hasn hbits' hjumps' =>
      exact .inr ⟨_, σ', interpretStep_of_default hend (hpos ▸ hd) ha hasn, hreach', rfl,
        by dsimp only; omega⟩

end Pass

/-- `SanityCheckASMap` is sound for `Interpret`: on a map of fewer than `2 ^ 32` bits that the
check accepts for `n ≤ 255` input bits, a run of `Interpret` on any input of `n` bits never moves
past the end of the map, and ends by returning an AS number, at a `RETURN` or at a failed `MATCH`:
never at `assert(false)`, and never reading `ip` out of range. -/
theorem sanityCheckASMap_sound (hlen : asmap.length < 2 ^ 32) {n : ℕ} (hn : n ≤ 255)
    (hsane : sanityCheckASMap asmap n = true) (ip : List Bool) (hip : ip.length = n) :
    (∀ s, (interpretLoop asmap ip).Reaches (interpretInit ip) s → s.pos ≤ asmap.length) ∧
      ∃ asn, interpret asmap ip = .ok asn := by
  refine ⟨fun s hs => (pos_le_of_interpretReaches hs).1, ?_⟩
  -- the states of `Interpret` at instruction starts of the pass, with as many bits left
  let S : InterpretState → Prop := fun s => s.bits ≤ ip.length ∧
    ∃ σ, (sanityLoop asmap).Reaches (sanityInit n) σ ∧ s.pos = σ.pos ∧ s.bits = σ.bits
  have hinit : S (interpretInit ip) := by
    refine ⟨Nat.mod_le _ _, sanityInit n, Reaches.refl _, rfl, ?_⟩
    show ip.length % 256 = n
    rw [hip]
    exact Nat.mod_eq_of_lt (by omega)
  refine run_of_closed (L := interpretLoop asmap ip) S (fun r => ∃ asn, r = .ok asn) ?_ ?_ hinit
  · rintro s s' ⟨hip', σ, hreach, hpos, hbits⟩ hstep
    rw [interpretLoop_step] at hstep
    have hdec := (interpretStep_eq_next hstep).2.2
    rcases interpretStep_of_accepting hlen hsane hreach hpos hbits hip' with
      ⟨asn, hs⟩ | ⟨s'', σ', hs, hreach', hpos', hbits'⟩
    · rw [hs] at hstep
      cases hstep
    · rw [hs] at hstep
      cases hstep
      exact ⟨by omega, σ', hreach', hpos', hbits'⟩
  · rintro s r ⟨hip', σ, hreach, hpos, hbits⟩ hstep
    rw [interpretLoop_step] at hstep
    rcases interpretStep_of_accepting hlen hsane hreach hpos hbits hip' with
      ⟨asn, hs⟩ | ⟨s'', σ', hs, -⟩
    · rw [hs] at hstep
      cases hstep
      exact ⟨asn, rfl⟩
    · rw [hs] at hstep
      cases hstep

/-- A map for two input bits: `DEFAULT 5`, then a `JUMP` taken on a first bit `1` to `RETURN 9`,
and otherwise a `MATCH` of the second bit with `1` before `RETURN 7`; on the input `00` the match
fails. -/
theorem sanityCheckASMap_sound_jump_match :
    let asmap := [true, true, true, false, false, false, false, false, false, false, false, false,
      false, false, false, false, true, false, false, true, false, false, false, false, true, false,
      true, true, true, false, false, true, false, false, false, false, false, false, false, false,
      false, false, false, false, false, false, true, true, false, false, false, false, false, false,
      false, false, false, false, false, false, false, false, true, false, false, false]
    sanityCheckASMap asmap 2 = true ∧ ∃ asn, interpret asmap [false, false] = .ok asn := by
  intro asmap
  -- the check runs through `DEFAULT`, `JUMP`, `MATCH` and the first `RETURN` to the second
  have h : sanityCheckASMap asmap 2 = true := by
    rw [sanityCheckASMap,
      @WhileLoop.run_of_next SanityState Bool _ _ ⟨19, 2, [], .DEFAULT, false⟩ ?defaultStep,
      @WhileLoop.run_of_next SanityState Bool _ _ ⟨27, 1, [(49, 1)], .JUMP, false⟩ ?jumpStep,
      @WhileLoop.run_of_next SanityState Bool _ _ ⟨32, 0, [(49, 1)], .MATCH, true⟩ ?matchStep,
      @WhileLoop.run_of_next SanityState Bool _ _ ⟨49, 1, [], .JUMP, true⟩ ?returnStep,
      WhileLoop.run_of_stop ?stopStep]
    all_goals simp [asmap, sanityLoop, sanityStep, sanityInit, decodeType, decodeASN, decodeJump,
      decodeMatch, decodeBits, decodeMantissa, TYPE_BIT_SIZES, ASN_BIT_SIZES, JUMP_BIT_SIZES,
      MATCH_BIT_SIZES, pastJump, Instruction.ofNat?, INVALID, countBits,
      show Nat.size 3 = 2 by decide]
  exact ⟨h, (sanityCheckASMap_sound (by decide) (by decide) h [false, false] rfl).2⟩

end BitcoinCash.Asmap
