import BitcoinCash.AddrMan.Table

/-!
# The operations of the address manager

The operations `CAddrMan` runs under its lock (`addrman.cpp`): `Add_`, `Good_`, `Attempt_`,
`Select_`, `GetAddr_`, `Connected_`, `SetServices_`, `ResolveCollisions_` and
`SelectTriedCollision_`. What they draw from `insecure_rand` and read from the clock are their
arguments: a draw is the value the call returned, and `GetAdjustedTime()` is read as one value
`now` for a whole call.
-/

namespace BitcoinCash

namespace CAddrInfo

variable {A : Type}

/-- `IsTerrible`: whether the statistics about this entry are bad enough that it can be
deleted. -/
def isTerrible (info : CAddrInfo A) (nNow : ℤ) : Bool :=
  -- never remove things tried in the last minute
  if info.nLastTry ≠ 0 ∧ info.nLastTry ≥ nNow - 60 then false
  -- came in a flying DeLorean
  else if (info.nTime : ℤ) > nNow + 10 * 60 then true
  -- not seen in recent history
  else if info.nTime = 0 ∨ nNow - info.nTime > addrmanHorizonDays * 24 * 60 * 60 then true
  -- tried N times and never a success
  else if info.nLastSuccess = 0 ∧ info.nAttempts ≥ addrmanRetries then true
  -- N successive failures in the last week
  else if nNow - info.nLastSuccess > addrmanMinFailDays * 24 * 60 * 60 ∧
      info.nAttempts ≥ addrmanMaxFailures then true
  else false

/-- `GetChance`: the relative chance this entry is given when selecting, a `double`. -/
def getChance (info : CAddrInfo A) (nNow : ℤ) : Float :=
  let nSinceLastTry := max (nNow - info.nLastTry) 0
  -- deprioritize very recent attempts away
  let fChance : Float := if nSinceLastTry < 60 * 10 then 1.0 * 0.01 else 1.0
  -- deprioritize 66% after each failed attempt, but at most 1/28th
  fChance * Float.pow 0.66 (Float.ofInt (min info.nAttempts 8))

end CAddrInfo

/-- `std::set<int>::insert`: the ascending list with `x` in it. -/
def setInsert (x : ℤ) (l : List ℤ) : List ℤ := if x ∈ l then l else l.orderedInsert (· ≤ ·) x

/-- A `uint32_t` assigned an `int64_t`. -/
def toUInt32 (x : ℤ) : ℕ := x.toNat % 2 ^ 32

namespace CAddrMan

variable {A K : Type} [DecidableEq A] [Inhabited A] (env : AddrManEnv A K)

/-- The end of `Add_`: put the entry in the slot its source gives it in the new table, unless the
slot holds another entry that is neither terrible nor shared while this one is in no slot; a new
entry that gets no slot is deleted. -/
def addToNew (s : CAddrMan A K) (nId : ℤ) (source : A) (now : ℤ) : CAddrMan A K :=
  let pinfo := s.info nId
  let nUBucket := env.getNewBucket s.nKey pinfo.toCService source
  let nUBucketPos := env.getBucketPosition s.nKey pinfo.toCService true nUBucket.val
  if s.vvNew nUBucket nUBucketPos ≠ nId then
    let infoExisting := s.info (s.vvNew nUBucket nUBucketPos)
    let fInsert := s.vvNew nUBucket nUBucketPos = -1 ∨
      -- Overwrite the existing new table entry.
      (infoExisting.isTerrible now = true ∨ (infoExisting.nRefCount > 1 ∧ pinfo.nRefCount = 0))
    if fInsert then
      let s := s.clearNew nUBucket nUBucketPos
      let s := s.setInfo nId { s.info nId with nRefCount := (s.info nId).nRefCount + 1 }
      s.setNew nUBucket nUBucketPos nId
    else if pinfo.nRefCount = 0 then s.delete nId
    else s
  else s

/-- `Add_(addr, source, nTimePenalty)`, with `now` the adjusted time and `nRandom` the draw of the
stochastic test. Returns whether a new entry was created. -/
def add_ (s : CAddrMan A K) (addr : CAddress A) (source : A) (nTimePenalty : ℤ) (now : ℤ)
    (nRandom : ℕ) : CAddrMan A K × Bool :=
  if !env.isRoutable addr.addr then (s, false)
  else
    -- Do not set a penalty for a source's self-announcement
    let nTimePenalty := if addr.addr = source then 0 else nTimePenalty
    match s.find addr.addr with
    | some (nId, pinfo) =>
      -- periodically update nTime
      let fCurrentlyOnline := now - addr.nTime < 24 * 60 * 60
      let nUpdateInterval : ℤ := if fCurrentlyOnline then 60 * 60 else 24 * 60 * 60
      let pinfo :=
        if addr.nTime ≠ 0 ∧
            (pinfo.nTime = 0 ∨ (pinfo.nTime : ℤ) < addr.nTime - nUpdateInterval - nTimePenalty)
        then { pinfo with nTime := toUInt32 (max 0 (addr.nTime - nTimePenalty)) }
        else pinfo
      -- add services
      let pinfo := { pinfo with nServices := pinfo.nServices ||| addr.nServices }
      let s := s.setInfo nId pinfo
      -- do not update if no new information is present
      if addr.nTime = 0 ∨ (pinfo.nTime ≠ 0 ∧ addr.nTime ≤ pinfo.nTime) then (s, false)
      -- do not update if the entry was already in the "tried" table
      else if pinfo.fInTried then (s, false)
      -- do not update if the max reference count is reached
      else if pinfo.nRefCount = addrmanNewBucketsPerAddress then (s, false)
      -- stochastic test: previous nRefCount == N: 2^N times harder to increase it
      else if 2 ^ pinfo.nRefCount.toNat > 1 ∧ nRandom ≠ 0 then (s, false)
      else (addToNew env s nId source now, false)
    | none =>
      let (s, nId) := s.create addr source
      let s := s.setInfo nId
        { s.info nId with nTime := toUInt32 (max 0 ((s.info nId).nTime - nTimePenalty)) }
      (addToNew env (s.addNew 1) nId source now, true)

/-- Whether the entry sits in some bucket of the new table: the search of `Good_` from the
bucket `nRnd`. -/
def inSomeNewBucket (s : CAddrMan A K) (nId : ℤ) (svc : CService A) (nRnd : ℕ) : Bool :=
  (List.range addrmanNewBucketCount).any fun n =>
    let nB : Fin addrmanNewBucketCount :=
      ⟨(n + nRnd) % addrmanNewBucketCount, Nat.mod_lt _ (Nat.two_pow_pos _)⟩
    s.vvNew nB (env.getBucketPosition s.nKey svc true nB.val) = nId

/-- `Good_(addr, test_before_evict, nTime)`, with `nRnd` the bucket the search starts from: mark
the entry good, and move it to the tried table unless that would evict another entry under test
before evict, which is then recorded as a collision. -/
def good_ (s : CAddrMan A K) (addr : CService A) (testBeforeEvict : Bool) (nTime : ℤ)
    (nRnd : ℕ) : CAddrMan A K :=
  let s := { s with nLastGood := nTime }
  match s.find addr.addr with
  -- if not found, bail out
  | none => s
  | some (nId, info) =>
    -- check whether we are talking about the exact same CService (including same port)
    if info.toCService ≠ addr then s
    else
      let info := { info with nLastSuccess := nTime, nLastTry := nTime, nAttempts := 0 }
      let s := s.setInfo nId info
      -- if it is already in the tried set, don't do anything else
      if info.fInTried then s
      -- if no bucket is found, something bad happened
      else if !inSomeNewBucket env s nId info.toCService nRnd then s
      else
        -- which tried bucket to move the entry to
        let triedBucket := env.getTriedBucket s.nKey info.toCService
        let triedBucketPos := env.getBucketPosition s.nKey info.toCService false triedBucket.val
        -- Will moving this address into tried evict another entry?
        if testBeforeEvict = true ∧ s.vvTried triedBucket triedBucketPos ≠ -1 then
          if s.mTriedCollisions.length < addrmanSetTriedCollisionSize then
            { s with mTriedCollisions := setInsert nId s.mTriedCollisions }
          else s
        else s.makeTried env nId

/-- `Attempt_(addr, fCountFailure, nTime)`. -/
def attempt_ (s : CAddrMan A K) (addr : CService A) (fCountFailure : Bool) (nTime : ℤ) :
    CAddrMan A K :=
  match s.find addr.addr with
  | none => s
  | some (nId, info) =>
    if info.toCService ≠ addr then s
    else
      let info := { info with nLastTry := nTime }
      let info :=
        if fCountFailure = true ∧ info.nLastCountAttempt < s.nLastGood then
          { info with nLastCountAttempt := nTime, nAttempts := info.nAttempts + 1 }
        else info
      s.setInfo nId info

/-- The search of `Select_` in a table of `2 ^ log2` buckets: from the slot `(nBucket, nPos)`,
step by random amounts to a slot that holds an entry, then take that entry with its chance, else
start over from a random slot with the chance factor raised by a fifth. `rand k` is the `k`-th
draw; `fuel` bounds the steps. -/
def selectLoop (s : CAddrMan A K) {log2 : ℕ} (table : Fin (2 ^ log2) → Fin addrmanBucketSize → ℤ)
    (now : ℤ) (rand : ℕ → ℕ) :
    ℕ → ℕ → Fin (2 ^ log2) → Fin addrmanBucketSize → Float → Option (CAddrInfo A)
  | 0, _, _, _, _ => none
  | fuel + 1, k, nBucket, nPos, fChanceFactor =>
    if table nBucket nPos = -1 then
      selectLoop s table now rand fuel (k + 2)
        ⟨(nBucket.val + rand k % 2 ^ log2) % 2 ^ log2, Nat.mod_lt _ (Nat.two_pow_pos _)⟩
        ⟨(nPos.val + rand (k + 1) % addrmanBucketSize) % addrmanBucketSize,
          Nat.mod_lt _ (Nat.two_pow_pos _)⟩ fChanceFactor
    else
      let info := s.info (table nBucket nPos)
      if Float.ofNat (rand k % 2 ^ 30) < fChanceFactor * info.getChance now * 2 ^ 30 then
        some info
      else
        selectLoop s table now rand fuel (k + 3)
          ⟨rand (k + 1) % 2 ^ log2, Nat.mod_lt _ (Nat.two_pow_pos _)⟩
          ⟨rand (k + 2) % addrmanBucketSize, Nat.mod_lt _ (Nat.two_pow_pos _)⟩
          (fChanceFactor * 1.2)

/-- `Select_(newOnly)`: an entry of the tried table or of the new table, with even chances where
both have entries; `none` when the model's `fuel` runs out. -/
def select_ (s : CAddrMan A K) (newOnly : Bool) (now : ℤ) (rand : ℕ → ℕ) (fuel : ℕ) :
    Option (CAddrInfo A) :=
  if s.vRandom.length = 0 then some default
  else if newOnly = true ∧ s.nNew = 0 then some default
  -- Use a 50% chance for choosing between tried and new table entries.
  else if newOnly = false ∧ s.nTried > 0 ∧ (s.nNew = 0 ∨ rand 0 % 2 = 0) then
    selectLoop s s.vvTried now rand fuel 3
      ⟨rand 1 % addrmanTriedBucketCount, Nat.mod_lt _ (Nat.two_pow_pos _)⟩
      ⟨rand 2 % addrmanBucketSize, Nat.mod_lt _ (Nat.two_pow_pos _)⟩ 1.0
  else
    selectLoop s s.vvNew now rand fuel 3
      ⟨rand 1 % addrmanNewBucketCount, Nat.mod_lt _ (Nat.two_pow_pos _)⟩
      ⟨rand 2 % addrmanBucketSize, Nat.mod_lt _ (Nat.two_pow_pos _)⟩ 1.0

/-- The loop of `GetAddr_`: at position `n`, swap in a random later entry and take it unless it
is terrible, until `nNodes` are taken. `rand n` is the draw of `randrange(vRandom.size() - n)`. -/
def getAddrLoop (now : ℤ) (nNodes : ℕ) (rand : ℕ → ℕ) :
    ℕ → CAddrMan A K × List (CAddress A) → ℕ → CAddrMan A K × List (CAddress A)
  | 0, acc, _ => acc
  | fuel + 1, (s, vAddr), n =>
    if n ≥ s.vRandom.length ∨ vAddr.length ≥ nNodes then (s, vAddr)
    else
      let nRndPos := rand n % (s.vRandom.length - n) + n
      let s := s.swapRandom n nRndPos
      let ai := s.info (s.vRandom.getD n 0)
      getAddrLoop now nNodes rand fuel
        (s, if !ai.isTerrible now then vAddr ++ [ai.toCAddress] else vAddr) (n + 1)

/-- `GetAddr_(vAddr, max_addresses, max_pct)`. -/
def getAddr_ (s : CAddrMan A K) (maxAddresses maxPct : ℕ) (now : ℤ) (rand : ℕ → ℕ) :
    CAddrMan A K × List (CAddress A) :=
  let nNodes := s.vRandom.length
  let nNodes := if maxPct ≠ 0 then maxPct * nNodes / 100 else nNodes
  let nNodes := if maxAddresses ≠ 0 then min nNodes maxAddresses else nNodes
  -- gather a list of random nodes, skipping those of low quality
  getAddrLoop now nNodes rand s.vRandom.length (s, []) 0

/-- `Connected_(addr, nTime)`. -/
def connected_ (s : CAddrMan A K) (addr : CService A) (nTime : ℤ) : CAddrMan A K :=
  match s.find addr.addr with
  | none => s
  | some (nId, info) =>
    if info.toCService ≠ addr then s
    -- update info
    else if nTime - info.nTime > 20 * 60 then s.setInfo nId { info with nTime := toUInt32 nTime }
    else s

/-- `SetServices_(addr, nServices)`. -/
def setServices_ (s : CAddrMan A K) (addr : CService A) (nServices : ℕ) : CAddrMan A K :=
  match s.find addr.addr with
  | none => s
  | some (nId, info) =>
    if info.toCService ≠ addr then s else s.setInfo nId { info with nServices }

/-- One collision of `ResolveCollisions_`: the state, and whether the collision is erased. An entry
that is gone or no longer valid is dropped; one whose tried slot is free, or whose rival there
was tried long ago and failed, or could not be tested within the window, is moved by `Good_`. -/
def resolveCollision (s : CAddrMan A K) (idNew : ℤ) (now : ℤ) (nRnd : ℕ) :
    CAddrMan A K × Bool :=
  match s.mapInfo idNew with
  -- If id_new not found in mapInfo remove it from m_tried_collisions.
  | none => (s, true)
  | some infoNew =>
    -- Which tried bucket to move the entry to.
    let triedBucket := env.getTriedBucket s.nKey infoNew.toCService
    let triedBucketPos := env.getBucketPosition s.nKey infoNew.toCService false triedBucket.val
    -- id_new may no longer map to a valid address
    if !env.isValid infoNew.addr then (s, true)
    else if s.vvTried triedBucket triedBucketPos ≠ -1 then
      -- Get the to-be-evicted address that is being tested
      let infoOld := s.info (s.vvTried triedBucket triedBucketPos)
      -- Has successfully connected in last X hours
      if now - infoOld.nLastSuccess < addrmanReplacementSeconds then (s, true)
      -- attempted to connect and failed in last X hours
      else if now - infoOld.nLastTry < addrmanReplacementSeconds then
        -- Give address at least 60 seconds to successfully connect
        if now - infoOld.nLastTry > 60 then (s.good_ env infoNew.toCService false now nRnd, true)
        else (s, false)
      -- If the collision hasn't resolved in some reasonable amount of time, just evict the old
      -- entry
      else if now - infoNew.nLastSuccess > addrmanTestWindow then
        (s.good_ env infoNew.toCService false now nRnd, true)
      else (s, false)
    -- Collision is not actually a collision anymore
    else (s.good_ env infoNew.toCService false now nRnd, true)

/-- The loop of `ResolveCollisions_` over the collisions in ascending order: the state and the
collisions kept. `rand i` is the draw of the `Good_` of the `i`-th one. -/
def resolveCollisionsLoop (now : ℤ) (rand : ℕ → ℕ) :
    CAddrMan A K → ℕ → List ℤ → CAddrMan A K × List ℤ
  | s, _, [] => (s, [])
  | s, i, idNew :: ids =>
    let (s, eraseCollision) := s.resolveCollision env idNew now (rand i)
    let (s, kept) := resolveCollisionsLoop now rand s (i + 1) ids
    (s, if eraseCollision then kept else idNew :: kept)

/-- `ResolveCollisions_()`. -/
def resolveCollisions_ (s : CAddrMan A K) (now : ℤ) (rand : ℕ → ℕ) : CAddrMan A K :=
  let (s', kept) := resolveCollisionsLoop env now rand s 0 s.mTriedCollisions
  { s' with mTriedCollisions := kept }

/-- `SelectTriedCollision_()`: the tried entry the collision at the draw `nRnd` would evict. -/
def selectTriedCollision_ (s : CAddrMan A K) (nRnd : ℕ) : CAddrMan A K × CAddrInfo A :=
  if s.mTriedCollisions.length = 0 then (s, default)
  else
    let idNew := s.mTriedCollisions.getD (nRnd % s.mTriedCollisions.length) 0
    match s.mapInfo idNew with
    -- If id_new not found in mapInfo remove it from m_tried_collisions.
    | none => ({ s with mTriedCollisions := s.mTriedCollisions.erase idNew }, default)
    | some newInfo =>
      -- which tried bucket to move the entry to
      let triedBucket := env.getTriedBucket s.nKey newInfo.toCService
      let triedBucketPos := env.getBucketPosition s.nKey newInfo.toCService false triedBucket.val
      (s, s.info (s.vvTried triedBucket triedBucketPos))

end CAddrMan

/-- A public call on the address manager, with what it draws and the time it reads. -/
inductive AddrManOp (A : Type) where
  | add (addr : CAddress A) (source : A) (nTimePenalty now : ℤ) (nRandom : ℕ)
  | good (addr : CService A) (testBeforeEvict : Bool) (nTime : ℤ) (nRnd : ℕ)
  | attempt (addr : CService A) (fCountFailure : Bool) (nTime : ℤ)
  | select (newOnly : Bool) (now : ℤ) (rand : ℕ → ℕ) (fuel : ℕ)
  | getAddr (maxAddresses maxPct : ℕ) (now : ℤ) (rand : ℕ → ℕ)
  | connected (addr : CService A) (nTime : ℤ)
  | setServices (addr : CService A) (nServices : ℕ)
  | resolveCollisions (now : ℤ) (rand : ℕ → ℕ)
  | selectTriedCollision (nRnd : ℕ)

namespace CAddrMan

variable {A K : Type} [DecidableEq A] [Inhabited A] (env : AddrManEnv A K)

/-- The state after a public call. `Select_` changes nothing but the random generator. -/
def step (s : CAddrMan A K) : AddrManOp A → CAddrMan A K
  | .add addr source nTimePenalty now nRandom => (s.add_ env addr source nTimePenalty now nRandom).1
  | .good addr testBeforeEvict nTime nRnd => s.good_ env addr testBeforeEvict nTime nRnd
  | .attempt addr fCountFailure nTime => s.attempt_ addr fCountFailure nTime
  | .select _ _ _ _ => s
  | .getAddr maxAddresses maxPct now rand => (s.getAddr_ maxAddresses maxPct now rand).1
  | .connected addr nTime => s.connected_ addr nTime
  | .setServices addr nServices => s.setServices_ addr nServices
  | .resolveCollisions now rand => s.resolveCollisions_ env now rand
  | .selectTriedCollision nRnd => (s.selectTriedCollision_ env nRnd).1

/-- The state after a run of public calls. -/
def run (s : CAddrMan A K) (ops : List (AddrManOp A)) : CAddrMan A K :=
  ops.foldl (step env) s

end CAddrMan

end BitcoinCash
