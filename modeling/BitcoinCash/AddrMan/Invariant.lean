import BitcoinCash.AddrMan.Ops
import BitcoinCash.Data.PositionIndex
import Mathlib.Data.List.GetD

/-!
# The invariant of the address manager

The structural part of `CAddrMan::Check_`, split by what each part reads:

* `Positions`: `vRandom` lists every id of `mapInfo` once, each entry records its index there,
  `mapAddr` finds each entry by its address, and the ids are below `nIdCount`;
* `TablesAgree`: a slot of the tried table holds a tried entry whose slot it is, and each tried
  entry sits in its slot; a slot of the new table holds a new entry whose slot it is in that
  bucket; the reference count of an entry is the number of new buckets that hold it;
* `RefRangeOn`: a new entry has between one and eight references;
* `Counts`: `nNew` and `nTried` count the new and the tried entries.

The tables see an entry only through its service, whether it is tried and its reference count
(`TableEntry`), so that `SwapRandom`, which moves positions only, leaves them alone.

This module proves what each private operation of `Table` does to these parts.
-/

namespace BitcoinCash

open PositionIndex

/-- What the tables read of an entry: its service, whether it is tried, its reference count. -/
structure TableEntry (A : Type) where
  service : CService A
  fInTried : Bool
  nRefCount : ℤ

/-- The part of an entry the tables read. -/
def CAddrInfo.tableEntry {A : Type} (info : CAddrInfo A) : TableEntry A :=
  ⟨info.toCService, info.fInTried, info.nRefCount⟩

namespace CAddrMan

variable {A K : Type} [DecidableEq A] [Inhabited A]

/-- The entries, as the tables read them. -/
def entries (s : CAddrMan A K) (nId : ℤ) : Option (TableEntry A) :=
  (s.mapInfo nId).map CAddrInfo.tableEntry

/-- The index each entry records in `vRandom`. -/
def randomPos (s : CAddrMan A K) (nId : ℤ) : Option ℕ :=
  (s.mapInfo nId).map fun info => info.nRandomPos.toNat

/-- Whether `nId` is a new entry. -/
def isNew (entries : ℤ → Option (TableEntry A)) (nId : ℤ) : Bool :=
  match entries nId with
  | some e => !e.fInTried
  | none => false

/-- Whether `nId` is a tried entry. -/
def isTried (entries : ℤ → Option (TableEntry A)) (nId : ℤ) : Bool :=
  match entries nId with
  | some e => e.fInTried
  | none => false

variable (env : AddrManEnv A K)

/-- The slot of the tried table that `GetTriedBucket` and `GetBucketPosition` give a service. -/
def triedSlot (nKey : K) (svc : CService A) : Fin addrmanTriedBucketCount × Fin addrmanBucketSize :=
  (env.getTriedBucket nKey svc, env.getBucketPosition nKey svc false (env.getTriedBucket nKey svc).val)

/-- The slot of a bucket of the new table that `GetBucketPosition` gives a service. -/
def newPos (nKey : K) (svc : CService A) (b : Fin addrmanNewBucketCount) : Fin addrmanBucketSize :=
  env.getBucketPosition nKey svc true b.val

/-- The number of buckets of the new table that hold `nId` at the slot of `svc`. -/
def newRefs (nKey : K) (vvNew : Fin addrmanNewBucketCount → Fin addrmanBucketSize → ℤ) (nId : ℤ)
    (svc : CService A) : ℕ :=
  (Finset.univ.filter fun b => vvNew b (newPos env nKey svc b) = nId).card

/-- `vRandom` indexes the entries, `mapAddr` finds each by its address, and the ids are at least
zero and below `nIdCount`. -/
structure Positions (s : CAddrMan A K) : Prop where
  indexes : Indexes s.vRandom s.randomPos
  randomPos_nonneg : ∀ nId info, s.mapInfo nId = some info → 0 ≤ info.nRandomPos
  nIdCount_nonneg : 0 ≤ s.nIdCount
  id_range : ∀ nId, (s.mapInfo nId).isSome → 0 ≤ nId ∧ nId < s.nIdCount
  mapAddr_iff : ∀ a nId, s.mapAddr a = some nId ↔ ∃ info, s.mapInfo nId = some info ∧ info.addr = a

/-- The tables and the entries agree: each slot holds an entry whose slot it is, each tried entry
sits in its tried slot, and each reference count counts the new buckets holding the entry. -/
structure TablesAgree (nKey : K) (entries : ℤ → Option (TableEntry A))
    (vvNew : Fin addrmanNewBucketCount → Fin addrmanBucketSize → ℤ)
    (vvTried : Fin addrmanTriedBucketCount → Fin addrmanBucketSize → ℤ) : Prop where
  tried_slot : ∀ b i, vvTried b i ≠ -1 →
    ∃ e, entries (vvTried b i) = some e ∧ e.fInTried = true ∧ triedSlot env nKey e.service = (b, i)
  tried_mem : ∀ nId e, entries nId = some e → e.fInTried = true →
    vvTried (triedSlot env nKey e.service).1 (triedSlot env nKey e.service).2 = nId
  new_slot : ∀ b i, vvNew b i ≠ -1 →
    ∃ e, entries (vvNew b i) = some e ∧ e.fInTried = false ∧ newPos env nKey e.service b = i
  refCount_eq : ∀ nId e, entries nId = some e → e.nRefCount = newRefs env nKey vvNew nId e.service

/-- The new entries among `P` have between one and `ADDRMAN_NEW_BUCKETS_PER_ADDRESS` references. -/
def RefRangeOn (entries : ℤ → Option (TableEntry A)) (P : ℤ → Prop) : Prop :=
  ∀ nId e, P nId → entries nId = some e → e.fInTried = false →
    1 ≤ e.nRefCount ∧ e.nRefCount ≤ addrmanNewBucketsPerAddress

/-- `nNew` and `nTried` count the new and the tried entries. -/
structure Counts (s : CAddrMan A K) : Prop where
  nNew_eq : s.nNew = s.vRandom.countP (isNew s.entries)
  nTried_eq : s.nTried = s.vRandom.countP (isTried s.entries)

/-- The positions and the tables, which every private operation keeps. -/
structure Core (s : CAddrMan A K) : Prop where
  positions : s.Positions
  tables : TablesAgree env s.nKey s.entries s.vvNew s.vvTried

/-- The structural invariant of `CAddrMan`. -/
structure Consistent (s : CAddrMan A K) : Prop where
  core : Core env s
  refRange : RefRangeOn s.entries fun _ => True
  counts : s.Counts

/-! ### The fields of the updates -/

section Fields

variable (s : CAddrMan A K)

@[simp] theorem setInfo_mapInfo (nId : ℤ) (info : CAddrInfo A) :
    (s.setInfo nId info).mapInfo = Function.update s.mapInfo nId (some info) := rfl
@[simp] theorem setInfo_vRandom (nId info) : (s.setInfo nId info).vRandom = s.vRandom := rfl
@[simp] theorem setInfo_mapAddr (nId info) : (s.setInfo nId info).mapAddr = s.mapAddr := rfl
@[simp] theorem setInfo_vvNew (nId info) : (s.setInfo nId info).vvNew = s.vvNew := rfl
@[simp] theorem setInfo_vvTried (nId info) : (s.setInfo nId info).vvTried = s.vvTried := rfl
@[simp] theorem setInfo_nKey (nId info) : (s.setInfo nId info).nKey = s.nKey := rfl
@[simp] theorem setInfo_nNew (nId info) : (s.setInfo nId info).nNew = s.nNew := rfl
@[simp] theorem setInfo_nTried (nId info) : (s.setInfo nId info).nTried = s.nTried := rfl

@[simp] theorem setNew_vvTried (b i v) : (s.setNew b i v).vvTried = s.vvTried := rfl
@[simp] theorem setNew_nKey (b i v) : (s.setNew b i v).nKey = s.nKey := rfl

@[simp] theorem setTried_mapInfo (b i v) : (s.setTried b i v).mapInfo = s.mapInfo := rfl
@[simp] theorem setTried_vvNew (b i v) : (s.setTried b i v).vvNew = s.vvNew := rfl
@[simp] theorem setTried_nKey (b i v) : (s.setTried b i v).nKey = s.nKey := rfl

@[simp] theorem addNew_mapInfo (d) : (s.addNew d).mapInfo = s.mapInfo := rfl
@[simp] theorem addNew_vRandom (d) : (s.addNew d).vRandom = s.vRandom := rfl
@[simp] theorem addNew_vvTried (d) : (s.addNew d).vvTried = s.vvTried := rfl
@[simp] theorem addNew_nKey (d) : (s.addNew d).nKey = s.nKey := rfl
@[simp] theorem addNew_nNew (d) : (s.addNew d).nNew = s.nNew + d := rfl

@[simp] theorem addTried_mapInfo (d) : (s.addTried d).mapInfo = s.mapInfo := rfl
@[simp] theorem addTried_vRandom (d) : (s.addTried d).vRandom = s.vRandom := rfl
@[simp] theorem addTried_vvNew (d) : (s.addTried d).vvNew = s.vvNew := rfl
@[simp] theorem addTried_vvTried (d) : (s.addTried d).vvTried = s.vvTried := rfl
@[simp] theorem addTried_nKey (d) : (s.addTried d).nKey = s.nKey := rfl
@[simp] theorem addTried_nTried (d) : (s.addTried d).nTried = s.nTried + d := rfl

theorem info_of_mapInfo {s : CAddrMan A K} {nId : ℤ} {info : CAddrInfo A}
    (h : s.mapInfo nId = some info) : s.info nId = info := by
  rw [CAddrMan.info, h, Option.getD_some]

theorem entries_setInfo (nId : ℤ) (info : CAddrInfo A) :
    (s.setInfo nId info).entries = Function.update s.entries nId (some info.tableEntry) := by
  funext x
  by_cases hx : x = nId
  · subst hx
    simp [entries]
  · simp [entries, Function.update_of_ne hx]

theorem randomPos_setInfo (nId : ℤ) (info : CAddrInfo A) :
    (s.setInfo nId info).randomPos =
      Function.update s.randomPos nId (some info.nRandomPos.toNat) := by
  funext x
  by_cases hx : x = nId
  · subst hx
    simp [randomPos]
  · simp [randomPos, Function.update_of_ne hx]

theorem setNew_apply (b : Fin addrmanNewBucketCount) (i : Fin addrmanBucketSize) (v : ℤ) (b' i') :
    (s.setNew b i v).vvNew b' i' = if b' = b ∧ i' = i then v else s.vvNew b' i' := by
  by_cases hb : b' = b
  · subst hb
    by_cases hi : i' = i
    · subst hi
      simp [setNew]
    · simp [setNew, hi]
  · simp [setNew, hb]

theorem setTried_apply (b : Fin addrmanTriedBucketCount) (i : Fin addrmanBucketSize) (v : ℤ) (b' i') :
    (s.setTried b i v).vvTried b' i' = if b' = b ∧ i' = i then v else s.vvTried b' i' := by
  by_cases hb : b' = b
  · subst hb
    by_cases hi : i' = i
    · subst hi
      simp [setTried]
    · simp [setTried, hi]
  · simp [setTried, hb]

end Fields

/-! ### Updating an entry -/

section Update

variable {s : CAddrMan A K} {nId : ℤ} {info info' : CAddrInfo A}

theorem addr_eq_of_tableEntry (he : info'.tableEntry = info.tableEntry) : info'.addr = info.addr :=
  congrArg (fun e : TableEntry A => e.service.addr) he

/-- Updating a stored entry keeps the positions if its address and position stay. -/
theorem positions_setInfo (h : s.Positions) (hm : s.mapInfo nId = some info)
    (haddr : info'.addr = info.addr) (hpos : info'.nRandomPos = info.nRandomPos) :
    (s.setInfo nId info').Positions := by
  have hrp : (s.setInfo nId info').randomPos = s.randomPos := by
    rw [randomPos_setInfo, hpos]
    exact Function.update_eq_self_iff.mpr (by simp [randomPos, hm])
  refine ⟨?_, fun x i hx => ?_, h.nIdCount_nonneg, fun x hx => ?_, fun a x => ?_⟩
  · rw [hrp]
    exact h.indexes
  · by_cases hxn : x = nId
    · subst hxn
      simp only [setInfo_mapInfo, Function.update_self, Option.some_inj] at hx
      subst hx
      rw [hpos]
      exact h.randomPos_nonneg _ _ hm
    · rw [setInfo_mapInfo, Function.update_of_ne hxn] at hx
      exact h.randomPos_nonneg _ _ hx
  · by_cases hxn : x = nId
    · subst hxn
      exact h.id_range x (by simp [hm])
    · rw [setInfo_mapInfo, Function.update_of_ne hxn] at hx
      exact h.id_range x hx
  · rw [setInfo_mapAddr, h.mapAddr_iff]
    by_cases hxn : x = nId
    · subst hxn
      simp [hm, haddr]
    · simp [Function.update_of_ne hxn]

theorem entries_setInfo_of_tableEntry (hm : s.mapInfo nId = some info)
    (he : info'.tableEntry = info.tableEntry) : (s.setInfo nId info').entries = s.entries := by
  rw [entries_setInfo, he]
  exact Function.update_eq_self_iff.mpr (by simp [entries, hm])

/-- Updating what the tables do not read of a stored entry keeps the positions and the tables. -/
theorem core_setInfo (h : Core env s) (hm : s.mapInfo nId = some info)
    (he : info'.tableEntry = info.tableEntry) (hpos : info'.nRandomPos = info.nRandomPos) :
    Core env (s.setInfo nId info') := by
  refine ⟨positions_setInfo h.positions hm (addr_eq_of_tableEntry he) hpos, ?_⟩
  rw [entries_setInfo_of_tableEntry hm he]
  exact h.tables

/-- Updating what the tables do not read of a stored entry keeps the invariant. -/
theorem consistent_setInfo (h : Consistent env s) (hm : s.mapInfo nId = some info)
    (he : info'.tableEntry = info.tableEntry) (hpos : info'.nRandomPos = info.nRandomPos) :
    Consistent env (s.setInfo nId info') := by
  have hent := entries_setInfo_of_tableEntry hm he
  refine ⟨core_setInfo env h.core hm he hpos, ?_, ?_⟩
  · rw [hent]
    exact h.refRange
  · exact ⟨by rw [hent]; exact h.counts.nNew_eq, by rw [hent]; exact h.counts.nTried_eq⟩

end Update

/-! ### Reading the tables -/

section Tables

variable {s : CAddrMan A K}

theorem entries_eq_some {x : ℤ} {e : TableEntry A} :
    s.entries x = some e ↔ ∃ info, s.mapInfo x = some info ∧ info.tableEntry = e :=
  Option.map_eq_some_iff

theorem info_tableEntry {x : ℤ} {e : TableEntry A} (hx : s.entries x = some e) :
    (s.info x).tableEntry = e := by
  obtain ⟨info, hm, rfl⟩ := entries_eq_some.mp hx
  rw [info_of_mapInfo hm]

theorem Positions.ne_neg_one (h : s.Positions) {x : ℤ} {e : TableEntry A}
    (hx : s.entries x = some e) : x ≠ -1 := by
  obtain ⟨info, hm, -⟩ := entries_eq_some.mp hx
  have := (h.id_range x (by simp [hm])).1
  omega

theorem positions_setNew (b i v) : (s.setNew b i v).Positions ↔ s.Positions :=
  ⟨fun h => ⟨h.1, h.2, h.3, h.4, h.5⟩, fun h => ⟨h.1, h.2, h.3, h.4, h.5⟩⟩

theorem positions_setTried (b i v) : (s.setTried b i v).Positions ↔ s.Positions :=
  ⟨fun h => ⟨h.1, h.2, h.3, h.4, h.5⟩, fun h => ⟨h.1, h.2, h.3, h.4, h.5⟩⟩

theorem positions_addNew (d) : (s.addNew d).Positions ↔ s.Positions :=
  ⟨fun h => ⟨h.1, h.2, h.3, h.4, h.5⟩, fun h => ⟨h.1, h.2, h.3, h.4, h.5⟩⟩

theorem positions_addTried (d) : (s.addTried d).Positions ↔ s.Positions :=
  ⟨fun h => ⟨h.1, h.2, h.3, h.4, h.5⟩, fun h => ⟨h.1, h.2, h.3, h.4, h.5⟩⟩

theorem core_addNew (d) : Core env (s.addNew d) ↔ Core env s :=
  ⟨fun h => ⟨(positions_addNew d).mp h.1, h.2⟩, fun h => ⟨(positions_addNew d).mpr h.1, h.2⟩⟩

@[simp] theorem entries_setNew (b i v) : (s.setNew b i v).entries = s.entries := rfl

@[simp] theorem entries_setTried (b i v) : (s.setTried b i v).entries = s.entries := rfl

@[simp] theorem entries_addNew (d) : (s.addNew d).entries = s.entries := rfl

@[simp] theorem entries_addTried (d) : (s.addTried d).entries = s.entries := rfl

/-- A slot of the new table counts towards the references of the entry it holds. -/
theorem TablesAgree.refCount_pos {nKey : K} {E : ℤ → Option (TableEntry A)} {vvNew vvTried}
    (h : TablesAgree env nKey E vvNew vvTried) {b i} (hslot : vvNew b i ≠ -1) :
    ∃ e, E (vvNew b i) = some e ∧ e.fInTried = false ∧ 0 < e.nRefCount := by
  obtain ⟨e, he, hnt, hpos⟩ := h.new_slot b i hslot
  refine ⟨e, he, hnt, ?_⟩
  rw [h.refCount_eq _ e he, Int.natCast_pos, newRefs, Finset.card_pos]
  exact ⟨b, by simp [hpos]⟩

/-- An entry without references is in no slot of the new table. -/
theorem TablesAgree.new_ne_of_refCount {nKey : K} {E : ℤ → Option (TableEntry A)} {vvNew vvTried}
    (h : TablesAgree env nKey E vvNew vvTried) {x : ℤ} {e : TableEntry A} (hx : E x = some e)
    (hx1 : x ≠ -1) (h0 : e.nRefCount = 0) (b i) : vvNew b i ≠ x := by
  intro hslot
  obtain ⟨e', he', -, hpos⟩ := h.refCount_pos env (b := b) (i := i) (hslot ▸ hx1)
  rw [hslot, hx, Option.some_inj] at he'
  subst he'
  omega

/-- A new entry is in no slot of the tried table. -/
theorem TablesAgree.tried_ne_of_new {nKey : K} {E : ℤ → Option (TableEntry A)} {vvNew vvTried}
    (h : TablesAgree env nKey E vvNew vvTried) {x : ℤ} {e : TableEntry A} (hx : E x = some e)
    (hnt : e.fInTried = false) (hx1 : x ≠ -1) (b i) : vvTried b i ≠ x := by
  intro hslot
  obtain ⟨e', he', ht, -⟩ := h.tried_slot b i (hslot ▸ hx1)
  rw [hslot, hx, Option.some_inj] at he'
  subst he'
  rw [hnt] at ht
  cases ht

/-- A missing entry is in no slot. -/
theorem TablesAgree.ne_of_none {nKey : K} {E : ℤ → Option (TableEntry A)} {vvNew vvTried}
    (h : TablesAgree env nKey E vvNew vvTried) {x : ℤ} (hx : E x = none) (hx1 : x ≠ -1) :
    (∀ b i, vvNew b i ≠ x) ∧ ∀ b i, vvTried b i ≠ x := by
  constructor
  · intro b i hslot
    obtain ⟨e, he, -⟩ := h.new_slot b i (hslot ▸ hx1)
    rw [hslot, hx] at he
    cases he
  · intro b i hslot
    obtain ⟨e, he, -⟩ := h.tried_slot b i (hslot ▸ hx1)
    rw [hslot, hx] at he
    cases he

/-- Writing one slot of the new table changes the references of an entry by what it did there. -/
theorem newRefs_setNew (b : Fin addrmanNewBucketCount) (i : Fin addrmanBucketSize) (v y : ℤ)
    (svc : CService A) :
    (newRefs env s.nKey (s.setNew b i v).vvNew y svc : ℤ) +
        (if s.vvNew b (newPos env s.nKey svc b) = y then 1 else 0) =
      newRefs env s.nKey s.vvNew y svc +
        (if (s.setNew b i v).vvNew b (newPos env s.nKey svc b) = y then 1 else 0) := by
  refine card_filter_update (p := fun b' => s.vvNew b' (newPos env s.nKey svc b') = y)
    (q := fun b' => (s.setNew b i v).vvNew b' (newPos env s.nKey svc b') = y) b fun b' hb' => ?_
  rw [setNew_apply, if_neg (fun h => hb' h.1)]

/-- A write that neither removes nor puts `y` leaves its references. -/
theorem newRefs_setNew_of_ne {b i} {v y : ℤ} (hold : s.vvNew b i ≠ y) (hv : v ≠ y)
    (svc : CService A) : newRefs env s.nKey (s.setNew b i v).vvNew y svc =
      newRefs env s.nKey s.vvNew y svc := by
  have h := newRefs_setNew env (s := s) b i v y svc
  rw [setNew_apply] at h
  by_cases hpos : newPos env s.nKey svc b = i
  · simp only [hpos, and_self, if_true, if_neg hv, if_neg hold] at h
    omega
  · simp only [hpos, and_false, if_false] at h
    omega

/-- Emptying the slot of `x` in a bucket takes one reference from it. -/
theorem newRefs_setNew_clear {b i} {x : ℤ} {svc : CService A} (hx : s.vvNew b i = x)
    (hx1 : x ≠ -1) (hpos : newPos env s.nKey svc b = i) :
    (newRefs env s.nKey (s.setNew b i (-1)).vvNew x svc : ℤ) =
      newRefs env s.nKey s.vvNew x svc - 1 := by
  have h := newRefs_setNew env (s := s) b i (-1) x svc
  simp only [setNew_apply, hpos, and_self, if_true, if_neg (Ne.symm hx1), hx] at h
  omega

/-- Filling an empty slot of `x` in a bucket gives it one reference more. -/
theorem newRefs_setNew_fill {b i} {x : ℤ} {svc : CService A} (hx : s.vvNew b i = -1)
    (hx1 : x ≠ -1) (hpos : newPos env s.nKey svc b = i) :
    (newRefs env s.nKey (s.setNew b i x).vvNew x svc : ℤ) =
      newRefs env s.nKey s.vvNew x svc + 1 := by
  have h := newRefs_setNew env (s := s) b i x x svc
  simp only [setNew_apply, hpos, and_self, if_true, hx, if_neg (Ne.symm hx1)] at h
  omega

end Tables

/-! ### Moving an entry in the new table -/

section Relink

variable {s : CAddrMan A K}

theorem setInfo_setNew_comm (x : ℤ) (info : CAddrInfo A) (b i v) :
    (s.setInfo x info).setNew b i v = (s.setNew b i v).setInfo x info := rfl

/-- Emptying or filling the slot of a new entry `x` in one bucket, with its reference count
following, keeps the tables. -/
theorem tables_setNew_self (h : TablesAgree env s.nKey s.entries s.vvNew s.vvTried)
    (hid : ∀ y e, s.entries y = some e → y ≠ -1) {x : ℤ} {e : TableEntry A}
    (hx : s.entries x = some e) (hnt : e.fInTried = false) (b : Fin addrmanNewBucketCount)
    {v : ℤ} (hv : v = -1 ∨ v = x)
    (hold : s.vvNew b (newPos env s.nKey e.service b) = -1 ∨
      s.vvNew b (newPos env s.nKey e.service b) = x) {r : ℤ}
    (hr : r = newRefs env s.nKey (s.setNew b (newPos env s.nKey e.service b) v).vvNew x e.service) :
    TablesAgree env s.nKey (Function.update s.entries x (some { e with nRefCount := r }))
      (s.setNew b (newPos env s.nKey e.service b) v).vvNew s.vvTried := by
  have hx1 := hid x e hx
  refine ⟨fun b' i' hslot => ?_, fun y e' hy ht => ?_, fun b' i' hslot => ?_, fun y e' hy => ?_⟩
  · obtain ⟨ey, hey, ht, hpos⟩ := h.tried_slot b' i' hslot
    have hne : s.vvTried b' i' ≠ x := h.tried_ne_of_new env hx hnt hx1 b' i'
    exact ⟨ey, by rw [Function.update_of_ne hne, hey], ht, hpos⟩
  · by_cases hyx : y = x
    · subst hyx
      rw [Function.update_self, Option.some_inj] at hy
      subst hy
      rw [hnt] at ht
      cases ht
    · rw [Function.update_of_ne hyx] at hy
      exact h.tried_mem y e' hy ht
  · rw [setNew_apply] at hslot ⊢
    split_ifs at hslot ⊢ with hbi
    · -- the written slot now holds `x`
      have hvx : v = x := hv.resolve_left hslot
      subst hvx
      obtain ⟨rfl, rfl⟩ := hbi
      exact ⟨_, Function.update_self _ _ _, hnt, rfl⟩
    · obtain ⟨ey, hey, hnty, hpos⟩ := h.new_slot b' i' hslot
      by_cases hyx : s.vvNew b' i' = x
      · rw [hyx] at hey ⊢
        rw [hx, Option.some_inj] at hey
        subst hey
        exact ⟨_, Function.update_self _ _ _, hnty, hpos⟩
      · exact ⟨ey, by rw [Function.update_of_ne hyx, hey], hnty, hpos⟩
  · by_cases hyx : y = x
    · subst hyx
      rw [Function.update_self, Option.some_inj] at hy
      subst hy
      exact hr
    · rw [Function.update_of_ne hyx] at hy
      have hy1 := hid y e' hy
      rw [h.refCount_eq y e' hy, newRefs_setNew_of_ne env ?_ ?_]
      · rcases hold with hold | hold <;> rw [hold] <;> [exact Ne.symm hy1; exact Ne.symm hyx]
      · rcases hv with hv | hv <;> rw [hv] <;> [exact Ne.symm hy1; exact Ne.symm hyx]

theorem Core.id_ne {env' : AddrManEnv A K} (h : Core env' s) :
    ∀ y e, s.entries y = some e → y ≠ -1 :=
  fun _ _ hy => h.positions.ne_neg_one hy

/-- Emptying a slot of the new table and taking one reference from its entry, as `ClearNew` and
the loop of `MakeTried` do, keeps the positions and the tables. -/
theorem core_unlink (h : Core env s) {b : Fin addrmanNewBucketCount} {i : Fin addrmanBucketSize}
    (hx1 : s.vvNew b i ≠ -1) :
    Core env ((s.setNew b i (-1)).setInfo (s.vvNew b i)
      { s.info (s.vvNew b i) with nRefCount := (s.info (s.vvNew b i)).nRefCount - 1 }) := by
  obtain ⟨e, he, hnt, hpos⟩ := h.tables.new_slot b i hx1
  obtain ⟨info, hm, rfl⟩ := entries_eq_some.mp he
  rw [info_of_mapInfo hm]
  refine ⟨positions_setInfo ((positions_setNew _ _ _).mpr h.positions) hm rfl rfl, ?_⟩
  rw [entries_setInfo, setInfo_vvNew, setInfo_vvTried, setInfo_nKey, entries_setNew,
    setNew_vvTried, setNew_nKey]
  subst hpos
  have hr := newRefs_setNew_clear env (s := s) rfl hx1 rfl
  rw [← h.tables.refCount_eq _ _ he] at hr
  exact tables_setNew_self env h.tables h.id_ne he hnt b (Or.inl rfl) (Or.inr rfl) hr.symm

/-- Putting a new entry in the empty slot it has in a bucket, with one reference more, as `Add_`
and the eviction of `MakeTried` do, keeps the positions and the tables. -/
theorem core_link (h : Core env s) {x : ℤ} {e : TableEntry A} (hx : s.entries x = some e)
    (hnt : e.fInTried = false) {b : Fin addrmanNewBucketCount} {i : Fin addrmanBucketSize}
    (hi : newPos env s.nKey e.service b = i) (hempty : s.vvNew b i = -1) {r : ℤ}
    (hr : r = e.nRefCount + 1) :
    Core env ((s.setInfo x { s.info x with nRefCount := r }).setNew b i x) := by
  subst hi
  obtain ⟨info, hm, rfl⟩ := entries_eq_some.mp hx
  rw [info_of_mapInfo hm, setInfo_setNew_comm]
  refine ⟨positions_setInfo ((positions_setNew _ _ _).mpr h.positions) hm rfl rfl, ?_⟩
  rw [entries_setInfo, setInfo_vvNew, setInfo_vvTried, setInfo_nKey, entries_setNew,
    setNew_vvTried, setNew_nKey]
  have hfill := newRefs_setNew_fill env (s := s) hempty (h.id_ne x _ hx) rfl
  rw [← h.tables.refCount_eq _ _ hx] at hfill
  exact tables_setNew_self env h.tables h.id_ne hx hnt b (Or.inr rfl) (Or.inl hempty)
    (hr.trans hfill.symm)

end Relink

/-! ### Marking an entry tried or new -/

section Mark

variable {s : CAddrMan A K}

/-- A tried entry is in no bucket of the new table. -/
theorem TablesAgree.newRefs_eq_zero_of_tried {nKey : K} {E : ℤ → Option (TableEntry A)}
    {vvNew vvTried} (h : TablesAgree env nKey E vvNew vvTried) {x : ℤ} {e : TableEntry A}
    (hx : E x = some e) (ht : e.fInTried = true) (hx1 : x ≠ -1) :
    newRefs env nKey vvNew x e.service = 0 := by
  rw [newRefs, Finset.card_eq_zero, Finset.filter_eq_empty_iff]
  intro b _ hb
  obtain ⟨e', he', hnt, -⟩ := h.new_slot b _ (hb ▸ hx1)
  rw [hb, hx, Option.some_inj] at he'
  subst he'
  rw [ht] at hnt
  cases hnt

/-- Putting a new entry without references in its empty tried slot and marking it tried, as the
end of `MakeTried` does, keeps the positions and the tables. -/
theorem core_markTried (h : Core env s) {x : ℤ} {e : TableEntry A} (hx : s.entries x = some e)
    (hnt : e.fInTried = false) (h0 : e.nRefCount = 0) {b : Fin addrmanTriedBucketCount}
    {i : Fin addrmanBucketSize} (hbi : triedSlot env s.nKey e.service = (b, i))
    (hempty : s.vvTried b i = -1) (d : ℤ) :
    Core env (((s.setTried b i x).addTried d).setInfo x { s.info x with fInTried := true }) := by
  obtain ⟨rfl, rfl⟩ : (triedSlot env s.nKey e.service).1 = b ∧
      (triedSlot env s.nKey e.service).2 = i := by
    rw [hbi]
    exact ⟨rfl, rfl⟩
  obtain ⟨info, hm, rfl⟩ := entries_eq_some.mp hx
  rw [info_of_mapInfo hm]
  have hx1 := h.id_ne x _ hx
  refine ⟨positions_setInfo ((positions_addTried _).mpr ((positions_setTried _ _ _).mpr
    h.positions)) hm rfl rfl, ?_⟩
  rw [entries_setInfo, setInfo_vvNew, setInfo_vvTried, setInfo_nKey, entries_addTried,
    addTried_vvNew, addTried_vvTried, addTried_nKey, entries_setTried, setTried_vvNew,
    setTried_nKey]
  refine ⟨fun b' i' hslot => ?_, fun y e' hy ht => ?_, fun b' i' hslot => ?_, fun y e' hy => ?_⟩
  · rw [setTried_apply] at hslot ⊢
    split_ifs at hslot ⊢ with hbi
    · -- the slot of `x`
      refine ⟨_, Function.update_self _ _ _, rfl, ?_⟩
      rw [Prod.ext_iff]
      exact ⟨hbi.1.symm, hbi.2.symm⟩
    · obtain ⟨ey, hey, hty, hpos⟩ := h.tables.tried_slot b' i' hslot
      have hne : s.vvTried b' i' ≠ x := h.tables.tried_ne_of_new env hx hnt hx1 b' i'
      exact ⟨ey, by rw [Function.update_of_ne hne, hey], hty, hpos⟩
  · rw [setTried_apply]
    by_cases hyx : y = x
    · subst hyx
      rw [Function.update_self, Option.some_inj] at hy
      subst hy
      rw [if_pos ⟨rfl, rfl⟩]
    · rw [Function.update_of_ne hyx] at hy
      have hmem := h.tables.tried_mem y e' hy ht
      -- the slot of `y` is not the empty slot of `x`
      rw [if_neg, hmem]
      rintro ⟨hb, hi⟩
      rw [hb, hi, hempty] at hmem
      exact h.id_ne y e' hy hmem.symm
  · obtain ⟨ey, hey, hnty, hpos⟩ := h.tables.new_slot b' i' hslot
    have hne : s.vvNew b' i' ≠ x := h.tables.new_ne_of_refCount env hx hx1 h0 b' i'
    exact ⟨ey, by rw [Function.update_of_ne hne, hey], hnty, hpos⟩
  · by_cases hyx : y = x
    · subst hyx
      rw [Function.update_self, Option.some_inj] at hy
      subst hy
      exact h.tables.refCount_eq y info.tableEntry hx
    · rw [Function.update_of_ne hyx] at hy
      exact h.tables.refCount_eq y e' hy

/-- Emptying a tried slot and marking its entry new, as the eviction of `MakeTried` starts, keeps
the positions and the tables. -/
theorem core_unmarkTried (h : Core env s) {b : Fin addrmanTriedBucketCount}
    {i : Fin addrmanBucketSize} (hx1 : s.vvTried b i ≠ -1) (d : ℤ) :
    Core env (((s.setInfo (s.vvTried b i) { s.info (s.vvTried b i) with fInTried := false }).setTried
      b i (-1)).addTried d) := by
  obtain ⟨e, he, ht, hslot⟩ := h.tables.tried_slot b i hx1
  obtain ⟨info, hm, rfl⟩ := entries_eq_some.mp he
  rw [info_of_mapInfo hm]
  refine ⟨(positions_addTried _).mpr ((positions_setTried _ _ _).mpr
    (positions_setInfo h.positions hm rfl rfl)), ?_⟩
  rw [entries_addTried, addTried_vvNew, addTried_vvTried, addTried_nKey, entries_setTried,
    setTried_vvNew, setTried_nKey, entries_setInfo, setInfo_vvNew, setInfo_nKey]
  refine ⟨fun b' i' hslot' => ?_, fun y e' hy ht' => ?_, fun b' i' hslot' => ?_, fun y e' hy => ?_⟩
  · rw [setTried_apply] at hslot' ⊢
    split_ifs at hslot' ⊢ with hbi
    · exact absurd rfl hslot'
    · obtain ⟨ey, hey, hty, hpos⟩ := h.tables.tried_slot b' i' hslot'
      -- another tried slot holds another entry
      have hne : s.vvTried b' i' ≠ s.vvTried b i := by
        intro hxy
        rw [hxy, he, Option.some_inj] at hey
        subst hey
        rw [hslot, Prod.ext_iff] at hpos
        exact hbi ⟨hpos.1.symm, hpos.2.symm⟩
      exact ⟨ey, by rw [setInfo_vvTried, Function.update_of_ne hne, hey], hty, hpos⟩
  · by_cases hyx : y = s.vvTried b i
    · rw [hyx, Function.update_self, Option.some_inj] at hy
      subst hy
      cases ht'
    · rw [Function.update_of_ne hyx] at hy
      have hmem := h.tables.tried_mem y e' hy ht'
      rw [setTried_apply, if_neg, setInfo_vvTried, hmem]
      rintro ⟨hb, hi⟩
      rw [hb, hi] at hmem
      exact hyx hmem.symm
  · obtain ⟨ey, hey, hnty, hpos⟩ := h.tables.new_slot b' i' hslot'
    have hne : s.vvNew b' i' ≠ s.vvTried b i := by
      intro hxy
      rw [hxy, he, Option.some_inj] at hey
      subst hey
      rw [ht] at hnty
      cases hnty
    exact ⟨ey, by rw [Function.update_of_ne hne, hey], hnty, hpos⟩
  · by_cases hyx : y = s.vvTried b i
    · rw [hyx, Function.update_self, Option.some_inj] at hy
      subst hy
      rw [← hyx] at he
      exact h.tables.refCount_eq y info.tableEntry he
    · rw [Function.update_of_ne hyx] at hy
      exact h.tables.refCount_eq y e' hy

end Mark

/-! ### Adding and removing entries -/

section Entries

variable {s : CAddrMan A K}

/-- The positions of a state whose index, counter and address map are in order, and whose
entries have the addresses of another's that has its positions. -/
theorem positions_of {s' : CAddrMan A K} (h : s.Positions)
    (hidx : Indexes s'.vRandom s'.randomPos)
    (hnonneg : ∀ y info, s'.mapInfo y = some info → 0 ≤ info.nRandomPos)
    (hcount : s'.nIdCount = s.nIdCount) (haddr : s'.mapAddr = s.mapAddr)
    (hmap : ∀ y, (s'.mapInfo y).map (·.addr) = (s.mapInfo y).map (·.addr)) : s'.Positions := by
  refine ⟨hidx, hnonneg, hcount ▸ h.nIdCount_nonneg, fun y hy => ?_, fun a y => ?_⟩
  · have hs : (s.mapInfo y).isSome := by
      rw [← Option.isSome_map (f := (·.addr)), ← hmap, Option.isSome_map]
      exact hy
    rw [hcount]
    exact h.id_range y hs
  · rw [haddr, h.mapAddr_iff, ← Option.map_eq_some_iff, ← Option.map_eq_some_iff, hmap]

/-- Giving an entry that no slot holds another value without references or leaving it out keeps
the tables. -/
theorem TablesAgree.update_unslotted {nKey : K} {E : ℤ → Option (TableEntry A)} {vvNew vvTried}
    (h : TablesAgree env nKey E vvNew vvTried) {x : ℤ} (hnew : ∀ b i, vvNew b i ≠ x)
    (htried : ∀ b i, vvTried b i ≠ x) (o : Option (TableEntry A))
    (ho : ∀ e, o = some e → e.fInTried = false ∧ e.nRefCount = 0) :
    TablesAgree env nKey (Function.update E x o) vvNew vvTried := by
  refine ⟨fun b i hslot => ?_, fun y e hy ht => ?_, fun b i hslot => ?_, fun y e hy => ?_⟩
  · rw [Function.update_of_ne (htried b i)]
    exact h.tried_slot b i hslot
  · by_cases hyx : y = x
    · subst hyx
      rw [Function.update_self] at hy
      rw [(ho e hy).1] at ht
      cases ht
    · rw [Function.update_of_ne hyx] at hy
      exact h.tried_mem y e hy ht
  · rw [Function.update_of_ne (hnew b i)]
    exact h.new_slot b i hslot
  · by_cases hyx : y = x
    · subst hyx
      rw [Function.update_self] at hy
      rw [(ho e hy).2, newRefs, Finset.card_eq_zero.mpr (Finset.filter_eq_empty_iff.mpr
        fun b _ => hnew b _)]
      rfl
    · rw [Function.update_of_ne hyx] at hy
      exact h.refCount_eq y e hy

theorem mapInfo_nIdCount (h : s.Positions) : s.mapInfo s.nIdCount = none := by
  cases hm : s.mapInfo s.nIdCount with
  | none => rfl
  | some _ =>
    have := (h.id_range s.nIdCount (by rw [hm]; rfl)).2
    omega

@[simp] theorem create_snd (addr : CAddress A) (source : A) :
    (s.create addr source).2 = s.nIdCount := rfl

@[simp] theorem create_vvNew (addr : CAddress A) (source : A) :
    (s.create addr source).1.vvNew = s.vvNew := rfl

@[simp] theorem create_vvTried (addr : CAddress A) (source : A) :
    (s.create addr source).1.vvTried = s.vvTried := rfl

@[simp] theorem create_nKey (addr : CAddress A) (source : A) :
    (s.create addr source).1.nKey = s.nKey := rfl

@[simp] theorem create_nNew (addr : CAddress A) (source : A) :
    (s.create addr source).1.nNew = s.nNew := rfl

@[simp] theorem create_nTried (addr : CAddress A) (source : A) :
    (s.create addr source).1.nTried = s.nTried := rfl

@[simp] theorem create_vRandom (addr : CAddress A) (source : A) :
    (s.create addr source).1.vRandom = s.vRandom ++ [s.nIdCount] := rfl

theorem entries_create (addr : CAddress A) (source : A) :
    (s.create addr source).1.entries =
      Function.update s.entries s.nIdCount (some ⟨addr.toCService, false, 0⟩) := by
  funext y
  by_cases hy : y = s.nIdCount
  · subst hy
    simp [entries, create, CAddrInfo.tableEntry, CAddrInfo.ofAddress]
  · simp [entries, create, Function.update_of_ne hy]

/-- `Create`, for an address that `mapAddr` does not know, keeps the positions and the tables. -/
theorem core_create (h : Core env s) (addr : CAddress A) (source : A)
    (hnone : s.mapAddr addr.addr = none) : Core env (s.create addr source).1 := by
  have hfresh := mapInfo_nIdCount h.positions
  have hrp : (s.create addr source).1.randomPos =
      Function.update s.randomPos s.nIdCount (some s.vRandom.length) := by
    funext y
    by_cases hy : y = s.nIdCount
    · subst hy
      simp [randomPos, create]
    · simp [randomPos, create, Function.update_of_ne hy]
  refine ⟨⟨?_, fun y info hy => ?_, ?_, fun y hy => ?_, fun a y => ?_⟩, ?_⟩
  · rw [create_vRandom, hrp]
    exact h.positions.indexes.append (by simp [randomPos, hfresh])
  · by_cases hyn : y = s.nIdCount
    · subst hyn
      simp only [create, Function.update_self, Option.some_inj] at hy
      subst hy
      exact Int.natCast_nonneg _
    · simp only [create, Function.update_of_ne hyn] at hy
      exact h.positions.randomPos_nonneg y info hy
  · have := h.positions.nIdCount_nonneg
    simp only [create]
    omega
  · have := h.positions.nIdCount_nonneg
    by_cases hyn : y = s.nIdCount
    · subst hyn
      simp only [create]
      omega
    · simp only [create, Function.update_of_ne hyn] at hy ⊢
      have := h.positions.id_range y hy
      omega
  · simp only [create]
    by_cases ha : a = addr.addr
    · subst ha
      rw [Function.update_self]
      constructor
      · rintro ⟨⟩
        exact ⟨_, Function.update_self _ _ _, rfl⟩
      · rintro ⟨info, hy, hia⟩
        by_cases hyn : y = s.nIdCount
        · rw [hyn]
        · rw [Function.update_of_ne hyn] at hy
          have := (h.positions.mapAddr_iff info.addr y).mpr ⟨info, hy, rfl⟩
          rw [hia, hnone] at this
          cases this
    · rw [Function.update_of_ne ha, h.positions.mapAddr_iff]
      by_cases hyn : y = s.nIdCount
      · subst hyn
        simp only [Function.update_self, hfresh]
        constructor
        · rintro ⟨_, hy, _⟩
          cases hy
        · rintro ⟨info, hy, hia⟩
          rw [Option.some_inj] at hy
          subst hy
          exact absurd hia.symm ha
      · rw [Function.update_of_ne hyn]
  · rw [entries_create, create_vvNew, create_vvTried, create_nKey]
    have hnone' := h.tables.ne_of_none env (x := s.nIdCount) (by simp [entries, hfresh])
      (by have := h.positions.nIdCount_nonneg; omega)
    exact h.tables.update_unslotted env hnone'.1 hnone'.2 _ (by
      rintro e ⟨⟩
      exact ⟨rfl, rfl⟩)

end Entries

/-! ### Swapping two positions -/

section Swap

variable {s : CAddrMan A K} {u v : ℕ}

@[simp] theorem swapRandom_self (p : ℕ) : s.swapRandom p p = s := if_pos rfl

@[simp] theorem swapRandom_vvNew : (s.swapRandom u v).vvNew = s.vvNew := by
  unfold swapRandom; split_ifs <;> rfl

@[simp] theorem swapRandom_vvTried : (s.swapRandom u v).vvTried = s.vvTried := by
  unfold swapRandom; split_ifs <;> rfl

@[simp] theorem swapRandom_nKey : (s.swapRandom u v).nKey = s.nKey := by
  unfold swapRandom; split_ifs <;> rfl

@[simp] theorem swapRandom_nNew : (s.swapRandom u v).nNew = s.nNew := by
  unfold swapRandom; split_ifs <;> rfl

@[simp] theorem swapRandom_nTried : (s.swapRandom u v).nTried = s.nTried := by
  unfold swapRandom; split_ifs <;> rfl

@[simp] theorem swapRandom_nIdCount : (s.swapRandom u v).nIdCount = s.nIdCount := by
  unfold swapRandom; split_ifs <;> rfl

@[simp] theorem swapRandom_mapAddr : (s.swapRandom u v).mapAddr = s.mapAddr := by
  unfold swapRandom; split_ifs <;> rfl

@[simp] theorem swapRandom_mTriedCollisions :
    (s.swapRandom u v).mTriedCollisions = s.mTriedCollisions := by
  unfold swapRandom; split_ifs <;> rfl

/-- Every id of `vRandom` has an entry. -/
theorem Positions.mapInfo_of_mem (h : s.Positions) {x : ℤ} (hx : x ∈ s.vRandom) :
    ∃ info, s.mapInfo x = some info := by
  have hs := (h.indexes.mem_iff x).mp hx
  rw [randomPos, Option.isSome_map] at hs
  exact Option.isSome_iff_exists.mp hs

theorem swapRandom_vRandom (hu : u < s.vRandom.length) (hv : v < s.vRandom.length) :
    (s.swapRandom u v).vRandom = (s.vRandom.set u s.vRandom[v]).set v s.vRandom[u] := by
  by_cases hp : u = v
  · subst hp
    rw [swapRandom_self, List.set_getElem_self, List.set_getElem_self]
  · simp only [swapRandom, if_neg hp, List.getD_eq_getElem _ 0 hu, List.getD_eq_getElem _ 0 hv,
      setInfo_vRandom]

/-- The swap of two distinct positions writes each of the two entries with the other's position. -/
theorem swapRandom_mapInfo (hp : u ≠ v) (hu : u < s.vRandom.length)
    (hv : v < s.vRandom.length) (hne : s.vRandom[u] ≠ s.vRandom[v]) :
    (s.swapRandom u v).mapInfo =
      Function.update
        (Function.update s.mapInfo s.vRandom[u]
          (some { s.info s.vRandom[u] with nRandomPos := v }))
        s.vRandom[v] (some { s.info s.vRandom[v] with nRandomPos := u }) := by
  simp only [swapRandom, if_neg hp, List.getD_eq_getElem _ 0 hu, List.getD_eq_getElem _ 0 hv,
    setInfo_mapInfo]
  rw [CAddrMan.info, CAddrMan.info, setInfo_mapInfo, Function.update_of_ne hne.symm]
  rfl

/-- A swap of two positions of `vRandom` keeps what any view of the entries blind to their
position sees. -/
theorem swapRandom_map_mapInfo (h : s.Positions) (hu : u < s.vRandom.length)
    (hv : v < s.vRandom.length) {β : Type} (f : CAddrInfo A → β)
    (hf : ∀ info (p : ℤ), f { info with nRandomPos := p } = f info) (y : ℤ) :
    ((s.swapRandom u v).mapInfo y).map f = (s.mapInfo y).map f := by
  by_cases hp : u = v
  · subst hp
    rw [swapRandom_self]
  have hne : s.vRandom[u] ≠ s.vRandom[v] := fun he =>
    hp ((List.Nodup.getElem_inj_iff h.indexes.nodup).mp he)
  obtain ⟨info1, hm1⟩ := h.mapInfo_of_mem (List.getElem_mem hu)
  obtain ⟨info2, hm2⟩ := h.mapInfo_of_mem (List.getElem_mem hv)
  rw [swapRandom_mapInfo hp hu hv hne, info_of_mapInfo hm1, info_of_mapInfo hm2]
  by_cases hy2 : y = s.vRandom[v]
  · subst hy2
    rw [Function.update_self, hm2, Option.map_some, Option.map_some, hf]
  · rw [Function.update_of_ne hy2]
    by_cases hy1 : y = s.vRandom[u]
    · subst hy1
      rw [Function.update_self, hm1, Option.map_some, Option.map_some, hf]
    · rw [Function.update_of_ne hy1]

theorem entries_swapRandom (h : s.Positions) (hu : u < s.vRandom.length)
    (hv : v < s.vRandom.length) : (s.swapRandom u v).entries = s.entries :=
  funext (swapRandom_map_mapInfo h hu hv CAddrInfo.tableEntry fun _ _ => rfl)

theorem randomPos_swapRandom (h : s.Positions) (hu : u < s.vRandom.length)
    (hv : v < s.vRandom.length) :
    (s.swapRandom u v).randomPos =
      Function.update (Function.update s.randomPos s.vRandom[u] (some v)) s.vRandom[v]
        (some u) := by
  by_cases hp : u = v
  · subst hp
    rw [swapRandom_self, Function.update_idem, eq_comm, Function.update_eq_self_iff]
    exact (h.indexes.pos_getElem hu).symm
  have hne : s.vRandom[u] ≠ s.vRandom[v] := fun he =>
    hp ((List.Nodup.getElem_inj_iff h.indexes.nodup).mp he)
  funext y
  rw [randomPos, swapRandom_mapInfo hp hu hv hne]
  by_cases hy2 : y = s.vRandom[v]
  · subst hy2
    simp
  · by_cases hy1 : y = s.vRandom[u]
    · subst hy1
      simp [Function.update_of_ne hy2]
    · simp [Function.update_of_ne hy2, Function.update_of_ne hy1, randomPos]

/-- `SwapRandom` keeps the positions. -/
theorem positions_swapRandom (h : s.Positions) (hu : u < s.vRandom.length)
    (hv : v < s.vRandom.length) : (s.swapRandom u v).Positions := by
  refine positions_of h ?_ (fun y info hy => ?_) swapRandom_nIdCount swapRandom_mapAddr
    (swapRandom_map_mapInfo h hu hv _ fun _ _ => rfl)
  · rw [swapRandom_vRandom hu hv, randomPos_swapRandom h hu hv]
    exact h.indexes.swap hu hv
  · by_cases hp : u = v
    · subst hp
      rw [swapRandom_self] at hy
      exact h.randomPos_nonneg y info hy
    have hne : s.vRandom[u] ≠ s.vRandom[v] := fun he =>
      hp ((List.Nodup.getElem_inj_iff h.indexes.nodup).mp he)
    rw [swapRandom_mapInfo hp hu hv hne] at hy
    by_cases hy2 : y = s.vRandom[v]
    · subst hy2
      rw [Function.update_self, Option.some_inj] at hy
      rw [← hy]
      exact Int.natCast_nonneg _
    · rw [Function.update_of_ne hy2] at hy
      by_cases hy1 : y = s.vRandom[u]
      · subst hy1
        rw [Function.update_self, Option.some_inj] at hy
        rw [← hy]
        exact Int.natCast_nonneg _
      · rw [Function.update_of_ne hy1] at hy
        exact h.randomPos_nonneg y info hy

/-- `SwapRandom` keeps the positions and the tables. -/
theorem core_swapRandom (h : Core env s) (hu : u < s.vRandom.length)
    (hv : v < s.vRandom.length) : Core env (s.swapRandom u v) := by
  refine ⟨positions_swapRandom h.positions hu hv, ?_⟩
  rw [entries_swapRandom h.positions hu hv, swapRandom_vvNew, swapRandom_vvTried,
    swapRandom_nKey]
  exact h.tables

end Swap

/-! ### Deleting an entry -/

section Delete

variable {s : CAddrMan A K} {x : ℤ} {info : CAddrInfo A}

@[simp] theorem delete_vvNew : (s.delete x).vvNew = s.vvNew := swapRandom_vvNew

@[simp] theorem delete_vvTried : (s.delete x).vvTried = s.vvTried := swapRandom_vvTried

@[simp] theorem delete_nKey : (s.delete x).nKey = s.nKey := swapRandom_nKey

@[simp] theorem delete_nNew : (s.delete x).nNew = s.nNew - 1 := by
  show (s.swapRandom _ _).nNew - 1 = _
  rw [swapRandom_nNew]

@[simp] theorem delete_nTried : (s.delete x).nTried = s.nTried := swapRandom_nTried

@[simp] theorem delete_nIdCount : (s.delete x).nIdCount = s.nIdCount := swapRandom_nIdCount

@[simp] theorem delete_mTriedCollisions : (s.delete x).mTriedCollisions = s.mTriedCollisions :=
  swapRandom_mTriedCollisions

/-- The swap of `Delete` brings the entry to the last position of `vRandom`. -/
theorem delete_swap (h : s.Positions) (hm : s.mapInfo x = some info) :
    let s1 := s.swapRandom (s.info x).nRandomPos.toNat (s.vRandom.length - 1)
    s1.Positions ∧ s1.entries = s.entries ∧ s1.vRandom.Perm s.vRandom ∧
      s1.randomPos x = some (s1.vRandom.length - 1) ∧
      ∃ info1, s1.mapInfo x = some info1 ∧ info1.addr = info.addr := by
  have hq : s.randomPos x = some (s.info x).nRandomPos.toNat := by
    simp [randomPos, hm, info_of_mapInfo hm]
  have hql := h.indexes.pos_lt hq
  have hlast : s.vRandom.length - 1 < s.vRandom.length := by omega
  have hxq := h.indexes.getElem?_pos x _ hq
  rw [List.getElem?_eq_getElem hql, Option.some_inj] at hxq
  have hv1 := swapRandom_vRandom hql hlast
  have hlen : (s.swapRandom (s.info x).nRandomPos.toNat (s.vRandom.length - 1)).vRandom.length =
      s.vRandom.length := by
    rw [hv1, List.length_set, List.length_set]
  have haddr := swapRandom_map_mapInfo h hql hlast (fun i : CAddrInfo A => i.addr) (fun _ _ => rfl) x
  rw [hm, Option.map_some, Option.map_eq_some_iff] at haddr
  refine ⟨positions_swapRandom h hql hlast, entries_swapRandom h hql hlast, ?_, ?_, haddr⟩
  · rw [hv1]
    exact List.set_set_perm hql hlast
  · -- after the swap the last position holds `x`
    have hlast1 : s.vRandom.length - 1 <
        (s.swapRandom (s.info x).nRandomPos.toNat (s.vRandom.length - 1)).vRandom.length := by
      rw [hlen]
      exact hlast
    have hend : (s.swapRandom (s.info x).nRandomPos.toNat (s.vRandom.length - 1)).vRandom[
        s.vRandom.length - 1] = x := by
      simp only [hv1, List.getElem_set_self, hxq]
    have hpos := (positions_swapRandom h hql hlast).indexes.pos_getElem hlast1
    rw [hend] at hpos
    rw [hlen]
    exact hpos

theorem delete_vRandom :
    (s.delete x).vRandom =
      (s.swapRandom (s.info x).nRandomPos.toNat (s.vRandom.length - 1)).vRandom.dropLast := rfl

theorem delete_mapInfo :
    (s.delete x).mapInfo =
      Function.update (s.swapRandom (s.info x).nRandomPos.toNat (s.vRandom.length - 1)).mapInfo x
        none := rfl

theorem delete_mapAddr :
    (s.delete x).mapAddr = Function.update s.mapAddr
      ((s.swapRandom (s.info x).nRandomPos.toNat (s.vRandom.length - 1)).info x).addr none := by
  show Function.update (s.swapRandom _ _).mapAddr _ none = _
  rw [swapRandom_mapAddr]

theorem entries_delete (h : s.Positions) (hm : s.mapInfo x = some info) :
    (s.delete x).entries = Function.update s.entries x none := by
  obtain ⟨-, hent, -⟩ := delete_swap h hm
  funext y
  by_cases hyx : y = x
  · subst hyx
    simp [entries, delete_mapInfo]
  · rw [Function.update_of_ne hyx, ← hent, entries, delete_mapInfo, Function.update_of_ne hyx]
    rfl

/-- `Delete` takes the entry out of `vRandom`, whose other ids stay. -/
theorem vRandom_delete (h : s.Positions) (hm : s.mapInfo x = some info) :
    ((s.delete x).vRandom ++ [x]).Perm s.vRandom := by
  obtain ⟨h1, -, hperm, hend, -⟩ := delete_swap h hm
  rw [delete_vRandom, h1.indexes.dropLast_append_of_last hend]
  exact hperm

/-- `Delete` keeps the positions. -/
theorem positions_delete (h : s.Positions) (hm : s.mapInfo x = some info) :
    (s.delete x).Positions := by
  obtain ⟨h1, -, -, hend, info1, hm1, -⟩ := delete_swap h hm
  have hrp : (s.delete x).randomPos = Function.update
      (s.swapRandom (s.info x).nRandomPos.toNat (s.vRandom.length - 1)).randomPos x none := by
    funext y
    by_cases hyx : y = x
    · subst hyx
      simp [randomPos, delete_mapInfo]
    · simp [randomPos, delete_mapInfo, Function.update_of_ne hyx]
  -- every id but `x` keeps its entry
  have hother : ∀ y i, (s.delete x).mapInfo y = some i → y ≠ x ∧
      (s.swapRandom (s.info x).nRandomPos.toNat (s.vRandom.length - 1)).mapInfo y = some i := by
    intro y i hy
    have hyx : y ≠ x := by
      rintro rfl
      simp [delete_mapInfo] at hy
    rw [delete_mapInfo, Function.update_of_ne hyx] at hy
    exact ⟨hyx, hy⟩
  refine ⟨?_, fun y i hy => h1.randomPos_nonneg y i (hother y i hy).2, ?_, fun y hy => ?_,
    fun a y => ?_⟩
  · rw [delete_vRandom, hrp]
    exact h1.indexes.pop hend
  · rw [delete_nIdCount]
    exact h.nIdCount_nonneg
  · obtain ⟨i, hi⟩ := Option.isSome_iff_exists.mp hy
    rw [delete_nIdCount, ← swapRandom_nIdCount (u := (s.info x).nRandomPos.toNat)
      (v := s.vRandom.length - 1)]
    exact h1.id_range y (by rw [(hother y i hi).2]; rfl)
  · rw [delete_mapAddr, info_of_mapInfo hm1, ← swapRandom_mapAddr (u := (s.info x).nRandomPos.toNat)
      (v := s.vRandom.length - 1)]
    by_cases ha : a = info1.addr
    · -- the address of `x` is no longer found, nor is any entry with it
      subst ha
      rw [Function.update_self]
      constructor
      · rintro ⟨⟩
      rintro ⟨i, hy, hia⟩
      obtain ⟨hyx, hy1⟩ := hother y i hy
      have hy2 := (h1.mapAddr_iff _ y).mpr ⟨i, hy1, hia⟩
      rw [(h1.mapAddr_iff _ x).mpr ⟨info1, hm1, rfl⟩, Option.some_inj] at hy2
      exact absurd hy2.symm hyx
    · rw [Function.update_of_ne ha, h1.mapAddr_iff, delete_mapInfo]
      by_cases hyx : y = x
      · subst hyx
        rw [Function.update_self, hm1]
        constructor
        · rintro ⟨i, hi, hia⟩
          rw [Option.some_inj] at hi
          subst hi
          exact absurd hia.symm ha
        · rintro ⟨_, hi, _⟩
          cases hi
      · rw [Function.update_of_ne hyx]

/-- `Delete`, of a new entry without references, keeps the positions and the tables. -/
theorem core_delete (h : Core env s) {e : TableEntry A} (hx : s.entries x = some e)
    (hnt : e.fInTried = false) (h0 : e.nRefCount = 0) : Core env (s.delete x) := by
  obtain ⟨info, hm, -⟩ := entries_eq_some.mp hx
  have hx1 := h.id_ne x e hx
  refine ⟨positions_delete h.positions hm, ?_⟩
  rw [entries_delete h.positions hm, delete_vvNew, delete_vvTried, delete_nKey]
  exact h.tables.update_unslotted env (h.tables.new_ne_of_refCount env hx hx1 h0)
    (h.tables.tried_ne_of_new env hx hnt hx1) none (fun _ he => by cases he)

end Delete

/-! ### The counters -/

section Counting

variable {s : CAddrMan A K} {x : ℤ} {info : CAddrInfo A}

/-- How far `nNew` is above the number of new entries. -/
def newGap (s : CAddrMan A K) : ℤ := s.nNew - s.vRandom.countP (isNew s.entries)

/-- How far `nTried` is above the number of tried entries. -/
def triedGap (s : CAddrMan A K) : ℤ := s.nTried - s.vRandom.countP (isTried s.entries)

theorem counts_iff : s.Counts ↔ s.newGap = 0 ∧ s.triedGap = 0 := by
  rw [newGap, triedGap, Int.sub_eq_zero, Int.sub_eq_zero]
  exact ⟨fun h => ⟨h.1, h.2⟩, fun h => ⟨h.1, h.2⟩⟩

@[simp] theorem newGap_setNew (b i v) : (s.setNew b i v).newGap = s.newGap := rfl

@[simp] theorem triedGap_setNew (b i v) : (s.setNew b i v).triedGap = s.triedGap := rfl

@[simp] theorem newGap_setTried (b i v) : (s.setTried b i v).newGap = s.newGap := rfl

@[simp] theorem triedGap_setTried (b i v) : (s.setTried b i v).triedGap = s.triedGap := rfl

@[simp] theorem newGap_addNew (d) : (s.addNew d).newGap = s.newGap + d := by
  simp only [newGap, addNew_nNew, addNew_vRandom, entries_addNew]
  omega

@[simp] theorem triedGap_addNew (d) : (s.addNew d).triedGap = s.triedGap := rfl

@[simp] theorem newGap_addTried (d) : (s.addTried d).newGap = s.newGap := rfl

@[simp] theorem triedGap_addTried (d) : (s.addTried d).triedGap = s.triedGap + d := by
  simp only [triedGap, addTried_nTried, addTried_vRandom, entries_addTried]
  omega

theorem isNew_of_mapInfo (hm : s.mapInfo x = some info) : isNew s.entries x = !info.fInTried := by
  simp [isNew, entries, hm, CAddrInfo.tableEntry]

theorem isTried_of_mapInfo (hm : s.mapInfo x = some info) :
    isTried s.entries x = info.fInTried := by
  simp [isTried, entries, hm, CAddrInfo.tableEntry]

/-- Writing a stored entry moves it between the counts by its flag. -/
theorem gaps_setInfo (h : s.Positions) (hm : s.mapInfo x = some info) (info' : CAddrInfo A) :
    (s.setInfo x info').newGap + (if info'.fInTried then 0 else 1) =
        s.newGap + (if info.fInTried then 0 else 1) ∧
      (s.setInfo x info').triedGap + (if info'.fInTried then 1 else 0) =
        s.triedGap + (if info.fInTried then 1 else 0) := by
  have hmem : x ∈ s.vRandom := (h.indexes.mem_iff x).mpr (by simp [randomPos, hm])
  have hm' : (s.setInfo x info').mapInfo x = some info' := Function.update_self _ _ _
  have hoff : ∀ y, y ≠ x → (s.setInfo x info').entries y = s.entries y := fun y hy => by
    rw [entries_setInfo, Function.update_of_ne hy]
  have hn := countP_update h.indexes.nodup hmem (p := isNew s.entries)
    (q := isNew (s.setInfo x info').entries) fun y hy => by simp only [isNew, hoff y hy]
  have ht := countP_update h.indexes.nodup hmem (p := isTried s.entries)
    (q := isTried (s.setInfo x info').entries) fun y hy => by simp only [isTried, hoff y hy]
  rw [isNew_of_mapInfo hm, isNew_of_mapInfo hm'] at hn
  rw [isTried_of_mapInfo hm, isTried_of_mapInfo hm'] at ht
  simp only [newGap, triedGap, setInfo_nNew, setInfo_nTried, setInfo_vRandom]
  generalize info.fInTried = t at hn ht ⊢
  generalize info'.fInTried = t' at hn ht ⊢
  cases t <;> cases t' <;> simp at hn ht ⊢ <;> omega

/-- Writing a stored entry without changing its flag keeps the counts. -/
theorem gaps_setInfo_of_fInTried (h : s.Positions) (hm : s.mapInfo x = some info)
    {r : CAddrInfo A} (ht : r.fInTried = info.fInTried) :
    (s.setInfo x r).newGap = s.newGap ∧ (s.setInfo x r).triedGap = s.triedGap := by
  have hg := gaps_setInfo h hm r
  rw [ht] at hg
  omega

/-- Marking a new entry tried moves it from one count to the other. -/
theorem gaps_setInfo_mark (h : s.Positions) (hm : s.mapInfo x = some info)
    (ht : info.fInTried = false) {r : CAddrInfo A} (ht' : r.fInTried = true) :
    (s.setInfo x r).newGap = s.newGap + 1 ∧ (s.setInfo x r).triedGap + 1 = s.triedGap := by
  have hg := gaps_setInfo h hm r
  rw [ht, ht'] at hg
  simp at hg
  omega

/-- Marking a tried entry new moves it from one count to the other. -/
theorem gaps_setInfo_unmark (h : s.Positions) (hm : s.mapInfo x = some info)
    (ht : info.fInTried = true) {r : CAddrInfo A} (ht' : r.fInTried = false) :
    (s.setInfo x r).newGap + 1 = s.newGap ∧ (s.setInfo x r).triedGap = s.triedGap + 1 := by
  have hg := gaps_setInfo h hm r
  rw [ht, ht'] at hg
  simp at hg
  omega

/-- `Create` adds a new entry to the count. -/
theorem gaps_create (h : s.Positions) (addr : CAddress A) (source : A) :
    (s.create addr source).1.newGap + 1 = s.newGap ∧
      (s.create addr source).1.triedGap = s.triedGap := by
  have hfresh : s.randomPos s.nIdCount = none := by simp [randomPos, mapInfo_nIdCount h]
  -- the ids of `vRandom` keep their entries
  have hoff : ∀ y ∈ s.vRandom, (s.create addr source).1.entries y = s.entries y := by
    intro y hy
    have hyn : y ≠ s.nIdCount := by
      rintro rfl
      simpa [hfresh] using (h.indexes.mem_iff _).mp hy
    rw [entries_create, Function.update_of_ne hyn]
  have hn : s.vRandom.countP (isNew (s.create addr source).1.entries) =
      s.vRandom.countP (isNew s.entries) :=
    List.countP_congr fun y hy => by simp only [isNew, hoff y hy]
  have ht : s.vRandom.countP (isTried (s.create addr source).1.entries) =
      s.vRandom.countP (isTried s.entries) :=
    List.countP_congr fun y hy => by simp only [isTried, hoff y hy]
  simp only [newGap, triedGap, create_nNew, create_nTried, create_vRandom, List.countP_append,
    List.countP_singleton, hn, ht]
  simp [isNew, isTried, entries_create]
  omega

/-- `Delete` takes an entry from its count, and one from `nNew`. -/
theorem gaps_delete (h : s.Positions) (hm : s.mapInfo x = some info) :
    (s.delete x).newGap + 1 = s.newGap + (if info.fInTried then 0 else 1) ∧
      (s.delete x).triedGap = s.triedGap + (if info.fInTried then 1 else 0) := by
  have hmem : x ∈ s.vRandom := (h.indexes.mem_iff x).mpr (by simp [randomPos, hm])
  have hperm := vRandom_delete h hm
  have hE := entries_delete h hm
  have hoff : ∀ y, y ≠ x → (s.delete x).entries y = s.entries y := fun y hy => by
    rw [hE, Function.update_of_ne hy]
  have hn := countP_update h.indexes.nodup hmem (p := isNew s.entries)
    (q := isNew (s.delete x).entries) fun y hy => by simp only [isNew, hoff y hy]
  have ht := countP_update h.indexes.nodup hmem (p := isTried s.entries)
    (q := isTried (s.delete x).entries) fun y hy => by simp only [isTried, hoff y hy]
  -- the deleted id is counted nowhere, so the popped list counts as the whole one
  have hn' := hperm.countP_eq (isNew (s.delete x).entries)
  have ht' := hperm.countP_eq (isTried (s.delete x).entries)
  have hnx : isNew (s.delete x).entries x = false := by simp [hE, isNew]
  have htx : isTried (s.delete x).entries x = false := by simp [hE, isTried]
  rw [List.countP_append, List.countP_singleton, hnx] at hn'
  rw [List.countP_append, List.countP_singleton, htx] at ht'
  rw [isNew_of_mapInfo hm, hnx] at hn
  rw [isTried_of_mapInfo hm, htx] at ht
  simp only [newGap, triedGap, delete_nNew, delete_nTried]
  generalize info.fInTried = t at hn ht ⊢
  cases t <;> simp at hn hn' ht ht' ⊢ <;> omega

/-- `SwapRandom` keeps the counts. -/
theorem gaps_swapRandom (h : s.Positions) {p1 p2 : ℕ} (hp1 : p1 < s.vRandom.length)
    (hp2 : p2 < s.vRandom.length) :
    (s.swapRandom p1 p2).newGap = s.newGap ∧ (s.swapRandom p1 p2).triedGap = s.triedGap := by
  have hperm : (s.swapRandom p1 p2).vRandom.Perm s.vRandom := by
    rw [swapRandom_vRandom hp1 hp2]
    exact List.set_set_perm hp1 hp2
  refine ⟨?_, ?_⟩ <;>
    simp only [newGap, triedGap, swapRandom_nNew, swapRandom_nTried, entries_swapRandom h hp1 hp2,
      hperm.countP_eq]

theorem isNew_congr {E E' : ℤ → Option (TableEntry A)}
    (hE : ∀ y, (E' y).map (·.fInTried) = (E y).map (·.fInTried)) : isNew E' = isNew E := by
  funext y
  have hy := hE y
  unfold isNew
  cases h' : E' y <;> cases h : E y <;> simp_all

theorem isTried_congr {E E' : ℤ → Option (TableEntry A)}
    (hE : ∀ y, (E' y).map (·.fInTried) = (E y).map (·.fInTried)) : isTried E' = isTried E := by
  funext y
  have hy := hE y
  unfold isTried
  cases h' : E' y <;> cases h : E y <;> simp_all

/-- States with the same counters and `vRandom`, whose entries have the same flags, have the
same counts. -/
theorem gaps_of_flags {s' : CAddrMan A K} (hv : s'.vRandom = s.vRandom) (hn : s'.nNew = s.nNew)
    (ht : s'.nTried = s.nTried)
    (hE : ∀ y, (s'.entries y).map (·.fInTried) = (s.entries y).map (·.fInTried)) :
    s'.newGap = s.newGap ∧ s'.triedGap = s.triedGap := by
  rw [newGap, newGap, triedGap, triedGap, hv, hn, ht, isNew_congr hE, isTried_congr hE]
  exact ⟨rfl, rfl⟩

end Counting

/-! ### Clearing a slot of the new table -/

section ClearNew

variable {s : CAddrMan A K} {b : Fin addrmanNewBucketCount} {i : Fin addrmanBucketSize}

theorem clearNew_of_empty (hx : s.vvNew b i = -1) : s.clearNew b i = s := by
  rw [clearNew, if_neg (not_not.mpr hx)]

/-- `ClearNew` of a slot that holds an entry: unlink it, and delete it if that was its last
reference. -/
theorem clearNew_of_ne (hx : s.vvNew b i ≠ -1) :
    s.clearNew b i =
      if (s.info (s.vvNew b i)).nRefCount - 1 = 0 then
        ((s.setNew b i (-1)).setInfo (s.vvNew b i)
          { s.info (s.vvNew b i) with nRefCount := (s.info (s.vvNew b i)).nRefCount - 1 }).delete
          (s.vvNew b i)
      else (s.setNew b i (-1)).setInfo (s.vvNew b i)
          { s.info (s.vvNew b i) with nRefCount := (s.info (s.vvNew b i)).nRefCount - 1 } := by
  rw [clearNew, if_pos hx]
  rfl

@[simp] theorem clearNew_vvTried : (s.clearNew b i).vvTried = s.vvTried := by
  by_cases hx : s.vvNew b i = -1
  · rw [clearNew_of_empty hx]
  · rw [clearNew_of_ne hx]
    split_ifs <;> simp

@[simp] theorem clearNew_nKey : (s.clearNew b i).nKey = s.nKey := by
  by_cases hx : s.vvNew b i = -1
  · rw [clearNew_of_empty hx]
  · rw [clearNew_of_ne hx]
    split_ifs <;> simp

theorem clearNew_vvNew (b' i') :
    (s.clearNew b i).vvNew b' i' = if b' = b ∧ i' = i then -1 else s.vvNew b' i' := by
  by_cases hx : s.vvNew b i = -1
  · rw [clearNew_of_empty hx]
    split_ifs with hbi
    · rw [hbi.1, hbi.2, hx]
    · rfl
  · rw [clearNew_of_ne hx]
    by_cases h0 : (s.info (s.vvNew b i)).nRefCount - 1 = 0
    · rw [if_pos h0, delete_vvNew, setInfo_vvNew, setNew_apply]
    · rw [if_neg h0, setInfo_vvNew, setNew_apply]

/-- The entry that `ClearNew` unlinks, after the unlinking. -/
theorem entries_unlink (h : Core env s) (hx : s.vvNew b i ≠ -1) :
    ∃ e, s.entries (s.vvNew b i) = some e ∧ e.fInTried = false ∧ 0 < e.nRefCount ∧
      ((s.setNew b i (-1)).setInfo (s.vvNew b i)
        { s.info (s.vvNew b i) with nRefCount := (s.info (s.vvNew b i)).nRefCount - 1 }).entries =
      Function.update s.entries (s.vvNew b i) (some { e with nRefCount := e.nRefCount - 1 }) := by
  obtain ⟨e, he, hnt, hpos⟩ := h.tables.refCount_pos env hx
  obtain ⟨info, hm, rfl⟩ := entries_eq_some.mp he
  refine ⟨_, he, hnt, hpos, ?_⟩
  rw [entries_setInfo, entries_setNew, info_of_mapInfo hm]
  rfl

/-- `ClearNew` keeps the positions and the tables. -/
theorem core_clearNew (h : Core env s) : Core env (s.clearNew b i) := by
  by_cases hx : s.vvNew b i = -1
  · rw [clearNew_of_empty hx]
    exact h
  have hc := core_unlink env h hx
  rw [clearNew_of_ne hx]
  split_ifs with h0
  · -- the last reference is gone: the entry is deleted
    obtain ⟨e, he, hnt, -, hE⟩ := entries_unlink env h hx
    have hinfo := congrArg TableEntry.nRefCount (info_tableEntry he)
    simp only [CAddrInfo.tableEntry] at hinfo
    exact core_delete env hc (e := { e with nRefCount := e.nRefCount - 1 })
      (by rw [hE, Function.update_self]) hnt (by rw [← hinfo]; exact h0)
  · exact hc

/-- `ClearNew` changes only the entry of the slot. -/
theorem entries_clearNew_of_ne (h : Core env s) {y : ℤ} (hy : s.vvNew b i ≠ y) :
    (s.clearNew b i).entries y = s.entries y := by
  by_cases hx : s.vvNew b i = -1
  · rw [clearNew_of_empty hx]
  obtain ⟨e, he, -, -, hE⟩ := entries_unlink env h hx
  have hc := core_unlink env h hx
  rw [clearNew_of_ne hx]
  split_ifs
  · obtain ⟨info, hm, -⟩ := entries_eq_some.mp (hE ▸ Function.update_self _ _ _ :
      _ = some { e with nRefCount := e.nRefCount - 1 })
    rw [entries_delete hc.positions hm, Function.update_of_ne hy.symm, hE,
      Function.update_of_ne hy.symm]
  · rw [hE, Function.update_of_ne hy.symm]

/-- `ClearNew` keeps the counts. -/
theorem gaps_clearNew (h : Core env s) :
    (s.clearNew b i).newGap = s.newGap ∧ (s.clearNew b i).triedGap = s.triedGap := by
  by_cases hx : s.vvNew b i = -1
  · rw [clearNew_of_empty hx]
    exact ⟨rfl, rfl⟩
  obtain ⟨e, he, hnt, -⟩ := h.tables.refCount_pos env hx
  have hfl : (s.info (s.vvNew b i)).fInTried = false := by
    rw [← hnt, ← info_tableEntry he]
    rfl
  obtain ⟨info, hm, -⟩ := entries_eq_some.mp he
  -- unlinking keeps the entry new
  have hunlink := gaps_setInfo_of_fInTried ((positions_setNew b i (-1)).mpr h.positions) hm
    (r := { s.info (s.vvNew b i) with
      nRefCount := (s.info (s.vvNew b i)).nRefCount - 1 }) (by rw [info_of_mapInfo hm])
  rw [clearNew_of_ne hx]
  split_ifs
  · have hdel := gaps_delete (core_unlink env h hx).positions
      (by rw [setInfo_mapInfo, Function.update_self])
    rw [newGap_setNew, triedGap_setNew] at hunlink
    -- the unlinked state is written three ways: bring them to one
    dsimp only at hunlink hdel ⊢
    simp only [hfl, Bool.false_eq_true, if_false] at hunlink hdel ⊢
    omega
  · simpa using hunlink

/-- `ClearNew` keeps the range of the reference counts. -/
theorem refRange_clearNew (h : Core env s) {P : ℤ → Prop} (hr : RefRangeOn s.entries P) :
    RefRangeOn (s.clearNew b i).entries P := by
  intro y e' hP hy hnt'
  by_cases hyx : s.vvNew b i = y
  swap
  · rw [entries_clearNew_of_ne env h hyx] at hy
    exact hr y e' hP hy hnt'
  subst hyx
  have hx : s.vvNew b i ≠ -1 := fun hx => by
    rw [clearNew_of_empty hx] at hy
    exact h.id_ne _ _ hy hx
  obtain ⟨e, he, hnt, hpos, hE⟩ := entries_unlink env h hx
  have hre := hr _ e hP he hnt
  have hinfo := congrArg TableEntry.nRefCount (info_tableEntry he)
  rw [clearNew_of_ne hx] at hy
  split_ifs at hy with h0
  · -- the entry lost its last reference and is gone
    rw [entries_delete (core_unlink env h hx).positions
      (by rw [setInfo_mapInfo, Function.update_self]), Function.update_self] at hy
    cases hy
  · rw [hE, Function.update_self, Option.some_inj] at hy
    subst hy
    simp only [CAddrInfo.tableEntry] at hinfo
    simp only [addrmanNewBucketsPerAddress] at hre ⊢
    omega

end ClearNew

/-- A range off one entry, and that entry's own range, give the range everywhere. -/
theorem RefRangeOn.of_off {E E' : ℤ → Option (TableEntry A)} {x : ℤ} {P : ℤ → Prop}
    (h : RefRangeOn E fun y => P y ∧ y ≠ x) (hE : ∀ y, y ≠ x → E' y = E y)
    (hx : ∀ e, E' x = some e → e.fInTried = false →
      1 ≤ e.nRefCount ∧ e.nRefCount ≤ addrmanNewBucketsPerAddress) : RefRangeOn E' P := by
  intro y e hP hy hnt
  by_cases hyx : y = x
  · subst hyx
    exact hx e hy hnt
  · rw [hE y hyx] at hy
    exact h y e ⟨hP, hyx⟩ hy hnt

theorem RefRangeOn.mono {E : ℤ → Option (TableEntry A)} {P Q : ℤ → Prop} (h : RefRangeOn E P)
    (hPQ : ∀ y, Q y → P y) : RefRangeOn E Q :=
  fun y e hQ hy hnt => h y e (hPQ y hQ) hy hnt

end CAddrMan

end BitcoinCash
