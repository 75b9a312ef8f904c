import Mathlib
import BitcoinCash.Control.WhileLoop

/-!
# Disconnected block transactions in topological order

`DisconnectedBlockTransactions` (`txmempool.h`, `txmempool.cpp`) queues the transactions of the
blocks a reorg disconnects; `updateMempoolForReorg` adds them back to the mempool in reverse
insertion order, so a transaction must come after, in insertion order, every queued transaction
it spends. `addForBlock` takes the transactions of a block last first. Each new one is inserted at
the end, and then its queued parents are erased and inserted again at the end, then their queued
parents, one worklist (a `std::set<TxId>`) at a time, until a worklist is empty. Afterwards the
oldest entries are dropped while the queue is over its memory limit.

The queue is a list in insertion order. The order is restored by one invariant of the worklist
loop: every transaction that precedes a queued transaction spending it has its txid still
pending, in the rest of the current worklist or in the next one (`Pending`). A move of a parent to
the end settles the parent and makes its own queued parents pending. The loop ends because a
txid of the `k`-th worklist is spent by a transaction reached from the new one through `k` queued
parents; when the spend relation has no cycle those transactions are distinct, so there are at
most as many worklists as queued transactions. The queue holds only transactions it was given,
one per txid, and, while the memory limit is not reached, one for every txid it was given.
-/

namespace BitcoinCash

namespace DisconnectedBlockTransactions

/-- A transaction as `addForBlock` reads it. -/
structure Transaction (α : Type) where
  /-- `GetId()`. -/
  txid : α
  /-- `in.prevout.GetTxId()` for each `in` of `vin`. -/
  vin : List α
  deriving DecidableEq, Repr

variable {α : Type} [LinearOrder α]

/-! ### The model -/

/-- One txid of a worklist, the body of the `for`: a queued parent is erased and inserted again
at the end, and the txids its inputs spend join the next worklist. -/
def moveParent (st : List (Transaction α) × Finset α) (txid : α) :
    List (Transaction α) × Finset α :=
  match st.1.find? (fun x => x.txid = txid) with
  | none => st
  | some ptx => (st.1.erase ptx ++ [ptx], st.2 ∪ ptx.vin.toFinset)

/-- The `for` loop over one worklist, in the order of `std::set<TxId>`, with the worklist it
collects. -/
def moveParents (q : List (Transaction α)) (worklist : Finset α) :
    List (Transaction α) × Finset α :=
  (worklist.sort (· ≤ ·)).foldl moveParent (q, ∅)

/-- The `while (parents.size() > 0)` loop, for at most `fuel` worklists: `none` when it would go
on. -/
def reinsertParents (fuel : ℕ) (q : List (Transaction α)) (parents : Finset α) :
    Option (List (Transaction α)) :=
  if parents = ∅ then some q
  else
    match fuel with
    | 0 => none
    | fuel + 1 => reinsertParents fuel (moveParents q parents).1 (moveParents q parents).2

/-- One transaction of `addForBlock`: skipped when queued, else `addTransaction` puts it at the
end and the loop moves its queued ancestors after it. -/
def addTx (fuel : ℕ) (q : List (Transaction α)) (tx : Transaction α) :
    Option (List (Transaction α)) :=
  match q.find? (fun x => x.txid = tx.txid) with
  | some _ => some q
  | none => reinsertParents fuel (q ++ [tx]) tx.vin.toFinset

/-- What `DynamicMemoryUsage()` adds up. `cachedInnerUsage` is the sum of `RecursiveDynamicUsage`
over the queue: `addTransaction` adds it, and the moves of the worklist loop leave it. -/
structure MemoryUsage (α : Type) where
  /-- `memusage::MallocUsage(sizeof(CTransactionRef) + 6 * sizeof(void *))`, per entry. -/
  entry : ℕ
  /-- `memusage::DynamicUsage(txInfo)`, taken as fixed (`removeEntry` may shrink the map; the
  results below hold however many entries the loop drops from the front). -/
  txInfo : ℕ
  /-- `RecursiveDynamicUsage(tx)`. -/
  recursive : Transaction α → ℕ

/-- `DynamicMemoryUsage()`. -/
def dynamicMemoryUsage (M : MemoryUsage α) (q : List (Transaction α)) : ℕ :=
  M.entry * q.length + M.txInfo + (q.map M.recursive).sum

/-- The size-limiting loop: `removeEntry` of the earliest entry while over `maxUsage`. On an
empty queue the code would erase `begin()` of nothing; the model stops. -/
def limitSize (M : MemoryUsage α) (maxUsage : ℕ) : List (Transaction α) → List (Transaction α)
  | [] => []
  | x :: q => if maxUsage < dynamicMemoryUsage M (x :: q) then limitSize M maxUsage q else x :: q

/-- `addForBlock(vtx)`: the transactions last first, then the size limit `maxDynamicUsage()`. -/
def addForBlock (fuel : ℕ) (M : MemoryUsage α) (maxUsage : ℕ) (q : List (Transaction α))
    (vtx : List (Transaction α)) : Option (List (Transaction α)) :=
  (vtx.reverse.foldlM (addTx fuel) q).map (limitSize M maxUsage)

/-! ### Topological order -/

/-- No entry precedes, in insertion order, an entry that spends it. -/
def Topological (q : List (Transaction α)) : Prop :=
  q.Pairwise fun x y => x.txid ∉ y.vin

/-- Every entry that precedes an entry spending it has its txid pending. -/
def Pending (pending : α → Prop) (q : List (Transaction α)) : Prop :=
  q.Pairwise fun x y => pending x.txid ∨ x.txid ∉ y.vin

omit [LinearOrder α] in
theorem topological_of_pending {q : List (Transaction α)} {ps : Finset α}
    (h : Pending (· ∈ ps) q) (hps : ps = ∅) : Topological q := by
  subst hps
  exact h.imp fun hxy => hxy.resolve_left (Finset.notMem_empty _)

omit [LinearOrder α] in
/-- The entry found for a txid is the only one with it. -/
theorem eq_of_mem_of_txid_eq {q : List (Transaction α)} (hnd : (q.map (·.txid)).Nodup)
    {x y : Transaction α} (hx : x ∈ q) (hy : y ∈ q) (h : x.txid = y.txid) : x = y :=
  List.inj_on_of_nodup_map hnd hx hy h

theorem moveParent_of_none {st : List (Transaction α) × Finset α} {t : α}
    (h : st.1.find? (fun x => x.txid = t) = none) : moveParent st t = st := by
  rw [moveParent, h]

theorem moveParent_of_some {st : List (Transaction α) × Finset α} {t : α} {ptx : Transaction α}
    (h : st.1.find? (fun x => x.txid = t) = some ptx) :
    moveParent st t = (st.1.erase ptx ++ [ptx], st.2 ∪ ptx.vin.toFinset) := by
  rw [moveParent, h]

/-- A move keeps the entries. -/
theorem moveParent_perm (st : List (Transaction α) × Finset α) (t : α) :
    (moveParent st t).1.Perm st.1 := by
  cases h : st.1.find? (fun x => x.txid = t) with
  | none => rw [moveParent_of_none h]
  | some ptx =>
    rw [moveParent_of_some h]
    exact (List.perm_append_singleton _ _).trans
      (List.perm_cons_erase (List.mem_of_find?_eq_some h)).symm

omit [LinearOrder α] in
/-- An entry put at the end: the entries before it that it spends must be pending. -/
theorem pending_append_singleton {P : α → Prop} {q : List (Transaction α)} {y : Transaction α}
    (h : Pending P q) (hy : ∀ x ∈ q, x.txid ∈ y.vin → P x.txid) : Pending P (q ++ [y]) := by
  refine List.pairwise_append.mpr ⟨h, List.pairwise_singleton _ _, ?_⟩
  intro x hx z hz
  rw [List.mem_singleton] at hz
  subst hz
  by_cases hspend : x.txid ∈ z.vin
  · exact Or.inl (hy x hx hspend)
  · exact Or.inr hspend

/-- **One txid of the worklist keeps `Pending`**: the moved parent spends nothing after it, and
the entries it spends join the next worklist. -/
theorem moveParent_pending {st : List (Transaction α) × Finset α} {t : α} {w : List α}
    (hnd : (st.1.map (·.txid)).Nodup) (h : Pending (fun s => s ∈ t :: w ∨ s ∈ st.2) st.1) :
    Pending (fun s => s ∈ w ∨ s ∈ (moveParent st t).2) (moveParent st t).1 := by
  cases hf : st.1.find? (fun x => x.txid = t) with
  | none =>
    -- no entry has the txid, so it was pending for nothing
    rw [moveParent_of_none hf]
    refine h.imp_of_mem fun {x _} hx _ hxy => ?_
    have hxt : x.txid ≠ t := by simpa using List.find?_eq_none.mp hf x hx
    simpa [hxt] using hxy
  | some ptx =>
    rw [moveParent_of_some hf]
    have hmem := List.mem_of_find?_eq_some hf
    have hpt : ptx.txid = t := by simpa using List.find?_some hf
    have hndq : st.1.Nodup := List.Nodup.of_map _ hnd
    -- the other entries do not have the txid of the moved one
    have hne : ∀ x ∈ st.1.erase ptx, x.txid ≠ t := by
      intro x hx hxt
      obtain ⟨hxp, hxq⟩ := (hndq.mem_erase_iff).mp hx
      exact hxp (eq_of_mem_of_txid_eq hnd hxq hmem (hxt.trans hpt.symm))
    refine pending_append_singleton ?_ fun x _ hspend =>
      Or.inr (Finset.mem_union_right _ (List.mem_toFinset.mpr hspend))
    refine (h.sublist (List.erase_sublist)).imp_of_mem fun {x _} hx _ hxy => ?_
    rcases hxy with (hw | hps) | hspend
    · rcases List.mem_cons.mp hw with heq | hw
      · exact absurd heq (hne x hx)
      · exact Or.inl (Or.inl hw)
    · exact Or.inl (Or.inr (Finset.mem_union_left _ hps))
    · exact Or.inr hspend

theorem foldl_moveParent_perm (w : List α) :
    ∀ st : List (Transaction α) × Finset α, (w.foldl moveParent st).1.Perm st.1 := by
  induction w with
  | nil => exact fun st => List.Perm.refl _
  | cons t w ih => exact fun st => (ih (moveParent st t)).trans (moveParent_perm st t)

theorem moveParents_perm (q : List (Transaction α)) (ps : Finset α) :
    (moveParents q ps).1.Perm q :=
  foldl_moveParent_perm _ (q, ∅)

theorem foldl_moveParent_pending (w : List α) :
    ∀ st : List (Transaction α) × Finset α, (st.1.map (·.txid)).Nodup →
      Pending (fun s => s ∈ w ∨ s ∈ st.2) st.1 →
        Pending (· ∈ (w.foldl moveParent st).2) (w.foldl moveParent st).1 := by
  induction w with
  | nil =>
    intro st _ h
    exact h.imp fun hxy => hxy.imp_left fun hs => hs.resolve_left List.not_mem_nil
  | cons t w ih =>
    intro st hnd h
    exact ih (moveParent st t) (((moveParent_perm st t).map _).nodup_iff.mpr hnd)
      (moveParent_pending hnd h)

/-- **One worklist keeps the invariant**, with its txids pending before and the collected ones
after. -/
theorem moveParents_pending {q : List (Transaction α)} {ps : Finset α}
    (hnd : (q.map (·.txid)).Nodup) (h : Pending (· ∈ ps) q) :
    Pending (· ∈ (moveParents q ps).2) (moveParents q ps).1 :=
  foldl_moveParent_pending _ (q, ∅) hnd
    (h.imp fun hxy => hxy.imp_left fun hs => Or.inl ((Finset.mem_sort _).mpr hs))

/-- The worklist loop only moves entries. -/
theorem reinsertParents_perm (fuel : ℕ) :
    ∀ {q : List (Transaction α)} {ps : Finset α} {r : List (Transaction α)},
      reinsertParents fuel q ps = some r → r.Perm q := by
  induction fuel with
  | zero =>
    intro q ps r hr
    unfold reinsertParents at hr
    split_ifs at hr
    cases hr
    exact List.Perm.refl _
  | succ fuel ih =>
    intro q ps r hr
    unfold reinsertParents at hr
    split_ifs at hr
    · cases hr
      exact List.Perm.refl _
    · exact (ih hr).trans (moveParents_perm q ps)

/-- **The worklist loop leaves the queue in topological order**, with the same entries. -/
theorem reinsertParents_topological (fuel : ℕ) :
    ∀ {q : List (Transaction α)} {ps : Finset α} {r : List (Transaction α)},
      reinsertParents fuel q ps = some r → (q.map (·.txid)).Nodup → Pending (· ∈ ps) q →
        Topological r ∧ r.Perm q := by
  induction fuel with
  | zero =>
    intro q ps r hr _ h
    unfold reinsertParents at hr
    split_ifs at hr with hps
    cases hr
    exact ⟨topological_of_pending h hps, List.Perm.refl _⟩
  | succ fuel ih =>
    intro q ps r hr hnd h
    unfold reinsertParents at hr
    split_ifs at hr with hps
    · cases hr
      exact ⟨topological_of_pending h hps, List.Perm.refl _⟩
    · have hperm := moveParents_perm q ps
      obtain ⟨htop, hperm'⟩ := ih hr ((hperm.map _).nodup_iff.mpr hnd) (moveParents_pending hnd h)
      exact ⟨htop, hperm'.trans hperm⟩

/-! ### Termination -/

/-- `b` is a parent of `a` in `Q`: an entry of `Q` whose txid `a` spends. -/
def ParentIn (Q : List (Transaction α)) (a b : Transaction α) : Prop :=
  b ∈ Q ∧ b.txid ∈ a.vin

/-- The spend relation of `U` has no cycle. -/
def Acyclic (U : List (Transaction α)) : Prop :=
  ∀ x, ¬Relation.TransGen (ParentIn U) x x

/-- `Reach Q tx k y`: `y` is reached from `tx` through `k` parents in `Q`. -/
inductive Reach (Q : List (Transaction α)) (tx : Transaction α) : ℕ → Transaction α → Prop
  | refl : Reach Q tx 0 tx
  | step {k : ℕ} {y p : Transaction α} : Reach Q tx k y → ParentIn Q y p → Reach Q tx (k + 1) p

omit [LinearOrder α] in
theorem Acyclic.mono {U V : List (Transaction α)} (h : Acyclic U) (hVU : ∀ x ∈ V, x ∈ U) :
    Acyclic V :=
  fun x hx => h x (Relation.TransGen.mono (fun _ _ hab => ⟨hVU _ hab.1, hab.2⟩) x x hx)

omit [LinearOrder α] in
/-- A path of `k` parents as a list of `k + 1` transactions of `Q`, the last reached first, each
reaching those after it. -/
theorem Reach.exists_chain {Q : List (Transaction α)} {tx y : Transaction α} {k : ℕ}
    (htx : tx ∈ Q) (h : Reach Q tx k y) :
    ∃ L : List (Transaction α), L.length = k + 1 ∧ (∀ a ∈ L, a ∈ Q) ∧
      (∀ a ∈ L, Relation.ReflTransGen (ParentIn Q) a y) ∧
      L.Pairwise fun a b => Relation.TransGen (ParentIn Q) b a := by
  induction h with
  | refl =>
    refine ⟨[tx], rfl, by simpa using htx, ?_, List.pairwise_singleton _ _⟩
    simp only [List.mem_singleton, forall_eq]
    exact Relation.ReflTransGen.refl
  | @step k y p _ hp ih =>
    obtain ⟨L, hlen, hmem, hreach, hpw⟩ := ih
    -- every transaction of the path reaches `y`, so it reaches the new parent `p`
    have hto : ∀ a ∈ L, Relation.TransGen (ParentIn Q) a p := fun a ha =>
      Relation.TransGen.tail' (hreach a ha) hp
    refine ⟨p :: L, by rw [List.length_cons, hlen], ?_, ?_, List.pairwise_cons.mpr ⟨hto, hpw⟩⟩
    · intro a ha
      rcases List.mem_cons.mp ha with rfl | ha
      · exact hp.1
      · exact hmem a ha
    · intro a ha
      rcases List.mem_cons.mp ha with rfl | ha
      · exact Relation.ReflTransGen.refl
      · exact (hto a ha).to_reflTransGen

omit [LinearOrder α] in
/-- **Without cycles a path of parents is shorter than the queue**: its transactions are
distinct entries. -/
theorem Reach.succ_le_length {Q : List (Transaction α)} {tx y : Transaction α} {k : ℕ}
    (hacyc : Acyclic Q) (htx : tx ∈ Q) (h : Reach Q tx k y) : k + 1 ≤ Q.length := by
  obtain ⟨L, hlen, hmem, -, hpw⟩ := h.exists_chain htx
  have hnd : L.Nodup := hpw.imp fun {a b} hba hab => by
    subst hab
    exact hacyc a hba
  rw [← hlen]
  exact hnd.length_le_of_subset hmem

/-- Where a txid of the next worklist comes from: an input of a queued parent found for a txid of
the worklist. -/
theorem mem_moveParent_snd {st : List (Transaction α) × Finset α} {t t' : α}
    (h : t' ∈ (moveParent st t).2) : t' ∈ st.2 ∨ ∃ p ∈ st.1, p.txid = t ∧ t' ∈ p.vin := by
  cases hf : st.1.find? (fun x => x.txid = t) with
  | none =>
    rw [moveParent_of_none hf] at h
    exact Or.inl h
  | some ptx =>
    rw [moveParent_of_some hf, Finset.mem_union, List.mem_toFinset] at h
    refine h.imp id fun hv => ⟨ptx, List.mem_of_find?_eq_some hf, ?_, hv⟩
    simpa using List.find?_some hf

theorem mem_foldl_moveParent_snd {t' : α} (w : List α) :
    ∀ st : List (Transaction α) × Finset α, t' ∈ (w.foldl moveParent st).2 →
      t' ∈ st.2 ∨ ∃ p ∈ st.1, p.txid ∈ w ∧ t' ∈ p.vin := by
  induction w with
  | nil => exact fun st h => Or.inl h
  | cons t w ih =>
    intro st h
    rcases ih (moveParent st t) h with h | ⟨p, hp, hpw, hv⟩
    · exact (mem_moveParent_snd h).imp id fun ⟨p, hp, hpt, hv⟩ =>
        ⟨p, hp, List.mem_cons.mpr (Or.inl hpt), hv⟩
    · exact Or.inr ⟨p, (moveParent_perm st t).subset hp, List.mem_cons_of_mem t hpw, hv⟩

theorem mem_moveParents_snd {q : List (Transaction α)} {ps : Finset α} {t' : α}
    (h : t' ∈ (moveParents q ps).2) : ∃ p ∈ q, p.txid ∈ ps ∧ t' ∈ p.vin := by
  rcases mem_foldl_moveParent_snd _ (q, ∅) h with h | ⟨p, hp, hpw, hv⟩
  · exact absurd h (Finset.notMem_empty _)
  · exact ⟨p, hp, (Finset.mem_sort _).mp hpw, hv⟩

/-- The `k`-th worklist: its txids are spent by transactions `k` parents away from `tx`. -/
def Layer (Q : List (Transaction α)) (tx : Transaction α) (k : ℕ) (ps : Finset α) : Prop :=
  ∀ t ∈ ps, ∃ y, Reach Q tx k y ∧ t ∈ y.vin

theorem layer_moveParents {Q q : List (Transaction α)} {tx : Transaction α} {k : ℕ}
    {ps : Finset α} (hq : ∀ x ∈ q, x ∈ Q) (h : Layer Q tx k ps) :
    Layer Q tx (k + 1) (moveParents q ps).2 := by
  intro t' ht'
  obtain ⟨p, hp, hpt, hv⟩ := mem_moveParents_snd ht'
  obtain ⟨y, hy, hyv⟩ := h _ hpt
  exact ⟨p, hy.step ⟨hq p hp, hyv⟩, hv⟩

/-- **Without cycles the worklist loop ends**: the `k`-th worklist is empty once `k` reaches the
number of entries, so fuel for the entries left is enough. -/
theorem reinsertParents_isSome {Q : List (Transaction α)} {tx : Transaction α}
    (hacyc : Acyclic Q) (htx : tx ∈ Q) (fuel : ℕ) :
    ∀ {k : ℕ} {q : List (Transaction α)} {ps : Finset α}, (∀ x ∈ q, x ∈ Q) →
      Layer Q tx k ps → Q.length ≤ k + fuel → (reinsertParents fuel q ps).isSome := by
  induction fuel with
  | zero =>
    intro k q ps _ hps hlen
    unfold reinsertParents
    split_ifs with hemp
    · rfl
    · -- a txid of the worklist is spent `k` parents away, so `k < Q.length`
      obtain ⟨t, ht⟩ := Finset.nonempty_iff_ne_empty.mpr hemp
      obtain ⟨y, hy, -⟩ := hps t ht
      have := hy.succ_le_length hacyc htx
      omega
  | succ fuel ih =>
    intro k q ps hq hps hlen
    unfold reinsertParents
    split_ifs with hemp
    · rfl
    · exact ih (fun x hx => hq x ((moveParents_perm q ps).subset hx)) (layer_moveParents hq hps)
        (by omega)

/-! ### `addForBlock` keeps the queue in topological order -/

/-- What `addForBlock` keeps of the queue: topological order, one entry per txid (`queuedTx` is
indexed by txid) and entries from the transactions `U` it was given. -/
structure QueueInv (U q : List (Transaction α)) : Prop where
  topological : Topological q
  nodup : (q.map (·.txid)).Nodup
  subset : ∀ x ∈ q, x ∈ U

omit [LinearOrder α] in
theorem QueueInv.nil (U : List (Transaction α)) : QueueInv U [] :=
  ⟨List.Pairwise.nil, List.nodup_nil, fun _ h => absurd h List.not_mem_nil⟩

omit [LinearOrder α] in
theorem QueueInv.sublist {U q q' : List (Transaction α)} (h : QueueInv U q) (hq : q'.Sublist q) :
    QueueInv U q' :=
  ⟨h.topological.sublist hq, h.nodup.sublist (hq.map _), fun x hx => h.subset x (hq.subset hx)⟩

/-- **`addTx` keeps the invariant**, and returns when the fuel covers the queue and the new
transaction. -/
theorem addTx_spec {U q : List (Transaction α)} {tx : Transaction α} {fuel : ℕ}
    (hacyc : Acyclic U) (h : QueueInv U q) (htx : tx ∈ U) (hfuel : q.length + 1 ≤ fuel) :
    ∃ r, addTx fuel q tx = some r ∧ QueueInv U r ∧ r.length ≤ q.length + 1 := by
  cases hf : q.find? (fun x => x.txid = tx.txid) with
  | some _ =>
    -- already queued: skipped
    exact ⟨q, by rw [addTx, hf], h, Nat.le_succ _⟩
  | none =>
    have hQ : ∀ x ∈ q ++ [tx], x ∈ U := by
      intro x hx
      rcases List.mem_append.mp hx with hx | hx
      · exact h.subset x hx
      · rw [List.mem_singleton.mp hx]
        exact htx
    have hnew : tx.txid ∉ q.map (·.txid) := by
      rw [List.mem_map]
      rintro ⟨x, hx, hxt⟩
      exact absurd hxt (by simpa using List.find?_eq_none.mp hf x hx)
    have hnd : ((q ++ [tx]).map (·.txid)).Nodup := by
      rw [List.map_append, List.map_singleton, ← List.concat_eq_append]
      exact h.nodup.concat hnew
    -- the first worklist is the inputs of `tx`, `0` parents away
    have hsome : (reinsertParents fuel (q ++ [tx]) tx.vin.toFinset).isSome :=
      reinsertParents_isSome (hacyc.mono hQ) (List.mem_append_right q (List.mem_singleton_self tx))
        fuel (k := 0) (fun x hx => hx) (fun t ht => ⟨tx, Reach.refl, List.mem_toFinset.mp ht⟩)
        (by rw [List.length_append, List.length_singleton]; omega)
    obtain ⟨r, hr⟩ := Option.isSome_iff_exists.mp hsome
    have hpend : Pending (· ∈ tx.vin.toFinset) (q ++ [tx]) :=
      pending_append_singleton (h.topological.imp Or.inr) fun _ _ hspend =>
        List.mem_toFinset.mpr hspend
    obtain ⟨htop, hperm⟩ := reinsertParents_topological fuel hr hnd hpend
    refine ⟨r, by rw [addTx, hf, hr], ⟨htop, (hperm.map _).nodup_iff.mpr hnd,
      fun x hx => hQ x (hperm.subset hx)⟩, ?_⟩
    rw [hperm.length_eq, List.length_append, List.length_singleton]

/-- After `addTx` every txid of the queue and the new transaction's are queued. -/
theorem addTx_covers {q r : List (Transaction α)} {tx : Transaction α} {fuel : ℕ}
    (h : addTx fuel q tx = some r) : ∀ t ∈ (q ++ [tx]).map (·.txid), t ∈ r.map (·.txid) := by
  intro t ht
  unfold addTx at h
  split at h
  · -- already queued under its txid: skipped
    rename_i x hx
    cases h
    rw [List.map_append, List.mem_append, List.map_singleton, List.mem_singleton] at ht
    rcases ht with ht | rfl
    · exact ht
    · have hxt := List.find?_some hx
      rw [decide_eq_true_eq] at hxt
      exact List.mem_map.mpr ⟨x, List.mem_of_find?_eq_some hx, hxt⟩
  · exact ((reinsertParents_perm fuel h).map _).mem_iff.mpr ht

/-- A run of `addTx` queues every txid it was given or found. -/
theorem foldlM_addTx_covers {fuel : ℕ} (vtx : List (Transaction α)) :
    ∀ {q r : List (Transaction α)}, vtx.foldlM (addTx fuel) q = some r →
      ∀ t ∈ (q ++ vtx).map (·.txid), t ∈ r.map (·.txid) := by
  induction vtx with
  | nil =>
    intro q r h t ht
    cases h
    simpa using ht
  | cons tx vtx ih =>
    intro q r h t ht
    rw [List.foldlM_cons] at h
    obtain ⟨q₁, h₁, h⟩ := Option.bind_eq_some_iff.mp h
    refine ih h t ?_
    rw [List.map_append, List.mem_append] at ht ⊢
    rw [List.map_cons, List.mem_cons] at ht
    rcases ht with ht | rfl | ht
    · exact .inl (addTx_covers h₁ t (by simp [ht]))
    · exact .inl (addTx_covers h₁ _ (by simp))
    · exact .inr ht

omit [LinearOrder α] in
/-- Under the limit the size loop drops nothing. -/
theorem limitSize_of_le (M : MemoryUsage α) {maxUsage : ℕ} {q : List (Transaction α)}
    (h : dynamicMemoryUsage M q ≤ maxUsage) : limitSize M maxUsage q = q := by
  cases q with
  | nil => rfl
  | cons x q => rw [limitSize, if_neg (by omega)]

omit [LinearOrder α] in
/-- A queue of the invariant uses no more memory than all the transactions it may hold. -/
theorem QueueInv.usage_le {U q : List (Transaction α)} (h : QueueInv U q) (M : MemoryUsage α) :
    dynamicMemoryUsage M q ≤ dynamicMemoryUsage M U := by
  obtain ⟨l, hl, hs⟩ := List.subperm_of_subset (h.nodup.of_map _) h.subset
  have hlen := hs.length_le
  have hsum : (q.map M.recursive).sum ≤ (U.map M.recursive).sum := by
    rw [← (hl.map _).sum_eq]
    exact (hs.map _).sum_le_sum fun _ _ => Nat.zero_le _
  rw [dynamicMemoryUsage, dynamicMemoryUsage, ← hl.length_eq]
  have := Nat.mul_le_mul_left M.entry hlen
  omega

omit [LinearOrder α] in
/-- The size limit drops entries from the front only. -/
theorem limitSize_suffix (M : MemoryUsage α) (maxUsage : ℕ) (q : List (Transaction α)) :
    limitSize M maxUsage q <:+ q := by
  induction q with
  | nil => exact List.suffix_refl _
  | cons x q ih =>
    rw [limitSize]
    split_ifs
    · exact ih.trans (List.suffix_cons x q)
    · exact List.suffix_refl _

/-- **`addForBlock` keeps the invariant**, and returns when the fuel covers the queue and the
block. -/
theorem addForBlock_spec {U q vtx : List (Transaction α)} {fuel : ℕ} (M : MemoryUsage α)
    (maxUsage : ℕ) (hacyc : Acyclic U) (h : QueueInv U q) (hU : ∀ x ∈ vtx, x ∈ U)
    (hfuel : q.length + vtx.length ≤ fuel) :
    ∃ r, addForBlock fuel M maxUsage q vtx = some r ∧ QueueInv U r ∧
      r.length ≤ q.length + vtx.length ∧
      (dynamicMemoryUsage M U ≤ maxUsage → ∀ t ∈ (q ++ vtx).map (·.txid), t ∈ r.map (·.txid)) := by
  -- each transaction of the block may add one entry
  have hsum : (vtx.reverse.map fun _ => 1).sum = vtx.length := by simp
  obtain ⟨r, hr, hinv, hlen⟩ := Option.foldlM_of_budget (f := addTx fuel) (QueueInv U)
    List.length (fun _ => 1)
    (fun _ a ha hb hn => addTx_spec hacyc hb (hU a (List.mem_reverse.mp ha)) hn) h
    (by rw [hsum]; exact hfuel)
  have hsuf := limitSize_suffix M maxUsage r
  refine ⟨limitSize M maxUsage r, by rw [addForBlock, hr, Option.map_some],
    hinv.sublist hsuf.sublist, ?_, fun hmax t ht => ?_⟩
  · rw [hsum] at hlen
    exact hsuf.length_le.trans hlen
  · -- under the limit nothing is dropped, and the run queued every txid
    rw [limitSize_of_le M ((hinv.usage_le M).trans hmax)]
    refine foldlM_addTx_covers vtx.reverse hr t ?_
    simpa using ht

/-- **A run of `addForBlock` calls keeps the invariant**, returns when the fuel covers the
queue and all the transactions given, and under the limit queues every txid it was given. -/
theorem foldlM_addForBlock_spec {U : List (Transaction α)} {fuel : ℕ} (M : MemoryUsage α)
    (maxUsage : ℕ) (hacyc : Acyclic U) (blocks : List (List (Transaction α))) :
    (∀ x ∈ blocks.flatten, x ∈ U) → ∀ {q}, QueueInv U q →
      q.length + blocks.flatten.length ≤ fuel →
      ∃ r, blocks.foldlM (addForBlock fuel M maxUsage) q = some r ∧ QueueInv U r ∧
        (dynamicMemoryUsage M U ≤ maxUsage →
          ∀ t ∈ (q ++ blocks.flatten).map (·.txid), t ∈ r.map (·.txid)) := by
  induction blocks with
  | nil => exact fun _ q h _ => ⟨q, rfl, h, fun _ t ht => by simpa using ht⟩
  | cons vtx blocks ih =>
    intro hU q h hfuel
    rw [List.flatten_cons, List.length_append] at hfuel
    have hfuel₁ : q.length + vtx.length ≤ fuel := by omega
    -- a block may add as many entries as it has transactions
    obtain ⟨q₁, h₁, hinv₁, hlen₁, hcov₁⟩ := addForBlock_spec M maxUsage hacyc h
      (fun x hx => hU x (List.mem_flatten_of_mem List.mem_cons_self hx)) hfuel₁
    obtain ⟨r, hr, hinv, hcov⟩ := ih (fun x hx => hU x (List.mem_flatten.mpr
      (by obtain ⟨l, hl, hx⟩ := List.mem_flatten.mp hx; exact ⟨l, List.mem_cons_of_mem _ hl, hx⟩)))
      hinv₁ (by omega)
    refine ⟨r, by rw [List.foldlM_cons, h₁]; exact hr, hinv, fun hmax t ht => hcov hmax t ?_⟩
    rw [List.flatten_cons, ← List.append_assoc, List.map_append, List.mem_append] at ht
    rw [List.map_append, List.mem_append]
    exact ht.imp_left (hcov₁ hmax t)

omit [LinearOrder α] in
/-- The earliest entry, the first the size limit drops, has no queued child: the entries after
it do not spend it, and without cycles it does not spend itself. -/
theorem QueueInv.head_no_child {U r : List (Transaction α)} (h : QueueInv U r)
    (hacyc : Acyclic U) : ∀ x ∈ r.head?, ∀ y ∈ r, x.txid ∉ y.vin := by
  intro x hx y hy hspend
  cases r with
  | nil => exact absurd hx (by simp)
  | cons z r =>
    obtain rfl : z = x := Option.some_injective _ hx
    rcases List.mem_cons.mp hy with rfl | hy
    · exact hacyc y (Relation.TransGen.single ⟨h.subset y List.mem_cons_self, hspend⟩)
    · exact List.rel_of_pairwise_cons h.topological hy hspend

omit [LinearOrder α] in
/-- Ranks that every spend in `U` lowers rule out cycles. -/
theorem acyclic_of_rank {U : List (Transaction α)} (rank : Transaction α → ℕ)
    (h : ∀ a ∈ U, ∀ b ∈ U, b.txid ∈ a.vin → rank b < rank a) : Acyclic U := by
  -- along a path the rank falls at every step that starts in `U`, and every step ends in `U`
  have hpath : ∀ a b, Relation.TransGen (ParentIn U) a b → b ∈ U ∧ (a ∈ U → rank b < rank a) := by
    intro a b hab
    induction hab with
    | single hab => exact ⟨hab.1, fun ha => h a ha _ hab.1 hab.2⟩
    | @tail b c _ hbc ih =>
      refine ⟨hbc.1, fun ha => ?_⟩
      calc rank c < rank b := h b ih.1 c hbc.1 hbc.2
        _ < rank a := ih.2 ha
  intro x hx
  obtain ⟨hxU, hlt⟩ := hpath x x hx
  exact lt_irrefl _ (hlt hxU)

theorem addForBlock_topological_order (fuel : ℕ) (M : MemoryUsage α) (maxUsage : ℕ)
    (blocks : List (List (Transaction α))) (hacyc : Acyclic blocks.flatten)
    (hfuel : blocks.flatten.length ≤ fuel) :
    ∃ r, blocks.foldlM (addForBlock fuel M maxUsage) [] = some r ∧
      r.reverse.Pairwise (fun x y => y.txid ∉ x.vin) ∧
      (∀ x ∈ r.head?, ∀ y ∈ r, x.txid ∉ y.vin) ∧
      (∀ x ∈ r, x ∈ blocks.flatten) ∧ (r.map (·.txid)).Nodup ∧
      (dynamicMemoryUsage M blocks.flatten ≤ maxUsage →
        ∀ x ∈ blocks.flatten, x.txid ∈ r.map (·.txid)) := by
  have hfuel₀ : ([] : List (Transaction α)).length + blocks.flatten.length ≤ fuel := by
    rw [List.length_nil, Nat.zero_add]
    exact hfuel
  obtain ⟨r, hr, hinv, hcov⟩ := foldlM_addForBlock_spec M maxUsage hacyc blocks (fun x hx => hx)
    (QueueInv.nil _) hfuel₀
  refine ⟨r, hr, List.pairwise_reverse.mpr hinv.topological, hinv.head_no_child hacyc,
    hinv.subset, hinv.nodup, fun hmax x hx => hcov hmax _ ?_⟩
  rw [List.nil_append]
  exact List.mem_map_of_mem hx

/-- Two blocks from the tip down: `3` spends `2` and `4` spends `3` and `1`; then the block of
`1` and `2`, where `2` spends `1`. -/
def exampleBlocks : List (List (Transaction ℕ)) :=
  [[⟨3, [2]⟩, ⟨4, [3, 1]⟩], [⟨1, [0]⟩, ⟨2, [1]⟩]]

theorem addForBlock_topological_order_two_blocks :
    ∃ r, exampleBlocks.foldlM (addForBlock 4 ⟨1, 0, fun _ => 1⟩ 100) [] = some r ∧
      r.reverse.Pairwise (fun x y => y.txid ∉ x.vin) ∧
      (∀ x ∈ r.head?, ∀ y ∈ r, x.txid ∉ y.vin) ∧ (∀ x ∈ r, x ∈ exampleBlocks.flatten) ∧
      (r.map (·.txid)).Nodup ∧
      (dynamicMemoryUsage ⟨1, 0, fun _ => 1⟩ exampleBlocks.flatten ≤ 100 →
        ∀ x ∈ exampleBlocks.flatten, x.txid ∈ r.map (·.txid)) :=
  addForBlock_topological_order 4 ⟨1, 0, fun _ => 1⟩ 100 _
    (acyclic_of_rank Transaction.txid (by decide)) (by decide)

end DisconnectedBlockTransactions

end BitcoinCash
