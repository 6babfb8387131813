import BluePods.Debits
import BluePods.Interference
import BluePods.Lib.Weighing

/-! Storage deposits of a successful execution. The fee stage withholds the deposits of
the replications a header declares; the pod's output is stamped with the deposits of the
replications it creates. The checks between the two compare the counts only. -/

namespace BluePods

variable {st : Ledger} {nd : Node} {tx : Transaction} {n : Nat}

/-! ## What is withheld -/

/-- The deposits of a header without the cap of 64 bits. -/
def declaredDeposits (reps : List UInt16) (n : Nat) (p : FeeParams) : Nat :=
  (reps.map fun rep => (storageDeposit rep n p.storageFee p.indexEntryFee).toNat).sum

theorem toNat_createdDeposits (reps : List UInt16) (n : Nat) (p : FeeParams) (start : UInt64) :
    (createdDeposits reps n p start).toNat =
      min (start.toNat + declaredDeposits reps n p) (2 ^ 64 - 1) := by
  unfold createdDeposits
  induction reps generalizing start with
  | nil =>
    have := start.toNat_lt
    simp only [List.foldl_nil, declaredDeposits, List.map_nil, List.sum_nil]
    omega
  | cons rep reps ih =>
    simp only [declaredDeposits, List.map_cons, List.sum_cons] at ih ⊢
    rw [List.foldl_cons, ih, toNat_safeAdd]
    omega

theorem declaredDeposits_zero (reps : List UInt16) (p : FeeParams) :
    declaredDeposits reps 0 p = 0 := by
  simp [declaredDeposits, storageDeposit]

theorem createdDeposits_le_calculateTxFee (computeHolders : Hash → Nat → List Hash)
    (p : FeeParams) (n : Nat) (tx : Transaction) (atx : AttestedTransaction) :
    createdDeposits tx.createdObjectsReplication n p 0 ≤
      calculateTxFee computeHolders p n tx atx := by
  rw [UInt64.le_iff_toNat_le, calculateTxFee, calculateFee, toNat_safeAdd]
  split
  · rw [toNat_createdDeposits, toNat_createdDeposits, UInt64.toNat_zero]
    omega
  · rename_i hn
    obtain rfl : n = 0 := by omega
    rw [toNat_createdDeposits, declaredDeposits_zero, UInt64.toNat_zero]
    omega

namespace Ledger

theorem toNat_feeParts_withheld (st : Ledger) (nd : Node) (tx : Transaction)
    (atx : AttestedTransaction) :
    (st.feeParts nd tx atx).2.toNat = min (declaredDeposits tx.createdObjectsReplication
      st.validators.len nd.feeParams) (2 ^ 64 - 1) := by
  have hle := createdDeposits_le_calculateTxFee nd.computeHolders nd.feeParams
    st.validators.len tx atx
  simp only [feeParts, calculateTxFeeSplit, if_neg (UInt64.not_lt.2 hle)]
  rw [toNat_createdDeposits, UInt64.toNat_zero, Nat.zero_add]

/-- A gas coin that pays lets the fee stage withhold the header's deposits. -/
theorem withheld_of_proceed {atx : AttestedTransaction} {coin : Hash}
    (hcoin : tx.txGasCoinID = some coin) (h : (st.deductFees nd tx atx).proceed = true) :
    (st.deductFees nd tx atx).withheld = (st.feeParts nd tx atx).2 := by
  have hadd := st.toNat_feeParts_add nd tx atx
  simp only [feeParts] at hadd ⊢
  unfold deductFees at h ⊢
  simp only [hcoin] at h ⊢
  split_ifs at h ⊢ with hmin hvalid hzero
  · rw [hzero, UInt64.toNat_zero] at hadd
    refine UInt64.toNat_inj.1 ?_
    simp only [UInt64.toNat_zero]
    omega
  · split at h
    · simp at h
    · rename_i st' taken full hdeduct
      cases full with
      | false => simp at h
      | true => simp

end Ledger

/-! ## What is stamped -/

namespace Tracker

theorem getFees_trackObject (ot : Tracker) (id : Hash) (version : UInt64) (replication : UInt16)
    (fees : UInt64) (kind : Byte) (parent x : Hash) :
    (ot.trackObject id version replication fees kind parent).getFees x =
      if x = id then fees else ot.getFees x := by
  have hread : ∀ ot : Tracker, ot.getFees x = ((ot.record x).map (·.fees)).getD 0 := by
    intro ot
    cases h : ot.lookup x <;> simp [getFees, entry, record, h]
  rw [hread, record_trackObject, hread]
  split <;> rfl

/-- The deposits tracked under the identifiers of the first objects of a transaction. -/
def lockedDeposits (ot : Tracker) (nd : Node) (tx : Transaction) (created : Nat) : Nat :=
  ((List.range created).map fun i =>
    (ot.getFees (computeObjectID nd.crypto (hashOrZero tx.hash) i)).toNat).sum

end Tracker

/-- The first identifiers of a transaction's objects differ. -/
def DistinctIDs (nd : Node) (tx : Transaction) (created : Nat) : Prop :=
  ∀ i j, i < j → j < created →
    computeObjectID nd.crypto (hashOrZero tx.hash) i ≠
      computeObjectID nd.crypto (hashOrZero tx.hash) j

namespace Ledger

/-- The sum of the deposits stamped on a list of created objects. -/
def stampedDeposits (st : Ledger) (nd : Node) (tx : Transaction) (created : List Object) : Nat :=
  (created.map fun o => (st.stampedDeposit nd tx o).toNat).sum

/-- Whatever was tracked before, each created object ends with its own stamp. -/
theorem lockedDeposits_applyCreatedObjects {out : PodOutput}
    (h : DistinctIDs nd tx out.createdObjects.length) :
    (st.applyCreatedObjects nd out tx).tracker.lockedDeposits nd tx out.createdObjects.length =
      st.stampedDeposits nd tx out.createdObjects := by
  rw [applyCreatedObjects_tracker]
  unfold stampedDeposits
  generalize st.stampedDeposit nd tx = deposit
  generalize out.createdObjects = created at h ⊢
  -- From the end: the last object tracked overwrites no other.
  induction created using List.reverseRecOn with
  | nil => rfl
  | append_singleton created o ih =>
    simp only [List.length_append, List.length_singleton] at h
    have hsame : ∀ ot : Tracker,
        (trackCreated nd tx deposit ot (o, created.length)).lockedDeposits nd tx created.length =
          ot.lockedDeposits nd tx created.length := by
      intro ot
      refine congrArg List.sum (List.map_congr_left fun i hi => ?_)
      have hne := h i created.length (List.mem_range.1 hi) (Nat.lt_succ_self _)
      rw [trackCreated, Tracker.getFees_trackObject, if_neg hne]
    have hlast := ih fun i j hij hj => h i j hij (Nat.lt_succ_of_lt hj)
    rw [List.zipIdx_append, List.foldl_append, List.length_append, List.length_singleton,
      List.map_append, List.sum_append, ← hlast, ← hsame]
    simp [Tracker.lockedDeposits, List.range_succ, trackCreated, Tracker.getFees_trackObject]

end Ledger

/-! ## The two lists -/

/-- Under a unit fee the deposit of a replication is its whole number of networks. -/
theorem toNat_storageDeposit_unit (hn : 0 < n) (hle : n ≤ 65536) (rep : UInt16) :
    (storageDeposit rep n 1 0).toNat = effectiveRep rep n / n := by
  have hrep := rep.toNat_lt
  have heff : effectiveRep rep n < 2 ^ 64 := by
    unfold effectiveRep
    split <;> omega
  have hmul : (safeMul (UInt64.ofNat (effectiveRep rep n)) 1).toNat = effectiveRep rep n := by
    rw [toNat_safeMul, UInt64.toNat_one, Nat.mul_one, UInt64.toNat_ofNat_of_lt' heff]
    omega
  have hdiv : effectiveRep rep n / n ≤ effectiveRep rep n := Nat.div_le_self ..
  have hsize : n < 2 ^ 64 := by omega
  rw [storageDeposit, if_neg (by omega), toNat_safeAdd, UInt64.toNat_div, hmul,
    UInt64.toNat_ofNat_of_lt' hsize, UInt64.toNat_zero]
  omega

/-- Replications by how far they reach, the whole network last. -/
def reach (rep : UInt16) : Nat := effectiveRep rep 65536

theorem reach_injective : Function.Injective reach := by
  intro a b h
  have ha := a.toNat_lt
  have hb := b.toNat_lt
  simp only [reach, effectiveRep] at h
  split_ifs at h with h0 h1 h1
  · rw [h0, h1]
  · omega
  · omega
  · exact UInt16.toNat_inj.1 h

/-- In a network as large as a replication reaches, its unit deposit is seen and none of
shorter reach is. -/
theorem storageDeposit_peak (rep : UInt16) :
    0 < reach rep ∧ reach rep ≤ 65536 ∧ (storageDeposit rep (reach rep) 1 0).toNat ≠ 0 ∧
      ∀ rep', reach rep' < reach rep → (storageDeposit rep' (reach rep) 1 0).toNat = 0 := by
  have hlt := rep.toNat_lt
  have hpos : 0 < reach rep ∧ reach rep ≤ 65536 := by
    unfold reach effectiveRep
    split
    · omega
    · rename_i hne
      have : rep.toNat ≠ 0 := fun h => hne (UInt16.toNat_inj.1 h)
      omega
  refine ⟨hpos.1, hpos.2, ?_, fun rep' hreach => ?_⟩
  · have hself : effectiveRep rep (reach rep) = reach rep := by
      unfold reach effectiveRep
      split <;> rfl
    rw [toNat_storageDeposit_unit hpos.1 hpos.2, hself, Nat.div_self hpos.1]
    decide
  · have hne : rep' ≠ 0 := by
      rintro rfl
      have hzero : reach 0 = 65536 := rfl
      omega
    have hself : effectiveRep rep' (reach rep) = reach rep' := by
      simp [reach, effectiveRep, hne]
    rw [toNat_storageDeposit_unit hpos.1 hpos.2, hself, Nat.div_eq_of_lt hreach]

/-- Networks of every size up to the widest replication. -/
theorem ValidatorSet.exists_len (h : n ≤ 65536) : ∃ vs : ValidatorSet, vs.len = n := by
  let key (i : Nat) : Hash := toHash (putUint64LE (UInt64.ofNat i))
  have hkey : ∀ i, uint64LE (key i).val = UInt64.ofNat i := by
    intro i
    have htake : (putUint64LE (UInt64.ofNat i)).take 32 = putUint64LE (UInt64.ofNat i) :=
      List.take_of_length_le (by simp)
    simp only [key, toHash, htake]
    exact uint64LE_putUint64LE ..
  refine ⟨⟨(List.range n).map fun i => { pubkey := key i }, ?_⟩, by simp [ValidatorSet.len]⟩
  rw [List.map_map]
  refine List.Nodup.map_on (fun i hi j hj hij => ?_) List.nodup_range
  have heq : UInt64.ofNat i = UInt64.ofNat j := by
    rw [← hkey i, ← hkey j]
    exact congrArg (fun k : Hash => uint64LE k.val) hij
  have hi' : i < 2 ^ 64 := by
    have := List.mem_range.1 hi
    omega
  have hj' : j < 2 ^ 64 := by
    have := List.mem_range.1 hj
    omega
  rw [← UInt64.toNat_ofNat_of_lt' hi', heq, UInt64.toNat_ofNat_of_lt' hj']

/-- Replications with the same unit deposits in networks of every size are the same. -/
theorem perm_of_declaredDeposits_eq {reps reps' : List UInt16} (p : FeeParams)
    (h : ∀ n, 0 < n → n ≤ 65536 →
      declaredDeposits reps n { p with storageFee := 1, indexEntryFee := 0 } =
        declaredDeposits reps' n { p with storageFee := 1, indexEntryFee := 0 }) :
    reps.Perm reps' := by
  rw [← Multiset.coe_eq_coe]
  refine Lib.Weighing.eq_of_forall_sum_eq
    (f := fun (n : { n : Nat // 0 < n ∧ n ≤ 65536 }) rep => (storageDeposit rep n 1 0).toNat)
    reach_injective (fun rep => ?_) fun n => ?_
  · obtain ⟨hpos, hle, hseen, hlow⟩ := storageDeposit_peak rep
    exact ⟨⟨reach rep, hpos, hle⟩, hseen, hlow⟩
  · have := h n n.2.1 n.2.2
    simpa [declaredDeposits] using this

theorem declaredDeposits_unit_lt {reps : List UInt16} (hlen : reps.length < 2 ^ 32) (p : FeeParams)
    (hn : 0 < n) (hle : n ≤ 65536) :
    declaredDeposits reps n { p with storageFee := 1, indexEntryFee := 0 } < 2 ^ 64 := by
  have hbound : ∀ rep : UInt16, (storageDeposit rep n 1 0).toNat ≤ 65536 := by
    intro rep
    have hrep := rep.toNat_lt
    rw [toNat_storageDeposit_unit hn hle]
    refine (Nat.div_le_self ..).trans ?_
    unfold effectiveRep
    split <;> omega
  have hsum : declaredDeposits reps n { p with storageFee := 1, indexEntryFee := 0 } ≤
      reps.length * 65536 := by
    simpa [declaredDeposits] using List.sum_le_card_nsmul
      (reps.map fun rep => (storageDeposit rep n 1 0).toNat) 65536
      (by simpa using fun rep _ => hbound rep)
  omega

/-! ## Exactness -/

namespace Ledger

theorem stampedDeposits_eq (h : txLocksDeposits tx = true) (created : List Object) :
    st.stampedDeposits nd tx created =
      declaredDeposits (created.map (·.replication)) st.validators.len nd.feeParams := by
  simp [stampedDeposits, stampedDeposit, h, declaredDeposits, computeStorageDeposit_eq,
    Function.comp_def]

/-- Some ledger over any validator set lets the fee of a transaction clear. -/
theorem exists_feeClears (atx : AttestedTransaction) (vs : ValidatorSet)
    (hgas : txLocksDeposits tx = true) (hpayer : tx.payer.length = 32)
    (hmin : nd.feeParams.minGas ≤ tx.maxGas) :
    ∃ st : Ledger, st.validators = vs ∧ st.FeeClears nd tx atx := by
  obtain ⟨coin, hcoin⟩ : ∃ coin, tx.txGasCoinID = some coin := by
    refine ⟨⟨tx.gasCoin, by simpa [txLocksDeposits] using hgas⟩, ?_⟩
    exact hash32_eq_some.2 rfl
  let o : Object := { coinObject coin zeroHash maxUint64 with owner := tx.payer }
  have hid : o.objectID = coin := by
    simp [o, Object.objectID, coinObject, hashOrZero]
  let st : Ledger := { objects := ObjectStore.empty.set o, validators := vs }
  have hget : st.getObject coin = some o := by
    simp [st, getObject, ObjectStore.get_set, hid]
  have hbal : st.balanceOf coin = some maxUint64 := by
    rw [balanceOf_of_get hget]
    simp only [o, coinObject, Object.balance, length_putUint64LE, Nat.lt_irrefl, if_false]
    exact congrArg some (by simpa using uint64LE_putUint64LE maxUint64 [])
  refine ⟨st, rfl, coin, hcoin, hmin, ?_, .inr ⟨maxUint64, hbal, ?_⟩⟩
  · exact validateGasCoin_eq_true.2 ⟨o, hget, rfl, ⟨tx.payer, hpayer⟩, hash32_eq_some.2 rfl,
      hash32_eq_some.2 rfl⟩
  · rw [UInt64.le_iff_toNat_le, toNat_maxUint64]
    have := (st.totalFee nd tx atx).toNat_lt
    omega

theorem toNat_withheld {atx : AttestedTransaction} (hgas : txLocksDeposits tx = true)
    (hproceed : (st.deductFees nd tx atx).proceed = true) :
    (st.deductFees nd tx atx).withheld.toNat =
      min (declaredDeposits tx.createdObjectsReplication st.validators.len nd.feeParams)
        (2 ^ 64 - 1) := by
  have hcoin : tx.txGasCoinID = some ⟨tx.gasCoin, by simpa [txLocksDeposits] using hgas⟩ :=
    hash32_eq_some.2 rfl
  rw [withheld_of_proceed hcoin hproceed, toNat_feeParts_withheld]

end Ledger

/-- An output with one object of a given replication. -/
def creating (replication : UInt16) : PodOutput where
  createdObjects := [{ coinObject zeroHash (idOf 1) 0 with replication }]

end BluePods
