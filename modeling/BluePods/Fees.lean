import BluePods.Tx

/-! Protocol fees: what a transaction pays, how the charge splits into the pooled part
and the storage deposit, and how a pooled fee splits into burn and epoch reward. -/

namespace BluePods

structure FeeParams where
  gasPrice : UInt64
  minGas : UInt64
  transitFee : UInt64
  storageFee : UInt64
  rentalRatePerEpoch : UInt64
  maxTermEpochs : UInt64
  graceEpochs : UInt64
  reparentFee : UInt64
  deleteFee : UInt64
  domainUpdateFee : UInt64
  domainTransferFee : UInt64
  domainDeleteFee : UInt64
  indexEntryFee : UInt64
  burnBPS : UInt64
  storageRefundBPS : UInt64

def defaultFeeParams : FeeParams where
  gasPrice := 1
  minGas := 100
  transitFee := 10
  storageFee := 1000
  rentalRatePerEpoch := 100
  maxTermEpochs := 256
  graceEpochs := 8
  reparentFee := 100
  deleteFee := 100
  domainUpdateFee := 100
  domainTransferFee := 100
  domainDeleteFee := 100
  indexEntryFee := 25
  burnBPS := 0
  storageRefundBPS := 9500

/-- The basis-point denominator. -/
def bpsMax : UInt64 := 10000

/-- The shares of a fee and of a deposit are at most the whole. -/
structure FeeParams.WellFormed (p : FeeParams) : Prop where
  burn : p.burnBPS ≤ bpsMax
  refund : p.storageRefundBPS ≤ bpsMax

theorem defaultFeeParams_wellFormed : defaultFeeParams.WellFormed := ⟨by decide, by decide⟩

/-! ## Basis points -/

/-- A share of an amount in basis points. The product wraps, as in the source. -/
def bpsShare (amount bps : UInt64) : UInt64 := amount * bps / bpsMax

/-- A share never exceeds the amount: a wrapped product is only smaller. -/
theorem bpsShare_le {amount bps : UInt64} (h : bps ≤ bpsMax) :
    (bpsShare amount bps).toNat ≤ amount.toNat := by
  have hb : bps.toNat ≤ 10000 := h
  have hmax : bpsMax.toNat = 10000 := rfl
  rw [bpsShare, UInt64.toNat_div, UInt64.toNat_mul, hmax]
  have hle : amount.toNat * bps.toNat ≤ amount.toNat * 10000 := Nat.mul_le_mul_left _ hb
  have hmod := Nat.mod_le (amount.toNat * bps.toNat) (2 ^ 64)
  omega

/-- A consumed fee: its total, the burned share and the epoch share. -/
structure FeeSplit where
  total : UInt64 := 0
  burned : UInt64 := 0
  epoch : UInt64 := 0
  deriving DecidableEq

def splitFee (total : UInt64) (p : FeeParams) : FeeSplit :=
  let burned := bpsShare total p.burnBPS
  { total, burned, epoch := total - burned }

theorem splitFee_add (total : UInt64) {p : FeeParams} (hp : p.WellFormed) :
    (splitFee total p).burned.toNat + (splitFee total p).epoch.toNat = total.toNat := by
  have hle : (bpsShare total p.burnBPS).toNat ≤ total.toNat := bpsShare_le hp.burn
  simp only [splitFee]
  rw [UInt64.toNat_sub_of_le _ _ (UInt64.le_iff_toNat_le.2 hle)]
  omega

/-- What the deletion of an object refunds of its deposit, and what it burns. -/
def storageRefund (objectFees : UInt64) (p : FeeParams) : UInt64 × UInt64 :=
  let refund := bpsShare objectFees p.storageRefundBPS
  (refund, objectFees - refund)

/-- An amount split in basis points over unbounded integers: the part is rounded down, the
rest is the complement, and neither exceeds the amount. -/
structure SplitsExactly (amount bps part rest : UInt64) : Prop where
  floor : part.toNat = amount.toNat * bps.toNat / 10000
  sum : part.toNat + rest.toNat = amount.toNat
  part_le : part ≤ amount
  rest_le : rest ≤ amount

/-- The rest always complements the part; the part is exact as long as the product fits. -/
theorem splitsExactly_iff {bps : UInt64} (h : bps ≤ bpsMax) (amount : UInt64) :
    SplitsExactly amount bps (bpsShare amount bps) (amount - bpsShare amount bps) ↔
      amount.toNat * bps.toNat < 2 ^ 64 := by
  have hle : bpsShare amount bps ≤ amount := UInt64.le_iff_toNat_le.2 (bpsShare_le h)
  have hrest := UInt64.toNat_sub_of_le _ _ hle
  have hpart : (bpsShare amount bps).toNat = amount.toNat * bps.toNat % 2 ^ 64 / 10000 := by
    rw [bpsShare, UInt64.toNat_div, UInt64.toNat_mul]
    rfl
  rw [UInt64.le_iff_toNat_le] at hle
  constructor
  · intro hs
    have := hs.floor
    omega
  · intro hfits
    rw [Nat.mod_eq_of_lt hfits] at hpart
    exact ⟨hpart, by omega, by rwa [UInt64.le_iff_toNat_le], by rw [UInt64.le_iff_toNat_le]; omega⟩

/-- Fold a deposit that was debited but locks nothing into the epoch pool. -/
def poolUnlockedStorage (split : FeeSplit) (storage : UInt64) : FeeSplit :=
  { split with total := safeAdd split.total storage, epoch := safeAdd split.epoch storage }

/-! ## Storage deposits -/

/-- Replication zero means every validator. -/
def effectiveRep (replication : UInt16) (totalValidators : Nat) : Nat :=
  if replication = 0 then totalValidators else replication.toNat

/-- The deposit of a created object: a share of the storage fee in proportion to its
replication, plus the index entry. -/
def storageDeposit (replication : UInt16) (totalValidators : Nat)
    (storageFee indexEntryFee : UInt64) : UInt64 :=
  if totalValidators = 0 then 0
  else
    let effRep := effectiveRep replication totalValidators
    let storage := safeMul (UInt64.ofNat effRep) storageFee / UInt64.ofNat totalValidators
    safeAdd storage indexEntryFee

/-! ## The transaction fee -/

/-- The replication an attested transaction gives each object identifier; the last
entry of an identifier wins. -/
def buildReplicationMap (atx : AttestedTransaction) : AList fun _ : Hash => UInt16 :=
  atx.objects.foldl (fun m o =>
    match hash32 o.id with
    | none => m
    | some id => m.insert id o.replication) ∅

theorem buildReplicationMap_eq (atx : AttestedTransaction) :
    buildReplicationMap atx =
      (atx.objects.filterMap fun o => (hash32 o.id).map fun id => (id, o.replication)).foldl
        (fun m p => m.insert p.1 p.2) ∅ := by
  unfold buildReplicationMap
  generalize (∅ : AList fun _ : Hash => UInt16) = m
  induction atx.objects generalizing m with
  | nil => rfl
  | cons o objects ih =>
    cases hid : hash32 o.id <;> simp [hid, ih]

/-- The identifiers of a reference list with the replication the wrapper gives them,
zero for an object it does not carry. -/
def extractObjectRefs (refs : List ObjectRef) (atx : AttestedTransaction) :
    List (Hash × UInt16) :=
  let repMap := buildReplicationMap atx
  (refs.filterMap ObjectRef.refID).map fun id => (id, (repMap.lookup id).getD 0)

/-- The share of validators that execute, as a fraction. -/
def replicationRatio (mutableRefs : List (Hash × UInt16)) (createdObjectsCount : Nat)
    (computeHolders : Hash → Nat → List Hash) (totalValidators : Nat) : Nat × Nat :=
  if totalValidators = 0 then (0, 1)
  else if createdObjectsCount > 0 then (1, 1)
  else if mutableRefs.length = 0 then (0, 1)
  else if mutableRefs.any (·.2 = 0) then (1, 1)
  else
    let seen := (mutableRefs.flatMap fun r => computeHolders r.1 r.2.toNat).dedup
    (seen.length, totalValidators)

def reparentOp : Byte := 0
def deleteOp : Byte := 1
def domainRegisterOp : Byte := 2
def domainRenewOp : Byte := 3
def domainUpdateOp : Byte := 4
def domainTransferOp : Byte := 5
def domainDeleteOp : Byte := 6
def lastDeclaredOpKind : Byte := domainDeleteOp

/-- The price of one declared operation: rent for a lease, a flat fee otherwise. -/
def declaredOpFee (op : DeclaredOp) (p : FeeParams) : UInt64 :=
  if op.kind = reparentOp then p.reparentFee
  else if op.kind = deleteOp then p.deleteFee
  else if op.kind = domainRegisterOp ∨ op.kind = domainRenewOp then
    safeMul p.rentalRatePerEpoch op.termEpochs.toUInt64
  else if op.kind = domainUpdateOp then p.domainUpdateFee
  else if op.kind = domainTransferOp then p.domainTransferFee
  else if op.kind = domainDeleteOp then p.domainDeleteFee
  else 0

def declaredOpsFee (ops : List DeclaredOp) (p : FeeParams) : UInt64 :=
  ops.foldl (fun total op => safeAdd total (declaredOpFee op p)) 0

/-- The deposits of the objects a header declares. -/
def createdDeposits (reps : List UInt16) (totalValidators : Nat) (p : FeeParams)
    (start : UInt64) : UInt64 :=
  reps.foldl (fun total rep =>
    safeAdd total (storageDeposit rep totalValidators p.storageFee p.indexEntryFee)) start

/-- The total fee, from header fields alone. -/
def calculateFee (maxGas : UInt64) (ratio : Nat × Nat) (standardObjectCount : Nat)
    (createdObjectsReplication : List UInt16) (ops : List DeclaredOp) (opsOnly : Bool)
    (totalValidators : Nat) (p : FeeParams) : UInt64 :=
  let compute :=
    if opsOnly then safeMul p.minGas p.gasPrice
    else if ratio.2 > 0 ∧ ratio.1 > 0 then
      safeMul (safeMul maxGas p.gasPrice) (UInt64.ofNat ratio.1) / UInt64.ofNat ratio.2
    else 0
  let total := safeAdd compute (safeMul (UInt64.ofNat standardObjectCount) p.transitFee)
  let total :=
    if totalValidators > 0 then createdDeposits createdObjectsReplication totalValidators p total
    else total
  safeAdd total (declaredOpsFee ops p)

/-- The fee of an attested transaction, given the live validator count. -/
def calculateTxFee (computeHolders : Hash → Nat → List Hash) (p : FeeParams)
    (totalValidators : Nat) (tx : Transaction) (atx : AttestedTransaction) : UInt64 :=
  let mutableRefs := extractObjectRefs tx.mutableRefs atx
  let allRefs := mutableRefs ++ extractObjectRefs tx.readRefs atx
  let standardCount := (allRefs.filter (·.2 > 0)).length
  let ratio := replicationRatio mutableRefs tx.createdObjectsReplication.length computeHolders
    totalValidators
  calculateFee tx.maxGas ratio standardCount tx.createdObjectsReplication tx.operations
    (!tx.operations.isEmpty && !tx.txHasPodCall) totalValidators p

/-- The pooled part of a fee and the storage deposit withheld from the pool. -/
def calculateTxFeeSplit (computeHolders : Hash → Nat → List Hash) (p : FeeParams)
    (totalValidators : Nat) (tx : Transaction) (atx : AttestedTransaction) :
    UInt64 × UInt64 :=
  let storage := createdDeposits tx.createdObjectsReplication totalValidators p 0
  let full := calculateTxFee computeHolders p totalValidators tx atx
  if full < storage then (0, full) else (full - storage, storage)

theorem calculateTxFeeSplit_add (computeHolders : Hash → Nat → List Hash) (p : FeeParams)
    (n : Nat) (tx : Transaction) (atx : AttestedTransaction) :
    (calculateTxFeeSplit computeHolders p n tx atx).1.toNat +
        (calculateTxFeeSplit computeHolders p n tx atx).2.toNat =
      (calculateTxFee computeHolders p n tx atx).toNat := by
  simp only [calculateTxFeeSplit]
  split
  · simp
  · rename_i h
    have hle := UInt64.le_iff_toNat_le.1 (UInt64.not_lt.1 h)
    simp only [UInt64.toNat_sub_of_le _ _ (UInt64.not_lt.1 h)]
    omega

theorem calculateTxFeeSplit_withheld_of_empty {computeHolders : Hash → Nat → List Hash}
    {p : FeeParams} {n : Nat} {tx : Transaction} {atx : AttestedTransaction}
    (h : tx.createdObjectsReplication = []) :
    (calculateTxFeeSplit computeHolders p n tx atx).2 = 0 := by
  simp [calculateTxFeeSplit, createdDeposits, h]

/-! ## The fee on two nodes -/

/-- A deposit over this many validators does not overflow. -/
def FeeParams.Covers (p : FeeParams) (n : Nat) : Prop := 0 < n ∧ n * p.storageFee.toNat < 2 ^ 64

/-- The storage deposit of a singleton does not depend on how many validators there are. -/
theorem storageDeposit_singleton {p : FeeParams} {n : Nat} (h : p.Covers n) :
    storageDeposit 0 n p.storageFee p.indexEntryFee = safeAdd p.storageFee p.indexEntryFee := by
  obtain ⟨hn, hfit⟩ := h
  have hdiv : safeMul (UInt64.ofNat n) p.storageFee / UInt64.ofNat n = p.storageFee := by
    by_cases hfee : p.storageFee = 0
    · simp [hfee, safeMul]
    · have hpos : 0 < p.storageFee.toNat := by
        rw [Nat.pos_iff_ne_zero]
        exact fun hzero => hfee (UInt64.toNat_inj.1 hzero)
      have hlt : n < 2 ^ 64 := (Nat.le_mul_of_pos_right n hpos).trans_lt hfit
      rw [← UInt64.toNat_inj, UInt64.toNat_div, toNat_safeMul, UInt64.toNat_ofNat_of_lt' hlt,
        min_eq_left (by omega), Nat.mul_div_cancel_left _ hn]
  rw [storageDeposit, if_neg hn.ne']
  exact congrArg (safeAdd · _) hdiv

/-- The transaction creates singletons only, and so for what it references mutably. -/
structure Singletons (tx : Transaction) (atx : AttestedTransaction) : Prop where
  created : ∀ rep ∈ tx.createdObjectsReplication, rep = 0
  refs : ∀ r ∈ extractObjectRefs tx.mutableRefs atx, r.2 = 0

section

variable {holders holders' : Hash → Nat → List Hash} {p : FeeParams} {n m : Nat}
  {tx : Transaction} {atx : AttestedTransaction}

/-- The fee is read off the validator count and the holders of the mutable references. -/
theorem calculateTxFeeSplit_holders
    (h : ∀ r ∈ extractObjectRefs tx.mutableRefs atx,
      holders r.1 r.2.toNat = holders' r.1 r.2.toNat) :
    calculateTxFeeSplit holders p n tx atx = calculateTxFeeSplit holders' p n tx atx := by
  have hratio : replicationRatio (extractObjectRefs tx.mutableRefs atx)
      tx.createdObjectsReplication.length holders n =
      replicationRatio (extractObjectRefs tx.mutableRefs atx)
        tx.createdObjectsReplication.length holders' n := by
    simp only [replicationRatio, List.flatMap_congr h]
  unfold calculateTxFeeSplit calculateTxFee
  dsimp only
  rw [hratio]

/-- The fee of a transaction over singletons is the same for every count of validators. -/
theorem calculateTxFeeSplit_of_singletons (h : Singletons tx atx) (hn : p.Covers n)
    (hm : p.Covers m) :
    calculateTxFeeSplit holders p n tx atx = calculateTxFeeSplit holders' p m tx atx := by
  have hdeposits : ∀ start, createdDeposits tx.createdObjectsReplication n p start =
      createdDeposits tx.createdObjectsReplication m p start := by
    intro start
    refine List.foldl_ext _ _ start fun total rep hrep => ?_
    rw [h.created rep hrep, storageDeposit_singleton hn, storageDeposit_singleton hm]
  have hratio : replicationRatio (extractObjectRefs tx.mutableRefs atx)
      tx.createdObjectsReplication.length holders n =
      replicationRatio (extractObjectRefs tx.mutableRefs atx)
        tx.createdObjectsReplication.length holders' m := by
    unfold replicationRatio
    rw [if_neg hn.1.ne', if_neg hm.1.ne']
    cases hrefs : extractObjectRefs tx.mutableRefs atx with
    | nil => rfl
    | cons r rest =>
      have hr := h.refs r (hrefs ▸ List.mem_cons_self)
      simp [hr]
  unfold calculateTxFeeSplit calculateTxFee calculateFee
  dsimp only
  rw [hratio, if_pos hn.1, if_pos hm.1, hdeposits, hdeposits]

end

end BluePods
