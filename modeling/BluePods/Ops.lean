import BluePods.Fees
import BluePods.Ledger

/-! Declared operations: reparent, delete and the domain kinds. A list is validated as a
whole against a staged view that overlays the effects of the operations before, and only
then applied. -/

namespace BluePods

/-! ## Control -/

def walkDepthLimit : Nat := 256

/-- Follow parent edges from an object to the key it roots at. A missing edge or a walk
that is too long gives nothing. -/
def controllerWalk (getParent : Hash → Option (Byte × Hash)) : Nat → Hash → Option Hash
  | 0, _ => none
  | fuel + 1, current =>
    match getParent current with
    | none => none
    | some (kind, parent) =>
      if kind = keyRootKind then some parent else controllerWalk getParent fuel parent

/-- Whether a walk up from an object meets `id`; doubtful cases count as a cycle. -/
def cycleWalk (getParent : Hash → Option (Byte × Hash)) (id : Hash) : Nat → Hash → Bool
  | 0, _ => true
  | fuel + 1, current =>
    if current = id then true
    else
      match getParent current with
      | none => true
      | some (kind, parent) =>
        if kind = keyRootKind then false else cycleWalk getParent id fuel parent

namespace Tracker

def controllerOf (ot : Tracker) (id : Hash) : Option Hash :=
  controllerWalk ot.getParent walkDepthLimit id

def controls (ot : Tracker) (sender id : Hash) : Bool := ot.controllerOf id = some sender

end Tracker

/-! ## Domain names -/

def dot : Byte := 46

def validDomainLabel (label : Bytes) : Bool :=
  !label.isEmpty && label.all fun c =>
    (97 ≤ c && c ≤ 122) || (48 ≤ c && c ≤ 57) || c = 45

def maxDomainNameLen : Nat := 253

def reservedDomainRoot : Bytes := ascii "system"

/-- Length bound, reserved names, and the alphabet of every label. -/
def validDomainName (name : Bytes) : Bool :=
  if name.length = 0 ∨ name.length > maxDomainNameLen then false
  else if name = reservedDomainRoot ∨ (reservedDomainRoot ++ [dot]).isPrefixOf name then false
  else (name.splitOn dot).all validDomainLabel

/-- Everything after the first label, none for a bare root. -/
def parentDomainName (name : Bytes) : Option Bytes :=
  match name.dropWhile (· ≠ dot) with
  | [] => none
  | _ :: rest => some rest

/-- The expiry a lease would get. A zero term is refused, and so is a term past the
cap. -/
def domainExpiry (current epoch : UInt64) (term : UInt32) (maxTerm : UInt64) : Option UInt64 :=
  if term = 0 then none
  else
    let base := if epoch > current then epoch else current
    let expiry := safeAdd base term.toUInt64
    if expiry > safeAdd epoch maxTerm then none else some expiry

/-! ## The staged view -/

/-- The committed state under the operations staged so far. An operation moves a parent's
count by one, so that the `int32` the source keeps the change in would wrap after 2 ^ 31
operations of one transaction, more than the 32-bit offsets of its bytes can address. -/
structure StagedView where
  ot : Tracker
  ds : AList fun _ : Bytes => DomainLeaf
  epoch : UInt64
  maxTerm : UInt64
  parents : AList fun _ : Hash => Byte × Hash := ∅
  deleted : List Hash := []
  childDelta : AList fun _ : Hash => Int := ∅
  domains : AList fun _ : Bytes => DomainLeaf := ∅
  domainRemoved : List Bytes := []

namespace StagedView

def getParent (s : StagedView) (id : Hash) : Option (Byte × Hash) :=
  if id ∈ s.deleted then none
  else
    match s.parents.lookup id with
    | some edge => some edge
    | none => s.ot.getParent id

def controls (s : StagedView) (sender id : Hash) : Bool :=
  controllerWalk s.getParent walkDepthLimit id = some sender

def wouldCycle (s : StagedView) (id : Hash) (kind : Byte) (parent : Hash) : Bool :=
  if kind = keyRootKind then false else cycleWalk s.getParent id walkDepthLimit parent

/-- The committed count plus the staged change, floored at zero and cut to 32 bits. -/
def childCount (s : StagedView) (id : Hash) : UInt32 :=
  let staged : Int := (s.ot.childCount id).toNat + (s.childDelta.lookup id).getD 0
  if staged < 0 then 0 else UInt32.ofInt staged

def addChildDelta (s : StagedView) (id : Hash) (delta : Int) : StagedView :=
  { s with childDelta := s.childDelta.insert id ((s.childDelta.lookup id).getD 0 + delta) }

/-- Take an object's edge out of its object parent's staged count. -/
def releaseEdge (s : StagedView) (id : Hash) : StagedView :=
  match s.getParent id with
  | some (kind, parent) => if kind = objectParentKind then s.addChildDelta parent (-1) else s
  | none => s

def stageReparent (s : StagedView) (id : Hash) (kind : Byte) (parent : Hash) : StagedView :=
  let s := s.releaseEdge id
  let s := { s with parents := s.parents.insert id (kind, parent) }
  if kind = objectParentKind then s.addChildDelta parent 1 else s

def stageDelete (s : StagedView) (id : Hash) : StagedView :=
  let s := s.releaseEdge id
  { s with deleted := id :: s.deleted }

def validateReparent (s : StagedView) (sender : Hash) (op : DeclaredOp) (refs : List Hash) :
    Option StagedView := do
  let id ← hash32 op.objectID
  if ¬ (id ∈ refs ∧ s.controls sender id) then none
  let target ← hash32 op.target
  if op.targetKind ≠ keyRootKind ∧ op.targetKind ≠ objectParentKind then none
  if op.targetKind = objectParentKind ∧ ¬ s.controls sender target then none
  if s.wouldCycle id op.targetKind target then none
  return s.stageReparent id op.targetKind target

def validateDelete (s : StagedView) (sender : Hash) (op : DeclaredOp) (refs : List Hash) :
    Option StagedView := do
  let id ← hash32 op.objectID
  if ¬ (id ∈ refs ∧ s.controls sender id) then none
  if s.childCount id ≠ 0 then none
  return s.stageDelete id

def getDomain (s : StagedView) (name : Bytes) : Option DomainLeaf :=
  if name ∈ s.domainRemoved then none
  else
    match s.domains.lookup name with
    | some leaf => some leaf
    | none => s.ds.lookup name

/-- A name's leaf when the sender, not the zero key, owns it. -/
def ownedDomain (s : StagedView) (sender : Hash) (name : Bytes) : Option DomainLeaf := do
  let leaf ← s.getDomain name
  if leaf.owner ≠ sender ∨ sender = zeroHash then none else some leaf

def ownsDomainNamespace (s : StagedView) (sender : Hash) (name : Bytes) : Bool :=
  match parentDomainName name with
  | none => true
  | some parent =>
    match s.ownedDomain sender parent with
    | none => false
    | some leaf => leaf.expiry ≥ s.epoch

def stageDomain (s : StagedView) (name : Bytes) (leaf : DomainLeaf) : StagedView :=
  { s with domains := s.domains.insert name leaf
           domainRemoved := s.domainRemoved.filter (· ≠ name) }

def validateDomainRegister (s : StagedView) (sender : Hash) (op : DeclaredOp) :
    Option StagedView := do
  if !validDomainName op.name then none
  if (s.getDomain op.name).isSome then none
  if !s.ownsDomainNamespace sender op.name then none
  let objectID ← hash32 op.objectID
  if !s.controls sender objectID then none
  let expiry ← domainExpiry 0 s.epoch op.termEpochs s.maxTerm
  return s.stageDomain op.name { objectID, owner := sender, expiry }

def validateDomainRenew (s : StagedView) (sender : Hash) (op : DeclaredOp) :
    Option StagedView := do
  let leaf ← s.ownedDomain sender op.name
  let expiry ← domainExpiry leaf.expiry s.epoch op.termEpochs s.maxTerm
  return s.stageDomain op.name { leaf with expiry }

def validateDomainUpdate (s : StagedView) (sender : Hash) (op : DeclaredOp) :
    Option StagedView := do
  let leaf ← s.ownedDomain sender op.name
  let objectID ← hash32 op.objectID
  if !s.controls sender objectID then none
  return s.stageDomain op.name { leaf with objectID }

def validateDomainTransfer (s : StagedView) (sender : Hash) (op : DeclaredOp) :
    Option StagedView := do
  let leaf ← s.ownedDomain sender op.name
  let owner ← hash32 op.target
  if owner = zeroHash then none
  return s.stageDomain op.name { leaf with owner }

def validateDomainDelete (s : StagedView) (sender : Hash) (op : DeclaredOp) :
    Option StagedView := do
  let _ ← s.ownedDomain sender op.name
  return { s with domains := s.domains.insert op.name ⟨zeroHash, zeroHash, 0⟩
                  domainRemoved := op.name :: s.domainRemoved }

def validateDomainOp (s : StagedView) (sender : Hash) (op : DeclaredOp) : Option StagedView :=
  if op.kind = domainRegisterOp then s.validateDomainRegister sender op
  else if op.kind = domainRenewOp then s.validateDomainRenew sender op
  else if op.kind = domainUpdateOp then s.validateDomainUpdate sender op
  else if op.kind = domainTransferOp then s.validateDomainTransfer sender op
  else if op.kind = domainDeleteOp then s.validateDomainDelete sender op
  else none

/-- Check and stage one operation. -/
def validate (s : StagedView) (sender : Hash) (op : DeclaredOp) (refs : List Hash) :
    Option StagedView :=
  if op.kind > lastDeclaredOpKind then none
  else if op.kind = reparentOp then s.validateReparent sender op refs
  else if op.kind = deleteOp then s.validateDelete sender op refs
  else s.validateDomainOp sender op

end StagedView

/-! ## Deletion settlement -/

namespace Ledger

/-- Release a deleted object's deposit: refund a share to the gas coin and burn the
rest, or burn it all when no refund lands. Returns the refund. -/
def settleDeletion (st : Ledger) (p : FeeParams) (objID : Hash) (gasCoinID : Option Hash) :
    Ledger × UInt64 :=
  let deposit := st.tracker.getFees objID
  let st := { st with tracker := st.tracker.deleteObject objID }
  if deposit = 0 then (st, 0)
  else
    match gasCoinID with
    | none => (st.subSupply deposit, 0)
    | some coin =>
      if p.storageRefundBPS = 0 then (st.subSupply deposit, 0)
      else
        let refund := bpsShare deposit p.storageRefundBPS
        match st.creditCoin coin refund with
        | .error _ => (st.subSupply deposit, 0)
        | .ok st => (st.subSupply (deposit - refund), refund)

theorem settleDeletion_of_credit {st st₁ : Ledger} {p : FeeParams} {objID coin : Hash}
    (hdeposit : st.tracker.getFees objID ≠ 0) (hbps : p.storageRefundBPS ≠ 0)
    (hcredit : ({ st with tracker := st.tracker.deleteObject objID } : Ledger).creditCoin coin
      (storageRefund (st.tracker.getFees objID) p).1 = .ok st₁) :
    st.settleDeletion p objID (some coin) =
      (st₁.subSupply (storageRefund (st.tracker.getFees objID) p).2,
        (storageRefund (st.tracker.getFees objID) p).1) := by
  unfold storageRefund at hcredit
  simp only [settleDeletion, if_neg hdeposit, if_neg hbps, hcredit, storageRefund]

end Ledger

/-- Fees and deposits split exactly as long as the product with the basis points fits in 64
bits, and a deletion whose refund lands settles its deposit by the split of deposits. -/
theorem bps_splits_exact_iff {p : FeeParams} (hp : p.WellFormed) (amount : UInt64) :
    (SplitsExactly amount p.burnBPS (splitFee amount p).burned (splitFee amount p).epoch ↔
      amount.toNat * p.burnBPS.toNat < 2 ^ 64) ∧
    (SplitsExactly amount p.storageRefundBPS (storageRefund amount p).1 (storageRefund amount p).2 ↔
      amount.toNat * p.storageRefundBPS.toNat < 2 ^ 64) ∧
    ∀ (st st₁ : Ledger) (objID coin : Hash), st.tracker.getFees objID = amount → amount ≠ 0 →
      p.storageRefundBPS ≠ 0 →
      ({ st with tracker := st.tracker.deleteObject objID } : Ledger).creditCoin coin
        (storageRefund amount p).1 = .ok st₁ →
      st.settleDeletion p objID (some coin) =
        (st₁.subSupply (storageRefund amount p).2, (storageRefund amount p).1) := by
  refine ⟨splitsExactly_iff hp.burn amount, splitsExactly_iff hp.refund amount, ?_⟩
  rintro st st₁ objID coin rfl hdeposit hbps hcredit
  exact Ledger.settleDeletion_of_credit hdeposit hbps hcredit

theorem bps_splits_exact_iff_default :
    defaultFeeParams.WellFormed ∧ SplitsExactly 1000 9500 950 50 :=
  ⟨defaultFeeParams_wellFormed,
    (bps_splits_exact_iff defaultFeeParams_wellFormed 1000).2.1.2 (by decide +kernel)⟩

/-- Of a fee of 2⁶⁰ under a full burn nothing is burned, and of a deposit of 2⁶⁰ the default
share of 95 percent refunds less than one part in 800. -/
theorem large_amounts_split_wrong :
    (splitFee (2 ^ 60) { defaultFeeParams with burnBPS := bpsMax }).burned = 0 ∧
      (storageRefund (2 ^ 60) defaultFeeParams).1.toNat * 800 < 2 ^ 60 ∧
      ¬ SplitsExactly (2 ^ 60) bpsMax 0 (2 ^ 60) := by
  refine ⟨by decide +kernel, by decide +kernel, fun h => ?_⟩
  exact absurd h.floor (by decide +kernel)

namespace Ledger

/-! ## Application -/

def applyReparent (st : Ledger) (op : DeclaredOp) : Ledger :=
  let objID := toHash op.objectID
  let parent := toHash op.target
  let version := st.tracker.getVersion objID
  let st := { st with tracker := st.tracker.setParent objID op.targetKind parent }
  match st.getObject objID with
  | none => st
  | some o => st.setObject (o.withOwner parent op.targetKind version)

def applyDelete (st : Ledger) (p : FeeParams) (gasCoinID : Option Hash) (op : DeclaredOp) :
    Ledger :=
  let objID := toHash op.objectID
  (st.settleDeletion p objID gasCoinID).1.deleteObject objID

def setDomainLeaf (st : Ledger) (name : Bytes) (leaf : DomainLeaf) : Ledger :=
  { st with domains := st.domains.insert name leaf }

/-- Rewrite a registered name's leaf; nothing happens when the name or the new leaf is
missing. -/
def rewriteDomainLeaf (st : Ledger) (name : Bytes) (change : DomainLeaf → Option DomainLeaf) :
    Ledger :=
  match (st.domains.lookup name).bind change with
  | none => st
  | some leaf => st.setDomainLeaf name leaf

def applyDomainRegister (st : Ledger) (sender : Hash) (epoch maxTerm : UInt64)
    (op : DeclaredOp) : Ledger :=
  match domainExpiry 0 epoch op.termEpochs maxTerm with
  | none => st
  | some expiry =>
    st.setDomainLeaf op.name { objectID := toHash op.objectID, owner := sender, expiry }

def applyDomainRenew (st : Ledger) (epoch maxTerm : UInt64) (op : DeclaredOp) : Ledger :=
  st.rewriteDomainLeaf op.name fun leaf =>
    (domainExpiry leaf.expiry epoch op.termEpochs maxTerm).map fun expiry => { leaf with expiry }

def applyDomainUpdate (st : Ledger) (op : DeclaredOp) : Ledger :=
  st.rewriteDomainLeaf op.name fun leaf => some { leaf with objectID := toHash op.objectID }

def applyDomainTransfer (st : Ledger) (op : DeclaredOp) : Ledger :=
  st.rewriteDomainLeaf op.name fun leaf => some { leaf with owner := toHash op.target }

def applyDomainDelete (st : Ledger) (op : DeclaredOp) : Ledger :=
  { st with domains := st.domains.erase op.name }

def applyDomainOp (st : Ledger) (sender : Hash) (epoch maxTerm : UInt64) (op : DeclaredOp) :
    Ledger :=
  if op.kind = domainRegisterOp then st.applyDomainRegister sender epoch maxTerm op
  else if op.kind = domainRenewOp then st.applyDomainRenew epoch maxTerm op
  else if op.kind = domainUpdateOp then st.applyDomainUpdate op
  else if op.kind = domainTransferOp then st.applyDomainTransfer op
  else if op.kind = domainDeleteOp then st.applyDomainDelete op
  else st

def applyDeclaredOp (p : FeeParams) (tx : Transaction) (sender : Hash) (epoch : UInt64)
    (st : Ledger) (op : DeclaredOp) : Ledger :=
  if op.kind = reparentOp then st.applyReparent op
  else if op.kind = deleteOp then st.applyDelete p tx.txGasCoinID op
  else st.applyDomainOp sender epoch p.maxTermEpochs op

/-- Validate the whole list against the staged view, then apply it in order. -/
def handleDeclaredOps (st : Ledger) (p : FeeParams) (tx : Transaction) (epoch : UInt64) :
    Option Ledger := do
  let sender ← hash32 tx.sender
  if sender = zeroHash ∨ tx.operations.isEmpty then none
  let view : StagedView :=
    { ot := st.tracker, ds := st.domains, epoch, maxTerm := p.maxTermEpochs }
  let _ ← tx.operations.foldlM (fun view op => view.validate sender op tx.mutableRefIDs) view
  return tx.operations.foldl (applyDeclaredOp p tx sender epoch) st

end Ledger

end BluePods
