import BluePods.Stake
import BluePods.Tracker

/-! The ledger a node commits into: object bodies, the tracker, the validator set with
its stakes, and the two supply counters. Coins are ordinary objects whose content starts
with a balance. -/

namespace BluePods
open Lib.Tally

/-! ## Validator set updates -/

namespace ValidatorSet

variable {g : ValidatorInfo → ValidatorInfo} {vs : ValidatorSet} {pubkey : Hash} {v : ValidatorInfo}

/-- Rewrite one validator's record. -/
def modify (vs : ValidatorSet) (pubkey : Hash) (g : ValidatorInfo → ValidatorInfo)
    (hg : ∀ v, (g v).pubkey = v.pubkey) : ValidatorSet where
  all := update (·.pubkey) vs.all pubkey g
  nodup := by rw [map_key_update hg]; exact vs.nodup

/-- A new validator is appended; a known one only gains an address or a BLS key it did not
have. -/
def add (vs : ValidatorSet) (pubkey : Hash) (quicAddr : Bytes) (blsPubkey : BLSKey) :
    ValidatorSet :=
  if h : pubkey ∈ vs.all.map (·.pubkey) then
    vs.modify pubkey (fun v =>
      { v with
        quicAddr := if v.quicAddr = [] ∧ quicAddr ≠ [] then quicAddr else v.quicAddr
        blsPubkey :=
          if v.blsPubkey = zeroBLSKey ∧ blsPubkey ≠ zeroBLSKey then blsPubkey else v.blsPubkey })
      (fun _ => rfl)
  else
    { all := vs.all ++ [{ pubkey, quicAddr, blsPubkey }]
      nodup := by
        rw [List.map_append, List.nodup_append]
        simpa using ⟨vs.nodup, fun a ha he => h (he ▸ List.mem_map_of_mem ha)⟩ }

theorem get_modify (vs : ValidatorSet) (pubkey : Hash) (hg : ∀ v, (g v).pubkey = v.pubkey) :
    (vs.modify pubkey g hg).get pubkey = (vs.get pubkey).map g :=
  find?_update_self hg

theorem modify_eq_self {hg : ∀ v, (g v).pubkey = v.pubkey} (h : vs.get pubkey = some v)
    (hv : g v = v) : vs.modify pubkey g hg = vs := by
  have hall : update (·.pubkey) vs.all pubkey g = vs.all := by
    refine update_eq_self fun w hw hkey => ?_
    have hvkey : v.pubkey = pubkey := by simpa using List.find?_some h
    have hsame : w = v :=
      List.inj_on_of_nodup_map vs.nodup hw (List.mem_of_find?_eq_some h) (hkey.trans hvkey.symm)
    rw [hsame, hv]
  cases vs
  simp only [modify, hall]

def setSelfStake (vs : ValidatorSet) (pubkey : Hash) (stake : UInt64) : ValidatorSet :=
  vs.modify pubkey (fun v => { v with selfStake := stake }) fun _ => rfl

def setRewardCoin (vs : ValidatorSet) (pubkey coin : Hash) : ValidatorSet :=
  vs.modify pubkey (fun v => { v with rewardCoin := coin }) fun _ => rfl

/-- Wraps, as in the source. -/
def addDelegated (vs : ValidatorSet) (pubkey : Hash) (amount : UInt64) : ValidatorSet :=
  vs.modify pubkey (fun v => { v with delegatedTotal := v.delegatedTotal + amount })
    fun _ => rfl

/-- Floors at zero. -/
def subDelegated (vs : ValidatorSet) (pubkey : Hash) (amount : UInt64) : ValidatorSet :=
  vs.modify pubkey (fun v => { v with delegatedTotal := floorSub v.delegatedTotal amount })
    fun _ => rfl

/-- The stake bonded with the set, own and delegated. -/
def bonded (vs : ValidatorSet) : Nat :=
  (vs.all.map fun v => v.selfStake.toNat + v.delegatedTotal.toNat).sum

theorem bonded_modify {hg : ∀ v, (g v).pubkey = v.pubkey} (h : vs.get pubkey = some v) :
    (vs.modify pubkey g hg).bonded + (v.selfStake.toNat + v.delegatedTotal.toNat) =
      vs.bonded + ((g v).selfStake.toNat + (g v).delegatedTotal.toNat) :=
  sum_update vs.nodup h

theorem bonded_modify_of_eq {hg : ∀ v, (g v).pubkey = v.pubkey}
    (h : ∀ v, (g v).selfStake = v.selfStake ∧ (g v).delegatedTotal = v.delegatedTotal) :
    (vs.modify pubkey g hg).bonded = vs.bonded := by
  simp only [bonded, modify, update, List.map_map]
  congr 1
  refine List.map_congr_left fun v _ => ?_
  by_cases hv : v.pubkey = pubkey <;> simp [hv, h]

theorem bonded_add (vs : ValidatorSet) (pubkey : Hash) (quicAddr : Bytes)
    (blsPubkey : BLSKey) : (vs.add pubkey quicAddr blsPubkey).bonded = vs.bonded := by
  unfold add
  split
  · exact bonded_modify_of_eq fun _ => ⟨rfl, rfl⟩
  · simp [bonded]

theorem bonded_setRewardCoin (vs : ValidatorSet) (pubkey coin : Hash) :
    (vs.setRewardCoin pubkey coin).bonded = vs.bonded :=
  bonded_modify_of_eq fun _ => ⟨rfl, rfl⟩

theorem le_bonded (h : vs.get pubkey = some v) :
    v.selfStake.toNat + v.delegatedTotal.toNat ≤ vs.bonded :=
  List.le_sum_of_mem (List.mem_map_of_mem (List.mem_of_find?_eq_some h))

end ValidatorSet

/-! ## Coins -/

namespace Object

/-- The balance of a coin: the first eight content bytes. -/
def balance (o : Object) : Option UInt64 :=
  if o.content.length < 8 then none else some (uint64LE o.content)

/-- Rebuild a coin with a new balance. The version stays, and the parent kind is not
carried over. -/
def withBalance (o : Object) (b : UInt64) : Object :=
  { id := o.id, version := o.version, owner := o.owner, replication := o.replication,
    content := putUint64LE b ++ o.content.drop 8, fees := o.fees }

/-- Rebuild a body under a new parent and the tracker's version. -/
def withOwner (o : Object) (owner : Hash) (kind : Byte) (version : UInt64) : Object :=
  { o with owner := owner.val, parentKind := kind, version }

end Object

@[simp] theorem length_putUint64LE (n : UInt64) : (putUint64LE n).length = 8 := by
  simp [putUint64LE]

theorem uint64LE_putUint64LE (n : UInt64) (rest : Bytes) :
    uint64LE (putUint64LE n ++ rest) = n := by
  have hn := n.toNat_lt
  have htake : (putUint64LE n ++ rest).take 8 = putUint64LE n :=
    List.take_left' (length_putUint64LE n)
  rw [uint64LE, htake, ← UInt64.toNat_inj, UInt64.toNat_ofNat']
  simp only [putUint64LE, byteOf, List.range, List.range.loop, List.map_cons, List.map_nil,
    List.foldr_cons, List.foldr_nil, Fin.val_ofNat]
  omega

@[simp] theorem Object.balance_withBalance (o : Object) (b : UInt64) :
    (o.withBalance b).balance = some b := by
  simp [balance, withBalance, uint64LE_putUint64LE]

@[simp] theorem Object.objectID_withBalance (o : Object) (b : UInt64) :
    (o.withBalance b).objectID = o.objectID := rfl

@[simp] theorem Object.owner_withBalance (o : Object) (b : UInt64) :
    (o.withBalance b).owner = o.owner := rfl

@[simp] theorem Object.objectID_withOwner (o : Object) (owner : Hash) (kind : Byte)
    (version : UInt64) : (o.withOwner owner kind version).objectID = o.objectID := rfl

/-! ## The ledger -/

/-- Object bodies, each under its own identifier. -/
structure ObjectStore where
  bodies : AList fun _ : Hash => Object
  keyed : ∀ id o, bodies.lookup id = some o → o.objectID = id

namespace ObjectStore

def empty : ObjectStore where
  bodies := ∅
  keyed id o h := by simp at h

def get (s : ObjectStore) (id : Hash) : Option Object := s.bodies.lookup id

def set (s : ObjectStore) (o : Object) : ObjectStore where
  bodies := s.bodies.insert o.objectID o
  keyed id o' h := by
    by_cases hid : id = o.objectID
    · subst hid
      rw [AList.lookup_insert] at h
      rw [← Option.some.inj h]
    · rw [AList.lookup_insert_ne hid] at h
      exact s.keyed id o' h

def delete (s : ObjectStore) (id : Hash) : ObjectStore where
  bodies := s.bodies.erase id
  keyed id' o h := by
    by_cases hid : id' = id
    · subst hid
      simp [AList.lookup_erase] at h
    · rw [AList.lookup_erase_ne hid] at h
      exact s.keyed id' o h

theorem objectID_of_get {s : ObjectStore} {id : Hash} {o : Object} (h : s.get id = some o) :
    o.objectID = id :=
  s.keyed id o h

theorem get_set (s : ObjectStore) (o : Object) (id : Hash) :
    (s.set o).get id = if id = o.objectID then some o else s.get id := by
  by_cases h : id = o.objectID
  · subst h
    simp [get, set, AList.lookup_insert]
  · simp [get, set, AList.lookup_insert_ne h, h]

theorem get_delete (s : ObjectStore) (id id' : Hash) :
    (s.delete id).get id' = if id' = id then none else s.get id' := by
  by_cases h : id' = id
  · subst h
    simp [get, delete, AList.lookup_erase]
  · simp [get, delete, AList.lookup_erase_ne h, h]

end ObjectStore

/-- What a domain name resolves to, who holds it, and its last epoch. -/
structure DomainLeaf where
  objectID : Hash
  owner : Hash
  expiry : UInt64
  deriving DecidableEq

structure Ledger where
  objects : ObjectStore := .empty
  tracker : Tracker := ∅
  committedTxs : List Hash := []
  validators : ValidatorSet
  totalSupply : UInt64 := 0
  coinsTotal : UInt64 := 0
  domains : AList fun _ : Bytes => DomainLeaf := ∅
  committedMembers : List Hash := []
  epochAdditions : List Hash := []
  pendingRemovals : List Hash := []

namespace Ledger

def getObject (st : Ledger) (id : Hash) : Option Object := st.objects.get id

def setObject (st : Ledger) (o : Object) : Ledger := { st with objects := st.objects.set o }

def deleteObject (st : Ledger) (id : Hash) : Ledger :=
  { st with objects := st.objects.delete id }

def setTotalSupply (st : Ledger) (supply : UInt64) : Ledger := { st with totalSupply := supply }

def setCoinsTotal (st : Ledger) (total : UInt64) : Ledger := { st with coinsTotal := total }

/-- Floors at zero. -/
def subSupply (st : Ledger) (amount : UInt64) : Ledger :=
  st.setTotalSupply (floorSub st.totalSupply amount)

/-- Saturates. -/
def addCoins (st : Ledger) (amount : UInt64) : Ledger :=
  st.setCoinsTotal (satAdd st.coinsTotal amount)

/-- Floors at zero. -/
def subCoins (st : Ledger) (amount : UInt64) : Ledger :=
  st.setCoinsTotal (floorSub st.coinsTotal amount)

/-! ### What an update leaves alone -/

section Frame

variable (st : Ledger) (o : Object) (id : Hash) (amount : UInt64)

@[simp] theorem setObject_tracker : (st.setObject o).tracker = st.tracker := rfl
@[simp] theorem setObject_validators : (st.setObject o).validators = st.validators := rfl
@[simp] theorem setObject_totalSupply : (st.setObject o).totalSupply = st.totalSupply := rfl
@[simp] theorem setObject_coinsTotal : (st.setObject o).coinsTotal = st.coinsTotal := rfl

@[simp] theorem deleteObject_validators : (st.deleteObject id).validators = st.validators := rfl
@[simp] theorem deleteObject_totalSupply : (st.deleteObject id).totalSupply = st.totalSupply := rfl

@[simp] theorem setTotalSupply_objects : (st.setTotalSupply amount).objects = st.objects := rfl
@[simp] theorem setTotalSupply_tracker : (st.setTotalSupply amount).tracker = st.tracker := rfl
@[simp] theorem setTotalSupply_validators : (st.setTotalSupply amount).validators = st.validators :=
  rfl
@[simp] theorem setTotalSupply_coinsTotal : (st.setTotalSupply amount).coinsTotal = st.coinsTotal :=
  rfl

@[simp] theorem setCoinsTotal_objects : (st.setCoinsTotal amount).objects = st.objects := rfl
@[simp] theorem setCoinsTotal_tracker : (st.setCoinsTotal amount).tracker = st.tracker := rfl
@[simp] theorem setCoinsTotal_validators : (st.setCoinsTotal amount).validators = st.validators :=
  rfl
@[simp] theorem setCoinsTotal_totalSupply :
    (st.setCoinsTotal amount).totalSupply = st.totalSupply :=
  rfl

@[simp] theorem subSupply_objects : (st.subSupply amount).objects = st.objects :=
  setTotalSupply_objects ..
@[simp] theorem subSupply_tracker : (st.subSupply amount).tracker = st.tracker :=
  setTotalSupply_tracker ..
@[simp] theorem subSupply_validators : (st.subSupply amount).validators = st.validators :=
  setTotalSupply_validators ..
@[simp] theorem subSupply_coinsTotal : (st.subSupply amount).coinsTotal = st.coinsTotal :=
  setTotalSupply_coinsTotal ..

@[simp] theorem addCoins_objects : (st.addCoins amount).objects = st.objects :=
  setCoinsTotal_objects ..
@[simp] theorem addCoins_tracker : (st.addCoins amount).tracker = st.tracker :=
  setCoinsTotal_tracker ..
@[simp] theorem addCoins_validators : (st.addCoins amount).validators = st.validators :=
  setCoinsTotal_validators ..
@[simp] theorem addCoins_totalSupply : (st.addCoins amount).totalSupply = st.totalSupply :=
  setCoinsTotal_totalSupply ..

@[simp] theorem subCoins_objects : (st.subCoins amount).objects = st.objects :=
  setCoinsTotal_objects ..
@[simp] theorem subCoins_tracker : (st.subCoins amount).tracker = st.tracker :=
  setCoinsTotal_tracker ..
@[simp] theorem subCoins_validators : (st.subCoins amount).validators = st.validators :=
  setCoinsTotal_validators ..
@[simp] theorem subCoins_totalSupply : (st.subCoins amount).totalSupply = st.totalSupply :=
  setCoinsTotal_totalSupply ..

end Frame

inductive CoinError
  | notFound
  | contentTooShort
  | overflow
  deriving DecidableEq

/-- Take a fee out of a coin: the amount taken, and whether it covers the fee. A coin
that does not cover it is drained. -/
def deductCoinFee (st : Ledger) (coinID : Hash) (fee : UInt64) :
    Except CoinError (Ledger × UInt64 × Bool) :=
  match st.getObject coinID with
  | none => .error .notFound
  | some o =>
    match o.balance with
    | none => .error .contentTooShort
    | some balance =>
      if balance ≥ fee then
        .ok ((st.setObject (o.withBalance (balance - fee))).subCoins fee, fee, true)
      else .ok ((st.setObject (o.withBalance 0)).subCoins balance, balance, false)

/-- Add to a coin's balance. A zero credit does not look at the coin. -/
def creditCoin (st : Ledger) (coinID : Hash) (amount : UInt64) : Except CoinError Ledger :=
  if amount = 0 then .ok st
  else
    match st.getObject coinID with
    | none => .error .notFound
    | some o =>
      match o.balance with
      | none => .error .contentTooShort
      | some balance =>
        if balance + amount < balance then .error .overflow
        else .ok ((st.setObject (o.withBalance (balance + amount))).addCoins amount)

/-- Take an amount out of a singleton that covers it, with no look at its owner. -/
def strictDebit (st : Ledger) (coinID : Hash) (amount : UInt64) : Option Ledger :=
  match st.getObject coinID with
  | none => none
  | some o =>
    if o.replication ≠ 0 then none
    else
      match o.balance with
      | none => none
      | some balance =>
        if balance < amount then none
        else some ((st.setObject (o.withBalance (balance - amount))).subCoins amount)

end Ledger

end BluePods
