import BluePods.Conservation
import BluePods.Crossing
import BluePods.Lockstep
import BluePods.Log
import BluePods.Restart

/-! Bodies and entries along whole logs. A log keeps them in step from genesis on, if every
transaction it admits and every boundary it crosses does. -/

namespace BluePods

namespace Ledger

/-! ## Boundaries -/

/-- A body of the layout of a position is stored where one with a live validator goes. -/
def StoredPosition (cr : Crypto) (st : Ledger) (id : Hash) : Prop :=
  (∃ v ∈ st.validators.all, ∃ delegator, id = delegationID cr delegator v.pubkey) ∧
    ∃ o, st.getObject id = some o ∧ o.content.length = 40

/-- What a boundary needs for the bodies to stay in step: the reward coins hang from keys,
and the stored positions are not tracked. -/
structure BoundaryInStep (st : Ledger) (cr : Crypto) : Prop where
  coins : ∀ v ∈ st.validators.all, ∀ o, st.getObject v.rewardCoin = some o →
    o.parentKind = keyRootKind
  positions : ∀ id, st.StoredPosition cr id → st.tracker.lookup id = none

/-- Bodies under keys of which none has the layout of a position. -/
theorem BoundaryInStep.of_bodies {st : Ledger} (cr : Crypto)
    (h : ∀ e ∈ st.objects.bodies.entries, e.2.parentKind = keyRootKind ∧ e.2.content.length ≠ 40) :
    st.BoundaryInStep cr where
  coins v _ o ho := (h ⟨v.rewardCoin, o⟩ (AList.mem_lookup_iff.1 ho)).1
  positions := by
    rintro id ⟨-, o, ho, hlen⟩
    exact absurd hlen (h ⟨id, o⟩ (AList.mem_lookup_iff.1 ho)).2

/-- The ledger on its way over a boundary that was met with `st`. -/
structure OnTheWay (cr : Crypto) (st st' : Ledger) : Prop where
  recedes : Recedes (st.StoredPosition cr) st st'
  sized : ∀ id o, st'.getObject id = some o → o.content.length = 40 →
    ∃ o₀, st.getObject id = some o₀ ∧ o₀.content.length = 40

section

variable {cr : Crypto} {st st' st'' : Ledger}

theorem OnTheWay.payment (h : OnTheWay cr st st') (hstep : st.BoundaryInStep cr)
    (hpay : Payment cr st.validators.all st' st'') : OnTheWay cr st st'' := by
  cases hpay with
  | @compound _ v delegator reward hv hc =>
    obtain ⟨-, current, hread, rfl⟩ := compoundDelegation_some hc
    obtain ⟨o, ho, hlen, -⟩ := readDelegationAmount_some hread
    have hslot : st.StoredPosition cr (delegationID cr delegator v.pubkey) :=
      ⟨⟨v, hv, delegator, rfl⟩, h.sized _ o ho hlen⟩
    refine ⟨(h.recedes.trans (.setPosition _ hslot)).trans (.of_eq rfl rfl), ?_⟩
    intro id o' ho' hlen'
    by_cases hid : id = delegationID cr delegator v.pubkey
    · rw [hid]
      exact hslot.2
    · refine h.sized id o' ?_ hlen'
      have hset := getObject_setObject st'
        (buildDelegationObject cr delegator v.pubkey (safeAdd current reward)) id
      rw [objectID_buildDelegationObject, if_neg hid] at hset
      exact hset.symm.trans ho'
  | restake hv stake => exact ⟨h.recedes.trans (.of_eq rfl rfl), h.sized⟩
  | @credit _ v amount hv hc =>
    have hroot : st.KeyRooted v.rewardCoin := by
      intro s hs
      obtain ⟨o, ho, rfl⟩ := Option.map_eq_some_iff.1 hs
      exact hstep.coins v hv o ho
    refine ⟨h.recedes.trans (.creditCoin hc (h.recedes.keyRooted hroot)), ?_⟩
    rcases creditCoin_ok hc with ⟨-, rfl⟩ | ⟨o, balance, ho, hbalance, -, rfl⟩
    · exact h.sized
    · intro id o' ho' hlen
      rw [getObject, addCoins_objects] at ho'
      have hset := getObject_setBalance ho (balance + amount) id
      rw [getObject, ho'] at hset
      split at hset
      · rename_i hid
        obtain rfl := Option.some.inj hset
        rw [(content_withBalance hbalance _).1] at hlen
        exact h.sized id o (hid ▸ ho) hlen
      · exact h.sized id o' hset.symm hlen
  | remove hbonded | mint => exact ⟨h.recedes.trans (.of_eq rfl rfl), h.sized⟩

theorem OnTheWay.payments (hstep : st.BoundaryInStep cr)
    (hrun : Payments cr st.validators.all st st') : OnTheWay cr st st' := by
  induction hrun with
  | refl => exact ⟨.refl st, fun id o ho hlen => ⟨o, ho, hlen⟩⟩
  | tail _ hpay ih => exact ih.payment hstep hpay

end

end Ledger

namespace Chain

variable {cfg : Config}

theorem lockstep_transitionEpoch {c : Chain} (h : c.ledger.Lockstep)
    (hstep : c.ledger.BoundaryInStep cfg.crypto) : (c.transitionEpoch cfg).ledger.Lockstep := by
  rw [Ledger.lockstep_iff] at h ⊢
  intro id
  have hpaid := Ledger.OnTheWay.payments hstep (transitionEpoch_payments cfg c)
  -- The sweep changes names alone.
  have hclosed : Ledger.Recedes (c.ledger.StoredPosition cfg.crypto) c.ledger
      (c.transitionEpoch cfg).ledger := by
    rw [transitionEpoch_ledger]
    exact hpaid.recedes.trans (.of_eq rfl rfl)
  refine hclosed.inStepAt ?_ (h id)
  exact fun hslot => Ledger.stampOf_eq_none.2 (hstep.positions id hslot)

/-! ## Starts -/

/-- The genesis coin is the founder's. -/
def FoundersCoin (cfg : Config) : Prop :=
  ∀ seed, cfg.founder = some seed → seed.coin.owner = seed.pubkey.val

theorem lockstep_seedGenesisLedger {st : Ledger} (h : st.Lockstep) {seed : GenesisSeed}
    (howner : seed.coin.owner = seed.pubkey.val) : (st.seedGenesisLedger seed).Lockstep := by
  rw [Ledger.lockstep_iff] at h ⊢
  have hval : seed.coin.objectOwner.val = seed.coin.owner := by
    rw [Object.objectOwner, howner, hashOrZero_val]
  intro id s t hs ht
  unfold Ledger.seedGenesisLedger at hs ht
  rw [Tracker.stampOf_trackObject, hval] at ht
  have hbody : (st.setObject seed.coin).bodyStamp id =
      if id = seed.coinID then some seed.coin.stamp else st.bodyStamp id :=
    Ledger.bodyStamp_setObject ..
  by_cases hid : id = seed.coinID
  · rw [if_pos hid] at ht
    rw [if_pos hid] at hbody
    rw [← Option.some.inj ht, ← Option.some.inj (hbody.symm.trans hs)]
    rfl
  · rw [if_neg hid] at ht
    rw [if_neg hid] at hbody
    exact h id s t (hbody.symm.trans hs) ht

theorem lockstep_start (hcoin : FoundersCoin cfg) {d : Disk} (h : (d.load cfg).ledger.Lockstep) :
    (d.start cfg).ledger.Lockstep := by
  obtain ⟨_, _, heq | ⟨seed, hseed, -, heq⟩⟩ := start_ledger cfg d
  · rw [heq]
    exact h
  · rw [heq]
    exact lockstep_seedGenesisLedger h (hcoin seed hseed)

/-! ## Logs -/

end Chain

/-- The transaction of the call, if it is admitted, keeps the bodies in step. -/
def Call.KeepsPace (cfg : Config) (call : Call) : Prop :=
  ∀ tx, call.chain.ledger.Admits (call.chain.txNode cfg call.atx) call.atx call.commitRound.toNat
      call.verdict tx →
    call.chain.ledger.KeepsPace (call.chain.txNode cfg call.atx) call.atx call.commitRound.toNat
      call.verdict tx

namespace Chain

variable {cfg : Config}

/-- From genesis on every stored and tracked body has the version, the owner and the parent
kind of its entry: in front of every transaction of a log, behind it and at the end, if
every admitted transaction and every boundary of the log keeps them in step. -/
theorem bodies_in_lockstep (hcoin : FoundersCoin cfg) (turns : List Turn)
    (hcalls : ∀ call ∈ (({} : Disk).start cfg).logCalls cfg turns, call.KeepsPace cfg)
    (hbounds : ∀ b ∈ (({} : Disk).start cfg).logBoundaries cfg turns,
      b.ledger.BoundaryInStep cfg.crypto) :
    (∀ call ∈ (({} : Disk).start cfg).logCalls cfg turns,
        call.chain.ledger.Lockstep ∧ (call.result cfg).1.ledger.Lockstep) ∧
      (turns.foldl (turn cfg) (({} : Disk).start cfg)).ledger.Lockstep := by
  have hstart : (({} : Disk).start cfg).ledger.Lockstep := by
    refine lockstep_start hcoin ?_
    intro id o e ho
    cases ho
  have hcall : ∀ call ∈ (({} : Disk).start cfg).logCalls cfg turns, call.chain.ledger.Lockstep →
      (call.result cfg).1.ledger.Lockstep := by
    intro call hmem h
    rw [Call.result, executeTx_ledger]
    exact Ledger.lockstep_executeTx h (hcalls call hmem)
  obtain ⟨hfound, hend⟩ := log_rule hstart hcall
    (fun b hb h => lockstep_transitionEpoch h (hbounds b hb)) (fun _ _ _ _ h => h)
    (fun c h => lockstep_start hcoin h)
  exact ⟨fun call hmem => ⟨hfound call hmem, hcall call hmem (hfound call hmem)⟩, hend⟩

end Chain

/-! ## A log in step and one out of step -/

/-- A vertex of the founder with one transaction. -/
def founderVertex (atx : AttestedTransaction) : BatchVertex where
  hash := idOf 90
  round := 0
  producer := idOf 1
  transactions := [atx]

/-- The founder calls a pod on its own coin, and the next round closes the epoch. -/
def ownCoinTurns : List Chain.Turn := [.decide [founderVertex ownCoinTx], .decide []]

/-- The call of that log. -/
def ownCoinCall : Call :=
  let c := ({} : Disk).start foundedConfig
  let verdicts := verifyRoundProofs (c.node foundedConfig) c.lastCommitted.toNat [ownCoinTx]
  { chain := Chain.creditVertex foundedConfig { chain := c, verdicts } (founderVertex ownCoinTx)
    atx := ownCoinTx
    commitRound := c.lastCommitted
    verdict := (verdicts.proofVerdict ownCoinTx).1 }

theorem ownCoinCall_keepsPace : ownCoinCall.KeepsPace foundedConfig := by
  intro tx hadmits
  obtain rfl := Option.some.inj hadmits.transaction
  have hrefs : (creatingBody (idOf 11) []).mutableRefIDs = [idOf 11] := by decide +kernel
  have htracked : (ownCoinCall.chain.ledger.tracker.lookup (idOf 11)).map (·.parentKind) =
      some keyRootKind := by decide +kernel
  refine ⟨?_, fun hops => absurd rfl hops, fun _ => ⟨?_, ?_, ?_, ?_⟩⟩
  · intro coin o hcoin ho
    obtain rfl : idOf 11 = coin :=
      Option.some.inj (Eq.trans (by decide +kernel) hcoin)
    have hkind : (ownCoinCall.chain.ledger.getObject (idOf 11)).all
        (·.parentKind = keyRootKind) = true := by decide +kernel
    rw [ho] at hkind
    simpa using hkind
  · intro id hid _
    rw [hrefs] at hid ⊢
    obtain rfl := List.mem_singleton.1 hid
    obtain ⟨e, he, hkind⟩ := Option.map_eq_some_iff.1 htracked
    exact ⟨by decide +kernel, e, he, hkind⟩
  · intro _
    have hother : ((ownCoinCall.chain.txNode foundedConfig ownCoinCall.atx).isSystemFunc
        (creatingBody (idOf 11) []) registerValidatorFunc) = false := by decide +kernel
    exact {
      pays := Ledger.proceed_iff.1 (by decide +kernel)
      clears := {
        owned := by decide +kernel
        registers := ⟨_, by rw [Ledger.handleRegisterValidator, hother]; rfl⟩
        childless := by decide +kernel }
      runs := by decide +kernel
      output := .inr ⟨{}, rfl, rfl, by decide +kernel⟩ }
  · rintro id ⟨delegator, coin, validator, amount, hparse, -⟩
    have hnone : parseDelegateTx (ownCoinCall.chain.txNode foundedConfig ownCoinCall.atx)
      (creatingBody (idOf 11) []) delegateFunc true = none := by decide +kernel
    rw [hnone] at hparse
    cases hparse
  · intro st₁ split withheld out st₂ _ hpod _
    obtain rfl : {} = out := Option.some.inj (Except.ok.inj hpod)
    exact ⟨by simp, by simp, by simp, by simp⟩

namespace Chain

theorem bodies_in_lockstep_ownCoin :
    let c := ownCoinTurns.foldl (turn foundedConfig) (({} : Disk).start foundedConfig)
    (c.ledger.getObject (idOf 11)).map (·.version) = some 1 ∧ c.ledger.Lockstep := by
  refine ⟨by decide +kernel, (bodies_in_lockstep ?_ ownCoinTurns ?_ ?_).2⟩
  · intro seed hseed
    obtain rfl := Option.some.inj hseed
    rfl
  · intro call hcall
    obtain rfl : call = ownCoinCall := List.mem_singleton.1 hcall
    exact ownCoinCall_keepsPace
  · intro b hb
    have hopen : foundedConfig.isEpochBoundary (({} : Disk).start foundedConfig).lastCommitted =
        false := by decide +kernel
    simp only [ownCoinTurns, logBoundaries, turnBoundaries, hopen, Bool.false_eq_true, if_false,
      List.nil_append, List.append_nil] at hb
    split at hb
    · obtain rfl := List.mem_singleton.1 hb
      exact .of_bodies _ (by decide +kernel)
    · cases hb

end Chain

/-- The founder references its coin, but pays with one that is not stored. -/
def unpaidTx : AttestedTransaction where
  transaction := some (signedTx
    { sender := (idOf 1).val
      pod := (idOf 7).val
      functionName := ascii "create"
      gasCoin := (idOf 9).val
      maxGas := 100
      mutableRefs := [{ id := (idOf 11).val }] })

/-- The transaction is rejected at the fee, behind the version check: the entry of the coin
has moved on and its body has not. -/
theorem rejected_tx_leaves_body_behind :
    let c := (({} : Disk).start foundedConfig).decideRound foundedConfig [founderVertex unpaidTx]
    (c.ledger.getObject (idOf 11)).map (·.version) = some 0 ∧
      (c.ledger.tracker.lookup (idOf 11)).map (·.version) = some 1 ∧ ¬ c.ledger.Lockstep := by
  intro c
  have hbody : (c.ledger.getObject (idOf 11)).map (·.version) = some 0 := by decide +kernel
  have hentry : (c.ledger.tracker.lookup (idOf 11)).map (·.version) = some 1 := by decide +kernel
  refine ⟨hbody, hentry, fun h => ?_⟩
  obtain ⟨o, ho, hversion⟩ := Option.map_eq_some_iff.1 hbody
  obtain ⟨e, he, hversion'⟩ := Option.map_eq_some_iff.1 hentry
  have heq := (h (idOf 11) o e ho he).1
  rw [hversion, hversion'] at heq
  exact absurd heq (by decide)

end BluePods
