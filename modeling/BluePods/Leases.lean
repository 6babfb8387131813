import BluePods.Control
import BluePods.Settlement

/-! The domain registry over its whole life. Names enter by registration alone, so what a
registration checks holds of every registered name; the reserved root is kept out of
namespaces by the rule that a namespace is owned before a name enters it. -/

namespace BluePods

variable {name : Bytes} {epoch : UInt64}

/-! ## Labels -/

/-- The labels of a name. -/
def domainLabels (name : Bytes) : List Bytes := name.splitOn dot

/-- A letter, a digit or a hyphen. -/
def domainChar (c : Byte) : Bool := (97 ≤ c && c ≤ 122) || (48 ≤ c && c ≤ 57) || c = 45

/-- A name of the registry: non-empty labels over the alphabet, the first and the last
other than the reserved root. -/
structure WellFormedName (name : Bytes) : Prop where
  labels : ∀ label ∈ domainLabels name, label ≠ [] ∧ ∀ c ∈ label, domainChar c = true
  first : (domainLabels name).head? ≠ some reservedDomainRoot
  last : (domainLabels name).getLast? ≠ some reservedDomainRoot

theorem domainLabels_of_parent {parent : Bytes} (h : parentDomainName name = some parent) :
    ∃ first, domainLabels name = first :: domainLabels parent := by
  have hname : name.takeWhile (· ≠ dot) ++ name.dropWhile (· ≠ dot) = name :=
    List.takeWhile_append_dropWhile
  have hfirst : ∀ b ∈ name.takeWhile (· ≠ dot), (b == dot) = false := by
    intro b hb
    simpa using List.mem_takeWhile_imp hb
  unfold parentDomainName at h
  split at h
  · cases h
  · rename_i c rest hdrop
    obtain rfl := Option.some.inj h
    have hdot : (fun x : Byte => x == dot) c = true := by
      have hhead := List.head_dropWhile_not (fun b => decide (b ≠ dot))
        (show name.dropWhile (· ≠ dot) ≠ [] by rw [hdrop]; simp)
      simp only [hdrop, List.head_cons, decide_eq_false_iff_not, not_not] at hhead
      rw [hhead]
      exact beq_self_eq_true dot
    refine ⟨name.takeWhile (· ≠ dot), ?_⟩
    rw [hdrop] at hname
    conv_lhs => rw [← hname]
    calc domainLabels (name.takeWhile (· ≠ dot) ++ c :: rest)
        = domainLabels (name.takeWhile (· ≠ dot)) ++ domainLabels rest :=
          List.splitOnP_append_cons _ _ hdot
      _ = [name.takeWhile (· ≠ dot)] ++ domainLabels rest :=
          congrArg (· ++ domainLabels rest) (List.splitOnP_eq_singleton hfirst)

theorem domainLabels_of_root (h : parentDomainName name = none) : domainLabels name = [name] := by
  unfold parentDomainName at h
  split at h
  · rename_i hdrop
    apply List.splitOnP_eq_singleton
    intro b hb
    simpa using List.dropWhile_eq_nil_iff.1 hdrop b hb
  · cases h

theorem getLast?_domainLabels_of_parent {parent : Bytes} (h : parentDomainName name = some parent) :
    (domainLabels name).getLast? = (domainLabels parent).getLast? := by
  obtain ⟨first, hlabels⟩ := domainLabels_of_parent h
  obtain ⟨label, rest, hparent⟩ :=
    List.exists_cons_of_ne_nil (show domainLabels parent ≠ [] from List.splitOnP_ne_nil _ _)
  rw [hlabels, hparent, List.getLast?_cons_cons]

/-- The name check covers the alphabet and the first label. -/
theorem labels_of_validDomainName (h : validDomainName name = true) :
    (∀ label ∈ domainLabels name, label ≠ [] ∧ ∀ c ∈ label, domainChar c = true) ∧
      (domainLabels name).head? ≠ some reservedDomainRoot := by
  unfold validDomainName at h
  split_ifs at h with hlength hreserved
  rw [not_or] at hreserved
  refine ⟨?_, ?_⟩
  · intro label hlabel
    have hvalid := List.all_eq_true.1 h label hlabel
    rw [validDomainLabel, Bool.and_eq_true, List.all_eq_true] at hvalid
    exact ⟨by simpa using hvalid.1, hvalid.2⟩
  · -- a name with that first label is the root itself or starts with it and a dot
    intro hhead
    have hname : [dot].intercalate (domainLabels name) = name := List.intercalate_splitOn dot
    cases hlabels : domainLabels name with
    | nil => simp [hlabels] at hhead
    | cons first rest =>
      rw [hlabels] at hhead hname
      obtain rfl : first = reservedDomainRoot := Option.some.inj hhead
      cases rest with
      | nil => exact hreserved.1 (by simpa [List.intercalate] using hname.symm)
      | cons second rest =>
        refine hreserved.2 (List.isPrefixOf_iff_prefix.2 ⟨[dot].intercalate (second :: rest), ?_⟩)
        rw [← hname]
        simp [List.intercalate]

/-! ## Leases -/

/-- A leased name: well formed, with an owner, and with an expiry no later than the cap
counted from the epoch of its last registration or renewal. -/
structure LeasedName (maxTerm leasedAt : UInt64) (name : Bytes) (leaf : DomainLeaf) : Prop where
  wellFormed : WellFormedName name
  owner : leaf.owner ≠ zeroHash
  lease : leaf.expiry.toNat ≤ leasedAt.toNat + maxTerm.toNat

theorem domainExpiry_le {current maxTerm expiry : UInt64} {term : UInt32}
    (h : domainExpiry current epoch term maxTerm = some expiry) :
    expiry.toNat ≤ epoch.toNat + maxTerm.toNat := by
  unfold domainExpiry at h
  split at h
  · cases h
  · dsimp only at h
    generalize safeAdd (if epoch > current then epoch else current) term.toUInt64 = run at h
    by_cases hcap : run > safeAdd epoch maxTerm
    · rw [if_pos hcap] at h
      cases h
    · rw [if_neg hcap] at h
      have hsum := toNat_safeAdd epoch maxTerm
      rw [gt_iff_lt, UInt64.lt_iff_toNat_lt] at hcap
      rw [← Option.some.inj h]
      omega

/-- The epochs of the last lease of every name, once a list of operations is applied. -/
def leasedBy (ops : List DeclaredOp) (epoch : UInt64) (leasedAt : Bytes → UInt64) (name : Bytes) :
    UInt64 :=
  if ops.any fun op => (op.kind = domainRegisterOp ∨ op.kind = domainRenewOp) ∧ op.name = name then
    epoch
  else leasedAt name

theorem leasedBy_cons (op : DeclaredOp) (ops : List DeclaredOp) (epoch : UInt64)
    (leasedAt : Bytes → UInt64) :
    leasedBy (op :: ops) epoch leasedAt = leasedBy ops epoch (leasedBy [op] epoch leasedAt) := by
  funext name
  by_cases hop : (op.kind = domainRegisterOp ∨ op.kind = domainRenewOp) ∧ op.name = name
  · simp [leasedBy, hop]
  · simp only [leasedBy, List.any_cons, hop, decide_false, Bool.false_or, List.any_nil,
      Bool.false_eq_true, if_false]

namespace StagedView

variable {s s' : StagedView} {sender : Hash} {refs : List Hash} {op : DeclaredOp}
  {leasedAt : Bytes → UInt64}

/-- What a registration is checked for before the rules on the object and the term. -/
theorem name_of_validate_register (h : s.validate sender op refs = some s')
    (hkind : op.kind = domainRegisterOp) :
    validDomainName op.name = true ∧ s.ownsDomainNamespace sender op.name = true := by
  have hother : op.kind ≠ reparentOp ∧ op.kind ≠ deleteOp := by
    rw [hkind]
    decide
  unfold validate at h
  split_ifs at h with hlast
  · exact absurd ‹op.kind = reparentOp› hother.1
  · exact absurd ‹op.kind = deleteOp› hother.2
  · rw [validateDomainOp, if_pos hkind] at h
    simp [validateDomainRegister, Option.bind_eq_some_iff, -Subtype.exists] at h
    exact ⟨h.1, h.2.2.1⟩

theorem owner_of_validate_transfer (h : s.validate sender op refs = some s')
    (hkind : op.kind = domainTransferOp) {owner : Hash} (howner : hash32 op.target = some owner) :
    owner ≠ zeroHash := by
  have hother : op.kind ≠ reparentOp ∧ op.kind ≠ deleteOp ∧ op.kind ≠ domainRegisterOp ∧
      op.kind ≠ domainRenewOp ∧ op.kind ≠ domainUpdateOp := by
    rw [hkind]
    decide
  unfold validate at h
  rw [if_neg hother.1, if_neg hother.2.1] at h
  split_ifs at h with hlast
  rw [validateDomainOp, if_neg hother.2.2.1, if_neg hother.2.2.2.1, if_neg hother.2.2.2.2,
    if_pos hkind] at h
  simp [validateDomainTransfer, Option.bind_eq_some_iff, -Subtype.exists] at h
  obtain ⟨leaf, -, owner', howner', hne, -⟩ := h
  rw [howner] at howner'
  rwa [Option.some.inj howner']

/-- Every name the view shows is leased. -/
def Leased (s : StagedView) (leasedAt : Bytes → UInt64) : Prop :=
  ∀ name leaf, s.getDomain name = some leaf → LeasedName s.maxTerm (leasedAt name) name leaf

/-- A registrable name of an owned namespace is well formed. -/
theorem Leased.wellFormed (h : s.Leased leasedAt) (hvalid : validDomainName name = true)
    (hnamespace : s.ownsDomainNamespace sender name = true) : WellFormedName name := by
  obtain ⟨hlabels, hfirst⟩ := labels_of_validDomainName hvalid
  refine ⟨hlabels, hfirst, ?_⟩
  unfold ownsDomainNamespace at hnamespace
  cases hparent : parentDomainName name with
  | none =>
    rw [domainLabels_of_root hparent] at hfirst ⊢
    exact hfirst
  | some parent =>
    simp only [hparent] at hnamespace
    split at hnamespace
    · cases hnamespace
    · rename_i leaf howned
      rw [getLast?_domainLabels_of_parent hparent]
      exact (h parent leaf (getDomain_of_ownedDomain howned).1).wellFormed.last

/-- What an operation leaves of a name it does not lease. -/
theorem leasedBy_of_not
    (h : ¬ ((op.kind = domainRegisterOp ∨ op.kind = domainRenewOp) ∧ op.name = name)) :
    leasedBy [op] epoch leasedAt name = leasedAt name := by
  simp only [leasedBy, List.any_cons, List.any_nil, Bool.or_false, decide_eq_true_eq, h, if_false]

theorem leasedBy_self (h : op.kind = domainRegisterOp ∨ op.kind = domainRenewOp) :
    leasedBy [op] epoch leasedAt op.name = epoch := by
  simp only [leasedBy, List.any_cons, List.any_nil, Bool.or_false, h, true_and, decide_true,
    if_true]

theorem Leased.step (h : s.Leased leasedAt) (hsender : sender ≠ zeroHash)
    (hv : s.validate sender op refs = some s') : s'.Leased (leasedBy [op] s.epoch leasedAt) := by
  have hs := stages_of_validate hv
  intro name leaf hleaf
  rw [hs.frame.2]
  -- a leaf that was there before keeps its lease, unless the operation leases the name
  have hkept : s.getDomain name = some leaf →
      ¬ ((op.kind = domainRegisterOp ∨ op.kind = domainRenewOp) ∧ op.name = name) →
      LeasedName s.maxTerm (leasedBy [op] s.epoch leasedAt name) name leaf := by
    intro hold hnot
    rw [leasedBy_of_not hnot]
    exact h name leaf hold
  by_cases hname : name = op.name
  · subst hname
    have hquiet : (op.kind ≠ domainRegisterOp ∧ op.kind ≠ domainRenewOp) →
        ¬ ((op.kind = domainRegisterOp ∨ op.kind = domainRenewOp) ∧ op.name = op.name) := by
      rintro ⟨hregister, hrenew⟩ ⟨hkind | hkind, -⟩
      · exact hregister hkind
      · exact hrenew hkind
    cases hs with
    | reparent hkind =>
      rw [getDomain_stageReparent] at hleaf
      exact hkept hleaf (hquiet (by rw [hkind]; decide))
    | delete hkind =>
      rw [getDomain_stageDelete] at hleaf
      exact hkept hleaf (hquiet (by rw [hkind]; decide))
    | register hkind hfree hobject hown hterm =>
      rw [getDomain_stageDomain, if_pos rfl] at hleaf
      obtain rfl := Option.some.inj hleaf
      obtain ⟨hvalid, hnamespace⟩ := name_of_validate_register hv hkind
      rw [leasedBy_self (.inl hkind)]
      exact ⟨h.wellFormed hvalid hnamespace, hsender, domainExpiry_le hterm⟩
    | @renew held expiry hkind howned hterm =>
      rw [getDomain_stageDomain, if_pos rfl] at hleaf
      obtain rfl := Option.some.inj hleaf
      have hheld := h op.name held (getDomain_of_ownedDomain howned).1
      rw [leasedBy_self (.inr hkind)]
      exact ⟨hheld.wellFormed, hheld.owner, domainExpiry_le hterm⟩
    | @update held objectID hkind howned =>
      rw [getDomain_stageDomain, if_pos rfl] at hleaf
      obtain rfl := Option.some.inj hleaf
      have hheld := h op.name held (getDomain_of_ownedDomain howned).1
      rw [leasedBy_of_not (hquiet (by rw [hkind]; decide))]
      exact ⟨hheld.wellFormed, hheld.owner, hheld.lease⟩
    | @transfer held owner hkind howned hinto =>
      rw [getDomain_stageDomain, if_pos rfl] at hleaf
      obtain rfl := Option.some.inj hleaf
      have hheld := h op.name held (getDomain_of_ownedDomain howned).1
      rw [leasedBy_of_not (hquiet (by rw [hkind]; decide))]
      exact ⟨hheld.wellFormed, owner_of_validate_transfer hv hkind hinto, hheld.lease⟩
    | remove hkind howned =>
      rw [getDomain_removed, if_pos rfl] at hleaf
      cases hleaf
  · rw [hs.getDomain_of_ne hname] at hleaf
    exact hkept hleaf fun hop => hname hop.2.symm

theorem Leased.list {ops : List DeclaredOp} (h : s.Leased leasedAt) (hsender : sender ≠ zeroHash)
    (hops : ops.foldlM (fun view op => view.validate sender op refs) s = some s') :
    s'.Leased (leasedBy ops s.epoch leasedAt) ∧ s'.maxTerm = s.maxTerm := by
  induction ops generalizing s leasedAt with
  | nil =>
    obtain rfl : s = s' := by simpa using hops
    exact ⟨h, rfl⟩
  | cons op ops ih =>
    obtain ⟨s₁, hop, hops⟩ := accepted_cons hops
    obtain ⟨hepoch, hcap⟩ := (stages_of_validate hop).frame
    obtain ⟨hleased, hsame⟩ := ih (h.step hsender hop) hops
    rw [hepoch] at hleased
    rw [leasedBy_cons]
    exact ⟨hleased, hsame.trans hcap⟩

end StagedView

/-! ## The registry -/

namespace Ledger

/-- The names a sweep drops. -/
def expiredNames (st : Ledger) (grace epoch : UInt64) : List Bytes :=
  ((st.domains.entries.filter fun e => epoch > safeAdd e.2.expiry grace).map (·.1)).insertionSort
    (· ≤ ·)

theorem mem_expiredNames {st : Ledger} {grace : UInt64} :
    name ∈ st.expiredNames grace epoch ↔
      ∃ leaf, st.domains.lookup name = some leaf ∧ epoch > safeAdd leaf.expiry grace := by
  rw [expiredNames, List.mem_insertionSort, List.mem_map]
  constructor
  · rintro ⟨⟨n, leaf⟩, hmem, rfl⟩
    rw [List.mem_filter, decide_eq_true_eq] at hmem
    exact ⟨leaf, AList.mem_lookup_iff.2 hmem.1, hmem.2⟩
  · rintro ⟨leaf, hleaf, hpast⟩
    refine ⟨⟨name, leaf⟩, List.mem_filter.2 ⟨AList.mem_lookup_iff.1 hleaf, ?_⟩, rfl⟩
    exact decide_eq_true hpast

theorem lookup_sweepExpiredDomains (st : Ledger) (grace epoch : UInt64) (name : Bytes)
    (leaf : DomainLeaf) :
    (st.sweepExpiredDomains grace epoch).domains.lookup name = some leaf ↔
      st.domains.lookup name = some leaf ∧ epoch.toNat ≤ leaf.expiry.toNat + grace.toNat := by
  have hpast : epoch > safeAdd leaf.expiry grace ↔
      ¬ epoch.toNat ≤ leaf.expiry.toNat + grace.toNat := by
    have hlt := epoch.toNat_lt
    rw [gt_iff_lt, UInt64.lt_iff_toNat_lt, toNat_safeAdd]
    omega
  change ((st.expiredNames grace epoch).foldl (fun d name => d.erase name) st.domains).lookup name =
    some leaf ↔ _
  rw [Lib.Tally.lookup_foldl_erase]
  by_cases hin : name ∈ st.expiredNames grace epoch
  · obtain ⟨swept, hswept, hover⟩ := mem_expiredNames.1 hin
    rw [if_pos hin]
    refine ⟨fun h => absurd h (by simp), ?_⟩
    rintro ⟨hleaf, hrun⟩
    rw [hswept] at hleaf
    rw [Option.some.inj hleaf, hpast] at hover
    exact absurd hrun hover
  · rw [if_neg hin]
    refine ⟨fun hleaf => ⟨hleaf, ?_⟩, And.left⟩
    by_contra hover
    exact hin (mem_expiredNames.2 ⟨leaf, hleaf, hpast.2 hover⟩)

end Ledger

/-- The registries a node can come to, with the epoch of every name's last lease and of the
latest step: lists of operations are accepted over whatever the rest of the ledger has
become, and boundaries sweep. -/
inductive Registry (p : FeeParams) :
    (AList fun _ : Bytes => DomainLeaf) → (Bytes → UInt64) → UInt64 → Prop
  | empty : Registry p ∅ (fun _ => 0) 0
  | declare {st st' : Ledger} {tx : Transaction} {leasedAt : Bytes → UInt64} {now epoch : UInt64} :
      Registry p st.domains leasedAt now → now ≤ epoch →
      st.handleDeclaredOps p tx epoch = some st' →
      Registry p st'.domains (leasedBy tx.operations epoch leasedAt) epoch
  | sweep {st : Ledger} {leasedAt : Bytes → UInt64} {now epoch : UInt64} :
      Registry p st.domains leasedAt now → now ≤ epoch →
      Registry p (st.sweepExpiredDomains p.graceEpochs epoch).domains leasedAt epoch

theorem Registry.leased {p : FeeParams} {d : AList fun _ : Bytes => DomainLeaf}
    {leasedAt : Bytes → UInt64} {now : UInt64} (h : Registry p d leasedAt now) :
    ∀ name leaf, d.lookup name = some leaf →
      LeasedName p.maxTermEpochs (leasedAt name) name leaf := by
  induction h with
  | empty =>
    intro name leaf hleaf
    cases hleaf
  | @declare st st' tx leasedAt now epoch _ _ hops ih =>
    obtain ⟨view, sender, -, hsender, hfold, -, hshows⟩ := Ledger.handleDeclaredOps_some hops
    have hstart : StagedView.Leased
        { ot := st.tracker, ds := st.domains, epoch, maxTerm := p.maxTermEpochs } leasedAt := by
      intro name leaf hleaf
      rw [← (Shows.start st epoch p.maxTermEpochs).domains] at hleaf
      exact ih name leaf hleaf
    obtain ⟨hleased, hcap⟩ := hstart.list hsender hfold
    intro name leaf hleaf
    rw [hshows.domains] at hleaf
    have hname := hleased name leaf hleaf
    rwa [hcap] at hname
  | sweep _ _ ih =>
    intro name leaf hleaf
    exact ih name leaf ((Ledger.lookup_sweepExpiredDomains _ _ _ name leaf).1 hleaf).1

/-- Every name of every registry is well formed, owned and leased under the cap, and a sweep
leaves exactly the leaves whose grace has not run out. -/
theorem registry_leased {p : FeeParams} {st : Ledger} {leasedAt : Bytes → UInt64} {now : UInt64}
    (h : Registry p st.domains leasedAt now) :
    (∀ name leaf, st.domains.lookup name = some leaf →
      LeasedName p.maxTermEpochs (leasedAt name) name leaf) ∧
      ∀ (epoch : UInt64) (name : Bytes) (leaf : DomainLeaf),
        (st.sweepExpiredDomains p.graceEpochs epoch).domains.lookup name = some leaf ↔
          st.domains.lookup name = some leaf ∧
            epoch.toNat ≤ leaf.expiry.toNat + p.graceEpochs.toNat :=
  ⟨h.leased, st.lookup_sweepExpiredDomains p.graceEpochs⟩

/-- The first user leases a namespace and, in the same list, a name under it. -/
def shopLease : Transaction where
  sender := (idOf 1).val
  operations :=
    [{ kind := domainRegisterOp, objectID := (idOf 11).val, name := ascii "shop", termEpochs := 3 },
     { kind := domainRegisterOp, objectID := (idOf 12).val, name := ascii "my.shop",
       termEpochs := 1 }]

def shopLedger : Ledger :=
  (familyLedger.handleDeclaredOps defaultFeeParams shopLease 2).getD familyLedger

/-- A lease of one epoch taken in epoch 2 survives the sweep for epoch 11, the last of its
grace, and not the one for epoch 12. -/
theorem registry_leased_shop :
    WellFormedName (ascii "my.shop") ∧
      ((shopLedger.sweepExpiredDomains 8 11).domains.lookup (ascii "my.shop")).isSome = true ∧
      (shopLedger.sweepExpiredDomains 8 12).domains.lookup (ascii "my.shop") = none := by
  have hlease : shopLedger.domains.lookup (ascii "my.shop") =
      some { objectID := idOf 12, owner := idOf 1, expiry := 3 } := by decide +kernel
  have hstate : Registry defaultFeeParams shopLedger.domains
      (leasedBy shopLease.operations 2 fun _ => 0) 2 := by
    have hsome : familyLedger.handleDeclaredOps defaultFeeParams shopLease 2 = some shopLedger := by
      cases hrun : familyLedger.handleDeclaredOps defaultFeeParams shopLease 2 with
      | none =>
        have hok : (familyLedger.handleDeclaredOps defaultFeeParams shopLease 2).isSome = true := by
          decide +kernel
        rw [hrun] at hok
        cases hok
      | some st' => rw [shopLedger, hrun, Option.getD_some]
    exact @Registry.declare _ familyLedger _ _ _ _ _ .empty (by decide) hsome
  obtain ⟨hleased, hsweep⟩ := registry_leased hstate
  refine ⟨(hleased _ _ hlease).wellFormed, ?_, ?_⟩
  · rw [show (8 : UInt64) = defaultFeeParams.graceEpochs from rfl,
      (hsweep 11 _ _).2 ⟨hlease, by decide⟩]
    rfl
  · cases hgone : (shopLedger.sweepExpiredDomains 8 12).domains.lookup (ascii "my.shop") with
    | none => rfl
    | some leaf =>
      obtain ⟨hleaf, hrun⟩ := (hsweep 12 _ _).1 hgone
      rw [hlease] at hleaf
      obtain rfl := Option.some.inj hleaf
      exact absurd hrun (by decide)

end BluePods
