import WheelFarm.Proofs.Ledger.Targets

/-! Outstanding work: the ABIs that open versions were not tried for, of which the targets are the
least ones. Ledgers with the same work have the same targets, and work that is taken off shows in
the targets only if it was due next. -/
namespace WheelFarm.Ledger
open Text

variable {l l' : Ledger} {package version abi : String}

/-- Whether a version owns a file with an ABI tag. -/
def HasTag (l : Ledger) (package version abi : String) : Prop :=
  ∃ f, OwnedBy l package version f ∧ f.tags.abi = abi

/-- Whether a build of a version that is without files was asked for an ABI. -/
def Asked (l : Ledger) (package version abi : String) : Prop :=
  ∃ b ∈ l.builds, b.package = package ∧ b.version = version ∧ Bare l b ∧ b.abi = abi

/-- An ABI that a version is still to be built for. -/
structure Outstanding (l : Ledger) (package version abi : String) : Prop where
  package_open : ∃ p ∈ l.packages, p.name = package ∧ p.skip = none
  version_open : ∃ v ∈ l.versions, v.package = package ∧ v.version = version ∧ v.skip = none
  registered : abi ∈ l.abis
  unsettled : ¬ HasTag l package version "none"
  unmade : ¬ HasTag l package version abi
  unasked : ¬ Asked l package version abi

/-- What a version needs to be built for an ABI at all. -/
def Eligible (l : Ledger) (package version abi : String) : Prop :=
  (∃ p ∈ l.packages, p.name = package ∧ p.skip = none) ∧
    (∃ v ∈ l.versions, v.package = package ∧ v.version = version ∧ v.skip = none) ∧ abi ∈ l.abis

/-- An ABI that no further build of a version is needed for, be it because of a universal wheel,
because of a wheel for that ABI or because of an attempt that left nothing. -/
def Done (l : Ledger) (package version abi : String) : Prop :=
  HasTag l package version "none" ∨ HasTag l package version abi ∨ Asked l package version abi

theorem outstanding_iff : Outstanding l package version abi ↔
    Eligible l package version abi ∧ ¬ Done l package version abi := by
  simp only [Done, not_or]
  constructor
  · intro ho
    exact ⟨⟨ho.package_open, ho.version_open, ho.registered⟩, ho.unsettled, ho.unmade, ho.unasked⟩
  · intro hmem
    obtain ⟨⟨hp, hv, hr⟩, hs, hm, ha⟩ := hmem
    exact ⟨hp, hv, hr, hs, hm, ha⟩

lemma not_hasTag_iff :
    ¬ HasTag l package version abi ↔ ∀ f, OwnedBy l package version f → f.tags.abi ≠ abi := by
  simp only [HasTag, not_exists, not_and, ne_eq]

lemma untried_iff_not : Untried l package version abi ↔
    abi ∈ l.abis ∧ ¬ HasTag l package version abi ∧ ¬ Asked l package version abi := by
  rw [not_hasTag_iff]
  constructor
  · intro huntried
    obtain ⟨hr, ho, ha⟩ := huntried
    refine ⟨hr, ho, fun hasked => ?_⟩
    obtain ⟨b, hb, hp, hv, hbare, habi⟩ := hasked
    exact ha b hb hp hv hbare habi
  · intro hmem
    obtain ⟨hr, ho, ha⟩ := hmem
    exact ⟨hr, ho, fun b hb hp hv hbare habi => ha ⟨b, hb, hp, hv, hbare, habi⟩⟩

/-- The work that is outstanding is the work that the ledger lists for its versions. -/
theorem mem_outstanding {v : Version} (hv : v ∈ l.versions) :
    abi ∈ l.outstanding v ↔ Outstanding l v.package v.version abi := by
  have hlist : abi ∈ l.outstanding v ↔
      (l.isOpen v = true ∧ l.isSettled v.package v.version = false) ∧
        Untried l v.package v.version abi := by
    rw [outstanding, untried_iff]
    split
    · next h => simp_all [List.mem_filter, Table.mem_rows]
    · next h => simp_all
  rw [hlist, isOpen_iff, isSettled_eq_false_iff, untried_iff_not]
  constructor
  · intro hmem
    obtain ⟨⟨⟨hskip, hp⟩, hs⟩, hr, ht, ha⟩ := hmem
    exact ⟨hp, ⟨v, hv, rfl, rfl, hskip⟩, hr, not_hasTag_iff.mpr hs, ht, ha⟩
  · intro hmem
    obtain ⟨hp, ⟨w, hw, hwp, hwv, hskip⟩, hr, hs, ht, ha⟩ := hmem
    -- The open version is the one at hand, for the catalog holds a version once.
    cases Table.eq_of_key_eq hw hv (congrArg₂ Prod.mk hwp hwv)
    exact ⟨⟨⟨hskip, hp⟩, not_hasTag_iff.mp hs⟩, hr, ht, ha⟩

/-- What is to be built next is the least of what is outstanding. -/
theorem isNext_iff {t : Target} : IsNext l t ↔ Outstanding l t.package t.version t.abi ∧
    ∀ a, Outstanding l t.package t.version a → a ≠ t.abi → bytes t.abi < bytes a := by
  constructor
  · intro hnext
    obtain ⟨hp, hv, hs, hu, hl⟩ := hnext
    obtain ⟨hr, ht, ha⟩ := untried_iff_not.mp hu
    refine ⟨⟨hp, hv, hr, not_hasTag_iff.mpr hs, ht, ha⟩, fun a ho hne => hl a ?_ hne⟩
    exact untried_iff_not.mpr ⟨ho.registered, ho.unmade, ho.unasked⟩
  · intro hmem
    obtain ⟨⟨hp, hv, hr, hs, ht, ha⟩, hl⟩ := hmem
    have huntried := untried_iff_not.mpr ⟨hr, ht, ha⟩
    refine ⟨hp, hv, not_hasTag_iff.mp hs, huntried, fun a hu hne => hl a ?_ hne⟩
    obtain ⟨har, hat, haa⟩ := untried_iff_not.mp hu
    exact ⟨hp, hv, har, hs, hat, haa⟩

theorem mem_targets_iff {t : Target} : t ∈ l.targets ↔ Outstanding l t.package t.version t.abi ∧
    ∀ a, Outstanding l t.package t.version a → a ≠ t.abi → bytes t.abi < bytes a :=
  mem_targets.trans isNext_iff

lemma Target.Before.asymm {t u : Target} (h : Target.Before t u) : ¬ Target.Before u t := by
  intro g
  rcases h with h | ⟨h, h'⟩ <;> rcases g with g | ⟨g, g'⟩
  · exact List.lt_asymm h g
  · exact List.lt_irrefl _ (g ▸ h)
  · exact List.lt_irrefl _ (h ▸ g)
  · exact List.lt_asymm h' g'

lemma Target.Before.ne {t u : Target} (h : Target.Before t u) : t ≠ u := by
  rintro rfl
  exact h.asymm h

/-- Targets are determined by their members, since they come in order. -/
theorem targets_ext (h : ∀ t, t ∈ l.targets ↔ t ∈ l'.targets) : l.targets = l'.targets := by
  have hnodup : ∀ m : Ledger, m.targets.Nodup := fun m =>
    (targets_ordered m).imp fun hb => Target.Before.ne hb
  have hp : l.targets.Perm l'.targets := (List.perm_ext_iff_of_nodup (hnodup l) (hnodup l')).mpr h
  refine hp.eq_of_pairwise (fun t u _ _ htu hut => ?_) (targets_ordered l) (targets_ordered l')
  exact absurd hut htu.asymm

/-- Taking an item off the outstanding work changes the targets if and only if the item is a
target. -/
theorem targets_eq_iff_of_outstanding {u : Target} (h : ∀ p v a, Outstanding l' p v a ↔
    Outstanding l p v a ∧ (⟨p, v, a⟩ : Target) ≠ u) : l'.targets = l.targets ↔ u ∉ l.targets := by
  constructor
  · intro he hu
    rw [← he, mem_targets_iff, h] at hu
    exact hu.1.2 rfl
  · intro hu
    refine targets_ext fun t => ?_
    simp only [mem_targets_iff, h, bytes_lt_iff] at hu ⊢
    constructor
    · intro hmem
      obtain ⟨⟨ho, hne⟩, hl⟩ := hmem
      refine ⟨ho, fun a ha hat => ?_⟩
      by_contra hlt
      -- Only the item itself can come before the target, and then it would be due.
      have hua : (⟨t.package, t.version, a⟩ : Target) = u := by
        by_contra hua
        exact hlt (hl a ⟨ha, hua⟩ hat)
      have hta : a < t.abi := by
        by_contra hgt
        exact hat (KeyOrder.eq_of_not_lt hgt hlt)
      subst hua
      refine hu ⟨ha, fun b hb hba => ?_⟩
      by_cases hbt : b = t.abi
      · exact hbt ▸ hta
      · exact String.lt_trans hta (hl b ⟨hb, fun he => hba (congrArg Target.abi he)⟩ hbt)
    · intro hmem
      obtain ⟨ho, hl⟩ := hmem
      exact ⟨⟨ho, fun he => hu (he ▸ ⟨ho, hl⟩)⟩, fun a ha hat => hl a ha.1 hat⟩

end WheelFarm.Ledger
