import WheelFarm.Proofs.Ledger.CatalogMap
import WheelFarm.Proofs.Ledger.Targets
import WheelFarm.Proofs.ProjectName

/-! Canonical names in the catalog. Packages come by being added, and all else that names a package
names one of the catalog: where packages are added under canonical names only, a ledger has no
others. -/
namespace WheelFarm.Ledger
open ProjectName

/-- A sound ledger whose packages are catalogued under canonical names. -/
structure Canonical (l : Ledger) : Prop where
  sound : Sound l
  package : ∀ p ∈ l.packages, IsCanonical p.name

/-- An operation that adds no package under a name that is not canonical. -/
def Operation.Canonical (op : Operation) : Prop :=
  ∀ package skip, op = .addPackage package skip → IsCanonical package

variable {l : Ledger}

theorem canonical_fresh : Canonical {} where
  sound := sound_fresh
  package p hp := absurd hp (Table.not_mem_empty p)

lemma package_of_step (hs : Sound l) (now : Int) (op : Operation) {p : Package}
    (hp : p ∈ (l.step now op).2.packages) :
    (∃ q ∈ l.packages, q.name = p.name) ∨ ∃ skip, op = .addPackage p.name skip := by
  cases hop : op.isOfCatalog with
  | false => exact .inl ⟨p, (catalog_step hs now hop).1 ▸ hp, rfl⟩
  | true =>
    rw [step] at hp
    split at hp
    · next reply l' hdone =>
      cases op with
      | addPackage package skip =>
        cases hdone
        change p ∈ (l.addPackage package skip).2.packages at hp
        rw [addPackage_eq] at hp
        split at hp
        · exact .inl ⟨p, hp, rfl⟩
        · rcases Table.mem_put.mp hp with rfl | ⟨hp, -⟩
          · exact .inr ⟨skip, rfl⟩
          · exact .inl ⟨p, hp, rfl⟩
      | addVersion package version released skip =>
        obtain ⟨⟨done, l'⟩, hl, he⟩ := map_eq_ok hdone
        cases he
        rw [addVersion_eq] at hl
        split_ifs at hl <;> cases hl <;> exact .inl ⟨p, hp, rfl⟩
      | skipPackage package reason =>
        cases hdone
        obtain ⟨q, hq, rfl⟩ := mem_packages_skipPackage.mp hp
        exact .inl ⟨q, hq, (Package.name_skipIf package reason q).symm⟩
      | skipVersion package version reason =>
        cases hdone
        exact .inl ⟨p, hp, rfl⟩
      | deleteVersion package version =>
        cases hdone
        exact .inl ⟨p, hp, rfl⟩
      | deletePackage package =>
        obtain ⟨⟨done, l'⟩, hl, he⟩ := map_eq_ok hdone
        cases he
        rw [deletePackage] at hl
        split_ifs at hl
        cases hl
        exact .inl ⟨p, (Table.mem_filter.mp hp).1, rfl⟩
      | _ => cases hop
    · exact .inl ⟨p, hp, rfl⟩

namespace Canonical

theorem step (h : Canonical l) (now : Int) {op : Operation} (hop : op.Canonical) :
    Canonical (l.step now op).2 where
  sound := sound_step h.sound now op
  package p hp := by
    rcases package_of_step h.sound now op hp with ⟨q, hq, hname⟩ | ⟨skip, hadd⟩
    · exact hname ▸ h.package q hq
    · exact hop p.name skip hadd

theorem version (h : Canonical l) : ∀ v ∈ l.versions, IsCanonical v.package := by
  intro v hv
  obtain ⟨p, hp, hname⟩ := h.sound.package_of_version v hv
  exact hname ▸ h.package p hp

theorem build (h : Canonical l) : ∀ b ∈ l.builds, IsCanonical b.package := by
  intro b hb
  obtain ⟨v, hv, hname, -⟩ := h.sound.version_of_build b hb
  exact hname ▸ h.version v hv

theorem target (h : Canonical l) : ∀ t ∈ l.targets, IsCanonical t.package := by
  intro t ht
  obtain ⟨p, hp, hname, -⟩ := (mem_targets.mp ht).package_open
  exact hname ▸ h.package p hp

theorem eq_of_canonicalize_eq (h : Canonical l) {p q : Package} (hp : p ∈ l.packages)
    (hq : q ∈ l.packages) (he : canonicalize p.name = canonicalize q.name) : p = q :=
  Table.eq_of_key_eq hp hq ((h.package p hp).eq (h.package q hq) he)

end Canonical

end WheelFarm.Ledger
