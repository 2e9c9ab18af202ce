import WheelFarm.Proofs.Ledger.CatalogMap
import WheelFarm.Proofs.Ledger.Settled

/-! Skip reasons. A package or version of the catalog that has a skip reason, be it an empty text, is
no target, and it has one until it is deleted: nothing else clears a reason or puts another record in
the place of the skipped one. -/
namespace WheelFarm.Ledger

/-- A package of the catalog with a skip reason, whatever it says. -/
def PackageSkipped (l : Ledger) (package : String) : Prop :=
  ∃ p ∈ l.packages, p.name = package ∧ p.skip.isSome

/-- A version of the catalog with a skip reason of its own. -/
def VersionSkipped (l : Ledger) (package version : String) : Prop :=
  ∃ v ∈ l.versions, v.package = package ∧ v.version = version ∧ v.skip.isSome

/-- Whether an entry is this operation and found something to do. -/
def Entry.changes (e : Entry) (op : Operation) : Bool :=
  match e.answer with
  | .ok (.changed true) => e.operation = op
  | _ => false

variable {l l' : Ledger} {package version : String}

section Targets

lemma not_target_of_packageSkipped (h : PackageSkipped l package) :
    ∀ t ∈ l.targets, t.package ≠ package := by
  intro t ht hpackage
  obtain ⟨p, hp, hn, hskip⟩ := h
  obtain ⟨q, hq, hqn, hnone⟩ := (mem_targets_iff.mp ht).1.package_open
  cases Table.eq_of_key_eq hp hq (hn.trans (hpackage.symm.trans hqn.symm))
  simp [hnone] at hskip

lemma not_target_of_versionSkipped (h : VersionSkipped l package version) :
    ∀ t ∈ l.targets, ¬ (t.package = package ∧ t.version = version) := by
  intro t ht hv
  obtain ⟨rfl, rfl⟩ := hv
  obtain ⟨v, hv, hvp, hvv, hskip⟩ := h
  obtain ⟨w, hw, hwp, hwv, hnone⟩ := (mem_targets_iff.mp ht).1.version_open
  cases Table.eq_of_key_eq hv hw
    (congrArg₂ Prod.mk (hvp.trans hwp.symm) (hvv.trans hwv.symm))
  simp [hnone] at hskip

end Targets

section Catalog

lemma Package.skipIf_isSome {p : Package} (h : p.skip.isSome) (package reason : String) :
    (p.skipIf package reason).skip.isSome := by
  unfold skipIf
  split
  · rfl
  · exact h

lemma Version.skipIf_isSome {v : Version} (h : v.skip.isSome) (package version reason : String) :
    (v.skipIf package version reason).skip.isSome := by
  unfold skipIf
  split
  · rfl
  · exact h

lemma PackageSkipped.addPackage (h : PackageSkipped l package) (p : String)
    (skip : Option String) : PackageSkipped (l.addPackage p skip).2 package := by
  rw [addPackage_eq]
  -- A package that is announced again keeps its record, and another one is another row.
  split
  · exact h
  · next hfree =>
    obtain ⟨q, hq, hn, hskip⟩ := h
    have hne : q.name ≠ p := fun he => hfree (Table.has_iff.mpr ⟨q, hq, he⟩)
    exact ⟨q, Table.mem_put.mpr (.inr ⟨hq, hne⟩), hn, hskip⟩

lemma VersionSkipped.addVersion (h : VersionSkipped l package version) {p v : String}
    {released : Int} {skip : Option String} {done : Bool}
    (hl : l.addVersion p v released skip = .ok (done, l')) :
    VersionSkipped l' package version := by
  rw [addVersion_eq] at hl
  split_ifs at hl with hpackage hknown <;> cases hl
  · exact h
  · obtain ⟨w, hw, hwp, hwv, hskip⟩ := h
    have hne : Keyed.key w ≠ (p, v) := fun he => hknown (Table.has_iff.mpr ⟨w, hw, he⟩)
    exact ⟨w, Table.mem_put.mpr (.inr ⟨hw, hne⟩), hwp, hwv, hskip⟩

lemma PackageSkipped.skipPackage (h : PackageSkipped l package) (p reason : String) :
    PackageSkipped (l.skipPackage p reason) package := by
  obtain ⟨q, hq, hn, hskip⟩ := h
  exact ⟨q.skipIf p reason, mem_packages_skipPackage.mpr ⟨q, hq, rfl⟩,
    (Package.name_skipIf p reason q).trans hn, Package.skipIf_isSome hskip p reason⟩

lemma VersionSkipped.skipVersion (h : VersionSkipped l package version) (p v reason : String) :
    VersionSkipped (l.skipVersion p v reason) package version := by
  obtain ⟨w, hw, hwp, hwv, hskip⟩ := h
  have hkey := Version.key_skipIf p v reason w
  exact ⟨w.skipIf p v reason, mem_versions_skipVersion.mpr ⟨w, hw, rfl⟩,
    (congrArg Prod.fst hkey).trans hwp, (congrArg Prod.snd hkey).trans hwv,
    Version.skipIf_isSome hskip p v reason⟩

lemma PackageSkipped.deletePackage (h : PackageSkipped l package) {p : String} {done : Bool}
    (hl : l.deletePackage p = .ok (done, l')) (hkept : done = true → p ≠ package) :
    PackageSkipped l' package := by
  rw [Ledger.deletePackage] at hl
  split_ifs at hl
  cases hl
  obtain ⟨q, hq, hn, hskip⟩ := h
  refine ⟨q, Table.mem_filter.mpr ⟨hq, decide_eq_true fun he => ?_⟩, hn, hskip⟩
  exact hkept (Table.has_iff.mpr ⟨q, hq, he⟩) (he.symm.trans hn)

lemma VersionSkipped.deleteVersion (h : VersionSkipped l package version) {p v : String}
    (hkept : (l.deleteVersion p v).1 = true → ¬ (p = package ∧ v = version)) :
    VersionSkipped (l.deleteVersion p v).2 package version := by
  obtain ⟨w, hw, rfl, rfl, hskip⟩ := h
  refine ⟨w, Table.mem_filter.mpr ⟨hw, ?_⟩, rfl, rfl, hskip⟩
  rw [Bool.not_eq_true', decide_eq_false_iff_not]
  rintro ⟨rfl, rfl⟩
  exact hkept (Table.has_iff.mpr ⟨w, hw, rfl⟩) ⟨rfl, rfl⟩

lemma packageSkipped_addPackage {reason : String}
    (h : (l.addPackage package (some reason)).1 = true) :
    PackageSkipped (l.addPackage package (some reason)).2 package := by
  rw [addPackage_eq] at h ⊢
  split_ifs at h ⊢
  exact ⟨⟨package, some reason⟩, Table.mem_put.mpr (.inl rfl), rfl, rfl⟩

lemma packageSkipped_skipPackage {p : Package} (hp : p ∈ l.packages) (reason : String) :
    PackageSkipped (l.skipPackage p.name reason) p.name :=
  ⟨p.skipIf p.name reason, mem_packages_skipPackage.mpr ⟨p, hp, rfl⟩,
    Package.name_skipIf p.name reason p, by rw [Package.skipIf, if_pos rfl]; rfl⟩

lemma versionSkipped_addVersion {now : Int} {released : Option Int} {reason : String}
    (h : (l.step now (.addVersion package version released (some reason))).1 = .ok (.changed true)) :
    VersionSkipped (l.step now (.addVersion package version released (some reason))).2
      package version := by
  rw [step, perform, addVersion_eq] at h ⊢
  split_ifs at h ⊢ <;> cases h
  exact ⟨⟨package, version, released.getD now, some reason⟩, Table.mem_put.mpr (.inl rfl), rfl, rfl,
    rfl⟩

lemma versionSkipped_skipVersion {v : Version} (hv : v ∈ l.versions) (reason : String) :
    VersionSkipped (l.skipVersion v.package v.version reason) v.package v.version := by
  have hkey := Version.key_skipIf v.package v.version reason v
  exact ⟨v.skipIf v.package v.version reason, mem_versions_skipVersion.mpr ⟨v, hv, rfl⟩,
    congrArg Prod.fst hkey, congrArg Prod.snd hkey, by rw [Version.skipIf, if_pos ⟨rfl, rfl⟩]; rfl⟩

end Catalog

section Step

lemma Entry.changes_iff {e : Entry} {op : Operation} :
    e.changes op = true ↔ e.answer = .ok (.changed true) ∧ e.operation = op := by
  rw [changes]
  split
  · next ha => simp [ha]
  · next ha => exact ⟨fun h => absurd h Bool.false_ne_true, fun h => absurd h.1 ha⟩

lemma PackageSkipped.step (h : PackageSkipped l package) (hs : Sound l) {now : Int}
    {op : Operation} (hkept : (l.entry now op).changes (.deletePackage package) = false) :
    PackageSkipped (l.step now op).2 package := by
  cases hop : op.isOfCatalog with
  | false => rwa [PackageSkipped, (catalog_step hs now hop).1]
  | true =>
    rw [← Bool.not_eq_true, Entry.changes_iff, entry] at hkept
    rw [Ledger.step] at hkept ⊢
    split
    · next reply l' hp =>
      rw [hp] at hkept
      cases op with
      | addPackage p skip =>
        cases hp
        exact h.addPackage p skip
      | addVersion p v released skip =>
        obtain ⟨⟨done, l'⟩, hadd, he⟩ := map_eq_ok hp
        cases he
        rw [addVersion_eq] at hadd
        split_ifs at hadd <;> cases hadd <;> exact h
      | skipPackage p reason =>
        cases hp
        exact h.skipPackage p reason
      | skipVersion p v reason =>
        cases hp
        exact h
      | deleteVersion p v =>
        cases hp
        exact h
      | deletePackage p =>
        obtain ⟨⟨done, l'⟩, hdelete, he⟩ := map_eq_ok hp
        cases he
        refine h.deletePackage hdelete fun hdone hpackage => hkept ?_
        subst hdone hpackage
        exact ⟨rfl, rfl⟩
      | _ => cases hop
    · exact h

lemma VersionSkipped.step (h : VersionSkipped l package version) (hs : Sound l) {now : Int}
    {op : Operation} (hkept : (l.entry now op).changes (.deleteVersion package version) = false) :
    VersionSkipped (l.step now op).2 package version := by
  cases hop : op.isOfCatalog with
  | false => rwa [VersionSkipped, (catalog_step hs now hop).2]
  | true =>
    rw [← Bool.not_eq_true, Entry.changes_iff, entry] at hkept
    rw [Ledger.step] at hkept ⊢
    split
    · next reply l' hp =>
      rw [hp] at hkept
      cases op with
      | addPackage p skip =>
        cases hp
        change VersionSkipped (l.addPackage p skip).2 package version
        rw [addPackage_eq]
        split <;> exact h
      | addVersion p v released skip =>
        obtain ⟨⟨done, l'⟩, hadd, he⟩ := map_eq_ok hp
        cases he
        exact h.addVersion hadd
      | skipPackage p reason =>
        cases hp
        exact h
      | skipVersion p v reason =>
        cases hp
        exact h.skipVersion p v reason
      | deleteVersion p v =>
        cases hp
        refine h.deleteVersion fun hdone hv => hkept ?_
        obtain ⟨rfl, rfl⟩ := hv
        exact ⟨congrArg (fun done => Except.ok (Reply.changed done)) hdone, rfl⟩
      | deletePackage p =>
        obtain ⟨⟨done, l'⟩, hdelete, he⟩ := map_eq_ok hp
        cases he
        rw [deletePackage] at hdelete
        split_ifs at hdelete
        cases hdelete
        exact h
      | _ => cases hop
    · exact h

theorem PackageSkipped.run (h : PackageSkipped l package) (hs : Sound l)
    {ops : List (Int × Operation)}
    (hkept : ∀ e ∈ l.journal ops, e.changes (.deletePackage package) = false) :
    PackageSkipped (l.run ops) package := by
  induction ops generalizing l with
  | nil => exact h
  | cons op ops ih =>
    obtain ⟨hfirst, hrest⟩ := List.forall_mem_cons.mp hkept
    exact ih (h.step hs hfirst) (sound_step hs op.1 op.2) hrest

theorem VersionSkipped.run (h : VersionSkipped l package version) (hs : Sound l)
    {ops : List (Int × Operation)}
    (hkept : ∀ e ∈ l.journal ops, e.changes (.deleteVersion package version) = false) :
    VersionSkipped (l.run ops) package version := by
  induction ops generalizing l with
  | nil => exact h
  | cons op ops ih =>
    obtain ⟨hfirst, hrest⟩ := List.forall_mem_cons.mp hkept
    exact ih (h.step hs hfirst) (sound_step hs op.1 op.2) hrest

end Step

/-- A package of the catalog that has a skip reason, given when it was added or later, is no target
until it is deleted, and a version that has one is none until it is deleted, whatever is added
again, committed, forgotten or registered meanwhile. -/
theorem skipped_until_deleted (earlier later : List (Int × Operation)) (package version : String) :
    (∀ now reason,
      (((run {} earlier).step now (.addPackage package (some reason))).1 = .ok (.changed true) →
        PackageSkipped (run {} (earlier ++ [(now, .addPackage package (some reason))])) package) ∧
      ((run {} earlier).packages.has package = true →
        PackageSkipped (run {} (earlier ++ [(now, .skipPackage package reason)])) package) ∧
      (∀ released, ((run {} earlier).step now (.addVersion package version released
          (some reason))).1 = .ok (.changed true) →
        VersionSkipped (run {} (earlier ++ [(now, .addVersion package version released
          (some reason))])) package version) ∧
      ((run {} earlier).versions.has (package, version) = true →
        VersionSkipped (run {} (earlier ++ [(now, .skipVersion package version reason)]))
          package version)) ∧
    (PackageSkipped (run {} earlier) package →
      (∀ e ∈ (run {} earlier).journal later, e.changes (.deletePackage package) = false) →
      ∀ t ∈ (run {} (earlier ++ later)).targets, t.package ≠ package) ∧
    (VersionSkipped (run {} earlier) package version →
      (∀ e ∈ (run {} earlier).journal later, e.changes (.deleteVersion package version) = false) →
      ∀ t ∈ (run {} (earlier ++ later)).targets,
        ¬ (t.package = package ∧ t.version = version)) := by
  have hs := sound_run sound_fresh earlier
  refine ⟨fun now reason => ⟨fun hadd => ?_, fun hhas => ?_, fun released hadd => ?_,
    fun hhas => ?_⟩, fun h hkept => ?_, fun h hkept => ?_⟩
  · rw [run_concat]
    exact packageSkipped_addPackage (Reply.changed.inj (Except.ok.inj hadd))
  · obtain ⟨p, hp, rfl⟩ := Table.has_iff.mp hhas
    rw [run_concat]
    exact packageSkipped_skipPackage hp reason
  · rw [run_concat]
    exact versionSkipped_addVersion hadd
  · obtain ⟨v, hv, he⟩ := Table.has_iff.mp hhas
    cases he
    rw [run_concat]
    exact versionSkipped_skipVersion hv reason
  · rw [run_append]
    exact not_target_of_packageSkipped (h.run hs hkept)
  · rw [run_append]
    exact not_target_of_versionSkipped (h.run hs hkept)

/-- What may happen to a skipped version and its package: they are announced again, a build is
committed and forgotten, an ABI is added, and deleting the package fails. -/
def afterSkip : List (Int × Operation) :=
  [(120, .addPackage "six" none), (120, .addVersion "six" "1.16.0" none none),
    (120, .skipVersion "six" "1.16.0" "yanked"), (180, .commit (universalReport "1.16.0" 1)),
    (240, .forget "six" "1.16.0"), (240, .addAbi "cp311"), (240, .deletePackage "six")]

theorem skipped_over_afterSkip :
    ((run {} []).step 0 (.addPackage "six" (some ""))).1 = .ok (.changed true) ∧
    (run {} twoVersions).packages.has "six" = true ∧
    ((run {} twoVersions).step 60 (.addVersion "six" "1.18.0" none (some ""))).1 =
      .ok (.changed true) ∧
    (run {} twoVersions).versions.has ("six", "1.16.0") = true ∧
    PackageSkipped (run {} ([] ++ [(0, .addPackage "six" (some ""))])) "six" ∧
    VersionSkipped (run {} (twoVersions ++ [(60, .addVersion "six" "1.18.0" none (some ""))]))
      "six" "1.18.0" ∧
    (∀ e ∈ (run {} (twoVersions ++ [(60, .skipPackage "six" "")])).journal afterSkip,
      e.changes (.deletePackage "six") = false) ∧
    (∀ e ∈ (run {} (twoVersions ++ [(60, .skipVersion "six" "1.16.0" "")])).journal afterSkip,
      e.changes (.deleteVersion "six" "1.16.0") = false) ∧
    (∀ t ∈ (run {} (twoVersions ++ [(60, .skipPackage "six" "")] ++ afterSkip)).targets,
      t.package ≠ "six") ∧
    ∀ t ∈ (run {} (twoVersions ++ [(60, .skipVersion "six" "1.16.0" "")] ++ afterSkip)).targets,
      ¬ (t.package = "six" ∧ t.version = "1.16.0") := by
  have hnew : ((run {} []).step 0 (.addPackage "six" (some ""))).1 = .ok (.changed true) := by
    decide +kernel
  have hpackage : (run {} twoVersions).packages.has "six" = true := by decide +kernel
  have hnewer : ((run {} twoVersions).step 60 (.addVersion "six" "1.18.0" none (some ""))).1 =
      .ok (.changed true) := by decide +kernel
  have hversion : (run {} twoVersions).versions.has ("six", "1.16.0") = true := by decide +kernel
  have hkeptPackage : ∀ e ∈ (run {} (twoVersions ++ [(60, .skipPackage "six" "")])).journal
      afterSkip, e.changes (.deletePackage "six") = false := by decide +kernel
  have hkeptVersion : ∀ e ∈ (run {} (twoVersions ++ [(60, .skipVersion "six" "1.16.0" "")])).journal
      afterSkip, e.changes (.deleteVersion "six" "1.16.0") = false := by decide +kernel
  have hgiven := (skipped_until_deleted twoVersions [] "six" "1.16.0").1 60 ""
  refine ⟨hnew, hpackage, hnewer, hversion,
    ((skipped_until_deleted [] [] "six" "1.16.0").1 0 "").1 hnew,
    ((skipped_until_deleted twoVersions [] "six" "1.18.0").1 60 "").2.2.1 none hnewer,
    hkeptPackage, hkeptVersion, ?_, ?_⟩
  · exact (skipped_until_deleted _ afterSkip "six" "1.16.0").2.1 (hgiven.2.1 hpackage) hkeptPackage
  · exact (skipped_until_deleted _ afterSkip "six" "1.16.0").2.2 (hgiven.2.2.2 hversion) hkeptVersion

end WheelFarm.Ledger
