import Mathlib.Data.Finmap
import WheelFarm.Proofs.ByteOrder
import WheelFarm.Proofs.Ledger.Journal

/-! The catalog as a map of maps: under every package its skip reason and its versions, and under
every version its release and its skip reason. The operations on the catalog answer what they would
answer on that map, and the listings list it. -/
namespace WheelFarm.Ledger
open Text

/-- What the catalog says of a version. -/
structure VersionInfo where
  released : Int
  skip : Option String
  deriving DecidableEq

/-- What the catalog says of a package. -/
structure PackageInfo where
  skip : Option String
  versions : Std.ExtTreeMap String VersionInfo

abbrev CatalogMap := Std.ExtTreeMap String PackageInfo

def PackageInfo.toPackage (name : String) (p : PackageInfo) : Package := ⟨name, p.skip⟩

def VersionInfo.toVersion (package version : String) (v : VersionInfo) : Version :=
  ⟨package, version, v.released, v.skip⟩

/-- Whether an operation is one on the catalog. -/
def Operation.isOfCatalog : Operation → Bool
  | .addPackage .. | .addVersion .. | .skipPackage .. | .skipVersion .. | .deleteVersion ..
  | .deletePackage .. => true
  | .addAbi _ | .removeAbi _ | .commit _ | .forget .. | .setSerial _ => false

namespace CatalogMap

def package? (m : CatalogMap) (package : String) : Option Package :=
  m[package]?.map (PackageInfo.toPackage package)

def version? (m : CatalogMap) (package version : String) : Option Version :=
  m[package]?.bind fun p => p.versions[version]?.map (VersionInfo.toVersion package version)

/-- The map with other versions under a package. -/
def onVersions (m : CatalogMap) (package : String)
    (f : Std.ExtTreeMap String VersionInfo → Std.ExtTreeMap String VersionInfo) : CatalogMap :=
  m.modify package fun p => { p with versions := f p.versions }

/-- What an operation on the catalog answers, and the map after it. Other operations are not
answered by the map and leave it alone. -/
def step (m : CatalogMap) (now : Int) : Operation → Option (Except LedgerError Reply) × CatalogMap
  | .addPackage package skip =>
    if package ∈ m then (some (.ok (.changed false)), m)
    else (some (.ok (.changed true)), m.insert package ⟨skip, ∅⟩)
  | .addVersion package version released skip =>
    match m[package]? with
    | none => (some (.error (.packageNotFound package)), m)
    | some p =>
      if version ∈ p.versions then (some (.ok (.changed false)), m)
      else (some (.ok (.changed true)),
        m.onVersions package (·.insert version ⟨released.getD now, skip⟩))
  | .skipPackage package reason =>
    (some (.ok .done), m.modify package ({ · with skip := some reason }))
  | .skipVersion package version reason =>
    (some (.ok .done),
      m.onVersions package (·.modify version ({ · with skip := some reason })))
  | .deleteVersion package version =>
    (some (.ok (.changed (m.version? package version).isSome)),
      m.onVersions package (·.erase version))
  | .deletePackage package =>
    match m[package]? with
    | none => (some (.ok (.changed false)), m)
    | some p =>
      if p.versions.isEmpty then (some (.ok (.changed true)), m.erase package)
      else (some (.error (.packageInUse package)), m)
  | .addAbi _ | .removeAbi _ | .commit _ | .forget .. | .setSerial _ => (none, m)

/-- The map after a run. -/
def run (ops : List (Int × Operation)) : CatalogMap :=
  ops.foldl (fun m op => (m.step op.1 op.2).2) ∅

end CatalogMap

/-- A ledger whose catalog is the one that a map tells. -/
structure Refines (l : Ledger) (m : CatalogMap) : Prop where
  package : ∀ package, l.packages.find? package = m.package? package
  version : ∀ package version, l.versions.find? (package, version) = m.version? package version

/-- An operation that comes out on a ledger as it does on a map. -/
structure Matches (done : Except LedgerError Reply × Ledger)
    (told : Option (Except LedgerError Reply) × CatalogMap) : Prop where
  answer : told.1 = some done.1
  refines : Refines done.2 told.2

variable {l : Ledger} {m : CatalogMap} {now : Int}

section Lookups
open CatalogMap

lemma packages_has (h : Refines l m) (package : String) :
    l.packages.has package = m[package]?.isSome := by
  rw [Table.has_eq_isSome, h.package, package?, Option.isSome_map]

lemma versions_has (h : Refines l m) (package version : String) :
    l.versions.has (package, version) = (m.version? package version).isSome := by
  rw [Table.has_eq_isSome, h.version]

lemma package?_onVersions {package : String}
    (f : Std.ExtTreeMap String VersionInfo → Std.ExtTreeMap String VersionInfo) (q : String) :
    (m.onVersions package f).package? q = m.package? q := by
  rw [package?, package?, onVersions, Std.ExtTreeMap.getElem?_modify]
  split_ifs with hq
  · obtain rfl := Std.LawfulEqCmp.compare_eq_iff_eq.mp hq
    rw [Option.map_map]
    rfl
  · rfl

lemma version?_onVersions {package : String}
    (f : Std.ExtTreeMap String VersionInfo → Std.ExtTreeMap String VersionInfo) (q w : String) :
    (m.onVersions package f).version? q w = if package = q then
      m[q]?.bind fun p => (f p.versions)[w]?.map (VersionInfo.toVersion q w)
      else m.version? q w := by
  rw [version?, version?, onVersions, Std.ExtTreeMap.getElem?_modify]
  simp only [Std.LawfulEqCmp.compare_eq_iff_eq]
  split_ifs with hq
  · subst hq
    rw [Option.bind_map]
    rfl
  · rfl

lemma versions_any (h : Refines l m) (package : String) :
    (l.versions.rows.any fun v => v.package = package) =
      (m[package]?).any fun p => !p.versions.isEmpty := by
  have hrow : (l.versions.rows.any fun v => v.package = package) = true ↔
      ∃ version, (m.version? package version).isSome = true := by
    simp only [← versions_has h, Table.has_iff, List.any_eq_true, decide_eq_true_eq]
    constructor
    · rintro ⟨v, hv, rfl⟩
      exact ⟨v.version, v, hv, rfl⟩
    · rintro ⟨version, v, hv, hk⟩
      exact ⟨v, hv, congrArg Prod.fst hk⟩
  rw [Bool.eq_iff_iff, hrow]
  cases hm : m[package]? with
  | none => simp [version?, hm]
  | some p => simp [version?, hm, Std.ExtTreeMap.eq_empty_iff_forall_not_mem]

end Lookups

section Steps
open CatalogMap

lemma matches_addPackage (h : Refines l m) (package : String) (skip : Option String) :
    Matches (l.step now (.addPackage package skip)) (m.step now (.addPackage package skip)) := by
  change Matches (.ok (.changed (l.addPackage package skip).1), (l.addPackage package skip).2) _
  rw [addPackage_eq, packages_has h, CatalogMap.step]
  by_cases hm : package ∈ m
  · simpa [hm] using ⟨rfl, h⟩
  · have hnone : m[package]? = none := by simpa using hm
    simp only [hm, hnone, if_false, Option.isSome_none, Bool.false_eq_true]
    refine ⟨rfl, fun q => ?_, fun q w => ?_⟩
    · rw [Table.find?_put, h.package]
      by_cases hq : package = q <;>
        simp [package?, Std.ExtTreeMap.getElem?_insert, Keyed.key, PackageInfo.toPackage, hq]
    · rw [h.version]
      by_cases hq : package = q
      · subst hq
        simp [version?, hnone]
      · simp [version?, Std.ExtTreeMap.getElem?_insert, hq]

lemma matches_addVersion (h : Refines l m) (package version : String) (released : Option Int)
    (skip : Option String) :
    Matches (l.step now (.addVersion package version released skip))
      (m.step now (.addVersion package version released skip)) := by
  rw [Ledger.step, perform, addVersion_eq, packages_has h, versions_has h, CatalogMap.step,
    version?]
  cases hm : m[package]? with
  | none => exact ⟨rfl, h⟩
  | some p =>
    by_cases hv : version ∈ p.versions
    · simpa [hv, Except.map] using ⟨rfl, h⟩
    · simp only [Option.isSome_some, if_true, Option.bind_some, Option.isSome_map,
        Std.ExtTreeMap.isSome_getElem?_iff_mem, hv, if_false]
      refine ⟨rfl, fun q => ?_, fun q w => ?_⟩
      · rw [package?_onVersions]
        exact h.package q
      · change Table.find? (l.versions.put ⟨package, version, released.getD now, skip⟩) _ = _
        rw [version?_onVersions, Table.find?_put, h.version]
        by_cases hq : package = q
        · subst hq
          by_cases hw : version = w <;>
            simp [hm, hw, Keyed.key, version?, Std.ExtTreeMap.getElem?_insert,
              VersionInfo.toVersion]
        · simp [hq, Keyed.key]

lemma skipIf_toPackage (p : PackageInfo) (q package reason : String) :
    (p.toPackage q).skipIf package reason =
      (if q = package then { p with skip := some reason } else p).toPackage q := by
  rw [Package.skipIf, PackageInfo.toPackage]
  split_ifs <;> rfl

lemma skipIf_toVersion (v : VersionInfo) (q w package version reason : String) :
    (v.toVersion q w).skipIf package version reason =
      (if q = package ∧ w = version then { v with skip := some reason } else v).toVersion q w := by
  rw [Version.skipIf, VersionInfo.toVersion]
  split_ifs <;> rfl

lemma matches_skipPackage (h : Refines l m) (package reason : String) :
    Matches (l.step now (.skipPackage package reason))
      (m.step now (.skipPackage package reason)) := by
  have hrows (q : String) : (l.skipPackage package reason).packages.find? q =
      (m.package? q).map (·.skipIf package reason) := by
    rw [← h.package]
    exact Table.find?_map l.packages _ (Package.name_skipIf _ _) q
  refine ⟨rfl, fun q => (hrows q).trans ?_, fun q w => (h.version q w).trans ?_⟩
  · rw [CatalogMap.step, package?, package?, Std.ExtTreeMap.getElem?_modify, Option.map_map]
    by_cases hq : package = q
    · subst hq
      simp [skipIf_toPackage, Function.comp_def]
    · simp [skipIf_toPackage, Function.comp_def, hq, Ne.symm hq]
  · rw [CatalogMap.step, version?, version?, Std.ExtTreeMap.getElem?_modify]
    by_cases hq : package = q
    · subst hq
      simp [Option.bind_map]
    · simp [hq]

lemma matches_skipVersion (h : Refines l m) (package version reason : String) :
    Matches (l.step now (.skipVersion package version reason))
      (m.step now (.skipVersion package version reason)) := by
  have hrows (q w : String) : (l.skipVersion package version reason).versions.find? (q, w) =
      (m.version? q w).map (·.skipIf package version reason) := by
    rw [← h.version]
    exact Table.find?_map l.versions _ (Version.key_skipIf _ _ _) (q, w)
  refine ⟨rfl, fun q => (h.package q).trans ?_, fun q w => (hrows q w).trans ?_⟩
  · rw [CatalogMap.step, package?_onVersions]
  · rw [CatalogMap.step, version?_onVersions, version?, Option.map_bind]
    by_cases hq : package = q
    · subst hq
      cases m[package]? with
      | none => simp
      | some p =>
        by_cases hw : version = w
        · simp [skipIf_toVersion, Function.comp_def, hw]
        · simp [skipIf_toVersion, Function.comp_def, hw, Ne.symm hw,
            Std.ExtTreeMap.getElem?_modify]
    · simp [skipIf_toVersion, Function.comp_def, hq, Ne.symm hq]

lemma matches_deleteVersion (h : Refines l m) (package version : String) :
    Matches (l.step now (.deleteVersion package version))
      (m.step now (.deleteVersion package version)) := by
  have hrows (q w : String) : (l.dropVersion package version).versions.find? (q, w) =
      if package = q ∧ version = w then none else m.version? q w := by
    have hkept := Table.find?_filter l.versions
      (fun k => !decide (k.1 = package ∧ k.2 = version)) (q, w)
    refine hkept.trans ?_
    rw [h.version]
    by_cases hk : package = q ∧ version = w
    · simp [hk]
    · have hk' : ¬ (q = package ∧ w = version) := fun he => hk ⟨he.1.symm, he.2.symm⟩
      simp [hk, hk']
  have hanswer : (m.version? package version).isSome = l.versions.has (package, version) :=
    (versions_has h package version).symm
  refine ⟨?_, fun q => (h.package q).trans ?_, fun q w => (hrows q w).trans ?_⟩
  · rw [CatalogMap.step, hanswer]
    rfl
  · rw [CatalogMap.step, package?_onVersions]
  · rw [CatalogMap.step, version?_onVersions, version?]
    by_cases hq : package = q
    · subst hq
      by_cases hw : version = w <;> simp [hw, Std.ExtTreeMap.getElem?_erase]
    · simp [hq]

lemma matches_deletePackage (h : Refines l m) (package : String) :
    Matches (l.step now (.deletePackage package)) (m.step now (.deletePackage package)) := by
  have hrows (q : String) : (l.packages.filter (·.name ≠ package)).find? q =
      if package = q then none else m.package? q := by
    refine (Table.find?_filter l.packages (fun k => decide (k ≠ package)) q).trans ?_
    rw [h.package]
    by_cases hq : package = q
    · simp [hq]
    · simp [hq, Ne.symm hq]
  rw [Ledger.step, perform, deletePackage, CatalogMap.step, packages_has h, versions_any h]
  cases hm : m[package]? with
  | none =>
    refine ⟨rfl, fun q => (hrows q).trans ?_, h.version⟩
    by_cases hq : package = q
    · subst hq
      simp [package?, hm]
    · simp [hq]
  | some p =>
    by_cases hp : p.versions.isEmpty
    · simp only [Option.any_some, hp, Bool.not_true, Bool.false_eq_true, if_false, if_true]
      refine ⟨rfl, fun q => (hrows q).trans ?_, fun q w => (h.version q w).trans ?_⟩
      · by_cases hq : package = q <;> simp [package?, Std.ExtTreeMap.getElem?_erase, hq]
      · by_cases hq : package = q
        · subst hq
          have hnone : w ∉ p.versions :=
            Std.ExtTreeMap.eq_empty_iff_forall_not_mem.mp (Std.ExtTreeMap.isEmpty_iff.mp hp) w
          simp [version?, hm, hnone]
        · simp [version?, Std.ExtTreeMap.getElem?_erase, hq]
    · simp only [Option.any_some, hp, Bool.not_false, Bool.false_eq_true, if_false, if_true]
      exact ⟨rfl, h⟩

lemma catalog_step (hs : Sound l) (now : Int) {op : Operation} (hop : op.isOfCatalog = false) :
    (l.step now op).2.packages = l.packages ∧ (l.step now op).2.versions = l.versions := by
  rw [Ledger.step]
  split
  · next reply l' hp =>
    cases op with
    | addAbi abi =>
      obtain ⟨⟨done, l'⟩, hl, he⟩ := map_eq_ok hp
      cases he
      rw [addAbi_eq] at hl
      split_ifs at hl <;> cases hl <;> exact ⟨rfl, rfl⟩
    | removeAbi abi =>
      cases hp
      exact ⟨rfl, rfl⟩
    | commit report =>
      obtain ⟨⟨id, l'⟩, hl, he⟩ := map_eq_ok hp
      cases he
      obtain ⟨-, -, -, -, rfl⟩ := (commit_eq_ok_iff hs).mp hl
      exact ⟨recorded_packages, recorded_versions⟩
    | forget package version =>
      cases hp
      exact ⟨rfl, rfl⟩
    | setSerial serial =>
      obtain ⟨l', hl, he⟩ := map_eq_ok hp
      cases he
      rw [setSerial_eq hs.serial_stored] at hl
      split_ifs at hl
      cases hl
      exact ⟨rfl, rfl⟩
    | _ => cases hop
  · exact ⟨rfl, rfl⟩

lemma matches_step (h : Refines l m) (now : Int) {op : Operation} (hop : op.isOfCatalog = true) :
    Matches (l.step now op) (m.step now op) := by
  cases op with
  | addPackage package skip => exact matches_addPackage h package skip
  | addVersion package version released skip =>
    exact matches_addVersion h package version released skip
  | skipPackage package reason => exact matches_skipPackage h package reason
  | skipVersion package version reason => exact matches_skipVersion h package version reason
  | deleteVersion package version => exact matches_deleteVersion h package version
  | deletePackage package => exact matches_deletePackage h package
  | _ => cases hop

lemma step_of_other {op : Operation} (hop : op.isOfCatalog = false) :
    m.step now op = (none, m) := by
  cases op <;> first | rfl | cases hop

lemma refines_step (hs : Sound l) (h : Refines l m) (now : Int) (op : Operation) :
    Refines (l.step now op).2 (m.step now op).2 := by
  cases hop : op.isOfCatalog with
  | true => exact (matches_step h now hop).refines
  | false =>
    obtain ⟨hp, hv⟩ := catalog_step hs now hop
    rw [step_of_other hop]
    exact ⟨fun q => hp ▸ h.package q, fun q w => hv ▸ h.version q w⟩

theorem refines_run (ops : List (Int × Operation)) : Refines (Ledger.run {} ops) (.run ops) := by
  induction ops using List.reverseRecOn with
  | nil => exact ⟨fun _ => rfl, fun _ _ => rfl⟩
  | append_singleton ops op ih =>
    rw [run_concat, CatalogMap.run, List.foldl_concat]
    exact refines_step (sound_run sound_fresh ops) ih op.1 op.2

end Steps

section Releases

/-- The release of the version that an operation adds, if it adds one; else this moment. -/
def Operation.release (now : Int) : Operation → Int
  | .addVersion _ _ released _ => released.getD now
  | _ => now

/-- An operation made at a moment that has a date, with a release that has one. -/
def Dated (op : Int × Operation) : Prop :=
  Calendar.hasDate op.1 = true ∧ Calendar.hasDate (op.2.release op.1) = true

instance (op : Int × Operation) : Decidable (Dated op) := inferInstanceAs (Decidable (_ ∧ _))

lemma released_step (hs : Sound l) (now : Int) (op : Operation) {v : Version}
    (hv : v ∈ (l.step now op).2.versions) :
    (∃ w ∈ l.versions, w.released = v.released) ∨ v.released = op.release now := by
  cases hop : op.isOfCatalog with
  | false =>
    rw [(catalog_step hs now hop).2] at hv
    exact .inl ⟨v, hv, rfl⟩
  | true =>
    rw [Ledger.step] at hv
    split at hv
    · next reply l' hp =>
      cases op with
      | addPackage package skip =>
        cases hp
        change v ∈ (l.addPackage package skip).2.versions at hv
        rw [addPackage_eq] at hv
        split at hv <;> exact .inl ⟨v, hv, rfl⟩
      | addVersion package version released skip =>
        obtain ⟨⟨done, l'⟩, hl, he⟩ := map_eq_ok hp
        cases he
        rw [addVersion_eq] at hl
        split_ifs at hl
        · cases hl
          exact .inl ⟨v, hv, rfl⟩
        · cases hl
          rcases Table.mem_put.mp hv with rfl | ⟨hv, -⟩
          · exact .inr rfl
          · exact .inl ⟨v, hv, rfl⟩
      | skipPackage package reason =>
        cases hp
        exact .inl ⟨v, hv, rfl⟩
      | skipVersion package version reason =>
        cases hp
        obtain ⟨w, hw, rfl⟩ := mem_versions_skipVersion.mp hv
        refine .inl ⟨w, hw, ?_⟩
        rw [Version.skipIf]
        split <;> rfl
      | deleteVersion package version =>
        cases hp
        exact .inl ⟨v, (Table.mem_filter.mp hv).1, rfl⟩
      | deletePackage package =>
        obtain ⟨⟨done, l'⟩, hl, he⟩ := map_eq_ok hp
        cases he
        rw [deletePackage] at hl
        split_ifs at hl
        cases hl
        exact .inl ⟨v, hv, rfl⟩
      | _ => cases hop
    · exact .inl ⟨v, hv, rfl⟩

/-- After a run of dated operations all versions have release dates. -/
theorem released_run {ops : List (Int × Operation)} (hdated : ∀ op ∈ ops, Dated op) :
    ∀ v ∈ (Ledger.run {} ops).versions, Calendar.hasDate v.released = true := by
  induction ops using List.reverseRecOn with
  | nil => exact fun v hv => absurd hv (Table.not_mem_empty v)
  | append_singleton ops op ih =>
    intro v hv
    rw [run_concat] at hv
    rcases released_step (sound_run sound_fresh ops) op.1 op.2 hv with ⟨w, hw, he⟩ | he
    · exact he ▸ ih (fun o ho => hdated o (List.mem_append_left _ ho)) w hw
    · exact he ▸ (hdated op (List.mem_append_right _ List.mem_cons_self)).2

end Releases

section Listings

/-- Whether a version comes before another one, by release and then by name. -/
def Version.Before (a b : Version) : Prop :=
  a.released < b.released ∨ (a.released = b.released ∧ bytes a.version < bytes b.version)

/-- A list of the packages of a map, in the order of their names. -/
structure CatalogMap.ListsPackages (m : CatalogMap) (ps : List Package) : Prop where
  ordered : ps.Pairwise fun a b => bytes a.name < bytes b.name
  listed : ∀ p, p ∈ ps ↔ m.package? p.name = some p

/-- A list of the versions that a map has under a package, oldest release first. -/
structure CatalogMap.ListsVersions (m : CatalogMap) (package : String) (vs : List Version) :
    Prop where
  ordered : vs.Pairwise Version.Before
  listed : ∀ v, v ∈ vs ↔ v.package = package ∧ m.version? package v.version = some v

lemma listsPackages (h : Refines l m) : m.ListsPackages l.packages.rows where
  ordered := l.packages.ordered.imp bytes_lt_iff.mpr
  listed p := by
    rw [← h.package, Table.find?_eq_some_iff, Table.mem_rows]
    exact (and_iff_left rfl).symm

lemma Version.le_iff {a b : Version} : a.le b = true ↔
    a.released < b.released ∨ (a.released = b.released ∧ a.version ≤ b.version) := by
  simp [Version.le]

lemma Version.le_trans (a b c : Version) (hab : a.le b = true) (hbc : b.le c = true) :
    a.le c = true := by
  rw [le_iff] at hab hbc ⊢
  rcases hab with hab | ⟨hab, hv⟩ <;> rcases hbc with hbc | ⟨hbc, hw⟩
  · exact .inl (hab.trans hbc)
  · exact .inl (hbc ▸ hab)
  · exact .inl (hab ▸ hbc)
  · exact .inr ⟨hab.trans hbc, String.le_trans hv hw⟩

lemma Version.le_total (a b : Version) : (a.le b || b.le a) = true := by
  rw [Bool.or_eq_true, le_iff, le_iff]
  rcases Int.lt_trichotomy a.released b.released with h | h | h
  · exact .inl (.inl h)
  · rcases String.le_total a.version b.version with hv | hv
    · exact .inl (.inr ⟨h, hv⟩)
    · exact .inr (.inr ⟨h.symm, hv⟩)
  · exact .inr (.inl h)

lemma before_of_le {a b : Version} (ha : a ∈ l.versions) (hb : b ∈ l.versions)
    (hp : a.package = b.package) (hne : a ≠ b) (h : a.le b = true) : a.Before b := by
  rcases Version.le_iff.mp h with h | ⟨h, hv⟩
  · exact .inl h
  -- Of one release, the versions differ by name, for the catalog holds a version once.
  · refine .inr ⟨h, bytes_lt_iff.mpr (Std.lt_of_le_of_ne hv fun he => hne ?_)⟩
    exact Table.eq_of_key_eq ha hb (Prod.ext hp he)

/-- The versions of a package, oldest release first. -/
def sortedVersions (l : Ledger) (package : String) : List Version :=
  (l.versions.rows.filter fun v => v.package = package).mergeSort Version.le

lemma mem_sortedVersions {package : String} {v : Version} :
    v ∈ l.sortedVersions package ↔ v ∈ l.versions ∧ v.package = package := by
  rw [sortedVersions, List.mem_mergeSort, List.mem_filter, decide_eq_true_eq, Table.mem_rows]

lemma sortedVersions_perm (l : Ledger) (package : String) :
    (l.sortedVersions package).Perm (l.versions.rows.filter fun v => v.package = package) :=
  List.mergeSort_perm _ _

lemma versionsOf_eq (hdates : ∀ v ∈ l.versions, Calendar.hasDate v.released = true)
    (package : String) : l.versionsOf package = .ok (l.sortedVersions package) := by
  have hall : (l.sortedVersions package).all (fun v => Calendar.hasDate v.released) = true :=
    List.all_eq_true.mpr fun v hv => hdates v (mem_sortedVersions.mp hv).1
  exact if_pos hall

lemma listsVersions (h : Refines l m) (package : String) :
    m.ListsVersions package (l.sortedVersions package) where
  ordered := by
    have hnodup : (l.sortedVersions package).Nodup :=
      (l.sortedVersions_perm package).nodup_iff.mpr (l.versions.rows_nodup.filter _)
    have hle := List.pairwise_mergeSort Version.le_trans Version.le_total
      (l.versions.rows.filter fun v => v.package = package)
    refine (hle.and hnodup).imp_of_mem fun ha hb hab => ?_
    obtain ⟨ha, hap⟩ := mem_sortedVersions.mp ha
    obtain ⟨hb, hbp⟩ := mem_sortedVersions.mp hb
    exact before_of_le ha hb (hap.trans hbp.symm) hab.2 hab.1
  listed v := by
    rw [mem_sortedVersions, ← h.version, Table.find?_eq_some_iff]
    constructor
    · rintro ⟨hv, rfl⟩
      exact ⟨rfl, hv, rfl⟩
    · rintro ⟨hp, hv, -⟩
      exact ⟨hv, hp⟩

end Listings

lemma step_of_error {op : Operation} {e : LedgerError} (h : (m.step now op).1 = some (.error e)) :
    (m.step now op).2 = m := by
  cases op with
  | addPackage package skip =>
    rw [CatalogMap.step] at h
    split_ifs at h <;> cases h
  | addVersion package version released skip =>
    rw [CatalogMap.step] at h ⊢
    cases hm : m[package]? with
    | none => rfl
    | some p =>
      rw [hm] at h
      dsimp only at h
      split_ifs at h <;> cases h
  | deletePackage package =>
    rw [CatalogMap.step] at h ⊢
    cases hm : m[package]? with
    | none => rfl
    | some p =>
      rw [hm] at h
      dsimp only at h ⊢
      split_ifs at h ⊢ with hp
      · cases h
      · rfl
  | _ => cases h

lemma ledger_of_error {op : Operation} {e : LedgerError} (h : (l.step now op).1 = .error e) :
    (l.step now op).2 = l := by
  rw [Ledger.step] at h ⊢
  split at h
  · cases h
  · rfl

/-- After every run the catalog is a map from packages to their skip reasons and versions. An
operation on it answers what it answers on the map, other operations and those that fail change
neither, and the listings list the map, the versions where all moments and releases have dates, as
they do on a clock and in a calendar. -/
theorem catalog_refines_map (ops : List (Int × Operation)) :
    (∀ now op, op.isOfCatalog = true →
        ((CatalogMap.run ops).step now op).1 = some ((Ledger.run {} ops).step now op).1) ∧
      (∀ now op, (op.isOfCatalog = false ∨ ∃ e, ((Ledger.run {} ops).step now op).1 = .error e) →
        ((CatalogMap.run ops).step now op).2 = .run ops ∧
          ((Ledger.run {} ops).step now op).2.packages = (Ledger.run {} ops).packages ∧
          ((Ledger.run {} ops).step now op).2.versions = (Ledger.run {} ops).versions) ∧
      (CatalogMap.run ops).ListsPackages (Ledger.run {} ops).packages.rows ∧
      ((∀ op ∈ ops, Dated op) → ∀ package, ∃ vs,
        (Ledger.run {} ops).versionsOf package = .ok vs ∧
          (CatalogMap.run ops).ListsVersions package vs) := by
  have h := refines_run ops
  refine ⟨fun now op hop => (matches_step h now hop).answer, ?_, listsPackages h, ?_⟩
  · intro now op hop
    cases hcat : op.isOfCatalog with
    | false => exact ⟨by rw [step_of_other hcat], catalog_step (sound_run sound_fresh ops) now hcat⟩
    | true =>
      obtain ⟨e, he⟩ := hop.resolve_left (by simp [hcat])
      refine ⟨step_of_error ((matches_step h now hcat).answer.trans (congrArg some he)), ?_⟩
      rw [ledger_of_error he]
      exact ⟨rfl, rfl⟩
  · intro hdated package
    exact ⟨_, versionsOf_eq (released_run hdated) package, listsVersions h package⟩

/-- A version is dropped and added again with an earlier release. -/
def releaseRun : List (Int × Operation) :=
  [(10, .addPackage "six" none), (20, .addVersion "six" "1.16.0" none none),
    (30, .addVersion "six" "1.15.0" none (some "old")), (40, .deleteVersion "six" "1.16.0"),
    (50, .addVersion "six" "1.16.0" (some 5) none), (60, .addVersion "six" "1.16.0" none none)]

theorem catalog_of_releaseRun : (∀ op ∈ releaseRun, Dated op) ∧
    ((CatalogMap.run releaseRun).step 70 (.deletePackage "six")).1 =
      some (.error (.packageInUse "six")) ∧
    (CatalogMap.run releaseRun).ListsVersions "six"
      [⟨"six", "1.16.0", 5, none⟩, ⟨"six", "1.15.0", 30, some "old"⟩] := by
  have hdated : ∀ op ∈ releaseRun, Dated op := by decide
  obtain ⟨hanswer, -, -, hlist⟩ := catalog_refines_map releaseRun
  obtain ⟨vs, hvs, hlists⟩ := hlist hdated "six"
  have hrows : ((Ledger.run {} releaseRun).versions.rows.filter fun v => v.package = "six") =
      [⟨"six", "1.15.0", 30, some "old"⟩, ⟨"six", "1.16.0", 5, none⟩] := by
    decide +kernel
  have hrun : (Ledger.run {} releaseRun).versionsOf "six" =
      .ok [⟨"six", "1.16.0", 5, none⟩, ⟨"six", "1.15.0", 30, some "old"⟩] := by
    rw [versionsOf_eq (released_run hdated), sortedVersions, hrows, List.mergeSort]
    simp [List.MergeSort.Internal.splitInTwo, Version.le]
  cases hvs.symm.trans hrun
  refine ⟨hdated, (hanswer 70 _ rfl).trans ?_, hlists⟩
  exact congrArg some (by decide +kernel)

end WheelFarm.Ledger
