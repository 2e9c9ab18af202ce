import Mathlib.Algebra.BigOperators.Ring.List
import Mathlib.Algebra.Ring.Nat
import WheelFarm.Proofs.Ledger.BuildHistory
import WheelFarm.Proofs.Ledger.CatalogMap
import WheelFarm.Proofs.Ledger.Ownership
import WheelFarm.Proofs.Ledger.Renumbering

/-! The statistics as a summary of the listings. Listing every package with its versions, their
builds and its files meets every row once, so that the statistics count what the listings show. -/
namespace WheelFarm
open Wheel

namespace Ledger

/-- A version with the builds that are listed for it. -/
structure ListedVersion where
  version : Version
  builds : List Build

/-- A package with the versions and the files that are listed for it. -/
structure ListedPackage where
  package : Package
  versions : List ListedVersion
  files : List FileRecord

def listVersion (l : Ledger) (v : Version) : Except LedgerError ListedVersion := do
  return ⟨v, ← l.buildsOf v.package v.version⟩

def listPackage (l : Ledger) (p : Package) : Except LedgerError ListedPackage := do
  let versions ← l.versionsOf p.name
  return ⟨p, ← versions.mapM l.listVersion, ← l.filesOfPackage p.name⟩

/-- What the listings tell of all packages, or why one of them fails. -/
def listing (l : Ledger) : Except LedgerError (List ListedPackage) :=
  l.packages.rows.mapM l.listPackage

section Totals
variable (ps : List ListedPackage)

def listedVersions : List ListedVersion := ps.flatMap (·.versions)

def listedBuilds : List Build := (listedVersions ps).flatMap (·.builds)

def listedFiles : List FileRecord := ps.flatMap (·.files)

/-- The milliseconds that all builds took. -/
def listedTime : Nat := ((listedBuilds ps).map (·.duration.milliseconds)).sum

def listedSize : Nat := ((listedFiles ps).map (·.file.size.toNat)).sum

end Totals

/-- The statistics of what is listed. -/
structure Statistics.Summarizes (s : Statistics) (now : Int) (ps : List ListedPackage) : Prop where
  packages : s.packages = ps.countP (·.package.skip.isNone)
  packagesBuilt : s.packagesBuilt = ps.countP (!·.files.isEmpty)
  versions : s.versions =
    (listedVersions (ps.filter (·.package.skip.isNone))).countP (·.version.skip.isNone)
  versionsBuilt : s.versionsBuilt = (listedVersions ps).countP (!·.builds.isEmpty)
  builds : s.builds = (listedBuilds ps).length
  buildsLastHour : s.buildsLastHour = (listedBuilds ps).countP (now - ·.builtAt < 3600)
  buildsSuccessful : s.buildsSuccessful = (listedBuilds ps).countP (·.success)
  time : s.time.nanoseconds = ((listedBuilds ps).map (·.duration.nanoseconds)).sum
  files : s.files = (listedFiles ps).length
  size : s.size.toNat = listedSize ps

section Groups

lemma flatMap_filter_perm {κ α : Type} {keys : List κ} {xs : List α} {p : κ → α → Bool}
    (hkeys : keys.Nodup) (hxs : xs.Nodup)
    (hone : ∀ x ∈ xs, ∀ j ∈ keys, ∀ k ∈ keys, p j x = true → p k x = true → j = k) :
    (keys.flatMap fun k => xs.filter (p k)).Perm (xs.filter fun x => keys.any (p · x)) := by
  have hnodup : (keys.flatMap fun k => xs.filter (p k)).Nodup := by
    refine List.nodup_flatMap.mpr ⟨fun k _ => hxs.filter _, hkeys.imp_of_mem ?_⟩
    intro j k hj hk hne x hxj hxk
    obtain ⟨hx, hpj⟩ := List.mem_filter.mp hxj
    exact hne (hone x hx j hj k hk hpj (List.mem_filter.mp hxk).2)
  refine (List.perm_ext_iff_of_nodup hnodup (hxs.filter _)).mpr fun x => ?_
  rw [List.mem_flatMap, List.mem_filter, List.any_eq_true]
  constructor
  · rintro ⟨k, hk, hx⟩
    obtain ⟨hx, hp⟩ := List.mem_filter.mp hx
    exact ⟨hx, k, hk, hp⟩
  · rintro ⟨hx, k, hk, hp⟩
    exact ⟨k, hk, List.mem_filter.mpr ⟨hx, hp⟩⟩

lemma flatMap_filter_perm_self {κ α : Type} {keys : List κ} {xs : List α} {p : κ → α → Bool}
    (hkeys : keys.Nodup) (hxs : xs.Nodup)
    (hone : ∀ x ∈ xs, ∀ j ∈ keys, ∀ k ∈ keys, p j x = true → p k x = true → j = k)
    (hsome : ∀ x ∈ xs, ∃ k ∈ keys, p k x = true) :
    (keys.flatMap fun k => xs.filter (p k)).Perm xs := by
  have hall : xs.filter (fun x => keys.any (p · x)) = xs :=
    List.filter_eq_self.mpr fun x hx => List.any_eq_true.mpr (hsome x hx)
  have hperm := flatMap_filter_perm hkeys hxs hone
  rwa [hall] at hperm

lemma length_eraseDups_eq_countP {κ α : Type} [BEq α] [LawfulBEq α] {f : κ → α} {keys : List κ}
    {xs : List α} {p : κ → Bool} (hkeys : (keys.map f).Nodup) (hcover : ∀ x ∈ xs, x ∈ keys.map f)
    (hp : ∀ k ∈ keys, p k = true ↔ f k ∈ xs) : xs.eraseDups.length = keys.countP p := by
  have hperm : xs.eraseDups.Perm ((keys.filter p).map f) := by
    have hnodup : ((keys.filter p).map f).Nodup := hkeys.sublist (List.filter_sublist.map f)
    refine (List.perm_ext_iff_of_nodup (nodup_eraseDups xs) hnodup).mpr fun x => ?_
    rw [List.mem_eraseDups, List.mem_map]
    constructor
    · intro hx
      obtain ⟨k, hk, rfl⟩ := List.mem_map.mp (hcover x hx)
      exact ⟨k, List.mem_filter.mpr ⟨hk, (hp k hk).mpr hx⟩, rfl⟩
    · rintro ⟨k, hk, rfl⟩
      obtain ⟨hk, hpk⟩ := List.mem_filter.mp hk
      exact (hp k hk).mp hpk
  rw [hperm.length_eq, List.length_map, List.countP_eq_length_filter]

end Groups

lemma storedSum_eq {α : Type} {f : α → Int} {g : α → Nat} {xs : List α}
    (h : ∀ x ∈ xs, f x = g x) : storedSum (xs.map f) =
      if ((xs.map g).sum : Int) ≤ maxStored then .ok (.ofNat (xs.map g).sum)
      else .error .storage := by
  have htotal (n : Int) : (xs.map f).foldl (· + ·) n = n + (xs.map g).sum := by
    induction xs generalizing n with
    | nil => simp
    | cons x xs ih =>
      obtain ⟨hx, hxs⟩ := List.forall_mem_cons.mp h
      rw [List.map_cons, List.foldl_cons, ih hxs, hx, List.map_cons, List.sum_cons, Int.natCast_add,
        Int.add_assoc]
  rw [storedSum, htotal, Int.zero_add, Int.toNat_natCast]

variable {l : Ledger}

/-- What is listed of a version whose builds can be read. -/
def listedVersion (l : Ledger) (v : Version) : ListedVersion :=
  ⟨v, (l.buildRows v.package v.version).map BuildRow.toBuild⟩

/-- What is listed of a package whose versions and builds can be read. -/
def listedPackage (l : Ledger) (p : Package) : ListedPackage where
  package := p
  versions := (l.sortedVersions p.name).map l.listedVersion
  files := (l.files.rows.filter fun f =>
    l.builds.rows.any fun b => b.id = f.build ∧ b.package = p.name).map l.recordOf

/-- Where all releases and builds have dates, everything is listed. -/
theorem listing_eq (h : Sound l)
    (hreleases : ∀ v ∈ l.versions, Calendar.hasDate v.released = true)
    (hbuilds : ∀ b ∈ l.builds, Calendar.hasDate b.builtAt = true) :
    l.listing = .ok (l.packages.rows.map l.listedPackage) := by
  refine mapM_eq_ok fun p _ => ?_
  have hversion (v : Version) : l.listVersion v = .ok (l.listedVersion v) := by
    rw [listVersion, buildsOf_eq h, if_pos]
    · rfl
    · exact List.all_eq_true.mpr fun b hb => hbuilds b (mem_buildRows.mp hb).1
  rw [listPackage, versionsOf_eq hreleases, filesOfPackage, filesWhere_eq h]
  simp only [bind, Except.bind, pure, Except.pure]
  rw [mapM_eq_ok fun v _ => hversion v]
  rfl

section Listed
variable (h : Sound l)

lemma listedVersions_perm {keys : List Package} (hkeys : keys.Sublist l.packages.rows) :
    (listedVersions (keys.map l.listedPackage)).Perm
      ((l.versions.rows.filter fun v => keys.any fun p => v.package = p.name).map
        l.listedVersion) := by
  have hsorted : (listedVersions (keys.map l.listedPackage)).Perm
      ((keys.flatMap fun p => l.versions.rows.filter fun v => v.package = p.name).map
        l.listedVersion) := by
    rw [listedVersions, List.flatMap_map, List.map_flatMap]
    exact List.Perm.flatMap_left _ fun p _ => (l.sortedVersions_perm p.name).map _
  have hgroups : (keys.flatMap fun p => l.versions.rows.filter fun v => v.package = p.name).Perm
      (l.versions.rows.filter fun v => keys.any fun p => v.package = p.name) := by
    refine flatMap_filter_perm (l.packages.rows_nodup.sublist hkeys) l.versions.rows_nodup ?_
    intro v _ p hp q hq hvp hvq
    have hname : p.name = q.name := (of_decide_eq_true hvp).symm.trans (of_decide_eq_true hvq)
    exact Table.eq_of_key_eq (hkeys.subset hp) (hkeys.subset hq) hname
  exact hsorted.trans (hgroups.map _)

lemma all_listedVersions_perm (h : Sound l) :
    (listedVersions (l.packages.rows.map l.listedPackage)).Perm
      (l.versions.rows.map l.listedVersion) := by
  have hall : (l.versions.rows.filter fun v => l.packages.rows.any fun p => v.package = p.name) =
      l.versions.rows := by
    refine List.filter_eq_self.mpr fun v hv => ?_
    obtain ⟨p, hp, hn⟩ := h.package_of_version v hv
    exact List.any_eq_true.mpr ⟨p, hp, decide_eq_true hn.symm⟩
  have hperm := listedVersions_perm (List.Sublist.refl l.packages.rows)
  rwa [hall] at hperm

lemma listedBuilds_perm (h : Sound l) :
    (listedBuilds (l.packages.rows.map l.listedPackage)).Perm
      (l.builds.rows.map BuildRow.toBuild) := by
  have hgroups : (l.versions.rows.flatMap fun v => l.buildRows v.package v.version).Perm
      l.builds.rows := by
    apply flatMap_filter_perm_self l.versions.rows_nodup l.builds.rows_nodup
    · intro b _ v hv w hw hbv hbw
      obtain ⟨hp, hn⟩ := of_decide_eq_true hbv
      obtain ⟨hp', hn'⟩ := of_decide_eq_true hbw
      exact Table.eq_of_key_eq hv hw (Prod.ext (hp.symm.trans hp') (hn.symm.trans hn'))
    · intro b hb
      obtain ⟨v, hv, hp, hn⟩ := h.version_of_build b hb
      exact ⟨v, hv, decide_eq_true ⟨hp.symm, hn.symm⟩⟩
  have hrows := hgroups.map BuildRow.toBuild
  rw [List.map_flatMap] at hrows
  refine ((all_listedVersions_perm h).flatMap_right _).trans ?_
  rw [List.flatMap_map]
  exact hrows

lemma listedFiles_perm (h : Sound l) :
    (listedFiles (l.packages.rows.map l.listedPackage)).Perm (l.files.rows.map l.recordOf) := by
  have hgroups : (l.packages.rows.flatMap fun p => l.files.rows.filter fun f =>
      l.builds.rows.any fun b => b.id = f.build ∧ b.package = p.name).Perm l.files.rows := by
    apply flatMap_filter_perm_self l.packages.rows_nodup l.files.rows_nodup
    · intro f _ p hp q hq hfp hfq
      obtain ⟨b, hb, hbp⟩ := List.any_eq_true.mp hfp
      obtain ⟨c, hc, hcq⟩ := List.any_eq_true.mp hfq
      obtain ⟨hbf, hbp⟩ := of_decide_eq_true hbp
      obtain ⟨hcf, hcq⟩ := of_decide_eq_true hcq
      obtain rfl : b = c := Table.eq_of_key_eq hb hc (hbf.trans hcf.symm)
      exact Table.eq_of_key_eq hp hq (hbp.symm.trans hcq)
    · intro f hf
      obtain ⟨b, hb, hbf⟩ := h.build_of_file f hf
      obtain ⟨v, hv, hvp, -⟩ := h.version_of_build b hb
      obtain ⟨p, hp, hpv⟩ := h.package_of_version v hv
      refine ⟨p, hp, List.any_eq_true.mpr ⟨b, hb, ?_⟩⟩
      exact decide_eq_true ⟨hbf, hvp.symm.trans hpv.symm⟩
  have hrows := hgroups.map l.recordOf
  rw [List.map_flatMap] at hrows
  rw [listedFiles, List.flatMap_map]
  exact hrows

end Listed

section Counts

lemma count_packages (l : Ledger) : l.packages.rows.countP (·.skip.isNone) =
    (l.packages.rows.map l.listedPackage).countP (·.package.skip.isNone) := by
  rw [List.countP_map]
  rfl

lemma mem_owners {b : BuildRow} : b ∈ l.owners ↔ b ∈ l.builds ∧ ∃ f ∈ l.files, f.build = b.id := by
  rw [owners, List.mem_filter, Table.mem_rows, Bool.not_eq_true', ← Bool.not_eq_true,
    List.isEmpty_iff, owned_eq_nil_iff, Bare]
  simp

lemma count_packagesBuilt (h : Sound l) : (l.owners.map (·.package)).eraseDups.length =
    (l.packages.rows.map l.listedPackage).countP (!·.files.isEmpty) := by
  rw [List.countP_map]
  apply length_eraseDups_eq_countP (f := Package.name) l.packages.keys_nodup
  · intro package hmem
    obtain ⟨b, hb, rfl⟩ := List.mem_map.mp hmem
    obtain ⟨v, hv, hvp, -⟩ := h.version_of_build b (mem_owners.mp hb).1
    obtain ⟨p, hp, hpv⟩ := h.package_of_version v hv
    exact List.mem_map.mpr ⟨p, hp, hpv.trans hvp⟩
  · intro p _
    rw [List.mem_map]
    simp only [Function.comp_apply, listedPackage, List.isEmpty_map, Bool.not_eq_true',
      List.isEmpty_eq_false_iff_exists_mem, List.mem_filter, List.any_eq_true, decide_eq_true_eq,
      Table.mem_rows, mem_owners]
    constructor
    · rintro ⟨f, hf, b, hb, he, hp⟩
      exact ⟨b, ⟨hb, f, hf, he.symm⟩, hp⟩
    · rintro ⟨b, ⟨hb, f, hf, he⟩, hp⟩
      exact ⟨f, hf, b, hb, he.symm, hp⟩

lemma count_versions (l : Ledger) : l.versions.rows.countP l.isOpen =
    (listedVersions ((l.packages.rows.map l.listedPackage).filter
      (·.package.skip.isNone))).countP (·.version.skip.isNone) := by
  have hopen : (l.packages.rows.map l.listedPackage).filter (·.package.skip.isNone) =
      (l.packages.rows.filter (·.skip.isNone)).map l.listedPackage := List.filter_map
  rw [hopen, (listedVersions_perm List.filter_sublist).countP_eq, List.countP_map,
    List.countP_filter]
  refine List.countP_congr fun v _ => ?_
  simp only [isOpen, Function.comp_apply, listedVersion, List.any_filter, Bool.and_eq_true,
    List.any_eq_true, decide_eq_true_eq]
  grind

lemma count_versionsBuilt (h : Sound l) :
    (l.builds.rows.map fun b => (b.package, b.version)).eraseDups.length =
      (listedVersions (l.packages.rows.map l.listedPackage)).countP (!·.builds.isEmpty) := by
  rw [(all_listedVersions_perm h).countP_eq, List.countP_map]
  apply length_eraseDups_eq_countP (f := fun v : Version => (v.package, v.version))
    l.versions.keys_nodup
  · intro k hmem
    obtain ⟨b, hb, rfl⟩ := List.mem_map.mp hmem
    obtain ⟨v, hv, hp, hn⟩ := h.version_of_build b hb
    exact List.mem_map.mpr ⟨v, hv, Prod.ext hp hn⟩
  · intro v _
    rw [List.mem_map]
    simp only [Function.comp_apply, listedVersion, List.isEmpty_map, Bool.not_eq_true',
      List.isEmpty_eq_false_iff_exists_mem, mem_buildRows, Prod.mk.injEq, Table.mem_rows]

end Counts

/-- Whether a total of what is listed is too large to be stored. -/
def Overflows (ps : List ListedPackage) : Prop :=
  maxStored < listedTime ps ∨ maxStored < listedSize ps

lemma nanoseconds_ofMilliseconds (ms : UInt64) :
    (Duration.ofMilliseconds ms).nanoseconds = ms.toNat * 1000000 := rfl

lemma milliseconds_ofMilliseconds (ms : UInt64) :
    (Duration.ofMilliseconds ms).milliseconds = ms.toNat := by
  rw [Duration.milliseconds, nanoseconds_ofMilliseconds, Nat.mul_div_cancel _ (by decide)]

lemma nanoseconds_toBuild (b : BuildRow) :
    b.toBuild.duration.nanoseconds = b.toBuild.duration.milliseconds * 1000000 := by
  have hd : b.toBuild.duration = .ofMilliseconds (.ofNat b.milliseconds.toNat) := rfl
  rw [hd, nanoseconds_ofMilliseconds, milliseconds_ofMilliseconds]

lemma milliseconds_toBuild {b : BuildRow} (hb : Stored b.milliseconds) :
    b.milliseconds = b.toBuild.duration.milliseconds := by
  have hd : b.toBuild.duration = .ofMilliseconds (.ofNat b.milliseconds.toNat) := rfl
  rw [hd, milliseconds_ofMilliseconds, toNat_toNat_of_stored hb]

lemma size_recordOf {f : FileRow} (hf : Stored f.size) :
    f.size = (l.recordOf f).file.size.toNat := (toNat_toNat_of_stored hf).symm

section Sums
variable (h : Sound l)
include h

lemma listedTime_eq : listedTime (l.packages.rows.map l.listedPackage) =
    (l.builds.rows.map fun b => b.toBuild.duration.milliseconds).sum := by
  rw [listedTime, ((listedBuilds_perm h).map _).sum_eq, List.map_map]
  rfl

lemma storedSum_time : storedSum (l.builds.rows.map (·.milliseconds)) =
    if (listedTime (l.packages.rows.map l.listedPackage) : Int) ≤ maxStored
    then .ok (.ofNat (listedTime (l.packages.rows.map l.listedPackage))) else .error .storage := by
  rw [listedTime_eq h]
  exact storedSum_eq fun b hb => milliseconds_toBuild (h.build_stored b hb).2

lemma storedSum_size : storedSum (l.files.rows.map (·.size)) =
    if (listedSize (l.packages.rows.map l.listedPackage) : Int) ≤ maxStored
    then .ok (.ofNat (listedSize (l.packages.rows.map l.listedPackage))) else .error .storage := by
  have hsum : listedSize (l.packages.rows.map l.listedPackage) =
      (l.files.rows.map fun f => (l.recordOf f).file.size.toNat).sum := by
    rw [listedSize, ((listedFiles_perm h).map _).sum_eq, List.map_map]
    rfl
  rw [hsum]
  exact storedSum_eq fun f hf => size_recordOf (h.size_stored f hf)

lemma sum_nanoseconds : ((listedBuilds (l.packages.rows.map l.listedPackage)).map
    (·.duration.nanoseconds)).sum = listedTime (l.packages.rows.map l.listedPackage) * 1000000 := by
  have hmap : (l.builds.rows.map BuildRow.toBuild).map (·.duration.nanoseconds) =
      l.builds.rows.map fun b => b.toBuild.duration.milliseconds * 1000000 := by
    rw [List.map_map]
    exact List.map_congr_left fun b _ => nanoseconds_toBuild b
  rw [((listedBuilds_perm h).map _).sum_eq, hmap, List.sum_map_mul_right, listedTime_eq h]

lemma statistics_of_overflow (now : Int)
    (ho : Overflows (l.packages.rows.map l.listedPackage)) :
    l.statistics now = .error .storage := by
  rw [statistics, storedSum_time h, storedSum_size h]
  rcases ho with ho | ho
  · rw [if_neg (Int.not_le.mpr ho)]
    rfl
  · rw [if_neg (Int.not_le.mpr ho)]
    split <;> rfl

lemma statistics_of_fits (now : Int)
    (ho : ¬ Overflows (l.packages.rows.map l.listedPackage)) :
    ∃ s, l.statistics now = .ok s ∧ s.Summarizes now (l.packages.rows.map l.listedPackage) := by
  obtain ⟨htime, hsize⟩ := not_or.mp ho
  rw [statistics, storedSum_time h, storedSum_size h, if_pos (Int.not_lt.mp htime),
    if_pos (Int.not_lt.mp hsize)]
  refine ⟨_, rfl, ?_⟩
  have hbuilds := listedBuilds_perm h
  constructor
  case packages => exact count_packages l
  case packagesBuilt => exact count_packagesBuilt h
  case versions => exact count_versions l
  case versionsBuilt => exact count_versionsBuilt h
  case builds => rw [hbuilds.length_eq, List.length_map]
  case buildsLastHour =>
    rw [hbuilds.countP_eq, List.countP_map]
    refine List.countP_congr fun b _ => ?_
    change decide (now - 3600 < b.builtAt) = true ↔ decide (now - b.builtAt < 3600) = true
    rw [decide_eq_true_eq, decide_eq_true_eq]
    omega
  case buildsSuccessful =>
    rw [hbuilds.countP_eq, List.countP_map]
    rfl
  case time =>
    rw [sum_nanoseconds h, nanoseconds_ofMilliseconds,
      toNat_ofNat_of_stored (Int.not_lt.mp htime)]
  case files => rw [(listedFiles_perm h).length_eq, List.length_map]
  case size => exact toNat_ofNat_of_stored (Int.not_lt.mp hsize)

end Sums

lemma dated_builds {ops : List (Int × Operation)} (hdated : ∀ op ∈ ops, Dated op) :
    ∀ b ∈ (run {} ops).builds, Calendar.hasDate b.builtAt = true := by
  intro b hb
  obtain ⟨c, hc, rfl⟩ := (reached_run ops).mem_builds.mp hb
  exact hasDate_commit (fun op hop => (hdated op hop).1) c hc.mem_commits

/-- After every run of dated operations everything is listed, and whatever the clock shows, the
statistics are those of what is listed. They fail if and only if the builds took more milliseconds
or the wheels have more bytes than can be stored, and it is storage that fails then. -/
theorem statistics_summarize (ops : List (Int × Operation)) (hdated : ∀ op ∈ ops, Dated op) :
    ∃ ps, (run {} ops).listing = .ok ps ∧ ∀ now,
      ((run {} ops).statistics now = .error .storage ↔ Overflows ps) ∧
      (¬ Overflows ps → ∃ s, (run {} ops).statistics now = .ok s ∧ s.Summarizes now ps) := by
  have h := sound_run sound_fresh ops
  refine ⟨_, listing_eq h (released_run hdated) (dated_builds hdated), fun now => ⟨⟨?_, ?_⟩, ?_⟩⟩
  · intro herror
    by_contra ho
    obtain ⟨s, hs, -⟩ := statistics_of_fits h now ho
    cases herror.symm.trans hs
  · exact statistics_of_overflow h now
  · exact statistics_of_fits h now

/-- After a wheel passed from one version to another, a version of a skipped package fails. -/
def skippedRun : List (Int × Operation) :=
  takeoverRun ++ [(130, .addPackage "attrs" (some "binary only")),
    (140, .addVersion "attrs" "1.0" none none),
    (150, .commit (.failed "attrs" "1.0" "cp312" 7 sampleReport.duration ""))]

theorem statistics_of_skippedRun : (∀ op ∈ skippedRun, Dated op) ∧
    ∃ ps, (run {} skippedRun).listing = .ok ps ∧ Statistics.Summarizes
      { packages := 1, packagesBuilt := 1, versions := 2, versionsBuilt := 3, builds := 3,
        buildsLastHour := 2, buildsSuccessful := 2, time := ⟨1500000000, by decide⟩, files := 1,
        size := 2 } 3700 ps := by
  have hdated : ∀ op ∈ skippedRun, Dated op := by decide +kernel
  obtain ⟨ps, hps, hall⟩ := statistics_summarize skippedRun hdated
  obtain ⟨hfails, hfits⟩ := hall 3700
  have hrun : (run {} skippedRun).statistics 3700 = .ok
      { packages := 1, packagesBuilt := 1, versions := 2, versionsBuilt := 3, builds := 3,
        buildsLastHour := 2, buildsSuccessful := 2, time := ⟨1500000000, by decide⟩, files := 1,
        size := 2 } := by
    decide +kernel
  have hno : ¬ Overflows ps := fun ho => by
    cases (hfails.mpr ho).symm.trans hrun
  obtain ⟨s, hs, hsum⟩ := hfits hno
  cases hs.symm.trans hrun
  exact ⟨hdated, ps, hps, hsum⟩

end Ledger
end WheelFarm
