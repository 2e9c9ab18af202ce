import WheelFarm.Ledger.Operation
import WheelFarm.Proofs.Except
import WheelFarm.Proofs.Ledger.Malformed
import WheelFarm.Proofs.Ledger.Writes

/-! Referential integrity. Every row refers to rows that are there, stored integers are in range,
and no build has a number beyond the last one handed out. A fresh ledger is sound, and every
operation keeps it so, whether it succeeds or fails. -/
namespace WheelFarm.Ledger
open Wheel

/-- An integer that storage admits. -/
def Stored (n : Int) : Prop := 0 ≤ n ∧ n ≤ maxStored

lemma toNat_ofNat_of_stored {n : Nat} (h : (n : Int) ≤ maxStored) : (UInt64.ofNat n).toNat = n := by
  rw [maxStored] at h
  rw [UInt64.toNat_ofNat', Nat.mod_eq_of_lt (by omega)]

lemma toNat_toNat_of_stored {n : Int} (h : Stored n) :
    ((UInt64.ofNat n.toNat).toNat : Int) = n := by
  rw [toNat_ofNat_of_stored (by rw [Int.toNat_of_nonneg h.1]; exact h.2), Int.toNat_of_nonneg h.1]

/-- A ledger in which every reference is met and every number is in range. -/
structure Sound (l : Ledger) : Prop where
  package_of_version : ∀ v ∈ l.versions, ∃ p ∈ l.packages, p.name = v.package
  version_of_build : ∀ b ∈ l.builds, ∃ v ∈ l.versions, v.package = b.package ∧ v.version = b.version
  output_of_build : ∀ b ∈ l.builds, ∃ o ∈ l.outputs, o.build = b.id
  build_of_output : ∀ o ∈ l.outputs, ∃ b ∈ l.builds, b.id = o.build
  build_of_file : ∀ f ∈ l.files, ∃ b ∈ l.builds, b.id = f.build
  file_of_dependency : ∀ d ∈ l.dependencies, ∃ f ∈ l.files, f.filename = d.filename
  abi_free : ∀ abi ∈ l.abis, isReserved abi = false
  build_numbered : ∀ b ∈ l.builds, 1 ≤ b.id ∧ b.id ≤ l.lastBuild
  build_stored : ∀ b ∈ l.builds, Stored b.worker ∧ Stored b.milliseconds
  size_stored : ∀ f ∈ l.files, Stored f.size
  serial_stored : Stored l.serial
  lastBuild_stored : Stored l.lastBuild

theorem sound_fresh : Sound {} where
  package_of_version v hv := absurd hv (Table.not_mem_empty v)
  version_of_build b hb := absurd hb (Table.not_mem_empty b)
  output_of_build b hb := absurd hb (Table.not_mem_empty b)
  build_of_output o ho := absurd ho (Table.not_mem_empty o)
  build_of_file f hf := absurd hf (Table.not_mem_empty f)
  file_of_dependency d hd := absurd hd (Table.not_mem_empty d)
  abi_free abi ha := absurd ha (Table.not_mem_empty abi)
  build_numbered b hb := absurd hb (Table.not_mem_empty b)
  build_stored b hb := absurd hb (Table.not_mem_empty b)
  size_stored f hf := absurd hf (Table.not_mem_empty f)
  serial_stored := ⟨le_refl 0, by decide⟩
  lastBuild_stored := ⟨le_refl 0, by decide⟩

variable {l : Ledger}

section Catalog

theorem addPackage_eq (l : Ledger) (package : String) (skip : Option String) :
    l.addPackage package skip = if l.packages.has package then (false, l)
      else (true, { l with packages := l.packages.put ⟨package, skip⟩ }) := by
  rw [addPackage, insertPackage?_eq]
  cases l.packages.has package <;> rfl

theorem addVersion_eq (l : Ledger) (package version : String) (released : Int)
    (skip : Option String) : l.addVersion package version released skip =
      if l.packages.has package then
        if l.versions.has (package, version) then .ok (false, l)
        else .ok (true, { l with versions := l.versions.put ⟨package, version, released, skip⟩ })
      else .error (.packageNotFound package) := by
  rw [addVersion]
  cases h : l.packages.has package with
  | false => rfl
  | true =>
    rw [insertVersion?_eq (v := ⟨package, version, released, skip⟩) h]
    cases l.versions.has (package, version) <;> rfl

theorem addAbi_eq (l : Ledger) (abi : String) :
    l.addAbi abi = if isReserved abi then .error (.reservedAbi abi)
      else if l.abis.has abi then .ok (false, l)
      else .ok (true, { l with abis := l.abis.put abi }) := by
  rw [addAbi]
  cases h : isReserved abi with
  | true => rfl
  | false =>
    rw [insertAbi?_eq h]
    cases l.abis.has abi <;> rfl

theorem sound_addPackage (h : Sound l) (package : String) (skip : Option String) :
    Sound (l.addPackage package skip).2 := by
  rw [addPackage_eq]
  split
  · exact h
  · next hfree =>
    refine { h with package_of_version := fun v hv => ?_ }
    obtain ⟨p, hp, hn⟩ := h.package_of_version v hv
    have hne : p.name ≠ package := fun he => hfree (Table.has_iff.mpr ⟨p, hp, he⟩)
    exact ⟨p, Table.mem_put.mpr (.inr ⟨hp, hne⟩), hn⟩

theorem sound_addVersion (h : Sound l) {package version : String} {released : Int}
    {skip : Option String} {done : Bool} {l' : Ledger}
    (hl : l.addVersion package version released skip = .ok (done, l')) : Sound l' := by
  rw [addVersion_eq] at hl
  split at hl
  · next hpackage =>
    split at hl
    · cases hl
      exact h
    · next hfree =>
      cases hl
      refine { h with package_of_version := fun v hv => ?_, version_of_build := fun b hb => ?_ }
      · rcases Table.mem_put.mp hv with rfl | ⟨hv, -⟩
        · exact Table.has_iff.mp hpackage
        · exact h.package_of_version v hv
      · obtain ⟨v, hv, hn⟩ := h.version_of_build b hb
        have hne : Keyed.key v ≠ (package, version) :=
          fun he => hfree (Table.has_iff.mpr ⟨v, hv, he⟩)
        exact ⟨v, Table.mem_put.mpr (.inr ⟨hv, hne⟩), hn⟩
  · cases hl

theorem mem_packages_skipPackage {package reason : String} {p : Package} :
    p ∈ (l.skipPackage package reason).packages ↔
      ∃ q ∈ l.packages, q.skipIf package reason = p := List.mem_map

theorem mem_versions_skipVersion {package version reason : String} {v : Version} :
    v ∈ (l.skipVersion package version reason).versions ↔
      ∃ w ∈ l.versions, w.skipIf package version reason = v := List.mem_map

theorem sound_skipPackage (h : Sound l) (package reason : String) :
    Sound (l.skipPackage package reason) := by
  refine { h with package_of_version := fun v hv => ?_ }
  obtain ⟨p, hp, hn⟩ := h.package_of_version v hv
  exact ⟨_, mem_packages_skipPackage.mpr ⟨p, hp, rfl⟩,
    (Package.name_skipIf package reason p).trans hn⟩

theorem sound_skipVersion (h : Sound l) (package version reason : String) :
    Sound (l.skipVersion package version reason) := by
  refine { h with package_of_version := fun v hv => ?_, version_of_build := fun b hb => ?_ }
  · obtain ⟨w, hw, rfl⟩ := mem_versions_skipVersion.mp hv
    obtain ⟨p, hp, hn⟩ := h.package_of_version w hw
    have hk := congrArg Prod.fst (Version.key_skipIf package version reason w)
    exact ⟨p, hp, hn.trans hk.symm⟩
  · obtain ⟨v, hv, hp, hn⟩ := h.version_of_build b hb
    have hk := Version.key_skipIf package version reason v
    exact ⟨_, mem_versions_skipVersion.mpr ⟨v, hv, rfl⟩, (congrArg Prod.fst hk).trans hp,
      (congrArg Prod.snd hk).trans hn⟩

theorem sound_addAbi (h : Sound l) {abi : String} {done : Bool} {l' : Ledger}
    (hl : l.addAbi abi = .ok (done, l')) : Sound l' := by
  rw [addAbi_eq] at hl
  split at hl
  · cases hl
  · next hfree =>
    split at hl
    · cases hl
      exact h
    · cases hl
      refine { h with abi_free := fun a ha => ?_ }
      rcases Table.mem_put.mp ha with rfl | ⟨ha, -⟩
      · exact Bool.eq_false_iff.mpr hfree
      · exact h.abi_free a ha

theorem sound_removeAbi (h : Sound l) (abi : String) : Sound (l.removeAbi abi).2 :=
  { h with abi_free := fun a ha => h.abi_free a (Table.mem_filter.mp ha).1 }

theorem sound_deletePackage (h : Sound l) {package : String} {done : Bool} {l' : Ledger}
    (hl : l.deletePackage package = .ok (done, l')) : Sound l' := by
  rw [deletePackage] at hl
  split at hl
  · cases hl
  · next hunused =>
    cases hl
    refine { h with package_of_version := fun v hv => ?_ }
    obtain ⟨p, hp, hn⟩ := h.package_of_version v hv
    have hne : p.name ≠ package := fun he =>
      hunused (List.any_eq_true.mpr ⟨v, hv, decide_eq_true (hn.symm.trans he)⟩)
    exact ⟨p, Table.mem_filter.mpr ⟨hp, decide_eq_true hne⟩, hn⟩

theorem setSerial_eq (h : Stored l.serial) (serial : UInt64) :
    l.setSerial serial = if maxStored < serial.toNat then .error (.invalidData .serial)
      else if l.serial ≤ serial.toNat then .ok { l with serial := serial.toNat }
      else .error (.serialRegression l.serial.toNat serial.toNat) := by
  have hword : (UInt64.ofNat l.serial.toNat).toNat = l.serial.toNat :=
    Int.natCast_inj.mp ((toNat_toNat_of_stored h).trans (Int.toNat_of_nonneg h.1).symm)
  simp only [setSerial, currentSerial, readWord, if_pos h.1, bind, Except.bind, throw, throwThe,
    MonadExceptOf.throw, pure, Except.pure, hword]

theorem sound_setSerial (h : Sound l) {serial : UInt64} {l' : Ledger}
    (hl : l.setSerial serial = .ok l') : Sound l' := by
  rw [setSerial_eq h.serial_stored] at hl
  split at hl
  · cases hl
  · next hmax =>
    split at hl
    · cases hl
      exact { h with serial_stored := ⟨Int.natCast_nonneg _, Int.not_lt.mp hmax⟩ }
    · cases hl

end Catalog

section History

theorem sound_dropBuilds (h : Sound l) (gone : BuildRow → Bool) : Sound (l.dropBuilds gone) := by
  refine { h with
    version_of_build := fun b hb => h.version_of_build b (mem_builds_dropBuilds.mp hb).1
    build_of_output := fun o ho => (mem_outputs_dropBuilds.mp ho).2
    build_of_file := fun f hf => (mem_files_dropBuilds.mp hf).2
    file_of_dependency := fun d hd => (mem_dependencies_dropBuilds.mp hd).2
    build_numbered := fun b hb => h.build_numbered b (mem_builds_dropBuilds.mp hb).1
    build_stored := fun b hb => h.build_stored b (mem_builds_dropBuilds.mp hb).1
    size_stored := fun f hf => h.size_stored f (mem_files_dropBuilds.mp hf).1
    output_of_build := fun b hb => ?_ }
  obtain ⟨o, ho, he⟩ := h.output_of_build b (mem_builds_dropBuilds.mp hb).1
  exact ⟨o, mem_outputs_dropBuilds.mpr ⟨ho, b, hb, he.symm⟩, he⟩

/-- The versions that stay when a version is dropped are those that the builds left refer to. -/
theorem sound_dropVersion (h : Sound l) (package version : String) :
    Sound (l.dropVersion package version) := by
  have hd := sound_dropBuilds h fun b => b.package = package ∧ b.version = version
  refine { hd with
    package_of_version := fun v hv => h.package_of_version v (Table.mem_filter.mp hv).1
    version_of_build := fun b hb => ?_ }
  obtain ⟨hb, hkept⟩ := mem_builds_dropBuilds.mp hb
  obtain ⟨v, hv, hp, hn⟩ := h.version_of_build b hb
  refine ⟨v, Table.mem_filter.mpr ⟨hv, ?_⟩, hp, hn⟩
  rw [hp, hn, Bool.not_eq_true']
  exact hkept

theorem Sound.build_ne_next (h : Sound l) : ∀ b ∈ l.builds, b.id ≠ l.lastBuild + 1 := by
  intro b hb he
  have hle := (h.build_numbered b hb).2
  omega

theorem Sound.output_ne_next (h : Sound l) : ∀ o ∈ l.outputs, o.build ≠ l.lastBuild + 1 := by
  intro o ho he
  obtain ⟨b, hb, hbo⟩ := h.build_of_output o ho
  exact h.build_ne_next b hb (hbo.trans he)

lemma stored_natCast {n : Nat} (h : n ≤ maxStored) : Stored n := ⟨Int.natCast_nonneg n, h⟩

theorem sound_recorded (h : Sound l) {now : Int} {r : BuildReport} (hr : ¬ Malformed r)
    (hversion : l.versions.has (r.package, r.version) = true) (hlast : l.lastBuild < maxStored) :
    Sound (l.recorded now r) := by
  have hnames := filenames_nodup hr
  -- The new number is above all old ones, so that no row gives way to the new build's.
  have hold : ∀ b ∈ l.builds, b ∈ (l.recorded now r).builds := fun b hb => by
    rw [recorded_builds]
    exact Table.mem_put.mpr (.inr ⟨hb, h.build_ne_next b hb⟩)
  have hnew : .ofReport (l.lastBuild + 1) now r ∈ (l.recorded now r).builds := by
    rw [recorded_builds]
    exact Table.mem_put.mpr (.inl rfl)
  constructor
  case package_of_version =>
    rw [recorded_versions, recorded_packages]
    exact h.package_of_version
  case version_of_build =>
    rw [recorded_versions, recorded_builds]
    intro b hb
    rcases Table.mem_put.mp hb with rfl | ⟨hb, -⟩
    · obtain ⟨v, hv, he⟩ := Table.has_iff.mp hversion
      exact ⟨v, hv, congrArg Prod.fst he, congrArg Prod.snd he⟩
    · exact h.version_of_build b hb
  case output_of_build =>
    rw [recorded_builds, recorded_outputs]
    intro b hb
    rcases Table.mem_put.mp hb with rfl | ⟨hb, -⟩
    · exact ⟨_, Table.mem_put.mpr (.inl rfl), rfl⟩
    · obtain ⟨o, ho, he⟩ := h.output_of_build b hb
      exact ⟨o, Table.mem_put.mpr (.inr ⟨ho, h.output_ne_next o ho⟩), he⟩
  case build_of_output =>
    rw [recorded_outputs]
    intro o ho
    rcases Table.mem_put.mp ho with rfl | ⟨ho, -⟩
    · exact ⟨_, hnew, rfl⟩
    · obtain ⟨b, hb, he⟩ := h.build_of_output o ho
      exact ⟨b, hold b hb, he⟩
  case build_of_file =>
    intro g hg
    rcases (mem_files_recorded hnames).mp hg with ⟨f, -, rfl⟩ | ⟨hg, -⟩
    · exact ⟨_, hnew, rfl⟩
    · obtain ⟨b, hb, he⟩ := h.build_of_file g hg
      exact ⟨b, hold b hb, he⟩
  case file_of_dependency =>
    intro d hd
    rcases (mem_dependencies_recorded h.file_of_dependency hnames).mp hd with
      ⟨f, hf, he, -⟩ | ⟨hd, hne⟩
    · exact ⟨_, (mem_files_recorded hnames).mpr (.inl ⟨f, hf, rfl⟩), he.symm⟩
    · obtain ⟨g, hg, he⟩ := h.file_of_dependency d hd
      exact ⟨g, (mem_files_recorded hnames).mpr (.inr ⟨hg, he ▸ hne⟩), he⟩
  case abi_free =>
    rw [recorded_abis]
    exact h.abi_free
  case build_numbered =>
    rw [recorded_builds, recorded_lastBuild]
    have hlast₀ := h.lastBuild_stored.1
    intro b hb
    rcases Table.mem_put.mp hb with rfl | ⟨hb, -⟩
    · exact ⟨by change 1 ≤ l.lastBuild + 1; omega, le_refl _⟩
    · have hb := h.build_numbered b hb
      omega
  case build_stored =>
    rw [recorded_builds]
    intro b hb
    rcases Table.mem_put.mp hb with rfl | ⟨hb, -⟩
    · exact ⟨stored_natCast (worker_le hr), stored_natCast (milliseconds_le hr)⟩
    · exact h.build_stored b hb
  case size_stored =>
    intro g hg
    rcases (mem_files_recorded hnames).mp hg with ⟨f, hf, rfl⟩ | ⟨hg, -⟩
    · exact stored_natCast (size_le hr hf)
    · exact h.size_stored g hg
  case serial_stored =>
    rw [recorded_serial]
    exact h.serial_stored
  case lastBuild_stored =>
    rw [recorded_lastBuild]
    have hlast₀ := h.lastBuild_stored.1
    exact ⟨by omega, by omega⟩

/-- A commit to a sound ledger records the whole report or tells why not. Only running out of
numbers is storage's fault. -/
theorem commit_eq (h : Sound l) (now : Int) (r : BuildReport) :
    l.commit now r = match checkReport r with
      | .error why => .error (.malformedReport why)
      | .ok () =>
        if l.versions.has (r.package, r.version) then
          if l.lastBuild < maxStored then .ok (l.lastBuild + 1, l.recorded now r)
          else .error .storage
        else .error (.versionNotFound r.package r.version) := by
  rw [commit]
  cases checkReport r with
  | error why => rfl
  | ok u =>
    by_cases hversion : l.versions.has (r.package, r.version) = true
    · by_cases hlast : l.lastBuild < maxStored
      · simp only [if_pos hversion, if_pos hlast,
          record?_eq_some hlast hversion h.build_ne_next h.output_ne_next]
      · simp only [if_pos hversion, if_neg hlast, record?_eq_none hlast]
    · simp only [if_neg hversion]

theorem commit_eq_ok_iff (h : Sound l) {now id : Int} {r : BuildReport} {l' : Ledger} :
    l.commit now r = .ok (id, l') ↔ ¬ Malformed r ∧
      l.versions.has (r.package, r.version) = true ∧ l.lastBuild < maxStored ∧
        id = l.lastBuild + 1 ∧ l' = l.recorded now r := by
  rw [commit_eq h, ← checkReport_eq_ok_iff]
  cases checkReport r with
  | error why => simp
  | ok u =>
    by_cases hversion : l.versions.has (r.package, r.version) = true
    · by_cases hlast : l.lastBuild < maxStored
      · simp [hversion, hlast, eq_comm]
      · simp [hversion, hlast]
    · simp [hversion]

end History

/-- A successful operation keeps a ledger sound. -/
theorem sound_perform (h : Sound l) {now : Int} {op : Operation} {reply : Reply} {l' : Ledger}
    (hp : l.perform now op = .ok (reply, l')) : Sound l' := by
  cases op with
  | addPackage package skip =>
    cases hp
    exact sound_addPackage h package skip
  | addVersion package version released skip =>
    obtain ⟨⟨done, l'⟩, hl, he⟩ := map_eq_ok hp
    cases he
    exact sound_addVersion h hl
  | skipPackage package reason =>
    cases hp
    exact sound_skipPackage h package reason
  | skipVersion package version reason =>
    cases hp
    exact sound_skipVersion h package version reason
  | deleteVersion package version =>
    cases hp
    exact sound_dropVersion h package version
  | deletePackage package =>
    obtain ⟨⟨done, l'⟩, hl, he⟩ := map_eq_ok hp
    cases he
    exact sound_deletePackage h hl
  | addAbi abi =>
    obtain ⟨⟨done, l'⟩, hl, he⟩ := map_eq_ok hp
    cases he
    exact sound_addAbi h hl
  | removeAbi abi =>
    cases hp
    exact sound_removeAbi h abi
  | commit report =>
    obtain ⟨⟨id, l'⟩, hl, he⟩ := map_eq_ok hp
    cases he
    obtain ⟨hr, hversion, hlast, -, rfl⟩ := (commit_eq_ok_iff h).mp hl
    exact sound_recorded h hr hversion hlast
  | forget package version =>
    cases hp
    exact sound_dropBuilds h _
  | setSerial serial =>
    obtain ⟨l', hl, he⟩ := map_eq_ok hp
    cases he
    exact sound_setSerial h hl

/-- Every operation keeps a ledger sound, failing ones by leaving it as it was. -/
theorem sound_step (h : Sound l) (now : Int) (op : Operation) : Sound (l.step now op).2 := by
  rw [step]
  split
  · next hp => exact sound_perform h hp
  · exact h

theorem sound_run (h : Sound l) (ops : List (Int × Operation)) : Sound (l.run ops) := by
  induction ops generalizing l with
  | nil => exact h
  | cons op ops ih => exact ih (sound_step h op.1 op.2)

end WheelFarm.Ledger
