import WheelFarm.Ledger.Storage
import WheelFarm.Proofs.Ledger.Statistics

/-! What the schema admits: rows whose references are met, and integers of 64 bits, of which few are
checked for their sign. Runs stay well within that. So do values that are written straight into
storage, which can be such as no operation stores. -/
namespace WheelFarm.Ledger
open Wheel

/-- An integer that a column can hold, in 64 bits with one of them for the sign. -/
def IsWord (n : Int) : Prop := -maxStored - 1 ≤ n ∧ n ≤ maxStored

instance (n : Int) : Decidable (IsWord n) := inferInstanceAs (Decidable (_ ∧ _))

/-- Of the integers of a build only the duration is checked. -/
structure BuildRow.IsAdmitted (b : BuildRow) : Prop where
  id : IsWord b.id
  worker : IsWord b.worker
  builtAt : IsWord b.builtAt
  milliseconds : Stored b.milliseconds

/-- A ledger whose tables have contents that the schema admits. -/
structure Admitted (l : Ledger) : Prop where
  package_of_version : ∀ v ∈ l.versions, ∃ p ∈ l.packages, p.name = v.package
  version_of_build : ∀ b ∈ l.builds, ∃ v ∈ l.versions, v.package = b.package ∧ v.version = b.version
  build_of_output : ∀ o ∈ l.outputs, ∃ b ∈ l.builds, b.id = o.build
  build_of_file : ∀ f ∈ l.files, ∃ b ∈ l.builds, b.id = f.build
  file_of_dependency : ∀ d ∈ l.dependencies, ∃ f ∈ l.files, f.filename = d.filename
  abi_free : ∀ abi ∈ l.abis, isReserved abi = false
  release_word : ∀ v ∈ l.versions, IsWord v.released
  build_admitted : ∀ b ∈ l.builds, b.IsAdmitted
  size_stored : ∀ f ∈ l.files, Stored f.size
  serial_stored : Stored l.serial

variable {l l' : Ledger}

lemma Stored.isWord {n : Int} (h : Stored n) : IsWord n := by
  obtain ⟨hpos, hmax⟩ := h
  refine ⟨?_, hmax⟩
  rw [maxStored]
  omega

lemma isWord_of_hasDate {second : Int} (h : Calendar.hasDate second = true) : IsWord second := by
  rw [Calendar.hasDate, Bool.and_eq_true, decide_eq_true_eq, decide_eq_true_eq,
    Calendar.firstSecond_eq, Calendar.lastSecond_eq] at h
  rw [IsWord, maxStored]
  omega

section Runs

theorem Sound.admitted (h : Sound l)
    (hreleased : ∀ v ∈ l.versions, Calendar.hasDate v.released = true)
    (hbuilt : ∀ b ∈ l.builds, Calendar.hasDate b.builtAt = true) : Admitted l where
  package_of_version := h.package_of_version
  version_of_build := h.version_of_build
  build_of_output := h.build_of_output
  build_of_file := h.build_of_file
  file_of_dependency := h.file_of_dependency
  abi_free := h.abi_free
  release_word v hv := isWord_of_hasDate (hreleased v hv)
  build_admitted b hb := by
    obtain ⟨hone, hlast⟩ := h.build_numbered b hb
    obtain ⟨hworker, hmilliseconds⟩ := h.build_stored b hb
    have hid : Stored b.id := ⟨by omega, hlast.trans h.lastBuild_stored.2⟩
    exact ⟨hid.isWord, hworker.isWord, isWord_of_hasDate (hbuilt b hb), hmilliseconds⟩
  size_stored := h.size_stored
  serial_stored := h.serial_stored

/-- After a run of dated operations the contents are admitted. -/
theorem admitted_run {ops : List (Int × Operation)} (hdated : ∀ op ∈ ops, Dated op) :
    Admitted (run {} ops) :=
  (sound_run sound_fresh ops).admitted (released_run hdated) (dated_builds hdated)

end Runs

section Overwrites

/-- A value to be written that a column can hold. -/
def Overwrite.IsStorable (l : Ledger) : Overwrite → Prop
  | .worker _ value | .builtAt _ value | .milliseconds _ value | .fileSize _ value
  | .released _ _ value | .serial value => IsWord value
  | .age build seconds => ∀ b ∈ l.builds, b.id = build → IsWord (b.builtAt - seconds)
  | .abi _ | .layout => True

lemma mem_builds_overwriteBuild {build : Int} {f : BuildRow → BuildRow}
    {hf : ∀ b, (f b).id = b.id} {c : BuildRow} : c ∈ (l.overwriteBuild build f hf).2.builds ↔
      ∃ b ∈ l.builds, (if b.id = build then f b else b) = c := List.mem_map

lemma mem_files_overwriteSizes {build size : Int} {g : FileRow} :
    g ∈ (l.overwriteSizes build size).2.files ↔
      ∃ f ∈ l.files, (if f.build = build then { f with size } else f) = g := List.mem_map

lemma mem_versions_overwriteRelease {package version : String} {released : Int} {w : Version} :
    w ∈ (l.overwriteRelease package version released).2.versions ↔ ∃ v ∈ l.versions,
      (if v.package = package ∧ v.version = version then { v with released } else v) = w := by
  simp [overwriteRelease]

lemma admitted_overwriteBuild (h : Admitted l) {build : Int} (f : BuildRow → BuildRow)
    (hf : ∀ b, (f b).id = b.id)
    (hversion : ∀ b, (f b).package = b.package ∧ (f b).version = b.version)
    (hadmitted : ∀ b ∈ l.builds, b.id = build → (f b).IsAdmitted) :
    Admitted (l.overwriteBuild build f hf).2 := by
  have hkept (id : Int) (hid : ∃ b ∈ l.builds, b.id = id) :
      ∃ b ∈ (l.overwriteBuild build f hf).2.builds, b.id = id := by
    obtain ⟨b, hb, rfl⟩ := hid
    refine ⟨_, mem_builds_overwriteBuild.mpr ⟨b, hb, rfl⟩, ?_⟩
    split
    · exact hf b
    · rfl
  refine { h with
    build_of_output := fun o ho => hkept o.build (h.build_of_output o ho)
    build_of_file := fun g hg => hkept g.build (h.build_of_file g hg)
    version_of_build := fun c hc => ?_
    build_admitted := fun c hc => ?_ }
  · obtain ⟨b, hb, rfl⟩ := mem_builds_overwriteBuild.mp hc
    have hold := h.version_of_build b hb
    split
    · rwa [(hversion b).1, (hversion b).2]
    · exact hold
  · obtain ⟨b, hb, rfl⟩ := mem_builds_overwriteBuild.mp hc
    split
    · next hid => exact hadmitted b hb hid
    · exact h.build_admitted b hb

lemma admitted_overwriteSizes (h : Admitted l) (build : Int) {size : Int}
    (hsize : (l.overwriteSizes build size).1 = 0 ∨ Stored size) :
    Admitted (l.overwriteSizes build size).2 := by
  refine { h with
    build_of_file := fun g hg => ?_
    file_of_dependency := fun d hd => ?_
    size_stored := fun g hg => ?_ }
  · obtain ⟨f, hf, rfl⟩ := mem_files_overwriteSizes.mp hg
    have hold := h.build_of_file f hf
    split <;> exact hold
  · obtain ⟨f, hf, he⟩ := h.file_of_dependency d hd
    refine ⟨_, mem_files_overwriteSizes.mpr ⟨f, hf, rfl⟩, ?_⟩
    split <;> exact he
  · obtain ⟨f, hf, rfl⟩ := mem_files_overwriteSizes.mp hg
    split
    · next hbuild =>
      -- The file is one of those that were counted.
      refine hsize.resolve_left fun hnone => ?_
      exact List.ne_nil_of_mem (mem_owned.mpr ⟨hf, hbuild⟩) (List.length_eq_zero_iff.mp hnone)
    · exact h.size_stored f hf

lemma admitted_overwriteRelease (h : Admitted l) (package version : String) {released : Int}
    (hreleased : IsWord released) : Admitted (l.overwriteRelease package version released).2 := by
  refine { h with
    package_of_version := fun w hw => ?_
    version_of_build := fun b hb => ?_
    release_word := fun w hw => ?_ }
  · obtain ⟨v, hv, rfl⟩ := mem_versions_overwriteRelease.mp hw
    have hold := h.package_of_version v hv
    split <;> exact hold
  · obtain ⟨v, hv, he⟩ := h.version_of_build b hb
    refine ⟨_, mem_versions_overwriteRelease.mpr ⟨v, hv, rfl⟩, ?_⟩
    split <;> exact he
  · obtain ⟨v, hv, rfl⟩ := mem_versions_overwriteRelease.mp hw
    split
    · exact hreleased
    · exact h.release_word v hv

lemma admitted_insertAbi (h : Admitted l) {abi : String} (hl : l.insertAbi? abi = some l') :
    Admitted l' := by
  have hfree : isReserved abi = false := by
    by_contra hreserved
    simp [insertAbi?, hreserved] at hl
  rw [insertAbi?_eq hfree] at hl
  split at hl
  · cases hl
  · cases hl
    refine { h with abi_free := fun a ha => ?_ }
    rcases Table.mem_put.mp ha with rfl | ⟨ha, -⟩
    · exact hfree
    · exact h.abi_free a ha

lemma unlessNegative_eq_some {value : Int} {written w : Nat × Ledger}
    (h : unlessNegative value written = some w) : w = written ∧ (written.1 = 0 ∨ 0 ≤ value) := by
  rw [unlessNegative] at h
  split at h
  · next hok => exact ⟨(Option.some.inj h).symm, hok⟩
  · cases h

lemma ne_of_countP_eq_zero {build : Int} (h : l.builds.rows.countP (·.id = build) = 0)
    {b : BuildRow} (hb : b ∈ l.builds) : b.id ≠ build := by
  have hnone := List.countP_eq_zero.mp h b hb
  simpa using hnone

/-- What is written straight into storage leaves contents that the schema admits. -/
theorem admitted_overwrite (h : Admitted l) {w : Overwrite} (hw : w.IsStorable l) {rows : Nat}
    (hl : l.overwrite? w = some (rows, l')) : Admitted l' := by
  cases w with
  | worker build value =>
    cases hl
    refine admitted_overwriteBuild h ({ · with worker := value }) (fun _ => rfl)
      (fun _ => ⟨rfl, rfl⟩) fun b hb _ => ?_
    exact { h.build_admitted b hb with worker := hw }
  | builtAt build value =>
    cases hl
    refine admitted_overwriteBuild h ({ · with builtAt := value }) (fun _ => rfl)
      (fun _ => ⟨rfl, rfl⟩) fun b hb _ => ?_
    exact { h.build_admitted b hb with builtAt := hw }
  | age build seconds =>
    cases hl
    refine admitted_overwriteBuild h (fun b => { b with builtAt := b.builtAt - seconds })
      (fun _ => rfl) (fun _ => ⟨rfl, rfl⟩) fun b hb hid => ?_
    exact { h.build_admitted b hb with builtAt := hw b hb hid }
  | milliseconds build value =>
    obtain ⟨he, hvalue⟩ := unlessNegative_eq_some hl
    cases he
    refine admitted_overwriteBuild h ({ · with milliseconds := value }) (fun _ => rfl)
      (fun _ => ⟨rfl, rfl⟩) fun b hb hid => ?_
    have hpos := hvalue.resolve_left fun hnone => ne_of_countP_eq_zero hnone hb hid
    exact { h.build_admitted b hb with milliseconds := ⟨hpos, hw.2⟩ }
  | fileSize build value =>
    obtain ⟨he, hvalue⟩ := unlessNegative_eq_some hl
    cases he
    exact admitted_overwriteSizes h build (hvalue.imp_right fun hpos => ⟨hpos, hw.2⟩)
  | released package version value =>
    cases hl
    exact admitted_overwriteRelease h package version hw
  | serial value =>
    obtain ⟨he, hvalue⟩ := unlessNegative_eq_some hl
    cases he
    exact { h with serial_stored := ⟨hvalue.resolve_left Nat.one_ne_zero, hw.2⟩ }
  | abi abi =>
    obtain ⟨l', hinsert, he⟩ := Option.map_eq_some_iff.mp hl
    cases he
    exact admitted_insertAbi h hinsert
  | layout =>
    cases hl
    exact h

/-- The ledger after a write straight into storage; one that is refused changes nothing. -/
def overwritten (l : Ledger) (w : Overwrite) : Ledger :=
  match l.overwrite? w with
  | some (_, l') => l'
  | none => l

/-- Values that columns can hold, written one after another. -/
def Storable : Ledger → List Overwrite → Prop
  | _, [] => True
  | l, w :: ws => w.IsStorable l ∧ Storable (l.overwritten w) ws

theorem admitted_overwrites (h : Admitted l) {ws : List Overwrite} (hws : Storable l ws) :
    Admitted (ws.foldl overwritten l) := by
  induction ws generalizing l with
  | nil => exact h
  | cons w ws ih =>
    obtain ⟨hw, hws⟩ := hws
    refine ih ?_ hws
    rw [overwritten]
    split
    · next hl => exact admitted_overwrite h hw hl
    · exact h

end Overwrites

end WheelFarm.Ledger
