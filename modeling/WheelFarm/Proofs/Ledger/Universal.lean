import WheelFarm.Proofs.Ledger.Progress
import WheelFarm.Proofs.Ledger.Settled

/-! Whether a wheel is universal can be asked of the tags that a worker declares, of the filename and
of the tag on record. Only wheels whose declared tags are those of their filenames are recorded, so
the three agree. -/
namespace WheelFarm.Ledger
open Wheel

variable {l : Ledger} {now : Int} {r : BuildReport}

lemma isUniversal_iff_canonicalAbi {f : BuiltFile} :
    f.isUniversal = true ↔ f.canonicalAbi = universalAbi := by
  rw [BuiltFile.isUniversal, Tags.isUniversal, beq_iff_eq, BuiltFile.canonicalAbi]

/-- An accepted report is universal if and only if one of its filenames says so. -/
theorem isUniversal_iff_parse (hr : ¬ Malformed r) : r.isUniversal = true ↔
    ∃ f ∈ r.files, ∃ name, WheelName.parse f.filename = .ok name ∧ name.isUniversal = true := by
  rw [BuildReport.isUniversal, List.any_eq_true]
  refine exists_congr fun f => and_congr_right fun hf => ?_
  rw [isUniversal_iff_canonicalAbi, (tags_carried hr hf).isUniversal_iff]
  rfl

lemma mem_owned_recorded (h : Sound l) (hnames : (r.files.map (·.filename)).Nodup) {g : FileRow} :
    g ∈ (l.recorded now r).owned (l.lastBuild + 1) ↔
      ∃ f ∈ r.files, g = .ofFile (l.lastBuild + 1) f := by
  rw [mem_owned, mem_files_recorded hnames]
  constructor
  · intro hmem
    obtain ⟨hnew | ⟨hold, -⟩, hid⟩ := hmem
    · exact hnew
    · obtain ⟨b, hb, hbg⟩ := h.build_of_file g hold
      exact absurd (hbg.trans hid) (h.build_ne_next b hb)
  · intro hmem
    obtain ⟨f, hf, rfl⟩ := hmem
    exact ⟨.inl ⟨f, hf, rfl⟩, rfl⟩

lemma exists_universal_record_iff (h : Sound l) (hnames : (r.files.map (·.filename)).Nodup) :
    (∃ x ∈ ((l.recorded now r).owned (l.lastBuild + 1)).map (l.recorded now r).recordOf,
      x.file.tags.abi = universalAbi) ↔ r.isUniversal = true := by
  rw [BuildReport.isUniversal, List.any_eq_true]
  constructor
  · intro hmem
    obtain ⟨_, hx, habi⟩ := hmem
    obtain ⟨g, hg, rfl⟩ := List.mem_map.mp hx
    obtain ⟨f, hf, rfl⟩ := (mem_owned_recorded h hnames).mp hg
    exact ⟨f, hf, isUniversal_iff_canonicalAbi.mpr habi⟩
  · intro hmem
    obtain ⟨f, hf, huniversal⟩ := hmem
    have hg : .ofFile (l.lastBuild + 1) f ∈ (l.recorded now r).owned (l.lastBuild + 1) :=
      (mem_owned_recorded h hnames).mpr ⟨f, hf, rfl⟩
    exact ⟨_, List.mem_map.mpr ⟨_, hg, rfl⟩, isUniversal_iff_canonicalAbi.mp huniversal⟩

/-- All that decides whether a wheel is universal agrees. On record a file has the tags that its
filename says, the universal one in its one spelling. A report is universal by what it declares if
and only if it is so by its filenames, and if and only if its build then owns a file with the
universal tag; after that its version is not to be built. -/
theorem universal_agrees (ops : List (Int × Operation)) :
    (∀ g ∈ (run {} ops).files, ∃ name, WheelName.parse g.filename = .ok name ∧
      g.tags = name.tags ∧ g.tags.abi ≠ "noabi" ∧
        (g.tags.abi = "none" ↔ name.isUniversal = true)) ∧
    ∀ now r id l, (run {} ops).commit now r = .ok (id, l) →
      (r.isUniversal = true ↔ ∃ f ∈ r.files, ∃ name,
        WheelName.parse f.filename = .ok name ∧ name.isUniversal = true) ∧
      (∃ rs, l.filesOfBuild id = .ok rs ∧
        (r.isUniversal = true ↔ ∃ x ∈ rs, x.file.tags.abi = "none")) ∧
      (r.isUniversal = true →
        ∀ t ∈ l.targets, ¬ (t.package = r.package ∧ t.version = r.version)) := by
  have h := reached_run ops
  constructor
  · intro g hg
    obtain ⟨name, hparse, htags⟩ := h.tags_carried hg
    refine ⟨name, hparse, htags.symm, (h.tags_carried hg).abi_ne_retired, ?_⟩
    rw [← htags, WheelName.isUniversal, beq_iff_eq]
    rfl
  · intro now r id l hcommit
    obtain ⟨hr, hversion, hlast, rfl, rfl⟩ := (commit_eq_ok_iff h.sound).mp hcommit
    have hnames := filenames_nodup hr
    have hsound : Sound ((run {} ops).recorded now r) := sound_recorded h.sound hr hversion hlast
    refine ⟨isUniversal_iff_parse hr, ⟨_, filesWhere_eq hsound _, ?_⟩, fun huniversal => ?_⟩
    · exact (exists_universal_record_iff h.sound hnames).symm
    · rw [BuildReport.isUniversal, List.any_eq_true] at huniversal
      obtain ⟨f, hf, hfu⟩ := huniversal
      refine not_target_of_hasTag ((hasTag_recorded h.sound hnames).mpr ?_)
      exact .inl ⟨⟨rfl, rfl⟩, f, hf, isUniversal_iff_canonicalAbi.mp hfu⟩

/-- A report that declares the retired spelling for a wheel whose filename has the other one. -/
theorem universal_of_sampleFile :
    ∃ l, (run {} twoVersions).commit 60 (universalReport "1.16.0" 1) = .ok (1, l) ∧
      (∃ f ∈ (universalReport "1.16.0" 1).files, ∃ name,
        WheelName.parse f.filename = .ok name ∧ name.isUniversal = true) ∧
      ∀ t ∈ l.targets, ¬ (t.package = "six" ∧ t.version = "1.16.0") := by
  have hcommit : ∃ l, (run {} twoVersions).commit 60 (universalReport "1.16.0" 1) = .ok (1, l) :=
    ⟨_, by rfl⟩
  obtain ⟨l, hl⟩ := hcommit
  obtain ⟨hname, -, htargets⟩ := (universal_agrees twoVersions).2 60 _ 1 l hl
  have huniversal : (universalReport "1.16.0" 1).isUniversal = true := by decide
  exact ⟨l, hl, hname.mp huniversal, htargets huniversal⟩

end WheelFarm.Ledger
