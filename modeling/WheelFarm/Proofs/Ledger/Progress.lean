import WheelFarm.Proofs.Ledger.Outstanding
import WheelFarm.Proofs.Ledger.Ownership

/-! What a commit does to outstanding work. The files of its report pass to the new build and all
others stay, so a commit never reopens work of its own version: a file that is taken over keeps the
tag that its filename carries, and a build that loses its files counts for what it was asked for. -/
namespace WheelFarm.Ledger
open Wheel

/-- Whether a report leaves a file to the build that owns it. -/
def Spared (r : BuildReport) (g : FileRow) : Prop := ∀ f ∈ r.files, g.filename ≠ f.filename

variable {l : Ledger} {now : Int} {r : BuildReport} {package version abi : String}

lemma eligible_recorded :
    Eligible (l.recorded now r) package version abi ↔ Eligible l package version abi := by
  simp only [Eligible, recorded_packages, recorded_versions, recorded_abis]

section Recorded
variable (h : Sound l) (hnames : (r.files.map (·.filename)).Nodup)
include h hnames

/-- After a commit a version owns the new files, if they are of its builds, and what it owned before
and the report spares. -/
theorem ownedBy_recorded {g : FileRow} :
    OwnedBy (l.recorded now r) package version g ↔
      ((r.package = package ∧ r.version = version) ∧
        ∃ f ∈ r.files, g = .ofFile (l.lastBuild + 1) f) ∨
      (OwnedBy l package version g ∧ Spared r g) := by
  rw [OwnedBy, mem_files_recorded hnames, recorded_builds]
  simp only [Table.mem_put]
  constructor
  · intro hmem
    obtain ⟨⟨f, hf, rfl⟩ | ⟨hg, hspared⟩, b, rfl | ⟨hb, -⟩, hid, hv⟩ := hmem
    · exact .inl ⟨hv, f, hf, rfl⟩
    · exact absurd hid (h.build_ne_next b hb)
    · -- The owner of an old file was there before, so it does not have the new number.
      obtain ⟨b, hb, hbg⟩ := h.build_of_file g hg
      exact absurd (hbg.trans hid.symm) (h.build_ne_next b hb)
    · exact .inr ⟨⟨hg, b, hb, hid, hv⟩, hspared⟩
  · intro hmem
    rcases hmem with ⟨hv, f, hf, rfl⟩ | ⟨⟨hg, b, hb, hid, hv⟩, hspared⟩
    · exact ⟨.inl ⟨f, hf, rfl⟩, _, .inl rfl, rfl, hv⟩
    · exact ⟨.inr ⟨hg, hspared⟩, b, .inr ⟨hb, h.build_ne_next b hb⟩, hid, hv⟩

theorem hasTag_recorded :
    HasTag (l.recorded now r) package version abi ↔
      ((r.package = package ∧ r.version = version) ∧ ∃ f ∈ r.files, f.canonicalAbi = abi) ∨
      ∃ g, (OwnedBy l package version g ∧ Spared r g) ∧ g.tags.abi = abi := by
  simp only [HasTag, ownedBy_recorded h hnames]
  constructor
  · intro hmem
    obtain ⟨g, ⟨hv, f, hf, rfl⟩ | hg, habi⟩ := hmem
    · exact .inl ⟨hv, f, hf, habi⟩
    · exact .inr ⟨g, hg, habi⟩
  · intro hmem
    rcases hmem with ⟨hv, f, hf, habi⟩ | ⟨g, hg, habi⟩
    · exact ⟨_, .inl ⟨hv, f, hf, rfl⟩, habi⟩
    · exact ⟨g, .inr hg, habi⟩

lemma bare_new_iff :
    Bare (l.recorded now r) (.ofReport (l.lastBuild + 1) now r) ↔ r.files = [] := by
  simp only [Bare, mem_files_recorded hnames, BuildRow.ofReport]
  constructor
  · intro hbare
    by_contra hne
    obtain ⟨f, hf⟩ := List.exists_mem_of_ne_nil _ hne
    exact hbare _ (.inl ⟨f, hf, rfl⟩) rfl
  · intro hnil g hg
    rcases hg with ⟨f, hf, -⟩ | ⟨hg, -⟩
    · exact absurd (hnil ▸ hf) List.not_mem_nil
    · obtain ⟨b, hb, hbg⟩ := h.build_of_file g hg
      exact hbg ▸ h.build_ne_next b hb

lemma bare_recorded_iff {b : BuildRow}
    (hb : b ∈ l.builds) :
    Bare (l.recorded now r) b ↔ ∀ g ∈ l.files, g.build = b.id → ¬ Spared r g := by
  simp only [Bare, mem_files_recorded hnames]
  constructor
  · exact fun hbare g hg hid hspared => hbare g (.inr ⟨hg, hspared⟩) hid
  · intro hall g hg hid
    rcases hg with ⟨f, -, rfl⟩ | ⟨hg, hspared⟩
    · exact h.build_ne_next b hb hid.symm
    · exact hall g hg hid hspared

theorem asked_recorded :
    Asked (l.recorded now r) package version abi ↔
      ((r.package = package ∧ r.version = version) ∧ r.files = [] ∧ r.abi = abi) ∨
      ∃ b ∈ l.builds, (b.package = package ∧ b.version = version) ∧
        (∀ g ∈ l.files, g.build = b.id → ¬ Spared r g) ∧ b.abi = abi := by
  rw [Asked, recorded_builds]
  simp only [Table.mem_put]
  constructor
  · intro hmem
    obtain ⟨b, rfl | ⟨hb, -⟩, hp, hv, hbare, habi⟩ := hmem
    · exact .inl ⟨⟨hp, hv⟩, (bare_new_iff h hnames).mp hbare, habi⟩
    · exact .inr ⟨b, hb, ⟨hp, hv⟩, (bare_recorded_iff h hnames hb).mp hbare, habi⟩
  · intro hmem
    rcases hmem with ⟨⟨hp, hv⟩, hnil, habi⟩ | ⟨b, hb, ⟨hp, hv⟩, hall, habi⟩
    · exact ⟨_, .inl rfl, hp, hv, (bare_new_iff h hnames).mpr hnil, habi⟩
    · exact ⟨b, .inr ⟨hb, h.build_ne_next b hb⟩, hp, hv,
        (bare_recorded_iff h hnames hb).mpr hall, habi⟩

end Recorded

lemma HasTag.recorded (h : Sound l) (hcarries : ∀ g ∈ l.files, Carries g.filename g.tags)
    (hr : ¬ Malformed r) (htag : HasTag l r.package r.version abi) :
    HasTag (l.recorded now r) r.package r.version abi := by
  rw [hasTag_recorded h (filenames_nodup hr)]
  obtain ⟨g, hg, rfl⟩ := htag
  by_cases hspared : Spared r g
  · exact .inr ⟨g, ⟨hg, hspared⟩, rfl⟩
  · -- The file that takes its place has the same name, which carries the same tags.
    simp only [Spared, not_forall, not_not] at hspared
    obtain ⟨f, hf, hname⟩ := hspared
    have htags : g.tags = f.tags.canonical :=
      (hcarries g hg.1).unique (hname ▸ tags_carried hr hf)
    exact .inl ⟨⟨rfl, rfl⟩, f, hf, congrArg Tags.abi htags.symm⟩

lemma Asked.recorded (h : Sound l) (hr : ¬ Malformed r) (hasked : Asked l package version abi) :
    Asked (l.recorded now r) package version abi := by
  rw [asked_recorded h (filenames_nodup hr)]
  obtain ⟨b, hb, hp, hv, hbare, habi⟩ := hasked
  exact .inr ⟨b, hb, ⟨hp, hv⟩, fun g hg hid => absurd hid (hbare g hg), habi⟩

theorem Done.recorded (h : Sound l) (hcarries : ∀ g ∈ l.files, Carries g.filename g.tags)
    (hr : ¬ Malformed r) (hdone : Done l r.package r.version abi) :
    Done (l.recorded now r) r.package r.version abi := by
  rcases hdone with hs | hm | ha
  · exact .inl (hs.recorded h hcarries hr)
  · exact .inr (.inl (hm.recorded h hcarries hr))
  · exact .inr (.inr (ha.recorded h hr))

/-- A report without files is an attempt for the ABI that was asked for, and for no other one. -/
theorem done_recorded_of_no_files (h : Sound l) (hnil : r.files = []) :
    Done (l.recorded now r) r.package r.version abi ↔
      Done l r.package r.version abi ∨ abi = r.abi := by
  have hnames : (r.files.map (·.filename)).Nodup := by simp [hnil]
  have hspared : ∀ g, Spared r g := fun g f hf => absurd (hnil ▸ hf) List.not_mem_nil
  have htag : ∀ a, HasTag (l.recorded now r) r.package r.version a ↔
      HasTag l r.package r.version a := by
    intro a
    rw [hasTag_recorded h hnames]
    simp [hnil, hspared, HasTag]
  have hasked : Asked (l.recorded now r) r.package r.version abi ↔
      abi = r.abi ∨ Asked l r.package r.version abi := by
    rw [asked_recorded h hnames]
    simp [hnil, hspared, Asked, Bare, and_assoc, eq_comm]
  rw [Done, htag, htag, hasked, Done]
  tauto

/-- A build whose wheel is for another ABI than the one that was asked for. -/
def strayReport : BuildReport :=
  .succeeded "six" "1.16.0" "cp312" 7 .zero ""
    [{ filename := "six-1.16.0-cp313-cp313-linux_x86_64.whl", size := 1, hash := "00"
       tags := ⟨"six", "1.16.0", "cp313", "cp313", "linux_x86_64"⟩ }]

/-- A run that leaves a version to be built for three ABIs. -/
def openRun : List (Int × Operation) :=
  [(0, .addPackage "six" none), (0, .addVersion "six" "1.16.0" none none), (0, .addAbi "cp312"),
    (0, .addAbi "cp313"), (0, .addAbi "cp314")]

/-- A run that leaves the ABI that was asked for outstanding. -/
def strayRun : List (Int × Operation) := openRun ++ [(60, .commit strayReport)]

/-- A commit never reopens work of its own version, also where it takes over files of other ones. A
report without files closes the ABI that was asked for and nothing else. -/
theorem outstanding_of_commit (ops : List (Int × Operation)) {now id : Int} {r : BuildReport}
    {l : Ledger} (hcommit : (run {} ops).commit now r = .ok (id, l)) :
    (∀ abi, Outstanding l r.package r.version abi →
      Outstanding (run {} ops) r.package r.version abi) ∧
    (r.files = [] → ∀ abi, Outstanding l r.package r.version abi ↔
      Outstanding (run {} ops) r.package r.version abi ∧ abi ≠ r.abi) := by
  have h := reached_run ops
  obtain ⟨hr, -, -, -, rfl⟩ := (commit_eq_ok_iff h.sound).mp hcommit
  simp only [outstanding_iff, eligible_recorded]
  constructor
  · intro abi hmem
    obtain ⟨he, hopen⟩ := hmem
    exact ⟨he, fun hdone => hopen (hdone.recorded h.sound (fun _ => h.tags_carried) hr)⟩
  · intro hnil abi
    rw [done_recorded_of_no_files h.sound hnil, not_or, and_assoc]

theorem outstanding_after_failure :
    ∃ l, (run {} strayRun).commit 120 sampleReport = .ok (2, l) ∧
      (∀ abi, Outstanding l "six" "1.16.0" abi ↔
        Outstanding (run {} strayRun) "six" "1.16.0" abi ∧ abi ≠ "cp312") ∧
      Outstanding l "six" "1.16.0" "cp314" := by
  have hversion : (⟨"six", "1.16.0", 0, none⟩ : Version) ∈ (run {} strayRun).versions := by
    decide +kernel
  have hopen : Outstanding (run {} strayRun) "six" "1.16.0" "cp314" :=
    (mem_outstanding hversion).mp (by decide +kernel)
  have hcommit : ∃ l, (run {} strayRun).commit 120 sampleReport = .ok (2, l) := ⟨_, by rfl⟩
  obtain ⟨l, hl⟩ := hcommit
  have hclosed := (outstanding_of_commit strayRun hl).2 rfl
  exact ⟨l, hl, hclosed, (hclosed "cp314").mpr ⟨hopen, by decide⟩⟩

end WheelFarm.Ledger
