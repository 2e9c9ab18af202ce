import WheelFarm.Proofs.Ledger.Progress

/-! A report that is committed twice. The second build takes over all files of the first one, which
is then without files and counts for the ABI that it was asked for. That is new where no wheel of
the report was for this ABI. -/
namespace WheelFarm.Ledger
open Wheel

variable {l : Ledger} {now now' : Int} {r : BuildReport} {package version abi : String}

/-- Whether a report settles the ABI that was asked for: it has no wheels at all, or one that suits
this ABI. -/
def Meets (r : BuildReport) : Prop :=
  r.files = [] ∨ ∃ f ∈ r.files, f.canonicalAbi = "none" ∨ f.canonicalAbi = r.abi

lemma done_recorded_of_meets (h : Sound l) (hnames : (r.files.map (·.filename)).Nodup)
    (hmeets : Meets r) : Done (l.recorded now r) r.package r.version r.abi := by
  obtain hnil | ⟨f, hf, hs | hm⟩ := hmeets
  · exact .inr (.inr ((asked_recorded h hnames).mpr (.inl ⟨⟨rfl, rfl⟩, hnil, rfl⟩)))
  · exact .inl ((hasTag_recorded h hnames).mpr (.inl ⟨⟨rfl, rfl⟩, f, hf, hs⟩))
  · exact .inr (.inl ((hasTag_recorded h hnames).mpr (.inl ⟨⟨rfl, rfl⟩, f, hf, hm⟩)))

lemma spared_iff (h : Sound l) (hnames : (r.files.map (·.filename)).Nodup) {g : FileRow}
    (hg : g ∈ (l.recorded now r).files) : Spared r g ↔ g.build ≠ l.lastBuild + 1 := by
  rcases (mem_files_recorded hnames).mp hg with ⟨f, hf, rfl⟩ | ⟨hg, hspared⟩
  · exact ⟨fun hspared => absurd rfl (hspared f hf), fun hne => absurd rfl hne⟩
  · obtain ⟨b, hb, hbg⟩ := h.build_of_file g hg
    exact ⟨fun _ => hbg ▸ h.build_ne_next b hb, fun _ => hspared⟩

section Again
variable (h : Sound l) (h' : Sound (l.recorded now r))
  (hnames : (r.files.map (·.filename)).Nodup)
include h h' hnames

/-- The second commit leaves every version with the tags that it had. -/
theorem hasTag_resubmitted : HasTag ((l.recorded now r).recorded now' r) package version abi ↔
    HasTag (l.recorded now r) package version abi := by
  rw [hasTag_recorded h' hnames, hasTag_recorded h hnames]
  -- Of the files that the first commit left, the second one spares the old ones.
  refine or_congr_right (exists_congr fun g => and_congr_left fun _ => ?_)
  rw [ownedBy_recorded h hnames]
  constructor
  · intro hmem
    obtain ⟨⟨-, f, hf, rfl⟩ | hold, hspared⟩ := hmem
    · exact absurd rfl (hspared f hf)
    · exact hold
  · exact fun hold => ⟨.inr hold, hold.2⟩

/-- The second commit leaves the first build without files, and no other one. -/
theorem asked_resubmitted : Asked ((l.recorded now r).recorded now' r) package version abi ↔
    Asked (l.recorded now r) package version abi ∨
      ((r.package = package ∧ r.version = version) ∧ r.abi = abi) := by
  rw [asked_recorded h' hnames]
  constructor
  · intro hmem
    obtain ⟨hv, -, habi⟩ | ⟨b, hb, hv, hall, habi⟩ := hmem
    · exact .inr ⟨hv, habi⟩
    · rcases Table.mem_put.mp (recorded_builds ▸ hb) with rfl | ⟨hold, -⟩
      · exact .inr ⟨hv, habi⟩
      · refine .inl ⟨b, hb, hv.1, hv.2, fun g hg hid => ?_, habi⟩
        refine hall g hg hid ((spared_iff h hnames hg).mpr ?_)
        exact hid ▸ h.build_ne_next b hold
  · intro hmem
    obtain ⟨b, hb, hp, hv, hbare, habi⟩ | ⟨hv, habi⟩ := hmem
    · exact .inr ⟨b, hb, ⟨hp, hv⟩, fun g hg hid => absurd hid (hbare g hg), habi⟩
    · refine .inr ⟨.ofReport (l.lastBuild + 1) now r, ?_, hv, fun g hg hid => ?_, habi⟩
      · rw [recorded_builds]
        exact Table.mem_put.mpr (.inl rfl)
      · exact fun hspared => (spared_iff h hnames hg).mp hspared hid

theorem outstanding_resubmitted :
    Outstanding ((l.recorded now r).recorded now' r) package version abi ↔
      Outstanding (l.recorded now r) package version abi ∧
        (⟨package, version, abi⟩ : Target) ≠ ⟨r.package, r.version, r.abi⟩ := by
  have hsame : (⟨package, version, abi⟩ : Target) = ⟨r.package, r.version, r.abi⟩ ↔
      (r.package = package ∧ r.version = version) ∧ r.abi = abi := by
    simp only [Target.mk.injEq, eq_comm, and_assoc]
  simp only [outstanding_iff, eligible_recorded, Done, hasTag_resubmitted h h' hnames,
    asked_resubmitted h h' hnames, ne_eq, hsame, not_or, and_assoc]

end Again

/-- A report that is committed a second time takes the ABI that was asked for off the outstanding
work, and nothing else. So the targets change if and only if this ABI was due next, and they stay as
they were if the report settles it. -/
theorem targets_of_resubmission (ops : List (Int × Operation)) {now id : Int} {r : BuildReport}
    {l : Ledger} (hcommit : (run {} ops).commit now r = .ok (id, l)) (hroom : id < maxStored)
    (now' : Int) : ∃ l', l.commit now' r = .ok (id + 1, l') ∧
      (∀ package version abi, Outstanding l' package version abi ↔
        Outstanding l package version abi ∧
          (⟨package, version, abi⟩ : Target) ≠ ⟨r.package, r.version, r.abi⟩) ∧
      (l'.targets = l.targets ↔ ⟨r.package, r.version, r.abi⟩ ∉ l.targets) ∧
      (Meets r → l'.targets = l.targets) := by
  have h := (reached_run ops).sound
  obtain ⟨hr, hversion, hlast, rfl, rfl⟩ := (commit_eq_ok_iff h).mp hcommit
  have h' : Sound ((run {} ops).recorded now r) := sound_recorded h hr hversion hlast
  have hnames := filenames_nodup hr
  have hout : ∀ package version abi,
      Outstanding (((run {} ops).recorded now r).recorded now' r) package version abi ↔
        Outstanding ((run {} ops).recorded now r) package version abi ∧
          (⟨package, version, abi⟩ : Target) ≠ ⟨r.package, r.version, r.abi⟩ :=
    fun _ _ _ => outstanding_resubmitted h h' hnames
  have htargets := targets_eq_iff_of_outstanding hout
  refine ⟨_, (commit_eq_ok_iff h').mpr ⟨hr, ?_, ?_, ?_, rfl⟩, hout, htargets, fun hmeets => ?_⟩
  · rwa [recorded_versions]
  · rwa [recorded_lastBuild]
  · rw [recorded_lastBuild]
  · refine htargets.mpr fun hdue => ?_
    have hopen := (outstanding_iff.mp (mem_targets_iff.mp hdue).1).2
    exact hopen (done_recorded_of_meets h hnames hmeets)

theorem targets_of_strayReport_twice :
    ∃ l l', (run {} openRun).commit 60 strayReport = .ok (1, l) ∧ 1 < maxStored ∧
      l.commit 120 strayReport = .ok (2, l') ∧
      l.targets = [⟨"six", "1.16.0", "cp312"⟩] ∧ l'.targets ≠ l.targets := by
  have hcommit : ∃ l, (run {} openRun).commit 60 strayReport = .ok (1, l) ∧
      l.targets = [⟨"six", "1.16.0", "cp312"⟩] := ⟨_, by rfl, by decide +kernel⟩
  obtain ⟨l, hl, htargets⟩ := hcommit
  have hroom : 1 < maxStored := by decide
  obtain ⟨l', hl', -, hsame, -⟩ := targets_of_resubmission openRun hl hroom 120
  refine ⟨l, l', hl, hroom, hl', htargets, fun he => ?_⟩
  exact hsame.mp he (htargets ▸ List.mem_cons_self)

/-- With a wheel for another ABI that is built twice, the ABI that was asked for is passed over,
although no build failed at it. -/
theorem resubmission_skips_abi :
    (commits (journal {} (strayRun ++ [(120, .commit strayReport)]))).length = 2 ∧
    (run {} strayRun).targets = [⟨"six", "1.16.0", "cp312"⟩] ∧
    (run {} (strayRun ++ [(120, .commit strayReport)])).targets =
      [⟨"six", "1.16.0", "cp314"⟩] := by
  decide +kernel

end WheelFarm.Ledger
