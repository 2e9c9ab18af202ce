import Mathlib.Logic.Equiv.Basic
import WheelFarm.Proofs.Ledger.CommitOutcome
import WheelFarm.Proofs.Ledger.Progress
import WheelFarm.Proofs.Ledger.Renumbering
import WheelFarm.Proofs.Ledger.Settled

/-! Two reports that have no file in common can be committed in either order. Each has the same
outcome, and the ledgers that they lead to differ in the two new numbers alone, also where both take
files from one older build. Only a ledger with a single number left tells the orders apart. -/
namespace WheelFarm.Ledger
open Wheel

/-- Reports that have no file in common. -/
def Apart (r s : BuildReport) : Prop := ∀ f ∈ r.files, ∀ g ∈ s.files, f.filename ≠ g.filename

instance (r s : BuildReport) : Decidable (Apart r s) :=
  inferInstanceAs (Decidable (∀ f ∈ r.files, ∀ g ∈ s.files, f.filename ≠ g.filename))

/-- What two commits answer that follow each other, and the ledger after them. -/
structure Both where
  first : Except LedgerError Reply
  second : Except LedgerError Reply
  after : Ledger

def commitBoth (l : Ledger) (now : Int) (r s : BuildReport) : Both :=
  let one := l.step now (.commit r)
  let two := one.2.step now (.commit s)
  ⟨one.1, two.1, two.2⟩

/-- The exchange of the numbers that two commits were given, if both of them were. -/
def Both.exchange : Both → Equiv.Perm Int
  | ⟨.ok (.recorded i), .ok (.recorded j), _⟩ => Equiv.swap i j
  | _ => .refl Int

/-- The same outcomes in the other order, up to the exchange of the new numbers. -/
structure Both.Mirrors (a b : Both) : Prop where
  first : b.first = a.second.map (Reply.renumber a.exchange)
  second : b.second = a.first.map (Reply.renumber a.exchange)
  after : b.after = a.after.renumber a.exchange

/-- A report that is well-formed and of a version of the catalog. -/
structure Acceptable (l : Ledger) (r : BuildReport) : Prop where
  formed : ¬ Malformed r
  listed : l.versions.has (r.package, r.version) = true

instance (l : Ledger) (r : BuildReport) : Decidable (Acceptable l r) :=
  decidable_of_iff (checkReport r = .ok () ∧ l.versions.has (r.package, r.version) = true)
    ⟨fun h => ⟨checkReport_eq_ok_iff.mp h.1, h.2⟩,
      fun h => ⟨checkReport_eq_ok_iff.mpr h.formed, h.listed⟩⟩

variable {l : Ledger} {now : Int} {r s : BuildReport}

lemma Apart.symm (h : Apart r s) : Apart s r := fun f hf g hg he => h g hg f hf he.symm

section Twice

theorem mem_builds_recorded (h : Sound l) {b : BuildRow} : b ∈ (l.recorded now r).builds ↔
    .ofReport (l.lastBuild + 1) now r = b ∨ b ∈ l.builds := by
  rw [recorded_builds, Table.mem_put, eq_comm]
  exact or_congr_right ⟨And.left, fun hb => ⟨hb, h.build_ne_next b hb⟩⟩

theorem mem_outputs_recorded (h : Sound l) {o : OutputRow} : o ∈ (l.recorded now r).outputs ↔
    ⟨l.lastBuild + 1, r.output⟩ = o ∨ o ∈ l.outputs := by
  rw [recorded_outputs, Table.mem_put, eq_comm]
  exact or_congr_right ⟨And.left, fun ho => ⟨ho, h.output_ne_next o ho⟩⟩

/-- Whether two reports both leave a file to the build that owns it. -/
def SparedByBoth (r s : BuildReport) (filename : String) : Prop :=
  (∀ f ∈ r.files, filename ≠ f.filename) ∧ ∀ f ∈ s.files, filename ≠ f.filename

lemma sparedByBoth_comm {filename : String} :
    SparedByBoth r s filename ↔ SparedByBoth s r filename := and_comm

variable (hr : ¬ Malformed r) (hs : ¬ Malformed s) (hapart : Apart r s)
include hr hs hapart

/-- A file stays with the first of two builds if the second one does not list it. -/
theorem mem_files_recorded_twice {g : FileRow} :
    g ∈ ((l.recorded now r).recorded now s).files ↔
      (∃ f ∈ r.files, .ofFile (l.lastBuild + 1) f = g) ∨
      (∃ f ∈ s.files, .ofFile (l.lastBuild + 1 + 1) f = g) ∨
      (g ∈ l.files ∧ SparedByBoth r s g.filename) := by
  have hspared : (∃ f ∈ r.files, g = .ofFile (l.lastBuild + 1) f) →
      ∀ f ∈ s.files, g.filename ≠ f.filename := by
    intro hmem
    obtain ⟨f, hf, rfl⟩ := hmem
    exact hapart f hf
  rw [mem_files_recorded (filenames_nodup hs), mem_files_recorded (filenames_nodup hr),
    recorded_lastBuild, or_and_shift hspared, or_assoc, and_assoc]
  simp only [SparedByBoth, eq_comm]

theorem mem_dependencies_recorded_twice (h : Sound l) (h' : Sound (l.recorded now r))
    {d : DependencyRow} : d ∈ ((l.recorded now r).recorded now s).dependencies ↔
      (∃ f ∈ r.files, d.filename = f.filename ∧ (d.tool, d.name) ∈ f.dependencies.pairs) ∨
      (∃ f ∈ s.files, d.filename = f.filename ∧ (d.tool, d.name) ∈ f.dependencies.pairs) ∨
      (d ∈ l.dependencies ∧ SparedByBoth r s d.filename) := by
  have hspared : (∃ f ∈ r.files, d.filename = f.filename ∧
      (d.tool, d.name) ∈ f.dependencies.pairs) → ∀ f ∈ s.files, d.filename ≠ f.filename := by
    intro hmem
    obtain ⟨f, hf, hname, -⟩ := hmem
    exact hname ▸ hapart f hf
  rw [mem_dependencies_recorded h'.file_of_dependency (filenames_nodup hs),
    mem_dependencies_recorded h.file_of_dependency (filenames_nodup hr),
    or_and_shift hspared, or_assoc, and_assoc]
  rfl

end Twice

/-- The exchange of the next two numbers. -/
def nextExchange (l : Ledger) : Equiv.Perm Int :=
  Equiv.swap (l.lastBuild + 1) (l.lastBuild + 1 + 1)

section Exchange

lemma nextExchange_first (l : Ledger) : l.nextExchange (l.lastBuild + 1) = l.lastBuild + 1 + 1 :=
  Equiv.swap_apply_left _ _

lemma nextExchange_second (l : Ledger) : l.nextExchange (l.lastBuild + 1 + 1) = l.lastBuild + 1 :=
  Equiv.swap_apply_right _ _

lemma nextExchange_build (h : Sound l) {b : BuildRow} (hb : b ∈ l.builds) :
    l.nextExchange b.id = b.id := by
  have hle := (h.build_numbered b hb).2
  exact Equiv.swap_apply_of_ne_of_ne (by omega) (by omega)

lemma renumber_old_build (h : Sound l) {b : BuildRow} (hb : b ∈ l.builds) :
    b.renumber l.nextExchange = b := by
  rw [BuildRow.renumber, nextExchange_build h hb]

lemma renumber_old_output (h : Sound l) {o : OutputRow} (ho : o ∈ l.outputs) :
    o.renumber l.nextExchange = o := by
  obtain ⟨b, hb, hid⟩ := h.build_of_output o ho
  rw [OutputRow.renumber, ← hid, nextExchange_build h hb, hid]

lemma renumber_old_file (h : Sound l) {f : FileRow} (hf : f ∈ l.files) :
    f.renumber l.nextExchange = f := by
  obtain ⟨b, hb, hid⟩ := h.build_of_file f hf
  rw [FileRow.renumber, ← hid, nextExchange_build h hb, hid]

lemma exists_fixed {α : Type} {p : α → Prop} {f : α → α} (hf : ∀ a, p a → f a = a) {b : α} :
    (∃ a, p a ∧ f a = b) ↔ p b := by
  constructor
  · intro hmem
    obtain ⟨a, ha, rfl⟩ := hmem
    rwa [hf a ha]
  · exact fun hb => ⟨b, hb, hf b hb⟩

lemma renumber_ofReport (σ : Equiv.Perm Int) (id now : Int) (r : BuildReport) :
    (BuildRow.ofReport id now r).renumber σ = .ofReport (σ id) now r := rfl

lemma renumber_log (σ : Equiv.Perm Int) (build : Int) (text : String) :
    OutputRow.renumber σ ⟨build, text⟩ = ⟨σ build, text⟩ := rfl

lemma renumber_ofFile (σ : Equiv.Perm Int) (build : Int) (f : BuiltFile) :
    (FileRow.ofFile build f).renumber σ = .ofFile (σ build) f := rfl

section Tables
variable (h : Sound l) (hsr : Sound (l.recorded now r)) (hss : Sound (l.recorded now s))

include h hsr hss in
lemma builds_recorded_comm : ((l.recorded now s).recorded now r).builds =
    (((l.recorded now r).recorded now s).renumber l.nextExchange).builds := by
  have hfixed : ∀ b ∈ l.builds, b.renumber l.nextExchange = b := fun b => renumber_old_build h
  refine Table.ext_mem fun b => ?_
  rw [mem_builds_renumber]
  simp only [mem_builds_recorded hsr, mem_builds_recorded hss, mem_builds_recorded h,
    recorded_lastBuild, or_and_right, exists_or, exists_eq_left', renumber_ofReport,
    nextExchange_first, nextExchange_second, exists_fixed hfixed]
  exact or_left_comm

include h hsr hss in
lemma outputs_recorded_comm : ((l.recorded now s).recorded now r).outputs =
    (((l.recorded now r).recorded now s).renumber l.nextExchange).outputs := by
  have hfixed : ∀ o ∈ l.outputs, o.renumber l.nextExchange = o := fun o => renumber_old_output h
  refine Table.ext_mem fun o => ?_
  rw [mem_outputs_renumber]
  simp only [mem_outputs_recorded hsr, mem_outputs_recorded hss, mem_outputs_recorded h,
    recorded_lastBuild, or_and_right, exists_or, exists_eq_left', renumber_log,
    nextExchange_first, nextExchange_second, exists_fixed hfixed]
  exact or_left_comm

variable (hr : ¬ Malformed r) (hs : ¬ Malformed s) (hapart : Apart r s)

include h hr hs hapart in
lemma files_recorded_comm : ((l.recorded now s).recorded now r).files =
    (((l.recorded now r).recorded now s).renumber l.nextExchange).files := by
  have hfixed : ∀ g : FileRow, g ∈ l.files ∧ SparedByBoth r s g.filename →
      g.renumber l.nextExchange = g := fun g hg => renumber_old_file h hg.1
  refine Table.ext_mem fun g => ?_
  rw [mem_files_renumber, mem_files_recorded_twice hs hr hapart.symm, sparedByBoth_comm]
  simp only [mem_files_recorded_twice hr hs hapart, or_and_right, exists_or,
    exists_exists_and_eq_and, renumber_ofFile, nextExchange_first, nextExchange_second,
    exists_fixed hfixed]
  exact or_left_comm

include h hsr hss hr hs hapart in
lemma dependencies_recorded_comm : ((l.recorded now s).recorded now r).dependencies =
    ((l.recorded now r).recorded now s).dependencies := by
  refine Table.ext_mem fun d => ?_
  rw [mem_dependencies_recorded_twice hs hr hapart.symm h hss,
    mem_dependencies_recorded_twice hr hs hapart h hsr, sparedByBoth_comm]
  exact or_left_comm

end Tables

/-- Two reports that are recorded in the other order leave the same ledger but for the exchange of
their numbers. -/
theorem recorded_comm (h : Sound l) (hr : Acceptable l r) (hs : Acceptable l s)
    (hroom : l.lastBuild < maxStored) (hapart : Apart r s) :
    (l.recorded now s).recorded now r =
      ((l.recorded now r).recorded now s).renumber l.nextExchange := by
  have hsr : Sound (l.recorded now r) := sound_recorded h hr.formed hr.listed hroom
  have hss : Sound (l.recorded now s) := sound_recorded h hs.formed hs.listed hroom
  apply Ledger.ext
  case builds => exact builds_recorded_comm h hsr hss
  case outputs => exact outputs_recorded_comm h hsr hss
  case files => exact files_recorded_comm h hr.formed hs.formed hapart
  case dependencies => exact dependencies_recorded_comm h hsr hss hr.formed hs.formed hapart
  all_goals simp only [renumber, recorded_packages, recorded_versions, recorded_abis,
    recorded_serial, recorded_lastBuild]

end Exchange

section Outcomes

lemma acceptable_congr {l' : Ledger} (h : l'.versions = l.versions) :
    Acceptable l' r ↔ Acceptable l r := by
  constructor
  · exact fun ha => ⟨ha.formed, h ▸ ha.listed⟩
  · exact fun ha => ⟨ha.formed, h.symm ▸ ha.listed⟩

lemma acceptable_recorded : Acceptable (l.recorded now s) r ↔ Acceptable l r :=
  acceptable_congr recorded_versions

lemma step_acceptable (h : Sound l) (hr : Acceptable l r) (hroom : l.lastBuild < maxStored) :
    l.step now (.commit r) = (.ok (.recorded (l.lastBuild + 1)), l.recorded now r) :=
  step_commit ((commit_eq_ok_iff h).mpr ⟨hr.formed, hr.listed, hroom, rfl, rfl⟩)

/-- A report that is committed over and over gets a new number each time. -/
theorem run_commits (h : Sound l) (hr : Acceptable l r) (now : Int) (n : Nat)
    (hroom : l.lastBuild + n ≤ maxStored) :
    (l.run (List.replicate n (now, .commit r))).lastBuild = l.lastBuild + n ∧
      (l.run (List.replicate n (now, .commit r))).versions = l.versions := by
  induction n with
  | zero => exact ⟨(Int.add_zero _).symm, rfl⟩
  | succ n ih =>
    obtain ⟨hlast, hversions⟩ := ih (by omega)
    have hsound := sound_run h (List.replicate n (now, .commit r))
    rw [List.replicate_succ', run_concat,
      step_acceptable hsound ((acceptable_congr hversions).mpr hr) (by omega)]
    refine ⟨?_, recorded_versions.trans hversions⟩
    rw [recorded_lastBuild, hlast]
    omega

lemma step_refused {e : LedgerError} (he : l.commit now r = .error e) :
    l.step now (.commit r) = (.error e, l) :=
  step_error (by rw [perform, he]; rfl)

lemma step_full (h : Sound l) (hr : Acceptable l r) (hfull : ¬ l.lastBuild < maxStored) :
    l.step now (.commit r) = (.error .storage, l) := by
  refine step_refused ?_
  rw [commit_eq h, checkReport_eq_ok_iff.mpr hr.formed]
  exact (if_pos hr.listed).trans (if_neg hfull)

lemma commit_unacceptable (now : Int) (hr : ¬ Acceptable l r) : ∃ e, ∀ l', Sound l' →
    l'.versions = l.versions → l'.commit now r = .error e := by
  -- A malformed report is refused as such; of the ledger only the versions count for a refusal.
  by_cases hformed : Malformed r
  · cases hcheck : checkReport r with
    | ok u => exact absurd hformed (checkReport_eq_ok_iff.mp hcheck)
    | error why =>
      refine ⟨.malformedReport why, fun l' h' _ => ?_⟩
      rw [commit_eq h', hcheck]
  · refine ⟨.versionNotFound r.package r.version, fun l' h' hversions => ?_⟩
    rw [commit_eq h', checkReport_eq_ok_iff.mpr hformed, hversions]
    exact if_neg fun hlisted => hr ⟨hformed, hlisted⟩

lemma versions_step_commit (h : Sound l) : (l.step now (.commit r)).2.versions = l.versions := by
  cases hcommit : l.commit now r with
  | error e => rw [step_refused hcommit]
  | ok done =>
    obtain ⟨-, -, -, -, hl⟩ := (commit_eq_ok_iff h).mp hcommit
    rw [step_commit hcommit, hl, recorded_versions]

lemma commitBoth_of_unacceptable (h : Sound l) (hr : ¬ Acceptable l r) (now : Int)
    (s : BuildReport) : ∃ e,
    l.commitBoth now r s =
      ⟨.error e, (l.step now (.commit s)).1, (l.step now (.commit s)).2⟩ ∧
    l.commitBoth now s r =
      ⟨(l.step now (.commit s)).1, .error e, (l.step now (.commit s)).2⟩ := by
  obtain ⟨e, he⟩ := commit_unacceptable now hr
  -- The other commit leaves the versions alone, and so the refusal is the same behind it.
  have hafter := he _ (sound_step h now (.commit s)) (versions_step_commit h)
  refine ⟨e, ?_, ?_⟩
  · rw [commitBoth, step_refused (he l h rfl)]
  · rw [commitBoth, step_refused hafter]

lemma commitBoth_of_acceptable (h : Sound l) (hr : Acceptable l r) (hs : Acceptable l s)
    (hroom : l.lastBuild + 1 < maxStored) : l.commitBoth now r s =
      ⟨.ok (.recorded (l.lastBuild + 1)), .ok (.recorded (l.lastBuild + 1 + 1)),
        (l.recorded now r).recorded now s⟩ := by
  have hroom₁ : l.lastBuild < maxStored := by omega
  have hsr : Sound (l.recorded now r) := sound_recorded h hr.formed hr.listed hroom₁
  have hroom₂ : (l.recorded now r).lastBuild < maxStored := recorded_lastBuild.symm ▸ hroom
  rw [commitBoth, step_acceptable h hr hroom₁,
    step_acceptable hsr (acceptable_recorded.mpr hs) hroom₂, recorded_lastBuild]

/-- The last number goes to whoever comes first. -/
theorem commitBoth_of_last (h : Sound l) (hr : Acceptable l r) (hs : Acceptable l s)
    (hlast : l.lastBuild + 1 = maxStored) : l.commitBoth now r s =
      ⟨.ok (.recorded maxStored), .error .storage, l.recorded now r⟩ := by
  have hroom : l.lastBuild < maxStored := by omega
  have hsr : Sound (l.recorded now r) := sound_recorded h hr.formed hr.listed hroom
  have hfull : ¬ (l.recorded now r).lastBuild < maxStored := by
    rw [recorded_lastBuild]
    omega
  rw [commitBoth, step_acceptable h hr hroom, step_full hsr (acceptable_recorded.mpr hs) hfull,
    hlast]

lemma commitBoth_of_full (h : Sound l) (hr : Acceptable l r) (hs : Acceptable l s)
    (hfull : ¬ l.lastBuild < maxStored) :
    l.commitBoth now r s = ⟨.error .storage, .error .storage, l⟩ := by
  rw [commitBoth, step_full h hr hfull, step_full h hs hfull]

end Outcomes

section Mirrors
variable {a b : Both}

lemma Both.exchange_of_second_error (first : Except LedgerError Reply) (e : LedgerError)
    (l : Ledger) : Both.exchange ⟨first, .error e, l⟩ = .refl Int := by
  cases first with
  | error _ => rfl
  | ok reply => cases reply <;> rfl

lemma Both.mirrors_of_error (hexchange : a.exchange = .refl Int) (hfirst : b.first = a.second)
    (hsecond : b.second = a.first) (hafter : b.after = a.after) : a.Mirrors b := by
  have hreply : ∀ x : Except LedgerError Reply, x.map (Reply.renumber (.refl Int)) = x := by
    intro x
    cases x with
    | error e => rfl
    | ok reply => cases reply <;> rfl
  constructor
  · rw [hexchange, hreply, hfirst]
  · rw [hexchange, hreply, hsecond]
  · rw [hexchange, renumber_refl, hafter]

/-- Two reports that have no file in common come out the same in either order, unless a single
number is left. -/
theorem mirrors_commitBoth (h : Sound l) (hroom : l.lastBuild + 1 ≠ maxStored)
    (hapart : Apart r s) : (l.commitBoth now r s).Mirrors (l.commitBoth now s r) := by
  by_cases hr : Acceptable l r
  · by_cases hs : Acceptable l s
    · by_cases hfull : l.lastBuild < maxStored
      · have hroom : l.lastBuild + 1 < maxStored := by omega
        rw [commitBoth_of_acceptable h hr hs hroom, commitBoth_of_acceptable h hs hr hroom]
        refine ⟨?_, ?_, recorded_comm h hr hs hfull hapart⟩
        · exact congrArg (Except.ok ∘ Reply.recorded) (nextExchange_second l).symm
        · exact congrArg (Except.ok ∘ Reply.recorded) (nextExchange_first l).symm
      · rw [commitBoth_of_full h hr hs hfull, commitBoth_of_full h hs hr hfull]
        exact Both.mirrors_of_error rfl rfl rfl rfl
    · obtain ⟨e, hsr, hrs⟩ := commitBoth_of_unacceptable h hs now r
      rw [hsr, hrs]
      exact Both.mirrors_of_error (Both.exchange_of_second_error _ e _) rfl rfl rfl
  · obtain ⟨e, hrs, hsr⟩ := commitBoth_of_unacceptable h hr now s
    rw [hsr, hrs]
    exact Both.mirrors_of_error rfl rfl rfl rfl

end Mirrors

/-- Two reports that have no file in common can be committed in either order at the same moment,
unless a single number is left for them. Each is recorded or refused as it is in the other order,
and the ledgers are equal after the exchange of the new numbers. So all that is read off them is the
same, up to this exchange where it shows numbers at all. -/
theorem commits_commute (ops : List (Int × Operation))
    (hroom : (commits (journal {} ops)).length + 1 ≠ maxStored) (now : Int) {r s : BuildReport}
    (hapart : Apart r s) :
    let a := (run {} ops).commitBoth now r s
    let b := (run {} ops).commitBoth now s r
    let σ := a.exchange
    b.first = a.second.map (Reply.renumber σ) ∧
    b.second = a.first.map (Reply.renumber σ) ∧
    b.after = a.after.renumber σ ∧
    b.after.targets = a.after.targets ∧
    (∀ moment, b.after.statistics moment = a.after.statistics moment) ∧
    (∀ filename, b.after.dependenciesOf filename = a.after.dependenciesOf filename) ∧
    (∀ package version, b.after.buildsOf package version =
      (a.after.buildsOf package version).map (renumberBuilds σ)) ∧
    (∀ build, b.after.filesOfBuild (σ build) =
      (a.after.filesOfBuild build).map (List.map (·.renumber σ))) ∧
    (∀ package, b.after.filesOfPackage package =
      (a.after.filesOfPackage package).map (List.map (·.renumber σ))) := by
  intro a b σ
  have h := (reached_run ops).sound
  have hlast : (run {} ops).lastBuild + 1 ≠ maxStored := (reached_run ops).lastBuild ▸ hroom
  obtain ⟨hfirst, hsecond, hafter⟩ : a.Mirrors b := mirrors_commitBoth h hlast hapart
  have ha : Sound a.after := sound_step (sound_step h now (.commit r)) now (.commit s)
  have hb : Sound (a.after.renumber σ) :=
    hafter ▸ sound_step (sound_step h now (.commit s)) now (.commit r)
  refine ⟨hfirst, hsecond, hafter, ?_⟩
  rw [hafter]
  exact ⟨targets_renumber σ _, statistics_renumber σ _, dependenciesOf_renumber σ _,
    buildsOf_renumber ha hb, filesOfBuild_renumber ha hb, filesOfPackage_renumber ha hb⟩

/-- A run whose one build owns a universal wheel and another one. -/
def contestedRun : List (Int × Operation) := twoVersions ++
  [(60, .commit (.succeeded "six" "1.16.0" "cp312" 7 .zero ""
    (sampleFile 1 :: strayReport.files)))]

/-- Two reports take the two wheels from the old build, one of them for another version. In the other
order the first report has the number 3, and what is left to be built is the same. -/
theorem contestedRun_either_order :
    (commits (journal {} contestedRun)).length + 1 ≠ maxStored ∧
    Apart (universalReport "1.17.0" 2) strayReport ∧
    ((run {} contestedRun).commitBoth 120 strayReport (universalReport "1.17.0" 2)).second =
      .ok (.recorded 3) ∧
    ((run {} contestedRun).commitBoth 120 strayReport (universalReport "1.17.0" 2)).after.targets =
      [] ∧
    ((run {} contestedRun).commitBoth 120 strayReport
      (universalReport "1.17.0" 2)).after.filesOfBuild 3 = .ok [.ofFile 3 (sampleFile 2)] := by
  have hcount : (commits (journal {} contestedRun)).length = 1 := by decide +kernel
  have hroom : (commits (journal {} contestedRun)).length + 1 ≠ maxStored := by
    rw [hcount]
    decide
  have hapart : Apart (universalReport "1.17.0" 2) strayReport := by decide +kernel
  obtain ⟨-, hsecond, -, htargets, -, -, -, hfiles, -⟩ :=
    commits_commute contestedRun hroom 120 hapart
  refine ⟨hroom, hapart, hsecond.trans (by rfl), htargets.trans (by decide +kernel), ?_⟩
  exact (hfiles 2).trans (by rfl)

/-- A run that leaves a single number. -/
def crowdedRun : List (Int × Operation) :=
  twoVersions ++ List.replicate (maxStored - 1).toNat (60, .commit sampleReport)

lemma crowdedRun_leaves_one : (run {} crowdedRun).lastBuild + 1 = maxStored ∧
    (run {} crowdedRun).versions = (run {} twoVersions).versions := by
  have hsound : Sound (run {} twoVersions) := sound_run sound_fresh _
  have hr : Acceptable (run {} twoVersions) sampleReport := by decide
  have hfresh : (run {} twoVersions).lastBuild = 0 := rfl
  have hroom : (run {} twoVersions).lastBuild + (maxStored - 1).toNat ≤ maxStored := by
    rw [hfresh, maxStored]
    omega
  -- The run is far too long to be carried out, so that only its count is followed.
  obtain ⟨hlast, hversions⟩ := run_commits hsound hr 60 (maxStored - 1).toNat hroom
  rw [crowdedRun, run_append]
  refine ⟨?_, hversions⟩
  rw [hlast, hfresh, maxStored]
  omega

/-- With a single number left, the first of two reports that have no file in common is recorded and
the second one is refused, so that each of them fares otherwise in the other order. With more numbers
left, the builds of a version are listed by number, and do not keep their places when the numbers are
exchanged. -/
theorem crowdedRun_tells_orders :
    Apart strayReport (universalReport "1.17.0" 2) ∧
    ((run {} crowdedRun).commitBoth 120 strayReport (universalReport "1.17.0" 2)).first =
      .ok (.recorded maxStored) ∧
    ((run {} crowdedRun).commitBoth 120 (universalReport "1.17.0" 2) strayReport).second =
      .error .storage ∧
    (let a := (run {} twoVersions).commitBoth 120 sampleReport strayReport
     let b := (run {} twoVersions).commitBoth 120 strayReport sampleReport
     Apart sampleReport strayReport ∧
     (a.after.buildsOf "six" "1.16.0").map (List.map (a.exchange ∘ Build.id)) = .ok [2, 1] ∧
     (b.after.buildsOf "six" "1.16.0").map (List.map Build.id) = .ok [1, 2]) := by
  obtain ⟨hlast, hversions⟩ := crowdedRun_leaves_one
  have hsound : Sound (run {} crowdedRun) := sound_run sound_fresh _
  have hr : Acceptable (run {} crowdedRun) strayReport :=
    (acceptable_congr hversions).mpr (by decide)
  have hs : Acceptable (run {} crowdedRun) (universalReport "1.17.0" 2) :=
    (acceptable_congr hversions).mpr (by decide)
  refine ⟨by decide +kernel, ?_, ?_, ?_⟩
  · rw [commitBoth_of_last hsound hr hs hlast]
  · rw [commitBoth_of_last hsound hs hr hlast]
  · exact ⟨by decide, by rfl, by rfl⟩

end WheelFarm.Ledger
