import WheelFarm.Proofs.Ledger.Journal

/-! What a commit comes to. The report alone decides whether it is malformed; a well-formed report
is recorded whole if its version is in the catalog, and is refused for the missing version
otherwise. A refused commit leaves nothing behind. -/
namespace WheelFarm.Ledger

/-- A version of the catalog. -/
def Listed (l : Ledger) (package version : String) : Prop :=
  ∃ v ∈ l.versions, v.package = package ∧ v.version = version

variable {l : Ledger}

lemma has_version_iff {package version : String} :
    l.versions.has (package, version) = true ↔ Listed l package version := by
  rw [Table.has_iff]
  simp only [Keyed.key, Prod.mk.injEq]
  rfl

/-- A commit finds a report malformed if and only if it is, whatever the ledger holds. -/
theorem commit_malformed_iff (h : Sound l) (now : Int) (r : BuildReport) :
    (∃ why, l.commit now r = .error (.malformedReport why)) ↔ Malformed r := by
  rw [← not_iff_not, ← checkReport_eq_ok_iff, commit_eq h]
  cases checkReport r with
  | error why => simp
  | ok u =>
    by_cases hversion : l.versions.has (r.package, r.version) = true
    · by_cases hlast : l.lastBuild < maxStored <;> simp [hversion, hlast]
    · simp [hversion]

theorem commit_of_listed (h : Sound l) (hroom : l.lastBuild < maxStored) (now : Int)
    {r : BuildReport} (hr : ¬ Malformed r) (hlisted : Listed l r.package r.version) :
    l.commit now r = .ok (l.lastBuild + 1, l.recorded now r) :=
  (commit_eq_ok_iff h).mpr ⟨hr, has_version_iff.mpr hlisted, hroom, rfl, rfl⟩

theorem commit_of_unlisted (h : Sound l) (now : Int) {r : BuildReport} (hr : ¬ Malformed r)
    (hlisted : ¬ Listed l r.package r.version) :
    l.commit now r = .error (.versionNotFound r.package r.version) := by
  rw [commit_eq h, checkReport_eq_ok_iff.mpr hr]
  exact if_neg fun hhas => hlisted (has_version_iff.mp hhas)

/-- While numbers are left, a commit is only ever refused for the report or for the version. -/
theorem commit_error (h : Sound l) (hroom : l.lastBuild < maxStored) {now : Int} {r : BuildReport}
    {e : LedgerError} (he : l.commit now r = .error e) :
    (∃ why, e = .malformedReport why) ∨ e = .versionNotFound r.package r.version := by
  by_cases hr : Malformed r
  · obtain ⟨why, hwhy⟩ := (commit_malformed_iff h now r).mpr hr
    exact .inl ⟨why, Except.error.inj (he.symm.trans hwhy)⟩
  · by_cases hlisted : Listed l r.package r.version
    · cases he.symm.trans (commit_of_listed h hroom now hr hlisted)
    · exact .inr (Except.error.inj (he.symm.trans (commit_of_unlisted h now hr hlisted)))

/-- An operation that fails changes nothing. -/
theorem step_error {now : Int} {op : Operation} {e : LedgerError}
    (he : l.perform now op = .error e) : l.step now op = (.error e, l) := by
  rw [step, he]

/-- While numbers are left, a commit is refused as malformed if and only if its report is, and a
well-formed report is refused if and only if the catalog lacks its version. There is no other error,
and an error changes nothing, the next number included. -/
theorem commit_outcome (ops : List (Int × Operation))
    (hroom : (commits (journal {} ops)).length < maxStored) (now : Int) (r : BuildReport) :
    ((∃ why, (run {} ops).commit now r = .error (.malformedReport why)) ↔ Malformed r) ∧
    (¬ Malformed r → ((run {} ops).commit now r = .error (.versionNotFound r.package r.version) ↔
      ¬ Listed (run {} ops) r.package r.version)) ∧
    (¬ Malformed r → Listed (run {} ops) r.package r.version →
      ∃ l', (run {} ops).commit now r = .ok ((commits (journal {} ops)).length + 1, l')) ∧
    (∀ e, (run {} ops).commit now r = .error e →
      ((∃ why, e = .malformedReport why) ∨ e = .versionNotFound r.package r.version) ∧
        run {} (ops ++ [(now, .commit r)]) = run {} ops) := by
  have h := reached_run ops
  have hlast : (run {} ops).lastBuild < maxStored := by rwa [h.lastBuild]
  refine ⟨commit_malformed_iff h.sound now r, ?_, ?_, ?_⟩
  · intro hr
    constructor
    · intro he hlisted
      cases he.symm.trans (commit_of_listed h.sound hlast now hr hlisted)
    · exact commit_of_unlisted h.sound now hr
  · intro hr hlisted
    rw [← h.lastBuild]
    exact ⟨_, commit_of_listed h.sound hlast now hr hlisted⟩
  · intro e he
    refine ⟨commit_error h.sound hlast he, ?_⟩
    have hp : (run {} ops).perform now (.commit r) = .error e := by
      rw [perform, he]
      rfl
    rw [run_concat, step_error hp]

theorem commit_after_sampleRun : (commits (journal {} sampleRun)).length < maxStored ∧
    ¬ Malformed sampleReport ∧ Listed (run {} sampleRun) sampleReport.package sampleReport.version ∧
      ∃ l', (run {} sampleRun).commit 240 sampleReport = .ok (3, l') := by
  have hcount : (commits (journal {} sampleRun)).length = 2 := by decide
  have hroom : (commits (journal {} sampleRun)).length < maxStored := by
    rw [hcount]
    decide
  have hr : ¬ Malformed sampleReport := checkReport_eq_ok_iff.mp (by decide)
  have hlisted : Listed (run {} sampleRun) sampleReport.package sampleReport.version :=
    has_version_iff.mp (by decide)
  refine ⟨hroom, hr, hlisted, ?_⟩
  have hcommit := (commit_outcome sampleRun hroom 240 sampleReport).2.2.1 hr hlisted
  rwa [hcount] at hcommit

end WheelFarm.Ledger
