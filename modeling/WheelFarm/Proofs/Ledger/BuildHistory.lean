import Mathlib.Data.List.DropRight
import WheelFarm.Ledger.History
import WheelFarm.Proofs.Ledger.Journal

/-! The build history as a log. What the ledger tells about the attempts at a version are the
reports that were accepted for it since its history was last dropped, and their numbers count the
accepted reports of the whole run. -/
namespace WheelFarm

/-- The whole milliseconds of a duration. -/
def Duration.truncated (d : Duration) : Duration :=
  ⟨d.milliseconds * 1000000, by have := d.bounded; rw [Duration.milliseconds]; omega⟩

namespace Ledger

/-- Whether a commit is an attempt at a version. -/
def Commit.isOf (c : Commit) (package version : String) : Bool :=
  c.report.package = package ∧ c.report.version = version

/-- The commits for a version since its history was last dropped. -/
def attempts (es : List Entry) (package version : String) : List Commit :=
  (commits (es.rtakeWhile fun e => !e.drops package version)).filter (·.isOf package version)

/-- A commit that is still in the history of its version. -/
def Standing (es : List Entry) (c : Commit) : Prop :=
  c ∈ attempts es c.report.package c.report.version

/-- The row of the build of a commit. -/
def Commit.row (c : Commit) : BuildRow := .ofReport c.build c.moment c.report

/-- The row of the log of a commit. -/
def Commit.log (c : Commit) : OutputRow := ⟨c.build, c.report.output⟩

variable {es : List Entry} {l : Ledger}

theorem attempts_concat (es : List Entry) (e : Entry) (package version : String) :
    attempts (es ++ [e]) package version = if e.drops package version then [] else
      attempts es package version ++ (e.commit?.filter (·.isOf package version)).toList := by
  rw [attempts, List.rtakeWhile_concat]
  cases e.drops package version with
  | true => rfl
  | false =>
    simp only [Bool.not_false, ↓reduceIte, Bool.false_eq_true, commits_concat, List.filter_append,
      attempts]
    cases e.commit? with
    | none => rfl
    | some c => cases hc : c.isOf package version <;> simp [Option.filter, hc]

lemma mem_attempts_isOf {c : Commit} {package version : String}
    (h : c ∈ attempts es package version) :
    c.report.package = package ∧ c.report.version = version :=
  of_decide_eq_true (List.mem_filter.mp h).2

lemma Standing.mem_commits {c : Commit} (h : Standing es c) : c ∈ commits es := by
  obtain ⟨e, he, hc⟩ := List.mem_filterMap.mp (List.mem_filter.mp h).1
  exact List.mem_filterMap.mpr ⟨e, (List.rtakeWhile_suffix _ es).subset he, hc⟩

/-- A commit stands after one more entry if it is of that entry, or if it stood before and the entry
does not drop its version. -/
theorem standing_concat {e : Entry} {c : Commit} : Standing (es ++ [e]) c ↔
    e.drops c.report.package c.report.version = false ∧ (Standing es c ∨ e.commit? = some c) := by
  rw [Standing, attempts_concat]
  have hof : c.isOf c.report.package c.report.version = true := decide_eq_true ⟨rfl, rfl⟩
  cases e.drops c.report.package c.report.version with
  | true => simp
  | false => simp [Standing, Option.filter_eq_some_iff, hof]

lemma Standing.before {e : Entry} {c : Commit} (h : Standing (es ++ [e]) c)
    (he : e.commit? = none) : Standing es c := by
  simpa [he] using (standing_concat.mp h).2

lemma buildRows_recorded (h : Sound l) (now : Int) (r : BuildReport) (package version : String) :
    (l.recorded now r).buildRows package version = l.buildRows package version ++
      if r.package = package ∧ r.version = version then [.ofReport (l.lastBuild + 1) now r]
      else [] := by
  have hlast : ∀ b ∈ l.builds, KeyOrder.lt (Keyed.key b) (l.lastBuild + 1) := fun b hb =>
    Int.lt_add_one_of_le (h.build_numbered b hb).2
  rw [Ledger.buildRows, recorded_builds, Table.rows_put_of_last hlast, List.filter_append,
    List.filter_singleton, Bool.cond_decide]
  rfl

lemma buildRows_dropBuilds (l : Ledger) (p v package version : String) :
    (l.dropBuilds fun b => b.package = p ∧ b.version = v).buildRows package version =
      if p = package ∧ v = version then [] else l.buildRows package version := by
  change List.filter _ (List.filter _ l.builds.rows) = _
  rw [List.filter_filter]
  split
  · rw [List.filter_eq_nil_iff]
    grind
  · apply List.filter_congr
    grind

/-- The rows of the builds of a version are those of its attempts, in the same order. -/
theorem Reached.buildRows (h : Reached es l) (package version : String) :
    l.buildRows package version = (attempts es package version).map Commit.row := by
  induction h with
  | fresh => rfl
  | @next es l e l' h he _ ih =>
    rw [attempts_concat]
    cases he with
    | recorded r _ _ hc hk hl =>
      rw [hl, buildRows_recorded h.sound, ih, hk, hc]
      by_cases hr : r.package = package ∧ r.version = version
      · simp [Commit.isOf, hr, Option.filter, Commit.row]
      · simp [Commit.isOf, hr, Option.filter]
    | dropped p v hc hd hl =>
      rw [Ledger.buildRows, hl.builds]
      change Ledger.buildRows (l.dropBuilds _) package version = _
      rw [buildRows_dropBuilds, ih, hc]
      simp only [hd, Option.filter_none, Option.toList_none, List.append_nil]
      split <;> rfl
    | kept hc hk hl =>
      rw [Ledger.buildRows, hl.builds]
      change l.buildRows package version = _
      rw [ih, hk, hc]
      simp

/-- The builds on record are those of the commits that stand. -/
theorem Reached.mem_builds (h : Reached es l) {b : BuildRow} :
    b ∈ l.builds ↔ ∃ c, Standing es c ∧ c.row = b := by
  have hb : b ∈ l.builds ↔ b ∈ l.buildRows b.package b.version := by simp [mem_buildRows]
  rw [hb, h.buildRows, List.mem_map]
  constructor
  · intro hmem
    obtain ⟨c, hc, rfl⟩ := hmem
    exact ⟨c, hc, rfl⟩
  · intro hmem
    obtain ⟨c, hc, rfl⟩ := hmem
    exact ⟨c, hc, rfl⟩

/-- The logs on record are those of the commits that stand. -/
theorem Reached.mem_outputs (h : Reached es l) {o : OutputRow} :
    o ∈ l.outputs ↔ ∃ c, Standing es c ∧ c.log = o := by
  induction h with
  | fresh =>
    constructor
    · exact fun ho => absurd ho (Table.not_mem_empty o)
    · intro hmem
      obtain ⟨c, hc, -⟩ := hmem
      exact absurd hc List.not_mem_nil
  | @next es l e l' h he hs ih =>
    have hnext := h.next he hs
    cases he with
    | recorded r _ _ hc hk hl =>
      have hfree : o ∈ l.outputs → o.build ≠ l.lastBuild + 1 := h.sound.output_ne_next o
      rw [hl, recorded_outputs, Table.mem_put, ih]
      simp only [standing_concat, hk, hc, true_and, Option.some_inj]
      constructor
      · intro hmem
        rcases hmem with rfl | ⟨⟨c, hc, rfl⟩, -⟩
        · exact ⟨_, .inr rfl, rfl⟩
        · exact ⟨c, .inl hc, rfl⟩
      · intro hmem
        rcases hmem with ⟨c, hc | rfl, rfl⟩
        · exact .inr ⟨⟨c, hc, rfl⟩, hfree (ih.mpr ⟨c, hc, rfl⟩)⟩
        · exact .inl rfl
    | dropped p v hc hd hl =>
      rw [hl.outputs, mem_outputs_dropBuilds, ← hl.builds, ih]
      simp only [hnext.mem_builds]
      -- A log is kept for its number, and only the commit that wrote it has that number.
      constructor
      · intro hmem
        obtain ⟨⟨c, hs, rfl⟩, _, ⟨d, hn, rfl⟩, he⟩ := hmem
        rw [h.commit_eq hs.mem_commits (hn.before hc).mem_commits he.symm]
        exact ⟨d, hn, rfl⟩
      · intro hmem
        obtain ⟨c, hn, rfl⟩ := hmem
        exact ⟨⟨c, hn.before hc, rfl⟩, _, ⟨c, hn, rfl⟩, rfl⟩
    | kept hc hk hl =>
      rw [hl.outputs, ih]
      simp [standing_concat, hk, hc]

/-- The build that a commit left on record. -/
def Commit.toBuild (c : Commit) : Build where
  id := c.build
  package := c.report.package
  version := c.report.version
  worker := c.report.worker
  builtAt := c.moment
  duration := c.report.duration.truncated
  success := c.report.success
  abi := c.report.abi

lemma readWord_natCast (what : Datum) (n : Nat) : readWord what n = .ok (.ofNat n) := by
  rw [readWord, if_pos (Int.natCast_nonneg n), Int.toNat_natCast]

lemma ofMilliseconds_milliseconds {d : Duration} (h : d.milliseconds ≤ maxStored) :
    Duration.ofMilliseconds (.ofNat d.milliseconds) = d.truncated := by
  have hn : (UInt64.ofNat d.milliseconds).toNat = d.milliseconds := by
    rw [maxStored] at h
    rw [UInt64.toNat_ofNat', Nat.mod_eq_of_lt (by omega)]
  simp only [Duration.ofMilliseconds, Duration.truncated, hn]

lemma read_row {c : Commit} (haccepted : ¬ Malformed c.report)
    (hdate : Calendar.hasDate c.moment = true) : c.row.read = .ok c.toBuild := by
  have hms := ofMilliseconds_milliseconds (milliseconds_le haccepted)
  simp only [BuildRow.read, Commit.row, BuildRow.ofReport, readWord_natCast, hdate, hms,
    UInt64.ofNat_toNat, bind, Except.bind, pure, Except.pure, Bool.not_true, Bool.false_eq_true,
    if_false]
  rfl

theorem Reached.buildsOf (h : Reached es l)
    (hclock : ∀ c ∈ commits es, Calendar.hasDate c.moment = true) (package version : String) :
    l.buildsOf package version = .ok ((attempts es package version).map Commit.toBuild) := by
  rw [Ledger.buildsOf, h.buildRows, List.mapM_map]
  refine mapM_eq_ok fun c hc => ?_
  obtain ⟨rfl, rfl⟩ := mem_attempts_isOf hc
  have hstanding : Standing es c := hc
  have hm := hstanding.mem_commits
  exact read_row (h.accepted c hm) (hclock c hm)

theorem Reached.outputOf (h : Reached es l) {c : Commit} (hc : Standing es c) :
    l.outputOf c.build = .ok c.report.output := by
  have ho : l.outputs.find? c.build = some c.log :=
    Table.find?_eq_some_iff.mpr ⟨h.mem_outputs.mpr ⟨c, hc, rfl⟩, rfl⟩
  rw [Ledger.outputOf, ho]
  rfl

theorem Reached.outputOf_not_found (h : Reached es l) {id : Int}
    (hid : ∀ c, Standing es c → c.build ≠ id) : l.outputOf id = .error (.buildNotFound id) := by
  have ho : l.outputs.find? id = none := by
    refine Table.find?_eq_none_iff.mpr fun o ho => ?_
    obtain ⟨c, hc, rfl⟩ := h.mem_outputs.mp ho
    exact hid c hc
  rw [Ledger.outputOf, ho]

lemma hasDate_commit {ops : List (Int × Operation)}
    (hclock : ∀ op ∈ ops, Calendar.hasDate op.1 = true) :
    ∀ c ∈ commits (journal {} ops), Calendar.hasDate c.moment = true := by
  intro c hc
  obtain ⟨e, he, hec⟩ := List.mem_filterMap.mp hc
  obtain ⟨op, hop, hm⟩ := mem_journal_moment he
  rw [Entry.moment_commit? hec, ← hm]
  exact hclock op hop

/-- After every run at moments that have dates, as all moments of a clock do, the history is the log
of the accepted reports. They are numbered 1, 2, 3 and so on, the builds of a version are its reports
since its history was last dropped, and a log is found if and only if its report is left in some
history. -/
theorem history_exact (ops : List (Int × Operation))
    (hclock : ∀ op ∈ ops, Calendar.hasDate op.1 = true) :
    (commits (journal {} ops)).map (·.build) =
        (List.range (commits (journal {} ops)).length).map (fun i : Nat => (i : Int) + 1) ∧
      (∀ package version, (run {} ops).buildsOf package version =
        .ok ((attempts (journal {} ops) package version).map Commit.toBuild)) ∧
      (∀ c, Standing (journal {} ops) c → (run {} ops).outputOf c.build = .ok c.report.output) ∧
      (∀ id, (∀ c, Standing (journal {} ops) c → c.build ≠ id) →
        (run {} ops).outputOf id = .error (.buildNotFound id)) := by
  have h := reached_run ops
  exact ⟨h.numbered, h.buildsOf (hasDate_commit hclock), fun _ hc => h.outputOf hc,
    fun _ hid => h.outputOf_not_found hid⟩

theorem history_of_sampleRun : (∀ op ∈ sampleRun, Calendar.hasDate op.1 = true) ∧
    (run {} sampleRun).buildsOf "six" "1.16.0" = .ok [Commit.toBuild ⟨2, 180, sampleReport⟩] := by
  have hclock : ∀ op ∈ sampleRun, Calendar.hasDate op.1 = true := by decide
  have hattempts : attempts (journal {} sampleRun) "six" "1.16.0" = [⟨2, 180, sampleReport⟩] := by
    decide
  refine ⟨hclock, ?_⟩
  rw [(history_exact sampleRun hclock).2.1, hattempts]
  rfl

end Ledger
end WheelFarm
