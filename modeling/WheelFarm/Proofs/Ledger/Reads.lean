import WheelFarm.Proofs.Ledger.Admission

/-! Reading what is stored. Whatever contents the schema admits, a read tells the stored integers as
they are, or it fails because one of them has no reading; it depends on the rows that it selects
alone. What the operations store can always be read. -/
namespace WheelFarm.Ledger
open Wheel

/-- What can be asked of a ledger. -/
inductive Query
  | packages
  | versions (package : String)
  | abis
  | targets
  | builds (package version : String)
  | output (build : Int)
  | filesOfBuild (build : Int)
  | filesOfPackage (package : String)
  | dependencies (filename : String)
  | serial
  | statistics

def Query.Answer : Query → Type
  | packages => List Package
  | versions _ => List Version
  | abis => List String
  | targets => List Target
  | builds .. => List Build
  | output _ => String
  | filesOfBuild _ | filesOfPackage _ => List FileRecord
  | dependencies _ => Dependencies
  | serial => UInt64
  | statistics => Statistics

/-- The answer at the moment that the clock shows. -/
def ask (l : Ledger) (now : Int) : (q : Query) → Except LedgerError q.Answer
  | .packages => .ok l.packages.rows
  | .versions package => l.versionsOf package
  | .abis => .ok l.abis.rows
  | .targets => .ok l.targets
  | .builds package version => l.buildsOf package version
  | .output build => l.outputOf build
  | .filesOfBuild build => l.filesOfBuild build
  | .filesOfPackage package => l.filesOfPackage package
  | .dependencies filename => .ok (l.dependenciesOf filename)
  | .serial => l.currentSerial
  | .statistics => l.statistics now

/-- Whether a file is owned by a build of a package. -/
def isOfPackage (l : Ledger) (package : String) (f : FileRow) : Bool :=
  l.builds.rows.any fun b => b.id = f.build ∧ b.package = package

/-- The files that pass a test, with their dependencies, and nothing else. -/
def onlyFiles (l : Ledger) (p : FileRow → Bool) : Ledger where
  files := l.files.filter p
  dependencies := l.dependencies.filter fun d => (l.files.filter p).has d.filename

/-- The rows that a query selects, and no others. -/
def selected (l : Ledger) : Query → Ledger
  | .packages => { packages := l.packages }
  | .versions package => { versions := l.versions.filter fun v => v.package = package }
  | .abis => { abis := l.abis }
  | .targets =>
    { packages := l.packages, versions := l.versions, abis := l.abis, builds := l.builds,
      files := l.files }
  | .builds package version =>
    { builds := l.builds.filter fun b => b.package = package ∧ b.version = version }
  | .output build => { outputs := l.outputs.filter fun o => o.build = build }
  | .filesOfBuild build => l.onlyFiles fun f => f.build = build
  | .filesOfPackage package =>
    { l.onlyFiles (l.isOfPackage package) with
      builds := l.builds.filter fun b => b.package = package }
  | .dependencies filename =>
    { dependencies := l.dependencies.filter fun d => d.filename = filename }
  | .serial => { serial := l.serial }
  | .statistics =>
    { packages := l.packages, versions := l.versions, builds := l.builds, files := l.files }

variable {l : Ledger} {package version : String}

section Selection

lemma filter_filter_of_imp {α : Type} {p q : α → Bool} {rows : List α}
    (h : ∀ r ∈ rows, p r = true → q r = true) : (rows.filter p).filter q = rows.filter p :=
  List.filter_eq_self.mpr fun r hr =>
    h r (List.mem_filter.mp hr).1 (List.mem_filter.mp hr).2

lemma filesWhere_onlyFiles {p q : FileRow → Bool} (l' : Ledger)
    (hfiles : l'.files = (l.onlyFiles p).files)
    (hdependencies : l'.dependencies = (l.onlyFiles p).dependencies)
    (h : ∀ f ∈ l.files, p f = true → q f = true) : l'.filesWhere q = l.filesWhere p := by
  have hrows : l'.files.filter q = l.files.filter p := by
    rw [hfiles]
    exact Table.ext_rows (filter_filter_of_imp h)
  have hkept : l'.dependencies.rows.filter (fun d => (l.files.filter p).has d.filename) =
      l.dependencies.rows.filter fun d => (l.files.filter p).has d.filename := by
    rw [hdependencies]
    exact filter_filter_of_imp fun _ _ hd => hd
  simp only [filesWhere, hrows, hkept]

lemma isOfPackage_selected {f : FileRow} (h : l.isOfPackage package f = true) :
    (l.selected (.filesOfPackage package)).isOfPackage package f = true := by
  obtain ⟨b, hb, hmatch⟩ := List.any_eq_true.mp h
  refine List.any_eq_true.mpr ⟨b, ?_, hmatch⟩
  exact Table.mem_filter.mpr ⟨hb, decide_eq_true (of_decide_eq_true hmatch).2⟩

/-- Rows that a query does not select do not influence its answer. -/
theorem ask_selected (l : Ledger) (now : Int) (q : Query) :
    (l.selected q).ask now q = l.ask now q := by
  cases q with
  | packages | abis | targets | serial | statistics => rfl
  | versions package =>
    change versionsOf (l.selected _) package = l.versionsOf package
    have hrows : (l.selected (.versions package)).versions.rows.filter
        (fun v => v.package = package) = l.versions.rows.filter fun v => v.package = package :=
      filter_filter_of_imp fun _ _ hv => hv
    rw [versionsOf, versionsOf, hrows]
  | builds package version =>
    change buildsOf (l.selected _) package version = l.buildsOf package version
    have hrows : (l.selected (.builds package version)).buildRows package version =
        l.buildRows package version := filter_filter_of_imp fun _ _ hb => hb
    rw [buildsOf, buildsOf, hrows]
  | output build =>
    change outputOf (l.selected _) build = l.outputOf build
    have hfind : (l.selected (.output build)).outputs.find? build = l.outputs.find? build :=
      Table.find?_congr fun o ho => by
        rw [selected, Table.mem_filter]
        exact and_iff_left (decide_eq_true ho)
    rw [outputOf, outputOf, hfind]
  | filesOfBuild build => exact filesWhere_onlyFiles _ rfl rfl fun _ _ hf => hf
  | filesOfPackage package =>
    exact filesWhere_onlyFiles _ rfl rfl fun _ _ hf => isOfPackage_selected hf
  | dependencies filename =>
    have hrows : (l.selected (.dependencies filename)).dependencies.rows.filter
        (fun d => d.filename = filename) =
          l.dependencies.rows.filter fun d => d.filename = filename :=
      filter_filter_of_imp fun _ _ hd => hd
    change Except.ok (dependenciesOf (l.selected _) filename) = .ok (l.dependenciesOf filename)
    rw [dependenciesOf, dependenciesOf, hrows]

end Selection

/-- A second outside the years that have dates. -/
def Undated (second : Int) : Prop := second < Calendar.firstSecond ∨ Calendar.lastSecond < second

instance (second : Int) : Decidable (Undated second) := inferInstanceAs (Decidable (_ ∨ _))

/-- What is wrong with a stored build; its worker is looked at before its date. -/
inductive BuildRow.Fault (b : BuildRow) : Datum → Prop
  | worker (h : b.worker < 0) : Fault b .workerId
  | date (hworker : 0 ≤ b.worker) (h : Undated b.builtAt) : Fault b .buildDate

/-- A build that is read as it is stored. -/
structure Build.Tells (r : Build) (b : BuildRow) : Prop where
  id : r.id = b.id
  package : r.package = b.package
  version : r.version = b.version
  worker : (r.worker.toNat : Int) = b.worker
  builtAt : r.builtAt = b.builtAt
  duration : (r.duration.nanoseconds : Int) = b.milliseconds * 1000000
  success : r.success = b.success
  abi : r.abi = b.abi

/-- A file that is read as it is stored, with the dependencies that are stored for it. -/
structure FileRecord.Tells (l : Ledger) (r : FileRecord) (f : FileRow) : Prop where
  build : r.build = f.build
  filename : r.file.filename = f.filename
  size : (r.file.size.toNat : Int) = f.size
  hash : r.file.hash = f.hash
  tags : r.file.tags = f.tags
  dependencies : ∀ tool name,
    (tool, name) ∈ r.file.dependencies.pairs ↔ ⟨f.filename, tool, name⟩ ∈ l.dependencies

/-- A ledger whose reads tell what is stored, save for dates and workers that have no reading. -/
structure Truthful (l : Ledger) : Prop where
  packages : ∀ now, l.ask now .packages = .ok l.packages.rows
  versions_error : ∀ package e, l.versionsOf package = .error e ↔
    e = .invalidData .releaseDate ∧ ∃ v ∈ l.versions, v.package = package ∧ Undated v.released
  versions : ∀ package vs, l.versionsOf package = .ok vs →
    vs.Perm (l.versions.rows.filter fun v => v.package = package)
  builds_fail : ∀ package version, (∃ e, l.buildsOf package version = .error e) ↔
    ∃ b ∈ l.buildRows package version, b.worker < 0 ∨ Undated b.builtAt
  /-- The error is that of the first build that has one. -/
  builds_error : ∀ package version e, l.buildsOf package version = .error e ↔
    ∃ b ∈ l.buildRows package version, ∃ d, b.Fault d ∧ e = .invalidData d ∧
      ∀ c ∈ l.buildRows package version, c.id < b.id → ∀ d', ¬ c.Fault d'
  builds : ∀ package version bs, l.buildsOf package version = .ok bs →
    List.Forall₂ Build.Tells bs (l.buildRows package version)
  filesOfBuild : ∀ build, ∃ rs, l.filesOfBuild build = .ok rs ∧
    List.Forall₂ (FileRecord.Tells l) rs (l.owned build)
  filesOfPackage : ∀ package, ∃ rs, l.filesOfPackage package = .ok rs ∧
    List.Forall₂ (FileRecord.Tells l) rs (l.files.rows.filter (l.isOfPackage package))
  serial : ∃ n, l.currentSerial = .ok n ∧ (n.toNat : Int) = l.serial

lemma hasDate_eq_false_iff {second : Int} :
    Calendar.hasDate second = false ↔ Undated second := by
  rw [Calendar.hasDate, Bool.and_eq_false_iff, decide_eq_false_iff_not, decide_eq_false_iff_not,
    Int.not_le, Int.not_le, Undated]

lemma hasDate_eq_true_iff {second : Int} :
    Calendar.hasDate second = true ↔ ¬ Undated second := by
  rw [← hasDate_eq_false_iff, Bool.not_eq_false]

section Versions

lemma versionsOf_eq_ite (l : Ledger) (package : String) : l.versionsOf package =
    if (l.sortedVersions package).all fun v => Calendar.hasDate v.released
      then .ok (l.sortedVersions package) else .error (.invalidData .releaseDate) := rfl

theorem versionsOf_eq_error_iff {e : LedgerError} : l.versionsOf package = .error e ↔
    e = .invalidData .releaseDate ∧
      ∃ v ∈ l.versions, v.package = package ∧ Undated v.released := by
  have hall : (l.sortedVersions package).all (fun v => Calendar.hasDate v.released) = false ↔
      ∃ v ∈ l.versions, v.package = package ∧ Undated v.released := by
    simp only [List.all_eq_false, mem_sortedVersions, Bool.not_eq_true, hasDate_eq_false_iff,
      and_assoc]
  rw [versionsOf_eq_ite, ← hall]
  cases (l.sortedVersions package).all fun v => Calendar.hasDate v.released with
  | false => simp [eq_comm]
  | true => simp

theorem perm_of_versionsOf {vs : List Version} (h : l.versionsOf package = .ok vs) :
    vs.Perm (l.versions.rows.filter fun v => v.package = package) := by
  rw [versionsOf_eq_ite] at h
  split at h
  · cases h
    exact l.sortedVersions_perm package
  · cases h

end Versions

section Builds
variable {b : BuildRow}

theorem BuildRow.exists_fault_iff : (∃ d, b.Fault d) ↔ b.worker < 0 ∨ Undated b.builtAt := by
  constructor
  · rintro ⟨d, hfault⟩
    cases hfault with
    | worker hworker => exact .inl hworker
    | date _ hdate => exact .inr hdate
  · intro hfaulty
    by_cases hworker : b.worker < 0
    · exact ⟨_, .worker hworker⟩
    · exact ⟨_, .date (Int.not_lt.mp hworker) (hfaulty.resolve_left hworker)⟩

lemma BuildRow.read_eq (h : 0 ≤ b.milliseconds) : b.read =
    if b.worker < 0 then .error (.invalidData .workerId)
    else if Calendar.hasDate b.builtAt then .ok b.toBuild
    else .error (.invalidData .buildDate) := by
  by_cases hworker : b.worker < 0
  · rw [if_pos hworker, read, readWord, if_neg (Int.not_le.mpr hworker)]
    rfl
  · simp only [read, readWord, if_pos h, if_pos (Int.not_lt.mp hworker), if_neg hworker]
    cases Calendar.hasDate b.builtAt <;> rfl

lemma BuildRow.read_eq_error_iff (h : 0 ≤ b.milliseconds) {e : LedgerError} :
    b.read = .error e ↔ ∃ d, b.Fault d ∧ e = .invalidData d := by
  rw [read_eq h]
  constructor
  · intro herror
    split_ifs at herror with hworker hdate
    · cases herror
      exact ⟨_, .worker hworker, rfl⟩
    · cases herror
      have hundated := hasDate_eq_false_iff.mp (Bool.eq_false_iff.mpr hdate)
      exact ⟨_, .date (Int.not_lt.mp hworker) hundated, rfl⟩
  · rintro ⟨d, hfault, rfl⟩
    cases hfault with
    | worker hworker => rw [if_pos hworker]
    | date hworker hdate =>
      rw [if_neg (Int.not_lt.mpr hworker), hasDate_eq_false_iff.mpr hdate]
      rfl

lemma BuildRow.read_eq_ok_iff (h : 0 ≤ b.milliseconds) {r : Build} :
    b.read = .ok r ↔ (∀ d, ¬ b.Fault d) ∧ r = b.toBuild := by
  rw [← not_exists, exists_fault_iff, read_eq h, not_or, ← hasDate_eq_true_iff]
  split_ifs with hworker hdate
  · simp [hworker]
  · simp [hworker, hdate, eq_comm]
  · simp [hdate]

lemma BuildRow.exists_read_iff (h : 0 ≤ b.milliseconds) :
    (∃ r, b.read = .ok r) ↔ ∀ d, ¬ b.Fault d := by
  simp only [read_eq_ok_iff h, exists_and_left, exists_eq, and_true]

lemma buildRows_ordered (l : Ledger) (package version : String) :
    (l.buildRows package version).Pairwise fun b c => b.id < c.id :=
  l.builds.ordered.filter _

lemma tells_toBuild (hb : b.IsAdmitted) (hworker : 0 ≤ b.worker) : b.toBuild.Tells b := by
  constructor
  case worker => exact toNat_toNat_of_stored ⟨hworker, hb.worker.2⟩
  case duration =>
    rw [nanoseconds_toBuild, milliseconds_toBuild hb.milliseconds]
    push_cast
    rfl
  all_goals rfl

variable (h : Admitted l)
include h

lemma milliseconds_nonneg (hb : b ∈ l.buildRows package version) : 0 ≤ b.milliseconds :=
  (h.build_admitted b (mem_buildRows.mp hb).1).milliseconds.1

theorem buildsOf_eq_error_iff {e : LedgerError} : l.buildsOf package version = .error e ↔
    ∃ b ∈ l.buildRows package version, ∃ d, b.Fault d ∧ e = .invalidData d ∧
      ∀ c ∈ l.buildRows package version, c.id < b.id → ∀ d', ¬ c.Fault d' := by
  rw [buildsOf, mapM_eq_error_iff_of_pairwise Int.lt_asymm (l.buildRows_ordered package version)]
  refine exists_congr fun b => and_congr_right fun hb => ?_
  have hearlier : (∀ c ∈ l.buildRows package version, c.id < b.id → ∃ r, c.read = .ok r) ↔
      ∀ c ∈ l.buildRows package version, c.id < b.id → ∀ d', ¬ c.Fault d' :=
    forall₂_congr fun c hc => by rw [BuildRow.exists_read_iff (milliseconds_nonneg h hc)]
  rw [BuildRow.read_eq_error_iff (milliseconds_nonneg h hb), hearlier]
  simp only [← and_assoc, exists_and_right]

theorem buildsOf_fails_iff : (∃ e, l.buildsOf package version = .error e) ↔
    ∃ b ∈ l.buildRows package version, b.worker < 0 ∨ Undated b.builtAt := by
  constructor
  · rintro ⟨e, herror⟩
    obtain ⟨b, hb, d, hfault, -⟩ := (buildsOf_eq_error_iff h).mp herror
    exact ⟨b, hb, BuildRow.exists_fault_iff.mp ⟨d, hfault⟩⟩
  · rintro ⟨b, hb, hfaulty⟩
    cases hread : l.buildsOf package version with
    | error e => exact ⟨e, rfl⟩
    | ok bs =>
      obtain ⟨d, hfault⟩ := BuildRow.exists_fault_iff.mpr hfaulty
      have hfine := (BuildRow.exists_read_iff (milliseconds_nonneg h hb)).mp
        (exists_ok_of_mapM hread b hb)
      exact absurd hfault (hfine d)

theorem tells_of_buildsOf {bs : List Build} (hbs : l.buildsOf package version = .ok bs) :
    List.Forall₂ Build.Tells bs (l.buildRows package version) := by
  have hread : ∀ b ∈ l.buildRows package version, (∀ d, ¬ b.Fault d) ∧ b.read = .ok b.toBuild := by
    intro b hb
    obtain ⟨r, hr⟩ := exists_ok_of_mapM hbs b hb
    obtain ⟨hfine, rfl⟩ := (BuildRow.read_eq_ok_iff (milliseconds_nonneg h hb)).mp hr
    exact ⟨hfine, hr⟩
  have hmap := mapM_eq_ok fun b hb => (hread b hb).2
  cases hbs.symm.trans hmap
  rw [List.forall₂_map_left_iff, List.forall₂_same]
  intro b hb
  have hworker : 0 ≤ b.worker := Int.not_lt.mp fun hneg => (hread b hb).1 _ (.worker hneg)
  exact tells_toBuild (h.build_admitted b (mem_buildRows.mp hb).1) hworker

end Builds

section Files
variable (h : Admitted l)
include h

lemma tells_recordOf {f : FileRow} (hf : f ∈ l.files) : (l.recordOf f).Tells l f where
  build := rfl
  filename := rfl
  size := toNat_toNat_of_stored (h.size_stored f hf)
  hash := rfl
  tags := rfl
  dependencies _ _ := mem_pairs_dependenciesOf

lemma tells_of_filesWhere (p : FileRow → Bool) : ∃ rs, l.filesWhere p = .ok rs ∧
    List.Forall₂ (FileRecord.Tells l) rs (l.files.rows.filter p) := by
  refine ⟨_, filesWhere_eq_of_sizes (fun f hf => (h.size_stored f hf).1) p, ?_⟩
  rw [List.forall₂_map_left_iff, List.forall₂_same]
  exact fun f hf => tells_recordOf h (List.mem_filter.mp hf).1

end Files

theorem Admitted.truthful (h : Admitted l) : Truthful l where
  packages _ := rfl
  versions_error _ _ := versionsOf_eq_error_iff
  versions _ _ := perm_of_versionsOf
  builds_fail _ _ := buildsOf_fails_iff h
  builds_error _ _ _ := buildsOf_eq_error_iff h
  builds _ _ _ := tells_of_buildsOf h
  filesOfBuild _ := tells_of_filesWhere h _
  filesOfPackage package := tells_of_filesWhere h (l.isOfPackage package)
  serial := ⟨_, if_pos h.serial_stored.1, toNat_toNat_of_stored h.serial_stored⟩

section Runs

lemma statistics_ne_invalidData (l : Ledger) (now : Int) (d : Datum) :
    l.statistics now ≠ .error (.invalidData d) := by
  simp only [statistics, storedSum, bind, Except.bind, pure, Except.pure]
  split_ifs <;> simp

/-- What the operations store can be read, at any moment. -/
theorem ask_run {ops : List (Int × Operation)} (hdated : ∀ op ∈ ops, Dated op) (now : Int)
    (q : Query) (d : Datum) : (run {} ops).ask now q ≠ .error (.invalidData d) := by
  have h := sound_run sound_fresh ops
  have htruthful := (admitted_run hdated).truthful
  intro herror
  cases q with
  | packages | abis | targets | dependencies => cases herror
  | versions package =>
    cases (versionsOf_eq (released_run hdated) package).symm.trans herror
  | builds package version =>
    obtain ⟨b, hb, hfaulty⟩ := (htruthful.builds_fail package version).mp ⟨_, herror⟩
    have hb := (mem_buildRows.mp hb).1
    rcases hfaulty with hworker | hdate
    · exact Int.not_lt.mpr (h.build_stored b hb).1.1 hworker
    · exact hasDate_eq_true_iff.mp (dated_builds hdated b hb) hdate
  | output build =>
    change outputOf _ build = _ at herror
    rw [outputOf] at herror
    split at herror <;> cases herror
  | filesOfBuild build =>
    obtain ⟨rs, hrs, -⟩ := htruthful.filesOfBuild build
    cases hrs.symm.trans herror
  | filesOfPackage package =>
    obtain ⟨rs, hrs, -⟩ := htruthful.filesOfPackage package
    cases hrs.symm.trans herror
  | serial =>
    obtain ⟨n, hn, -⟩ := htruthful.serial
    cases hn.symm.trans herror
  | statistics => exact statistics_ne_invalidData _ now d herror

end Runs

/-- Under the schema reads tell what is stored, or else they fail with the first date or worker that
has no reading; rows that a query does not select have no say in it. After a run of dated operations
nothing is without a reading. -/
theorem reads_truthful :
    (∀ l, Admitted l → Truthful l) ∧
    (∀ (l : Ledger) now q, (l.selected q).ask now q = l.ask now q) ∧
    ∀ ops, (∀ op ∈ ops, Dated op) →
      ∀ now q d, (run {} ops).ask now q ≠ .error (.invalidData d) := by
  refine ⟨?_, ask_selected, ?_⟩
  · intro l h
    exact h.truthful
  · intro ops hdated now q d
    exact ask_run hdated now q d

/-- A run with two builds of one version, and between them a build of another one with a wheel. -/
def threeBuilds : List (Int × Operation) := takeoverRun ++ [(180, .commit sampleReport)]

/-- Values that no operation stores, among them the last second that has a date and the next one. -/
def strayValues : List Overwrite :=
  [.builtAt 1 253402300800, .builtAt 2 253402300799, .worker 3 (-1), .fileSize 2 maxStored,
    .released "six" "1.16.0" (-377705116801)]

def strayLedger : Ledger := strayValues.foldl overwritten (run {} threeBuilds)

theorem reads_of_strayLedger : Admitted strayLedger ∧
    strayLedger.versionsOf "six" = .error (.invalidData .releaseDate) ∧
    strayLedger.buildsOf "six" "1.16.0" = .error (.invalidData .buildDate) ∧
    (∃ bs, strayLedger.buildsOf "six" "1.17.0" = .ok bs ∧
      List.Forall₂ Build.Tells bs (strayLedger.buildRows "six" "1.17.0")) ∧
    (strayLedger.selected (.builds "six" "1.17.0")).ask 240 (.builds "six" "1.17.0") =
      strayLedger.ask 240 (.builds "six" "1.17.0") ∧
    (run {} threeBuilds).ask 240 (.versions "six") ≠ .error (.invalidData .releaseDate) := by
  obtain ⟨htold, hselected, hruns⟩ := reads_truthful
  have hdated : ∀ op ∈ threeBuilds, Dated op := by decide +kernel
  have hstorable : Storable (run {} threeBuilds) strayValues := by
    refine ⟨?_, ?_, ?_, ?_, ?_, trivial⟩ <;> (change IsWord _; decide)
  have hadmitted : Admitted strayLedger := admitted_overwrites (admitted_run hdated) hstorable
  have h := htold strayLedger hadmitted
  refine ⟨hadmitted, ?_, ?_, ?_, hselected _ _ _, hruns _ hdated _ _ _⟩
  · refine (h.versions_error "six" _).mpr ⟨rfl, ⟨"six", "1.16.0", -377705116801, none⟩, ?_⟩
    exact ⟨by decide +kernel, rfl, .inl (by decide)⟩
  · -- The worker of the third build is not looked at, because the first build has no date.
    have hleast : ∀ c ∈ strayLedger.buildRows "six" "1.16.0", ¬ c.id < 1 := by decide +kernel
    refine (h.builds_error "six" "1.16.0" _).mpr
      ⟨⟨1, "six", "1.16.0", 7, 253402300800, 0, true, "cp312"⟩, by decide +kernel, _,
        .date (by decide) (.inr (by decide)), rfl, fun c hc hlt => absurd hlt (hleast c hc)⟩
  · have hfine : ¬ ∃ b ∈ strayLedger.buildRows "six" "1.17.0",
        b.worker < 0 ∨ Undated b.builtAt := by
      decide +kernel
    cases hread : strayLedger.buildsOf "six" "1.17.0" with
    | error e => exact absurd ((h.builds_fail "six" "1.17.0").mp ⟨e, hread⟩) hfine
    | ok bs => exact ⟨bs, rfl, h.builds _ _ _ hread⟩

end WheelFarm.Ledger
