import WheelFarm.Proofs.Ledger.Locality
import WheelFarm.Proofs.Ledger.Renumbering

/-! Forgetting the attempts at a version. It takes their logs, their files and the dependencies of
those files along and nothing else, after which the version is one that was never built. Dropping
the version and adding it again comes to the same ledger. -/
namespace WheelFarm.Ledger
open Wheel Text

variable {l l' l'' : Ledger} {package version : String}

/-- A ledger that is another one without the attempts at a version. -/
structure Forgets (package version : String) (l l' : Ledger) : Prop where
  packages : l'.packages = l.packages
  versions : l'.versions = l.versions
  abis : l'.abis = l.abis
  serial : l'.serial = l.serial
  lastBuild : l'.lastBuild = l.lastBuild
  builds : ∀ b, b ∈ l'.builds ↔ b ∈ l.builds ∧ b ∉ l.buildRows package version
  outputs : ∀ o, o ∈ l'.outputs ↔
    o ∈ l.outputs ∧ ∀ b ∈ l.buildRows package version, b.id ≠ o.build
  files : ∀ g, g ∈ l'.files ↔ g ∈ l.files ∧ ¬ OwnedBy l package version g
  dependencies : ∀ d, d ∈ l'.dependencies ↔
    d ∈ l.dependencies ∧ ∀ g, OwnedBy l package version g → g.filename ≠ d.filename

/-- There is one ledger without the attempts at a version. -/
theorem Forgets.unique (h : Forgets package version l l') (h' : Forgets package version l l'') :
    l' = l'' := by
  apply Ledger.ext
  · exact h.packages.trans h'.packages.symm
  · exact h.versions.trans h'.versions.symm
  · exact h.abis.trans h'.abis.symm
  · exact Table.ext_mem fun b => (h.builds b).trans (h'.builds b).symm
  · exact Table.ext_mem fun o => (h.outputs o).trans (h'.outputs o).symm
  · exact Table.ext_mem fun g => (h.files g).trans (h'.files g).symm
  · exact Table.ext_mem fun d => (h.dependencies d).trans (h'.dependencies d).symm
  · exact h.serial.trans h'.serial.symm
  · exact h.lastBuild.trans h'.lastBuild.symm

lemma not_ownedBy_of_never_built (h : l.buildRows package version = []) (g : FileRow) :
    ¬ OwnedBy l package version g := by
  rw [ownedBy_iff, h]
  simp

lemma forgets_self (h : l.buildRows package version = []) : Forgets package version l l := by
  have hunowned := not_ownedBy_of_never_built h
  constructor
  case builds => simp [h]
  case outputs => simp [h]
  case files => simp [hunowned]
  case dependencies => simp [hunowned]
  all_goals rfl

/-- The builds of a version are dropped with all that refers to them, and what refers to other
builds stays. -/
theorem forgets_dropBuilds (h : Sound l) (package version : String) :
    Forgets package version l
      (l.dropBuilds fun b => b.package = package ∧ b.version = version) := by
  have hbuilds (b : BuildRow) :
      b ∈ (l.dropBuilds fun b => b.package = package ∧ b.version = version).builds ↔
        b ∈ l.builds ∧ b ∉ l.buildRows package version := by
    rw [mem_builds_dropBuilds, mem_buildRows, decide_eq_false_iff_not]
    exact and_congr_right fun hb => not_congr (and_iff_right hb).symm
  -- A number that refers to a build is kept if and only if that build is none of the version's.
  have hkept {id : Int} (hid : ∃ b ∈ l.builds, b.id = id) :
      (∃ b ∈ (l.dropBuilds fun b => b.package = package ∧ b.version = version).builds, b.id = id) ↔
        ∀ b ∈ l.buildRows package version, b.id ≠ id := by
    obtain ⟨c, hc, rfl⟩ := hid
    constructor
    · rintro ⟨b, hb, he⟩ d hd hde
      obtain ⟨hb, hnot⟩ := (hbuilds b).mp hb
      obtain rfl : b = d :=
        Table.eq_of_key_eq hb (mem_buildRows.mp hd).1 (he.trans hde.symm)
      exact hnot hd
    · intro hnone
      exact ⟨c, (hbuilds c).mpr ⟨hc, fun hd => hnone c hd rfl⟩, rfl⟩
  have hfiles (g : FileRow) :
      g ∈ (l.dropBuilds fun b => b.package = package ∧ b.version = version).files ↔
        g ∈ l.files ∧ ¬ OwnedBy l package version g := by
    rw [mem_files_dropBuilds]
    refine and_congr_right fun hg => (hkept (h.build_of_file g hg)).trans ?_
    rw [OwnedBy, not_and]
    simp only [mem_buildRows]
    grind
  constructor
  case builds => exact hbuilds
  case outputs =>
    intro o
    rw [mem_outputs_dropBuilds]
    exact and_congr_right fun ho => hkept (h.build_of_output o ho)
  case files => exact hfiles
  case dependencies =>
    intro d
    rw [mem_dependencies_dropBuilds]
    refine and_congr_right fun hd => ?_
    obtain ⟨f, hf, hfd⟩ := h.file_of_dependency d hd
    constructor
    · rintro ⟨g, hg, he⟩ k hk hkd
      obtain ⟨hg, hnot⟩ := (hfiles g).mp hg
      obtain rfl : g = k := Table.eq_of_key_eq hg hk.1 (he.trans hkd.symm)
      exact hnot hk
    · intro hnone
      exact ⟨f, (hfiles f).mpr ⟨hf, fun ho => hnone f ho hfd⟩, hfd⟩
  all_goals rfl

section Reads

lemma Forgets.buildRows (h : Forgets package version l l') : l'.buildRows package version = [] := by
  refine List.eq_nil_iff_forall_not_mem.mpr fun b hb => ?_
  obtain ⟨hb, hof⟩ := mem_buildRows.mp hb
  obtain ⟨hb, hnot⟩ := (h.builds b).mp hb
  exact hnot (mem_buildRows.mpr ⟨hb, hof⟩)

lemma Forgets.buildsOf (h : Forgets package version l l') :
    l'.buildsOf package version = .ok [] := by
  rw [Ledger.buildsOf, h.buildRows]
  rfl

lemma Forgets.outputOf (h : Forgets package version l l') {b : BuildRow}
    (hb : b ∈ l.buildRows package version) : l'.outputOf b.id = .error (.buildNotFound b.id) := by
  have hnone : l'.outputs.find? b.id = none := by
    refine Table.find?_eq_none_iff.mpr fun o ho => ?_
    exact fun he => ((h.outputs o).mp ho).2 b hb he.symm
  rw [Ledger.outputOf, hnone]

lemma Forgets.filesOfBuild (h : Forgets package version l l') (hl' : Sound l') {b : BuildRow}
    (hb : b ∈ l.buildRows package version) : l'.filesOfBuild b.id = .ok [] := by
  have hnone : l'.files.rows.filter (fun f => f.build = b.id) = [] := by
    refine List.filter_eq_nil_iff.mpr fun g hg hid => ?_
    obtain ⟨hg, hnot⟩ := (h.files g).mp hg
    exact hnot (ownedBy_iff.mpr ⟨b, hb, mem_owned.mpr ⟨hg, of_decide_eq_true hid⟩⟩)
  rw [Ledger.filesOfBuild, filesWhere_eq hl', hnone]
  rfl

lemma Forgets.dependenciesOf (h : Forgets package version l l') {g : FileRow}
    (hg : OwnedBy l package version g) : l'.dependenciesOf g.filename = ∅ := by
  have hnone : l'.dependencies.rows.filter (fun d => d.filename = g.filename) = [] := by
    refine List.filter_eq_nil_iff.mpr fun d hd he => ?_
    exact ((h.dependencies d).mp hd).2 g hg (of_decide_eq_true he).symm
  rw [Ledger.dependenciesOf, hnone]
  rfl

end Reads

section Targets

/-- A target of a version that was never built: the least ABI, if the version is open for builds. -/
structure IsFirst (l : Ledger) (t : Target) : Prop where
  package_open : ∃ p ∈ l.packages, p.name = t.package ∧ p.skip = none
  version_open : ∃ v ∈ l.versions, v.package = t.package ∧ v.version = t.version ∧ v.skip = none
  registered : t.abi ∈ l.abis
  least : ∀ abi ∈ l.abis, abi ≠ t.abi → bytes t.abi < bytes abi

lemma untried_of_never_built (h : l.buildRows package version = []) {abi : String} :
    Untried l package version abi ↔ abi ∈ l.abis := by
  rw [untried_iff, h]
  simp

/-- The target of a version that was never built is told by the catalog and the ABIs alone. -/
theorem mem_targets_of_never_built {t : Target} (h : l.buildRows t.package t.version = []) :
    t ∈ l.targets ↔ IsFirst l t := by
  rw [mem_targets]
  constructor
  · intro hnext
    refine ⟨hnext.package_open, hnext.version_open, hnext.untried.registered, fun abi ha => ?_⟩
    exact hnext.least abi ((untried_of_never_built h).mpr ha)
  · intro hfirst
    refine ⟨hfirst.package_open, hfirst.version_open,
      fun g hg => absurd hg (not_ownedBy_of_never_built h g),
      (untried_of_never_built h).mpr hfirst.registered, fun abi ha => ?_⟩
    exact hfirst.least abi ((untried_of_never_built h).mp ha)

lemma Forgets.isFirst_iff (h : Forgets package version l l') {t : Target} :
    IsFirst l' t ↔ IsFirst l t := by
  constructor
  · rintro ⟨hp, hv, ha, hl⟩
    exact ⟨h.packages ▸ hp, h.versions ▸ hv, h.abis ▸ ha, h.abis ▸ hl⟩
  · rintro ⟨hp, hv, ha, hl⟩
    exact ⟨h.packages ▸ hp, h.versions ▸ hv, h.abis ▸ ha, h.abis ▸ hl⟩

lemma mem_targets_dropBuilds {t : Target} (h : ¬ (package = t.package ∧ version = t.version)) :
    t ∈ (l.dropBuilds fun b => b.package = package ∧ b.version = version).targets ↔
      t ∈ l.targets := by
  have hattempts := sameAttempts_dropBuilds (l := l) h
  have hentry : SameEntry t.package t.version l
      (l.dropBuilds fun b => b.package = package ∧ b.version = version) :=
    sameEntry_of_eq rfl rfl rfl
  simp only [mem_targets_iff, outstanding_congr hentry hattempts]

end Targets

/-- After every run at moments that have dates, forgetting the attempts at a version answers how
many are listed for it and takes exactly them along. Their logs, files and dependencies are gone,
those of the other versions are read as before, the version is due for what it is due for when it
was never built, and there is nothing left to forget. -/
theorem forget_exact (ops : List (Int × Operation))
    (hclock : ∀ op ∈ ops, Calendar.hasDate op.1 = true) (now : Int) (package version : String) :
    let l := run {} ops
    let l' := (l.step now (.forget package version)).2
    (∃ bs, l.buildsOf package version = .ok bs ∧
      (l.step now (.forget package version)).1 = .ok (.forgotten bs.length)) ∧
    Forgets package version l l' ∧
    l'.buildsOf package version = .ok [] ∧
    (∀ b ∈ l.buildRows package version, l'.outputOf b.id = .error (.buildNotFound b.id) ∧
      l'.filesOfBuild b.id = .ok []) ∧
    (∀ g, OwnedBy l package version g → l'.dependenciesOf g.filename = ∅) ∧
    (∀ p v, ¬ (package = p ∧ version = v) → SameAttempts p v l l') ∧
    (∀ abi, ⟨package, version, abi⟩ ∈ l'.targets ↔ IsFirst l ⟨package, version, abi⟩) ∧
    (∀ t : Target, ¬ (package = t.package ∧ version = t.version) →
      (t ∈ l'.targets ↔ t ∈ l.targets)) ∧
    ∀ later, l'.step later (.forget package version) = (.ok (.forgotten 0), l') := by
  intro l l'
  have hl : Sound l := sound_run sound_fresh ops
  have hl' : Sound l' := sound_step hl now _
  have hforgets : Forgets package version l l' := forgets_dropBuilds hl package version
  refine ⟨⟨_, (reached_run ops).buildsOf (hasDate_commit hclock) package version, ?_⟩, hforgets,
    hforgets.buildsOf, fun b hb => ⟨hforgets.outputOf hb, hforgets.filesOfBuild hl' hb⟩,
    fun g hg => hforgets.dependenciesOf hg, fun p v hother => sameAttempts_dropBuilds hother,
    fun abi => ?_, fun t hother => mem_targets_dropBuilds hother, fun later => ?_⟩
  · change Except.ok (Reply.forgotten (l.buildRows package version).length) = _
    rw [(reached_run ops).buildRows, List.length_map, List.length_map]
  · exact (mem_targets_of_never_built hforgets.buildRows).trans hforgets.isFirst_iff
  · have hagain : l'.dropBuilds (fun b => b.package = package ∧ b.version = version) = l' :=
      (forgets_dropBuilds hl' package version).unique (forgets_self hforgets.buildRows)
    change (Except.ok (Reply.forgotten (l'.buildRows package version).length),
      l'.dropBuilds fun b => b.package = package ∧ b.version = version) = _
    rw [hforgets.buildRows, hagain]
    rfl

/-- A version that was asked for the first ABI and has lost its wheel to another version is due for
that ABI again once its build is forgotten, and the wheel stays. -/
theorem forget_of_bereftRun : (∀ op ∈ bereftRun, Calendar.hasDate op.1 = true) ∧
    (⟨"six", "1.16.0", "cp312"⟩ : Target) ∉ (run {} bereftRun).targets ∧
    IsFirst (run {} bereftRun) ⟨"six", "1.16.0", "cp312"⟩ ∧
    (⟨"six", "1.16.0", "cp312"⟩ : Target) ∈
      ((run {} bereftRun).step 240 (.forget "six" "1.16.0")).2.targets ∧
    ¬ OwnedBy (run {} bereftRun) "six" "1.16.0" (.ofFile 2 (sampleFile 2)) := by
  have hclock : ∀ op ∈ bereftRun, Calendar.hasDate op.1 = true := by decide
  obtain ⟨-, hforgets, -, -, -, -, htarget, -⟩ :=
    forget_exact bereftRun hclock 240 "six" "1.16.0"
  have hdue : (⟨"six", "1.16.0", "cp312"⟩ : Target) ∈
      ((run {} bereftRun).step 240 (.forget "six" "1.16.0")).2.targets := by
    decide +kernel
  have hstays : .ofFile 2 (sampleFile 2) ∈
      ((run {} bereftRun).step 240 (.forget "six" "1.16.0")).2.files := by
    decide +kernel
  refine ⟨hclock, by decide +kernel, (htarget "cp312").mp hdue, hdue, ?_⟩
  exact ((hforgets.files _).mp hstays).2

section Readding

lemma step_deleteVersion {v : Version} (hv : v ∈ l.versions) (now : Int) :
    l.step now (.deleteVersion v.package v.version) =
      (.ok (.changed true), l.dropVersion v.package v.version) := by
  have hhas : l.versions.has (v.package, v.version) = true := Table.has_iff.mpr ⟨v, hv, rfl⟩
  change (Except.ok (Reply.changed (l.versions.has (v.package, v.version))),
    l.dropVersion v.package v.version) = _
  rw [hhas]

lemma step_addVersion_again (h : Sound l) {v : Version} (hv : v ∈ l.versions) (now : Int) :
    (l.dropVersion v.package v.version).step now
        (.addVersion v.package v.version (some v.released) v.skip) =
      (.ok (.changed true),
        l.dropBuilds fun b => b.package = v.package ∧ b.version = v.version) := by
  have hpackage : (l.dropVersion v.package v.version).packages.has v.package = true := by
    obtain ⟨p, hp, hn⟩ := h.package_of_version v hv
    exact Table.has_iff.mpr ⟨p, hp, hn⟩
  have hfree : (l.dropVersion v.package v.version).versions.has (v.package, v.version) = false := by
    refine Table.has_eq_false_iff.mpr fun w hw he => ?_
    have hkept := (Table.mem_filter.mp hw).2
    rw [Bool.not_eq_true', decide_eq_false_iff_not] at hkept
    exact hkept ⟨congrArg Prod.fst he, congrArg Prod.snd he⟩
  have hversions : (l.dropVersion v.package v.version).versions.put v = l.versions := by
    apply Table.put_filter_of_mem hv
    intro w
    rw [Bool.not_eq_true', decide_eq_false_iff_not]
    exact not_congr Prod.mk_inj.symm
  rw [step, perform, addVersion_eq, if_pos hpackage, hfree]
  change (Except.ok (Reply.changed true), { l.dropVersion v.package v.version with
    versions := (l.dropVersion v.package v.version).versions.put v }) = _
  rw [hversions]
  rfl

end Readding

/-- After every run, dropping a version and adding it again as it was comes to the same ledger as
forgetting the attempts at it, numbers to come included, so that whatever is done next is answered
the same. -/
theorem readded_eq_forgotten (ops : List (Int × Operation)) {v : Version}
    (hv : v ∈ (run {} ops).versions) (dropping adding forgetting : Int) :
    let l := run {} ops
    let dropped := l.step dropping (.deleteVersion v.package v.version)
    let added := dropped.2.step adding (.addVersion v.package v.version (some v.released) v.skip)
    let forgotten := l.step forgetting (.forget v.package v.version)
    dropped.1 = .ok (.changed true) ∧ added.1 = .ok (.changed true) ∧ added.2 = forgotten.2 ∧
      ∀ later, added.2.journal later = forgotten.2.journal later := by
  intro l dropped added forgotten
  have hdropped : dropped = (.ok (.changed true), l.dropVersion v.package v.version) :=
    step_deleteVersion hv dropping
  have hadded : added = (.ok (.changed true), forgotten.2) := by
    have hagain := step_addVersion_again (sound_run sound_fresh ops) hv adding
    change dropped.2.step adding _ = _
    rw [hdropped]
    exact hagain
  refine ⟨by rw [hdropped], by rw [hadded], by rw [hadded], fun later => ?_⟩
  rw [hadded]

/-- The wheel that passed to a version that is dropped does not come back with the version, and the
number of its build is not given out again. -/
theorem readded_after_takeoverRun :
    (⟨"six", "1.17.0", 0, none⟩ : Version) ∈ (run {} takeoverRun).versions ∧
    run {} (takeoverRun ++
        [(180, .deleteVersion "six" "1.17.0"), (240, .addVersion "six" "1.17.0" (some 0) none)]) =
      run {} (takeoverRun ++ [(300, .forget "six" "1.17.0")]) ∧
    (run {} (takeoverRun ++ [(300, .forget "six" "1.17.0")])).nextBuild? = some 3 := by
  have hv : (⟨"six", "1.17.0", 0, none⟩ : Version) ∈ (run {} takeoverRun).versions := by
    decide +kernel
  obtain ⟨-, -, hsame, -⟩ := readded_eq_forgotten takeoverRun hv 180 240 300
  refine ⟨hv, ?_, by decide +kernel⟩
  rw [run_append, run_concat]
  exact hsame

end WheelFarm.Ledger
