import WheelFarm.Ledger.Commit
import WheelFarm.Proofs.Dependencies

/-! What the writes of the schema do to the tables. Dropping builds takes along exactly what
refers to them. Under a build that is there, putting files on record never fails, and the whole of
a commit is one closed form. -/
namespace WheelFarm.Ledger
open Wheel

variable {l : Ledger}

lemma mem_owned {build : Int} {f : FileRow} :
    f ∈ l.owned build ↔ f ∈ l.files ∧ f.build = build := by
  rw [owned, List.mem_filter, decide_eq_true_eq, Table.mem_rows]

lemma mem_buildRows {package version : String} {b : BuildRow} :
    b ∈ l.buildRows package version ↔
      b ∈ l.builds ∧ b.package = package ∧ b.version = version := by
  rw [buildRows, List.mem_filter, decide_eq_true_eq, Table.mem_rows]

section Cascades
variable {gone : BuildRow → Bool}

theorem mem_builds_dropBuilds {b : BuildRow} :
    b ∈ (l.dropBuilds gone).builds ↔ b ∈ l.builds ∧ gone b = false := by
  simp [dropBuilds, dropFiles]

theorem mem_outputs_dropBuilds {o : OutputRow} : o ∈ (l.dropBuilds gone).outputs ↔
    o ∈ l.outputs ∧ ∃ b ∈ (l.dropBuilds gone).builds, b.id = o.build := by
  simp only [dropBuilds, dropFiles, Table.mem_filter, Table.has_iff]
  rfl

theorem mem_files_dropBuilds {f : FileRow} : f ∈ (l.dropBuilds gone).files ↔
    f ∈ l.files ∧ ∃ b ∈ (l.dropBuilds gone).builds, b.id = f.build := by
  simp only [dropBuilds, dropFiles, Table.mem_filter, Table.has_iff, Bool.not_not]
  rfl

theorem mem_dependencies_dropBuilds {d : DependencyRow} :
    d ∈ (l.dropBuilds gone).dependencies ↔ d ∈ l.dependencies ∧
      ∃ f ∈ (l.dropBuilds gone).files, f.filename = d.filename := by
  simp only [dropBuilds, dropFiles, Table.mem_filter, Table.has_iff]
  rfl

theorem mem_files_dropFiles {p : FileRow → Bool} {f : FileRow} :
    f ∈ (l.dropFiles p).files ↔ f ∈ l.files ∧ p f = false := by
  simp [dropFiles]

theorem mem_dependencies_dropFiles {p : FileRow → Bool} {d : DependencyRow} :
    d ∈ (l.dropFiles p).dependencies ↔ d ∈ l.dependencies ∧
      ∃ f ∈ (l.dropFiles p).files, f.filename = d.filename := by
  simp only [dropFiles, Table.mem_filter, Table.has_iff]
  rfl

end Cascades

section Inserts

theorem insertPackage?_eq (l : Ledger) (p : Package) :
    l.insertPackage? p = if l.packages.has p.name then none
      else some { l with packages := l.packages.put p } := by
  cases h : l.packages.has p.name <;> simp [insertPackage?, Table.insert?, Keyed.key, h]

theorem insertVersion?_eq {v : Version} (hpackage : l.packages.has v.package = true) :
    l.insertVersion? v = if l.versions.has (v.package, v.version) then none
      else some { l with versions := l.versions.put v } := by
  cases h : l.versions.has (v.package, v.version) <;>
    simp [insertVersion?, Table.insert?, Keyed.key, hpackage, h]

theorem insertAbi?_eq {abi : String} (hfree : isReserved abi = false) :
    l.insertAbi? abi = if l.abis.has abi then none
      else some { l with abis := l.abis.put abi } := by
  cases h : l.abis.has abi <;> simp [insertAbi?, Table.insert?, Keyed.key, hfree, h]

theorem insertBuild?_eq_some {b : BuildRow} (hms : 0 ≤ b.milliseconds)
    (hversion : l.versions.has (b.package, b.version) = true)
    (hfree : ∀ x ∈ l.builds, x.id ≠ b.id) :
    l.insertBuild? b = some { l with builds := l.builds.put b, lastBuild := b.id } := by
  have hput : l.builds.insert? b = some (l.builds.put b) := Table.insert?_of_free hfree
  simp [insertBuild?, hms, hversion, hput]

theorem insertOutput?_eq_some {o : OutputRow} (hbuild : l.builds.has o.build = true)
    (hfree : ∀ x ∈ l.outputs, x.build ≠ o.build) :
    l.insertOutput? o = some { l with outputs := l.outputs.put o } := by
  have hput : l.outputs.insert? o = some (l.outputs.put o) := Table.insert?_of_free hfree
  simp [insertOutput?, hbuild, hput]

theorem insertFile?_eq_some {f : FileRow} (hsize : 0 ≤ f.size)
    (hbuild : l.builds.has f.build = true) (hfree : ∀ x ∈ l.files, x.filename ≠ f.filename) :
    l.insertFile? f = some { l with files := l.files.put f } := by
  have hput : l.files.insert? f = some (l.files.put f) := Table.insert?_of_free hfree
  simp [insertFile?, hsize, hbuild, hput]

lemma DependencyRow.eq_of_key_eq {d e : DependencyRow} (h : Keyed.key d = Keyed.key e) : d = e := by
  cases d
  cases e
  simpa [Keyed.key] using h

theorem insertDependency?_eq_some {d : DependencyRow} (hfile : l.files.has d.filename = true)
    (hfree : d ∉ l.dependencies) :
    l.insertDependency? d = some { l with dependencies := l.dependencies.put d } := by
  have hput : l.dependencies.insert? d = some (l.dependencies.put d) :=
    Table.insert?_of_free fun x hx he => hfree (DependencyRow.eq_of_key_eq he ▸ hx)
  simp [insertDependency?, hfile, hput]

end Inserts

/-- The row of a dependency of a file. -/
def DependencyRow.ofPair (filename : String) (p : String × String) : DependencyRow :=
  ⟨filename, p.1, p.2⟩

lemma DependencyRow.ofPair_injective (filename : String) :
    Function.Injective (DependencyRow.ofPair filename) := by
  rintro ⟨a, b⟩ ⟨c, d⟩ h
  simpa [DependencyRow.ofPair] using h

/-- The ledger with a file put on record for a build that is there. -/
def takeOver (build : Int) (l : Ledger) (f : BuiltFile) : Ledger :=
  let kept := l.dropFiles fun g => g.filename = f.filename
  { kept with
    files := kept.files.put (.ofFile build f)
    dependencies :=
      (f.dependencies.pairs.map (.ofPair f.filename)).foldl Table.put kept.dependencies }

lemma foldlM_insertDependency? {filename : String} {ps : List (String × String)}
    (hfile : l.files.has filename = true) (hps : ps.Nodup)
    (hfree : ∀ p ∈ ps, DependencyRow.ofPair filename p ∉ l.dependencies) :
    ps.foldlM (fun l d => l.insertDependency? ⟨filename, d.1, d.2⟩) l =
      some { l with
        dependencies := (ps.map (.ofPair filename)).foldl Table.put l.dependencies } := by
  induction ps generalizing l with
  | nil => rfl
  | cons p ps ih =>
    obtain ⟨hp, hps⟩ := List.nodup_cons.mp hps
    have hone := insertDependency?_eq_some (d := .ofPair filename p) hfile
      (hfree p List.mem_cons_self)
    change (l.insertDependency? (.ofPair filename p)).bind _ = _
    rw [hone]
    -- The one that has been stored is none of those that follow.
    refine ih (l := { l with dependencies := l.dependencies.put (.ofPair filename p) })
      hfile hps fun q hq hm => ?_
    rcases Table.mem_put.mp hm with he | ⟨hm, -⟩
    · exact hp (DependencyRow.ofPair_injective filename he ▸ hq)
    · exact hfree q (List.mem_cons_of_mem _ hq) hm

/-- Putting a file on record for a build that is there never fails. -/
theorem takeOver?_eq_some {build : Int} (h : l.builds.has build = true) (f : BuiltFile) :
    takeOver? build l f = some (takeOver build l f) := by
  let kept := l.dropFiles fun g => g.filename = f.filename
  let filed : Ledger := { kept with files := kept.files.put (.ofFile build f) }
  have hfree : ∀ g ∈ kept.files, g.filename ≠ f.filename := fun g hg =>
    of_decide_eq_false (mem_files_dropFiles.mp hg).2
  have hfile : kept.insertFile? (.ofFile build f) = some filed :=
    insertFile?_eq_some (Int.natCast_nonneg _) h hfree
  have hdeps : ∀ p ∈ f.dependencies.pairs,
      DependencyRow.ofPair f.filename p ∉ filed.dependencies := by
    intro p _ hm
    obtain ⟨-, g, hg, he⟩ := mem_dependencies_dropFiles.mp hm
    exact hfree g hg he
  have hhas : filed.files.has f.filename = true :=
    Table.has_iff.mpr ⟨_, Table.mem_put.mpr (.inl rfl), rfl⟩
  change (kept.insertFile? (.ofFile build f)).bind _ = _
  rw [hfile]
  exact foldlM_insertDependency? hhas f.dependencies.pairs_nodup hdeps

theorem mem_files_takeOver {build : Int} {f : BuiltFile} {g : FileRow} :
    g ∈ (takeOver build l f).files ↔
      g = .ofFile build f ∨ (g ∈ l.files ∧ g.filename ≠ f.filename) := by
  simp only [takeOver, Table.mem_put, mem_files_dropFiles, decide_eq_false_iff_not]
  have hk : (Keyed.key g ≠ Keyed.key (FileRow.ofFile build f)) ↔ g.filename ≠ f.filename := Iff.rfl
  tauto

/-- Where every dependency has its file, taking a file over replaces the dependencies of that file
and leaves the other ones. -/
theorem mem_dependencies_takeOver (h : ∀ d ∈ l.dependencies, ∃ g ∈ l.files, g.filename = d.filename)
    {build : Int} {f : BuiltFile} {d : DependencyRow} :
    d ∈ (takeOver build l f).dependencies ↔
      (d.filename = f.filename ∧ (d.tool, d.name) ∈ f.dependencies.pairs) ∨
        (d ∈ l.dependencies ∧ d.filename ≠ f.filename) := by
  have hkeys : ((f.dependencies.pairs.map (.ofPair f.filename)).map
      (Keyed.key : DependencyRow → _)).Nodup := by
    rw [List.map_map]
    exact f.dependencies.pairs_nodup.map fun p q hpq =>
      DependencyRow.ofPair_injective f.filename (DependencyRow.eq_of_key_eq hpq)
  have hnew : d ∈ f.dependencies.pairs.map (.ofPair f.filename) ↔
      d.filename = f.filename ∧ (d.tool, d.name) ∈ f.dependencies.pairs := by
    rw [List.mem_map]
    constructor
    · intro hmem
      obtain ⟨p, hp, rfl⟩ := hmem
      exact ⟨rfl, hp⟩
    · intro hmem
      obtain ⟨hf, hp⟩ := hmem
      exact ⟨_, hp, by rw [DependencyRow.ofPair, ← hf]⟩
  have hold : d ∈ (l.dropFiles fun g => g.filename = f.filename).dependencies ↔
      d ∈ l.dependencies ∧ d.filename ≠ f.filename := by
    rw [mem_dependencies_dropFiles]
    refine and_congr_right fun hd => ⟨?_, fun hne => ?_⟩
    · intro hmem
      obtain ⟨g, hg, he⟩ := hmem
      exact he ▸ of_decide_eq_false (mem_files_dropFiles.mp hg).2
    · obtain ⟨g, hg, he⟩ := h d hd
      exact ⟨g, mem_files_dropFiles.mpr ⟨hg, decide_eq_false (he ▸ hne)⟩, he⟩
  change d ∈ (f.dependencies.pairs.map _).foldl Table.put _ ↔ _
  rw [Table.mem_foldl_put hkeys, hnew, hold]
  refine or_congr_right ⟨And.left, fun hd => ⟨hd, fun hk => ?_⟩⟩
  obtain ⟨e, he, hek⟩ := List.mem_map.mp hk
  obtain ⟨p, -, rfl⟩ := List.mem_map.mp he
  exact hd.2 (DependencyRow.eq_of_key_eq hek ▸ rfl)

lemma foldl_takeOver_eq (build : Int) (fs : List BuiltFile) (l : Ledger) :
    fs.foldl (takeOver build) l = { l with
      files := (fs.foldl (takeOver build) l).files
      dependencies := (fs.foldl (takeOver build) l).dependencies } := by
  induction fs generalizing l with
  | nil => rfl
  | cons f fs ih => exact ih (takeOver build l f)

lemma foldlM_takeOver? {build : Int} (h : l.builds.has build = true) (fs : List BuiltFile) :
    fs.foldlM (takeOver? build) l = some (fs.foldl (takeOver build) l) := by
  induction fs generalizing l with
  | nil => rfl
  | cons f fs ih =>
    rw [List.foldlM_cons, takeOver?_eq_some h]
    exact ih (l := takeOver build l f) h

lemma or_and_shift {a p q n : Prop} (h : a → n) : (p ∨ (a ∨ q) ∧ n) ↔ (a ∨ p) ∨ (q ∧ n) := by
  tauto

lemma mem_files_foldl_takeOver {build : Int} {fs : List BuiltFile}
    (hfs : (fs.map (·.filename)).Nodup) {g : FileRow} :
    g ∈ (fs.foldl (takeOver build) l).files ↔
      (∃ f ∈ fs, g = .ofFile build f) ∨ (g ∈ l.files ∧ ∀ f ∈ fs, g.filename ≠ f.filename) := by
  induction fs generalizing l with
  | nil => simp
  | cons f fs ih =>
    obtain ⟨hf, hfs⟩ := List.nodup_cons.mp hfs
    have hname : g = .ofFile build f → ∀ f' ∈ fs, g.filename ≠ f'.filename := by
      rintro rfl f' hf' he
      exact hf (List.mem_map.mpr ⟨f', hf', he.symm⟩)
    rw [List.foldl_cons, ih hfs, mem_files_takeOver, or_and_shift hname]
    simp only [List.mem_cons, exists_eq_or_imp, forall_eq_or_imp, and_assoc]

lemma file_of_dependency_takeOver
    (h : ∀ d ∈ l.dependencies, ∃ g ∈ l.files, g.filename = d.filename) (build : Int)
    (f : BuiltFile) : ∀ d ∈ (takeOver build l f).dependencies,
      ∃ g ∈ (takeOver build l f).files, g.filename = d.filename := by
  intro d hd
  rcases (mem_dependencies_takeOver h).mp hd with ⟨hf, -⟩ | ⟨hd, hne⟩
  · exact ⟨_, mem_files_takeOver.mpr (.inl rfl), hf.symm⟩
  · obtain ⟨g, hg, he⟩ := h d hd
    exact ⟨g, mem_files_takeOver.mpr (.inr ⟨hg, he ▸ hne⟩), he⟩

lemma mem_dependencies_foldl_takeOver {build : Int} {fs : List BuiltFile}
    (h : ∀ d ∈ l.dependencies, ∃ g ∈ l.files, g.filename = d.filename)
    (hfs : (fs.map (·.filename)).Nodup) {d : DependencyRow} :
    d ∈ (fs.foldl (takeOver build) l).dependencies ↔
      (∃ f ∈ fs, d.filename = f.filename ∧ (d.tool, d.name) ∈ f.dependencies.pairs) ∨
        (d ∈ l.dependencies ∧ ∀ f ∈ fs, d.filename ≠ f.filename) := by
  induction fs generalizing l with
  | nil => simp
  | cons f fs ih =>
    obtain ⟨hf, hfs⟩ := List.nodup_cons.mp hfs
    have hname : d.filename = f.filename ∧ (d.tool, d.name) ∈ f.dependencies.pairs →
        ∀ f' ∈ fs, d.filename ≠ f'.filename := by
      intro hd f' hf' he
      exact hf (List.mem_map.mpr ⟨f', hf', he.symm.trans hd.1⟩)
    rw [List.foldl_cons, ih (file_of_dependency_takeOver h build f) hfs,
      mem_dependencies_takeOver h, or_and_shift hname]
    simp only [List.mem_cons, exists_eq_or_imp, forall_eq_or_imp, and_assoc]

/-- The ledger with the build of a report and its log under the next number. -/
def entered (l : Ledger) (now : Int) (r : BuildReport) : Ledger := { l with
  builds := l.builds.put (.ofReport (l.lastBuild + 1) now r)
  outputs := l.outputs.put ⟨l.lastBuild + 1, r.output⟩
  lastBuild := l.lastBuild + 1 }

/-- The ledger with a whole report on record under the next number. -/
def recorded (l : Ledger) (now : Int) (r : BuildReport) : Ledger :=
  r.files.foldl (takeOver (l.lastBuild + 1)) (l.entered now r)

section Recorded
variable {now : Int} {r : BuildReport}

@[simp] theorem recorded_packages : (l.recorded now r).packages = l.packages := by
  rw [recorded, foldl_takeOver_eq, entered]

@[simp] theorem recorded_versions : (l.recorded now r).versions = l.versions := by
  rw [recorded, foldl_takeOver_eq, entered]

@[simp] theorem recorded_abis : (l.recorded now r).abis = l.abis := by
  rw [recorded, foldl_takeOver_eq, entered]

@[simp] theorem recorded_builds :
    (l.recorded now r).builds = l.builds.put (.ofReport (l.lastBuild + 1) now r) := by
  rw [recorded, foldl_takeOver_eq, entered]

@[simp] theorem recorded_outputs :
    (l.recorded now r).outputs = l.outputs.put ⟨l.lastBuild + 1, r.output⟩ := by
  rw [recorded, foldl_takeOver_eq, entered]

@[simp] theorem recorded_serial : (l.recorded now r).serial = l.serial := by
  rw [recorded, foldl_takeOver_eq, entered]

@[simp] theorem recorded_lastBuild : (l.recorded now r).lastBuild = l.lastBuild + 1 := by
  rw [recorded, foldl_takeOver_eq, entered]

/-- The files of the report pass to the new build, and all others stay where they are. -/
theorem mem_files_recorded (hfs : (r.files.map (·.filename)).Nodup) {g : FileRow} :
    g ∈ (l.recorded now r).files ↔ (∃ f ∈ r.files, g = .ofFile (l.lastBuild + 1) f) ∨
      (g ∈ l.files ∧ ∀ f ∈ r.files, g.filename ≠ f.filename) :=
  mem_files_foldl_takeOver hfs

theorem mem_dependencies_recorded
    (h : ∀ d ∈ l.dependencies, ∃ g ∈ l.files, g.filename = d.filename)
    (hfs : (r.files.map (·.filename)).Nodup) {d : DependencyRow} :
    d ∈ (l.recorded now r).dependencies ↔
      (∃ f ∈ r.files, d.filename = f.filename ∧ (d.tool, d.name) ∈ f.dependencies.pairs) ∨
        (d ∈ l.dependencies ∧ ∀ f ∈ r.files, d.filename ≠ f.filename) :=
  mem_dependencies_foldl_takeOver (l := l.entered now r) h hfs

/-- A report is recorded whole where the next number is free. -/
theorem record?_eq_some (hlast : l.lastBuild < maxStored)
    (hversion : l.versions.has (r.package, r.version) = true)
    (hbuild : ∀ b ∈ l.builds, b.id ≠ l.lastBuild + 1)
    (houtput : ∀ o ∈ l.outputs, o.build ≠ l.lastBuild + 1) :
    l.record? now r = some (l.lastBuild + 1, l.recorded now r) := by
  let built : Ledger := { l with
    builds := l.builds.put (.ofReport (l.lastBuild + 1) now r)
    lastBuild := l.lastBuild + 1 }
  have hnext : l.nextBuild? = some (l.lastBuild + 1) := if_pos hlast
  have hhas : built.builds.has (l.lastBuild + 1) = true :=
    Table.has_iff.mpr ⟨_, Table.mem_put.mpr (.inl rfl), rfl⟩
  have hb : l.insertBuild? (.ofReport (l.lastBuild + 1) now r) = some built :=
    insertBuild?_eq_some (Int.natCast_nonneg _) hversion hbuild
  have ho : built.insertOutput? ⟨l.lastBuild + 1, r.output⟩ = some (l.entered now r) :=
    insertOutput?_eq_some hhas houtput
  have hf : r.files.foldlM (takeOver? (l.lastBuild + 1)) (l.entered now r) =
      some (l.recorded now r) :=
    foldlM_takeOver? (l := l.entered now r) hhas r.files
  simp only [record?, hnext, Option.bind_eq_bind, Option.bind_some]
  rw [hb, Option.bind_some, ho, Option.bind_some, hf]
  rfl

/-- When numbers have run out, nothing is recorded any more. -/
theorem record?_eq_none (hlast : ¬ l.lastBuild < maxStored) : l.record? now r = none := by
  have hnext : l.nextBuild? = none := if_neg hlast
  rw [record?, hnext]
  rfl

end Recorded

end WheelFarm.Ledger
