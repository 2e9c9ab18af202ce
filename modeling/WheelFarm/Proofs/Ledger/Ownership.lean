import WheelFarm.Proofs.ByteOrder
import WheelFarm.Proofs.Ledger.BuildHistory
import WheelFarm.Proofs.Ledger.FileRecords

/-! The owners of files. A file is on record for the last accepted commit that lists it, as long
as the history of that commit's version was not dropped since; its record is that commit's file,
and every read tells the same. -/
namespace WheelFarm.Ledger
open Wheel Text

/-- Whether the report of a commit lists a file. -/
def Commit.Lists (c : Commit) (filename : String) : Prop :=
  ∃ f ∈ c.report.files, f.filename = filename

instance (c : Commit) (filename : String) : Decidable (c.Lists filename) :=
  inferInstanceAs (Decidable (∃ f ∈ c.report.files, f.filename = filename))

/-- The last accepted commit that lists a file, with the entries since. -/
structure LastListing (es : List Entry) (filename : String) (c : Commit) (since : List Entry) :
    Prop where
  entry : ∃ before e, es = before ++ e :: since ∧ e.commit? = some c
  lists : c.Lists filename
  last : ∀ d ∈ commits since, ¬ d.Lists filename

/-- A commit that owns a file: the last one that lists it, of a version that was not dropped
since. -/
def Owns (es : List Entry) (c : Commit) (filename : String) : Prop :=
  ∃ since, LastListing es filename c since ∧
    ∀ e ∈ since, e.drops c.report.package c.report.version = false

/-- The record of a file of a commit, under the one spelling of the universal ABI and without tools
from which nothing is required. -/
def FileRecord.ofFile (build : Int) (f : BuiltFile) : FileRecord :=
  ⟨build, { f with
    tags := { f.tags with abi := if f.tags.abi = "noabi" then "none" else f.tags.abi }
    dependencies := f.dependencies.withoutEmpty }⟩

/-- A commit that keeps a record: it owns the file, and the record is that of its file. -/
def Keeps (es : List Entry) (c : Commit) (r : FileRecord) : Prop :=
  Owns es c r.file.filename ∧ ∃ f ∈ c.report.files, r = .ofFile c.build f

variable {es : List Entry} {l : Ledger} {c d : Commit} {filename : String}

theorem lastListing_concat {e : Entry} {since : List Entry} :
    LastListing (es ++ [e]) filename c since ↔
      (since = [] ∧ e.commit? = some c ∧ c.Lists filename) ∨
        ∃ s, since = s ++ [e] ∧ LastListing es filename c s ∧
          ∀ d, e.commit? = some d → ¬ d.Lists filename := by
  constructor
  · intro hmem
    obtain ⟨⟨before, x, hsplit, hx⟩, hlists, hlast⟩ := hmem
    -- Either the commit is that of the new entry, or the new entry is the last one since.
    induction since using List.reverseRecOn with
    | nil =>
      obtain ⟨-, he⟩ := List.append_inj' hsplit rfl
      cases he
      exact .inl ⟨rfl, hx, hlists⟩
    | append_singleton s y _ =>
      rw [← List.cons_append, ← List.append_assoc] at hsplit
      obtain ⟨hes, he⟩ := List.append_inj' hsplit rfl
      cases he
      rw [commits_concat] at hlast
      refine .inr ⟨s, rfl, ⟨⟨before, x, hes, hx⟩, hlists, fun d hd => ?_⟩, fun d hd => ?_⟩
      · exact hlast d (List.mem_append_left _ hd)
      · exact hlast d (List.mem_append_right _ (Option.mem_toList.mpr hd))
  · intro hmem
    rcases hmem with ⟨rfl, he, hlists⟩ | ⟨s, rfl, ⟨⟨before, x, rfl, hx⟩, hlists, hlast⟩, he⟩
    · exact ⟨⟨es, e, rfl, he⟩, hlists, fun d hd => absurd hd List.not_mem_nil⟩
    · refine ⟨⟨before, x, by simp, hx⟩, hlists, fun d hd => ?_⟩
      rw [commits_concat, List.mem_append, Option.mem_toList] at hd
      rcases hd with hd | hd
      · exact hlast d hd
      · exact he d hd

/-- A commit owns a file after one more entry if it is the commit of that entry and lists the
file, or if it owned the file before and the entry neither lists it nor drops the owner's version.
-/
theorem owns_concat {e : Entry} : Owns (es ++ [e]) c filename ↔
    (e.commit? = some c ∧ c.Lists filename) ∨
      (Owns es c filename ∧ (∀ d, e.commit? = some d → ¬ d.Lists filename) ∧
        e.drops c.report.package c.report.version = false) := by
  simp only [Owns, lastListing_concat]
  constructor
  · intro hmem
    rcases hmem with ⟨since, ⟨rfl, he⟩ | ⟨s, rfl, hs, hnot⟩, hdrops⟩
    · exact .inl he
    · refine .inr ⟨⟨s, hs, fun x hx => ?_⟩, hnot, ?_⟩
      · exact hdrops x (List.mem_append_left _ hx)
      · exact hdrops e (List.mem_append_right _ List.mem_cons_self)
  · intro hmem
    rcases hmem with he | ⟨⟨s, hs, hdrops⟩, hnot, he⟩
    · exact ⟨[], .inl ⟨rfl, he⟩, fun x hx => absurd hx List.not_mem_nil⟩
    · refine ⟨s ++ [e], .inr ⟨s, rfl, hs, hnot⟩, fun x hx => ?_⟩
      rcases List.mem_append.mp hx with hx | hx
      · exact hdrops x hx
      · rw [List.mem_singleton.mp hx]
        exact he

/-- There is one last commit that lists a file. -/
theorem LastListing.unique {since after : List Entry} (hc : LastListing es filename c since)
    (hd : LastListing es filename d after) : c = d ∧ since = after := by
  induction es using List.reverseRecOn generalizing since after with
  | nil =>
    obtain ⟨⟨before, e, he, -⟩, -, -⟩ := hc
    simp at he
  | append_singleton es e ih =>
    rcases lastListing_concat.mp hc with ⟨rfl, hec, hcl⟩ | ⟨s, rfl, hs, hnot⟩ <;>
      rcases lastListing_concat.mp hd with ⟨rfl, hed, hdl⟩ | ⟨t, rfl, ht, hnot'⟩
    · exact ⟨Option.some_inj.mp (hec.symm.trans hed), rfl⟩
    · exact absurd hcl (hnot' c hec)
    · exact absurd hdl (hnot d hed)
    · obtain ⟨rfl, rfl⟩ := ih hs ht
      exact ⟨rfl, rfl⟩

theorem Owns.unique (hc : Owns es c filename) (hd : Owns es d filename) : c = d := by
  obtain ⟨s, hs, -⟩ := hc
  obtain ⟨t, ht, -⟩ := hd
  exact (hs.unique ht).1

lemma Owns.lists (h : Owns es c filename) : c.Lists filename := by
  obtain ⟨s, hs, -⟩ := h
  exact hs.lists

/-- An owner is still in the history of its version. -/
theorem Owns.standing (h : Owns es c filename) : Standing es c := by
  induction es using List.reverseRecOn with
  | nil =>
    obtain ⟨s, ⟨⟨before, e, he, -⟩, -, -⟩, -⟩ := h
    simp at he
  | append_singleton es e ih =>
    rw [standing_concat]
    rcases owns_concat.mp h with ⟨he, -⟩ | ⟨hes, -, he⟩
    · exact ⟨Entry.drops_of_commit? he _ _, .inr he⟩
    · exact ⟨he, .inl (ih hes)⟩

lemma owns_concat_of_none {e : Entry} (he : e.commit? = none) : Owns (es ++ [e]) c filename ↔
    Owns es c filename ∧ e.drops c.report.package c.report.version = false := by
  simp [owns_concat, he]

lemma exists_owns_concat {e : Entry} (he : e.commit? = some d) {P : Commit → Prop}
    (hP : P d → d.Lists filename) : (∃ c, Owns (es ++ [e]) c filename ∧ P c) ↔
      P d ∨ ((∃ c, Owns es c filename ∧ P c) ∧ ¬ d.Lists filename) := by
  simp only [owns_concat, he, Entry.drops_of_commit? he, Option.some_inj, and_true, forall_eq']
  constructor
  · intro hmem
    rcases hmem with ⟨c, ⟨rfl, -⟩ | ⟨ho, hnot⟩, hc⟩
    · exact .inl hc
    · exact .inr ⟨⟨c, ho, hc⟩, hnot⟩
  · intro hmem
    rcases hmem with hd | ⟨⟨c, ho, hc⟩, hnot⟩
    · exact ⟨d, .inl ⟨rfl, hP hd⟩, hd⟩
    · exact ⟨c, .inr ⟨ho, hnot⟩, hc⟩

lemma not_lists_iff : ¬ c.Lists filename ↔ ∀ f ∈ c.report.files, filename ≠ f.filename := by
  simp only [Commit.Lists, not_exists, not_and, ne_eq, eq_comm]

/-- The files on record are those that commits own. -/
theorem Reached.mem_files (h : Reached es l) {g : FileRow} :
    g ∈ l.files ↔ ∃ c, Owns es c g.filename ∧ ∃ f ∈ c.report.files, .ofFile c.build f = g := by
  induction h with
  | fresh =>
    constructor
    · exact fun hg => absurd hg (Table.not_mem_empty g)
    · intro hmem
      obtain ⟨c, ho, -⟩ := hmem
      exact absurd ho.standing List.not_mem_nil
  | @next es l e l' h he hs ih =>
    have hnext := h.next he hs
    cases he with
    | recorded r hr _ hc hk hl =>
      rw [hl, mem_files_recorded (filenames_nodup hr), ih, exists_owns_concat hc, not_lists_iff]
      · simp only [eq_comm]
      · intro hmem
        obtain ⟨f, hf, rfl⟩ := hmem
        exact ⟨f, hf, rfl⟩
    | dropped p v hc hd hl =>
      rw [hl.files, mem_files_dropBuilds, ← hl.builds, ih]
      simp only [hnext.mem_builds, owns_concat_of_none hc]
      -- A file is kept for its owner's number, so that the owner is the commit that stands.
      constructor
      · intro hmem
        obtain ⟨⟨c, ho, f, hf, rfl⟩, _, ⟨d, hn, rfl⟩, he⟩ := hmem
        cases h.commit_eq ho.standing.mem_commits (hn.before hc).mem_commits he.symm
        exact ⟨c, ⟨ho, (standing_concat.mp hn).1⟩, f, hf, rfl⟩
      · intro hmem
        obtain ⟨c, ⟨ho, hdrops⟩, f, hf, rfl⟩ := hmem
        refine ⟨⟨c, ho, f, hf, rfl⟩, c.row, ⟨c, ?_, rfl⟩, rfl⟩
        exact standing_concat.mpr ⟨hdrops, .inl ho.standing⟩
    | kept hc hk hl =>
      rw [hl.files, ih]
      simp [owns_concat_of_none hc, hk]

/-- The files on record have the tags that their filenames carry. -/
theorem Reached.tags_carried (h : Reached es l) {g : FileRow} (hg : g ∈ l.files) :
    Carries g.filename g.tags := by
  obtain ⟨c, ho, f, hf, rfl⟩ := h.mem_files.mp hg
  exact Ledger.tags_carried (h.accepted c ho.standing.mem_commits) hf

/-- The dependencies on record are those of the files on record, as their owners list them. -/
theorem Reached.mem_dependencies (h : Reached es l) {d : DependencyRow} : d ∈ l.dependencies ↔
    ∃ c, Owns es c d.filename ∧ ∃ f ∈ c.report.files, d.filename = f.filename ∧
      (d.tool, d.name) ∈ f.dependencies.pairs := by
  induction h with
  | fresh =>
    constructor
    · exact fun hd => absurd hd (Table.not_mem_empty d)
    · intro hmem
      obtain ⟨c, ho, -⟩ := hmem
      exact absurd ho.standing List.not_mem_nil
  | @next es l e l' h he hs ih =>
    have hnext := h.next he hs
    cases he with
    | recorded r hr _ hc hk hl =>
      rw [hl, mem_dependencies_recorded h.sound.file_of_dependency (filenames_nodup hr), ih,
        exists_owns_concat hc, not_lists_iff]
      intro hmem
      obtain ⟨f, hf, hname, -⟩ := hmem
      exact ⟨f, hf, hname.symm⟩
    | dropped p v hc hd hl =>
      rw [hl.dependencies, mem_dependencies_dropBuilds, ← hl.files, ih]
      simp only [hnext.mem_files, owns_concat_of_none hc]
      constructor
      · intro hmem
        obtain ⟨⟨c, ho, hf⟩, g, ⟨c', ⟨ho', hdrops⟩, -⟩, he⟩ := hmem
        rw [he] at ho'
        cases ho.unique ho'
        exact ⟨c, ⟨ho, hdrops⟩, hf⟩
      · intro hmem
        obtain ⟨c, ⟨ho, hdrops⟩, f, hf, hname, hp⟩ := hmem
        have ho' : Owns es c f.filename := hname ▸ ho
        exact ⟨⟨c, ho, f, hf, hname, hp⟩, _, ⟨c, ⟨ho', hdrops⟩, f, hf, rfl⟩, hname.symm⟩
    | kept hc hk hl =>
      rw [hl.dependencies, ih]
      simp [owns_concat_of_none hc, hk]

section Reads

/-- The dependencies of a file on record are those that its owner lists for it. -/
theorem Reached.dependenciesOf (h : Reached es l) {f : BuiltFile} (ho : Owns es c f.filename)
    (hf : f ∈ c.report.files) : l.dependenciesOf f.filename = f.dependencies.withoutEmpty := by
  have hnames := filenames_nodup (h.accepted c ho.standing.mem_commits)
  apply dependenciesOf_eq
  intro tool name
  rw [h.mem_dependencies]
  constructor
  · intro hmem
    obtain ⟨d, hd, g, hg, hname, hp⟩ := hmem
    cases ho.unique hd
    rwa [List.inj_on_of_nodup_map hnames hf hg hname]
  · exact fun hp => ⟨c, ho, f, hf, rfl, hp⟩

theorem Reached.dependenciesOf_unowned (h : Reached es l) (ho : ∀ c, ¬ Owns es c filename) :
    l.dependenciesOf filename = ∅ := by
  have hnone : ∀ tool name, ⟨filename, tool, name⟩ ∈ l.dependencies ↔
      (tool, name) ∈ Dependencies.pairs ∅ := by
    intro tool name
    rw [h.mem_dependencies]
    constructor
    · intro hmem
      obtain ⟨c, hc, -⟩ := hmem
      exact absurd hc (ho c)
    · exact fun hp => absurd hp List.not_mem_nil
  rw [dependenciesOf_eq hnone]
  rfl

lemma Reached.recordOf (h : Reached es l) {f : BuiltFile} (ho : Owns es c f.filename)
    (hf : f ∈ c.report.files) : l.recordOf (.ofFile c.build f) = .ofFile c.build f := by
  have hd := h.dependenciesOf ho hf
  simp only [Ledger.recordOf, FileRow.bare, FileRow.ofFile, FileRecord.ofFile, hd,
    Int.toNat_natCast, UInt64.ofNat_toNat]
  rfl

lemma Reached.mem_records (h : Reached es l) {p : FileRow → Bool} {r : FileRecord} :
    r ∈ (l.files.rows.filter p).map l.recordOf ↔ ∃ c, Owns es c r.file.filename ∧
      ∃ f ∈ c.report.files, p (.ofFile c.build f) = true ∧ r = .ofFile c.build f := by
  simp only [List.mem_map, List.mem_filter, Table.mem_rows, h.mem_files]
  constructor
  · intro hmem
    obtain ⟨_, ⟨⟨c, ho, f, hf, rfl⟩, hp⟩, rfl⟩ := hmem
    rw [h.recordOf ho hf]
    exact ⟨c, ho, f, hf, hp, rfl⟩
  · intro hmem
    obtain ⟨c, ho, f, hf, hp, rfl⟩ := hmem
    exact ⟨_, ⟨⟨c, ho, f, hf, rfl⟩, hp⟩, h.recordOf ho hf⟩

/-- Records once each, in the order of their filenames. -/
def InOrder (rs : List FileRecord) : Prop :=
  rs.Pairwise fun a b => bytes a.file.filename < bytes b.file.filename

lemma inOrder_records (l : Ledger) (p : FileRow → Bool) :
    InOrder ((l.files.rows.filter p).map l.recordOf) :=
  (records_ordered l p).imp fun h => bytes_lt_iff.mpr h

theorem Reached.filesOfBuild (h : Reached es l) (id : Int) :
    ∃ rs, l.filesOfBuild id = .ok rs ∧ InOrder rs ∧
      ∀ r, r ∈ rs ↔ ∃ c, Keeps es c r ∧ c.build = id := by
  refine ⟨_, filesWhere_eq h.sound _, inOrder_records l _, fun r => ?_⟩
  simp only [h.mem_records, decide_eq_true_eq]
  constructor
  · intro hmem
    obtain ⟨c, ho, f, hf, hid, hr⟩ := hmem
    exact ⟨c, ⟨ho, f, hf, hr⟩, hid⟩
  · intro hmem
    obtain ⟨c, ⟨ho, f, hf, hr⟩, hid⟩ := hmem
    exact ⟨c, ho, f, hf, hid, hr⟩

theorem Reached.filesOfPackage (h : Reached es l) (package : String) :
    ∃ rs, l.filesOfPackage package = .ok rs ∧ InOrder rs ∧
      ∀ r, r ∈ rs ↔ ∃ c, Keeps es c r ∧ c.report.package = package := by
  refine ⟨_, filesWhere_eq h.sound _, inOrder_records l _, fun r => ?_⟩
  simp only [h.mem_records, List.any_eq_true, decide_eq_true_eq, Table.mem_rows, h.mem_builds]
  constructor
  · intro hmem
    obtain ⟨c, ho, f, hf, ⟨_, ⟨d, hd, rfl⟩, hid, hp⟩, hr⟩ := hmem
    cases h.commit_eq ho.standing.mem_commits hd.mem_commits hid.symm
    exact ⟨c, ⟨ho, f, hf, hr⟩, hp⟩
  · intro hmem
    obtain ⟨c, ⟨ho, f, hf, hr⟩, hp⟩ := hmem
    exact ⟨c, ho, f, hf, ⟨c.row, ⟨c, ho.standing, rfl⟩, rfl, hp⟩, hr⟩

end Reads

/-- After every run a file is on record for the last commit that lists it, as long as that commit's
version was not dropped since, and for no other one. The reads by package, by build and of the
dependencies all tell its record. -/
theorem files_exact (ops : List (Int × Operation)) :
    (∀ filename, (∃ g ∈ (run {} ops).files, g.filename = filename) ↔
      ∃ c, Owns (journal {} ops) c filename) ∧
    (∀ filename c since, LastListing (journal {} ops) filename c since →
      (∃ e ∈ since, e.drops c.report.package c.report.version = true) →
        ∀ g ∈ (run {} ops).files, g.filename ≠ filename) ∧
    (∀ package, ∃ rs, (run {} ops).filesOfPackage package = .ok rs ∧ InOrder rs ∧
      ∀ r, r ∈ rs ↔ ∃ c, Keeps (journal {} ops) c r ∧ c.report.package = package) ∧
    (∀ id, ∃ rs, (run {} ops).filesOfBuild id = .ok rs ∧ InOrder rs ∧
      ∀ r, r ∈ rs ↔ ∃ c, Keeps (journal {} ops) c r ∧ c.build = id) ∧
    (∀ c r, Keeps (journal {} ops) c r →
      (run {} ops).dependenciesOf r.file.filename = r.file.dependencies) ∧
    (∀ filename, (∀ c, ¬ Owns (journal {} ops) c filename) →
      (run {} ops).dependenciesOf filename = ∅) := by
  have h := reached_run ops
  refine ⟨fun filename => ⟨?_, ?_⟩, ?_, h.filesOfPackage, h.filesOfBuild, ?_,
    fun _ ho => h.dependenciesOf_unowned ho⟩
  · intro hmem
    obtain ⟨g, hg, rfl⟩ := hmem
    obtain ⟨c, ho, -⟩ := h.mem_files.mp hg
    exact ⟨c, ho⟩
  · intro hmem
    obtain ⟨c, ho⟩ := hmem
    obtain ⟨f, hf, rfl⟩ := ho.lists
    exact ⟨_, h.mem_files.mpr ⟨c, ho, f, hf, rfl⟩, rfl⟩
  · rintro filename c since hlast ⟨e, he, hdrops⟩ g hg rfl
    obtain ⟨d, ⟨after, hafter, hkept⟩, -⟩ := h.mem_files.mp hg
    obtain ⟨rfl, rfl⟩ := hlast.unique hafter
    exact Bool.false_ne_true ((hkept e he).symm.trans hdrops)
  · intro c r hmem
    obtain ⟨ho, f, hf, rfl⟩ := hmem
    exact h.dependenciesOf (f := f) ho hf

/-- A wheel that the builds of two versions can produce. -/
def sampleFile (size : UInt64) : BuiltFile :=
  { filename := "six-1.16.0-py3-none-any.whl", size, hash := "00"
    tags := ⟨"six", "1.16.0", "py3", "noabi", "any"⟩ }

/-- A run in which a wheel passes from the build of one version to that of another one. -/
def takeoverRun : List (Int × Operation) :=
  [(0, .addPackage "six" none), (0, .addVersion "six" "1.16.0" none none),
    (0, .addVersion "six" "1.17.0" none none),
    (60, .commit (.succeeded "six" "1.16.0" "cp312" 7 .zero "" [sampleFile 1])),
    (120, .commit (.succeeded "six" "1.17.0" "cp312" 7 .zero "" [sampleFile 2]))]

example : (run {} takeoverRun).filesOfPackage "six" = .ok [.ofFile 2 (sampleFile 2)] := by rfl

example : (run {} (takeoverRun ++ [(180, .forget "six" "1.17.0")])).filesOfPackage "six" =
    .ok [] := by
  rfl

end WheelFarm.Ledger
