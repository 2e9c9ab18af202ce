import WheelFarm.Ledger.History
import WheelFarm.Proofs.Ledger.Integrity

/-! Reading the files on record. Where no size is negative every read succeeds, and the record of a
file carries the dependencies of that file and of no other one, whichever files are read along with
it. -/
namespace WheelFarm.Ledger
open Wheel

variable {l : Ledger}

/-- The record of a stored file before its dependencies are attached. -/
def FileRow.bare (g : FileRow) : FileRecord :=
  ⟨g.build, { filename := g.filename, size := .ofNat g.size.toNat, hash := g.hash, tags := g.tags }⟩

/-- The record of a stored file. -/
def recordOf (l : Ledger) (g : FileRow) : FileRecord :=
  ⟨g.build, { g.bare.file with dependencies := l.dependenciesOf g.filename }⟩

/-- What a list of rows requires for a file. -/
def requiredBy (rows : List DependencyRow) (filename : String) : Dependencies :=
  (rows.filter fun d => d.filename = filename).foldl (fun ds d => ds.require d.tool d.name) ∅

section Rows
variable {rows : List DependencyRow} {filename tool name : String}

lemma requiredBy_eq_requireAll (rows : List DependencyRow) (filename : String) :
    requiredBy rows filename = Dependencies.requireAll ∅
      ((rows.filter fun d => d.filename = filename).map fun d => (d.tool, d.name)) := by
  rw [requiredBy, Dependencies.requireAll, List.foldl_map]

/-- Each row of a file is one pair, however often and in whatever place it is listed. -/
theorem mem_pairs_requiredBy :
    (tool, name) ∈ (requiredBy rows filename).pairs ↔ ⟨filename, tool, name⟩ ∈ rows := by
  have hnone : (tool, name) ∉ Dependencies.pairs ∅ := by simp [Dependencies.pairs]
  rw [requiredBy_eq_requireAll, Dependencies.mem_pairs_requireAll, or_iff_left hnone,
    List.mem_map]
  simp only [List.mem_filter, decide_eq_true_eq, Prod.mk.injEq]
  constructor
  · intro hmem
    obtain ⟨d, ⟨hd, rfl⟩, rfl, rfl⟩ := hmem
    exact hd
  · exact fun hd => ⟨_, ⟨hd, rfl⟩, rfl, rfl⟩

theorem full_requiredBy (rows : List DependencyRow) (filename : String) :
    (requiredBy rows filename).Full := by
  rw [requiredBy_eq_requireAll]
  exact Dependencies.full_requireAll Dependencies.full_empty _

lemma requiredBy_congr {rows' : List DependencyRow}
    (h : ∀ d, d.filename = filename → (d ∈ rows ↔ d ∈ rows')) :
    requiredBy rows filename = requiredBy rows' filename := by
  apply Dependencies.eq_of_pairs (full_requiredBy rows filename) (full_requiredBy rows' filename)
  intro p
  rw [mem_pairs_requiredBy, mem_pairs_requiredBy]
  exact h _ rfl

end Rows

lemma rows_foldl_attach (ds : List DependencyRow) (t : Table FileRecord) :
    (ds.foldl (fun t d => t.map (·.attach d) (FileRecord.filename_attach · d)) t).rows =
      t.rows.map fun r => ds.foldl FileRecord.attach r := by
  induction ds generalizing t with
  | nil => simp
  | cons d ds ih =>
    rw [List.foldl_cons, ih]
    simp only [Table.map, List.map_map]
    rfl

lemma foldl_attach (ds : List DependencyRow) (r : FileRecord) :
    ds.foldl FileRecord.attach r = ⟨r.build, { r.file with
      dependencies := (ds.filter fun d => d.filename = r.file.filename).foldl
        (fun ds d => ds.require d.tool d.name) r.file.dependencies }⟩ := by
  induction ds generalizing r with
  | nil => rfl
  | cons d ds ih =>
    rw [List.foldl_cons, ih, FileRecord.filename_attach]
    by_cases h : d.filename = r.file.filename
    · simp [FileRecord.attach, h, BuiltFile.require]
    · simp [FileRecord.attach, h]

lemma foldl_attach_of_empty {r : FileRecord} (h : r.file.dependencies = ∅)
    (ds : List DependencyRow) : ds.foldl FileRecord.attach r =
      ⟨r.build, { r.file with dependencies := requiredBy ds r.file.filename }⟩ := by
  rw [foldl_attach, h]
  rfl

def filenames (records : List FileRecord) : List String := records.map fun r => r.file.filename

lemma rows_attachDependencies {records : List FileRecord} (hnames : (filenames records).Nodup)
    (hempty : ∀ r ∈ records, r.file.dependencies = ∅) (rows : List DependencyRow) :
    (attachDependencies records rows).rows = (Table.ofList records).rows.map fun r =>
      ⟨r.build, { r.file with dependencies := requiredBy rows r.file.filename }⟩ := by
  rw [attachDependencies, rows_foldl_attach]
  refine List.map_congr_left fun r hr => ?_
  exact foldl_attach_of_empty (hempty r ((Table.mem_ofList hnames).mp hr)) rows

/-- Files are read as their records, in the order of their names. -/
theorem filesWhere_eq_of_sizes (h : ∀ f ∈ l.files, 0 ≤ f.size) (p : FileRow → Bool) :
    l.filesWhere p = .ok ((l.files.rows.filter p).map l.recordOf) := by
  have hread : (l.files.filter p).rows.mapM FileRow.read =
      .ok ((l.files.filter p).rows.map FileRow.bare) := by
    refine mapM_eq_ok fun g hg => ?_
    have hsize := h g (Table.mem_filter.mp hg).1
    simp only [FileRow.read, readWord, if_pos hsize]
    rfl
  have hordered : ((l.files.filter p).rows.map FileRow.bare).Pairwise
      fun a b => KeyOrder.lt (Keyed.key a) (Keyed.key b) :=
    List.pairwise_map.mpr (l.files.filter p).ordered
  have hnames : (filenames ((l.files.filter p).rows.map FileRow.bare)).Nodup :=
    List.pairwise_map.mpr (hordered.imp KeyOrder.ne_of_lt)
  have hempty : ∀ r ∈ (l.files.filter p).rows.map FileRow.bare, r.file.dependencies = ∅ :=
    List.forall_mem_map.mpr fun _ _ => rfl
  simp only [filesWhere, hread, bind, Except.bind, pure, Except.pure]
  rw [rows_attachDependencies hnames hempty, Table.rows_ofList hordered, List.map_map]
  refine congrArg Except.ok (List.map_congr_left fun g hg => ?_)
  have hrequired : requiredBy (l.dependencies.rows.filter fun d =>
      (l.files.filter p).has d.filename) g.filename = l.dependenciesOf g.filename := by
    refine requiredBy_congr fun d hd => ?_
    have hhas : (l.files.filter p).has d.filename = true := Table.has_iff.mpr ⟨g, hg, hd.symm⟩
    rw [List.mem_filter, and_iff_left hhas]
  rw [recordOf, ← hrequired]
  rfl

theorem filesWhere_eq (h : Sound l) (p : FileRow → Bool) :
    l.filesWhere p = .ok ((l.files.rows.filter p).map l.recordOf) :=
  filesWhere_eq_of_sizes (fun f hf => (h.size_stored f hf).1) p

/-- The records that are read come in the order of their filenames. -/
theorem records_ordered (l : Ledger) (p : FileRow → Bool) :
    ((l.files.rows.filter p).map l.recordOf).Pairwise fun a b =>
      a.file.filename < b.file.filename :=
  List.pairwise_map.mpr (l.files.ordered.filter p)

/-- The rows of a file are the pairs of its dependencies. -/
theorem mem_pairs_dependenciesOf {filename tool name : String} :
    (tool, name) ∈ (l.dependenciesOf filename).pairs ↔
      ⟨filename, tool, name⟩ ∈ l.dependencies :=
  mem_pairs_requiredBy

/-- The dependencies of a file are told by its rows. -/
theorem dependenciesOf_eq {filename : String} {deps : Dependencies}
    (h : ∀ tool name, ⟨filename, tool, name⟩ ∈ l.dependencies ↔ (tool, name) ∈ deps.pairs) :
    l.dependenciesOf filename = deps.withoutEmpty := by
  have hfull : (l.dependenciesOf filename).Full := full_requiredBy l.dependencies.rows filename
  apply Dependencies.eq_of_pairs hfull (Dependencies.full_withoutEmpty deps)
  intro p
  rw [Dependencies.mem_pairs_withoutEmpty, mem_pairs_dependenciesOf, h]

end WheelFarm.Ledger
