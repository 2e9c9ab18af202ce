import WheelFarm.Proofs.ByteOrder
import WheelFarm.Proofs.Ledger.FileRecords

/-! Rows of dependencies grouped under the records of their files. One list holds every record once,
in the order of filenames, with the names that its rows require from each tool, and attaching the
rows leads to that list, in whatever order the records and the rows come. -/
namespace WheelFarm.Ledger
open Wheel Text

/-- The record without its dependencies. -/
def FileRecord.bare (r : FileRecord) : FileRecord :=
  { r with file := { r.file with dependencies := ∅ } }

/-- Every record once, in the byte order of the filenames, with the rows of its file and no tool
from which no name is required. -/
structure Grouping (records : List FileRecord) (rows : List DependencyRow)
    (grouped : List FileRecord) : Prop where
  ordered : grouped.Pairwise fun r s => bytes r.file.filename < bytes s.file.filename
  bare : (grouped.map FileRecord.bare).Perm records
  names : ∀ r ∈ grouped, ∀ tool name,
    name ∈ r.file.dependencies.names tool ↔ ⟨r.file.filename, tool, name⟩ ∈ rows
  full : ∀ r ∈ grouped, r.file.dependencies.Full

variable {records records' grouped grouped' : List FileRecord} {rows rows' : List DependencyRow}
  {r s : FileRecord}

lemma FileRecord.bare_of_empty (h : r.file.dependencies = ∅) : r.bare = r := by
  rw [bare, ← h]

lemma FileRecord.eq_of_bare (hbare : r.bare = s.bare)
    (h : r.file.dependencies = s.file.dependencies) : r = s := by
  obtain ⟨build, file⟩ := r
  obtain ⟨build', file'⟩ := s
  cases file
  cases file'
  simp_all [bare]

section Unique

lemma Grouping.inOrder (h : Grouping records rows grouped) :
    grouped.Pairwise fun r s => KeyOrder.lt (Keyed.key r) (Keyed.key s) :=
  h.ordered.imp bytes_lt_iff.mp

lemma Grouping.bare_mem (h : Grouping records rows grouped) (hr : r ∈ grouped) :
    r.bare ∈ records :=
  h.bare.mem_iff.mp (List.mem_map_of_mem hr)

lemma Grouping.mem_of_mem (h : Grouping records rows grouped) (h' : Grouping records rows grouped')
    (hr : r ∈ grouped) : r ∈ grouped' := by
  -- The other list holds the same record, and the rows tell what is required for it there.
  obtain ⟨s, hs, hbare⟩ := List.mem_map.mp (h'.bare.mem_iff.mpr (h.bare_mem hr))
  have hname : s.file.filename = r.file.filename := congrArg (·.file.filename) hbare
  have hdependencies : s.file.dependencies = r.file.dependencies := by
    apply Dependencies.eq_of_pairs (h'.full s hs) (h.full r hr)
    intro p
    rw [← Dependencies.mem_names, ← Dependencies.mem_names, h'.names s hs, h.names r hr, hname]
  rwa [← FileRecord.eq_of_bare hbare hdependencies]

/-- There is one way to group rows under records. -/
theorem Grouping.unique (h : Grouping records rows grouped)
    (h' : Grouping records rows grouped') : grouped = grouped' := by
  suffices (⟨grouped, h.inOrder⟩ : Table FileRecord) = ⟨grouped', h'.inOrder⟩ from
    congrArg Table.rows this
  apply Table.ext_mem
  intro r
  constructor
  · exact h.mem_of_mem h'
  · exact h'.mem_of_mem h

/-- The order of the records does not matter, and of the rows only the set of those that are about
the records' files does. -/
theorem Grouping.congr (h : Grouping records rows grouped) (hrecords : records'.Perm records)
    (hrows : ∀ d, d.filename ∈ filenames records → (d ∈ rows' ↔ d ∈ rows)) :
    Grouping records' rows' grouped where
  ordered := h.ordered
  bare := h.bare.trans hrecords.symm
  names r hr tool name := by
    have hlisted : r.file.filename ∈ filenames records :=
      List.mem_map.mpr ⟨r.bare, h.bare_mem hr, rfl⟩
    exact (h.names r hr tool name).trans (hrows ⟨_, tool, name⟩ hlisted).symm
  full := h.full

end Unique

section Attaching
variable (hnames : (filenames records).Nodup) (hempty : ∀ r ∈ records, r.file.dependencies = ∅)
include hnames hempty

theorem grouping_attachDependencies (rows : List DependencyRow) :
    Grouping records rows (attachDependencies records rows).rows where
  ordered := (attachDependencies records rows).ordered.imp bytes_lt_iff.mpr
  bare := by
    have hmap : (Table.ofList records).rows.map FileRecord.bare = (Table.ofList records).rows := by
      refine (List.map_congr_left fun r hr => ?_).trans (List.map_id _)
      exact FileRecord.bare_of_empty (hempty r ((Table.mem_ofList hnames).mp hr))
    rw [rows_attachDependencies hnames hempty, List.map_map]
    exact (List.Perm.of_eq hmap).trans (Table.rows_ofList_perm hnames)
  names r hr tool name := by
    rw [rows_attachDependencies hnames hempty] at hr
    obtain ⟨b, -, rfl⟩ := List.mem_map.mp hr
    exact Dependencies.mem_names.trans mem_pairs_requiredBy
  full r hr := by
    rw [rows_attachDependencies hnames hempty] at hr
    obtain ⟨b, -, rfl⟩ := List.mem_map.mp hr
    exact full_requiredBy rows b.file.filename

/-- Records in another order, with rows that are about their files in the same way, lead to the
same table. -/
theorem attachDependencies_congr (hrecords : records'.Perm records)
    (hrows : ∀ d, d.filename ∈ filenames records → (d ∈ rows' ↔ d ∈ rows)) :
    attachDependencies records' rows' = attachDependencies records rows := by
  have hnames' : (filenames records').Nodup := (hrecords.map _).nodup_iff.mpr hnames
  have hempty' : ∀ r ∈ records', r.file.dependencies = ∅ :=
    fun r hr => hempty r (hrecords.mem_iff.mp hr)
  have h := grouping_attachDependencies hnames hempty rows
  have h' := grouping_attachDependencies hnames' hempty' rows'
  exact Table.ext_rows (h'.unique (h.congr hrecords hrows))

end Attaching

/-- Rows are grouped under their records without loss, and in one way only. The orders of records
and rows do not matter, and rows of other files are dropped. -/
theorem attachDependencies_groups {records : List FileRecord}
    (hnames : (filenames records).Nodup) (hempty : ∀ r ∈ records, r.file.dependencies = ∅)
    (rows : List DependencyRow) :
    Grouping records rows (attachDependencies records rows).rows ∧
    (∀ grouped, Grouping records rows grouped →
      grouped = (attachDependencies records rows).rows) ∧
    (∀ records' rows', records'.Perm records → rows'.Perm rows →
      attachDependencies records' rows' = attachDependencies records rows) ∧
    attachDependencies records (rows.filter fun d => d.filename ∈ filenames records) =
      attachDependencies records rows := by
  have h := grouping_attachDependencies hnames hempty rows
  refine ⟨h, fun grouped hgrouped => hgrouped.unique h, ?_, ?_⟩
  · intro records' rows' hrecords hrows
    exact attachDependencies_congr hnames hempty hrecords fun d _ => hrows.mem_iff
  · apply attachDependencies_congr hnames hempty (.refl records)
    intro d hd
    rw [List.mem_filter, and_iff_left (decide_eq_true hd)]

/-- Records of two wheels, the one with the later filename first. -/
def twoRecords : List FileRecord :=
  [⟨2, { filename := "six-1.17.0-py3-none-any.whl", size := 11050, hash := "47"
         tags := ⟨"six", "1.17.0", "py3", "none", "any"⟩ }⟩,
    ⟨1, { filename := "six-1.16.0-py3-none-any.whl", size := 11053, hash := "8a"
          tags := ⟨"six", "1.16.0", "py3", "none", "any"⟩ }⟩]

/-- Rows in no order, one of them twice and one about a file without a record. -/
def mixedRows : List DependencyRow :=
  [⟨"six-1.17.0-py3-none-any.whl", "pip", "attrs"⟩,
    ⟨"six-1.15.0-py3-none-any.whl", "apt", "libffi8"⟩,
    ⟨"six-1.17.0-py3-none-any.whl", "apt", "zlib1g"⟩,
    ⟨"six-1.16.0-py3-none-any.whl", "pip", "attrs"⟩,
    ⟨"six-1.17.0-py3-none-any.whl", "apt", "libc6"⟩,
    ⟨"six-1.17.0-py3-none-any.whl", "apt", "zlib1g"⟩]

theorem groups_of_mixedRows : (filenames twoRecords).Nodup ∧
    (∀ r ∈ twoRecords, r.file.dependencies = ∅) ∧
    Grouping twoRecords mixedRows (attachDependencies twoRecords mixedRows).rows ∧
    (attachDependencies twoRecords mixedRows).rows.map
        (fun r => (r.build, r.file.dependencies.pairs)) =
      [(1, [("pip", "attrs")]),
        (2, [("apt", "libc6"), ("apt", "zlib1g"), ("pip", "attrs")])] ∧
    attachDependencies twoRecords.reverse mixedRows.reverse =
      attachDependencies twoRecords mixedRows ∧
    mixedRows.filter (fun d => d.filename ∈ filenames twoRecords) ≠ mixedRows ∧
    attachDependencies twoRecords (mixedRows.filter fun d => d.filename ∈ filenames twoRecords) =
      attachDependencies twoRecords mixedRows := by
  have hnames : (filenames twoRecords).Nodup := by decide
  have hempty : ∀ r ∈ twoRecords, r.file.dependencies = ∅ := by decide
  obtain ⟨hgrouping, -, hperm, hdropped⟩ := attachDependencies_groups hnames hempty mixedRows
  refine ⟨hnames, hempty, hgrouping, by decide +kernel, ?_, by decide, hdropped⟩
  exact hperm _ _ (List.reverse_perm twoRecords) (List.reverse_perm mixedRows)

end WheelFarm.Ledger
