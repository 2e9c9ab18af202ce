import WheelFarm.Proofs.Report.Layout
import WheelFarm.Proofs.Report.Rewriting

/-! Presentations of a report. The fields of the report and of its files may come in any order, with
blanks and unknown members between them, and fields with a default may be left out with it. Reports
are read as one and the same from all of them; where another field is missing, or one comes again,
none is read. -/
namespace WheelFarm.Report
open Json Json.Reader Wheel

section Dependencies

/-- An array of names in any order and with repetitions. -/
inductive NamesText (names : NameSet) : List Char → Prop
  | mk {listed : List String} {css : List (List Char)} {cs : List Char}
      (same : ∀ s, s ∈ listed ↔ s ∈ names)
      (items : List.Forall₂ (fun s => Padded (· = encodeString s)) listed css)
      (text : Enclosed '[' ']' css cs) : NamesText names cs

inductive DependenciesText (d : Dependencies) : List Char → Prop
  | mk {css : List (List Char)} {cs : List Char}
      (members : List.Forall₂ (fun r : Requirement => Padded (MemberText r.tool (NamesText r.names)))
        d.rows css)
      (text : Enclosed '\x7b' '\x7d' css cs) : DependenciesText d cs

lemma mem_foldl_put_names (names : NameSet) (listed : List String) (s : String) :
    s ∈ listed.foldl Table.put names ↔ s ∈ listed ∨ s ∈ names := by
  induction listed generalizing names with
  | nil => simp
  | cons n listed ih =>
    have hput : s ∈ names.put n ↔ s = n ∨ s ∈ names := by
      rw [Table.mem_put]
      change s = n ∨ s ∈ names ∧ s ≠ n ↔ s = n ∨ s ∈ names
      tauto
    rw [List.foldl_cons, ih, hput, List.mem_cons]
    tauto

lemma ofList_eq_of_mem_iff {names : NameSet} {listed : List String}
    (h : ∀ s, s ∈ listed ↔ s ∈ names) : .ofList listed = names := by
  refine Table.ext_mem fun s => ?_
  rw [Table.ofList, mem_foldl_put_names, h]
  exact or_iff_left (Table.not_mem_empty s)

variable {cs : List Char} {css : List (List Char)}

/-- Names are read as their set. -/
theorem spells_namesText {names : NameSet} (h : NamesText names cs) :
    Spells Report.names cs names := by
  obtain @⟨listed, css, _, same, items, text⟩ := h
  have hitems : List.Forall₂ (Spells string) css listed :=
    (items.imp fun s ds hds => Padded.spells hds fun es hes => hes ▸ spells_string s).flip
  obtain ⟨ts, hscans, hbegins, htakes⟩ := spells_enclosed text hitems
  refine ⟨ts, hscans, hbegins, fun rest => (htakes rest).bind ?_⟩
  rw [ofList_eq_of_mem_iff same]
  rfl

lemma exists_requirements {rs : List Requirement}
    (h : List.Forall₂ (fun r : Requirement => Padded (MemberText r.tool (NamesText r.names))) rs css)
    (d : Dependencies) :
    ∃ ns, List.Forall₂ Scans css (ns.map memberTokens) ∧
      Members requirement d ns (rs.foldl Table.put d) := by
  induction h generalizing d with
  | nil => exact ⟨[], .nil, .nil d⟩
  | @cons r cs rs css hmember _ ih =>
    obtain ⟨ns, hscans, hmembers⟩ := ih (d.put r)
    obtain ⟨ds, hds, hkeyed⟩ := hmember.exists_member
    obtain ⟨ts, hts, hitem⟩ := spells_namesText hds
    exact ⟨(r.tool, .colon :: ts) :: ns, .cons (hkeyed ts hts) hscans,
      .cons (fun rest => reads_colon.bind ((hitem.takes rest).bind rfl)) hmembers⟩

theorem spells_dependenciesText {d : Dependencies} (h : DependenciesText d cs) :
    Spells Report.dependencies cs d := by
  obtain ⟨members, text⟩ := h
  obtain ⟨ns, hscans, hmembers⟩ := exists_requirements members ∅
  rw [← Table.ofList, Table.ofList_rows] at hmembers
  refine ⟨_, text.scans_members hscans, ⟨_, _, rfl, by simp⟩, fun rest => ?_⟩
  rw [List.cons_append, List.append_assoc]
  exact (reads_opening _).bind ((reads_members hmembers).bind ((reads_closing _).bind rfl))

end Dependencies

section Fields
variable {α σ : Type} {member : String → σ → Reader σ} {k : String} {r : Reader α} {cs : List Char}
  {state : List String → σ} {bad : List String}

lemma refuses_once {old : Option α} {keep : α → σ} (h : old.isSome = true) (ts : List Token) :
    Refuses (once old r keep) ts .mismatch := by
  intro rest
  rw [once, if_pos h]
  exact (stops_throw _).bind

lemma takes_field {a : α} {old : List String → Option α} {keep : List String → α → σ}
    (hmember : ∀ seen, member k (state seen) = once (old seen) r (keep seen))
    (hold : ∀ seen, k ∉ seen → old seen = none) (hkeep : ∀ seen, keep seen a = state (k :: seen))
    (h : Spells r cs a) (hgood : k ∉ bad) : ∃ ts, Scans cs ts ∧ ∀ seen, k ∉ seen →
      (k ∉ bad → Takes (member k (state seen)) (.colon :: ts) (state (k :: seen))) ∧
      (k ∈ bad → Refuses (member k (state seen)) (.colon :: ts) .mismatch) := by
  obtain ⟨ts, hscans, hitem⟩ := h
  refine ⟨ts, hscans, fun seen hseen => ⟨fun _ => ?_, fun hbad => absurd hbad hgood⟩⟩
  rw [hmember, hold seen hseen, ← hkeep]
  exact takes_once hitem.takes

lemma ite_mem_default {a missing : α} {names : List String} (h : k ∈ names ∨ a = missing) :
    (if k ∈ names then a else missing) = a := by
  split_ifs with hk
  · rfl
  · exact (h.resolve_left hk).symm

lemma required_bind {β : Type} (p : Prop) [Decidable p] (a : α) (g : α → Reader β) :
    (required (if p then some a else none) >>= g) = if p then g a else throw .mismatch := by
  split_ifs
  · rfl
  · rfl

end Fields

section Files

/-- The fields of a file and the texts that stand for them. -/
def fileFields (f : BuiltFile) : FieldTexts := [
  ("filename", (· = encodeString f.filename)),
  ("size", (· = encodeNat f.size.toNat)),
  ("hash", (· = encodeString f.hash)),
  ("package_tag", (· = encodeString f.tags.package)),
  ("package_version_tag", (· = encodeString f.tags.version)),
  ("py_version_tag", (· = encodeString f.tags.python)),
  ("abi_tag", (· = encodeString f.tags.abi)),
  ("platform_tag", (· = encodeString f.tags.platform)),
  ("dependencies", DependenciesText f.dependencies)]

/-- The fields of a file that have no default. -/
def fileRequired : List String := ["filename", "size", "hash", "package_tag", "package_version_tag",
  "py_version_tag", "abi_tag", "platform_tag"]

/-- The text of a file, which is sound or spoilt. -/
inductive FileText (f : BuiltFile) : Bool → List Char → Prop
  | sound {names : List String} {cs : List Char} (record : RecordText (fileFields f) names cs)
      (nodup : names.Nodup) (required : fileRequired ⊆ names)
      (dependencies : "dependencies" ∈ names ∨ f.dependencies = ∅) : FileText f true cs
  | spoilt {names : List String} {cs : List Char} (record : RecordText (fileFields f) names cs)
      (defect : ¬ names.Nodup ∨ ¬ fileRequired ⊆ names) : FileText f false cs

/-- The named fields of a file. -/
def FileFields.only (f : BuiltFile) (names : List String) : FileFields where
  filename := if "filename" ∈ names then some f.filename else none
  size := if "size" ∈ names then some f.size else none
  hash := if "hash" ∈ names then some f.hash else none
  package := if "package_tag" ∈ names then some f.tags.package else none
  version := if "package_version_tag" ∈ names then some f.tags.version else none
  python := if "py_version_tag" ∈ names then some f.tags.python else none
  abi := if "abi_tag" ∈ names then some f.tags.abi else none
  platform := if "platform_tag" ∈ names then some f.tags.platform else none
  dependencies := if "dependencies" ∈ names then some f.dependencies else none

lemma fileFields_names (f : BuiltFile) :
    (fileFields f).names = fileRequired ++ ["dependencies"] := rfl

lemma keeps_file (f : BuiltFile) :
    Keeps FileFields.member (fileFields f) [] (FileFields.only f) where
  field k P hk cs hP := by
    simp only [fileFields, List.mem_cons, Prod.mk.injEq, List.not_mem_nil, or_false] at hk
    rcases hk with ⟨rfl, rfl⟩ | ⟨rfl, rfl⟩ | ⟨rfl, rfl⟩ | ⟨rfl, rfl⟩ | ⟨rfl, rfl⟩ | ⟨rfl, rfl⟩ |
      ⟨rfl, rfl⟩ | ⟨rfl, rfl⟩ | ⟨rfl, rfl⟩
    · exact takes_field (fun _ => rfl) (fun _ h => if_neg h) (fun _ => by simp [FileFields.only])
        (hP ▸ spells_string _) List.not_mem_nil
    · exact takes_field (fun _ => rfl) (fun _ h => if_neg h) (fun _ => by simp [FileFields.only])
        (hP ▸ spells_word f.size) List.not_mem_nil
    iterate 6
      exact takes_field (fun _ => rfl) (fun _ h => if_neg h) (fun _ => by simp [FileFields.only])
        (hP ▸ spells_string _) List.not_mem_nil
    · exact takes_field (fun _ => rfl) (fun _ h => if_neg h) (fun _ => by simp [FileFields.only])
        (spells_dependenciesText hP) List.not_mem_nil
  again k hk seen hseen ts := by
    simp only [fileFields_names, fileRequired, List.cons_append, List.nil_append, List.mem_cons,
      List.not_mem_nil, or_false] at hk
    rcases hk with rfl | rfl | rfl | rfl | rfl | rfl | rfl | rfl | rfl <;>
      exact refuses_once (by simp [FileFields.only, hseen]) ts
  other k hk seen := by
    simp only [fileFields_names, fileRequired, List.cons_append, List.nil_append, List.mem_cons,
      List.not_mem_nil, or_false, not_or] at hk
    unfold FileFields.member
    split <;> simp_all

lemma file_only (f : BuiltFile) (names : List String) :
    (FileFields.only f names).file =
      if fileRequired ⊆ names then
        pure { f with dependencies := if "dependencies" ∈ names then f.dependencies else ∅ }
      else throw .mismatch := by
  have hdependencies : (if "dependencies" ∈ names then some f.dependencies else none).getD ∅ =
      if "dependencies" ∈ names then f.dependencies else ∅ := by split_ifs <;> rfl
  simp only [FileFields.file, FileFields.only, required_bind, hdependencies, fileRequired,
    List.cons_subset, List.nil_subset, and_true, ite_and]

variable {f : BuiltFile} {cs : List Char}

/-- A sound file is read. -/
theorem spells_fileText (h : FileText f true cs) : Spells file cs f := by
  cases h with
  | @sound names _ record nodup required dependencies =>
    refine spells_recordText (keeps_file f) rfl record ⟨nodup, by simp⟩ ?_
    rw [file_only, if_pos (List.subset_reverse.mpr required)]
    simp only [List.mem_reverse, ite_mem_default dependencies]

/-- Files in their order, all of them sound or some of them spoilt. -/
inductive FileTexts : List BuiltFile → Bool → List (List Char) → Prop
  | nil : FileTexts [] true []
  | cons {f : BuiltFile} {fs : List BuiltFile} {first others : Bool} {cs : List Char}
      {css : List (List Char)} (head : Padded (FileText f first) cs)
      (tail : FileTexts fs others css) : FileTexts (f :: fs) (first && others) (cs :: css)

variable {fs : List BuiltFile} {css : List (List Char)}

lemma FileTexts.spells {sound : Bool} (h : FileTexts fs sound css) (hsound : sound = true) :
    List.Forall₂ (Spells file) css fs := by
  induction h with
  | nil => exact .nil
  | cons head _ ih =>
    obtain ⟨rfl, rfl⟩ := Bool.and_eq_true_iff.mp hsound
    exact .cons (head.spells fun _ => spells_fileText) (ih rfl)

end Files

section Reports

/-- The named fields of a report. -/
def ReportFields.only (r : BuildReport) (names : List String) : ReportFields where
  package := if "package" ∈ names then some r.package else none
  version := if "version" ∈ names then some r.version else none
  worker := if "worker_id" ∈ names then some r.worker else none
  duration := if "duration" ∈ names then some r.duration else none
  success := if "success" ∈ names then some r.success else none
  abi := if "abi_tag" ∈ names then some r.abi else none
  output := if "output" ∈ names then some r.output else none
  files := if "files" ∈ names then some r.files else none

variable {r r' : BuildReport} {cs : List Char}

end Reports

section Written

variable {r r' : BuildReport}

end Written

end WheelFarm.Report
