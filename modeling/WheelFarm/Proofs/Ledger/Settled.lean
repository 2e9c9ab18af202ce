import WheelFarm.Proofs.Ledger.Outstanding
import WheelFarm.Proofs.Ledger.Ownership

/-! Universal wheels. A version is settled as long as it holds a file whose name carries the
universal tag. It holds what it listed until its history is dropped or a build of another version
lists the same file. -/
namespace WheelFarm.Ledger
open Wheel

/-- Whether the commit that owns a file is one of a version. -/
def Holds (es : List Entry) (package version filename : String) : Prop :=
  ∃ c, Owns es c filename ∧ c.isOf package version = true

variable {es : List Entry} {l : Ledger} {package version filename : String}

/-- A version keeps a file over an entry that does not drop it and that passes the file to no other
version. -/
theorem Holds.concat {e : Entry} (h : Holds es package version filename)
    (hkept : e.drops package version = false)
    (hheld : ∀ d, e.commit? = some d → d.Lists filename → d.isOf package version = true) :
    Holds (es ++ [e]) package version filename := by
  obtain ⟨c, ho, hc⟩ := h
  by_cases hnext : ∃ d, e.commit? = some d ∧ d.Lists filename
  · obtain ⟨d, hd, hlists⟩ := hnext
    exact ⟨d, owns_concat.mpr (.inl ⟨hd, hlists⟩), hheld d hd hlists⟩
  · simp only [not_exists, not_and] at hnext
    obtain ⟨rfl, rfl⟩ := of_decide_eq_true hc
    exact ⟨c, owns_concat.mpr (.inr ⟨ho, hnext, hkept⟩), hc⟩

theorem Holds.append {since : List Entry} (h : Holds es package version filename)
    (hkept : ∀ e ∈ since, e.drops package version = false)
    (hheld : ∀ d ∈ commits since, d.Lists filename → d.isOf package version = true) :
    Holds (es ++ since) package version filename := by
  induction since using List.reverseRecOn with
  | nil => rwa [List.append_nil]
  | append_singleton since e ih =>
    simp only [List.forall_mem_append, List.forall_mem_singleton] at hkept
    simp only [commits_concat, List.forall_mem_append, Option.mem_toList] at hheld
    rw [← List.append_assoc]
    exact (ih hkept.1 hheld.1).concat hkept.2 hheld.2

/-- The tags of a version are those that the names of its files carry. -/
theorem Reached.hasTag_iff (h : Reached es l) {abi : String} :
    HasTag l package version abi ↔ ∃ filename tags,
      Holds es package version filename ∧ Carries filename tags ∧ tags.abi = abi := by
  constructor
  · intro htag
    obtain ⟨g, ⟨hg, b, hb, hid, hv⟩, habi⟩ := htag
    refine ⟨g.filename, g.tags, ?_, h.tags_carried hg, habi⟩
    obtain ⟨c, ho, f, hf, rfl⟩ := h.mem_files.mp hg
    obtain ⟨d, hd, rfl⟩ := h.mem_builds.mp hb
    cases h.commit_eq ho.standing.mem_commits hd.mem_commits hid.symm
    exact ⟨c, ho, decide_eq_true hv⟩
  · intro hmem
    obtain ⟨filename, tags, ⟨c, ho, hc⟩, hcarries, rfl⟩ := hmem
    obtain ⟨f, hf, rfl⟩ := ho.lists
    have hg : .ofFile c.build f ∈ l.files := h.mem_files.mpr ⟨c, ho, f, hf, rfl⟩
    refine ⟨_, ⟨hg, c.row, h.mem_builds.mpr ⟨c, ho.standing, rfl⟩, rfl, of_decide_eq_true hc⟩, ?_⟩
    exact congrArg Tags.abi ((h.tags_carried hg).unique hcarries)

lemma not_target_of_hasTag (h : HasTag l package version "none") :
    ∀ t ∈ l.targets, ¬ (t.package = package ∧ t.version = version) := by
  intro t ht hv
  obtain ⟨rfl, rfl⟩ := hv
  exact (mem_targets_iff.mp ht).1.unsettled h

/-- A build of a version whose wheel suits every ABI. -/
def universalReport (version : String) (size : UInt64) : BuildReport :=
  .succeeded "six" version "cp312" 7 .zero "" [sampleFile size]

/-- A run that leaves two versions to be built for two ABIs. -/
def twoVersions : List (Int × Operation) :=
  [(0, .addPackage "six" none), (0, .addVersion "six" "1.16.0" none none),
    (0, .addVersion "six" "1.17.0" none none), (0, .addAbi "cp312"), (0, .addAbi "cp313")]

/-- What follows the build of a universal wheel: one more ABI, a failure and a build of the same
wheel. -/
def afterUniversal : List (Int × Operation) :=
  [(120, .addAbi "cp311"), (180, .commit (.failed "six" "1.17.0" "cp311" 7 .zero "no compiler")),
    (240, .commit (universalReport "1.16.0" 2))]

/-- A universal wheel settles its version over all that follows, as long as the history of the
version is not dropped and no build of another version is recorded that lists the same file. -/
theorem settled_by_universal (earlier later : List (Int × Operation)) {now id : Int}
    {r : BuildReport} {l : Ledger} (hcommit : (run {} earlier).commit now r = .ok (id, l))
    {f : BuiltFile} (hf : f ∈ r.files) (huniversal : f.canonicalAbi = "none")
    (hkept : ∀ e ∈ l.journal later, e.drops r.package r.version = false)
    (hheld : ∀ d ∈ commits (l.journal later), d.Lists f.filename →
      d.isOf r.package r.version = true) :
    ∀ t ∈ (l.run later).targets, ¬ (t.package = r.package ∧ t.version = r.version) := by
  have hr := ((commit_eq_ok_iff (reached_run earlier).sound).mp hcommit).1
  have hstep := step_commit hcommit
  have h := reached_run (earlier ++ [(now, .commit r)] ++ later)
  rw [journal_append, journal_concat, run_append _ (earlier ++ _), run_concat, entry, hstep] at h
  have howns : Holds (journal {} earlier ++ [⟨now, .commit r, .ok (.recorded id)⟩])
      r.package r.version f.filename :=
    ⟨⟨id, now, r⟩, owns_concat.mpr (.inl ⟨rfl, f, hf, rfl⟩), decide_eq_true ⟨rfl, rfl⟩⟩
  refine not_target_of_hasTag (h.hasTag_iff.mpr ?_)
  exact ⟨f.filename, _, howns.append hkept hheld, tags_carried hr hf, huniversal⟩

theorem settled_after_universal :
    ∃ l, (run {} twoVersions).commit 60 (universalReport "1.16.0" 1) = .ok (1, l) ∧
      sampleFile 1 ∈ (universalReport "1.16.0" 1).files ∧ (sampleFile 1).canonicalAbi = "none" ∧
      (∀ e ∈ l.journal afterUniversal, e.drops "six" "1.16.0" = false) ∧
      (∀ d ∈ commits (l.journal afterUniversal), d.Lists (sampleFile 1).filename →
        d.isOf "six" "1.16.0" = true) ∧
      ∀ t ∈ (l.run afterUniversal).targets, ¬ (t.package = "six" ∧ t.version = "1.16.0") := by
  have hcommit : ∃ l, (run {} twoVersions).commit 60 (universalReport "1.16.0" 1) = .ok (1, l) ∧
      (∀ e ∈ l.journal afterUniversal, e.drops "six" "1.16.0" = false) ∧
      (∀ d ∈ commits (l.journal afterUniversal), d.Lists (sampleFile 1).filename →
        d.isOf "six" "1.16.0" = true) := ⟨_, by rfl, by decide +kernel, by decide +kernel⟩
  obtain ⟨l, hl, hkept, hheld⟩ := hcommit
  have hf : sampleFile 1 ∈ (universalReport "1.16.0" 1).files := List.mem_cons_self
  have huniversal : (sampleFile 1).canonicalAbi = "none" := by decide
  exact ⟨l, hl, hf, huniversal, hkept, hheld,
    settled_by_universal twoVersions afterUniversal hl hf huniversal hkept hheld⟩

/-- A version that was settled is to be built again after a build of another one has listed its
wheel. -/
theorem settled_until_taken :
    (run {} (twoVersions ++ [(60, .commit (universalReport "1.16.0" 1))])).targets =
      [⟨"six", "1.17.0", "cp312"⟩] ∧
    (run {} (twoVersions ++ [(60, .commit (universalReport "1.16.0" 1)),
      (120, .commit (universalReport "1.17.0" 2))])).targets = [⟨"six", "1.16.0", "cp313"⟩] := by
  decide +kernel

end WheelFarm.Ledger
