import Mathlib.Data.List.Nodup
import Mathlib.Tactic.Lemma
import WheelFarm.Ledger.Commit
import WheelFarm.Proofs.Wheel.Tags

/-! The reports that cannot be recorded as they stand. The checks of a commit accept exactly the
other ones, and they look at nothing but the report. -/
namespace WheelFarm.Ledger
open Wheel

/-- A report that cannot be recorded, whatever the ledger holds. -/
inductive Malformed (r : BuildReport) : Prop
  | noPackage (h : r.package = "")
  | noVersion (h : r.version = "")
  | noAbi (h : r.abi = "")
  | universalAbi (h : r.abi = "none")
  | unnamedFile (h : ∃ f ∈ r.files, f.filename = "")
  | sharedFilename (h : ¬ (r.files.map (·.filename)).Nodup)
  | tagsDiffer (h : ∃ f ∈ r.files, f.check ≠ .ok ())
  | workerTooLarge (h : maxStored < r.worker.toNat)
  | durationTooLong (h : maxStored < r.duration.milliseconds)
  | fileTooLarge (h : ∃ f ∈ r.files, maxStored < f.size.toNat)

lemma fits_iff (n : Nat) : fits n = true ↔ ¬ maxStored < n := by
  rw [fits, decide_eq_true_eq, Int.not_lt]

lemma checkFiles_eq_ok_iff {seen : List String} {fs : List BuiltFile} :
    checkFiles seen fs = .ok () ↔ (fs.map (·.filename)).Nodup ∧
      ∀ f ∈ fs, f.filename ≠ "" ∧ f.filename ∉ seen ∧ f.check = .ok () := by
  induction fs generalizing seen with
  | nil => simp [checkFiles]
  | cons f fs ih =>
    have hnew : f.filename ∉ fs.map (·.filename) ↔ ∀ g ∈ fs, g.filename ≠ f.filename := by simp
    rw [checkFiles, List.map_cons, List.nodup_cons, hnew]
    split
    · next he => simp_all
    · next he =>
      have hne : f.filename ≠ "" := by simpa using he
      split
      · next hs => simp_all
      · next hs =>
        cases hc : f.check with
        | error e => simp_all
        | ok u =>
          rw [ih]
          grind

lemma ite_error_eq_ok {ε α : Type} {c : Prop} [Decidable c] {e : ε} {x : Except ε α} {a : α} :
    (if c then .error e else x) = .ok a ↔ ¬ c ∧ x = .ok a := by
  by_cases h : c <;> simp [h]

lemma checkReport_eq_ok {r : BuildReport} : checkReport r = .ok () ↔
    (r.package ≠ "" ∧ r.version ≠ "") ∧ r.abi ≠ "" ∧ r.abi ≠ Wheel.universalAbi ∧
      checkFiles [] r.files = .ok () ∧ fits r.worker.toNat = true ∧
        fits r.duration.milliseconds = true ∧ ∀ f ∈ r.files, fits f.size.toNat = true := by
  simp only [checkReport, bind, Except.bind, throw, throwThe, MonadExceptOf.throw, pure,
    Except.pure]
  cases checkFiles [] r.files with
  | error e => simp only [ite_error_eq_ok, reduceCtorEq, and_false, false_and]
  | ok u => simp [ite_error_eq_ok]

/-- The checks accept exactly the reports that are not malformed. -/
theorem checkReport_eq_ok_iff {r : BuildReport} : checkReport r = .ok () ↔ ¬ Malformed r := by
  rw [checkReport_eq_ok, checkFiles_eq_ok_iff]
  constructor
  · rintro ⟨⟨hp, hv⟩, ha, hu, ⟨hn, hf⟩, hw, hd, hs⟩ hm
    cases hm with
    | noPackage h => exact hp h
    | noVersion h => exact hv h
    | noAbi h => exact ha h
    | universalAbi h => exact hu h
    | unnamedFile h =>
      obtain ⟨f, hm, he⟩ := h
      exact (hf f hm).1 he
    | sharedFilename h => exact h hn
    | tagsDiffer h =>
      obtain ⟨f, hm, he⟩ := h
      exact he (hf f hm).2.2
    | workerTooLarge h => exact (fits_iff _).mp hw h
    | durationTooLong h => exact (fits_iff _).mp hd h
    | fileTooLarge h =>
      obtain ⟨f, hm, he⟩ := h
      exact (fits_iff _).mp (hs f hm) he
  · intro hm
    refine ⟨⟨fun h => hm (.noPackage h), fun h => hm (.noVersion h)⟩, fun h => hm (.noAbi h),
      fun h => hm (.universalAbi h), ⟨?_, fun f hf => ⟨?_, List.not_mem_nil, ?_⟩⟩, ?_, ?_, ?_⟩
    · exact not_not.mp fun h => hm (.sharedFilename h)
    · exact fun h => hm (.unnamedFile ⟨f, hf, h⟩)
    · exact not_not.mp fun h => hm (.tagsDiffer ⟨f, hf, h⟩)
    · exact (fits_iff _).mpr fun h => hm (.workerTooLarge h)
    · exact (fits_iff _).mpr fun h => hm (.durationTooLong h)
    · exact fun f hf => (fits_iff _).mpr fun h => hm (.fileTooLarge ⟨f, hf, h⟩)

section Accepted
variable {r : BuildReport}

theorem filenames_nodup (h : ¬ Malformed r) : (r.files.map (·.filename)).Nodup :=
  not_not.mp fun hn => h (.sharedFilename hn)

theorem worker_le (h : ¬ Malformed r) : r.worker.toNat ≤ maxStored :=
  Int.not_lt.mp fun hw => h (.workerTooLarge hw)

theorem milliseconds_le (h : ¬ Malformed r) : r.duration.milliseconds ≤ maxStored :=
  Int.not_lt.mp fun hd => h (.durationTooLong hd)

theorem size_le (h : ¬ Malformed r) {f : BuiltFile} (hf : f ∈ r.files) : f.size.toNat ≤ maxStored :=
  Int.not_lt.mp fun hs => h (.fileTooLarge ⟨f, hf, hs⟩)

theorem tags_carried (h : ¬ Malformed r) {f : BuiltFile} (hf : f ∈ r.files) :
    Carries f.filename f.tags.canonical :=
  BuiltFile.check_eq_ok_iff.mp (not_not.mp fun hc => h (.tagsDiffer ⟨f, hf, hc⟩))

end Accepted

end WheelFarm.Ledger
