import Mathlib.Tactic.Lemma
import WheelFarm.Wheel.File

/-! The tags of wheels. A filename carries one set of tags at most, and a wheel passes its check if
and only if it declares the ones that its filename carries. So wheels that passed and that share a
filename share their tags. What a filename carries names the universal ABI in its one spelling. -/
namespace WheelFarm.Wheel

/-- The tags that a filename carries. -/
def Carries (filename : String) (tags : Tags) : Prop :=
  ∃ name, WheelName.parse filename = .ok name ∧ name.tags = tags

theorem Carries.unique {filename : String} {s t : Tags} (hs : Carries filename s)
    (ht : Carries filename t) : s = t := by
  obtain ⟨m, hm, rfl⟩ := hs
  obtain ⟨n, hn, rfl⟩ := ht
  rw [Except.ok.inj (hm.symm.trans hn)]

theorem canonicalAbi_ne_retired (abi : String) : canonicalAbi abi ≠ retiredUniversalAbi := by
  rw [canonicalAbi]
  split
  · decide
  · next hne => exact hne

lemma ofComponents_abi {filename : String} {package version python abi platform : List Char}
    {build : Option (List Char)} {name : WheelName}
    (h : WheelName.ofComponents filename package version build python abi platform = .ok name) :
    name.tags.abi = canonicalAbi (String.ofList abi) := by
  rw [WheelName.ofComponents] at h
  split at h <;> cases h
  rfl

/-- The name of a wheel has the ABI in its one spelling. -/
theorem Carries.abi_ne_retired {filename : String} {tags : Tags} (h : Carries filename tags) :
    tags.abi ≠ retiredUniversalAbi := by
  obtain ⟨name, hparse, rfl⟩ := h
  rw [WheelName.parse] at hparse
  split at hparse
  · cases hparse
  · split at hparse
    · exact ofComponents_abi hparse ▸ canonicalAbi_ne_retired _
    · exact ofComponents_abi hparse ▸ canonicalAbi_ne_retired _
    · cases hparse

/-- A filename is that of a universal wheel if and only if it carries the universal tag. -/
theorem Carries.isUniversal_iff {filename : String} {tags : Tags} (h : Carries filename tags) :
    (∃ name, WheelName.parse filename = .ok name ∧ name.isUniversal = true) ↔
      tags.abi = universalAbi := by
  obtain ⟨name, hparse, rfl⟩ := h
  simp [hparse, WheelName.isUniversal]

lemma find?_comparisons_eq_none {declared expected : Tags} :
    ((BuiltFile.comparisons declared expected).find? fun c => c.2.1 ≠ c.2.2) = none ↔
      declared.canonical = expected := by
  cases expected
  rw [List.find?_eq_none]
  simp [BuiltFile.comparisons, Tags.canonical]

/-- A wheel passes its check if and only if its filename carries the tags that it declares. -/
theorem BuiltFile.check_eq_ok_iff {f : BuiltFile} :
    f.check = .ok () ↔ Carries f.filename f.tags.canonical := by
  simp only [check, Carries, bind, Except.bind]
  cases WheelName.parse f.filename with
  | error e => simp
  | ok name =>
    simp only [Except.ok.injEq, exists_eq_left', eq_comm (a := name.tags),
      ← find?_comparisons_eq_none]
    cases (comparisons f.tags name.tags).find? fun c => c.2.1 ≠ c.2.2 with
    | none => exact iff_of_true rfl rfl
    | some c => exact iff_of_false (fun h => by cases h) (fun h => by cases h)

end WheelFarm.Wheel
