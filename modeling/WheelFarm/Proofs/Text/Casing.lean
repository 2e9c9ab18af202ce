import Mathlib.Tactic.Lemma
import WheelFarm.Text.Casing

/-! Lower-casing comes to rest: no letter is lower-cased to one that has a lower-case form itself, so
that a text which has been lower-cased stays as it is. -/
namespace WheelFarm.Text
open Casing

namespace Casing

/-- The lower-case forms of the letters of a run. -/
def Run.lowered (r : Run) : Run :=
  ⟨(r.first + r.shift).toNat, (r.last + r.shift).toNat, r.step, 0⟩

/-- Whether runs have no letter in common: their ranges lie apart, or each has every second letter
of its range, the one between those of the other. -/
def Run.misses (r q : Run) : Bool :=
  r.last.blt q.first || q.last.blt r.first ||
    (q.step == 2 && (r.step == 2 || r.first == r.last) && (r.first + q.first) % 2 == 1)

/-- A character on its own. -/
def Run.only (c : Char) : Run := ⟨c.toNat, c.toNat, 1, 0⟩

lemma lowered_misses : (runs.all fun r => runs.all fun q => r.lowered.misses q) = true := by
  decide +kernel

lemma lowered_valid : ∀ r ∈ runs, 0 ≤ r.first + r.shift ∧
    (r.last + r.shift < 0xd800 ∨ 0xdfff < r.first + r.shift ∧ r.last + r.shift < 0x110000) := by
  decide +kernel

variable {r q : Run} {n m : Nat}

lemma contains_iff : r.contains n = true ↔
    r.first ≤ n ∧ n ≤ r.last ∧ (n - r.first) % r.step = 0 := by
  simp only [Run.contains, Bool.and_eq_true, decide_eq_true_eq, beq_iff_eq, and_assoc]

theorem not_contains_of_misses (h : r.misses q = true) (hn : r.contains n = true) :
    q.contains n = false := by
  rw [← Bool.not_eq_true, contains_iff]
  rintro ⟨hfirst, hlast, hstep⟩
  obtain ⟨hfirst', hlast', hstep'⟩ := contains_iff.mp hn
  simp only [Run.misses, Bool.or_eq_true, Bool.and_eq_true, Nat.blt_eq, beq_iff_eq] at h
  rcases h with (h | h) | ⟨⟨hq, hr | hr⟩, h⟩
  · omega
  · omega
  · rw [hq] at hstep
    rw [hr] at hstep'
    omega
  · rw [hq] at hstep
    omega

lemma contains_lowered (hr : 0 ≤ r.first + r.shift) (hn : r.contains n = true)
    (hm : (m : Int) = n + r.shift) : r.lowered.contains m = true := by
  obtain ⟨hfirst, hlast, hstep⟩ := contains_iff.mp hn
  have hsame : m - (r.first + r.shift).toNat = n - r.first := by omega
  refine contains_iff.mpr ⟨?_, ?_, ?_⟩ <;> dsimp only [Run.lowered]
  · omega
  · omega
  · rwa [hsame]

end Casing

section Letters
variable {c d : Char}

/-- A letter is lower-cased by the run that has it, and one that no run has stays as it is. -/
theorem lowerLetter_cases (c : Char) :
    (∃ r ∈ runs, r.contains c.toNat = true ∧ ((lowerLetter c).toNat : Int) = c.toNat + r.shift) ∨
      ((∀ r ∈ runs, r.contains c.toNat = false) ∧ lowerLetter c = c) := by
  rw [lowerLetter]
  cases hfind : runs.find? (·.contains c.toNat) with
  | none =>
    exact .inr ⟨fun r hr => Bool.eq_false_iff.mpr (List.find?_eq_none.mp hfind r hr), rfl⟩
  | some r =>
    have hr := List.mem_of_find?_eq_some hfind
    have hc : r.contains c.toNat = true := by simpa using List.find?_some hfind
    refine .inl ⟨r, hr, hc, ?_⟩
    obtain ⟨hfirst, hlast, -⟩ := contains_iff.mp hc
    obtain ⟨hpos, hvalid⟩ := lowered_valid r hr
    have hchar : (c.toNat + r.shift).toNat.isValidChar := by
      rw [Nat.isValidChar]
      omega
    have hnat : (Char.ofNat (c.toNat + r.shift).toNat).toNat = (c.toNat + r.shift).toNat := by
      rw [Char.ofNat, dif_pos hchar]
      rfl
    dsimp only
    rw [hnat]
    omega

lemma lowerLetter_of_not_contains (h : ∀ r ∈ runs, r.contains c.toNat = false) :
    lowerLetter c = c := by
  rw [lowerLetter, List.find?_eq_none.mpr fun r hr => Bool.eq_false_iff.mp (h r hr)]

theorem lowerLetter_lowerLetter (c : Char) : lowerLetter (lowerLetter c) = lowerLetter c := by
  rcases lowerLetter_cases c with ⟨r, hr, hc, hshift⟩ | ⟨-, hsame⟩
  · apply lowerLetter_of_not_contains
    intro q hq
    have hmiss := List.all_eq_true.mp (List.all_eq_true.mp lowered_misses r hr) q hq
    exact not_contains_of_misses hmiss (contains_lowered (lowered_valid r hr).1 hc hshift)
  · rw [hsame, hsame]

/-- A character that no run leads to is the lower-case form of itself at most. -/
theorem eq_of_lowerLetter_eq (hd : (runs.all fun r => r.lowered.misses (.only d)) = true)
    (h : lowerLetter c = d) : c = d := by
  rcases lowerLetter_cases c with ⟨r, hr, hc, hshift⟩ | ⟨-, hsame⟩
  · have hmiss := not_contains_of_misses (List.all_eq_true.mp hd r hr)
      (contains_lowered (lowered_valid r hr).1 hc hshift)
    rw [h] at hmiss
    simp [Run.contains, Run.only] at hmiss
  · exact hsame ▸ h

end Letters

/-- A character that lower-casing leaves as it is, wherever it stands. -/
structure IsLower (c : Char) : Prop where
  ne_sigma : c ≠ 'Σ'
  ne_dotted : c ≠ 'İ'
  fixed : lowerLetter c = c

lemma isLower_lowerLetter {c : Char} (h : c ≠ 'İ') : IsLower (lowerLetter c) where
  ne_sigma he := by
    have hsigma := lowerLetter_lowerLetter c
    rw [he] at hsigma
    exact absurd hsigma (by decide +kernel)
  ne_dotted he := h (eq_of_lowerLetter_eq (by decide +kernel) he)
  fixed := lowerLetter_lowerLetter c

lemma isLower_sigma (final : Bool) : IsLower (if final then 'ς' else 'σ') := by
  cases final <;> exact ⟨by decide, by decide, by decide +kernel⟩

lemma isLower_dotted : ∀ c ∈ ['i', '\u0307'], IsLower c := by
  refine List.forall_mem_cons.mpr ⟨?_, List.forall_mem_singleton.mpr ?_⟩ <;>
    exact ⟨by decide, by decide, by decide +kernel⟩

theorem isLower_of_mem_lowerAfter {before cs : List Char} {d : Char}
    (h : d ∈ lowerAfter before cs) : IsLower d := by
  induction cs generalizing before with
  | nil => cases h
  | cons c cs ih =>
    rw [lowerAfter] at h
    rcases List.mem_append.mp h with hd | hd
    · split at hd
      · exact List.mem_singleton.mp hd ▸ isLower_sigma _
      · split at hd
        · exact isLower_dotted d hd
        · next hdotted => exact List.mem_singleton.mp hd ▸ isLower_lowerLetter hdotted
    · exact ih hd

theorem lowerAfter_of_isLower {cs : List Char} (h : ∀ c ∈ cs, IsLower c) (before : List Char) :
    lowerAfter before cs = cs := by
  induction cs generalizing before with
  | nil => rfl
  | cons c cs ih =>
    obtain ⟨hc, hcs⟩ := List.forall_mem_cons.mp h
    rw [lowerAfter, if_neg hc.ne_sigma, if_neg hc.ne_dotted, hc.fixed, ih hcs]
    rfl

/-- What has been lower-cased stays as it is. -/
theorem lower_lower (cs : List Char) : lower (lower cs) = lower cs :=
  lowerAfter_of_isLower (fun _ => isLower_of_mem_lowerAfter) []

end WheelFarm.Text
