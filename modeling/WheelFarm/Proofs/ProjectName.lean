import WheelFarm.ProjectName
import WheelFarm.Proofs.Text.Casing

/-! The canonical form of a project name is a normal form: taking it again changes nothing. -/
namespace WheelFarm.ProjectName
open Text

/-- Texts in which hyphens are the only separators and no two of them are neighbours. -/
inductive Collapsed : List Char → Prop
  | nil : Collapsed []
  | letter {c : Char} {cs : List Char} (hc : isSeparator c = false) (rest : Collapsed cs) :
      Collapsed (c :: cs)
  | hyphen {cs : List Char} (next : ∀ d ∈ cs.head?, isSeparator d = false) (rest : Collapsed cs) :
      Collapsed ('-' :: cs)

variable {c : Char} {cs ls : List Char}

lemma Collapsed.append (hls : ∀ c ∈ ls, isSeparator c = false) (h : Collapsed cs) :
    Collapsed (ls ++ cs) := by
  induction ls with
  | nil => exact h
  | cons c ls ih =>
    obtain ⟨hc, hls⟩ := List.forall_mem_cons.mp hls
    exact .letter hc (ih hls)

section Separators

lemma collapse_cons_of_letter (hc : isSeparator c = false) (cs : List Char) :
    collapse (c :: cs) = c :: collapse cs := by
  cases cs <;> simp [collapse, hc]

lemma collapse_cons_of_separator (hc : isSeparator c = true)
    (next : ∀ d ∈ cs.head?, isSeparator d = false) : collapse (c :: cs) = '-' :: collapse cs := by
  cases cs with
  | nil => simp [collapse, hc]
  | cons d cs => simp [collapse, hc, next d rfl]

theorem collapsed_collapse (cs : List Char) : Collapsed (collapse cs) := by
  fun_induction collapse cs with
  | case1 => exact .nil
  | case2 => exact .hyphen (by simp) .nil
  | case3 c hc => exact .letter (Bool.eq_false_iff.mpr hc) .nil
  | case4 _ _ _ _ _ ih => exact ih
  | case5 c d cs _ hd ih =>
    have hd := Bool.eq_false_iff.mpr hd
    refine .hyphen (fun x hx => ?_) ih
    rw [collapse_cons_of_letter hd] at hx
    cases hx
    exact hd
  | case6 c d cs hc ih => exact .letter (Bool.eq_false_iff.mpr hc) ih

theorem collapse_of_collapsed (h : Collapsed cs) : collapse cs = cs := by
  induction h with
  | nil => rfl
  | letter hc _ ih => rw [collapse_cons_of_letter hc, ih]
  | hyphen next _ ih => rw [collapse_cons_of_separator rfl next, ih]

end Separators

section Casing

lemma separator_cases (h : isSeparator c = true) : c = '-' ∨ c = '_' ∨ c = '.' := by
  simpa [isSeparator, or_assoc] using h

lemma lowerAfter_hyphen (before cs : List Char) :
    lowerAfter before ('-' :: cs) = '-' :: lowerAfter ('-' :: before) cs := by
  have hlower : lowerLetter '-' = '-' := by decide +kernel
  rw [lowerAfter, if_neg (by decide), if_neg (by decide), hlower]
  rfl

lemma isSeparator_lowerLetter (hc : isSeparator c = false) :
    isSeparator (lowerLetter c) = false := by
  refine Bool.eq_false_iff.mpr fun hlower => Bool.eq_false_iff.mp hc ?_
  rcases separator_cases hlower with he | he | he
  · rw [eq_of_lowerLetter_eq (by decide +kernel) he]
    rfl
  · rw [eq_of_lowerLetter_eq (by decide +kernel) he]
    rfl
  · rw [eq_of_lowerLetter_eq (by decide +kernel) he]
    rfl

lemma lowerAfter_letter (hc : isSeparator c = false) (before cs : List Char) :
    ∃ d ds, (∀ x ∈ d :: ds, isSeparator x = false) ∧
      lowerAfter before (c :: cs) = (d :: ds) ++ lowerAfter (c :: before) cs := by
  rw [lowerAfter]
  split
  · refine ⟨_, [], List.forall_mem_singleton.mpr ?_, rfl⟩
    split <;> rfl
  · split
    · exact ⟨'i', ['\u0307'], by simp [isSeparator], rfl⟩
    · exact ⟨_, [], List.forall_mem_singleton.mpr (isSeparator_lowerLetter hc), rfl⟩

theorem collapsed_lowerAfter (h : Collapsed cs) (before : List Char) :
    Collapsed (lowerAfter before cs) := by
  induction h generalizing before with
  | nil => exact .nil
  | letter hc _ ih =>
    obtain ⟨d, ds, hds, hlower⟩ := lowerAfter_letter hc before _
    rw [hlower]
    exact (ih _).append hds
  | @hyphen cs next _ ih =>
    rw [lowerAfter_hyphen]
    refine .hyphen (fun d hd => ?_) (ih _)
    cases cs with
    | nil => cases hd
    | cons c cs =>
      obtain ⟨x, ds, hds, hlower⟩ := lowerAfter_letter (next c rfl) ('-' :: before) cs
      rw [hlower] at hd
      cases hd
      exact hds _ List.mem_cons_self

end Casing

/-- Taking the canonical form twice is taking it once. -/
theorem canonicalize_canonicalize (name : String) :
    canonicalize (canonicalize name) = canonicalize name := by
  have hcollapse : collapse (lower (collapse name.toList)) = lower (collapse name.toList) :=
    collapse_of_collapsed (collapsed_lowerAfter (collapsed_collapse _) [])
  rw [canonicalize, canonicalize, String.toList_ofList, hcollapse, lower_lower]

/-- A name that is in its canonical form. -/
def IsCanonical (name : String) : Prop := canonicalize name = name

instance (name : String) : Decidable (IsCanonical name) := inferInstanceAs (Decidable (_ = _))

theorem isCanonical_canonicalize (name : String) : IsCanonical (canonicalize name) :=
  canonicalize_canonicalize name

theorem IsCanonical.eq {a b : String} (ha : IsCanonical a) (hb : IsCanonical b)
    (h : canonicalize a = canonicalize b) : a = b := by
  rw [← ha, h, hb]

end WheelFarm.ProjectName
