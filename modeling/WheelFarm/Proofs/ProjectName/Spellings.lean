import Mathlib.Data.List.Infix
import WheelFarm.Proofs.ProjectName

/-! Spellings of project names. Two names are alike if they differ in their separators and in the
case of ASCII letters alone. Names that are alike have one canonical form, and no other names in
ASCII have it. -/
namespace WheelFarm.ProjectName
open Text

/-- In the second text one hyphen stands for every longest run of separators of the first one. -/
inductive Squeezes : List Char → List Char → Prop
  | nil : Squeezes [] []
  | letter {c : Char} {cs ds : List Char} (hc : c ∉ ['-', '_', '.']) (rest : Squeezes cs ds) :
      Squeezes (c :: cs) (c :: ds)
  | run {run cs ds : List Char} (filled : run ≠ []) (all : ∀ c ∈ run, c ∈ ['-', '_', '.'])
      (longest : ∀ c ∈ cs.head?, c ∉ ['-', '_', '.']) (rest : Squeezes cs ds) :
      Squeezes (run ++ cs) ('-' :: ds)

/-- Names that become equal when one hyphen is put for every run of separators and ASCII letters are
lower-cased. -/
def Alike (a b : String) : Prop :=
  ∃ cs ds, Squeezes a.toList cs ∧ Squeezes b.toList ds ∧
    cs.map Char.toLower = ds.map Char.toLower

variable {c : Char} {cs ds : List Char}

section Separators

lemma isSeparator_iff : isSeparator c = true ↔ c ∈ ['-', '_', '.'] := by
  simp [isSeparator, or_assoc]

lemma isSeparator_eq_false_iff : isSeparator c = false ↔ c ∉ ['-', '_', '.'] := by
  rw [← isSeparator_iff, Bool.not_eq_true]

lemma collapse_run {run : List Char} (filled : run ≠ []) (all : ∀ c ∈ run, isSeparator c = true)
    (longest : ∀ c ∈ cs.head?, isSeparator c = false) :
    collapse (run ++ cs) = '-' :: collapse cs := by
  induction run with
  | nil => exact absurd rfl filled
  | cons c run ih =>
    obtain ⟨hc, hrun⟩ := List.forall_mem_cons.mp all
    cases run with
    | nil => exact collapse_cons_of_separator hc longest
    | cons d run =>
      have hd : isSeparator d = true := hrun d List.mem_cons_self
      rw [← ih (by simp) hrun]
      simp [collapse, hc, hd]

theorem collapse_of_squeezes (h : Squeezes cs ds) : collapse cs = ds := by
  induction h with
  | nil => rfl
  | letter hc _ ih => rw [collapse_cons_of_letter (isSeparator_eq_false_iff.mpr hc), ih]
  | run filled all longest _ ih =>
    rw [collapse_run filled (fun c hc => isSeparator_iff.mpr (all c hc))
      (fun c hc => isSeparator_eq_false_iff.mpr (longest c hc)), ih]

lemma Squeezes.cons {d : Char} (h : Squeezes (d :: cs) ds) (hc : isSeparator c = true)
    (hd : isSeparator d = true) : Squeezes (c :: d :: cs) ds := by
  generalize hcs : d :: cs = all at h
  cases h with
  | nil => cases hcs
  | letter hletter _ =>
    cases hcs
    exact absurd (isSeparator_iff.mp hd) hletter
  | @run run cs ds filled all longest rest =>
    have hrun : Squeezes ((c :: run) ++ cs) ('-' :: ds) := .run (by simp)
      (List.forall_mem_cons.mpr ⟨isSeparator_iff.mp hc, all⟩) longest rest
    exact hrun

lemma Squeezes.single (hc : isSeparator c = true) (longest : ∀ d ∈ cs.head?, isSeparator d = false)
    (rest : Squeezes cs ds) : Squeezes (c :: cs) ('-' :: ds) := by
  have hrun : Squeezes ([c] ++ cs) ('-' :: ds) := .run (by simp)
    (List.forall_mem_singleton.mpr (isSeparator_iff.mp hc))
    (fun d hd => isSeparator_eq_false_iff.mp (longest d hd)) rest
  exact hrun

theorem squeezes_collapse (cs : List Char) : Squeezes cs (collapse cs) := by
  fun_induction collapse cs with
  | case1 => exact .nil
  | case2 c hc => exact .single hc (by simp) .nil
  | case3 c hc => exact .letter (isSeparator_eq_false_iff.mp (Bool.eq_false_iff.mpr hc)) .nil
  | case4 c d cs hc hd ih => exact ih.cons hc hd
  | case5 c d cs hc hd ih => exact .single hc (by simpa using hd) ih
  | case6 c d cs hc ih => exact .letter (isSeparator_eq_false_iff.mp (Bool.eq_false_iff.mpr hc)) ih

lemma Collapsed.not_mem (h : Collapsed cs) (hc : isSeparator c = true) (hne : c ≠ '-') :
    c ∉ cs := by
  induction h with
  | nil => exact List.not_mem_nil
  | letter hletter _ ih =>
    refine fun hmem => (List.mem_cons.mp hmem).elim (fun he => ?_) ih
    rw [he, hletter] at hc
    cases hc
  | hyphen _ _ ih => exact fun hmem => (List.mem_cons.mp hmem).elim hne ih

lemma Collapsed.not_infix (h : Collapsed cs) : ¬ ['-', '-'] <:+: cs := by
  induction h with
  | nil => simp
  | letter hletter _ ih =>
    rw [List.infix_cons_iff]
    rintro (hfront | hrest)
    · rw [← (List.cons_prefix_cons.mp hfront).1] at hletter
      cases hletter
    · exact ih hrest
  | @hyphen cs next _ ih =>
    rw [List.infix_cons_iff]
    rintro (hfront | hrest)
    · obtain ⟨t, rfl⟩ := (List.cons_prefix_cons.mp hfront).2
      exact absurd (next '-' rfl) (by decide)
    · exact ih hrest

end Separators

section Case

lemma toLower_cases (c : Char) :
    (∃ n < 26, c = Char.ofNat (65 + n) ∧ c.toLower = Char.ofNat (97 + n)) ∨
      ¬ (65 ≤ c.toNat ∧ c.toNat ≤ 90) ∧ c.toLower = c := by
  by_cases hcapital : 65 ≤ c.toNat ∧ c.toNat ≤ 90
  · have hc : c = Char.ofNat (65 + (c.toNat - 65)) := by
      rw [Nat.add_sub_cancel' hcapital.1, Char.ofNat_toNat]
    have hall : ∀ n < 26, (Char.ofNat (65 + n)).toLower = Char.ofNat (97 + n) := by decide
    have hn : c.toNat - 65 < 26 := by omega
    exact .inl ⟨_, hn, hc, (congrArg Char.toLower hc).trans (hall _ hn)⟩
  · refine .inr ⟨hcapital, dif_neg ?_⟩
    rintro ⟨hfirst, hlast⟩
    exact hcapital ⟨UInt32.le_iff_toNat_le.mp hfirst, UInt32.le_iff_toNat_le.mp hlast⟩

lemma toLower_congr {α : Type} (f : Char → α)
    (h : ∀ n < 26, f (Char.ofNat (97 + n)) = f (Char.ofNat (65 + n))) (c : Char) :
    f c.toLower = f c := by
  rcases toLower_cases c with ⟨n, hn, hc, hlower⟩ | ⟨-, hsame⟩
  · rw [hlower, h n hn, ← hc]
  · rw [hsame]

lemma lowerLetter_toLower (c : Char) : lowerLetter c.toLower = lowerLetter c :=
  toLower_congr lowerLetter (by decide +kernel) c

lemma toNat_toLower_of_ascii (hc : c.toNat < 128) :
    c.toLower.toNat < 128 ∧ ¬ (65 ≤ c.toLower.toNat ∧ c.toLower.toNat ≤ 90) := by
  rcases toLower_cases c with ⟨n, hn, -, hlower⟩ | ⟨hcapital, hsame⟩
  · have hall : ∀ n < 26, 90 < (Char.ofNat (97 + n)).toNat ∧ (Char.ofNat (97 + n)).toNat < 128 := by
      decide
    have hbounds := hall n hn
    rw [hlower]
    omega
  · rw [hsame]
    exact ⟨hc, hcapital⟩

lemma runs_apart : ∀ r ∈ Casing.runs, 128 ≤ r.first ∨ 65 ≤ r.first ∧ r.last ≤ 90 := by
  decide +kernel

lemma lowerLetter_of_ascii (hc : c.toNat < 128) : lowerLetter c = c.toLower := by
  have hfixed : lowerLetter c.toLower = c.toLower := by
    apply lowerLetter_of_not_contains
    intro r hr
    rw [← Bool.not_eq_true, Casing.contains_iff]
    rintro ⟨hfirst, hlast, -⟩
    obtain ⟨hascii, hcapital⟩ := toNat_toLower_of_ascii hc
    rcases runs_apart r hr with hapart | hapart <;> omega
  rw [← hfixed, lowerLetter_toLower]

lemma nextIsCased_map_toLower (cs : List Char) :
    nextIsCased (cs.map Char.toLower) = nextIsCased cs := by
  have hignorable : isCaseIgnorable ∘ Char.toLower = isCaseIgnorable :=
    funext (toLower_congr isCaseIgnorable (by decide +kernel))
  rw [nextIsCased, nextIsCased, List.dropWhile_map, hignorable]
  cases cs.dropWhile isCaseIgnorable with
  | nil => rfl
  | cons c cs => exact toLower_congr isCased (by decide +kernel) c

lemma lowerAfter_map_toLower (before cs : List Char) :
    lowerAfter (before.map Char.toLower) (cs.map Char.toLower) = lowerAfter before cs := by
  induction cs generalizing before with
  | nil => rfl
  | cons c cs ih =>
    -- The two letters with rules of their own are none of ASCII.
    have hsigma : decide (c.toLower = 'Σ') = decide (c = 'Σ') :=
      toLower_congr (fun c => decide (c = 'Σ')) (by decide +kernel) c
    have hdotted : decide (c.toLower = 'İ') = decide (c = 'İ') :=
      toLower_congr (fun c => decide (c = 'İ')) (by decide +kernel) c
    rw [decide_eq_decide] at hsigma hdotted
    rw [List.map_cons, lowerAfter, lowerAfter, ← List.map_cons, ih (c :: before)]
    simp only [hsigma, hdotted, lowerLetter_toLower, nextIsCased_map_toLower]

/-- Lower-casing in ASCII beforehand makes no difference. -/
theorem lower_map_toLower (cs : List Char) : lower (cs.map Char.toLower) = lower cs :=
  lowerAfter_map_toLower [] cs

/-- Texts in ASCII are lower-cased letter by letter. -/
theorem lowerAfter_of_ascii (h : ∀ c ∈ cs, c.toNat < 128) (before : List Char) :
    lowerAfter before cs = cs.map Char.toLower := by
  induction cs generalizing before with
  | nil => rfl
  | cons c cs ih =>
    obtain ⟨hc, hcs⟩ := List.forall_mem_cons.mp h
    have hsigma : c ≠ 'Σ' := by
      rintro rfl
      exact absurd hc (by decide)
    have hdotted : c ≠ 'İ' := by
      rintro rfl
      exact absurd hc (by decide)
    rw [lowerAfter, if_neg hsigma, if_neg hdotted, lowerLetter_of_ascii hc, ih hcs]
    rfl

lemma Squeezes.ascii (h : Squeezes cs ds) (hcs : ∀ c ∈ cs, c.toNat < 128) :
    ∀ d ∈ ds, d.toNat < 128 := by
  induction h with
  | nil => exact hcs
  | letter _ _ ih =>
    obtain ⟨hc, hrest⟩ := List.forall_mem_cons.mp hcs
    exact List.forall_mem_cons.mpr ⟨hc, ih hrest⟩
  | run _ _ _ _ ih =>
    exact List.forall_mem_cons.mpr ⟨by decide, ih (List.forall_mem_append.mp hcs).2⟩

end Case

/-- The canonical form is the lower-case form of the name with one hyphen for every run. -/
theorem canonicalize_of_squeezes {name : String} (h : Squeezes name.toList cs) :
    canonicalize name = String.ofList (lower cs) := by
  rw [canonicalize, collapse_of_squeezes h]

theorem Alike.canonicalize_eq {a b : String} (h : Alike a b) : canonicalize a = canonicalize b := by
  obtain ⟨cs, ds, ha, hb, he⟩ := h
  rw [canonicalize_of_squeezes ha, canonicalize_of_squeezes hb, ← lower_map_toLower cs, he,
    lower_map_toLower]

theorem alike_of_canonicalize_eq {a b : String} (ha : ∀ c ∈ a.toList, c.toNat < 128)
    (hb : ∀ c ∈ b.toList, c.toNat < 128) (h : canonicalize a = canonicalize b) : Alike a b := by
  have hsa := squeezes_collapse a.toList
  have hsb := squeezes_collapse b.toList
  refine ⟨_, _, hsa, hsb, ?_⟩
  rw [canonicalize_of_squeezes hsa, canonicalize_of_squeezes hsb, String.ofList_inj] at h
  rwa [lower, lower, lowerAfter_of_ascii (hsa.ascii ha), lowerAfter_of_ascii (hsb.ascii hb)] at h

/-- The canonical form is a normal form. Hyphens are the only separators in it and stand apart, and
it is its own canonical form. It is the lower-case form, in all scripts, of the name with one hyphen
for every run of separators; so names that are alike share it, and names in ASCII that share it are
alike. -/
theorem canonicalize_normal (name : String) :
    ('_' ∉ (canonicalize name).toList ∧ '.' ∉ (canonicalize name).toList ∧
      ¬ ['-', '-'] <:+: (canonicalize name).toList) ∧
    canonicalize (canonicalize name) = canonicalize name ∧
    (∀ cs, Squeezes name.toList cs → canonicalize name = String.ofList (lower cs)) ∧
    (∀ other, Alike name other → canonicalize name = canonicalize other) ∧
    (∀ other, (∀ c ∈ name.toList, c.toNat < 128) → (∀ c ∈ other.toList, c.toNat < 128) →
      canonicalize name = canonicalize other → Alike name other) := by
  have hcollapsed : Collapsed (canonicalize name).toList := by
    rw [canonicalize, String.toList_ofList]
    exact collapsed_lowerAfter (collapsed_collapse _) []
  refine ⟨⟨hcollapsed.not_mem rfl (by decide), hcollapsed.not_mem rfl (by decide),
    hcollapsed.not_infix⟩, canonicalize_canonicalize name, fun cs h => canonicalize_of_squeezes h,
    fun other h => h.canonicalize_eq, fun other ha hb h => alike_of_canonicalize_eq ha hb h⟩

lemma ascii_of_all {name : String} (h : name.toList.all (fun c => c.toNat < 128) = true) :
    ∀ c ∈ name.toList, c.toNat < 128 := by
  simpa using h

/-- A capital sigma is final after a hyphen was put for the point behind it, which the rule would
look through. -/
theorem canonicalize_normal_greek :
    Squeezes "Zope_.ΟΔΟΣ.Α".toList "Zope-ΟΔΟΣ-Α".toList ∧
    canonicalize "Zope_.ΟΔΟΣ.Α" = String.ofList (lower "Zope-ΟΔΟΣ-Α".toList) ∧
    canonicalize "Zope_.ΟΔΟΣ.Α" = canonicalize "zOPE-ΟΔΟΣ_-Α" ∧
    canonicalize "Zope.Interface" = canonicalize "zope_interface" ∧
    Alike "Zope.Interface" "zope_interface" := by
  obtain ⟨-, -, hlower, halike, -⟩ := canonicalize_normal "Zope_.ΟΔΟΣ.Α"
  obtain ⟨-, -, -, -, hascii⟩ := canonicalize_normal "Zope.Interface"
  have hname : Squeezes "Zope_.ΟΔΟΣ.Α".toList "Zope-ΟΔΟΣ-Α".toList := squeezes_collapse _
  have hother : Squeezes "zOPE-ΟΔΟΣ_-Α".toList "zOPE-ΟΔΟΣ-Α".toList := squeezes_collapse _
  have hsame : canonicalize "Zope.Interface" = canonicalize "zope_interface" := by decide +kernel
  exact ⟨hname, hlower _ hname, halike _ ⟨_, _, hname, hother, by decide⟩, hsame,
    hascii _ (ascii_of_all (by decide)) (ascii_of_all (by decide)) hsame⟩

end WheelFarm.ProjectName
