import WheelFarm.Proofs.CommandLine.Spelling
import WheelFarm.Proofs.Except
import WheelFarm.Proofs.ProjectName

/-! A command about a package is told it by one of its arguments, which stands in the package's
place. What else is read names no package. -/
namespace WheelFarm.CommandLine
open ProjectName

/-- The package that a command is about. -/
def Command.package? : Command → Option String
  | .addPackage package _ | .skipPackage package _ | .addVersion package _ _ _
  | .skipVersion package _ _ | .forgetVersion package _ => some package
  | _ => none

section Parameters
variable {level : Level} {p : Parameter}

lemma ne_package_of_mem_options (hp : p ∈ level.options) : p ≠ .package := by
  rintro rfl
  revert hp
  cases level with
  | top => decide
  | group g => cases g <;> decide
  | verb v => cases v <;> decide

lemma ne_package_of_long? {name : String} (hp : level.long? name = some p) : p ≠ .package :=
  ne_package_of_mem_options (List.mem_of_find?_eq_some hp)

lemma ne_package_of_short? {name : Char} (hp : level.short? name = some p) : p ≠ .package :=
  ne_package_of_mem_options (List.mem_of_find?_eq_some hp)

lemma text?_cons_of_ne (hp : p ≠ .package) (v : Value) (vs : Values) :
    Values.text? ((p, v) :: vs) .package = vs.text? .package := by
  rw [Values.text?, Values.text?, List.lookup_cons, beq_eq_false_iff_ne.mpr hp.symm]

end Parameters

namespace Progress

/-- The package that has been named, if one has, in its canonical form. -/
def package? (s : Progress) : Option String :=
  match s.pending with
  | some (.package, some name) => some (canonicalize name)
  | _ => s.values.text? .package

/-- A step from one state to another that names no package and leaves none to be supplied. -/
structure Passes (s t : Progress) : Prop where
  left : t.left <:+ s.left
  package : t.package? = s.package?
  pending : t.pending ≠ some (.package, none)

/-- A step from one state to another at which an argument is taken for the package. -/
structure Takes (argument : String) (s t : Progress) : Prop where
  place : s.takesPackage argument = true
  left : t.left <:+ s.left
  pending : t.pending = some (.package, some argument)

variable {level : Level} {s t u : Progress} {p : Parameter}

theorem Passes.trans (h : s.Passes t) (h' : t.Passes u) : s.Passes u where
  left := h'.left.trans h.left
  package := h'.package.trans h.package
  pending := h'.pending

section Steps

lemma package?_of_none (h : s.pending = none) : s.package? = s.values.text? .package := by
  rw [package?, h]

lemma package?_of_ne {raw : Option String} (hp : p ≠ .package) (h : s.pending = some (p, raw)) :
    s.package? = s.values.text? .package := by
  rw [package?, h]
  split
  · next he => cases he; exact absurd rfl hp
  · rfl

lemma store_eq_ok {read : Except UsageError Value} (h : s.store p read = .ok t) :
    ∃ v, read = .ok v ∧ t = { s with values := (p, v) :: s.values } := by
  unfold store at h
  split at h
  · cases h
  · obtain ⟨v, hread, h⟩ := bind_eq_ok h
    cases h
    exact ⟨v, hread, rfl⟩

lemma passes_store {read : Except UsageError Value} (hs : s.pending = none) (hp : p ≠ .package)
    (h : s.store p read = .ok t) : s.Passes t := by
  obtain ⟨v, -, rfl⟩ := store_eq_ok h
  refine ⟨List.suffix_rfl, ?_, by simp [hs]⟩
  rw [package?_of_none hs, ← text?_cons_of_ne hp v]
  exact package?_of_none hs

theorem passes_settle (h : s.settle = .ok t) : s.Passes t ∧ t.pending = none := by
  unfold settle at h
  split at h
  · next hpending =>
    cases h
    exact ⟨⟨List.suffix_rfl, rfl, by simp [hpending]⟩, hpending⟩
  · cases h
  · next p raw hpending =>
    obtain ⟨v, hread, rfl⟩ := store_eq_ok h
    refine ⟨⟨List.suffix_rfl, ?_, by simp⟩, rfl⟩
    by_cases hp : p = .package
    · subst hp
      cases hread
      rw [package?, package?, hpending]
      rfl
    · rw [package?_of_ne hp hpending, ← text?_cons_of_ne hp v]
      rfl

lemma passes_note (raw : Option String) {left : List Parameter} (ht : t.pending = none)
    (hp : p ≠ .package) (hleft : left <:+ t.left) :
    t.Passes { t with pending := some (p, raw), left } where
  left := hleft
  package := by
    rw [package?_of_none ht]
    exact package?_of_ne hp rfl
  pending := by simp [hp]

lemma passes_await (hp : p ≠ .package) (h : s.await p = .ok t) : s.Passes t := by
  obtain ⟨u, hu, h⟩ := bind_eq_ok h
  cases h
  obtain ⟨hsettle, hnone⟩ := passes_settle hu
  exact hsettle.trans (passes_note none hnone hp List.suffix_rfl)

lemma passes_attach (hp : p ≠ .package) {value : List Char} (h : s.attach p value = .ok t) :
    s.Passes t := by
  obtain ⟨u, hu, h⟩ := bind_eq_ok h
  obtain ⟨hsettle, hnone⟩ := passes_settle hu
  exact hsettle.trans (passes_store hnone hp h)

lemma passes_raise (hp : p ≠ .package) (h : s.raise p = .ok t) : s.Passes t := by
  obtain ⟨u, hu, h⟩ := bind_eq_ok h
  obtain ⟨hsettle, hnone⟩ := passes_settle hu
  split at h
  · cases h
  · cases h
  · exact hsettle.trans (passes_store hnone hp h)

lemma passes_supply (hs : s.pending ≠ some (.package, none)) (hawaits : s.awaits = true)
    (value : String) : s.Passes (s.supply value) := by
  unfold awaits at hawaits
  split at hawaits
  · next p hpending =>
    have hp : p ≠ .package := fun he => hs (he ▸ hpending)
    have hsupply : (s.supply value).pending = some (p, some value) := by
      rw [supply, hpending]
      rfl
    refine ⟨List.suffix_rfl, ?_, by simp [hsupply]⟩
    rw [package?_of_ne hp hpending]
    exact package?_of_ne hp hsupply
  · cases hawaits

lemma passes_long {argument : List Char} (h : s.long level argument = .ok t) : s.Passes t := by
  unfold long at h
  split at h
  · cases h
  · next p hp =>
    have hp := ne_package_of_long? hp
    split at h
    · exact passes_await hp h
    · exact passes_attach hp h
    · exact passes_raise hp h
    · cases h

lemma passes_short (hs : s.pending ≠ some (.package, none)) {cs : List Char}
    (h : s.short level cs = .ok t) : s.Passes t := by
  induction cs generalizing s with
  | nil =>
    cases h
    exact ⟨List.suffix_rfl, rfl, hs⟩
  | cons c cs ih =>
    rw [short] at h
    split at h
    · cases h
    · next p hp =>
      have hp := ne_package_of_short? hp
      split at h
      · split at h
        · exact passes_await hp h
        · exact passes_attach hp h
        · exact passes_attach hp h
      · obtain ⟨u, hu, h⟩ := bind_eq_ok h
        have hraise := passes_raise hp hu
        exact hraise.trans (ih hraise.pending h)

lemma awaits_of_settle (h : s.settle = .ok t) : s.awaits = false := by
  unfold settle at h
  unfold awaits
  split at h
  · next hnone => rw [hnone]
  · cases h
  · next hpending => rw [hpending]

lemma place_cases {argument : String} (hargument : (s.literal || !isOption argument) = true)
    (h : s.place level argument = .ok t) : s.Passes t ∨ Takes argument s t := by
  unfold place at h
  split at h
  · next p left hleft =>
    obtain ⟨u, hu, h⟩ := bind_eq_ok h
    cases h
    obtain ⟨hsettle, hnone⟩ := passes_settle hu
    have hsuffix : left <:+ s.left := hleft ▸ List.suffix_cons p left
    by_cases hp : p = .package
    · subst hp
      exact .inr ⟨takesPackage_iff.mpr ⟨awaits_of_settle hu, by rw [hleft]; rfl, hargument⟩,
        hsuffix, rfl⟩
    · have hnote := passes_note (some argument) hnone hp List.suffix_rfl
      exact .inl ⟨hsuffix, hnote.package.trans hsettle.package, hnote.pending⟩
  · split at h <;> cases h

/-- An argument is taken for the package, or it names none. -/
theorem take_cases (hs : s.pending ≠ some (.package, none)) {argument : String}
    (h : s.take level argument = .ok t) : s.Passes t ∨ Takes argument s t := by
  unfold take at h
  split at h
  · next hliteral => exact place_cases (by rw [hliteral]; rfl) h
  · split at h
    · cases h
      exact .inl ⟨List.suffix_rfl, rfl, hs⟩
    · exact .inl (passes_long h)
    · exact .inl (passes_short hs h)
    · next hdashes hlong hshort =>
      split at h
      · next hawaits =>
        cases h
        exact .inl (passes_supply hs hawaits argument)
      · refine place_cases ?_ h
        have hoption : isOption argument = false := by
          unfold isOption
          split
          · next c cs hchars => exact absurd hchars (hshort c cs)
          · rfl
        rw [hoption, Bool.not_false, Bool.or_true]

end Steps

end Progress

section Arguments
variable {fallback : Option String} {level : Level} {s t : Progress} {i : Invocation} {name : String}

lemma exists_verb_of_arguments (level : Level) (h : level.arguments ≠ []) :
    ∃ v, level = .verb v := by
  cases level with
  | verb v => exact ⟨v, rfl⟩
  | top => exact absurd rfl h
  | group g => exact absurd rfl h

lemma package?_of_command? {vs : Values} {v : Verb} {command : Command}
    (h : v.command? vs = some command) :
    command.package? = none ∨ command.package? = vs.text? .package := by
  cases v <;> simp only [Verb.command?, Option.pure_def, Option.bind_eq_bind,
    Option.bind_eq_some_iff, Option.some.injEq] at h
  all_goals grind [Command.package?]

lemma settle_of_finish (h : s.finish fallback = .ok t) : s.settle = .ok t := by
  obtain ⟨u, hu, h⟩ := bind_eq_ok h
  split at h
  · obtain ⟨_, -, h⟩ := bind_eq_ok h
    cases h
    exact hu
  · cases h
    exact hu

lemma package?_of_conclude (hi : conclude fallback level s = .ok i)
    (hname : i.command.package? = some name) : s.package? = some name := by
  obtain ⟨t, ht, hi⟩ := bind_eq_ok hi
  obtain ⟨hsettle, hnone⟩ := Progress.passes_settle (settle_of_finish ht)
  rw [← hsettle.package, Progress.package?_of_none hnone]
  split at hi
  · split at hi
    · next hcommand =>
      cases hi
      rcases package?_of_command? hcommand with hother | hsame
      · exact absurd (hother.symm.trans hname) (by simp)
      · exact hsame.symm.trans hname
    · cases hi
  · split at hi <;> cases hi

/-- The package that a command is read to be about has been named already, or an argument in its
place names it. -/
theorem exists_argument_of_parseAt {arguments : List String}
    (hs : s.pending ≠ some (.package, none)) (hlevel : s.left ≠ [] → ∃ v, level = .verb v)
    (hi : parseAt fallback arguments level s = .ok i) (hname : i.command.package? = some name) :
    s.package? = some name ∨ ∃ before argument after, arguments = before ++ argument :: after ∧
      isPackageAt level s before argument = true ∧ canonicalize argument = name := by
  induction arguments generalizing level s i with
  | nil => exact .inl (package?_of_conclude hi hname)
  | cons x rest ih =>
    rw [parseAt] at hi
    split at hi
    · next hcommand =>
      split at hi
      · cases hi
      · next below hbelow =>
        obtain ⟨j, hj, hi⟩ := bind_eq_ok hi
        obtain ⟨_, -, hi⟩ := bind_eq_ok hi
        cases hi
        rcases ih (by simp) (exists_verb_of_arguments below) hj hname with hnone | hargument
        · cases hnone
        · obtain ⟨before, argument, after, rfl, hplace, hcanonical⟩ := hargument
          refine .inr ⟨x :: before, argument, after, rfl, ?_, hcanonical⟩
          rw [isPackageAt, stateBehind, if_pos hcommand, hbelow]
          exact hplace
    · next hargument =>
      obtain ⟨t, ht, hi⟩ := bind_eq_ok hi
      have hbehind (before : List String) (argument : String) :
          isPackageAt level s (x :: before) argument = isPackageAt level t before argument := by
        rw [isPackageAt, stateBehind, if_neg hargument, ht]
        rfl
      have hstep := Progress.take_cases hs ht
      have hsuffix : t.left <:+ s.left := hstep.elim (·.left) (·.left)
      have hpending : t.pending ≠ some (.package, none) :=
        hstep.elim (·.pending) fun htakes => by simp [htakes.pending]
      have hnext (hleft : t.left ≠ []) : ∃ v, level = .verb v :=
        hlevel fun hnil => hleft (List.suffix_nil.mp (hnil ▸ hsuffix))
      rcases ih hpending hnext hi hname with hnamed | ⟨before, argument, after, rfl, hplace, hsame⟩
      · rcases hstep with hpasses | htakes
        · exact .inl (hpasses.package.symm.trans hnamed)
        · obtain ⟨-, hleft, -⟩ := Progress.takesPackage_iff.mp htakes.place
          obtain ⟨v, rfl⟩ := hlevel fun hnil => by simp [hnil] at hleft
          rw [Progress.package?, htakes.pending] at hnamed
          exact .inr ⟨[], x, rest, rfl, htakes.place, Option.some.inj hnamed⟩
      · exact .inr ⟨x :: before, argument, after, rfl, (hbehind ..).trans hplace, hsame⟩

/-- The package that a command is read to be about is named by an argument in its place. -/
theorem exists_argument_of_parse {arguments : List String}
    (hi : parse arguments fallback = .ok i) (hname : i.command.package? = some name) :
    ∃ before argument after, arguments = before ++ argument :: after ∧
      isPackage before argument = true ∧ canonicalize argument = name := by
  obtain ⟨j, hj, hi⟩ := bind_eq_ok hi
  cases hi
  rcases exists_argument_of_parseAt (by simp) (fun h => absurd rfl h) hj hname with hnone | h
  · cases hnone
  · exact h

/-- An invocation whose package, if it is about one, is named in its canonical form. -/
def NamesCanonically (i : Invocation) : Prop :=
  ∀ name, i.command.package? = some name → IsCanonical name

theorem namesCanonically_of_parse {arguments : List String}
    (hi : parse arguments fallback = .ok i) : NamesCanonically i := by
  intro name hname
  obtain ⟨_, argument, _, -, -, rfl⟩ := exists_argument_of_parse hi hname
  exact isCanonical_canonicalize argument

end Arguments

end WheelFarm.CommandLine
