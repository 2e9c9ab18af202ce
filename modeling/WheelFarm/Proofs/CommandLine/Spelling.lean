import Mathlib.Tactic.Lemma
import WheelFarm.CommandLine.Parse

/-! The package argument may be spelled in any way that has the same canonical form: wherever one
spelling is taken for the package, another one that is taken for it too reads the same. Taken for it
is what stands in the package's place and is no option. -/
namespace WheelFarm.CommandLine
open ProjectName

section Places

/-- Where the arguments lead: a place in the tree of commands, and what has been read there. -/
def stateBehind : List String → Level → Progress → Option (Level × Progress)
  | [], level, s => some (level, s)
  | argument :: rest, level, s =>
    if !s.literal && !s.awaits && level.hasCommand argument then
      (level.commands.lookup argument).bind fun below =>
        stateBehind rest below { left := below.arguments }
    else (s.take level argument).toOption.bind (stateBehind rest level)

/-- Whether an argument begins as options do. A hyphen alone does not. -/
def isOption (argument : String) : Bool :=
  match argument.toList with
  | '-' :: _ :: _ => true
  | _ => false

/-- Whether the next argument is taken for the package, which is neither an option nor the value of
one. -/
def Progress.takesPackage (s : Progress) (argument : String) : Bool :=
  !s.awaits && s.left.head? == some .package && (s.literal || !isOption argument)

theorem Progress.takesPackage_iff {s : Progress} {argument : String} :
    s.takesPackage argument = true ↔ s.awaits = false ∧ s.left.head? = some .package ∧
      (s.literal || !isOption argument) = true := by
  rw [takesPackage, Bool.and_eq_true, Bool.and_eq_true, Bool.not_eq_true', beq_iff_eq, and_assoc]

/-- Whether an argument that follows others is taken for the package of a command. -/
def isPackageAt (level : Level) (s : Progress) (before : List String) (argument : String) : Bool :=
  match stateBehind before level s with
  | some (.verb _, t) => t.takesPackage argument
  | _ => false

/-- Whether an argument that follows others on the command line is taken for the package. -/
def isPackage (before : List String) (argument : String) : Bool :=
  isPackageAt .top { left := [] } before argument

end Places

namespace Progress

/-- What has been read, with a package whose name has not been read yet. -/
def holding (s : Progress) (name : String) : Progress :=
  { s with pending := some (.package, some name) }

variable {level : Level} {name other : String}

lemma literal_holding (s : Progress) : (s.holding name).literal = s.literal := rfl

lemma awaits_holding (s : Progress) : (s.holding name).awaits = false := rfl

section Holding
variable (h : canonicalize name = canonicalize other) (s : Progress)
include h

lemma settle_holding : (s.holding name).settle = (s.holding other).settle := by
  simp only [settle, holding, Parameter.read, h]

lemma await_holding (p : Parameter) : (s.holding name).await p = (s.holding other).await p := by
  rw [await, await, settle_holding h]

lemma attach_holding (p : Parameter) (value : List Char) :
    (s.holding name).attach p value = (s.holding other).attach p value := by
  rw [attach, attach, settle_holding h]

lemma raise_holding (p : Parameter) : (s.holding name).raise p = (s.holding other).raise p := by
  rw [raise, raise, settle_holding h]

lemma place_holding (argument : String) :
    (s.holding name).place level argument = (s.holding other).place level argument := by
  simp only [place, settle_holding h]
  rfl

lemma long_holding (argument : List Char) :
    (s.holding name).long level argument = (s.holding other).long level argument := by
  simp only [long, await_holding h, attach_holding h, raise_holding h]

lemma short_holding (c : Char) (cs : List Char) :
    (s.holding name).short level (c :: cs) = (s.holding other).short level (c :: cs) := by
  simp only [short, await_holding h, attach_holding h, raise_holding h]

lemma finish_holding (fallback : Option String) :
    (s.holding name).finish fallback = (s.holding other).finish fallback := by
  rw [finish, finish, settle_holding h]

/-- The next argument has the name read, unless it is two hyphens. -/
theorem take_holding (argument : String) :
    (s.holding name).take level argument = (s.holding other).take level argument ∨
      ∃ t : Progress, ∀ name, (s.holding name).take level argument = .ok (t.holding name) := by
  cases hliteral : s.literal with
  | true =>
    left
    simp only [take, literal_holding, hliteral, if_true, place_holding h]
  | false =>
    simp only [take, literal_holding, hliteral, Bool.false_eq_true, if_false, awaits_holding]
    split
    · exact .inr ⟨{ s with literal := true }, fun _ => rfl⟩
    · exact .inl (long_holding h s _)
    · exact .inl (short_holding h s _ _)
    · exact .inl (place_holding h s _)

end Holding

end Progress

section Spellings
variable {fallback : Option String} {level : Level} {name other : String}

theorem parseAt_holding (h : canonicalize name = canonicalize other) (arguments : List String)
    (s : Progress) : parseAt fallback arguments level (s.holding name) =
      parseAt fallback arguments level (s.holding other) := by
  induction arguments generalizing level s with
  | nil => simp only [parseAt, conclude, s.finish_holding h]
  | cons argument rest ih =>
    simp only [parseAt, Progress.literal_holding, Progress.awaits_holding, s.finish_holding h]
    refine ite_congr rfl (fun _ => rfl) fun _ => ?_
    rcases s.take_holding h argument with hsame | ⟨t, ht⟩
    · rw [hsame]
    · rw [ht, ht]
      exact ih t

/-- The rest of the arguments counts only for what is read of it behind those before it. -/
theorem parseAt_append {before u v : List String} {below : Level} {s t : Progress}
    (hbehind : stateBehind before level s = some (below, t))
    (h : parseAt fallback u below t = parseAt fallback v below t) :
    parseAt fallback (before ++ u) level s = parseAt fallback (before ++ v) level s := by
  induction before generalizing level s with
  | nil =>
    cases hbehind
    exact h
  | cons argument before ih =>
    rw [stateBehind] at hbehind
    simp only [List.cons_append, parseAt]
    split at hbehind
    · next hcommand =>
      obtain ⟨next, hnext, hbehind⟩ := Option.bind_eq_some_iff.mp hbehind
      simp only [hcommand, if_true, hnext, ih hbehind]
    · next hargument =>
      obtain ⟨next, hnext, hbehind⟩ := Option.bind_eq_some_iff.mp hbehind
      cases htake : s.take level argument <;> rw [htake] at hnext <;> cases hnext
      rw [if_neg hargument, if_neg hargument]
      exact ih hbehind

lemma place_package {s : Progress} (hleft : s.left.head? = some .package) (name : String) :
    s.place level name =
      s.settle.bind fun t => .ok ({ t with left := s.left.tail }.holding name) := by
  obtain ⟨left, hleft⟩ := List.head?_eq_some_iff.mp hleft
  rw [Progress.place, hleft]
  rfl

lemma take_package {s : Progress} (h : s.takesPackage name = true) : s.take level name =
    s.settle.bind fun t => .ok ({ t with left := s.left.tail }.holding name) := by
  obtain ⟨hawaits, hleft, hname⟩ := Progress.takesPackage_iff.mp h
  have hplace : s.take level name = s.place level name := by
    rw [Progress.take]
    split
    · rfl
    · next hliteral =>
      rw [Bool.eq_false_iff.mpr hliteral, isOption] at hname
      split
      · next hdashes => simp [hdashes] at hname
      · next hlong => simp [hlong] at hname
      · next hshort => simp [hshort] at hname
      · rw [hawaits]
        rfl
  rw [hplace, place_package hleft]

lemma parseAt_package {v : Verb} {s : Progress} (h : s.takesPackage name = true)
    (after : List String) : parseAt fallback (name :: after) (.verb v) s = s.settle.bind fun t =>
      parseAt fallback after (.verb v) ({ t with left := s.left.tail }.holding name) := by
  have hcommand : (Level.verb v).hasCommand name = false := rfl
  rw [parseAt, hcommand, Bool.and_false, take_package h]
  cases s.settle <;> rfl

/-- Spellings of a package's name that are taken for the package read the same. -/
theorem parse_spelling {before : List String} (hname : isPackage before name = true)
    (hother : isPackage before other = true) (h : canonicalize name = canonicalize other)
    (after : List String) (fallback : Option String) :
    parse (before ++ name :: after) fallback = parse (before ++ other :: after) fallback := by
  unfold isPackage isPackageAt at hname hother
  split at hname
  · next v s hbehind =>
    rw [hbehind] at hother
    have hsame : parseAt fallback (name :: after) (.verb v) s =
        parseAt fallback (other :: after) (.verb v) s := by
      rw [parseAt_package hname, parseAt_package hother]
      simp only [parseAt_holding h]
    rw [parse, parse, parseAt_append hbehind hsame]
  · cases hname

example : isPackage ["version", "add", "--skip", "old"] "-foo" = false := by decide +kernel

example : isPackage ["version", "add", "--skip", "old", "--"] "-foo" = true := by decide +kernel

end Spellings

end WheelFarm.CommandLine
