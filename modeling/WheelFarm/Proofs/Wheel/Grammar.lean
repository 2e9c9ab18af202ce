import Mathlib.Tactic.Tauto
import WheelFarm.Proofs.Text.Pieces
import WheelFarm.Wheel.Name

/-! The grammar of wheel filenames. A filename is read as the name that its parts make up if none of
them is empty; otherwise the first thing that is wrong is told: the extension, then the number of
parts, then the first empty part, of which the build is looked at last. -/
namespace WheelFarm.Wheel.WheelName
open Text

/-- What stands in the places of a wheel's filename; the build may be left out. -/
structure Parts where
  package : List Char
  version : List Char
  build : Option (List Char)
  python : List Char
  abi : List Char
  platform : List Char

namespace Parts

/-- The parts in the order in which a filename has them, five or six of them. -/
def inOrder (p : Parts) : List (List Char) :=
  [p.package, p.version] ++ p.build.toList ++ [p.python, p.abi, p.platform]

/-- The parts of a filename: single hyphens join them, and there are no other hyphens. -/
structure Spell (p : Parts) (filename : String) : Prop where
  joined : filename.toList = join '-' p.inOrder ++ extension
  apart : ∀ cs ∈ p.inOrder, '-' ∉ cs

/-- The name that the parts make up. -/
def name (p : Parts) : WheelName where
  tags := {
    package := String.ofList p.package
    version := String.ofList p.version
    python := String.ofList p.python
    abi := if String.ofList p.abi = "noabi" then "none" else String.ofList p.abi
    platform := String.ofList p.platform }
  build := p.build.map String.ofList

def part? (p : Parts) : Component → Option (List Char)
  | .package => some p.package
  | .version => some p.version
  | .build => p.build
  | .python => some p.python
  | .abi => some p.abi
  | .platform => some p.platform

/-- The first empty part, in the order in which they are looked at. -/
def firstEmpty? (p : Parts) : Option Component :=
  [.package, .version, .python, .abi, .platform, .build].find? fun c =>
    (p.part? c).any List.isEmpty

end Parts

/-- What a filename is read as. -/
inductive Meaning (filename : String) : Except WheelError WheelName → Prop
  | notAWheel (other : ¬ extension <:+ filename.toList) :
    Meaning filename (.error (.notAWheel filename))
  | componentCount (stem : List Char) (ends : filename.toList = stem ++ extension)
      (five : stem.count '-' + 1 ≠ 5) (six : stem.count '-' + 1 ≠ 6) :
    Meaning filename (.error (.componentCount filename (stem.count '-' + 1)))
  | emptyComponent (p : Parts) (spell : p.Spell filename) (c : Component)
      (first : p.firstEmpty? = some c) :
    Meaning filename (.error (.emptyComponent filename c))
  | name (p : Parts) (spell : p.Spell filename) (full : ∀ cs ∈ p.inOrder, cs ≠ []) :
    Meaning filename (.ok p.name)

variable {filename : String} {p : Parts} {stem : List Char}

namespace Parts

theorem firstEmpty?_eq_none_iff : p.firstEmpty? = none ↔ ∀ cs ∈ p.inOrder, cs ≠ [] := by
  obtain ⟨package, version, build, python, abi, platform⟩ := p
  cases build with
  | none => simp [firstEmpty?, inOrder, part?]
  | some build =>
    simp [firstEmpty?, inOrder, part?]
    tauto

/-- Components are made into the name of the parts, or the first empty one is told. -/
theorem ofComponents_eq (p : Parts) (filename : String) :
    ofComponents filename p.package p.version p.build p.python p.abi p.platform =
      match p.firstEmpty? with
      | some c => .error (.emptyComponent filename c)
      | none => .ok p.name := by
  have hnamed : [(Component.package, p.package), (.version, p.version), (.python, p.python),
      (.abi, p.abi), (.platform, p.platform)] ++ (p.build.map fun b => (Component.build, b)).toList =
      [Component.package, .version, .python, .abi, .platform, .build].filterMap fun c =>
        (p.part? c).map fun cs => (c, cs) := by
    cases h : p.build <;> simp [part?, h]
  have htest : ∀ c, ((p.part? c).map fun cs => (c, cs)).any (·.2.isEmpty) =
      (p.part? c).any List.isEmpty := by
    intro c
    cases p.part? c <;> rfl
  unfold ofComponents
  simp only [hnamed, List.find?_filterMap, htest]
  unfold firstEmpty?
  cases hfirst : List.find? (fun c => (p.part? c).any List.isEmpty)
    [.package, .version, .python, .abi, .platform, .build] with
  | none => rfl
  | some c =>
    have hc := List.find?_some hfirst
    cases hpart : p.part? c with
    | none => simp [hpart] at hc
    | some cs => simp [hpart]

/-- The parts between the hyphens of a stem that has as many as a name needs. -/
theorem exists_inOrder (h : stem.count '-' + 1 = 5 ∨ stem.count '-' + 1 = 6) :
    ∃ p : Parts, pieces '-' stem = p.inOrder := by
  rw [← length_pieces] at h
  rcases h with h | h
  · obtain ⟨a, b, c, d, e, he⟩ : ∃ a b c d e, pieces '-' stem = [a, b, c, d, e] := by
      match pieces '-' stem, h with
      | [a, b, c, d, e], _ => exact ⟨a, b, c, d, e, rfl⟩
    exact ⟨⟨a, b, none, c, d, e⟩, he⟩
  · obtain ⟨a, b, c, d, e, f, hf⟩ : ∃ a b c d e f, pieces '-' stem = [a, b, c, d, e, f] := by
      match pieces '-' stem, h with
      | [a, b, c, d, e, f], _ => exact ⟨a, b, c, d, e, f, rfl⟩
    exact ⟨⟨a, b, some c, d, e, f⟩, hf⟩

theorem spell_of_pieces (ends : filename.toList = stem ++ extension)
    (h : pieces '-' stem = p.inOrder) : p.Spell filename where
  joined := by rw [← h, join_pieces, ends]
  apart cs hcs := not_mem_of_mem_pieces (h ▸ hcs)

end Parts

theorem parse_of_ends (h : filename.toList = stem ++ extension) :
    parse filename = match pieces '-' stem with
    | [package, version, python, abi, platform] =>
      ofComponents filename package version none python abi platform
    | [package, version, build, python, abi, platform] =>
      ofComponents filename package version (some build) python abi platform
    | found => .error (.componentCount filename found.length) := by
  unfold parse
  exact dropEnd?_eq_some_iff.mpr h ▸ rfl

theorem parse_of_count (h : filename.toList = stem ++ extension) (five : stem.count '-' + 1 ≠ 5)
    (six : stem.count '-' + 1 ≠ 6) :
    parse filename = .error (.componentCount filename (stem.count '-' + 1)) := by
  rw [← length_pieces] at five six ⊢
  rw [parse_of_ends h]
  split
  · next he => simp [he] at five
  · next he => simp [he] at six
  · rfl

theorem parse_of_spell (h : p.Spell filename) :
    parse filename = match p.firstEmpty? with
      | some c => .error (.emptyComponent filename c)
      | none => .ok p.name := by
  rw [parse_of_ends h.joined, pieces_join (by simp [Parts.inOrder]) h.apart, ← p.ofComponents_eq]
  unfold Parts.inOrder
  cases p.build <;> rfl

/-- Every filename is read as what it means, and as nothing else: as a name if it is five or six
parts without hyphens, none of them empty, joined by hyphens before the extension. -/
theorem parse_eq_iff (filename : String) (result : Except WheelError WheelName) :
    parse filename = result ↔ Meaning filename result := by
  constructor
  · rintro rfl
    by_cases hends : extension <:+ filename.toList
    · obtain ⟨stem, hstem⟩ := hends
      by_cases hcount : stem.count '-' + 1 = 5 ∨ stem.count '-' + 1 = 6
      · obtain ⟨p, hp⟩ := Parts.exists_inOrder hcount
        have hspell := Parts.spell_of_pieces hstem.symm hp
        rw [parse_of_spell hspell]
        cases hfirst : p.firstEmpty? with
        | some c => exact .emptyComponent p hspell c hfirst
        | none => exact .name p hspell (Parts.firstEmpty?_eq_none_iff.mp hfirst)
      · obtain ⟨five, six⟩ := not_or.mp hcount
        rw [parse_of_count hstem.symm five six]
        exact .componentCount stem hstem.symm five six
    · have hparse : parse filename = .error (.notAWheel filename) := by
        rw [parse, dropEnd?_eq_none_iff.mpr hends]
      rw [hparse]
      exact .notAWheel hends
  · intro h
    cases h with
    | notAWheel other => rw [parse, dropEnd?_eq_none_iff.mpr other]
    | componentCount stem ends five six => exact parse_of_count ends five six
    | emptyComponent p spell c first => rw [parse_of_spell spell, first]
    | name p spell full =>
      rw [parse_of_spell spell, Parts.firstEmpty?_eq_none_iff.mpr full]

/-- The build is looked at last, and the extension is cut off once. -/
example : parse "foo-1.0--py3-none-.whl.whl" =
    .error (.emptyComponent "foo-1.0--py3-none-.whl.whl" .build) := rfl

end WheelFarm.Wheel.WheelName
