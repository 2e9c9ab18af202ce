import WheelFarm.Proofs.Except
import WheelFarm.Proofs.Wheel.Grammar
import WheelFarm.Proofs.Wheel.Tags

/-! Two ways from a filename to tags agree: a wheel passes its check if and only if it is the one
that is made from its filename, but for its dependencies and the spelling of its ABI. Of a wheel
that does not pass, what is wrong with its filename is told, or else the first tag that the filename
does not carry. -/
namespace WheelFarm.Wheel
open WheelName

/-- The tags in the order in which they are looked at, each with its place. -/
def Tags.fields : List (Component × (Tags → String)) :=
  [(.package, Tags.package), (.version, Tags.version), (.python, Tags.python), (.abi, Tags.abi),
    (.platform, Tags.platform)]

/-- The first tag in which two sets of tags differ, with its place. -/
def Tags.firstDiffering? (s t : Tags) : Option (Component × (Tags → String)) :=
  fields.find? fun x => x.2 s ≠ x.2 t

lemma Carries.canonical {filename : String} {t : Tags} (h : Carries filename t) :
    t.canonical = t := by
  rw [Tags.canonical, canonicalAbi, if_neg h.abi_ne_retired]

namespace BuiltFile

variable {f : BuiltFile} {n : WheelName} {p : Parts} {filename hash : String} {size : UInt64}

lemma find?_comparisons (s t : Tags) : ((comparisons s t).find? fun c => c.2.1 ≠ c.2.2) =
    (s.canonical.firstDiffering? t).map fun x => (x.1, x.2 s.canonical, x.2 t) := by
  have hmap : comparisons s t =
      Tags.fields.map fun x => (x.1, x.2 s.canonical, x.2 t) := rfl
  rw [hmap, List.find?_map]
  rfl

lemma check_of_parse_error {e : WheelError} (h : parse f.filename = .error e) :
    f.check = .error e := by
  simp only [check, h, bind, Except.bind]

lemma check_of_parse (h : parse f.filename = .ok n) :
    f.check = match f.tags.canonical.firstDiffering? n.tags with
      | some (place, tag) => .error (.tagMismatch f.filename place (tag f.tags.canonical))
      | none => .ok () := by
  simp only [check, h, bind, Except.bind, find?_comparisons]
  cases f.tags.canonical.firstDiffering? n.tags <;> rfl

lemma ofFilename_of_parse (h : parse filename = .ok n) :
    ofFilename filename size hash = .ok { filename, size, hash, tags := n.tags } := by
  rw [ofFilename, h]
  rfl

/-- A wheel passes its check if and only if its filename makes it, dependencies and the spelling of
the ABI apart. -/
theorem check_eq_ok_iff_ofFilename : f.check = .ok () ↔
    ofFilename f.filename f.size f.hash =
      .ok { f with tags := f.tags.canonical, dependencies := ∅ } := by
  rw [check_eq_ok_iff]
  constructor
  · intro h
    obtain ⟨n, hparse, htags⟩ := h
    rw [ofFilename_of_parse hparse, htags]
  · intro h
    obtain ⟨n, hparse, hmade⟩ := map_eq_ok h
    exact ⟨n, hparse, congrArg tags hmade⟩

lemma check_foldl_require (ps : List (String × String)) (f : BuiltFile) :
    (ps.foldl (fun f p => f.require p.1 p.2) f).check = f.check := by
  induction ps generalizing f with
  | nil => rfl
  | cons p ps ih => exact ih (f.require p.1 p.2)

lemma check_of_ofFilename (h : ofFilename filename size hash = .ok f) : f.check = .ok () := by
  obtain ⟨n, hparse, rfl⟩ := map_eq_ok h
  have hcarries : Carries filename n.tags := ⟨n, hparse, rfl⟩
  exact check_eq_ok_iff.mpr (hcarries.canonical.symm ▸ hcarries)

lemma check_of_universal (h : p.Spell f.filename) (full : ∀ cs ∈ p.inOrder, cs ≠ [])
    (habi : String.ofList p.abi ∈ ["none", "noabi"]) {abi : String}
    (hdeclared : abi ∈ ["none", "noabi"]) (htags : f.tags = { p.name.tags with abi }) :
    f.check = .ok () := by
  have hparse : parse f.filename = .ok p.name := by
    rw [parse_of_spell h, Parts.firstEmpty?_eq_none_iff.mpr full]
  refine check_eq_ok_iff.mpr ⟨p.name, hparse, ?_⟩
  have hcarried : p.name.tags.abi = "none" := by
    simp only [List.mem_cons, List.not_mem_nil, or_false] at habi
    rcases habi with he | he <;> simp [Parts.name, he]
  have hcanonical : Wheel.canonicalAbi abi = "none" := by
    simp only [List.mem_cons, List.not_mem_nil, or_false] at hdeclared
    rcases hdeclared with rfl | rfl <;> decide
  rw [htags, Tags.canonical, hcanonical, ← hcarried]

/-- A wheel passes its check if and only if it is the one that is made from its filename, but for
its dependencies and the spelling of its ABI. Otherwise what is wrong with the filename is told, or
the first tag that differs from the filename's. So every wheel made from a filename passes, whatever
is required of it, and so does every wheel that declares the universal ABI in either spelling where
the filename has it in either one. -/
theorem check_exact :
    (∀ f : BuiltFile, f.check = .ok () ↔ ofFilename f.filename f.size f.hash =
      .ok { f with tags := f.tags.canonical, dependencies := ∅ }) ∧
    (∀ (f : BuiltFile) (e : WheelError), parse f.filename = .error e → f.check = .error e) ∧
    (∀ (f : BuiltFile) (n : WheelName), parse f.filename = .ok n → f.check ≠ .ok () →
      ∃ place tag, f.tags.canonical.firstDiffering? n.tags = some (place, tag) ∧
        f.check = .error (.tagMismatch f.filename place (tag f.tags.canonical))) ∧
    (∀ filename size hash (f : BuiltFile) (ps : List (String × String)),
      ofFilename filename size hash = .ok f →
        (ps.foldl (fun f p => f.require p.1 p.2) f).check = .ok ()) ∧
    (∀ (p : Parts) (f : BuiltFile) (abi : String), p.Spell f.filename →
      (∀ cs ∈ p.inOrder, cs ≠ []) → String.ofList p.abi ∈ ["none", "noabi"] →
      abi ∈ ["none", "noabi"] → f.tags = { p.name.tags with abi } → f.check = .ok ()) := by
  refine ⟨fun f => check_eq_ok_iff_ofFilename, fun f e => check_of_parse_error, ?_, ?_,
    fun p f abi h full habi hdeclared => check_of_universal h full habi hdeclared⟩
  · intro f n hparse hfailed
    have hcheck := check_of_parse hparse
    cases hfirst : f.tags.canonical.firstDiffering? n.tags with
    | none => exact absurd (hcheck.trans (by rw [hfirst])) hfailed
    | some x => exact ⟨x.1, x.2, rfl, hcheck.trans (by rw [hfirst])⟩
  · intro filename size hash f ps h
    rw [check_foldl_require, check_of_ofFilename h]

/-- A wheel of which the interpreter and the platform are declared otherwise than in its filename,
which has the ABI in the retired spelling. -/
def misdeclared : BuiltFile where
  filename := "six-1.16.0-2-py3-noabi-any.whl"
  size := 11053
  hash := "8abb2f1d"
  tags := ⟨"six", "1.16.0", "py2", "none", "linux_armv7l"⟩

/-- The parts of its filename. -/
def misdeclaredParts : Parts :=
  ⟨"six".toList, "1.16.0".toList, some "2".toList, "py3".toList, "noabi".toList, "any".toList⟩

/-- What its filename makes of it. -/
def redeclared : BuiltFile := { misdeclared with tags := ⟨"six", "1.16.0", "py3", "none", "any"⟩ }

theorem check_of_misdeclared :
    misdeclared.check = .error (.tagMismatch misdeclared.filename .python "py2") ∧
    check { misdeclared with filename := "six-1.16.0.tar.gz" } =
      .error (.notAWheel "six-1.16.0.tar.gz") ∧
    (redeclared.require "apt" "libffi8").check = .ok () ∧
    check { misdeclared with tags := { redeclared.tags with abi := "noabi" } } = .ok () := by
  obtain ⟨-, hunread, hdiffers, hmade, huniversal⟩ := check_exact
  have hparse : parse misdeclared.filename = .ok ⟨redeclared.tags, some "2"⟩ := by rfl
  have hfirst : misdeclared.tags.canonical.firstDiffering? redeclared.tags =
      some (.python, Tags.python) := by rfl
  refine ⟨?_, hunread _ _ (by rfl), ?_, ?_⟩
  · obtain ⟨place, tag, htold, hcheck⟩ := hdiffers misdeclared _ hparse (by rintro ⟨⟩)
    cases hfirst.symm.trans htold
    exact hcheck
  · exact hmade misdeclared.filename 11053 "8abb2f1d" redeclared [("apt", "libffi8")] (by rfl)
  · have hspell : misdeclaredParts.Spell misdeclared.filename := ⟨by decide, by decide⟩
    exact huniversal misdeclaredParts _ "noabi" hspell (by decide) (by decide) (by decide)
      (by decide)

end BuiltFile
end WheelFarm.Wheel
