import WheelFarm.Proofs.Wheel.Grammar

/-! Names of wheels and the filenames that say them. What is written for a name is read as that
name, and what is read from a filename is written as that filename again, where only an ABI in the
retired spelling comes out in its one spelling. -/
namespace WheelFarm.Wheel.WheelName
open Text

/-- How an ABI is written that was read in this spelling. -/
def respellAbi (abi : List Char) : List Char :=
  if String.ofList abi = "noabi" then "none".toList else abi

/-- The filename with the ABI, the component before the last one, in its one spelling. -/
def respell (filename : String) : String :=
  String.ofList (join '-' ((pieces '-' filename.toList).reverse.modify 1 respellAbi).reverse)

/-- A name that a filename can say: all its components are there and have no hyphens in them, and
the ABI is not in the retired spelling. -/
structure IsProper (n : WheelName) : Prop where
  full : ∀ c ∈ n.components, c ≠ ""
  apart : ∀ c ∈ n.components, '-' ∉ c.toList
  current : n.tags.abi ≠ "noabi"

/-- What stands in the places of the filename that says a name. -/
def parts (n : WheelName) : Parts where
  package := n.tags.package.toList
  version := n.tags.version.toList
  build := n.build.map String.toList
  python := n.tags.python.toList
  abi := n.tags.abi.toList
  platform := n.tags.platform.toList

variable {filename : String} {n : WheelName} {p : Parts}

section Writing

lemma inOrder_parts (n : WheelName) : n.parts.inOrder = n.components.map String.toList := by
  cases hbuild : n.build <;> simp [parts, Parts.inOrder, components, hbuild]

theorem IsProper.name_parts (h : n.IsProper) : n.parts.name = n := by
  obtain ⟨⟨package, version, python, abi, platform⟩, build⟩ := n
  have habi : abi ≠ "noabi" := h.current
  cases build <;> simp [parts, Parts.name, habi]

lemma IsProper.spell (h : n.IsProper) : n.parts.Spell n.text where
  joined := by rw [text, String.toList_ofList, inOrder_parts]
  apart cs hcs := by
    rw [inOrder_parts] at hcs
    obtain ⟨c, hc, rfl⟩ := List.mem_map.mp hcs
    exact h.apart c hc

/-- What is written for a name is read as that name. -/
theorem IsProper.parse_text (h : n.IsProper) : parse n.text = .ok n := by
  have hfull : n.parts.firstEmpty? = none := by
    rw [Parts.firstEmpty?_eq_none_iff, inOrder_parts]
    intro cs hcs
    obtain ⟨c, hc, rfl⟩ := List.mem_map.mp hcs
    exact fun he => h.full c hc (String.toList_eq_nil_iff.mp he)
  rw [parse_of_spell h.spell, hfull, h.name_parts]

end Writing

namespace Parts

/-- The parts with the ABI in its one spelling. -/
def respelled (p : Parts) : Parts := { p with abi := respellAbi p.abi }

lemma abi_name (p : Parts) : p.name.tags.abi = String.ofList p.respelled.abi := by
  dsimp only [name, respelled, respellAbi]
  split <;> simp

lemma components_name (p : Parts) : p.name.components = p.respelled.inOrder.map String.ofList := by
  rw [components, abi_name]
  cases hbuild : p.build <;> simp [name, inOrder, respelled, hbuild]

lemma toList_text_name (p : Parts) :
    p.name.text.toList = join '-' p.respelled.inOrder ++ extension := by
  rw [text, String.toList_ofList, components_name, List.map_map]
  simp [Function.comp_def]

lemma join_inOrder_append (p : Parts) (ending : List Char) :
    join '-' p.inOrder ++ ending =
      join '-' { p with platform := p.platform ++ ending }.inOrder := by
  cases hbuild : p.build <;> simp [inOrder, join, hbuild]

lemma pieces_of_spell (h : p.Spell filename) :
    pieces '-' filename.toList = { p with platform := p.platform ++ extension }.inOrder := by
  rw [h.joined, join_inOrder_append]
  refine pieces_join (by simp [inOrder]) fun cs hcs => ?_
  have hmem : cs = p.platform ++ extension ∨ cs ∈ p.inOrder := by
    simp only [inOrder, List.mem_append, List.mem_cons] at hcs ⊢
    tauto
  rcases hmem with rfl | hmem
  · have hplatform : '-' ∉ p.platform := h.apart _ (by simp [inOrder])
    simp [hplatform, extension]
  · exact h.apart cs hmem

/-- A filename is written again as it was, but for the spelling of the ABI. -/
theorem text_name (h : p.Spell filename) : p.name.text = respell filename := by
  rw [← String.toList_inj, toList_text_name, respell, String.toList_ofList, pieces_of_spell h,
    join_inOrder_append]
  cases hbuild : p.build <;> simp [inOrder, respelled, hbuild]

lemma mem_inOrder_respelled {cs : List Char} (h : cs ∈ p.respelled.inOrder) :
    cs = "none".toList ∨ cs ∈ p.inOrder := by
  have habi : p.respelled.abi = "none".toList ∨ p.respelled.abi = p.abi := by
    dsimp only [respelled, respellAbi]
    split
    · exact .inl rfl
    · exact .inr rfl
  have hmem : cs = p.respelled.abi ∨ cs ∈ p.inOrder := by
    simp only [inOrder, respelled, List.mem_append, List.mem_cons] at h ⊢
    tauto
  rcases hmem with rfl | hmem
  · refine habi.imp_right fun he => ?_
    rw [he]
    simp [inOrder]
  · exact .inr hmem

lemma abi_name_ne (p : Parts) : p.name.tags.abi ≠ "noabi" := by
  dsimp only [name]
  split
  · decide
  · next hne => exact hne

/-- What is read from a filename is a name that a filename can say. -/
theorem isProper_name (h : p.Spell filename) (full : ∀ cs ∈ p.inOrder, cs ≠ []) :
    p.name.IsProper where
  full c hc := by
    rw [components_name] at hc
    obtain ⟨cs, hcs, rfl⟩ := List.mem_map.mp hc
    rw [ne_eq, String.ofList_eq_empty_iff]
    rcases mem_inOrder_respelled hcs with rfl | hcs
    · decide
    · exact full cs hcs
  apart c hc := by
    rw [components_name] at hc
    obtain ⟨cs, hcs, rfl⟩ := List.mem_map.mp hc
    rw [String.toList_ofList]
    rcases mem_inOrder_respelled hcs with rfl | hcs
    · decide
    · exact h.apart cs hcs
  current := p.abi_name_ne

end Parts

lemma exists_parts_of_parse (h : parse filename = .ok n) :
    ∃ p : Parts, p.Spell filename ∧ (∀ cs ∈ p.inOrder, cs ≠ []) ∧ p.name = n := by
  cases hends : dropEnd? extension filename.toList with
  | none =>
    rw [parse, hends] at h
    cases h
  | some stem =>
    have hstem := dropEnd?_eq_some_iff.mp hends
    by_cases hcount : stem.count '-' + 1 = 5 ∨ stem.count '-' + 1 = 6
    · obtain ⟨p, hp⟩ := Parts.exists_inOrder hcount
      have hspell := Parts.spell_of_pieces hstem hp
      rw [parse_of_spell hspell] at h
      cases hfirst : p.firstEmpty? with
      | some c =>
        rw [hfirst] at h
        cases h
      | none =>
        rw [hfirst] at h
        exact ⟨p, hspell, Parts.firstEmpty?_eq_none_iff.mp hfirst, Except.ok.inj h⟩
    · obtain ⟨five, six⟩ := not_or.mp hcount
      rw [parse_of_count hstem five six] at h
      cases h

/-- What is read from a filename is a proper name, and is written as the filename with the ABI in
its one spelling. -/
theorem proper_of_parse (h : parse filename = .ok n) : n.IsProper ∧ n.text = respell filename := by
  obtain ⟨p, hspell, hfull, rfl⟩ := exists_parts_of_parse h
  exact ⟨Parts.isProper_name hspell hfull, Parts.text_name hspell⟩

/-- Reading and writing undo each other. A name whose components are there, have no hyphens in them
and do not have the ABI in the retired spelling is read from what is written for it. A filename that
is read is written as it was, but for the spelling of the ABI, and is read from that as the same
name again; so two filenames are read as one name if and only if they are the same but for that
spelling. -/
theorem parse_text_inverse :
    (∀ n : WheelName, (∀ c ∈ n.components, c ≠ "" ∧ '-' ∉ c.toList) → n.tags.abi ≠ "noabi" →
      parse n.text = .ok n) ∧
    (∀ filename n, parse filename = .ok n →
      n.text = respell filename ∧ parse n.text = .ok n) ∧
    (∀ filename other m n, parse filename = .ok m → parse other = .ok n →
      (m = n ↔ respell filename = respell other)) := by
  refine ⟨fun n hn habi => ?_, fun filename n h => ?_, fun filename other m n hm hn => ?_⟩
  · have hproper : n.IsProper := ⟨fun c hc => (hn c hc).1, fun c hc => (hn c hc).2, habi⟩
    exact hproper.parse_text
  · obtain ⟨hproper, htext⟩ := proper_of_parse h
    exact ⟨htext, hproper.parse_text⟩
  · obtain ⟨hm, hmtext⟩ := proper_of_parse hm
    obtain ⟨hn, hntext⟩ := proper_of_parse hn
    rw [← hmtext, ← hntext]
    constructor
    · exact fun he => congrArg text he
    · intro he
      exact Except.ok.inj (hm.parse_text.symm.trans (he ▸ hn.parse_text))

/-- A name of which the platform ends like a filename, and other components than the ABI are spelled
as the universal ABI once was. -/
def oddName : WheelName where
  tags := ⟨"noabi", "1.0", "noabi", "none", "any.whl"⟩
  build := some "noabi"

theorem parse_text_of_oddName :
    parse oddName.text = .ok oddName ∧
    parse "noabi-1.0-noabi-noabi-noabi-any.whl.whl" = .ok oddName ∧
    oddName.text = respell "noabi-1.0-noabi-noabi-noabi-any.whl.whl" ∧
    respell "noabi-1.0-noabi-noabi-noabi-any.whl.whl" =
      respell "noabi-1.0-noabi-noabi-none-any.whl.whl" := by
  obtain ⟨hwritten, hread, hsame⟩ := parse_text_inverse
  have hretired : parse "noabi-1.0-noabi-noabi-noabi-any.whl.whl" = .ok oddName := by rfl
  have hcurrent : parse "noabi-1.0-noabi-noabi-none-any.whl.whl" = .ok oddName := by rfl
  have hproper : ∀ c ∈ oddName.components, c ≠ "" ∧ '-' ∉ c.toList := by decide
  exact ⟨hwritten _ hproper (by decide), hretired, (hread _ _ hretired).1,
    (hsame _ _ _ _ hretired hcurrent).mp rfl⟩

end WheelFarm.Wheel.WheelName
