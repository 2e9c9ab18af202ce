import WheelFarm.Proofs.Json.Grammar
import WheelFarm.Proofs.Json.Refusal
import WheelFarm.Proofs.Report.RoundTrip

/-! Texts with blanks between their tokens, and objects of which the members stand in any order with
others among them. What an object is read as is told by the names of its fields, as they come. -/
namespace WheelFarm.Report
open Json Json.Reader

variable {α σ : Type} {P : List Char → Prop} {cs : List Char} {css : List (List Char)}
  {ts : List Token} {f : Fault}

/-- A text with blanks around it. -/
inductive Padded (P : List Char → Prop) : List Char → Prop
  | mk {b cs b' : List Char} (front : Blank b) (text : P cs) (back : Blank b') :
      Padded P (b ++ (cs ++ b'))

/-- A member of an object: its name, a colon, and a text. -/
inductive MemberText (k : String) (P : List Char → Prop) : List Char → Prop
  | mk {key b b' cs : List Char} (name : Names k key) (before : Blank b) (behind : Blank b')
      (text : P cs) : MemberText k P (key ++ (b ++ ':' :: (b' ++ cs)))

/-- Items between two brackets, with commas. The blanks matter where there is no item. -/
inductive Enclosed (first last : Char) (css : List (List Char)) : List Char → Prop
  | mk {b : List Char} (blank : Blank b) :
      Enclosed first last css (first :: (b ++ ([','].intercalate css ++ [last])))

section Texts

lemma Enclosed.scans {first last : Char} {t : Token} (h : Enclosed first last css cs)
    (hfirst : ∀ ds, scanFrom .gap (first :: ds) = t :: scanFrom .gap ds)
    (hscans : Scans (enclose first last css) ts) : Scans cs ts := by
  obtain ⟨hb⟩ := h
  intro rest hrest
  have hall := hscans rest hrest
  rw [enclose, List.cons_append, hfirst] at hall
  rw [List.cons_append, hfirst, List.append_assoc, hb.scanFrom, hall]

end Texts

section Reading
variable {r : Reader α} {a : α}

lemma Padded.spells (h : Padded P cs) (hP : ∀ ds, P ds → Spells r ds a) : Spells r cs a := by
  obtain ⟨front, text, back⟩ := h
  obtain ⟨ts, hscans, hitem⟩ := hP _ text
  exact ⟨ts, hscans.padded front back, hitem⟩

lemma Padded.exists_member {k : String} (h : Padded (MemberText k P) cs) :
    ∃ ds, P ds ∧ ∀ ts, Scans ds ts → Scans cs (memberTokens (k, .colon :: ts)) := by
  obtain ⟨front, ⟨name, before, behind, text⟩, back⟩ := h
  exact ⟨_, text, fun ts hts => (scans_keyed name.scans before behind hts).padded front back⟩

lemma Enclosed.scans_members {ns : List (String × List Token)} (h : Enclosed '\x7b' '\x7d' css cs)
    (hmembers : List.Forall₂ Scans css (ns.map memberTokens)) :
    Scans cs (.openBrace :: ([.comma].intercalate (ns.map memberTokens) ++ [.closeBrace])) :=
  h.scans scanFrom_openBrace
    (scans_enclose scanFrom_openBrace scanFrom_closeBrace (by decide) hmembers)

lemma spells_enclosed {item : Reader α} {as : List α} (h : Enclosed '[' ']' css cs)
    (hitems : List.Forall₂ (Spells item) css as) : Spells (array item) cs as := by
  obtain ⟨ts, hscans, hitem⟩ := spells_array hitems
  exact ⟨ts, h.scans scanFrom_openBracket hscans, hitem⟩

end Reading

section Records
variable {member : String → σ → Reader σ} {object items : Reader α} {a : α}

/-- Fields of an object by their names, each with the texts that stand for its value. -/
abbrev FieldTexts := List (String × (List Char → Prop))

def FieldTexts.names (fields : FieldTexts) : List String := fields.map Prod.fst

/-- The members of an object in any order, and the names of the fields among them in that order. A
member that no field has the name of may hold any value, and so may a field that comes again. -/
inductive MemberTexts (fields : FieldTexts) :
    List String → List String → List (List Char) → Prop
  | nil {seen : List String} : MemberTexts fields seen [] []
  | field {seen names : List String} {k : String} {P : List Char → Prop} {cs : List Char}
      {css : List (List Char)} (known : (k, P) ∈ fields) (text : Padded (MemberText k P) cs)
      (others : MemberTexts fields (k :: seen) names css) :
      MemberTexts fields seen (k :: names) (cs :: css)
  | again {seen names : List String} {k : String} {cs : List Char} {css : List (List Char)}
      (known : k ∈ seen) (text : Padded (MemberText k ValueText) cs)
      (others : MemberTexts fields seen names css) :
      MemberTexts fields seen (k :: names) (cs :: css)
  | other {seen names : List String} {k : String} {cs : List Char} {css : List (List Char)}
      (unknown : k ∉ fields.names) (text : Padded (MemberText k ValueText) cs)
      (others : MemberTexts fields seen names css) :
      MemberTexts fields seen names (cs :: css)

/-- An object with the named fields. -/
inductive RecordText (fields : FieldTexts) (names : List String) : List Char → Prop
  | mk {css : List (List Char)} {cs : List Char} (members : MemberTexts fields [] names css)
      (text : Enclosed '\x7b' '\x7d' css cs) : RecordText fields names cs

/-- How the members of an object are read: what is kept is told by the fields that have come. Some
fields may be bad, and refuse their texts. -/
structure Keeps (member : String → σ → Reader σ) (fields : FieldTexts) (bad : List String)
    (state : List String → σ) : Prop where
  field : ∀ k P, (k, P) ∈ fields → ∀ cs, P cs → ∃ ts, Scans cs ts ∧ ∀ seen, k ∉ seen →
    (k ∉ bad → Takes (member k (state seen)) (.colon :: ts) (state (k :: seen))) ∧
    (k ∈ bad → Refuses (member k (state seen)) (.colon :: ts) .mismatch)
  again : ∀ k ∈ fields.names, ∀ seen, k ∈ seen → ∀ ts, Refuses (member k (state seen)) ts .mismatch
  other : ∀ k, k ∉ fields.names → ∀ seen,
    member k (state seen) = (do colon; skip; return state seen)

/-- Fields that have not come before and are not bad. -/
def Fresh (bad seen names : List String) : Prop :=
  names.Nodup ∧ ∀ k ∈ names, k ∉ seen ∧ k ∉ bad

variable {fields : FieldTexts} {bad seen names : List String} {state : List String → σ}

lemma fresh_cons {k : String} :
    Fresh bad seen (k :: names) ↔ (k ∉ seen ∧ k ∉ bad) ∧ Fresh bad (k :: seen) names := by
  simp only [Fresh, List.nodup_cons, List.mem_cons, forall_eq_or_imp]
  grind

lemma Keeps.exists_tokens (hkeeps : Keeps member fields bad state)
    (h : MemberTexts fields seen names css) (hseen : ∀ k ∈ seen, k ∈ fields.names) :
    ∃ ns, List.Forall₂ Scans css (ns.map memberTokens) ∧
      (Fresh bad seen names → Members member (state seen) ns (state (names.reverse ++ seen))) ∧
      (¬ Fresh bad seen names → Breaks member .mismatch (state seen) ns) := by
  -- The state is told by the names that have come. Members are read up to the first one that comes
  -- again or is bad.
  induction h with
  | nil => exact ⟨[], .nil, fun _ => .nil _, fun h => absurd ⟨.nil, by simp⟩ h⟩
  | @field seen names k P cs css known text _ ih =>
    have hk : k ∈ fields.names := List.mem_map_of_mem known
    obtain ⟨ns, hscans, hmembers, hbreaks⟩ := ih (List.forall_mem_cons.mpr ⟨hk, hseen⟩)
    obtain ⟨ds, hds, hmember⟩ := text.exists_member
    obtain ⟨ts, hts, hfield⟩ := hkeeps.field k P known ds hds
    refine ⟨(k, .colon :: ts) :: ns, .cons (hmember ts hts) hscans, ?_, ?_⟩
    · intro hfresh
      obtain ⟨⟨hnew, hgood⟩, hothers⟩ := fresh_cons.mp hfresh
      rw [List.reverse_cons, List.append_assoc]
      exact .cons ((hfield seen hnew).1 hgood) (hmembers hothers)
    · intro hstale
      by_cases hnew : k ∈ seen
      · exact .here (hkeeps.again k hk seen hnew _)
      by_cases hgood : k ∈ bad
      · exact .here ((hfield seen hnew).2 hgood)
      · exact .later ((hfield seen hnew).1 hgood)
          (hbreaks fun h => hstale (fresh_cons.mpr ⟨⟨hnew, hgood⟩, h⟩))
  | @again seen names k cs css known text _ ih =>
    obtain ⟨ns, hscans, -, -⟩ := ih hseen
    obtain ⟨ds, hds, hmember⟩ := text.exists_member
    obtain ⟨ts, hts, -⟩ := hds.exists_takes
    refine ⟨(k, .colon :: ts) :: ns, .cons (hmember ts hts) hscans, ?_, ?_⟩
    · exact fun hfresh => absurd known (fresh_cons.mp hfresh).1.1
    · exact fun _ => .here (hkeeps.again k (hseen k known) seen known _)
  | @other seen names k cs css unknown text _ ih =>
    obtain ⟨ns, hscans, hmembers, hbreaks⟩ := ih hseen
    obtain ⟨ds, hds, hmember⟩ := text.exists_member
    obtain ⟨ts, hts, hskip⟩ := hds.exists_takes
    have hother : Takes (member k (state seen)) (.colon :: ts) (state seen) := by
      rw [hkeeps.other k unknown seen]
      exact fun rest => reads_colon.bind ((hskip rest).bind rfl)
    exact ⟨(k, .colon :: ts) :: ns, .cons (hmember ts hts) hscans,
      fun h => .cons hother (hmembers h), fun h => .later hother (hbreaks h)⟩

variable {finish : σ → Reader α} {start : σ}

lemma RecordText.exists_tokens (hkeeps : Keeps member fields bad state) (hstart : state [] = start)
    (h : RecordText fields names cs) :
    ∃ ns, Scans cs
        (.openBrace :: ([.comma].intercalate (ns.map memberTokens) ++ [.closeBrace])) ∧
      (Fresh bad [] names → Members member start ns (state names.reverse)) ∧
      (¬ Fresh bad [] names → Breaks member .mismatch start ns) := by
  subst hstart
  obtain ⟨members, text⟩ := h
  obtain ⟨ns, hscans, hmembers, hbreaks⟩ := hkeeps.exists_tokens members (by simp)
  rw [List.append_nil] at hmembers
  exact ⟨ns, text.scans_members hscans, hmembers, hbreaks⟩

/-- An object with fresh fields is read as what is made of them. -/
theorem spells_recordText (hkeeps : Keeps member fields bad state) (hstart : state [] = start)
    (h : RecordText fields names cs) (hfresh : Fresh bad [] names)
    (hfinish : finish (state names.reverse) = pure a) :
    Spells (record (do finish (← members member start)) items) cs a := by
  obtain ⟨ns, hscans, hmembers, -⟩ := h.exists_tokens hkeeps hstart
  refine ⟨_, hscans, ⟨_, _, rfl, by simp⟩, takes_record fun rest => ?_⟩
  refine (reads_members (hmembers hfresh)).bind ?_
  rw [hfinish]
  rfl

end Records

end WheelFarm.Report
