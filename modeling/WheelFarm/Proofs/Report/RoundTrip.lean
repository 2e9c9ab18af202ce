import WheelFarm.Proofs.Duration
import WheelFarm.Proofs.Report.Encoding
import WheelFarm.Proofs.Table
import WheelFarm.Report.Decode

/-! A report that is written as JSON reads back as it was, up to the rounding of its duration:
every kind of value by itself, and the containers from their parts. -/
namespace WheelFarm.Report
open Json Json.Reader Wheel

variable {α σ : Type}

/-- A text that the reader takes whole, as the given value. -/
def Spells (r : Reader α) (cs : List Char) (a : α) : Prop := ∃ ts, Scans cs ts ∧ Item r ts a

section Values

theorem spells_string (s : String) : Spells string (encodeString s) s :=
  ⟨_, scans_encodeString s, ⟨_, _, rfl, by simp⟩, takes_string s⟩

theorem spells_bool (b : Bool) : Spells bool (encodeBool b) b :=
  ⟨_, scans_encodeBool b, ⟨_, _, rfl, by simp⟩, takes_bool b⟩

/-- Words of the full range are written in digits alone. -/
theorem spells_word (w : UInt64) : Spells word (encodeNat w.toNat) w :=
  ⟨_, scans_encodeNat w.toNat, ⟨_, _, rfl, by simp⟩,
    takes_word (Numeral.isSome_magnitude?_digits w) (Numeral.word?_digits w)⟩

/-- A number without a sign is taken as the duration of its seconds. -/
theorem takes_seconds {n : Numeral} {x : Binary64} {d : Duration} (hsign : n.negative = false)
    (hx : n.magnitude? = some x) (hd : Duration.ofSeconds? x = some d) :
    Takes duration [.number n] d := by
  intro rest
  refine (takes_numeral (by rw [hx]; rfl) rest).bind ?_
  simp only [hx, hsign, Bool.false_and, hd]
  rfl

theorem spells_seconds {cs : List Char} {n : Numeral} {x : Binary64} {d : Duration}
    (hscans : Scans cs [.number n]) (hsign : n.negative = false) (hx : n.magnitude? = some x)
    (hd : Duration.ofSeconds? x = some d) : Spells duration cs d :=
  ⟨_, hscans, ⟨_, _, rfl, by simp⟩, takes_seconds hsign hx hd⟩

/-- A duration reads back rounded, unless rounding takes it to 2^64 seconds. -/
theorem spells_duration {d d' : Duration} (h : Duration.ofSeconds? d.toSeconds = some d') :
    Spells duration (encodeSeconds d.toSeconds) d' := by
  obtain ⟨n, hsign, hmagnitude, hscans⟩ :=
    scans_encodeSeconds d.canonical_toSeconds d.isFinite_toSeconds
  exact spells_seconds hscans hsign hmagnitude h

end Values

section Containers

/-- Items that are read back make up an array that is. -/
theorem spells_array {item : Reader α} {css : List (List Char)} {as : List α}
    (h : List.Forall₂ (Spells item) css as) : Spells (array item) (encodeArray css) as := by
  obtain ⟨tss, hscans, hitems⟩ :
      ∃ tss, List.Forall₂ Scans css tss ∧ List.Forall₂ (Item item) tss as := by
    induction h with
    | nil => exact ⟨[], .nil, .nil⟩
    | cons hfirst _ ih =>
      obtain ⟨ts, hs, hi⟩ := hfirst
      obtain ⟨tss, hss, his⟩ := ih
      exact ⟨ts :: tss, .cons hs hss, .cons hi his⟩
  exact ⟨_, scans_encodeArray hscans, ⟨_, _, rfl, by simp⟩, takes_array hitems⟩

theorem spells_map {item : Reader α} {encode : α → List Char} (as : List α)
    (h : ∀ a ∈ as, Spells item (encode a) a) : Spells (array item) (encodeArray (as.map encode)) as := by
  refine spells_array ?_
  rw [List.forall₂_map_left_iff, List.forall₂_same]
  exact h

/-- Members as they are written one after another, and what is kept of them. -/
inductive Fields (member : String → σ → Reader σ) : σ → List (String × List Char) → σ → Prop
  | nil (s : σ) : Fields member s [] s
  | cons {s s' s'' : σ} {k : String} {cs : List Char} {ts : List Token}
      {ms : List (String × List Char)} (scans : Scans cs ts)
      (takes : Takes (member k s) (.colon :: ts) s') (others : Fields member s' ms s'') :
      Fields member s ((k, cs) :: ms) s''

variable {member : String → σ → Reader σ} {s u : σ} {ms : List (String × List Char)}

theorem takes_once {r : Reader α} {ts : List Token} {a : α} {keep : α → σ} (h : Takes r ts a) :
    Takes (once none r keep) (.colon :: ts) (keep a) :=
  fun rest => reads_colon.bind ((h rest).bind rfl)

/-- A field that has not come before is kept. -/
theorem Fields.once {r : Reader α} {k : String} {cs : List Char} {a : α} {keep : α → σ}
    (hmember : member k s = Report.once none r keep) (h : Spells r cs a)
    (others : Fields member (keep a) ms u) : Fields member s ((k, cs) :: ms) u := by
  obtain ⟨ts, hscans, hitem⟩ := h
  exact .cons hscans (hmember ▸ takes_once hitem.takes) others

/-- The members of an object are taken in the order in which they are written. -/
theorem Fields.exists_tokens (h : Fields member s ms u) :
    ∃ ns, Members member s ns u ∧
      Scans (encodeObject ms)
        (.openBrace :: ([.comma].intercalate (ns.map memberTokens) ++ [.closeBrace])) := by
  obtain ⟨ns, hmembers, hscans⟩ : ∃ ns, Members member s ns u ∧
      List.Forall₂ (fun m n => m.1 = n.1 ∧ ∃ ts, n.2 = .colon :: ts ∧ Scans m.2 ts) ms ns := by
    induction h with
    | nil s => exact ⟨[], .nil s, .nil⟩
    | @cons s s' s'' k cs ts ms hscans htakes _ ih =>
      obtain ⟨ns, hmembers, hall⟩ := ih
      exact ⟨(k, .colon :: ts) :: ns, .cons htakes hmembers, .cons ⟨rfl, ts, rfl, hscans⟩ hall⟩
  exact ⟨ns, hmembers, scans_encodeObject hscans⟩

/-- What reads the members of an object reads the object between its braces. -/
theorem takes_record {object items : Reader α} {ts : List Token} {a : α}
    (h : ∀ rest, Reads object (ts ++ .closeBrace :: rest) a (.closeBrace :: rest)) :
    Takes (record object items) (.openBrace :: (ts ++ [.closeBrace])) a := by
  intro rest
  have hpeek : ∀ us, Reads peek (.openBrace :: us) (some .openBrace) (.openBrace :: us) :=
    fun _ => rfl
  have hdrop : ∀ us, Reads drop (.openBrace :: us) () us := fun _ => rfl
  rw [List.cons_append, List.append_assoc]
  exact (hpeek _).bind ((hdrop _).bind ((h rest).bind ((reads_closing _).bind rfl)))

/-- An object is read as what is made of its members. -/
theorem spells_record {items : Reader α} {finish : σ → Reader α} {a : α}
    (h : Fields member s ms u) (hfinish : finish u = pure a) :
    Spells (record (do finish (← members member s)) items) (encodeObject ms) a := by
  obtain ⟨ns, hmembers, hscans⟩ := h.exists_tokens
  refine ⟨_, hscans, ⟨_, _, rfl, by simp⟩, takes_record fun rest => ?_⟩
  refine (reads_members hmembers).bind ?_
  rw [hfinish]
  rfl

end Containers

section Reports

/-- Names are read back as the same set. -/
theorem spells_names (names : NameSet) :
    Spells Report.names (encodeArray (names.rows.map encodeString)) names := by
  obtain ⟨ts, hscans, hbegins, htakes⟩ :=
    spells_map names.rows fun s _ => spells_string s
  refine ⟨ts, hscans, hbegins, fun rest => (htakes rest).bind ?_⟩
  rw [Table.ofList_rows]
  rfl

lemma fields_requirements (rs : List Requirement) (d : Dependencies) :
    Fields requirement d
      (rs.map fun r => (r.tool, encodeArray (r.names.rows.map encodeString)))
      (rs.foldl Table.put d) := by
  induction rs generalizing d with
  | nil => exact .nil d
  | cons r rs ih =>
    obtain ⟨ts, hscans, hitem⟩ := spells_names r.names
    exact .cons hscans (fun rest => reads_colon.bind ((hitem.takes rest).bind rfl)) (ih (d.put r))

theorem spells_dependencies (d : Dependencies) :
    Spells Report.dependencies (encodeDependencies d) d := by
  have hfields := fields_requirements d.rows ∅
  rw [← Table.ofList, Table.ofList_rows] at hfields
  obtain ⟨ns, hmembers, hscans⟩ := hfields.exists_tokens
  refine ⟨_, hscans, ⟨_, _, rfl, by simp⟩, fun rest => ?_⟩
  rw [List.cons_append, List.append_assoc]
  exact (reads_opening _).bind ((reads_members hmembers).bind ((reads_closing _).bind rfl))

theorem spells_file (f : BuiltFile) : Spells file (encodeFile f) f :=
  spells_record (u := {
      filename := some f.filename, size := some f.size, hash := some f.hash,
      package := some f.tags.package, version := some f.tags.version,
      python := some f.tags.python, abi := some f.tags.abi, platform := some f.tags.platform,
      dependencies := some f.dependencies })
    (.once rfl (spells_string f.filename) <|
      .once rfl (spells_word f.size) <|
      .once rfl (spells_string f.hash) <|
      .once rfl (spells_string f.tags.package) <|
      .once rfl (spells_string f.tags.version) <|
      .once rfl (spells_string f.tags.python) <|
      .once rfl (spells_string f.tags.abi) <|
      .once rfl (spells_string f.tags.platform) <|
      .once rfl (spells_dependencies f.dependencies) <| .nil _)
    rfl

theorem spells_report {r : BuildReport} {d : Duration}
    (h : Duration.ofSeconds? r.duration.toSeconds = some d) :
    Spells report (encodeReport r) { r with duration := d } :=
  spells_record (u := {
      package := some r.package, version := some r.version, worker := some r.worker,
      duration := some d, success := some r.success, abi := some r.abi,
      output := some r.output, files := some r.files })
    (.once rfl (spells_string r.package) <|
      .once rfl (spells_string r.version) <|
      .once rfl (spells_word r.worker) <|
      .once rfl (spells_duration h) <|
      .once rfl (spells_bool r.success) <|
      .once rfl (spells_string r.abi) <|
      .once rfl (spells_string r.output) <|
      .once rfl (spells_map r.files fun f _ => spells_file f) <| .nil _)
    rfl

lemma decode_of_spells {cs : List Char} {r : BuildReport} (h : Spells report cs r) :
    decode (String.ofList cs) = .ok r := by
  obtain ⟨ts, hscans, hitem⟩ := h
  refine run_of_takes ?_
  rw [String.toList_ofList, tokens_of_scans hscans]
  exact hitem.takes

/-- A report of characters that are escaped or rare, with a tool that has no name and one that has
no requirements. -/
def sampleReport : BuildReport where
  package := "quo\"te\\slash"
  version := "1.0\t\x7f"
  worker := 18446744073709551615
  duration := ⟨9223372036854775807999999999, by decide⟩
  success := true
  abi := "cp34m"
  output := "\x00\x1f\r\n\x08\x0c é 𝄞 \u2028"
  files := [
    { filename := "a.whl", size := 0, hash := "", tags := ⟨"", "", "", "", ""⟩ },
    { filename := "b.whl", size := 18446744073709551615, hash := "00",
      tags := ⟨"b", "1", "py3", "none", "any"⟩,
      dependencies := .ofList [⟨"", .ofList ["\x01", "libc6"]⟩, ⟨"apt", ∅⟩] }]

end Reports

end WheelFarm.Report
