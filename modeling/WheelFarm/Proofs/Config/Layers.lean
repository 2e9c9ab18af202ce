import Mathlib.Data.List.Nodup
import Mathlib.Tactic.Lemma
import Mathlib.Tactic.SplitIfs
import WheelFarm.Config.Load

/-! The layers of the configuration, setting by setting. Each setting has the value of its variable
if that is set, else the one of the file, else its default, whatever the layers say about the
others; only the value that counts has to fit. Nothing here depends on how the texts of files and
variables are read. -/
namespace WheelFarm.Config

/-- The settings of the program. -/
inductive Setting
  | path | connections | abis
  deriving DecidableEq, Repr

namespace Setting

def place : Setting → String × String
  | path => ("database", "path")
  | connections => ("database", "max_connections")
  | abis => ("build", "abis")

def variableName : Setting → String
  | path => "WHEELHOUSE_DATABASE__PATH"
  | connections => "WHEELHOUSE_DATABASE__MAX_CONNECTIONS"
  | abis => "WHEELHOUSE_BUILD__ABIS"

end Setting

namespace Settings

/-- What is given for a setting in its section. -/
def given (s : Settings) (t : Setting) : Option Value :=
  match s.lookup t.place.1 with
  | some (.mapping entries) => entries.lookup t.place.2
  | _ => none

/-- The sections of the program, as far as they are there, are mappings. -/
def Sectioned (s : Settings) : Prop :=
  ∀ t : Setting, ∀ v ∈ s.lookup t.place.1, ∃ entries, v = .mapping entries

end Settings

/-- The settings that a configuration file brings, or none without a file. -/
inductive Brings (readers : Readers) (contents : String → Option String) :
    Option String → Settings → Prop
  | nothing : Brings readers contents none []
  | file {path text : String} {format : Format} {s : Settings} (there : contents path = some text)
      (known : Format.ofPath? path = some format) (read : readers.file? format text = some s) :
      Brings readers contents (some path) s

/-- The value that counts for a setting: the one of its variable, else the one of the file. -/
def winning (readers : Readers) (environment : List (String × String)) (file : Settings)
    (t : Setting) : Option Value :=
  match environment.lookup t.variableName with
  | some text => some (readers.value text)
  | none => file.given t

/-- A path that a value stands for. -/
inductive IsPath : Option Value → Option String → Prop
  | missing : IsPath none none
  | null : IsPath (some .null) none
  | text (s : String) : IsPath (some (.text s)) (some s)

/-- A number of connections that a value stands for, which fits in 32 bits. -/
inductive IsConnections : Option Value → Option UInt32 → Prop
  | missing : IsConnections none none
  | null : IsConnections (some .null) none
  | integer (n : UInt32) : IsConnections (some (.integer n.toNat)) (some n)

/-- ABIs that a value stands for. -/
inductive IsAbis : Option Value → List String → Prop
  | missing : IsAbis none []
  | list (abis : List String) : IsAbis (some (.list (abis.map .text))) abis

/-- A configuration of the values that its settings have. -/
structure Combines (value : Setting → Option Value) (c : Config) : Prop where
  path : IsPath (value .path) c.path
  connections : IsConnections (value .connections) c.connections
  abis : IsAbis (value .abis) c.abis

section Values
variable {v : Option Value}

lemma readPath_eq_some_iff {p : Option String} : readPath v = some p ↔ IsPath v p := by
  constructor
  · intro h
    rcases v with _ | (_ | _ | _ | _ | s | _ | _) <;> cases h
    · exact .missing
    · exact .null
    · exact .text s
  · rintro (_ | _ | _) <;> rfl

lemma readConnections_eq_some_iff {n : Option UInt32} :
    readConnections v = some n ↔ IsConnections v n := by
  constructor
  · intro h
    rcases v with _ | (_ | _ | n | _ | _ | _ | _)
    case some.integer =>
      rw [readConnections] at h
      split_ifs at h with hn
      cases h
      have hword : ((UInt32.ofNat n.toNat).toNat : Int) = n := by
        rw [UInt32.toNat_ofNat_of_lt' (show n.toNat < 2 ^ 32 by omega)]
        omega
      have hfits := IsConnections.integer (.ofNat n.toNat)
      rwa [hword] at hfits
    all_goals cases h
    · exact .missing
    · exact .null
  · rintro (_ | _ | n)
    · rfl
    · rfl
    · have hn := n.toNat_lt
      rw [readConnections, if_pos (by omega), Int.toNat_natCast, UInt32.ofNat_toNat]

lemma mapM_text?_eq_some_iff {values : List Value} {abis : List String} :
    values.mapM Value.text? = some abis ↔ values = abis.map .text := by
  induction values generalizing abis with
  | nil => cases abis <;> simp
  | cons v values ih =>
    cases v with
    | text s => cases abis <;> simp [Value.text?, Option.bind_eq_some_iff, ih, and_comm]
    | _ => cases abis <;> simp [Value.text?]

lemma readAbis_eq_some_iff {abis : List String} : readAbis v = some abis ↔ IsAbis v abis := by
  constructor
  · intro h
    rcases v with _ | (_ | _ | _ | _ | _ | values | _)
    case some.list =>
      rw [readAbis, mapM_text?_eq_some_iff] at h
      exact h ▸ .list abis
    all_goals cases h
    exact .missing
  · rintro (_ | _)
    · rfl
    · exact mapM_text?_eq_some_iff.mpr rfl

end Values

section Overlays
variable {s above below : Settings} {v w : Value} {n : String} {t : Setting}

/-- A value laid over what is given so far. -/
def layer : Option Value → Option Value → Option Value
  | none, below => below
  | some v, none => some v
  | some v, some below => some (v.over below)

lemma layer_none (v : Option Value) : layer v none = v := by cases v <;> rfl

lemma lookup_cons {α : Type} (e : String × α) (s : List (String × α)) (n : String) :
    List.lookup n (e :: s) = if n = e.1 then some e.2 else s.lookup n := by
  rw [List.lookup_cons]
  split_ifs with h
  · rw [beq_iff_eq.mpr h]
  · rw [beq_eq_false_iff_ne.mpr h]

lemma lookup_put (s : Settings) (m : String) (w : Value) (n : String) :
    (s.put m w).lookup n = if n = m then some w else s.lookup n := by
  induction s with
  | nil => rw [Settings.put, lookup_cons]
  | cons e s ih =>
    obtain ⟨m', w'⟩ := e
    by_cases hm : m' = m
    · rw [Settings.put, if_pos hm, hm, lookup_cons, lookup_cons]
      split_ifs <;> rfl
    · rw [Settings.put, if_neg hm, lookup_cons, ih, lookup_cons]
      split_ifs with hn' hn
      · exact absurd (hn'.symm.trans hn) hm
      all_goals rfl

lemma lookup_eq_none {α : Type} {s : List (String × α)} (h : n ∉ s.map Prod.fst) :
    s.lookup n = none := by
  rw [List.lookup_eq_none_iff]
  intro e he
  rw [bne_iff_ne]
  exact fun hn => h (hn ▸ List.mem_map_of_mem he)

lemma lookup_entriesOver (h : (above.map Prod.fst).Nodup) (n : String) :
    (entriesOver above below).lookup n = layer (above.lookup n) (below.lookup n) := by
  induction above generalizing below with
  | nil => rw [entriesOver]; rfl
  | cons e above ih =>
    obtain ⟨m, w⟩ := e
    obtain ⟨hnew, hnodup⟩ := List.nodup_cons.mp h
    rw [entriesOver, ih hnodup, lookup_put, lookup_cons]
    split_ifs with hn
    · subst hn
      rw [lookup_eq_none hnew]
      cases below.lookup n <;> rw [entryOver] <;> rfl
    · rfl

/-- Settings in which no name comes twice, neither among the sections nor in one of them. -/
structure Tidy (s : Settings) : Prop where
  sections : (s.map Prod.fst).Nodup
  entries : ∀ n entries, s.lookup n = some (.mapping entries) → (entries.map Prod.fst).Nodup

lemma given_overlay (h : Tidy above) (habove : above.Sectioned) (hbelow : below.Sectioned)
    (t : Setting) : (below.overlay above).given t = layer (above.given t) (below.given t) := by
  unfold Settings.given
  rw [Settings.overlay, lookup_entriesOver h.sections]
  cases ha : above.lookup t.place.1 with
  | none => rfl
  | some v =>
    obtain ⟨entries, rfl⟩ := habove t v ha
    cases hb : below.lookup t.place.1 with
    | none => exact (layer_none _).symm
    | some w =>
      obtain ⟨entries', rfl⟩ := hbelow t w hb
      rw [layer, Value.over]
      exact lookup_entriesOver (h.entries _ _ ha) t.place.2

lemma sectioned_overlay (h : Tidy above) (habove : above.Sectioned) (hbelow : below.Sectioned) :
    (below.overlay above).Sectioned := by
  intro t v hv
  rw [Settings.overlay, lookup_entriesOver h.sections] at hv
  cases ha : above.lookup t.place.1 with
  | none =>
    rw [ha] at hv
    exact hbelow t v hv
  | some w =>
    obtain ⟨entries, rfl⟩ := habove t w ha
    rw [ha] at hv
    cases hb : below.lookup t.place.1 with
    | none =>
      rw [hb] at hv
      cases hv
      exact ⟨entries, rfl⟩
    | some w =>
      rw [hb, layer, Value.over] at hv
      cases hv
      exact ⟨_, rfl⟩

lemma map_fst_put (s : Settings) (m : String) (w : Value) :
    (s.put m w).map Prod.fst = if m ∈ s.map Prod.fst then s.map Prod.fst else s.map Prod.fst ++ [m] := by
  induction s with
  | nil => rfl
  | cons e s ih =>
    obtain ⟨m', w'⟩ := e
    by_cases hm : m' = m
    · rw [Settings.put, if_pos hm]
      simp [hm]
    · rw [Settings.put, if_neg hm, List.map_cons, ih]
      simp only [List.map_cons, List.mem_cons, Ne.symm hm, false_or]
      split_ifs <;> rfl

lemma nodup_put (h : (s.map Prod.fst).Nodup) (m : String) (w : Value) :
    ((s.put m w).map Prod.fst).Nodup := by
  rw [map_fst_put]
  split_ifs with hm
  · exact h
  · rw [← List.concat_eq_append]
    exact h.concat hm

lemma nodup_entriesOver (h : (below.map Prod.fst).Nodup) (above : Settings) :
    ((entriesOver above below).map Prod.fst).Nodup := by
  induction above generalizing below with
  | nil =>
    rw [entriesOver]
    exact h
  | cons e above ih =>
    rw [entriesOver]
    exact ih (nodup_put h _ _)

/-- The settings that give a value for one setting. -/
def single (t : Setting) (v : Value) : Settings := [(t.place.1, .mapping [(t.place.2, v)])]

lemma lookup_single (n : String) :
    (single t v).lookup n = if n = t.place.1 then some (.mapping [(t.place.2, v)]) else none :=
  lookup_cons _ _ _

lemma tidy_single (t : Setting) (v : Value) : Tidy (single t v) where
  sections := List.nodup_singleton _
  entries n entries h := by
    rw [lookup_single] at h
    split_ifs at h
    cases h
    exact List.nodup_singleton _

lemma sectioned_single (t : Setting) (v : Value) : (single t v).Sectioned := by
  intro u w hw
  rw [lookup_single] at hw
  split_ifs at hw <;> cases hw
  exact ⟨_, rfl⟩

lemma given_single (t u : Setting) (v : Value) :
    (single t v).given u = if t = u then some v else none := by
  cases t <;> cases u <;> rfl

lemma tidy_overlay_single (h : Tidy s) (t : Setting) (v : Value) : Tidy (s.overlay (single t v)) where
  sections := nodup_entriesOver h.sections _
  entries n entries he := by
    rw [Settings.overlay, lookup_entriesOver (tidy_single t v).sections, lookup_single] at he
    split_ifs at he with hn
    · cases hs : s.lookup n with
      | none =>
        rw [hs] at he
        cases he
        exact List.nodup_singleton _
      | some w =>
        rw [hs, layer, Value.over] at he
        cases he
        refine nodup_entriesOver ?_ _
        cases w with
        | mapping es => exact h.entries n es hs
        | _ => exact List.nodup_nil
    · exact h.entries n entries he

end Overlays

section Environments
variable {environment : List (String × String)} {s file : Settings}

lemma path?_variableName (t : Setting) :
    Variable.path? t.variableName = some [t.place.1, t.place.2] := by
  cases t <;> decide +kernel

/-- Every variable of the program sets one of its settings, by the usual spelling of its name. -/
def OnlySettings (environment : List (String × String)) : Prop :=
  ∀ v ∈ environment, (∃ t : Setting, v.1 = t.variableName) ∨ Variable.path? v.1 = none

/-- Takes in a variable. -/
def takeVariable (read : String → Value) (s : Settings) (v : String × String) : Settings :=
  match Variable.path? v.1 with
  | some path => s.overlay (Settings.nest (read v.2) path)
  | none => s

lemma given_foldl_takeVariable (read : String → Value) (h : OnlySettings environment)
    (hnodup : (environment.map Prod.fst).Nodup) (ht : Tidy s) (hs : s.Sectioned) :
    Tidy (environment.foldl (takeVariable read) s) ∧
      (environment.foldl (takeVariable read) s).Sectioned ∧
      ∀ t : Setting, (environment.foldl (takeVariable read) s).given t =
        layer ((environment.lookup t.variableName).map read) (s.given t) := by
  -- A variable comes once, so that no later one sets the setting of an earlier one again.
  induction environment generalizing s with
  | nil => exact ⟨ht, hs, fun t => rfl⟩
  | cons v environment ih =>
    obtain ⟨hv, hothers⟩ := List.forall_mem_cons.mp h
    obtain ⟨hnew, hnodup⟩ := List.nodup_cons.mp hnodup
    rw [List.foldl_cons]
    rcases hv with ⟨u, hu⟩ | hforeign
    · have htake : takeVariable read s v = s.overlay (single u (read v.2)) := by
        rw [takeVariable, hu, path?_variableName]
        rfl
      have hsingle := sectioned_single u (read v.2)
      rw [htake]
      obtain ⟨ht', hs', hgiven⟩ := ih hothers hnodup (tidy_overlay_single ht u _)
        (sectioned_overlay (tidy_single u _) hsingle hs)
      refine ⟨ht', hs', fun t => ?_⟩
      rw [hgiven, given_overlay (tidy_single u _) hsingle hs, given_single, lookup_cons, hu]
      by_cases hut : u = t
      · subst hut
        rw [if_pos rfl, if_pos rfl, lookup_eq_none (hu ▸ hnew)]
        rfl
      · have hne : t.variableName ≠ u.variableName := by
          revert hut
          cases u <;> cases t <;> decide
        rw [if_neg hut, if_neg hne]
        rfl
    · have htake : takeVariable read s v = s := by rw [takeVariable, hforeign]
      rw [htake]
      obtain ⟨ht', hs', hgiven⟩ := ih hothers hnodup ht hs
      refine ⟨ht', hs', fun t => ?_⟩
      have hne : t.variableName ≠ v.1 := fun he => by
        rw [← he, path?_variableName] at hforeign
        cases hforeign
      rw [hgiven, lookup_cons, if_neg hne]

lemma given_layers (read : String → Value) (h : OnlySettings environment)
    (hnodup : (environment.map Prod.fst).Nodup) (hfile : file.Sectioned) :
    (file.overlay (ofVariables read environment)).Sectioned ∧
      ∀ t : Setting, (file.overlay (ofVariables read environment)).given t =
        layer ((environment.lookup t.variableName).map read) (file.given t) := by
  have hempty : Settings.Sectioned [] := fun t v hv => by cases hv
  obtain ⟨htidy, hsectioned, hgiven⟩ := given_foldl_takeVariable read h hnodup
    (s := []) ⟨List.nodup_nil, fun n entries hn => by cases hn⟩ hempty
  have hvariables : ofVariables read environment = environment.foldl (takeVariable read) [] := rfl
  rw [hvariables]
  refine ⟨sectioned_overlay htidy hsectioned hfile, fun t => ?_⟩
  rw [given_overlay htidy hsectioned hfile, hgiven, show Settings.given [] t = none from rfl,
    layer_none]

end Environments

section Loading
variable {readers : Readers} {contents : String → Option String} {path : Option String}
  {environment : List (String × String)} {s file : Settings} {c : Config}

lemma sectionValue?_eq (h : s.Sectioned) (t : Setting) (place : Nat) :
    sectionValue? (s.lookup t.place.1) place t.place.2 = some (s.given t) := by
  unfold Settings.given
  cases hv : s.lookup t.place.1 with
  | none => rfl
  | some v =>
    obtain ⟨entries, rfl⟩ := h t v hv
    rfl

lemma ofSettings?_eq_some_iff (h : s.Sectioned) : ofSettings? s = some c ↔ Combines s.given c := by
  have hpath := sectionValue?_eq h .path 0
  have hconnections := sectionValue?_eq h .connections 1
  have habis := sectionValue?_eq h .abis 0
  simp only [Setting.place] at hpath hconnections habis
  obtain ⟨path, connections, abis⟩ := c
  simp only [ofSettings?, hpath, hconnections, habis, Option.bind_eq_bind, Option.bind_some]
  simp only [Option.bind_eq_some_iff, readPath_eq_some_iff, readConnections_eq_some_iff,
    readAbis_eq_some_iff, Option.pure_def, Option.some.injEq, Config.mk.injEq]
  constructor
  · rintro ⟨p, hp, n, hn, a, ha, rfl, rfl, rfl⟩
    exact ⟨hp, hn, ha⟩
  · rintro ⟨hp, hn, ha⟩
    exact ⟨path, hp, connections, hn, abis, ha, rfl, rfl, rfl⟩

lemma layer_iff {P : Option Value → Prop} (hP : ∀ entries, ¬ P (some (.mapping entries)))
    (above below : Option Value) : P (layer above below) ↔ P (above.or below) := by
  rcases above with _ | v
  · rfl
  · rcases below with _ | w
    · rfl
    -- No setting takes a mapping, so that it does not matter what one is merged with.
    · by_cases hv : ∃ entries, v = .mapping entries
      · obtain ⟨entries, rfl⟩ := hv
        rw [layer, Value.over]
        exact iff_of_false (hP _) (hP _)
      · have hover : v.over w = v := by
          rw [Value.over]
          exact fun entries he => hv ⟨entries, he⟩
        rw [layer, hover]
        rfl

lemma combines_layers (h : OnlySettings environment) (hnodup : (environment.map Prod.fst).Nodup)
    (hfile : file.Sectioned) :
    Combines (file.overlay (ofVariables readers.value environment)).given c ↔
      Combines (winning readers environment file) c := by
  have hgiven := (given_layers readers.value h hnodup hfile).2
  have hwinning (t : Setting) : winning readers environment file t =
      ((environment.lookup t.variableName).map readers.value).or (file.given t) := by
    rw [winning]
    cases environment.lookup t.variableName <;> rfl
  have hpath := layer_iff (P := (IsPath · c.path)) (fun _ h => by cases h)
    ((environment.lookup Setting.path.variableName).map readers.value) (file.given .path)
  have hconnections := layer_iff (P := (IsConnections · c.connections)) (fun _ h => by cases h)
    ((environment.lookup Setting.connections.variableName).map readers.value)
    (file.given .connections)
  have habis := layer_iff (P := (IsAbis · c.abis)) (fun _ h => by cases h)
    ((environment.lookup Setting.abis.variableName).map readers.value) (file.given .abis)
  rw [← hgiven, ← hwinning] at hpath hconnections habis
  exact ⟨fun hc => ⟨hpath.mp hc.path, hconnections.mp hc.connections, habis.mp hc.abis⟩,
    fun hc => ⟨hpath.mpr hc.path, hconnections.mpr hc.connections, habis.mpr hc.abis⟩⟩

lemma load_eq (h : Brings readers contents path file) :
    load readers contents path environment =
      ofSettings (file.overlay (ofVariables readers.value environment)) := by
  cases h with
  | nothing => rfl
  | @file path text format _ there known read =>
    have hfile : fileSettings readers path (contents path) = .ok file := by
      unfold fileSettings
      simp only [there, known, read]
    rw [load, hfile]
    rfl

/-- With a file whose sections are mappings, or no file, and with the usual variables, the value of
each setting is the one of its variable if that is set, else the one of the file if it gives one,
else the default. Loading fails for what is read if and only if one of these values does not fit its
setting. Where they all fit they make the configuration that is checked, and that is given if there
is no objection. All of this holds whatever reads the texts. -/
theorem load_by_setting (hfile : Brings readers contents path file)
    (hsections : file.Sectioned) (hnodup : (environment.map Prod.fst).Nodup)
    (hsettings : OnlySettings environment) :
    (load readers contents path environment = .error .unreadable ↔
      (¬ ∃ p, IsPath (winning readers environment file .path) p) ∨
      (¬ ∃ n, IsConnections (winning readers environment file .connections) n) ∨
      ¬ ∃ abis, IsAbis (winning readers environment file .abis) abis) ∧
    ∀ c, Combines (winning readers environment file) c →
      load readers contents path environment = match c.validate with
        | .ok () => .ok c
        | .error why => .error (.invalid why) := by
  have hsectioned := (given_layers readers.value hsettings hnodup hsections).1
  have hcombines (c : Config) := (ofSettings?_eq_some_iff (c := c) hsectioned).trans
    (combines_layers hsettings hnodup hsections)
  have hload : ∀ c, Combines (winning readers environment file) c →
      load readers contents path environment = match c.validate with
        | .ok () => .ok c
        | .error why => .error (.invalid why) := by
    intro c hc
    have hmade := (hcombines c).mpr hc
    rw [load_eq hfile]
    unfold ofSettings
    generalize ofSettings? _ = made at hmade
    cases hmade
    rfl
  refine ⟨⟨fun hunreadable => ?_, fun hunfit => ?_⟩, hload⟩
  · by_contra hfit
    simp only [not_or, not_not] at hfit
    obtain ⟨⟨p, hp⟩, ⟨n, hn⟩, abis, habis⟩ := hfit
    rw [hload ⟨p, n, abis⟩ ⟨hp, hn, habis⟩] at hunreadable
    split at hunreadable <;> cases hunreadable
  · have hnone : ofSettings? (file.overlay (ofVariables readers.value environment)) = none := by
      refine Option.eq_none_iff_forall_ne_some.mpr fun c hc => ?_
      obtain ⟨hp, hn, habis⟩ := (hcombines c).mp hc
      rcases hunfit with h | h | h
      · exact h ⟨_, hp⟩
      · exact h ⟨_, hn⟩
      · exact h ⟨_, habis⟩
    rw [load_eq hfile, ofSettings, hnone]

/-- A file in which the path of the ledger is a number. -/
def sampleFile : String :=
  "\x7b\"database\": \x7b\"path\": 7, \"max_connections\": 8\x7d, \"build\": \x7b\"abis\": [\"cp39\"]\x7d\x7d"

def sampleSettings : Settings := [
  ("database", .mapping [("path", .integer 7), ("max_connections", .integer 8)]),
  ("build", .mapping [("abis", .list [.text "cp39"])])]

def sampleEnvironment : List (String × String) := [
  ("WHEELHOUSE_BUILD__ABIS", "[cp312, \"cp311\"]"), ("HOME", "/root"),
  ("WHEELHOUSE_DATABASE__PATH", "/srv/wheels.db")]

def sampleContents (path : String) : Option String :=
  if path = "wheels.json" then some sampleFile else none

def sampleLoaded : Config :=
  { path := some "/srv/wheels.db", connections := some 8, abis := ["cp312", "cp311"] }

lemma brings_sampleFile : Brings .builtin sampleContents (some "wheels.json") sampleSettings :=
  @Brings.file _ _ "wheels.json" sampleFile .json _ rfl (by decide +kernel) rfl

lemma sectioned_sampleSettings : sampleSettings.Sectioned := by
  rintro (_ | _ | _) v hv <;> cases hv <;> exact ⟨_, rfl⟩

lemma onlySettings_sampleEnvironment : OnlySettings sampleEnvironment := by
  intro v hv
  simp only [sampleEnvironment, List.mem_cons, List.not_mem_nil, or_false] at hv
  rcases hv with rfl | rfl | rfl
  · exact .inl ⟨.abis, rfl⟩
  · exact .inr (by decide +kernel)
  · exact .inl ⟨.path, rfl⟩

/-- The path of the file does not fit and does not count, its number of connections counts, and its
ABIs give way to others. With a variable that does not fit nothing is loaded. -/
theorem load_of_sampleFile :
    Brings .builtin sampleContents (some "wheels.json") sampleSettings ∧ sampleSettings.Sectioned ∧
    OnlySettings sampleEnvironment ∧
    load .builtin sampleContents (some "wheels.json") sampleEnvironment = .ok sampleLoaded ∧
    load .builtin sampleContents (some "wheels.json")
      (("WHEELHOUSE_DATABASE__MAX_CONNECTIONS", "lots") :: sampleEnvironment) =
        .error .unreadable := by
  have hmore : OnlySettings (("WHEELHOUSE_DATABASE__MAX_CONNECTIONS", "lots") :: sampleEnvironment) :=
    List.forall_mem_cons.mpr ⟨.inl ⟨.connections, rfl⟩, onlySettings_sampleEnvironment⟩
  refine ⟨brings_sampleFile, sectioned_sampleSettings, onlySettings_sampleEnvironment, ?_, ?_⟩
  · refine (load_by_setting brings_sampleFile sectioned_sampleSettings (by decide)
      onlySettings_sampleEnvironment).2 sampleLoaded ⟨?_, ?_, ?_⟩
    · exact readPath_eq_some_iff.mp (by decide +kernel)
    · exact readConnections_eq_some_iff.mp (by decide +kernel)
    · exact readAbis_eq_some_iff.mp (by decide +kernel)
  · refine (load_by_setting brings_sampleFile sectioned_sampleSettings (by decide) hmore).1.mpr
      (.inr (.inl ?_))
    rintro ⟨n, hn⟩
    have hlots : readConnections (winning .builtin
        (("WHEELHOUSE_DATABASE__MAX_CONNECTIONS", "lots") :: sampleEnvironment) sampleSettings
        .connections) = none := by decide +kernel
    rw [readConnections_eq_some_iff.mpr hn] at hlots
    cases hlots

end Loading

end WheelFarm.Config
