import WheelFarm.Proofs.CommandLine.PackageArgument
import WheelFarm.Proofs.Execution.Failure
import WheelFarm.Proofs.Ledger.CanonicalNames

/-! Names at the command line. Arguments name packages in any spelling, but the ledgers that come of
them know canonical names only, so that no two of their packages are the same by name. -/
namespace WheelFarm.Execution
open CommandLine Host ProjectName

section Invariants
variable {α β : Type} {P : Ledger → Prop} {e : Setting} {s : Session}

/-- An action that keeps a property of the ledger, whether it succeeds or fails. -/
def Keeps (P : Ledger → Prop) (a : Action α) : Prop := ∀ s, P s.ledger → P (a.on s).2.ledger

lemma keeps_pure (a : α) : Keeps P (pure a : Action α) := fun _ h => h

lemma keeps_get : Keeps P get := fun _ h => h

lemma keeps_of_onlyPrints {a : Action Unit} (h : OnlyPrints e a) : Keeps P a := fun s hs => by
  rwa [h.ledger s]

lemma keeps_query (read : Ledger → Except LedgerError α) : Keeps P (query read) := fun s hs => by
  rw [on_query]
  split <;> exact hs

lemma keeps_readReport (path : String) : Keeps P (readReport e path) := fun s hs => by
  rw [readReport]
  split <;> exact hs

lemma Keeps.bind {a : Action α} {k : α → Action β} (h : Keeps P a) (hk : ∀ x, Keeps P (k x)) :
    Keeps P (a >>= k) := fun s hs => by
  have ha := h s hs
  rw [on_bind]
  split
  · next hrun =>
    rw [hrun] at ha
    exact hk _ _ ha
  · next hrun => rwa [hrun] at ha

end Invariants

section Commands
variable {e : Setting}

lemma keeps_perform {op : Ledger.Operation} (hop : op.Canonical)
    {k : Ledger.Reply → Action Unit} (hk : ∀ reply, Keeps Ledger.Canonical (k reply)) :
    Keeps Ledger.Canonical (perform e op >>= k) := by
  refine Keeps.bind (fun s hs => ?_) hk
  have hstep := hs.step e.now hop
  rw [Ledger.step] at hstep
  rw [on_perform]
  cases hperform : s.ledger.perform e.now op with
  | error cause => exact hs
  | ok done =>
    rw [hperform] at hstep
    exact hstep

lemma keeps_change {op : Ledger.Operation} (hop : op.Canonical) {k : Bool → Action Unit}
    (hk : ∀ yes, Keeps Ledger.Canonical (k yes)) : Keeps Ledger.Canonical (change e op >>= k) := by
  rw [change, bind_assoc]
  exact keeps_perform hop fun reply => hk _

lemma keeps_register (abis : List String) : Keeps Ledger.Canonical (register e abis) := by
  induction abis with
  | nil => exact keeps_pure _
  | cons abi abis ih =>
    refine keeps_change (fun _ _ hop => by cases hop) fun yes => ?_
    split
    · exact (keeps_of_onlyPrints (onlyPrints_emit e _)).bind fun _ => ih
    · exact ih

/-- A command about a package with a canonical name, or about none, brings no other names. -/
theorem keeps_execute {command : Command}
    (hcommand : ∀ name, command.package? = some name → IsCanonical name) :
    Keeps Ledger.Canonical (execute e command) := by
  have hdone {op : Ledger.Operation} (hop : op.Canonical) :
      Keeps Ledger.Canonical (do let _ ← perform e op) := keeps_perform hop fun _ => keeps_pure _
  cases command with
  | init => exact keeps_register _
  | addAbi abi => exact hdone fun _ _ hop => by cases hop
  | removeAbi abi => exact hdone fun _ _ hop => by cases hop
  | listAbis => exact keeps_get.bind fun s => keeps_of_onlyPrints (onlyPrints_emitAll e _)
  | addPackage package skip =>
    refine keeps_change (fun _ _ hop => ?_) fun yes =>
      keeps_of_onlyPrints (onlyPrints_ite e yes _ _)
    cases hop
    exact hcommand package rfl
  | skipPackage package reason => exact hdone fun _ _ hop => by cases hop
  | addVersion package version released skip =>
    exact keeps_change (fun _ _ hop => by cases hop) fun yes =>
      keeps_of_onlyPrints (onlyPrints_ite e yes _ _)
  | skipVersion package version reason => exact hdone fun _ _ hop => by cases hop
  | forgetVersion package version =>
    refine keeps_perform (fun _ _ hop => by cases hop) fun reply => ?_
    split
    · exact keeps_of_onlyPrints (onlyPrints_emit e _)
    · exact keeps_pure _
  | showSerial => exact (keeps_query _).bind fun _ => keeps_of_onlyPrints (onlyPrints_emit e _)
  | setSerial serial => exact hdone fun _ _ hop => by cases hop
  | listTargets => exact keeps_get.bind fun s => keeps_of_onlyPrints (onlyPrints_emitAll e _)
  | commit path =>
    refine (keeps_readReport path).bind fun r =>
      keeps_perform (fun _ _ hop => by cases hop) fun reply => ?_
    split
    · exact keeps_of_onlyPrints (onlyPrints_emit e _)
    · exact keeps_pure _
  | showStatistics =>
    exact (keeps_query _).bind fun _ => keeps_of_onlyPrints (onlyPrints_emitAll e _)

end Commands

section Hosts

/-- Entering a command line: the arguments are read, and the command they ask for is run. -/
def enter (h : Host) (c : Circumstances) (arguments : List String) :
    Host × Except UsageError Outcome :=
  match parseArguments h arguments with
  | .error why => (h, .error why)
  | .ok i => ((run h c i).1, .ok (run h c i).2)

/-- The hosts that command lines lead to where there was no ledger. In the meantime files and
settings may change, and ledgers may be moved or removed. -/
inductive Reached : Host → Prop
  | start {h : Host} (fresh : ∀ path l, h.node? path ≠ some (.ledger l)) : Reached h
  | enter {h : Host} (before : Reached h) (c : Circumstances) (arguments : List String) :
      Reached (enter h c arguments).1
  | meanwhile {h h' : Host} (before : Reached h) (kept : ∀ path l,
      h'.node? path = some (.ledger l) → ∃ q, h.node? q = some (.ledger l)) : Reached h'

/-- A host on which every ledger knows canonical names only. -/
def Named (h : Host) : Prop := ∀ path, Ledger.Canonical (h.stored path)

variable {h h' : Host} {location : String} {l : Ledger}

lemma named_iff : Named h ↔ ∀ path l, h.node? path = some (.ledger l) → Ledger.Canonical l := by
  constructor
  · intro hn path l hl
    exact (stored_of_node? hl ▸ hn path :)
  · intro hn path
    rw [stored]
    split
    · next n hnode =>
      cases n with
      | ledger l => exact hn path l hnode
      | directory => exact Ledger.canonical_fresh
      | text contents => exact Ledger.canonical_fresh
    · exact Ledger.canonical_fresh

lemma Named.keep (h₀ : Named h) (location : String) (hl : Ledger.Canonical l) :
    Named (keep h location l) := by
  intro q
  rw [Execution.keep]
  split_ifs
  · exact h₀ q
  · rw [stored, node?_put]
    split_ifs
    · exact Ledger.canonical_fresh
    · exact hl
    · exact h₀ q

lemma Named.openLedger (h₀ : Named h) (location : String) :
    Named (openLedger h location).1 := fun q => by
  rw [stored_openLedger]
  exact h₀ q

lemma opened_cases (ho : openLedger h location = (h', .ok l)) :
    l = {} ∨ ∃ path, l = h.stored path := by
  have hstored := stored_openLedger h location
  rw [ho] at hstored
  rw [openLedger] at ho
  split_ifs at ho
  · cases ho
    exact .inl rfl
  · split at ho
    · cases ho
    · split at ho <;> cases ho
      next hl => exact .inr ⟨_, (stored_of_ledgerAt hl).symm.trans (hstored _)⟩

lemma Named.opened (h₀ : Named h) (ho : Execution.openLedger h location = (h', .ok l)) :
    Ledger.Canonical l := by
  rcases opened_cases ho with rfl | ⟨path, rfl⟩
  · exact Ledger.canonical_fresh
  · exact h₀ path

/-- Running a command about a package with a canonical name, or about none, brings no other name. -/
theorem Named.run (h₀ : Named h) (c : Circumstances) {i : Invocation} (hi : NamesCanonically i) :
    Named (run h c i).1 := by
  cases hc : configure h i with
  | error cause =>
    rw [Execution.run, hc]
    exact h₀
  | ok found =>
    obtain ⟨config, location⟩ := found
    have h₁ := h₀.openLedger location
    rcases ho : Execution.openLedger h location with ⟨h', why | l⟩ <;> rw [ho] at h₁
    · rw [run_of_unopened hc ho]
      exact h₁
    · rw [run_of_opened hc ho]
      exact h₁.keep location (keeps_execute hi _ (h₀.opened ho))

theorem named_of_reached (hr : Reached h) : Named h := by
  induction hr with
  | start fresh => exact named_iff.mpr fun path l hl => absurd hl (fresh path l)
  | @enter h _ c arguments ih =>
    rw [enter]
    split
    · exact ih
    · next hi => exact ih.run c (namesCanonically_of_parse hi)
  | meanwhile _ kept ih =>
    refine named_iff.mpr fun path l hl => ?_
    obtain ⟨q, hq⟩ := kept path l hl
    exact named_iff.mp ih q l hq

end Hosts

section Targets

lemma on_emitAll (e : Setting) (lines : List String) (s : Session) : (emitAll e lines).on s =
    if e.canPrint then (.ok (), { s with printed := lines.reverse ++ s.printed })
    else match lines with
      | [] => (.ok (), s)
      | _ :: _ => (.error .output, s) := by
  induction lines generalizing s with
  | nil => cases e.canPrint <;> rfl
  | cons line lines ih =>
    rw [emitAll, on_bind, on_emit]
    cases hprint : e.canPrint with
    | true => simp [ih, hprint]
    | false => rfl

lemma output_of_listTargets (h : Host) (c : Circumstances) {i : Invocation}
    (hi : i.command = .listTargets) : ∃ ts, (ts = [] ∨ ∃ path, ts = (h.stored path).targets) ∧
      (run h c i).2.output = String.join (ts.map fun t => targetLine t ++ "\n") := by
  cases hc : configure h i with
  | error cause =>
    refine ⟨[], .inl rfl, ?_⟩
    rw [run, hc]
    rfl
  | ok found =>
    obtain ⟨config, location⟩ := found
    rcases ho : openLedger h location with ⟨h', why | l⟩
    · refine ⟨[], .inl rfl, ?_⟩
      rw [run_of_unopened hc ho]
      rfl
    · have hts : l.targets = [] ∨ ∃ path, l.targets = (h.stored path).targets := by
        rcases opened_cases ho with rfl | ⟨path, rfl⟩
        · exact .inl rfl
        · exact .inr ⟨path, rfl⟩
      have hexecute (e : Setting) : (execute e i.command).on { ledger := l } =
          (emitAll e (l.targets.map targetLine)).on { ledger := l } := by
        rw [hi]
        rfl
      rw [run_of_opened hc ho, hexecute, on_emitAll]
      cases (settingOn h' config c).canPrint with
      | true =>
        refine ⟨l.targets, hts, ?_⟩
        simp [outcomeOf, Function.comp_def]
      | false =>
        refine ⟨[], .inl rfl, ?_⟩
        cases l.targets <;> rfl

end Targets

/-- Where there was no ledger, command lines make none that knows a name that is not canonical, and
so none with two packages of one canonical name; nor are there others in the lines of the targets.
A command about a package is told it by an argument, and any spelling of the name that is taken for
the package in its place does the same. -/
theorem reached_names {h : Host} (hr : Reached h) :
    (∀ path l, h.node? path = some (.ledger l) →
      (∀ p ∈ l.packages, IsCanonical p.name) ∧ (∀ v ∈ l.versions, IsCanonical v.package) ∧
      (∀ b ∈ l.builds, IsCanonical b.package) ∧
      ∀ p ∈ l.packages, ∀ q ∈ l.packages, canonicalize p.name = canonicalize q.name → p = q) ∧
    (∀ c i, i.command = .listTargets → ∃ ts : List Target,
      (ts = [] ∨ ∃ path, ts = (h.stored path).targets) ∧ (∀ t ∈ ts, IsCanonical t.package) ∧
        (run h c i).2.output = String.join (ts.map fun t => targetLine t ++ "\n")) ∧
    (∀ arguments i package, parseArguments h arguments = .ok i →
      i.command.package? = some package → ∃ before name after,
        arguments = before ++ name :: after ∧ isPackage before name = true ∧
          canonicalize name = package) ∧
    ∀ c before name other after, isPackage before name = true → isPackage before other = true →
      canonicalize name = canonicalize other →
      enter h c (before ++ name :: after) = enter h c (before ++ other :: after) := by
  have hn := named_of_reached hr
  refine ⟨fun path l hl => ?stored, fun c i hi => ?targets,
    fun arguments i package hi hpackage => exists_argument_of_parse hi hpackage,
    fun c before name other after hname hother he => ?spelling⟩
  case stored =>
    have hl := named_iff.mp hn path l hl
    exact ⟨hl.package, hl.version, hl.build, fun p hp q hq => hl.eq_of_canonicalize_eq hp hq⟩
  case targets =>
    obtain ⟨ts, hts, houtput⟩ := output_of_listTargets h c hi
    refine ⟨ts, hts, fun t ht => ?_, houtput⟩
    rcases hts with rfl | ⟨path, rfl⟩
    · cases ht
    · exact (hn path).target t ht
  case spelling =>
    rw [enter, enter, parseArguments, parseArguments, parse_spelling hname hother he]

/-- A host without a ledger. -/
def bareHost : Host := { environment := [("WHEELHOUSE_DATABASE__PATH", "wheels.db")] }

lemma reached_bareHost : Reached bareHost := by
  refine .start fun path l hl => ?_
  have hnone : bareHost.entries.find? path = none := rfl
  rw [node?, hnone] at hl
  split_ifs at hl <;> cases hl

/-- A package is added under one spelling of its name and skipped under others. -/
theorem reached_names_bareHost :
    let h := (enter bareHost { now := 0 } ["package", "add", "Foo_Bar"]).1
    Reached h ∧
      (∃ l, h.node? "/wheels.db" = some (.ledger l) ∧
        l.packages.rows.map (·.name) = ["foo-bar"] ∧ ∀ p ∈ l.packages, IsCanonical p.name) ∧
      enter h { now := 60 } ["package", "skip", "foo.bar", "old"] =
        enter h { now := 60 } ["package", "skip", "FOO--BAR", "old"] := by
  intro h
  have hr : Reached h := reached_bareHost.enter _ _
  have hspelling := (reached_names hr).2.2.2 { now := 60 } ["package", "skip"] "foo.bar" "FOO--BAR"
    ["old"] (by decide +kernel) (by decide +kernel) (by decide +kernel)
  obtain ⟨l, hl, hrows⟩ : ∃ l, h.node? "/wheels.db" = some (.ledger l) ∧
      l.packages.rows.map (·.name) = ["foo-bar"] :=
    ⟨Ledger.run {} [(0, .addPackage "foo-bar" none)], by decide +kernel, by decide +kernel⟩
  exact ⟨hr, ⟨l, hl, hrows, ((reached_names hr).1 _ l hl).1⟩, hspelling⟩

/-- A spelling that begins with a hyphen is no package's name but an option, and an unknown one. -/
theorem spelling_with_hyphen : Reached bareHost ∧ canonicalize "_foo" = canonicalize "-foo" ∧
    (enter bareHost { now := 0 } ["package", "add", "_foo"]).2.toOption =
      some { output := "added -foo\n" } ∧
    (enter bareHost { now := 0 } ["package", "add", "-foo"]).2.toOption = none :=
  ⟨reached_bareHost, by decide +kernel, by decide +kernel, by decide +kernel⟩

end WheelFarm.Execution
