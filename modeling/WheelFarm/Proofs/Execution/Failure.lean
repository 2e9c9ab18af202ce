import WheelFarm.Execution.Run
import WheelFarm.Proofs.Config.Validation
import WheelFarm.Proofs.Except
import WheelFarm.Proofs.Execution.Session

/-! Commands that fail. What fails before it prints leaves every stored ledger as it was, and what
fails for its output leaves the ledger that it leaves when output works. -/
namespace WheelFarm

namespace Host

/-- The ledger that a node holds; one that holds none stands for a fresh one. -/
def Node.toLedger : Node → Ledger
  | .ledger l => l
  | .directory | .text _ => {}

/-- The ledger that is stored under a path from the root, a fresh one where none is. -/
def stored (h : Host) (path : String) : Ledger :=
  match h.node? path with
  | some n => n.toLedger
  | none => {}

variable {h h' : Host} {path : String} {n : Node}

theorem stored_of_node? (hn : h.node? path = some n) : h.stored path = n.toLedger := by
  rw [stored, hn]

theorem stored_of_none (hn : h.node? path = none) : h.stored path = {} := by
  rw [stored, hn]

theorem node?_put (h : Host) (path q : String) (n : Node) :
    (h.put path n).node? q =
      if q = "/" then some .directory else if path = q then some n else h.node? q := by
  rw [node?, node?, put, Table.find?_put]
  split_ifs <;> first | rfl | simp_all [Keyed.key]

/-- Putting a ledger where it is stored already changes no stored ledger. -/
theorem stored_put_self (hn : n.toLedger = h.stored path) (q : String) :
    (h.put path n).stored q = h.stored q := by
  rw [stored, node?_put]
  split_ifs with hroot hpath
  · rw [hroot]
    rfl
  · rw [← hpath, ← hn]
  · rfl

/-- Directories are made where nothing lies. -/
theorem stored_makeDirectories {steps : List (List Char)}
    (hmade : h.makeDirectories? steps = some h') (q : String) : h'.stored q = h.stored q := by
  induction steps generalizing h' with
  | nil =>
    cases hmade
    rfl
  | cons step steps ih =>
    obtain ⟨m, hm, hmade⟩ := Option.bind_eq_some_iff.mp hmade
    dsimp only at hmade
    split at hmade
    · next hfree =>
      cases hmade
      rw [stored_put_self (n := .directory) (stored_of_none hfree).symm, ih hm]
    · cases hmade
      exact ih hm
    · cases hmade

end Host

namespace Execution
open Host CommandLine

variable {h h' : Host} {location : String} {l : Ledger}

/-- A ledger that is opened is the one that is stored. -/
theorem stored_of_ledgerAt (hl : ledgerAt h location = .ok l) :
    h.stored (h.resolve location) = l := by
  rw [ledgerAt] at hl
  split at hl
  · next hnone =>
    split_ifs at hl
    cases hl
    exact stored_of_none hnone
  · next hn =>
    cases hl
    exact stored_of_node? hn
  · next hn =>
    split_ifs at hl
    cases hl
    exact stored_of_node? hn
  · cases hl

/-- Opening a ledger changes none that is stored. -/
theorem stored_openLedger (h : Host) (location q : String) :
    (openLedger h location).1.stored q = h.stored q := by
  rw [openLedger]
  split_ifs
  · rfl
  · split
    · rfl
    · next hmade =>
      split <;> exact stored_makeDirectories hmade q

/-- A ledger that is kept as it was opened is stored already. -/
theorem stored_keep_of_opened (hopen : openLedger h location = (h', .ok l)) (q : String) :
    (keep h' location l).stored q = h'.stored q := by
  rw [openLedger] at hopen
  rw [keep]
  split_ifs at hopen ⊢
  · rfl
  · split at hopen
    · cases hopen
    · split at hopen
      · next hl =>
        cases hopen
        exact stored_put_self (n := .ledger l) (stored_of_ledgerAt hl).symm q
      · cases hopen

lemma ofSettings_free {settings : Config.Settings} {config : Config}
    (hc : Config.ofSettings settings = .ok config) :
    ∀ abi ∈ config.abis, Ledger.isReserved abi = false := by
  unfold Config.ofSettings at hc
  split at hc
  · cases hc
  · split at hc <;> cases hc
    next hvalid => exact (Config.abis_of_validate hvalid).2

/-- The ABIs of a configuration that is accepted may all be registered. -/
theorem abis_of_configure {i : Invocation} {config : Config}
    (hc : configure h i = .ok (config, location)) :
    ∀ abi ∈ config.abis, Ledger.isReserved abi = false := by
  obtain ⟨config, hload, hc⟩ := bind_eq_ok hc
  obtain ⟨location, -, hc⟩ := bind_eq_ok hc
  cases hc
  unfold Config.load at hload
  split at hload
  · obtain ⟨below, -, hload⟩ := bind_eq_ok hload
    exact ofSettings_free hload
  · exact ofSettings_free hload

lemma openLedger_error {x : ExecutionError} (ho : openLedger h location = (h', .error x)) :
    x ≠ .output := by
  rw [openLedger] at ho
  split_ifs at ho
  · cases ho
  · split at ho
    · cases ho
      simp
    · split at ho <;> cases ho
      simp

/-- The setting of a command on a host. -/
def settingOn (h : Host) (config : Config) (c : Circumstances) : Setting :=
  { config, now := c.now, canPrint := c.canPrint, report := reportText h c }

/-- What is seen of a command that has been carried out. -/
def outcomeOf (done : Except ExecutionError Unit × Session) : Outcome :=
  { output := String.join (done.2.printed.reverse.map (· ++ "\n"))
    error := match done.1 with
      | .ok () => none
      | .error x => some x }

lemma error_of_outcomeOf {done : Except ExecutionError Unit × Session} {x : ExecutionError}
    (h : (outcomeOf done).error = some x) : done.1 = .error x := by
  obtain ⟨⟨y⟩ | ⟨⟩, s⟩ := done
  · cases h
    rfl
  · cases h

theorem run_of_opened {c : Circumstances} {i : Invocation} {config : Config}
    (hc : configure h i = .ok (config, location)) (ho : openLedger h location = (h', .ok l)) :
    run h c i =
      (keep h' location
        ((execute (settingOn h' config c) i.command).on { ledger := l }).2.ledger,
        outcomeOf ((execute (settingOn h' config c) i.command).on { ledger := l })) := by
  rw [run, hc]
  dsimp only
  rw [ho]
  rfl

theorem run_of_unopened {c : Circumstances} {i : Invocation} {config : Config} {x : ExecutionError}
    (hc : configure h i = .ok (config, location)) (ho : openLedger h location = (h', .error x)) :
    run h c i = (h', { error := some x }) := by
  rw [run, hc]
  dsimp only
  rw [ho]

/-- A command that fails on an opened ledger has left it as it was, or cannot print what it did. -/
theorem execute_error {e : Setting} {command : Command} {s : Session} {x : ExecutionError}
    (habis : ∀ abi ∈ e.config.abis, Ledger.isReserved abi = false)
    (hx : ((execute e command).on s).1 = .error x) :
    (x ≠ .output ∧ ((execute e command).on s).2 = s) ∨ (x = .output ∧ e.canPrint = false) := by
  by_cases hinit : command = .init
  · subst hinit
    exact .inr (error_of_register habis hx)
  · have he : e.printing e.canPrint = e := rfl
    cases ends_execute e hinit s with
    | refused y other result =>
      have hrun := he ▸ result e.canPrint
      rw [hrun] at hx ⊢
      cases hx
      exact .inl ⟨other, rfl⟩
    | done m ledger error => exact .inr (error e.canPrint x hx)

/-- Whether a command can print does not matter to the ledger that it leaves. -/
theorem ledger_of_printing {e : Setting} {command : Command} (hother : command ≠ .init)
    (s : Session) (canPrint : Bool) :
    ((execute (e.printing canPrint) command).on s).2.ledger = ((execute e command).on s).2.ledger := by
  have he : e.printing e.canPrint = e := rfl
  cases ends_execute e hother s with
  | refused y _ result => rw [result, ← he, result]
  | done m ledger _ => rw [ledger, ← he, ledger]

/-- A command that fails for anything but its output leaves every stored ledger as it was. One that
fails for its output could not print, and leaves the host as it would if it could, unless it is the
one that registers the configured ABIs. Only failing storage is worth another try. -/
theorem failed_run (h : Host) (c : Circumstances) (i : Invocation) {x : ExecutionError}
    (hx : (run h c i).2.error = some x) :
    (x ≠ .output → ∀ path, (run h c i).1.stored path = h.stored path) ∧
    (x = .output → c.canPrint = false ∧
      (i.command ≠ .init → (run h c i).1 = (run h { c with canPrint := true } i).1)) ∧
    (x.isRetryable = true ↔ x = .ledger .storage) := by
  have hretry : x.isRetryable = true ↔ x = .ledger .storage := by
    cases x with
    | ledger cause => cases cause <;> simp [ExecutionError.isRetryable, LedgerError.isRetryable]
    | _ => simp [ExecutionError.isRetryable]
  suffices hmain : (x ≠ .output ∧ ∀ path, (run h c i).1.stored path = h.stored path) ∨
      (x = .output ∧ c.canPrint = false ∧
        (i.command ≠ .init → (run h c i).1 = (run h { c with canPrint := true } i).1)) by
    rcases hmain with ⟨hne, hkept⟩ | ⟨rfl, hrest⟩
    · exact ⟨fun _ => hkept, fun he => absurd he hne, hretry⟩
    · exact ⟨fun hne => absurd rfl hne, fun _ => hrest, hretry⟩
  cases hc : configure h i with
  | error cause =>
    rw [run, hc] at hx ⊢
    cases hx
    exact .inl ⟨by simp, fun _ => rfl⟩
  | ok found =>
    obtain ⟨config, location⟩ := found
    have hopened := stored_openLedger h location
    rcases ho : openLedger h location with ⟨h', y | l⟩
    · have hrun : run h c i = (h', { error := some y }) := by
        rw [run, hc]
        dsimp only
        rw [ho]
      rw [ho] at hopened
      rw [hrun] at hx ⊢
      cases hx
      exact .inl ⟨openLedger_error ho, hopened⟩
    · rw [run_of_opened hc ho] at hx ⊢
      rw [ho] at hopened
      rcases execute_error (abis_of_configure hc) (error_of_outcomeOf hx) with ⟨hne, hs⟩ | ⟨rfl, hprint⟩
      · refine .inl ⟨hne, fun path => ?_⟩
        rw [hs]
        exact (stored_keep_of_opened ho path).trans (hopened path)
      · refine .inr ⟨rfl, hprint, fun hother => ?_⟩
        rw [run_of_opened hc ho]
        exact congrArg (keep h' location) (ledger_of_printing hother _ true).symm

/-- A host with a ledger of one package. -/
def sampleHost : Host where
  environment := [("WHEELHOUSE_DATABASE__PATH", "wheels.db")]
  entries := .ofList [⟨"/wheels.db", .ledger (Ledger.run {} [(0, .addPackage "six" none)])⟩]

def addGhost : Invocation := { command := .addVersion "ghost" "1.0" none none }

def addAttrs : Invocation := { command := .addPackage "attrs" none }

/-- A version of an unknown package is refused, and a package is added that cannot be told of. -/
theorem failed_on_sampleHost :
    (run sampleHost { now := 60 } addGhost).2.error = some (.ledger (.packageNotFound "ghost")) ∧
    (run sampleHost { now := 60, canPrint := false } addAttrs).2.error = some .output ∧
    (∀ path, (run sampleHost { now := 60 } addGhost).1.stored path = sampleHost.stored path) ∧
    addAttrs.command ≠ .init ∧
    (run sampleHost { now := 60, canPrint := false } addAttrs).1 =
      (run sampleHost { now := 60, canPrint := true } addAttrs).1 := by
  have hrefused : (run sampleHost { now := 60 } addGhost).2.error =
      some (.ledger (.packageNotFound "ghost")) := by decide +kernel
  have hsilent : (run sampleHost { now := 60, canPrint := false } addAttrs).2.error =
      some .output := by decide +kernel
  have hother : addAttrs.command ≠ .init := by decide
  exact ⟨hrefused, hsilent, (failed_run _ _ _ hrefused).1 (by decide), hother,
    ((failed_run _ _ _ hsilent).2.1 rfl).2 hother⟩

end Execution
end WheelFarm
