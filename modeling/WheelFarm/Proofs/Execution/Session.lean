import Mathlib.Tactic.Lemma
import Mathlib.Tactic.SplitIfs
import WheelFarm.Config.Load
import WheelFarm.Execution.Session
import WheelFarm.Proofs.Ledger.Integrity

/-! How commands end. Registering the configured ABIs apart, a command either is refused before it
has done anything, or does one thing to the ledger and then only prints; whether it can print
decides what it prints and nothing else. -/
namespace WheelFarm.Execution
open CommandLine

/-- What an action comes to in a session. -/
def Action.on {α : Type} (a : Action α) (s : Session) : Except ExecutionError α × Session :=
  a.run.run s

/-- The setting with an output that can be written to, or with one that cannot. -/
def Setting.printing (e : Setting) (canPrint : Bool) : Setting := { e with canPrint }

variable {α β : Type} {e : Setting} {s t : Session}

section Runs

@[simp] theorem on_pure (a : α) (s : Session) : Action.on (pure a) s = (.ok a, s) := rfl

@[simp] theorem on_throw (x : ExecutionError) (s : Session) :
    Action.on (throw x : Action α) s = (.error x, s) := rfl

@[simp] theorem on_get (s : Session) : Action.on get s = (.ok s, s) := rfl

@[simp] theorem on_modify (f : Session → Session) (s : Session) :
    Action.on (modify f) s = (.ok ⟨⟩, f s) := rfl

theorem on_bind (a : Action α) (k : α → Action β) (s : Session) :
    (a >>= k).on s = match a.on s with
      | (.ok x, t) => (k x).on t
      | (.error x, t) => (.error x, t) := by
  simp only [Action.on, ExceptT.run_bind, StateT.run_bind]
  rcases a.run.run s with ⟨x | x, t⟩ <;> rfl

theorem on_emit (e : Setting) (line : String) (s : Session) :
    (emit e line).on s = if e.canPrint then (.ok (), { s with printed := line :: s.printed })
      else (.error .output, s) := by
  rw [emit]
  split <;> rfl

theorem on_query (read : Ledger → Except LedgerError α) (s : Session) :
    (query read).on s = match read s.ledger with
      | .ok a => (.ok a, s)
      | .error cause => (.error (.ledger cause), s) := by
  rw [query, on_bind]
  simp only [on_get]
  cases read s.ledger <;> rfl

theorem on_perform (e : Setting) (op : Ledger.Operation) (s : Session) :
    (perform e op).on s = match s.ledger.perform e.now op with
      | .ok (reply, ledger) => (.ok reply, { s with ledger })
      | .error cause => (.error (.ledger cause), s) := by
  rw [perform, on_bind, on_query]
  cases s.ledger.perform e.now op <;> rfl

end Runs

section Printing

/-- An action that keeps the ledger, and fails only where output cannot be written to. -/
structure OnlyPrints (e : Setting) (a : Action Unit) : Prop where
  ledger : ∀ s, (a.on s).2.ledger = s.ledger
  error : ∀ s x, (a.on s).1 = .error x → x = .output ∧ e.canPrint = false

theorem onlyPrints_pure (e : Setting) : OnlyPrints e (pure ()) where
  ledger _ := rfl
  error s x hx := by cases hx

theorem onlyPrints_emit (e : Setting) (line : String) : OnlyPrints e (emit e line) where
  ledger s := by
    rw [on_emit]
    split <;> rfl
  error s x hx := by
    rw [on_emit] at hx
    split_ifs at hx with hprint
    cases hx
    exact ⟨rfl, Bool.eq_false_iff.mpr hprint⟩

theorem OnlyPrints.bind {a b : Action Unit} (ha : OnlyPrints e a) (hb : OnlyPrints e b) :
    OnlyPrints e (do a; b) where
  ledger s := by
    have hledger := ha.ledger s
    rw [on_bind]
    split
    · next hrun =>
      rw [hrun] at hledger
      exact (hb.ledger _).trans hledger
    · next hrun => rwa [hrun] at hledger
  error s x hx := by
    have herror := ha.error s
    rw [on_bind] at hx
    split at hx
    · exact hb.error _ x hx
    · next hrun =>
      rw [hrun] at herror
      exact herror x hx

theorem onlyPrints_emitAll (e : Setting) (lines : List String) : OnlyPrints e (emitAll e lines) := by
  induction lines with
  | nil => exact onlyPrints_pure e
  | cons line lines ih => exact (onlyPrints_emit e line).bind ih

end Printing

section Commands

/-- How an action ends that may be carried out with output or without. -/
inductive Ends (e : Setting) (a : Setting → Action Unit) (s : Session) : Prop
  /-- Refused before anything was done. -/
  | refused (x : ExecutionError) (other : x ≠ .output)
      (result : ∀ canPrint, (a (e.printing canPrint)).on s = (.error x, s))
  /-- Done, after which at most printing went wrong. -/
  | done (l : Ledger) (ledger : ∀ canPrint, ((a (e.printing canPrint)).on s).2.ledger = l)
      (error : ∀ canPrint x, ((a (e.printing canPrint)).on s).1 = .error x →
        x = .output ∧ canPrint = false)

theorem ends_of_onlyPrints {a : Setting → Action Unit} (h : ∀ e, OnlyPrints e (a e))
    (e : Setting) (s : Session) : Ends e a s :=
  .done s.ledger (fun canPrint => (h (e.printing canPrint)).ledger s)
    fun canPrint x hx => (h (e.printing canPrint)).error s x hx

/-- A command that goes on with what it has read, be it read from the ledger or from a file. -/
theorem ends_bind_of_read {a : Setting → Action α} {k : α → Setting → Action Unit}
    {r : Except ExecutionError α} (hread : ∀ canPrint, (a (e.printing canPrint)).on s = (r, s))
    (hother : r ≠ .error .output) (h : ∀ x, Ends e (k x) s) :
    Ends e (fun e => a e >>= fun x => k x e) s := by
  cases r with
  | error x =>
    refine .refused x (fun hx => hother (hx ▸ rfl)) fun canPrint => ?_
    rw [on_bind, hread]
  | ok x =>
    have hon (canPrint : Bool) : (a (e.printing canPrint) >>= fun x => k x (e.printing canPrint)).on s =
        (k x (e.printing canPrint)).on s := by
      rw [on_bind, hread]
    cases h x with
    | refused y other r =>
      exact .refused y other fun canPrint => (hon canPrint).trans (r canPrint)
    | done l ledger error =>
      exact .done l (fun canPrint => hon canPrint ▸ ledger canPrint)
        fun canPrint => hon canPrint ▸ error canPrint

theorem ends_query {f : Setting → Ledger → Except LedgerError α}
    (hread : ∀ canPrint, f (e.printing canPrint) = f e) {k : α → Setting → Action Unit}
    (h : ∀ x, Ends e (k x) s) : Ends e (fun e => query (f e) >>= fun x => k x e) s := by
  refine ends_bind_of_read (r := (f e s.ledger).mapError .ledger) (fun canPrint => ?_) ?_ h
  · rw [on_query, hread]
    cases f e s.ledger <;> rfl
  · cases f e s.ledger <;> simp [Except.mapError]

theorem ends_readReport (path : String) {k : BuildReport → Setting → Action Unit}
    (h : ∀ r, Ends e (k r) s) : Ends e (fun e => readReport e path >>= fun r => k r e) s := by
  have hread : ∃ result : Except ExecutionError BuildReport,
      (∀ canPrint, (readReport (e.printing canPrint) path).on s = (result, s)) ∧
        result ≠ .error .output := by
    simp only [readReport, Setting.printing]
    split
    · next r _ => exact ⟨.ok r, fun _ => rfl, by simp⟩
    · exact ⟨.error (.report path), fun _ => rfl, by simp⟩
  obtain ⟨result, hread, hother⟩ := hread
  exact ends_bind_of_read hread hother h

/-- A command that performs one operation and then only prints. -/
theorem ends_perform {op : Ledger.Operation} {k : Ledger.Reply → Setting → Action Unit}
    (h : ∀ reply e, OnlyPrints e (k reply e)) (e : Setting) (s : Session) :
    Ends e (fun e => perform e op >>= fun reply => k reply e) s := by
  cases hperform : s.ledger.perform e.now op with
  | error cause =>
    refine .refused (.ledger cause) (by simp) fun canPrint => ?_
    rw [on_bind, on_perform, Setting.printing, hperform]
  | ok done =>
    obtain ⟨reply, ledger⟩ := done
    have hon (canPrint : Bool) :
        (perform (e.printing canPrint) op >>= fun reply => k reply (e.printing canPrint)).on s =
          (k reply (e.printing canPrint)).on { s with ledger } := by
      rw [on_bind, on_perform, Setting.printing, hperform]
    exact .done ledger (fun canPrint => hon canPrint ▸ (h reply _).ledger _)
      fun canPrint => hon canPrint ▸ (h reply _).error _

theorem ends_change {op : Ledger.Operation} {k : Bool → Setting → Action Unit}
    (h : ∀ yes e, OnlyPrints e (k yes e)) (e : Setting) (s : Session) :
    Ends e (fun e => change e op >>= fun yes => k yes e) s := by
  have hends : Ends e (fun e => perform e op >>= fun reply => k (reply = .changed true) e) s :=
    ends_perform (fun reply => h (reply = .changed true)) e s
  simpa only [change, bind_assoc, pure_bind] using hends

theorem onlyPrints_ite (e : Setting) (yes : Bool) (line other : String) :
    OnlyPrints e (if yes then emit e line else emit e other) := by
  split
  · exact onlyPrints_emit e line
  · exact onlyPrints_emit e other

/-- Every command but the one that registers the configured ABIs ends in one of the two ways. -/
theorem ends_execute (e : Setting) {command : Command} (hother : command ≠ .init) (s : Session) :
    Ends e (execute · command) s := by
  cases command with
  | init => exact absurd rfl hother
  | addAbi abi => exact ends_perform (fun _ e => onlyPrints_pure e) e s
  | removeAbi abi => exact ends_perform (fun _ e => onlyPrints_pure e) e s
  | listAbis =>
    refine ends_bind_of_read (fun _ => on_get s) (by simp) fun t => ?_
    exact ends_of_onlyPrints (fun e => onlyPrints_emitAll e t.ledger.abis.rows) e s
  | addPackage package skip => exact ends_change (fun yes e => onlyPrints_ite e yes _ _) e s
  | skipPackage package reason => exact ends_perform (fun _ e => onlyPrints_pure e) e s
  | addVersion package version released skip =>
    exact ends_change (fun yes e => onlyPrints_ite e yes _ _) e s
  | skipVersion package version reason => exact ends_perform (fun _ e => onlyPrints_pure e) e s
  | forgetVersion package version =>
    refine ends_perform (fun reply e => ?_) e s
    split
    · exact onlyPrints_emit e _
    · exact onlyPrints_pure e
  | showSerial =>
    refine ends_query (fun _ => rfl) fun serial => ?_
    exact ends_of_onlyPrints (fun e => onlyPrints_emit e s!"{serial.toNat}") e s
  | setSerial serial => exact ends_perform (fun _ e => onlyPrints_pure e) e s
  | listTargets =>
    refine ends_bind_of_read (fun _ => on_get s) (by simp) fun t => ?_
    exact ends_of_onlyPrints (fun e => onlyPrints_emitAll e (t.ledger.targets.map targetLine)) e s
  | commit path =>
    refine ends_readReport path fun r => ends_perform (fun reply e => ?_) e s
    split
    · exact onlyPrints_emit e _
    · exact onlyPrints_pure e
  | showStatistics =>
    refine ends_query (f := fun e l => l.statistics e.now) (fun _ => rfl) fun statistics => ?_
    exact ends_of_onlyPrints (fun e => onlyPrints_emitAll e (statisticsLines statistics)) e s

end Commands

section Registering
open Ledger

/-- An ABI that may be registered is, unless it is registered already, and is told of if possible. -/
theorem on_register_cons {abi : String} (h : isReserved abi = false) (abis : List String)
    (s : Session) : (register e (abi :: abis)).on s =
      if s.ledger.abis.has abi then (register e abis).on s
      else
        let ledger := { s.ledger with abis := s.ledger.abis.put abi }
        if e.canPrint then
          (register e abis).on { ledger, printed := s!"registered {abi}" :: s.printed }
        else (.error .output, { s with ledger }) := by
  have hperform : s.ledger.perform e.now (.addAbi abi) =
      .ok (.changed (!s.ledger.abis.has abi), if s.ledger.abis.has abi then s.ledger
        else { s.ledger with abis := s.ledger.abis.put abi }) := by
    rw [Ledger.perform, addAbi_eq, h]
    cases s.ledger.abis.has abi <;> rfl
  rw [register, change, bind_assoc, on_bind, on_perform, hperform]
  cases s.ledger.abis.has abi with
  | true => rfl
  | false =>
    cases hprint : e.canPrint with
    | true => simp [on_bind, on_emit, hprint]
    | false => simp [on_bind, on_emit, hprint]

/-- Registering ABIs that may be registered fails only where output cannot be written to. -/
theorem error_of_register {abis : List String} (h : ∀ abi ∈ abis, isReserved abi = false)
    {s : Session} {x : ExecutionError} (hx : ((register e abis).on s).1 = .error x) :
    x = .output ∧ e.canPrint = false := by
  induction abis generalizing s with
  | nil => cases hx
  | cons abi abis ih =>
    obtain ⟨habi, habis⟩ := List.forall_mem_cons.mp h
    rw [on_register_cons habi] at hx
    dsimp only at hx
    split_ifs at hx with hknown hprint
    · exact ih habis hx
    · exact ih habis hx
    · cases hx
      exact ⟨rfl, Bool.eq_false_iff.mpr hprint⟩

end Registering

end WheelFarm.Execution
