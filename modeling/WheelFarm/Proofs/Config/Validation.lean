import Mathlib.Data.List.Nodup
import Mathlib.Data.List.Perm.Basic
import Mathlib.Tactic.Lemma
import Mathlib.Tactic.SplitIfs
import WheelFarm.Config
import WheelFarm.Proofs.Ledger.Integrity

/-! The check of the configured ABIs against the registry of ABIs. What the one accepts the other
registers one by one, and where the check objects the registry refuses the same ABI first. -/
namespace WheelFarm

namespace Ledger

/-- What the registry answers to each ABI when they are registered one after another: whether it is
new. An ABI that is refused leaves the ledger as it was. -/
def registrations (l : Ledger) : List String → List (Except LedgerError Bool)
  | [] => []
  | abi :: abis =>
    match l.addAbi abi with
    | .ok (isNew, l') => .ok isNew :: l'.registrations abis
    | .error e => .error e :: l.registrations abis

variable {l : Ledger} {abi : String}

theorem has_abis : l.abis.has abi = true ↔ abi ∈ l.abis := by
  rw [Table.has_iff]
  exact ⟨fun ⟨r, hr, he⟩ => he ▸ hr, fun h => ⟨abi, h, rfl⟩⟩

theorem mem_put_abis {x : String} : x ∈ l.abis.put abi ↔ x = abi ∨ x ∈ l.abis := by
  refine Table.mem_put.trans ⟨Or.imp_right And.left, fun h => ?_⟩
  by_cases he : x = abi
  · exact .inl he
  · exact .inr ⟨h.resolve_left he, he⟩

lemma registrations_of_reserved (h : isReserved abi = true) (abis : List String) :
    l.registrations (abi :: abis) = .error (.reservedAbi abi) :: l.registrations abis := by
  rw [registrations, addAbi_eq, h]
  rfl

lemma registrations_of_known (h : isReserved abi = false) (hknown : abi ∈ l.abis)
    (abis : List String) : l.registrations (abi :: abis) = .ok false :: l.registrations abis := by
  rw [registrations, addAbi_eq, h, if_pos (has_abis.mpr hknown)]
  rfl

lemma registrations_of_new (h : isReserved abi = false) (hnew : abi ∉ l.abis)
    (abis : List String) : l.registrations (abi :: abis) =
      .ok true :: registrations { l with abis := l.abis.put abi } abis := by
  rw [registrations, addAbi_eq, h, if_neg (has_abis.not.mpr hnew)]
  rfl

end Ledger

namespace Config
open Ledger

/-- The first ABI to which the registry does not answer that it is new, and its answer. -/
inductive FirstRefused :
    List String → List (Except LedgerError Bool) → String → Except LedgerError Bool → Prop
  | here {abi : String} {abis : List String} {answer : Except LedgerError Bool}
      {answers : List (Except LedgerError Bool)} (refused : answer ≠ .ok true) :
      FirstRefused (abi :: abis) (answer :: answers) abi answer
  | later {abi x : String} {abis : List String} {answer : Except LedgerError Bool}
      {answers : List (Except LedgerError Bool)} (rest : FirstRefused abis answers abi answer) :
      FirstRefused (x :: abis) (.ok true :: answers) abi answer

/-- The answer of the registry to an ABI that the check objects to. -/
inductive Objection.Mirrors : Objection → String → Except LedgerError Bool → Prop
  | empty : Mirrors .emptyAbi "" (.error (.reservedAbi ""))
  | universal : Mirrors .universalAbi "none" (.error (.reservedAbi "none"))
  | repeated (abi : String) : Mirrors (.repeatedAbi abi) abi (.ok false)

section Checks
variable {l : Ledger} {seen abis : List String} {abi : String} {why : Objection}
  {answer : Except LedgerError Bool}

lemma Objection.Mirrors.ne_new (h : why.Mirrors abi answer) : answer ≠ .ok true := by
  cases h <;> simp

lemma Objection.Mirrors.setting (h : why.Mirrors abi answer) : why.setting = "build.abis" := by
  cases h <;> rfl

lemma FirstRefused.exists_refused {answers : List (Except LedgerError Bool)}
    (h : FirstRefused abis answers abi answer) : ∃ a ∈ answers, a ≠ .ok true := by
  induction h with
  | here refused => exact ⟨_, List.mem_cons_self, refused⟩
  | later _ ih =>
    obtain ⟨a, ha, hne⟩ := ih
    exact ⟨a, List.mem_cons_of_mem _ ha, hne⟩

lemma checkAbis_of_reserved (h : isReserved abi = true) (seen abis : List String) :
    ∃ why : Objection, checkAbis seen (abi :: abis) = .error why ∧
      why.Mirrors abi (.error (.reservedAbi abi)) := by
  rw [checkAbis]
  split_ifs with hempty huniversal hseen
  · obtain rfl := String.isEmpty_iff.mp hempty
    exact ⟨.emptyAbi, rfl, .empty⟩
  · obtain rfl : abi = "none" := huniversal
    exact ⟨.universalAbi, rfl, .universal⟩
  all_goals simp [isReserved, hempty, huniversal] at h

lemma checkAbis_of_free (h : isReserved abi = false) (seen abis : List String) :
    checkAbis seen (abi :: abis) =
      if abi ∈ seen then .error (.repeatedAbi abi) else checkAbis (abi :: seen) abis := by
  obtain ⟨huniversal, hempty⟩ := Bool.or_eq_false_iff.mp h
  rw [checkAbis, if_neg (Bool.eq_false_iff.mp hempty), if_neg (beq_eq_false_iff_ne.mp huniversal)]

/-- ABIs are accepted if each of them is a build target and comes once. -/
theorem checkAbis_eq_ok_iff : checkAbis seen abis = .ok () ↔
    abis.Nodup ∧ ∀ abi ∈ abis, isReserved abi = false ∧ abi ∉ seen := by
  induction abis generalizing seen with
  | nil => simp [checkAbis]
  | cons abi abis ih =>
    rw [List.nodup_cons, List.forall_mem_cons]
    cases hreserved : isReserved abi with
    | true =>
      obtain ⟨why, hcheck, -⟩ := checkAbis_of_reserved hreserved seen abis
      simp [hcheck]
    | false =>
      rw [checkAbis_of_free hreserved]
      split_ifs with hseen
      · simp [hseen]
      rw [ih]
      constructor
      · rintro ⟨hnodup, h⟩
        refine ⟨⟨fun hmem => (h abi hmem).2 List.mem_cons_self, hnodup⟩, ⟨rfl, hseen⟩, ?_⟩
        exact fun x hx => ⟨(h x hx).1, fun hmem => (h x hx).2 (List.mem_cons_of_mem _ hmem)⟩
      · rintro ⟨⟨hnew, hnodup⟩, -, h⟩
        refine ⟨hnodup, fun x hx => ⟨(h x hx).1, fun hmem => ?_⟩⟩
        rcases List.mem_cons.mp hmem with rfl | hmem
        · exact hnew hx
        · exact (h x hx).2 hmem

lemma abis_of_validate {c : Config} (h : c.validate = .ok ()) :
    c.abis.Nodup ∧ ∀ abi ∈ c.abis, isReserved abi = false := by
  rw [validate] at h
  split_ifs at h
  obtain ⟨hnodup, hall⟩ := checkAbis_eq_ok_iff.mp h
  exact ⟨hnodup, fun abi habi => (hall abi habi).1⟩

lemma checkAbis_cases (h : ∀ x, x ∈ l.abis ↔ x ∈ seen) (abis : List String) :
    (checkAbis seen abis = .ok () ∧ ∀ a ∈ l.registrations abis, a = .ok true) ∨
    ∃ (why : Objection) (abi : String) (answer : Except LedgerError Bool),
      checkAbis seen abis = .error why ∧
        FirstRefused abis (l.registrations abis) abi answer ∧ why.Mirrors abi answer := by
  -- What the check has seen is what is registered when the registry comes to the same place.
  induction abis generalizing l seen with
  | nil => exact .inl ⟨rfl, by simp [registrations]⟩
  | cons abi abis ih =>
    cases hreserved : isReserved abi with
    | true =>
      obtain ⟨why, hcheck, hmirrors⟩ := checkAbis_of_reserved hreserved seen abis
      rw [registrations_of_reserved hreserved]
      exact .inr ⟨why, abi, _, hcheck, .here hmirrors.ne_new, hmirrors⟩
    | false =>
      rw [checkAbis_of_free hreserved]
      by_cases hseen : abi ∈ seen
      · rw [if_pos hseen, registrations_of_known hreserved ((h abi).mpr hseen)]
        exact .inr ⟨_, abi, _, rfl, .here (by simp), .repeated abi⟩
      · rw [if_neg hseen, registrations_of_new hreserved ((h abi).not.mpr hseen)]
        have hput : ∀ x, x ∈ l.abis.put abi ↔ x ∈ abi :: seen := fun x => by
          rw [mem_put_abis, List.mem_cons, h]
        refine (ih (l := { l with abis := l.abis.put abi }) hput).imp (fun hok => ?_) fun herror => ?_
        · exact ⟨hok.1, List.forall_mem_cons.mpr ⟨rfl, hok.2⟩⟩
        · obtain ⟨why, x, answer, hcheck, hfirst, hmirrors⟩ := herror
          exact ⟨why, x, answer, hcheck, .later hfirst, hmirrors⟩

end Checks

/-- A configuration that does not ask for zero connections is accepted if a fresh registry takes
its ABIs one after another as new ones. Where it is rejected, the objection is about the first ABI
to which the registry gives another answer, and agrees with that answer. Whether a configuration is
accepted does not depend on the order of its ABIs. -/
theorem validate_agrees_with_registry (c : Config) (h : c.connections ≠ some 0) :
    (c.validate = .ok () ↔ ∀ answer ∈ registrations {} c.abis, answer = .ok true) ∧
    (∀ why, c.validate = .error why → why.setting = "build.abis" ∧
      ∃ abi answer, FirstRefused c.abis (registrations {} c.abis) abi answer ∧
        why.Mirrors abi answer) ∧
    ∀ abis, abis.Perm c.abis →
      (({ c with abis } : Config).validate = .ok () ↔ c.validate = .ok ()) := by
  have hvalidate : ∀ abis, ({ c with abis } : Config).validate = checkAbis [] abis := fun abis => by
    rw [validate, if_neg h]
  have hfresh : ∀ x, x ∈ (({} : Ledger).abis) ↔ x ∈ ([] : List String) := fun x => by
    simp [← Table.mem_rows]
  refine ⟨?_, ?_, fun abis hperm => ?_⟩
  · rw [hvalidate c.abis]
    rcases checkAbis_cases hfresh c.abis with ⟨hok, hall⟩ | ⟨why, abi, answer, hcheck, hfirst, -⟩
    · exact iff_of_true hok hall
    · obtain ⟨a, ha, hne⟩ := hfirst.exists_refused
      rw [hcheck]
      exact iff_of_false (by simp) fun hall => hne (hall a ha)
  · intro why hwhy
    rw [hvalidate c.abis] at hwhy
    rcases checkAbis_cases hfresh c.abis with ⟨hok, -⟩ | ⟨why', abi, answer, hcheck, hfirst, hmirrors⟩
    · rw [hok] at hwhy
      cases hwhy
    · obtain rfl := Except.error.inj (hcheck.symm.trans hwhy)
      exact ⟨hmirrors.setting, abi, answer, hfirst, hmirrors⟩
  · rw [hvalidate abis, hvalidate c.abis, checkAbis_eq_ok_iff, checkAbis_eq_ok_iff, hperm.nodup_iff]
    simp only [hperm.mem_iff]

/-- ABIs of which the third one is reserved, and the fourth one comes twice. -/
def spoiltConfig : Config := { connections := some 4, abis := ["cp312", "cp311", "none", "cp312"] }

theorem registry_of_spoiltConfig :
    spoiltConfig.connections ≠ some 0 ∧
    registrations {} spoiltConfig.abis =
      [.ok true, .ok true, .error (.reservedAbi "none"), .ok false] ∧
    spoiltConfig.validate ≠ .ok () ∧
    (∃ abi answer, FirstRefused spoiltConfig.abis (registrations {} spoiltConfig.abis) abi answer ∧
      Objection.universalAbi.Mirrors abi answer) ∧
    ({ spoiltConfig with abis := ["cp312", "none", "cp312", "cp311"] } : Config).validate ≠ .ok () := by
  have hconnections : spoiltConfig.connections ≠ some 0 := by decide
  have hanswers : registrations {} spoiltConfig.abis =
      [.ok true, .ok true, .error (.reservedAbi "none"), .ok false] := by decide +kernel
  obtain ⟨haccepted, hrejected, horder⟩ := validate_agrees_with_registry spoiltConfig hconnections
  have hrefused : spoiltConfig.validate ≠ .ok () := by
    rw [ne_eq, haccepted, hanswers]
    simp
  refine ⟨hconnections, hanswers, hrefused, (hrejected .universalAbi rfl).2, ?_⟩
  rw [ne_eq, horder _ (by decide)]
  exact hrefused

end Config
end WheelFarm
