import WheelFarm.Proofs.Execution.Failure
import WheelFarm.Proofs.Table

/-! Registering the configured ABIs. A run that cannot print stops behind the first ABI it
registers; whatever such runs leave undone the next run that can print does. -/
namespace WheelFarm

namespace Ledger

/-- The ledger with further ABIs registered. -/
def withAbis (l : Ledger) (abis : List String) : Ledger :=
  { l with abis := abis.foldl Table.put l.abis }

/-- Those of the given ABIs that are not registered. -/
def missing (l : Ledger) (abis : List String) : List String :=
  abis.filter fun abi => !l.abis.has abi

variable {l : Ledger} {abi : String} {abis : List String}

@[simp] lemma withAbis_nil (l : Ledger) : l.withAbis [] = l := rfl

lemma withAbis_cons (l : Ledger) (abi : String) (abis : List String) :
    l.withAbis (abi :: abis) = (l.withAbis [abi]).withAbis abis := rfl

theorem mem_withAbis {x : String} : x ∈ (l.withAbis abis).abis ↔ x ∈ l.abis ∨ x ∈ abis := by
  induction abis generalizing l with
  | nil => simp
  | cons abi abis ih =>
    have hput : x ∈ (l.withAbis [abi]).abis ↔ x = abi ∨ x ∈ l.abis := mem_put_abis
    rw [withAbis_cons, ih, hput, List.mem_cons]
    tauto

theorem mem_missing {x : String} : x ∈ l.missing abis ↔ x ∈ abis ∧ x ∉ l.abis := by
  rw [missing, List.mem_filter, ← has_abis, Bool.not_eq_true', Bool.not_eq_true]

lemma missing_cons_of_mem (h : abi ∈ l.abis) : l.missing (abi :: abis) = l.missing abis := by
  rw [missing, List.filter_cons, has_abis.mpr h]
  rfl

lemma missing_cons_of_not_mem (h : abi ∉ l.abis) :
    l.missing (abi :: abis) = abi :: l.missing abis := by
  rw [missing, List.filter_cons, Bool.eq_false_iff.mpr (has_abis.not.mpr h)]
  rfl

lemma missing_withAbis (h : abi ∉ abis) : (l.withAbis [abi]).missing abis = l.missing abis := by
  refine List.filter_congr fun x hx => congrArg _ (Bool.eq_iff_iff.mpr ?_)
  have hne : x ≠ abi := fun he => h (he ▸ hx)
  rw [has_abis, has_abis, mem_withAbis, List.mem_singleton]
  exact or_iff_left hne

/-- Which ABIs are registered is all that registering some depends on and decides. -/
theorem withAbis_congr {abis' : List String}
    (h : ∀ x, x ∈ l.abis ∨ x ∈ abis ↔ x ∈ l.abis ∨ x ∈ abis') :
    l.withAbis abis = l.withAbis abis' := by
  suffices (l.withAbis abis).abis = (l.withAbis abis').abis by
    rw [withAbis, withAbis]
    exact congrArg (fun abis => { l with abis }) this
  refine Table.ext_mem fun x => ?_
  rw [mem_withAbis, mem_withAbis, h]

theorem withAbis_of_registered (h : ∀ abi ∈ abis, abi ∈ l.abis) : l.withAbis abis = l :=
  (withAbis_congr fun x => by simpa using h x).trans (withAbis_nil l)

/-- ABIs that are registered in part beforehand are registered in the end. -/
theorem withAbis_withAbis {abis' : List String} (h : ∀ abi ∈ abis', abi ∈ abis) :
    (l.withAbis abis').withAbis abis = l.withAbis abis := by
  have happend : (l.withAbis abis').withAbis abis = l.withAbis (abis' ++ abis) := by
    rw [withAbis, withAbis, withAbis, List.foldl_append]
  rw [happend]
  refine withAbis_congr fun x => ?_
  rw [List.mem_append]
  have := h x
  tauto

end Ledger

namespace Execution
open CommandLine Ledger

variable {e : Setting} {abis : List String}

/-- What is printed when an ABI is registered. -/
def announcement (abi : String) : String := s!"registered {abi}"

section Runs

lemma on_register_of_mem {abi : String} (hfree : isReserved abi = false) {s : Session}
    (h : abi ∈ s.ledger.abis) : (register e (abi :: abis)).on s = (register e abis).on s := by
  rw [on_register_cons hfree, if_pos (has_abis.mpr h)]

lemma on_register_of_not_mem {abi : String} (hfree : isReserved abi = false) {s : Session}
    (h : abi ∉ s.ledger.abis) : (register e (abi :: abis)).on s =
      if e.canPrint then (register e abis).on
        { ledger := s.ledger.withAbis [abi], printed := announcement abi :: s.printed }
      else (.error .output, { s with ledger := s.ledger.withAbis [abi] }) := by
  rw [on_register_cons hfree, if_neg (has_abis.not.mpr h)]
  rfl

/-- A run that can print registers what is missing, and tells of it in its order. -/
theorem on_register_of_canPrint (hprint : e.canPrint = true)
    (hfree : ∀ abi ∈ abis, isReserved abi = false) (hnodup : abis.Nodup) (s : Session) :
    (register e abis).on s = (.ok (),
      { ledger := s.ledger.withAbis abis
        printed := ((s.ledger.missing abis).map announcement).reverse ++ s.printed }) := by
  induction abis generalizing s with
  | nil => rfl
  | cons abi abis ih =>
    obtain ⟨habi, habis⟩ := List.forall_mem_cons.mp hfree
    obtain ⟨hnew, hnodup⟩ := List.nodup_cons.mp hnodup
    by_cases hknown : abi ∈ s.ledger.abis
    · have hsame : s.ledger.withAbis [abi] = s.ledger :=
        withAbis_of_registered (by simpa using hknown)
      rw [on_register_of_mem habi hknown, ih habis hnodup, missing_cons_of_mem hknown,
        withAbis_cons, hsame]
    · rw [on_register_of_not_mem habi hknown, if_pos hprint, ih habis hnodup,
        missing_cons_of_not_mem hknown, missing_withAbis hnew, ← withAbis_cons]
      simp

/-- A run that cannot print registers the first ABI that is missing, if there is one. -/
theorem on_register_of_silent (hprint : e.canPrint = false)
    (hfree : ∀ abi ∈ abis, isReserved abi = false) (s : Session) :
    (register e abis).on s = match s.ledger.missing abis with
      | [] => (.ok (), s)
      | abi :: _ => (.error .output, { s with ledger := s.ledger.withAbis [abi] }) := by
  induction abis with
  | nil => rfl
  | cons abi abis ih =>
    obtain ⟨habi, habis⟩ := List.forall_mem_cons.mp hfree
    by_cases hknown : abi ∈ s.ledger.abis
    · rw [on_register_of_mem habi hknown, missing_cons_of_mem hknown, ih habis]
    · rw [on_register_of_not_mem habi hknown, missing_cons_of_not_mem hknown, hprint]
      rfl

/-- The ledger after the configured ABIs have been registered, or some of them. -/
def afterInit (l : Ledger) (e : Setting) : Ledger := ((execute e .init).on { ledger := l }).2.ledger

end Runs

section Configured

lemma on_init_of_canPrint (h : e.config.validate = .ok ()) (hprint : e.canPrint = true)
    (l : Ledger) : (execute e .init).on { ledger := l } = (.ok (),
      { ledger := l.withAbis e.config.abis
        printed := ((l.missing e.config.abis).map announcement).reverse }) := by
  obtain ⟨hnodup, hfree⟩ := Config.abis_of_validate h
  have hrun := on_register_of_canPrint hprint hfree hnodup { ledger := l }
  rw [List.append_nil] at hrun
  exact hrun

lemma on_init_of_silent (h : e.config.validate = .ok ()) (hprint : e.canPrint = false)
    (l : Ledger) : (execute e .init).on { ledger := l } = match l.missing e.config.abis with
      | [] => (.ok (), { ledger := l })
      | abi :: _ => (.error .output, { ledger := l.withAbis [abi] }) :=
  on_register_of_silent hprint (Config.abis_of_validate h).2 { ledger := l }

lemma withAbis_afterInit (h : e.config.validate = .ok ()) (l : Ledger) :
    (afterInit l e).withAbis e.config.abis = l.withAbis e.config.abis := by
  rw [afterInit]
  cases hprint : e.canPrint with
  | true =>
    rw [on_init_of_canPrint h hprint]
    exact withAbis_withAbis fun _ => id
  | false =>
    rw [on_init_of_silent h hprint]
    cases hmissing : l.missing e.config.abis with
    | nil => rfl
    | cons abi rest =>
      have habi : abi ∈ e.config.abis := (mem_missing.mp (hmissing ▸ List.mem_cons_self)).1
      exact withAbis_withAbis (by simpa using habi)

lemma withAbis_foldl_afterInit {c : Config} (h : c.validate = .ok ()) {runs : List Setting}
    (hruns : ∀ e ∈ runs, e.config = c) (l : Ledger) :
    (runs.foldl afterInit l).withAbis c.abis = l.withAbis c.abis := by
  induction runs generalizing l with
  | nil => rfl
  | cons e runs ih =>
    obtain ⟨rfl, hruns⟩ := List.forall_mem_cons.mp hruns
    rw [List.foldl_cons, ih hruns, withAbis_afterInit h]

/-- Under a configuration that is accepted, a run that can print registers the configured ABIs that
are missing and no other, tells of each of them once and in its order, and a further run does
nothing. A run that cannot print registers the first one that is missing and fails, or does nothing
if none is. After any such runs the next one that can print registers what it would have at once. -/
theorem init_converges {c : Config} (h : c.validate = .ok ()) (l : Ledger) {e : Setting}
    (he : e.config = c) :
    (∀ abi, abi ∈ (l.withAbis c.abis).abis ↔ abi ∈ l.abis ∨ abi ∈ c.abis) ∧
    l.withAbis c.abis = { l with abis := (l.withAbis c.abis).abis } ∧
    (l.missing c.abis).Nodup ∧
    (e.canPrint = true → (execute e .init).on { ledger := l } = (.ok (),
      { ledger := l.withAbis c.abis
        printed := ((l.missing c.abis).map announcement).reverse })) ∧
    (execute e .init).on { ledger := l.withAbis c.abis } =
      (.ok (), { ledger := l.withAbis c.abis }) ∧
    (e.canPrint = false → (execute e .init).on { ledger := l } = match l.missing c.abis with
      | [] => (.ok (), { ledger := l })
      | abi :: _ => (.error .output, { ledger := { l with abis := l.abis.put abi } })) ∧
    ∀ runs : List Setting, (∀ e ∈ runs, e.config = c) → e.canPrint = true →
      afterInit (runs.foldl afterInit l) e = l.withAbis c.abis := by
  subst he
  have hdone : (l.withAbis e.config.abis).missing e.config.abis = [] := by
    refine List.eq_nil_iff_forall_not_mem.mpr fun abi habi => ?_
    obtain ⟨hconfigured, hmissing⟩ := mem_missing.mp habi
    exact hmissing (mem_withAbis.mpr (.inr hconfigured))
  refine ⟨fun abi => mem_withAbis, rfl, (Config.abis_of_validate h).1.filter _,
    fun hprint => on_init_of_canPrint h hprint l, ?_,
    fun hprint => on_init_of_silent h hprint l, fun runs hruns hprint => ?_⟩
  · cases hprint : e.canPrint with
    | true =>
      rw [on_init_of_canPrint h hprint, hdone, withAbis_withAbis fun _ => id]
      rfl
    | false => rw [on_init_of_silent h hprint, hdone]
  · rw [afterInit, on_init_of_canPrint h hprint]
    exact withAbis_foldl_afterInit h hruns l

/-- A configuration of three ABIs. -/
def sampleConfig : Config := { abis := ["cp312", "cp311", "abi3"] }

def sampleSetting (now : Int) (canPrint : Bool) : Setting :=
  { config := sampleConfig, now, canPrint, report := fun _ => none }

/-- Two runs that cannot print and one that can register what one that can registers. -/
theorem init_on_sampleSetting :
    let l : Ledger := Ledger.run {} [(0, .addAbi "cp311")]
    let e := sampleSetting 90 true
    sampleConfig.validate = .ok () ∧ l.missing sampleConfig.abis = ["cp312", "abi3"] ∧
      (execute e .init).on { ledger := l } = (.ok (),
        { ledger := l.withAbis sampleConfig.abis
          printed := ["registered abi3", "registered cp312"] }) ∧
      (execute (sampleSetting 30 false) .init).on { ledger := l } =
        (.error .output, { ledger := { l with abis := l.abis.put "cp312" } }) ∧
      afterInit ([sampleSetting 30 false, sampleSetting 60 false].foldl afterInit l) e =
        l.withAbis sampleConfig.abis := by
  intro l e
  have hvalid : sampleConfig.validate = .ok () := rfl
  have hmissing : l.missing sampleConfig.abis = ["cp312", "abi3"] := by decide +kernel
  have hprinted := (init_converges hvalid l (e := e) rfl).2.2.2.1 rfl
  have hsilent := (init_converges hvalid l (e := sampleSetting 30 false) rfl).2.2.2.2.2.1 rfl
  have hruns := (init_converges hvalid l (e := e) rfl).2.2.2.2.2.2
    [sampleSetting 30 false, sampleSetting 60 false] (by simp [sampleSetting]) rfl
  rw [hmissing] at hprinted hsilent
  exact ⟨hvalid, hmissing, hprinted, hsilent, hruns⟩

end Configured
end Execution
end WheelFarm
