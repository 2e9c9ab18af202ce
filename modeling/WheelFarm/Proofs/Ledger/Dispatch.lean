import Mathlib.Data.List.Perm.Subperm
import Mathlib.Logic.Relation
import WheelFarm.Proofs.Ledger.CommitOutcome
import WheelFarm.Proofs.Ledger.Intact
import WheelFarm.Proofs.Ledger.Locality
import WheelFarm.Proofs.Ledger.Resubmission

/-! The dispatch loop: a target is picked, and a report that settles it is committed, while other
workers commit theirs. As long as no report takes over files of another version, outstanding work
only ever shrinks, and each answer takes its target off. So the loop comes to an end. -/
namespace WheelFarm.Ledger
open Text

variable {l l' : Ledger} {r : BuildReport} {t u : Target}

section Work

/-- The outstanding work of all versions, of which the targets show one item for each version. -/
def work (l : Ledger) : List Target :=
  l.versions.rows.flatMap fun v =>
    (l.outstanding v).map fun abi => ⟨v.package, v.version, abi⟩

theorem mem_work : t ∈ l.work ↔ Outstanding l t.package t.version t.abi := by
  simp only [work, List.mem_flatMap, List.mem_map, Table.mem_rows]
  constructor
  · intro hmem
    obtain ⟨v, hv, abi, habi, rfl⟩ := hmem
    exact (mem_outstanding hv).mp habi
  · intro ho
    obtain ⟨v, hv, hp, hn, -⟩ := ho.version_open
    refine ⟨v, hv, t.abi, (mem_outstanding hv).mpr ?_, by rw [hp, hn]⟩
    rwa [hp, hn]

theorem work_nodup (l : Ledger) : l.work.Nodup := by
  rw [work, List.nodup_flatMap]
  constructor
  · intro v _
    have habis : (l.outstanding v).Nodup := by
      rw [outstanding]
      split
      · exact l.abis.rows_nodup.filter _
      · exact List.nodup_nil
    exact habis.map fun a b hab => congrArg Target.abi hab
  · refine l.versions.ordered.imp fun {v w} hvw t hv hw => ?_
    obtain ⟨a, -, rfl⟩ := List.mem_map.mp hv
    obtain ⟨b, -, hb⟩ := List.mem_map.mp hw
    have hkey : Keyed.key v = Keyed.key w :=
      congrArg₂ Prod.mk (congrArg Target.package hb).symm (congrArg Target.version hb).symm
    exact KeyOrder.ne_of_lt hvw hkey

lemma work_of_target (h : t ∈ l.targets) : t ∈ l.work := mem_work.mpr (mem_targets_iff.mp h).1

lemma target_lt_work (ht : t ∈ l.targets) (hu : u ∈ l.work) (hp : u.package = t.package)
    (hv : u.version = t.version) (hne : u ≠ t) : bytes t.abi < bytes u.abi := by
  have ho := mem_work.mp hu
  rw [hp, hv] at ho
  exact (mem_targets_iff.mp ht).2 u.abi ho fun ha => hne (Target.eq_of_eq hp hv ha)

end Work

section Commits

/-- Whether all files that a report takes over are of its own version. -/
def TakesOwn (l : Ledger) (r : BuildReport) : Prop :=
  ∀ package version g, OwnedBy l package version g → ¬ Spared r g →
    r.package = package ∧ r.version = version

/-- An accepted commit that takes over no file of another version. -/
structure OwnCommit (r : BuildReport) (l l' : Ledger) : Prop where
  accepted : ∃ now id, l.commit now r = .ok (id, l')
  own : TakesOwn l r

/-- A ledger that a run leads to. -/
def Reachable (l : Ledger) : Prop := ∃ ops, run {} ops = l

theorem Reachable.sound (h : Reachable l) : Sound l := by
  obtain ⟨ops, rfl⟩ := h
  exact sound_run sound_fresh ops

theorem OwnCommit.reachable (hc : OwnCommit r l l') (h : Reachable l) : Reachable l' := by
  obtain ⟨ops, rfl⟩ := h
  obtain ⟨⟨now, id, hcommit⟩, -⟩ := hc
  exact ⟨ops ++ [(now, .commit r)], by rw [run_concat, step_commit hcommit]⟩

/-- No commit of this kind opens work, neither for its own version nor for another one. -/
theorem OwnCommit.work_subset (hc : OwnCommit r l l') (h : Reachable l) : l'.work ⊆ l.work := by
  intro t ht
  rw [mem_work] at ht ⊢
  obtain ⟨ops, rfl⟩ := h
  have h := reached_run ops
  obtain ⟨⟨now, id, hcommit⟩, hown⟩ := hc
  obtain ⟨hr, -, -, -, rfl⟩ := (commit_eq_ok_iff h.sound).mp hcommit
  by_cases hv : r.package = t.package ∧ r.version = t.version
  · rw [outstanding_iff, eligible_recorded] at ht
    rw [outstanding_iff]
    refine ⟨ht.1, fun hdone => ht.2 ?_⟩
    rw [← hv.1, ← hv.2] at hdone ⊢
    exact hdone.recorded h.sound (fun _ => h.tags_carried) hr
  · refine (outstanding_congr sameEntry_recorded ?_).mp ht
    exact sameAttempts_recorded h.sound hr hv fun g hg =>
      not_not.mp fun hspared => hv (hown _ _ g hg hspared)

/-- A report that is an answer to a target: an attempt at it without files, or with a wheel that
suits its ABI. -/
structure Answers (r : BuildReport) (t : Target) : Prop where
  package : r.package = t.package
  version : r.version = t.version
  abi : r.abi = t.abi
  meets : Meets r

theorem OwnCommit.answered (hc : OwnCommit r l l') (h : Sound l) (ha : Answers r t) :
    t ∉ l'.work := by
  obtain ⟨⟨now, id, hcommit⟩, -⟩ := hc
  obtain ⟨hr, -, -, -, rfl⟩ := (commit_eq_ok_iff h).mp hcommit
  rw [mem_work, outstanding_iff, ← ha.package, ← ha.version, ← ha.abi]
  exact fun ho => ho.2 (done_recorded_of_meets h (filenames_nodup hr) ha.meets)

end Commits

section Loop

/-- What other workers commit in the meantime. -/
def Meanwhile : Ledger → Ledger → Prop :=
  Relation.ReflTransGen fun l l' => ∃ r, OwnCommit r l l'

/-- The dispatch loop from a ledger on: the targets that were answered so far, in order, and the
ledger that this led to. Others may commit between two rounds, and between the poll of a round and
its answer. -/
inductive Dispatch (l : Ledger) : List Target → Ledger → Prop
  | start : Dispatch l [] l
  | other {ts : List Target} {l₁ l₂ : Ledger} {r : BuildReport} (loop : Dispatch l ts l₁)
      (commit : OwnCommit r l₁ l₂) : Dispatch l ts l₂
  | answer {ts : List Target} {polled l₁ l₂ : Ledger} {t : Target} {r : BuildReport}
      (loop : Dispatch l ts polled) (due : t ∈ polled.targets) (others : Meanwhile polled l₁)
      (answers : Answers r t) (commit : OwnCommit r l₁ l₂) : Dispatch l (ts ++ [t]) l₂

variable {ts : List Target}

lemma Meanwhile.keeps (hm : Meanwhile l l') (h : Reachable l) :
    Reachable l' ∧ l'.work ⊆ l.work := by
  induction hm with
  | refl => exact ⟨h, List.Subset.refl _⟩
  | tail _ hc ih =>
    obtain ⟨r, hc⟩ := hc
    exact ⟨hc.reachable ih.1, List.Subset.trans (hc.work_subset ih.1) ih.2⟩

lemma answer_keeps {polled l₁ : Ledger} (hm : Meanwhile polled l₁) (hc : OwnCommit r l₁ l')
    (h : Reachable polled) (ha : Answers r t) :
    Reachable l' ∧ l'.work ⊆ polled.work ∧ t ∉ l'.work := by
  obtain ⟨h₁, hsub⟩ := hm.keeps h
  exact ⟨hc.reachable h₁, List.Subset.trans (hc.work_subset h₁) hsub, hc.answered h₁.sound ha⟩

theorem Dispatch.reachable (hd : Dispatch l ts l') (h : Reachable l) : Reachable l' := by
  induction hd with
  | start => exact h
  | other _ hc ih => exact hc.reachable ih
  | answer _ _ hm ha hc ih => exact (answer_keeps hm hc ih ha).1

/-- The loop only moves forward: what is left of the work of a version comes after all that was
answered for it. -/
theorem Dispatch.lt_work (hd : Dispatch l ts l') (h : Reachable l) : ∀ t ∈ ts, ∀ u ∈ l'.work,
    u.package = t.package → u.version = t.version → bytes t.abi < bytes u.abi := by
  induction hd with
  | start => exact fun t ht => absurd ht List.not_mem_nil
  | other hd hc ih => exact fun t ht u hu => ih t ht u (hc.work_subset (hd.reachable h) hu)
  | @answer _ polled _ _ s _ hd hdue hm ha hc ih =>
    obtain ⟨-, hsub, hgone⟩ := answer_keeps hm hc (hd.reachable h) ha
    intro t ht u hu hp hv
    rcases List.mem_append.mp ht with ht | ht
    · exact ih t ht u (hsub hu) hp hv
    · cases List.mem_singleton.mp ht
      exact target_lt_work hdue (hsub hu) hp hv fun he => hgone (he ▸ hu)

/-- The ABIs that are answered for a version increase. -/
theorem Dispatch.increasing (hd : Dispatch l ts l') (h : Reachable l) : ts.Pairwise fun t u =>
    t.package = u.package → t.version = u.version → bytes t.abi < bytes u.abi := by
  induction hd with
  | start => exact .nil
  | other _ _ ih => exact ih
  | answer hd hdue _ _ _ ih =>
    refine List.pairwise_append.mpr ⟨ih, List.pairwise_singleton _ _, fun t ht u hu hp hv => ?_⟩
    cases List.mem_singleton.mp hu
    exact hd.lt_work h t ht _ (work_of_target hdue) hp.symm hv.symm

/-- Every answer takes at least one item off the work. -/
theorem Dispatch.length_le (hd : Dispatch l ts l') (h : Reachable l) :
    ts.length + l'.work.length ≤ l.work.length := by
  induction hd with
  | start => simp
  | other hd hc ih =>
    have hle := ((work_nodup _).subperm (hc.work_subset (hd.reachable h))).length_le
    omega
  | @answer ts polled _ l₂ t _ hd hdue hm ha hc ih =>
    obtain ⟨-, hsub, hgone⟩ := answer_keeps hm hc (hd.reachable h) ha
    have hnodup : (t :: l₂.work).Nodup := List.nodup_cons.mpr ⟨hgone, work_nodup l₂⟩
    have hle := (hnodup.subperm (List.cons_subset.mpr ⟨work_of_target hdue, hsub⟩)).length_le
    rw [List.length_cons] at hle
    rw [List.length_append, List.length_singleton]
    omega

lemma takesOwn_of_no_files (hnil : r.files = []) : TakesOwn l r := fun _ _ _ _ hspared =>
  absurd (fun _ hf => absurd (hnil ▸ hf) List.not_mem_nil) hspared

/-- A failed attempt at a target. -/
def failureOf (t : Target) : BuildReport := .failed t.package t.version t.abi 0 .zero ""

theorem answers_failureOf (t : Target) : Answers (failureOf t) t := ⟨rfl, rfl, rfl, .inl rfl⟩

/-- As long as numbers are left, a target that has a name can be answered, by a failure at least. -/
theorem exists_ownCommit (h : Reachable l) (hroom : l.lastBuild < maxStored) (ht : t ∈ l.targets)
    (hpackage : t.package ≠ "") (hversion : t.version ≠ "") :
    ∃ r l', Answers r t ∧ OwnCommit r l l' := by
  have ho := (mem_targets_iff.mp ht).1
  have habi := isReserved_eq_false_iff.mp (h.sound.abi_free t.abi ho.registered)
  have hshort : fits Duration.zero.milliseconds = true := by decide
  have hr : ¬ Malformed (failureOf t) := by
    rw [← checkReport_eq_ok_iff, checkReport_eq_ok]
    exact ⟨⟨hpackage, hversion⟩, habi.2, habi.1, rfl, rfl, hshort,
      fun f hf => absurd hf List.not_mem_nil⟩
  obtain ⟨v, hv, hvp, hvv, -⟩ := ho.version_open
  have hcommit := commit_of_listed h.sound hroom 0 hr ⟨v, hv, hvp, hvv⟩
  exact ⟨failureOf t, _, answers_failureOf t, ⟨0, _, hcommit⟩, takesOwn_of_no_files rfl⟩

end Loop

/-- The dispatch loop drains from every state that a run leads to. A target that was answered is not
due again, the ABIs that are answered for a version increase, and when as many targets were answered
as there was work at the start, nothing is left to be built. Until then every target that is due and
has a name can be answered, as long as numbers are left. -/
theorem dispatch_drains (ops : List (Int × Operation)) {ts : List Target} {l : Ledger}
    (hd : Dispatch (run {} ops) ts l) :
    (∀ t ∈ ts, t ∉ l.targets) ∧
    (ts.Pairwise fun t u =>
      t.package = u.package → t.version = u.version → bytes t.abi < bytes u.abi) ∧
    ts.length ≤ (run {} ops).work.length ∧
    (ts.length = (run {} ops).work.length → l.targets = []) ∧
    (l.lastBuild < maxStored → ∀ t ∈ l.targets, t.package ≠ "" → t.version ≠ "" →
      ∃ l', Dispatch (run {} ops) (ts ++ [t]) l') := by
  have h : Reachable (run {} ops) := ⟨ops, rfl⟩
  have hle := hd.length_le h
  refine ⟨fun t ht hdue => ?_, hd.increasing h, by omega, fun hall => ?_, ?_⟩
  · exact List.lt_irrefl _ (hd.lt_work h t ht t (work_of_target hdue) rfl rfl)
  · have hnone : l.work = [] := List.eq_nil_of_length_eq_zero (by omega)
    refine List.eq_nil_iff_forall_not_mem.mpr fun t ht => ?_
    exact absurd (hnone ▸ work_of_target ht) List.not_mem_nil
  · intro hroom t ht hpackage hversion
    obtain ⟨r, l', ha, hc⟩ := exists_ownCommit (hd.reachable h) hroom ht hpackage hversion
    exact ⟨l', hd.answer ht .refl ha hc⟩

/-- A target of the open run. -/
def sixFor (abi : String) : Target := ⟨"six", "1.16.0", abi⟩

/-- The open run, and failures for these ABIs one after another. -/
def failingRun (abis : List String) : List (Int × Operation) :=
  openRun ++ abis.map fun abi => (60, .commit (failureOf (sixFor abi)))

/-- Three failures drain the open run, although another worker fails at the first ABI a second time
before the last answer comes in. -/
theorem openRun_drained :
    ∃ l, Dispatch (run {} openRun) [sixFor "cp312", sixFor "cp313", sixFor "cp314"] l ∧
      l.targets = [] := by
  have h₁ : Dispatch (run {} openRun) [sixFor "cp312"] (run {} (failingRun ["cp312"])) :=
    .answer .start (by decide +kernel) .refl (answers_failureOf _)
      ⟨⟨60, 1, by rfl⟩, takesOwn_of_no_files rfl⟩
  have h₂ : Dispatch (run {} openRun) [sixFor "cp312", sixFor "cp313"]
      (run {} (failingRun ["cp312", "cp313"])) :=
    h₁.answer (by decide +kernel) .refl (answers_failureOf _)
      ⟨⟨60, 2, by rfl⟩, takesOwn_of_no_files rfl⟩
  have hother : OwnCommit (failureOf (sixFor "cp312")) (run {} (failingRun ["cp312", "cp313"]))
      (run {} (failingRun ["cp312", "cp313", "cp312"])) :=
    ⟨⟨60, 3, by rfl⟩, takesOwn_of_no_files rfl⟩
  have h₃ : Dispatch (run {} openRun) [sixFor "cp312", sixFor "cp313", sixFor "cp314"]
      (run {} (failingRun ["cp312", "cp313", "cp312", "cp314"])) :=
    h₂.answer (by decide +kernel) (.single ⟨_, hother⟩) (answers_failureOf _)
      ⟨⟨60, 4, by rfl⟩, takesOwn_of_no_files rfl⟩
  exact ⟨_, h₃, (dispatch_drains openRun h₃).2.2.2.1 (by decide +kernel)⟩

end WheelFarm.Ledger
