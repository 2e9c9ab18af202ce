import Mathlib.Data.List.Induction
import WheelFarm.Proofs.Ledger.Integrity

/-! The journal of a run: what its operations answered. To the build history an operation does one
of three things: it records a report, it drops the history of a version, or it leaves the history
alone. What these three keep holds at the end of every run. -/
namespace WheelFarm.Ledger

/-- An operation of a run, the moment at which it was made, and what it answered. -/
structure Entry where
  moment : Int
  operation : Operation
  answer : Except LedgerError Reply

/-- An accepted commit, with the number that it returned. -/
structure Commit where
  build : Int
  moment : Int
  report : BuildReport
  deriving DecidableEq

/-- The commit of an entry, if it is one that was accepted. -/
def Entry.commit? (e : Entry) : Option Commit :=
  match e.operation, e.answer with
  | .commit report, .ok (.recorded build) => some ⟨build, e.moment, report⟩
  | _, _ => none

/-- Whether an entry drops the build history of a version, with the version or without it. -/
def Entry.drops (e : Entry) (package version : String) : Bool :=
  e.operation = .forget package version || e.operation = .deleteVersion package version

/-- The entry of an operation on a ledger. -/
def entry (l : Ledger) (now : Int) (op : Operation) : Entry := ⟨now, op, (l.step now op).1⟩

/-- The entries of a run, in order. -/
def journal (l : Ledger) : List (Int × Operation) → List Entry
  | [] => []
  | op :: ops => l.entry op.1 op.2 :: (l.step op.1 op.2).2.journal ops

/-- The accepted commits among entries. -/
def commits (es : List Entry) : List Commit := es.filterMap Entry.commit?

theorem run_append (l : Ledger) (ops later : List (Int × Operation)) :
    l.run (ops ++ later) = (l.run ops).run later := List.foldl_append

theorem journal_append (l : Ledger) (ops later : List (Int × Operation)) :
    l.journal (ops ++ later) = l.journal ops ++ (l.run ops).journal later := by
  induction ops generalizing l with
  | nil => rfl
  | cons op ops ih =>
    change _ :: ((l.step op.1 op.2).2.journal (ops ++ later)) = _
    rw [ih]
    rfl

theorem run_concat (l : Ledger) (ops : List (Int × Operation)) (op : Int × Operation) :
    l.run (ops ++ [op]) = ((l.run ops).step op.1 op.2).2 := run_append l ops [op]

theorem journal_concat (l : Ledger) (ops : List (Int × Operation)) (op : Int × Operation) :
    l.journal (ops ++ [op]) = l.journal ops ++ [(l.run ops).entry op.1 op.2] :=
  journal_append l ops [op]

lemma mem_journal_moment {l : Ledger} {ops : List (Int × Operation)} {e : Entry}
    (h : e ∈ l.journal ops) : ∃ op ∈ ops, op.1 = e.moment := by
  induction ops generalizing l with
  | nil => cases h
  | cons op ops ih =>
    rcases List.mem_cons.mp h with rfl | h
    · exact ⟨op, List.mem_cons_self, rfl⟩
    · obtain ⟨o, ho, he⟩ := ih h
      exact ⟨o, List.mem_cons_of_mem _ ho, he⟩

lemma Entry.moment_commit? {e : Entry} {c : Commit} (h : e.commit? = some c) :
    c.moment = e.moment := by
  rw [commit?] at h
  split at h
  · cases h
    rfl
  · cases h

lemma Entry.drops_of_commit? {e : Entry} {c : Commit} (h : e.commit? = some c)
    (package version : String) : e.drops package version = false := by
  rw [commit?] at h
  split at h
  · next hop _ => simp [drops, hop]
  · cases h

/-- A ledger with the build history of another one. -/
structure SameHistory (l l' : Ledger) : Prop where
  builds : l'.builds = l.builds
  outputs : l'.outputs = l.outputs
  files : l'.files = l.files
  dependencies : l'.dependencies = l.dependencies
  lastBuild : l'.lastBuild = l.lastBuild

theorem SameHistory.rfl {l : Ledger} : SameHistory l l :=
  ⟨.refl _, .refl _, .refl _, .refl _, .refl _⟩

/-- What an operation does to the build history of a ledger. -/
inductive Effect (l : Ledger) (e : Entry) (l' : Ledger) : Prop
  | recorded (report : BuildReport) (accepted : ¬ Malformed report)
      (version : l.versions.has (report.package, report.version) = true)
      (commit : e.commit? = some ⟨l.lastBuild + 1, e.moment, report⟩)
      (keeps : ∀ p v, e.drops p v = false) (result : l' = l.recorded e.moment report)
  | dropped (package version : String) (commit : e.commit? = none)
      (drops : ∀ p v, e.drops p v = true ↔ package = p ∧ version = v)
      (result : SameHistory (l.dropBuilds fun b => b.package = package ∧ b.version = version) l')
  | kept (commit : e.commit? = none) (keeps : ∀ p v, e.drops p v = false)
      (result : SameHistory l l')

variable {l : Ledger} {now : Int}

lemma sameHistory_addPackage (package : String) (skip : Option String) :
    SameHistory l (l.addPackage package skip).2 := by
  rw [addPackage_eq]
  split <;> exact ⟨rfl, rfl, rfl, rfl, rfl⟩

lemma sameHistory_addVersion {package version : String} {released : Int} {skip : Option String}
    {done : Bool} {l' : Ledger}
    (hl : l.addVersion package version released skip = .ok (done, l')) : SameHistory l l' := by
  rw [addVersion_eq] at hl
  split_ifs at hl <;> cases hl <;> exact ⟨rfl, rfl, rfl, rfl, rfl⟩

lemma sameHistory_deletePackage {package : String} {done : Bool} {l' : Ledger}
    (hl : l.deletePackage package = .ok (done, l')) : SameHistory l l' := by
  rw [deletePackage] at hl
  split_ifs at hl
  cases hl
  exact ⟨rfl, rfl, rfl, rfl, rfl⟩

lemma sameHistory_addAbi {abi : String} {done : Bool} {l' : Ledger}
    (hl : l.addAbi abi = .ok (done, l')) : SameHistory l l' := by
  rw [addAbi_eq] at hl
  split_ifs at hl <;> cases hl <;> exact ⟨rfl, rfl, rfl, rfl, rfl⟩

lemma sameHistory_setSerial (h : Sound l) {serial : UInt64} {l' : Ledger}
    (hl : l.setSerial serial = .ok l') : SameHistory l l' := by
  rw [setSerial_eq h.serial_stored] at hl
  split_ifs at hl
  cases hl
  exact ⟨rfl, rfl, rfl, rfl, rfl⟩

lemma effect_perform (h : Sound l) {op : Operation} {reply : Reply} {l' : Ledger}
    (hp : l.perform now op = .ok (reply, l')) : Effect l ⟨now, op, .ok reply⟩ l' := by
  cases op with
  | addPackage package skip =>
    cases hp
    exact .kept rfl (fun p v => by simp [Entry.drops]) (sameHistory_addPackage package skip)
  | addVersion package version released skip =>
    obtain ⟨⟨done, l'⟩, hl, he⟩ := map_eq_ok hp
    cases he
    exact .kept rfl (fun p v => by simp [Entry.drops]) (sameHistory_addVersion hl)
  | skipPackage package reason =>
    cases hp
    exact .kept rfl (fun p v => by simp [Entry.drops]) ⟨rfl, rfl, rfl, rfl, rfl⟩
  | skipVersion package version reason =>
    cases hp
    exact .kept rfl (fun p v => by simp [Entry.drops]) ⟨rfl, rfl, rfl, rfl, rfl⟩
  | deleteVersion package version =>
    cases hp
    exact .dropped package version rfl (fun p v => by simp [Entry.drops])
      ⟨rfl, rfl, rfl, rfl, rfl⟩
  | deletePackage package =>
    obtain ⟨⟨done, l'⟩, hl, he⟩ := map_eq_ok hp
    cases he
    exact .kept rfl (fun p v => by simp [Entry.drops]) (sameHistory_deletePackage hl)
  | addAbi abi =>
    obtain ⟨⟨done, l'⟩, hl, he⟩ := map_eq_ok hp
    cases he
    exact .kept rfl (fun p v => by simp [Entry.drops]) (sameHistory_addAbi hl)
  | removeAbi abi =>
    cases hp
    exact .kept rfl (fun p v => by simp [Entry.drops]) ⟨rfl, rfl, rfl, rfl, rfl⟩
  | commit report =>
    obtain ⟨⟨id, l'⟩, hl, he⟩ := map_eq_ok hp
    cases he
    obtain ⟨hr, hversion, -, rfl, rfl⟩ := (commit_eq_ok_iff h).mp hl
    exact .recorded report hr hversion rfl (fun p v => by simp [Entry.drops]) rfl
  | forget package version =>
    cases hp
    exact .dropped package version rfl (fun p v => by simp [Entry.drops])
      ⟨rfl, rfl, rfl, rfl, rfl⟩
  | setSerial serial =>
    obtain ⟨l', hl, he⟩ := map_eq_ok hp
    cases he
    exact .kept rfl (fun p v => by simp [Entry.drops]) (sameHistory_setSerial h hl)

lemma step_commit {report : BuildReport} {id : Int} {l' : Ledger}
    (h : l.commit now report = .ok (id, l')) :
    l.step now (.commit report) = (.ok (.recorded id), l') := by
  rw [step, perform, h]
  rfl

/-- Every operation has one of the three effects; one that fails leaves the history alone. -/
theorem effect_step (h : Sound l) (now : Int) (op : Operation) :
    Effect l (l.entry now op) (l.step now op).2 := by
  rw [entry]
  cases hp : l.perform now op with
  | ok done =>
    have hs : l.step now op = (.ok done.1, done.2) := by rw [step, hp]
    rw [hs]
    exact effect_perform h hp
  | error e =>
    have hs : l.step now op = (.error e, l) := by rw [step, hp]
    rw [hs]
    cases op with
    | forget package version => cases hp
    | deleteVersion package version => cases hp
    | _ => exact .kept rfl (fun p v => by simp [Entry.drops]) .rfl

/-- A sound ledger to which operations with these entries lead. -/
inductive Reached : List Entry → Ledger → Prop
  | fresh : Reached [] {}
  | next {es : List Entry} {l : Ledger} {e : Entry} {l' : Ledger} (reached : Reached es l)
      (effect : Effect l e l') (sound : Sound l') : Reached (es ++ [e]) l'

theorem reached_run (ops : List (Int × Operation)) : Reached (journal {} ops) (run {} ops) := by
  induction ops using List.reverseRecOn with
  | nil => exact .fresh
  | append_singleton ops op ih =>
    rw [journal_concat, run_concat]
    have hs := sound_run sound_fresh ops
    exact ih.next (effect_step hs op.1 op.2) (sound_step hs op.1 op.2)

section Reached
variable {es : List Entry}

theorem Reached.sound (h : Reached es l) : Sound l := by
  cases h with
  | fresh => exact sound_fresh
  | next _ _ hs => exact hs

theorem commits_concat (es : List Entry) (e : Entry) :
    commits (es ++ [e]) = commits es ++ e.commit?.toList := by
  rw [commits, List.filterMap_append]
  cases he : e.commit? <;> simp [commits, he]

/-- The last number handed out is the count of the accepted commits, whatever was dropped since. -/
theorem Reached.lastBuild (h : Reached es l) : l.lastBuild = (commits es).length := by
  induction h with
  | fresh => rfl
  | next _ he _ ih =>
    rw [commits_concat, List.length_append]
    cases he with
    | recorded r _ _ hc _ hl =>
      rw [hl, recorded_lastBuild, ih, hc]
      rfl
    | dropped _ _ hc _ hl =>
      rw [hl.lastBuild, hc]
      exact ih
    | kept hc _ hl =>
      rw [hl.lastBuild, hc]
      exact ih

/-- Accepted commits are numbered 1, 2, 3 and so on. -/
theorem Reached.numbered (h : Reached es l) : (commits es).map (·.build) =
    (List.range (commits es).length).map fun i : Nat => (i : Int) + 1 := by
  induction h with
  | fresh => rfl
  | next h he _ ih =>
    rw [commits_concat, List.map_append, ih]
    cases he with
    | recorded r _ _ hc =>
      rw [hc, h.lastBuild, List.length_append]
      simp [List.range_succ]
    | dropped _ _ hc => simp [hc]
    | kept hc => simp [hc]

/-- A failed attempt that took a little more than a second and a half. -/
def sampleReport : BuildReport :=
  .failed "six" "1.16.0" "cp312" 7 ⟨1500000001, by decide⟩ "no compiler"

/-- A run in which an accepted commit is dropped before the next one. -/
def sampleRun : List (Int × Operation) :=
  [(0, .addPackage "six" none), (0, .addVersion "six" "1.16.0" none none),
    (60, .commit sampleReport), (120, .forget "six" "1.16.0"), (180, .commit sampleReport)]

example : (commits (journal {} sampleRun)).map (·.build) = [1, 2] := by decide

/-- A number is never handed out twice. -/
theorem Reached.commit_eq (h : Reached es l) {c d : Commit} (hc : c ∈ commits es)
    (hd : d ∈ commits es) (he : c.build = d.build) : c = d := by
  have hn : ((commits es).map (·.build)).Nodup := by
    rw [h.numbered]
    refine List.nodup_range.map fun i j hij => ?_
    have hij : (i : Int) + 1 = j + 1 := hij
    omega
  exact List.inj_on_of_nodup_map hn hc hd he

/-- No malformed report is ever accepted. -/
theorem Reached.accepted (h : Reached es l) : ∀ c ∈ commits es, ¬ Malformed c.report := by
  induction h with
  | fresh => exact fun c hc => absurd hc List.not_mem_nil
  | next _ he _ ih =>
    intro c hc
    rw [commits_concat, List.mem_append, Option.mem_toList] at hc
    rcases hc with hc | hc
    · exact ih c hc
    · cases he with
      | recorded r hr _ he =>
        cases he.symm.trans hc
        exact hr
      | dropped _ _ he => cases he.symm.trans hc
      | kept he => cases he.symm.trans hc

end Reached

end WheelFarm.Ledger
