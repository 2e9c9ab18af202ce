import Mathlib.Data.List.Perm.Basic
import Mathlib.Logic.Equiv.Defs
import WheelFarm.Ledger.Operation
import WheelFarm.Ledger.Statistics
import WheelFarm.Proofs.Ledger.FileRecords
import WheelFarm.Proofs.Ledger.Outstanding

/-! Build numbers are names. A ledger whose builds are numbered anew answers every question as
before, up to the numbers that the answer itself shows: targets, statistics and dependencies show
none, and the builds of a version are listed in the order of their new numbers. -/
namespace WheelFarm
open Wheel

namespace Ledger

attribute [ext] Ledger

section Rows
variable (σ : Equiv.Perm Int)

def BuildRow.renumber (b : BuildRow) : BuildRow := { b with id := σ b.id }

def OutputRow.renumber (o : OutputRow) : OutputRow := { o with build := σ o.build }

def FileRow.renumber (f : FileRow) : FileRow := { f with build := σ f.build }

def Build.renumber (b : Build) : Build := { b with id := σ b.id }

def FileRecord.renumber (r : FileRecord) : FileRecord := { r with build := σ r.build }

def Reply.renumber : Reply → Reply
  | .recorded build => .recorded (σ build)
  | reply => reply

end Rows

instance : Keyed Build Int := ⟨Build.id⟩

/-- The ledger with every build's number replaced, wherever it stands. The last number handed out
stays, for it tells how many there were. -/
def renumber (σ : Equiv.Perm Int) (l : Ledger) : Ledger := { l with
  builds := l.builds.rekey (·.renumber σ)
  outputs := l.outputs.rekey (·.renumber σ)
  files := l.files.map (·.renumber σ) fun _ => rfl }

/-- The build of a row whose integers are in range. -/
def BuildRow.toBuild (b : BuildRow) : Build where
  id := b.id
  package := b.package
  version := b.version
  worker := .ofNat b.worker.toNat
  builtAt := b.builtAt
  duration := .ofMilliseconds (.ofNat b.milliseconds.toNat)
  success := b.success
  abi := b.abi

/-- Builds in the order of their new numbers. -/
def renumberBuilds (σ : Equiv.Perm Int) (bs : List Build) : List Build :=
  (Table.ofList (bs.map (·.renumber σ))).rows

variable {σ : Equiv.Perm Int} {l : Ledger} {package version abi : String}

section Tables

theorem mem_builds_renumber {b : BuildRow} :
    b ∈ (l.renumber σ).builds ↔ ∃ x ∈ l.builds, x.renumber σ = b :=
  Table.mem_rekey σ.injective fun _ => rfl

theorem mem_outputs_renumber {o : OutputRow} :
    o ∈ (l.renumber σ).outputs ↔ ∃ x ∈ l.outputs, x.renumber σ = o :=
  Table.mem_rekey σ.injective fun _ => rfl

theorem mem_files_renumber {f : FileRow} :
    f ∈ (l.renumber σ).files ↔ ∃ x ∈ l.files, x.renumber σ = f := List.mem_map

theorem builds_renumber_perm (σ : Equiv.Perm Int) (l : Ledger) :
    (l.renumber σ).builds.rows.Perm (l.builds.rows.map (·.renumber σ)) :=
  Table.rows_rekey_perm σ.injective fun _ => rfl

lemma files_renumber_rows : (l.renumber σ).files.rows = l.files.rows.map (·.renumber σ) := rfl

lemma owned_renumber (σ : Equiv.Perm Int) (l : Ledger) (build : Int) :
    (l.renumber σ).owned (σ build) = (l.owned build).map (·.renumber σ) := by
  rw [owned, files_renumber_rows, List.filter_map]
  congr 1
  refine List.filter_congr fun f _ => ?_
  exact decide_eq_decide.mpr σ.injective.eq_iff

lemma buildRows_renumber (package version : String) : (l.renumber σ).buildRows package version =
    (Table.ofList ((l.buildRows package version).map (·.renumber σ))).rows := by
  have hrows := Table.filter_rekey (t := l.builds) (f := (·.renumber σ)) σ.injective (fun _ => rfl)
    (p := fun b => b.package = package ∧ b.version = version) fun _ => rfl
  exact congrArg Table.rows hrows

end Tables

theorem renumber_refl (l : Ledger) : l.renumber (.refl Int) = l := by
  apply Ledger.ext
  case builds => exact Table.rekey_of_fixed fun _ => rfl
  case outputs => exact Table.rekey_of_fixed fun _ => rfl
  case files => exact Table.ext_rows (List.map_id _)
  all_goals rfl

section Targets

theorem ownedBy_renumber {g : FileRow} : OwnedBy (l.renumber σ) package version g ↔
    ∃ f, OwnedBy l package version f ∧ f.renumber σ = g := by
  simp only [OwnedBy, mem_files_renumber, mem_builds_renumber]
  constructor
  · intro hmem
    obtain ⟨⟨f, hf, rfl⟩, _, ⟨b, hb, rfl⟩, hid, hv⟩ := hmem
    exact ⟨f, ⟨hf, b, hb, σ.injective hid, hv⟩, rfl⟩
  · intro hmem
    obtain ⟨f, ⟨hf, b, hb, hid, hv⟩, rfl⟩ := hmem
    exact ⟨⟨f, hf, rfl⟩, _, ⟨b, hb, rfl⟩, congrArg σ hid, hv⟩

theorem hasTag_renumber :
    HasTag (l.renumber σ) package version abi ↔ HasTag l package version abi := by
  simp only [HasTag, ownedBy_renumber]
  constructor
  · intro hmem
    obtain ⟨_, ⟨f, hf, rfl⟩, habi⟩ := hmem
    exact ⟨f, hf, habi⟩
  · intro hmem
    obtain ⟨f, hf, habi⟩ := hmem
    exact ⟨_, ⟨f, hf, rfl⟩, habi⟩

lemma bare_renumber {b : BuildRow} : Bare (l.renumber σ) (b.renumber σ) ↔ Bare l b := by
  rw [← owned_eq_nil_iff, ← owned_eq_nil_iff]
  change (l.renumber σ).owned (σ b.id) = [] ↔ _
  rw [owned_renumber, List.map_eq_nil_iff]

theorem asked_renumber :
    Asked (l.renumber σ) package version abi ↔ Asked l package version abi := by
  simp only [Asked, mem_builds_renumber]
  constructor
  · intro hmem
    obtain ⟨_, ⟨b, hb, rfl⟩, hp, hv, hbare, habi⟩ := hmem
    exact ⟨b, hb, hp, hv, bare_renumber.mp hbare, habi⟩
  · intro hmem
    obtain ⟨b, hb, hp, hv, hbare, habi⟩ := hmem
    exact ⟨_, ⟨b, hb, rfl⟩, hp, hv, bare_renumber.mpr hbare, habi⟩

theorem outstanding_renumber :
    Outstanding (l.renumber σ) package version abi ↔ Outstanding l package version abi := by
  rw [outstanding_iff, outstanding_iff, Done, Done, hasTag_renumber, hasTag_renumber,
    asked_renumber]
  rfl

theorem targets_renumber (σ : Equiv.Perm Int) (l : Ledger) : (l.renumber σ).targets = l.targets :=
  targets_ext fun t => by simp only [mem_targets_iff, outstanding_renumber]

end Targets

section Statistics

lemma nodup_eraseDups {α : Type} [BEq α] [LawfulBEq α] (xs : List α) : xs.eraseDups.Nodup := by
  match xs with
  | [] => exact List.nodup_nil
  | x :: xs =>
    rw [List.eraseDups_cons, List.nodup_cons, List.mem_eraseDups]
    exact ⟨by simp, nodup_eraseDups _⟩
termination_by xs.length
decreasing_by exact Nat.lt_succ_of_le (List.length_filter_le _ _)

lemma length_eraseDups_of_perm {α : Type} [BEq α] [LawfulBEq α] {xs ys : List α}
    (h : xs.Perm ys) : xs.eraseDups.length = ys.eraseDups.length := by
  refine List.Perm.length_eq ?_
  refine (List.perm_ext_iff_of_nodup (nodup_eraseDups xs) (nodup_eraseDups ys)).mpr fun a => ?_
  rw [List.mem_eraseDups, List.mem_eraseDups, h.mem_iff]

lemma storedSum_of_perm {ns ms : List Int} (h : ns.Perm ms) : storedSum ns = storedSum ms := by
  rw [storedSum, storedSum, h.foldl_eq]

lemma map_builds_renumber {α : Type} (σ : Equiv.Perm Int) (l : Ledger) {f : BuildRow → α}
    (hf : ∀ b, f (b.renumber σ) = f b) :
    ((l.renumber σ).builds.rows.map f).Perm (l.builds.rows.map f) := by
  have hp := (builds_renumber_perm σ l).map f
  have hmap : (l.builds.rows.map (·.renumber σ)).map f = l.builds.rows.map f := by
    rw [List.map_map]
    exact List.map_congr_left fun b _ => hf b
  rwa [hmap] at hp

lemma countP_builds_renumber (σ : Equiv.Perm Int) (l : Ledger) {p : BuildRow → Bool}
    (hp : ∀ b, p (b.renumber σ) = p b) :
    (l.renumber σ).builds.rows.countP p = l.builds.rows.countP p := by
  rw [(builds_renumber_perm σ l).countP_eq, List.countP_map]
  exact List.countP_congr fun b _ => by rw [Function.comp_apply, hp]

lemma packages_owners_renumber (σ : Equiv.Perm Int) (l : Ledger) :
    ((l.renumber σ).owners.map (·.package)).Perm (l.owners.map (·.package)) := by
  have hp := (builds_renumber_perm σ l).filter fun b => !((l.renumber σ).owned b.id).isEmpty
  have howners : (l.builds.rows.map (·.renumber σ)).filter
      (fun b => !((l.renumber σ).owned b.id).isEmpty) = l.owners.map (·.renumber σ) := by
    rw [List.filter_map]
    refine congrArg _ (List.filter_congr fun b _ => ?_)
    change (!((l.renumber σ).owned (σ b.id)).isEmpty) = _
    rw [owned_renumber, List.isEmpty_map]
  rw [howners] at hp
  have hp := hp.map (·.package)
  rwa [List.map_map] at hp

theorem statistics_renumber (σ : Equiv.Perm Int) (l : Ledger) (now : Int) :
    (l.renumber σ).statistics now = l.statistics now := by
  have htime := storedSum_of_perm (map_builds_renumber σ l (f := (·.milliseconds)) fun _ => rfl)
  have hsize : (l.renumber σ).files.rows.map (·.size) = l.files.rows.map (·.size) := by
    rw [files_renumber_rows, List.map_map]
    rfl
  have hpackages := length_eraseDups_of_perm (packages_owners_renumber σ l)
  have hversions := length_eraseDups_of_perm
    (map_builds_renumber σ l (f := fun b => (b.package, b.version)) fun _ => rfl)
  have hbuilds := (builds_renumber_perm σ l).length_eq
  rw [List.length_map] at hbuilds
  have hhour := countP_builds_renumber σ l (p := fun b => now - 3600 < b.builtAt) fun _ => rfl
  have hsuccess := countP_builds_renumber σ l (p := (·.success)) fun _ => rfl
  have hfiles : (l.renumber σ).files.rows.length = l.files.rows.length := List.length_map _
  simp only [statistics, htime, hsize, hpackages, hversions, hbuilds, hhour, hsuccess, hfiles]
  rfl

end Statistics

section History

lemma mapM_read {bs : List BuildRow} (h : ∀ b ∈ bs, Stored b.worker ∧ Stored b.milliseconds) :
    bs.mapM BuildRow.read = if bs.all fun b => Calendar.hasDate b.builtAt
      then .ok (bs.map BuildRow.toBuild) else .error (.invalidData .buildDate) := by
  induction bs with
  | nil => rfl
  | cons b bs ih =>
    obtain ⟨hb, hbs⟩ := List.forall_mem_cons.mp h
    have hread : b.read = if Calendar.hasDate b.builtAt then .ok b.toBuild
        else .error (.invalidData .buildDate) := by
      simp only [BuildRow.read, readWord, if_pos hb.1.1, if_pos hb.2.1]
      cases Calendar.hasDate b.builtAt <;> rfl
    rw [List.mapM_cons, hread, ih hbs, List.all_cons]
    cases Calendar.hasDate b.builtAt with
    | false => rfl
    | true => cases bs.all fun b => Calendar.hasDate b.builtAt <;> rfl

theorem buildsOf_eq (h : Sound l) (package version : String) : l.buildsOf package version =
    if (l.buildRows package version).all fun b => Calendar.hasDate b.builtAt
      then .ok ((l.buildRows package version).map BuildRow.toBuild)
      else .error (.invalidData .buildDate) :=
  mapM_read fun b hb => h.build_stored b (mem_buildRows.mp hb).1

theorem buildsOf_renumber (h : Sound l) (h' : Sound (l.renumber σ)) (package version : String) :
    (l.renumber σ).buildsOf package version =
      (l.buildsOf package version).map (renumberBuilds σ) := by
  have hkeys : (((l.buildRows package version).map (·.renumber σ)).map Keyed.key).Nodup :=
    Table.rekeyed_nodup σ.injective (fun _ => rfl) (l.builds.filter _).keys_nodup
  have hdates : ((l.renumber σ).buildRows package version).all
      (fun b => Calendar.hasDate b.builtAt) =
        (l.buildRows package version).all fun b => Calendar.hasDate b.builtAt := by
    rw [buildRows_renumber, (Table.rows_ofList_perm hkeys).all_eq, List.all_map]
    rfl
  have hread : ((l.renumber σ).buildRows package version).map BuildRow.toBuild =
      renumberBuilds σ ((l.buildRows package version).map BuildRow.toBuild) := by
    rw [buildRows_renumber, Table.map_rows_ofList (f := BuildRow.toBuild) (fun _ => rfl) hkeys,
      renumberBuilds, List.map_map, List.map_map]
    rfl
  rw [buildsOf_eq h, buildsOf_eq h', hdates, hread]
  split <;> rfl

lemma dependenciesOf_renumber (σ : Equiv.Perm Int) (l : Ledger) (filename : String) :
    (l.renumber σ).dependenciesOf filename = l.dependenciesOf filename := rfl

lemma filesWhere_renumber (h : Sound l) (h' : Sound (l.renumber σ)) {p q : FileRow → Bool}
    (hpq : ∀ f, p (f.renumber σ) = q f) :
    (l.renumber σ).filesWhere p = (l.filesWhere q).map (List.map (·.renumber σ)) := by
  have hrows : (l.renumber σ).files.rows.filter p =
      (l.files.rows.filter q).map (·.renumber σ) := by
    rw [files_renumber_rows, List.filter_map]
    exact congrArg _ (List.filter_congr fun f _ => hpq f)
  rw [filesWhere_eq h, filesWhere_eq h', hrows, List.map_map, Except.map, List.map_map]
  rfl

theorem filesOfBuild_renumber (h : Sound l) (h' : Sound (l.renumber σ)) (build : Int) :
    (l.renumber σ).filesOfBuild (σ build) =
      (l.filesOfBuild build).map (List.map (·.renumber σ)) :=
  filesWhere_renumber h h' fun _ => decide_eq_decide.mpr σ.injective.eq_iff

theorem filesOfPackage_renumber (h : Sound l) (h' : Sound (l.renumber σ)) (package : String) :
    (l.renumber σ).filesOfPackage package =
      (l.filesOfPackage package).map (List.map (·.renumber σ)) := by
  refine filesWhere_renumber h h' fun f => ?_
  rw [Bool.eq_iff_iff, List.any_eq_true, List.any_eq_true]
  simp only [decide_eq_true_eq, Table.mem_rows, mem_builds_renumber]
  constructor
  · intro hmem
    obtain ⟨_, ⟨b, hb, rfl⟩, hid, hp⟩ := hmem
    exact ⟨b, hb, σ.injective hid, hp⟩
  · intro hmem
    obtain ⟨b, hb, hid, hp⟩ := hmem
    exact ⟨_, ⟨b, hb, rfl⟩, congrArg σ hid, hp⟩

end History

end Ledger
end WheelFarm
