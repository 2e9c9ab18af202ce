import WheelFarm.Proofs.Ledger.Progress

/-! What the ledger says about one version is changed by few operations: those on the version itself,
on its package's skip reason or on the registry of ABIs, and commits that take over its files. All
other ones leave its next target, its builds, their logs and their files as they were. -/
namespace WheelFarm.Ledger
open Wheel

variable {l l' l'' : Ledger} {package version abi : String}

/-- Ledgers with the same attempts at a version, with their logs and files. -/
structure SameAttempts (package version : String) (l l' : Ledger) : Prop where
  builds : l'.buildRows package version = l.buildRows package version
  output : ∀ b ∈ l.buildRows package version, l'.outputs.find? b.id = l.outputs.find? b.id
  files : ∀ b ∈ l.buildRows package version, l'.owned b.id = l.owned b.id
  dependencies : ∀ b ∈ l.buildRows package version, ∀ g ∈ l.owned b.id,
    l'.dependenciesOf g.filename = l.dependenciesOf g.filename

/-- Ledgers whose catalogs hold the same for a version. -/
structure SameEntry (package version : String) (l l' : Ledger) : Prop where
  abis : l'.abis = l.abis
  versions : ∀ v : Version, v.package = package → v.version = version →
    (v ∈ l'.versions ↔ v ∈ l.versions)
  /-- Where the version is there at all, its package is the same. -/
  packages : ∀ v ∈ l.versions, v.package = package → v.version = version →
    ∀ p : Package, p.name = package → (p ∈ l'.packages ↔ p ∈ l.packages)

section Reads

theorem SameAttempts.trans (h : SameAttempts package version l l')
    (h' : SameAttempts package version l' l'') : SameAttempts package version l l'' where
  builds := h'.builds.trans h.builds
  output b hb := (h'.output b (h.builds ▸ hb)).trans (h.output b hb)
  files b hb := (h'.files b (h.builds ▸ hb)).trans (h.files b hb)
  dependencies b hb g hg :=
    (h'.dependencies b (h.builds ▸ hb) g (h.files b hb ▸ hg)).trans (h.dependencies b hb g hg)

lemma ownedBy_iff {g : FileRow} :
    OwnedBy l package version g ↔ ∃ b ∈ l.buildRows package version, g ∈ l.owned b.id := by
  simp only [OwnedBy, mem_buildRows, mem_owned]
  grind

lemma asked_iff : Asked l package version abi ↔
    ∃ b ∈ l.buildRows package version, l.owned b.id = [] ∧ b.abi = abi := by
  simp only [Asked, mem_buildRows, owned_eq_nil_iff, and_assoc]

theorem SameAttempts.ownedBy_iff (h : SameAttempts package version l l') {g : FileRow} :
    OwnedBy l' package version g ↔ OwnedBy l package version g := by
  rw [Ledger.ownedBy_iff, Ledger.ownedBy_iff, h.builds]
  exact exists_congr fun b => and_congr_right fun hb => by rw [h.files b hb]

theorem SameAttempts.asked_iff (h : SameAttempts package version l l') :
    Asked l' package version abi ↔ Asked l package version abi := by
  rw [Ledger.asked_iff, Ledger.asked_iff, h.builds]
  exact exists_congr fun b => and_congr_right fun hb => by rw [h.files b hb]

theorem SameAttempts.done_iff (h : SameAttempts package version l l') :
    Done l' package version abi ↔ Done l package version abi := by
  simp only [Done, HasTag, h.ownedBy_iff, h.asked_iff]

/-- The builds of a version are read from its attempts alone. -/
theorem SameAttempts.buildsOf (h : SameAttempts package version l l') :
    l'.buildsOf package version = l.buildsOf package version := by
  rw [Ledger.buildsOf, Ledger.buildsOf, h.builds]

theorem SameAttempts.outputOf (h : SameAttempts package version l l') {b : BuildRow}
    (hb : b ∈ l.buildRows package version) : l'.outputOf b.id = l.outputOf b.id := by
  rw [Ledger.outputOf, Ledger.outputOf, h.output b hb]

theorem SameAttempts.filesOfBuild (h : SameAttempts package version l l') (hl : Sound l)
    (hl' : Sound l') {b : BuildRow} (hb : b ∈ l.buildRows package version) :
    l'.filesOfBuild b.id = l.filesOfBuild b.id := by
  rw [Ledger.filesOfBuild, Ledger.filesOfBuild, filesWhere_eq hl, filesWhere_eq hl']
  change Except.ok ((l'.owned b.id).map l'.recordOf) = .ok ((l.owned b.id).map l.recordOf)
  rw [h.files b hb]
  refine congrArg Except.ok (List.map_congr_left fun g hg => ?_)
  rw [recordOf, recordOf, h.dependencies b hb g hg]

theorem SameEntry.eligible_iff (h : SameEntry package version l l') :
    Eligible l' package version abi ↔ Eligible l package version abi := by
  rw [Eligible, Eligible, h.abis]
  constructor
  · intro hmem
    obtain ⟨⟨p, hp, hn, hps⟩, ⟨v, hv, hvp, hvv, hvs⟩, ha⟩ := hmem
    have hv := (h.versions v hvp hvv).mp hv
    exact ⟨⟨p, (h.packages v hv hvp hvv p hn).mp hp, hn, hps⟩, ⟨v, hv, hvp, hvv, hvs⟩, ha⟩
  · intro hmem
    obtain ⟨⟨p, hp, hn, hps⟩, ⟨v, hv, hvp, hvv, hvs⟩, ha⟩ := hmem
    exact ⟨⟨p, (h.packages v hv hvp hvv p hn).mpr hp, hn, hps⟩,
      ⟨v, (h.versions v hvp hvv).mpr hv, hvp, hvv, hvs⟩, ha⟩

theorem outstanding_congr (hentry : SameEntry package version l l')
    (hattempts : SameAttempts package version l l') :
    Outstanding l' package version abi ↔ Outstanding l package version abi := by
  rw [outstanding_iff, outstanding_iff, hentry.eligible_iff, hattempts.done_iff]

end Reads

section History

theorem SameHistory.sameAttempts (h : SameHistory l l') (package version : String) :
    SameAttempts package version l l' where
  builds := by rw [buildRows, buildRows, h.builds]
  output _ _ := by rw [h.outputs]
  files _ _ := by rw [owned, owned, h.files]
  dependencies _ _ _ _ := by rw [dependenciesOf, dependenciesOf, h.dependencies]

lemma dependenciesOf_congr {filename : String}
    (h : ∀ d : DependencyRow, d.filename = filename → (d ∈ l'.dependencies ↔ d ∈ l.dependencies)) :
    l'.dependenciesOf filename = l.dependenciesOf filename := by
  have hrows := congrArg Table.rows
    (Table.filter_congr (p := fun d => d.filename = filename) fun d hd => h d (of_decide_eq_true hd))
  simp only [Table.filter] at hrows
  rw [dependenciesOf, dependenciesOf, hrows]

lemma owned_congr {build : Int} (h : ∀ g : FileRow, g.build = build → (g ∈ l'.files ↔ g ∈ l.files)) :
    l'.owned build = l.owned build :=
  congrArg Table.rows (Table.filter_congr fun g hg => h g (of_decide_eq_true hg))

/-- Dropping the builds of one version leaves the other ones alone, since a row refers to one
build. -/
theorem sameAttempts_dropBuilds {p v : String} (hother : ¬ (p = package ∧ v = version)) :
    SameAttempts package version l (l.dropBuilds fun b => b.package = p ∧ b.version = v) := by
  have hkept : ∀ b ∈ l.buildRows package version,
      b ∈ (l.dropBuilds fun b => b.package = p ∧ b.version = v).builds := by
    intro b hb
    obtain ⟨hm, rfl, rfl⟩ := mem_buildRows.mp hb
    exact mem_builds_dropBuilds.mpr
      ⟨hm, decide_eq_false fun hv => hother ⟨hv.1.symm, hv.2.symm⟩⟩
  constructor
  case builds => rw [buildRows_dropBuilds, if_neg hother]
  case output =>
    refine fun b hb => Table.find?_congr fun o ho => ?_
    rw [mem_outputs_dropBuilds]
    exact ⟨And.left, fun hm => ⟨hm, b, hkept b hb, ho.symm⟩⟩
  case files =>
    refine fun b hb => owned_congr fun g hg => ?_
    rw [mem_files_dropBuilds]
    exact ⟨And.left, fun hm => ⟨hm, b, hkept b hb, hg.symm⟩⟩
  case dependencies =>
    intro b hb g hg
    obtain ⟨hg, hid⟩ := mem_owned.mp hg
    refine dependenciesOf_congr fun d hd => ?_
    rw [mem_dependencies_dropBuilds]
    refine ⟨And.left, fun hm => ⟨hm, g, ?_, hd.symm⟩⟩
    exact mem_files_dropBuilds.mpr ⟨hg, b, hkept b hb, hid.symm⟩

/-- A commit leaves the versions alone that it neither is of nor takes files from. -/
theorem sameAttempts_recorded (h : Sound l) {now : Int} {r : BuildReport} (hr : ¬ Malformed r)
    (hother : ¬ (r.package = package ∧ r.version = version))
    (hspared : ∀ g, OwnedBy l package version g → Spared r g) :
    SameAttempts package version l (l.recorded now r) := by
  have hnames := filenames_nodup hr
  have hold : ∀ b ∈ l.buildRows package version, b.id ≠ l.lastBuild + 1 := fun b hb =>
    h.build_ne_next b (mem_buildRows.mp hb).1
  constructor
  case builds => rw [buildRows_recorded h, if_neg hother, List.append_nil]
  case output =>
    refine fun b hb => Table.find?_congr fun o ho => ?_
    rw [recorded_outputs, Table.mem_put]
    constructor
    · intro hmem
      rcases hmem with rfl | ⟨hm, -⟩
      · exact absurd ho.symm (hold b hb)
      · exact hm
    · exact fun hm => .inr ⟨hm, h.output_ne_next o hm⟩
  case files =>
    refine fun b hb => owned_congr fun g hg => ?_
    rw [mem_files_recorded hnames]
    constructor
    · intro hmem
      rcases hmem with ⟨f, -, rfl⟩ | ⟨hm, -⟩
      · exact absurd hg.symm (hold b hb)
      · exact hm
    · exact fun hm => .inr ⟨hm, hspared g (ownedBy_iff.mpr ⟨b, hb, mem_owned.mpr ⟨hm, hg⟩⟩)⟩
  case dependencies =>
    intro b hb g hg
    have hg := hspared g (ownedBy_iff.mpr ⟨b, hb, hg⟩)
    refine dependenciesOf_congr fun d hd => ?_
    rw [mem_dependencies_recorded h.file_of_dependency hnames]
    constructor
    · intro hmem
      rcases hmem with ⟨f, hf, hname, -⟩ | ⟨hm, -⟩
      · exact absurd (hd.symm.trans hname) (hg f hf)
      · exact hm
    · exact fun hm => .inr ⟨hm, fun f hf hname => hg f hf (hd.symm.trans hname)⟩

end History

/-- The operations that may change what the ledger says about a version. -/
def Operation.Concerns (l : Ledger) (package version : String) : Operation → Prop
  | .addAbi _ | .removeAbi _ => True
  | .skipPackage p _ => p = package
  | .addVersion p v _ _ | .skipVersion p v _ | .deleteVersion p v | .forget p v =>
    p = package ∧ v = version
  | .commit r => (r.package = package ∧ r.version = version) ∨
    ∃ g, OwnedBy l package version g ∧ ¬ Spared r g
  | .addPackage _ _ | .deletePackage _ | .setSerial _ => False

section Catalog

lemma sameEntry_of_eq (habis : l'.abis = l.abis) (hversions : l'.versions = l.versions)
    (hpackages : l'.packages = l.packages) : SameEntry package version l l' :=
  ⟨habis, fun _ _ _ => by rw [hversions], fun _ _ _ _ _ _ => by rw [hpackages]⟩

theorem SameEntry.rfl : SameEntry package version l l :=
  sameEntry_of_eq (.refl _) (.refl _) (.refl _)

theorem sameEntry_addPackage (h : Sound l) (p : String) (skip : Option String) :
    SameEntry package version l (l.addPackage p skip).2 := by
  rw [addPackage_eq]
  split
  · exact .rfl
  · next hfree =>
    refine ⟨rfl, fun _ _ _ => .rfl, fun v hv hvp _ q hq => ?_⟩
    -- The package of a version is in the catalog, so it is not the new one.
    obtain ⟨q', hq', hn⟩ := h.package_of_version v hv
    have hne : q.name ≠ p := by
      rintro rfl
      exact hfree (Table.has_iff.mpr ⟨q', hq', hn.trans (hvp.trans hq.symm)⟩)
    rw [Table.mem_put]
    exact ⟨fun hmem => hmem.elim (fun he => absurd (congrArg Package.name he) hne) And.left,
      fun hm => .inr ⟨hm, hne⟩⟩

theorem sameEntry_addVersion {p v : String} {released : Int} {skip : Option String} {done : Bool}
    (hl : l.addVersion p v released skip = .ok (done, l'))
    (hother : ¬ (p = package ∧ v = version)) : SameEntry package version l l' := by
  rw [addVersion_eq] at hl
  split_ifs at hl <;> cases hl
  · exact .rfl
  · refine ⟨rfl, fun w hwp hwv => ?_, fun _ _ _ _ _ _ => .rfl⟩
    have hne : Keyed.key w ≠ (p, v) := by
      intro he
      cases he
      exact hother ⟨hwp, hwv⟩
    rw [Table.mem_put]
    exact ⟨fun hmem => hmem.elim (fun he => absurd (congrArg Keyed.key he) hne) And.left,
      fun hm => .inr ⟨hm, hne⟩⟩

theorem sameEntry_skipPackage {p : String} (hother : p ≠ package) (reason : String) :
    SameEntry package version l (l.skipPackage p reason) := by
  refine ⟨rfl, fun _ _ _ => .rfl, fun _ _ _ _ q hq => ?_⟩
  have hskip : ∀ x : Package, x.name = package → x.skipIf p reason = x := fun x hx =>
    if_neg fun he => hother (he.symm.trans hx)
  rw [mem_packages_skipPackage]
  constructor
  · intro hmem
    obtain ⟨x, hx, rfl⟩ := hmem
    rwa [hskip x ((Package.name_skipIf p reason x).symm.trans hq)]
  · exact fun hm => ⟨q, hm, hskip q hq⟩

theorem sameEntry_skipVersion {p v : String} (hother : ¬ (p = package ∧ v = version))
    (reason : String) : SameEntry package version l (l.skipVersion p v reason) := by
  refine ⟨rfl, fun w hwp hwv => ?_, fun _ _ _ _ _ _ => .rfl⟩
  have hskip : ∀ x : Version, Keyed.key x = (package, version) → x.skipIf p v reason = x := by
    intro x hx
    cases hx
    exact if_neg fun he => hother ⟨he.1.symm, he.2.symm⟩
  rw [mem_versions_skipVersion]
  constructor
  · intro hmem
    obtain ⟨x, hx, rfl⟩ := hmem
    rwa [hskip x ((Version.key_skipIf p v reason x).symm.trans (congrArg₂ Prod.mk hwp hwv))]
  · exact fun hm => ⟨w, hm, hskip w (congrArg₂ Prod.mk hwp hwv)⟩

theorem sameEntry_dropVersion {p v : String} (hother : ¬ (p = package ∧ v = version)) :
    SameEntry package version l (l.dropVersion p v) := by
  refine ⟨rfl, fun w hwp hwv => ?_, fun _ _ _ _ _ _ => .rfl⟩
  refine Table.mem_filter.trans ⟨And.left, fun hm => ⟨hm, ?_⟩⟩
  rw [Bool.not_eq_true', decide_eq_false_iff_not, hwp, hwv]
  exact fun he => hother ⟨he.1.symm, he.2.symm⟩

theorem sameEntry_deletePackage {p : String} {done : Bool}
    (hl : l.deletePackage p = .ok (done, l')) : SameEntry package version l l' := by
  rw [deletePackage] at hl
  split_ifs at hl with hunused
  cases hl
  refine ⟨rfl, fun _ _ _ => .rfl, fun v hv hvp _ q hq => ?_⟩
  refine Table.mem_filter.trans ⟨And.left, fun hm => ⟨hm, decide_eq_true fun he => hunused ?_⟩⟩
  exact List.any_eq_true.mpr ⟨v, hv, decide_eq_true (hvp.trans (hq.symm.trans he))⟩

theorem sameEntry_recorded {now : Int} {r : BuildReport} :
    SameEntry package version l (l.recorded now r) :=
  sameEntry_of_eq recorded_abis recorded_versions recorded_packages

end Catalog

section Step

lemma sameEntry_perform (h : Sound l) {now : Int} {op : Operation} {reply : Reply}
    (hp : l.perform now op = .ok (reply, l')) (hop : ¬ op.Concerns l package version) :
    SameEntry package version l l' := by
  cases op with
  | addPackage p skip =>
    cases hp
    exact sameEntry_addPackage h p skip
  | addVersion p v released skip =>
    obtain ⟨⟨done, l'⟩, hl, he⟩ := map_eq_ok hp
    cases he
    exact sameEntry_addVersion hl hop
  | skipPackage p reason =>
    cases hp
    exact sameEntry_skipPackage hop reason
  | skipVersion p v reason =>
    cases hp
    exact sameEntry_skipVersion hop reason
  | deleteVersion p v =>
    cases hp
    exact sameEntry_dropVersion hop
  | deletePackage p =>
    obtain ⟨⟨done, l'⟩, hl, he⟩ := map_eq_ok hp
    cases he
    exact sameEntry_deletePackage hl
  | addAbi abi => exact absurd trivial hop
  | removeAbi abi => exact absurd trivial hop
  | commit r =>
    obtain ⟨⟨id, l'⟩, hl, he⟩ := map_eq_ok hp
    cases he
    obtain ⟨-, -, -, -, rfl⟩ := (commit_eq_ok_iff h).mp hl
    exact sameEntry_recorded
  | forget p v =>
    cases hp
    exact sameEntry_of_eq rfl rfl rfl
  | setSerial serial =>
    obtain ⟨l', hl, he⟩ := map_eq_ok hp
    cases he
    rw [setSerial_eq h.serial_stored] at hl
    split_ifs at hl
    cases hl
    exact sameEntry_of_eq rfl rfl rfl

theorem sameEntry_step (h : Sound l) (now : Int) {op : Operation}
    (hop : ¬ op.Concerns l package version) : SameEntry package version l (l.step now op).2 := by
  rw [step]
  split
  · next hp => exact sameEntry_perform h hp hop
  · exact .rfl

lemma Entry.operation_of_commit? {e : Entry} {c : Commit} (h : e.commit? = some c) :
    e.operation = .commit c.report := by
  rw [commit?] at h
  split at h
  · next hop _ =>
    cases h
    exact hop
  · cases h

/-- A step that does not concern a version leaves its attempts alone, whichever effect it has. -/
theorem sameAttempts_step (h : Sound l) (now : Int) {op : Operation}
    (hop : ¬ op.Concerns l package version) :
    SameAttempts package version l (l.step now op).2 := by
  cases effect_step h now op with
  | recorded r hr _ hcommit _ hl =>
    have hr' : op = .commit r := Entry.operation_of_commit? hcommit
    subst hr'
    rw [hl]
    refine sameAttempts_recorded h hr (fun hv => hop (.inl hv)) fun g hg => ?_
    exact not_not.mp fun hspared => hop (.inr ⟨g, hg, hspared⟩)
  | dropped p v _ hdrops hl =>
    have hother : ¬ (p = package ∧ v = version) := by
      intro hv
      have hd := (hdrops package version).mpr hv
      rw [Entry.drops, Bool.or_eq_true, decide_eq_true_eq, decide_eq_true_eq] at hd
      change op = .forget package version ∨ op = .deleteVersion package version at hd
      rcases hd with rfl | rfl <;> exact hop ⟨rfl, rfl⟩
    exact (sameAttempts_dropBuilds hother).trans (hl.sameAttempts package version)
  | kept _ _ hl => exact hl.sameAttempts package version

end Step

/-- An operation that does not concern a version, be it one that succeeds or one that fails, leaves
the version its place among the targets, its builds, their logs and their files. -/
theorem step_local (ops : List (Int × Operation)) (now : Int) {op : Operation}
    {package version : String} (hop : ¬ op.Concerns (run {} ops) package version) :
    (∀ abi, ⟨package, version, abi⟩ ∈ ((run {} ops).step now op).2.targets ↔
      ⟨package, version, abi⟩ ∈ (run {} ops).targets) ∧
    ((run {} ops).step now op).2.buildsOf package version =
      (run {} ops).buildsOf package version ∧
    ∀ b ∈ (run {} ops).buildRows package version,
      ((run {} ops).step now op).2.outputOf b.id = (run {} ops).outputOf b.id ∧
      ((run {} ops).step now op).2.filesOfBuild b.id = (run {} ops).filesOfBuild b.id := by
  have h := sound_run sound_fresh ops
  have hattempts := sameAttempts_step h now hop
  have hentry := sameEntry_step h now hop
  refine ⟨fun abi => ?_, hattempts.buildsOf, fun b hb => ⟨hattempts.outputOf hb, ?_⟩⟩
  · simp only [mem_targets_iff, outstanding_congr hentry hattempts]
  · exact hattempts.filesOfBuild h (sound_step h now op) hb

/-- A run in which a version has lost its wheel to another one and is to be built again. -/
def bereftRun : List (Int × Operation) :=
  takeoverRun ++ [(180, .addAbi "cp312"), (180, .addAbi "cp313")]

/-- When the version that has the wheel is deleted, the wheel does not fall back to the other one. -/
theorem target_of_bereftRun :
    ¬ (Operation.deleteVersion "six" "1.17.0").Concerns (run {} bereftRun) "six" "1.16.0" ∧
      (⟨"six", "1.16.0", "cp313"⟩ : Target) ∈
        ((run {} bereftRun).step 240 (.deleteVersion "six" "1.17.0")).2.targets := by
  have hop : ¬ (Operation.deleteVersion "six" "1.17.0").Concerns (run {} bereftRun)
      "six" "1.16.0" := fun hv => absurd hv.2 (by decide)
  refine ⟨hop, ((step_local bereftRun 240 hop).1 "cp313").mpr ?_⟩
  decide +kernel

end WheelFarm.Ledger
