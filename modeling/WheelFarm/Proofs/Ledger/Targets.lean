import WheelFarm.Ledger.Targets
import WheelFarm.Proofs.ByteOrder
import WheelFarm.Proofs.Ledger.Writes

/-! What is to be built next, told by the rows of the ledger. A version that is open for builds is
built for the least registered ABI that it was not tried for, and an ABI counts as tried by what
its builds own: by the files of a build that owns any, by the ABI asked for otherwise. -/
namespace WheelFarm.Ledger
open Wheel Text

variable {l : Ledger}

/-- A file that a build of a version owns. -/
def OwnedBy (l : Ledger) (package version : String) (f : FileRow) : Prop :=
  f ∈ l.files ∧ ∃ b ∈ l.builds, b.id = f.build ∧ b.package = package ∧ b.version = version

/-- A build that owns no file, because it produced none or because other builds took them over. -/
def Bare (l : Ledger) (b : BuildRow) : Prop := ∀ f ∈ l.files, f.build ≠ b.id

/-- A registered ABI that a version was not tried for. -/
structure Untried (l : Ledger) (package version abi : String) : Prop where
  registered : abi ∈ l.abis
  unowned : ∀ f, OwnedBy l package version f → f.tags.abi ≠ abi
  unasked : ∀ b ∈ l.builds, b.package = package → b.version = version → Bare l b → b.abi ≠ abi

/-- A target that is to be built next. -/
structure IsNext (l : Ledger) (t : Target) : Prop where
  package_open : ∃ p ∈ l.packages, p.name = t.package ∧ p.skip = none
  version_open : ∃ v ∈ l.versions, v.package = t.package ∧ v.version = t.version ∧ v.skip = none
  unsettled : ∀ f, OwnedBy l t.package t.version f → f.tags.abi ≠ "none"
  untried : Untried l t.package t.version t.abi
  least : ∀ abi, Untried l t.package t.version abi → abi ≠ t.abi → bytes t.abi < bytes abi

/-- A target comes before another one by its package, and then by its version. -/
def Target.Before (t u : Target) : Prop :=
  bytes t.package < bytes u.package ∨
    (t.package = u.package ∧ bytes t.version < bytes u.version)

lemma Target.eq_of_eq {t u : Target} (hp : t.package = u.package) (hv : t.version = u.version)
    (ha : t.abi = u.abi) : t = u := by
  cases t
  cases u
  simp_all

lemma owned_eq_nil_iff {b : BuildRow} : l.owned b.id = [] ↔ Bare l b := by
  rw [owned, List.filter_eq_nil_iff]
  simp only [decide_eq_true_eq]
  rfl

/-- A build that owns files was an attempt for exactly their tags. -/
theorem isAttempt_of_owned {b : BuildRow} {f : FileRow} (hf : f ∈ l.files) (hb : f.build = b.id)
    (abi : String) :
    l.isAttempt abi b = true ↔ ∃ g ∈ l.files, g.build = b.id ∧ g.tags.abi = abi := by
  rw [isAttempt]
  split
  · next hnil => exact absurd hb (owned_eq_nil_iff.mp hnil f hf)
  · rw [List.any_eq_true]
    simp only [mem_owned, decide_eq_true_eq, and_assoc]

/-- A build without files was an attempt for the ABI that was asked for. -/
theorem isAttempt_of_bare {b : BuildRow} (hb : Bare l b) (abi : String) :
    l.isAttempt abi b = true ↔ b.abi = abi := by
  rw [isAttempt, owned_eq_nil_iff.mpr hb, decide_eq_true_eq]

lemma isSettled_eq_false_iff {package version : String} : l.isSettled package version = false ↔
    ∀ f, OwnedBy l package version f → f.tags.abi ≠ universalAbi := by
  simp only [isSettled, List.any_eq_false, List.any_eq_true, decide_eq_true_eq, mem_buildRows,
    mem_owned, not_exists, not_and, OwnedBy, ne_eq]
  constructor
  · intro h f howned
    obtain ⟨hf, b, hb, hid, hv⟩ := howned
    exact h b ⟨hb, hv⟩ f ⟨hf, hid.symm⟩
  · rintro h b ⟨hb, hv⟩ f ⟨hf, hid⟩
    exact h f ⟨hf, b, hb, hid.symm, hv⟩

lemma isOpen_iff {v : Version} :
    l.isOpen v = true ↔ v.skip = none ∧ ∃ p ∈ l.packages, p.name = v.package ∧ p.skip = none := by
  simp only [isOpen, Bool.and_eq_true, Option.isNone_iff_eq_none, List.any_eq_true,
    decide_eq_true_eq, Table.mem_rows]

lemma untried_iff {package version abi : String} : Untried l package version abi ↔
    abi ∈ l.abis ∧ ∀ b ∈ l.buildRows package version, l.isAttempt abi b = false := by
  simp only [← Bool.not_eq_true, mem_buildRows]
  constructor
  · intro huntried
    obtain ⟨hr, ho, ha⟩ := huntried
    refine ⟨hr, fun b ⟨hb, hp, hv⟩ hattempt => ?_⟩
    -- What a build was an attempt for depends on whether it is left with files.
    by_cases hbare : Bare l b
    · exact ha b hb hp hv hbare ((isAttempt_of_bare hbare abi).mp hattempt)
    · simp only [Bare, not_forall, not_not] at hbare
      obtain ⟨f, hf, hid⟩ := hbare
      obtain ⟨g, hg, hgid, habi⟩ := (isAttempt_of_owned hf hid abi).mp hattempt
      exact ho g ⟨hg, b, hb, hgid.symm, hp, hv⟩ habi
  · intro hnone
    obtain ⟨hr, h⟩ := hnone
    refine ⟨hr, ?_, ?_⟩
    · rintro f ⟨hf, b, hb, hid, hv⟩ habi
      exact h b ⟨hb, hv⟩ ((isAttempt_of_owned hf hid.symm abi).mpr ⟨f, hf, hid.symm, habi⟩)
    · intro b hb hp hv hbare habi
      exact h b ⟨hb, hp, hv⟩ ((isAttempt_of_bare hbare abi).mpr habi)

lemma head?_outstanding_eq_some_iff {v : Version} {abi : String} :
    (l.outstanding v).head? = some abi ↔
      l.isOpen v = true ∧ l.isSettled v.package v.version = false ∧
        Untried l v.package v.version abi ∧
          ∀ a, Untried l v.package v.version a → a ≠ abi → abi < a := by
  rw [outstanding]
  split
  · next h =>
    rw [Bool.and_eq_true, Bool.not_eq_true'] at h
    rw [Table.head?_filter_eq_some_iff]
    simp only [h.1, h.2, untried_iff, Bool.not_eq_true', List.any_eq_false, Bool.not_eq_true]
    constructor
    · intro hleast
      obtain ⟨hr, ha, hl⟩ := hleast
      exact ⟨trivial, trivial, ⟨hr, ha⟩, fun a ⟨har, haa⟩ hne => hl a har haa hne⟩
    · intro hleast
      obtain ⟨-, -, ⟨hr, ha⟩, hl⟩ := hleast
      exact ⟨hr, ha, fun a har haa hne => hl a ⟨har, haa⟩ hne⟩
  · next h =>
    rw [List.head?_nil]
    constructor
    · intro he
      cases he
    · intro hleast
      obtain ⟨ho, hs, -⟩ := hleast
      exact absurd (by rw [ho, hs]; rfl) h

/-- The targets are the ones that the rows of the ledger ask for. -/
theorem mem_targets {t : Target} : t ∈ l.targets ↔ IsNext l t := by
  rw [targets, List.mem_filterMap]
  constructor
  · intro hmem
    obtain ⟨v, hv, ht⟩ := hmem
    obtain ⟨abi, habi, rfl⟩ := Option.map_eq_some_iff.mp ht
    obtain ⟨ho, hs, hu, hl⟩ := head?_outstanding_eq_some_iff.mp habi
    obtain ⟨hskip, hp⟩ := isOpen_iff.mp ho
    exact ⟨hp, ⟨v, hv, rfl, rfl, hskip⟩, isSettled_eq_false_iff.mp hs, hu,
      fun a ha hne => bytes_lt_iff.mpr (hl a ha hne)⟩
  · intro hnext
    obtain ⟨hp, ⟨v, hv, hvp, hvv, hskip⟩, hs, hu, hl⟩ := hnext
    refine ⟨v, hv, Option.map_eq_some_iff.mpr ⟨t.abi, ?_, by rw [hvp, hvv]⟩⟩
    rw [head?_outstanding_eq_some_iff, isOpen_iff, isSettled_eq_false_iff, hvp, hvv]
    exact ⟨⟨hskip, hp⟩, hs, hu, fun a ha hne => bytes_lt_iff.mp (hl a ha hne)⟩

/-- Targets come in the order of the versions. -/
theorem targets_ordered (l : Ledger) : l.targets.Pairwise Target.Before := by
  refine l.versions.ordered.filterMap _ fun v w hvw t ht u hu => ?_
  obtain ⟨a, -, rfl⟩ := Option.map_eq_some_iff.mp ht
  obtain ⟨b, -, rfl⟩ := Option.map_eq_some_iff.mp hu
  rcases hvw with hp | ⟨hp, hv⟩
  · exact .inl (bytes_lt_iff.mpr hp)
  · exact .inr ⟨hp, bytes_lt_iff.mpr hv⟩

section Query

/-- Every open version with every registered ABI. -/
def candidates (l : Ledger) : List Target :=
  (l.packages.rows.filter (·.skip.isNone)).flatMap fun p =>
    (l.versions.rows.filter fun v => v.package = p.name ∧ v.skip = none).flatMap fun v =>
      l.abis.rows.map fun abi => ⟨v.package, v.version, abi⟩

/-- Every build with each of its files, and the builds without files once. -/
def joined (l : Ledger) : List (BuildRow × Option FileRow) :=
  l.builds.rows.flatMap fun b =>
    match l.owned b.id with
    | [] => [(b, none)]
    | files => files.map fun f => (b, some f)

/-- The versions that own a universal wheel. -/
def settled (l : Ledger) : List (String × String) :=
  (l.joined.filter fun j => j.2.any fun f => f.tags.abi = universalAbi).map fun j =>
    (j.1.package, j.1.version)

/-- What was tried: the tag of a file if there is one, and otherwise what was asked for. -/
def tried (l : Ledger) : List Target :=
  (l.joined.filter fun j => j.2.all fun f => f.tags.abi ≠ universalAbi).map fun j =>
    ⟨j.1.package, j.1.version, (j.2.map (·.tags.abi)).getD j.1.abi⟩

/-- The candidates of versions without a universal wheel, less what was tried. -/
def pending (l : Ledger) : List Target :=
  (l.candidates.filter fun t => (t.package, t.version) ∉ l.settled).filter fun t => t ∉ l.tried

lemma mem_candidates {t : Target} : t ∈ l.candidates ↔
    (∃ p ∈ l.packages, p.name = t.package ∧ p.skip = none) ∧
      (∃ v ∈ l.versions, v.package = t.package ∧ v.version = t.version ∧ v.skip = none) ∧
        t.abi ∈ l.abis := by
  simp only [candidates, List.mem_flatMap, List.mem_filter, List.mem_map, decide_eq_true_eq,
    Option.isNone_iff_eq_none, Table.mem_rows]
  constructor
  · intro hmem
    obtain ⟨p, ⟨hp, hps⟩, v, ⟨hv, hvp, hvs⟩, abi, ha, rfl⟩ := hmem
    exact ⟨⟨p, hp, hvp.symm, hps⟩, ⟨v, hv, rfl, rfl, hvs⟩, ha⟩
  · intro hmem
    obtain ⟨⟨p, hp, hpn, hps⟩, ⟨v, hv, hvp, hvv, hvs⟩, ha⟩ := hmem
    exact ⟨p, ⟨hp, hps⟩, v, ⟨hv, hvp.trans hpn.symm, hvs⟩, t.abi, ha, by rw [hvp, hvv]⟩

lemma mem_joined_none {b : BuildRow} : (b, none) ∈ l.joined ↔ b ∈ l.builds ∧ Bare l b := by
  simp only [joined, List.mem_flatMap, ← owned_eq_nil_iff]
  constructor
  · intro hmem
    obtain ⟨c, hc, hm⟩ := hmem
    split at hm
    · next hnil =>
      cases List.mem_singleton.mp hm
      exact ⟨hc, hnil⟩
    · simp at hm
  · intro hmem
    obtain ⟨hb, hnil⟩ := hmem
    refine ⟨b, hb, ?_⟩
    rw [hnil]
    exact List.mem_singleton.mpr rfl

lemma mem_joined_some {b : BuildRow} {f : FileRow} :
    (b, some f) ∈ l.joined ↔ b ∈ l.builds ∧ f ∈ l.files ∧ f.build = b.id := by
  simp only [joined, List.mem_flatMap, ← mem_owned]
  constructor
  · intro hmem
    obtain ⟨c, hc, hm⟩ := hmem
    split at hm
    · simp at hm
    · obtain ⟨g, hg, he⟩ := List.mem_map.mp hm
      cases he
      exact ⟨hc, hg⟩
  · intro hmem
    obtain ⟨hb, hf⟩ := hmem
    refine ⟨b, hb, ?_⟩
    split
    · next hnil => exact absurd (hnil ▸ hf) List.not_mem_nil
    · exact List.mem_map.mpr ⟨f, hf, rfl⟩

lemma mem_settled {package version : String} : (package, version) ∈ l.settled ↔
    ∃ f, OwnedBy l package version f ∧ f.tags.abi = universalAbi := by
  simp only [settled, List.mem_map, List.mem_filter, Option.any_eq_true, decide_eq_true_eq,
    Prod.mk.injEq]
  constructor
  · intro hmem
    obtain ⟨⟨b, _⟩, ⟨hj, f, rfl, ha⟩, hv⟩ := hmem
    obtain ⟨hb, hf, hid⟩ := mem_joined_some.mp hj
    exact ⟨f, ⟨hf, b, hb, hid.symm, hv⟩, ha⟩
  · intro hmem
    obtain ⟨f, ⟨hf, b, hb, hid, hv⟩, ha⟩ := hmem
    exact ⟨(b, some f), ⟨mem_joined_some.mpr ⟨hb, hf, hid.symm⟩, f, rfl, ha⟩, hv⟩

lemma mem_tried {t : Target} : t ∈ l.tried ↔
    (∃ f, OwnedBy l t.package t.version f ∧ f.tags.abi ≠ universalAbi ∧ f.tags.abi = t.abi) ∨
      ∃ b ∈ l.builds, b.package = t.package ∧ b.version = t.version ∧ Bare l b ∧ b.abi = t.abi := by
  rw [tried, List.mem_map]
  constructor
  · intro hmem
    rcases hmem with ⟨⟨b, none | f⟩, hj, rfl⟩
    · obtain ⟨hb, hbare⟩ := mem_joined_none.mp (List.mem_filter.mp hj).1
      exact .inr ⟨b, hb, rfl, rfl, hbare, rfl⟩
    · obtain ⟨hj, ha⟩ := List.mem_filter.mp hj
      obtain ⟨hb, hf, hid⟩ := mem_joined_some.mp hj
      exact .inl ⟨f, ⟨hf, b, hb, hid.symm, rfl, rfl⟩, by simpa using ha, rfl⟩
  · intro hmem
    rcases hmem with ⟨f, ⟨hf, b, hb, hid, hp, hv⟩, hu, ha⟩ | ⟨b, hb, hp, hv, hbare, ha⟩
    · have hj := mem_joined_some.mpr ⟨hb, hf, hid.symm⟩
      refine ⟨(b, some f), List.mem_filter.mpr ⟨hj, by simpa using hu⟩, ?_⟩
      rw [hp, hv, Option.map_some, Option.getD_some, ha]
    · refine ⟨(b, none), List.mem_filter.mpr ⟨mem_joined_none.mpr ⟨hb, hbare⟩, rfl⟩, ?_⟩
      rw [hp, hv, Option.map_none, Option.getD_none, ha]

lemma mem_pending {t : Target} : t ∈ l.pending ↔ t ∈ l.candidates ∧
    (∀ f, OwnedBy l t.package t.version f → f.tags.abi ≠ universalAbi) ∧
      Untried l t.package t.version t.abi := by
  simp only [pending, List.mem_filter, decide_eq_true_eq, mem_settled, mem_tried, not_exists,
    not_and, not_or, and_assoc]
  refine and_congr_right fun hc => and_congr_right fun hs => ?_
  constructor
  · intro hmem
    obtain ⟨ho, ha⟩ := hmem
    exact ⟨(mem_candidates.mp hc).2.2, fun f hf => ho f hf (hs f hf), ha⟩
  · intro hmem
    obtain ⟨-, ho, ha⟩ := hmem
    exact ⟨fun f hf _ => ho f hf, ha⟩

/-- The targets are the least pending ABIs, one for each version. -/
theorem mem_targets_iff_pending {t : Target} : t ∈ l.targets ↔ t ∈ l.pending ∧
    ∀ u ∈ l.pending, u.package = t.package → u.version = t.version → u ≠ t → t.abi < u.abi := by
  rw [mem_targets, mem_pending, mem_candidates]
  constructor
  · intro hnext
    obtain ⟨hp, hv, hs, hu, hl⟩ := hnext
    refine ⟨⟨⟨hp, hv, hu.registered⟩, hs, hu⟩, fun u hpu hup huv hne => ?_⟩
    have huu := (mem_pending.mp hpu).2.2
    rw [hup, huv] at huu
    exact bytes_lt_iff.mp (hl u.abi huu fun he => hne (Target.eq_of_eq hup huv he))
  · intro hmem
    obtain ⟨⟨⟨hp, hv, -⟩, hs, hu⟩, hl⟩ := hmem
    refine ⟨hp, hv, hs, hu, fun a ha hne => bytes_lt_iff.mpr ?_⟩
    refine hl ⟨t.package, t.version, a⟩ (mem_pending.mpr ⟨?_, hs, ha⟩) rfl rfl ?_
    · exact mem_candidates.mpr ⟨hp, hv, ha.registered⟩
    · exact fun he => hne (congrArg Target.abi he)

end Query

/-- What is to be built next: in byte order, each open version that owns no universal wheel with
the byte-least registered ABI that it was not tried for. No version has two targets, and one that
was tried for every registered ABI has none. -/
theorem targets_correct (l : Ledger) :
    l.targets.Pairwise Target.Before ∧
      (∀ t, t ∈ l.targets ↔ IsNext l t) ∧
      (∀ package version, (∀ abi ∈ l.abis, ¬ Untried l package version abi) →
        ∀ t ∈ l.targets, ¬ (t.package = package ∧ t.version = version)) ∧
      (∀ t ∈ l.targets, ∀ u ∈ l.targets,
        t.package = u.package → t.version = u.version → t = u) ∧
      (∀ b ∈ l.builds, ∀ f ∈ l.files, f.build = b.id → ∀ abi,
        l.isAttempt abi b = true ↔ ∃ g ∈ l.files, g.build = b.id ∧ g.tags.abi = abi) := by
  refine ⟨targets_ordered l, fun t => mem_targets, ?_, ?_, ?_⟩
  · intro package version h t ht hversion
    obtain ⟨rfl, rfl⟩ := hversion
    have hu := (mem_targets.mp ht).untried
    exact h t.abi hu.registered hu
  · intro t ht u hu hp hv
    by_contra hne
    have habi : t.abi ≠ u.abi := fun he => hne (Target.eq_of_eq hp hv he)
    have htn := mem_targets.mp ht
    have hun := mem_targets.mp hu
    have htu := htn.least u.abi (by rw [hp, hv]; exact hun.untried) habi.symm
    have hut := hun.least t.abi (by rw [← hp, ← hv]; exact htn.untried) habi
    exact List.lt_asymm htu hut
  · exact fun b _ f hf hb abi => isAttempt_of_owned hf hb abi

end WheelFarm.Ledger
