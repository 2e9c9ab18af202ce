import WheelFarm.Proofs.Ledger.Journal

/-! Intact ledgers: besides that every reference is met, no key is held twice and every build has
one log. The ledger is intact after every run, and it has no build beyond the last accepted
commit. -/
namespace WheelFarm.Ledger
open Wheel

/-- A sound ledger that holds each key once. -/
structure Intact (l : Ledger) : Prop extends Sound l where
  package_once : (l.packages.rows.map (·.name)).Nodup
  version_once : (l.versions.rows.map fun v => (v.package, v.version)).Nodup
  abi_once : l.abis.rows.Nodup
  build_once : (l.builds.rows.map (·.id)).Nodup
  output_once : ∀ b ∈ l.builds, ∃! o, o ∈ l.outputs ∧ o.build = b.id
  file_once : (l.files.rows.map (·.filename)).Nodup
  dependency_once : (l.dependencies.rows.map fun d => (d.filename, d.tool, d.name)).Nodup
  abi_named : ∀ abi ∈ l.abis, abi ≠ "none" ∧ abi ≠ ""

variable {es : List Entry} {l : Ledger}

lemma isReserved_eq_false_iff {abi : String} :
    isReserved abi = false ↔ abi ≠ universalAbi ∧ abi ≠ "" := by
  simp [isReserved]

lemma Sound.output_once (h : Sound l) {b : BuildRow} (hb : b ∈ l.builds) :
    ∃! o, o ∈ l.outputs ∧ o.build = b.id := by
  obtain ⟨o, ho, hid⟩ := h.output_of_build b hb
  refine ⟨o, ⟨ho, hid⟩, fun o' ho' => ?_⟩
  exact Table.eq_of_key_eq ho'.1 ho (ho'.2.trans hid.symm)

theorem Sound.intact (h : Sound l) : Intact l :=
  { h with
    package_once := l.packages.keys_nodup
    version_once := l.versions.keys_nodup
    abi_once := l.abis.rows_nodup
    build_once := l.builds.keys_nodup
    output_once := fun _ => h.output_once
    file_once := l.files.keys_nodup
    dependency_once := l.dependencies.keys_nodup
    abi_named := fun abi ha => isReserved_eq_false_iff.mp (h.abi_free abi ha) }

/-- The last number handed out is that of the last accepted commit. -/
theorem Reached.build_eq_lastBuild (h : Reached es l) {earlier : List Commit} {c : Commit}
    (hc : commits es = earlier ++ [c]) : c.build = l.lastBuild := by
  have hnumbered := h.numbered
  rw [hc, List.length_append, List.length_singleton, List.range_succ, List.map_append,
    List.map_append] at hnumbered
  obtain ⟨-, hlast⟩ := List.append_inj' hnumbered rfl
  rw [h.lastBuild, hc, List.length_append]
  simpa using hlast

theorem Reached.build_le (h : Reached es l) {b : BuildRow} (hb : b ∈ l.builds) :
    ∃ c, (commits es).getLast? = some c ∧ b.id ≤ c.build := by
  have hnumber := h.sound.build_numbered b hb
  rcases List.eq_nil_or_concat (commits es) with hnil | ⟨earlier, c, hc⟩
  · -- Nothing was handed out without a commit.
    have hzero : l.lastBuild = 0 := by rw [h.lastBuild, hnil]; rfl
    omega
  · rw [List.concat_eq_append] at hc
    refine ⟨c, by rw [hc, List.getLast?_concat], ?_⟩
    rw [h.build_eq_lastBuild hc]
    exact hnumber.2

/-- After every run, with operations that fail among them, the ledger is intact, and the numbers of
its builds go no further than the last one that a commit returned. -/
theorem intact_run (ops : List (Int × Operation)) : Intact (run {} ops) ∧
    ∀ b ∈ (run {} ops).builds,
      ∃ c, (commits (journal {} ops)).getLast? = some c ∧ 1 ≤ b.id ∧ b.id ≤ c.build := by
  have h := reached_run ops
  refine ⟨h.sound.intact, fun b hb => ?_⟩
  obtain ⟨c, hc, hle⟩ := h.build_le hb
  exact ⟨c, hc, (h.sound.build_numbered b hb).1, hle⟩

end WheelFarm.Ledger
