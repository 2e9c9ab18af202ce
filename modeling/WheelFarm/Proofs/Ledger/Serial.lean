import WheelFarm.Proofs.Ledger.CatalogMap

/-! The serial is a running maximum. It moves to a requested serial that is not behind it, and a
request that it refuses, for being behind or too large to be stored, leaves it where it is. In the
end it depends on which serials were requested and not on their order. -/
namespace WheelFarm.Ledger

/-- The serial that an operation requests. -/
def Operation.serial? : Operation → Option UInt64
  | .setSerial serial => some serial
  | _ => none

/-- The serials that a run requests, in order. -/
def requested (ops : List (Int × Operation)) : List UInt64 := ops.filterMap (·.2.serial?)

/-- The greatest of 0 and the serials that can be stored. -/
def greatest (serials : List UInt64) : Nat := ((serials.map UInt64.toNat).filter fits).foldl max 0

variable {l : Ledger} {now : Int}

section Greatest

theorem greatest_concat (serials : List UInt64) (serial : UInt64) :
    greatest (serials ++ [serial]) =
      if fits serial.toNat then max (greatest serials) serial.toNat else greatest serials := by
  simp only [greatest, List.map_append, List.filter_append, List.foldl_append, List.map_cons,
    List.map_nil]
  split_ifs with h <;> simp [h]

theorem greatest_of_perm {serials serials' : List UInt64} (h : serials.Perm serials') :
    greatest serials = greatest serials' :=
  ((h.map UInt64.toNat).filter fits).foldl_eq 0

theorem requested_concat (ops : List (Int × Operation)) (op : Int × Operation) :
    requested (ops ++ [op]) = requested ops ++ op.2.serial?.toList := by
  rw [requested, List.filterMap_append]
  cases h : op.2.serial? <;> simp [requested, h]

end Greatest

section Step

lemma serial_step_of_other (hs : Sound l) {op : Operation} (hop : op.serial? = none) :
    (l.step now op).2.serial = l.serial := by
  rw [step]
  split
  · next reply l' hp =>
    cases op with
    | addPackage package skip =>
      cases hp
      change (l.addPackage package skip).2.serial = l.serial
      rw [addPackage_eq]
      split <;> rfl
    | addVersion package version released skip =>
      obtain ⟨⟨done, l'⟩, hl, he⟩ := map_eq_ok hp
      cases he
      rw [addVersion_eq] at hl
      split_ifs at hl <;> cases hl <;> rfl
    | deletePackage package =>
      obtain ⟨⟨done, l'⟩, hl, he⟩ := map_eq_ok hp
      cases he
      rw [deletePackage] at hl
      split_ifs at hl
      cases hl
      rfl
    | addAbi abi =>
      obtain ⟨⟨done, l'⟩, hl, he⟩ := map_eq_ok hp
      cases he
      rw [addAbi_eq] at hl
      split_ifs at hl <;> cases hl <;> rfl
    | commit report =>
      obtain ⟨⟨id, l'⟩, hl, he⟩ := map_eq_ok hp
      cases he
      obtain ⟨-, -, -, -, rfl⟩ := (commit_eq_ok_iff hs).mp hl
      exact recorded_serial
    | setSerial serial => cases hop
    | _ =>
      cases hp
      rfl
  · rfl

theorem step_setSerial (h : Stored l.serial) (now : Int) (serial : UInt64) :
    l.step now (.setSerial serial) =
      if maxStored < serial.toNat then (.error (.invalidData .serial), l)
      else if serial.toNat < l.serial then
        (.error (.serialRegression l.serial.toNat serial.toNat), l)
      else (.ok .done, { l with serial := serial.toNat }) := by
  rw [step, perform, setSerial_eq h]
  by_cases hmax : maxStored < serial.toNat
  · simp only [if_pos hmax, Except.map]
  · by_cases hle : l.serial ≤ serial.toNat
    · simp only [if_neg hmax, if_pos hle, if_neg (Int.not_lt.mpr hle), Except.map]
    · simp only [if_neg hmax, if_neg hle, if_pos (Int.not_le.mp hle), Except.map]

lemma serial_step_setSerial (h : Stored l.serial) (serial : UInt64) :
    (l.step now (.setSerial serial)).2.serial =
      if fits serial.toNat then max l.serial serial.toNat else l.serial := by
  rw [step_setSerial h]
  by_cases hmax : maxStored < serial.toNat
  · rw [if_pos hmax, if_neg fun hf => (fits_iff _).mp hf hmax]
  · rw [if_neg hmax, if_pos ((fits_iff _).mpr hmax)]
    split_ifs with hlt
    · exact (max_eq_left hlt.le).symm
    · exact (max_eq_right (Int.not_lt.mp hlt)).symm

end Step

theorem serial_run (ops : List (Int × Operation)) :
    (run {} ops).serial = greatest (requested ops) := by
  induction ops using List.reverseRecOn with
  | nil => rfl
  | append_singleton ops op ih =>
    have hs := sound_run sound_fresh ops
    rw [run_concat, requested_concat]
    obtain ⟨now, op⟩ := op
    cases hop : op.serial? with
    | none =>
      rw [serial_step_of_other hs hop, ih, Option.toList_none, List.append_nil]
    | some serial =>
      obtain rfl : op = .setSerial serial := by
        cases op <;> cases hop
        rfl
      rw [serial_step_setSerial hs.serial_stored, ih, Option.toList_some, greatest_concat]
      split_ifs
      · omega
      · rfl

theorem currentSerial_eq (h : Stored l.serial) :
    ∃ current, l.currentSerial = .ok current ∧ (current.toNat : Int) = l.serial :=
  ⟨.ofNat l.serial.toNat, by rw [currentSerial, readWord, if_pos h.1], toNat_toNat_of_stored h⟩

/-- After every run the serial is the greatest of 0 and the requested serials that can be stored,
refused ones included, in whatever order they were requested. The next request is refused if it
cannot be stored or is behind the serial, which changes nothing, and is met otherwise. -/
theorem serial_is_greatest (ops : List (Int × Operation)) :
    ∃ current, (run {} ops).currentSerial = .ok current ∧
      current.toNat = greatest (requested ops) ∧
      (∀ now serial, (run {} ops).step now (.setSerial serial) =
        if maxStored < serial.toNat then (.error (.invalidData .serial), run {} ops)
        else if serial < current then
          (.error (.serialRegression current.toNat serial.toNat), run {} ops)
        else (.ok .done, { run {} ops with serial := serial.toNat })) ∧
      ∀ ops', (requested ops').Perm (requested ops) → (run {} ops').currentSerial = .ok current := by
  have h := (sound_run sound_fresh ops).serial_stored
  obtain ⟨current, hread, hcurrent⟩ := currentSerial_eq h
  refine ⟨current, hread, ?_, fun now serial => ?_, fun ops' hperm => ?_⟩
  · rw [serial_run] at hcurrent
    exact Int.natCast_inj.mp hcurrent
  · rw [step_setSerial h, ← hcurrent]
    simp only [UInt64.lt_iff_toNat_lt, Int.toNat_natCast, Int.ofNat_lt]
  · have hserial : (run {} ops').serial = (run {} ops).serial := by
      rw [serial_run, serial_run, greatest_of_perm hperm]
    rw [← hread, currentSerial, currentSerial, hserial]

/-- A run with a request that is met, one that is behind it and one that is too large. -/
def requestRun : List (Int × Operation) :=
  [(0, .setSerial 9), (60, .addPackage "six" none), (120, .setSerial 5),
    (180, .setSerial 9223372036854775808)]

theorem serial_of_requestRun :
    (requested requestRun.reverse).Perm (requested requestRun) ∧
      (run {} requestRun.reverse).currentSerial = .ok 9 := by
  have hperm : (requested requestRun.reverse).Perm (requested requestRun) := by decide
  obtain ⟨current, -, hcurrent, -, horder⟩ := serial_is_greatest requestRun
  obtain rfl : current = 9 := UInt64.toNat_inj.mp (hcurrent.trans (by decide))
  exact ⟨hperm, horder _ hperm⟩

end WheelFarm.Ledger
