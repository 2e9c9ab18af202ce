import WheelFarm.Proofs.Duration.RoundTrip
import WheelFarm.Proofs.Ledger.Integrity
import WheelFarm.Proofs.Report.RoundTrip

/-! Reports that are written again after they have been read. The duration of a report that has been
read is read back as it was, and so is the report. A number of seconds that is a whole number of
nanoseconds below 2^23 seconds is read, and committed, as exactly that. -/
namespace WheelFarm.Report
open Json Json.Reader

variable {α σ : Type} {P : α → Prop} {I : σ → Prop}

/-- A duration that is read from the seconds that it is written as. -/
def Settled (d : Duration) : Prop := Duration.ofSeconds? d.toSeconds = some d

theorem yields_duration : Yields Settled duration := by
  unfold duration
  refine (yields_any _).bind fun n _ => ?_
  split
  · exact yields_throw _
  · next x hx =>
    have hcanonical : x.Canonical := Numeral.canonical_of_magnitude? hx
    dsimp only
    split
    · exact yields_throw_bind _ _
    · split
      · next d hd => exact yields_pure (Duration.ofSeconds?_toSeconds_of_read hcanonical hd)
      · exact yields_throw _

theorem yields_once {r : Reader α} {old : Option α} {keep : α → σ} (hr : Yields P r)
    (hkeep : ∀ a, P a → I (keep a)) : Yields I (once old r keep) := by
  unfold once
  dsimp only
  split
  · exact yields_throw_bind _ _
  · exact (yields_any _).bind fun _ _ => hr.bind fun a ha => yields_pure (hkeep a ha)

namespace ReportFields

/-- The duration, as far as it has been read, is settled. -/
def Sound (f : ReportFields) : Prop := ∀ d ∈ f.duration, Settled d

theorem yields_member (key : String) {f : ReportFields} (hf : f.Sound) :
    Yields Sound (member key f) := by
  unfold member
  split
  case h_4 =>
    exact yields_once yields_duration fun d hd e he => by cases he; exact hd
  case h_9 =>
    exact (yields_any _).bind fun _ _ => (yields_any _).bind fun _ _ => yields_pure hf
  all_goals exact yields_once (yields_any _) fun _ _ => hf

theorem yields_report {f : ReportFields} (hf : f.Sound) :
    Yields (fun r : BuildReport => Settled r.duration) f.report := by
  unfold report
  refine (yields_any _).bind fun _ _ => (yields_any _).bind fun _ _ =>
    (yields_any _).bind fun _ _ => ?_
  cases hd : f.duration with
  | none => exact yields_throw_bind _ _
  | some d =>
    refine (yields_pure (P := Settled) (hf d hd)).bind fun d hd => ?_
    exact (yields_any _).bind fun _ _ => (yields_any _).bind fun _ _ => yields_pure hd

end ReportFields

theorem yields_reportItems : Yields (fun r : BuildReport => Settled r.duration) reportItems := by
  have hduration : Yields Settled (nextField false duration) := by
    unfold nextField
    refine (yields_any _).bind fun more _ => ?_
    cases more with
    | true => exact yields_duration
    | false => exact yields_throw _
  unfold reportItems
  refine (yields_any _).bind fun _ _ => (yields_any _).bind fun _ _ =>
    (yields_any _).bind fun _ _ => hduration.bind fun d hd => ?_
  exact (yields_any _).bind fun _ _ => (yields_any _).bind fun _ _ =>
    (yields_any _).bind fun _ _ => (yields_any _).bind fun _ _ => yields_pure hd

theorem yields_record {object array : Reader α} (hobject : Yields P object)
    (harray : Yields P array) : Yields P (record object array) := by
  unfold record
  refine (yields_any _).bind fun t _ => ?_
  split
  · exact (yields_any _).bind fun _ _ => hobject.bind fun a ha =>
      (yields_any _).bind fun _ _ => yields_pure ha
  · exact (yields_any _).bind fun _ _ => harray.bind fun a ha =>
      (yields_any _).bind fun _ _ => yields_pure ha
  · exact yields_throw _

/-- The duration of a report that has been read is read back as it was. -/
theorem settled_of_decode {text : String} {r : BuildReport} (h : decode text = .ok r) :
    Settled r.duration := by
  have hfresh : ReportFields.Sound {} := fun d hd => by cases hd
  have hobject : Yields (fun r : BuildReport => Settled r.duration)
      (do ReportFields.report (← members ReportFields.member {})) :=
    (yields_members (fun k _ hf => ReportFields.yields_member k hf) hfresh).bind fun _ hf =>
      ReportFields.yields_report hf
  exact (yields_record hobject yields_reportItems).of_run h

/-- A report that has been read is read back as it was. -/
theorem decode_encode_of_decode {text : String} {r : BuildReport} (h : decode text = .ok r) :
    decode (encode r) = .ok r :=
  decode_of_spells (spells_report (settled_of_decode h))

section Nanoseconds
open Binary64
variable {l : Literal} {d : Duration}

lemma isFinite_of_seconds {digits : Nat} {e : Int} (h : digits * 10 ^ e = d.inSeconds)
    (hd : d.nanoseconds < 2 ^ 23 * 10 ^ 9) : (ofDecimal digits e).isFinite = true := by
  have hlimit : Binary64.value ⟨2 ^ 52, -29⟩ = 2 ^ (23 : Int) := by
    unfold Binary64.value
    norm_num
  have hle : d.inSeconds ≤ 2 ^ (23 : Int) := by
    have hcast : (d.nanoseconds : ℚ) < 2 ^ 23 * 10 ^ 9 := mod_cast hd
    unfold Duration.inSeconds
    rw [div_le_iff₀ (by norm_num)]
    norm_num at hcast ⊢
    exact hcast.le
  have hrounded : (ofDecimal digits e).value ≤ 2 ^ (23 : Int) := by
    refine (value_ofRatio_le (y := ⟨2 ^ 52, -29⟩) (Nat.pow_pos (by decide)) (by decide)
      ?_).trans_eq hlimit
    refine (decimal_fraction digits e).trans_le ?_
    rw [h, hlimit]
    exact hle
  rw [canonical_ofDecimal.isFinite_iff]
  exact hrounded.trans_lt (zpow_lt_zpow_right₀ (by norm_num) (by decide))

/-- Whole nanoseconds below 2^23 seconds are read exactly, however their number is written. -/
theorem spells_nanoseconds (hl : l.Valid) (h : l.numeral.value = d.inSeconds)
    (hd : d.nanoseconds < 2 ^ 23 * 10 ^ 9) : Spells duration l.text d := by
  have hmagnitude : l.numeral.magnitude? =
      some (ofDecimal l.numeral.digits l.numeral.exponent) := by
    rw [Numeral.magnitude?_eq, if_pos (isFinite_of_seconds h hd)]
  have hfraction := decimal_fraction l.numeral.digits l.numeral.exponent
  exact spells_seconds (Literal.scans_text hl) rfl hmagnitude
    (Duration.ofSeconds?_ofRatio (Nat.pow_pos (by decide)) (hfraction.trans h) hd)

end Nanoseconds

lemma milliseconds_of_commit {l l' : Ledger} (hl : l.Sound) {now id : Int} {r : BuildReport}
    (h : l.commit now r = .ok (id, l')) :
    ∃ b ∈ l'.builds, b.id = id ∧ b.milliseconds = (r.duration.nanoseconds / 10 ^ 6 : Nat) := by
  obtain ⟨-, -, -, rfl, rfl⟩ := (Ledger.commit_eq_ok_iff hl).mp h
  refine ⟨.ofReport (l.lastBuild + 1) now r, ?_, rfl, rfl⟩
  rw [Ledger.recorded_builds]
  exact Table.mem_put.mpr (.inl rfl)

/-- Fractional seconds do not change durations. A number of whole nanoseconds below 2^23 seconds is
read as exactly that, and recorded in whole milliseconds; every duration below 2^23 seconds is read
back as it was; and so is every duration that has been read, of any size, with the report that it
stands in. -/
theorem seconds_keep_durations :
    (∀ (n : Nat) (l : Literal), n < 2 ^ 23 * 10 ^ 9 → l.Valid → l.numeral.value = n / 10 ^ 9 →
      ∃ d : Duration, d.nanoseconds = n ∧ Spells duration l.text d) ∧
    (∀ (ops : List (Int × Ledger.Operation)) (now id : Int) (r : BuildReport) (l : Ledger),
      (Ledger.run {} ops).commit now r = .ok (id, l) →
      ∃ b ∈ l.builds, b.id = id ∧ b.milliseconds = (r.duration.nanoseconds / 10 ^ 6 : Nat)) ∧
    (∀ d : Duration, d.nanoseconds < 2 ^ 23 * 10 ^ 9 →
      Duration.ofSeconds? d.toSeconds = some d ∧ Spells duration (encodeSeconds d.toSeconds) d) ∧
    (∀ (x : Binary64) (d : Duration), x.Canonical → Duration.ofSeconds? x = some d →
      Duration.ofSeconds? d.toSeconds = some d) ∧
    ∀ (text : String) (r : BuildReport), decode text = .ok r → decode (encode r) = .ok r := by
  refine ⟨?_, ?_, ?_, ?_, ?_⟩
  · intro n l hn hl hvalue
    refine ⟨⟨n, by omega⟩, rfl, spells_nanoseconds hl ?_ hn⟩
    rw [hvalue]
    unfold Duration.inSeconds
    norm_num
  · intro ops now id r l h
    exact milliseconds_of_commit (Ledger.sound_run Ledger.sound_fresh ops) h
  · intro d hd
    have hsettled := Duration.ofSeconds?_toSeconds hd.le
    exact ⟨hsettled, spells_duration hsettled⟩
  · exact fun x d hx h => Duration.ofSeconds?_toSeconds_of_read hx h
  · exact fun text r h => decode_encode_of_decode h

end WheelFarm.Report
