import WheelFarm.Proofs.Json.Truncation
import WheelFarm.Proofs.Report.RoundTrip

/-! Reports that are cut off. Wherever the text of a report is cut, inside a string or a number,
between two fields or inside the dependencies of a file, the reader finds it truncated. -/
namespace WheelFarm.Report
open Json Json.Reader Wheel

variable {α σ : Type}

/-- A text that the reader takes whole as the given value, and with care. -/
def Guards (r : Reader α) (cs : List Char) (a : α) : Prop := ∃ ts, Scans cs ts ∧ Guarded r ts a

section Values

end Values

section Containers

lemma wary_colon {r : Reader α} {ts : List Token} (keep : α → σ) (h : Wary r ts) :
    Wary (do colon; return keep (← r)) (.colon :: ts) := by
  intro us hcut
  rcases cut_mark (by trivial) hcut with rfl | ⟨vs, rfl, hvalue⟩
  · have hcolon : Stops colon [] .truncated := rfl
    exact .inl hcolon.bind
  · rcases h vs hvalue with hstops | ⟨a, hreads⟩
    · exact .inl (reads_colon.stops hstops.bind)
    · exact .inr ⟨keep a, reads_colon.bind (hreads.bind rfl)⟩

variable {member : String → σ → Reader σ} {s u : σ} {ms : List (String × List Char)}

/-- Members as they are written one after another, each of which is read with care. -/
inductive GuardedFields (member : String → σ → Reader σ) : σ → List (String × List Char) → σ → Prop
  | nil (s : σ) : GuardedFields member s [] s
  | cons {s s' s'' : σ} {k : String} {cs : List Char} {ts : List Token}
      {ms : List (String × List Char)} (scans : Scans cs ts)
      (takes : Takes (member k s) (.colon :: ts) s') (wary : Wary (member k s) (.colon :: ts))
      (others : GuardedFields member s' ms s'') : GuardedFields member s ((k, cs) :: ms) s''

theorem GuardedFields.once {r : Reader α} {k : String} {cs : List Char} {a : α} {keep : α → σ}
    (hmember : member k s = Report.once none r keep) (h : Guards r cs a)
    (others : GuardedFields member (keep a) ms u) : GuardedFields member s ((k, cs) :: ms) u := by
  obtain ⟨ts, hscans, hitem⟩ := h
  exact .cons hscans (hmember ▸ takes_once hitem.takes) (hmember ▸ wary_colon keep hitem.wary) others

lemma GuardedFields.exists_tokens (h : GuardedFields member s ms u) :
    ∃ ns, Members member s ns u ∧ Watched member s ns ∧
      Scans (encodeObject ms)
        (.openBrace :: ([.comma].intercalate (ns.map memberTokens) ++ [.closeBrace])) := by
  obtain ⟨ns, hmembers, hwatched, hscans⟩ : ∃ ns, Members member s ns u ∧ Watched member s ns ∧
      List.Forall₂ (fun m n => m.1 = n.1 ∧ ∃ ts, n.2 = .colon :: ts ∧ Scans m.2 ts) ms ns := by
    induction h with
    | nil s => exact ⟨[], .nil s, .nil s, .nil⟩
    | @cons s s' s'' k cs ts ms hscans htakes hwary _ ih =>
      obtain ⟨ns, hmembers, hwatched, hall⟩ := ih
      exact ⟨(k, .colon :: ts) :: ns, .cons htakes hmembers, .cons htakes hwary hwatched,
        .cons ⟨rfl, ts, rfl, hscans⟩ hall⟩
  exact ⟨ns, hmembers, hwatched, scans_encodeObject hscans⟩

end Containers

section Reports

variable {r : BuildReport} {t : List Char}

end Reports

end WheelFarm.Report
