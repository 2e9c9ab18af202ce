import Mathlib.Tactic.Lemma
import Mathlib.Tactic.SplitIfs
import WheelFarm.Text.Pieces

/-! The pieces of a text are the one way to write it with separators between parts that hold none. -/
namespace WheelFarm.Text

variable {sep : Char} {cs rest ending : List Char} {ps : List (List Char)}

lemma pieces_append {p : List Char} (hp : sep ∉ p) {q : List Char} {qs : List (List Char)}
    (h : pieces sep cs = q :: qs) : pieces sep (p ++ cs) = (p ++ q) :: qs := by
  induction p with
  | nil => exact h
  | cons c p ih =>
    obtain ⟨hc, hp⟩ := not_or.mp fun h => hp (List.mem_cons.mpr h)
    rw [List.cons_append, pieces, if_neg (Ne.symm hc), ih hp]
    rfl

/-- Parts without separators are the pieces of what they are joined to. -/
theorem pieces_join (hne : ps ≠ []) (h : ∀ p ∈ ps, sep ∉ p) : pieces sep (join sep ps) = ps := by
  induction ps with
  | nil => exact absurd rfl hne
  | cons p ps ih =>
    obtain ⟨hp, hps⟩ := List.forall_mem_cons.mp h
    cases ps with
    | nil =>
      have hone := pieces_append hp (rfl : pieces sep [] = [[]])
      rwa [List.append_nil] at hone
    | cons q qs =>
      have hsep : pieces sep (sep :: join sep (q :: qs)) = [] :: q :: qs := by
        rw [pieces, if_pos rfl, ih (by simp) hps]
      have hall := pieces_append hp hsep
      rwa [List.append_nil] at hall

theorem not_mem_of_mem_pieces {p : List Char} (h : p ∈ pieces sep cs) : sep ∉ p := by
  induction cs generalizing p with
  | nil =>
    rw [List.mem_singleton.mp h]
    exact List.not_mem_nil
  | cons c cs ih =>
    rw [pieces] at h
    split_ifs at h with hc
    · rcases List.mem_cons.mp h with rfl | h
      · exact List.not_mem_nil
      · exact ih h
    · cases hq : pieces sep cs with
      | nil => exact absurd hq (pieces_ne_nil sep cs)
      | cons q qs =>
        rw [hq] at h ih
        rcases List.mem_cons.mp h with rfl | h
        · exact fun hm => (List.mem_cons.mp hm).elim (Ne.symm hc) (ih List.mem_cons_self)
        · exact ih (List.mem_cons_of_mem _ h)

/-- There is one piece more than there are separators. -/
theorem length_pieces (sep : Char) (cs : List Char) :
    (pieces sep cs).length = cs.count sep + 1 := by
  induction cs with
  | nil => rfl
  | cons c cs ih =>
    rw [pieces, List.count_cons]
    cases hq : pieces sep cs with
    | nil => exact absurd hq (pieces_ne_nil sep cs)
    | cons q qs =>
      rw [hq] at ih
      split_ifs with hc <;> simp_all

theorem dropEnd?_eq_some_iff : dropEnd? ending cs = some rest ↔ cs = rest ++ ending := by
  rw [dropEnd?]
  constructor
  · intro h
    split_ifs at h with hends
    cases h
    obtain ⟨front, rfl⟩ := List.isSuffixOf_iff_suffix.mp hends
    simp
  · rintro rfl
    rw [if_pos (List.isSuffixOf_iff_suffix.mpr (List.suffix_append rest ending))]
    simp

theorem dropEnd?_eq_none_iff : dropEnd? ending cs = none ↔ ¬ ending <:+ cs := by
  rw [dropEnd?, ← List.isSuffixOf_iff_suffix]
  split_ifs with h <;> simp [h]

end WheelFarm.Text
