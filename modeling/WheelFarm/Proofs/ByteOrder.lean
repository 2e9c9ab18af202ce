import Mathlib.Tactic.Lemma
import Mathlib.Tactic.SplitIfs
import Mathlib.Order.Defs.LinearOrder
import Mathlib.Tactic.ByContra

/-! The order of texts by code point is the order of their UTF-8 bytes: of two characters the
larger one has the larger byte where their encodings first differ, and neither encoding begins the
other. -/
namespace WheelFarm.Text

/-- The bytes of a text in UTF-8. -/
def bytes (s : String) : List UInt8 := s.toByteArray.data.toList

theorem bytes_eq_flatMap (s : String) : bytes s = s.toList.flatMap String.utf8EncodeChar := by
  rw [bytes, ← String.utf8Encode_toList, List.utf8Encode, List.toList_data_toByteArray]

lemma digits_lt {v w : Nat} (h : v < w) :
    v / 262144 < w / 262144 ∨ (v / 262144 = w / 262144 ∧
      (v / 4096 % 64 < w / 4096 % 64 ∨ (v / 4096 % 64 = w / 4096 % 64 ∧
        (v / 64 % 64 < w / 64 % 64 ∨ (v / 64 % 64 = w / 64 % 64 ∧ v % 64 < w % 64))))) := by
  omega

lemma encode_lt_encode {c d : Char} (h : c < d) (s t : List UInt8) :
    String.utf8EncodeChar c ++ s < String.utf8EncodeChar d ++ t := by
  have hv : c.val.toNat < d.val.toNat := h
  have hd : d.val.toNat < 0x110000 := by
    rcases d.valid with hl | ⟨_, hl⟩
    · exact Nat.lt_trans hl (by decide)
    · exact hl
  unfold String.utf8EncodeChar
  generalize c.val.toNat = v at hv ⊢
  generalize d.val.toNat = w at hv hd ⊢
  have hl := digits_lt hv
  have hv₈ : (v / 262144 % 8 + 240) % 256 = v / 262144 + 240 := by omega
  have hw₈ : (w / 262144 % 8 + 240) % 256 = w / 262144 + 240 := by omega
  have h₁₆ (n : Nat) : (n % 16 + 224) % 256 = n % 16 + 224 := by omega
  have h₃₂ (n : Nat) : (n % 32 + 192) % 256 = n % 32 + 192 := by omega
  have h₆₄ (n : Nat) : (n % 64 + 128) % 256 = n % 64 + 128 := by omega
  dsimp only
  -- One case for each pair of lengths; the longer encoding has the larger first byte.
  split_ifs <;> simp only [List.cons_append, List.nil_append, List.cons_lt_cons_iff,
      UInt8.lt_iff_toNat_lt, ← UInt8.toNat_inj, UInt8.toNat_ofNat', Nat.reducePow,
      hv₈, hw₈, h₁₆, h₃₂, h₆₄] <;> omega

lemma encode_ne_nil (c : Char) : String.utf8EncodeChar c ≠ [] := by
  unfold String.utf8EncodeChar
  dsimp only
  split_ifs <;> simp

lemma flatMap_encode_lt {cs ds : List Char} (h : cs < ds) :
    cs.flatMap String.utf8EncodeChar < ds.flatMap String.utf8EncodeChar := by
  induction h with
  | @nil d ds =>
    rw [List.flatMap_cons]
    cases hd : String.utf8EncodeChar d with
    | nil => exact absurd hd (encode_ne_nil d)
    | cons b bs => exact List.nil_lt_cons _ _
  | cons h ih =>
    rw [List.flatMap_cons, List.flatMap_cons]
    exact List.append_left_lt ih
  | rel h =>
    rw [List.flatMap_cons, List.flatMap_cons]
    exact encode_lt_encode h _ _

/-- Texts are ordered byte by byte. -/
theorem bytes_lt_iff {s t : String} : bytes s < bytes t ↔ s < t := by
  rw [bytes_eq_flatMap, bytes_eq_flatMap]
  constructor
  · intro h
    by_contra hn
    rcases Decidable.em (s = t) with rfl | he
    · exact List.lt_irrefl _ h
    · have hg : t < s := Std.lt_of_le_of_ne (String.not_lt.mp hn) (Ne.symm he)
      exact List.lt_asymm h (flatMap_encode_lt hg)
  · exact fun h => flatMap_encode_lt h

end WheelFarm.Text
