/-! Tables: rows kept in strictly increasing order of their keys, so that a key is held once and a
table is determined by the rows it holds. Storing a row, dropping rows by a test and changing rows
under their keys all keep the order. -/
namespace WheelFarm

/-- A strict linear order that can be decided, the order of a table's keys. -/
class KeyOrder (κ : Type) where
  lt : κ → κ → Prop
  decLt : DecidableRel lt
  irrefl : ∀ a, ¬ lt a a
  trans : ∀ {a b c}, lt a b → lt b c → lt a c
  eq_of_not_lt : ∀ {a b}, ¬ lt a b → ¬ lt b a → a = b

namespace KeyOrder

instance {κ : Type} [KeyOrder κ] (a b : κ) : Decidable (lt a b) := decLt a b

/-- Texts are ordered by code point, which is the order of their UTF-8 bytes. -/
instance : KeyOrder String where
  lt a b := a < b
  decLt a b := inferInstanceAs (Decidable (a < b))
  irrefl := String.lt_irrefl
  trans := String.lt_trans
  eq_of_not_lt h g := String.le_antisymm (String.not_lt.1 g) (String.not_lt.1 h)

instance : KeyOrder Int where
  lt a b := a < b
  decLt a b := inferInstanceAs (Decidable (a < b))
  irrefl := Int.lt_irrefl
  trans := Int.lt_trans
  eq_of_not_lt h g := by omega

/-- Pairs are ordered by their first entries, and by the second ones where these are equal. -/
instance {α β : Type} [KeyOrder α] [KeyOrder β] [DecidableEq α] : KeyOrder (α × β) where
  lt a b := lt a.1 b.1 ∨ (a.1 = b.1 ∧ lt a.2 b.2)
  decLt _ _ := inferInstanceAs (Decidable (_ ∨ _))
  irrefl a h := h.elim (irrefl a.1) fun h => irrefl a.2 h.2
  trans {a b c} h g := by
    rcases h with h | ⟨h, h'⟩ <;> rcases g with g | ⟨g, g'⟩
    · exact .inl (trans h g)
    · exact .inl (g ▸ h)
    · exact .inl (h ▸ g)
    · exact .inr ⟨h.trans g, trans h' g'⟩
  eq_of_not_lt {a b} h g := by
    have h₁ : a.1 = b.1 := eq_of_not_lt (fun k => h (.inl k)) fun k => g (.inl k)
    have h₂ : a.2 = b.2 :=
      eq_of_not_lt (fun k => h (.inr ⟨h₁, k⟩)) fun k => g (.inr ⟨h₁.symm, k⟩)
    exact Prod.ext h₁ h₂

theorem ne_of_lt {κ : Type} [KeyOrder κ] {a b : κ} (h : lt a b) : a ≠ b :=
  fun e => irrefl b (e ▸ h)

end KeyOrder

/-- The rows of a table are told apart by a key. -/
class Keyed (ρ : Type) (κ : outParam Type) where
  key : ρ → κ

open Keyed (key)

structure Table (ρ : Type) {κ : Type} [Keyed ρ κ] [KeyOrder κ] where
  rows : List ρ
  ordered : rows.Pairwise fun a b => KeyOrder.lt (key a) (key b)

namespace Table
variable {ρ κ : Type} [Keyed ρ κ] [KeyOrder κ]

instance [DecidableEq ρ] : DecidableEq (Table ρ) := fun a b =>
  decidable_of_iff (a.rows = b.rows) ⟨fun h => by cases a; cases b; simp_all, fun h => h ▸ rfl⟩

theorem ext_rows {a b : Table ρ} (h : a.rows = b.rows) : a = b := by
  cases a; cases b; simp_all

instance : Membership ρ (Table ρ) := ⟨fun t r => r ∈ t.rows⟩

instance [DecidableEq ρ] (r : ρ) (t : Table ρ) : Decidable (r ∈ t) :=
  inferInstanceAs (Decidable (r ∈ t.rows))

theorem mem_rows {t : Table ρ} {r : ρ} : r ∈ t.rows ↔ r ∈ t := Iff.rfl

def empty : Table ρ := ⟨[], .nil⟩

instance : EmptyCollection (Table ρ) := ⟨empty⟩
instance : Inhabited (Table ρ) := ⟨empty⟩

@[simp] theorem rows_empty : (∅ : Table ρ).rows = [] := rfl

def find? [DecidableEq κ] (t : Table ρ) (k : κ) : Option ρ := t.rows.find? fun r => key r = k

def has [DecidableEq κ] (t : Table ρ) (k : κ) : Bool := t.rows.any fun r => key r = k

/-- A row put in its place among ordered rows; one with the same key gives way to it. -/
def place (r : ρ) : List ρ → List ρ
  | [] => [r]
  | x :: xs =>
    if KeyOrder.lt (key r) (key x) then r :: x :: xs
    else if KeyOrder.lt (key x) (key r) then x :: place r xs
    else r :: xs

theorem mem_of_mem_place {r x : ρ} {xs : List ρ} (h : x ∈ place r xs) : x = r ∨ x ∈ xs := by
  induction xs with
  | nil => simpa [place] using h
  | cons y ys ih =>
    rw [place] at h
    split at h
    · simpa using h
    · split at h
      · rcases List.mem_cons.1 h with h | h
        · simp [h]
        · rcases ih h with h | h <;> simp [h]
      · rcases List.mem_cons.1 h with h | h <;> simp [h]

theorem place_ordered (r : ρ) {xs : List ρ}
    (h : xs.Pairwise fun a b => KeyOrder.lt (key a) (key b)) :
    (place r xs).Pairwise fun a b => KeyOrder.lt (key a) (key b) := by
  induction xs with
  | nil => simp [place]
  | cons x xs ih =>
    obtain ⟨hx, hxs⟩ := List.pairwise_cons.1 h
    rw [place]
    split
    · next hlt =>
      refine List.pairwise_cons.2 ⟨fun y hy => ?_, h⟩
      rcases List.mem_cons.1 hy with hy | hy
      · exact hy ▸ hlt
      · exact KeyOrder.trans hlt (hx y hy)
    · split
      · next hge hgt =>
        refine List.pairwise_cons.2 ⟨fun y hy => ?_, ih hxs⟩
        rcases mem_of_mem_place hy with hy | hy
        · exact hy ▸ hgt
        · exact hx y hy
      · next hge hle =>
        have he : key r = key x := KeyOrder.eq_of_not_lt hge hle
        exact List.pairwise_cons.2 ⟨fun y hy => he ▸ hx y hy, hxs⟩

theorem mem_place (r : ρ) {xs : List ρ}
    (h : xs.Pairwise fun a b => KeyOrder.lt (key a) (key b)) {x : ρ} :
    x ∈ place r xs ↔ x = r ∨ (x ∈ xs ∧ key x ≠ key r) := by
  induction xs with
  | nil => simp [place]
  | cons y ys ih =>
    obtain ⟨hy, hys⟩ := List.pairwise_cons.1 h
    rw [place]
    split
    · next hlt =>
      have hne : ∀ z ∈ y :: ys, key z ≠ key r := fun z hz => by
        rcases List.mem_cons.1 hz with rfl | hz
        · exact (KeyOrder.ne_of_lt hlt).symm
        · exact (KeyOrder.ne_of_lt (KeyOrder.trans hlt (hy z hz))).symm
      rw [List.mem_cons]
      exact or_congr_right ⟨fun hx => ⟨hx, hne x hx⟩, And.left⟩
    · split
      · next hgt =>
        have hne : key y ≠ key r := KeyOrder.ne_of_lt hgt
        rw [List.mem_cons, ih hys, List.mem_cons]
        grind
      · next hge hle =>
        have he : key r = key y := KeyOrder.eq_of_not_lt hge hle
        have hne : ∀ z ∈ ys, key z ≠ key r := fun z hz =>
          he ▸ (KeyOrder.ne_of_lt (hy z hz)).symm
        rw [List.mem_cons, List.mem_cons]
        grind

/-- Stores a row under its key, in place of the row that had the key before. -/
def put (t : Table ρ) (r : ρ) : Table ρ := ⟨place r t.rows, place_ordered r t.ordered⟩

theorem mem_put {t : Table ρ} {r x : ρ} : x ∈ t.put r ↔ x = r ∨ (x ∈ t ∧ key x ≠ key r) :=
  mem_place r t.ordered

/-- A key is held once. -/
theorem eq_of_key_eq {t : Table ρ} {a b : ρ} (ha : a ∈ t) (hb : b ∈ t) (h : key a = key b) :
    a = b := by
  obtain ⟨rows, ordered⟩ := t
  change a ∈ rows at ha
  change b ∈ rows at hb
  induction rows with
  | nil => simp at ha
  | cons x xs ih =>
    obtain ⟨hx, hxs⟩ := List.pairwise_cons.1 ordered
    rcases List.mem_cons.1 ha with ea | ha' <;> rcases List.mem_cons.1 hb with eb | hb'
    · exact ea.trans eb.symm
    · exact absurd (ea ▸ h) (KeyOrder.ne_of_lt (hx b hb'))
    · exact absurd (eb ▸ h).symm (KeyOrder.ne_of_lt (hx a ha'))
    · exact ih hxs ha' hb'

theorem has_iff [DecidableEq κ] {t : Table ρ} {k : κ} : t.has k = true ↔ ∃ r ∈ t, key r = k := by
  simp [has, mem_rows]

theorem find?_eq_some_iff [DecidableEq κ] {t : Table ρ} {k : κ} {r : ρ} :
    t.find? k = some r ↔ r ∈ t ∧ key r = k := by
  constructor
  · intro h
    exact ⟨List.mem_of_find?_eq_some h, by simpa using List.find?_some h⟩
  · rintro ⟨hr, rfl⟩
    cases h : t.find? (key r) with
    | none => simpa using List.find?_eq_none.1 h r hr
    | some x =>
      have hx : key x = key r := by simpa using List.find?_some h
      rw [eq_of_key_eq (List.mem_of_find?_eq_some h) hr hx]

/-- Stores a row whose key is still free. -/
def insert? [DecidableEq κ] (t : Table ρ) (r : ρ) : Option (Table ρ) :=
  if t.has (key r) then none else some (t.put r)

def filter (t : Table ρ) (p : ρ → Bool) : Table ρ := ⟨t.rows.filter p, t.ordered.filter p⟩

def map (t : Table ρ) (f : ρ → ρ) (hf : ∀ r, key (f r) = key r) : Table ρ :=
  ⟨t.rows.map f, by simpa [List.pairwise_map, hf] using t.ordered⟩

/-- The table of the given rows, of which the last one under a key counts. -/
def ofList (rs : List ρ) : Table ρ := rs.foldl put ∅

@[simp] theorem mem_filter {t : Table ρ} {p : ρ → Bool} {r : ρ} :
    r ∈ t.filter p ↔ r ∈ t ∧ p r = true := List.mem_filter

@[simp] theorem mem_map {t : Table ρ} {f : ρ → ρ} {hf : ∀ r, key (f r) = key r} {r : ρ} :
    r ∈ t.map f hf ↔ ∃ x ∈ t, f x = r := List.mem_map

end Table
end WheelFarm
