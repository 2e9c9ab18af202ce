import Mathlib.Data.List.Sort
import Mathlib.Tactic.Lemma
import WheelFarm.Table

/-! A table is determined by its rows as a set: tables with the same rows are equal, and what
finding, storing and dropping rows does is told by membership alone. -/
namespace WheelFarm.Table
open Keyed (key)

variable {ρ κ : Type} [Keyed ρ κ] [KeyOrder κ]

@[simp] theorem not_mem_empty (r : ρ) : ¬ r ∈ (∅ : Table ρ) := List.not_mem_nil

theorem keys_nodup (t : Table ρ) : (t.rows.map key).Nodup :=
  List.pairwise_map.mpr (t.ordered.imp KeyOrder.ne_of_lt)

theorem rows_nodup (t : Table ρ) : t.rows.Nodup := t.keys_nodup.of_map

/-- Tables with the same rows are equal, since both keep them in order. -/
theorem ext_mem {a b : Table ρ} (h : ∀ r, r ∈ a ↔ r ∈ b) : a = b := by
  apply ext_rows
  have hp : a.rows.Perm b.rows := (List.perm_ext_iff_of_nodup a.rows_nodup b.rows_nodup).mpr h
  refine hp.eq_of_pairwise (fun x y _ _ hx hy => ?_) a.ordered b.ordered
  exact absurd (KeyOrder.trans hx hy) (KeyOrder.irrefl _)

/-- Tables that agree on the rows that pass a test agree on what is left after dropping the others. -/
theorem filter_congr {a b : Table ρ} {p : ρ → Bool} (h : ∀ r, p r = true → (r ∈ a ↔ r ∈ b)) :
    a.filter p = b.filter p := by
  apply ext_mem
  intro r
  rw [mem_filter, mem_filter]
  exact and_congr_left (h r)

section Keys
variable [DecidableEq κ]

theorem has_eq_false_iff {t : Table ρ} {k : κ} : t.has k = false ↔ ∀ r ∈ t, key r ≠ k := by
  rw [← Bool.not_eq_true, has_iff]
  simp only [not_exists, not_and, ne_eq]

theorem find?_eq_none_iff {t : Table ρ} {k : κ} : t.find? k = none ↔ ∀ r ∈ t, key r ≠ k := by
  simp [find?, List.find?_eq_none, mem_rows]

/-- What is found under a key depends on the rows with that key alone. -/
theorem find?_congr {a b : Table ρ} {k : κ} (h : ∀ r, key r = k → (r ∈ a ↔ r ∈ b)) :
    a.find? k = b.find? k := by
  apply Option.ext
  intro r
  rw [find?_eq_some_iff, find?_eq_some_iff]
  exact and_congr_left (h r)

theorem has_eq_isSome (t : Table ρ) (k : κ) : t.has k = (t.find? k).isSome := by
  rw [Bool.eq_iff_iff, has_iff, Option.isSome_iff_exists]
  simp only [find?_eq_some_iff]

/-- Storing a row changes what is found under its key alone. -/
theorem find?_put (t : Table ρ) (r : ρ) (k : κ) :
    (t.put r).find? k = if key r = k then some r else t.find? k := by
  split_ifs with h
  · exact find?_eq_some_iff.mpr ⟨mem_put.mpr (.inl rfl), h⟩
  · apply find?_congr
    intro x hx
    rw [mem_put]
    constructor
    · rintro (rfl | ⟨hm, -⟩)
      · exact absurd hx h
      · exact hm
    · exact fun hm => .inr ⟨hm, fun he => h (he.symm.trans hx)⟩

theorem find?_filter (t : Table ρ) (p : κ → Bool) (k : κ) :
    (t.filter fun r => p (key r)).find? k = if p k then t.find? k else none := by
  split_ifs with h
  · apply find?_congr
    intro x hx
    rw [mem_filter, hx]
    exact and_iff_left h
  · apply find?_eq_none_iff.mpr
    intro x hx he
    exact h (he ▸ (mem_filter.mp hx).2)

theorem find?_map (t : Table ρ) (f : ρ → ρ) (hf : ∀ r, key (f r) = key r) (k : κ) :
    (t.map f hf).find? k = (t.find? k).map f := by
  apply Option.ext
  intro r
  rw [find?_eq_some_iff, mem_map, Option.map_eq_some_iff]
  constructor
  · rintro ⟨⟨x, hx, rfl⟩, hk⟩
    exact ⟨x, find?_eq_some_iff.mpr ⟨hx, (hf x).symm.trans hk⟩, rfl⟩
  · rintro ⟨x, hx, rfl⟩
    obtain ⟨hm, hk⟩ := find?_eq_some_iff.mp hx
    exact ⟨⟨x, hm, rfl⟩, (hf x).trans hk⟩

/-- A row is stored under a key that is still free. -/
theorem insert?_of_free {t : Table ρ} {r : ρ} (h : ∀ x ∈ t, key x ≠ key r) :
    t.insert? r = some (t.put r) := by
  rw [insert?, has_eq_false_iff.mpr h]
  rfl

end Keys

/-- A row that is dropped and stored again is back in its place. -/
theorem put_filter_of_mem {t : Table ρ} {r : ρ} {p : ρ → Bool} (hr : r ∈ t)
    (hp : ∀ x, p x = true ↔ key x ≠ key r) : (t.filter p).put r = t := by
  apply ext_mem
  intro x
  rw [mem_put, mem_filter, hp]
  constructor
  · rintro (rfl | ⟨⟨hx, -⟩, -⟩)
    · exact hr
    · exact hx
  · intro hx
    by_cases he : key x = key r
    · exact .inl (eq_of_key_eq hx hr he)
    · exact .inr ⟨⟨hx, he⟩, he⟩

/-- A row whose key comes after all others is stored at the end. -/
theorem rows_put_of_last {t : Table ρ} {r : ρ} (h : ∀ x ∈ t, KeyOrder.lt (key x) (key r)) :
    (t.put r).rows = t.rows ++ [r] := by
  have hp : ∀ xs : List ρ, (∀ x ∈ xs, KeyOrder.lt (key x) (key r)) → place r xs = xs ++ [r] := by
    intro xs hxs
    induction xs with
    | nil => rfl
    | cons x xs ih =>
      have hx := hxs x List.mem_cons_self
      have hn : ¬ KeyOrder.lt (key r) (key x) := fun hr => KeyOrder.irrefl _ (KeyOrder.trans hx hr)
      rw [place, if_neg hn, if_pos hx, ih fun y hy => hxs y (List.mem_cons_of_mem _ hy)]
      rfl
  exact hp t.rows h

/-- Storing rows of distinct keys one after another keeps them and what is under other keys. -/
theorem mem_foldl_put {t : Table ρ} {rs : List ρ} (h : (rs.map key).Nodup) {x : ρ} :
    x ∈ rs.foldl put t ↔ x ∈ rs ∨ (x ∈ t ∧ key x ∉ rs.map key) := by
  induction rs generalizing t with
  | nil => simp
  | cons r rs ih =>
    rw [List.map_cons, List.nodup_cons] at h
    rw [List.foldl_cons, ih h.2, mem_put]
    have hr : x ∈ rs → key x ∈ rs.map key := fun hx => List.mem_map_of_mem hx
    grind

/-- Rows of distinct keys make up a table. -/
theorem mem_ofList {rs : List ρ} (h : (rs.map key).Nodup) {r : ρ} : r ∈ ofList rs ↔ r ∈ rs := by
  rw [ofList, mem_foldl_put h]
  simp only [not_mem_empty, false_and, or_false]

theorem rows_ofList_perm {rs : List ρ} (h : (rs.map key).Nodup) : (ofList rs).rows.Perm rs :=
  (List.perm_ext_iff_of_nodup (rows_nodup _) h.of_map).mpr fun _ => mem_ofList h

/-- Rows in order are the rows of their table. -/
theorem rows_ofList {rs : List ρ} (h : rs.Pairwise fun a b => KeyOrder.lt (key a) (key b)) :
    (ofList rs).rows = rs := by
  have hk : (rs.map key).Nodup := List.pairwise_map.mpr (h.imp KeyOrder.ne_of_lt)
  suffices ofList rs = ⟨rs, h⟩ by rw [this]
  exact ext_mem fun r => mem_ofList hk

theorem ofList_rows (t : Table ρ) : ofList t.rows = t := ext_rows (rows_ofList t.ordered)

/-- Rows are put in the same order before and after they are read, if reading keeps their keys. -/
theorem map_rows_ofList {ρ' : Type} [Keyed ρ' κ] {f : ρ → ρ'} (hf : ∀ r, key (f r) = key r)
    {rs : List ρ} (h : (rs.map key).Nodup) : (ofList rs).rows.map f = (ofList (rs.map f)).rows := by
  have hk : ((rs.map f).map key).Nodup := by
    rw [List.map_map]
    exact (List.map_congr_left fun r _ => hf r) ▸ h
  have ho : ((ofList rs).rows.map f).Pairwise fun a b => KeyOrder.lt (key a) (key b) := by
    simpa only [List.pairwise_map, hf] using (ofList rs).ordered
  suffices (⟨_, ho⟩ : Table ρ') = ofList (rs.map f) by rw [← this]
  refine ext_mem fun x => ?_
  rw [mem_ofList hk, ← mem_rows, List.mem_map, List.mem_map]
  simp only [mem_rows, mem_ofList h]

section Rekeying

/-- The rows of a table under new keys, in their new order. -/
def rekey (t : Table ρ) (f : ρ → ρ) : Table ρ := ofList (t.rows.map f)

variable {t : Table ρ} {f : ρ → ρ} {σ : κ → κ}

omit [KeyOrder κ] in
lemma rekeyed_nodup (hσ : Function.Injective σ) (hf : ∀ r, key (f r) = σ (key r)) {rs : List ρ}
    (h : (rs.map key).Nodup) : ((rs.map f).map key).Nodup := by
  have hkeys : (rs.map f).map key = (rs.map key).map σ := by
    rw [List.map_map, List.map_map]
    exact List.map_congr_left fun r _ => hf r
  rw [hkeys]
  exact h.map hσ

theorem mem_rekey (hσ : Function.Injective σ) (hf : ∀ r, key (f r) = σ (key r)) {r : ρ} :
    r ∈ t.rekey f ↔ ∃ x ∈ t, f x = r := by
  rw [rekey, mem_ofList (rekeyed_nodup hσ hf t.keys_nodup), List.mem_map]
  rfl

theorem rekey_of_fixed (h : ∀ r, f r = r) : t.rekey f = t := by
  obtain rfl : f = id := funext h
  rw [rekey, List.map_id, ofList_rows]

theorem rows_rekey_perm (hσ : Function.Injective σ) (hf : ∀ r, key (f r) = σ (key r)) :
    (t.rekey f).rows.Perm (t.rows.map f) :=
  rows_ofList_perm (rekeyed_nodup hσ hf t.keys_nodup)

/-- The rows that pass a test are put under new keys by themselves. -/
theorem filter_rekey (hσ : Function.Injective σ) (hf : ∀ r, key (f r) = σ (key r)) {p : ρ → Bool}
    (hp : ∀ r, p (f r) = p r) : (t.rekey f).filter p = (t.filter p).rekey f := by
  refine ext_mem fun r => ?_
  rw [mem_filter, mem_rekey hσ hf, mem_rekey hσ hf]
  constructor
  · intro hmem
    obtain ⟨⟨x, hx, rfl⟩, hpx⟩ := hmem
    exact ⟨x, mem_filter.mpr ⟨hx, (hp x).symm.trans hpx⟩, rfl⟩
  · intro hmem
    obtain ⟨x, hx, rfl⟩ := hmem
    obtain ⟨hx, hpx⟩ := mem_filter.mp hx
    exact ⟨⟨x, hx, rfl⟩, (hp x).trans hpx⟩

end Rekeying

/-- The first row that passes a test has the least key of those that pass. -/
theorem head?_filter_eq_some_iff {t : Table ρ} {p : ρ → Bool} {r : ρ} :
    (t.rows.filter p).head? = some r ↔
      r ∈ t ∧ p r = true ∧ ∀ x ∈ t, p x = true → x ≠ r → KeyOrder.lt (key r) (key x) := by
  have ho := (t.filter p).ordered
  change (t.filter p).rows.head? = some r ↔ _
  have hm : ∀ x, x ∈ (t.filter p).rows ↔ x ∈ t ∧ p x = true := fun x => mem_filter
  generalize (t.filter p).rows = rs at ho hm ⊢
  cases rs with
  | nil =>
    constructor
    · intro h
      simp at h
    · rintro ⟨hr, hp, -⟩
      exact absurd ((hm r).mpr ⟨hr, hp⟩) List.not_mem_nil
  | cons a as =>
    obtain ⟨ha, -⟩ := List.pairwise_cons.mp ho
    rw [List.head?_cons, Option.some_inj]
    constructor
    · rintro rfl
      obtain ⟨hr, hp⟩ := (hm a).mp List.mem_cons_self
      refine ⟨hr, hp, fun x hx hpx hne => ?_⟩
      rcases List.mem_cons.mp ((hm x).mpr ⟨hx, hpx⟩) with he | hx
      · exact absurd he hne
      · exact ha x hx
    · rintro ⟨hr, hp, hl⟩
      by_contra hne
      obtain ⟨hat, hap⟩ := (hm a).mp List.mem_cons_self
      rcases List.mem_cons.mp ((hm r).mpr ⟨hr, hp⟩) with he | hx
      · exact hne he.symm
      · exact KeyOrder.irrefl _ (KeyOrder.trans (ha r hx) (hl a hat hap hne))

end WheelFarm.Table
