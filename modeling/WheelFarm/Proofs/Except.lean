import Mathlib.Tactic.Lemma

/-! Results taken apart: those of one computation after another, and those of a computation on every
element of a list, where the first error counts. -/
namespace WheelFarm

variable {ε α β : Type} {x : Except ε α} {b : β}

lemma map_eq_ok {f : α → β} (h : x.map f = .ok b) : ∃ a, x = .ok a ∧ f a = b := by
  cases x with
  | error e => cases h
  | ok a => exact ⟨a, rfl, Except.ok.inj h⟩

lemma bind_eq_ok {f : α → Except ε β} (h : x.bind f = .ok b) : ∃ a, x = .ok a ∧ f a = .ok b := by
  cases x with
  | error e => cases h
  | ok a => exact ⟨a, rfl, h⟩

lemma mapM_eq_ok {f : α → Except ε β} {g : α → β} {as : List α}
    (h : ∀ a ∈ as, f a = .ok (g a)) : as.mapM f = .ok (as.map g) := by
  induction as with
  | nil => rfl
  | cons a as ih =>
    rw [List.mapM_cons, h a List.mem_cons_self, ih fun b hb => h b (List.mem_cons_of_mem _ hb)]
    rfl

lemma exists_ok_of_mapM {f : α → Except ε β} {as : List α} {bs : List β}
    (h : as.mapM f = .ok bs) : ∀ a ∈ as, ∃ b, f a = .ok b := by
  induction as generalizing bs with
  | nil => simp
  | cons a as ih =>
    rw [List.mapM_cons] at h
    obtain ⟨b, hb, h⟩ := bind_eq_ok h
    obtain ⟨bs', hbs, -⟩ := bind_eq_ok h
    exact List.forall_mem_cons.mpr ⟨⟨b, hb⟩, ih hbs⟩

lemma mapM_eq_error_iff {f : α → Except ε β} {as : List α} {e : ε} :
    as.mapM f = .error e ↔ ∃ before a after, as = before ++ a :: after ∧
      (∀ x ∈ before, ∃ y, f x = .ok y) ∧ f a = .error e := by
  induction as with
  | nil =>
    constructor
    · intro h
      cases h
    · rintro ⟨before, a, after, h, -⟩
      simp at h
  | cons a as ih =>
    rw [List.mapM_cons]
    constructor
    · intro h
      cases ha : f a with
      | error e' =>
        rw [ha] at h
        cases h
        exact ⟨[], a, as, rfl, by simp, ha⟩
      | ok y =>
        rw [ha] at h
        cases has : as.mapM f with
        | ok ys =>
          rw [has] at h
          cases h
        | error e' =>
          rw [has] at h
          cases h
          obtain ⟨before, a', after, rfl, hbefore, ha'⟩ := ih.mp has
          exact ⟨a :: before, a', after, rfl, List.forall_mem_cons.mpr ⟨⟨y, ha⟩, hbefore⟩, ha'⟩
    · rintro ⟨_ | ⟨x, before⟩, a', after, h, hbefore, ha'⟩
      · obtain ⟨rfl, rfl⟩ := List.cons.inj h
        rw [ha']
        rfl
      · obtain ⟨rfl, rfl⟩ := List.cons.inj h
        obtain ⟨⟨y, hy⟩, hbefore⟩ := List.forall_mem_cons.mp hbefore
        rw [hy, ih.mpr ⟨before, a', after, rfl, hbefore, ha'⟩]
        rfl

lemma mapM_eq_error_iff_of_pairwise {f : α → Except ε β} {r : α → α → Prop} {as : List α} {e : ε}
    (hr : ∀ {a b}, r a b → ¬ r b a) (h : as.Pairwise r) : as.mapM f = .error e ↔
      ∃ a ∈ as, f a = .error e ∧ ∀ b ∈ as, r b a → ∃ y, f b = .ok y := by
  rw [mapM_eq_error_iff]
  constructor
  · rintro ⟨before, a, after, rfl, hbefore, ha⟩
    refine ⟨a, by simp, ha, fun b hb hlt => ?_⟩
    obtain ⟨-, hrest, -⟩ := List.pairwise_append.mp h
    -- What is less than the element comes neither at its place nor after it.
    rcases List.mem_append.mp hb with hb | hb
    · exact hbefore b hb
    · rcases List.mem_cons.mp hb with rfl | hb
      · exact absurd hlt (hr hlt)
      · exact absurd hlt (hr ((List.pairwise_cons.mp hrest).1 b hb))
  · rintro ⟨a, ha, herror, hleast⟩
    obtain ⟨before, after, rfl⟩ := List.append_of_mem ha
    obtain ⟨-, -, hlt⟩ := List.pairwise_append.mp h
    exact ⟨before, a, after, rfl, fun b hb => hleast b (List.mem_append_left _ hb)
      (hlt b hb a List.mem_cons_self), herror⟩

end WheelFarm
