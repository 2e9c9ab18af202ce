import WheelFarm.Dependencies
import WheelFarm.Proofs.Table

/-! Dependencies are told by their pairs of a tool and a name, save for tools without names.
Requiring pairs one after another, in any order and however often, leads to the dependencies that
have just those pairs. -/
namespace WheelFarm.Dependencies

theorem mem_pairs {d : Dependencies} {tool name : String} :
    (tool, name) ∈ d.pairs ↔ ∃ r ∈ d, r.tool = tool ∧ name ∈ r.names := by
  simp only [pairs, List.mem_flatMap, List.mem_map, Prod.mk.injEq, Table.mem_rows]
  grind

theorem pairs_nodup (d : Dependencies) : d.pairs.Nodup := by
  rw [pairs, List.nodup_flatMap]
  constructor
  · intro r _
    exact r.names.rows_nodup.map fun m n h => congrArg Prod.snd h
  · refine d.ordered.imp fun {a b} hab => ?_
    intro p ha hb
    obtain ⟨m, -, rfl⟩ := List.mem_map.mp ha
    obtain ⟨n, -, h⟩ := List.mem_map.mp hb
    exact KeyOrder.ne_of_lt hab (congrArg Prod.fst h).symm

theorem mem_names {d : Dependencies} {tool name : String} :
    name ∈ names d tool ↔ (tool, name) ∈ d.pairs := by
  rw [mem_pairs, names]
  split
  · next r hr =>
    obtain ⟨hm, hk⟩ := Table.find?_eq_some_iff.mp hr
    constructor
    · exact fun hn => ⟨r, hm, hk, hn⟩
    · intro hmem
      obtain ⟨r', hm', hk', hn⟩ := hmem
      rwa [Table.eq_of_key_eq hm hm' (hk.trans hk'.symm)]
  · next hr =>
    have hn := Table.find?_eq_none_iff.mp hr
    constructor
    · exact fun h => absurd h (Table.not_mem_empty name)
    · intro hmem
      obtain ⟨r, hm, hk, -⟩ := hmem
      exact absurd hk (hn r hm)

/-- Requiring a name adds its pair and nothing else. -/
theorem mem_pairs_require {d : Dependencies} {tool name : String} {p : String × String} :
    p ∈ (d.require tool name).pairs ↔ p = (tool, name) ∨ p ∈ d.pairs := by
  obtain ⟨t, n⟩ := p
  rw [mem_pairs, require]
  simp only [Table.mem_put]
  constructor
  · intro hmem
    rcases hmem with ⟨r, rfl | ⟨hr, -⟩, rfl, hn⟩
    · rcases Table.mem_put.mp hn with rfl | ⟨hn, -⟩
      · exact .inl rfl
      · exact .inr (mem_names.mp hn)
    · exact .inr (mem_pairs.mpr ⟨r, hr, rfl, hn⟩)
  · intro h
    by_cases ht : t = tool
    · subst ht
      refine ⟨_, .inl rfl, rfl, Table.mem_put.mpr ?_⟩
      by_cases hn : n = name
      · exact .inl hn
      · have hp : (t, n) ∈ d.pairs := by simpa [hn] using h
        exact .inr ⟨mem_names.mpr hp, hn⟩
    · have hp : (t, n) ∈ d.pairs := by simpa [ht] using h
      obtain ⟨r, hr, rfl, hn⟩ := mem_pairs.mp hp
      exact ⟨r, .inr ⟨hr, ht⟩, rfl, hn⟩

/-- No tool is there without a name. -/
def Full (d : Dependencies) : Prop := ∀ r ∈ d, ∃ n, n ∈ r.names

theorem full_empty : Full ∅ := fun r hr => absurd hr (Table.not_mem_empty r)

theorem full_require {d : Dependencies} (h : d.Full) (tool name : String) :
    (d.require tool name).Full := by
  intro r hr
  rcases Table.mem_put.mp hr with rfl | ⟨hr, -⟩
  · exact ⟨name, Table.mem_put.mpr (.inl rfl)⟩
  · exact h r hr

lemma mem_of_pairs {d e : Dependencies} (hd : d.Full) (h : ∀ p, p ∈ d.pairs ↔ p ∈ e.pairs)
    {r : Requirement} (hr : r ∈ d) : r ∈ e := by
  obtain ⟨n, hn⟩ := hd r hr
  obtain ⟨s, hs, ht, -⟩ := mem_pairs.mp ((h (r.tool, n)).mp (mem_pairs.mpr ⟨r, hr, rfl, hn⟩))
  have hnames : r.names = s.names := by
    apply Table.ext_mem
    intro m
    constructor
    · intro hm
      obtain ⟨s', hs', ht', hm'⟩ := mem_pairs.mp ((h _).mp (mem_pairs.mpr ⟨r, hr, rfl, hm⟩))
      rwa [Table.eq_of_key_eq hs hs' (ht.trans ht'.symm)]
    · intro hm
      obtain ⟨r', hr', ht', hm'⟩ := mem_pairs.mp ((h _).mpr (mem_pairs.mpr ⟨s, hs, ht, hm⟩))
      rwa [Table.eq_of_key_eq hr hr' ht'.symm]
  have he : r = s := by
    cases r
    cases s
    simp_all
  exact he ▸ hs

/-- Dependencies in which every tool has a name are determined by their pairs. -/
theorem eq_of_pairs {d e : Dependencies} (hd : d.Full) (he : e.Full)
    (h : ∀ p, p ∈ d.pairs ↔ p ∈ e.pairs) : d = e :=
  Table.ext_mem fun _ => ⟨mem_of_pairs hd h, mem_of_pairs he fun p => (h p).symm⟩

/-- The dependencies with the tools left out from which no name is required. -/
def withoutEmpty (d : Dependencies) : Dependencies := d.filter fun r => !r.names.rows.isEmpty

lemma full_withoutEmpty (d : Dependencies) : d.withoutEmpty.Full := by
  intro r hr
  have hn : r.names.rows ≠ [] := by simpa using (Table.mem_filter.mp hr).2
  obtain ⟨n, hn⟩ := List.exists_mem_of_ne_nil _ hn
  exact ⟨n, hn⟩

@[simp] theorem mem_pairs_withoutEmpty {d : Dependencies} {p : String × String} :
    p ∈ d.withoutEmpty.pairs ↔ p ∈ d.pairs := by
  obtain ⟨t, n⟩ := p
  simp only [mem_pairs, withoutEmpty, Table.mem_filter]
  constructor
  · intro hmem
    obtain ⟨r, ⟨hr, -⟩, ht, hn⟩ := hmem
    exact ⟨r, hr, ht, hn⟩
  · intro hmem
    obtain ⟨r, hr, ht, hn⟩ := hmem
    have hne : r.names.rows ≠ [] := List.ne_nil_of_mem hn
    exact ⟨r, ⟨hr, by simpa using hne⟩, ht, hn⟩

/-- Requires pairs one after another. -/
def requireAll (d : Dependencies) (ps : List (String × String)) : Dependencies :=
  ps.foldl (fun d p => d.require p.1 p.2) d

theorem mem_pairs_requireAll {d : Dependencies} {ps : List (String × String)}
    {p : String × String} : p ∈ (d.requireAll ps).pairs ↔ p ∈ ps ∨ p ∈ d.pairs := by
  induction ps generalizing d with
  | nil => simp [requireAll]
  | cons q ps ih =>
    have hq : d.requireAll (q :: ps) = (d.require q.1 q.2).requireAll ps := rfl
    rw [hq, ih, mem_pairs_require, List.mem_cons]
    tauto

theorem full_requireAll {d : Dependencies} (h : d.Full) (ps : List (String × String)) :
    (d.requireAll ps).Full := by
  induction ps generalizing d with
  | nil => exact h
  | cons q ps ih => exact ih (full_require h q.1 q.2)

end WheelFarm.Dependencies
