import Mathlib.Data.List.Forall2
import Mathlib.Tactic.Lemma
import WheelFarm.Json.Reader

/-! What a reader takes from the front of the tokens. Each kind of value is told by the tokens it
takes, whatever stands behind them, and an array or object is put together from its parts. -/
namespace WheelFarm.Json

variable {α β σ : Type}

/-- The reader gives a value and leaves the rest of the tokens. -/
def Reads (r : Reader α) (ts : List Token) (a : α) (rest : List Token) : Prop :=
  StateT.run r ts = .ok (a, rest)

/-- The reader takes exactly these tokens, whatever stands behind them. -/
def Takes (r : Reader α) (ts : List Token) (a : α) : Prop := ∀ rest, Reads r (ts ++ rest) a rest

theorem Reads.bind {r : Reader α} {f : α → Reader β} {ts us vs : List Token} {a : α} {b : β}
    (hr : Reads r ts a us) (hf : Reads (f a) us b vs) : Reads (r >>= f) ts b vs := by
  rw [Reads, StateT.run_bind, hr]
  exact hf

/-- Items with a separator between them: the first one, and each other one behind a separator. -/
theorem intercalate_cons (x : α) (xs : List α) (xss : List (List α)) :
    [x].intercalate (xs :: xss) = xs ++ xss.flatMap (x :: ·) := by
  induction xss generalizing xs with
  | nil => simp
  | cons ys yss ih => simp [List.intercalate_cons_cons, ih]

/-- Every item brings a separator or more. -/
theorem length_le_flatMap (x : α) (xss : List (List α)) :
    xss.length ≤ (xss.flatMap (x :: ·)).length := by
  induction xss with
  | nil => simp
  | cons xs xss ih =>
    rw [List.flatMap_cons, List.length_append, List.length_cons, List.length_cons]
    omega

namespace Reader
variable {ts rest : List Token}

section Values

theorem takes_string (s : String) : Takes string [.string (some s)] s := fun _ => rfl

theorem takes_bool (b : Bool) : Takes bool [.bool b] b := fun _ => rfl

theorem takes_numeral {n : Numeral} (h : n.magnitude?.isSome = true) :
    Takes numeral [.number n] n := by
  intro rest
  have hpeek : Reads peek (.number n :: rest) (some (.number n)) (.number n :: rest) := rfl
  refine hpeek.bind ?_
  simp only [h, if_true]
  rfl

theorem takes_word {n : Numeral} {w : UInt64} (h : n.magnitude?.isSome = true)
    (hw : n.word? = some w) : Takes word [.number n] w := by
  intro rest
  refine (takes_numeral h rest).bind ?_
  rw [hw]
  rfl

theorem reads_get : Reads get ts ts ts := rfl

theorem reads_opening (t : Token) : Reads (opening t) (t :: rest) () rest := by
  have hpeek : Reads peek (t :: rest) (some t) (t :: rest) := rfl
  refine hpeek.bind ?_
  rw [if_pos rfl]
  rfl

theorem reads_closing (t : Token) : Reads (closing t) (t :: rest) () rest := by
  have hpeek : Reads peek (t :: rest) (some t) (t :: rest) := rfl
  refine hpeek.bind ?_
  simp only [if_true]
  rfl

theorem reads_colon : Reads colon (.colon :: rest) () rest := rfl

end Values

section Arrays
variable {item : Reader α} {tss : List (List Token)} {a : α} {as : List α}

/-- The tokens of an item of an array, of which the first one does not end the array. -/
structure Item (item : Reader α) (ts : List Token) (a : α) : Prop where
  begins : ∃ t us, ts = t :: us ∧ t ≠ .closeBracket
  takes : Takes item ts a

lemma nextItem_first (h : ∃ t us, ts = t :: us ∧ t ≠ .closeBracket) :
    Reads (nextItem true) (ts ++ rest) true (ts ++ rest) := by
  obtain ⟨t, us, rfl, ht⟩ := h
  cases t <;> first | rfl | exact absurd rfl ht

lemma nextItem_comma (h : ∃ t us, ts = t :: us ∧ t ≠ .closeBracket) :
    Reads (nextItem false) (.comma :: (ts ++ rest)) true (ts ++ rest) := by
  obtain ⟨t, us, rfl, ht⟩ := h
  cases t <;> first | rfl | exact absurd rfl ht

lemma nextItem_end (first : Bool) :
    Reads (nextItem first) (.closeBracket :: rest) false (.closeBracket :: rest) := rfl

lemma reads_itemsLoop (h : List.Forall₂ (Item item) tss as) {fuel : Nat}
    (hfuel : tss.length < fuel) (read : List α) :
    Reads (itemsLoop item fuel false read) (tss.flatMap (.comma :: ·) ++ .closeBracket :: rest)
      (read.reverse ++ as) (.closeBracket :: rest) := by
  obtain ⟨fuel, rfl⟩ : ∃ k, fuel = k + 1 := ⟨fuel - 1, by omega⟩
  induction h generalizing fuel read with
  | nil =>
    rw [List.append_nil]
    exact (nextItem_end false).bind rfl
  | @cons ts a tss as hitem _ ih =>
    obtain ⟨fuel, rfl⟩ : ∃ k, fuel = k + 1 := ⟨fuel - 1, by simp at hfuel; omega⟩
    rw [List.flatMap_cons, List.cons_append, List.cons_append, List.append_assoc]
    refine (nextItem_comma hitem.begins).bind ((hitem.takes _).bind ?_)
    have hrest := ih (a :: read) fuel (by simpa using hfuel)
    rwa [List.reverse_cons, List.append_assoc] at hrest

/-- An array is read item by item. -/
theorem takes_array (h : List.Forall₂ (Item item) tss as) :
    Takes (array item) (.openBracket :: ([.comma].intercalate tss ++ [.closeBracket])) as := by
  intro rest
  have hitems : ∀ fuel, ([Token.comma].intercalate tss).length < fuel →
      Reads (itemsLoop item fuel true []) ([.comma].intercalate tss ++ .closeBracket :: rest)
        as (.closeBracket :: rest) := by
    intro fuel hfuel
    obtain ⟨fuel, rfl⟩ : ∃ k, fuel = k + 1 := ⟨fuel - 1, by omega⟩
    cases h with
    | nil => exact (nextItem_end true).bind rfl
    | @cons ts a tss as hitem hitems =>
      rw [intercalate_cons] at hfuel ⊢
      rw [List.append_assoc]
      refine (nextItem_first hitem.begins).bind ((hitem.takes _).bind ?_)
      have hlen := length_le_flatMap Token.comma tss
      obtain ⟨t, us, rfl, -⟩ := hitem.begins
      refine reads_itemsLoop hitems ?_ [a]
      simp only [List.length_append, List.length_cons] at hfuel
      omega
  rw [List.cons_append, List.append_assoc]
  refine (reads_opening _).bind (reads_get.bind ((hitems _ ?_).bind ((reads_closing _).bind rfl)))
  simp only [List.length_append, List.length_cons]
  omega

end Arrays

section Objects

/-- Members of an object, each with the tokens behind its key, and what is kept of them. -/
inductive Members (member : String → σ → Reader σ) : σ → List (String × List Token) → σ → Prop
  | nil (s : σ) : Members member s [] s
  | cons {s s' s'' : σ} {k : String} {ts : List Token} {ms : List (String × List Token)}
      (first : Takes (member k s) ts s') (others : Members member s' ms s'') :
      Members member s ((k, ts) :: ms) s''

variable {member : String → σ → Reader σ} {s s' : σ} {ms : List (String × List Token)}

/-- The key of a member and the tokens behind it. -/
def memberTokens (m : String × List Token) : List Token := .string (some m.1) :: m.2

lemma reads_membersLoop (h : Members member s ms s') {fuel : Nat} (hfuel : ms.length < fuel) :
    Reads (membersLoop member fuel false s)
      ((ms.map memberTokens).flatMap (.comma :: ·) ++ .closeBrace :: rest)
      s' (.closeBrace :: rest) := by
  obtain ⟨fuel, rfl⟩ : ∃ k, fuel = k + 1 := ⟨fuel - 1, by omega⟩
  induction h generalizing fuel with
  | nil =>
    have hend : Reads (nextKey false) (.closeBrace :: rest) none (.closeBrace :: rest) := rfl
    exact hend.bind rfl
  | @cons s s' s'' k ts ms hfirst _ ih =>
    obtain ⟨fuel, rfl⟩ : ∃ k, fuel = k + 1 := ⟨fuel - 1, by simp at hfuel; omega⟩
    have hkey : ∀ us, Reads (nextKey false) (.comma :: .string (some k) :: us) (some k) us :=
      fun _ => rfl
    simp only [List.map_cons, List.flatMap_cons, memberTokens, List.cons_append, List.append_assoc]
    exact (hkey _).bind ((hfirst _).bind (ih fuel (by simpa using hfuel)))

/-- The members of an object are read one after another up to its end, which stays. -/
theorem reads_members (h : Members member s ms s') :
    Reads (members member s) ([.comma].intercalate (ms.map memberTokens) ++ .closeBrace :: rest)
      s' (.closeBrace :: rest) := by
  refine reads_get.bind ?_
  cases h with
  | nil =>
    have hend : Reads (nextKey true) (.closeBrace :: rest) none (.closeBrace :: rest) := rfl
    exact hend.bind rfl
  | @cons s s' s'' k ts ms hfirst hms =>
    have hkey : ∀ us, Reads (nextKey true) (.string (some k) :: us) (some k) us := fun _ => rfl
    simp only [List.map_cons, intercalate_cons, memberTokens, List.cons_append, List.append_assoc]
    refine (hkey _).bind ((hfirst _).bind (reads_membersLoop hms ?_))
    have hlen := length_le_flatMap Token.comma (ms.map memberTokens)
    simp only [List.length_append, List.length_cons, List.length_map] at hlen ⊢
    omega

end Objects

section Results
variable {P : α → Prop} {Q : β → Prop} {I : σ → Prop}

/-- Every value that the reader gives has the property. -/
def Yields (P : α → Prop) (r : Reader α) : Prop := ∀ ts a rest, Reads r ts a rest → P a

theorem yields_any (r : Reader α) : Yields (fun _ => True) r := fun _ _ _ _ => trivial

theorem yields_pure {a : α} (h : P a) : Yields P (pure a) := by
  intro ts b rest hreads
  cases hreads
  exact h

theorem yields_throw (f : Fault) : Yields P (throw f) := by
  intro ts a rest hreads
  cases hreads

theorem Yields.bind {r : Reader α} {f : α → Reader β} (hr : Yields P r)
    (hf : ∀ a, P a → Yields Q (f a)) : Yields Q (r >>= f) := by
  intro ts b rest hreads
  unfold Reads at hreads
  rw [StateT.run_bind] at hreads
  cases hrun : StateT.run r ts with
  | error e =>
    rw [hrun] at hreads
    cases hreads
  | ok done =>
    rw [hrun] at hreads
    exact hf done.1 (hr ts done.1 done.2 hrun) done.2 b rest hreads

/-- Behind a fault nothing is read. -/
theorem yields_throw_bind (f : Fault) (k : β → Reader α) : Yields P (throw f >>= k) :=
  (yields_throw (P := fun _ => False) f).bind fun _ h => h.elim

/-- What every member keeps holds when the members of an object have been read. -/
theorem yields_membersLoop {member : String → σ → Reader σ}
    (h : ∀ k s, I s → Yields I (member k s)) (fuel : Nat) (first : Bool) {s : σ} (hs : I s) :
    Yields I (membersLoop member fuel first s) := by
  induction fuel generalizing first s with
  | zero => exact yields_throw _
  | succ fuel ih =>
    unfold membersLoop
    refine (yields_any _).bind fun k _ => ?_
    cases k with
    | none => exact yields_pure hs
    | some k => exact (h k s hs).bind fun t ht => ih false ht

theorem yields_members {member : String → σ → Reader σ} (h : ∀ k s, I s → Yields I (member k s))
    {s : σ} (hs : I s) : Yields I (members member s) :=
  (yields_any _).bind fun _ _ => yields_membersLoop h _ _ hs

theorem Yields.of_run {r : Reader α} {text : String} {a : α} (hr : Yields P r)
    (h : run r text = .ok a) : P a := by
  unfold run at h
  split at h
  · next hrun =>
    cases h
    exact hr _ _ _ hrun
  · cases h
  · cases h

end Results

/-- A text is read whole if the reader takes all its tokens. -/
theorem run_of_takes {r : Reader α} {text : String} {a : α} (h : Takes r (tokens text.toList) a) :
    run r text = .ok a := by
  have hall := h []
  rw [List.append_nil, Reads] at hall
  rw [run, hall]

end Reader

end WheelFarm.Json
