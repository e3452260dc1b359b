import Mathlib.Data.List.Sort

/-!
# Shortest prefixes

The shortest prefix of a list that has a property, or all of the list if no prefix has it. There is
one for every property and every list, and a loop that takes one element after the other until the
property holds comes to it.
-/

variable {α : Type*} {P : List α → Prop} {l p q : List α} {a : α}

/-- The shortest prefix of `l` that has the property, or `l` if none has it. -/
structure ShortestPrefix (P : List α → Prop) (l p : List α) : Prop where
  isPrefix : p <+: l
  reaches : P p ∨ p = l
  least : ∀ q, q <+: p → q ≠ p → ¬ P q

namespace ShortestPrefix

theorem nil : ShortestPrefix P [] [] :=
  ⟨List.prefix_rfl, Or.inr rfl, fun _ hq hne ↦ absurd (List.prefix_nil.mp hq) hne⟩

/-- Nothing is taken if nothing is needed. -/
theorem of_nil (h : P []) : ShortestPrefix P l [] :=
  ⟨List.nil_prefix, Or.inl h, fun _ hq hne ↦ absurd (List.prefix_nil.mp hq) hne⟩

/-- The first element is taken, and the shortest prefix of the rest. -/
theorem cons (h : ¬ P []) (hp : ShortestPrefix (fun p ↦ P (a :: p)) l p) :
    ShortestPrefix P (a :: l) (a :: p) := by
  refine ⟨List.cons_prefix_cons.mpr ⟨rfl, hp.isPrefix⟩,
    hp.reaches.imp_right (congrArg (a :: ·)), fun q hq hne ↦ ?_⟩
  rcases q with _ | ⟨b, q⟩
  · exact h
  · obtain ⟨rfl, htail⟩ := List.cons_prefix_cons.mp hq
    exact hp.least q htail fun heq ↦ hne (congrArg (b :: ·) heq)

theorem eq_of_prefix (hp : ShortestPrefix P l p) (hq : ShortestPrefix P l q) (h : p <+: q) :
    p = q := by
  by_contra hne
  rcases hp.reaches with hreaches | rfl
  · exact hq.least p h hne hreaches
  · exact hne (h.eq_of_length_le hq.isPrefix.length_le)

/-- **There is no other.** -/
theorem unique (hp : ShortestPrefix P l p) (hq : ShortestPrefix P l q) : p = q := by
  rcases List.prefix_or_prefix_of_prefix hp.isPrefix hq.isPrefix with h | h
  · exact hp.eq_of_prefix hq h
  · exact (hq.eq_of_prefix hp h).symm

/-- **There always is one.** -/
theorem exists_prefix (P : List α → Prop) (l : List α) : ∃ p, ShortestPrefix P l p := by
  induction l generalizing P with
  | nil => exact ⟨[], nil⟩
  | cons a l ih =>
    by_cases h : P []
    · exact ⟨[], of_nil h⟩
    · obtain ⟨p, hp⟩ := ih fun p ↦ P (a :: p)
      exact ⟨a :: p, hp.cons h⟩

/-- Where something is needed, the first element is taken. -/
theorem of_cons (h : ¬ P []) (hp : ShortestPrefix P (a :: l) p) :
    ∃ q, p = a :: q ∧ ShortestPrefix (fun q ↦ P (a :: q)) l q := by
  obtain ⟨q, hq⟩ := exists_prefix (fun q ↦ P (a :: q)) l
  exact ⟨q, hp.unique (hq.cons h), hq⟩

theorem congr {Q : List α → Prop} (h : ∀ p, P p ↔ Q p) (hp : ShortestPrefix P l p) :
    ShortestPrefix Q l p := by
  rwa [← funext fun p ↦ propext (h p)]

end ShortestPrefix

/-! ## Sorted and filtered -/

section Sorting

variable {r : α → α → Prop} [DecidableRel r] [IsTrans α r]

theorem filter_orderedInsert (f : α → Bool) (a : α) (h : l.Pairwise r) :
    (l.orderedInsert r a).filter f
      = if f a then (l.filter f).orderedInsert r a else l.filter f := by
  induction l with
  | nil => by_cases hf : f a <;> simp [hf]
  | cons b l ih =>
    obtain ⟨hb, hl⟩ := List.pairwise_cons.mp h
    rw [List.orderedInsert_cons]
    split
    · rename_i hab
      -- what is left of the list is not below its first element
      have hfirst : (b :: l).filter f = [] ∨ ∃ c rest, (b :: l).filter f = c :: rest ∧ r a c := by
        rcases hrest : (b :: l).filter f with _ | ⟨c, rest⟩
        · exact Or.inl rfl
        · have hc : c ∈ (b :: l).filter f := hrest ▸ List.mem_cons_self
          refine Or.inr ⟨c, rest, rfl, ?_⟩
          rcases List.mem_cons.mp (List.mem_of_mem_filter hc) with rfl | hc
          · exact hab
          · exact IsTrans.trans _ _ _ hab (hb c hc)
      rw [List.filter_cons]
      split
      · rcases hfirst with hnil | ⟨c, rest, hrest, hac⟩
        · rw [hnil, List.orderedInsert_nil]
        · rw [hrest, List.orderedInsert_cons, if_pos hac]
      · rfl
    · rename_i hab
      rw [List.filter_cons, ih hl, List.filter_cons]
      by_cases hfb : f b <;> by_cases hfa : f a <;> simp [hfa, hfb, hab]

/-- A list that is sorted and filtered is one that is filtered and sorted. -/
theorem filter_insertionSort [Std.Total r] (f : α → Bool) (l : List α) :
    (l.insertionSort r).filter f = (l.filter f).insertionSort r := by
  induction l with
  | nil => rfl
  | cons a l ih =>
    rw [List.insertionSort_cons, filter_orderedInsert f a (List.pairwise_insertionSort r l), ih,
      List.filter_cons]
    split <;> rfl

end Sorting
