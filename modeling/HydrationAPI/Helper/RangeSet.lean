import HydrationAPI.Helper.Partial

/-!
# The algebra of the ranges

Any number of spans are added to an empty set. What is stored is then the union of them, in its one
canonical form, and every question about it is answered as a question about the union.

The end of a span saturates. So the byte at the very end of the range of the type is in no span,
and a span that begins there has none of the bytes it asks for.
-/

namespace HydrationAPI.Ranges

/-- The set after all of these were added to an empty one. -/
def addAll (adds : List Span) : Ranges := adds.foldl Ranges.add Ranges.empty

/-- The byte is in one of the spans. -/
def InUnion (adds : List Span) (x : ℕ) : Prop := ∃ s ∈ adds, s.Mem x

/-- `m` is a part of `s`, with no byte of the set `held` in it. -/
structure Outside (held : ℕ → Prop) (s m : Span) : Prop where
  pos : 0 < m.len
  start : s.offset ≤ m.offset
  stop : m.offset + m.len ≤ s.end'
  out : ∀ x, m.offset ≤ x → x < m.offset + m.len → ¬ held x

/-- No longer part of `s` is outside of the set. -/
def Maximal (held : ℕ → Prop) (s m : Span) : Prop :=
  Outside held s m ∧ ∀ k, Outside held s k → k.offset ≤ m.offset →
    m.offset + m.len ≤ k.offset + k.len → k = m

/-! ## Maximal parts -/

section Maximal

variable {held : ℕ → Prop} {s m k : Span}

theorem Outside.mem_iff (h : Outside held s m) {x : ℕ} :
    m.Mem x ↔ m.offset ≤ x ∧ x < m.offset + m.len := by
  have hend : m.end' = m.offset + m.len :=
    saturatingAdd_of_le (h.stop.trans (min_le_right _ _))
  rw [Span.Mem, hend]

/-- Two parts that meet make up one. -/
theorem Outside.join (hm : Outside held s m) (hk : Outside held s k)
    (hmk : m.offset ≤ k.offset + k.len) (hkm : k.offset ≤ m.offset + m.len) :
    Outside held s ⟨min m.offset k.offset,
      max (m.offset + m.len) (k.offset + k.len) - min m.offset k.offset⟩ := by
  have hmpos := hm.pos
  have hmstart := hm.start
  have hkstart := hk.start
  have hmstop := hm.stop
  have hkstop := hk.stop
  refine ⟨by dsimp only; omega, by dsimp only; omega, by dsimp only; omega, fun x hx hx' ↦ ?_⟩
  dsimp only at hx hx'
  rcases Nat.lt_or_ge x m.offset with hlt | hge
  · exact hk.out x (by omega) (by omega)
  · rcases Nat.lt_or_ge x (m.offset + m.len) with hlt | hge'
    · exact hm.out x hge hlt
    · exact hk.out x (by omega) (by omega)

/-- Two maximal parts that meet are the same. -/
theorem Maximal.eq_of_meet (hm : Maximal held s m) (hk : Maximal held s k)
    (hmk : m.offset ≤ k.offset + k.len) (hkm : k.offset ≤ m.offset + m.len) : m = k := by
  have hjoin := hm.1.join hk.1 hmk hkm
  have hm' := hm.2 _ hjoin (min_le_left _ _) (by dsimp only; omega)
  have hk' := hk.2 _ hjoin (min_le_right _ _) (by dsimp only; omega)
  exact hm'.symm.trans hk'

end Maximal

/-! ## Any set of ranges -/

variable {r : Ranges}

/-- Whether a span is covered is a question about its bytes, unless it has none of those it asks
for. -/
theorem covers_iff_forall_mem {s : Span} (hs : s.len = 0 ∨ s.offset < u64Max) :
    r.covers s = true ↔ ∀ x, s.Mem x → r.Mem x := by
  refine ⟨fun h x hx ↦ mem_of_covers h hx, fun h ↦ ?_⟩
  rw [covers, Bool.or_eq_true]
  rcases Nat.eq_zero_or_pos s.len with hlen | hlen
  · exact Or.inl (by simp [Span.isEmpty, hlen])
  · have hpoint : s.offset < s.end' := by
      rw [Span.end', saturatingAdd]
      omega
    obtain ⟨p, hp, h1, h2⟩ := IntervalList.exists_cover_of_forall_mem r.separated hpoint
      fun x hx1 hx2 ↦ h x ⟨hx1, hx2⟩
    exact Or.inr (List.any_eq_true.mpr ⟨p, hp, by simp [h1, h2]⟩)

theorem outside_of_mem_missing {s m : Span} (h : m ∈ r.missing s) : Outside r.Mem s m := by
  obtain ⟨h1, h2, h3, h4⟩ := bounds_of_mem_missing h
  exact ⟨h2, h1, h3, fun x hx hx' ↦ not_mem_of_mem_missing h ⟨hx, h4 ▸ hx'⟩⟩

/-- A part that is missing ends where the set takes over, and begins where it leaves off. -/
theorem maximal_of_mem_missing (hr : IntervalList.Proper r.spans) {s m : Span}
    (h : m ∈ r.missing s) : Maximal r.Mem s m := by
  refine ⟨outside_of_mem_missing h, fun k hk hkm hmk ↦ ?_⟩
  obtain ⟨p, hp, rfl⟩ := List.mem_map.mp h
  obtain ⟨hstart, hstop⟩ := IntervalList.ends_of_mem_gaps p hp
  obtain ⟨-, hp12, -⟩ := IntervalList.bounds_of_mem_gaps p hp
  have hkstart := hk.start
  have hkstop := hk.stop
  dsimp only at hkm hmk ⊢
  have heq : k.offset = p.1 := by
    rcases hstart with hstart | ⟨q, hq, hqp⟩
    · omega
    · by_contra hne
      have hlast : r.Mem (q.2 - 1) := ⟨q, hq, by have := hr q hq; omega, by have := hr q hq; omega⟩
      exact hk.out (q.2 - 1) (by omega) (by omega) hlast
  have heq' : k.offset + k.len = p.2 := by
    rcases hstop with hstop | ⟨q, hq, hqp⟩
    · omega
    · by_contra hne
      exact hk.out q.1 (by omega) (by omega) ⟨q, hq, le_rfl, hr q hq⟩
  rw [← heq, ← heq', Nat.add_sub_cancel_left]

/-- **What is missing are the maximal parts** that the set does not hold. -/
theorem mem_missing_iff (hr : IntervalList.Proper r.spans) {s m : Span} :
    m ∈ r.missing s ↔ Maximal r.Mem s m := by
  refine ⟨maximal_of_mem_missing hr, fun hm ↦ ?_⟩
  have hpos := hm.1.pos
  have hfirst : s.Mem m.offset := ⟨hm.1.start, by have := hm.1.stop; omega⟩
  obtain ⟨k, hk, hmem⟩ := mem_missing.mpr ⟨hfirst, hm.1.out m.offset le_rfl (by omega)⟩
  have hmax := maximal_of_mem_missing hr hk
  obtain ⟨h1, h2⟩ := hmax.1.mem_iff.mp hmem
  rwa [hm.eq_of_meet hmax h2.le (by omega)]

/-- They stand in order, and between two of them there is something of the set. -/
theorem pairwise_missing_lt (hr : IntervalList.Proper r.spans) (s : Span) :
    (r.missing s).Pairwise fun m k ↦ m.offset + m.len < k.offset := by
  refine (pairwise_missing r s).imp_of_mem fun {m k} hm hk hmk ↦ ?_
  have hend := (bounds_of_mem_missing hm).2.2.2
  rw [hend] at hmk
  refine hmk.lt_of_ne fun heq ↦ ?_
  have hmax := maximal_of_mem_missing hr hm
  have hsame := hmax.eq_of_meet (maximal_of_mem_missing hr hk) (by omega) heq.ge
  have hpos := hmax.1.pos
  rw [← hsame] at heq
  omega

theorem total_eq_ncard (r : Ranges) : r.total = {x | r.Mem x}.ncard :=
  (IntervalList.ncard_mem r.separated).2.symm

/-! ## The union of what was added -/

section Adds

variable {adds : List Span}

theorem proper_empty : IntervalList.Proper empty.spans := fun _ h ↦ absurd h List.not_mem_nil

theorem add_proper {s : Span} (hr : IntervalList.Proper r.spans) (hs : s.offset + s.len ≤ u64Max) :
    IntervalList.Proper (r.add s).spans := by
  rw [add]
  split
  · rename_i h
    have hlen : s.len ≠ 0 := by simpa [Span.isEmpty] using h.1
    have hend : s.end' = s.offset + s.len := saturatingAdd_of_le hs
    exact IntervalList.proper_insert (by omega) hr
  · exact hr

theorem foldl_add (hr : IntervalList.Proper r.spans)
    (hadds : ∀ s ∈ adds, s.offset + s.len ≤ u64Max) :
    IntervalList.Proper (adds.foldl Ranges.add r).spans
      ∧ ∀ x, (adds.foldl Ranges.add r).Mem x ↔ InUnion adds x ∨ r.Mem x := by
  induction adds generalizing r with
  | nil =>
    refine ⟨hr, fun x ↦ (or_iff_right ?_).symm⟩
    rintro ⟨s, hs, -⟩
    exact absurd hs List.not_mem_nil
  | cons s adds ih =>
    obtain ⟨hs, hadds⟩ := List.forall_mem_cons.mp hadds
    obtain ⟨hproper, hmem⟩ := ih (add_proper hr hs) hadds
    refine ⟨hproper, fun x ↦ ?_⟩
    rw [List.foldl_cons, hmem, mem_add ((Nat.le_add_right _ _).trans hs), InUnion, InUnion,
      List.exists_mem_cons_iff]
    exact or_assoc.symm.trans (or_congr_left or_comm)

theorem addAll_proper (hadds : ∀ s ∈ adds, s.offset + s.len ≤ u64Max) :
    IntervalList.Proper (addAll adds).spans :=
  (foldl_add proper_empty hadds).1

/-- **What is stored is the union.** -/
theorem mem_addAll (hadds : ∀ s ∈ adds, s.offset + s.len ≤ u64Max) :
    (addAll adds).Mem = InUnion adds := by
  funext x
  rw [addAll, (foldl_add proper_empty hadds).2 x]
  exact propext (or_iff_left (not_mem_empty x))

/-- No byte is beyond the range of the type, so the count of them is not. -/
theorem total_le (hadds : ∀ s ∈ adds, s.offset + s.len ≤ u64Max) :
    (addAll adds).total ≤ u64Max := by
  have hsub : {x | (addAll adds).Mem x} ⊆ ↑(Finset.range u64Max) := by
    intro x hx
    rw [mem_addAll hadds] at hx
    obtain ⟨s, -, -, hlt⟩ := hx
    exact Finset.mem_coe.mpr (Finset.mem_range.mpr (hlt.trans_le (min_le_right _ _)))
  rw [total_eq_ncard]
  have hle := Set.ncard_le_ncard hsub (Finset.finite_toSet _)
  rwa [Set.ncard_coe_finset, Finset.card_range] at hle

end Adds

/-- **The set of ranges is the union of what was added.** It is stored in order, in ranges of which
no two touch and none is empty. A span that is empty, or begins below the end of the range of the
type, is covered if nothing of it is missing, and that if all of its bytes are in the union; what is
missing of any span is the row of its maximal parts outside of the union, in their order; and the
total is the number of bytes in the union, which does not overflow. -/
theorem addAll_algebra (adds : List Span) (hadds : ∀ s ∈ adds, s.offset + s.len ≤ u64Max) :
    (addAll adds).spans.Pairwise (fun p q ↦ p.2 < q.1)
      ∧ (∀ p ∈ (addAll adds).spans, p.1 < p.2)
      ∧ (∀ s : Span, s.len = 0 ∨ s.offset < u64Max →
          ((addAll adds).covers s = true ↔ (addAll adds).missing s = [])
            ∧ ((addAll adds).missing s = [] ↔ ∀ x, s.Mem x → InUnion adds x))
      ∧ (∀ s : Span, (∀ m, m ∈ (addAll adds).missing s ↔ Maximal (InUnion adds) s m)
          ∧ ((addAll adds).missing s).Pairwise fun m k ↦ m.offset + m.len < k.offset)
      ∧ (addAll adds).total = {x | InUnion adds x}.ncard ∧ (addAll adds).total ≤ u64Max := by
  have hproper := addAll_proper hadds
  have hmem := mem_addAll hadds
  refine ⟨(addAll adds).separated.apart, hproper, fun s hs ↦ ?_, fun s ↦ ⟨fun m ↦ ?_, ?_⟩, ?_,
    total_le hadds⟩
  · rw [covers_iff_forall_mem hs, missing_eq_nil_iff, hmem]
    exact ⟨Iff.rfl, Iff.rfl⟩
  · rw [mem_missing_iff hproper, hmem]
  · exact pairwise_missing_lt hproper s
  · rw [total_eq_ncard, hmem]

/-- Two spans that touch are one range, and what they leave of a third is its two ends. -/
theorem addAll_algebra_touching :
    (addAll [⟨4, 4⟩, ⟨8, 2⟩]).missing ⟨0, 20⟩ = [⟨0, 4⟩, ⟨10, 10⟩]
      ∧ (addAll [⟨4, 4⟩, ⟨8, 2⟩]).total = {x | InUnion [⟨4, 4⟩, ⟨8, 2⟩] x}.ncard :=
  ⟨by decide, (addAll_algebra [⟨4, 4⟩, ⟨8, 2⟩] (by decide)).2.2.2.2.1⟩

/-- Nothing is missing of a span that begins at the end of the range of the type, and it is not
covered. -/
theorem not_covered_at_end : ¬ ∀ (adds : List Span) (s : Span),
    s.offset ≤ u64Max → s.len ≤ u64Max → (∀ t ∈ adds, t.offset + t.len ≤ u64Max) →
      ((addAll adds).covers s = true ↔ (addAll adds).missing s = []) := by
  intro h
  have hend := h [] ⟨u64Max, 1⟩ le_rfl (by decide) (by decide)
  exact absurd (hend.mpr (by decide)) (by decide)

end HydrationAPI.Ranges
