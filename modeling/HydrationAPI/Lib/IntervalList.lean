import Mathlib.Order.Lattice
import Mathlib.Data.List.Basic
import Mathlib.Data.List.Pairwise
import Mathlib.Data.Set.Card
import Mathlib.Order.Interval.Finset.Nat
import Mathlib.Order.MinMax

/-!
# Sorted lists of half-open intervals

A finite union of half-open intervals `[s, e)` over a linear order, presented as a list of end
point pairs. In *separated* form the intervals stand in order and no two of them touch, so a span
is covered by the union exactly when one interval of the list contains it.

Three operations are developed: coalescing a list that is sorted by its starts, inserting one
interval into a separated list, and the gaps which a separated list leaves inside a given
interval. Each comes with its membership law; everything else about them follows from that law.
-/

namespace IntervalList

variable {α : Type*} [LinearOrder α]

/-- The point `x` lies in one of the intervals of `l`. -/
def Mem (x : α) (l : List (α × α)) : Prop := ∃ p ∈ l, p.1 ≤ x ∧ x < p.2

instance (x : α) (l : List (α × α)) : Decidable (Mem x l) :=
  inferInstanceAs (Decidable (∃ p ∈ l, _))

@[simp] theorem not_mem_nil (x : α) : ¬Mem x [] := by simp [Mem]

@[simp] theorem mem_cons {x : α} {p : α × α} {l : List (α × α)} :
    Mem x (p :: l) ↔ (p.1 ≤ x ∧ x < p.2) ∨ Mem x l := by simp [Mem]

@[simp] theorem mem_append {x : α} {l m : List (α × α)} :
    Mem x (l ++ m) ↔ Mem x l ∨ Mem x m := by
  simp only [Mem, List.mem_append]
  constructor
  · rintro ⟨p, hp | hp, hx⟩
    · exact Or.inl ⟨p, hp, hx⟩
    · exact Or.inr ⟨p, hp, hx⟩
  · rintro (⟨p, hp, hx⟩ | ⟨p, hp, hx⟩)
    · exact ⟨p, Or.inl hp, hx⟩
    · exact ⟨p, Or.inr hp, hx⟩

/-- In order, and no two touching. An interval may be empty. -/
structure Separated (l : List (α × α)) : Prop where
  /-- No interval ends before it starts. -/
  ordered : ∀ p ∈ l, p.1 ≤ p.2
  /-- Each interval ends strictly before the next one starts. -/
  apart : l.Pairwise fun p q ↦ p.2 < q.1

theorem separated_nil : Separated ([] : List (α × α)) := ⟨by simp, List.Pairwise.nil⟩

theorem separated_cons {p : α × α} {l : List (α × α)} :
    Separated (p :: l) ↔ p.1 ≤ p.2 ∧ (∀ q ∈ l, p.2 < q.1) ∧ Separated l := by
  constructor
  · rintro ⟨ho, ha⟩
    rw [List.pairwise_cons] at ha
    exact ⟨ho p List.mem_cons_self, ha.1, fun q hq ↦ ho q (List.mem_cons_of_mem _ hq), ha.2⟩
  · rintro ⟨hp, hq, ho, ha⟩
    refine ⟨?_, List.pairwise_cons.mpr ⟨hq, ha⟩⟩
    intro q hq'
    rcases List.mem_cons.mp hq' with rfl | h
    · exact hp
    · exact ho q h

/-- A separated list is sorted by its starts. -/
theorem Separated.starts {l : List (α × α)} (h : Separated l) :
    l.Pairwise fun p q ↦ p.1 ≤ q.1 := by
  refine h.apart.imp_of_mem ?_
  intro p q hp _ hpq
  exact (h.ordered p hp).trans hpq.le

/-! ## Coalescing -/

/-- Absorb the intervals that start no later than the pending one ends; the first that starts
later becomes pending in its turn. -/
def coalesceFrom (s e : α) : List (α × α) → List (α × α)
  | [] => [(s, e)]
  | (s', e') :: rest =>
    if s' ≤ e then coalesceFrom s (max e e') rest else (s, e) :: coalesceFrom s' e' rest

/-- One merging pass over a list sorted by its starts. -/
def coalesce : List (α × α) → List (α × α)
  | [] => []
  | (s, e) :: rest => coalesceFrom s e rest

theorem le_start_of_mem_coalesceFrom {l : List (α × α)} :
    ∀ {s e : α}, (∀ p ∈ l, s ≤ p.1) → l.Pairwise (fun p q ↦ p.1 ≤ q.1) →
      ∀ p ∈ coalesceFrom s e l, s ≤ p.1 := by
  induction l with
  | nil => intro s e _ _ p hp; simp [coalesceFrom] at hp; rw [hp]
  | cons q l ih =>
    intro s e hs hl p hp
    rw [List.pairwise_cons] at hl
    rw [coalesceFrom] at hp
    split at hp
    · exact ih (fun r hr ↦ hs r (List.mem_cons_of_mem _ hr)) hl.2 p hp
    · rcases List.mem_cons.mp hp with rfl | hp
      · exact le_rfl
      · exact (hs q List.mem_cons_self).trans (ih hl.1 hl.2 p hp)

theorem separated_coalesceFrom {l : List (α × α)} :
    ∀ {s e : α}, s ≤ e → (∀ p ∈ l, p.1 ≤ p.2) → (∀ p ∈ l, s ≤ p.1) →
      l.Pairwise (fun p q ↦ p.1 ≤ q.1) → Separated (coalesceFrom s e l) := by
  induction l with
  | nil => intro s e hse _ _ _; rw [coalesceFrom, separated_cons]; simp [hse, separated_nil]
  | cons q l ih =>
    intro s e hse ho hs hl
    have ho' : ∀ p ∈ l, p.1 ≤ p.2 := fun p hp ↦ ho p (List.mem_cons_of_mem _ hp)
    have hq : q.1 ≤ q.2 := ho q List.mem_cons_self
    rw [List.pairwise_cons] at hl
    rw [coalesceFrom]
    split
    · exact ih (hse.trans (le_max_left _ _)) ho' (fun p hp ↦ hs p (List.mem_cons_of_mem _ hp)) hl.2
    · rename_i hgap
      refine separated_cons.mpr ⟨hse, ?_, ih hq ho' hl.1 hl.2⟩
      intro p hp
      exact (not_le.mp hgap).trans_le (le_start_of_mem_coalesceFrom hl.1 hl.2 p hp)

theorem mem_coalesceFrom {x : α} {l : List (α × α)} :
    ∀ {s e : α}, (∀ p ∈ l, s ≤ p.1) → l.Pairwise (fun p q ↦ p.1 ≤ q.1) →
      (Mem x (coalesceFrom s e l) ↔ (s ≤ x ∧ x < e) ∨ Mem x l) := by
  induction l with
  | nil => intro s e _ _; simp [coalesceFrom]
  | cons q l ih =>
    intro s e hs hl
    rw [List.pairwise_cons] at hl
    rw [coalesceFrom]
    split
    · rename_i htouch
      rw [ih (fun p hp ↦ hs p (List.mem_cons_of_mem _ hp)) hl.2, mem_cons]
      have hsq : s ≤ q.1 := hs q List.mem_cons_self
      constructor
      · rintro (⟨h1, h2⟩ | h)
        · rcases lt_or_ge x e with hxe | hxe
          · exact Or.inl ⟨h1, hxe⟩
          · rcases lt_max_iff.mp h2 with h | h
            · exact absurd h (not_lt.mpr hxe)
            · exact Or.inr (Or.inl ⟨htouch.trans hxe, h⟩)
        · exact Or.inr (Or.inr h)
      · rintro (⟨h1, h2⟩ | ⟨h1, h2⟩ | h)
        · exact Or.inl ⟨h1, h2.trans_le (le_max_left _ _)⟩
        · exact Or.inl ⟨hsq.trans h1, h2.trans_le (le_max_right _ _)⟩
        · exact Or.inr h
    · rw [mem_cons, ih hl.1 hl.2, mem_cons]

/-! ## Inserting one interval -/

/-- Put `(s, e)` in front of the first interval that does not start before it, then merge. -/
def insert (s e : α) (l : List (α × α)) : List (α × α) :=
  coalesce (l.takeWhile (fun p ↦ decide (p.1 < s)) ++
    (s, e) :: l.dropWhile (fun p ↦ decide (p.1 < s)))

theorem start_lt_of_mem_takeWhile {s : α} {l : List (α × α)} {p : α × α}
    (h : p ∈ l.takeWhile (fun p ↦ decide (p.1 < s))) : p.1 < s := by
  induction l with
  | nil => simp at h
  | cons q l ih =>
    rw [List.takeWhile_cons] at h
    split at h
    · rename_i hq
      rcases List.mem_cons.mp h with rfl | h
      · simpa using hq
      · exact ih h
    · simp at h

theorem le_start_of_mem_dropWhile {s : α} {l : List (α × α)}
    (hl : l.Pairwise fun p q ↦ p.1 ≤ q.1) {p : α × α}
    (h : p ∈ l.dropWhile (fun p ↦ decide (p.1 < s))) : s ≤ p.1 := by
  induction l with
  | nil => simp at h
  | cons q l ih =>
    rw [List.pairwise_cons] at hl
    rw [List.dropWhile_cons] at h
    split at h
    · exact ih hl.2 h
    · rename_i hq
      have hsq : s ≤ q.1 := by simpa using hq
      rcases List.mem_cons.mp h with rfl | h
      · exact hsq
      · exact hsq.trans (hl.1 p h)

private theorem starts_insertAt {s e : α} {l : List (α × α)}
    (hl : l.Pairwise fun p q ↦ p.1 ≤ q.1) :
    (l.takeWhile (fun p ↦ decide (p.1 < s)) ++
      (s, e) :: l.dropWhile (fun p ↦ decide (p.1 < s))).Pairwise fun p q ↦ p.1 ≤ q.1 := by
  refine List.pairwise_append.mpr ⟨hl.sublist (List.takeWhile_sublist _), ?_, ?_⟩
  · refine List.pairwise_cons.mpr ⟨?_, hl.sublist (List.dropWhile_sublist _)⟩
    intro p hp
    exact le_start_of_mem_dropWhile hl hp
  · intro p hp q hq
    have hps : p.1 ≤ s := (start_lt_of_mem_takeWhile hp).le
    rcases List.mem_cons.mp hq with rfl | hq
    · exact hps
    · exact hps.trans (le_start_of_mem_dropWhile hl hq)

private theorem mem_insertAt {x s e : α} {l : List (α × α)} :
    Mem x (l.takeWhile (fun p ↦ decide (p.1 < s)) ++
        (s, e) :: l.dropWhile (fun p ↦ decide (p.1 < s)))
      ↔ (s ≤ x ∧ x < e) ∨ Mem x l := by
  have hsplit : Mem x l ↔ Mem x (l.takeWhile fun p ↦ decide (p.1 < s))
      ∨ Mem x (l.dropWhile fun p ↦ decide (p.1 < s)) := by
    rw [← mem_append, List.takeWhile_append_dropWhile]
  rw [mem_append, mem_cons, hsplit]
  tauto

theorem mem_coalesce {x : α} {l : List (α × α)} (hl : l.Pairwise fun p q ↦ p.1 ≤ q.1) :
    Mem x (coalesce l) ↔ Mem x l := by
  cases l with
  | nil => rfl
  | cons p l =>
    rw [List.pairwise_cons] at hl
    rw [coalesce, mem_coalesceFrom hl.1 hl.2, mem_cons]

theorem separated_coalesce {l : List (α × α)} (ho : ∀ p ∈ l, p.1 ≤ p.2)
    (hl : l.Pairwise fun p q ↦ p.1 ≤ q.1) : Separated (coalesce l) := by
  cases l with
  | nil => exact separated_nil
  | cons p l =>
    rw [List.pairwise_cons] at hl
    exact separated_coalesceFrom (ho p List.mem_cons_self)
      (fun q hq ↦ ho q (List.mem_cons_of_mem _ hq)) hl.1 hl.2

/-- **Insertion adds exactly the points of the new interval.** -/
theorem mem_insert {x s e : α} {l : List (α × α)} (h : Separated l) :
    Mem x (insert s e l) ↔ (s ≤ x ∧ x < e) ∨ Mem x l := by
  rw [insert, mem_coalesce (starts_insertAt h.starts), mem_insertAt]

theorem separated_insert {s e : α} {l : List (α × α)} (hse : s ≤ e) (h : Separated l) :
    Separated (insert s e l) := by
  refine separated_coalesce ?_ (starts_insertAt h.starts)
  intro p hp
  rcases List.mem_append.mp hp with hp | hp
  · exact h.ordered p ((List.takeWhile_sublist _).subset hp)
  · rcases List.mem_cons.mp hp with rfl | hp
    · exact hse
    · exact h.ordered p ((List.dropWhile_sublist _).subset hp)

/-! ## Coverage -/

/-- An interval with a point in it lies inside the union of a separated list exactly when one
interval of the list contains it: where two neighbours leave a gap, the gap has a point. -/
theorem exists_cover_of_forall_mem {s e : α} {l : List (α × α)} (h : Separated l) (hse : s < e)
    (hmem : ∀ x, s ≤ x → x < e → Mem x l) : ∃ p ∈ l, p.1 ≤ s ∧ e ≤ p.2 := by
  obtain ⟨p, hp, hps, hsp⟩ := hmem s le_rfl hse
  refine ⟨p, hp, hps, ?_⟩
  by_contra hlt
  rw [not_le] at hlt
  obtain ⟨q, hq, hqp, hpq⟩ := hmem p.2 hsp.le hlt
  -- the interval that holds the end of `p` is another one, and neighbours do not touch
  have hne : p ≠ q := fun heq ↦ absurd (heq ▸ hpq) (lt_irrefl _)
  have hsides : l.Pairwise fun a b ↦ a.2 < b.1 ∨ b.2 < a.1 := h.apart.imp Or.inl
  have : Std.Symm fun a b : α × α ↦ a.2 < b.1 ∨ b.2 < a.1 := ⟨fun _ _ ↦ Or.symm⟩
  rcases hsides.forall hp hq hne with hlt' | hlt'
  · exact absurd hqp (not_le.mpr hlt')
  · exact absurd (hpq.trans (hlt'.trans_le (h.ordered p hp))) (lt_irrefl _)

/-! ## Gaps -/

/-- The parts of `[at, stop)` outside a separated list, in order. -/
def gaps (at' stop : α) : List (α × α) → List (α × α)
  | [] => if at' < stop then [(at', stop)] else []
  | (s, e) :: rest =>
    if e ≤ at' then gaps at' stop rest
    else if stop ≤ s then if at' < stop then [(at', stop)] else []
    else (if at' < s then [(at', s)] else []) ++
      if stop ≤ max at' e then [] else gaps (max at' e) stop rest

/-- **The gaps are what the list leaves out.** -/
theorem mem_gaps {x stop : α} {l : List (α × α)} (h : Separated l) :
    ∀ {at' : α}, Mem x (gaps at' stop l) ↔ at' ≤ x ∧ x < stop ∧ ¬Mem x l := by
  induction l with
  | nil =>
    intro at'
    rw [gaps]
    split
    · simp
    · rename_i hle
      simp only [not_mem_nil, false_iff, not_and, not_not]
      exact fun h1 h2 ↦ absurd (h1.trans_lt h2) hle
  | cons p l ih =>
    intro at'
    obtain ⟨hp, hgap, hl⟩ := separated_cons.mp h
    -- past the end of `p` nothing but the rest of the list can hold a point
    have hafter : ∀ {y}, y < p.2 → ¬Mem y l := by
      rintro y hy ⟨q, hq, hqy, -⟩
      exact absurd (hqy.trans_lt hy) (not_lt.mpr (hgap q hq).le)
    have hnone : ∀ {y}, y < p.1 → ¬Mem y (p :: l) := by
      intro y hy hm
      rcases mem_cons.mp hm with ⟨h1, -⟩ | h1
      · exact absurd h1 (not_le.mpr hy)
      · exact hafter (hy.trans_le hp) h1
    rw [gaps]
    split
    · rename_i hpast
      rw [ih hl, mem_cons]
      constructor
      · rintro ⟨h1, h2, h3⟩
        exact ⟨h1, h2, fun hm ↦ hm.elim (fun hm ↦ absurd (hpast.trans h1) (not_le.mpr hm.2)) h3⟩
      · rintro ⟨h1, h2, h3⟩
        exact ⟨h1, h2, fun hm ↦ h3 (Or.inr hm)⟩
    · rename_i hpe
      rw [not_le] at hpe
      split
      · rename_i hstop
        split
        · simp only [mem_cons, not_mem_nil, or_false]
          constructor
          · rintro ⟨h1, h2⟩
            exact ⟨h1, h2, by simpa using hnone (h2.trans_le hstop)⟩
          · rintro ⟨h1, h2, -⟩
            exact ⟨h1, h2⟩
        · rename_i hle
          simp only [not_mem_nil, false_iff, not_and]
          exact fun h1 h2 ↦ absurd (h1.trans_lt h2) hle
      · rename_i hstart
        rw [not_le] at hstart
        have hhead : Mem x (if at' < p.1 then [(at', p.1)] else []) ↔ at' ≤ x ∧ x < p.1 := by
          split
          · simp
          · rename_i hle
            simp only [not_mem_nil, false_iff, not_and]
            exact fun h1 h2 ↦ absurd (h1.trans_lt h2) hle
        have htail : Mem x (if stop ≤ max at' p.2 then [] else gaps (max at' p.2) stop l)
            ↔ p.2 ≤ x ∧ x < stop ∧ ¬Mem x l := by
          rw [max_eq_right hpe.le]
          split
          · rename_i hle
            simp only [not_mem_nil, false_iff, not_and]
            exact fun h1 h2 ↦ absurd (hle.trans h1) (not_le.mpr h2)
          · rw [ih hl]
        rw [mem_append, hhead, htail, mem_cons]
        constructor
        · rintro (⟨h1, h2⟩ | ⟨h1, h2, h3⟩)
          · exact ⟨h1, h2.trans hstart, by simpa using hnone h2⟩
          · exact ⟨hpe.le.trans h1, h2,
              fun hm ↦ hm.elim (fun hm ↦ absurd h1 (not_le.mpr hm.2)) h3⟩
        · rintro ⟨h1, h2, h3⟩
          rcases lt_or_ge x p.2 with hx | hx
          · exact Or.inl ⟨h1, not_le.mp fun hpx ↦ h3 (Or.inl ⟨hpx, hx⟩)⟩
          · exact Or.inr ⟨hx, h2, fun hm ↦ h3 (Or.inr hm)⟩

/-- Every gap has a point, and lies inside the interval asked about. -/
theorem bounds_of_mem_gaps {stop : α} {l : List (α × α)} :
    ∀ {at' : α}, ∀ p ∈ gaps at' stop l, at' ≤ p.1 ∧ p.1 < p.2 ∧ p.2 ≤ stop := by
  induction l with
  | nil => intro at' p hp; rw [gaps] at hp; split at hp <;> simp_all
  | cons q l ih =>
    intro at' p hp
    rw [gaps] at hp
    split at hp
    · exact ih p hp
    · split at hp
      · split at hp <;> simp_all
      · rename_i hstart
        rcases List.mem_append.mp hp with hp | hp
        · split at hp <;> simp_all
          exact hstart.le
        · split at hp
          · simp at hp
          · obtain ⟨h1, h2, h3⟩ := ih p hp
            exact ⟨(le_max_left _ _).trans h1, h2, h3⟩

/-- The gaps stand in order and do not overlap. -/
theorem pairwise_gaps {stop : α} {l : List (α × α)} (h : Separated l) :
    ∀ {at' : α}, (gaps at' stop l).Pairwise fun p q ↦ p.2 ≤ q.1 := by
  induction l with
  | nil => intro at'; rw [gaps]; split <;> simp
  | cons q l ih =>
    intro at'
    obtain ⟨hq, -, hl⟩ := separated_cons.mp h
    rw [gaps]
    split
    · exact ih hl
    · split
      · split <;> simp
      · refine List.pairwise_append.mpr ⟨by split <;> simp, by split <;> simp [ih hl], ?_⟩
        intro p hp r hr
        split at hp
        · rw [List.mem_singleton] at hp
          split at hr
          · simp at hr
          · rw [hp]
            exact hq.trans ((le_max_right _ _).trans (bounds_of_mem_gaps r hr).1)
        · simp at hp

/-- **A gap ends where the list takes over**, or with the interval asked about; and so on its other
side. -/
theorem ends_of_mem_gaps {stop : α} {l : List (α × α)} :
    ∀ {at' : α}, ∀ p ∈ gaps at' stop l, (p.1 = at' ∨ ∃ q ∈ l, q.2 = p.1)
      ∧ (p.2 = stop ∨ ∃ q ∈ l, q.1 = p.2) := by
  induction l with
  | nil =>
    intro at' p hp
    rw [gaps] at hp
    split at hp
    · obtain rfl := List.mem_singleton.mp hp
      exact ⟨Or.inl rfl, Or.inl rfl⟩
    · exact absurd hp List.not_mem_nil
  | cons q l ih =>
    intro at' p hp
    have hcons : ∀ {start : α}, p ∈ gaps start stop l → (p.1 = start ∨ ∃ r ∈ q :: l, r.2 = p.1)
        ∧ (p.2 = stop ∨ ∃ r ∈ q :: l, r.1 = p.2) := by
      intro start hp
      obtain ⟨h1, h2⟩ := ih p hp
      exact ⟨h1.imp_right fun ⟨r, hr, h⟩ ↦ ⟨r, List.mem_cons_of_mem _ hr, h⟩,
        h2.imp_right fun ⟨r, hr, h⟩ ↦ ⟨r, List.mem_cons_of_mem _ hr, h⟩⟩
    rw [gaps] at hp
    split at hp
    · exact hcons hp
    · rename_i hpast
      split at hp
      · split at hp
        · obtain rfl := List.mem_singleton.mp hp
          exact ⟨Or.inl rfl, Or.inl rfl⟩
        · exact absurd hp List.not_mem_nil
      · rcases List.mem_append.mp hp with hp | hp
        · split at hp
          · obtain rfl := List.mem_singleton.mp hp
            exact ⟨Or.inl rfl, Or.inr ⟨q, List.mem_cons_self, rfl⟩⟩
          · exact absurd hp List.not_mem_nil
        · split at hp
          · exact absurd hp List.not_mem_nil
          · rw [max_eq_right (not_le.mp hpast).le] at hp
            obtain ⟨h1, h2⟩ := hcons hp
            refine ⟨Or.inr ?_, h2⟩
            exact h1.elim (fun h ↦ ⟨q, List.mem_cons_self, h.symm⟩) id

/-! ## Intervals with points -/

def Proper (l : List (α × α)) : Prop := ∀ p ∈ l, p.1 < p.2

theorem proper_coalesceFrom {l : List (α × α)} (hl : Proper l) :
    ∀ {s e : α}, s < e → Proper (coalesceFrom s e l) := by
  induction l with
  | nil =>
    intro s e hse
    exact List.forall_mem_singleton.mpr hse
  | cons q l ih =>
    intro s e hse
    obtain ⟨hq, hl⟩ := List.forall_mem_cons.mp hl
    rw [coalesceFrom]
    split
    · exact ih hl (hse.trans_le (le_max_left _ _))
    · exact List.forall_mem_cons.mpr ⟨hse, ih hl hq⟩

theorem proper_insert {s e : α} {l : List (α × α)} (hse : s < e) (hl : Proper l) :
    Proper (insert s e l) := by
  have hall : Proper (l.takeWhile (fun p ↦ decide (p.1 < s)) ++
      (s, e) :: l.dropWhile (fun p ↦ decide (p.1 < s))) := by
    refine List.forall_mem_append.mpr ⟨?_, List.forall_mem_cons.mpr ⟨hse, ?_⟩⟩
    · exact fun p hp ↦ hl p ((List.takeWhile_sublist _).subset hp)
    · exact fun p hp ↦ hl p ((List.dropWhile_sublist _).subset hp)
  rw [insert]
  cases hlist : l.takeWhile (fun p ↦ decide (p.1 < s)) ++
      (s, e) :: l.dropWhile (fun p ↦ decide (p.1 < s)) with
  | nil => exact fun p hp ↦ absurd hp List.not_mem_nil
  | cons q rest =>
    rw [hlist] at hall
    obtain ⟨hq, hrest⟩ := List.forall_mem_cons.mp hall
    exact proper_coalesceFrom hrest hq

/-- **The lengths of separated intervals add up to the number of points in them.** -/
theorem ncard_mem {l : List (ℕ × ℕ)} (h : Separated l) :
    {x | Mem x l}.Finite ∧ {x | Mem x l}.ncard = (l.map fun p ↦ p.2 - p.1).sum := by
  induction l with
  | nil =>
    have hnone : {x : ℕ | Mem x []} = ∅ := Set.eq_empty_of_forall_notMem fun x ↦ not_mem_nil x
    rw [hnone]
    exact ⟨Set.finite_empty, Set.ncard_empty ℕ⟩
  | cons p l ih =>
    obtain ⟨-, hgap, hl⟩ := separated_cons.mp h
    obtain ⟨hfin, hcard⟩ := ih hl
    have hsplit : {x | Mem x (p :: l)} = Set.Ico p.1 p.2 ∪ {x | Mem x l} := by
      ext x
      exact mem_cons
    have hdisjoint : Disjoint (Set.Ico p.1 p.2) {x | Mem x l} := by
      refine Set.disjoint_left.mpr ?_
      rintro x ⟨-, hx⟩ ⟨q, hq, hqx, -⟩
      exact absurd (hx.trans ((hgap q hq).trans_le hqx)) (lt_irrefl x)
    have hIco : (Set.Ico p.1 p.2).ncard = p.2 - p.1 := by
      rw [Set.ncard_eq_toFinset_card', Set.toFinset_Ico, Nat.card_Ico]
    rw [hsplit, Set.ncard_union_eq hdisjoint (Set.finite_Ico _ _) hfin, hIco, hcard]
    exact ⟨(Set.finite_Ico _ _).union hfin, rfl⟩

end IntervalList
