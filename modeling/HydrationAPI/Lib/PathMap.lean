import Mathlib.Data.List.Infix

/-!
# Maps from paths

What is at the paths of a directory, as a list of paths with what is at each. A whole directory can
be moved: what is at the paths below one path is then at those below another.
-/

/-- What is at each path. Of several entries of one path the first counts. -/
structure PathMap (α β : Type*) where
  entries : List (List α × β)

namespace PathMap

variable {α β : Type*} [DecidableEq α] {m : PathMap α β} {a p q r src dst : List α} {v : β}

/-- What is left of a path below `a`. -/
def below : List α → List α → Option (List α)
  | [], p => some p
  | _ :: _, [] => none
  | a :: as, b :: p => if a = b then below as p else none

theorem below_eq_some : below a p = some r ↔ p = a ++ r := by
  induction a generalizing p with
  | nil => exact ⟨fun h ↦ Option.some_inj.mp h, fun h ↦ congrArg some h⟩
  | cons x a ih =>
    match p with
    | [] => simp [below]
    | y :: p =>
      rw [below, List.cons_append, List.cons.injEq]
      split
      · rename_i heq
        exact ih.trans (by rw [heq]; simp)
      · rename_i hne
        exact ⟨fun h ↦ absurd h.symm (Option.some_ne_none r), fun h ↦ absurd h.1.symm hne⟩

@[simp] theorem below_append (a r : List α) : below a (a ++ r) = some r := below_eq_some.mpr rfl

theorem below_eq_none : below a p = none ↔ ¬ a <+: p := by
  rw [Option.eq_none_iff_forall_ne_some]
  constructor
  · rintro h ⟨r, rfl⟩
    exact h r (below_append a r)
  · rintro h r hr
    exact h ⟨r, (below_eq_some.mp hr).symm⟩

/-! ## Operations -/

def get (m : PathMap α β) (p : List α) : Option β := m.entries.lookup p

/-- The paths something is at. -/
def paths (m : PathMap α β) : List (List α) := m.entries.map Prod.fst

def set (m : PathMap α β) (p : List α) (v : β) : PathMap α β := ⟨(p, v) :: m.entries⟩

def erase (m : PathMap α β) (p : List α) : PathMap α β := ⟨m.entries.filter (·.1 ≠ p)⟩

/-- Whether something is directly below a path. -/
def hasChild (m : PathMap α β) (p : List α) : Bool :=
  m.entries.any fun e ↦ match below p e.1 with
    | some [_] => true
    | _ => false

/-- Where an entry is after a move. -/
def relocate (src dst : List α) (e : List α × β) : Option (List α × β) :=
  match below src e.1 with
  | some r => some (dst ++ r, e.2)
  | none => if dst <+: e.1 then none else some e

/-- Move what is at and below `src` to `dst`, in the place of what is there. -/
def move (m : PathMap α β) (src dst : List α) : PathMap α β :=
  ⟨m.entries.filterMap (relocate src dst)⟩

/-- Take away what is at and below a path. -/
def prune (m : PathMap α β) (a : List α) : PathMap α β := ⟨m.entries.filter fun e ↦ ¬ a <+: e.1⟩

/-! ## What is at a path then -/

theorem get_cons {es : List (List α × β)} {e : List α × β} :
    get ⟨e :: es⟩ p = if p = e.1 then some e.2 else get ⟨es⟩ p := by
  rw [get, List.lookup_cons, get]
  by_cases h : p = e.1
  · rw [if_pos h, beq_iff_eq.mpr h]
  · rw [if_neg h, beq_eq_false_iff_ne.mpr h]

@[simp] theorem get_nil : get (⟨[]⟩ : PathMap α β) p = none := rfl

theorem mem_paths : p ∈ m.paths ↔ ∃ v, m.get p = some v := by
  obtain ⟨es⟩ := m
  rw [paths]
  induction es with
  | nil => simp
  | cons e es ih =>
    rw [List.map_cons, List.mem_cons, get_cons]
    split
    · rename_i heq
      exact ⟨fun _ ↦ ⟨e.2, rfl⟩, fun _ ↦ Or.inl heq⟩
    · rename_i hne
      exact ⟨fun h ↦ ih.mp (h.resolve_left hne), fun h ↦ Or.inr (ih.mpr h)⟩

theorem mem_of_get (h : m.get p = some v) : (p, v) ∈ m.entries := by
  obtain ⟨es⟩ := m
  induction es with
  | nil => cases h
  | cons e es ih =>
    rw [get_cons] at h
    split at h
    · rename_i hp
      cases h
      exact hp ▸ List.mem_cons_self
    · exact List.mem_cons_of_mem e (ih h)

/-- If no path has two entries, what is at a path is its entry. -/
theorem get_eq_some_iff_mem (h : m.paths.Nodup) : m.get p = some v ↔ (p, v) ∈ m.entries := by
  refine ⟨mem_of_get, fun hmem ↦ ?_⟩
  obtain ⟨es⟩ := m
  induction es with
  | nil => cases hmem
  | cons e es ih =>
    obtain ⟨hnew, hrest⟩ := List.nodup_cons.mp h
    rw [get_cons]
    rcases List.mem_cons.mp hmem with rfl | hmem
    · exact if_pos rfl
    · have hne : p ≠ e.1 := fun heq ↦ hnew (heq ▸ List.mem_map.mpr ⟨(p, v), hmem, rfl⟩)
      rw [if_neg hne]
      exact ih hrest hmem

theorem get_append {es es' : List (List α × β)} :
    get (⟨es ++ es'⟩ : PathMap α β) p = (get ⟨es⟩ p).or (get ⟨es'⟩ p) := List.lookup_append

theorem get_set : (m.set p v).get q = if q = p then some v else m.get q := get_cons

@[simp] theorem get_set_self : (m.set p v).get p = some v := get_set.trans (if_pos rfl)

theorem get_set_of_ne (h : q ≠ p) : (m.set p v).get q = m.get q := get_set.trans (if_neg h)

theorem get_erase : (m.erase p).get q = if q = p then none else m.get q := by
  obtain ⟨es⟩ := m
  rw [erase]
  induction es with
  | nil => exact (ite_self none).symm
  | cons e es ih =>
    rw [List.filter_cons]
    refine Eq.trans ?_ (congrArg (fun o ↦ if q = p then none else o) get_cons.symm)
    by_cases he : e.1 = p
    · rw [if_neg (by simpa using he), ih, he]
      split <;> rfl
    · rw [if_pos (by simpa using he), get_cons, ih]
      by_cases hq : q = e.1
      · rw [if_pos hq, if_pos hq, if_neg fun h ↦ he (hq.symm.trans h)]
      · rw [if_neg hq, if_neg hq]

theorem get_prune : (m.prune a).get q = if a <+: q then none else m.get q := by
  obtain ⟨es⟩ := m
  rw [prune]
  induction es with
  | nil => exact (ite_self none).symm
  | cons e es ih =>
    rw [List.filter_cons]
    refine Eq.trans ?_ (congrArg (fun o ↦ if a <+: q then none else o) get_cons.symm)
    by_cases he : a <+: e.1
    · rw [if_neg (by simpa using he), ih]
      by_cases hq : q = e.1
      · rw [if_pos (hq ▸ he), if_pos (hq ▸ he)]
      · rw [if_neg hq]
    · rw [if_pos (by simpa using he), get_cons, ih]
      by_cases hq : q = e.1
      · rw [if_pos hq, if_pos hq, if_neg (hq ▸ he)]
      · rw [if_neg hq, if_neg hq]

/-- **A move takes along what is below**: at a path below the new place is what was at the one below
the old, and below the old place nothing is left. -/
theorem get_move : (m.move src dst).get q = match below dst q with
    | some r => m.get (src ++ r)
    | none => if src <+: q then none else m.get q := by
  obtain ⟨es⟩ := m
  rw [move]
  induction es with
  | nil => cases below dst q <;> simp
  | cons e es ih =>
    rw [List.filterMap_cons, relocate]
    obtain hsrc | ⟨r, hsrc⟩ := (below src e.1).eq_none_or_eq_some
    · rw [hsrc]
      have hnot := below_eq_none.mp hsrc
      by_cases hdst : dst <+: e.1
      · rw [if_pos hdst]
        refine ih.trans ?_
        obtain hq | ⟨s, hq⟩ := (below dst q).eq_none_or_eq_some
        · have hne : q ≠ e.1 := fun h ↦ below_eq_none.mp hq (h ▸ hdst)
          rw [hq]
          dsimp only
          rw [get_cons, if_neg hne]
        · have hne : src ++ s ≠ e.1 := fun h ↦ hnot ⟨s, h⟩
          rw [hq]
          dsimp only
          rw [get_cons, if_neg hne]
      · rw [if_neg hdst]
        refine get_cons.trans ?_
        rw [ih]
        obtain hq | ⟨s, hq⟩ := (below dst q).eq_none_or_eq_some
        · rw [hq]
          dsimp only
          rw [get_cons]
          by_cases hqe : q = e.1
          · rw [if_pos hqe, if_pos hqe, if_neg fun h ↦ hnot (hqe ▸ h)]
          · rw [if_neg hqe, if_neg hqe]
        · have hne : src ++ s ≠ e.1 := fun h ↦ hnot ⟨s, h⟩
          have hqe : q ≠ e.1 := fun h ↦ hdst (h ▸ ⟨s, (below_eq_some.mp hq).symm⟩)
          rw [hq, if_neg hqe]
          dsimp only
          rw [get_cons, if_neg hne]
    · rw [hsrc]
      have he := below_eq_some.mp hsrc
      refine get_cons.trans ?_
      rw [ih]
      obtain hq | ⟨s, hq⟩ := (below dst q).eq_none_or_eq_some
      · have hne : q ≠ dst ++ r := fun h ↦ below_eq_none.mp hq ⟨r, h.symm⟩
        rw [hq, if_neg hne]
        dsimp only
        rw [get_cons]
        by_cases hqe : q = e.1
        · rw [if_pos hqe, if_pos ⟨r, (hqe.trans he).symm⟩, if_pos ⟨r, (hqe.trans he).symm⟩]
        · rw [if_neg hqe]
      · rw [hq]
        dsimp only
        rw [get_cons, below_eq_some.mp hq, he]
        by_cases hsr : s = r
        · rw [if_pos (congrArg (dst ++ ·) hsr), if_pos (congrArg (src ++ ·) hsr)]
        · rw [if_neg fun h ↦ hsr (List.append_cancel_left h),
            if_neg fun h ↦ hsr (List.append_cancel_left h)]

/-- Something with the property is at the path. -/
def Holds (m : PathMap α β) (P : β → Prop) (p : List α) : Prop := ∃ v, m.get p = some v ∧ P v

theorem holds_set {P : β → Prop} : (m.set p v).Holds P q ↔ q = p ∧ P v ∨ q ≠ p ∧ m.Holds P q := by
  rw [Holds, get_set]
  by_cases hq : q = p
  · simp [hq]
  · simp [hq, Holds]

theorem holds_erase {P : β → Prop} : (m.erase p).Holds P q ↔ q ≠ p ∧ m.Holds P q := by
  rw [Holds, get_erase]
  by_cases hq : q = p
  · simp [hq]
  · simp [hq, Holds]

theorem holds_prune {P : β → Prop} : (m.prune a).Holds P q ↔ ¬ a <+: q ∧ m.Holds P q := by
  rw [Holds, get_prune]
  by_cases hq : a <+: q
  · simp [hq]
  · simp [hq, Holds]

theorem holds_move {P : β → Prop} : (m.move src dst).Holds P q
    ↔ (∃ r, q = dst ++ r ∧ m.Holds P (src ++ r)) ∨ ¬ dst <+: q ∧ ¬ src <+: q ∧ m.Holds P q := by
  rw [Holds, get_move]
  obtain hq | ⟨r, hq⟩ := (below dst q).eq_none_or_eq_some
  · have hdst := below_eq_none.mp hq
    have hnot : ¬ ∃ r, q = dst ++ r ∧ m.Holds P (src ++ r) := fun ⟨r, hr, _⟩ ↦ hdst ⟨r, hr.symm⟩
    rw [hq]
    dsimp only
    by_cases hsrc : src <+: q
    · rw [if_pos hsrc]
      exact ⟨fun ⟨_, h, _⟩ ↦ absurd h.symm (Option.some_ne_none _),
        fun h ↦ absurd hsrc (h.resolve_left hnot).2.1⟩
    · rw [if_neg hsrc]
      exact ⟨fun h ↦ Or.inr ⟨hdst, hsrc, h⟩, fun h ↦ (h.resolve_left hnot).2.2⟩
  · have heq := below_eq_some.mp hq
    subst heq
    rw [hq]
    dsimp only
    constructor
    · intro h
      exact Or.inl ⟨r, rfl, h⟩
    · rintro (⟨t, ht, h⟩ | ⟨hdst, -⟩)
      · rwa [← List.append_cancel_left ht] at h
      · exact absurd (List.prefix_append dst r) hdst

/-- Something with the property is at one path at most. -/
def Unique (m : PathMap α β) (P : β → Prop) : Prop := ∀ p q, m.Holds P p → m.Holds P q → p = q

theorem unique_congr {P : β → Prop} {m' : PathMap α β} (h : ∀ p, m'.Holds P p ↔ m.Holds P p) :
    m'.Unique P ↔ m.Unique P := by
  simp only [Unique, h]

theorem Unique.erase {P : β → Prop} (h : m.Unique P) : (m.erase a).Unique P :=
  fun p q hp hq ↦ h p q (holds_erase.mp hp).2 (holds_erase.mp hq).2

/-- What is put does not have the property, or nothing else has it. -/
theorem Unique.set {P : β → Prop} (h : m.Unique P) (hv : P v → ∀ p, m.Holds P p → p = a) :
    (m.set a v).Unique P := by
  intro p q hp hq
  rcases holds_set.mp hp with ⟨rfl, hPv⟩ | ⟨-, hp'⟩
  · rcases holds_set.mp hq with ⟨rfl, -⟩ | ⟨-, hq'⟩
    · rfl
    · exact (hv hPv q hq').symm
  · rcases holds_set.mp hq with ⟨rfl, hPv⟩ | ⟨-, hq'⟩
    · exact hv hPv p hp'
    · exact h p q hp' hq'

theorem Unique.move {P : β → Prop} (h : m.Unique P) : (m.move src dst).Unique P := by
  intro p q hp hq
  rcases holds_move.mp hp with ⟨r, rfl, hp'⟩ | ⟨-, hnot, hp'⟩
  · rcases holds_move.mp hq with ⟨t, rfl, hq'⟩ | ⟨-, hnot, hq'⟩
    · rw [List.append_cancel_left (h _ _ hp' hq')]
    · exact absurd ⟨r, h _ _ hp' hq'⟩ hnot
  · rcases holds_move.mp hq with ⟨t, rfl, hq'⟩ | ⟨-, -, hq'⟩
    · exact absurd ⟨t, h _ _ hq' hp'⟩ hnot
    · exact h p q hp' hq'

end PathMap
