import Mathlib.Algebra.GroupWithZero.Nat
import Mathlib.Data.List.AList
import Mathlib.Logic.Relation

/-!
# Walking a graph

A graph is a table of lists, one after each vertex. A walk takes a vertex from a stack, passes it by
if it has been seen, and otherwise puts what comes after it on the stack, in reverse, so that the
last of the list is taken next. At a vertex that is not open the walk does not go on.

The walk ends since a vertex's list is put on the stack at most once: what is on the stack and what
is in the lists of the vertices that have not been seen become fewer by one with every step.
-/

namespace Walk

variable {α : Type*} [DecidableEq α]

/-- What comes after a vertex; nothing where the table has no list for it. -/
def after (g : AList fun _ : α ↦ List α) (x : α) : List α := (g.lookup x).getD []

/-- The length of the lists of the vertices that have not been seen. -/
def unseen (g : AList fun _ : α ↦ List α) (seen : List α) : ℕ :=
  ((g.entries.filter fun e ↦ e.1 ∉ seen).map fun e ↦ e.2.length).sum

private theorem sum_filter_cons (x : α) (seen : List α) (hx : x ∉ seen) :
    ∀ l : List (Sigma fun _ : α ↦ List α), l.NodupKeys →
      ((l.filter fun e ↦ e.1 ∉ x :: seen).map fun e ↦ e.2.length).sum
          + ((l.dlookup x).getD []).length
        = ((l.filter fun e ↦ e.1 ∉ seen).map fun e ↦ e.2.length).sum := by
  intro l
  induction l with
  | nil => exact fun _ ↦ rfl
  | cons e l ih =>
    obtain ⟨y, ys⟩ := e
    intro hnodup
    rw [List.nodupKeys_cons] at hnodup
    have hrest := ih hnodup.2
    by_cases hy : y = x
    · subst hy
      -- the list of `x` is here, and nowhere else
      have hnone : l.dlookup y = none := List.dlookup_eq_none.mpr hnodup.1
      rw [hnone, Option.getD_none, List.length_nil, Nat.add_zero] at hrest
      rw [List.filter_cons_of_neg (by simp), List.filter_cons_of_pos (by simpa using hx),
        List.map_cons, List.sum_cons, ← hrest, List.dlookup_cons_eq, Option.getD_some, Nat.add_comm]
    · rw [List.dlookup_cons_ne _ _ (fun h ↦ hy h.symm)]
      by_cases hs : y ∈ seen
      · rwa [List.filter_cons_of_neg (by simp [hs]), List.filter_cons_of_neg (by simpa using hs)]
      · rw [List.filter_cons_of_pos (by simp [hy, hs]), List.filter_cons_of_pos (by simpa using hs),
          List.map_cons, List.map_cons, List.sum_cons, List.sum_cons, ← hrest, Nat.add_assoc]

theorem unseen_cons (g : AList fun _ : α ↦ List α) {x : α} {seen : List α} (hx : x ∉ seen) :
    unseen g (x :: seen) + (after g x).length = unseen g seen :=
  sum_filter_cons x seen hx g.entries g.nodupKeys

/-- What a walk puts on the stack at a vertex. -/
def onward (g : AList fun _ : α ↦ List α) (isOpen : α → Bool) (x : α) : List α :=
  if isOpen x then (after g x).reverse else []

/-- The walk goes from `x` to `y`. -/
def Goes (g : AList fun _ : α ↦ List α) (isOpen : α → Bool) (x y : α) : Prop :=
  isOpen x = true ∧ y ∈ after g x

theorem mem_onward {g : AList fun _ : α ↦ List α} {isOpen : α → Bool} {x y : α} :
    y ∈ onward g isOpen x ↔ Goes g isOpen x y := by
  rw [onward, Goes]
  by_cases h : isOpen x = true <;> simp [h]

theorem length_onward_le (g : AList fun _ : α ↦ List α) (isOpen : α → Bool) (x : α) :
    (onward g isOpen x).length ≤ (after g x).length := by
  rw [onward]
  split <;> simp

/-- Walk on from what is on the stack; the vertices that have been seen, the latest first. -/
def visit (g : AList fun _ : α ↦ List α) (isOpen : α → Bool) : List α → List α → List α
  | [], seen => seen
  | x :: stack, seen =>
    if x ∈ seen then visit g isOpen stack seen
    else visit g isOpen (onward g isOpen x ++ stack) (x :: seen)
termination_by stack seen => stack.length + unseen g seen
decreasing_by
  · rw [List.length_cons]
    omega
  · rename_i hx
    have h := unseen_cons g hx
    rw [List.length_append, List.length_cons]
    have hle := length_onward_le g isOpen x
    omega

/-- The vertices that are come by from the stack, in the order they are come by. -/
def walk (g : AList fun _ : α ↦ List α) (isOpen : α → Bool) (stack : List α) : List α :=
  (visit g isOpen stack []).reverse

variable {g : AList fun _ : α ↦ List α} {isOpen : α → Bool}

theorem subset_visit {stack seen : List α} : seen ⊆ visit g isOpen stack seen := by
  fun_induction visit g isOpen stack seen with
  | case1 seen => exact List.Subset.refl _
  | case2 x stack seen _ ih => exact ih
  | case3 x stack seen _ ih => exact List.Subset.trans (List.subset_cons_self x seen) ih

theorem stack_subset_visit {stack seen : List α} : stack ⊆ visit g isOpen stack seen := by
  fun_induction visit g isOpen stack seen with
  | case1 seen => exact List.nil_subset _
  | case2 x stack seen hx ih => exact List.cons_subset.mpr ⟨subset_visit hx, ih⟩
  | case3 x stack seen _ ih =>
    refine List.cons_subset.mpr ⟨subset_visit List.mem_cons_self, fun y hy ↦ ih ?_⟩
    exact List.mem_append_right _ hy

/-- Whatever is seen can be got to. -/
theorem visit_sound {R : α → Prop} (hR : ∀ x y, R x → Goes g isOpen x y → R y) {stack seen : List α}
    (hstack : ∀ x ∈ stack, R x) (hseen : ∀ x ∈ seen, R x) : ∀ x ∈ visit g isOpen stack seen, R x := by
  fun_induction visit g isOpen stack seen with
  | case1 seen => exact hseen
  | case2 x stack seen _ ih => exact ih (fun y hy ↦ hstack y (List.mem_cons_of_mem _ hy)) hseen
  | case3 x stack seen _ ih =>
    have hx : R x := hstack x List.mem_cons_self
    refine ih (fun y hy ↦ ?_) (List.forall_mem_cons.mpr ⟨hx, hseen⟩)
    rcases List.mem_append.mp hy with hy | hy
    · exact hR x y hx (mem_onward.mp hy)
    · exact hstack y (List.mem_cons_of_mem _ hy)

/-- The walk goes nowhere from what is seen but to what is seen. -/
theorem visit_closed {stack seen : List α}
    (h : ∀ x ∈ seen, ∀ y, Goes g isOpen x y → y ∈ seen ∨ y ∈ stack) :
    ∀ x ∈ visit g isOpen stack seen, ∀ y, Goes g isOpen x y → y ∈ visit g isOpen stack seen := by
  fun_induction visit g isOpen stack seen with
  | case1 seen =>
    intro x hx y hxy
    exact (h x hx y hxy).resolve_right List.not_mem_nil
  | case2 x stack seen hx ih =>
    refine ih fun z hz y hzy ↦ ?_
    rcases h z hz y hzy with hy | hy
    · exact Or.inl hy
    · rcases List.mem_cons.mp hy with rfl | hy
      · exact Or.inl hx
      · exact Or.inr hy
  | case3 x stack seen hx ih =>
    refine ih fun z hz y hzy ↦ ?_
    rcases List.mem_cons.mp hz with rfl | hz
    · exact Or.inr (List.mem_append_left _ (mem_onward.mpr hzy))
    · rcases h z hz y hzy with hy | hy
      · exact Or.inl (List.mem_cons_of_mem _ hy)
      · rcases List.mem_cons.mp hy with rfl | hy
        · exact Or.inl List.mem_cons_self
        · exact Or.inr (List.mem_append_right _ hy)

/-- **A walk comes by what can be got to, and by nothing else.** -/
theorem mem_walk {stack : List α} {y : α} :
    y ∈ walk g isOpen stack ↔ ∃ x ∈ stack, Relation.ReflTransGen (Goes g isOpen) x y := by
  rw [walk, List.mem_reverse]
  constructor
  · refine visit_sound (R := fun y ↦ ∃ x ∈ stack, Relation.ReflTransGen (Goes g isOpen) x y) ?_ ?_
      ?_ y
    · rintro y z ⟨x, hx, hxy⟩ hyz
      exact ⟨x, hx, hxy.tail hyz⟩
    · exact fun x hx ↦ ⟨x, hx, .refl⟩
    · exact fun x hx ↦ absurd hx List.not_mem_nil
  · rintro ⟨x, hx, hxy⟩
    induction hxy with
    | refl => exact stack_subset_visit hx
    | tail _ hyz ih => exact visit_closed (fun x hx ↦ absurd hx List.not_mem_nil) _ ih _ hyz

/-- Only what comes after each vertex matters, and which vertices are open. -/
theorem visit_congr {g' : AList fun _ : α ↦ List α} {isOpen' : α → Bool}
    (hafter : ∀ x, after g' x = after g x) (hopen : ∀ x, isOpen' x = isOpen x)
    (stack seen : List α) : visit g' isOpen' stack seen = visit g isOpen stack seen := by
  have honward : ∀ x, onward g' isOpen' x = onward g isOpen x := fun x ↦ by
    rw [onward, onward, hafter, hopen]
  fun_induction visit g isOpen stack seen with
  | case1 seen => rw [visit]
  | case2 x stack seen hx ih => rw [visit, if_pos hx, ih]
  | case3 x stack seen hx ih => rw [visit, if_neg hx, honward, ih]

theorem walk_congr {g' : AList fun _ : α ↦ List α} {isOpen' : α → Bool}
    (hafter : ∀ x, after g' x = after g x) (hopen : ∀ x, isOpen' x = isOpen x) (stack : List α) :
    walk g' isOpen' stack = walk g isOpen stack :=
  congrArg List.reverse (visit_congr hafter hopen stack [])

end Walk
