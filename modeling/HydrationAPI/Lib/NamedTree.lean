import Mathlib.Data.List.Infix
import Mathlib.Logic.Function.Basic

/-!
# Trees of names

A tree is given by the parent of every member and the name it has there; the path of a member are
the names on the way to it from the root. A member is moved by giving it another parent or another
name, and takes all that is beneath it along: of what is beneath it the paths change, and of nothing
else.
-/

namespace NamedTree

variable {α ν : Type*}

/-- The member is at the path, by the names on the way to it from the root. -/
inductive At (t : α → Option (α × ν)) (root : α) : α → List ν → Prop
  | root : At t root root []
  | sub {x y : α} {n : ν} {p : List ν} : t x = some (y, n) → At t root y p →
      At t root x (p ++ [n])

/-- The root has no parent, and no two members have one name in one place. -/
structure Proper (t : α → Option (α × ν)) (root : α) : Prop where
  root : t root = none
  distinct : ∀ x x' l, t x = some l → t x' = some l → x = x'

variable {t : α → Option (α × ν)} {root x x' y c : α} {n : ν} {p p' q s : List ν}

theorem At.inv (h : At t root x p) :
    x = root ∧ p = [] ∨ ∃ y n q, t x = some (y, n) ∧ At t root y q ∧ p = q ++ [n] := by
  cases h with
  | root => exact Or.inl ⟨rfl, rfl⟩
  | sub hx hy => exact Or.inr ⟨_, _, _, hx, hy, rfl⟩

/-- A member is at one path. -/
theorem At.unique (ht : Proper t root) (h : At t root x p) (h' : At t root x p') : p = p' := by
  induction h generalizing p' with
  | root =>
    rcases h'.inv with ⟨-, rfl⟩ | ⟨y, n, q, hx, -⟩
    · rfl
    · rw [ht.root] at hx
      cases hx
  | sub hx hy ih =>
    rcases h'.inv with ⟨rfl, -⟩ | ⟨y', n', q', hx', hy', rfl⟩
    · rw [ht.root] at hx
      cases hx
    · obtain ⟨rfl, rfl⟩ := Prod.mk.injEq .. ▸ Option.some_inj.mp (hx.symm.trans hx')
      rw [ih hy']

/-- At a path is one member. -/
theorem At.injective (ht : Proper t root) (h : At t root x p) (h' : At t root x' p) : x = x' := by
  induction h generalizing x' with
  | root =>
    rcases h'.inv with ⟨rfl, -⟩ | ⟨y, n, q, -, -, heq⟩
    · rfl
    · exact absurd heq.symm (List.append_ne_nil_of_right_ne_nil q (List.cons_ne_nil n []))
  | sub hx hy ih =>
    rcases h'.inv with ⟨-, heq⟩ | ⟨y', n', q', hx', hy', heq⟩
    · exact absurd heq (List.append_ne_nil_of_right_ne_nil _ (List.cons_ne_nil _ []))
    · obtain ⟨rfl, hn⟩ := List.append_inj' heq rfl
      obtain rfl := List.singleton_injective hn
      obtain rfl := ih hy'
      exact ht.distinct _ _ _ hx hx'

/-- On the way to a member there is one at every path. -/
theorem At.ancestor (h : At t root x p) (hq : q <+: p) : ∃ z, At t root z q := by
  induction h with
  | root =>
    obtain rfl := List.prefix_nil.mp hq
    exact ⟨root, .root⟩
  | sub hx hy ih =>
    rcases List.prefix_concat_iff.mp hq with rfl | hq
    · exact ⟨_, .sub hx hy⟩
    · exact ih hq

/-! ## Moving a member -/

variable [DecidableEq α]

/-- The member `c` is given the parent `y` and the name `n`. -/
def move (t : α → Option (α × ν)) (c y : α) (n : ν) : α → Option (α × ν) :=
  Function.update t c (some (y, n))

/-- The member is at `pc`, the parent at `q` and not beneath the member, and the name is free. -/
structure Movable (t : α → Option (α × ν)) (root c y : α) (n : ν) (pc q : List ν) : Prop where
  member : At t root c pc
  parent : At t root y q
  inner : c ≠ root
  outside : ¬ pc <+: q
  free : ∀ z, t z ≠ some (y, n)

variable {pc : List ν}

theorem Movable.proper (h : Movable t root c y n pc q) (ht : Proper t root) :
    Proper (move t c y n) root where
  root := by rw [move, Function.update_of_ne h.inner.symm, ht.root]
  distinct x x' l hx hx' := by
    by_cases hxc : x = c
    · by_cases hxc' : x' = c
      · rw [hxc, hxc']
      · rw [hxc, move, Function.update_self] at hx
        rw [move, Function.update_of_ne hxc', ← hx] at hx'
        exact absurd hx' (h.free x')
    · by_cases hxc' : x' = c
      · rw [hxc', move, Function.update_self] at hx'
        rw [move, Function.update_of_ne hxc, ← hx'] at hx
        exact absurd hx (h.free x)
      · rw [move, Function.update_of_ne hxc] at hx
        rw [move, Function.update_of_ne hxc'] at hx'
        exact ht.distinct x x' l hx hx'

/-- What is not beneath it stays where it is. -/
theorem Movable.stays (h : Movable t root c y n pc q) (ht : Proper t root) (hx : At t root x p)
    (hp : ¬ pc <+: p) : At (move t c y n) root x p := by
  induction hx with
  | root => exact .root
  | @sub x z m r hz hr ih =>
    have hne : x ≠ c := by
      rintro rfl
      exact hp (h.member.unique ht (.sub hz hr) ▸ List.prefix_refl _)
    refine .sub ?_ (ih fun hr ↦ hp (hr.trans (List.prefix_append _ _)))
    rw [move, Function.update_of_ne hne, hz]

/-- What is beneath it goes along. -/
theorem Movable.follows (h : Movable t root c y n pc q) (ht : Proper t root)
    (hx : At t root x (pc ++ s)) : At (move t c y n) root x (q ++ [n] ++ s) := by
  induction s using List.reverseRecOn generalizing x with
  | nil =>
    rw [List.append_nil] at hx
    obtain rfl := hx.injective ht h.member
    rw [List.append_nil]
    exact .sub (Function.update_self _ _ _) (h.stays ht h.parent h.outside)
  | append_singleton s m ih =>
    rcases hx.inv with ⟨-, heq⟩ | ⟨z, m', r, hz, hr, heq⟩
    · exact absurd heq (by simp)
    · rw [← List.append_assoc] at heq
      obtain ⟨rfl, hm⟩ := List.append_inj' heq rfl
      obtain rfl := List.singleton_injective hm
      have hne : x ≠ c := by
        rintro rfl
        have hlen := congrArg List.length (h.member.unique ht (.sub hz hr))
        simp at hlen
      rw [← List.append_assoc]
      refine .sub ?_ (ih hr)
      rw [move, Function.update_of_ne hne, hz]

/-- Where what is there afterwards has been before. -/
theorem Movable.came (h : Movable t root c y n pc q) (ht : Proper t root)
    (hx : At (move t c y n) root x p) :
    (At t root x p ∧ ¬ pc <+: p) ∨ ∃ s, p = q ++ [n] ++ s ∧ At t root x (pc ++ s) := by
  induction hx with
  | root =>
    refine Or.inl ⟨.root, fun hnil ↦ h.inner ?_⟩
    obtain rfl := List.prefix_nil.mp hnil
    exact h.member.injective ht .root
  | @sub x z m r hz hr ih =>
    by_cases hxc : x = c
    · subst hxc
      rw [move, Function.update_self] at hz
      obtain ⟨rfl, rfl⟩ := Prod.mk.injEq .. ▸ Option.some_inj.mp hz
      rcases ih with ⟨hy, -⟩ | ⟨s, -, hy⟩
      · obtain rfl := hy.unique ht h.parent
        exact Or.inr ⟨[], by rw [List.append_nil], by rw [List.append_nil]; exact h.member⟩
      · exact absurd (h.parent.unique ht hy ▸ List.prefix_append _ _) h.outside
    · rw [move, Function.update_of_ne hxc] at hz
      rcases ih with ⟨hy, hnot⟩ | ⟨s, rfl, hy⟩
      · refine Or.inl ⟨.sub hz hy, fun hp ↦ ?_⟩
        rcases List.prefix_concat_iff.mp hp with rfl | hp
        · exact hxc ((At.sub hz hy).injective ht h.member)
        · exact hnot hp
      · exact Or.inr ⟨s ++ [m], by simp, by rw [← List.append_assoc]; exact .sub hz hy⟩

/-- Nothing beneath it is where it was. -/
theorem Movable.leaves (h : Movable t root c y n pc q) (ht : Proper t root) (hx : At t root x p)
    (hx' : At (move t c y n) root x p) : ¬ pc <+: p := by
  rintro ⟨s, rfl⟩
  have hpath : q ++ [n] = pc :=
    List.append_cancel_right ((h.follows ht hx).unique (h.proper ht) hx')
  rcases h.member.inv with ⟨-, rfl⟩ | ⟨y', n', q', hc, hy', rfl⟩
  · exact absurd hpath (List.append_ne_nil_of_right_ne_nil q (List.cons_ne_nil n []))
  · obtain ⟨rfl, hn⟩ := List.append_inj' hpath rfl
    obtain rfl := List.singleton_injective hn
    obtain rfl := hy'.injective ht h.parent
    exact h.free c hc

/-! ## Moves one after the other -/

/-- A member, its new parent and its new name. -/
structure Move (α ν : Type*) where
  member : α
  parent : α
  name : ν

def Move.apply (m : Move α ν) (t : α → Option (α × ν)) : α → Option (α × ν) :=
  move t m.member m.parent m.name

/-- The trees that moves lead through, from the first to the last. -/
def trees (t : α → Option (α × ν)) : List (Move α ν) → List (α → Option (α × ν))
  | [] => [t]
  | m :: ms => t :: trees (m.apply t) ms

/-- The last of them. -/
def final (t : α → Option (α × ν)) (ms : List (Move α ν)) : α → Option (α × ν) :=
  ms.foldl (fun t m ↦ m.apply t) t

/-- Every move is possible when its turn has come. -/
def AllMovable (t : α → Option (α × ν)) (root : α) : List (Move α ν) → Prop
  | [] => True
  | m :: ms => (∃ pc q, Movable t root m.member m.parent m.name pc q)
      ∧ AllMovable (m.apply t) root ms

/-- The member is at the path from now on. -/
def Settled (t : α → Option (α × ν)) (root : α) (ms : List (Move α ν)) (x : α) (p : List ν) :
    Prop := ∀ u ∈ trees t ms, At u root x p

variable {m : Move α ν} {ms : List (Move α ν)} {z : α}

theorem mem_trees_self : t ∈ trees t ms := by
  cases ms with
  | nil => exact List.mem_singleton_self t
  | cons m ms => exact List.mem_cons_self

theorem final_mem_trees : final t ms ∈ trees t ms := by
  induction ms generalizing t with
  | nil => exact List.mem_singleton_self t
  | cons m ms ih => exact List.mem_cons_of_mem _ ih

theorem Settled.now (h : Settled t root ms x p) : At t root x p := h t mem_trees_self

theorem settled_cons : Settled t root (m :: ms) x p
    ↔ At t root x p ∧ Settled (m.apply t) root ms x p := List.forall_mem_cons

theorem settled_nil : Settled t root [] x p ↔ At t root x p := List.forall_mem_singleton

theorem proper_of_mem_trees (ht : Proper t root) (hms : AllMovable t root ms) :
    ∀ u ∈ trees t ms, Proper u root := by
  induction ms generalizing t with
  | nil => exact fun u hu ↦ List.mem_singleton.mp hu ▸ ht
  | cons m ms ih =>
    obtain ⟨⟨pc, q, hm⟩, hms⟩ := hms
    exact List.forall_mem_cons.mpr ⟨ht, ih (hm.proper ht) hms⟩

/-- No member is lost. -/
theorem exists_at_of_mem_trees (ht : Proper t root) (hms : AllMovable t root ms)
    (hx : At t root x p) : ∀ u ∈ trees t ms, ∃ p', At u root x p' := by
  induction ms generalizing t p with
  | nil => exact fun u hu ↦ ⟨p, List.mem_singleton.mp hu ▸ hx⟩
  | cons m ms ih =>
    obtain ⟨⟨pc, q, hm⟩, hms⟩ := hms
    refine List.forall_mem_cons.mpr ⟨⟨p, hx⟩, ?_⟩
    by_cases hp : pc <+: p
    · obtain ⟨s, rfl⟩ := hp
      exact ih (hm.proper ht) hms (hm.follows ht hx)
    · exact ih (hm.proper ht) hms (hm.stays ht hx hp)

theorem exists_at_final (ht : Proper t root) (hms : AllMovable t root ms) :
    ∀ u ∈ trees t ms, ∀ x p, At u root x p → ∃ p', At (final t ms) root x p' := by
  induction ms generalizing t with
  | nil => exact fun u hu x p hx ↦ ⟨p, List.mem_singleton.mp hu ▸ hx⟩
  | cons m ms ih =>
    have hmoves := hms
    obtain ⟨⟨pc, q, hm⟩, hms⟩ := hms
    refine List.forall_mem_cons.mpr ⟨fun x p hx ↦ ?_, ih (hm.proper ht) hms⟩
    exact exists_at_of_mem_trees ht hmoves hx _ final_mem_trees

/-- Where a member stays, all that it is beneath stays too. -/
theorem Settled.ancestor (ht : Proper t root) (hms : AllMovable t root ms)
    (h : Settled t root ms x p) (hz : At t root z q) (hq : q <+: p) : Settled t root ms z q := by
  induction ms generalizing t with
  | nil => exact settled_nil.mpr hz
  | cons m ms ih =>
    obtain ⟨⟨pc, q', hm⟩, hms⟩ := hms
    obtain ⟨hx, hrest⟩ := settled_cons.mp h
    have houtside := hm.leaves ht hx hrest.now
    exact settled_cons.mpr ⟨hz, ih (hm.proper ht) hms hrest
      (hm.stays ht hz fun hpc ↦ houtside (hpc.trans hq))⟩

/-- **What stays after a move has stayed before it, or lies beneath what has been moved**, and then
the new parent stays. -/
theorem Settled.before {pc : List ν} (ht : Proper t root)
    (hm : Movable t root m.member m.parent m.name pc q) (hms : AllMovable (m.apply t) root ms)
    (h : Settled (m.apply t) root ms x p) :
    Settled t root (m :: ms) x p
      ∨ ∃ s, p = q ++ [m.name] ++ s ∧ Settled t root (m :: ms) m.parent q := by
  rcases hm.came ht h.now with ⟨hx, -⟩ | ⟨s, rfl, -⟩
  · exact Or.inl (settled_cons.mpr ⟨hx, h⟩)
  · refine Or.inr ⟨s, rfl, settled_cons.mpr ⟨hm.parent, ?_⟩⟩
    refine h.ancestor (hm.proper ht) hms (hm.stays ht hm.parent hm.outside) ?_
    rw [List.append_assoc]
    exact List.prefix_append _ _

end NamedTree
