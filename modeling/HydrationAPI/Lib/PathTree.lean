import Mathlib.Data.List.Basic

/-!
# Trees with named children

A leaf, or a node whose children have names. A path of names leads from a tree to one beneath it,
and where no node has two children of one name, every tree beneath is at the end of a path.
-/

/-- A tree with named children. -/
inductive PathTree (ν α β : Type*) where
  | leaf (value : α)
  | node (value : β) (children : List (ν × PathTree ν α β))

namespace PathTree

variable {ν α β : Type*}

/-- The induction over a tree: what holds of all children of a node holds of it. -/
@[elab_as_elim]
theorem ind {motive : PathTree ν α β → Prop} (leaf : ∀ value, motive (.leaf value))
    (node : ∀ value children, (∀ x ∈ children, motive x.2) → motive (.node value children)) :
    ∀ t, motive t :=
  @PathTree.rec ν α β motive (fun children ↦ ∀ x ∈ children, motive x.2) (fun x ↦ motive x.2)
    leaf node (List.forall_mem_nil _)
    (fun _ _ head tail ↦ List.forall_mem_cons.mpr ⟨head, tail⟩) fun _ _ h ↦ h

/-- The names of the children. -/
def names : PathTree ν α β → List ν
  | leaf _ => []
  | node _ children => children.map Prod.fst

variable [DecidableEq ν]

/-- The tree at the end of a path. -/
def get : PathTree ν α β → List ν → Option (PathTree ν α β)
  | t, [] => some t
  | leaf _, _ :: _ => none
  | node _ children, name :: path => (children.lookup name).bind fun t ↦ t.get path

/-- Every tree beneath is such, and the tree itself. -/
def Everywhere (P : PathTree ν α β → Prop) (t : PathTree ν α β) : Prop :=
  ∀ path s, t.get path = some s → P s

variable {P : PathTree ν α β → Prop} {t s : PathTree ν α β} {a : α} {b : β} {name : ν}
  {path : List ν} {children : List (ν × PathTree ν α β)}

@[simp] theorem get_nil : t.get [] = some t := by
  cases t <;> rfl

@[simp] theorem get_leaf_cons : (leaf a : PathTree ν α β).get (name :: path) = none := rfl

theorem get_node_cons : (node b children : PathTree ν α β).get (name :: path)
    = (children.lookup name).bind fun t ↦ t.get path := rfl

/-- What is beneath a leaf is the leaf. -/
theorem get_leaf_eq_some :
    (leaf a : PathTree ν α β).get path = some s ↔ path = [] ∧ s = leaf a := by
  cases path with
  | nil => simp [eq_comm]
  | cons name path => simp

theorem get_append (p q : List ν) (t : PathTree ν α β) :
    t.get (p ++ q) = (t.get p).bind fun s ↦ s.get q := by
  induction p generalizing t with
  | nil => rw [List.nil_append, get_nil, Option.bind_some]
  | cons name p ih =>
    cases t with
    | leaf a => rfl
    | node b children =>
      rw [List.cons_append, get_node_cons, get_node_cons]
      cases children.lookup name with
      | none => rfl
      | some t => exact ih t

/-- A child is found by its name, where no other has it. -/
theorem lookup_eq_some_iff (h : (children.map Prod.fst).Nodup) :
    children.lookup name = some t ↔ (name, t) ∈ children := by
  induction children with
  | nil => simp
  | cons x children ih =>
    obtain ⟨name', t'⟩ := x
    rw [List.map_cons, List.nodup_cons] at h
    rw [List.lookup_cons, List.mem_cons, Prod.mk.injEq]
    by_cases hname : name = name'
    · subst hname
      have hrest : (name, t) ∉ children := fun hmem ↦ h.1 (List.mem_map.mpr ⟨(name, t), hmem, rfl⟩)
      simp [hrest, eq_comm]
    · have hbeq : (name == name') = false := beq_false_of_ne hname
      simp [hbeq, hname, ih h.2]

/-- What is beneath a node is at the end of a path from one of its children. -/
theorem get_node_cons_eq_some (h : (children.map Prod.fst).Nodup) :
    (node b children : PathTree ν α β).get (name :: path) = some s
      ↔ ∃ t, (name, t) ∈ children ∧ t.get path = some s := by
  rw [get_node_cons, Option.bind_eq_some_iff]
  exact exists_congr fun t ↦ and_congr_left' (lookup_eq_some_iff h)

namespace Everywhere

theorem self (h : t.Everywhere P) : P t := h [] t get_nil

theorem beneath (h : t.Everywhere P) (hs : t.get path = some s) : s.Everywhere P := by
  intro q u hu
  refine h (path ++ q) u ?_
  rw [get_append, hs, Option.bind_some, hu]

theorem child (h : (node b children : PathTree ν α β).Everywhere P)
    (hnodup : (children.map Prod.fst).Nodup) (ht : (name, t) ∈ children) : t.Everywhere P := by
  have hget : (node b children : PathTree ν α β).get [name] = some t :=
    (get_node_cons_eq_some hnodup).mpr ⟨t, ht, get_nil⟩
  exact h.beneath hget

theorem mono {Q : PathTree ν α β → Prop} (h : t.Everywhere P) (hPQ : ∀ s, P s → Q s) :
    t.Everywhere Q := fun path s hs ↦ hPQ s (h path s hs)

end Everywhere

theorem everywhere_leaf : (leaf a : PathTree ν α β).Everywhere P ↔ P (leaf a) := by
  refine ⟨Everywhere.self, fun h path s hs ↦ ?_⟩
  obtain ⟨-, rfl⟩ := get_leaf_eq_some.mp hs
  exact h

theorem everywhere_node (h : (children.map Prod.fst).Nodup) :
    (node b children : PathTree ν α β).Everywhere P
      ↔ P (node b children) ∧ ∀ x ∈ children, x.2.Everywhere P := by
  refine ⟨fun hall ↦ ⟨hall.self, fun x hx ↦ hall.child h hx⟩, fun ⟨hself, hall⟩ path s hs ↦ ?_⟩
  cases path with
  | nil =>
    rw [get_nil, Option.some.injEq] at hs
    exact hs ▸ hself
  | cons name path =>
    obtain ⟨t, ht, hs⟩ := (get_node_cons_eq_some h).mp hs
    exact hall (name, t) ht path s hs

end PathTree
