import HydrationAPI.Client.Namespace

/-!
# The namespace is a tree

Parents and children say the same, every node lies beneath the root, and nothing lies beneath a
file. The invariant is kept by every item, whatever it says; what an item does to the tree is said
once here, for deleting and for attaching, and everything else is derived from that.
-/

namespace HydrationAPI.Client

open Ancestry

namespace Namespace

variable {ns : Namespace}

/-- The namespace is a tree. -/
structure Tree (ns : Namespace) : Prop where
  kids : ∀ p c, c ∈ ns.kids p ↔ ns.up c = some p
  parent : ∀ c p, ns.up c = some p → ∃ node, ns.nodes.lookup p = some node ∧ node.kind.tag ≠ .file
  rooted : ∀ id node, ns.nodes.lookup id = some node → ∃ r, ns.root = some r ∧ Under ns.up r id
  top : ∀ r, ns.root = some r → ns.nodes.lookup r = some ⟨none, "", .folder none⟩

theorem up_of_lookup {id : String} {node : Node} (h : ns.nodes.lookup id = some node) :
    ns.up id = node.parent := by
  rw [up, h]
  rfl

theorem up_of_not_lookup {id : String} (h : ns.nodes.lookup id = none) : ns.up id = none := by
  rw [up, h]
  rfl

theorem lookup_of_up {id p : String} (h : ns.up id = some p) :
    ∃ node, ns.nodes.lookup id = some node ∧ node.parent = some p := Option.bind_eq_some_iff.mp h

theorem up_congr {ns' : Namespace} {id : String}
    (h : ns'.nodes.lookup id = ns.nodes.lookup id) : ns'.up id = ns.up id := by
  rw [up, up, h]

/-- What lies beneath a node, but for itself, is a node. -/
theorem node_of_under {id x : String} (hx : Under ns.up id x) (hne : x ≠ id) :
    ∃ node, ns.nodes.lookup x = some node := by
  rcases hx.cases with rfl | ⟨p, hp, -⟩
  · exact absurd rfl hne
  · obtain ⟨node, hnode, -⟩ := lookup_of_up hp
    exact ⟨node, hnode⟩

namespace Tree

theorem new : Namespace.new.Tree := by
  have hup : ∀ id, Namespace.new.up id = none := fun id ↦ rfl
  refine ⟨fun p c ↦ ?_, fun c p h ↦ ?_, fun id node h ↦ ?_, fun r h ↦ ?_⟩
  · rw [hup]
    exact iff_of_false List.not_mem_nil (fun h ↦ by cases h)
  · rw [hup] at h
    cases h
  · cases h
  · cases h

/-- The invariant is about the nodes, the children and the root. -/
theorem congr {ns' : Namespace} (h : ns.Tree)
    (hnodes : ∀ id, ns'.nodes.lookup id = ns.nodes.lookup id)
    (hkids : ∀ p c, c ∈ ns'.kids p ↔ c ∈ ns.kids p) (hroot : ns'.root = ns.root) : ns'.Tree := by
  have hup : ns'.up = ns.up := funext fun id ↦ up_congr (hnodes id)
  refine ⟨fun p c ↦ ?_, fun c p hc ↦ ?_, fun id node hid ↦ ?_, fun r hr ↦ ?_⟩
  · rw [hkids, hup]
    exact h.kids p c
  · rw [hup] at hc
    rw [hnodes]
    exact h.parent c p hc
  · rw [hnodes] at hid
    rw [hroot, hup]
    exact h.rooted id node hid
  · rw [hroot] at hr
    rw [hnodes]
    exact h.top r hr

variable (h : ns.Tree)
include h

theorem up_root {r : String} (hr : ns.root = some r) : ns.up r = none :=
  up_of_lookup (h.top r hr)

/-- Only the root lies beneath nothing. -/
theorem eq_root {id r : String} {node : Node} (hid : ns.nodes.lookup id = some node)
    (hparent : node.parent = none) (hr : ns.root = some r) : id = r := by
  obtain ⟨r', hr', hunder⟩ := h.rooted id node hid
  cases hr.symm.trans hr'
  rcases hunder.cases with rfl | ⟨p, hp, -⟩
  · rfl
  · rw [up_of_lookup hid, hparent] at hp
    cases hp

theorem exists_depth {id : String} {node : Node} (hid : ns.nodes.lookup id = some node) :
    ∃ n, Depth ns.up id n := by
  obtain ⟨r, hr, hunder⟩ := h.rooted id node hid
  exact Depth.exists_of_under hunder (h.up_root hr)

/-- What lies beneath an id that is no node is the id alone. -/
theorem eq_of_under {id x : String} (hid : ns.nodes.lookup id = none) (hx : Under ns.up id x) :
    x = id := by
  rcases Relation.ReflTransGen.cases_tail hx with rfl | ⟨y, -, hy⟩
  · rfl
  · obtain ⟨node, hnode, -⟩ := h.parent y id hy
    cases hid.symm.trans hnode

/-- What a node lies beneath is a node. -/
theorem node_of_above {id x : String} {node : Node} (hx : ns.nodes.lookup x = some node)
    (hid : Under ns.up id x) : ∃ node, ns.nodes.lookup id = some node := by
  rcases Relation.ReflTransGen.cases_tail hid with rfl | ⟨y, -, hy⟩
  · exact ⟨node, hx⟩
  · obtain ⟨node, hnode, -⟩ := h.parent y id hy
    exact ⟨node, hnode⟩

end Tree

/-! ## Deleting -/

theorem drop_lookup (ns : Namespace) (id x : String) :
    (ns.drop id).nodes.lookup x = if x = id then none else ns.nodes.lookup x := by
  split
  · rename_i hx
    rw [hx]
    exact AList.lookup_erase id ns.nodes
  · rename_i hx
    exact AList.lookup_erase_ne hx

theorem drop_kids (ns : Namespace) (id x : String) :
    (ns.drop id).kids x = if x = id then [] else ns.kids x := by
  rw [kids, kids, Walk.after, Walk.after]
  split
  · rename_i hx
    rw [hx, drop, AList.lookup_erase]
    rfl
  · rename_i hx
    rw [drop, AList.lookup_erase_ne hx]

theorem foldl_drop_lookup (ids : List String) (ns : Namespace) (x : String) :
    (ids.foldl drop ns).nodes.lookup x = if x ∈ ids then none else ns.nodes.lookup x := by
  induction ids generalizing ns with
  | nil => rfl
  | cons id ids ih =>
    rw [List.foldl_cons, ih, drop_lookup]
    by_cases hid : x = id <;> by_cases hids : x ∈ ids <;> simp [hid, hids]

theorem foldl_drop_kids (ids : List String) (ns : Namespace) (x : String) :
    (ids.foldl drop ns).kids x = if x ∈ ids then [] else ns.kids x := by
  induction ids generalizing ns with
  | nil => rfl
  | cons id ids ih =>
    rw [List.foldl_cons, ih, drop_kids]
    by_cases hid : x = id <;> by_cases hids : x ∈ ids <;> simp [hid, hids]

@[simp] theorem foldl_drop_root (ids : List String) (ns : Namespace) :
    (ids.foldl drop ns).root = ns.root := by
  induction ids generalizing ns with
  | nil => rfl
  | cons id ids ih => rw [List.foldl_cons, ih, drop]

@[simp] theorem detach_nodes (ns : Namespace) (parent : Option String) (id : String) :
    (ns.detach parent id).nodes = ns.nodes := by
  unfold detach
  split
  · rfl
  · split <;> rfl

@[simp] theorem detach_root (ns : Namespace) (parent : Option String) (id : String) :
    (ns.detach parent id).root = ns.root := by
  unfold detach
  split
  · rfl
  · split <;> rfl

theorem mem_detach_kids (ns : Namespace) (parent : Option String) (id p c : String) :
    c ∈ (ns.detach parent id).kids p ↔ c ∈ ns.kids p ∧ ¬ (parent = some p ∧ c = id) := by
  unfold detach
  split
  · simp
  · rename_i parent
    split
    · rename_i hnone
      by_cases hp : parent = p
      · subst hp
        have hempty : ns.kids parent = [] := by
          rw [kids, Walk.after, hnone]
          rfl
        simp [hempty]
      · simp [hp]
    · rename_i set hset
      rw [kids, kids, Walk.after, Walk.after]
      by_cases hp : parent = p
      · subst hp
        rw [AList.lookup_insert, hset]
        simp
      · rw [AList.lookup_insert_ne (Ne.symm hp)]
        simp [hp]

/-- What a delete walks through lies beneath the node. -/
theorem Tree.mem_collectIds (h : ns.Tree) {id x : String} :
    x = id ∨ x ∈ ns.collectIds id ↔ Under ns.up id x := by
  have hgoes : ∀ a b, Walk.Goes ns.children (fun _ ↦ true) a b ↔ ns.up b = some a := fun a b ↦
    (and_iff_right rfl).trans (h.kids a b)
  have hrel : Walk.Goes ns.children (fun _ ↦ true) = Function.swap fun x y ↦ ns.up x = some y :=
    funext fun a ↦ funext fun b ↦ propext (hgoes a b)
  rw [collectIds, Walk.mem_walk, hrel]
  constructor
  · rintro (rfl | ⟨k, hk, hkx⟩)
    · exact Under.refl ns.up x
    · rw [List.mem_reverse, h.kids] at hk
      exact (Relation.reflTransGen_swap.mp hkx).tail hk
  · intro hx
    rcases Relation.ReflTransGen.cases_tail hx with rfl | ⟨k, hkx, hk⟩
    · exact Or.inl rfl
    · refine Or.inr ⟨k, List.mem_reverse.mpr ((h.kids _ _).mpr hk), ?_⟩
      exact Relation.reflTransGen_swap.mpr hkx

/-- **A delete takes away what lies beneath the id.** -/
theorem Tree.delete_lookup_of_under (h : ns.Tree) {id x : String} (hx : Under ns.up id x) :
    (ns.delete id).1.nodes.lookup x = none := by
  rw [delete]
  split
  · rename_i hnone
    rw [h.eq_of_under hnone hx]
    exact hnone
  · dsimp only
    rw [detach_nodes, drop_lookup, foldl_drop_lookup]
    rcases h.mem_collectIds.mpr hx with hid | hmem
    · rw [if_pos hid]
    · rw [if_pos hmem, ite_self]

/-- It takes away nothing else. -/
theorem Tree.delete_lookup_of_not_under (h : ns.Tree) {id x : String} (hx : ¬ Under ns.up id x) :
    (ns.delete id).1.nodes.lookup x = ns.nodes.lookup x := by
  rw [delete]
  split
  · rfl
  · dsimp only
    rw [← h.mem_collectIds, not_or] at hx
    rw [detach_nodes, drop_lookup, foldl_drop_lookup, if_neg hx.1, if_neg hx.2]

theorem delete_root (ns : Namespace) (id : String) (hid : ∃ node, ns.nodes.lookup id = some node) :
    (ns.delete id).1.root = if ns.root = some id then none else ns.root := by
  obtain ⟨node, hnode⟩ := hid
  rw [delete, hnode]
  dsimp only
  rw [detach_root, drop, foldl_drop_root]

section Delete

variable (h : ns.Tree) {id : String}
include h

theorem Tree.delete_up_of_not_under {x : String} (hx : ¬ Under ns.up id x) :
    (ns.delete id).1.up x = ns.up x := up_congr (h.delete_lookup_of_not_under hx)

theorem Tree.delete_up_eq_some {x p : String} :
    (ns.delete id).1.up x = some p ↔ ns.up x = some p ∧ ¬ Under ns.up id x := by
  by_cases hx : Under ns.up id x
  · rw [up_of_not_lookup (h.delete_lookup_of_under hx)]
    exact iff_of_false (fun h ↦ by cases h) fun h ↦ h.2 hx
  · rw [h.delete_up_of_not_under hx]
    exact (and_iff_left hx).symm

/-- What is beneath nothing that was deleted has not moved. -/
theorem Tree.delete_under {a x : String} (hx : ¬ Under ns.up id x) :
    Under (ns.delete id).1.up a x ↔ Under ns.up a x :=
  under_frame (fun _ hy ↦ h.delete_up_of_not_under hy) hx

theorem Tree.mem_delete_kids {p c : String} :
    c ∈ (ns.delete id).1.kids p ↔ ns.up c = some p ∧ ¬ Under ns.up id c := by
  rw [delete]
  split
  · rename_i hnone
    change c ∈ ns.kids p ↔ _
    rw [h.kids]
    refine ⟨fun hc ↦ ⟨hc, fun hunder ↦ ?_⟩, And.left⟩
    rw [h.eq_of_under hnone hunder, up_of_not_lookup hnone] at hc
    cases hc
  · rename_i node hnode
    dsimp only
    change c ∈ (detach _ _ _).kids p ↔ _
    rw [mem_detach_kids, drop_kids, foldl_drop_kids]
    by_cases hp : Under ns.up id p
    · -- the children of what is deleted lie beneath it
      have hc : ns.up c = some p → Under ns.up id c := fun hc ↦ Under.step hc hp
      rcases h.mem_collectIds.mpr hp with hid | hmem
      · rw [if_pos hid]
        exact iff_of_false (fun hc ↦ List.not_mem_nil hc.1) fun hcp ↦ hcp.2 (hc hcp.1)
      · rw [if_pos hmem, ite_self]
        exact iff_of_false (fun hc ↦ List.not_mem_nil hc.1) fun hcp ↦ hcp.2 (hc hcp.1)
    · have hnot := h.mem_collectIds.not.mpr hp
      rw [not_or] at hnot
      rw [if_neg hnot.1, if_neg hnot.2, h.kids]
      refine and_congr_right fun hc ↦ not_congr ⟨fun hid ↦ hid.2 ▸ Under.refl ns.up id, fun hunder ↦ ?_⟩
      rcases hunder.cases with rfl | ⟨q, hq, hq'⟩
      · exact ⟨(up_of_lookup hnode).symm.trans hc, rfl⟩
      · cases hc.symm.trans hq
        exact absurd hq' hp

/-- **A delete leaves a tree.** -/
theorem Tree.delete : (ns.delete id).1.Tree := by
  have hnode : ∀ x node, (ns.delete id).1.nodes.lookup x = some node →
      ¬ Under ns.up id x ∧ ns.nodes.lookup x = some node := by
    intro x node hx
    have hunder : ¬ Under ns.up id x := by
      intro hunder
      cases (h.delete_lookup_of_under hunder).symm.trans hx
    exact ⟨hunder, (h.delete_lookup_of_not_under hunder).symm.trans hx⟩
  have hroot : ∀ r, (ns.delete id).1.root = some r ↔ ns.root = some r ∧ ¬ Under ns.up id r := by
    intro r
    have hunder : ns.root = some r → (Under ns.up id r ↔ r = id) := by
      intro hr
      refine ⟨fun hunder ↦ ?_, fun hid ↦ hid ▸ Under.refl ns.up r⟩
      rcases hunder.cases with rfl | ⟨p, hp, -⟩
      · rfl
      · cases (h.up_root hr).symm.trans hp
    by_cases hid : ∃ node, ns.nodes.lookup id = some node
    · rw [delete_root ns id hid]
      by_cases hr : ns.root = some id
      · rw [if_pos hr]
        refine iff_of_false (fun h ↦ by cases h) fun hr' ↦ hr'.2 ((hunder hr'.1).mpr ?_)
        cases hr.symm.trans hr'.1
        rfl
      · rw [if_neg hr]
        refine ⟨fun hr' ↦ ⟨hr', fun hu ↦ hr ?_⟩, And.left⟩
        rw [← (hunder hr').mp hu]
        exact hr'
    · have hnone : ns.nodes.lookup id = none :=
        Option.eq_none_iff_forall_not_mem.mpr fun node hmem ↦ hid ⟨node, hmem⟩
      have hsame : (ns.delete id).1.root = ns.root := by
        rw [Namespace.delete, hnone]
        rfl
      rw [hsame]
      refine ⟨fun hr ↦ ⟨hr, fun hu ↦ hid ?_⟩, And.left⟩
      rw [← (hunder hr).mp hu]
      exact ⟨_, h.top r hr⟩
  refine ⟨fun p c ↦ ?_, fun c p hc ↦ ?_, fun x node hx ↦ ?_, fun r hr ↦ ?_⟩
  · rw [h.mem_delete_kids, h.delete_up_eq_some]
  · obtain ⟨hcp, hcu⟩ := h.delete_up_eq_some.mp hc
    obtain ⟨node, hp, hkind⟩ := h.parent c p hcp
    have hpu : ¬ Under ns.up id p := fun hpu ↦ hcu (Under.step hcp hpu)
    exact ⟨node, (h.delete_lookup_of_not_under hpu).trans hp, hkind⟩
  · obtain ⟨hxu, hx⟩ := hnode x node hx
    obtain ⟨r, hr, hunder⟩ := h.rooted x node hx
    have hru : ¬ Under ns.up id r := fun hru ↦ hxu (hru.trans hunder)
    exact ⟨r, (hroot r).mpr ⟨hr, hru⟩, (h.delete_under hxu).mpr hunder⟩
  · obtain ⟨hr, hru⟩ := (hroot r).mp hr
    exact (h.delete_lookup_of_not_under hru).trans (h.top r hr)

end Delete

/-! ## Attaching -/

theorem mem_insertInOrder {id x : String} {ids : List String} :
    x ∈ insertInOrder id ids ↔ x = id ∨ x ∈ ids := by
  rw [insertInOrder]
  split
  · rename_i hid
    exact ⟨Or.inr, fun h ↦ h.elim (fun hx ↦ hx ▸ hid) fun h ↦ h⟩
  · exact List.mem_orderedInsert _

theorem place_lookup (ns : Namespace) (previous : Option Node) (u : Upsert) (x : String) :
    (ns.place previous u).nodes.lookup x
      = if x = u.id then some ⟨some u.parent, u.name, u.kind⟩ else ns.nodes.lookup x := by
  rw [place]
  dsimp only
  rw [detach_nodes]
  split
  · rename_i hx
    rw [hx, AList.lookup_insert]
  · rename_i hx
    rw [AList.lookup_insert_ne hx]

@[simp] theorem place_root (ns : Namespace) (previous : Option Node) (u : Upsert) :
    (ns.place previous u).root = ns.root := detach_root ns _ _

theorem mem_place_kids (ns : Namespace) (previous : Option Node) (u : Upsert) (p c : String) :
    c ∈ (ns.place previous u).kids p ↔ p = u.parent ∧ c = u.id
      ∨ c ∈ ns.kids p ∧ ¬ (previous.bind Node.parent = some p ∧ c = u.id) := by
  have hplace : (ns.place previous u).kids p = if p = u.parent then insertInOrder u.id
      ((ns.detach (previous.bind Node.parent) u.id).kids u.parent)
      else (ns.detach (previous.bind Node.parent) u.id).kids p := by
    rw [kids, Walk.after, place]
    split
    · rename_i hp
      rw [hp, AList.lookup_insert]
      rfl
    · rename_i hp
      rw [AList.lookup_insert_ne hp]
      rfl
  rw [hplace]
  split
  · rename_i hp
    subst hp
    rw [mem_insertInOrder, mem_detach_kids, and_iff_right rfl]
  · rename_i hp
    rw [mem_detach_kids]
    exact ⟨Or.inr, fun h ↦ h.resolve_left fun hp' ↦ hp hp'.1⟩

/-- Where nothing stops the walk upwards, `id` is not above where it starts. -/
theorem not_under_of_meets {id : String} :
    ∀ {n : ℕ} {cur : String}, ns.meets id n cur = false → ¬ Under ns.up id cur := by
  intro n
  induction n with
  | zero => exact fun h ↦ by cases h
  | succ n ih =>
    intro cur h hunder
    rw [meets] at h
    by_cases hcur : cur = id
    · rw [if_pos hcur] at h
      cases h
    · rw [if_neg hcur] at h
      rcases hunder.cases with hid | ⟨p, hp, hunder⟩
      · exact hcur hid
      · rw [hp] at h
        exact ih h hunder

/-- The walk upwards ends in time from a node that is not too deep. -/
theorem meets_eq_false_iff {id cur : String} {n d : ℕ} (hd : Depth ns.up cur d)
    (hapart : ¬ Under ns.up id cur) : ns.meets id n cur = false ↔ d < n := by
  induction hd generalizing n with
  | @top x htop =>
    have hne : x ≠ id := fun heq ↦ hapart (heq ▸ Under.refl ns.up x)
    match n with
    | 0 => simp [meets]
    | n + 1 =>
      rw [meets, if_neg hne, htop]
      simp
  | @step x p d hp _ ih =>
    have hne : x ≠ id := fun heq ↦ hapart (heq ▸ Under.refl ns.up x)
    match n with
    | 0 => simp [meets]
    | n + 1 =>
      rw [meets, if_neg hne, hp]
      dsimp only
      rw [ih fun hunder ↦ hapart (Under.step hp hunder), Nat.succ_lt_succ_iff]

/-- What makes an item fit where it is to be attached: the parent is there and can contain it, and
does not lie beneath it. -/
structure Fits (ns : Namespace) (u : Upsert) : Prop where
  parent : ∃ node, ns.nodes.lookup u.parent = some node ∧ node.kind.tag ≠ .file
  apart : ¬ Under ns.up u.id u.parent

/-- The shape of an item is not that of the node it takes the place of. -/
def Reshapes (ns : Namespace) (u : Upsert) : Prop :=
  (ns.nodes.lookup u.id).any (fun prev ↦ prev.kind.tag ≠ u.kind.tag) = true

instance (ns : Namespace) (u : Upsert) : Decidable (ns.Reshapes u) :=
  inferInstanceAs (Decidable (_ = true))

theorem reshapes_iff {u : Upsert} : ns.Reshapes u
    ↔ ∃ prev, ns.nodes.lookup u.id = some prev ∧ prev.kind.tag ≠ u.kind.tag := by
  rw [Reshapes, Option.any_eq_true]
  simp

/-- The tree to which an item is attached: the old shape has gone. -/
def cleared (ns : Namespace) (u : Upsert) : Namespace :=
  if ns.Reshapes u then (ns.delete u.id).1 else ns

theorem attach_eq (ns : Namespace) (u : Upsert) :
    (ns.attach u).1 = (ns.cleared u).place (ns.nodes.lookup u.id) u := by
  rw [attach_fst]
  rfl

section Attach

variable (h : ns.Tree) {u : Upsert}
include h

theorem Tree.cleared : (ns.cleared u).Tree := by
  rw [Namespace.cleared]
  split
  · exact h.delete
  · exact h

theorem Tree.cleared_lookup_of_not_under {x : String} (hx : ¬ Under ns.up u.id x) :
    (ns.cleared u).nodes.lookup x = ns.nodes.lookup x := by
  rw [Namespace.cleared]
  split
  · exact h.delete_lookup_of_not_under hx
  · rfl

theorem Tree.cleared_under {a x : String} (hx : ¬ Under ns.up u.id x) :
    Under (ns.cleared u).up a x ↔ Under ns.up a x :=
  under_frame (fun _ hy ↦ up_congr (h.cleared_lookup_of_not_under hy)) hx

/-- Clearing leaves the node as it was, or takes it away. -/
theorem Tree.cleared_lookup_self : (ns.cleared u).nodes.lookup u.id
    = if ns.Reshapes u then none else ns.nodes.lookup u.id := by
  rw [Namespace.cleared]
  split
  · exact h.delete_lookup_of_under (Under.refl ns.up u.id)
  · rfl

omit h in
theorem attach_up_of_ne {x : String} (hx : x ≠ u.id) :
    (ns.attach u).1.up x = (ns.cleared u).up x := by
  rw [attach_eq]
  exact up_congr ((place_lookup _ _ _ _).trans (if_neg hx))

omit h in
theorem attach_lookup_self : (ns.attach u).1.nodes.lookup u.id
    = some ⟨some u.parent, u.name, u.kind⟩ := by
  rw [attach_eq, place_lookup, if_pos rfl]

omit h in
theorem attach_up_self : (ns.attach u).1.up u.id = some u.parent :=
  up_of_lookup attach_lookup_self

omit h in
theorem attach_lookup_of_ne {x : String} (hx : x ≠ u.id) :
    (ns.attach u).1.nodes.lookup x = (ns.cleared u).nodes.lookup x := by
  rw [attach_eq, place_lookup, if_neg hx]

theorem Tree.cleared_apart (hfits : ns.Fits u) : ¬ Under (ns.cleared u).up u.id u.parent :=
  fun hunder ↦ hfits.apart ((h.cleared_under hfits.apart).mp hunder)

theorem Tree.cleared_parent (hfits : ns.Fits u) :
    ∃ node, (ns.cleared u).nodes.lookup u.parent = some node ∧ node.kind.tag ≠ .file := by
  rw [h.cleared_lookup_of_not_under hfits.apart]
  exact hfits.parent

/-- **Attaching an item leaves a tree.** -/
theorem Tree.attach (hfits : ns.Fits u) : (ns.attach u).1.Tree := by
  have hc : (ns.cleared u).Tree := h.cleared
  have hapart := h.cleared_apart hfits
  have hne : u.parent ≠ u.id := fun heq ↦ hapart (heq ▸ Under.refl _ _)
  have hup : ∀ x, x ≠ u.id → (ns.attach u).1.up x = (ns.cleared u).up x :=
    fun _ ↦ attach_up_of_ne
  obtain ⟨parent, hparent, hkind⟩ := h.cleared_parent hfits
  obtain ⟨r, hr, hunder⟩ := hc.rooted u.parent parent hparent
  have hrne : r ≠ u.id := fun heq ↦ hapart (heq ▸ hunder)
  have hroot : (ns.attach u).1.root = (ns.cleared u).root := by rw [attach_eq, place_root]
  have hunder' : Under (ns.attach u).1.up r u.parent :=
    (under_move_of_not_under hup hapart).mpr hunder
  refine ⟨fun p c ↦ ?_, fun c p hcp ↦ ?_, fun x node hx ↦ ?_, fun r' hr' ↦ ?_⟩
  · rw [attach_eq, mem_place_kids, ← attach_eq, hc.kids]
    by_cases hcu : c = u.id
    · subst hcu
      rw [attach_up_self]
      constructor
      · rintro (⟨rfl, -⟩ | ⟨hcp, hnot⟩)
        · rfl
        · -- it was not beneath any parent but the one it was detached from
          obtain ⟨node, hnode, hnp⟩ := lookup_of_up hcp
          rw [h.cleared_lookup_self] at hnode
          split at hnode
          · cases hnode
          · exact absurd ⟨by rw [hnode]; exact hnp, rfl⟩ hnot
      · intro hp
        exact Or.inl ⟨(Option.some_inj.mp hp).symm, rfl⟩
    · rw [hup c hcu]
      exact ⟨fun hor ↦ (hor.resolve_left fun h ↦ hcu h.2).1,
        fun hcp ↦ Or.inr ⟨hcp, fun h ↦ hcu h.2⟩⟩
  · by_cases hcu : c = u.id
    · subst hcu
      rw [attach_up_self] at hcp
      cases hcp
      exact ⟨parent, (attach_lookup_of_ne hne).trans hparent, hkind⟩
    · rw [hup c hcu] at hcp
      obtain ⟨node, hnode, hnk⟩ := hc.parent c p hcp
      by_cases hpu : p = u.id
      · subst hpu
        -- the node has a child, so it has not been reshaped, and is no file
        rw [h.cleared_lookup_self] at hnode
        split at hnode
        · cases hnode
        · rename_i hre
          refine ⟨_, attach_lookup_self, fun hfile ↦ hre (reshapes_iff.mpr ⟨node, hnode, fun htag ↦ hnk ?_⟩)⟩
          exact htag.trans hfile
      · exact ⟨node, (attach_lookup_of_ne hpu).trans hnode, hnk⟩
  · refine ⟨r, hroot.trans hr, ?_⟩
    by_cases hxu : x = u.id
    · subst hxu
      exact Under.step attach_up_self hunder'
    · rw [attach_lookup_of_ne hxu] at hx
      obtain ⟨r', hr', hxr⟩ := hc.rooted x node hx
      cases hr.symm.trans hr'
      by_cases hxunder : Under (ns.cleared u).up u.id x
      · obtain ⟨n, hn⟩ := hc.exists_depth hx
        exact (under_move_of_under attach_up_self hup hapart hn hxunder).mpr (Or.inr hunder)
      · exact (under_move_of_not_under hup hxunder).mpr hxr
  · rw [hroot] at hr'
    cases hr.symm.trans hr'
    exact (attach_lookup_of_ne hrne).trans (hc.top r hr)

end Attach

/-! ## What an item can do -/

/-- Why an item is refused, if it is. -/
def refusal (ns : Namespace) (u : Upsert) : Option Problem :=
  match badName u.name with
  | some why => some (.badName why)
  | none =>
    match ns.nodes.lookup u.parent with
    | none => none
    | some parent =>
      if parent.kind.tag = .file then some .parentCannotContain
      else if ns.wouldCycle u.id u.parent then some .cycle
      else none

/-- Everything an item can do, and when it does it. -/
inductive Outcome (ns : Namespace) : Item → Namespace × Option String × List Change → Prop
  | foreign (id r : String) : ns.root = some r → r ≠ id → Outcome ns (.root id)
      ({ ns with problems := ns.problems.insert id .foreignRoot }, none, [])
  | root (id : String) : (∀ r, ns.root = some r → r = id) → Outcome ns (.root id)
      ({ ns with root := some id, nodes := ns.nodes.insert id ⟨none, "", .folder none⟩ }, some id,
        [.folderUpserted id "" none])
  | refused (u : Upsert) (why : Problem) : ns.refusal u = some why → Outcome ns (.upsert u)
      (ns.refuse u.id why, none, [])
  | held (u : Upsert) : ns.refusal u = none → ns.nodes.lookup u.parent = none →
      Outcome ns (.upsert u) ({ ns with waiting := ns.waiting ++ [u] }, none, [])
  | attached (u : Upsert) : ns.refusal u = none → ns.Fits u → Outcome ns (.upsert u)
      ((ns.attach u).1, some u.id, (ns.attach u).2)
  | deleted (id : String) : Outcome ns (.delete id) ((ns.delete id).1, none, (ns.delete id).2)

theorem applyOne_outcome (ns : Namespace) (item : Item) : ns.Outcome item (ns.applyOne item) := by
  match item with
  | .root id =>
    rw [applyOne]
    split
    · rename_i hroot
      obtain ⟨r, hr⟩ : ∃ r, ns.root = some r := by
        refine Option.ne_none_iff_exists'.mp fun hnone ↦ ?_
        rw [hnone] at hroot
        cases hroot
      rw [hr] at hroot
      exact .foreign id r hr (of_decide_eq_true hroot)
    · rename_i hroot
      refine .root id fun r hr ↦ ?_
      rw [hr] at hroot
      by_contra hne
      exact hroot (decide_eq_true hne)
  | .delete id => exact .deleted id
  | .upsert u =>
    rw [applyOne, upsert]
    have hrefusal : ns.refusal u = _ := refusal.eq_def ns u
    split
    · rename_i why hbad
      rw [hbad] at hrefusal
      exact .refused u _ hrefusal
    · rename_i hbad
      rw [hbad] at hrefusal
      split
      · rename_i hparent
        rw [hparent] at hrefusal
        exact .held u hrefusal hparent
      · rename_i parent hparent
        rw [hparent] at hrefusal
        dsimp only at hrefusal
        split
        · rename_i hfile
          rw [if_pos hfile] at hrefusal
          exact .refused u _ hrefusal
        · rename_i hfile
          rw [if_neg hfile] at hrefusal
          split
          · rename_i hcycle
            rw [if_pos hcycle] at hrefusal
            exact .refused u _ hrefusal
          · rename_i hcycle
            rw [if_neg hcycle] at hrefusal
            have hmeets : ns.meets u.id maxDepth u.parent = false := Bool.eq_false_iff.mpr hcycle
            exact .attached u hrefusal ⟨⟨parent, hparent, hfile⟩, not_under_of_meets hmeets⟩

theorem applyOne_of_refusal {u : Upsert} {why : Problem} (h : ns.refusal u = some why) :
    ns.applyOne (.upsert u) = (ns.refuse u.id why, none, []) := by
  have hout := ns.applyOne_outcome (.upsert u)
  generalize ns.applyOne (.upsert u) = r at hout
  cases hout with
  | refused _ why' hwhy' => rw [Option.some_inj.mp (h.symm.trans hwhy')]
  | held _ hnone _ => exact nomatch h.symm.trans hnone
  | attached _ hnone _ => exact nomatch h.symm.trans hnone

/-- An item that is not refused and whose parent is there is attached. -/
theorem applyOne_of_parent {u : Upsert} {parent : Node} (h : ns.refusal u = none)
    (hparent : ns.nodes.lookup u.parent = some parent) :
    ns.applyOne (.upsert u) = ((ns.attach u).1, some u.id, (ns.attach u).2) := by
  have hout := ns.applyOne_outcome (.upsert u)
  generalize ns.applyOne (.upsert u) = r at hout
  cases hout with
  | refused _ why hwhy => exact nomatch h.symm.trans hwhy
  | held _ _ hnone => exact nomatch hnone.symm.trans hparent
  | attached _ _ _ => rfl

@[simp] theorem refuse_nodes (ns : Namespace) (id : String) (why : Problem) :
    (ns.refuse id why).nodes = ns.nodes := rfl

@[simp] theorem refuse_children (ns : Namespace) (id : String) (why : Problem) :
    (ns.refuse id why).children = ns.children := rfl

@[simp] theorem refuse_root (ns : Namespace) (id : String) (why : Problem) :
    (ns.refuse id why).root = ns.root := rfl

theorem root_eq_none {id : String} (hid : ∀ r, ns.root = some r → r = id)
    (hroot : ns.root ≠ some id) : ns.root = none :=
  Option.eq_none_iff_forall_ne_some.mpr fun r hr ↦ hroot (hid r hr ▸ hr)

/-- Where there is no root, there are no nodes. -/
theorem Tree.lookup_of_no_root (h : ns.Tree) (hroot : ns.root = none) (x : String) :
    ns.nodes.lookup x = none := by
  by_contra hx
  obtain ⟨node, hnode⟩ := Option.ne_none_iff_exists'.mp hx
  obtain ⟨r, hr, -⟩ := h.rooted x node hnode
  exact nomatch hroot.symm.trans hr

/-- The root item makes the id the root of a tree without one. -/
theorem Tree.root (h : ns.Tree) {id : String} (hid : ∀ r, ns.root = some r → r = id) :
    ({ ns with root := some id, nodes := ns.nodes.insert id ⟨none, "", .folder none⟩ } :
      Namespace).Tree := by
  have hsame : ∀ x, x ≠ id → (ns.nodes.insert id (⟨none, "", .folder none⟩ : Node)).lookup x
      = ns.nodes.lookup x := fun x hx ↦ AList.lookup_insert_ne hx
  by_cases hroot : ns.root = some id
  · refine h.congr (fun x ↦ ?_) (fun _ _ ↦ Iff.rfl) hroot.symm
    by_cases hx : x = id
    · subst hx
      exact (AList.lookup_insert _).trans (h.top x hroot).symm
    · exact hsame x hx
  · have hnone := h.lookup_of_no_root (root_eq_none hid hroot)
    have hup : ∀ x, ({ ns with
        root := some id, nodes := ns.nodes.insert id ⟨none, "", .folder none⟩ } :
        Namespace).up x = none := by
      intro x
      by_cases hx : x = id
      · subst hx
        rw [up, AList.lookup_insert]
        rfl
      · exact up_of_not_lookup ((hsame x hx).trans (hnone x))
    refine ⟨fun p c ↦ ?_, fun c p hc ↦ ?_, fun x node hx ↦ ?_, fun r hr ↦ ?_⟩
    · rw [hup c]
      refine (h.kids p c).trans ?_
      rw [up_of_not_lookup (hnone c)]
    · cases (hup c).symm.trans hc
    · by_cases hxid : x = id
      · subst hxid
        exact ⟨x, rfl, Under.refl _ x⟩
      · cases (hnone x).symm.trans ((hsame x hxid).symm.trans hx)
    · cases hr
      exact AList.lookup_insert _

/-- **Whatever an item says, a tree stays a tree.** -/
theorem Tree.applyOne (h : ns.Tree) (item : Item) : (ns.applyOne item).1.Tree := by
  have hout := ns.applyOne_outcome item
  generalize ns.applyOne item = r at hout
  cases hout with
  | foreign id r _ _ => exact h.congr (fun _ ↦ rfl) (fun _ _ ↦ Iff.rfl) rfl
  | root id hid => exact h.root hid
  | refused u why _ => exact h.congr (fun _ ↦ rfl) (fun _ _ ↦ Iff.rfl) rfl
  | held u _ _ => exact h.congr (fun _ ↦ rfl) (fun _ _ ↦ Iff.rfl) rfl
  | attached u _ hfits => exact h.attach hfits
  | deleted id => exact h.delete

theorem Tree.workOff (h : ns.Tree) (item : Item) (work : List Item) :
    (ns.workOff item work).1.Tree := by
  have hone := h.applyOne item
  rw [Namespace.workOff]
  generalize ns.applyOne item = r at hone
  obtain ⟨ns', attached, out⟩ := r
  cases attached with
  | none => exact hone
  | some id => exact hone.congr (fun _ ↦ rfl) (fun _ _ ↦ Iff.rfl) rfl

/-- What holds of the work at hand and is kept by every item that is worked off holds when nothing
is left to be done. -/
theorem settle_induction {P : Namespace → List Item → List Change → Prop}
    (hstep : ∀ ns item work out, P ns (item :: work) out →
      P (ns.workOff item work).1 (ns.workOff item work).2.1 (out ++ (ns.workOff item work).2.2))
    {work : List Item} {out : List Change} (h : P ns work out) :
    P (ns.settle work out).1 [] (ns.settle work out).2 := by
  fun_induction settle ns work out with
  | case1 ns out => exact h
  | case2 ns out item work ih => exact ih (hstep ns item work out h)

theorem Tree.apply (h : ns.Tree) (item : Item) : (ns.apply item).1.Tree :=
  settle_induction (P := fun ns _ _ ↦ ns.Tree) (fun _ item work _ h ↦ h.workOff item work) h

theorem Tree.applyAll (h : ns.Tree) (items : List Item) : (ns.applyAll items).Tree := by
  induction items generalizing ns with
  | nil => exact h
  | cons item items ih => exact ih (h.apply item)

theorem Tree.restore (items : List Item) : (Namespace.restore items).Tree :=
  (Tree.new.applyAll items).congr (fun _ ↦ rfl) (fun _ _ ↦ Iff.rfl) rfl

end Namespace

end HydrationAPI.Client
