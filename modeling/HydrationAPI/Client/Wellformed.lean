import HydrationAPI.Client.Tree
import Mathlib.Data.String.Basic

/-!
# What holds of every namespace

Beside being a tree, a namespace that came about by applying items holds nothing for a parent that
is there: what waits for a node is applied when the node attaches. Names have been judged, and the
children of a node are in order. The loop that applies an item comes to an end, since what waits can
become work only once.
-/

namespace HydrationAPI.Client

open Ancestry

namespace Namespace

variable {ns : Namespace}

/-! ## What waits -/

/-- Nothing waits for a parent that is there. -/
def Unmet (ns : Namespace) : Prop := ∀ u ∈ ns.waiting, ns.nodes.lookup u.parent = none

/-- A delete adds no node. -/
theorem delete_lookup_or (ns : Namespace) (id x : String) :
    (ns.delete id).1.nodes.lookup x = none
      ∨ (ns.delete id).1.nodes.lookup x = ns.nodes.lookup x := by
  rw [delete]
  split
  · exact Or.inr rfl
  · dsimp only
    rw [detach_nodes, drop_lookup, foldl_drop_lookup]
    split
    · exact Or.inl rfl
    · split
      · exact Or.inl rfl
      · exact Or.inr rfl

/-- Attaching an item adds no other node. -/
theorem attach_lookup_or (ns : Namespace) {u : Upsert} {x : String} (hx : x ≠ u.id) :
    (ns.attach u).1.nodes.lookup x = none
      ∨ (ns.attach u).1.nodes.lookup x = ns.nodes.lookup x := by
  rw [attach_lookup_of_ne hx, cleared]
  split
  · exact ns.delete_lookup_or u.id x
  · exact Or.inr rfl

/-- What was not there is not there after a change that adds no node. -/
theorem Unmet.mono {ns' : Namespace} (h : ns.Unmet) (hsub : ns'.waiting ⊆ ns.waiting)
    (hnodes : ∀ u ∈ ns'.waiting, ns'.nodes.lookup u.parent = none
      ∨ ns'.nodes.lookup u.parent = ns.nodes.lookup u.parent) : ns'.Unmet := by
  intro u hu
  rcases hnodes u hu with hnone | hsame
  · exact hnone
  · exact hsame.trans (h u (hsub hu))

theorem mem_dropBucket {waiting : List Upsert} {id : String} {u : Upsert} :
    u ∈ dropBucket waiting id ↔ u ∈ waiting ∧ u.parent ≠ id := by
  simp [dropBucket]

theorem Unmet.workOff (h : ns.Unmet) (item : Item) (work : List Item) :
    (ns.workOff item work).1.Unmet := by
  have hout := ns.applyOne_outcome item
  rw [Namespace.workOff]
  generalize ns.applyOne item = r at hout
  cases hout with
  | foreign id r _ _ => exact h
  | root id hid =>
    refine Unmet.mono h (fun u hu ↦ (mem_dropBucket.mp hu).1) fun u hu ↦ Or.inr ?_
    exact AList.lookup_insert_ne (mem_dropBucket.mp hu).2
  | refused u why _ => exact Unmet.mono h (refuseFrom_sublist _ _ _ _).subset fun _ _ ↦ Or.inr rfl
  | held u _ hparent =>
    intro v hv
    rcases List.mem_append.mp hv with hv | hv
    · exact h v hv
    · obtain rfl := List.mem_singleton.mp hv
      exact hparent
  | attached u _ _ =>
    refine Unmet.mono h (fun v hv ↦ ?_) fun v hv ↦ ?_
    · exact (ns.attach_waiting_sublist u).subset (mem_dropBucket.mp hv).1
    · exact ns.attach_lookup_or (mem_dropBucket.mp hv).2
  | deleted id =>
    exact Unmet.mono h (ns.delete_waiting_sublist id).subset fun v _ ↦
      ns.delete_lookup_or id v.parent

/-! ## Names -/

/-- Every node but the root has a name that can be part of a path. -/
def Named (ns : Namespace) : Prop :=
  ∀ id node, ns.nodes.lookup id = some node → node.parent ≠ none → badName node.name = none

theorem Named.mono {ns' : Namespace} (h : ns.Named)
    (hnodes : ∀ id, ns'.nodes.lookup id = none ∨ ns'.nodes.lookup id = ns.nodes.lookup id) :
    ns'.Named := by
  intro id node hid
  rcases hnodes id with hnone | hsame
  · exact absurd (hnone.symm.trans hid).symm (Option.some_ne_none node)
  · exact h id node (hsame.symm.trans hid)

theorem badName_of_refusal {u : Upsert} (h : ns.refusal u = none) : badName u.name = none := by
  rw [refusal] at h
  split at h
  · cases h
  · assumption

theorem Named.workOff (h : ns.Named) (item : Item) (work : List Item) :
    (ns.workOff item work).1.Named := by
  have hout := ns.applyOne_outcome item
  rw [Namespace.workOff]
  generalize ns.applyOne item = r at hout
  cases hout with
  | foreign id r _ _ => exact h
  | root id hid =>
    intro x node hx hparent
    by_cases hxid : x = id
    · subst hxid
      obtain rfl := Option.some_inj.mp ((AList.lookup_insert _).symm.trans hx)
      exact absurd rfl hparent
    · exact h x node ((AList.lookup_insert_ne hxid).symm.trans hx) hparent
  | refused u why _ => exact h
  | held u _ _ => exact h
  | attached u hrefusal _ =>
    intro x node hx hparent
    by_cases hxu : x = u.id
    · subst hxu
      obtain rfl := Option.some_inj.mp (attach_lookup_self.symm.trans hx)
      exact badName_of_refusal hrefusal
    · rcases ns.attach_lookup_or hxu with hnone | hsame
      · exact absurd (hnone.symm.trans hx).symm (Option.some_ne_none node)
      · exact h x node (hsame.symm.trans hx) hparent
  | deleted id => exact Named.mono h fun x ↦ ns.delete_lookup_or id x

/-! ## The order of children -/

/-- The children of every node are in order, none twice. -/
def InOrder (ns : Namespace) : Prop := ∀ p, (ns.kids p).Pairwise (· < ·)

theorem orderedInsert_pairwise {id : String} {ids : List String} (h : ids.Pairwise (· < ·))
    (hid : id ∉ ids) : (ids.orderedInsert (fun a b ↦ ¬ b < a) id).Pairwise (· < ·) := by
  induction ids with
  | nil => exact List.pairwise_singleton _ _
  | cons x ids ih =>
    obtain ⟨hx, hids⟩ := List.pairwise_cons.mp h
    obtain ⟨hne, hid⟩ := not_or.mp (List.mem_cons.not.mp hid)
    rw [List.orderedInsert_cons]
    split
    · rename_i hle
      have hlt : id < x := lt_of_le_of_ne (not_lt.mp hle) hne
      refine List.pairwise_cons.mpr ⟨fun y hy ↦ ?_, h⟩
      rcases List.mem_cons.mp hy with rfl | hy
      · exact hlt
      · exact hlt.trans (hx y hy)
    · rename_i hlt
      refine List.pairwise_cons.mpr ⟨fun y hy ↦ ?_, ih hids hid⟩
      rcases (List.mem_orderedInsert _).mp hy with rfl | hy
      · exact not_not.mp hlt
      · exact hx y hy

theorem insertInOrder_pairwise {id : String} {ids : List String} (h : ids.Pairwise (· < ·)) :
    (insertInOrder id ids).Pairwise (· < ·) := by
  rw [insertInOrder]
  split
  · exact h
  · rename_i hid
    exact orderedInsert_pairwise h hid

theorem drop_kids_sublist (ns : Namespace) (id p : String) :
    ((ns.drop id).kids p).Sublist (ns.kids p) := by
  rw [drop_kids]
  split
  · exact List.nil_sublist _
  · exact List.Sublist.refl _

theorem detach_kids_sublist (ns : Namespace) (parent : Option String) (id p : String) :
    ((ns.detach parent id).kids p).Sublist (ns.kids p) := by
  unfold detach
  split
  · exact List.Sublist.refl _
  · rename_i parent
    split
    · exact List.Sublist.refl _
    · rename_i set hset
      rw [kids, kids, Walk.after, Walk.after]
      by_cases hp : p = parent
      · subst hp
        rw [AList.lookup_insert, hset]
        exact List.filter_sublist
      · rw [AList.lookup_insert_ne hp]

theorem delete_kids_sublist (ns : Namespace) (id p : String) :
    ((ns.delete id).1.kids p).Sublist (ns.kids p) := by
  rw [delete]
  split
  · exact List.Sublist.refl _
  · refine (detach_kids_sublist _ _ _ _).trans ((drop_kids_sublist _ _ _).trans ?_)
    rw [foldl_drop_kids]
    split
    · exact List.nil_sublist _
    · exact List.Sublist.refl _

theorem InOrder.place (h : ns.InOrder) (previous : Option Node) (u : Upsert) :
    (ns.place previous u).InOrder := by
  have hdetached : ∀ p, ((ns.detach (previous.bind Node.parent) u.id).kids p).Pairwise (· < ·) :=
    fun p ↦ (h p).sublist (ns.detach_kids_sublist _ _ p)
  intro p
  rw [kids, Walk.after, Namespace.place]
  by_cases hp : p = u.parent
  · subst hp
    rw [AList.lookup_insert]
    exact insertInOrder_pairwise (hdetached u.parent)
  · rw [AList.lookup_insert_ne hp]
    exact hdetached p

theorem InOrder.workOff (h : ns.InOrder) (item : Item) (work : List Item) :
    (ns.workOff item work).1.InOrder := by
  have hout := ns.applyOne_outcome item
  have hdelete : ∀ id, (ns.delete id).1.InOrder := fun id p ↦
    (h p).sublist (ns.delete_kids_sublist id p)
  rw [Namespace.workOff]
  generalize ns.applyOne item = r at hout
  cases hout with
  | foreign id r _ _ => exact h
  | root id hid => exact h
  | refused u why _ => exact h
  | held u _ _ => exact h
  | attached u _ _ =>
    have hcleared : (ns.cleared u).InOrder := by
      rw [cleared]
      split
      · exact hdelete u.id
      · exact h
    have hattach : (ns.attach u).1.InOrder := by
      rw [attach_eq]
      exact hcleared.place _ u
    exact hattach
  | deleted id => exact hdelete id

/-! ## The invariant -/

/-- **The structure of a namespace**: parents and children are inverse to each other, every node
lies beneath the root, files have no children, and nothing waits for a node. -/
structure Wellformed (ns : Namespace) : Prop where
  inverse : ∀ p c, c ∈ ns.kids p ↔ ns.up c = some p
  rooted : ∀ id node, ns.nodes.lookup id = some node → ∃ r, ns.root = some r ∧ Under ns.up r id
  childless : ∀ id node, ns.nodes.lookup id = some node → node.kind.tag = .file → ns.kids id = []
  unmet : ns.Unmet

/-- What holds of a namespace between two items. -/
structure Sound (ns : Namespace) : Prop where
  tree : ns.Tree
  unmet : ns.Unmet
  named : ns.Named
  inOrder : ns.InOrder

theorem Sound.new : Namespace.new.Sound where
  tree := Tree.new
  unmet _ hu := absurd hu List.not_mem_nil
  named _ _ hid := by cases hid
  inOrder _ := List.Pairwise.nil

theorem Sound.workOff (h : ns.Sound) (item : Item) (work : List Item) :
    (ns.workOff item work).1.Sound where
  tree := h.tree.workOff item work
  unmet := h.unmet.workOff item work
  named := h.named.workOff item work
  inOrder := h.inOrder.workOff item work

theorem Sound.apply (h : ns.Sound) (item : Item) : (ns.apply item).1.Sound :=
  settle_induction (P := fun ns _ _ ↦ ns.Sound) (fun _ item work _ h ↦ h.workOff item work) h

theorem Sound.applyAll (h : ns.Sound) (items : List Item) : (ns.applyAll items).Sound := by
  induction items generalizing ns with
  | nil => exact h
  | cons item items ih => exact ih (h.apply item)

theorem Sound.wellformed (h : ns.Sound) : ns.Wellformed where
  inverse := h.tree.kids
  rooted := h.tree.rooted
  childless id node hid hfile := by
    rw [List.eq_nil_iff_forall_not_mem]
    intro c hc
    obtain ⟨parent, hparent, hkind⟩ := h.tree.parent c id ((h.tree.kids id c).mp hc)
    obtain rfl := Option.some_inj.mp (hid.symm.trans hparent)
    exact hkind hfile
  unmet := h.unmet

/-! ## The loop -/

/-- One turn of the loop that applies an item. -/
def turn : Namespace × List Item → Namespace × List Item
  | (ns, []) => (ns, [])
  | (ns, item :: work) => ((ns.workOff item work).1, (ns.workOff item work).2.1)

/-- The loop comes to an end. -/
theorem exists_iterate_turn (ns : Namespace) (work : List Item) (out : List Change) :
    ∃ n, turn^[n] (ns, work) = ((ns.settle work out).1, []) := by
  fun_induction settle ns work out with
  | case1 ns out => exact ⟨0, rfl⟩
  | case2 ns out item work ih =>
    obtain ⟨n, hn⟩ := ih
    exact ⟨n + 1, hn⟩

/-- **Whatever items are applied, the namespace is well formed, and the next item is applied in
finitely many turns of the loop.** -/
theorem applyAll_wellformed (items : List Item) :
    (new.applyAll items).Wellformed ∧ ∀ item, ∃ n,
      turn^[n] (new.applyAll items, [item]) = (((new.applyAll items).apply item).1, []) :=
  ⟨(Sound.new.applyAll items).wellformed, fun item ↦ exists_iterate_turn _ [item] []⟩

end Namespace

end HydrationAPI.Client
