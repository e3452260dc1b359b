import HydrationAPI.Client.Held
import HydrationAPI.Client.Wellformed
import Mathlib.Data.List.Induction

/-!
# The last report of an object

Reports of one object may come again with another parent, and a report whose parent has not arrived
is held while later ones are placed. When nothing spoils the last report of an object, by refusing
it, by taking it away with something above it, or by putting an older report in its place, the tree
is made up of the last reports.
-/

namespace HydrationAPI.Client

open Ancestry

/-- The node a report makes. -/
def Upsert.node (u : Upsert) : Node := ⟨some u.parent, u.name, u.kind⟩

/-- The last report of an id. -/
def lastReport (us : List Upsert) (id : String) : Option Upsert := us.reverse.find? (·.id = id)

theorem lastReport_eq_some {us : List Upsert} {id : String} {u : Upsert} :
    lastReport us id = some u
      ↔ u.id = id ∧ ∃ a b, us = a ++ u :: b ∧ ∀ w ∈ b, w.id ≠ id := by
  rw [lastReport, List.find?_eq_some_iff_append, decide_eq_true_eq]
  refine and_congr_right fun _ ↦ ?_
  constructor
  · rintro ⟨b, a, h, hb⟩
    refine ⟨a.reverse, b.reverse, ?_, fun w hw ↦ ?_⟩
    · rw [← List.reverse_reverse us, h]
      simp
    · simpa using hb w (List.mem_reverse.mp hw)
  · rintro ⟨a, b, rfl, hb⟩
    exact ⟨b.reverse, a.reverse, by simp, fun w hw ↦ by simpa using hb w (List.mem_reverse.mp hw)⟩

namespace Namespace

variable {ns ns' : Namespace} {item : Item} {work : List Item} {u w : Upsert} {x : String}

/-- A fresh namespace with a root. -/
def rooted (r : String) : Namespace := (new.apply (.root r)).1

/-- The report `u` is worked off to the loss of the report `w`: `w` is refused, waits for something
that is refused, hangs from something that takes another shape, or is placed and `u` takes its
place. -/
def Spoils (ns : Namespace) (u w : Upsert) : Prop :=
  u = w ∧ ns.refusal u ≠ none ∨ u ≠ w
    ∧ (ns.refusal u ≠ none ∧ w ∈ ns.waiting
        ∧ Relation.ReflTransGen (WaitsFor ns.waiting) w.parent u.id
      ∨ ns.refusal u = none ∧ ns.Fits u ∧ (ns.Reshapes u ∧ ns.Hung u.id w.id
        ∨ u.id = w.id ∧ ns.nodes.lookup w.id = some w.node))

/-- The report is placed, waits, or is to be worked off. -/
def Kept (ns : Namespace) (work : List Item) (w : Upsert) : Prop :=
  ns.nodes.lookup w.id = some w.node ∨ w ∈ ns.waiting ∨ .upsert w ∈ work

/-- What is not refused with the ids does not wait for them, over any number of others. -/
theorem mem_refuseFrom {why : Problem} (stack : List String) {waiting : List Upsert}
    {problems : AList fun _ : String ↦ Problem} (hw : w ∈ waiting) :
    w ∈ (refuseFrom why stack waiting problems).1
      ∨ ∃ s ∈ stack, Relation.ReflTransGen (WaitsFor waiting) w.parent s := by
  fun_induction refuseFrom why stack waiting problems with
  | case1 waiting problems => exact Or.inl hw
  | case2 id stack waiting problems ih =>
    by_cases hparent : w.parent = id
    · exact Or.inr ⟨id, List.mem_cons_self, hparent ▸ .refl⟩
    · have hrest : w ∈ dropBucket waiting id := List.mem_filter.mpr ⟨hw, decide_eq_true hparent⟩
      refine (ih hrest).imp_right ?_
      rintro ⟨s, hs, hchain⟩
      have hsub : dropBucket waiting id ⊆ waiting := (dropBucket_sublist _ _).subset
      have hchain' : Relation.ReflTransGen (WaitsFor waiting) w.parent s :=
        Relation.ReflTransGen.mono (fun _ _ h ↦ WaitsFor.mono hsub h) _ _ hchain
      rcases List.mem_append.mp hs with hs | hs
      · obtain ⟨v, hv, rfl⟩ := List.mem_map.mp (List.mem_reverse.mp hs)
        have hwait := List.mem_filter.mp hv
        exact ⟨id, List.mem_cons_self, hchain'.tail ⟨v, hwait.1, rfl, of_decide_eq_true hwait.2⟩⟩
      · exact ⟨s, List.mem_cons_of_mem id hs, hchain'⟩

theorem Kept.workOff (h : (ns.applyOne item).1.Kept work w) :
    (ns.workOff item work).1.Kept (ns.workOff item work).2.1 w := by
  rw [Namespace.workOff]
  generalize ns.applyOne item = r at h
  obtain ⟨ns', attached, out⟩ := r
  cases attached with
  | none => exact h
  | some a =>
    rcases h with hnode | hwaits | hwork
    · exact Or.inl hnode
    · by_cases hparent : w.parent = a
      · refine Or.inr (Or.inr (List.mem_append_left _ (List.mem_reverse.mpr ?_)))
        exact List.mem_map_of_mem (List.mem_filter.mpr ⟨hwaits, decide_eq_true hparent⟩)
      · exact Or.inr (Or.inl (List.mem_filter.mpr ⟨hwaits, decide_eq_true hparent⟩))
    · exact Or.inr (Or.inr (List.mem_append_right _ hwork))

/-- **A report is kept** as long as nothing spoils it. -/
theorem Tree.kept_step (h : ns.Tree) (hkept : ns.Kept (.upsert u :: work) w)
    (hspoils : ¬ ns.Spoils u w) :
    (ns.workOff (.upsert u) work).1.Kept (ns.workOff (.upsert u) work).2.1 w := by
  refine Kept.workOff ?_
  have hout := ns.applyOne_outcome (.upsert u)
  generalize ns.applyOne (.upsert u) = r at hout
  cases hout with
  | refused _ why hwhy =>
    have hrefusal : ns.refusal u ≠ none := by
      rw [hwhy]
      exact Option.some_ne_none why
    have hne : u ≠ w := fun heq ↦ hspoils (Or.inl ⟨heq, hrefusal⟩)
    rcases hkept with hnode | hwaits | hwork
    · exact Or.inl hnode
    · rcases mem_refuseFrom [u.id] hwaits with hrest | ⟨s, hs, hchain⟩
      · exact Or.inr (Or.inl hrest)
      · cases List.mem_singleton.mp hs
        exact absurd (Or.inr ⟨hne, Or.inl ⟨hrefusal, hwaits, hchain⟩⟩) hspoils
    · rcases List.mem_cons.mp hwork with heq | hwork
      · exact absurd (Item.upsert.inj heq).symm hne
      · exact Or.inr (Or.inr hwork)
  | held _ _ _ =>
    rcases hkept with hnode | hwaits | hwork
    · exact Or.inl hnode
    · exact Or.inr (Or.inl (List.mem_append_left _ hwaits))
    · rcases List.mem_cons.mp hwork with heq | hwork
      · rw [Item.upsert.inj heq]
        exact Or.inr (Or.inl (List.mem_append_right _ (List.mem_singleton.mpr rfl)))
      · exact Or.inr (Or.inr hwork)
  | attached _ hrefusal hfits =>
    by_cases heq : u = w
    · subst heq
      exact Or.inl attach_lookup_self
    · have hnot : ¬ (ns.Reshapes u ∧ ns.Hung u.id w.id
          ∨ u.id = w.id ∧ ns.nodes.lookup w.id = some w.node) := fun hor ↦
        hspoils (Or.inr ⟨heq, Or.inr ⟨hrefusal, hfits, hor⟩⟩)
      rw [not_or] at hnot
      rcases hkept with hnode | hwaits | hwork
      · have hid : w.id ≠ u.id := fun hid ↦ hnot.2 ⟨hid.symm, hnode⟩
        refine Or.inl ((attach_lookup_of_ne hid).trans ?_)
        rw [Namespace.cleared]
        split
        · rename_i hre
          refine (h.delete_lookup_of_not_under fun hunder ↦ hnot.1 ⟨hre, ?_⟩).trans hnode
          exact hung_of_under hunder
        · exact hnode
      · refine Or.inr (Or.inl ?_)
        rw [attach_eq, place_waiting, Namespace.cleared]
        split
        · rename_i hre
          exact h.mem_delete_waiting hwaits fun hhung ↦ hnot.1 ⟨hre, hhung⟩
        · exact hwaits
      · rcases List.mem_cons.mp hwork with hwu | hwork
        · exact absurd (Item.upsert.inj hwu).symm heq
        · exact Or.inr (Or.inr hwork)

/-! ## Nothing waits for a node -/

/-- The parents of what waits have not arrived. -/
def Awaits (ns : Namespace) : Prop := ∀ u ∈ ns.waiting, ns.nodes.lookup u.parent = none

/-- An item makes no node but its own. -/
theorem Tree.lookup_of_applyOne (h : ns.Tree) {node : Node}
    (hx : (ns.applyOne item).1.nodes.lookup x = some node) :
    (ns.applyOne item).2.1 = some x ∧ x = item.id ∨ ∃ node, ns.nodes.lookup x = some node := by
  have hout := ns.applyOne_outcome item
  generalize ns.applyOne item = r at hout hx
  cases hout with
  | foreign id r _ _ => exact Or.inr ⟨node, hx⟩
  | root id _ =>
    by_cases hxid : x = id
    · exact Or.inl ⟨congrArg some hxid.symm, hxid⟩
    · exact Or.inr ⟨node, (AList.lookup_insert_ne hxid).symm.trans hx⟩
  | refused u why _ => exact Or.inr ⟨node, hx⟩
  | held u _ _ => exact Or.inr ⟨node, hx⟩
  | attached u _ _ =>
    by_cases hxu : x = u.id
    · exact Or.inl ⟨congrArg some hxu.symm, hxu⟩
    · rw [attach_lookup_of_ne hxu] at hx
      rw [Namespace.cleared] at hx
      split at hx
      · refine Or.inr ⟨node, (h.delete_lookup_of_not_under fun hunder ↦ ?_).symm.trans hx⟩
        cases (h.delete_lookup_of_under hunder).symm.trans hx
      · exact Or.inr ⟨node, hx⟩
  | deleted id =>
    refine Or.inr ⟨node, (h.delete_lookup_of_not_under fun hunder ↦ ?_).symm.trans hx⟩
    cases (h.delete_lookup_of_under hunder).symm.trans hx

/-! ## A run of reports -/

@[simp] theorem rooted_eq (r : String) : rooted r
    = ⟨AList.insert r ⟨none, "", .folder none⟩ ∅, ∅, some r, [], ∅⟩ := by
  rw [rooted, apply_of_done rfl]
  rfl

theorem tree_rooted (r : String) : (rooted r).Tree := Tree.new.apply (.root r)

theorem rooted_lookup (r x : String) :
    (rooted r).nodes.lookup x = if x = r then some ⟨none, "", .folder none⟩ else none := by
  rw [rooted_eq]
  split
  · rename_i hx
    rw [hx]
    exact AList.lookup_insert _
  · rename_i hx
    exact (AList.lookup_insert_ne hx).trans rfl

/-- The tree after the reports have been fed to a fresh namespace with a root. -/
def reported (r : String) (us : List Upsert) : Namespace := (rooted r).applyAll (us.map .upsert)

/-- The parents of the last reports. -/
def lastUp (us : List Upsert) (id : String) : Option String := (lastReport us id).map Upsert.parent

/-- The node the last reports make of an id. -/
def lastNode (r : String) (us : List Upsert) (id : String) : Option Node :=
  if id = r then some ⟨none, "", .folder none⟩ else (lastReport us id).map Upsert.node

/-- The last reports make up a tree beneath the root. -/
structure LastTree (r : String) (us : List Upsert) : Prop where
  names : ∀ u ∈ us, badName u.name = none
  root : ∀ u ∈ us, u.id ≠ r
  under : ∀ u ∈ us, Under (lastUp us) r u.id
  holds : ∀ u, lastReport us u.id = some u → u.parent = r
    ∨ ∃ p, lastReport us u.parent = some p ∧ p.kind.tag ≠ .file

variable {r : String} {us : List Upsert}

/-- Everything in a run of reports has been reported. -/
structure Only (r : String) (us : List Upsert) (ns : Namespace) (work : List Item) : Prop where
  tree : ns.Tree
  nodes : ∀ x node, ns.nodes.lookup x = some node → x = r ∨ ∃ u ∈ us, u.id = x
  waiting : ∀ u ∈ ns.waiting, u ∈ us
  items : ∀ item ∈ work, ∃ u ∈ us, item = .upsert u

theorem Only.step (h : Only r us ns (item :: work)) :
    Only r us (ns.workOff item work).1 (ns.workOff item work).2.1 := by
  obtain ⟨v, hv, rfl⟩ := h.items item List.mem_cons_self
  have hwaiting : ∀ u ∈ (ns.applyOne (.upsert v)).1.waiting, u ∈ us := by
    rcases ns.applyOne_waiting (.upsert v) with ⟨-, w, hw, -, hheld⟩ | hsub
    · rw [hheld]
      intro u hu
      rcases List.mem_append.mp hu with hu | hu
      · exact h.waiting u hu
      · rw [List.mem_singleton.mp hu, ← Item.upsert.inj hw]
        exact hv
    · exact fun u hu ↦ h.waiting u (hsub.subset hu)
  refine ⟨h.tree.workOff _ _, fun x node hx ↦ ?_, fun u hu ↦ ?_, fun item hitem ↦ ?_⟩
  · rw [workOff_nodes] at hx
    rcases h.tree.lookup_of_applyOne hx with ⟨-, rfl⟩ | ⟨node', hnode'⟩
    · exact Or.inr ⟨v, hv, rfl⟩
    · exact h.nodes x node' hnode'
  · obtain ⟨waiting, hsub, heq⟩ := ns.workOff_eq (.upsert v) work
    rw [heq] at hu
    exact hwaiting u (hsub.subset hu)
  · rcases mem_workOff hitem with hitem | ⟨u, hu, rfl⟩
    · exact h.items item (List.mem_cons_of_mem _ hitem)
    · exact ⟨u, hwaiting u hu, rfl⟩

theorem only_rooted (r : String) (us : List Upsert) : Only r us (rooted r) [] := by
  refine ⟨tree_rooted r, fun x node hx ↦ ?_, fun u hu ↦ ?_, fun item hitem ↦ ?_⟩
  · rw [rooted_lookup] at hx
    split at hx
    · rename_i hxr
      exact Or.inl hxr
    · cases hx
  · rw [rooted_eq] at hu
    cases hu
  · cases hitem

theorem only_reported (r : String) (us : List Upsert) : Only r us (reported r us) [] := by
  refine applyAll_induction (P := fun ns work ↦ Only r us ns work) ?_
    (fun ns' item work _ h ↦ h.step) (only_rooted r us)
  intro ns' it hit h
  refine ⟨h.tree, h.nodes, h.waiting, fun item hitem ↦ ?_⟩
  obtain ⟨u, hu, rfl⟩ := List.mem_map.mp hit
  exact ⟨u, hu, List.mem_singleton.mp hitem⟩

/-- Nothing is deleted in a run of reports, so the root stays. -/
theorem reported_root (r : String) (us : List Upsert) : (reported r us).root = some r := by
  refine (tree_rooted r).applyAll_root (by rw [rooted_eq]) fun first last h ↦ ?_
  have hmem : Item.delete r ∈ us.map Item.upsert := h ▸ List.mem_append_right _ List.mem_cons_self
  obtain ⟨u, -, hu⟩ := List.mem_map.mp hmem
  cases hu

theorem awaits_reported (r : String) (us : List Upsert) : (reported r us).Awaits := by
  refine (applyAll_induction (P := fun ns _ ↦ ns.Tree ∧ ns.Awaits) (fun _ _ _ h ↦ h)
    (fun ns' item work _ h ↦ ⟨h.1.workOff item work, Unmet.workOff h.2 item work⟩)
    ⟨tree_rooted r, fun u hu ↦ ?_⟩).2
  rw [rooted_eq] at hu
  cases hu

/-- A report that is not spoiled once it is fed is kept. -/
theorem kept_reported {first last : List Upsert}
    (hspoils : ∀ ns' u, Course (reported r first) ((w :: last).map .upsert) ns' (.upsert u) →
      ¬ ns'.Spoils u w) : (reported r (first ++ w :: last)).Kept [] w := by
  rw [reported, List.map_append, applyAll_append, List.map_cons]
  have hups : ∀ item ∈ last.map Item.upsert, ∃ u, item = .upsert u := by
    intro item hitem
    obtain ⟨u, -, rfl⟩ := List.mem_map.mp hitem
    exact ⟨u, rfl⟩
  refine (applyAll_cons_induction (P := fun ns' work ↦ ns'.Tree ∧ ns'.Kept work w
    ∧ ∀ item ∈ work, ∃ u, item = .upsert u) ?_ ?_ ?_).2.1
  · rintro ns' x hx ⟨htree, hkept, -⟩
    refine ⟨htree, hkept.imp_right (Or.imp_right fun h ↦ absurd h List.not_mem_nil),
      fun item hitem ↦ ?_⟩
    rw [List.mem_singleton.mp hitem]
    exact hups x hx
  · rintro ns' item work hcourse ⟨htree, hkept, hwork⟩
    obtain ⟨u, rfl⟩ := hwork item List.mem_cons_self
    refine ⟨htree.workOff _ work, htree.kept_step hkept (hspoils ns' u hcourse),
      fun item hitem ↦ ?_⟩
    rcases mem_workOff hitem with hitem | ⟨v, -, rfl⟩
    · exact hwork item (List.mem_cons_of_mem _ hitem)
    · exact ⟨v, rfl⟩
  · exact ⟨(tree_rooted r).applyAll _, Or.inr (Or.inr List.mem_cons_self),
      fun item hitem ↦ ⟨w, List.mem_singleton.mp hitem⟩⟩

/-- What lies beneath the root has been reported, or is the root. -/
theorem isSome_lastNode (hx : Under (lastUp us) r x) : (lastNode r us x).isSome = true := by
  rw [lastNode]
  split
  · rfl
  · rename_i hne
    rcases hx.cases with heq | ⟨p, hp, -⟩
    · exact absurd heq hne
    · obtain ⟨w, hw, -⟩ := Option.map_eq_some_iff.mp hp
      rw [hw]
      rfl

/-- **The tree is that of the last reports**, as long as none of them is spoiled once it is fed. -/
theorem reported_lookup (h : LastTree r us)
    (hspoils : ∀ first w last, us = first ++ w :: last → (∀ v ∈ last, v.id ≠ w.id) →
      ∀ ns' u, Course (reported r first) ((w :: last).map .upsert) ns' (.upsert u) →
        ¬ ns'.Spoils u w) (x : String) :
    (reported r us).nodes.lookup x = lastNode r us x := by
  have hroot : (reported r us).nodes.lookup r = some ⟨none, "", .folder none⟩ :=
    ((tree_rooted r).applyAll _).top r (reported_root r us)
  have hplaced : ∀ y, Under (lastUp us) r y →
      (reported r us).nodes.lookup y = lastNode r us y := by
    intro y hy
    induction hy using Relation.ReflTransGen.head_induction_on with
    | refl => rw [hroot, lastNode, if_pos rfl]
    | head hyp hpr ih =>
      obtain ⟨w, hw, rfl⟩ := Option.map_eq_some_iff.mp hyp
      obtain ⟨rfl, first, last, hsplit, hlast⟩ := lastReport_eq_some.mp hw
      have hne : w.id ≠ r :=
        h.root w (hsplit ▸ List.mem_append_right _ List.mem_cons_self)
      have hkept := kept_reported (hspoils first w last hsplit hlast)
      rw [← hsplit] at hkept
      rcases hkept with hnode | hwaits | hwork
      · rw [hnode, lastNode, if_neg hne, hw]
        rfl
      · -- its parent has been placed
        have hparent := isSome_lastNode hpr
        rw [← ih, awaits_reported r us w hwaits] at hparent
        cases hparent
      · cases hwork
  by_cases hx : x = r
  · rw [hx]
    exact hplaced r (Under.refl _ r)
  · by_cases hex : ∃ u ∈ us, u.id = x
    · obtain ⟨u, hu, rfl⟩ := hex
      exact hplaced u.id (h.under u hu)
    · have hnone : lastReport us x = none := by
        rw [Option.eq_none_iff_forall_ne_some]
        intro w hw
        obtain ⟨hid, first, last, hsplit, -⟩ := lastReport_eq_some.mp hw
        exact hex ⟨w, hsplit ▸ List.mem_append_right _ List.mem_cons_self, hid⟩
      rw [lastNode, if_neg hx, hnone]
      refine Option.eq_none_iff_forall_not_mem.mpr fun node hnode ↦ ?_
      exact ((only_reported r us).nodes x node hnode).elim hx hex

/-! ## Parents first -/

/-- The last report of every id, each after that of its parent. -/
structure ParentFirst (r : String) (us order : List Upsert) : Prop where
  mem : ∀ u, u ∈ order ↔ lastReport us u.id = some u
  nodup : (order.map Upsert.id).Nodup
  parents : ∀ first u last, order = first ++ u :: last →
    u.parent = r ∨ ∃ v ∈ first, v.id = u.parent

/-- An item that is not refused and whose parent is there is attached, and releases nothing where
nothing waits. -/
theorem apply_of_fits (hwaits : ns.waiting = []) (hrefusal : ns.refusal u = none)
    (hparent : ∃ node, ns.nodes.lookup u.parent = some node) :
    (ns.apply (.upsert u)).1.nodes = (ns.attach u).1.nodes ∧ (ns.apply (.upsert u)).1.waiting = [] := by
  have hnone : (ns.applyOne (.upsert u)).1.waiting = [] := by
    rcases ns.applyOne_waiting (.upsert u) with ⟨-, v, hv, hheld, -⟩ | hsub
    · obtain ⟨node, hnode⟩ := hparent
      cases hv
      cases hheld.symm.trans hnode
    · rw [hwaits] at hsub
      exact List.sublist_nil.mp hsub
  have hdone : (ns.workOff (.upsert u) []).2.1 = [] := by
    refine List.eq_nil_iff_forall_not_mem.mpr fun x hx ↦ ?_
    rcases mem_workOff hx with hx | ⟨v, hv, -⟩
    · cases hx
    · rw [hnone] at hv
      cases hv
  have hattached : (ns.applyOne (.upsert u)).1 = (ns.attach u).1 := by
    obtain ⟨node, hnode⟩ := hparent
    rw [applyOne_of_parent hrefusal hnode]
  obtain ⟨waiting, hsub, heq⟩ := ns.workOff_eq (.upsert u) []
  rw [apply_of_done hdone, heq, ← hattached]
  rw [hnone] at hsub
  exact ⟨rfl, List.sublist_nil.mp hsub⟩

theorem up_eq_lastUp (h : LastTree r us) (hx : ns.nodes.lookup x = lastNode r us x) :
    ns.up x = lastUp us x := by
  rw [up, hx, lastNode, lastUp]
  split
  · rename_i hroot
    have hnone : lastReport us x = none := by
      rw [Option.eq_none_iff_forall_ne_some]
      intro w hw
      obtain ⟨hid, first, last, hsplit, -⟩ := lastReport_eq_some.mp hw
      exact h.root w (hsplit ▸ List.mem_append_right _ List.mem_cons_self) (hid.trans hroot)
    rw [hnone]
    rfl
  · cases lastReport us x <;> rfl

/-- A node lies as deep in the tree as the last reports say. -/
theorem Tree.depth_lastUp (htree : ns.Tree)
    (hup : ∀ x node, ns.nodes.lookup x = some node → ns.up x = lastUp us x) {n : ℕ}
    (hd : Depth ns.up x n) (hx : ∃ node, ns.nodes.lookup x = some node) :
    Depth (lastUp us) x n := by
  induction hd with
  | top htop =>
    obtain ⟨node, hnode⟩ := hx
    exact .top ((hup _ node hnode).symm.trans htop)
  | step hp _ ih =>
    obtain ⟨node, hnode⟩ := hx
    obtain ⟨pnode, hpnode, -⟩ := htree.parent _ _ hp
    exact .step ((hup _ node hnode).symm.trans hp) (ih ⟨pnode, hpnode⟩)

section ParentFirst

variable {order : List Upsert} (h : LastTree r us) (ho : ParentFirst r us order)
  (hdepth : ∀ u ∈ us, ∀ n, Depth (lastUp us) u.id n → n ≤ maxDepth)
include h ho hdepth

/-- Fed parents first, every report is attached at once. -/
theorem reported_first {first last : List Upsert} (hsplit : order = first ++ last) :
    (reported r first).waiting = [] ∧ ∀ x, (reported r first).nodes.lookup x
      = if x = r ∨ x ∈ first.map Upsert.id then lastNode r us x else none := by
  induction first using List.reverseRecOn generalizing last with
  | nil =>
    refine ⟨by rw [reported, List.map_nil, applyAll_nil, rooted_eq], fun x ↦ ?_⟩
    rw [reported, List.map_nil, applyAll_nil, rooted_lookup, lastNode, List.map_nil]
    by_cases hx : x = r
    · rw [if_pos hx, if_pos (Or.inl hx), if_pos hx]
    · rw [if_neg hx, if_neg fun hor ↦ hor.elim hx List.not_mem_nil]
  | append_singleton first u ih =>
    rw [List.append_assoc, List.singleton_append] at hsplit
    obtain ⟨hwaits, hlookup⟩ := ih hsplit
    have hlast : lastReport us u.id = some u :=
      (ho.mem u).mp (hsplit ▸ List.mem_append_right _ List.mem_cons_self)
    have hmem : u ∈ us := by
      obtain ⟨-, a, b, heq, -⟩ := lastReport_eq_some.mp hlast
      exact heq ▸ List.mem_append_right _ List.mem_cons_self
    have hne : u.id ≠ r := h.root u hmem
    have hnotin : u.id ∉ first.map Upsert.id := by
      have hnodup := ho.nodup
      rw [hsplit, List.map_append, List.nodup_append] at hnodup
      exact fun hin ↦ hnodup.2.2 u.id hin u.id List.mem_cons_self rfl
    have htree : (reported r first).Tree := (tree_rooted r).applyAll _
    have hup : ∀ x node, (reported r first).nodes.lookup x = some node →
        (reported r first).up x = lastUp us x := by
      intro x node hx
      refine up_eq_lastUp h ?_
      rw [hlookup] at hx ⊢
      split at hx
      · rename_i hor
        rw [if_pos hor]
      · cases hx
    have hnew : (reported r first).nodes.lookup u.id = none := by
      rw [hlookup, if_neg fun hor ↦ hor.elim hne hnotin]
    -- its parent has been placed, and is not a file
    have hparent : ∃ node, (reported r first).nodes.lookup u.parent = some node
        ∧ node.kind.tag ≠ .file := by
      have hor : u.parent = r ∨ u.parent ∈ first.map Upsert.id := by
        rcases ho.parents first u last hsplit with hr | ⟨v, hv, hid⟩
        · exact Or.inl hr
        · exact Or.inr (List.mem_map.mpr ⟨v, hv, hid⟩)
      rw [hlookup, if_pos hor, lastNode]
      by_cases hr : u.parent = r
      · rw [if_pos hr]
        exact ⟨_, rfl, by decide⟩
      · rw [if_neg hr]
        obtain ⟨p, hp, hkind⟩ := (h.holds u hlast).resolve_left hr
        rw [hp]
        exact ⟨p.node, rfl, hkind⟩
    obtain ⟨pnode, hpnode, hkind⟩ := hparent
    have hapart : ¬ Under (reported r first).up u.id u.parent := by
      intro hunder
      obtain ⟨node, hnode⟩ := htree.node_of_above hpnode hunder
      cases hnew.symm.trans hnode
    obtain ⟨n, hn⟩ := htree.exists_depth hpnode
    have hdeep : n + 1 ≤ maxDepth := by
      refine hdepth u hmem (n + 1) (.step ?_ (htree.depth_lastUp hup hn ⟨pnode, hpnode⟩))
      rw [lastUp, hlast]
      rfl
    have hrefusal : (reported r first).refusal u = none := by
      have hcycle : (reported r first).wouldCycle u.id u.parent = false :=
        (meets_eq_false_iff hn hapart).mpr hdeep
      rw [refusal, h.names u hmem]
      dsimp only
      rw [hpnode]
      dsimp only
      rw [if_neg hkind, hcycle]
      rfl
    have hcleared : (reported r first).cleared u = reported r first := by
      refine if_neg fun hre ↦ ?_
      obtain ⟨node, hnode, -⟩ := reshapes_iff.mp hre
      cases hnew.symm.trans hnode
    obtain ⟨hnodes, hempty⟩ := apply_of_fits hwaits hrefusal ⟨pnode, hpnode⟩
    have happ : reported r (first ++ [u]) = ((reported r first).apply (.upsert u)).1 := by
      rw [reported, List.map_append, applyAll_append]
      rfl
    refine ⟨happ ▸ hempty, fun x ↦ ?_⟩
    rw [happ, hnodes, List.map_append, List.map_singleton]
    by_cases hx : x = u.id
    · rw [hx, attach_lookup_self, lastNode, if_neg hne, hlast,
        if_pos (Or.inr (List.mem_append_right _ List.mem_cons_self))]
      rfl
    · rw [attach_lookup_of_ne hx, hcleared, hlookup]
      refine if_congr (or_congr_right ?_) rfl rfl
      rw [List.mem_append, List.mem_singleton]
      exact ⟨Or.inl, fun hor ↦ hor.resolve_right hx⟩

/-- Feeding only the last reports, parents first, gives the tree of the last reports. -/
theorem reported_parentFirst (x : String) :
    (reported r order).nodes.lookup x = lastNode r us x := by
  have hlookup := (reported_first h ho hdepth (List.append_nil order).symm).2 x
  rw [hlookup]
  split
  · rfl
  · rename_i hor
    rw [not_or] at hor
    rw [lastNode, if_neg hor.1]
    refine (Option.map_eq_none_iff.mpr (Option.eq_none_iff_forall_ne_some.mpr fun w hw ↦ ?_)).symm
    have hid := (lastReport_eq_some.mp hw).1
    exact hor.2 (List.mem_map.mpr ⟨w, (ho.mem w).mpr (hid ▸ hw), hid⟩)

end ParentFirst

/-- **The last report wins**, whatever order the parents arrive in, as long as no last report is
spoiled once it is fed: the nodes are those of the last reports, as when these alone are fed,
parents first. -/
theorem last_report_wins (h : LastTree r us)
    (hspoils : ∀ first w last, us = first ++ w :: last → (∀ v ∈ last, v.id ≠ w.id) →
      ∀ ns' u, Course (reported r first) ((w :: last).map .upsert) ns' (.upsert u) →
        ¬ ns'.Spoils u w) (x : String) :
    (reported r us).nodes.lookup x = lastNode r us x
      ∧ ∀ order, ParentFirst r us order →
        (∀ u ∈ us, ∀ n, Depth (lastUp us) u.id n → n ≤ maxDepth) →
        (reported r us).nodes.lookup x = (reported r order).nodes.lookup x := by
  refine ⟨reported_lookup h hspoils x, fun order ho hdepth ↦ ?_⟩
  rw [reported_lookup h hspoils x, reported_parentFirst h ho hdepth x]

/-! ### An older report that comes back, and one that does not -/

/-- What tells that a list of reports is a tree by its last reports, of each report on its own. -/
theorem LastTree.of_forall (hnames : ∀ u ∈ us, badName u.name = none) (hroot : ∀ u ∈ us, u.id ≠ r)
    (hunder : ∀ u ∈ us, Under (lastUp us) r u.id)
    (hholds : ∀ u ∈ us, u.parent = r
      ∨ ((lastReport us u.parent).any fun p ↦ p.kind.tag ≠ .file) = true) : LastTree r us := by
  refine ⟨hnames, hroot, hunder, fun u hu ↦ ?_⟩
  obtain ⟨-, first, last, hsplit, -⟩ := lastReport_eq_some.mp hu
  have hmem : u ∈ us := hsplit ▸ List.mem_append_right _ List.mem_cons_self
  refine (hholds u hmem).imp_right fun hany ↦ ?_
  obtain ⟨p, hp, hkind⟩ := (Option.any_eq_true _ _).mp hany
  exact ⟨p, hp, of_decide_eq_true hkind⟩

/-- A file that is reported in a folder that has not arrived, then at the root; then the folder. -/
def strayReports : List Upsert :=
  [⟨"x", "p", "x", .file 1 none⟩, ⟨"x", "r", "x", .file 1 none⟩, ⟨"p", "r", "p", .folder none⟩]

/-- The last reports of them. -/
def strayOrder : List Upsert := [⟨"x", "r", "x", .file 1 none⟩, ⟨"p", "r", "p", .folder none⟩]

/-- The folder releases the older report of the file, and it takes the place of the last. -/
theorem stale_report_wins : LastTree "r" strayReports ∧ ParentFirst "r" strayReports strayOrder
    ∧ (reported "r" strayReports).nodes.lookup "x" = some ⟨some "p", "x", .file 1 none⟩
    ∧ (reported "r" strayOrder).nodes.lookup "x" = some ⟨some "r", "x", .file 1 none⟩ := by
  refine ⟨LastTree.of_forall (by decide +kernel) (by decide) ?_ (by decide +kernel), ?_,
    by decide +kernel, by decide +kernel⟩
  · rw [strayReports]
    simp only [List.forall_mem_cons]
    exact ⟨Under.step (by decide) (Under.refl _ _), Under.step (by decide) (Under.refl _ _),
      Under.step (by decide) (Under.refl _ _), fun u hu ↦ absurd hu List.not_mem_nil⟩
  · refine ⟨fun u ↦ ⟨fun hu ↦ ?_, fun hu ↦ ?_⟩, by decide, fun first u last hsplit ↦ ?_⟩
    · revert u
      decide +kernel
    · obtain ⟨-, first, last, hsplit, -⟩ := lastReport_eq_some.mp hu
      have hmem : u ∈ strayReports := hsplit ▸ List.mem_append_right _ List.mem_cons_self
      have hall : ∀ u ∈ strayReports, lastReport strayReports u.id = some u → u ∈ strayOrder := by
        decide +kernel
      exact hall u hmem hu
    · have hall : ∀ u ∈ strayOrder, u.parent = "r" := by decide
      exact Or.inl (hall u (hsplit ▸ List.mem_append_right _ List.mem_cons_self))

theorem not_spoils (hrefusal : ns.refusal u = none) (hre : ¬ ns.Reshapes u)
    (hid : u.id = w.id → u = w) : ¬ ns.Spoils u w := by
  rintro (⟨-, hne⟩ | ⟨huw, ⟨hne, -⟩ | ⟨-, -, ⟨hre', -⟩ | ⟨hid', -⟩⟩⟩)
  · exact hne hrefusal
  · exact hne hrefusal
  · exact hre hre'
  · exact huw (hid hid')

/-- A file that is reported before the folder it is in. -/
def heldReports : List Upsert := [⟨"x", "p", "x", .file 1 none⟩, ⟨"p", "r", "p", .folder none⟩]

theorem released_sample : ((((rooted "r").applyAll [.upsert ⟨"x", "p", "x", .file 1 none⟩]).workOff
    (.upsert ⟨"p", "r", "p", .folder none⟩) []).2.1) = [.upsert ⟨"x", "p", "x", .file 1 none⟩] := by
  decide +kernel

/-- The file waits for the folder, and is placed in it. -/
theorem last_report_wins_sample :
    (reported "r" heldReports).nodes.lookup "x" = some ⟨some "p", "x", .file 1 none⟩ := by
  have htree : LastTree "r" heldReports := by
    refine LastTree.of_forall (by decide +kernel) (by decide) ?_ (by decide +kernel)
    have hp : lastUp heldReports "p" = some "r" := by decide
    have hx : lastUp heldReports "x" = some "p" := by decide
    rw [heldReports] at hp hx ⊢
    simp only [List.forall_mem_cons]
    exact ⟨Under.step hx (Under.step hp (Under.refl _ _)), Under.step hp (Under.refl _ _),
      fun u hu ↦ absurd hu List.not_mem_nil⟩
  refine (last_report_wins htree ?_ "x").1
  intro first w last hsplit _ ns' u hcourse
  have hw : w ∈ heldReports := hsplit ▸ List.mem_append_right _ List.mem_cons_self
  have hall : Course (rooted "r") (heldReports.map .upsert) ns' (.upsert u) := by
    rw [hsplit, List.map_append]
    exact hcourse.prepend
  suffices hmoment : ns'.refusal u = none ∧ ¬ ns'.Reshapes u ∧ u ∈ heldReports by
    refine not_spoils hmoment.1 hmoment.2.1 ?_
    have hids : ∀ u ∈ heldReports, ∀ w ∈ heldReports, u.id = w.id → u = w := by decide
    exact hids u hmoment.2.2 w hw
  obtain ⟨before, it, after, work, hitems, hamid⟩ := hall
  match before, hitems with
  | [], hitems =>
    -- the file is held
    cases hitems
    obtain ⟨rfl, hu, -⟩ := hamid.of_done (by decide +kernel)
    cases hu
    decide +kernel
  | [_], hitems =>
    cases hitems
    rcases hamid.of_next released_sample (by decide +kernel) with ⟨rfl, hu⟩ | ⟨rfl, hu⟩
    · cases hu
      decide +kernel
    · -- the folder has released it
      cases hu
      decide +kernel
  | _ :: _ :: _, hitems => simp [heldReports] at hitems

end Namespace

end HydrationAPI.Client
