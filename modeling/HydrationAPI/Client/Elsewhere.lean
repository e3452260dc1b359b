import HydrationAPI.Client.LastReport
import HydrationAPI.Client.Restore

/-!
# What lives elsewhere

A delete takes the nodes beneath the folder away, and with each of them what waits under its id. An
item that has been reported anew, with a parent that has not arrived, is a node at its old place
until the parent arrives. If the old place is deleted, so is the node, and the report that waits
with it; a report that waits under an id that is not deleted goes on waiting, whatever else is
deleted.

When a parent arrives, what waited for it is worked off before anything else, and all that is worked
off until then lies beneath the parent. Nothing of it changes what is above the parent: that would
make a circle, and is refused.
-/

namespace HydrationAPI.Client

open Ancestry

namespace Namespace

variable {ns ns' base : Namespace} {items more work : List Item} {it item : Item}
  {u v w : Upsert} {d p x : String}

/-! ## A delete -/

/-- What is worked off after the work at hand changes nothing of it. -/
theorem workOff_append (ns : Namespace) (item : Item) (work rest : List Item) :
    ns.workOff item (work ++ rest)
      = ((ns.workOff item work).1, (ns.workOff item work).2.1 ++ rest,
        (ns.workOff item work).2.2) := by
  rw [workOff, workOff]
  generalize ns.applyOne item = r
  obtain ⟨ns', attached, out⟩ := r
  cases attached with
  | none => rfl
  | some id => simp

/-- A walk upwards is the same where the parents are the same all along. -/
theorem meets_congr {n : ℕ} (h : ∀ y, Under base.up y x → ns.up y = base.up y) :
    ns.meets d n x = base.meets d n x := by
  induction n generalizing x with
  | zero => rfl
  | succ n ih =>
    rw [meets, meets, h x (Under.refl _ _)]
    split
    · rfl
    · split
      · rename_i next hnext
        exact ih fun y hy ↦ h y (Under.step hnext hy)
      · rfl

/-- Since `p` has been attached in `base`, nothing above it has changed, and all that is to be
worked off hangs from what lies beneath it, if from anything. -/
structure Phase (base : Namespace) (p : String) (ns : Namespace) (work : List Item) : Prop where
  tree : ns.Tree
  chain : ∀ y, Under base.up y p → ns.nodes.lookup y = base.nodes.lookup y
  items : ∀ x ∈ work, ∃ u, x = .upsert u
    ∧ (Under ns.up p u.parent ∨ ns.nodes.lookup u.parent = none)

theorem Phase.under (h : Phase base p ns work) {y : String} (hy : Under ns.up y p) :
    Under base.up y p :=
  hy.carry fun z hz ↦ (up_congr (h.chain z hz)).symm

/-- What is attached is not above `p`. -/
theorem Phase.not_above (h : Phase base p ns (.upsert u :: work)) (hfits : ns.Fits u) :
    Under ns.up p u.parent ∧ ¬ Under ns.up u.id p := by
  obtain ⟨u', hu, hor⟩ := h.items _ List.mem_cons_self
  obtain rfl := Item.upsert.inj hu
  obtain ⟨node, hnode, -⟩ := hfits.parent
  have hunder := hor.resolve_right fun hnone ↦ nomatch hnone.symm.trans hnode
  exact ⟨hunder, fun habove ↦ hfits.apart (habove.trans hunder)⟩

/-- What is attached comes to lie beneath `p`. -/
theorem Phase.under_self (h : Phase base p ns (.upsert u :: work)) (hfits : ns.Fits u) :
    Under (ns.attach u).1.up p u.id := by
  refine Under.step attach_up_self ((under_move_of_not_under (fun _ ↦ attach_up_of_ne)
    (h.tree.cleared_apart hfits)).mpr ?_)
  exact (h.tree.cleared_under hfits.apart).mpr (h.not_above hfits).1

/-- What lies beneath `p` or is no node is so still. -/
theorem Phase.under_attach (h : Phase base p ns (.upsert u :: work)) (hfits : ns.Fits u)
    (hx : Under ns.up p x ∨ ns.nodes.lookup x = none) :
    Under (ns.attach u).1.up p x ∨ (ns.attach u).1.nodes.lookup x = none := by
  by_cases hux : Under (ns.attach u).1.up u.id x
  · exact Or.inl ((h.under_self hfits).trans hux)
  · have hxu : x ≠ u.id := fun heq ↦ hux (heq ▸ Under.refl _ _)
    cases hnode : (ns.attach u).1.nodes.lookup x with
    | none => exact Or.inr rfl
    | some node =>
      left
      rw [attach_lookup_of_ne hxu] at hnode
      obtain ⟨hnode', hgone⟩ := h.tree.lookup_of_cleared hnode
      have hx := hx.resolve_right fun hnone ↦ nomatch hnone.symm.trans hnode'
      have hux' := (h.tree.attach_under_self hfits).not.mp hux
      refine (under_move_of_not_under (fun _ ↦ attach_up_of_ne) hux').mpr ?_
      by_cases hre : ns.Reshapes u
      · exact (h.tree.cleared_under (hgone hre)).mpr hx
      · rwa [show ns.cleared u = ns from if_neg hre]

/-- **A step of the phase**: what hangs from `p` is worked off, and then what that releases. -/
theorem Phase.step (h : Phase base p ns (item :: work)) :
    Phase base p (ns.workOff item work).1 (ns.workOff item work).2.1 := by
  obtain ⟨u, rfl, hor⟩ := h.items _ List.mem_cons_self
  have hrest : ∀ x ∈ work, ∃ u, x = .upsert u
      ∧ (Under ns.up p u.parent ∨ ns.nodes.lookup u.parent = none) := fun x hx ↦
    h.items x (List.mem_cons_of_mem _ hx)
  refine ⟨h.tree.workOff _ work, fun y hy ↦ ?_, ?_⟩
  · rw [workOff_nodes]
    have hout := ns.applyOne_outcome (.upsert u)
    generalize ns.applyOne (.upsert u) = r at hout
    cases hout with
    | refused _ why _ => exact h.chain y hy
    | held _ _ _ => exact h.chain y hy
    | attached _ _ hfits =>
      have habove := (h.not_above hfits).2
      have hyp : Under ns.up y p := hy.congr fun z _ hz _ ↦ up_congr (h.chain z hz)
      have hyu : y ≠ u.id := fun heq ↦ habove (heq ▸ hyp)
      have huy : ¬ Under ns.up u.id y := fun huy ↦ habove (huy.trans hyp)
      rw [attach_lookup_of_ne hyu, h.tree.cleared_lookup_of_not_under huy]
      exact h.chain y hy
  · have hout := ns.applyOne_outcome (.upsert u)
    rw [workOff]
    generalize ns.applyOne (.upsert u) = r at hout
    cases hout with
    | refused _ why _ => exact hrest
    | held _ _ _ => exact hrest
    | attached _ _ hfits =>
      intro x hx
      rcases List.mem_append.mp hx with hx | hx
      · obtain ⟨v, hv, rfl⟩ := List.mem_map.mp (List.mem_reverse.mp hx)
        have hparent : v.parent = u.id := of_decide_eq_true (List.mem_filter.mp hv).2
        exact ⟨v, rfl, Or.inl (hparent ▸ h.under_self hfits)⟩
      · obtain ⟨v, rfl, hor⟩ := hrest x hx
        exact ⟨v, rfl, h.under_attach hfits hor⟩

/-! ### The item itself -/

/-- The report hangs from `p`, which can contain it, and fits there. -/
structure Welcome (base : Namespace) (p : String) (w : Upsert) : Prop where
  parent : w.parent = p
  named : badName w.name = none
  container : ∃ node, base.nodes.lookup p = some node ∧ node.kind.tag ≠ .file
  apart : base.wouldCycle w.id p = false

/-- It is attached whenever it is worked off in the phase. -/
theorem Phase.attaches (h : Phase base p ns work) (hw : base.Welcome p w) :
    ns.applyOne (.upsert w) = ((ns.attach w).1, some w.id, (ns.attach w).2) := by
  obtain ⟨node, hnode, hkind⟩ := hw.container
  have hparent : ns.nodes.lookup w.parent = some node := by
    rw [hw.parent]
    exact (h.chain p (Under.refl _ _)).trans hnode
  have hmeets : ns.meets w.id maxDepth w.parent = false := by
    rw [hw.parent, meets_congr fun y hy ↦ up_congr (h.chain y hy)]
    exact hw.apart
  refine applyOne_of_parent ?_ hparent
  rw [refusal, hw.named, hparent]
  dsimp only
  rw [if_neg hkind, wouldCycle, hmeets]
  rfl

/-- What holds of the work of a phase if it holds when a step of it is taken. -/
theorem phase_induction {P : Namespace → List Item → Prop} (hnil : ∀ ns, P ns [])
    (hcons : ∀ ns item work, P (ns.workOff item work).1 (ns.workOff item work).2.1 →
      P ns (item :: work)) (ns : Namespace) (work : List Item) : P ns work := by
  generalize hn : measure ns work = n
  induction n using Nat.strong_induction_on generalizing ns work with
  | h n ih =>
    cases work with
    | nil => exact hnil ns
    | cons item work =>
      exact hcons ns item work (ih _ (hn ▸ ns.measure_workOff_lt item work) _ _ rfl)

theorem next_append (ns : Namespace) (item : Item) (work rest : List Item) :
    Next (ns, item :: work ++ rest)
      ((ns.workOff item work).1, (ns.workOff item work).2.1 ++ rest) :=
  ⟨item, work ++ rest, rfl, by rw [workOff_append]⟩

theorem mem_workOff_of_mem {x : Item} (h : x ∈ work) : x ∈ (ns.workOff item work).2.1 := by
  rw [workOff]
  generalize ns.applyOne item = r
  obtain ⟨ns', attached, out⟩ := r
  cases attached with
  | none => exact h
  | some id => exact List.mem_append_right _ h

/-- **What waited for a parent is placed** when the parent has been attached, before anything else
is worked off. -/
theorem Phase.placed (h : Phase base p ns work) (hw : base.Welcome p w)
    (hmem : Item.upsert w ∈ work) (rest : List Item) : ∃ m before,
      Relation.ReflTransGen Next (ns, work ++ rest) (m, before ++ rest)
        ∧ m.nodes.lookup w.id = some w.node := by
  induction ns, work using phase_induction with
  | hnil => exact absurd hmem List.not_mem_nil
  | hcons ns item work ih =>
    by_cases hitem : item = .upsert w
    · subst hitem
      refine ⟨_, _, .single (next_append ns _ work rest), ?_⟩
      rw [workOff_nodes, h.attaches hw]
      exact attach_lookup_self
    · have hwork := (List.mem_cons.mp hmem).resolve_left fun heq ↦ hitem heq.symm
      obtain ⟨m, before, hreach, hplaced⟩ := ih h.step (mem_workOff_of_mem hwork)
      exact ⟨m, before, .head (next_append ns item work rest) hreach, hplaced⟩

/-- The report is the only one of its id that is to be worked off or waits. -/
structure Sole (w : Upsert) (ns : Namespace) (work : List Item) : Prop where
  work : ∀ u, Item.upsert u ∈ work → u.id = w.id → u = w
  waiting : ∀ u ∈ ns.waiting, u.id = w.id → u = w

theorem Sole.step (h : Sole w ns (.upsert u :: work)) :
    Sole w (ns.workOff (.upsert u) work).1 (ns.workOff (.upsert u) work).2.1 := by
  have hone : ∀ v ∈ (ns.applyOne (.upsert u)).1.waiting, v.id = w.id → v = w := by
    intro v hv
    rcases ns.applyOne_waiting (.upsert u) with ⟨-, u', hu, -, hheld⟩ | hsub
    · rw [hheld] at hv
      rcases List.mem_append.mp hv with hv | hv
      · exact h.waiting v hv
      · rw [List.mem_singleton.mp hv, ← Item.upsert.inj hu]
        exact h.work u List.mem_cons_self
    · exact h.waiting v (hsub.subset hv)
  constructor
  · intro v hv
    rcases mem_workOff hv with hv | ⟨v', hv', heq⟩
    · exact h.work v (List.mem_cons_of_mem _ hv)
    · rw [Item.upsert.inj heq]
      exact hone v' hv'
  · obtain ⟨waiting, hsub, heq⟩ := ns.workOff_eq (.upsert u) work
    rw [heq]
    exact fun v hv ↦ hone v (hsub.subset hv)

/-- The report is to be worked off, or has been placed. -/
def Due (w : Upsert) (ns : Namespace) (work : List Item) : Prop :=
  Item.upsert w ∈ work ∨ ns.nodes.lookup w.id = some w.node

/-- What has been placed stays in place, as long as there is no other report of it. -/
theorem Phase.due (h : Phase base p ns (item :: work)) (hw : base.Welcome p w)
    (hsole : Sole w ns (item :: work)) (hdue : Due w ns (item :: work)) :
    Due w (ns.workOff item work).1 (ns.workOff item work).2.1 := by
  obtain ⟨u, rfl, -⟩ := h.items _ List.mem_cons_self
  by_cases huw : u = w
  · subst huw
    right
    rw [workOff_nodes, h.attaches hw]
    exact attach_lookup_self
  · rcases hdue with hmem | hplaced
    · have hwork := (List.mem_cons.mp hmem).resolve_left fun heq ↦ huw (Item.upsert.inj heq).symm
      exact Or.inl (mem_workOff_of_mem hwork)
    · right
      have hid : w.id ≠ u.id := fun hid ↦ huw (hsole.work u List.mem_cons_self hid.symm)
      rw [workOff_nodes]
      have hout := ns.applyOne_outcome (.upsert u)
      generalize ns.applyOne (.upsert u) = r at hout
      cases hout with
      | refused _ why _ => exact hplaced
      | held _ _ _ => exact hplaced
      | attached _ _ hufits =>
        -- what is attached is not above the parent, and so not above the item
        have hunder : ¬ Under ns.up u.id w.id := by
          intro hunder
          rcases hunder.cases with heq | ⟨q, hq, hqu⟩
          · exact hid heq
          · have hparent : q = p := by
              rw [up_of_lookup hplaced] at hq
              exact (Option.some_inj.mp hq).symm.trans hw.parent
            exact (h.not_above hufits).2 (hparent ▸ hqu)
        rw [attach_lookup_of_ne hid, h.tree.cleared_lookup_of_not_under hunder]
        exact hplaced

/-- **It is in place when the phase is over.** -/
theorem Phase.over (h : Phase base p ns work) (hw : base.Welcome p w) (hsole : Sole w ns work)
    (hdue : Due w ns work) (rest : List Item) : ∃ m,
      Relation.ReflTransGen Next (ns, work ++ rest) (m, rest)
        ∧ m.nodes.lookup w.id = some w.node := by
  induction ns, work using phase_induction with
  | hnil ns => exact ⟨ns, .refl, hdue.resolve_left List.not_mem_nil⟩
  | hcons ns item work ih =>
    have hsole' : Sole w (ns.workOff item work).1 (ns.workOff item work).2.1 := by
      obtain ⟨u, rfl, -⟩ := h.items _ List.mem_cons_self
      exact hsole.step
    obtain ⟨m, hreach, hplaced⟩ := ih h.step hsole' (h.due hw hsole hdue)
    exact ⟨m, .head (next_append ns item work rest) hreach, hplaced⟩

/-! ### The arrival -/

/-- What holds of a namespace at every moment: it is sound, and what waits has a name that can be
part of a path. -/
structure Ready (ns : Namespace) : Prop where
  sound : ns.Sound
  named : ∀ w ∈ ns.waiting, badName w.name = none

theorem Ready.workOff (h : ns.Ready) (item : Item) (work : List Item) :
    (ns.workOff item work).1.Ready := by
  refine ⟨h.sound.workOff item work, ?_⟩
  have hone : ∀ w ∈ (ns.applyOne item).1.waiting, badName w.name = none := by
    intro w hw
    rcases ns.applyOne_waiting item with ⟨-, u, rfl, hparent, hheld⟩ | hsub
    · have hout := ns.applyOne_outcome (.upsert u)
      generalize ns.applyOne (.upsert u) = r at hout hw
      cases hout with
      | refused _ why _ => exact h.named w ((refuseFrom_sublist _ _ _ _).subset hw)
      | held _ hrefusal _ =>
        rcases List.mem_append.mp hw with hw | hw
        · exact h.named w hw
        · rw [List.mem_singleton.mp hw]
          exact badName_of_refusal hrefusal
      | attached _ _ _ => exact h.named w ((ns.attach_waiting_sublist u).subset hw)
    · exact h.named w (hsub.subset hw)
  obtain ⟨waiting, hsub, heq⟩ := ns.workOff_eq item work
  rw [heq]
  exact fun w hw ↦ hone w (hsub.subset hw)

theorem Ready.new : Namespace.new.Ready := ⟨Sound.new, fun _ hw ↦ absurd hw List.not_mem_nil⟩

theorem Ready.applyAll (h : ns.Ready) (items : List Item) : (ns.applyAll items).Ready :=
  applyAll_induction (P := fun ns' _ ↦ ns'.Ready) (fun _ _ _ h ↦ h)
    (fun _ item work _ h ↦ h.workOff item work) h

theorem Ready.amid (h : ns.Ready) (hamid : Amid ns it ns' work) : ns'.Ready := by
  suffices hstate : ∀ s, Relation.ReflTransGen Next (ns, [it]) s → s.1.Ready from hstate _ hamid
  intro s hs
  induction hs with
  | refl => exact h
  | tail _ hnext ih =>
    obtain ⟨item, rest, -, rfl⟩ := hnext
    exact ih.workOff item rest

/-- When something attaches, a phase begins. -/
theorem Tree.phase (h : ns.Tree) (hattached : (ns.applyOne item).2.1 = some p) :
    Phase (ns.applyOne item).1 p (ns.workOff item []).1 (ns.workOff item []).2.1 := by
  refine ⟨h.workOff item [], fun y _ ↦ by rw [workOff_nodes], ?_⟩
  rw [Namespace.workOff]
  generalize ns.applyOne item = r at hattached
  obtain ⟨ns', attached, out⟩ := r
  obtain rfl := hattached
  intro x (hx : x ∈ ((bucket ns'.waiting p).map Item.upsert).reverse ++ [])
  rw [List.append_nil] at hx
  obtain ⟨v, hv, rfl⟩ := List.mem_map.mp (List.mem_reverse.mp hx)
  have hparent : v.parent = p := of_decide_eq_true (List.mem_filter.mp hv).2
  exact ⟨v, rfl, Or.inl (hparent ▸ Under.refl _ _)⟩

/-- What releases items makes nothing wait. -/
theorem Sole.start (h : ∀ u ∈ ns.waiting, u.id = w.id → u = w)
    (hattached : (ns.applyOne item).2.1 = some p) :
    Sole w (ns.workOff item []).1 (ns.workOff item []).2.1 := by
  have hsub : (ns.applyOne item).1.waiting ⊆ ns.waiting := by
    rcases ns.applyOne_waiting item with ⟨hnone, -⟩ | hsub
    · exact nomatch hnone.symm.trans hattached
    · exact hsub.subset
  constructor
  · intro u hu
    rcases mem_workOff hu with hu | ⟨v, hv, heq⟩
    · exact absurd hu List.not_mem_nil
    · rw [Item.upsert.inj heq]
      exact h v (hsub hv)
  · obtain ⟨waiting, hless, heq⟩ := ns.workOff_eq item []
    rw [heq]
    exact fun u hu ↦ h u (hsub (hless.subset hu))

/-! ## What lives elsewhere -/

/-- The report is about another item than `d`, and is placed beneath a parent that does not lie
beneath `d`, or waits for a parent that has not arrived. -/
def Elsewhere (ns : Namespace) (d : String) (w : Upsert) : Prop :=
  w.id ≠ d ∧ (ns.nodes.lookup w.id = some w.node ∧ ¬ Under ns.up d w.parent ∨ w ∈ ns.waiting)

end Namespace

end HydrationAPI.Client
