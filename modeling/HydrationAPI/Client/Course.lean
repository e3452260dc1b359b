import HydrationAPI.Client.Tree

/-!
# The course of a run

Items are applied one after the other, and each may release others that waited for it. Every item
that is worked off, fed or released, is worked off in some state of the namespace; what holds of a
run is derived from what holds at these moments.
-/

namespace HydrationAPI.Client

namespace Namespace

/-- The next item of the work at hand is worked off. -/
def Next (s t : Namespace × List Item) : Prop :=
  ∃ item work, s.2 = item :: work
    ∧ t = ((s.1.workOff item work).1, (s.1.workOff item work).2.1)

/-- In the course of applying `it` to `ns`, the namespace is `ns'` with this work at hand. -/
def Amid (ns : Namespace) (it : Item) (ns' : Namespace) (work : List Item) : Prop :=
  Relation.ReflTransGen Next (ns, [it]) (ns', work)

/-- In the course of applying the items to `ns`, `item` is worked off when the namespace is
`ns'`. -/
def Course (ns : Namespace) (items : List Item) (ns' : Namespace) (item : Item) : Prop :=
  ∃ first it last work, items = first ++ it :: last
    ∧ Amid (ns.applyAll first) it ns' (item :: work)

/-- In the course of applying the items to `ns`, an item that waited for its parent is worked off
when the namespace is `ns'`. -/
def Released (ns : Namespace) (items : List Item) (ns' : Namespace) (u : Upsert) : Prop :=
  ∃ first it last work, items = first ++ it :: last
    ∧ Relation.TransGen Next (ns.applyAll first, [it]) (ns', .upsert u :: work)

variable {ns ns' : Namespace} {it item : Item} {items work : List Item}

theorem Amid.start (ns : Namespace) (it : Item) : Amid ns it ns [it] := Relation.ReflTransGen.refl

theorem Amid.next (h : Amid ns it ns' (item :: work)) :
    Amid ns it (ns'.workOff item work).1 (ns'.workOff item work).2.1 :=
  Relation.ReflTransGen.tail h ⟨item, work, rfl, rfl⟩

/-- What is worked off next, after an item that attached or did not. -/
theorem mem_workOff {x : Item} (h : x ∈ (ns.workOff item work).2.1) :
    x ∈ work ∨ ∃ u ∈ (ns.applyOne item).1.waiting, x = .upsert u := by
  rw [workOff] at h
  generalize ns.applyOne item = r at h ⊢
  obtain ⟨ns', attached, out⟩ := r
  cases attached with
  | none => exact Or.inl h
  | some id =>
    rcases List.mem_append.mp h with hx | hx
    · obtain ⟨u, hu, rfl⟩ := List.mem_map.mp (List.mem_reverse.mp hx)
      exact Or.inr ⟨u, List.mem_of_mem_filter hu, rfl⟩
    · exact Or.inl hx

/-- Of the items that are worked off, all but the one that was fed are upserts. -/
theorem Amid.upserts (h : Amid ns it ns' work) :
    (ns' = ns ∧ work = [it]) ∨ ∀ x ∈ work, ∃ u, x = .upsert u := by
  suffices hstate : ∀ s, Relation.ReflTransGen Next (ns, [it]) s →
      (s = (ns, [it])) ∨ ∀ x ∈ s.2, ∃ u, x = .upsert u by
    exact (hstate _ h).imp_left fun heq ↦ Prod.mk.inj heq
  intro s hs
  induction hs with
  | refl => exact Or.inl rfl
  | @tail t s _ hnext ih =>
    obtain ⟨item, rest, hitem, rfl⟩ := hnext
    right
    intro x hx
    rcases mem_workOff hx with hrest | ⟨u, -, rfl⟩
    · rcases ih with rfl | ih
      · cases hitem
        cases hrest
      · exact ih x (hitem ▸ List.mem_cons_of_mem item hrest)
    · exact ⟨u, rfl⟩

/-- What holds when an item is fed, and is kept at every moment of its course, holds when the item
has been applied. -/
theorem apply_induction {P : Namespace → List Item → Prop}
    (hstep : ∀ ns' item work, Amid ns it ns' (item :: work) → P ns' (item :: work) →
      P (ns'.workOff item work).1 (ns'.workOff item work).2.1)
    (h : P ns [it]) : P (ns.apply it).1 [] := by
  have hamid : Amid ns it (ns.apply it).1 [] ∧ P (ns.apply it).1 [] :=
    settle_induction (P := fun ns' work _ ↦ Amid ns it ns' work ∧ P ns' work)
      (fun ns' item work _ h ↦ ⟨h.1.next, hstep ns' item work h.1 h.2⟩) ⟨Amid.start ns it, h⟩
  exact hamid.2

theorem Course.fed (ns : Namespace) (first : List Item) (it : Item) (last : List Item) :
    Course ns (first ++ it :: last) (ns.applyAll first) it :=
  ⟨first, it, last, [], rfl, Amid.start _ it⟩

theorem Course.append (h : Course ns items ns' item) (last : List Item) :
    Course ns (items ++ last) ns' item := by
  obtain ⟨first, it, rest, work, rfl, hamid⟩ := h
  exact ⟨first, it, rest ++ last, work, by simp, hamid⟩

theorem Course.prepend {first : List Item} (h : Course (ns.applyAll first) items ns' item) :
    Course ns (first ++ items) ns' item := by
  obtain ⟨first', it, rest, work, rfl, hamid⟩ := h
  rw [← applyAll_append] at hamid
  exact ⟨first ++ first', it, rest, work, (List.append_assoc _ _ _).symm, hamid⟩

theorem Course.cons (h : Course (ns.apply it).1 items ns' item) : Course ns (it :: items) ns' item := by
  obtain ⟨first, it', rest, work, rfl, hamid⟩ := h
  exact ⟨it :: first, it', rest, work, rfl, hamid⟩

/-- What is worked off has been fed or released. -/
theorem Course.upsert {u : Upsert} (h : Course ns items ns' (.upsert u)) :
    (∃ first last, items = first ++ .upsert u :: last ∧ ns' = ns.applyAll first)
      ∨ Released ns items ns' u := by
  obtain ⟨first, it, last, work, rfl, hamid⟩ := h
  rcases Relation.reflTransGen_iff_eq_or_transGen.mp hamid with heq | htrans
  · cases heq
    exact Or.inl ⟨first, last, rfl, rfl⟩
  · exact Or.inr ⟨first, it, last, work, rfl, htrans⟩

/-- Where no item makes work, nothing is released. -/
theorem not_released (h : ∀ first it last, items = first ++ it :: last →
    ((ns.applyAll first).workOff it []).2.1 = []) {u : Upsert} : ¬ Released ns items ns' u := by
  rintro ⟨first, it, last, work, hitems, htrans⟩
  have hdone := h first it last hitems
  obtain ⟨s, ⟨item, rest, hitem, rfl⟩, hrest⟩ := Relation.TransGen.head'_iff.mp htrans
  cases hitem
  rcases Relation.ReflTransGen.cases_head hrest with heq | ⟨t, ⟨item, rest, hitem, -⟩, -⟩
  · cases hdone.symm.trans (congrArg Prod.snd heq)
  · cases hdone.symm.trans hitem

/-- Where an item makes no work, it is all that is worked off. -/
theorem Amid.of_done (h : Amid ns it ns' (item :: work)) (hdone : (ns.workOff it []).2.1 = []) :
    ns' = ns ∧ item = it ∧ work = [] := by
  rcases Relation.ReflTransGen.cases_head h with heq | ⟨s, ⟨fed, rest, hfed, rfl⟩, hrest⟩
  · cases heq
    exact ⟨rfl, rfl, rfl⟩
  · cases hfed
    rcases Relation.ReflTransGen.cases_head hrest with heq | ⟨t, ⟨next, rest, hnext, -⟩, -⟩
    · cases hdone.symm.trans (congrArg Prod.snd heq)
    · cases hdone.symm.trans hnext

/-- Where an item makes work of one item more, and that no further work, these two are all that is
worked off. -/
theorem Amid.of_next (h : Amid ns it ns' (item :: work)) {next : Item}
    (hnext : (ns.workOff it []).2.1 = [next])
    (hdone : ((ns.workOff it []).1.workOff next []).2.1 = []) :
    ns' = ns ∧ item = it ∨ ns' = (ns.workOff it []).1 ∧ item = next := by
  rcases Relation.ReflTransGen.cases_head h with heq | ⟨s, ⟨fed, rest, hfed, rfl⟩, hrest⟩
  · cases heq
    exact Or.inl ⟨rfl, rfl⟩
  · cases hfed
    rw [hnext] at hrest
    have hamid : Amid (ns.workOff it []).1 next ns' (item :: work) := hrest
    obtain ⟨hns, hitem, -⟩ := hamid.of_done hdone
    exact Or.inr ⟨hns, hitem⟩

theorem Course.of_singleton (h : Course ns [it] ns' item) (hdone : (ns.workOff it []).2.1 = []) :
    ns' = ns ∧ item = it := by
  obtain ⟨first, it', last, work, hitems, hamid⟩ := h
  rcases List.append_eq_singleton_iff.mp hitems.symm with ⟨rfl, hit⟩ | ⟨-, hit⟩
  · cases hit
    obtain ⟨hns, hitem, -⟩ := hamid.of_done hdone
    exact ⟨hns, hitem⟩
  · cases hit

/-- A delete is worked off when it is fed. -/
theorem Course.delete {id : String} (h : Course ns items ns' (.delete id)) :
    ∃ first last, items = first ++ .delete id :: last ∧ ns' = ns.applyAll first := by
  obtain ⟨first, it, last, work, rfl, hamid⟩ := h
  rcases hamid.upserts with ⟨rfl, hwork⟩ | hups
  · cases hwork
    exact ⟨first, last, rfl, rfl⟩
  · obtain ⟨u, hu⟩ := hups _ List.mem_cons_self
    cases hu

/-- So is a root. -/
theorem Course.root {id : String} (h : Course ns items ns' (.root id)) :
    ∃ first last, items = first ++ .root id :: last ∧ ns' = ns.applyAll first := by
  obtain ⟨first, it, last, work, rfl, hamid⟩ := h
  rcases hamid.upserts with ⟨rfl, hwork⟩ | hups
  · cases hwork
    exact ⟨first, last, rfl, rfl⟩
  · obtain ⟨u, hu⟩ := hups _ List.mem_cons_self
    cases hu

/-- Where an item makes no work, applying it is working it off. -/
theorem apply_of_done (hdone : (ns.workOff it []).2.1 = []) :
    (ns.apply it).1 = (ns.workOff it []).1 := by
  rw [apply]
  unfold settle
  dsimp only
  rw [hdone]
  unfold settle
  rfl

/-- What is said of every item that is worked off, for a run of which each item makes no work. -/
theorem forall_course_nil {P : Namespace → Item → Prop} :
    ∀ ns' item, Course ns [] ns' item → P ns' item := by
  rintro ns' item ⟨first, it, last, work, hitems, -⟩
  exact absurd hitems.symm (List.append_ne_nil_of_right_ne_nil _ (List.cons_ne_nil _ _))

theorem forall_course_cons {P : Namespace → Item → Prop} (hdone : (ns.workOff it []).2.1 = [])
    (hit : P ns it) (hrest : ∀ ns' item, Course (ns.apply it).1 items ns' item → P ns' item) :
    ∀ ns' item, Course ns (it :: items) ns' item → P ns' item := by
  rintro ns' item ⟨first, fed, last, work, hitems, hamid⟩
  rcases List.cons_eq_append_iff.mp hitems with ⟨rfl, hcons⟩ | ⟨first, rfl, rfl⟩
  · obtain ⟨rfl, rfl⟩ := List.cons.inj hcons
    obtain ⟨rfl, rfl, -⟩ := hamid.of_done hdone
    exact hit
  · exact hrest ns' item ⟨first, fed, last, work, rfl, hamid⟩

/-- **What is kept at every moment of a run** is kept by the run. -/
theorem applyAll_induction {P : Namespace → List Item → Prop}
    (hfeed : ∀ ns' it, it ∈ items → P ns' [] → P ns' [it])
    (hstep : ∀ ns' item work, Course ns items ns' item → P ns' (item :: work) →
      P (ns'.workOff item work).1 (ns'.workOff item work).2.1)
    (h : P ns []) : P (ns.applyAll items) [] := by
  induction items generalizing ns with
  | nil => exact h
  | cons it items ih =>
    rw [applyAll_cons]
    refine ih (fun ns' x hx ↦ hfeed ns' x (List.mem_cons_of_mem it hx))
      (fun ns' item work hcourse ↦ hstep ns' item work hcourse.cons) ?_
    refine apply_induction (fun ns' item work hamid ↦ ?_) (hfeed ns it List.mem_cons_self h)
    exact hstep ns' item work ⟨[], it, items, work, rfl, hamid⟩

/-- What begins to hold when the first item is fed. -/
theorem applyAll_cons_induction {P : Namespace → List Item → Prop}
    (hfeed : ∀ ns' x, x ∈ items → P ns' [] → P ns' [x])
    (hstep : ∀ ns' item work, Course ns (it :: items) ns' item → P ns' (item :: work) →
      P (ns'.workOff item work).1 (ns'.workOff item work).2.1)
    (h : P ns [it]) : P (ns.applyAll (it :: items)) [] := by
  rw [applyAll_cons]
  refine applyAll_induction hfeed
    (fun ns' item work hcourse ↦ hstep ns' item work hcourse.cons) ?_
  refine apply_induction (fun ns' item work hamid ↦ ?_) h
  exact hstep ns' item work ⟨[], it, items, work, rfl, hamid⟩

/-- Working off an item is applying it and taking from what waits. -/
theorem workOff_eq (ns : Namespace) (item : Item) (work : List Item) :
    ∃ waiting, waiting.Sublist (ns.applyOne item).1.waiting
      ∧ (ns.workOff item work).1 = { (ns.applyOne item).1 with waiting := waiting } := by
  rw [workOff]
  generalize ns.applyOne item = r
  obtain ⟨ns', attached, out⟩ := r
  cases attached with
  | none => exact ⟨ns'.waiting, List.Sublist.refl _, rfl⟩
  | some id => exact ⟨_, dropBucket_sublist _ id, rfl⟩

@[simp] theorem workOff_nodes : (ns.workOff item work).1.nodes = (ns.applyOne item).1.nodes := by
  obtain ⟨waiting, -, h⟩ := ns.workOff_eq item work
  rw [h]

@[simp] theorem workOff_root : (ns.workOff item work).1.root = (ns.applyOne item).1.root := by
  obtain ⟨waiting, -, h⟩ := ns.workOff_eq item work
  rw [h]

theorem workOff_changes (ns : Namespace) (item : Item) (work : List Item) :
    (ns.workOff item work).2.2 = (ns.applyOne item).2.2 := by
  rw [workOff]
  generalize ns.applyOne item = r
  obtain ⟨ns', attached, out⟩ := r
  cases attached with
  | none => rfl
  | some id => rfl

/-! ## The root -/

/-- **The root stays** unless it is deleted: nothing that would take its place fits. -/
theorem Tree.applyOne_root (h : ns.Tree) {r : String} (hr : ns.root = some r)
    (hitem : item ≠ .delete r) : (ns.applyOne item).1.root = some r := by
  have hout := ns.applyOne_outcome item
  generalize ns.applyOne item = t at hout
  cases hout with
  | foreign id r' _ _ => exact hr
  | root id hid => exact congrArg some (hid r hr).symm
  | refused u why _ => exact hr
  | held u _ _ => exact hr
  | attached u _ hfits =>
    rw [attach_eq, place_root, Namespace.cleared]
    split
    · rename_i hre
      obtain ⟨node, hnode, -⟩ := hfits.parent
      obtain ⟨r', hr', hunder⟩ := h.rooted u.parent node hnode
      cases hr.symm.trans hr'
      rw [delete_root ns u.id ((reshapes_iff.mp hre).imp fun _ h ↦ h.1), if_neg, hr]
      rw [hr]
      intro heq
      cases heq
      exact hfits.apart hunder
    · exact hr
  | deleted id =>
    have hid : id ≠ r := fun heq ↦ hitem (heq ▸ rfl)
    by_cases hnode : ∃ node, ns.nodes.lookup id = some node
    · rw [delete_root ns id hnode, if_neg, hr]
      rw [hr]
      intro heq
      exact hid (Option.some_inj.mp heq).symm
    · have hnone : ns.nodes.lookup id = none :=
        Option.eq_none_iff_forall_not_mem.mpr fun node hmem ↦ hnode ⟨node, hmem⟩
      rw [Namespace.delete, hnone]
      exact hr

/-- A tree gets a root from a root item alone. -/
theorem applyOne_root_none (hroot : ns.root = none) :
    (ns.applyOne item).1.root = none ∨ ∃ id, item = .root id
      ∧ (ns.applyOne item).1.root = some id := by
  have hout := ns.applyOne_outcome item
  generalize ns.applyOne item = t at hout
  cases hout with
  | foreign id r' hr _ => cases hroot.symm.trans hr
  | root id hid => exact Or.inr ⟨id, rfl, rfl⟩
  | refused u why _ => exact Or.inl hroot
  | held u _ _ => exact Or.inl hroot
  | attached u _ hfits =>
    left
    rw [attach_eq, place_root, Namespace.cleared]
    split
    · rename_i hre
      rw [delete_root ns u.id ((reshapes_iff.mp hre).imp fun _ h ↦ h.1), hroot, ite_self]
    · exact hroot
  | deleted id =>
    left
    by_cases hnode : ∃ node, ns.nodes.lookup id = some node
    · rw [delete_root ns id hnode, hroot, ite_self]
    · have hnone : ns.nodes.lookup id = none :=
        Option.eq_none_iff_forall_not_mem.mpr fun node hmem ↦ hnode ⟨node, hmem⟩
      rw [Namespace.delete, hnone]
      exact hroot

/-- In a run in which the root is never deleted, the root stays. -/
theorem Tree.applyAll_root (h : ns.Tree) {r : String} (hr : ns.root = some r)
    (hkeep : ∀ first last, items = first ++ .delete r :: last →
      (ns.applyAll first).root ≠ some r) : (ns.applyAll items).root = some r := by
  refine (applyAll_induction (P := fun ns _ ↦ ns.Tree ∧ ns.root = some r) (fun _ _ _ h ↦ h) ?_
    ⟨h, hr⟩).2
  rintro ns' item work hcourse ⟨htree, hroot⟩
  refine ⟨htree.workOff item work, ?_⟩
  rw [workOff_root]
  refine htree.applyOne_root hroot ?_
  rintro rfl
  obtain ⟨first, last, hitems, rfl⟩ := hcourse.delete
  exact hkeep first last hitems hroot

/-- In a run that begins without a root and never deletes one, the root is one that was fed. -/
theorem mem_of_applyAll_root (hroot : ns.root = none) {r : String}
    (hr : (ns.applyAll items).root = some r) (h : ns.Tree)
    (hkeep : ∀ first id last, items = first ++ .delete id :: last →
      (ns.applyAll first).root ≠ some id) : .root r ∈ items := by
  suffices hinv : (ns.applyAll items).Tree ∧
      ((ns.applyAll items).root = none ∨ ∃ id, .root id ∈ items
        ∧ (ns.applyAll items).root = some id) by
    rcases hinv.2 with hnone | ⟨id, hid, hsome⟩
    · cases hnone.symm.trans hr
    · cases hsome.symm.trans hr
      exact hid
  refine applyAll_induction (P := fun ns _ ↦ ns.Tree
    ∧ (ns.root = none ∨ ∃ id, .root id ∈ items ∧ ns.root = some id)) (fun _ _ _ h ↦ h) ?_
    ⟨h, Or.inl hroot⟩
  rintro ns' item work hcourse ⟨htree, hor⟩
  refine ⟨htree.workOff item work, ?_⟩
  rw [workOff_root]
  rcases hor with hnone | ⟨id, hid, hsome⟩
  · refine (applyOne_root_none hnone).imp_right ?_
    rintro ⟨id, rfl, hid⟩
    obtain ⟨first, last, rfl, -⟩ := hcourse.root
    exact ⟨id, List.mem_append_right _ List.mem_cons_self, hid⟩
  · refine Or.inr ⟨id, hid, htree.applyOne_root hsome ?_⟩
    rintro rfl
    obtain ⟨first, last, hitems, rfl⟩ := hcourse.delete
    exact hkeep first id last hitems hsome

end Namespace

end HydrationAPI.Client
