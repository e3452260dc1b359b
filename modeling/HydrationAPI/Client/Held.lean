import HydrationAPI.Client.Course

/-!
# What is held

An item that has been fed is a node of the tree, waits for its parent, or is about to be worked off.
It stays one of these until it is deleted with something it hangs from, or refused.
-/

namespace HydrationAPI.Client

open Ancestry

namespace Namespace

/-- An item of the id `x` waits for `p`. -/
def WaitsFor (waiting : List Upsert) (x p : String) : Prop := ∃ u ∈ waiting, u.id = x ∧ u.parent = p

/-- `x` is `p`'s child, or waits for it. -/
def Hangs (ns : Namespace) (x p : String) : Prop := ns.up x = some p ∨ WaitsFor ns.waiting x p

/-- `x` is `a`, or hangs from it over any number of others. -/
def Hung (ns : Namespace) (a x : String) : Prop := Relation.ReflTransGen ns.Hangs x a

/-- An item of the id is a node, waits, or is to be worked off. -/
def Has (ns : Namespace) (work : List Item) (id : String) : Prop :=
  (∃ node, ns.nodes.lookup id = some node) ∨ (∃ u ∈ ns.waiting, u.id = id)
    ∨ ∃ x ∈ work, x.id = id ∧ ∀ i, x ≠ .delete i

variable {ns ns' : Namespace} {items work : List Item} {item it : Item} {id x a : String}

theorem hung_of_under (h : Under ns.up a x) : ns.Hung a x := 
  Relation.ReflTransGen.mono (fun _ _ hup ↦ Or.inl hup) _ _ h

theorem WaitsFor.mono {waiting waiting' : List Upsert} (hsub : waiting ⊆ waiting') {p : String}
    (h : WaitsFor waiting x p) : WaitsFor waiting' x p := by
  obtain ⟨u, hu, hux, hup⟩ := h
  exact ⟨u, hsub hu, hux, hup⟩

/-- What is not forgotten with the ids does not wait for them, over any number of others. -/
theorem mem_forgetFrom (stack : List String) {waiting : List Upsert} {u : Upsert}
    (hu : u ∈ waiting) : u ∈ forgetFrom stack waiting
      ∨ ∃ s ∈ stack, Relation.ReflTransGen (WaitsFor waiting) u.id s := by
  fun_induction forgetFrom stack waiting with
  | case1 waiting => exact Or.inl hu
  | case2 cur stack waiting ih =>
    by_cases hparent : u.parent = cur
    · exact Or.inr ⟨cur, List.mem_cons_self, .single ⟨u, hu, rfl, hparent⟩⟩
    · by_cases hid : u.id = cur
      · exact Or.inr ⟨cur, List.mem_cons_self, hid ▸ .refl⟩
      · have hrest : u ∈ dropItem (dropBucket waiting cur) cur := by
          simp [dropItem, dropBucket, hu, hparent, hid]
        refine (ih hrest).imp_right ?_
        rintro ⟨s, hs, hchain⟩
        have hsub : dropItem (dropBucket waiting cur) cur ⊆ waiting :=
          ((dropItem_sublist _ _).trans (dropBucket_sublist _ _)).subset
        have hchain' : Relation.ReflTransGen (WaitsFor waiting) u.id s :=
          Relation.ReflTransGen.mono (fun _ _ h ↦ WaitsFor.mono hsub h) _ _ hchain
        rcases List.mem_append.mp hs with hs | hs
        · obtain ⟨w, hw, rfl⟩ := List.mem_map.mp (List.mem_reverse.mp hs)
          have hwait := List.mem_filter.mp hw
          exact ⟨cur, List.mem_cons_self,
            hchain'.tail ⟨w, hwait.1, rfl, of_decide_eq_true hwait.2⟩⟩
        · exact ⟨s, List.mem_cons_of_mem cur hs, hchain'⟩

theorem mem_foldl_drop_waiting (ids : List String) {u : Upsert} (hu : u ∈ ns.waiting) :
    u ∈ (ids.foldl drop ns).waiting
      ∨ ∃ s ∈ ids, Relation.ReflTransGen (WaitsFor ns.waiting) u.id s := by
  induction ids generalizing ns with
  | nil => exact Or.inl hu
  | cons s ids ih =>
    rw [List.foldl_cons]
    rcases mem_forgetFrom [s] hu with hrest | ⟨s', hs', hchain⟩
    · refine (ih hrest).imp_right ?_
      rintro ⟨s', hs', hchain⟩
      have hsub : (ns.drop s).waiting ⊆ ns.waiting := (ns.drop_waiting_sublist s).subset
      exact ⟨s', List.mem_cons_of_mem s hs', 
        Relation.ReflTransGen.mono (fun _ _ h ↦ WaitsFor.mono hsub h) _ _ hchain⟩
    · cases List.mem_singleton.mp hs'
      exact Or.inr ⟨s, List.mem_cons_self, hchain⟩

/-- **A delete leaves what does not hang from the id**: what waits goes on waiting. -/
theorem Tree.mem_delete_waiting (h : ns.Tree) {u : Upsert} (hu : u ∈ ns.waiting)
    (hhung : ¬ ns.Hung id u.id) : u ∈ (ns.delete id).1.waiting := by
  have hwaits : ∀ s, Relation.ReflTransGen (WaitsFor ns.waiting) u.id s → Under ns.up id s → False :=
    fun s hchain hs ↦ 
      hhung ((Relation.ReflTransGen.mono (fun _ _ h ↦ Or.inr h) _ _ hchain).trans (hung_of_under hs))
  rw [Namespace.delete]
  split
  · rcases mem_forgetFrom [id] hu with hrest | ⟨s, hs, hchain⟩
    · exact hrest
    · cases List.mem_singleton.mp hs
      exact absurd (Under.refl ns.up id) (hwaits id hchain)
  · dsimp only
    rw [detach_waiting]
    rcases mem_foldl_drop_waiting (ns.collectIds id) hu with hrest | ⟨s, hs, hchain⟩
    · rcases mem_forgetFrom [id] hrest with hrest' | ⟨s, hs, hchain⟩
      · exact hrest'
      · cases List.mem_singleton.mp hs
        have hsub := (foldl_drop_waiting_sublist (ns.collectIds id) ns).subset
        exact absurd (Under.refl ns.up id)
          (hwaits id (Relation.ReflTransGen.mono (fun _ _ h ↦ WaitsFor.mono hsub h) _ _ hchain))
    · exact absurd (h.mem_collectIds.mp (Or.inr hs)) (hwaits s hchain)

/-- It leaves the nodes that do not, too. -/
theorem Tree.has_delete (h : ns.Tree) (hhas : ns.Has work id) (hhung : ¬ ns.Hung a id) :
    (ns.delete a).1.Has work id := by
  rcases hhas with ⟨node, hnode⟩ | ⟨u, hu, rfl⟩ | hwork
  · have hunder : ¬ Under ns.up a id := fun hunder ↦ hhung (hung_of_under hunder)
    exact Or.inl ⟨node, (h.delete_lookup_of_not_under hunder).trans hnode⟩
  · exact Or.inr (Or.inl ⟨u, h.mem_delete_waiting hu hhung, rfl⟩)
  · exact Or.inr (Or.inr hwork)

/-- Working off the item makes an item of the id go: the item is refused, a second root, or takes
away something the id hangs from. -/
def Loses (ns : Namespace) (id : String) : Item → Prop
  | .root j => ∃ r, ns.root = some r ∧ r ≠ j
  | .upsert u => ns.refusal u ≠ none ∨ ns.Reshapes u ∧ u.id ≠ id ∧ ns.Hung u.id id
  | .delete j => ns.Hung j id

/-- What an item that attached releases is to be worked off. -/
theorem has_workOff (h : (ns.applyOne item).1.Has work id) :
    (ns.workOff item work).1.Has (ns.workOff item work).2.1 id := by
  rw [workOff]
  generalize ns.applyOne item = r at h
  obtain ⟨ns', attached, out⟩ := r
  cases attached with
  | none => exact h
  | some a =>
    rcases h with hnode | ⟨u, hu, rfl⟩ | ⟨x, hx, hxid, hdel⟩
    · exact Or.inl hnode
    · by_cases hparent : u.parent = a
      · refine Or.inr (Or.inr ⟨.upsert u, List.mem_append_left _ ?_, rfl, fun i h ↦ by cases h⟩)
        exact List.mem_reverse.mpr (List.mem_map_of_mem
          (List.mem_filter.mpr ⟨hu, decide_eq_true hparent⟩))
      · exact Or.inr (Or.inl ⟨u, List.mem_filter.mpr ⟨hu, decide_eq_true hparent⟩, rfl⟩)
    · exact Or.inr (Or.inr ⟨x, List.mem_append_right _ hx, hxid, hdel⟩)

/-- **An item stays** until it is lost. -/
theorem Tree.has_step (h : ns.Tree) (hhas : ns.Has (item :: work) id) (hkeeps : ¬ ns.Loses id item) :
    (ns.workOff item work).1.Has (ns.workOff item work).2.1 id := by
  refine has_workOff ?_
  -- it is the item that is worked off, or it is elsewhere
  have hor : (item.id = id ∧ ∀ i, item ≠ .delete i) ∨ ns.Has work id := by
    rcases hhas with hnode | hwaits | ⟨x, hx, hxid, hdel⟩
    · exact Or.inr (Or.inl hnode)
    · exact Or.inr (Or.inr (Or.inl hwaits))
    · rcases List.mem_cons.mp hx with rfl | hx
      · exact Or.inl ⟨hxid, hdel⟩
      · exact Or.inr (Or.inr (Or.inr ⟨x, hx, hxid, hdel⟩))
  have hout := ns.applyOne_outcome item
  generalize ns.applyOne item = r at hout
  cases hout with
  | foreign j r hr hne => exact absurd ⟨r, hr, hne⟩ hkeeps
  | root j hroot =>
    by_cases hj : id = j
    · subst hj
      exact Or.inl ⟨_, AList.lookup_insert _⟩
    · have hhas := hor.resolve_left fun heq ↦ hj heq.1.symm
      refine hhas.imp_left fun ⟨node, hnode⟩ ↦ ⟨node, ?_⟩
      exact (AList.lookup_insert_ne hj).trans hnode
  | refused u why hwhy =>
    refine absurd (Or.inl ?_) hkeeps
    rw [hwhy]
    exact Option.some_ne_none why
  | held u _ _ =>
    rcases hor with ⟨hid, -⟩ | hnode | ⟨w, hw, hwid⟩ | hwork
    · exact Or.inr (Or.inl ⟨u, List.mem_append_right _ (List.mem_singleton.mpr rfl), hid⟩)
    · exact Or.inl hnode
    · exact Or.inr (Or.inl ⟨w, List.mem_append_left _ hw, hwid⟩)
    · exact Or.inr (Or.inr hwork)
  | attached u _ _ =>
    by_cases hid : id = u.id
    · subst hid
      exact Or.inl ⟨_, attach_lookup_self⟩
    · have hhas : (ns.cleared u).Has work id := by
        have hhas := hor.resolve_left fun heq ↦ hid heq.1.symm
        rw [Namespace.cleared]
        split
        · rename_i hre
          exact h.has_delete hhas fun hhung ↦ hkeeps (Or.inr ⟨hre, fun heq ↦ hid heq.symm, hhung⟩)
        · exact hhas
      rw [attach_eq]
      rcases hhas with ⟨node, hnode⟩ | ⟨w, hw, hwid⟩ | hwork
      · exact Or.inl ⟨node, (place_lookup _ _ _ _).trans ((if_neg hid).trans hnode)⟩
      · exact Or.inr (Or.inl ⟨w, (place_waiting _ _ _).symm ▸ hw, hwid⟩)
      · exact Or.inr (Or.inr hwork)
  | deleted j =>
    have hhas := hor.resolve_left fun heq ↦ heq.2 j rfl
    exact h.has_delete hhas hkeeps

/-- **An item that is fed and never lost is a node** when nothing waits any more. -/
theorem Tree.exists_node_of_fed (h : ns.Tree) (hit : ∀ i, it ≠ .delete i)
    (hkeeps : ∀ ns' item, Course ns (it :: items) ns' item → ¬ ns'.Loses it.id item)
    (hwaits : (ns.applyAll (it :: items)).waiting = []) :
    ∃ node, (ns.applyAll (it :: items)).nodes.lookup it.id = some node := by
  have hall : (ns.applyAll (it :: items)).Tree ∧ (ns.applyAll (it :: items)).Has [] it.id := by
    refine applyAll_cons_induction (P := fun ns' work ↦ ns'.Tree ∧ ns'.Has work it.id) ?_ ?_
      ⟨h, Or.inr (Or.inr ⟨it, List.mem_cons_self, rfl, hit⟩)⟩
    · rintro ns' fed - ⟨htree, hhas⟩
      refine ⟨htree, hhas.imp_right (Or.imp_right ?_)⟩
      rintro ⟨x, hx, -⟩
      exact absurd hx List.not_mem_nil
    · intro ns' item work hcourse hns'
      exact ⟨hns'.1.workOff item work, hns'.1.has_step hns'.2 (hkeeps ns' item hcourse)⟩
  rcases hall.2 with hnode | ⟨u, hu, -⟩ | ⟨x, hx, -⟩
  · exact hnode
  · rw [hwaits] at hu
    exact absurd hu List.not_mem_nil
  · exact absurd hx List.not_mem_nil

end Namespace

end HydrationAPI.Client
