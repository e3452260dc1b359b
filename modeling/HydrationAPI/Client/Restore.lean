import HydrationAPI.Client.Listing
import HydrationAPI.Client.Wellformed

/-!
# What a snapshot gives back

A snapshot lists the nodes of the tree, parents before children, and a restore applies them one
after the other to an empty namespace. Each fits where it was, but that no item is attached more
than `maxDepth` deep. A folder that is moved takes what lies beneath it along, however deep that
comes to lie; so a live tree can be deeper than one that is built from nothing.

How deep the nodes lie decides what is given back: all that lie no deeper than that, and no others.
-/

namespace HydrationAPI.Client

open Ancestry

namespace Namespace

variable {ns : Namespace}

/-! ## What a snapshot holds -/

theorem mem_kidItems {id : String} {u : Upsert} : u ∈ ns.kidItems id ↔ u.parent = id
    ∧ u.id ∈ ns.kids id ∧ ∃ node, ns.nodes.lookup u.id = some node ∧ u.name = node.name
      ∧ u.kind = node.kind := by
  rw [kidItems, List.mem_filterMap]
  constructor
  · rintro ⟨kid, hkid, hu⟩
    obtain ⟨node, hnode, rfl⟩ := Option.map_eq_some_iff.mp hu
    exact ⟨rfl, hkid, node, hnode, rfl, rfl⟩
  · rintro ⟨rfl, hkid, node, hnode, hname, hkind⟩
    refine ⟨u.id, hkid, Option.map_eq_some_iff.mpr ⟨node, hnode, ?_⟩⟩
    rw [← hname, ← hkind]

/-- An item of a snapshot says of a node what it is. -/
def Describes (ns : Namespace) (u : Upsert) : Prop :=
  ns.nodes.lookup u.id = some ⟨some u.parent, u.name, u.kind⟩

theorem Tree.describes (h : ns.Tree) {id : String} {u : Upsert} (hu : u ∈ ns.kidItems id) :
    ns.Describes u := by
  obtain ⟨rfl, hkid, node, hnode, hname, hkind⟩ := mem_kidItems.mp hu
  have hparent : node.parent = some u.parent :=
    (up_of_lookup hnode).symm.trans ((h.kids _ _).mp hkid)
  rw [Describes, hnode, hname, hkind, ← hparent]

theorem Tree.describes_of_mem (h : ns.Tree) {queue seen : List String} {u : Upsert}
    (hu : u ∈ ns.snapshotFrom queue seen) : ns.Describes u := by
  fun_induction snapshotFrom ns queue seen with
  | case1 seen => exact absurd hu List.not_mem_nil
  | case2 cur queue seen _ ih => exact ih hu
  | case3 cur queue seen _ ih =>
    rcases List.mem_append.mp hu with hu | hu
    · exact h.describes hu
    · exact ih hu

/-- The children of what is in the queue are there, and of everything else that is. -/
theorem kidItems_subset_snapshotFrom {queue seen : List String} {x : String}
    (hx : x ∈ queue ∨ ∃ u ∈ ns.snapshotFrom queue seen, u.id = x) :
    x ∈ seen ∨ ns.kidItems x ⊆ ns.snapshotFrom queue seen := by
  fun_induction snapshotFrom ns queue seen with
  | case1 seen =>
    rcases hx with hx | ⟨u, hu, -⟩
    · exact absurd hx List.not_mem_nil
    · exact absurd hu List.not_mem_nil
  | case2 cur queue seen hcur ih =>
    rcases hx with hx | hx
    · rcases List.mem_cons.mp hx with rfl | hx
      · exact Or.inl hcur
      · exact ih (Or.inl hx)
    · exact ih (Or.inr hx)
  | case3 cur queue seen hcur ih =>
    have hself : ns.kidItems cur ⊆ ns.kidItems cur
        ++ ns.snapshotFrom (queue ++ (ns.kidItems cur).map Upsert.id) (cur :: seen) :=
      List.subset_append_left _ _
    have hrest : x ∈ queue ++ (ns.kidItems cur).map Upsert.id
          ∨ (∃ u ∈ ns.snapshotFrom (queue ++ (ns.kidItems cur).map Upsert.id) (cur :: seen),
            u.id = x) →
        x ∈ seen ∨ ns.kidItems x ⊆ ns.kidItems cur
          ++ ns.snapshotFrom (queue ++ (ns.kidItems cur).map Upsert.id) (cur :: seen) := by
      intro hx
      rcases ih hx with hx | hx
      · rcases List.mem_cons.mp hx with rfl | hx
        · exact Or.inr hself
        · exact Or.inl hx
      · exact Or.inr fun u hu ↦ List.mem_append_right _ (hx hu)
    rcases hx with hx | ⟨u, hu, rfl⟩
    · rcases List.mem_cons.mp hx with rfl | hx
      · exact Or.inr hself
      · exact hrest (Or.inl (List.mem_append_left _ hx))
    · rcases List.mem_append.mp hu with hu | hu
      · exact hrest (Or.inl (List.mem_append_right _ (List.mem_map_of_mem hu)))
      · exact hrest (Or.inr ⟨u, hu, rfl⟩)

/-- Every node but the root is there. -/
theorem Tree.exists_mem_snapshotFrom (h : ns.Tree) {r id : String}
    (hid : Under ns.up r id) (hne : id ≠ r) : ∃ u ∈ ns.snapshotFrom [r] [], u.id = id := by
  induction hid using Relation.ReflTransGen.head_induction_on with
  | refl => exact absurd rfl hne
  | @head id p hup hp ih =>
    obtain ⟨node, hnode, -⟩ := lookup_of_up hup
    have hkid : (⟨id, p, node.name, node.kind⟩ : Upsert) ∈ ns.kidItems p :=
      mem_kidItems.mpr ⟨rfl, (h.kids p id).mpr hup, node, hnode, rfl, rfl⟩
    have hthere : p ∈ [r] ∨ ∃ u ∈ ns.snapshotFrom [r] [], u.id = p := by
      by_cases hpr : p = r
      · exact Or.inl (List.mem_singleton.mpr hpr)
      · exact Or.inr (ih hpr)
    exact ⟨_, (kidItems_subset_snapshotFrom hthere).resolve_left List.not_mem_nil hkid, rfl⟩

/-- Items whose parents are known when they come, and whose ids are not. -/
inductive Ordered : List String → List Upsert → Prop
  | nil (known : List String) : Ordered known []
  | cons {known : List String} {u : Upsert} {us : List Upsert} : u.parent ∈ known →
      u.id ∉ known → Ordered (u.id :: known) us → Ordered known (u :: us)

/-- Only the membership of what is known matters. -/
theorem Ordered.congr {known known' : List String} {us : List Upsert} (h : Ordered known us)
    (hiff : ∀ x, x ∈ known' ↔ x ∈ known) : Ordered known' us := by
  induction h generalizing known' with
  | nil => exact .nil known'
  | @cons known u us hparent hid _ ih =>
    refine .cons ((hiff _).mpr hparent) ((hiff _).not.mpr hid) (ih fun x ↦ ?_)
    rw [List.mem_cons, List.mem_cons, hiff]

theorem Ordered.append {known : List String} {us vs : List Upsert} (hus : Ordered known us)
    (hvs : Ordered ((us.map Upsert.id) ++ known) vs) : Ordered known (us ++ vs) := by
  induction hus with
  | nil => exact hvs
  | @cons known u us hparent hid _ ih =>
    refine .cons hparent hid (ih (hvs.congr fun x ↦ ?_))
    simp only [List.mem_append, List.mem_cons, List.map_cons]
    tauto

/-- New items of one parent that is known. -/
theorem Ordered.siblings {known : List String} {p : String} {us : List Upsert} (hp : p ∈ known)
    (hparent : ∀ u ∈ us, u.parent = p) (hnew : ∀ u ∈ us, u.id ∉ known)
    (hnodup : (us.map Upsert.id).Nodup) : Ordered known us := by
  induction us generalizing known with
  | nil => exact .nil known
  | cons u us ih =>
    obtain ⟨hu, hus⟩ := List.nodup_cons.mp hnodup
    refine .cons (hparent u List.mem_cons_self ▸ hp) (hnew u List.mem_cons_self)
      (ih (List.mem_cons_of_mem _ hp) (fun v hv ↦ hparent v (List.mem_cons_of_mem _ hv))
        (fun v hv ↦ ?_) hus)
    rw [List.mem_cons, not_or]
    refine ⟨fun heq ↦ hu ?_, hnew v (List.mem_cons_of_mem _ hv)⟩
    exact heq ▸ List.mem_map_of_mem hv

theorem kidItems_nodup (h : ns.InOrder) (id : String) : ((ns.kidItems id).map Upsert.id).Nodup := by
  have hkids : (ns.kids id).Nodup := (h id).imp fun hlt ↦ hlt.ne
  have hsub : ((ns.kidItems id).map Upsert.id).Sublist (ns.kids id) := by
    rw [kidItems]
    induction ns.kids id with
    | nil => exact List.Sublist.refl _
    | cons kid kids ih =>
      rw [List.filterMap_cons]
      split
      · exact ih.cons kid
      · rename_i u hu
        obtain ⟨node, -, rfl⟩ := Option.map_eq_some_iff.mp hu
        exact ih.cons_cons kid
  exact hkids.sublist hsub

/-- **Parents come before children, and nothing comes twice.** -/
theorem Sound.ordered_snapshotFrom (h : ns.Sound) {queue seen known : List String}
    (hqueue : ∀ x ∈ queue, x ∈ known)
    (hfresh : ∀ x, x ∉ seen → ∀ kid ∈ ns.kids x, kid ∉ known) :
    Ordered known (ns.snapshotFrom queue seen) := by
  fun_induction snapshotFrom ns queue seen generalizing known with
  | case1 seen => exact .nil known
  | case2 cur queue seen _ ih =>
    exact ih (fun x hx ↦ hqueue x (List.mem_cons_of_mem _ hx)) hfresh
  | case3 cur queue seen hcur ih =>
    have hkids : ∀ u ∈ ns.kidItems cur, u.parent = cur ∧ u.id ∈ ns.kids cur := fun u hu ↦
      ⟨(mem_kidItems.mp hu).1, (mem_kidItems.mp hu).2.1⟩
    refine (Ordered.siblings (hqueue cur List.mem_cons_self) (fun u hu ↦ (hkids u hu).1)
      (fun u hu ↦ hfresh cur hcur u.id (hkids u hu).2) (kidItems_nodup h.inOrder cur)).append
      (ih (fun x hx ↦ ?_) fun x hx kid hkid hmem ↦ ?_)
    · rcases List.mem_append.mp hx with hx | hx
      · exact List.mem_append_right _ (hqueue x (List.mem_cons_of_mem _ hx))
      · exact List.mem_append_left _ hx
    · obtain ⟨hne, hx⟩ := not_or.mp (List.mem_cons.not.mp hx)
      rcases List.mem_append.mp hmem with hmem | hmem
      · -- a node has one parent
        obtain ⟨u, hu, rfl⟩ := List.mem_map.mp hmem
        have hup := (h.tree.kids cur u.id).mp (hkids u hu).2
        exact hne (Option.some_inj.mp (((h.tree.kids x u.id).mp hkid).symm.trans hup))
      · exact hfresh x hx kid hkid hmem

/-! ## What is rebuilt -/

/-- No deeper than items are attached. -/
def Shallow (ns : Namespace) (x : String) : Prop := ∃ n ≤ maxDepth, Depth ns.up x n

/-- A node that is deeper. -/
def TooDeep (ns : Namespace) (x : String) : Prop :=
  (∃ node, ns.nodes.lookup x = some node) ∧ ¬ ns.Shallow x

/-- An item whose parent is there is refused for where it lies only. -/
theorem refusal_eq_none_iff {u : Upsert} {node : Node} {d : ℕ} (hname : badName u.name = none)
    (hparent : ns.nodes.lookup u.parent = some node) (hkind : node.kind.tag ≠ .file)
    (hd : Depth ns.up u.parent d) (hapart : ¬ Under ns.up u.id u.parent) :
    ns.refusal u = none ↔ d < maxDepth := by
  rw [refusal, hname, hparent]
  dsimp only
  rw [if_neg hkind, wouldCycle, ← meets_eq_false_iff hd hapart]
  split
  · rename_i hcycle
    rw [hcycle]
    exact iff_of_false (Option.some_ne_none _) Bool.true_eq_false.mp
  · rename_i hcycle
    exact iff_of_true rfl (Bool.eq_false_iff.mpr hcycle)

/-- Nothing waits for the id. -/
theorem bucket_of_not_awaited {waiting : List Upsert} {id : String}
    (h : ∀ v ∈ waiting, v.parent ≠ id) : bucket waiting id = [] ∧ dropBucket waiting id = waiting :=
  ⟨List.filter_eq_nil_iff.mpr fun v hv hid ↦ h v hv (of_decide_eq_true hid),
    List.filter_eq_self.mpr fun v hv ↦ decide_eq_true (h v hv)⟩

/-- An id that nothing waits for is refused alone. -/
theorem refuse_of_not_awaited {id : String} {why : Problem} (h : ∀ v ∈ ns.waiting, v.parent ≠ id) :
    ns.refuse id why = { ns with problems := ns.problems.insert id why } := by
  obtain ⟨hbucket, hdrop⟩ := bucket_of_not_awaited h
  rw [refuse, refuseFrom, hbucket, hdrop]
  simp [refuseFrom]

/-- An id that attaches is that of the item. -/
theorem applyOne_attached {u : Upsert} {id : String}
    (h : (ns.applyOne (.upsert u)).2.1 = some id) : id = u.id := by
  have hout := ns.applyOne_outcome (.upsert u)
  generalize ns.applyOne (.upsert u) = r at hout h
  cases hout with
  | refused _ why _ => cases h
  | held _ _ _ => cases h
  | attached _ _ _ => exact (Option.some_inj.mp h).symm

/-- An item that nothing waited for is applied alone. -/
theorem apply_of_not_awaited {item : Item}
    (h : ∀ id, (ns.applyOne item).2.1 = some id → ∀ v ∈ (ns.applyOne item).1.waiting, v.parent ≠ id) :
    (ns.apply item).1 = (ns.applyOne item).1 := by
  have hwork : (ns.workOff item []).1 = (ns.applyOne item).1 ∧ (ns.workOff item []).2.1 = [] := by
    rw [workOff]
    generalize ns.applyOne item = r at h
    obtain ⟨ns', attached, out⟩ := r
    cases attached with
    | none => exact ⟨rfl, rfl⟩
    | some id =>
      obtain ⟨hbucket, hdrop⟩ := bucket_of_not_awaited (h id rfl)
      dsimp only
      rw [hbucket, hdrop]
      exact ⟨rfl, rfl⟩
  rw [apply, settle, hwork.2, settle]
  exact hwork.1

/-- A new id is attached beside what is there. -/
theorem attach_of_not_lookup {u : Upsert} (h : ns.nodes.lookup u.id = none) :
    (∀ x, (ns.attach u).1.nodes.lookup x
        = if x = u.id then some ⟨some u.parent, u.name, u.kind⟩ else ns.nodes.lookup x)
      ∧ (ns.attach u).1.root = ns.root
      ∧ (ns.attach u).1.waiting = ns.waiting
      ∧ (ns.attach u).1.problems = ns.problems.erase u.id := by
  have hcleared : ns.cleared u = ns := by
    refine if_neg fun hre ↦ ?_
    obtain ⟨prev, hprev, -⟩ := reshapes_iff.mp hre
    exact absurd (h.symm.trans hprev).symm (Option.some_ne_none prev)
  rw [attach_eq, hcleared, h]
  exact ⟨place_lookup ns none u, rfl, rfl, rfl⟩

/-- What lies beneath something is a node. -/
theorem node_of_depth {x : String} {n : ℕ} (h : Depth ns.up x n) (hn : 0 < n) :
    ∃ node, ns.nodes.lookup x = some node := by
  cases h with
  | top => exact absurd hn (lt_irrefl 0)
  | step hp _ => exact (lookup_of_up hp).imp fun _ hnode ↦ hnode.1

/-- **What a part of a snapshot gives**: the nodes it describes, as far as they are not too deep.
What is too deep waits or is refused. -/
structure Rebuilt (ns : Namespace) (known : List String) (ns' : Namespace) : Prop where
  tree : ns'.Tree
  root : ns'.root = ns.root
  kept : ∀ x ∈ known, ns.Shallow x → ns'.nodes.lookup x = ns.nodes.lookup x
  others : ∀ x, ¬ (x ∈ known ∧ ns.Shallow x) → ns'.nodes.lookup x = none
  waiting : ∀ u ∈ ns'.waiting, u.parent ∈ known ∧ ns.TooDeep u.id
  problems : ∀ id why, ns'.problems.lookup id = some why → ns.TooDeep id

namespace Rebuilt

variable {ns' : Namespace} {known : List String} {u : Upsert} {x : String} {node : Node}

theorem mem (h : Rebuilt ns known ns') (hx : ns'.nodes.lookup x = some node) :
    x ∈ known ∧ ns.Shallow x := by
  by_contra hnot
  exact absurd ((h.others x hnot).symm.trans hx).symm (Option.some_ne_none node)

theorem lookup (h : Rebuilt ns known ns') (hx : ns'.nodes.lookup x = some node) :
    ns.nodes.lookup x = some node := by
  obtain ⟨hknown, hshallow⟩ := h.mem hx
  exact (h.kept x hknown hshallow).symm.trans hx

/-- A node lies as deep as it did. -/
theorem depth (h : Rebuilt ns known ns') {d : ℕ} (hd : Depth ns.up x d)
    (hx : ns'.nodes.lookup x = some node) : Depth ns'.up x d := by
  induction hd generalizing node with
  | @top x htop =>
    rw [up_of_lookup (h.lookup hx)] at htop
    exact .top ((up_of_lookup hx).trans htop)
  | @step x p d hp _ ih =>
    rw [up_of_lookup (h.lookup hx)] at hp
    have hp' : ns'.up x = some p := (up_of_lookup hx).trans hp
    obtain ⟨parent, hparent, -⟩ := h.tree.parent x p hp'
    exact .step hp' (ih hparent)

/-- A node that is not known does not lie above one that is there. -/
theorem not_under (h : Rebuilt ns known ns') (hid : u.id ∉ known)
    (hx : ns'.nodes.lookup x = some node) : ¬ Under ns'.up u.id x := by
  intro hunder
  obtain ⟨other, hother⟩ := h.tree.node_of_above hx hunder
  exact hid (h.mem hother).1

/-- A child lies one deeper. -/
theorem shallow_parent {d : ℕ} (hu : ns.Describes u) (hd : Depth ns.up u.id d) :
    ∃ e, Depth ns.up u.parent e ∧ d = e + 1 := by
  have hup : ns.up u.id = some u.parent := up_of_lookup hu
  cases hd with
  | top htop => exact absurd (htop.symm.trans hup).symm (Option.some_ne_none _)
  | @step _ p e hp he =>
    obtain rfl := Option.some_inj.mp (hp.symm.trans hup)
    exact ⟨e, he, rfl⟩

/-- **The next item of a snapshot** is attached, if it is not too deep. -/
theorem applyOne (hns : ns.Sound) (h : Rebuilt ns known ns') (hu : ns.Describes u)
    (hparent : u.parent ∈ known) (hid : u.id ∉ known) :
    Rebuilt ns (u.id :: known) (ns'.applyOne (.upsert u)).1
      ∧ ∀ v ∈ (ns'.applyOne (.upsert u)).1.waiting, v.parent ≠ u.id := by
  have hup : ns.up u.id = some u.parent := up_of_lookup hu
  have hname : badName u.name = none := hns.named u.id _ hu (Option.some_ne_none _)
  obtain ⟨d, hd⟩ := hns.tree.exists_depth hu
  obtain ⟨e, he, rfl⟩ := shallow_parent hu hd
  obtain ⟨node, hnode, hkind⟩ := hns.tree.parent u.id u.parent hup
  have hshallow : ns.Shallow u.id ↔ e < maxDepth :=
    ⟨fun ⟨n, hle, hn⟩ ↦ (hd.unique hn).le.trans hle, fun hlt ↦ ⟨e + 1, hlt, hd⟩⟩
  have hnew : ns'.nodes.lookup u.id = none := h.others u.id fun hmem ↦ hid hmem.1
  have hawaited : ∀ v ∈ ns'.waiting, v.parent ≠ u.id := fun v hv heq ↦
    hid (heq ▸ (h.waiting v hv).1)
  have htree := h.tree.applyOne (.upsert u)
  -- where the parent is there, the item is refused if it would lie too deep
  have hrefusal : ∀ node', ns'.nodes.lookup u.parent = some node' →
      (ns'.refusal u = none ↔ e < maxDepth) := by
    intro node' hnode'
    obtain rfl := Option.some_inj.mp (hnode.symm.trans (h.lookup hnode'))
    exact refusal_eq_none_iff hname hnode' hkind (h.depth he hnode') (h.not_under hid hnode')
  have hout := ns'.applyOne_outcome (.upsert u)
  generalize ns'.applyOne (.upsert u) = r at hout htree
  cases hout with
  | refused _ why hwhy =>
    have hdeep : ¬ ns.Shallow u.id := by
      intro hu'
      cases hparent' : ns'.nodes.lookup u.parent with
      | none =>
        rw [refusal, hname, hparent'] at hwhy
        cases hwhy
      | some node' =>
        rw [(hrefusal node' hparent').mpr (hshallow.mp hu')] at hwhy
        cases hwhy
    rw [refuse_of_not_awaited hawaited] at htree ⊢
    refine ⟨⟨htree, h.root, fun x hx hs ↦ ?_, fun x hx ↦ ?_, fun v hv ↦ ?_, fun id why' hw ↦ ?_⟩,
      hawaited⟩
    · have hne : x ≠ u.id := fun heq ↦ hdeep (heq ▸ hs)
      exact h.kept x ((List.mem_cons.mp hx).resolve_left hne) hs
    · exact h.others x fun hmem ↦ hx ⟨List.mem_cons_of_mem _ hmem.1, hmem.2⟩
    · exact ⟨List.mem_cons_of_mem _ (h.waiting v hv).1, (h.waiting v hv).2⟩
    · by_cases hidu : id = u.id
      · exact hidu ▸ ⟨⟨_, hu⟩, hdeep⟩
      · exact h.problems id why' ((AList.lookup_insert_ne hidu).symm.trans hw)
  | held _ _ hnone =>
    have hdeep : ¬ ns.Shallow u.id := by
      intro hu'
      have hp := h.kept u.parent hparent ⟨e, (hshallow.mp hu').le, he⟩
      exact absurd (hnone.symm.trans (hp.trans hnode)).symm (Option.some_ne_none _)
    refine ⟨⟨htree, h.root, fun x hx hs ↦ ?_, fun x hx ↦ ?_, fun v hv ↦ ?_, h.problems⟩,
      fun v hv ↦ ?_⟩
    · have hne : x ≠ u.id := fun heq ↦ hdeep (heq ▸ hs)
      exact h.kept x ((List.mem_cons.mp hx).resolve_left hne) hs
    · exact h.others x fun hmem ↦ hx ⟨List.mem_cons_of_mem _ hmem.1, hmem.2⟩
    · rcases List.mem_append.mp hv with hv | hv
      · exact ⟨List.mem_cons_of_mem _ (h.waiting v hv).1, (h.waiting v hv).2⟩
      · obtain rfl := List.mem_singleton.mp hv
        exact ⟨List.mem_cons_of_mem _ hparent, ⟨_, hu⟩, hdeep⟩
    · rcases List.mem_append.mp hv with hv | hv
      · exact hawaited v hv
      · obtain rfl := List.mem_singleton.mp hv
        exact fun heq ↦ hid (heq ▸ hparent)
  | attached _ hnone hfits =>
    obtain ⟨⟨node', hnode', -⟩, -⟩ := hfits
    have hlt : ns.Shallow u.id := hshallow.mpr ((hrefusal node' hnode').mp hnone)
    obtain ⟨hlookup, hroot, hwaiting, hproblems⟩ := attach_of_not_lookup hnew
    refine ⟨⟨htree, hroot.trans h.root, fun x hx hs ↦ ?_, fun x hx ↦ ?_, fun v hv ↦ ?_,
      fun id why hw ↦ ?_⟩, hwaiting ▸ hawaited⟩
    · rw [hlookup]
      split
      · rename_i heq
        exact heq ▸ hu.symm
      · rename_i hne
        exact h.kept x ((List.mem_cons.mp hx).resolve_left hne) hs
    · rw [hlookup]
      split
      · rename_i heq
        exact absurd ⟨heq ▸ List.mem_cons_self, heq ▸ hlt⟩ hx
      · exact h.others x fun hmem ↦ hx ⟨List.mem_cons_of_mem _ hmem.1, hmem.2⟩
    · rw [hwaiting] at hv
      exact ⟨List.mem_cons_of_mem _ (h.waiting v hv).1, (h.waiting v hv).2⟩
    · rw [hproblems] at hw
      by_cases hidu : id = u.id
      · subst hidu
        rw [AList.lookup_erase] at hw
        cases hw
      · exact h.problems id why ((AList.lookup_erase_ne hidu).symm.trans hw)

/-- Nothing waited for it, so it is applied alone. -/
theorem apply (hns : ns.Sound) (h : Rebuilt ns known ns') (hu : ns.Describes u)
    (hparent : u.parent ∈ known) (hid : u.id ∉ known) :
    Rebuilt ns (u.id :: known) (ns'.apply (.upsert u)).1 := by
  obtain ⟨hone, hawaited⟩ := h.applyOne hns hu hparent hid
  have happly : (ns'.apply (.upsert u)).1 = (ns'.applyOne (.upsert u)).1 := by
    refine apply_of_not_awaited fun id hattached v hv ↦ ?_
    rw [applyOne_attached hattached]
    exact hawaited v hv
  rw [happly]
  exact hone

theorem applyAll (hns : ns.Sound) {us : List Upsert} (hus : Ordered known us)
    (hdescribes : ∀ u ∈ us, ns.Describes u) (h : Rebuilt ns known ns') :
    ∃ known', (∀ x, x ∈ known' ↔ x ∈ known ∨ ∃ u ∈ us, u.id = x)
      ∧ Rebuilt ns known' (ns'.applyAll (us.map Item.upsert)) := by
  induction hus generalizing ns' with
  | nil known => exact ⟨known, fun x ↦ by simp, h⟩
  | @cons known u us hparent hid _ ih =>
    obtain ⟨known', hmem, hrebuilt⟩ := ih (fun v hv ↦ hdescribes v (List.mem_cons_of_mem _ hv))
      (h.apply hns (hdescribes u List.mem_cons_self) hparent hid)
    refine ⟨known', fun x ↦ ?_, hrebuilt⟩
    rw [hmem, List.mem_cons, List.exists_mem_cons_iff]
    constructor
    · rintro ((rfl | hx) | hx)
      · exact Or.inr (Or.inl rfl)
      · exact Or.inl hx
      · exact Or.inr (Or.inr hx)
    · rintro (hx | rfl | hx)
      · exact Or.inl (Or.inr hx)
      · exact Or.inl (Or.inl rfl)
      · exact Or.inr hx

/-- The root alone. -/
theorem anchored (hns : ns.Sound) {r : String} (hr : ns.root = some r) :
    Rebuilt ns [r] (Namespace.new.apply (.root r)).1 := by
  have hdepth : Depth ns.up r 0 := .top (hns.tree.up_root hr)
  have happly : (Namespace.new.apply (.root r)).1
      = { Namespace.new with root := some r, nodes := AList.insert r ⟨none, "", .folder none⟩ ∅ } := by
    refine apply_of_not_awaited fun _ _ v hv ↦ ?_
    exact absurd hv List.not_mem_nil
  have hlookup : ∀ x, (Namespace.new.apply (.root r)).1.nodes.lookup x
      = if x = r then some ⟨none, "", .folder none⟩ else none := by
    intro x
    rw [happly]
    split
    · rename_i hx
      rw [hx]
      exact AList.lookup_insert _
    · rename_i hx
      exact (AList.lookup_insert_ne hx).trans (AList.lookup_empty _)
  refine ⟨Tree.new.apply _, ?_, fun x hx _ ↦ ?_, fun x hx ↦ ?_, ?_, ?_⟩
  · rw [happly, hr]
  · obtain rfl := List.mem_singleton.mp hx
    rw [hlookup, if_pos rfl, hns.tree.top x hr]
  · rw [hlookup, if_neg fun hxr ↦ hx ⟨List.mem_singleton.mpr hxr, ?_⟩]
    exact ⟨0, Nat.zero_le _, hxr ▸ hdepth⟩
  · rw [happly]
    exact fun v hv ↦ absurd hv List.not_mem_nil
  · rw [happly]
    intro id why hw
    cases hw

end Rebuilt

/-! ## What is given back -/

/-- **What a snapshot gives back**: the nodes that are not too deep, and no others. -/
theorem Sound.rebuilt (h : ns.Sound) : ∃ known, (∀ id node, ns.nodes.lookup id = some node →
    id ∈ known) ∧ Rebuilt ns known (Namespace.new.applyAll ns.snapshot) := by
  match hroot : ns.root with
  | none =>
    have hnone := h.tree.lookup_of_no_root hroot
    have hsnapshot : ns.snapshot = [] := by rw [snapshot, hroot]
    refine ⟨[], fun id node hid ↦ absurd ((hnone id).symm.trans hid).symm (Option.some_ne_none node),
      ?_⟩
    rw [hsnapshot]
    exact ⟨Tree.new, hroot.symm, fun x hx ↦ absurd hx List.not_mem_nil, fun x _ ↦ rfl,
      fun u hu ↦ absurd hu List.not_mem_nil, fun id why hw ↦ by cases hw⟩
  | some r =>
    have hsnapshot : ns.snapshot = .root r :: (ns.snapshotFrom [r] []).map Item.upsert := by
      rw [snapshot, hroot]
    have hordered : Ordered [r] (ns.snapshotFrom [r] []) := by
      refine h.ordered_snapshotFrom (fun x hx ↦ hx) fun x _ kid hkid hmem ↦ ?_
      obtain rfl := List.mem_singleton.mp hmem
      have hup := (h.tree.kids x kid).mp hkid
      exact absurd ((h.tree.up_root hroot).symm.trans hup).symm (Option.some_ne_none x)
    obtain ⟨known, hmem, hrebuilt⟩ := (Rebuilt.anchored h hroot).applyAll h hordered
      fun u hu ↦ h.tree.describes_of_mem hu
    refine ⟨known, fun id node hid ↦ (hmem id).mpr ?_, ?_⟩
    · obtain ⟨r', hr', hunder⟩ := h.tree.rooted id node hid
      obtain rfl := Option.some_inj.mp (hroot.symm.trans hr')
      by_cases hne : id = r
      · exact Or.inl (List.mem_singleton.mpr hne)
      · exact Or.inr (h.tree.exists_mem_snapshotFrom hunder hne)
    · rw [hsnapshot, applyAll_cons]
      exact hrebuilt

/-- Two namespaces with the same tree. -/
structure Same (ns ns' : Namespace) : Prop where
  nodes : ∀ id, ns'.nodes.lookup id = ns.nodes.lookup id
  kids : ∀ p, ns'.kids p = ns.kids p
  root : ns'.root = ns.root
  listing : ns'.listing = ns.listing

/-- What is listed is read off the nodes, the children and the root. -/
theorem listing_congr {ns' : Namespace} (hnodes : ∀ id, ns'.nodes.lookup id = ns.nodes.lookup id)
    (hkids : ∀ p, ns'.kids p = ns.kids p) (hroot : ns'.root = ns.root) :
    ns'.listing = ns.listing := by
  have hpath : ns'.pathOf = ns.pathOf := funext fun id ↦ pathOf_congr fun y _ ↦ by rw [hnodes]
  have hpresent : ns'.present = ns.present := funext fun id ↦ by
    rw [present, present, hnodes, hpath]
  have hopen : ∀ id, ns'.isOpen id = ns.isOpen id := fun id ↦ by rw [isOpen, isOpen, hnodes]
  have hcollect : ns'.collectTree = ns.collectTree := funext fun id ↦ by
    rw [collectTree, collectTree, Walk.walk_congr hkids hopen, hpresent]
  rw [listing, listing, hroot, hcollect]

/-- Trees with the same nodes have the same children, in the same order. -/
theorem Sound.kids_eq {ns' : Namespace} (h : ns.Sound) (h' : ns'.Sound)
    (hnodes : ∀ id, ns'.nodes.lookup id = ns.nodes.lookup id) (p : String) :
    ns'.kids p = ns.kids p := by
  refine List.Pairwise.eq_of_mem_iff (h'.inOrder p) (h.inOrder p) fun c ↦ ?_
  rw [h'.tree.kids, h.tree.kids, up_congr (hnodes c)]

/-- A restored snapshot is the same tree, with nothing pending, and nothing was refused on the way.
-/
structure GivenBack (ns : Namespace) : Prop where
  same : Same ns (restore ns.snapshot)
  pending : (restore ns.snapshot).waiting = []
  refused : ∀ id, (new.applyAll ns.snapshot).problems.lookup id = none

/-- **A snapshot gives the tree back if and only if no node of it lies more than `maxDepth` deep.**
-/
theorem givenBack_iff (items : List Item) : GivenBack (new.applyAll items)
    ↔ ∀ id n, Depth (new.applyAll items).up id n → n ≤ maxDepth := by
  have h : (new.applyAll items).Sound := Sound.new.applyAll items
  generalize new.applyAll items = ns at h
  obtain ⟨known, hknown, hrebuilt⟩ := h.rebuilt
  have hrestored : (restore ns.snapshot).Sound :=
    have hsound := Sound.new.applyAll ns.snapshot
    ⟨Tree.restore ns.snapshot, hsound.unmet, hsound.named, hsound.inOrder⟩
  constructor
  · intro hback id n hn
    by_contra hdeep
    obtain ⟨node, hnode⟩ := node_of_depth hn ((Nat.zero_le _).trans_lt (not_le.mp hdeep))
    have hnone : (restore ns.snapshot).nodes.lookup id = none :=
      hrebuilt.others id fun ⟨_, m, hle, hm⟩ ↦ hdeep ((hn.unique hm).le.trans hle)
    exact absurd (hnone.symm.trans ((hback.same.nodes id).trans hnode)).symm
      (Option.some_ne_none node)
  · intro hshallow
    have hall : ∀ id node, ns.nodes.lookup id = some node → ns.Shallow id := by
      intro id node hid
      obtain ⟨n, hn⟩ := h.tree.exists_depth hid
      exact ⟨n, hshallow id n hn, hn⟩
    have hnone : ∀ id, ¬ ns.TooDeep id := fun id ⟨⟨node, hid⟩, hdeep⟩ ↦ hdeep (hall id node hid)
    have hnodes : ∀ id, (restore ns.snapshot).nodes.lookup id = ns.nodes.lookup id := by
      intro id
      cases hid : ns.nodes.lookup id with
      | some node => exact (hrebuilt.kept id (hknown id node hid) (hall id node hid)).trans hid
      | none =>
        refine Option.eq_none_iff_forall_ne_some.mpr fun node hnode ↦ ?_
        exact absurd (hid.symm.trans (hrebuilt.lookup hnode)).symm (Option.some_ne_none node)
    have hkids := h.kids_eq hrestored hnodes
    refine ⟨⟨hnodes, hkids, hrebuilt.root, listing_congr hnodes hkids hrebuilt.root⟩, ?_, fun id ↦ ?_⟩
    · exact List.eq_nil_iff_forall_not_mem.mpr fun u hu ↦ hnone u.id (hrebuilt.waiting u hu).2
    · exact Option.eq_none_iff_forall_ne_some.mpr fun why hw ↦ hnone id (hrebuilt.problems id why hw)

/-! ### A folder that is moved with what lies beneath it -/

/-- An item that fits, where nothing waits. -/
theorem apply_fitting {u : Upsert} {node : Node} {d : ℕ} (hw : ns.waiting = [])
    (hname : badName u.name = none) (hparent : ns.nodes.lookup u.parent = some node)
    (hkind : node.kind.tag ≠ .file) (hd : Depth ns.up u.parent d) (hlt : d < maxDepth)
    (hapart : ¬ Under ns.up u.id u.parent) (hre : ¬ ns.Reshapes u) :
    (∀ x, (ns.apply (.upsert u)).1.nodes.lookup x
        = if x = u.id then some ⟨some u.parent, u.name, u.kind⟩ else ns.nodes.lookup x)
      ∧ (ns.apply (.upsert u)).1.waiting = [] := by
  have hrefusal := (refusal_eq_none_iff hname hparent hkind hd hapart).mpr hlt
  have hone : (ns.applyOne (.upsert u)).1 = (ns.attach u).1 := by
    rw [applyOne_of_parent hrefusal hparent]
  have hwaiting : (ns.attach u).1.waiting = [] :=
    List.sublist_nil.mp (hw ▸ ns.attach_waiting_sublist u)
  have happly : (ns.apply (.upsert u)).1 = (ns.applyOne (.upsert u)).1 := by
    refine apply_of_not_awaited fun id _ v hv ↦ ?_
    rw [hone, hwaiting] at hv
    exact absurd hv List.not_mem_nil
  rw [happly, hone]
  refine ⟨fun x ↦ ?_, hwaiting⟩
  rw [attach_eq, Namespace.cleared, if_neg hre]
  exact place_lookup ns _ u x

/-- The id of the `k`th folder of a chain; before the first is the root. -/
def chainId (c : Char) (k : ℕ) : String := String.ofList (List.replicate k c)

def chainLink (c : Char) (k : ℕ) : Upsert := ⟨chainId c (k + 1), chainId c k, "f", .folder none⟩

/-- Folders, each in the one before. -/
def chainItems (c : Char) (n : ℕ) : List Item := (List.range n).map fun k ↦ .upsert (chainLink c k)

theorem chainId_ne {c d : Char} {j k : ℕ} (h : j ≠ k ∨ c ≠ d) : chainId c (j + 1) ≠ chainId d (k + 1) := by
  intro heq
  have hlist : List.replicate (j + 1) c = List.replicate (k + 1) d := by
    rw [← String.toList_ofList (l := List.replicate (j + 1) c), ← chainId, heq, chainId,
      String.toList_ofList]
  rcases h with h | h
  · have hlength := congrArg List.length hlist
    simp only [List.length_replicate] at hlength
    omega
  · exact h (List.cons.inj hlist).1

theorem chainId_ne_root (c : Char) (k : ℕ) : chainId c (k + 1) ≠ "" := by
  intro heq
  have hlist := congrArg String.toList heq
  rw [chainId, String.toList_ofList] at hlist
  cases hlist

/-- A chain of `n` folders. -/
structure Chain (c : Char) (n : ℕ) (ns : Namespace) : Prop where
  top : ns.nodes.lookup "" = some ⟨none, "", .folder none⟩
  link : ∀ k < n, ns.nodes.lookup (chainId c (k + 1)) = some ⟨some (chainId c k), "f", .folder none⟩

namespace Chain

variable {c : Char} {n : ℕ}

theorem folder (h : Chain c n ns) {k : ℕ} (hk : k ≤ n) :
    ∃ node, ns.nodes.lookup (chainId c k) = some node ∧ node.kind.tag ≠ .file := by
  match k with
  | 0 => exact ⟨_, h.top, nofun⟩
  | k + 1 => exact ⟨_, h.link k hk, nofun⟩

theorem depth (h : Chain c n ns) {k : ℕ} (hk : k ≤ n) : Depth ns.up (chainId c k) k := by
  induction k with
  | zero => exact .top (up_of_lookup h.top)
  | succ k ih => exact .step (up_of_lookup (h.link k hk)) (ih (Nat.le_of_succ_le hk))

/-- A folder of another chain does not lie above. -/
theorem not_under (h : Chain c n ns) {d : Char} (hcd : c ≠ d) {j k : ℕ} (hk : k ≤ n) :
    ¬ Under ns.up (chainId d (j + 1)) (chainId c k) := by
  induction k with
  | zero =>
    intro hunder
    rcases hunder.cases with heq | ⟨p, hp, -⟩
    · exact chainId_ne_root d j heq.symm
    · exact absurd ((up_of_lookup h.top).symm.trans hp).symm (Option.some_ne_none p)
  | succ k ih =>
    intro hunder
    rcases hunder.cases with heq | ⟨p, hp, hunder⟩
    · exact chainId_ne (Or.inr hcd) heq
    · obtain rfl := Option.some_inj.mp ((up_of_lookup (h.link k hk)).symm.trans hp)
      exact ih (Nat.le_of_succ_le hk) hunder

/-- **A chain is built**, one folder after the other. -/
theorem build (hsound : ns.Sound) (hw : ns.waiting = []) (h : Chain c 0 ns)
    (hnew : ∀ k, ns.nodes.lookup (chainId c (k + 1)) = none) (hn : n ≤ maxDepth) :
    (ns.applyAll (chainItems c n)).waiting = [] ∧ Chain c n (ns.applyAll (chainItems c n))
      ∧ ∀ x, (∀ k < n, x ≠ chainId c (k + 1)) →
        (ns.applyAll (chainItems c n)).nodes.lookup x = ns.nodes.lookup x := by
  induction n with
  | zero => exact ⟨hw, h, fun _ _ ↦ rfl⟩
  | succ n ih =>
    obtain ⟨hwaiting, hchain, hothers⟩ := ih (Nat.le_of_succ_le hn)
    have hitems : chainItems c (n + 1) = chainItems c n ++ [.upsert (chainLink c n)] := by
      rw [chainItems, List.range_succ, List.map_append]
      rfl
    have hbuilt := hsound.applyAll (chainItems c n)
    rw [hitems, applyAll_append]
    generalize ns.applyAll (chainItems c n) = ns' at *
    have hfree : ns'.nodes.lookup (chainId c (n + 1)) = none := by
      rw [hothers _ fun k hk ↦ chainId_ne (Or.inl hk.ne')]
      exact hnew n
    obtain ⟨node, hnode, hkind⟩ := hchain.folder le_rfl
    have hapart : ¬ Under ns'.up (chainId c (n + 1)) (chainId c n) := by
      intro hunder
      obtain ⟨other, hother⟩ := hbuilt.tree.node_of_above hnode hunder
      exact absurd (hfree.symm.trans hother).symm (Option.some_ne_none other)
    have hre : ¬ ns'.Reshapes (chainLink c n) := by
      intro hre
      obtain ⟨prev, hprev, -⟩ := reshapes_iff.mp hre
      exact absurd (hfree.symm.trans hprev).symm (Option.some_ne_none prev)
    have hname : badName "f" = none := by decide
    obtain ⟨hlookup, hwaiting'⟩ := apply_fitting (u := chainLink c n) hwaiting hname
      hnode hkind (hchain.depth le_rfl) hn hapart hre
    refine ⟨hwaiting', ⟨?_, fun k hk ↦ ?_⟩, fun x hx ↦ ?_⟩
    · exact (hlookup "").trans ((if_neg (chainId_ne_root c n).symm).trans hchain.top)
    · rcases Nat.lt_succ_iff_lt_or_eq.mp hk with hk | rfl
      · exact (hlookup _).trans ((if_neg (chainId_ne (Or.inl hk.ne))).trans (hchain.link k hk))
      · exact (hlookup _).trans (if_pos rfl)
    · refine (hlookup x).trans ((if_neg (hx n (Nat.lt_succ_self n))).trans ?_)
      exact hothers x fun k hk ↦ hx k (hk.trans (Nat.lt_succ_self n))

end Chain

/-- Two chains of `n` folders, and the second moved beneath the first. -/
def deepItems (n : ℕ) : List Item :=
  .root "" :: (chainItems 'a' n ++ (chainItems 'b' n
    ++ [.upsert ⟨chainId 'b' 1, chainId 'a' n, "f", .folder none⟩]))

theorem apply_root : (new.apply (.root "")).1.waiting = [] ∧ ∀ x,
    (new.apply (.root "")).1.nodes.lookup x
      = if x = "" then some ⟨none, "", .folder none⟩ else none := by
  have happly : (new.apply (.root "")).1
      = { new with root := some "", nodes := AList.insert "" ⟨none, "", .folder none⟩ ∅ } :=
    apply_of_not_awaited fun _ _ v hv ↦ absurd hv List.not_mem_nil
  rw [happly]
  refine ⟨rfl, fun x ↦ ?_⟩
  split
  · rename_i hx
    rw [hx]
    exact AList.lookup_insert _
  · rename_i hx
    exact (AList.lookup_insert_ne hx).trans (AList.lookup_empty _)

/-- What is moved takes what lies beneath it along. -/
theorem depth_deepItems {n : ℕ} (hpos : 0 < n) (hn : n < maxDepth) :
    Depth (new.applyAll (deepItems n)).up (chainId 'b' n) (n + n) := by
  obtain ⟨hwaiting, htop⟩ := apply_root
  have hsound : (new.apply (.root "")).1.Sound := Sound.new.apply _
  rw [deepItems, applyAll_cons, applyAll_append, applyAll_append, applyAll_cons, applyAll_nil]
  generalize (new.apply (.root "")).1 = ns at *
  -- the first chain
  obtain ⟨hwaiting, ha, hothers⟩ := Chain.build (n := n) (c := 'a') hsound hwaiting
    ⟨htop "", fun k hk ↦ absurd hk (Nat.not_lt_zero k)⟩
    (fun k ↦ (htop _).trans (if_neg (chainId_ne_root 'a' k))) hn.le
  have hsound := hsound.applyAll (chainItems 'a' n)
  have hfree : ∀ k, (ns.applyAll (chainItems 'a' n)).nodes.lookup (chainId 'b' (k + 1)) = none := by
    intro k
    rw [hothers _ fun j _ ↦ chainId_ne (Or.inr (by decide)), htop, if_neg (chainId_ne_root 'b' k)]
  generalize ns.applyAll (chainItems 'a' n) = ns at *
  -- the second
  obtain ⟨hwaiting, hb, hothers⟩ := Chain.build (n := n) (c := 'b') hsound hwaiting
    ⟨ha.top, fun k hk ↦ absurd hk (Nat.not_lt_zero k)⟩ hfree hn.le
  have ha : Chain 'a' n (ns.applyAll (chainItems 'b' n)) := ⟨hb.top, fun k hk ↦ by
    rw [hothers _ fun j _ ↦ chainId_ne (Or.inr (by decide))]
    exact ha.link k hk⟩
  have hsound := hsound.applyAll (chainItems 'b' n)
  generalize ns.applyAll (chainItems 'b' n) = ns at *
  -- the move
  obtain ⟨node, hnode, hkind⟩ := ha.folder le_rfl
  have hname : badName "f" = none := by decide
  have hre : ¬ ns.Reshapes ⟨chainId 'b' 1, chainId 'a' n, "f", .folder none⟩ := by
    intro hre
    obtain ⟨prev, hprev, htag⟩ := reshapes_iff.mp hre
    obtain rfl := Option.some_inj.mp ((hb.link 0 hpos).symm.trans hprev)
    exact htag rfl
  obtain ⟨hlookup, -⟩ := apply_fitting
    (u := ⟨chainId 'b' 1, chainId 'a' n, "f", .folder none⟩) hwaiting hname hnode hkind
    (ha.depth le_rfl) hn (ha.not_under (by decide) le_rfl) hre
  generalize (ns.apply (.upsert ⟨chainId 'b' 1, chainId 'a' n, "f", .folder none⟩)).1 = ns' at *
  have ha : Chain 'a' n ns' := by
    refine ⟨(hlookup "").trans ((if_neg (chainId_ne_root 'b' 0).symm).trans ha.top), fun k hk ↦ ?_⟩
    exact (hlookup _).trans ((if_neg (chainId_ne (Or.inr (by decide)))).trans (ha.link k hk))
  have hdepth : ∀ k, k < n → Depth ns'.up (chainId 'b' (k + 1)) (n + (k + 1)) := by
    intro k hk
    induction k with
    | zero => exact .step (up_of_lookup ((hlookup _).trans (if_pos rfl))) (ha.depth le_rfl)
    | succ k ih =>
      have hlink := (hlookup (chainId 'b' (k + 2))).trans
        ((if_neg (chainId_ne (Or.inl (Nat.succ_ne_zero k)))).trans (hb.link (k + 1) hk))
      exact .step (up_of_lookup hlink) (ih (Nat.lt_of_succ_lt hk))
  obtain ⟨k, rfl⟩ := Nat.exists_eq_succ_of_ne_zero hpos.ne'
  exact hdepth k (Nat.lt_succ_self k)

/-- What comes to lie too deep is not given back. -/
theorem not_givenBack_deepItems {n : ℕ} (hn : n < maxDepth) (hdeep : maxDepth < n + n) :
    ¬ GivenBack (new.applyAll (deepItems n)) := by
  intro hback
  have hdepth := depth_deepItems (n := n) (by omega) hn
  obtain ⟨known, -, hrebuilt⟩ := (Sound.new.applyAll (deepItems n)).rebuilt
  have hnone := hrebuilt.others (chainId 'b' n) fun ⟨_, m, hle, hm⟩ ↦
    absurd ((hdepth.unique hm).le.trans hle) (not_le.mpr hdeep)
  obtain ⟨node, hnode⟩ := node_of_depth hdepth (by omega)
  exact absurd (hnone.symm.trans ((hback.same.nodes _).trans hnode)).symm (Option.some_ne_none node)

/-- The last of 300 folders that are moved beneath 300 others lies 600 deep. -/
theorem deep_not_givenBack : ¬ GivenBack (new.applyAll (deepItems 300)) :=
  not_givenBack_deepItems (by decide) (by decide)

end Namespace

end HydrationAPI.Client
