import HydrationAPI.Client.Listing

/-!
# The changes reflect the tree

Whoever takes up the changes of every item has what the listing shows, as long as nothing that has a
path is moved to where it has none, and no item that is released takes away what an item before it
in the same batch has placed.
-/

namespace HydrationAPI.Client

open Ancestry

namespace Namespace

/-- An item worked off earlier in the same batch has placed `x`, or taken it along. -/
def Carried (ns : Namespace) (it : Item) (ns' : Namespace) (work : List Item) (x : String) : Prop :=
  ∃ t v rest, Amid ns it t (.upsert v :: rest)
    ∧ Relation.TransGen Next (t, .upsert v :: rest) (ns', work)
    ∧ t.refusal v = none ∧ t.Fits v ∧ Under t.up v.id x

/-- In the batch of `it`, an item that is attached with another shape takes away a node with a path
that an item before it has carried. -/
def Undoes (ns : Namespace) (it : Item) : Prop :=
  ∃ ns' u work x, Amid ns it ns' (.upsert u :: work) ∧ ns'.refusal u = none ∧ ns'.Fits u
    ∧ ns'.Reshapes u ∧ Under ns'.up u.id x ∧ (ns'.pathOf x).isSome = true
    ∧ Carried ns it ns' (.upsert u :: work) x

/-- The changes of all items, in the order they are returned. -/
def changesOf : Namespace → List Item → List Change
  | _, [] => []
  | ns, it :: items => (ns.apply it).2 ++ changesOf (ns.apply it).1 items

/-- What the listing says, taken up from nothing. -/
def mirror (ns : Namespace) : Mirror := Change.fold (fun _ ↦ none) ns.listing

variable {ns ns' : Namespace} {it item : Item} {items work : List Item} {out : List Change}
  {x : String}

/-! ## No packages -/

theorem Tree.plain_applyOne (h : ns.Tree) (hplain : ns.Plain) (hitem : item.Plain) :
    (ns.applyOne item).1.Plain := by
  constructor
  · have hout := ns.applyOne_outcome item
    generalize ns.applyOne item = r at hout
    cases hout with
    | foreign id r _ _ => exact hplain.nodes
    | root id hid =>
      intro x node hx
      by_cases hxid : x = id
      · subst hxid
        cases (AList.lookup_insert _).symm.trans hx
        exact fun h ↦ by cases h
      · exact hplain.nodes x node ((AList.lookup_insert_ne hxid).symm.trans hx)
    | refused u why _ => exact hplain.nodes
    | held u _ _ => exact hplain.nodes
    | attached u _ _ => exact fun x node hx ↦ h.plain_attach hplain.nodes hitem hx
    | deleted id =>
      intro x node hx
      have hunder : ¬ Under ns.up id x := by
        intro hunder
        cases (h.delete_lookup_of_under hunder).symm.trans hx
      exact hplain.nodes x node ((h.delete_lookup_of_not_under hunder).symm.trans hx)
  · rcases ns.applyOne_waiting item with ⟨-, u, rfl, -, hheld⟩ | hsub
    · rw [hheld]
      intro w hw
      rcases List.mem_append.mp hw with hw | hw
      · exact hplain.waiting w hw
      · rw [List.mem_singleton.mp hw]
        exact hitem
    · exact fun u hu ↦ hplain.waiting u (hsub.subset hu)

theorem Tree.plain_workOff (h : ns.Tree) (hplain : ns.Plain) (hitems : ∀ x ∈ item :: work, x.Plain) :
    (ns.workOff item work).1.Plain ∧ ∀ x ∈ (ns.workOff item work).2.1, x.Plain := by
  have hone := h.plain_applyOne hplain (hitems item List.mem_cons_self)
  constructor
  · obtain ⟨waiting, hsub, heq⟩ := ns.workOff_eq item work
    rw [heq]
    exact ⟨hone.nodes, fun u hu ↦ hone.waiting u (hsub.subset hu)⟩
  · intro x hx
    rcases mem_workOff hx with hx | ⟨u, hu, rfl⟩
    · exact hitems x (List.mem_cons_of_mem item hx)
    · exact hone.waiting u hu

theorem Tree.plain_apply (h : ns.Tree) (hplain : ns.Plain) (hit : it.Plain) :
    (ns.apply it).1.Plain := by
  refine (apply_induction (P := fun ns' work ↦ ns'.Tree ∧ ns'.Plain ∧ ∀ x ∈ work, x.Plain) ?_
    ⟨h, hplain, fun x hx ↦ List.mem_singleton.mp hx ▸ hit⟩).2.1
  rintro ns' item work - ⟨htree, hplain, hitems⟩
  exact ⟨htree.workOff item work, htree.plain_workOff hplain hitems⟩

/-! ## A batch -/

/-- What has been said in the course of a batch. -/
structure Reflects (ns : Namespace) (it : Item) (ns' : Namespace) (work : List Item)
    (out : List Change) : Prop where
  amid : Amid ns it ns' work
  tree : ns'.Tree
  plain : ns'.Plain
  items : ∀ x ∈ work, x.Plain
  agrees : Change.fold ns.shown out = ns'.shown
  settled : Change.Settled out
  carried : ∀ c ∈ out, c.entry.isSome = true → Carried ns it ns' work c.id ∨ ns'.root = some c.id
  later : (work = [it] ∧ out = []) ∨ ∀ x ∈ work, ∃ u, x = .upsert u

/-- What is said to be there and not said to be gone is taken up. -/
theorem isSome_fold {m : Mirror} (h : Change.Settled out) {c : Change} (hc : c ∈ out)
    (hsome : c.entry.isSome = true) : (Change.fold m out c.key).isSome = true := by
  obtain ⟨a, d, b, rfl, hkey, hlast⟩ : ∃ a d b, out = a ++ d :: b ∧ d.key = c.key
      ∧ ∀ e ∈ b, e.key ≠ c.key := Updates.exists_last ⟨c, hc, rfl⟩
  rw [Change.fold, Updates.foldl_write_of_last hkey fun e he hekey ↦ absurd hekey (hlast e he)]
  rcases List.mem_append.mp hc with hca | hcb
  · exact (List.pairwise_append.mp h).2.2 c hca d List.mem_cons_self hkey.symm hsome
  · rcases List.mem_cons.mp hcb with rfl | hcb
    · exact hsome
    · exact absurd rfl (hlast c hcb)

theorem settled_of_gone (h : ∀ c ∈ out, c.entry = none) : Change.Settled out := by
  refine List.Pairwise.imp_of_mem (R := fun _ _ ↦ True) ?_ (List.pairwise_of_forall fun _ _ ↦ trivial)
  intro c d hc _ _ _ hsome
  rw [h c hc] at hsome
  cases hsome

section Step

variable (h : ns.Tree) (hplain : ns.Plain) (hitem : item.Plain)
include h hplain hitem

/-- What an item says is what goes with something that is deleted or takes another shape, the root,
or what is carried by it. -/
theorem Tree.mem_applyOne_changes {c : Change} (hc : c ∈ (ns.applyOne item).2.2) :
    (c.entry = none ∧ ((∃ id, item = .delete id)
        ∨ ∃ u, item = .upsert u ∧ ns.refusal u = none ∧ ns.Fits u ∧ ns.Reshapes u
          ∧ Under ns.up u.id c.id))
      ∨ c.entry.isSome = true ∧ ((ns.applyOne item).1.root = some c.id
        ∨ ∃ u, item = .upsert u ∧ ns.refusal u = none ∧ ns.Fits u ∧ Under ns.up u.id c.id) := by
  have hout := ns.applyOne_outcome item
  generalize ns.applyOne item = r at hout hc
  cases hout with
  | foreign id r _ _ => cases hc
  | root id hid =>
    cases List.mem_singleton.mp hc
    exact Or.inr ⟨rfl, Or.inl rfl⟩
  | refused u why _ => cases hc
  | held u _ _ => cases hc
  | attached u hrefusal hfits =>
    dsimp only at hc
    rw [attach_snd] at hc
    rcases List.mem_append.mp hc with hgone | hplaced
    · split at hgone
      · rename_i hre
        obtain ⟨hnone, hunder⟩ := h.mem_delete_changes hgone
        exact Or.inl ⟨hnone, Or.inr ⟨u, rfl, hrefusal, hfits, hre, hunder⟩⟩
      · cases hgone
    · obtain ⟨xs, hxs, hunder, -⟩ := h.exists_placed hfits hplain.nodes hitem
      rw [hxs] at hplaced
      obtain ⟨x, hx, hcx⟩ := List.mem_flatMap.mp hplaced
      obtain ⟨hid, hsome, -⟩ := mem_present hcx
      rw [Change.key_fst] at hid
      have hcleared := (h.attach_under_self hfits).mp (hunder x hx)
      exact Or.inr ⟨hsome, Or.inr ⟨u, rfl, hrefusal, hfits, hid ▸ h.under_of_cleared hcleared⟩⟩
  | deleted id => exact Or.inl ⟨(h.mem_delete_changes hc).1, Or.inl ⟨id, rfl⟩⟩

theorem Tree.settled_applyOne : Change.Settled (ns.applyOne item).2.2 := by
  have hout := ns.applyOne_outcome item
  generalize ns.applyOne item = r at hout
  cases hout with
  | foreign id r _ _ => exact List.Pairwise.nil
  | root id hid => exact List.pairwise_singleton _ _
  | refused u why _ => exact List.Pairwise.nil
  | held u _ _ => exact List.Pairwise.nil
  | attached u hrefusal hfits =>
    dsimp only
    rw [attach_snd]
    have hgone : ∀ c ∈ if ns.Reshapes u then (ns.delete u.id).2 else [], c.entry = none := by
      intro c hc
      split at hc
      · exact (h.mem_delete_changes hc).1
      · cases hc
    obtain ⟨xs, hxs, -, -⟩ := h.exists_placed hfits hplain.nodes hitem
    refine List.pairwise_append.mpr ⟨settled_of_gone hgone, ?_, fun c hc d _ _ hsome ↦ ?_⟩
    · rw [hxs]
      exact settled_present xs
    · rw [hgone c hc] at hsome
      cases hsome
  | deleted id => exact settled_of_gone fun c hc ↦ (h.mem_delete_changes hc).1

end Step

/-- **A batch goes on to reflect the tree** with every item that is worked off, unless the item
sinks or undoes what has been carried. -/
theorem Reflects.step (h : Reflects ns it ns' (item :: work) out)
    (hsinks : ∀ u, item = .upsert u → ns'.refusal u = none → ns'.Fits u → ¬ ns'.Sinks u)
    (hundo : ¬ Undoes ns it) :
    Reflects ns it (ns'.workOff item work).1 (ns'.workOff item work).2.1
      (out ++ (ns'.workOff item work).2.2) := by
  have hitem : item.Plain := h.items item List.mem_cons_self
  have hchanges := ns'.workOff_changes item work
  have hplain := h.tree.plain_workOff h.plain h.items
  have hnext : Next (ns', item :: work) ((ns'.workOff item work).1, (ns'.workOff item work).2.1) :=
    ⟨item, work, rfl, rfl⟩
  refine ⟨h.amid.next, h.tree.workOff item work, hplain.1, hplain.2, ?_, ?_, ?_, ?_⟩
  · rw [hchanges, Change.fold_append, h.agrees, h.tree.fold_applyOne h.plain hitem hsinks]
    exact (shown_congr fun x ↦ by rw [workOff_nodes]).symm
  · rw [hchanges]
    refine List.pairwise_append.mpr ⟨h.settled, h.tree.settled_applyOne h.plain hitem, ?_⟩
    intro c hc d hd hkey hsome
    rcases h.tree.mem_applyOne_changes h.plain hitem hd with ⟨-, hgone⟩ | ⟨hdsome, -⟩
    · -- what goes now has been said to be there: it is neither the root nor carried
      exfalso
      have hid : d.id = c.id := by rw [← Change.key_fst, ← hkey, Change.key_fst]
      rcases hgone with ⟨id, rfl⟩ | ⟨u, rfl, hrefusal, hfits, hre, hunder⟩
      · rcases h.later with ⟨-, rfl⟩ | hups
        · cases hc
        · obtain ⟨u, hu⟩ := hups _ List.mem_cons_self
          cases hu
      · rw [hid] at hunder
        rcases h.carried c hc hsome with hcarried | hroot
        · have hshown := isSome_fold (m := ns.shown) h.settled hc hsome
          rw [h.agrees] at hshown
          obtain ⟨-, path, -, -, hpath, -⟩ := exists_of_shown hshown
          rw [Change.key_fst] at hpath
          exact hundo ⟨ns', u, work, c.id, h.amid, hrefusal, hfits, hre, hunder,
            Option.isSome_iff_exists.mpr ⟨path, hpath⟩, hcarried⟩
        · obtain ⟨pnode, hpnode, -⟩ := hfits.parent
          obtain ⟨r, hr, hparent⟩ := h.tree.rooted u.parent pnode hpnode
          cases hroot.symm.trans hr
          rcases hunder.cases with heq | ⟨p, hp, -⟩
          · exact hfits.apart (heq ▸ hparent)
          · cases (h.tree.up_root hroot).symm.trans hp
    · exact hdsome
  · intro c hc hsome
    rw [workOff_root]
    rcases List.mem_append.mp hc with hout | hchunk
    · rcases h.carried c hout hsome with ⟨t, v, rest, hamid, htrans, hv⟩ | hroot
      · exact Or.inl ⟨t, v, rest, hamid, htrans.tail hnext, hv⟩
      · refine Or.inr (h.tree.applyOne_root hroot ?_)
        rintro rfl
        rcases h.later with ⟨-, rfl⟩ | hups
        · cases hout
        · obtain ⟨u, hu⟩ := hups _ List.mem_cons_self
          cases hu
    · rw [hchanges] at hchunk
      rcases h.tree.mem_applyOne_changes h.plain hitem hchunk with ⟨hnone, -⟩ | ⟨-, hthere⟩
      · rw [hnone] at hsome
        cases hsome
      · rcases hthere with hroot | ⟨u, rfl, hrefusal, hfits, hunder⟩
        · exact Or.inr hroot
        · exact Or.inl ⟨ns', u, work, h.amid, .single hnext, hrefusal, hfits, hunder⟩
  · right
    intro x hx
    rcases mem_workOff hx with hrest | ⟨u, -, rfl⟩
    · rcases h.later with ⟨hwork, -⟩ | hups
      · cases hwork
        cases hrest
      · exact hups x (List.mem_cons_of_mem item hrest)
    · exact ⟨u, rfl⟩

/-- **The changes of an item reflect what it does to the tree.** -/
theorem Tree.apply_reflects (h : ns.Tree) (hplain : ns.Plain) (hit : it.Plain)
    (hsinks : ∀ ns' u work, Amid ns it ns' (.upsert u :: work) → ns'.refusal u = none →
      ns'.Fits u → ¬ ns'.Sinks u) (hundo : ¬ Undoes ns it) :
    Change.fold ns.shown (ns.apply it).2 = (ns.apply it).1.shown := by
  have hreflects : Reflects ns it (ns.settle [it] []).1 [] (ns.settle [it] []).2 := by
    refine settle_induction (P := fun ns' work out ↦ Reflects ns it ns' work out) ?_ ?_
    · intro ns' item work out hns'
      refine hns'.step (fun u hu hrefusal hfits ↦ ?_) hundo
      exact hsinks ns' u work (hu ▸ hns'.amid) hrefusal hfits
    · exact ⟨Amid.start ns it, h, hplain, fun x hx ↦ List.mem_singleton.mp hx ▸ hit, rfl,
        List.Pairwise.nil, fun c hc ↦ absurd hc List.not_mem_nil, Or.inl ⟨rfl, rfl⟩⟩
  exact (Change.fold_finalise _ hreflects.settled).trans hreflects.agrees

/-- **The changes mirror the tree**: taking up the changes of all items, in the order they are
returned, gives what the listing says in the end, as long as no item sinks and no batch undoes what
it has said. -/
theorem changes_mirror (htree : ns.Tree) (hplain : ns.Plain) (hitems : ∀ it ∈ items, it.Plain)
    (hsinks : ∀ ns' u, Course ns items ns' (.upsert u) → ns'.refusal u = none → ns'.Fits u →
      ¬ ns'.Sinks u)
    (hundo : ∀ first it last, items = first ++ it :: last → ¬ Undoes (ns.applyAll first) it) :
    Change.fold ns.mirror (changesOf ns items) = (ns.applyAll items).mirror := by
  induction items generalizing ns with
  | nil => rfl
  | cons it items ih =>
    have hit : it.Plain := hitems it List.mem_cons_self
    have htree' : (ns.apply it).1.Tree := htree.apply it
    have hplain' : (ns.apply it).1.Plain := htree.plain_apply hplain hit
    have hone : Change.fold ns.shown (ns.apply it).2 = (ns.apply it).1.shown := by
      refine htree.apply_reflects hplain hit (fun ns' u work hamid ↦ ?_) (hundo [] it items rfl)
      exact hsinks ns' u ⟨[], it, items, work, rfl, hamid⟩
    have hrest := ih htree' hplain' (fun x hx ↦ hitems x (List.mem_cons_of_mem it hx))
      (fun ns' u hcourse ↦ hsinks ns' u hcourse.cons)
      (fun first x last hsplit ↦ hundo (it :: first) x last (congrArg (it :: ·) hsplit))
    rw [mirror, htree'.fold_listing hplain'.nodes] at hrest
    rw [mirror, htree.fold_listing hplain.nodes, changesOf, Change.fold_append, hone, hrest,
      applyAll_cons]

/-! ### A batch that undoes what it has said -/

/-- An object is reported as a file and as a folder before the folder it is in. -/
def undoneItems : List Item :=
  [.root "r", .upsert ⟨"x", "p", "x", .file 1 none⟩, .upsert ⟨"x", "p", "x", .folder none⟩,
    .upsert ⟨"p", "r", "p", .folder none⟩]

/-- Of the two that are released the file is the last, and the folder is taken up all the same. -/
theorem undone :
    (Change.fold Namespace.new.mirror (changesOf .new undoneItems) ("x", .folder)).isSome = true
      ∧ (Namespace.new.applyAll undoneItems).mirror ("x", .folder) = none := by
  decide +kernel

/-- A folder, a file in it, and the file again after its deletion. -/
def mirroredItems : List Item :=
  [.root "r", .upsert ⟨"p", "r", "p", .folder none⟩, .upsert ⟨"x", "p", "x", .file 1 none⟩,
    .delete "x", .upsert ⟨"x", "p", "y", .file 2 none⟩]

/-- What is taken up of them is what the listing says. -/
theorem mirrored_sample : Change.fold Namespace.new.mirror (changesOf .new mirroredItems)
    = (Namespace.new.applyAll mirroredItems).mirror := by
  -- every item is new when it is fed, and releases nothing
  have hnew : ∀ first it last, mirroredItems = first ++ it :: last →
      ((Namespace.new.applyAll first).workOff it []).2.1 = []
        ∧ ∀ u, it = .upsert u → (Namespace.new.applyAll first).nodes.lookup u.id = none := by
    intro first it last hsplit
    match first, hsplit with
    | [], hsplit | [_], hsplit | [_, _], hsplit | [_, _, _], hsplit | [_, _, _, _], hsplit =>
      cases hsplit
      refine ⟨by decide +kernel, fun u hu ↦ ?_⟩
      cases hu <;> decide +kernel
    | _ :: _ :: _ :: _ :: _ :: _, hsplit =>
      have hlength := congrArg List.length hsplit
      simp [mirroredItems] at hlength
  have hat : ∀ {ns' u}, Course .new mirroredItems ns' (.upsert u) →
      ns'.Tree ∧ ns'.nodes.lookup u.id = none := by
    rintro ns' u ⟨first, it, last, work, hsplit, hamid⟩
    obtain ⟨hdone, hnone⟩ := hnew first it last hsplit
    obtain ⟨rfl, hu, -⟩ := hamid.of_done hdone
    exact ⟨Tree.new.applyAll first, hnone u hu.symm⟩
  refine changes_mirror Tree.new ⟨fun x node h ↦ ?_, fun u hu ↦ ?_⟩
    (by simp [mirroredItems, Item.Plain]) ?_ ?_
  · cases h
  · cases hu
  · rintro ns' u hcourse - - ⟨-, x, node, n, k, m, hx, hunder, -⟩
    obtain ⟨htree, hnone⟩ := hat hcourse
    cases (htree.eq_of_under hnone hunder ▸ hnone).symm.trans hx
  · rintro first it last hsplit ⟨ns', u, work, x, hamid, -, -, hre, -⟩
    obtain ⟨prev, hprev, -⟩ := reshapes_iff.mp hre
    cases (hat ⟨first, it, last, work, hsplit, hamid⟩).2.symm.trans hprev

end Namespace

end HydrationAPI.Client
