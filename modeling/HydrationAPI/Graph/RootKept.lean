import HydrationAPI.Client.Course
import HydrationAPI.Graph.Tombstone

/-!
# The root of the drive

A tombstone that carries the root facet stops the round. Whether a tombstone is one of the root is
read off its facets alone, while what it deletes is found by its id; a run in which the two agree
never loses its root.
-/

namespace HydrationAPI.Graph

open HydrationAPI.Client (Namespace)

variable {tags : TagSource} {ns : Namespace} {feeds : List (DriveScope × DeltaPage)}

/-- The item carries the id of the root, which the tree has, or where it has none gets from an
item that was before. -/
def AtRoot (tree : Namespace) (scope : DriveScope) (earlier : List DriveItem) (d : DriveItem) :
    Prop :=
  ∃ key, keyOf scope d = some key ∧ (tree.root = some key.toCloudId
    ∨ tree.root = none ∧ scope.anchor = none
      ∧ ∃ e ∈ earlier, e.deleted = false ∧ e.root = true ∧ keyOf scope e = some key)

/-- A tombstone of the root is fed. -/
def FeedsRootTombstone (r : Round) (feeds : List (DriveScope × DeltaPage)) (d : DriveItem) : Prop :=
  ∃ before scope page after earlier later, feeds = before ++ (scope, page) :: after
    ∧ page.value = earlier ++ d :: later ∧ d.deleted = true
    ∧ AtRoot (r.run before).tree scope earlier d

/-- A tombstone that carries the root facet is refused. -/
theorem Round.stopped_of_rootDeleted {r : Round} {scope : DriveScope} {page : DeltaPage}
    {d : DriveItem} {key : ObjectKey} (hd : d ∈ page.value) (hkey : keyOf scope d = some key)
    (hdel : d.deleted = true) (hroot : d.root = true) : (r.feed scope page).Stopped := by
  obtain ⟨ix', hjudges⟩ : ∃ ix', Judges scope r.index r.tags page.value d ix' := exists_judges hd
  have hrefused : mapItem scope ix' r.tags d = .error .rootDeleted :=
    (mapItem_tombstone hkey hdel).trans (if_pos hroot)
  have hmem : ⟨keyOf scope d, .rootDeleted⟩ ∈ (mapPage scope r.index r.tags page).2.refusals :=
    List.mem_append_left _ (mem_judgeAll_refusals.mpr ⟨d, ix', _, hjudges, hrefused, rfl⟩)
  refine stopped_feed hmem ⟨?_, ?_, ?_⟩
  · rw [hkey]
    exact Option.some_ne_none key
  · exact fun h ↦ by cases h
  · exact fun h ↦ by cases h

/-- Where every tombstone of the root carries the root facet, the root is never deleted. -/
theorem not_root_of_delete (htree : ns.Tree)
    (hfacet : ∀ d, FeedsRootTombstone (.new tags ns) feeds d → d.root = true)
    {first last : List Client.Item} {id : String}
    (hitems : Round.itemsOf (.new tags ns) feeds = first ++ .delete id :: last) :
    (ns.applyAll first).root ≠ some id := by
  induction hn : first.length using Nat.strongRecOn generalizing first last id with
  | ind n ih =>
    intro hroot
    obtain ⟨before, ⟨scope, page⟩, after, first', last', hfeeds, rfl, hpage⟩ :=
      Round.itemsOf_split hitems
    dsimp only [Round.pageItems] at hpage
    rw [Namespace.applyAll_append] at hroot
    have hrun : ((Round.new tags ns).run before).tree
        = ns.applyAll (Round.itemsOf (.new tags ns) before) := Round.run_tree _ before
    have htree' : (ns.applyAll (Round.itemsOf (.new tags ns) before)).Tree := htree.applyAll _
    -- within the page, no root has been deleted before
    have hearlier : ∀ f id' l, first' = f ++ .delete id' :: l →
        ((ns.applyAll (Round.itemsOf (.new tags ns) before)).applyAll f).root ≠ some id' := by
      rintro f id' l rfl
      rw [← Namespace.applyAll_append]
      have hsplit : Round.itemsOf (.new tags ns) feeds
          = (Round.itemsOf (.new tags ns) before ++ f) ++ .delete id' :: (l ++ .delete id :: last) := by
        rw [hitems]
        simp
      refine ih _ ?_ hsplit rfl
      rw [← hn, List.length_append, List.length_append, List.length_append, List.length_cons]
      omega
    obtain ⟨xs, d, ys, hvalue, hmaps, hxs⟩ := mapPage_split hpage
    subst hxs
    generalize hid : Client.Item.delete id = it at hmaps
    cases hmaps with
    | delete key hkey hdel hfacet' =>
      cases hid
      refine Bool.false_ne_true (hfacet'.symm.trans (hfacet d ⟨before, scope, page, after, xs, ys,
        hfeeds, hvalue, hdel, key, hkey, ?_⟩))
      rw [hrun]
      by_cases hstart : (ns.applyAll (Round.itemsOf (.new tags ns) before)).root = none
      · have hmem := Namespace.mem_of_applyAll_root hstart hroot htree' hearlier
        obtain ⟨e, he, ix', hmaps'⟩ := exists_maps_of_mem_itemsUpTo hmem
        generalize hid : Client.Item.root key.toCloudId = it' at hmaps'
        cases hmaps' with
        | delete => cases hid
        | placed => cases hid
        | root key' hkey' hdel' hroot' hanchor =>
          have heq : key = key' := ObjectKey.toCloudId_injective (Client.Item.root.inj hid)
          exact Or.inr ⟨hstart, hanchor, e, he, hdel', hroot', heq ▸ hkey'⟩
      · obtain ⟨root, hsome⟩ := Option.ne_none_iff_exists'.mp hstart
        have hkept := htree'.applyAll_root hsome fun f l hf ↦ hearlier f root l hf
        exact Or.inl (hsome.trans (hkept.symm.trans hroot))
    | root => cases hid
    | placed => cases hid

/-- **The drive root is never deleted by a round**, as long as every tombstone of the root carries
the root facet: with such a tombstone the round does not complete, and a root that the tree has at
any time it has from then on. -/
theorem root_kept (htree : ns.Tree)
    (hfacet : ∀ d, FeedsRootTombstone (.new tags ns) feeds d → d.root = true) :
    (∀ d, FeedsRootTombstone (.new tags ns) feeds d →
      ∃ e, ((Round.new tags ns).run feeds).finish = .error e)
    ∧ ∀ first last root, Round.itemsOf (.new tags ns) feeds = first ++ last →
      (ns.applyAll first).root = some root →
      ((Round.new tags ns).run feeds).tree.root = some root := by
  constructor
  · intro d hd
    have hroot := hfacet d hd
    obtain ⟨before, scope, page, after, earlier, later, rfl, hvalue, hdel, key, hkey, -⟩ := hd
    have hmem : d ∈ page.value := hvalue ▸ List.mem_append_right _ List.mem_cons_self
    rw [Round.run_append, Round.run_cons]
    exact ((Round.stopped_of_rootDeleted hmem hkey hdel hroot).run after).finish
  · intro first last root hitems hroot
    rw [Round.run_tree, hitems, Namespace.applyAll_append]
    refine (htree.applyAll first).applyAll_root hroot fun f l hf ↦ ?_
    rw [← Namespace.applyAll_append]
    have hsplit : Round.itemsOf (.new tags ns) feeds = (first ++ f) ++ .delete root :: l := by
      rw [hitems, hf, List.append_assoc]
    exact not_root_of_delete htree hfacet hsplit

/-! ### A tombstone of the root without its facet -/

/-- A tombstone of the root, with or without the root facet. -/
def rootTombstone (facet : Bool) : DriveItem :=
  { sampleTombstone "r" "r" with root := facet, parentReference := none }

def rootPage (facet : Bool) : DeltaPage := ⟨[rootTombstone facet], .done "link"⟩

theorem feeds_rootTombstone (facet : Bool) : FeedsRootTombstone (.new .cTag sampleTree)
    [(sampleDrive, rootPage facet)] (rootTombstone facet) := by
  refine ⟨[], sampleDrive, rootPage facet, [], [], [], rfl, rfl, rfl, ⟨⟨"d", by decide⟩,
    ⟨"r", by decide⟩⟩, ?_, Or.inl ?_⟩
  · cases facet <;> decide +kernel
  · decide +kernel

/-- The root is deleted by its id alone: the round completes, and nothing is left of the tree. -/
theorem root_deleted :
    FeedsRootTombstone (.new .cTag sampleTree) [(sampleDrive, rootPage false)] (rootTombstone false)
      ∧ ((Round.new .cTag sampleTree).run [(sampleDrive, rootPage false)]).finish.isOk = true
      ∧ sampleTree.root = some "d|r" ∧ (sampleTree.nodes.lookup "d|b").isSome = true
      ∧ ((Round.new .cTag sampleTree).run [(sampleDrive, rootPage false)]).tree.root = none
      ∧ ((Round.new .cTag sampleTree).run [(sampleDrive, rootPage false)]).tree.nodes.lookup "d|b"
        = none :=
  ⟨feeds_rootTombstone false, by decide +kernel, by decide +kernel, by decide +kernel,
    by decide +kernel, by decide +kernel⟩

/-- With the facet the round does not complete, and the root is still there. -/
theorem root_kept_sample :
    (∃ e, ((Round.new .cTag sampleTree).run [(sampleDrive, rootPage true)]).finish = .error e)
      ∧ ((Round.new .cTag sampleTree).run [(sampleDrive, rootPage true)]).tree.root
        = some "d|r" := by
  have hfacet : ∀ d, FeedsRootTombstone (.new .cTag sampleTree) [(sampleDrive, rootPage true)] d →
      d.root = true := by
    rintro d ⟨before, scope, page, after, earlier, later, hfeeds, hvalue, -⟩
    have hpage : (scope, page) ∈ [(sampleDrive, rootPage true)] :=
      hfeeds ▸ List.mem_append_right _ List.mem_cons_self
    cases List.mem_singleton.mp hpage
    have hd : d ∈ (rootPage true).value := hvalue ▸ List.mem_append_right _ List.mem_cons_self
    rw [List.mem_singleton.mp hd]
    rfl
  obtain ⟨hstop, hkept⟩ := root_kept (Namespace.Tree.restore _) hfacet
  exact ⟨hstop _ (feeds_rootTombstone true), hkept [] _ _ rfl (by decide +kernel)⟩

end HydrationAPI.Graph
