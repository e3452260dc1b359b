import HydrationAPI.Client.Course
import HydrationAPI.Graph.Tombstone

/-!
# Containers that change their shape

An item that is reported under another shape takes what lies beneath it along. The mapper refuses
such an item when its index knows the old shape and a child; the index knows what the round itself
has been fed, and nothing of the tree the round began with.
-/

namespace HydrationAPI.Client.Namespace

/-- The item is attached, and what lies beneath it goes since its shape is another. -/
def Strips (ns : Namespace) (u : Upsert) : Prop :=
  ns.refusal u = none ∧ ns.Fits u ∧ ns.Reshapes u ∧ ns.kids u.id ≠ []

end HydrationAPI.Client.Namespace

namespace HydrationAPI.Graph

open HydrationAPI.Client (Namespace KindTag)

variable {tags : TagSource} {ns : Namespace} {feeds : List (DriveScope × DeltaPage)}

/-- The item is reported as `kind`, and is a node of another shape that has a child. -/
structure Flips (tree : Namespace) (scope : DriveScope) (d : DriveItem) (key : ObjectKey)
    (kind : KindTag) : Prop where
  named : keyOf scope d = some key
  reported : placedKind (shapeOf d) = some kind
  node : ∃ node, tree.nodes.lookup key.toCloudId = some node ∧ node.kind.tag ≠ kind
  kids : tree.kids key.toCloudId ≠ []

/-- The index knows the key under another shape, and a child of it. -/
structure Knows (ix : TreeIndex) (key : ObjectKey) (kind : KindTag) : Prop where
  shape : ∃ was, ix.shapeOf key = some was ∧ was ≠ kind
  child : 0 < ix.childCount key

/-- An item of a fed page flips, at its place in the round; `ix` is the index it is judged with. -/
def FeedsFlip (r : Round) (feeds : List (DriveScope × DeltaPage)) (key : ObjectKey)
    (kind : KindTag) (ix : TreeIndex) : Prop :=
  ∃ before scope page after earlier d later, feeds = before ++ (scope, page) :: after
    ∧ page.value = earlier ++ d :: later
    ∧ ix = (judgedUpTo scope (r.run before).index r.tags page earlier).index
    ∧ Flips ((r.run before).tree.applyAll
        (itemsUpTo scope (r.run before).index r.tags page earlier)) scope d key kind

/-- An item that is refused, but not to wait for, stops the round. -/
theorem Round.stopped_of_refused {r : Round} {scope : DriveScope} {page : DeltaPage} {d : DriveItem}
    {ix : TreeIndex} {key : ObjectKey} {why : Unmappable}
    (hd : Judges scope r.index r.tags page.value d ix) (hkey : keyOf scope d = some key)
    (hm : mapItem scope ix r.tags d = .error why) (hblocked : why ≠ .blocked)
    (hunsettled : why ≠ .unsettled) : (r.feed scope page).Stopped := by
  have hmem : ⟨keyOf scope d, why⟩ ∈ (mapPage scope r.index r.tags page).2.refusals :=
    List.mem_append_left _ (mem_judgeAll_refusals.mpr ⟨d, ix, why, hd, hm, rfl⟩)
  refine stopped_feed hmem ⟨?_, hblocked, hunsettled⟩
  rw [hkey]
  exact Option.some_ne_none key

theorem parentKey_ne_deferred {scope : DriveScope} {d : DriveItem} {why : Unmappable}
    (h : parentKey scope d = .error why) : why ≠ .blocked ∧ why ≠ .unsettled := by
  rw [parentKey] at h
  split at h
  · cases h
    simp
  · split at h
    · cases h
      simp
    · split at h
      · cases h
        simp
      · split at h
        · cases h
          simp
        · split at h
          · cases h
            simp
          · split at h
            · split at h <;> cases h
            · cases h

theorem nodeKind_ne_deferred {d : DriveItem} {kind : KindTag} {why : Unmappable}
    (h : nodeKind tags d kind = .error why) : why ≠ .blocked ∧ why ≠ .unsettled := by
  unfold nodeKind at h
  split at h
  · cases h
  · cases h
  · split at h
    · cases h
      simp
    · split at h
      · cases h
        simp
      · split at h
        · cases h
          simp
        · cases h

/-- An item that is to be placed is never one to wait for. -/
theorem mapPlaced_ne_deferred {scope : DriveScope} {ix : TreeIndex} {d : DriveItem} {key : ObjectKey}
    {kind : KindTag} {why : Unmappable} (h : mapPlaced scope ix tags d key kind = .error why) :
    why ≠ .blocked ∧ why ≠ .unsettled := by
  rw [mapPlaced] at h
  split at h
  · rename_i hparent
    cases h
    exact parentKey_ne_deferred hparent
  · split at h
    · cases h
      simp
    · dsimp only at h
      split at h
      · cases h
        simp
      · split at h
        · cases h
          simp
        · split at h
          · rename_i hkind
            cases h
            exact nodeKind_ne_deferred hkind
          · cases h

/-- Where the index knows, the item is refused. -/
theorem Knows.filter_ne_none {ix : TreeIndex} {key : ObjectKey} {kind : KindTag}
    (h : Knows ix key kind) :
    ((ix.shapeOf key).filter fun was ↦ was ≠ kind ∧ 0 < ix.childCount key) ≠ none := by
  obtain ⟨was, hwas, hne⟩ := h.shape
  rw [hwas, Option.filter_some, if_pos (decide_eq_true ⟨hne, h.child⟩)]
  exact Option.some_ne_none was

/-- **A container does not change its shape**, as long as the index knows of every container that a
page reports under another shape, and no item that waited changes the shape of one: where a page
reports one the round does not complete, and nothing that is attached takes children along. -/
theorem flip_stops
    (hknows : ∀ key kind ix, FeedsFlip (.new tags ns) feeds key kind ix → Knows ix key kind)
    (hwaited : ∀ ns' u, Namespace.Released ns (Round.itemsOf (.new tags ns) feeds) ns' u →
      ¬ ns'.Strips u) :
    (∀ key kind ix, FeedsFlip (.new tags ns) feeds key kind ix →
      ∃ e, ((Round.new tags ns).run feeds).finish = .error e)
    ∧ ∀ ns' u, Namespace.Course ns (Round.itemsOf (.new tags ns) feeds) ns' (.upsert u) →
      ¬ ns'.Strips u := by
  constructor
  · intro key kind ix hflip
    have hknown := hknows key kind ix hflip
    obtain ⟨before, scope, page, after, earlier, d, later, rfl, hvalue, rfl, hflips⟩ := hflip
    rw [Round.run_append, Round.run_cons]
    refine Round.Stopped.finish (Round.Stopped.run ?_ after)
    have hjudges : Judges scope ((Round.new tags ns).run before).index
        ((Round.new tags ns).run before).tags page.value d _ := ⟨earlier, later, hvalue, rfl⟩
    cases hm : mapItem scope (judgedUpTo scope ((Round.new tags ns).run before).index
        ((Round.new tags ns).run before).tags page earlier).index
        ((Round.new tags ns).run before).tags d with
    | error why =>
      have hplaced := hm
      rw [mapItem_of_placedKind hflips.named hflips.reported] at hplaced
      obtain ⟨hblocked, hunsettled⟩ := mapPlaced_ne_deferred hplaced
      exact Round.stopped_of_refused hjudges hflips.named hm hblocked hunsettled
    | ok m =>
      rw [mapItem_of_placedKind hflips.named hflips.reported, Round.run_tags] at hm
      obtain ⟨-, -, -, -, -, hnone, -⟩ := mapPlaced_item hm
      exact absurd hnone hknown.filter_ne_none
  · intro ns' u hcourse hstrips
    rcases hcourse.upsert with ⟨first, last, hitems, rfl⟩ | hreleased
    · obtain ⟨before, ⟨scope, page⟩, after, first', last', hfeeds, rfl, hpage⟩ :=
        Round.itemsOf_split hitems
      obtain ⟨earlier, d, later, hvalue, hmaps, rfl⟩ := mapPage_split hpage
      generalize hit : Client.Item.upsert u = it at hmaps
      cases hmaps with
      | delete => cases hit
      | root => cases hit
      | placed key parent kind nk hkey hkind hparent hne htag hnone =>
        cases hit
        obtain ⟨-, -, hre, hkids⟩ := hstrips
        obtain ⟨node, hnode, hshape⟩ := Namespace.reshapes_iff.mp hre
        have htree : ns.applyAll (Round.itemsOf (.new tags ns) before)
            = ((Round.new tags ns).run before).tree :=
          (Round.run_tree (.new tags ns) before).symm
        rw [Namespace.applyAll_append, htree, Round.run_tags] at hnode hkids
        rw [Round.run_tags] at hnone
        refine (hknows key kind _ ⟨before, scope, page, after, earlier, d, later, hfeeds, hvalue,
          rfl, hkey, hkind, ⟨node, hnode, ?_⟩, hkids⟩).filter_ne_none hnone
        exact fun h ↦ hshape (h.trans htag.symm)
    · exact hwaited ns' u hreleased hstrips

/-! ### A folder that becomes a file -/

/-- The folder, reported as a file. -/
def flipPage : DeltaPage := ⟨[sampleFile "a" "r"], .done "link"⟩

def flipKey : ObjectKey := ⟨⟨"d", checkId_d⟩, ⟨"a", checkId_a⟩⟩

/-- The folder takes its file along: the round completes, and the file is gone. -/
theorem flip_completes :
    (∃ ix, FeedsFlip (.new .cTag sampleTree) [(sampleDrive, flipPage)] flipKey .file ix)
      ∧ ((Round.new .cTag sampleTree).run [(sampleDrive, flipPage)]).finish.isOk = true
      ∧ (sampleTree.nodes.lookup "d|b").isSome = true
      ∧ ((Round.new .cTag sampleTree).run [(sampleDrive, flipPage)]).tree.nodes.lookup "d|b"
        = none := by
  refine ⟨⟨_, [], sampleDrive, flipPage, [], [], sampleFile "a" "r", [], rfl, rfl, rfl, ?_⟩,
    by decide +kernel, by decide +kernel, by decide +kernel⟩
  exact ⟨by decide +kernel, by decide +kernel, ⟨⟨some "d|r", "a", .folder none⟩, by decide +kernel,
    by decide⟩, by decide +kernel⟩

/-- The folder and what is in it are reported before. -/
def knownFlipPage : DeltaPage :=
  ⟨[sampleFolder "a" "r", sampleFile "b" "a", sampleFile "a" "r"], .done "link"⟩

/-- What the page is mapped to: the file in the place of the folder is refused, and what lies
beneath it goes with it. -/
theorem itemsOf_knownFlipPage :
    Round.itemsOf (.new .cTag sampleTree) [(sampleDrive, knownFlipPage)]
      = [.upsert ⟨"d|a", "d|r", "a", .folder none⟩] := by decide +kernel

/-- What was reported before is known, and stops the round. -/
theorem flip_stops_sample :
    ∃ e, ((Round.new .cTag sampleTree).run [(sampleDrive, knownFlipPage)]).finish = .error e := by
  have hknows : ∀ key kind ix, FeedsFlip (.new .cTag sampleTree) [(sampleDrive, knownFlipPage)]
      key kind ix → Knows ix key kind := by
    rintro key kind ix ⟨before, scope, page, after, earlier, d, later, hfeeds, hvalue, rfl, hflips⟩
    match before, hfeeds with
    | [], hfeeds =>
      cases hfeeds
      obtain ⟨hkey, hkind, ⟨node, hnode, hne⟩, hkids⟩ := hflips
      match earlier, hvalue with
      | [], hvalue =>
        -- the folder is the folder it was
        cases hvalue
        cases (show keyOf sampleDrive (sampleFolder "a" "r") = some flipKey by
          decide +kernel).symm.trans hkey
        cases hkind
        have hfolder : (sampleTree.applyAll
            (itemsUpTo sampleDrive .new .cTag knownFlipPage [])).nodes.lookup flipKey.toCloudId
            = some ⟨some "d|r", "a", .folder none⟩ := by decide +kernel
        cases hfolder.symm.trans hnode
        exact absurd rfl hne
      | [_], hvalue =>
        -- nothing lies beneath the file
        cases hvalue
        cases (show keyOf sampleDrive (sampleFile "b" "a") = some ⟨⟨"d", by decide⟩,
          ⟨"b", by decide⟩⟩ by decide +kernel).symm.trans hkey
        have hnone : (sampleTree.applyAll (itemsUpTo sampleDrive .new .cTag knownFlipPage
            [sampleFolder "a" "r"])).kids "d|b" = [] := by decide +kernel
        exact absurd hnone hkids
      | [_, _], hvalue =>
        cases hvalue
        cases (show keyOf sampleDrive (sampleFile "a" "r") = some flipKey by
          decide +kernel).symm.trans hkey
        cases hkind
        exact ⟨⟨.folder, by decide +kernel, by decide⟩, by decide +kernel⟩
      | _ :: _ :: _ :: _, hvalue =>
        have hlength := congrArg List.length hvalue
        simp [knownFlipPage] at hlength
    | _ :: _, hfeeds =>
      have hlength := congrArg List.length hfeeds
      simp at hlength
  have hwaited : ∀ ns' u, Namespace.Released sampleTree
      (Round.itemsOf (.new .cTag sampleTree) [(sampleDrive, knownFlipPage)]) ns' u →
      ¬ ns'.Strips u := by
    intro ns' u hreleased
    rw [itemsOf_knownFlipPage] at hreleased
    refine absurd hreleased (Namespace.not_released fun first it last hitems ↦ ?_)
    match first, hitems with
    | [], hitems =>
      cases hitems
      decide +kernel
    | _ :: _, hitems =>
      have hlength := congrArg List.length hitems
      simp at hlength
  obtain ⟨hstop, -⟩ := flip_stops hknows hwaited
  refine hstop flipKey .file _ ⟨[], sampleDrive, knownFlipPage, [],
    [sampleFolder "a" "r", sampleFile "b" "a"], sampleFile "a" "r", [], rfl, rfl, rfl, ?_⟩
  exact ⟨by decide +kernel, by decide +kernel, ⟨⟨some "d|r", "a", .folder none⟩, by decide +kernel,
    by decide⟩, by decide +kernel⟩

end HydrationAPI.Graph
