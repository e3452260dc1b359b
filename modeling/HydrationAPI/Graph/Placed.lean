import HydrationAPI.Client.Held
import HydrationAPI.Graph.ShapeFlip

/-!
# Nothing is lost

An item of a page goes to the namespace unless the page refuses it or what it lies beneath, and
stays there unless the namespace refuses it or it is deleted. A round does not complete past an item
that is refused for good, nor past one that waits; what lies beneath an item to wait for, and what
the namespace refuses, does not hold it back.
-/

namespace HydrationAPI.Graph

open HydrationAPI.Client (Namespace KindTag)

variable {tags : TagSource} {ns : Namespace} {feeds : List (DriveScope × DeltaPage)}
  {scope : DriveScope} {d : DriveItem} {key : ObjectKey}

/-- The item is to wait for: quarantined, or still being uploaded. -/
def Waits (d : DriveItem) : Prop := shapeOf d = .blocked ∨ shapeOf d = .unsettled

/-- The item is to be in the tree: a file, a folder, a package, or the root of the primary drive. -/
def Wanted (scope : DriveScope) (d : DriveItem) : Prop :=
  (∃ kind, placedKind (shapeOf d) = some kind) ∨ shapeOf d = .root ∧ scope.anchor = none

/-- An item of the page is to be in the tree. -/
def PageWants (scope : DriveScope) (page : DeltaPage) (key : ObjectKey) : Prop :=
  ∃ d ∈ page.value, keyOf scope d = some key ∧ Wanted scope d

/-- An item with this key lies directly beneath one to wait for, and none with the key is to wait
for itself. -/
def BeneathWaiting (scope : DriveScope) (page : DeltaPage) (key : ObjectKey) : Prop :=
  (∀ e ∈ page.value, keyOf scope e = some key → ¬ Waits e)
    ∧ ∃ d ∈ page.value, keyOf scope d = some key
    ∧ ∃ parent, parentKey scope d = .ok parent
      ∧ ∃ e ∈ page.value, keyOf scope e = some parent ∧ Waits e

/-- Only an item to wait for is refused as one. -/
theorem waits_of_mapItem {ix : TreeIndex} {why : Unmappable} (hkey : keyOf scope d = some key)
    (hm : mapItem scope ix tags d = .error why) (hwhy : why = .blocked ∨ why = .unsettled) :
    Waits d := by
  cases hkind : placedKind (shapeOf d) with
  | some kind =>
    rw [mapItem_of_placedKind hkey hkind] at hm
    obtain ⟨hblocked, hunsettled⟩ := mapPlaced_ne_deferred hm
    exact absurd hwhy (not_or.mpr ⟨hblocked, hunsettled⟩)
  | none =>
    rw [mapItem_of_keyOf hkey] at hm
    cases hshape : shapeOf d <;> rw [hshape] at hkind hm <;> try cases hkind
    · dsimp only at hm
      split at hm
      · cases hm
        simp at hwhy
      · cases hm
    · dsimp only at hm
      split at hm <;> cases hm
    · exact Or.inl hshape
    · exact Or.inr hshape
    all_goals
      cases hm
      simp at hwhy

/-- An item to wait for is refused. -/
theorem refuses_of_waits {ix : TreeIndex} {items : List DriveItem} (hd : d ∈ items)
    (hkey : keyOf scope d = some key) (hwaits : Waits d) : Refuses scope ix tags items key := by
  obtain ⟨ix', hjudges⟩ : ∃ ix', Judges scope ix tags items d ix' := exists_judges hd
  rcases hwaits with hshape | hshape
  · refine ⟨d, ix', .blocked, hjudges, hkey, ?_⟩
    rw [mapItem_of_keyOf hkey, hshape]
  · refine ⟨d, ix', .unsettled, hjudges, hkey, ?_⟩
    rw [mapItem_of_keyOf hkey, hshape]

/-- In a round that is not stopped, what is refused is to wait for. -/
theorem Round.waits_of_refuses {r : Round} {page : DeltaPage}
    (h : ¬ (r.feed scope page).Stopped) (hrefuses : Refuses scope r.index r.tags page.value key) :
    ∃ e ∈ page.value, keyOf scope e = some key ∧ Waits e := by
  obtain ⟨e, ix, why, hjudges, hkey, hm⟩ := hrefuses
  refine ⟨e, hjudges.mem, hkey, waits_of_mapItem hkey hm ?_⟩
  by_contra hnot
  obtain ⟨hblocked, hunsettled⟩ := not_or.mp hnot
  exact h (Round.stopped_of_refused hjudges hkey hm hblocked hunsettled)

/-- **In a round that is not stopped, every item goes to the namespace** that is to be in the tree
and does not lie beneath one to wait for. -/
theorem Round.exists_mem_pageItems {r : Round} {page : DeltaPage}
    (h : ¬ (r.feed scope page).Stopped) (hd : d ∈ page.value) (hkey : keyOf scope d = some key)
    (hwanted : Wanted scope d) (hbeneath : ¬ BeneathWaiting scope page key) :
    ∃ it ∈ r.pageItems scope page, it.id = key.toCloudId ∧ ∀ i, it ≠ .delete i := by
  obtain ⟨ix, hjudges⟩ : ∃ ix, Judges scope r.index r.tags page.value d ix := exists_judges hd
  have hmaps : ∃ m it, mapItem scope ix r.tags d = .ok m ∧ m.item = some it
      ∧ it.id = key.toCloudId ∧ ∀ i, it ≠ .delete i := by
    rcases hwanted with ⟨kind, hkind⟩ | ⟨hroot, hanchor⟩
    · cases hm : mapItem scope ix r.tags d with
      | error why =>
        have hplaced := hm
        rw [mapItem_of_placedKind hkey hkind] at hplaced
        obtain ⟨hblocked, hunsettled⟩ := mapPlaced_ne_deferred hplaced
        exact absurd (Round.stopped_of_refused hjudges hkey hm hblocked hunsettled) h
      | ok m =>
        rw [mapItem_of_placedKind hkey hkind] at hm
        obtain ⟨parent, nk, -, -, -, -, hit⟩ := mapPlaced_item hm
        exact ⟨m, _, rfl, hit, rfl, fun i hi ↦ by cases hi⟩
    · refine ⟨⟨some (.root key.toCloudId), none, none⟩, _, ?_, rfl, rfl, fun i hi ↦ by cases hi⟩
      rw [mapItem_of_keyOf hkey, hroot, hanchor]
  obtain ⟨m, it, hm, hit, hid, hdel⟩ := hmaps
  refine ⟨it, mem_mapPage_items.mpr ⟨⟨d, ix, m, hjudges, hm, hit⟩, ?_⟩, hid, hdel⟩
  intro key' hkey' horphaned
  rw [hid, keyOfCloudId_toCloudId] at hkey'
  cases hkey'
  obtain ⟨hnot, d', hd', hkey', parent, hparent, hrefuses⟩ := horphaned
  obtain ⟨e, he, hekey, hwaits⟩ := Round.waits_of_refuses h hrefuses
  exact hbeneath ⟨fun e he hekey hwaits ↦ hnot (refuses_of_waits he hekey hwaits), d', hd', hkey',
    parent, hparent, e, he, hekey, hwaits⟩

/-- An item of a fed page is to be in the tree. -/
def FeedsWanted (feeds : List (DriveScope × DeltaPage)) (key : ObjectKey) : Prop :=
  ∃ before scope page after, feeds = before ++ (scope, page) :: after ∧ PageWants scope page key

/-- **No completed round loses an item**, as long as no item lies directly beneath one to wait for,
and the namespace refuses none: an item that is to be in the tree is fed to the namespace, and is in
the tree at the end unless something it hangs from is deleted, or changes its shape, from then on.
-/
theorem placed_of_completed {completed : CompletedRound}
    (hfinish : ((Round.new tags ns).run feeds).finish = .ok completed) (htree : ns.Tree)
    (hbeneath : ∀ scope page key, (scope, page) ∈ feeds → PageWants scope page key →
      ¬ BeneathWaiting scope page key)
    (hrefused : ∀ ns' u, Namespace.Course ns (Round.itemsOf (.new tags ns) feeds) ns' (.upsert u) →
      ns'.refusal u = none)
    (hforeign : ∀ ns' i, Namespace.Course ns (Round.itemsOf (.new tags ns) feeds) ns' (.root i) →
      ∀ r, ns'.root = some r → r = i)
    (key : ObjectKey) (hfed : FeedsWanted feeds key) :
    ∃ first it last, Round.itemsOf (.new tags ns) feeds = first ++ it :: last
      ∧ it.id = key.toCloudId ∧ (∀ i, it ≠ .delete i)
      ∧ ((∀ ns' i, Namespace.Course (ns.applyAll first) (it :: last) ns' (.delete i) →
            ¬ ns'.Hung i key.toCloudId) →
          (∀ ns' u, Namespace.Course (ns.applyAll first) (it :: last) ns' (.upsert u) →
            ns'.Reshapes u → u.id ≠ key.toCloudId → ¬ ns'.Hung u.id key.toCloudId) →
          ∃ node, ((Round.new tags ns).run feeds).tree.nodes.lookup key.toCloudId = some node) := by
  obtain ⟨before, scope, page, after, hfeeds, d, hd, hkey, hwanted⟩ := hfed
  obtain ⟨hstopped, hwaiting, -, -⟩ := Round.finish_ok hfinish
  have hpage : ¬ (((Round.new tags ns).run before).feed scope page).Stopped := by
    intro hstop
    rw [hfeeds, Round.run_append, Round.run_cons] at hstopped
    exact hstopped (hstop.run after)
  have hmem : (scope, page) ∈ feeds := hfeeds ▸ List.mem_append_right _ List.mem_cons_self
  obtain ⟨it, hit, hid, hdel⟩ :=
    Round.exists_mem_pageItems hpage hd hkey hwanted
      (hbeneath scope page key hmem ⟨d, hd, hkey, hwanted⟩)
  obtain ⟨first', last', hsplit⟩ := List.append_of_mem hit
  have hitems : Round.itemsOf (.new tags ns) feeds
      = (Round.itemsOf (.new tags ns) before ++ first') ++ it ::
        (last' ++ Round.itemsOf (((Round.new tags ns).run before).feed scope page) after) := by
    rw [hfeeds, Round.itemsOf_append, Round.itemsOf, hsplit]
    simp
  refine ⟨_, it, _, hitems, hid, hdel, fun hdeleted hreshaped ↦ ?_⟩
  rw [Round.run_tree, hitems] at hwaiting ⊢
  rw [hitems] at hrefused hforeign
  change (ns.applyAll _).waiting = [] at hwaiting
  change ∃ node, (ns.applyAll _).nodes.lookup key.toCloudId = some node
  rw [Namespace.applyAll_append] at hwaiting ⊢
  rw [← hid]
  refine (htree.applyAll _).exists_node_of_fed hdel (fun ns' item hcourse hloses ↦ ?_) hwaiting
  cases item with
  | root i =>
    obtain ⟨r, hr, hne⟩ := hloses
    exact hne (hforeign ns' i hcourse.prepend r hr)
  | delete i =>
    rw [Namespace.Loses, hid] at hloses
    exact hdeleted ns' i hcourse hloses
  | upsert u =>
    rw [Namespace.Loses, hid] at hloses
    rcases hloses with hrefusal | ⟨hre, hne, hhung⟩
    · exact hrefusal (hrefused ns' u hcourse.prepend)
    · exact hreshaped ns' u hcourse hre hne hhung

/-! ### Items that are lost -/

/-- A folder is quarantined when it is first reported, and a file in it is reported along. -/
def waitingPage : DeltaPage :=
  ⟨[{ sampleFolder "c" "r" with malware := true }, sampleFile "e" "c"], .done "link"⟩

/-- A file whose name cannot be part of a path. -/
def badNamePage : DeltaPage := ⟨[{ sampleFile "e" "r" with name := some "." }], .done "link"⟩

def lostKey : ObjectKey := ⟨⟨"d", checkId_d⟩, ⟨"e", checkId_e⟩⟩

/-- Both rounds complete, and the file is in neither tree. -/
theorem item_lost :
    (FeedsWanted [(sampleDrive, waitingPage)] lostKey
      ∧ ((Round.new .cTag sampleTree).run [(sampleDrive, waitingPage)]).finish.isOk = true
      ∧ ((Round.new .cTag sampleTree).run [(sampleDrive, waitingPage)]).tree.nodes.lookup "d|e"
        = none)
    ∧ FeedsWanted [(sampleDrive, badNamePage)] lostKey
      ∧ ((Round.new .cTag sampleTree).run [(sampleDrive, badNamePage)]).finish.isOk = true
      ∧ ((Round.new .cTag sampleTree).run [(sampleDrive, badNamePage)]).tree.nodes.lookup "d|e"
        = none := by
  refine ⟨⟨⟨[], sampleDrive, waitingPage, [], rfl, sampleFile "e" "c", by decide +kernel,
    by decide +kernel, Or.inl ⟨.file, by decide +kernel⟩⟩, by decide +kernel, by decide +kernel⟩,
    ⟨[], sampleDrive, badNamePage, [], rfl, { sampleFile "e" "r" with name := some "." },
      by decide +kernel, by decide +kernel, Or.inl ⟨.file, by decide +kernel⟩⟩, by decide +kernel,
    by decide +kernel⟩

/-- A page with one new file. -/
def filePage : DeltaPage := ⟨[sampleFile "e" "r"], .done "link"⟩

def fileItem : Client.Item := .upsert ⟨"d|e", "d|r", "e", .file 3 (some "ct:c")⟩

theorem itemsOf_filePage :
    Round.itemsOf (.new .cTag sampleTree) [(sampleDrive, filePage)] = [fileItem] := by
  decide +kernel

/-- The file is in the tree when the round has completed. -/
theorem placed_sample : ∃ node,
    ((Round.new .cTag sampleTree).run [(sampleDrive, filePage)]).tree.nodes.lookup "d|e"
      = some node := by
  have hcourse : ∀ {ns' item}, Namespace.Course sampleTree [fileItem] ns' item →
      ns' = sampleTree ∧ item = fileItem := fun h ↦ h.of_singleton (by decide +kernel)
  obtain ⟨completed, hfinish⟩ : ∃ completed,
      ((Round.new .cTag sampleTree).run [(sampleDrive, filePage)]).finish = .ok completed :=
    Round.exists_of_isOk (by decide +kernel)
  have hbeneath : ∀ scope page key, (scope, page) ∈ [(sampleDrive, filePage)] →
      PageWants scope page key → ¬ BeneathWaiting scope page key := by
    rintro scope page key hmem - ⟨-, -, -, -, -, -, e, he, -, hwaits⟩
    cases List.mem_singleton.mp hmem
    cases List.mem_singleton.mp (show e ∈ [sampleFile "e" "r"] from he)
    exact absurd hwaits (by unfold Waits; decide +kernel)
  have hfed : FeedsWanted [(sampleDrive, filePage)] lostKey :=
    ⟨[], sampleDrive, filePage, [], rfl, sampleFile "e" "r", List.mem_singleton.mpr rfl,
      by decide +kernel, Or.inl ⟨.file, by decide +kernel⟩⟩
  obtain ⟨first, it, last, hitems, -, -, hplaced⟩ :=
    placed_of_completed hfinish (Namespace.Tree.restore _) hbeneath
      (by
        intro ns' u h
        rw [itemsOf_filePage] at h
        obtain ⟨rfl, hu⟩ := hcourse h
        cases hu
        decide +kernel)
      (by
        intro ns' i h
        rw [itemsOf_filePage] at h
        cases (hcourse h).2)
      lostKey hfed
  rw [itemsOf_filePage] at hitems
  rcases List.append_eq_singleton_iff.mp hitems.symm with ⟨rfl, hit⟩ | ⟨-, hit⟩
  · cases hit
    refine hplaced (fun ns' i h ↦ ?_) (fun ns' u h hre hne ↦ ?_)
    · cases (hcourse h).2
    · cases (hcourse h).2
      exact absurd rfl hne
  · cases hit

end HydrationAPI.Graph
