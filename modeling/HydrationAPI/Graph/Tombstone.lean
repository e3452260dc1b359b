import HydrationAPI.Client.Tree
import HydrationAPI.Graph.Round

/-!
# Tombstones

A deleted item maps to a deletion whatever else it says of itself. What becomes of the deletion is
another matter: the last pass over a page takes out whatever lies directly beneath an item that was
refused, and goes by the parents that deleted items may name too.
-/

namespace HydrationAPI.Graph

open HydrationAPI.Client (Namespace)

variable {scope : DriveScope} {ix : TreeIndex} {tags : TagSource} {d : DriveItem} {key : ObjectKey}

/-- A tombstone is decided before anything else is read. -/
theorem mapItem_tombstone (hkey : keyOf scope d = some key) (hdel : d.deleted = true) :
    mapItem scope ix tags d = if d.root then .error .rootDeleted
      else .ok ⟨some (.delete key.toCloudId), none, none⟩ := by
  rw [mapItem_of_keyOf hkey, shapeOf_eq_deleted.mpr hdel]

/-- **A tombstone is mapped** unless an item of the page with its id is an orphan. -/
theorem mem_mapPage_tombstone {page : DeltaPage} (hd : d ∈ page.value)
    (hkey : keyOf scope d = some key) (hdel : d.deleted = true) (hroot : d.root = false) :
    .delete key.toCloudId ∈ (mapPage scope ix tags page).2.items
      ↔ ¬ Orphaned scope ix tags page.value key := by
  rw [mem_mapPage_items]
  constructor
  · exact fun h ↦ h.2 key (keyOfCloudId_toCloudId key)
  · intro h
    obtain ⟨ix', hjudges⟩ : ∃ ix', Judges scope ix tags page.value d ix' := exists_judges hd
    refine ⟨⟨d, ix', _, hjudges, (mapItem_tombstone hkey hdel).trans (by rw [hroot]; rfl), rfl⟩, ?_⟩
    intro key' hkey'
    cases (keyOfCloudId_toCloudId key).symm.trans hkey'
    exact h

/-- **A tombstone is applied**, among the items of its page and before those of later pages, if and
only if no item of the page with its id is an orphan: lies directly beneath one that the page
refuses, none with the id being refused itself. -/
theorem tombstone_applied_iff (r : Round) (before after : List (DriveScope × DeltaPage))
    {page : DeltaPage} (hd : d ∈ page.value) (hkey : keyOf scope d = some key)
    (hdel : d.deleted = true) (hroot : d.root = false) :
    (∃ first last, (r.run before).pageItems scope page = first ++ .delete key.toCloudId :: last
      ∧ (r.run (before ++ (scope, page) :: after)).tree
        = ((((r.run before).tree.applyAll first).apply (.delete key.toCloudId)).1.applyAll
            last).applyAll (Round.itemsOf ((r.run before).feed scope page) after))
      ↔ ¬ Orphaned scope (r.run before).index r.tags page.value key := by
  rw [← mem_mapPage_tombstone hd hkey hdel hroot]
  constructor
  · rintro ⟨first, last, hitems, -⟩
    rw [Round.pageItems, Round.run_tags] at hitems
    rw [hitems]
    exact List.mem_append_right _ List.mem_cons_self
  · intro hmem
    obtain ⟨first, last, hitems⟩ := List.append_of_mem hmem
    have hpage : (r.run before).pageItems scope page
        = first ++ .delete key.toCloudId :: last := by
      rw [Round.pageItems, Round.run_tags]
      exact hitems
    refine ⟨first, last, hpage, ?_⟩
    rw [Round.run_append, Round.run_cons, Round.run_tree, Round.feed_tree, hpage,
      Namespace.applyAll_append, Namespace.applyAll_cons]

/-! ### A tombstone that is dropped

A folder is quarantined, and in the same page a file in it is deleted. -/

def sampleDrive : DriveScope := ⟨⟨"d", checkId_d⟩, none⟩

/-- An item of which nothing is known but its id and its parent. -/
def sampleItem (id parent : String) : DriveItem where
  id := some id
  name := some id
  size := none
  eTag := none
  cTag := none
  file := none
  folder := false
  package := false
  root := false
  malware := false
  deleted := false
  pendingOperations := false
  remoteItem := none
  parentReference := some ⟨none, some parent⟩

def sampleFolder (id parent : String) : DriveItem := { sampleItem id parent with folder := true }

def sampleFile (id parent : String) : DriveItem :=
  { sampleItem id parent with
    file := some ⟨none⟩
    size := some (.u64 3)
    cTag := some "c" }

def sampleTombstone (id parent : String) : DriveItem :=
  { sampleItem id parent with deleted := true }

/-- A root with one folder, and a file in it. -/
def sampleTree : Namespace :=
  Namespace.restore [.root "d|r", .upsert ⟨"d|a", "d|r", "a", .folder none⟩,
    .upsert ⟨"d|b", "d|a", "b", .file 3 (some "ct:c")⟩]

def quarantinePage : DeltaPage :=
  ⟨[{ sampleFolder "a" "r" with malware := true }, sampleTombstone "b" "a"], .done "link"⟩

/-- The file is deleted, the round completes, and the file is still there. -/
theorem dropped_tombstone :
    sampleTombstone "b" "a" ∈ quarantinePage.value
      ∧ keyOf sampleDrive (sampleTombstone "b" "a")
        = some ⟨⟨"d", by decide⟩, ⟨"b", by decide⟩⟩
      ∧ .delete "d|b" ∉ (mapPage sampleDrive .new .cTag quarantinePage).2.items
      ∧ ((Round.new .cTag sampleTree).feed sampleDrive quarantinePage).finish.isOk = true
      ∧ (((Round.new .cTag sampleTree).feed sampleDrive quarantinePage).tree.nodes.lookup
        "d|b").isSome = true := by
  decide +kernel

def sampleKey : ObjectKey := ⟨⟨"d", checkId_d⟩, ⟨"b", checkId_b⟩⟩

/-- The same page, but for the quarantine. -/
def settledPage : DeltaPage :=
  ⟨[sampleFolder "a" "r", sampleTombstone "b" "a"], .done "link"⟩

/-- Where the folder is as usual, the tombstone is applied. -/
theorem tombstone_applied_sample :
    ∃ first last, (Round.new .cTag sampleTree).pageItems sampleDrive settledPage
      = first ++ .delete "d|b" :: last := by
  have hd : sampleTombstone "b" "a" ∈ settledPage.value := by decide +kernel
  have hkey : keyOf sampleDrive (sampleTombstone "b" "a") = some sampleKey := by decide +kernel
  have hmem : .delete sampleKey.toCloudId
      ∈ (mapPage sampleDrive .new .cTag settledPage).2.items := by decide +kernel
  have hnot := (mem_mapPage_tombstone hd hkey rfl rfl).mp hmem
  obtain ⟨first, last, hitems, -⟩ :=
    (tombstone_applied_iff (Round.new .cTag sampleTree) [] [] hd hkey rfl rfl).mpr hnot
  exact ⟨first, last, hitems⟩

end HydrationAPI.Graph
