import HydrationAPI.Graph.Tombstone
import Mathlib.Logic.Relation

/-!
# What lies beneath a refused container

The third pass over a page looks once for items whose very parent the judging refused. What lies
deeper is left as it was: it goes to the namespace, to wait for a parent that does not come.
-/

namespace HydrationAPI.Graph

variable {scope : DriveScope} {ix : TreeIndex} {tags : TagSource} {items : List DriveItem}
  {page : DeltaPage} {key container parent child : ObjectKey} {d : DriveItem}

/-! ## Beneath, through the links of a page -/

/-- An item of the page with the key `child` belongs under `parent`. -/
def Links (scope : DriveScope) (items : List DriveItem) (parent child : ObjectKey) : Prop :=
  ∃ d ∈ items, keyOf scope d = some child ∧ parentKey scope d = .ok parent

/-- From the parent of the item the links of the page lead up to the container. -/
def LiesBeneath (scope : DriveScope) (items : List DriveItem) (container : ObjectKey)
    (d : DriveItem) : Prop :=
  ∃ parent, parentKey scope d = .ok parent
    ∧ Relation.ReflTransGen (Links scope items) container parent

/-- What lies beneath an item of the page lies beneath what that item belongs under. -/
theorem LiesBeneath.above (h : LiesBeneath scope items child d)
    (hlink : Links scope items parent child) : LiesBeneath scope items parent d := by
  obtain ⟨p, hp, hchain⟩ := h
  exact ⟨p, hp, hchain.head hlink⟩

/-! ## What a page comes to -/

/-- An item with the key was refused, or put off. -/
def MappedPage.Refuses (mapped : MappedPage) (key : ObjectKey) : Prop :=
  ∃ r ∈ mapped.refusals, r.key = some key

/-- An item of the page maps to something of the list `its`. -/
def MapsInto (scope : DriveScope) (ix : TreeIndex) (tags : TagSource) (items : List DriveItem)
    (its : List Client.Item) (d : DriveItem) : Prop :=
  ∃ ix' m it, Judges scope ix tags items d ix' ∧ mapItem scope ix' tags d = .ok m
    ∧ m.item = some it ∧ it ∈ its

/-- Whatever lies beneath a refused container is refused as well, and not forwarded. -/
def Closed (scope : DriveScope) (ix : TreeIndex) (tags : TagSource) (page : DeltaPage) : Prop :=
  ∀ container, (mapPage scope ix tags page).2.Refuses container →
    ∀ d ∈ page.value, d.deleted = false → ∀ key, keyOf scope d = some key →
      LiesBeneath scope page.value container d → (mapPage scope ix tags page).2.Refuses key
        ∧ ¬ MapsInto scope ix tags page.value (mapPage scope ix tags page).2.items d

/-- The judging accepts the item: it maps to something. -/
def Accepts (scope : DriveScope) (ix : TreeIndex) (tags : TagSource) (items : List DriveItem)
    (d : DriveItem) : Prop :=
  ∃ ix' m, Judges scope ix tags items d ix' ∧ mapItem scope ix' tags d = .ok m
    ∧ m.item.isSome = true

/-- What is mapped goes by the key of its item. -/
theorem keyOfCloudId_of_mapItem {ix' : TreeIndex} {m : Mapping} {it : Client.Item}
    (hm : mapItem scope ix' tags d = .ok m) (hit : m.item = some it) :
    keyOfCloudId it.id = keyOf scope d := by
  match maps_of_mapItem hm hit with
  | .delete key hkey _ _ => exact (keyOfCloudId_toCloudId key).trans hkey.symm
  | .root key hkey _ _ _ => exact (keyOfCloudId_toCloudId key).trans hkey.symm
  | .placed key _ _ _ hkey _ _ _ _ _ => exact (keyOfCloudId_toCloudId key).trans hkey.symm

/-- **What a page refuses**: what the judging refuses, and what lies directly beneath that. -/
theorem mapPage_refuses : (mapPage scope ix tags page).2.Refuses key
    ↔ Refuses scope ix tags page.value key ∨ Orphaned scope ix tags page.value key := by
  rw [refuses_iff, ← orphaned_iff]
  constructor
  · rintro ⟨r, hr, hkey⟩
    rcases List.mem_append.mp hr with hr | hr
    · exact Or.inl ⟨r, hr, hkey⟩
    · exact Or.inr ⟨r, hr, hkey⟩
  · rintro (⟨r, hr, hkey⟩ | ⟨r, hr, hkey⟩)
    · exact ⟨r, List.mem_append_left _ hr, hkey⟩
    · exact ⟨r, List.mem_append_right _ hr, hkey⟩

/-- **What it forwards**: what the judging accepts, but for what lies directly beneath what it
refuses. -/
theorem mapPage_forwards (hkey : keyOf scope d = some key) :
    MapsInto scope ix tags page.value (mapPage scope ix tags page).2.items d
      ↔ Accepts scope ix tags page.value d ∧ ¬ Orphaned scope ix tags page.value key := by
  constructor
  · rintro ⟨ix', m, it, hjudges, hm, hitem, hit⟩
    refine ⟨⟨ix', m, hjudges, hm, by rw [hitem]; rfl⟩, ?_⟩
    exact (mem_mapPage_items.mp hit).2 key ((keyOfCloudId_of_mapItem hm hitem).trans hkey)
  · rintro ⟨⟨ix', m, hjudges, hm, hsome⟩, hkept⟩
    obtain ⟨it, hitem⟩ := Option.isSome_iff_exists.mp hsome
    refine ⟨ix', m, it, hjudges, hm, hitem, mem_mapPage_items.mpr ⟨⟨d, ix', m, hjudges, hm, hitem⟩,
      fun k hk ↦ ?_⟩⟩
    cases hkey.symm.trans ((keyOfCloudId_of_mapItem hm hitem).symm.trans hk)
    exact hkept

/-- **The refusal of a container closes over all that lies beneath it** exactly if every item
beneath a container that the judging refuses is not accepted by the judging, and its object refused
by it, or its object lies directly beneath one that the judging refuses. -/
theorem refusal_closes_iff : Closed scope ix tags page ↔
    ∀ container, Refuses scope ix tags page.value container → ∀ d ∈ page.value,
      d.deleted = false → ∀ key, keyOf scope d = some key →
      LiesBeneath scope page.value container d →
        Refuses scope ix tags page.value key ∧ ¬ Accepts scope ix tags page.value d
          ∨ Orphaned scope ix tags page.value key := by
  constructor
  · intro h container hcontainer d hd hdeleted key hkey hbeneath
    obtain ⟨hrefused, hkept⟩ := h container (mapPage_refuses.mpr (Or.inl hcontainer)) d hd hdeleted
      key hkey hbeneath
    by_cases horphan : Orphaned scope ix tags page.value key
    · exact Or.inr horphan
    · refine Or.inl ⟨(mapPage_refuses.mp hrefused).resolve_right horphan, fun haccepts ↦ ?_⟩
      exact hkept ((mapPage_forwards hkey).mpr ⟨haccepts, horphan⟩)
  · intro h container hcontainer d hd hdeleted key hkey hbeneath
    rw [mapPage_refuses, mapPage_forwards hkey]
    -- what lies beneath an orphan lies beneath the container that the judging refused
    have hcase : Refuses scope ix tags page.value key ∧ ¬ Accepts scope ix tags page.value d
        ∨ Orphaned scope ix tags page.value key := by
      rcases mapPage_refuses.mp hcontainer with hrefused | ⟨-, e, he, hekey, parent, hparent, hrefused⟩
      · exact h container hrefused d hd hdeleted key hkey hbeneath
      · exact h parent hrefused d hd hdeleted key hkey (hbeneath.above ⟨e, he, hekey, hparent⟩)
    rcases hcase with ⟨hrefused, hnot⟩ | horphan
    · exact ⟨Or.inl hrefused, fun h ↦ hnot h.1⟩
    · exact ⟨Or.inr horphan, fun h ↦ h.2 horphan⟩

/-! ### A folder in a quarantined folder -/

/-- A quarantined folder, a folder in it, and a file in that. -/
def nestedQuarantine : DeltaPage :=
  ⟨[{ sampleFolder "a" "r" with malware := true }, sampleFolder "b" "a", sampleFile "c" "b"],
    .done "link"⟩

/-- The file lies beneath the quarantined folder, is not refused, and goes to the namespace. -/
theorem nested_forwarded : ¬ Closed sampleDrive .new .cTag nestedQuarantine := by
  intro h
  have hfile : sampleFile "c" "b" ∈ nestedQuarantine.value := by decide +kernel
  have hbeneath : LiesBeneath sampleDrive nestedQuarantine.value
      ⟨⟨"d", by decide⟩, ⟨"a", by decide⟩⟩ (sampleFile "c" "b") := by
    refine ⟨⟨⟨"d", by decide⟩, ⟨"b", by decide⟩⟩, by decide +kernel, .single ?_⟩
    exact ⟨sampleFolder "b" "a", by decide +kernel, by decide +kernel, by decide +kernel⟩
  obtain ⟨hrefused, -⟩ := h ⟨⟨"d", by decide⟩, ⟨"a", by decide⟩⟩
    ⟨⟨some ⟨⟨"d", by decide⟩, ⟨"a", by decide⟩⟩, .blocked⟩, by decide +kernel, rfl⟩
    (sampleFile "c" "b") hfile rfl ⟨⟨"d", by decide⟩, ⟨"c", by decide⟩⟩ (by decide +kernel) hbeneath
  have hnone : ∀ r ∈ (mapPage sampleDrive .new .cTag nestedQuarantine).2.refusals,
      r.key ≠ some ⟨⟨"d", by decide⟩, ⟨"c", by decide⟩⟩ := by decide +kernel
  obtain ⟨r, hr, hkey⟩ := hrefused
  exact hnone r hr hkey

/-- It is among what goes there. -/
example : .upsert ⟨"d|c", "d|b", "c", .file 3 (some "ct:c")⟩
    ∈ (mapPage sampleDrive .new .cTag nestedQuarantine).2.items := by decide +kernel

end HydrationAPI.Graph
