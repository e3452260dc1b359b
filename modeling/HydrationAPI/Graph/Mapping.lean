import HydrationAPI.Client.Namespace
import HydrationAPI.Graph.Item

/-!
# From a page to items of the namespace

A page of the feed is mapped in three passes. The first registers what the page says about shapes
and parents; the second judges every item against the page as a whole; the third takes out again
what lies directly beneath an item that was refused, since its parent will not arrive.
-/

namespace HydrationAPI.Graph

open HydrationAPI.Client (KindTag Kind Upsert)

/-- How deep an item may lie, as far as the index knows. -/
def maxMappedDepth : ℕ := 128

/-- Why an item cannot be mapped. -/
inductive Unmappable where
  | noId
  | idTooLong
  | noParent
  | selfParent
  | foreignParent (parentDrive : DriveId)
  | noShape
  | ambiguous
  | blocked
  | unsettled
  | noSize
  | noContentTag (source : TagSource)
  | shapeFlip (was now : KindTag) (children : ℕ)
  | tooDeep (depth : ℕ)
  | rootDeleted
  deriving DecidableEq

def Unmappable.ofBadId : BadId → Unmappable
  | .noId => .noId
  | .idTooLong => .idTooLong

/-- Something worth saying about an item that mapped anyway. -/
structure Note where
  key : ObjectKey
  what : String
  deriving DecidableEq

/-- A near-drive placeholder and the far-drive object it stands for. -/
structure MountPoint where
  placeholder : ObjectKey
  remote : ObjectKey
  deriving DecidableEq

/-- An item that did not map. -/
structure Refusal where
  key : Option ObjectKey
  why : Unmappable
  deriving DecidableEq

structure Mapping where
  item : Option Client.Item
  mount : Option MountPoint
  note : Option Note
  deriving DecidableEq

structure MappedPage where
  items : List Client.Item
  mounts : List MountPoint
  refusals : List Refusal
  deriving DecidableEq

/-- How a page ends: with a link to the next, or with the link that says where the feed is now. -/
inductive PageEnd where
  | more (nextLink : String)
  | done (deltaLink : String)
  deriving DecidableEq, Repr

structure DeltaPage where
  value : List DriveItem
  pageEnd : PageEnd

/-! ## The index -/

/-- What the mapper remembers about the tree so far. -/
structure TreeIndex where
  shapes : ObjectKey → Option KindTag
  parents : ObjectKey → Option ObjectKey
  children : ObjectKey → List ObjectKey

namespace TreeIndex

def new : TreeIndex := ⟨fun _ ↦ none, fun _ ↦ none, fun _ ↦ []⟩

variable (ix : TreeIndex)

def shapeOf (key : ObjectKey) : Option KindTag := ix.shapes key

def childCount (key : ObjectKey) : ℕ := (ix.children key).length

/-- Count the parents above `cur`, but not on and on. -/
def depthFrom : ℕ → ObjectKey → ℕ → ℕ
  | 0, _, depth => depth
  | n + 1, cur, depth =>
    match ix.parents cur with
    | none => depth
    | some parent =>
      if maxMappedDepth * 4 < depth + 1 then depth + 1 else depthFrom n parent (depth + 1)

/-- How deep `key` sits, following what the index already knows. -/
def depthOf (key : ObjectKey) : ℕ := ix.depthFrom (maxMappedDepth * 4 + 1) key 0

/-- Take a key out of the children of its parent, if it has one. -/
def unlink (key : ObjectKey) : TreeIndex :=
  match ix.parents key with
  | none => ix
  | some old => { ix with
      children := Function.update ix.children old ((ix.children old).filter (· ≠ key)) }

def attach (key : ObjectKey) (parent : Option ObjectKey) (shape : KindTag) : TreeIndex :=
  let ix := ix.unlink key
  let ix := match parent with
    | none => ix
    | some p => { ix with
        children := Function.update ix.children p ((ix.children p).insert key)
        parents := Function.update ix.parents key (some p) }
  { ix with shapes := Function.update ix.shapes key (some shape) }

def forget (key : ObjectKey) : TreeIndex :=
  let ix := ix.unlink key
  ⟨Function.update ix.shapes key none, Function.update ix.parents key none,
    Function.update ix.children key []⟩

end TreeIndex

/-! ## One item -/

/-- The key an item goes by, if it has a usable id. -/
def keyOf (scope : DriveScope) (item : DriveItem) : Option ObjectKey :=
  (item.id.bind fun raw ↦ (Id.parse raw).toOption).map fun id ↦ ⟨scope.drive, id⟩

/-- The key an item belongs under. -/
def parentKey (scope : DriveScope) (item : DriveItem) : Except Unmappable ObjectKey :=
  match item.parentReference with
  | none => .error .noParent
  | some r =>
    match r.id with
    | none => .error .noParent
    | some raw =>
      match Id.parse raw with
      | .error _ => .error .noParent
      | .ok parentItem =>
        match (r.driveId.map Id.parse).getD (.ok scope.drive) with
        | .error _ => .error .noParent
        | .ok drive =>
          if drive ≠ scope.drive then .error (.foreignParent drive)
          else match scope.anchor with
            | some anchor =>
              -- the far side's root is the near side's placeholder
              if parentItem = anchor.remoteRoot then .ok anchor.placeholder
              else .ok ⟨drive, parentItem⟩
            | none => .ok ⟨drive, parentItem⟩

/-- The far side of a link. -/
def mountOf (key : ObjectKey) (item : DriveItem) : Option MountPoint := do
  let r ← item.remoteItem
  let farDrive ← r.parentReference.bind fun p ↦ p.driveId.bind fun d ↦ (Id.parse d).toOption
  let farItem ← r.id.bind fun i ↦ (Id.parse i).toOption
  pure ⟨key, ⟨farDrive, farItem⟩⟩

/-- What is kept of an item of this shape. -/
def nodeKind (tags : TagSource) (item : DriveItem) : KindTag → Except Unmappable Kind
  | .opaq => .ok .opaq
  | .folder => .ok (.folder ((item.eTag.filter (· ≠ "")).map ("et:" ++ ·)))
  | .file =>
    match item.body.size.bind Json.asU64 with
    | none => .error .noSize
    | some size =>
      if maxObject < size then .error .noSize
      else match contentTag item.body tags with
        | none => .error (.noContentTag tags)
        | some tag => .ok (.file size (some tag))

/-- An item that has its place in the tree. -/
def mapPlaced (scope : DriveScope) (ix : TreeIndex) (tags : TagSource) (item : DriveItem)
    (key : ObjectKey) (kind : KindTag) : Except Unmappable Mapping :=
  match parentKey scope item with
  | .error e => .error e
  | .ok parent =>
    if parent = key then .error .selfParent
    else
      let depth := ix.depthOf parent + 1
      if maxMappedDepth < depth then .error (.tooDeep depth)
      else match (ix.shapeOf key).filter fun was ↦ was ≠ kind ∧ 0 < ix.childCount key with
        | some was => .error (.shapeFlip was kind (ix.childCount key))
        | none =>
          match nodeKind tags item kind with
          | .error e => .error e
          | .ok nodeKind =>
            .ok ⟨some (.upsert ⟨key.toCloudId, parent.toCloudId, item.name.getD "", nodeKind⟩),
              mountOf key item, none⟩

/-- One item, in isolation apart from what `ix` already knows. -/
def mapItem (scope : DriveScope) (ix : TreeIndex) (tags : TagSource) (item : DriveItem) :
    Except Unmappable Mapping :=
  match item.id with
  | none => .error .noId
  | some raw =>
    match Id.parse raw with
    | .error e => .error (.ofBadId e)
    | .ok id =>
      let key : ObjectKey := ⟨scope.drive, id⟩
      match shapeOf item with
      | .deleted =>
        if item.root then .error .rootDeleted
        else .ok ⟨some (.delete key.toCloudId), none, none⟩
      | .root =>
        match scope.anchor with
        | some _ => .ok ⟨none, none, some ⟨key, "the far side's root is not this tree's root"⟩⟩
        | none => .ok ⟨some (.root key.toCloudId), none, none⟩
      | .blocked => .error .blocked
      | .unsettled => .error .unsettled
      | .ambiguous => .error .ambiguous
      | .neither => .error .noShape
      | .package => mapPlaced scope ix tags item key .opaq
      | .folder => mapPlaced scope ix tags item key .folder
      | .file => mapPlaced scope ix tags item key .file

/-! ### What an item maps to -/

section MapItem

variable {scope : DriveScope} {ix : TreeIndex} {tags : TagSource} {d : DriveItem} {key : ObjectKey}

theorem id_of_keyOf (hkey : keyOf scope d = some key) :
    ∃ raw, d.id = some raw ∧ Id.parse raw = .ok key.item ∧ key = ⟨scope.drive, key.item⟩ := by
  obtain ⟨id, hid, rfl⟩ := Option.map_eq_some_iff.mp hkey
  obtain ⟨raw, hraw, hparse⟩ := Option.bind_eq_some_iff.mp hid
  refine ⟨raw, hraw, ?_, rfl⟩
  cases hp : Id.parse raw with
  | error e =>
    rw [hp] at hparse
    cases hparse
  | ok i =>
    rw [hp] at hparse
    cases hparse
    rfl

/-- An item with a usable id is mapped by its shape. -/
theorem mapItem_of_keyOf (hkey : keyOf scope d = some key) :
    mapItem scope ix tags d = match shapeOf d with
      | .deleted =>
        if d.root then .error .rootDeleted else .ok ⟨some (.delete key.toCloudId), none, none⟩
      | .root =>
        match scope.anchor with
        | some _ => .ok ⟨none, none, some ⟨key, "the far side's root is not this tree's root"⟩⟩
        | none => .ok ⟨some (.root key.toCloudId), none, none⟩
      | .blocked => .error .blocked
      | .unsettled => .error .unsettled
      | .ambiguous => .error .ambiguous
      | .neither => .error .noShape
      | .package => mapPlaced scope ix tags d key .opaq
      | .folder => mapPlaced scope ix tags d key .folder
      | .file => mapPlaced scope ix tags d key .file := by
  obtain ⟨raw, hraw, hparse, hk⟩ := id_of_keyOf hkey
  rw [mapItem, hraw]
  dsimp only
  rw [hparse]
  dsimp only
  rw [hk]

theorem mapItem_of_not_keyOf (hkey : keyOf scope d = none) :
    ∃ e, mapItem scope ix tags d = .error (.ofBadId e) ∨ mapItem scope ix tags d = .error .noId := by
  rw [mapItem]
  cases hraw : d.id with
  | none => exact ⟨.noId, Or.inr rfl⟩
  | some raw =>
    dsimp only
    cases hparse : Id.parse raw with
    | error e => exact ⟨e, Or.inl rfl⟩
    | ok i =>
      rw [keyOf, hraw, Option.bind_some, hparse] at hkey
      cases hkey

/-- The kind an item of this shape is placed as, if it is to be placed. -/
def placedKind : Shape → Option KindTag
  | .package => some .opaq
  | .folder => some .folder
  | .file => some .file
  | _ => none

theorem mapItem_of_placedKind {kind : KindTag} (hkey : keyOf scope d = some key)
    (hkind : placedKind (shapeOf d) = some kind) :
    mapItem scope ix tags d = mapPlaced scope ix tags d key kind := by
  rw [mapItem_of_keyOf hkey]
  cases hshape : shapeOf d <;> rw [hshape] at hkind <;> cases hkind <;> rfl

/-- What is placed is placed under its own id, as its kind. -/
theorem mapPlaced_item {kind : KindTag} {m : Mapping}
    (hm : mapPlaced scope ix tags d key kind = .ok m) :
    ∃ parent nk, parentKey scope d = .ok parent ∧ parent ≠ key ∧ nodeKind tags d kind = .ok nk
      ∧ ((ix.shapeOf key).filter fun was ↦ was ≠ kind ∧ 0 < ix.childCount key) = none
      ∧ m.item = some (.upsert ⟨key.toCloudId, parent.toCloudId, d.name.getD "", nk⟩) := by
  rw [mapPlaced] at hm
  split at hm
  · cases hm
  · rename_i parent hparent
    split at hm
    · cases hm
    · rename_i hne
      dsimp only at hm
      split at hm
      · cases hm
      · split at hm
        · cases hm
        · rename_i hflip
          split at hm
          · cases hm
          · rename_i nk hnk
            cases hm
            exact ⟨parent, nk, hparent, hne, hnk, hflip, rfl⟩

theorem nodeKind_tag {kind : KindTag} {nk : Kind} (h : nodeKind tags d kind = .ok nk) :
    nk.tag = kind := by
  cases kind with
  | opaq =>
    cases h
    rfl
  | folder =>
    cases h
    rfl
  | file =>
    rw [nodeKind] at h
    split at h
    · cases h
    · split at h
      · cases h
      · split at h
        · cases h
        · cases h
          rfl

/-- Everything an item can map to, and when it does. -/
inductive Maps (scope : DriveScope) (ix : TreeIndex) (tags : TagSource) (d : DriveItem) :
    Client.Item → Prop
  | delete (key : ObjectKey) : keyOf scope d = some key → d.deleted = true → d.root = false →
      Maps scope ix tags d (.delete key.toCloudId)
  | root (key : ObjectKey) : keyOf scope d = some key → d.deleted = false → d.root = true →
      scope.anchor = none → Maps scope ix tags d (.root key.toCloudId)
  | placed (key parent : ObjectKey) (kind : KindTag) (nk : Kind) : keyOf scope d = some key →
      placedKind (shapeOf d) = some kind → parentKey scope d = .ok parent → parent ≠ key →
      nk.tag = kind →
      ((ix.shapeOf key).filter fun was ↦ was ≠ kind ∧ 0 < ix.childCount key) = none →
      Maps scope ix tags d (.upsert ⟨key.toCloudId, parent.toCloudId, d.name.getD "", nk⟩)

theorem maps_of_mapItem {m : Mapping} {it : Client.Item} (hm : mapItem scope ix tags d = .ok m)
    (hit : m.item = some it) : Maps scope ix tags d it := by
  cases hkey : keyOf scope d with
  | none =>
    obtain ⟨e, he | he⟩ : ∃ e, mapItem scope ix tags d = .error (.ofBadId e)
        ∨ mapItem scope ix tags d = .error .noId := mapItem_of_not_keyOf hkey
    · cases he.symm.trans hm
    · cases he.symm.trans hm
  | some key =>
    cases hkind : placedKind (shapeOf d) with
    | some kind =>
      rw [mapItem_of_placedKind hkey hkind] at hm
      obtain ⟨parent, nk, hparent, hne, hnk, hflip, hitem⟩ := mapPlaced_item hm
      cases hit.symm.trans hitem
      exact .placed key parent kind nk hkey hkind hparent hne (nodeKind_tag hnk) hflip
    | none =>
      rw [mapItem_of_keyOf hkey] at hm
      cases hshape : shapeOf d <;> rw [hshape] at hkind hm <;> try cases hkind
      · dsimp only at hm
        split at hm
        · cases hm
        · rename_i hroot
          cases hm
          cases hit
          exact .delete key hkey (shapeOf_eq_deleted.mp hshape) (Bool.eq_false_iff.mpr hroot)
      · dsimp only at hm
        split at hm
        · cases hm
          cases hit
        · rename_i hanchor
          cases hm
          cases hit
          obtain ⟨hdel, hroot⟩ := shapeOf_eq_root.mp hshape
          exact .root key hkey hdel hroot hanchor
      all_goals cases hm

end MapItem

/-! ## A page -/

/-- The shape an item is registered with, if it is. -/
def registeredShape (b : Body) : Option KindTag :=
  if b.package then some .opaq
  else if b.folder && !b.file then some .folder
  else if b.file && !b.folder then some .file
  else none

/-- Pass one, for one item: shape and parentage only, no judgement. -/
def register (scope : DriveScope) (ix : TreeIndex) (item : DriveItem) : TreeIndex :=
  match keyOf scope item with
  | none => ix
  | some key =>
    if item.deleted then ix
    else if item.root then ix.attach key none .folder
    else match registeredShape item.body with
      | none => ix
      | some kind =>
        -- the shape it was must survive, or a flip has nothing to be compared against
        ix.attach key (parentKey scope item).toOption ((ix.shapeOf key).getD kind)

/-- What pass two has come to. -/
structure Judged where
  index : TreeIndex
  page : MappedPage

/-- The index, once an item has been mapped. -/
def reindex (ix : TreeIndex) : Client.Item → TreeIndex
  | .root _ => ix
  | .upsert u =>
    match keyOfCloudId u.id with
    | none => ix
    | some key => ix.attach key (ix.parents key) u.kind.tag
  | .delete id =>
    match keyOfCloudId id with
    | none => ix
    | some key => ix.forget key

/-- Pass two, for one item: judge, with the whole page visible. -/
def judgeItem (scope : DriveScope) (tags : TagSource) (j : Judged) (item : DriveItem) : Judged :=
  match mapItem scope j.index tags item with
  | .error why =>
    { j with page := { j.page with refusals := j.page.refusals ++ [⟨keyOf scope item, why⟩] } }
  | .ok m =>
    ⟨(m.item.map (reindex j.index)).getD j.index,
      { j.page with
        mounts := j.page.mounts ++ m.mount.toList
        items := j.page.items ++ m.item.toList }⟩

/-- Both passes over the items of a page. -/
def judgeAll (scope : DriveScope) (ix : TreeIndex) (tags : TagSource) (items : List DriveItem) :
    Judged :=
  items.foldl (judgeItem scope tags) ⟨items.foldl (register scope) ix, ⟨[], [], []⟩⟩

/-- Pass three, for one item: the refusal of its parent, if its parent was refused and it was
not. -/
def orphan (scope : DriveScope) (refusals : List Refusal) (item : DriveItem) : Option Refusal :=
  match keyOf scope item with
  | none => none
  | some key =>
    if key ∈ refusals.filterMap Refusal.key then none
    else match parentKey scope item with
      | .error _ => none
      | .ok parent =>
        (refusals.find? (·.key = some parent)).map fun r ↦ ⟨some key, r.why⟩

/-- A whole page, and the index with what it says. -/
def mapPage (scope : DriveScope) (ix : TreeIndex) (tags : TagSource) (page : DeltaPage) :
    TreeIndex × MappedPage :=
  let j := judgeAll scope ix tags page.value
  let orphaned := page.value.filterMap (orphan scope j.page.refusals)
  (j.index,
    { j.page with
      items := j.page.items.filter fun it ↦ ∀ r ∈ orphaned, keyOfCloudId it.id ≠ r.key
      refusals := j.page.refusals ++ orphaned })

/-! ## What the passes come to -/

variable {scope : DriveScope} {tags : TagSource} {ix : TreeIndex}

/-- Pass two comes to the item `d` of the page with the index `ix'`. -/
def Judges (scope : DriveScope) (ix : TreeIndex) (tags : TagSource) (items : List DriveItem)
    (d : DriveItem) (ix' : TreeIndex) : Prop :=
  ∃ before after, items = before ++ d :: after
    ∧ ix' = (before.foldl (judgeItem scope tags)
      ⟨items.foldl (register scope) ix, ⟨[], [], []⟩⟩).index

/-- Every item of a page is come to. -/
theorem exists_judges {items : List DriveItem} {d : DriveItem} (hd : d ∈ items) :
    ∃ ix', Judges scope ix tags items d ix' := by
  obtain ⟨before, after, rfl⟩ := List.append_of_mem hd
  exact ⟨_, before, after, rfl, rfl⟩

theorem Judges.mem {items : List DriveItem} {d : DriveItem} {ix' : TreeIndex}
    (h : Judges scope ix tags items d ix') : d ∈ items := by
  obtain ⟨before, after, rfl, -⟩ := h
  exact List.mem_append_right _ List.mem_cons_self

private theorem mem_foldl_judgeItem_items {it : Client.Item} (items : List DriveItem) (j : Judged) :
    it ∈ (items.foldl (judgeItem scope tags) j).page.items ↔ it ∈ j.page.items
      ∨ ∃ before d after m, items = before ++ d :: after
        ∧ mapItem scope (before.foldl (judgeItem scope tags) j).index tags d = .ok m
        ∧ m.item = some it := by
  induction items generalizing j with
  | nil => simp
  | cons e items ih =>
    have hhead : it ∈ (judgeItem scope tags j e).page.items ↔ it ∈ j.page.items
        ∨ ∃ m, mapItem scope j.index tags e = .ok m ∧ m.item = some it := by
      rw [judgeItem]
      cases hm : mapItem scope j.index tags e with
      | error why => simp
      | ok m => simp
    rw [List.foldl_cons, ih, hhead, or_assoc]
    refine or_congr_right ⟨?_, ?_⟩
    · rintro (⟨m, hm, hit⟩ | ⟨before, d, after, m, rfl, hm, hit⟩)
      · exact ⟨[], e, items, m, rfl, hm, hit⟩
      · exact ⟨e :: before, d, after, m, rfl, hm, hit⟩
    · rintro ⟨before, d, after, m, hsplit, hm, hit⟩
      cases before with
      | nil =>
        obtain ⟨rfl, rfl⟩ := List.cons.inj hsplit
        exact Or.inl ⟨m, hm, hit⟩
      | cons e' before =>
        obtain ⟨rfl, rfl⟩ := List.cons.inj hsplit
        exact Or.inr ⟨before, d, after, m, rfl, hm, hit⟩

private theorem mem_foldl_judgeItem_refusals {r : Refusal} (items : List DriveItem) (j : Judged) :
    r ∈ (items.foldl (judgeItem scope tags) j).page.refusals ↔ r ∈ j.page.refusals
      ∨ ∃ before d after why, items = before ++ d :: after
        ∧ mapItem scope (before.foldl (judgeItem scope tags) j).index tags d = .error why
        ∧ r = ⟨keyOf scope d, why⟩ := by
  induction items generalizing j with
  | nil => simp
  | cons e items ih =>
    have hhead : r ∈ (judgeItem scope tags j e).page.refusals ↔ r ∈ j.page.refusals
        ∨ ∃ why, mapItem scope j.index tags e = .error why ∧ r = ⟨keyOf scope e, why⟩ := by
      rw [judgeItem]
      cases hm : mapItem scope j.index tags e with
      | error why => simp
      | ok m => simp
    rw [List.foldl_cons, ih, hhead, or_assoc]
    refine or_congr_right ⟨?_, ?_⟩
    · rintro (⟨why, hm, hr⟩ | ⟨before, d, after, why, rfl, hm, hr⟩)
      · exact ⟨[], e, items, why, rfl, hm, hr⟩
      · exact ⟨e :: before, d, after, why, rfl, hm, hr⟩
    · rintro ⟨before, d, after, why, hsplit, hm, hr⟩
      cases before with
      | nil =>
        obtain ⟨rfl, rfl⟩ := List.cons.inj hsplit
        exact Or.inl ⟨why, hm, hr⟩
      | cons e' before =>
        obtain ⟨rfl, rfl⟩ := List.cons.inj hsplit
        exact Or.inr ⟨before, d, after, why, rfl, hm, hr⟩

/-- **What pass two maps** are the items of the page that map, each as the index had it. -/
theorem mem_judgeAll_items {items : List DriveItem} {it : Client.Item} :
    it ∈ (judgeAll scope ix tags items).page.items ↔ ∃ d ix' m, Judges scope ix tags items d ix'
      ∧ mapItem scope ix' tags d = .ok m ∧ m.item = some it := by
  rw [judgeAll, mem_foldl_judgeItem_items]
  constructor
  · rintro (h | ⟨before, d, after, m, hsplit, hm, hit⟩)
    · cases h
    · exact ⟨d, _, m, ⟨before, after, hsplit, rfl⟩, hm, hit⟩
  · rintro ⟨d, ix', m, ⟨before, after, hsplit, rfl⟩, hm, hit⟩
    exact Or.inr ⟨before, d, after, m, hsplit, hm, hit⟩

/-- **What it refuses** are the others. -/
theorem mem_judgeAll_refusals {items : List DriveItem} {r : Refusal} :
    r ∈ (judgeAll scope ix tags items).page.refusals ↔ ∃ d ix' why, Judges scope ix tags items d ix'
      ∧ mapItem scope ix' tags d = .error why ∧ r = ⟨keyOf scope d, why⟩ := by
  rw [judgeAll, mem_foldl_judgeItem_refusals]
  constructor
  · rintro (h | ⟨before, d, after, why, hsplit, hm, hr⟩)
    · cases h
    · exact ⟨d, _, why, ⟨before, after, hsplit, rfl⟩, hm, hr⟩
  · rintro ⟨d, ix', why, ⟨before, after, hsplit, rfl⟩, hm, hr⟩
    exact Or.inr ⟨before, d, after, why, hsplit, hm, hr⟩

/-- An item of the page with this key is refused. -/
def Refuses (scope : DriveScope) (ix : TreeIndex) (tags : TagSource) (items : List DriveItem)
    (key : ObjectKey) : Prop :=
  ∃ d ix' why, Judges scope ix tags items d ix' ∧ keyOf scope d = some key
    ∧ mapItem scope ix' tags d = .error why

/-- An item of the page with this key lies directly beneath one that is refused, and none with the
key is refused itself. -/
def Orphaned (scope : DriveScope) (ix : TreeIndex) (tags : TagSource) (items : List DriveItem)
    (key : ObjectKey) : Prop :=
  ¬ Refuses scope ix tags items key ∧ ∃ d ∈ items, keyOf scope d = some key
    ∧ ∃ parent, parentKey scope d = .ok parent ∧ Refuses scope ix tags items parent

theorem refuses_iff {items : List DriveItem} {key : ObjectKey} :
    Refuses scope ix tags items key
      ↔ ∃ r ∈ (judgeAll scope ix tags items).page.refusals, r.key = some key := by
  constructor
  · rintro ⟨d, ix', why, hd, hkey, hm⟩
    exact ⟨_, mem_judgeAll_refusals.mpr ⟨d, ix', why, hd, hm, rfl⟩, hkey⟩
  · rintro ⟨r, hr, hkey⟩
    obtain ⟨d, ix', why, hd, hm, rfl⟩ := mem_judgeAll_refusals.mp hr
    exact ⟨d, ix', why, hd, hkey, hm⟩

/-- **Pass three takes out the keys that lie directly beneath what was refused.** -/
theorem orphaned_iff {items : List DriveItem} {key : ObjectKey} :
    (∃ r ∈ items.filterMap (orphan scope (judgeAll scope ix tags items).page.refusals),
      r.key = some key) ↔ Orphaned scope ix tags items key := by
  have horphan : ∀ d, (∃ r, orphan scope (judgeAll scope ix tags items).page.refusals d = some r
      ∧ r.key = some key) ↔ keyOf scope d = some key ∧ ¬ Refuses scope ix tags items key
        ∧ ∃ parent, parentKey scope d = .ok parent ∧ Refuses scope ix tags items parent := by
    intro d
    rw [orphan]
    cases hkey : keyOf scope d with
    | none => simp
    | some k =>
      have hrefused : k ∈ (judgeAll scope ix tags items).page.refusals.filterMap Refusal.key
          ↔ Refuses scope ix tags items k := by
        rw [refuses_iff, List.mem_filterMap]
      dsimp only
      by_cases hk : Refuses scope ix tags items k
      · rw [if_pos (hrefused.mpr hk)]
        refine iff_of_false (fun ⟨r, h, _⟩ ↦ by cases h) fun ⟨h, hnot, _⟩ ↦ hnot ?_
        cases h
        exact hk
      · rw [if_neg fun h ↦ hk (hrefused.mp h)]
        cases hparent : parentKey scope d with
        | error e => simp
        | ok parent =>
          dsimp only
          constructor
          · rintro ⟨r, hr, hrk⟩
            obtain ⟨r', hr', rfl⟩ := Option.map_eq_some_iff.mp hr
            cases hrk
            refine ⟨rfl, hk, parent, rfl, refuses_iff.mpr ⟨r', List.mem_of_find?_eq_some hr', ?_⟩⟩
            have hfound := List.find?_some hr'
            exact of_decide_eq_true hfound
          · rintro ⟨h, -, parent', hp, hrefuses⟩
            cases h
            cases hp
            obtain ⟨r, hr, hrk⟩ := refuses_iff.mp hrefuses
            have hsome : ((judgeAll scope ix tags items).page.refusals.find?
                (·.key = some parent)).isSome :=
              List.find?_isSome.mpr ⟨r, hr, decide_eq_true hrk⟩
            obtain ⟨r', hr'⟩ := Option.isSome_iff_exists.mp hsome
            exact ⟨⟨some key, r'.why⟩, by rw [hr']; rfl, rfl⟩
  constructor
  · rintro ⟨r, hr, hrk⟩
    obtain ⟨d, hd, horph⟩ := List.mem_filterMap.mp hr
    obtain ⟨hkey, hnot, hparent⟩ := (horphan d).mp ⟨r, horph, hrk⟩
    exact ⟨hnot, d, hd, hkey, hparent⟩
  · rintro ⟨hnot, d, hd, hkey, hparent⟩
    obtain ⟨r, horph, hrk⟩ := (horphan d).mpr ⟨hkey, hnot, hparent⟩
    exact ⟨r, List.mem_filterMap.mpr ⟨d, hd, horph⟩, hrk⟩

/-- **What becomes of a page**: the items that map, but for those that lie directly beneath what
was refused. -/
theorem mem_mapPage_items {page : DeltaPage} {it : Client.Item} :
    it ∈ (mapPage scope ix tags page).2.items
      ↔ (∃ d ix' m, Judges scope ix tags page.value d ix' ∧ mapItem scope ix' tags d = .ok m
          ∧ m.item = some it)
        ∧ ∀ key, keyOfCloudId it.id = some key → ¬ Orphaned scope ix tags page.value key := by
  rw [mapPage]
  dsimp only
  rw [List.mem_filter, mem_judgeAll_items]
  refine and_congr_right fun _ ↦ ?_
  rw [decide_eq_true_eq]
  constructor
  · intro h key hkey horph
    obtain ⟨r, hr, hrk⟩ := orphaned_iff.mpr horph
    exact h r hr (hkey.trans hrk.symm)
  · intro h r hr hrk
    obtain ⟨d, hd, horph⟩ := List.mem_filterMap.mp hr
    -- an orphan has a key
    cases hkey : r.key with
    | none =>
      rw [orphan] at horph
      split at horph
      · cases horph
      · split at horph
        · cases horph
        · split at horph
          · cases horph
          · obtain ⟨r', -, rfl⟩ := Option.map_eq_some_iff.mp horph
            cases hkey
    | some key => exact h key (hrk.trans hkey) (orphaned_iff.mp ⟨r, hr, hkey⟩)

private theorem foldl_judgeItem_items (items : List DriveItem) (j : Judged) :
    ∃ rest, (items.foldl (judgeItem scope tags) j).page.items = j.page.items ++ rest := by
  induction items generalizing j with
  | nil => exact ⟨[], (List.append_nil _).symm⟩
  | cons e items ih =>
    obtain ⟨rest, hrest⟩ := ih (judgeItem scope tags j e)
    rw [List.foldl_cons, hrest, judgeItem]
    split
    · exact ⟨rest, rfl⟩
    · exact ⟨_, List.append_assoc _ _ _⟩

private theorem foldl_judgeItem_split {it : Client.Item} (items : List DriveItem) (j : Judged)
    {first last : List Client.Item}
    (h : (items.foldl (judgeItem scope tags) j).page.items
      = j.page.items ++ (first ++ it :: last)) :
    ∃ xs d ys, items = xs ++ d :: ys
      ∧ Maps scope (xs.foldl (judgeItem scope tags) j).index tags d it
      ∧ (xs.foldl (judgeItem scope tags) j).page.items = j.page.items ++ first := by
  induction items generalizing j first with
  | nil =>
    have hlength := congrArg List.length h
    rw [List.foldl_nil, List.length_append, List.length_append, List.length_cons] at hlength
    omega
  | cons e items ih =>
    rw [List.foldl_cons] at h
    have hstep : (judgeItem scope tags j e).page.items = j.page.items
        ∨ ∃ it', (judgeItem scope tags j e).page.items = j.page.items ++ [it']
          ∧ Maps scope j.index tags e it' := by
      rw [judgeItem]
      split
      · exact Or.inl rfl
      · rename_i m hm
        cases hit : m.item with
        | none => exact Or.inl (List.append_nil _)
        | some it' => exact Or.inr ⟨it', rfl, maps_of_mapItem hm hit⟩
    rcases hstep with hsame | ⟨it', hone, hmaps⟩
    · obtain ⟨xs, d, ys, rfl, hd, hfirst⟩ := ih (judgeItem scope tags j e) (hsame ▸ h)
      exact ⟨e :: xs, d, ys, rfl, hd, hfirst.trans (by rw [hsame])⟩
    · obtain ⟨rest, hrest⟩ : ∃ rest, (items.foldl (judgeItem scope tags)
          (judgeItem scope tags j e)).page.items = _ ++ rest := foldl_judgeItem_items items _
      have hsplit : it' :: rest = first ++ it :: last := by
        rw [hrest, hone, List.append_assoc] at h
        exact List.append_cancel_left h
      cases first with
      | nil =>
        cases hsplit
        exact ⟨[], e, items, rfl, hmaps, (List.append_nil _).symm⟩
      | cons it'' first =>
        obtain ⟨rfl, hcut⟩ := List.cons.inj hsplit
        obtain ⟨xs, d, ys, rfl, hd, hfirst⟩ := ih (judgeItem scope tags j e) (hcut ▸ hrest)
        refine ⟨e :: xs, d, ys, rfl, hd, hfirst.trans ?_⟩
        rw [hone, List.append_assoc]
        rfl

/-- Pass two as it comes to what follows the items `xs` of a page. -/
def judgedUpTo (scope : DriveScope) (ix : TreeIndex) (tags : TagSource) (page : DeltaPage)
    (xs : List DriveItem) : Judged :=
  xs.foldl (judgeItem scope tags) ⟨page.value.foldl (register scope) ix, ⟨[], [], []⟩⟩

/-- What goes to the namespace of the items `xs` of a page, which those after them follow. -/
def itemsUpTo (scope : DriveScope) (ix : TreeIndex) (tags : TagSource) (page : DeltaPage)
    (xs : List DriveItem) : List Client.Item :=
  (judgedUpTo scope ix tags page xs).page.items.filter fun it ↦
    ∀ r ∈ page.value.filterMap (orphan scope (judgeAll scope ix tags page.value).page.refusals),
      keyOfCloudId it.id ≠ r.key

/-- **The items of a page come in the order of the page.** -/
theorem mapPage_split {page : DeltaPage} {it : Client.Item} {first last : List Client.Item}
    (h : (mapPage scope ix tags page).2.items = first ++ it :: last) :
    ∃ xs d ys, page.value = xs ++ d :: ys
      ∧ Maps scope (judgedUpTo scope ix tags page xs).index tags d it
      ∧ first = itemsUpTo scope ix tags page xs := by
  rw [mapPage] at h
  dsimp only at h
  obtain ⟨l, l', hl, hfirst, hlast⟩ := List.filter_eq_append_iff.mp h
  obtain ⟨l₁, l₂, rfl, hnone, -, -⟩ := List.filter_eq_cons_iff.mp hlast
  have hjudged : (judgeAll scope ix tags page.value).page.items = [] ++ ((l ++ l₁) ++ it :: l₂) := by
    rw [hl, List.nil_append, List.append_assoc]
  obtain ⟨xs, d, ys, hvalue, hmaps, hbefore⟩ := foldl_judgeItem_split page.value _ hjudged
  refine ⟨xs, d, ys, hvalue, hmaps, ?_⟩
  rw [itemsUpTo, judgedUpTo, hbefore, List.nil_append, List.filter_append, hfirst,
    List.filter_eq_nil_iff.mpr hnone, List.append_nil]

/-- What goes to the namespace of the items `xs` is mapped from one of them. -/
theorem exists_maps_of_mem_itemsUpTo {page : DeltaPage} {it : Client.Item} {xs : List DriveItem}
    (h : it ∈ itemsUpTo scope ix tags page xs) :
    ∃ e ∈ xs, ∃ ix', Maps scope ix' tags e it := by
  have hmem := List.mem_of_mem_filter h
  rw [judgedUpTo, mem_foldl_judgeItem_items] at hmem
  rcases hmem with hmem | ⟨before, d, after, m, rfl, hm, hit⟩
  · exact absurd hmem List.not_mem_nil
  · exact ⟨d, List.mem_append_right _ List.mem_cons_self, _, maps_of_mapItem hm hit⟩

end HydrationAPI.Graph
