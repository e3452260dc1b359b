import HydrationAPI.Graph.Mapping
import HydrationAPI.Lib.Serde
import HydrationAPI.Protocol.Errors

/-!
# The tree and the token on disk

The tree is kept as the items a namespace is rebuilt from, with the drive it is of, the source of
its tags and the mounts in it; the token is the position in the feed of each drive. Both carry a
generation, and a token is as good as the tree it was written after: a tree newer than its token is
harmless, and a token newer than its tree is discarded.

The items on disk are of types of their own. Reading a tree back checks everything: the bytes may be
of any origin.
-/

namespace HydrationAPI.Graph

open HydrationAPI.Client (Kind)
open Serde (Value Form)

/-! ## What is stored -/

inductive StoredKind where
  | file (size : ℕ) (ctag : Option String)
  | folder
  | versionedFolder (etag : String)
  /-- Not collapsed into a folder: it must not be walked into after a restart either. -/
  | opaq
  deriving DecidableEq, Repr

inductive StoredItem where
  | root (id : String)
  | upsert (id parent name : String) (kind : StoredKind)
  | delete (id : String)
  deriving DecidableEq, Repr

structure StoredMount where
  placeholderDrive : String
  placeholderItem : String
  remoteDrive : String
  remoteItem : String
  deriving DecidableEq, Repr

structure StoredTree where
  generation : ℕ
  /-- The tree names its own drive, so that what another account left behind is discarded. -/
  drive : String
  tags : TagSource
  items : List StoredItem
  mounts : List StoredMount

def StoredKind.ofKind : Kind → StoredKind
  | .file size ctag => .file size ctag
  | .folder (some etag) => .versionedFolder etag
  | .folder none => .folder
  | .opaq => .opaq

def StoredKind.toKind : StoredKind → Kind
  | .file size ctag => .file size ctag
  | .folder => .folder none
  | .versionedFolder etag => .folder (some etag)
  | .opaq => .opaq

@[simp] theorem StoredKind.toKind_ofKind (kind : Kind) : (ofKind kind).toKind = kind := by
  match kind with
  | .file _ _ => rfl
  | .folder (some _) => rfl
  | .folder none => rfl
  | .opaq => rfl

def StoredItem.ofItem : Client.Item → StoredItem
  | .root id => .root id
  | .delete id => .delete id
  | .upsert u => .upsert u.id u.parent u.name (.ofKind u.kind)

def StoredItem.toItem : StoredItem → Client.Item
  | .root id => .root id
  | .delete id => .delete id
  | .upsert id parent name kind => .upsert ⟨id, parent, name, kind.toKind⟩

@[simp] theorem StoredItem.toItem_ofItem (item : Client.Item) : (ofItem item).toItem = item := by
  match item with
  | .root _ => rfl
  | .delete _ => rfl
  | .upsert u => rw [ofItem, toItem, StoredKind.toKind_ofKind]

def StoredMount.ofMount (m : MountPoint) : StoredMount :=
  ⟨m.placeholder.drive.raw, m.placeholder.item.raw, m.remote.drive.raw, m.remote.item.raw⟩

/-- A mount whose ids do not parse is forgotten. -/
def StoredMount.parse (m : StoredMount) : Option MountPoint := do
  let placeholderDrive ← (Id.parse m.placeholderDrive).toOption
  let placeholderItem ← (Id.parse m.placeholderItem).toOption
  let remoteDrive ← (Id.parse m.remoteDrive).toOption
  let remoteItem ← (Id.parse m.remoteItem).toOption
  pure ⟨⟨placeholderDrive, placeholderItem⟩, ⟨remoteDrive, remoteItem⟩⟩

@[simp] theorem StoredMount.parse_ofMount (m : MountPoint) : (ofMount m).parse = some m := by
  simp [ofMount, parse, Except.toOption]

theorem StoredMount.filterMap_parse (mounts : List MountPoint) :
    (mounts.map ofMount).filterMap parse = mounts := by
  have hparse : parse ∘ ofMount = some := funext parse_ofMount
  rw [List.filterMap_map, hparse, List.filterMap_some]

theorem StoredItem.map_toItem (items : List Client.Item) :
    (items.map ofItem).map toItem = items := by
  have hitem : toItem ∘ ofItem = id := funext toItem_ofItem
  rw [List.map_map, hitem, List.map_id]

/-! ## As documents -/

def TagSource.form : Form TagSource where
  write
    | .cTag => .str "CTag"
    | .quickXor => .str "QuickXor"
    | .sha256 => .str "Sha256"
    | .sha1 => .str "Sha1"
  read v := do
    let (name, carried) ← v.variant
    if ¬ Value.unit carried then none
    else if name = "CTag" then some .cTag
    else if name = "QuickXor" then some .quickXor
    else if name = "Sha256" then some .sha256
    else if name = "Sha1" then some .sha1
    else none
  Fits _ := True
  read_write {tags} _ := by cases tags <;> rfl
  fits_of_read _ := trivial

def StoredKind.write : StoredKind → Value
  | .file size ctag =>
    .obj [("File", .obj [("size", Form.u64.write size),
      ("ctag", (Form.str.option Form.write_str_ne).write ctag)])]
  | .folder => .str "Folder"
  | .versionedFolder etag => .obj [("VersionedFolder", .obj [("etag", Form.str.write etag)])]
  | .opaq => .str "Opaque"

def StoredKind.read (v : Value) : Option StoredKind := do
  let (name, carried) ← v.variant
  if name = "File" then
    let fields ← carried.bind Value.fields
    let size ← Form.u64.required fields "size"
    let ctag ← Form.str.optional fields "ctag"
    some (.file size ctag)
  else if name = "Folder" then if Value.unit carried then some .folder else none
  else if name = "VersionedFolder" then
    let fields ← carried.bind Value.fields
    let etag ← Form.str.required fields "etag"
    some (.versionedFolder etag)
  else if name = "Opaque" then if Value.unit carried then some .opaq else none
  else none

/-- A size is a count of 64 bits. -/
def StoredKind.Fits : StoredKind → Prop
  | .file size _ => size < 2 ^ 64
  | _ => True

theorem StoredKind.read_write {kind : StoredKind} (h : kind.Fits) :
    read kind.write = some kind := by
  match kind with
  | .file size ctag =>
    have hsize : Form.u64.Fits size := h
    have hctag : (Form.str.option Form.write_str_ne).Fits ctag := fun _ _ ↦ trivial
    simp [read, write, Value.variant, Value.fields, hsize, hctag]
  | .folder => rfl
  | .versionedFolder etag => simp [read, write, Value.variant, Value.fields]
  | .opaq => rfl

theorem StoredKind.fits_of_read {v : Value} {kind : StoredKind} (h : read v = some kind) :
    kind.Fits := by
  obtain ⟨⟨name, carried⟩, -, h⟩ := Option.bind_eq_some_iff.mp h
  dsimp only at h
  split at h
  · -- of all that is read only a size may be out of range
    obtain ⟨fields, -, h⟩ := Option.bind_eq_some_iff.mp h
    obtain ⟨size, hsize, h⟩ := Option.bind_eq_some_iff.mp h
    obtain ⟨ctag, -, h⟩ := Option.bind_eq_some_iff.mp h
    cases h
    exact Form.fits_of_required hsize
  · split at h
    · split at h <;> cases h
      trivial
    · split at h
      · obtain ⟨fields, -, h⟩ := Option.bind_eq_some_iff.mp h
        obtain ⟨etag, -, h⟩ := Option.bind_eq_some_iff.mp h
        cases h
        trivial
      · split at h
        · split at h <;> cases h
          trivial
        · cases h

def StoredKind.form : Form StoredKind := ⟨write, read, Fits, read_write, fits_of_read⟩

def StoredItem.write : StoredItem → Value
  | .root id => .obj [("Root", .obj [("id", Form.str.write id)])]
  | .upsert id parent name kind =>
    .obj [("Upsert", .obj [("id", Form.str.write id), ("parent", Form.str.write parent),
      ("name", Form.str.write name), ("kind", StoredKind.form.write kind)])]
  | .delete id => .obj [("Delete", .obj [("id", Form.str.write id)])]

def StoredItem.read (v : Value) : Option StoredItem := do
  let (variant, carried) ← v.variant
  let fields ← carried.bind Value.fields
  let id ← Form.str.required fields "id"
  if variant = "Root" then some (.root id)
  else if variant = "Upsert" then
    let parent ← Form.str.required fields "parent"
    let name ← Form.str.required fields "name"
    let kind ← StoredKind.form.required fields "kind"
    some (.upsert id parent name kind)
  else if variant = "Delete" then some (.delete id)
  else none

def StoredItem.Fits : StoredItem → Prop
  | .upsert _ _ _ kind => kind.Fits
  | _ => True

theorem StoredItem.read_write {item : StoredItem} (h : item.Fits) :
    read item.write = some item := by
  match item with
  | .root id => simp [read, write, Value.variant, Value.fields]
  | .upsert id parent name kind =>
    have hkind : StoredKind.form.Fits kind := h
    simp [read, write, Value.variant, Value.fields, hkind]
  | .delete id => simp [read, write, Value.variant, Value.fields]

theorem StoredItem.fits_of_read {v : Value} {item : StoredItem} (h : read v = some item) :
    item.Fits := by
  obtain ⟨⟨variant, carried⟩, -, h⟩ := Option.bind_eq_some_iff.mp h
  obtain ⟨fields, -, h⟩ := Option.bind_eq_some_iff.mp h
  obtain ⟨id, -, h⟩ := Option.bind_eq_some_iff.mp h
  split at h
  · cases h
    trivial
  · split at h
    · obtain ⟨parent, -, h⟩ := Option.bind_eq_some_iff.mp h
      obtain ⟨name, -, h⟩ := Option.bind_eq_some_iff.mp h
      obtain ⟨kind, hkind, h⟩ := Option.bind_eq_some_iff.mp h
      cases h
      exact Form.fits_of_required hkind
    · split at h <;> cases h
      trivial

def StoredItem.form : Form StoredItem := ⟨write, read, Fits, read_write, fits_of_read⟩

def StoredMount.form : Form StoredMount where
  write m := .obj [("placeholder_drive", Form.str.write m.placeholderDrive),
    ("placeholder_item", Form.str.write m.placeholderItem),
    ("remote_drive", Form.str.write m.remoteDrive),
    ("remote_item", Form.str.write m.remoteItem)]
  read v := do
    let fields ← v.fields
    let placeholderDrive ← Form.str.required fields "placeholder_drive"
    let placeholderItem ← Form.str.required fields "placeholder_item"
    let remoteDrive ← Form.str.required fields "remote_drive"
    let remoteItem ← Form.str.required fields "remote_item"
    some ⟨placeholderDrive, placeholderItem, remoteDrive, remoteItem⟩
  Fits _ := True
  read_write _ := by simp [Value.fields]
  fits_of_read _ := trivial

theorem StoredMount.fits_all (mounts : List StoredMount) : StoredMount.form.list.Fits mounts :=
  fun _ _ ↦ trivial

def StoredTree.form : Form StoredTree where
  write t := .obj [("generation", Form.u64.write t.generation), ("drive", Form.str.write t.drive),
    ("tags", TagSource.form.write t.tags), ("items", StoredItem.form.list.write t.items),
    ("mounts", StoredMount.form.list.write t.mounts)]
  read v := do
    let fields ← v.fields
    let generation ← Form.u64.required fields "generation"
    let drive ← Form.str.required fields "drive"
    let tags ← TagSource.form.required fields "tags"
    let items ← StoredItem.form.list.required fields "items"
    let mounts ← StoredMount.form.list.defaulted fields "mounts" []
    some ⟨generation, drive, tags, items, mounts⟩
  Fits t := t.generation < 2 ^ 64 ∧ ∀ item ∈ t.items, item.Fits
  read_write {t} h := by
    have hgeneration : Form.u64.Fits t.generation := h.1
    have htags : TagSource.form.Fits t.tags := trivial
    have hitems : StoredItem.form.list.Fits t.items := h.2
    have hmounts := StoredMount.fits_all t.mounts
    simp [Value.fields, hgeneration, htags, hitems, hmounts]
  fits_of_read h := by
    obtain ⟨fields, -, h⟩ := Option.bind_eq_some_iff.mp h
    obtain ⟨generation, hgeneration, h⟩ := Option.bind_eq_some_iff.mp h
    obtain ⟨drive, -, h⟩ := Option.bind_eq_some_iff.mp h
    obtain ⟨tags, -, h⟩ := Option.bind_eq_some_iff.mp h
    obtain ⟨items, hitems, h⟩ := Option.bind_eq_some_iff.mp h
    obtain ⟨mounts, -, h⟩ := Option.bind_eq_some_iff.mp h
    cases h
    exact ⟨Form.fits_of_required hgeneration, Form.fits_of_required hitems⟩

/-! ## Blobs -/

/-- The tree, encoded for storage. -/
structure TreeBlob where
  bytes : List UInt8
  deriving DecidableEq, Repr

section Blobs

variable (text : Serde.Text)

/-- What is stored of a tree. -/
def StoredTree.of (drive : DriveId) (tags : TagSource) (items : List Client.Item)
    (mounts : List MountPoint) (generation : ℕ) : StoredTree :=
  ⟨generation, drive.raw, tags, items.map .ofItem, mounts.map .ofMount⟩

/-- An empty blob, should the library ever refuse: an unreadable tree is recoverable. -/
def encodeTree (drive : DriveId) (tags : TagSource) (items : List Client.Item)
    (mounts : List MountPoint) (generation : ℕ) : TreeBlob :=
  let stored := StoredTree.of drive tags items mounts generation
  ⟨(text.toVec (StoredTree.form.write stored)).getD []⟩

namespace TreeBlob

variable (blob : TreeBlob)

/-- Every accessor goes through here, and may fail. -/
def decode : Except IoError StoredTree :=
  match (text.fromSlice blob.bytes).bind StoredTree.form.read with
  | some stored => .ok stored
  | none => .error (invalidData (text.complaint blob.bytes))

def drive : Except IoError DriveId := do
  let stored ← blob.decode text
  match Id.parse stored.drive with
  | .ok drive => .ok drive
  | .error e => .error (invalidData e.debug)

def tagSource : Except IoError TagSource := do
  let stored ← blob.decode text
  pure stored.tags

def items : Except IoError (List Client.Item) := do
  let stored ← blob.decode text
  pure (stored.items.map StoredItem.toItem)

def mounts : Except IoError (List MountPoint) := do
  let stored ← blob.decode text
  pure (stored.mounts.filterMap StoredMount.parse)

/-- A blob that does not decode is left as it is. -/
def withMounts (mounts : List MountPoint) : TreeBlob :=
  match blob.decode text with
  | .error _ => blob
  | .ok stored =>
    match text.toVec (StoredTree.form.write { stored with mounts := mounts.map .ofMount }) with
    | some bytes => ⟨bytes⟩
    | none => blob

end TreeBlob

/-- One delta token for each drive. -/
structure TokenBlob where
  perDrive : SortedMap String String
  /-- The generation of the tree this token was written after. -/
  generation : ℕ

namespace TokenBlob

def new : TokenBlob := ⟨.empty, 0⟩

def set (token : TokenBlob) (drive : DriveId) (link : String) : TokenBlob :=
  { token with perDrive := token.perDrive.insert drive.raw link }

def get (token : TokenBlob) (drive : DriveId) : Option String := token.perDrive.get drive.raw

def form : Form TokenBlob where
  write t := .obj [("per_drive", (Form.str.map Form.fits_str).write t.perDrive),
    ("generation", Form.u64.write t.generation)]
  read v := do
    let fields ← v.fields
    let perDrive ← (Form.str.map Form.fits_str).required fields "per_drive"
    let generation ← Form.u64.defaulted fields "generation" 0
    some ⟨perDrive, generation⟩
  Fits t := t.generation < 2 ^ 64
  read_write {t} h := by
    have hperDrive : (Form.str.map Form.fits_str).Fits t.perDrive := trivial
    have hgeneration : Form.u64.Fits t.generation := h
    simp [Value.fields, hperDrive, hgeneration]
  fits_of_read h := by
    obtain ⟨fields, -, h⟩ := Option.bind_eq_some_iff.mp h
    obtain ⟨perDrive, -, h⟩ := Option.bind_eq_some_iff.mp h
    obtain ⟨generation, hgeneration, h⟩ := Option.bind_eq_some_iff.mp h
    cases h
    exact Form.fits_of_defaulted (f := Form.u64) (Nat.two_pow_pos 64) hgeneration

def fromBytes (bytes : List UInt8) : Except IoError TokenBlob :=
  match (text.fromSlice bytes).bind form.read with
  | some token => .ok token
  | none => .error (invalidData (text.complaint bytes))

def asBytes (token : TokenBlob) : List UInt8 := (text.toVec (form.write token)).getD []

@[simp] theorem get_new (drive : DriveId) : new.get drive = none := rfl

@[simp] theorem get_set_self (token : TokenBlob) (drive : DriveId) (link : String) :
    (token.set drive link).get drive = some link := SortedMap.get_insert_self _ _ _

theorem get_set_of_ne {drive other : DriveId} (h : drive ≠ other) (token : TokenBlob)
    (link : String) : (token.set drive link).get other = token.get other := by
  have hraw : other.raw ≠ drive.raw := by
    rintro heq
    cases drive
    cases other
    cases heq
    exact h rfl
  exact SortedMap.get_insert_of_ne _ hraw link

end TokenBlob

/-! ## The state directory -/

/-- A tree and a token; whether they agree is judged when they are read. -/
structure PersistedState where
  tree : Option TreeBlob
  token : Option TokenBlob

/-- What reading a file comes to. -/
inductive Reading where
  | notFound
  | failed (e : IoError)
  | read (bytes : List UInt8)

/-- The two files of a state directory, as they can be read at one time. -/
structure FileStateStore where
  tree : Reading
  token : Reading

def readOptional : Reading → Except IoError (Option (List UInt8))
  | .notFound => .ok none
  | .failed e => .error e
  | .read bytes => .ok (some bytes)

def FileStateStore.load (store : FileStateStore) : Except IoError (Option PersistedState) := do
  let tree ← readOptional store.tree
  let bytes ← readOptional store.token
  let token ← match bytes with
    | none => pure none
    | some bytes => some <$> TokenBlob.fromBytes text bytes
  if tree.isNone ∧ token.isNone then pure none
  else pure (some ⟨tree.map TreeBlob.mk, token⟩)

/-- The store's answer, once it has been judged. -/
structure StoredView where
  items : List Client.Item
  tags : Option TagSource
  mounts : List MountPoint
  tokens : TokenBlob
  generation : ℕ

namespace StoredView

def nothing : StoredView := ⟨[], none, [], .new, 0⟩

/-- A token ahead of its tree is discarded, and the tree is kept. -/
def tokensOf (tree : StoredTree) : Option TokenBlob → TokenBlob
  | some t => if t.generation ≤ tree.generation then t else .new
  | none => .new

def read (scope : DriveScope) (state : Option PersistedState) : StoredView :=
  match state with
  | none => nothing
  | some state =>
    match state.tree with
    | none => nothing
    | some blob =>
      match blob.decode text with
      | .error _ => nothing
      | .ok tree =>
        if tree.drive ≠ scope.drive.raw then nothing
        else ⟨tree.items.map StoredItem.toItem, some tree.tags,
          tree.mounts.filterMap StoredMount.parse, tokensOf tree state.token, tree.generation⟩

end StoredView

end Blobs

/-! ## What is read back -/

section ReadBack

variable {text : Serde.Text} {drive : DriveId} {tags : TagSource} {items : List Client.Item}
  {mounts mounts' : List MountPoint} {generation : ℕ}

/-- The sizes of files are counts of 64 bits. -/
def Sized (items : List Client.Item) : Prop := ∀ item ∈ items, (StoredItem.ofItem item).Fits

theorem StoredTree.fits_of (hgeneration : generation < 2 ^ 64) (hsized : Sized items) :
    StoredTree.form.Fits (StoredTree.of drive tags items mounts generation) :=
  ⟨hgeneration, List.forall_mem_map.mpr hsized⟩

namespace TreeBlob

theorem decode_of_readsBack {stored : StoredTree} (hfits : StoredTree.form.Fits stored)
    (hreads : text.ReadsBack (StoredTree.form.write stored)) :
    (TreeBlob.mk ((text.toVec (StoredTree.form.write stored)).getD [])).decode text
      = .ok stored := by
  obtain ⟨bytes, hbytes, hread⟩ := hreads
  rw [decode, hbytes, Option.getD_some, hread, Option.bind_some, StoredTree.form.read_write hfits]

/-- **What is encoded decodes.** -/
theorem decode_encodeTree (hgeneration : generation < 2 ^ 64) (hsized : Sized items)
    (hreads : text.ReadsBack
      (StoredTree.form.write (StoredTree.of drive tags items mounts generation))) :
    (encodeTree text drive tags items mounts generation).decode text
      = .ok (StoredTree.of drive tags items mounts generation) :=
  decode_of_readsBack (StoredTree.fits_of hgeneration hsized) hreads

/-- What is read fits, since it has been read. -/
theorem fits_of_decode {blob : TreeBlob} {stored : StoredTree} (h : blob.decode text = .ok stored) :
    StoredTree.form.Fits stored := by
  unfold decode at h
  split at h
  · rename_i stored' hread
    cases h
    obtain ⟨v, -, hv⟩ := Option.bind_eq_some_iff.mp hread
    exact StoredTree.form.fits_of_read hv
  · cases h

/-- The mounts alone change. -/
theorem decode_withMounts {blob : TreeBlob} {stored : StoredTree}
    (h : blob.decode text = .ok stored) (hreads : text.ReadsBack
      (StoredTree.form.write { stored with mounts := mounts.map .ofMount })) :
    (blob.withMounts text mounts).decode text
      = .ok { stored with mounts := mounts.map .ofMount } := by
  have hfits : StoredTree.form.Fits { stored with mounts := mounts.map .ofMount } :=
    ⟨(fits_of_decode h).1, (fits_of_decode h).2⟩
  obtain ⟨bytes, hbytes, hread⟩ := hreads
  rw [withMounts, h]
  dsimp only
  rw [hbytes]
  dsimp only
  rw [decode, hread, Option.bind_some, StoredTree.form.read_write hfits]

theorem withMounts_of_not_decode {blob : TreeBlob} {e : IoError}
    (h : blob.decode text = .error e) (mounts : List MountPoint) :
    blob.withMounts text mounts = blob := by
  rw [withMounts, h]

/-- Giving an encoded tree other mounts is encoding it with these. -/
theorem withMounts_encodeTree (hgeneration : generation < 2 ^ 64) (hsized : Sized items)
    (hreads : text.ReadsBack
      (StoredTree.form.write (StoredTree.of drive tags items mounts generation)))
    (hreads' : text.ReadsBack
      (StoredTree.form.write (StoredTree.of drive tags items mounts' generation))) :
    (encodeTree text drive tags items mounts generation).withMounts text mounts'
      = encodeTree text drive tags items mounts' generation := by
  obtain ⟨bytes, hbytes, -⟩ := hreads'
  rw [withMounts, decode_encodeTree hgeneration hsized hreads]
  dsimp only [encodeTree, StoredTree.of] at hbytes ⊢
  rw [hbytes, Option.getD_some]

end TreeBlob

end ReadBack

end HydrationAPI.Graph
