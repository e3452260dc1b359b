import HydrationAPI.Graph.Ids

/-!
# What the service says about an object

A `driveItem` as it is decoded: every field optional, and the facets that say what the object is
present or absent in any combination. What an item is comes out of one total match, in which the
order of the arms is the precedence of the facets. Size, tags and the facets of an object that is
linked into the drive are read from inside the link.
-/

namespace HydrationAPI.Graph

/-- A JSON value, as far as it is a count. -/
inductive Json where
  | u64 (n : ℕ)
  | other
  deriving DecidableEq, Repr

def Json.asU64 : Json → Option ℕ
  | .u64 n => some n
  | .other => none

structure Hashes where
  quickXorHash : Option String
  sha256Hash : Option String
  sha1Hash : Option String
  deriving DecidableEq, Repr

structure FileFacet where
  hashes : Option Hashes
  deriving DecidableEq, Repr

structure ItemReference where
  driveId : Option String
  id : Option String
  deriving DecidableEq, Repr

/-- The half of a `driveItem` that a `remoteItem` may also carry. -/
structure ItemBody where
  id : Option String
  size : Option Json
  cTag : Option String
  file : Option FileFacet
  folder : Bool
  package : Bool
  malware : Bool
  pendingOperations : Bool
  parentReference : Option ItemReference
  deriving DecidableEq, Repr

structure DriveItem where
  id : Option String
  name : Option String
  size : Option Json
  eTag : Option String
  cTag : Option String
  file : Option FileFacet
  folder : Bool
  package : Bool
  root : Bool
  malware : Bool
  deleted : Bool
  pendingOperations : Bool
  remoteItem : Option ItemBody
  parentReference : Option ItemReference
  deriving DecidableEq, Repr

/-- The facets that may live inside a `remoteItem`, flattened. -/
structure Body where
  file : Bool
  folder : Bool
  package : Bool
  malware : Bool
  pending : Bool
  size : Option Json
  cTag : Option String
  hashes : Option Hashes
  deriving DecidableEq, Repr

/-- Shape, size and tags come from here and nowhere else. -/
def DriveItem.body (item : DriveItem) : Body :=
  match item.remoteItem with
  | some r =>
    ⟨r.file.isSome, r.folder, r.package, r.malware, r.pendingOperations, r.size, r.cTag,
      r.file.bind FileFacet.hashes⟩
  | none =>
    ⟨item.file.isSome, item.folder, item.package, item.malware, item.pendingOperations, item.size,
      item.cTag, item.file.bind FileFacet.hashes⟩

/-- What an item is, decided once. -/
inductive Shape where
  | deleted
  | root
  /-- Quarantined by the service. -/
  | blocked
  /-- An upload is still in flight. -/
  | unsettled
  | package
  | folder
  | file
  | ambiguous
  | neither
  deriving DecidableEq, Repr

def shapeOf (item : DriveItem) : Shape :=
  let b := item.body
  match item.deleted, item.root, b.malware, b.pending, b.package, b.folder, b.file with
  | true, _, _, _, _, _, _ => .deleted
  | _, true, _, _, _, _, _ => .root
  | _, _, true, _, _, _, _ => .blocked
  | _, _, _, true, _, _, _ => .unsettled
  | _, _, _, _, true, _, _ => .package
  | _, _, _, _, _, true, true => .ambiguous
  | _, _, _, _, _, true, false => .folder
  | _, _, _, _, _, false, true => .file
  | _, _, _, _, _, false, false => .neither

theorem shapeOf_eq_deleted {item : DriveItem} : shapeOf item = .deleted ↔ item.deleted = true := by
  constructor
  · intro h
    by_contra hdel
    rw [shapeOf] at h
    split at h <;> simp_all
  · intro h
    rw [shapeOf, h]

theorem shapeOf_eq_root {item : DriveItem} :
    shapeOf item = .root ↔ item.deleted = false ∧ item.root = true := by
  constructor
  · intro h
    rw [shapeOf] at h
    split at h <;> simp_all
  · rintro ⟨hdel, hroot⟩
    rw [shapeOf, hdel, hroot]

/-- Which field becomes the content tag of a file. -/
inductive TagSource where
  | cTag
  | quickXor
  | sha256
  | sha1
  deriving DecidableEq, Repr

/-- The content version, from the source the caller pinned; nothing where it is missing. -/
def contentTag (b : Body) (source : TagSource) : Option String :=
  match source with
  | .cTag => b.cTag.map ("ct:" ++ ·)
  | .quickXor => (b.hashes.bind Hashes.quickXorHash).map ("qx:" ++ ·)
  | .sha256 => (b.hashes.bind Hashes.sha256Hash).map ("s256:" ++ ·)
  | .sha1 => (b.hashes.bind Hashes.sha1Hash).map ("s1:" ++ ·)

end HydrationAPI.Graph
