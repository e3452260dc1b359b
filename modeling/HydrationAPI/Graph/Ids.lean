import HydrationAPI.Lib.Checks
import HydrationAPI.Lib.Text

/-!
# Identities of the service

A drive id and an item id are checked when they are read, and carry the check with them; together
they name an object. The framework sees an object as one string, with a separator that neither half
may contain, so that the string can be taken apart again in one way only.
-/

namespace HydrationAPI.Graph

/-- The byte ceiling on a single id component. -/
def maxIdBytes : ℕ := 256

/-- The byte ceiling on a composed cloud id. -/
def maxCloudIdBytes : ℕ := 512

/-- Joins a drive and an item into a cloud id. -/
def cloudIdSeparator : Char := '|'

/-- What is wrong with an id. -/
inductive BadId where
  | noId
  | idTooLong
  deriving DecidableEq, Repr

/-- How an id that was refused is shown. -/
def BadId.debug : BadId → String
  | .noId => "NoId"
  | .idTooLong => "IdTooLong"

/-- The one place an id is judged. -/
def checkId (raw : String) : Except BadId Unit :=
  if raw = "" then .error .noId
  else if maxIdBytes < raw.utf8ByteSize then .error .idTooLong
  else if '\x00' ∈ raw.toList ∨ cloudIdSeparator ∈ raw.toList then .error .noId
  else .ok ()

-- ids of one letter, as they stand in small examples
theorem checkId_a : checkId "a" = .ok () := by decide
theorem checkId_b : checkId "b" = .ok () := by decide
theorem checkId_d : checkId "d" = .ok () := by decide
theorem checkId_e : checkId "e" = .ok () := by decide
theorem checkId_i : checkId "i" = .ok () := by decide

/-- An id that has been judged. -/
structure Id where
  raw : String
  valid : checkId raw = .ok ()
  deriving DecidableEq

namespace Id

def parse (raw : String) : Except BadId Id :=
  match h : checkId raw with
  | .ok () => .ok ⟨raw, h⟩
  | .error e => .error e

theorem not_mem_separator (i : Id) : cloudIdSeparator ∉ i.raw.toList := by
  intro hmem
  have h := i.valid
  rw [checkId] at h
  split at h
  · cases h
  · split at h
    · cases h
    · rw [if_pos (Or.inr hmem)] at h
      cases h

@[simp] theorem parse_raw (i : Id) : parse i.raw = .ok i := by
  unfold parse
  split
  · rfl
  · rename_i e h
    cases i.valid.symm.trans h

theorem raw_of_parse {raw : String} {i : Id} (h : parse raw = .ok i) : i.raw = raw := by
  unfold parse at h
  split at h
  · cases h
    rfl
  · cases h

end Id

abbrev DriveId := Id

abbrev ItemId := Id

/-- A drive-qualified identity. Item ids are unique per drive, not globally. -/
structure ObjectKey where
  drive : DriveId
  item : ItemId
  deriving DecidableEq

/-- The identity as the framework sees it. -/
def ObjectKey.toCloudId (key : ObjectKey) : String :=
  key.drive.raw ++ (String.singleton cloudIdSeparator ++ key.item.raw)

/-- `CloudId::parse`. -/
def CloudId.parse (raw : String) : Except BadId ObjectKey :=
  match Text.splitOnce cloudIdSeparator raw with
  | none => .error .noId
  | some (drive, item) =>
    if cloudIdSeparator ∈ item.toList then .error .noId
    else do
      let drive ← Id.parse drive
      let item ← Id.parse item
      pure ⟨drive, item⟩

/-- The inverse of `toCloudId`. -/
def keyOfCloudId (id : String) : Option ObjectKey :=
  match Text.splitOnce cloudIdSeparator id with
  | none => none
  | some (drive, item) => do
    let drive ← (Id.parse drive).toOption
    let item ← (Id.parse item).toOption
    pure ⟨drive, item⟩

theorem splitOnce_toCloudId (key : ObjectKey) :
    Text.splitOnce cloudIdSeparator key.toCloudId = some (key.drive.raw, key.item.raw) :=
  Text.splitOnce_join key.drive.not_mem_separator

@[simp] theorem keyOfCloudId_toCloudId (key : ObjectKey) :
    keyOfCloudId key.toCloudId = some key := by
  rw [keyOfCloudId, splitOnce_toCloudId]
  simp [Except.toOption]

@[simp] theorem CloudId.parse_toCloudId (key : ObjectKey) :
    CloudId.parse key.toCloudId = .ok key := by
  rw [CloudId.parse, splitOnce_toCloudId]
  dsimp only
  rw [if_neg key.item.not_mem_separator, Id.parse_raw, Id.parse_raw]
  rfl

/-- **A cloud id names one object.** -/
theorem ObjectKey.toCloudId_injective : Function.Injective ObjectKey.toCloudId := by
  intro a b h
  have hkey : keyOfCloudId a.toCloudId = keyOfCloudId b.toCloudId := congrArg keyOfCloudId h
  simpa using hkey

/-! ## What a cloud id is to be -/

theorem Id.size_le (i : Id) : i.raw.utf8ByteSize ≤ maxIdBytes := by
  have h := i.valid
  rw [checkId] at h
  split at h
  · cases h
  · split at h
    · cases h
    · rename_i hsize
      exact Nat.not_lt.mp hsize

theorem ObjectKey.size_toCloudId (key : ObjectKey) : key.toCloudId.utf8ByteSize
    = key.drive.raw.utf8ByteSize + 1 + key.item.raw.utf8ByteSize := by
  rw [toCloudId, String.utf8ByteSize_append, String.utf8ByteSize_append,
    String.utf8ByteSize_singleton, Nat.add_assoc]
  rfl

/-- Two ids that were cut out of a text compose to it. -/
theorem toCloudId_of_splitOnce {raw drive item : String} {d i : Id}
    (hcut : Text.splitOnce cloudIdSeparator raw = some (drive, item)) (hd : Id.parse drive = .ok d)
    (hi : Id.parse item = .ok i) : ObjectKey.toCloudId ⟨d, i⟩ = raw := by
  rw [ObjectKey.toCloudId, Id.raw_of_parse hd, Id.raw_of_parse hi]
  exact (Text.join_of_splitOnce hcut).symm

/-- What parses is what the pair composes to. -/
theorem toCloudId_of_parse {raw : String} {key : ObjectKey} (h : CloudId.parse raw = .ok key) :
    key.toCloudId = raw := by
  rw [CloudId.parse] at h
  split at h
  · cases h
  · rename_i drive item hcut
    split at h
    · cases h
    · obtain ⟨d, hd, h⟩ := Checks.bind_eq_ok_iff.mp h
      obtain ⟨i, hi, h⟩ := Checks.bind_eq_ok_iff.mp h
      obtain rfl := Except.ok.inj h
      exact toCloudId_of_splitOnce hcut hd hi

theorem toCloudId_of_keyOfCloudId {id : String} {key : ObjectKey}
    (h : keyOfCloudId id = some key) : key.toCloudId = id := by
  rw [keyOfCloudId] at h
  split at h
  · cases h
  · rename_i drive item hcut
    obtain ⟨d, hd, h⟩ := Option.bind_eq_some_iff.mp h
    obtain ⟨i, hi, h⟩ := Option.bind_eq_some_iff.mp h
    obtain rfl := Option.some.inj h
    exact toCloudId_of_splitOnce hcut (Checks.toOption_eq_some.mp hd)
      (Checks.toOption_eq_some.mp hi)

/-- The pair and its cloud id stand for one another, within the ceiling. -/
structure ObjectKey.Composes (key : ObjectKey) : Prop where
  parsed : CloudId.parse key.toCloudId = .ok key ∧ keyOfCloudId key.toCloudId = some key
  distinct : ∀ other : ObjectKey, other ≠ key → other.toCloudId ≠ key.toCloudId
  bounded : key.toCloudId.utf8ByteSize ≤ maxCloudIdBytes
  composed : ∀ raw, CloudId.parse raw = .ok key ∨ keyOfCloudId raw = some key →
    key.toCloudId = raw

/-- **A cloud id is within the ceiling** unless both halves are as long as an id may be. -/
theorem ObjectKey.composes_iff (key : ObjectKey) : key.Composes
    ↔ ¬ (key.drive.raw.utf8ByteSize = maxIdBytes ∧ key.item.raw.utf8ByteSize = maxIdBytes) := by
  have hdrive := key.drive.size_le
  have hitem := key.item.size_le
  have hbound : key.toCloudId.utf8ByteSize ≤ maxCloudIdBytes
      ↔ ¬ (key.drive.raw.utf8ByteSize = maxIdBytes
        ∧ key.item.raw.utf8ByteSize = maxIdBytes) := by
    rw [key.size_toCloudId]
    rw [maxIdBytes] at hdrive hitem ⊢
    rw [maxCloudIdBytes]
    omega
  refine ⟨fun h ↦ hbound.mp h.bounded, fun h ↦ ?_⟩
  constructor
  case parsed => exact ⟨CloudId.parse_toCloudId key, keyOfCloudId_toCloudId key⟩
  case distinct => exact fun other hother heq ↦ hother (toCloudId_injective heq)
  case bounded => exact hbound.mpr h
  case composed =>
    rintro raw (hraw | hraw)
    · exact toCloudId_of_parse hraw
    · exact toCloudId_of_keyOfCloudId hraw

theorem size_replicate (n : ℕ) : (String.ofList (List.replicate n 'A')).utf8ByteSize = n := by
  induction n with
  | zero => rfl
  | succ n ih =>
    have hfirst : String.ofList (List.replicate (n + 1) 'A')
        = String.singleton 'A' ++ String.ofList (List.replicate n 'A') := by
      rw [← String.toList_inj]
      simp [List.replicate_succ]
    rw [hfirst, String.utf8ByteSize_append, ih, Nat.add_comm]
    rfl

theorem checkId_longest : checkId (String.ofList (List.replicate maxIdBytes 'A')) = .ok () := by
  have hnonempty : String.ofList (List.replicate maxIdBytes 'A') ≠ "" := by
    rw [Ne, ← String.utf8ByteSize_eq_zero_iff, size_replicate]
    decide
  have hplain : ¬ ('\x00' ∈ (String.ofList (List.replicate maxIdBytes 'A')).toList
      ∨ cloudIdSeparator ∈ (String.ofList (List.replicate maxIdBytes 'A')).toList) := by
    rw [String.toList_ofList, List.mem_replicate, List.mem_replicate]
    decide
  rw [checkId, if_neg hnonempty, size_replicate, if_neg (Nat.lt_irrefl _), if_neg hplain]

/-- As long as an id may be. -/
def longestId : Id := ⟨String.ofList (List.replicate maxIdBytes 'A'), checkId_longest⟩

/-- Two ids at the ceiling compose to one byte over theirs. -/
theorem longest_not_composes : ¬ (⟨longestId, longestId⟩ : ObjectKey).Composes :=
  fun h ↦ absurd h.bounded (by rw [ObjectKey.size_toCloudId, longestId, size_replicate]; decide)

/-! ## Scopes -/

/-- Where a mounted drive attaches to the tree the primary scope built. -/
structure Anchor where
  placeholder : ObjectKey
  remoteRoot : ItemId
  deriving DecidableEq

structure DriveScope where
  drive : DriveId
  anchor : Option Anchor
  deriving DecidableEq

end HydrationAPI.Graph
