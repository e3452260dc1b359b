import HydrationAPI.Helper.Partial
import HydrationAPI.Lib.PathMap
import HydrationAPI.Protocol.Names

/-!
# The sync directory

What is at every path below the sync root: files and directories, each with its inode and what its
extended attributes say. A path that a service names is untrusted, and only one that stays below
the root and claims none of the framework's own names is joined to it.

Nothing here follows a symbolic link, and nothing reads content; whether a file holds any is a field
of its own.
-/

namespace HydrationAPI.Client

/-- The components of a path below the sync root, which has none. -/
abbrev RelPath := List String

instance : LawfulBEq RelPath := inferInstance

/-- What reading an extended attribute gives. -/
inductive Attr where
  | absent
  | text (value : String)
  /-- A value that is not UTF-8. -/
  | binary (value : List UInt8)
  | unreadable (error : String)
  deriving DecidableEq, Repr

namespace Attr

/-- `get_xattr_string`. -/
def string : Attr → Option String
  | text value => some value
  | _ => none

/-- Whether a value could be read. -/
def isSome : Attr → Bool
  | text _ | binary _ => true
  | absent | unreadable _ => false

/-- Whether a value could be read that is not empty. -/
def isFilled : Attr → Bool
  | text value => value ≠ ""
  | binary value => value ≠ []
  | absent | unreadable _ => false

theorem string_eq_some {a : Attr} {s : String} : a.string = some s ↔ a = text s := by
  cases a <;> simp [string]

end Attr

/-- `std::fs::Metadata`, as far as it is read. -/
structure Stat where
  file : FileId
  size : ℕ
  mtime : ℤ
  mtimeNsec : ℤ
  deriving DecidableEq, Repr

/-- A file or a directory, with what is recorded on it. -/
structure Inode where
  stat : Stat
  isDir : Bool
  id : Attr
  etag : Attr
  stamp : Attr
  dehydrated : Attr
  holdsData : Bool
  deriving DecidableEq, Repr

/-! ## The stamp -/

/-- `stamp::of`. -/
def Stat.stamp (st : Stat) : String := s!"{st.mtime}.{st.mtimeNsec}:{st.size}"

/-- Whether the file still looks the way the framework left it. -/
inductive StampState where
  /-- Matches what was last written. -/
  | clean
  /-- Written by someone else since. -/
  | dirty
  /-- The framework has never made this file clean. -/
  | unstamped
  deriving DecidableEq, Repr

/-- `stamp::get`, into a buffer of 96 bytes. -/
def Attr.recorded : Attr → Except String (Option String)
  | .text value => .ok (if value.utf8ByteSize ≤ 96 then some value else none)
  | .absent | .binary _ => .ok none
  | .unreadable error => .error error

/-- `stamp::state`. -/
def Inode.stampState (i : Inode) : Except String StampState :=
  match i.stamp.recorded with
  | .error e => .error e
  | .ok none => .ok .unstamped
  | .ok (some recorded) => .ok (if recorded = i.stat.stamp then .clean else .dirty)

/-! ## Paths that a service names -/

/-- `Path::components` of a relative path, as far as all are names. -/
def components (raw : String) : Option RelPath :=
  match Text.split '/' raw with
  | "." :: _ => none
  | pieces =>
    let names := pieces.filter fun c ↦ c ≠ "" ∧ c ≠ "."
    if ".." ∈ names then none else some names

/-- Join a cloud-supplied relative path onto the root, refusing anything that would leave it. -/
def safeJoin (rel : String) : Option RelPath :=
  if rel = "" then none
  else if rel.toList.head? = some '/' then none
  else match components rel with
    | none => none
    | some names => if names.any Names.isInternal then none else some names

/-- The root has the empty path. -/
def folderPath (rel : String) : Option RelPath := if rel = "" then some [] else safeJoin rel

/-- A path below the root as text. -/
def RelPath.display (p : RelPath) : String := "/".intercalate p

/-- A path is read back from its text, unless a name has a separator in it. -/
theorem RelPath.split_display {p : RelPath} (hp : p ≠ []) (h : ∀ c ∈ p, '/' ∉ c.toList) :
    Text.split '/' p.display = p :=
  Text.split_intercalate hp h

/-- The names in it are names that directories have. -/
def RelPath.Named (p : RelPath) : Prop := ∀ n ∈ p, n ≠ "" ∧ '/' ∉ n.toList

namespace RelPath

variable {p q : RelPath}

theorem Named.split (hp : p.Named) (hne : p ≠ []) : Text.split '/' p.display = p :=
  split_display hne fun n hn ↦ (hp n hn).2

theorem Named.display_ne (hp : p.Named) (hne : p ≠ []) : p.display ≠ "" := by
  intro hempty
  have hsplit := hp.split hne
  rw [hempty, Text.split_of_not_mem (by simp)] at hsplit
  exact (hp "" (hsplit ▸ List.mem_singleton_self "")).1 rfl

theorem Named.display_inj (hp : p.Named) (hq : q.Named) (h : p.display = q.display) : p = q := by
  by_cases hpnil : p = []
  · by_contra hne
    subst hpnil
    exact hq.display_ne (Ne.symm hne) h.symm
  · have hqnil : q ≠ [] := by
      rintro rfl
      exact hp.display_ne hpnil h
    rw [← hp.split hpnil, h, hq.split hqnil]

theorem display_append (hp : p ≠ []) (hq : q ≠ []) :
    (p ++ q).display = p.display ++ ("/" ++ q.display) := by
  rw [display, String.intercalate_append_of_ne_nil hp hq, String.append_assoc]
  rfl

/-- The characters of a path are those of its names, and separators. -/
theorem mem_display {c : Char} (h : c ∈ p.display.toList) :
    c = '/' ∨ ∃ n ∈ p, c ∈ n.toList := by
  induction p with
  | nil => simp [display] at h
  | cons n p ih =>
    by_cases hp : p = []
    · subst hp
      rw [display, String.intercalate_singleton] at h
      exact Or.inr ⟨n, List.mem_cons_self, h⟩
    · rw [display, String.intercalate_cons_of_ne_nil hp, String.append_assoc, String.toList_append,
        String.toList_append, List.mem_append, List.mem_append] at h
      rcases h with h | h | h
      · exact Or.inr ⟨n, List.mem_cons_self, h⟩
      · exact Or.inl (List.mem_singleton.mp h)
      · exact (ih h).imp_right fun ⟨m, hm, h⟩ ↦ ⟨m, List.mem_cons_of_mem n hm, h⟩

/-- The path does not begin with a separator. -/
theorem Named.head_display (hp : p.Named) (hne : p ≠ []) : p.display.toList.head? ≠ some '/' := by
  intro hhead
  obtain ⟨cs, hcs⟩ := List.head?_eq_some_iff.mp hhead
  have hsplit := Text.split_append '/' "" (String.ofList cs)
  have hempty : Text.split '/' "" = [""] := Text.split_of_not_mem (by simp)
  have heq : p.display = "" ++ (String.singleton '/' ++ String.ofList cs) := by
    rw [← String.toList_inj, hcs]
    simp
  rw [← heq, hp.split hne, hempty] at hsplit
  exact (hp "" (hsplit ▸ List.mem_cons_self)).1 rfl

/-- **A path that a directory has is read back from its text**, unless a name in it is one of the
framework's own. -/
theorem Named.safeJoin_display (hp : p.Named) (hne : p ≠ []) (hdots : ∀ n ∈ p, n ≠ "." ∧ n ≠ "..") :
    safeJoin p.display = if p.any Names.isInternal then none else some p := by
  have hcomponents : components p.display = some p := by
    rw [components, hp.split hne]
    have hfilter : (p.filter fun c ↦ c ≠ "" ∧ c ≠ ".") = p :=
      List.filter_eq_self.mpr fun n hn ↦ by simp [(hp n hn).1, (hdots n hn).1]
    have hup : ".." ∉ p := fun hmem ↦ (hdots ".." hmem).2 rfl
    split
    · exact absurd rfl (hdots "." List.mem_cons_self).1
    · rw [hfilter]
      exact if_neg hup
  rw [safeJoin, if_neg (hp.display_ne hne), if_neg (hp.head_display hne), hcomponents]

end RelPath

/-! ## What is never synced -/

/-- A loaded rule set. -/
structure IgnoreSet where
  /-- Matched against any single path component, at any depth. -/
  component : List String
  /-- Matched anchored at the root. -/
  anchored : List String

/-- `is_ignored`, of a path as it is written. -/
def IgnoreSet.isIgnored (set : IgnoreSet) (rel : String) : Bool :=
  (Text.split '/' rel).any (fun c ↦ c ≠ "" ∧ c ≠ "." ∧ c ≠ ".." ∧ c ∈ set.component)
    || set.anchored.any fun p ↦ rel = p ∨ (Text.stripPrefix (p ++ "/") rel).isSome

/-- `path_is_ignored`, of a path below the root. -/
def IgnoreSet.ignores (set : IgnoreSet) (p : RelPath) : Bool := set.isIgnored p.display

/-- What is below an ignored path is ignored. -/
theorem IgnoreSet.ignores_append {set : IgnoreSet} {p q : RelPath} (hp : p ≠ [])
    (h : set.ignores p = true) : set.ignores (p ++ q) = true := by
  by_cases hq : q = []
  · rwa [hq, List.append_nil]
  rw [ignores, isIgnored, Bool.or_eq_true, List.any_eq_true, List.any_eq_true] at h ⊢
  rw [RelPath.display_append hp hq]
  rcases h with ⟨c, hc, hrule⟩ | ⟨rule, hrule, hunder⟩
  · refine Or.inl ⟨c, ?_, hrule⟩
    rw [show "/" = String.singleton '/' from rfl, Text.split_append]
    exact List.mem_append_left _ hc
  · refine Or.inr ⟨rule, hrule, decide_eq_true (Or.inr ?_)⟩
    -- the rule and the separator after it are at the beginning of the longer path too
    rw [Text.isSome_stripPrefix]
    have hlist : (p.display ++ ("/" ++ q.display)).toList
        = (p.display ++ "/").toList ++ q.display.toList := by simp
    rw [hlist]
    rcases of_decide_eq_true hunder with rfl | hunder
    · exact List.prefix_append _ _
    · rw [Text.isSome_stripPrefix] at hunder
      refine hunder.trans ?_
      rw [String.toList_append, List.append_assoc]
      exact List.prefix_append _ _

/-! ## The directory -/

/-- What is at every path below the root. -/
abbrev Disk := PathMap String Inode

namespace Disk

variable (d : Disk)

/-- `Path::exists`. -/
def exists' (p : RelPath) : Bool := (d.get p).isSome

def isDirAt (p : RelPath) : Bool := (d.get p).any Inode.isDir

/-- The regular file at a path. -/
def fileAt (p : RelPath) : Option Inode := (d.get p).filter fun i ↦ ¬ i.isDir

theorem fileAt_eq_some {p : RelPath} {i : Inode} :
    d.fileAt p = some i ↔ d.get p = some i ∧ i.isDir = false := by
  rw [fileAt, Option.filter_eq_some_iff]
  simp

end Disk

end HydrationAPI.Client
