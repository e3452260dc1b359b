import HydrationAPI.Client.SyncDir
import HydrationAPI.Lib.Dialogue
import HydrationAPI.Protocol.Errors
import Mathlib.Logic.Function.Basic

/-!
# Names and inodes

What is below the sync root as the operating system has it: names that lead to inodes, of which one
may have several names or none. A program changes it by one system call after another, each of which
can fail without having done anything; between any two of them other processes change it too.

Two names change places together with all that is below them, and a rename takes along what is below
the name. What had the name that a rename is to has lost it.
-/

namespace HydrationAPI.Client

/-- Names below the root, inodes, and the inodes that a descriptor of the program keeps. -/
structure Vfs where
  names : RelPath → Option FileId
  inodes : FileId → Inode
  held : FileId → Prop

/-- Neither path is the other, or below it. -/
def Apart (a b : RelPath) : Prop := ¬ a <+: b ∧ ¬ b <+: a

instance (a b : RelPath) : Decidable (Apart a b) := inferInstanceAs (Decidable (_ ∧ _))

/-- Where a path leads to once two names have changed places. -/
def exchanged (a b q : RelPath) : RelPath :=
  if a <+: q then b ++ q.drop a.length else if b <+: q then a ++ q.drop b.length else q

namespace Vfs

variable (w : Vfs)

def Named (i : FileId) : Prop := ∃ p, w.names p = some i

/-- There is no such inode. -/
def Fresh (i : FileId) : Prop := ¬ w.Named i ∧ ¬ w.held i

/-- What `stat` says of an inode. -/
def stat (i : FileId) : Stat := { (w.inodes i).stat with file := i }

def link (i : FileId) (p : RelPath) : Vfs :=
  { w with names := Function.update w.names p (some i) }

def unlink (p : RelPath) : Vfs := { w with names := Function.update w.names p none }

def setInode (i : FileId) (node : Inode) : Vfs :=
  { w with inodes := Function.update w.inodes i node }

/-- `RENAME_EXCHANGE`. -/
def exchange (a b : RelPath) : Vfs := { w with names := fun q ↦ w.names (exchanged a b q) }

/-- A rename of a name to a name of another inode, or of none. -/
def rename (a b : RelPath) : Vfs :=
  { w with
    names := fun q ↦
      if b <+: q then w.names (a ++ q.drop b.length) else if a <+: q then none else w.names q }

/-- A new inode that has no name, kept by a descriptor. -/
def hold (i : FileId) (node : Inode) : Vfs :=
  { w.setInode i node with held := fun j ↦ j = i ∨ w.held j }

end Vfs

/-! ## System calls -/

/-- `ENOENT`. -/
def enoent : ℕ := 2

/-- `EEXIST`. -/
def eexist : ℕ := 17

/-- The attributes that are read and written by name. -/
inductive XattrName where
  | dehydrated
  | id
  | etag
  | stamp
  deriving DecidableEq, Repr

def Inode.xattr (i : Inode) : XattrName → Attr
  | .dehydrated => i.dehydrated
  | .id => i.id
  | .etag => i.etag
  | .stamp => i.stamp

def Inode.setXattr (i : Inode) (value : String) : XattrName → Inode
  | .dehydrated => { i with dehydrated := .text value }
  | .id => { i with id := .text value }
  | .etag => { i with etag := .text value }
  | .stamp => { i with stamp := .text value }

/-- What is asked of the operating system. Paths are resolved from the root, and names that lead
elsewhere are not followed. -/
inductive Syscall where
  | mkdirat (p : RelPath)
  /-- `O_TMPFILE`. -/
  | tmpfile
  | fsetxattr (fd : FileId) (name : XattrName) (value : String)
  | ftruncate (fd : FileId) (size : ℕ)
  /-- `stamp::write_fd`. -/
  | stamp (fd : FileId)
  | fstat (fd : FileId)
  | linkat (fd : FileId) (p : RelPath)
  | exchange (a b : RelPath)
  | fstatat (p : RelPath)
  | unlinkat (p : RelPath)
  | renameat (a b : RelPath)
  | readDir (p : RelPath)
  /-- Whether a file has the dehydrated mark. -/
  | isMarked (p : RelPath)
  /-- An attribute that is not there is an answer, not a failure. -/
  | getxattr (p : RelPath) (name : XattrName)

/-- What is answered by a call that succeeds. -/
@[reducible] def Syscall.Result : Syscall → Type
  | .tmpfile => FileId
  | .fstat _ | .fstatat _ => Stat
  -- names, and whether each is one of a directory if that can be told
  | .readDir _ => List (String × Option Bool)
  | .isMarked _ => Bool
  | .getxattr _ _ => Attr
  | _ => Unit

@[reducible] def Syscall.Answer (q : Syscall) : Type := Except IoError q.Result

namespace Vfs

/-- What a call that succeeds answers, and what it does. -/
def Does : (q : Syscall) → Vfs → q.Result → Vfs → Prop
  | .mkdirat p, w, _, w' => w.names p = none ∧ ∃ i node, w.Fresh i ∧ node.isDir = true
      ∧ w' = (w.setInode i node).link i p
  | .tmpfile, w, i, w' => w.Fresh i ∧ ∃ node : Inode, node.isDir = false ∧ w' = w.hold i node
  | .fsetxattr i name value, w, _, w' => w' = w.setInode i ((w.inodes i).setXattr value name)
  | .ftruncate i size, w, _, w' => ∃ st : Stat, st.size = size
      ∧ w' = w.setInode i { w.inodes i with stat := st }
  | .stamp i, w, _, w' => w' = w.setInode i { w.inodes i with stamp := .text (w.stat i).stamp }
  | .fstat i, w, st, w' => st = w.stat i ∧ w' = w
  | .linkat i p, w, _, w' => w.names p = none ∧ w' = w.link i p
  | .exchange a b, w, _, w' => Apart a b ∧ w.names a ≠ none ∧ w.names b ≠ none
      ∧ w' = w.exchange a b
  | .fstatat p, w, st, w' => (∃ i, w.names p = some i ∧ st = w.stat i) ∧ w' = w
  | .unlinkat p, w, _, w' => ∃ i, w.names p = some i ∧ (w.inodes i).isDir = false ∧ w' = w.unlink p
  | .renameat a b, w, _, w' => Apart a b ∧ ∃ i, w.names a = some i
      ∧ (∀ j, w.names b = some j → (w.inodes j).isDir = (w.inodes i).isDir)
      ∧ w' = if w.names b = some i then w else w.rename a b
  | .readDir p, w, entries, w' => (∀ e ∈ entries, ∃ i, w.names (p ++ [e.1]) = some i
      ∧ ∀ isDir, e.2 = some isDir → (w.inodes i).isDir = isDir) ∧ w' = w
  | .isMarked p, w, marked, w' => (∃ i, w.names p = some i
      ∧ marked = (w.inodes i).dehydrated.isSome) ∧ w' = w
  | .getxattr p name, w, a, w' => (∃ i, w.names p = some i ∧ a = (w.inodes i).xattr name) ∧ w' = w

/-- A call can fail for any reason, and has then done nothing. That a name exists already is only
answered where it does. -/
def Acts (q : Syscall) (w : Vfs) (a : q.Answer) (w' : Vfs) : Prop :=
  match a with
  | .ok r => Does q w r w'
  | .error e => w' = w ∧ ∀ i p, q = .linkat i p → e.rawOsError = some eexist → w.names p ≠ none

end Vfs

/-! ## Other processes -/

/-- What another process does to names that it `reaches`, and to what is in files. -/
inductive Foreign (reaches : RelPath → Prop) (w : Vfs) : Vfs → Prop
  | created (i : FileId) (node : Inode) (p : RelPath) : reaches p → w.names p = none → w.Fresh i →
      Foreign reaches w ((w.setInode i node).link i p)
  | unlinked (p : RelPath) : reaches p → Foreign reaches w (w.unlink p)
  | linked (a p : RelPath) (i : FileId) : reaches p → w.names a = some i → w.names p = none →
      Foreign reaches w (w.link i p)
  | renamed (a b : RelPath) : reaches a → reaches b → Apart a b → Foreign reaches w (w.rename a b)
  | written (i : FileId) (node : Inode) : node.isDir = (w.inodes i).isDir →
      Foreign reaches w (w.setInode i node)

/-! ## Which names an inode has -/

namespace Vfs

variable {w w' : Vfs} {a b p q : RelPath} {i j : FileId} {node : Inode}

theorem exchanged_append_left (r : List String) : exchanged a b (a ++ r) = b ++ r := by
  rw [exchanged, if_pos (List.prefix_append a r), List.drop_left]

theorem exchanged_append_right (h : Apart a b) (r : List String) :
    exchanged a b (b ++ r) = a ++ r := by
  have hnot : ¬ a <+: b ++ r := fun hprefix ↦
    (List.prefix_or_prefix_of_prefix hprefix (List.prefix_append b r)).elim h.1 h.2
  rw [exchanged, if_neg hnot, if_pos (List.prefix_append b r), List.drop_left]

theorem exchanged_of_apart (ha : ¬ a <+: q) (hb : ¬ b <+: q) : exchanged a b q = q := by
  rw [exchanged, if_neg ha, if_neg hb]

/-- Two names that change places twice are where they were. -/
theorem exchanged_exchanged (h : Apart a b) : exchanged a b (exchanged a b q) = q := by
  by_cases ha : a <+: q
  · obtain ⟨r, rfl⟩ := ha
    rw [exchanged_append_left, exchanged_append_right h]
  · by_cases hb : b <+: q
    · obtain ⟨r, rfl⟩ := hb
      rw [exchanged_append_right h, exchanged_append_left]
    · rw [exchanged_of_apart ha hb, exchanged_of_apart ha hb]

theorem names_exchange_left : (w.exchange a b).names a = w.names b := by
  have hself : exchanged a b (a ++ []) = b ++ [] := exchanged_append_left []
  rw [List.append_nil, List.append_nil] at hself
  exact congrArg w.names hself

/-- An exchange takes no name from any inode. -/
theorem Named.exchange (h : w.Named i) (hapart : Apart a b) : (w.exchange a b).Named i := by
  obtain ⟨q, hq⟩ := h
  refine ⟨exchanged a b q, ?_⟩
  change w.names (exchanged a b (exchanged a b q)) = some i
  rw [exchanged_exchanged hapart]
  exact hq

theorem Named.link (h : w.Named i) (hp : w.names p = none) : (w.link j p).Named i := by
  obtain ⟨q, hq⟩ := h
  have hne : q ≠ p := fun heq ↦ Option.some_ne_none i (hq.symm.trans (heq ▸ hp))
  exact ⟨q, (Function.update_of_ne hne _ _).trans hq⟩

/-- What is unlinked takes a name from one inode only. -/
theorem Named.unlink (h : w.Named i) (hp : w.names p = some j) (hne : i ≠ j) :
    (w.unlink p).Named i := by
  obtain ⟨q, hq⟩ := h
  have hqp : q ≠ p := fun heq ↦ hne (Option.some_inj.mp (hq.symm.trans (heq ▸ hp)))
  exact ⟨q, (Function.update_of_ne hqp _ _).trans hq⟩

end Vfs

variable {reaches : RelPath → Prop} {w w' : Vfs} {s : RelPath}

/-- What others do leaves a name alone that is apart from all they reach. -/
theorem Foreign.names_eq (h : Foreign reaches w w') (hs : ∀ p, reaches p → Apart p s) :
    w'.names s = w.names s := by
  have hne : ∀ p, reaches p → s ≠ p := by
    rintro p hp rfl
    exact (hs s hp).1 List.prefix_rfl
  match h with
  | .created _ _ p hp _ _ => exact Function.update_of_ne (hne p hp) _ _
  | .unlinked p hp => exact Function.update_of_ne (hne p hp) _ _
  | .linked _ p _ hp _ _ => exact Function.update_of_ne (hne p hp) _ _
  | .renamed a b ha hb _ =>
    change (if b <+: s then _ else if a <+: s then _ else _) = _
    rw [if_neg (hs b hb).1, if_neg (hs a ha).1]
  | .written _ _ _ => rfl

theorem Foreign.held_eq (h : Foreign reaches w w') : w'.held = w.held := by
  match h with
  | .created .. | .unlinked .. | .linked .. | .renamed .. | .written .. => rfl

end HydrationAPI.Client
