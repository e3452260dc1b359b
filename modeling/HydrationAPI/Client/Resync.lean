import HydrationAPI.Client.Upload

/-!
# What a resync walk finds

When something may have been missed, the daemon looks for itself: it walks the sync directory for
everything that it has not sent in its current form. That is a file whose stamp no longer matches,
or one that has content and has never been sent. A placeholder is never among them, whatever its
stamp says; where it holds bytes that nobody vouches for, it is named.
-/

namespace HydrationAPI.Client

structure Resync where
  /-- Files to queue for upload. -/
  send : List FileId
  /-- Placeholders that hold bytes. -/
  holding : List RelPath

/-- The content of a file has not been sent in its current form. -/
def Inode.worthSending (i : Inode) : Bool :=
  match i.stampState with
  | .ok .dirty => true
  | .ok .unstamped => 0 < i.stat.size && !i.id.isSome
  | .ok .clean | .error _ => false

/-- The stamp does not vouch for what the file holds. -/
def Inode.unvouched (i : Inode) : Bool :=
  match i.stampState with
  | .ok .clean => false
  | .ok .dirty | .ok .unstamped | .error _ => true

namespace Resync

/-- What is made of one path. -/
def visit (ignore : IgnoreSet) (d : Disk) (found : Resync) (p : RelPath) : Resync :=
  if ignore.ignores p then found
  else match indexable d p with
    | none => found
    | some i =>
      if i.dehydrated.isSome then
        if i.unvouched && i.holdsData then { found with holding := found.holding ++ [p] } else found
      else if i.worthSending then { found with send := found.send ++ [i.stat.file] }
      else found

/-- `dirty_files`; a directory that cannot be read breaks the walk off. -/
def dirtyFiles (ignore : IgnoreSet) (d : Disk) (unread : Option String) : Except String Resync :=
  match unread with
  | some e => .error e
  | none => .ok (d.paths.foldl (visit ignore d) ⟨[], []⟩)

/-- The file is one that a walk sends. -/
def Worth (ignore : IgnoreSet) (d : Disk) (f : FileId) : Prop :=
  ∃ p i, ignore.ignores p = false ∧ indexable d p = some i ∧ i.dehydrated.isSome = false
    ∧ i.worthSending = true ∧ i.stat.file = f

/-- The placeholder is one that a walk names. -/
def Holds (ignore : IgnoreSet) (d : Disk) (p : RelPath) : Prop :=
  ∃ i, ignore.ignores p = false ∧ indexable d p = some i ∧ i.dehydrated.isSome = true
    ∧ i.unvouched = true ∧ i.holdsData = true

variable {ignore : IgnoreSet} {d : Disk} {f : FileId} {p : RelPath} {found : Resync}

theorem mem_send_visit : f ∈ (visit ignore d found p).send ↔ f ∈ found.send
    ∨ ∃ i, ignore.ignores p = false ∧ indexable d p = some i ∧ i.dehydrated.isSome = false
      ∧ i.worthSending = true ∧ i.stat.file = f := by
  rw [visit]
  cases ignore.ignores p with
  | true => simp
  | false =>
    cases hp : indexable d p with
    | none => simp
    | some i =>
      cases hmark : i.dehydrated.isSome with
      | true =>
        by_cases hholds : (i.unvouched && i.holdsData) = true
        · simp [hmark, hholds]
        · simp [hmark, hholds]
      | false =>
        cases hworth : i.worthSending with
        | true =>
          have hcomm : f = i.stat.file ↔ i.stat.file = f := eq_comm
          simp [hmark, hworth, hcomm]
        | false => simp [hmark, hworth]

theorem mem_holding_visit {q : RelPath} : q ∈ (visit ignore d found p).holding
    ↔ q ∈ found.holding ∨ q = p ∧ Holds ignore d p := by
  rw [visit, Holds]
  cases ignore.ignores p with
  | true => simp
  | false =>
    cases hp : indexable d p with
    | none => simp
    | some i =>
      cases hmark : i.dehydrated.isSome with
      | true =>
        by_cases hholds : (i.unvouched && i.holdsData) = true
        · have hboth := hholds
          rw [Bool.and_eq_true] at hboth
          simp [hmark, hboth]
        · have hboth := hholds
          rw [Bool.and_eq_true] at hboth
          simp [hmark, hholds, hboth]
      | false =>
        cases hworth : i.worthSending with
        | true => simp [hmark, hworth]
        | false => simp [hmark, hworth]

theorem mem_foldl_visit (ps : List RelPath) (found : Resync) :
    (f ∈ (ps.foldl (visit ignore d) found).send ↔ f ∈ found.send
      ∨ ∃ p ∈ ps, ∃ i, ignore.ignores p = false ∧ indexable d p = some i
        ∧ i.dehydrated.isSome = false ∧ i.worthSending = true ∧ i.stat.file = f)
    ∧ ∀ q, q ∈ (ps.foldl (visit ignore d) found).holding ↔ q ∈ found.holding
      ∨ q ∈ ps ∧ Holds ignore d q := by
  induction ps generalizing found with
  | nil => simp
  | cons p ps ih =>
    obtain ⟨hsend, hholding⟩ := ih (visit ignore d found p)
    refine ⟨?_, fun q ↦ ?_⟩
    · rw [List.foldl_cons, hsend, mem_send_visit]
      simp only [List.mem_cons, exists_eq_or_imp, or_assoc]
    · rw [List.foldl_cons, hholding, mem_holding_visit, or_assoc, List.mem_cons, or_and_right]
      refine or_congr_right (or_congr_left ?_)
      constructor
      · rintro ⟨rfl, h⟩
        exact ⟨rfl, h⟩
      · rintro ⟨rfl, h⟩
        exact ⟨rfl, h⟩

theorem mem_paths_of_indexable {i : Inode} (h : indexable d p = some i) : p ∈ d.paths := by
  obtain ⟨hfile, -⟩ := Store.indexable_eq_some.mp h
  exact PathMap.mem_paths.mpr ⟨i, ((d.fileAt_eq_some).mp hfile).1⟩

/-- **What a walk finds**: the files that are worth sending, none of them a placeholder, and the
placeholders that hold bytes nobody vouches for. -/
theorem dirtyFiles_spec (ignore : IgnoreSet) (d : Disk) {found : Resync}
    (h : dirtyFiles ignore d none = .ok found) :
    (∀ f, f ∈ found.send ↔ Worth ignore d f) ∧ ∀ p, p ∈ found.holding ↔ Holds ignore d p := by
  cases h
  refine ⟨fun f ↦ ?_, fun p ↦ ?_⟩
  · rw [(mem_foldl_visit d.paths _).1, Worth]
    constructor
    · rintro (h | ⟨p, -, i, hi⟩)
      · exact absurd h List.not_mem_nil
      · exact ⟨p, i, hi⟩
    · rintro ⟨p, i, hi⟩
      exact Or.inr ⟨p, mem_paths_of_indexable hi.2.1, i, hi⟩
  · rw [(mem_foldl_visit (f := ⟨0, 0⟩) d.paths _).2]
    constructor
    · rintro (h | ⟨-, h⟩)
      · exact absurd h List.not_mem_nil
      · exact h
    · rintro ⟨i, hi⟩
      exact Or.inr ⟨mem_paths_of_indexable hi.2.1, i, hi⟩

end Resync

end HydrationAPI.Client
