import HydrationAPI.Client.Delta
import HydrationAPI.Client.ScratchKept

/-!
# An upsert among atomic saves

A delta pass looks at the path of an object before it creates, replaces or moves a file there: what
is not sent stays. Each look is a system call of its own, and so is the act, which takes the place
of whatever is at the path by then. An application that saves by renaming over the path can come
between any two of them.

What a look has seen is kept beside the world, so that it can be held against what the act
displaces.
-/

namespace HydrationAPI.Client

open Dialogue Errand

/-- What became of one upsert. -/
inductive Fate where
  | failed (why : Delta.Failure) (retryable : Bool)
  | kept (why : Delta.Why)
  | current
  | created
  | updated
  deriving DecidableEq, Repr

namespace Placer

/-- `Path::exists`. -/
def existsAt (p : RelPath) : Placer Bool := do
  let r ← attempt (sys (.fstatat p))
  pure r.isOk

/-- `is_current`. -/
def isCurrentAt (p : RelPath) (cloudId : String) (etag : Option String) (size : ℕ) :
    Placer Bool := do
  let localId ← attempt (sys (.getxattr p .id))
  if localId ≠ .ok (.text cloudId) then pure false
  else
    let localEtag ← attempt (sys (.getxattr p .etag))
    match ← attempt (sys (.fstatat p)) with
    | .error _ => pure false
    | .ok md =>
      if md.size ≠ size then pure false
      else match etag with
        | some remote => pure (decide (localEtag = .ok (.text remote)))
        | none => pure true

/-- `stamp::state`. -/
def stampStateAt (p : RelPath) : Placer StampState := do
  let value ← sys (.getxattr p .stamp)
  match value.recorded with
  | .error e => throw ⟨.other, none, e⟩
  | .ok none => pure .unstamped
  | .ok (some recorded) =>
    let md ← sys (.fstatat p)
    pure (if recorded = md.stamp then .clean else .dirty)

/-- Put a placeholder, in the place of what is there if anything is. -/
def placeOver (rel : RelPath) (size : ℕ) (cloudId : String) (etag : Option String) (done : Fate) :
    Placer Fate := do
  match ← attempt (place rel size cloudId etag) with
  | .ok _ => pure done
  | .error e => pure (.failed (.place e.text) false)

/-- What is at the path stays unless it may be replaced. -/
def refresh (waiting : List FileId) (rel : RelPath) (size : ℕ) (cloudId : String)
    (etag : Option String) : Placer Fate := do
  match ← attempt (sys (.fstatat rel)) with
  | .error _ => placeOver rel size cloudId etag .created
  | .ok md =>
    if ← isCurrentAt rel cloudId etag size then pure .current
    else if md.file ∈ waiting then pure (.kept .editWaiting)
    else
      let known ← attempt (sys (.getxattr rel .id))
      if ¬ known.toOption.any Attr.isFilled ∧ md.size > 0 then pure (.kept .neverUploaded)
      else
        match ← attempt (stampStateAt rel) with
        | .ok .dirty => pure (.kept .changedUnderneath)
        | _ => placeOver rel size cloudId etag .updated

/-- One upsert; `existing` is where the index has the object. -/
def upsert (existing : Option RelPath) (waiting : List FileId) (rel : RelPath) (size : ℕ)
    (cloudId : String) (etag : Option String) : Placer Fate := do
  match existing with
  | none => refresh waiting rel size cloudId etag
  | some old =>
    if old = rel then refresh waiting rel size cloudId etag
    else if ← existsAt old then
      if ← existsAt rel then pure (.failed .destinationOccupied true)
      else
        let _ ← attempt (makeParents rel)
        match ← attempt (sys (.renameat old rel)) with
        | .error e => pure (.failed (.rename e.text) true)
        | .ok _ =>
          let _ ← sys (.fstatat rel)
          refresh waiting rel size cloudId etag
    else refresh waiting rel size cloudId etag

end Placer

/-! ## What a pass sees and what it displaces -/

/-- Below a name are names only if it leads to a directory. -/
def Vfs.IsTree (w : Vfs) : Prop :=
  ∀ p q, p <+: q → p ≠ q → p ≠ [] → w.names q ≠ none →
    ∃ i, w.names p = some i ∧ (w.inodes i).isDir = true

/-- What is at a path. -/
def Vfs.occupant (w : Vfs) (p : RelPath) : Option (FileId × Inode) :=
  (w.names p).map fun i ↦ (i, w.inodes i)

/-- What the guards of a pass recognise as not sent: an edit is waiting, or there is content and no
id, or the file is not as it was stamped. -/
def Unsent (waiting : List FileId) (i : FileId) (node : Inode) : Prop :=
  i ∈ waiting ∨ node.stat.size > 0 ∧ node.id.isFilled = false ∨ node.stampState = .ok .dirty

/-- Names and inodes, what each look at the path has seen since the pass moved a file there, and
whether a call of the pass has taken an unsent file's last name or changed the file. -/
structure Guarded where
  fs : Vfs
  looks : List (Option (FileId × Inode))
  harmed : Prop

/-- What was seen once a call is answered. -/
def looksAfter (rel : RelPath) : (q : Syscall) → q.Answer → Guarded →
    List (Option (FileId × Inode))
  | .fstatat p, .ok _, w | .getxattr p _, .ok _, w =>
    if p = rel then w.looks ++ [w.fs.occupant rel] else w.looks
  | .fstatat p, .error _, w | .getxattr p _, .error _, w =>
    if p = rel then w.looks ++ [none] else w.looks
  | .renameat _ b, .ok _, w => if b = rel then [] else w.looks
  | _, _, w => w.looks

/-- An unsent file that is not the program's own loses its last name, or is changed. -/
def Harms (waiting : List FileId) (w w' : Vfs) : Prop :=
  ∃ i, ¬ w.held i ∧ w.Named i ∧ Unsent waiting i (w.inodes i)
    ∧ (¬ w'.Named i ∨ w'.inodes i ≠ w.inodes i)

/-- What others do: files are created, renamed, linked and unlinked, none is written in place. -/
def Saves (rel : RelPath) (w w' : Vfs) : Prop :=
  Foreign (Reaches rel) w w' ∧ ∀ i, ¬ w.Fresh i → w'.inodes i = w.inodes i

/-- A pass among applications that save. -/
def savesEnv (rel : RelPath) (waiting : List FileId) : Env Syscall Syscall.Answer Guarded :=
  ⟨fun q w a w' ↦ Vfs.Acts q w.fs a w'.fs ∧ w'.fs.IsTree ∧ w'.looks = looksAfter rel q a w
      ∧ (w'.harmed ↔ w.harmed ∨ Harms waiting w.fs w'.fs),
    fun w w' ↦ Saves rel w.fs w'.fs ∧ w'.fs.IsTree ∧ w'.looks = w.looks ∧ (w'.harmed ↔ w.harmed)⟩

/-- What is displaced at the path is what each look at it has seen. -/
def Timely (rel : RelPath) : (q : Syscall) → Guarded → q.Answer → Guarded → Prop
  | .renameat _ b, w, .ok _, _ => b = rel → ∀ l ∈ w.looks, l = w.fs.occupant rel
  | _, _, _, _ => True

/-- Nothing has been looked at, and no descriptor is open. -/
def Guarded.start (fs : Vfs) : Guarded := ⟨{ fs with held := fun _ ↦ False }, [], False⟩

/-! ## What a system call can harm -/

variable {q : Syscall} {a : q.Answer} {waiting : List FileId} {rel s : RelPath} {i j fd : FileId}

/-- A call that takes no name, and changes only what the program has open. -/
def Vfs.Owns (w : Vfs) : Syscall → Prop
  | .fsetxattr fd _ _ | .ftruncate fd _ | .stamp fd | .linkat fd _ => w.held fd
  | .exchange _ _ | .unlinkat _ | .renameat _ _ => False
  | _ => True

section

variable {w w' : Vfs}

theorem Vfs.Owns.harmless (hq : w.Owns q) : Vfs.Harmless q := by
  match q with
  | .unlinkat _ | .renameat _ _ => exact hq
  | .exchange _ _ => trivial
  | .mkdirat _ | .tmpfile | .fsetxattr _ _ _ | .ftruncate _ _ | .stamp _ | .fstat _ | .linkat _ _
  | .fstatat _ | .readDir _ | .isMarked _ | .getxattr _ _ => trivial

theorem Vfs.Owns.inodes_eq (hq : w.Owns q) (h : Vfs.Acts q w a w') (hi : ¬ w.held i)
    (hnamed : w.Named i) : w'.inodes i = w.inodes i := by
  refine h.inodes_eq (fun hfresh ↦ hfresh.1 hnamed) ?_
  match q, a with
  | .fsetxattr _ _ _, .ok _ | .ftruncate _ _, .ok _ | .stamp _, .ok _ =>
    rintro rfl
    exact hi hq
  | .unlinkat _, _ | .renameat _ _, _ | .exchange _ _, _ => exact hq.elim
  | .fsetxattr _ _ _, .error _ | .ftruncate _ _, .error _ | .stamp _, .error _ | .mkdirat _, _
  | .tmpfile, _ | .fstat _, _ | .linkat _ _, _ | .fstatat _, _ | .readDir _, _ | .isMarked _, _
  | .getxattr _ _, _ => exact id

theorem Vfs.Owns.not_harms (hq : w.Owns q) (h : Vfs.Acts q w a w') : ¬ Harms waiting w w' := by
  rintro ⟨i, hi, hnamed, -, hgone | hchanged⟩
  · exact hgone (h.named hq.harmless hnamed)
  · exact hchanged (hq.inodes_eq h hi hnamed)

/-- A rename that displaces no file but another keeps a name for each. -/
theorem Vfs.Named.rename {p b : RelPath} (h : w.Named i) (htree : w.IsTree)
    (hb : ∀ j, w.names b = some j → j ≠ i ∧ (w.inodes j).isDir = false) (hne : b ≠ []) :
    (w.rename p b).Named i := by
  obtain ⟨q, hq⟩ := h
  have hout : ¬ b <+: q := by
    intro hprefix
    by_cases heq : b = q
    · exact (hb i (heq ▸ hq)).1 rfl
    · obtain ⟨j, hj, hdir⟩ := htree b q hprefix heq hne (fun h ↦ by rw [h] at hq; cases hq)
      exact Bool.false_ne_true ((hb j hj).2.symm.trans hdir)
  by_cases hp : p <+: q
  · obtain ⟨r, rfl⟩ := hp
    refine ⟨b ++ r, ?_⟩
    change (if b <+: b ++ r then w.names (p ++ (b ++ r).drop b.length) else _) = some i
    rw [if_pos (List.prefix_append b r), List.drop_left]
    exact hq
  · refine ⟨q, ?_⟩
    change (if b <+: q then _ else if p <+: q then _ else _) = some i
    rw [if_neg hout, if_neg hp]
    exact hq

end

theorem Vfs.Acts.isDir_eq {w w' : Vfs} (h : Vfs.Acts q w a w') (hold : ¬ w.Fresh i) :
    (w'.inodes i).isDir = (w.inodes i).isDir := by
  have hset : ∀ fd node, node.isDir = (w.inodes fd).isDir →
      ((w.setInode fd node).inodes i).isDir = (w.inodes i).isDir := by
    intro fd node hnode
    simp only [Vfs.setInode, Function.update_apply]
    split
    · rename_i hi
      exact hi ▸ hnode
    · rfl
  match a with
  | .error e => rw [h.1]
  | .ok r =>
    match q with
    | .fsetxattr fd name value =>
      obtain rfl : w' = _ := h
      exact hset fd _ (by cases name <;> rfl)
    | .ftruncate fd _ =>
      obtain ⟨st, -, rfl⟩ := h
      exact hset fd _ rfl
    | .stamp fd =>
      obtain rfl : w' = _ := h
      exact hset fd _ rfl
    | .unlinkat _ =>
      obtain ⟨j, -, -, rfl⟩ := h
      rfl
    | .renameat _ _ =>
      obtain ⟨-, j, -, -, rfl⟩ := h
      split <;> rfl
    | .mkdirat .. | .tmpfile | .fstat .. | .linkat .. | .exchange .. | .fstatat .. | .readDir ..
    | .isMarked .. | .getxattr .. => rw [h.inodes_eq hold id]

/-! ## What a pass keeps -/

/-- The pass has harmed nothing, the names are a tree, and no unsent file has the scratch name. -/
structure Steady (waiting : List FileId) (s : RelPath) (w : Guarded) : Prop where
  unharmed : ¬ w.harmed
  tree : w.fs.IsTree
  scratch : ∀ i, w.fs.names s = some i → ¬ w.fs.held i → ¬ Unsent waiting i (w.fs.inodes i)

/-- The environment of a run in which everything is displaced in time. -/
abbrev timelyEnv (rel : RelPath) (waiting : List FileId) : Env Syscall Syscall.Answer Guarded :=
  (savesEnv rel waiting).under (Timely rel)

variable {w w' : Guarded} {n : ℕ}

theorem stable_steady : Stable (timelyEnv rel waiting) (Steady waiting (scratchName rel n)) := by
  rintro w w' ⟨⟨hforeign, hdata⟩, htree, -, hharmed⟩ h
  refine ⟨fun hw ↦ h.unharmed (hharmed.mp hw), htree, fun i hi hheld ↦ ?_⟩
  rw [hforeign.names_eq fun p hp ↦ hp n] at hi
  rw [hdata i fun hfresh ↦ hfresh.1 ⟨_, hi⟩]
  exact h.scratch i hi (hforeign.held_eq ▸ hheld)

theorem Vfs.Owns.names_of {w w' : Vfs} (hq : w.Owns q) (h : Vfs.Acts q w a w')
    (hmk : q ≠ .mkdirat s) (hs : w'.names s = some i) (hi : ¬ w'.held i) : w.names s = some i := by
  match a with
  | .error e => exact h.1 ▸ hs
  | .ok r =>
    match q with
    | .mkdirat p =>
      obtain ⟨-, j, node, -, -, rfl⟩ := h
      have hne : s ≠ p := fun heq ↦ hmk (heq ▸ rfl)
      exact (Function.update_of_ne hne _ _).symm.trans hs
    | .linkat k p =>
      obtain ⟨-, rfl⟩ := h
      have hne : s ≠ p := by
        rintro rfl
        rw [Vfs.names_link] at hs
        exact hi (Option.some_inj.mp hs ▸ hq)
      exact (Function.update_of_ne hne _ _).symm.trans hs
    | .tmpfile | .fsetxattr .. | .ftruncate .. | .stamp .. | .fstat .. | .fstatat .. | .readDir ..
    | .isMarked .. | .getxattr .. => exact (h.names_eq trivial) ▸ hs
    | .exchange .. | .unlinkat .. | .renameat .. => exact hq.elim

theorem Steady.owns (h : Steady waiting s w) (ha : (timelyEnv rel waiting).answers q w a w')
    (hq : w.fs.Owns q) (hmk : q ≠ .mkdirat s) : Steady waiting s w' := by
  obtain ⟨⟨hacts, htree, -, hharmed⟩, -⟩ := ha
  refine ⟨fun hw ↦ (hharmed.mp hw).elim h.unharmed (hq.not_harms hacts), htree, fun i hi hheld ↦ ?_⟩
  have hs := hq.names_of hacts hmk hi hheld
  have hheld' : ¬ w.fs.held i := fun h ↦ hheld (hacts.held h)
  rw [hq.inodes_eq hacts hheld' ⟨s, hs⟩]
  exact h.scratch i hs hheld'

theorem Steady.refused {e : IoError} (h : Steady waiting s w)
    (ha : (timelyEnv rel waiting).answers q w (.error e) w') : Steady waiting s w' := by
  obtain ⟨⟨⟨hsame, -⟩, htree, -, hharmed⟩, -⟩ := ha
  refine ⟨fun hw ↦ (hharmed.mp hw).elim h.unharmed ?_, htree, ?_⟩
  · rw [hsame]
    exact fun ⟨i, _, hnamed, _, hlost⟩ ↦ hlost.elim (· hnamed) (· rfl)
  · rw [hsame]
    exact h.scratch

/-- A property of the looks that more looks do not change. -/
def Lasts (Q : List (Option (FileId × Inode)) → Prop) : Prop := ∀ l m, Q l → Q (l ++ m)

/-- What the looks tell. -/
structure Knows (waiting : List FileId) (s : RelPath) (Q : List (Option (FileId × Inode)) → Prop)
    (w : Guarded) : Prop where
  steady : Steady waiting s w
  looks : Q w.looks

variable {Q : List (Option (FileId × Inode)) → Prop}

theorem stable_knows :
    Stable (timelyEnv rel waiting) (Knows waiting (scratchName rel n) Q) :=
  fun w w' hothers h ↦ ⟨stable_steady w w' hothers h.steady, hothers.2.2.1 ▸ h.looks⟩

theorem looksAfter_append (hq : w.fs.Owns q) : ∃ m, looksAfter rel q a w = w.looks ++ m := by
  match q, a with
  | .fstatat p, .ok _ | .getxattr p _, .ok _ | .fstatat p, .error _ | .getxattr p _, .error _ =>
    rw [looksAfter]
    split
    · exact ⟨_, rfl⟩
    · exact ⟨[], (List.append_nil _).symm⟩
  | .renameat _ _, _ | .exchange _ _, _ | .unlinkat _, _ => exact hq.elim
  | .fsetxattr _ _ _, _ | .ftruncate _ _, _ | .stamp _, _ | .mkdirat _, _ | .tmpfile, _
  | .fstat _, _ | .linkat _ _, _ | .readDir _, _ | .isMarked _, _ =>
    exact ⟨[], (List.append_nil _).symm⟩

theorem Knows.owns (h : Knows waiting s Q w) (hQ : Lasts Q)
    (ha : (timelyEnv rel waiting).answers q w a w') (hq : w.fs.Owns q) (hmk : q ≠ .mkdirat s) :
    Knows waiting s Q w' := by
  obtain ⟨m, hm⟩ : ∃ m, looksAfter rel q a w = w.looks ++ m := looksAfter_append hq
  exact ⟨h.steady.owns ha hq hmk, (ha.1.2.2.1.trans hm) ▸ hQ _ m h.looks⟩

/-- A file that every look has seen is not unsent. -/
def Vetted (waiting : List FileId) (looks : List (Option (FileId × Inode))) : Prop :=
  ∀ i node, (∀ l ∈ looks, l = some (i, node)) → ¬ Unsent waiting i node

theorem vetted_of_none {looks : List (Option (FileId × Inode))} (h : none ∈ looks) :
    Vetted waiting looks := fun i node hall ↦ by cases hall none h

theorem lasts_vetted : Lasts (Vetted waiting) :=
  fun _ _ h i node hall ↦ h i node fun l hl ↦ hall l (List.mem_append_left _ hl)

/-- The placeholder is kept by its descriptor. -/
structure Holds (waiting : List FileId) (s : RelPath) (fd : FileId) (w : Guarded) : Prop where
  knows : Knows waiting s (Vetted waiting) w
  held : w.fs.held fd
  isFile : (w.fs.inodes fd).isDir = false

theorem Saves.isDir_eq {w w' : Vfs} (h : Saves rel w w') (hold : ¬ w.Fresh i) :
    (w'.inodes i).isDir = (w.inodes i).isDir := by rw [h.2 i hold]

theorem stable_holds : Stable (timelyEnv rel waiting) (Holds waiting (scratchName rel n) fd) := by
  intro w w' hothers h
  refine ⟨stable_knows w w' hothers h.knows, hothers.1.1.held_eq ▸ h.held, ?_⟩
  rw [hothers.1.isDir_eq fun hfresh ↦ hfresh.2 h.held]
  exact h.isFile

theorem Holds.acts (h : Holds waiting s fd w) (ha : (timelyEnv rel waiting).answers q w a w')
    (hknows : Knows waiting s (Vetted waiting) w') : Holds waiting s fd w' := by
  refine ⟨hknows, ha.1.1.held h.held, ?_⟩
  rw [ha.1.1.isDir_eq fun hfresh ↦ hfresh.2 h.held]
  exact h.isFile

theorem Holds.owns (h : Holds waiting s fd w) (ha : (timelyEnv rel waiting).answers q w a w')
    (hq : w.fs.Owns q) (hmk : q ≠ .mkdirat s) : Holds waiting s fd w' :=
  h.acts ha (h.knows.owns lasts_vetted ha hq hmk)

/-- What has the scratch name may be unlinked. -/
theorem Holds.unlinkat {a : Syscall.Answer (.unlinkat s)} (h : Holds waiting s fd w)
    (ha : (timelyEnv rel waiting).answers (.unlinkat s) w a w') : Holds waiting s fd w' := by
  obtain ⟨hacts, htree, hlooks, hharmed⟩ := ha.1
  have hkept : ¬ Harms waiting w.fs w'.fs
      ∧ ∀ i, w'.fs.names s = some i → ¬ w'.fs.held i → ¬ Unsent waiting i (w'.fs.inodes i) := by
    match a, hacts with
    | .error _, ⟨heq, _⟩ =>
      rw [heq]
      exact ⟨fun ⟨i, _, hnamed, _, hlost⟩ ↦ hlost.elim (· hnamed) (· rfl), h.knows.steady.scratch⟩
    | .ok _, ⟨j, hj, _, heq⟩ =>
      rw [heq]
      constructor
      · rintro ⟨i, hheld, hnamed, hunsent, hgone | hchanged⟩
        · by_cases hij : i = j
          · exact h.knows.steady.scratch i (hij ▸ hj) hheld hunsent
          · exact hgone (hnamed.unlink hj hij)
        · exact hchanged rfl
      · intro i hi
        rw [Vfs.names_unlink] at hi
        cases hi
  exact h.acts ha ⟨⟨fun hw ↦ (hharmed.mp hw).elim h.knows.steady.unharmed hkept.1, htree, hkept.2⟩,
    hlooks ▸ h.knows.looks⟩

/-- What takes the place of a file that every look has seen harms nothing. -/
theorem Holds.renameat {r : Syscall.Result (.renameat s rel)} (h : Holds waiting s fd w)
    (hs : w.fs.names s = some fd)
    (ha : (timelyEnv rel waiting).answers (.renameat s rel) w (.ok r) w') :
    Steady waiting s w' := by
  obtain ⟨⟨⟨hapart, j, hj, hdirs, heq⟩, htree, -, hharmed⟩, htimely⟩ := ha
  obtain rfl : j = fd := Option.some_inj.mp (hj.symm.trans hs)
  by_cases hsame : w.fs.names rel = some j
  · rw [if_pos hsame] at heq
    refine ⟨fun hw ↦ (hharmed.mp hw).elim h.knows.steady.unharmed ?_, htree, ?_⟩
    · rw [heq]
      exact fun ⟨i, _, hnamed, _, hlost⟩ ↦ hlost.elim (· hnamed) (· rfl)
    · rw [heq]
      exact h.knows.steady.scratch
  · rw [if_neg hsame] at heq
    have hne : rel ≠ [] := fun hnil ↦ hapart.2 (hnil ▸ List.nil_prefix)
    refine ⟨fun hw ↦ (hharmed.mp hw).elim h.knows.steady.unharmed ?_, htree, ?_⟩
    · rw [heq]
      rintro ⟨i, -, hnamed, hunsent, hgone | hchanged⟩
      · refine hgone (hnamed.rename h.knows.steady.tree (fun k hk ↦ ⟨?_, ?_⟩) hne)
        · -- the guards have looked at what is displaced, and it is not unsent
          rintro rfl
          refine h.knows.looks k _ (fun l hl ↦ ?_) hunsent
          rw [htimely rfl l hl, Vfs.occupant, hk]
          rfl
        · exact (hdirs k hk).trans h.isFile
      · exact hchanged rfl
    · intro i hi
      rw [heq] at hi
      change (if rel <+: s then _ else if s <+: s then none else _) = some i at hi
      rw [if_neg hapart.2, if_pos List.prefix_rfl] at hi
      cases hi

theorem scratchName_not_below (hne : rel ≠ []) : ¬ rel <+: scratchName rel n := by
  intro hprefix
  have hlength : rel.length = (scratchName rel n).length := by
    rw [scratchName, List.length_append, List.length_dropLast, List.length_singleton]
    have hpos := List.length_pos_of_ne_nil hne
    omega
  have heq : rel = scratchName rel n := hprefix.eq_of_length hlength
  have hlast : rel.getLastD "f" = (scratchName rel n).getLastD "f" :=
    congrArg (fun p : RelPath ↦ p.getLastD "f") heq
  have hscratch : ∀ base, rel.getLastD "f" = base →
      (scratchName rel n).getLastD "f" = s!".{base}.hydration-{n}" := by
    rintro base rfl
    simp [scratchName]
  rw [hscratch _ rfl] at hlast
  generalize rel.getLastD "f" = base at hlast
  have hlen : base.length = ("." ++ base ++ ".hydration-" ++ toString n).length :=
    congrArg String.length hlast
  rw [String.length_append, String.length_append, String.length_append] at hlen
  have hdot : (".").length = 1 := rfl
  omega

/-! ## The act -/

theorem lasting_steady {α : Type} : Lasting (timelyEnv rel waiting) (fun w ↦ ¬ w.harmed)
    fun (_ : Except IoError α) (_ : ℕ) w ↦ Steady waiting (scratchName rel n) w :=
  ⟨fun _ _ ↦ stable_steady, fun _ _ _ h ↦ h.unharmed⟩

theorem ne_scratchName {p : RelPath} (h : p ∈ rel.dropLast.inits.tail) : p ≠ scratchName rel n := by
  rintro rfl
  have hlength := ((List.mem_inits _ _).mp (List.mem_of_mem_tail h)).length_le
  rw [scratchName, List.length_append, List.length_singleton] at hlength
  omega

theorem steady_linkIntoPlace (hw : Holds waiting (scratchName rel n) fd w) :
    Meets (timelyEnv rel waiting) (fun w ↦ ¬ w.harmed)
      (fun _ _ w ↦ Steady waiting (scratchName rel n) w) (Placer.linkIntoPlace fd rel n) n w := by
  have hinv : ∀ w, Holds waiting (scratchName rel n) fd w → ¬ w.harmed :=
    fun _ h ↦ h.knows.steady.unharmed
  refine meets_attempt_sys stable_holds hw hinv fun v a v' hv ha ↦ ?_
  have hv' := hv.owns ha hv.held (fun h ↦ by cases h)
  match a with
  | .ok _ => exact meets_pure lasting_steady hv'.knows.steady
  | .error e =>
    dsimp only
    split
    · exact meets_throw lasting_steady hv'.knows.steady
    refine meets_attempt_sys stable_holds hv' hinv fun v a v' hv ha ↦ ?_
    refine meets_sys_bind lasting_steady stable_holds (hv.unlinkat ha) hinv (fun v r v' hv ha ↦ ?_)
      fun v e v' hv ha ↦ (hv.owns ha hv.held fun h ↦ by cases h).knows.steady
    have hv' := hv.owns ha hv.held (fun h ↦ by cases h)
    have hname : v'.fs.names (scratchName rel n) = some fd := by
      rw [ha.1.1.2]
      exact Vfs.names_link
    have hstable : Stable (timelyEnv rel waiting) fun w ↦ Holds waiting (scratchName rel n) fd w
        ∧ w.fs.names (scratchName rel n) = some fd := fun w w' hothers h ↦
      ⟨stable_holds w w' hothers h.1, (hothers.1.1.names_eq fun p hp ↦ hp n).trans h.2⟩
    refine meets_attempt_sys hstable ⟨hv', hname⟩ (fun v h ↦ hinv v h.1) fun v a v' hv ha ↦ ?_
    match a with
    | .ok _ => exact meets_pure lasting_steady (hv.1.renameat hv.2 ha)
    | .error e =>
      have hlooks : v'.looks = v.looks := ha.1.2.2.1
      have hknows : Knows waiting (scratchName rel n) (Vetted waiting) v' :=
        ⟨hv.1.knows.steady.refused ha, hlooks ▸ hv.1.knows.looks⟩
      refine meets_attempt_sys stable_holds (hv.1.acts ha hknows) hinv fun v a v' hv ha ↦ ?_
      exact meets_throw lasting_steady (hv.unlinkat ha).knows.steady

theorem steady_place (size : ℕ) (cloudId : String) (etag : Option String)
    (hw : Knows waiting (scratchName rel (n + 1)) (Vetted waiting) w) :
    Meets (timelyEnv rel waiting) (fun w ↦ ¬ w.harmed)
      (fun _ _ w ↦ Steady waiting (scratchName rel (n + 1)) w)
      (Placer.place rel size cloudId etag) n w := by
  have hinv : ∀ w, Knows waiting (scratchName rel (n + 1)) (Vetted waiting) w → ¬ w.harmed :=
    fun _ h ↦ h.steady.unharmed
  refine meets_bind lasting_steady (keeps_mkdirs (n := n) stable_knows hinv _
    (fun p hp v a v' hv ha ↦ ?_) hw) (fun _ m w _ hw ↦ ?_) fun _ _ _ _ h ↦ h.1.steady
  · exact hv.owns lasts_vetted ha trivial fun h ↦ ne_scratchName hp (Syscall.mkdirat.inj h)
  obtain ⟨hw, rfl⟩ := hw
  refine meets_bind lasting_steady (keeps_placeholder (n := m)
    (R := Holds waiting (scratchName rel (m + 1))) stable_knows (fun _ ↦ stable_holds) hinv
    (fun _ _ h ↦ h.knows) ?_ ?_ size cloudId etag hw)
    (fun fd k w _ hmade ↦ ?_) fun _ _ _ _ h ↦ h.1.1.steady
  · intro v a v' hv ha
    have hv' := hv.owns lasts_vetted ha trivial (fun h ↦ by cases h)
    refine ⟨hv', fun fd hr ↦ ⟨hv', ?_, ?_⟩⟩
    · obtain ⟨-, node, -, heq⟩ := hr ▸ ha.1.1
      rw [heq]
      exact Or.inl rfl
    · obtain ⟨-, node, hfile, heq⟩ := hr ▸ ha.1.1
      rw [heq]
      simpa [Vfs.hold, Vfs.setInode] using hfile
  · intro fd q a v v' hq hv ha
    match q with
    | .fsetxattr _ _ _ | .ftruncate _ _ | .stamp _ =>
      obtain rfl : _ = fd := hq
      exact hv.owns ha hv.held fun h ↦ by cases h
  · obtain ⟨⟨hw, rfl⟩, hfd⟩ := hmade
    exact meets_modify (meets_state (steady_linkIntoPlace (hfd fd rfl)))

/-! ## The looks -/

/-- One look was answered by the metadata of what it saw. -/
def SawStat (a : Except IoError Stat) (looks : List (Option (FileId × Inode))) : Prop :=
  ∃ l ∈ looks, ∀ i node, l = some (i, node) → a = .ok { node.stat with file := i }

/-- One look was answered by an attribute of what it saw. -/
def SawAttr (name : XattrName) (a : Except IoError Attr)
    (looks : List (Option (FileId × Inode))) : Prop :=
  ∃ l ∈ looks, ∀ i node, l = some (i, node) → a = .ok (node.xattr name)

/-- If every look saw the same file, its stamp is told from its metadata. -/
def SawStamp (r : Except IoError StampState) (looks : List (Option (FileId × Inode))) : Prop :=
  ∀ i node, (∀ l ∈ looks, l = some (i, node)) → r ≠ .ok .dirty → node.stampState ≠ .ok .dirty

theorem lasts_sawStat {a : Except IoError Stat} : Lasts (SawStat a) :=
  fun _ m ⟨l, hl, h⟩ ↦ ⟨l, List.mem_append_left m hl, h⟩

theorem lasts_sawAttr {name : XattrName} {a : Except IoError Attr} : Lasts (SawAttr name a) :=
  fun _ m ⟨l, hl, h⟩ ↦ ⟨l, List.mem_append_left m hl, h⟩

theorem Lasts.and {Q' : List (Option (FileId × Inode)) → Prop} (h : Lasts Q) (h' : Lasts Q') :
    Lasts fun l ↦ Q l ∧ Q' l := fun l m hl ↦ ⟨h l m hl.1, h' l m hl.2⟩

theorem Knows.fstatat {a : Syscall.Answer (.fstatat rel)} (h : Knows waiting s Q w) (hQ : Lasts Q)
    (ha : (timelyEnv rel waiting).answers (.fstatat rel) w a w') :
    Knows waiting s (fun l ↦ Q l ∧ SawStat a l) w' := by
  refine ⟨h.steady.owns ha trivial (fun h ↦ by cases h), ?_⟩
  have hlooks := ha.1.2.2.1
  match a with
  | .error _ =>
    rw [looksAfter, if_pos rfl] at hlooks
    rw [hlooks]
    exact ⟨hQ _ _ h.looks, none, by simp, fun _ _ hl ↦ by cases hl⟩
  | .ok st =>
    rw [looksAfter, if_pos rfl] at hlooks
    obtain ⟨⟨j, hj, hst⟩, -⟩ := ha.1.1
    rw [hlooks]
    refine ⟨hQ _ _ h.looks, w.fs.occupant rel, by simp, fun i node hl ↦ ?_⟩
    rw [Vfs.occupant, hj] at hl
    cases hl
    rw [hst]
    rfl

theorem Knows.getxattr {name : XattrName} {a : Syscall.Answer (.getxattr rel name)}
    (h : Knows waiting s Q w) (hQ : Lasts Q)
    (ha : (timelyEnv rel waiting).answers (.getxattr rel name) w a w') :
    Knows waiting s (fun l ↦ Q l ∧ SawAttr name a l) w' := by
  refine ⟨h.steady.owns ha trivial (fun h ↦ by cases h), ?_⟩
  have hlooks := ha.1.2.2.1
  match a with
  | .error _ =>
    rw [looksAfter, if_pos rfl] at hlooks
    rw [hlooks]
    exact ⟨hQ _ _ h.looks, none, by simp, fun _ _ hl ↦ by cases hl⟩
  | .ok value =>
    rw [looksAfter, if_pos rfl] at hlooks
    obtain ⟨⟨j, hj, hvalue⟩, -⟩ := ha.1.1
    rw [hlooks]
    refine ⟨hQ _ _ h.looks, w.fs.occupant rel, by simp, fun i node hl ↦ ?_⟩
    rw [Vfs.occupant, hj] at hl
    cases hl
    rw [hvalue]

theorem Knows.mono {Q' : List (Option (FileId × Inode)) → Prop} (h : Knows waiting s Q w)
    (hQ : ∀ l, Q l → Q' l) : Knows waiting s Q' w := ⟨h.steady, hQ _ h.looks⟩

theorem lasting_knows {α : Type} {Q : Except IoError α → List (Option (FileId × Inode)) → Prop}
    {k : ℕ} : Lasting (timelyEnv rel waiting) (fun w ↦ ¬ w.harmed)
      fun r m w ↦ Knows waiting (scratchName rel n) (Q r) w ∧ m = k :=
  ⟨fun _ _ ↦ stable_and stable_knows, fun _ _ _ h ↦ h.1.steady.unharmed⟩

/-- Whatever `is_current` says, what is known is kept. -/
theorem knows_isCurrentAt {k : ℕ} (cloudId : String) (etag : Option String) (size : ℕ)
    (hQ : Lasts Q) (hw : Knows waiting (scratchName rel n) Q w) :
    Meets (timelyEnv rel waiting) (fun w ↦ ¬ w.harmed)
      (fun _ m w ↦ Knows waiting (scratchName rel n) Q w ∧ m = k)
      (Placer.isCurrentAt rel cloudId etag size) k w := by
  have hinv : ∀ w, Knows waiting (scratchName rel n) Q w → ¬ w.harmed := fun _ h ↦ h.steady.unharmed
  have hdone : ∀ (b : Bool) w, Knows waiting (scratchName rel n) Q w →
      Meets (timelyEnv rel waiting) (fun w ↦ ¬ w.harmed)
        (fun _ m w ↦ Knows waiting (scratchName rel n) Q w ∧ m = k) (pure b) k w :=
    fun b w hw ↦ meets_pure lasting_knows ⟨hw, rfl⟩
  refine meets_attempt_sys stable_knows hw hinv fun v a v' hv ha ↦ ?_
  have hv' := (hv.getxattr hQ ha).mono fun _ h ↦ h.1
  split
  · exact hdone false v' hv'
  refine meets_attempt_sys stable_knows hv' hinv fun v a v' hv ha ↦ ?_
  refine meets_attempt_sys stable_knows ((hv.getxattr hQ ha).mono fun _ h ↦ h.1) hinv
    fun v a v' hv ha ↦ ?_
  have hv' := (hv.fstatat hQ ha).mono fun _ h ↦ h.1
  match a with
  | .error _ => exact hdone false v' hv'
  | .ok md =>
    dsimp only
    split
    · exact hdone false v' hv'
    · match etag with
      | some remote => exact hdone _ v' hv'
      | none => exact hdone true v' hv'

theorem sawStamp_of_none {r : Except IoError StampState} {l : List (Option (FileId × Inode))}
    (h : none ∈ l) : SawStamp r l := fun _ _ hall ↦ by cases hall none h

theorem SawAttr.none_mem {name : XattrName} {e : IoError} {l : List (Option (FileId × Inode))}
    (h : SawAttr name (.error e) l) : none ∈ l := by
  obtain ⟨o, ho, hsaw⟩ := h
  match o with
  | none => exact ho
  | some (i, node) => cases hsaw i node rfl

theorem SawStat.none_mem {e : IoError} {l : List (Option (FileId × Inode))}
    (h : SawStat (.error e) l) : none ∈ l := by
  obtain ⟨o, ho, hsaw⟩ := h
  match o with
  | none => exact ho
  | some (i, node) => cases hsaw i node rfl

theorem knows_stampStateAt {k : ℕ} (hQ : Lasts Q) (hw : Knows waiting (scratchName rel n) Q w) :
    Meets (timelyEnv rel waiting) (fun w ↦ ¬ w.harmed)
      (fun r m w ↦ Knows waiting (scratchName rel n) (fun l ↦ Q l ∧ SawStamp r l) w ∧ m = k)
      (Placer.stampStateAt rel) k w := by
  have hlasts : Lasting (timelyEnv rel waiting) (fun w ↦ ¬ w.harmed)
      fun (r : Except IoError StampState) m w ↦
        Knows waiting (scratchName rel n) (fun l ↦ Q l ∧ SawStamp r l) w ∧ m = k := lasting_knows
  refine meets_sys_bind hlasts stable_knows hw (fun _ h ↦ h.steady.unharmed)
    (fun v value v' hv ha ↦ ?_) fun v e v' hv ha ↦
      ⟨(hv.getxattr hQ ha).mono fun l h ↦ ⟨h.1, sawStamp_of_none h.2.none_mem⟩, rfl⟩
  have hv' := hv.getxattr hQ ha
  match hrecorded : value.recorded with
  | .error e =>
    refine meets_throw hlasts ⟨hv'.mono fun l h ↦ ⟨h.1, fun i node hall _ ↦ ?_⟩, rfl⟩
    obtain ⟨-, l', hl', hvalue⟩ := h
    have hstamp : node.stamp.recorded = .error e :=
      (congrArg Attr.recorded (Except.ok.inj (hvalue i node (hall l' hl')))).symm.trans hrecorded
    rw [Inode.stampState, hstamp]
    exact fun h ↦ by cases h
  | .ok none =>
    refine meets_pure hlasts ⟨hv'.mono fun l h ↦ ⟨h.1, fun i node hall _ ↦ ?_⟩, rfl⟩
    obtain ⟨-, l', hl', hvalue⟩ := h
    have hstamp : node.stamp.recorded = .ok none :=
      (congrArg Attr.recorded (Except.ok.inj (hvalue i node (hall l' hl')))).symm.trans hrecorded
    rw [Inode.stampState, hstamp]
    exact fun h ↦ by cases h
  | .ok (some recorded) =>
    refine meets_sys_bind hlasts stable_knows hv' (fun _ h ↦ h.steady.unharmed)
      (fun v md v' hv ha ↦ ?_) fun v e v' hv ha ↦
        ⟨(hv.fstatat (hQ.and lasts_sawAttr) ha).mono fun l h ↦
          ⟨h.1.1, sawStamp_of_none h.2.none_mem⟩, rfl⟩
    refine meets_pure hlasts ⟨(hv.fstatat (hQ.and lasts_sawAttr) ha).mono fun l h ↦
      ⟨h.1.1, fun i node hall hclean ↦ ?_⟩, rfl⟩
    obtain ⟨⟨-, l', hl', hvalue⟩, l'', hl'', hmd⟩ := h
    have hstamp : node.stamp.recorded = .ok (some recorded) :=
      (congrArg Attr.recorded (Except.ok.inj (hvalue i node (hall l' hl')))).symm.trans hrecorded
    have hof : md.stamp = node.stat.stamp := by
      rw [Except.ok.inj (hmd i node (hall l'' hl''))]
      rfl
    rw [Inode.stampState, hstamp]
    rw [hof] at hclean
    exact fun h ↦ hclean (congrArg Except.ok (Except.ok.inj h))

/-! ## The whole upsert -/

theorem steady_placeOver (size : ℕ) (cloudId : String) (etag : Option String) (done : Fate)
    (hw : Knows waiting (scratchName rel (n + 1)) (Vetted waiting) w) :
    Meets (timelyEnv rel waiting) (fun w ↦ ¬ w.harmed)
      (fun _ _ w ↦ Steady waiting (scratchName rel (n + 1)) w)
      (Placer.placeOver rel size cloudId etag done) n w := by
  have hplace := meets_attempt lasting_steady (steady_place size cloudId etag hw)
  refine meets_bind lasting_steady hplace (fun r _ w _ hw ↦ ?_) fun _ _ _ _ hw ↦ hw
  match r with
  | .ok _ | .error _ => exact meets_pure lasting_steady hw

theorem steady_refresh (size : ℕ) (cloudId : String) (etag : Option String)
    (hw : Steady waiting (scratchName rel (n + 1)) w) :
    Meets (timelyEnv rel waiting) (fun w ↦ ¬ w.harmed)
      (fun _ _ w ↦ Steady waiting (scratchName rel (n + 1)) w)
      (Placer.refresh waiting rel size cloudId etag) n w := by
  have hknows : Knows waiting (scratchName rel (n + 1)) (fun _ ↦ True) w := ⟨hw, trivial⟩
  refine meets_attempt_sys stable_knows hknows (fun _ h ↦ h.steady.unharmed) fun v a v' hv ha ↦ ?_
  have hv' := (hv.fstatat (fun _ _ h ↦ h) ha).mono fun _ h ↦ h.2
  match a with
  | .error e =>
    exact steady_placeOver size cloudId etag _ (hv'.mono fun _ h ↦ vetted_of_none h.none_mem)
  | .ok md =>
    have hcurrent := knows_isCurrentAt (k := n) cloudId etag size lasts_sawStat hv'
    refine meets_bind lasting_steady hcurrent (fun current m w _ hw ↦ ?_)
      fun _ _ _ _ h ↦ h.1.steady
    obtain ⟨hw, rfl⟩ := hw
    split
    · exact meets_pure lasting_steady hw.steady
    split
    · exact meets_pure lasting_steady hw.steady
    rename_i hfree
    refine meets_attempt_sys stable_knows hw (fun _ h ↦ h.steady.unharmed) fun v known v' hv ha ↦ ?_
    have hv' := hv.getxattr lasts_sawStat ha
    split
    · exact meets_pure lasting_steady hv'.steady
    rename_i hsent
    have hstamped : Meets (timelyEnv rel waiting) (fun w ↦ ¬ w.harmed)
        (fun r k w ↦ Knows waiting (scratchName rel (m + 1)) (fun l ↦ (SawStat (.ok md) l
          ∧ SawAttr .id known l) ∧ ∀ stamp, r = .ok stamp → SawStamp stamp l) w ∧ k = m)
        (attempt (Placer.stampStateAt rel)) m v' := by
      refine meets_attempt lasting_knows (Meets.mono
        (knows_stampStateAt (lasts_sawStat.and lasts_sawAttr) hv') fun r k w _ h ↦
          ⟨h.1.mono fun l hl ↦ ⟨hl.1, ?_⟩, h.2⟩)
      rintro stamp ⟨⟩
      exact hl.2
    refine meets_bind lasting_steady hstamped (fun stamp k w _ hw ↦ ?_)
      fun _ _ _ _ h ↦ h.1.steady
    obtain ⟨hw, rfl⟩ := hw
    have hplace : stamp ≠ .ok .dirty → Meets (timelyEnv rel waiting) (fun w ↦ ¬ w.harmed)
        (fun _ _ w ↦ Steady waiting (scratchName rel (k + 1)) w)
        (Placer.placeOver rel size cloudId etag .updated) k w := by
      intro hclean
      refine steady_placeOver size cloudId etag _ (hw.mono fun l h i node hall ↦ ?_)
      -- what every look has seen has passed each of the guards
      obtain ⟨⟨⟨l₁, hl₁, hmd⟩, l₂, hl₂, hknown⟩, hstamp⟩ := h
      have hmd' := Except.ok.inj (hmd i node (hall l₁ hl₁))
      have hknown' := hknown i node (hall l₂ hl₂)
      rintro (hwaiting | ⟨hsize, hid⟩ | hdirty)
      · refine hfree ?_
        rw [hmd']
        exact hwaiting
      · refine hsent ⟨?_, ?_⟩
        · rw [hknown']
          exact Bool.not_eq_true _ ▸ hid
        · rw [hmd']
          exact hsize
      · exact hstamp stamp rfl i node hall hclean hdirty
    match stamp with
    | .ok .dirty => exact meets_pure lasting_steady hw.steady
    | .ok .clean | .ok .unstamped | .error _ => exact hplace (fun h ↦ by cases h)

/-- What is moved to a path where no look has seen anything displaces nothing. -/
theorem Knows.renameat {old : RelPath} {r : Syscall.Result (.renameat old rel)}
    (h : Knows waiting (scratchName rel n) (fun l ↦ none ∈ l) w)
    (ha : (timelyEnv rel waiting).answers (.renameat old rel) w (.ok r) w') :
    Steady waiting (scratchName rel n) w' := by
  obtain ⟨⟨⟨hapart, j, hj, -, heq⟩, htree, -, hharmed⟩, htimely⟩ := ha
  have hfree : w.fs.names rel = none := by
    have hnone := htimely rfl none h.looks
    rwa [Vfs.occupant, eq_comm, Option.map_eq_none_iff] at hnone
  rw [if_neg (fun hsame ↦ by rw [hfree] at hsame; cases hsame)] at heq
  have hne : rel ≠ [] := fun hnil ↦ hapart.2 (hnil ▸ List.nil_prefix)
  refine ⟨fun hw ↦ (hharmed.mp hw).elim h.steady.unharmed ?_, htree, ?_⟩
  · rw [heq]
    rintro ⟨i, -, hnamed, -, hgone | hchanged⟩
    · refine hgone (hnamed.rename h.steady.tree (fun k hk ↦ ?_) hne)
      rw [hfree] at hk
      cases hk
    · exact hchanged rfl
  · intro i hi
    rw [heq] at hi
    change (if rel <+: _ then _ else if old <+: _ then none else _) = some i at hi
    rw [if_neg (scratchName_not_below hne)] at hi
    split at hi
    · cases hi
    · rw [heq]
      exact h.steady.scratch i hi

theorem knows_existsAt {k : ℕ} (p : RelPath) (hQ : Lasts Q)
    (hw : Knows waiting (scratchName rel n) Q w) :
    Meets (timelyEnv rel waiting) (fun w ↦ ¬ w.harmed)
      (fun r m w ↦ Knows waiting (scratchName rel n)
        (fun l ↦ Q l ∧ (p = rel → r = .ok false → none ∈ l)) w ∧ m = k)
      (Placer.existsAt p) k w := by
  refine meets_attempt_sys stable_knows hw (fun _ h ↦ h.steady.unharmed) fun v a v' hv ha ↦ ?_
  refine meets_pure (lasting_knows (Q := fun r l ↦ Q l ∧ (p = rel → r = .ok false → none ∈ l)))
    ⟨?_, rfl⟩
  by_cases hp : p = rel
  · subst hp
    refine (hv.fstatat hQ ha).mono fun l h ↦ ⟨h.1, fun _ hfalse ↦ ?_⟩
    match a with
    | .error e => exact h.2.none_mem
    | .ok _ => cases Except.ok.inj hfalse
  · have hv' := hv.owns hQ ha trivial fun h ↦ by cases h
    exact hv'.mono fun l h ↦ ⟨h, fun heq ↦ absurd heq hp⟩

theorem steady_upsert (existing : Option RelPath) (size : ℕ) (cloudId : String)
    (etag : Option String) (hw : Steady waiting (scratchName rel (n + 1)) w) :
    Meets (timelyEnv rel waiting) (fun w ↦ ¬ w.harmed)
      (fun _ _ w ↦ Steady waiting (scratchName rel (n + 1)) w)
      (Placer.upsert existing waiting rel size cloudId etag) n w := by
  match existing with
  | none => exact steady_refresh size cloudId etag hw
  | some old =>
    dsimp only [Placer.upsert]
    split
    · exact steady_refresh size cloudId etag hw
    have hknows : Knows waiting (scratchName rel (n + 1)) (fun _ ↦ True) w := ⟨hw, trivial⟩
    refine meets_bind lasting_steady (knows_existsAt (k := n) old (fun _ _ h ↦ h) hknows)
      (fun found m w _ hw ↦ ?_) fun _ _ _ _ h ↦ h.1.steady
    obtain ⟨hw, rfl⟩ := hw
    split
    case isFalse => exact steady_refresh size cloudId etag hw.steady
    have hsteady : Knows waiting (scratchName rel (m + 1)) (fun _ ↦ True) w := ⟨hw.steady, trivial⟩
    refine meets_bind lasting_steady (knows_existsAt (k := m) rel (fun _ _ h ↦ h) hsteady)
      (fun found k w _ hw ↦ ?_) fun _ _ _ _ h ↦ h.1.steady
    obtain ⟨hw, rfl⟩ := hw
    split
    · exact meets_pure lasting_steady hw.steady
    rename_i hfound
    have hfree : Knows waiting (scratchName rel (k + 1)) (fun l ↦ none ∈ l) w := by
      refine hw.mono fun l h ↦ h.2 rfl ?_
      rw [Bool.not_eq_true _ |>.mp hfound]
    have hlasts : Lasts fun l ↦ none ∈ l := fun _ m h ↦ List.mem_append_left m h
    have hparents : Meets (timelyEnv rel waiting) (fun w ↦ ¬ w.harmed)
        (fun _ m w ↦ Knows waiting (scratchName rel (k + 1)) (fun l ↦ none ∈ l) w ∧ m = k)
        (attempt (Placer.makeParents rel)) k w :=
      meets_attempt lasting_knows (keeps_mkdirs stable_knows (fun _ h ↦ h.steady.unharmed) _
        (fun p hp _ _ _ hv ha ↦ hv.owns hlasts ha trivial
          fun h ↦ ne_scratchName hp (Syscall.mkdirat.inj h)) hfree)
    refine meets_bind lasting_steady hparents (fun _ m w _ hw ↦ ?_) fun _ _ _ _ h ↦ h.1.steady
    obtain ⟨hw, rfl⟩ := hw
    refine meets_attempt_sys stable_knows hw (fun _ h ↦ h.steady.unharmed) fun v a v' hv ha ↦ ?_
    match a with
    | .error e =>
      exact meets_pure lasting_steady (hv.steady.refused ha)
    | .ok _ =>
      refine meets_sys_bind (q := .fstatat rel) lasting_steady stable_steady (hv.renameat ha)
        (fun _ h ↦ h.unharmed) (fun v r v' hv ha ↦ ?_) fun v e v' hv ha ↦ ?_
      · exact steady_refresh size cloudId etag (hv.owns ha trivial fun h ↦ by cases h)
      · exact hv.owns ha trivial fun h ↦ by cases h

/-! ## What is still there -/

/-- A pass in a world, as its runs have it. -/
abbrev Instant := Dialogue Syscall Syscall.Answer (Except IoError Fate × ℕ) × Guarded

/-- In a run a file keeps a name and is as it was, unless another process takes its last name. -/
def Survives (E : Env Syscall Syscall.Answer Guarded) (i : FileId) (s : Instant)
    (run : List Instant) : Prop :=
  (∀ m ∈ run, m.2.fs.Named i ∧ m.2.fs.inodes i = s.2.fs.inodes i)
    ∨ EndedByOthers E (fun w ↦ w.fs.Named i) (s :: run)

/-- **An atomic save survives a pass**: as long as the pass displaces at the path only what all its
looks have seen there, every file that is not sent and has a name at any time of the pass has one
from then on, until another process takes it. -/
theorem save_survives (fs : Vfs) (existing : Option RelPath) (waiting : List FileId)
    (rel : RelPath) (size : ℕ) (cloudId : String) (etag : Option String) (seq : ℕ) (s : Instant)
    (run : List Instant) (htree : fs.IsTree)
    (hscratch : ∀ i, fs.names (scratchName rel (seq + 1)) = some i →
      ¬ Unsent waiting i (fs.inodes i))
    (hs : Relation.ReflTransGen (Step ((savesEnv rel waiting).under (Timely rel)))
      (Placer.upsert existing waiting rel size cloudId etag seq, Guarded.start fs) s)
    (hrun : (s :: run).IsChain (Step ((savesEnv rel waiting).under (Timely rel)))) (i : FileId)
    (hnamed : s.2.fs.Named i) (hheld : ¬ s.2.fs.held i)
    (hunsent : Unsent waiting i (s.2.fs.inodes i)) :
    Survives ((savesEnv rel waiting).under (Timely rel)) i s run := by
  have hstart : Steady waiting (scratchName rel (seq + 1)) (Guarded.start fs) :=
    ⟨id, htree, fun j hj _ ↦ hscratch j hj⟩
  have hunharmed : ∀ t, Relation.ReflTransGen (Step (timelyEnv rel waiting))
        (Placer.upsert existing waiting rel size cloudId etag seq, Guarded.start fs) t →
      ¬ t.2.harmed := fun t ht ↦ (steady_upsert existing size cloudId etag hstart).run ht
  refine (kept_or_ended (X := fun w ↦ ¬ w.fs.held i ∧ w.fs.inodes i = s.2.fs.inodes i)
    (fun t t' hstep ht ↦ ht.tail hstep) (fun w w' hothers hi hX _ ↦ ?_)
    (fun q next a w w' _ ht' ha hi hX ↦ ?_) hs hnamed ⟨hheld, rfl⟩ hrun).imp_left
      fun hall m hm ↦ ⟨(hall m hm).1, (hall m hm).2.2⟩
  · exact ⟨hothers.1.1.held_eq ▸ hX.1, (hothers.1.2 i fun hfresh ↦ hfresh.1 hi).trans hX.2⟩
  · have hharms : ¬ Harms waiting w.fs w'.fs := fun h ↦
      hunharmed _ ht' (ha.1.2.2.2.mpr (Or.inr h))
    have hstays : w'.fs.Named i ∧ w'.fs.inodes i = w.fs.inodes i := by
      by_contra hnot
      exact hharms ⟨i, hX.1, hi, hX.2.symm ▸ hunsent, Classical.not_and_iff_not_or_not.mp hnot⟩
    exact ⟨hstays.1, fun h ↦ (ha.1.1.held_or h).elim hX.1 (· hi), hstays.2.trans hX.2⟩

/-! ## Runs of a pass -/

section

variable {α : Type} {next : q.Answer → Dialogue Syscall Syscall.Answer α} {w : Guarded}

/-- A call that only looks. -/
theorem step_looked (h : Vfs.Acts q w.fs a w.fs) (htree : w.fs.IsTree)
    (htimely : Timely rel q w a ⟨w.fs, looksAfter rel q a w, w.harmed ∨ Harms waiting w.fs w.fs⟩) :
    Step ((savesEnv rel waiting).under (Timely rel)) (.ask q next, w)
      (next a, ⟨w.fs, looksAfter rel q a w, w.harmed ∨ Harms waiting w.fs w.fs⟩) :=
  .answered ⟨⟨h, htree, rfl, Iff.rfl⟩, htimely⟩

end

/-- Nothing is in a directory. -/
private def Flat (w : Vfs) : Prop := ∀ x y q, w.names (x :: y :: q) = none

private theorem Flat.isTree {w : Vfs} (h : Flat w) : w.IsTree := by
  rintro p q ⟨r, rfl⟩ hne hp hq
  match p, r with
  | [], _ => exact absurd rfl hp
  | _, [] => exact absurd (List.append_nil _).symm hne
  | x :: [], y :: r => exact absurd (h x y r) hq
  | x :: y :: p, z :: r => exact absurd (h x y (p ++ z :: r)) hq

private theorem Flat.rename {w : Vfs} {x y : String} (h : Flat w) : Flat (w.rename [x] [y]) := by
  intro a b q
  change (if [y] <+: a :: b :: q then w.names ([x] ++ (a :: b :: q).drop 1)
    else if [x] <+: a :: b :: q then none else w.names (a :: b :: q)) = none
  split
  · exact h x b q
  · split
    · rfl
    · exact h a b q

private theorem Flat.link {w : Vfs} {x : String} (h : Flat w) : Flat (w.link i [x]) := by
  intro a b q
  have hne : a :: b :: q ≠ [x] := by simp
  exact (Function.update_of_ne hne _ _).trans (h a b q)

private theorem step_asked {α : Type} {next : q.Answer → Dialogue Syscall Syscall.Answer α}
    {w : Guarded} {fs : Vfs} (h : Vfs.Acts q w.fs a fs) (hflat : Flat fs) :
    Step (savesEnv rel waiting) (.ask q next, w)
      (next a, ⟨fs, looksAfter rel q a w, w.harmed ∨ Harms waiting w.fs fs⟩) :=
  .answered ⟨h, hflat.isTree, rfl, Iff.rfl⟩

/-- An application saves by renaming. -/
private theorem step_saved {α : Type} {d : Dialogue Syscall Syscall.Answer α} {w : Guarded}
    {E : Env Syscall Syscall.Answer Guarded} {b p : RelPath} (waiting : List FileId)
    (hothers : E.others = (savesEnv rel waiting).others) (hp : Reaches rel p) (hb : Reaches rel b)
    (hapart : Apart p b) (hflat : Flat (w.fs.rename p b)) :
    Step E (d, w) (d, ⟨w.fs.rename p b, w.looks, w.harmed⟩) :=
  .others (hothers ▸ ⟨⟨.renamed p b hp hb hapart, fun _ _ ↦ rfl⟩, hflat.isTree, rfl, Iff.rfl⟩)

/-- What an application has written, and not yet saved at `f`. -/
private def written : Vfs :=
  ⟨fun p ↦ if p = ["g"] then some ⟨1, 2⟩ else none,
    fun _ ↦ ⟨⟨⟨0, 0⟩, 1, 0, 0⟩, false, .absent, .absent, .absent, .absent, true⟩, fun _ ↦ False⟩

private theorem written_flat : Flat written := by
  intro x y q
  simp [written]

private theorem written_scratch : written.names (scratchName ["f"] 1) = none := by decide

private theorem reaches_g : Reaches ["f"] ["g"] := reaches_of_head (by decide) rfl

private theorem reaches_f : Reaches ["f"] ["f"] := reaches_of_head (by decide) rfl

/-- The save comes before the pass looks, and is kept. -/
theorem save_kept : ∃ (s m₁ m₂ : Instant) (w : Guarded),
    Survives ((savesEnv ["f"] []).under (Timely ["f"])) ⟨1, 2⟩ s
      [m₁, m₂, (.done (.ok (.kept .neverUploaded), 0), w)] := by
  have htree : (written.rename ["g"] ["f"]).IsTree := written_flat.rename.isTree
  let w : Guarded := ⟨(Guarded.start written).fs.rename ["g"] ["f"], [], False⟩
  have hfound : w.fs.names ["f"] = some ⟨1, 2⟩ := by decide
  refine ⟨(_, w), _, _, _, save_survives written none [] ["f"] 0 "A" none 0 _ _ written_flat.isTree
    ?_ (.single (step_saved [] rfl reaches_g reaches_f (by decide) written_flat.rename)) (.cons_cons
      (step_looked (q := .fstatat _) (a := .ok ⟨⟨1, 2⟩, 1, 0, 0⟩) ⟨⟨_, hfound, rfl⟩, rfl⟩ htree
        trivial) (.cons_cons
      (step_looked (q := .getxattr _ _) (a := .ok .absent) ⟨⟨_, hfound, rfl⟩, rfl⟩ htree trivial)
      (.cons_cons
      (step_looked (q := .getxattr _ _) (a := .ok .absent) ⟨⟨_, hfound, rfl⟩, rfl⟩ htree trivial)
      (.singleton _)))) ⟨1, 2⟩ ⟨["f"], hfound⟩ id ?_⟩
  · intro i hi
    rw [written_scratch] at hi
    cases hi
  · exact Or.inr (Or.inl ⟨Nat.one_pos, rfl⟩)

private theorem written_not_named : ¬ written.Named ⟨1, 3⟩ := by
  rintro ⟨p, hp⟩
  simp only [written] at hp
  split at hp <;> cases hp

/-- What was saved has no name once the placeholder is renamed over it. -/
private theorem not_named_displaced : ¬ (((written.rename ["g"] ["f"]).link ⟨1, 3⟩
    (scratchName ["f"] 1)).rename (scratchName ["f"] 1) ["f"]).Named ⟨1, 2⟩ := by
  rintro ⟨p, hp⟩
  have hscratch : ∀ r, scratchName ["f"] 1 ++ r = ".f.hydration-1" :: r := fun _ ↦ rfl
  simp only [Vfs.rename, Vfs.link, written, hscratch, Function.update_apply] at hp
  split at hp
  · split at hp
    · cases hp
    · simp at hp
  · split at hp
    · cases hp
    · split at hp
      · cases hp
      · split at hp
        · cases hp
        · rename_i hg
          split at hp
          · rename_i heq
            exact hg (heq ▸ List.prefix_rfl)
          · cases hp

/-- The pass has found nothing, the application saves, and the placeholder cannot be linked. -/
private theorem reaches_displacing : ∃ (next : Except IoError Unit → _) (w : Guarded),
    Relation.ReflTransGen (Step (savesEnv ["f"] []))
      (Placer.upsert none [] ["f"] 0 "A" none 0, Guarded.start written)
      (.ask (.renameat (scratchName ["f"] 1) ["f"]) next, w)
    ∧ (∃ d, next (.ok ()) = .done d)
    ∧ w.fs.names = ((written.rename ["g"] ["f"]).link ⟨1, 3⟩ (scratchName ["f"] 1)).names
    ∧ w.fs.inodes ⟨1, 2⟩ = written.inodes ⟨1, 2⟩ ∧ (w.fs.inodes ⟨1, 3⟩).isDir = false
    ∧ ¬ w.fs.held ⟨1, 2⟩ := by
  have hflat : Flat (written.rename ["g"] ["f"]) := written_flat.rename
  refine ⟨_, _, .head (step_asked (q := .fstatat _) (a := .error ⟨.other, some enoent, ""⟩)
      ⟨rfl, fun _ _ h ↦ by cases h⟩ written_flat)
    (.head (step_asked (q := .tmpfile) (a := .ok ⟨1, 3⟩)
      ⟨⟨written_not_named, id⟩, written.inodes ⟨1, 2⟩, rfl, rfl⟩ written_flat)
    (.head (step_asked (q := .fsetxattr _ _ _) (a := .ok ()) rfl written_flat)
    (.head (step_asked (q := .fsetxattr _ _ _) (a := .ok ()) rfl written_flat)
    (.head (step_asked (q := .ftruncate _ _) (a := .ok ()) ⟨⟨⟨0, 0⟩, 0, 0, 0⟩, rfl, rfl⟩
      written_flat)
    (.head (step_asked (q := .stamp _) (a := .ok ()) rfl written_flat)
    (.head (step_saved [] rfl reaches_g reaches_f (by decide) hflat)
    (.head (step_asked (q := .linkat _ _) (a := .error ⟨.other, some eexist, ""⟩) ⟨rfl, ?_⟩
      hflat)
    (.head (step_asked (q := .unlinkat _) (a := .error ⟨.other, some enoent, ""⟩)
      ⟨rfl, fun _ _ h ↦ by cases h⟩ hflat)
    (.head (step_asked (q := .linkat _ _) (a := .ok ()) ⟨by decide, rfl⟩ hflat.link)
      .refl))))))))), ⟨_, rfl⟩, rfl, rfl, rfl, ?_⟩
  · rintro i p heq -
    cases heq
    exact Option.some_ne_none _
  · rintro (h | h)
    · exact absurd h (by decide)
    · exact h

/-- What an application saves between the look of a pass and the placeholder is lost. -/
theorem save_displaced : ¬ ∀ (fs : Vfs) (existing : Option RelPath) (waiting : List FileId)
    (rel : RelPath) (size : ℕ) (cloudId : String) (etag : Option String) (seq : ℕ) (s : Instant)
    (run : List Instant), fs.IsTree →
    (∀ i, fs.names (scratchName rel (seq + 1)) = some i → ¬ Unsent waiting i (fs.inodes i)) →
    Relation.ReflTransGen (Step (savesEnv rel waiting))
      (Placer.upsert existing waiting rel size cloudId etag seq, Guarded.start fs) s →
    (s :: run).IsChain (Step (savesEnv rel waiting)) → ∀ i, s.2.fs.Named i → ¬ s.2.fs.held i →
    Unsent waiting i (s.2.fs.inodes i) → Survives (savesEnv rel waiting) i s run := by
  intro hall
  obtain ⟨next, w, hs, ⟨d, hdone⟩, hnames, hsaved, hdir, hheld⟩ := reaches_displacing
  have hname : w.fs.names ["f"] = some ⟨1, 2⟩ := hnames ▸ by decide
  have hscratch : w.fs.names (scratchName ["f"] 1) = some ⟨1, 3⟩ := hnames ▸ by decide
  have hflat : Flat (w.fs.rename (scratchName ["f"] 1) ["f"]) :=
    Flat.rename (x := ".f.hydration-1") (y := "f") fun x y q ↦
      (congrFun hnames _).trans (written_flat.rename.link x y q)
  have hlost : ¬ (w.fs.rename (scratchName ["f"] 1) ["f"]).Named ⟨1, 2⟩ := by
    rintro ⟨p, hp⟩
    simp only [Vfs.rename, hnames] at hp
    exact not_named_displaced ⟨p, hp⟩
  have hacts : Vfs.Acts (.renameat (scratchName ["f"] 1) ["f"]) w.fs (.ok ())
      (w.fs.rename (scratchName ["f"] 1) ["f"]) := by
    refine ⟨by decide, ⟨1, 3⟩, hscratch, fun j hj ↦ ?_, ?_⟩
    · obtain rfl : ⟨1, 2⟩ = j := Option.some_inj.mp (hname.symm.trans hj)
      rw [hsaved, hdir]
      rfl
    · rw [hname, if_neg (by decide)]
  have hstep : Step (savesEnv ["f"] []) 
      (.ask (.renameat (scratchName ["f"] 1) ["f"]) next, w) _ := step_asked hacts hflat
  have hfree : ∀ i, written.names (scratchName ["f"] 1) = some i →
      ¬ Unsent [] i (written.inodes i) := by
    intro i hi
    rw [written_scratch] at hi
    cases hi
  rcases hall written none [] ["f"] 0 "A" none 0 _ [_] written_flat.isTree hfree hs
      (.cons_cons hstep (.singleton _)) ⟨1, 2⟩ ⟨["f"], hname⟩ hheld
      (Or.inr (Or.inl (hsaved ▸ ⟨Nat.one_pos, rfl⟩))) with hkept | hended
  · exact hlost (hkept _ (List.mem_singleton_self _)).1
  -- the one step of the run is an answer, so no other process has taken the name
  · obtain ⟨before, p, u, v, after, heq, -⟩ := hended
    match before with
    | [] =>
      obtain ⟨⟨rfl, -⟩, ⟨hnext, -⟩, -⟩ := by simpa only [List.nil_append, List.cons.injEq,
        Prod.mk.injEq] using heq
      cases hdone.symm.trans hnext
    | _ :: [] => simp at heq
    | _ :: _ :: before => simp at heq

end HydrationAPI.Client
