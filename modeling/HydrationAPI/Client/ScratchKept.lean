import HydrationAPI.Client.SwapSafety

/-!
# What a scratch name preserves

A conditional replacement that could not put the target back leaves it under a scratch name, where
the sweep leaves it alone and the next conditional replacement passes over the name. To create a
placeholder where something is already, the scratch name is unlinked first, whatever has it, and the
counter that makes it starts again with every placer.
-/

namespace HydrationAPI.Client

open Dialogue Errand

/-- What is asked of a placer. -/
inductive PlacerCall where
  | place (rel : RelPath) (size : ℕ) (cloudId : String) (etag : Option String)
  | placeIfUnchanged (tries : ℕ) (rel : RelPath) (size : ℕ) (cloudId : String)
      (etag : Option String) (expected : Stat)
  | sweepScratch (visits : ℕ)

/-- The program of a call, without what it answers. -/
def PlacerCall.program : PlacerCall → Placer Unit
  | place rel size cloudId etag => Placer.place rel size cloudId etag
  | placeIfUnchanged tries rel size cloudId etag expected => do
    let _ ← Placer.placeIfUnchanged tries rel size cloudId etag expected
    pure ()
  | sweepScratch visits => do
    let _ ← Placer.sweepScratch visits
    pure ()

/-! ## One file among the calls -/

/-- What is below the root, and whether a file has been unlinked or overwritten by a placer. -/
structure Minded where
  fs : Vfs
  struck : Prop

/-- A call that succeeds takes a name of the file, or changes what is in it. -/
def Strikes (f : FileId) : (q : Syscall) → q.Answer → Vfs → Prop
  | .unlinkat p, .ok _, w => w.names p = some f
  | .renameat a b, .ok _, w => w.names b = some f ∧ w.names a ≠ some f
  | .fsetxattr fd _ _, .ok _, _ | .ftruncate fd _, .ok _, _ | .stamp fd, .ok _, _ => fd = f
  | _, _, _ => False

/-- A placer alone with the file. -/
def mindedEnv (f : FileId) : Env Syscall Syscall.Answer Minded :=
  ⟨fun q w a w' ↦ Vfs.Acts q w.fs a w'.fs ∧ (w'.struck ↔ w.struck ∨ Strikes f q a w.fs),
    fun _ _ ↦ False⟩

/-- The file at the start of a call. Its number is not given to another file while it exists. -/
def Minded.start (f : FileId) (w : Minded) : Minded :=
  { w with fs := { w.fs with held := fun i ↦ i = f } }

/-- Placers, each with the counter of its scratch names. -/
structure Desk where
  world : Minded
  counters : ℕ → ℕ

/-- What happens after the file has been preserved, as long as each call `spares` it in the state it
finds: calls of any placer, of which some end early with their process, placers that start again,
and others who leave the file unmarked. -/
inductive Later (f : FileId) (spares : PlacerCall → ℕ → Vfs → Prop) (d : Desk) : Desk → Prop
  | called (k : ℕ) (c : PlacerCall) (r : Except IoError Unit) (seq : ℕ) (w : Minded) :
      spares c (d.counters k) d.world.fs →
      Relation.ReflTransGen (Step (mindedEnv f)) (c.program (d.counters k), d.world.start f)
        (.done (r, seq), w) →
      Later f spares d ⟨w, Function.update d.counters k seq⟩
  | died (k : ℕ) (c : PlacerCall) (p : Dialogue Syscall Syscall.Answer (Except IoError Unit × ℕ))
      (w : Minded) : spares c (d.counters k) d.world.fs →
      Relation.ReflTransGen (Step (mindedEnv f)) (c.program (d.counters k), d.world.start f)
        (p, w) →
      Later f spares d ⟨w, Function.update d.counters k 0⟩
  | restarted (k : ℕ) : Later f spares d ⟨d.world, Function.update d.counters k 0⟩
  | others (fs : Vfs) : Foreign (fun _ ↦ True) d.world.fs fs →
      (fs.inodes f).dehydrated.isSome = false →
      Later f spares d ⟨{ d.world with fs := fs }, d.counters⟩

/-- The file is unmarked, and no placer has unlinked or overwritten it. -/
structure Intact (f : FileId) (w : Minded) : Prop where
  unstruck : ¬ w.struck
  unmarked : (w.fs.inodes f).dehydrated.isSome = false

/-- A call in whose way the file is not: it does not have the path that is placed at, nor, if there
is something at that path, the next scratch name; a path that it has is replaced only if another
state of it was approved. -/
def SparesFile (f : FileId) : PlacerCall → ℕ → Vfs → Prop
  | .place rel _ _ _, seq, w => w.names rel ≠ some f
      ∧ (w.names (scratchName rel (seq + 1)) = some f → w.names rel = none)
  | .placeIfUnchanged _ rel _ _ _ expected, _, w => w.names rel = some f → expected ≠ w.stat f
  | .sweepScratch _, _, _ => True

/-! ## What one system call leaves of the file -/

variable {f fd : FileId} {node : Inode} {q : Syscall} {a : q.Answer} {w w' : Minded} {seq : ℕ}

theorem Vfs.Acts.inodes_eq {w w' : Vfs} (h : Vfs.Acts q w a w') (hold : ¬ w.Fresh f)
    (hmiss : ¬ Strikes f q a w) : w'.inodes f = w.inodes f := by
  match a with
  | .error e => rw [h.1]
  | .ok r =>
    match q with
    | .mkdirat p =>
      obtain ⟨-, i, dir, hfresh, -, rfl⟩ := h
      exact Function.update_of_ne (fun heq : f = i ↦ hold (heq ▸ hfresh)) _ _
    | .tmpfile =>
      obtain ⟨hfresh, made, -, rfl⟩ := h
      exact Function.update_of_ne (fun heq : f = r ↦ hold (heq ▸ hfresh)) _ _
    | .fsetxattr .. =>
      obtain rfl : w' = _ := h
      exact Function.update_of_ne (fun heq ↦ hmiss heq.symm) _ _
    | .ftruncate .. =>
      obtain ⟨st, -, rfl⟩ := h
      exact Function.update_of_ne (fun heq ↦ hmiss heq.symm) _ _
    | .stamp .. =>
      obtain rfl : w' = _ := h
      exact Function.update_of_ne (fun heq ↦ hmiss heq.symm) _ _
    | .fstat .. | .fstatat .. | .readDir .. | .isMarked .. | .getxattr .. => rw [h.2]
    | .linkat .. =>
      obtain ⟨-, rfl⟩ := h
      rfl
    | .exchange .. =>
      obtain ⟨-, -, -, rfl⟩ := h
      rfl
    | .unlinkat .. =>
      obtain ⟨j, -, -, rfl⟩ := h
      rfl
    | .renameat x y =>
      obtain ⟨-, j, -, -, rfl⟩ := h
      split <;> rfl

/-- Gives no name and takes none. -/
def Vfs.Nameless : Syscall → Prop
  | .mkdirat _ | .linkat _ _ | .exchange _ _ | .unlinkat _ | .renameat _ _ => False
  | _ => True

theorem Vfs.Acts.names_eq {w w' : Vfs} (h : Vfs.Acts q w a w') (hq : Vfs.Nameless q) :
    w'.names = w.names := by
  match a with
  | .error e => rw [h.1]
  | .ok r =>
    match q with
    | .tmpfile =>
      obtain ⟨-, made, -, rfl⟩ := h
      rfl
    | .fsetxattr .. =>
      obtain rfl : w' = _ := h
      rfl
    | .ftruncate .. =>
      obtain ⟨st, -, rfl⟩ := h
      rfl
    | .stamp .. =>
      obtain rfl : w' = _ := h
      rfl
    | .fstat .. | .fstatat .. | .readDir .. | .isMarked .. | .getxattr .. => rw [h.2]
    | .mkdirat .. | .linkat .. | .exchange .. | .unlinkat .. | .renameat .. => exact hq.elim

/-- The file is as it was when the call began. -/
structure Whole (f : FileId) (node : Inode) (w : Minded) : Prop where
  unstruck : ¬ w.struck
  inode : w.fs.inodes f = node
  held : w.fs.held f

theorem stable_minded (P : Minded → Prop) : Stable (mindedEnv f) P := fun _ _ h _ ↦ h.elim

theorem Whole.acts (h : Whole f node w) (ha : (mindedEnv f).answers q w a w')
    (hmiss : ¬ Strikes f q a w.fs) : Whole f node w' :=
  ⟨fun hstruck ↦ (ha.2.mp hstruck).elim h.unstruck hmiss,
    (ha.1.inodes_eq (fun hfresh ↦ hfresh.2 h.held) hmiss).trans h.inode, ha.1.held h.held⟩

/-- The file is as it was, and so is a property of the names. -/
structure WholeWith (Q : (RelPath → Option FileId) → Prop) (f : FileId) (node : Inode)
    (w : Minded) : Prop where
  whole : Whole f node w
  names : Q w.fs.names

/-- A property of the names that another file at another path does not change. -/
def Unmoved (Q : (RelPath → Option FileId) → Prop) (f : FileId) (rel : RelPath) : Prop :=
  ∀ names p i, p ≠ rel → i ≠ f → Q names → Q (Function.update names p (some i))

section

variable {Q : (RelPath → Option FileId) → Prop} {rel : RelPath} {α : Type}
  {post : Except IoError α → ℕ → Minded → Prop}

theorem WholeWith.nameless (h : WholeWith Q f node w) (ha : (mindedEnv f).answers q w a w')
    (hq : Vfs.Nameless q) (hmiss : ¬ Strikes f q a w.fs) : WholeWith Q f node w' :=
  ⟨h.whole.acts ha hmiss, (ha.1.names_eq hq).symm ▸ h.names⟩

theorem lasting_minded (hpost : ∀ r s w, post r s w → Whole f node w) :
    Lasting (mindedEnv f) (Whole f node) post :=
  ⟨fun r s ↦ stable_minded (post r s), hpost⟩

/-! ## What a placeholder is built of -/

theorem WholeWith.mkdirat {p : RelPath} {a : Syscall.Answer (.mkdirat p)} (hQ : Unmoved Q f rel)
    (h : WholeWith Q f node w) (ha : (mindedEnv f).answers (.mkdirat p) w a w') (hp : p ≠ rel) :
    WholeWith Q f node w' := by
  refine ⟨h.whole.acts ha id, ?_⟩
  match a, ha.1 with
  | .ok _, ⟨_, i, dir, hfresh, _, heq⟩ =>
    rw [heq]
    exact hQ _ p i hp (fun hi ↦ hfresh.2 (hi ▸ h.whole.held)) h.names
  | .error _, ⟨heq, _⟩ => exact heq.symm ▸ h.names

/-- No path on the way to a path is that path. -/
theorem ne_of_mem_parents {p : RelPath} (h : p ∈ rel.dropLast.inits.tail) : p ≠ rel := by
  rintro rfl
  have hprefix : p <+: p.dropLast := (List.mem_inits _ _).mp (List.mem_of_mem_tail h)
  have hlength := hprefix.length_le
  rw [List.length_dropLast] at hlength
  have hnil : p = [] := List.length_eq_zero_iff.mp (by omega)
  rw [hnil] at h
  cases h

theorem minded_makeParents (hQ : Unmoved Q f rel) (hw : WholeWith Q f node w) :
    Meets (mindedEnv f) (Whole f node) (fun _ s w ↦ WholeWith Q f node w ∧ s = seq)
      (Placer.makeParents rel) seq w :=
  keeps_mkdirs (stable_minded _) (fun _ h ↦ h.whole) _
    (fun _ hp _ _ _ hv ha ↦ hv.mkdirat hQ ha (ne_of_mem_parents hp)) hw

theorem minded_placeholder (size : ℕ) (cloudId : String) (etag : Option String)
    (hw : WholeWith Q f node w) :
    Meets (mindedEnv f) (Whole f node)
      (fun r s w ↦ (WholeWith Q f node w ∧ s = seq)
        ∧ ∀ fd, r = .ok fd → WholeWith Q f node w ∧ fd ≠ f)
      (Placer.placeholder size cloudId etag) seq w := by
  refine keeps_placeholder (stable_minded _) (fun _ ↦ stable_minded _) (fun _ h ↦ h.whole)
    (fun _ _ h ↦ h.1) (fun v a v' hv ha ↦ ?_) (fun fd q a v v' hq hv ha ↦ ?_) size cloudId etag hw
  · have hv' := hv.nameless ha trivial id
    refine ⟨hv', fun fd hr ↦ ⟨hv', ?_⟩⟩
    rintro rfl
    obtain ⟨⟨hfresh, -⟩, -⟩ := hr ▸ ha
    exact hfresh.2 hv.whole.held
  · have hmiss : Vfs.Nameless q ∧ ¬ Strikes f q a v.fs := match q, a with
      | .fsetxattr _ _ _, .ok _ | .ftruncate _ _, .ok _ | .stamp _, .ok _ =>
        ⟨trivial, fun h ↦ hv.2 (hq.symm.trans h)⟩
      | .fsetxattr _ _ _, .error _ | .ftruncate _ _, .error _ | .stamp _, .error _ => ⟨trivial, id⟩
    exact ⟨hv.1.nameless ha hmiss.1 hmiss.2, hv.2⟩

end

/-! ## Each call leaves the file as it was -/

variable {rel s : RelPath} {i : FileId}

theorem lasting_whole {α : Type} : Lasting (mindedEnv f) (Whole f node)
    fun (_ : Except IoError α) (_ : ℕ) w ↦ Whole f node w := lasting_minded fun _ _ _ h ↦ h

theorem Whole.unlinkat {a : Syscall.Answer (.unlinkat s)} (h : Whole f node w)
    (ha : (mindedEnv f).answers (.unlinkat s) w a w') (hs : w.fs.names s ≠ some f) :
    Whole f node w' :=
  h.acts ha (match a with | .ok _ => hs | .error _ => id)

theorem Vfs.names_link {w : Vfs} {p : RelPath} : (w.link i p).names p = some i := by
  rw [Vfs.link]
  exact Function.update_self ..

/-- A name that is unlinked leads nowhere. -/
theorem Vfs.names_unlink {w : Vfs} {p : RelPath} : (w.unlink p).names p = none := by
  rw [Vfs.unlink]
  exact Function.update_self ..

theorem names_unlink_ne {w : Vfs} {p q : RelPath} (h : w.names q ≠ some f) :
    (w.unlink p).names q ≠ some f := by
  change Function.update w.names p none q ≠ some f
  rw [Function.update_apply]
  split
  · exact Option.some_ne_none f ∘ Eq.symm
  · exact h

theorem names_link_ne {w : Vfs} {p q : RelPath} (hi : i ≠ f) (h : w.names q ≠ some f) :
    (w.link i p).names q ≠ some f := by
  change Function.update w.names p (some i) q ≠ some f
  rw [Function.update_apply]
  split
  · exact fun heq ↦ hi (Option.some_inj.mp heq)
  · exact h

theorem minded_linkIntoPlace (hfd : fd ≠ f) (hrel : w.fs.names rel ≠ some f)
    (hscratch : w.fs.names (scratchName rel seq) = some f → w.fs.names rel = none)
    (hw : Whole f node w) :
    Meets (mindedEnv f) (Whole f node) (fun _ _ w ↦ Whole f node w)
      (Placer.linkIntoPlace fd rel seq) seq w := by
  refine meets_attempt_sys (stable_minded fun v ↦ v = w) rfl (fun _ h ↦ h ▸ hw) ?_
  rintro v a w₁ rfl ha
  have hw₁ := hw.acts ha id
  match a with
  | .ok _ => exact meets_pure lasting_whole hw₁
  | .error e =>
    dsimp only
    split
    · exact meets_throw lasting_whole hw₁
    -- the path is taken, so that the file does not have the scratch name
    rename_i hexists
    obtain ⟨⟨heq, htaken⟩, -⟩ := ha
    have hunder : w₁.fs.names (scratchName rel seq) ≠ some f := fun h ↦
      htaken fd rel rfl (not_not.mp hexists) (hscratch (heq ▸ h))
    have hrel₁ : w₁.fs.names rel ≠ some f := heq.symm ▸ hrel
    refine meets_attempt_sys (stable_minded fun v ↦ v = w₁) rfl (fun _ h ↦ h ▸ hw₁) ?_
    rintro v a w₂ rfl ha
    have hw₂ := hw₁.unlinkat ha hunder
    have hrel₂ : w₂.fs.names rel ≠ some f := by
      match a, ha.1 with
      | .ok _, ⟨_, _, _, heq'⟩ => exact heq'.symm ▸ names_unlink_ne hrel₁
      | .error _, ⟨heq', _⟩ => exact heq'.symm ▸ hrel₁
    refine meets_sys_bind (q := .linkat fd _) lasting_whole
      (stable_minded fun v ↦ v = w₂) rfl
      (fun _ h ↦ h ▸ hw₂) ?_ fun _ _ _ hv ha ↦ (hv ▸ hw₂).acts ha id
    rintro v r w₃ rfl ha
    have hw₃ := hw₂.acts ha id
    obtain ⟨⟨-, heq₃⟩, -⟩ := ha
    have hrel₃ : w₃.fs.names rel ≠ some f := heq₃.symm ▸ names_link_ne hfd hrel₂
    have hunder₃ : w₃.fs.names (scratchName rel seq) ≠ some f := by
      rw [heq₃, Vfs.names_link]
      exact fun h ↦ hfd (Option.some_inj.mp h)
    refine meets_attempt_sys (stable_minded fun v ↦ v = w₃) rfl (fun _ h ↦ h ▸ hw₃) ?_
    rintro v a w₄ rfl ha
    match a with
    | .ok _ => exact meets_pure lasting_whole (hw₃.acts ha fun h ↦ hrel₃ h.1)
    | .error e =>
      have hw₄ := hw₃.acts ha id
      have hunder₄ : w₄.fs.names (scratchName rel seq) ≠ some f := ha.1.1.symm ▸ hunder₃
      refine meets_attempt_sys (stable_minded fun v ↦ v = w₄) rfl (fun _ h ↦ h ▸ hw₄) ?_
      rintro v a w₅ rfl ha
      exact meets_throw lasting_whole (hw₄.unlinkat ha hunder₄)

/-- A path that the file does not have is placed at, and the next scratch name is not the file's. -/
theorem minded_place (size : ℕ) (cloudId : String) (etag : Option String)
    (hspares : SparesFile f (.place rel size cloudId etag) seq w.fs) (hw : Whole f node w) :
    Meets (mindedEnv f) (Whole f node) (fun _ _ w ↦ Whole f node w)
      (Placer.place rel size cloudId etag) seq w := by
  have hQ : Unmoved (fun names ↦ names rel ≠ some f
      ∧ (names (scratchName rel (seq + 1)) = some f → names rel = none)) f rel := by
    rintro names p i hp hi ⟨hrel, hscratch⟩
    rw [Function.update_of_ne hp.symm]
    refine ⟨hrel, fun h ↦ hscratch ?_⟩
    rw [Function.update_apply] at h
    split at h
    · exact absurd (Option.some_inj.mp h) hi
    · exact h
  refine meets_bind lasting_whole (minded_makeParents hQ ⟨hw, hspares⟩)
    (fun _ _ w _ hmkdirs ↦ ?_) fun _ _ _ _ h ↦ h.1.whole
  obtain ⟨hw, rfl⟩ := hmkdirs
  refine meets_bind lasting_whole (minded_placeholder size cloudId etag hw)
    (fun fd _ w _ hmade ↦ ?_) fun _ _ _ _ h ↦ h.1.1.whole
  obtain ⟨⟨hw, rfl⟩, hfd⟩ := hmade
  exact meets_modify (meets_state
    (minded_linkIntoPlace (hfd fd rfl).2 hw.names.1 hw.names.2 hw.whole))

theorem minded_discardPlaceholder {placed : Stat} (hplaced : placed.file = fd) (hfd : fd ≠ f)
    (hw : Whole f node w) :
    Meets (mindedEnv f) (Whole f node) (fun _ _ w ↦ Whole f node w)
      (Placer.discardPlaceholder s placed) seq w := by
  refine meets_sys_bind (q := .fstatat s) lasting_whole (stable_minded _) hw (fun _ h ↦ h)
    (fun v found w hv ha ↦ ?_)
    fun _ _ _ hv ha ↦ hv.acts ha id
  have hw := hv.acts ha id
  obtain ⟨⟨⟨j, hj, hfound⟩, heq⟩, -⟩ := ha
  split
  · exact meets_throw lasting_whole hw
  rename_i hsame
  have hs : w.fs.names s ≠ some f := by
    rw [heq, hj]
    intro h
    have hj' : found.file = j := congrArg Stat.file hfound
    have hjf : j = f := Option.some_inj.mp h
    exact hfd (hplaced.symm.trans ((not_not.mp hsame).symm.trans (hj'.trans hjf)))
  refine safe_ask (stable_minded fun v ↦ v = w) rfl (fun _ h ↦ h ▸ hw) ?_
  rintro v a w' rfl ha
  exact meets_lift lasting_whole (hw.unlinkat ha hs)

theorem minded_restoreTarget {placed : Stat} (hplaced : placed.file = fd) (hfd : fd ≠ f)
    (hw : Whole f node w) :
    Meets (mindedEnv f) (Whole f node) (fun _ _ w ↦ Whole f node w)
      (Placer.restoreTarget s rel placed) seq w := by
  refine meets_attempt_sys (stable_minded _) hw (fun _ h ↦ h) fun v a v' hv ha ↦ ?_
  match a with
  | .error e => exact meets_throw lasting_whole (hv.acts ha id)
  | .ok _ => exact minded_discardPlaceholder hplaced hfd (hv.acts ha id)

theorem minded_linkScratch {Q : (RelPath → Option FileId) → Prop}
    (hQ : ∀ names p, Q names → Q (Function.update names p (some fd))) (tries : ℕ)
    (hw : WholeWith Q f node w) :
    Meets (mindedEnv f) (Whole f node) (fun _ _ w ↦ WholeWith Q f node w)
      (Placer.linkScratch fd rel tries) seq w := by
  have hlasts : Lasting (mindedEnv f) (Whole f node) fun (_ : Except IoError (Option RelPath))
      (_ : ℕ) w ↦ WholeWith Q f node w := lasting_minded fun _ _ _ h ↦ h.whole
  induction tries generalizing seq w with
  | zero => exact meets_pure hlasts hw
  | succ tries ih =>
    refine meets_modify (meets_state ?_)
    refine meets_attempt_sys (stable_minded _) hw (fun _ h ↦ h.whole) fun v a v' hv ha ↦ ?_
    have hwhole := hv.whole.acts ha id
    match a with
    | .ok _ =>
      obtain ⟨⟨-, heq⟩, -⟩ := ha
      exact meets_pure hlasts ⟨hwhole, heq.symm ▸ hQ _ _ hv.names⟩
    | .error e =>
      obtain ⟨⟨heq, -⟩, -⟩ := ha
      have hv' : WholeWith Q f node v' := ⟨hwhole, heq.symm ▸ hv.names⟩
      dsimp only
      split
      · exact ih hv'
      · exact meets_throw hlasts hv'

/-- What is at a path is replaced only in the state that was approved, which is not the file's. -/
theorem minded_placeIfUnchanged (tries size : ℕ) (cloudId : String) (etag : Option String)
    (expected : Stat)
    (hspares : w.fs.names rel = some f → expected ≠ { node.stat with file := f })
    (hw : Whole f node w) :
    Meets (mindedEnv f) (Whole f node) (fun _ _ w ↦ Whole f node w)
      (Placer.placeIfUnchanged tries rel size cloudId etag expected) seq w := by
  have hQ : Unmoved (fun names ↦ names rel = some f → expected ≠ { node.stat with file := f }) f
      rel := by
    intro names p i hp _ h
    rw [Function.update_of_ne hp.symm]
    exact h
  refine meets_bind lasting_whole (minded_makeParents hQ ⟨hw, hspares⟩)
    (fun _ _ w _ hmkdirs ↦ ?_) fun _ _ _ _ h ↦ h.1.whole
  refine meets_bind lasting_whole (minded_placeholder size cloudId etag hmkdirs.1)
    (fun fd _ w _ hmade ↦ ?_) fun _ _ _ _ h ↦ h.1.1.whole
  have hfd := (hmade.2 fd rfl).2
  refine meets_sys_bind (q := .fstat fd) lasting_whole (stable_minded _) hmade.1.1 (fun _ h ↦ h.whole)
    (fun v placed w hv ha ↦ ?_) fun _ _ _ hv ha ↦ hv.whole.acts ha id
  have hw := hv.nameless ha trivial id
  have hplaced : placed.file = fd := congrArg Stat.file ha.1.1
  have hlink : ∀ names p, (names rel = some f → expected ≠ { node.stat with file := f }) →
      Function.update names p (some fd) rel = some f →
      expected ≠ { node.stat with file := f } := by
    intro names p h hrel
    rw [Function.update_apply] at hrel
    split at hrel
    · exact absurd (Option.some_inj.mp hrel) hfd
    · exact h hrel
  refine meets_bind lasting_whole (minded_linkScratch hlink tries hw)
    (fun linked _ w _ hlinked ↦ ?_) fun _ _ _ _ h ↦ h.whole
  match linked with
  | none => exact meets_pure lasting_whole hlinked.whole
  | some s =>
    refine meets_attempt_sys (stable_minded fun v ↦ v = w) rfl (fun _ h ↦ h ▸ hlinked.whole) ?_
    rintro v a v' rfl ha
    have hv' := hlinked.whole.acts ha id
    match a with
    | .error e =>
      refine meets_bind lasting_whole (minded_discardPlaceholder hplaced hfd hv')
        (fun _ _ w _ hw ↦ ?_) fun _ _ _ _ hw ↦ hw
      split
      · exact meets_pure lasting_whole hw
      · exact meets_throw lasting_whole hw
    | .ok _ =>
      obtain ⟨⟨-, -, -, heq⟩, -⟩ := ha
      have hunder : v'.fs.names s = v.fs.names rel := heq.symm ▸ Vfs.names_exchange_left
      refine meets_attempt_sys (stable_minded fun u ↦ u = v') rfl (fun _ h ↦ h ▸ hv') ?_
      rintro u a u' rfl ha
      have hu' := hv'.acts ha id
      match a with
      | .error inspect =>
        exact meets_bind lasting_whole (minded_restoreTarget hplaced hfd hu')
          (fun _ _ w _ hw ↦ meets_throw lasting_whole hw) fun _ _ _ _ hw ↦ hw
      | .ok found =>
        dsimp only
        split
        · rename_i happroved
          obtain ⟨⟨⟨j, hj, hfound⟩, heq'⟩, -⟩ := ha
          have hs : u'.fs.names s ≠ some f := by
            intro h
            rw [heq'] at h
            have hjf : j = f := Option.some_inj.mp (hj.symm.trans h)
            refine hlinked.names (hunder.symm.trans h) (happroved.symm.trans (hfound.trans ?_))
            rw [hjf, Vfs.stat, hv'.inode]
          refine meets_sys_bind (q := .unlinkat s) lasting_whole (stable_minded fun v ↦ v = u') rfl
            (fun _ h ↦ h ▸ hu') ?_ ?_
          · rintro v r v' rfl ha
            exact meets_pure lasting_whole (hu'.unlinkat ha hs)
          · rintro v e v' rfl ha
            exact hu'.unlinkat ha hs
        · exact meets_bind lasting_whole (minded_restoreTarget hplaced hfd hu')
            (fun _ _ w _ hw ↦ meets_pure lasting_whole hw) fun _ _ _ _ hw ↦ hw

/-- The sweep unlinks what has the mark, which the file has not. -/
theorem minded_sweepEntries (hnode : node.dehydrated.isSome = false) (dir : RelPath)
    (entries : List (String × Option Bool)) (hw : Whole f node w) :
    Meets (mindedEnv f) (Whole f node) (fun _ _ w ↦ Whole f node w)
      (Placer.sweepEntries dir entries) seq w := by
  induction entries generalizing seq w with
  | nil => exact meets_pure lasting_whole hw
  | cons e entries ih =>
    obtain ⟨name, isDir⟩ := e
    have hrest : ∀ {seq w} (g : List RelPath × ℕ → List RelPath × ℕ), Whole f node w →
        Meets (mindedEnv f) (Whole f node) (fun _ _ w ↦ Whole f node w)
          (Placer.sweepEntries dir entries >>= fun r ↦ pure (g r)) seq w := fun g hw ↦
      meets_bind lasting_whole (ih hw) (fun _ _ w _ hw ↦ meets_pure lasting_whole hw)
        fun _ _ _ _ hw ↦ hw
    rw [Placer.sweepEntries]
    split
    · exact hrest (fun r ↦ ((dir ++ [name]) :: r.1, r.2)) hw
    · split
      · refine meets_attempt_sys (stable_minded fun v ↦ v = w) rfl (fun _ h ↦ h ▸ hw) ?_
        rintro v a w' rfl ha
        have hw' := hw.acts ha id
        match a with
        | .ok true =>
          obtain ⟨⟨⟨j, hj, hmarked⟩, heq⟩, -⟩ := ha
          have hpath : w'.fs.names (dir ++ [name]) ≠ some f := by
            intro h
            rw [heq, hj] at h
            rw [Option.some_inj.mp h, hw.inode, hnode] at hmarked
            cases hmarked
          refine meets_attempt_sys (stable_minded fun v ↦ v = w') rfl (fun _ h ↦ h ▸ hw') ?_
          rintro v gone w' rfl ha
          exact hrest (fun r ↦ (r.1, if gone.isOk then r.2 + 1 else r.2)) (hw'.unlinkat ha hpath)
        | .ok false | .error _ => exact ih hw'
      · exact ih hw

theorem minded_sweepDirs (hnode : node.dehydrated.isSome = false) (visits : ℕ)
    (stack : List RelPath) (hw : Whole f node w) :
    Meets (mindedEnv f) (Whole f node) (fun _ _ w ↦ Whole f node w)
      (Placer.sweepDirs visits stack) seq w := by
  induction visits generalizing stack seq w with
  | zero => exact meets_pure lasting_whole hw
  | succ visits ih =>
    match stack with
    | [] => exact meets_pure lasting_whole hw
    | dir :: stack =>
      refine meets_attempt_sys (stable_minded _) hw (fun _ h ↦ h) fun v a v' hv ha ↦ ?_
      have hv' := hv.acts ha id
      match a with
      | .error _ => exact ih stack hv'
      | .ok entries =>
        refine meets_bind lasting_whole (minded_sweepEntries hnode dir entries hv')
          (fun found _ w _ hw ↦ ?_) fun _ _ _ _ hw ↦ hw
        exact meets_bind lasting_whole (ih _ hw) (fun _ _ w _ hw ↦ meets_pure lasting_whole hw)
          fun _ _ _ _ hw ↦ hw

theorem minded_program (hnode : node.dehydrated.isSome = false) (c : PlacerCall)
    (hspares : SparesFile f c seq w.fs) (hw : Whole f node w) :
    Meets (mindedEnv f) (Whole f node) (fun _ _ w ↦ Whole f node w) c.program seq w := by
  match c with
  | .place rel size cloudId etag => exact minded_place size cloudId etag hspares hw
  | .placeIfUnchanged tries rel size cloudId etag expected =>
    have hspares' : w.fs.names rel = some f → expected ≠ { node.stat with file := f } := by
      intro hrel
      rw [← hw.inode]
      exact hspares hrel
    exact meets_bind lasting_whole
      (minded_placeIfUnchanged tries size cloudId etag expected hspares' hw)
      (fun _ _ w _ hw ↦ meets_pure lasting_whole hw) fun _ _ _ _ hw ↦ hw
  | .sweepScratch visits =>
    exact meets_bind lasting_whole (minded_sweepDirs hnode visits [[]] hw)
      (fun _ _ w _ hw ↦ meets_pure lasting_whole hw) fun _ _ _ _ hw ↦ hw

/-! ## Every run of calls -/

/-- Wherever a call that spares the file stops, the file is as it was. -/
theorem Intact.call {d : Desk} {k : ℕ} {c : PlacerCall}
    {r : Dialogue Syscall Syscall.Answer (Except IoError Unit × ℕ) × Minded}
    (h : Intact f d.world) (hspares : SparesFile f c (d.counters k) d.world.fs)
    (hrun : Relation.ReflTransGen (Step (mindedEnv f))
      (c.program (d.counters k), d.world.start f) r) : Intact f r.2 := by
  have hstart : Whole f (d.world.fs.inodes f) (d.world.start f) := ⟨h.unstruck, rfl, rfl⟩
  have hspares' : SparesFile f c (d.counters k) (d.world.start f).fs := match c with
    | .place .. | .placeIfUnchanged .. | .sweepScratch _ => hspares
  have hend := (minded_program h.unmarked c hspares' hstart).run hrun
  exact ⟨hend.unstruck, hend.inode.symm ▸ h.unmarked⟩

theorem Intact.later {d d' : Desk} (h : Intact f d.world) (hstep : Later f (SparesFile f) d d') :
    Intact f d'.world := by
  match hstep with
  | .called k c r seq w hspares hrun => exact h.call hspares hrun
  | .died k c p w hspares hrun => exact h.call hspares hrun
  | .restarted k => exact h
  | .others fs _ hunmarked => exact ⟨h.unstruck, hunmarked⟩

/-- **However many placers are asked for whatever, a file without the mark is neither unlinked nor
overwritten as long as every call spares it.** -/
theorem preserved_kept (f : FileId) (d d' : Desk) (h : Intact f d.world)
    (hrun : Relation.ReflTransGen (Later f (SparesFile f)) d d') : Intact f d'.world := by
  induction hrun with
  | refl => exact h
  | tail _ hstep ih => exact ih.later hstep

/-! ## Runs of a placer -/

/-- A call whose program does what the file does not notice. -/
theorem step_spared {α : Type} {q : Syscall} {next : q.Answer → Dialogue Syscall Syscall.Answer α}
    {a : q.Answer} {w w' : Vfs} {struck : Prop} (h : Vfs.Acts q w a w')
    (hmiss : ¬ Strikes f q a w) :
    Step (mindedEnv f) (.ask q next, ⟨w, struck⟩) (next a, ⟨w', struck⟩) :=
  .answered ⟨h, fun h ↦ Or.inl h, fun h ↦ h.resolve_right hmiss⟩

theorem step_struck {α : Type} {q : Syscall} {next : q.Answer → Dialogue Syscall Syscall.Answer α}
    {a : q.Answer} {w w' : Vfs} {struck : Prop} (h : Vfs.Acts q w a w') (hhit : Strikes f q a w) :
    Step (mindedEnv f) (.ask q next, ⟨w, struck⟩) (next a, ⟨w', True⟩) :=
  .answered ⟨h, fun _ ↦ Or.inr hhit, fun _ ↦ trivial⟩

private def plainInode : Inode :=
  ⟨⟨⟨0, 0⟩, 0, 0, 0⟩, false, .absent, .absent, .absent, .absent, false⟩

/-- An edit that an eviction moved aside, and the placeholder in its place. -/
private def aside : Vfs :=
  ⟨fun p ↦ if p = ["f"] then some ⟨1, 3⟩ else if p = [".f.hydration-1"] then some ⟨1, 2⟩ else none,
    fun _ ↦ plainInode, fun _ ↦ False⟩

/-- A sweep finds a scratch name of a file that has no mark. -/
private theorem sweeps : Later ⟨1, 2⟩ (SparesFile ⟨1, 2⟩) ⟨⟨aside, False⟩, fun _ ↦ 0⟩
    ⟨⟨{ aside with held := fun i ↦ i = ⟨1, 2⟩ }, False⟩, Function.update (fun _ ↦ 0) 1 0⟩ := by
  have hentries : ∀ e ∈ [(".f.hydration-1", some false)], ∃ i, aside.names ([] ++ [e.1]) = some i
      ∧ ∀ isDir, e.2 = some isDir → (aside.inodes i).isDir = isDir := by
    intro e he
    rw [List.mem_singleton.mp he]
    exact ⟨⟨1, 2⟩, by decide, fun isDir h ↦ Option.some_inj.mp h⟩
  exact .called 1 (.sweepScratch 1) (.ok ()) 0 _ trivial
    (.head (step_spared (q := .readDir []) (a := .ok [(".f.hydration-1", some false)])
      ⟨hentries, rfl⟩ id)
    (.head (step_spared (q := .isMarked [".f.hydration-1"]) (a := .ok false)
      ⟨⟨⟨1, 2⟩, by decide, by decide⟩, rfl⟩ id) .refl))

theorem preserved_swept : Intact ⟨1, 2⟩ ⟨{ aside with held := fun i ↦ i = ⟨1, 2⟩ }, False⟩ :=
  preserved_kept ⟨1, 2⟩ _ _ ⟨id, by decide⟩ (.single sweeps)

/-- A conditional replacement has left the file that was at the path under a scratch name. -/
def SwappedAside (f : FileId) (d₀ d : Desk) : Prop :=
  ∃ k tries rel size cloudId etag expected r seq w n,
    Relation.ReflTransGen (Step (mindedEnv f))
      ((PlacerCall.placeIfUnchanged tries rel size cloudId etag expected).program (d₀.counters k),
        d₀.world.start f) (.done (r, seq), w)
    ∧ d = ⟨w, Function.update d₀.counters k seq⟩ ∧ d₀.world.fs.names rel = some f
    ∧ w.fs.names (scratchName rel n) = some f

/-- An application has saved over the file that was approved. -/
private def edited : Vfs :=
  ⟨fun p ↦ if p = ["f"] then some ⟨1, 2⟩ else none, fun _ ↦ plainInode, fun _ ↦ False⟩

private theorem edited_fresh : ¬ edited.Named ⟨1, 3⟩ := by
  rintro ⟨p, hp⟩
  simp only [edited] at hp
  split at hp <;> cases hp

/-- The placeholder and the edit change places, and do not change back. -/
private theorem swaps : ∃ (r : Except IoError Unit) (w : Vfs),
    Relation.ReflTransGen (Step (mindedEnv ⟨1, 2⟩)) ((PlacerCall.placeIfUnchanged 1 ["f"] 0 "A" none
      ⟨⟨1, 1⟩, 0, 0, 0⟩).program 0, Minded.start ⟨1, 2⟩ ⟨edited, False⟩) (.done (r, 1), ⟨w, False⟩)
    ∧ w.names = (({ edited with held := fun _ ↦ False }.link ⟨1, 3⟩ [".f.hydration-1"]).exchange
      [".f.hydration-1"] ["f"]).names
    ∧ (w.inodes ⟨1, 2⟩).dehydrated.isSome = false
    ∧ (w.inodes ⟨1, 2⟩).isDir = false ∧ (w.inodes ⟨1, 3⟩).isDir = false := by
  have hne : (⟨1, 3⟩ : FileId) ≠ ⟨1, 2⟩ := by decide
  have hscratch : scratchName ["f"] 1 = [".f.hydration-1"] := by decide
  refine ⟨_, _, .head (step_spared (q := .tmpfile) (a := .ok ⟨1, 3⟩)
      ⟨⟨edited_fresh, hne⟩, plainInode, rfl, rfl⟩ id)
    (.head (step_spared (q := .fsetxattr _ _ _) (a := .ok ()) rfl hne)
    (.head (step_spared (q := .fsetxattr _ _ _) (a := .ok ()) rfl hne)
    (.head (step_spared (q := .ftruncate _ _) (a := .ok ()) ⟨⟨⟨0, 0⟩, 0, 0, 0⟩, rfl, rfl⟩ hne)
    (.head (step_spared (q := .stamp _) (a := .ok ()) rfl hne)
    (.head (step_spared (q := .fstat _) (a := .ok _) ⟨rfl, rfl⟩ id)
    (.head (step_spared (q := .linkat _ _) (a := .ok ()) ⟨by decide, rfl⟩ id)
    (.head (step_spared (q := .exchange _ _) (a := .ok ())
      ⟨by decide, by decide, by decide, rfl⟩ id)
    (.head (step_spared (q := .fstatat _) (a := .ok ⟨⟨1, 2⟩, 0, 0, 0⟩)
      ⟨⟨⟨1, 2⟩, by decide, rfl⟩, rfl⟩ id)
    (.head (step_spared (q := .exchange _ _) (a := .error ⟨.other, none, ""⟩)
      ⟨rfl, fun _ _ h ↦ by cases h⟩ id) .refl))))))))), hscratch ▸ rfl, rfl, rfl, rfl⟩

private theorem swapped_fresh {w : Vfs} (hnames : w.names = (({ edited with
    held := fun _ ↦ False }.link ⟨1, 3⟩ [".f.hydration-1"]).exchange [".f.hydration-1"] ["f"]).names) :
    ¬ w.Named ⟨1, 4⟩ := by
  rintro ⟨p, hp⟩
  rw [hnames] at hp
  simp only [Vfs.exchange, Vfs.link, edited, Function.update_apply] at hp
  split at hp
  · cases hp
  · split at hp <;> cases hp

/-- A placer that starts again creates a placeholder at the path. -/
private theorem places {w : Vfs} (hnames : w.names = (({ edited with held := fun _ ↦ False }.link
    ⟨1, 3⟩ [".f.hydration-1"]).exchange [".f.hydration-1"] ["f"]).names)
    (hedit : (w.inodes ⟨1, 2⟩).isDir = false) (hplaced : (w.inodes ⟨1, 3⟩).isDir = false) :
    ∃ w' : Vfs, Relation.ReflTransGen (Step (mindedEnv ⟨1, 2⟩))
      ((PlacerCall.place ["f"] 0 "A" none).program 0, Minded.start ⟨1, 2⟩ ⟨w, False⟩)
      (.done (.ok (), 1), ⟨w', True⟩) := by
  have hne : (⟨1, 4⟩ : FileId) ≠ ⟨1, 2⟩ := by decide
  have hf : w.names ["f"] = some ⟨1, 3⟩ := hnames ▸ by decide
  have hscratch : w.names (scratchName ["f"] 1) = some ⟨1, 2⟩ := hnames ▸ by decide
  have htarget : ∀ v : Vfs, v.names ["f"] = some ⟨1, 3⟩ → ((v.unlink (scratchName ["f"] 1)).link
      ⟨1, 4⟩ (scratchName ["f"] 1)).names ["f"] = some ⟨1, 3⟩ := by
    intro v hv
    have hother : ["f"] ≠ scratchName ["f"] 1 := by decide
    simp only [Vfs.link, Vfs.unlink, Function.update_apply, if_neg hother]
    exact hv
  refine ⟨_, .head (step_spared (q := .tmpfile) (a := .ok ⟨1, 4⟩)
      ⟨⟨swapped_fresh hnames, hne⟩, plainInode, rfl, rfl⟩ id)
    (.head (step_spared (q := .fsetxattr _ _ _) (a := .ok ()) rfl hne)
    (.head (step_spared (q := .fsetxattr _ _ _) (a := .ok ()) rfl hne)
    (.head (step_spared (q := .ftruncate _ _) (a := .ok ()) ⟨⟨⟨0, 0⟩, 0, 0, 0⟩, rfl, rfl⟩ hne)
    (.head (step_spared (q := .stamp _) (a := .ok ()) rfl hne)
    (.head (step_spared (q := .linkat _ _) (a := .error ⟨.other, some eexist, ""⟩)
      ⟨rfl, ?_⟩ id)
    (.head (step_struck (q := .unlinkat _) (a := .ok ()) ⟨⟨1, 2⟩, hscratch, hedit, rfl⟩ hscratch)
    (.head (step_spared (q := .linkat _ _) (a := .ok ()) ⟨Vfs.names_unlink, rfl⟩ id)
    (.head (step_spared (q := .renameat _ _) (a := .ok ())
      ⟨by decide, ⟨1, 4⟩, Vfs.names_link, ?_, rfl⟩ ?_) .refl))))))))⟩
  · rintro i p heq -
    cases heq
    exact hf ▸ Option.some_ne_none _
  · intro j hj
    cases (htarget _ hf).symm.trans hj
    exact hplaced
  · rintro ⟨hj, -⟩
    cases (htarget _ hf).symm.trans hj

/-- A new placer unlinks what a conditional replacement has preserved. -/
theorem place_strikes_preserved : ¬ ∀ f d₀ d d', Intact f d₀.world → SwappedAside f d₀ d →
    Intact f d.world → Relation.ReflTransGen (Later f fun _ _ _ ↦ True) d d' →
    Intact f d'.world := by
  intro hall
  obtain ⟨r, w, hswap, hnames, hunmarked, hedit, hplaced⟩ := swaps
  obtain ⟨w', hplace⟩ := places hnames hedit hplaced
  have hscratch : w.names (scratchName ["f"] 1) = some ⟨1, 2⟩ := hnames ▸ by decide
  have hintact := hall ⟨1, 2⟩ ⟨⟨edited, False⟩, fun _ ↦ 0⟩ _ _ ⟨id, by decide⟩
    ⟨0, 1, ["f"], 0, "A", none, ⟨⟨1, 1⟩, 0, 0, 0⟩, r, 1, ⟨w, False⟩, 1, hswap, rfl, by decide,
      hscratch⟩
    ⟨id, hunmarked⟩ (.single (.called 1 (.place ["f"] 0 "A" none) _ _ _ trivial hplace))
  exact hintact.unstruck trivial

end HydrationAPI.Client
