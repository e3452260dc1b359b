import HydrationAPI.Client.Place

/-!
# What a conditional replacement takes names from

While a placeholder is swapped in, other processes rename over the target, create it, unlink it and
link it. Exchanging two names takes a name from no inode, so that only what is unlinked can lose its
last one. It is unlinked under the scratch name, which is nobody else's: what is there was looked at
before, and is either what the caller approved or the placeholder itself.
-/

namespace HydrationAPI.Client

open Dialogue Errand

/-- What is below the root, and the inodes that have lost their last name to the program. -/
structure Watched where
  fs : Vfs
  taken : FileId → Prop

/-- A program among other processes, and what it takes names from. -/
def watchedEnv (others : Vfs → Vfs → Prop) : Env Syscall Syscall.Answer Watched :=
  ⟨fun q w a w' ↦ Vfs.Acts q w.fs a w'.fs
      ∧ ∀ i, w'.taken i ↔ w.taken i ∨ w.fs.Named i ∧ ¬ w'.fs.Named i,
    fun w w' ↦ others w.fs w'.fs ∧ ∀ i, w'.taken i ↔ w.taken i⟩

/-- What others reach while a path is replaced: everything but its scratch names. -/
def Reaches (rel p : RelPath) : Prop := ∀ seq, Apart p (scratchName rel seq)

abbrev swapEnv (rel : RelPath) : Env Syscall Syscall.Answer Watched :=
  watchedEnv (Foreign (Reaches rel))

/-! ## What a system call takes a name from -/

namespace Vfs

variable {q : Syscall} {w w' : Vfs} {a : q.Answer} {i : FileId}

/-- Neither unlinks nor renames. -/
def Harmless : Syscall → Prop
  | .unlinkat _ | .renameat _ _ => False
  | _ => True

theorem Acts.held (h : Acts q w a w') (hi : w.held i) : w'.held i := by
  match a with
  | .error e => exact h.1 ▸ hi
  | .ok r =>
    match q with
    | .mkdirat p =>
      obtain ⟨-, j, node, -, -, rfl⟩ := h
      exact hi
    | .tmpfile =>
      obtain ⟨-, node, -, rfl⟩ := h
      exact Or.inr hi
    | .fsetxattr .. =>
      obtain rfl : w' = _ := h
      exact hi
    | .ftruncate .. =>
      obtain ⟨st, -, rfl⟩ := h
      exact hi
    | .stamp .. =>
      obtain rfl : w' = _ := h
      exact hi
    | .fstat .. | .fstatat .. | .readDir .. | .isMarked .. | .getxattr .. => exact h.2 ▸ hi
    | .linkat .. =>
      obtain ⟨-, rfl⟩ := h
      exact hi
    | .exchange .. =>
      obtain ⟨-, -, -, rfl⟩ := h
      exact hi
    | .unlinkat .. =>
      obtain ⟨j, -, -, rfl⟩ := h
      exact hi
    | .renameat x y =>
      obtain ⟨-, j, -, -, rfl⟩ := h
      split <;> exact hi

/-- A harmless call takes the last name from no inode. -/
theorem Acts.named (h : Acts q w a w') (hq : Harmless q) (hi : w.Named i) : w'.Named i := by
  match a with
  | .error e => exact h.1 ▸ hi
  | .ok r =>
    match q with
    | .mkdirat p =>
      obtain ⟨hp, j, node, -, -, rfl⟩ := h
      exact Named.link hi hp
    | .tmpfile =>
      obtain ⟨-, node, -, rfl⟩ := h
      exact hi
    | .fsetxattr .. =>
      obtain rfl : w' = _ := h
      exact hi
    | .ftruncate .. =>
      obtain ⟨st, -, rfl⟩ := h
      exact hi
    | .stamp .. =>
      obtain rfl : w' = _ := h
      exact hi
    | .fstat .. | .fstatat .. | .readDir .. | .isMarked .. | .getxattr .. => exact h.2 ▸ hi
    | .linkat .. =>
      obtain ⟨hp, rfl⟩ := h
      exact Named.link hi hp
    | .exchange .. =>
      obtain ⟨hapart, -, -, rfl⟩ := h
      exact Named.exchange hi hapart
    | .unlinkat .. | .renameat .. => exact hq.elim

end Vfs

/-! ## What has been taken -/

variable {rel s : RelPath} {approved fd i : FileId} {w w' : Watched} {seq : ℕ}

/-- Only the inode that was approved, and placeholders of the program, have lost their last name. -/
def Spared (approved : FileId) (w : Watched) : Prop :=
  ∀ i, w.taken i → i = approved ∨ w.fs.held i

/-- The placeholder is kept by its descriptor. -/
def Holding (approved fd : FileId) (w : Watched) : Prop := Spared approved w ∧ w.fs.held fd

/-- An inode has the scratch name. -/
structure Under (approved fd : FileId) (rel : RelPath) (s : RelPath) (i : FileId) (w : Watched) :
    Prop where
  holding : Holding approved fd w
  scratch : ∃ seq, s = scratchName rel seq
  name : w.fs.names s = some i

theorem stable_spared : Stable (swapEnv rel) (Spared approved) := by
  rintro w w' ⟨hothers, htaken⟩ h i hi
  rw [hothers.held_eq]
  exact h i ((htaken i).mp hi)

theorem stable_holding : Stable (swapEnv rel) (Holding approved fd) :=
  fun w w' hothers h ↦ ⟨stable_spared w w' hothers h.1, hothers.1.held_eq ▸ h.2⟩

theorem stable_under : Stable (swapEnv rel) (Under approved fd rel s i) := by
  intro w w' hothers h
  obtain ⟨seq, rfl⟩ := h.scratch
  exact ⟨stable_holding w w' hothers h.holding, h.scratch,
    (hothers.1.names_eq fun p hp ↦ hp seq).trans h.name⟩

variable {q : Syscall} {a : q.Answer}

/-- A call takes from no inode but these. -/
theorem Spared.acts (h : Spared approved w) (ha : (swapEnv rel).answers q w a w')
    (hnamed : ∀ i, w.fs.Named i → w'.fs.Named i ∨ i = approved ∨ w.fs.held i) :
    Spared approved w' := by
  intro i hi
  rcases (ha.2 i).mp hi with hi | ⟨hi, hgone⟩
  · exact (h i hi).imp_right ha.1.held
  · exact ((hnamed i hi).resolve_left hgone).imp_right ha.1.held

theorem Spared.harmless (h : Spared approved w) (ha : (swapEnv rel).answers q w a w')
    (hq : Vfs.Harmless q) : Spared approved w' :=
  h.acts ha fun _ hi ↦ Or.inl (ha.1.named hq hi)

theorem Holding.harmless (h : Holding approved fd w) (ha : (swapEnv rel).answers q w a w')
    (hq : Vfs.Harmless q) : Holding approved fd w' := ⟨h.1.harmless ha hq, ha.1.held h.2⟩

/-- What is under the scratch name may be unlinked, if it was approved or is the placeholder. -/
theorem Under.unlinkat {a : Syscall.Answer (.unlinkat s)} (h : Under approved fd rel s i w)
    (ha : (swapEnv rel).answers (.unlinkat s) w a w') (hi : i = approved ∨ i = fd) :
    Spared approved w' := by
  refine h.holding.1.acts ha fun j hj ↦ ?_
  match a, ha.1 with
  | .error _, hacts =>
    rw [hacts.1]
    exact Or.inl hj
  | .ok _, ⟨k, hk, _, hw'⟩ =>
    cases hk.symm.trans h.name
    rw [hw']
    by_cases hne : j = i
    · subst hne
      rcases hi with hi | rfl
      · exact Or.inr (Or.inl hi)
      · exact Or.inr (Or.inr h.holding.2)
    · exact Or.inl (hj.unlink h.name hne)

/-! ## What a placeholder is built of -/

theorem lasting_spared {α : Type} : Lasting (swapEnv rel) (Spared approved)
    fun (_ : Except IoError α) (_ : ℕ) w ↦ Spared approved w :=
  ⟨fun _ _ ↦ stable_spared, fun _ _ _ h ↦ h⟩

theorem meets_placeholder (size : ℕ) (cloudId : String) (etag : Option String)
    (hw : Spared approved w) :
    Meets (swapEnv rel) (Spared approved)
      (fun r s w ↦ (Spared approved w ∧ s = seq) ∧ ∀ fd, r = .ok fd → Holding approved fd w)
      (Placer.placeholder size cloudId etag) seq w := by
  refine keeps_placeholder stable_spared (fun _ ↦ stable_holding) (fun _ h ↦ h) (fun _ _ h ↦ h.1)
    (fun v a v' hv ha ↦ ?_) (fun fd q a v v' hq hv ha ↦ ?_) size cloudId etag hw
  · have hv' := hv.harmless ha trivial
    refine ⟨hv', fun fd hr ↦ ⟨hv', ?_⟩⟩
    obtain ⟨⟨-, node, -, heq⟩, -⟩ := hr ▸ ha
    rw [heq]
    exact Or.inl rfl
  · have hharmless : Vfs.Harmless q := match q with
      | .fsetxattr .. | .ftruncate .. | .stamp .. => trivial
    exact hv.harmless ha hharmless

/-! ## The exchange -/

/-- What a scratch name leads to, if one was free. -/
def Linked (approved fd : FileId) (rel : RelPath) (r : Except IoError (Option RelPath))
    (w : Watched) : Prop :=
  Holding approved fd w ∧ ∀ s, r = .ok (some s) → Under approved fd rel s fd w

theorem lasting_linked :
    Lasting (swapEnv rel) (Spared approved) fun r (_ : ℕ) w ↦ Linked approved fd rel r w :=
  ⟨fun _ _ w w' hothers h ↦ ⟨stable_holding w w' hothers h.1,
    fun s hr ↦ stable_under w w' hothers (h.2 s hr)⟩, fun _ _ _ h ↦ h.1.1⟩

theorem meets_linkScratch (tries : ℕ) (hw : Holding approved fd w) :
    Meets (swapEnv rel) (Spared approved) (fun r _ w ↦ Linked approved fd rel r w)
      (Placer.linkScratch fd rel tries) seq w := by
  induction tries generalizing seq w with
  | zero => exact meets_pure lasting_linked ⟨hw, fun _ hr ↦ by cases hr⟩
  | succ tries ih =>
    refine meets_modify (meets_state ?_)
    refine meets_attempt_sys stable_holding hw (fun _ h ↦ h.1) fun v a v' hv ha ↦ ?_
    have hv' := hv.harmless ha trivial
    match a with
    | .ok _ =>
      refine meets_pure lasting_linked ⟨hv', fun s hr ↦ ?_⟩
      cases hr
      obtain ⟨⟨-, heq⟩, -⟩ := ha
      exact ⟨hv', ⟨_, rfl⟩, heq ▸ Function.update_self _ _ _⟩
    | .error e =>
      dsimp only
      split
      · exact ih hv'
      · exact meets_throw lasting_linked ⟨hv', fun _ hr ↦ by cases hr⟩

theorem Under.fstatat {a : Syscall.Answer (.fstatat s)} (h : Under approved fd rel s i w)
    (ha : (swapEnv rel).answers (.fstatat s) w a w') :
    Under approved fd rel s i w' ∧ ∀ st, a = .ok st → st.file = i := by
  have hholding := h.holding.harmless ha trivial
  match a, ha.1 with
  | .ok st, ⟨⟨j, hj, hst⟩, heq⟩ =>
    cases hj.symm.trans h.name
    refine ⟨⟨hholding, h.scratch, heq ▸ h.name⟩, fun st' hst' ↦ ?_⟩
    cases hst'
    rw [hst]
    rfl
  | .error _, ⟨heq, _⟩ => exact ⟨⟨hholding, h.scratch, heq ▸ h.name⟩, fun _ hst ↦ by cases hst⟩

/-- What was at the path has the scratch name afterwards. -/
theorem Under.exchange {r : Syscall.Result (.exchange s rel)} (h : Under approved fd rel s i w)
    (ha : (swapEnv rel).answers (.exchange s rel) w (.ok r) w') :
    ∃ j, Under approved fd rel s j w' := by
  have hholding := h.holding.harmless ha trivial
  obtain ⟨⟨-, -, hrel, heq⟩, -⟩ := ha
  obtain ⟨j, hj⟩ := Option.ne_none_iff_exists'.mp hrel
  refine ⟨j, hholding, h.scratch, ?_⟩
  rw [heq, Vfs.names_exchange_left]
  exact hj

theorem Under.refused {q : Syscall} {e : IoError} (h : Under approved fd rel s i w)
    (ha : (swapEnv rel).answers q w (.error e) w') : Under approved fd rel s i w' := by
  refine ⟨⟨h.holding.1.acts ha fun j hj ↦ ?_, ha.1.held h.holding.2⟩, h.scratch, ?_⟩
  · rw [ha.1.1]
    exact Or.inl hj
  · rw [ha.1.1]
    exact h.name

variable {placed expected : Stat}

/-- Of what has the scratch name only the placeholder is unlinked. -/
theorem meets_discardPlaceholder (hplaced : placed.file = fd) (hw : Under approved fd rel s i w) :
    Meets (swapEnv rel) (Spared approved) (fun _ _ w ↦ Spared approved w)
      (Placer.discardPlaceholder s placed) seq w := by
  refine safe_ask stable_under hw (fun _ h ↦ h.holding.1) fun v a v' hv ha ↦ ?_
  obtain ⟨hunder, hfound⟩ := hv.fstatat ha
  match a with
  | .error e => exact meets_throw lasting_spared hunder.holding.1
  | .ok found =>
    have hsame := hfound found rfl
    have hrest : Meets (swapEnv rel) (Spared approved) (fun _ _ w ↦ Spared approved w)
        (if found.file ≠ placed.file then
          throw ⟨.other, none, "the eviction scratch name changed; the occupant was preserved at "
            ++ s.display⟩
        else Placer.sys (.unlinkat s)) seq v' := by
      by_cases hne : found.file ≠ placed.file
      · rw [if_pos hne]
        exact meets_throw lasting_spared hunder.holding.1
      · rw [if_neg hne]
        have hi : i = fd := hsame.symm.trans ((not_not.mp hne).trans hplaced)
        exact meets_sys lasting_spared stable_under hunder (fun _ h ↦ h.holding.1)
          fun _ _ _ hv ha ↦ hv.unlinkat ha (Or.inr hi)
    exact hrest

theorem meets_restoreTarget (hplaced : placed.file = fd) (hw : Under approved fd rel s i w) :
    Meets (swapEnv rel) (Spared approved) (fun _ _ w ↦ Spared approved w)
      (Placer.restoreTarget s rel placed) seq w := by
  refine meets_attempt_sys stable_under hw (fun _ h ↦ h.holding.1) fun v a v' hv ha ↦ ?_
  match a with
  | .error e => exact meets_throw lasting_spared (hv.refused ha).holding.1
  | .ok _ =>
    obtain ⟨j, hj⟩ := hv.exchange ha
    exact meets_discardPlaceholder hplaced hj

theorem meets_placeIfUnchanged (tries size : ℕ) (cloudId : String) (etag : Option String)
    (hw : Spared expected.file w) :
    Meets (swapEnv rel) (Spared expected.file) (fun _ _ w ↦ Spared expected.file w)
      (Placer.placeIfUnchanged tries rel size cloudId etag expected) seq w := by
  refine meets_bind lasting_spared (keeps_mkdirs stable_spared (fun _ h ↦ h) _
    (fun _ _ _ _ _ hv ha ↦ hv.harmless ha trivial) hw) (fun _ _ w _ hw ↦ ?_) fun _ _ _ _ h ↦ h.1
  refine meets_bind lasting_spared (meets_placeholder size cloudId etag hw.1)
    (fun fd _ w _ hmade ↦ ?_) fun _ _ _ _ h ↦ h.1.1
  have hfstat : ∀ {seq : ℕ}, Meets (swapEnv rel) (Spared expected.file)
      (fun (r : Syscall.Answer (.fstat fd)) _ w ↦ Holding expected.file fd w
        ∧ ∀ st, r = .ok st → st.file = fd) (Placer.sys (.fstat fd)) seq w := by
    intro seq
    refine meets_sys ⟨fun _ _ v v' hothers h ↦ ⟨stable_holding v v' hothers h.1, h.2⟩,
      fun _ _ _ h ↦ h.1.1⟩ stable_holding (hmade.2 fd rfl) (fun _ h ↦ h.1) fun v a v' hv ha ↦ ?_
    refine ⟨hv.harmless ha trivial, fun st hst ↦ ?_⟩
    obtain ⟨⟨hst', -⟩, -⟩ := hst ▸ ha
    rw [hst']
    rfl
  refine meets_bind lasting_spared hfstat (fun placed _ w _ hplaced ↦ ?_) fun _ _ _ _ h ↦ h.1.1
  have hfile := hplaced.2 placed rfl
  refine meets_bind lasting_spared (meets_linkScratch tries hplaced.1) (fun linked _ w _ hlinked ↦ ?_)
    fun _ _ _ _ h ↦ h.1.1
  match linked with
  | none => exact meets_pure lasting_spared hlinked.1.1
  | some s =>
    refine meets_attempt_sys stable_under (hlinked.2 s rfl) (fun _ h ↦ h.holding.1)
      fun v a v' hv ha ↦ ?_
    match a with
    | .error e =>
      refine meets_bind lasting_spared (meets_discardPlaceholder hfile (hv.refused ha))
        (fun _ _ w _ hw ↦ ?_) fun _ _ _ _ hw ↦ hw
      split
      · exact meets_pure lasting_spared hw
      · exact meets_throw lasting_spared hw
    | .ok _ =>
      obtain ⟨i, hi⟩ := hv.exchange ha
      refine meets_attempt_sys stable_under hi (fun _ h ↦ h.holding.1) fun v a v' hv ha ↦ ?_
      obtain ⟨hunder, hfound⟩ := hv.fstatat ha
      match a with
      | .error inspect =>
        exact meets_bind lasting_spared (meets_restoreTarget hfile hunder)
          (fun _ _ w _ hw ↦ meets_throw lasting_spared hw) fun _ _ _ _ hw ↦ hw
      | .ok found =>
        dsimp only
        split
        · rename_i heq
          have happroved : i = expected.file := (hfound found rfl).symm.trans (heq ▸ rfl)
          exact meets_bind lasting_spared
            (meets_sys lasting_spared stable_under hunder (fun _ h ↦ h.holding.1)
              fun _ _ _ hv ha ↦ hv.unlinkat ha (Or.inl happroved))
            (fun _ _ w _ hw ↦ meets_pure lasting_spared hw) fun _ _ _ _ hw ↦ hw
        · exact meets_bind lasting_spared (meets_restoreTarget hfile hunder)
            (fun _ _ w _ hw ↦ meets_pure lasting_spared hw) fun _ _ _ _ hw ↦ hw

/-! ## What keeps a name -/

/-- A call keeps no inode by a descriptor that had a name. -/
theorem Vfs.Acts.held_or {q : Syscall} {a : q.Answer} {w w' : Vfs} (h : Vfs.Acts q w a w')
    (hi : w'.held i) : w.held i ∨ ¬ w.Named i := by
  match a with
  | .error e => exact Or.inl (h.1 ▸ hi)
  | .ok r =>
    match q with
    | .mkdirat p =>
      obtain ⟨-, j, node, -, -, rfl⟩ := h
      exact Or.inl hi
    | .tmpfile =>
      obtain ⟨hfresh, node, -, rfl⟩ := h
      rcases hi with rfl | hi
      · exact Or.inr hfresh.1
      · exact Or.inl hi
    | .fsetxattr .. =>
      obtain rfl : w' = _ := h
      exact Or.inl hi
    | .ftruncate .. =>
      obtain ⟨st, -, rfl⟩ := h
      exact Or.inl hi
    | .stamp .. =>
      obtain rfl : w' = _ := h
      exact Or.inl hi
    | .fstat .. | .fstatat .. | .readDir .. | .isMarked .. | .getxattr .. => exact Or.inl (h.2 ▸ hi)
    | .linkat .. =>
      obtain ⟨-, rfl⟩ := h
      exact Or.inl hi
    | .exchange .. =>
      obtain ⟨-, -, -, rfl⟩ := h
      exact Or.inl hi
    | .unlinkat .. =>
      obtain ⟨j, -, -, rfl⟩ := h
      exact Or.inl hi
    | .renameat x y =>
      obtain ⟨-, j, -, -, rfl⟩ := h
      split at hi <;> exact Or.inl hi

/-- A program in a world, as its runs have it. -/
abbrev Moment (α : Type) := Dialogue Syscall Syscall.Answer (Except IoError α × ℕ) × Watched

/-- Nothing has been taken, and no descriptor is open. -/
def Watched.start (fs : Vfs) : Watched := ⟨{ fs with held := fun _ ↦ False }, fun _ ↦ False⟩

theorem spared_start (fs : Vfs) : Spared approved (Watched.start fs) := fun _ hi ↦ hi.elim

/-- **An inode other than the approved one that has a name at any time of a conditional replacement
has one from then on, until another process takes it.** -/
theorem keeps_name (fs : Vfs) (tries : ℕ) (rel : RelPath) (size : ℕ) (cloudId : String)
    (etag : Option String) (expected : Stat) (seq : ℕ) (s : Moment (Option ConditionalPlace))
    (run : List (Moment (Option ConditionalPlace)))
    (hs : Relation.ReflTransGen (Step (swapEnv rel))
      (Placer.placeIfUnchanged tries rel size cloudId etag expected seq, Watched.start fs) s)
    (hrun : (s :: run).IsChain (Step (swapEnv rel))) (i : FileId) (hne : i ≠ expected.file)
    (hnamed : s.2.fs.Named i) (hheld : ¬ s.2.fs.held i) :
    (∀ m ∈ run, m.2.fs.Named i)
      ∨ EndedByOthers (swapEnv rel) (fun w ↦ w.fs.Named i) (s :: run) := by
  have hspared : ∀ t, Relation.ReflTransGen (Step (swapEnv rel))
        (Placer.placeIfUnchanged tries rel size cloudId etag expected seq, Watched.start fs) t →
      Spared expected.file t.2 := fun t ht ↦
    (meets_placeIfUnchanged tries size cloudId etag (spared_start fs)).run ht
  refine (kept_or_ended (X := fun w ↦ ¬ w.fs.held i) (fun t t' hstep ht ↦ ht.tail hstep)
    (fun w w' hothers _ hfree _ ↦ hothers.1.held_eq ▸ hfree) (fun q next a w w' _ ht' ha hi hfree ↦ ?_)
    hs hnamed hheld hrun).imp_left fun hall m hm ↦ (hall m hm).1
  have hfree' : ¬ w'.fs.held i := fun h ↦ (ha.1.held_or h).elim hfree (· hi)
  refine ⟨by_contra fun hgone ↦ ?_, hfree'⟩
  have htaken : w'.taken i := (ha.2 i).mpr (Or.inr ⟨hi, hgone⟩)
  exact (hspared _ ht' i htaken).elim hne hfree'

/-! ## A save while a placeholder is swapped in -/

/-- A call that loses no name. -/
theorem step_harmless {α : Type} {rel : RelPath} {q : Syscall}
    {next : q.Answer → Dialogue Syscall Syscall.Answer α} {a : q.Answer} {w w' : Vfs}
    (h : Vfs.Acts q w a w') (hq : Vfs.Harmless q) :
    Step (swapEnv rel) (.ask q next, ⟨w, fun _ ↦ False⟩) (next a, ⟨w', fun _ ↦ False⟩) :=
  .answered ⟨h, fun _ ↦ ⟨False.elim, fun hlost ↦ hlost.elim id fun hlost ↦
    hlost.2 (h.named hq hlost.1)⟩⟩

/-- A placeholder that is built on an anonymous inode. -/
private def anonymous : Inode :=
  ⟨⟨⟨0, 0⟩, 0, 0, 0⟩, false, .absent, .absent, .absent, .absent, false⟩

/-- `f` is the file that may be replaced, and `g` is where an application writes. -/
private def saving : Vfs :=
  ⟨fun p ↦ if p = ["f"] then some ⟨1, 1⟩ else if p = ["g"] then some ⟨1, 2⟩ else none,
    fun _ ↦ anonymous, fun _ ↦ False⟩

/-- A name that does not begin with a dot is no scratch name. -/
theorem reaches_of_head {rel : RelPath} {name : String} (h : name.toList.head? ≠ some '.')
    (hrel : rel.dropLast = []) : Reaches rel [name] := by
  intro seq
  rw [scratchName, hrel]
  generalize rel.getLastD "f" = base
  have hne : name ≠ s!".{base}.hydration-{seq}" := by
    rintro rfl
    refine h ?_
    rw [String.toList_append, String.toList_append, String.toList_append]
    rfl
  exact ⟨fun hprefix ↦ hne (List.cons_prefix_cons.mp hprefix).1,
    fun hprefix ↦ hne (List.cons_prefix_cons.mp hprefix).1.symm⟩

/-- Another process renames a name over another. -/
theorem step_renamed {α : Type} {rel a b : RelPath}
    {p : Dialogue Syscall Syscall.Answer α} {w : Watched} (ha : Reaches rel a) (hb : Reaches rel b)
    (hapart : Apart a b) : Step (swapEnv rel) (p, w) (p, ⟨w.fs.rename a b, w.taken⟩) :=
  .others ⟨.renamed a b ha hb hapart, fun _ ↦ Iff.rfl⟩

private theorem not_named_three : ¬ saving.Named ⟨1, 3⟩ := by
  rintro ⟨p, hp⟩
  simp only [saving] at hp
  split at hp
  · cases hp
  · split at hp <;> cases hp

/-- The placeholder has got a scratch name, the application has saved over `f`, and what it saved
changes places with the placeholder. -/
private theorem saves : ∃ p : Dialogue Syscall Syscall.Answer _, ∃ w : Vfs, ∃ p', ∃ w' : Vfs,
    Relation.ReflTransGen (Step (swapEnv ["f"]))
      (Placer.placeIfUnchanged 1 ["f"] 0 "A" none ⟨⟨1, 1⟩, 0, 0, 0⟩ 0, Watched.start saving)
      (p, ⟨w, fun _ ↦ False⟩)
    ∧ Step (swapEnv ["f"]) (p, ⟨w, fun _ ↦ False⟩) (p', ⟨w', fun _ ↦ False⟩)
    ∧ w.names ["f"] = some ⟨1, 2⟩ ∧ ¬ w.held ⟨1, 2⟩
    ∧ w'.names (scratchName ["f"] 1) = some ⟨1, 2⟩ := by
  have reaches_g : Reaches ["f"] ["g"] := reaches_of_head (by decide) rfl
  have reaches_f : Reaches ["f"] ["f"] := reaches_of_head (by decide) rfl
  refine ⟨_, _, _, _, .head (step_harmless (q := .tmpfile) (a := .ok ⟨1, 3⟩)
      ⟨⟨not_named_three, id⟩, anonymous, rfl, rfl⟩ trivial)
    (.head (step_harmless (q := .fsetxattr _ _ _) (a := .ok ()) rfl trivial)
    (.head (step_harmless (q := .fsetxattr _ _ _) (a := .ok ()) rfl trivial)
    (.head (step_harmless (q := .ftruncate _ _) (a := .ok ()) ⟨⟨⟨0, 0⟩, 0, 0, 0⟩, rfl, rfl⟩ trivial)
    (.head (step_harmless (q := .stamp _) (a := .ok ()) rfl trivial)
    (.head (step_harmless (q := .fstat _) (a := .ok _) ⟨rfl, rfl⟩ trivial)
    (.head (step_harmless (q := .linkat _ _) (a := .ok ()) ⟨by decide, rfl⟩ trivial)
    (.head (step_renamed reaches_g reaches_f (by decide)) .refl))))))),
    step_harmless (q := .exchange _ _) (a := .ok ()) ⟨by decide, by decide, by decide, rfl⟩ trivial,
    by decide, ?_, by decide⟩
  rintro (h | h)
  · exact absurd h (by decide)
  · exact h

theorem saved_keeps_name : ∃ s r : Moment (Option ConditionalPlace),
    s.2.fs.names ["f"] = some ⟨1, 2⟩ ∧ r.2.fs.names (scratchName ["f"] 1) = some ⟨1, 2⟩
    ∧ ((∀ m ∈ [r], m.2.fs.Named ⟨1, 2⟩)
      ∨ EndedByOthers (swapEnv ["f"]) (fun w ↦ w.fs.Named ⟨1, 2⟩) [s, r]) := by
  obtain ⟨p, w, p', w', hsaved, hstep, hname, hfree, hname'⟩ := saves
  exact ⟨_, _, hname, hname', keeps_name saving 1 ["f"] 0 "A" none ⟨⟨1, 1⟩, 0, 0, 0⟩ 0 _ _ hsaved
    (List.isChain_cons_cons.mpr ⟨hstep, List.isChain_singleton _⟩) ⟨1, 2⟩ (by decide)
    ⟨["f"], hname⟩ hfree⟩

end HydrationAPI.Client
