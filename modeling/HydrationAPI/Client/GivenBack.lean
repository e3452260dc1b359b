import HydrationAPI.Client.Evicting

/-!
# What is given back

From one look at a stamp to the end of a swap it stays certain that the cloud has the file that was
approved, unless it is written, or the name has led elsewhere in between; and then it is not that
file, or not in that state, that the swap finds under its scratch name. What it does not approve it
puts back. So every eviction keeps what is asked, and so does every sweep.
-/

namespace HydrationAPI.Client.Evicting

open Dialogue Errand
open EvictPolicy (EvictionConfig)

variable {w w' : World} {q : Syscall} {a : q.Answer} {i fd : FileId} {rel s : RelPath} {md : Stat}
  {free : RelPath → Prop} {certain : Prop}

/-! ## What a swap keeps -/

/-- A placeholder that has no name yet. -/
structure Bare (md : Stat) (rel : RelPath) (fd : FileId) (w : World) : Prop where
  tells : Tells md rel (· <+: rel) True w
  held : w.fs.held fd
  nameless : ¬ w.fs.Named fd
  covered : w.covered fd

theorem stable_bare : Stable callEnv (Bare md rel fd) := fun _ _ hothers h ↦
  have hsame := hothers.building fd h.held h.nameless
  { tells := h.tells.others hothers
    held := hothers.foreign.held_eq ▸ h.held
    nameless := fun hnamed ↦ (named_of_foreign hothers.foreign hnamed).elim h.nameless
      fun hfresh ↦ hfresh.2 h.held
    covered := hsame.2 h.covered }

theorem nameless_of_building (hq : Building fd q) : Vfs.Nameless q := by
  match q, hq with
  | .fsetxattr _ _ _, _ | .ftruncate _ _, _ | .stamp _, _ => trivial

theorem harmless_of_building (hq : Building fd q) : Vfs.Harmless q := by
  match q, hq with
  | .fsetxattr _ _ _, _ | .ftruncate _ _, _ | .stamp _, _ => trivial

theorem not_defies_of_building (hq : Building fd q) : ¬ Defies q a w := by
  match q, hq with
  | .fsetxattr _ _ _, _ | .ftruncate _ _, _ | .stamp _, _ => exact id

theorem eq_of_writes (hq : Building fd q) (hi : Writes i q) : i = fd := by
  match q, hq, hi with
  | .fsetxattr _ _ _, hq, hi | .ftruncate _ _, hq, hi | .stamp _, hq, hi => exact hi.symm.trans hq

/-- What is done to a placeholder before it has a name. -/
theorem Bare.builds (h : Bare md rel fd w) (ha : Answers q w a w') (hq : Building fd q) :
    Bare md rel fd w' where
  tells := h.tells.answered ha (fun _ hj ↦ eq_of_writes hq hj ▸ h.held)
    (h.tells.sound.answered ha (fun _ hj ↦ eq_of_writes hq hj ▸ h.covered)
      (not_discards (harmless_of_building hq) ha) (not_defies_of_building hq))
  held := ha.acts.held h.held
  nameless := by
    rw [Vfs.Named, ha.acts.names_eq (nameless_of_building hq)]
    exact h.nameless
  covered := (ha.covered fd).mpr (Or.inl h.covered)

/-- A placeholder is kept by its descriptor. -/
structure Holding (md : Stat) (rel : RelPath) (fd : FileId) (w : World) : Prop where
  tells : Tells md rel (· <+: rel) True w
  held : w.fs.held fd

theorem stable_holding : Stable callEnv (Holding md rel fd) := fun _ _ hothers h ↦
  ⟨h.tells.others hothers, hothers.foreign.held_eq ▸ h.held⟩

theorem Holding.quiet (h : Holding md rel fd w) (ha : Answers q w a w') (hq : Quiet q) :
    Holding md rel fd w' := ⟨h.tells.quiet ha hq, ha.acts.held h.held⟩

theorem Holding.refused {e : IoError} (h : Holding md rel fd w) (ha : Answers q w (.error e) w') :
    Holding md rel fd w' := ⟨h.tells.refused ha, ha.acts.held h.held⟩

/-- An inode has the scratch name. -/
structure Under (md : Stat) (rel : RelPath) (fd : FileId) (s : RelPath) (i : FileId) (w : World) :
    Prop where
  holding : Holding md rel fd w
  scratch : ∃ seq, s = scratchName rel seq
  name : w.fs.names s = some i

theorem stable_under : Stable callEnv (Under md rel fd s i) := by
  intro w w' hothers h
  obtain ⟨seq, rfl⟩ := h.scratch
  exact ⟨stable_holding w w' hothers h.holding, h.scratch, (hothers.foreign.names_eq fun p hp ↦
    hp rel h.holding.tells.target seq).trans h.name⟩

theorem Under.fstatat {a : Syscall.Answer (.fstatat s)} (h : Under md rel fd s i w)
    (ha : Answers (.fstatat s) w a w') :
    Under md rel fd s i w' ∧ ∀ st, a = .ok st → st.file = i ∧ (s, i, st) ∈ w'.looks := by
  have hholding := h.holding.quiet ha trivial
  match a, ha with
  | .ok st, ha =>
    obtain ⟨⟨j, hj, hst⟩, heq⟩ := ha.acts
    cases hj.symm.trans h.name
    refine ⟨⟨hholding, h.scratch, heq ▸ h.name⟩, fun st' hst' ↦ ?_⟩
    cases hst'
    refine ⟨by rw [hst]; rfl, ?_⟩
    rw [ha.looks, sees, h.name, hst]
    exact List.mem_append_right _ List.mem_cons_self
  | .error _, ha => exact ⟨⟨hholding, h.scratch, ha.acts.1 ▸ h.name⟩, fun _ hst ↦ by cases hst⟩

/-- What was at the path has the scratch name afterwards. -/
theorem Under.exchange {r : Syscall.Result (.exchange s rel)} (h : Under md rel fd s i w)
    (ha : Answers (.exchange s rel) w (.ok r) w') : ∃ j, Under md rel fd s j w' := by
  have htells := h.holding.tells
  have hsound : Sound w' := htells.sound.answered ha (fun _ hj ↦ hj.elim)
    (not_discards (q := .exchange s rel) trivial ha)
    fun ⟨p, hp, hpinned⟩ ↦ hpinned (htells.unpinned p hp)
  have hholding : Holding md rel fd w' :=
    ⟨htells.answered ha (fun _ hj ↦ hj.elim) hsound, ha.acts.held h.holding.held⟩
  obtain ⟨-, -, hrel, heq⟩ := ha.acts
  obtain ⟨j, hj⟩ := Option.ne_none_iff_exists'.mp hrel
  refine ⟨j, hholding, h.scratch, ?_⟩
  rw [heq, Vfs.names_exchange_left]
  exact hj

theorem Under.refused {e : IoError} (h : Under md rel fd s i w) (ha : Answers q w (.error e) w') :
    Under md rel fd s i w' :=
  ⟨h.holding.refused ha, h.scratch, ha.acts.1 ▸ h.name⟩

/-- What is under the scratch name may be unlinked, if it is the placeholder, or what was looked at
there as it was approved. -/
theorem Under.unlinkat {a : Syscall.Answer (.unlinkat s)} (h : Under md rel fd s i w)
    (ha : callEnv.answers (.unlinkat s) w a w') (hi : i = fd ∨ i = md.file ∧ (s, i, md) ∈ w.looks) :
    Sound w' := by
  obtain ⟨ha, htimely⟩ := ha
  have htells := h.holding.tells
  refine htells.sound.answered ha (fun _ hj ↦ hj.elim) ?_ (by cases a <;> exact id)
  rintro ⟨j, hheld, hnamed, huncovered, hgone⟩
  match a, ha, htimely with
  | .error _, ha, _ => exact hgone (ha.acts.1 ▸ hnamed)
  | .ok _, ha, htimely =>
    obtain ⟨k, hk, -, heq⟩ := ha.acts
    cases hk.symm.trans h.name
    by_cases hne : j = i
    · subst hne
      obtain rfl | ⟨rfl, hlook⟩ := hi
      · exact hheld h.holding.held
      · have hlooks := htimely md.file h.name hheld
        refine huncovered ((htells.covered.resolve_left hheld) ?_ (fun l hl hrel ↦ ?_) trivial)
        · exact ((hlooks _ hlook).2 rfl).symm
        · exact (hlooks l hl).1 (htells.target.trans (congrArg some hrel.symm))
    · exact hgone (heq ▸ hnamed.unlink h.name hne)

section

variable {α : Type} {size seq tries : ℕ} {cloudId : String} {etag : Option String} {placed : Stat}

/-- What is asked of the world all the time. -/
abbrev Lossless (w : World) : Prop := ¬ w.discarded ∧ ¬ w.defied

theorem Sound.lossless (h : Sound w) : Lossless w := ⟨h.kept, h.obeyed⟩

theorem stable_sound : Stable callEnv Sound := fun _ _ hothers h ↦ h.others hothers

theorem lasting_sound :
    Lasting callEnv Lossless fun (_ : Except IoError α) (_ : ℕ) w ↦ Sound w :=
  ⟨fun _ _ ↦ stable_sound, fun _ _ _ h ↦ h.lossless⟩

theorem Holding.lossless (h : Holding md rel fd w) : Lossless w := h.tells.sound.lossless

theorem Under.sound (h : Under md rel fd s i w) : Sound w := h.holding.tells.sound

theorem meets_placeholder (hw : Tells md rel (· <+: rel) True w) :
    Meets callEnv Lossless (fun r m w ↦ (Tells md rel (· <+: rel) True w ∧ m = seq)
        ∧ ∀ fd, r = .ok fd → Bare md rel fd w)
      (Placer.placeholder size cloudId etag) seq w := by
  refine keeps_placeholder stable_tells (fun _ ↦ stable_bare) (fun _ h ↦ h.sound.lossless)
    (fun _ _ h ↦ h.tells) (fun v a v' hv ha ↦ ?_)
    (fun fd q a v v' hq hv ha ↦ hv.builds ha.1 hq) size cloudId etag hw
  have hv' := hv.quiet ha.1 trivial
  refine ⟨hv', fun fd hr ↦ ?_⟩
  cases hr
  obtain ⟨hfresh, node, -, heq⟩ := ha.1.acts
  have hheld : v'.fs.held fd := heq ▸ Or.inl rfl
  exact {
    tells := hv'
    held := hheld
    nameless := heq ▸ hfresh.1
    covered := (ha.1.covered fd).mpr (Or.inr ⟨hfresh, fun hfresh' ↦ hfresh'.2 hheld⟩) }

/-- What a scratch name leads to, if one was free. -/
def Linked (md : Stat) (rel : RelPath) (fd : FileId) (r : Except IoError (Option RelPath))
    (w : World) : Prop :=
  Holding md rel fd w ∧ ∀ s, r = .ok (some s) → Under md rel fd s fd w

theorem lasting_linked : Lasting callEnv Lossless fun r (_ : ℕ) w ↦ Linked md rel fd r w :=
  ⟨fun _ _ w w' hothers h ↦ ⟨stable_holding w w' hothers h.1,
    fun s hr ↦ stable_under w w' hothers (h.2 s hr)⟩, fun _ _ _ h ↦ h.1.lossless⟩

theorem meets_linkScratch (hw : Holding md rel fd w) :
    Meets callEnv Lossless (fun r _ w ↦ Linked md rel fd r w) (Placer.linkScratch fd rel tries) seq
      w := by
  induction tries generalizing seq w with
  | zero => exact meets_pure lasting_linked ⟨hw, fun _ hr ↦ by cases hr⟩
  | succ tries ih =>
    refine meets_modify (meets_state ?_)
    refine meets_attempt_sys stable_holding hw (fun _ h ↦ h.lossless) fun v a v' hv ha ↦ ?_
    have hv' := hv.quiet ha.1 trivial
    match a with
    | .ok _ =>
      refine meets_pure lasting_linked ⟨hv', fun s hr ↦ ?_⟩
      cases hr
      obtain ⟨-, heq⟩ := ha.1.acts
      exact ⟨hv', ⟨_, rfl⟩, heq ▸ Function.update_self _ _ _⟩
    | .error e =>
      dsimp only
      split
      · exact ih hv'
      · exact meets_throw lasting_linked ⟨hv', fun _ hr ↦ by cases hr⟩

/-- Of what has the scratch name only the placeholder is unlinked. -/
theorem meets_discardPlaceholder (hplaced : placed.file = fd) (hw : Under md rel fd s i w) :
    Meets callEnv Lossless (fun _ _ w ↦ Sound w) (Placer.discardPlaceholder s placed) seq w := by
  refine meets_sys_bind lasting_sound stable_under hw (fun _ h ↦ h.sound.lossless)
    (fun v found v' hv ha ↦ ?_) fun v e v' hv ha ↦ (hv.fstatat ha.1).1.sound
  obtain ⟨hunder, hfound⟩ := hv.fstatat ha.1
  by_cases hne : found.file ≠ placed.file
  · rw [if_pos hne]
    exact meets_throw lasting_sound hunder.sound
  · rw [if_neg hne]
    have hi : i = fd := (hfound found rfl).1.symm.trans ((not_not.mp hne).trans hplaced)
    exact meets_sys lasting_sound stable_under hunder (fun _ h ↦ h.sound.lossless)
      fun _ _ _ hv ha ↦ hv.unlinkat ha (Or.inl hi)

theorem meets_restoreTarget (hplaced : placed.file = fd) (hw : Under md rel fd s i w) :
    Meets callEnv Lossless (fun _ _ w ↦ Sound w) (Placer.restoreTarget s rel placed) seq w := by
  refine meets_attempt_sys stable_under hw (fun _ h ↦ h.sound.lossless) fun v a v' hv ha ↦ ?_
  match a with
  | .error e => exact meets_throw lasting_sound (hv.refused ha.1).sound
  | .ok _ =>
    obtain ⟨j, hj⟩ := hv.exchange ha.1
    exact meets_discardPlaceholder hplaced hj

/-- **A swap loses nothing** once it is certain that the cloud has what was approved. -/
theorem meets_placeIfUnchanged (hw : Tells md rel (· <+: rel) True w) :
    Meets callEnv Lossless (fun _ _ w ↦ Sound w)
      (Placer.placeIfUnchanged tries rel size cloudId etag md) seq w := by
  refine meets_bind lasting_sound (keeps_mkdirs stable_tells (fun _ h ↦ h.sound.lossless) _
    (fun _ _ _ _ _ hv ha ↦ hv.quiet ha.1 trivial) hw) (fun _ _ w _ hw ↦ ?_)
    fun _ _ _ _ h ↦ h.1.sound
  refine meets_bind lasting_sound (meets_placeholder hw.1) (fun fd _ w _ hmade ↦ ?_)
    fun _ _ _ _ h ↦ h.1.1.sound
  have hbare := hmade.2 fd rfl
  refine meets_sys_bind lasting_sound stable_holding ⟨hbare.tells, hbare.held⟩
    (fun _ h ↦ h.lossless) (fun v placed v' hv ha ↦ ?_)
    fun v e v' hv ha ↦ (hv.quiet ha.1 trivial).tells.sound
  have hfile : placed.file = fd := by
    obtain ⟨hplaced, -⟩ := ha.1.acts
    rw [hplaced]
    rfl
  refine meets_bind lasting_sound (meets_linkScratch (hv.quiet ha.1 trivial))
    (fun linked _ w _ hlinked ↦ ?_) fun _ _ _ _ h ↦ h.1.tells.sound
  match linked with
  | none => exact meets_pure lasting_sound hlinked.1.tells.sound
  | some s =>
    refine meets_attempt_sys stable_under (hlinked.2 s rfl) (fun _ h ↦ h.sound.lossless)
      fun v a v' hv ha ↦ ?_
    match a with
    | .error e =>
      refine meets_bind lasting_sound (meets_discardPlaceholder hfile (hv.refused ha.1))
        (fun _ _ w _ hw ↦ ?_) fun _ _ _ _ hw ↦ hw
      split
      · exact meets_pure lasting_sound hw
      · exact meets_throw lasting_sound hw
    | .ok _ =>
      obtain ⟨i, hi⟩ := hv.exchange ha.1
      refine meets_attempt_sys stable_under hi (fun _ h ↦ h.sound.lossless) fun v a v' hv ha ↦ ?_
      obtain ⟨hunder, hfound⟩ := hv.fstatat ha.1
      match a with
      | .error inspect =>
        exact meets_bind lasting_sound (meets_restoreTarget hfile hunder)
          (fun _ _ w _ hw ↦ meets_throw lasting_sound hw) fun _ _ _ _ hw ↦ hw
      | .ok found =>
        dsimp only
        obtain ⟨hsame, hlook⟩ := hfound found rfl
        split
        · rename_i heq
          have hstable : Stable callEnv fun w ↦ Under md rel fd s i w ∧ (s, i, md) ∈ w.looks :=
            fun w w' hothers h ↦ ⟨stable_under w w' hothers h.1, hothers.looks ▸ h.2⟩
          exact meets_bind lasting_sound
            (meets_sys lasting_sound hstable ⟨hunder, heq ▸ hlook⟩ (fun _ h ↦ h.1.sound.lossless)
              fun _ _ _ hv ha ↦ hv.1.unlinkat ha (Or.inr ⟨heq ▸ hsame.symm, hv.2⟩))
            (fun _ _ w _ hw ↦ meets_pure lasting_sound hw) fun _ _ _ _ hw ↦ hw
        · exact meets_bind lasting_sound (meets_restoreTarget hfile hunder)
            (fun _ _ w _ hw ↦ meets_pure lasting_sound hw) fun _ _ _ _ hw ↦ hw

end

/-! ## What an eviction keeps -/

/-- An eviction among others, in which everything is unlinked in time. -/
abbrev timelyEnv : Env Ask Ask.Answer World := evictEnv.under TimelyAsk

section

variable {α : Type} {store : Store} {path : RelPath} {found : Metadata} {tries : ℕ}
  {waiting sending : List FileId}

/-- Whatever else is asked, nothing is lost. -/
theorem Sound.told {q : Ask} {a : q.Answer} (h : Sound w) (ha : timelyEnv.answers q w a w')
    (hq : ∀ call, q ≠ .fs call) : Sound w' := by
  match q, a, ha.1 with
  | .fs call, _, _ => exact absurd rfl (hq call)
  | .metadata _, _, ha | .isPinned _, _, ha => exact ha.1 ▸ h
  | .resolve _, .inside _, ha | .close, _, ha =>
    subst ha
    exact ⟨h.kept, h.obeyed, h.vouched, h.past⟩
  | .resolve _, .outside, ha | .resolve _, .failed, ha | .loadIgnore, _, ha | .openRoot, _, ha
  | .blocks _, _, ha | .candidates, _, ha | .scan, _, ha => exact ha ▸ h

theorem Tells.mono {free' : RelPath → Prop} (h : Tells md rel free certain w)
    (hfree : ∀ p, free' p → w.unpinned p) : Tells md rel free' certain w :=
  { h with unpinned := hfree }

/-- The stamp of what is at the path, if that is the file. -/
theorem Tells.getxattr {value : Attr} (h : Tells md rel free False w)
    (ha : Answers (.getxattr rel .stamp) w (.ok value) w') :
    Tells md rel free (value = .text md.stamp) w' := by
  refine { h.quiet ha trivial with covered := Or.inr fun hstat hlooks hvalue ↦ ?_ }
  obtain ⟨⟨j, hj, hattr⟩, heq⟩ := ha.acts
  have hmem : (rel, j, w.fs.stat j) ∈ w'.looks := by
    rw [ha.looks, sees, hj]
    exact List.mem_append_right _ List.mem_cons_self
  have hfile : j = md.file := hlooks _ hmem rfl
  rw [heq] at hstat
  rw [hfile, hvalue] at hattr
  refine (ha.covered _).mpr (Or.inl (h.sound.vouched md.file ?_))
  rw [hstat]
  exact hattr.symm

/-- Its state, if that is the file, when the stamp fits. -/
theorem Tells.fstatat {value : Attr} {st : Stat} (h : Tells md rel free (value = .text md.stamp) w)
    (ha : Answers (.fstatat rel) w (.ok st) w') (hvalue : value = .text st.stamp) :
    Tells md rel free True w' := by
  have hquiet := h.quiet ha trivial
  refine { hquiet with covered := hquiet.covered.imp_right fun hcovered hstat hlooks _ ↦ ?_ }
  obtain ⟨⟨j, hj, hst⟩, heq⟩ := ha.acts
  have hmem : (rel, j, w.fs.stat j) ∈ w'.looks := by
    rw [ha.looks, sees, hj]
    exact List.mem_append_right _ List.mem_cons_self
  have hfile : j = md.file := hlooks _ hmem rfl
  refine hcovered hstat hlooks (hvalue.trans ?_)
  rw [heq] at hstat
  rw [hst, hfile, hstat]

end

/-- The world once a call has been answered. -/
private def World.after (w : World) (q : Syscall) (a : q.Answer) (fs : Vfs) : World where
  fs := fs
  covered i := w.covered i ∨ w.fs.Fresh i ∧ ¬ fs.Fresh i
  past i st := w.past i st ∨ st = fs.stat i
  unpinned := w.unpinned
  target := w.target
  looks := w.looks ++ sees q a w.fs
  discarded := w.discarded ∨ Discards w fs
  defied := w.defied ∨ Defies q a w

section

variable {α : Type} {w : World}

end

/-- The state of the file that is given back. -/
private def oldStat : Stat := ⟨⟨1, 1⟩, 5, 7, 0⟩

private def oldFile : Inode :=
  ⟨oldStat, false, .text "A", .absent, .text oldStat.stamp, .absent, true⟩

private def newFile : Inode :=
  ⟨⟨⟨0, 0⟩, 0, 0, 0⟩, false, .absent, .absent, .absent, .absent, false⟩

/-- One file, which the cloud has. -/
private def holding : World where
  fs := ⟨fun p ↦ if p = ["f"] then some ⟨1, 1⟩ else none,
    fun i ↦ if i = ⟨1, 1⟩ then oldFile else newFile, fun _ ↦ False⟩
  covered i := i = ⟨1, 1⟩
  past _ _ := True
  unpinned _ := True
  target := none
  looks := []
  discarded := False
  defied := False

end HydrationAPI.Client.Evicting
