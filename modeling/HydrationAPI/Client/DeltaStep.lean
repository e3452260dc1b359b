import HydrationAPI.Client.Delta

/-!
# What one change does

Every change of a pass comes down to a few operations on the directory: directories are made where
nothing was, a file or a folder is moved to a name nothing had, a placeholder is put, a file is
removed, and what a directory claims to be is written. For each arm of the pass there is one
statement of all that it can do.
-/

namespace HydrationAPI.Client.Delta

open PathMap

variable {d d' : Disk} {p q src dst abs : RelPath} {i j : Inode} {cloudId path : String} {n : ℕ}
  {ctx : Ctx} {s s' : Pass}

/-! ## Directories that are made -/

/-- The directory has become more by new directories. -/
structure Grows (d d' : Disk) : Prop where
  keeps : ∀ q i, d.get q = some i → d'.get q = some i
  news : ∀ q i, d'.get q = some i → d.get q = some i ∨ d.get q = none ∧ ∃ st, i = newDir st

theorem Grows.refl (d : Disk) : Grows d d := ⟨fun _ _ h ↦ h, fun _ _ h ↦ Or.inl h⟩

theorem Grows.set_newDir {st : Stat} (h : d.get p = none) : Grows d (d.set p (newDir st)) := by
  refine ⟨fun q i hi ↦ ?_, fun q i hi ↦ ?_⟩
  · have hne : q ≠ p := fun heq ↦ Option.some_ne_none i (hi.symm.trans (heq ▸ h))
    rw [get_set_of_ne hne]
    exact hi
  · by_cases hq : q = p
    · subst hq
      rw [get_set_self] at hi
      exact Or.inr ⟨h, st, (Option.some_inj.mp hi).symm⟩
    · rw [get_set_of_ne hq] at hi
      exact Or.inl hi

theorem Grows.trans {d'' : Disk} (h : Grows d d') (h' : Grows d' d'') : Grows d d'' := by
  refine ⟨fun q i hi ↦ h'.keeps q i (h.keeps q i hi), fun q i hi ↦ ?_⟩
  rcases h'.news q i hi with hi' | ⟨hnone, st, rfl⟩
  · exact h.news q i hi'
  · right
    refine ⟨Option.eq_none_iff_forall_ne_some.mpr fun j hj ↦ ?_, st, rfl⟩
    exact Option.some_ne_none j ((h.keeps q j hj).symm.trans hnone)

theorem grows_makeDirs (mkdir : RelPath → Except String Stat) (d : Disk) (done rest : RelPath) :
    Grows d (makeDirs mkdir d done rest).1 := by
  induction rest generalizing d done with
  | nil => exact Grows.refl d
  | cons name rest ih =>
    rw [makeDirs]
    split
    · split
      · exact ih d _
      · exact Grows.refl d
    · rename_i hnone
      split
      · exact Grows.refl d
      · exact (Grows.set_newDir hnone).trans (ih _ _)

theorem grows_createDirAll (mkdir : RelPath → Except String Stat) (d : Disk) (p : RelPath) :
    Grows d (createDirAll mkdir d p).1 := grows_makeDirs mkdir d [] p

/-- New directories leave the files as they are. -/
theorem Grows.fileAt (h : Grows d d') (q : RelPath) : d'.fileAt q = d.fileAt q := by
  refine Option.ext fun i ↦ ?_
  rw [Disk.fileAt_eq_some, Disk.fileAt_eq_some]
  refine and_congr_left fun hfile ↦ ⟨fun hi ↦ ?_, h.keeps q i⟩
  rcases h.news q i hi with hi | ⟨-, st, rfl⟩
  · exact hi
  · exact absurd hfile (Bool.noConfusion)

/-! ## What files carry and directories claim -/

/-- The file at the path carries the cloud id. -/
def Carries (d : Disk) (cloudId : String) (p : RelPath) : Prop :=
  d.Holds (fun i ↦ i.isDir = false ∧ i.id = .text cloudId) p

/-- The directory at the path claims to be the folder. -/
def Claims (d : Disk) (cloudId : String) (p : RelPath) : Prop :=
  d.Holds (fun i ↦ i.isDir = true ∧ i.id = .text cloudId) p

/-- New directories make no difference to what is not said of them. -/
theorem Grows.holds {P : Inode → Prop} (h : Grows d d') (hP : ∀ st, ¬ P (newDir st)) :
    d'.Holds P p ↔ d.Holds P p := by
  refine exists_congr fun i ↦ and_congr_left fun hi ↦ ⟨fun hget ↦ ?_, h.keeps p i⟩
  rcases h.news p i hget with hget | ⟨-, st, rfl⟩
  · exact hget
  · exact absurd hi (hP st)

theorem not_newDir_of_file {P : Inode → Prop} (hP : ∀ i, P i → i.isDir = false) (st : Stat) :
    ¬ P (newDir st) := fun h ↦ Bool.noConfusion (hP _ h)

theorem Grows.holds_file {P : Inode → Prop} (h : Grows d d') (hP : ∀ i, P i → i.isDir = false) :
    d'.Holds P p ↔ d.Holds P p := h.holds (not_newDir_of_file hP)

theorem Grows.claims (h : Grows d d') : Claims d' cloudId p ↔ Claims d cloudId p :=
  h.holds fun _ hclaims ↦ Attr.noConfusion hclaims.2

/-! ## What a pass reports -/

/-- Nothing failed, was kept or ignored, and nothing is to be tried again. -/
structure Applied.Clean (out : Applied) : Prop where
  failed : out.failed = []
  kept : out.keptLocal = []
  ignored : out.ignored = 0
  retryable : out.retryable = false
  stopped : out.stopped = none

theorem not_clean_fail {why : Failure} {retryable : Bool} :
    ¬ (s.fail path why retryable).out.Clean := fun h ↦ by
  have hfailed := h.failed
  simp [Pass.fail] at hfailed

theorem not_clean_keep {why : Why} : ¬ (s.keep path why).out.Clean := fun h ↦ by
  have hkept := h.kept
  simp [Pass.keep] at hkept

theorem not_clean_ignored : ¬ s.ignored.out.Clean := fun h ↦ by
  have hignored := h.ignored
  simp [Pass.ignored] at hignored

/-! ## Following a file or a folder -/

/-- A pass that leaves the directory as it is but for new directories, and reports why. -/
structure Refuses (s s' : Pass) : Prop where
  grows : Grows s.disk s'.disk
  files : s'.files = s.files
  folders : s'.folders = s.folders
  calls : s'.calls = s.calls
  unclean : ¬ s'.out.Clean

/-- A pass in which `src` has been moved to `dst`. -/
structure Follows (s s' : Pass) (src dst : RelPath) : Prop where
  ne : src ≠ dst
  there : ∃ i, s.disk.get src = some i
  free : s.disk.get dst = none
  apart : ¬ src <+: dst
  disk : ∃ d, Grows s.disk d ∧ s'.disk = d.move src dst
  calls : s'.calls = s.calls
  clean : s'.out.Clean → s.out.Clean

theorem Follows.holds {P : Inode → Prop} (h : Follows s s' src dst) (hP : ∀ st, ¬ P (newDir st)) :
    s'.disk.Holds P q ↔ (∃ r, q = dst ++ r ∧ s.disk.Holds P (src ++ r))
      ∨ ¬ dst <+: q ∧ ¬ src <+: q ∧ s.disk.Holds P q := by
  obtain ⟨d, hgrows, hdisk⟩ := h.disk
  rw [hdisk, holds_move, hgrows.holds hP]
  exact or_congr_left (exists_congr fun r ↦ and_congr_right fun _ ↦ hgrows.holds hP)

theorem Follows.holds_file {P : Inode → Prop} (h : Follows s s' src dst)
    (hP : ∀ i, P i → i.isDir = false) : s'.disk.Holds P q
      ↔ (∃ r, q = dst ++ r ∧ s.disk.Holds P (src ++ r))
        ∨ ¬ dst <+: q ∧ ¬ src <+: q ∧ s.disk.Holds P q := h.holds (not_newDir_of_file hP)

/-- Everything that following a file can do. -/
inductive FileFollowed (s : Pass) (cloudId : String) (abs : RelPath) :
    Except (Pass × Flow) Pass → Prop
  | stays : (∀ e, s.files.lookup cloudId = some e → e.path = abs ∨ s.disk.get e.path = none) →
      FileFollowed s cloudId abs (.ok s)
  | refused {s' : Pass} : Refuses s s' → FileFollowed s cloudId abs (.error (s', .next))
  | moved {s' : Pass} {e : StoreEntry} : s.files.lookup cloudId = some e →
      Follows s s' e.path abs → s'.files = s.files.insert cloudId { e with path := abs } →
      s'.folders = s.folders → FileFollowed s cloudId abs (.ok s')

theorem exists'_eq_true : d.exists' p = true ↔ ∃ i, d.get p = some i := Option.isSome_iff_exists

theorem get_eq_none_of_not_exists' (h : ¬ d.exists' p = true) : d.get p = none :=
  Option.not_isSome_iff_eq_none.mp h

theorem rename_eq_ok {fault : Option String} (h : rename fault d src dst = .ok d') :
    ¬ src <+: dst ∧ d' = d.move src dst := by
  unfold rename at h
  split at h
  · cases h
  · split at h
    · cases h
    · rename_i hapart
      split at h
      · cases h
        exact ⟨hapart, rfl⟩
      · cases h

theorem moveFile_followed (ctx : Ctx) (n : ℕ) (s : Pass) (cloudId path : String) (abs : RelPath) :
    FileFollowed s cloudId abs (moveFile ctx n s cloudId path abs) := by
  rw [moveFile]
  split
  · rename_i hnone
    exact .stays fun e he ↦ absurd (hnone.symm.trans he).symm (Option.some_ne_none e)
  · rename_i e he
    split
    · rename_i hmoves
      split
      · exact .refused ⟨Grows.refl _, rfl, rfl, rfl, not_clean_fail⟩
      · rename_i hfree
        have hgrows := grows_createDirAll (ctx.os.mkdir n) s.disk abs.dropLast
        dsimp only
        generalize (createDirAll (ctx.os.mkdir n) s.disk abs.dropLast).1 = d at hgrows
        split
        · exact .refused ⟨hgrows, rfl, rfl, rfl, not_clean_fail⟩
        · rename_i d' hrename
          obtain ⟨hapart, rfl⟩ := rename_eq_ok hrename
          refine .moved he ⟨hmoves.1, exists'_eq_true.mp hmoves.2,
            get_eq_none_of_not_exists' hfree, hapart, ⟨d, hgrows, rfl⟩, rfl, fun h ↦ ?_⟩ rfl rfl
          exact ⟨h.failed, h.kept, h.ignored, h.retryable, h.stopped⟩
    · rename_i hstays
      refine .stays fun e' he' ↦ ?_
      cases he.symm.trans he'
      by_cases heq : e.path = abs
      · exact Or.inl heq
      · exact Or.inr (get_eq_none_of_not_exists' fun h ↦ hstays ⟨heq, h⟩)

/-- Everything that following a folder can do. -/
inductive FolderFollowed (s : Pass) (cloudId : String) (abs : RelPath) :
    Except (Pass × Flow) Pass → Prop
  | stays : (∀ e, s.folders.lookup cloudId = some e → e = abs ∨ s.disk.get e = none) →
      FolderFollowed s cloudId abs (.ok s)
  | refused {s' : Pass} : Refuses s s' → FolderFollowed s cloudId abs (.error (s', .next))
  | broken {s' : Pass} (e : String) : Grows s.disk s'.disk → s'.files = s.files →
      s'.folders = s.folders → s'.calls = s.calls → s'.out = s.out →
      FolderFollowed s cloudId abs (.error (s', .error e))
  | moved {s' : Pass} {e : RelPath} : s.folders.lookup cloudId = some e → Follows s s' e abs →
      s'.files = s.files → s'.folders = s.folders → FolderFollowed s cloudId abs (.ok s')

theorem moveFolder_followed (ctx : Ctx) (n : ℕ) (s : Pass) (cloudId path : String)
    (abs : RelPath) : FolderFollowed s cloudId abs (moveFolder ctx n s cloudId path abs) := by
  rw [moveFolder]
  split
  · rename_i hnone
    exact .stays fun e he ↦ absurd (hnone.symm.trans he).symm (Option.some_ne_none e)
  · rename_i e he
    split
    · rename_i hmoves
      split
      · exact .refused ⟨Grows.refl _, rfl, rfl, rfl, not_clean_fail⟩
      · rename_i hfree
        have hgrows := grows_createDirAll (ctx.os.mkdir n) s.disk abs.dropLast
        generalize createDirAll (ctx.os.mkdir n) s.disk abs.dropLast = made at hgrows
        obtain ⟨d, error⟩ := made
        match error with
        | some error => exact .broken error hgrows rfl rfl rfl rfl
        | none =>
          dsimp only
          split
          · exact .refused ⟨hgrows, rfl, rfl, rfl, not_clean_fail⟩
          · rename_i d' hrename
            obtain ⟨hapart, rfl⟩ := rename_eq_ok hrename
            refine .moved he ⟨hmoves.1, exists'_eq_true.mp hmoves.2,
              get_eq_none_of_not_exists' hfree, hapart, ⟨d, hgrows, rfl⟩, rfl, fun h ↦ ?_⟩ rfl rfl
            exact ⟨h.failed, h.kept, h.ignored, h.retryable, h.stopped⟩
    · rename_i hstays
      refine .stays fun e' he' ↦ ?_
      cases he.symm.trans he'
      by_cases heq : e = abs
      · exact Or.inl heq
      · exact Or.inr (get_eq_none_of_not_exists' fun h ↦ hstays ⟨heq, h⟩)

/-! ## Files -/

/-- What is at a path may be replaced by a placeholder for the change. -/
structure Replaceable (ctx : Ctx) (i : Inode) (cloudId : String) (size : ℕ)
    (etag : Option String) : Prop where
  news : isCurrent i cloudId etag size = false
  waits : i.stat.file ∉ ctx.waiting
  known : i.id.isFilled = true ∨ i.stat.size = 0
  stamp : i.stampState ≠ .ok .dirty

/-- Everything that bringing the file at a path up to date can do. -/
inductive Refreshed (ctx : Ctx) (s : Pass) (cloudId : String) (abs : RelPath) (size : ℕ)
    (etag : Option String) : Pass → Prop
  | current {i : Inode} : s.disk.get abs = some i → isCurrent i cloudId etag size = true →
      Refreshed ctx s cloudId abs size etag s
  | kept {s' : Pass} {i : Inode} : s.disk.get abs = some i →
      ¬ Replaceable ctx i cloudId size etag → Refuses s s' →
      Refreshed ctx s cloudId abs size etag s'
  | refused {s' : Pass} : Grows s.disk s'.disk → s'.files = s.files → s'.folders = s.folders →
      s'.calls = s.calls ++ [.place abs cloudId s.disk] → ¬ s'.out.Clean →
      (∀ i, s.disk.get abs = some i → Replaceable ctx i cloudId size etag) →
      Refreshed ctx s cloudId abs size etag s'
  | placed {s' : Pass} (d : Disk) (st : Stat) (stamped : Bool) : Grows s.disk d →
      d.isDirAt abs = false → s'.disk = d.set abs (placeholder st stamped size cloudId etag) →
      s'.files = s.files → s'.folders = s.folders →
      s'.calls = s.calls ++ [.place abs cloudId s.disk] → (s'.out.Clean → s.out.Clean) →
      (∀ i, s.disk.get abs = some i → Replaceable ctx i cloudId size etag) →
      Refreshed ctx s cloudId abs size etag s'

theorem placeFile_refreshed (ctx : Ctx) (n : ℕ) (s : Pass) (cloudId path : String) (abs : RelPath)
    (size : ℕ) (etag : Option String) {count : Applied → Applied}
    (hcount : (count s.out).Clean → s.out.Clean)
    (hreplace : ∀ i, s.disk.get abs = some i → Replaceable ctx i cloudId size etag) :
    Refreshed ctx s cloudId abs size etag (placeFile ctx n s cloudId path abs size etag count) := by
  rw [placeFile]
  dsimp only
  rw [place]
  have hgrows := grows_createDirAll (ctx.os.mkdir n) s.disk abs.dropLast
  generalize createDirAll (ctx.os.mkdir n) s.disk abs.dropLast = made at hgrows
  obtain ⟨d, error⟩ := made
  match error with
  | some error => exact .refused hgrows rfl rfl rfl not_clean_fail hreplace
  | none =>
    dsimp only
    match ctx.os.place n with
    | .error e => exact .refused hgrows rfl rfl rfl not_clean_fail hreplace
    | .ok (st, stamped) =>
      dsimp only
      by_cases hdir : d.isDirAt abs = true
      · rw [if_pos hdir]
        exact .refused hgrows rfl rfl rfl not_clean_fail hreplace
      · rw [if_neg hdir]
        exact .placed d st stamped hgrows (Bool.eq_false_iff.mpr hdir) rfl rfl rfl rfl hcount
          hreplace

theorem refreshFile_refreshed (ctx : Ctx) (n : ℕ) (s : Pass) (cloudId path : String) (abs : RelPath)
    (size : ℕ) (etag : Option String) :
    Refreshed ctx s cloudId abs size etag (refreshFile ctx n s cloudId path abs size etag) := by
  rw [refreshFile]
  split
  · rename_i hnone
    refine placeFile_refreshed ctx n s cloudId path abs size etag (fun h ↦ ?_) fun i hi ↦ ?_
    · exact ⟨h.failed, h.kept, h.ignored, h.retryable, h.stopped⟩
    · exact absurd (hnone.symm.trans hi).symm (Option.some_ne_none i)
  · rename_i i hi
    split
    · rename_i hcurrent
      exact .current hi hcurrent
    · rename_i hnews
      split
      · rename_i hwaits
        exact .kept hi (fun h ↦ h.waits hwaits) ⟨Grows.refl _, rfl, rfl, rfl, not_clean_keep⟩
      · rename_i hwaits
        split
        · rename_i hknown
          refine .kept hi (fun h ↦ ?_) ⟨Grows.refl _, rfl, rfl, rfl, not_clean_keep⟩
          exact h.known.elim hknown.1 (Nat.ne_of_gt hknown.2)
        · rename_i hknown
          split
          · rename_i hstamp
            exact .kept hi (fun h ↦ h.stamp hstamp) ⟨Grows.refl _, rfl, rfl, rfl, not_clean_keep⟩
          · rename_i hstamp
            refine placeFile_refreshed ctx n s cloudId path abs size etag (fun h ↦ ?_)
              fun j hj ↦ ?_
            · exact ⟨h.failed, h.kept, h.ignored, h.retryable, h.stopped⟩
            · cases hi.symm.trans hj
              refine ⟨Bool.eq_false_iff.mpr hnews, hwaits, ?_, hstamp⟩
              by_contra hnot
              obtain ⟨hfilled, hsize⟩ := not_or.mp hnot
              exact hknown ⟨hfilled, Nat.pos_of_ne_zero hsize⟩

/-- Everything that an upsert of a file can do. -/
inductive FileUpserted (ctx : Ctx) (n : ℕ) (s : Pass) (cloudId path : String) (size : ℕ)
    (etag : Option String) : Pass × Flow → Prop
  | refused {s' : Pass} : Refuses s s' → FileUpserted ctx n s cloudId path size etag (s', .next)
  | went {abs : RelPath} {s₁ s₂ : Pass} : safeJoin path = some abs → size ≤ maxObject →
      moveFile ctx n s cloudId path abs = .ok s₁ → FileFollowed s cloudId abs (.ok s₁) →
      Refreshed ctx s₁ cloudId abs size etag s₂ →
      FileUpserted ctx n s cloudId path size etag (s₂, .next)

theorem upserted_spec (ctx : Ctx) (n : ℕ) (s : Pass) (cloudId path : String) (size : ℕ)
    (etag : Option String) :
    FileUpserted ctx n s cloudId path size etag (upserted ctx n s cloudId path size etag) := by
  rw [upserted]
  split
  · exact .refused ⟨Grows.refl _, rfl, rfl, rfl, not_clean_fail⟩
  · rename_i abs habs
    split
    · exact .refused ⟨Grows.refl _, rfl, rfl, rfl, not_clean_fail⟩
    · rename_i hsize
      have hfollowed := moveFile_followed ctx n s cloudId path abs
      generalize hmove : moveFile ctx n s cloudId path abs = r at hfollowed
      match r with
      | .error (s', flow) =>
        match flow, hfollowed with
        | .next, .refused hrefused => exact .refused hrefused
      | .ok s₁ =>
        exact .went habs (Nat.le_of_not_lt hsize) hmove hfollowed
          (refreshFile_refreshed ctx n s₁ cloudId path abs size etag)

/-! ## Folders -/

/-- What the attributes of a directory have become. -/
structure Marks (s s' : Pass) (abs : RelPath) (i j : Inode) : Prop where
  there : s.disk.get abs = some i
  isDir : j.isDir = i.isDir
  disk : s'.disk = s.disk.set abs j
  files : s'.files = s.files
  calls : s'.calls = s.calls

theorem Marks.holds_file {P : Inode → Prop} {j : Inode} (h : Marks s s' abs i j)
    (hdir : i.isDir = true) (hP : ∀ i, P i → i.isDir = false) :
    s'.disk.Holds P p ↔ s.disk.Holds P p := by
  rw [h.disk, holds_set]
  by_cases hp : p = abs
  · subst hp
    have hj : ¬ P j := fun hj ↦ Bool.false_ne_true ((hP j hj).symm.trans (h.isDir.trans hdir))
    have hi : ¬ s.disk.Holds P p := fun ⟨k, hk, hPk⟩ ↦ by
      cases h.there.symm.trans hk
      exact Bool.false_ne_true ((hP i hPk).symm.trans hdir)
    simp [hj, hi]
  · simp [hp]

/-- Everything that recording a folder on a directory can do. -/
inductive FolderClaimed (s : Pass) (cloudId : String) (abs : RelPath) : Pass → Prop
  | refused {s' : Pass} : Refuses s s' → FolderClaimed s cloudId abs s'
  | unfinished {s' : Pass} {i j : Inode} : Marks s s' abs i j → j.id = .text cloudId →
      (i.id.isSome = true → i.id = .text cloudId) → s'.folders = s.folders → ¬ s'.out.Clean →
      FolderClaimed s cloudId abs s'
  | claimed {s' : Pass} {i j : Inode} : Marks s s' abs i j → j.id = .text cloudId →
      (i.id.isSome = true → i.id = .text cloudId) → s'.folders = s.folders.insert cloudId abs →
      (s'.out.Clean → s.out.Clean) → FolderClaimed s cloudId abs s'

theorem claimFolder_claimed (ctx : Ctx) (n : ℕ) (s : Pass) (cloudId path : String) (abs : RelPath)
    (etag : Option String) :
    FolderClaimed s cloudId abs (claimFolder ctx n s cloudId path abs etag) := by
  rw [claimFolder]
  split
  · exact .refused ⟨Grows.refl _, rfl, rfl, rfl, not_clean_fail⟩
  · rename_i i hi
    split
    · exact .refused ⟨Grows.refl _, rfl, rfl, rfl, not_clean_fail⟩
    · rename_i hoccupied
      have hown : i.id.isSome = true → i.id = .text cloudId := fun hsome ↦
        by_contra fun hne ↦ hoccupied ⟨hsome, hne⟩
      split
      · exact .refused ⟨Grows.refl _, rfl, rfl, rfl, not_clean_fail⟩
      · dsimp only
        split
        · exact .unfinished (j := { i with id := .text cloudId }) ⟨hi, rfl, rfl, rfl, rfl⟩ rfl hown
            rfl not_clean_fail
        · exact .claimed (j := { i with id := .text cloudId, etag := folderTag etag })
            ⟨hi, rfl, rfl, rfl, rfl⟩ rfl hown rfl fun h ↦ h

/-- Everything that an upsert of a folder can do. -/
inductive FolderUpserted (ctx : Ctx) (n : ℕ) (s : Pass) (cloudId path : String) :
    Pass × Flow → Prop
  | refused {s' : Pass} : Refuses s s' → FolderUpserted ctx n s cloudId path (s', .next)
  | broken {s' : Pass} (e : String) : Grows s.disk s'.disk → s'.files = s.files →
      s'.folders = s.folders → s'.calls = s.calls → s'.out = s.out →
      FolderUpserted ctx n s cloudId path (s', .error e)
  | stopped {abs : RelPath} {s₁ s₂ : Pass} : folderPath path = some abs →
      moveFolder ctx n s cloudId path abs = .ok s₁ → FolderFollowed s cloudId abs (.ok s₁) →
      Refuses s₁ s₂ →
      FolderUpserted ctx n s cloudId path (s₂, .next)
  | went {abs : RelPath} {s₁ s₂ s₃ : Pass} : folderPath path = some abs →
      moveFolder ctx n s cloudId path abs = .ok s₁ → FolderFollowed s cloudId abs (.ok s₁) →
      Grows s₁.disk s₂.disk → (∀ i, s₂.disk.get abs = some i → i.isDir = true) →
      s₂.files = s₁.files →
      s₂.folders = s₁.folders → s₂.calls = s₁.calls → (s₂.out.Clean → s₁.out.Clean) →
      FolderClaimed s₂ cloudId abs s₃ → FolderUpserted ctx n s cloudId path (s₃, .next)

theorem folderUpserted_spec (ctx : Ctx) (n : ℕ) (s : Pass) (cloudId path : String)
    (etag : Option String) :
    FolderUpserted ctx n s cloudId path (folderUpserted ctx n s cloudId path etag) := by
  rw [folderUpserted]
  split
  · exact .refused ⟨Grows.refl _, rfl, rfl, rfl, not_clean_fail⟩
  · rename_i abs habs
    have hfollowed := moveFolder_followed ctx n s cloudId path abs
    generalize hmove : moveFolder ctx n s cloudId path abs = r at hfollowed
    match r with
    | .error (s', flow) =>
      match flow, hfollowed with
      | .next, .refused hrefused => exact .refused hrefused
      | .error e, .broken _ hgrows hfiles hfolders hcalls hout =>
        exact .broken e hgrows hfiles hfolders hcalls hout
    | .ok s₁ =>
      dsimp only
      rw [makeFolder]
      match hget : s₁.disk.get abs with
      | some i =>
        dsimp only
        by_cases hdir : i.isDir = true
        · rw [if_pos hdir]
          have hat : ∀ j, s₁.disk.get abs = some j → j.isDir = true := fun j hj ↦
            Option.some_inj.mp (hget.symm.trans hj) ▸ hdir
          exact .went habs hmove hfollowed (Grows.refl _) hat rfl rfl rfl (fun h ↦ h)
            (claimFolder_claimed ctx n s₁ cloudId path abs etag)
        · rw [if_neg hdir]
          exact .stopped habs hmove hfollowed ⟨Grows.refl _, rfl, rfl, rfl, not_clean_fail⟩
      | none =>
        have hgrows := grows_createDirAll (ctx.os.mkdir n) s₁.disk abs
        dsimp only
        generalize createDirAll (ctx.os.mkdir n) s₁.disk abs = made at hgrows
        obtain ⟨d, error⟩ := made
        match error with
        | some error =>
          exact .stopped habs hmove hfollowed ⟨hgrows, rfl, rfl, rfl, not_clean_fail⟩
        | none =>
          have hat : ∀ j, d.get abs = some j → j.isDir = true := by
            intro j hj
            rcases hgrows.news abs j hj with hj | ⟨-, st, rfl⟩
            · exact absurd (hget.symm.trans hj).symm (Option.some_ne_none j)
            · rfl
          refine .went habs hmove hfollowed ?_ ?_ ?_ ?_ ?_ ?_
            (claimFolder_claimed ctx n _ cloudId path abs etag)
          · exact hgrows
          · exact hat
          · rfl
          · rfl
          · rfl
          · exact fun h ↦ ⟨h.failed, h.kept, h.ignored, h.retryable, h.stopped⟩

/-! ## Removals -/

/-- Everything that the removal of a file can do. -/
inductive FileRemoved (ctx : Ctx) (s : Pass) (cloudId : String) : Pass → Prop
  | absent : (∀ e, s.files.lookup cloudId = some e → s.disk.get e.path = none) →
      FileRemoved ctx s cloudId s
  | kept {s' : Pass} : Refuses s s' → FileRemoved ctx s cloudId s'
  | refused {s' : Pass} {e : StoreEntry} {i : Inode} : s.files.lookup cloudId = some e →
      s.disk.get e.path = some i → i.stat.file ∉ ctx.waiting → i.stampState ≠ .ok .dirty →
      s'.disk = s.disk → s'.files = s.files → s'.folders = s.folders →
      s'.calls = s.calls ++ [.remove e.path cloudId s.disk] → ¬ s'.out.Clean →
      FileRemoved ctx s cloudId s'
  | gone {s' : Pass} {e : StoreEntry} {i : Inode} : s.files.lookup cloudId = some e →
      s.disk.get e.path = some i → i.isDir = false → i.stat.file ∉ ctx.waiting →
      i.stampState ≠ .ok .dirty → s'.disk = s.disk.erase e.path → s'.files = s.files →
      s'.folders = s.folders → s'.calls = s.calls ++ [.remove e.path cloudId s.disk] →
      (s'.out.Clean → s.out.Clean) → FileRemoved ctx s cloudId s'

theorem removed_spec (ctx : Ctx) (n : ℕ) (s : Pass) (cloudId : String) :
    FileRemoved ctx s cloudId (removed ctx n s cloudId) := by
  rw [removed]
  split
  · rename_i hnone
    exact .absent fun e he ↦ absurd (hnone.symm.trans he).symm (Option.some_ne_none e)
  · rename_i e he
    split
    · exact .kept ⟨Grows.refl _, rfl, rfl, rfl, not_clean_ignored⟩
    · split
      · rename_i hnone
        refine .absent fun e' he' ↦ ?_
        cases he.symm.trans he'
        exact hnone
      · rename_i i hi
        dsimp only
        split
        · exact .kept ⟨Grows.refl _, rfl, rfl, rfl, not_clean_keep⟩
        · rename_i hwaits
          split
          · exact .kept ⟨Grows.refl _, rfl, rfl, rfl, not_clean_keep⟩
          · rename_i hstamp
            unfold remove
            by_cases hdir : s.disk.isDirAt e.path = true
            · rw [if_pos hdir]
              exact .refused he hi hwaits hstamp rfl rfl rfl rfl not_clean_fail
            · rw [if_neg hdir]
              have hfile : i.isDir = false := by
                rw [Disk.isDirAt, hi] at hdir
                exact Bool.eq_false_iff.mpr hdir
              cases ctx.os.remove n with
              | some error => exact .refused he hi hwaits hstamp rfl rfl rfl rfl not_clean_fail
              | none =>
                refine .gone he hi hfile hwaits hstamp rfl rfl rfl rfl fun h ↦ ?_
                exact ⟨h.failed, h.kept, h.ignored, h.retryable, h.stopped⟩

/-- Everything that the removal of a folder can do. -/
inductive FolderRemoved (s : Pass) (cloudId : String) : Pass → Prop
  | idle {s' : Pass} : s'.disk = s.disk → s'.files = s.files →
      (s'.folders = s.folders ∨ s'.folders = s.folders.erase cloudId) → s'.calls = s.calls →
      (s'.out.Clean → s.out.Clean) → FolderRemoved s cloudId s'
  | marked {s' : Pass} {p : RelPath} {i j : Inode} : s.folders.lookup cloudId = some p →
      Marks s s' p i j → i.isDir = true → (j.id = i.id ∨ j.id = .absent) →
      (s'.folders = s.folders ∨ s'.folders = s.folders.erase cloudId) →
      (s'.out.Clean → s.out.Clean) → FolderRemoved s cloudId s'
  | gone {s' : Pass} {p : RelPath} {i : Inode} : s.folders.lookup cloudId = some p →
      s.disk.get p = some i → i.isDir = true → s.disk.hasChild p = false →
      s'.disk = s.disk.erase p → s'.files = s.files → s'.folders = s.folders.erase cloudId →
      s'.calls = s.calls → (s'.out.Clean → s.out.Clean) → FolderRemoved s cloudId s'

theorem folderRemoved_spec (ctx : Ctx) (n : ℕ) (s : Pass) (cloudId path : String) :
    FolderRemoved s cloudId (folderRemoved ctx n s cloudId path) := by
  have hfail : ∀ (why : Failure) (retryable : Bool),
      FolderRemoved s cloudId (s.fail path why retryable) := fun why retryable ↦
    .idle rfl rfl (Or.inl rfl) rfl fun h ↦ absurd h not_clean_fail
  have hignored : FolderRemoved s cloudId s.ignored :=
    .idle rfl rfl (Or.inl rfl) rfl fun h ↦ absurd h not_clean_ignored
  rw [folderRemoved]
  split
  · exact hignored
  · split
    · exact .idle rfl rfl (Or.inl rfl) rfl fun h ↦ h
    · rename_i p hp
      split
      · exact hignored
      · split
        · exact hfail _ _
        · split
          · split
            · exact hfail _ _
            · exact .idle rfl rfl (Or.inr rfl) rfl fun h ↦ h
          · rename_i i hi
            split
            · exact hfail _ _
            · rename_i hdir
              have hdir : i.isDir = true := by simpa using hdir
              split
              · exact hfail _ _
              · split
                · rw [detachFolder]
                  split
                  · exact hfail _ _
                  · dsimp only
                    split
                    · exact .marked (i := i) (j := { i with etag := .absent }) hp
                        ⟨hi, rfl, rfl, rfl, rfl⟩ hdir (Or.inl rfl) (Or.inl rfl)
                        fun h ↦ absurd h not_clean_fail
                    · exact .marked (i := i) (j := { i with etag := .absent, id := .absent }) hp
                        ⟨hi, rfl, rfl, rfl, rfl⟩ hdir (Or.inr rfl) (Or.inr rfl) fun h ↦ h
                · rename_i hchild
                  refine .gone hp hi hdir (Bool.eq_false_iff.mpr hchild) rfl rfl rfl rfl fun h ↦ ?_
                  exact ⟨h.failed, h.kept, h.ignored, h.retryable, h.stopped⟩

/-! ## One change, and a run of them -/

/-- The change is not passed over. -/
structure Applies (ctx : Ctx) (n : ℕ) (c : Change) : Prop where
  current : ctx.os.current n = .ok true
  synced : (declared c).any ctx.ignore.isIgnored = false

/-- Everything that one change can do. -/
inductive Stepped (ctx : Ctx) (n : ℕ) (s : Pass) : Change → Pass × Flow → Prop
  | ignored {c : Change} : Stepped ctx n s c (s.ignored, .next)
  | stopped {c : Change} (why : Stopped) : Stepped ctx n s c (s.stop why)
  | upserted {cloudId path : String} {size : ℕ} {etag : Option String} {r : Pass × Flow} :
      Applies ctx n (.upserted cloudId path size etag) →
      FileUpserted ctx n s cloudId path size etag r →
      Stepped ctx n s (.upserted cloudId path size etag) r
  | folderUpserted {cloudId path : String} {etag : Option String} {r : Pass × Flow} :
      Applies ctx n (.folderUpserted cloudId path etag) →
      FolderUpserted ctx n s cloudId path r → Stepped ctx n s (.folderUpserted cloudId path etag) r
  | removed {cloudId : String} {s' : Pass} : Applies ctx n (.removed cloudId) →
      FileRemoved ctx s cloudId s' → Stepped ctx n s (.removed cloudId) (s', .next)
  | folderRemoved {cloudId path : String} {s' : Pass} :
      Applies ctx n (.folderRemoved cloudId path) → FolderRemoved s cloudId s' →
      Stepped ctx n s (.folderRemoved cloudId path) (s', .next)

theorem step_stepped (ctx : Ctx) (n : ℕ) (s : Pass) (c : Change) :
    Stepped ctx n s c (step ctx n s c) := by
  rw [step]
  split
  · rename_i hcurrent
    unfold applyChange
    split
    · exact .ignored
    · rename_i hsynced
      have happlies : Applies ctx n c := ⟨hcurrent, Bool.eq_false_iff.mpr hsynced⟩
      match c with
      | .folderUpserted cloudId path etag =>
        exact .folderUpserted happlies (folderUpserted_spec ctx n s cloudId path etag)
      | .upserted cloudId path size etag =>
        exact .upserted happlies (upserted_spec ctx n s cloudId path size etag)
      | .removed cloudId => exact .removed happlies (removed_spec ctx n s cloudId)
      | .folderRemoved cloudId path =>
        exact .folderRemoved happlies (folderRemoved_spec ctx n s cloudId path)
  · exact .stopped _
  · exact .stopped _

/-- In a run from `s` over the changes, of which the first has the number `n`, the change `c` is
applied as the `m`-th when the pass is `t`, and `cs'` come after it. -/
inductive During (ctx : Ctx) : ℕ → List Change → Pass → ℕ → Pass → Change → List Change → Prop
  | here (n : ℕ) (c : Change) (cs : List Change) (s : Pass) : During ctx n (c :: cs) s n s c cs
  | later {n m : ℕ} {c c' : Change} {cs cs' : List Change} {s t : Pass} :
      (step ctx n s c).2 = .next → During ctx (n + 1) cs (step ctx n s c).1 m t c' cs' →
      During ctx n (c :: cs) s m t c' cs'

/-- What holds when a run begins, and is kept by every change, holds at every change. -/
theorem During.holds {P : List Change → Pass → Prop} {m : ℕ} {t : Pass} {c : Change}
    {cs cs' : List Change} (h : During ctx n cs s m t c cs')
    (hstep : ∀ m t c cs', During ctx n cs s m t c cs' → P (c :: cs') t → P cs' (step ctx m t c).1)
    (hbegin : P cs s) : P (c :: cs') t := by
  induction h with
  | here n c cs s => exact hbegin
  | @later n m c c' cs cs' s t hnext hduring ih =>
    refine ih (fun m u c' cs' hduring ↦ hstep m u c' cs' (.later hnext hduring)) ?_
    exact hstep n s c cs (.here n c cs s) hbegin

/-- The changes that are left are among those that were to be applied. -/
theorem During.suffix {m : ℕ} {t : Pass} {c : Change} {cs cs' : List Change}
    (h : During ctx n cs s m t c cs') : c :: cs' <:+ cs := by
  induction h with
  | here n c cs s => exact List.suffix_refl _
  | later _ _ ih => exact ih.trans (List.suffix_cons _ _)

/-- From a change on, a run is the run of what is left. -/
theorem During.run_eq {m : ℕ} {t : Pass} {c : Change} {cs cs' : List Change}
    (h : During ctx n cs s m t c cs') : run ctx n cs s = run ctx m (c :: cs') t := by
  induction h with
  | here n c cs s => rfl
  | @later n m c c' cs cs' s t hnext _ ih =>
    rw [← ih, run]
    match hr : step ctx n s c with
    | (t, .next) => rfl
    | (t, .stop) => rw [hr] at hnext; cases hnext
    | (t, .error e) => rw [hr] at hnext; cases hnext

/-- Where every change is followed by the next, every change is reached. -/
theorem exists_during_of_next {c : Change} {before after : List Change}
    (hnext : ∀ m t b cs', During ctx n (before ++ c :: after) s m t b cs' →
      (step ctx m t b).2 = .next) :
    ∃ m t, During ctx n (before ++ c :: after) s m t c after := by
  induction before generalizing n s with
  | nil => exact ⟨n, s, .here n c after s⟩
  | cons b before ih =>
    have hb := hnext n s b _ (.here n b _ s)
    obtain ⟨m, t, hduring⟩ := ih fun m t c' cs' h ↦ hnext m t c' cs' (.later hb h)
    exact ⟨m, t, .later hb hduring⟩

/-- A pass that gives up says so. -/
theorem stopped_of_flow {c : Change} (h : (step ctx n s c).2 = .stop) :
    (step ctx n s c).1.out.stopped ≠ none := by
  have hstepped := step_stepped ctx n s c
  generalize step ctx n s c = r at h hstepped
  cases hstepped with
  | ignored => cases h
  | stopped why => exact Option.some_ne_none why
  | upserted _ hup => cases hup <;> cases h
  | folderUpserted _ hup => cases hup <;> cases h
  | removed _ _ => cases h
  | folderRemoved _ _ => cases h

/-- What holds when a run begins, and is kept by every change, holds when it ends, of the changes
that are left then; and none are left if nothing ended it. -/
theorem run_induction {P : List Change → Pass → Prop} {cs : List Change}
    (hstep : ∀ m t c cs', During ctx n cs s m t c cs' → P (c :: cs') t →
      P cs' (step ctx m t c).1)
    (h : P cs s) : ∃ rest, P rest (run ctx n cs s).1
      ∧ ((run ctx n cs s).2 = none → (run ctx n cs s).1.out.stopped = none → rest = []) := by
  induction cs generalizing n s with
  | nil => exact ⟨[], h, fun _ _ ↦ rfl⟩
  | cons c cs ih =>
    have hnext := hstep n s c cs (.here n c cs s) h
    rw [run]
    match hr : step ctx n s c with
    | (t, .next) =>
      have ht : (step ctx n s c).1 = t := by rw [hr]
      refine ih (fun m u c' cs' hduring ↦ hstep m u c' cs' ?_) (ht ▸ hnext)
      exact .later (by rw [hr]) (by rwa [hr])
    | (t, .stop) =>
      refine ⟨cs, by rwa [hr] at hnext, fun _ hstopped ↦ absurd hstopped ?_⟩
      have hgave : (step ctx n s c).1.out.stopped ≠ none := stopped_of_flow (by rw [hr])
      rwa [hr] at hgave
    | (t, .error e) => exact ⟨cs, by rwa [hr] at hnext, fun h ↦ absurd h (Option.some_ne_none e)⟩

/-! ## What the materialiser is asked for -/

/-- The calls that a change can add to those before it. -/
inductive Asks (ctx : Ctx) (n : ℕ) (s : Pass) : Change → Call → Prop
  | place {cloudId path : String} {size : ℕ} {etag : Option String} {abs : RelPath} {t : Pass} :
      Applies ctx n (.upserted cloudId path size etag) → safeJoin path = some abs →
      size ≤ maxObject → moveFile ctx n s cloudId path abs = .ok t →
      (∀ i, t.disk.get abs = some i → Replaceable ctx i cloudId size etag) →
      Asks ctx n s (.upserted cloudId path size etag) (.place abs cloudId t.disk)
  | remove {cloudId : String} {e : StoreEntry} {i : Inode} : s.files.lookup cloudId = some e →
      s.disk.get e.path = some i → i.stat.file ∉ ctx.waiting → i.stampState ≠ .ok .dirty →
      Asks ctx n s (.removed cloudId) (.remove e.path cloudId s.disk)

theorem FileFollowed.calls {r : Except (Pass × Flow) Pass} (h : FileFollowed s cloudId abs r)
    (hr : r = .ok s') : s'.calls = s.calls := by
  cases h with
  | stays _ => cases hr; rfl
  | refused _ => cases hr
  | moved _ hfollows _ _ => cases hr; exact hfollows.calls

theorem FolderFollowed.calls {r : Except (Pass × Flow) Pass} (h : FolderFollowed s cloudId abs r)
    (hr : r = .ok s') : s'.calls = s.calls := by
  cases h with
  | stays _ => cases hr; rfl
  | refused _ => cases hr
  | broken _ _ _ _ _ _ => cases hr
  | moved _ hfollows _ _ => cases hr; exact hfollows.calls

/-- A change asks for one thing, or for none. -/
theorem step_calls (ctx : Ctx) (n : ℕ) (s : Pass) (c : Change) :
    (step ctx n s c).1.calls = s.calls
      ∨ ∃ call, Asks ctx n s c call ∧ (step ctx n s c).1.calls = s.calls ++ [call] := by
  have hstepped := step_stepped ctx n s c
  generalize step ctx n s c = r at hstepped
  cases hstepped with
  | ignored => exact Or.inl rfl
  | stopped why => exact Or.inl rfl
  | upserted happlies hup =>
    cases hup with
    | refused h => exact Or.inl h.calls
    | went habs hsize hmove hfollowed hrefreshed =>
      have hcalls := hfollowed.calls rfl
      cases hrefreshed with
      | current _ _ => exact Or.inl hcalls
      | kept _ _ h => exact Or.inl (h.calls.trans hcalls)
      | refused _ _ _ h _ hreplace =>
        exact Or.inr ⟨_, .place happlies habs hsize hmove hreplace, h.trans (by rw [hcalls])⟩
      | placed _ _ _ _ _ _ _ _ h _ hreplace =>
        exact Or.inr ⟨_, .place happlies habs hsize hmove hreplace, h.trans (by rw [hcalls])⟩
  | folderUpserted _ hup =>
    left
    cases hup with
    | refused h => exact h.calls
    | broken _ _ _ _ h _ => exact h
    | stopped _ _ hfollowed h => exact h.calls.trans (hfollowed.calls rfl)
    | went _ _ hfollowed _ _ _ _ hcalls _ hclaimed =>
      refine Eq.trans ?_ (hcalls.trans (hfollowed.calls rfl))
      cases hclaimed with
      | refused h => exact h.calls
      | unfinished h _ _ _ _ => exact h.calls
      | claimed h _ _ _ _ => exact h.calls
  | removed _ hrem =>
    cases hrem with
    | absent _ => exact Or.inl rfl
    | kept h => exact Or.inl h.calls
    | refused he hi hwaits hstamp _ _ _ h _ => exact Or.inr ⟨_, .remove he hi hwaits hstamp, h⟩
    | gone he hi _ hwaits hstamp _ _ _ h _ => exact Or.inr ⟨_, .remove he hi hwaits hstamp, h⟩
  | folderRemoved _ hrem =>
    left
    cases hrem with
    | idle _ _ _ h _ => exact h
    | marked _ h _ _ _ _ => exact h.calls
    | gone _ _ _ _ _ _ _ h _ => exact h

/-- What a run asks for is asked for by one of its changes. -/
theorem exists_asks {cs : List Change} {call : Call} (h : call ∈ (run ctx n cs s).1.calls) :
    call ∈ s.calls ∨ ∃ m t c cs', During ctx n cs s m t c cs' ∧ Asks ctx m t c call := by
  let Asked : Call → Prop := fun call ↦ call ∈ s.calls
    ∨ ∃ m t c cs', During ctx n cs s m t c cs' ∧ Asks ctx m t c call
  have hstep : ∀ m t c cs', During ctx n cs s m t c cs' → (∀ call ∈ t.calls, Asked call) →
      ∀ call ∈ (step ctx m t c).1.calls, Asked call := by
    intro m t c cs' hduring ht call hcall
    rcases step_calls ctx m t c with heq | ⟨new, hasks, heq⟩
    · exact ht call (heq ▸ hcall)
    · rw [heq] at hcall
      rcases List.mem_append.mp hcall with hcall | hcall
      · exact ht call hcall
      · rw [List.mem_singleton.mp hcall]
        exact Or.inr ⟨m, t, c, cs', hduring, hasks⟩
  obtain ⟨-, hcalls, -⟩ := run_induction (P := fun _ t ↦ ∀ call ∈ t.calls, Asked call) hstep
    fun call hcall ↦ Or.inl hcall
  exact hcalls call h

/-- What has been asked for is not forgotten. -/
theorem calls_subset_run (cs : List Change) : s.calls ⊆ (run ctx n cs s).1.calls := by
  have hkept : ∀ m t c cs', During ctx n cs s m t c cs' → s.calls ⊆ t.calls →
      s.calls ⊆ (step ctx m t c).1.calls := by
    intro m t c cs' _ ht
    rcases step_calls ctx m t c with heq | ⟨new, -, heq⟩
    · rwa [heq]
    · rw [heq]
      exact List.Subset.trans ht (List.subset_append_left _ _)
  obtain ⟨-, hcalls, -⟩ := run_induction (P := fun _ t ↦ s.calls ⊆ t.calls) hkept
    (List.Subset.refl s.calls)
  exact hcalls

theorem mem_run_calls {cs cs' : List Change} {m : ℕ} {t : Pass} {c : Change} {call : Call}
    (h : During ctx n cs s m t c cs') (hcall : call ∈ (step ctx m t c).1.calls) :
    call ∈ (run ctx n cs s).1.calls := by
  rw [h.run_eq, run]
  match hr : step ctx m t c with
  | (t, .next) => exact calls_subset_run cs' (by rwa [hr] at hcall)
  | (t, .stop) => rwa [hr] at hcall
  | (t, .error e) => rwa [hr] at hcall

/-- A change that finds at its path what may be replaced asks for a placeholder. -/
theorem asked_place {size : ℕ} {etag : Option String} {t : Pass}
    (happlies : Applies ctx n (.upserted cloudId path size etag)) (habs : safeJoin path = some abs)
    (hsize : size ≤ maxObject) (hmove : moveFile ctx n s cloudId path abs = .ok t)
    (hreplace : ∀ i, t.disk.get abs = some i → Replaceable ctx i cloudId size etag) :
    .place abs cloudId t.disk ∈ (step ctx n s (.upserted cloudId path size etag)).1.calls := by
  have hstep : step ctx n s (.upserted cloudId path size etag)
      = (refreshFile ctx n t cloudId path abs size etag, .next) := by
    rw [step, happlies.current]
    dsimp only
    unfold applyChange
    rw [happlies.synced]
    dsimp only
    rw [if_neg Bool.false_ne_true, upserted, habs]
    dsimp only
    rw [if_neg (Nat.not_lt.mpr hsize), hmove]
  have hrefreshed := refreshFile_refreshed ctx n t cloudId path abs size etag
  rw [hstep]
  generalize refreshFile ctx n t cloudId path abs size etag = s' at hrefreshed
  cases hrefreshed with
  | current hi hcurrent => exact absurd hcurrent (Bool.eq_false_iff.mp (hreplace _ hi).news)
  | kept hi hnot _ => exact absurd (hreplace _ hi) hnot
  | refused _ _ _ hcalls _ _ => exact hcalls ▸ List.mem_append_right _ List.mem_cons_self
  | placed _ _ _ _ _ _ _ _ hcalls _ _ => exact hcalls ▸ List.mem_append_right _ List.mem_cons_self

/-! ## Passes that report nothing -/

/-- What has been reported is not taken back. -/
theorem clean_of_step {c : Change} (h : (step ctx n s c).1.out.Clean) : s.out.Clean := by
  have hstepped := step_stepped ctx n s c
  generalize step ctx n s c = r at h hstepped
  have hfile : ∀ {cloudId abs s₁}, FileFollowed s cloudId abs (.ok s₁) → s₁.out.Clean →
      s.out.Clean := by
    intro cloudId abs s₁ hfollowed hclean
    match hfollowed with
    | .stays _ => exact hclean
    | .moved _ hfollows _ _ => exact hfollows.clean hclean
  have hfolder : ∀ {cloudId abs s₁}, FolderFollowed s cloudId abs (.ok s₁) → s₁.out.Clean →
      s.out.Clean := by
    intro cloudId abs s₁ hfollowed hclean
    match hfollowed with
    | .stays _ => exact hclean
    | .moved _ hfollows _ _ => exact hfollows.clean hclean
  match hstepped with
  | .ignored => exact absurd h not_clean_ignored
  | .stopped _ => exact absurd h.stopped (Option.some_ne_none _)
  | .upserted _ (.refused hrefuses) => exact absurd h hrefuses.unclean
  | .upserted _ (.went _ _ _ hfollowed hrefreshed) =>
    match hrefreshed with
    | .current _ _ => exact hfile hfollowed h
    | .kept _ _ hrefuses => exact absurd h hrefuses.unclean
    | .refused _ _ _ _ hunclean _ => exact absurd h hunclean
    | .placed _ _ _ _ _ _ _ _ _ hclean _ => exact hfile hfollowed (hclean h)
  | .folderUpserted _ (.refused hrefuses) => exact absurd h hrefuses.unclean
  | .folderUpserted _ (.broken _ _ _ _ _ hout) => exact hout ▸ h
  | .folderUpserted _ (.stopped _ _ _ hrefuses) => exact absurd h hrefuses.unclean
  | .folderUpserted _ (.went _ _ hfollowed _ _ _ _ _ hclean hclaimed) =>
    refine hfolder hfollowed (hclean ?_)
    match hclaimed with
    | .refused hrefuses => exact absurd h hrefuses.unclean
    | .unfinished _ _ _ _ hunclean => exact absurd h hunclean
    | .claimed _ _ _ _ hclean => exact hclean h
  | .removed _ (.absent _) => exact h
  | .removed _ (.kept hrefuses) => exact absurd h hrefuses.unclean
  | .removed _ (.refused _ _ _ _ _ _ _ _ hunclean) => exact absurd h hunclean
  | .removed _ (.gone _ _ _ _ _ _ _ _ _ hclean) => exact hclean h
  | .folderRemoved _ (.idle _ _ _ _ hclean) => exact hclean h
  | .folderRemoved _ (.marked _ _ _ _ _ hclean) => exact hclean h
  | .folderRemoved _ (.gone _ _ _ _ _ _ _ _ hclean) => exact hclean h

end HydrationAPI.Client.Delta
