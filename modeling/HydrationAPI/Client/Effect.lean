import HydrationAPI.Client.HeldCursor

/-!
# What a change would do

What a change would do to the tree is said of the tree alone: where it would put, move or remove a
file, make or move a folder, or record on a directory what it is. A change that would do nothing
does nothing, whatever the operating system answers, and one that would do something does it where
every call succeeds.
-/

namespace HydrationAPI.Client.Delta

open PathMap

/-! ## What a change would do -/

/-- The directories above what exists are there. -/
structure Rooted (d : Disk) : Prop where
  root : d.isDirAt [] = true
  above : ∀ p i, d.get p = some i → ∀ q, q <+: p → q ≠ p → d.isDirAt q = true

/-- Nothing is at the path, and no file is on the way to it. -/
def Open (d : Disk) (p : RelPath) : Prop := d.get p = none ∧ blocked d p = false

/-- The object is nowhere but at the path, as far as the pass knows. -/
def AtMost (d : Disk) (at' : Option RelPath) (abs : RelPath) : Prop :=
  ∀ p, at' = some p → p = abs ∨ d.get p = none

/-- The change would change the tree.

A file is put, or moved, to a path that is open, and at a path that is not the file may be replaced
if the object is not elsewhere. A file is removed unless its path is ignored, it waits to be sent or
it has changed. A folder is made, or moved, at a path that is open, unless it would be moved into
itself; at a path that is not it is recorded on a directory that claims to be no other, and it has
been recorded already unless that says something new. -/
def Acts (ctx : Ctx) (s : Pass) (c : Change) : Prop :=
  (declared c).any ctx.ignore.isIgnored = false ∧ match c with
  | .upserted cloudId path size etag => ∃ abs, safeJoin path = some abs ∧ size ≤ maxObject
      ∧ (Open s.disk abs ∨ ∃ i, s.disk.fileAt abs = some i ∧ Replaceable ctx i cloudId size etag
        ∧ AtMost s.disk ((s.files.lookup cloudId).map StoreEntry.path) abs)
  | .removed cloudId => ∃ e i, s.files.lookup cloudId = some e ∧ ctx.ignore.ignores e.path = false
      ∧ s.disk.fileAt e.path = some i ∧ i.stat.file ∉ ctx.waiting ∧ i.stampState ≠ .ok .dirty
  | .folderUpserted cloudId path etag => ∃ abs, folderPath path = some abs
      ∧ (Open s.disk abs ∧ (∀ p, s.folders.lookup cloudId = some p → s.disk.exists' p = true →
          p <+: abs → s.disk.isDirAt abs.dropLast = false)
        ∨ ∃ i, s.disk.get abs = some i ∧ i.isDir = true
          ∧ AtMost s.disk (s.folders.lookup cloudId) abs
          ∧ (i.id.isSome = true → i.id = .text cloudId)
          ∧ ¬ (i.id = .text cloudId ∧ i.etag = folderTag etag))
  | .folderRemoved cloudId _ => cloudId ∉ ctx.ignoredFolders
      ∧ ∃ p, s.folders.lookup cloudId = some p ∧ p ≠ [] ∧ ctx.ignore.ignores p = false

/-- The change ends the pass: a folder is to be moved to a path with a file on the way. -/
def Ends (ctx : Ctx) (s : Pass) (c : Change) : Prop :=
  (declared c).any ctx.ignore.isIgnored = false ∧ match c with
  | .folderUpserted cloudId path _ => ∃ abs p, folderPath path = some abs
      ∧ blocked s.disk abs = true ∧ s.folders.lookup cloudId = some p ∧ s.disk.exists' p = true
  | .upserted .. | .removed _ | .folderRemoved .. => False

variable {d d' : Disk} {p q abs : RelPath} {i : Inode} {cloudId path : String} {n size : ℕ}
  {etag : Option String} {ctx : Ctx} {s t : Pass} {mkdir : RelPath → Except String Stat}

/-! ## Directories on the way -/

theorem isDirAt_iff : d.isDirAt p = true ↔ ∃ i, d.get p = some i ∧ i.isDir = true := by
  rw [Disk.isDirAt, Option.any_eq_true]

theorem blocked_iff : blocked d p = true ↔ ∃ q i, q <+: p ∧ q ≠ p ∧ d.fileAt q = some i := by
  rw [blocked, List.any_eq_true]
  simp only [List.mem_inits, decide_eq_true_eq, Option.isSome_iff_exists]
  exact ⟨fun ⟨q, hq, hne, i, hi⟩ ↦ ⟨q, i, hq, hne, hi⟩,
    fun ⟨q, i, hq, hne, hi⟩ ↦ ⟨q, hq, hne, i, hi⟩⟩

/-- What is above a path is above or at the directory it is in. -/
theorem prefix_dropLast (h : q <+: p) (hne : q ≠ p) : q <+: p.dropLast := by
  obtain ⟨r, rfl⟩ := h
  have hr : r ≠ [] := fun hr ↦ hne (by rw [hr, List.append_nil])
  rw [List.dropLast_append_of_ne_nil hr]
  exact List.prefix_append q _

/-- A path that has a file on the way leads to nothing. -/
theorem Rooted.get_of_blocked (hd : Rooted d) (h : blocked d p = true) : d.get p = none := by
  obtain ⟨q, j, hq, hne, hj⟩ := blocked_iff.mp h
  refine Option.eq_none_iff_forall_ne_some.mpr fun i hi ↦ ?_
  obtain ⟨hj, hfile⟩ := (Disk.fileAt_eq_some d).mp hj
  obtain ⟨k, hk, hdir⟩ := isDirAt_iff.mp (hd.above p i hi q hq hne)
  cases hj.symm.trans hk
  exact Bool.false_ne_true (hfile.symm.trans hdir)

/-- Nor is the directory there that it would be in. -/
theorem Rooted.not_isDirAt_of_blocked (hd : Rooted d) (h : blocked d p = true) :
    d.isDirAt p.dropLast = false := by
  obtain ⟨q, j, hq, hne, hj⟩ := blocked_iff.mp h
  obtain ⟨hj', hfile⟩ := (Disk.fileAt_eq_some d).mp hj
  refine Bool.eq_false_iff.mpr fun hdir ↦ ?_
  obtain ⟨k, hk, hdir⟩ := isDirAt_iff.mp hdir
  by_cases heq : q = p.dropLast
  · rw [← heq] at hk
    cases hj'.symm.trans hk
    exact Bool.false_ne_true (hfile.symm.trans hdir)
  · have hblocked := blocked_iff.mpr ⟨q, j, prefix_dropLast hq hne, heq, hj⟩
    exact Option.some_ne_none k (hk.symm.trans (hd.get_of_blocked hblocked))

/-- No directory is made where a file is on the way. -/
theorem Rooted.makeDirs_blocked (hd : Rooted d) {done rest : RelPath} (hq : q <+: done ++ rest)
    (hdone : done <+: q) (hne : done ≠ q) (hi : d.fileAt q = some i) :
    ∃ e, makeDirs mkdir d done rest = (d, some e) := by
  induction rest generalizing done with
  | nil =>
    rw [List.append_nil] at hq
    exact absurd (hdone.eq_of_length_le hq.length_le) hne
  | cons name rest ih =>
    obtain ⟨r, rfl⟩ := hdone
    rw [List.prefix_append_right_inj] at hq
    cases r with
    | nil => exact absurd (List.append_nil done).symm hne
    | cons c r =>
      obtain ⟨rfl, hr⟩ := List.cons_prefix_cons.mp hq
      rw [makeDirs]
      cases r with
      | nil =>
        obtain ⟨hi, hfile⟩ := (Disk.fileAt_eq_some d).mp hi
        rw [hi]
        dsimp only
        rw [if_neg (by rw [hfile]; exact Bool.false_ne_true)]
        exact ⟨_, rfl⟩
      | cons c' r =>
        have hinto : done ++ [c] <+: done ++ c :: c' :: r := ⟨c' :: r, by simp⟩
        have hlonger : done ++ [c] ≠ done ++ c :: c' :: r := by simp
        obtain ⟨hfile, -⟩ := (Disk.fileAt_eq_some d).mp hi
        obtain ⟨j, hj, hdir⟩ := isDirAt_iff.mp (hd.above _ i hfile _ hinto hlonger)
        rw [hj]
        dsimp only
        rw [if_pos hdir]
        refine ih ?_ hinto hlonger
        rw [List.append_assoc, List.prefix_append_right_inj, List.singleton_append]
        exact List.cons_prefix_cons.mpr ⟨rfl, hr⟩

theorem Rooted.createDirAll_blocked (hd : Rooted d) (mkdir : RelPath → Except String Stat)
    (hq : q <+: p) (hi : d.fileAt q = some i) :
    ∃ e, createDirAll mkdir d p = (d, some e) := by
  refine hd.makeDirs_blocked hq List.nil_prefix (fun hroot ↦ ?_) hi
  subst hroot
  obtain ⟨hi, hfile⟩ := (Disk.fileAt_eq_some d).mp hi
  obtain ⟨j, hj, hdir⟩ := isDirAt_iff.mp hd.root
  cases hi.symm.trans hj
  exact Bool.false_ne_true (hfile.symm.trans hdir)

/-- What is there need not be made. -/
theorem Rooted.makeDirs_there (hd : Rooted d) {done rest : RelPath}
    (h : d.isDirAt (done ++ rest) = true) : makeDirs mkdir d done rest = (d, none) := by
  induction rest generalizing done with
  | nil => rfl
  | cons name rest ih =>
    have happend : done ++ name :: rest = done ++ [name] ++ rest := by simp
    rw [happend] at h
    have hdir : d.isDirAt (done ++ [name]) = true := by
      match rest with
      | [] => rwa [List.append_nil] at h
      | c :: rest =>
        obtain ⟨i, hi, -⟩ := isDirAt_iff.mp h
        exact hd.above _ i hi _ (List.prefix_append _ _) (by simp)
    obtain ⟨i, hi, hdir⟩ := isDirAt_iff.mp hdir
    rw [makeDirs]
    rw [hi]
    dsimp only
    rw [if_pos hdir]
    exact ih h

theorem Rooted.createDirAll_there (hd : Rooted d) (h : d.isDirAt p = true) :
    createDirAll mkdir d p = (d, none) := hd.makeDirs_there h

/-- Where directories can be made, and no file is on the way, they are. -/
theorem makeDirs_made (hmkdir : ∀ p, ∃ st, mkdir p = .ok st) {done rest : RelPath}
    (hdone : d.isDirAt done = true)
    (hfree : ∀ q, done <+: q → q <+: done ++ rest → d.fileAt q = none) :
    ∃ d', makeDirs mkdir d done rest = (d', none) ∧ d'.isDirAt (done ++ rest) = true := by
  induction rest generalizing d done with
  | nil => exact ⟨d, rfl, by rwa [List.append_nil]⟩
  | cons name rest ih =>
    have happend : done ++ name :: rest = done ++ [name] ++ rest := by simp
    rw [happend] at hfree ⊢
    have hhere := hfree (done ++ [name]) (List.prefix_append _ _) (List.prefix_append _ _)
    rw [makeDirs]
    cases hi : d.get (done ++ [name]) with
    | some i =>
      have hdir : i.isDir = true := by
        refine Bool.not_eq_false _ ▸ fun hfile ↦ ?_
        exact Option.some_ne_none i (((Disk.fileAt_eq_some d).mpr ⟨hi, hfile⟩).symm.trans hhere)
      dsimp only
      rw [if_pos hdir]
      exact ih (isDirAt_iff.mpr ⟨i, hi, hdir⟩) fun q hq ↦ hfree q
        ((List.prefix_append _ _).trans hq)
    | none =>
      obtain ⟨st, hst⟩ := hmkdir (done ++ [name])
      rw [hst]
      refine ih (isDirAt_iff.mpr ⟨_, get_set_self, rfl⟩) fun q hq hle ↦ ?_
      rw [(Grows.set_newDir hi).fileAt]
      exact hfree q ((List.prefix_append _ _).trans hq) hle

theorem Rooted.createDirAll_made (hd : Rooted d) (hmkdir : ∀ p, ∃ st, mkdir p = .ok st)
    (hfree : ∀ q, q <+: p → d.fileAt q = none) :
    ∃ d', createDirAll mkdir d p = (d', none) ∧ d'.isDirAt p = true :=
  makeDirs_made hmkdir hd.root fun q _ hq ↦ hfree q hq

/-! ## What is not done -/

/-- The directory is as it was, and so is what the pass knows of the files. -/
structure Untouched (s s' : Pass) : Prop where
  disk : ∀ p, s'.disk.get p = s.disk.get p
  files : s'.files = s.files

/-- What the pass knows of the folders is as it was, too. -/
structure Still (s s' : Pass) : Prop extends Untouched s s' where
  folders : s'.folders = s.folders

theorem Still.of_eq {s' : Pass} (hdisk : s'.disk = s.disk) (hfiles : s'.files = s.files)
    (hfolders : s'.folders = s.folders) : Still s s' :=
  ⟨⟨fun p ↦ congrArg (·.get p) hdisk, hfiles⟩, hfolders⟩

theorem Still.refl (s : Pass) : Still s s := .of_eq rfl rfl rfl

theorem Still.fail {why : Failure} {retryable : Bool} : Still s (s.fail path why retryable) :=
  .of_eq rfl rfl rfl

theorem blocked_of_not_open (h : ¬ Open d p) (hnone : d.get p = none) : blocked d p = true := by
  by_contra hblocked
  exact h ⟨hnone, Bool.eq_false_iff.mpr hblocked⟩

/-- The directories above a path that has a file on the way. -/
theorem Rooted.createDirAll_dropLast (hd : Rooted d) (mkdir : RelPath → Except String Stat)
    (h : blocked d p = true) :
    ∃ e, createDirAll mkdir d p.dropLast = (d, some e) := by
  obtain ⟨q, i, hq, hne, hi⟩ := blocked_iff.mp h
  exact hd.createDirAll_blocked mkdir (prefix_dropLast hq hne) hi

/-- The directory that something is in is there. -/
theorem Rooted.isDirAt_dropLast (hd : Rooted d) (h : d.get p = some i) :
    d.isDirAt p.dropLast = true := by
  by_cases hp : p = []
  · rw [hp]
    exact hd.root
  · refine hd.above p i h _ (List.dropLast_prefix p) fun heq ↦ ?_
    have hlength := congrArg List.length heq
    rw [List.length_dropLast] at hlength
    exact hp (List.length_eq_zero_iff.mp (by omega))

/-- No placeholder is put where a file is on the way, or a directory is. -/
theorem Rooted.place_refused (hd : Rooted d) (os : Os)
    (h : blocked d abs = true ∨ d.isDirAt abs = true) :
    ∃ e, place os n d abs size cloudId etag = (d, some e) := by
  rw [place]
  rcases h with hblocked | hdir
  · obtain ⟨e, he⟩ := hd.createDirAll_dropLast (os.mkdir n) hblocked
    rw [he]
    exact ⟨e, rfl⟩
  · obtain ⟨i, hi, -⟩ := isDirAt_iff.mp hdir
    rw [hd.createDirAll_there (hd.isDirAt_dropLast hi)]
    dsimp only
    cases os.place n with
    | error e => exact ⟨e, rfl⟩
    | ok placed => exact ⟨_, if_pos hdir⟩

theorem placeFile_still (hd : Rooted s.disk) {count : Applied → Applied}
    (h : blocked s.disk abs = true ∨ s.disk.isDirAt abs = true) :
    Still s (placeFile ctx n s cloudId path abs size etag count) := by
  obtain ⟨e, he⟩ := hd.place_refused ctx.os h
  rw [placeFile, he]
  exact .of_eq rfl rfl rfl

theorem rename_error (fault : Option String) (src : RelPath) {dst : RelPath}
    (h : d.isDirAt dst.dropLast = false) : ∃ e, rename fault d src dst = .error e := by
  match fault with
  | some e => exact ⟨e, rfl⟩
  | none =>
    rw [rename]
    split
    · exact ⟨_, rfl⟩
    · rw [if_neg (Bool.eq_false_iff.mp h)]
      exact ⟨_, rfl⟩

/-- A file is not moved to a path that is not open. -/
theorem moveFile_still (ctx : Ctx) (n : ℕ) (cloudId path : String) (hd : Rooted s.disk)
    (h : ¬ Open s.disk abs) :
    (∃ s', moveFile ctx n s cloudId path abs = .error (s', .next) ∧ Still s s')
      ∨ moveFile ctx n s cloudId path abs = .ok s
        ∧ AtMost s.disk ((s.files.lookup cloudId).map StoreEntry.path) abs := by
  rw [moveFile]
  cases hlookup : s.files.lookup cloudId with
  | none => exact Or.inr ⟨rfl, fun p hp ↦ by cases hp⟩
  | some e =>
    dsimp only
    by_cases hmoves : e.path ≠ abs ∧ s.disk.exists' e.path = true
    · rw [if_pos hmoves]
      by_cases hthere : s.disk.exists' abs = true
      · rw [if_pos hthere]
        exact Or.inl ⟨_, rfl, .fail⟩
      · rw [if_neg hthere]
        have hblocked := blocked_of_not_open h (get_eq_none_of_not_exists' hthere)
        obtain ⟨e₁, he₁⟩ := hd.createDirAll_dropLast (ctx.os.mkdir n) hblocked
        obtain ⟨e₂, he₂⟩ := rename_error (ctx.os.rename n) e.path
          (hd.not_isDirAt_of_blocked hblocked)
        rw [he₁]
        dsimp only
        rw [he₂]
        exact Or.inl ⟨_, rfl, .of_eq rfl rfl rfl⟩
    · rw [if_neg hmoves]
      refine Or.inr ⟨rfl, fun p hp ↦ ?_⟩
      obtain rfl := Option.some_inj.mp hp
      by_cases heq : e.path = abs
      · exact Or.inl heq
      · exact Or.inr (get_eq_none_of_not_exists' fun hthere ↦ hmoves ⟨heq, hthere⟩)

/-- Nothing is put at a path that is not open, unless a file there may be replaced. -/
theorem refreshFile_still (hd : Rooted s.disk) (h : ¬ Open s.disk abs)
    (hkept : ∀ i, s.disk.fileAt abs = some i → ¬ Replaceable ctx i cloudId size etag) :
    Still s (refreshFile ctx n s cloudId path abs size etag) := by
  rw [refreshFile]
  cases hi : s.disk.get abs with
  | none => exact placeFile_still hd (Or.inl (blocked_of_not_open h hi))
  | some i =>
    dsimp only
    split
    · exact .refl s
    · rename_i hnews
      split
      · exact .of_eq rfl rfl rfl
      · rename_i hwaits
        split
        · exact .of_eq rfl rfl rfl
        · rename_i hknown
          split
          · exact .of_eq rfl rfl rfl
          · rename_i hstamp
            refine placeFile_still hd (Or.inr (isDirAt_iff.mpr ⟨i, hi, ?_⟩))
            refine Bool.not_eq_false _ ▸ fun hfile ↦ ?_
            refine hkept i ((Disk.fileAt_eq_some _).mpr ⟨hi, hfile⟩)
              ⟨Bool.eq_false_iff.mpr hnews, hwaits, ?_, hstamp⟩
            by_contra hnot
            obtain ⟨hfilled, hsize⟩ := not_or.mp hnot
            exact hknown ⟨hfilled, Nat.pos_of_ne_zero hsize⟩

theorem upserted_still (hd : Rooted s.disk)
    (hsynced : (declared (.upserted cloudId path size etag)).any ctx.ignore.isIgnored = false)
    (h : ¬ Acts ctx s (.upserted cloudId path size etag)) :
    Still s (upserted ctx n s cloudId path size etag).1 := by
  rw [upserted]
  cases habs : safeJoin path with
  | none => exact .fail
  | some abs =>
    dsimp only
    by_cases hsize : size > maxObject
    · rw [if_pos hsize]
      exact .fail
    · rw [if_neg hsize]
      have hidle : ¬ (Open s.disk abs ∨ ∃ i, s.disk.fileAt abs = some i
          ∧ Replaceable ctx i cloudId size etag
          ∧ AtMost s.disk ((s.files.lookup cloudId).map StoreEntry.path) abs) := fun hacts ↦
        h ⟨hsynced, abs, habs, Nat.le_of_not_lt hsize, hacts⟩
      obtain ⟨hopen, hkept⟩ := not_or.mp hidle
      rcases moveFile_still ctx n cloudId path hd hopen with
        ⟨s', hmove, hstill⟩ | ⟨hmove, hmost⟩
      · rw [hmove]
        exact hstill
      · rw [hmove]
        exact refreshFile_still hd hopen fun i hi hreplace ↦ hkept ⟨i, hi, hreplace, hmost⟩

theorem removed_still
    (hsynced : (declared (.removed cloudId)).any ctx.ignore.isIgnored = false)
    (h : ¬ Acts ctx s (.removed cloudId)) : Still s (removed ctx n s cloudId) := by
  rw [removed]
  cases he : s.files.lookup cloudId with
  | none => exact .refl s
  | some e =>
    dsimp only
    split
    · exact .of_eq rfl rfl rfl
    · rename_i hignored
      cases hi : s.disk.get e.path with
      | none => exact .refl s
      | some i =>
        dsimp only
        split
        · exact .of_eq rfl rfl rfl
        · rename_i hwaits
          split
          · exact .of_eq rfl rfl rfl
          · rename_i hstamp
            have hdir : s.disk.isDirAt e.path = true := by
              refine isDirAt_iff.mpr ⟨i, hi, Bool.not_eq_false _ ▸ fun hfile ↦ h ?_⟩
              exact ⟨hsynced, e, i, he, Bool.eq_false_iff.mpr hignored,
                (Disk.fileAt_eq_some _).mpr ⟨hi, hfile⟩, hwaits, hstamp⟩
            rw [remove, if_pos hdir]
            exact .of_eq rfl rfl rfl

/-! ### Folders -/

/-- A folder is not moved to a path that is not open, nor into itself. -/
theorem moveFolder_still (ctx : Ctx) (n : ℕ) (cloudId path : String) (hd : Rooted s.disk)
    (h : ¬ (Open s.disk abs ∧ ∀ p, s.folders.lookup cloudId = some p → s.disk.exists' p = true →
      p <+: abs → s.disk.isDirAt abs.dropLast = false)) :
    (∃ s', moveFolder ctx n s cloudId path abs = .error (s', .next) ∧ Still s s')
      ∨ (∃ s' e, moveFolder ctx n s cloudId path abs = .error (s', .error e) ∧ Still s s'
        ∧ blocked s.disk abs = true
        ∧ ∃ p, s.folders.lookup cloudId = some p ∧ s.disk.exists' p = true)
      ∨ moveFolder ctx n s cloudId path abs = .ok s
        ∧ AtMost s.disk (s.folders.lookup cloudId) abs := by
  rw [moveFolder]
  cases hlookup : s.folders.lookup cloudId with
  | none => exact Or.inr (Or.inr ⟨rfl, fun p hp ↦ by cases hp⟩)
  | some p =>
    dsimp only
    by_cases hmoves : p ≠ abs ∧ s.disk.exists' p = true
    · rw [if_pos hmoves]
      by_cases hthere : s.disk.exists' abs = true
      · rw [if_pos hthere]
        exact Or.inl ⟨_, rfl, .fail⟩
      rw [if_neg hthere]
      have hnone := get_eq_none_of_not_exists' hthere
      by_cases hblocked : blocked s.disk abs = true
      · obtain ⟨e, he⟩ := hd.createDirAll_dropLast (ctx.os.mkdir n) hblocked
        rw [he]
        exact Or.inr (Or.inl ⟨_, e, rfl, .of_eq rfl rfl rfl, hblocked, p, rfl, hmoves.2⟩)
      · have hinside : p <+: abs ∧ s.disk.isDirAt abs.dropLast = true := by
          by_contra hnot
          refine h ⟨⟨hnone, Bool.eq_false_iff.mpr hblocked⟩, fun p' hp' _ hinto ↦ ?_⟩
          cases hlookup.symm.trans hp'
          exact Bool.eq_false_iff.mpr fun hdir ↦ hnot ⟨hinto, hdir⟩
        have hrename : ∃ e, rename (ctx.os.rename n) s.disk p abs = .error e := by
          cases ctx.os.rename n with
          | some e => exact ⟨e, rfl⟩
          | none => exact ⟨_, if_pos hinside.1⟩
        obtain ⟨e, he⟩ := hrename
        rw [hd.createDirAll_there hinside.2]
        dsimp only
        rw [he]
        exact Or.inl ⟨_, rfl, .of_eq rfl rfl rfl⟩
    · rw [if_neg hmoves]
      refine Or.inr (Or.inr ⟨rfl, fun p' hp' ↦ ?_⟩)
      obtain rfl := Option.some_inj.mp hp'
      by_cases heq : p = abs
      · exact Or.inl heq
      · exact Or.inr (get_eq_none_of_not_exists' fun hthere ↦ hmoves ⟨heq, hthere⟩)

theorem makeFolder_still (ctx : Ctx) (n : ℕ) (path : String) (hd : Rooted s.disk)
    (h : ¬ Open s.disk abs) :
    (∃ s', makeFolder ctx n s path abs = .error (s', .next) ∧ Still s s')
      ∨ makeFolder ctx n s path abs = .ok s ∧ s.disk.isDirAt abs = true := by
  rw [makeFolder]
  cases hi : s.disk.get abs with
  | some i =>
    dsimp only
    by_cases hdir : i.isDir = true
    · rw [if_pos hdir]
      exact Or.inr ⟨rfl, isDirAt_iff.mpr ⟨i, hi, hdir⟩⟩
    · rw [if_neg hdir]
      exact Or.inl ⟨_, rfl, .fail⟩
  | none =>
    obtain ⟨q, j, hq, -, hj⟩ := blocked_iff.mp (blocked_of_not_open h hi)
    obtain ⟨e, he⟩ := hd.createDirAll_blocked (ctx.os.mkdir n) hq hj
    rw [he]
    exact Or.inl ⟨_, rfl, .of_eq rfl rfl rfl⟩

/-- What is written is what is there. -/
theorem get_set_same (h : d.get p = some i) (q : RelPath) : (d.set p i).get q = d.get q := by
  rw [get_set]
  split
  · rename_i heq
    rw [heq, h]
  · rfl

/-- Nothing new is recorded on a directory, and nothing where it claims to be another folder. -/
theorem claimFolder_untouched (ctx : Ctx) (n : ℕ) (path : String)
    (hi : s.disk.get abs = some i)
    (h : (i.id.isSome = true → i.id = .text cloudId) →
      i.id = .text cloudId ∧ i.etag = folderTag etag) :
    Untouched s (claimFolder ctx n s cloudId path abs etag)
      ∧ ((claimFolder ctx n s cloudId path abs etag).folders = s.folders
        ∨ (claimFolder ctx n s cloudId path abs etag).folders = s.folders.insert cloudId abs
          ∧ i.id = .text cloudId) := by
  rw [claimFolder, hi]
  dsimp only
  by_cases hother : i.id.isSome = true ∧ i.id ≠ .text cloudId
  · rw [if_pos hother]
    exact ⟨⟨fun _ ↦ rfl, rfl⟩, Or.inl rfl⟩
  rw [if_neg hother]
  obtain ⟨hid, htag⟩ := h fun hsome ↦ by_contra fun hne ↦ hother ⟨hsome, hne⟩
  have hsame : ({ i with id := .text cloudId } : Inode) = i := by rw [← hid]
  cases ctx.os.setId n with
  | some e => exact ⟨⟨fun _ ↦ rfl, rfl⟩, Or.inl rfl⟩
  | none =>
    dsimp only
    rw [hsame]
    cases ctx.os.setEtag n with
    | some e => exact ⟨⟨get_set_same hi, rfl⟩, Or.inl rfl⟩
    | none =>
      have hsame' : ({ i with id := .text cloudId, etag := folderTag etag } : Inode) = i := by
        rw [← hid, ← htag]
      refine ⟨⟨fun q ↦ ?_, rfl⟩, Or.inr ⟨rfl, hid⟩⟩
      exact (congrArg (fun j ↦ (s.disk.set abs j).get q) hsame').trans (get_set_same hi q)

/-- What an upsert of a folder leaves that would do nothing. -/
structure Upheld (ctx : Ctx) (s : Pass) (cloudId path : String) (etag : Option String)
    (r : Pass × Flow) : Prop extends Untouched s r.1 where
  folders : r.1.folders = s.folders ∨ ∃ abs, folderPath path = some abs
    ∧ r.1.folders = s.folders.insert cloudId abs ∧ Claims s.disk cloudId abs
  goes_on : r.2 = .next ∨ (∃ e, r.2 = .error e) ∧ Ends ctx s (.folderUpserted cloudId path etag)

theorem Still.upheld {s' : Pass} (h : Still s s') : Upheld ctx s cloudId path etag (s', .next) :=
  ⟨h.toUntouched, Or.inl h.folders, Or.inl rfl⟩

theorem folderUpserted_untouched (hd : Rooted s.disk)
    (hsynced : (declared (.folderUpserted cloudId path etag)).any ctx.ignore.isIgnored = false)
    (h : ¬ Acts ctx s (.folderUpserted cloudId path etag)) :
    Upheld ctx s cloudId path etag (folderUpserted ctx n s cloudId path etag) := by
  rw [folderUpserted]
  cases habs : folderPath path with
  | none => exact Still.upheld .fail
  | some abs =>
    dsimp only
    obtain ⟨hopen, hclaim⟩ := not_or.mp fun hacts ↦ h ⟨hsynced, abs, habs, hacts⟩
    rcases moveFolder_still ctx n cloudId path hd hopen with
      ⟨s', hmove, hstill⟩ | ⟨s', e, hmove, hstill, hblocked, p, hp, hthere⟩ | ⟨hmove, hmost⟩
    · rw [hmove]
      exact hstill.upheld
    · rw [hmove]
      refine ⟨hstill.toUntouched, Or.inl hstill.folders, Or.inr ⟨⟨e, rfl⟩, hsynced, ?_⟩⟩
      exact ⟨abs, p, habs, hblocked, hp, hthere⟩
    · rw [hmove]
      dsimp only
      have hnot : ¬ Open s.disk abs := fun hopen' ↦ hopen ⟨hopen', fun p hp hthere _ ↦ by
        obtain ⟨i, hi⟩ := exists'_eq_true.mp hthere
        rcases hmost p hp with rfl | hnone
        · exact absurd (hopen'.1.symm.trans hi).symm (Option.some_ne_none i)
        · exact absurd (hnone.symm.trans hi).symm (Option.some_ne_none i)⟩
      rcases makeFolder_still ctx n path hd hnot with
        ⟨s', hmake, hstill⟩ | ⟨hmake, hdir⟩
      · rw [hmake]
        exact hstill.upheld
      · rw [hmake]
        obtain ⟨i, hi, hdir⟩ := isDirAt_iff.mp hdir
        obtain ⟨huntouched, hfolders⟩ := claimFolder_untouched ctx n path hi
          fun hown ↦ by_contra fun hnew ↦ hclaim ⟨i, hi, hdir, hmost, hown, hnew⟩
        refine ⟨huntouched, hfolders.imp_right fun h ↦ ?_, Or.inl rfl⟩
        exact ⟨abs, habs, h.1, i, hi, hdir, h.2⟩

theorem folderRemoved_still
    (hsynced : (declared (.folderRemoved cloudId path)).any ctx.ignore.isIgnored = false)
    (h : ¬ Acts ctx s (.folderRemoved cloudId path)) :
    Still s (folderRemoved ctx n s cloudId path) := by
  rw [folderRemoved]
  by_cases hid : cloudId ∈ ctx.ignoredFolders
  · rw [if_pos hid]
    exact .of_eq rfl rfl rfl
  rw [if_neg hid]
  cases hp : s.folders.lookup cloudId with
  | none => exact .refl s
  | some p =>
    dsimp only
    by_cases hignored : ctx.ignore.ignores p = true
    · rw [if_pos hignored]
      exact .of_eq rfl rfl rfl
    rw [if_neg hignored]
    by_cases hroot : p = []
    · rw [if_pos hroot]
      exact .fail
    · exact absurd ⟨hsynced, hid, p, hp, hroot, Bool.eq_false_iff.mpr hignored⟩ h

/-! ## What is done -/

/-- Every call at a change succeeds. -/
structure Willing (os : Os) (n : ℕ) : Prop where
  current : os.current n = .ok true
  mkdir : ∀ p, ∃ st, os.mkdir n p = .ok st
  rename : os.rename n = none
  place : ∃ st stamped, os.place n = .ok (st, stamped)
  remove : os.remove n = none
  rmdir : os.rmdir n = none
  setId : os.setId n = none
  setEtag : os.setEtag n = none
  removeId : os.removeId n = none

/-- Every file and every folder that the pass knows is where it says. -/
structure Known (s : Pass) : Prop where
  files : ∀ id e, s.files.lookup id = some e → ∃ i, s.disk.fileAt e.path = some i
  folders : ∀ id p, s.folders.lookup id = some p → Claims s.disk id p

/-- No file is on the way to a path that is open. -/
theorem Open.free (h : Open d p) (hq : q <+: p) : d.fileAt q = none := by
  refine Option.eq_none_iff_forall_ne_some.mpr fun i hi ↦ ?_
  by_cases heq : q = p
  · subst heq
    exact Option.some_ne_none i (((Disk.fileAt_eq_some d).mp hi).1.symm.trans h.1)
  · exact Bool.false_ne_true (h.2.symm.trans (blocked_iff.mpr ⟨q, i, hq, heq, hi⟩))

theorem Open.createDirAll (hd : Rooted d) (h : Open d p) (hmkdir : ∀ p, ∃ st, mkdir p = .ok st)
    (hq : q <+: p) : ∃ d', createDirAll mkdir d q = (d', none) ∧ Grows d d'
      ∧ d'.isDirAt q = true := by
  obtain ⟨d', hmade, hdir⟩ := hd.createDirAll_made hmkdir fun r hr ↦ h.free (hr.trans hq)
  have hgrows := grows_createDirAll mkdir d q
  rw [hmade] at hgrows
  exact ⟨d', hmade, hgrows, hdir⟩

/-- Bringing a file up to date leaves something at a path at which there was something. -/
theorem refreshFile_there (h : s.disk.get abs = some i) :
    ∃ j, (refreshFile ctx n s cloudId path abs size etag).disk.get abs = some j := by
  have hspec := refreshFile_refreshed ctx n s cloudId path abs size etag
  generalize refreshFile ctx n s cloudId path abs size etag = s' at hspec ⊢
  cases hspec with
  | current hi _ => exact ⟨_, hi⟩
  | kept hi _ hrefused => exact ⟨i, hrefused.grows.keeps abs i h⟩
  | refused hgrows => exact ⟨i, hgrows.keeps abs i h⟩
  | placed d st stamped _ _ hdisk =>
    rw [hdisk]
    exact ⟨_, get_set_self⟩

/-- A placeholder is put at a path that is open. -/
theorem placeFile_there (hd : Rooted s.disk) (hos : Willing ctx.os n) (h : Open s.disk abs)
    {count : Applied → Applied} :
    ∃ j, (placeFile ctx n s cloudId path abs size etag count).disk.get abs = some j := by
  obtain ⟨d, hmade, -, -⟩ := h.createDirAll hd hos.mkdir (List.dropLast_prefix abs)
  obtain ⟨st, stamped, hst⟩ := hos.place
  rw [placeFile, place, hmade]
  dsimp only
  rw [hst]
  dsimp only
  by_cases hdir : d.isDirAt abs = true
  · rw [if_pos hdir]
    obtain ⟨j, hj, -⟩ := isDirAt_iff.mp hdir
    exact ⟨j, hj⟩
  · rw [if_neg hdir]
    exact ⟨_, get_set_self⟩

theorem moveFile_of_atMost
    (h : AtMost s.disk ((s.files.lookup cloudId).map StoreEntry.path) abs) :
    moveFile ctx n s cloudId path abs = .ok s := by
  rw [moveFile]
  cases hlookup : s.files.lookup cloudId with
  | none => rfl
  | some e =>
    refine if_neg fun hmoves ↦ ?_
    rw [hlookup] at h
    obtain ⟨i, hi⟩ := exists'_eq_true.mp hmoves.2
    rcases h e.path rfl with heq | hnone
    · exact hmoves.1 heq
    · exact Option.some_ne_none i (hi.symm.trans hnone)

theorem not_exists'_of_open (h : Open d p) : d.exists' p = false := by
  rw [Disk.exists', h.1]
  rfl

theorem get_move_self {src dst : RelPath} : (d.move src dst).get dst = d.get src := by
  have hbelow := below_append dst []
  rw [List.append_nil] at hbelow
  rw [get_move, hbelow]
  exact congrArg d.get (List.append_nil src)

/-- A file is at the path then, if it was open. -/
theorem upserted_open (hd : Rooted s.disk) (hos : Willing ctx.os n) (hknown : Known s)
    (habs : safeJoin path = some abs) (hsize : size ≤ maxObject) (h : Open s.disk abs) :
    ∃ j, (upserted ctx n s cloudId path size etag).1.disk.get abs = some j := by
  rw [upserted, habs]
  dsimp only
  rw [if_neg (Nat.not_lt.mpr hsize)]
  by_cases hmost : AtMost s.disk ((s.files.lookup cloudId).map StoreEntry.path) abs
  · rw [moveFile_of_atMost hmost]
    dsimp only
    rw [refreshFile, h.1]
    exact placeFile_there hd hos h
  · cases hlookup : s.files.lookup cloudId with
    | none =>
      rw [hlookup] at hmost
      exact absurd (fun p hp ↦ by cases hp) hmost
    | some e =>
      obtain ⟨i, hi⟩ := hknown.files cloudId e hlookup
      have hget := ((Disk.fileAt_eq_some _).mp hi).1
      have hne : e.path ≠ abs := fun heq ↦ Option.some_ne_none i (hget.symm.trans (heq ▸ h.1))
      have hapart : ¬ e.path <+: abs := fun hinto ↦
        Option.some_ne_none i (hi.symm.trans (h.free hinto))
      obtain ⟨d, hmade, hgrows, hdir⟩ := h.createDirAll hd hos.mkdir (List.dropLast_prefix abs)
      rw [moveFile, hlookup]
      dsimp only
      rw [if_pos ⟨hne, exists'_eq_true.mpr ⟨i, hget⟩⟩, not_exists'_of_open h,
        if_neg Bool.false_ne_true, hmade]
      dsimp only
      rw [hos.rename, rename]
      rw [if_neg hapart, if_pos hdir]
      refine refreshFile_there (i := i) ?_
      exact get_move_self.trans (hgrows.keeps e.path i hget)

/-- A file that may be replaced is replaced. -/
theorem upserted_replaces (hd : Rooted s.disk) (hos : Willing ctx.os n)
    (habs : safeJoin path = some abs) (hsize : size ≤ maxObject)
    (hi : s.disk.fileAt abs = some i) (hreplace : Replaceable ctx i cloudId size etag)
    (hmost : AtMost s.disk ((s.files.lookup cloudId).map StoreEntry.path) abs) :
    (upserted ctx n s cloudId path size etag).1.disk.get abs ≠ some i := by
  obtain ⟨hget, hfile⟩ := (Disk.fileAt_eq_some _).mp hi
  obtain ⟨st, stamped, hst⟩ := hos.place
  have hknown : ¬ (¬ i.id.isFilled = true ∧ i.stat.size > 0) := fun ⟨hfilled, hpos⟩ ↦
    hreplace.known.elim hfilled (Nat.ne_of_gt hpos)
  have hnot : ¬ s.disk.isDirAt abs = true := fun hdir ↦ by
    obtain ⟨j, hj, hdir⟩ := isDirAt_iff.mp hdir
    cases hget.symm.trans hj
    exact Bool.false_ne_true (hfile.symm.trans hdir)
  rw [upserted, habs]
  dsimp only
  rw [if_neg (Nat.not_lt.mpr hsize), moveFile_of_atMost hmost]
  dsimp only
  rw [refreshFile, hget]
  dsimp only
  rw [hreplace.news, if_neg Bool.false_ne_true, if_neg hreplace.waits, if_neg hknown,
    if_neg hreplace.stamp, placeFile, place, hd.createDirAll_there (hd.isDirAt_dropLast hget)]
  dsimp only
  rw [hst]
  dsimp only
  rw [if_neg hnot]
  dsimp only
  rw [get_set_self]
  intro heq
  have hcurrent : isCurrent (placeholder st stamped size cloudId etag) cloudId etag size = true :=
    isCurrent_placeholder st stamped
  rw [Option.some_inj.mp heq] at hcurrent
  exact Bool.false_ne_true (hreplace.news.symm.trans hcurrent)

theorem removed_removes {e : StoreEntry} (hos : Willing ctx.os n)
    (he : s.files.lookup cloudId = some e) (hignored : ctx.ignore.ignores e.path = false)
    (hi : s.disk.fileAt e.path = some i) (hwaits : i.stat.file ∉ ctx.waiting)
    (hstamp : i.stampState ≠ .ok .dirty) :
    (removed ctx n s cloudId).disk.get e.path = none := by
  obtain ⟨hget, hfile⟩ := (Disk.fileAt_eq_some _).mp hi
  have hnot : ¬ s.disk.isDirAt e.path = true := fun hdir ↦ by
    obtain ⟨j, hj, hdir⟩ := isDirAt_iff.mp hdir
    cases hget.symm.trans hj
    exact Bool.false_ne_true (hfile.symm.trans hdir)
  rw [removed, he]
  dsimp only
  rw [hignored, if_neg Bool.false_ne_true, hget]
  dsimp only
  rw [if_neg hwaits, if_neg hstamp, remove, if_neg hnot, hos.remove]
  exact get_erase.trans (if_pos rfl)

theorem claimFolder_there (h : s.disk.get abs = some i) :
    ∃ j, (claimFolder ctx n s cloudId path abs etag).disk.get abs = some j := by
  have hspec := claimFolder_claimed ctx n s cloudId path abs etag
  generalize claimFolder ctx n s cloudId path abs etag = s' at hspec ⊢
  cases hspec with
  | refused hrefused => exact ⟨i, hrefused.grows.keeps abs i h⟩
  | unfinished hmarks | claimed hmarks =>
    rw [hmarks.disk]
    exact ⟨_, get_set_self⟩

theorem moveFolder_of_atMost (h : AtMost s.disk (s.folders.lookup cloudId) abs) :
    moveFolder ctx n s cloudId path abs = .ok s := by
  rw [moveFolder]
  cases hlookup : s.folders.lookup cloudId with
  | none => rfl
  | some p =>
    refine if_neg fun hmoves ↦ ?_
    obtain ⟨i, hi⟩ := exists'_eq_true.mp hmoves.2
    rcases h p hlookup with heq | hnone
    · exact hmoves.1 heq
    · exact Option.some_ne_none i (hi.symm.trans hnone)

/-- At a path that is open a folder is made. -/
theorem makeFolder_open (path : String) (hd : Rooted s.disk) (hos : Willing ctx.os n)
    (h : Open s.disk abs) :
    ∃ s' i, makeFolder ctx n s path abs = .ok s' ∧ s'.disk.get abs = some i := by
  obtain ⟨d, hmade, -, hdir⟩ := h.createDirAll hd hos.mkdir (List.prefix_refl abs)
  obtain ⟨i, hi, -⟩ := isDirAt_iff.mp hdir
  rw [makeFolder, h.1]
  dsimp only
  rw [hmade]
  exact ⟨_, i, rfl, hi⟩

theorem makeFolder_of_isDir (hi : s.disk.get abs = some i) (hdir : i.isDir = true) :
    makeFolder ctx n s path abs = .ok s := by
  rw [makeFolder, hi]
  exact if_pos hdir

/-- A folder is made at a path that is open, or moved to it, or at least the directories above it
are made. -/
theorem folderUpserted_open (hd : Rooted s.disk) (hos : Willing ctx.os n) (hknown : Known s)
    (habs : folderPath path = some abs) (h : Open s.disk abs)
    (hinside : ∀ p, s.folders.lookup cloudId = some p → s.disk.exists' p = true →
      p <+: abs → s.disk.isDirAt abs.dropLast = false) :
    ∃ q, (folderUpserted ctx n s cloudId path etag).1.disk.get q ≠ s.disk.get q := by
  have hmade : ∀ t : Pass, (∃ j, t.disk.get abs = some j) → ∃ q, t.disk.get q ≠ s.disk.get q := by
    rintro t ⟨j, hj⟩
    exact ⟨abs, fun heq ↦ Option.some_ne_none j (hj.symm.trans (heq.trans h.1))⟩
  rw [folderUpserted, habs]
  dsimp only
  cases hlookup : s.folders.lookup cloudId with
  | none =>
    obtain ⟨t, i, hmake, hi⟩ := makeFolder_open path hd hos h
    rw [moveFolder_of_atMost (hlookup ▸ fun p hp ↦ by cases hp)]
    dsimp only
    rw [hmake]
    exact hmade _ (claimFolder_there hi)
  | some p =>
    obtain ⟨i, hi, hdir, -⟩ := hknown.folders cloudId p hlookup
    have hne : p ≠ abs := fun heq ↦ Option.some_ne_none i (hi.symm.trans (heq ▸ h.1))
    obtain ⟨d, hparent, hgrows, hdirs⟩ :=
      h.createDirAll hd hos.mkdir (List.dropLast_prefix abs)
    rw [moveFolder, hlookup]
    dsimp only
    rw [if_pos ⟨hne, exists'_eq_true.mpr ⟨i, hi⟩⟩, not_exists'_of_open h,
      if_neg Bool.false_ne_true, hparent]
    dsimp only
    rw [hos.rename, rename]
    by_cases hinto : p <+: abs
    · rw [if_pos hinto]
      have hnew := hinside p hlookup (exists'_eq_true.mpr ⟨i, hi⟩) hinto
      refine ⟨abs.dropLast, fun heq ↦ Bool.false_ne_true (hnew.symm.trans ?_)⟩
      rw [Disk.isDirAt, ← heq]
      exact hdirs
    · rw [if_neg hinto, if_pos hdirs]
      have hthere : (d.move p abs).get abs = some i := get_move_self.trans (hgrows.keeps p i hi)
      dsimp only
      rw [makeFolder_of_isDir hthere hdir]
      exact hmade _ (claimFolder_there hthere)

/-- What a directory is is recorded on it, if that is new. -/
theorem folderUpserted_claims (hos : Willing ctx.os n) (habs : folderPath path = some abs)
    (hi : s.disk.get abs = some i) (hdir : i.isDir = true)
    (hmost : AtMost s.disk (s.folders.lookup cloudId) abs)
    (hown : i.id.isSome = true → i.id = .text cloudId)
    (hnew : ¬ (i.id = .text cloudId ∧ i.etag = folderTag etag)) :
    (folderUpserted ctx n s cloudId path etag).1.disk.get abs ≠ some i := by
  rw [folderUpserted, habs]
  dsimp only
  rw [moveFolder_of_atMost hmost]
  dsimp only
  rw [makeFolder_of_isDir hi hdir]
  dsimp only
  rw [claimFolder, hi]
  dsimp only
  rw [if_neg fun hother ↦ hother.2 (hown hother.1), hos.setId]
  dsimp only
  rw [hos.setEtag]
  dsimp only
  rw [get_set_self]
  intro heq
  have hsame := Option.some_inj.mp heq
  exact hnew ⟨(congrArg Inode.id hsame).symm, (congrArg Inode.etag hsame).symm⟩

theorem folderRemoved_removes (hos : Willing ctx.os n) (hclaims : Claims s.disk cloudId p)
    (hid : cloudId ∉ ctx.ignoredFolders) (hp : s.folders.lookup cloudId = some p) (hroot : p ≠ [])
    (hignored : ctx.ignore.ignores p = false) :
    (folderRemoved ctx n s cloudId path).disk.get p ≠ s.disk.get p := by
  obtain ⟨i, hi, hdir, htext⟩ := hclaims
  rw [folderRemoved, if_neg hid, hp]
  dsimp only
  rw [hignored, if_neg Bool.false_ne_true, if_neg hroot, hi]
  dsimp only
  rw [if_neg (not_not.mpr hdir), hos.rmdir]
  dsimp only
  by_cases hchild : s.disk.hasChild p = true
  · rw [if_pos hchild, detachFolder, hos.setEtag]
    dsimp only
    rw [hos.removeId]
    dsimp only
    rw [get_set_self]
    intro heq
    cases (congrArg Inode.id (Option.some_inj.mp heq)).trans htext
  · rw [if_neg hchild]
    intro heq
    exact Option.some_ne_none i (heq.symm.trans (get_erase.trans (if_pos rfl)))

/-! ## One change -/

/-- What a change leaves that would do nothing. -/
structure Passed (ctx : Ctx) (n : ℕ) (s : Pass) (c : Change) (r : Pass × Flow) : Prop
    extends Untouched s r.1 where
  folders : r.1.folders = s.folders ∨ ∃ id path etag abs, c = .folderUpserted id path etag
    ∧ r.1.folders = s.folders.insert id abs ∧ Claims s.disk id abs
  goes_on : ctx.os.current n = .ok true → r.2 = .next ∨ Ends ctx s c

theorem Still.passed {s' : Pass} {c : Change} {flow : Flow} (h : Still s s')
    (hflow : ctx.os.current n = .ok true → flow = .next) : Passed ctx n s c (s', flow) :=
  ⟨h.toUntouched, Or.inl h.folders, fun hcurrent ↦ Or.inl (hflow hcurrent)⟩

theorem upserted_flow : (upserted ctx n s cloudId path size etag).2 = .next := by
  have hspec := upserted_spec ctx n s cloudId path size etag
  generalize upserted ctx n s cloudId path size etag = r at hspec
  cases hspec <;> rfl

/-- **A change that would do nothing does nothing**, whatever is answered. -/
theorem step_passed (hd : Rooted s.disk) {c : Change} (h : ¬ Acts ctx s c) :
    Passed ctx n s c (step ctx n s c) := by
  rw [step]
  rcases hcurrent : ctx.os.current n with e | _ | _
  · exact Still.passed (.of_eq rfl rfl rfl) fun h ↦ by cases hcurrent.symm.trans h
  · exact Still.passed (.of_eq rfl rfl rfl) fun h ↦ by cases hcurrent.symm.trans h
  · dsimp only
    unfold applyChange
    by_cases hignored : (declared c).any ctx.ignore.isIgnored = true
    · rw [if_pos hignored]
      exact Still.passed (.of_eq rfl rfl rfl) fun _ ↦ rfl
    rw [if_neg hignored]
    have hsynced := Bool.eq_false_iff.mpr hignored
    cases c with
    | upserted cloudId path size etag =>
      have hstill := upserted_still (n := n) hd hsynced h
      exact ⟨hstill.toUntouched, Or.inl hstill.folders, fun _ ↦ Or.inl upserted_flow⟩
    | removed cloudId => exact (removed_still hsynced h).passed fun _ ↦ rfl
    | folderRemoved cloudId path => exact (folderRemoved_still hsynced h).passed fun _ ↦ rfl
    | folderUpserted cloudId path etag =>
      have hupheld := folderUpserted_untouched (n := n) hd hsynced h
      refine ⟨hupheld.toUntouched, hupheld.folders.imp_right ?_, fun _ ↦ ?_⟩
      · rintro ⟨abs, -, hinsert, hclaims⟩
        exact ⟨cloudId, path, etag, abs, rfl, hinsert, hclaims⟩
      · exact hupheld.goes_on.imp_right And.right

/-- A change that ends the pass is not followed by another. -/
theorem step_ends (hd : Rooted s.disk) {c : Change} (h : Ends ctx s c) :
    (step ctx n s c).2 ≠ .next := by
  obtain ⟨hsynced, h⟩ := h
  rw [step]
  rcases ctx.os.current n with e | _ | _
  · exact Flow.noConfusion
  · exact Flow.noConfusion
  · dsimp only
    unfold applyChange
    rw [hsynced, if_neg Bool.false_ne_true]
    cases c with
    | upserted cloudId path size etag => exact h.elim
    | removed cloudId => exact h.elim
    | folderRemoved cloudId path => exact h.elim
    | folderUpserted cloudId path etag =>
      obtain ⟨abs, p, habs, hblocked, hp, hthere⟩ := h
      have hne : p ≠ abs := by
        rintro rfl
        obtain ⟨i, hi⟩ := exists'_eq_true.mp hthere
        exact Option.some_ne_none i (hi.symm.trans (hd.get_of_blocked hblocked))
      have hnone : ¬ s.disk.exists' abs = true := fun hthere ↦ by
        obtain ⟨i, hi⟩ := exists'_eq_true.mp hthere
        exact Option.some_ne_none i (hi.symm.trans (hd.get_of_blocked hblocked))
      obtain ⟨e, he⟩ := hd.createDirAll_dropLast (ctx.os.mkdir n) hblocked
      dsimp only
      rw [folderUpserted, habs]
      dsimp only
      rw [moveFolder, hp]
      dsimp only
      rw [if_pos ⟨hne, hthere⟩, if_neg hnone, he]
      exact Flow.noConfusion

/-- **A change that would do something does it**, where every call succeeds. -/
theorem step_acts (hd : Rooted s.disk) (hos : Willing ctx.os n) (hknown : Known s) {c : Change}
    (h : Acts ctx s c) : ∃ q, (step ctx n s c).1.disk.get q ≠ s.disk.get q := by
  obtain ⟨hsynced, h⟩ := h
  rw [step, hos.current]
  dsimp only
  unfold applyChange
  rw [hsynced, if_neg Bool.false_ne_true]
  cases c with
  | upserted cloudId path size etag =>
    obtain ⟨abs, habs, hsize, hopen | ⟨i, hi, hreplace, hmost⟩⟩ := h
    · have hthere : ∃ j, (upserted ctx n s cloudId path size etag).1.disk.get abs = some j :=
        upserted_open hd hos hknown habs hsize hopen
      obtain ⟨j, hj⟩ := hthere
      exact ⟨abs, fun heq ↦ Option.some_ne_none j (hj.symm.trans (heq.trans hopen.1))⟩
    · refine ⟨abs, fun heq ↦ upserted_replaces hd hos habs hsize hi hreplace hmost ?_⟩
      exact heq.trans ((Disk.fileAt_eq_some _).mp hi).1
  | removed cloudId =>
    obtain ⟨e, i, he, hignored, hi, hwaits, hstamp⟩ := h
    refine ⟨e.path, fun heq ↦ Option.some_ne_none i ?_⟩
    exact ((Disk.fileAt_eq_some _).mp hi).1.symm.trans
      (heq.symm.trans (removed_removes hos he hignored hi hwaits hstamp))
  | folderUpserted cloudId path etag =>
    obtain ⟨abs, habs, ⟨hopen, hinside⟩ | ⟨i, hi, hdir, hmost, hown, hnew⟩⟩ := h
    · exact folderUpserted_open hd hos hknown habs hopen hinside
    · refine ⟨abs, fun heq ↦ folderUpserted_claims hos habs hi hdir hmost hown hnew ?_⟩
      exact heq.trans hi
  | folderRemoved cloudId path =>
    obtain ⟨hid, p, hp, hroot, hignored⟩ := h
    exact ⟨p, folderRemoved_removes hos (hknown.folders cloudId p hp) hid hp hroot hignored⟩

end HydrationAPI.Client.Delta
