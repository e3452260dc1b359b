import HydrationAPI.Helper.Placeholder

/-!
# Giving disk back

Eviction marks a file, asks backup tools to pass it by, punches its content away, stamps it and has
its reads intercepted again, in this order. The file keeps its ignore mark until the last step,
because the punch is a write that nobody else would answer for.

Every one of these calls can fail, and nothing is put back. Once the mark is set, an error leaves a
file that is marked and still has what was not punched, and whose reads are not intercepted.
-/

namespace HydrationAPI

/-- What eviction should tell cooperating backup tools. -/
inductive Backup where
  /-- Set `nodump`. -/
  | exclude
  /-- Leave the flag alone. -/
  | included
  deriving DecidableEq, Repr

/-- Why a file was not evicted. -/
inductive Refused where
  /-- The content is not in the cloud. -/
  | notUploaded
  /-- Already has no content. -/
  | alreadyDehydrated
  deriving DecidableEq, Repr

namespace Placeholder

variable {V : Type*}

/-- `ENOTSUP` is the same number as `EOPNOTSUPP`. -/
def hasMark (f : File V) : Option IoError → Except IoError Bool
  | none => .ok f.marked
  | some e =>
    if e.rawOsError = some enodata ∨ e.rawOsError = some eopnotsupp then .ok false else .error e

/-- Set the placeholder mark. -/
def markDehydrated (f : File V) : Option IoError → Except IoError Unit × File V
  | none => (.ok (), { f with marked := true })
  | some e => (.error e, f)

/-- As `setNodumpFd`, of a file that has to be opened for it. -/
def setNodump (f : File V) (openFlags : Option IoError) (c : Flags) (on : Bool) :
    Except IoError Unit × File V :=
  match openFlags with
  | some e => (.error e, f)
  | none => setNodumpFd f c on

end Placeholder

namespace Evict

open Placeholder

variable {V : Type*}

/-- What the system calls of an eviction answer, and what the caller knows. -/
structure Syscalls where
  getxattr : Option IoError
  /-- Whether the content exists anywhere else. -/
  isSafe : Bool
  setxattr : Option IoError
  /-- The file is opened once for its flags, and once to be written. -/
  openFlags : Option IoError
  flags : Flags
  openFile : Option IoError
  metadata : Option IoError
  punch : Punch
  stamp : Bool
  unignore : Option IoError

/-- Tell backup tools to pass the file by. A filesystem without the flag is not a failure. -/
def exclude (f : File V) (c : Syscalls) (backup : Backup) : Except IoError Unit × File V :=
  if backup = .exclude then
    match setNodump f c.openFlags c.flags true with
    | (.ok _, f) => (.ok (), f)
    | (.error e, f) => if e.kind = .unsupported then (.ok (), f) else (.error e, f)
  else (.ok (), f)

/-- Open the file and punch all of its content away. -/
def release (f : File V) (c : Syscalls) : Except IoError Unit × File V :=
  match c.openFile with
  | some e => (.error e, f)
  | none =>
    match c.metadata with
    | some e => (.error e, f)
    | none => punchFd f c.punch f.size

/-- Start delivering events for the file again. -/
def unignore (f : File V) : Option IoError → Except IoError Unit × File V
  | none => (.ok (), { f with ignored := false })
  | some e => (.error e, f)

/-- What is done to a file that has its mark and its flag. -/
def reclaim (f : File V) (c : Syscalls) : Except IoError (Except Refused Unit) × File V :=
  match release f c with
  | (.error e, f) => (.error e, f)
  | (.ok _, f) =>
    match unignore (f.writeStamp c.stamp) c.unignore with
    | (.error e, f) => (.error e, f)
    | (.ok _, f) => (.ok (.ok ()), f)

/-- Drop a file's content, keeping its metadata. -/
def evict (f : File V) (c : Syscalls) (backup : Backup) :
    Except IoError (Except Refused Unit) × File V :=
  match hasMark f c.getxattr with
  | .error e => (.error e, f)
  | .ok true => (.ok (.error .alreadyDehydrated), f)
  | .ok false =>
    if c.isSafe = false then (.ok (.error .notUploaded), f)
    else
      match markDehydrated f c.setxattr with
      | (.error e, f) => (.error e, f)
      | (.ok _, f) =>
        match exclude f c backup with
        | (.error e, f) => (.error e, f)
        | (.ok _, f) => reclaim f c

/-! ## What an error may leave -/

/-- The file has all of its content and no mark. -/
structure Kept (f g : File V) : Prop where
  cells : g.cells = f.cells
  size : g.size = f.size
  unmarked : g.marked = false

/-- The file is a placeholder that holds nothing, and its reads are intercepted. -/
structure Released (g : File V) : Prop where
  empty : ∀ x < g.size, g.cells x = .hole
  marked : g.marked = true
  armed : g.ignored = false

/-- The content goes at `x`: the punch is reached, and it succeeds or fails only after that. -/
def Goes (f : File V) (c : Syscalls) (backup : Backup) (x : ℕ) : Prop :=
  (exclude { f with marked := true } c backup).1 = .ok () ∧ c.openFile = none
    ∧ c.metadata = none ∧ (c.punch.error = none ∨ c.punch.gone x = true)

/-- The mark could not be read or set, or the file has no ignore mark and keeps none of its
content. -/
def Harmless (f : File V) (c : Syscalls) (backup : Backup) : Prop :=
  (∃ e, hasMark f c.getxattr = .error e) ∨ c.setxattr ≠ none
    ∨ f.ignored = false ∧ ∀ x < f.size, f.cells x = .hole ∨ Goes f c backup x

/-! ## The steps -/

variable {f : File V} {c : Syscalls} {backup : Backup} {e : IoError}

/-- Nothing but the flag is changed. -/
theorem exclude_spec (f : File V) (c : Syscalls) (backup : Backup) :
    File.Same (exclude f c backup).2 f ∧ (exclude f c backup).2.ignored = f.ignored := by
  have hflags : File.Same (setNodump f c.openFlags c.flags true).2 f
      ∧ (setNodump f c.openFlags c.flags true).2.ignored = f.ignored := by
    rw [setNodump.eq_def]
    split
    · exact ⟨File.Same.refl f, rfl⟩
    · refine ⟨setNodumpFd_same f c.flags true, ?_⟩
      rw [setNodumpFd]
      split
      · rfl
      · split
        · rfl
        · split <;> rfl
  rw [exclude]
  split
  · generalize setNodump f c.openFlags c.flags true = r at hflags
    obtain ⟨r | r, g⟩ := r
    · dsimp only
      split <;> exact hflags
    · exact hflags
  · exact ⟨File.Same.refl f, rfl⟩

/-- A byte is left as it was, unless the punch takes it. -/
theorem release_spec (f : File V) (c : Syscalls) :
    (release f c).2.size = f.size ∧ (release f c).2.marked = f.marked
      ∧ (release f c).2.ignored = f.ignored
      ∧ ∀ x < f.size, (release f c).2.cells x
        = if c.openFile = none ∧ c.metadata = none ∧ (c.punch.error = none ∨ c.punch.gone x = true)
          then .hole else f.cells x := by
  rw [release]
  cases hopen : c.openFile with
  | some e => exact ⟨rfl, rfl, rfl, fun x _ ↦ (if_neg (fun h ↦ by cases h.1)).symm⟩
  | none =>
    cases hmeta : c.metadata with
    | some e => exact ⟨rfl, rfl, rfl, fun x _ ↦ (if_neg (fun h ↦ by cases h.2.1)).symm⟩
    | none =>
      dsimp only
      rw [punchFd, punchRangeFd]
      by_cases hsize : f.size = 0
      · rw [if_pos hsize]
        exact ⟨rfl, rfl, rfl, fun x hx ↦ absurd hx (by omega)⟩
      · rw [if_neg hsize]
        cases c.punch.error with
        | none =>
          refine ⟨rfl, rfl, rfl, fun x hx ↦ ?_⟩
          simp [File.inRange, hx]
        | some e =>
          refine ⟨rfl, rfl, rfl, fun x hx ↦ ?_⟩
          simp [File.inRange, hx]

theorem unignore_error (f : File V) (error : Option IoError) (h : (unignore f error).1 = .error e) :
    (unignore f error).2 = f := by
  cases error with
  | none => cases h
  | some _ => rfl

/-- Whichever call fails, what is left is what `release` left. -/
theorem reclaim_error (h : (reclaim f c).1 = .error e) :
    (reclaim f c).2.size = f.size ∧ (reclaim f c).2.marked = f.marked
      ∧ (reclaim f c).2.ignored = f.ignored
      ∧ (reclaim f c).2.cells = (release f c).2.cells := by
  obtain ⟨hsize, hmarked, hignored, -⟩ := release_spec f c
  rw [reclaim] at h ⊢
  rcases hrelease : release f c with ⟨_ | _, r⟩
  · rw [hrelease] at hsize hmarked hignored
    exact ⟨hsize, hmarked, hignored, rfl⟩
  · rw [hrelease] at hsize hmarked hignored h
    dsimp only at h ⊢
    have hstamp := File.writeStamp_same r c.stamp
    have hstampIgnored : (r.writeStamp c.stamp).ignored = r.ignored := by
      rw [File.writeStamp]
      split <;> rfl
    rcases hunignore : unignore (r.writeStamp c.stamp) c.unignore with ⟨_ | _, k⟩
    · have hk := unignore_error (r.writeStamp c.stamp) c.unignore (congrArg Prod.fst hunignore)
      rw [hunignore] at hk
      dsimp only at hk ⊢
      rw [hk]
      exact ⟨hstamp.size.trans hsize, hstamp.marked.trans hmarked, hstampIgnored.trans hignored,
        hstamp.cells⟩
    · rw [hunignore] at h
      cases h

/-- **The two ways an eviction fails**: nothing has been done yet; or the mark is set, and what is
left of the content is what the punch did not take. -/
theorem evict_error (h : (evict f c backup).1 = .error e) :
    (evict f c backup).2 = f ∧ ((∃ e, hasMark f c.getxattr = .error e) ∨ c.setxattr ≠ none)
      ∨ ((∀ e, hasMark f c.getxattr ≠ .error e) ∧ c.setxattr = none)
        ∧ (evict f c backup).2.size = f.size ∧ (evict f c backup).2.marked = true
        ∧ (evict f c backup).2.ignored = f.ignored ∧ ∀ x < f.size,
          ((evict f c backup).2.cells x = .hole ↔ f.cells x = .hole ∨ Goes f c backup x) := by
  rw [evict] at h ⊢
  cases hmark : hasMark f c.getxattr with
  | error e => exact Or.inl ⟨rfl, Or.inl ⟨e, rfl⟩⟩
  | ok marked =>
    cases marked with
    | true =>
      rw [hmark] at h
      cases h
    | false =>
      rw [hmark] at h
      dsimp only at h ⊢
      split at h
      · cases h
      · rename_i hsafe
        rw [if_neg hsafe]
        cases hset : c.setxattr with
        | some e => exact Or.inl ⟨rfl, Or.inr (Option.some_ne_none e)⟩
        | none =>
          rw [hset] at h
          right
          refine ⟨⟨fun e he ↦ (by cases he), rfl⟩, ?_⟩
          simp only [markDehydrated] at h ⊢
          obtain ⟨hsame, hignored⟩ := exclude_spec { f with marked := true } c backup
          rcases hexclude : exclude { f with marked := true } c backup with ⟨e | _, g⟩
          · rw [hexclude] at hsame hignored
            refine ⟨hsame.size, hsame.marked, hignored, fun x _ ↦ ?_⟩
            have hgoes : ¬ Goes f c backup x := by
              intro hg
              rw [Goes, hexclude] at hg
              cases hg.1
            rw [or_iff_left hgoes]
            exact iff_of_eq (congrArg (· = Cell.hole) (congrFun hsame.cells x))
          · rw [hexclude] at hsame hignored h
            obtain ⟨hsize, hmarked, hkeeps, hcells⟩ := reclaim_error h
            refine ⟨hsize.trans hsame.size, hmarked.trans hsame.marked, hkeeps.trans hignored,
              fun x hx ↦ ?_⟩
            have hgx : g.cells x = f.cells x := congrFun hsame.cells x
            dsimp only
            rw [hcells, (release_spec g c).2.2.2 x (hsame.size.symm ▸ hx), hgx, Goes, hexclude]
            by_cases hgoes : c.openFile = none ∧ c.metadata = none
                ∧ (c.punch.error = none ∨ c.punch.gone x = true)
            · rw [if_pos hgoes]
              exact ⟨fun _ ↦ Or.inr ⟨rfl, hgoes⟩, fun _ ↦ rfl⟩
            · rw [if_neg hgoes]
              exact ⟨Or.inl, fun h ↦ h.resolve_right fun h ↦ hgoes h.2⟩

/-- **An eviction that fails is all or nothing exactly where it is harmless.** -/
theorem all_or_nothing_iff (f : File V) (c : Syscalls) (backup : Backup) (e : IoError)
    (hunmarked : f.marked = false) (h : (evict f c backup).1 = .error e) :
    Kept f (evict f c backup).2 ∨ Released (evict f c backup).2 ↔ Harmless f c backup := by
  rcases evict_error h with
    ⟨hsame, hwhy⟩ | ⟨⟨hread, hset⟩, hsize, hmarked, hignored, hcells⟩
  · rw [hsame]
    exact ⟨fun _ ↦ hwhy.imp_right Or.inl, fun _ ↦ Or.inl ⟨rfl, rfl, hunmarked⟩⟩
  · constructor
    · rintro (hkept | hreleased)
      · exact absurd (hkept.unmarked.symm.trans hmarked) nofun
      · refine Or.inr (Or.inr ⟨hignored ▸ hreleased.armed, fun x hx ↦ (hcells x hx).mp ?_⟩)
        exact hreleased.empty x (hsize.symm ▸ hx)
    · rintro (⟨e, he⟩ | hne | ⟨harmed, hgone⟩)
      · exact absurd he (hread e)
      · exact absurd hset hne
      · refine Or.inr ⟨fun x hx ↦ ?_, hmarked, hignored.trans harmed⟩
        have hx' : x < f.size := hsize ▸ hx
        exact (hcells x hx').mpr (hgone x hx')

/-- A file with one byte of content. -/
private def oneByte : File Unit :=
  ⟨1, by decide, 1, 0, fun _ ↦ .user 0, false, false, true, none, none⟩

private def noSpace : IoError := ⟨.other, some 28, "no space left on device"⟩

private def allSucceed : Syscalls :=
  ⟨none, true, none, none, ⟨none, none⟩, none, none, ⟨none, fun _ ↦ false, 0⟩, true, none⟩

theorem all_or_nothing_unmarkable :
    Kept oneByte (evict oneByte { allSucceed with setxattr := some noSpace } .exclude).2
      ∨ Released (evict oneByte { allSucceed with setxattr := some noSpace } .exclude).2 :=
  (all_or_nothing_iff oneByte { allSucceed with setxattr := some noSpace } .exclude noSpace rfl
    rfl).mpr (Or.inr (Or.inl nofun))

/-- A file that cannot be opened to be written keeps its content and its new mark. -/
theorem full_file_marked : ¬ ∀ (f : File Unit) (c : Syscalls) (backup : Backup) (e : IoError),
    f.marked = false → (evict f c backup).1 = .error e →
      Kept f (evict f c backup).2 ∨ Released (evict f c backup).2 := by
  intro hall
  rcases hall oneByte { allSucceed with openFile := some noSpace } .exclude noSpace rfl rfl
    with hkept | hreleased
  · exact absurd hkept.unmarked nofun
  · exact absurd (hreleased.empty 0 Nat.one_pos) nofun

end Evict

end HydrationAPI
