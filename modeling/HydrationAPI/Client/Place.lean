import HydrationAPI.Client.Vfs

/-!
# Creating a placeholder

A placeholder is built on an anonymous inode and linked into place once it is complete. Where its
name is taken it is linked under a scratch name in the same directory first, and moved over the name
from there; what is to be replaced only if nobody has changed it is exchanged with it instead, and
looked at under the scratch name.

Every placer counts its scratch names from one. What is left of them is swept at startup.
-/

namespace HydrationAPI.Client

/-- A program that places, with the counter of its scratch names. -/
abbrev Placer := Errand Syscall Syscall.Answer ℕ IoError

inductive ConditionalPlace where
  | placed
  | targetChanged
  deriving DecidableEq, Repr

/-- The name that a placeholder has until it is in place. -/
def scratchName (rel : RelPath) (seq : ℕ) : RelPath :=
  let base := rel.getLastD "f"
  rel.dropLast ++ [s!".{base}.hydration-{seq}"]

namespace Placer

open Errand

/-- A system call whose failure ends the program. -/
def sys (q : Syscall) : Placer q.Result := fun s ↦ .ask q fun a ↦ .done (a, s)

/-- Create the directories on the way. -/
def mkdirs : List RelPath → Placer Unit
  | [] => pure ()
  | p :: ps => do
    match ← attempt (sys (.mkdirat p)) with
    | .ok _ => mkdirs ps
    | .error e => if e.rawOsError = some eexist then mkdirs ps else throw e

def makeParents (rel : RelPath) : Placer Unit := mkdirs rel.dropLast.inits.tail

/-- A complete placeholder which is still anonymous. -/
def placeholder (size : ℕ) (cloudId : String) (etag : Option String) : Placer FileId := do
  let fd ← sys .tmpfile
  sys (.fsetxattr fd .dehydrated "1")
  sys (.fsetxattr fd .id cloudId)
  match etag with
  | some e => sys (.fsetxattr fd .etag e)
  | none => pure ()
  sys (.ftruncate fd size)
  let _ ← attempt (sys (.stamp fd))
  pure fd

/-- Give the anonymous inode a name. -/
def linkIntoPlace (fd : FileId) (rel : RelPath) (seq : ℕ) : Placer Unit := do
  match ← attempt (sys (.linkat fd rel)) with
  | .ok _ => pure ()
  | .error e =>
    if e.rawOsError ≠ some eexist then throw e
    else
      let scratch := scratchName rel seq
      let _ ← attempt (sys (.unlinkat scratch))
      sys (.linkat fd scratch)
      match ← attempt (sys (.renameat scratch rel)) with
      | .ok _ => pure ()
      | .error e => do
        let _ ← attempt (sys (.unlinkat scratch))
        throw e

def place (rel : RelPath) (size : ℕ) (cloudId : String) (etag : Option String) : Placer Unit := do
  makeParents rel
  let fd ← placeholder size cloudId etag
  modify (· + 1)
  let seq ← state
  linkIntoPlace fd rel seq

def discardPlaceholder (scratch : RelPath) (placed : Stat) : Placer Unit := do
  let found ← sys (.fstatat scratch)
  if found.file ≠ placed.file then
    throw ⟨.other, none, "the eviction scratch name changed; the occupant was preserved at "
      ++ scratch.display⟩
  else sys (.unlinkat scratch)

def restoreTarget (scratch rel : RelPath) (placed : Stat) : Placer Unit := do
  match ← attempt (sys (.exchange scratch rel)) with
  | .error e =>
    throw ⟨e.kind, none, "the eviction target changed and could not be restored; its bytes remain at "
      ++ scratch.display ++ ": " ++ e.text⟩
  | .ok _ => discardPlaceholder scratch placed

/-- Link under the first scratch name that is free, among the next `tries`. -/
def linkScratch (fd : FileId) (rel : RelPath) : ℕ → Placer (Option RelPath)
  | 0 => pure none
  | tries + 1 => do
    modify (· + 1)
    let seq ← state
    match ← attempt (sys (.linkat fd (scratchName rel seq))) with
    | .ok _ => pure (some (scratchName rel seq))
    | .error e => if e.rawOsError = some eexist then linkScratch fd rel tries else throw e

/-- Replace what is at a path only if it is still in the state that was approved. While it looks for
a scratch name that is free nothing is answered. -/
def placeIfUnchanged (tries : ℕ) (rel : RelPath) (size : ℕ) (cloudId : String)
    (etag : Option String) (expected : Stat) : Placer (Option ConditionalPlace) := do
  makeParents rel
  let fd ← placeholder size cloudId etag
  let placed ← sys (.fstat fd)
  match ← linkScratch fd rel tries with
  | none => pure none
  | some scratch =>
    match ← attempt (sys (.exchange scratch rel)) with
    | .error e => do
      discardPlaceholder scratch placed
      if e.rawOsError = some enoent then pure (some .targetChanged) else throw e
    | .ok _ =>
      match ← attempt (sys (.fstatat scratch)) with
      | .error inspect => do
        restoreTarget scratch rel placed
        throw inspect
      | .ok found =>
        if found = expected then do
          sys (.unlinkat scratch)
          pure (some .placed)
        else do
          restoreTarget scratch rel placed
          pure (some .targetChanged)

/-! ## What is left of scratch names -/

/-- Remove what has a scratch name and the mark of a placeholder. -/
def sweepEntries (dir : RelPath) : List (String × Option Bool) → Placer (List RelPath × ℕ)
  | [] => pure ([], 0)
  | (name, isDir) :: entries => do
    let path := dir ++ [name]
    if isDir = some true then
      let (dirs, removed) ← sweepEntries dir entries
      pure (path :: dirs, removed)
    else if Names.isScratch name then
      match ← attempt (sys (.isMarked path)) with
      | .ok true =>
        let gone : Except IoError Unit ← attempt (sys (.unlinkat path))
        let (dirs, removed) ← sweepEntries dir entries
        pure (dirs, if gone.isOk then removed + 1 else removed)
      | _ => sweepEntries dir entries
    else sweepEntries dir entries

/-- Walk the directories, `visits` of them at most. -/
def sweepDirs : ℕ → List RelPath → Placer ℕ
  | 0, _ | _, [] => pure 0
  | visits + 1, dir :: stack => do
    match ← attempt (sys (.readDir dir)) with
    | .error _ => sweepDirs visits stack
    | .ok entries =>
      let (dirs, removed) ← sweepEntries dir entries
      let others ← sweepDirs visits (dirs.reverse ++ stack)
      pure (removed + others)

def sweepScratch (visits : ℕ) : Placer ℕ := sweepDirs visits [[]]

end Placer

/-! ## What a program keeps -/

section

open Dialogue Errand

variable {W α : Type} {E : Env Syscall Syscall.Answer W} {I P : W → Prop} {v : W} {n : ℕ}
  {q : Syscall} {post : Except IoError α → ℕ → W → Prop}

/-- A call whose failure ends the program. -/
theorem meets_sys {post : q.Answer → ℕ → W → Prop} (hlasts : Lasting E I post)
    (hstable : Stable E P) (hv : P v) (hinv : ∀ v, P v → I v)
    (hpost : ∀ v a v', P v → E.answers q v a v' → post a n v') :
    Meets E I post (Placer.sys q) n v :=
  safe_ask hstable hv hinv fun u a u' hu ha ↦ safe_done (hlasts.stable a n) (hpost u a u' hu ha)
    fun _ h ↦ ⟨hlasts.inv a n _ h, h⟩

/-- A program that begins with such a call. -/
theorem meets_sys_bind {g : q.Result → Placer α} (hlasts : Lasting E I post) (hstable : Stable E P)
    (hv : P v) (hinv : ∀ v, P v → I v)
    (hok : ∀ v r v', P v → E.answers q v (.ok r) v' → Meets E I post (g r) n v')
    (herror : ∀ v e v', P v → E.answers q v (.error e) v' → post (.error e) n v') :
    Meets E I post (Placer.sys q >>= g) n v := by
  refine safe_ask hstable hv hinv fun u a u' hu ha ↦ ?_
  match a with
  | .ok r => exact hok u r u' hu ha
  | .error e => exact meets_throw hlasts (herror u e u' hu ha)

/-- A call whose failure does not end the program. -/
theorem meets_attempt_sys {β : Type} {f : q.Answer → Placer β}
    {post : Except IoError β → ℕ → W → Prop} (hstable : Stable E P) (hv : P v)
    (hinv : ∀ v, P v → I v)
    (hpost : ∀ v a v', P v → E.answers q v a v' → Meets E I post (f a) n v') :
    Meets E I post (attempt (Placer.sys q) >>= f) n v :=
  safe_ask hstable hv hinv hpost

theorem stable_and {A : Prop} (hstable : Stable E P) : Stable E fun w ↦ P w ∧ A :=
  fun w w' hothers h ↦ ⟨hstable w w' hothers h.1, h.2⟩

/-- What directories on the way do not change is kept. -/
theorem keeps_mkdirs (hstable : Stable E P) (hinv : ∀ v, P v → I v) (ps : List RelPath)
    (hps : ∀ p ∈ ps, ∀ v a v', P v → E.answers (.mkdirat p) v a v' → P v') (hv : P v) :
    Meets E I (fun _ s w ↦ P w ∧ s = n) (Placer.mkdirs ps) n v := by
  have hlasts : Lasting E I fun (_ : Except IoError Unit) s w ↦ P w ∧ s = n :=
    ⟨fun _ _ ↦ stable_and hstable, fun _ _ w h ↦ hinv w h.1⟩
  induction ps generalizing v with
  | nil => exact meets_pure hlasts ⟨hv, rfl⟩
  | cons p ps ih =>
    refine meets_attempt_sys hstable hv hinv fun u a u' hu ha ↦ ?_
    have hu' := hps p List.mem_cons_self u a u' hu ha
    have hrest := ih (fun p hp ↦ hps p (List.mem_cons_of_mem _ hp)) hu'
    match a with
    | .ok _ => exact hrest
    | .error e =>
      dsimp only
      split
      · exact hrest
      · exact meets_throw hlasts ⟨hu', rfl⟩

/-- What is asked while a placeholder is built. -/
def Building (fd : FileId) : Syscall → Prop
  | .fsetxattr i _ _ | .ftruncate i _ | .stamp i => i = fd
  | _ => False

/-- A placeholder that is built keeps what an anonymous inode establishes, and what is done to that
inode does not change. -/
theorem keeps_placeholder {R : FileId → W → Prop} (hstable : Stable E P)
    (hstable' : ∀ fd, Stable E (R fd)) (hinv : ∀ v, P v → I v) (hleads : ∀ fd v, R fd v → P v)
    (hopens : ∀ v a v', P v → E.answers .tmpfile v a v' → P v' ∧ ∀ fd, a = .ok fd → R fd v')
    (hbuilds : ∀ fd q a v v', Building fd q → R fd v → E.answers q v a v' → R fd v')
    (size : ℕ) (cloudId : String) (etag : Option String) (hv : P v) :
    Meets E I (fun r s w ↦ (P w ∧ s = n) ∧ ∀ fd, r = .ok fd → R fd w)
      (Placer.placeholder size cloudId etag) n v := by
  have hlasts : Lasting E I fun (r : Except IoError FileId) s w ↦
      (P w ∧ s = n) ∧ ∀ fd, r = .ok fd → R fd w :=
    ⟨fun _ _ w w' hothers h ↦ ⟨stable_and hstable w w' hothers h.1,
      fun fd hr ↦ hstable' fd w w' hothers (h.2 fd hr)⟩, fun _ _ w h ↦ hinv w h.1.1⟩
  refine meets_sys_bind hlasts hstable hv hinv (fun u fd u' hu ha ↦ ?_)
    fun u e u' hu ha ↦ ⟨⟨(hopens u _ u' hu ha).1, rfl⟩, fun _ hr ↦ by cases hr⟩
  have hfd := (hopens u _ u' hu ha).2 fd rfl
  have hset : ∀ {q : Syscall} {g : q.Result → Placer FileId} {u}, Building fd q → R fd u →
      (∀ r u, R fd u → Meets E I (fun r s w ↦ (P w ∧ s = n) ∧ ∀ fd, r = .ok fd → R fd w)
        (g r) n u) →
      Meets E I (fun r s w ↦ (P w ∧ s = n) ∧ ∀ fd, r = .ok fd → R fd w) (Placer.sys q >>= g) n u :=
    fun hq hu hg ↦ meets_sys_bind hlasts (hstable' fd) hu (fun v h ↦ hinv v (hleads fd v h))
      (fun u r u' hu ha ↦ hg r u' (hbuilds fd _ _ u u' hq hu ha))
      fun u e u' hu ha ↦ ⟨⟨hleads fd u' (hbuilds fd _ _ u u' hq hu ha), rfl⟩, fun _ hr ↦ by cases hr⟩
  have hrest : ∀ u, R fd u → Meets E I
      (fun r s w ↦ (P w ∧ s = n) ∧ ∀ fd, r = .ok fd → R fd w) (do
        Placer.sys (.ftruncate fd size)
        let _ ← attempt (Placer.sys (.stamp fd))
        pure fd) n u := by
    intro u hu
    refine hset rfl hu fun _ u hu ↦ ?_
    refine meets_attempt_sys (hstable' fd) hu (fun v h ↦ hinv v (hleads fd v h)) fun u a u' hu ha ↦ ?_
    have hu' := hbuilds fd _ a u u' rfl hu ha
    refine meets_pure hlasts ⟨⟨hleads fd u' hu', rfl⟩, fun _ hr ↦ ?_⟩
    cases hr
    exact hu'
  refine hset rfl hfd fun _ u hu ↦ hset rfl hu fun _ u hu ↦ ?_
  match etag with
  | some e => exact hset rfl hu fun _ u hu ↦ hrest u hu
  | none => exact hrest u hu

end

end HydrationAPI.Client
