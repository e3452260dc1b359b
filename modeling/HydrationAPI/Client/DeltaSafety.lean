import HydrationAPI.Client.DeltaStep

/-!
# What a pass may destroy

A pass puts placeholders over files and removes files. A file that is dirty is kept, but one that
was never stamped, or whose stamp cannot be read, is not; and a removal unlinks what is at the path
where the map has the object, which may have come to be another file, or may have been the file of
another object all along.
-/

namespace HydrationAPI.Client.Delta

open PathMap

variable {setting : Setting} {store : Store} {d : Disk} {changes cs cs' : List Change}
  {seen : Option Fingerprint} {ctx : Ctx} {n m : ℕ} {s t : Pass} {c : Change}

/-! ## The pass and its loop -/

/-- The loop over the changes is entered. -/
structure Begins (setting : Setting) (store : Store) (d : Disk) (changes : List Change)
    (seen : Option Fingerprint) (ctx : Ctx) (s : Pass) : Prop where
  some : changes ≠ []
  whole : setting.broken = none
  news : seen ≠ .some ⟨setting.batchDigest changes, setting.treeDigest d⟩
  opens : ∃ folders, foldersByCloudId (scanned setting store d).ignore d = .ok folders
    ∧ ctx = ⟨setting.os, (scanned setting store d).ignore, folders.ignored, setting.waiting⟩
    ∧ s = ⟨d, (scanned setting store d).byCloudId d, folders.synced, scanned setting store d,
      Applied.default, []⟩

theorem Begins.pass (h : Begins setting store d changes seen ctx s) :
    (applyRemembering setting store d changes seen).1 = (run ctx 0 (coalesce changes) s).1 := by
  obtain ⟨hsome, hwhole, hnews, folders, hfolders, rfl, rfl⟩ := h
  rw [applyRemembering]
  dsimp only
  rw [if_neg hsome, hwhole]
  dsimp only
  rw [if_neg hnews, hfolders]

/-- A pass leaves the directory as it was, or enters the loop. -/
theorem applyRemembering_cases (setting : Setting) (store : Store) (d : Disk)
    (changes : List Change) (seen : Option Fingerprint) :
    ((applyRemembering setting store d changes seen).1.disk = d
        ∧ (applyRemembering setting store d changes seen).1.calls = [])
      ∨ ∃ ctx s, Begins setting store d changes seen ctx s := by
  rw [applyRemembering]
  dsimp only
  by_cases hsome : changes = []
  · rw [if_pos hsome]
    exact Or.inl ⟨rfl, rfl⟩
  · rw [if_neg hsome]
    match hbroken : setting.broken with
    | some (e, met) => exact Or.inl ⟨rfl, rfl⟩
    | none =>
      dsimp only
      by_cases hseen : seen = some ⟨setting.batchDigest changes, setting.treeDigest d⟩
      · rw [if_pos hseen]
        exact Or.inl ⟨rfl, rfl⟩
      · rw [if_neg hseen]
        match hfolders : foldersByCloudId (scanned setting store d).ignore d with
        | .error e => exact Or.inl ⟨rfl, rfl⟩
        | .ok folders =>
          exact Or.inr ⟨_, _, hsome, hbroken, hseen, folders, hfolders, rfl, rfl⟩

theorem Begins.calls (h : Begins setting store d changes seen ctx s) : s.calls = [] := by
  obtain ⟨-, -, -, -, -, -, rfl⟩ := h
  rfl

theorem Begins.waiting (h : Begins setting store d changes seen ctx s) :
    ctx.waiting = setting.waiting := by
  obtain ⟨-, -, -, -, -, rfl, -⟩ := h
  rfl

/-- What a pass asks for is asked for by a change in its loop. -/
theorem exists_asks_of_pass {call : Call}
    (h : call ∈ (applyRemembering setting store d changes seen).1.calls) :
    ∃ ctx s, Begins setting store d changes seen ctx s
      ∧ ∃ m t c cs', During ctx 0 (coalesce changes) s m t c cs' ∧ Asks ctx m t c call := by
  rcases applyRemembering_cases setting store d changes seen with ⟨-, hcalls⟩ | ⟨ctx, s, hbegins⟩
  · rw [hcalls] at h
    exact absurd h List.not_mem_nil
  · rw [hbegins.pass] at h
    refine ⟨ctx, s, hbegins, (exists_asks h).resolve_left fun hmem ↦ ?_⟩
    rw [hbegins.calls] at hmem
    exact List.not_mem_nil hmem

theorem Begins.unique {ctx' : Ctx} {s' : Pass} (h : Begins setting store d changes seen ctx s)
    (h' : Begins setting store d changes seen ctx' s') : ctx' = ctx ∧ s' = s := by
  obtain ⟨-, -, -, folders, hfolders, rfl, rfl⟩ := h
  obtain ⟨-, -, -, folders', hfolders', rfl, rfl⟩ := h'
  cases hfolders.symm.trans hfolders'
  exact ⟨rfl, rfl⟩

/-! ## Placeholders over files -/

/-- The pass puts a placeholder over a file that holds content. -/
def Overwrites (t : Pass) (i : Inode) : Prop :=
  ∃ p cloudId d, .place p cloudId d ∈ t.calls ∧ d.fileAt p = some i ∧ i.holdsData = true

/-- The change finds at its path, once its own file has been moved there, a file that holds content
and has an id, no edit of which is known to wait, and that has no stamp or one that cannot be
read. -/
def Exposes (ctx : Ctx) (n : ℕ) (s : Pass) (c : Change) : Prop :=
  ∃ cloudId path size etag abs t i, c = .upserted cloudId path size etag ∧ Applies ctx n c
    ∧ safeJoin path = some abs ∧ size ≤ maxObject ∧ moveFile ctx n s cloudId path abs = .ok t
    ∧ t.disk.fileAt abs = some i ∧ i.holdsData = true ∧ Replaceable ctx i cloudId size etag
    ∧ i.stampState ≠ .ok .clean

/-- **Content is replaced only where it has been sent**, exactly if no change of the batch finds at
its path an unstamped file, or one whose stamp cannot be read, that it may replace otherwise. -/
theorem overwrites_iff : (∀ i, Overwrites (applyRemembering setting store d changes seen).1 i →
      i.stampState = .ok .clean ∧ i.stat.file ∉ setting.waiting)
    ↔ ∀ ctx s, Begins setting store d changes seen ctx s → ∀ m t c cs',
      During ctx 0 (coalesce changes) s m t c cs' → ¬ Exposes ctx m t c := by
  constructor
  · rintro hclean ctx s hbegins m t c cs' hduring
      ⟨cloudId, path, size, etag, abs, t', i, rfl, happlies, habs, hsize, hmove, hi, hdata, hreplace,
        hstamp⟩
    have hget := (Disk.fileAt_eq_some t'.disk).mp hi
    refine hstamp (hclean i ⟨abs, cloudId, t'.disk, ?_, hi, hdata⟩).1
    rw [hbegins.pass]
    refine mem_run_calls hduring (asked_place happlies habs hsize hmove fun j hj ↦ ?_)
    rwa [← Option.some_inj.mp (hget.1.symm.trans hj)]
  · rintro hexposes i ⟨p, cloudId, disk, hcall, hi, hdata⟩
    obtain ⟨ctx, s, hbegins, m, t, c, cs', hduring, hasks⟩ := exists_asks_of_pass hcall
    match hasks with
    | .place happlies habs hsize hmove hreplaceable =>
      have hreplace := hreplaceable i ((Disk.fileAt_eq_some _).mp hi).1
      refine ⟨?_, hbegins.waiting ▸ hreplace.waits⟩
      by_contra hstamp
      exact hexposes ctx s hbegins m t _ cs' hduring
        ⟨_, _, _, _, p, _, i, rfl, happlies, habs, hsize, hmove, hi, hdata, hreplace, hstamp⟩

/-! ### A file that was never stamped -/

/-- Every call of the operating system succeeds. -/
def sampleOs : Os :=
  ⟨fun _ ↦ .ok true, fun n _ ↦ .ok ⟨⟨1, 100 + n⟩, 0, 20, 0⟩, fun _ ↦ none,
    fun n ↦ .ok (⟨⟨1, 200 + n⟩, 0, 20, 0⟩, true), fun _ ↦ none, fun _ ↦ none, fun _ ↦ none,
    fun _ ↦ none, fun _ ↦ none⟩

def sampleSetting (lineage : Lineage) : Setting :=
  ⟨sampleOs, ⟨⟨[".git"], []⟩, lineage⟩, none, [], fun _ ↦ 0, fun _ ↦ 0⟩

def sampleStore : Store := ⟨∅, false, some ⟨[]⟩, ⟨[], []⟩⟩

def sampleRoot : Inode := newDir ⟨⟨1, 1⟩, 0, 0, 0⟩

/-- A file with content. -/
def sampleFile (id stamp : Attr) : Inode :=
  ⟨⟨⟨1, 2⟩, 3, 10, 0⟩, false, id, .text "v1", stamp, .absent, true⟩

def unstampedDisk : Disk := ⟨[([], sampleRoot), (["x"], sampleFile (.text "X") .absent)]⟩

/-- A file that has its id but was never stamped is replaced by the placeholder of a new version. -/
theorem unstamped_overwritten : ∃ i, Overwrites (applyRemembering (sampleSetting ⟨[]⟩) sampleStore
    unstampedDisk [.upserted "X" "x" 4 (some "v2")] none).1 i ∧ i.stampState = .ok .unstamped := by
  refine ⟨sampleFile (.text "X") .absent, ⟨["x"], "X", unstampedDisk, ?_, rfl, rfl⟩, rfl⟩
  have hcalls : (applyRemembering (sampleSetting ⟨[]⟩) sampleStore unstampedDisk
      [.upserted "X" "x" 4 (some "v2")] none).1.calls = [.place ["x"] "X" unstampedDisk] := by
    rfl
  rw [hcalls]
  exact List.mem_cons_self

/-! ## Removals -/

/-- A file that does not carry the cloud id. -/
def Alien (cloudId : String) (i : Inode) : Prop := i.isDir = false ∧ i.id ≠ .text cloudId

/-- Where the map has the object there is its own file, if there is a file. -/
def Fresh (s : Pass) (cloudId : String) : Prop :=
  ∀ e, s.files.lookup cloudId = some e → ¬ s.disk.Holds (Alien cloudId) e.path

/-- The change puts a placeholder at the path, or moves something to it or above it. -/
def Takes (ctx : Ctx) (n : ℕ) (s : Pass) (p : RelPath) : Change → Prop
  | .upserted cloudId path size etag => ∃ abs t, safeJoin path = some abs
      ∧ moveFile ctx n s cloudId path abs = .ok t
      ∧ ((∃ e, s.files.lookup cloudId = some e ∧ Follows s t e.path abs ∧ abs <+: p)
        ∨ abs = p ∧ ∀ i, t.disk.get abs = some i → Replaceable ctx i cloudId size etag)
  | .folderUpserted cloudId path _ => ∃ abs t e, folderPath path = some abs
      ∧ moveFolder ctx n s cloudId path abs = .ok t ∧ s.folders.lookup cloudId = some e
      ∧ Follows s t e abs ∧ abs <+: p
  | .removed _ | .folderRemoved .. => False

/-- A change that is not an upsert of the object takes the path where the map has the object. -/
def Displaces (ctx : Ctx) (n : ℕ) (s : Pass) (c : Change) (cloudId : String) : Prop :=
  (∀ path size etag, c ≠ .upserted cloudId path size etag)
    ∧ ∃ e, s.files.lookup cloudId = some e ∧ Takes ctx n s e.path c

theorem alien_file {cloudId : String} (i : Inode) (h : Alien cloudId i) : i.isDir = false := h.1

theorem Fresh.of_grows {cloudId : String} {s' : Pass} (h : Fresh s cloudId)
    (hgrows : Grows s.disk s'.disk) (hfiles : s'.files = s.files) : Fresh s' cloudId := by
  intro e he
  rw [hgrows.holds_file alien_file]
  exact h e (hfiles ▸ he)

/-- Where a placeholder of the object is put, or one of another where the map does not have it. -/
theorem Fresh.refreshed {cloudId cloudId' : String} {abs : RelPath} {size : ℕ} {etag : Option String}
    {s' : Pass} (h : Fresh s cloudId) (hrefreshed : Refreshed ctx s cloudId' abs size etag s')
    (hplace : cloudId' ≠ cloudId → ∀ e, s.files.lookup cloudId = some e →
      (∀ i, s.disk.get abs = some i → Replaceable ctx i cloudId' size etag) → abs ≠ e.path) :
    Fresh s' cloudId := by
  cases hrefreshed with
  | current _ _ => exact h
  | kept _ _ hrefuses => exact h.of_grows hrefuses.grows hrefuses.files
  | refused hgrows hfiles _ _ _ _ => exact h.of_grows hgrows hfiles
  | placed d st stamped hgrows _ hdisk hfiles _ _ _ hreplace =>
    intro e he
    rw [hfiles] at he
    rw [hdisk, holds_set, hgrows.holds_file alien_file]
    rintro (⟨hp, -, hid⟩ | ⟨-, halien⟩)
    · by_cases heq : cloudId' = cloudId
      · exact hid (by rw [heq]; rfl)
      · exact hplace heq e he hreplace hp.symm
    · exact h e he halien

/-- Where a directory is given the identity of a folder. -/
theorem Fresh.claimed {cloudId cloudId' : String} {abs : RelPath} {s' : Pass} (h : Fresh s cloudId)
    (hdir : ∀ i, s.disk.get abs = some i → i.isDir = true)
    (hclaimed : FolderClaimed s cloudId' abs s') : Fresh s' cloudId := by
  have hmarks : ∀ i j, Marks s s' abs i j → Fresh s' cloudId := by
    intro i j hmarks e he
    rw [hmarks.holds_file (hdir i hmarks.there) alien_file]
    exact h e (hmarks.files ▸ he)
  match hclaimed with
  | .refused hrefuses => exact h.of_grows hrefuses.grows hrefuses.files
  | .unfinished hunfinished _ _ _ _ => exact hmarks _ _ hunfinished
  | .claimed hdone _ _ _ _ => exact hmarks _ _ hdone

/-- Where the file of an object is followed to where the change has it: not over another one. -/
theorem Fresh.fileFollowed {cloudId cloudId' : String} {abs : RelPath} {s' : Pass}
    (h : Fresh s cloudId) (hfollowed : FileFollowed s cloudId' abs (.ok s'))
    (hplace : cloudId' ≠ cloudId → ∀ e e', s.files.lookup cloudId = some e →
      s.files.lookup cloudId' = some e' → Follows s s' e'.path abs → ¬ abs <+: e.path) :
    Fresh s' cloudId
      ∧ (cloudId' ≠ cloudId → s'.files.lookup cloudId = s.files.lookup cloudId) := by
  cases hfollowed with
  | stays _ => exact ⟨h, fun _ ↦ rfl⟩
  | @moved _ e' he' hfollows hfiles _ =>
    by_cases heq : cloudId' = cloudId
    · subst heq
      refine ⟨fun e he ↦ ?_, fun hne ↦ absurd rfl hne⟩
      rw [hfiles, AList.lookup_insert] at he
      cases he
      rw [hfollows.holds_file alien_file]
      rintro (⟨r, hr, halien⟩ | ⟨hnot, -⟩)
      · have hnil : r = [] := by simpa using hr.symm
        rw [hnil, List.append_nil] at halien
        exact h e' he' halien
      · exact hnot (List.prefix_refl abs)
    · have hlookup : s'.files.lookup cloudId = s.files.lookup cloudId := by
        rw [hfiles]
        exact AList.lookup_insert_ne (Ne.symm heq)
      refine ⟨fun e he ↦ ?_, fun _ ↦ hlookup⟩
      rw [hlookup] at he
      rw [hfollows.holds_file alien_file]
      rintro (⟨r, hr, -⟩ | ⟨-, -, halien⟩)
      · exact hplace heq e e' he he' hfollows (hr ▸ List.prefix_append abs r)
      · exact h e he halien

/-- Where a folder is followed to where the change has it. -/
theorem Fresh.folderFollowed {cloudId cloudId' : String} {abs : RelPath} {s' : Pass}
    (h : Fresh s cloudId) (hfollowed : FolderFollowed s cloudId' abs (.ok s'))
    (hplace : ∀ e p, s.files.lookup cloudId = some e → s.folders.lookup cloudId' = some p →
      Follows s s' p abs → ¬ abs <+: e.path) : Fresh s' cloudId := by
  cases hfollowed with
  | stays _ => exact h
  | moved hp hfollows hfiles _ =>
    intro e he
    rw [hfiles] at he
    rw [hfollows.holds_file alien_file]
    rintro (⟨r, hr, -⟩ | ⟨-, -, halien⟩)
    · exact hplace e _ he hp hfollows (hr ▸ List.prefix_append abs r)
    · exact h e he halien

/-- Where something is taken away. -/
theorem Fresh.erased {cloudId : String} {p : RelPath} {s' : Pass} (h : Fresh s cloudId)
    (hdisk : s'.disk = s.disk.erase p) (hfiles : s'.files = s.files) : Fresh s' cloudId := by
  intro e he
  rw [hdisk, holds_erase]
  exact fun halien ↦ h e (hfiles ▸ he) halien.2

/-- A change keeps the map right of an object, unless it displaces it. -/
theorem Fresh.step {cloudId : String} (h : Fresh s cloudId) (hstays : ¬ Displaces ctx n s c cloudId) :
    Fresh (step ctx n s c).1 cloudId := by
  have hstepped := step_stepped ctx n s c
  generalize Delta.step ctx n s c = r at hstepped
  cases hstepped with
  | ignored => exact h
  | stopped why => exact h
  | @upserted cloudId' path size etag _ _ hup =>
    cases hup with
    | refused hrefuses => exact h.of_grows hrefuses.grows hrefuses.files
    | @went abs s₁ s₂ habs _ hmove hfollowed hrefreshed =>
      have htakes : cloudId' ≠ cloudId → ∀ e, s.files.lookup cloudId = some e →
          ¬ Takes ctx n s e.path (.upserted cloudId' path size etag) := fun hne e he htakes ↦
        hstays ⟨fun _ _ _ heq ↦ hne (Change.upserted.inj heq).1, e, he, htakes⟩
      obtain ⟨hfresh, hsame⟩ := h.fileFollowed hfollowed fun hne e e' he he' hfollows hover ↦
        htakes hne e he ⟨abs, s₁, habs, hmove, Or.inl ⟨e', he', hfollows, hover⟩⟩
      refine hfresh.refreshed hrefreshed fun hne e he hreplace hp ↦ ?_
      rw [hsame hne] at he
      exact htakes hne e he ⟨abs, s₁, habs, hmove, Or.inr ⟨hp, hreplace⟩⟩
  | @folderUpserted cloudId' path etag _ _ hup =>
    have hfollows : ∀ abs s₁, folderPath path = some abs →
        moveFolder ctx n s cloudId' path abs = .ok s₁ →
        FolderFollowed s cloudId' abs (.ok s₁) → Fresh s₁ cloudId :=
      fun abs s₁ habs hmove hfollowed ↦ h.folderFollowed hfollowed fun e p he hp hfollows hover ↦
        hstays ⟨fun _ _ _ heq ↦ Change.noConfusion heq, e, he, abs, s₁, p, habs, hmove, hp,
          hfollows, hover⟩
    cases hup with
    | refused hrefuses => exact h.of_grows hrefuses.grows hrefuses.files
    | broken _ hgrows hfiles _ _ _ => exact h.of_grows hgrows hfiles
    | stopped habs hmove hfollowed hrefuses =>
      exact (hfollows _ _ habs hmove hfollowed).of_grows hrefuses.grows hrefuses.files
    | went habs hmove hfollowed hgrows hdir hfiles _ _ _ hclaimed =>
      exact ((hfollows _ _ habs hmove hfollowed).of_grows hgrows hfiles).claimed hdir hclaimed
  | removed _ hrem =>
    cases hrem with
    | absent _ => exact h
    | kept hrefuses => exact h.of_grows hrefuses.grows hrefuses.files
    | refused _ _ _ _ hdisk hfiles _ _ _ => exact h.of_grows (hdisk ▸ Grows.refl _) hfiles
    | gone _ _ _ _ _ hdisk hfiles _ _ _ => exact h.erased hdisk hfiles
  | folderRemoved _ hrem =>
    cases hrem with
    | idle hdisk hfiles _ _ _ => exact h.of_grows (hdisk ▸ Grows.refl _) hfiles
    | marked _ hmarks hdir _ _ _ =>
      intro e he
      rw [hmarks.holds_file hdir alien_file]
      exact h e (hmarks.files ▸ he)
    | gone _ _ _ _ hdisk hfiles _ _ _ => exact h.erased hdisk hfiles

/-- The pass unlinks the file for the removal of an object, or tries to. -/
def Unlinks (t : Pass) (cloudId : String) (i : Inode) : Prop :=
  ∃ p d, .remove p cloudId d ∈ t.calls ∧ d.fileAt p = some i

/-- Where the map has the object there is a file with content that has no stamp, or one that cannot
be read. -/
def Unproven (s : Pass) (cloudId : String) : Prop :=
  ∃ e i, s.files.lookup cloudId = some e ∧ s.disk.fileAt e.path = some i ∧ i.holdsData = true
    ∧ i.stampState ≠ .ok .clean ∧ i.stampState ≠ .ok .dirty

/-- **A removal unlinks the object's own file, and only if its content has been sent**, if the map
has the object right when the pass begins, no change before the removal displaces it, and its file
is not then without a stamp that can be read. -/
theorem unlinks_own {cloudId : String} {i : Inode}
    (hfresh : ∀ ctx s, Begins setting store d changes seen ctx s → Fresh s cloudId)
    (hstays : ∀ ctx s, Begins setting store d changes seen ctx s → ∀ m t c cs',
      During ctx 0 (coalesce changes) s m t c cs' → .removed cloudId ∈ cs' →
      ¬ Displaces ctx m t c cloudId)
    (hproven : ∀ ctx s, Begins setting store d changes seen ctx s → ∀ m t cs',
      During ctx 0 (coalesce changes) s m t (.removed cloudId) cs' → ¬ Unproven t cloudId)
    (hunlinks : Unlinks (applyRemembering setting store d changes seen).1 cloudId i) :
    i.id = .text cloudId ∧ (i.stampState = .ok .clean ∨ i.holdsData = false)
      ∧ i.stat.file ∉ setting.waiting := by
  obtain ⟨p, disk, hcall, hi⟩ := hunlinks
  obtain ⟨ctx, s, hbegins, m, t, c, cs', hduring, hasks⟩ := exists_asks_of_pass hcall
  match hasks with
  | .remove he hat hwaits hstamp =>
    let P : List Change → Pass → Prop := fun left t ↦ .removed cloudId ∈ left → Fresh t cloudId
    have hkept : P (.removed cloudId :: cs') t := hduring.holds
      (fun m t c cs' hduring ih hlater ↦ (ih (List.mem_cons_of_mem c hlater)).step
        (hstays ctx s hbegins m t c cs' hduring hlater))
      fun _ ↦ hfresh ctx s hbegins
    have hfile := (Disk.fileAt_eq_some _).mp hi
    cases hat.symm.trans hfile.1
    refine ⟨?_, ?_, hbegins.waiting ▸ hwaits⟩
    · by_contra hid
      exact hkept List.mem_cons_self _ he ⟨i, hfile.1, hfile.2, hid⟩
    · by_contra hnot
      obtain ⟨hclean, hdata⟩ := not_or.mp hnot
      exact hproven ctx s hbegins m t cs' hduring
        ⟨_, i, he, hi, Bool.eq_true_of_not_eq_false hdata, hclean, hstamp⟩

/-- A file whose content has been sent. -/
def sentFile (id : Attr) : Inode := sampleFile id (.text (sampleFile id .absent).stat.stamp)

def sampleDisk (name : String) (i : Inode) : Disk := ⟨[([], sampleRoot), ([name], i)]⟩

/-- A placeholder is put next to the file that is removed. -/
def sampleChanges : List Change := [.upserted "Y" "y" 1 none, .removed "X"]

def sampleCtx : Ctx := ⟨sampleOs, ⟨[".git"], []⟩, [], []⟩

/-- The file of one object, as the map has it. -/
def samplePass (name cloudId : String) (i : Inode) : Pass :=
  ⟨sampleDisk name i, AList.insert cloudId ⟨[name], some cloudId, some "v1", 3⟩ ∅, ∅,
    scanned (sampleSetting ⟨[]⟩) sampleStore (sampleDisk name i), Applied.default, []⟩

theorem sample_begins : Begins (sampleSetting ⟨[]⟩) sampleStore (sampleDisk "x" (sentFile (.text "X")))
    sampleChanges none sampleCtx (samplePass "x" "X" (sentFile (.text "X"))) :=
  ⟨List.cons_ne_nil _ _, rfl, fun h ↦ Option.some_ne_none _ h.symm, ⟨∅, []⟩, rfl, rfl, rfl⟩

/-- The directory after the placeholder has been put. -/
def sampleDisk' : Disk := (sampleDisk "x" (sentFile (.text "X"))).set ["y"]
  (placeholder ⟨⟨1, 200⟩, 0, 20, 0⟩ true 1 "Y" none)

/-- The conditions hold of a file that is found by its own id, when another file is placed. -/
theorem sample_unlinks_own : Unlinks (applyRemembering (sampleSetting ⟨[]⟩) sampleStore
      (sampleDisk "x" (sentFile (.text "X"))) sampleChanges none).1 "X" (sentFile (.text "X"))
    ∧ (sentFile (.text "X")).id = .text "X" ∧ ((sentFile (.text "X")).stampState = .ok .clean
      ∨ (sentFile (.text "X")).holdsData = false) ∧ (sentFile (.text "X")).stat.file ∉ [] := by
  have hchanges : coalesce sampleChanges = sampleChanges := rfl
  have hfiles : (samplePass "x" "X" (sentFile (.text "X"))).files.lookup "X"
      = some ⟨["x"], some "X", some "v1", 3⟩ := rfl
  have hlookup : (step sampleCtx 0 (samplePass "x" "X" (sentFile (.text "X")))
      (.upserted "Y" "y" 1 none)).1.files.lookup "X" = some ⟨["x"], some "X", some "v1", 3⟩ := rfl
  have hunlinks : Unlinks (applyRemembering (sampleSetting ⟨[]⟩) sampleStore
      (sampleDisk "x" (sentFile (.text "X"))) sampleChanges none).1 "X" (sentFile (.text "X")) := by
    have hcalls : (applyRemembering (sampleSetting ⟨[]⟩) sampleStore
        (sampleDisk "x" (sentFile (.text "X"))) sampleChanges none).1.calls
        = [.place ["y"] "Y" (sampleDisk "x" (sentFile (.text "X"))),
          .remove ["x"] "X" sampleDisk'] := by rfl
    refine ⟨["x"], sampleDisk', ?_, rfl⟩
    rw [hcalls]
    exact List.mem_cons_of_mem _ List.mem_cons_self
  refine ⟨hunlinks, unlinks_own (fun ctx s hbegins ↦ ?_)
    (fun ctx s hbegins m t c cs' hduring hlater ↦ ?_)
    (fun ctx s hbegins m t cs' hduring ↦ ?_) hunlinks⟩
  · obtain ⟨rfl, rfl⟩ := sample_begins.unique hbegins
    rintro e he ⟨i, hi, -, hid⟩
    cases hfiles.symm.trans he
    cases hi
    exact hid rfl
  · obtain ⟨rfl, rfl⟩ := sample_begins.unique hbegins
    rw [hchanges] at hduring
    rcases hduring with _ | ⟨-, _ | ⟨-, _ | _⟩⟩
    · rintro ⟨-, e, he, abs, t, habs, -, ⟨e', he', -⟩ | ⟨rfl, -⟩⟩
      · cases he'
      · cases hfiles.symm.trans he
        exact absurd habs (by decide)
    · exact absurd hlater List.not_mem_nil
  · obtain ⟨rfl, rfl⟩ := sample_begins.unique hbegins
    rw [hchanges] at hduring
    rcases hduring with _ | ⟨-, _ | ⟨-, _ | _⟩⟩
    rintro ⟨e, i, he, hi, -, hclean, -⟩
    cases hlookup.symm.trans he
    cases hi
    exact hclean rfl

/-- A file with no id of its own is unlinked because the lineage remembers one for its path, though
it was saved and never sent; and so is a file of another object that was put, in the same pass,
where the map has the one that is removed. -/
theorem other_unlinked :
    (∃ i, Unlinks (applyRemembering (sampleSetting ⟨[(["x"], ⟨"X", some "v1"⟩)]⟩) sampleStore
        (sampleDisk "x" (sampleFile .absent .absent)) [.removed "X"] none).1 "X" i
      ∧ i.id = .absent ∧ i.holdsData = true)
    ∧ ∃ i, Unlinks (applyRemembering (sampleSetting ⟨[]⟩) sampleStore
        (sampleDisk "a" (sentFile (.text "A"))) [.upserted "B" "a" 4 (some "v2"), .removed "A"]
        none).1 "A" i
      ∧ i.id = .text "B" := by
  refine ⟨⟨sampleFile .absent .absent,
    ⟨["x"], sampleDisk "x" (sampleFile .absent .absent), ?_, rfl⟩, rfl, rfl⟩,
    ⟨placeholder ⟨⟨1, 200⟩, 0, 20, 0⟩ true 4 "B" (some "v2"), ⟨["a"], (sampleDisk "a"
      (sentFile (.text "A"))).set ["a"] (placeholder ⟨⟨1, 200⟩, 0, 20, 0⟩ true 4 "B" (some "v2")),
      ?_, rfl⟩, rfl⟩⟩
  · have hcalls : (applyRemembering (sampleSetting ⟨[(["x"], ⟨"X", some "v1"⟩)]⟩) sampleStore
        (sampleDisk "x" (sampleFile .absent .absent)) [.removed "X"] none).1.calls
        = [.remove ["x"] "X" (sampleDisk "x" (sampleFile .absent .absent))] := by rfl
    rw [hcalls]
    exact List.mem_cons_self
  · have hcalls : (applyRemembering (sampleSetting ⟨[]⟩) sampleStore
        (sampleDisk "a" (sentFile (.text "A"))) [.upserted "B" "a" 4 (some "v2"), .removed "A"]
        none).1.calls = [.place ["a"] "B" (sampleDisk "a" (sentFile (.text "A"))),
          .remove ["a"] "A" ((sampleDisk "a" (sentFile (.text "A"))).set ["a"]
            (placeholder ⟨⟨1, 200⟩, 0, 20, 0⟩ true 4 "B" (some "v2")))] := by rfl
    rw [hcalls]
    exact List.mem_cons_of_mem _ List.mem_cons_self

end HydrationAPI.Client.Delta
