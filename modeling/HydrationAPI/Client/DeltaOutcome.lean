import HydrationAPI.Client.DeltaDistinct

/-!
# What a pass leaves

A pass that reports nothing has applied every change of its batch. What is in the directory in the
end is then what the last change of every object says, unless the maps had the object wrong when its
turn came, or a later change took the place of its file.
-/

namespace HydrationAPI.Client.Delta

open PathMap

variable {setting : Setting} {store : Store} {d : Disk} {changes cs cs' es : List Change}
  {seen : Option Fingerprint} {ctx : Ctx} {n m k : ℕ} {s t u : Pass} {c e : Change}

/-! ## Runs that report nothing -/

theorem run_clean (h : (run ctx n cs s).1.out.Clean) : s.out.Clean := by
  induction cs generalizing n s with
  | nil => exact h
  | cons c cs ih =>
    have hstep : (step ctx n s c).1.out.Clean := by
      rw [run] at h
      rcases hr : step ctx n s c with ⟨t, flow⟩
      rw [hr] at h
      cases flow with
      | next => exact ih h
      | stop => exact h
      | error e => exact h
    exact clean_of_step hstep

/-- A change of a run that ends with no error, and reports nothing, is followed by the next. -/
theorem next_of_clean (hclean : (run ctx n (c :: cs) s).1.out.Clean)
    (herror : (run ctx n (c :: cs) s).2 = none) : (step ctx n s c).2 = .next
      ∧ run ctx n (c :: cs) s = run ctx (n + 1) cs (step ctx n s c).1 := by
  rw [run] at hclean herror ⊢
  rcases hr : step ctx n s c with ⟨t, flow⟩
  cases flow with
  | next => exact ⟨rfl, rfl⟩
  | stop =>
    rw [hr] at hclean
    have hstopped : (step ctx n s c).1.out.stopped ≠ none := stopped_of_flow (by rw [hr])
    rw [hr] at hstopped
    exact absurd hclean.stopped hstopped
  | error e =>
    rw [hr] at herror
    exact absurd herror (Option.some_ne_none e)

/-- Every change of such a run is applied. -/
theorem exists_during {before after : List Change}
    (hclean : (run ctx n (before ++ c :: after) s).1.out.Clean)
    (herror : (run ctx n (before ++ c :: after) s).2 = none) :
    ∃ m t, During ctx n (before ++ c :: after) s m t c after := by
  refine exists_during_of_next fun m t b cs' hduring ↦ ?_
  rw [hduring.run_eq] at hclean herror
  exact (next_of_clean hclean herror).1

theorem During.after (h : During ctx n cs s m t c cs') (hnext : (step ctx m t c).2 = .next)
    (h' : During ctx (m + 1) cs' (step ctx m t c).1 k u e es) : During ctx n cs s k u e es := by
  induction h with
  | here n c cs s => exact .later hnext h'
  | later hnext' _ ih => exact .later hnext' (ih hnext h')

/-- The last change of an object is applied, and what comes after it is to other objects. -/
theorem exists_applied (hclean : (run ctx n cs s).1.out.Clean) (herror : (run ctx n cs s).2 = none)
    (hlast : Change.LastOf cs c) : ∃ m t after, During ctx n cs s m t c after
      ∧ (∀ d ∈ after, d.id ≠ c.id) ∧ (step ctx m t c).2 = .next ∧ (step ctx m t c).1.out.Clean
      ∧ run ctx n cs s = run ctx (m + 1) after (step ctx m t c).1 := by
  obtain ⟨before, after, rfl, hafter⟩ := hlast
  obtain ⟨m, t, hduring⟩ := exists_during hclean herror
  have hrun := hduring.run_eq
  rw [hrun] at hclean herror
  obtain ⟨hnext, hrest⟩ := next_of_clean hclean herror
  exact ⟨m, t, after, hduring, hafter, hnext, run_clean (hrest ▸ hclean), hrun.trans hrest⟩

/-- What the last change of an object brings about, and no change after it undoes, holds when the
run ends. -/
theorem run_keeps {I : Disk → Prop} (hclean : (run ctx n cs s).1.out.Clean)
    (herror : (run ctx n cs s).2 = none) (hlast : Change.LastOf cs c)
    (hstep : ∀ m t cs', During ctx n cs s m t c cs' → (step ctx m t c).1.out.Clean →
      I (step ctx m t c).1.disk)
    (hlater : ∀ m t e cs', During ctx n cs s m t e cs' → (∀ d ∈ e :: cs', d.id ≠ c.id) →
      Survives ctx m t e I) : I (run ctx n cs s).1.disk := by
  obtain ⟨m, t, after, hduring, hafter, hnext, happlied, hrun⟩ := exists_applied hclean herror hlast
  have hbegin := hstep m t after hduring happlied
  obtain ⟨-, hkept, -⟩ := run_induction (P := fun _ t ↦ I t.disk)
    (fun k u e es hduring' hu ↦ (hlater k u e es (hduring.after hnext hduring') fun d hd ↦
      hafter d (hduring'.suffix.subset hd)).step hu) hbegin
  rw [hrun]
  exact hkept

/-! ## Files that are where the cloud has them -/

/-- The object has one file, at the path, of the size. -/
structure Settled (d : Disk) (cloudId : String) (abs : RelPath) (size : ℕ) : Prop where
  there : d.Holds (fun i ↦ i.isDir = false ∧ i.id = .text cloudId ∧ i.stat.size = size) abs
  only : ∀ p, Carries d cloudId p → p = abs

/-- The object of the change has a file that is neither where the map has it nor where the change
says, or a directory is there that has the identity of the file. -/
def Misses (s : Pass) : Change → Prop
  | .upserted cloudId path _ _ =>
    (∃ p, Carries s.disk cloudId p ∧ safeJoin path ≠ some p
        ∧ ∀ e, s.files.lookup cloudId = some e → e.path ≠ p)
      ∨ ∃ p, Claims s.disk cloudId p ∧ (safeJoin path = some p
        ∨ ∃ e, s.files.lookup cloudId = some e ∧ e.path = p)
  | .removed cloudId => ∃ p, Carries s.disk cloudId p
      ∧ ∀ e, s.files.lookup cloudId = some e → e.path ≠ p
  | .folderUpserted .. | .folderRemoved .. => False

/-- The change puts a placeholder at the path, moves something from it or from above it, or to it or
above it, or removes the file that is there. -/
def Disturbs (ctx : Ctx) (n : ℕ) (s : Pass) (p : RelPath) : Change → Prop
  | .upserted cloudId path size etag => ∃ abs t, safeJoin path = some abs
      ∧ moveFile ctx n s cloudId path abs = .ok t
      ∧ ((∃ e, s.files.lookup cloudId = some e ∧ Follows s t e.path abs
            ∧ (e.path <+: p ∨ abs <+: p))
        ∨ abs = p ∧ ∀ i, t.disk.get abs = some i → Replaceable ctx i cloudId size etag)
  | .folderUpserted cloudId path _ => ∃ abs t e, folderPath path = some abs
      ∧ moveFolder ctx n s cloudId path abs = .ok t ∧ s.folders.lookup cloudId = some e
      ∧ Follows s t e abs ∧ (e <+: p ∨ abs <+: p)
  | .removed cloudId => ∃ e, s.files.lookup cloudId = some e ∧ e.path = p
  | .folderRemoved .. => False

variable {cloudId path : String} {size : ℕ} {etag : Option String} {abs p : RelPath}

/-- Where the file of an upsert is sought, once it has been followed. -/
theorem followed_of_not_misses (habs : safeJoin path = some abs)
    (hfound : ¬ Misses s (.upserted cloudId path size etag))
    (hfollowed : FileFollowed s cloudId abs (.ok t)) :
    (∀ p, Carries t.disk cloudId p → p = abs) ∧ ¬ Claims t.disk cloudId abs := by
  obtain ⟨hknown, hfile⟩ := not_or.mp hfound
  refine ⟨fun p ↦ hfollowed.carries fun q hq ↦ ?_, fun hclaims ↦ hfile ?_⟩
  · by_contra hnot
    obtain ⟨hne, hstray⟩ := not_or.mp hnot
    refine hknown ⟨q, hq, fun heq ↦ ?_, fun e he heq ↦ hstray ⟨e, he, heq⟩⟩
    exact hne (Option.some_inj.mp (heq.symm.trans habs))
  · match hfollowed with
    | .stays _ => exact ⟨abs, hclaims, Or.inl habs⟩
    | .moved he hfollows _ _ =>
      rcases (hfollows.holds not_claims_newDir).mp hclaims with ⟨r, hr, hclaims⟩ | ⟨hnot, -⟩
      · rw [List.append_right_eq_self.mp hr.symm, List.append_nil] at hclaims
        exact ⟨_, hclaims, Or.inr ⟨_, he, rfl⟩⟩
      · exact absurd (List.prefix_refl abs) hnot

/-- The file of an upsert is where it says, once it has been applied. -/
theorem settled_of_upserted (hfound : ¬ Misses s (.upserted cloudId path size etag))
    (hclean : (step ctx n s (.upserted cloudId path size etag)).1.out.Clean) :
    ∃ abs, safeJoin path = some abs
      ∧ Settled (step ctx n s (.upserted cloudId path size etag)).1.disk cloudId abs size := by
  have hstepped := step_stepped ctx n s (.upserted cloudId path size etag)
  generalize step ctx n s (.upserted cloudId path size etag) = r at hclean hstepped
  match hstepped with
  | .ignored => exact absurd hclean not_clean_ignored
  | .stopped _ => exact absurd hclean.stopped (Option.some_ne_none _)
  | .upserted _ (.refused hrefuses) => exact absurd hclean hrefuses.unclean
  | .upserted _ (.went habs _ _ hfollowed hrefreshed) =>
    obtain ⟨honly, hdir⟩ := followed_of_not_misses habs hfound hfollowed
    refine ⟨_, habs, ?_⟩
    match hrefreshed with
    | @Refreshed.current _ _ _ _ _ _ i hi hcurrent =>
      obtain ⟨hid, hsize⟩ : i.id = .text cloudId ∧ i.stat.size = size := by
        simp only [isCurrent, Bool.and_eq_true, decide_eq_true_eq] at hcurrent
        exact hcurrent.1
      refine ⟨⟨i, hi, ?_, hid, hsize⟩, honly⟩
      exact Bool.eq_false_iff.mpr fun h ↦ hdir ⟨i, hi, h, hid⟩
    | .kept _ _ hrefuses => exact absurd hclean hrefuses.unclean
    | .refused _ _ _ _ hunclean _ => exact absurd hclean hunclean
    | .placed d st stamped hgrows _ hdisk _ _ _ _ _ =>
      rw [hdisk]
      refine ⟨⟨_, get_set_self, rfl, rfl, rfl⟩, fun p hp ↦ ?_⟩
      rcases holds_set.mp hp with ⟨heq, -⟩ | ⟨-, hp⟩
      · exact heq
      · exact honly p ((hgrows.holds not_carries_newDir).mp hp)

/-- The object of a removal has no file, once it has been applied. -/
theorem gone_of_removed (hfound : ¬ Misses s (.removed cloudId))
    (hclean : (step ctx n s (.removed cloudId)).1.out.Clean) :
    ¬ Carries (step ctx n s (.removed cloudId)).1.disk cloudId p := by
  have hstepped := step_stepped ctx n s (.removed cloudId)
  generalize step ctx n s (.removed cloudId) = r at hclean hstepped
  intro hp
  have hknown : ∀ q, Carries s.disk cloudId q → ∃ e, s.files.lookup cloudId = some e ∧ e.path = q := by
    intro q hq
    by_contra hnot
    exact hfound ⟨q, hq, fun e he heq ↦ hnot ⟨e, he, heq⟩⟩
  match hstepped with
  | .ignored => exact not_clean_ignored hclean
  | .stopped _ => exact absurd hclean.stopped (Option.some_ne_none _)
  | .removed _ (.absent hnone) =>
    obtain ⟨e, he, rfl⟩ := hknown p hp
    obtain ⟨i, hi, -⟩ := hp
    exact Option.some_ne_none i (hi.symm.trans (hnone e he))
  | .removed _ (.kept hrefuses) => exact hrefuses.unclean hclean
  | .removed _ (.refused _ _ _ _ _ _ _ _ hunclean) => exact hunclean hclean
  | .removed _ (.gone he _ _ _ _ hdisk _ _ _ _) =>
    rw [hdisk] at hp
    obtain ⟨hne, hp⟩ := holds_erase.mp hp
    obtain ⟨e, he', rfl⟩ := hknown p hp
    cases he.symm.trans he'
    exact hne rfl

/-! ## What later changes leave alone -/

theorem Settled.grows {d' : Disk} (h : Settled d cloudId abs size) (hgrows : Grows d d') :
    Settled d' cloudId abs size := by
  refine ⟨(hgrows.holds fun _ h ↦ Bool.noConfusion h.1).mpr h.there, fun p hp ↦ h.only p ?_⟩
  exact (hgrows.holds not_carries_newDir).mp hp

theorem Settled.follows {src dst : RelPath} (h : Settled s.disk cloudId abs size)
    (hfollows : Follows s t src dst) (hapart : ¬ (src <+: abs ∨ dst <+: abs)) :
    Settled t.disk cloudId abs size := by
  obtain ⟨hsrc, hdst⟩ := not_or.mp hapart
  refine ⟨(hfollows.holds fun _ h ↦ Bool.noConfusion h.1).mpr (Or.inr ⟨hdst, hsrc, h.there⟩),
    fun p hp ↦ ?_⟩
  rcases (hfollows.holds not_carries_newDir).mp hp with ⟨r, -, hr⟩ | ⟨-, -, hp⟩
  · exact absurd ⟨r, h.only _ hr⟩ hsrc
  · exact h.only p hp

theorem Settled.set {i : Inode} (h : Settled d cloudId abs size) (hne : p ≠ abs)
    (hi : ¬ (i.isDir = false ∧ i.id = .text cloudId)) : Settled (d.set p i) cloudId abs size := by
  refine ⟨holds_set.mpr (Or.inr ⟨hne.symm, h.there⟩), fun q hq ↦ ?_⟩
  rcases holds_set.mp hq with ⟨-, hi'⟩ | ⟨-, hq⟩
  · exact absurd hi' hi
  · exact h.only q hq

theorem Settled.erase (h : Settled d cloudId abs size) (hne : p ≠ abs) :
    Settled (d.erase p) cloudId abs size :=
  ⟨holds_erase.mpr ⟨hne.symm, h.there⟩, fun q hq ↦ h.only q (holds_erase.mp hq).2⟩

/-- Where a directory is, the file is not. -/
theorem Settled.ne {i : Inode} (h : Settled d cloudId abs size) (hi : d.get p = some i)
    (hdir : i.isDir = true) : p ≠ abs := by
  rintro rfl
  obtain ⟨j, hj, hfile, -⟩ := h.there
  cases hi.symm.trans hj
  exact Bool.false_ne_true (hfile.symm.trans hdir)

theorem not_file_of_isDir {i : Inode} (h : i.isDir = true) :
    ¬ (i.isDir = false ∧ i.id = .text cloudId) :=
  fun hi ↦ Bool.false_ne_true (hi.1.symm.trans h)

/-- A file stays where it is under changes to other objects that do not disturb it. -/
theorem settled_survives (hother : c.id ≠ cloudId) (hstays : ¬ Disturbs ctx n s abs c) :
    Survives ctx n s c fun d ↦ Settled d cloudId abs size where
  grows _ _ hgrows h := h.grows hgrows
  moves := by
    rintro cloudId' path size' etag dst e s₁ rfl hdst hmove he hfollows h
    refine h.follows hfollows fun hat ↦ hstays ?_
    exact ⟨dst, s₁, hdst, hmove, Or.inl ⟨e, he, hfollows, hat⟩⟩
  places := by
    rintro cloudId' path size' etag dst s₁ d i rfl hdst hmove - hreplace - - hid h
    refine h.set (fun heq ↦ hstays ⟨dst, s₁, hdst, hmove, Or.inr ⟨heq, hreplace⟩⟩) fun hi ↦ ?_
    exact hother (Attr.text.inj (hid.symm.trans hi.2))
  movesFolder := by
    rintro cloudId' path etag dst e s₁ rfl hdst hmove he hfollows h
    refine h.follows hfollows fun hat ↦ hstays ?_
    exact ⟨dst, s₁, e, hdst, hmove, he, hfollows, hat⟩
  claims _ _ _ _ _ _ _ _ _ _ _ _ _ hi hdir hj _ h :=
    h.set (h.ne hi hdir) (not_file_of_isDir (hj.trans hdir))
  removes := by
    rintro cloudId' e rfl he h
    exact h.erase fun heq ↦ hstays ⟨e, he, heq⟩
  removesFolder _ _ hi hdir h := h.erase (h.ne hi hdir)
  detaches _ _ _ hi hdir hj _ h := h.set (h.ne hi hdir) (not_file_of_isDir (hj.trans hdir))

/-- The object has no file. -/
def Gone (d : Disk) (cloudId : String) : Prop := ∀ p, ¬ Carries d cloudId p

theorem Gone.follows {src dst : RelPath} (h : Gone s.disk cloudId) (hfollows : Follows s t src dst) :
    Gone t.disk cloudId := by
  intro p hp
  rcases (hfollows.holds not_carries_newDir).mp hp with ⟨r, -, hr⟩ | ⟨-, -, hp⟩
  · exact h _ hr
  · exact h p hp

theorem Gone.set {i : Inode} (h : Gone d cloudId)
    (hi : ¬ (i.isDir = false ∧ i.id = .text cloudId)) : Gone (d.set p i) cloudId := by
  intro q hq
  rcases holds_set.mp hq with ⟨-, hi'⟩ | ⟨-, hq⟩
  · exact hi hi'
  · exact h q hq

/-- No file of an object is made by changes to other objects. -/
theorem gone_survives (hother : c.id ≠ cloudId) : Survives ctx n s c fun d ↦ Gone d cloudId where
  grows _ _ hgrows h p hp := h p ((hgrows.holds not_carries_newDir).mp hp)
  moves _ _ _ _ _ _ _ _ _ _ _ hfollows h := h.follows hfollows
  places := by
    rintro cloudId' path size' etag dst s₁ d i rfl - - - - - - hid h
    exact h.set fun hi ↦ hother (Attr.text.inj (hid.symm.trans hi.2))
  movesFolder _ _ _ _ _ _ _ _ _ _ hfollows h := h.follows hfollows
  claims _ _ _ _ _ _ _ _ _ _ _ _ _ _ hdir hj _ h := h.set (not_file_of_isDir (hj.trans hdir))
  removes _ _ _ _ h p hp := h p (holds_erase.mp hp).2
  removesFolder _ _ _ _ h p hp := h p (holds_erase.mp hp).2
  detaches _ _ _ _ hdir hj _ h := h.set (not_file_of_isDir (hj.trans hdir))

/-! ## Whole passes -/

/-- A pass over changes that ends with no error, and was not skipped, has entered its loop. -/
theorem exists_begins (hsome : changes ≠ [])
    (hnews : seen ≠ some ⟨setting.batchDigest changes, setting.treeDigest d⟩)
    (herror : (applyRemembering setting store d changes seen).2.1 = none) :
    ∃ ctx s, Begins setting store d changes seen ctx s
      ∧ (run ctx 0 (coalesce changes) s).2 = none := by
  rw [applyRemembering] at herror
  dsimp only at herror
  rw [if_neg hsome] at herror
  cases hbroken : setting.broken with
  | some fault =>
    rw [hbroken] at herror
    exact absurd herror (Option.some_ne_none fault.1)
  | none =>
    rw [hbroken] at herror
    dsimp only at herror
    rw [if_neg hnews] at herror
    cases hfolders : foldersByCloudId (scanned setting store d).ignore d with
    | error e =>
      rw [hfolders] at herror
      exact absurd herror (Option.some_ne_none e)
    | ok folders =>
      rw [hfolders] at herror
      exact ⟨_, _, ⟨hsome, hbroken, hnews, folders, hfolders, rfl, rfl⟩, herror⟩

/-- **What a pass that reports nothing leaves**: the object of a last change that is an upsert has
one file, at its path and of its size, and the object of a last change that is a removal has none,
if the change does not miss a file of the object and no later one disturbs it. -/
theorem pass_settles (hnews : seen ≠ some ⟨setting.batchDigest changes, setting.treeDigest d⟩)
    (herror : (applyRemembering setting store d changes seen).2.1 = none)
    (hclean : (applyRemembering setting store d changes seen).1.out.Clean)
    (hfound : ∀ ctx s, Begins setting store d changes seen ctx s → ∀ m t cs',
      During ctx 0 (coalesce changes) s m t c cs' → ¬ Misses t c)
    (hlast : Change.LastOf changes c) :
    (∀ cloudId path size etag, c = .upserted cloudId path size etag →
      ∃ abs, safeJoin path = some abs ∧
        ((∀ ctx s, Begins setting store d changes seen ctx s → ∀ m t e cs',
            During ctx 0 (coalesce changes) s m t e cs' → (∀ a ∈ e :: cs', a.id ≠ cloudId) →
            ¬ Disturbs ctx m t abs e) →
          Settled (applyRemembering setting store d changes seen).1.disk cloudId abs size))
    ∧ ∀ cloudId, c = .removed cloudId →
      ∀ p, ¬ Carries (applyRemembering setting store d changes seen).1.disk cloudId p := by
  have hsome : changes ≠ [] := by
    obtain ⟨before, after, rfl, -⟩ := hlast
    exact List.append_ne_nil_of_right_ne_nil before (List.cons_ne_nil c after)
  obtain ⟨ctx, s, hbegins, herror⟩ := exists_begins hsome hnews herror
  rw [hbegins.pass] at hclean ⊢
  constructor
  · rintro cloudId path size etag rfl
    obtain ⟨m, t, cs', hduring, -, -, hstep, -⟩ := exists_applied hclean herror hlast.lastOnes
    obtain ⟨abs, habs, -⟩ := settled_of_upserted (hfound ctx s hbegins m t cs' hduring) hstep
    refine ⟨abs, habs, fun hstays ↦ ?_⟩
    refine run_keeps (I := fun d ↦ Settled d cloudId abs size) hclean herror hlast.lastOnes
      (fun m t cs' hduring hstep ↦ ?_) fun m t e cs' hduring hlater ↦ ?_
    · obtain ⟨abs', habs', hsettled⟩ :=
        settled_of_upserted (hfound ctx s hbegins m t cs' hduring) hstep
      cases habs.symm.trans habs'
      exact hsettled
    · exact settled_survives (hlater e List.mem_cons_self)
        (hstays ctx s hbegins m t e cs' hduring hlater)
  · rintro cloudId rfl
    refine run_keeps (I := fun d ↦ Gone d cloudId) hclean herror hlast.lastOnes
      (fun m t cs' hduring hstep p ↦ ?_) fun m t e cs' hduring hlater ↦ ?_
    · exact gone_of_removed (hfound ctx s hbegins m t cs' hduring) hstep
    · exact gone_survives (hlater e List.mem_cons_self)

/-! ### A file in a folder that is renamed -/

def stayingChanges : List Change :=
  [.folderUpserted "F" "g" none, .upserted "X" "g/x" 4 (some "v2")]

/-- A file that stays in its folder, and is brought up to date there, is settled. -/
theorem nested_settled : Settled (applyRemembering (sampleSetting ⟨[]⟩) sampleStore nestedDisk
    stayingChanges none).1.disk "X" ["g", "x"] 4 := by
  have hchanges : coalesce stayingChanges = stayingChanges := rfl
  have hbegins := nested_begins (List.cons_ne_nil (Change.folderUpserted "F" "g" none)
    [.upserted "X" "g/x" 4 (some "v2")])
  have hlast : Change.LastOf stayingChanges (.upserted "X" "g/x" 4 (some "v2")) :=
    ⟨[.folderUpserted "F" "g" none], [], rfl, fun _ h ↦ absurd h List.not_mem_nil⟩
  have hfound : ∀ ctx s, Begins (sampleSetting ⟨[]⟩) sampleStore nestedDisk stayingChanges none
      ctx s → ∀ m t cs', During ctx 0 (coalesce stayingChanges) s m t
        (.upserted "X" "g/x" 4 (some "v2")) cs' →
      ¬ Misses t (.upserted "X" "g/x" 4 (some "v2")) := by
    intro ctx s hbegins' m t cs' hduring
    obtain ⟨rfl, rfl⟩ := hbegins.unique hbegins'
    rw [hchanges] at hduring
    rcases hduring with _ | ⟨-, _ | ⟨-, _ | _⟩⟩
    rintro (⟨p, hcarries, hne, -⟩ | ⟨p, ⟨i, hi, hdir, hid⟩, -⟩)
    · rw [renamed_carries hcarries] at hne
      exact hne rfl
    · have hmem : p ∈ [["g"], [], ["g"], ["g", "x"]] := mem_paths.mpr ⟨i, hi⟩
      simp only [List.mem_cons, List.not_mem_nil, or_false] at hmem
      rcases hmem with rfl | rfl | rfl | rfl
      · cases hi
        exact absurd hid (by decide)
      · cases hi
        cases hid
      · cases hi
        exact absurd hid (by decide)
      · cases hi
        cases hdir
  obtain ⟨abs, habs, hsettles⟩ := (pass_settles (fun h ↦ Option.some_ne_none _ h.symm) rfl
    ⟨rfl, rfl, rfl, rfl, rfl⟩ hfound hlast).1 "X" "g/x" 4 (some "v2") rfl
  cases habs
  refine hsettles fun ctx s hbegins' m t e cs' hduring hlater ↦ ?_
  obtain ⟨rfl, rfl⟩ := hbegins.unique hbegins'
  rw [hchanges] at hduring
  rcases hduring with _ | ⟨-, _ | ⟨-, _ | _⟩⟩
  · exact absurd rfl (hlater (.upserted "X" "g/x" 4 (some "v2"))
      (List.mem_cons_of_mem _ List.mem_cons_self))
  · exact absurd rfl (hlater (.upserted "X" "g/x" 4 (some "v2")) List.mem_cons_self)

def leavingChanges : List Change := [.folderUpserted "F" "g" none, .upserted "X" "h" 3 (some "v1")]

/-- A pass that reports nothing leaves two files of an object that its folder took along, and the
file of an object that was placed by the same pass, though the last change is its removal. -/
theorem nested_unsettled :
    ((applyRemembering (sampleSetting ⟨[]⟩) sampleStore nestedDisk leavingChanges none).2.1 = none
      ∧ (applyRemembering (sampleSetting ⟨[]⟩) sampleStore nestedDisk leavingChanges
        none).1.out.Clean
      ∧ Change.LastOf leavingChanges (.upserted "X" "h" 3 (some "v1"))
      ∧ ¬ Settled (applyRemembering (sampleSetting ⟨[]⟩) sampleStore nestedDisk leavingChanges
        none).1.disk "X" ["h"] 3)
    ∧ (applyRemembering (sampleSetting ⟨[]⟩) sampleStore nestedDisk
        [.upserted "Y" "y" 3 none, .removed "Y"] none).2.1 = none
      ∧ (applyRemembering (sampleSetting ⟨[]⟩) sampleStore nestedDisk
        [.upserted "Y" "y" 3 none, .removed "Y"] none).1.out.Clean
      ∧ Change.LastOf [.upserted "Y" "y" 3 none, .removed "Y"] (.removed "Y")
      ∧ Carries (applyRemembering (sampleSetting ⟨[]⟩) sampleStore nestedDisk
        [.upserted "Y" "y" 3 none, .removed "Y"] none).1.disk "Y" ["y"] := by
  refine ⟨⟨rfl, ⟨rfl, rfl, rfl, rfl, rfl⟩, ⟨[.folderUpserted "F" "g" none], [], rfl,
    fun _ h ↦ absurd h List.not_mem_nil⟩, fun h ↦ ?_⟩, rfl, ⟨rfl, rfl, rfl, rfl, rfl⟩,
    ⟨[.upserted "Y" "y" 3 none], [], rfl, fun _ h ↦ absurd h List.not_mem_nil⟩,
    _, rfl, rfl, rfl⟩
  have heq := h.only ["g", "x"] ⟨_, rfl, rfl, rfl⟩
  exact absurd heq (by decide)

end HydrationAPI.Client.Delta
