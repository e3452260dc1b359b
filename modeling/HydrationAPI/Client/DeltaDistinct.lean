import HydrationAPI.Client.DeltaSafety

/-!
# One file to an id, one directory to a folder

A pass finds files and folders in the maps that were made before its first change. A folder that is
moved takes along what lies below it, and the maps still have the old paths. A change that looks for
an object there finds nothing, and makes a second file or a second directory of it.
-/

namespace HydrationAPI.Client.Delta

open PathMap

variable {setting : Setting} {store : Store} {d : Disk} {changes cs : List Change}
  {seen : Option Fingerprint} {ctx : Ctx} {n : ℕ} {s : Pass} {c : Change}

/-! ## What a change does to a directory -/

/-- What holds of a directory stays so with every operation that the change comes down to. -/
structure Survives (ctx : Ctx) (n : ℕ) (s : Pass) (c : Change) (I : Disk → Prop) : Prop where
  grows : ∀ d d', Grows d d' → I d → I d'
  moves : ∀ cloudId path size etag abs e s₁, c = .upserted cloudId path size etag →
    safeJoin path = some abs → moveFile ctx n s cloudId path abs = .ok s₁ →
    s.files.lookup cloudId = some e → Follows s s₁ e.path abs → I s.disk → I s₁.disk
  /-- A placeholder is put, once the file of the object has been followed. -/
  places : ∀ cloudId path size etag abs s₁ d i, c = .upserted cloudId path size etag →
    safeJoin path = some abs → moveFile ctx n s cloudId path abs = .ok s₁ →
    FileFollowed s cloudId abs (.ok s₁) →
    (∀ j, s₁.disk.get abs = some j → Replaceable ctx j cloudId size etag) → Grows s₁.disk d →
    i.isDir = false → i.id = .text cloudId → I d → I (d.set abs i)
  movesFolder : ∀ cloudId path etag abs e s₁, c = .folderUpserted cloudId path etag →
    folderPath path = some abs → moveFolder ctx n s cloudId path abs = .ok s₁ →
    s.folders.lookup cloudId = some e → Follows s s₁ e abs → I s.disk → I s₁.disk
  /-- A directory is given the identity of the folder, once that has been followed. -/
  claims : ∀ cloudId path etag abs s₁ d i j, c = .folderUpserted cloudId path etag →
    folderPath path = some abs → moveFolder ctx n s cloudId path abs = .ok s₁ →
    FolderFollowed s cloudId abs (.ok s₁) → Grows s₁.disk d → d.get abs = some i →
    i.isDir = true → j.isDir = i.isDir → j.id = .text cloudId → I d → I (d.set abs j)
  removes : ∀ cloudId e, c = .removed cloudId → s.files.lookup cloudId = some e → I s.disk →
    I (s.disk.erase e.path)
  removesFolder : ∀ p i, s.disk.get p = some i → i.isDir = true → I s.disk → I (s.disk.erase p)
  /-- The identity of a directory is taken away, or only its tag. -/
  detaches : ∀ p i j, s.disk.get p = some i → i.isDir = true → j.isDir = i.isDir →
    (j.id = i.id ∨ j.id = .absent) → I s.disk → I (s.disk.set p j)

/-- What survives every operation survives the change. -/
theorem Survives.step {I : Disk → Prop} (h : Survives ctx n s c I) (hs : I s.disk) :
    I (step ctx n s c).1.disk := by
  have hstepped := step_stepped ctx n s c
  generalize Delta.step ctx n s c = r at hstepped
  match hstepped with
  | .ignored => exact hs
  | .stopped _ => exact hs
  | .upserted _ (.refused hrefuses) => exact h.grows _ _ hrefuses.grows hs
  | .upserted _ (@FileUpserted.went _ _ _ _ _ _ _ abs s₁ s₂ habs _ hmove hfollowed hrefreshed) =>
    have hs₁ : I s₁.disk := by
      match hfollowed with
      | .stays _ => exact hs
      | .moved he hfollows _ _ => exact h.moves _ _ _ _ abs _ s₁ rfl habs hmove he hfollows hs
    match hrefreshed with
    | .current _ _ => exact hs₁
    | .kept _ _ hrefuses => exact h.grows _ _ hrefuses.grows hs₁
    | .refused hgrows _ _ _ _ _ => exact h.grows _ _ hgrows hs₁
    | .placed d st stamped hgrows _ hdisk _ _ _ _ hreplace =>
      rw [hdisk]
      exact h.places _ _ _ _ abs s₁ d _ rfl habs hmove hfollowed hreplace hgrows rfl rfl
        (h.grows _ _ hgrows hs₁)
  | @Stepped.folderUpserted _ _ _ cloudId path etag _ _ hup =>
    have hfollows : ∀ abs s₁, folderPath path = some abs →
        moveFolder ctx n s cloudId path abs = .ok s₁ →
        FolderFollowed s cloudId abs (.ok s₁) → I s₁.disk := by
      intro abs s₁ habs hmove hfollowed
      match hfollowed with
      | .stays _ => exact hs
      | .moved he hfollows _ _ =>
        exact h.movesFolder _ _ _ abs _ s₁ rfl habs hmove he hfollows hs
    match hup with
    | .refused hrefuses => exact h.grows _ _ hrefuses.grows hs
    | .broken _ hgrows _ _ _ _ => exact h.grows _ _ hgrows hs
    | .stopped habs hmove hfollowed hrefuses =>
      exact h.grows _ _ hrefuses.grows (hfollows _ _ habs hmove hfollowed)
    | @FolderUpserted.went _ _ _ _ _ abs s₁ s₂ s₃ habs hmove hfollowed hgrows hdir _ _ _ _
        hclaimed =>
      have hs₂ := h.grows _ _ hgrows (hfollows _ _ habs hmove hfollowed)
      have hclaim : ∀ i j, Marks s₂ s₃ abs i j → j.id = .text cloudId → I s₃.disk := by
        intro i j hmarks hid
        rw [hmarks.disk]
        exact h.claims cloudId path etag abs s₁ s₂.disk i j rfl habs hmove hfollowed hgrows
          hmarks.there (hdir i hmarks.there) hmarks.isDir hid hs₂
      match hclaimed with
      | .refused hrefuses => exact h.grows _ _ hrefuses.grows hs₂
      | .unfinished hmarks hid _ _ _ => exact hclaim _ _ hmarks hid
      | .claimed hmarks hid _ _ _ => exact hclaim _ _ hmarks hid
  | .removed _ (.absent _) => exact hs
  | .removed _ (.kept hrefuses) => exact h.grows _ _ hrefuses.grows hs
  | .removed _ (.refused _ _ _ _ hdisk _ _ _ _) => exact hdisk ▸ hs
  | .removed _ (.gone he _ _ _ _ hdisk _ _ _ _) => exact hdisk ▸ h.removes _ _ rfl he hs
  | .folderRemoved _ (.idle hdisk _ _ _ _) => exact hdisk ▸ hs
  | .folderRemoved _ (.marked _ hmarks hdir hid _ _) =>
    rw [hmarks.disk]
    exact h.detaches _ _ _ hmarks.there hdir hmarks.isDir hid hs
  | .folderRemoved _ (.gone _ hi hdir _ hdisk _ _ _ _) =>
    exact hdisk ▸ h.removesFolder _ _ hi hdir hs

/-! ## Objects that stray from the maps -/

/-- No two files carry one cloud id, and no two directories claim one folder. -/
structure Distinct (d : Disk) : Prop where
  files : ∀ cloudId p q, Carries d cloudId p → Carries d cloudId q → p = q
  folders : ∀ cloudId p q, Claims d cloudId p → Claims d cloudId q → p = q

/-- The change puts a placeholder of an object that has a file neither there nor where the map has
the object, or gives a directory the identity of a folder that has a directory neither there nor
where the map has the folder. -/
def Strays (ctx : Ctx) (n : ℕ) (s : Pass) : Change → Prop
  | .upserted cloudId path size etag => ∃ abs t p, safeJoin path = some abs
      ∧ moveFile ctx n s cloudId path abs = .ok t
      ∧ (∀ i, t.disk.get abs = some i → Replaceable ctx i cloudId size etag)
      ∧ Carries s.disk cloudId p ∧ p ≠ abs ∧ ∀ e, s.files.lookup cloudId = some e → e.path ≠ p
  | .folderUpserted cloudId path _ => ∃ abs t p, folderPath path = some abs
      ∧ moveFolder ctx n s cloudId path abs = .ok t
      ∧ Claims s.disk cloudId p ∧ p ≠ abs ∧ s.folders.lookup cloudId ≠ some p
  | .removed _ | .folderRemoved .. => False

theorem not_carries_newDir {cloudId : String} (st : Stat) :
    ¬ ((newDir st).isDir = false ∧ (newDir st).id = .text cloudId) := fun h ↦ Bool.noConfusion h.1

theorem not_claims_newDir {cloudId : String} (st : Stat) :
    ¬ ((newDir st).isDir = true ∧ (newDir st).id = .text cloudId) := fun h ↦ Attr.noConfusion h.2

theorem Distinct.grows {d' : Disk} (h : Distinct d) (hgrows : Grows d d') : Distinct d' :=
  ⟨fun cloudId ↦ (unique_congr fun _ ↦ hgrows.holds not_carries_newDir).mpr (h.files cloudId),
    fun cloudId ↦ (unique_congr fun _ ↦ hgrows.holds not_claims_newDir).mpr (h.folders cloudId)⟩

theorem Distinct.erase {p : RelPath} (h : Distinct d) : Distinct (d.erase p) :=
  ⟨fun cloudId ↦ Unique.erase (h.files cloudId), fun cloudId ↦ Unique.erase (h.folders cloudId)⟩

theorem Distinct.follows {src dst : RelPath} {s₁ : Pass} (h : Distinct s.disk)
    (hfollows : Follows s s₁ src dst) : Distinct s₁.disk := by
  obtain ⟨d, hgrows, hdisk⟩ := hfollows.disk
  have hd := h.grows hgrows
  rw [hdisk]
  exact ⟨fun cloudId ↦ Unique.move (hd.files cloudId), fun cloudId ↦ Unique.move (hd.folders cloudId)⟩

/-- What is at a path once something has been followed to it was there, or where it was sought. -/
theorem followed_holds {P : Inode → Prop} {src abs p : RelPath} {s₁ : Pass}
    (hP : ∀ st, ¬ P (newDir st)) (hfollows : Follows s s₁ src abs)
    (hknown : ∀ q, s.disk.Holds P q → q = abs ∨ q = src) (hp : s₁.disk.Holds P p) : p = abs := by
  rcases (hfollows.holds hP).mp hp with ⟨r, rfl, hr⟩ | ⟨-, hnot, hp⟩
  · rcases hknown _ hr with heq | heq
    · exact absurd ⟨r, heq⟩ hfollows.apart
    · rw [List.append_right_eq_self.mp heq, List.append_nil]
  · refine (hknown p hp).resolve_right fun heq ↦ hnot ?_
    rw [heq]

theorem FileFollowed.carries {cloudId : String} {abs p : RelPath} {s₁ : Pass}
    (h : FileFollowed s cloudId abs (.ok s₁))
    (hknown : ∀ q, Carries s.disk cloudId q → q = abs ∨ ∃ e, s.files.lookup cloudId = some e
      ∧ e.path = q) (hp : Carries s₁.disk cloudId p) : p = abs := by
  match h with
  | .stays hstays =>
    rcases hknown p hp with heq | ⟨e, he, rfl⟩
    · exact heq
    · obtain ⟨i, hi, -⟩ := hp
      exact (hstays e he).resolve_right fun hnone ↦ Option.some_ne_none i (hi.symm.trans hnone)
  | .moved he hfollows _ _ =>
    refine followed_holds not_carries_newDir hfollows (fun q hq ↦ ?_) hp
    rcases hknown q hq with heq | ⟨e', he', rfl⟩
    · exact Or.inl heq
    · cases he.symm.trans he'
      exact Or.inr rfl

theorem FolderFollowed.claims {cloudId : String} {abs p : RelPath} {s₁ : Pass}
    (h : FolderFollowed s cloudId abs (.ok s₁))
    (hknown : ∀ q, Claims s.disk cloudId q → q = abs ∨ s.folders.lookup cloudId = some q)
    (hp : Claims s₁.disk cloudId p) : p = abs := by
  match h with
  | .stays hstays =>
    rcases hknown p hp with heq | he
    · exact heq
    · obtain ⟨i, hi, -⟩ := hp
      exact (hstays p he).resolve_right fun hnone ↦ Option.some_ne_none i (hi.symm.trans hnone)
  | .moved he hfollows _ _ =>
    refine followed_holds not_claims_newDir hfollows (fun q hq ↦ ?_) hp
    exact (hknown q hq).imp_right fun he' ↦ Option.some_inj.mp (he'.symm.trans he)

/-- A change keeps files and directories distinct, unless an object has strayed. -/
theorem distinct_survives (hstays : ¬ Strays ctx n s c) : Survives ctx n s c Distinct where
  grows _ _ hgrows h := h.grows hgrows
  moves _ _ _ _ _ _ _ _ _ _ _ hfollows h := h.follows hfollows
  movesFolder _ _ _ _ _ _ _ _ _ _ hfollows h := h.follows hfollows
  removes _ _ _ _ h := h.erase
  removesFolder _ _ _ _ h := h.erase
  places := by
    rintro cloudId path size etag abs s₁ d i rfl habs hmove hfollowed hreplace hgrows hfile hid h
    refine ⟨fun cloudId' ↦ Unique.set (h.files cloudId') fun hi p hp ↦ ?_,
      fun cloudId' ↦ Unique.set (h.folders cloudId') fun hi ↦ ?_⟩
    · cases hid.symm.trans hi.2
      refine hfollowed.carries (fun q hq ↦ ?_) ((hgrows.holds not_carries_newDir).mp hp)
      by_contra hnot
      obtain ⟨hne, hstray⟩ := not_or.mp hnot
      exact hstays ⟨abs, s₁, q, habs, hmove, hreplace, hq, hne, fun e he heq ↦ hstray ⟨e, he, heq⟩⟩
    · exact absurd (hfile.symm.trans hi.1) Bool.false_ne_true
  claims := by
    rintro cloudId path etag abs s₁ d i j rfl habs hmove hfollowed hgrows - hdir hj hid h
    refine ⟨fun cloudId' ↦ Unique.set (h.files cloudId') fun hi ↦ ?_,
      fun cloudId' ↦ Unique.set (h.folders cloudId') fun hi p hp ↦ ?_⟩
    · exact absurd (hi.1.symm.trans (hj.trans hdir)) Bool.false_ne_true
    · cases hid.symm.trans hi.2
      refine hfollowed.claims (fun q hq ↦ ?_) (hgrows.claims.mp hp)
      by_contra hnot
      obtain ⟨hne, hstray⟩ := not_or.mp hnot
      exact hstays ⟨abs, s₁, q, habs, hmove, hq, hne, hstray⟩
  detaches := by
    intro p i j hi hdir hj hid h
    refine ⟨fun cloudId ↦ Unique.set (h.files cloudId) fun hj' ↦ ?_,
      fun cloudId ↦ Unique.set (h.folders cloudId) fun hj' q hq ↦ ?_⟩
    · exact absurd (hj'.1.symm.trans (hj.trans hdir)) Bool.false_ne_true
    · refine h.folders cloudId q p hq ⟨i, hi, hdir, ?_⟩
      rcases hid with hid | hid
      · exact hid.symm.trans hj'.2
      · exact Attr.noConfusion (hid.symm.trans hj'.2)

/-! ## The index of the folders -/

/-- A directory whose identity cannot be read, or is not a text. -/
def Illegible (i : Inode) : Prop :=
  i.isDir = true ∧ i.id ≠ .absent ∧ ∀ id, i.id ≠ .text id

/-- Every directory has an identity that can be read, or none. -/
def Legible (d : Disk) : Prop := ∀ p, ¬ d.Holds Illegible p

theorem not_illegible_newDir (st : Stat) : ¬ Illegible (newDir st) := fun h ↦ h.2.1 rfl

theorem Legible.set {p : RelPath} {i : Inode} (h : Legible d) (hi : ¬ Illegible i) :
    Legible (d.set p i) := by
  intro q hq
  rcases holds_set.mp hq with ⟨-, hi'⟩ | ⟨-, hq⟩
  · exact hi hi'
  · exact h q hq

theorem Legible.follows {src dst : RelPath} {s₁ : Pass} (h : Legible s.disk)
    (hfollows : Follows s s₁ src dst) : Legible s₁.disk := by
  intro p hp
  rcases (hfollows.holds not_illegible_newDir).mp hp with ⟨r, -, hr⟩ | ⟨-, -, hp⟩
  · exact h _ hr
  · exact h p hp

theorem legible_survives : Survives ctx n s c Legible where
  grows _ _ hgrows h p := fun hp ↦ h p ((hgrows.holds not_illegible_newDir).mp hp)
  moves _ _ _ _ _ _ _ _ _ _ _ hfollows h := h.follows hfollows
  movesFolder _ _ _ _ _ _ _ _ _ _ hfollows h := h.follows hfollows
  removes _ _ _ _ h p := fun hp ↦ h p (holds_erase.mp hp).2
  removesFolder _ _ _ _ h p := fun hp ↦ h p (holds_erase.mp hp).2
  places _ _ _ _ _ _ _ i _ _ _ _ _ _ hfile _ h :=
    h.set fun hi ↦ Bool.false_ne_true (hfile.symm.trans hi.1)
  claims _ _ _ _ _ _ _ j _ _ _ _ _ _ _ _ hid h := h.set fun hj ↦ hj.2.2 _ hid
  detaches p i j hi hdir hj hid h := by
    refine h.set fun hj' ↦ ?_
    rcases hid with hid | hid
    · exact h p ⟨i, hi, hdir, hid ▸ hj'.2⟩
    · exact hj'.2.1 hid

/-- What is indexed is claimed by a directory that has been met. -/
structure Indexed (ignore : IgnoreSet) (d : Disk) (met : List RelPath) (index : FolderIndex) :
    Prop where
  synced : ∀ id p, index.synced.lookup id = some p →
    p ∈ met ∧ Claims d id p ∧ ¬ (p ≠ [] ∧ ignore.ignores p)
  ignored : ∀ id ∈ index.ignored, ∃ p, Claims d id p ∧ p ≠ [] ∧ ignore.ignores p

/-- A directory that has not been met can be taken up. -/
theorem Indexed.add {ignore : IgnoreSet} {met : List RelPath} {index : FolderIndex} {p : RelPath}
    (h : Indexed ignore d met index) (hdistinct : Distinct d) (hlegible : Legible d)
    (hnew : p ∉ met) : ∃ index', addFolder ignore d index p = .ok index'
      ∧ Indexed ignore d (p :: met) index' := by
  have hkept : Indexed ignore d (p :: met) index :=
    ⟨fun id q hq ↦ ⟨List.mem_cons_of_mem p (h.synced id q hq).1, (h.synced id q hq).2⟩, h.ignored⟩
  unfold addFolder
  split
  · exact ⟨index, rfl, hkept⟩
  · rename_i i hi
    split
    · exact ⟨index, rfl, hkept⟩
    · rename_i hdir
      have hdir : i.isDir = true := by simpa using hdir
      split
      · rename_i e hid
        exact absurd ⟨i, hi, hdir, fun h ↦ Attr.noConfusion (hid.symm.trans h),
          fun _ h ↦ Attr.noConfusion (hid.symm.trans h)⟩ (hlegible p)
      · rename_i b hid
        exact absurd ⟨i, hi, hdir, fun h ↦ Attr.noConfusion (hid.symm.trans h),
          fun _ h ↦ Attr.noConfusion (hid.symm.trans h)⟩ (hlegible p)
      · exact ⟨index, rfl, hkept⟩
      · rename_i id hid
        have hclaims : Claims d id p := ⟨i, hi, hdir, hid⟩
        split
        · exact ⟨index, rfl, hkept⟩
        · split
          · rename_i hignored
            refine ⟨_, rfl, hkept.synced, fun id' hid' ↦ ?_⟩
            rcases List.mem_cons.mp hid' with rfl | hid'
            · exact ⟨p, hclaims, hignored⟩
            · exact h.ignored id' hid'
          · rename_i hsynced
            split
            · rename_i hsome
              obtain ⟨q, hq⟩ := Option.isSome_iff_exists.mp hsome
              obtain ⟨hmet, hclaims', -⟩ := h.synced id q hq
              exact absurd (hdistinct.folders id q p hclaims' hclaims ▸ hmet) hnew
            · refine ⟨_, rfl, fun id' q hq ↦ ?_, h.ignored⟩
              by_cases heq : id' = id
              · subst heq
                rw [AList.lookup_insert] at hq
                cases hq
                exact ⟨List.mem_cons_self, hclaims, hsynced⟩
              · rw [AList.lookup_insert_ne heq] at hq
                exact hkept.synced id' q hq

theorem Indexed.foldlM {ignore : IgnoreSet} {met ps : List RelPath} {index : FolderIndex}
    (h : Indexed ignore d met index) (hdistinct : Distinct d) (hlegible : Legible d)
    (hnodup : ps.Nodup) (hnew : ∀ p ∈ ps, p ∉ met) :
    ∃ index' met', ps.foldlM (addFolder ignore d) index = .ok index'
      ∧ Indexed ignore d met' index' := by
  induction ps generalizing met index with
  | nil => exact ⟨index, met, rfl, h⟩
  | cons p ps ih =>
    obtain ⟨hp, hnodup⟩ := List.nodup_cons.mp hnodup
    obtain ⟨index', hadd, h'⟩ := h.add hdistinct hlegible (hnew p List.mem_cons_self)
    rw [List.foldlM_cons, hadd]
    refine ih h' hnodup fun q hq hmet ↦ ?_
    rcases List.mem_cons.mp hmet with rfl | hmet
    · exact hp hq
    · exact hnew q (List.mem_cons_of_mem p hq) hmet

/-- **The index can be built** of directories that are distinct and can be read. -/
theorem exists_foldersByCloudId (ignore : IgnoreSet) (hdistinct : Distinct d)
    (hlegible : Legible d) : ∃ index, foldersByCloudId ignore d = .ok index := by
  have hempty : Indexed ignore d [] ⟨∅, []⟩ :=
    ⟨fun _ _ h ↦ absurd h.symm (Option.some_ne_none _), fun _ h ↦ absurd h List.not_mem_nil⟩
  obtain ⟨index, met, hindex, h⟩ := hempty.foldlM hdistinct hlegible (List.nodup_dedup d.paths)
    fun _ _ ↦ List.not_mem_nil
  rw [foldersByCloudId, hindex]
  dsimp only
  split
  · rename_i id hfind
    obtain ⟨hkey, hignored⟩ : id ∈ index.synced.keys ∧ id ∈ index.ignored :=
      ⟨List.mem_of_find?_eq_some hfind, by simpa using List.find?_some hfind⟩
    obtain ⟨p, hp⟩ := Option.isSome_iff_exists.mp (AList.lookup_isSome.mpr hkey)
    obtain ⟨-, hclaims, hsynced⟩ := h.synced id p hp
    obtain ⟨q, hclaims', hq⟩ := h.ignored id hignored
    exact absurd (hdistinct.folders id p q hclaims hclaims' ▸ hq) hsynced
  · exact ⟨index, rfl⟩

/-- What is taken up is legible. -/
theorem not_illegible_of_addFolder {ignore : IgnoreSet} {index index' : FolderIndex} {p : RelPath}
    (h : addFolder ignore d index p = .ok index') : ¬ d.Holds Illegible p := by
  rintro ⟨i, hi, hdir, habsent, htext⟩
  rw [addFolder, hi] at h
  dsimp only at h
  rw [if_neg (not_not.mpr hdir)] at h
  match hid : i.id with
  | .absent => exact habsent hid
  | .text id => exact htext id hid
  | .binary b => rw [hid] at h; cases h
  | .unreadable e => rw [hid] at h; cases h

theorem exists_addFolder {ignore : IgnoreSet} {ps : List RelPath} {index index' : FolderIndex}
    {p : RelPath} (h : ps.foldlM (addFolder ignore d) index = .ok index') (hp : p ∈ ps) :
    ∃ a b, addFolder ignore d a p = .ok b := by
  induction ps generalizing index with
  | nil => exact absurd hp List.not_mem_nil
  | cons q ps ih =>
    rw [List.foldlM_cons] at h
    match hadd : addFolder ignore d index q with
    | .error e => rw [hadd] at h; cases h
    | .ok b =>
      rw [hadd] at h
      rcases List.mem_cons.mp hp with rfl | hp
      · exact ⟨index, b, hadd⟩
      · exact ih h hp

/-- Every directory is legible if the index could be built. -/
theorem legible_of_foldersByCloudId {ignore : IgnoreSet} {index : FolderIndex}
    (h : foldersByCloudId ignore d = .ok index) : Legible d := by
  intro p hp
  have hmem : p ∈ d.paths.dedup := by
    obtain ⟨i, hi, -⟩ := hp
    exact List.mem_dedup.mpr (mem_paths.mpr ⟨i, hi⟩)
  rw [foldersByCloudId] at h
  match hfold : d.paths.dedup.foldlM (addFolder ignore d) ⟨∅, []⟩ with
  | .error e => rw [hfold] at h; cases h
  | .ok index' =>
    obtain ⟨a, b, hadd⟩ := exists_addFolder hfold hmem
    exact not_illegible_of_addFolder hadd hp

/-! ## Whole passes -/

/-- What survives every change of a pass survives the pass. -/
theorem survives_pass {I : Disk → Prop} (hd : I d)
    (h : ∀ ctx s, Begins setting store d changes seen ctx s → ∀ m t c cs',
      During ctx 0 (coalesce changes) s m t c cs' → Survives ctx m t c I) :
    I (applyRemembering setting store d changes seen).1.disk := by
  rcases applyRemembering_cases setting store d changes seen with ⟨hdisk, -⟩ | ⟨ctx, s, hbegins⟩
  · rwa [hdisk]
  · have hs : I s.disk := by
      obtain ⟨-, -, -, -, -, -, rfl⟩ := hbegins
      exact hd
    rw [hbegins.pass]
    obtain ⟨-, hkept, -⟩ := run_induction (P := fun _ t ↦ I t.disk)
      (fun m t c cs' hduring ht ↦ (h ctx s hbegins m t c cs' hduring).step ht) hs
    exact hkept

/-- **A pass leaves one file to an id and one directory to a folder**, and the next can build its
index if this one could, as long as no change is to an object that has strayed. -/
theorem distinct_pass (hd : Distinct d)
    (hstays : ∀ ctx s, Begins setting store d changes seen ctx s → ∀ m t c cs',
      During ctx 0 (coalesce changes) s m t c cs' → ¬ Strays ctx m t c) :
    Distinct (applyRemembering setting store d changes seen).1.disk
      ∧ ((∃ index, foldersByCloudId setting.config.ignore d = .ok index) → ∀ ignore, ∃ index,
        foldersByCloudId ignore (applyRemembering setting store d changes seen).1.disk
          = .ok index) := by
  have hdistinct : Distinct (applyRemembering setting store d changes seen).1.disk :=
    survives_pass hd fun ctx s hbegins m t c cs' hduring ↦
      distinct_survives (hstays ctx s hbegins m t c cs' hduring)
  refine ⟨hdistinct, fun ⟨index, hindex⟩ ignore ↦ exists_foldersByCloudId ignore hdistinct ?_⟩
  exact survives_pass (legible_of_foldersByCloudId hindex) fun _ _ _ _ _ _ _ _ ↦ legible_survives

/-! ### A file that its folder took along -/

/-- A folder with a file in it. -/
def nestedDisk : Disk :=
  ⟨[([], sampleRoot), (["f"], { sampleRoot with id := .text "F" }),
    (["f", "x"], sentFile (.text "X"))]⟩

theorem nested_carries {cloudId : String} {p : RelPath} (h : Carries nestedDisk cloudId p) :
    p = ["f", "x"] := by
  obtain ⟨i, hi, hfile, -⟩ := h
  have hmem : p ∈ [[], ["f"], ["f", "x"]] := mem_paths.mpr ⟨i, hi⟩
  simp only [List.mem_cons, List.not_mem_nil, or_false] at hmem
  rcases hmem with rfl | rfl | rfl
  · cases hi
    cases hfile
  · cases hi
    cases hfile
  · rfl

theorem nested_claims {cloudId : String} {p : RelPath} (h : Claims nestedDisk cloudId p) :
    p = ["f"] := by
  obtain ⟨i, hi, hdir, hid⟩ := h
  have hmem : p ∈ [[], ["f"], ["f", "x"]] := mem_paths.mpr ⟨i, hi⟩
  simp only [List.mem_cons, List.not_mem_nil, or_false] at hmem
  rcases hmem with rfl | rfl | rfl
  · cases hi
    cases hid
  · rfl
  · cases hi
    cases hdir

theorem nested_distinct : Distinct nestedDisk :=
  ⟨fun _ _ _ hp hq ↦ (nested_carries hp).trans (nested_carries hq).symm,
    fun _ _ _ hp hq ↦ (nested_claims hp).trans (nested_claims hq).symm⟩

/-- The maps that are made of the directory. -/
def nestedPass : Pass :=
  ⟨nestedDisk, AList.insert "X" ⟨["f", "x"], some "X", some "v1", 3⟩ ∅, AList.insert "F" ["f"] ∅,
    scanned (sampleSetting ⟨[]⟩) sampleStore nestedDisk, Applied.default, []⟩

theorem nested_begins {changes : List Change} (h : changes ≠ []) :
    Begins (sampleSetting ⟨[]⟩) sampleStore nestedDisk changes none sampleCtx nestedPass :=
  ⟨h, rfl, fun h ↦ Option.some_ne_none _ h.symm, ⟨AList.insert "F" ["f"] ∅, []⟩, rfl, rfl, rfl⟩

/-- The directory once the folder has been renamed. -/
theorem renamed_carries {cloudId : String} {p : RelPath} (h : Carries (step sampleCtx 0 nestedPass
    (.folderUpserted "F" "g" none)).1.disk cloudId p) : p = ["g", "x"] := by
  obtain ⟨i, hi, hfile, -⟩ := h
  have hmem : p ∈ [["g"], [], ["g"], ["g", "x"]] := mem_paths.mpr ⟨i, hi⟩
  simp only [List.mem_cons, List.not_mem_nil, or_false] at hmem
  rcases hmem with rfl | rfl | rfl | rfl
  · cases hi
    cases hfile
  · cases hi
    cases hfile
  · cases hi
    cases hfile
  · rfl

/-- No object strays if the file stays in its folder, and is brought up to date there. -/
theorem nested_distinct_pass : Distinct (applyRemembering (sampleSetting ⟨[]⟩) sampleStore
      nestedDisk [.folderUpserted "F" "g" none, .upserted "X" "g/x" 4 (some "v2")] none).1.disk
    ∧ ((∃ index, foldersByCloudId ⟨[".git"], []⟩ nestedDisk = .ok index) → ∀ ignore, ∃ index,
      foldersByCloudId ignore (applyRemembering (sampleSetting ⟨[]⟩) sampleStore nestedDisk
        [.folderUpserted "F" "g" none, .upserted "X" "g/x" 4 (some "v2")] none).1.disk
        = .ok index) := by
  refine distinct_pass nested_distinct fun ctx s hbegins m t c cs' hduring ↦ ?_
  obtain ⟨rfl, rfl⟩ := (nested_begins (List.cons_ne_nil _ _)).unique hbegins
  have hchanges : coalesce [.folderUpserted "F" "g" none, .upserted "X" "g/x" 4 (some "v2")]
    = [.folderUpserted "F" "g" none, .upserted "X" "g/x" 4 (some "v2")] := rfl
  rw [hchanges] at hduring
  rcases hduring with _ | ⟨-, _ | ⟨-, _ | _⟩⟩
  · rintro ⟨abs, t, p, -, -, hclaims, -, hstray⟩
    rw [nested_claims hclaims] at hstray
    exact hstray rfl
  · rintro ⟨abs, t, p, habs, -, -, hcarries, hne, -⟩
    cases habs
    exact hne (renamed_carries hcarries)

/-- The folder is renamed and the file moved out of it; the map still has the file below the old
name, and a second file of the object is made. -/
theorem nested_doubled : Distinct nestedDisk ∧ ¬ Distinct (applyRemembering (sampleSetting ⟨[]⟩)
    sampleStore nestedDisk [.folderUpserted "F" "g" none, .upserted "X" "h" 3 (some "v1")]
    none).1.disk := by
  refine ⟨nested_distinct, fun h ↦ ?_⟩
  have hcarries : ∀ p, p = ["h"] ∨ p = ["g", "x"] → Carries (applyRemembering (sampleSetting ⟨[]⟩)
      sampleStore nestedDisk [.folderUpserted "F" "g" none, .upserted "X" "h" 3 (some "v1")]
      none).1.disk "X" p := by
    rintro p (rfl | rfl)
    · exact ⟨_, rfl, rfl, rfl⟩
    · exact ⟨_, rfl, rfl, rfl⟩
  have heq := h.files "X" ["h"] ["g", "x"] (hcarries _ (Or.inl rfl)) (hcarries _ (Or.inr rfl))
  exact absurd heq (by decide)

end HydrationAPI.Client.Delta
