import HydrationAPI.Client.Effect
import HydrationAPI.Client.Mirror

/-!
# Passes that are skipped

A pass that did nothing is remembered by a fingerprint of its batch and of the tree, and a pass that
finds the same fingerprint again is skipped. The fingerprint takes in, of every file that is synced,
its path, its size and what is recorded on it. A full pass reads more than that: the directories and
what they claim to be, which files wait to be sent, the stamps, and files that are not synced.

A pass that is skipped would have done nothing if and only if none of its changes would, up to one
that ends the pass.
-/

namespace HydrationAPI.Client.Delta

open PathMap

variable {d d' : Disk} {p q abs : RelPath} {i : Inode} {cloudId path : String} {n size : ℕ}
  {etag : Option String} {ctx : Ctx} {s t : Pass}

/-! ## A run -/

/-- No change would do anything, up to one that ends the pass; `skip` are changes that need not be
looked at. -/
def Idle (ctx : Ctx) (s : Pass) (skip : Change → Prop) : List Change → Prop
  | [] => True
  | c :: cs => (skip c ∨ ¬ Acts ctx s c) ∧ (Ends ctx s c ∨ Idle ctx s skip cs)

/-- Every directory that claims to be a folder is known, or the folder is not synced. -/
def Complete (ignored : List String) (s : Pass) : Prop :=
  ∀ id p, id ≠ "" → Claims s.disk id p → s.folders.lookup id = some p ∨ id ∈ ignored

/-- Nothing has been done in a pass that began as `s`. -/
structure Unmoved (ignored : List String) (s t : Pass) (cs : List Change) : Prop where
  disk : t.disk.get = s.disk.get
  files : t.files = s.files
  upserts : ∀ id path etag, .folderUpserted id path etag ∈ cs →
    t.folders.lookup id = s.folders.lookup id
  removals : ∀ id path, .folderRemoved id path ∈ cs →
    t.folders.lookup id = s.folders.lookup id ∨ id ∈ ignored
  known : ∀ id p, t.folders.lookup id = some p → Claims s.disk id p

variable {c : Change} {cs : List Change} {ignored : List String} {skip : Change → Prop}

theorem Rooted.congr (h : Rooted d) (heq : d'.get = d.get) : Rooted d' := by
  have hdir : ∀ p, d'.isDirAt p = d.isDirAt p := fun p ↦ by rw [Disk.isDirAt, Disk.isDirAt, heq]
  refine ⟨(hdir []).trans h.root, fun p i hi q hq hne ↦ (hdir q).trans ?_⟩
  exact h.above p i (congrFun heq p ▸ hi) q hq hne

theorem fileAt_congr (heq : d'.get = d.get) : d'.fileAt = d.fileAt :=
  funext fun p ↦ by rw [Disk.fileAt, Disk.fileAt, heq]

theorem blocked_congr (heq : d'.get = d.get) : blocked d' = blocked d :=
  funext fun p ↦ by rw [blocked, blocked, fileAt_congr heq]

theorem Unmoved.known' (h : Unmoved ignored s t cs) (hknown : Known s) : Known t := by
  refine ⟨fun id e he ↦ ?_, fun id p hp ↦ ?_⟩
  · rw [fileAt_congr h.disk]
    exact hknown.files id e (h.files ▸ he)
  · obtain ⟨i, hi, hclaims⟩ := h.known id p hp
    exact ⟨i, (congrFun h.disk p).trans hi, hclaims⟩

/-- What a change would do is what it would have done when the pass began. -/
theorem Unmoved.acts_iff (h : Unmoved ctx.ignoredFolders s t (c :: cs)) :
    Acts ctx t c ↔ Acts ctx s c := by
  have hfile := fileAt_congr h.disk
  have hblocked := blocked_congr h.disk
  match c with
  | .upserted cloudId path size etag =>
    simp only [Acts, Open, AtMost, h.disk, h.files, hfile, hblocked]
  | .removed cloudId => simp only [Acts, h.files, hfile]
  | .folderUpserted cloudId path etag =>
    have hlookup := h.upserts cloudId path etag List.mem_cons_self
    simp only [Acts, Open, AtMost, Disk.exists', Disk.isDirAt, h.disk, hblocked, hlookup]
  | .folderRemoved cloudId path =>
    refine and_congr_right fun _ ↦ and_congr_right fun hid ↦ ?_
    rw [(h.removals cloudId path List.mem_cons_self).resolve_right hid]

theorem Unmoved.ends_iff (h : Unmoved ignored s t (c :: cs)) : Ends ctx t c ↔ Ends ctx s c := by
  match c with
  | .upserted .. | .removed _ | .folderRemoved .. => exact Iff.rfl
  | .folderUpserted cloudId path etag =>
    have hlookup := h.upserts cloudId path etag List.mem_cons_self
    simp only [Ends, Disk.exists', h.disk, blocked_congr h.disk, hlookup]

/-- One change that would do nothing. -/
theorem unmoved_step (h : Unmoved ctx.ignoredFolders s t (c :: cs)) (hd : Rooted s.disk)
    (hcomplete : Complete ctx.ignoredFolders s) (hid : c.id ≠ "")
    (hnew : ∀ c' ∈ cs, ¬ Change.Same c c') (hidle : ¬ Acts ctx s c) :
    Unmoved ctx.ignoredFolders s (step ctx n t c).1 cs := by
  have hpassed := step_passed (n := n) (hd.congr h.disk) (h.acts_iff.not.mpr hidle)
  have hdisk : (step ctx n t c).1.disk.get = s.disk.get := (funext hpassed.disk).trans h.disk
  have hfiles := hpassed.files.trans h.files
  rcases hpassed.folders with hfolders | ⟨id, path, etag, abs, rfl, hinsert, i, hi, hclaims⟩
  · refine ⟨hdisk, hfiles, ?_, ?_, ?_⟩
    · rw [hfolders]
      exact fun id path etag hmem ↦ h.upserts id path etag (List.mem_cons_of_mem c hmem)
    · rw [hfolders]
      exact fun id path hmem ↦ h.removals id path (List.mem_cons_of_mem c hmem)
    · rw [hfolders]
      exact h.known
  · have hclaims' : Claims s.disk id abs := ⟨i, (congrFun h.disk abs).symm.trans hi, hclaims⟩
    refine ⟨hdisk, hfiles, fun id' path' etag' hmem ↦ ?_, fun id' path' hmem ↦ ?_,
      fun id' p hp ↦ ?_⟩
    · have hne : id' ≠ id := fun heq ↦ hnew _ hmem ⟨heq.symm, rfl⟩
      rw [hinsert, AList.lookup_insert_ne hne]
      exact h.upserts id' path' etag' (List.mem_cons_of_mem _ hmem)
    · rw [hinsert]
      by_cases heq : id' = id
      · subst heq
        rw [AList.lookup_insert]
        exact (hcomplete id' abs hid hclaims').imp_left Eq.symm
      · rw [AList.lookup_insert_ne heq]
        exact h.removals id' path' (List.mem_cons_of_mem _ hmem)
    · rw [hinsert] at hp
      by_cases heq : id' = id
      · subst heq
        rw [AList.lookup_insert] at hp
        exact Option.some_inj.mp hp ▸ hclaims'
      · rw [AList.lookup_insert_ne heq] at hp
        exact h.known id' p hp

/-- **A run over changes that would do nothing does nothing**, by induction on the changes. -/
theorem run_idle (h : Unmoved ctx.ignoredFolders s t cs) (hd : Rooted s.disk)
    (hcomplete : Complete ctx.ignoredFolders s) (hids : ∀ c ∈ cs, c.id ≠ "")
    (hnew : cs.Pairwise fun a b ↦ ¬ Change.Same a b) (hskip : ∀ c, skip c → ¬ Acts ctx s c)
    (hidle : Idle ctx s skip cs) : (run ctx n cs t).1.disk.get = s.disk.get := by
  induction cs generalizing n t with
  | nil => exact h.disk
  | cons c cs ih =>
    obtain ⟨hc, hids⟩ := List.forall_mem_cons.mp hids
    obtain ⟨hsame, hnew⟩ := List.pairwise_cons.mp hnew
    have hacts : ¬ Acts ctx s c := hidle.1.elim (hskip c) id
    have hstep := unmoved_step (n := n) h hd hcomplete hc hsame hacts
    have hends : Ends ctx t c → (step ctx n t c).2 ≠ .next := step_ends (hd.congr h.disk)
    rw [run]
    rcases hr : step ctx n t c with ⟨u, flow⟩
    rw [hr] at hstep hends
    cases flow with
    | next =>
      refine ih hstep hids hnew (hidle.2.resolve_left fun hends' ↦ ?_)
      exact hends (h.ends_iff.mpr hends') rfl
    | stop => exact hstep.disk
    | error e => exact hstep.disk

/-- Everything succeeds up to a change, and then the root is no longer the mount it was. -/
def willingOs (last : ℕ) : Os where
  current n := .ok (n ≤ last)
  mkdir _ _ := .ok ⟨⟨0, 0⟩, 0, 0, 0⟩
  rename _ := none
  place _ := .ok (⟨⟨0, 0⟩, 0, 0, 0⟩, true)
  remove _ := none
  rmdir _ := none
  setId _ := none
  setEtag _ := none
  removeId _ := none

theorem willing_willingOs {last : ℕ} (h : n ≤ last) : Willing (willingOs last) n :=
  ⟨congrArg Except.ok (decide_eq_true h), fun _ ↦ ⟨_, rfl⟩, rfl, ⟨_, _, rfl⟩, rfl, rfl, rfl, rfl,
    rfl⟩

/-- Once the root is no longer the mount it was, nothing is done. -/
theorem run_stopped (h : ctx.os.current n = .ok false) : (run ctx n cs t).1.disk = t.disk := by
  match cs with
  | [] => rfl
  | c :: cs =>
    rw [run, step, h]
    rfl

theorem replaceable_os {os : Os} : Replaceable { ctx with os := os } i cloudId size etag
    ↔ Replaceable ctx i cloudId size etag :=
  ⟨fun h ↦ ⟨h.news, h.waits, h.known, h.stamp⟩, fun h ↦ ⟨h.news, h.waits, h.known, h.stamp⟩⟩

/-- What a change would do is not for the calls to say. -/
theorem acts_os {os : Os} : Acts { ctx with os := os } s c ↔ Acts ctx s c := by
  match c with
  | .upserted cloudId path size etag => simp only [Acts, replaceable_os]
  | .removed _ | .folderUpserted .. | .folderRemoved .. => exact Iff.rfl

theorem ends_os {os : Os} : Ends { ctx with os := os } s c ↔ Ends ctx s c := by
  match c with
  | .upserted .. | .removed _ | .folderUpserted .. | .folderRemoved .. => exact Iff.rfl

theorem idle_os {os : Os} : Idle { ctx with os := os } s skip cs ↔ Idle ctx s skip cs := by
  induction cs with
  | nil => exact Iff.rfl
  | cons c cs ih => rw [Idle, Idle, acts_os, ends_os, ih]

/-- If a run would do something, there is a first change that would. -/
theorem exists_acts (h : ¬ Idle ctx s skip cs) : ∃ before c after, cs = before ++ c :: after
    ∧ (∀ b ∈ before, ¬ Acts ctx s b ∧ ¬ Ends ctx s b) ∧ Acts ctx s c := by
  induction cs with
  | nil => exact absurd trivial h
  | cons c cs ih =>
    by_cases hacts : Acts ctx s c
    · exact ⟨[], c, cs, rfl, fun b hb ↦ absurd hb List.not_mem_nil, hacts⟩
    · obtain ⟨hends, hrest⟩ := not_or.mp fun hor ↦ h ⟨Or.inr hacts, hor⟩
      obtain ⟨before, c', after, rfl, hbefore, hacts'⟩ := ih hrest
      exact ⟨c :: before, c', after, rfl,
        List.forall_mem_cons.mpr ⟨⟨hacts, hends⟩, hbefore⟩, hacts'⟩

/-- **A run over changes of which one would do something does something**, if every call succeeds up
to it and the pass ends after it; by induction on the changes before it. -/
theorem run_acts {before after : List Change}
    (h : Unmoved ctx.ignoredFolders s t (before ++ c :: after)) (hd : Rooted s.disk)
    (hknown : Known s) (hcomplete : Complete ctx.ignoredFolders s)
    (hids : ∀ b ∈ before ++ c :: after, b.id ≠ "")
    (hnew : (before ++ c :: after).Pairwise fun a b ↦ ¬ Change.Same a b)
    (hbefore : ∀ b ∈ before, ¬ Acts ctx s b ∧ ¬ Ends ctx s b) (hacts : Acts ctx s c)
    (hos : ctx.os = willingOs (n + before.length)) :
    (run ctx n (before ++ c :: after) t).1.disk.get ≠ s.disk.get := by
  induction before generalizing n t with
  | nil =>
    intro heq
    have hwilling : Willing ctx.os n := hos ▸ willing_willingOs le_rfl
    have hlater : ctx.os.current (n + 1) = .ok false := by
      rw [hos]
      exact congrArg Except.ok (decide_eq_false (Nat.not_succ_le_self n))
    obtain ⟨q, hq⟩ := step_acts (hd.congr h.disk) hwilling (h.known' hknown) (h.acts_iff.mpr hacts)
    refine hq ((congrFun (?_ : _ = s.disk.get) q).trans (congrFun h.disk q).symm)
    rw [List.nil_append, run] at heq
    rcases hr : step ctx n t c with ⟨u, flow⟩
    rw [hr] at heq
    cases flow with
    | next =>
      dsimp only at heq
      rwa [run_stopped hlater] at heq
    | stop => exact heq
    | error e => exact heq
  | cons b before ih =>
    obtain ⟨hb, hids⟩ := List.forall_mem_cons.mp hids
    obtain ⟨hsame, hnew⟩ := List.pairwise_cons.mp hnew
    obtain ⟨⟨hidle, hends⟩, hbefore⟩ := List.forall_mem_cons.mp hbefore
    have hstep := unmoved_step (n := n) h hd hcomplete hb hsame hidle
    have hcurrent : ctx.os.current n = .ok true := by
      rw [hos]
      exact congrArg Except.ok (decide_eq_true (Nat.le_add_right n _))
    have hnext := ((step_passed (n := n) (hd.congr h.disk) (h.acts_iff.not.mpr hidle)).goes_on
      hcurrent).resolve_right fun hends' ↦ hends (h.ends_iff.mp hends')
    rw [List.cons_append, run]
    rcases hr : step ctx n t b with ⟨u, flow⟩
    rw [hr] at hstep hnext
    cases flow with
    | next =>
      refine ih hstep hids hnew hbefore ?_
      rw [hos, List.length_cons]
      exact congrArg willingOs (by omega)
    | stop => cases hnext
    | error e => cases hnext

/-! ## What a pass knows when it begins -/

/-- What an index holds of the directories that have been met. -/
structure Holding (d : Disk) (met : List RelPath) (index : FolderIndex) : Prop where
  claims : ∀ id p, index.synced.lookup id = some p → Claims d id p
  complete : ∀ p ∈ met, ∀ id, id ≠ "" → Claims d id p →
    index.synced.lookup id = some p ∨ id ∈ index.ignored

/-- A directory is taken up. -/
theorem Holding.add {ignore : IgnoreSet} {met : List RelPath} {index index' : FolderIndex}
    (h : Holding d met index) (hadd : addFolder ignore d index p = .ok index') :
    Holding d (p :: met) index' := by
  have hkept : (∀ id, id ≠ "" → ¬ Claims d id p) → Holding d (p :: met) index := by
    refine fun hnone ↦ ⟨h.claims, fun q hq id hid hclaims ↦ ?_⟩
    rcases List.mem_cons.mp hq with rfl | hq
    · exact absurd hclaims (hnone id hid)
    · exact h.complete q hq id hid hclaims
  rw [addFolder] at hadd
  match hi : d.get p with
  | none =>
    rw [hi] at hadd
    cases hadd
    refine hkept fun id _ ⟨i, hi', _⟩ ↦ ?_
    exact Option.some_ne_none i (hi'.symm.trans hi)
  | some i =>
    rw [hi] at hadd
    dsimp only at hadd
    have hown : ∀ id, Claims d id p → i.isDir = true ∧ i.id = .text id := by
      rintro id ⟨j, hj, hclaims⟩
      cases hi.symm.trans hj
      exact hclaims
    by_cases hdir : ¬ i.isDir = true
    · rw [if_pos hdir] at hadd
      cases hadd
      exact hkept fun id _ hclaims ↦ hdir (hown id hclaims).1
    rw [if_neg hdir] at hadd
    match hid : i.id with
    | .unreadable e => rw [hid] at hadd; cases hadd
    | .binary b => rw [hid] at hadd; cases hadd
    | .absent =>
      rw [hid] at hadd
      cases hadd
      exact hkept fun id _ hclaims ↦ Attr.noConfusion (hid.symm.trans (hown id hclaims).2)
    | .text id =>
      rw [hid] at hadd
      dsimp only at hadd
      have hsame : ∀ id', Claims d id' p → id' = id := fun id' hclaims ↦
        (Attr.text.inj (hid.symm.trans (hown id' hclaims).2)).symm
      by_cases hempty : id = ""
      · rw [if_pos hempty] at hadd
        cases hadd
        exact hkept fun id' hne hclaims ↦ hne ((hsame id' hclaims).trans hempty)
      rw [if_neg hempty] at hadd
      by_cases hignored : p ≠ [] ∧ ignore.ignores p = true
      · rw [if_pos hignored] at hadd
        cases hadd
        refine ⟨h.claims, fun q hq id' hid' hclaims ↦ ?_⟩
        rcases List.mem_cons.mp hq with rfl | hq
        · rw [hsame id' hclaims]
          exact Or.inr List.mem_cons_self
        · exact (h.complete q hq id' hid' hclaims).imp_right (List.mem_cons_of_mem id)
      rw [if_neg hignored] at hadd
      by_cases hsome : (index.synced.lookup id).isSome = true
      · rw [if_pos hsome] at hadd
        cases hadd
      rw [if_neg hsome] at hadd
      cases hadd
      refine ⟨fun id' q hq ↦ ?_, fun q hq id' hid' hclaims ↦ ?_⟩
      · by_cases heq : id' = id
        · rw [heq, AList.lookup_insert] at hq
          cases hq
          exact ⟨i, hi, not_not.mp hdir, heq ▸ hid⟩
        · rw [AList.lookup_insert_ne heq] at hq
          exact h.claims id' q hq
      · rcases List.mem_cons.mp hq with rfl | hq
        · rw [hsame id' hclaims, AList.lookup_insert]
          exact Or.inl rfl
        · refine (h.complete q hq id' hid' hclaims).imp_left fun hlookup ↦ ?_
          have hne : id' ≠ id := fun heq ↦ hsome (heq ▸ hlookup ▸ rfl)
          exact (AList.lookup_insert_ne hne).trans hlookup

theorem Holding.foldlM {ignore : IgnoreSet} {met ps : List RelPath} {index index' : FolderIndex}
    (h : Holding d met index) (hfold : ps.foldlM (addFolder ignore d) index = .ok index') :
    Holding d (ps.reverse ++ met) index' := by
  induction ps generalizing met index with
  | nil =>
    cases hfold
    exact h
  | cons p ps ih =>
    rw [List.foldlM_cons] at hfold
    match hadd : addFolder ignore d index p with
    | .error e => rw [hadd] at hfold; cases hfold
    | .ok index₁ =>
      rw [hadd] at hfold
      rw [List.reverse_cons, List.append_assoc, List.singleton_append]
      exact ih (h.add hadd) hfold

/-- The index holds what the directories claim to be. -/
theorem holding_foldersByCloudId {ignore : IgnoreSet} {index : FolderIndex}
    (h : foldersByCloudId ignore d = .ok index) :
    (∀ id p, index.synced.lookup id = some p → Claims d id p)
      ∧ ∀ id p, id ≠ "" → Claims d id p →
        index.synced.lookup id = some p ∨ id ∈ index.ignored := by
  rw [foldersByCloudId] at h
  match hfold : d.paths.dedup.foldlM (addFolder ignore d) ⟨∅, []⟩ with
  | .error e => rw [hfold] at h; cases h
  | .ok index₁ =>
    rw [hfold] at h
    dsimp only at h
    split at h
    · cases h
    · cases h
      have hempty : Holding d [] ⟨∅, []⟩ := ⟨fun _ _ hnone ↦ absurd hnone.symm
        (Option.some_ne_none _), fun _ hmem ↦ absurd hmem List.not_mem_nil⟩
      have hholding := hempty.foldlM hfold
      refine ⟨hholding.claims, fun id p hid hclaims ↦ hholding.complete p ?_ id hid hclaims⟩
      obtain ⟨i, hi, -⟩ := hclaims
      rw [List.append_nil, List.mem_reverse, List.mem_dedup]
      exact mem_paths.mpr ⟨i, hi⟩

/-- Every file of the index by cloud id is there. -/
theorem fileAt_of_byCloudId {store : Store} {e : StoreEntry}
    (hindex : ∀ file q, store.index.lookup file = some q → ∃ j, d.fileAt q = some j)
    (h : (store.byCloudId d).lookup cloudId = some e) : ∃ i, d.fileAt e.path = some i := by
  let Found (out : AList fun _ : String ↦ StoreEntry) : Prop :=
    ∀ e, out.lookup cloudId = some e → ∃ i, d.fileAt e.path = some i
  have hfound : Found (store.byCloudId d) := by
    rw [Store.byCloudId]
    refine List.foldlRecOn (motive := Found) _ _ (fun e he ↦ ?_) fun out hout file _ e he ↦ ?_
    · exact absurd he.symm (Option.some_ne_none e)
    · match hlookup : store.lookup d file with
      | none =>
        rw [hlookup] at he
        exact hout e he
      | some e' =>
        rw [hlookup] at he
        dsimp only at he
        match hid : e'.cloudId with
        | none =>
          rw [hid] at he
          exact hout e he
        | some id =>
          rw [hid] at he
          dsimp only at he
          by_cases heq : cloudId = id
          · rw [heq, AList.lookup_insert] at he
            cases he
            obtain ⟨q, i, hq, -, -, rfl⟩ := Store.lookup_eq_some.mp hlookup
            rw [Store.entryAt_path]
            exact hindex file q hq
          · rw [AList.lookup_insert_ne heq] at he
            exact hout e he
  exact hfound e h

variable {setting : Setting} {store : Store} {changes : List Change} {seen : Option Fingerprint}

/-- What a pass knows when it begins is so, and it knows every folder. -/
theorem Begins.known (h : Begins setting store d changes seen ctx s) :
    Known s ∧ Complete ctx.ignoredFolders s := by
  obtain ⟨-, hwhole, -, folders, hfolders, rfl, rfl⟩ := h
  obtain ⟨hclaims, hcomplete⟩ := holding_foldersByCloudId hfolders
  refine ⟨⟨fun id e he ↦ ?_, hclaims⟩, hcomplete⟩
  refine fileAt_of_byCloudId (fun file q hq ↦ ?_) he
  rw [scanned, hwhole] at hq
  rcases Store.exists_of_foldl_meet hq with ⟨i, -, hi, -⟩ | hnone
  · exact ⟨i, (Store.indexable_eq_some.mp hi).1⟩
  · exact absurd hnone.symm (Option.some_ne_none q)

/-! ## What a fingerprint takes in -/

/-- What is hashed of a file that is synced. -/
def fingerprinted (ignore : IgnoreSet) (d : Disk) (p : RelPath) :
    Option (ℕ × Option String × Option String) :=
  ((indexable d p).filter fun _ ↦ ¬ ignore.ignores p).map fun i ↦
    (i.stat.size, i.id.string, i.etag.string)

/-- The change is an upsert of a file that was what the change says, at a path that the fingerprint
takes in. -/
def WasCurrent (ignore : IgnoreSet) (d : Disk) : Change → Prop
  | .upserted cloudId path size etag => ∃ abs i, safeJoin path = some abs
      ∧ indexable d abs = some i ∧ ignore.ignores abs = false
      ∧ isCurrent i cloudId etag size = true
  | .folderUpserted .. | .removed _ | .folderRemoved .. => False

/-- What is hashed tells whether a file is what a change says. -/
theorem isCurrent_congr {j : Inode} (hsize : j.stat.size = i.stat.size)
    (hid : j.id.string = i.id.string) (htag : j.etag.string = i.etag.string) :
    isCurrent j cloudId etag size = isCurrent i cloudId etag size := by
  have htext : ∀ {a b : Attr}, a.string = b.string → ∀ v, a = .text v ↔ b = .text v :=
    fun heq v ↦ Attr.string_eq_some.symm.trans (heq ▸ Attr.string_eq_some)
  match etag with
  | none => simp only [isCurrent, hsize, htext hid]
  | some remote => simp only [isCurrent, hsize, htext hid, htext htag]

/-- **What the fingerprint takes in does not change unnoticed**: a file that was what a change says
still is. -/
theorem not_acts_of_wasCurrent {ignore ignore' : IgnoreSet}
    (h : WasCurrent ignore d c) (heq : fingerprinted ignore d = fingerprinted ignore' s.disk) :
    ¬ Acts ctx s c := by
  match c, h with
  | .upserted cloudId path size etag, ⟨abs, i, habs, hi, hsynced, hcurrent⟩ =>
    have hthen : fingerprinted ignore d abs = some (i.stat.size, i.id.string, i.etag.string) := by
      rw [fingerprinted, hi, Option.filter_some, hsynced]
      rfl
    rw [heq, fingerprinted, Option.map_eq_some_iff] at hthen
    obtain ⟨j, hj, hsame⟩ := hthen
    obtain ⟨hj, -⟩ := Store.indexable_eq_some.mp (Option.eq_some_of_filter_eq_some hj)
    obtain ⟨hsize, hid, htag⟩ : j.stat.size = i.stat.size ∧ j.id.string = i.id.string
        ∧ j.etag.string = i.etag.string := by simpa using hsame
    rintro ⟨-, abs', habs', -, hacts⟩
    cases habs.symm.trans habs'
    rcases hacts with hopen | ⟨k, hk, hreplace, -⟩
    · exact Option.some_ne_none j (hj.symm.trans (hopen.free (List.prefix_refl abs)))
    · cases hj.symm.trans hk
      exact Bool.false_ne_true
        (hreplace.news.symm.trans ((isCurrent_congr hsize hid htag).trans hcurrent))

/-! ## Passes that are skipped -/

/-- What is newly remembered is the fingerprint of the pass that remembers it. -/
theorem fingerprint_of_remembered {now : Fingerprint}
    (h : (applyRemembering setting store d changes seen).2.2 = some now) (hnew : seen ≠ some now) :
    now = ⟨setting.batchDigest changes, setting.treeDigest d⟩ := by
  rw [applyRemembering] at h
  dsimp only at h
  by_cases hsome : changes = []
  · rw [if_pos hsome] at h
    exact absurd h hnew
  rw [if_neg hsome] at h
  cases hbroken : setting.broken with
  | some fault =>
    rw [hbroken] at h
    exact absurd h hnew
  | none =>
    rw [hbroken] at h
    dsimp only at h
    by_cases hseen : seen = some ⟨setting.batchDigest changes, setting.treeDigest d⟩
    · rw [if_pos hseen] at h
      exact absurd h hnew
    rw [if_neg hseen] at h
    cases hfolders : foldersByCloudId (scanned setting store d).ignore d with
    | error e =>
      rw [hfolders] at h
      exact absurd h hnew
    | ok folders =>
      rw [hfolders] at h
      dsimp only at h
      split at h
      · exact (Option.some_inj.mp h).symm
      · exact absurd h hnew

/-- **A pass that is skipped would have changed nothing**, whatever is answered, if and only if no
change of its batch would change anything, up to one that ends the pass; of the changes those need
not be looked at that upsert a file which was what they say when the pass was remembered. -/
theorem skipped_iff_idle (setting₀ setting : Setting) (store₀ store : Store) (d₀ d : Disk)
    (changes₀ changes : List Change) (seen₀ : Option Fingerprint) (now : Fingerprint)
    (hnew : seen₀ ≠ some now)
    (hremembered : (applyRemembering setting₀ store₀ d₀ changes₀ seen₀).2.2 = some now)
    (hskips : now = ⟨setting.batchDigest changes, setting.treeDigest d⟩)
    (hdigest : setting₀.treeDigest d₀ = setting.treeDigest d →
      fingerprinted setting₀.config.ignore d₀ = fingerprinted setting.config.ignore d)
    (hsome : changes ≠ []) (hwhole : setting.broken = none) (hd : Rooted d)
    (hids : ∀ c ∈ changes, c.id ≠ "") :
    (∀ os p, (applyRemembering { setting with os := os } store d changes none).1.disk.get p
        = d.get p)
      ↔ ∀ ctx s, Begins setting store d changes none ctx s →
        Idle ctx s (WasCurrent setting₀.config.ignore d₀) (coalesce changes) := by
  have hsame : fingerprinted setting₀.config.ignore d₀ = fingerprinted setting.config.ignore d :=
    hdigest (congrArg Fingerprint.tree
      ((fingerprint_of_remembered hremembered hnew).symm.trans hskips))
  have hids' : ∀ c ∈ coalesce changes, c.id ≠ "" := fun c hc ↦
    hids c (Change.mem_lastOnes_subset changes hc)
  have hpairwise := Change.pairwise_lastOnes changes
  have hbegins : ∀ os ctx s, Begins setting store d changes none ctx s →
      Begins { setting with os := os } store d changes none { ctx with os := os } s := by
    rintro os ctx s ⟨-, -, hnews, folders, hfolders, rfl, rfl⟩
    exact ⟨hsome, hwhole, hnews, folders, hfolders, rfl, rfl⟩
  have hunmoved : ∀ ctx s, Begins setting store d changes none ctx s →
      Unmoved ctx.ignoredFolders s s (coalesce changes) := fun ctx s h ↦
    ⟨rfl, rfl, fun _ _ _ _ ↦ rfl, fun _ _ _ ↦ Or.inl rfl, h.known.1.folders⟩
  have hdisk : ∀ ctx s, Begins setting store d changes none ctx s → s.disk = d := by
    rintro ctx s ⟨-, -, -, folders, -, -, rfl⟩
    rfl
  constructor
  · intro hstays ctx s h
    by_contra hidle
    obtain ⟨before, c, after, hcs, hbefore, hacts⟩ := exists_acts hidle
    rw [hcs] at hids'
    have hacts' : (run { ctx with os := willingOs (0 + before.length) } 0 (before ++ c :: after)
        s).1.disk.get ≠ s.disk.get :=
      run_acts (hcs ▸ hunmoved ctx s h) (hdisk ctx s h ▸ hd) h.known.1 h.known.2 hids'
        (hcs ▸ hpairwise) (fun b hb ↦ ⟨acts_os.not.mpr (hbefore b hb).1, (hbefore b hb).2⟩)
        (acts_os.mpr hacts) rfl
    refine hacts' (funext fun p ↦ ?_)
    rw [hdisk ctx s h, ← hstays (willingOs (0 + before.length)) p, (hbegins _ ctx s h).pass, hcs]
  · intro hidle os p
    rcases applyRemembering_cases { setting with os := os } store d changes none with
      ⟨heq, -⟩ | ⟨ctx, s, h⟩
    · rw [heq]
    · have h' : Begins setting store d changes none { ctx with os := setting.os } s := by
        obtain ⟨-, -, hnews, folders, hfolders, rfl, rfl⟩ := h
        exact ⟨hsome, hwhole, hnews, folders, hfolders, rfl, rfl⟩
      rw [h.pass]
      have hrun : (run ctx 0 (coalesce changes) s).1.disk.get = s.disk.get := run_idle
        (hunmoved { ctx with os := setting.os } s h') (hdisk _ s h' ▸ hd) h'.known.2 hids' hpairwise
        (fun c hc ↦ not_acts_of_wasCurrent hc ((hdisk _ s h').symm ▸ hsame))
        (idle_os.mp (hidle _ s h'))
      rw [hrun, hdisk _ s h']

/-! ### A folder that is deleted here -/

/-- The folder that the batch is about. -/
def folderDisk : Disk := ⟨[([], sampleRoot), (["f"], { sampleRoot with id := .text "F" })]⟩

def folderChanges : List Change := [.folderUpserted "F" "f" none]

theorem rooted_folderDisk : Rooted folderDisk := by
  refine ⟨rfl, fun p i hi q hq hne ↦ ?_⟩
  have hmem : p ∈ [[], ["f"]] := mem_paths.mpr ⟨i, hi⟩
  simp only [List.mem_cons, List.not_mem_nil, or_false] at hmem
  rcases hmem with rfl | rfl
  · exact absurd (List.prefix_nil.mp hq) hne
  · rcases List.prefix_cons_iff.mp hq with rfl | ⟨r, rfl, hr⟩
    · rfl
    · exact absurd (congrArg _ (List.prefix_nil.mp hr)) hne

theorem rooted_bareDisk : Rooted bareDisk := by
  refine ⟨rfl, fun p i hi q hq hne ↦ ?_⟩
  have hmem : p ∈ [[]] := mem_paths.mpr ⟨i, hi⟩
  rw [List.mem_singleton] at hmem
  subst hmem
  exact absurd (List.prefix_nil.mp hq) hne

/-- Where there are no files nothing is hashed. -/
theorem fingerprinted_of_no_file (ignore : IgnoreSet) (h : ∀ p i, d.fileAt p ≠ some i) :
    fingerprinted ignore d = fun _ ↦ none := by
  funext p
  have hnone : indexable d p = none := Option.eq_none_iff_forall_ne_some.mpr fun i hi ↦
    h p i (Store.indexable_eq_some.mp hi).1
  rw [fingerprinted, hnone]
  rfl

theorem folderDisk_no_file (p : RelPath) (i : Inode) : folderDisk.fileAt p ≠ some i := by
  intro hi
  obtain ⟨hget, hfile⟩ := (Disk.fileAt_eq_some _).mp hi
  have hmem : p ∈ [[], ["f"]] := mem_paths.mpr ⟨i, hget⟩
  simp only [List.mem_cons, List.not_mem_nil, or_false] at hmem
  rcases hmem with rfl | rfl <;> cases hget <;> cases hfile

theorem bareDisk_no_file (p : RelPath) (i : Inode) : bareDisk.fileAt p ≠ some i := by
  intro hi
  obtain ⟨hget, hfile⟩ := (Disk.fileAt_eq_some _).mp hi
  have hmem : p ∈ [[]] := mem_paths.mpr ⟨i, hget⟩
  rw [List.mem_singleton] at hmem
  subst hmem
  cases hget
  cases hfile

/-- The pass over the folder does nothing, and is remembered. -/
theorem folder_remembered : (applyRemembering (sampleSetting ⟨[]⟩) sampleStore folderDisk
    folderChanges none).2.2 = some ⟨0, 0⟩ := rfl

/-- The folder is deleted, the fingerprint is the same, and a full pass would make the folder. -/
theorem folder_skipped : ¬ ∀ (setting₀ setting : Setting) (store₀ store : Store) (d₀ d : Disk)
    (changes₀ changes : List Change) (seen₀ : Option Fingerprint) (now : Fingerprint),
    seen₀ ≠ some now →
    (applyRemembering setting₀ store₀ d₀ changes₀ seen₀).2.2 = some now →
    now = ⟨setting.batchDigest changes, setting.treeDigest d⟩ →
    (setting₀.treeDigest d₀ = setting.treeDigest d →
      fingerprinted setting₀.config.ignore d₀ = fingerprinted setting.config.ignore d) →
    changes ≠ [] → setting.broken = none → Rooted d → (∀ c ∈ changes, c.id ≠ "") →
    ∀ os p, (applyRemembering { setting with os := os } store d changes none).1.disk.get p
      = d.get p := by
  intro hskips
  have hsame := hskips (sampleSetting ⟨[]⟩) (sampleSetting ⟨[]⟩) sampleStore sampleStore folderDisk
    bareDisk folderChanges folderChanges none ⟨0, 0⟩ (fun h ↦ Option.some_ne_none _ h.symm)
    folder_remembered rfl
    (fun _ ↦ (fingerprinted_of_no_file _ folderDisk_no_file).trans
      (fingerprinted_of_no_file _ bareDisk_no_file).symm)
    (List.cons_ne_nil _ _) rfl rooted_bareDisk (by decide) sampleOs ["f"]
  have hmade : ((applyRemembering (sampleSetting ⟨[]⟩) sampleStore bareDisk folderChanges
      none).1.disk.get ["f"]).isSome = true := rfl
  rw [show ((applyRemembering (sampleSetting ⟨[]⟩) sampleStore bareDisk folderChanges
    none).1.disk.get ["f"]) = none from hsame] at hmade
  cases hmade

theorem folder_begins : Begins (sampleSetting ⟨[]⟩) sampleStore folderDisk folderChanges none
    sampleCtx ⟨folderDisk, ∅, AList.insert "F" ["f"] ∅,
      scanned (sampleSetting ⟨[]⟩) sampleStore folderDisk, Applied.default, []⟩ :=
  ⟨List.cons_ne_nil _ _, rfl, fun h ↦ Option.some_ne_none _ h.symm,
    ⟨AList.insert "F" ["f"] ∅, []⟩, rfl, rfl, rfl⟩

/-- While the folder is there, a full pass does nothing. -/
theorem folder_idle : (applyRemembering (sampleSetting ⟨[]⟩) sampleStore folderDisk folderChanges
    none).1.disk.get ["f"] = folderDisk.get ["f"] := by
  refine (skipped_iff_idle (sampleSetting ⟨[]⟩) (sampleSetting ⟨[]⟩) sampleStore sampleStore
    folderDisk folderDisk folderChanges folderChanges none ⟨0, 0⟩
    (fun h ↦ Option.some_ne_none _ h.symm) folder_remembered rfl (fun _ ↦ rfl)
    (List.cons_ne_nil _ _) rfl rooted_folderDisk (by decide)).mpr (fun ctx s h ↦ ?_)
    (sampleSetting ⟨[]⟩).os ["f"]
  obtain ⟨rfl, rfl⟩ := folder_begins.unique h
  refine ⟨Or.inr ?_, Or.inr trivial⟩
  rintro ⟨-, abs, habs, ⟨hopen, -⟩ | ⟨i, hi, -, -, -, hnew⟩⟩
  · cases habs
    exact Option.some_ne_none _ hopen.1
  · cases habs
    cases hi
    exact hnew ⟨rfl, rfl⟩

end HydrationAPI.Client.Delta
