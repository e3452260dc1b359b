import HydrationAPI.Client.DeltaSafety

/-!
# When the cursor is held

The cursor moves past a batch when the pass over it ended with no error and is not to be tried
again, and what a service has said once it does not say twice. Of the calls that can fail, those
that follow an object, make a folder or write to it have the batch delivered again; two do not, the
placing and the removal of a file.
-/

namespace HydrationAPI.Client.Delta

open PathMap

/-- Whether the caller advances its cursor after the pass. -/
def advances (r : Pass × Option String × Option Fingerprint) : Bool :=
  r.2.1.isNone && !r.1.out.retryable

/-! ## What may become of a change -/

/-- What a change says holds of the directory, of the objects of a pass. -/
def TakenUp (s : Pass) (d : Disk) : Change → Prop
  | .upserted cloudId path size etag => ∃ abs i, safeJoin path = some abs ∧ d.get abs = some i
      ∧ isCurrent i cloudId etag size = true
  | .folderUpserted cloudId path etag => ∃ abs i, folderPath path = some abs ∧ d.get abs = some i
      ∧ i.isDir = true ∧ i.id = .text cloudId ∧ i.etag = folderTag etag
  | .removed cloudId => ∀ e, s.files.lookup cloudId = some e → d.get e.path = none
  | .folderRemoved cloudId _ => ∀ p, s.folders.lookup cloudId = some p →
      ∀ i, d.get p = some i → i.id = .absent ∧ i.etag = .absent

/-- A change is refused for what it says: a path that is none, a size no object has, the removal of
the root. -/
def RefusedFor (s : Pass) : Change → Prop
  | .upserted _ path size _ => safeJoin path = none ∨ size > maxObject
  | .folderUpserted _ path _ => folderPath path = none
  | .removed _ => False
  | .folderRemoved cloudId _ => s.folders.lookup cloudId = some []

/-- The change has been applied, or left out for a reason that is not a passing one. -/
def Answered (s : Pass) (c : Change) (s' : Pass) : Prop :=
  TakenUp s s'.disk c ∨ s' = s.ignored ∨ RefusedFor s c
    ∨ ∃ k, s'.out.keptLocal = s.out.keptLocal ++ [k]

/-- The change asks for a file to be placed or removed, and the call fails. -/
def FileCallFails (ctx : Ctx) (n : ℕ) (s : Pass) (c : Change) : Prop :=
  Applies ctx n c ∧ match c with
  | .upserted cloudId path size etag => ∃ abs t d e, safeJoin path = some abs ∧ size ≤ maxObject
      ∧ moveFile ctx n s cloudId path abs = .ok t
      ∧ (∀ i, t.disk.get abs = some i → Replaceable ctx i cloudId size etag)
      ∧ place ctx.os n t.disk abs size cloudId etag = (d, some e)
  | .removed cloudId => ∃ f i d e, s.files.lookup cloudId = some f
      ∧ ctx.ignore.ignores f.path = false ∧ s.disk.get f.path = some i
      ∧ i.stat.file ∉ ctx.waiting ∧ i.stampState ≠ .ok .dirty
      ∧ remove ctx.os n s.disk f.path = (d, some e)
  | .folderUpserted .. | .folderRemoved .. => False

variable {ctx : Ctx} {n : ℕ} {s t : Pass} {cloudId path : String} {abs : RelPath} {size : ℕ}
  {etag : Option String} {c : Change}

theorem retryable_fail {why : Failure} {retryable : Bool}
    (h : (s.fail path why retryable).out.retryable = false) :
    s.out.retryable = false ∧ retryable = false := Bool.or_eq_false_iff.mp h

theorem not_quiet_fail {why : Failure} : (s.fail path why true).out.retryable ≠ false :=
  fun h ↦ Bool.noConfusion (retryable_fail h).2

/-! ## Files -/

/-- A file that could not be followed is to be tried again. -/
theorem moveFile_error {r : Pass × Flow} (h : moveFile ctx n s cloudId path abs = .error r) :
    r.1.out.retryable = true := by
  rw [moveFile] at h
  split at h
  · cases h
  · split at h
    · split at h
      · cases h
        exact Bool.or_true _
      · dsimp only at h
        split at h
        · cases h
          exact Bool.or_true _
        · cases h
    · cases h

theorem moveFile_ok (h : moveFile ctx n s cloudId path abs = .ok t) :
    t.out.retryable = s.out.retryable ∧ t.out.keptLocal = s.out.keptLocal := by
  rw [moveFile] at h
  split at h
  · cases h
    exact ⟨rfl, rfl⟩
  · split at h
    · split at h
      · cases h
      · dsimp only at h
        split at h
        · cases h
        · cases h
          exact ⟨rfl, rfl⟩
    · cases h
      exact ⟨rfl, rfl⟩

/-- A placeholder is what the change says. -/
theorem isCurrent_placeholder (st : Stat) (stamped : Bool) :
    isCurrent (placeholder st stamped size cloudId etag) cloudId etag size = true := by
  cases etag <;> simp [isCurrent, placeholder]

theorem not_isCurrent_newDir (st : Stat) : isCurrent (newDir st) cloudId etag size = false := by
  simp [isCurrent, newDir]

/-- What placing leaves: what the change says if it succeeds, and nothing new but directories if it
does not. -/
theorem place_cases (os : Os) (n : ℕ) (d : Disk) (abs : RelPath) (size : ℕ) (cloudId : String)
    (etag : Option String) :
    (∃ d' i, place os n d abs size cloudId etag = (d', none) ∧ d'.get abs = some i
      ∧ isCurrent i cloudId etag size = true)
    ∨ ∃ d' e, place os n d abs size cloudId etag = (d', some e) ∧ Grows d d' := by
  rw [place]
  have hgrows := grows_createDirAll (os.mkdir n) d abs.dropLast
  generalize createDirAll (os.mkdir n) d abs.dropLast = made at hgrows
  obtain ⟨d', error⟩ := made
  cases error with
  | some e => exact Or.inr ⟨d', e, rfl, hgrows⟩
  | none =>
    cases hplace : os.place n with
    | error e => exact Or.inr ⟨d', e, by simp, hgrows⟩
    | ok placed =>
      dsimp only
      split
      · exact Or.inr ⟨d', _, rfl, hgrows⟩
      · exact Or.inl ⟨_, _, rfl, get_set_self, isCurrent_placeholder placed.1 placed.2⟩

/-- Neither ignored nor kept: nothing is reported but a failure, and a call has been made. -/
theorem not_answered {s' : Pass} (call : Call) (hup : ¬ TakenUp s s'.disk c)
    (hrefused : ¬ RefusedFor s c) (hcalls : s'.calls = s.calls ++ [call])
    (hkept : s'.out.keptLocal = s.out.keptLocal) : ¬ Answered s c s' := by
  rintro (h | rfl | h | ⟨k, h⟩)
  · exact hup h
  · exact absurd hcalls.symm (by simp [Pass.ignored])
  · exact hrefused h
  · exact absurd (h.symm.trans hkept) (by simp)

/-- What placing a file comes to, where nothing is there that already is what the change says. -/
theorem placeFile_answers (ctx : Ctx) (n : ℕ) (path : String) {count : Applied → Applied}
    (hcount : ∀ out, (count out).retryable = out.retryable ∧ (count out).keptLocal = out.keptLocal)
    (hnews : ∀ i, s.disk.get abs = some i → isCurrent i cloudId etag size = false) :
    (placeFile ctx n s cloudId path abs size etag count).out.retryable = s.out.retryable
      ∧ (placeFile ctx n s cloudId path abs size etag count).out.keptLocal = s.out.keptLocal
      ∧ (placeFile ctx n s cloudId path abs size etag count).calls
        = s.calls ++ [.place abs cloudId s.disk]
      ∧ ((∃ i, (placeFile ctx n s cloudId path abs size etag count).disk.get abs = some i
          ∧ isCurrent i cloudId etag size = true)
        ↔ ¬ ∃ d e, place ctx.os n s.disk abs size cloudId etag = (d, some e)) := by
  rcases place_cases ctx.os n s.disk abs size cloudId etag with
    ⟨d, i, hplace, hi, hcurrent⟩ | ⟨d, e, hplace, hgrows⟩
  · rw [placeFile, hplace]
    refine ⟨(hcount _).1, (hcount _).2, rfl, iff_of_true ⟨i, hi, hcurrent⟩ ?_⟩
    rintro ⟨d', e, heq⟩
    cases heq
  · rw [placeFile, hplace]
    refine ⟨Bool.or_false _, rfl, rfl, iff_of_false ?_ (not_not_intro ⟨d, e, rfl⟩)⟩
    rintro ⟨i, hi, hcurrent⟩
    rcases hgrows.news abs i hi with hi | ⟨-, st, rfl⟩
    · exact Bool.false_ne_true ((hnews i hi).symm.trans hcurrent)
    · exact Bool.false_ne_true ((not_isCurrent_newDir st).symm.trans hcurrent)

/-- The file of an upsert, once it has been followed. -/
theorem refreshFile_answers (happlies : Applies ctx n (.upserted cloudId path size etag))
    (habs : safeJoin path = some abs) (hsize : size ≤ maxObject)
    (hmove : moveFile ctx n s cloudId path abs = .ok t) :
    (refreshFile ctx n t cloudId path abs size etag).out.retryable = t.out.retryable
      ∧ (Answered s (.upserted cloudId path size etag)
          (refreshFile ctx n t cloudId path abs size etag)
        ↔ ¬ FileCallFails ctx n s (.upserted cloudId path size etag)) := by
  have hcalls : t.calls = s.calls := (moveFile_followed ctx n s cloudId path abs).calls hmove
  have hkept := (moveFile_ok hmove).2
  have hfails : FileCallFails ctx n s (.upserted cloudId path size etag)
      ↔ (∀ i, t.disk.get abs = some i → Replaceable ctx i cloudId size etag)
        ∧ ∃ d e, place ctx.os n t.disk abs size cloudId etag = (d, some e) := by
    constructor
    · rintro ⟨-, abs', t', d, e, habs', -, hmove', hreplace, hplace⟩
      cases habs.symm.trans habs'
      cases hmove.symm.trans hmove'
      exact ⟨hreplace, d, e, hplace⟩
    · rintro ⟨hreplace, d, e, hplace⟩
      exact ⟨happlies, abs, t, d, e, habs, hsize, hmove, hreplace, hplace⟩
  -- Where a placeholder is put, all depends on the call.
  have hplaced : ∀ (count : Applied → Applied),
      (∀ out, (count out).retryable = out.retryable ∧ (count out).keptLocal = out.keptLocal) →
      (∀ i, t.disk.get abs = some i → Replaceable ctx i cloudId size etag) →
      (placeFile ctx n t cloudId path abs size etag count).out.retryable = t.out.retryable
      ∧ (Answered s (.upserted cloudId path size etag)
          (placeFile ctx n t cloudId path abs size etag count)
        ↔ ¬ FileCallFails ctx n s (.upserted cloudId path size etag)) := by
    intro count hcount hreplace
    obtain ⟨hretryable, hkept', hcalls', hplace⟩ := placeFile_answers ctx n path hcount
      fun i hi ↦ (hreplace i hi).news
    refine ⟨hretryable, fun hanswered hfailed ↦ ?_, fun hnot ↦ Or.inl ?_⟩
    · refine not_answered (.place abs cloudId t.disk) ?_ ?_ (hcalls'.trans (by rw [hcalls]))
        (hkept'.trans hkept) hanswered
      · rintro ⟨abs', i, habs', hi, hcurrent⟩
        cases habs.symm.trans habs'
        exact hplace.mp ⟨i, hi, hcurrent⟩ (hfails.mp hfailed).2
      · rintro (hnone | hlarge)
        · exact Option.some_ne_none abs (habs.symm.trans hnone)
        · exact Nat.not_lt.mpr hsize hlarge
    · obtain ⟨i, hi, hcurrent⟩ := hplace.mpr fun hfailed ↦ hnot (hfails.mpr ⟨hreplace, hfailed⟩)
      exact ⟨abs, i, habs, hi, hcurrent⟩
  rw [refreshFile]
  cases hget : t.disk.get abs with
  | none =>
    exact hplaced _ (fun _ ↦ ⟨rfl, rfl⟩) fun i hi ↦
      absurd (hget.symm.trans hi).symm (Option.some_ne_none i)
  | some i =>
    have hstays : ∀ s', Answered s (.upserted cloudId path size etag) s' →
        ¬ Replaceable ctx i cloudId size etag →
        (Answered s (.upserted cloudId path size etag) s'
          ↔ ¬ FileCallFails ctx n s (.upserted cloudId path size etag)) :=
      fun s' hanswered hnot ↦ iff_of_true hanswered fun hfailed ↦
        hnot ((hfails.mp hfailed).1 i hget)
    have hkeep : ∀ why, Answered s (.upserted cloudId path size etag) (t.keep path why) := fun why ↦
      Or.inr (Or.inr (Or.inr ⟨⟨path, why⟩, by rw [Pass.keep, hkept]⟩))
    dsimp only
    split
    · rename_i hcurrent
      refine ⟨rfl, hstays t (Or.inl ⟨abs, i, habs, hget, hcurrent⟩) fun hreplace ↦ ?_⟩
      exact Bool.false_ne_true (hreplace.news.symm.trans hcurrent)
    · rename_i hnews
      split
      · rename_i hwaits
        exact ⟨rfl, hstays _ (hkeep _) fun hreplace ↦ hreplace.waits hwaits⟩
      · rename_i hwaits
        split
        · rename_i hunknown
          exact ⟨rfl, hstays _ (hkeep _) fun hreplace ↦
            hreplace.known.elim hunknown.1 (Nat.ne_of_gt hunknown.2)⟩
        · rename_i hknown
          split
          · rename_i hstamp
            exact ⟨rfl, hstays _ (hkeep _) fun hreplace ↦ hreplace.stamp hstamp⟩
          · rename_i hstamp
            refine hplaced _ (fun _ ↦ ⟨rfl, rfl⟩) fun j hj ↦ ?_
            cases hget.symm.trans hj
            refine ⟨Bool.eq_false_iff.mpr hnews, hwaits, ?_, hstamp⟩
            by_contra hnot
            obtain ⟨hfilled, hempty⟩ := not_or.mp hnot
            exact hknown ⟨hfilled, Nat.pos_of_ne_zero hempty⟩

/-- What a step comes to that is not to be tried again: the next change comes, and the change is
answered unless the call for its file fails. -/
structure Counts (ctx : Ctx) (n : ℕ) (s : Pass) (c : Change) (r : Pass × Flow) : Prop where
  quiet : s.out.retryable = false
  goes_on : r.2 ≠ .stop
  answered : r.2 = .next → (Answered s c r.1 ↔ ¬ FileCallFails ctx n s c)

theorem upserted_counts (happlies : Applies ctx n (.upserted cloudId path size etag))
    (hquiet : (upserted ctx n s cloudId path size etag).1.out.retryable = false) :
    Counts ctx n s (.upserted cloudId path size etag)
      (upserted ctx n s cloudId path size etag) := by
  have hrefused : ∀ {s' why}, (s.fail path why false).out.retryable = false →
      RefusedFor s (.upserted cloudId path size etag) → s' = s.fail path why false →
      Counts ctx n s (.upserted cloudId path size etag) (s', .next) := by
    rintro _ why hquiet hrefused rfl
    refine ⟨(retryable_fail hquiet).1, Flow.noConfusion, fun _ ↦
      iff_of_true (Or.inr (Or.inr (Or.inl hrefused))) ?_⟩
    rintro ⟨-, abs, -, -, -, habs, hsize, -⟩
    rcases hrefused with hnone | hlarge
    · exact Option.some_ne_none abs (habs.symm.trans hnone)
    · exact Nat.not_lt.mpr hsize hlarge
  rw [upserted] at hquiet ⊢
  cases habs : safeJoin path with
  | none =>
    rw [habs] at hquiet
    exact hrefused hquiet (Or.inl habs) rfl
  | some abs =>
    rw [habs] at hquiet
    dsimp only at hquiet ⊢
    by_cases hsize : size > maxObject
    · rw [if_pos hsize] at hquiet ⊢
      exact hrefused hquiet (Or.inr hsize) rfl
    · rw [if_neg hsize] at hquiet ⊢
      cases hmove : moveFile ctx n s cloudId path abs with
      | error r =>
        rw [hmove] at hquiet
        exact absurd (hquiet.symm.trans (moveFile_error hmove)) Bool.false_ne_true
      | ok t =>
        rw [hmove] at hquiet
        obtain ⟨hretryable, hanswered⟩ :=
          refreshFile_answers happlies habs (Nat.le_of_not_lt hsize) hmove
        refine ⟨?_, Flow.noConfusion, fun _ ↦ hanswered⟩
        exact (moveFile_ok hmove).1.symm.trans (hretryable.symm.trans hquiet)

/-- What a removal comes to: the file is gone, or the call fails and it is there. -/
theorem remove_cases {p : RelPath} {i : Inode} (os : Os) (n : ℕ) (d : Disk)
    (hi : d.get p = some i) :
    (∃ d', remove os n d p = (d', none) ∧ d'.get p = none)
      ∨ ∃ e, remove os n d p = (d, some e) ∧ d.get p ≠ none := by
  have hthere : d.get p ≠ none := fun hnone ↦ Option.some_ne_none i (hi.symm.trans hnone)
  rw [remove]
  split
  · exact Or.inr ⟨_, rfl, hthere⟩
  · cases os.remove n with
    | some e => exact Or.inr ⟨e, rfl, hthere⟩
    | none => exact Or.inl ⟨_, rfl, get_erase.trans (if_pos rfl)⟩

theorem removed_counts (happlies : Applies ctx n (.removed cloudId))
    (hquiet : (removed ctx n s cloudId).out.retryable = false) :
    Counts ctx n s (.removed cloudId) (removed ctx n s cloudId, .next) := by
  have hstays : ∀ s', s'.out.retryable = s.out.retryable → s'.out.retryable = false →
      Answered s (.removed cloudId) s' → ¬ FileCallFails ctx n s (.removed cloudId) →
      Counts ctx n s (.removed cloudId) (s', .next) := fun s' heq hquiet hanswered hnot ↦
    ⟨heq.symm.trans hquiet, Flow.noConfusion, fun _ ↦ iff_of_true hanswered hnot⟩
  rw [removed] at hquiet ⊢
  cases he : s.files.lookup cloudId with
  | none =>
    rw [he] at hquiet
    refine hstays s rfl hquiet (Or.inl fun e he' ↦ ?_) ?_
    · exact absurd (he.symm.trans he').symm (Option.some_ne_none e)
    · rintro ⟨-, e, -, -, -, he', -⟩
      exact absurd (he.symm.trans he').symm (Option.some_ne_none e)
  | some e =>
    rw [he] at hquiet
    dsimp only at hquiet ⊢
    by_cases hignored : ctx.ignore.ignores e.path = true
    · rw [if_pos hignored] at hquiet ⊢
      refine hstays _ rfl hquiet (Or.inr (Or.inl rfl)) ?_
      rintro ⟨-, e', -, -, -, he', hnot, -⟩
      cases he.symm.trans he'
      exact Bool.false_ne_true (hnot.symm.trans hignored)
    · rw [if_neg hignored] at hquiet ⊢
      cases hi : s.disk.get e.path with
      | none =>
        rw [hi] at hquiet
        refine hstays s rfl hquiet (Or.inl fun e' he' ↦ ?_) ?_
        · cases he.symm.trans he'
          exact hi
        · rintro ⟨-, e', i, -, -, he', -, hi', -⟩
          cases he.symm.trans he'
          exact absurd (hi.symm.trans hi').symm (Option.some_ne_none i)
      | some i =>
        rw [hi] at hquiet
        dsimp only at hquiet ⊢
        by_cases hwaits : i.stat.file ∈ ctx.waiting
        · rw [if_pos hwaits] at hquiet ⊢
          refine hstays _ rfl hquiet (Or.inr (Or.inr (Or.inr ⟨_, rfl⟩))) ?_
          rintro ⟨-, e', i', -, -, he', -, hi', hnot, -⟩
          cases he.symm.trans he'
          cases hi.symm.trans hi'
          exact hnot hwaits
        · rw [if_neg hwaits] at hquiet ⊢
          by_cases hstamp : i.stampState = .ok .dirty
          · rw [if_pos hstamp] at hquiet ⊢
            refine hstays _ rfl hquiet (Or.inr (Or.inr (Or.inr ⟨_, rfl⟩))) ?_
            rintro ⟨-, e', i', -, -, he', -, hi', -, hnot, -⟩
            cases he.symm.trans he'
            cases hi.symm.trans hi'
            exact hnot hstamp
          · rw [if_neg hstamp] at hquiet ⊢
            rcases remove_cases ctx.os n s.disk hi with
              ⟨d, hremove, hgone⟩ | ⟨error, hremove, hthere⟩
            · rw [hremove] at hquiet ⊢
              refine hstays _ rfl hquiet (Or.inl fun e' he' ↦ ?_) ?_
              · cases he.symm.trans he'
                exact hgone
              · rintro ⟨-, e', i', d', error, he', -, hi', -, -, hfails⟩
                cases he.symm.trans he'
                cases hremove.symm.trans hfails
            · rw [hremove] at hquiet ⊢
              refine ⟨(retryable_fail hquiet).1, Flow.noConfusion, fun _ ↦ iff_of_false ?_ ?_⟩
              · exact not_answered (.remove e.path cloudId s.disk)
                  (fun hgone ↦ hthere (hgone e he)) not_false rfl rfl
              · refine not_not_intro ⟨happlies, e, i, s.disk, error, he, ?_, hi, hwaits, hstamp,
                  hremove⟩
                exact Bool.eq_false_iff.mpr hignored

/-! ## Folders -/

/-- What is said of a folder is written, or the pass is to be tried again. -/
theorem claimFolder_takes {d : Pass} (s : Pass)
    (hdir : ∀ i, d.disk.get abs = some i → i.isDir = true) (habs : folderPath path = some abs)
    (hquiet : (claimFolder ctx n d cloudId path abs etag).out.retryable = false) :
    d.out.retryable = false
      ∧ TakenUp s (claimFolder ctx n d cloudId path abs etag).disk
        (.folderUpserted cloudId path etag) := by
  rw [claimFolder] at hquiet ⊢
  cases hi : d.disk.get abs with
  | none =>
    rw [hi] at hquiet
    exact absurd hquiet not_quiet_fail
  | some i =>
    rw [hi] at hquiet
    dsimp only at hquiet ⊢
    by_cases hoccupied : i.id.isSome ∧ i.id ≠ .text cloudId
    · rw [if_pos hoccupied] at hquiet
      exact absurd hquiet not_quiet_fail
    · rw [if_neg hoccupied] at hquiet ⊢
      cases hset : ctx.os.setId n with
      | some e =>
        rw [hset] at hquiet
        exact absurd hquiet not_quiet_fail
      | none =>
        rw [hset] at hquiet
        dsimp only at hquiet ⊢
        cases htag : ctx.os.setEtag n with
        | some e =>
          rw [htag] at hquiet
          exact absurd hquiet not_quiet_fail
        | none =>
          rw [htag] at hquiet
          exact ⟨hquiet, abs, _, habs, get_set_self, hdir i hi, rfl, rfl⟩

theorem moveFolder_error {r : Pass × Flow} (h : moveFolder ctx n s cloudId path abs = .error r) :
    r.2 ≠ .stop
      ∧ (r.1.out.retryable = true ∨ r.1.out.retryable = s.out.retryable ∧ r.2 ≠ .next) := by
  rw [moveFolder] at h
  split at h
  · cases h
  · split at h
    · split at h
      · cases h
        exact ⟨Flow.noConfusion, Or.inl (Bool.or_true _)⟩
      · split at h
        · cases h
          exact ⟨Flow.noConfusion, Or.inr ⟨rfl, Flow.noConfusion⟩⟩
        · split at h
          · cases h
            exact ⟨Flow.noConfusion, Or.inl (Bool.or_true _)⟩
          · cases h
    · cases h

theorem moveFolder_ok (h : moveFolder ctx n s cloudId path abs = .ok t) :
    t.out.retryable = s.out.retryable := by
  rw [moveFolder] at h
  split at h
  · cases h
    rfl
  · split at h
    · split at h
      · cases h
      · split at h
        · cases h
        · split at h
          · cases h
          · cases h
            rfl
    · cases h
      rfl

theorem makeFolder_error {r : Pass × Flow} (h : makeFolder ctx n s path abs = .error r) :
    r.1.out.retryable = true := by
  rw [makeFolder] at h
  split at h
  · split at h
    · cases h
    · cases h
      exact Bool.or_true _
  · split at h
    · cases h
      exact Bool.or_true _
    · cases h

theorem makeFolder_ok (h : makeFolder ctx n s path abs = .ok t) :
    t.out.retryable = s.out.retryable ∧ ∀ i, t.disk.get abs = some i → i.isDir = true := by
  rw [makeFolder] at h
  cases hi : s.disk.get abs with
  | some i =>
    rw [hi] at h
    dsimp only at h
    split at h
    · rename_i hdir
      cases h
      exact ⟨rfl, fun j hj ↦ Option.some_inj.mp (hi.symm.trans hj) ▸ hdir⟩
    · cases h
  | none =>
    rw [hi] at h
    dsimp only at h
    have hgrows := grows_createDirAll (ctx.os.mkdir n) s.disk abs
    generalize createDirAll (ctx.os.mkdir n) s.disk abs = made at h hgrows
    obtain ⟨d, error⟩ := made
    cases error with
    | some e => cases h
    | none =>
      cases h
      refine ⟨rfl, fun j hj ↦ ?_⟩
      rcases hgrows.news abs j hj with hj | ⟨-, st, rfl⟩
      · exact absurd (hi.symm.trans hj).symm (Option.some_ne_none j)
      · rfl

theorem folderUpserted_counts
    (hquiet : (folderUpserted ctx n s cloudId path etag).1.out.retryable = false) :
    Counts ctx n s (.folderUpserted cloudId path etag)
      (folderUpserted ctx n s cloudId path etag) := by
  have hnot : ¬ FileCallFails ctx n s (.folderUpserted cloudId path etag) := fun h ↦ h.2
  rw [folderUpserted] at hquiet ⊢
  cases habs : folderPath path with
  | none =>
    rw [habs] at hquiet
    refine ⟨(retryable_fail hquiet).1, Flow.noConfusion, fun _ ↦ iff_of_true ?_ hnot⟩
    exact Or.inr (Or.inr (Or.inl habs))
  | some abs =>
    rw [habs] at hquiet
    dsimp only at hquiet ⊢
    cases hmove : moveFolder ctx n s cloudId path abs with
    | error r =>
      rw [hmove] at hquiet
      obtain ⟨hstop, hretryable | ⟨hretryable, hnext⟩⟩ := moveFolder_error hmove
      · exact absurd (hquiet.symm.trans hretryable) Bool.false_ne_true
      · exact ⟨hretryable.symm.trans hquiet, hstop, fun h ↦ absurd h hnext⟩
    | ok t =>
      rw [hmove] at hquiet
      dsimp only at hquiet ⊢
      cases hmake : makeFolder ctx n t path abs with
      | error r =>
        rw [hmake] at hquiet
        exact absurd (hquiet.symm.trans (makeFolder_error hmake)) Bool.false_ne_true
      | ok u =>
        rw [hmake] at hquiet
        obtain ⟨hkept, hdir⟩ := makeFolder_ok hmake
        obtain ⟨hclaim, htaken⟩ := claimFolder_takes s hdir habs hquiet
        refine ⟨?_, Flow.noConfusion, fun _ ↦ iff_of_true (Or.inl htaken) hnot⟩
        exact (moveFolder_ok hmove).symm.trans (hkept.symm.trans hclaim)

theorem folderRemoved_counts (hquiet : (folderRemoved ctx n s cloudId path).out.retryable = false) :
    Counts ctx n s (.folderRemoved cloudId path) (folderRemoved ctx n s cloudId path, .next) := by
  have hnot : ¬ FileCallFails ctx n s (.folderRemoved cloudId path) := fun h ↦ h.2
  have hstays : ∀ s', s'.out.retryable = s.out.retryable → s'.out.retryable = false →
      Answered s (.folderRemoved cloudId path) s' →
      Counts ctx n s (.folderRemoved cloudId path) (s', .next) := fun s' heq hquiet hanswered ↦
    ⟨heq.symm.trans hquiet, Flow.noConfusion, fun _ ↦ iff_of_true hanswered hnot⟩
  rw [folderRemoved] at hquiet ⊢
  by_cases hid : cloudId ∈ ctx.ignoredFolders
  · rw [if_pos hid] at hquiet ⊢
    exact hstays _ rfl hquiet (Or.inr (Or.inl rfl))
  rw [if_neg hid] at hquiet ⊢
  cases hp : s.folders.lookup cloudId with
  | none =>
    rw [hp] at hquiet
    refine hstays s rfl hquiet (Or.inl fun p hp' ↦ ?_)
    exact absurd (hp.symm.trans hp').symm (Option.some_ne_none p)
  | some p =>
    rw [hp] at hquiet
    dsimp only at hquiet ⊢
    by_cases hignored : ctx.ignore.ignores p = true
    · rw [if_pos hignored] at hquiet ⊢
      exact hstays _ rfl hquiet (Or.inr (Or.inl rfl))
    rw [if_neg hignored] at hquiet ⊢
    by_cases hroot : p = []
    · rw [if_pos hroot] at hquiet ⊢
      refine hstays _ (Bool.or_false _) hquiet (Or.inr (Or.inr (Or.inl ?_)))
      exact hp.trans (congrArg some hroot)
    rw [if_neg hroot] at hquiet ⊢
    cases hi : s.disk.get p with
    | none =>
      rw [hi] at hquiet
      dsimp only at hquiet ⊢
      by_cases hblocked : blocked s.disk p = true
      · rw [if_pos hblocked] at hquiet
        exact absurd hquiet not_quiet_fail
      · rw [if_neg hblocked] at hquiet ⊢
        refine hstays _ rfl hquiet (Or.inl fun q hq i hi' ↦ ?_)
        cases hp.symm.trans hq
        exact absurd (hi.symm.trans hi').symm (Option.some_ne_none i)
    | some i =>
      rw [hi] at hquiet
      dsimp only at hquiet ⊢
      by_cases hdir : ¬ i.isDir = true
      · rw [if_pos hdir] at hquiet
        exact absurd hquiet not_quiet_fail
      rw [if_neg hdir] at hquiet ⊢
      cases hrmdir : ctx.os.rmdir n with
      | some e =>
        rw [hrmdir] at hquiet
        exact absurd hquiet not_quiet_fail
      | none =>
        rw [hrmdir] at hquiet
        dsimp only at hquiet ⊢
        by_cases hchild : s.disk.hasChild p = true
        · rw [if_pos hchild] at hquiet ⊢
          rw [detachFolder] at hquiet ⊢
          cases hset : ctx.os.setEtag n with
          | some e =>
            rw [hset] at hquiet
            exact absurd hquiet not_quiet_fail
          | none =>
            rw [hset] at hquiet
            dsimp only at hquiet ⊢
            cases hremove : ctx.os.removeId n with
            | some e =>
              rw [hremove] at hquiet
              exact absurd hquiet not_quiet_fail
            | none =>
              rw [hremove] at hquiet
              refine hstays _ rfl hquiet (Or.inl fun q hq j hj ↦ ?_)
              cases hp.symm.trans hq
              cases get_set_self.symm.trans hj
              exact ⟨rfl, rfl⟩
        · rw [if_neg hchild] at hquiet ⊢
          refine hstays _ rfl hquiet (Or.inl fun q hq j hj ↦ ?_)
          cases hp.symm.trans hq
          cases (get_erase.trans (if_pos rfl)).symm.trans hj

/-! ## Whole passes -/

/-- One change. -/
theorem step_counts (hquiet : (step ctx n s c).1.out.retryable = false) :
    Counts ctx n s c (step ctx n s c) := by
  rw [step] at hquiet ⊢
  cases hcurrent : ctx.os.current n with
  | error e =>
    rw [hcurrent] at hquiet
    cases hquiet
  | ok fresh =>
    rw [hcurrent] at hquiet
    cases fresh with
    | false => cases hquiet
    | true =>
      dsimp only at hquiet ⊢
      unfold applyChange at hquiet ⊢
      by_cases hignored : (declared c).any ctx.ignore.isIgnored = true
      · rw [if_pos hignored] at hquiet ⊢
        refine ⟨hquiet, Flow.noConfusion, fun _ ↦ iff_of_true (Or.inr (Or.inl rfl)) fun hfails ↦ ?_⟩
        exact Bool.false_ne_true (hfails.1.synced.symm.trans hignored)
      · rw [if_neg hignored] at hquiet ⊢
        have happlies : Applies ctx n c := ⟨hcurrent, Bool.eq_false_iff.mpr hignored⟩
        cases c with
        | folderUpserted cloudId path etag => exact folderUpserted_counts hquiet
        | upserted cloudId path size etag => exact upserted_counts happlies hquiet
        | removed cloudId => exact removed_counts happlies hquiet
        | folderRemoved cloudId path => exact folderRemoved_counts hquiet

/-- In a run that ends with no error, and is not to be tried again, every change counts. -/
theorem run_counts {cs : List Change} (herror : (run ctx n cs s).2 = none)
    (hquiet : (run ctx n cs s).1.out.retryable = false) : s.out.retryable = false
      ∧ ∀ m t c cs', During ctx n cs s m t c cs' →
        (step ctx m t c).2 = .next ∧ Counts ctx m t c (step ctx m t c) := by
  induction cs generalizing n s with
  | nil => exact ⟨hquiet, fun _ _ _ _ h ↦ by cases h⟩
  | cons c cs ih =>
    have hstep : (step ctx n s c).2 = .next ∧ Counts ctx n s c (step ctx n s c)
        ∧ run ctx n (c :: cs) s = run ctx (n + 1) cs (step ctx n s c).1 := by
      rw [run] at herror hquiet ⊢
      rcases hr : step ctx n s c with ⟨t, flow⟩
      cases flow with
      | next =>
        rw [hr] at herror hquiet
        have hstep : (step ctx n s c).1.out.retryable = false := by
          rw [hr]
          exact (ih herror hquiet).1
        exact ⟨rfl, hr ▸ step_counts hstep, rfl⟩
      | stop =>
        rw [hr] at hquiet
        have hstep : (step ctx n s c).1.out.retryable = false := by
          rw [hr]
          exact hquiet
        exact absurd (by rw [hr]) (step_counts hstep).goes_on
      | error e =>
        rw [hr] at herror
        exact absurd herror (Option.some_ne_none e)
    obtain ⟨hnext, hcounts, hrun⟩ := hstep
    rw [hrun] at herror hquiet
    refine ⟨hcounts.quiet, fun m t c' cs' hduring ↦ ?_⟩
    cases hduring with
    | here _ _ _ _ => exact ⟨hnext, hcounts⟩
    | later _ hlater => exact (ih herror hquiet).2 m t c' cs' hlater

variable {setting : Setting} {store : Store} {d : Disk} {changes : List Change}
  {seen : Option Fingerprint}

theorem Begins.error (h : Begins setting store d changes seen ctx s) :
    (applyRemembering setting store d changes seen).2.1 = (run ctx 0 (coalesce changes) s).2 := by
  obtain ⟨hsome, hwhole, hnews, folders, hfolders, rfl, rfl⟩ := h
  rw [applyRemembering]
  dsimp only
  rw [if_neg hsome, hwhole]
  dsimp only
  rw [if_neg hnews, hfolders]

/-- **What is behind the cursor**: a pass past which the cursor moves has come to every change of
its batch, and has applied it or left it out for what it says or for what is here, if and only if
no call that was to place or remove a file has failed. -/
theorem answered_iff_calls_succeed
    (hadvances : advances (applyRemembering setting store d changes seen) = true) :
    (∀ ctx s, Begins setting store d changes seen ctx s → ∀ c ∈ coalesce changes,
        ∃ m t cs', During ctx 0 (coalesce changes) s m t c cs')
      ∧ ((∀ ctx s, Begins setting store d changes seen ctx s → ∀ m t c cs',
            During ctx 0 (coalesce changes) s m t c cs' → Answered t c (step ctx m t c).1)
        ↔ ∀ ctx s, Begins setting store d changes seen ctx s → ∀ m t c cs',
            During ctx 0 (coalesce changes) s m t c cs' → ¬ FileCallFails ctx m t c) := by
  have hcounts : ∀ ctx s, Begins setting store d changes seen ctx s → ∀ m t c cs',
      During ctx 0 (coalesce changes) s m t c cs' →
        (step ctx m t c).2 = .next ∧ Counts ctx m t c (step ctx m t c) := by
    intro ctx s hbegins
    obtain ⟨herror, hquiet⟩ := Bool.and_eq_true_iff.mp hadvances
    rw [hbegins.error, Option.isNone_iff_eq_none] at herror
    rw [hbegins.pass, Bool.not_eq_true'] at hquiet
    exact (run_counts herror hquiet).2
  refine ⟨fun ctx s hbegins c hc ↦ ?_, ?_⟩
  · obtain ⟨before, after, hsplit⟩ := List.append_of_mem hc
    rw [hsplit] at hcounts ⊢
    obtain ⟨m, t, hduring⟩ := exists_during_of_next fun m t b cs' hduring ↦
      (hcounts ctx s hbegins m t b cs' hduring).1
    exact ⟨m, t, after, hduring⟩
  refine forall₃_congr fun ctx s hbegins ↦ forall₄_congr fun m t c cs' ↦
    forall_congr' fun hduring ↦ ?_
  obtain ⟨hnext, hcount⟩ := hcounts ctx s hbegins m t c cs' hduring
  exact hcount.answered hnext

/-! ### A disk that is full -/

def bareDisk : Disk := ⟨[([], sampleRoot)]⟩

def bareSetting (os : Os) : Setting := { sampleSetting ⟨[]⟩ with os := os }

def bareCtx (os : Os) : Ctx := ⟨os, (scanned (bareSetting os) sampleStore bareDisk).ignore, [], []⟩

def barePass (os : Os) : Pass :=
  ⟨bareDisk, ∅, ∅, scanned (bareSetting os) sampleStore bareDisk, Applied.default, []⟩

/-- No placeholder can be made. -/
def fullOs : Os := { sampleOs with place := fun _ ↦ .error "No space left on device (os error 28)" }

theorem bare_begins (os : Os) : Begins (bareSetting os) sampleStore bareDisk
    [.upserted "X" "x" 4 none] none (bareCtx os) (barePass os) :=
  ⟨List.cons_ne_nil _ _, rfl, fun h ↦ Option.some_ne_none _ h.symm, ⟨∅, []⟩, rfl, rfl, rfl⟩

/-- The cursor moves past an upsert of which no file has been made. -/
theorem full_advances :
    advances (applyRemembering (bareSetting fullOs) sampleStore bareDisk
        [.upserted "X" "x" 4 none] none) = true
      ∧ ¬ ∀ ctx s, Begins (bareSetting fullOs) sampleStore bareDisk [.upserted "X" "x" 4 none] none
          ctx s → ∀ m t c cs', During ctx 0 (coalesce [.upserted "X" "x" 4 none]) s m t c cs' →
          Answered t c (step ctx m t c).1 := by
  refine ⟨rfl, fun h ↦ ?_⟩
  have hanswered := h _ _ (bare_begins fullOs) _ _ _ _ (.here 0 (.upserted "X" "x" 4 none) [] _)
  refine not_answered (.place ["x"] "X" bareDisk) ?_ ?_ ?_ ?_ hanswered
  · rintro ⟨abs, i, habs, hi, -⟩
    cases habs
    cases hi
  · rintro (h | h)
    · cases h
    · exact absurd h (by decide)
  · rfl
  · rfl

/-- Where there is room, the file is there. -/
theorem room_answered : Answered (barePass sampleOs) (.upserted "X" "x" 4 none)
    (step (bareCtx sampleOs) 0 (barePass sampleOs) (.upserted "X" "x" 4 none)).1 := by
  have hadvances : advances (applyRemembering (bareSetting sampleOs) sampleStore bareDisk
    [.upserted "X" "x" 4 none] none) = true := rfl
  refine (answered_iff_calls_succeed hadvances).2.mpr ?_ _ _ (bare_begins sampleOs) _ _ _ _
    (.here 0 (.upserted "X" "x" 4 none) [] _)
  intro ctx s hbegins m t c cs' hduring hfails
  obtain ⟨rfl, rfl⟩ := (bare_begins sampleOs).unique hbegins
  have hchanges : coalesce [.upserted "X" "x" 4 none] = [.upserted "X" "x" 4 none] := rfl
  rw [hchanges] at hduring
  rcases hduring with _ | ⟨-, _ | _⟩
  obtain ⟨-, abs, t, d, e, habs, -, hmove, -, hplace⟩ := hfails
  cases habs
  cases hmove
  cases hplace

end HydrationAPI.Client.Delta
