import HydrationAPI.Graph.SharedDrive

/-!
# Tags that name versions of one's own

A tag that the sink has remembered, or that is recorded on a file, names a version that is no longer
there or that this machine has placed or written. Other devices cannot change that: what they write
is a new version, with tags that nobody has yet. Nor can this machine, as long as a tag it learns of
is that of a version it has just written; a tag that is read back later is such a tag only if nobody
has written in between.
-/

namespace HydrationAPI.Graph

open Dialogue Errand
open Client (RelPath)
open Client.Upload (Known Uploaded)

variable {V : Versions} {tags : TagSource} {w w' : SharedDrive} {key : ObjectKey}

/-! ## Versions -/

/-- Whatever a version of the past is in the later world, it is this machine's own there if it was
in the earlier one. -/
structure SharedDrive.Later (w w' : SharedDrive) : Prop where
  clock : w.clock ≤ w'.clock
  own : ∀ key v, v ≤ w.clock → w'.version key = some v → (w.version key = some v → w.Own key v) →
    w'.Own key v

/-- Nothing but what is recorded has changed. -/
theorem SharedDrive.Later.of_eq (hclock : w'.clock = w.clock) (hversion : w'.version = w.version)
    (hplaced : w'.placed = w.placed) (hwrote : w'.wrote = w.wrote) : w.Later w' where
  clock := hclock.ge
  own key v _ hv h := by
    rw [SharedDrive.Own, hplaced, hwrote]
    exact h (hversion ▸ hv)

theorem SharedDrive.Later.refl (w : SharedDrive) : w.Later w := .of_eq rfl rfl rfl rfl

theorem SharedDrive.Later.trans {w'' : SharedDrive} (h : w.Later w') (h' : w'.Later w'') :
    w.Later w'' where
  clock := h.clock.trans h'.clock
  own key v hle hv hown :=
    h'.own key v (hle.trans h.clock) hv fun hv' ↦ h.own key v hle hv' hown

/-- What another device has written is not a version of the past. -/
theorem SharedDrive.later_foreign (w : SharedDrive) (key : ObjectKey) : w.Later (w.foreign key) where
  clock := Nat.le_succ _
  own k v hle hv h := by
    by_cases hk : k = key
    · subst hk
      have hnew : w.clock + 1 = v := by simpa using hv
      omega
    · exact h (by simpa [Function.update_of_ne hk] using hv)

theorem SharedDrive.later_delete (w : SharedDrive) (key : ObjectKey) : w.Later (w.delete key) where
  clock := le_rfl
  own k v _ hv h := by
    by_cases hk : k = key
    · subst hk
      simp at hv
    · exact h (by simpa [Function.update_of_ne hk] using hv)

/-- What has been placed is not older than what was placed before, and not newer than what is there.
-/
theorem SharedDrive.later_place {key : ObjectKey} {v : ℕ} {tag : String}
    (hnewer : ∀ v', w.placed key = some v' → v' ≤ v)
    (hthere : ∀ v', w.version key = some v' → v ≤ v') : w.Later (w.place key v tag) where
  clock := le_rfl
  own k u _ hu h := by
    rcases h hu with hplaced | hwrote
    · left
      by_cases hk : k = key
      · subst hk
        have heq : v = u := le_antisymm (hthere u hu) (hnewer u hplaced)
        rw [place_placed, Function.update_self, heq]
      · rwa [place_placed, Function.update_of_ne hk]
    · exact Or.inr hwrote

/-- What this machine writes is a new version, and its own. -/
theorem SharedDrive.later_commit (w : SharedDrive) (key key' : ObjectKey) :
    w.Later (w.commit key key') where
  clock := Nat.le_succ _
  own k v hle hv h := by
    by_cases hk' : k = key'
    · subst hk'
      have hnew : w.clock + 1 = v := by simpa using hv
      omega
    · have hv : Function.update w.version key none k = some v := by
        simpa [Function.update_of_ne hk'] using hv
      by_cases hk : k = key
      · subst hk
        simp at hv
      · rw [Function.update_of_ne hk] at hv
        rw [Own, commit_placed, commit_wrote, Function.update_of_ne hk']
        exact h hv

theorem SharedDrive.later_keep (w : SharedDrive) (key : ObjectKey) : w.Later (w.keep key) where
  clock := le_rfl
  own k v _ hv h := by
    by_cases hk : k = key
    · subst hk
      right
      rw [keep_wrote, Function.update_self]
      exact hv
    · rw [Own, keep_placed, keep_wrote, Function.update_of_ne hk]
      exact h hv

/-! ## What is known of an object -/

namespace SharedDrive

/-- Unless another device has written since this machine last heard of the object, the version that
is there is the one it last wrote. -/
def Fresh (w : SharedDrive) (key : ObjectKey) : Prop :=
  w.news key = false → ∀ v, w.version key = some v → w.wrote key = some v

/-- Unless another device has written since, the version that is there is this machine's own. -/
def Seen (w : SharedDrive) (key : ObjectKey) : Prop :=
  w.news key = false → ∀ v, w.version key = some v → w.Own key v

/-- Unless another device has written since, no other version than this one is there. -/
def At (w : SharedDrive) (key : ObjectKey) (v : ℕ) : Prop :=
  w.news key = false → ∀ v', w.version key = some v' → v' = v

theorem Fresh.seen (h : w.Fresh key) : w.Seen key := fun hnews v hv ↦ Or.inr (h hnews v hv)

theorem fresh_commit (w : SharedDrive) (key key' : ObjectKey) : (w.commit key key').Fresh key' := by
  intro _ v hv
  have hv : some (w.clock + 1) = some v := by simpa using hv
  rw [commit_wrote, Function.update_self]
  exact hv

theorem fresh_keep (w : SharedDrive) (key : ObjectKey) : (w.keep key).Fresh key := by
  intro _ v hv
  rw [keep_wrote, Function.update_self]
  exact hv

end SharedDrive

/-- Of the versions the tag names, none is there but this machine's own. -/
def TagOk (V : Versions) (w : SharedDrive) (key : ObjectKey) (tag : String) : Prop :=
  ∀ raw v, Carried tag raw → raw ∈ V.tags v → v ≤ w.clock ∧ (w.version key = some v → w.Own key v)

theorem TagOk.later {tag : String} (h : TagOk V w key tag) (hlater : w.Later w') :
    TagOk V w' key tag := fun raw v hraw hv ↦
  have ⟨hle, hown⟩ := h raw v hraw hv
  ⟨hle.trans hlater.clock, fun hthere ↦ hlater.own key v hle hthere hown⟩

/-- What the tag has in it is a tag of the version. -/
def TagOf (V : Versions) (v : ℕ) (tag : String) : Prop := ∀ raw, Carried tag raw → raw ∈ V.tags v

/-- The tag of a version of one's own. -/
theorem TagOf.ok {v : ℕ} {tag : String} (h : TagOf V v tag) (hle : v ≤ w.clock)
    (hown : w.Own key v) : TagOk V w key tag := fun raw v' hraw hv' ↦ by
  obtain rfl := V.distinct v v' raw (h raw hraw) hv'
  exact ⟨hle, fun _ ↦ hown⟩

/-- What is recorded of an upload names the version this machine last wrote. -/
def Names (V : Versions) (w : SharedDrive) (u : Uploaded) : Prop :=
  ∀ t, u.etag = some t →
    ∃ key v, keyOfCloudId u.cloudId = some key ∧ w.wrote key = some v ∧ TagOf V v t

/-- Every tag in a table is harmless. -/
def TableOk (V : Versions) (w : SharedDrive) (table : String → Option String) : Prop :=
  ∀ cloudId tag key, table cloudId = some tag → keyOfCloudId cloudId = some key → TagOk V w key tag

theorem TableOk.later {table : String → Option String} (h : TableOk V w table)
    (hlater : w.Later w') : TableOk V w' table :=
  fun cloudId tag key htag hkey ↦ (h cloudId tag key htag hkey).later hlater

/-- **What holds of the drive all the time**: nothing has been overwritten blind, what is recorded
on the files is harmless, and a tag that is still to be read back will be that of a version written
here, unless another device writes before. -/
structure Calm (V : Versions) (w : SharedDrive) : Prop where
  sighted : ¬ w.blind
  recorded : TableOk V w w.attr
  owed : ∀ key, w.owed = some key → w.Fresh key

/-- The same, with what the sink has remembered. -/
structure Base (V : Versions) (s : KnownTags) (w : SharedDrive) : Prop where
  calm : Calm V w
  known : TableOk V w s.lookup

/-! ## What others do -/

theorem later_elsewhere (h : Elsewhere V w w') : w.Later w' := by
  match h with
  | .foreign key => exact w.later_foreign key
  | .deleted key => exact w.later_delete key
  | .placed _ _ _ _ hnewer hthere _ => exact SharedDrive.later_place hnewer hthere
  | .forgotten cloudId => exact .of_eq rfl rfl rfl rfl

/-- What others leave alone. -/
theorem elsewhere_keeps (h : Elsewhere V w w') : w'.wrote = w.wrote ∧ w'.owed = w.owed
    ∧ w'.sessions = w.sessions ∧ w'.offered = w.offered ∧ w'.blind = w.blind := by
  match h with
  | .foreign _ | .deleted _ | .placed .. | .forgotten _ => exact ⟨rfl, rfl, rfl, rfl, rfl⟩

/-- What is not there any more was not written by others, unless that is news. -/
theorem elsewhere_version (h : Elsewhere V w w') (hnews : w'.news key = false) :
    w.news key = false ∧ ∀ v, w'.version key = some v → w.version key = some v := by
  match h with
  | .foreign k =>
    have hne : key ≠ k := by
      rintro rfl
      simp at hnews
    simp only [SharedDrive.foreign_version, SharedDrive.foreign_news, Function.update_of_ne hne]
      at hnews ⊢
    exact ⟨hnews, fun _ hv ↦ hv⟩
  | .deleted k =>
    refine ⟨hnews, fun v hv ↦ ?_⟩
    by_cases hk : key = k
    · subst hk
      simp at hv
    · simpa [Function.update_of_ne hk] using hv
  | .placed .. | .forgotten _ => exact ⟨hnews, fun _ hv ↦ hv⟩

theorem SharedDrive.Fresh.elsewhere (h : w.Fresh key) (hothers : Elsewhere V w w') :
    w'.Fresh key := fun hnews v hv ↦ by
  have ⟨hnews, hversion⟩ := elsewhere_version hothers hnews
  rw [(elsewhere_keeps hothers).1]
  exact h hnews v (hversion v hv)

theorem SharedDrive.Seen.elsewhere (h : w.Seen key) (hothers : Elsewhere V w w') :
    w'.Seen key := fun hnews v hv ↦
  have ⟨hnews, hversion⟩ := elsewhere_version hothers hnews
  (later_elsewhere hothers).own key v (w.committed key v (hversion v hv)) hv fun hv ↦ h hnews v hv

theorem SharedDrive.At.elsewhere {v : ℕ} (h : w.At key v) (hothers : Elsewhere V w w') :
    w'.At key v := fun hnews v' hv ↦
  have ⟨hnews, hversion⟩ := elsewhere_version hothers hnews
  h hnews v' (hversion v' hv)

theorem Names.elsewhere {u : Uploaded} (h : Names V w u) (hothers : Elsewhere V w w') :
    Names V w' u := by
  rw [Names, (elsewhere_keeps hothers).1]
  exact h

/-- What is recorded when a version is placed are tags of it. -/
theorem Calm.elsewhere (h : Calm V w) (hothers : Elsewhere V w w') : Calm V w' where
  sighted := by
    rw [(elsewhere_keeps hothers).2.2.2.2]
    exact h.sighted
  recorded := by
    have hkept := h.recorded.later (later_elsewhere hothers)
    match hothers with
    | .foreign _ | .deleted _ => exact hkept
    | .placed key v tag hle hnewer hthere htag =>
      intro cloudId t k ht hk
      by_cases hid : cloudId = key.toCloudId
      · subst hid
        rw [keyOfCloudId_toCloudId] at hk
        have ht : tag = t := by simpa using ht
        subst ht
        obtain rfl := Option.some_inj.mp hk
        exact TagOf.ok htag hle (Or.inl (by simp))
      · refine hkept cloudId t k ?_ hk
        simpa [Function.update_of_ne hid] using ht
    | .forgotten id =>
      intro cloudId t k ht hk
      by_cases hid : cloudId = id
      · subst hid
        simp at ht
      · refine hkept cloudId t k ?_ hk
        simpa [Function.update_of_ne hid] using ht
  owed key hkey := by
    rw [(elsewhere_keeps hothers).2.1] at hkey
    exact (h.owed key hkey).elsewhere hothers

theorem Base.elsewhere {s : KnownTags} (h : Base V s w) (hothers : Elsewhere V w w') :
    Base V s w' := ⟨h.calm.elsewhere hothers, h.known.later (later_elsewhere hothers)⟩

/-! ## What is answered -/

section

variable {q : Query} {a : q.Answer} {accepts : Reply → Bool} {drive : DriveId}
  {answer : Except IoError Reply}

/-- At most a tag is owed after a write has been answered. -/
theorem Told.owing (h : Told V tags accepts drive key answer w w') :
    ∃ o, w' = w.owing o ∧ ∀ k, o = some k → k = key := by
  rcases h with ⟨-, rfl⟩ | ⟨_, item, _, _, _, _, _, _, _, rfl⟩
  · exact ⟨none, rfl, fun k hk ↦ absurd hk.symm (Option.some_ne_none k)⟩
  · refine ⟨_, rfl, fun k hk ↦ ?_⟩
    split at hk
    · exact (Option.some_inj.mp hk).symm
    · exact absurd hk.symm (Option.some_ne_none k)

/-- What any answer leaves of what was known: no version of the past changes hands, and a tag is
only owed for an object that has just been written. -/
structure Answered (w w' : SharedDrive) : Prop where
  later : w.Later w'
  attr : w'.attr = w.attr
  owed : ∀ key, w'.owed = some key → w'.Fresh key ∨ w' = w

theorem Answered.refl (w : SharedDrive) : Answered w w :=
  ⟨.refl w, rfl, fun _ _ ↦ Or.inr rfl⟩

/-- After a change that takes no version away. -/
theorem Answered.owing {u : SharedDrive} {o : Option ObjectKey} (hlater : w.Later u)
    (hattr : u.attr = w.attr) (hfresh : ∀ k, o = some k → u.Fresh k) : Answered w (u.owing o) where
  later := hlater.trans (.of_eq rfl rfl rfl rfl)
  attr := hattr
  owed k hk := Or.inl (hfresh k hk)

theorem Answered.owing_none {u : SharedDrive} (hlater : w.Later u) (hattr : u.attr = w.attr) :
    Answered w (u.owing none) :=
  .owing hlater hattr fun k hk ↦ absurd hk.symm (Option.some_ne_none k)

theorem Answered.told {u : SharedDrive} (h : Told V tags accepts drive key answer u w')
    (hlater : w.Later u) (hattr : u.attr = w.attr) (hfresh : u.Fresh key) : Answered w w' := by
  obtain ⟨o, rfl, ho⟩ := h.owing
  exact .owing hlater hattr fun k hk ↦ ho k hk ▸ hfresh

theorem later_setSession (u : SharedDrive) (url : String)
    (session : Option (SessionTarget × Bool)) : u.Later (u.setSession url session) :=
  .of_eq rfl rfl rfl rfl

/-- A fragment. -/
theorem answered_fragment {url : String} {last : Bool}
    (h : FragmentAnswers V tags url last w answer w') : Answered w w' := by
  have hcommitted : ∀ k k', ((w.commit k k').setSession url none).Fresh k' := fun k k' ↦
    SharedDrive.fresh_commit w k k'
  rw [FragmentAnswers] at h
  split at h
  · obtain ⟨-, rfl⟩ := h
    exact .owing_none (.refl w) rfl
  · rename_i target tail _
    rcases h with ⟨-, rfl⟩ | ⟨-, htarget⟩
    · exact .owing_none (later_setSession w _ _) rfl
    · match target with
      | .item k =>
        obtain ⟨v, k', -, -, -, htold⟩ := htarget
        exact .told htold ((w.later_commit k k').trans (later_setSession _ _ _)) rfl
          (hcommitted k k')
      | .path d =>
        obtain ⟨k, -, -, htold⟩ := htarget
        exact .told htold ((w.later_commit k k).trans (later_setSession _ _ _)) rfl
          (hcommitted k k)

theorem answered_session {target : SessionTarget}
    (h : DriveAnswers.SessionAnswers target w answer w') : Answered w w' := by
  rcases h with ⟨-, rfl⟩ | ⟨_, _, url, _, _, _, _, rfl⟩
  · exact .owing_none (.refl w) rfl
  · exact .owing_none (later_setSession w _ _) rfl

/-- Every answer. -/
theorem answered (h : DriveAnswers V tags q w a w') : Answered w w' := by
  match q with
  | .send (.metadata k) =>
    rcases h with ⟨-, rfl⟩ | ⟨_, _, _, _, _, _, _, _, rfl⟩
    · exact .refl w'
    · exact ⟨.of_eq rfl rfl rfl rfl, rfl, fun k' hk' ↦ absurd hk'.symm (Option.some_ne_none k')⟩
  | .send (.pathMetadata d rel) =>
    rcases h with ⟨-, rfl⟩ | ⟨_, item, k, _, _, _, _, _, _, _, ⟨-, rfl⟩ | ⟨-, rfl⟩⟩
    · exact .owing_none (.refl w) rfl
    · refine .owing (w.later_keep k) rfl fun k' hk' ↦ ?_
      split at hk'
      · exact Option.some_inj.mp hk' ▸ w.fresh_keep k
      · exact absurd hk'.symm (Option.some_ne_none k')
    · exact .owing_none (.refl w) rfl
  | .send (.putItem k t body) =>
    rcases h with ⟨-, rfl⟩ | ⟨v, k', -, -, -, -, htold⟩
    · exact .owing_none (.refl w) rfl
    · exact .told htold (w.later_commit k k') rfl (w.fresh_commit k k')
  | .send (.patch k t name parent) =>
    rcases h with ⟨-, rfl⟩ | ⟨v, -, -, htold | htold⟩
    · exact .owing_none (.refl w) rfl
    · exact .told htold (w.later_keep k) rfl (w.fresh_keep k)
    · exact .told htold (w.later_commit k k) rfl (w.fresh_commit k k)
  | .send (.putPath d rel body) =>
    have hoffer : w.Later (w.offer body) := .of_eq rfl rfl rfl rfl
    rcases h with ⟨-, rfl⟩ | ⟨k, -, -, htold⟩
    · exact .owing_none hoffer rfl
    · exact .told htold (hoffer.trans ((w.offer body).later_commit k k)) rfl
        ((w.offer body).fresh_commit k k)
  | .send (.itemSession k) => exact answered_session h
  | .send (.pathSession d rel) => exact answered_session h
  | .send (.fragment url offset stop total bytes) => exact answered_fragment h
  | .send (.cancel url) => exact h ▸ .owing_none (later_setSession w url none) rfl
  | .send (.probe url) => exact h ▸ .owing_none (.refl w) rfl
  | .send (.children k) => exact h ▸ .owing_none (.refl w) rfl
  | .send (.delete k t) =>
    rcases h with rfl | rfl
    · exact .owing_none (.refl w) rfl
    · exact .owing_none (w.later_delete k) rfl
  | .idAt _ | .markAt _ | .isDir _ | .open' _ | .opened | .current .. | .readWhole
  | .readExactAt .. => exact h ▸ .refl w

/-- What is asked overwrites no version but this machine's own. -/
def Harmless (V : Versions) : Query → SharedDrive → SharedDrive → Prop
  | .send (.putItem key ifMatch _), w, _ | .send (.patch key ifMatch _ _), w, _ =>
    ∀ v, w.version key = some v → ifMatch ∈ V.tags v → w.Own key v
  | .send (.fragment url _ stop total _), w, w' => ∀ key tail,
    w.sessions url = some (.item key, tail) → (tail || decide (stop + 1 = total)) = true →
      w.clock < w'.clock → ∀ v, w.version key = some v → w.Own key v
  | _, _, _ => True

theorem not_blind_commit {k k' : ObjectKey} (hw : ¬ w.blind)
    (hown : ∀ v, w.version k = some v → w.Own k v) : ¬ (w.commit k k').blind := by
  rintro (hblind | ⟨v, hv, hforeign⟩)
  · exact hw hblind
  · exact hforeign (hown v hv)

theorem Told.blind (h : Told V tags accepts drive key answer w w') (hw : ¬ w.blind) :
    ¬ w'.blind := by
  obtain ⟨o, rfl, -⟩ := h.owing
  exact hw

theorem Told.clock (h : Told V tags accepts drive key answer w w') : w'.clock = w.clock := by
  obtain ⟨o, rfl, -⟩ := h.owing
  rfl

theorem sighted_fragment {url : String} {last : Bool}
    (h : FragmentAnswers V tags url last w answer w') (hw : ¬ w.blind)
    (hown : ∀ k tail, w.sessions url = some (.item k, tail) → (tail || last) = true →
      w.clock < w'.clock → ∀ v, w.version k = some v → w.Own k v) : ¬ w'.blind := by
  rw [FragmentAnswers] at h
  split at h
  · obtain ⟨-, rfl⟩ := h
    exact hw
  · rename_i target tail hsession
    rcases h with ⟨-, rfl⟩ | ⟨hlast, htarget⟩
    · exact hw
    · match target with
      | .item k =>
        obtain ⟨v, k', -, -, -, htold⟩ := htarget
        have hclock : w.clock < w'.clock := by
          rw [htold.clock]
          exact Nat.lt_succ_self _
        have hcommit : ¬ (w.commit k k').blind :=
          not_blind_commit hw (hown k tail hsession hlast hclock)
        exact htold.blind hcommit
      | .path d =>
        obtain ⟨k, hnone, -, htold⟩ := htarget
        have hcommit : ¬ (w.commit k k).blind := not_blind_commit hw fun v hv ↦
          absurd (hnone.symm.trans hv).symm (Option.some_ne_none v)
        exact htold.blind hcommit

/-- **No answer to a harmless question means that something was overwritten blind.** -/
theorem sighted_answered (h : DriveAnswers V tags q w a w') (hharmless : Harmless V q w w')
    (hw : ¬ w.blind) : ¬ w'.blind := by
  match q with
  | .send (.metadata k) =>
    rcases h with ⟨-, rfl⟩ | ⟨_, _, _, _, _, _, _, _, rfl⟩ <;> exact hw
  | .send (.pathMetadata d rel) =>
    rcases h with ⟨-, rfl⟩ | ⟨_, item, k, _, _, _, _, _, _, _, ⟨-, rfl⟩ | ⟨-, rfl⟩⟩ <;> exact hw
  | .send (.putItem k t body) =>
    rcases h with ⟨-, rfl⟩ | ⟨v, k', hv, ht, -, -, htold⟩
    · exact hw
    · refine htold.blind (not_blind_commit hw fun v' hv' ↦ ?_)
      obtain rfl := Option.some_inj.mp (hv.symm.trans hv')
      exact hharmless v hv ht
  | .send (.patch k t name parent) =>
    rcases h with ⟨-, rfl⟩ | ⟨v, hv, ht, htold | htold⟩
    · exact hw
    · have hkeep : ¬ (w.keep k).blind := hw
      exact htold.blind hkeep
    · refine htold.blind (not_blind_commit hw fun v' hv' ↦ ?_)
      obtain rfl := Option.some_inj.mp (hv.symm.trans hv')
      exact hharmless v hv ht
  | .send (.putPath d rel body) =>
    rcases h with ⟨-, rfl⟩ | ⟨k, hnone, -, htold⟩
    · exact hw
    · have hoffer : ¬ (w.offer body).blind := hw
      exact htold.blind (not_blind_commit hoffer fun v hv ↦ absurd (hnone.symm.trans hv).symm
        (Option.some_ne_none v))
  | .send (.itemSession k) | .send (.pathSession d rel) =>
    rcases h with ⟨-, rfl⟩ | ⟨_, _, url, _, _, _, _, rfl⟩ <;> exact hw
  | .send (.fragment url offset stop total bytes) => exact sighted_fragment h hw hharmless
  | .send (.cancel url) | .send (.probe url) | .send (.children k) => exact h ▸ hw
  | .send (.delete k t) => rcases h with rfl | rfl <;> exact hw
  | .idAt _ | .markAt _ | .isDir _ | .open' _ | .opened | .current .. | .readWhole
  | .readExactAt .. => exact h ▸ hw

theorem Calm.answered (h : Calm V w) (ha : DriveAnswers V tags q w a w')
    (hharmless : Harmless V q w w') : Calm V w' := by
  have hleft := Graph.answered ha
  refine ⟨sighted_answered ha hharmless h.sighted, ?_, fun key hkey ↦ ?_⟩
  · rw [hleft.attr]
    exact h.recorded.later hleft.later
  · rcases hleft.owed key hkey with hfresh | rfl
    · exact hfresh
    · exact h.owed key hkey

theorem Base.answered {s : KnownTags} (h : Base V s w) (ha : DriveAnswers V tags q w a w')
    (hharmless : Harmless V q w w') : Base V s w' :=
  ⟨h.calm.answered ha hharmless, h.known.later (Graph.answered ha).later⟩

end

end HydrationAPI.Graph
