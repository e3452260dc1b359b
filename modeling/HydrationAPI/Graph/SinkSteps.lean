import HydrationAPI.Graph.SinkRules

/-!
# What the procedures of the sink keep

One statement for each procedure of an upload and of a rename, in the order in which they call each
other. What is carried through a session is the session: its last fragment has not been sent unless
the object has been read, and once it has been read nobody else has written there unless that is
news.
-/

namespace HydrationAPI.Graph

open Dialogue Errand
open Client (Attr RelPath)
open Client.Upload (Known Uploaded)

namespace GraphSink

variable {V : Versions} {tags : TagSource} {cfg : SinkConfig} {s : KnownTags}
  {w w' : SharedDrive} {key : ObjectKey} {drive : DriveId} {P : SharedDrive → Prop}

/-! ## The local file -/

/-- The state is as it was, and so is what is known of the drive. -/
def Same {α : Type} (s : KnownTags) (P : SharedDrive → Prop) (_ : α) (s' : KnownTags)
    (w : SharedDrive) : Prop :=
  s' = s ∧ P w

theorem lasts_same {α : Type} (hP : ∀ w w', Elsewhere V w w' → P w → P w') :
    Lasts V (Same s P : α → KnownTags → SharedDrive → Prop) :=
  fun _ _ w w' hothers h ↦ ⟨h.1, hP w w' hothers h.2⟩

section

variable (hP : ∀ w w', Elsewhere V w w' → P w → P w') (hw : Base V s w) (h : P w)
include hP hw h

theorem keeps_isPlaceholder (path : RelPath) :
    Keeps V tags (Same s P) (isPlaceholder path) s w := by
  refine keeps_local (fun _ _ _ ha ↦ ha) hP hw h fun mark v hv hpv ↦ ?_
  match mark with
  | .unreadable e => exact keeps_throw (lasts_same hP) hv
  | .absent => exact keeps_pure (lasts_same hP) hv ⟨rfl, hpv⟩
  | .text _ | .binary _ => exact keeps_pure (lasts_same hP) hv ⟨rfl, hpv⟩

theorem keeps_openFile (path : RelPath) : Keeps V tags (Same s P) (openFile path) s w :=
  keeps_local (fun _ _ _ ha ↦ ha) hP hw h fun _ _ hv hpv ↦
    keeps_lift (lasts_same hP) hv fun _ _ ↦ ⟨rfl, hpv⟩

theorem keeps_snapshot : Keeps V tags (Same s P) snapshot s w :=
  keeps_local (fun _ _ _ ha ↦ ha) hP hw h fun _ _ hv hpv ↦
    keeps_lift (lasts_same hP) hv fun _ _ ↦ ⟨rfl, hpv⟩

theorem keeps_readWhole : Keeps V tags (Same s P) readWhole s w :=
  keeps_local (fun _ _ _ ha ↦ ha) hP hw h fun _ _ hv hpv ↦
    keeps_lift (lasts_same hP) hv fun _ _ ↦ ⟨rfl, hpv⟩

theorem keeps_readExactAt (offset len : ℕ) :
    Keeps V tags (Same s P) (readExactAt offset len) s w :=
  keeps_local (fun _ _ _ ha ↦ ha) hP hw h fun _ _ hv hpv ↦
    keeps_lift (lasts_same hP) hv fun _ _ ↦ ⟨rfl, hpv⟩

theorem keeps_unchanged (path : RelPath) (snap : Snapshot) :
    Keeps V tags (Same s P) (unchanged path snap) s w := by
  have hlasts : Lasts V (Same s P : Unit → KnownTags → SharedDrive → Prop) := lasts_same hP
  refine keeps_bind hlasts (keeps_isPlaceholder hP hw h path) fun placeholder s' v hv hsame ↦ ?_
  obtain ⟨rfl, hpv⟩ := hsame
  split
  · exact keeps_throw hlasts hv
  · refine keeps_local (fun _ _ _ ha ↦ ha) hP hv hpv fun now u hu hpu ↦ ?_
    cases now with
    | error e => exact keeps_throw hlasts hu
    | ok now =>
      dsimp only
      cases difference snap now with
      | some e => exact keeps_throw hlasts hu
      | none => exact keeps_pure hlasts hu ⟨rfl, hpu⟩

theorem keeps_judgeFile (path : RelPath) : Keeps V tags (Same s P) (judgeFile path) s w := by
  have hlasts : Lasts V (Same s P : Snapshot → KnownTags → SharedDrive → Prop) := lasts_same hP
  refine keeps_bind hlasts (keeps_openFile hP hw h path) fun _ s' v hv ⟨hs, hpv⟩ ↦ ?_
  subst hs
  refine keeps_bind hlasts (keeps_isPlaceholder hP hv hpv path) fun placeholder s u hu ⟨hs, hpu⟩ ↦ ?_
  subst hs
  split
  · exact keeps_throw hlasts hu
  · exact keeps_snapshot hP hu hpu

end

/-! ## The simple form -/

/-- What one write attempt settled on names the version written. -/
def WrittenOwn (V : Versions) (r : Written) (_ : KnownTags) (w : SharedDrive) : Prop :=
  ∀ u, r = .done u → Names V w u

theorem lasts_writtenOwn : Lasts V (WrittenOwn V) :=
  fun _ _ _ _ hothers h u hu ↦ (h u hu).elsewhere hothers

theorem keeps_done {u : Uploaded} (hw : Base V s w) (h : Names V w u) :
    Keeps V tags (WrittenOwn V) (pure (.done u)) s w :=
  keeps_pure lasts_writtenOwn hw fun _ hu ↦ Written.done.inj hu ▸ h

theorem keeps_gone (hw : Base V s w) : Keeps V tags (WrittenOwn V) (pure .gone) s w :=
  keeps_pure lasts_writtenOwn hw fun _ hu ↦ by cases hu

/-- What a reply that accepts a write says is said of the version written. -/
def Accepted (V : Versions) (tags : TagSource) (drive : DriveId) (reply : Reply) (_ : KnownTags)
    (w : SharedDrive) : Prop :=
  reply.success = true → Reported V tags drive reply.item w

theorem lasts_accepted : Lasts V (Accepted V tags drive) :=
  fun _ _ _ _ hothers h hsuccess ↦ (h hsuccess).elsewhere hothers

/-- What has just been committed was written here. -/
theorem wrote_commit (u : SharedDrive) (key key' : ObjectKey) :
    ∀ v, (u.commit key key').version key' = some v → (u.commit key key').wrote key' = some v := by
  intro v hv
  have hv : some (u.clock + 1) = some v := by simpa using hv
  rw [SharedDrive.commit_wrote, Function.update_self]
  exact hv

theorem wrote_keep (u : SharedDrive) (key : ObjectKey) :
    ∀ v, (u.keep key).version key = some v → (u.keep key).wrote key = some v := by
  intro v hv
  rw [SharedDrive.keep_wrote, Function.update_self]
  exact hv

/-- **A `PUT` at an object overwrites what is one's own**, and what it settles on is what was
written. -/
theorem keeps_putAtItem {cloudId : String} (body : List UInt8) (hw : Base V s w)
    (hkey : keyOfCloudId cloudId = some key) :
    Keeps V cfg.tags (WrittenOwn V) (putAtItem cfg key cloudId body) s w := by
  refine meets_state ?_
  split
  · exact keeps_throw lasts_writtenOwn hw
  · rename_i raw hraw
    have hput : Keeps V cfg.tags (Accepted V cfg.tags key.drive) (call (.putItem key raw body)) s w := by
      refine keeps_send (P := fun _ ↦ True) lasts_accepted (fun _ _ _ h ↦ h) ?_
        (fun _ _ _ _ _ _ _ _ ↦ trivial) ?_ _ hw trivial
      · exact fun v a v' hv _ _ _ n hn hmem ↦ hv.own hkey hraw hn hmem
      · rintro v reply v' - - (⟨hrefused, -⟩ | ⟨n, key', -, -, -, -, htold⟩) - hsuccess
        · exact absurd (hrefused reply rfl) (by rw [hsuccess]; decide)
        · exact htold.reported hsuccess (wrote_commit v key key')
    refine keeps_bind lasts_writtenOwn hput fun reply s v hv hreply ↦ ?_
    split
    · rename_i hsuccess
      exact keeps_bind lasts_writtenOwn (keeps_settle hv (hreply hsuccess)) fun u s' v' hv' hu ↦
        keeps_done hv' hu
    · split
      · exact keeps_gone hv
      · exact keeps_throw lasts_writtenOwn hv

/-- What is found at a name and is what was to be sent counts as written. -/
theorem keeps_reconcileByContent {rel : String} {body : List UInt8} (hw : Base V s w)
    (hoffered : w.offered = some body) :
    Keeps V cfg.tags (fun r _ w ↦ ∀ u, r = some u → Names V w u)
      (reconcileByContent cfg drive rel ⟨body.length, quickxorOf body⟩) s w := by
  have hlasts : Lasts V fun (r : Option Uploaded) _ w ↦ ∀ u, r = some u → Names V w u :=
    fun _ _ _ _ hothers h u hu ↦ (h u hu).elsewhere hothers
  have hfound : Keeps V cfg.tags (fun reply _ w ↦ reply.success = true → ∀ item,
      reply.item = .ok item → isSent item rel ⟨body.length, quickxorOf body⟩ = true →
        Reported V cfg.tags drive reply.item w) (call (.pathMetadata drive rel)) s w := by
    refine keeps_send (P := fun w ↦ w.offered = some body) ?_ ?_ ?_ ?_ ?_ _ hw hoffered
    · exact fun _ _ _ _ hothers h hsuccess item hitem hsent ↦
        (h hsuccess item hitem hsent).elsewhere hothers
    · exact fun v v' hothers h ↦ (elsewhere_keeps hothers).2.2.2.1.trans h
    · exact fun _ _ _ _ _ _ _ ↦ trivial
    · rintro v reply v' - h (⟨-, rfl⟩ | ⟨reply', -, -, -, hreply, hsuccess, -⟩) - htransient
      · exact h
      · obtain rfl := Except.ok.inj hreply
        exact absurd hsuccess (by rw [Reply.not_success _ htransient]; decide)
    · rintro v reply v' - h (⟨hsilent, -⟩ | ⟨reply', item', key, n, hreply, -, hitem', hn, hdescribes,
        hnames, hmatch⟩) - hsuccess item hitem hsent
      · exact absurd (hsilent reply item rfl hitem) (by rw [hsuccess]; decide)
      · obtain rfl := Except.ok.inj hreply
        obtain rfl := Except.ok.inj (hitem'.symm.trans hitem)
        rcases hmatch with ⟨-, rfl⟩ | ⟨hother, -⟩
        · intro item raw id hbody hraw hid
          obtain rfl := Except.ok.inj (hitem.symm.trans hbody)
          obtain rfl := hnames raw id hraw hid
          refine ⟨⟨n, wrote_keep v _ n hn, hdescribes⟩, fun hnone ↦ ?_⟩
          rw [SharedDrive.owing, if_pos hnone]
        · exact absurd ⟨body, h, hsent⟩ hother
  refine keeps_bind hlasts hfound fun reply s v hv hreply ↦ ?_
  split
  · exact keeps_throw hlasts hv
  · rename_i hsuccess
    refine keeps_decode hlasts hv fun item hitem ↦ ?_
    split
    · rename_i hsent
      have hsettle := keeps_settle hv (hreply (by simpa using hsuccess) item hitem hsent)
      exact keeps_bind hlasts hsettle fun u s' v' hv' hu ↦
        keeps_pure hlasts hv' fun u' hu' ↦ Option.some_inj.mp hu' ▸ hu
    · exact keeps_pure hlasts hv fun u hu ↦ absurd hu.symm (Option.some_ne_none u)

/-- **A `PUT` at a name overwrites nothing.** -/
theorem keeps_putAtPath (rel : String) (body : List UInt8) (hw : Base V s w) :
    Keeps V cfg.tags (NamesOwn V) (putAtPath cfg rel body) s w := by
  have hname : Keeps V cfg.tags (Same s fun _ ↦ True : Unit → KnownTags → SharedDrive → Prop)
      (lift (checkRelativeName rel)) s w :=
    keeps_lift (lasts_same fun _ _ _ h ↦ h) hw fun _ _ ↦ ⟨rfl, trivial⟩
  refine keeps_bind lasts_namesOwn hname fun _ s w hw _ ↦ ?_
  have hput : Keeps V cfg.tags (fun reply s w ↦ Accepted V cfg.tags cfg.scope.drive reply s w
      ∧ w.offered = some body) (call (.putPath cfg.scope.drive rel body)) s w := by
    refine keeps_send (P := fun _ ↦ True) ?_ (fun _ _ _ h ↦ h) ?_
      (fun _ _ _ _ _ _ _ _ ↦ trivial) ?_ _ hw trivial
    · exact fun r s v v' hothers h ↦
        ⟨lasts_accepted r s v v' hothers h.1, (elsewhere_keeps hothers).2.2.2.1.trans h.2⟩
    · exact fun _ _ _ _ _ _ _ ↦ trivial
    · rintro v reply v' - - (⟨hrefused, rfl⟩ | ⟨key, -, -, htold⟩) -
      · exact ⟨fun hsuccess ↦ absurd (hrefused reply rfl) (by rw [hsuccess]; decide), rfl⟩
      · refine ⟨fun hsuccess ↦ htold.reported hsuccess (wrote_commit _ key key), ?_⟩
        obtain ⟨o, rfl, -⟩ := htold.owing
        rfl
  refine keeps_bind lasts_namesOwn hput fun reply s w hw ⟨hreply, hoffered⟩ ↦ ?_
  split
  · rename_i hsuccess
    exact keeps_settle hw (hreply hsuccess)
  · split
    · refine keeps_bind lasts_namesOwn (keeps_attempt ?_ (keeps_reconcileByContent hw hoffered))
        fun r s w hw hr ↦ ?_
      · exact fun _ _ _ _ hothers h u hu ↦ (h u hu).elsewhere hothers
      · match r with
        | .ok (some u) => exact keeps_pure lasts_namesOwn hw (hr (some u) rfl u rfl)
        | .ok none => exact keeps_throw lasts_namesOwn hw
        | .error e => exact keeps_throw lasts_namesOwn hw
    · exact keeps_throw lasts_namesOwn hw

/-! ## The resumable form -/

/-- A session writes to the object that has been read, or creates one; and unless it has been read
the last fragment has not been sent. -/
structure Guarded (drive : DriveId) (url : String) (target : Option (ObjectKey × String))
    (rechecked : Bool) (w : SharedDrive) : Prop where
  item : ∀ key tail, w.sessions url = some (.item key, tail) →
    (∃ cloudId, target = some (key, cloudId)) ∧ key.drive = drive
      ∧ (tail = true → rechecked = true) ∧ (rechecked = true → w.Seen key)
  path : ∀ d tail, w.sessions url = some (.path d, tail) → d = drive

section

variable {url : String} {target : Option (ObjectKey × String)} {rechecked : Bool}

theorem Guarded.elsewhere (h : Guarded drive url target rechecked w)
    (hothers : Elsewhere V w w') : Guarded drive url target rechecked w' := by
  have hsessions := (elsewhere_keeps hothers).2.2.1
  refine ⟨fun k tail hk ↦ ?_, fun d tail hd ↦ h.path d tail (hsessions ▸ hd)⟩
  obtain ⟨htarget, hdrive, htail, hseen⟩ := h.item k tail (hsessions ▸ hk)
  exact ⟨htarget, hdrive, htail, fun hread ↦ (hseen hread).elsewhere hothers⟩

/-- There is no session any more. -/
theorem Guarded.closed (hnone : w.sessions url = none) :
    Guarded drive url target rechecked w where
  item _ _ hk := absurd (hnone.symm.trans hk).symm (Option.some_ne_none _)
  path _ _ hd := absurd (hnone.symm.trans hd).symm (Option.some_ne_none _)

/-- The commit of a session is harmless, if it is timely. -/
theorem Guarded.harmless {offset stop total : ℕ} {bytes : List UInt8} {a : Except IoError Reply}
    (h : Guarded drive url target rechecked w) (hlast : stop + 1 = total → rechecked = true)
    (htimely : Timely (.send (.fragment url offset stop total bytes)) w a w') :
    Harmless V (.send (.fragment url offset stop total bytes)) w w' := by
  intro k tail hk htail hclock v hv
  obtain ⟨-, -, hrechecked, hseen⟩ := h.item k tail hk
  have hread : rechecked = true := by
    rcases Bool.or_eq_true_iff.mp htail with htail | htail
    · exact hrechecked htail
    · exact hlast (of_decide_eq_true htail)
  exact hseen hread (htimely k tail hk hclock) v hv

/-- A session after a fragment, and what is said of its commit. -/
theorem Guarded.fragment {last : Bool} {a : Except IoError Reply}
    (h : Guarded drive url target rechecked w) (hlast : last = true → rechecked = true)
    (ha : FragmentAnswers V tags url last w a w') :
    Guarded drive url target rechecked w'
      ∧ ∀ reply, a = .ok reply → reply.commits = true → Reported V tags drive reply.item w' := by
  rw [FragmentAnswers] at ha
  split at ha
  · rename_i hnone
    obtain ⟨hrefused, rfl⟩ := ha
    exact ⟨.closed hnone, fun reply hr hcommits ↦
      absurd (hrefused reply hr) (by rw [hcommits]; decide)⟩
  · rename_i sessionTarget tail hsession
    rcases ha with ⟨hrefused, rfl⟩ | ⟨-, htarget⟩
    · refine ⟨⟨fun k tail' hk ↦ ?_, fun d tail' hd ↦ ?_⟩, fun reply hr hcommits ↦
        absurd (hrefused reply hr) (by rw [hcommits]; decide)⟩
      · have hk : some (sessionTarget, tail || last) = some (.item k, tail') := by
          simpa [SharedDrive.owing] using hk
        obtain ⟨rfl, rfl⟩ := Prod.mk.injEq .. ▸ Option.some_inj.mp hk
        obtain ⟨htarget, hdrive, htail, hseen⟩ := h.item k tail hsession
        exact ⟨htarget, hdrive, fun hor ↦ (Bool.or_eq_true_iff.mp hor).elim htail hlast, hseen⟩
      · have hd : some (sessionTarget, tail || last) = some (.path d, tail') := by
          simpa [SharedDrive.owing] using hd
        obtain ⟨rfl, -⟩ := Prod.mk.injEq .. ▸ Option.some_inj.mp hd
        exact h.path d tail hsession
    · have hclosed : ∀ u : SharedDrive, ∀ k, Told V tags Reply.commits drive k a
          (u.setSession url none) w' → w'.sessions url = none := by
        intro u k htold
        obtain ⟨o, rfl, -⟩ := htold.owing
        simp [SharedDrive.owing]
      cases sessionTarget with
      | item k =>
        obtain ⟨v, k', -, -, -, htold⟩ := htarget
        obtain ⟨-, rfl, -⟩ := h.item k tail hsession
        refine ⟨.closed (hclosed _ k' htold), fun reply hr hcommits ↦ ?_⟩
        subst hr
        exact htold.reported hcommits (wrote_commit w k k')
      | path d =>
        obtain ⟨k, -, -, htold⟩ := htarget
        obtain rfl := h.path d tail hsession
        refine ⟨.closed (hclosed _ k htold), fun reply hr hcommits ↦ ?_⟩
        subst hr
        exact htold.reported hcommits (wrote_commit w k k)

theorem keeps_probe (hw : Base V s w) (h : Guarded drive url target rechecked w) :
    Keeps V tags (Same s (Guarded drive url target rechecked)) (probe url) s w := by
  have hP : ∀ w w', Elsewhere V w w' → Guarded drive url target rechecked w →
      Guarded drive url target rechecked w' := fun _ _ hothers h ↦ h.elsewhere hothers
  have hkept : ∀ (v : SharedDrive) (a : Except IoError Reply) (v' : SharedDrive),
      Guarded drive url target rechecked v → DriveAnswers V tags (.send (.probe url)) v a v' →
        Guarded drive url target rechecked v' := by
    rintro v a v' ⟨hitem, hpath⟩ rfl
    exact ⟨hitem, hpath⟩
  have hsend : Meets (timelyEnv V tags) (Calm V) (fun (r : Except IoError Reply) s' w ↦
      Base V s' w ∧ Same s (Guarded drive url target rechecked) r s' w)
      (callSession (.probe url)) s w := by
    refine meets_send (lasts_same hP) hP ?_ (fun v reply v' _ hv ha _ _ ↦ hkept v _ v' hv ha)
      (fun v a v' _ hv ha _ ↦ ⟨rfl, hkept v a v' hv ha⟩) _ hw h
    exact fun _ _ _ _ _ _ _ ↦ trivial
  refine keeps_bind (lasts_same hP) (keeps_attempt_send (lasts_same hP) hsend)
    fun r s' v hv ⟨hs, hguarded⟩ ↦ ?_
  match r with
  | .error e => exact keeps_pure (lasts_same hP) hv ⟨hs, hguarded⟩
  | .ok reply =>
    have hjudged : Keeps V tags (Same s (Guarded drive url target rechecked))
        (if reply.success then pure (outstandingOffset reply) else pure none) s' v := by
      split <;> exact keeps_pure (lasts_same hP) hv ⟨hs, hguarded⟩
    exact hjudged

/-- What a round of a transfer has come to: a commit, of which something is said, or a session that
goes on. -/
def RoundEnds (V : Versions) (tags : TagSource) (drive : DriveId) (url : String)
    (target : Option (ObjectKey × String)) (s : KnownTags) (r : Transferred ⊕ Transfer)
    (s' : KnownTags) (w : SharedDrive) : Prop :=
  s' = s ∧ (∀ item, r = .inl (.committed item) → Reported V tags drive item w)
    ∧ ∀ t, r = .inr t → Guarded drive url target t.rechecked w

section

variable {t : Transfer}

theorem lasts_roundEnds : Lasts V (RoundEnds V tags drive url target s) :=
  fun _ _ _ _ hothers ⟨hs, hreported, hguarded⟩ ↦
    ⟨hs, fun item hi ↦ (hreported item hi).elsewhere hothers,
      fun t ht ↦ (hguarded t ht).elsewhere hothers⟩

theorem keeps_committed {item : Except String DriveItem} (hw : Base V s w)
    (h : Reported V tags drive item w) :
    Keeps V tags (RoundEnds V tags drive url target s) (pure (.inl (.committed item))) s w := by
  refine keeps_pure lasts_roundEnds hw ⟨rfl, fun item' hi ↦ ?_, fun t ht ↦ by cases ht⟩
  obtain rfl := Transferred.committed.inj (Sum.inl.inj hi)
  exact h

theorem keeps_ended {settled : Transferred} (hw : Base V s w)
    (h : ∀ item, settled ≠ .committed item) :
    Keeps V tags (RoundEnds V tags drive url target s) (pure (.inl settled)) s w :=
  keeps_pure lasts_roundEnds hw
    ⟨rfl, fun item hi ↦ absurd (Sum.inl.inj hi) (h item), fun t ht ↦ by cases ht⟩

theorem keeps_goes_on (hw : Base V s w) (h : Guarded drive url target t.rechecked w) :
    Keeps V tags (RoundEnds V tags drive url target s) (pure (.inr t)) s w :=
  keeps_pure lasts_roundEnds hw
    ⟨rfl, fun item hi ↦ (by cases hi), fun t' ht ↦ Sum.inr.inj ht ▸ h⟩

theorem keeps_afterFragment {total stop : ℕ} {reply : Reply} (hw : Base V s w)
    (hguarded : Guarded drive url target t.rechecked w)
    (hreported : reply.commits = true → Reported V tags drive reply.item w) :
    Keeps V tags (RoundEnds V tags drive url target s) (afterFragment url total stop t reply)
      s w := by
  rw [afterFragment]
  split
  · rename_i hstatus
    refine keeps_committed hw (hreported ?_)
    rcases hstatus with hstatus | hstatus <;> simp [Reply.commits, hstatus]
  · split
    · dsimp only
      split
      · exact keeps_ended hw fun _ h ↦ by cases h
      · split
        · split
          · exact keeps_ended hw fun _ h ↦ by cases h
          · exact keeps_goes_on hw hguarded
        · exact keeps_goes_on hw hguarded
    · split
      · refine keeps_bind lasts_roundEnds (keeps_probe hw hguarded) fun at' s' v hv ⟨hs, hkept⟩ ↦ ?_
        subst hs
        match at' with
        | some at' => exact keeps_goes_on hv hkept
        | none => exact keeps_ended hv fun _ h ↦ by cases h
      · split
        · exact keeps_ended hw fun _ h ↦ by cases h
        · exact keeps_ended hw fun _ h ↦ by cases h

theorem keeps_sendFragment {total len : ℕ} (bytes : List UInt8) (hw : Base V s w) (hlen : 0 < len)
    (hguarded : Guarded drive url target t.rechecked w)
    (hlast : t.offset + len = total → t.rechecked = true) :
    Keeps V tags (RoundEnds V tags drive url target s) (sendFragment url total len bytes t) s w := by
  have hP : ∀ w w', Elsewhere V w w' → Guarded drive url target t.rechecked w →
      Guarded drive url target t.rechecked w' := fun _ _ hothers h ↦ h.elsewhere hothers
  have hstop : t.offset + len - 1 + 1 = total → t.rechecked = true := fun h ↦ hlast (by omega)
  have hlasts : Lasts V fun (r : Except IoError Reply) s' w ↦ s' = s ∧
      Guarded drive url target t.rechecked w ∧ ∀ reply, r = .ok reply → reply.commits = true →
        Reported V tags drive reply.item w :=
    fun _ _ _ _ hothers h ↦ ⟨h.1, h.2.1.elsewhere hothers, fun reply hr hcommits ↦
      (h.2.2 reply hr hcommits).elsewhere hothers⟩
  have hsend : Meets (timelyEnv V tags) (Calm V) (fun (r : Except IoError Reply) s' w ↦
      Base V s' w ∧ s' = s ∧ Guarded drive url target t.rechecked w ∧ ∀ reply, r = .ok reply →
        reply.commits = true → Reported V tags drive reply.item w)
      (callSession (.fragment url t.offset (t.offset + len - 1) total bytes)) s w := by
    refine meets_send hlasts hP ?_ ?_ ?_ _ hw hguarded
    · exact fun v a v' _ hv _ htimely ↦ hv.harmless hstop htimely
    · exact fun v reply v' _ hv ha _ _ ↦
        (hv.fragment (fun h ↦ hstop (of_decide_eq_true h)) ha).1
    · intro v a v' _ hv ha _
      obtain ⟨hkept, hreported⟩ := hv.fragment (fun h ↦ hstop (of_decide_eq_true h)) ha
      refine ⟨rfl, hkept, fun reply hr hcommits ↦ ?_⟩
      cases a with
      | ok reply' => exact hreported reply (by rw [← hr]; rfl) hcommits
      | error e => cases hr
  refine keeps_bind lasts_roundEnds (keeps_attempt_send hlasts hsend)
    fun r s' v hv hsent ↦ ?_
  obtain ⟨rfl, hkept, hreported⟩ := hsent
  cases r with
  | ok reply => exact keeps_afterFragment hv hkept (hreported reply rfl)
  | error e =>
    dsimp only
    split
    · exact keeps_ended hv fun _ h ↦ by cases h
    · refine keeps_bind lasts_roundEnds (keeps_probe hv hkept) fun at' s u hu hprobed ↦ ?_
      obtain ⟨rfl, hkept⟩ := hprobed
      cases at' with
      | some at' => exact keeps_goes_on hu hkept
      | none => exact keeps_goes_on hu hkept

/-- **An object that still has the tag that is known is at a version of one's own**, unless another
device writes. -/
theorem keeps_recheck {cloudId : String} (hw : Base V s w) (hkey : keyOfCloudId cloudId = some key)
    (hpre : (precondition cfg.tags s cloudId).isSome) :
    Keeps V cfg.tags (fun r s' w' ↦ (s' = s ∧ w'.sessions = w.sessions) ∧ (r = true → w'.Seen key))
      (recheck cfg key cloudId) s w := by
  have hlasts : Lasts V fun (r : Bool) s' w' ↦
      (s' = s ∧ w'.sessions = w.sessions) ∧ (r = true → w'.Seen key) :=
    fun _ _ _ _ hothers h ↦ ⟨⟨h.1.1, (elsewhere_keeps hothers).2.2.1.trans h.1.2⟩,
      fun hr ↦ (h.2 hr).elsewhere hothers⟩
  have howing : False → w.owed = some key := False.elim
  refine meets_state (keeps_bind hlasts (keeps_readTag hw howing) fun now s' v hv ⟨hkept, hread⟩ ↦ ?_)
  refine keeps_pure hlasts hv ⟨hkept, fun hsame ↦ ?_⟩
  obtain ⟨raw, hraw⟩ := Option.isSome_iff_exists.mp hpre
  obtain ⟨tag, htag, hcarried⟩ := carried_of_precondition hraw
  have hnow : now = some tag := by
    rw [htag] at hsame
    simpa using And.right (Bool.and_eq_true_iff.mp hsame)
  obtain ⟨n, hof, hat⟩ := hread tag hnow
  have hok := hv.known cloudId tag key (hkept.1 ▸ htag) hkey raw n hcarried (hof raw hcarried)
  intro hnews m hm
  obtain rfl := hat.at' hnews m hm
  exact hok.2 hm

/-- An update is of the object its cloud id names, and there is a tag for it. -/
def Bindable (tags : TagSource) (s : KnownTags) (target : Option (ObjectKey × String)) : Prop :=
  ∀ key cloudId, target = some (key, cloudId) →
    keyOfCloudId cloudId = some key ∧ (precondition tags s cloudId).isSome

theorem keeps_transferRound {path : RelPath} {snap : Snapshot} (hw : Base V s w)
    (htarget : Bindable cfg.tags s target) (hguarded : Guarded drive url target t.rechecked w)
    (hmore : t.offset < snap.len) :
    Keeps V cfg.tags (RoundEnds V cfg.tags drive url target s)
      (transferRound cfg path url target snap t) s w := by
  have hP : ∀ w w', Elsewhere V w w' → Guarded drive url target t.rechecked w →
      Guarded drive url target t.rechecked w' := fun _ _ hothers h ↦ h.elsewhere hothers
  have hlen : 0 < min (fragmentSize cfg) (snap.len - t.offset) :=
    lt_min (fragmentSize_pos cfg) (Nat.sub_pos_of_lt hmore)
  refine keeps_bind lasts_roundEnds (keeps_unchanged hP hw hguarded path snap)
    fun _ s' v hv ⟨hs, hguarded⟩ ↦ ?_
  subst hs
  refine keeps_bind lasts_roundEnds (keeps_readExactAt hP hv hguarded _ _)
    fun bytes s u hu ⟨hs, hguarded⟩ ↦ ?_
  subst hs
  split
  · rename_i hfirst
    rw [hfirst.2] at hguarded
    match target with
    | none =>
      refine keeps_sendFragment bytes hu hlen ?_ fun _ ↦ rfl
      exact ⟨fun k tail hk ↦ absurd (hguarded.item k tail hk).1 (by simp), hguarded.path⟩
    | some (key, cloudId) =>
      obtain ⟨hkey, hpre⟩ := htarget key cloudId rfl
      refine keeps_bind lasts_roundEnds (keeps_recheck hu hkey hpre)
        fun same s' u' hu' ⟨⟨hs, hsessions⟩, hseen⟩ ↦ ?_
      subst hs
      split
      · rename_i hsame
        refine keeps_sendFragment bytes hu' hlen ⟨fun k tail hk ↦ ?_, fun d tail hd ↦ ?_⟩ fun _ ↦ rfl
        · obtain ⟨⟨id, hid⟩, hdrive, -, -⟩ := hguarded.item k tail (hsessions ▸ hk)
          obtain ⟨rfl, -⟩ := Prod.mk.injEq .. ▸ Option.some_inj.mp hid
          exact ⟨⟨id, hid⟩, hdrive, fun _ ↦ rfl, fun _ ↦ hseen hsame⟩
        · exact hguarded.path d tail (hsessions ▸ hd)
      · exact keeps_ended hu' fun _ h ↦ by cases h
  · rename_i hfirst
    refine keeps_sendFragment bytes hu hlen hguarded fun hend ↦ ?_
    by_contra hread
    exact hfirst ⟨hend, Bool.eq_false_iff.mpr hread⟩

/-- What a transfer has come to. -/
def TransferEnds (V : Versions) (tags : TagSource) (drive : DriveId) (r : Transferred)
    (_ : KnownTags) (w : SharedDrive) : Prop :=
  ∀ item, r = .committed item → Reported V tags drive item w

theorem lasts_transferEnds : Lasts V (TransferEnds V tags drive) :=
  fun _ _ _ _ hothers h item hi ↦ (h item hi).elsewhere hothers

theorem keeps_abandoned {e : IoError} (hw : Base V s w) :
    Keeps V tags (TransferEnds V tags drive) (pure (.abandoned e)) s w :=
  keeps_pure lasts_transferEnds hw fun _ hi ↦ by cases hi

/-- The rounds of a transfer, by induction on how many are left. -/
theorem keeps_transferRounds {path : RelPath} {snap : Snapshot} (left : ℕ) {s : KnownTags}
    {w : SharedDrive} {t : Transfer} (hw : Base V s w) (htarget : Bindable cfg.tags s target)
    (hguarded : Guarded drive url target t.rechecked w) :
    Keeps V cfg.tags (TransferEnds V cfg.tags drive)
      (transferRounds cfg path url target snap left t) s w := by
  induction left generalizing s w t with
  | zero =>
    rw [transferRounds]
    split <;> exact keeps_abandoned hw
  | succ left ih =>
    rw [transferRounds]
    split
    · rename_i hmore
      refine keeps_bind lasts_transferEnds (keeps_transferRound hw htarget hguarded hmore)
        fun r s' v hv ⟨hs, hreported, hnext⟩ ↦ ?_
      subst hs
      match r with
      | .inl settled =>
        exact keeps_pure lasts_transferEnds hv fun item hi ↦ hreported item (congrArg Sum.inl hi)
      | .inr t => exact ih hv htarget (hnext t rfl)
    · exact keeps_abandoned hw

/-- Where a session is opened, and of what kind. -/
def requestOf (drive : DriveId) (rel : String) : Option (ObjectKey × String) → Request
  | some (key, _) => .itemSession key
  | none => .pathSession drive rel

theorem keeps_sessionRequest {rel : String} (hw : Base V s w)
    (htarget : ∀ key cloudId, target = some (key, cloudId) → keyOfCloudId cloudId = some key) :
    Keeps V cfg.tags (fun request s' _ ↦ s' = s ∧ request = requestOf cfg.scope.drive rel target
        ∧ Bindable cfg.tags s target)
      (sessionRequest cfg rel target) s w := by
  have hlasts : Lasts V fun (request : Request) s' _ ↦ s' = s
      ∧ request = requestOf cfg.scope.drive rel target ∧ Bindable cfg.tags s target :=
    fun _ _ _ _ _ h ↦ h
  match target with
  | some (key, cloudId) =>
    refine meets_state ?_
    split
    · exact keeps_throw hlasts hw
    · rename_i raw hraw
      refine keeps_pure hlasts hw ⟨rfl, rfl, fun k id hk ↦ ⟨htarget k id hk, ?_⟩⟩
      obtain ⟨-, rfl⟩ := Prod.mk.injEq .. ▸ Option.some_inj.mp hk
      rw [hraw]
      rfl
  | none =>
    have hname : Keeps V cfg.tags (Same s fun _ ↦ True : Unit → KnownTags → SharedDrive → Prop)
        (lift (checkRelativeName rel)) s w :=
      keeps_lift (lasts_same fun _ _ _ h ↦ h) hw fun _ _ ↦ ⟨rfl, trivial⟩
    refine keeps_bind hlasts hname fun _ s' v hv ⟨hs, _⟩ ↦ ?_
    exact keeps_pure hlasts hv ⟨hs, rfl, fun _ _ h ↦ absurd h.symm (Option.some_ne_none _)⟩

/-- The drive a session writes to. -/
def driveOf (cfg : SinkConfig) : Option (ObjectKey × String) → DriveId
  | some (key, _) => key.drive
  | none => cfg.scope.drive

/-- A session that has been opened. -/
theorem keeps_open {rel : String} (hw : Base V s w) :
    Keeps V cfg.tags (fun reply s' w ↦ s' = s ∧ ∀ session url, reply.success = true →
        reply.session = .ok session → session.uploadUrl = some url →
        Guarded (driveOf cfg target) url target false w)
      (call (requestOf cfg.scope.drive rel target)) s w := by
  have hlasts : Lasts V fun (reply : Reply) s' w ↦ s' = s ∧ ∀ session url, reply.success = true →
      reply.session = .ok session → session.uploadUrl = some url →
      Guarded (driveOf cfg target) url target false w :=
    fun _ _ _ _ hothers h ↦ ⟨h.1, fun session url hsuccess hs hu ↦
      (h.2 session url hsuccess hs hu).elsewhere hothers⟩
  have hopened : ∀ (kind : SessionTarget) (v v' : SharedDrive) (reply : Reply),
      DriveAnswers.SessionAnswers kind v (.ok reply) v' → ∀ session url, reply.success = true →
        reply.session = .ok session → session.uploadUrl = some url →
        v'.sessions url = some (kind, false) := by
    rintro kind v v' reply (⟨hnone, -⟩ | ⟨reply', session', url', hreply, hs', hurl', -, rfl⟩)
      session url hsuccess hs hurl
    · exact absurd ((hnone reply session rfl hsuccess hs).symm.trans hurl).symm
        (Option.some_ne_none url)
    · obtain rfl := Except.ok.inj hreply
      obtain rfl := Except.ok.inj (hs'.symm.trans hs)
      obtain rfl := Option.some_inj.mp (hurl'.symm.trans hurl)
      simp [SharedDrive.owing]
  cases target with
  | some known =>
    obtain ⟨key, cloudId⟩ := known
    refine keeps_send (P := fun _ ↦ True) hlasts (fun _ _ _ h ↦ h) ?_
      (fun _ _ _ _ _ _ _ _ ↦ trivial) ?_ _ hw trivial
    · exact fun _ _ _ _ _ _ _ ↦ trivial
    · intro v reply v' _ _ ha _
      refine ⟨rfl, fun session url hsuccess hs hurl ↦ ?_⟩
      have hsession := hopened _ v v' reply ha session url hsuccess hs hurl
      refine ⟨fun k tail hk ↦ ?_, fun d tail hd ↦ ?_⟩
      · cases hsession.symm.trans hk
        exact ⟨⟨cloudId, rfl⟩, rfl, fun h ↦ h, fun h ↦ by cases h⟩
      · cases hsession.symm.trans hd
  | none =>
    refine keeps_send (P := fun _ ↦ True) hlasts (fun _ _ _ h ↦ h) ?_
      (fun _ _ _ _ _ _ _ _ ↦ trivial) ?_ _ hw trivial
    · exact fun _ _ _ _ _ _ _ ↦ trivial
    · intro v reply v' _ _ ha _
      refine ⟨rfl, fun session url hsuccess hs hurl ↦ ?_⟩
      have hsession := hopened _ v v' reply ha session url hsuccess hs hurl
      refine ⟨fun k tail hk ↦ ?_, fun d tail hd ↦ ?_⟩
      · cases hsession.symm.trans hk
      · cases hsession.symm.trans hd
        rfl

/-- **A session overwrites what is one's own**, and what it settles on is what was written. -/
theorem keeps_uploadSession {path : RelPath} {rel : String} {snap : Snapshot} (hw : Base V s w)
    (htarget : ∀ key cloudId, target = some (key, cloudId) → keyOfCloudId cloudId = some key) :
    Keeps V cfg.tags (WrittenOwn V) (uploadSession cfg path rel target snap) s w := by
  refine keeps_bind lasts_writtenOwn (keeps_sessionRequest hw htarget)
    fun request s' v hv ⟨hs, hrequest, hbindable⟩ ↦ ?_
  subst hs hrequest
  refine keeps_bind lasts_writtenOwn (keeps_open hv) fun reply s u hu ⟨hs, hopened⟩ ↦ ?_
  subst hs
  split
  · exact keeps_gone hu
  · split
    · exact keeps_throw lasts_writtenOwn hu
    · rename_i hsuccess
      have hsuccess : reply.success = true := by simpa using hsuccess
      refine keeps_decode lasts_writtenOwn hu fun session hsession ↦ ?_
      split
      · exact keeps_throw lasts_writtenOwn hu
      · rename_i url hurl
        have hguarded := hopened session url hsuccess hsession (Option.filter_eq_some_iff.mp hurl).1
        refine keeps_bind lasts_writtenOwn (keeps_attempt lasts_transferEnds
          (keeps_transferRounds _ hu hbindable hguarded)) fun r s' v hv hr ↦ ?_
        have hcancel : ∀ e : IoError, Keeps V cfg.tags (WrittenOwn V) (do
            let _ ← Errand.attempt (callSession (.cancel url))
            throw e : GraphSink Written) s' v := by
          intro e
          have hlasts : Lasts V fun (_ : Except IoError Reply) (_ : KnownTags) _ ↦ True :=
            fun _ _ _ _ _ h ↦ h
          have hsend : Meets (timelyEnv V cfg.tags) (Calm V)
              (fun (_ : Except IoError Reply) s w ↦ Base V s w ∧ True)
              (callSession (.cancel url)) s' v := by
            refine meets_send (P := fun _ ↦ True) hlasts (fun _ _ _ h ↦ h) ?_
              (fun _ _ _ _ _ _ _ _ ↦ trivial) (fun _ _ _ _ _ _ _ ↦ trivial) _ hv trivial
            exact fun _ _ _ _ _ _ _ ↦ trivial
          exact keeps_bind lasts_writtenOwn (keeps_attempt_send hlasts hsend)
            fun _ _ _ hv' _ ↦ keeps_throw lasts_writtenOwn hv'
        match r with
        | .ok (.committed item) =>
          refine keeps_bind lasts_writtenOwn (keeps_settle hv (hr _ rfl item rfl))
            fun uploaded _ _ hv' hu' ↦ keeps_done hv' hu'
        | .ok .vanished => exact keeps_throw lasts_writtenOwn hv
        | .ok (.abandoned e) => exact hcancel e
        | .error e => exact hcancel e

end

end

/-! ## Uploads and renames -/

theorem keeps_create (path : RelPath) (rel : String) (hw : Base V s w) :
    Keeps V cfg.tags (NamesOwn V) (create cfg path rel) s w := by
  refine keeps_bind lasts_namesOwn
    (keeps_judgeFile (P := fun _ ↦ True) (fun _ _ _ h ↦ h) hw trivial path) fun snap s w hw _ ↦ ?_
  split
  · have hsession : Keeps V cfg.tags (WrittenOwn V) (uploadSession cfg path rel none snap) s w :=
      keeps_uploadSession hw fun _ _ h ↦ absurd h.symm (Option.some_ne_none _)
    refine keeps_bind lasts_namesOwn hsession fun written s w hw hwritten ↦ ?_
    match written with
    | .done u => exact keeps_pure lasts_namesOwn hw (hwritten u rfl)
    | .gone => exact keeps_throw lasts_namesOwn hw
  · exact keeps_bind lasts_namesOwn
      (keeps_readWhole (P := fun _ ↦ True) (fun _ _ _ h ↦ h) hw trivial)
      fun body _ _ hw _ ↦ keeps_putAtPath rel body hw

theorem keeps_orCreate {written : Written} (path : RelPath) (rel : String) (hw : Base V s w)
    (h : WrittenOwn V written s w) :
    Keeps V cfg.tags (NamesOwn V) (orCreate cfg path rel written) s w := by
  match written with
  | .done u => exact keeps_pure lasts_namesOwn hw (h u rfl)
  | .gone => exact keeps_create path rel hw

/-- What is recorded on a file is harmless. -/
def RecordOk (V : Versions) (known : Known) (w : SharedDrive) : Prop :=
  ∀ t key, known.tag = some t → keyOfCloudId known.cloudId = some key → TagOk V w key t

theorem RecordOk.elsewhere {known : Known} (h : RecordOk V known w) (hothers : Elsewhere V w w') :
    RecordOk V known w' :=
  fun t key ht hkey ↦ (h t key ht hkey).later (later_elsewhere hothers)

theorem keeps_targetOf {existing : Option Known} (hw : Base V s w)
    (h : ∀ known, existing = some known → RecordOk V known w) :
    Keeps V tags (fun target _ _ ↦ ∀ key cloudId, target = some (key, cloudId) →
      keyOfCloudId cloudId = some key) (targetOf existing) s w := by
  have hlasts : Lasts V fun (target : Option (ObjectKey × String)) _ _ ↦ ∀ key cloudId,
      target = some (key, cloudId) → keyOfCloudId cloudId = some key := fun _ _ _ _ _ h ↦ h
  match existing with
  | none => exact keeps_pure hlasts hw fun _ _ h ↦ absurd h.symm (Option.some_ne_none _)
  | some known =>
    rw [targetOf]
    split
    · exact keeps_throw hlasts hw
    · rename_i key hkey
      refine meets_modify (keeps_pure hlasts (hw.seed (h known rfl)) fun k id hk ↦ ?_)
      obtain ⟨rfl, rfl⟩ := Prod.mk.injEq .. ▸ Option.some_inj.mp hk
      exact hkey

/-- **An upload overwrites nothing but what is one's own.** -/
theorem keeps_upload (path : RelPath) {existing : Option Known} (hw : Base V s w)
    (h : ∀ known, existing = some known → RecordOk V known w) :
    Keeps V cfg.tags (NamesOwn V) (upload cfg path existing) s w := by
  refine keeps_bind lasts_namesOwn (keeps_judgeFile
    (P := fun w ↦ ∀ known, existing = some known → RecordOk V known w)
    (fun _ _ hothers h known hk ↦ (h known hk).elsewhere hothers) hw h path)
    fun snap s w hw ⟨_, h⟩ ↦ ?_
  refine keeps_bind lasts_namesOwn (keeps_targetOf hw h) fun target s w hw htarget ↦ ?_
  split
  · exact keeps_bind lasts_namesOwn (keeps_uploadSession hw htarget)
      fun written _ _ hw hwritten ↦ keeps_orCreate path _ hw hwritten
  · refine keeps_bind lasts_namesOwn
      (keeps_readWhole (P := fun _ ↦ True) (fun _ _ _ h ↦ h) hw trivial) fun body s w hw _ ↦ ?_
    match target with
    | some (key, cloudId) =>
      exact keeps_bind lasts_namesOwn (keeps_putAtItem body hw (htarget key cloudId rfl))
        fun written _ _ hw hwritten ↦ keeps_orCreate path _ hw hwritten
    | none => exact keeps_putAtPath _ body hw

theorem keeps_destination {src dst : RelPath} (hw : Base V s w) :
    Keeps V tags (Same s fun _ ↦ True) (destination key src dst) s w := by
  have hlasts : Lasts V (Same s fun _ ↦ True : Option ItemId → KnownTags → SharedDrive → Prop) :=
    lasts_same fun _ _ _ h ↦ h
  rw [destination]
  split
  · exact keeps_pure hlasts hw ⟨rfl, trivial⟩
  · have hid : Keeps V tags (Same s fun _ ↦ True : Attr → KnownTags → SharedDrive → Prop)
        (idAt dst.dropLast) s w := by
      refine keeps_local (P := fun _ ↦ True) (fun _ _ _ ha ↦ ha) (fun _ _ _ h ↦ h) hw trivial
        fun attr v hv _ ↦ ?_
      split
      · exact keeps_throw (lasts_same fun _ _ _ h ↦ h) hv
      · exact keeps_pure (lasts_same fun _ _ _ h ↦ h) hv ⟨rfl, trivial⟩
    refine keeps_bind hlasts hid fun attr s' v hv ⟨hs, _⟩ ↦ ?_
    subst hs
    split
    · split
      · exact keeps_throw hlasts hv
      · split
        · exact keeps_throw hlasts hv
        · exact keeps_pure hlasts hv ⟨rfl, trivial⟩
    · exact keeps_throw hlasts hv

/-- **A rename leaves no tag but that of the version it has left there.** -/
theorem keeps_moveItem (src dst : RelPath) {existing : Known} (hw : Base V s w)
    (h : RecordOk V existing w) :
    Keeps V cfg.tags (NamesOwn V) (moveItem cfg src dst existing) s w := by
  have hname : Keeps V cfg.tags (Same s (RecordOk V existing) : Unit → KnownTags → SharedDrive → Prop)
      (lift (checkRelativeName dst.display)) s w :=
    keeps_lift (lasts_same fun _ _ hothers h ↦ h.elsewhere hothers) hw fun _ _ ↦ ⟨rfl, h⟩
  refine keeps_bind lasts_namesOwn hname fun _ s w hw ⟨_, h⟩ ↦ ?_
  split
  · exact keeps_throw lasts_namesOwn hw
  · rename_i key hkey
    refine meets_modify (meets_state ?_)
    have hseeded := hw.seed h
    split
    · exact keeps_throw lasts_namesOwn hseeded
    · rename_i raw hraw
      refine keeps_bind lasts_namesOwn (keeps_destination hseeded) fun parent s' v hv ⟨hs, _⟩ ↦ ?_
      subst hs
      have hpatch : Keeps V cfg.tags (Accepted V cfg.tags key.drive)
          (call (.patch key raw (dst.getLast?.getD "") parent)) (seed existing.cloudId existing.tag s)
          v := by
        refine keeps_send (P := fun _ ↦ True) lasts_accepted (fun _ _ _ h ↦ h) ?_
          (fun _ _ _ _ _ _ _ _ ↦ trivial) ?_ _ hv trivial
        · exact fun u a u' hu _ _ _ n hn hmem ↦ hu.own hkey hraw hn hmem
        · rintro u reply u' - - (⟨hrefused, -⟩ | ⟨n, -, -, htold | htold⟩) - hsuccess
          · exact absurd (hrefused reply rfl) (by rw [hsuccess]; decide)
          · exact htold.reported hsuccess (wrote_keep u key)
          · exact htold.reported hsuccess (wrote_commit u key key)
      refine keeps_bind lasts_namesOwn hpatch fun reply s u hu hreply ↦ ?_
      split
      · rename_i hsuccess
        refine keeps_local (P := Reported V cfg.tags key.drive reply.item) (fun _ _ _ ha ↦ ha)
          (fun _ _ hothers h ↦ h.elsewhere hothers) hu (hreply hsuccess) fun isDir u' hu' hreported ↦ ?_
        split
        · exact keeps_settleFolder hu' hreported
        · exact keeps_settle hu' hreported
      · exact keeps_throw lasts_namesOwn hu

end GraphSink

end HydrationAPI.Graph
