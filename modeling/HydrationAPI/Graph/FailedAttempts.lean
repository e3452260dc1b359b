import HydrationAPI.Graph.LosingDrive
import HydrationAPI.Lib.Asks

/-!
# What failed attempts leave

An attempt asks for nothing but what belongs to its file: a write of the whole content, to the
object or to the name, or a session for it, which is fed with what the file holds where the fragment
begins.
So all that attempts can leave, whatever has been lost, is the drive as it was, or one write of the
content; and what the process remembers is what it has been given.
-/

namespace HydrationAPI.Graph

open Dialogue Errand
open Client (RelPath)
open Client.Upload (Known Uploaded)

variable {svc : DriveService} {file : QuietFile} {cfg : SinkConfig} {path : RelPath}
  {existing : Option Known} {d₀ d d' : Drive} {key : ObjectKey}

/-! ## What is asked -/

/-- The recorded identity is that of the object. -/
def Targets (existing : Option Known) (key : ObjectKey) : Prop :=
  ∃ known, existing = some known ∧ keyOfCloudId known.cloudId = some key

/-- A question of an upload of the file. -/
def AsksFor (file : QuietFile) (cfg : SinkConfig) (path : RelPath) (existing : Option Known) :
    Query → Prop
  | .send (.putPath drive rel body) =>
    existing = none ∧ drive = cfg.scope.drive ∧ rel = path.display ∧ body = file.content
  | .send (.pathSession drive rel) =>
    existing = none ∧ drive = cfg.scope.drive ∧ rel = path.display
  | .send (.putItem key _ body) => Targets existing key ∧ body = file.content
  | .send (.itemSession key) => Targets existing key
  | .send (.fragment _ offset _ total bytes) => total = file.snap.len
    ∧ ∃ len, bytes = (file.content.drop offset).take len
  | _ => True

/-- What is answered: the file is as it is, and the object is there. -/
def Replies (file : QuietFile) : (q : Query) → q.Answer → Prop
  | .send (.putItem ..), a | .send (.itemSession _), a =>
    ∀ reply : Reply, a = Except.ok reply → reply.status ≠ 404
  | .send _, _ | .idAt _, _ | .isDir _, _ => True
  | .markAt _, a => a = Client.Attr.absent
  | .open' _, a => a = Except.ok ()
  | .opened, a | .current .., a => a = Except.ok file.snap
  | .readWhole, a => a = Except.ok file.content
  | .readExactAt offset len, a => a = Except.ok ((file.content.drop offset).take len)

namespace GraphSink

/-- What is remembered is as it was. -/
def Still {α : Type} (s : KnownTags) (r : Except IoError α × KnownTags) : Prop := r.2 = s

/-- What is remembered is as it was, if the program fails. -/
def StillFailing {α : Type} (s : KnownTags) (r : Except IoError α × KnownTags) : Prop :=
  ∀ e, r.1 = .error e → r.2 = s

/-- An upload of the file, or a part of one. -/
abbrev Uploads (file : QuietFile) (cfg : SinkConfig) (path : RelPath) (existing : Option Known)
    {α : Type} (R : Except IoError α × KnownTags → Prop) (m : GraphSink α) (s : KnownTags) : Prop :=
  AsksGiven (Replies file) (AsksFor file cfg path existing) R (m s)

variable {s : KnownTags} {request : Request} {drive : DriveId} {rel url : String}
  {unreachable : IoError → IoError}

section

variable {α β : Type} {m : GraphSink α} {f : α → GraphSink β}
  {R : Except IoError β × KnownTags → Prop}

/-- A part that leaves what is remembered, and what follows. -/
theorem Uploads.then (h : Uploads file cfg path existing (Still s) m s)
    (hf : ∀ a, Uploads file cfg path existing R (f a) s) (hR : ∀ e, R (.error e, s)) :
    Uploads file cfg path existing R (m >>= f) s :=
  asksGiven_bind h (fun a s' hs ↦ by obtain rfl : s' = s := hs; exact hf a)
    fun e s' hs ↦ by obtain rfl : s' = s := hs; exact hR e

theorem stillFailing_error {e : IoError} : StillFailing (α := α) s (.error e, s) := fun _ _ ↦ rfl

theorem stillFailing_ok {a : α} {s' : KnownTags} : StillFailing s (.ok a, s') :=
  fun _ h ↦ by cases h

end

theorem uploads_sendAgain (h : AsksFor file cfg path existing (.send request)) (again : ℕ) :
    Uploads file cfg path existing
      (fun r ↦ r.2 = s ∧ ∀ reply, r.1 = .ok reply → Replies file (.send request) (.ok reply))
      (sendAgain request unreachable again) s := by
  have honce : Uploads file cfg path existing
      (fun r ↦ r.2 = s ∧ ∀ reply, r.1 = .ok reply → Replies file (.send request) (.ok reply))
      (sendOnce request unreachable) s := by
    refine asksGiven_bind (R := fun r ↦ r.2 = s ∧ ∀ a, r.1 = .ok a → Replies file (.send request) a)
      (asksGiven_ask h fun a ha ↦ ⟨rfl, fun a' ha' ↦ by cases ha'; exact ha⟩)
      (fun a s' hr ↦ ?_) fun e s' hr ↦ ⟨hr.1, fun reply hreply ↦ by cases hreply⟩
    obtain ⟨rfl, ha⟩ := hr
    cases a with
    | error e => exact ⟨rfl, fun reply hreply ↦ by cases hreply⟩
    | ok reply =>
      refine ⟨rfl, fun reply' hreply ↦ ?_⟩
      cases hreply
      exact ha _ rfl
  induction again with
  | zero => exact honce
  | succ again ih =>
    rw [sendAgain]
    refine asksGiven_bind honce (fun reply s' hr ↦ ?_) fun e s' hr ↦ ⟨hr.1, fun _ h ↦ by cases h⟩
    obtain ⟨rfl, hreply⟩ := hr
    dsimp only
    split
    · exact ih
    · refine ⟨rfl, fun reply' hreply' ↦ ?_⟩
      cases hreply'
      exact hreply _ rfl

theorem uploads_call (h : AsksFor file cfg path existing (.send request)) :
    Uploads file cfg path existing (Still s) (call request) s :=
  (uploads_sendAgain h _).mono fun _ hr ↦ hr.1

theorem uploads_callSession (h : AsksFor file cfg path existing (.send request)) :
    Uploads file cfg path existing (Still s) (callSession request) s :=
  (uploads_sendAgain h _).mono fun _ hr ↦ hr.1

theorem uploads_decode {α : Type} {body : Except String α} :
    Uploads file cfg path existing (Still s) (decode body) s := by
  cases body <;> exact rfl

theorem uploads_probe : Uploads file cfg path existing (Still s) (probe url) s := by
  refine Uploads.then (asksGiven_attempt (uploads_callSession trivial)) (fun r ↦ ?_) fun _ ↦ rfl
  cases r with
  | error e => exact rfl
  | ok reply =>
    dsimp only
    split <;> exact rfl

theorem uploads_readTag : Uploads file cfg path existing (Still s) (readTag cfg key) s := by
  refine Uploads.then (uploads_call trivial) (fun reply ↦ ?_) fun _ ↦ rfl
  split
  · exact rfl
  · exact Uploads.then uploads_decode (fun item ↦ rfl) fun _ ↦ rfl

/-- What has been settled is remembered; a failure is not. -/
theorem uploads_settle {body : Except String DriveItem} :
    Uploads file cfg path existing (StillFailing s) (settle cfg drive body) s := by
  refine Uploads.then uploads_decode (fun item ↦ ?_) fun _ ↦ stillFailing_error
  split
  · exact stillFailing_error
  · split
    · exact stillFailing_error
    · dsimp only
      split
      · refine Uploads.then (f := _) (m := pure _) rfl (fun tag ↦ ?_) fun _ ↦ stillFailing_error
        split
        · exact stillFailing_ok
        · exact stillFailing_ok
      · refine Uploads.then uploads_readTag (fun tag ↦ ?_) fun _ ↦ stillFailing_error
        split
        · exact stillFailing_ok
        · exact stillFailing_ok

/-! ### The local file -/

/-- The result is known. -/
def Gives {α : Type} (a : α) (s : KnownTags) (r : Except IoError α × KnownTags) : Prop :=
  r = (.ok a, s)

theorem Uploads.gives {α β : Type} {m : GraphSink α} {f : α → GraphSink β}
    {R : Except IoError β × KnownTags → Prop} {a : α}
    (h : Uploads file cfg path existing (Gives a s) m s)
    (hf : Uploads file cfg path existing R (f a) s) :
    Uploads file cfg path existing R (m >>= f) s := by
  refine asksGiven_bind h (fun a' s' hr ↦ ?_) fun e s' hr ↦ by cases hr
  cases hr
  exact hf

theorem uploads_local {α : Type} {m : GraphSink (Except IoError α)} {a : α}
    (h : Uploads file cfg path existing (Gives (.ok a) s) m s) :
    Uploads file cfg path existing (Gives a s) (local' m) s := Uploads.gives h rfl

theorem uploads_isPlaceholder :
    Uploads file cfg path existing (Gives false s) (isPlaceholder path) s :=
  Uploads.gives (asksGiven_ask trivial fun _ ha ↦ congrArg (fun a ↦ (Except.ok a, s)) ha) rfl

theorem uploads_judgeFile :
    Uploads file cfg path existing (Gives file.snap s) (judgeFile path) s := by
  have hopen : Uploads file cfg path existing (Gives () s) (openFile path) s :=
    uploads_local (asksGiven_ask trivial fun _ ha ↦ congrArg (fun a ↦ (Except.ok a, s)) ha)
  exact hopen.gives (uploads_isPlaceholder.gives
    (uploads_local (asksGiven_ask trivial fun _ ha ↦ congrArg (fun a ↦ (Except.ok a, s)) ha)))

theorem uploads_readWhole :
    Uploads file cfg path existing (Gives file.content s) readWhole s :=
  uploads_local (asksGiven_ask trivial fun _ ha ↦ congrArg (fun a ↦ (Except.ok a, s)) ha)

theorem uploads_readExactAt (offset len : ℕ) : Uploads file cfg path existing
    (Gives ((file.content.drop offset).take len) s) (readExactAt offset len) s :=
  uploads_local (asksGiven_ask trivial fun _ ha ↦ congrArg (fun a ↦ (Except.ok a, s)) ha)

theorem uploads_unchanged :
    Uploads file cfg path existing (Gives () s) (unchanged path file.snap) s := by
  refine uploads_isPlaceholder.gives (Uploads.gives (a := file.snap) (uploads_local
    (asksGiven_ask trivial fun _ ha ↦ congrArg (fun a ↦ (Except.ok a, s)) ha)) ?_)
  rw [difference_self]
  rfl

/-! ### One `PUT` -/

/-- The write has not gone missing, and what is remembered is as it was if it fails. -/
def NotGone (s : KnownTags) (r : Except IoError Written × KnownTags) : Prop :=
  StillFailing s r ∧ r.1 ≠ .ok .gone

theorem uploads_settled {body : Except String DriveItem} :
    Uploads file cfg path existing (NotGone s)
      (settle cfg drive body >>= fun uploaded ↦ pure (.done uploaded)) s :=
  asksGiven_bind uploads_settle (fun _ _ _ ↦ ⟨stillFailing_ok, fun h ↦ by cases h⟩)
    fun e _ hr ↦ ⟨fun _ _ ↦ hr e rfl, fun h ↦ by cases h⟩

theorem uploads_putAtItem {cloudId : String} (hkey : Targets existing key) :
    Uploads file cfg path existing (NotGone s) (putAtItem cfg key cloudId file.content) s := by
  refine Uploads.then (m := Errand.state) rfl (fun known ↦ ?_) fun _ ↦
    ⟨stillFailing_error, fun h ↦ by cases h⟩
  split
  · exact ⟨stillFailing_error, fun h ↦ by cases h⟩
  · rename_i tag _
    have hasks : AsksFor file cfg path existing (.send (.putItem key tag file.content)) :=
      ⟨hkey, rfl⟩
    refine asksGiven_bind (uploads_sendAgain hasks _) (fun reply s' hr ↦ ?_) fun e s' hr ↦
      ⟨fun _ _ ↦ hr.1, fun h ↦ by cases h⟩
    obtain ⟨rfl, hthere⟩ := hr
    split
    · exact uploads_settled
    · rw [if_neg (hthere reply rfl reply rfl)]
      exact ⟨stillFailing_error, fun h ↦ by cases h⟩

/-- What is remembered is as it was, unless an object is taken on. -/
theorem uploads_reconcileByContent {sent : Sent} : Uploads file cfg path existing
    (fun r ↦ (∀ u, r.1 ≠ .ok (some u)) → r.2 = s) (reconcileByContent cfg drive rel sent) s := by
  refine Uploads.then (uploads_call trivial) (fun reply ↦ ?_) fun _ _ ↦ rfl
  split
  · exact fun _ ↦ rfl
  · refine Uploads.then uploads_decode (fun item ↦ ?_) fun _ _ ↦ rfl
    split
    · exact asksGiven_bind uploads_settle (fun u _ _ hnone ↦ absurd rfl (hnone u))
        fun e _ hr _ ↦ hr e rfl
    · exact fun _ ↦ rfl

theorem uploads_putAtPath : Uploads file cfg path none (StillFailing s)
    (putAtPath cfg path.display file.content) s := by
  refine Uploads.then (m := Errand.lift _) rfl (fun _ ↦ ?_) fun _ ↦ stillFailing_error
  refine Uploads.then (uploads_call ⟨rfl, rfl, rfl, rfl⟩) (fun reply ↦ ?_) fun _ ↦
    stillFailing_error
  split
  · exact uploads_settle
  · split
    · refine asksGiven_bind
        (R := fun r ↦ ∃ r', r.1 = .ok r' ∧ ((∀ u, r' ≠ .ok (some u)) → r.2 = s))
        (asksGiven_attempt (uploads_reconcileByContent.mono fun r hr ↦ ⟨_, rfl, hr⟩))
        (fun r s' hr ↦ ?_) fun e s' hr ↦ ?_
      · obtain ⟨r', hr', hsame⟩ := hr
        cases hr'
        rcases r with e | _ | u
        · exact fun _ _ ↦ hsame fun u h ↦ by cases h
        · exact fun _ _ ↦ hsame fun u h ↦ by cases h
        · exact stillFailing_ok
      · obtain ⟨r', hr', -⟩ := hr
        cases hr'
    · exact stillFailing_error

/-! ### Sessions -/

section

variable {t : Transfer} {target : Option (ObjectKey × String)}

theorem uploads_afterFragment {total stop : ℕ} {reply : Reply} :
    Uploads file cfg path existing (Still s) (afterFragment url total stop t reply) s := by
  rw [afterFragment]
  split
  · exact rfl
  · split
    · dsimp only
      split
      · exact rfl
      · split
        · split <;> exact rfl
        · exact rfl
    · split
      · refine Uploads.then uploads_probe (fun at' ↦ ?_) fun _ ↦ rfl
        cases at' <;> exact rfl
      · split <;> exact rfl

theorem uploads_sendFragment {offset len len' : ℕ} (hoffset : t.offset = offset) :
    Uploads file cfg path existing (Still s) (sendFragment url file.snap.len len
      ((file.content.drop offset).take len') t) s := by
  have hasks : AsksFor file cfg path existing (.send (.fragment url t.offset (t.offset + len - 1)
      file.snap.len ((file.content.drop offset).take len'))) := ⟨rfl, len', hoffset ▸ rfl⟩
  refine Uploads.then (asksGiven_attempt (uploads_callSession hasks)) (fun r ↦ ?_) fun _ ↦ rfl
  cases r with
  | ok reply => exact uploads_afterFragment
  | error e =>
    dsimp only
    split
    · exact rfl
    · refine Uploads.then uploads_probe (fun at' ↦ ?_) fun _ ↦ rfl
      cases at' <;> exact rfl

theorem uploads_recheck {cloudId : String} :
    Uploads file cfg path existing (Still s) (recheck cfg key cloudId) s :=
  Uploads.then (m := Errand.state) rfl
    (fun _ ↦ Uploads.then uploads_readTag (fun _ ↦ rfl) fun _ ↦ rfl) fun _ ↦ rfl

theorem uploads_transferRound : Uploads file cfg path existing (Still s)
    (transferRound cfg path url target file.snap t) s := by
  refine uploads_unchanged.gives ((uploads_readExactAt _ _).gives ?_)
  split
  · cases target with
    | none => exact uploads_sendFragment rfl
    | some known =>
      obtain ⟨key, cloudId⟩ := known
      refine Uploads.then uploads_recheck (fun found ↦ ?_) fun _ ↦ rfl
      split
      · exact uploads_sendFragment rfl
      · exact rfl
  · exact uploads_sendFragment rfl

theorem uploads_transferRounds {left : ℕ} : Uploads file cfg path existing (Still s)
    (transferRounds cfg path url target file.snap left t) s := by
  induction left generalizing t with
  | zero =>
    rw [transferRounds]
    split <;> exact rfl
  | succ left ih =>
    rw [transferRounds]
    split
    · refine Uploads.then uploads_transferRound (fun r ↦ ?_) fun _ ↦ rfl
      cases r with
      | inl settled => exact rfl
      | inr t => exact ih
    · exact rfl

/-- The session is opened at the object, or at the name. -/
theorem uploads_sessionRequest (hnone : target = none → existing = none)
    (hsome : ∀ key cloudId, target = some (key, cloudId) → Targets existing key) :
    Uploads file cfg path existing
      (fun r ↦ r.2 = s ∧ ∀ request, r.1 = .ok request →
        AsksFor file cfg path existing (.send request)
          ∧ (target.isSome → ∃ key, request = .itemSession key))
      (sessionRequest cfg path.display target) s := by
  cases target with
  | none =>
    refine Uploads.then (m := Errand.lift _) rfl (fun _ ↦ ⟨rfl, fun request h ↦ ?_⟩) fun _ ↦
      ⟨rfl, fun _ h ↦ by cases h⟩
    cases h
    exact ⟨⟨hnone rfl, rfl, rfl⟩, fun h ↦ by cases h⟩
  | some known =>
    obtain ⟨key, cloudId⟩ := known
    refine Uploads.then (m := Errand.state) rfl (fun known ↦ ?_) fun _ ↦
      ⟨rfl, fun _ h ↦ by cases h⟩
    split
    · exact ⟨rfl, fun _ h ↦ by cases h⟩
    · refine ⟨rfl, fun request h ↦ ?_⟩
      cases h
      exact ⟨hsome key cloudId rfl, fun _ ↦ ⟨key, rfl⟩⟩

theorem notGone_error {e : IoError} : NotGone s (.error e, s) :=
  ⟨stillFailing_error, fun h ↦ by cases h⟩

theorem uploads_uploadSession (hnone : target = none → existing = none)
    (hsome : ∀ key cloudId, target = some (key, cloudId) → Targets existing key) :
    Uploads file cfg path existing (NotGone s)
      (uploadSession cfg path path.display target file.snap) s := by
  refine asksGiven_bind (uploads_sessionRequest hnone hsome) (fun request s' hr ↦ ?_)
    fun e s' hr ↦ by
      obtain rfl := hr.1
      exact notGone_error
  obtain ⟨rfl, hrequest⟩ := hr
  obtain ⟨hasks, hitem⟩ := hrequest request rfl
  refine asksGiven_bind (uploads_sendAgain hasks _) (fun reply s' hr ↦ ?_) fun e s' hr ↦ by
    obtain rfl := hr.1
    exact notGone_error
  obtain ⟨rfl, hreply⟩ := hr
  split
  · -- an object that is there is not reported missing
    rename_i hgone
    obtain ⟨key, rfl⟩ := hitem hgone.2
    exact absurd hgone.1 (hreply reply rfl reply rfl)
  · split
    · exact notGone_error
    · refine Uploads.then uploads_decode (fun session ↦ ?_) fun _ ↦ notGone_error
      split
      · exact notGone_error
      · refine Uploads.then (asksGiven_attempt uploads_transferRounds) (fun r ↦ ?_) fun _ ↦
          notGone_error
        rcases r with e | item | _ | e
        · exact Uploads.then (asksGiven_attempt (uploads_callSession trivial))
            (fun _ ↦ notGone_error) fun _ ↦ notGone_error
        · exact uploads_settled
        · exact notGone_error
        · exact Uploads.then (asksGiven_attempt (uploads_callSession trivial))
            (fun _ ↦ notGone_error) fun _ ↦ notGone_error

end

/-- What is remembered once the recorded tag has been looked at. -/
def seeded (existing : Option Known) (s : KnownTags) : KnownTags :=
  match existing with
  | none => s
  | some known => seed known.cloudId known.tag s

theorem uploads_orCreate {m : GraphSink Written}
    (h : Uploads file cfg path existing (NotGone s) m s) :
    Uploads file cfg path existing (StillFailing s) (m >>= orCreate cfg path path.display) s := by
  refine asksGiven_bind h (fun written s' hr ↦ ?_) fun e s' hr _ _ ↦ hr.1 e rfl
  cases written with
  | done u => exact stillFailing_ok
  | gone => exact absurd rfl hr.2

/-- An upload that fails remembers no more than the recorded tag. -/
def Remembers (existing : Option Known) (s : KnownTags) (r : Except IoError Uploaded × KnownTags) :
    Prop :=
  ∀ e, r.1 = .error e → r.2 = s ∨ r.2 = seeded existing s

/-- **An upload asks for nothing else.** -/
theorem uploads_upload : Uploads file cfg path existing (Remembers existing s)
    (upload cfg path existing) s := by
  refine uploads_judgeFile.gives ?_
  cases existing with
  | none =>
    refine Uploads.gives (a := none) rfl ?_
    dsimp only
    split
    · exact (uploads_orCreate (uploads_uploadSession (fun _ ↦ rfl) fun _ _ h ↦ by cases h)).mono
        fun r hr e he ↦ Or.inl (hr e he)
    · exact uploads_readWhole.gives (uploads_putAtPath.mono fun r hr e he ↦ Or.inl (hr e he))
  | some known =>
    cases hkey : keyOfCloudId known.cloudId with
    | none =>
      rw [targetOf, hkey]
      exact fun _ _ ↦ Or.inl rfl
    | some key =>
      have htarget : Targets (some known) key := ⟨known, rfl, hkey⟩
      have hseeds : targetOf (some known) s
          = .done (.ok (some (key, known.cloudId)), seeded (some known) s) := by
        rw [targetOf, hkey]
        rfl
      refine asksGiven_bind (R := fun r ↦ r
        = (.ok (some (key, known.cloudId)), seeded (some known) s)) ?_ (fun target s' hr ↦ ?_)
        fun e s' hr ↦ by cases hr
      · rw [hseeds]
        rfl
      · cases hr
        dsimp only
        split
        · exact (uploads_orCreate (uploads_uploadSession (fun h ↦ by cases h)
            fun _ _ h ↦ by cases h; exact htarget)).mono fun r hr e he ↦ Or.inr (hr e he)
        · exact uploads_readWhole.gives ((uploads_orCreate (uploads_putAtItem htarget)).mono
            fun r hr e he ↦ Or.inr (hr e he))

end GraphSink

/-! ## What becomes of the drive -/

/-- A session of the upload. -/
def Owns (cfg : SinkConfig) (path : RelPath) (existing : Option Known) : Destination → Prop
  | .item key => Targets existing key
  | .path drive rel => existing = none ∧ drive = cfg.scope.drive ∧ rel = path.display

/-- What attempts can have left: the drive as it was, or one write of the content; and sessions that
have taken the beginning of it. -/
structure Kept (file : QuietFile) (cfg : SinkConfig) (path : RelPath) (existing : Option Known)
    (d₀ d : Drive) : Prop where
  written : d.clock = d₀.clock ∧ d.objects = d₀.objects ∧ d.names = d₀.names
    ∨ d₀.clock < d.clock ∧ ∃ key, Landed file cfg path existing d₀ d key
  sessions : ∀ url session, d.sessions url = some session → Owns cfg path existing session.target
    ∧ ∃ n ≤ file.content.length, session.received = file.content.take n

/-- The content is written to the object, and nothing else but the names may change. -/
structure Wrote (file : QuietFile) (key : ObjectKey) (names : DriveId → String → Option ObjectKey)
    (d d' : Drive) : Prop where
  objects : d'.objects = Function.update d.objects key (some ⟨file.content, d.clock + 1⟩)
  names : d'.names = names

theorem Targets.unique {key' : ObjectKey} (h : Targets existing key) (h' : Targets existing key') :
    key = key' := by
  obtain ⟨known, rfl, hkey⟩ := h
  obtain ⟨known', heq, hkey'⟩ := h'
  cases heq
  exact Option.some_inj.mp (hkey.symm.trans hkey')

/-- A request to an object that is there is not answered with a `404`. -/
theorem DriveService.Answers.status_ne {request : Request} {a : Except IoError Reply}
    (ha : svc.Answers file (.send request) d a d')
    (hserved : (svc.serve d request).1.status ≠ 404) :
    ∀ reply : Reply, a = .ok reply → reply.status ≠ 404 := by
  rintro reply rfl hstatus
  rcases ha with ⟨heq, -⟩ | ⟨hlost, -⟩
  · exact hserved (Except.ok.inj heq ▸ hstatus)
  · have htransient := hlost reply rfl
    simp [Reply.transient, hstatus] at htransient

namespace Kept

variable (h : Kept file cfg path existing d₀ d)
include h

/-- Nothing but the sessions changes. -/
theorem of_sessions (hclock : d'.clock = d.clock) (hobjects : d'.objects = d.objects)
    (hnames : d'.names = d.names)
    (hsessions : ∀ url session, d'.sessions url = some session →
      d.sessions url = some session ∨ Owns cfg path existing session.target
        ∧ ∃ n ≤ file.content.length, session.received = file.content.take n) :
    Kept file cfg path existing d₀ d' where
  written := by
    rw [hclock, hobjects, hnames]
    refine h.written.imp_right fun hwritten ↦ ?_
    obtain ⟨hlt, key, hlanded⟩ := hwritten
    exact ⟨hlt, key, hobjects ▸ hlanded.content, hobjects ▸ hlanded.others, hnames ▸ hlanded.isNew,
      hnames ▸ hlanded.isThere⟩
  sessions url session hs := (hsessions url session hs).elim (h.sessions url session) id

/-- The object of the upload is there all the time. -/
theorem isSome (hbegins : Begins svc cfg path existing d₀) (hkey : Targets existing key) :
    (d.objects key).isSome = true := by
  obtain ⟨known, hexisting, hk⟩ := id hkey
  have hthere := hbegins.isThere known key hexisting hk
  rcases h.written with ⟨-, hobjects, -⟩ | ⟨-, key', hlanded⟩
  · rw [hobjects, hthere]
  · obtain ⟨v, -, hcontent⟩ := hlanded.content
    have heq := hkey.unique ⟨known, hexisting, (hlanded.isThere known hexisting).1⟩
    rw [heq, hcontent]
    rfl

theorem clock_le : d₀.clock ≤ d.clock := by
  rcases h.written with ⟨hclock, -⟩ | ⟨hlt, -⟩
  · exact hclock.ge
  · exact hlt.le

/-- What is written to the object is all there is, whether it has been written before or not. -/
theorem landed_of_there (hkey : Targets existing key) (hwrote : Wrote file key d.names d d') :
    Landed file cfg path existing d₀ d' key := by
  obtain ⟨known, hexisting, hk⟩ := id hkey
  have hsome : existing ≠ none := by
    rw [hexisting]
    exact Option.some_ne_none known
  have hothers : (∀ k, k ≠ key → d.objects k = d₀.objects k) ∧ d.names = d₀.names := by
    rcases h.written with ⟨-, hobjects, hnames⟩ | ⟨-, key', hlanded⟩
    · exact ⟨fun k _ ↦ congrFun hobjects k, hnames⟩
    · obtain rfl := hkey.unique ⟨known, hexisting, (hlanded.isThere known hexisting).1⟩
      exact ⟨hlanded.others, (hlanded.isThere known hexisting).2⟩
  refine ⟨⟨d.clock + 1, Nat.lt_succ_of_le h.clock_le, ?_⟩, fun k hne ↦ ?_,
    fun hnone ↦ absurd hnone hsome, fun known' h' ↦ ?_⟩
  · rw [hwrote.objects, Function.update_self]
  · rw [hwrote.objects, Function.update_of_ne hne]
    exact hothers.1 k hne
  · cases hexisting.symm.trans h'
    exact ⟨hk, hwrote.names.trans hothers.2⟩

/-- A write to the object. -/
theorem write (hkey : Targets existing key) :
    Kept file cfg path existing d₀ (d.write key file.content) where
  written := Or.inr ⟨Nat.lt_succ_of_le h.clock_le, key, h.landed_of_there hkey ⟨rfl, rfl⟩⟩
  sessions := h.sessions

/-- Where a name is new and free, nothing has been written. -/
theorem unwritten (hnone : existing = none) (hfree : d.names cfg.scope.drive path.display = none) :
    d.clock = d₀.clock ∧ d.objects = d₀.objects ∧ d.names = d₀.names := by
  rcases h.written with hsame | ⟨-, key, hlanded⟩
  · exact hsame
  · rw [(hlanded.isNew hnone).2.2, Drive.name_names, Function.update_self, Function.update_self]
      at hfree
    cases hfree

/-- What is written to the name is all there is. -/
theorem landed_of_new (hbegins : Begins svc cfg path existing d₀) (hnone : existing = none)
    (hfree : d.names cfg.scope.drive path.display = none)
    (hwrote : Wrote file ⟨cfg.scope.drive, svc.made⟩
      (d.name cfg.scope.drive path.display ⟨cfg.scope.drive, svc.made⟩).names d d') :
    Landed file cfg path existing d₀ d' ⟨cfg.scope.drive, svc.made⟩ := by
  obtain ⟨-, hobjects, hnames⟩ := h.unwritten hnone hfree
  refine ⟨⟨d.clock + 1, Nat.lt_succ_of_le h.clock_le, ?_⟩, fun k hne ↦ ?_,
    fun _ ↦ ⟨rfl, (hbegins.isNew hnone).2, ?_⟩, fun known hknown ↦ ?_⟩
  · rw [hwrote.objects, Function.update_self]
  · rw [hwrote.objects, Function.update_of_ne hne, hobjects]
  · rw [hwrote.names, Drive.name_names, Drive.name_names, hnames]
  · cases hnone.symm.trans hknown

/-- A write to the name, where that is free. -/
theorem create (hbegins : Begins svc cfg path existing d₀) (hnone : existing = none)
    (hfree : d.names cfg.scope.drive path.display = none) :
    Kept file cfg path existing d₀ ((d.write ⟨cfg.scope.drive, svc.made⟩ file.content).name
      cfg.scope.drive path.display ⟨cfg.scope.drive, svc.made⟩) where
  written := Or.inr ⟨Nat.lt_succ_of_le h.clock_le, ⟨cfg.scope.drive, svc.made⟩,
    h.landed_of_new hbegins hnone hfree ⟨rfl, rfl⟩⟩
  sessions := h.sessions

/-- A write of the content, wherever the session goes. -/
theorem commit (hbegins : Begins svc cfg path existing d₀) (target : Destination)
    (howns : Owns cfg path existing target) :
    Kept file cfg path existing d₀ (svc.commit d file.content target).2 := by
  cases target with
  | item key =>
    rw [DriveService.commit]
    split
    · exact h.write howns
    · exact h
  | path drive rel =>
    obtain ⟨hnone, rfl, rfl⟩ := howns
    rw [DriveService.commit, DriveService.create]
    split
    · exact h
    · rename_i hfree
      exact h.create hbegins hnone (Option.not_isSome_iff_eq_none.mp hfree)

theorem setSession (url : String) (session : Option Session)
    (hsession : ∀ s, session = some s → Owns cfg path existing s.target
      ∧ ∃ n ≤ file.content.length, s.received = file.content.take n) :
    Kept file cfg path existing d₀ (d.setSession url session) := by
  refine h.of_sessions rfl rfl rfl fun url' s hs ↦ ?_
  rw [Drive.setSession_sessions] at hs
  by_cases hurl : url' = url
  · subst hurl
    rw [Function.update_self] at hs
    exact Or.inr (hsession s hs)
  · rw [Function.update_of_ne hurl] at hs
    exact Or.inl hs

theorem openSession (target : Destination) (howns : Owns cfg path existing target) :
    Kept file cfg path existing d₀ (svc.openSession d target).2 := by
  have hset : Kept file cfg path existing d₀
      (d.setSession (svc.url d.opened) (some ⟨target, []⟩)) := by
    refine h.setSession (svc.url d.opened) (some ⟨target, []⟩) fun s hs ↦ ?_
    cases hs
    exact ⟨howns, 0, Nat.zero_le _, rfl⟩
  exact hset.of_sessions rfl rfl rfl fun _ _ hs ↦ Or.inl hs

/-- A fragment that fits is what comes next in the file, and the last completes it. -/
theorem fragment (hbegins : Begins svc cfg path existing d₀) (url : String) (offset len : ℕ) :
    Kept file cfg path existing d₀
      (svc.fragment d url offset file.snap.len ((file.content.drop offset).take len)).2 := by
  rw [DriveService.fragment]
  split
  · exact h
  · rename_i session hsession
    obtain ⟨howns, n, hn, hreceived⟩ := h.sessions url session hsession
    have hlength : session.received.length = n := by
      rw [hreceived, List.length_take, min_eq_left hn]
    rw [hlength]
    split
    · exact h
    · rename_i hoffset
      obtain rfl := not_not.mp hoffset
      have hnext : session.received ++ (file.content.drop n).take len
          = file.content.take (n + len) := by
        rw [hreceived, List.take_add]
      have hbytes : ((file.content.drop n).take len).length
          = min len (file.content.length - n) := by
        rw [List.length_take, List.length_drop]
      rw [hnext, hbytes, file.len]
      split
      · refine h.setSession url (some { session with received := file.content.take (n + len) })
          fun s hs ↦ ?_
        cases hs
        exact ⟨howns, n + len, by omega, rfl⟩
      · have hwhole : file.content.take (n + len) = file.content :=
          List.take_of_length_le (by omega)
        rw [hwhole]
        exact (h.setSession url none (by rintro s ⟨⟩)).commit hbegins session.target howns

/-- **Whatever an upload of the file asks for** leaves no more than that. -/
theorem serve (hbegins : Begins svc cfg path existing d₀) {request : Request}
    (hasks : AsksFor file cfg path existing (.send request)) :
    Kept file cfg path existing d₀ (svc.serve d request).2 := by
  cases request with
  | metadata key => exact h
  | pathMetadata drive rel =>
    rw [DriveService.serve]
    split <;> exact h
  | children key => exact h
  | delete key ifMatch => exact h
  | patch key ifMatch name parent => exact h
  | putItem key tag body =>
    obtain ⟨hkey, rfl⟩ := hasks
    rw [DriveService.serve]
    split
    · exact h
    · split
      · exact h.write hkey
      · exact h
  | putPath drive rel body =>
    obtain ⟨hnone, rfl, rfl, rfl⟩ := hasks
    exact h.commit hbegins (.path cfg.scope.drive path.display) ⟨hnone, rfl, rfl⟩
  | itemSession key =>
    rw [DriveService.serve]
    split
    · exact h.openSession (.item key) hasks
    · exact h
  | pathSession drive rel =>
    rw [DriveService.serve]
    split
    · exact h
    · exact h.openSession (.path drive rel) hasks
  | fragment url offset stop total bytes =>
    obtain ⟨rfl, len, rfl⟩ := hasks
    exact h.fragment hbegins url offset len
  | probe url =>
    rw [DriveService.serve]
    split <;> exact h
  | cancel url => exact h.setSession url none (by rintro s ⟨⟩)

/-- The file is as it is, and the object is not reported missing. -/
theorem given (hbegins : Begins svc cfg path existing d₀) {q : Query} {a : q.Answer}
    (hasks : AsksFor file cfg path existing q) (ha : svc.Answers file q d a d') :
    Replies file q a := by
  cases q with
  | send request =>
    cases request with
    | putItem key tag body =>
      refine DriveService.Answers.status_ne ha ?_
      obtain ⟨o, ho⟩ := Option.isSome_iff_exists.mp (h.isSome hbegins hasks.1)
      rw [DriveService.serve, ho]
      dsimp only
      split
      · exact (by decide : (200 : ℕ) ≠ 404)
      · exact (by decide : (412 : ℕ) ≠ 404)
    | itemSession key =>
      refine DriveService.Answers.status_ne ha ?_
      rw [DriveService.serve, if_pos (h.isSome hbegins hasks)]
      exact (by decide : (200 : ℕ) ≠ 404)
    | _ => trivial
  | idAt path => trivial
  | isDir path => trivial
  | markAt path => exact congrArg Prod.fst ha
  | open' path => exact congrArg Prod.fst ha
  | opened => exact congrArg Prod.fst ha
  | current path head => exact congrArg Prod.fst ha
  | readWhole => exact congrArg Prod.fst ha
  | readExactAt offset len => exact congrArg Prod.fst ha

/-- Whether the request has been served or not. -/
theorem answers (hbegins : Begins svc cfg path existing d₀) {q : Query} {a : q.Answer}
    (hasks : AsksFor file cfg path existing q) (ha : svc.Answers file q d a d') :
    Kept file cfg path existing d₀ d' := by
  cases q with
  | send request =>
    rcases ha with ⟨-, rfl⟩ | ⟨-, rfl | rfl⟩
    · exact h.serve hbegins hasks
    · exact h
    · exact h.serve hbegins hasks
  | _ =>
    obtain rfl : d' = d := congrArg Prod.snd ha
    exact h

end Kept

theorem Begins.kept (hbegins : Begins svc cfg path existing d₀) :
    Kept file cfg path existing d₀ d₀ where
  written := Or.inl ⟨rfl, rfl, rfl⟩
  sessions url session hs := by
    rw [hbegins.fresh url] at hs
    cases hs

theorem GraphSink.seed_seed (cloudId : String) (tag : Option String) (s : KnownTags) :
    seed cloudId tag (seed cloudId tag s) = seed cloudId tag s := by
  cases tag with
  | none => rfl
  | some t =>
    by_cases hsome : (s.lookup cloudId).isSome = true
    · simp only [seed, hsome, if_true]
    · have hinserted : ((s.insert cloudId t).lookup cloudId).isSome = true := by
        rw [AList.lookup_insert]
        rfl
      simp only [seed, hsome, if_false, hinserted, if_true, Bool.false_eq_true]

theorem GraphSink.seeded_seeded (s : KnownTags) :
    GraphSink.seeded existing (GraphSink.seeded existing s) = GraphSink.seeded existing s := by
  cases existing with
  | none => rfl
  | some known => exact GraphSink.seed_seed known.cloudId known.tag s

/-- One attempt. -/
theorem Kept.fails (hbegins : Begins svc cfg path existing d₀)
    (h : Kept file cfg path existing d₀ d) {s s' : KnownTags}
    (hfails : Fails svc file cfg path existing (s, d) (s', d')) :
    Kept file cfg path existing d₀ d' ∧ (s' = s ∨ s' = GraphSink.seeded existing s) := by
  obtain ⟨e, hrun⟩ := hfails
  have hstable : Stable (svc.losing file) (Kept file cfg path existing d₀) :=
    fun _ _ hothers ↦ hothers.elim
  have huploads : GraphSink.Uploads file cfg path existing (GraphSink.Remembers existing s)
      (GraphSink.upload cfg path existing) s := GraphSink.uploads_upload
  have hsafe : Safe (svc.losing file) (Kept file cfg path existing d₀)
      (fun r d ↦ GraphSink.Remembers existing s r ∧ Kept file cfg path existing d₀ d)
      (GraphSink.upload cfg path existing s) d :=
    huploads.safe hstable (fun _ h ↦ h)
      (fun q d a d' hasks h ha ↦ ⟨h.given hbegins hasks ha, h.answers hbegins hasks ha⟩) h
  have hend : Safe (svc.losing file) (Kept file cfg path existing d₀)
      (fun r d ↦ GraphSink.Remembers existing s r ∧ Kept file cfg path existing d₀ d)
      (.done (.error e, s')) d' := hsafe.run hrun
  exact ⟨hend.ends.2, hend.ends.1 e rfl⟩

/-- **Any number of failed attempts** leave the drive as it was, or one write of the content, and
what the process remembers with the recorded tag in it at most. -/
theorem Attempts.kept (hbegins : Begins svc cfg path existing d₀) {s₀ s : KnownTags}
    (hattempts : Attempts svc file cfg path existing (s₀, d₀) (s, d)) :
    Kept file cfg path existing d₀ d
      ∧ (s = s₀ ∨ s = GraphSink.seeded existing s₀) := by
  have hrun : ∀ b : KnownTags × Drive, Attempts svc file cfg path existing (s₀, d₀) b →
      Kept file cfg path existing d₀ b.2 ∧ (b.1 = s₀ ∨ b.1 = GraphSink.seeded existing s₀) := by
    intro b hb
    induction hb with
    | refl => exact ⟨hbegins.kept, Or.inl rfl⟩
    | tail _ hfails ih =>
      obtain ⟨hkept, hsame⟩ := ih.1.fails hbegins hfails
      refine ⟨hkept, ?_⟩
      rcases ih.2 with hs | hs <;> rcases hsame with hs' | hs'
      · exact Or.inl (hs'.trans hs)
      · exact Or.inr (hs'.trans (congrArg _ hs))
      · exact Or.inr (hs'.trans hs)
      · exact Or.inr (hs'.trans ((congrArg _ hs).trans (GraphSink.seeded_seeded s₀)))
  exact hrun (s, d) hattempts

end HydrationAPI.Graph
