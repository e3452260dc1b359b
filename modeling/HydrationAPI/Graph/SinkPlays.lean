import HydrationAPI.Graph.SinkUpload
import HydrationAPI.Lib.Play

/-!
# The one run of an upload

Where a file stays as it is, and the service answers every request by a function of what it has been
asked before, an upload has one run. What the run comes to is read off the answers, one rule for
each part of an upload: a request that is answered for good is sent once, and a session is fed until
the fragment that completes the file.
-/

namespace HydrationAPI.Graph

open Dialogue Errand
open Client (RelPath)
open Client.Upload (Known Uploaded)

/-- A file that stays as it is. -/
structure QuietFile where
  content : List UInt8
  snap : Snapshot
  len : snap.len = content.length

/-- The local directory, where nothing happens to the file. -/
structure QuietFile.Answered {W : Type} (file : QuietFile)
    (answer : (q : Query) → W → q.Answer × W) : Prop where
  mark : ∀ path w, answer (.markAt path) w = (.absent, w)
  open' : ∀ path w, answer (.open' path) w = (.ok (), w)
  opened : ∀ w, answer .opened w = (.ok file.snap, w)
  current : ∀ path head w, answer (.current path head) w = (.ok file.snap, w)
  whole : ∀ w, answer .readWhole w = (.ok file.content, w)
  part : ∀ offset len w,
    answer (.readExactAt offset len) w = (.ok ((file.content.drop offset).take len), w)

namespace GraphSink

variable {W : Type} {answer : (q : Query) → W → q.Answer × W} {file : QuietFile} {cfg : SinkConfig}
  {path : RelPath} {rel url : String} {request : Request} {reply : Reply} {item : DriveItem}
  {drive : DriveId} {s : KnownTags} {w w' : W}

/-! ## Requests -/

/-- A question is answered. -/
theorem play_ask {q : Query} {a : q.Answer} (h : answer q w = (a, w')) :
    play answer ((Errand.ask q : GraphSink q.Answer) s) w = ((.ok a, s), w') := by
  change ((Except.ok (answer q w).1, s), (answer q w).2) = _
  rw [h]

/-- A request whose answer is not a passing failure is sent once. -/
theorem play_sendAgain {unreachable : IoError → IoError} {again : ℕ}
    (hanswer : answer (.send request) w = (.ok reply, w')) (hfinal : reply.transient = false) :
    play answer (sendAgain request unreachable again s) w = ((.ok reply, s), w') := by
  have honce : play answer (sendOnce request unreachable s) w = ((.ok reply, s), w') :=
    (play_bind_ok (play_ask hanswer)).trans rfl
  cases again with
  | zero => exact honce
  | succ again =>
    rw [sendAgain]
    refine (play_bind_ok honce).trans ?_
    rw [if_neg (Bool.eq_false_iff.mp hfinal)]
    rfl

theorem play_call (hanswer : answer (.send request) w = (.ok reply, w'))
    (hfinal : reply.transient = false) :
    play answer (call request s) w = ((.ok reply, s), w') := play_sendAgain hanswer hfinal

/-- One whose answer is lost is not sent again. -/
theorem play_call_lost {e : IoError} (hanswer : answer (.send request) w = (.error e, w')) :
    play answer (call request s) w = ((.error e, s), w') :=
  play_bind_error ((play_bind_ok (play_ask hanswer)).trans rfl)

/-- The tag that is read back. -/
theorem play_readTag {key : ObjectKey}
    (hanswer : answer (.send (.metadata key)) w = (.ok reply, w')) (hstatus : reply.status = 200)
    (hitem : reply.item = .ok item) :
    play answer (readTag cfg key s) w = ((.ok (contentTag item.body cfg.tags), s), w') := by
  have hfinal : reply.transient = false := by simp [Reply.transient, hstatus]
  rw [readTag, play_bind_ok (play_call hanswer hfinal), if_neg (by simp [Reply.success, hstatus]),
    hitem]
  rfl

/-- **What is settled names the object**, read back or not. -/
theorem play_settle (cfg : SinkConfig) (s : KnownTags) {id : ItemId} {item' : DriveItem}
    (hid : item.id = some id.raw)
    (hanswer : answer (.send (.metadata ⟨drive, id⟩)) w = (.ok reply, w))
    (hstatus : reply.status = 200) (hitem : reply.item = .ok item') :
    ∃ tag s', play answer (settle cfg drive (.ok item) s) w
      = ((.ok ⟨(⟨drive, id⟩ : ObjectKey).toCloudId, tag⟩, s'), w) := by
  have hdecode : play answer ((decode (.ok item) : GraphSink DriveItem) s) w
      = ((.ok item, s), w) := rfl
  rw [settle, play_bind_ok hdecode, hid]
  dsimp only
  rw [Id.parse_raw]
  dsimp only
  cases contentTag item.body cfg.tags with
  | some t => exact ⟨_, _, rfl⟩
  | none =>
    dsimp only
    rw [play_bind_ok (play_readTag hanswer hstatus hitem)]
    cases contentTag item'.body cfg.tags with
    | some t => exact ⟨_, _, rfl⟩
    | none => exact ⟨_, _, rfl⟩

theorem play_checked (hname : checkRelativeName rel = .ok ()) :
    play answer ((Errand.lift (checkRelativeName rel) : GraphSink Unit) s) w
      = ((.ok (), s), w) := by
  rw [hname]
  rfl

theorem play_not_checked {e : IoError} (hname : checkRelativeName rel = .error e) :
    play answer ((Errand.lift (checkRelativeName rel) : GraphSink Unit) s) w
      = ((.error e, s), w) := by
  rw [hname]
  rfl

/-- A create that is accepted. -/
theorem play_putAtPath_success {body : List UInt8} {u : Uploaded} {s' : KnownTags} {w'' : W}
    (hname : checkRelativeName rel = .ok ())
    (hanswer : answer (.send (.putPath cfg.scope.drive rel body)) w = (.ok reply, w'))
    (hfinal : reply.transient = false) (hsuccess : reply.success = true)
    (hsettled : play answer (settle cfg cfg.scope.drive reply.item s) w' = ((.ok u, s'), w'')) :
    play answer (putAtPath cfg rel body s) w = ((.ok u, s'), w'') := by
  rw [putAtPath, play_bind_ok (play_checked hname), play_bind_ok (play_call hanswer hfinal),
    if_pos hsuccess]
  exact hsettled

/-- A create at a name that is taken: the object is looked at, and taken on if it is what was sent.
-/
theorem play_putAtPath_collision {body : List UInt8} {look : Reply} {u : Uploaded} {s' : KnownTags}
    (hname : checkRelativeName rel = .ok ())
    (hanswer : answer (.send (.putPath cfg.scope.drive rel body)) w = (.ok reply, w'))
    (hfinal : reply.transient = false) (hsuccess : reply.success = false)
    (hcollided : collidedOnName reply = true)
    (hlook : answer (.send (.pathMetadata cfg.scope.drive rel)) w' = (.ok look, w'))
    (hstatus : look.status = 200) (hitem : look.item = .ok item)
    (hsettled : play answer (settle cfg cfg.scope.drive (.ok item) s) w' = ((.ok u, s'), w')) :
    (isSent item rel ⟨body.length, quickxorOf body⟩ = true
        ∧ play answer (putAtPath cfg rel body s) w = ((.ok u, s'), w'))
      ∨ isSent item rel ⟨body.length, quickxorOf body⟩ = false
        ∧ ∃ e, play answer (putAtPath cfg rel body s) w = ((.error e, s), w') := by
  have hfound : look.transient = false := by simp [Reply.transient, hstatus]
  have hdecode : play answer ((decode look.item : GraphSink DriveItem) s) w'
      = ((.ok item, s), w') := by
    rw [hitem]
    rfl
  rw [putAtPath, play_bind_ok (play_checked hname), play_bind_ok (play_call hanswer hfinal),
    if_neg (Bool.eq_false_iff.mp hsuccess), if_pos hcollided]
  cases hsent : isSent item rel ⟨body.length, quickxorOf body⟩ with
  | true =>
    have hsame : play answer (reconcileByContent cfg cfg.scope.drive rel
        ⟨body.length, quickxorOf body⟩ s) w' = ((.ok (some u), s'), w') := by
      rw [reconcileByContent, play_bind_ok (play_call hlook hfound),
        if_neg (by simp [Reply.success, hstatus]), play_bind_ok hdecode, if_pos hsent, hitem]
      exact (play_bind_ok hsettled).trans rfl
    exact Or.inl ⟨rfl, (play_bind_ok (play_attempt hsame)).trans rfl⟩
  | false =>
    have hother : play answer (reconcileByContent cfg cfg.scope.drive rel
        ⟨body.length, quickxorOf body⟩ s) w' = ((.ok none, s), w') := by
      rw [reconcileByContent, play_bind_ok (play_call hlook hfound),
        if_neg (by simp [Reply.success, hstatus]), play_bind_ok hdecode,
        if_neg (Bool.eq_false_iff.mp hsent)]
      rfl
    exact Or.inr ⟨rfl, _, (play_bind_ok (play_attempt hother)).trans rfl⟩

/-- What is thrown after a last request is thrown whatever that is answered. -/
theorem play_attempt_throw {α β : Type} (m : GraphSink α) (e : IoError) (s : KnownTags) (w : W) :
    ∃ s' w', play answer ((Errand.attempt m >>= fun _ ↦ Errand.throw e : GraphSink β) s) w
      = ((.error e, s'), w') := by
  rcases hplay : play answer (m s) w with ⟨⟨r, s'⟩, w'⟩
  exact ⟨s', w', (play_bind_ok (play_attempt hplay)).trans rfl⟩

/-! ## The local file -/

section

variable (hfile : file.Answered answer)
include hfile

theorem play_isPlaceholder :
    play answer (isPlaceholder path s) w = ((.ok false, s), w) :=
  (play_bind_ok (play_ask (hfile.mark path w))).trans rfl

theorem play_judgeFile : play answer (judgeFile path s) w = ((.ok file.snap, s), w) := by
  have hopen : play answer (openFile path s) w = ((.ok (), s), w) :=
    (play_bind_ok (play_ask (hfile.open' path w))).trans rfl
  rw [judgeFile, play_bind_ok hopen, play_bind_ok (play_isPlaceholder hfile)]
  exact (play_bind_ok (play_ask (hfile.opened w))).trans rfl

theorem play_readWhole : play answer (readWhole s) w = ((.ok file.content, s), w) :=
  (play_bind_ok (play_ask (hfile.whole w))).trans rfl

theorem play_readExactAt (offset len : ℕ) :
    play answer (readExactAt offset len s) w
      = ((.ok ((file.content.drop offset).take len), s), w) :=
  (play_bind_ok (play_ask (hfile.part offset len w))).trans rfl

end

theorem difference_self (snap : Snapshot) : difference snap snap = none := by
  simp [difference]

theorem play_unchanged (hfile : file.Answered answer) :
    play answer (unchanged path file.snap s) w = ((.ok (), s), w) := by
  have hcurrent : play answer
      ((local' (Errand.ask (Query.current path file.snap.head.length)) : GraphSink Snapshot) s) w
      = ((.ok file.snap, s), w) := (play_bind_ok (play_ask (hfile.current _ _ w))).trans rfl
  refine (play_bind_ok (play_isPlaceholder hfile)).trans ((play_bind_ok hcurrent).trans ?_)
  rw [difference_self]
  rfl

/-! ## Sessions -/

theorem afterFragment_accepted {total stop next : ℕ} {t : Transfer} (hstatus : reply.status = 202)
    (hnext : (outstandingOffset reply).getD (stop + 1) = next) (hmore : next < total)
    (hfurther : t.offset < next) :
    afterFragment url total stop t reply = pure (.inr { t with stalls := 0, offset := next }) := by
  rw [afterFragment, if_neg (by omega), if_pos hstatus, hnext]
  dsimp only
  rw [if_neg (by omega), if_neg (by omega)]

theorem play_sendFragment {total len : ℕ} {bytes : List UInt8} {t : Transfer}
    {r : Transferred ⊕ Transfer}
    (hanswer : answer (.send (.fragment url t.offset (t.offset + len - 1) total bytes)) w
      = (.ok reply, w')) (hfinal : reply.transient = false)
    (hafter : afterFragment url total (t.offset + len - 1) t reply = pure r) :
    play answer (sendFragment url total len bytes t s) w = ((.ok r, s), w') := by
  have hsent : play answer (Errand.attempt (callSession
      (.fragment url t.offset (t.offset + len - 1) total bytes)) s) w
        = ((.ok (.ok reply), s), w') :=
    play_attempt (play_sendAgain hanswer hfinal)
  rw [sendFragment]
  refine (play_bind_ok hsent).trans ?_
  dsimp only
  rw [hafter]
  rfl

/-- **A session that is fed**: with so many bytes of the file taken the world is `taken` of that
many, any fragment but the last is accepted, and the last is answered by `reply`, from which it
follows that the transfer has settled on `settled`. -/
structure Fed (answer : (q : Query) → W → q.Answer × W) (file : QuietFile) (url : String)
    (taken : ℕ → W) (reply : Reply) (settled : Transferred) (w' : W) : Prop where
  more : ∀ offset len, 0 < len → offset + len < file.snap.len → ∃ accepted : Reply,
    answer (.send (.fragment url offset (offset + len - 1) file.snap.len
      ((file.content.drop offset).take len))) (taken offset) = (.ok accepted, taken (offset + len))
    ∧ accepted.status = 202 ∧ (outstandingOffset accepted).getD (offset + len) = offset + len
  last : ∀ offset len, 0 < len → offset + len = file.snap.len →
    answer (.send (.fragment url offset (offset + len - 1) file.snap.len
      ((file.content.drop offset).take len))) (taken offset) = (.ok reply, w')
  final : reply.transient = false
  settles : ∀ stop t,
    afterFragment url file.snap.len stop t reply = (pure (.inl settled) : GraphSink _)

section

variable {target : Option (ObjectKey × String)} {taken : ℕ → W} {settled : Transferred}
  {t : Transfer} {left : ℕ}

/-- What is found where the object is looked at again, before the last fragment. -/
def Rechecks (answer : (q : Query) → W → q.Answer × W) (cfg : SinkConfig)
    (target : Option (ObjectKey × String)) (s : KnownTags) (taken : ℕ → W) (found : Bool) : Prop :=
  ∀ key cloudId, target = some (key, cloudId) → ∀ offset,
    play answer (recheck cfg key cloudId s) (taken offset) = ((.ok found, s), taken offset)

/-- **One round of a session that is fed**: the next fragment is due, or the transfer has settled,
or it is given up since the object has moved on. -/
theorem play_transferRound (cfg : SinkConfig) (path : RelPath) {found : Bool}
    (hfile : file.Answered answer) (hfed : Fed answer file url taken reply settled w')
    (hfound : Rechecks answer cfg target s taken found) (hmore : t.offset < file.snap.len) :
    (∃ t' : Transfer, t'.offset = t.offset + fragmentSize cfg ∧ t'.offset < file.snap.len
        ∧ t'.rechecked = t.rechecked
        ∧ play answer (transferRound cfg path url target file.snap t s) (taken t.offset)
          = ((.ok (.inr t'), s), taken t'.offset))
      ∨ (found = true ∨ target = none ∨ t.rechecked = true)
        ∧ play answer (transferRound cfg path url target file.snap t s) (taken t.offset)
          = ((.ok (.inl settled), s), w')
      ∨ found = false ∧ target ≠ none
        ∧ play answer (transferRound cfg path url target file.snap t s) (taken t.offset)
          = ((.ok (.inl (.abandoned movedOn)), s), taken t.offset) := by
  have hsize := fragmentSize_pos cfg
  set len := min (fragmentSize cfg) (file.snap.len - t.offset) with hlen
  have hlast (h : t.offset + len = file.snap.len) (t' : Transfer) (ht' : t'.offset = t.offset) :
      play answer (sendFragment url file.snap.len len ((file.content.drop t.offset).take len) t' s)
        (taken t.offset) = ((.ok (.inl settled), s), w') := by
    have hserve := hfed.last t.offset len (by omega) h
    rw [← ht'] at hserve ⊢
    exact play_sendFragment hserve hfed.final (hfed.settles _ _)
  rw [transferRound, play_bind_ok (play_unchanged hfile)]
  dsimp only
  rw [play_bind_ok (play_readExactAt hfile t.offset len)]
  by_cases hend : t.offset + len = file.snap.len
  · right
    by_cases hrechecked : t.rechecked = false
    · rw [if_pos ⟨hend, hrechecked⟩]
      cases target with
      | none => exact Or.inl ⟨Or.inr (Or.inl rfl), hlast hend _ rfl⟩
      | some known =>
        obtain ⟨key, cloudId⟩ := known
        dsimp only
        rw [play_bind_ok (hfound key cloudId rfl t.offset)]
        cases found with
        | true => exact Or.inl ⟨Or.inl rfl, hlast hend _ rfl⟩
        | false => exact Or.inr ⟨rfl, Option.some_ne_none _, rfl⟩
    · rw [if_neg fun h ↦ hrechecked h.2]
      exact Or.inl ⟨Or.inr (Or.inr (Bool.not_eq_false _ ▸ hrechecked)), hlast hend t rfl⟩
  · left
    have hstop : t.offset + len - 1 + 1 = t.offset + len := by omega
    obtain ⟨accepted, hserve, hstatus, hnext⟩ := hfed.more t.offset len (by omega) (by omega)
    have hafter : afterFragment url file.snap.len (t.offset + len - 1) t accepted
        = pure (.inr { t with stalls := 0, offset := t.offset + len }) :=
      afterFragment_accepted hstatus (hstop ▸ hnext) (by omega) (by omega)
    rw [if_neg fun h ↦ hend h.1]
    refine ⟨{ t with stalls := 0, offset := t.offset + len }, ?_, ?_, rfl,
      play_sendFragment hserve (by simp [Reply.transient, hstatus]) hafter⟩
    · dsimp only
      omega
    · dsimp only
      omega

/-- As long as there is a round for every fragment, the transfer settles, or the object has moved
on. -/
theorem play_transferRounds {found : Bool} (hfile : file.Answered answer)
    (hfed : Fed answer file url taken reply settled w')
    (hfound : Rechecks answer cfg target s taken found) (hmore : t.offset < file.snap.len)
    (hleft : file.snap.len ≤ t.offset + left * fragmentSize cfg) (hfirst : t.rechecked = false) :
    (found = true ∨ target = none)
        ∧ play answer (transferRounds cfg path url target file.snap left t s) (taken t.offset)
          = ((.ok settled, s), w')
      ∨ found = false ∧ target ≠ none
        ∧ ∃ offset, play answer (transferRounds cfg path url target file.snap left t s)
          (taken t.offset) = ((.ok (.abandoned movedOn), s), taken offset) := by
  induction left generalizing t with
  | zero => omega
  | succ left ih =>
    rw [transferRounds, if_pos hmore]
    rcases play_transferRound cfg path hfile hfed hfound hmore with
      ⟨t', hoffset, hmore', hsame, hround⟩ | ⟨hwhy, hround⟩ | ⟨hnot, hsome, hround⟩
    · rw [play_bind_ok hround]
      refine ih hmore' ?_ (hsame.trans hfirst)
      rw [Nat.succ_mul] at hleft
      omega
    · refine Or.inl ⟨?_, (play_bind_ok hround).trans rfl⟩
      exact hwhy.imp_right fun h ↦ h.resolve_right (Bool.eq_false_iff.mp hfirst)
    · exact Or.inr ⟨hnot, hsome, t.offset, (play_bind_ok hround).trans rfl⟩

theorem play_transfer (cfg : SinkConfig) (path : RelPath) {found : Bool}
    (hfile : file.Answered answer) (hfed : Fed answer file url taken reply settled w')
    (hfound : Rechecks answer cfg target s taken found) (hmore : 0 < file.snap.len) :
    (found = true ∨ target = none)
        ∧ play answer (transfer cfg path url target file.snap s) (taken 0) = ((.ok settled, s), w')
      ∨ found = false ∧ target ≠ none
        ∧ ∃ offset, play answer (transfer cfg path url target file.snap s) (taken 0)
          = ((.ok (.abandoned movedOn), s), taken offset) := by
  have hrounds := Nat.lt_mul_div_succ file.snap.len (fragmentSize_pos cfg)
  have hhead : (file.snap.len / fragmentSize cfg + 1) * fragmentSize cfg
      ≤ (file.snap.len / fragmentSize cfg + fragmentHeadroom + 1 + 1) * fragmentSize cfg :=
    Nat.mul_le_mul_right _ (by omega)
  rw [Nat.mul_comm] at hrounds
  exact play_transferRounds (t := ⟨0, 0, 0, false⟩) hfile hfed hfound hmore
    (by dsimp only; omega) rfl

end

/-- What a session comes to that has been opened. -/
def sessionResult (cfg : SinkConfig) (drive : DriveId) (url : String) :
    Transferred → GraphSink Written
  | .committed item => settle cfg drive item >>= fun u ↦ pure (.done u)
  | .vanished => Errand.throw vanished
  | .abandoned e => Errand.attempt (callSession (.cancel url)) >>= fun _ ↦ Errand.throw e

/-- **A session that is opened** is transferred, and what it comes to follows from that. -/
theorem play_uploadSession {target : Option (ObjectKey × String)} {session : SessionBody}
    {w'' : W} {s' : KnownTags} {settled : Transferred}
    (hrequest : play answer (sessionRequest cfg rel target s) w = ((.ok request, s), w))
    (hanswer : answer (.send request) w = (.ok reply, w')) (hstatus : reply.status = 200)
    (hsession : reply.session = .ok session) (hurl : session.uploadUrl = some url)
    (hsecure : (Text.stripPrefix "https://" url).isSome = true)
    (htransfer : play answer (transfer cfg path url target file.snap s) w'
      = ((.ok settled, s'), w'')) :
    play answer (uploadSession cfg path rel target file.snap s) w
      = play answer (sessionResult cfg ((target.map fun t ↦ t.1.drive).getD cfg.scope.drive) url
        settled s') w'' := by
  have hfinal : reply.transient = false := by simp [Reply.transient, hstatus]
  have hdecode : play answer ((decode reply.session : GraphSink SessionBody) s) w'
      = ((.ok session, s), w') := by
    rw [hsession]
    rfl
  have hfilter : session.uploadUrl.filter (fun u ↦ (Text.stripPrefix "https://" u).isSome)
      = some url := by
    rw [hurl, Option.filter_some, if_pos hsecure]
  rw [uploadSession.eq_def, play_bind_ok hrequest, play_bind_ok (play_call hanswer hfinal),
    if_neg (by simp [hstatus]), if_neg (by simp [Reply.success, hstatus]), play_bind_ok hdecode,
    hfilter]
  refine (play_bind_ok (play_attempt htransfer)).trans ?_
  cases target <;> cases settled <;> rfl

/-- One that is not opened is refused. -/
theorem play_uploadSession_refused {target : Option (ObjectKey × String)}
    (hrequest : play answer (sessionRequest cfg rel target s) w = ((.ok request, s), w))
    (hanswer : answer (.send request) w = (.ok reply, w')) (hfinal : reply.transient = false)
    (hsuccess : reply.success = false) (hthere : reply.status = 404 → target = none) :
    play answer (uploadSession cfg path rel target file.snap s) w
      = ((.error (serviceRefused "the upload session was refused" reply), s), w') := by
  have hgone : ¬ (reply.status = 404 ∧ target.isSome = true) := by
    rintro ⟨hstatus, hsome⟩
    rw [hthere hstatus] at hsome
    cases hsome
  rw [uploadSession.eq_def, play_bind_ok hrequest, play_bind_ok (play_call hanswer hfinal),
    if_neg hgone, if_pos (by simp [hsuccess])]
  rfl

/-! ## Uploads -/

/-- What an upload comes to once the file has been judged, and it is known what it is addressed at.
-/
theorem play_upload {existing : Option Known} {target : Option (ObjectKey × String)}
    {s' : KnownTags} (cfg : SinkConfig) (path : RelPath) (hfile : file.Answered answer)
    (htarget : play answer (targetOf existing s) w = ((.ok target, s'), w)) :
    play answer (upload cfg path existing s) w
      = if file.snap.len > cfg.simpleUploadMax then
          play answer ((uploadSession cfg path path.display target file.snap
            >>= orCreate cfg path path.display) s') w
        else match target with
          | some (key, cloudId) => play answer ((putAtItem cfg key cloudId file.content
            >>= orCreate cfg path path.display) s') w
          | none => play answer (putAtPath cfg path.display file.content s') w := by
  rw [upload, play_bind_ok (play_judgeFile hfile), play_bind_ok htarget]
  split
  · rfl
  · rw [play_bind_ok (play_readWhole hfile)]
    cases target with
    | none => rfl
    | some known => rfl

end GraphSink

end HydrationAPI.Graph
