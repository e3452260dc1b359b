import HydrationAPI.Graph.FailedAttempts
import HydrationAPI.Graph.SinkRules

/-!
# An upload that is repeated

One more upload, to which everything is answered. A create succeeds where the name is free; where it
is taken, the file that is sent as one `PUT` takes on what has the name if that is shown to be the
file, and the one that goes up through a session is refused. An update succeeds where the tag that
is remembered is one of the version that is there, and is refused otherwise, whoever wrote that
version. So what repeats repair is an upload of which nothing has been committed, or a create of the
first kind; one whose commit has not been heard of is refused, and will be for ever.
-/

namespace HydrationAPI.Graph

open Dialogue Errand
open Client (RelPath)
open Client.Upload (Known Uploaded)
open NormalService (itemReply nameTaken)

/-- The drive with one session more, which is at this. -/
def Drive.during (d : Drive) (url : String) (session : Option Session) : Drive :=
  { d.setSession url session with opened := d.opened + 1 }

theorem Drive.during_setSession (d : Drive) (url : String) (session session' : Option Session) :
    (d.during url session).setSession url session' = d.during url session' := by
  simp [during, setSession, Function.update_idem]

/-- A part of an upload fails. -/
def Errs {α : Type} (svc : DriveService) (file : QuietFile) (m : GraphSink α) (s : KnownTags)
    (d : Drive) : Prop :=
  ∃ e s' d', play (svc.answer file) (m s) d = ((.error e, s'), d')

variable {svc : DriveService} {file : QuietFile} {cfg : SinkConfig} {path : RelPath}
  {rel url : String} {existing : Option Known} {known : Known} {d₀ d d' : Drive} {key : ObjectKey}
  {o : Stored} {s : KnownTags} {request : Request} {reply : Reply} {cloudId tag : String}

theorem Errs.bind {α β : Type} {m : GraphSink α} (f : α → GraphSink β)
    (h : Errs svc file m s d) : Errs svc file (m >>= f) s d := by
  obtain ⟨e, s', d', hplay⟩ := h
  exact ⟨e, s', d', play_bind_error hplay⟩

namespace GraphSink

theorem answer_serve (file : QuietFile) (hserve : svc.serve d request = (reply, d')) :
    svc.answer file (.send request) d = (.ok reply, d') := by
  rw [DriveService.answer, hserve]

/-- The object is shown. -/
theorem serve_metadata (svc : DriveService) (ho : d.objects key = some o) :
    svc.serve d (.metadata key) = (itemReply 200 (svc.shown key o), d) := by
  rw [DriveService.serve, DriveService.look, ho]

/-- What has been written, or is taken on, is named. -/
theorem play_settle_told (svc : DriveService) (file : QuietFile) (cfg : SinkConfig) (s : KnownTags)
    {item : DriveItem} (hid : item.id = some key.item.raw) (ho : d.objects key = some o) :
    ∃ tag s', play (svc.answer file) (settle cfg key.drive (.ok item) s) d
      = ((.ok ⟨key.toCloudId, tag⟩, s'), d) :=
  play_settle cfg s hid (answer_serve file (serve_metadata svc ho)) rfl rfl

/-! ## One `PUT` -/

section

variable (svc : DriveService) (cfg : SinkConfig)

theorem create_free (content : List UInt8) (hfree : d.names cfg.scope.drive rel = none) :
    svc.create d cfg.scope.drive rel content
      = (itemReply 201 (svc.told ⟨cfg.scope.drive, svc.made⟩ ⟨content, d.clock + 1⟩),
        (d.write ⟨cfg.scope.drive, svc.made⟩ content).name cfg.scope.drive rel
          ⟨cfg.scope.drive, svc.made⟩) := by
  rw [DriveService.create, if_neg (by simp [hfree])]

theorem create_taken (content : List UInt8) (hkey : d.names cfg.scope.drive rel = some key) :
    svc.create d cfg.scope.drive rel content = (nameTaken, d) := by
  rw [DriveService.create, if_pos (by simp [hkey])]

end

theorem play_putAtPath_new (svc : DriveService) (s : KnownTags)
    (hname : checkRelativeName rel = .ok ()) (hfree : d.names cfg.scope.drive rel = none) :
    ∃ tag s' d', play (svc.answer file) (putAtPath cfg rel file.content s) d
        = ((.ok ⟨(⟨cfg.scope.drive, svc.made⟩ : ObjectKey).toCloudId, tag⟩, s'), d')
      ∧ Wrote file ⟨cfg.scope.drive, svc.made⟩
        (d.name cfg.scope.drive rel ⟨cfg.scope.drive, svc.made⟩).names d d' := by
  have hcreate := create_free svc cfg file.content hfree
  obtain ⟨tag, s', hsettled⟩ := play_settle_told svc file cfg s
    (svc.told_id ⟨cfg.scope.drive, svc.made⟩ ⟨file.content, d.clock + 1⟩)
    (d := (svc.create d cfg.scope.drive rel file.content).2) (o := ⟨file.content, d.clock + 1⟩)
    (by rw [hcreate, Drive.name_objects, Drive.write_objects, Function.update_self])
  rw [hcreate] at hsettled
  exact ⟨tag, s', _, play_putAtPath_success hname (answer_serve file hcreate) rfl rfl hsettled,
    rfl, rfl⟩

/-- What has the name is taken on if it is shown to be the file. -/
theorem play_putAtPath_there (svc : DriveService) (s : KnownTags)
    (hname : checkRelativeName rel = .ok ()) (hkey : d.names cfg.scope.drive rel = some key)
    (hdrive : key.drive = cfg.scope.drive) (ho : d.objects key = some o) :
    (Identical (svc.shown key o) rel file.content ∧ ∃ tag s', play (svc.answer file)
        (putAtPath cfg rel file.content s) d = ((.ok ⟨key.toCloudId, tag⟩, s'), d))
      ∨ ¬ Identical (svc.shown key o) rel file.content
        ∧ Errs svc file (putAtPath cfg rel file.content) s d := by
  have hlook : svc.serve d (.pathMetadata cfg.scope.drive rel)
      = (itemReply 200 (svc.shown key o), d) := by
    rw [DriveService.serve, hkey]
    exact serve_metadata svc ho
  obtain ⟨tag, s', hsettled⟩ := play_settle_told svc file cfg s (svc.shown_id key o) ho
  rw [hdrive] at hsettled
  rcases play_putAtPath_collision hname (answer_serve file (create_taken svc cfg file.content hkey))
    rfl rfl rfl (answer_serve file hlook) rfl rfl hsettled with ⟨hsent, hplay⟩ | ⟨hsent, e, hplay⟩
  · exact Or.inl ⟨isSent_iff.mp hsent, tag, s', hplay⟩
  · exact Or.inr ⟨isSent_iff.not.mp (Bool.eq_false_iff.mp hsent), e, s, d, hplay⟩

/-- An update is bound to the tag that is remembered. -/
theorem play_putAtItem (svc : DriveService) (file : QuietFile) (ho : d.objects key = some o)
    (htag : precondition cfg.tags s cloudId = some tag) :
    (svc.accepts tag o.version = true ∧ ∃ etag s' d', play (svc.answer file)
        (putAtItem cfg key cloudId file.content s) d
          = ((.ok (.done ⟨key.toCloudId, etag⟩), s'), d') ∧ Wrote file key d.names d d')
      ∨ svc.accepts tag o.version = false
        ∧ Errs svc file (putAtItem cfg key cloudId file.content) s d := by
  have hstate : play (svc.answer file) ((Errand.state : GraphSink KnownTags) s) d
      = ((.ok s, s), d) := rfl
  have hserve : svc.serve d (.putItem key tag file.content)
      = if svc.accepts tag o.version then svc.update d key file.content
        else (DriveService.preconditionFailed, d) := by
    rw [DriveService.serve, ho]
  rw [Errs, putAtItem, play_bind_ok hstate, htag]
  dsimp only
  cases haccepts : svc.accepts tag o.version with
  | true =>
    rw [haccepts, if_pos rfl, DriveService.update] at hserve
    obtain ⟨etag, s', hsettled⟩ := play_settle_told svc file cfg s (svc.told_id key _)
      (d := d.write key file.content) (o := ⟨file.content, d.clock + 1⟩)
      (by rw [Drive.write_objects, Function.update_self])
    rw [play_bind_ok (play_call (answer_serve file hserve) rfl)]
    exact Or.inl ⟨rfl, etag, s', _, (play_bind_ok hsettled).trans rfl, rfl, rfl⟩
  | false =>
    rw [haccepts, if_neg Bool.false_ne_true] at hserve
    rw [play_bind_ok (play_call (answer_serve file hserve) rfl)]
    exact Or.inr ⟨rfl, _, _, _, rfl⟩

/-! ## Sessions -/

/-- A fragment that begins where the session is. -/
theorem serve_fragment (svc : DriveService) {target : Destination} (offset len : ℕ)
    (hfits : offset + len ≤ file.content.length) {stop : ℕ} :
    svc.serve (d.during url (some ⟨target, file.content.take offset⟩))
        (.fragment url offset stop file.snap.len ((file.content.drop offset).take len))
      = if offset + len < file.snap.len then (svc.accepted (offset + len),
          d.during url (some ⟨target, file.content.take (offset + len)⟩))
        else svc.commit (d.during url none) (file.content.take (offset + len)) target := by
  have hat : (d.during url (some ⟨target, file.content.take offset⟩)).sessions url
      = some ⟨target, file.content.take offset⟩ := Function.update_self ..
  have htaken : (file.content.take offset).length = offset := by
    rw [List.length_take]
    omega
  have hbytes : ((file.content.drop offset).take len).length = len := by
    rw [List.length_take, List.length_drop]
    omega
  have hnext : file.content.take offset ++ (file.content.drop offset).take len
      = file.content.take (offset + len) := List.take_add.symm
  rw [DriveService.serve, DriveService.fragment, hat]
  dsimp only
  rw [htaken, hbytes, hnext, if_neg (not_not.mpr rfl), Drive.during_setSession,
    Drive.during_setSession]

/-- The session takes the file as it comes, and with the last fragment it is committed. -/
theorem session_fed {settled : Transferred} (svc : DriveService) (file : QuietFile)
    (target : Destination)
    (hcommit : svc.commit (d.during (svc.url d.opened) none) file.content target = (reply, d'))
    (hfinal : reply.transient = false) (hsettles : ∀ stop t,
      afterFragment (svc.url d.opened) file.snap.len stop t reply
        = (pure (.inl settled) : GraphSink _)) :
    Fed (svc.answer file) file (svc.url d.opened)
      (fun n ↦ d.during (svc.url d.opened) (some ⟨target, file.content.take n⟩)) reply settled
      d' where
  more offset len hlen hmore := by
    have hlen' := file.len
    obtain ⟨hstatus, hnext⟩ := svc.accepts_more (offset + len)
    refine ⟨svc.accepted (offset + len), answer_serve file ?_, hstatus, hnext⟩
    rw [serve_fragment svc offset len (by omega), if_pos (by omega)]
  last offset len hlen hlast := by
    have hlen' := file.len
    refine answer_serve file ?_
    rw [serve_fragment svc offset len (by omega), if_neg (by omega),
      List.take_of_length_le (by omega), hcommit]
  final := hfinal
  settles := hsettles

/-- A session that is opened takes the whole file, if the object has not moved on. -/
theorem play_session {settled : Transferred} {object : Option (ObjectKey × String)} {found : Bool}
    (cfg : SinkConfig) (path : RelPath) (target : Destination)
    (hrequest : play (svc.answer file) (sessionRequest cfg rel object s) d
      = ((.ok request, s), d)) (hserve : svc.serve d request = svc.openSession d target)
    (hcommit : svc.commit (d.during (svc.url d.opened) none) file.content target = (reply, d'))
    (hfinal : reply.transient = false) (hsettles : ∀ stop t,
      afterFragment (svc.url d.opened) file.snap.len stop t reply
        = (pure (.inl settled) : GraphSink _))
    (hfound : Rechecks (svc.answer file) cfg object s
      (fun n ↦ d.during (svc.url d.opened) (some ⟨target, file.content.take n⟩)) found)
    (hmore : 0 < file.snap.len) :
    (found = true ∨ object = none) ∧ play (svc.answer file)
        (uploadSession cfg path rel object file.snap s) d
          = play (svc.answer file) (sessionResult cfg
            ((object.map fun t ↦ t.1.drive).getD cfg.scope.drive) (svc.url d.opened) settled s) d'
      ∨ (found = false ∧ object ≠ none)
        ∧ Errs svc file (uploadSession cfg path rel object file.snap) s d := by
  have hfed := session_fed svc file target hcommit hfinal hsettles
  have hopen := answer_serve file hserve
  rcases play_transfer cfg path (svc.answered file) hfed hfound hmore with
    ⟨hwhy, htransfer⟩ | ⟨hnot, hsome, offset, htransfer⟩
  · exact Or.inl ⟨hwhy, play_uploadSession hrequest hopen rfl rfl rfl (svc.secure _) htransfer⟩
  · refine Or.inr ⟨⟨hnot, hsome⟩, ?_⟩
    rw [Errs, play_uploadSession hrequest hopen rfl rfl rfl (svc.secure _) htransfer]
    exact ⟨_, play_attempt_throw _ _ _ _⟩

/-- Before the last fragment the object is looked at again. -/
theorem play_recheck (svc : DriveService) (file : QuietFile) (cfg : SinkConfig) (s : KnownTags)
    (ho : d.objects key = some o) (htag : precondition cfg.tags s cloudId = some tag) :
    play (svc.answer file) (recheck cfg key cloudId s) d
      = ((.ok (decide (contentTag (svc.shown key o).body cfg.tags = s.lookup cloudId)), s), d) := by
  obtain ⟨t, ht, -⟩ := carried_of_precondition htag
  have hstate : play (svc.answer file) ((Errand.state : GraphSink KnownTags) s) d
      = ((.ok s, s), d) := rfl
  have hread : play (svc.answer file) (readTag cfg key s) d
      = ((.ok (contentTag (svc.shown key o).body cfg.tags), s), d) :=
    play_readTag (answer_serve file (serve_metadata svc ho)) rfl rfl
  rw [recheck, play_bind_ok hstate, play_bind_ok hread, ht]
  cases contentTag (svc.shown key o).body cfg.tags with
  | none => rfl
  | some t' => rfl

/-- **A session for an update** is given up if the object has moved on. -/
theorem play_itemSession (svc : DriveService) (file : QuietFile) (path : RelPath) (rel : String)
    (ho : d.objects key = some o) (htag : precondition cfg.tags s cloudId = some tag)
    (hmore : 0 < file.snap.len) :
    (contentTag (svc.shown key o).body cfg.tags = s.lookup cloudId ∧ ∃ etag s' d',
        play (svc.answer file) (uploadSession cfg path rel (some (key, cloudId)) file.snap s) d
          = ((.ok (.done ⟨key.toCloudId, etag⟩), s'), d') ∧ Wrote file key d.names d d')
      ∨ contentTag (svc.shown key o).body cfg.tags ≠ s.lookup cloudId
        ∧ Errs svc file (uploadSession cfg path rel (some (key, cloudId)) file.snap) s d := by
  have hrequest : play (svc.answer file) (sessionRequest cfg rel (some (key, cloudId)) s) d
      = ((.ok (.itemSession key), s), d) := by
    have hstate : play (svc.answer file) ((Errand.state : GraphSink KnownTags) s) d
        = ((.ok s, s), d) := rfl
    rw [sessionRequest, play_bind_ok hstate, htag]
    rfl
  have hserve : svc.serve d (.itemSession key) = svc.openSession d (.item key) := by
    rw [DriveService.serve, if_pos (by rw [ho]; rfl)]
  have hcommit : svc.commit (d.during (svc.url d.opened) none) file.content (.item key)
      = svc.update (d.during (svc.url d.opened) none) key file.content := by
    rw [DriveService.commit, if_pos]
    exact congrArg Option.isSome ho
  have hfound : Rechecks (svc.answer file) cfg (some (key, cloudId)) s
      (fun n ↦ d.during (svc.url d.opened) (some ⟨.item key, file.content.take n⟩))
      (decide (contentTag (svc.shown key o).body cfg.tags = s.lookup cloudId)) := by
    rintro key' cloudId' ⟨⟩ offset
    exact play_recheck svc file cfg s ho htag
  rcases play_session cfg path (.item key) hrequest hserve hcommit rfl (fun _ _ ↦ rfl) hfound hmore
    with ⟨hwhy, hplay⟩ | ⟨hnot, herrs⟩
  · have hcurrent := of_decide_eq_true (hwhy.resolve_right (Option.some_ne_none _))
    obtain ⟨etag, s', hsettled⟩ := play_settle_told svc file cfg s (svc.told_id key _)
      (d := (svc.update (d.during (svc.url d.opened) none) key file.content).2)
      (o := ⟨file.content, d.clock + 1⟩) (Function.update_self ..)
    exact Or.inl ⟨hcurrent, etag, s', _, hplay.trans ((play_bind_ok hsettled).trans rfl), rfl, rfl⟩
  · exact Or.inr ⟨of_decide_eq_false hnot.1, herrs⟩

/-- A session for a create, where the name is free. -/
theorem play_pathSession_free (svc : DriveService) (file : QuietFile) (path : RelPath)
    (s : KnownTags) (hname : checkRelativeName rel = .ok ())
    (hfree : d.names cfg.scope.drive rel = none) (hmore : 0 < file.snap.len) : ∃ tag s' d',
      play (svc.answer file) (uploadSession cfg path rel none file.snap s) d
        = ((.ok (.done ⟨(⟨cfg.scope.drive, svc.made⟩ : ObjectKey).toCloudId, tag⟩), s'), d')
      ∧ Wrote file ⟨cfg.scope.drive, svc.made⟩
        (d.name cfg.scope.drive rel ⟨cfg.scope.drive, svc.made⟩).names d d' := by
  have hrequest : play (svc.answer file) (sessionRequest cfg rel none s) d
      = ((.ok (.pathSession cfg.scope.drive rel), s), d) :=
    (play_bind_ok (play_checked hname)).trans rfl
  have hserve : svc.serve d (.pathSession cfg.scope.drive rel)
      = svc.openSession d (.path cfg.scope.drive rel) := by
    rw [DriveService.serve, hfree, Option.isSome_none, Bool.and_false]
    rfl
  have hcommit := create_free (d := d.during (svc.url d.opened) none) svc cfg file.content hfree
  have hfound : Rechecks (svc.answer file) cfg none s (fun n ↦ d.during (svc.url d.opened)
      (some ⟨.path cfg.scope.drive rel, file.content.take n⟩)) true := by
    rintro key cloudId ⟨⟩
  rcases play_session cfg path (.path cfg.scope.drive rel) hrequest hserve hcommit rfl
    (fun _ _ ↦ rfl) hfound hmore with ⟨-, hplay⟩ | ⟨⟨hnot, -⟩, -⟩
  · obtain ⟨tag, s', hsettled⟩ := play_settle_told svc file cfg s
      (svc.told_id ⟨cfg.scope.drive, svc.made⟩ ⟨file.content, d.clock + 1⟩)
      (d := (svc.create (d.during (svc.url d.opened) none) cfg.scope.drive rel file.content).2)
      (o := ⟨file.content, d.clock + 1⟩)
      (by rw [hcommit, Drive.name_objects, Drive.write_objects]; exact Function.update_self ..)
    rw [hcommit] at hsettled
    exact ⟨tag, s', _, hplay.trans ((play_bind_ok hsettled).trans rfl), rfl, rfl⟩
  · cases hnot

/-- Where it is taken, the session is refused when it is opened, or when it commits. -/
theorem play_pathSession_taken (svc : DriveService) (file : QuietFile) (path : RelPath)
    (s : KnownTags) (hname : checkRelativeName rel = .ok ())
    (hkey : d.names cfg.scope.drive rel = some key) (hmore : 0 < file.snap.len) :
    Errs svc file (uploadSession cfg path rel none file.snap) s d := by
  have hrequest : play (svc.answer file) (sessionRequest cfg rel none s) d
      = ((.ok (.pathSession cfg.scope.drive rel), s), d) :=
    (play_bind_ok (play_checked hname)).trans rfl
  by_cases hearly : svc.early = true
  · have hserve : svc.serve d (.pathSession cfg.scope.drive rel) = (nameTaken, d) := by
      rw [DriveService.serve, hkey, Option.isSome_some, Bool.and_true, if_pos hearly]
    exact ⟨_, _, _, play_uploadSession_refused hrequest (answer_serve file hserve) rfl rfl
      fun _ ↦ rfl⟩
  · have hserve : svc.serve d (.pathSession cfg.scope.drive rel)
        = svc.openSession d (.path cfg.scope.drive rel) := by
      rw [DriveService.serve, Bool.eq_false_iff.mpr hearly, Bool.false_and]
      rfl
    have hcommit := create_taken (d := d.during (svc.url d.opened) none) svc cfg file.content hkey
    have hfound : Rechecks (svc.answer file) cfg none s (fun n ↦ d.during (svc.url d.opened)
        (some ⟨.path cfg.scope.drive rel, file.content.take n⟩)) true := by
      rintro key cloudId ⟨⟩
    rcases play_session cfg path (.path cfg.scope.drive rel) hrequest hserve hcommit rfl
      (fun _ _ ↦ rfl) hfound hmore with ⟨-, hplay⟩ | ⟨-, herrs⟩
    · rw [Errs, hplay]
      exact ⟨_, play_attempt_throw _ _ _ _⟩
    · exact herrs

/-! ## Uploads -/

/-- A create at a name the service will not hold. -/
theorem upload_bad_name (svc : DriveService) (file : QuietFile) (cfg : SinkConfig) (s : KnownTags)
    (d : Drive) {e : IoError} (hname : checkRelativeName path.display = .error e) :
    Errs svc file (upload cfg path none) s d := by
  have htarget : play (svc.answer file) (targetOf none s) d = ((.ok none, s), d) := rfl
  rw [Errs, play_upload cfg path (svc.answered file) htarget]
  split
  · exact ⟨e, s, d, play_bind_error (play_bind_error (play_bind_error (play_not_checked hname)))⟩
  · exact ⟨e, s, d, play_bind_error (play_not_checked hname)⟩

/-- An update whose recorded identity names no object. -/
theorem upload_bad_id (svc : DriveService) (file : QuietFile) (cfg : SinkConfig) (path : RelPath)
    (s : KnownTags) (d : Drive) (hkey : keyOfCloudId known.cloudId = none) :
    Errs svc file (upload cfg path (some known)) s d := by
  obtain ⟨e, htarget⟩ : ∃ e, play (svc.answer file) (targetOf (some known) s) d
      = ((.error e, s), d) := by
    rw [targetOf, hkey]
    exact ⟨_, rfl⟩
  rw [Errs, upload, play_bind_ok (play_judgeFile (svc.answered file))]
  exact ⟨e, s, d, play_bind_error htarget⟩

/-- A create where the name is free. -/
theorem upload_free (svc : DriveService) (file : QuietFile) (s : KnownTags)
    (hname : checkRelativeName path.display = .ok ())
    (hfree : d.names cfg.scope.drive path.display = none) : ∃ tag s' d',
      play (svc.answer file) (upload cfg path none s) d
        = ((.ok ⟨(⟨cfg.scope.drive, svc.made⟩ : ObjectKey).toCloudId, tag⟩, s'), d')
      ∧ Wrote file ⟨cfg.scope.drive, svc.made⟩
        (d.name cfg.scope.drive path.display ⟨cfg.scope.drive, svc.made⟩).names d d' := by
  have htarget : play (svc.answer file) (targetOf none s) d = ((.ok none, s), d) := rfl
  rw [play_upload cfg path (svc.answered file) htarget]
  split
  · obtain ⟨tag, s', d', hplay, hwrote⟩ :=
      play_pathSession_free svc file path s hname hfree (by omega)
    exact ⟨tag, s', d', (play_bind_ok hplay).trans rfl, hwrote⟩
  · exact play_putAtPath_new svc s hname hfree

/-- A create where it is taken. -/
theorem upload_taken (svc : DriveService) (file : QuietFile) (s : KnownTags)
    (hname : checkRelativeName path.display = .ok ())
    (hkey : d.names cfg.scope.drive path.display = some key) (hdrive : key.drive = cfg.scope.drive)
    (ho : d.objects key = some o) :
    ((file.snap.len ≤ cfg.simpleUploadMax ∧ Identical (svc.shown key o) path.display file.content)
        ∧ ∃ tag s', play (svc.answer file) (upload cfg path none s) d
          = ((.ok ⟨key.toCloudId, tag⟩, s'), d))
      ∨ ¬ (file.snap.len ≤ cfg.simpleUploadMax
          ∧ Identical (svc.shown key o) path.display file.content)
        ∧ Errs svc file (upload cfg path none) s d := by
  have htarget : play (svc.answer file) (targetOf none s) d = ((.ok none, s), d) := rfl
  rw [Errs, play_upload cfg path (svc.answered file) htarget]
  split
  · rename_i hlarge
    have herrs := play_pathSession_taken svc file path s hname hkey (by omega)
    exact Or.inr ⟨fun h ↦ absurd h.1 (by omega), herrs.bind (orCreate cfg path path.display)⟩
  · rename_i hsmall
    rcases play_putAtPath_there svc s hname hkey hdrive ho with ⟨hsame, hplay⟩ | ⟨hother, herrs⟩
    · exact Or.inl ⟨⟨not_lt.mp hsmall, hsame⟩, hplay⟩
    · exact Or.inr ⟨fun h ↦ hother h.2, herrs⟩

/-- Where no tag is remembered that a write could be bound to, nothing is written. -/
theorem play_putAtItem_unbound {body : List UInt8} (htag : precondition cfg.tags s cloudId = none) :
    play (svc.answer file) (putAtItem cfg key cloudId body s) d
      = ((.error noPrecondition, s), d) := by
  have hstate : play (svc.answer file) ((Errand.state : GraphSink KnownTags) s) d
      = ((.ok s, s), d) := rfl
  rw [putAtItem, play_bind_ok hstate, htag]
  rfl

theorem play_sessionRequest_unbound (htag : precondition cfg.tags s cloudId = none) :
    play (svc.answer file) (sessionRequest cfg rel (some (key, cloudId)) s) d
      = ((.error noPrecondition, s), d) := by
  have hstate : play (svc.answer file) ((Errand.state : GraphSink KnownTags) s) d
      = ((.ok s, s), d) := rfl
  rw [sessionRequest, play_bind_ok hstate, htag]
  rfl

/-- **An update**: written where the remembered tag is one of the version that is there, and refused
otherwise. -/
theorem upload_existing (svc : DriveService) (file : QuietFile) (cfg : SinkConfig) (path : RelPath)
    (s : KnownTags) (hkey : keyOfCloudId known.cloudId = some key) (ho : d.objects key = some o) :
    (Current svc file cfg known s d ∧ ∃ tag s' d', play (svc.answer file)
        (upload cfg path (some known) s) d = ((.ok ⟨key.toCloudId, tag⟩, s'), d')
      ∧ Wrote file key d.names d d')
      ∨ ¬ Current svc file cfg known s d
        ∧ Errs svc file (upload cfg path (some known)) s d := by
  have htarget : play (svc.answer file) (targetOf (some known) s) d
      = ((.ok (some (key, known.cloudId)), seed known.cloudId known.tag s), d) := by
    rw [targetOf, hkey]
    rfl
  have hone {o' : Stored} (h : d.objects key = some o') : o' = o :=
    Option.some_inj.mp (h.symm.trans ho)
  have hcurrent : Current svc file cfg known s d ↔ ∃ tag,
      precondition cfg.tags (seed known.cloudId known.tag s) known.cloudId = some tag
      ∧ if file.snap.len > cfg.simpleUploadMax then
          contentTag (svc.shown key o).body cfg.tags
            = (seed known.cloudId known.tag s).lookup known.cloudId
        else svc.accepts tag o.version = true := by
    constructor
    · rintro ⟨key', o', tag, hkey', ho', htag, hthere⟩
      obtain rfl := Option.some_inj.mp (hkey.symm.trans hkey')
      exact ⟨tag, htag, hone ho' ▸ hthere⟩
    · rintro ⟨tag, htag, hthere⟩
      exact ⟨key, o, tag, hkey, ho, htag, hthere⟩
  rw [Errs, play_upload cfg path (svc.answered file) htarget, hcurrent]
  cases htag : precondition cfg.tags (seed known.cloudId known.tag s) known.cloudId with
  | none =>
    refine Or.inr ⟨?_, ?_⟩
    · rintro ⟨_, h, -⟩
      cases h
    · split
      · exact ⟨_, _, _, play_bind_error (play_bind_error (play_sessionRequest_unbound htag))⟩
      · exact ⟨_, _, _, play_bind_error (play_putAtItem_unbound htag)⟩
  | some tag =>
    split
    · rename_i hlarge
      rcases play_itemSession svc file path path.display ho htag (by omega) with
        ⟨hsame, etag, s', d', hplay, hwrote⟩ | ⟨hmoved, herrs⟩
      · exact Or.inl ⟨⟨tag, rfl, hsame⟩, etag, s', d', (play_bind_ok hplay).trans rfl, hwrote⟩
      · refine Or.inr ⟨?_, herrs.bind (orCreate cfg path path.display)⟩
        rintro ⟨_, -, h⟩
        exact hmoved h
    · rcases play_putAtItem svc file ho htag with
        ⟨haccepts, etag, s', d', hplay, hwrote⟩ | ⟨hnot, herrs⟩
      · exact Or.inl ⟨⟨tag, rfl, haccepts⟩, etag, s', d', (play_bind_ok hplay).trans rfl, hwrote⟩
      · refine Or.inr ⟨?_, herrs.bind (orCreate cfg path path.display)⟩
        rintro ⟨_, heq, h⟩
        cases heq
        exact absurd h (Bool.eq_false_iff.mp hnot)

end GraphSink

/-! ## What repeats repair -/

/-- What has the name is the object that has been written. -/
theorem Kept.landed_of_taken (h : Kept file cfg path existing d₀ d)
    (hbegins : Begins svc cfg path existing d₀) (hnone : existing = none)
    (hkey : d.names cfg.scope.drive path.display = some key) :
    key.drive = cfg.scope.drive ∧ Landed file cfg path existing d₀ d key := by
  rcases h.written with ⟨-, -, hnames⟩ | ⟨-, key', hlanded⟩
  · rw [hnames, (hbegins.isNew hnone).1] at hkey
    cases hkey
  · obtain ⟨hdrive, -, hnames⟩ := hlanded.isNew hnone
    rw [hnames, Drive.name_names, Function.update_self, Function.update_self] at hkey
    obtain rfl := Option.some_inj.mp hkey
    exact ⟨hdrive, hlanded⟩

theorem Errs.not_repaired (h : Errs svc file (GraphSink.upload cfg path existing) s d) :
    ¬ Repaired svc file cfg path existing d₀ s d := by
  rintro ⟨key, tag, hok, -⟩
  obtain ⟨e, s', d', hplay⟩ := h
  rw [hplay] at hok
  cases hok

theorem repaired_of_play {tag : Option String} {s' : KnownTags}
    (hplay : play (svc.answer file) (GraphSink.upload cfg path existing s) d
      = ((.ok ⟨key.toCloudId, tag⟩, s'), d'))
    (hlanded : Landed file cfg path existing d₀ d' key) :
    Repaired svc file cfg path existing d₀ s d := by
  refine ⟨key, tag, ?_, ?_⟩
  · rw [hplay]
  · rw [hplay]
    exact hlanded

/-- **One more upload** of a file that is new. -/
theorem Kept.repaired_new (h : Kept file cfg path none d₀ d) (hbegins : Begins svc cfg path none d₀)
    (s : KnownTags) :
    Repaired svc file cfg path none d₀ s d ↔ Repairable svc file cfg path none s d := by
  rw [Repairable]
  cases hname : checkRelativeName path.display with
  | error e =>
    have herrs := GraphSink.upload_bad_name svc file cfg s d hname
    exact ⟨fun h ↦ absurd h herrs.not_repaired, fun h ↦ by cases h.1⟩
  | ok u =>
    cases hfree : d.names cfg.scope.drive path.display with
    | none =>
      obtain ⟨tag, s', d', hplay, hwrote⟩ := GraphSink.upload_free svc file s hname hfree
      exact ⟨fun _ ↦ ⟨rfl, Or.inl rfl⟩,
        fun _ ↦ repaired_of_play hplay (h.landed_of_new hbegins rfl hfree hwrote)⟩
    | some key =>
      obtain ⟨hdrive, hlanded⟩ := h.landed_of_taken hbegins rfl hfree
      obtain ⟨v, -, ho⟩ := hlanded.content
      have hadopts : file.snap.len ≤ cfg.simpleUploadMax ∧ Adoptable svc file cfg path d
          ↔ file.snap.len ≤ cfg.simpleUploadMax
            ∧ Identical (svc.shown key ⟨file.content, v⟩) path.display file.content := by
        refine and_congr_right fun _ ↦ ⟨?_, fun hsame ↦ ⟨key, _, hfree, ho, hsame⟩⟩
        rintro ⟨key', o, hkey', ho', hsame⟩
        obtain rfl := Option.some_inj.mp (hfree.symm.trans hkey')
        obtain rfl := Option.some_inj.mp (ho.symm.trans ho')
        exact hsame
      rw [hadopts]
      rcases GraphSink.upload_taken svc file s hname hfree hdrive ho with
        ⟨hsame, tag, s', hplay⟩ | ⟨hother, herrs⟩
      · exact ⟨fun _ ↦ ⟨rfl, Or.inr hsame⟩, fun _ ↦ repaired_of_play hplay hlanded⟩
      · refine ⟨fun h ↦ absurd h herrs.not_repaired, fun hrepairable ↦ ?_⟩
        exact absurd (hrepairable.2.resolve_left (Option.some_ne_none key)) hother

/-- One more upload of a file whose object is there. -/
theorem Kept.repaired_existing (h : Kept file cfg path (some known) d₀ d)
    (hbegins : Begins svc cfg path (some known) d₀) (s : KnownTags) :
    Repaired svc file cfg path (some known) d₀ s d
      ↔ Repairable svc file cfg path (some known) s d := by
  rw [Repairable]
  cases hkey : keyOfCloudId known.cloudId with
  | none =>
    have herrs := GraphSink.upload_bad_id svc file cfg path s d hkey
    refine ⟨fun h ↦ absurd h herrs.not_repaired, ?_⟩
    rintro ⟨key, o, tag, hkey', -⟩
    cases hkey.symm.trans hkey'
  | some key =>
    have htargets : Targets (some known) key := ⟨known, rfl, hkey⟩
    obtain ⟨o, ho⟩ := Option.isSome_iff_exists.mp (h.isSome hbegins htargets)
    rcases GraphSink.upload_existing svc file cfg path s hkey ho with
      ⟨hcurrent, tag, s', d', hplay, hwrote⟩ | ⟨hnot, herrs⟩
    · exact ⟨fun _ ↦ hcurrent,
        fun _ ↦ repaired_of_play hplay (h.landed_of_there htargets hwrote)⟩
    · exact ⟨fun h ↦ absurd h herrs.not_repaired, fun h ↦ absurd h hnot⟩

theorem GraphSink.seed_of_seeded {s₀ : KnownTags}
    (h : s = s₀ ∨ s = GraphSink.seeded (some known) s₀) :
    GraphSink.seed known.cloudId known.tag s = GraphSink.seed known.cloudId known.tag s₀ := by
  rcases h with rfl | rfl
  · rfl
  · exact GraphSink.seed_seed known.cloudId known.tag s₀

/-- **A tag of one version is none of another**: once the file has been written, what was remembered
before is of no use. -/
theorem Current.unwritten {s₀ : KnownTags} (hbefore : Current svc file cfg known s₀ d₀)
    (hafter : Current svc file cfg known s d) (h : Kept file cfg path (some known) d₀ d)
    (hseed : GraphSink.seed known.cloudId known.tag s = GraphSink.seed known.cloudId known.tag s₀) :
    d.clock = d₀.clock := by
  obtain ⟨key, o, tag, hkey, ho, htag, hthere⟩ := hbefore
  obtain ⟨key', o', tag', hkey', ho', htag', hthere'⟩ := hafter
  obtain rfl := Option.some_inj.mp (hkey.symm.trans hkey')
  rw [hseed] at htag' hthere'
  obtain rfl := Option.some_inj.mp (htag.symm.trans htag')
  have hversion : o.version = o'.version := by
    split at hthere
    · rename_i hlarge
      rw [if_pos hlarge] at hthere'
      obtain ⟨t, ht, hcarried⟩ := carried_of_precondition htag
      exact svc.shown_one key o o' tag (cTag_of_carried (hthere.trans ht) hcarried)
        (cTag_of_carried (hthere'.trans ht) hcarried)
    · rename_i hsmall
      rw [if_neg hsmall] at hthere'
      exact svc.accepts_one tag o.version o'.version hthere hthere'
  have hold := d₀.dated key o ho
  rcases h.written with ⟨hclock, -⟩ | ⟨-, key', hlanded⟩
  · exact hclock
  · obtain ⟨v, hnew, hcontent⟩ := hlanded.content
    obtain rfl := Option.some_inj.mp (hkey.symm.trans (hlanded.isThere known rfl).1)
    obtain rfl := Option.some_inj.mp (ho'.symm.trans hcontent)
    dsimp only at hversion
    omega

/-- What can be repaired where the upload was good at first. -/
theorem Kept.repairable_iff (h : Kept file cfg path existing d₀ d)
    (hbegins : Begins svc cfg path existing d₀) {s₀ : KnownTags}
    (hseeded : s = s₀ ∨ s = GraphSink.seeded existing s₀)
    (hgood : Repairable svc file cfg path existing s₀ d₀) :
    Repairable svc file cfg path existing s d ↔ d.clock = d₀.clock
      ∨ existing = none ∧ file.snap.len ≤ cfg.simpleUploadMax ∧ Adoptable svc file cfg path d := by
  cases existing with
  | none =>
    constructor
    · rintro ⟨-, hfree | hadopts⟩
      · exact Or.inl (h.unwritten rfl hfree).1
      · exact Or.inr ⟨rfl, hadopts⟩
    · rintro (hclock | ⟨-, hadopts⟩)
      · refine ⟨hgood.1, Or.inl ?_⟩
        rcases h.written with ⟨-, -, hnames⟩ | ⟨hlt, -⟩
        · rw [hnames, (hbegins.isNew rfl).1]
        · omega
      · exact ⟨hgood.1, Or.inr hadopts⟩
  | some known =>
    have hseed := GraphSink.seed_of_seeded hseeded
    constructor
    · exact fun hcurrent ↦ Or.inl (Current.unwritten hgood hcurrent h hseed)
    · rintro (hclock | ⟨hnone, -⟩)
      · obtain ⟨key, o, tag, hkey, ho, htag, hthere⟩ := hgood
        refine ⟨key, o, tag, hkey, ?_, hseed ▸ htag, hseed ▸ hthere⟩
        rcases h.written with ⟨-, hobjects, -⟩ | ⟨hlt, -⟩
        · rw [hobjects, ho]
        · omega
      · cases hnone

/-- **What repeats repair**, after any number of attempts that have failed. -/
theorem repaired_iff {s₀ : KnownTags} (hbegins : Begins svc cfg path existing d₀)
    (hattempts : Attempts svc file cfg path existing (s₀, d₀) (s, d)) :
    (Repaired svc file cfg path existing d₀ s d ↔ Repairable svc file cfg path existing s d)
      ∧ (Repairable svc file cfg path existing s₀ d₀ →
        (Repaired svc file cfg path existing d₀ s d ↔ d.clock = d₀.clock
          ∨ existing = none ∧ file.snap.len ≤ cfg.simpleUploadMax
            ∧ Adoptable svc file cfg path d)) := by
  obtain ⟨hkept, hseeded⟩ := hattempts.kept hbegins
  have hrepaired : Repaired svc file cfg path existing d₀ s d
      ↔ Repairable svc file cfg path existing s d := by
    cases existing with
    | none => exact hkept.repaired_new hbegins s
    | some known => exact hkept.repaired_existing hbegins s
  exact ⟨hrepaired, fun hgood ↦ hrepaired.trans (hkept.repairable_iff hbegins hseeded hgood)⟩

/-! ## Replies that are lost -/

/-- Every request is served, and no reply arrives. -/
def DriveService.lostAnswer (svc : DriveService) (file : QuietFile) :
    (q : Query) → Drive → q.Answer × Drive
  | .send request, d => (.error (errorOther "the connection was reset"), (svc.serve d request).2)
  | .idAt path, d => svc.answer file (.idAt path) d
  | .markAt path, d => svc.answer file (.markAt path) d
  | .isDir path, d => svc.answer file (.isDir path) d
  | .open' path, d => svc.answer file (.open' path) d
  | .opened, d => svc.answer file .opened d
  | .current path head, d => svc.answer file (.current path head) d
  | .readWhole, d => svc.answer file .readWhole d
  | .readExactAt offset len, d => svc.answer file (.readExactAt offset len) d

namespace GraphSink

theorem lost_answered (svc : DriveService) (file : QuietFile) :
    file.Answered (svc.lostAnswer file) :=
  ⟨fun _ _ ↦ rfl, fun _ _ ↦ rfl, fun _ ↦ rfl, fun _ _ _ ↦ rfl, fun _ ↦ rfl, fun _ _ _ ↦ rfl⟩

theorem answers_lostAnswer (svc : DriveService) (file : QuietFile) (q : Query) (d : Drive) :
    (svc.losing file).answers q d (svc.lostAnswer file q d).1 (svc.lostAnswer file q d).2 := by
  cases q with
  | send request => exact Or.inr ⟨by rintro reply ⟨⟩, Or.inr rfl⟩
  | _ => exact rfl

/-- An upload that has been played so is an attempt that has failed. -/
theorem fails_of_lost {e : IoError} {s' : KnownTags}
    (hplay : play (svc.lostAnswer file) (upload cfg path existing s) d = ((.error e, s'), d')) :
    Fails svc file cfg path existing (s, d) (s', d') := by
  have hsteps := play_steps (E := svc.losing file) (answers_lostAnswer svc file)
    (upload cfg path existing s) d
  rw [hplay] at hsteps
  exact ⟨e, hsteps⟩

/-- An update that is committed, and not heard of. -/
theorem fails_lost_update (svc : DriveService) (file : QuietFile) (cfg : SinkConfig)
    (path : RelPath) (hkey : keyOfCloudId known.cloudId = some key) (ho : d.objects key = some o)
    (htag : precondition cfg.tags (seed known.cloudId known.tag s) known.cloudId = some tag)
    (haccepts : svc.accepts tag o.version = true) (hsmall : file.snap.len ≤ cfg.simpleUploadMax) :
    Fails svc file cfg path (some known) (s, d)
      (seed known.cloudId known.tag s, d.write key file.content) := by
  have htarget : play (svc.lostAnswer file) (targetOf (some known) s) d
      = ((.ok (some (key, known.cloudId)), seed known.cloudId known.tag s), d) := by
    rw [targetOf, hkey]
    rfl
  have hlost : svc.lostAnswer file (.send (.putItem key tag file.content)) d
      = (.error (errorOther "the connection was reset"), d.write key file.content) := by
    rw [DriveService.lostAnswer, DriveService.serve, ho]
    dsimp only
    rw [if_pos haccepts]
    rfl
  have hstate : play (svc.lostAnswer file)
      ((Errand.state : GraphSink KnownTags) (seed known.cloudId known.tag s)) d
      = ((.ok (seed known.cloudId known.tag s), seed known.cloudId known.tag s), d) := rfl
  refine fails_of_lost (e := errorOther "the connection was reset") ?_
  rw [play_upload cfg path (lost_answered svc file) htarget, if_neg (not_lt.mpr hsmall)]
  refine play_bind_error ?_
  rw [putAtItem, play_bind_ok hstate, htag]
  exact play_bind_error (play_call_lost hlost)

/-- A create that is committed, and not heard of. -/
theorem fails_lost_create (svc : DriveService) (file : QuietFile) (s : KnownTags)
    (hname : checkRelativeName path.display = .ok ())
    (hfree : d.names cfg.scope.drive path.display = none)
    (hsmall : file.snap.len ≤ cfg.simpleUploadMax) :
    Fails svc file cfg path none (s, d) (s, (d.write ⟨cfg.scope.drive, svc.made⟩ file.content).name
      cfg.scope.drive path.display ⟨cfg.scope.drive, svc.made⟩) := by
  have htarget : play (svc.lostAnswer file) (targetOf none s) d = ((.ok none, s), d) := rfl
  have hlost : svc.lostAnswer file (.send (.putPath cfg.scope.drive path.display file.content)) d
      = (.error (errorOther "the connection was reset"),
        (d.write ⟨cfg.scope.drive, svc.made⟩ file.content).name cfg.scope.drive path.display
          ⟨cfg.scope.drive, svc.made⟩) := by
    rw [DriveService.lostAnswer, DriveService.serve, create_free svc cfg file.content hfree]
  refine fails_of_lost (e := errorOther "the connection was reset") ?_
  rw [play_upload cfg path (lost_answered svc file) htarget, if_neg (not_lt.mpr hsmall)]
  exact (play_bind_ok (play_checked hname)).trans (play_bind_error (play_call_lost hlost))

end GraphSink

/-- **An update that is committed and not heard of is never repaired**, however often it is
repeated. -/
theorem never_repaired (hbegins : Begins svc cfg path (some known) d₀) {s₀ : KnownTags}
    (hgood : Current svc file cfg known s₀ d₀) (hsmall : file.snap.len ≤ cfg.simpleUploadMax) :
    ∃ s d, Fails svc file cfg path (some known) (s₀, d₀) (s, d)
      ∧ ∀ s' d', Attempts svc file cfg path (some known) (s, d) (s', d') →
        ¬ Repaired svc file cfg path (some known) d₀ s' d' := by
  obtain ⟨key, o, tag, hkey, ho, htag, hthere⟩ := id hgood
  rw [if_neg (not_lt.mpr hsmall)] at hthere
  have hfails := GraphSink.fails_lost_update svc file cfg path hkey ho htag hthere hsmall
  refine ⟨_, _, hfails, fun s' d' hattempts hrepaired ↦ ?_⟩
  -- the drive after the first attempt is one to begin with
  have hagain : Begins svc cfg path (some known) (d₀.write key file.content) := by
    refine ⟨hbegins.fresh, fun hnone ↦ absurd hnone (Option.some_ne_none known),
      fun known' key' hknown' hkey' ↦ ?_⟩
    cases hknown'
    obtain rfl := Option.some_inj.mp (hkey.symm.trans hkey')
    rw [Drive.write_objects, Function.update_self]
    rfl
  have hlater := (hattempts.kept hagain).1.clock_le
  obtain ⟨hkept, hseeded⟩ := Attempts.kept hbegins (Relation.ReflTransGen.head hfails hattempts)
  have hcurrent := (hkept.repaired_existing hbegins s').mp hrepaired
  have hclock := Current.unwritten hgood hcurrent hkept (GraphSink.seed_of_seeded hseeded)
  rw [Drive.write_clock] at hlater
  omega

/-! ### A drive to repeat on -/

/-- A tag for every version. -/
def tally (n : ℕ) : String := String.ofList (List.replicate n 'v')

theorem tally_injective : Function.Injective tally := fun n n' h ↦ by
  have hlength := congrArg String.toList h
  rw [tally, tally, String.toList_ofList, String.toList_ofList] at hlength
  simpa using congrArg List.length hlength

def tallyItem (key : ObjectKey) (o : Stored) : DriveItem :=
  ⟨some key.item.raw, some "a", some (.u64 o.content.length), none, some (tally o.version),
    some ⟨some ⟨some (quickxorOf o.content), none, none⟩⟩, false, false, false, false, false, false,
    none, none⟩

def tallyService : DriveService where
  shown := tallyItem
  told := tallyItem
  shown_id _ _ := rfl
  told_id _ _ := rfl
  accepts tag v := tag = tally v
  accepts_one _ _ _ h h' :=
    tally_injective ((of_decide_eq_true h).symm.trans (of_decide_eq_true h'))
  shown_one _ _ _ _ h h' := tally_injective (Option.some_inj.mp (h.trans h'.symm))
  made := ⟨"e", checkId_e⟩
  early := true
  url _ := "https://u"
  secure _ := heldService.secure
  accepted := heldService.accepted
  accepts_more := heldService.accepts

def emptyDrive : Drive :=
  ⟨fun _ ↦ none, fun _ _ ↦ none, 0, fun _ ↦ none, 0,
    fun _ _ h ↦ absurd h.symm (Option.some_ne_none _)⟩

def simpleConfig : SinkConfig := { heldConfig with simpleUploadMax := 1 }

def madeKey : ObjectKey := ⟨⟨"d", checkId_d⟩, ⟨"e", checkId_e⟩⟩

/-- The drive once the file has been created. -/
def madeDrive : Drive := (emptyDrive.write madeKey [7]).name madeKey.drive "a" madeKey

/-- A create that has been committed, and not heard of, is repaired. -/
theorem repaired_iff_lost_create :
    Attempts tallyService heldFile simpleConfig ["a"] none (∅, emptyDrive) (∅, madeDrive)
      ∧ Repaired tallyService heldFile simpleConfig ["a"] none emptyDrive ∅ madeDrive := by
  have hname : checkRelativeName (RelPath.display ["a"]) = .ok () := by decide
  have hbegins : Begins tallyService simpleConfig ["a"] none emptyDrive :=
    ⟨fun _ ↦ rfl, fun _ ↦ ⟨rfl, rfl⟩, by rintro _ _ ⟨⟩⟩
  have hfails : Fails tallyService heldFile simpleConfig ["a"] none (∅, emptyDrive)
      (∅, madeDrive) :=
    GraphSink.fails_lost_create tallyService heldFile ∅ hname rfl (by decide)
  have hattempts := Relation.ReflTransGen.single hfails
  have hnamed : madeDrive.names madeKey.drive "a" = some madeKey := by
    rw [madeDrive, Drive.name_names, Function.update_self, Function.update_self]
  have hmade : madeDrive.objects madeKey = some ⟨[7], 1⟩ := by
    rw [madeDrive, Drive.name_objects, Drive.write_objects, Function.update_self]
    rfl
  have hadopts : Adoptable tallyService heldFile simpleConfig ["a"] madeDrive :=
    ⟨madeKey, ⟨[7], 1⟩, hnamed, hmade, by decide, rfl, rfl⟩
  exact ⟨hattempts, ((repaired_iff hbegins hattempts).2 ⟨hname, Or.inl rfl⟩).mpr
    (Or.inr ⟨rfl, by decide, hadopts⟩)⟩

def tallyKey : ObjectKey := ⟨⟨"d", checkId_d⟩, ⟨"i", checkId_i⟩⟩

def tallyDrive : Drive := emptyDrive.write tallyKey [3]

def tallyKnown : Known := ⟨tallyKey.toCloudId, some "ct:v"⟩

/-- An update that has been, is not. -/
theorem lost_update_not_repaired : ∃ s d,
    Begins tallyService simpleConfig ["a"] (some tallyKnown) tallyDrive
      ∧ Attempts tallyService heldFile simpleConfig ["a"] (some tallyKnown) (∅, tallyDrive) (s, d)
      ∧ ¬ Repaired tallyService heldFile simpleConfig ["a"] (some tallyKnown) tallyDrive s d := by
  have hkey : keyOfCloudId tallyKnown.cloudId = some tallyKey := keyOfCloudId_toCloudId tallyKey
  have hthere : tallyDrive.objects tallyKey = some ⟨[3], 1⟩ := by
    rw [tallyDrive, Drive.write_objects, Function.update_self]
    rfl
  have hbegins : Begins tallyService simpleConfig ["a"] (some tallyKnown) tallyDrive := by
    refine ⟨fun _ ↦ rfl, by rintro ⟨⟩, fun known key hknown hkey' ↦ ?_⟩
    cases hknown
    obtain rfl := Option.some_inj.mp (hkey.symm.trans hkey')
    rw [hthere]
    rfl
  have hgood : Current tallyService heldFile simpleConfig tallyKnown ∅ tallyDrive := by
    refine ⟨tallyKey, ⟨[3], 1⟩, "v", hkey, hthere, ?_, ?_⟩
    · have hseed : GraphSink.seed tallyKnown.cloudId tallyKnown.tag ∅
          = AList.insert tallyKnown.cloudId "ct:v" ∅ := rfl
      rw [hseed, precondition, AList.lookup_insert]
      decide
    · rw [if_neg (by decide)]
      decide
  obtain ⟨s, d, hfails, hnever⟩ := never_repaired hbegins hgood (by decide)
  exact ⟨s, d, hbegins, Relation.ReflTransGen.single hfails, hnever s d Relation.ReflTransGen.refl⟩

end HydrationAPI.Graph
