import HydrationAPI.Graph.SinkPlays

/-!
# A name that is taken

A create finds the name free or taken. A file that goes up as one `PUT` is told that the name is
taken when it has been sent, and then takes on the object that has the name if that can be proved to
be what was sent. One that goes up through a session is told so when the session is opened, or when
it commits, and that is all: the object is not looked at.
-/

namespace HydrationAPI.Graph

open Dialogue Errand
open Client (Attr RelPath)
open Client.Upload (Uploaded)

/-! ## A service that answers normally -/

/-- A drive that nobody else writes to, and a service that fails at nothing. -/
structure NormalService where
  /-- What the name leads to. -/
  there : Option DriveItem
  /-- What a create makes. -/
  made : DriveItem
  /-- Whether a session at a name that is taken is refused when it is opened, or when it commits. -/
  early : Bool
  /-- Where a session is. -/
  url : String
  /-- The answer to a fragment that does not complete the file, by the offset that comes next. -/
  accepted : ℕ → Reply
  secure : (Text.stripPrefix "https://" url).isSome = true
  accepts : ∀ n, (accepted n).status = 202 ∧ (outstandingOffset (accepted n)).getD n = n
  named : ∀ item, there = some item ∨ item = made → ∃ id : ItemId, item.id = some id.raw

namespace NormalService

def itemReply (status : ℕ) (item : DriveItem) : Reply :=
  ⟨status, .ok item, .error "no session", .error "no children", none⟩

def nameTaken : Reply :=
  ⟨409, .error "an error", .error "an error", .error "an error", some "nameAlreadyExists"⟩

def notFound : Reply :=
  ⟨404, .error "an error", .error "an error", .error "an error", some "itemNotFound"⟩

variable (svc : NormalService) (file : QuietFile)

def sessionReply : Reply :=
  ⟨200, .error "no item", .ok ⟨some svc.url, none⟩, .error "no children", none⟩

/-- What is answered to what would create the object. -/
def creation (made : Bool) : Reply × Bool :=
  match svc.there with
  | none => (itemReply 201 svc.made, true)
  | some _ => (nameTaken, made)

/-- What is answered to a request, and whether an object has been created by then. -/
def serve (made : Bool) : Request → Reply × Bool
  | .putPath .. => svc.creation made
  | .pathMetadata .. =>
    match svc.there with
    | none => (notFound, made)
    | some item => (itemReply 200 item, made)
  | .metadata _ => (itemReply 200 (svc.there.getD svc.made), made)
  | .pathSession .. =>
    (if svc.early && svc.there.isSome then nameTaken else svc.sessionReply, made)
  | .fragment _ _ stop total _ =>
    if stop + 1 = total then svc.creation made else (svc.accepted (stop + 1), made)
  | .children _ | .delete .. | .putItem .. | .patch .. | .itemSession _ | .probe _ | .cancel _ =>
    (notFound, made)

/-- What is answered, of the service and of the local directory. -/
def answer : (q : Query) → Bool → q.Answer × Bool
  | .send request, made => (.ok (svc.serve made request).1, (svc.serve made request).2)
  | .idAt _, made | .markAt _, made => (.absent, made)
  | .isDir _, made => (false, made)
  | .open' _, made => (.ok (), made)
  | .opened, made | .current .., made => (.ok file.snap, made)
  | .readWhole, made => (.ok file.content, made)
  | .readExactAt offset len, made => (.ok ((file.content.drop offset).take len), made)

end NormalService

/-! ## What becomes of a create -/

/-- What becomes of a create: the object that has the name is adopted, one is created, or neither
is. -/
inductive Fate where
  | adopts
  | refuses
  | creates
  deriving DecidableEq, Repr

def fateOf (r : Except IoError Uploaded) (made : Bool) : Fate :=
  match r with
  | .error _ => .refuses
  | .ok _ => if made then .creates else .adopts

/-- What becomes of the create of a file, where files up to `max` go up as one `PUT`. -/
def fate (svc : NormalService) (file : QuietFile) (cfg : SinkConfig) (path : RelPath)
    (known : KnownTags) (max : ℕ) : Fate :=
  let r := play (svc.answer file)
    (GraphSink.create { cfg with simpleUploadMax := max } path path.display known) false
  fateOf r.1.1 r.2

/-- The object is, under this name and byte for byte, what is sent. -/
def Identical (item : DriveItem) (rel : String) (content : List UInt8) : Prop :=
  item.name = some ((Text.split '/' rel).getLast?.getD rel)
    ∧ item.body.size.bind Json.asU64 = some content.length
    ∧ item.body.hashes.bind Hashes.quickXorHash = some (quickxorOf content)

variable {svc : NormalService} {file : QuietFile} {cfg : SinkConfig} {path : RelPath} {rel : String}
  {s s' : KnownTags} {made made' : Bool} {request : Request} {reply : Reply} {item : DriveItem}
  {snap : Snapshot} {drive : DriveId}

namespace GraphSink

theorem normal_answered (svc : NormalService) (file : QuietFile) :
    file.Answered (svc.answer file) :=
  ⟨fun _ _ ↦ rfl, fun _ _ ↦ rfl, fun _ ↦ rfl, fun _ _ _ ↦ rfl, fun _ ↦ rfl, fun _ _ _ ↦ rfl⟩

theorem answer_send (file : QuietFile) (hserve : svc.serve made request = (reply, made')) :
    svc.answer file (.send request) made = (.ok reply, made') := by
  rw [NormalService.answer, hserve]

/-- What is settled names an object. -/
theorem play_normal_settle (file : QuietFile) (cfg : SinkConfig) (drive : DriveId) (s : KnownTags)
    (hitem : ∃ id : ItemId, item.id = some id.raw)
    (hthere : ∀ key, svc.serve made (.metadata key) = (NormalService.itemReply 200 item, made)) :
    ∃ u s', play (svc.answer file) (settle cfg drive (.ok item) s) made = ((.ok u, s'), made) := by
  obtain ⟨id, hid⟩ := hitem
  obtain ⟨tag, s', hsettled⟩ :=
    play_settle cfg s hid (answer_send file (hthere ⟨drive, id⟩)) rfl rfl
  exact ⟨_, s', hsettled⟩

/-! ### One `PUT` -/

theorem isSent_iff {content : List UInt8} :
    isSent item rel ⟨content.length, quickxorOf content⟩ = true ↔ Identical item rel content := by
  have hhash := quickxorOf_ne_empty content
  rw [isSent, Identical]
  match item.body.hashes.bind Hashes.quickXorHash with
  | none => simp
  | some theirs => simp [hhash, and_assoc]

/-- Where the name is free, an object is created. -/
theorem play_putAtPath_free (hname : checkRelativeName rel = .ok ()) (hfree : svc.there = none) :
    ∃ u s', play (svc.answer file) (putAtPath cfg rel file.content s) made
      = ((.ok u, s'), true) := by
  have hserve : svc.serve made (.putPath cfg.scope.drive rel file.content)
      = (NormalService.itemReply 201 svc.made, true) := by
    rw [NormalService.serve, NormalService.creation, hfree]
  have hmetadata : ∀ key, svc.serve true (.metadata key)
      = (NormalService.itemReply 200 svc.made, true) := fun key ↦ by
    rw [NormalService.serve, hfree]
    rfl
  obtain ⟨u, s', hsettled⟩ :=
    play_normal_settle file cfg cfg.scope.drive s (svc.named _ (Or.inr rfl)) hmetadata
  exact ⟨u, s', play_putAtPath_success hname (answer_send file hserve) rfl rfl hsettled⟩

/-- Where it is taken, the object is looked at. -/
theorem play_putAtPath_taken (cfg : SinkConfig) (s : KnownTags) (made : Bool)
    (hname : checkRelativeName rel = .ok ())
    (hthere : svc.there = some item) :
    (Identical item rel file.content ∧ ∃ u s',
      play (svc.answer file) (putAtPath cfg rel file.content s) made = ((.ok u, s'), made))
    ∨ (¬ Identical item rel file.content ∧ ∃ e s',
      play (svc.answer file) (putAtPath cfg rel file.content s) made = ((.error e, s'), made)) := by
  have hserve : svc.serve made (.putPath cfg.scope.drive rel file.content)
      = (NormalService.nameTaken, made) := by
    rw [NormalService.serve, NormalService.creation, hthere]
  have hlook : svc.serve made (.pathMetadata cfg.scope.drive rel)
      = (NormalService.itemReply 200 item, made) := by
    rw [NormalService.serve, hthere]
  have hmetadata : ∀ key, svc.serve made (.metadata key)
      = (NormalService.itemReply 200 item, made) := fun key ↦ by
    rw [NormalService.serve, hthere]
    rfl
  obtain ⟨u, s', hsettled⟩ :=
    play_normal_settle file cfg cfg.scope.drive s (svc.named item (Or.inl hthere)) hmetadata
  rcases play_putAtPath_collision hname (answer_send file hserve) rfl rfl rfl
    (answer_send file hlook) rfl rfl hsettled with ⟨hsent, hplay⟩ | ⟨hsent, e, hplay⟩
  · exact Or.inl ⟨isSent_iff.mp hsent, u, s', hplay⟩
  · exact Or.inr ⟨isSent_iff.not.mp (Bool.eq_false_iff.mp hsent), e, s, hplay⟩

/-! ### A session -/

/-- What the last fragment comes to. -/
def closing (svc : NormalService) (made : Bool) : Transferred × Bool :=
  match svc.there with
  | none => (.committed (.ok svc.made), true)
  | some _ => (.abandoned (serviceRefused "a fragment was refused" NormalService.nameTaken), made)

/-- The session is fed, and the fragment that completes the file creates the object, or is refused.
-/
theorem fed (svc : NormalService) (file : QuietFile) (url : String) (made : Bool) :
    Fed (svc.answer file) file url (fun _ ↦ made) (svc.creation made).1 (closing svc made).1
      (closing svc made).2 where
  more offset len hlen hmore := by
    obtain ⟨hstatus, hnext⟩ := svc.accepts (offset + len)
    refine ⟨svc.accepted (offset + len), answer_send file ?_, hstatus, hnext⟩
    rw [NormalService.serve, if_neg (by omega), Nat.sub_add_cancel (by omega)]
  last offset len hlen hlast := by
    refine answer_send file ?_
    rw [NormalService.serve, if_pos (by omega), NormalService.creation, closing]
    cases svc.there <;> rfl
  final := by
    rw [NormalService.creation]
    cases svc.there <;> rfl
  settles stop t := by
    rw [NormalService.creation, closing]
    cases svc.there <;> rfl

/-- A session that is opened is transferred. -/
theorem play_uploadSession_opened (hname : checkRelativeName rel = .ok ())
    (hserve : svc.serve made (.pathSession cfg.scope.drive rel) = (svc.sessionReply, made))
    (hmore : 0 < file.snap.len) :
    play (svc.answer file) (uploadSession cfg path rel none file.snap s) made
      = play (svc.answer file) (sessionResult cfg cfg.scope.drive svc.url (closing svc made).1 s)
        (closing svc made).2 := by
  have hrequest : play (svc.answer file) (sessionRequest cfg rel none s) made
      = ((.ok (.pathSession cfg.scope.drive rel), s), made) :=
    (play_bind_ok (play_checked hname)).trans rfl
  have hfound : Rechecks (svc.answer file) cfg none s (fun _ ↦ made) true := by
    rintro key cloudId ⟨⟩
  rcases play_transfer cfg path (normal_answered svc file)
    (fed svc file svc.url made) hfound hmore with ⟨-, htransfer⟩ | ⟨hnot, -⟩
  · exact play_uploadSession hrequest (answer_send file hserve) rfl rfl rfl svc.secure htransfer
  · cases hnot

/-- Where the name is free, the session creates an object. -/
theorem play_uploadSession_free (hname : checkRelativeName rel = .ok ()) (hfree : svc.there = none)
    (hmore : 0 < file.snap.len) :
    ∃ u s', play (svc.answer file) (uploadSession cfg path rel none file.snap s) made
      = ((.ok (.done u), s'), true) := by
  have hserve : svc.serve made (.pathSession cfg.scope.drive rel) = (svc.sessionReply, made) := by
    rw [NormalService.serve, hfree, Option.isSome_none, Bool.and_false]
    rfl
  obtain ⟨u, s', hsettled⟩ : ∃ u s', play (svc.answer file)
      (settle cfg cfg.scope.drive (.ok svc.made) s) true = ((.ok u, s'), true) := by
    refine play_normal_settle file cfg cfg.scope.drive s (svc.named _ (Or.inr rfl)) fun key ↦ ?_
    rw [NormalService.serve, hfree]
    rfl
  refine ⟨u, s', (play_uploadSession_opened hname hserve hmore).trans ?_⟩
  rw [closing, hfree]
  exact (play_bind_ok hsettled).trans rfl

/-- Where it is taken, the session is refused, and that is all. -/
theorem play_uploadSession_taken (hname : checkRelativeName rel = .ok ())
    (hthere : svc.there = some item) (hmore : 0 < file.snap.len) :
    ∃ e, play (svc.answer file) (uploadSession cfg path rel none file.snap s) made
      = ((.error e, s), made) := by
  by_cases hearly : svc.early = true
  · have hserve : svc.serve made (.pathSession cfg.scope.drive rel)
        = (NormalService.nameTaken, made) := by
      rw [NormalService.serve, hthere, Option.isSome_some, Bool.and_true, if_pos hearly]
    have hrequest : play (svc.answer file) (sessionRequest cfg rel none s) made
        = ((.ok (.pathSession cfg.scope.drive rel), s), made) :=
      (play_bind_ok (play_checked hname)).trans rfl
    exact ⟨_, play_uploadSession_refused hrequest (answer_send file hserve) rfl rfl fun _ ↦ rfl⟩
  · have hserve : svc.serve made (.pathSession cfg.scope.drive rel) = (svc.sessionReply, made) := by
      rw [NormalService.serve, hthere, Option.isSome_some, Bool.and_true, if_neg hearly]
    have hcancel : svc.serve made (.cancel svc.url) = (NormalService.notFound, made) := rfl
    have hcancelled : play (svc.answer file) (Errand.attempt (callSession (.cancel svc.url)) s) made
        = ((.ok (.ok NormalService.notFound), s), made) :=
      play_attempt (play_sendAgain (answer_send file hcancel) rfl)
    rw [play_uploadSession_opened hname hserve hmore, closing, hthere]
    exact ⟨_, (play_bind_ok hcancelled).trans rfl⟩

/-- A name that is refused is refused before anything is sent. -/
theorem play_refused (path : RelPath) {e : IoError} (hname : checkRelativeName rel = .error e) :
    play (svc.answer file) (putAtPath cfg rel file.content s) made = ((.error e, s), made)
      ∧ play (svc.answer file) (uploadSession cfg path rel none file.snap s) made
        = ((.error e, s), made) := by
  have hrequest : play (svc.answer file) (sessionRequest cfg rel none s) made
      = ((.error e, s), made) := play_bind_error (play_not_checked hname)
  exact ⟨play_bind_error (play_not_checked hname), play_bind_error hrequest⟩

end GraphSink

/-! ## Both forms -/

section

variable {known : KnownTags} {max : ℕ}

/-- What becomes of a file that goes up as one `PUT`. -/
theorem fate_simple (hshort : ¬ file.snap.len > max) :
    fate svc file cfg path known max = fateOf (play (svc.answer file) (GraphSink.putAtPath
      { cfg with simpleUploadMax := max } path.display file.content known) false).1.1
        (play (svc.answer file) (GraphSink.putAtPath
          { cfg with simpleUploadMax := max } path.display file.content known) false).2 := by
  have hplay : play (svc.answer file)
      (GraphSink.create { cfg with simpleUploadMax := max } path path.display known) false
      = play (svc.answer file) (GraphSink.putAtPath { cfg with simpleUploadMax := max }
        path.display file.content known) false := by
    have hfile := GraphSink.normal_answered svc file
    rw [GraphSink.create, play_bind_ok (GraphSink.play_judgeFile hfile), if_neg hshort,
      play_bind_ok (GraphSink.play_readWhole hfile)]
  rw [fate, hplay]

/-- What becomes of a create whose session has come to this. -/
def fateOfSession (r : Except IoError Written) (made : Bool) : Fate :=
  match r with
  | .ok (.done _) => if made then .creates else .adopts
  | _ => .refuses

/-- What becomes of one that goes up through a session that comes to something. -/
theorem fate_session {r : Except IoError Written} (hlong : file.snap.len > max)
    (hplay : play (svc.answer file) (GraphSink.uploadSession { cfg with simpleUploadMax := max }
      path path.display none file.snap known) false = ((r, s'), made)) :
    fate svc file cfg path known max = fateOfSession r made := by
  have hfile := GraphSink.normal_answered svc file
  rw [fate, GraphSink.create, play_bind_ok (GraphSink.play_judgeFile hfile), if_pos hlong]
  cases r with
  | error e =>
    rw [play_bind_error hplay]
    rfl
  | ok written =>
    rw [play_bind_ok hplay]
    cases written with
    | done u => rfl
    | gone => rfl

theorem fate_refused {e : IoError} (hname : checkRelativeName path.display = .error e) :
    fate svc file cfg path known max = .refuses := by
  by_cases hlong : file.snap.len > max
  · rw [fate_session hlong (GraphSink.play_refused path hname).2]
    rfl
  · rw [fate_simple hlong, (GraphSink.play_refused path hname).1]
    rfl

theorem fate_free (hname : checkRelativeName path.display = .ok ()) (hfree : svc.there = none) :
    fate svc file cfg path known max = .creates := by
  by_cases hlong : file.snap.len > max
  · obtain ⟨u, s', hplay⟩ : ∃ u s', play (svc.answer file) (GraphSink.uploadSession
        { cfg with simpleUploadMax := max } path path.display none file.snap known) false
        = ((.ok (.done u), s'), true) :=
      GraphSink.play_uploadSession_free hname hfree (Nat.zero_lt_of_lt hlong)
    rw [fate_session hlong hplay]
    rfl
  · obtain ⟨u, s', hplay⟩ : ∃ u s', play (svc.answer file) (GraphSink.putAtPath
        { cfg with simpleUploadMax := max } path.display file.content known) false
        = ((.ok u, s'), true) := GraphSink.play_putAtPath_free hname hfree
    rw [fate_simple hlong, hplay]
    rfl

theorem fate_taken_session (hname : checkRelativeName path.display = .ok ())
    (hthere : svc.there = some item) (hlong : file.snap.len > max) :
    fate svc file cfg path known max = .refuses := by
  obtain ⟨e, hplay⟩ : ∃ e, play (svc.answer file) (GraphSink.uploadSession
      { cfg with simpleUploadMax := max } path path.display none file.snap known) false
      = ((.error e, known), false) :=
    GraphSink.play_uploadSession_taken hname hthere (Nat.zero_lt_of_lt hlong)
  rw [fate_session hlong hplay]
  rfl

theorem fate_taken_simple (cfg : SinkConfig) (known : KnownTags)
    (hname : checkRelativeName path.display = .ok ())
    (hthere : svc.there = some item) (hshort : ¬ file.snap.len > max) :
    (Identical item path.display file.content
        ∧ fate svc file cfg path known max = .adopts)
      ∨ (¬ Identical item path.display file.content
        ∧ fate svc file cfg path known max = .refuses) := by
  rw [fate_simple hshort]
  rcases GraphSink.play_putAtPath_taken { cfg with simpleUploadMax := max } known false hname hthere
    with ⟨hsame, u, s', hplay⟩ | ⟨hother, e, s', hplay⟩
  · exact Or.inl ⟨hsame, by rw [hplay]; rfl⟩
  · exact Or.inr ⟨hother, by rw [hplay]; rfl⟩

end

/-- What is adopted is what was to be sent. -/
theorem identical_of_adopts {known : KnownTags} {max : ℕ}
    (hadopts : fate svc file cfg path known max = .adopts) :
    ∃ item, svc.there = some item ∧ Identical item path.display file.content := by
  match hname : checkRelativeName path.display, hthere : svc.there with
  | .error e, _ => rw [fate_refused hname] at hadopts; cases hadopts
  | .ok (), none => rw [fate_free hname hthere] at hadopts; cases hadopts
  | .ok (), some item =>
    by_cases hlong : file.snap.len > max
    · rw [fate_taken_session hname hthere hlong] at hadopts
      cases hadopts
    · rcases fate_taken_simple cfg known hname hthere hlong with
        ⟨hsame, -⟩ | ⟨-, hrefuses⟩
      · exact ⟨item, rfl, hsame⟩
      · rw [hrefuses] at hadopts
        cases hadopts

/-- **What becomes of a create does not depend on its form** as long as the drive does not hold, at
a name that can be sent, the very file that is created; what is adopted always is that file. -/
theorem create_agrees_iff (svc : NormalService) (file : QuietFile) (cfg : SinkConfig)
    (path : RelPath) (known : KnownTags) :
    ((∀ max max', fate svc file cfg path known max = fate svc file cfg path known max')
      ∧ ∀ max, fate svc file cfg path known max = .adopts →
        ∃ item, svc.there = some item ∧ Identical item path.display file.content)
    ↔ (checkRelativeName path.display = .ok () → file.content ≠ [] → ∀ item,
        svc.there = some item → ¬ Identical item path.display file.content) := by
  constructor
  · rintro ⟨hagree, -⟩ hname hcontent item hthere hsame
    have hlen : 0 < file.snap.len := by
      rw [file.len]
      exact List.length_pos_iff.mpr hcontent
    have hsession : fate svc file cfg path known 0 = .refuses :=
      fate_taken_session hname hthere hlen
    rcases fate_taken_simple cfg known hname hthere
      (lt_irrefl file.snap.len) with ⟨-, hadopts⟩ | ⟨hother, -⟩
    · rw [hagree 0 file.snap.len, hadopts] at hsession
      cases hsession
    · exact hother hsame
  · intro hnone
    refine ⟨?_, fun max hadopts ↦ identical_of_adopts hadopts⟩
    match hname : checkRelativeName path.display, hthere : svc.there with
    | .error e, _ => exact fun max max' ↦ (fate_refused hname).trans (fate_refused hname).symm
    | .ok (), none =>
      exact fun max max' ↦ (fate_free hname hthere).trans (fate_free hname hthere).symm
    | .ok (), some item =>
      by_cases hcontent : file.content = []
      · intro max max'
        have hshort : ∀ max, ¬ file.snap.len > max := by simp [file.len, hcontent]
        rcases fate_taken_simple cfg known hname hthere (hshort max),
          fate_taken_simple cfg known hname hthere (hshort max') with
          ⟨⟨hsame, h⟩ | ⟨hother, h⟩, ⟨hsame', h'⟩ | ⟨hother', h'⟩⟩
        · rw [h, h']
        · exact absurd hsame hother'
        · exact absurd hsame' hother
        · rw [h, h']
      · have hrefuses : ∀ max, fate svc file cfg path known max = .refuses := by
          intro max
          by_cases hlong : file.snap.len > max
          · exact fate_taken_session hname hthere hlong
          · rcases fate_taken_simple cfg known hname hthere hlong with
              ⟨hsame, -⟩ | ⟨-, hrefuses⟩
            · exact absurd hsame (hnone hname hcontent item hthere)
            · exact hrefuses
        exact fun max max' ↦ (hrefuses max).trans (hrefuses max').symm

/-- A file that the drive already holds under its name. -/
def heldFile : QuietFile := ⟨[7], ⟨0, 0, 1, none, [7]⟩, rfl⟩

def heldItem : DriveItem :=
  ⟨some "i", some "a", some (.u64 1), some "e", some "c",
    some ⟨some ⟨some (quickxorOf [7]), none, none⟩⟩, false, false, false, false, false, false, none,
    none⟩

def heldService : NormalService where
  there := some heldItem
  made := heldItem
  early := true
  url := "https://u"
  accepted _ := ⟨202, .error "no item", .ok ⟨none, none⟩, .error "no children", none⟩
  secure := by decide
  accepts _ := ⟨rfl, rfl⟩
  named item h := by
    have hitem : item = heldItem := by
      rcases h with h | h
      · exact (Option.some_inj.mp h).symm
      · exact h
    exact ⟨⟨"i", rfl⟩, by rw [hitem]; rfl⟩

def heldConfig : SinkConfig := ⟨⟨⟨"d", checkId_d⟩, none⟩, .cTag, 0, 0⟩

/-- The same file is refused when it goes up through a session, and adopted when it does not. -/
theorem create_disagrees :
    fate heldService heldFile heldConfig ["a"] ∅ 0 = .refuses
      ∧ fate heldService heldFile heldConfig ["a"] ∅ 1 = .adopts := by
  have hname : checkRelativeName (RelPath.display ["a"]) = .ok () := by decide
  refine ⟨fate_taken_session hname rfl (by decide), ?_⟩
  have hthere : heldService.there = some heldItem := rfl
  have hshort : ¬ heldFile.snap.len > 1 := by decide
  rcases fate_taken_simple heldConfig ∅ hname hthere hshort with
    ⟨-, hadopts⟩ | ⟨hother, -⟩
  · exact hadopts
  · exact absurd ⟨by decide, rfl, rfl⟩ hother

end HydrationAPI.Graph
