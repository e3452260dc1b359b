import HydrationAPI.Graph.SinkSteps

/-!
# Nothing is overwritten blind

The sink is called for one upload or rename after the other, with the tag that is recorded on the
file, and what it returns is recorded there. Between any two questions of a call, and between calls,
other devices write to the same objects.

What a write has produced is named by its reply, or by the tag that is read back afterwards. If
another device has written by then, the tag that is read back is that of its version; it is recorded
as the tag of what was sent, and the next upload that is bound to it overwrites the other device's
version, of which this machine knows nothing.
-/

namespace HydrationAPI.Graph

open Dialogue Errand
open Client (RelPath)
open Client.Upload (Known Uploaded)

/-- What the sink is called for, with what is recorded on the file. -/
inductive SinkCall where
  | upload (path : RelPath) (existing : Option Known)
  | moveItem (src dst : RelPath) (existing : Known)

namespace SinkCall

def run (cfg : SinkConfig) : SinkCall → GraphSink Uploaded
  | upload path existing => GraphSink.upload cfg path existing
  | moveItem src dst existing => GraphSink.moveItem cfg src dst existing

def existing : SinkCall → Option Known
  | upload _ existing => existing
  | moveItem _ _ existing => some existing

end SinkCall

/-- The sink between two calls, or what is left of a call. -/
inductive SinkState where
  | idle (known : KnownTags)
  | calling (rest : Dialogue Query Query.Answer (Except IoError Uploaded × KnownTags))

/-- `adopt_cloud_id`: a tag is recorded where there is one. -/
def SharedDrive.adoptCloudId (w : SharedDrive) (u : Uploaded) : SharedDrive :=
  match u.etag with
  | some t => w.setAttr u.cloudId (some t)
  | none => w

/-- One step of the sink or of the others. The process may end at any time, and with it what it has
remembered. -/
inductive Turn (cfg : SinkConfig) (E : Env Query Query.Answer SharedDrive) :
    SinkState × SharedDrive → SinkState × SharedDrive → Prop
  | others {m : SinkState} {w w' : SharedDrive} : E.others w w' → Turn cfg E (m, w) (m, w')
  | called {call : SinkCall} {known : KnownTags} {w : SharedDrive} :
      (∀ e, call.existing = some e → e.tag = w.attr e.cloudId) →
      Turn cfg E (.idle known, w) (.calling (call.run cfg known), w)
  | answered {p p' : Dialogue Query Query.Answer (Except IoError Uploaded × KnownTags)}
      {w w' : SharedDrive} : Step E (p, w) (p', w') → Turn cfg E (.calling p, w) (.calling p', w')
  | returned {u : Uploaded} {known : KnownTags} {w : SharedDrive} :
      Turn cfg E (.calling (.done (.ok u, known)), w) (.idle known, w.adoptCloudId u)
  | failed {e : IoError} {known : KnownTags} {w : SharedDrive} :
      Turn cfg E (.calling (.done (.error e, known)), w) (.idle known, w)
  | restarted {m : SinkState} {w : SharedDrive} : Turn cfg E (m, w) (.idle ∅, w)

/-- Nothing has been overwritten blind, and what a call returns names the version it has written. -/
structure Sighted (V : Versions) (r : SinkState × SharedDrive) : Prop where
  own : ¬ r.2.blind
  named : ∀ u known, r.1 = .calling (.done (.ok u, known)) → Names V r.2 u

/-- Nothing is recorded yet. -/
structure SharedDrive.Unrecorded (w : SharedDrive) : Prop where
  attr : ∀ cloudId, w.attr cloudId = none
  owed : w.owed = none
  sighted : ¬ w.blind

variable {V : Versions} {cfg : SinkConfig} {w : SharedDrive} {r r' : SinkState × SharedDrive}

/-- What holds of the sink, between calls and within one. -/
def Sound (V : Versions) (tags : TagSource) : SinkState × SharedDrive → Prop
  | (.idle known, w) => Base V known w
  | (.calling p, w) =>
    Safe (timelyEnv V tags) (Calm V) (fun r w ↦ Ends V (GraphSink.NamesOwn V) r.1 r.2 w) p w

theorem Sound.calm (h : Sound V cfg.tags r) : Calm V r.2 := by
  match r with
  | (.idle known, w) => exact Base.calm h
  | (.calling p, w) => exact Safe.inv h

theorem base_empty (h : Calm V w) : Base V ∅ w :=
  ⟨h, fun id tag _ hlookup _ ↦ by
    have hlookup : (∅ : KnownTags).lookup id = some tag := hlookup
    rw [AList.lookup_empty] at hlookup
    cases hlookup⟩

/-- What is recorded after a call is harmless, as it names what was written. -/
theorem Base.adopt {u : Uploaded} {known : KnownTags} (h : Base V known w) (hu : Names V w u) :
    Base V known (w.adoptCloudId u) := by
  rw [SharedDrive.adoptCloudId]
  split
  · rename_i t ht
    have hlater : w.Later (w.setAttr u.cloudId (some t)) := .of_eq rfl rfl rfl rfl
    refine ⟨⟨h.calm.sighted, fun id tag key htag hkey ↦ ?_, fun key hkey ↦ h.calm.owed key hkey⟩,
      h.known.later hlater⟩
    by_cases hid : id = u.cloudId
    · subst hid
      rw [SharedDrive.setAttr_attr, Function.update_self] at htag
      obtain rfl := Option.some_inj.mp htag
      obtain ⟨key', v, hkey', hwrote, hof⟩ := hu t ht
      obtain rfl := Option.some_inj.mp (hkey'.symm.trans hkey)
      exact hof.ok (w.written key' v hwrote) (Or.inr hwrote)
    · rw [SharedDrive.setAttr_attr, Function.update_of_ne hid] at htag
      exact (h.calm.recorded id tag key htag hkey).later hlater
  · exact h

/-- One step. -/
theorem Sound.step (h : Sound V cfg.tags r)
    (hturn : Turn cfg ((driveEnv V cfg.tags).under Timely) r r') : Sound V cfg.tags r' := by
  match hturn with
  | @Turn.others _ _ m _ _ hothers =>
    match m with
    | .idle known => exact Base.elsewhere h hothers
    | .calling p => exact Safe.others h hothers
  | @Turn.called _ _ call known w hrecorded =>
    have hbase : Base V known w := h
    have hrecord : ∀ e, call.existing = some e → GraphSink.RecordOk V e w := fun e he t key ht hkey ↦
      hbase.calm.recorded e.cloudId t key ((hrecorded e he).symm.trans ht) hkey
    match call with
    | .upload path existing => exact GraphSink.keeps_upload path hbase hrecord
    | .moveItem src dst existing =>
      exact GraphSink.keeps_moveItem src dst hbase (hrecord existing rfl)
  | @Turn.answered _ _ p p' w w' hstep =>
    have hsafe : Safe (timelyEnv V cfg.tags) (Calm V)
        (fun r w ↦ Ends V (GraphSink.NamesOwn V) r.1 r.2 w) p w := h
    exact hsafe.step (s := (p, w)) hstep
  | @Turn.returned _ _ u _ _ =>
    obtain ⟨hbase, hnames⟩ := Safe.ends h
    exact hbase.adopt (hnames u rfl)
  | .failed => exact (Safe.ends h).1
  | .restarted => exact base_empty h.calm

/-- **Nothing is overwritten blind**, in any run in which no other device writes between a write
whose reply has no tag and the read of its tag, or between the last read of an object and the commit
of a session that writes to it. -/
theorem overwrites_own (hw : w.Unrecorded)
    (hrun : Relation.ReflTransGen (Turn cfg ((driveEnv V cfg.tags).under Timely)) (.idle ∅, w) r) :
    Sighted V r := by
  have hstart : Sound V cfg.tags (.idle ∅, w) := base_empty
    ⟨hw.sighted, fun id tag _ htag _ ↦ absurd ((hw.attr id).symm.trans htag).symm
      (Option.some_ne_none tag), fun key hkey ↦ absurd (hw.owed.symm.trans hkey).symm
      (Option.some_ne_none key)⟩
  have hsound : Sound V cfg.tags r := by
    induction hrun with
    | refl => exact hstart
    | tail _ hturn ih => exact ih.step hturn
  refine ⟨hsound.calm.sighted, fun u known hr ↦ ?_⟩
  obtain ⟨m, v⟩ := r
  subst hr
  exact (Safe.ends hsound).2 u rfl

/-! ### A version that comes between a write and the read of its tag -/

/-- Every version has one tag, longer than those before. -/
def countedVersions : Versions where
  tags v := [String.ofList (List.replicate (v + 1) 'c')]
  distinct v v' t h h' := by
    have heq : List.replicate (v + 1) 'c' = List.replicate (v' + 1) 'c' := by
      rw [← String.toList_ofList (l := List.replicate (v + 1) 'c'), ← List.mem_singleton.mp h,
        List.mem_singleton.mp h', String.toList_ofList]
    have hlength := congrArg List.length heq
    simpa using hlength

def sharedKey : ObjectKey := ⟨⟨"d", checkId_d⟩, ⟨"i", checkId_i⟩⟩

def sharedConfig : SinkConfig := ⟨⟨sharedKey.drive, none⟩, .cTag, 4, 0⟩

def sharedItem (cTag : Option String) : DriveItem :=
  ⟨some "i", some "f", none, none, cTag, none, false, false, false, false, false, false, none, none⟩

def sharedReply (cTag : Option String) : Reply :=
  ⟨200, .ok (sharedItem cTag), .error "no session", .error "no children", none⟩

/-- One object, of which nothing is recorded. -/
def sharedDrive : SharedDrive where
  version := Function.update (fun _ ↦ none) sharedKey (some 0)
  clock := 0
  sessions _ := none
  attr _ := none
  placed _ := none
  wrote _ := none
  news _ := false
  owed := none
  offered := none
  blind := False
  committed key v h := by
    by_cases hk : key = sharedKey
    · subst hk
      rw [Function.update_self] at h
      exact (Option.some_inj.mp h).symm.le
    · rw [Function.update_of_ne hk] at h
      exact absurd h.symm (Option.some_ne_none v)
  written _ v h := absurd h.symm (Option.some_ne_none v)

/-- The tag of a version. -/
def countedTag (v : ℕ) : String := String.ofList (List.replicate (v + 1) 'c')

theorem describes_counted {cTag : Option String} {v : ℕ}
    (h : ∀ t, cTag = some t → t = countedTag v) : Describes countedVersions (sharedItem cTag) v := by
  refine ⟨fun t ht ↦ absurd ht.symm (Option.some_ne_none t), fun t ht ↦ ?_⟩
  exact List.mem_singleton.mpr (h t ht)

theorem answers_shared_metadata {v : ℕ} (hv : w.version sharedKey = some v) :
    DriveAnswers countedVersions .cTag (.send (.metadata sharedKey)) w
      (.ok (sharedReply (some (countedTag v)))) (w.read sharedKey) :=
  Or.inr ⟨_, _, v, rfl, rfl, rfl, hv,
    describes_counted fun _ ht ↦ (Option.some_inj.mp ht).symm, rfl⟩

/-- A write that is bound to the tag of the version that is there; the answer has the tag of the new
version, or none. -/
theorem answers_shared_put {cTag : Option String} {v : ℕ} (body : List UInt8)
    (hv : w.version sharedKey = some v) (htag : ∀ t, cTag = some t → t = countedTag (w.clock + 1)) :
    DriveAnswers countedVersions .cTag (.send (.putItem sharedKey (countedTag v) body)) w
      (.ok (sharedReply cTag)) ((w.commit sharedKey sharedKey).owing
        (if contentTag (sharedItem cTag).body .cTag = none then some sharedKey else none)) := by
  refine Or.inr ⟨v, sharedKey, hv, List.mem_singleton.mpr rfl, Or.inl rfl, rfl,
    Or.inr ⟨_, _, w.clock + 1, rfl, rfl, rfl, ?_, describes_counted htag, fun raw id hraw hid ↦ ?_,
      rfl⟩⟩
  · rw [SharedDrive.commit_version, Function.update_self]
  · obtain rfl := Option.some_inj.mp hraw
    obtain rfl := Except.ok.inj ((Id.parse_raw sharedKey.item).symm.trans hid)
    rfl

/-- The file is opened and read. -/
def sharedSnapshot : Snapshot := ⟨1, 1, 1, none, []⟩

/-- The version there was at first, placed here. -/
def placedDrive : SharedDrive := sharedDrive.place sharedKey 0 "ct:c"

theorem placed_shared : Elsewhere countedVersions sharedDrive placedDrive := by
  refine .placed sharedKey 0 "ct:c" le_rfl (fun _ h ↦ absurd h.symm (Option.some_ne_none _))
    (fun _ _ ↦ Nat.zero_le _) ?_
  rintro raw (hraw | hraw)
  · have hnone : Text.stripPrefix "et:" "ct:c" = none := by decide
    exact absurd (hnone.symm.trans hraw).symm (Option.some_ne_none raw)
  · have heq : raw = "c" := by
      have hdecide : Text.stripPrefix "ct:" "ct:c" = some "c" := by decide
      exact Option.some_inj.mp (hraw.symm.trans hdecide)
    subst heq
    decide

theorem unrecorded_shared : sharedDrive.Unrecorded := ⟨fun _ ↦ rfl, rfl, id⟩

/-- What is asked of the local directory is answered, and the drive stays as it is. -/
def AnswersLocal (E : Env Query Query.Answer SharedDrive) : Prop :=
  ∀ (q : Query) (a : q.Answer) (w : SharedDrive), (∀ request, q ≠ .send request) →
    E.answers q w a w

theorem answersLocal_timely : AnswersLocal (timelyEnv countedVersions .cTag) := by
  intro q a w hq
  match q with
  | .send request => exact absurd rfl (hq request)
  | .idAt _ | .markAt _ | .isDir _ | .open' _ | .opened | .current .. | .readWhole
  | .readExactAt .. => exact ⟨rfl, trivial⟩

theorem answersLocal_drive : AnswersLocal (driveEnv countedVersions .cTag) :=
  fun q a w hq ↦ (answersLocal_timely q a w hq).1

/-- The file is opened and read, and the write is about to be sent. -/
theorem reads_file {E : Env Query Query.Answer SharedDrive} (hE : AnswersLocal E) {t : String}
    {known : KnownTags} {w : SharedDrive} (ht : w.attr "d|i" = some t)
    (hcase : t = "ct:c" ∨ t = "ct:ccc") :
    Relation.ReflTransGen (Turn sharedConfig E) (.idle known, w)
      (.calling ((do
        let written ← GraphSink.putAtItem sharedConfig sharedKey "d|i" [7]
        GraphSink.orCreate sharedConfig ["f"] "f" written)
          (GraphSink.seed "d|i" (some t) known)), w) := by
  have hcalled : Turn sharedConfig E (.idle known, w)
      (.calling ((SinkCall.upload ["f"] (some ⟨"d|i", some t⟩)).run sharedConfig known), w) := by
    refine .called fun e he ↦ ?_
    obtain rfl := Option.some_inj.mp he
    exact ht.symm
  have hopen := hE (.open' ["f"]) (.ok ()) w nofun
  have hmark := hE (.markAt ["f"]) .absent w nofun
  have hopened := hE .opened (.ok sharedSnapshot) w nofun
  have hread := hE .readWhole (.ok [7]) w nofun
  refine .head hcalled ?_
  rcases hcase with rfl | rfl
  · exact .head (.answered (.answered hopen)) (.head (.answered (.answered hmark))
      (.head (.answered (.answered hopened)) (.head (.answered (.answered hread)) .refl)))
  · exact .head (.answered (.answered hopen)) (.head (.answered (.answered hmark))
      (.head (.answered (.answered hopened)) (.head (.answered (.answered hread)) .refl)))

/-- The version that was placed is written over, and the reply names the new one. -/
theorem own_version_updated :
    Sighted countedVersions (.calling (.done (.ok ⟨"d|i", some "ct:cc"⟩,
        (AList.insert "d|i" "ct:cc" (AList.insert "d|i" "ct:c" ∅)))),
      (placedDrive.commit sharedKey sharedKey).owing none) := by
  have hput : DriveAnswers countedVersions .cTag
      (.send (.putItem sharedKey (countedTag 0) [7])) placedDrive (.ok (sharedReply (some "cc")))
      ((placedDrive.commit sharedKey sharedKey).owing none) :=
    answers_shared_put [7] rfl fun t ht ↦ (Option.some_inj.mp ht).symm
  have hrun : Relation.ReflTransGen
      (Turn sharedConfig ((driveEnv countedVersions sharedConfig.tags).under Timely))
      (.idle ∅, sharedDrive) (.calling (.done (.ok ⟨"d|i", some "ct:cc"⟩,
        (AList.insert "d|i" "ct:cc" (AList.insert "d|i" "ct:c" ∅)))),
      (placedDrive.commit sharedKey sharedKey).owing none) := by
    refine .head (.others placed_shared) ((reads_file answersLocal_timely rfl (Or.inl rfl)).trans ?_)
    exact .head (.answered (.answered ⟨hput, trivial⟩)) .refl
  exact overwrites_own unrecorded_shared hrun

/-- After a write of this machine and one of another device, the tag of the latter is read and
recorded. -/
def readDrive : SharedDrive :=
  (((placedDrive.commit sharedKey sharedKey).owing (some sharedKey)).foreign sharedKey).read sharedKey

def misledDrive : SharedDrive := readDrive.setAttr "d|i" (some "ct:ccc")

/-- Another device writes before the tag of a write is read: the tag that is read, and recorded, is
that of its version, which the next upload overwrites. -/
theorem read_back_overwrites :
    ∃ r : SinkState × SharedDrive, sharedDrive.Unrecorded
      ∧ Relation.ReflTransGen (Turn sharedConfig (driveEnv countedVersions sharedConfig.tags))
        (.idle ∅, sharedDrive) r
      ∧ ¬ Sighted countedVersions r := by
  have hput : DriveAnswers countedVersions .cTag
      (.send (.putItem sharedKey (countedTag 0) [7])) placedDrive (.ok (sharedReply none))
      ((placedDrive.commit sharedKey sharedKey).owing (some sharedKey)) :=
    answers_shared_put [7] rfl fun t ht ↦ absurd ht.symm (Option.some_ne_none t)
  have hagain : DriveAnswers countedVersions .cTag
      (.send (.putItem sharedKey (countedTag 2) [7])) misledDrive (.ok (sharedReply (some "cccc")))
      ((misledDrive.commit sharedKey sharedKey).owing none) :=
    answers_shared_put [7] rfl fun t ht ↦ (Option.some_inj.mp ht).symm
  have hrun : Relation.ReflTransGen (Turn sharedConfig (driveEnv countedVersions sharedConfig.tags))
      (.idle ∅, sharedDrive) (.calling (.done (.ok ⟨"d|i", some "ct:cccc"⟩,
        (AList.insert "d|i" "ct:cccc" (AList.insert "d|i" "ct:ccc" (AList.insert "d|i" "ct:c" ∅))))),
      (misledDrive.commit sharedKey sharedKey).owing none) := by
    refine .head (.others placed_shared) ((reads_file answersLocal_drive rfl (Or.inl rfl)).trans ?_)
    refine .head (.answered (.answered hput)) ?_
    refine .head (.others (.foreign sharedKey)) ?_
    refine .head (.answered (.answered (answers_shared_metadata (v := 2) rfl))) ?_
    refine .head .returned
      ((reads_file (w := misledDrive) answersLocal_drive rfl (Or.inr rfl)).trans ?_)
    exact .head (.answered (.answered hagain)) .refl
  have hforeign : ¬ misledDrive.Own sharedKey 2 := by
    rintro (hplaced | hwrote)
    · exact absurd hplaced (by decide)
    · exact absurd hwrote (by decide)
  exact ⟨_, unrecorded_shared, hrun, fun h ↦ h.own (Or.inr ⟨2, rfl, hforeign⟩)⟩

end HydrationAPI.Graph
