import HydrationAPI.Graph.SinkAsks

/-!
# What an update is bound to

The sink is handed the tag that is recorded on a file, and binds what it sends for the file to the
tag it remembers for the object. What it is handed it remembers only if it remembers nothing yet. A
delta pass puts a new tag on the file and tells the sink nothing of it: from then on every write is
bound to the version before, and refused, until the process ends.
-/

namespace HydrationAPI.Graph

open Dialogue Errand
open Client (RelPath)
open Client.Upload (Known)

/-- What a write can be bound to, of a tag. -/
def preconditionOf (tags : TagSource) (tag : String) : Option String :=
  match (Text.stripPrefix "et:" tag).filter (· ≠ "") with
  | some raw => some raw
  | none => if tags = .cTag then (Text.stripPrefix "ct:" tag).filter (· ≠ "") else none

theorem precondition_eq {tags : TagSource} {known : KnownTags} {cloudId tag : String}
    (h : known.lookup cloudId = some tag) :
    precondition tags known cloudId = preconditionOf tags tag := by
  rw [precondition, h]
  rfl

/-- The object a write is addressed at, and what it is bound to. -/
def Request.write : Request → Option (ObjectKey × Option String)
  | putItem key tag _ | patch key tag _ _ => some (key, some tag)
  | delete key tag => some (key, tag)
  | _ => none

/-! ## The drive, and what is watched -/

/-- What writes may be bound to, by object, and what has been asked since the sink was called. -/
structure Watch where
  /-- What the service accepts as a precondition, of the version that is there. -/
  current : ObjectKey → List String
  /-- The object the sink has been called for, with the tag that is recorded on the file. -/
  base : Option (ObjectKey × String)
  /-- The object of the session that has been asked for last, if it is not one for a name. -/
  session : Option ObjectKey
  /-- The last answer was that the object is at the version that is recorded. -/
  reread : Prop
  /-- There has been such an answer. -/
  checked : Prop
  /-- A write was not bound to the recorded tag. -/
  astray : Prop
  /-- A write has been refused for its precondition, while the recorded version was there. -/
  stale : Prop

/-- The object, of which the tag is recorded, is found at the recorded version. -/
def ShowsRecorded (tags : TagSource) (b : Option (ObjectKey × String)) (key : ObjectKey)
    (a : Except IoError Reply) : Prop :=
  ∃ t reply item, b = some (key, t) ∧ a = .ok reply ∧ reply.success = true
    ∧ reply.item = .ok item ∧ contentTag item.body tags = some t

namespace Watch

variable (w : Watch) (tags : TagSource)

/-- The session is one for the object the sink has been called for. -/
def Updating : Prop := ∃ key t, w.base = some (key, t) ∧ w.session = some key

/-- The object of the call is found at the recorded version. -/
def Rereads : (q : Query) → q.Answer → Prop
  | .send (.metadata key), a => ShowsRecorded tags w.base key a
  | _, _ => False

/-- What is sent is not bound to the recorded tag: a write bound to something else, the fragment
that completes a file when the recorded tag has not been read back, or the end of a session although
it just has. -/
def Strays : Request → Prop
  | .fragment _ _ stop total _ => w.Updating ∧ stop + 1 = total ∧ ¬ w.checked
  | .cancel _ => w.Updating ∧ w.reread
  | request => ∃ key tag t, request.write = some (key, tag) ∧ w.base = some (key, t)
      ∧ tag ≠ preconditionOf tags t

/-- A write is refused for its precondition, while the recorded version is there. -/
def Refuses : (q : Query) → q.Answer → Prop
  | .send request, a => ∃ reply key tag t raw, a = .ok reply ∧ reply.status = 412
      ∧ request.write = some (key, tag) ∧ w.base = some (key, t)
      ∧ preconditionOf tags t = some raw ∧ raw ∈ w.current key
  | _, _ => False

/-- What is watched, after an answer. -/
def after (q : Query) (a : q.Answer) : Watch :=
  { w with
    session := match q with
      | .send (.itemSession key) => some key
      | .send (.pathSession ..) => none
      | _ => w.session
    reread := w.Rereads tags q a
    checked := w.checked ∨ w.Rereads tags q a
    astray := w.astray ∨ ∃ request, q = .send request ∧ w.Strays tags request
    stale := w.stale ∨ w.Refuses tags q a }

/-- Other devices write, and so may the sink. -/
def remote (current : ObjectKey → List String) : Watch := { w with current := current }

/-- The sink is called. -/
def begin (base : Option (ObjectKey × String)) : Watch :=
  { w with base := base, session := none, reread := False, checked := False }

/-- Nothing has been asked yet. -/
def start (current : ObjectKey → List String) : Watch :=
  ⟨current, none, none, False, False, False, False⟩

/-- Every write was bound to the recorded tag, and none was refused in vain. -/
structure Calm : Prop where
  bound : ¬ w.astray
  accepted : ¬ w.stale

end Watch

/-- A write is refused for its precondition only if that is not of the version that is there. -/
def Honest (w : Watch) : (q : Query) → q.Answer → Prop
  | .send request, a => ∀ reply key tag, a = .ok reply → reply.status = 412 →
      request.write = some (key, tag) → ∃ raw, tag = some raw ∧ raw ∉ w.current key
  | _, _ => True

/-- Anything may be answered, but for that; and any object may be at another version after it. -/
def WatchAnswers (tags : TagSource) (q : Query) (w : Watch) (a : q.Answer) (w' : Watch) : Prop :=
  Honest w q a ∧ ∃ current, w' = (w.after tags q a).remote current

def watchEnv (tags : TagSource) : Env Query Query.Answer Watch :=
  ⟨WatchAnswers tags, fun w w' ↦ ∃ current, w' = w.remote current⟩

variable {tags : TagSource} {w w' : Watch} {b : Option (ObjectKey × String)} {q : Query}
  {a : q.Answer}

theorem Watch.strays_of_write {request : Request} {key : ObjectKey} {tag : Option String}
    {t : String} (hwrite : request.write = some (key, tag)) (hbase : w.base = some (key, t))
    (hne : tag ≠ preconditionOf tags t) : w.Strays tags request := by
  cases request with
  | putItem k raw body => exact ⟨key, tag, t, hwrite, hbase, hne⟩
  | patch k raw name parent => exact ⟨key, tag, t, hwrite, hbase, hne⟩
  | delete k raw => exact ⟨key, tag, t, hwrite, hbase, hne⟩
  | _ => cases hwrite

/-- **Nothing is refused in vain that is bound to the recorded tag.** -/
theorem Watch.Calm.answered (h : w.Calm) (ha : WatchAnswers tags q w a w')
    (hstrays : ∀ request, q = .send request → ¬ w.Strays tags request) : w'.Calm := by
  obtain ⟨hhonest, current, rfl⟩ := ha
  refine ⟨fun hastray ↦ ?_, fun hstale ↦ ?_⟩
  · rcases hastray with hastray | ⟨request, hq, hstray⟩
    · exact h.bound hastray
    · exact hstrays request hq hstray
  · rcases hstale with hstale | hrefuses
    · exact h.accepted hstale
    · match q with
      | .send request =>
        obtain ⟨reply, key, tag, t, raw, hreply, hstatus, hwrite, hbase, hraw, hcurrent⟩ := hrefuses
        obtain ⟨raw', htag, hother⟩ := hhonest reply key tag hreply hstatus hwrite
        have hsame : tag = preconditionOf tags t := by
          by_contra hne
          exact hstrays request rfl (Watch.strays_of_write hwrite hbase hne)
        rw [htag, hraw] at hsame
        exact hother (Option.some_inj.mp hsame ▸ hcurrent)

/-! ## What the procedures keep -/

/-- All is well, and this is what the sink has been called for. -/
structure Quiet (b : Option (ObjectKey × String)) (w : Watch) : Prop where
  calm : w.Calm
  base : w.base = b

/-- All is well in a session that is for the target: it is not completed unless the recorded tag has
been read back. -/
structure Guard (b : Option (ObjectKey × String)) (target : Option (ObjectKey × String))
    (rechecked : Bool) (w : Watch) : Prop extends Quiet b w where
  session : w.session = target.map Prod.fst
  checked : rechecked = true → w.Updating → w.checked

/-- What is remembered for the target is the recorded tag. -/
def Holds (b : Option (ObjectKey × String)) (target : Option (ObjectKey × String))
    (s : KnownTags) : Prop :=
  ∀ key cloudId k t, target = some (key, cloudId) → b = some (k, t) → s.lookup cloudId = some t

/-- The question is local, or asks how far a session has come. -/
def Query.IsAside : Query → Prop
  | .send (.probe _) => True
  | .send _ => False
  | _ => True

variable {target : Option (ObjectKey × String)} {rechecked : Bool} {s : KnownTags}
  {request : Request} {key : ObjectKey} {α β : Type} {m : GraphSink α}

theorem Query.IsLocal.aside (h : q.IsLocal) : q.IsAside := by
  cases q with
  | send request => exact h.elim
  | _ => trivial

/-- What holds of the watch whatever the versions are is stable. -/
theorem stable_of_remote {P : Watch → Prop} (h : ∀ w current, P w → P (w.remote current)) :
    Stable (watchEnv tags) P := by
  rintro w _ ⟨current, rfl⟩ hw
  exact h w current hw

theorem Quiet.remote {current : ObjectKey → List String} (h : Quiet b w) :
    Quiet b (w.remote current) := ⟨⟨h.calm.bound, h.calm.accepted⟩, h.base⟩

theorem Guard.remote {current : ObjectKey → List String} (h : Guard b target rechecked w) :
    Guard b target rechecked (w.remote current) := ⟨h.toQuiet.remote, h.session, h.checked⟩

theorem Guard.unchecked (h : Guard b target rechecked w) : Guard b target false w :=
  ⟨h.toQuiet, h.session, nofun⟩

theorem lasting_of_remote {post : Except IoError α → KnownTags → Watch → Prop}
    (h : ∀ r s w current, post r s w → post r s (w.remote current))
    (hcalm : ∀ r s w, post r s w → w.Calm) : Lasting (watchEnv tags) Watch.Calm post :=
  ⟨fun r s ↦ stable_of_remote (h r s), hcalm⟩

/-- Every question but the writes, the fragments and the end of a session keeps the peace. -/
theorem Quiet.answered (h : Quiet b w) (ha : WatchAnswers tags q w a w')
    (hstrays : ∀ request, q = .send request → ¬ w.Strays tags request) : Quiet b w' := by
  refine ⟨h.calm.answered ha hstrays, ?_⟩
  obtain ⟨-, current, rfl⟩ := ha
  exact h.base

theorem not_strays_of_names (hq : q.Names) : ∀ request, q = .send request →
    ¬ w.Strays tags request := by
  rintro request rfl
  match request with
  | .metadata _ | .pathMetadata .. | .putPath .. => exact fun ⟨_, _, _, hwrite, _⟩ ↦ by cases hwrite

theorem not_strays_of_aside (hq : q.IsAside) : ∀ request, q = .send request →
    ¬ w.Strays tags request := by
  rintro request rfl
  match request with
  | .probe _ => exact fun ⟨_, _, _, hwrite, _⟩ ↦ by cases hwrite

theorem not_rereads_of_aside (hq : q.IsAside) : ¬ w.Rereads tags q a := by
  cases q with
  | send request =>
    cases request with
    | metadata key => exact hq.elim
    | _ => exact id
  | _ => exact id

theorem session_after_aside (hq : q.IsAside) : (w.after tags q a).session = w.session := by
  cases q with
  | send request =>
    cases request with
    | itemSession key => exact hq.elim
    | pathSession drive rel => exact hq.elim
    | _ => rfl
  | _ => rfl

/-- A question that opens no session and reads no object leaves the session as it is. -/
theorem Guard.answered (h : Guard b target rechecked w)
    (hstrays : ∀ request, q = .send request → ¬ w.Strays tags request)
    (hrereads : ¬ w.Rereads tags q a) (hsession : (w.after tags q a).session = w.session)
    (ha : WatchAnswers tags q w a w') : Guard b target rechecked w' ∧ ¬ w'.reread := by
  have hquiet := h.toQuiet.answered ha hstrays
  obtain ⟨-, current, rfl⟩ := ha
  have hupdating : ((w.after tags q a).remote current).Updating ↔ w.Updating := by
    rw [Watch.Updating, Watch.Updating]
    exact exists_congr fun key ↦ exists_congr fun t ↦ and_congr Iff.rfl (Eq.congr_left hsession)
  exact ⟨⟨hquiet, hsession.trans h.session, fun hre hup ↦ Or.inl (h.checked hre
    (hupdating.mp hup))⟩, hrereads⟩

theorem Guard.answered_aside (h : Guard b target rechecked w) (hq : q.IsAside)
    (ha : WatchAnswers tags q w a w') : Guard b target rechecked w' ∧ ¬ w'.reread :=
  h.answered (not_strays_of_aside hq) (not_rereads_of_aside hq) (session_after_aside hq) ha

/-- The fragment that completes the file is sent when the recorded tag has been read back. -/
theorem Guard.answered_fragment {url : String} {offset stop total : ℕ} {bytes : List UInt8}
    {a : Except IoError Reply} (h : Guard b target rechecked w)
    (hlast : stop + 1 = total → rechecked = true)
    (ha : WatchAnswers tags (.send (.fragment url offset stop total bytes)) w a w') :
    Guard b target rechecked w' ∧ ¬ w'.reread := by
  refine h.answered ?_ id rfl ha
  rintro request hrequest hstrays
  obtain rfl := Query.send.inj hrequest
  obtain ⟨hup, htotal, hunchecked⟩ := hstrays
  exact hunchecked (h.checked (hlast htotal) hup)

/-- The answer is that the object of the call is at the recorded version. -/
def ReadBack (b : Option (ObjectKey × String)) (key : ObjectKey)
    (r : Except IoError (Option String)) : Prop := ∃ t, b = some (key, t) ∧ r = .ok (some t)

/-- The request opens a session for the target. -/
def Opens (target : Option (ObjectKey × String)) (request : Request) : Prop :=
  match target with
  | some (key, _) => request = .itemSession key
  | none => ∃ drive rel, request = .pathSession drive rel

theorem Quiet.opened {a : Except IoError Reply} (hopens : Opens target request) (h : Quiet b w)
    (ha : WatchAnswers tags (.send request) w a w') :
    Guard b target false w' ∧ ¬ w'.reread := by
  match target with
  | some (key, cloudId) =>
    obtain rfl := hopens
    have hquiet := h.answered ha fun r hr ↦ by
      obtain rfl := Query.send.inj hr
      exact fun ⟨_, _, _, hwrite, _⟩ ↦ by cases hwrite
    obtain ⟨-, current, rfl⟩ := ha
    exact ⟨⟨hquiet, rfl, nofun⟩, id⟩
  | none =>
    obtain ⟨drive, rel, rfl⟩ := hopens
    have hquiet := h.answered ha fun r hr ↦ by
      obtain rfl := Query.send.inj hr
      exact fun ⟨_, _, _, hwrite, _⟩ ↦ by cases hwrite
    obtain ⟨-, current, rfl⟩ := ha
    exact ⟨⟨hquiet, rfl, nofun⟩, id⟩

/-! ### Procedures that keep the peace -/

theorem stable_quiet : Stable (watchEnv tags) (Quiet b) := stable_of_remote fun _ _ h ↦ h.remote

theorem stable_guard : Stable (watchEnv tags) (Guard b target rechecked) :=
  stable_of_remote fun _ _ h ↦ h.remote

/-- What remains to be done after a write that was the only one. -/
abbrev KeepsQuiet (tags : TagSource) (b : Option (ObjectKey × String)) (m : GraphSink α)
    (s : KnownTags) (w : Watch) : Prop :=
  Meets (watchEnv tags) Watch.Calm (fun _ _ w ↦ Quiet b w) m s w

theorem lasting_keepsQuiet : Lasting (watchEnv tags) Watch.Calm
    (fun (_ : Except IoError α) (_ : KnownTags) w ↦ Quiet b w) :=
  lasting_of_remote (fun _ _ _ _ h ↦ h.remote) fun _ _ _ h ↦ h.calm

theorem meets_names {K : KnownTags → Prop} (hm : Asks Query.Names K m) (hs : K s)
    (hw : Quiet b w) : Meets (watchEnv tags) Watch.Calm (fun _ s w ↦ K s ∧ Quiet b w) m s w :=
  hm.meets stable_quiet (fun _ h ↦ h.calm)
    (fun _ _ _ _ hq h ha ↦ h.answered ha (not_strays_of_names hq)) hs hw

theorem keepsQuiet_names {K : KnownTags → Prop} (hm : Asks Query.Names K m) (hs : K s)
    (hw : Quiet b w) : KeepsQuiet tags b m s w :=
  (meets_names hm hs hw).mono fun _ _ _ _ h ↦ h.2

theorem keepsQuiet_bind {f : α → GraphSink β} (h : KeepsQuiet tags b m s w)
    (hf : ∀ a s w, Quiet b w → KeepsQuiet tags b (f a) s w) : KeepsQuiet tags b (m >>= f) s w :=
  meets_bind lasting_keepsQuiet h (fun a s w _ hw ↦ hf a s w hw) fun _ _ _ _ hw ↦ hw

theorem keepsQuiet_lift {r : Except IoError α} (hw : Quiet b w) :
    KeepsQuiet tags b (Errand.lift r) s w := meets_lift lasting_keepsQuiet hw

theorem keepsQuiet_throw {e : IoError} (hw : Quiet b w) :
    KeepsQuiet tags b (Errand.throw e : GraphSink α) s w := keepsQuiet_lift hw

theorem keepsQuiet_pure {a : α} (hw : Quiet b w) : KeepsQuiet tags b (pure a) s w :=
  keepsQuiet_lift hw

/-- First what leaves what is remembered, and then what is bound to it. -/
theorem keepsQuiet_local {K : KnownTags → Prop} {f : α → GraphSink β}
    (hm : Asks Query.IsLocal K m) (hs : K s) (hw : Quiet b w)
    (hf : ∀ a s w, K s → Quiet b w → KeepsQuiet tags b (f a) s w) :
    KeepsQuiet tags b (m >>= f) s w :=
  meets_bind lasting_keepsQuiet (meets_names (hm.mono fun _ ↦ Query.IsLocal.names) hs hw)
    (fun a s w _ h ↦ hf a s w h.1 h.2) fun _ _ _ _ h ↦ h.2

theorem keepsQuiet_decode {body : Except String α} {f : α → GraphSink β} (hw : Quiet b w)
    (hf : ∀ a, KeepsQuiet tags b (f a) s w) :
    KeepsQuiet tags b (GraphSink.decode body >>= f) s w := by
  match body with
  | .ok a => exact hf a
  | .error e => exact keepsQuiet_throw hw

namespace GraphSink

variable {cfg : SinkConfig} {path : RelPath} {url rel : String} {snap : Snapshot} {t : Transfer}
  {key : ObjectKey} {cloudId : String}

/-- **A request that is bound to the recorded tag**, as often as it is sent. -/
theorem keepsQuiet_sendAgain {unreachable : IoError → IoError} {again : ℕ}
    (hstrays : ∀ w, Quiet b w → ¬ w.Strays tags request) (hw : Quiet b w) :
    KeepsQuiet tags b (sendAgain request unreachable again) s w := by
  have hkeeps : ∀ w a w', Quiet b w → WatchAnswers tags (.send request) w a w' → Quiet b w' :=
    fun w a w' hw ha ↦ hw.answered ha fun r hr ↦ Query.send.inj hr ▸ hstrays w hw
  exact meets_sendAgain lasting_keepsQuiet stable_quiet (fun _ h ↦ h.calm)
    (fun w reply w' hw ha _ ↦ hkeeps w _ w' hw ha) (fun w a w' hw ha ↦ hkeeps w a w' hw ha) again hw

theorem keepsQuiet_call (hstrays : ∀ w, Quiet b w → ¬ w.Strays tags request) (hw : Quiet b w) :
    KeepsQuiet tags b (call request) s w := keepsQuiet_sendAgain hstrays hw

/-- A write that is bound to what is remembered is bound to the recorded tag. -/
theorem not_strays_of_holds (hs : Holds b (some (key, cloudId)) s) {tag : Option String}
    (hwrite : request.write = some (key, tag)) (htag : tag = precondition tags s cloudId) :
    ∀ w, Quiet b w → ¬ w.Strays tags request := by
  intro w hw hstrays
  have hbound : ∀ t, w.base = some (key, t) → tag = preconditionOf tags t := fun t hbase ↦
    htag.trans (precondition_eq (hs key cloudId key t rfl (hw.base.symm.trans hbase)))
  cases request with
  | putItem k raw body | patch k raw name parent | delete k raw =>
    obtain ⟨key', tag', t, hwrite', hbase, hne⟩ := hstrays
    obtain ⟨rfl, rfl⟩ := Prod.mk.injEq .. ▸ Option.some_inj.mp (hwrite.symm.trans hwrite')
    exact hne (hbound t hbase)
  | _ => cases hwrite

theorem keepsQuiet_settle {drive : DriveId} {body : Except String DriveItem} (hw : Quiet b w) :
    KeepsQuiet tags b (settle cfg drive body) s w :=
  keepsQuiet_names (asks_settle.mono fun _ ↦ Query.IsMetadata.names) trivial hw

theorem keepsQuiet_putAtItem {body : List UInt8} (hs : Holds b (some (key, cloudId)) s)
    (hw : Quiet b w) : KeepsQuiet cfg.tags b (putAtItem cfg key cloudId body) s w := by
  refine meets_state ?_
  split
  · exact keepsQuiet_throw hw
  · rename_i tag htag
    refine keepsQuiet_bind (keepsQuiet_call (not_strays_of_holds hs rfl htag.symm) hw)
      fun reply s w hw ↦ ?_
    split
    · exact keepsQuiet_bind (keepsQuiet_settle hw) fun u s w hw ↦ keepsQuiet_pure hw
    · split
      · exact keepsQuiet_pure hw
      · exact keepsQuiet_throw hw

/-! ### A session -/

/-- What a part of a session leaves; of its result it is told whether the recorded tag has been read
back. -/
def InSession (b target : Option (ObjectKey × String)) (flag : α → Bool) (r : Except IoError α)
    (s : KnownTags) (w : Watch) : Prop :=
  Holds b target s ∧ Guard b target (r.toOption.any flag) w ∧ ¬ w.reread

abbrev Guards (tags : TagSource) (b target : Option (ObjectKey × String)) (flag : α → Bool)
    (m : GraphSink α) (s : KnownTags) (w : Watch) : Prop :=
  Meets (watchEnv tags) Watch.Calm (InSession b target flag) m s w

variable {flag : α → Bool} {flag' : β → Bool}

theorem lasting_inSession : Lasting (watchEnv tags) Watch.Calm (InSession b target flag) :=
  lasting_of_remote (fun _ _ _ _ h ↦ ⟨h.1, h.2.1.remote, h.2.2⟩) fun _ _ _ h ↦ h.2.1.calm

theorem guards_pure {a : α} (hs : Holds b target s) (hw : Guard b target rechecked w)
    (hunread : ¬ w.reread) (hflag : flag a = true → rechecked = true) :
    Guards tags b target flag (pure a) s w :=
  meets_pure lasting_inSession ⟨hs, ⟨hw.toQuiet, hw.session, fun h ↦ hw.checked (hflag h)⟩, hunread⟩

theorem guards_bind {f : α → GraphSink β} (h : Guards tags b target flag m s w)
    (hf : ∀ a s w, Holds b target s → Guard b target (flag a) w → ¬ w.reread →
      Guards tags b target flag' (f a) s w) : Guards tags b target flag' (m >>= f) s w :=
  meets_bind lasting_inSession h (fun a s w _ h ↦ hf a s w h.1 h.2.1 h.2.2)
    fun _ _ _ _ h ↦ ⟨h.1, h.2.1, h.2.2⟩

theorem guards_attempt (h : Guards tags b target (fun _ ↦ false) m s w) :
    Guards tags b target (fun _ ↦ false) (Errand.attempt m) s w := by
  refine meets_attempt lasting_inSession (h.mono fun r s w _ h ↦ ⟨h.1, ?_, h.2.2⟩)
  match r with
  | .ok _ | .error _ => exact h.2.1

/-- First what leaves the session as it is. -/
theorem guards_aside {f : α → GraphSink β} (hm : Asks Query.IsAside (Holds b target) m)
    (hs : Holds b target s) (hw : Guard b target rechecked w) (hunread : ¬ w.reread)
    (hf : ∀ a s w, Holds b target s → Guard b target rechecked w → ¬ w.reread →
      Guards tags b target flag' (f a) s w) : Guards tags b target flag' (m >>= f) s w := by
  have hstable : Stable (watchEnv tags) fun w ↦ Guard b target rechecked w ∧ ¬ w.reread :=
    stable_of_remote fun _ _ h ↦ ⟨h.1.remote, h.2⟩
  have hmeets := hm.meets hstable (fun _ h ↦ h.1.calm)
    (fun _ _ _ _ hq h ha ↦ h.1.answered_aside hq ha) hs ⟨hw, hunread⟩
  exact meets_bind lasting_inSession hmeets (fun a s w _ h ↦ hf a s w h.1 h.2.1 h.2.2)
    fun _ _ _ _ h ↦ ⟨h.1, h.2.1.unchecked, h.2.2⟩

/-- The object is read: it is known whether it is at the recorded version. -/
theorem meets_readTag (hw : Guard b target false w) :
    Meets (watchEnv cfg.tags) Watch.Calm (fun r s' w ↦ s' = s ∧ Guard b target false w
      ∧ (w.reread ↔ ReadBack b key r) ∧ (ReadBack b key r → w.checked)) (readTag cfg key) s w := by
  have hlasting : Lasting (watchEnv cfg.tags) Watch.Calm (fun r s' w ↦ s' = s
      ∧ Guard b target false w ∧ (w.reread ↔ ReadBack b key r)
      ∧ (ReadBack b key r → w.checked)) :=
    lasting_of_remote (fun _ _ _ _ h ↦ ⟨h.1, h.2.1.remote, h.2.2⟩) fun _ _ _ h ↦ h.2.1.calm
  have hcall : Meets (watchEnv cfg.tags) Watch.Calm (fun r s' w ↦ s' = s
      ∧ Guard b target false w ∧ (w.reread ↔ ShowsRecorded cfg.tags b key r)
      ∧ (ShowsRecorded cfg.tags b key r → w.checked)) (call (.metadata key)) s w := by
    have hanswered : ∀ w (a : Except IoError Reply) w', Guard b target false w →
        WatchAnswers cfg.tags (.send (.metadata key)) w a w' → Guard b target false w'
          ∧ (w'.reread ↔ ShowsRecorded cfg.tags b key a)
          ∧ (ShowsRecorded cfg.tags b key a → w'.checked) := by
      intro w a w' hw ha
      have hquiet := hw.toQuiet.answered ha (not_strays_of_names trivial)
      obtain ⟨-, current, rfl⟩ := ha
      have hbase := hw.base
      subst hbase
      exact ⟨⟨hquiet, hw.session, nofun⟩, Iff.rfl, Or.inr⟩
    refine meets_sendAgain (lasting_of_remote (fun _ _ _ _ h ↦ ⟨h.1, h.2.1.remote, h.2.2⟩)
      fun _ _ _ h ↦ h.2.1.calm) stable_guard (fun _ h ↦ h.calm)
      (fun w reply w' hw ha _ ↦ (hanswered w _ w' hw ha).1) (fun w a w' hw ha ↦ ?_) _ hw
    have hid : a.mapError id = a := by
      match a with
      | .ok _ | .error _ => rfl
    rw [hid]
    exact ⟨rfl, hanswered w a w' hw ha⟩
  refine meets_bind hlasting hcall (fun reply s' w _ ⟨hs, hw, hread, hchecked⟩ ↦ ?_)
    fun e s' w _ ⟨hs, hw, hread, hchecked⟩ ↦ ⟨hs, hw, ?_⟩
  · subst hs
    have hends : ∀ r : Except IoError (Option String),
        (ReadBack b key r ↔ ShowsRecorded cfg.tags b key (.ok reply)) →
        s' = s' ∧ Guard b target false w ∧ (w.reread ↔ ReadBack b key r)
          ∧ (ReadBack b key r → w.checked) :=
      fun r hr ↦ ⟨rfl, hw, hread.trans hr.symm, fun h ↦ hchecked (hr.mp h)⟩
    split
    · rename_i hrefused
      refine meets_throw hlasting (hends _ ⟨nofun, ?_⟩)
      rintro ⟨t, reply', item, -, hreply, hsuccess, -⟩
      exact absurd (Except.ok.inj hreply ▸ hsuccess) hrefused
    · rename_i hsuccess
      have hsuccess : reply.success = true := by simpa using hsuccess
      match hitem : reply.item with
      | .error e =>
        refine meets_throw hlasting (hends _ ⟨nofun, ?_⟩)
        rintro ⟨t, reply', item, -, hreply, -, hitem', -⟩
        rw [← Except.ok.inj hreply, hitem] at hitem'
        cases hitem'
      | .ok item =>
        refine meets_pure hlasting (hends _ ⟨?_, ?_⟩)
        · rintro ⟨t, hb, htag⟩
          exact ⟨t, reply, item, hb, rfl, hsuccess, hitem, Except.ok.inj htag⟩
        · rintro ⟨t, reply', item', hb, hreply, -, hitem', htag⟩
          rw [← Except.ok.inj hreply, hitem] at hitem'
          rw [← Except.ok.inj hitem'] at htag
          exact ⟨t, hb, congrArg Except.ok htag⟩
  · have hnot : ¬ ShowsRecorded cfg.tags b key (.error e) := by
      rintro ⟨t, reply, item, -, hreply, -⟩
      cases hreply
    exact ⟨hread.trans ⟨fun h ↦ absurd h hnot, nofun⟩, nofun⟩

/-- **The object is checked against the recorded tag**, if that is what is remembered. -/
theorem meets_recheck (hs : Holds b (some (key, cloudId)) s)
    (hw : Guard b (some (key, cloudId)) false w) :
    Meets (watchEnv cfg.tags) Watch.Calm (fun r s w ↦ Holds b (some (key, cloudId)) s
      ∧ Guard b (some (key, cloudId)) (r.toOption.any id) w
      ∧ (r.toOption.any id = false → ¬ w.reread)) (recheck cfg key cloudId) s w := by
  have hlasting : Lasting (watchEnv cfg.tags) Watch.Calm (fun (r : Except IoError Bool) s w ↦
      Holds b (some (key, cloudId)) s ∧ Guard b (some (key, cloudId)) (r.toOption.any id) w
      ∧ (r.toOption.any id = false → ¬ w.reread)) :=
    lasting_of_remote (fun _ _ _ _ h ↦ ⟨h.1, h.2.1.remote, h.2.2⟩) fun _ _ _ h ↦ h.2.1.calm
  refine meets_state (meets_bind hlasting (meets_readTag hw)
    (fun now s' w _ ⟨hsame, hw, hread, hchecked⟩ ↦ ?_)
    fun e s' w _ ⟨hsame, hw, hread, _⟩ ↦ ⟨hsame ▸ hs, hw, fun _ h ↦ ?_⟩)
  · subst hsame
    refine meets_pure hlasting ⟨hs, ⟨hw.toQuiet, hw.session, fun hpass hup ↦ ?_⟩, fun hfail h ↦ ?_⟩
    · obtain ⟨k, t, hbase, hk⟩ := hup
      obtain rfl : key = k := Option.some_inj.mp (hw.session.symm.trans hk)
      have hb := hw.base.symm.trans hbase
      have hlookup := hs key cloudId key t rfl hb
      have hpass : (now.isSome && decide (now = s'.lookup cloudId)) = true := hpass
      rw [hlookup, Bool.and_eq_true, decide_eq_true_iff] at hpass
      exact hchecked ⟨t, hb, congrArg Except.ok hpass.2⟩
    · obtain ⟨t, hb, hnow⟩ := hread.mp h
      obtain rfl := Except.ok.inj hnow
      have hlookup := hs key cloudId key t rfl hb
      have hfail : (decide (some t = s'.lookup cloudId)) = false := hfail
      exact absurd hlookup.symm (of_decide_eq_false hfail)
  · obtain ⟨t, -, hnow⟩ := hread.mp h
    cases hnow

/-- Of a round it is told whether the next one may complete the file. -/
def roundFlag : Transferred ⊕ Transfer → Bool
  | .inl _ => false
  | .inr t => t.rechecked

theorem asks_probe_aside {K : KnownTags → Prop} : Asks Query.IsAside K (probe url) :=
  asks_probe trivial

theorem guards_afterFragment {total stop : ℕ} {reply : Reply} (hs : Holds b target s)
    (hw : Guard b target t.rechecked w) (hunread : ¬ w.reread) :
    Guards tags b target roundFlag (afterFragment url total stop t reply) s w := by
  rw [afterFragment]
  split
  · exact guards_pure hs hw hunread nofun
  · split
    · dsimp only
      split
      · exact guards_pure hs hw hunread nofun
      · split
        · split
          · exact guards_pure hs hw hunread nofun
          · exact guards_pure hs hw hunread id
        · exact guards_pure hs hw hunread id
    · split
      · refine guards_aside asks_probe_aside hs hw hunread fun at' s w hs hw hunread ↦ ?_
        match at' with
        | some at' => exact guards_pure hs hw hunread id
        | none => exact guards_pure hs hw hunread nofun
      · split
        · exact guards_pure hs hw hunread nofun
        · exact guards_pure hs hw hunread nofun

/-- A fragment is sent, and what becomes of it is asked. -/
theorem guards_sendFragment {total len : ℕ} {bytes : List UInt8} (hs : Holds b target s)
    (hw : Guard b target t.rechecked w)
    (hlast : t.offset + len - 1 + 1 = total → t.rechecked = true) :
    Guards tags b target roundFlag (sendFragment url total len bytes t) s w := by
  have hsent : Guards tags b target (fun _ ↦ t.rechecked) (Errand.attempt
      (callSession (.fragment url t.offset (t.offset + len - 1) total bytes))) s w := by
    refine meets_attempt lasting_inSession (meets_sendAgain ?_ stable_guard (fun _ h ↦ h.calm)
      (fun w reply w' hw ha _ ↦ (hw.answered_fragment hlast ha).1)
      (fun w a w' hw ha ↦ ⟨hs, hw.answered_fragment hlast ha⟩) _ hw)
    exact lasting_of_remote (fun _ _ _ _ h ↦ ⟨h.1, h.2.1.remote, h.2.2⟩) fun _ _ _ h ↦ h.2.1.calm
  refine guards_bind hsent fun r s w hs hw hunread ↦ ?_
  match r with
  | .ok reply => exact guards_afterFragment hs hw hunread
  | .error e =>
    dsimp only
    split
    · exact guards_pure hs hw hunread nofun
    · refine guards_aside asks_probe_aside hs hw hunread fun at' s w hs hw hunread ↦ ?_
      match at' with
      | some at' => exact guards_pure hs hw hunread id
      | none => exact guards_pure hs hw hunread id

/-- **A round**: the file is completed only when the recorded tag has been read back. -/
theorem guards_transferRound (hmore : t.offset < snap.len) (hs : Holds b target s)
    (hw : Guard b target t.rechecked w) (hunread : ¬ w.reread) :
    Guards cfg.tags b target roundFlag (transferRound cfg path url target snap t) s w := by
  refine guards_aside (asks_unchanged.mono fun _ ↦ Query.IsLocal.aside) hs hw hunread
    fun _ s w hs hw hunread ↦ ?_
  have hlen : 0 < min (fragmentSize cfg) (snap.len - t.offset) :=
    lt_min (fragmentSize_pos cfg) (Nat.sub_pos_of_lt hmore)
  refine guards_aside (asks_readExactAt.mono fun _ ↦ Query.IsLocal.aside) hs hw hunread
    fun bytes s w hs hw hunread ↦ ?_
  split
  · rename_i hlast
    match target with
    | none =>
      refine guards_sendFragment hs ⟨hw.toQuiet, hw.session, fun _ hup ↦ ?_⟩ fun _ ↦ rfl
      obtain ⟨key, t, -, hsession⟩ := hup
      exact absurd (hw.session.symm.trans hsession).symm (Option.some_ne_none key)
    | some (key, cloudId) =>
      refine meets_bind lasting_inSession (meets_recheck hs hw.unchecked) ?_ ?_
      · rintro same s w - ⟨hs, hw, hunread⟩
        split
        · rename_i hsame
          subst hsame
          exact guards_sendFragment hs hw fun _ ↦ rfl
        · rename_i hsame
          exact guards_pure hs hw.unchecked (hunread (Bool.eq_false_iff.mpr hsame)) nofun
      · rintro e s w - ⟨hs, hw, hunread⟩
        exact ⟨hs, hw, hunread rfl⟩
  · rename_i hlast
    refine guards_sendFragment hs hw fun hstop ↦ ?_
    by_contra hrechecked
    exact hlast ⟨by omega, Bool.eq_false_iff.mpr hrechecked⟩

theorem guards_transferRounds (left : ℕ) (hs : Holds b target s)
    (hw : Guard b target t.rechecked w) (hunread : ¬ w.reread) :
    Guards cfg.tags b target (fun _ ↦ false) (transferRounds cfg path url target snap left t)
      s w := by
  induction left generalizing s w t with
  | zero =>
    rw [transferRounds]
    split
    · exact guards_pure hs hw hunread nofun
    · exact guards_pure hs hw hunread nofun
  | succ left ih =>
    rw [transferRounds]
    split
    · rename_i hmore
      refine guards_bind (guards_transferRound hmore hs hw hunread) fun r s w hs hw hunread ↦ ?_
      match r with
      | .inl settled => exact guards_pure hs hw hunread nofun
      | .inr t => exact ih hs hw hunread
    · exact guards_pure hs hw hunread nofun

/-- Where a session is opened is settled without a question. -/
theorem meets_sessionRequest (hs : Holds b target s) (hw : Quiet b w) :
    Meets (watchEnv tags) Watch.Calm (fun r s w ↦ Holds b target s ∧ Quiet b w
      ∧ ∀ request, r = .ok request → Opens target request) (sessionRequest cfg rel target) s w := by
  have hlasting : Lasting (watchEnv tags) Watch.Calm (fun (r : Except IoError Request) s w ↦
      Holds b target s ∧ Quiet b w ∧ ∀ request, r = .ok request → Opens target request) :=
    lasting_of_remote (fun _ _ _ _ h ↦ ⟨h.1, h.2.1.remote, h.2.2⟩) fun _ _ _ h ↦ h.2.1.calm
  match target with
  | some (key, cloudId) =>
    refine meets_state ?_
    split
    · exact meets_throw hlasting ⟨hs, hw, nofun⟩
    · exact meets_pure hlasting ⟨hs, hw, fun _ h ↦ (Except.ok.inj h).symm⟩
  | none =>
    have hchecked : Meets (watchEnv tags) Watch.Calm (fun _ s w ↦ Holds b none s ∧ Quiet b w)
        (Errand.lift (checkRelativeName rel) : GraphSink Unit) s w :=
      meets_lift (lasting_of_remote (fun _ _ _ _ h ↦ ⟨h.1, h.2.remote⟩)
        fun _ _ _ h ↦ h.2.calm) ⟨hs, hw⟩
    exact meets_bind hlasting hchecked
      (fun _ s w _ h ↦ meets_pure hlasting ⟨h.1, h.2, fun _ h ↦ ⟨_, _, (Except.ok.inj h).symm⟩⟩)
      fun e s w _ h ↦ ⟨h.1, h.2, nofun⟩

/-- A session is opened for the target. -/
theorem guards_open (hopens : Opens target request) (hs : Holds b target s) (hw : Quiet b w) :
    Guards tags b target (fun _ ↦ false) (call request) s w := by
  have hflag : ∀ r : Except IoError Reply, r.toOption.any (fun _ ↦ false) = false := fun r ↦ by
    match r with
    | .ok _ | .error _ => rfl
  refine meets_sendAgain lasting_inSession stable_quiet (fun _ h ↦ h.calm)
    (fun w reply w' hw ha _ ↦ (hw.opened hopens ha).1.toQuiet) (fun w a w' hw ha ↦ ?_) _ hw
  refine ⟨hs, ?_, (hw.opened hopens ha).2⟩
  rw [hflag]
  exact (hw.opened hopens ha).1

/-- A session that has just been read back is not given up. -/
theorem keepsQuiet_cancel (hw : Quiet b w) (hunread : ¬ w.reread) :
    KeepsQuiet tags b (Errand.attempt (callSession (.cancel url))) s w := by
  have hstable : Stable (watchEnv tags) fun w ↦ Quiet b w ∧ ¬ w.reread :=
    stable_of_remote fun _ _ h ↦ ⟨h.1.remote, h.2⟩
  have hanswered : ∀ w a w', Quiet b w ∧ ¬ w.reread →
      WatchAnswers tags (.send (.cancel url)) w a w' → Quiet b w' ∧ ¬ w'.reread := by
    rintro w a w' ⟨hw, hunread⟩ ha
    refine ⟨hw.answered ha fun r hr ↦ ?_, ?_⟩
    · obtain rfl := Query.send.inj hr
      exact fun hstrays ↦ hunread hstrays.2
    · obtain ⟨-, current, rfl⟩ := ha
      exact id
  exact meets_attempt lasting_keepsQuiet (meets_sendAgain lasting_keepsQuiet hstable
    (fun _ h ↦ h.1.calm) (fun w reply w' hw ha _ ↦ hanswered w _ w' hw ha)
    (fun w a w' hw ha ↦ (hanswered w a w' hw ha).1) _ ⟨hw, hunread⟩)

/-- What is left of a session when it ends. -/
theorem keepsQuiet_session {f : α → GraphSink β} (h : Guards tags b target flag m s w)
    (hf : ∀ a s w, Holds b target s → Guard b target (flag a) w → ¬ w.reread →
      KeepsQuiet tags b (f a) s w) : KeepsQuiet tags b (m >>= f) s w :=
  meets_bind lasting_keepsQuiet h (fun a s w _ h ↦ hf a s w h.1 h.2.1 h.2.2)
    fun _ _ _ _ h ↦ h.2.1.toQuiet

theorem keepsQuiet_uploadSession (hs : Holds b target s) (hw : Quiet b w) :
    KeepsQuiet cfg.tags b (uploadSession cfg path rel target snap) s w := by
  refine meets_bind lasting_keepsQuiet (meets_sessionRequest hs hw) ?_ fun _ _ _ _ h ↦ h.2.1
  rintro request s w - ⟨hs, hw, hopens⟩
  refine keepsQuiet_session (guards_open (hopens request rfl) hs hw)
    fun reply s w hs hw hunread ↦ ?_
  split
  · exact keepsQuiet_pure hw.toQuiet
  · split
    · exact keepsQuiet_throw hw.toQuiet
    · refine keepsQuiet_decode hw.toQuiet fun session ↦ ?_
      split
      · exact keepsQuiet_throw hw.toQuiet
      · rename_i url _
        have hgiven : ∀ (e : IoError) s w, Quiet b w → ¬ w.reread → KeepsQuiet cfg.tags b (do
            let _ ← Errand.attempt (callSession (.cancel url))
            Errand.throw e : GraphSink Written) s w :=
          fun e s w hw hunread ↦ keepsQuiet_bind (keepsQuiet_cancel hw hunread)
            fun _ s w hw ↦ keepsQuiet_throw hw
        have htransfer : Guards cfg.tags b target (fun _ ↦ false)
            (Errand.attempt (transfer cfg path url target snap)) s w :=
          guards_attempt (guards_transferRounds _ hs hw hunread)
        refine keepsQuiet_session htransfer fun r s w hs hw hunread ↦ ?_
        match r with
        | .ok (.committed item) =>
          exact keepsQuiet_bind (keepsQuiet_settle hw.toQuiet) fun u s w hw ↦ keepsQuiet_pure hw
        | .ok .vanished => exact keepsQuiet_throw hw.toQuiet
        | .ok (.abandoned e) => exact hgiven e s w hw.toQuiet hunread
        | .error e => exact hgiven e s w hw.toQuiet hunread

/-! ### Uploads, renames and removals -/

/-- The create names no object that is bound to anything. -/
theorem keepsQuiet_create (hw : Quiet b w) :
    KeepsQuiet cfg.tags b (create cfg path rel) s w := by
  have hnone (s : KnownTags) : Holds b none s := fun _ _ _ _ h ↦ by cases h
  refine keepsQuiet_local (K := fun _ ↦ True) asks_judgeFile trivial hw fun snap s w _ hw ↦ ?_
  split
  · refine keepsQuiet_bind (keepsQuiet_uploadSession (hnone s) hw) fun written s w hw ↦ ?_
    match written with
    | .done u => exact keepsQuiet_pure hw
    | .gone => exact keepsQuiet_throw hw
  · exact keepsQuiet_local (K := fun _ ↦ True) asks_readWhole trivial hw fun body s w _ hw ↦
      keepsQuiet_names asks_putAtPath trivial hw

theorem keepsQuiet_orCreate {written : Written} (hw : Quiet b w) :
    KeepsQuiet cfg.tags b (orCreate cfg path rel written) s w := by
  match written with
  | .done u => exact keepsQuiet_pure hw
  | .gone => exact keepsQuiet_create hw

end GraphSink

/-- The object a file is said to be, with the tag that is recorded on it. -/
def recordedBase (existing : Option Known) : Option (ObjectKey × String) :=
  existing.bind fun known ↦ (keyOfCloudId known.cloudId).bind fun key ↦
    known.tag.map fun t ↦ (key, t)

/-- Nothing is remembered for the object, or what is recorded on the file. -/
def Agrees (existing : Option Known) (s : KnownTags) : Prop :=
  ∀ known t, existing = some known → known.tag = some t →
    s.lookup known.cloudId = none ∨ s.lookup known.cloudId = some t

theorem GraphSink.lookup_seed {cloudId t : String}
    (h : s.lookup cloudId = none ∨ s.lookup cloudId = some t) :
    (seed cloudId (some t) s).lookup cloudId = some t := by
  rw [seed]
  rcases h with h | h
  · rw [h, Option.isSome_none, if_neg Bool.false_ne_true, AList.lookup_insert]
  · rw [h, Option.isSome_some, if_pos rfl, h]

/-- What is recorded is remembered from then on. -/
theorem holds_seed {known : Known} (h : Agrees (some known) s) :
    Holds (recordedBase (some known)) (some (key, known.cloudId))
      (GraphSink.seed known.cloudId known.tag s) := by
  rintro key' cloudId k t htarget hb
  obtain ⟨rfl, rfl⟩ := Prod.mk.injEq .. ▸ Option.some_inj.mp htarget
  have hb : ((keyOfCloudId known.cloudId).bind fun key ↦ known.tag.map fun t ↦ (key, t))
      = some (k, t) := hb
  obtain ⟨key, -, hmap⟩ := Option.bind_eq_some_iff.mp hb
  obtain ⟨t', htag, heq⟩ := Option.map_eq_some_iff.mp hmap
  obtain rfl : t' = t := (Prod.mk.inj heq).2
  rw [htag]
  exact GraphSink.lookup_seed (h known _ rfl htag)

namespace GraphSink

variable {cfg : SinkConfig} {path : RelPath} {existing : Option Known} {known : Known}
  {cloudId : String}

/-- The object an upload is addressed at is the one whose tag is remembered. -/
theorem keepsQuiet_targetOf {f : Option (ObjectKey × String) → GraphSink β}
    (hs : Agrees existing s) (hw : Quiet (recordedBase existing) w)
    (hf : ∀ target s, Holds (recordedBase existing) target s →
      KeepsQuiet tags (recordedBase existing) (f target) s w) :
    KeepsQuiet tags (recordedBase existing) (targetOf existing >>= f) s w := by
  match existing with
  | none => exact hf none s fun _ _ _ _ h ↦ by cases h
  | some known =>
    rw [targetOf]
    split
    · exact keepsQuiet_throw hw
    · exact hf _ _ (holds_seed hs)

theorem keepsQuiet_upload (hs : Agrees existing s) (hw : Quiet (recordedBase existing) w) :
    KeepsQuiet cfg.tags (recordedBase existing) (upload cfg path existing) s w := by
  refine keepsQuiet_local (K := Agrees existing) asks_judgeFile hs hw fun snap s w hs hw ↦ ?_
  refine keepsQuiet_targetOf hs hw fun target s hs ↦ ?_
  split
  · exact keepsQuiet_bind (keepsQuiet_uploadSession hs hw) fun written s w hw ↦
      keepsQuiet_orCreate hw
  · refine keepsQuiet_local (K := Holds _ target) asks_readWhole hs hw fun body s w hs hw ↦ ?_
    match target with
    | some (key, cloudId) =>
      exact keepsQuiet_bind (keepsQuiet_putAtItem hs hw) fun written s w hw ↦ keepsQuiet_orCreate hw
    | none => exact keepsQuiet_names (K := fun _ ↦ True) asks_putAtPath trivial hw

theorem keepsQuiet_moveItem {src dst : RelPath} (hs : Agrees (some known) s)
    (hw : Quiet (recordedBase (some known)) w) :
    KeepsQuiet cfg.tags (recordedBase (some known)) (moveItem cfg src dst known) s w := by
  refine keepsQuiet_local (K := Agrees (some known)) asks_lift hs hw fun _ s w hs hw ↦ ?_
  split
  · exact keepsQuiet_throw hw
  · rename_i key _
    refine meets_modify (meets_state ?_)
    split
    · exact keepsQuiet_throw hw
    · rename_i tag htag
      refine keepsQuiet_local (K := fun _ ↦ True) asks_destination trivial hw
        fun parent s' w _ hw ↦ ?_
      have hpatch : KeepsQuiet cfg.tags (recordedBase (some known))
          (call (.patch key tag (dst.getLast?.getD "") parent)) s' w :=
        keepsQuiet_call (not_strays_of_holds (holds_seed hs) rfl htag.symm) hw
      refine keepsQuiet_bind hpatch fun reply s w hw ↦ ?_
      split
      · refine keepsQuiet_local (K := fun _ ↦ True) (asks_ask trivial) trivial hw
          fun isDir s w _ hw ↦ ?_
        split
        · exact keepsQuiet_names (asks_settleFolder.mono fun _ ↦ Query.IsMetadata.names) trivial hw
        · exact keepsQuiet_settle hw
      · exact keepsQuiet_throw hw

theorem keepsQuiet_remove
    (hs : ∀ key, keyOfCloudId cloudId = some key → Holds b (some (key, cloudId)) s)
    (hw : Quiet b w) : KeepsQuiet cfg.tags b (remove cfg cloudId) s w := by
  rw [remove]
  split
  · exact keepsQuiet_throw hw
  · rename_i key hkey
    refine meets_state (keepsQuiet_bind
      (keepsQuiet_call (not_strays_of_holds (hs key hkey) rfl rfl) hw) fun reply s w hw ↦ ?_)
    split
    · exact keepsQuiet_pure hw
    · exact keepsQuiet_throw hw

theorem keepsQuiet_removeKnown (hs : Agrees (some known) s)
    (hw : Quiet (recordedBase (some known)) w) :
    KeepsQuiet cfg.tags (recordedBase (some known)) (removeKnown cfg known) s w :=
  meets_modify (keepsQuiet_remove (fun _ _ ↦ holds_seed hs) hw)

end GraphSink

/-! ## Runs -/

/-- What the sink is called for, with what is recorded on the file. -/
inductive SinkJob where
  | upload (path : RelPath) (existing : Option Known)
  | moveItem (src dst : RelPath) (existing : Known)
  | remove (cloudId : String)
  | removeKnown (existing : Known)

namespace SinkJob

def run (cfg : SinkConfig) : SinkJob → GraphSink Unit
  | upload path existing => do
    let _ ← GraphSink.upload cfg path existing
    pure ()
  | moveItem src dst existing => do
    let _ ← GraphSink.moveItem cfg src dst existing
    pure ()
  | remove cloudId => GraphSink.remove cfg cloudId
  | removeKnown existing => GraphSink.removeKnown cfg existing

def existing : SinkJob → Option Known
  | upload _ existing => existing
  | moveItem _ _ existing | removeKnown existing => some existing
  | remove _ => none

end SinkJob

/-- The sink between two calls, or what is left of a call. -/
inductive JobState where
  | idle (known : KnownTags)
  | calling (rest : Dialogue Query Query.Answer (Except IoError Unit × KnownTags))

/-- One step of the sink, in one process, or of the others. -/
inductive Watch.Turn (cfg : SinkConfig) (allowed : KnownTags → SinkJob → Prop) :
    JobState × Watch → JobState × Watch → Prop
  | others {m : JobState} {w : Watch} (current : ObjectKey → List String) :
      Turn cfg allowed (m, w) (m, w.remote current)
  | called {job : SinkJob} {known : KnownTags} {w : Watch} : allowed known job →
      Turn cfg allowed (.idle known, w)
        (.calling (job.run cfg known), w.begin (recordedBase job.existing))
  | answered {p p' : Dialogue Query Query.Answer (Except IoError Unit × KnownTags)}
      {w w' : Watch} : Step (watchEnv cfg.tags) (p, w) (p', w') →
      Turn cfg allowed (.calling p, w) (.calling p', w')
  | returned {r : Except IoError Unit} {known : KnownTags} {w : Watch} :
      Turn cfg allowed (.calling (.done (r, known)), w) (.idle known, w)
  /-- `record_tag`. -/
  | recorded {known : KnownTags} {w : Watch} (cloudId tag : String) :
      Turn cfg allowed (.idle known, w) (.idle (known.insert cloudId tag), w)

/-- What holds of the sink, between calls and within one. -/
def Faultless (tags : TagSource) : JobState × Watch → Prop
  | (.idle _, w) => w.Calm
  | (.calling p, w) => ∃ b, Safe (watchEnv tags) Watch.Calm
      (fun (_ : Except IoError Unit × KnownTags) w ↦ Quiet b w) p w

variable {cfg : SinkConfig} {r r' : JobState × Watch}

theorem Faultless.calm (h : Faultless tags r) : r.2.Calm := by
  match r, h with
  | (.idle known, w), h => exact h
  | (.calling p, w), ⟨b, h⟩ => exact h.inv

theorem SinkJob.keepsQuiet (job : SinkJob) {known : KnownTags} (hs : Agrees job.existing known)
    (hw : Quiet (recordedBase job.existing) w) :
    KeepsQuiet cfg.tags (recordedBase job.existing) (job.run cfg) known w := by
  match job with
  | .upload path existing =>
    exact keepsQuiet_bind (GraphSink.keepsQuiet_upload hs hw) fun _ _ _ hw ↦ keepsQuiet_pure hw
  | .moveItem src dst existing =>
    exact keepsQuiet_bind (GraphSink.keepsQuiet_moveItem hs hw) fun _ _ _ hw ↦ keepsQuiet_pure hw
  | .remove cloudId => exact GraphSink.keepsQuiet_remove (fun _ _ _ _ _ _ _ h ↦ by cases h) hw
  | .removeKnown existing => exact GraphSink.keepsQuiet_removeKnown hs hw

/-- One step. -/
theorem Faultless.step (h : Faultless cfg.tags r)
    (hturn : Watch.Turn cfg (fun known job ↦ Agrees job.existing known) r r') :
    Faultless cfg.tags r' := by
  match hturn with
  | @Watch.Turn.others _ _ m w current =>
    match m, h with
    | .idle known, h => exact ⟨h.bound, h.accepted⟩
    | .calling p, ⟨b, h⟩ => exact ⟨b, h.others ⟨current, rfl⟩⟩
  | @Watch.Turn.called _ _ job known w hagrees =>
    have hcalm : w.Calm := h
    exact ⟨_, job.keepsQuiet hagrees ⟨⟨hcalm.bound, hcalm.accepted⟩, rfl⟩⟩
  | .answered hstep =>
    obtain ⟨b, h⟩ := h
    exact ⟨b, h.step hstep⟩
  | .returned =>
    obtain ⟨b, h⟩ := h
    exact h.ends.calm
  | .recorded _ _ => exact h

/-- **Every write is bound to the recorded tag**, and none is refused for its precondition while the
recorded version is there, in every run in which the sink is never called with another tag than the
one it remembers. -/
theorem bound_to_recorded (cfg : SinkConfig) (current : ObjectKey → List String)
    (r : JobState × Watch)
    (hrun : Relation.ReflTransGen (Watch.Turn cfg fun known job ↦ Agrees job.existing known)
      (.idle ∅, Watch.start current) r) : r.2.Calm := by
  have hstart : Faultless cfg.tags (.idle ∅, Watch.start current) := ⟨id, id⟩
  have hfaultless : Faultless cfg.tags r := by
    induction hrun with
    | refl => exact hstart
    | tail _ hturn ih => exact ih.step hturn
  exact hfaultless.calm

/-! ### An object that is edited on two sides -/

def editedKey : ObjectKey := ⟨⟨"d", checkId_d⟩, ⟨"i", checkId_i⟩⟩

def editedConfig : SinkConfig := ⟨⟨editedKey.drive, none⟩, .cTag, 4, 0⟩

/-- The reply to a write, with the tag of the version that has been written. -/
def editedReply (status : ℕ) (cTag : String) : Reply :=
  ⟨status, .ok ⟨some "i", some "f", none, none, some cTag, none, false, false, false, false, false,
    false, none, none⟩, .error "no session", .error "no children", none⟩

/-- A version is there that only this may be bound to. -/
def editedCurrent (tag : String) : ObjectKey → List String := fun _ ↦ [tag]

/-- What is watched after an answer that comes alone. -/
def Watch.asked (w : Watch) (q : Query) (a : q.Answer) : Watch :=
  (w.after .cTag q a).remote w.current

/-- What is watched when the file has been opened and read. -/
def Watch.readFile (w : Watch) (t : String) : Watch :=
  (((((w.begin (recordedBase (some ⟨"d|i", some t⟩))).asked (.open' ["f"]) (.ok ())).asked
    (.markAt ["f"]) .absent).asked .opened (.ok ⟨0, 0, 1, none, []⟩)).asked .readWhole (.ok [7]))

theorem reads_edited {allowed : KnownTags → SinkJob → Prop} {known : KnownTags} {w : Watch}
    {t : String} (hallowed : allowed known (.upload ["f"] (some ⟨"d|i", some t⟩)))
    (hcase : t = "ct:a" ∨ t = "ct:c") :
    Relation.ReflTransGen (Watch.Turn editedConfig allowed) (.idle known, w)
      (.calling ((do
        let _ ← (do
          let written ← GraphSink.putAtItem editedConfig editedKey "d|i" [7]
          GraphSink.orCreate editedConfig ["f"] "f" written)
        pure () : GraphSink Unit) (GraphSink.seed "d|i" (some t) known)), w.readFile t) := by
  have hlocal : ∀ (q : Query) (a : q.Answer) (w : Watch), q.IsLocal →
      WatchAnswers .cTag q w a (w.asked q a) := by
    intro q a w hq
    refine ⟨?_, w.current, rfl⟩
    cases q with
    | send request => exact hq.elim
    | _ => trivial
  have hopen := fun w ↦ hlocal (.open' ["f"]) (.ok ()) w trivial
  have hmark := fun w ↦ hlocal (.markAt ["f"]) .absent w trivial
  have hopened := fun w ↦ hlocal .opened (.ok ⟨0, 0, 1, none, []⟩) w trivial
  have hread := fun w ↦ hlocal .readWhole (.ok [7]) w trivial
  refine .head (.called hallowed) ?_
  rcases hcase with rfl | rfl
  · exact .head (.answered (.answered (hopen _))) (.head (.answered (.answered (hmark _)))
      (.head (.answered (.answered (hopened _))) (.head (.answered (.answered (hread _))) .refl)))
  · exact .head (.answered (.answered (hopen _))) (.head (.answered (.answered (hmark _)))
      (.head (.answered (.answered (hopened _))) (.head (.answered (.answered (hread _))) .refl)))

/-- A write is accepted, or refused while the version that is there is another. -/
theorem answers_edited {w : Watch} {raw cTag : String} {status : ℕ}
    (h : status = 412 → raw ∉ w.current editedKey) :
    WatchAnswers .cTag (.send (.putItem editedKey raw [7])) w (.ok (editedReply status cTag))
      (w.asked (.send (.putItem editedKey raw [7])) (.ok (editedReply status cTag))) := by
  refine ⟨?_, w.current, rfl⟩
  rintro reply key tag hreply hstatus hwrite
  obtain rfl := Except.ok.inj hreply
  obtain ⟨rfl, rfl⟩ := Prod.mk.injEq .. ▸ Option.some_inj.mp hwrite
  exact ⟨raw, rfl, h hstatus⟩

/-- What is remembered when the file has been written once, and when it has been written twice. -/
def writtenTags : KnownTags := AList.insert "d|i" "ct:b" (AList.insert "d|i" "ct:a" ∅)

/-- What is watched when the file has been sent and the reply has come. -/
def Watch.writeFile (w : Watch) (t raw : String) (status : ℕ) (cTag : String) : Watch :=
  (w.readFile t).asked (.send (.putItem editedKey raw [7])) (.ok (editedReply status cTag))

/-- The file is sent, and what is written gets the tag `ct:b`. -/
theorem writes_edited {allowed : KnownTags → SinkJob → Prop}
    (hallowed : allowed ∅ (.upload ["f"] (some ⟨"d|i", some "ct:a"⟩))) :
    Relation.ReflTransGen (Watch.Turn editedConfig allowed)
      (.idle ∅, Watch.start (editedCurrent "a"))
      (.idle writtenTags, (Watch.start (editedCurrent "a")).writeFile "ct:a" "a" 200 "b") := by
  have hput : WatchAnswers .cTag (.send (.putItem editedKey "a" [7]))
      ((Watch.start (editedCurrent "a")).readFile "ct:a") (.ok (editedReply 200 "b"))
      ((Watch.start (editedCurrent "a")).writeFile "ct:a" "a" 200 "b") :=
    answers_edited nofun
  exact (reads_edited hallowed (Or.inl rfl)).trans
    (.head (.answered (.answered hput)) (.head .returned .refl))

/-- A file that has been written is deleted, with the tag that has been recorded for the write. -/
theorem written_deleted :
    ∃ r : JobState × Watch, Relation.ReflTransGen
        (Watch.Turn editedConfig fun known job ↦ Agrees job.existing known)
        (.idle ∅, Watch.start (editedCurrent "a")) r
      ∧ r.1 = .calling (.done (.ok (), writtenTags)) ∧ r.2.Calm := by
  have hfirst : Agrees (some ⟨"d|i", some "ct:a"⟩) ∅ := fun _ _ _ _ ↦ Or.inl rfl
  have hsecond : Agrees (some ⟨"d|i", some "ct:b"⟩) writtenTags := by
    rintro known t hknown htag
    obtain rfl := Option.some_inj.mp hknown
    obtain rfl := Option.some_inj.mp htag
    exact Or.inr (AList.lookup_insert _)
  have hdelete (w : Watch) : WatchAnswers .cTag (.send (.delete editedKey (some "b"))) w
      (.ok (editedReply 204 "b")) (w.asked (.send (.delete editedKey (some "b")))
        (.ok (editedReply 204 "b"))) := by
    refine ⟨?_, w.current, rfl⟩
    rintro reply key tag hreply hstatus -
    rw [← Except.ok.inj hreply] at hstatus
    cases hstatus
  have hcalled (w : Watch) : Watch.Turn editedConfig (fun known job ↦ Agrees job.existing known)
      (.idle writtenTags, w)
      (.calling ((SinkJob.removeKnown ⟨"d|i", some "ct:b"⟩).run editedConfig writtenTags),
        w.begin (recordedBase (some ⟨"d|i", some "ct:b"⟩))) := .called hsecond
  have hrun : Relation.ReflTransGen
      (Watch.Turn editedConfig fun known job ↦ Agrees job.existing known)
      (.idle ∅, Watch.start (editedCurrent "a"))
      (.calling (.done (.ok (), writtenTags)), _) :=
    (writes_edited hfirst).trans (.head (hcalled _)
      (.head (.answered (.answered (hdelete _))) .refl))
  exact ⟨_, hrun, rfl, bound_to_recorded _ _ _ hrun⟩

/-- What is watched at the second write. -/
def editedWatch : Watch :=
  ((Watch.start (editedCurrent "a")).writeFile "ct:a" "a" 200 "b").remote (editedCurrent "c")

/-- Another device has written in between, and its tag is on the file: the sink still binds the
write to what it has written itself, and is refused. -/
theorem remembered_refused :
    ∃ r : JobState × Watch, Relation.ReflTransGen (Watch.Turn editedConfig fun _ _ ↦ True)
        (.idle ∅, Watch.start (editedCurrent "a")) r
      ∧ ¬ r.2.Calm ∧ r.2.astray ∧ r.2.stale := by
  have hput : WatchAnswers .cTag (.send (.putItem editedKey "b" [7]))
      (editedWatch.readFile "ct:c") (.ok (editedReply 412 "c"))
      (editedWatch.writeFile "ct:c" "b" 412 "c") := by
    refine answers_edited fun _ hmem ↦ ?_
    exact absurd (List.mem_singleton.mp hmem) (by decide)
  have hrun : Relation.ReflTransGen (Watch.Turn editedConfig fun _ _ ↦ True)
      (.idle ∅, Watch.start (editedCurrent "a")) (.calling (.done (.error
        (serviceRefused "the update was refused" (editedReply 412 "c")), writtenTags)),
        editedWatch.writeFile "ct:c" "b" 412 "c") := by
    refine (writes_edited trivial).trans (.head (.others (editedCurrent "c")) ?_)
    exact (reads_edited trivial (Or.inr rfl)).trans (.head (.answered (.answered hput)) .refl)
  have hastray : (editedWatch.writeFile "ct:c" "b" 412 "c").astray :=
    Or.inr ⟨_, rfl, editedKey, some "b", "ct:c", rfl, rfl, by decide⟩
  have hstale : (editedWatch.writeFile "ct:c" "b" 412 "c").stale :=
    Or.inr ⟨_, editedKey, some "b", "ct:c", "c", rfl, rfl, rfl, rfl, by decide,
      List.mem_singleton_self _⟩
  exact ⟨_, hrun, fun h ↦ h.bound hastray, hastray, hstale⟩

end HydrationAPI.Graph
