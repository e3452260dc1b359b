import HydrationAPI.Graph.SinkUpload

/-!
# The fragment protocol

A file is sent through a session in fragments, to a service that writes what arrives at the offset
it is stated for. A fragment that has been sent may arrive at once, late, more than once or never;
what has arrived may be forgotten; the service may assemble the object whenever it has every byte of
it, and may answer anything at all, but for the two answers that say it has.

The argument needs nothing of the ranges the service asks for: every fragment carries the file's own
bytes at its own offset, so that nothing else can be assembled; and how many rounds a transfer has
is known before the first.
-/

namespace HydrationAPI.Graph

open Dialogue Errand
open Client (RelPath)

/-- A fragment, with the range that its `Content-Range` names. -/
structure Fragment where
  offset : ℕ
  stop : ℕ
  total : ℕ
  bytes : List UInt8

/-- The fragment lies in the file, carries what the file holds there, and is a whole number of
quanta unless it ends the file. -/
structure Fragment.Exact (f : Fragment) (content : List UInt8) : Prop where
  starts : f.offset < content.length
  total : f.total = content.length
  stop : f.stop + 1 = f.offset + f.bytes.length
  inside : f.stop < f.total
  bytes : f.bytes = (content.drop f.offset).take f.bytes.length
  quanta : GraphSink.fragmentQuantum ∣ f.bytes.length ∨ f.stop + 1 = f.total

/-- What the service holds, once the fragment has been written over it. -/
def Fragment.over (f : Fragment) (received : ℕ → Option UInt8) (i : ℕ) : Option UInt8 :=
  if f.offset ≤ i ∧ i < f.offset + f.bytes.length then f.bytes[i - f.offset]? else received i

/-- The service's end of a session: what it has been sent, what it holds, and the object. -/
structure Assembly where
  sent : List Fragment
  received : ℕ → Option UInt8
  object : Option (List UInt8)

namespace Assembly

def empty : Assembly := ⟨[], fun _ ↦ none, none⟩

/-- A fragment is sent. -/
def offer (w : Assembly) (f : Fragment) : Assembly := { w with sent := w.sent ++ [f] }

/-- What may become of a session at any time. -/
inductive Turn : Assembly → Assembly → Prop
  | arrives {w : Assembly} {f : Fragment} : f ∈ w.sent →
      Turn w { w with received := f.over w.received }
  | forgets {w : Assembly} (lost : ℕ → Bool) :
      Turn w { w with received := fun i ↦ if lost i then none else w.received i }
  | assembles {w : Assembly} {f : Fragment} {bytes : List UInt8} : f ∈ w.sent →
      f.total = bytes.length → (∀ i < bytes.length, w.received i = bytes[i]?) →
      Turn w { w with object := some bytes }

end Assembly

/-- The answer that says that the object has been assembled. -/
def Reply.assembled (reply : Reply) : Bool := reply.status = 200 || reply.status = 201

/-- Of what is answered to a fragment, only that nothing is said to be assembled that is not. The
file does not change: what is read is its content, or an error. -/
def AssemblyAnswers (content : List UInt8) : (q : Query) → Assembly → q.Answer → Assembly → Prop
  | .send (.fragment _ offset stop total bytes), w, a, w' =>
    Relation.ReflTransGen Assembly.Turn (w.offer ⟨offset, stop, total, bytes⟩) w'
      ∧ ∀ reply, a = .ok reply → reply.assembled = true → w'.object.isSome
  | .readExactAt offset len, w, a, w' => w' = w ∧ ∀ bytes, a = .ok bytes →
      offset + len ≤ content.length ∧ bytes = (content.drop offset).take len
  | _, w, _, w' => w' = w

def assemblyEnv (content : List UInt8) : Env Query Query.Answer Assembly :=
  ⟨AssemblyAnswers content, Assembly.Turn⟩

/-! ## What the service can hold -/

/-- What has been sent is exact, what the service holds is the file's, and no more than `left`
fragments can be sent before there are `bound`. -/
structure Assembly.Faithful (content : List UInt8) (bound left : ℕ) (w : Assembly) : Prop where
  exact : ∀ f ∈ w.sent, f.Exact content
  received : ∀ i b, w.received i = some b → content[i]? = some b
  object : ∀ bytes, w.object = some bytes → bytes = content
  budget : w.sent.length + left ≤ bound

variable {content : List UInt8} {bound left : ℕ} {w w' : Assembly} {f : Fragment}

/-- A fragment that is exact puts nothing else in the place of the file's bytes. -/
theorem Fragment.Exact.over (h : f.Exact content) {received : ℕ → Option UInt8}
    (hreceived : ∀ i b, received i = some b → content[i]? = some b) {i : ℕ} {b : UInt8}
    (hi : f.over received i = some b) : content[i]? = some b := by
  rw [Fragment.over] at hi
  split at hi
  · rename_i hin
    rw [h.bytes, List.getElem?_take, List.getElem?_drop] at hi
    split at hi
    · rwa [Nat.add_sub_of_le hin.1] at hi
    · cases hi
  · exact hreceived i b hi

namespace Assembly.Faithful

theorem empty : Assembly.empty.Faithful content bound bound where
  exact f hf := absurd hf List.not_mem_nil
  received i b hi := by cases hi
  object bytes h := by cases h
  budget := le_of_eq (Nat.zero_add bound)

theorem mono {more : ℕ} (h : w.Faithful content bound more) (hle : left ≤ more) :
    w.Faithful content bound left :=
  ⟨h.exact, h.received, h.object, (Nat.add_le_add_left hle _).trans h.budget⟩

theorem offer (h : w.Faithful content bound (left + 1)) (hf : f.Exact content) :
    (w.offer f).Faithful content bound left where
  exact g hg := (List.mem_append.mp hg).elim (h.exact g) fun hg ↦ List.mem_singleton.mp hg ▸ hf
  received := h.received
  object := h.object
  budget := by
    have hbudget := h.budget
    rw [Assembly.offer, List.length_append, List.length_singleton]
    omega

/-- One step of the service: only the file can be assembled. -/
theorem turn (h : w.Faithful content bound left) (hturn : Turn w w') :
    w'.Faithful content bound left := by
  match hturn with
  | .arrives hf =>
    exact ⟨h.exact, fun i b hi ↦ (h.exact _ hf).over h.received hi, h.object, h.budget⟩
  | .forgets lost =>
    refine ⟨h.exact, fun i b hi ↦ ?_, h.object, h.budget⟩
    dsimp only at hi
    split at hi
    · cases hi
    · exact h.received i b hi
  | @Turn.assembles _ f bytes hf htotal hall =>
    refine ⟨h.exact, h.received, fun bytes' hbytes ↦ ?_, h.budget⟩
    obtain rfl := Option.some_inj.mp hbytes
    have hlength : bytes.length = content.length := htotal.symm.trans (h.exact f hf).total
    refine List.ext_getElem hlength fun i hi hi' ↦ ?_
    have hheld := h.received i bytes[i] ((hall i hi).trans (List.getElem?_eq_getElem hi))
    exact (Option.some_inj.mp ((List.getElem?_eq_getElem hi').symm.trans hheld)).symm

theorem turns (h : w.Faithful content bound left) (hturns : Relation.ReflTransGen Turn w w') :
    w'.Faithful content bound left := by
  induction hturns with
  | refl => exact h
  | tail _ hturn ih => exact ih.turn hturn

theorem isSome_object (h : w.Faithful content bound left) (hsome : w.object.isSome) :
    w.object = some content := by
  obtain ⟨bytes, hbytes⟩ := Option.isSome_iff_exists.mp hsome
  rw [hbytes, h.object bytes hbytes]

end Assembly.Faithful

/-- What has been assembled stays. -/
theorem object_of_turn (h : w.Faithful content bound left) (hturn : Assembly.Turn w w')
    (hobject : w.object = some content) : w'.object = some content := by
  match hturn with
  | .arrives _ | .forgets _ => exact hobject
  | .assembles hf htotal hall => exact (h.turn (.assembles hf htotal hall)).isSome_object rfl

/-! ## What is sent -/

/-- What a part of the transfer leaves: the service's end is faithful, and if the part says that the
object has been assembled, it has. -/
def Leaves {α : Type} (content : List UInt8) (bound left : ℕ) (tells : α → Bool)
    (r : Except IoError α) (_ : KnownTags) (w : Assembly) : Prop :=
  w.Faithful content bound left ∧ ∀ a, r = .ok a → tells a = true → w.object = some content

/-- Whatever is answered and whatever becomes of the session, what is sent is exact. -/
abbrev Sends {α : Type} (content : List UInt8) (bound left : ℕ) (tells : α → Bool) (m : GraphSink α)
    (s : KnownTags) (w : Assembly) : Prop :=
  Meets (assemblyEnv content) (Assembly.Faithful content bound 0) (Leaves content bound left tells)
    m s w

/-- A part of the transfer that says nothing. -/
def nothing {α : Type} (_ : α) : Bool := false

section Rules

variable {α β : Type} {tells : α → Bool} {m : GraphSink α} {s : KnownTags} {a : α}

theorem lasting_leaves : Lasting (assemblyEnv content) (Assembly.Faithful content bound 0)
    (Leaves content bound left tells) :=
  ⟨fun _ _ _ _ hturn h ↦ ⟨h.1.turn hturn, fun a ha htells ↦
    object_of_turn h.1 hturn (h.2 a ha htells)⟩, fun _ _ _ h ↦ h.1.mono (Nat.zero_le left)⟩

theorem stable_faithful : Stable (assemblyEnv content) (Assembly.Faithful content bound left) :=
  fun _ _ hturn h ↦ h.turn hturn

theorem sends_pure (hw : w.Faithful content bound left)
    (h : tells a = true → w.object = some content) : Sends content bound left tells (pure a) s w :=
  meets_pure lasting_leaves ⟨hw, fun _ ha htells ↦ h (Except.ok.inj ha ▸ htells)⟩

theorem sends_throw {e : IoError} (hw : w.Faithful content bound left) :
    Sends content bound left tells (throw e) s w :=
  meets_throw lasting_leaves ⟨hw, fun _ ha ↦ by cases ha⟩

theorem sends_bind {f : α → GraphSink β} {more : ℕ} {ends : β → Bool} (hle : left ≤ more)
    (h : Sends content bound more tells m s w)
    (hf : ∀ a s w, w.Faithful content bound more → (tells a = true → w.object = some content) →
      Sends content bound left ends (f a) s w) :
    Sends content bound left ends (m >>= f) s w :=
  meets_bind lasting_leaves h (fun a s w _ hleaves ↦ hf a s w hleaves.1 (hleaves.2 a rfl))
    fun _ _ _ _ hleaves ↦ ⟨hleaves.1.mono hle, fun _ ha ↦ by cases ha⟩

/-- Where the answer may be an error, it says only what the answer does. -/
theorem sends_attempt (h : Sends content bound left tells m s w) :
    Sends content bound left (fun r ↦ r.toOption.any tells) (Errand.attempt m) s w := by
  refine meets_attempt lasting_leaves (h.mono fun r s w _ hleaves ↦ ?_)
  refine ⟨hleaves.1, fun r' hr' htells ↦ ?_⟩
  obtain rfl := Except.ok.inj hr'
  match r with
  | .ok a => exact hleaves.2 a rfl htells
  | .error e => cases htells

/-- What is asked beside the fragments changes nothing at the service. -/
theorem sends_ask {q : Query} {f : q.Answer → GraphSink α} {more : ℕ}
    (hq : ∀ w a w', AssemblyAnswers content q w a w' → w' = w) (hw : w.Faithful content bound more)
    (hf : ∀ a w, w.Faithful content bound more → AssemblyAnswers content q w a w →
      Sends content bound left tells (f a) s w) :
    Sends content bound left tells (Errand.ask q >>= f) s w := by
  refine meets_ask stable_faithful hw (fun v hv ↦ hv.mono (Nat.zero_le _)) fun v a v' hv ha ↦ ?_
  obtain rfl := hq v a v' ha
  exact hf a v' hv ha

theorem sends_lift {r : Except IoError α} (hw : w.Faithful content bound left) :
    Sends content bound left nothing (lift r) s w :=
  meets_lift lasting_leaves ⟨hw, nofun⟩

/-- A request other than a fragment, as often as it is sent. -/
theorem sends_request {request : Request} {unreachable : IoError → IoError} {again : ℕ}
    (hrequest : ∀ w a w', AssemblyAnswers content (.send request) w a w' → w' = w)
    (hw : w.Faithful content bound left) :
    Sends content bound left nothing (GraphSink.sendAgain request unreachable again) s w := by
  refine GraphSink.meets_sendAgain lasting_leaves stable_faithful
    (fun v hv ↦ hv.mono (Nat.zero_le left)) ?_ ?_ again hw
  · intro v reply v' hv ha _
    exact hrequest v _ v' ha ▸ hv
  · intro v a v' hv ha
    exact ⟨hrequest v a v' ha ▸ hv, fun _ _ htells ↦ by cases htells⟩

/-- A fragment is sent once. -/
theorem sends_fragmentOnce {url : String} {unreachable : IoError → IoError} (hf : f.Exact content)
    (hw : w.Faithful content bound (left + 1)) :
    Sends content bound left Reply.assembled
      (GraphSink.sendOnce (.fragment url f.offset f.stop f.total f.bytes) unreachable) s w := by
  refine GraphSink.meets_sendOnce lasting_leaves stable_faithful hw
    (fun v hv ↦ hv.mono (Nat.zero_le _)) fun v a v' hv ha ↦ ?_
  obtain ⟨hturns, hassembled⟩ := ha
  have hv' : v'.Faithful content bound left := (hv.offer hf).turns hturns
  refine ⟨hv', fun reply hreply htells ↦ hv'.isSome_object ?_⟩
  match a with
  | .ok reply' => exact hassembled reply' rfl (Except.ok.inj hreply ▸ htells)
  | .error e => cases hreply

/-- **A fragment**, as often as it is sent. -/
theorem sends_fragment {url : String} {unreachable : IoError → IoError} (hf : f.Exact content)
    (again : ℕ) (hw : w.Faithful content bound (left + (again + 1))) :
    Sends content bound left Reply.assembled
      (GraphSink.sendAgain (.fragment url f.offset f.stop f.total f.bytes) unreachable again)
      s w := by
  induction again generalizing s w with
  | zero => exact sends_fragmentOnce hf hw
  | succ again ih =>
    refine sends_bind (Nat.le_add_right left (again + 1)) (sends_fragmentOnce hf hw)
      fun reply s v hv htold ↦ ?_
    by_cases htransient : reply.transient = true
    · rw [if_pos htransient]
      exact ih hv
    · rw [if_neg htransient]
      exact sends_pure (hv.mono (Nat.le_add_right _ _)) htold

end Rules

/-! ## The transfer -/

namespace GraphSink

variable {cfg : SinkConfig} {path : RelPath} {url : String} {target : Option (ObjectKey × String)}
  {snap : Snapshot} {s : KnownTags} {t : Transfer}

/-- What a round says has been assembled. -/
def roundTells : Transferred ⊕ Transfer → Bool
  | .inl (.committed _) => true
  | _ => false

theorem sends_readTag {key : ObjectKey} (hw : w.Faithful content bound left) :
    Sends content bound left nothing (readTag cfg key) s w := by
  refine sends_bind le_rfl (sends_request (fun _ _ _ h ↦ h) hw) fun reply s v hv _ ↦ ?_
  split
  · exact sends_throw hv
  · match reply.item with
    | .ok item => exact sends_pure hv nofun
    | .error e => exact sends_throw hv

theorem sends_recheck {key : ObjectKey} {cloudId : String} (hw : w.Faithful content bound left) :
    Sends content bound left nothing (recheck cfg key cloudId) s w :=
  meets_state (sends_bind le_rfl (sends_readTag hw) fun _ _ _ hv _ ↦ sends_pure hv nofun)

theorem sends_isPlaceholder (hw : w.Faithful content bound left) :
    Sends content bound left nothing (isPlaceholder path) s w := by
  refine sends_ask (fun _ _ _ h ↦ h) hw fun mark v hv _ ↦ ?_
  match mark with
  | .unreadable e => exact sends_throw hv
  | .absent => exact sends_pure hv nofun
  | .text _ | .binary _ => exact sends_pure hv nofun

theorem sends_unchanged (hw : w.Faithful content bound left) :
    Sends content bound left nothing (unchanged path snap) s w := by
  refine sends_bind le_rfl (sends_isPlaceholder hw) fun marked s v hv _ ↦ ?_
  split
  · exact sends_throw hv
  · have hcurrent : Sends content bound left nothing
        (local' (Errand.ask (Query.current path snap.head.length))) s v :=
      sends_ask (fun _ _ _ h ↦ h) hv fun _ _ hv _ ↦ sends_lift hv
    refine sends_bind le_rfl hcurrent fun now s u hu _ ↦ ?_
    split
    · exact sends_throw hu
    · exact sends_pure hu nofun

/-- What is read is the file's, and lies in it. -/
theorem sends_readExactAt {α : Type} {tells : α → Bool} {g : List UInt8 → GraphSink α}
    {offset len more : ℕ} (hle : left ≤ more) (hw : w.Faithful content bound more)
    (hg : ∀ w, w.Faithful content bound more → offset + len ≤ content.length →
      Sends content bound left tells (g ((content.drop offset).take len)) s w) :
    Sends content bound left tells (readExactAt offset len >>= g) s w := by
  have hread : Sends content bound left tells
      (Errand.ask (.readExactAt offset len) >>= fun answer ↦ lift answer >>= g) s w := by
    refine sends_ask (fun _ _ _ h ↦ h.1) hw fun answer v hv hanswer ↦ ?_
    match answer with
    | .ok bytes =>
      obtain ⟨hinside, rfl⟩ := hanswer.2 bytes rfl
      exact hg v hv hinside
    | .error e => exact sends_throw (hv.mono hle)
  exact hread

theorem sends_probe (hw : w.Faithful content bound left) :
    Sends content bound left nothing (probe url) s w := by
  refine sends_bind le_rfl (sends_attempt (sends_request (fun _ _ _ h ↦ h) hw))
    fun r s v hv _ ↦ ?_
  match r with
  | .error e => exact sends_pure hv nofun
  | .ok reply =>
    dsimp only
    split
    · exact sends_pure hv nofun
    · exact sends_pure hv nofun

theorem sends_ended {settled : Transferred} (hw : w.Faithful content bound left)
    (h : ∀ item, settled ≠ .committed item) :
    Sends content bound left roundTells (pure (.inl settled)) s w := by
  refine sends_pure hw fun htells ↦ ?_
  match settled with
  | .committed item => exact absurd rfl (h item)

theorem sends_goes_on (hw : w.Faithful content bound left) :
    Sends content bound left roundTells (pure (.inr t)) s w := sends_pure hw nofun

/-- What follows from an answer: it is passed on only if it says that the object is assembled. -/
theorem sends_afterFragment {total stop : ℕ} {reply : Reply} (hw : w.Faithful content bound left)
    (htold : reply.assembled = true → w.object = some content) :
    Sends content bound left roundTells (afterFragment url total stop t reply) s w := by
  rw [afterFragment]
  split
  · rename_i hstatus
    refine sends_pure hw fun _ ↦ htold ?_
    rcases hstatus with hstatus | hstatus <;> simp [Reply.assembled, hstatus]
  · split
    · dsimp only
      split
      · exact sends_ended hw fun _ h ↦ by cases h
      · split
        · split
          · exact sends_ended hw fun _ h ↦ by cases h
          · exact sends_goes_on hw
        · exact sends_goes_on hw
    · split
      · refine sends_bind le_rfl (sends_probe hw) fun at' s v hv _ ↦ ?_
        match at' with
        | some at' => exact sends_goes_on hv
        | none => exact sends_ended hv fun _ h ↦ by cases h
      · split
        · exact sends_ended hw fun _ h ↦ by cases h
        · exact sends_ended hw fun _ h ↦ by cases h

/-- The fragment of a round is exact. -/
theorem exact_round (cfg : SinkConfig) (hlen : snap.len = content.length)
    (hmore : t.offset < snap.len)
    (hinside : t.offset + min (fragmentSize cfg) (snap.len - t.offset) ≤ content.length) :
    Fragment.Exact ⟨t.offset, t.offset + min (fragmentSize cfg) (snap.len - t.offset) - 1, snap.len,
      (content.drop t.offset).take (min (fragmentSize cfg) (snap.len - t.offset))⟩ content := by
  have hpos : 0 < min (fragmentSize cfg) (snap.len - t.offset) :=
    lt_min (fragmentSize_pos cfg) (Nat.sub_pos_of_lt hmore)
  have hlength : ((content.drop t.offset).take
      (min (fragmentSize cfg) (snap.len - t.offset))).length
        = min (fragmentSize cfg) (snap.len - t.offset) := by
    rw [List.length_take, List.length_drop]
    omega
  refine ⟨hlen ▸ hmore, hlen, ?_, ?_, ?_, ?_⟩
  · dsimp only
    omega
  · dsimp only
    omega
  · rw [hlength]
  · dsimp only
    rw [hlength]
    rcases le_total (fragmentSize cfg) (snap.len - t.offset) with hle | hle
    · rw [min_eq_left hle]
      exact Or.inl (fragmentQuantum_dvd cfg)
    · rw [min_eq_right hle]
      exact Or.inr (by omega)

/-- A fragment that is exact is sent, and what becomes of it is asked. -/
theorem sends_sendFragment {total len : ℕ} {bytes : List UInt8}
    (hf : Fragment.Exact ⟨t.offset, t.offset + len - 1, total, bytes⟩ content)
    (hw : w.Faithful content bound (left + maxWriteAttempts)) :
    Sends content bound left roundTells (sendFragment url total len bytes t) s w := by
  refine sends_bind le_rfl (sends_attempt (sends_fragment hf (maxWriteAttempts - 1) hw))
    fun r s v hv htold ↦ ?_
  match r with
  | .ok reply => exact sends_afterFragment hv htold
  | .error e =>
    dsimp only
    split
    · exact sends_ended hv fun _ h ↦ by cases h
    · refine sends_bind le_rfl (sends_probe hv) fun at' s u hu _ ↦ ?_
      match at' with
      | some at' => exact sends_goes_on hu
      | none => exact sends_goes_on hu

/-- One round of the transfer sends one fragment, a few times at most. -/
theorem sends_transferRound (hlen : snap.len = content.length) (hmore : t.offset < snap.len)
    (hw : w.Faithful content bound (left + maxWriteAttempts)) :
    Sends content bound left roundTells (transferRound cfg path url target snap t) s w := by
  refine sends_bind (Nat.le_add_right left _) (sends_unchanged hw) fun _ s v hv _ ↦ ?_
  refine sends_readExactAt (Nat.le_add_right left _) hv fun u hu hinside ↦ ?_
  have hexact := exact_round cfg hlen hmore hinside
  split
  · match target with
    | none => exact sends_sendFragment hexact hu
    | some (key, cloudId) =>
      refine sends_bind (Nat.le_add_right left _) (sends_recheck hu) fun same s v' hv' _ ↦ ?_
      split
      · exact sends_sendFragment hexact hv'
      · exact sends_ended (hv'.mono (Nat.le_add_right left _)) fun _ h ↦ by cases h
  · exact sends_sendFragment hexact hu

/-- What a transfer says has been assembled. -/
def transferTells : Transferred → Bool
  | .committed _ => true
  | _ => false

/-- The rounds of a transfer, by induction on how many are left. -/
theorem sends_transferRounds (hlen : snap.len = content.length) (rounds : ℕ) {s : KnownTags}
    {w : Assembly} {t : Transfer} (hw : w.Faithful content bound (maxWriteAttempts * rounds)) :
    Sends content bound 0 transferTells (transferRounds cfg path url target snap rounds t) s w := by
  induction rounds generalizing s w t with
  | zero =>
    rw [transferRounds]
    split <;> exact sends_pure hw nofun
  | succ rounds ih =>
    rw [transferRounds]
    split
    · rename_i hmore
      refine sends_bind (Nat.zero_le _) (sends_transferRound hlen hmore hw) fun r s v hv htold ↦ ?_
      match r with
      | .inl settled =>
        refine sends_pure (hv.mono (Nat.zero_le _)) fun htells ↦ htold ?_
        match settled with
        | .committed item => rfl
      | .inr t => exact ih hv
    · exact sends_pure (hw.mono (Nat.zero_le _)) nofun

end GraphSink

/-- **A transfer follows the service**: whatever is answered, every fragment is exact, there are no
more of them than the file's length allows, and what is committed is the file. -/
theorem transfer_exact (cfg : SinkConfig) (path : RelPath) (url : String)
    (target : Option (ObjectKey × String)) (snap : Snapshot) (known : KnownTags)
    (content : List UInt8) (hlen : snap.len = content.length)
    (p : Dialogue Query Query.Answer (Except IoError Transferred × KnownTags))
    (w : Assembly) (hrun : Relation.ReflTransGen (Step (assemblyEnv content))
      (GraphSink.transfer cfg path url target snap known, Assembly.empty) (p, w)) :
    (∀ f ∈ w.sent, f.Exact content)
      ∧ w.sent.length ≤ maxWriteAttempts
        * (content.length / GraphSink.fragmentSize cfg + GraphSink.fragmentHeadroom + 2)
      ∧ ∀ item s, p = .done (.ok (.committed item), s) → w.object = some content := by
  have hstart : Sends content (maxWriteAttempts * (snap.len / GraphSink.fragmentSize cfg
      + GraphSink.fragmentHeadroom + 1 + 1)) 0 GraphSink.transferTells
      (GraphSink.transfer cfg path url target snap) known Assembly.empty :=
    GraphSink.sends_transferRounds hlen _ Assembly.Faithful.empty
  have hsafe := Safe.run (s := (GraphSink.transfer cfg path url target snap known, Assembly.empty))
    hstart hrun
  refine ⟨hsafe.inv.exact, ?_, fun item s hp ↦ ?_⟩
  · have hbudget := hsafe.inv.budget
    rwa [hlen] at hbudget
  · subst hp
    exact hsafe.ends.2 _ rfl rfl

/-! ### A file of three bytes -/

def smallFile : List UInt8 := [1, 2, 3]

def smallSnapshot : Snapshot := ⟨0, 0, 3, none, []⟩

def smallConfig : SinkConfig := ⟨⟨⟨"d", checkId_d⟩, none⟩, .cTag, 0, 0⟩

def created : Reply := ⟨201, .error "no item", .error "no session", .error "no children", none⟩

/-- The service, once it has assembled the file. -/
def smallAssembly : Assembly :=
  ⟨[⟨0, 2, 3, smallFile⟩], Fragment.over ⟨0, 2, 3, smallFile⟩ fun _ ↦ none, some smallFile⟩

theorem smallFile_assembled : (assemblyEnv smallFile).answers
    (.send (.fragment "u" 0 2 3 smallFile)) Assembly.empty (.ok created) smallAssembly := by
  have harrives := Assembly.Turn.arrives (w := Assembly.empty.offer ⟨0, 2, 3, smallFile⟩)
    (f := ⟨0, 2, 3, smallFile⟩) (List.mem_singleton_self _)
  refine ⟨(Relation.ReflTransGen.single harrives).tail ?_, fun _ _ _ ↦ rfl⟩
  refine Assembly.Turn.assembles (f := ⟨0, 2, 3, smallFile⟩) (List.mem_singleton_self _) rfl ?_
  decide

theorem smallFile_transferred : Relation.ReflTransGen (Step (assemblyEnv smallFile))
    (GraphSink.transfer smallConfig [] "u" none smallSnapshot ∅, Assembly.empty)
    (.done (.ok (.committed created.item), ∅), smallAssembly) := by
  refine .head (.answered (a := Client.Attr.absent) rfl) ?_
  refine .head (.answered (a := Except.ok smallSnapshot) rfl) ?_
  refine .head (.answered (a := Except.ok smallFile) ⟨rfl, ?_⟩) ?_
  · rintro _ ⟨⟩
    exact ⟨le_rfl, rfl⟩
  · have hlen : min (GraphSink.fragmentSize smallConfig) (smallSnapshot.len - 0) = 3 :=
      min_eq_right (by decide)
    have hlast : 0 + 3 = smallSnapshot.len := rfl
    dsimp only [Dialogue.bind, resume]
    simp only [hlen, hlast, and_self, if_true]
    exact .head (.answered smallFile_assembled) .refl

theorem transfer_exact_small : smallAssembly.object = some smallFile :=
  (transfer_exact smallConfig [] "u" none smallSnapshot ∅ smallFile rfl _ smallAssembly
    smallFile_transferred).2.2 _ _ rfl

end HydrationAPI.Graph
