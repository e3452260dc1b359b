import HydrationAPI.Graph.OwnVersions

/-!
# Uploads and renames overwrite what is one's own

One rule for each thing the sink can do, and one statement for each of its procedures: with harmless
tags, recorded and remembered, it asks for nothing that overwrites another device's version, and
what it returns names the version it has written. A write that is bound to a tag is safe because the
tag is; the commit of a session is bound to nothing, and is safe if nobody has written since the
object was read.
-/

namespace HydrationAPI.Graph

open Dialogue Errand
open Client (Attr RelPath)
open Client.Upload (Known Uploaded)

variable {V : Versions} {tags : TagSource}

/-- The runs in which the tag of a write is read back in time, and a session committed. -/
abbrev timelyEnv (V : Versions) (tags : TagSource) : Env Query Query.Answer SharedDrive :=
  (driveEnv V tags).under Timely

/-- What a part of the sink leaves: the drive is calm, and of its result `Q` holds. -/
def Ends {α : Type} (V : Versions) (Q : α → KnownTags → SharedDrive → Prop) (r : Except IoError α)
    (s : KnownTags) (w : SharedDrive) : Prop :=
  Base V s w ∧ ∀ a, r = .ok a → Q a s w

/-- Whatever is answered and whatever the others do, the drive is calm, and in the end `Q` holds. -/
abbrev Keeps {α : Type} (V : Versions) (tags : TagSource) (Q : α → KnownTags → SharedDrive → Prop)
    (m : GraphSink α) (s : KnownTags) (w : SharedDrive) : Prop :=
  Meets (timelyEnv V tags) (Calm V) (Ends V Q) m s w

/-- The others cannot change it. -/
def Lasts {α : Type} (V : Versions) (Q : α → KnownTags → SharedDrive → Prop) : Prop :=
  ∀ a s w w', Elsewhere V w w' → Q a s w → Q a s w'

section Rules

variable {α β : Type} {Q : α → KnownTags → SharedDrive → Prop}
  {R : β → KnownTags → SharedDrive → Prop} {m : GraphSink α} {s : KnownTags} {w : SharedDrive}

theorem lasting_ends (hQ : Lasts V Q) : Lasting (timelyEnv V tags) (Calm V) (Ends V Q) :=
  ⟨fun _ s w w' hothers h ↦ ⟨h.1.elsewhere hothers, fun a ha ↦ hQ a s w w' hothers (h.2 a ha)⟩,
    fun _ _ _ h ↦ h.1.calm⟩

theorem stable_base {P : SharedDrive → Prop}
    (hP : ∀ w w', Elsewhere V w w' → P w → P w') (s : KnownTags) :
    Stable (timelyEnv V tags) fun w ↦ Base V s w ∧ P w :=
  fun w w' hothers h ↦ ⟨h.1.elsewhere hothers, hP w w' hothers h.2⟩

theorem keeps_pure {a : α} (hQ : Lasts V Q) (hw : Base V s w) (h : Q a s w) :
    Keeps V tags Q (pure a) s w :=
  meets_pure (lasting_ends hQ) ⟨hw, fun _ ha ↦ Except.ok.inj ha ▸ h⟩

theorem keeps_throw {e : IoError} (hQ : Lasts V Q) (hw : Base V s w) :
    Keeps V tags Q (throw e) s w :=
  meets_throw (lasting_ends hQ) ⟨hw, fun _ ha ↦ by cases ha⟩

theorem keeps_lift {r : Except IoError α} (hQ : Lasts V Q) (hw : Base V s w)
    (h : ∀ a, r = .ok a → Q a s w) : Keeps V tags Q (lift r) s w :=
  meets_lift (lasting_ends hQ) ⟨hw, h⟩

theorem keeps_bind {f : α → GraphSink β} (hR : Lasts V R) (h : Keeps V tags Q m s w)
    (hf : ∀ a s w, Base V s w → Q a s w → Keeps V tags R (f a) s w) :
    Keeps V tags R (m >>= f) s w :=
  meets_bind (lasting_ends hR) h (fun a s w _ hends ↦ hf a s w hends.1 (hends.2 a rfl))
    fun _ _ _ _ hends ↦ ⟨hends.1, fun _ ha ↦ by cases ha⟩

/-- Of an error nothing is known but that the drive is calm. -/
theorem keeps_attempt (hQ : Lasts V Q) (h : Keeps V tags Q m s w) :
    Keeps V tags (fun r s w ↦ ∀ a, r = .ok a → Q a s w) (Errand.attempt m) s w := by
  have hlasts : Lasts V fun (r : Except IoError α) s w ↦ ∀ a, r = .ok a → Q a s w :=
    fun r s w w' hothers h a ha ↦ hQ a s w w' hothers (h a ha)
  refine meets_attempt (lasting_ends hlasts) (h.mono fun r s w _ hends ↦ ?_)
  exact ⟨hends.1, fun r' hr' a ha ↦ hends.2 a ((Except.ok.inj hr').trans ha)⟩

/-- What is decoded. -/
theorem keeps_decode {body : Except String α} {f : α → GraphSink β} (hR : Lasts V R)
    (hw : Base V s w) (h : ∀ a, body = .ok a → Keeps V tags R (f a) s w) :
    Keeps V tags R (GraphSink.decode body >>= f) s w := by
  match body with
  | .ok a => exact h a rfl
  | .error e =>
    have hthrow : Keeps V tags R (throw (invalidData e) : GraphSink β) s w := keeps_throw hR hw
    exact hthrow

/-- A question about the local directory tells nothing of the drive, and changes nothing there. -/
theorem keeps_local {q : Query} {f : q.Answer → GraphSink β} {P : SharedDrive → Prop}
    (hq : ∀ w a w', DriveAnswers V tags q w a w' → w' = w)
    (hP : ∀ w w', Elsewhere V w w' → P w → P w') (hw : Base V s w) (h : P w)
    (hf : ∀ a w, Base V s w → P w → Keeps V tags R (f a) s w) :
    Keeps V tags R (Errand.ask q >>= f) s w := by
  refine meets_ask (stable_base hP s) ⟨hw, h⟩ (fun v hv ↦ hv.1.calm) fun v a v' hv ha ↦ ?_
  obtain rfl := hq v a v' ha.1
  exact hf a v' hv.1 hv.2

/-- **A request**, as often as it is sent: what is known of the drive must be left by every answer
after which it is sent again. -/
theorem meets_send {request : Request} {unreachable : IoError → IoError}
    {P : SharedDrive → Prop} {Q : Except IoError Reply → KnownTags → SharedDrive → Prop}
    (hQ : Lasts V Q) (hP : ∀ w w', Elsewhere V w w' → P w → P w')
    (hharmless : ∀ w a w', Base V s w → P w → DriveAnswers V tags (.send request) w a w' →
      Timely (.send request) w a w' → Harmless V (.send request) w w')
    (hagain : ∀ w (reply : Reply) w', Base V s w → P w →
      DriveAnswers V tags (.send request) w (.ok reply) w' → Timely (.send request) w (.ok reply) w' →
      reply.transient = true → P w')
    (hanswer : ∀ w (a : Except IoError Reply) w', Base V s w → P w →
      DriveAnswers V tags (.send request) w a w' → Timely (.send request) w a w' →
      Q (a.mapError unreachable) s w')
    (again : ℕ) (hw : Base V s w) (h : P w) :
    Meets (timelyEnv V tags) (Calm V) (fun r s w ↦ Base V s w ∧ Q r s w)
      (GraphSink.sendAgain request unreachable again) s w := by
  have hlasts : Lasting (timelyEnv V tags) (Calm V)
      fun (r : Except IoError Reply) s w ↦ Base V s w ∧ Q r s w :=
    ⟨fun r s w w' hothers h ↦ ⟨h.1.elsewhere hothers, hQ r s w w' hothers h.2⟩,
      fun _ _ _ h ↦ h.1.calm⟩
  have hbase : ∀ v (a : Except IoError Reply) v', Base V s v ∧ P v →
      (timelyEnv V tags).answers (.send request) v a v' → Base V s v' := fun v a v' hv ha ↦
    hv.1.answered ha.1 (hharmless v a v' hv.1 hv.2 ha.1 ha.2)
  refine GraphSink.meets_sendAgain hlasts (stable_base hP s) (fun v hv ↦ hv.1.calm)
    ?_ ?_ again ⟨hw, h⟩
  · intro v reply v' hv ha htransient
    exact ⟨hbase v _ v' hv ha, hagain v reply v' hv.1 hv.2 ha.1 ha.2 htransient⟩
  · intro v a v' hv ha
    exact ⟨hbase v a v' hv ha, hanswer v a v' hv.1 hv.2 ha.1 ha.2⟩

/-- The same, where it does not matter what is left by an answer that is lost. -/
theorem keeps_send {request : Request} {unreachable : IoError → IoError}
    {P : SharedDrive → Prop} {Q : Reply → KnownTags → SharedDrive → Prop} (hQ : Lasts V Q)
    (hP : ∀ w w', Elsewhere V w w' → P w → P w')
    (hharmless : ∀ w a w', Base V s w → P w → DriveAnswers V tags (.send request) w a w' →
      Timely (.send request) w a w' → Harmless V (.send request) w w')
    (hagain : ∀ w (reply : Reply) w', Base V s w → P w →
      DriveAnswers V tags (.send request) w (.ok reply) w' → Timely (.send request) w (.ok reply) w' →
      reply.transient = true → P w')
    (hreply : ∀ w (reply : Reply) w', Base V s w → P w →
      DriveAnswers V tags (.send request) w (.ok reply) w' → Timely (.send request) w (.ok reply) w' →
      Q reply s w')
    (again : ℕ) (hw : Base V s w) (h : P w) :
    Keeps V tags Q (GraphSink.sendAgain request unreachable again) s w := by
  have hlasts : Lasts V fun (r : Except IoError Reply) s w ↦ ∀ reply, r = .ok reply → Q reply s w :=
    fun r s w w' hothers h reply hr ↦ hQ reply s w w' hothers (h reply hr)
  refine meets_send hlasts hP hharmless hagain (fun v a v' hv hpv ha htimely reply hr ↦ ?_) again hw h
  match a with
  | .ok reply' =>
    obtain rfl := Except.ok.inj hr
    exact hreply v reply' v' hv hpv ha htimely

/-- After a request that may have been lost. -/
theorem keeps_attempt_send {Q : Except IoError α → KnownTags → SharedDrive → Prop} (hQ : Lasts V Q)
    (h : Meets (timelyEnv V tags) (Calm V) (fun r s w ↦ Base V s w ∧ Q r s w) m s w) :
    Keeps V tags Q (Errand.attempt m) s w :=
  meets_attempt (lasting_ends hQ)
    (h.mono fun _ _ _ _ hends ↦ ⟨hends.1, fun _ hr ↦ Except.ok.inj hr ▸ hends.2⟩)

end Rules

theorem Reply.not_success (reply : Reply) (h : reply.transient = true) : reply.success = false := by
  simp only [transient, Bool.or_eq_true, Bool.and_eq_true, decide_eq_true_eq] at h
  simp only [success, Bool.and_eq_false_iff, decide_eq_false_iff_not]
  omega

/-! ## Tags -/

theorem stripPrefix_et (tag : String) (h : tag.toList.head? ≠ some 'e') :
    Text.stripPrefix "et:" tag = none :=
  Text.stripPrefix_of_head (by decide) h

theorem stripPrefix_ct (tag : String) (h : tag.toList.head? ≠ some 'c') :
    Text.stripPrefix "ct:" tag = none :=
  Text.stripPrefix_of_head (by decide) h

/-- A hash is no tag that a write could be bound to. -/
theorem not_carried_of_head {tag raw : String} (he : tag.toList.head? ≠ some 'e')
    (hc : tag.toList.head? ≠ some 'c') : ¬ Carried tag raw := by
  rintro (hraw | hraw)
  · exact absurd ((stripPrefix_et tag he).symm.trans hraw).symm (Option.some_ne_none raw)
  · exact absurd ((stripPrefix_ct tag hc).symm.trans hraw).symm (Option.some_ne_none raw)

/-- A content tag that a write could be bound to is the tag of the content. -/
theorem cTag_of_carried {b : Body} {t raw : String} (ht : contentTag b tags = some t)
    (hraw : Carried t raw) : b.cTag = some raw := by
  match tags with
  | .cTag =>
    obtain ⟨c, hc, rfl⟩ := Option.map_eq_some_iff.mp ht
    rcases hraw with hraw | hraw
    · have hnone := stripPrefix_et ("ct:" ++ c) (by simp)
      exact absurd (hnone.symm.trans hraw).symm (Option.some_ne_none raw)
    · rw [Text.stripPrefix_append] at hraw
      exact Option.some_inj.mp hraw ▸ hc
  | .quickXor | .sha256 | .sha1 =>
    obtain ⟨c, hc, rfl⟩ := Option.map_eq_some_iff.mp ht
    exact absurd hraw (not_carried_of_head (by simp) (by simp))

/-- A content tag of the framework has a tag of the version in it, or a hash. -/
theorem Describes.tagOf {item : DriveItem} {v : ℕ} {t : String} (h : Describes V item v)
    (ht : contentTag item.body tags = some t) : TagOf V v t :=
  fun raw hraw ↦ h.2 raw (cTag_of_carried ht hraw)

theorem Describes.tagOf_eTag {item : DriveItem} {v : ℕ} {raw : String} (h : Describes V item v)
    (hraw : item.eTag = some raw) : TagOf V v ("et:" ++ raw) := by
  rintro t (ht | ht)
  · rw [Text.stripPrefix_append] at ht
    exact Option.some_inj.mp ht ▸ h.1 raw hraw
  · have hnone := stripPrefix_ct ("et:" ++ raw) (by simp)
    exact absurd (hnone.symm.trans ht).symm (Option.some_ne_none t)

/-- What a precondition is made from is a tag that is known. -/
theorem carried_of_precondition {known : KnownTags} {cloudId raw : String}
    (h : precondition tags known cloudId = some raw) :
    ∃ tag, known.lookup cloudId = some tag ∧ Carried tag raw := by
  obtain ⟨tag, htag, h⟩ := Option.bind_eq_some_iff.mp h
  refine ⟨tag, htag, ?_⟩
  split at h
  · rename_i raw' het
    obtain rfl := Option.some_inj.mp h
    exact Or.inl (Option.filter_eq_some_iff.mp het).1
  · split at h
    · exact Or.inr (Option.filter_eq_some_iff.mp h).1
    · cases h

/-- **A write that is bound to a tag that is known is harmless.** -/
theorem Base.own {s : KnownTags} {w : SharedDrive} {key : ObjectKey} {cloudId raw : String} {v : ℕ}
    (h : Base V s w) (hkey : keyOfCloudId cloudId = some key)
    (hraw : precondition tags s cloudId = some raw) (hv : w.version key = some v)
    (hmem : raw ∈ V.tags v) : w.Own key v := by
  obtain ⟨tag, htag, hcarried⟩ := carried_of_precondition hraw
  exact (h.known cloudId tag key htag hkey raw v hcarried hmem).2 hv

theorem TableOk.insert {s : KnownTags} {w : SharedDrive} {cloudId t : String}
    (h : TableOk V w s.lookup)
    (htag : ∀ key, keyOfCloudId cloudId = some key → TagOk V w key t) :
    TableOk V w (s.insert cloudId t).lookup := by
  intro id tag key hlookup hkey
  have hlookup : (s.insert cloudId t).lookup id = some tag := hlookup
  by_cases hid : id = cloudId
  · subst hid
    rw [AList.lookup_insert] at hlookup
    exact Option.some_inj.mp hlookup ▸ htag key hkey
  · rw [AList.lookup_insert_ne hid] at hlookup
    exact h id tag key hlookup hkey

/-- What is remembered of a version that this machine has written. -/
theorem Base.insert {s : KnownTags} {w : SharedDrive} {key : ObjectKey} {t : String} {v : ℕ}
    (h : Base V s w) (hwrote : w.wrote key = some v) (htag : TagOf V v t) :
    Base V (s.insert key.toCloudId t) w := by
  refine ⟨h.calm, h.known.insert fun k hk ↦ ?_⟩
  rw [keyOfCloudId_toCloudId] at hk
  exact Option.some_inj.mp hk ▸ htag.ok (w.written key v hwrote) (Or.inr hwrote)

/-- What the framework has recorded is only taken where nothing is remembered. -/
theorem Base.seed {s : KnownTags} {w : SharedDrive} {cloudId : String} {tag : Option String}
    (h : Base V s w)
    (htag : ∀ t key, tag = some t → keyOfCloudId cloudId = some key → TagOk V w key t) :
    Base V (GraphSink.seed cloudId tag s) w := by
  match tag with
  | none => exact h
  | some t =>
    rw [GraphSink.seed]
    split
    · exact h
    · exact ⟨h.calm, h.known.insert fun k hk ↦ htag t k rfl hk⟩

/-! ## What a write settled on -/

/-- What the service says of the object it names is said of the version written here, and its tag is
still to be read back where it is missing. -/
def Reported (V : Versions) (tags : TagSource) (drive : DriveId) (body : Except String DriveItem)
    (w : SharedDrive) : Prop :=
  ∀ item raw id, body = .ok item → item.id = some raw → Id.parse raw = .ok id →
    (∃ v, w.wrote ⟨drive, id⟩ = some v ∧ Describes V item v)
      ∧ (contentTag item.body tags = none → w.owed = some ⟨drive, id⟩)

section

variable {s : KnownTags} {w w' : SharedDrive} {key : ObjectKey} {drive : DriveId}
  {body : Except String DriveItem} {accepts : Reply → Bool} {reply : Reply}

theorem Reported.elsewhere (h : Reported V tags drive body w) (hothers : Elsewhere V w w') :
    Reported V tags drive body w' := by
  have ⟨hwrote, howed, _⟩ := elsewhere_keeps hothers
  rw [Reported, hwrote, howed]
  exact h

/-- An answer that accepts a write. -/
theorem Told.reported (h : Told V tags accepts drive key (.ok reply) w w')
    (haccepts : accepts reply = true)
    (hwrote : ∀ v, w.version key = some v → w.wrote key = some v) :
    Reported V tags drive reply.item w' := by
  intro item raw id hitem hraw hid
  rcases h with ⟨hsilent, -⟩ | ⟨reply', item', v, hreply, -, hitem', hv, hdescribes, hnames, rfl⟩
  · exact absurd (hsilent reply item rfl hitem) (by rw [haccepts]; decide)
  · obtain rfl := Except.ok.inj hreply
    obtain rfl := Except.ok.inj (hitem.symm.trans hitem')
    obtain rfl := hnames raw id hraw hid
    refine ⟨⟨v, hwrote v hv, hdescribes⟩, fun hnone ↦ ?_⟩
    rw [SharedDrive.owing, if_pos hnone]

end

namespace GraphSink

variable {cfg : SinkConfig} {s : KnownTags} {w : SharedDrive} {key : ObjectKey} {drive : DriveId}

/-- What is known of a version whose tag has been read: unless another device writes no other is
there, and where the tag was owed, it is the version written here. -/
structure IsRead (owing : Prop) (key : ObjectKey) (v : ℕ) (w : SharedDrive) : Prop where
  at' : w.At key v
  wrote : owing → w.wrote key = some v

theorem IsRead.elsewhere {owing : Prop} {v : ℕ} {w' : SharedDrive} (h : IsRead owing key v w)
    (hothers : Elsewhere V w w') : IsRead owing key v w' :=
  ⟨h.at'.elsewhere hothers, fun ho ↦ (elsewhere_keeps hothers).1 ▸ h.wrote ho⟩

/-- What has been read of an object. -/
def ReadTag (V : Versions) (owing : Prop) (key : ObjectKey) (r : Option String) (w : SharedDrive) :
    Prop :=
  ∀ t, r = some t → ∃ v, TagOf V v t ∧ IsRead owing key v w

/-- **The tag that is read** is that of a version. -/
theorem keeps_readTag {owing : Prop} (hw : Base V s w) (howed : owing → w.owed = some key) :
    Keeps V cfg.tags
      (fun r s' w' ↦ (s' = s ∧ w'.sessions = w.sessions) ∧ ReadTag V owing key r w')
      (readTag cfg key) s w := by
  have hlasts : Lasts V fun (r : Option String) s' w' ↦
      (s' = s ∧ w'.sessions = w.sessions) ∧ ReadTag V owing key r w' := by
    rintro r s' v v' hothers ⟨⟨hs, hsessions⟩, h⟩
    refine ⟨⟨hs, (elsewhere_keeps hothers).2.2.1.trans hsessions⟩, fun t ht ↦ ?_⟩
    obtain ⟨n, hof, hread⟩ := h t ht
    exact ⟨n, hof, hread.elsewhere hothers⟩
  have hread : Keeps V cfg.tags (fun reply s' w' ↦ (s' = s ∧ w'.sessions = w.sessions) ∧
      ∀ item, reply.success = true → reply.item = .ok item →
        ∃ v, Describes V item v ∧ IsRead owing key v w') (call (.metadata key)) s w := by
    refine keeps_send (P := fun w' ↦ w'.sessions = w.sessions ∧ (owing → w'.owed = some key))
      ?_ ?_ ?_ ?_ ?_ _ hw ⟨rfl, howed⟩
    · rintro reply s' v v' hothers ⟨⟨hs, hsessions⟩, h⟩
      refine ⟨⟨hs, (elsewhere_keeps hothers).2.2.1.trans hsessions⟩, fun item hsuccess hitem ↦ ?_⟩
      obtain ⟨n, hdescribes, hread⟩ := h item hsuccess hitem
      exact ⟨n, hdescribes, hread.elsewhere hothers⟩
    · rintro v v' hothers ⟨hsessions, h⟩
      have ⟨_, howed, hkept, _⟩ := elsewhere_keeps hothers
      exact ⟨hkept.trans hsessions, howed ▸ h⟩
    · exact fun _ _ _ _ _ _ _ ↦ trivial
    · rintro v reply v' - h (⟨-, rfl⟩ | ⟨reply', -, -, hreply, hsuccess, -⟩) - htransient
      · exact h
      · obtain rfl := Except.ok.inj hreply
        exact absurd hsuccess (by rw [Reply.not_success _ htransient]; decide)
    · rintro u reply u' hu ⟨hsessions, h⟩
        (⟨hsilent, rfl⟩ | ⟨reply', item', n, hreply, -, hitem', hn, hdesc, rfl⟩) htimely
      · exact ⟨⟨rfl, hsessions⟩, fun item hsuccess hitem ↦ absurd (hsilent reply item rfl hitem)
          (by rw [hsuccess]; decide)⟩
      · obtain rfl := Except.ok.inj hreply
        refine ⟨⟨rfl, hsessions⟩, fun item _ hitem ↦ ⟨n, ?_, fun _ v' hv' ↦ ?_, fun ho ↦ ?_⟩⟩
        · exact Except.ok.inj (hitem'.symm.trans hitem) ▸ hdesc
        · exact (Option.some_inj.mp (hn.symm.trans hv')).symm
        · exact hu.calm.owed key (h ho) (htimely (h ho)) n hn
  refine keeps_bind hlasts hread fun reply s' v hv ⟨hkept, hitem⟩ ↦ ?_
  split
  · exact keeps_throw hlasts hv
  · rename_i hsuccess
    have hsuccess : reply.success = true := by simpa using hsuccess
    refine keeps_decode hlasts hv fun item hbody ↦ ?_
    obtain ⟨n, hdescribes, hread⟩ := hitem item hsuccess hbody
    exact keeps_pure hlasts hv ⟨hkept, fun t ht ↦ ⟨n, hdescribes.tagOf ht, hread⟩⟩

/-- What is recorded of a write. -/
def NamesOwn (V : Versions) (u : Uploaded) (_ : KnownTags) (w : SharedDrive) : Prop := Names V w u

theorem lasts_namesOwn : Lasts V (NamesOwn V) := fun _ _ _ _ hothers h ↦ Names.elsewhere h hothers

/-- What is returned, and remembered. -/
theorem keeps_remember {t : String} {v : ℕ} (hw : Base V s w) (hwrote : w.wrote key = some v)
    (htag : TagOf V v t) :
    Keeps V tags (NamesOwn V) (do
      Errand.modify (AList.insert key.toCloudId t)
      pure ⟨key.toCloudId, some t⟩ : GraphSink Uploaded) s w := by
  refine meets_modify (keeps_pure lasts_namesOwn (hw.insert hwrote htag) fun t' ht' ↦ ?_)
  obtain rfl := Option.some_inj.mp ht'
  exact ⟨key, v, keyOfCloudId_toCloudId key, hwrote, htag⟩

/-- **A write settles on the tag of the version it has written.** -/
theorem keeps_settle {body : Except String DriveItem} (hw : Base V s w)
    (hreported : Reported V cfg.tags drive body w) :
    Keeps V cfg.tags (NamesOwn V) (settle cfg drive body) s w := by
  refine keeps_decode lasts_namesOwn hw fun item hbody ↦ ?_
  split
  · exact keeps_throw lasts_namesOwn hw
  · rename_i raw hraw
    split
    · exact keeps_throw lasts_namesOwn hw
    · rename_i id hid
      obtain ⟨⟨v, hwrote, hdescribes⟩, howed⟩ := hreported item raw id hbody hraw hid
      split
      · rename_i t ht
        exact keeps_remember hw hwrote (hdescribes.tagOf ht)
      · rename_i hnone
        have howing : True → w.owed = some ⟨drive, id⟩ := fun _ ↦ howed hnone
        refine keeps_bind lasts_namesOwn (keeps_readTag hw howing) fun tag s w hw htag ↦ ?_
        match tag with
        | some t =>
          obtain ⟨v, hof, hread⟩ := htag.2 t rfl
          exact keeps_remember hw (hread.wrote trivial) hof
        | none =>
          exact keeps_pure lasts_namesOwn hw fun t ht ↦ absurd ht.symm (Option.some_ne_none t)

theorem keeps_settleFolder {body : Except String DriveItem} (hw : Base V s w)
    (hreported : Reported V tags drive body w) :
    Keeps V tags (NamesOwn V) (settleFolder drive body) s w := by
  refine keeps_decode lasts_namesOwn hw fun item hbody ↦ ?_
  split
  · exact keeps_throw lasts_namesOwn hw
  · split
    · exact keeps_throw lasts_namesOwn hw
    · rename_i raw hraw
      split
      · exact keeps_throw lasts_namesOwn hw
      · rename_i id hid
        obtain ⟨⟨v, hwrote, hdescribes⟩, -⟩ := hreported item raw id hbody hraw hid
        dsimp only
        split
        · exact keeps_throw lasts_namesOwn hw
        · rename_i rawTag htag
          exact keeps_remember hw hwrote
            (hdescribes.tagOf_eTag (Option.filter_eq_some_iff.mp htag).1)

end GraphSink

end HydrationAPI.Graph
