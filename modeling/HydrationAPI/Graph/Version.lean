import HydrationAPI.Graph.Access

/-!
# Which version the provider passes on

The service holds one version of an object at a time, and answers a request with the one it holds
then. A placeholder names a version by its tag. What an object that is wanted whole is held against
is enough to tell its version; a part of an object is held against nothing, so that what is passed
on is the version the tag names where the service has answered with that one.
-/

namespace HydrationAPI.Graph

/-- The service: the version of an object that is current at a time, its content, and what the
service says about it. -/
structure Service (V : Type*) where
  version : ObjectKey → ℕ → V
  content : V → List UInt8
  body : V → Body

namespace Service

variable {V : Type*}

/-- The tag is one the service has for the version. -/
def Names (S : Service V) (tag : String) (v : V) : Prop :=
  ∃ source, contentTag (S.body v) source = some tag

/-- Content tags identify versions: no two versions share a cTag, a version that has been replaced
does not come back, and the hash of a version is the hash of its content. -/
structure Identifies (S : Service V) : Prop where
  cTag : ∀ v w t, (S.body v).cTag = some t → (S.body w).cTag = some t → v = w
  replaced : ∀ key s t r, s ≤ t → t ≤ r → S.version key s = S.version key r →
    S.version key t = S.version key s
  hash : ∀ v h, (S.body v).hashes.bind Hashes.quickXorHash = some h → h = quickxorOf (S.content v)

/-- The answer comes from the version that was current when it was made. -/
def Answers (S : Service V) (s : Served) : Prop :=
  s.taken.response.body
    <+: (S.content (S.version s.key s.taken.response.time)).drop s.taken.start

instance (S : Service V) (s : Served) : Decidable (S.Answers s) :=
  inferInstanceAs (Decidable (_ <+: _))

/-- The metadata is that of the version that was current when it was read. -/
def Describes (S : Service V) (key : ObjectKey) (reply : Except IoError MetadataReply) : Prop :=
  ∀ m item, reply = .ok m → m.item = some item → item.body = S.body (S.version key m.time)

/-- What has not been held against a tag comes from the version `tagged` names. -/
def Current (S : Service V) (tagged : ObjectKey → V) (s : Served) : Prop :=
  s.checked = false → S.version s.key s.taken.response.time = tagged s.key

end Service

variable {V : Type*} {S : Service V} {tagged : ObjectKey → V}

/-! ## Windows of read-ahead -/

/-- The windows in the ledger are windows of the versions the tags name. -/
def Prefetcher.Sound (S : Service V) (tagged : ObjectKey → V) (p : Prefetcher) : Prop :=
  ∀ k bytes, (k, Except.ok bytes) ∈ p.done → ∀ key, CloudId.parse k.1 = .ok key →
    IsSlice (S.content (tagged key)) ⟨k.2.1, k.2.2⟩ bytes

namespace Prefetcher

theorem sound_new : new.Sound S tagged := fun _ _ h ↦ by cases h

theorem Sound.mono {p q : Prefetcher} (h : p.Sound S tagged) (hsub : ∀ e ∈ q.done, e ∈ p.done) :
    q.Sound S tagged := fun k bytes hmem ↦ h k bytes (hsub _ hmem)

/-- A window that is fetched is one of the version the tag names. -/
theorem fetchWindow_ok {l : ContentLocations} {job : Job} {tries : ℕ → Try} {bytes : List UInt8}
    (h : (fetchWindow l job tries).1 = .ok bytes)
    (hans : ∀ s ∈ (fetchWindow l job tries).2.1, S.Answers s)
    (hcur : ∀ s ∈ (fetchWindow l job tries).2.1, S.Current tagged s)
    {key : ObjectKey} (hkey : CloudId.parse job.1 = .ok key) :
    IsSlice (S.content (tagged key)) job.2.1 bytes := by
  rw [fetchWindow, hkey] at h hans hcur
  dsimp only at h hans hcur
  cases hres : (downloadSpan .memory l key job.2.1 job.2.2 tries).result with
  | error e => simp [hres, Except.map] at h
  | ok _ =>
    rw [hres, Except.map, Except.ok.injEq] at h
    rw [← h]
    refine downloadSpan_ok hres fun s hs ↦ ?_
    have hmem := List.mem_map_of_mem (f := Served.mk key false) hs
    have hversion := hcur _ hmem rfl
    dsimp only at hversion
    rw [← hversion]
    exact hans _ hmem

theorem Sound.work {p : Prefetcher} (h : p.Sound S tagged) {w : Work}
    (hans : ∀ s ∈ (p.work w).2, S.Answers s) (hcur : ∀ s ∈ (p.work w).2, S.Current tagged s) :
    (p.work w).1.Sound S tagged := by
  rw [Prefetcher.work] at hans hcur ⊢
  cases hjob : p.jobs[w.job]? with
  | none => exact h
  | some job =>
    rw [hjob] at hans hcur
    dsimp only at hans hcur ⊢
    have hfetch : ∀ bytes, (fetchWindow (p.workers w.worker) job w.tries).1 = .ok bytes → _ :=
      fun bytes hb ↦ @fetchWindow_ok _ S tagged (p.workers w.worker) _ _ _ hb
    generalize fetchWindow (p.workers w.worker) job w.tries = r at hans hcur hfetch
    obtain ⟨res, served, l⟩ := r
    dsimp only at hans hcur hfetch ⊢
    split
    · rename_i hin
      rw [if_pos hin] at hans hcur
      intro k bytes hmem key hkey
      rcases List.mem_cons.mp hmem with heq | hmem
      · rw [Prod.mk.injEq] at heq
        obtain ⟨rfl, heq⟩ := heq
        exact hfetch bytes heq.symm hans hcur hkey
      · exact h k bytes (List.mem_of_mem_filter hmem) key hkey
    · exact h.mono fun e he ↦ he

theorem Sound.await {k : WindowKey} {ws : List Work} :
    ∀ {p : Prefetcher}, p.Sound S tagged →
      (∀ s ∈ (await k p ws).2.2, S.Answers s) → (∀ s ∈ (await k p ws).2.2, S.Current tagged s) →
      (await k p ws).2.1.Sound S tagged
        ∧ ∀ bytes, (await k p ws).1 = some bytes → ∀ key, CloudId.parse k.1 = .ok key →
          IsSlice (S.content (tagged key)) ⟨k.2.1, k.2.2⟩ bytes := by
  -- a window that is found is in the ledger, and one that is not is waited for
  have hfound : ∀ {p : Prefetcher} {b : Except IoError (List UInt8)}, p.Sound S tagged →
      p.done.lookup k = some b →
      { p with done := p.done.filter (·.1 ≠ k) }.Sound S tagged
        ∧ ∀ bytes, b.toOption = some bytes → ∀ key, CloudId.parse k.1 = .ok key →
          IsSlice (S.content (tagged key)) ⟨k.2.1, k.2.2⟩ bytes := by
    intro p b h hlook
    refine ⟨h.mono fun e he ↦ List.mem_of_mem_filter he, fun bytes hb key hkey ↦ ?_⟩
    cases b with
    | error e => cases hb
    | ok _ =>
      cases hb
      obtain ⟨before, after, hdone, -⟩ := List.lookup_eq_some_iff.mp hlook
      exact h k bytes (by rw [hdone]; simp) key hkey
  induction ws with
  | nil =>
    intro p h hans hcur
    unfold Prefetcher.await at hans hcur ⊢
    cases hlook : p.done.lookup k with
    | some b => exact hfound h hlook
    | none =>
      dsimp only
      split <;> exact ⟨h, by rintro bytes ⟨⟩⟩
  | cons w ws ih =>
    intro p h hans hcur
    unfold Prefetcher.await at hans hcur ⊢
    cases hlook : p.done.lookup k with
    | some b => exact hfound h hlook
    | none =>
      rw [hlook] at hans hcur
      dsimp only at hans hcur ⊢
      split
      · exact ⟨h, by rintro bytes ⟨⟩⟩
      · rename_i hin
        rw [if_neg hin] at hans hcur
        dsimp only at hans hcur
        have hwork : (p.work w).1.Sound S tagged :=
          h.work (fun s hs ↦ hans s (List.mem_append_left _ hs))
            fun s hs ↦ hcur s (List.mem_append_left _ hs)
        exact ih hwork (fun s hs ↦ hans s (List.mem_append_right _ hs))
          fun s hs ↦ hcur s (List.mem_append_right _ hs)

theorem Sound.take {p : Prefetcher} (h : p.Sound S tagged) {cloudId : String} {span : Span}
    {ws : List Work} (hans : ∀ s ∈ (p.take cloudId span ws).2.2, S.Answers s)
    (hcur : ∀ s ∈ (p.take cloudId span ws).2.2, S.Current tagged s) :
    (p.take cloudId span ws).2.1.Sound S tagged
      ∧ ∀ bytes, (p.take cloudId span ws).1 = some bytes →
        ∀ key, CloudId.parse cloudId = .ok key → IsSlice (S.content (tagged key)) span bytes :=
  Sound.await (h.mono fun _ he ↦ List.mem_of_mem_filter he) hans hcur

theorem hint_done (p : Prefetcher) (cloudId : String) (span : Span) (total : ℕ) :
    (p.hint cloudId span total).done = p.done := by
  rw [hint]
  split
  · rfl
  · split
    · rfl
    · split <;> rfl

theorem hintAhead_done (cloudId : String) (size : ℕ) :
    ∀ (n : ℕ) (p : Prefetcher) (next : Option Span),
      (hintAhead cloudId size n p next).done = p.done := by
  intro n
  induction n with
  | zero => exact fun _ _ ↦ rfl
  | succ n ih =>
    intro p next
    cases next with
    | none => rfl
    | some next => exact (ih _ _).trans (hint_done p cloudId next size)

end Prefetcher

/-! ## Tags -/

theorem hash_of_names {v : V} {tag expected : String} (h : S.Names tag v)
    (htag : Text.stripPrefix "qx:" tag = some expected) :
    (S.body v).hashes.bind Hashes.quickXorHash = some expected := by
  obtain ⟨source, hsource⟩ := h
  cases source with
  | quickXor =>
    obtain ⟨hash, hhash, rfl⟩ := Option.map_eq_some_iff.mp hsource
    rw [Text.stripPrefix_append, Option.some_inj] at htag
    rw [hhash, htag]
  | cTag =>
    obtain ⟨t, -, rfl⟩ := Option.map_eq_some_iff.mp hsource
    simp [Text.stripPrefix] at htag
  | sha256 =>
    obtain ⟨t, -, rfl⟩ := Option.map_eq_some_iff.mp hsource
    simp [Text.stripPrefix] at htag
  | sha1 =>
    obtain ⟨t, -, rfl⟩ := Option.map_eq_some_iff.mp hsource
    simp [Text.stripPrefix] at htag

theorem cTag_of_names {v : V} {tag : String} (h : S.Names tag v)
    (htag : (Text.stripPrefix "ct:" tag).isSome) : contentTag (S.body v) .cTag = some tag := by
  obtain ⟨source, hsource⟩ := h
  cases source with
  | cTag => exact hsource
  | quickXor =>
    obtain ⟨t, -, rfl⟩ := Option.map_eq_some_iff.mp hsource
    simp [Text.stripPrefix] at htag
  | sha256 =>
    obtain ⟨t, -, rfl⟩ := Option.map_eq_some_iff.mp hsource
    simp [Text.stripPrefix] at htag
  | sha1 =>
    obtain ⟨t, -, rfl⟩ := Option.map_eq_some_iff.mp hsource
    simp [Text.stripPrefix] at htag

/-- **A metadata read that is accepted** was made while the version the tag names was current, and
tells the hash of that version. -/
theorem quickxorFor_ok {key : ObjectKey} {tag : String} {v : V} {hash : Option String}
    {reply : Except IoError MetadataReply} (hid : S.Identifies) (hdesc : S.Describes key reply)
    (hv : contentTag (S.body v) .cTag = some tag) (h : quickxorFor tag reply = .ok hash) :
    ∃ m, reply = .ok m ∧ S.version key m.time = v
      ∧ (S.body v).hashes.bind Hashes.quickXorHash = hash := by
  cases reply with
  | error e => cases h
  | ok m =>
    rw [quickxorFor] at h
    split at h
    · cases h
    · cases hitem : m.item with
      | none => simp [hitem] at h
      | some item =>
        rw [hitem] at h
        dsimp only at h
        rw [quickxorForVersion, hdesc m item rfl hitem] at h
        cases hcur : contentTag (S.body (S.version key m.time)) .cTag with
        | none => simp [hcur] at h
        | some current =>
          simp only [hcur] at h
          split at h
          · cases h
          · rename_i hsame
            rw [not_not.mp hsame] at hcur
            obtain ⟨t, ht, rfl⟩ := Option.map_eq_some_iff.mp hv
            obtain ⟨u, hu, heq⟩ := Option.map_eq_some_iff.mp hcur
            have htu : u = t := by simpa using heq
            have hversion := hid.cTag _ _ t (htu ▸ hu) ht
            rw [hversion] at h
            exact ⟨m, rfl, hversion, Except.ok.inj h⟩

theorem verify_ok {taken : List (List UInt8)} {expected : String}
    (h : verify taken expected = .ok ()) : quickxorOf taken.flatten = expected := by
  rw [verify, QuickXorWriter.foldl_write] at h
  split at h
  · assumption
  · cases h

/-! ## Serving a span -/

/-- What a span of an object is served under: the service answers with what it holds at the time,
one request after the other, and the hash of the version `tagged` names tells its content from
what was passed on. -/
structure FetchCalls.Faithful (S : Service V) (tagged : ObjectKey → V) (key : ObjectKey)
    (span : Span) (size : ℕ) (c : FetchCalls) (f : Fetched) : Prop where
  answers : ∀ s ∈ f.served, S.Answers s
  opening : S.Describes key c.opening
  closing : S.Describes key c.closing
  after : ∀ m, c.opening = .ok m → ∀ s ∈ f.served, s.checked = true → m.time ≤ s.taken.response.time
  before : ∀ m, c.closing = .ok m → ∀ s ∈ f.served, s.checked = true → s.taken.response.time ≤ m.time
  hash : span.isWhole size = true → quickxorOf f.taken.flatten = quickxorOf (S.content (tagged key)) →
      f.taken.flatten = S.content (tagged key)

namespace GraphProvider

variable {p : GraphProvider} {key : ObjectKey} {span : Span} {size : ℕ} {c : FetchCalls}

theorem download_ok {checked : Bool} {check : List (List UInt8) → Except IoError Unit}
    (h : (p.download key span size checked c check).result = .ok ()) :
    (downloadSpan .wire p.locations key span size c.tries).result = .ok ()
      ∧ check (p.download key span size checked c check).taken = .ok () := by
  rw [download] at h ⊢
  obtain ⟨_, hres, hcheck⟩ := Checks.bind_eq_ok_iff.mp h
  exact ⟨hres, hcheck⟩

/-- A download that ends well passes on the version every answer came from. -/
theorem download_slice {checked : Bool} {check : List (List UInt8) → Except IoError Unit} {v : V}
    (h : (p.download key span size checked c check).result = .ok ())
    (hans : ∀ s ∈ (p.download key span size checked c check).served, S.Answers s)
    (hv : ∀ s ∈ (p.download key span size checked c check).served,
      S.version s.key s.taken.response.time = v) :
    IsSlice (S.content v) span (p.download key span size checked c check).taken.flatten := by
  refine downloadSpan_ok (download_ok h).1 fun s hs ↦ ?_
  have hmem := List.mem_map_of_mem (f := Served.mk key checked) hs
  have hanswer := hans _ hmem
  rw [Service.Answers, hv _ hmem] at hanswer
  exact hanswer

/-- Passing a span on as it comes passes on the version the service has answered with. -/
theorem inline_slice (h : (p.inline key span size c).result = .ok ())
    (hans : ∀ s ∈ (p.inline key span size c).served, S.Answers s)
    (hcur : ∀ s ∈ (p.inline key span size c).served, S.Current tagged s) :
    IsSlice (S.content (tagged key)) span (p.inline key span size c).taken.flatten := by
  refine download_slice h hans fun s hs ↦ ?_
  obtain ⟨t, -, rfl⟩ := List.mem_map.mp hs
  exact hcur _ hs rfl

/-- Bytes that are the whole of the content are the whole span of it. -/
theorem slice_of_eq {c bytes : List UInt8} (hwhole : span.isWhole size = true)
    (hlen : bytes.length = span.len) (h : bytes = c) : IsSlice c span bytes := by
  have hoff : span.offset = 0 := by
    rw [Span.isWhole, Bool.and_eq_true, beq_iff_eq] at hwhole
    exact hwhole.1
  refine ⟨hlen, ?_⟩
  rw [hoff, List.drop_zero, h]

/-- A whole object that is held against its hash is the content of that version. -/
theorem verified_content {expected : String} (hid : S.Identifies)
    (hwhole : span.isWhole size = true)
    (hhash : (S.body (tagged key)).hashes.bind Hashes.quickXorHash = some expected)
    (h : (p.download key span size true c fun taken ↦ verify taken expected).result = .ok ())
    (hfaith : c.Faithful S tagged key span size
      (p.download key span size true c fun taken ↦ verify taken expected)) :
    (p.download key span size true c fun taken ↦ verify taken expected).taken.flatten
      = S.content (tagged key) := by
  refine hfaith.hash hwhole ?_
  rw [verify_ok (download_ok h).2, hid.hash _ _ hhash]

theorem verified_slice {expected : String} (hid : S.Identifies)
    (hwhole : span.isWhole size = true)
    (hhash : (S.body (tagged key)).hashes.bind Hashes.quickXorHash = some expected)
    (h : (p.download key span size true c fun taken ↦ verify taken expected).result = .ok ())
    (hfaith : c.Faithful S tagged key span size
      (p.download key span size true c fun taken ↦ verify taken expected)) :
    IsSlice (S.content (tagged key)) span
      (p.download key span size true c fun taken ↦ verify taken expected).taken.flatten :=
  slice_of_eq hwhole (downloadSpan_length (download_ok h).1)
    (verified_content hid hwhole hhash h hfaith)

/-- A whole object whose version is read on both sides of the download is the span of that
version. -/
theorem bracketed_slice {tag : String} {v : V} {hash : Option String} (hid : S.Identifies)
    (hv : contentTag (S.body v) .cTag = some tag) (hopen : quickxorFor tag c.opening = .ok hash)
    (h : (p.download key span size true c fun _ ↦
      (quickxorFor tag c.closing).map fun _ ↦ ()).result = .ok ())
    (hfaith : c.Faithful S tagged key span size
      (p.download key span size true c fun _ ↦ (quickxorFor tag c.closing).map fun _ ↦ ())) :
    IsSlice (S.content v) span (p.download key span size true c fun _ ↦
      (quickxorFor tag c.closing).map fun _ ↦ ()).taken.flatten := by
  refine download_slice h hfaith.answers fun s hs ↦ ?_
  obtain ⟨m, hm, hversion, -⟩ := quickxorFor_ok hid hfaith.opening hv hopen
  cases hclose : quickxorFor tag c.closing with
  | error e =>
    have hcheck := (download_ok h).2
    rw [hclose] at hcheck
    cases hcheck
  | ok hash =>
    obtain ⟨m', hm', hversion', -⟩ := quickxorFor_ok hid hfaith.closing hv hclose
    have hafter := hfaith.after m hm s hs
    have hbefore := hfaith.before m' hm' s hs
    obtain ⟨t, -, rfl⟩ := List.mem_map.mp hs
    -- the answer was made between two reads that found the same version
    have hbetween := hid.replaced key m.time t.response.time m'.time (hafter rfl) (hbefore rfl)
      (hversion.trans hversion'.symm)
    exact hbetween.trans hversion

theorem ranged_slice {cloudId : String} (hp : p.prefetch.Sound S tagged)
    (hkey : CloudId.parse cloudId = .ok key)
    (hans : ∀ s ∈ (p.ranged cloudId key span size c).served, S.Answers s)
    (hcur : ∀ s ∈ (p.ranged cloudId key span size c).served, S.Current tagged s) :
    (p.ranged cloudId key span size c).provider.prefetch.Sound S tagged
      ∧ ((p.ranged cloudId key span size c).result = .ok () →
        IsSlice (S.content (tagged key)) span
          (p.ranged cloudId key span size c).taken.flatten) := by
  rw [ranged] at hans hcur ⊢
  dsimp only at hans hcur ⊢
  split
  · rename_i hseq
    rw [if_pos hseq] at hans hcur
    exact ⟨hp, fun h ↦ inline_slice h hans hcur⟩
  · rename_i hseq
    rw [if_neg hseq] at hans hcur
    have htake : (∀ s ∈ (p.prefetch.take cloudId span c.works).2.2, S.Answers s) →
        (∀ s ∈ (p.prefetch.take cloudId span c.works).2.2, S.Current tagged s) → _ :=
      fun h1 h2 ↦ hp.take h1 h2
    generalize p.prefetch.take cloudId span c.works = t at hans hcur htake
    obtain ⟨window, q, served⟩ := t
    have hahead : q.Sound S tagged →
        (Prefetcher.hintAhead cloudId size prefetchDepth q (nextWindow span size)).Sound S tagged :=
      fun hq ↦ hq.mono fun e he ↦ by rwa [Prefetcher.hintAhead_done] at he
    cases window with
    | some bytes =>
      dsimp only at hans hcur htake ⊢
      cases hrefused : c.refused with
      | none =>
        rw [hrefused] at hans hcur
        obtain ⟨hq, hbytes⟩ := htake hans hcur
        refine ⟨hahead hq, fun _ ↦ ?_⟩
        rw [List.flatten_singleton]
        exact hbytes bytes rfl key hkey
      | some e =>
        rw [hrefused] at hans hcur
        exact ⟨hahead (htake hans hcur).1, by rintro ⟨⟩⟩
    | none =>
      dsimp only at hans hcur htake ⊢
      have hq := (htake (fun s hs ↦ hans s (List.mem_append_left _ hs))
        fun s hs ↦ hcur s (List.mem_append_left _ hs)).1
      refine ⟨hahead hq, fun h ↦ inline_slice h (fun s hs ↦ ?_) fun s hs ↦ ?_⟩
      · exact hans s (List.mem_append_right _ hs)
      · exact hcur s (List.mem_append_right _ hs)

/-- **What is passed on is the version the tag names**, where what is not held against the tag has
come from that version; and the ledger stays one of such windows. -/
theorem fetch_slice {cloudId : String} {tag : Option String} (hid : S.Identifies)
    (hp : p.prefetch.Sound S tagged) (hkey : CloudId.parse cloudId = .ok key)
    (htag : ∀ t, tag = some t → S.Names t (tagged key))
    (hfaith : c.Faithful S tagged key span size (p.fetch cloudId size tag span c))
    (hcur : ∀ s ∈ (p.fetch cloudId size tag span c).served, S.Current tagged s) :
    (p.fetch cloudId size tag span c).provider.prefetch.Sound S tagged
      ∧ ((p.fetch cloudId size tag span c).result = .ok () →
        IsSlice (S.content (tagged key)) span
          (p.fetch cloudId size tag span c).taken.flatten) := by
  rw [fetch, hkey] at hfaith hcur ⊢
  dsimp only at hfaith hcur ⊢
  by_cases hwhole : span.isWhole size = true
  · rw [if_pos hwhole] at hfaith hcur ⊢
    cases tag with
    | none => exact ⟨hp, fun h ↦ inline_slice h hfaith.answers hcur⟩
    | some tag =>
      have hnames := htag tag rfl
      dsimp only at hfaith hcur ⊢
      cases hqx : Text.stripPrefix "qx:" tag with
      | some expected =>
        rw [hqx] at hfaith hcur
        exact ⟨hp, fun h ↦ verified_slice hid hwhole (hash_of_names hnames hqx) h hfaith⟩
      | none =>
        rw [hqx] at hfaith hcur
        dsimp only at hfaith hcur ⊢
        by_cases hct : (Text.stripPrefix "ct:" tag).isSome = true
        · rw [if_pos hct] at hfaith hcur ⊢
          cases hopen : quickxorFor tag c.opening with
          | error e => exact ⟨hp, by rintro ⟨⟩⟩
          | ok hash =>
            rw [hopen] at hfaith hcur
            have hv := cTag_of_names hnames hct
            obtain ⟨-, -, -, hhash⟩ := quickxorFor_ok hid hfaith.opening hv hopen
            cases hash with
            | some expected => exact ⟨hp, fun h ↦ verified_slice hid hwhole hhash h hfaith⟩
            | none => exact ⟨hp, fun h ↦ bracketed_slice hid hv hopen h hfaith⟩
        · rw [if_neg hct] at hfaith hcur ⊢
          exact ⟨hp, fun h ↦ inline_slice h hfaith.answers hcur⟩
  · rw [if_neg hwhole] at hfaith hcur ⊢
    exact ranged_slice hp hkey hfaith.answers hcur

end GraphProvider

end HydrationAPI.Graph
