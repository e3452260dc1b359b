import HydrationAPI.Client.Daemon
import HydrationAPI.Helper.Guarantees

/-!
# A mount that is filled from the service

The worker, the daemon behind its socket and the service behind the daemon, over time. A
placeholder is filled by as many events as it takes, each by requests of its own, and the object
can change between any two of them. Which version is current when a request is answered is a
function of the object and the time; a request is answered at any time.

Which requests a provider has served before is not asked: a connection is answered by any provider
that could have come about by serving this mount.
-/

namespace HydrationAPI.Client

open HydrationAPI.Graph Worker

variable {V : Type*}

/-- The service, the version each object's placeholder was installed for, and what a walk of the
directory finds. -/
structure Mount (V : Type*) where
  service : Service V
  tagged : ObjectKey → V
  store : FileId → Option Entry

namespace Mount

/-- The file is the placeholder of the object. -/
structure Holds (M : Mount V) (id : FileId) (e : Entry) (cloudId : String) (key : ObjectKey) :
    Prop where
  entry : M.store id = some e
  named : e.cloudId = some cloudId
  parsed : CloudId.parse cloudId = .ok key

/-- Content tags identify versions, and the tag on record for a placeholder is one of the version
it was installed for. -/
structure Lawful (M : Mount V) : Prop where
  identifies : M.service.Identifies
  names : ∀ id e cloudId key, M.Holds id e cloudId key → ∀ tag, e.etag = some tag →
    M.service.Names tag (M.tagged key)

/-- The service behaves while a span of a placeholder is served, and `P` holds of every answer
that is passed on. -/
structure Behaves (M : Mount V) (P : Served → Prop) (p : GraphProvider) (e : Entry)
    (cloudId : String) (key : ObjectKey) (span : Span) (c : FetchCalls) : Prop where
  faithful : c.Faithful M.service M.tagged key span e.size (p.fetch cloudId e.size e.etag span c)
  answers : ∀ s ∈ (p.fetch cloudId e.size e.etag span c).served, P s

/-- The providers that can come about: by what their workers carry out, and by serving spans. -/
inductive Provides (M : Mount V) (P : Served → Prop) : GraphProvider → Prop
  | new : M.Provides P .new
  | work {p : GraphProvider} (w : Work) : M.Provides P p →
      (∀ s ∈ (p.prefetch.work w).2, M.service.Answers s) → (∀ s ∈ (p.prefetch.work w).2, P s) →
      M.Provides P { p with prefetch := (p.prefetch.work w).1 }
  | fetch {p : GraphProvider} {id : FileId} {e : Entry} {cloudId : String} {key : ObjectKey}
      (span : Span) (c : FetchCalls) : M.Provides P p → M.Holds id e cloudId key →
      M.Behaves P p e cloudId key span c →
      M.Provides P (p.fetch cloudId e.size e.etag span c).provider

/-- What arrives on a connection on which the span is asked for: the lines of a daemon that has
looked the file up, and whose provider has passed the span on. -/
def Answered (M : Mount V) (P : Served → Prop) (id : FileId) (span : Span) (request : ℕ)
    (conn : Connection Bytes) : Prop :=
  ∃ p c index walk, M.Provides P p
    ∧ (∀ e, resolveOrRescan index walk id = some e → M.store id = some e
      ∧ ∀ cloudId key, M.Holds id e cloudId key → M.Behaves P p e cloudId key span c)
    ∧ Carries conn span (serve (resolveOrRescan index walk id) p ⟨request, id, span⟩ c).1

/-- The transfers of an attempt go over a socket with the daemon of the mount at its end. -/
def Supplies (M : Mount V) (P : Served → Prop) (id : FileId) (size : ℕ) (a : Attempt Bytes) :
    Prop :=
  ∀ span, span.Within size → ∃ f : SocketFetch Bytes, a.deliver id size span = f.deliver id size span
    ∧ M.Answered P id span f.nextId f.first ∧ M.Answered P id span (f.nextId + 1) f.second

/-- So do all the transfers of an event. -/
structure Serves (M : Mount V) (P : Served → Prop) (w : World Bytes) (id : FileId)
    (c : Calls Bytes) : Prop where
  attempt : ∀ k, M.Supplies P id (w.disk id).size (c.attempt k)
  retry : M.Supplies P id (w.disk id).size c.retry

/-- The worlds a worker over this mount can get to: events are served, and transfers that were
given up on go on writing. -/
inductive Run (M : Mount V) (P : Served → Prop) : World Bytes → Prop
  | start (disk : FileId → File Bytes) (policy : Policy) : M.Run P (World.start disk policy)
  | event {w : World Bytes} (id : FileId) (range : Option (ℕ × ℕ)) (c : Calls Bytes) :
      M.Run P w → M.Serves P w id c → M.Run P (decideAndFill w id range c).2
  | ghost {w : World Bytes} : M.Run P w → M.Run P (w.carry 1)

/-- A byte that is the one the version of the object has there, whatever object the file is a
placeholder of. -/
def Byte (M : Mount V) : Source Bytes := fun id x v ↦
  ∀ e cloudId key, M.Holds id e cloudId key → (M.service.content (M.tagged key))[x]? = some (v x)

/-- Everything in the file is the version of the object its placeholder was installed for. -/
structure Filled (M : Mount V) (key : ObjectKey) (f : File Bytes) : Prop where
  size : f.size = (M.service.content (M.tagged key)).length
  byte : ∀ x, x < f.size →
    ∃ v, f.cells x = .remote v ∧ (M.service.content (M.tagged key))[x]? = some (v x)

variable {M : Mount V}

theorem Holds.unique {id : FileId} {e e' : Entry} {cloudId cloudId' : String}
    {key key' : ObjectKey} (h : M.Holds id e cloudId key) (h' : M.Holds id e' cloudId' key') :
    key = key' := by
  have he : e = e' := Option.some_inj.mp (h.entry.symm.trans h'.entry)
  subst he
  have hid : cloudId = cloudId' := Option.some_inj.mp (h.named.symm.trans h'.named)
  subst hid
  exact Except.ok.inj (h.parsed.symm.trans h'.parsed)

/-- **The windows a provider has fetched ahead** are windows of the versions the placeholders were
installed for. -/
theorem Provides.sound (hM : M.Lawful) {p : GraphProvider}
    (h : M.Provides (M.service.Current M.tagged) p) :
    p.prefetch.Sound M.service M.tagged := by
  induction h with
  | new => exact Prefetcher.sound_new
  | work w _ hans hcur ih => exact ih.work hans hcur
  | fetch span c _ hholds hbeh ih =>
    exact (GraphProvider.fetch_slice hM.identifies ih hholds.parsed (hM.names _ _ _ _ hholds)
      hbeh.faithful hbeh.answers).1

/-- What is sent in full on a connection is the span of the version. -/
theorem Answered.slice (hM : M.Lawful) {id : FileId} {e : Entry} {cloudId : String}
    {key : ObjectKey} (hholds : M.Holds id e cloudId key) {span : Span} {request : ℕ}
    {conn : Connection Bytes}
    (h : M.Answered (M.service.Current M.tagged) id span request conn) :
    ∃ lines, Carries conn span lines
      ∧ CarriesSlice (M.service.content (M.tagged key)) span lines := by
  obtain ⟨p, c, index, walk, hp, hentry, hcarry⟩ := h
  refine ⟨_, hcarry, fun body hbody ↦ ?_⟩
  obtain ⟨e', cloudId', hresolve, hid, hok, rfl⟩ := bodyOf_serve hbody
  obtain ⟨hstore, hbeh⟩ := hentry e' hresolve
  have he : e = e' := Option.some_inj.mp (hholds.entry.symm.trans hstore)
  subst he
  have hcloud : cloudId = cloudId' := Option.some_inj.mp (hholds.named.symm.trans hid)
  subst hcloud
  have hb := hbeh cloudId key hholds
  exact (GraphProvider.fetch_slice hM.identifies (hp.sound hM) hholds.parsed
    (hM.names _ _ _ _ hholds) hb.faithful hb.answers).2 hok

/-- **A transfer that ends well leaves bytes of the version.** -/
theorem Supplies.leaves (hM : M.Lawful) {id : FileId} {size : ℕ} {a : Attempt Bytes}
    (h : M.Supplies (M.service.Current M.tagged) id size a) {span : Span}
    (hspan : span.Within size) : (a.deliver id size span).Leaves (M.Byte id) := by
  by_cases hex : ∃ e cloudId key, M.Holds id e cloudId key
  · obtain ⟨e, cloudId, key, hholds⟩ := hex
    obtain ⟨f, hf, hfirst, hsecond⟩ := h span hspan
    obtain ⟨first, hcarry₁, hslice₁⟩ := hfirst.slice hM hholds
    obtain ⟨second, hcarry₂, hslice₂⟩ := hsecond.slice hM hholds
    rw [hf]
    intro hres htick x h1 h2
    obtain ⟨v, hv, hat⟩ := deliver_leaves hcarry₁ hcarry₂ hslice₁ hslice₂ hres htick x h1 h2
    exact ⟨v, hv, fun e' cloudId' key' h' ↦ hholds.unique h' ▸ hat⟩
  · refine Delivery.leaves_of_forall fun ch hch x hx e cloudId key hholds ↦ ?_
    exact absurd ⟨e, cloudId, key, hholds⟩ hex

theorem Serves.leave (hM : M.Lawful) {w : World Bytes} {id : FileId} {c : Calls Bytes}
    (h : M.Serves (M.service.Current M.tagged) w id c) : c.Leave M.Byte id (w.disk id).size :=
  fun _ hspan ↦ ⟨fun k ↦ (h.attempt k).leaves hM hspan, h.retry.leaves hM hspan⟩

/-- **What the records vouch for is the version the placeholders were installed for**, in every
run. -/
theorem Run.vouched (hM : M.Lawful) {w : World Bytes}
    (h : M.Run (M.service.Current M.tagged) w) : Vouched M.Byte w := by
  induction h with
  | start disk policy => exact Vouched.start _ disk policy
  | event id range c _ hc ih => exact ih.event id range c (hc.leave hM)
  | ghost _ ih => exact ih.ghost

theorem Run.inside {P : Served → Prop} {w : World Bytes} (h : M.Run P w) : Inside w := by
  induction h with
  | start disk policy => exact fun wr hwr ↦ by cases hwr
  | event id range c _ _ ih => exact (ih.event id range c).1
  | ghost _ ih => exact ih.ghost.1

/-- **No spliced file.** Where everything that is passed on without being held against the tag has
come from the version the tag names, a placeholder that is complete when it loses its mark holds
that version, byte for byte. -/
theorem filled_of_current (hM : M.Lawful) {w : World Bytes}
    (hw : M.Run (M.service.Current M.tagged) w) {id : FileId} {e : Entry} {cloudId : String}
    {key : ObjectKey} (hholds : M.Holds id e cloudId key)
    (hsize : (w.disk id).size = (M.service.content (M.tagged key)).length)
    {range : Option (ℕ × ℕ)} {c : Calls Bytes}
    (hc : M.Serves (M.service.Current M.tagged) w id c) (hmark : (w.disk id).marked = true)
    (hgone : ((decideAndFill w id range c).2.disk id).marked = false)
    (hfull : ∀ x, x < ((decideAndFill w id range c).2.disk id).size →
      ∃ v, ((decideAndFill w id range c).2.disk id).cells x = .remote v) :
    M.Filled key ((decideAndFill w id range c).2.disk id) := by
  have hsame : ((decideAndFill w id range c).2.disk id).size = (w.disk id).size :=
    (hw.inside.event id range c).2 id
  refine ⟨hsame.trans hsize, fun x hx ↦ ?_⟩
  rcases (hw.vouched hM).unmarked (hc.leave hM) hmark hgone (hx.trans_eq hsame) with
    hhole | ⟨v, hv, hbyte⟩
  · obtain ⟨v, hv⟩ := hfull x hx
    cases hhole.symm.trans hv
  · exact ⟨v, hv, hbyte e cloudId key hholds⟩

end Mount

/-! ## A file that is spliced

An object of eight bytes that is replaced by another of eight bytes at time ten. The half of its
placeholder that is read first is fetched before, the other half after. -/

def sampleKey : ObjectKey := ⟨⟨"d", checkId_d⟩, ⟨"i", checkId_i⟩⟩

/-- Eight ones, and from time ten on eight twos. -/
def sampleService : Service Bool where
  version := fun _ t ↦ decide (10 ≤ t)
  content := fun v ↦ List.replicate 8 (if v then 2 else 1)
  body := fun v ↦ ⟨true, false, false, false, false, none, some (if v then "b" else "a"), none⟩

/-- The placeholder is tagged with the first version. -/
def sampleEntry : Entry := ⟨some sampleKey.toCloudId, 8, some "ct:a"⟩

def sampleMount : Mount Bool :=
  ⟨sampleService, fun _ ↦ false, fun id ↦ if id = sampleId then some sampleEntry else none⟩

/-- The service answers every request with `n` times the byte, from a range it names. -/
def rangeCalls (time : ℕ) (range : String) (n : ℕ) (byte : UInt8) : FetchCalls :=
  let gone : IoError := ⟨.notConnected, none, "no answer"⟩
  let answer : Response := ⟨time, 206, none, none, some range, [⟨List.replicate n byte, none⟩], none⟩
  ⟨.error gone, fun _ ↦ ⟨time, .ok answer, .ok answer, .ok answer⟩, .error gone, [], none⟩

/-- A connection on which one span arrives, and nothing else does. -/
def rangeFetch (want : Span) (byte : UInt8) (span : Span) : SocketFetch Bytes where
  mountFsid := .ok 1
  dead := false
  reconnect := false
  nextId := 7
  first := ⟨none, none, if span = want then
    [.ready 7 want.len, .chunk 7 want.len (fun _ ↦ byte) 20 none, .done 7] else []⟩
  second := ⟨none, none, []⟩

def rangeAttempt (want : Span) (byte : UInt8) : Attempt Bytes where
  dup := none
  heard := false
  refused := false
  deliver := fun file size span ↦ (rangeFetch want byte span).deliver file size span
  waits := [.own, .own]
  carried := 0

/-- The second half is fetched at time zero. -/
def earlyCalls : FetchCalls := rangeCalls 0 "bytes 4-7/8" 4 1

/-- The first half is fetched at another time. -/
def laterCalls (time : ℕ) (byte : UInt8) : FetchCalls := rangeCalls time "bytes 0-3/8" 4 byte

/-- The provider that has served the second half. -/
def laterProvider : GraphProvider :=
  (GraphProvider.new.fetch sampleKey.toCloudId 8 (some "ct:a") ⟨4, 4⟩ earlyCalls).provider

/-- The placeholder of which the second half has been served. -/
def halfFilled : World Bytes :=
  (decideAndFill (World.start (fun _ ↦ placeholder 8 eight_le_u64Max true) Policy.permissive) sampleId
    (some (4, 4)) (calmly (rangeAttempt ⟨4, 4⟩ 1) none)).2

/-- The event that completes it, the first half being made of this byte. -/
def completing (byte : UInt8) : Handled × World Bytes :=
  decideAndFill halfFilled sampleId (some (0, 4)) (calmly (rangeAttempt ⟨0, 4⟩ byte) none)

/-- The byte of the remote object at a position of a file. -/
def remoteByte (f : File Bytes) (x : ℕ) : Option UInt8 :=
  match f.cells x with
  | .remote v => some (v x)
  | .hole | .user _ => none

theorem sampleMount_holds {id : FileId} {e : Entry} {cloudId : String} {key : ObjectKey}
    (h : sampleMount.Holds id e cloudId key) :
    e = sampleEntry ∧ cloudId = sampleKey.toCloudId ∧ key = sampleKey := by
  have hentry := h.entry
  rw [sampleMount] at hentry
  dsimp only at hentry
  split at hentry
  · cases hentry
    have hid : sampleKey.toCloudId = cloudId := Option.some_inj.mp h.named
    subst hid
    exact ⟨rfl, rfl, Except.ok.inj (h.parsed.symm.trans (CloudId.parse_toCloudId sampleKey))⟩
  · cases hentry

theorem holds_sampleId : sampleMount.Holds sampleId sampleEntry sampleKey.toCloudId sampleKey :=
  ⟨rfl, rfl, CloudId.parse_toCloudId sampleKey⟩

theorem sampleMount_lawful : sampleMount.Lawful := by
  refine ⟨⟨fun v w t hv hw ↦ ?_, fun key s t r h1 h2 h ↦ ?_, fun v h hh ↦ ?_⟩,
    fun id e cloudId key h tag htag ↦ ?_⟩
  · have hsame := hv.trans hw.symm
    revert hsame
    cases v <;> cases w <;> decide
  · change decide (10 ≤ s) = decide (10 ≤ r) at h
    change decide (10 ≤ t) = decide (10 ≤ s)
    rw [decide_eq_decide] at h ⊢
    omega
  · cases hh
  · obtain ⟨rfl, -, rfl⟩ := sampleMount_holds h
    cases htag
    exact ⟨.cTag, by decide⟩

section Sample

variable {P : Served → Prop} {p : GraphProvider} {span want : Span} {time n : ℕ} {range : String}
  {byte : UInt8} {c : FetchCalls}

/-- The service behaves while a half of the placeholder is served. -/
private theorem sampleMount_behaves (hpart : span.isWhole 8 = false)
    (hserved : ∀ s ∈ (p.fetch sampleKey.toCloudId 8 (some "ct:a") span
      (rangeCalls time range n byte)).served, sampleService.Answers s ∧ P s)
    {e : Entry} {cloudId : String} {key : ObjectKey} {id : FileId}
    (h : sampleMount.Holds id e cloudId key) :
    sampleMount.Behaves P p e cloudId key span (rangeCalls time range n byte) := by
  obtain ⟨rfl, rfl, rfl⟩ := sampleMount_holds h
  refine ⟨⟨fun s hs ↦ (hserved s hs).1, ?_, ?_, ?_, ?_, ?_⟩, fun s hs ↦ (hserved s hs).2⟩
  · rintro m item ⟨⟩
  · rintro m item ⟨⟩
  · rintro m ⟨⟩
  · rintro m ⟨⟩
  · intro hwhole
    cases hpart.symm.trans hwhole

/-- What arrives of a half is what the daemon sends of it. -/
private theorem sampleMount_supplies (hp : sampleMount.Provides P p)
    (hbeh : sampleMount.Behaves P p sampleEntry sampleKey.toCloudId sampleKey want c)
    (hlines : (serve (some sampleEntry) p ⟨7, sampleId, want⟩ c).1
      = [.ready 7 want.len, .chunk 7 (List.replicate want.len byte), .done 7]) :
    sampleMount.Supplies P sampleId 8 (rangeAttempt want byte) := by
  have hlost : ∀ span request, sampleMount.Answered P sampleId span request ⟨none, none, []⟩ :=
    fun span request ↦ ⟨.new, c, fun _ ↦ none, fun _ ↦ none, .new, by rintro e ⟨⟩, .lost _ _⟩
  refine fun span _ ↦ ⟨rangeFetch want byte span, rfl, ?_, hlost span _⟩
  rw [rangeFetch]
  dsimp only
  split
  · rename_i hspan
    subst hspan
    refine ⟨p, c, sampleMount.store, fun _ ↦ none, hp, fun e he ↦ ⟨?_, fun cloudId key h ↦ ?_⟩, ?_⟩
    · rw [resolveOrRescan, Option.or_none] at he
      exact he
    · obtain ⟨rfl, rfl, rfl⟩ := sampleMount_holds h
      exact hbeh
    · have hentry : resolveOrRescan sampleMount.store (fun _ ↦ none) sampleId
        = some sampleEntry := rfl
      rw [hentry, hlines, Carries]
      refine .ready 7 span.len ?_
      have hchunk : Arrives span.offset 0
          [.chunk 7 (List.replicate span.len byte), .done 7]
          [.chunk 7 (List.replicate span.len byte).length (fun _ ↦ byte) 20 none, .done 7] := by
        refine .chunk 7 _ _ 20 none (fun i hi ↦ ?_) (.done 7 (.lost _ []))
        rw [List.length_replicate] at hi
        rw [List.getElem?_replicate, if_pos hi]
      rw [List.length_replicate] at hchunk
      exact hchunk
  · exact hlost span _

private theorem early_served : (GraphProvider.new.fetch sampleKey.toCloudId 8 (some "ct:a") ⟨4, 4⟩
    earlyCalls).served = [⟨sampleKey, false, ⟨4, ⟨0, 206, none, none, some "bytes 4-7/8",
      [⟨List.replicate 4 1, none⟩], none⟩⟩⟩] := by
  decide +kernel

private theorem early_behaves (hP : ∀ s : Served, s.key = sampleKey → s.taken.response.time = 0 →
    P s) {e : Entry} {cloudId : String} {key : ObjectKey} {id : FileId}
    (h : sampleMount.Holds id e cloudId key) :
    sampleMount.Behaves P .new e cloudId key ⟨4, 4⟩ earlyCalls := by
  refine sampleMount_behaves (by decide) (fun s hs ↦ ?_) h
  rw [show rangeCalls 0 "bytes 4-7/8" 4 1 = earlyCalls from rfl, early_served] at hs
  rw [List.mem_singleton.mp hs]
  exact ⟨by decide, hP _ rfl rfl⟩

private theorem laterProvider_provides
    (hP : ∀ s : Served, s.key = sampleKey → s.taken.response.time = 0 → P s) :
    sampleMount.Provides P laterProvider :=
  .fetch ⟨4, 4⟩ earlyCalls .new holds_sampleId (early_behaves hP holds_sampleId)

/-- The second half is served at time zero. -/
private theorem serves_early
    (hP : ∀ s : Served, s.key = sampleKey → s.taken.response.time = 0 → P s) (w : World Bytes)
    (hsize : (w.disk sampleId).size = 8) :
    sampleMount.Serves P w sampleId (calmly (rangeAttempt ⟨4, 4⟩ 1) none) := by
  have h : sampleMount.Supplies P sampleId 8 (rangeAttempt ⟨4, 4⟩ 1) :=
    sampleMount_supplies .new (early_behaves hP holds_sampleId) (by decide +kernel)
  rw [← hsize] at h
  exact ⟨fun _ ↦ h, h⟩

private theorem halfFilled_run
    (hP : ∀ s : Served, s.key = sampleKey → s.taken.response.time = 0 → P s) :
    sampleMount.Run P halfFilled :=
  .event _ _ _ (.start _ _) (serves_early hP _ rfl)

/-- The first half is served at a time at which that is its byte. -/
private theorem serves_later (time : ℕ)
    (hP : ∀ s : Served, s.key = sampleKey → s.taken.response.time = 0 → P s)
    (hlines : (serve (some sampleEntry) laterProvider ⟨7, sampleId, ⟨0, 4⟩⟩
      (laterCalls time byte)).1 = [.ready 7 4, .chunk 7 (List.replicate 4 byte), .done 7])
    (hserved : ∀ s ∈ (laterProvider.fetch sampleKey.toCloudId 8 (some "ct:a") ⟨0, 4⟩
      (laterCalls time byte)).served, sampleService.Answers s ∧ P s) :
    sampleMount.Serves P halfFilled sampleId (calmly (rangeAttempt ⟨0, 4⟩ byte) none) := by
  have h : sampleMount.Supplies P sampleId 8 (rangeAttempt ⟨0, 4⟩ byte) :=
    sampleMount_supplies (laterProvider_provides hP)
      (sampleMount_behaves (by decide) hserved holds_sampleId) hlines
  have hsize : (halfFilled.disk sampleId).size = 8 := by decide +kernel
  rw [← hsize] at h
  exact ⟨fun _ ↦ h, h⟩

end Sample

private theorem remote_of_remoteByte {f : File Bytes} {x : ℕ} {b : UInt8}
    (h : remoteByte f x = some b) : ∃ v, f.cells x = .remote v := by
  rw [remoteByte] at h
  split at h
  · rename_i v hv
    exact ⟨v, hv⟩
  · cases h
  · cases h

/-- The two halves of the placeholder are of two versions. -/
theorem spliced : sampleMount.Lawful ∧ sampleMount.Run (fun _ ↦ True) halfFilled
    ∧ sampleMount.Holds sampleId sampleEntry sampleKey.toCloudId sampleKey
    ∧ (∀ v, (halfFilled.disk sampleId).size = (sampleService.content v).length)
    ∧ sampleMount.Serves (fun _ ↦ True) halfFilled sampleId
      (calmly (rangeAttempt ⟨0, 4⟩ 2) none)
    ∧ (halfFilled.disk sampleId).marked = true ∧ (completing 2).1 = .hydrated 8
    ∧ ((completing 2).2.disk sampleId).marked = false
    ∧ (∀ x < 8, (remoteByte ((completing 2).2.disk sampleId) x).isSome)
    ∧ ∀ v, ∃ x < 8, remoteByte ((completing 2).2.disk sampleId) x ≠ (sampleService.content v)[x]? := by
  have hserved : (laterProvider.fetch sampleKey.toCloudId 8 (some "ct:a") ⟨0, 4⟩
      (laterCalls 10 2)).served = [⟨sampleKey, false, ⟨0, ⟨10, 206, none, none, some "bytes 0-3/8",
        [⟨List.replicate 4 2, none⟩], none⟩⟩⟩] := by decide +kernel
  refine ⟨sampleMount_lawful, halfFilled_run fun _ _ _ ↦ trivial, holds_sampleId,
    by decide +kernel, serves_later 10 (fun _ _ _ ↦ trivial) (by decide +kernel) ?_,
    by decide +kernel, by decide +kernel, by decide +kernel, by decide +kernel, by decide +kernel⟩
  intro s hs
  rw [hserved, List.mem_singleton] at hs
  subst hs
  exact ⟨by decide, trivial⟩

/-- Both halves are served before the object is replaced. -/
theorem filled_of_current_early :
    sampleMount.Filled sampleKey ((completing 1).2.disk sampleId) := by
  have hP : ∀ s : Served, s.key = sampleKey → s.taken.response.time = 0 →
      sampleService.Current sampleMount.tagged s := by
    intro s _ htime _
    rw [htime]
    rfl
  have hserved : (laterProvider.fetch sampleKey.toCloudId 8 (some "ct:a") ⟨0, 4⟩
      (laterCalls 5 1)).served = [⟨sampleKey, false, ⟨0, ⟨5, 206, none, none, some "bytes 0-3/8",
        [⟨List.replicate 4 1, none⟩], none⟩⟩⟩] := by decide +kernel
  have hserves : sampleMount.Serves (sampleService.Current sampleMount.tagged) halfFilled sampleId
      (calmly (rangeAttempt ⟨0, 4⟩ 1) none) := by
    refine serves_later 5 hP (by decide +kernel) fun s hs ↦ ?_
    rw [hserved, List.mem_singleton] at hs
    subst hs
    exact ⟨by decide, fun _ ↦ by decide⟩
  have hfull : ∀ x < 8, (remoteByte ((completing 1).2.disk sampleId) x).isSome := by decide +kernel
  refine Mount.filled_of_current sampleMount_lawful (halfFilled_run hP) holds_sampleId
    (by decide +kernel) hserves (by decide +kernel) (by decide +kernel) fun x hx ↦ ?_
  obtain ⟨b, hb⟩ := Option.isSome_iff_exists.mp (hfull x hx)
  exact remote_of_remoteByte hb

end HydrationAPI.Client
