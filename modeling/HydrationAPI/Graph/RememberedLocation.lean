import HydrationAPI.Graph.Http
import HydrationAPI.Graph.ResumeCopy

/-!
# A remembered location

The service, and the hosts that hold contents, as a download meets them: what the service answers
when it is asked where a content is, and what a host answers at an address, whether it has just been
named or is remembered. The same world is met by a download that remembers nothing and by one that
does.

A remembered address is given up only for an answer that shows it to be stale. A host that refuses
the connection, that throttles, or that breaks off is asked again, or ends the download, while the
service would have named another.
-/

namespace HydrationAPI.Graph

/-- What is answered at each attempt, should it be asked for. -/
structure Hosts where
  now : ℕ → ℕ
  /-- The service, about the object. -/
  graph : ℕ → Except IoError Response
  /-- A host, at an address that the service has just named. -/
  redirected : ℕ → String → Except IoError Response
  /-- A host, at an address that is remembered. -/
  remembered : ℕ → String → Except IoError Response

/-- What one attempt is answered. An error of a host is passed on without what it says. -/
def Hosts.answers (w : Hosts) (key : ObjectKey) (k : ℕ) (l : ContentLocations) : Try where
  now := w.now k
  remembered :=
    match l.entries key with
    | some (location, _) =>
      (w.remembered k location).mapError (Http.GraphHttp.wireError location)
    | none => w.graph k
  direct := w.graph k
  redirected :=
    match w.graph k with
    | .ok r =>
      match r.location with
      | some location =>
        (w.redirected k location).mapError (Http.GraphHttp.wireError location)
      | none => .ok r
    | .error e => .error e

/-- The closure of `download_span`. -/
def Hosts.attempt (w : Hosts) (sink : Sink) (key : ObjectKey) (span : Span) (total : ℕ)
    (k written : ℕ) (l : ContentLocations) : Copied Verdict × ContentLocations :=
  let a := Graph.attempt sink key span total written l (w.answers key k l)
  (a.copied, a.locations)

/-- `download_span`. -/
def Hosts.download (w : Hosts) (sink : Sink) (l : ContentLocations) (key : ObjectKey) (span : Span)
    (total : ℕ) : Resumed ContentLocations :=
  let stop := span.end'
  if total < stop then
    ⟨.error ⟨.invalidInput, none,
      s!"asked for {span.offset}..{stop} of an item Graph reports as {total} bytes"⟩, [], [], [], l⟩
  else if span.isEmpty then ⟨.ok (), [], [], [], l⟩
  else resume 1 span.len (w.attempt sink key span total) maxDownloadRetries 0 0 l []

/-- A download of a range of an object. -/
structure Ranged (span : Span) (total : ℕ) : Prop where
  within : span.Within total
  total_le : total ≤ u64Max
  nonempty : span.isEmpty = false
  partial' : span.isWhole total = false

/-- What is remembered of the object, young or not. -/
def ContentLocations.remembered (l : ContentLocations) (key : ObjectKey) : String :=
  ((l.entries key).map Prod.fst).getD ""

/-- The host of what is remembered behaves so, by this clock. -/
structure Hosts.Has (w : Hosts) (now : ℕ → ℕ) (location : String)
    (host : ℕ → Except IoError Response) : Prop where
  now : w.now = now
  host : ∀ k, w.remembered k location = host k

/-- What is remembered is no more than a short cut, whatever else is answered. -/
structure ShortCut (sink : Sink) (l : ContentLocations) (key : ObjectKey) (span : Span) (total : ℕ)
    (now : ℕ → ℕ) (host : ℕ → Except IoError Response) : Prop where
  /-- A download that succeeds without it succeeds with it. -/
  succeeds : ∀ w : Hosts, w.Has now (l.remembered key) host →
    (w.download sink (l.forget key) key span total).result = .ok () →
      (w.download sink l key span total).result = .ok ()
  /-- After a failure the next window does not go there, unless the service names it again. -/
  dropped : ∀ w : Hosts, w.Has now (l.remembered key) host →
    (∀ k r, w.graph k = .ok r → r.location ≠ some (l.remembered key)) →
      (w.download sink l key span total).result ≠ .ok () →
        ∀ later, ((w.download sink l key span total).state.fresh key later).1
          ≠ some (l.remembered key)

/-- An answer that shows the address to be stale. -/
def Stale (answer : Except IoError Response) : Prop :=
  ∃ r, answer = .ok r ∧ r.status ≠ 206 ∧ retryableStatus r.status = false

def noAnswer : IoError := ⟨.other, none, "the request could not be completed"⟩

/-- Only the host of what is remembered answers. -/
def hostAlone (now : ℕ → ℕ) (host : ℕ → Except IoError Response) : Hosts where
  now := now
  graph _ := .error noAnswer
  redirected _ _ := .error noAnswer
  remembered k _ := host k

variable {w w' : Hosts} {sink : Sink} {l : ContentLocations} {key : ObjectKey} {span : Span}
  {total k written learned : ℕ} {now : ℕ → ℕ} {host : ℕ → Except IoError Response}
  {location : String} {t t' : Try}

theorem ContentLocations.entries_forget : (l.forget key).entries key = none :=
  Function.update_self _ _ _

theorem ContentLocations.entries_learned (n : ℕ) :
    (l.learned key location n).entries key = some (location, n) := Function.update_self _ _ _

theorem ContentLocations.forget_of_none (h : l.entries key = none) : l.forget key = l := by
  obtain ⟨entries⟩ := l
  rw [forget, ContentLocations.mk.injEq]
  funext other
  by_cases hother : other = key
  · rw [hother, Function.update_self]
    exact h.symm
  · rw [Function.update_of_ne hother]

theorem ContentLocations.fresh_forget (n : ℕ) :
    (l.forget key).fresh key n = (none, l.forget key) := by
  rw [fresh, entries_forget]

/-- What is not young enough is forgotten, and what is stays. -/
theorem ContentLocations.fresh_cases (l : ContentLocations) (key : ObjectKey) (n : ℕ) :
    l.fresh key n = (none, l.forget key)
    ∨ ∃ location learned, l.entries key = some (location, learned)
      ∧ n - learned < contentLocationTtl ∧ l.fresh key n = (some location, l) := by
  rw [fresh]
  cases hentry : l.entries key with
  | none => exact Or.inl (by rw [forget_of_none hentry])
  | some entry =>
    dsimp only
    by_cases hyoung : n - entry.2 < contentLocationTtl
    · exact Or.inr ⟨entry.1, entry.2, rfl, hyoung, if_pos hyoung⟩
    · exact Or.inl (if_neg hyoung)

/-! ## One attempt -/

/-- What is too old, or is shown to be stale, leaves the attempt as if it had not been there. -/
theorem request_of_useless (hnow : t.now = t'.now) (hdirect : t.direct = t'.direct)
    (hredirected : t.redirected = t'.redirected)
    (h : l.fresh key t.now = (none, l.forget key) ∨ Stale t.remembered) :
    request l key true t = request (l.forget key) key true t' := by
  have hother : request (l.forget key) key true t' = request (l.forget key) key true t := by
    rw [request, request]
    simp only [if_true, ContentLocations.fresh_forget, hdirect, hredirected, hnow]
  rw [hother, request, request]
  rcases h with h | ⟨r, hr, hstatus, hretry⟩
  · simp only [if_true, ContentLocations.fresh_forget, h]
  · rcases l.fresh_cases key t.now with h | ⟨location, learned, -, -, h⟩
    · simp only [if_true, ContentLocations.fresh_forget, h]
    · simp only [if_true, ContentLocations.fresh_forget, h, hr, hstatus, hretry, ne_eq,
        not_false_eq_true, and_self]

/-- What is young and not shown to be stale is all that is asked. -/
theorem request_of_used (h : l.fresh key t.now = (some location, l))
    (hstale : ¬ Stale t.remembered) : request l key true t = (t.remembered, l) := by
  rw [request]
  simp only [if_true, h]
  cases hanswer : t.remembered with
  | error e => rfl
  | ok r =>
    have hkept : ¬ (r.status ≠ 206 ∧ retryableStatus r.status = false) := fun hboth ↦
      hstale ⟨r, hanswer, hboth⟩
    have hstatus : ¬ (300 ≤ r.status ∧ r.status ≤ 399) := by
      rintro ⟨hlow, hhigh⟩
      refine hkept ⟨by omega, ?_⟩
      rw [retryableStatus]
      simp
      omega
    simp only [if_neg hkept, if_neg hstatus]

theorem attempt_congr (hspan : Ranged span total) {l' : ContentLocations}
    (h : request l key true t = request l' key true t') :
    attempt sink key span total written l t = attempt sink key span total written l' t' := by
  rw [attempt, attempt, hspan.partial', Bool.not_false, Bool.true_or, h]

theorem locations_attempt : (attempt sink key span total written l t).locations
    = (request l key (!span.isWhole total || written != 0) t).2 := by
  rw [attempt]
  dsimp only
  split
  · rfl
  · split <;> rfl

/-- An attempt without what is remembered ends in the error that the service answers with. -/
theorem attempt_of_error (hspan : Ranged span total) {e : IoError} {l' : ContentLocations}
    (h : request l key true t = (.error e, l')) :
    attempt sink key span total written l t = ⟨⟨.error e, [], false⟩, none, l'⟩ := by
  rw [attempt, hspan.partial', Bool.not_false, Bool.true_or, h]

theorem request_of_error {e : IoError}
    (h : l.fresh key t.now = (none, l.forget key) ∨ Stale t.remembered)
    (hdirect : t.direct = .error e) : request l key true t = (.error e, l.forget key) := by
  rw [request_of_useless rfl rfl rfl h, request]
  simp only [if_true, ContentLocations.fresh_forget, hdirect]

/-! ## A download -/

theorem stale_mapError {answer : Except IoError Response} {f : IoError → IoError} :
    Stale (answer.mapError f) ↔ Stale answer := by
  cases answer with
  | error e => exact iff_of_false (fun ⟨_, h, _⟩ ↦ nomatch h) (fun ⟨_, h, _⟩ ↦ nomatch h)
  | ok r => exact Iff.rfl

theorem Hosts.answers_remembered (h : l.entries key = some (location, learned)) :
    (w.answers key k l).remembered
      = (w.remembered k location).mapError (Http.GraphHttp.wireError location) := by
  rw [answers, h]

theorem ContentLocations.remembered_of_some (h : l.entries key = some (location, learned)) :
    l.remembered key = location := by
  rw [remembered, h]
  rfl

theorem Hosts.download_of_ranged (hspan : Ranged span total) : w.download sink l key span total
    = resume 1 span.len (w.attempt sink key span total) maxDownloadRetries 0 0 l [] := by
  rw [download, if_neg (Nat.not_lt.mpr hspan.within.end'_le), hspan.nonempty,
    if_neg Bool.false_ne_true]

/-- What is too old, or is shown to be stale at once, leaves the download as if it had not been
there. -/
theorem Hosts.download_of_useless (hspan : Ranged span total)
    (hw : w.Has now (l.remembered key) host)
    (h : (l.fresh key (now 0)).1 = none ∨ Stale (host 0)) :
    w.download sink l key span total = w.download sink (l.forget key) key span total := by
  have huseless : l.fresh key (w.answers key 0 l).now = (none, l.forget key)
      ∨ Stale (w.answers key 0 l).remembered := by
    rw [answers, hw.now]
    rcases l.fresh_cases key (now 0) with hfresh | ⟨location, learned, hentry, -, hfresh⟩
    · exact Or.inl hfresh
    · refine Or.inr ?_
      rw [hfresh] at h
      have hstale := h.resolve_left (Option.some_ne_none _)
      rw [← hw.host 0, ContentLocations.remembered_of_some hentry] at hstale
      dsimp only
      rw [hentry]
      exact stale_mapError.mpr hstale
  have hsame : request l key true (w.answers key 0 l)
      = request (l.forget key) key true (w.answers key 0 (l.forget key)) :=
    request_of_useless rfl rfl rfl huseless
  rw [download_of_ranged hspan, download_of_ranged hspan]
  refine resume_congr ?_ fun _ _ ↦ rfl
  rw [Hosts.attempt, Hosts.attempt, attempt_congr hspan hsame]

/-- The attempts at a host that serves the whole range by itself are the same, whatever the service
would answer. -/
theorem resume_of_hostAlone (hspan : Ranged span total) (hw : w.Has now location host)
    (hentry : l.entries key = some (location, learned)) {left k slept : ℕ}
    {taken : List (List UInt8)}
    (h : (resume 1 span.len ((hostAlone now host).attempt sink key span total) left k slept l
      taken).result = .ok ()) :
    resume 1 span.len (w.attempt sink key span total) left k slept l taken
      = resume 1 span.len ((hostAlone now host).attempt sink key span total) left k slept l
        taken := by
  -- an attempt that asks the service is the last
  have hattempt : ∀ k written,
      ((hostAlone now host).attempt sink key span total k written l).1
          = ⟨.error noAnswer, [], false⟩
        ∨ w.attempt sink key span total k written l
            = (hostAlone now host).attempt sink key span total k written l
          ∧ ((hostAlone now host).attempt sink key span total k written l).2 = l := by
    intro k written
    have hremembered : ((hostAlone now host).answers key k l).remembered
        = (w.answers key k l).remembered := by
      rw [Hosts.answers_remembered hentry, Hosts.answers_remembered hentry, hw.host]
      rfl
    have hnow : ((hostAlone now host).answers key k l).now = (w.answers key k l).now :=
      (congrFun hw.now k).symm
    by_cases huseless :
        l.fresh key ((hostAlone now host).answers key k l).now = (none, l.forget key)
          ∨ Stale ((hostAlone now host).answers key k l).remembered
    · refine Or.inl ?_
      rw [Hosts.attempt, attempt_of_error hspan (request_of_error huseless rfl)]
    · rw [not_or] at huseless
      obtain ⟨hyoung, hstale⟩ := huseless
      rcases l.fresh_cases key ((hostAlone now host).answers key k l).now
        with hfresh | ⟨location', learned', -, -, hfresh⟩
      · exact absurd hfresh hyoung
      · have halone := request_of_used hfresh hstale
        have hused : request l key true (w.answers key k l)
            = request l key true ((hostAlone now host).answers key k l) := by
          rw [halone, hremembered]
          exact request_of_used (hnow ▸ hfresh) (hremembered ▸ hstale)
        refine Or.inr ⟨?_, ?_⟩
        · rw [Hosts.attempt, Hosts.attempt, attempt_congr hspan hused]
        · rw [Hosts.attempt]
          dsimp only
          rw [locations_attempt, hspan.partial', Bool.not_false, Bool.true_or, halone]
  induction left generalizing k slept taken with
  | zero =>
    rcases hattempt k taken.flatten.length with hlast | ⟨hsame, -⟩
    · rw [resume] at h
      dsimp only at h
      rw [hlast] at h
      cases h
    · rw [resume, resume, hsame]
  | succ left ih =>
    rcases hattempt k taken.flatten.length with hlast | ⟨hsame, hkept⟩
    · rw [resume] at h
      dsimp only at h
      rw [hlast] at h
      cases h
    · rw [resume] at h
      rw [resume, resume, hsame]
      dsimp only at h ⊢
      rw [hkept] at h ⊢
      split at h
      · rfl
      · split at h
        · cases h
        · rename_i hlate
          rw [if_neg hlate, if_neg hlate, ih h]

/-! ## What is remembered afterwards -/

/-- What the object is known to be at is not this address. -/
def ContentLocations.Avoids (l : ContentLocations) (key : ObjectKey) (location : String) : Prop :=
  ∀ learned, l.entries key ≠ some (location, learned)

theorem ContentLocations.avoids_forget : (l.forget key).Avoids key location := by
  intro learned
  rw [entries_forget]
  exact nofun

theorem ContentLocations.Avoids.fresh_ne (h : l.Avoids key location) (n : ℕ) :
    (l.fresh key n).1 ≠ some location := by
  rcases l.fresh_cases key n with hfresh | ⟨location', learned, hentry, -, hfresh⟩
  · rw [hfresh]
    exact nofun
  · rw [hfresh]
    rintro heq
    obtain rfl : location' = location := Option.some_inj.mp heq
    exact h learned hentry

theorem ContentLocations.Avoids.request (h : l.Avoids key location)
    (hdirect : ∀ r, t.direct = .ok r → r.location ≠ some location) :
    (request l key true t).2.Avoids key location := by
  by_cases huseless : l.fresh key t.now = (none, l.forget key) ∨ Stale t.remembered
  · have hdropped : Graph.request l key true t = Graph.request (l.forget key) key true t :=
      request_of_useless rfl rfl rfl huseless
    rw [hdropped, Graph.request]
    simp only [if_true, fresh_forget]
    cases hanswer : t.direct with
    | error e => exact avoids_forget
    | ok r =>
      dsimp only
      split
      · split
        · exact avoids_forget
        · rename_i named hnamed
          intro learnedAt hentry
          rw [entries_learned, Option.some_inj, Prod.mk.injEq] at hentry
          refine hdirect r hanswer ?_
          rw [Option.eq_some_of_filter_eq_some hnamed, hentry.1]
      · exact avoids_forget
  · rw [not_or] at huseless
    rcases l.fresh_cases key t.now with hfresh | ⟨location', learned', -, -, hfresh⟩
    · exact absurd hfresh huseless.1
    · rw [request_of_used hfresh huseless.2]
      exact h

/-- What has been forgotten is not remembered again, unless the service names it. -/
theorem Hosts.avoids_download (hspan : Ranged span total) (h : l.Avoids key location)
    (hgraph : ∀ k r, w.graph k = .ok r → r.location ≠ some location) :
    (w.download sink l key span total).state.Avoids key location := by
  rw [download_of_ranged hspan]
  refine resume_state (P := fun l : ContentLocations ↦ l.Avoids key location)
    (fun k written l hl ↦ ?_) h
  rw [Hosts.attempt]
  dsimp only
  rw [locations_attempt, hspan.partial', Bool.not_false, Bool.true_or]
  exact hl.request (hgraph k)

/-! ## A service that names a host once -/

def contentRange (start stop total : ℕ) : String :=
  "bytes " ++ ((start.repr ++ ("-" ++ stop.repr)) ++ ("/" ++ total.repr))

theorem validateContentRange_contentRange {start stop : ℕ} (h : start ≤ stop) (hstop : stop < total)
    (htotal : total ≤ u64Max) :
    validateContentRange (contentRange start stop total) start stop total = .ok () := by
  have hslash : '/' ∉ (start.repr ++ ("-" ++ stop.repr)).toList := by
    simp only [String.toList_append, List.mem_append, not_or]
    exact ⟨Text.not_mem_repr (by decide) _, by decide, Text.not_mem_repr (by decide) _⟩
  have hspan : Text.splitOnce '/' ((start.repr ++ ("-" ++ stop.repr)) ++ ("/" ++ total.repr))
      = some (start.repr ++ ("-" ++ stop.repr), total.repr) := Text.splitOnce_join hslash
  have hdash : Text.splitOnce '-' (start.repr ++ ("-" ++ stop.repr))
      = some (start.repr, stop.repr) := Text.splitOnce_join (Text.not_mem_repr (by decide) _)
  have hbounds : start ≤ u64Max ∧ stop ≤ u64Max := by omega
  rw [validateContentRange, contentRange, Text.stripPrefix_append]
  simp only [Option.bind_eq_bind, Option.bind_some, hspan, hdash,
    Text.parseUnsigned_repr hbounds.1, Text.parseUnsigned_repr hbounds.2,
    Text.parseUnsigned_repr htotal, Option.pure_def]
  rw [if_neg]
  omega

/-- The range, all of it. -/
def goodRange (span : Span) (total : ℕ) : Response :=
  ⟨0, 206, none, none, some (contentRange span.offset (span.end' - 1) total),
    [⟨List.replicate span.len 0, none⟩], none⟩

/-- The service names a host that serves the range, and then answers no more. -/
def namedOnce (now : ℕ → ℕ) (host : ℕ → Except IoError Response) (span : Span) (total : ℕ) :
    Hosts where
  now := now
  graph
    | 0 => .ok ⟨0, 302, none, some "https://h", none, [], none⟩
    | _ + 1 => .error noAnswer
  redirected
    | 0 => fun _ ↦ .ok (goodRange span total)
    | _ + 1 => fun _ ↦ .error noAnswer
  remembered k _ := host k

theorem judge_goodRange (hspan : Ranged span total) :
    judge true span.offset (span.end' - 1) total (goodRange span total) = .ok (.copy) := by
  have hpos : 0 < span.len := by
    have hnonempty := hspan.nonempty
    rw [Span.isEmpty, beq_eq_false_iff_ne] at hnonempty
    omega
  have hend := hspan.within.end'_eq hspan.total_le
  have hwithin := hspan.within
  rw [Span.Within] at hwithin
  have hretry : retryableStatus 206 = false := by decide
  have hrange : validateContentRange (contentRange span.offset (span.end' - 1) total) span.offset
      (span.end' - 1) total = .ok () :=
    validateContentRange_contentRange (by omega) (by omega) hspan.total_le
  rw [judge, goodRange]
  dsimp only
  rw [hretry, if_neg Bool.false_ne_true, if_pos rfl, if_neg (by simp), hrange]
  rfl

theorem attempt_goodRange (hspan : Ranged span total)
    (h : (request l key true t).1 = .ok (goodRange span total)) :
    (attempt sink key span total 0 l t).copied
      = ⟨.ok .copy, [List.replicate span.len 0], false⟩ := by
  have hcopy : copy sink span.len none 0 [⟨List.replicate span.len 0, none⟩]
      = ⟨.ok (), [List.replicate span.len 0], false⟩ := by
    have hfits : ¬ span.len < saturatingAdd 0 (List.replicate span.len (0 : UInt8)).length := by
      rw [List.length_replicate, saturatingAdd]
      omega
    rw [copy, if_neg hfits]
    cases sink <;> rfl
  rw [attempt, hspan.partial', Bool.not_false, Bool.true_or]
  dsimp only
  rw [h]
  dsimp only
  rw [Nat.add_zero, judge_goodRange hspan]
  dsimp only
  rw [goodRange, hcopy]
  rfl

theorem namedOnce_succeeds (hspan : Ranged span total) :
    ((namedOnce now host span total).download sink (l.forget key) key span total).result
      = .ok () := by
  have hrequest : (request (l.forget key) key true
      ((namedOnce now host span total).answers key 0 (l.forget key))).1
        = .ok (goodRange span total) := by
    have hsafe : safeDownloadUrl "https://h" = true := by decide +kernel
    rw [request]
    simp only [if_true, ContentLocations.fresh_forget]
    simp [Hosts.answers, namedOnce, hsafe, Option.filter_some]
    rfl
  have hfirst : (attempt sink key span total 0 (l.forget key)
      ((namedOnce now host span total).answers key 0 (l.forget key))).copied
        = ⟨.ok .copy, [List.replicate span.len 0], false⟩ := attempt_goodRange hspan hrequest
  have hsettle : settle span.len [List.replicate span.len (0 : UInt8)].flatten.length
      ⟨.ok .copy, [List.replicate span.len 0], false⟩ = .inl (.ok ()) :=
    settle_eq_ok_iff.mpr ⟨by simp, rfl, rfl⟩
  rw [Hosts.download_of_ranged hspan, resume]
  dsimp only
  rw [Hosts.attempt, List.flatten_nil, List.length_nil, hfirst]
  dsimp only
  rw [List.nil_append, hsettle]

/-- The host of what is remembered is asked first, and after that the service answers no more. -/
theorem namedOnce_of_used (hspan : Ranged span total)
    (hentry : l.entries key = some (location, learned))
    (hyoung : l.fresh key (now 0) = (some location, l)) (hstale : ¬ Stale (host 0)) :
    (namedOnce now host span total).download sink l key span total
      = (hostAlone now host).download sink l key span total := by
  have hremembered : ((namedOnce now host span total).answers key 0 l).remembered
      = ((hostAlone now host).answers key 0 l).remembered := by
    rw [Hosts.answers_remembered hentry, Hosts.answers_remembered hentry]
    rfl
  have hfresh : ¬ Stale ((hostAlone now host).answers key 0 l).remembered := by
    rw [Hosts.answers_remembered hentry, stale_mapError]
    exact hstale
  have hsame : request l key true ((namedOnce now host span total).answers key 0 l)
      = request l key true ((hostAlone now host).answers key 0 l) := by
    have hother : ¬ Stale ((namedOnce now host span total).answers key 0 l).remembered :=
      hremembered ▸ hfresh
    rw [request_of_used hyoung hother, request_of_used hyoung hfresh, hremembered]
  rw [Hosts.download_of_ranged hspan, Hosts.download_of_ranged hspan]
  refine resume_congr ?_ fun j hj ↦ ?_
  · rw [Hosts.attempt, Hosts.attempt, attempt_congr hspan hsame]
  · obtain ⟨j, rfl⟩ := Nat.exists_eq_succ_of_ne_zero (Nat.ne_of_gt hj)
    rfl

/-! ## What a remembered location costs -/

/-- **A remembered location is only a short cut** exactly if it is too old to be asked, or shows
itself to be stale at the first answer, or its host serves the range alone. -/
theorem shortCut_iff (sink : Sink) (l : ContentLocations) (key : ObjectKey) (span : Span)
    (total : ℕ) (hspan : Ranged span total) (now : ℕ → ℕ) (host : ℕ → Except IoError Response) :
    ShortCut sink l key span total now host
      ↔ (l.fresh key (now 0)).1 = none ∨ Stale (host 0)
        ∨ ((hostAlone now host).download sink l key span total).result = .ok () := by
  constructor
  · intro h
    by_contra hnot
    rw [not_or, not_or] at hnot
    obtain ⟨hyoung, hstale, halone⟩ := hnot
    rcases l.fresh_cases key (now 0) with hfresh | ⟨location, learned, hentry, -, hfresh⟩
    · exact hyoung (by rw [hfresh])
    · have hok := h.succeeds (namedOnce now host span total) ⟨rfl, fun _ ↦ rfl⟩
        (namedOnce_succeeds hspan)
      rw [namedOnce_of_used hspan hentry hfresh hstale] at hok
      exact halone hok
  · rintro h
    have hcases : ((l.fresh key (now 0)).1 = none ∨ Stale (host 0)) ∨ ∃ location learned,
        l.entries key = some (location, learned)
          ∧ ((hostAlone now host).download sink l key span total).result = .ok () := by
      rcases h with h | h | h
      · exact Or.inl (Or.inl h)
      · exact Or.inl (Or.inr h)
      · rcases l.fresh_cases key (now 0) with hfresh | ⟨location, learned, hentry, -, -⟩
        · exact Or.inl (Or.inl (by rw [hfresh]))
        · exact Or.inr ⟨location, learned, hentry, h⟩
    rcases hcases with huseless | ⟨location, learned, hentry, halone⟩
    · constructor
      · intro w hw hok
        rwa [Hosts.download_of_useless hspan hw huseless]
      · intro w hw hgraph _ later
        rw [Hosts.download_of_useless hspan hw huseless]
        exact (Hosts.avoids_download hspan ContentLocations.avoids_forget hgraph).fresh_ne later
    · have hsame : ∀ w : Hosts, w.Has now (l.remembered key) host →
          (w.download sink l key span total).result = .ok () := by
        intro w hw
        rw [ContentLocations.remembered_of_some hentry] at hw
        rw [Hosts.download_of_ranged hspan] at halone ⊢
        rw [resume_of_hostAlone hspan hw hentry halone]
        exact halone
      exact ⟨fun w hw _ ↦ hsame w hw, fun w hw _ hfailed ↦ absurd (hsame w hw) hfailed⟩

def shortKey : ObjectKey := ⟨⟨"d", checkId_d⟩, ⟨"i", checkId_i⟩⟩

/-- An address that has just been learned. -/
def justLearned : ContentLocations := ContentLocations.new.learned shortKey "https://h/x" 0

theorem ranged_short : Ranged ⟨2, 3⟩ 10 :=
  ⟨show 2 + 3 ≤ 10 by decide, by decide, rfl, rfl⟩

/-- A link that is no longer good is given up. -/
theorem shortCut_of_gone : ShortCut .memory justLearned shortKey ⟨2, 3⟩ 10 (fun _ ↦ 0)
    fun _ ↦ .ok ⟨0, 404, none, none, none, [], none⟩ :=
  (shortCut_iff .memory justLearned shortKey ⟨2, 3⟩ 10 ranged_short _ _).mpr
    (.inr (.inl ⟨_, rfl, by decide, by decide⟩))

/-- The host refuses the connection: the download fails that the service would have let succeed, and
the next window goes to the same host. -/
theorem refused_not_shortCut :
    ¬ ShortCut .memory justLearned shortKey ⟨2, 3⟩ 10 (fun _ ↦ 0)
        (fun _ ↦ .error ⟨.connectionRefused, none, "connection refused"⟩)
      ∧ (((namedOnce (fun _ ↦ 0) (fun _ ↦ .error ⟨.connectionRefused, none, "connection refused"⟩)
          ⟨2, 3⟩ 10).download .memory justLearned shortKey ⟨2, 3⟩ 10).state.fresh shortKey 0).1
        = some "https://h/x" := by
  refine ⟨fun h ↦ ?_, by decide +kernel⟩
  have hok := h.succeeds (namedOnce (fun _ ↦ 0)
    (fun _ ↦ .error ⟨.connectionRefused, none, "connection refused"⟩) ⟨2, 3⟩ 10)
    ⟨rfl, fun _ ↦ rfl⟩ (namedOnce_succeeds ranged_short)
  exact absurd hok (by decide +kernel)

/-! ## The download in a world -/

theorem resumeCopy_congr {tries tries' : ℕ → Try} {left slept : ℕ} {taken : List (List UInt8)}
    (h : ∀ j ≥ k, tries j = tries' j) : resumeCopy sink key span total tries left k slept l taken
      = resumeCopy sink key span total tries' left k slept l taken := by
  induction left generalizing k slept l taken with
  | zero => rw [resumeCopy, resumeCopy, h k (Nat.le_refl k)]
  | succ left ih =>
    rw [resumeCopy, resumeCopy, h k (Nat.le_refl k)]
    dsimp only
    split
    · rfl
    · split
      · rfl
      · rw [ih fun j hj ↦ h j (Nat.le_of_succ_le hj)]

/-- What a world answers along the way are the answers of one download. -/
theorem Hosts.exists_tries (w : Hosts) (left k slept : ℕ) (l : ContentLocations)
    (taken : List (List UInt8)) : ∃ tries,
      (resumeCopy sink key span total tries left k slept l taken).result
          = (resume 1 span.len (w.attempt sink key span total) left k slept l taken).result
        ∧ (resumeCopy sink key span total tries left k slept l taken).taken
          = (resume 1 span.len (w.attempt sink key span total) left k slept l taken).taken
        ∧ (resumeCopy sink key span total tries left k slept l taken).locations
          = (resume 1 span.len (w.attempt sink key span total) left k slept l taken).state := by
  induction left generalizing k slept l taken with
  | zero =>
    refine ⟨fun _ ↦ w.answers key k l, ?_⟩
    rw [resumeCopy, resume]
    dsimp only [Hosts.attempt]
    generalize settle span.len _ _ = settled
    cases settled <;> exact ⟨rfl, rfl, rfl⟩
  | succ left ih =>
    let a := Graph.attempt sink key span total taken.flatten.length l (w.answers key k l)
    cases hsettle : settle span.len (taken ++ a.copied.taken).flatten.length a.copied with
    | inl result =>
      refine ⟨fun _ ↦ w.answers key k l, ?_⟩
      rw [resumeCopy, resume]
      dsimp only [Hosts.attempt]
      rw [hsettle]
      exact ⟨rfl, rfl, rfl⟩
    | inr after =>
      obtain ⟨tries, hresult, htaken, hlocations⟩ := ih (k + 1) (slept + after.getD downloadBackoff)
        a.locations (taken ++ a.copied.taken)
      have hlater : ∀ j ≥ k + 1,
          (fun j ↦ if j = k then w.answers key k l else tries j) j = tries j :=
        fun j hj ↦ if_neg (Nat.ne_of_gt hj)
      refine ⟨fun j ↦ if j = k then w.answers key k l else tries j, ?_⟩
      rw [resumeCopy, resume]
      dsimp only [Hosts.attempt]
      rw [if_pos rfl, hsettle]
      dsimp only
      rw [Nat.mul_one, Nat.mul_one]
      split
      · rw [throttling, Nat.div_one, Nat.div_one]
        exact ⟨rfl, rfl, rfl⟩
      · rw [resumeCopy_congr hlater]
        exact ⟨hresult, htaken, hlocations⟩

/-- A download in a world is a download. -/
theorem Hosts.download_eq_downloadSpan (w : Hosts) (sink : Sink) (l : ContentLocations)
    (key : ObjectKey) (span : Span) (total : ℕ) : ∃ tries,
      (downloadSpan sink l key span total tries).result = (w.download sink l key span total).result
        ∧ (downloadSpan sink l key span total tries).taken
          = (w.download sink l key span total).taken
        ∧ (downloadSpan sink l key span total tries).locations
          = (w.download sink l key span total).state := by
  obtain ⟨tries, hresult, htaken, hlocations⟩ : ∃ tries,
      (resumeCopy sink key span total tries maxDownloadRetries 0 0 l []).result
          = (resume 1 span.len (w.attempt sink key span total) maxDownloadRetries 0 0 l []).result
        ∧ (resumeCopy sink key span total tries maxDownloadRetries 0 0 l []).taken
          = (resume 1 span.len (w.attempt sink key span total) maxDownloadRetries 0 0 l []).taken
        ∧ (resumeCopy sink key span total tries maxDownloadRetries 0 0 l []).locations
          = (resume 1 span.len (w.attempt sink key span total) maxDownloadRetries 0 0 l []).state :=
    w.exists_tries maxDownloadRetries 0 0 l []
  refine ⟨tries, ?_⟩
  rw [downloadSpan, download]
  split
  · exact ⟨rfl, rfl, rfl⟩
  · split
    · exact ⟨rfl, rfl, rfl⟩
    · exact ⟨hresult, htaken, hlocations⟩

end HydrationAPI.Graph
