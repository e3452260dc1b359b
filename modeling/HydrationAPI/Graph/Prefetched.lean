import HydrationAPI.Graph.Access

/-!
# Whose window a read is given

The ledger of the windows that were fetched ahead, with a tag on every entry: which read the window
was asked for, by the size and the content tag of its placeholder, and which of all the windows
asked for it is. The tags are erased where the ledger is compared with the code's, which knows a
window by its object, its offset and its length.

A window is returned at most once, and only under the offset and length it was fetched for. An
object that is replaced keeps its name, so that what was fetched of the version before is given to
a read of the version after.
-/

namespace HydrationAPI.Graph

/-- A window of an object, as one read or hint means it: by the size and the tag of the placeholder
that is being read. -/
structure Read where
  cloudId : String
  span : Span
  size : ℕ
  tag : Option String
  deriving DecidableEq

def Read.key (r : Read) : WindowKey := (r.cloudId, r.span.offset, r.span.len)

def Read.job (r : Read) : Job := (r.cloudId, r.span, r.size)

/-- A window that was asked for, counted among all of them. -/
structure Hinted where
  number : ℕ
  read : Read
  deriving DecidableEq

/-- A window that `take` returned, and the read it returned it to. -/
structure Given where
  asked : Hinted
  read : Read
  bytes : List UInt8
  deriving DecidableEq

/-- A `Prefetcher` whose entries tell what they were asked for. -/
structure Ledger where
  jobs : List Hinted
  inflight : List WindowKey
  done : List (Hinted × Except IoError (List UInt8))
  workers : ℕ → ContentLocations
  /-- How many windows have been asked for. -/
  made : ℕ
  /-- What has been returned. -/
  given : List Given

/-- What happens to a prefetcher. -/
inductive PrefetchEvent where
  | hint (r : Read)
  | work (w : Work)
  /-- The workers finish the jobs `ws` while it waits. -/
  | take (r : Read) (ws : List Work)

namespace Prefetcher

def step (p : Prefetcher) : PrefetchEvent → Prefetcher
  | .hint r => p.hint r.cloudId r.span r.size
  | .work w => (p.work w).1
  | .take r ws => (p.take r.cloudId r.span ws).2.1

end Prefetcher

namespace Ledger

def new : Ledger := ⟨[], [], [], fun _ ↦ .new, 0, []⟩

/-- The ledger of the code. -/
def prefetcher (l : Ledger) : Prefetcher :=
  ⟨l.jobs.map (·.read.job), l.inflight, l.done.map fun d ↦ (d.1.read.key, d.2), l.workers⟩

def work (l : Ledger) (w : Work) : Ledger :=
  match l.jobs[w.job]? with
  | none => l
  | some asked =>
    let (bytes, _, locations) := fetchWindow (l.workers w.worker) asked.read.job w.tries
    let l := { l with
      jobs := l.jobs.eraseIdx w.job
      workers := Function.update l.workers w.worker locations }
    if asked.read.key ∈ l.inflight then
      { l with
        inflight := l.inflight.filter (· ≠ asked.read.key)
        done := (asked, bytes) :: l.done.filter (·.1.read.key ≠ asked.read.key) }
    else l

def hint (l : Ledger) (r : Read) : Ledger :=
  if prefetchCeiling < r.span.len then l
  else if r.key ∈ l.inflight ∨ r.key ∈ l.done.map (·.1.read.key) then l
  else if prefetchDepth + 2 ≤ l.inflight.length + l.done.length then l
  else { l with
    inflight := l.inflight ++ [r.key]
    jobs := l.jobs ++ [⟨l.made, r⟩]
    made := l.made + 1 }

def await (r : Read) : Ledger → List Work → Ledger
  | l, ws =>
    match l.done.find? (·.1.read.key = r.key) with
    | some (asked, bytes) => { l with
        done := l.done.filter (·.1.read.key ≠ r.key)
        given := (bytes.toOption.map (Given.mk asked r)).toList ++ l.given }
    | none =>
      if r.key ∉ l.inflight then l
      else match ws with
        | [] => l
        | w :: ws => await r (l.work w) ws

/-- What is left of an object when a read turns to it. -/
def turnTo (l : Ledger) (cloudId : String) : Ledger :=
  { l with
    done := l.done.filter (·.1.read.cloudId = cloudId)
    inflight := l.inflight.filter (·.1 = cloudId) }

def take (l : Ledger) (r : Read) (ws : List Work) : Ledger := await r (l.turnTo r.cloudId) ws

def step (l : Ledger) : PrefetchEvent → Ledger
  | .hint r => l.hint r
  | .work w => l.work w
  | .take r ws => l.take r ws

def run : Ledger → List PrefetchEvent → Ledger := List.foldl step

/-- What has been returned was fetched for the reads it was returned to, once each, and no more is
held than the ledger is meant to hold. -/
structure Serves (l : Ledger) : Prop where
  /-- The object, the span, the size and the tag are those of the read. -/
  same : ∀ g ∈ l.given, g.asked.read = g.read
  fetched : ∀ g ∈ l.given, ∃ locations tries,
    (fetchWindow locations g.asked.read.job tries).1 = .ok g.bytes
  once : (l.given.map (·.asked.number)).Nodup
  bounded : l.inflight.length + l.done.length ≤ prefetchDepth + 2

/-- Nothing of this window is left that was asked for under another size or tag. -/
structure Undisturbed (l : Ledger) (r : Read) : Prop where
  done : ∀ d ∈ l.done, d.2.isOk = true → d.1.read.key = r.key → d.1.read = r
  jobs : r.key ∈ l.inflight → ∀ asked ∈ l.jobs, asked.read.key = r.key → asked.read = r

instance (l : Ledger) (r : Read) : Decidable (l.Undisturbed r) :=
  decidable_of_iff
    ((∀ d ∈ l.done, d.2.isOk = true → d.1.read.key = r.key → d.1.read = r)
      ∧ (r.key ∈ l.inflight → ∀ asked ∈ l.jobs, asked.read.key = r.key → asked.read = r))
    ⟨fun h ↦ ⟨h.1, h.2⟩, fun h ↦ ⟨h.done, h.jobs⟩⟩

/-- No window is taken of which something is left from another version. -/
def Kept (l : Ledger) : PrefetchEvent → Prop
  | .take r _ => l.Undisturbed r
  | _ => True

instance (l : Ledger) (e : PrefetchEvent) : Decidable (l.Kept e) :=
  match e with
  | .take r _ => inferInstanceAs (Decidable (l.Undisturbed r))
  | .hint _ => instDecidableTrue
  | .work _ => instDecidableTrue

/-- Every step of the run is so. -/
def KeptAll (l : Ledger) : List PrefetchEvent → Prop
  | [] => True
  | e :: es => l.Kept e ∧ (l.step e).KeptAll es

instance KeptAll.decidable : (l : Ledger) → (es : List PrefetchEvent) → Decidable (l.KeptAll es)
  | _, [] => instDecidableTrue
  | l, e :: es =>
    have := KeptAll.decidable (l.step e) es
    inferInstanceAs (Decidable (l.Kept e ∧ (l.step e).KeptAll es))

variable {l : Ledger}

/-! ## The tags erased -/

theorem lookup_done (k : WindowKey) : l.prefetcher.done.lookup k
    = (l.done.find? (·.1.read.key = k)).map Prod.snd := by
  rw [prefetcher]
  induction l.done with
  | nil => rfl
  | cons d rest ih =>
    dsimp only
    rw [List.map_cons, List.lookup_cons, List.find?_cons]
    by_cases hd : d.1.read.key = k
    · simp [hd]
    · have hne : (k == d.1.read.key) = false := beq_false_of_ne (Ne.symm hd)
      rw [hne, decide_eq_false hd]
      exact ih

theorem filter_done (P : WindowKey → Bool) :
    (l.done.filter fun d ↦ P d.1.read.key).map (fun d ↦ (d.1.read.key, d.2))
      = l.prefetcher.done.filter fun d ↦ P d.1 := by
  rw [prefetcher, List.filter_map]
  rfl

theorem prefetcher_work (l : Ledger) (w : Work) :
    (l.work w).prefetcher = (l.prefetcher.work w).1 := by
  have hjob : l.prefetcher.jobs[w.job]? = (l.jobs[w.job]?).map (·.read.job) :=
    List.getElem?_map ..
  rw [work, Prefetcher.work, hjob]
  cases l.jobs[w.job]? with
  | none => rfl
  | some asked =>
    have herase : (l.jobs.eraseIdx w.job).map (·.read.job)
        = l.prefetcher.jobs.eraseIdx w.job := (List.eraseIdx_map ..).symm
    dsimp only [Option.map_some]
    by_cases hin : asked.read.key ∈ l.inflight
    · have hin' : asked.read.job.key ∈ l.prefetcher.inflight := hin
      rw [if_pos hin, if_pos hin', prefetcher]
      dsimp only
      rw [List.map_cons, filter_done (· ≠ asked.read.key), herase]
      rfl
    · have hin' : asked.read.job.key ∉ l.prefetcher.inflight := hin
      rw [if_neg hin, if_neg hin', prefetcher]
      dsimp only
      rw [herase]
      rfl

theorem prefetcher_hint (l : Ledger) (r : Read) :
    (l.hint r).prefetcher = l.prefetcher.hint r.cloudId r.span r.size := by
  have hdone : l.prefetcher.done.map Prod.fst = l.done.map (·.1.read.key) :=
    List.map_map.trans rfl
  have hlength : l.prefetcher.done.length = l.done.length := List.length_map _
  have hkey : (r.cloudId, r.span.offset, r.span.len) = r.key := rfl
  have hinflight : l.prefetcher.inflight = l.inflight := rfl
  rw [hint, Prefetcher.hint, hdone, hlength, hkey, hinflight]
  split
  · rfl
  · split
    · rfl
    · split
      · rfl
      · rw [prefetcher]
        dsimp only
        rw [List.map_append]
        rfl

theorem given_work (l : Ledger) (w : Work) : (l.work w).given = l.given := by
  rw [work]
  split
  · rfl
  · dsimp only
    split <;> rfl

/-- The waiting loop returns what the code's returns, under its tag. -/
theorem prefetcher_await (r : Read) (l : Ledger) (ws : List Work) :
    (await r l ws).prefetcher = (Prefetcher.await r.key l.prefetcher ws).2.1
      ∧ (await r l ws).given.map Given.bytes
        = (Prefetcher.await r.key l.prefetcher ws).1.toList ++ l.given.map Given.bytes := by
  have hfound : ∀ {l : Ledger} {asked : Hinted} {bytes : Except IoError (List UInt8)},
      { l with
        done := l.done.filter (·.1.read.key ≠ r.key)
        given := (bytes.toOption.map (Given.mk asked r)).toList ++ l.given }.prefetcher
          = { l.prefetcher with done := l.prefetcher.done.filter (·.1 ≠ r.key) }
        ∧ ((bytes.toOption.map (Given.mk asked r)).toList ++ l.given).map Given.bytes
          = bytes.toOption.toList ++ l.given.map Given.bytes := by
    intro l asked bytes
    refine ⟨?_, ?_⟩
    · rw [prefetcher]
      dsimp only
      rw [filter_done (· ≠ r.key)]
      rfl
    · rw [List.map_append]
      cases bytes <;> rfl
  induction ws generalizing l with
  | nil =>
    rw [await, Prefetcher.await, lookup_done]
    cases l.done.find? (·.1.read.key = r.key) with
    | some d => exact hfound
    | none =>
      dsimp only [Option.map_none]
      have hinflight : l.prefetcher.inflight = l.inflight := rfl
      rw [hinflight]
      split <;> exact ⟨rfl, rfl⟩
  | cons w ws ih =>
    rw [await, Prefetcher.await, lookup_done]
    cases l.done.find? (·.1.read.key = r.key) with
    | some d => exact hfound
    | none =>
      dsimp only [Option.map_none]
      have hinflight : l.prefetcher.inflight = l.inflight := rfl
      rw [hinflight]
      split
      · exact ⟨rfl, rfl⟩
      · have hlater := ih (l.work w)
        rw [prefetcher_work, given_work] at hlater
        exact hlater

theorem prefetcher_turnTo (l : Ledger) (cloudId : String) : (l.turnTo cloudId).prefetcher
    = { l.prefetcher with
      done := l.prefetcher.done.filter (·.1.1 = cloudId)
      inflight := l.prefetcher.inflight.filter (·.1 = cloudId) } := by
  rw [turnTo, prefetcher]
  dsimp only
  have hdone := l.filter_done fun k ↦ decide (k.1 = cloudId)
  rw [← hdone]
  rfl

/-- **What is returned** is what the code returns. -/
theorem prefetcher_take (l : Ledger) (r : Read) (ws : List Work) :
    (l.take r ws).prefetcher = (l.prefetcher.take r.cloudId r.span ws).2.1
      ∧ (l.take r ws).given.map Given.bytes
        = (l.prefetcher.take r.cloudId r.span ws).1.toList ++ l.given.map Given.bytes := by
  have h := prefetcher_await r (l.turnTo r.cloudId) ws
  rw [prefetcher_turnTo] at h
  exact h

theorem prefetcher_step (l : Ledger) (e : PrefetchEvent) :
    (l.step e).prefetcher = l.prefetcher.step e := by
  cases e with
  | hint r => exact l.prefetcher_hint r
  | work w => exact l.prefetcher_work w
  | take r ws => exact (l.prefetcher_take r ws).1

theorem prefetcher_run (l : Ledger) (es : List PrefetchEvent) :
    (l.run es).prefetcher = es.foldl Prefetcher.step l.prefetcher := by
  induction es generalizing l with
  | nil => rfl
  | cons e es ih =>
    rw [run, List.foldl_cons, List.foldl_cons, ← prefetcher_step]
    exact ih (l.step e)

end Ledger

/-! ## The reads of a provider -/

/-- Ask for the windows that come next, as many as `n`. -/
def Read.ahead (r : Read) : ℕ → Option Span → List PrefetchEvent
  | 0, _ => []
  | _, none => []
  | n + 1, some next => .hint { r with span := next } :: r.ahead n (nextWindow next r.size)

/-- What a window of a sequential walk does to the prefetcher. -/
def Read.events (r : Read) (ws : List Work) : List PrefetchEvent :=
  .take r ws :: r.ahead prefetchDepth (nextWindow r.span r.size)

theorem Read.foldl_ahead (r : Read) (n : ℕ) (p : Prefetcher) (next : Option Span) :
    (r.ahead n next).foldl Prefetcher.step p = p.hintAhead r.cloudId r.size n next := by
  induction n generalizing p next with
  | zero => rfl
  | succ n ih =>
    cases next with
    | none => rfl
    | some next => exact ih _ _

/-- **Every window that a provider serves of a walk** is one step after the other of a run. -/
theorem GraphProvider.prefetch_ranged {p : GraphProvider} {l : Ledger}
    (hp : p.prefetch = l.prefetcher) (key : ObjectKey) (r : Read) (c : FetchCalls) :
    (p.ranged r.cloudId key r.span r.size c).provider.prefetch
      = (l.run (if r.span.offset = 0 ∨ p.lastWindow = some (r.cloudId, r.span.offset)
          then r.events c.works else [])).prefetcher := by
  rw [ranged]
  dsimp only
  by_cases hsequential : r.span.offset = 0 ∨ p.lastWindow = some (r.cloudId, r.span.offset)
  · have hrun : (l.run (r.events c.works)).prefetcher
        = (l.prefetcher.take r.cloudId r.span c.works).2.1.hintAhead r.cloudId r.size prefetchDepth
          (nextWindow r.span r.size) := by
      rw [Ledger.prefetcher_run, Read.events, List.foldl_cons, Read.foldl_ahead]
      rfl
    rw [if_neg (not_not.mpr hsequential), if_pos hsequential, hrun, ← hp]
    split
    · split <;> rfl
    · rfl
  · rw [if_pos hsequential, if_neg hsequential]
    exact hp

/-! ## An object that is replaced -/

/-- Four bytes of the first version, and of the one that replaces it. -/
def ofFirst (offset : ℕ) : Read := ⟨"d|i", ⟨offset, 4⟩, 12, some "ct:1"⟩

def ofSecond (offset : ℕ) : Read := ⟨"d|i", ⟨offset, 4⟩, 16, some "ct:2"⟩

/-- A worker is served a window of the first version. -/
def firstWindow : Work :=
  let moved := .ok ⟨0, 302, none, some "https://h", none, [], none⟩
  let window := .ok ⟨0, 206, none, none, some "bytes 4-7/12", [⟨[1, 1, 1, 1], none⟩], none⟩
  ⟨0, 0, fun _ ↦ ⟨0, moved, moved, window⟩⟩

/-- A walk through one version. -/
def walk : List PrefetchEvent := (ofFirst 0).events [] ++ (ofFirst 4).events [firstWindow]

/-- A walk that begins again when the object has been replaced. -/
def walkAgain : List PrefetchEvent :=
  (ofFirst 0).events [] ++ [.work firstWindow] ++ (ofSecond 0).events []
    ++ (ofSecond 4).events []

namespace Ledger

variable {l : Ledger} {r : Read} {e : PrefetchEvent} {es : List PrefetchEvent}

/-! ## What the ledger keeps to -/

/-- The numbers of all that may still be returned, or has been. -/
def numbers (l : Ledger) : List ℕ :=
  l.jobs.map Hinted.number ++ l.done.map (·.1.number) ++ l.given.map (·.asked.number)

/-- What is kept to whatever the reads are of. -/
structure Sound (l : Ledger) : Prop where
  below : ∀ n ∈ l.numbers, n < l.made
  distinct : l.numbers.Nodup
  results : ∀ d ∈ l.done, ∃ locations tries,
    (fetchWindow locations d.1.read.job tries).1 = d.2
  fetched : ∀ g ∈ l.given, ∃ locations tries,
    (fetchWindow locations g.asked.read.job tries).1 = .ok g.bytes
  keyed : ∀ g ∈ l.given, g.asked.read.key = g.read.key
  bounded : l.inflight.length + l.done.length ≤ prefetchDepth + 2

theorem sound_new : new.Sound where
  below := fun _ h ↦ nomatch h
  distinct := List.nodup_nil
  results := fun _ h ↦ nomatch h
  fetched := fun _ h ↦ nomatch h
  keyed := fun _ h ↦ nomatch h
  bounded := by decide

/-- A step that asks for nothing keeps to it where it loses, moves, or returns what there is. -/
theorem Sound.mono {l' : Ledger} (h : l.Sound) (hmade : l'.made = l.made)
    (hnumbers : l'.numbers.Subperm l.numbers)
    (hresults : ∀ d ∈ l'.done, d ∈ l.done ∨ ∃ locations tries,
      (fetchWindow locations d.1.read.job tries).1 = d.2)
    (hgiven : ∀ g ∈ l'.given, g ∈ l.given
      ∨ (g.asked, Except.ok g.bytes) ∈ l.done ∧ g.asked.read.key = g.read.key)
    (hbounded : l'.inflight.length + l'.done.length ≤ l.inflight.length + l.done.length) :
    l'.Sound := by
  obtain ⟨kept, hperm, hsub⟩ := id hnumbers
  constructor
  case below =>
    intro n hn
    rw [hmade]
    exact h.below n (hnumbers.subset hn)
  case distinct => exact hperm.nodup_iff.mp (hsub.nodup h.distinct)
  case results => exact fun d hd ↦ (hresults d hd).elim (h.results d) id
  case fetched =>
    intro g hg
    rcases hgiven g hg with hold | ⟨hdone, -⟩
    · exact h.fetched g hold
    · exact h.results (g.asked, .ok g.bytes) hdone
  case keyed => exact fun g hg ↦ (hgiven g hg).elim (h.keyed g) fun hdone ↦ hdone.2
  case bounded => exact hbounded.trans h.bounded

theorem Sound.work (h : l.Sound) (w : Work) : (l.work w).Sound := by
  rw [Ledger.work]
  cases hjob : l.jobs[w.job]? with
  | none => exact h
  | some asked =>
    obtain ⟨hlt, hasked⟩ := List.getElem?_eq_some_iff.mp hjob
    have hperm : ((asked :: l.jobs.eraseIdx w.job).map Hinted.number).Perm
        (l.jobs.map Hinted.number) := by
      rw [← hasked]
      exact (List.getElem_cons_eraseIdx_perm hlt).map _
    have hresult : ∃ locations tries, (fetchWindow locations asked.read.job tries).1
        = (fetchWindow (l.workers w.worker) asked.read.job w.tries).1 := ⟨_, _, rfl⟩
    dsimp only
    by_cases hin : asked.read.key ∈ l.inflight
    · rw [if_pos hin]
      refine h.mono rfl ?_ ?_ (fun g hg ↦ Or.inl hg) ?_
      · -- the job is counted among what is fetched now
        let rest := (l.done.filter (·.1.read.key ≠ asked.read.key)).map (·.1.number)
        have hmoved : ((l.jobs.eraseIdx w.job).map Hinted.number ++ asked.number :: rest).Perm
            ((asked :: l.jobs.eraseIdx w.job).map Hinted.number ++ rest) := List.perm_middle
        have hless : rest.Subperm (l.done.map (·.1.number)) :=
          (List.filter_sublist.map _).subperm
        exact (hmoved.subperm.trans (hperm.subperm.append hless)).append (List.Subperm.refl _)
      · intro d hd
        rcases List.mem_cons.mp hd with rfl | hd
        · exact Or.inr hresult
        · exact Or.inl (List.mem_of_mem_filter hd)
      · have hfewer : (l.inflight.filter (· ≠ asked.read.key)).length < l.inflight.length :=
          List.length_filter_lt_length_iff_exists.mpr ⟨_, hin, by simp⟩
        have hless := List.length_filter_le (fun d ↦ decide (d.1.read.key ≠ asked.read.key)) l.done
        dsimp only
        rw [List.length_cons]
        omega
    · rw [if_neg hin]
      refine h.mono rfl ?_ (fun d hd ↦ Or.inl hd) (fun g hg ↦ Or.inl hg) (Nat.le_refl _)
      have hless : ((l.jobs.eraseIdx w.job).map Hinted.number).Subperm
          (l.jobs.map Hinted.number) := ((List.eraseIdx_sublist _ _).map _).subperm
      exact (hless.append (List.Subperm.refl _)).append (List.Subperm.refl _)

theorem Sound.turnTo (h : l.Sound) (cloudId : String) : (l.turnTo cloudId).Sound := by
  refine h.mono rfl ?_ (fun d hd ↦ Or.inl (List.mem_of_mem_filter hd)) (fun g hg ↦ Or.inl hg)
    (Nat.add_le_add (List.length_filter_le ..) (List.length_filter_le ..))
  have hless : ((l.done.filter (·.1.read.cloudId = cloudId)).map (·.1.number)).Subperm
      (l.done.map (·.1.number)) := (List.filter_sublist.map _).subperm
  exact ((List.Subperm.refl _).append hless).append (List.Subperm.refl _)

/-- Returning a window takes it out of the ledger. -/
theorem Sound.found (h : l.Sound) {asked : Hinted} {bytes : Except IoError (List UInt8)}
    (hfound : l.done.find? (·.1.read.key = r.key) = some (asked, bytes)) :
    { l with
      done := l.done.filter (·.1.read.key ≠ r.key)
      given := (bytes.toOption.map (Given.mk asked r)).toList ++ l.given }.Sound := by
  have hkey : asked.read.key = r.key := by simpa using List.find?_some hfound
  have hmem : (asked, bytes) ∈ l.done := List.mem_of_find?_eq_some hfound
  refine h.mono rfl ?_ (fun d hd ↦ Or.inl (List.mem_of_mem_filter hd)) ?_
    (Nat.add_le_add_left (List.length_filter_le ..) _)
  · have hone : [(asked, bytes)].Sublist (l.done.filter (·.1.read.key = r.key)) :=
      List.singleton_sublist.mpr (List.mem_filter.mpr ⟨hmem, by simpa using hkey⟩)
    have hparts : ((l.done.filter (·.1.read.key = r.key))
        ++ l.done.filter (·.1.read.key ≠ r.key)).Perm l.done := by
      simpa using List.filter_append_perm (fun d ↦ decide (d.1.read.key = r.key)) l.done
    have hrest : ((l.done.filter (·.1.read.key ≠ r.key)).map (·.1.number)
        ++ ((bytes.toOption.map (Given.mk asked r)).toList).map (·.asked.number)).Subperm
        (l.done.map (·.1.number)) := by
      have hall : (asked.number :: (l.done.filter (·.1.read.key ≠ r.key)).map
          (·.1.number)).Subperm (l.done.map (·.1.number)) :=
        ((hone.append (List.Sublist.refl _)).map fun d : Hinted × _ ↦ d.1.number).subperm.trans
          (hparts.map _).subperm
      cases bytes with
      | error e =>
        refine (List.Sublist.subperm ?_).trans hall
        exact (List.append_nil _).symm ▸ List.sublist_cons_self ..
      | ok bytes => exact (List.perm_append_singleton ..).subperm.trans hall
    have hnumbers := ((List.Subperm.refl (l.jobs.map Hinted.number)).append hrest).append
      (List.Subperm.refl (l.given.map (·.asked.number)))
    rw [numbers, numbers, List.map_append]
    simpa only [List.append_assoc] using hnumbers
  · intro g hg
    rcases List.mem_append.mp hg with hg | hg
    · cases bytes with
      | error e => cases hg
      | ok bytes =>
        obtain rfl := List.mem_singleton.mp hg
        exact Or.inr ⟨hmem, hkey⟩
    · exact Or.inl hg

theorem Sound.await (h : l.Sound) (r : Read) (ws : List Work) : (l.await r ws).Sound := by
  induction ws generalizing l with
  | nil =>
    rw [Ledger.await]
    cases hfound : l.done.find? (·.1.read.key = r.key) with
    | some d => exact h.found hfound
    | none =>
      dsimp only
      split <;> exact h
  | cons w ws ih =>
    rw [Ledger.await]
    cases hfound : l.done.find? (·.1.read.key = r.key) with
    | some d => exact h.found hfound
    | none =>
      dsimp only
      split
      · exact h
      · exact ih (h.work w)

theorem Sound.hint (h : l.Sound) (r : Read) : (l.hint r).Sound := by
  rw [Ledger.hint]
  split
  · exact h
  · split
    · exact h
    · split
      · exact h
      · rename_i hroom
        have hmoved : ((l.jobs ++ [(⟨l.made, r⟩ : Hinted)]).map Hinted.number
            ++ l.done.map (·.1.number) ++ l.given.map (·.asked.number)).Perm
            (l.made :: l.numbers) := by
          rw [List.map_append, List.append_assoc, List.append_assoc, numbers, List.append_assoc]
          exact List.perm_middle
        constructor
        case below =>
          intro n hn
          rcases List.mem_cons.mp (hmoved.subset hn) with rfl | hn
          · exact Nat.lt_succ_self _
          · exact Nat.lt_succ_of_lt (h.below n hn)
        case distinct =>
          refine hmoved.nodup_iff.mpr (List.nodup_cons.mpr ⟨fun hmem ↦ ?_, h.distinct⟩)
          exact Nat.lt_irrefl _ (h.below _ hmem)
        case results => exact h.results
        case fetched => exact h.fetched
        case keyed => exact h.keyed
        case bounded =>
          dsimp only
          rw [List.length_append, List.length_singleton]
          omega

theorem Sound.step (h : l.Sound) (e : PrefetchEvent) : (l.step e).Sound := by
  cases e with
  | hint r => exact h.hint r
  | work w => exact h.work w
  | take r ws => exact (h.turnTo r.cloudId).await r ws

theorem Sound.run (h : l.Sound) (es : List PrefetchEvent) : (l.run es).Sound := by
  induction es generalizing l with
  | nil => exact h
  | cons e es ih => exact ih (h.step e)

/-! ## What is returned to a read -/

/-- All that has been returned was asked for by the reads it was returned to. -/
def Exact (l : Ledger) : Prop := ∀ g ∈ l.given, g.asked.read = g.read

theorem given_hint (l : Ledger) (r : Read) : (l.hint r).given = l.given := by
  rw [hint]
  split
  · rfl
  · split
    · rfl
    · split <;> rfl

/-- While a window is awaited nothing is added to what is left of it but what came of its jobs. -/
theorem Undisturbed.work (h : l.Undisturbed r) (w : Work) : (l.work w).Undisturbed r := by
  rw [Ledger.work]
  cases hjob : l.jobs[w.job]? with
  | none => exact h
  | some asked =>
    dsimp only
    have hrest : ∀ a ∈ l.jobs.eraseIdx w.job, a ∈ l.jobs := fun a ha ↦ List.mem_of_mem_eraseIdx ha
    by_cases hin : asked.read.key ∈ l.inflight
    · rw [if_pos hin]
      constructor
      case done =>
        intro d hmem hok hkey
        rcases List.mem_cons.mp hmem with rfl | hmem
        · exact h.jobs (hkey ▸ hin) asked (List.mem_of_getElem? hjob) hkey
        · exact h.done d (List.mem_of_mem_filter hmem) hok hkey
      case jobs =>
        exact fun hflight a ha ↦ h.jobs (List.mem_of_mem_filter hflight) a (hrest a ha)
    · rw [if_neg hin]
      exact ⟨h.done, fun hflight a ha ↦ h.jobs hflight a (hrest a ha)⟩

theorem Undisturbed.turnTo (h : l.Undisturbed r) (cloudId : String) :
    (l.turnTo cloudId).Undisturbed r where
  done d hmem := h.done d (List.mem_of_mem_filter hmem)
  jobs hflight := h.jobs (List.mem_of_mem_filter hflight)

theorem Exact.await (h : l.Exact) (hr : l.Undisturbed r) (ws : List Work) :
    (l.await r ws).Exact := by
  have hreturned : ∀ {l : Ledger} {asked : Hinted} {bytes : Except IoError (List UInt8)},
      l.Exact → l.Undisturbed r →
      l.done.find? (·.1.read.key = r.key) = some (asked, bytes) →
        ∀ g ∈ (bytes.toOption.map (Given.mk asked r)).toList ++ l.given,
          g.asked.read = g.read := by
    intro l asked bytes h hr hfound g hg
    have hkey : asked.read.key = r.key := by simpa using List.find?_some hfound
    rcases List.mem_append.mp hg with hg | hg
    · cases bytes with
      | error e => cases hg
      | ok bytes =>
        obtain rfl := List.mem_singleton.mp hg
        exact hr.done (asked, .ok bytes) (List.mem_of_find?_eq_some hfound) rfl hkey
    · exact h g hg
  induction ws generalizing l with
  | nil =>
    rw [Ledger.await]
    cases hfound : l.done.find? (·.1.read.key = r.key) with
    | some d => exact hreturned h hr hfound
    | none =>
      dsimp only
      split <;> exact h
  | cons w ws ih =>
    rw [Ledger.await]
    cases hfound : l.done.find? (·.1.read.key = r.key) with
    | some d => exact hreturned h hr hfound
    | none =>
      dsimp only
      split
      · exact h
      · refine ih (fun g hg ↦ h g ?_) (hr.work w)
        rwa [given_work] at hg

theorem Exact.step (h : l.Exact) (hkept : l.Kept e) : (l.step e).Exact := by
  cases e with
  | hint r => exact fun g hg ↦ h g (given_hint l r ▸ hg)
  | work w => exact fun g hg ↦ h g (given_work l w ▸ hg)
  | take r ws =>
    have hturned : (l.turnTo r.cloudId).Exact := h
    exact hturned.await (Undisturbed.turnTo hkept r.cloudId) ws

theorem Exact.run (h : l.Exact) (hkept : l.KeptAll es) : (l.run es).Exact := by
  induction es generalizing l with
  | nil => exact h
  | cons e es ih => exact ih (h.step hkept.1) hkept.2

theorem KeptAll.take (h : l.KeptAll es) (n : ℕ) : l.KeptAll (es.take n) := by
  induction es generalizing l n with
  | nil => rwa [List.take_nil]
  | cons e es ih =>
    cases n with
    | zero => trivial
    | succ n => exact ⟨h.1, ih h.2 n⟩

/-- **A prefetcher serves what the present read may use**, in every state that a run reaches in
which no window is taken while something of it is left that was asked for under another size or
tag. -/
theorem serves_run (es : List PrefetchEvent) (hkept : new.KeptAll es) (n : ℕ) :
    (new.run (es.take n)).Serves := by
  have hsound := sound_new.run (es.take n)
  have hexact : new.Exact := fun _ h ↦ nomatch h
  constructor
  case same => exact hexact.run (hkept.take n)
  case fetched => exact hsound.fetched
  case once =>
    have hparts := hsound.distinct
    rw [numbers, List.nodup_append] at hparts
    exact hparts.2.1
  case bounded => exact hsound.bounded

/-- The second window of the walk was fetched ahead. -/
theorem serves_walk : (new.run (walk.take 6)).Serves :=
  serves_run walk (by decide +kernel) 6

/-- The walk that begins again is given a window of the version before. -/
theorem walkAgain_not_serves : ¬ (new.run walkAgain).Serves := by
  intro h
  have hgiven : (new.run walkAgain).given
      = [⟨⟨0, ofFirst 4⟩, ofSecond 4, [1, 1, 1, 1]⟩] := by decide +kernel
  have hsame : ofFirst 4 = ofSecond 4 :=
    h.same ⟨⟨0, ofFirst 4⟩, ofSecond 4, [1, 1, 1, 1]⟩ (by rw [hgiven]; exact List.mem_cons_self)
  exact absurd hsame (by decide)

end Ledger

end HydrationAPI.Graph
