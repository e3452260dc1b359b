import HydrationAPI.Graph.Batch

/-!
# What a round may ask for

A pass counts the pages it requests and remembers the links it has followed; it gives up at the
ceiling, and at a link that a page sends it to for the second time. A link that is stored is
followed without having been looked for, and a pass that begins again from nothing counts from
nothing: what is kept to is the ceiling of the pass, not that of the round.
-/

namespace HydrationAPI.Graph.GraphDiscover

/-- The link that is followed. -/
def Fetch.link : Fetch → Option String
  | .first _ => none
  | .next link | .resume link => some link

/-! ## What a log shows -/

/-- The pages that have been requested, the latest first, each with how many times. What is asked
after a wait is asked again. -/
def requested : List Event → List (Fetch × ℕ)
  | [] => []
  | .slept _ :: log => requested log
  | .asked what :: log =>
    match log, requested log with
    | .slept _ :: _, (_, n) :: pages => (what, n + 1) :: pages
    | _, pages => (what, 1) :: pages

/-- The links that have been followed. -/
def followed (log : List Event) : List String := (requested log).filterMap (·.1.link)

/-- Nothing is being waited for. -/
def Settled : List Event → Prop
  | .slept _ :: _ => False
  | _ => True

section Fetch

variable {source : PageSource} {what : Fetch} {log : List Event} {retries n : ℕ}
  {pages : List (Fetch × ℕ)}

theorem requested_asked (h : Settled log) :
    requested (.asked what :: log) = (what, 1) :: requested log := by
  rcases log with _ | ⟨_ | seconds, log⟩
  · rfl
  · rfl
  · exact h.elim

theorem requested_fetch_of (h : requested (.asked what :: log) = (what, n) :: pages) :
    ∃ m ≤ n + retries, requested (fetch source what retries log).2 = (what, m) :: pages
      ∧ Settled (fetch source what retries log).2 := by
  induction retries generalizing log n with
  | zero =>
    unfold fetch
    split <;> exact ⟨n, le_rfl, h, trivial⟩
  | succ retries ih =>
    unfold fetch
    split
    · exact ⟨n, Nat.le_add_right n _, h, trivial⟩
    · exact ⟨n, Nat.le_add_right n _, h, trivial⟩
    · rename_i retryAfter _
      -- the page has been requested once more
      have hagain : requested (.asked what :: .slept (retryAfter.getD blindBackoff)
          :: .asked what :: log) = (what, n + 1) :: pages := by
        have hwait : requested (.slept (retryAfter.getD blindBackoff) :: .asked what :: log)
            = (what, n) :: pages := h
        rw [requested.eq_def]
        dsimp only
        rw [hwait]
      obtain ⟨m, hm, hrequested⟩ := ih hagain
      exact ⟨m, by omega, hrequested⟩

/-- **One page is requested**, and no more often than it may be throttled. -/
theorem requested_fetch (source : PageSource) (what : Fetch) (retries : ℕ) (h : Settled log) :
    ∃ m ≤ 1 + retries, requested (fetch source what retries log).2 = (what, m) :: requested log
      ∧ Settled (fetch source what retries log).2 :=
  requested_fetch_of (requested_asked h)

theorem followed_fetch (h : Settled log) :
    followed (fetch source what retries log).2 = what.link.toList ++ followed log := by
  obtain ⟨m, -, hrequested, -⟩ := requested_fetch source what retries h
  rw [followed, hrequested, List.filterMap_cons]
  cases what <;> rfl

/-- Only a resume can be too old. -/
theorem fetch_resync {log' : List Event}
    (h : fetch source what retries log = (.error .resync, log')) : ∃ link, what = .resume link := by
  have hjudge {page : Except EnvelopeError DeltaPage} (hpage : judge what page = .error .resync) :
      ∃ link, what = .resume link := by
    unfold judge at hpage
    split at hpage
    · cases hpage
    · split at hpage
      · exact ⟨_, rfl⟩
      · cases hpage
    · cases hpage
  induction retries generalizing log with
  | zero =>
    unfold fetch at h
    split at h
    · cases h
    · exact hjudge (Prod.mk.inj h).1
    · cases h
  | succ retries ih =>
    unfold fetch at h
    split at h
    · cases h
    · exact hjudge (Prod.mk.inj h).1
    · exact ih h

end Fetch

/-! ## What a pass requests -/

/-- A page as it is about to be requested, with the links its pass has visited before. -/
structure Request where
  scope : DriveScope
  what : Fetch
  log : List Event
  visited : List String

/-- The feed of the drive ends with this link. -/
def Request.Ends (r : Request) (source : PageSource) (link : String) : Prop :=
  ∃ page, (fetch source r.what maxThrottleRetries r.log).1 = .ok page ∧ page.pageEnd = .done link

namespace Pass

section Turn

variable (source : PageSource) (stored : StoredView) (enumerate : Bool)

/-- What a page comes to: the pass has ended, or goes on with a request. -/
def turn (p : Pass) (scope : DriveScope) (page : DeltaPage) :
    Except Fault (Pass × Option (DriveScope × Fetch)) :=
  let p := p.feed stored enumerate scope page
  match page.pageEnd with
  | .done link =>
    if ¬ onTheGraphEndpoint link then .error (.io (foreignLink link))
    else
      let p := p.close scope link
      match p.queue[p.entered]? with
      | none => .ok (p, none)
      | some scope => .ok ({ p with entered := p.entered + 1 }.enter stored enumerate scope,
          some (scope, entry stored enumerate scope))
  | .more link =>
    if ¬ onTheGraphEndpoint link then .error (.io (foreignLink link))
    else if link ∈ p.visited then .error (.io (invalidData s!"the feed looped back to {link}"))
    else .ok ({ p with visited := link :: p.visited }, some (scope, .next link))

/-- The pages a pass requests. -/
def requests : ℕ → List String → Pass → DriveScope → Fetch → List Event → List Request
  | 0, _, _, _, _, _ => []
  | pages + 1, visited, p, scope, what, log =>
    ⟨scope, what, log, visited⟩ :: match fetch source what maxThrottleRetries log with
      | (.error _, _) => []
      | (.ok page, log) =>
        match p.turn stored enumerate scope page with
        | .ok (p', some (scope, what)) => requests pages p.visited p' scope what log
        | _ => []

end Turn

variable {source : PageSource} {stored : StoredView} {enumerate : Bool} {what : Fetch}
  {scope : DriveScope} {log : List Event} {p p' : Pass} {pages : ℕ} {visited : List String}

/-- A page is requested, and the reply is turned to. -/
theorem run_succ : run source stored enumerate (pages + 1) p scope what log =
    match fetch source what maxThrottleRetries log with
    | (.error fault, log) => (.error fault, log)
    | (.ok page, log) =>
      match p.turn stored enumerate scope page with
      | .error fault => (.error fault, log)
      | .ok (p, none) => (.ok p, log)
      | .ok (p, some (scope, what)) => run source stored enumerate pages p scope what log := by
  rw [run]
  rcases fetch source what maxThrottleRetries log with ⟨fault | page, log'⟩
  · rfl
  · dsimp only
    rw [turn]
    rcases page.pageEnd with link | link
    · dsimp only
      split_ifs <;> rfl
    · dsimp only
      split_ifs
      · generalize (p.feed stored enumerate scope page).close scope link = closed
        cases closed.queue[closed.entered]? <;> rfl
      · rfl

theorem feed_visited (stored : StoredView) (enumerate : Bool) (p : Pass) (scope : DriveScope)
    (page : DeltaPage) :
    (p.feed stored enumerate scope page).visited = p.visited
      ∧ (p.feed stored enumerate scope page).tokens = p.tokens := by
  unfold feed
  split <;> exact ⟨rfl, rfl⟩

theorem entry_ne_next (link : String) : entry stored enumerate scope ≠ .next link := by
  unfold entry
  split <;> exact nofun

theorem enter_visited (p : Pass) (scope : DriveScope) :
    (p.enter stored enumerate scope).visited
        = (entry stored enumerate scope).link.toList ++ p.visited
      ∧ (p.enter stored enumerate scope).tokens = p.tokens := by
  unfold enter
  split
  · rename_i link hentry
    rw [hentry]
    exact ⟨rfl, rfl⟩
  · rename_i hentry
    refine ⟨?_, rfl⟩
    rcases hfetch : entry stored enumerate scope with _ | link | link
    · rfl
    · exact absurd hfetch (entry_ne_next link)
    · exact absurd hfetch (hentry link)

/-- What comes next is a link that has not been visited, or the entry to a drive. -/
theorem turn_visited {page : DeltaPage} {scope' : DriveScope} {what' : Fetch}
    (h : p.turn stored enumerate scope page = .ok (p', some (scope', what'))) :
    p'.visited = what'.link.toList ++ p.visited
      ∧ ((∃ link, what' = .next link ∧ link ∉ p.visited)
        ∨ what' = entry stored enumerate scope') := by
  have hfeed := (feed_visited stored enumerate p scope page).1
  unfold turn at h
  dsimp only at h
  split at h
  · split at h
    · cases h
    · split at h
      · cases h
      · cases h
        exact ⟨(enter_visited _ _).1.trans (congrArg _ hfeed), Or.inr rfl⟩
  · split at h
    · cases h
    · split at h
      · cases h
      · rename_i hnot
        cases h
        exact ⟨congrArg _ hfeed, Or.inl ⟨_, rfl, hfeed ▸ hnot⟩⟩

/-- A token is set by the page that ends the feed of its drive. -/
theorem turn_tokens {page : DeltaPage} {next : Option (DriveScope × Fetch)}
    (h : p.turn stored enumerate scope page = .ok (p', next)) :
    p'.tokens = p.tokens
      ∨ ∃ link, page.pageEnd = .done link ∧ p'.tokens = p.tokens.set scope.drive link := by
  have hfeed := (feed_visited stored enumerate p scope page).2
  have hclose (link : String) : ((p.feed stored enumerate scope page).close scope link).tokens
      = p.tokens.set scope.drive link := congrArg (·.set scope.drive link) hfeed
  unfold turn at h
  dsimp only at h
  split at h
  · rename_i link hend
    split at h
    · cases h
    · split at h
      · cases h
        exact Or.inr ⟨link, hend, hclose link⟩
      · cases h
        exact Or.inr ⟨link, hend, (enter_visited _ _).2.trans (hclose link)⟩
  · split at h
    · cases h
    · split at h
      · cases h
      · cases h
        exact Or.inl hfeed

theorem turn_ne_resync {page : DeltaPage} {fault : Fault}
    (h : p.turn stored enumerate scope page = .error fault) :
    (.error fault : Except Fault Pass) ≠ .error .resync := by
  unfold turn at h
  dsimp only at h
  split at h
  · split at h
    · cases h
      exact nofun
    · split at h <;> cases h
  · split at h
    · cases h
      exact nofun
    · split at h <;> cases h
      exact nofun

/-- A pass ends with the page it requests, or goes on from it. -/
theorem run_cases (source : PageSource) (stored : StoredView) (enumerate : Bool) (pages : ℕ)
    (visited : List String) (p : Pass) (scope : DriveScope) (what : Fetch) (log : List Event) :
    (∃ result, run source stored enumerate (pages + 1) p scope what log
        = (result, (fetch source what maxThrottleRetries log).2)
      ∧ requests source stored enumerate (pages + 1) visited p scope what log
        = [⟨scope, what, log, visited⟩]
      ∧ (∀ p', result = .ok p' → ∃ page, (fetch source what maxThrottleRetries log).1 = .ok page
        ∧ p.turn stored enumerate scope page = .ok (p', none))
      ∧ (result = .error .resync →
        (fetch source what maxThrottleRetries log).1 = .error .resync))
    ∨ ∃ page p' scope' what', (fetch source what maxThrottleRetries log).1 = .ok page
      ∧ p.turn stored enumerate scope page = .ok (p', some (scope', what'))
      ∧ run source stored enumerate (pages + 1) p scope what log
        = run source stored enumerate pages p' scope' what'
          (fetch source what maxThrottleRetries log).2
      ∧ requests source stored enumerate (pages + 1) visited p scope what log
        = ⟨scope, what, log, visited⟩ :: requests source stored enumerate pages p.visited p' scope'
          what' (fetch source what maxThrottleRetries log).2 := by
  rw [run_succ, requests]
  rcases fetch source what maxThrottleRetries log with ⟨fault | page, log'⟩
  · exact Or.inl ⟨_, rfl, rfl, fun _ h ↦ (by cases h), fun h ↦ congrArg _ (Except.error.inj h)⟩
  dsimp only
  rcases hturn : p.turn stored enumerate scope page with fault | ⟨p', _ | ⟨scope', what'⟩⟩
  · refine Or.inl ⟨_, rfl, rfl, fun _ h ↦ (by cases h), fun h ↦ ?_⟩
    exact absurd h (turn_ne_resync hturn)
  · refine Or.inl ⟨_, rfl, rfl, fun p'' h ↦ ?_, nofun⟩
    exact ⟨page, rfl, Except.ok.inj h ▸ hturn⟩
  · exact Or.inr ⟨page, p', scope', what', rfl, hturn, rfl, rfl⟩

/-! ### From page to page -/

/-- **What each page adds to a log** a pass adds to it. -/
theorem run_iff {P : List Event → Prop} {Q : Request → Prop}
    (visited : List String) (hpage : ∀ r : Request, Settled r.log →
      (P (fetch source r.what maxThrottleRetries r.log).2 ↔ P r.log ∧ Q r)) (h : Settled log) :
    P (run source stored enumerate pages p scope what log).2
      ↔ P log ∧ ∀ r ∈ requests source stored enumerate pages visited p scope what log, Q r := by
  induction pages generalizing visited p scope what log with
  | zero =>
    rw [run, requests]
    exact (and_iff_left (List.forall_mem_nil Q)).symm
  | succ pages ih =>
    have hone := hpage ⟨scope, what, log, visited⟩ h
    obtain ⟨-, -, -, hsettled⟩ := requested_fetch source what maxThrottleRetries h
    rcases run_cases source stored enumerate pages visited p scope what log with
      ⟨result, hrun, hrequests, -⟩ | ⟨page, p', scope', what', -, -, hrun, hrequests⟩
    · rw [hrun, hrequests, hone, List.forall_mem_singleton]
    · rw [hrun, hrequests, ih p.visited hsettled, hone, List.forall_mem_cons, and_assoc]

theorem settled_run (h : Settled log) :
    Settled (run source stored enumerate pages p scope what log).2 := by
  refine (run_iff (P := Settled) (Q := fun _ ↦ True) [] (fun r hr ↦ ?_) h).mpr
    ⟨h, fun _ _ ↦ trivial⟩
  obtain ⟨-, -, -, hsettled⟩ := requested_fetch source r.what maxThrottleRetries hr
  exact iff_of_true hsettled ⟨hr, trivial⟩

theorem requested_run_le (h : Settled log) :
    (requested (run source stored enumerate pages p scope what log).2).length
      ≤ (requested log).length + pages := by
  induction pages generalizing p scope what log with
  | zero => exact le_rfl
  | succ pages ih =>
    obtain ⟨m, -, hrequested, hsettled⟩ := requested_fetch source what maxThrottleRetries h
    have hone : (requested (fetch source what maxThrottleRetries log).2).length
        = (requested log).length + 1 := by
      rw [hrequested, List.length_cons]
    rcases run_cases source stored enumerate pages [] p scope what log with
      ⟨result, hrun, -⟩ | ⟨page, p', scope', what', -, -, hrun, -⟩
    · rw [hrun, hone]
      omega
    · rw [hrun]
      have hrest := @ih what' scope' _ p' hsettled
      omega

/-- No request of a pass is made again more often than it may be throttled. -/
theorem retries_run (h : Settled log)
    (hretries : ∀ r ∈ requested log, r.2 ≤ 1 + maxThrottleRetries) :
    ∀ r ∈ requested (run source stored enumerate pages p scope what log).2,
      r.2 ≤ 1 + maxThrottleRetries := by
  refine (run_iff (P := fun log ↦ ∀ r ∈ requested log, r.2 ≤ 1 + maxThrottleRetries)
    (Q := fun _ ↦ True) [] (fun r hr ↦ ?_) h).mpr ⟨hretries, fun _ _ ↦ trivial⟩
  obtain ⟨m, hm, hrequested, -⟩ := requested_fetch source r.what maxThrottleRetries hr
  rw [hrequested, List.forall_mem_cons, and_true, and_iff_right hm]

/-- The ceiling is kept to if and only if it has not been reached at any request. -/
theorem budget_run_iff {ceiling : ℕ} (h : Settled log) :
    (requested (run source stored enumerate pages p scope what log).2).length ≤ ceiling
      ↔ (requested log).length ≤ ceiling
        ∧ ∀ r ∈ requests source stored enumerate pages visited p scope what log,
          (requested r.log).length < ceiling := by
  refine run_iff (P := fun log ↦ (requested log).length ≤ ceiling)
    (Q := fun r ↦ (requested r.log).length < ceiling) visited (fun r hr ↦ ?_) h
  obtain ⟨m, -, hrequested, -⟩ := requested_fetch source r.what maxThrottleRetries hr
  rw [hrequested, List.length_cons]
  omega

/-- No link is followed twice if and only if none had been followed at any request for it. -/
theorem nodup_run_iff (h : Settled log) :
    (followed (run source stored enumerate pages p scope what log).2).Nodup
      ↔ (followed log).Nodup
        ∧ ∀ r ∈ requests source stored enumerate pages visited p scope what log,
          ∀ link, r.what.link = some link → link ∉ followed r.log := by
  refine run_iff (P := fun log ↦ (followed log).Nodup)
    (Q := fun r ↦ ∀ link, r.what.link = some link → link ∉ followed r.log) visited (fun r hr ↦ ?_) h
  rw [followed_fetch hr]
  cases r.what.link with
  | none => simp
  | some link => simp [and_comm]

/-- **What a pass has visited** is what it has followed since it began, and it looks for a link of
a page among it. -/
theorem visited_of_mem_requests {before : List String} {r : Request} (h : Settled log)
    (hvisited : p.visited = what.link.toList ++ visited) (hlog : followed log = visited ++ before)
    (hwhat : (∃ link, what = .next link ∧ link ∉ visited) ∨ what = entry stored enumerate scope)
    (hr : r ∈ requests source stored enumerate pages visited p scope what log) :
    followed r.log = r.visited ++ before
      ∧ ((∃ link, r.what = .next link ∧ link ∉ r.visited)
        ∨ r.what = entry stored enumerate r.scope) := by
  induction pages generalizing visited p scope what log with
  | zero => exact (List.not_mem_nil hr).elim
  | succ pages ih =>
    obtain ⟨-, -, -, hsettled⟩ := requested_fetch source what maxThrottleRetries h
    rcases run_cases source stored enumerate pages visited p scope what log with
      ⟨result, -, hrequests, -⟩ | ⟨page, p', scope', what', -, hturn, -, hrequests⟩
    · rw [hrequests] at hr
      rw [List.mem_singleton.mp hr]
      exact ⟨hlog, hwhat⟩
    · rw [hrequests] at hr
      rcases List.mem_cons.mp hr with rfl | hr
      · exact ⟨hlog, hwhat⟩
      · obtain ⟨hvisited', hwhat'⟩ := turn_visited hturn
        refine ih hsettled hvisited' ?_ hwhat' hr
        rw [followed_fetch h, hvisited, hlog, List.append_assoc]

/-- A token is that of a drive whose feed has come to its end. -/
theorem tokens_run (visited : List String) {drive : DriveId} {link : String} {log' : List Event}
    (hrun : run source stored enumerate pages p scope what log = (.ok p', log'))
    (h : p'.tokens.get drive = some link) :
    p.tokens.get drive = some link
      ∨ ∃ r ∈ requests source stored enumerate pages visited p scope what log,
        r.scope.drive = drive ∧ r.Ends source link := by
  induction pages generalizing visited p scope what log with
  | zero => cases hrun
  | succ pages ih =>
    -- the page that has just been read may have set it
    have hset {page : DeltaPage} {q : Pass} {next : Option (DriveScope × Fetch)}
        (hpage : (fetch source what maxThrottleRetries log).1 = .ok page)
        (hturn : p.turn stored enumerate scope page = .ok (q, next))
        (hget : q.tokens.get drive = some link) : p.tokens.get drive = some link
          ∨ scope.drive = drive ∧ (⟨scope, what, log, visited⟩ : Request).Ends source link := by
      rcases turn_tokens hturn with hsame | ⟨link', hend, htokens⟩
      · exact Or.inl (hsame ▸ hget)
      · rw [htokens] at hget
        by_cases hdrive : scope.drive = drive
        · rw [hdrive, TokenBlob.get_set_self] at hget
          exact Or.inr ⟨hdrive, page, hpage, Option.some_inj.mp hget ▸ hend⟩
        · rw [TokenBlob.get_set_of_ne hdrive] at hget
          exact Or.inl hget
    rcases run_cases source stored enumerate pages visited p scope what log with
      ⟨result, hone, hrequests, hok, -⟩ | ⟨page, q, scope', what', hpage, hturn, hone, hrequests⟩
    · rw [hone] at hrun
      obtain ⟨page, hpage, hturn⟩ := hok p' (Prod.mk.inj hrun).1
      rw [hrequests]
      exact (hset hpage hturn h).imp_right fun hends ↦ ⟨_, List.mem_singleton_self _, hends⟩
    · rw [hone] at hrun
      rw [hrequests]
      rcases ih _ hrun with hget | ⟨r, hr, hends⟩
      · exact (hset hpage hturn hget).imp_right fun hends ↦ ⟨_, List.mem_cons_self, hends⟩
      · exact Or.inr ⟨r, List.mem_cons_of_mem _ hr, hends⟩

/-- A pass that lists the drive from nothing is never too old. -/
theorem run_ne_resync {log' : List Event} (hwhat : ∀ link, what ≠ .resume link)
    (hrun : run source stored true pages p scope what log = (.error .resync, log')) : False := by
  induction pages generalizing p scope what log with
  | zero => cases hrun
  | succ pages ih =>
    rcases run_cases source stored true pages [] p scope what log with
      ⟨result, hone, -, -, hresync⟩ | ⟨page, p', scope', what', -, hturn, hone, -⟩
    · rw [hone] at hrun
      obtain ⟨link, hlink⟩ := fetch_resync (Prod.ext (hresync (Prod.mk.inj hrun).1) rfl)
      exact hwhat link hlink
    · rw [hone] at hrun
      refine ih (fun link heq ↦ ?_) hrun
      rcases (turn_visited hturn).2 with ⟨link', hnext, -⟩ | hentry
      · cases hnext.symm.trans heq
      · cases (entry_eq_resume (hentry.symm.trans heq)).1

end Pass

/-! ## What a round requests -/

section Round

variable (source : PageSource) (scope : DriveScope) (stored : StoredView)

/-- The pages an attempt requests. -/
def attemptRequests (force : Bool) (log : List Event) : List Request :=
  let enumerate := force || (stored.tokens.get scope.drive).isNone
  let p := (Pass.start stored enumerate scope).enter stored enumerate scope
  Pass.requests source stored enumerate maxPagesPerRound [] p scope (entry stored enumerate scope)
    log

/-- The pages that are requested by the attempt a round ends with. -/
def lastRequests : List Request :=
  match attempt source scope stored false [] with
  | (.error .resync, log) => attemptRequests source scope stored true log
  | _ => attemptRequests source scope stored false []

/-- A round keeps to what it may ask for. That it ends is that it comes to anything at all. -/
structure Bounded : Prop where
  pages : (requested (attempted source scope stored).2).length ≤ maxPagesPerRound
  retries : ∀ r ∈ requested (attempted source scope stored).2, r.2 ≤ 1 + maxThrottleRetries
  once : (followed (attempted source scope stored).2).Nodup
  /-- It does not ask for yet another pass. -/
  ended : (attempted source scope stored).1 ≠ .error .resync
  released : ∀ done, (attempted source scope stored).1 = .ok done → ∀ drive link,
    done.tokens.get drive = some link →
    ∃ r ∈ lastRequests source scope stored, r.scope.drive = drive ∧ r.Ends source link

/-- No drive is entered by a stored link that its pass has visited already; and a pass that begins
again from nothing requests no page where the round has reached its ceiling, and none by a link that
was followed before it began. -/
structure Single : Prop where
  fresh : ∀ r ∈ attemptRequests source scope stored false [], ∀ link, r.what = .resume link →
    link ∉ r.visited
  again : ∀ log, attempt source scope stored false [] = (.error .resync, log) →
    ∀ r ∈ attemptRequests source scope stored true log,
      (requested r.log).length < maxPagesPerRound
        ∧ ∀ link, r.what = .next link → link ∉ followed log

end Round

section Attempt

variable {source : PageSource} {scope : DriveScope} {stored : StoredView} {force : Bool}
  {log : List Event} {r : Request}

theorem Pass.start_visited (enumerate : Bool) (scope : DriveScope) :
    ((Pass.start stored enumerate scope).enter stored enumerate scope).visited
      = (entry stored enumerate scope).link.toList ++ []
    ∧ ((Pass.start stored enumerate scope).enter stored enumerate scope).tokens = .new :=
  Pass.enter_visited (Pass.start stored enumerate scope) scope

theorem visited_of_mem_attemptRequests (h : Settled log)
    (hr : r ∈ attemptRequests source scope stored force log) :
    followed r.log = r.visited ++ followed log
      ∧ ((∃ link, r.what = .next link ∧ link ∉ r.visited)
        ∨ r.what = entry stored (force || (stored.tokens.get scope.drive).isNone) r.scope) :=
  Pass.visited_of_mem_requests h (Pass.start_visited _ scope).1 rfl (Or.inr rfl) hr

theorem settled_attempt (source : PageSource) (scope : DriveScope) (stored : StoredView)
    (force : Bool) (h : Settled log) :
    Settled (attempt source scope stored force log).2 := by
  rw [attempt_log rfl]
  exact Pass.settled_run h

theorem requested_attempt_le (source : PageSource) (scope : DriveScope) (stored : StoredView)
    (force : Bool) (h : Settled log) :
    (requested (attempt source scope stored force log).2).length
      ≤ (requested log).length + maxPagesPerRound := by
  rw [attempt_log rfl]
  exact Pass.requested_run_le h

theorem retries_attempt (source : PageSource) (scope : DriveScope) (stored : StoredView)
    (force : Bool) (h : Settled log)
    (hretries : ∀ r ∈ requested log, r.2 ≤ 1 + maxThrottleRetries) :
    ∀ r ∈ requested (attempt source scope stored force log).2, r.2 ≤ 1 + maxThrottleRetries := by
  rw [attempt_log rfl]
  exact Pass.retries_run h hretries

theorem budget_attempt_iff {ceiling : ℕ} (h : Settled log) :
    (requested (attempt source scope stored force log).2).length ≤ ceiling
      ↔ (requested log).length ≤ ceiling
        ∧ ∀ r ∈ attemptRequests source scope stored force log,
          (requested r.log).length < ceiling := by
  rw [attempt_log rfl]
  exact Pass.budget_run_iff h

theorem nodup_attempt_iff (h : Settled log) :
    (followed (attempt source scope stored force log).2).Nodup
      ↔ (followed log).Nodup ∧ ∀ r ∈ attemptRequests source scope stored force log,
        ∀ link, r.what.link = some link → link ∉ followed r.log := by
  rw [attempt_log rfl]
  exact Pass.nodup_run_iff h

/-- An attempt that is the first of its round follows no link twice if and only if it enters no
drive by a link it has visited. -/
theorem nodup_first_iff (source : PageSource) (scope : DriveScope) (stored : StoredView)
    (force : Bool) :
    (followed (attempt source scope stored force []).2).Nodup
      ↔ ∀ r ∈ attemptRequests source scope stored force [], ∀ link, r.what = .resume link →
        link ∉ r.visited := by
  have hnil : Settled [] := trivial
  rw [nodup_attempt_iff hnil]
  constructor
  · rintro ⟨-, honce⟩ r hr link hwhat hmem
    obtain ⟨hfollowed, -⟩ := visited_of_mem_attemptRequests hnil hr
    refine honce r hr link (hwhat ▸ rfl) (hfollowed ▸ List.mem_append_left _ hmem)
  · refine fun hfresh ↦ ⟨List.nodup_nil, fun r hr link hlink ↦ ?_⟩
    obtain ⟨hfollowed, hnext⟩ := visited_of_mem_attemptRequests hnil hr
    have hall : followed r.log = r.visited := hfollowed.trans (List.append_nil _)
    rw [hall]
    rcases hwhat : r.what with first | next | resumed
    · cases hwhat ▸ hlink
    · rcases hnext with ⟨link', heq, hnot⟩ | hentry
      · cases hwhat.symm.trans heq
        cases hwhat ▸ hlink
        exact hnot
      · exact absurd (hentry.symm.trans hwhat) (Pass.entry_ne_next _)
    · cases hwhat ▸ hlink
      exact hfresh r hr link hwhat

/-- An attempt from nothing follows no link twice if and only if it is sent to none that was
followed before. -/
theorem nodup_again_iff (h : Settled log) :
    (followed (attempt source scope stored true log).2).Nodup
      ↔ (followed log).Nodup ∧ ∀ r ∈ attemptRequests source scope stored true log,
        ∀ link, r.what = .next link → link ∉ followed log := by
  rw [nodup_attempt_iff h]
  refine and_congr_right fun _ ↦ forall₂_congr fun r hr ↦ ?_
  obtain ⟨hfollowed, hnext⟩ := visited_of_mem_attemptRequests h hr
  constructor
  · intro honce link hwhat hmem
    exact honce link (hwhat ▸ rfl) (hfollowed ▸ List.mem_append_right _ hmem)
  · intro hnone link hlink
    rw [hfollowed, List.mem_append]
    rcases hnext with ⟨link', heq, hnot⟩ | hentry
    · cases heq ▸ hlink
      exact fun hmem ↦ hmem.elim hnot (hnone link heq)
    · rcases hwhat : r.what with first | next | resumed
      · cases hwhat ▸ hlink
      · exact absurd (hentry.symm.trans hwhat) (Pass.entry_ne_next _)
      · cases (entry_eq_resume (hentry.symm.trans hwhat)).1

theorem attempt_run {done : Attempt} (h : (attempt source scope stored force log).1 = .ok done) :
    ∃ p log', Pass.run source stored (force || (stored.tokens.get scope.drive).isNone)
        maxPagesPerRound ((Pass.start stored (force || (stored.tokens.get scope.drive).isNone)
          scope).enter stored (force || (stored.tokens.get scope.drive).isNone) scope) scope
        (entry stored (force || (stored.tokens.get scope.drive).isNone) scope) log = (.ok p, log')
      ∧ done.tokens = p.tokens := by
  unfold attempt at h
  dsimp only at h
  split at h
  · cases h
  · rename_i p log' hrun
    refine ⟨p, log', hrun, ?_⟩
    unfold conclude at h
    dsimp only at h
    split at h
    · cases h
    · split at h <;> cases h <;> rfl

/-- A token that is released is that of a drive whose feed has come to its end. -/
theorem tokens_attempt {done : Attempt} {drive : DriveId} {link : String}
    (h : (attempt source scope stored force log).1 = .ok done)
    (htoken : done.tokens.get drive = some link) :
    ∃ r ∈ attemptRequests source scope stored force log,
      r.scope.drive = drive ∧ r.Ends source link := by
  obtain ⟨p, log', hrun, htokens⟩ := attempt_run h
  rcases Pass.tokens_run [] hrun (htokens ▸ htoken) with hstart | hends
  · rw [(Pass.start_visited _ scope).2, TokenBlob.get_new] at hstart
    cases hstart
  · exact hends

theorem attempt_true_ne_resync : (attempt source scope stored true log).1 ≠ .error .resync := by
  intro h
  unfold attempt at h
  dsimp only [Bool.true_or] at h
  split at h
  · rename_i fault log' hrun
    cases h
    have hfirst (link : String) : entry stored true scope ≠ .resume link :=
      fun heq ↦ Bool.noConfusion (entry_eq_resume heq).1
    rw [Bool.true_or] at hrun
    exact Pass.run_ne_resync hfirst hrun
  · unfold conclude at h
    dsimp only at h
    split at h
    · cases h
    · split at h <;> cases h

/-- A round ends with the attempt it began with, or with one from nothing. -/
theorem attempted_cases (source : PageSource) (scope : DriveScope) (stored : StoredView) :
    (∃ log, attempt source scope stored false [] = (.error .resync, log)
      ∧ attempted source scope stored = attempt source scope stored true log
      ∧ lastRequests source scope stored = attemptRequests source scope stored true log)
    ∨ (attempt source scope stored false []).1 ≠ .error .resync
      ∧ attempted source scope stored = attempt source scope stored false []
      ∧ lastRequests source scope stored = attemptRequests source scope stored false [] := by
  unfold attempted lastRequests
  rcases attempt source scope stored false [] with ⟨(e | e | _) | finished, log⟩
  · exact Or.inr ⟨nofun, rfl, rfl⟩
  · exact Or.inr ⟨nofun, rfl, rfl⟩
  · exact Or.inl ⟨log, rfl, rfl, rfl⟩
  · exact Or.inr ⟨nofun, rfl, rfl⟩

/-- What the ceiling and the links leave open, every attempt keeps to. -/
theorem bounded_iff_of_attempt
    (hround : attempted source scope stored = attempt source scope stored force log)
    (hlast : lastRequests source scope stored = attemptRequests source scope stored force log)
    (hsettled : Settled log) (hretries : ∀ r ∈ requested log, r.2 ≤ 1 + maxThrottleRetries)
    (hended : (attempt source scope stored force log).1 ≠ .error .resync) :
    Bounded source scope stored
      ↔ (requested (attempt source scope stored force log).2).length ≤ maxPagesPerRound
        ∧ (followed (attempt source scope stored force log).2).Nodup := by
  constructor
  · rintro ⟨hpages, -, honce, -, -⟩
    exact ⟨hround ▸ hpages, hround ▸ honce⟩
  · rintro ⟨hpages, honce⟩
    have hall := retries_attempt source scope stored force hsettled hretries
    refine ⟨hround ▸ hpages, hround ▸ hall, hround ▸ honce, hround ▸ hended,
      fun done hdone drive link htoken ↦ ?_⟩
    rw [hround] at hdone
    rw [hlast]
    exact tokens_attempt hdone htoken

end Attempt

/-- **A round keeps to what it may ask for** if and only if no drive is entered by a link that its
pass has visited, and a pass that begins again keeps to what the round has left. -/
theorem bounded_iff {source : PageSource} {scope : DriveScope} {stored : StoredView} :
    Bounded source scope stored ↔ Single source scope stored := by
  have hnil : Settled [] := trivial
  have hnone : ∀ r ∈ requested [], r.2 ≤ 1 + maxThrottleRetries := nofun
  have hpages := requested_attempt_le source scope stored false hnil
  have hfirst := nodup_first_iff source scope stored false
  rcases attempted_cases source scope stored with
    ⟨log, hlog, hround, hlast⟩ | ⟨hended, hround, hlast⟩
  · have hsettled := settled_attempt source scope stored false hnil
    have hretries := retries_attempt source scope stored false hnil hnone
    rw [hlog] at hpages hfirst hsettled hretries
    rw [bounded_iff_of_attempt hround hlast hsettled hretries attempt_true_ne_resync,
      budget_attempt_iff hsettled, nodup_again_iff hsettled, hfirst]
    constructor
    · rintro ⟨⟨-, hbudget⟩, hfresh, honce⟩
      refine ⟨hfresh, fun log' hlog' r hr ↦ ?_⟩
      cases hlog.symm.trans hlog'
      exact ⟨hbudget r hr, honce r hr⟩
    · rintro ⟨hfresh, hagain⟩
      exact ⟨⟨hpages.trans (Nat.zero_add _).le, fun r hr ↦ (hagain log hlog r hr).1⟩, hfresh,
        fun r hr ↦ (hagain log hlog r hr).2⟩
  · rw [bounded_iff_of_attempt hround hlast hnil hnone hended, hfirst]
    constructor
    · rintro ⟨-, hfresh⟩
      exact ⟨hfresh, fun log hlog ↦ absurd (congrArg Prod.fst hlog) hended⟩
    · rintro ⟨hfresh, -⟩
      exact ⟨hpages.trans (Nat.zero_add _).le, hfresh⟩

/-! ### A link that is shared, and a pass that begins again -/

/-- A drive in which another is mounted, each with its token. -/
def mountedStored : StoredView where
  items := [.root "d|r", .upsert ⟨"d|p", "d|r", "p", .folder none⟩]
  tags := some .cTag
  mounts := [keptMount]
  tokens := (TokenBlob.new.set keptDrive "https://graph.microsoft.com/t").set keptMount.remote.drive
    "https://graph.microsoft.com/n"
  generation := 1

/-- The drive is sent on to the link that is stored for the mounted one. -/
def sharedLink : PageSource := fun _ what ↦
  match what with
  | .resume "https://graph.microsoft.com/t" =>
    .ok (.read (.ok ⟨[], .more "https://graph.microsoft.com/n"⟩))
  | _ => .ok (.read (.ok ⟨[], .done "https://graph.microsoft.com/e"⟩))

/-- The token of the mounted drive is too old, and the drive is sent on to one link in either
pass. -/
def tooOld : PageSource := fun _ what ↦
  match what with
  | .next _ => .ok (.read (.ok ⟨[], .done "https://graph.microsoft.com/e"⟩))
  | .resume "https://graph.microsoft.com/n" => .ok (.read (.error .resyncRequired))
  | _ => .ok (.read (.ok ⟨[], .more "https://graph.microsoft.com/m"⟩))

/-- One link is followed for two drives, and in two passes. -/
theorem link_followed_twice : ¬ Bounded sharedLink sampleDrive mountedStored
    ∧ ¬ Bounded tooOld sampleDrive mountedStored := by
  have hshared : followed (attempted sharedLink sampleDrive mountedStored).2
      = ["https://graph.microsoft.com/n", "https://graph.microsoft.com/n",
        "https://graph.microsoft.com/t"] := by
    decide +kernel
  have htooOld : followed (attempted tooOld sampleDrive mountedStored).2
      = ["https://graph.microsoft.com/m", "https://graph.microsoft.com/n",
        "https://graph.microsoft.com/m", "https://graph.microsoft.com/t"] := by
    decide +kernel
  constructor
  · intro h
    have honce := h.once
    rw [hshared] at honce
    simp at honce
  · intro h
    have honce := h.once
    rw [htooOld] at honce
    simp at honce

end HydrationAPI.Graph.GraphDiscover
