import HydrationAPI.Graph.Endpoint

/-!
# The one request

Pages, requests of the sink and downloads all pass `sendResponse`, which composes a request and puts
it on the wire. The addresses are texts that come from anywhere: a page, the file the token is kept
in, the answer that opened an upload session, a redirect. What was put on the wire is recorded.
-/

namespace HydrationAPI.Graph.Http

inductive Method where
  | get
  | put
  | post
  | patch
  | delete
  deriving DecidableEq, Repr

/-- One request, as the transport is given it. -/
structure Request where
  method : Method
  url : String
  headers : List (String × String)
  body : List UInt8
  /-- Whether the transport may attach the account's bearer token. -/
  authorize : Bool
  deriving DecidableEq

/-- What was put on the wire, and whether it was marked for the credential. -/
structure Sent where
  method : Method
  url : String
  headers : List (String × String)
  body : List UInt8
  marked : Bool
  deriving DecidableEq

/-- What the HTTP library makes of texts: a header's name, which it keeps in small letters, a
header's value, and which addresses it takes. -/
structure Library where
  headerName : String → Option String
  headerValue : String → Option String
  uri : String → Bool
  headerName_lowercase : ∀ {raw name}, headerName raw = some name →
    name.toList = lowercase raw.toList

/-- The transport: the content locations it remembers, by the address they resolve, and what it has
sent, the latest first. -/
structure GraphHttp where
  locations : String → Option (String × ℕ)
  sent : List Sent

/-- What the token source and the service answer, should they be asked. -/
structure Answers where
  token : Except IoError String
  service : Try

namespace GraphHttp

variable (lib : Library) (h : GraphHttp)

def new : GraphHttp := ⟨fun _ ↦ none, []⟩

/-! ## Composing a request -/

def badRequest (what : String) : IoError := ⟨.invalidInput, none, what⟩

def mayAuthorize (url : String) (authorize : Bool) : Except IoError Bool :=
  if ¬ authorize then .ok false
  else if onTheGraphEndpoint url then .ok true
  else .error ⟨.permissionDenied, none, "a request marked for the account credential addressed a "
    ++ "host that is not the Graph endpoint; it was not sent"⟩

/-- The caller's headers, validated. -/
def callerHeaders : List (String × String) → Except IoError (List (String × String))
  | [] => .ok []
  | (name, value) :: headers =>
    if eqIgnoreAsciiCase name "authorization" || eqIgnoreAsciiCase name "proxy-authorization"
        || eqIgnoreAsciiCase name "cookie" then
      .error (badRequest
        ("`" ++ name ++ "` is the transport's to set, and this request set it itself"))
    else match lib.headerName name, lib.headerValue value with
      | none, _ => .error (badRequest "a header name is not one")
      | some _, none => .error (badRequest "a header value is not one")
      | some name, some value => (callerHeaders headers).map ((name, value) :: ·)

/-- The `Authorization` header; only the kind of a token source's error gets out. -/
def authorizationHeader (token : Except IoError String) : Except IoError String :=
  match token with
  | .error e => .error ⟨e.kind, none, "the access token could not be obtained"⟩
  | .ok raw =>
    match lib.headerValue raw with
    | some value => .ok value
    | none => .error (invalidData "the access token is not a header value")

/-- The headers as they are sent. -/
def composed (q : Request) (token : Except IoError String) :
    Except IoError (List (String × String)) :=
  match callerHeaders lib q.headers with
  | .error e => .error e
  | .ok headers =>
    match mayAuthorize q.url q.authorize with
    | .error e => .error e
    | .ok false => .ok headers
    | .ok true =>
      (authorizationHeader lib token).map fun value ↦ headers ++ [("authorization", value)]

/-- A failure off the Graph endpoint is said without saying where. -/
def wireError (url : String) (e : IoError) : IoError :=
  if onTheGraphEndpoint url then e else ⟨.other, none, "the request could not be completed"⟩

def sendResponse (q : Request) (token : Except IoError String) (answer : Except IoError Response) :
    Except IoError Response × GraphHttp :=
  match composed lib q token with
  | .error e => (.error e, h)
  | .ok headers =>
    if lib.uri q.url then
      (answer.mapError (wireError q.url),
        { h with sent := ⟨q.method, q.url, headers, q.body, q.authorize⟩ :: h.sent })
    else (.error (badRequest "the request could not be composed"), h)

/-! ## What is asked for -/

/-- A page of the delta, whatever link leads to it. -/
def page (url : String) (a : Answers) : Except IoError Response × GraphHttp :=
  h.sendResponse lib ⟨.get, url, [("accept", "application/json")], [], true⟩ a.token
    a.service.direct

def send (q : Request) (a : Answers) : Except IoError Response × GraphHttp :=
  h.sendResponse lib q a.token a.service.direct

def itemContentUrl (key : ObjectKey) : String :=
  "https://" ++ graphHost ++ "/v1.0/drives/" ++ key.drive.raw ++ "/items/" ++ key.item.raw
    ++ "/content"

/-- The remembered location for this address, if it is still young enough to trust. -/
def fresh (url : String) (now : ℕ) : Option String × GraphHttp :=
  match h.locations url with
  | some (location, learned) =>
    if now - learned < contentLocationTtl then (some location, h)
    else (none, { h with locations := Function.update h.locations url none })
  | none => (none, h)

def learned (url location : String) (now : ℕ) : GraphHttp :=
  { h with locations := Function.update h.locations url (some (location, now)) }

def forget (url : String) : GraphHttp :=
  { h with locations := Function.update h.locations url none }

/-- The address itself with the token, or what it was known to redirect to without. -/
def resolve (url : String) (ranged : Bool) (headers : List (String × String)) (a : Answers) :
    Except IoError Response × GraphHttp :=
  let (remembered, h) := if ranged then h.fresh url a.service.now else (none, h)
  match remembered with
  | none => h.sendResponse lib ⟨.get, url, headers, [], true⟩ a.token a.service.direct
  | some location =>
    match h.sendResponse lib ⟨.get, location, headers, [], false⟩ a.token a.service.remembered with
    | (.error e, h) => (.error e, h)
    | (.ok r, h) =>
      -- anything but the range, or the service speaking, and the location has gone stale
      if r.status ≠ 206 ∧ retryableStatus r.status = false then
        (h.forget url).sendResponse lib ⟨.get, url, headers, [], true⟩ a.token a.service.direct
      else (.ok r, h)

/-- The requests of one attempt at the bytes from `start` to `last` of an object. -/
def attempt (key : ObjectKey) (ranged : Bool) (start last : ℕ) (a : Answers) :
    Except IoError Response × GraphHttp :=
  let url := itemContentUrl key
  let range := if ranged then [("range", s!"bytes={start}-{last}")] else []
  let headers := ("accept", "application/octet-stream") :: range
  match h.resolve lib url ranged headers a with
  | (.error e, h) => (.error e, h)
  | (.ok r, h) =>
    if 300 ≤ r.status ∧ r.status ≤ 399 then
      match r.location.filter safeDownloadUrl with
      | none => (.error ⟨.permissionDenied, none,
          "Graph returned an unsafe content redirect; it was not followed"⟩, h)
      | some location =>
        let h := if ranged then h.learned url location a.service.now else h
        h.sendResponse lib ⟨.get, location, headers, [], false⟩ a.token a.service.redirected
    else (.ok r, h)

/-- What a transport is asked for. -/
inductive Op where
  | page (url : String)
  | send (q : Request)
  | attempt (key : ObjectKey) (ranged : Bool) (start last : ℕ)

def perform (h : GraphHttp) (op : Op × Answers) : GraphHttp :=
  match op with
  | (.page url, a) => (h.page lib url a).2
  | (.send q, a) => (h.send lib q a).2
  | (.attempt key ranged start last, a) => (h.attempt lib key ranged start last a).2

def after (ops : List (Op × Answers)) : GraphHttp := ops.foldl (perform lib) new

end GraphHttp

/-! ## What carries the token -/

/-- An `Authorization` header is sent with it. -/
def Sent.CarriesAuthorization (s : Sent) : Prop :=
  ∃ header ∈ s.headers, lowercase header.1.toList = "authorization".toList

/-- What carries the token, and what is marked for it, addresses the Graph host. -/
def Sent.Safe (s : Sent) : Prop :=
  (s.CarriesAuthorization → AddressesGraph s.url) ∧ (s.marked = true → AddressesGraph s.url)

namespace GraphHttp

variable {lib : Library} {h : GraphHttp}

def Safe (h : GraphHttp) : Prop := ∀ s ∈ h.sent, s.Safe

theorem lowercase_idem (s : List Char) : lowercase (lowercase s) = lowercase s := by
  rw [lowercase, lowercase, List.map_map]
  exact List.map_congr_left fun c _ ↦ Text.toLower_toLower c

/-- A caller's header is none that carries a credential. -/
theorem callerHeaders_not_authorization {headers out : List (String × String)}
    (hout : callerHeaders lib headers = .ok out) :
    ∀ header ∈ out, lowercase header.1.toList ≠ "authorization".toList := by
  induction headers generalizing out with
  | nil =>
    cases hout
    exact fun _ hmem ↦ absurd hmem List.not_mem_nil
  | cons header headers ih =>
    obtain ⟨name, value⟩ := header
    rw [callerHeaders] at hout
    split at hout
    · exact absurd hout nofun
    rename_i hname
    split at hout
    · exact absurd hout nofun
    · exact absurd hout nofun
    rename_i name' value' hlibrary _
    match hrest : callerHeaders lib headers with
    | .error e =>
      rw [hrest] at hout
      exact absurd hout nofun
    | .ok rest =>
      rw [hrest] at hout
      cases hout
      intro header hmem
      rcases List.mem_cons.mp hmem with rfl | hmem
      · rw [lib.headerName_lowercase hlibrary, lowercase_idem]
        intro heq
        refine hname ?_
        have hsame : eqIgnoreAsciiCase name "authorization" = true := by
          rw [eqIgnoreAsciiCase, heq]
          decide
        rw [hsame]
        rfl
      · exact ih hrest header hmem

theorem mayAuthorize_spec {url : String} {authorize authorized : Bool}
    (hauthorized : mayAuthorize url authorize = .ok authorized) :
    authorized = authorize ∧ (authorize = true → AddressesGraph url) := by
  unfold mayAuthorize at hauthorized
  split at hauthorized
  · rename_i hnot
    cases hauthorized
    exact ⟨(Bool.eq_false_iff.mpr hnot).symm, fun htrue ↦ absurd htrue hnot⟩
  · rename_i hmarked
    split at hauthorized
    · rename_i hgraph
      cases hauthorized
      exact ⟨(not_not.mp hmarked).symm, fun _ ↦ addressesGraph_of_endpoint hgraph⟩
    · exact absurd hauthorized nofun

/-- A request that is composed is safe to send. -/
theorem safe_of_composed {q : Request} {token : Except IoError String}
    {headers : List (String × String)} (hcomposed : composed lib q token = .ok headers) :
    Sent.Safe ⟨q.method, q.url, headers, q.body, q.authorize⟩ := by
  unfold composed at hcomposed
  split at hcomposed
  · exact absurd hcomposed nofun
  rename_i caller hcaller
  split at hcomposed
  · exact absurd hcomposed nofun
  · rename_i hauthorized
    obtain ⟨-, hmarked⟩ := mayAuthorize_spec hauthorized
    cases hcomposed
    refine ⟨fun hcarries ↦ ?_, hmarked⟩
    obtain ⟨header, hmem, hname⟩ := hcarries
    exact absurd hname (callerHeaders_not_authorization hcaller header hmem)
  · rename_i hauthorized
    obtain ⟨hauthorize, hmarked⟩ := mayAuthorize_spec hauthorized
    exact ⟨fun _ ↦ hmarked hauthorize.symm, hmarked⟩

theorem Safe.sendResponse (hsafe : h.Safe) (q : Request) (token : Except IoError String)
    (answer : Except IoError Response) : (h.sendResponse lib q token answer).2.Safe := by
  unfold GraphHttp.sendResponse
  split
  · exact hsafe
  · rename_i headers hcomposed
    split
    · intro s hmem
      rcases List.mem_cons.mp hmem with rfl | hmem
      · exact safe_of_composed hcomposed
      · exact hsafe s hmem
    · exact hsafe

theorem fresh_sent (url : String) (now : ℕ) : (h.fresh url now).2.sent = h.sent := by
  unfold fresh
  split
  · split <;> rfl
  · rfl

theorem Safe.resolve (hsafe : h.Safe) (url : String) (ranged : Bool)
    (headers : List (String × String)) (a : Answers) :
    (h.resolve lib url ranged headers a).2.Safe := by
  have hfresh : (if ranged then h.fresh url a.service.now else (none, h)).2.Safe := by
    split
    · intro s hmem
      exact hsafe s (fresh_sent (h := h) url a.service.now ▸ hmem)
    · exact hsafe
  unfold GraphHttp.resolve
  generalize (if ranged then h.fresh url a.service.now else (none, h)) = found at hfresh
  obtain ⟨remembered, h'⟩ := found
  match remembered with
  | none => exact hfresh.sendResponse _ _ _
  | some location =>
    have hsent : (h'.sendResponse lib ⟨.get, location, headers, [], false⟩ a.token
        a.service.remembered).2.Safe := hfresh.sendResponse _ _ _
    dsimp only
    generalize h'.sendResponse lib ⟨.get, location, headers, [], false⟩ a.token
      a.service.remembered = answered at hsent
    obtain ⟨result, h''⟩ := answered
    match result with
    | .error e => exact hsent
    | .ok r =>
      dsimp only
      split
      · exact Safe.sendResponse (h := h''.forget url) hsent _ _ _
      · exact hsent

theorem Safe.attempt (hsafe : h.Safe) (key : ObjectKey) (ranged : Bool) (start last : ℕ)
    (a : Answers) : (h.attempt lib key ranged start last a).2.Safe := by
  unfold GraphHttp.attempt
  dsimp only
  generalize (if ranged then [("range", s!"bytes={start}-{last}")] else []) = range
  have hresolved : (h.resolve lib (itemContentUrl key) ranged
      (("accept", "application/octet-stream") :: range) a).2.Safe := hsafe.resolve _ _ _ _
  generalize h.resolve lib (itemContentUrl key) ranged
    (("accept", "application/octet-stream") :: range) a = answered at hresolved
  obtain ⟨result, h'⟩ := answered
  match result with
  | .error e => exact hresolved
  | .ok r =>
    dsimp only
    split
    · split
      · exact hresolved
      · rename_i location _
        refine Safe.sendResponse ?_ _ _ _
        split <;> exact hresolved
    · exact hresolved

theorem Safe.perform (hsafe : h.Safe) (op : Op × Answers) : (h.perform lib op).Safe := by
  match op with
  | (.page url, a) => exact hsafe.sendResponse _ _ _
  | (.send q, a) => exact hsafe.sendResponse _ _ _
  | (.attempt key ranged start last, a) => exact hsafe.attempt key ranged start last a

/-- Whatever is asked for and whatever is answered, an `Authorization` header goes only to the Graph
host, and so does whatever is marked for the credential. -/
theorem authorization_only_to_graph (lib : Library) (ops : List (Op × Answers)) :
    ∀ s ∈ (after lib ops).sent,
      (s.CarriesAuthorization → AddressesGraph s.url) ∧ (s.marked = true → AddressesGraph s.url) :=
  List.foldlRecOn ops (perform lib) (motive := Safe) (fun _ hmem ↦ absurd hmem List.not_mem_nil)
    fun _ hsafe op _ ↦ hsafe.perform op

/-- A library that takes a token for a header's name. -/
def tokenLibrary : Library where
  headerName raw :=
    if raw.toList.all fun c ↦ c.isAlphanum || c ∈ "!#$%&'*+-.^_|~".toList then
      some (String.ofList (lowercase raw.toList))
    else none
  headerValue raw := if raw.toList.all fun c ↦ 32 ≤ c.toNat && c.toNat ≠ 127 then some raw else none
  uri _ := true
  headerName_lowercase := by
    intro raw name hname
    split at hname
    · cases hname
      rw [String.toList_ofList]
    · exact absurd hname nofun

/-- A link with user information and a port is followed with the token where it leads to Graph. -/
theorem authorization_only_to_graph_page :
    AddressesGraph "https://u:p@Graph.microsoft.com:443/v1.0/drives" := by
  let silent : Except IoError Response := .error (badRequest "")
  let link : Op := .page "https://u:p@Graph.microsoft.com:443/v1.0/drives"
  have hsent : (after tokenLibrary [(link, ⟨.ok "Bearer A", ⟨0, silent, silent, silent⟩⟩)]).sent
      = [⟨.get, "https://u:p@Graph.microsoft.com:443/v1.0/drives",
        [("accept", "application/json"), ("authorization", "Bearer A")], [], true⟩] := by
    decide +kernel
  refine (authorization_only_to_graph tokenLibrary _ _ (hsent ▸ List.mem_singleton_self _)).1 ?_
  exact ⟨_, List.mem_cons_of_mem _ List.mem_cons_self, by decide⟩

end GraphHttp

end HydrationAPI.Graph.Http
