import HydrationAPI.Client.Queue
import HydrationAPI.Lib.Text
import HydrationAPI.Protocol.Errors
import HydrationAPI.Protocol.Span

/-!
# The credential

What the token endpoint's replies are read as, and what the cache keeps under its lock: the access
token and until when it may be handed out, the refresh token, and how the last refreshes failed.
-/

namespace HydrationAPI.Graph.Auth

open Client

/-! ## What a reply is read as -/

inductive AuthError where
  | authorizationPending
  | slowDown
  | deviceCodeExpired
  | accessDenied
  /-- The refresh token is spent, revoked or rotated; one of these is not a conclusion. -/
  | invalidGrant
  /-- The conclusion: no request is made any more. -/
  | credentialRejected
  | oauth (code : String)
  | malformed (text : String)
  | httpStatus (status : ℕ)
  | transport (kind : ErrorKind)
  | signedOut
  deriving DecidableEq, Repr

/-- What a successful token response carries. -/
structure Tokens where
  access : String
  /-- In nanoseconds. -/
  expiresIn : ℕ
  refresh : Option String
  deriving DecidableEq, Repr

/-- A field of a reply, as far as the reader tells values apart. -/
inductive Value where
  | number (asU64 : Option ℕ)
  | string (s : String)
  | other
  deriving DecidableEq, Repr

/-- One reply. The body is its fields, or nothing if it was not JSON. -/
structure TokenReply where
  status : ℕ
  body : Option (List (String × Value))
  deriving DecidableEq, Repr

def second : ℕ := 10 ^ 9

/-- How early to treat an access token as spent. -/
def expirySkew : ℕ := 60 * second

/-- A ceiling on a lifetime the service reports. -/
def maxTokenLifetime : ℕ := 24 * 60 * 60 * second

def refreshBackoffStep : ℕ := 5 * second

def maxRefreshBackoff : ℕ := 300 * second

/-- How many consecutive `invalid_grant`s make a credential dead. -/
def maxRejections : ℕ := 3

/-- The largest `u32`. -/
def u32Max : ℕ := 2 ^ 32 - 1

/-- `Duration::saturating_add`. -/
def later (now d : ℕ) : ℕ := min (now + d) durationMax

/-- How long to wait before the next attempt, after so many failures in a row. -/
def backoff (failures : ℕ) : ℕ :=
  if failures < 2 then 0
  else min (refreshBackoffStep * 2 ^ min (failures - 2) 16) maxRefreshBackoff

/-- Seconds, whether the service sent a number or a string. -/
def seconds (v : List (String × Value)) (key : String) : Option ℕ :=
  match v.lookup key with
  | some (.number n) => n.map (· * second)
  | some (.string s) => (Text.parseUnsigned u64Max s).map (· * second)
  | _ => none

def asStr (v : List (String × Value)) (key : String) : Option String :=
  match v.lookup key with
  | some (.string s) => some s
  | _ => none

def nonEmptyStr (v : List (String × Value)) (key : String) : Option String :=
  (asStr v key).filter (· ≠ "")

/-- A code, reduced to something that cannot be a credential. -/
def sanitiseCode (raw : String) : String :=
  String.ofList ((raw.toList.filter fun c ↦ c.isLower || c == '_').take 40)

def oauthError (v : List (String × Value)) : Option AuthError :=
  (asStr v "error").map fun
    | "authorization_pending" => .authorizationPending
    | "slow_down" => .slowDown
    | "expired_token" => .deviceCodeExpired
    | "access_denied" => .accessDenied
    | "invalid_grant" => .invalidGrant
    | other => .oauth (sanitiseCode other)

/-- A token response, or the named reason it is not one. -/
def readTokenReply (reply : TokenReply) : Except AuthError Tokens :=
  match reply.body with
  | none => .error (.malformed "the reply was not JSON")
  | some v =>
    match oauthError v with
    | some e => .error e
    | none =>
      if ¬ (200 ≤ reply.status ∧ reply.status < 300) then .error (.httpStatus reply.status)
      else match nonEmptyStr v "access_token" with
        | none => .error (.malformed "no access_token in the reply")
        | some access =>
          match seconds v "expires_in" with
          | none => .error (.malformed "no usable expires_in in the reply")
          | some expiresIn =>
            .ok ⟨access, min expiresIn maxTokenLifetime, nonEmptyStr v "refresh_token"⟩

/-- What one attempt came to. -/
abbrev Outcome := Except AuthError Tokens

/-- Post, and read the reply. -/
def outcomeOf : Except ErrorKind TokenReply → Outcome
  | .error kind => .error (.transport kind)
  | .ok reply => readTokenReply reply

/-! ## What is kept under the lock -/

/-- One failed refresh, with the number of attempts that had finished then. -/
structure Failure where
  attempt : ℕ
  error : AuthError
  deriving DecidableEq, Repr

/-- Everything mutable, behind one lock. -/
structure State where
  access : Option String
  /-- Past this the access token must not be handed out. -/
  expiresAt : ℕ
  refresh : Option String
  refreshes : ℕ
  storeError : Option ErrorKind
  /-- Consecutive failed attempts of any kind. -/
  failures : ℕ
  /-- Consecutive `invalid_grant`s. -/
  rejections : ℕ
  rejected : Bool
  nextAttemptAt : ℕ
  lastFailure : Option Failure
  deriving DecidableEq, Repr

namespace State

def default : State := ⟨none, 0, none, 0, none, 0, 0, false, 0, none⟩

variable (s : State)

def live (now : ℕ) : Option String :=
  if later now expirySkew < s.expiresAt then s.access else none

/-- The answer for a caller that was queued already when the attempt recorded here finished. -/
def waitedOut (arrived : ℕ) : Option AuthError :=
  match s.lastFailure with
  | some failure => if arrived < failure.attempt then some failure.error else none
  | none => none

def clearFailures : State :=
  { s with
    failures := 0
    rejections := 0
    rejected := false
    nextAttemptAt := 0
    lastFailure := none }

/-- Whether these tokens replace the credential. -/
def rotates (tokens : Tokens) : Bool :=
  match tokens.refresh with
  | some new => s.refresh ≠ some new
  | none => false

/-- Install a token response; one without a refresh token keeps the one that is held. -/
def install (tokens : Tokens) (now : ℕ) : State :=
  { s with
    access := some tokens.access
    expiresAt := later now tokens.expiresIn
    refresh := tokens.refresh.or s.refresh }

/-- Write the credential down; a failure is recorded, never returned. -/
def persist (saved : Option ErrorKind) : State :=
  match s.refresh with
  | some _ => { s with storeError := saved }
  | none => s

/-- Record a failed attempt. -/
def noteFailure (attempt : ℕ) (error : AuthError) (now : ℕ) : State :=
  let failures := min (s.failures + 1) u32Max
  let rejections := if error = .invalidGrant then min (s.rejections + 1) u32Max else 0
  { s with
    failures := failures
    rejections := rejections
    rejected := if error = .invalidGrant then maxRejections ≤ rejections else s.rejected
    nextAttemptAt := later now (backoff failures)
    lastFailure := some ⟨attempt, error⟩ }

/-- The credential to post, or why there is no request. -/
def mayPost (now : ℕ) : Except AuthError String :=
  if s.rejected then .error .credentialRejected
  else if now < s.nextAttemptAt then
    .error ((s.lastFailure.map Failure.error).getD .signedOut)
  else match s.refresh with
    | some refresh => .ok refresh
    | none => .error .signedOut

/-- Adopt a successful reply: the part after the request, for a refresh and for a device code. -/
def granted (tokens : Tokens) (now : ℕ) (saved : Option ErrorKind) : State :=
  let s' := (s.install tokens now).clearFailures
  if s.rotates tokens then s'.persist saved else s'

/-- What an attempt leaves. -/
def settled (attempt : ℕ) (outcome : Outcome) (now finish : ℕ) (saved : Option ErrorKind) :
    State :=
  match outcome with
  | .ok tokens => { s.granted tokens finish saved with refreshes := s.refreshes + 1 }
  | .error e => s.noteFailure attempt e now

/-- Adopt a credential obtained elsewhere. -/
def signInWith (refresh : String) : State :=
  { s with access := none, expiresAt := 0, refresh := some refresh }.clearFailures

variable {s}

@[simp] theorem clearFailures_access : s.clearFailures.access = s.access := rfl
@[simp] theorem clearFailures_refresh : s.clearFailures.refresh = s.refresh := rfl
@[simp] theorem install_access (tokens : Tokens) (now : ℕ) :
    (s.install tokens now).access = some tokens.access := rfl
@[simp] theorem install_refresh (tokens : Tokens) (now : ℕ) :
    (s.install tokens now).refresh = tokens.refresh.or s.refresh := rfl
@[simp] theorem noteFailure_access (attempt : ℕ) (e : AuthError) (now : ℕ) :
    (s.noteFailure attempt e now).access = s.access := rfl
@[simp] theorem noteFailure_refresh (attempt : ℕ) (e : AuthError) (now : ℕ) :
    (s.noteFailure attempt e now).refresh = s.refresh := rfl

/-- Writing the credential down changes what is known of the store, and nothing else. -/
theorem persist_eq (saved : Option ErrorKind) :
    ∃ storeError, s.persist saved = { s with storeError := storeError } := by
  unfold persist
  split
  · exact ⟨_, rfl⟩
  · exact ⟨_, rfl⟩

theorem granted_eq (tokens : Tokens) (now : ℕ) (saved : Option ErrorKind) :
    ∃ storeError, s.granted tokens now saved
      = { (s.install tokens now).clearFailures with storeError := storeError } := by
  unfold granted
  split
  · exact persist_eq saved
  · exact ⟨_, rfl⟩

@[simp] theorem granted_access (tokens : Tokens) (now : ℕ) (saved : Option ErrorKind) :
    (s.granted tokens now saved).access = some tokens.access := by
  obtain ⟨storeError, h⟩ := granted_eq (s := s) tokens now saved
  rw [h]
  rfl

@[simp] theorem granted_refresh (tokens : Tokens) (now : ℕ) (saved : Option ErrorKind) :
    (s.granted tokens now saved).refresh = tokens.refresh.or s.refresh := by
  obtain ⟨storeError, h⟩ := granted_eq (s := s) tokens now saved
  rw [h]
  rfl

@[simp] theorem granted_lastFailure (tokens : Tokens) (now : ℕ) (saved : Option ErrorKind) :
    (s.granted tokens now saved).lastFailure = none := by
  obtain ⟨storeError, h⟩ := granted_eq (s := s) tokens now saved
  rw [h]
  rfl

@[simp] theorem granted_rejections (tokens : Tokens) (now : ℕ) (saved : Option ErrorKind) :
    (s.granted tokens now saved).rejections = 0 := by
  obtain ⟨storeError, h⟩ := granted_eq (s := s) tokens now saved
  rw [h]
  rfl

@[simp] theorem granted_rejected (tokens : Tokens) (now : ℕ) (saved : Option ErrorKind) :
    (s.granted tokens now saved).rejected = false := by
  obtain ⟨storeError, h⟩ := granted_eq (s := s) tokens now saved
  rw [h]
  rfl

/-- Only the credential that is held is posted, and only while it is not given up. -/
theorem mayPost_eq_ok {now : ℕ} {refresh : String} (h : s.mayPost now = .ok refresh) :
    s.refresh = some refresh ∧ s.rejected = false := by
  unfold mayPost at h
  split at h
  · exact absurd h nofun
  · rename_i hrejected
    split at h
    · exact absurd h nofun
    · split at h
      · rename_i r hr
        cases h
        exact ⟨hr, Bool.eq_false_iff.mpr hrejected⟩
      · exact absurd h nofun

end State

end HydrationAPI.Graph.Auth
