import HydrationAPI.Graph.TokenRequests
import Mathlib.Algebra.BigOperators.Group.Finset.Basic
import Mathlib.Algebra.Order.BigOperators.Group.Finset

/-!
# Signing in with a device code

The service hands out a code for the user to type in elsewhere, and is asked again and again whether
that has happened. It says how long to wait between two questions and may ask for more; the code has
a moment at which it expires. Both are bounded when the code is read, and the number of questions is
bounded as well, for a clock that stands still.

What a sign-in meets is told turn by turn: what the clock says after the wait, what becomes of the
question, and what the clock says and whether the credential can be stored once there are tokens.
-/

namespace HydrationAPI.Graph.Auth

def slowDownStep : ℕ := 5 * second

def defaultPollInterval : ℕ := 5 * second

/-- A ceiling on the interval that the service may ask for. -/
def maxPollInterval : ℕ := 60 * second

/-- A ceiling on the questions, whatever the clock says. -/
def maxPollAttempts : ℕ := 512

/-! ## The code -/

/-- What the user is shown, and how the service is to be asked. -/
structure DeviceCode where
  deviceCode : String
  userCode : String
  verificationUri : String
  interval : ℕ
  /-- A moment, and not a lifetime. -/
  expiresAt : ℕ
  bounded : defaultPollInterval ≤ interval ∧ interval ≤ maxPollInterval
  deriving DecidableEq

/-- `char::is_control`. -/
def isControl (c : Char) : Bool := c.toNat < 32 || (127 ≤ c.toNat && c.toNat < 160)

/-- What may be printed to a terminal. -/
def printable (s : String) (max : ℕ) : Bool :=
  s ≠ "" && s.toList.length ≤ max && !s.toList.any isControl

/-- The interval that the service asks for, within its bounds. -/
def pollInterval (v : List (String × Value)) : ℕ :=
  max defaultPollInterval (min ((seconds v "interval").getD defaultPollInterval) maxPollInterval)

theorem pollInterval_bounded (v : List (String × Value)) :
    defaultPollInterval ≤ pollInterval v ∧ pollInterval v ≤ maxPollInterval :=
  ⟨le_max_left _ _, max_le (by decide) (min_le_right _ _)⟩

/-- The reply to the request for a code. -/
def readDeviceCode (reply : TokenReply) (now : ℕ) : Except AuthError DeviceCode :=
  match reply.body with
  | none => .error (.malformed "the reply was not JSON")
  | some v =>
    match oauthError v with
    | some e => .error e
    | none =>
      if ¬(200 ≤ reply.status ∧ reply.status < 300) then .error (.httpStatus reply.status)
      else match nonEmptyStr v "device_code" with
        | none => .error (.malformed "no device_code in the reply")
        | some deviceCode =>
          match nonEmptyStr v "user_code" with
          | none => .error (.malformed "no user_code in the reply")
          | some userCode =>
            -- both spellings are about, and the newer one wins
            match (nonEmptyStr v "verification_uri").or (nonEmptyStr v "verification_url") with
            | none => .error (.malformed "no verification_uri in the reply")
            | some uri =>
              if ¬printable userCode 64 then
                .error (.malformed "the user_code is not printable text")
              else if ¬(printable uri 512 && (Text.stripPrefix "https://" uri).isSome) then
                .error (.malformed "the verification_uri is not a printable https URL")
              else match seconds v "expires_in" with
                | none => .error (.malformed "no usable expires_in in the reply")
                | some expiresIn =>
                  .ok {
                    deviceCode := deviceCode
                    userCode := userCode
                    verificationUri := uri
                    interval := pollInterval v
                    expiresAt := later now (min expiresIn maxTokenLifetime)
                    bounded := pollInterval_bounded v }

/-- Ask for a device code. -/
def beginDeviceCode (cfg : AuthConfig) (transport : TokenRequest → Except ErrorKind TokenReply)
    (now : ℕ) : Except SignInError DeviceCode := do
  let reply ← post cfg cfg.deviceCodeRequest transport
  (readDeviceCode reply now).mapError .auth

/-! ## The questions -/

/-- What one turn of the loop meets. -/
structure Turn where
  /-- What the clock says after the wait. -/
  now : ℕ
  transport : TokenRequest → Except ErrorKind TokenReply
  /-- What it says when the tokens are installed. -/
  finish : ℕ
  saved : Option ErrorKind

/-- What a turn comes to. -/
inductive Answer where
  /-- The user has not finished. -/
  | pending
  | slower
  | ends (result : Except SignInError Tokens)
  deriving DecidableEq

/-- What becomes of the question. -/
def Turn.reply (cfg : AuthConfig) (code : DeviceCode) (t : Turn) : Answer :=
  match post cfg (cfg.deviceTokenRequest code.deviceCode) t.transport with
  | .error e => .ends (.error e)
  | .ok reply =>
    match readTokenReply reply with
    | .ok tokens => .ends (.ok tokens)
    | .error .authorizationPending => .pending
    | .error .slowDown => .slower
    | .error e => .ends (.error (.auth e))

/-- The service is not asked once the code has expired. -/
def Turn.answer (cfg : AuthConfig) (code : DeviceCode) (t : Turn) : Answer :=
  if code.expiresAt ≤ t.now then .ends (.error (.auth .deviceCodeExpired)) else t.reply cfg code

/-- What the loop does. -/
inductive Did where
  | slept (interval : ℕ)
  | asked (at' : ℕ)
  deriving DecidableEq, Repr

/-- What is done in a turn. -/
def Turn.does (code : DeviceCode) (interval : ℕ) (t : Turn) : List Did :=
  if code.expiresAt ≤ t.now then [.slept interval] else [.slept interval, .asked t.now]

/-- The interval after an answer. -/
def Answer.interval (interval : ℕ) : Answer → ℕ
  | .slower => min (later interval slowDownStep) maxPollInterval
  | .pending | .ends _ => interval

/-- The loop from turn `i` on, with so many attempts left. -/
def poll (cfg : AuthConfig) (code : DeviceCode) (turns : ℕ → Turn) :
    (left i interval : ℕ) → List Did × Except SignInError (Tokens × Turn)
  | 0, _, _ => ([], .error (.pollLimit maxPollAttempts))
  | left + 1, i, interval =>
    let did := (turns i).does code interval
    match (turns i).answer cfg code with
    | .ends result => (did, result.map (·, turns i))
    | .pending | .slower =>
      let next := ((turns i).answer cfg code).interval interval
      let (rest, result) := poll cfg code turns left (i + 1) next
      (did ++ rest, result)

/-- Poll until the user finishes, refuses, or runs out of time. -/
def completeDeviceCode (cfg : AuthConfig) (code : DeviceCode) (turns : ℕ → Turn) (s : State) :
    List Did × Except SignInError Unit × State :=
  match poll cfg code turns maxPollAttempts 0 code.interval with
  | (did, .ok (tokens, t)) => (did, .ok (), s.granted tokens t.finish t.saved)
  | (did, .error e) => (did, .error e, s)

/-! ## How it ends -/

section Ends

variable {cfg : AuthConfig} {code : DeviceCode} {turns : ℕ → Turn}

/-- The interval that is waited in a turn. -/
def intervalAt (cfg : AuthConfig) (code : DeviceCode) (turns : ℕ → Turn) : ℕ → ℕ
  | 0 => code.interval
  | i + 1 => ((turns i).answer cfg code).interval (intervalAt cfg code turns i)

/-- The answer is that the user has not finished, or that this is too fast. -/
def Answer.GoesOn : Answer → Prop
  | pending | slower => True
  | ends _ => False

/-- What is done in the turns from `i` on. -/
def done (cfg : AuthConfig) (code : DeviceCode) (turns : ℕ → Turn) (i n : ℕ) : List Did :=
  (List.range' i n).flatMap fun j ↦ (turns j).does code (intervalAt cfg code turns j)

theorem done_succ (i n : ℕ) : done cfg code turns i (n + 1)
    = (turns i).does code (intervalAt cfg code turns i) ++ done cfg code turns (i + 1) n := by
  rw [done, List.range'_succ, List.flatMap_cons]
  rfl

/-- A turn that goes on leaves the rest to the turns after it. -/
theorem poll_succ {left i : ℕ} (h : ((turns i).answer cfg code).GoesOn) :
    poll cfg code turns (left + 1) i (intervalAt cfg code turns i)
      = ((turns i).does code (intervalAt cfg code turns i)
          ++ (poll cfg code turns left (i + 1) (intervalAt cfg code turns (i + 1))).1,
        (poll cfg code turns left (i + 1) (intervalAt cfg code turns (i + 1))).2) := by
  rw [poll, intervalAt]
  cases hanswer : (turns i).answer cfg code with
  | pending => rfl
  | slower => rfl
  | ends result =>
    rw [hanswer] at h
    exact h.elim

theorem poll_ends {left k : ℕ} {result : Except SignInError Tokens} (hk : k < left) (i : ℕ)
    (hbefore : ∀ j < k, ((turns (i + j)).answer cfg code).GoesOn)
    (hend : (turns (i + k)).answer cfg code = .ends result) :
    poll cfg code turns left i (intervalAt cfg code turns i)
      = (done cfg code turns i (k + 1), result.map (·, turns (i + k))) := by
  induction k generalizing left i with
  | zero =>
    obtain ⟨left, rfl⟩ := Nat.exists_eq_succ_of_ne_zero (Nat.ne_of_gt hk)
    rw [Nat.add_zero] at hend
    rw [Nat.succ_eq_add_one, poll, hend, done_succ]
    exact Prod.ext (List.append_nil _).symm rfl
  | succ k ih =>
    obtain ⟨left, rfl⟩ := Nat.exists_eq_succ_of_ne_zero (Nat.ne_of_gt (Nat.zero_lt_of_lt hk))
    have hstep : i + (k + 1) = i + 1 + k := by omega
    have hrest := ih (Nat.lt_of_succ_lt_succ hk) (i + 1)
      (fun j hj ↦ by rw [Nat.add_right_comm]; exact hbefore (j + 1) (by omega)) (hstep ▸ hend)
    have hfirst : ((turns i).answer cfg code).GoesOn := hbefore 0 (Nat.succ_pos k)
    rw [Nat.succ_eq_add_one, poll_succ hfirst, hrest, done_succ i (k + 1), hstep]

theorem poll_limit {left : ℕ} (i : ℕ)
    (hall : ∀ j < left, ((turns (i + j)).answer cfg code).GoesOn) :
    poll cfg code turns left i (intervalAt cfg code turns i)
      = (done cfg code turns i left, .error (.pollLimit maxPollAttempts)) := by
  induction left generalizing i with
  | zero => rfl
  | succ left ih =>
    have hrest := ih (i + 1) fun j hj ↦ by
      rw [Nat.add_right_comm]
      exact hall (j + 1) (by omega)
    have hfirst : ((turns i).answer cfg code).GoesOn := hall 0 (Nat.succ_pos left)
    rw [poll_succ hfirst, hrest, done_succ]

/-- Of so many turns all go on, or there is a first that does not. -/
theorem first_end (cfg : AuthConfig) (code : DeviceCode) (turns : ℕ → Turn) (n : ℕ) :
    (∀ j < n, ((turns j).answer cfg code).GoesOn)
    ∨ ∃ k < n, ∃ result, (∀ j < k, ((turns j).answer cfg code).GoesOn)
      ∧ (turns k).answer cfg code = .ends result := by
  induction n with
  | zero => exact Or.inl fun j hj ↦ absurd hj (Nat.not_lt_zero j)
  | succ n ih =>
    rcases ih with hall | ⟨k, hk, result, hbefore, hend⟩
    · cases hn : (turns n).answer cfg code with
      | ends result => exact Or.inr ⟨n, Nat.lt_succ_self n, result, hall, hn⟩
      | pending | slower =>
        refine Or.inl fun j hj ↦ ?_
        rcases Nat.lt_succ_iff_lt_or_eq.mp hj with hj | rfl
        · exact hall j hj
        · rw [hn]
          trivial
    · exact Or.inr ⟨k, Nat.lt_succ_of_lt hk, result, hbefore, hend⟩

/-- What is made of the answer that ends it. -/
def settledBy (s : State) (t : Turn) : Except SignInError Tokens → Except SignInError Unit × State
  | .ok tokens => (.ok (), s.granted tokens t.finish t.saved)
  | .error e => (.error e, s)

theorem completeDeviceCode_ends {k : ℕ} {result : Except SignInError Tokens} (s : State)
    (hk : k < maxPollAttempts) (hbefore : ∀ j < k, ((turns j).answer cfg code).GoesOn)
    (hend : (turns k).answer cfg code = .ends result) :
    completeDeviceCode cfg code turns s
      = (done cfg code turns 0 (k + 1), settledBy s (turns k) result) := by
  have hstart : code.interval = intervalAt cfg code turns 0 := rfl
  have hpoll := poll_ends hk 0 (fun j hj ↦ by rw [Nat.zero_add]; exact hbefore j hj)
    (by rw [Nat.zero_add]; exact hend)
  rw [completeDeviceCode, hstart, hpoll, Nat.zero_add]
  cases result with
  | ok tokens => rfl
  | error e => rfl

theorem completeDeviceCode_limit (s : State)
    (hall : ∀ j < maxPollAttempts, ((turns j).answer cfg code).GoesOn) :
    completeDeviceCode cfg code turns s
      = (done cfg code turns 0 maxPollAttempts, .error (.pollLimit maxPollAttempts), s) := by
  have hstart : code.interval = intervalAt cfg code turns 0 := rfl
  have hpoll := poll_limit 0 (fun j (hj : j < maxPollAttempts) ↦ by
    rw [Nat.zero_add]
    exact hall j hj)
  rw [completeDeviceCode, hstart, hpoll]

/-- **The first answer that is neither of the two decides**: whatever the service says and the clock
shows, the sign-in takes the turns up to the first answer that is not to go on, and ends as that
answer says; the credential is touched only by tokens that came before the code had expired. Where
there is no such answer it gives up after the last attempt. -/
theorem completeDeviceCode_spec (cfg : AuthConfig) (code : DeviceCode) (turns : ℕ → Turn)
    (s : State) :
    (∃ k < maxPollAttempts, ∃ result, (∀ j < k, ((turns j).answer cfg code).GoesOn)
        ∧ (turns k).answer cfg code = .ends result
        ∧ completeDeviceCode cfg code turns s
          = (done cfg code turns 0 (k + 1), settledBy s (turns k) result))
      ∨ (∀ j < maxPollAttempts, ((turns j).answer cfg code).GoesOn)
        ∧ completeDeviceCode cfg code turns s
          = (done cfg code turns 0 maxPollAttempts, .error (.pollLimit maxPollAttempts), s) := by
  rcases first_end cfg code turns maxPollAttempts with hall | ⟨k, hk, result, hbefore, hend⟩
  · exact Or.inr ⟨hall, completeDeviceCode_limit s hall⟩
  · exact Or.inl ⟨k, hk, result, hbefore, hend, completeDeviceCode_ends s hk hbefore hend⟩

end Ends

/-! ## How often it asks -/

section Pace

variable {cfg : AuthConfig} {code : DeviceCode} {turns : ℕ → Turn} {s : State} {start : ℕ}

/-- The clock does not go back, and a wait takes no less than it should. -/
structure Honest (cfg : AuthConfig) (code : DeviceCode) (turns : ℕ → Turn) (start : ℕ) : Prop where
  first : start + code.interval ≤ (turns 0).now
  next : ∀ i, (turns i).now + intervalAt cfg code turns (i + 1) ≤ (turns (i + 1)).now

/-- When the service is asked. -/
def asked (did : List Did) : List ℕ :=
  did.filterMap fun
    | .slept _ => none
    | .asked t => some t

end Pace

end HydrationAPI.Graph.Auth
