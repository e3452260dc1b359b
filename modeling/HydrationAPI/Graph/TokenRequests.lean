import HydrationAPI.Graph.Auth
import HydrationAPI.Graph.Endpoint
import HydrationAPI.Lib.Checks
import HydrationAPI.Lib.Urlencoded
import HydrationAPI.Lib.Utf8

/-!
# Where the credential goes

Three requests carry a secret: the one for a device code, the one that trades it in, and the
refresh. They can be built from a configuration only, and a configuration judges its host and its
tenant when it is told them and carries the judgement with it. A request is a form in a body, under
an address that is put together from the two.
-/

namespace HydrationAPI.Graph.Auth

/-! ## The configuration -/

/-- The scope without which there is no refresh token. -/
def offlineAccess : String := "offline_access"

def deviceCodeGrant : String := "urn:ietf:params:oauth:grant-type:device_code"

/-- A tenant is a path segment. -/
def checkTenant (tenant : String) : Except String Unit :=
  if tenant = "" ∨ 64 < tenant.utf8ByteSize then .error "tenant is empty or too long"
  else if tenant = "." ∨ tenant = ".." then .error "tenant is a relative path"
  else if ¬tenant.toList.all (fun c ↦ c.isAlphanum || c == '-' || c == '.') then
    .error "tenant is not a bare path segment"
  else .ok ()

def checkLabel (label : String) : Except String Unit :=
  if label = "" then .error "authority host has an empty label"
  else if label.toList.head? = some '-' ∨ label.toList.getLast? = some '-' then
    .error "authority host label is malformed"
  else if ¬label.toList.all (fun c ↦ c.isAlphanum || c == '-') then
    .error "authority host is not a bare host"
  else .ok ()

/-- A host is labels of letters, digits and hyphens, separated by dots. -/
def checkHost (host : String) : Except String Unit :=
  if host = "" ∨ 253 < host.utf8ByteSize then .error "authority host is empty or too long"
  else (Text.split '.' host).forM checkLabel

/-- What has been judged stays judged. -/
structure AuthConfig where
  clientId : String
  tenant : String
  authorityHost : String
  scopes : List String
  tenant_ok : checkTenant tenant = .ok ()
  host_ok : checkHost authorityHost = .ok ()
  offline : offlineAccess ∈ scopes

namespace AuthConfig

def withTenant (cfg : AuthConfig) (tenant : String) : Except String AuthConfig :=
  match h : checkTenant tenant with
  | .ok () => .ok { cfg with tenant := tenant, tenant_ok := h }
  | .error e => .error e

def withAuthorityHost (cfg : AuthConfig) (host : String) : Except String AuthConfig :=
  match h : checkHost host with
  | .ok () => .ok { cfg with authorityHost := host, host_ok := h }
  | .error e => .error e

/-- The scope that refreshes need is added again, whatever the caller passed. -/
def addOffline (scopes : List String) : List String :=
  if scopes.any (· == offlineAccess) then scopes else scopes ++ [offlineAccess]

theorem mem_addOffline (scopes : List String) : offlineAccess ∈ addOffline scopes := by
  rw [addOffline]
  split
  · rename_i h
    obtain ⟨s, hs, heq⟩ := List.any_eq_true.mp h
    rwa [← beq_iff_eq.mp heq]
  · exact List.mem_append_right _ (List.mem_singleton_self _)

def withScopes (cfg : AuthConfig) (scopes : List String) : AuthConfig :=
  { cfg with scopes := addOffline scopes, offline := mem_addOffline scopes }

end AuthConfig

/-! ## The requests -/

/-- Which of the three requests this is. -/
inductive Grant where
  | deviceCode
  | deviceToken
  | refresh
  deriving DecidableEq, Repr

/-- One form, posted to the identity platform. -/
structure TokenRequest where
  grant : Grant
  url : String
  body : String
  deriving DecidableEq, Repr

/-- What stands for itself in a form. -/
def formSafe (b : UInt8) : Bool :=
  let n := b.toNat
  ('A'.toNat ≤ n && n ≤ 'Z'.toNat) || ('a'.toNat ≤ n && n ≤ 'z'.toNat)
    || ('0'.toNat ≤ n && n ≤ '9'.toNat) || n ∈ ['-', '.', '_', '~'].map Char.toNat

/-- The names and the values as octets. -/
def octets (pairs : List (String × String)) : List (List UInt8 × List UInt8) :=
  pairs.map fun p ↦ (Utf8.encode p.1, Utf8.encode p.2)

/-- `application/x-www-form-urlencoded`. -/
def form (pairs : List (String × String)) : String :=
  String.ofList (Urlencoded.write formSafe (octets pairs))

namespace AuthConfig

variable (cfg : AuthConfig)

/-- An address of the tenant. -/
def url (last : String) : String :=
  "https://" ++ cfg.authorityHost ++ "/" ++ cfg.tenant ++ "/oauth2/v2.0/" ++ last

def deviceCodeUrl : String := cfg.url "devicecode"

def tokenUrl : String := cfg.url "token"

def scopeParam : String := " ".intercalate cfg.scopes

def deviceCodeRequest : TokenRequest where
  grant := .deviceCode
  url := cfg.deviceCodeUrl
  body := form [("client_id", cfg.clientId), ("scope", cfg.scopeParam)]

def deviceTokenRequest (deviceCode : String) : TokenRequest where
  grant := .deviceToken
  url := cfg.tokenUrl
  body := form [("client_id", cfg.clientId), ("grant_type", deviceCodeGrant),
    ("device_code", deviceCode)]

def refreshRequest (refresh : String) : TokenRequest where
  grant := .refresh
  url := cfg.tokenUrl
  body := form [("client_id", cfg.clientId), ("grant_type", "refresh_token"),
    ("refresh_token", refresh), ("scope", cfg.scopeParam)]

end AuthConfig

/-- Whether a URL addresses the authority that is configured. -/
def onTheAuthority (url host : String) : Bool :=
  match Text.splitOnceOn "://" url with
  | none => false
  | some (scheme, rest) =>
    if ¬eqIgnoreAsciiCase scheme "https" then false
    else
      let authority := String.ofList (rest.toList.takeWhile fun c ↦ c ∉ ['/', '?', '#'])
      let (found, port) := hostAndPort (afterUserinfo authority)
      eqIgnoreAsciiCase found host && (port == "" || port == "443")

/-- What a sign-in ends with when it fails. -/
inductive SignInError where
  /-- The request does not address the authority. -/
  | foreignEndpoint
  | pollLimit (attempts : ℕ)
  | auth (e : AuthError)
  deriving DecidableEq, Repr

/-- Post a request, if it addresses the authority. -/
def post (cfg : AuthConfig) (request : TokenRequest)
    (transport : TokenRequest → Except ErrorKind TokenReply) : Except SignInError TokenReply :=
  if ¬onTheAuthority request.url cfg.authorityHost then .error .foreignEndpoint
  else (transport request).mapError fun kind ↦ .auth (.transport kind)

/-! ## What stands in a host and a tenant -/

/-- Letters, digits, hyphens and dots. -/
def Bare (s : String) : Prop := ∀ c ∈ s.toList, c.isAlphanum = true ∨ c = '-' ∨ c = '.'

theorem bare_of_checkTenant {tenant : String} (h : checkTenant tenant = .ok ()) :
    Bare tenant ∧ tenant ≠ "." ∧ tenant ≠ ".." := by
  rw [checkTenant] at h
  split_ifs at h with hsize hdots hall
  refine ⟨fun c hc ↦ ?_, not_or.mp hdots⟩
  have hc := List.all_eq_true.mp hall c hc
  rw [Bool.or_eq_true, Bool.or_eq_true, beq_iff_eq, beq_iff_eq, or_assoc] at hc
  exact hc

theorem bare_of_checkLabel {label : String} (h : checkLabel label = .ok ()) :
    ∀ c ∈ label.toList, c.isAlphanum = true ∨ c = '-' := by
  rw [checkLabel] at h
  split_ifs at h with hempty hhyphen hall
  intro c hc
  have hc := List.all_eq_true.mp hall c hc
  rwa [Bool.or_eq_true, beq_iff_eq] at hc

theorem forM_checkLabel {labels : List String} (h : labels.forM checkLabel = .ok ()) :
    ∀ label ∈ labels, checkLabel label = .ok () := by
  induction labels with
  | nil => exact fun _ hmem ↦ absurd hmem List.not_mem_nil
  | cons label labels ih =>
    obtain ⟨_, hlabel, hrest⟩ := Checks.bind_eq_ok_iff.mp h
    exact List.forall_mem_cons.mpr ⟨hlabel, ih hrest⟩

theorem bare_of_checkHost {host : String} (h : checkHost host = .ok ()) : Bare host := by
  rw [checkHost] at h
  split_ifs at h with hsize
  intro c hc
  by_contra hnot
  rw [not_or, not_or] at hnot
  rw [← Text.intercalate_split '.' host] at hc
  refine Text.not_mem_intercalate hnot.2.2 (fun label hlabel hmem ↦ ?_) hc
  rcases bare_of_checkLabel (forM_checkLabel h label hlabel) c hmem with halnum | hhyphen
  · exact hnot.1 halnum
  · exact hnot.2.1 hhyphen

theorem Bare.not_mem {s : String} (h : Bare s) {c : Char}
    (hc : c ∈ ['/', '?', '#', '@', ':', '%']) : c ∉ s.toList := by
  intro hmem
  have hnot : (['/', '?', '#', '@', ':', '%'].all fun c ↦
      decide (¬(c.isAlphanum = true ∨ c = '-' ∨ c = '.'))) = true := by decide
  exact of_decide_eq_true (List.all_eq_true.mp hnot c hc) (h c hmem)

theorem ascii_of_isAlphanum {c : Char} (h : c.isAlphanum = true) : c.toNat < 128 := by
  change (decide (c.val ≥ 'A'.val ∧ c.val ≤ 'Z'.val)
    || decide (c.val ≥ 'a'.val) && decide (c.val ≤ 'z'.val)
    || decide (c.val ≥ '0'.val) && decide (c.val ≤ '9'.val)) = true at h
  simp only [Bool.or_eq_true, Bool.and_eq_true, decide_eq_true_eq, UInt32.le_iff_toNat_le,
    ge_iff_le] at h
  change c.val.toNat < 128
  rcases h with (⟨-, hle⟩ | ⟨-, hle⟩) | ⟨-, hle⟩
  · exact lt_of_le_of_lt hle (by decide)
  · exact lt_of_le_of_lt hle (by decide)
  · exact lt_of_le_of_lt hle (by decide)

/-- Nothing in it is an escape. -/
theorem map_toNat_of_decode {cs : List Char} {bs : List UInt8}
    (h : ∀ c ∈ cs, c.isAlphanum = true ∨ c = '-' ∨ c = '.') (hread : Uri.decode cs = some bs) :
    cs.map Char.toNat = bs.map UInt8.toNat := by
  induction cs generalizing bs with
  | nil =>
    cases hread
    rfl
  | cons c cs ih =>
    obtain ⟨hc, hcs⟩ := List.forall_mem_cons.mp h
    have hplain : c ≠ '%' ∧ c.toNat < 128 := by
      rcases hc with halnum | rfl | rfl
      · refine ⟨?_, ascii_of_isAlphanum halnum⟩
        rintro rfl
        exact absurd halnum (by decide)
      · exact ⟨by decide, by decide⟩
      · exact ⟨by decide, by decide⟩
    rw [Uri.decode_plain hplain.1 hplain.2] at hread
    obtain ⟨rest, hrest, rfl⟩ := Option.map_eq_some_iff.mp hread
    rw [List.map_cons, List.map_cons, ih hcs hrest,
      UInt8.toNat_ofNat_of_lt' (lt_trans hplain.2 (by decide))]

/-- Only a dot reads as one, and only two dots read as two. -/
theorem Bare.undotted {s : String} (h : Bare s) (hdot : s ≠ ".") (hdots : s ≠ "..") :
    Uri.isDot s.toList = false ∧ Uri.isDotDot s.toList = false := by
  have heq : ∀ t : String, s.toList.map Char.toNat = t.toList.map Char.toNat → s = t :=
    fun t ht ↦ String.toList_inj.mp
      (List.map_injective_iff.mpr (fun _ _ ↦ Char.toNat_inj.mp) ht)
  refine ⟨decide_eq_false fun hread ↦ hdot (heq "." ?_),
    decide_eq_false fun hread ↦ hdots (heq ".." ?_)⟩
  · exact map_toNat_of_decode h hread
  · exact map_toNat_of_decode h hread

/-! ## Where a request goes, and what it says -/

theorem proper_formSafe : Urlencoded.Proper formSafe where
  plain b hb := by
    have hall : ∀ n < 256, formSafe (UInt8.ofNat n) = true →
        (UInt8.ofNat n).toNat < 128 ∧ (UInt8.ofNat n).toNat ≠ 37 := by decide +kernel
    have h := hall b.toNat b.toNat_lt
    rw [UInt8.ofNat_toNat] at h
    exact h hb
  plus := by decide
  ampersand := by decide
  equals := by decide

/-- A form says what was put into it, whatever characters stand in a value. -/
theorem read_form (pairs : List (String × String)) :
    Urlencoded.read (form pairs).toList = some (octets pairs) := by
  rw [form, String.toList_ofList]
  exact proper_formSafe.read_write (octets pairs)

namespace AuthConfig

variable (cfg : AuthConfig)

/-- It goes to the host that is configured, by the generic syntax and by the test that is made
before it is posted, and to the path of the tenant, which no client shortens. -/
structure Goes (url last : String) : Prop where
  allowed : onTheAuthority url cfg.authorityHost = true
  scheme : ∃ rest, Uri.scheme url.toList = some ("https".toList, rest)
    ∧ Uri.authority rest = some cfg.authorityHost.toList
  reads : Uri.Reads cfg.authorityHost.toList ⟨none, cfg.authorityHost.toList, none⟩
  path : Uri.normalize url.toList = Uri.origin "https".toList cfg.authorityHost.toList
    ++ '/' :: cfg.tenant.toList ++ "/oauth2/v2.0/".toList ++ last.toList

variable {cfg} {last : String}

theorem toList_url : (cfg.url last).toList = Uri.origin "https".toList cfg.authorityHost.toList
    ++ '/' :: cfg.tenant.toList ++ '/' :: ("oauth2/v2.0/".toList ++ last.toList) ++ [] := by
  simp [url, Uri.origin]

theorem onTheAuthority_url : onTheAuthority (cfg.url last) cfg.authorityHost = true := by
  have hbare := bare_of_checkHost cfg.host_ok
  have hcut : Text.splitOnceOn "://" (cfg.url last)
      = some ("https", cfg.authorityHost ++ ("/" ++ cfg.tenant ++ "/oauth2/v2.0/" ++ last)) := by
    have hurl : cfg.url last = "https" ++ "://"
        ++ (cfg.authorityHost ++ ("/" ++ cfg.tenant ++ "/oauth2/v2.0/" ++ last)) := by
      rw [← String.toList_inj]
      simp [url]
    rw [hurl]
    exact Text.splitOnceOn_append rfl (by decide) _
  have hauthority : String.ofList
      ((cfg.authorityHost ++ ("/" ++ cfg.tenant ++ "/oauth2/v2.0/" ++ last)).toList.takeWhile
        fun c ↦ c ∉ ['/', '?', '#']) = cfg.authorityHost := by
    have hall : ∀ c ∈ cfg.authorityHost.toList, decide (c ∉ ['/', '?', '#']) = true := by
      intro c hc
      refine decide_eq_true fun hmem ↦ hbare.not_mem (List.mem_append_left _ hmem) hc
    rw [String.toList_append, List.takeWhile_append_of_pos hall]
    simp [List.takeWhile_cons_of_neg]
  have huser : afterUserinfo cfg.authorityHost = cfg.authorityHost := by
    rw [afterUserinfo, Text.rsplitOnce_of_not_mem (hbare.not_mem (by decide))]
  have hport : hostAndPort cfg.authorityHost = (cfg.authorityHost, "") := by
    rw [hostAndPort, Text.rsplitOnce_of_not_mem (hbare.not_mem (by decide))]
  rw [onTheAuthority, hcut]
  dsimp only
  rw [if_neg (by decide), hauthority, huser, hport]
  simp [eqIgnoreAsciiCase]

/-- **Every address that can be built goes where the configuration says.** -/
theorem goes_url (hpath : ∀ c ∈ last.toList, Uri.inPath c = true) (hslash : '/' ∉ last.toList)
    (hdots : Uri.isDot last.toList = false ∧ Uri.isDotDot last.toList = false) :
    cfg.Goes (cfg.url last) last := by
  have hhost := bare_of_checkHost cfg.host_ok
  obtain ⟨htenant, hdot, hdotdot⟩ := bare_of_checkTenant cfg.tenant_ok
  have hscheme : ∀ c ∈ "https".toList, c ∉ [':', '/', '?', '#'] :=
    List.forall_iff_forall_mem.mp (by decide)
  have hdelimiters : ∀ c ∈ cfg.authorityHost.toList, c ∉ ['/', '?', '#'] := fun c hc hmem ↦
    hhost.not_mem (List.mem_append_left _ hmem) hc
  obtain ⟨front, hnormal, hplain⟩ :=
    Uri.exists_normalize hscheme (by decide) hdelimiters cfg.tenant.toList
  have hfront : front = Uri.origin "https".toList cfg.authorityHost.toList
      ++ '/' :: cfg.tenant.toList := by
    refine hplain (fun c hc ↦ ?_) ?_
    · refine decide_eq_true fun hmem ↦ ?_
      exact htenant.not_mem (List.mem_cons_of_mem _ (List.mem_append_left ['@', ':', '%'] hmem)) hc
    · rw [List.splitOn_eq_singleton (htenant.not_mem (by decide))]
      exact List.forall_mem_singleton.mpr (htenant.undotted hdot hdotdot)
  have hsegments : Uri.Undotted (("oauth2/v2.0/".toList ++ last.toList).splitOn '/') := by
    have hsplit : ("oauth2/v2.0/".toList ++ last.toList).splitOn '/'
        = ["oauth2".toList, "v2.0".toList, last.toList] := by
      change ("oauth2".toList ++ '/' :: ("v2.0".toList ++ '/' :: last.toList)).splitOn '/' = _
      rw [List.splitOn_append_cons_self, List.splitOn_append_cons_self,
        List.splitOn_eq_singleton hslash]
      rfl
    rw [hsplit]
    refine List.forall_mem_cons.mpr ⟨by decide +kernel, List.forall_mem_cons.mpr ⟨?_, ?_⟩⟩
    · decide +kernel
    · exact List.forall_mem_singleton.mpr hdots
  have hin : ∀ c ∈ "oauth2/v2.0/".toList ++ last.toList, Uri.inPath c = true := by
    intro c hc
    rcases List.mem_append.mp hc with hc | hc
    · have hfirst : ∀ c ∈ "oauth2/v2.0/".toList, Uri.inPath c = true :=
        List.forall_iff_forall_mem.mp (by decide)
      exact hfirst c hc
    · exact hpath c hc
  have hscheme' : Uri.scheme (cfg.url last).toList = some ("https".toList,
      '/' :: '/' :: cfg.authorityHost.toList
        ++ '/' :: (cfg.tenant.toList ++ "/oauth2/v2.0/".toList ++ last.toList)) := by
    rw [← Uri.scheme_append hscheme (by decide)]
    simp [url]
  have hreads : Uri.Reads cfg.authorityHost.toList ⟨none, cfg.authorityHost.toList, none⟩ := by
    refine ⟨⟨hhost.not_mem (by decide), fun hmem ↦ ?_, fun _ hport ↦ ?_⟩, rfl⟩
    · exact absurd hmem (hhost.not_mem (by decide))
    · cases hport
  refine ⟨onTheAuthority_url, ⟨_, hscheme', Uri.authority_append hdelimiters _⟩, hreads, ?_⟩
  rw [toList_url, hnormal _ [] hin hsegments (by intro c hc; cases hc), hfront]
  simp

variable (cfg)

/-- A request of one kind; the secret of it is the device code or the refresh token. -/
def request (secret : String) : Grant → TokenRequest
  | .deviceCode => cfg.deviceCodeRequest
  | .deviceToken => cfg.deviceTokenRequest secret
  | .refresh => cfg.refreshRequest secret

/-- The last segment of the address of a kind of request. -/
def endpoint : Grant → String
  | .deviceCode => "devicecode"
  | .deviceToken | .refresh => "token"

/-- What a kind of request says. -/
def content (secret : String) : Grant → List (String × String)
  | .deviceCode => [("client_id", cfg.clientId), ("scope", cfg.scopeParam)]
  | .deviceToken => [("client_id", cfg.clientId), ("grant_type", deviceCodeGrant),
      ("device_code", secret)]
  | .refresh => [("client_id", cfg.clientId), ("grant_type", "refresh_token"),
      ("refresh_token", secret), ("scope", cfg.scopeParam)]

/-- **The credential goes to the authority that is configured and arrives as it is**: every request
that can be built from a configuration is let out, goes to the one host and the one path that the
configuration names, and is read by the service as what was put into it. -/
theorem request_sent (secret : String) (grant : Grant)
    (transport : TokenRequest → Except ErrorKind TokenReply) :
    cfg.Goes (cfg.request secret grant).url (endpoint grant)
      ∧ Urlencoded.read (cfg.request secret grant).body.toList
        = some (octets (cfg.content secret grant))
      ∧ post cfg (cfg.request secret grant) transport
        = (transport (cfg.request secret grant)).mapError fun kind ↦ .auth (.transport kind) := by
  have hurl : (cfg.request secret grant).url = cfg.url (endpoint grant) := by cases grant <;> rfl
  have hbody : (cfg.request secret grant).body = form (cfg.content secret grant) := by
    cases grant <;> rfl
  have hlast : (endpoint grant).toList.all Uri.inPath = true
      ∧ '/' ∉ (endpoint grant).toList
      ∧ Uri.isDot (endpoint grant).toList = false
      ∧ Uri.isDotDot (endpoint grant).toList = false := by
    cases grant <;> exact ⟨by decide, by decide, by decide +kernel, by decide +kernel⟩
  obtain ⟨hall, hslash, hdots⟩ := hlast
  have hpath := List.all_eq_true.mp hall
  refine ⟨?_, ?_, ?_⟩
  · rw [hurl]
    exact goes_url hpath hslash hdots
  · rw [hbody]
    exact read_form _
  · rw [post, if_neg]
    rw [hurl, onTheAuthority_url]
    exact not_not.mpr rfl

end AuthConfig

end HydrationAPI.Graph.Auth
