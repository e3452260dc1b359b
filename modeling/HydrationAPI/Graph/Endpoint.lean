import HydrationAPI.Graph.Download
import HydrationAPI.Lib.Uri

/-!
# Where the account token goes

Links, upload addresses and redirects are texts that a server or a file on disk has chosen, and some
requests are marked to go without the account's token. Every request passes one place that adds the
token, to what is marked and addresses the Graph endpoint, and refuses what is marked and does not.

Whether a text addresses the endpoint is decided by cutting it up by hand. It is compared here with
what the text says by the generic syntax of a URI: whatever the hand-written test accepts has scheme
`https`, and its authority, which has one reading, names the Graph host and the default port.
-/

namespace HydrationAPI.Graph

/-! ## The test -/

/-- The one host a credential is sent to. -/
def graphHost : String := "graph.microsoft.com"

def lowercase (s : List Char) : List Char := s.map Char.toLower

def eqIgnoreAsciiCase (a b : String) : Bool := lowercase a.toList == lowercase b.toList

/-- The last `@` ends the user information, which may itself contain one. -/
def afterUserinfo (authority : String) : String :=
  match Text.rsplitOnce (String.singleton '@') authority with
  | some (_, host) => host
  | none => authority

def hostAndPort (hostPort : String) : String × String :=
  match Text.rsplitOnce (String.singleton ':') hostPort with
  | some (host, port) => (host, port)
  | none => (hostPort, "")

/-- Whether a link the service handed us may be fetched with our credentials. -/
def onTheGraphEndpoint (url : String) : Bool :=
  match Text.splitOnceOn "://" url with
  | none => false
  | some (scheme, rest) =>
    if ¬ eqIgnoreAsciiCase scheme "https" then false
    else
      -- a `/`, `?` or `#` ends the authority
      let authority := String.ofList (rest.toList.takeWhile fun c ↦ c ∉ ['/', '?', '#'])
      let (host, port) := hostAndPort (afterUserinfo authority)
      eqIgnoreAsciiCase host graphHost && (port == "" || port == "443")

/-- The scheme is `https`, and the authority names the Graph host and the default port. -/
def AddressesGraph (url : String) : Prop :=
  ∃ scheme rest text a, Uri.scheme url.toList = some (scheme, rest)
    ∧ lowercase scheme = "https".toList ∧ Uri.authority rest = some text ∧ Uri.Reads text a
    ∧ lowercase a.host = graphHost.toList
    ∧ (a.port = none ∨ a.port = some [] ∨ a.port = some ['4', '4', '3'])

section Endpoint

/-- A character occurs in a text only if its small form does in the text in small letters. -/
theorem not_mem_of_lowercase {s t : List Char} (h : lowercase s = t) {c : Char}
    (hc : c.toLower ∉ t) : c ∉ s := fun hmem ↦ hc (h ▸ List.mem_map_of_mem hmem)

theorem lowercase_eq {a b : String} (h : eqIgnoreAsciiCase a b = true)
    (hb : lowercase b.toList = b.toList) : lowercase a.toList = b.toList :=
  (beq_iff_eq.mp h).trans hb

theorem scheme_of_https {s rest : List Char} (h : lowercase s = "https".toList) :
    Uri.scheme (s ++ ':' :: rest) = some (s, rest) := by
  have hall : ∀ c ∈ s, decide (c ∉ [':', '/', '?', '#']) = true := by
    intro c hc
    refine decide_eq_true fun hmem ↦ ?_
    have hdelimiter : [':', '/', '?', '#'].all (fun d ↦ d.toLower ∉ "https".toList) = true := by
      decide +kernel
    exact not_mem_of_lowercase h (of_decide_eq_true (List.all_eq_true.mp hdelimiter c hmem)) hc
  have hhead : (s ++ ':' :: rest).takeWhile (fun c ↦ decide (c ∉ [':', '/', '?', '#'])) = s := by
    rw [List.takeWhile_append_of_pos hall, List.takeWhile_cons_of_neg (by decide), List.append_nil]
  have hne : s.isEmpty = false := by
    match s with
    | [] => exact absurd h (by decide)
    | _ :: _ => rfl
  rw [Uri.scheme, hhead, List.drop_left]
  simp [hne]

/-- What the test takes for user information, host and port is a reading of the authority. -/
theorem reads_of_rsplit {text : List Char} {userinfo port : Option (List Char)} {host : List Char}
    (htext : (Uri.Authority.mk userinfo host port).text = text)
    (hhost : lowercase host = graphHost.toList)
    (hport : ∀ p, port = some p → ∀ c ∈ p, c.isDigit = true) :
    Uri.Reads text ⟨userinfo, host, port⟩ := by
  refine ⟨⟨not_mem_of_lowercase hhost (by decide), fun hmem ↦ ?_, hport⟩, htext⟩
  exact absurd hmem (not_mem_of_lowercase hhost (by decide))

theorem hostAndPort_spec (text : String) : ∃ port : Option (List Char),
    (port = none ∨ port = some (hostAndPort text).2.toList)
      ∧ (Uri.Authority.mk none (hostAndPort text).1.toList port).hostPort = text.toList := by
  unfold hostAndPort
  split
  · rename_i host port hsplit
    exact ⟨some port.toList, Or.inr rfl, (Text.toList_of_rsplitOnce hsplit).1.symm⟩
  · exact ⟨none, Or.inl rfl, rfl⟩

theorem afterUserinfo_spec {text : String} {host : List Char} {port : Option (List Char)}
    (h : (Uri.Authority.mk none host port).hostPort = (afterUserinfo text).toList) :
    ∃ userinfo, (Uri.Authority.mk userinfo host port).text = text.toList := by
  unfold afterUserinfo at h
  split at h
  · rename_i userinfo rest hsplit
    refine ⟨some userinfo.toList, ?_⟩
    rw [(Text.toList_of_rsplitOnce hsplit).1, ← h]
    rfl
  · exact ⟨none, h⟩

/-- **Whatever passes the test addresses the Graph host**, by the generic syntax. -/
theorem addressesGraph_of_endpoint {url : String} (h : onTheGraphEndpoint url = true) :
    AddressesGraph url := by
  unfold onTheGraphEndpoint at h
  split at h
  · exact absurd h Bool.false_ne_true
  rename_i scheme rest hsplit
  split at h
  · exact absurd h Bool.false_ne_true
  rename_i hscheme
  have hhttps : lowercase scheme.toList = "https".toList :=
    lowercase_eq (not_not.mp hscheme) (by decide)
  have hurl : url.toList = scheme.toList ++ ':' :: ('/' :: '/' :: rest.toList) :=
    Text.toList_of_splitOnceOn hsplit
  generalize htext : rest.toList.takeWhile (fun c ↦ decide (c ∉ ['/', '?', '#'])) = text at h
  obtain ⟨port, hport, hhostPort⟩ := hostAndPort_spec (afterUserinfo (String.ofList text))
  dsimp only at h
  generalize hostAndPort (afterUserinfo (String.ofList text)) = parts at h hport hhostPort
  obtain ⟨host, portText⟩ := parts
  obtain ⟨userinfo, huserinfo⟩ := afterUserinfo_spec hhostPort
  obtain ⟨hsame, hdefault⟩ := Bool.and_eq_true_iff.mp h
  have hhost := lowercase_eq hsame (by decide)
  have hdefault' : port = none ∨ port = some [] ∨ port = some ['4', '4', '3'] := by
    rcases hport with rfl | rfl
    · exact Or.inl rfl
    · rcases Bool.or_eq_true_iff.mp hdefault with hp | hp
      · rw [beq_iff_eq.mp hp]
        exact Or.inr (Or.inl (by decide))
      · rw [beq_iff_eq.mp hp]
        exact Or.inr (Or.inr (by decide))
  refine ⟨scheme.toList, '/' :: '/' :: rest.toList, text,
    ⟨userinfo, host.toList, port⟩, ?_, hhttps, ?_, ?_, hhost, hdefault'⟩
  · rw [hurl]
    exact scheme_of_https hhttps
  · rw [Uri.authority, htext]
  · refine reads_of_rsplit ?_ hhost fun p hp c hc ↦ ?_
    · exact huserinfo.trans String.toList_ofList
    · rcases hdefault' with rfl | rfl | rfl
      · exact absurd hp nofun
      · cases hp
        exact absurd hc List.not_mem_nil
      · cases hp
        have hdigits : ['4', '4', '3'].all Char.isDigit = true := by decide +kernel
        exact List.all_eq_true.mp hdigits c hc

end Endpoint

end HydrationAPI.Graph
