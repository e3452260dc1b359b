import HydrationAPI.Lib.Text

/-!
# The generic syntax of a URI

RFC 3986, as far as the authority: a text is taken apart by the expression of its appendix B, and an
authority is user information, a host and a port. A host contains no `@`, and contains a colon only
inside brackets, and a port is digits. That is all it takes for an authority to have one reading.
-/

namespace Uri

/-- The scheme, and what follows it: `([^:/?#]+):`. -/
def scheme (s : List Char) : Option (List Char × List Char) :=
  let head := s.takeWhile fun c ↦ c ∉ [':', '/', '?', '#']
  match s.drop head.length with
  | ':' :: rest => if head.isEmpty then none else some (head, rest)
  | _ => none

/-- The authority of what follows the scheme: `//([^/?#]*)`. -/
def authority : List Char → Option (List Char)
  | '/' :: '/' :: rest => some (rest.takeWhile fun c ↦ c ∉ ['/', '?', '#'])
  | _ => none

/-- `[ userinfo "@" ] host [ ":" port ]`. -/
structure Authority where
  userinfo : Option (List Char)
  host : List Char
  port : Option (List Char)
  deriving DecidableEq

namespace Authority

variable {a b : Authority}

/-- The host with the port. -/
def hostPort (a : Authority) : List Char :=
  match a.port with
  | some port => a.host ++ ':' :: port
  | none => a.host

def text (a : Authority) : List Char :=
  match a.userinfo with
  | some userinfo => userinfo ++ '@' :: a.hostPort
  | none => a.hostPort

structure WellFormed (a : Authority) : Prop where
  no_at : '@' ∉ a.host
  /-- Only an address in brackets contains a colon. -/
  bracketed : ':' ∈ a.host → a.host.head? = some '[' ∧ a.host.getLast? = some ']'
  digits : ∀ port, a.port = some port → ∀ c ∈ port, c.isDigit = true

theorem WellFormed.not_mem_port (ha : a.WellFormed) {port : List Char} (hport : a.port = some port)
    {c : Char} (hc : c.isDigit = false) : c ∉ port := by
  intro hmem
  rw [ha.digits port hport c hmem] at hc
  exact absurd hc.symm Bool.false_ne_true

theorem WellFormed.not_mem_hostPort (ha : a.WellFormed) : '@' ∉ a.hostPort := by
  unfold hostPort
  split
  · rename_i port hport
    rw [List.mem_append, List.mem_cons, not_or, not_or]
    exact ⟨ha.no_at, by decide, ha.not_mem_port hport (by decide)⟩
  · exact ha.no_at

/-- What ends in a port is no bare host: a bare host with a colon ends in a bracket. -/
theorem WellFormed.host_ne (ha : a.WellFormed) {host port : List Char}
    (hport : ∀ c ∈ port, c.isDigit = true) : host ++ ':' :: port ≠ a.host := by
  intro heq
  have hcolon : ':' ∈ a.host := heq ▸ List.mem_append_cons_self
  have hlast := (ha.bracketed hcolon).2
  rw [← heq, List.getLast?_append_cons] at hlast
  rcases List.mem_cons.mp (List.mem_of_getLast? hlast) with hbracket | hbracket
  · exact absurd hbracket (by decide)
  · exact absurd (hport _ hbracket) (by decide)

theorem hostPort_injective (ha : a.WellFormed) (hb : b.WellFormed) (h : a.hostPort = b.hostPort) :
    a.host = b.host ∧ a.port = b.port := by
  unfold hostPort at h
  match hpa : a.port, hpb : b.port with
  | some p, some q =>
    rw [hpa, hpb] at h
    obtain ⟨hhost, hport⟩ := Text.append_cons_inj (ha.not_mem_port hpa (by decide))
      (hb.not_mem_port hpb (by decide)) h
    exact ⟨hhost, congrArg some hport⟩
  | some p, none =>
    rw [hpa, hpb] at h
    exact absurd h (hb.host_ne (ha.digits p hpa))
  | none, some q =>
    rw [hpa, hpb] at h
    exact absurd h.symm (ha.host_ne (hb.digits q hpb))
  | none, none =>
    rw [hpa, hpb] at h
    exact ⟨h, rfl⟩

/-- **An authority has one reading.** -/
theorem text_injective (ha : a.WellFormed) (hb : b.WellFormed) (h : a.text = b.text) : a = b := by
  have hsplit : a.userinfo = b.userinfo ∧ a.hostPort = b.hostPort := by
    unfold text at h
    match hua : a.userinfo, hub : b.userinfo with
    | some u, some v =>
      rw [hua, hub] at h
      obtain ⟨huser, hrest⟩ := Text.append_cons_inj ha.not_mem_hostPort hb.not_mem_hostPort h
      exact ⟨congrArg some huser, hrest⟩
    | some u, none =>
      rw [hua, hub] at h
      change u ++ '@' :: a.hostPort = b.hostPort at h
      exact absurd (h ▸ List.mem_append_cons_self) hb.not_mem_hostPort
    | none, some v =>
      rw [hua, hub] at h
      change a.hostPort = v ++ '@' :: b.hostPort at h
      exact absurd (h ▸ List.mem_append_cons_self) ha.not_mem_hostPort
    | none, none =>
      rw [hua, hub] at h
      exact ⟨rfl, h⟩
  obtain ⟨hhost, hport⟩ := hostPort_injective ha hb hsplit.2
  match a, b, hsplit.1, hhost, hport with
  | ⟨_, _, _⟩, ⟨_, _, _⟩, rfl, rfl, rfl => rfl

end Authority

/-- The authority is read as this. -/
def Reads (text : List Char) (a : Authority) : Prop := a.WellFormed ∧ a.text = text

theorem Reads.unique {text : List Char} {a b : Authority} (ha : Reads text a) (hb : Reads text b) :
    a = b := Authority.text_injective ha.1 hb.1 (ha.2.trans hb.2.symm)

end Uri
