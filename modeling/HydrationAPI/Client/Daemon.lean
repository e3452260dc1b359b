import HydrationAPI.Graph.Version
import HydrationAPI.Helper.Remote

/-!
# The daemon's end of a transfer

The sync daemon serves one request of the helper at a time: it looks the file up, and has the
provider pass the span on, in lines the helper holds against what it asked for. A connection can
be lost at any line, and the lines it carries are those the daemon sent, in order, with control
lines among them.

What the helper receives in full is then what the daemon's provider passed on.
-/

namespace HydrationAPI

/-- The bytes of an object, by their position in it. -/
abbrev Bytes := ℕ → UInt8

namespace Client

open HydrationAPI.Graph

/-- What the index of the directory holds about a file. -/
structure Entry where
  cloudId : Option String
  size : ℕ
  etag : Option String
  deriving DecidableEq

/-- A request of the helper. -/
structure Request where
  id : ℕ
  file : FileId
  span : Span
  deriving DecidableEq

/-- A line of the daemon, with the bytes that follow it. -/
inductive Line where
  | ready (id len : ℕ)
  | failed (id : ℕ) (e : IoError)
  | chunk (id : ℕ) (bytes : List UInt8)
  | done (id : ℕ)
  | abort (id : ℕ) (e : IoError)
  deriving DecidableEq

/-- Look again before giving up: the index may predate the file. -/
def resolveOrRescan (index walk : FileId → Option Entry) (file : FileId) : Option Entry :=
  (index file).or (walk file)

/-- One run of bytes, in chunks of at most `n`. -/
def chunked (n : ℕ) : ℕ → List UInt8 → List (List UInt8)
  | 0, _ => []
  | _, [] => []
  | fuel + 1, bytes => bytes.take n :: chunked n fuel (bytes.drop n)

/-- What `Body` puts on the wire for the bytes it is offered. -/
def bodyLines (id : ℕ) (taken : List (List UInt8)) : List Line :=
  (taken.flatMap fun piece ↦ chunked maxChunk piece.length piece).map (Line.chunk id)

/-- How the body ends: short of what was promised it is an abort. Nothing follows on a wire that
broke. -/
def finishLines (req : Request) (f : Fetched) : List Line :=
  if f.broken then []
  else match f.result with
    | .ok () =>
      let written := f.taken.flatten.length
      if written ≠ req.span.len then
        [.abort req.id ⟨.other, some eio,
          s!"provider delivered {req.span.len - written} bytes fewer than the object's size"⟩]
      else [.done req.id]
    | .error e => [.abort req.id ⟨.other, some eio, e.text⟩]

/-- One request of the serving loop, of a file the index holds `entry` about. -/
def serve (entry : Option Entry) (p : GraphProvider) (req : Request) (c : FetchCalls) :
    List Line × GraphProvider :=
  match entry with
  | none => ([.failed req.id ⟨.other, some eio, "no such file in this sync directory"⟩], p)
  | some e =>
    match e.cloudId with
    | none =>
      ([.failed req.id ⟨.other, some enodata,
        "the file has never been uploaded; the local copy is the only one"⟩], p)
    | some cloudId =>
      let stop := req.span.end'
      if e.size < stop then
        ([.failed req.id ⟨.other, some eio,
          s!"asked for {req.span.offset}..{stop} of an object this daemon has as {e.size} bytes"⟩],
          p)
      else
        let f := p.fetch cloudId e.size e.etag req.span c
        (.ready req.id req.span.len :: bodyLines req.id f.taken ++ finishLines req f, f.provider)

/-! ## What arrives -/

/-- The frames a connection carries of the lines that are sent, `total` bytes of a body that
belongs at `base` having arrived: control lines come at any time, and it can be lost at any. -/
inductive Arrives (base : ℕ) : ℕ → List Line → List (ToHelper Bytes) → Prop
  | lost (total : ℕ) (lines : List Line) : Arrives base total lines []
  | broken (total : ℕ) (lines : List Line) (e : IoError) (frames : List (ToHelper Bytes)) :
      Arrives base total lines (.broken e :: frames)
  | control {total : ℕ} {lines : List Line} {frames : List (ToHelper Bytes)} :
      Arrives base total lines frames → Arrives base total lines (.control :: frames)
  | ready {total : ℕ} {lines : List Line} {frames : List (ToHelper Bytes)} (id len : ℕ) :
      Arrives base total lines frames →
        Arrives base total (.ready id len :: lines) (.ready id len :: frames)
  | failed {total : ℕ} {lines : List Line} {frames : List (ToHelper Bytes)} (id : ℕ) (e : IoError) :
      Arrives base total lines frames →
        Arrives base total (.failed id e :: lines) (.failed id e :: frames)
  | chunk {total : ℕ} {lines : List Line} {frames : List (ToHelper Bytes)} (id : ℕ)
      (bytes : List UInt8) (version : Bytes) (time : ℕ) (fails : Option (ℕ × IoError))
      (hbytes : ∀ i < bytes.length, bytes[i]? = some (version (base + total + i))) :
      Arrives base (total + bytes.length) lines frames →
        Arrives base total (.chunk id bytes :: lines)
          (.chunk id bytes.length version time fails :: frames)
  | done {total : ℕ} {lines : List Line} {frames : List (ToHelper Bytes)} (id : ℕ) :
      Arrives base total lines frames →
        Arrives base total (.done id :: lines) (.done id :: frames)
  | abort {total : ℕ} {lines : List Line} {frames : List (ToHelper Bytes)} (id : ℕ) (e : IoError) :
      Arrives base total lines frames →
        Arrives base total (.abort id e :: lines) (.abort id e :: frames)

/-- The body the lines carry, where they carry all of it. -/
def bodyOf : List Line → Option (List UInt8)
  | [] => none
  | .ready _ _ :: lines => bodyOf lines
  | .chunk _ bytes :: lines => (bodyOf lines).map (bytes ++ ·)
  | .done _ :: _ => some []
  | .failed _ _ :: _ => none
  | .abort _ _ :: _ => none

theorem chunked_flatten {n : ℕ} (hn : 0 < n) :
    ∀ (fuel : ℕ) (bytes : List UInt8), bytes.length ≤ fuel →
      (chunked n fuel bytes).flatten = bytes := by
  intro fuel
  induction fuel with
  | zero =>
    intro bytes h
    rw [List.eq_nil_of_length_eq_zero (Nat.le_zero.mp h)]
    rfl
  | succ fuel ih =>
    intro bytes h
    cases bytes with
    | nil => rfl
    | cons b bytes =>
      have hlen : ((b :: bytes).drop n).length ≤ fuel := by
        rw [List.length_drop]
        omega
      rw [chunked, List.flatten_cons, ih _ hlen, List.take_append_drop]
      simp

theorem bodyOf_chunks (id : ℕ) (chunks : List (List UInt8)) (lines : List Line) :
    bodyOf (chunks.map (Line.chunk id) ++ lines)
      = (bodyOf lines).map (chunks.flatten ++ ·) := by
  induction chunks with
  | nil =>
    cases h : bodyOf lines with
    | none => simpa using h
    | some body => simpa using h
  | cons chunk chunks ih =>
    rw [List.map_cons, List.cons_append, bodyOf, ih, Option.map_map]
    congr 1
    funext body
    simp

/-- **The body that is sent in full** is what the provider passed on, having ended well. -/
theorem bodyOf_serve {entry : Option Entry} {p : GraphProvider} {req : Request} {c : FetchCalls}
    {body : List UInt8} (h : bodyOf (serve entry p req c).1 = some body) :
    ∃ e cloudId, entry = some e ∧ e.cloudId = some cloudId
      ∧ (p.fetch cloudId e.size e.etag req.span c).result = .ok ()
      ∧ body = (p.fetch cloudId e.size e.etag req.span c).taken.flatten := by
  unfold serve at h
  cases entry with
  | none => cases h
  | some e =>
    dsimp only at h
    cases hid : e.cloudId with
    | none => simp [hid, bodyOf] at h
    | some cloudId =>
      rw [hid] at h
      dsimp only at h
      split at h
      · cases h
      · refine ⟨e, cloudId, rfl, hid, ?_⟩
        rw [List.cons_append, bodyOf, bodyLines, bodyOf_chunks, Option.map_eq_some_iff] at h
        obtain ⟨tail, htail, hbody⟩ := h
        have hflat : ((p.fetch cloudId e.size e.etag req.span c).taken.flatMap
            fun piece ↦ chunked maxChunk piece.length piece).flatten
            = (p.fetch cloudId e.size e.etag req.span c).taken.flatten := by
          induction (p.fetch cloudId e.size e.etag req.span c).taken with
          | nil => rfl
          | cons piece taken ih =>
            rw [List.flatMap_cons, List.flatten_append, ih, List.flatten_cons,
              chunked_flatten (by decide) _ _ le_rfl]
        rw [hflat] at hbody
        rw [finishLines] at htail
        split at htail
        · cases htail
        · split at htail
          · rename_i hok
            dsimp only at htail
            split at htail
            · cases htail
            · cases htail
              exact ⟨hok, by rw [← hbody, List.append_nil]⟩
          · cases htail

/-- **A body that is received in full** was sent in full, and the last chunk that covers a byte is
the one that carried it. -/
theorem Arrives.last {base wantId expected total : ℕ} {lines : List Line}
    {frames : List (ToHelper Bytes)} (h : Arrives base total lines frames)
    (hres : (recvFrames base wantId expected total frames).result = .ok .complete) :
    ∃ body, bodyOf lines = some body
      ∧ ∀ x, base + total ≤ x → x < base + expected →
        ∃ v, lastAt (recvFrames base wantId expected total frames).chunks x = some v
          ∧ body[x - (base + total)]? = some (v x) := by
  induction h with
  | lost total lines => cases hres
  | broken total lines e frames => cases hres
  | control _ ih =>
    rw [recvFrames] at hres ⊢
    exact ih hres
  | ready id len _ ih =>
    rcases recvFrames_complete hres with ⟨hskip, -⟩ | ⟨_, _, _, _, hkind, -⟩ | ⟨-, _, hkind⟩
    · rw [hskip] at hres ⊢
      exact ih hres
    · cases hkind
    · cases hkind
  | failed id e _ ih =>
    rcases recvFrames_complete hres with ⟨-, h | ⟨_, _, h⟩⟩ | ⟨_, _, _, _, h, -⟩ | ⟨-, _, h⟩ <;>
      cases h
  | abort id e _ ih =>
    rcases recvFrames_complete hres with ⟨-, h | ⟨_, _, h⟩⟩ | ⟨_, _, _, _, h, -⟩ | ⟨-, _, h⟩ <;>
      cases h
  | done id _ ih =>
    rcases recvFrames_complete hres with
      ⟨-, h | ⟨_, _, h⟩⟩ | ⟨_, _, _, _, h, -⟩ | ⟨hfull, -⟩
    · cases h
    · cases h
    · cases h
    · exact ⟨[], rfl, fun x h1 h2 ↦ absurd h2 (by omega)⟩
  | @chunk total lines frames id bytes version time fails hbytes _ ih =>
    rcases recvFrames_complete hres with
      ⟨-, h | ⟨_, _, h⟩⟩ | ⟨_, len, _, _, heq, hfits, hrest, hchunks⟩ | ⟨-, _, h⟩
    · cases h
    · cases h
    · cases heq
      obtain ⟨body, hbody, hlast⟩ := ih hrest
      refine ⟨bytes ++ body, by rw [bodyOf, hbody]; rfl, fun x h1 h2 ↦ ?_⟩
      rw [hchunks, lastAt]
      by_cases hx : x < base + (total + bytes.length)
      · -- the chunks that follow start behind this one
        have hnone : lastAt
            (recvFrames base wantId expected (total + bytes.length) frames).chunks x = none := by
          rw [Option.eq_none_iff_forall_ne_some]
          intro v hv
          obtain ⟨d, hd, hcov, -⟩ := exists_of_lastAt hv
          have hin := (recvFrames_spec hfits).1 d hd
          have hcov1 := hcov.1
          omega
        refine ⟨version, ?_, ?_⟩
        · rw [hnone, if_pos ⟨h1, by dsimp only; omega⟩]
          rfl
        · rw [List.getElem?_append_left (by omega), hbytes _ (by omega)]
          congr 2
          omega
      · obtain ⟨v, hv, hat⟩ := hlast x (by omega) h2
        refine ⟨v, by rw [hv]; rfl, ?_⟩
        rw [List.getElem?_append_right (by omega), ← hat]
        congr 1
        omega
    · cases h

/-- The lines that are sent on a connection when a span is asked for there, should it be. -/
def Carries (conn : Connection Bytes) (span : Span) (lines : List Line) : Prop :=
  Arrives span.offset 0 lines conn.frames

/-- The body the lines carry in full, if they do, is the span of `whole`. -/
def CarriesSlice (whole : List UInt8) (span : Span) (lines : List Line) : Prop :=
  ∀ body, bodyOf lines = some body → IsSlice whole span body

private theorem attempt_last {conn : Connection Bytes} {span : Span} {lines : List Line}
    {whole : List UInt8} (hcarry : Carries conn span lines) (hslice : CarriesSlice whole span lines)
    {dead : Bool} {id : ℕ} (hres : (SocketFetch.attempt conn dead id span).result = .ok .complete)
    {x : ℕ} (h1 : span.offset ≤ x) (h2 : x < span.offset + span.len) :
    ∃ v, lastAt (SocketFetch.attempt conn dead id span).chunks x = some v
      ∧ whole[x]? = some (v x) := by
  have hask : (SocketFetch.ask conn id span).result = .ok .complete →
      ∃ v, lastAt (SocketFetch.ask conn id span).chunks x = some v ∧ whole[x]? = some (v x) := by
    rw [SocketFetch.ask]
    cases conn.send with
    | some e => rintro ⟨⟩
    | none =>
      dsimp only
      rw [recvStreamed]
      split
      · rintro ⟨⟩
      · intro h
        obtain ⟨body, hbody, hlast⟩ := Arrives.last hcarry h
        obtain ⟨v, hv, hat⟩ := hlast x h1 h2
        refine ⟨v, hv, ?_⟩
        rw [← (hslice body hbody).getElem?_eq h1 h2]
        exact hat
  rw [SocketFetch.attempt] at hres ⊢
  split at hres
  · rename_i hdead
    rw [if_pos hdead]
    cases hrevive : conn.revive with
    | some e => simp [hrevive] at hres
    | none =>
      rw [hrevive] at hres
      exact hask hres
  · rename_i hdead
    rw [if_neg hdead]
    exact hask hres

/-- **A delivery over the socket leaves the bytes of `whole`**, where what is sent on either
connection is the span of `whole` if it is sent in full. -/
theorem deliver_leaves {f : SocketFetch Bytes} {file : FileId} {size : ℕ} {span : Span}
    {whole : List UInt8} {first second : List Line}
    (hfirst : Carries f.first span first) (hsecond : Carries f.second span second)
    (hslice₁ : CarriesSlice whole span first) (hslice₂ : CarriesSlice whole span second) :
    (f.deliver file size span).Leaves fun x v ↦ whole[x]? = some (v x) := by
  intro hres _ x h1 h2
  have hcomplete := SocketFetch.answer_ok hres
  change ∃ v, lastAt (f.fetchInto file size span).chunks x = some v ∧ _
  rw [SocketFetch.fetchInto] at hcomplete ⊢
  split at hcomplete
  · cases hcomplete
  · split at hcomplete
    · cases hcomplete
    · rename_i hfsid
      rw [if_neg hfsid]
      dsimp only at hcomplete ⊢
      split at hcomplete
      · cases hcomplete
      · rename_i hstop
        rw [if_neg hstop]
        rw [SocketFetch.exchange] at hcomplete ⊢
        dsimp only at hcomplete ⊢
        split at hcomplete
        · rename_i hretry
          rw [if_pos hretry]
          -- what the lost connection left is written over
          obtain ⟨v, hv, hat⟩ := attempt_last hsecond hslice₂ hcomplete h1 h2
          exact ⟨v, by rw [lastAt_append, hv]; rfl, hat⟩
        · rename_i hretry
          rw [if_neg hretry]
          exact attempt_last hfirst hslice₁ hcomplete h1 h2

end Client

end HydrationAPI
