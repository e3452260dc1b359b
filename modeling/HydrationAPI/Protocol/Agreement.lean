import HydrationAPI.Protocol.Transport

/-!
# The two sides of a body agree

Whatever a provider writes, and however it leaves the body, the helper's side reports the end of the
object exactly where all that was promised was written and the body was finished; the sink is then
given what the provider wrote, in order and without gaps, and a transfer that ends as a transfer may
end leaves the connection at the next message. What is said of the sink and of the end of the object
does not rest on the other side: it holds of any bytes at all.

Between the two sides is a list of pieces: what a provider's writes come to on the wire, each behind
the line that announces it.
-/

namespace HydrationAPI.Transport

/-! ## What the sink is handed -/

/-- The calls follow one another without gaps. -/
def Contiguous : ℕ → List (ℕ × List UInt8) → Prop
  | _, [] => True
  | at_, c :: calls => c.1 = at_ ∧ Contiguous (at_ + c.2.length) calls

/-- The bytes of all calls. -/
def handed (calls : List (ℕ × List UInt8)) : List UInt8 := calls.flatMap Prod.snd

/-- The sink has failed at none of the calls. -/
def Took (dest : Sink) (calls : List (ℕ × List UInt8)) : Prop :=
  ∀ before after, calls = before ++ after → before ≠ [] → dest before = none

@[simp] theorem handed_append (as bs : List (ℕ × List UInt8)) :
    handed (as ++ bs) = handed as ++ handed bs := List.flatMap_append

@[simp] theorem handed_singleton (c : ℕ × List UInt8) : handed [c] = c.2 :=
  List.flatMap_singleton ..

theorem contiguous_append {at_ : ℕ} {as bs : List (ℕ × List UInt8)} :
    Contiguous at_ (as ++ bs) ↔ Contiguous at_ as ∧ Contiguous (at_ + (handed as).length) bs := by
  induction as generalizing at_ with
  | nil => simp [Contiguous, handed]
  | cons c as ih =>
    have hcons : (handed (c :: as)).length = c.2.length + (handed as).length := List.length_append
    rw [List.cons_append, Contiguous, Contiguous, ih, and_assoc, hcons, Nat.add_assoc]

theorem took_nil (dest : Sink) : Took dest [] := by
  intro before after h hne
  exact absurd (List.append_eq_nil_iff.mp h.symm).1 hne

theorem took_concat {dest : Sink} {calls : List (ℕ × List UInt8)} {c : ℕ × List UInt8} :
    Took dest (calls ++ [c]) ↔ Took dest calls ∧ dest (calls ++ [c]) = none := by
  constructor
  · intro h
    refine ⟨fun before after heq hne ↦ h before (after ++ [c]) ?_ hne, h _ [] ?_ ?_⟩
    · rw [heq, List.append_assoc]
    · rw [List.append_nil]
    · exact List.append_ne_nil_of_right_ne_nil _ (List.cons_ne_nil c [])
  · rintro ⟨htook, hlast⟩ before after heq hne
    rcases List.eq_nil_or_concat after with rfl | ⟨after, c', rfl⟩
    · rw [List.append_nil] at heq
      exact heq ▸ hlast
    · rw [List.concat_eq_append, ← List.append_assoc] at heq
      exact htook before after (List.append_inj' heq rfl).1 hne

/-! ## Any bytes at all -/

section Hostile

variable {text : Text} {dest : Sink} {wantId expected : ℕ} {p p' : Progress}

/-- What holds of a transfer under way. -/
structure Progress.Sound (dest : Sink) (expected : ℕ) (p : Progress) : Prop where
  contiguous : Contiguous 0 p.calls
  total : (handed p.calls).length = p.total
  le : p.total ≤ expected
  took : Took dest p.calls

/-- What holds of a transfer that has ended. -/
structure Received.Sound (dest : Sink) (expected : ℕ) (r : Received) : Prop where
  contiguous : Contiguous 0 r.calls
  le : (handed r.calls).length ≤ expected
  complete : r.result = .ok .complete → (handed r.calls).length = expected
  took : ∀ s, r.result = .ok s → Took dest r.calls

/-- What a frame comes to is sound. -/
def Turn.Sound (dest : Sink) (expected : ℕ) : Turn → Prop :=
  Turn.All (Progress.Sound dest expected) (Received.Sound dest expected)

theorem Progress.Sound.ended (h : p.Sound dest expected) {result : Except IoError Streamed}
    (hcomplete : result = .ok .complete → p.total = expected) :
    (p.ended result).Sound dest expected :=
  ⟨h.contiguous, h.total.trans_le h.le, fun hok ↦ h.total.trans (hcomplete hok), fun _ _ ↦ h.took⟩

theorem Progress.Sound.error (h : p.Sound dest expected) (e : IoError) :
    (p.ended (.error e)).Sound dest expected := h.ended nofun

theorem Progress.Sound.at (h : p.Sound dest expected) (r : Reader) :
    Progress.Sound dest expected { p with reader := r } :=
  ⟨h.contiguous, h.total, h.le, h.took⟩

/-- **One chunk.** -/
theorem Progress.Sound.takeChunk (h : p.Sound dest expected) (len : ℕ) :
    (takeChunk dest expected p len).Sound dest expected := by
  unfold Transport.takeChunk
  split
  · exact h.error _
  · rename_i hlen
    rw [not_or, not_or, Nat.not_lt, Nat.not_lt] at hlen
    split
    · exact (h.at _).error _
    · rename_i bytes r hbytes
      have hbytes' : bytes.length = len := (BufReader.rest_of_readExact hbytes).2
      have hcontiguous : Contiguous 0 (p.calls ++ [(p.total, bytes)]) :=
        contiguous_append.mpr ⟨h.contiguous, by rw [h.total, Nat.zero_add]; exact ⟨rfl, trivial⟩⟩
      have htotal : (handed (p.calls ++ [(p.total, bytes)])).length = p.total + len := by
        rw [handed_append, List.length_append, h.total, handed_singleton, hbytes']
      dsimp only
      split
      · exact ⟨hcontiguous, htotal.trans_le hlen.2.2, nofun, nofun⟩
      · rename_i htook
        exact ⟨hcontiguous, htotal, hlen.2.2, took_concat.mpr ⟨h.took, htook⟩⟩

theorem Progress.Sound.takeMessage (h : p.Sound dest expected) (msg : ToHelper) :
    (takeMessage dest expected p msg).Sound dest expected := by
  unfold Transport.takeMessage
  split
  · split
    · exact h.error _
    · exact h
  · exact h.takeChunk _
  · split
    · exact h.error _
    · rename_i htotal
      exact h.ended fun _ ↦ not_not.mp htotal
  · exact h.ended nofun
  · exact h.ended nofun
  · exact h

/-- **One frame**, whatever it is. -/
theorem Progress.Sound.turn (h : p.Sound dest expected) :
    (turn text dest wantId expected p).Sound dest expected := by
  unfold Transport.turn
  split
  · exact (h.at _).error _
  · rename_i line reader hline
    have hp := h.at reader
    dsimp only
    split
    · exact hp.error _
    · split
      · exact hp.error _
      · split
        · exact hp.error _
        · exact hp.takeMessage _

/-- **Any bytes at all** hand the sink no more than was asked for, without gaps, and do not end a
transfer that is short. -/
theorem recvStreamed_sound (text : Text) (dest : Sink) (wantId expected : ℕ) (r : Reader) :
    (recvStreamed text dest wantId expected r).Sound dest expected := by
  unfold recvStreamed
  split
  · exact ⟨trivial, Nat.zero_le _, nofun, nofun⟩
  · have hstart : Progress.Sound dest expected ⟨r, 0, [], []⟩ :=
      ⟨trivial, rfl, Nat.zero_le _, took_nil dest⟩
    exact recvFrames_induction (fun p hp ↦ hp.turn) hstart

end Hostile

/-! ## What a provider's writes come to -/

/-- The line a message is sent as. -/
def lineOf (text : Text) (m : ToHelper) : List UInt8 :=
  match text.encode m with
  | .ok line => line
  | .error _ => []

theorem Text.ReadsBack.encode {text : Text} {m : ToHelper} (h : text.ReadsBack m) :
    text.encode m = .ok (lineOf text m) := by
  obtain ⟨bytes, hbytes, -, -⟩ := h
  simp [lineOf, Text.encode, hbytes]

/-- A line is read as a whole, and as the message it was made of. -/
theorem Text.ReadsBack.line {text : Text} {m : ToHelper} (h : text.ReadsBack m)
    (after : List UInt8) :
    BufReader.cut newline (lineOf text m ++ after) = some (lineOf text m, after)
      ∧ lineOf text m ≠ [] ∧ text.decode (lineOf text m) = .ok m := by
  obtain ⟨bytes, hbytes, hline, hread⟩ := h
  have hlineOf : lineOf text m = bytes ++ [newline] := by simp [lineOf, Text.encode, hbytes]
  rw [hlineOf]
  refine ⟨?_, ?_, ?_⟩
  · rw [List.append_assoc]
    exact BufReader.cut_line hline after
  · exact List.append_ne_nil_of_right_ne_nil _ (List.cons_ne_nil _ [])
  · have hlast (hne : bytes ≠ []) : ¬ decide (bytes.getLast hne = newline) = true := by
      intro heq
      exact hline (of_decide_eq_true heq ▸ List.getLast_mem hne)
    have hdrop : (bytes ++ [newline]).rdropWhile (fun b ↦ decide (b = newline)) = bytes := by
      rw [List.rdropWhile_concat, if_pos (decide_eq_true rfl),
        List.rdropWhile_eq_self_iff.mpr hlast]
    rw [Text.decode, hdrop, hread]

/-- A connection that holds. -/
def Wire.Holds (w : Wire) : Prop := w.room = none ∧ w.shut = false

theorem Wire.Holds.writeAll {w : Wire} (h : w.Holds) (bytes : List UInt8) :
    w.writeAll bytes = (.ok (), { w with sent := w.sent ++ bytes }) := by
  rw [Wire.writeAll, if_neg (by rw [h.2]; exact Bool.false_ne_true), h.1]

/-- What a provider's writes come to: the pieces that are taken, at most a chunk of each. -/
def pieces (promised : ℕ) : ℕ → List (List UInt8) → List (List UInt8)
  | _, [] => []
  | written, buf :: bufs =>
    if buf = [] ∨ promised < written + buf.length then pieces promised written bufs
    else buf.take maxChunk :: pieces promised (written + min buf.length maxChunk) bufs

/-- A piece behind the line that announces it. -/
def framed (text : Text) (id : ℕ) (piece : List UInt8) : List UInt8 :=
  lineOf text (.chunk id piece.length) ++ piece

/-- What was taken of a write. -/
def accepted (buf : List UInt8) : Except IoError ℕ → List UInt8
  | .ok n => buf.take n
  | .error _ => []

/-- A body under way, on a connection that holds. -/
structure Body.Open (b : Body) : Prop where
  holds : b.writer.Holds
  finished : b.finished = false
  poisoned : b.poisoned = false

/-- The body, once more has been written. -/
def Body.wrote (b : Body) (text : Text) (ps : List (List UInt8)) : Body :=
  { b with
    writer := { b.writer with sent := b.writer.sent ++ ps.flatMap (framed text b.id) }
    written := b.written + ps.flatten.length }

section Daemon

variable {text : Text} {b : Body}

theorem Body.Open.wrote (h : b.Open) (text : Text) (ps : List (List UInt8)) :
    (b.wrote text ps).Open := ⟨h.holds, h.finished, h.poisoned⟩

/-- **One write**: nothing of it is taken, or as much as a chunk may carry. -/
theorem Body.Open.write (h : b.Open) (buf : List UInt8)
    (hreads : ∀ piece ∈ pieces b.promised b.written [buf],
      text.ReadsBack (.chunk b.id piece.length)) :
    (b.write text buf).2 = b.wrote text (pieces b.promised b.written [buf])
      ∧ accepted buf (b.write text buf).1 = (pieces b.promised b.written [buf]).flatten := by
  have hnone : b = b.wrote text [] := by simp [Body.wrote]
  rw [Body.write]
  by_cases hnil : buf = []
  · rw [if_pos hnil, pieces, if_pos (Or.inl hnil), pieces, hnil]
    exact ⟨hnone, rfl⟩
  · rw [if_neg hnil]
    by_cases hover : b.promised < b.written + buf.length
    · rw [if_pos hover, pieces, if_pos (Or.inr hover), pieces]
      exact ⟨hnone, rfl⟩
    · rw [pieces, if_neg (not_or.mpr ⟨hnil, hover⟩), pieces] at hreads ⊢
      have hlength : (buf.take maxChunk).length = min buf.length maxChunk := by
        rw [List.length_take, min_comm]
      have hreads' := hreads _ List.mem_cons_self
      have htake : buf.take (min buf.length maxChunk) = buf.take maxChunk := by
        rw [min_comm, ← List.take_take, List.take_length]
      have hline : text.encode (.chunk b.id (min buf.length maxChunk))
          = .ok (lineOf text (.chunk b.id (buf.take maxChunk).length)) := by
        rw [← hlength]
        exact hreads'.encode
      -- the header and the bytes are two writes to the socket
      have hbytes : Wire.Holds { b.writer with
          sent := b.writer.sent ++ lineOf text (.chunk b.id (buf.take maxChunk).length) } := h.holds
      rw [if_neg hover]
      dsimp only
      rw [hline]
      dsimp only
      rw [h.holds.writeAll]
      dsimp only
      rw [hbytes.writeAll, htake]
      dsimp only
      rw [accepted, htake]
      refine ⟨?_, ?_⟩
      · simp [Body.wrote, framed, hlength]
      · simp

theorem pieces_cons (promised written : ℕ) (buf : List UInt8) (bufs : List (List UInt8)) :
    pieces promised written (buf :: bufs) = pieces promised written [buf]
      ++ pieces promised (written + (pieces promised written [buf]).flatten.length) bufs := by
  rw [pieces, pieces, pieces]
  split
  · rfl
  · simp [pieces, min_comm]

/-- **All writes of a provider.** -/
theorem Body.Open.writes (h : b.Open) {bufs : List (List UInt8)}
    (hreads : ∀ piece ∈ pieces b.promised b.written bufs,
      text.ReadsBack (.chunk b.id piece.length)) :
    (b.writes text bufs).2 = b.wrote text (pieces b.promised b.written bufs)
      ∧ (bufs.zip (b.writes text bufs).1).flatMap (fun w ↦ accepted w.1 w.2)
        = (pieces b.promised b.written bufs).flatten := by
  induction bufs generalizing b with
  | nil =>
    refine ⟨?_, rfl⟩
    simp [Body.writes, Body.wrote, pieces]
  | cons buf bufs ih =>
    rw [pieces_cons] at hreads ⊢
    obtain ⟨hbody, haccepted⟩ :=
      h.write buf fun piece hp ↦ hreads piece (List.mem_append_left _ hp)
    have hopen := h.wrote text (pieces b.promised b.written [buf])
    obtain ⟨hbody', haccepted'⟩ :=
      ih hopen fun piece hp ↦ hreads piece (List.mem_append_right _ hp)
    rw [Body.writes]
    dsimp only
    rw [hbody, hbody']
    refine ⟨?_, ?_⟩
    · simp [Body.wrote, Nat.add_assoc]
    · rw [List.zip_cons_cons, List.flatMap_cons, haccepted, haccepted', List.flatten_append]
      rfl

theorem ne_nil_of_mem_pieces {promised written : ℕ} {bufs : List (List UInt8)}
    {piece : List UInt8} (h : piece ∈ pieces promised written bufs) :
    piece ≠ [] ∧ piece.length ≤ maxChunk := by
  induction bufs generalizing written with
  | nil => cases h
  | cons buf bufs ih =>
    rw [pieces] at h
    split at h
    · exact ih h
    · rename_i hbuf
      rcases List.mem_cons.mp h with rfl | h
      · refine ⟨fun hnil ↦ ?_, List.length_take_le _ _⟩
        rcases List.take_eq_nil_iff.mp hnil with hzero | hnil
        · exact absurd hzero (by decide)
        · exact hbuf (Or.inl hnil)
      · exact ih h

/-- No more than was promised is taken. -/
theorem length_pieces_le {promised written : ℕ} {bufs : List (List UInt8)}
    (h : written ≤ promised) :
    written + (pieces promised written bufs).flatten.length ≤ promised := by
  induction bufs generalizing written with
  | nil => exact h
  | cons buf bufs ih =>
    rw [pieces]
    split
    · exact ih h
    · rename_i hbuf
      have hle : written + min buf.length maxChunk ≤ promised := by
        have hmin := min_le_left buf.length maxChunk
        have hover := not_or.mp hbuf
        omega
      have hrest := ih hle
      rw [List.flatten_cons, List.length_append, List.length_take, min_comm]
      omega

/-! ## How a provider leaves a body -/

/-- The message a transfer ends with. -/
def closing (id promised written : ℕ) : Ending → ToHelper
  | .finish =>
    if written = promised then .done id
    else .abort id eio (shortfall promised written)
  | .abort errno reason => .abort id errno reason
  | .drop => .abort id eio "the provider abandoned the transfer"

theorem Body.Open.sendLine (h : b.Open) (line : List UInt8) :
    ({ b with finished := true }.sendLine line) = (.ok (),
      { b with writer := { b.writer with sent := b.writer.sent ++ line }, finished := true }) := by
  rw [Body.sendLine, if_neg (by rw [h.poisoned]; exact Bool.false_ne_true)]
  dsimp only
  rw [h.holds.writeAll]

theorem Body.Open.abortWith (h : b.Open) {errno : ℤ} {reason : String}
    (hreads : text.ReadsBack (.abort b.id errno reason)) :
    b.abortWith text errno reason = (.ok (), { b with
      writer := { b.writer with
        sent := b.writer.sent ++ lineOf text (.abort b.id errno reason) }
      finished := true }) := by
  rw [Body.abortWith, hreads.encode]
  exact h.sendLine _

/-- **However a body is left**, one message ends the transfer. -/
theorem Body.Open.close (h : b.Open) {ending : Ending}
    (hreads : text.ReadsBack (closing b.id b.promised b.written ending)) :
    (b.close text ending).writer.sent
      = b.writer.sent ++ lineOf text (closing b.id b.promised b.written ending) := by
  cases ending with
  | finish =>
    rw [closing] at hreads ⊢
    rw [Body.close, Body.finish]
    split at hreads
    · rename_i hfull
      rw [if_neg (not_not.mpr hfull), if_pos hfull, hreads.encode]
      dsimp only
      rw [h.sendLine]
      rfl
    · rename_i hshort
      rw [if_pos hshort, if_neg hshort, h.abortWith hreads]
      rfl
  | abort errno reason =>
    rw [closing] at hreads ⊢
    rw [Body.close, h.abortWith hreads]
    rfl
  | drop =>
    rw [closing] at hreads ⊢
    rw [Body.close, Body.dropped, if_neg (by rw [h.finished]; exact Bool.false_ne_true),
      h.abortWith hreads]

end Daemon

/-! ## A provider's transfer, and what is read of it -/

/-- A transfer on the daemon's side: what became of the writes, the body before it was left, and
the connection after it. -/
structure Provided where
  results : List (Except IoError ℕ)
  body : Body
  writer : Wire

/-- Begin a body, write to it, and leave it. -/
def provide (text : Text) (writer : Wire) (id promised : ℕ) (bufs : List (List UInt8))
    (ending : Ending) : Except IoError Provided :=
  match begin text writer id promised with
  | (.error e, _) => .error e
  | (.ok body, _) =>
    let (results, body) := body.writes text bufs
    .ok ⟨results, body, (body.close text ending).writer⟩

/-- What was taken of all writes. -/
def Provided.content (provided : Provided) (bufs : List (List UInt8)) : List UInt8 :=
  (bufs.zip provided.results).flatMap fun w ↦ accepted w.1 w.2

/-- The messages of a transfer. -/
def messages (id promised : ℕ) (bufs : List (List UInt8)) (ending : Ending) : List ToHelper :=
  let ps := pieces promised 0 bufs
  .fetch (.ready id promised) :: closing id promised ps.flatten.length ending
    :: ps.map fun piece ↦ .chunk id piece.length

section Agreement

variable {text : Text} {dest : Sink} {id promised : ℕ} {bufs : List (List UInt8)} {ending : Ending}

theorem forall_messages {P : ToHelper → Prop} :
    (∀ m ∈ messages id promised bufs ending, P m) ↔ P (.fetch (.ready id promised))
      ∧ P (closing id promised (pieces promised 0 bufs).flatten.length ending)
      ∧ ∀ piece ∈ pieces promised 0 bufs, P (.chunk id piece.length) := by
  rw [messages, List.forall_mem_cons, List.forall_mem_cons, List.forall_mem_map]

/-- What a transfer puts on the wire: the promise, the pieces, and the end. -/
theorem provide_eq (hreads : ∀ m ∈ messages id promised bufs ending, text.ReadsBack m) :
    ∃ provided, provide text ⟨[], none, false⟩ id promised bufs ending = .ok provided
      ∧ provided.body.written = (pieces promised 0 bufs).flatten.length
      ∧ provided.content bufs = (pieces promised 0 bufs).flatten
      ∧ provided.writer.sent = lineOf text (.fetch (.ready id promised))
        ++ ((pieces promised 0 bufs).flatMap (framed text id)
          ++ lineOf text (closing id promised (pieces promised 0 bufs).flatten.length ending)) := by
  obtain ⟨hready, hclosing, hchunks⟩ := forall_messages.mp hreads
  have hholds : Wire.Holds ⟨[], none, false⟩ := ⟨rfl, rfl⟩
  let writer : Wire := ⟨lineOf text (.fetch (.ready id promised)), none, false⟩
  let body : Body := ⟨writer, id, promised, 0, false, false⟩
  have hbegin : begin text ⟨[], none, false⟩ id promised = (.ok body, writer) := by
    rw [begin, hready.encode]
    dsimp only
    rw [hholds.writeAll]
    rfl
  have hopen : body.Open := ⟨⟨rfl, rfl⟩, rfl, rfl⟩
  obtain ⟨hbody, hcontent⟩ := hopen.writes hchunks
  have hwrote := hopen.wrote text (pieces promised 0 bufs)
  have hwritten : (body.wrote text (pieces promised 0 bufs)).written
      = (pieces promised 0 bufs).flatten.length := Nat.zero_add _
  rw [← hwritten] at hclosing
  have hclose := hwrote.close hclosing
  refine ⟨⟨(body.writes text bufs).1, (body.writes text bufs).2,
    ((body.writes text bufs).2.close text ending).writer⟩, ?_, ?_, hcontent, ?_⟩
  · rw [provide, hbegin]
  · exact congrArg Body.written hbody |>.trans hwritten
  · dsimp only
    rw [hbody, ← List.append_assoc, ← hwritten]
    exact hclose

/-- A frame that answers the request is taken whatever pieces it comes in. -/
theorem turn_of_line {p : Progress} {m : ToHelper} {after : List UInt8} {expected : ℕ}
    (hreads : text.ReadsBack m) (hid : m.frameId.any (· ≠ id) = false)
    (hrest : p.reader.rest = lineOf text m ++ after) :
    ∃ r : Reader, r.rest = after
      ∧ turn text dest id expected p = takeMessage dest expected { p with reader := r } m := by
  obtain ⟨hcut, hne, hdecode⟩ := hreads.line after
  obtain ⟨r, hr, hafter⟩ := BufReader.readUntil_of_cut (hrest ▸ hcut)
  refine ⟨r, hafter, ?_⟩
  rw [turn, hr]
  dsimp only
  rw [if_neg hne, hdecode]
  dsimp only
  rw [if_neg (by rw [hid]; exact Bool.false_ne_true)]

/-- **The pieces of a body** are handed on one by one, unless the sink fails at one of them. -/
theorem recvFrames_pieces (dest : Sink) {expected : ℕ} {ps : List (List UInt8)} {after : List UInt8}
    {p : Progress} (hreads : ∀ piece ∈ ps, text.ReadsBack (.chunk id piece.length))
    (hpieces : ∀ piece ∈ ps, piece ≠ [] ∧ piece.length ≤ maxChunk)
    (hle : p.total + ps.flatten.length ≤ expected)
    (hrest : p.reader.rest = ps.flatMap (framed text id) ++ after) :
    (∃ e, (recvFrames text dest id expected p).result = .error e
      ∧ ¬ Took dest (recvFrames text dest id expected p).calls)
    ∨ ∃ p', recvFrames text dest id expected p = recvFrames text dest id expected p'
      ∧ p'.reader.rest = after ∧ p'.total = p.total + ps.flatten.length
      ∧ handed p'.calls = handed p.calls ++ ps.flatten := by
  induction ps generalizing p with
  | nil => exact Or.inr ⟨p, rfl, hrest, rfl, by simp⟩
  | cons piece ps ih =>
    obtain ⟨hne, hchunk⟩ := hpieces piece List.mem_cons_self
    rw [List.flatten_cons, List.length_append] at hle
    rw [List.flatMap_cons, framed, List.append_assoc, List.append_assoc] at hrest
    have hid : (ToHelper.chunk id piece.length).frameId.any (· ≠ id) = false := by
      simp [ToHelper.frameId]
    obtain ⟨r, hr, hturn⟩ : ∃ r : Reader,
        r.rest = piece ++ (ps.flatMap (framed text id) ++ after)
          ∧ turn text dest id expected p
            = takeMessage dest expected { p with reader := r } (.chunk id piece.length) :=
      turn_of_line (hreads piece List.mem_cons_self) hid hrest
    obtain ⟨r', hbytes, hr'⟩ : ∃ r' : Reader,
        r.readExact shortRead piece.length = (.ok piece, r')
          ∧ r'.rest = ps.flatMap (framed text id) ++ after := BufReader.readExact_append hr
    have hpos : piece.length ≠ 0 := fun hzero ↦ hne (List.length_eq_zero_iff.mp hzero)
    have hfits : ¬ (piece.length = 0 ∨ maxChunk < piece.length
        ∨ expected < p.total + piece.length) := by omega
    rw [takeMessage, takeChunk, if_neg hfits, hbytes] at hturn
    dsimp only at hturn
    cases hdest : dest (p.calls ++ [(p.total, piece)]) with
    | some e =>
      rw [hdest] at hturn
      rw [recvFrames_of_ended hturn]
      refine Or.inl ⟨e, rfl, fun htook ↦ ?_⟩
      have hlast := (took_concat.mp htook).2
      rw [hdest] at hlast
      cases hlast
    | none =>
      rw [hdest] at hturn
      rw [recvFrames_of_again hturn]
      have hle' : p.total + piece.length + ps.flatten.length ≤ expected := by omega
      have hnext := ih (p := ⟨r', p.total + piece.length, p.calls ++ [(p.total, piece)],
          p.ticks ++ [p.total + piece.length]⟩)
        (fun q hq ↦ hreads q (List.mem_cons_of_mem _ hq))
        (fun q hq ↦ hpieces q (List.mem_cons_of_mem _ hq)) hle' hr'
      rcases hnext with herror | ⟨p', hp', hrest', htotal, hhanded⟩
      · exact Or.inl herror
      · refine Or.inr ⟨p', hp', hrest', ?_, ?_⟩
        · rw [htotal, List.flatten_cons, List.length_append, Nat.add_assoc]
        · rw [hhanded, handed_append, handed_singleton, List.flatten_cons, List.append_assoc]

/-- **The end of a transfer.** -/
theorem recvFrames_closing (dest : Sink) {p : Progress} {after : List UInt8} {written : ℕ}
    (hreads : text.ReadsBack (closing id promised written ending)) (htotal : p.total = written)
    (hrest : p.reader.rest = lineOf text (closing id promised written ending) ++ after) :
    ∃ s, (recvFrames text dest id promised p).result = .ok s
      ∧ (s = .complete ↔ written = promised ∧ ending = .finish)
      ∧ (recvFrames text dest id promised p).calls = p.calls
      ∧ (recvFrames text dest id promised p).reader.rest = after := by
  have hid : (closing id promised written ending).frameId.any (· ≠ id) = false := by
    cases ending with
    | finish =>
      rw [closing]
      split <;> simp [ToHelper.frameId]
    | abort _ _ => simp [closing, ToHelper.frameId]
    | drop => simp [closing, ToHelper.frameId]
  obtain ⟨r, hr, hturn⟩ : ∃ r : Reader, r.rest = after ∧ turn text dest id promised p
      = takeMessage dest promised { p with reader := r } (closing id promised written ending) :=
    turn_of_line hreads hid hrest
  have habort {errno : ℤ} {reason : String}
      (h : closing id promised written ending = .abort id errno reason)
      (hnot : ¬ (written = promised ∧ ending = .finish)) :
      ∃ s, (recvFrames text dest id promised p).result = .ok s
        ∧ (s = .complete ↔ written = promised ∧ ending = .finish)
        ∧ (recvFrames text dest id promised p).calls = p.calls
        ∧ (recvFrames text dest id promised p).reader.rest = after := by
    rw [h, takeMessage] at hturn
    rw [recvFrames_of_ended hturn]
    exact ⟨.aborted errno reason, rfl, ⟨nofun, fun h ↦ absurd h hnot⟩, rfl, hr⟩
  cases ending with
  | finish =>
    by_cases hfull : written = promised
    · rw [closing, if_pos hfull, takeMessage, if_neg (not_not.mpr (htotal.trans hfull))] at hturn
      rw [recvFrames_of_ended hturn]
      exact ⟨.complete, rfl, ⟨fun _ ↦ ⟨hfull, rfl⟩, fun _ ↦ rfl⟩, rfl, hr⟩
    · exact habort (if_neg hfull) fun h ↦ hfull h.1
  | abort errno reason => exact habort rfl fun h ↦ nomatch h.2
  | drop => exact habort rfl fun h ↦ nomatch h.2

/-- The two sides agree on a body of so many bytes. -/
def Agreement (text : Text) (id promised : ℕ) : Prop :=
  ∀ (bufs : List (List UInt8)) (ending : Ending),
    (∀ m ∈ messages id promised bufs ending, text.ReadsBack m) →
    ∃ provided, provide text ⟨[], none, false⟩ id promised bufs ending = .ok provided
      ∧ ∀ (dest : Sink) (r : Reader) (after : List UInt8), r.rest = provided.writer.sent ++ after →
        let got := recvStreamed text dest id promised r
        (got.result = .ok .complete
          ↔ provided.body.written = promised ∧ ending = .finish ∧ Took dest got.calls)
        ∧ (got.result = .ok .complete →
          handed got.calls = provided.content bufs ∧ Contiguous 0 got.calls)
        ∧ ∀ s, got.result = .ok s → got.reader.rest = after

/-- A refusal in the place of a body is read as what it is. -/
def Refuses (text : Text) (id promised : ℕ) : Prop :=
  ∀ (resp : FetchResponse) (dest : Sink) (r : Reader) (after : List UInt8),
    resp.id = id → (∀ len, resp ≠ .ready id len) → text.ReadsBack (.fetch resp) →
    r.rest = (send text ⟨[], none, false⟩ resp).2.sent ++ after →
    (recvStreamed text dest id promised r).result = .ok (.refused resp)
      ∧ (recvStreamed text dest id promised r).reader.rest = after

theorem agreement (h : promised ≤ maxObject) : Agreement text id promised := by
  intro bufs ending hreads
  obtain ⟨provided, hprovide, hwritten, hcontent, hsent⟩ := provide_eq hreads
  refine ⟨provided, hprovide, fun dest r after hrest ↦ ?_⟩
  obtain ⟨hready, hclosing, hchunks⟩ := forall_messages.mp hreads
  have hsound := recvStreamed_sound text dest id promised r
  dsimp only
  rw [recvStreamed, if_neg (not_lt.mpr h)] at hsound ⊢
  rw [hsent, List.append_assoc, List.append_assoc] at hrest
  obtain ⟨r', hr', hturn⟩ : ∃ r' : Reader,
      r'.rest = (pieces promised 0 bufs).flatMap (framed text id) ++ (lineOf text
        (closing id promised (pieces promised 0 bufs).flatten.length ending) ++ after)
      ∧ turn text dest id promised ⟨r, 0, [], []⟩ = takeMessage dest promised ⟨r', 0, [], []⟩
        (.fetch (.ready id promised)) :=
    turn_of_line hready (by simp [ToHelper.frameId, FetchResponse.id]) hrest
  rw [takeMessage, if_neg (not_not.mpr rfl)] at hturn
  rw [recvFrames_of_again hturn] at hsound ⊢
  have hpieces := recvFrames_pieces dest (p := ⟨r', 0, [], []⟩) hchunks
    (fun piece hpiece ↦ ne_nil_of_mem_pieces hpiece)
    (length_pieces_le (Nat.zero_le promised)) hr'
  rcases hpieces with ⟨e, herror, htook⟩ | ⟨p', hp', hrest', htotal, hhanded⟩
  · -- the sink has failed
    have hnot (s : Streamed) :
        (recvFrames text dest id promised ⟨r', 0, [], []⟩).result ≠ .ok s := by
      rw [herror]
      exact nofun
    exact ⟨⟨fun hok ↦ absurd hok (hnot _), fun hall ↦ absurd hall.2.2 htook⟩,
      fun hok ↦ absurd hok (hnot _), fun s hok ↦ absurd hok (hnot s)⟩
  · rw [Nat.zero_add] at htotal
    obtain ⟨s, hresult, hcomplete, hcalls, hafter⟩ :=
      recvFrames_closing dest hclosing htotal hrest'
    rw [hp'] at hsound ⊢
    have htook := hsound.took s hresult
    refine ⟨⟨fun hok ↦ ?_, fun hall ↦ ?_⟩, fun _ ↦ ⟨?_, hsound.contiguous⟩, fun _ _ ↦ hafter⟩
    · rw [hresult] at hok
      obtain ⟨hfull, hfinish⟩ := hcomplete.mp (Except.ok.inj hok)
      exact ⟨hwritten.trans hfull, hfinish, htook⟩
    · rw [hresult, hcomplete.mpr ⟨hwritten.symm.trans hall.1, hall.2.1⟩]
    · rw [hcalls, hhanded, hcontent]
      rfl

theorem refuses (h : promised ≤ maxObject) : Refuses text id promised := by
  intro resp dest r after hid hready hreads hrest
  have hholds : Wire.Holds ⟨[], none, false⟩ := ⟨rfl, rfl⟩
  rw [send, hreads.encode] at hrest
  dsimp only at hrest
  rw [hholds.writeAll] at hrest
  obtain ⟨r', hr', hturn⟩ : ∃ r' : Reader, r'.rest = after
      ∧ turn text dest id promised ⟨r, 0, [], []⟩
        = takeMessage dest promised ⟨r', 0, [], []⟩ (.fetch resp) :=
    turn_of_line hreads (by simp [ToHelper.frameId, hid]) hrest
  rw [recvStreamed, if_neg (not_lt.mpr h)]
  cases resp with
  | ready other len =>
    cases hid
    exact absurd rfl (hready len)
  | failed _ _ _ =>
    rw [recvFrames_of_ended hturn]
    exact ⟨rfl, hr'⟩
  | denied _ _ =>
    rw [recvFrames_of_ended hturn]
    exact ⟨rfl, hr'⟩

end Agreement

/-- **The two sides of a body agree**, for a body of any length that the helper takes: it reports
the end exactly where the provider has written what was promised and finished, and the sink has
failed at nothing; the sink is given what the provider wrote, in order and without gaps; and a
transfer that ends as one may end leaves the connection at the next message. Whatever else comes
over the connection hands the sink nothing out of order and no more than was asked for. -/
theorem body_agreement (text : Text) (id promised : ℕ) (h : promised ≤ maxObject) :
    Agreement text id promised ∧ Refuses text id promised
      ∧ ∀ (dest : Sink) (wantId expected : ℕ) (r : Reader),
        (recvStreamed text dest wantId expected r).Sound dest expected :=
  ⟨agreement h, refuses h, recvStreamed_sound text⟩

/-! ### A library that knows a few messages -/

def ascii (s : String) : List UInt8 := s.toList.map fun c ↦ c.toNat.toUInt8

/-- The messages of a transfer that ends well, as text. -/
def json : ToHelper → List UInt8
  | .fetch (.ready id len) => ascii ("\x7b\"kind\":\"Fetch\",\"Ready\":\x7b\"id\":" ++ toString id
      ++ ",\"len\":" ++ toString len ++ "\x7d\x7d")
  | .chunk id len => ascii ("\x7b\"kind\":\"Chunk\",\"id\":" ++ toString id ++ ",\"len\":"
      ++ toString len ++ "\x7d")
  | .done id => ascii ("\x7b\"kind\":\"Done\",\"id\":" ++ toString id ++ "\x7d")
  | _ => []

def knows (ms : List ToHelper) : Text where
  toString m := .ok (json m)
  fromStr bytes :=
    match ms.find? (json · = bytes) with
    | some m => .ok m
    | none => .error (⟨.other, none, "expected value at line 1 column 1"⟩)

theorem knows_readsBack {ms : List ToHelper} {m : ToHelper}
    (hfind : ms.find? (json · = json m) = some m) (hline : newline ∉ json m) :
    (knows ms).ReadsBack m := by
  refine ⟨json m, rfl, hline, ?_⟩
  rw [knows]
  dsimp only
  rw [hfind]

/-- The messages of a body that comes in chunks of these lengths. -/
def ofChunks (len : ℕ) (lens : List ℕ) : List ToHelper :=
  .fetch (.ready 1 len) :: .done 1 :: lens.map (.chunk 1)

theorem body_agreement_three_bytes :
    ∃ provided, provide (knows (ofChunks 3 [1, 2])) ⟨[], none, false⟩ 1 3 [[65, 66], [67]] .finish
        = .ok provided
      ∧ ∀ r : Reader, r.rest = provided.writer.sent ++ [10] →
        let got := recvStreamed (knows (ofChunks 3 [1, 2])) (fun _ ↦ none) 1 3 r
        got.result = .ok .complete ∧ handed got.calls = [65, 66, 67] ∧ got.reader.rest = [10] := by
  have hreads : ∀ m ∈ messages 1 3 [[65, 66], [67]] .finish,
      (knows (ofChunks 3 [1, 2])).ReadsBack m := by
    refine forall_messages.mpr ⟨knows_readsBack (by decide +kernel) (by decide +kernel),
      knows_readsBack (m := .done 1) (by decide +kernel) (by decide +kernel), ?_⟩
    have hpieces : pieces 3 0 [[65, 66], [67]] = [[65, 66], [67]] := by decide +kernel
    rw [hpieces]
    intro piece hpiece
    rcases List.mem_pair.mp hpiece with rfl | rfl
    · exact knows_readsBack (by decide +kernel) (by decide +kernel)
    · exact knows_readsBack (by decide +kernel) (by decide +kernel)
  obtain ⟨provided, hprovide, hgot⟩ :=
    (body_agreement (knows (ofChunks 3 [1, 2])) 1 3 (by decide)).1 [[65, 66], [67]] .finish hreads
  refine ⟨provided, hprovide, fun r hrest ↦ ?_⟩
  obtain ⟨hcomplete, hcontent, hafter⟩ := hgot (fun _ ↦ none) r [10] hrest
  have hwritten : provided.body.written = 3 ∧ provided.content [[65, 66], [67]] = [65, 66, 67] := by
    cases hprovide
    exact ⟨rfl, rfl⟩
  have hok := hcomplete.mpr ⟨hwritten.1, rfl, fun _ _ _ _ ↦ rfl⟩
  exact ⟨hok, (hcontent hok).1.trans hwritten.2, hafter _ hok⟩

/-! ### A body beyond what the helper takes -/

/-- Writes that are a chunk each are all taken. -/
theorem pieces_replicate {promised : ℕ} {full : List UInt8} (hfull : full.length = maxChunk)
    (bufs : List (List UInt8)) (k written : ℕ) (hle : written + k * maxChunk ≤ promised) :
    pieces promised written (List.replicate k full ++ bufs)
      = List.replicate k full ++ pieces promised (written + k * maxChunk) bufs := by
  induction k generalizing written with
  | zero => simp
  | succ k ih =>
    have hne : full ≠ [] := by
      rintro rfl
      cases hfull
    have htake : full.take maxChunk = full := List.take_of_length_le hfull.le
    rw [Nat.succ_mul] at hle
    have hfits : ¬ (full = [] ∨ promised < written + full.length) := by
      rw [hfull]
      exact not_or.mpr ⟨hne, by omega⟩
    rw [List.replicate_succ, List.cons_append, pieces, if_neg hfits, htake, hfull, min_self,
      ih _ (by omega), List.cons_append, Nat.succ_mul, Nat.add_right_comm, Nat.add_assoc]

/-- One byte more than the helper takes, in chunks. -/
def longWrites (full : List UInt8) : List (List UInt8) := List.replicate (2 ^ 20) full ++ [[0]]

theorem pieces_longWrites {full : List UInt8} (hfull : full.length = maxChunk) :
    pieces (maxObject + 1) 0 (longWrites full) = longWrites full := by
  have hlast : pieces (maxObject + 1) (0 + 2 ^ 20 * maxChunk) [[0]] = [[0]] := by decide +kernel
  rw [longWrites, pieces_replicate hfull _ _ _ (by decide), hlast]

theorem length_longWrites {full : List UInt8} (hfull : full.length = maxChunk) :
    (longWrites full).flatten.length = maxObject + 1 := by
  rw [longWrites, List.flatten_append, List.length_append, List.length_flatten,
    List.map_replicate, List.sum_replicate_nat, hfull]
  decide

theorem not_agreement_beyond : ¬ Agreement (knows (ofChunks (maxObject + 1) [1, maxChunk])) 1
    (maxObject + 1) := by
  intro hagree
  obtain ⟨full, hfull⟩ : ∃ full : List UInt8, full.length = maxChunk :=
    ⟨List.replicate maxChunk 0, List.length_replicate⟩
  have hreads : ∀ m ∈ messages 1 (maxObject + 1) (longWrites full) .finish,
      (knows (ofChunks (maxObject + 1) [1, maxChunk])).ReadsBack m := by
    refine forall_messages.mpr ⟨knows_readsBack (by decide +kernel) (by decide +kernel), ?_, ?_⟩
    · rw [pieces_longWrites hfull, length_longWrites hfull, closing, if_pos rfl]
      exact knows_readsBack (by decide +kernel) (by decide +kernel)
    · rw [pieces_longWrites hfull]
      intro piece hpiece
      rcases List.mem_append.mp hpiece with hpiece | hpiece
      · rw [List.eq_of_mem_replicate hpiece, hfull]
        exact knows_readsBack (by decide +kernel) (by decide +kernel)
      · rw [List.mem_singleton.mp hpiece]
        exact knows_readsBack (by decide +kernel) (by decide +kernel)
  obtain ⟨provided, hprovide, hgot⟩ := hagree (longWrites full) .finish hreads
  obtain ⟨provided', hprovide', hwritten, -⟩ := provide_eq hreads
  cases hprovide.symm.trans hprovide'
  rw [pieces_longWrites hfull, length_longWrites hfull] at hwritten
  obtain ⟨hcomplete, -⟩ :=
    hgot (fun _ ↦ none) ⟨provided.writer.sent, [], none⟩ [] (by simp [BufReader.rest])
  have hcomplete := hcomplete.mpr ⟨hwritten, rfl, fun _ _ _ _ ↦ rfl⟩
  rw [recvStreamed, if_pos (Nat.lt_succ_self maxObject)] at hcomplete
  cases hcomplete

end HydrationAPI.Transport
