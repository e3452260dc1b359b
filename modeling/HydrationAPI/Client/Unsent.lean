import HydrationAPI.Client.Queue
import HydrationAPI.Client.Resync
import HydrationAPI.Helper.Report

/-!
# The way of an edit to the cloud

An edit is seen by the helper, which notes the file and reports it; the report travels over a
connection to the daemon, whose upload thread lets the file rest and then sends it. Either program
can be restarted at any time, and the connection can break with reports in it. What closes the holes
is the walk: a helper that starts says that it has missed something, and the daemon looks for itself
when it starts, when it is told to, and whenever a helper connects.

The steps of the users, of the helper's threads, of the connection and of the daemon's threads are
taken in any order. What makes a file worth sending is counted as an edit, whether anybody notices
it or not, and so is what the cloud has of it: the number of edits there were when the upload that
was last sent began.
-/

namespace HydrationAPI.Client.Unsent

open Resync

/-! ## The parties -/

/-- A helper that watches the mount. -/
structure Helper where
  /-- What the notify group holds and nobody has read. -/
  unread : List Observed
  reporter : Reporter

inductive Link where
  | closed
  /-- The helper has connected, and the daemon has not accepted yet. -/
  | waiting (wire : List Report)
  | serving (wire : List Report)

/-- What becomes of the connection when a report is written to it. -/
def Link.push : Link → Report → Link
  | closed, _ => closed
  | waiting wire, m => waiting (wire ++ [m])
  | serving wire, m => serving (wire ++ [m])

/-- A walk that is under way. -/
structure Walk where
  todo : List FileId
  found : List FileId

structure State where
  disk : Disk
  /-- How often each file has been edited; that it was there at the start counts once. -/
  edits : FileId → ℕ
  /-- The edits of it that the cloud has. -/
  sent : FileId → ℕ
  helper : Option Helper
  link : Link
  queue : Queue
  resync : Bool
  walk : Option Walk
  /-- The file that is being sent, and its edits when that began. -/
  upload : Option (FileId × ℕ)
  /-- Since the last walk began: files that became worth sending and were not written to, that the
  walk did not come to, or that an upload had nothing to do for. -/
  dropped : List FileId

namespace State

/-- Nothing runs but a daemon that has just been started. -/
def start (debounce : ℕ) (d : Disk) : State where
  disk := d
  edits := fun _ ↦ 1
  sent := fun _ ↦ 0
  helper := none
  link := .closed
  queue := .new debounce
  resync := true
  walk := none
  upload := none
  dropped := []

/-- The directory changes, and whoever watches notices what is written to. What else is worth
sending by then has slipped through. -/
def change (s : State) (d : Disk) (seen : List Observed) (slipped : List FileId) : State :=
  { s with
    disk := d
    edits := fun f ↦
      if f ∈ seen.map Observed.file ∨ f ∈ slipped then s.edits f + 1 else s.edits f
    helper := s.helper.map fun h ↦ { h with unread := h.unread ++ seen }
    dropped := slipped ++ s.dropped }

/-- What a report makes the daemon do. -/
def hear (s : State) (now : ℕ) : Report → State
  | .resync => { s with resync := true }
  | .changed files => { s with queue := files.foldl (fun q f ↦ q.touch now f) s.queue }

/-- The daemon is another process. -/
def restart (s : State) : State :=
  { s with
    link := .closed, queue := .new s.queue.debounce, resync := true, walk := none, upload := none }

/-- What is done when an upload has come to its end. -/
def finish (s : State) (now : ℕ) (f : FileId) (u : ℕ) (d : Disk) : Upload.Outcome → State
  | .sent _ =>
    { s with
      disk := d, queue := (s.queue.finish f).sent f, upload := none
      sent := Function.update s.sent f u }
  | .failed _ => { s with disk := d, queue := (s.queue.finish f).failed now f, upload := none }
  | .deletedInstead | .nothingToDo | .ignored =>
    { s with
      disk := d, queue := (s.queue.finish f).sent f, upload := none, dropped := f :: s.dropped }

end State

/-! ## The steps -/

variable (ignore : IgnoreSet)

/-- One step of anybody. -/
inductive Step : State → State → Prop
  /-- Anybody does anything to the directory, the framework's own threads included. -/
  | changes (s : State) (d : Disk) (seen : List Observed) (slipped : List FileId)
      (hslipped : ∀ f, Worth ignore d f →
        Worth ignore s.disk f ∨ f ∈ seen.map Observed.file ∨ f ∈ slipped) :
      Step s (s.change d seen slipped)
  -- the helper
  | starts (s : State) : Step s { s with helper := some ⟨[], .spawn⟩ }
  | stops (s : State) : Step s { s with helper := none }
  | drains (s : State) (h : Helper) (seen rest : List Observed) (lost : Bool)
      (hhelper : s.helper = some h) (hunread : h.unread = seen ++ rest) :
      Step s { s with helper := some ⟨rest, h.reporter.drain seen lost⟩ }
  /-- A read that fails, or a group that overflows. -/
  | misses (s : State) (h : Helper) (hhelper : s.helper = some h) :
      Step s { s with helper := some ⟨[], h.reporter.mark⟩ }
  /-- A step of the helper's threads that sends nothing. -/
  | works (s : State) (h : Helper) (r : Reporter) (hhelper : s.helper = some h)
      (hstep : Reporter.Step h.reporter r) (hquiet : r.history = h.reporter.history) :
      Step s { s with helper := some ⟨h.unread, r⟩ }
  | sends (s : State) (h : Helper) (r : Reporter) (m : Report) (hhelper : s.helper = some h)
      (hstep : Reporter.Step h.reporter r) (hsent : r.history = .sent m :: h.reporter.history) :
      Step s { s with helper := some ⟨h.unread, r⟩, link := s.link.push m }
  -- the connection
  | connects (s : State) : Step s { s with link := .waiting [] }
  | breaks (s : State) : Step s { s with link := .closed }
  | accepts (s : State) (wire : List Report) (hlink : s.link = .waiting wire) :
      Step s { s with link := .serving wire, resync := true }
  | hears (s : State) (now : ℕ) (m : Report) (wire : List Report)
      (hlink : s.link = .serving (m :: wire)) :
      Step s { s.hear now m with link := .serving wire }
  -- the upload thread
  /-- The deletion watch has overflowed. -/
  | looks (s : State) : Step s { s with resync := true }
  | walks (s : State) (todo : List FileId) (hresync : s.resync = true) (hwalk : s.walk = none)
      (hupload : s.upload = none) (htodo : ∀ f, Worth ignore s.disk f → f ∈ todo) :
      Step s { s with resync := false, walk := some ⟨todo, []⟩, dropped := [] }
  | finds (s : State) (f : FileId) (todo found : List FileId)
      (hwalk : s.walk = some ⟨f :: todo, found⟩) (hworth : Worth ignore s.disk f) :
      Step s { s with walk := some ⟨todo, found ++ [f]⟩ }
  | passes (s : State) (f : FileId) (todo found : List FileId)
      (hwalk : s.walk = some ⟨f :: todo, found⟩) (hworth : ¬Worth ignore s.disk f) :
      Step s { s with walk := some ⟨todo, found⟩ }
  /-- It has been moved, and the walk does not meet it. -/
  | overlooks (s : State) (f : FileId) (todo found : List FileId)
      (hwalk : s.walk = some ⟨f :: todo, found⟩) :
      Step s { s with walk := some ⟨todo, found⟩, dropped := f :: s.dropped }
  | walked (s : State) (now : ℕ) (found : List FileId) (hwalk : s.walk = some ⟨[], found⟩) :
      Step s { s.hear now (.changed found) with walk := none }
  /-- A directory cannot be read. -/
  | breaksOff (s : State) (w : Walk) (hwalk : s.walk = some w) :
      Step s { s with walk := none, dropped := w.todo ++ w.found ++ s.dropped }
  /-- It was due when the batch was drawn up, and may have been touched since. -/
  | begins (s : State) (f : FileId) (hwalk : s.walk = none) (hupload : s.upload = none)
      (hwaiting : s.queue.isWaiting f = true) :
      Step s { s with queue := s.queue.begin f, upload := some (f, s.edits f) }
  | ends (s : State) (now : ℕ) (f : FileId) (u : ℕ) (d : Disk) (outcome : Upload.Outcome)
      (hupload : s.upload = some (f, u))
      (hworth : ∀ g, g ≠ f → Worth ignore d g → Worth ignore s.disk g) :
      Step s (s.finish now f u d outcome)
  | restarts (s : State) : Step s s.restart

/-- The states that can be reached from a daemon that has just been started. -/
def Reachable (debounce : ℕ) (d : Disk) (s : State) : Prop :=
  Relation.ReflTransGen (Step ignore) (.start debounce d) s

/-! ## Where an edit is -/

/-- The reporter has the file, or a mark that covers it. -/
def Noted (r : Reporter) (f : FileId) : Prop :=
  f ∈ r.dirty.files ∨ r.dirty.lost = true ∨ r.sender.Holds f

def Helper.Has (h : Helper) (f : FileId) : Prop :=
  f ∈ h.unread.map Observed.file ∨ Noted h.reporter f

/-- A message that covers the file is under way, or a helper has still to be accepted. -/
def Link.Has : Link → FileId → Prop
  | closed, _ | waiting _, _ => True
  | serving wire, f => ∃ m ∈ wire, m.Covers f

def Walk.Has (w : Walk) (f : FileId) : Prop := f ∈ w.todo ∨ f ∈ w.found

/-- Somebody still has the file, or is going to look for it. A helper that does not run says that it
has missed something when it starts. -/
def State.Pending (s : State) (f : FileId) : Prop :=
  (∀ h, s.helper = some h → h.Has f) ∨ s.link.Has f ∨ s.resync = true
    ∨ (∃ w, s.walk = some w ∧ w.Has f) ∨ s.queue.isWaiting f = true

section Parts

variable {r r' : Reporter} {f g : FileId} {now : ℕ}

theorem Noted.note (h : Noted r f) (o : Observed) : Noted (r.note o) f := by
  rcases h with hdirty | hrest
  · exact Or.inl (Dirty.mem_note.mpr (Or.inr hdirty))
  · exact Or.inr hrest

theorem Noted.foldl_note (h : Noted r f) (seen : List Observed) :
    Noted (seen.foldl Reporter.note r) f := by
  induction seen generalizing r with
  | nil => exact h
  | cons o seen ih => exact ih (h.note o)

/-- What the drainer has read is noted, and what was noted before stays so. -/
theorem noted_drain {seen : List Observed} {lost : Bool}
    (h : f ∈ seen.map Observed.file ∨ Noted r f) : Noted (r.drain seen lost) f := by
  rw [Reporter.drain]
  rcases h with hseen | hnoted
  · generalize { r with dirty := { r.dirty with lost := r.dirty.lost || lost } } = r₀
    induction seen generalizing r₀ with
    | nil => exact absurd hseen List.not_mem_nil
    | cons o seen ih =>
      rcases List.mem_cons.mp hseen with rfl | hlater
      · have hnow : Noted (r₀.note o) o.file := Or.inl (Dirty.mem_note.mpr (Or.inl rfl))
        exact hnow.foldl_note seen
      · exact ih hlater (r₀.note o)
  · refine Noted.foldl_note ?_ seen
    rcases hnoted with hdirty | hlost | hholds
    · exact Or.inl hdirty
    · exact Or.inr (Or.inl (by rw [hlost, Bool.true_or]))
    · exact Or.inr (Or.inr hholds)

theorem noted_mark : Noted r.mark f := Or.inr (Or.inl rfl)

/-- What the reporter has it keeps, or a message that covers it goes out. -/
theorem Noted.step (h : Noted r f) (hstep : Reporter.Step r r') :
    Noted r' f ∨ ∃ m : Report, r'.history = .sent m :: r.history ∧ m.Covers f := by
  cases hstep with
  | drained seen lost => exact Or.inl (noted_drain (Or.inr h))
  | unread => exact Or.inl noted_mark
  | took files hsleeping hfiles =>
    refine Or.inl (Or.inr (Or.inr ?_))
    rw [Sender.Holds, Reporter.take, Sender.taken_files, Sender.taken_lost]
    rcases h with hdirty | hlost | hholds
    · exact Or.inl (hfiles.mem_iff.mpr (AList.mem_keys.mpr hdirty))
    · exact Or.inr hlost
    · rw [hsleeping] at hholds
      exact absurd hholds (Sender.not_holds_sleeping f)
  | resynced files hsender => exact Or.inr ⟨.resync, rfl, trivial⟩
  | reported files hsender =>
    rcases h with hdirty | hlost | hholds
    · exact Or.inl (Or.inl hdirty)
    · exact Or.inl (Or.inr (Or.inl hlost))
    · rw [hsender] at hholds
      exact Or.inr ⟨.changed files, rfl, hholds.resolve_right Bool.false_ne_true⟩
  | resyncFailed files hsender | reportFailed files hsender =>
    -- what was in the sender's hands stays there
    rcases h with hdirty | hlost | hholds
    · exact Or.inl (Or.inl hdirty)
    · exact Or.inl (Or.inr (Or.inl hlost))
    · rw [hsender] at hholds
      exact Or.inl (Or.inr (Or.inr hholds))
  | gaveBack files lost hsender => exact Or.inl (Or.inr (Or.inl rfl))

theorem Link.Has.push {l : Link} (h : l.Has f) (m : Report) : (l.push m).Has f := by
  cases l with
  | closed => trivial
  | waiting wire => trivial
  | serving wire =>
    obtain ⟨m', hmem, hcovers⟩ := h
    exact ⟨m', List.mem_append_left _ hmem, hcovers⟩

theorem Link.has_push {m : Report} (l : Link) (h : m.Covers f) : (l.push m).Has f := by
  cases l with
  | closed => trivial
  | waiting wire => trivial
  | serving wire => exact ⟨m, List.mem_append_right _ (List.mem_singleton_self m), h⟩

theorem isWaiting_touch {q : Queue} :
    (q.touch now g).isWaiting f = true ↔ f = g ∨ q.isWaiting f = true := by
  rw [Queue.isWaiting, Queue.touch]
  by_cases hfg : f = g
  · subst hfg
    simp [Queue.isWaiting]
  · simp [Queue.isWaiting, hfg]

theorem isWaiting_foldl_touch {files : List FileId} {q : Queue} :
    (files.foldl (fun q g ↦ q.touch now g) q).isWaiting f = true
      ↔ f ∈ files ∨ q.isWaiting f = true := by
  induction files generalizing q with
  | nil => simp
  | cons g files ih =>
    rw [List.foldl_cons, ih, isWaiting_touch, List.mem_cons, or_left_comm, or_assoc]

end Parts

/-! ## What a step keeps -/

variable {ignore : IgnoreSet} {s s' : State} {f : FileId}

/-- Every edit that the cloud does not have and that a walk would send is pending, being sent, or
dropped; one made while its file is being sent is pending or dropped. -/
structure Sound (ignore : IgnoreSet) (s : State) : Prop where
  covered : ∀ f, s.edits f ≠ s.sent f → Worth ignore s.disk f →
    s.Pending f ∨ s.upload = some (f, s.edits f) ∨ f ∈ s.dropped
  flight : ∀ f u, s.upload = some (f, u) → s.edits f ≠ u → s.Pending f ∨ f ∈ s.dropped
  /-- It is one thread that walks and sends. -/
  alone : s.walk ≠ none → s.upload = none

/-- A step that leaves the files, the counts and the upload alone, and keeps what is pending: only
what a walk has come to may stop being so, and then it is dropped or not worth sending. -/
theorem Sound.frame (hs : Sound ignore s) (hdisk : s'.disk = s.disk) (hedits : s'.edits = s.edits)
    (hsent : s'.sent = s.sent) (hupload : s'.upload = s.upload) (hdropped : s.dropped ⊆ s'.dropped)
    (hwalk : s'.walk ≠ none → s.walk ≠ none)
    (hpending : ∀ f, s.Pending f → s'.Pending f
      ∨ s.walk ≠ none ∧ (f ∈ s'.dropped ∨ ¬Worth ignore s.disk f)) : Sound ignore s' where
  covered f hne hworth := by
    rw [hedits, hsent] at hne
    rw [hdisk] at hworth
    rw [hupload, hedits]
    rcases hs.covered f hne hworth with hf | hf | hf
    · rcases hpending f hf with hkept | ⟨-, hdrop | hnot⟩
      · exact Or.inl hkept
      · exact Or.inr (Or.inr hdrop)
      · exact absurd hworth hnot
    · exact Or.inr (Or.inl hf)
    · exact Or.inr (Or.inr (hdropped hf))
  flight f u hu hne := by
    rw [hupload] at hu
    rw [hedits] at hne
    rcases hs.flight f u hu hne with hf | hf
    · rcases hpending f hf with hkept | ⟨hsome, -⟩
      · exact Or.inl hkept
      · rw [hs.alone hsome] at hu
        exact absurd hu (Option.some_ne_none _).symm
    · exact Or.inr (hdropped hf)
  alone hsome := by
    rw [hupload]
    exact hs.alone (hwalk hsome)

/-- A message that is heard makes what it covers pending, and keeps what was. -/
theorem pending_hear {now : ℕ} {m : Report}
    (h : m.Covers f ∨ s.queue.isWaiting f = true ∨ s.resync = true) :
    (s.hear now m).resync = true ∨ (s.hear now m).queue.isWaiting f = true := by
  cases m with
  | resync => exact Or.inl rfl
  | changed files =>
    rcases h with hcovers | hwaiting | hresync
    · exact Or.inr (isWaiting_foldl_touch.mpr (Or.inl hcovers))
    · exact Or.inr (isWaiting_foldl_touch.mpr (Or.inr hwaiting))
    · exact Or.inl hresync

/-- What a helper has stays pending when it is replaced by one that has at least that. -/
theorem State.Pending.helper {h' : Helper} {link : Link} (hf : s.Pending f)
    (hhelper : (∀ h, s.helper = some h → h.Has f) → h'.Has f ∨ link.Has f)
    (hlink : s.link.Has f → link.Has f) :
    State.Pending { s with helper := some h', link := link } f := by
  rcases hf with hhas | hrest
  · rcases hhelper hhas with hhas' | hpushed
    · refine Or.inl fun h heq ↦ ?_
      cases heq
      exact hhas'
    · exact Or.inr (Or.inl hpushed)
  · exact Or.inr (hrest.imp_left hlink)

theorem sound_restart : Sound ignore s.restart where
  covered _ _ _ := Or.inl (Or.inr (Or.inr (Or.inl rfl)))
  flight _ _ _ _ := Or.inl (Or.inr (Or.inr (Or.inl rfl)))
  alone _ := rfl

theorem Sound.change (hs : Sound ignore s) {d : Disk} {seen : List Observed} {slipped : List FileId}
    (hslipped : ∀ f, Worth ignore d f →
      Worth ignore s.disk f ∨ f ∈ seen.map Observed.file ∨ f ∈ slipped) :
    Sound ignore (s.change d seen slipped) := by
  -- what is seen is unread, or there is nobody to read it
  have hseen : ∀ f, f ∈ seen.map Observed.file → (s.change d seen slipped).Pending f := by
    intro f hf
    refine Or.inl fun h heq ↦ ?_
    obtain ⟨h₀, -, rfl⟩ := Option.map_eq_some_iff.mp heq
    refine Or.inl ?_
    rw [List.map_append]
    exact List.mem_append_right _ hf
  have hkept : ∀ f, s.Pending f → (s.change d seen slipped).Pending f := by
    rintro f (hhelper | hrest)
    · refine Or.inl fun h heq ↦ ?_
      obtain ⟨h₀, hh₀, rfl⟩ := Option.map_eq_some_iff.mp heq
      rcases hhelper h₀ hh₀ with hunread | hnoted
      · refine Or.inl ?_
        rw [List.map_append]
        exact List.mem_append_left _ hunread
      · exact Or.inr hnoted
    · exact Or.inr hrest
  have hedits : ∀ f, f ∉ seen.map Observed.file → f ∉ slipped →
      (s.change d seen slipped).edits f = s.edits f :=
    fun f hf hs ↦ if_neg (not_or.mpr ⟨hf, hs⟩)
  refine ⟨fun f hne hworth ↦ ?_, fun f u hu hne ↦ ?_, hs.alone⟩
  · by_cases hf : f ∈ seen.map Observed.file
    · exact Or.inl (hseen f hf)
    by_cases hslip : f ∈ slipped
    · exact Or.inr (Or.inr (List.mem_append_left _ hslip))
    rw [hedits f hf hslip] at hne ⊢
    have hbefore := (hslipped f hworth).resolve_right (not_or.mpr ⟨hf, hslip⟩)
    rcases hs.covered f hne hbefore with hpending | hupload | hdropped
    · exact Or.inl (hkept f hpending)
    · exact Or.inr (Or.inl hupload)
    · exact Or.inr (Or.inr (List.mem_append_right _ hdropped))
  · by_cases hf : f ∈ seen.map Observed.file
    · exact Or.inl (hseen f hf)
    by_cases hslip : f ∈ slipped
    · exact Or.inr (List.mem_append_left _ hslip)
    rw [hedits f hf hslip] at hne
    exact (hs.flight f u hu hne).imp (hkept f) (List.mem_append_right _)

/-- A walk that begins takes over what is worth sending from the mark that made it begin. -/
theorem sound_walks {todo : List FileId} (hupload : s.upload = none)
    (htodo : ∀ f, Worth ignore s.disk f → f ∈ todo) :
    Sound ignore { s with resync := false, walk := some ⟨todo, []⟩, dropped := [] } where
  covered f _ hworth := Or.inl (Or.inr (Or.inr (Or.inr (Or.inl ⟨_, rfl, Or.inl (htodo f hworth)⟩))))
  flight f u hu _ := by
    rw [hupload] at hu
    exact absurd hu (Option.some_ne_none _).symm
  alone _ := hupload

theorem Sound.begins (hs : Sound ignore s) (hwalk : s.walk = none) (hupload : s.upload = none) :
    Sound ignore { s with queue := s.queue.begin f, upload := some (f, s.edits f) } where
  covered g hne hworth := by
    by_cases hgf : g = f
    · subst hgf
      exact Or.inr (Or.inl rfl)
    · rcases hs.covered g hne hworth with hpending | hsending | hdropped
      · have hqueue : (s.queue.begin f).isWaiting g = s.queue.isWaiting g := by
          rw [Queue.isWaiting, Queue.begin, AList.lookup_erase_ne hgf, ← Queue.isWaiting]
        refine Or.inl ?_
        rw [State.Pending, hqueue]
        exact hpending
      · rw [hupload] at hsending
        exact absurd hsending (Option.some_ne_none _).symm
      · exact Or.inr (Or.inr hdropped)
  flight g u hu hne := by
    cases hu
    exact absurd rfl hne
  alone hsome := absurd hwalk hsome

/-- A message that is taken off the connection is pending in what it has made the daemon do. -/
theorem Sound.hears (hs : Sound ignore s) {now : ℕ} {m : Report} {wire : List Report}
    (hlink : s.link = .serving (m :: wire)) :
    Sound ignore { s.hear now m with link := .serving wire } := by
  have hheard : ∀ f, (s.hear now m).resync = true ∨ (s.hear now m).queue.isWaiting f = true →
      State.Pending { s.hear now m with link := .serving wire } f := by
    rintro f (hresync | hqueue)
    · exact Or.inr (Or.inr (Or.inl hresync))
    · exact Or.inr (Or.inr (Or.inr (Or.inr hqueue)))
  have hpending : ∀ f, s.Pending f →
      State.Pending { s.hear now m with link := .serving wire } f := by
    rintro f (hhelper | hhas | hresync | hwalk | hqueue)
    · refine Or.inl ?_
      cases m <;> exact hhelper
    · rw [hlink] at hhas
      obtain ⟨m', hmem, hcovers⟩ := hhas
      rcases List.mem_cons.mp hmem with rfl | hlater
      · exact hheard f (pending_hear (Or.inl hcovers))
      · exact Or.inr (Or.inl ⟨m', hlater, hcovers⟩)
    · exact hheard f (pending_hear (Or.inr (Or.inr hresync)))
    · refine Or.inr (Or.inr (Or.inr (Or.inl ?_)))
      cases m <;> exact hwalk
    · exact hheard f (pending_hear (Or.inr (Or.inl hqueue)))
  cases m with
  | resync =>
    exact hs.frame rfl rfl rfl rfl (List.Subset.refl _) id fun f hf ↦ Or.inl (hpending f hf)
  | changed files =>
    exact hs.frame rfl rfl rfl rfl (List.Subset.refl _) id fun f hf ↦ Or.inl (hpending f hf)

/-- What becomes of the walk concerns only what it has. -/
theorem State.Pending.walking {w : Walk} (hf : s.Pending f) (hwalk : s.walk = some w)
    (o : Option Walk) (dropped : List FileId) :
    State.Pending { s with walk := o, dropped := dropped } f ∨ w.Has f := by
  rcases hf with hhelper | hlink | hresync | ⟨w', hw', hhas⟩ | hqueue
  · exact Or.inl (Or.inl hhelper)
  · exact Or.inl (Or.inr (Or.inl hlink))
  · exact Or.inl (Or.inr (Or.inr (Or.inl hresync)))
  · rw [hwalk] at hw'
    cases hw'
    exact Or.inr hhas
  · exact Or.inl (Or.inr (Or.inr (Or.inr (Or.inr hqueue))))

/-- One file less to come to: the others are still there to come to or found. -/
theorem Sound.visits (hs : Sound ignore s) {todo found found' dropped : List FileId}
    (hwalk : s.walk = some ⟨f :: todo, found⟩) (hfound : found ⊆ found')
    (hdropped : s.dropped ⊆ dropped)
    (hf : f ∈ found' ∨ f ∈ dropped ∨ ¬Worth ignore s.disk f) :
    Sound ignore { s with walk := some ⟨todo, found'⟩, dropped := dropped } := by
  have hsome : s.walk ≠ none := by
    rw [hwalk]
    exact Option.some_ne_none _
  refine hs.frame rfl rfl rfl rfl hdropped (fun _ ↦ hsome) fun g hg ↦ ?_
  have hhas : Walk.Has ⟨todo, found'⟩ g →
      State.Pending { s with walk := some ⟨todo, found'⟩, dropped := dropped } g :=
    fun h ↦ Or.inr (Or.inr (Or.inr (Or.inl ⟨_, rfl, h⟩)))
  rcases hg.walking hwalk (some ⟨todo, found'⟩) dropped with hkept | hmem | hmem
  · exact Or.inl hkept
  · rcases List.mem_cons.mp hmem with rfl | hlater
    · exact hf.imp (fun h ↦ hhas (Or.inr h)) fun h ↦ ⟨hsome, h⟩
    · exact Or.inl (hhas (Or.inl hlater))
  · exact Or.inl (hhas (Or.inr (hfound hmem)))

theorem Sound.walked (hs : Sound ignore s) {now : ℕ} {found : List FileId}
    (hwalk : s.walk = some ⟨[], found⟩) :
    Sound ignore { s.hear now (.changed found) with walk := none } := by
  refine hs.frame rfl rfl rfl rfl (List.Subset.refl _) (absurd rfl) fun f hf ↦ Or.inl ?_
  have hqueue : f ∈ found ∨ s.queue.isWaiting f = true →
      State.Pending { s.hear now (.changed found) with walk := none } f :=
    fun h ↦ Or.inr (Or.inr (Or.inr (Or.inr (isWaiting_foldl_touch.mpr h))))
  rcases hf with hhelper | hlink | hresync | ⟨w, hw, hhas⟩ | hwaiting
  · exact Or.inl hhelper
  · exact Or.inr (Or.inl hlink)
  · exact Or.inr (Or.inr (Or.inl hresync))
  · rw [hwalk] at hw
    cases hw
    exact hqueue (Or.inl (hhas.resolve_left List.not_mem_nil))
  · exact hqueue (Or.inr hwaiting)

/-- What a walk that breaks off had come to or had still to come to is dropped. -/
theorem Sound.breaksOff (hs : Sound ignore s) {w : Walk} (hwalk : s.walk = some w) :
    Sound ignore { s with walk := none, dropped := w.todo ++ w.found ++ s.dropped } := by
  refine hs.frame rfl rfl rfl rfl (List.subset_append_right _ _) (absurd rfl) fun f hf ↦ ?_
  rcases hf.walking hwalk none (w.todo ++ w.found ++ s.dropped) with hkept | hhas
  · exact Or.inl hkept
  · refine Or.inr ⟨by rw [hwalk]; exact Option.some_ne_none _, Or.inl ?_⟩
    exact List.mem_append_left _ (List.mem_append.mpr hhas)

theorem isWaiting_finish {q : Queue} {g : FileId} :
    ((q.finish g).sent g).isWaiting f = q.isWaiting f := rfl

theorem isWaiting_failed {q : Queue} {now : ℕ} {g : FileId} :
    ((q.finish g).failed now g).isWaiting f = true ↔ f = g ∨ q.isWaiting f = true := by
  rw [Queue.isWaiting, Queue.failed]
  by_cases hfg : f = g
  · subst hfg
    simp
  · simp [Queue.isWaiting, Queue.finish, hfg]

/-- Whatever becomes of an upload, what is pending stays so. -/
theorem State.Pending.finish {now u : ℕ} {g : FileId} {d : Disk} (hf : s.Pending f)
    (outcome : Upload.Outcome) : (s.finish now g u d outcome).Pending f := by
  cases outcome with
  | failed why =>
    rcases hf with hhelper | hlink | hresync | hwalk | hqueue
    · exact Or.inl hhelper
    · exact Or.inr (Or.inl hlink)
    · exact Or.inr (Or.inr (Or.inl hresync))
    · exact Or.inr (Or.inr (Or.inr (Or.inl hwalk)))
    · exact Or.inr (Or.inr (Or.inr (Or.inr (isWaiting_failed.mpr (Or.inr hqueue)))))
  | sent cloudId => exact hf
  | deletedInstead => exact hf
  | nothingToDo => exact hf
  | ignored => exact hf

/-- The file whose upload ends is sent, waits again, or is dropped; or it was edited meanwhile, and
is pending or was dropped then. -/
theorem covered_finish {now u : ℕ} {d : Disk} (outcome : Upload.Outcome)
    (hflight : s.edits f ≠ u → s.Pending f ∨ f ∈ s.dropped)
    (hne : (s.finish now f u d outcome).edits f ≠ (s.finish now f u d outcome).sent f) :
    (s.finish now f u d outcome).Pending f ∨ f ∈ (s.finish now f u d outcome).dropped := by
  cases outcome with
  | sent cloudId =>
    have hchanged : s.edits f ≠ u := fun heq ↦
      hne (heq.trans (Function.update_self f u s.sent).symm)
    exact (hflight hchanged).imp_left fun hpending ↦ hpending.finish (.sent cloudId)
  | failed why =>
    exact Or.inl (Or.inr (Or.inr (Or.inr (Or.inr (isWaiting_failed.mpr (Or.inl rfl))))))
  | deletedInstead => exact Or.inr List.mem_cons_self
  | nothingToDo => exact Or.inr List.mem_cons_self
  | ignored => exact Or.inr List.mem_cons_self

/-- Of the other files an upload changes neither the counts nor what is dropped. -/
theorem finish_of_ne (s : State) (now u : ℕ) (d : Disk) (outcome : Upload.Outcome) {g : FileId}
    (hgf : g ≠ f) :
    (s.finish now f u d outcome).edits g = s.edits g
      ∧ (s.finish now f u d outcome).sent g = s.sent g
      ∧ (g ∈ s.dropped → g ∈ (s.finish now f u d outcome).dropped)
      ∧ (s.finish now f u d outcome).disk = d := by
  have hupdate : Function.update s.sent f u g = s.sent g := Function.update_of_ne hgf u s.sent
  cases outcome with
  | sent cloudId => exact ⟨rfl, hupdate, id, rfl⟩
  | failed why => exact ⟨rfl, rfl, id, rfl⟩
  | deletedInstead => exact ⟨rfl, rfl, List.mem_cons_of_mem _, rfl⟩
  | nothingToDo => exact ⟨rfl, rfl, List.mem_cons_of_mem _, rfl⟩
  | ignored => exact ⟨rfl, rfl, List.mem_cons_of_mem _, rfl⟩

theorem Sound.ends (hs : Sound ignore s) {now u : ℕ} {d : Disk} {outcome : Upload.Outcome}
    (hupload : s.upload = some (f, u))
    (hworth : ∀ g, g ≠ f → Worth ignore d g → Worth ignore s.disk g) :
    Sound ignore (s.finish now f u d outcome) := by
  have hnone : (s.finish now f u d outcome).upload = none := by cases outcome <;> rfl
  refine ⟨fun g hne hg ↦ ?_, fun g w hw _ ↦ ?_, fun _ ↦ hnone⟩
  · by_cases hgf : g = f
    · subst hgf
      rcases covered_finish outcome (hs.flight g u hupload) hne with hpending | hdropped
      · exact Or.inl hpending
      · exact Or.inr (Or.inr hdropped)
    · obtain ⟨hedits, hsent, hdropped, hdisk⟩ := finish_of_ne s now u d outcome hgf
      rw [hedits, hsent] at hne
      rw [hdisk] at hg
      rcases hs.covered g hne (hworth g hgf hg) with hpending | hsending | hdrop
      · exact Or.inl (hpending.finish outcome)
      · rw [hupload] at hsending
        exact absurd (congrArg Prod.fst (Option.some.inj hsending)).symm hgf
      · exact Or.inr (Or.inr (hdropped hdrop))
  · rw [hnone] at hw
    exact absurd hw (Option.some_ne_none _).symm

/-! ## What a run keeps -/

theorem Sound.step (hs : Sound ignore s) (h : Step ignore s s') : Sound ignore s' := by
  cases h with
  | changes d seen slipped hslipped => exact hs.change hslipped
  | starts =>
    refine hs.frame rfl rfl rfl rfl (List.Subset.refl _) id fun f hf ↦ Or.inl ?_
    exact hf.helper (fun _ ↦ Or.inl (Or.inr (Or.inr (Or.inl rfl)))) id
  | stops =>
    exact hs.frame rfl rfl rfl rfl (List.Subset.refl _) id fun f _ ↦ Or.inl (Or.inl nofun)
  | drains h seen rest lost hhelper hunread =>
    refine hs.frame rfl rfl rfl rfl (List.Subset.refl _) id fun f hf ↦ Or.inl ?_
    refine hf.helper (fun hhas ↦ Or.inl ?_) id
    rcases hhas h hhelper with hmem | hnoted
    · rw [hunread, List.map_append, List.mem_append] at hmem
      rcases hmem with hread | hrest
      · exact Or.inr (noted_drain (Or.inl hread))
      · exact Or.inl hrest
    · exact Or.inr (noted_drain (Or.inr hnoted))
  | misses h hhelper =>
    refine hs.frame rfl rfl rfl rfl (List.Subset.refl _) id fun f hf ↦ Or.inl ?_
    exact hf.helper (fun _ ↦ Or.inl (Or.inr noted_mark)) id
  | works h r hhelper hstep hquiet =>
    refine hs.frame rfl rfl rfl rfl (List.Subset.refl _) id fun f hf ↦ Or.inl ?_
    refine hf.helper (fun hhas ↦ Or.inl ?_) id
    rcases hhas h hhelper with hunread | hnoted
    · exact Or.inl hunread
    · rcases hnoted.step hstep with hkept | ⟨m, hm, -⟩
      · exact Or.inr hkept
      · rw [hquiet] at hm
        exact absurd hm (List.cons_ne_self _ _).symm
  | sends h r m hhelper hstep hsent =>
    refine hs.frame rfl rfl rfl rfl (List.Subset.refl _) id fun f hf ↦ Or.inl ?_
    refine hf.helper (fun hhas ↦ ?_) fun hlink ↦ hlink.push m
    rcases hhas h hhelper with hunread | hnoted
    · exact Or.inl (Or.inl hunread)
    · rcases hnoted.step hstep with hkept | ⟨m', hm', hcovers⟩
      · exact Or.inl (Or.inr hkept)
      · cases hsent.symm.trans hm'
        exact Or.inr (Link.has_push s.link hcovers)
  | connects | breaks =>
    refine hs.frame rfl rfl rfl rfl (List.Subset.refl _) id fun f hf ↦ Or.inl ?_
    exact hf.imp_right fun _ ↦ Or.inl trivial
  | accepts wire hlink | looks =>
    refine hs.frame rfl rfl rfl rfl (List.Subset.refl _) id fun f _ ↦ Or.inl ?_
    exact Or.inr (Or.inr (Or.inl rfl))
  | hears now m wire hlink => exact hs.hears hlink
  | walks todo hresync hwalk hupload htodo => exact sound_walks hupload htodo
  | finds f todo found hwalk hworth =>
    exact hs.visits hwalk (List.subset_append_left _ _) (List.Subset.refl _)
      (Or.inl (List.mem_append_right _ (List.mem_singleton_self f)))
  | passes f todo found hwalk hworth =>
    exact hs.visits hwalk (List.Subset.refl _) (List.Subset.refl _) (Or.inr (Or.inr hworth))
  | overlooks f todo found hwalk =>
    exact hs.visits hwalk (List.Subset.refl _) (List.subset_cons_self _ _)
      (Or.inr (Or.inl List.mem_cons_self))
  | walked now found hwalk => exact hs.walked hwalk
  | breaksOff w hwalk => exact hs.breaksOff hwalk
  | begins f hwalk hupload hwaiting => exact hs.begins hwalk hupload
  | ends now f u d outcome hupload hworth => exact hs.ends hupload hworth
  | restarts => exact sound_restart

theorem sound_start {debounce : ℕ} {d : Disk} : Sound ignore (.start debounce d) where
  covered _ _ _ := Or.inl (Or.inr (Or.inr (Or.inl rfl)))
  flight _ _ _ _ := Or.inl (Or.inr (Or.inr (Or.inl rfl)))
  alone _ := rfl

theorem Reachable.sound {debounce : ℕ} {d : Disk} (h : Reachable ignore debounce d s) :
    Sound ignore s := by
  induction h with
  | refl => exact sound_start
  | tail _ hstep ih => exact ih.step hstep

/-- The helper runs and is connected, and nobody has anything left to do. -/
structure State.Quiet (s : State) : Prop where
  helper : ∃ h, s.helper = some h ∧ h.unread = [] ∧ h.reporter.dirty = ⟨∅, false⟩
    ∧ h.reporter.sender = .sleeping
  link : s.link = .serving []
  resync : s.resync = false
  walk : s.walk = none
  queue : s.queue.waiting = ∅
  upload : s.upload = none

theorem State.Quiet.not_pending (h : s.Quiet) : ¬s.Pending f := by
  rintro (hhelper | hlink | hresync | ⟨w, hw, -⟩ | hqueue)
  · obtain ⟨h, hh, hunread, hdirty, hsender⟩ := h.helper
    rcases hhelper h hh with hmem | hfile | hlost | hholds
    · rw [hunread] at hmem
      exact absurd hmem List.not_mem_nil
    · rw [hdirty] at hfile
      exact absurd hfile (AList.notMem_empty f)
    · rw [hdirty] at hlost
      exact absurd hlost Bool.false_ne_true
    · rw [hsender] at hholds
      exact Sender.not_holds_sleeping f hholds
  · rw [h.link] at hlink
    obtain ⟨m, hm, -⟩ := hlink
    exact absurd hm List.not_mem_nil
  · rw [h.resync] at hresync
    exact absurd hresync Bool.false_ne_true
  · rw [h.walk] at hw
    exact absurd hw (Option.some_ne_none _).symm
  · rw [Queue.isWaiting, h.queue, AList.lookup_empty] at hqueue
    exact absurd hqueue Bool.false_ne_true

/-- **When everything is at rest, the cloud has it**: what a walk would send has been sent after its
last edit, except for what has been dropped since the last walk began. -/
theorem sent_of_quiet {debounce : ℕ} {d : Disk} (h : Reachable ignore debounce d s)
    (hquiet : s.Quiet) (hworth : Worth ignore s.disk f) : s.edits f = s.sent f ∨ f ∈ s.dropped := by
  refine or_iff_not_imp_left.mpr fun hunsent ↦ ?_
  rcases h.sound.covered f hunsent hworth with hpending | hsending | hdropped
  · exact absurd hpending hquiet.not_pending
  · rw [hquiet.upload] at hsending
    exact absurd hsending (Option.some_ne_none _).symm
  · exact hdropped

/-- After the daemon and a helper have found each other, the walk breaks off over a directory that
cannot be read. -/
def brokenOff : State :=
  { State.start 2 (Upload.sampleDisk "a" 7) with
    helper := some ⟨[], ⟨⟨∅, false⟩, .sleeping, false, [.sent .resync]⟩⟩
    link := .serving [], resync := false, dropped := [⟨1, 7⟩] }

theorem worth_sampleDisk (h : Worth ⟨[".git"], []⟩ (Upload.sampleDisk "a" 7) f) : f ∈ [⟨1, 7⟩] :=
  ((dirtyFiles_spec ⟨[".git"], []⟩ (Upload.sampleDisk "a" 7) rfl).1 f).mpr h

theorem reachable_brokenOff :
    Reachable ⟨[".git"], []⟩ 2 (Upload.sampleDisk "a" 7) brokenOff := by
  refine .head (.starts _) <| .head (.connects _) <| .head (.accepts _ [] rfl) ?_
  refine .head (.works _ _ (Reporter.spawn.take []) rfl (.took _ [] rfl .nil) rfl) ?_
  refine .head (.sends _ _ _ .resync rfl (.resynced _ [] rfl) rfl) ?_
  refine .head (.hears _ 0 .resync [] rfl) ?_
  refine .head (.walks _ [⟨1, 7⟩] rfl rfl rfl fun f hf ↦ worth_sampleDisk hf) ?_
  exact .single (.breaksOff _ ⟨[⟨1, 7⟩], []⟩ rfl)

/-- What was dropped stays so while nothing makes the daemon walk again. -/
theorem unsent_brokenOff : brokenOff.Quiet ∧ Worth ⟨[".git"], []⟩ brokenOff.disk ⟨1, 7⟩
    ∧ brokenOff.edits ⟨1, 7⟩ ≠ brokenOff.sent ⟨1, 7⟩ :=
  ⟨⟨⟨_, rfl, rfl, rfl, rfl⟩, rfl, rfl, rfl, rfl, rfl⟩,
    ⟨["a"], Upload.sampleInode 7, by decide, rfl, rfl, by decide, rfl⟩, Nat.one_ne_zero⟩

/-! ## The functions behind the steps -/

/-- What the walk does, when nothing changes meanwhile, is what `dirtyFiles` says. -/
theorem run_dirtyFiles {found : Resync} (now : ℕ) (h : dirtyFiles ignore s.disk none = .ok found)
    (hresync : s.resync = true) (hwalk : s.walk = none) (hupload : s.upload = none) :
    Relation.ReflTransGen (Step ignore) s
      (State.hear { s with resync := false, walk := none, dropped := [] } now
        (.changed found.send)) := by
  obtain ⟨hsend, -⟩ := dirtyFiles_spec ignore s.disk h
  have hbegun : Step ignore s
      { s with resync := false, walk := some ⟨found.send, []⟩, dropped := [] } :=
    .walks s found.send hresync hwalk hupload fun f hf ↦ (hsend f).mpr hf
  have hall : ∀ todo done : List FileId, (∀ f ∈ todo, Worth ignore s.disk f) →
      Relation.ReflTransGen (Step ignore)
        { s with resync := false, walk := some ⟨todo, done⟩, dropped := [] }
        { s with resync := false, walk := some ⟨[], done ++ todo⟩, dropped := [] } := by
    intro todo
    induction todo with
    | nil =>
      intro done _
      rw [List.append_nil]
    | cons f todo ih =>
      intro done hworth
      have hfound := ih (done ++ [f]) fun g hg ↦ hworth g (List.mem_cons_of_mem f hg)
      rw [List.append_assoc] at hfound
      exact .head (.finds _ f todo done rfl (hworth f List.mem_cons_self)) hfound
  exact .head hbegun ((hall found.send [] fun f hf ↦ (hsend f).mp hf).tail (.walked _ now _ rfl))

/-- What an upload writes to the file that it has sent makes no other file worth sending. -/
theorem worth_of_adopt {env : Upload.Env} {d : Disk} {path : RelPath} {sentState : Option Stat}
    {uploaded : Upload.Uploaded} {what : String} {g : FileId}
    (hpath : ∀ i, d.get path = some i → i.stat.file = f) (hgf : g ≠ f)
    (h : Worth ignore (Upload.adopt env d path sentState uploaded what).2 g) :
    Worth ignore d g := by
  rw [Upload.adopt] at h
  cases hadopt : env.adopt with
  | some e => simpa only [hadopt] using h
  | none =>
    cases hget : d.get path with
    | none => simpa only [hadopt, hget] using h
    | some i =>
      simp only [hadopt, hget] at h
      obtain ⟨q, j, hq, hj, hmark, hworth, hfile⟩ := h
      obtain ⟨hat, hname⟩ := Store.indexable_eq_some.mp hj
      obtain ⟨hgetq, hdir⟩ := (Disk.fileAt_eq_some _).mp hat
      by_cases hqp : q = path
      · subst hqp
        rw [PathMap.get_set_self] at hgetq
        cases hgetq
        exact absurd (hfile.symm.trans (hpath i hget)) hgf
      · rw [PathMap.get_set_of_ne hqp] at hgetq
        refine ⟨q, j, hq, Store.indexable_eq_some.mpr ⟨?_, hname⟩, hmark, hworth, hfile⟩
        exact (Disk.fileAt_eq_some _).mpr ⟨hgetq, hdir⟩

/-- An upload that finds the file where it was ends as the step says, with what it records. -/
theorem ends_settle {env : Upload.Env} {store : Store} {path : RelPath} {sentState : Option Stat}
    {uploaded : Upload.Uploaded} {u : ℕ} (now : ℕ) (hupload : s.upload = some (f, u))
    (hlookup : (store.lookup s.disk f).isSome)
    (hpath : ∀ i, s.disk.get path = some i → i.stat.file = f) :
    Step ignore s (s.finish now f u (Upload.settle env store f path sentState uploaded s.disk).2.2
      (Upload.settle env store f path sentState uploaded s.disk).1) := by
  rw [Upload.settle, if_pos hlookup]
  exact .ends s now f u _ _ hupload fun g hgf ↦ worth_of_adopt hpath hgf

end HydrationAPI.Client.Unsent
