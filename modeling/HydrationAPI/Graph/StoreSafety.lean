import HydrationAPI.Graph.FileStore

/-!
# What the threads keep to

A thread that saves is answered by a directory that the other one uses at the same time. Its calls
are about names of its own, so that the other sees nothing of them but the directory being put on
the disk. Whatever number of renames survives, what is there then is safe, since the order of the
two writes of a round is that of the renames.
-/

namespace HydrationAPI.Graph.FileStore

open Dialogue Errand
open Replace (Call Files Layout lastOf call Beside Owns View Sound Settled)

/-! ## Whose names they are -/

section Names

variable (text : Serde.Text) (credential : String)

def layout : Layout String Content UInt8 where
  final n := n ∈ [treeFile, tokenFile, credential]
  bytes := Content.bytes text

def own : Thread → String → Prop
  | .delta, n => n ∈ [treeFile, tokenFile, tmp treeFile, tmp tokenFile]
  | .tokens, n => n ∈ [credential, tmp credential]

variable {credential}

theorem Apart.own_disjoint (h : Apart credential) {i j : Thread} (hij : i ≠ j) {n : String}
    (hn : own credential i n) : ¬ own credential j n := by
  simp only [Apart, List.nodup_cons, List.mem_cons, List.not_mem_nil, or_false, not_or] at h
  cases i <;> cases j
  · exact absurd rfl hij
  · simp only [own, List.mem_cons, List.not_mem_nil, or_false] at hn ⊢
    grind
  · simp only [own, List.mem_cons, List.not_mem_nil, or_false] at hn ⊢
    grind
  · exact absurd rfl hij

/-- What is written beside a file is not read. -/
theorem Apart.tmp_hidden (h : Apart credential) {n : String}
    (hn : (layout text credential).final n) : ¬ (layout text credential).final (tmp n) := by
  simp only [Apart, List.nodup_cons, List.mem_cons, List.not_mem_nil, or_false, not_or] at h
  simp only [layout, List.mem_cons, List.not_mem_nil, or_false] at hn ⊢
  rcases hn with rfl | rfl | rfl <;> grind

end Names

/-! ## One file -/

theorem call_bind_pure {q : Call Still String Content UInt8} :
    (call q >>= pure : Storing Unit) = call q := by
  funext s
  change Dialogue.ask q _ = Dialogue.ask q _
  congr 1
  funext a
  cases a <;> rfl

section Write

variable {text : Serde.Text} {own : String → Prop} {lay : Layout String Content UInt8}
  {E : Env (Call Still String Content UInt8) (fun _ ↦ Except IoError Unit) Store}
  {I P P' : Store → Prop} {s : Unit} {w : Store}

/-- What a write of one file comes to. -/
def Written (own : String → Prop) (name : String) (content : Content) (P P' : Store → Prop) :
    Except IoError Unit → Unit → Store → Prop
  | .ok _, _, w => P' w ∧ Settled own name content w.1
  | .error _, _, w => P w ∨ P' w

theorem lasting_written (howns : Owns own E) (hP : View lay E I P) (hP' : View lay E I P')
    (name : String) (content : Content) : Lasting E I (Written own name content P P') := by
  refine ⟨fun r s ↦ ?_, fun r s w h ↦ ?_⟩
  · match r with
    | .ok _ =>
      exact fun w w' hothers h ↦
        ⟨hP'.stable w w' hothers h.1, (howns.others w w' hothers).settled h.2⟩
    | .error _ =>
      exact fun w w' hothers h ↦
        Or.imp (hP.stable w w' hothers) (hP'.stable w w' hothers) h
  · match r with
    | .ok _ => exact hP'.inv w h.1
    | .error _ => exact Or.elim h (hP.inv w) (hP'.inv w)

/-- **A file is replaced as a whole or not at all**, and once that has been told it lasts. -/
theorem meets_atomicPrivateWrite (howns : Owns own E) (hP : View lay E I P) (hP' : View lay E I P')
    (hbytes : lay.bytes = Content.bytes text) {name : String} {content : Content}
    (htmp : own (tmp name)) (hfinal : lay.final name) (hhid : ¬ lay.final (tmp name))
    (hland : ∀ w w', P w → Sound lay w'.1 → w'.1.log = w.1.log ++ [(name, content)] →
      w'.1.lasting = w.1.lasting → w'.2 = w.2 → P' w') (hw : P w) :
    Meets E I (Written own name content P P') (atomicPrivateWrite text name content) s w := by
  have hlasts := lasting_written howns hP hP' name content
  have hfailed : ∀ (e : IoError) (v : Store), P v →
      Written own name content P P' (.error e) s v := fun _ _ hv ↦ Or.inl hv
  have hlanded : ∀ (e : IoError) (v : Store), P' v →
      Written own name content P P' (.error e) s v := fun _ _ hv ↦ Or.inr hv
  -- Until the file is renamed nothing that is read is touched, and an error leaves all as it was.
  refine Replace.meets_still howns hlasts hP.stable hP.inv hw (fun w hw ↦ ?_) hfailed
  refine Replace.meets_still howns hlasts hP.stable hP.inv hw (fun w hw ↦ ?_) hfailed
  refine Replace.meets_openTruncated hP howns hlasts hhid hw (fun w hw hopen ↦ ?_) hfailed
  refine Replace.meets_still howns hlasts (hP.has howns htmp [] False) (fun v hv ↦ hP.inv v hv.1)
    ⟨hw, hopen⟩ (fun w hw ↦ ?_) fun e v hv ↦ hfailed e v hv.1
  refine Replace.meets_write hP howns hlasts htmp hhid hw (fun w hw hhas ↦ ?_) hfailed
  refine Replace.meets_syncFile hP howns hlasts htmp hhid ⟨hw, hhas⟩ (fun w hw hhas ↦ ?_) hfailed
  -- What is renamed is whole and on the disk; from here on an error may leave it renamed.
  refine Replace.meets_rename hP howns hlasts htmp hhid hfinal hland ⟨hw, hbytes ▸ hhas⟩
    (fun w hw hlog ↦ ?_) fun _ _ hv ↦ hv
  refine Replace.meets_still (X := fun w ↦ P' w ∧ Replace.Landed own name content w.1) howns hlasts
    (fun v v' hothers h ↦ ⟨hP'.stable v v' hothers h.1, (howns.others v v' hothers).landed h.2⟩)
    (fun v hv ↦ hP'.inv v hv.1) ⟨hw, hlog⟩ (fun w hw ↦ ?_) fun e v hv ↦ hlanded e v hv.1
  rw [← call_bind_pure]
  exact Replace.meets_syncDir hP' howns hlasts hw
    (fun w hw hsettled ↦ meets_pure hlasts ⟨hw, hsettled⟩) hlanded

end Write

/-! ## The pact -/

variable (text : Serde.Text) (scope : DriveScope) (credential : String)

/-- The file it is saved to. -/
def Content.file : Content → String
  | .tree _ _ => treeFile
  | .token _ _ => tokenFile
  | .credential _ => credential

/-- What holds of the files and the caller all the time: whatever number of renames survives, what
is there then is safe. -/
structure Inv (w : Store) : Prop where
  sound : Sound (layout text credential) w.1
  fits : ∀ u ∈ w.1.log, u.1 = u.2.file credential
  safe : ∀ k, (diskOf (w.1.log.take k)).Safe w.2.ledger w.2.acknowledged
  derived : ∀ d ∈ w.2.ledger, d.Derived scope
  numbers : ∀ d ∈ w.2.ledger, d.held.serial ≤ w.2.ledger.length
  distinct : (w.2.ledger.map fun d ↦ d.held.serial).Nodup

/-- What holds between two calls. -/
def Rests : Thread → Store → Prop
  | .delta, w => (w.2.world (diskOf w.1.log)).Safe scope
  | .tokens, _ => True

/-- What the writes of a call come to, from where it began. -/
def Comes (w₀ : World) (disk : Disk) : Called → Prop
  | .repeated served => (w₀.graph.repeat w₀.cursor).2 = some served ∧ disk = w₀.disk
  | .committed r => (w₀.graph.repeat w₀.cursor).2 = none ∧ ∃ first second,
      w₀.graph.commit ⟨none, first, second⟩ w₀.disk
        = ({ w₀.graph with pending := none }, disk, r)

/-- What has been told lasts. -/
def Told (w₀ : World) (w : Store) : Called → Prop
  | .committed (.ok _) => ∀ p, w₀.graph.pending = some p →
      Settled (own credential .delta) tokenFile (.token p.serial p.token) w.1
  | _ => True

/-- What a thread leaves when it is done. -/
def Ends : (i : Thread) → i.Result → Store → Prop
  | .delta, called, w => Inv text scope credential w ∧ ∃ w₀ : World, w₀.Safe scope
      ∧ w.2 = .ofWorld w₀.asking ∧ Comes w₀ (diskOf w.1.log) called ∧ Told credential w₀ w called
  | .tokens, saved, w => Inv text scope credential w ∧ (saved.2 = .ok () →
      Settled (own credential .tokens) credential (.credential saved.1) w.1)

def pact : Team.Pact Thread (Call Still String Content UInt8) Thread.Result Store where
  inv := Inv text scope credential
  rest := Rests scope
  kind i q := q.Of (own credential i)
  rely i w w' := (Inv text scope credential w → Inv text scope credential w')
    ∧ Beside (own credential i) w.1 w'.1 ∧ (i = .delta → w'.2 = w.2)
  post := Ends text scope credential

variable {text scope credential} {w w' : Store} {disk : Disk}

/-! ### The disk in the log -/

section Log

variable {log more : List (String × Content)}

@[simp] theorem diskOf_saveTree (log : List (String × Content)) (serial : ℕ) (tree : TreeBlob) :
    diskOf (log ++ [(treeFile, .tree serial tree)]) = (diskOf log).saveTree serial tree := by
  have hne : treeFile ≠ tokenFile := by decide
  rw [diskOf, diskOf, Replace.lastOf_concat_self, Replace.lastOf_concat_of_ne hne]
  rfl

@[simp] theorem diskOf_saveToken (log : List (String × Content)) (serial : ℕ) (token : TokenBlob) :
    diskOf (log ++ [(tokenFile, .token serial token)]) = (diskOf log).saveToken serial token := by
  have hne : tokenFile ≠ treeFile := by decide
  rw [diskOf, diskOf, Replace.lastOf_concat_self, Replace.lastOf_concat_of_ne hne]
  rfl

/-- What the others rename is not on this disk. -/
theorem diskOf_append (h : ∀ u ∈ more, ¬ own credential .delta u.1) :
    diskOf (log ++ more) = diskOf log := by
  have htree : ∀ u ∈ more, u.1 ≠ treeFile := fun u hu heq ↦ h u hu (by simp [own, heq])
  have htoken : ∀ u ∈ more, u.1 ≠ tokenFile := fun u hu heq ↦ h u hu (by simp [own, heq])
  rw [diskOf, diskOf, Replace.lastOf_append htree, Replace.lastOf_append htoken]

end Log

theorem diskOf_beside (h : Beside (own credential .delta) w.1 w'.1) :
    diskOf w'.1.log = diskOf w.1.log := by
  obtain ⟨more, hmore, hothers⟩ := h.log
  rw [hmore, diskOf_append hothers]

namespace Inv

/-- With nothing held back the caller is at rest. -/
theorem rests (h : Inv text scope credential w) (hpending : w.2.graph.pending = none) :
    (w.2.world (diskOf w.1.log)).Safe scope where
  derived := h.derived
  numbers := h.numbers
  distinct := h.distinct
  disk := by
    have hall := h.safe w.1.log.length
    rwa [List.take_length] at hall
  pending p hp := nomatch hpending.symm.trans hp

/-- Nothing has been delivered. -/
theorem of_ledger (h : Inv text scope credential w) (hledger : w'.2.ledger = w.2.ledger)
    (hsound : Sound (layout text credential) w'.1) (hfits : ∀ u ∈ w'.1.log, u.1 = u.2.file credential)
    (hsafe : ∀ k, (diskOf (w'.1.log.take k)).Safe w'.2.ledger w'.2.acknowledged) :
    Inv text scope credential w' :=
  ⟨hsound, hfits, hsafe, hledger ▸ h.derived, hledger ▸ h.numbers, hledger ▸ h.distinct⟩

/-- What has been renamed is what it was. -/
theorem kept (h : Inv text scope credential w) (hsound : Sound (layout text credential) w'.1)
    (hlog : w'.1.log = w.1.log) (hcaller : w'.2 = w.2) : Inv text scope credential w' := by
  refine h.of_ledger (congrArg Caller.ledger hcaller) hsound (hlog ▸ h.fits) fun k ↦ ?_
  rw [hlog, hcaller]
  exact h.safe k

/-- One more file is renamed. -/
theorem landed (h : Inv text scope credential w) (hsound : Sound (layout text credential) w'.1)
    {u : String × Content} (hlog : w'.1.log = w.1.log ++ [u]) (hcaller : w'.2 = w.2)
    (hfits : u.1 = u.2.file credential)
    (hsafe : (diskOf (w.1.log ++ [u])).Safe w.2.ledger w.2.acknowledged) :
    Inv text scope credential w' := by
  refine h.of_ledger (congrArg Caller.ledger hcaller) hsound (fun v hv ↦ ?_) fun k ↦ ?_
  · rw [hlog] at hv
    rcases List.mem_append.mp hv with hv | hv
    · exact h.fits v hv
    · exact List.mem_singleton.mp hv ▸ hfits
  · rw [hlog, hcaller]
    rcases Nat.lt_or_ge w.1.log.length k with hlt | hle
    · rw [List.take_of_length_le (by rw [List.length_append]; exact hlt)]
      exact hsafe
    · rw [List.take_append_of_le_length hle]
      exact h.safe k

/-- The caller has come to more. -/
theorem heard (h : Inv text scope credential w) {c : Caller}
    (hsafe : (c.world (diskOf w.1.log)).Safe scope) (hledger : w.2.ledger ⊆ c.ledger)
    (hacknowledged : w.2.acknowledged ⊆ c.acknowledged) : Inv text scope credential (w.1, c) where
  sound := h.sound
  fits := h.fits
  safe k := (h.safe k).mono hledger hacknowledged
  derived := hsafe.derived
  numbers := hsafe.numbers
  distinct := hsafe.distinct

/-- **A kill and a failure of power** leave what is safe. -/
theorem fails (h : Inv text scope credential w) (hfails : Fails w w') :
    Inv text scope credential w' := by
  obtain ⟨hfiles, hcaller⟩ := hfails
  have htake : ∃ k, Sound (layout text credential) w'.1 ∧ w'.1.log = w.1.log.take k := by
    rcases hfiles with heq | hlost
    · exact ⟨w.1.log.length, heq ▸ h.sound, by rw [heq, List.take_length]⟩
    · obtain ⟨d, k, -, -, -, hlog, -⟩ := id hlost
      exact ⟨k, h.sound.lost hlost, hlog⟩
  obtain ⟨k, hsound, hlog⟩ := htake
  refine h.of_ledger (by rw [hcaller]) hsound
    (fun u hu ↦ h.fits u (List.mem_of_mem_take (hlog ▸ hu))) fun j ↦ ?_
  rw [hlog, List.take_take, hcaller]
  exact h.safe _

end Inv

/-! ## The two threads -/

section Threads

variable {w₀ : World} {s : Unit} {p : Uncommitted}

/-- The world of a thread. -/
abbrev env (text : Serde.Text) (scope : DriveScope) (credential : String) (i : Thread) :
    Env (Call Still String Content UInt8) (fun _ ↦ Except IoError Unit) Store :=
  (pact text scope credential).env (rules text scope credential) i

theorem owns (i : Thread) : Owns (own credential i) (env text scope credential i) :=
  ⟨fun _ _ _ _ ha ↦ ha, fun _ _ hothers ↦ hothers.2.1⟩

/-- The call has begun there, and this is what is on the disk now. -/
def At (text : Serde.Text) (scope : DriveScope) (credential : String) (w₀ : World) (disk : Disk)
    (w : Store) : Prop :=
  Inv text scope credential w ∧ w.2 = .ofWorld w₀.asking ∧ diskOf w.1.log = disk

theorem view_at : View (layout text credential) (env text scope credential .delta)
    (Inv text scope credential) (At text scope credential w₀ disk) where
  inv _ h := h.1
  sound _ h := h.1.sound
  stable _ _ hothers h := ⟨hothers.1 h.1, (hothers.2.2 rfl).trans h.2.1,
    (diskOf_beside hothers.2.1).trans h.2.2⟩
  kept _ _ h hsound hlog _ hcaller := ⟨h.1.kept hsound hlog hcaller, hcaller.trans h.2.1,
    (congrArg diskOf hlog).trans h.2.2⟩

theorem view_inv : View (layout text credential) (env text scope credential .tokens)
    (Inv text scope credential) (Inv text scope credential) where
  inv _ h := h
  sound _ h := h.sound
  stable _ _ hothers h := hothers.1 h
  kept _ _ h hsound hlog _ hcaller := h.kept hsound hlog hcaller

/-- A write of the call lands, which is one of the stages of the commit. -/
theorem At.landed {disk' : Disk} {u : String × Content} (h : At text scope credential w₀ disk w)
    (hw₀ : w₀.Safe scope) (hcall : (w₀.graph.repeat w₀.cursor).2 = none)
    (hstage : disk' ∈ w₀.graph.stages w₀.disk) (hdisk : diskOf (w.1.log ++ [u]) = disk')
    (hfits : u.1 = u.2.file credential)
    (hsound : Sound (layout text credential) w'.1) (hlog : w'.1.log = w.1.log ++ [u])
    (hcaller : w'.2 = w.2) : At text scope credential w₀ disk' w' := by
  refine ⟨h.1.landed hsound hlog hcaller hfits ?_, hcaller.trans h.2.1, hlog ▸ hdisk⟩
  rw [hdisk, h.2.1]
  exact hw₀.stages hcall hstage

variable (hapart : Apart credential) (hw₀ : w₀.Safe scope)
  (hcall : (w₀.graph.repeat w₀.cursor).2 = none) (hpending : w₀.graph.pending = some p)

include hapart hw₀ hcall hpending

theorem meets_saveTree {tree : TreeBlob} (htree : p.tree = some tree)
    (hw : At text scope credential w₀ w₀.disk w) :
    Meets (env text scope credential .delta) (Inv text scope credential)
      (Written (own credential .delta) treeFile (.tree p.serial tree)
        (At text scope credential w₀ w₀.disk)
        (At text scope credential w₀ (w₀.disk.saveTree p.serial tree)))
      (saveTree text p.serial tree) s w := by
  have hfinal : (layout text credential).final treeFile := by simp [layout]
  have hstage : w₀.disk.saveTree p.serial tree ∈ w₀.graph.stages w₀.disk := by
    simp [GraphDiscover.stages, hpending, htree]
  refine meets_atomicPrivateWrite (owns .delta) view_at view_at rfl (by simp [own]) hfinal
    (hapart.tmp_hidden text hfinal) (fun v v' hv hsound hlog _ hcaller ↦ ?_) hw
  refine hv.landed hw₀ hcall hstage ?_ rfl hsound hlog hcaller
  rw [diskOf_saveTree, hv.2.2]

omit hpending in
theorem meets_saveToken (hstage : disk.saveToken p.serial p.token ∈ w₀.graph.stages w₀.disk)
    (hw : At text scope credential w₀ disk w) :
    Meets (env text scope credential .delta) (Inv text scope credential)
      (Written (own credential .delta) tokenFile (.token p.serial p.token)
        (At text scope credential w₀ disk)
        (At text scope credential w₀ (disk.saveToken p.serial p.token)))
      (saveToken text p.serial p.token) s w := by
  have hfinal : (layout text credential).final tokenFile := by simp [layout]
  refine meets_atomicPrivateWrite (owns .delta) view_at view_at rfl (by simp [own]) hfinal
    (hapart.tmp_hidden text hfinal) (fun v v' hv hsound hlog _ hcaller ↦ ?_) hw
  refine hv.landed hw₀ hcall hstage ?_ rfl hsound hlog hcaller
  rw [diskOf_saveToken, hv.2.2]

omit hapart hw₀ hcall hpending in
theorem stable_ends (i : Thread) (a : i.Result) :
    Stable (env text scope credential i) (Ends text scope credential i a) := by
  intro w w' hothers h
  obtain ⟨hinv, hbeside, hcaller⟩ := hothers
  match i with
  | .tokens =>
    exact ⟨hinv h.1, fun hok ↦ hbeside.settled (h.2 hok)⟩
  | .delta =>
    obtain ⟨hw, w₀, hsafe, hworld, hcomes, htold⟩ := h
    refine ⟨hinv hw, w₀, hsafe, (hcaller rfl).trans hworld, diskOf_beside hbeside ▸ hcomes, ?_⟩
    match a with
    | .repeated served => trivial
    | .committed (.error e) => trivial
    | .committed (.ok _) => exact fun p hp ↦ hbeside.settled (htold p hp)

/-- What a commit comes to. -/
def Commits (text : Serde.Text) (scope : DriveScope) (credential : String)
    (r : Except IoError Unit) (_ : Unit) (w : Store) : Prop :=
  Ends text scope credential .delta (.committed r) w

omit hapart hw₀ hcall hpending in
theorem lasting_commits : Lasting (env text scope credential .delta) (Inv text scope credential)
    (Commits text scope credential) :=
  ⟨fun r _ ↦ stable_ends .delta (.committed r), fun _ _ _ h ↦ h.1⟩

/-- The token is written last. -/
theorem meets_lastWrite (first : Save)
    (hstage : disk.saveToken p.serial p.token ∈ w₀.graph.stages w₀.disk)
    (hcommit : ∀ second, w₀.graph.commit ⟨none, first, second⟩ w₀.disk
      = ({ w₀.graph with pending := none }, second.run disk (disk.saveToken p.serial p.token)))
    (hw : At text scope credential w₀ disk w) :
    Meets (env text scope credential .delta) (Inv text scope credential)
      (Commits text scope credential) (saveToken text p.serial p.token) s w := by
  refine (meets_saveToken hapart hw₀ hcall hstage hw).mono fun r _ v _ h ↦ ?_
  have hends : ∀ (disk' : Disk) (second : Save) (e : IoError), At text scope credential w₀ disk' v →
      second.run disk (disk.saveToken p.serial p.token) = (disk', .error e) →
      Commits text scope credential (.error e) () v := by
    rintro disk' second e ⟨hinv, hcaller, hdisk⟩ hrun
    exact ⟨hinv, w₀, hw₀, hcaller, ⟨hcall, first, second, by rw [hcommit, hrun, hdisk]⟩, trivial⟩
  match r with
  | .ok _ =>
    obtain ⟨⟨hinv, hcaller, hdisk⟩, hsettled⟩ := h
    refine ⟨hinv, w₀, hw₀, hcaller, ⟨hcall, first, .saved, by rw [hcommit, hdisk]; rfl⟩,
      fun p' hp' ↦ ?_⟩
    cases hpending.symm.trans hp'
    exact hsettled
  | .error e =>
    rcases h with h | h
    · exact hends disk (.failed false e) e h rfl
    · exact hends _ (.failed true e) e h rfl

omit hpending in
/-- **A commit comes to what the abstract one does**, at every outcome of its two writes. -/
theorem meets_commit (hw : At text scope credential w₀ w₀.disk w) :
    Meets (env text scope credential .delta) (Inv text scope credential)
      (Commits text scope credential) (commit text w₀.graph.pending) s w := by
  cases hpending : w₀.graph.pending with
  | none =>
    refine meets_pure lasting_commits ⟨hw.1, w₀, hw₀, hw.2.1, ⟨hcall, .saved, .saved, ?_⟩, ?_⟩
    · have hsame : ({ w₀.graph with pending := none } : GraphDiscover) = w₀.graph := by
        rw [← hpending]
      rw [hsame, hw.2.2]
      simp only [GraphDiscover.commit, hpending]
    · exact fun p hp ↦ absurd (hpending.symm.trans hp) (Option.some_ne_none p).symm
  | some p =>
    cases htree : p.tree with
    | none =>
      have hcommit : commit text (some p) = saveToken text p.serial p.token := by
        rw [commit, htree]
      rw [hcommit]
      refine meets_lastWrite hapart hw₀ hcall hpending .saved ?_ (fun second ↦ ?_) hw
      · simp [GraphDiscover.stages, hpending, htree]
      · simp only [GraphDiscover.commit, hpending, htree]
    | some tree =>
      have hcommit : commit text (some p)
          = (saveTree text p.serial tree >>= fun _ ↦ saveToken text p.serial p.token) := by
        rw [commit, htree]
      rw [hcommit]
      refine meets_bind lasting_commits (meets_saveTree hapart hw₀ hcall hpending htree hw)
        (fun _ s v _ h ↦ ?_) fun e s v _ h ↦ ?_
      · refine meets_lastWrite hapart hw₀ hcall hpending .saved ?_ (fun second ↦ ?_) h.1
        · simp [GraphDiscover.stages, hpending, htree]
        · simp only [GraphDiscover.commit, hpending, htree, Save.run]
      · have hends : ∀ (disk' : Disk) (first : Save), At text scope credential w₀ disk' v →
            first.run w₀.disk (w₀.disk.saveTree p.serial tree) = (disk', .error e) →
            Commits text scope credential (.error e) s v := by
          rintro disk' first ⟨hinv, hcaller, hdisk⟩ hrun
          refine ⟨hinv, w₀, hw₀, hcaller, ⟨hcall, first, .saved, ?_⟩, trivial⟩
          simp only [GraphDiscover.commit, hpending, htree, hrun, hdisk]
        rcases h with h | h
        · exact hends _ (.failed false e) h rfl
        · exact hends _ (.failed true e) h rfl

omit hpending hcall in
/-- The first half of a call. -/
theorem safe_changes (hw : At text scope credential w₀ w₀.disk w) :
    Safe (env text scope credential .delta) (Inv text scope credential)
      (Ends text scope credential .delta) ((Caller.ofWorld w₀.asking).changes text) w := by
  have hgraph : (Caller.ofWorld w₀.asking).graph = w₀.graph := rfl
  have hcursor : (Caller.ofWorld w₀.asking).cursor = w₀.cursor := rfl
  rw [Caller.changes, hgraph, hcursor]
  cases hcall : (w₀.graph.repeat w₀.cursor).2 with
  | some served =>
    exact safe_done (stable_ends .delta (.repeated served))
      ⟨hw.1, w₀, hw₀, hw.2.1, ⟨hcall, hw.2.2⟩, trivial⟩ fun v hv ↦ ⟨hv.1, hv⟩
  | none =>
    refine Safe.bind (Safe.mono (meets_commit hapart hw₀ hcall hw) fun r v _ h ↦ ?_)
    exact safe_done (stable_ends .delta (.committed r.1)) h fun v hv ↦ ⟨hv.1, hv⟩

end Threads

/-! ## All together -/

section Asks

variable {own : String → Prop} {name : String} {content : Content}

theorem asks_call {q : Call Still String Content UInt8} (hq : q.Of own) :
    Errand.Asks (Call.Of own) (fun _ ↦ True) (call q : Storing Unit) :=
  asks_bind (asks_ask hq) fun _ ↦ asks_lift

theorem asks_atomicPrivateWrite (hname : own name) (htmp : own (tmp name)) :
    Errand.Asks (Call.Of own) (fun _ ↦ True) (atomicPrivateWrite text name content) :=
  asks_bind (asks_call trivial) fun _ ↦ asks_bind (asks_call trivial) fun _ ↦
    asks_bind (asks_call htmp) fun _ ↦ asks_bind (asks_call trivial) fun _ ↦
    asks_bind (asks_call htmp) fun _ ↦ asks_bind (asks_call htmp) fun _ ↦
    asks_bind (asks_call ⟨htmp, hname⟩) fun _ ↦ asks_bind (asks_call trivial) fun _ ↦
    asks_call trivial

end Asks

theorem asks_commit (pending : Option Uncommitted) :
    Errand.Asks (Call.Of (own credential .delta)) (fun _ ↦ True) (commit text pending) := by
  have htree : ∀ serial tree, Errand.Asks (Call.Of (own credential .delta)) (fun _ ↦ True)
      (saveTree text serial tree) := fun _ _ ↦
    asks_atomicPrivateWrite (by simp [own]) (by simp [own])
  have htoken : ∀ serial token, Errand.Asks (Call.Of (own credential .delta)) (fun _ ↦ True)
      (saveToken text serial token) := fun _ _ ↦
    asks_atomicPrivateWrite (by simp [own]) (by simp [own])
  cases pending with
  | none => exact asks_pure
  | some p =>
    rw [commit]
    cases p.tree with
    | none => exact htoken _ _
    | some tree => exact asks_bind (htree _ _) fun _ ↦ htoken _ _

theorem asks_changes (c : Caller) :
    (c.changes text).Asks (Call.Of (own credential .delta)) fun _ ↦ True := by
  rw [Caller.changes]
  split
  · trivial
  · exact (asks_commit _ () trivial).bind fun _ _ ↦ trivial

/-- The rest of a call is the abstract one, on the disk that is in the log. -/
theorem finish_ask {w₀ : World} {called : Called} (source : GraphDiscover.PageSource)
    (load : Option IoError) (applied : Bool) (h : Comes w₀ disk called) :
    ∃ store, ((Caller.ofWorld w₀.asking).finish text scope source load applied disk called).world
      disk = w₀.ask text scope source store applied := by
  have hgraph : w₀.asking.graph = w₀.graph := rfl
  have hdisk : w₀.asking.disk = w₀.disk := rfl
  have hcursor : w₀.asking.cursor = w₀.cursor := rfl
  have hledger : w₀.asking.ledger = w₀.ledger := rfl
  cases called with
  | repeated served =>
    obtain ⟨hrepeat, rfl⟩ := h
    have hpair : w₀.graph.repeat w₀.cursor = ((w₀.graph.repeat w₀.cursor).1, some served) :=
      Prod.ext rfl hrepeat
    refine ⟨⟨load, .saved, .saved⟩, ?_⟩
    rw [World.ask, hgraph, hdisk, hcursor, GraphDiscover.changes, hpair]
    rfl
  | committed r =>
    obtain ⟨hcall, first, second, hcommit⟩ := h
    have hpair : w₀.graph.repeat w₀.cursor = (w₀.graph, none) :=
      Prod.ext ((w₀.graph.repeat_spec w₀.cursor).2.2.2.2 hcall).1 hcall
    have hcommit' : w₀.graph.commit ⟨load, first, second⟩ w₀.disk
        = ({ w₀.graph with pending := none }, disk, r) := hcommit
    refine ⟨⟨load, first, second⟩, ?_⟩
    rw [World.ask, hgraph, hdisk, hcursor, hledger, GraphDiscover.changes, hpair]
    dsimp only
    rw [hcommit']
    cases r with
    | error e => rfl
    | ok _ =>
      have hround : ({ w₀.graph with pending := none } : GraphDiscover).runRound text scope source
          ⟨load, first, second⟩ disk (w₀.ledger.length + 1)
          = ({ w₀.graph with pending := none } : GraphDiscover).runRound text scope source
            ⟨load, .saved, .saved⟩ disk (w₀.ledger.length + 1) := rfl
      simp only [Caller.finish, Caller.ofWorld, hgraph, hledger, hround]
      obtain ⟨g, answer⟩ := ({ w₀.graph with pending := none } : GraphDiscover).runRound text scope
        source ⟨load, .saved, .saved⟩ disk (w₀.ledger.length + 1)
      cases answer with
      | error fault => rfl
      | ok d => rfl

/-- Nothing that has been delivered or acknowledged is forgotten. -/
theorem Caller.finish_subset (c : Caller) (source : GraphDiscover.PageSource)
    (load : Option IoError) (applied : Bool) (disk : Disk) (called : Called) :
    c.ledger ⊆ (c.finish text scope source load applied disk called).ledger
      ∧ c.acknowledged ⊆ (c.finish text scope source load applied disk called).acknowledged := by
  match called with
  | .repeated served => exact ⟨List.Subset.refl _, List.Subset.refl _⟩
  | .committed (.error e) => exact ⟨List.Subset.refl _, List.Subset.refl _⟩
  | .committed (.ok _) =>
    rw [Caller.finish]
    split
    · exact ⟨List.Subset.refl _, List.Subset.refl _⟩
    · exact ⟨List.subset_cons_self _ _, List.Subset.refl _⟩

theorem At.start {w₀ : World} (h : Inv text scope credential w)
    (hworld : w₀ = w.2.world (diskOf w.1.log)) (hw₀ : w₀.Safe scope) :
    At text scope credential w₀ w₀.disk (w.1, .ofWorld w₀.asking) := by
  subst hworld
  refine ⟨h.heard hw₀.asking (List.Subset.refl _)
    (World.asking_subset (w.2.world _)), rfl, rfl⟩

theorem pact_sound (hapart : Apart credential) :
    (pact text scope credential).Sound (rules text scope credential) where
  answered i j q w a w' hij hkind hw ha hw' := by
    obtain ⟨hanswer, hcaller⟩ := ha
    exact ⟨fun _ ↦ hw', hw.sound.beside_answers hkind (fun n hn ↦ hapart.own_disjoint hij hn)
      hanswer, fun _ ↦ hcaller⟩
  begins i p w w' hw hrest hbegins := by
    cases hbegins with
    | delta c hc =>
      subst hc
      have hat := At.start hw rfl hrest
      refine ⟨⟨safe_changes hapart hrest hat, asks_changes _⟩, fun j hj ↦ ?_⟩
      exact ⟨fun _ ↦ hat.1, Beside.refl _ _, fun hdelta ↦ absurd hdelta hj⟩
    | tokens refresh =>
      have hfinal : (layout text credential).final credential := by simp [layout]
      have hown : own credential .tokens credential ∧ own credential .tokens (tmp credential) := by
        simp [own]
      have hsaves : Meets (env text scope credential .tokens) (Inv text scope credential)
          (Written (own credential .tokens) credential (.credential refresh)
            (Inv text scope credential) (Inv text scope credential))
          (saveCredential text credential refresh) () w := by
        refine meets_atomicPrivateWrite (owns .tokens) view_inv view_inv rfl hown.2 hfinal
          (hapart.tmp_hidden text hfinal) (fun v v' hv hsound hlog _ hcaller ↦ ?_) hw
        refine hv.landed hsound hlog hcaller rfl ?_
        have hforeign : ∀ u ∈ [(credential, Content.credential refresh)],
            ¬ own credential .delta u.1 := by
          intro u hu
          rw [List.mem_singleton.mp hu]
          exact hapart.own_disjoint (by decide) hown.1
        rw [diskOf_append hforeign]
        simpa using hv.safe v.1.log.length
      refine ⟨⟨Safe.bind (Safe.mono hsaves fun r v hv h ↦ ?_), ?_⟩, fun j hj ↦ ?_⟩
      · refine safe_done (stable_ends .tokens (refresh, r.1)) ⟨hv, fun hok ↦ ?_⟩
          fun v hv ↦ ⟨hv.1, hv⟩
        obtain ⟨r, s⟩ := r
        cases hok
        exact h.2
      · exact (asks_atomicPrivateWrite hown.1 hown.2 () trivial).bind fun _ _ ↦ trivial
      · exact ⟨id, Beside.refl _ _, fun _ ↦ rfl⟩
  leaves i a w w' hw hpost hleaves := by
    cases hleaves with
    | delta called source load applied =>
      obtain ⟨-, w₀, hw₀, hcaller, hcomes, -⟩ := hpost
      obtain ⟨store, hstore⟩ : ∃ store, (w.2.finish text scope source load applied
          (diskOf w.1.log) called).world (diskOf w.1.log)
            = w₀.ask text scope source store applied := by
        rw [hcaller]
        exact finish_ask source load applied hcomes
      have hsafe := hstore ▸ hw₀.ask applied
      obtain ⟨hledger, hacknowledged⟩ := w.2.finish_subset source load applied (diskOf w.1.log) called
      have hw' := hw.heard hsafe hledger hacknowledged
      exact ⟨hw', hsafe, fun j hj ↦ ⟨fun _ ↦ hw', Beside.refl _ _, fun hdelta ↦ absurd hdelta hj⟩⟩
    | tokens saved => exact ⟨hw, trivial, fun j hj ↦ ⟨id, Beside.refl _ _, fun _ ↦ rfl⟩⟩
  rests i w w' hw hw' hrely hrest := by
    cases i with
    | tokens => trivial
    | delta =>
      have hcaller := hrely.2.2 rfl
      change (w'.2.world (diskOf w'.1.log)).Safe scope
      rw [hcaller, diskOf_beside hrely.2.1]
      exact hrest
  fails w w' hw hfails := by
    have hw' := hw.fails hfails
    refine ⟨hw', fun i ↦ ?_⟩
    cases i with
    | tokens => trivial
    | delta => exact hw'.rests (congrArg (fun c : Caller ↦ c.graph.pending) hfails.2)

end HydrationAPI.Graph.FileStore
