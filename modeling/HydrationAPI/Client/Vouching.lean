import HydrationAPI.Client.Upload
import HydrationAPI.Client.Vfs

/-!
# What a stamp vouches for

An upload observes the state of a file, has the sink read it, looks for the file again, and records
what came of it: the id, and the state it has observed as the stamp. Every one of these goes by a
name, and each is a system call of its own. Others write files, rename them and save over them in
the meantime.

Beside the files it is kept what was observed last, what the sink has read since, and which file got
the stamp.
-/

namespace HydrationAPI.Client.Vouching

open Dialogue Errand Upload

/-! ## The program -/

/-- What an upload asks of the operating system and of the sink. -/
inductive Ask where
  /-- `std::fs::metadata`, to verify a look-up. -/
  | stat (p : RelPath)
  | getxattr (p : RelPath) (name : XattrName)
  /-- `std::fs::metadata`, of what is about to be sent. -/
  | observe (p : RelPath)
  /-- `Store::scan`; the store is what the walk made of it. -/
  | scan
  /-- The sink begins to send what is at a path. -/
  | send (p : RelPath) (known : Option Known)
  /-- The sink has ended. -/
  | sent
  | remove (cloudId : String)
  | setxattr (p : RelPath) (name : XattrName) (value : String)

@[reducible] def Ask.Answer : Ask → Type
  | stat _ | observe _ => Except IoError Stat
  | getxattr _ _ => Except IoError Attr
  | scan => Store
  | send _ _ => Unit
  | sent => Except String Uploaded
  | remove _ | setxattr _ _ _ => Except String Unit

/-- A program that sends, with the store. -/
abbrev Sender := Errand Ask Ask.Answer Store String

namespace Sender

abbrev call (q : Ask) : Sender q.Answer := ask q

abbrev stat (p : RelPath) : Sender (Except IoError Stat) := call (.stat p)

abbrev getxattr (p : RelPath) (name : XattrName) : Sender (Except IoError Attr) :=
  call (.getxattr p name)

abbrev observe (p : RelPath) : Sender (Except IoError Stat) := call (.observe p)

abbrev scan : Sender Store := call .scan

abbrev send (p : RelPath) (known : Option Known) : Sender Unit := call (.send p known)

abbrev sent : Sender (Except String Uploaded) := call .sent

abbrev remove (cloudId : String) : Sender (Except String Unit) := call (.remove cloudId)

abbrev setxattr (p : RelPath) (name : XattrName) (value : String) : Sender (Except String Unit) :=
  call (.setxattr p name value)

/-- `get_xattr_string`. -/
def textAt (p : RelPath) (name : XattrName) : Sender (Option String) := do
  let value ← getxattr p name
  pure (value.toOption.bind Attr.string)

/-- `Store::lookup`. -/
def lookup (file : FileId) : Sender (Option StoreEntry) := do
  let store ← state
  match store.index.lookup file with
  | none => pure none
  | some p =>
    match ← stat p with
    | .error _ => pure none
    | .ok md =>
      if md.file ≠ file then pure none
      else
        let cloudId ← textAt p .id
        let etag ← textAt p .etag
        match cloudId, store.remembered p with
        | none, some r => pure (some ⟨p, some r.cloudId, r.tag, md.size⟩)
        | cloudId, _ => pure (some ⟨p, cloudId, etag, md.size⟩)

/-- `adopt_cloud_id`. -/
def adoptCloudId (path : RelPath) (u : Uploaded) : Sender (Except String Unit) := do
  match ← setxattr path .id u.cloudId with
  | .error e => pure (.error e)
  | .ok _ =>
    match u.etag with
    | some e => setxattr path .etag e
    | none => pure (.ok ())

/-- Record the cloud id on the file, and stamp it as it was before it was sent. -/
def record (path : RelPath) (sentState : Option Stat) (u : Uploaded) (what : String) :
    Sender Outcome := do
  match ← adoptCloudId path u with
  | .error e => pure (.failed s!"{what}: {e}")
  | .ok _ =>
    match sentState with
    | none => pure (.sent u.cloudId)
    | some md =>
      let _ ← setxattr path .stamp md.stamp
      pure (.sent u.cloudId)

/-- The file was renamed while it was sent: it is sent again, as a create. -/
def resend (moved : RelPath) (uploaded : Uploaded) : Sender Outcome := do
  let sentState ← observe moved
  let _ ← send moved none
  match ← sent with
  | .error e => pure (.failed s!"the file was renamed mid-upload and the resend failed: {e}")
  | .ok again =>
    let what := "could not record the cloud id after a rename"
    if again.cloudId ≠ uploaded.cloudId then
      match ← remove uploaded.cloudId with
      | .error e =>
        pure (.failed ("resent under the new name, but the object created under the old one could "
          ++ s!"not be removed: {e}"))
      | .ok _ => record moved sentState.toOption again what
    else record moved sentState.toOption again what

/-- The file is where it was, or it was deleted. -/
def conclude (file : FileId) (path : RelPath) (sentState : Option Stat) (uploaded : Uploaded) :
    Sender Outcome := do
  match ← lookup file with
  | some _ => record path sentState uploaded "could not record the cloud id"
  | none =>
    match ← remove uploaded.cloudId with
    | .error e =>
      pure (.failed ("the file was deleted mid-upload and the remote copy could not be removed: "
        ++ e))
    | .ok _ => pure .deletedInstead

/-- Walk the sync root again, if there has been a walk. -/
def rescan : Sender Unit := do
  let store ← state
  if store.rooted then
    let again ← scan
    modify fun _ ↦ again
  else pure ()

/-- The bytes went out from `path`. -/
def settle (file : FileId) (path : RelPath) (sentState : Option Stat) (uploaded : Uploaded) :
    Sender Outcome := do
  match ← lookup file with
  | some _ => conclude file path sentState uploaded
  | none =>
    rescan
    match ← lookup file with
    | some moved =>
      if moved.path ≠ path then resend moved.path uploaded
      else conclude file path sentState uploaded
    | none => conclude file path sentState uploaded

/-- One upload, start to finish. -/
def runUpload (file : FileId) : Sender Outcome := do
  match ← lookup file with
  | none => pure .nothingToDo
  | some entry =>
    let store ← state
    if store.pathIsIgnored entry.path then pure .ignored
    else
      let sentState ← observe entry.path
      let _ ← send entry.path (known entry)
      match ← sent with
      | .error e => pure (.failed e)
      | .ok uploaded => settle file entry.path sentState.toOption uploaded

end Sender

/-! ## The files -/

variable {Content : Type}

/-- What was observed of a file before it was sent. -/
structure Observed (Content : Type) where
  file : FileId
  stat : Stat
  content : Content

/-- The files and their contents, and what is kept of an upload. -/
structure Ward (Content : Type) where
  fs : Vfs
  content : FileId → Content
  observed : Option (Observed Content)
  /-- Where the sink is at work. -/
  sending : Option RelPath
  /-- The files the sink has opened since. -/
  opened : List FileId
  /-- What the sink has read since. -/
  given : List Content
  /-- The files that were written since. -/
  edited : FileId → Prop
  /-- The file that has got the stamp. -/
  stamped : Option FileId
  /-- All steps so far have met the condition. -/
  met : Prop

namespace Ward

variable (w : Ward Content)

/-- Nothing has been observed. -/
def start (fs : Vfs) (content : FileId → Content) : Ward Content :=
  ⟨fs, content, none, none, [], [], fun _ ↦ False, none, True⟩

/-- Another observation. -/
def observe (observed : Option (Observed Content)) : Ward Content :=
  { w with
    observed := observed, opened := [], given := [], edited := fun _ ↦ False, stamped := none }

/-- A file with other content, or another content. -/
def write (i : FileId) (node : Inode) (c : Content) : Ward Content :=
  { w with
    fs := w.fs.setInode i node
    content := Function.update w.content i c
    edited := fun j ↦ j = i ∨ w.edited j }

/-- A file that was observed, or has got the stamp, is not made to look as was observed. -/
def Differs (i : FileId) (st : Stat) : Prop :=
  ∀ o, w.observed = some o → i = o.file ∨ w.stamped = some i → st.stamp ≠ o.stat.stamp

end Ward

/-- What others do, and the sink. A new file can have the inode of one that is gone. The condition
is on what is written. -/
inductive Deed (w : Ward Content) : Ward Content → Prop
  | created (i : FileId) (node : Inode) (c : Content) (p : RelPath) :
      w.fs.names p = none → w.fs.Fresh i →
      Deed w { w.write i node c with
        fs := (w.fs.setInode i node).link i p
        stamped := w.stamped.filter (· ≠ i)
        met := w.met ∧ w.Differs i node.stat }
  | unlinked (p : RelPath) : Deed w { w with fs := w.fs.unlink p }
  | linked (a p : RelPath) (i : FileId) : w.fs.names a = some i → w.fs.names p = none →
      Deed w { w with fs := w.fs.link i p }
  | renamed (a b : RelPath) : Apart a b → Deed w { w with fs := w.fs.rename a b }
  | written (i : FileId) (st : Stat) (c : Content) : st.stamp ≠ (w.fs.inodes i).stat.stamp →
      Deed w { w.write i { w.fs.inodes i with stat := st } c with met := w.met ∧ w.Differs i st }
  | opens (p : RelPath) (i : FileId) : w.sending = some p → w.fs.names p = some i →
      Deed w { w with opened := i :: w.opened }
  | reads (i : FileId) : w.sending ≠ none → i ∈ w.opened →
      Deed w { w with given := w.given ++ [w.content i] }

/-- A file that gets the stamp, and looks as was observed, is the one that was observed, and the
only one that the sink has opened. -/
def Ward.Befits (w : Ward Content) (i : FileId) : Prop :=
  ∀ o, w.observed = some o → (w.fs.inodes i).stat.stamp = o.stat.stamp →
    i = o.file ∧ ∀ j ∈ w.opened, j = o.file

/-- What is answered. The condition is on the file that gets the stamp. -/
def Answers : (q : Ask) → Ward Content → q.Answer → Ward Content → Prop
  | .stat p, w, a, w' => Vfs.Acts (.fstatat p) w.fs a w.fs ∧ w' = w
  | .getxattr p name, w, a, w' => Vfs.Acts (.getxattr p name) w.fs a w.fs ∧ w' = w
  | .observe _, w, .error _, w' => w' = w.observe none
  | .observe p, w, .ok st, w' => ∃ i, w.fs.names p = some i ∧ st = w.fs.stat i
      ∧ w' = w.observe (some ⟨i, st, w.content i⟩)
  | .scan, w, _, w' | .remove _, w, _, w' | .setxattr _ _ _, w, .error _, w' => w' = w
  | .send p _, w, _, w' => w' = { w with sending := some p }
  | .sent, w, _, w' => w' = { w with sending := none }
  | .setxattr p .stamp value, w, .ok _, w' => ∃ i, w.fs.names p = some i
      ∧ w' = { w with
        fs := w.fs.setInode i ((w.fs.inodes i).setXattr value .stamp)
        stamped := some i
        met := w.met ∧ w.Befits i }
  | .setxattr p name value, w, .ok _, w' => ∃ i, w.fs.names p = some i
      ∧ w' = { w with fs := w.fs.setInode i ((w.fs.inodes i).setXattr value name) }

def wardEnv (Content : Type) : Env Ask Ask.Answer (Ward Content) := ⟨Answers, Deed⟩

/-- The file that has got the stamp reads as clean only if nothing has written it since it was
observed, and the sink was given what it contains. -/
def Vouches (w : Ward Content) : Prop := ∀ j, w.stamped = some j →
  (w.fs.inodes j).stampState = .ok .clean → ¬ w.edited j ∧ ∀ x ∈ w.given, x = w.content j

/-! ## What is kept -/

/-- What is known of the file that was observed, and of the one that has got the stamp. -/
structure Vouched (w : Ward Content) : Prop where
  same : ∀ o, w.observed = some o → (w.fs.inodes o.file).stat.stamp = o.stat.stamp →
    ¬ w.edited o.file ∧ w.content o.file = o.content
      ∧ ((∀ i ∈ w.opened, i = o.file) → ∀ x ∈ w.given, x = o.content)
  stamped : ∀ j, w.stamped = some j → w.sending = none ∧ ∃ o, w.observed = some o
    ∧ (w.fs.inodes j).stamp = .text o.stat.stamp
    ∧ ((w.fs.inodes j).stat.stamp = o.stat.stamp → j = o.file ∧ ∀ i ∈ w.opened, i = o.file)

section

variable {w w' : Ward Content} {i : FileId} {node : Inode} {c : Content} {m : Prop}

/-- A file that reads as clean is as it was stamped. -/
theorem stamp_eq_of_clean {value : String} (hstamp : node.stamp = .text value)
    (hclean : node.stampState = .ok .clean) : node.stat.stamp = value := by
  rw [Inode.stampState, hstamp, Attr.recorded] at hclean
  by_cases hfits : value.utf8ByteSize ≤ 96
  · rw [if_pos hfits] at hclean
    by_contra hne
    dsimp only at hclean
    rw [if_neg (Ne.symm hne)] at hclean
    cases hclean
  · rw [if_neg hfits] at hclean
    cases hclean

theorem Vouched.vouches (h : Vouched w) : Vouches w := by
  intro j hj hclean
  obtain ⟨-, o, ho, hstamp, hbefits⟩ := h.stamped j hj
  have hsame := stamp_eq_of_clean hstamp hclean
  obtain ⟨rfl, hopened⟩ := hbefits hsame
  obtain ⟨hedited, hcontent, hgiven⟩ := h.same o ho hsame
  exact ⟨hedited, fun x hx ↦ (hgiven hopened x hx).trans hcontent.symm⟩

/-- What is done to names makes no difference. -/
theorem Vouched.congr (h : Vouched w) (hinodes : w'.fs.inodes = w.fs.inodes)
    (hcontent : w'.content = w.content) (hobserved : w'.observed = w.observed)
    (hopened : w'.opened = w.opened) (hgiven : w'.given = w.given)
    (hedited : w'.edited = w.edited) (hstamped : ∀ j, w'.stamped = some j → w.stamped = some j)
    (hsending : w'.sending = w.sending) : Vouched w' := by
  refine ⟨?_, fun j hj ↦ ?_⟩
  · rw [hobserved, hinodes, hedited, hcontent, hgiven, hopened]
    exact h.same
  · rw [hobserved, hinodes, hopened, hsending]
    exact h.stamped j (hstamped j hj)

/-- A file that is written and no longer looks as was observed. -/
theorem Vouched.write (h : Vouched w) (hdiffers : w.Differs i node.stat)
    (hstamp : w.stamped = some i → node.stamp = (w.fs.inodes i).stamp) :
    Vouched (w.write i node c) := by
  refine ⟨fun o ho hsame ↦ ?_, fun j hj ↦ ?_⟩
  · have hne : o.file ≠ i := by
      rintro rfl
      refine hdiffers o ho (Or.inl rfl) ?_
      simpa [Ward.write, Vfs.setInode] using hsame
    have hold : (w.fs.inodes o.file).stat.stamp = o.stat.stamp := by
      simpa [Ward.write, Vfs.setInode, Function.update_of_ne hne] using hsame
    obtain ⟨hedited, hcontent, hgiven⟩ := h.same o ho hold
    exact ⟨fun h ↦ h.elim hne hedited, (Function.update_of_ne hne _ _).trans hcontent, hgiven⟩
  · obtain ⟨hidle, o, ho, hold, hbefits⟩ := h.stamped j hj
    refine ⟨hidle, o, ho, ?_⟩
    by_cases hji : j = i
    · subst hji
      simp only [Ward.write, Vfs.setInode, Function.update_self]
      exact ⟨(hstamp hj).trans hold, fun hlooks ↦ absurd hlooks (hdiffers o ho (Or.inr hj))⟩
    · simp only [Ward.write, Vfs.setInode, Function.update_of_ne hji]
      exact ⟨hold, hbefits⟩

/-- An attribute other than the stamp makes no difference. -/
theorem Vouched.setInode (h : Vouched w) (hstat : node.stat = (w.fs.inodes i).stat)
    (hstamp : node.stamp = (w.fs.inodes i).stamp) :
    Vouched { w with fs := w.fs.setInode i node } := by
  have hkept : ∀ j, (Function.update w.fs.inodes i node j).stat = (w.fs.inodes j).stat
      ∧ (Function.update w.fs.inodes i node j).stamp = (w.fs.inodes j).stamp := by
    intro j
    rw [Function.update_apply]
    split
    · rename_i hj
      subst hj
      exact ⟨hstat, hstamp⟩
    · exact ⟨rfl, rfl⟩
  refine ⟨fun o ho hsame ↦ h.same o ho ?_, fun j hj ↦ ?_⟩
  · rw [← (hkept o.file).1]
    exact hsame
  · obtain ⟨hidle, o, ho, hold, hbefits⟩ := h.stamped j hj
    refine ⟨hidle, o, ho, (hkept j).2.trans hold, fun hlooks ↦ hbefits ?_⟩
    rw [← (hkept j).1]
    exact hlooks

/-- The file at a path gets the observed state as its stamp. -/
theorem Vouched.stamp {o : Observed Content} (h : Vouched w) (ho : w.observed = some o)
    (hidle : w.sending = none) (hbefits : w.Befits i) :
    Vouched { w with
      fs := w.fs.setInode i ((w.fs.inodes i).setXattr o.stat.stamp .stamp)
      stamped := some i
      met := m } := by
  have hkept : ∀ j, (Function.update w.fs.inodes i ((w.fs.inodes i).setXattr o.stat.stamp .stamp)
      j).stat = (w.fs.inodes j).stat := by
    intro j
    rw [Function.update_apply]
    split
    · rename_i hj
      rw [hj]
      rfl
    · rfl
  refine ⟨fun o ho hsame ↦ h.same o ho ?_, ?_⟩
  · rw [← hkept o.file]
    exact hsame
  · rintro j hj
    obtain rfl : i = j := Option.some_inj.mp hj
    refine ⟨hidle, o, ho, ?_, fun hlooks ↦ hbefits o ho ?_⟩
    · simp [Vfs.setInode, Inode.setXattr]
    · rw [← hkept i]
      exact hlooks

/-- What others do keeps what is known, under the condition. -/
theorem Vouched.deed (h : w.met → Vouched w) (hdeed : Deed w w') : w'.met → Vouched w' := by
  match hdeed with
  | .created i node c p _ _ =>
    rintro ⟨hmet, hdiffers⟩
    have hforgotten : Vouched { w with stamped := w.stamped.filter (· ≠ i) } :=
      (h hmet).congr rfl rfl rfl rfl rfl rfl
        (fun j hj ↦ (Option.filter_eq_some_iff.mp hj).1) rfl
    have hnot : w.stamped.filter (· ≠ i) ≠ some i := by
      simp [Option.filter_eq_some_iff]
    have hwrite : Vouched ({ w with stamped := w.stamped.filter (· ≠ i) }.write i node c) :=
      hforgotten.write
        (fun o ho hconcerns ↦ hdiffers o ho (hconcerns.imp_right fun hi ↦ absurd hi hnot))
        fun hi ↦ absurd hi hnot
    exact hwrite.congr rfl rfl rfl rfl rfl rfl (fun _ hj ↦ hj) rfl
  | .unlinked _ | .linked _ _ _ _ _ | .renamed _ _ _ =>
    exact fun hmet ↦ (h hmet).congr rfl rfl rfl rfl rfl rfl (fun _ hj ↦ hj) rfl
  | .written i st c _ =>
    rintro ⟨hmet, hdiffers⟩
    have hwrite : Vouched (w.write i { w.fs.inodes i with stat := st } c) :=
      (h hmet).write hdiffers fun _ ↦ rfl
    exact hwrite.congr rfl rfl rfl rfl rfl rfl (fun _ hj ↦ hj) rfl
  | .opens p i hsending _ =>
    intro hmet
    refine ⟨fun o ho hsame ↦ ?_, fun j hj ↦ ?_⟩
    · obtain ⟨hedited, hcontent, hgiven⟩ := (h hmet).same o ho hsame
      exact ⟨hedited, hcontent, fun hall ↦ hgiven fun j hj ↦ hall j (List.mem_cons_of_mem i hj)⟩
    · cases hsending.symm.trans ((h hmet).stamped j hj).1
  | .reads i _ hi =>
    intro hmet
    refine ⟨fun o ho hsame ↦ ?_, (h hmet).stamped⟩
    obtain ⟨hedited, hcontent, hgiven⟩ := (h hmet).same o ho hsame
    refine ⟨hedited, hcontent, fun hall x hx ↦ ?_⟩
    rcases List.mem_append.mp hx with hx | hx
    · exact hgiven hall x hx
    · rw [List.mem_singleton.mp hx, hall i hi, hcontent]

end

/-! ## What the program keeps -/

/-- What is known holds as long as the condition is met, and the state a program has seen is the one
that was observed. -/
structure Underway (st : Option Stat) (w : Ward Content) : Prop where
  vouched : w.met → Vouched w
  observed : ∀ md, st = some md → ∃ o, w.observed = some o ∧ o.stat = md
  unstamped : w.stamped = none

/-- The same, when the sink is not at work. -/
structure Saw (st : Option Stat) (w : Ward Content) : Prop extends Underway st w where
  idle : w.sending = none

/-- What is asked neither observes nor stamps, and does not concern the sink's reading. -/
def Plain : Ask → Prop
  | .observe _ | .setxattr _ .stamp _ | .send _ _ | .sent => False
  | _ => True

section

variable {α : Type} {w w' : Ward Content} {st : Option Stat} {s : Store} {q : Ask} {file : FileId}

theorem stable_underway : Stable (wardEnv Content) (Underway st) := by
  intro w w' hdeed h
  refine ⟨Vouched.deed h.vouched hdeed, ?_, ?_⟩
  · match hdeed with
    | .created .. | .unlinked .. | .linked .. | .renamed .. | .written .. | .opens ..
    | .reads .. => exact h.observed
  · match hdeed with
    | .created i .. => exact (congrArg (Option.filter (· ≠ i)) h.unstamped).trans rfl
    | .unlinked .. | .linked .. | .renamed .. | .written .. | .opens .. | .reads .. =>
      exact h.unstamped

theorem stable_saw : Stable (wardEnv Content) (Saw st) := by
  intro w w' hdeed h
  refine ⟨stable_underway w w' hdeed h.toUnderway, ?_⟩
  match hdeed with
  | .created .. | .unlinked .. | .linked .. | .renamed .. | .written .. | .opens .. | .reads .. =>
    exact h.idle

theorem lasting_saw : Lasting (wardEnv Content) (fun w ↦ w.met → Vouched w)
    fun (_ : Except String α) (_ : Store) w ↦ Saw st w :=
  ⟨fun _ _ ↦ stable_saw, fun _ _ _ h ↦ h.vouched⟩

theorem Saw.plain {a : q.Answer} (h : Saw st w) (hq : Plain q)
    (ha : (wardEnv Content).answers q w a w') : Saw st w' := by
  match q, a with
  | .stat _, _ | .getxattr _ _, _ =>
    obtain rfl : w' = w := ha.2
    exact h
  | .scan, _ | .remove _, _ | .setxattr _ _ _, .error _ =>
    obtain rfl : w' = w := ha
    exact h
  | .setxattr _ .id value, .ok _ | .setxattr _ .etag value, .ok _
  | .setxattr _ .dehydrated value, .ok _ =>
    obtain ⟨i, -, rfl⟩ := ha
    exact ⟨⟨fun hmet ↦ (h.vouched hmet).setInode rfl rfl, h.observed, h.unstamped⟩, h.idle⟩

/-- What was seen before does not matter once another state is observed. -/
theorem Saw.observe {p : RelPath} {a : Except IoError Stat} (h : Saw st w)
    (ha : (wardEnv Content).answers (.observe p) w a w') : Saw a.toOption w' := by
  match a with
  | .error _ =>
    obtain rfl : w' = _ := ha
    refine ⟨⟨fun _ ↦ ⟨fun _ ho ↦ ?_, fun _ hj ↦ ?_⟩, fun _ hmd ↦ ?_, rfl⟩, h.idle⟩
    · cases ho
    · cases hj
    · cases hmd
  | .ok md =>
    obtain ⟨i, -, rfl, rfl⟩ := ha
    refine ⟨⟨fun _ ↦ ⟨fun o ho _ ↦ ?_, fun _ hj ↦ ?_⟩, fun md hmd ↦ ?_, rfl⟩, h.idle⟩
    · obtain rfl := Option.some_inj.mp ho
      exact ⟨id, rfl, fun _ _ hx ↦ absurd hx List.not_mem_nil⟩
    · cases hj
    · exact ⟨_, rfl, Option.some_inj.mp hmd⟩

theorem Saw.send {p : RelPath} {known : Option Known} {a : Unit} (h : Saw st w)
    (ha : (wardEnv Content).answers (.send p known) w a w') : Underway st w' := by
  obtain rfl : w' = _ := ha
  refine ⟨fun hmet ↦ ⟨(h.vouched hmet).same, fun j hj ↦ ?_⟩, h.observed, h.unstamped⟩
  cases h.unstamped.symm.trans hj

theorem Underway.sent {a : Except String Uploaded} (h : Underway st w)
    (ha : (wardEnv Content).answers .sent w a w') : Saw st w' := by
  obtain rfl : w' = _ := ha
  refine ⟨⟨fun hmet ↦ ⟨(h.vouched hmet).same, fun j hj ↦ ?_⟩, h.observed, h.unstamped⟩, rfl⟩
  cases h.unstamped.symm.trans hj

theorem Saw.stamp {p : RelPath} {md : Stat} {a : Except String Unit} (h : Saw (some md) w)
    (ha : (wardEnv Content).answers (.setxattr p .stamp md.stamp) w a w') :
    w'.met → Vouched w' := by
  match a with
  | .error e =>
    obtain rfl : w' = w := ha
    exact h.vouched
  | .ok _ =>
    obtain ⟨i, -, rfl⟩ := ha
    obtain ⟨o, ho, rfl⟩ := h.observed md rfl
    exact fun hmet ↦ (h.vouched hmet.1).stamp ho h.idle hmet.2

/-- A question that neither observes nor stamps keeps what has been seen. -/
theorem meets_call {f : q.Answer → Sender α} {post : Except String α → Store → Ward Content → Prop}
    (hq : Plain q) (hw : Saw st w)
    (hnext : ∀ a w, Saw st w →
      Meets (wardEnv Content) (fun w ↦ w.met → Vouched w) post (f a) s w) :
    Meets (wardEnv Content) (fun w ↦ w.met → Vouched w) post (Sender.call q >>= f) s w :=
  meets_ask stable_saw hw (fun _ h ↦ h.vouched) fun _ a w' hw ha ↦ hnext a w' (hw.plain hq ha)

/-- A program that keeps what has been seen, in every state of the store. -/
def Keeps (Content : Type) (st : Option Stat) (m : Sender α) : Prop :=
  ∀ (s : Store) (w : Ward Content), Saw st w →
    Meets (wardEnv Content) (fun w ↦ w.met → Vouched w) (fun _ _ w ↦ Saw st w) m s w

theorem keeps_pure (a : α) : Keeps Content st (pure a : Sender α) :=
  fun _ _ hw ↦ meets_pure lasting_saw hw

theorem keeps_call {f : q.Answer → Sender α} (hq : Plain q) (hf : ∀ a, Keeps Content st (f a)) :
    Keeps Content st (Sender.call q >>= f) :=
  fun s _ hw ↦ meets_call hq hw fun a w hw ↦ hf a s w hw

theorem keeps_answer (hq : Plain q) : Keeps Content st (Sender.call q) :=
  fun _ _ hw ↦ safe_ask stable_saw hw (fun _ h ↦ h.vouched) fun _ _ _ hw ha ↦
    meets_pure lasting_saw (hw.plain hq ha)

theorem keeps_bind {β : Type} {m : Sender α} {f : α → Sender β} (hm : Keeps Content st m)
    (hf : ∀ a, Keeps Content st (f a)) : Keeps Content st (m >>= f) :=
  fun s w hw ↦ meets_bind lasting_saw (hm s w hw) (fun a s w _ hw ↦ hf a s w hw)
    fun _ _ _ _ hw ↦ hw

theorem keeps_state {f : Store → Sender α} (hf : ∀ s, Keeps Content st (f s)) :
    Keeps Content st (state >>= f) :=
  fun s w hw ↦ meets_state (hf s s w hw)

theorem keeps_textAt (p : RelPath) (name : XattrName) :
    Keeps Content st (Sender.textAt p name) :=
  keeps_call trivial fun _ ↦ keeps_pure _

theorem keeps_lookup (file : FileId) : Keeps Content st (Sender.lookup file) := by
  refine keeps_state fun store ↦ ?_
  match store.index.lookup file with
  | none => exact keeps_pure _
  | some p =>
    refine keeps_call trivial fun md ↦ ?_
    match md with
    | .error _ => exact keeps_pure _
    | .ok md =>
      dsimp only
      split
      · exact keeps_pure _
      · refine keeps_bind (keeps_textAt p _) fun cloudId ↦ ?_
        refine keeps_bind (keeps_textAt p _) fun etag ↦ ?_
        split <;> exact keeps_pure _

theorem keeps_adoptCloudId (path : RelPath) (u : Uploaded) :
    Keeps Content st (Sender.adoptCloudId path u) := by
  refine keeps_call trivial fun a ↦ ?_
  match a, u.etag with
  | .error _, _ => exact keeps_pure _
  | .ok _, none => exact keeps_pure _
  | .ok _, some e => exact keeps_answer trivial

/-- A program that ends with what is known. -/
def Ends (Content : Type) (st : Option Stat) (m : Sender α) : Prop :=
  ∀ (s : Store) (w : Ward Content), Saw st w →
    Meets (wardEnv Content) (fun w ↦ w.met → Vouched w) (fun _ _ w ↦ w.met → Vouched w) m s w

theorem lasting_vouched : Lasting (wardEnv Content) (fun w ↦ w.met → Vouched w)
    fun (_ : Except String α) (_ : Store) w ↦ w.met → Vouched w :=
  ⟨fun _ _ _ _ hdeed h ↦ Vouched.deed h hdeed, fun _ _ _ h ↦ h⟩

theorem ends_pure (a : α) : Ends Content st (pure a : Sender α) :=
  fun _ _ hw ↦ meets_pure lasting_vouched hw.vouched

theorem ends_bind {β : Type} {m : Sender α} {f : α → Sender β} (hm : Keeps Content st m)
    (hf : ∀ a, Ends Content st (f a)) : Ends Content st (m >>= f) :=
  fun s w hw ↦ meets_bind lasting_vouched (hm s w hw) (fun a s w _ hw ↦ hf a s w hw)
    fun _ _ _ _ hw ↦ hw.vouched

theorem ends_state {f : Store → Sender α} (hf : ∀ s, Ends Content st (f s)) :
    Ends Content st (state >>= f) :=
  fun s w hw ↦ meets_state (hf s s w hw)

/-- A file is observed and sent. -/
theorem ends_send {p : RelPath} {known : Option Known}
    {f : Except IoError Stat → Except String Uploaded → Sender α}
    (hf : ∀ seen answer, Ends Content seen.toOption (f seen answer)) :
    Ends Content st (do
      let seen ← Sender.observe p
      let _ ← Sender.send p known
      let answer ← Sender.sent
      f seen answer) := by
  intro s w hw
  refine meets_ask stable_saw hw (fun _ h ↦ h.vouched) fun _ seen w hw ha ↦ ?_
  refine meets_ask stable_saw (hw.observe ha) (fun _ h ↦ h.vouched) fun _ _ w hw ha ↦ ?_
  refine meets_ask stable_underway (hw.send ha) (fun _ h ↦ h.vouched) fun _ answer w hw ha ↦ ?_
  exact hf seen answer s w (hw.sent ha)

theorem ends_record (path : RelPath) (u : Uploaded) (what : String) :
    Ends Content st (Sender.record path st u what) := by
  refine ends_bind (keeps_adoptCloudId path u) fun a ↦ ?_
  match a, st with
  | .error _, _ => exact ends_pure _
  | .ok _, none => exact ends_pure _
  | .ok _, some md =>
    intro s w hw
    exact meets_ask stable_saw hw (fun _ h ↦ h.vouched) fun _ _ _ hw ha ↦
      meets_pure lasting_vouched (hw.stamp ha)

theorem ends_resend (moved : RelPath) (uploaded : Uploaded) :
    Ends Content st (Sender.resend moved uploaded) := by
  refine ends_send fun seen answer ↦ ?_
  match answer with
  | .error _ => exact ends_pure _
  | .ok again =>
    dsimp only
    split
    · refine ends_bind (keeps_answer trivial) fun removed ↦ ?_
      match removed with
      | .error _ => exact ends_pure _
      | .ok _ => exact ends_record moved again _
    · exact ends_record moved again _

theorem ends_conclude (path : RelPath) (uploaded : Uploaded) :
    Ends Content st (Sender.conclude file path st uploaded) := by
  refine ends_bind (keeps_lookup file) fun entry ↦ ?_
  match entry with
  | some _ => exact ends_record path uploaded _
  | none =>
    refine ends_bind (keeps_answer trivial) fun removed ↦ ?_
    match removed with
    | .error _ | .ok _ => exact ends_pure _

theorem keeps_rescan : Keeps Content st Sender.rescan := by
  refine keeps_state fun store ↦ ?_
  split
  · exact keeps_call trivial fun again s w hw ↦ meets_lift (r := .ok ()) lasting_saw hw
  · exact keeps_pure _

theorem ends_settle (path : RelPath) (uploaded : Uploaded) :
    Ends Content st (Sender.settle file path st uploaded) := by
  refine ends_bind (keeps_lookup file) fun entry ↦ ?_
  match entry with
  | some _ => exact ends_conclude path uploaded
  | none =>
    refine ends_bind keeps_rescan fun _ ↦ ends_bind (keeps_lookup file) fun entry ↦ ?_
    match entry with
    | none => exact ends_conclude path uploaded
    | some moved =>
      dsimp only
      split
      · exact ends_resend moved.path uploaded
      · exact ends_conclude path uploaded

theorem ends_runUpload (file : FileId) : Ends Content st (Sender.runUpload file) := by
  refine ends_bind (keeps_lookup file) fun entry ↦ ?_
  match entry with
  | none => exact ends_pure _
  | some entry =>
    refine ends_state fun store ↦ ?_
    split
    · exact ends_pure _
    · refine ends_send fun seen answer ↦ ?_
      match answer with
      | .error _ => exact ends_pure _
      | .ok uploaded => exact ends_settle entry.path uploaded

end

/-- **A stamp vouches for what was sent**: as long as the condition is met, the file that has got
the stamp reads as clean only if nothing has been written to it since its state was observed, and
what the sink was given is what it contains. -/
theorem stamp_vouches (fs : Vfs) (content : FileId → Content) (store : Store) (file : FileId)
    (s : Dialogue Ask Ask.Answer (Except String Outcome × Store) × Ward Content)
    (hrun : Relation.ReflTransGen (Step (wardEnv Content))
      (Sender.runUpload file store, .start fs content) s) (hmet : s.2.met) : Vouches s.2 := by
  have hstart : Saw none (Ward.start fs content) := by
    refine ⟨⟨fun _ ↦ ⟨fun _ ho ↦ ?_, fun _ hj ↦ ?_⟩, fun _ hmd ↦ ?_, rfl⟩, rfl⟩
    · cases ho
    · cases hj
    · cases hmd
  exact ((ends_runUpload file store _ hstart).run hrun hmet).vouches

/-! ## Runs of an upload -/

section

variable {α : Type} {w : Ward Content} {p : RelPath} {i : FileId}

theorem step_stat {next : Except IoError Stat → Dialogue Ask Ask.Answer α}
    (h : w.fs.names p = some i) :
    Step (wardEnv Content) (.ask (.stat p) next, w) (next (.ok (w.fs.stat i)), w) :=
  .answered ⟨⟨⟨i, h, rfl⟩, rfl⟩, rfl⟩

theorem step_getxattr {name : XattrName} {next : Except IoError Attr → Dialogue Ask Ask.Answer α}
    (h : w.fs.names p = some i) : Step (wardEnv Content) (.ask (.getxattr p name) next, w)
      (next (.ok ((w.fs.inodes i).xattr name)), w) :=
  .answered ⟨⟨⟨i, h, rfl⟩, rfl⟩, rfl⟩

theorem step_observe {next : Except IoError Stat → Dialogue Ask Ask.Answer α}
    (h : w.fs.names p = some i) : Step (wardEnv Content) (.ask (.observe p) next, w)
      (next (.ok (w.fs.stat i)), w.observe (some ⟨i, w.fs.stat i, w.content i⟩)) :=
  .answered ⟨i, h, rfl, rfl⟩

theorem step_send {known : Option Known} {next : Unit → Dialogue Ask Ask.Answer α} :
    Step (wardEnv Content) (.ask (.send p known) next, w) (next (), { w with sending := some p }) :=
  .answered rfl

theorem step_sent (a : Except String Uploaded)
    {next : Except String Uploaded → Dialogue Ask Ask.Answer α} :
    Step (wardEnv Content) (.ask .sent next, w) (next a, { w with sending := none }) :=
  .answered rfl

theorem step_setId {value : String} {next : Except String Unit → Dialogue Ask Ask.Answer α}
    (h : w.fs.names p = some i) : Step (wardEnv Content) (.ask (.setxattr p .id value) next, w)
      (next (.ok ()), { w with fs := w.fs.setInode i ((w.fs.inodes i).setXattr value .id) }) :=
  .answered ⟨i, h, rfl⟩

theorem step_stamp {value : String} {next : Except String Unit → Dialogue Ask Ask.Answer α}
    (h : w.fs.names p = some i) : Step (wardEnv Content) (.ask (.setxattr p .stamp value) next, w)
      (next (.ok ()), { w with
        fs := w.fs.setInode i ((w.fs.inodes i).setXattr value .stamp)
        stamped := some i
        met := w.met ∧ w.Befits i }) :=
  .answered ⟨i, h, rfl⟩

end

/-- A file at `f` and another at `g`, of one byte each. -/
private def two : Vfs :=
  ⟨fun p ↦ if p = ["f"] then some ⟨1, 2⟩ else if p = ["g"] then some ⟨1, 3⟩ else none,
    fun i ↦ ⟨⟨i, 1, 0, 0⟩, false, .absent, .absent, .absent, .absent, true⟩, fun _ ↦ False⟩

private def twoStore : Store := ⟨AList.singleton ⟨1, 2⟩ ["f"], true, none, ⟨[".git"], []⟩⟩

/-- The upload of a file that nobody touches. -/
theorem sent_vouches : ∃ w : Ward ℕ, w.stamped = some ⟨1, 2⟩ ∧ w.given = [2] ∧ Vouches w := by
  refine ⟨_, ?_, ?_, stamp_vouches two (fun i ↦ i.ino) twoStore ⟨1, 2⟩
    (.done (.ok (.sent "A"), twoStore), _)
    (.head (step_stat (i := ⟨1, 2⟩) (by decide))
    (.head (step_getxattr (i := ⟨1, 2⟩) (by decide))
    (.head (step_getxattr (i := ⟨1, 2⟩) (by decide))
    (.head (step_observe (i := ⟨1, 2⟩) (by decide))
    (.head step_send
    (.head (.others (.opens ["f"] ⟨1, 2⟩ rfl (by decide)))
    (.head (.others (.reads ⟨1, 2⟩ (by decide) (by decide)))
    (.head (step_sent (.ok ⟨"A", none⟩))
    (.head (step_stat (i := ⟨1, 2⟩) (by decide))
    (.head (step_getxattr (i := ⟨1, 2⟩) (by decide))
    (.head (step_getxattr (i := ⟨1, 2⟩) (by decide))
    (.head (step_stat (i := ⟨1, 2⟩) (by decide))
    (.head (step_getxattr (i := ⟨1, 2⟩) (by decide))
    (.head (step_getxattr (i := ⟨1, 2⟩) (by decide))
    (.head (step_setId (i := ⟨1, 2⟩) (by decide))
    (.head (step_stamp (i := ⟨1, 2⟩) (by decide))
    .refl)))))))))))))))) ?_⟩
  · rfl
  · rfl
  · refine ⟨trivial, fun o ho _ ↦ ?_⟩
    cases ho
    exact ⟨rfl, by decide⟩

/-- The file is moved aside while the sink reads another one in its place, and moved back: it reads
as clean, and what it contains was never sent. -/
theorem swapped_not_vouches : ¬ ∀ (fs : Vfs) (content : FileId → ℕ) (store : Store)
    (file : FileId) (s : Dialogue Ask Ask.Answer (Except String Outcome × Store) × Ward ℕ)
    (cloudId : String), Relation.ReflTransGen (Step (wardEnv ℕ))
      (Sender.runUpload file store, .start fs content) s →
    s.1 = .done (.ok (.sent cloudId), store) → Vouches s.2 := by
  intro hall
  have hvouches := hall two (fun i ↦ i.ino) twoStore ⟨1, 2⟩
    (.done (.ok (.sent "A"), twoStore), _) "A"
    (.head (step_stat (i := ⟨1, 2⟩) (by decide))
    (.head (step_getxattr (i := ⟨1, 2⟩) (by decide))
    (.head (step_getxattr (i := ⟨1, 2⟩) (by decide))
    (.head (step_observe (i := ⟨1, 2⟩) (by decide))
    (.head step_send
    (.head (.others (.renamed ["f"] ["h"] (by decide)))
    (.head (.others (.renamed ["g"] ["f"] (by decide)))
    (.head (.others (.opens ["f"] ⟨1, 3⟩ rfl (by decide)))
    (.head (.others (.reads ⟨1, 3⟩ (by decide) (by decide)))
    (.head (.others (.renamed ["f"] ["g"] (by decide)))
    (.head (.others (.renamed ["h"] ["f"] (by decide)))
    (.head (step_sent (.ok ⟨"A", none⟩))
    (.head (step_stat (i := ⟨1, 2⟩) (by decide))
    (.head (step_getxattr (i := ⟨1, 2⟩) (by decide))
    (.head (step_getxattr (i := ⟨1, 2⟩) (by decide))
    (.head (step_stat (i := ⟨1, 2⟩) (by decide))
    (.head (step_getxattr (i := ⟨1, 2⟩) (by decide))
    (.head (step_getxattr (i := ⟨1, 2⟩) (by decide))
    (.head (step_setId (i := ⟨1, 2⟩) (by decide))
    (.head (step_stamp (i := ⟨1, 2⟩) (by decide))
    .refl)))))))))))))))))))) rfl
  have hread := (hvouches ⟨1, 2⟩ rfl rfl).2 3 (by decide)
  exact absurd hread (by decide)

end HydrationAPI.Client.Vouching
