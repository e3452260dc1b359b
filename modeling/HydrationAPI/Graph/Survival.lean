import HydrationAPI.Graph.StoreSafety

/-!
# What survives a failure of power

Whatever is read after a failure is whole, and it is what had been renamed up to some time, which is
not before anything whose save has returned. So the order of the two writes of a round is that of
what survives of them, and the token on the disk never belongs to a tree that is newer than the one
beside it.
-/

namespace HydrationAPI.Graph.FileStore

open Dialogue
open Replace (Call Files lastOf Sound Endures)

variable {text : Serde.Text} {scope : DriveScope} {credential : String} {disk : Disk}
  {t t' : Process} {files : Files String Content UInt8} {log : List (String × Content)}

/-! ## What holds in every run -/

theorem holds_start : (pact text scope credential).Holds (rules text scope credential) start := by
  have hdisk : (diskOf []).Safe [] [] := ⟨nofun, nofun⟩
  have hinv : Inv text scope credential start.world :=
    ⟨Sound.of_empty (fun _ ↦ rfl) rfl rfl rfl, nofun, fun k ↦ by
      rwa [show start.world.1.log = [] from rfl, List.take_nil], nofun, nofun, List.nodup_nil⟩
  refine ⟨hinv, fun i ↦ ?_⟩
  cases i with
  | delta => exact hinv.rests rfl
  | tokens => trivial

theorem Reachable.holds (hapart : Apart credential) (h : Reachable text scope credential t) :
    (pact text scope credential).Holds (rules text scope credential) t :=
  holds_start.run (pact_sound hapart) h

/-- Nothing that is on the disk for good is taken back. -/
theorem endures_step (h : Inv text scope credential t.world)
    (hstep : Team.Step (rules text scope credential) t t') : Endures t.world.1 t'.world.1 := by
  cases hstep with
  | begins i p w hnone hbegins => cases hbegins <;> exact Endures.refl _
  | answered i q next a w hsome ha => exact h.sound.endures_answers ha.1
  | leaves i a w hsome hleaves => cases hleaves <;> exact Endures.refl _
  | fails w hfails =>
    obtain ⟨hsame | hlost, -⟩ := hfails
    · exact hsame ▸ Endures.refl _
    · exact h.sound.endures_lost hlost

theorem Reachable.endures (hapart : Apart credential) (h : Reachable text scope credential t)
    (hrun : Relation.ReflTransGen (Team.Step (rules text scope credential)) t t') :
    Endures t.world.1 t'.world.1 := by
  induction hrun with
  | refl => exact Endures.refl _
  | tail hrun hstep ih =>
    exact ih.trans (endures_step (Reachable.holds hapart (h.trans hrun)).inv hstep)

/-! ## The disk that is read -/

theorem Apart.ne_credential (h : Apart credential) :
    treeFile ≠ credential ∧ tokenFile ≠ credential := by
  simp only [Apart, List.nodup_cons, List.mem_cons, List.not_mem_nil, or_false, not_or] at h
  grind

/-- What the tree's file was last renamed to is a tree. -/
theorem lastOf_treeFile (hapart : Apart credential)
    (hfits : ∀ u ∈ log, u.1 = u.2.file credential) :
    lastOf log treeFile = (diskOf log).tree.map fun tree ↦ .tree tree.1 tree.2 := by
  cases hlast : lastOf log treeFile with
  | none => simp [diskOf, hlast]
  | some content =>
    have hfile := hfits _ (Replace.mem_of_lastOf hlast)
    cases content with
    | tree serial blob => simp [diskOf, hlast]
    | token serial blob => exact absurd hfile (show treeFile ≠ tokenFile by decide)
    | credential refresh => exact absurd hfile hapart.ne_credential.1

/-- And the token's to a token. -/
theorem lastOf_tokenFile (hapart : Apart credential)
    (hfits : ∀ u ∈ log, u.1 = u.2.file credential) :
    lastOf log tokenFile = (diskOf log).token.map fun token ↦ .token token.1 token.2 := by
  cases hlast : lastOf log tokenFile with
  | none => simp [diskOf, hlast]
  | some content =>
    have hfile := hfits _ (Replace.mem_of_lastOf hlast)
    cases content with
    | tree serial blob => exact absurd hfile (show tokenFile ≠ treeFile by decide)
    | token serial blob => simp [diskOf, hlast]
    | credential refresh => exact absurd hfile hapart.ne_credential.2

/-- A commit that could be made has saved its tree. -/
theorem tree_of_commit {g g' : GraphDiscover} {store : StateStore} {disk disk' : Disk}
    {p : Uncommitted} {tree : TreeBlob} (hpending : g.pending = some p) (htree : p.tree = some tree)
    (h : g.commit store disk = (g', disk', .ok ())) : disk'.tree = some (p.serial, tree) := by
  simp only [GraphDiscover.commit, hpending, htree] at h
  cases hfirst : store.saveTree with
  | failed landed e => simp [hfirst, Save.run] at h
  | saved =>
    cases hsecond : store.saveToken with
    | failed landed e => simp [hfirst, hsecond, Save.run] at h
    | saved =>
      simp only [hfirst, hsecond, Save.run, Prod.mk.injEq] at h
      rw [← h.2.1]
      rfl

/-- **What has been told lasts**, whichever of its two writes is asked for. -/
theorem lastOf_committed (hapart : Apart credential) {w : Store} {w₀ : World} {p : Uncommitted}
    (h : Inv text scope credential w) (hpending : w₀.graph.pending = some p)
    (hcomes : Comes w₀ (diskOf w.1.log) (.committed (.ok ())))
    (htold : Told credential w₀ w (.committed (.ok ()))) :
    lastOf (w.1.log.take w.1.lasting) tokenFile = some (.token p.serial p.token)
      ∧ ∀ tree, p.tree = some tree →
        lastOf (w.1.log.take w.1.lasting) treeFile = some (.tree p.serial tree) := by
  have hsettled := htold p hpending
  refine ⟨hsettled.lastOf_take (by simp [own]) le_rfl, fun tree htree ↦ ?_⟩
  obtain ⟨before, after, after', hlog, htake, hafter, hafter'⟩ := hsettled.exists_take le_rfl
  obtain ⟨-, first, second, hcommit⟩ := hcomes
  have hdisk : diskOf (w.1.log.take w.1.lasting) = diskOf w.1.log := by
    rw [htake, diskOf_append hafter', hlog, diskOf_append hafter]
  rw [lastOf_treeFile hapart fun u hu ↦ h.fits u (List.mem_of_mem_take hu), hdisk,
    tree_of_commit hpending htree hcommit]
  rfl

/-- What is read in the two files is the disk that is in the log. -/
theorem read_diskOf (hapart : Apart credential) (hfits : ∀ u ∈ log, u.1 = u.2.file credential)
    (hreads : ∀ n, (layout text credential).final n →
      files.read n = (lastOf log n).map (Content.bytes text)) :
    files.read treeFile = (diskOf log).tree.map (fun tree ↦ tree.2.bytes)
      ∧ files.read tokenFile = (diskOf log).token.map fun token ↦ token.2.asBytes text := by
  constructor
  · rw [hreads treeFile (by simp [layout]), lastOf_treeFile hapart hfits, Option.map_map]
    rfl
  · rw [hreads tokenFile (by simp [layout]), lastOf_tokenFile hapart hfits, Option.map_map]
    rfl

/-! ## A run in which nothing fails -/

/-- What a thread comes to if all its calls do what they are asked. -/
def undisturbed {α : Type} : Running α → Files String Content UInt8 → α × Files String Content UInt8
  | .done a, w => (a, w)
  | .ask q next, w => undisturbed (next (.ok ())) (w.does q)

theorem run_undisturbed (i : Thread) (running : (i : Thread) → Option (Running i.Result))
    (p : Running i.Result) (w : Files String Content UInt8) (c : Caller) :
    Relation.ReflTransGen (Team.Step (rules text scope credential))
      ⟨Function.update running i (some p), (w, c)⟩
      ⟨Function.update running i (some (.done (undisturbed p w).1)), ((undisturbed p w).2, c)⟩ := by
  induction p generalizing w with
  | done a => exact Relation.ReflTransGen.refl
  | ask q next ih =>
    have hanswer : w.Answers q (.ok () : Except IoError Unit) (w.does q) := rfl
    have hnext := ih (.ok ()) (w.does q)
    refine Relation.ReflTransGen.head (.answered i q next (.ok ()) (w.does q, c)
      (Function.update_self _ _ _) ⟨hanswer, rfl⟩) ?_
    rw [Function.update_idem]
    exact hnext

theorem run_begins {i : Thread} {p : Running i.Result} {w : Store} (hnone : t.running i = none)
    (hbegins : Begins text credential t.world i p w) :
    Relation.ReflTransGen (Team.Step (rules text scope credential)) t
      ⟨Function.update t.running i (some (.done (undisturbed p w.1).1)),
        ((undisturbed p w.1).2, w.2)⟩ :=
  Relation.ReflTransGen.head (Team.Step.begins i p w hnone hbegins)
    (run_undisturbed i t.running p w.1 w.2)

theorem step_leaves {i : Thread} {a : i.Result} {w : Store}
    (hdone : t.running i = some (.done a)) (hleaves : Leaves text scope t.world i a w) :
    Team.Step (rules text scope credential) t ⟨Function.update t.running i none, w⟩ :=
  Team.Step.leaves i a w hdone hleaves

/-- The first token there is. -/
def firstToken : TokenBlob :=
  { TokenBlob.new.set sampleDrive.drive "https://graph.microsoft.com/e" with generation := 1 }

/-- A library that writes documents, and reads the two that are saved. -/
def savedText : Serde.Text :=
  twoDocuments (StoredTree.form.write (.of sampleDrive.drive .cTag [.root "d|r"] [] 1))
    (TokenBlob.form.write firstToken)

def savesCredential : Running Thread.tokens.Result :=
  (saveCredential savedText "refresh-token" "r" ()).bind fun r ↦ .done ("r", r.1)

/-- A credential has been saved. -/
def savedProcess : Process :=
  ⟨Function.update start.running .tokens (some (.done (undisturbed savesCredential start.world.1).1)),
    ((undisturbed savesCredential start.world.1).2, start.world.2)⟩

theorem reachable_savedProcess : Reachable savedText sampleDrive "refresh-token" savedProcess := by
  have hbegins : Begins savedText "refresh-token" start.world .tokens savesCredential start.world :=
    .tokens "r"
  exact run_begins (t := start) rfl hbegins

/-- The caller asks, -/
def firstCaller : Caller := .ofWorld (start.world.2.world (diskOf start.world.1.log)).asking

/-- applies what it is given, -/
def appliedCaller : Caller :=
  firstCaller.finish savedText sampleDrive strayPages none true (diskOf start.world.1.log)
    (.committed (.ok ()))

/-- and asks again. -/
def secondCaller : Caller := .ofWorld (appliedCaller.world (diskOf start.world.1.log)).asking

def appliedProcess : Process :=
  ⟨Function.update (Function.update start.running .delta (some (.done (.committed (.ok ())))))
    .delta none, (start.world.1, appliedCaller)⟩

/-- Its tree and its token have been saved. -/
def committedProcess : Process :=
  ⟨Function.update appliedProcess.running .delta
      (some (.done (undisturbed (secondCaller.changes savedText) start.world.1).1)),
    ((undisturbed (secondCaller.changes savedText) start.world.1).2, secondCaller)⟩

theorem reachable_committedProcess :
    Reachable savedText sampleDrive "refresh-token" committedProcess := by
  have hfirst : Begins savedText "refresh-token" start.world .delta (firstCaller.changes savedText)
      (start.world.1, firstCaller) := .delta firstCaller rfl
  have hleaves : Leaves savedText sampleDrive (start.world.1, firstCaller) .delta
      (.committed (.ok ())) (start.world.1, appliedCaller) :=
    .delta (.committed (.ok ())) strayPages none true
  have hsecond : Begins savedText "refresh-token" appliedProcess.world .delta
      (secondCaller.changes savedText) (start.world.1, secondCaller) := .delta secondCaller rfl
  have hbegun : Reachable savedText sampleDrive "refresh-token"
      ⟨Function.update start.running .delta (some (.done (.committed (.ok ())))),
        (start.world.1, firstCaller)⟩ := run_begins (t := start) rfl hfirst
  have hleft : Reachable savedText sampleDrive "refresh-token" appliedProcess :=
    hbegun.tail (step_leaves rfl hleaves)
  exact hleft.trans (run_begins (t := appliedProcess) rfl hsecond)

/-! ## What survives -/

/-- **What has been told survives.** Whatever else is done after a save has returned, and wherever
power fails, each of the files is whole, and what is read is what had been renamed up to a time that
is not before that save. -/
theorem survives (hapart : Apart credential) (ht : Reachable text scope credential t)
    (hrun : Relation.ReflTransGen (Team.Step (rules text scope credential)) t t')
    (hfiles : files = t'.world.1 ∨ t'.world.1.Lost files) :
    ∃ told log, told <+: t.world.1.log ∧ told <+: log ∧ log <+: t'.world.1.log
      ∧ (∀ n ∈ [treeFile, tokenFile, credential],
        files.read n = (lastOf log n).map (Content.bytes text))
      ∧ (∀ refresh, t.running .tokens = some (.done (refresh, .ok ())) →
        lastOf told credential = some (.credential refresh))
      ∧ (t.running .delta = some (.done (.committed (.ok ()))) →
        ∀ p, t.world.2.graph.pending = some p →
          lastOf told tokenFile = some (.token p.serial p.token)
            ∧ ∀ tree, p.tree = some tree → lastOf told treeFile = some (.tree p.serial tree)) := by
  -- What is on the disk for good at `t` is the beginning of all that survives later.
  have hholds := ht.holds hapart
  have hholds' := Reachable.holds hapart (ht.trans hrun)
  have hendures := ht.endures hapart hrun
  obtain ⟨k, hk, hreads⟩ := hholds'.inv.sound.exists_survivors hfiles
  refine ⟨t.world.1.log.take t.world.1.lasting, t'.world.1.log.take k, List.take_prefix _ _, ?_,
    List.take_prefix _ _, fun n hn ↦ hreads n hn, fun refresh hdone ↦ ?_, fun hdone p hp ↦ ?_⟩
  · rw [← hendures.log]
    exact List.take_prefix_take_left (hendures.lasting.trans hk)
  · exact ((hholds.done hdone).2 rfl).lastOf_take (by simp [own]) le_rfl
  · obtain ⟨hinv, w₀, -, hcaller, hcomes, htold⟩ := hholds.done hdone
    rw [hcaller] at hp
    exact lastOf_committed hapart hinv hp hcomes htold

/-- It is read after a failure of power. -/
theorem survives_saved : savedProcess.running .tokens = some (.done ("r", .ok ()))
    ∧ ∀ files, savedProcess.world.1.Lost files →
      files.read "refresh-token" = some "r".toUTF8.toList := by
  have hdone : savedProcess.running .tokens = some (.done ("r", .ok ())) := rfl
  have hlog : savedProcess.world.1.log = [("refresh-token", .credential "r")] := rfl
  refine ⟨hdone, fun files h ↦ ?_⟩
  obtain ⟨told, log, -, htold, hprefix, hreads, hsaved, -⟩ :=
    survives (by decide) reachable_savedProcess Relation.ReflTransGen.refl (Or.inr h)
  have hlast := hsaved "r" hdone
  rw [hlog] at hprefix
  rw [hreads "refresh-token" (by simp)]
  rcases List.prefix_cons_iff.mp hprefix with rfl | ⟨rest, rfl, hrest⟩
  · rw [List.prefix_nil.mp htold] at hlast
    contradiction
  · rw [List.prefix_nil.mp hrest]
    rfl

/-- **The position moves in two phases, and survives so.** The token that is read after a failure is
that of a batch the caller has acknowledged, and the tree that is read beside it is not older than
the one it was derived with. -/
theorem two_phase_survives (hapart : Apart credential) (ht : Reachable text scope credential t)
    (hfiles : files = t.world.1 ∨ t.world.1.Lost files) :
    ∃ disk : Disk, files.read treeFile = disk.tree.map (fun tree ↦ tree.2.bytes)
      ∧ files.read tokenFile = disk.token.map (fun token ↦ token.2.asBytes text)
      ∧ disk.Safe t.world.2.ledger t.world.2.acknowledged
      ∧ (∀ d ∈ t.world.2.ledger, d.Derived scope)
      ∧ (t.world.2.ledger.map fun d ↦ d.held.serial).Nodup := by
  have hinv := (ht.holds hapart).inv
  obtain ⟨k, -, hreads⟩ := hinv.sound.exists_survivors hfiles
  obtain ⟨htree, htoken⟩ := read_diskOf hapart
    (fun u hu ↦ hinv.fits u (List.mem_of_mem_take hu)) hreads
  exact ⟨_, htree, htoken, hinv.safe k, hinv.derived, hinv.distinct⟩

theorem two_phase_survives_stray : (committedProcess.world.1.read tokenFile).isSome = true
    ∧ ∃ disk : Disk,
      committedProcess.world.1.read tokenFile = disk.token.map (fun token ↦ token.2.asBytes savedText)
      ∧ disk.Safe committedProcess.world.2.ledger committedProcess.world.2.acknowledged := by
  obtain ⟨disk, -, htoken, hsafe, -⟩ :=
    two_phase_survives (by decide) reachable_committedProcess (Or.inl rfl)
  exact ⟨by decide +kernel, disk, htoken, hsafe⟩

/-! ## What the next round starts from -/

theorem fromBytes_asBytes {token : TokenBlob} (hfits : token.generation < 2 ^ 64)
    (h : text.ReadsBack (TokenBlob.form.write token)) :
    TokenBlob.fromBytes text (token.asBytes text) = .ok token := by
  obtain ⟨bytes, hwrite, hread⟩ := h
  have hform : TokenBlob.form.read (TokenBlob.form.write token) = some token :=
    TokenBlob.form.read_write hfits
  rw [TokenBlob.asBytes, hwrite, Option.getD_some, TokenBlob.fromBytes, hread, Option.bind_some, hform]

/-- What a round starts from is what is in the two files. -/
theorem load_stored (htree : files.read treeFile = disk.tree.map fun tree ↦ tree.2.bytes)
    (htoken : files.read tokenFile = disk.token.map fun token ↦ token.2.asBytes text)
    (hback : ∀ token, disk.token = some token →
      TokenBlob.fromBytes text (token.2.asBytes text) = .ok token.2) :
    ∃ state, (stored files).load text = .ok state
      ∧ ∀ scope, StoredView.read text scope state = StoredView.read text scope (some disk.state) := by
  rw [FileStateStore.load, stored, htree, htoken]
  obtain ⟨tree, token⟩ := disk
  cases token with
  | none =>
    cases tree with
    | none => exact ⟨none, rfl, fun _ ↦ rfl⟩
    | some tree => exact ⟨some ⟨some tree.2, none⟩, rfl, fun _ ↦ rfl⟩
  | some token =>
    have hread := hback token rfl
    cases tree with
    | none =>
      refine ⟨some ⟨none, some token.2⟩, ?_, fun _ ↦ rfl⟩
      simp only [reading, readOptional, bind, Except.bind, Option.map_some, hread]
      rfl
    | some tree =>
      refine ⟨some ⟨some tree.2, some token.2⟩, ?_, fun _ ↦ rfl⟩
      simp only [reading, readOptional, bind, Except.bind, Option.map_some, hread]
      rfl

/-- **Whenever it starts again**, what is read is what had been saved, and it reads. -/
theorem load_reachable (hapart : Apart credential) (ht : Reachable text scope credential t)
    (hback : ∀ d ∈ t.world.2.ledger, d.held.token.generation < 2 ^ 64
      ∧ text.ReadsBack (TokenBlob.form.write d.held.token)) :
    ∃ state, (stored t.world.1).load text = .ok state
      ∧ ∀ scope, StoredView.read text scope state
        = StoredView.read text scope (some (diskOf t.world.1.log).state) := by
  have hinv := (ht.holds hapart).inv
  have hsafe := hinv.safe t.world.1.log.length
  rw [List.take_length] at hsafe
  obtain ⟨htree, htoken⟩ := read_diskOf hapart hinv.fits fun n hn ↦ hinv.sound.here hn
  refine load_stored htree htoken fun token htoken ↦ ?_
  obtain ⟨d, hd, -, hheld, -⟩ := hsafe.token token.1 token.2 htoken
  obtain ⟨hfits, hreads⟩ := hback d hd
  exact fromBytes_asBytes (hheld ▸ hfits) (hheld ▸ hreads)

theorem load_reachable_committed : (diskOf committedProcess.world.1.log).token.isSome = true
    ∧ ∃ state, (stored committedProcess.world.1).load savedText = .ok state
      ∧ ∀ scope, StoredView.read savedText scope state
        = StoredView.read savedText scope (some (diskOf committedProcess.world.1.log).state) := by
  have htokens : ∀ d ∈ committedProcess.world.2.ledger,
      d.held.token.perDrive.entries = firstToken.perDrive.entries
        ∧ d.held.token.generation = firstToken.generation := by decide +kernel
  refine ⟨by decide +kernel, load_reachable (by decide) reachable_committedProcess fun d hd ↦ ?_⟩
  obtain ⟨hentries, hgeneration⟩ := htokens d hd
  have htoken : d.held.token = firstToken :=
    congrArg₂ TokenBlob.mk (SortedMap.ext hentries) hgeneration
  rw [htoken]
  exact ⟨by decide, readsBack_second (by decide +kernel)⟩

end HydrationAPI.Graph.FileStore
