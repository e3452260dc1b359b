import HydrationAPI.Graph.Sink

/-!
# Deleting a folder

A folder is deleted with everything in it. Whether it is empty is asked first, and its tag is read
after that; the tag the delete is bound to is that of the folder as it was when the tag was read. A
child that arrives before that is not seen by either.
-/

namespace HydrationAPI.Graph

open Dialogue Errand

/-! ## The service and its other users -/

/-- A folder as the service has it. -/
structure RemoteFolder where
  tag : String
  children : List String
  deriving DecidableEq

/-- One folder, the tags it has had, and what was in it at every delete that was executed. -/
structure FolderWorld where
  folder : Option RemoteFolder
  used : List String
  named : ∀ f, folder = some f → f.tag ∈ used
  erased : List (List String)

/-- The service executes a delete. -/
def Erases (ifMatch : Option String) (w w' : FolderWorld) : Prop :=
  ∃ f, w.folder = some f ∧ (∀ t, ifMatch = some t → t = f.tag) ∧ w'.folder = none
    ∧ w'.used = w.used ∧ w'.erased = f.children :: w.erased

/-- What the service may answer. A reply may be an error or get lost whether or not a delete was
executed. -/
def FolderAnswers (key : ObjectKey) : (q : Query) → FolderWorld → q.Answer → FolderWorld → Prop
  | .send (.children k), w, a, w' => w' = w ∧ (k = key → ∀ reply n, a = .ok reply →
      reply.success = true → reply.children = .ok (some n) →
      ∃ f, w.folder = some f ∧ (n = 0 ↔ f.children = []))
  | .send (.metadata k), w, a, w' => w' = w ∧ (k = key → ∀ reply item, a = .ok reply →
      reply.success = true → reply.item = .ok item →
      ∃ f, w.folder = some f ∧ ∀ t, item.eTag = some t → t = f.tag)
  | .send (.delete k ifMatch), w, a, w' =>
    w' = w ∧ (k = key → ∀ reply, a = .ok reply → reply.success = false)
      ∨ k = key ∧ Erases ifMatch w w'
  | _, w, _, w' => w' = w

/-- The others add and remove children, and whatever else changes a folder changes its tag to one
that it has not had. -/
def folderEnv (key : ObjectKey) : Env Query Query.Answer FolderWorld where
  answers := FolderAnswers key
  others w w' := w'.erased = w.erased ∧ w.used ⊆ w'.used
    ∧ (w'.folder = w.folder ∨ ∀ f, w'.folder = some f → f.tag ∉ w.used)

/-- When the metadata of the folder is read there are no children in it. -/
def ReadsEmpty (key : ObjectKey) : (q : Query) → FolderWorld → q.Answer → FolderWorld → Prop
  | .send (.metadata k), w, a, _ => k = key → ∀ reply, a = .ok reply → reply.success = true →
      ∀ f, w.folder = some f → f.children = []
  | _, _, _, _ => True

/-! ## No delete is recursive -/

def NothingErased (w : FolderWorld) : Prop := ∀ children ∈ w.erased, children = []

variable {key : ObjectKey} {w w' : FolderWorld} {t : String}

/-- The tag was that of the folder when it was empty, or is not its tag at all. -/
structure Bound (t : String) (w : FolderWorld) : Prop where
  erased : NothingErased w
  used : t ∈ w.used
  empty : ∀ f, w.folder = some f → f.tag = t → f.children = []

theorem stable_nothingErased (key : ObjectKey) : Stable (folderEnv key) NothingErased :=
  fun _ _ hothers h children hc ↦ h children (hothers.1 ▸ hc)

theorem stable_bound (key : ObjectKey) : Stable (folderEnv key) (Bound t) := by
  rintro w w' ⟨herased, hused, hfolder⟩ h
  refine ⟨stable_nothingErased key w w' ⟨herased, hused, hfolder⟩ h.erased,
    hused h.used, fun f hf htag ↦ ?_⟩
  rcases hfolder with hsame | hfresh
  · exact h.empty f (hsame ▸ hf) htag
  · exact absurd (htag ▸ h.used) (hfresh f hf)

/-- What is bound to the tag erases nothing. -/
theorem Bound.delete {a : Except IoError Reply} (h : Bound t w)
    (ha : FolderAnswers key (.send (.delete key (some t))) w a w') : Bound t w' := by
  rcases ha with ⟨rfl, -⟩ | ⟨-, f, hf, htag, hgone, hused, herased⟩
  · exact h
  · refine ⟨fun children hc ↦ ?_, hused ▸ h.used, fun f' hf' ↦ ?_⟩
    · rw [herased] at hc
      rcases List.mem_cons.mp hc with rfl | hc
      · exact h.empty f hf (htag t rfl).symm
      · exact h.erased children hc
    · exact absurd (hgone.symm.trans hf').symm (Option.some_ne_none f')

/-- The runs in which the folder is empty when its metadata is read. -/
abbrev quietEnv (key : ObjectKey) : Env Query Query.Answer FolderWorld :=
  (folderEnv key).under (ReadsEmpty key)

theorem lasting_nothingErased {ε α : Type} : Lasting (quietEnv key) NothingErased
    fun (_ : Except ε α) (_ : KnownTags) w ↦ NothingErased w :=
  ⟨fun _ _ ↦ stable_nothingErased key, fun _ _ _ h ↦ h⟩

/-- What a tag that was read is good for. -/
def Guards (key k : ObjectKey) (t : String) (w : FolderWorld) : Prop :=
  NothingErased w ∧ (k = key → Bound t w)

theorem stable_guards {k : ObjectKey} : Stable (quietEnv key) (Guards key k t) :=
  fun v v' hothers h ↦ ⟨stable_nothingErased key v v' hothers h.1,
    fun hk ↦ stable_bound key v v' hothers (h.2 hk)⟩

variable {s : KnownTags} {k : ObjectKey}

theorem meets_idAt {path : Client.RelPath} (hw : NothingErased w) :
    Meets (quietEnv key) NothingErased (fun _ _ w ↦ NothingErased w) (GraphSink.idAt path) s w := by
  refine meets_ask (stable_nothingErased key) hw (fun _ h ↦ h) fun v a v' hv ha ↦ ?_
  obtain rfl : v' = v := ha.1
  split
  · exact meets_throw lasting_nothingErased hv
  · exact meets_pure lasting_nothingErased hv

theorem meets_decode {α : Type} {body : Except String α} (hw : NothingErased w) :
    Meets (quietEnv key) NothingErased (fun _ _ w ↦ NothingErased w) (GraphSink.decode body) s w := by
  match body with
  | .ok a => exact meets_pure lasting_nothingErased hw
  | .error e => exact meets_throw lasting_nothingErased hw

theorem meets_children (hw : NothingErased w) : Meets (quietEnv key) NothingErased
    (fun _ _ w ↦ NothingErased w) (GraphSink.call (.children k)) s w := by
  have hkept : ∀ v (a : Except IoError Reply) v', NothingErased v →
      (quietEnv key).answers (.send (.children k)) v a v' → NothingErased v' := by
    rintro v a v' hv ⟨⟨rfl, -⟩, -⟩
    exact hv
  exact GraphSink.meets_sendAgain lasting_nothingErased (stable_nothingErased key)
    (fun _ h ↦ h) (fun v reply v' hv ha _ ↦ hkept v _ v' hv ha) hkept _ hw

/-- The tag that is read guards against every child that arrives later. -/
theorem meets_metadata (hw : NothingErased w) : Meets (quietEnv key) NothingErased
    (fun r _ w ↦ NothingErased w ∧ ∀ reply item t, r = .ok reply → reply.success = true →
      reply.item = .ok item → item.eTag = some t → Guards key k t w)
    (GraphSink.call (.metadata k)) s w := by
  have hlasts : Lasting (quietEnv key) NothingErased
      fun (r : Except IoError Reply) (_ : KnownTags) w ↦ NothingErased w ∧ ∀ reply item t,
        r = .ok reply → reply.success = true → reply.item = .ok item → item.eTag = some t →
        Guards key k t w :=
    ⟨fun _ _ v v' hothers h ↦ ⟨stable_nothingErased key v v' hothers h.1,
      fun reply item t hr hsuccess hitem htag ↦
        stable_guards v v' hothers (h.2 reply item t hr hsuccess hitem htag)⟩, fun _ _ _ h ↦ h.1⟩
  refine GraphSink.meets_sendAgain hlasts (stable_nothingErased key) (fun _ h ↦ h)
    ?_ ?_ _ hw
  · rintro v reply v' hv ⟨⟨rfl, -⟩, -⟩ -
    exact hv
  · rintro v a v' hv ⟨⟨rfl, hanswer⟩, hquiet⟩
    refine ⟨hv, fun reply item t hr hsuccess hitem htag ↦ ⟨hv, fun hk ↦ ?_⟩⟩
    match a with
    | .ok reply' =>
      cases hr
      obtain ⟨f, hf, htags⟩ := hanswer hk reply item rfl hsuccess hitem
      have hempty := hquiet hk reply rfl hsuccess f hf
      refine ⟨hv, ?_, fun f' hf' _ ↦ ?_⟩
      · rw [htags t htag]
        exact v'.named f hf
      · cases hf.symm.trans hf'
        exact hempty

theorem lasting_guards : Lasting (quietEnv key) NothingErased
    fun (r : Except IoError DriveItem) (_ : KnownTags) w ↦ NothingErased w ∧ ∀ item t,
      r = .ok item → item.eTag = some t → Guards key k t w :=
  ⟨fun _ _ v v' hothers h ↦ ⟨stable_nothingErased key v v' hothers h.1,
    fun item t hr htag ↦ stable_guards v v' hothers (h.2 item t hr htag)⟩, fun _ _ _ h ↦ h.1⟩

theorem meets_decodeItem {body : Except String DriveItem} (hw : NothingErased w)
    (hguards : ∀ item t, body = .ok item → item.eTag = some t → Guards key k t w) :
    Meets (quietEnv key) NothingErased
      (fun r _ w ↦ NothingErased w ∧ ∀ item t, r = .ok item → item.eTag = some t →
        Guards key k t w) (GraphSink.decode body) s w := by
  match body with
  | .ok item =>
    refine meets_pure lasting_guards ⟨hw, fun item' t hitem htag ↦ ?_⟩
    cases hitem
    exact hguards item t rfl htag
  | .error e => exact meets_throw lasting_guards ⟨hw, fun _ _ hitem ↦ by cases hitem⟩

theorem meets_delete (hw : Guards key k t w) : Meets (quietEnv key) NothingErased
    (fun _ _ w ↦ NothingErased w) (GraphSink.call (.delete k (some t))) s w := by
  have hkept : ∀ v (a : Except IoError Reply) v', Guards key k t v →
      (quietEnv key).answers (.send (.delete k (some t))) v a v' → Guards key k t v' := by
    rintro v a v' hv ⟨ha, -⟩
    by_cases hk : k = key
    · subst hk
      have hbound := (hv.2 rfl).delete ha
      exact ⟨hbound.erased, fun _ ↦ hbound⟩
    · rcases ha with ⟨rfl, -⟩ | ⟨hk', -⟩
      · exact hv
      · exact absurd hk' hk
  exact GraphSink.meets_sendAgain lasting_nothingErased stable_guards (fun _ h ↦ h.1)
    (fun v reply v' hv ha _ ↦ hkept v _ v' hv ha) (fun v a v' hv ha ↦ (hkept v a v' hv ha).1) _ hw

theorem meets_removeFolder (existing : Client.Upload.Known) (hw : NothingErased w) :
    Meets (quietEnv key) NothingErased (fun _ _ w ↦ NothingErased w)
      (GraphSink.removeFolder existing) s w := by
  have hthrow : ∀ {e : IoError} {s : KnownTags} {w : FolderWorld}, NothingErased w →
      Meets (quietEnv key) NothingErased (fun _ _ w ↦ NothingErased w)
        (Errand.throw e : GraphSink Unit) s w := fun hw ↦ meets_throw lasting_nothingErased hw
  have hpure : ∀ {s : KnownTags} {w : FolderWorld}, NothingErased w →
      Meets (quietEnv key) NothingErased (fun _ _ w ↦ NothingErased w)
        (pure () : GraphSink Unit) s w := fun hw ↦ meets_pure lasting_nothingErased hw
  rw [GraphSink.removeFolder]
  split
  · exact hthrow hw
  · refine meets_bind lasting_nothingErased (meets_idAt hw) (fun rootId s w _ hw ↦ ?_)
      fun _ _ _ _ hw ↦ hw
    split
    · exact hthrow hw
    · split
      · exact hthrow hw
      · refine meets_bind lasting_nothingErased (meets_children hw) (fun children s w _ hw ↦ ?_)
          fun _ _ _ _ hw ↦ hw
        split
        · exact hpure hw
        · split
          · exact hthrow hw
          · refine meets_bind lasting_nothingErased (meets_decode hw) (fun count s w _ hw ↦ ?_)
              fun _ _ _ _ hw ↦ hw
            split
            · exact hthrow hw
            · exact hthrow hw
            · refine meets_bind lasting_nothingErased (meets_metadata hw)
                (fun metadata s w _ hread ↦ ?_) fun _ _ _ _ hread ↦ hread.1
              split
              · exact hpure hread.1
              · split
                · exact hthrow hread.1
                · rename_i hsuccess
                  have hsuccess : metadata.success = true := by simpa using hsuccess
                  refine meets_bind lasting_nothingErased
                    (meets_decodeItem hread.1 fun item t hitem htag ↦
                      hread.2 metadata item t rfl hsuccess hitem htag)
                    (fun item s w _ hguards ↦ ?_) fun _ _ _ _ hguards ↦ hguards.1
                  split
                  · exact hthrow hguards.1
                  · split
                    · exact hthrow hguards.1
                    · rename_i t htag
                      refine meets_bind lasting_nothingErased
                        (meets_delete (hguards.2 item t rfl (Option.filter_eq_some_iff.mp htag).1))
                        (fun reply s w _ hw ↦ ?_) fun _ _ _ _ hw ↦ hw
                      split
                      · exact hpure hw
                      · exact hthrow hw

/-- **No delete of a folder takes children with it**, in any run in which there are none when the
folder's metadata is read. -/
theorem removes_only_empty {existing : Client.Upload.Known} {known : KnownTags}
    {r : Dialogue Query Query.Answer (Except IoError Unit × KnownTags) × FolderWorld}
    (hw : NothingErased w)
    (hrun : Relation.ReflTransGen (Step ((folderEnv key).under (ReadsEmpty key)))
      (GraphSink.removeFolder existing known, w) r) : NothingErased r.2 := by
  have hsafe : Meets (quietEnv key) NothingErased (fun _ _ w ↦ NothingErased w)
      (GraphSink.removeFolder existing) known w := meets_removeFolder existing hw
  exact hsafe.run hrun

/-! ### A child that arrives between the two reads -/

def folderKey : ObjectKey := ⟨⟨"d", checkId_d⟩, ⟨"i", checkId_i⟩⟩

def folderItem (tag : String) : DriveItem :=
  ⟨some "i", some "f", none, some tag, none, none, true, false, false, false, false, false, none, none⟩

def folderReply (status : ℕ) (item : Except String DriveItem) : Reply :=
  ⟨status, item, .error "no session", .ok (some 0), none⟩

def folderWorld (tag : String) (children : List String) : FolderWorld :=
  ⟨some ⟨tag, children⟩, [tag], fun _ h ↦ Option.some_inj.mp h ▸ List.mem_cons_self, []⟩

theorem answers_folder_idAt (w : FolderWorld) :
    (folderEnv folderKey).answers (.idAt []) w .absent w := rfl

/-- The folder is empty. -/
theorem answers_folder_children (tag : String) :
    (folderEnv folderKey).answers (.send (.children folderKey)) (folderWorld tag [])
      (.ok (folderReply 200 (.error "no item"))) (folderWorld tag []) := by
  refine ⟨rfl, fun _ reply n hreply _ hcount ↦ ⟨_, rfl, ?_⟩⟩
  cases hreply
  cases hcount
  exact ⟨fun _ ↦ rfl, fun _ ↦ rfl⟩

theorem answers_folder_metadata {w : FolderWorld} {tag : String} {children : List String}
    (hw : w.folder = some ⟨tag, children⟩) :
    (folderEnv folderKey).answers (.send (.metadata folderKey)) w
      (.ok (folderReply 200 (.ok (folderItem tag)))) w := by
  refine ⟨rfl, fun _ reply item hreply _ hitem ↦ ⟨_, hw, fun t ht ↦ ?_⟩⟩
  cases hreply
  cases hitem
  cases ht
  rfl

/-- The folder has been deleted. -/
def erasedWorld (used : List String) (children : List String) : FolderWorld :=
  ⟨none, used, fun _ h ↦ absurd h.symm (Option.some_ne_none _), [children]⟩

theorem answers_folder_delete {w : FolderWorld} {tag : String} {children : List String}
    (hw : w.folder = some ⟨tag, children⟩) (herased : w.erased = []) :
    (folderEnv folderKey).answers (.send (.delete folderKey (some tag))) w
      (.ok (folderReply 204 (.error "no item"))) (erasedWorld w.used children) :=
  Or.inr ⟨rfl, _, hw, fun _ ht ↦ (Option.some_inj.mp ht).symm, rfl, rfl,
    congrArg (children :: ·) herased.symm⟩

/-- An empty folder is deleted, while nothing arrives. -/
theorem empty_folder_deleted : NothingErased (erasedWorld ["t1"] []) := by
  have hquiet : ReadsEmpty folderKey (.send (.metadata folderKey)) (folderWorld "t1" [])
      (.ok (folderReply 200 (.ok (folderItem "t1")))) (folderWorld "t1" []) := by
    intro _ reply _ _ f hf
    cases hf
    rfl
  have hrun : Relation.ReflTransGen (Step ((folderEnv folderKey).under (ReadsEmpty folderKey)))
      (GraphSink.removeFolder ⟨folderKey.toCloudId, some "et:t0"⟩ ∅, folderWorld "t1" [])
      (.done (.ok (), ∅), erasedWorld ["t1"] []) := by
    have hanswer : ∀ {q : Query} {a : q.Answer} {w w' : FolderWorld},
        (folderEnv folderKey).answers q w a w' → ReadsEmpty folderKey q w a w' →
        ((folderEnv folderKey).under (ReadsEmpty folderKey)).answers q w a w' := fun h h' ↦ ⟨h, h'⟩
    refine .head (.answered (hanswer (answers_folder_idAt _) trivial)) ?_
    refine .head (.answered (hanswer (answers_folder_children "t1") trivial)) ?_
    refine .head (.answered (hanswer (answers_folder_metadata rfl) hquiet)) ?_
    exact .head (.answered (hanswer (answers_folder_delete rfl rfl) trivial)) .refl
  exact removes_only_empty (fun _ h ↦ absurd h List.not_mem_nil) hrun

/-- The folder with a child that has just arrived. -/
def childWorld : FolderWorld :=
  ⟨some ⟨"t2", ["new"]⟩, ["t2", "t1"], fun _ h ↦ Option.some_inj.mp h ▸ List.mem_cons_self, []⟩

/-- The folder was empty when it was asked for children; a child arrives; the tag that is read is
that of the folder with the child, and the delete that is bound to it takes the child with it. -/
theorem child_erased :
    ∃ r : Dialogue Query Query.Answer (Except IoError Unit × KnownTags) × FolderWorld,
      Relation.ReflTransGen (Step (folderEnv folderKey))
        (GraphSink.removeFolder ⟨folderKey.toCloudId, some "et:t0"⟩ ∅, folderWorld "t1" []) r
      ∧ NothingErased (folderWorld "t1" []) ∧ ¬ NothingErased r.2 := by
  refine ⟨(.done (.ok (), ∅), erasedWorld ["t2", "t1"] ["new"]), ?_,
    fun _ h ↦ absurd h List.not_mem_nil, fun h ↦ ?_⟩
  · have hothers : (folderEnv folderKey).others (folderWorld "t1" []) childWorld := by
      refine ⟨rfl, fun t ht ↦ List.mem_cons_of_mem _ ht, Or.inr fun f hf ↦ ?_⟩
      cases hf
      decide
    refine .head (.answered (answers_folder_idAt _)) ?_
    refine .head (.answered (answers_folder_children "t1")) ?_
    refine .head (.others hothers) ?_
    refine .head (.answered (answers_folder_metadata rfl)) ?_
    exact .head (.answered (answers_folder_delete rfl rfl)) .refl
  · exact absurd (h ["new"] List.mem_cons_self) (List.cons_ne_nil _ _)

end HydrationAPI.Graph
