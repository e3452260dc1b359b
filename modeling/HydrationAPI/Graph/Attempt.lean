import HydrationAPI.Graph.Endpoint
import HydrationAPI.Graph.Round
import HydrationAPI.Graph.StoredTree

/-!
# One pass over the feed

A round reads the feed of its drive page by page, from the token that is stored or from nothing, and
then those of the drives that are mounted in it. What a page says goes to the mapper and the
namespace; where the feed goes on, and whether it has ended, is read from the link of the page. A
pass that began from nothing is compared with the tree from before it, since a listing does not say
what has stopped existing.

What the service answers may depend on everything it has been asked.
-/

namespace HydrationAPI.Graph.GraphDiscover

open HydrationAPI.Client (Namespace Change)

/-- What the round asks for. -/
inductive Fetch where
  | first (scope : DriveScope)
  | next (link : String)
  | resume (link : String)
  deriving DecidableEq

/-- Why a reply is no page. -/
inductive EnvelopeError where
  | resyncRequired
  /-- Anything else, as it prints itself. -/
  | unusable (debug : String)

def EnvelopeError.debug : EnvelopeError → String
  | .resyncRequired => "ResyncRequired"
  | .unusable debug => debug

/-- A reply: one that asks to wait, with the seconds it names, or one that is read. -/
inductive RawPage where
  | throttled (retryAfter : Option ℕ)
  | read (page : Except EnvelopeError DeltaPage)

/-- What a round does that others can see. -/
inductive Event where
  | asked (what : Fetch)
  | slept (seconds : ℕ)

/-- The service: what it answers, by what has happened before, the latest first. -/
abbrev PageSource := List Event → Fetch → Except IoError RawPage

/-- Why an attempt stopped. -/
inductive Fault where
  | io (e : IoError)
  | escalated (e : Escalation)
  /-- The token was too old, and the service said so. -/
  | resync

/-- A ceiling on one round. -/
def maxPagesPerRound : ℕ := 1024

/-- How long to wait on a reply that does not say, in seconds. -/
def blindBackoff : ℕ := 5

/-- How many times one request may be throttled before the round gives up. -/
def maxThrottleRetries : ℕ := 4

/-- Only a resume can be too old. -/
def judge (what : Fetch) : Except EnvelopeError DeltaPage → Except Fault DeltaPage
  | .ok page => .ok page
  | .error .resyncRequired =>
    match what with
    | .resume _ => .error .resync
    | _ => .error (.io (invalidData EnvelopeError.resyncRequired.debug))
  | .error e => .error (.io (invalidData e.debug))

/-- One page; the same request is made again after a reply that asks to wait. -/
def fetch (source : PageSource) (what : Fetch) : ℕ → List Event →
    Except Fault DeltaPage × List Event
  | retries, log =>
    match source log what with
    | .error e => (.error (.io e), .asked what :: log)
    | .ok (.read page) => (judge what page, .asked what :: log)
    | .ok (.throttled retryAfter) =>
      match retries with
      | 0 => (.error (.io ⟨.timedOut, none,
          "throttled without end; the round is lost, not the thread"⟩), .asked what :: log)
      | retries + 1 =>
        fetch source what retries (.slept (retryAfter.getD blindBackoff) :: .asked what :: log)

/-! ## The pass -/

/-- Add a mount to the round, and the scope it implies. -/
def queueMount (queued : List DriveScope × List MountPoint) (m : MountPoint) :
    List DriveScope × List MountPoint :=
  let (queue, mounts) := queued
  if mounts.any (·.placeholder = m.placeholder) then (queue, mounts)
  else if queue.any (·.drive = m.remote.drive) then (queue, mounts ++ [m])
  -- a feed that leads back to a drive of this round is a cycle
  else (queue ++ [⟨m.remote.drive, some ⟨m.placeholder, m.remote.item⟩⟩], mounts ++ [m])

/-- The source of the tags an item gives away. -/
def probeItem (item : DriveItem) : Option TagSource :=
  let b := item.body
  if item.deleted then none
  else if ¬ b.file ∨ b.folder ∨ b.package then none
  else if b.cTag.isSome then some .cTag
  else b.hashes.bind fun h ↦
    if h.quickXorHash.isSome then some .quickXor
    else if h.sha256Hash.isSome then some .sha256
    else if h.sha1Hash.isSome then some .sha1
    else none

/-- Which field this drive's content versions come from, read off a page. -/
def probeTagSource (page : DeltaPage) : Option TagSource := page.value.findSome? probeItem

/-- A pass under way. -/
structure Pass where
  /-- The scopes of the round, those that have been visited first. -/
  queue : List DriveScope
  /-- How many scopes have been entered. -/
  entered : ℕ
  mounts : List MountPoint
  /-- Nothing before the first page. -/
  round : Option Round
  tags : Option TagSource
  tokens : TokenBlob
  /-- The links of the round: none may come twice. -/
  visited : List String

def foreignLink (link : String) : IoError :=
  ⟨.permissionDenied, none, s!"refusing to send a credential to {link}"⟩

section Attempt

variable (source : PageSource) (stored : StoredView) (enumerate : Bool)

/-- Where the feed of a drive is entered. -/
def entry (scope : DriveScope) : Fetch :=
  match enumerate, stored.tokens.get scope.drive with
  | false, some link => .resume link
  | _, _ => .first scope

/-- The namespace a pass begins with: one that was restored would say of everything an enumeration
does not mention that it is still there. -/
def groundNamespace : Namespace := if enumerate then .new else .restore stored.items

namespace Pass

def start (scope : DriveScope) : Pass :=
  -- a mounted library keeps its own token, and is resumed with the drive it is mounted in
  let (queue, mounts) :=
    if enumerate then ([scope], []) else stored.mounts.foldl queueMount ([scope], [])
  ⟨queue, 1, mounts, none, stored.tags, .new, []⟩

/-- The link a feed is resumed from counts as visited. -/
def enter (p : Pass) (scope : DriveScope) : Pass :=
  match entry stored enumerate scope with
  | .resume link => { p with visited := link :: p.visited }
  | _ => p

/-- Feed a page. The source of the tags is pinned by the first, or was before. -/
def feed (p : Pass) (scope : DriveScope) (page : DeltaPage) : Pass :=
  match p.round with
  | some r => { p with round := some (r.feed scope page) }
  | none =>
    let pinned := (p.tags.or (probeTagSource page)).getD .cTag
    { p with
      tags := some pinned
      round := some ((Round.new pinned (groundNamespace stored enumerate)).feed scope page) }

/-- The feed of a drive has ended with this link. -/
def close (p : Pass) (scope : DriveScope) (link : String) : Pass :=
  let (queue, mounts) :=
    ((p.round.map Round.mounts).getD []).foldl queueMount (p.queue, p.mounts)
  { p with tokens := p.tokens.set scope.drive link, queue := queue, mounts := mounts }

/-- Read feeds, for as many pages as are left. -/
def run : ℕ → Pass → DriveScope → Fetch → List Event → Except Fault Pass × List Event
  | 0, _, _, _, log =>
    (.error (.io (invalidData s!"the round exceeded {maxPagesPerRound} pages")), log)
  | pages + 1, p, scope, what, log =>
    match fetch source what maxThrottleRetries log with
    | (.error fault, log) => (.error fault, log)
    | (.ok page, log) =>
      let p := p.feed stored enumerate scope page
      match page.pageEnd with
      | .done link =>
        if ¬ onTheGraphEndpoint link then (.error (.io (foreignLink link)), log)
        else
          let p := p.close scope link
          match p.queue[p.entered]? with
          | none => (.ok p, log)
          | some scope =>
            run pages ({ p with entered := p.entered + 1 }.enter stored enumerate scope) scope
              (entry stored enumerate scope) log
      | .more link =>
        -- before it is fetched: the fetch is where the credential goes
        if ¬ onTheGraphEndpoint link then (.error (.io (foreignLink link)), log)
        else if link ∈ p.visited then
          (.error (.io (invalidData s!"the feed looped back to {link}")), log)
        else run pages { p with visited := link :: p.visited } scope (.next link) log

end Pass

/-! ## What has gone -/

/-- Refuse a round that would remove more than a mistake should be able to. -/
def guardBlastRadius (removals known : ℕ) : Except Escalation Unit :=
  if max 64 (known / 10) < removals then .error (.blastRadius removals known) else .ok ()

/-- What a change of a listing says, of an object that is not there any more. -/
def goneFrom (present : List String) : Change → Option Change
  | .upserted cloudId _ _ _ => if cloudId ∈ present then none else some (.removed cloudId)
  | .folderUpserted cloudId path _ =>
    if path = "" ∨ cloudId ∈ present then none else some (.folderRemoved cloudId path)
  | _ => none

/-- What a full enumeration cannot say on its own. -/
def deletionsSince (before : List Client.Item) (after : Namespace) :
    Except Escalation (List Change) :=
  let present := after.snapshot.map Client.Item.id
  let gone := (Namespace.restore before).listing.filterMap (goneFrom present)
  match guardBlastRadius gone.length before.length with
  | .error e => .error e
  | .ok () => .ok gone

def isRemoval : Change → Bool
  | .removed _ | .folderRemoved .. => true
  | _ => false

/-- One completed pass, before anything is written. -/
structure Attempt where
  listing : List Change
  removals : List Change
  enumerated : Bool
  applied : ℕ
  items : List Client.Item
  mounts : List MountPoint
  tokens : TokenBlob
  tags : TagSource

/-- Take a removal up that is not there yet. -/
def pushNew (removals : List Change) (gone : Change) : List Change :=
  if gone ∈ removals then removals else removals ++ [gone]

/-- What a pass has come to. -/
def conclude (p : Pass) : Except Fault Attempt :=
  -- the queue holds a scope and every scope a page, so there always is a round
  let round := p.round.getD (.new .cTag (groundNamespace stored enumerate))
  let mounts := p.mounts.filter fun m ↦ p.queue.any (·.drive = m.remote.drive)
  match round.finish with
  | .error (e, _) => .error (.escalated e)
  | .ok completed =>
    let removals := completed.changes.filter isRemoval
    let diff := if enumerate then deletionsSince stored.items round.tree else .ok []
    let done (gone : List Change) : Attempt :=
      ⟨round.tree.listing, gone.foldl pushNew removals, enumerate, round.applied,
        round.tree.snapshot, mounts, p.tokens, p.tags.getD .cTag⟩
    match diff with
    | .ok gone => .ok (done gone)
    -- the round completes all the same: refusing here would refuse for ever
    | .error (.blastRadius ..) => .ok (done [])
    | .error e => .error (.escalated e)

end Attempt

/-- One pass over every scope this round covers. -/
def attempt (source : PageSource) (scope : DriveScope) (stored : StoredView) (force : Bool)
    (log : List Event) : Except Fault Attempt × List Event :=
  let enumerate := force || (stored.tokens.get scope.drive).isNone
  let p := (Pass.start stored enumerate scope).enter stored enumerate scope
  match Pass.run source stored enumerate maxPagesPerRound p scope
    (entry stored enumerate scope) log with
  | (.error fault, log) => (.error fault, log)
  | (.ok p, log) => (conclude stored enumerate p, log)

/-- A token the service calls too old is answered by listing the drive from nothing. -/
def attempted (source : PageSource) (scope : DriveScope) (stored : StoredView) :
    Except Fault Attempt × List Event :=
  match attempt source scope stored false [] with
  | (.error .resync, log) => attempt source scope stored true log
  | other => other

end HydrationAPI.Graph.GraphDiscover
