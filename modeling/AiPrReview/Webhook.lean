import AiPrReview.JobQueue

/-! The webhook receiver, from a parsed event on. -/

namespace AiPrReview

structure PushCommit : Type where
  added : List Text
  removed : List Text
  modified : List Text

/-- A validated payload of one of the four events that make work. -/
inductive WebhookEvent : Type where
  | pullRequest (action : Text) (number : Int) (repo : Text)
  | installation (action : Text) (repositories : List Text)
  | installationRepositories (repositoriesAdded : List Text)
  | push (before after repo : Text) (commits : List PushCommit)

/-- An operation marks a repository as pending, if it is about one's index, and
enqueues its job. -/
structure EnqueueOp : Type where
  pendingRepo : Option Text
  job : Job

def indexOp (deliveryId repo : Text) : EnqueueOp := ⟨some repo, .indexRepo deliveryId repo⟩

def buildEnqueueOps (deliveryId : Text) : WebhookEvent → Option (List EnqueueOp)
  | .pullRequest action number repo => some [⟨none, .review deliveryId repo number action⟩]
  | .installation action repositories =>
    if action ≠ "created".toList ∨ repositories = [] then none
    else some (repositories.map (indexOp deliveryId))
  | .installationRepositories added =>
    if added = [] then none else some (added.map (indexOp deliveryId))
  | .push before after repo commits =>
    let added := commits.flatMap PushCommit.added
    let modified := commits.flatMap PushCommit.modified
    let removed := commits.flatMap PushCommit.removed
    if added = [] ∧ modified = [] ∧ removed = [] then none
    else some [⟨some repo, .reindexRepo deliveryId repo before after added modified removed⟩]

inductive Response : Type where
  | accepted
  | duplicate
  | ignored
  | unavailable
  deriving DecidableEq

def EnqueueOp.run (op : EnqueueOp) : QueueProg (Option Bool) :=
  match op.pendingRepo with
  | none => enqueueJob op.job
  | some repo => .call (.markPending repo) fun
    | none => .ret none
    | some () => enqueueJob op.job

/-- The operations one after the other, up to the first that raises. -/
def runOps : List EnqueueOp → QueueProg (Option Unit)
  | [] => .ret (some ())
  | op :: ops => op.run >>= fun
    | none => .ret none
    | some _ => runOps ops

def afterClaim (deliveryId : Text) (ops : List EnqueueOp) : QueueProg Response :=
  runOps ops >>= fun
    | some () => .ret .accepted
    | none => unclaim deliveryId >>= fun _ => .ret .unavailable

/-- `receive_webhook`, once the signature, the headers and the payload are checked. -/
def receiveWebhook (deliveryId : Text) (event : WebhookEvent) : QueueProg Response :=
  match buildEnqueueOps deliveryId event with
  | none => .ret .ignored
  | some ops => markSeen deliveryId >>= fun
    | none => .ret .unavailable
    | some false => .ret .duplicate
    | some true => afterClaim deliveryId ops

end AiPrReview
