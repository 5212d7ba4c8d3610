import AiPrReview.Pool
import AiPrReview.PyText

/-! The Redis job queue of the webhook receiver: the dedup claim of a delivery,
the jobs, and the breaker and the retries around each command. -/

namespace AiPrReview

inductive Job : Type where
  | review (deliveryId repo : Text) (prNumber : Int) (action : Text)
  | indexRepo (deliveryId repo : Text)
  | reindexRepo (deliveryId repo beforeSha afterSha : Text) (added modified removed : List Text)
  deriving DecidableEq

def Job.deliveryId : Job → Text
  | review d .. => d
  | indexRepo d _ => d
  | reindexRepo d .. => d

/-- `openedAt` is a reading of the monotonic clock, in seconds. -/
structure CircuitBreaker : Type where
  failureThreshold : Nat
  resetAfterSeconds : ℚ
  failures : Nat
  openedAt : Option ℚ

namespace CircuitBreaker

/-- `before_call` does not raise: the breaker is closed, or lets a probe through. -/
def admits (b : CircuitBreaker) (now : ℚ) : Bool :=
  match b.openedAt with
  | none => true
  | some t => decide (b.resetAfterSeconds ≤ now - t)

def onSuccess (b : CircuitBreaker) : CircuitBreaker := { b with failures := 0, openedAt := none }

def onFailure (b : CircuitBreaker) (now : ℚ) : CircuitBreaker :=
  { b with
    failures := b.failures + 1
    openedAt := if b.failureThreshold ≤ b.failures + 1 then some now else b.openedAt }

def fresh : CircuitBreaker := ⟨3, 30, 0, none⟩

end CircuitBreaker

inductive RedisCommand : Type where
  | setNx (deliveryId : Text)
  | delete (deliveryId : Text)
  | enqueue (job : Job)
  deriving DecidableEq

structure QueueWorld : Type where
  claims : List Text
  jobs : List Job
  markedPending : List Text
  breaker : CircuitBreaker
  clock : ℚ

def RedisCommand.run : RedisCommand → QueueWorld → Bool × QueueWorld
  | setNx d, w => if w.claims.contains d then (false, w) else (true, { w with claims := d :: w.claims })
  | delete d, w => (true, { w with claims := w.claims.filter (· ≠ d) })
  | enqueue job, w => (true, { w with jobs := w.jobs ++ [job] })

inductive QueueCall : Type where
  | beforeCall (cmd : RedisCommand)
  | command (cmd : RedisCommand)
  | onSuccess (cmd : RedisCommand)
  | onFailure (cmd : RedisCommand)
  | markPending (repo : Text)

/-- `none` is an exception; `before_call` replies whether the breaker admits the call. -/
def QueueCall.Reply : QueueCall → Type
  | beforeCall _ => Bool
  | command _ => Option Bool
  | onSuccess _ => Unit
  | onFailure _ => Unit
  | markPending _ => Option Unit

/-- A command succeeds, fails without effect, or takes effect and fails at the client. -/
inductive Fate : Type where
  | ok
  | fails
  | lost

def QueueCall.exec : (c : QueueCall) → Fate → QueueWorld → Option (c.Reply × QueueWorld)
  | beforeCall _, .ok, w => some (w.breaker.admits w.clock, w)
  | command cmd, .ok, w => some (some (cmd.run w).1, (cmd.run w).2)
  | command _, .fails, w => some (none, w)
  | command cmd, .lost, w => some (none, (cmd.run w).2)
  | onSuccess _, .ok, w => some ((), { w with breaker := w.breaker.onSuccess })
  | onFailure _, .ok, w => some ((), { w with breaker := w.breaker.onFailure w.clock })
  | markPending repo, .ok, w => some (some (), { w with markedPending := repo :: w.markedPending })
  | markPending _, .fails, w => some (none, w)
  | markPending repo, .lost, w => some (none, { w with markedPending := repo :: w.markedPending })
  | _, _, _ => none

abbrev QueueProg : Type → Type := Prog QueueCall.Reply

/-- Between two steps time passes, claims may expire, and other deliveries
report to the breaker. -/
def queueHost : Host QueueCall.Reply Fate QueueWorld where
  exec := QueueCall.exec
  retries _ := false
  drift w w' := w.clock ≤ w'.clock ∧ w'.claims ⊆ w.claims ∧ w'.jobs = w.jobs

def withRetry (cmd : RedisCommand) : Nat → QueueProg (Option Bool)
  | 0 => .ret none
  | attempts + 1 => .call (.command cmd) fun
    | some reply => .ret (some reply)
    | none => withRetry cmd attempts

def retryAttempts : Nat := 3

def reported (cmd : RedisCommand) : Option Bool → QueueProg (Option Bool)
  | some reply => .call (.onSuccess cmd) fun _ => .ret (some reply)
  | none => .call (.onFailure cmd) fun _ => .ret none

def guarded (cmd : RedisCommand) : QueueProg (Option Bool) :=
  .call (.beforeCall cmd) fun admitted : Bool =>
    if admitted then withRetry cmd retryAttempts >>= reported cmd else .ret none

def markSeen (deliveryId : Text) : QueueProg (Option Bool) := guarded (.setNx deliveryId)

def unclaim (deliveryId : Text) : QueueProg (Option Bool) := guarded (.delete deliveryId)

/-- `enqueue_review`, `enqueue_index_repo` and `enqueue_reindex_repo`. -/
def enqueueJob (job : Job) : QueueProg (Option Bool) := guarded (.enqueue job)

/-! How a guarded command follows an outline. -/

variable {M : Type} {O : Outline QueueCall.Reply M} {cmd : RedisCommand}

theorem withRetry_follows {m : M} {found : Bool → M} (hallow : O.allows m (.command cmd))
    (hnone : O.next m (.command cmd) (none : Option Bool) = m)
    (hsome : ∀ b : Bool, O.next m (.command cmd) (some b : Option Bool) = found b) (n : Nat) :
    (withRetry cmd n).Follows O (fun m' r => m' = r.elim m found) m := by
  induction n with
  | zero => exact rfl
  | succ n ih =>
    refine ⟨hallow, fun r => ?_⟩
    cases r with
    | none =>
      rw [hnone]
      exact ih
    | some b =>
      rw [hsome b]
      exact rfl

theorem guarded_follows {start refused failed : M} (m : M) (found done : Bool → M)
    (hstart : O.allows start (.beforeCall cmd))
    (hrefuse : O.next start (.beforeCall cmd) false = refused)
    (hgranted : O.next start (.beforeCall cmd) true = m)
    (hallow : O.allows m (.command cmd))
    (hnone : O.next m (.command cmd) (none : Option Bool) = m)
    (hsome : ∀ b : Bool, O.next m (.command cmd) (some b : Option Bool) = found b)
    (hfail : O.allows m (.onFailure cmd)) (hfailed : O.next m (.onFailure cmd) () = failed)
    (hdone : ∀ b, O.allows (found b) (.onSuccess cmd))
    (hdone' : ∀ b, O.next (found b) (.onSuccess cmd) () = done b) :
    (guarded cmd).Follows O (fun m' r => (∃ b, r = some b ∧ m' = done b) ∨
      (r = none ∧ (m' = refused ∨ m' = failed))) start := by
  refine ⟨hstart, fun admitted => ?_⟩
  cases admitted with
  | false =>
    rw [hrefuse]
    exact .inr ⟨rfl, .inl rfl⟩
  | true =>
    rw [hgranted]
    refine (withRetry_follows hallow hnone hsome retryAttempts).bind fun m' r hm => ?_
    subst hm
    cases r with
    | none =>
      refine ⟨hfail, fun _ => ?_⟩
      exact .inr ⟨rfl, .inr hfailed⟩
    | some b =>
      refine ⟨hdone b, fun _ => ?_⟩
      exact .inl ⟨b, rfl, hdone' b⟩

end AiPrReview
