import AiPrReview.JobQueue
import AiPrReview.Reliability
import Mathlib.Tactic.NormNum

/-! The breakers and retry loops of the job queue and of the GitHub client,
which predate `reliability`, against the ones there. -/

namespace AiPrReview

variable {α ε κ : Type}

/-- `before_call` of the job queue's breaker. -/
def CircuitBreaker.beforeCall (b : CircuitBreaker) (now : ℚ) : Admission :=
  match b.openedAt with
  | none => .closed
  | some openedAt => if b.resetAfterSeconds ≤ now - openedAt then .probe else .rejected

theorem CircuitBreaker.admits_eq (b : CircuitBreaker) (now : ℚ) :
    b.admits now = decide (b.beforeCall now ≠ .rejected) := by
  obtain ⟨threshold, cooldown, failures, openedAt⟩ := b
  cases openedAt with
  | none => rfl
  | some t =>
    by_cases h : cooldown ≤ now - t
    · simp [admits, beforeCall, h]
    · simp [admits, beforeCall, h]

namespace JobQueue

def breakerOps : BreakerOps CircuitBreaker :=
  ⟨CircuitBreaker.beforeCall, CircuitBreaker.onSuccess, CircuitBreaker.onFailure⟩

def retryBaseDelaySeconds : ℚ := 1 / 10

/-- The loop of `_with_retry` with `left` attempts to go. -/
def retryLoop (op : κ) (attempts : Nat) (baseDelay : ℚ) :
    Nat → Option (Exc ε) → GuardProg α ε κ (Outcome α ε)
  | 0, none => .ret (.raised .assertionError)
  | 0, some lastExc => .ret (.raised lastExc)
  | left + 1, _ => .call (.attempt op) fun
    | .returned a => .ret (.returned a)
    | .cancelled => .ret .cancelled
    | .raised e =>
      let attempt := attempts - (left + 1)
      if attempt < attempts - 1 then
        .call (.sleep (baseDelay * 2 ^ attempt)) fun slept : Bool =>
          if slept then retryLoop op attempts baseDelay left (some e) else .ret .cancelled
      else retryLoop op attempts baseDelay left (some e)

def withRetry (op : κ) : GuardProg α ε κ (Outcome α ε) :=
  retryLoop op retryAttempts retryBaseDelaySeconds retryAttempts none

def openMessage : Text := "job queue circuit breaker is open — redis unavailable".toList

def report : Outcome α ε → GuardProg α ε κ (CallResult α ε)
  | .cancelled => .ret (.ended .cancelled)
  | .raised e => .call .onFailure fun _ => .ret (.ended (.raised e))
  | .returned a => .call .onSuccess fun _ => .ret (.ended (.returned a))

/-- `_guarded`. -/
def guarded (op : κ) : GuardProg α ε κ (CallResult α ε) :=
  .call .beforeCall fun
    | .rejected => .ret (.rejected (.circuitOpen openMessage))
    | _ => withRetry op >>= report

/-- The guarded command without the sleeps and with one exception only. -/
def ofGuarded (cmd : RedisCommand) : GuardProg Bool Unit RedisCommand (CallResult Bool Unit) →
    QueueProg (Option Bool)
  | .ret (.ended (.returned b)) => .ret (some b)
  | .ret _ => .ret none
  | .call .beforeCall k => .call (.beforeCall cmd) fun admitted : Bool =>
    if admitted then ofGuarded cmd (k .closed) else ofGuarded cmd (k .rejected)
  | .call (.attempt op) k => .call (.command op) fun
    | some b => ofGuarded cmd (k (.returned b))
    | none => ofGuarded cmd (k (.raised (.other ())))
  | .call (.sleep _) k => ofGuarded cmd (k true)
  | .call .onSuccess k => .call (.onSuccess cmd) fun _ => ofGuarded cmd (k ())
  | .call .onFailure k => .call (.onFailure cmd) fun _ => ofGuarded cmd (k ())

theorem ofGuarded_retryLoop (cmd : RedisCommand) (attempts : Nat) (baseDelay : ℚ) (left : Nat)
    (last : Option (Exc Unit)) :
    ofGuarded cmd (retryLoop cmd attempts baseDelay left last >>= report) =
      AiPrReview.withRetry cmd left >>= reported cmd := by
  induction left generalizing last with
  | zero =>
    cases last with
    | none => rfl
    | some e => rfl
  | succ left ih =>
    simp only [retryLoop, Prog.call_bind, ofGuarded, AiPrReview.withRetry]
    congr 1
    funext r
    cases r with
    | some b => rfl
    | none =>
      by_cases h : attempts - (left + 1) < attempts - 1
      · simp only [h, if_true]
        exact ih _
      · simp only [h, if_false]
        exact ih _

theorem ofGuarded_guarded (cmd : RedisCommand) : ofGuarded cmd (guarded cmd) = AiPrReview.guarded cmd := by
  simp only [guarded, ofGuarded, AiPrReview.guarded]
  congr 1
  funext admitted
  cases admitted with
  | false => rfl
  | true => exact ofGuarded_retryLoop cmd _ _ _ _

end JobQueue

namespace GitHub

/-- `_CircuitBreaker`. -/
structure CircuitBreaker : Type where
  threshold : Nat
  resetAfter : ℚ
  failures : Nat
  openedAt : Option ℚ

namespace CircuitBreaker

def beforeCall (b : CircuitBreaker) (now : ℚ) : Admission :=
  match b.openedAt with
  | none => .closed
  | some openedAt => if b.resetAfter ≤ now - openedAt then .probe else .rejected

def onSuccess (b : CircuitBreaker) : CircuitBreaker := { b with failures := 0, openedAt := none }

def onFailure (b : CircuitBreaker) (now : ℚ) : CircuitBreaker :=
  { b with
    failures := b.failures + 1
    openedAt := if b.threshold ≤ b.failures + 1 then some now else b.openedAt }

end CircuitBreaker

def breakerOps : BreakerOps CircuitBreaker :=
  ⟨CircuitBreaker.beforeCall, CircuitBreaker.onSuccess, CircuitBreaker.onFailure⟩

end GitHub

/-! One breaker for another. -/

structure BreakerOps.Agrees {B B' : Type} (I : BreakerOps B) (J : BreakerOps B') (f : B → B') : Prop where
  beforeCall : ∀ b now, J.beforeCall (f b) now = I.beforeCall b now
  onSuccess : ∀ b, J.onSuccess (f b) = f (I.onSuccess b)
  onFailure : ∀ b now, J.onFailure (f b) now = f (I.onFailure b now)

inductive BreakerEvent : Type where
  | beforeCall (now : ℚ)
  | onSuccess
  | onFailure (now : ℚ)

/-- What `before_call` decides, call by call, in a history of the breaker. -/
def BreakerOps.decisions {B : Type} (I : BreakerOps B) : B → List BreakerEvent → List Admission
  | _, [] => []
  | b, .beforeCall now :: events => I.beforeCall b now :: I.decisions b events
  | b, .onSuccess :: events => I.decisions (I.onSuccess b) events
  | b, .onFailure now :: events => I.decisions (I.onFailure b now) events

/-- The guarded calls of one breaker as a pool. -/
def guardHost {B : Type} (I : BreakerOps B) :
    Host (GuardCall.Reply α ε (κ := κ)) (GuardChoice α ε) (GuardWorld B) where
  exec := I.exec
  retries _ := false
  drift := Eq

def GuardWorld.map {B B' : Type} (f : B → B') (w : GuardWorld B) : GuardWorld B' := ⟨f w.breaker, w.clock⟩

namespace BreakerOps.Agrees

variable {B B' : Type} {I : BreakerOps B} {J : BreakerOps B'} {f : B → B'}

theorem decisions_eq (h : I.Agrees J f) (b : B) (events : List BreakerEvent) :
    J.decisions (f b) events = I.decisions b events := by
  induction events generalizing b with
  | nil => rfl
  | cons e events ih =>
    cases e with
    | beforeCall now => simp only [decisions, h.beforeCall, ih]
    | onSuccess => simp only [decisions, h.onSuccess, ih]
    | onFailure now => simp only [decisions, h.onFailure, ih]

theorem answer_eq (h : I.Agrees J f) (b : B) (e : GuardChoice α ε) (c : GuardCall κ) :
    J.answer (f b) e c = ((I.answer b e c).1, f (I.answer b e c).2) := by
  cases c with
  | beforeCall => exact Prod.ext (h.beforeCall b e.now) rfl
  | attempt op => rfl
  | sleep seconds => rfl
  | onSuccess => exact Prod.ext rfl (h.onSuccess b)
  | onFailure => exact Prod.ext rfl (h.onFailure b e.now)

theorem exec_logged (h : I.Agrees J f) (c : GuardCall κ) (e : GuardChoice α ε)
    (w : GuardWorld B × List (Sigma (GuardCall.Reply α ε (κ := κ)))) :
    (guardHost J).logged.exec c e (Prod.map (GuardWorld.map f) id w) =
      ((guardHost I).logged.exec c e w).map fun x => (x.1, Prod.map (GuardWorld.map f) id x.2) := by
  simp only [Host.logged, guardHost, exec, GuardWorld.map, Prod.map, answer_eq h]
  split_ifs <;> rfl

end BreakerOps.Agrees

def CircuitBreaker.toReliability (name : Text) (b : CircuitBreaker) : Reliability.CircuitBreaker :=
  ⟨name, b.failureThreshold, b.resetAfterSeconds, b.failures, b.openedAt⟩

def GitHub.CircuitBreaker.toReliability (name : Text) (b : GitHub.CircuitBreaker) : Reliability.CircuitBreaker :=
  ⟨name, b.threshold, b.resetAfter, b.failures, b.openedAt⟩

theorem reliability_beforeCall (b : Reliability.CircuitBreaker) (now : ℚ) : b.beforeCall now =
    match b.openedAt with
    | none => .closed
    | some openedAt => if b.resetAfter ≤ now - openedAt then .probe else .rejected := by
  cases h : b.openedAt with
  | none => exact Reliability.CircuitBreaker.beforeCall_of_closed h now
  | some t => exact Reliability.CircuitBreaker.beforeCall_of_opened h now

theorem queue_breaker_agrees (name : Text) :
    JobQueue.breakerOps.Agrees Reliability.breakerOps (CircuitBreaker.toReliability name) where
  beforeCall _ _ := reliability_beforeCall _ _
  onSuccess _ := rfl
  onFailure _ _ := rfl

theorem github_agrees (name : Text) :
    GitHub.breakerOps.Agrees Reliability.breakerOps (GitHub.CircuitBreaker.toReliability name) where
  beforeCall _ _ := reliability_beforeCall _ _
  onSuccess _ := rfl
  onFailure _ _ := rfl

/-! One retry loop for another. -/

theorem retryLoop_eq {breaker : Option Text} {callName : Text} {op : κ} {attempts : Nat}
    {baseDelay maxDelay : ℚ} (hdelay : ∀ k, k < attempts - 1 → baseDelay * 2 ^ k ≤ maxDelay)
    (left : Nat) (last : Option (Exc ε)) :
    (JobQueue.retryLoop op attempts baseDelay left last : GuardProg α ε κ (Outcome α ε)) =
      Reliability.retryLoop ((Reliability.Guard.default breaker).attempt op callName) attempts baseDelay maxDelay
        (fun _ => true) left last := by
  induction left generalizing last with
  | zero =>
    cases last with
    | none => rfl
    | some e => rfl
  | succ left ih =>
    rw [JobQueue.retryLoop, Reliability.Guard.retryLoop_succ]
    congr 1
    funext o
    cases o with
    | returned a => rfl
    | cancelled => rfl
    | raised e =>
      by_cases h : attempts - (left + 1) < attempts - 1
      · simp only [Reliability.Guard.seen, Reliability.Guard.default, h, if_true, ih]
        rw [min_eq_left (hdelay _ h)]
      · simp only [Reliability.Guard.seen, Reliability.Guard.default, h, if_true, if_false, ih]

/-- What the caller sees of a guarded call, the text of a rejection apart. -/
def CallResult.verdict : CallResult α ε → Option (Outcome α ε)
  | rejected _ => none
  | ended o => some o

theorem guarded_eq (name callName : Text) (op : κ) :
    (JobQueue.guarded op >>= fun r => .ret r.verdict : GuardProg α ε κ (Option (Outcome α ε))) =
      (Reliability.Guard.default (some name)).call op callName >>= fun r => .ret r.verdict := by
  have hdelay : ∀ k, k < 3 - 1 → (1 / 10 : ℚ) * 2 ^ k ≤ 5 := by
    intro k hk
    have hk' : k = 0 ∨ k = 1 := by omega
    rcases hk' with rfl | rfl <;> norm_num
  have hloop : (JobQueue.withRetry op : GuardProg α ε κ (Outcome α ε)) =
      Reliability.retryAsync ((Reliability.Guard.default (some name)).attempt op callName) 3 (1 / 10) 5 fun _ => true :=
    retryLoop_eq hdelay 3 none
  simp only [JobQueue.guarded, Reliability.Guard.call, Reliability.Guard.default, Prog.call_bind]
  congr 1
  funext admission
  cases admission with
  | rejected => rfl
  | closed => 
    show (JobQueue.withRetry op >>= JobQueue.report) >>= _ = _
    rw [hloop]
    rfl
  | probe =>
    show (JobQueue.withRetry op >>= JobQueue.report) >>= _ = _
    rw [hloop]
    rfl

/-- The same moves of the environment take the job queue's guarded calls and
`Guard`'s to the same results, through the same calls, with the same breaker;
the GitHub client's breaker decides as the others do. -/
theorem stacks_agree (name callName : Text) (threshold : Nat) (cooldown start : ℚ)
    (moves : List (Host.Move (GuardChoice α ε) κ)) (events : List BreakerEvent) :
    ((guardHost JobQueue.breakerOps).logged.play ⟨(⟨⟨threshold, cooldown, 0, none⟩, start⟩, []), []⟩
        (moves.map (Host.Move.mapProgram fun op =>
          (JobQueue.guarded op >>= fun r => .ret r.verdict : GuardProg α ε κ (Option (Outcome α ε)))))).map
        (Pool.mapWorld (Prod.map (GuardWorld.map (CircuitBreaker.toReliability name)) id)) =
      (guardHost Reliability.breakerOps).logged.play ⟨(⟨⟨name, threshold, cooldown, 0, none⟩, start⟩, []), []⟩
        (moves.map (Host.Move.mapProgram fun op =>
          (Reliability.Guard.default (some name)).call op callName >>= fun r => .ret r.verdict)) ∧
    GitHub.breakerOps.decisions ⟨threshold, cooldown, 0, none⟩ events =
      Reliability.breakerOps.decisions ⟨name, threshold, cooldown, 0, none⟩ events ∧
    JobQueue.breakerOps.decisions ⟨threshold, cooldown, 0, none⟩ events =
      Reliability.breakerOps.decisions ⟨name, threshold, cooldown, 0, none⟩ events := by
  refine ⟨?_, ?_, ?_⟩
  · simp only [guarded_eq name callName]
    exact (Host.play_mapWorld (queue_breaker_agrees name).exec_logged _ _).symm
  · exact ((github_agrees name).decisions_eq _ events).symm
  · exact ((queue_breaker_agrees name).decisions_eq _ events).symm

end AiPrReview
