import AiPrReview.Program
import AiPrReview.PyText

/-! Guarded calls: a circuit breaker around a retry loop around a timeout. The
breaker is shared, so its reports are calls like the attempts are. -/

namespace AiPrReview

/-- The ordinary exceptions; `other` are those the operations raise themselves. -/
inductive Exc (ε : Type) : Type where
  | circuitOpen (message : Text)
  | valueError (message : Text)
  | assertionError
  | timeoutError
  | operationTimeout (name : Text) (seconds : ℚ)
  | other (e : ε)
  deriving DecidableEq

/-- How an await ends; `cancelled` is `asyncio.CancelledError`. -/
inductive Outcome (α ε : Type) : Type where
  | returned (a : α)
  | raised (e : Exc ε)
  | cancelled
  deriving DecidableEq

/-- How `before_call` ends: it returns from a closed breaker, it lets a probe
through, or it raises. -/
inductive Admission : Type where
  | closed
  | probe
  | rejected
  deriving DecidableEq

inductive GuardCall (κ : Type) : Type where
  | beforeCall
  | attempt (op : κ)
  | sleep (seconds : ℚ)
  | onSuccess
  | onFailure
  deriving DecidableEq

/-- `sleep` replies whether it was slept to its end and not cancelled. -/
def GuardCall.Reply (α ε : Type) {κ : Type} : GuardCall κ → Type
  | beforeCall => Admission
  | attempt _ => Outcome α ε
  | sleep _ => Bool
  | onSuccess => Unit
  | onFailure => Unit

abbrev GuardProg (α ε κ : Type) : Type → Type := Prog (GuardCall.Reply α ε (κ := κ))

/-- `rejected` is the exception of `before_call`, and `ended` what the call came to. -/
inductive CallResult (α ε : Type) : Type where
  | rejected (e : Exc ε)
  | ended (o : Outcome α ε)
  deriving DecidableEq

variable {α ε κ : Type}

namespace Reliability

structure CircuitBreaker : Type where
  name : Text
  threshold : Nat
  resetAfter : ℚ
  failures : Nat
  openedAt : Option ℚ

inductive BreakerState : Type where
  | closed
  | halfOpen
  | open
  deriving DecidableEq

namespace CircuitBreaker

def state (b : CircuitBreaker) (now : ℚ) : BreakerState :=
  match b.openedAt with
  | none => .closed
  | some openedAt => if b.resetAfter ≤ now - openedAt then .halfOpen else .open

def beforeCall (b : CircuitBreaker) (now : ℚ) : Admission :=
  match b.state now with
  | .closed => .closed
  | .halfOpen => .probe
  | .open => .rejected

theorem beforeCall_of_closed {b : CircuitBreaker} (h : b.openedAt = none) (now : ℚ) : b.beforeCall now = .closed := by
  rw [beforeCall, state, h]

theorem beforeCall_of_opened {b : CircuitBreaker} {t : ℚ} (h : b.openedAt = some t) (now : ℚ) :
    b.beforeCall now = if b.resetAfter ≤ now - t then .probe else .rejected := by
  rw [beforeCall, state, h]
  dsimp only
  split_ifs <;> rfl

def onSuccess (b : CircuitBreaker) : CircuitBreaker := { b with failures := 0, openedAt := none }

def onFailure (b : CircuitBreaker) (now : ℚ) : CircuitBreaker :=
  { b with
    failures := b.failures + 1
    openedAt := if b.threshold ≤ b.failures + 1 then some now else b.openedAt }

def openMessage (name : Text) : Text := name ++ " circuit breaker is open".toList

end CircuitBreaker

/-- `with_timeout`, applied to how the awaited operation ended. -/
def withTimeout (seconds : ℚ) (name : Text) : Outcome α ε → Outcome α ε
  | .raised .timeoutError => .raised (.operationTimeout name seconds)
  | o => o

/-- The loop of `retry_async` with `left` attempts to go. -/
def retryLoop (op : GuardProg α ε κ (Outcome α ε)) (attempts : Nat) (baseDelay maxDelay : ℚ)
    (retryOn : Exc ε → Bool) : Nat → Option (Exc ε) → GuardProg α ε κ (Outcome α ε)
  | 0, none => .ret (.raised .assertionError)
  | 0, some lastExc => .ret (.raised lastExc)
  | left + 1, _ => op >>= fun
    | .returned a => .ret (.returned a)
    | .cancelled => .ret .cancelled
    | .raised e =>
      let attempt := attempts - (left + 1)
      if retryOn e then
        if attempt < attempts - 1 then
          .call (.sleep (min (baseDelay * 2 ^ attempt) maxDelay)) fun slept : Bool =>
            if slept then retryLoop op attempts baseDelay maxDelay retryOn left (some e) else .ret .cancelled
        else retryLoop op attempts baseDelay maxDelay retryOn left (some e)
      else .ret (.raised e)

def defaultMaxDelay : ℚ := 5

def retryAsync (op : GuardProg α ε κ (Outcome α ε)) (attempts : Nat) (baseDelay maxDelay : ℚ)
    (retryOn : Exc ε → Bool) : GuardProg α ε κ (Outcome α ε) :=
  if attempts < 1 then .ret (.raised (.valueError "attempts must be >= 1".toList))
  else retryLoop op attempts baseDelay maxDelay retryOn attempts none

/-- `breaker` is the name of the breaker; its state is in the world. -/
structure Guard (ε : Type) : Type where
  breaker : Option Text
  attempts : Nat
  baseDelay : ℚ
  timeoutSeconds : Option ℚ
  retryOn : Exc ε → Bool

namespace Guard

/-- A guard with the default arguments. -/
def default (breaker : Option Text) : Guard ε := ⟨breaker, 3, 1 / 10, none, fun _ => true⟩

/-- What the retry loop sees of an attempt. -/
def seen (g : Guard ε) (name : Text) (o : Outcome α ε) : Outcome α ε :=
  match g.timeoutSeconds with
  | none => o
  | some seconds => withTimeout seconds name o

def attempt (g : Guard ε) (op : κ) (name : Text) : GuardProg α ε κ (Outcome α ε) :=
  .call (.attempt op) fun o => .ret (g.seen name o)

theorem retryLoop_succ (g : Guard ε) (op : κ) (name : Text) (attempts : Nat) (baseDelay maxDelay : ℚ)
    (retryOn : Exc ε → Bool) (left : Nat) (last : Option (Exc ε)) :
    (retryLoop (g.attempt op name) attempts baseDelay maxDelay retryOn (left + 1) last :
        GuardProg α ε κ (Outcome α ε)) =
      .call (.attempt op) fun o => match g.seen name o with
        | .returned a => .ret (.returned a)
        | .cancelled => .ret .cancelled
        | .raised e =>
          if retryOn e then
            if attempts - (left + 1) < attempts - 1 then
              .call (.sleep (min (baseDelay * 2 ^ (attempts - (left + 1))) maxDelay)) fun slept : Bool =>
                if slept then retryLoop (g.attempt op name) attempts baseDelay maxDelay retryOn left (some e)
                else .ret .cancelled
            else retryLoop (g.attempt op name) attempts baseDelay maxDelay retryOn left (some e)
          else .ret (.raised e) := rfl

/-- What `__call__` does after `before_call`. -/
def admitted (g : Guard ε) (op : κ) (name : Text) : GuardProg α ε κ (CallResult α ε) :=
  retryAsync (g.attempt op name) g.attempts g.baseDelay defaultMaxDelay g.retryOn >>= fun
    | .cancelled => .ret (.ended .cancelled)
    | .raised e =>
      if g.breaker.isSome then .call .onFailure fun _ => .ret (.ended (.raised e)) else .ret (.ended (.raised e))
    | .returned a =>
      if g.breaker.isSome then .call .onSuccess fun _ => .ret (.ended (.returned a)) else .ret (.ended (.returned a))

def call (g : Guard ε) (op : κ) (name : Text) : GuardProg α ε κ (CallResult α ε) :=
  match g.breaker with
  | none => g.admitted op name
  | some breaker => .call .beforeCall fun
    | .rejected => .ret (.rejected (.circuitOpen (CircuitBreaker.openMessage breaker)))
    | _ => g.admitted op name

end Guard

end Reliability

/-! The world of guarded calls. -/

/-- What the calls need of a breaker. -/
structure BreakerOps (B : Type) : Type where
  beforeCall : B → ℚ → Admission
  onSuccess : B → B
  onFailure : B → ℚ → B

def Reliability.breakerOps : BreakerOps Reliability.CircuitBreaker :=
  ⟨Reliability.CircuitBreaker.beforeCall, Reliability.CircuitBreaker.onSuccess,
    Reliability.CircuitBreaker.onFailure⟩

structure GuardWorld (B : Type) : Type where
  breaker : B
  clock : ℚ

/-- How a call is answered: when, how an attempt ends and whether a sleep does. -/
structure GuardChoice (α ε : Type) : Type where
  now : ℚ
  outcome : Outcome α ε
  slept : Bool

section

variable {B : Type}

def BreakerOps.answer (I : BreakerOps B) (b : B) (e : GuardChoice α ε) :
    (c : GuardCall κ) → c.Reply α ε × B
  | .beforeCall => (I.beforeCall b e.now, b)
  | .attempt _ => (e.outcome, b)
  | .sleep _ => (e.slept, b)
  | .onSuccess => ((), I.onSuccess b)
  | .onFailure => ((), I.onFailure b e.now)

/-- The clock of the replies never goes back. -/
def BreakerOps.exec (I : BreakerOps B) (c : GuardCall κ) (e : GuardChoice α ε) (w : GuardWorld B) :
    Option (c.Reply α ε × GuardWorld B) :=
  if w.clock ≤ e.now then some ((I.answer w.breaker e c).1, ⟨(I.answer w.breaker e c).2, e.now⟩) else none

theorem BreakerOps.exec_eq_some_iff {I : BreakerOps B} {c : GuardCall κ} {e : GuardChoice α ε}
    {w w' : GuardWorld B} {r : c.Reply α ε} : I.exec c e w = some (r, w') ↔
      w.clock ≤ e.now ∧ I.answer w.breaker e c = (r, w'.breaker) ∧ w'.clock = e.now := by
  unfold BreakerOps.exec
  split_ifs with h
  · rw [Option.some.injEq, Prod.mk.injEq]
    constructor
    · rintro ⟨rfl, rfl⟩
      exact ⟨h, rfl, rfl⟩
    · rintro ⟨_, ha, hc⟩
      obtain ⟨b, t⟩ := w'
      obtain rfl : t = e.now := hc
      rw [ha]
      exact ⟨rfl, rfl⟩
  · simp [h]

end

end AiPrReview
