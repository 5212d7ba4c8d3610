import AiPrReview.Reliability
import AiPrReview.Streak

/-! Sequential calls through one `Guard`: what a call does, and when the breaker
rejects it. -/

namespace AiPrReview

open Streak (Report Locked)

variable {α ε κ : Type}

/-- One call and its reply, and the world after it. -/
abbrev GuardEvent (α ε κ : Type) : Type :=
  GuardWorld Reliability.CircuitBreaker × Sigma (GuardCall.Reply α ε (κ := κ))

def GuardEvent.outcome : GuardEvent α ε κ → Option (Outcome α ε)
  | (_, ⟨.attempt _, o⟩) => some o
  | _ => none

def GuardEvent.report : GuardEvent α ε κ → Option (Report ℚ)
  | (_, ⟨.onSuccess, _⟩) => some .success
  | (w, ⟨.onFailure, _⟩) => some (.failure w.clock)
  | _ => none

/-- A guarded call that has ended. -/
structure CallRecord (α ε κ : Type) : Type where
  op : κ
  name : Text
  trace : List (GuardEvent α ε κ)
  result : CallResult α ε

namespace CallRecord

def outcomes (c : CallRecord α ε κ) : List (Outcome α ε) := c.trace.filterMap GuardEvent.outcome

def reports (c : CallRecord α ε κ) : List (Report ℚ) := c.trace.filterMap GuardEvent.report

/-- The clock when `before_call` was answered. -/
def started (c : CallRecord α ε κ) : ℚ := (c.trace.head?.map (·.1.clock)).getD 0

/-- The clock at the last call, which for a failed call is its report. -/
def ended (c : CallRecord α ε κ) : ℚ := (c.trace.getLast?.map (·.1.clock)).getD 0

def rejected (c : CallRecord α ε κ) : Bool :=
  match c.result with
  | .rejected _ => true
  | .ended _ => false

def failed (c : CallRecord α ε κ) : Bool :=
  match c.result with
  | .ended (.raised _) => true
  | _ => false

/-- Admitted and not cancelled. -/
def counted (c : CallRecord α ε κ) : Bool :=
  match c.result with
  | .ended (.raised _) => true
  | .ended (.returned _) => true
  | _ => false

end CallRecord

namespace Reliability.Guard

/-- The calls through `g` from `w`, one after the other, and the world after them. -/
inductive History (g : Guard ε) (w : GuardWorld CircuitBreaker) :
    List (CallRecord α ε κ) → GuardWorld CircuitBreaker → Prop
  | nil : History g w [] w
  | call {history : List (CallRecord α ε κ)} {w₁ w₂ : GuardWorld CircuitBreaker} {op : κ} {name : Text}
      {trace : List (GuardEvent α ε κ)} {result : CallResult α ε} :
      History g w history w₁ → Prog.Traced breakerOps.exec w₁ (g.call op name) trace result w₂ →
      History g w (history ++ [⟨op, name, trace, result⟩]) w₂

def Retryable (g : Guard ε) (o : Outcome α ε) : Prop := ∃ e, o = .raised e ∧ g.retryOn e = true

/-- The loop ends with `o` after at most `attempts` attempts: those before the
last were retryable failures, and the last one is what ends it, unless a sleep
is cancelled. -/
def Stops (g : Guard ε) (attempts : Nat) (seen : List (Outcome α ε)) (o : Outcome α ε) : Prop :=
  seen.length ≤ attempts ∧ ∃ earlier last, seen = earlier ++ [last] ∧ (∀ x ∈ earlier, g.Retryable x) ∧
    ((o = last ∧ (g.Retryable last → seen.length = attempts)) ∨
      (o = .cancelled ∧ g.Retryable last ∧ seen.length < attempts))

theorem Stops.cons {g : Guard ε} {attempts : Nat} {seen : List (Outcome α ε)} {o x : Outcome α ε}
    (h : g.Stops attempts seen o) (hx : g.Retryable x) : g.Stops (attempts + 1) (x :: seen) o := by
  obtain ⟨hle, earlier, last, rfl, hearlier, hlast⟩ := h
  refine ⟨Nat.succ_le_succ hle, x :: earlier, last, rfl, ?_, ?_⟩
  · intro y hy
    rcases List.mem_cons.mp hy with rfl | hy
    · exact hx
    · exact hearlier y hy
  · rcases hlast with ⟨ho, hlen⟩ | ⟨ho, hr, hlen⟩
    · exact .inl ⟨ho, fun hr => by rw [List.length_cons, hlen hr]⟩
    · exact .inr ⟨ho, hr, Nat.succ_lt_succ hlen⟩

theorem Stops.one {g : Guard ε} {attempts : Nat} {o : Outcome α ε} (hle : 1 ≤ attempts)
    (h : g.Retryable o → attempts = 1) : g.Stops attempts [o] o :=
  ⟨hle, [], o, rfl, by simp, .inl ⟨rfl, fun hr => (h hr).symm⟩⟩

/-- The events of the retry loop are attempts and sleeps: the breaker is left alone. -/
structure Quiet (w w' : GuardWorld CircuitBreaker) (trace : List (GuardEvent α ε κ)) : Prop where
  breaker : w'.breaker = w.breaker
  reports : trace.filterMap GuardEvent.report = []

theorem Quiet.nil (w : GuardWorld CircuitBreaker) : Quiet w w ([] : List (GuardEvent α ε κ)) := ⟨rfl, rfl⟩

theorem Quiet.cons {w w₁ w₂ : GuardWorld CircuitBreaker} {c : GuardCall κ} {r : c.Reply α ε}
    {trace : List (GuardEvent α ε κ)} (hw : w₁.breaker = w.breaker)
    (hc : GuardEvent.report (w₁, ⟨c, r⟩) = none) (h : Quiet w₁ w₂ trace) :
    Quiet w w₂ ((w₁, ⟨c, r⟩) :: trace) :=
  ⟨h.breaker.trans hw, by rw [List.filterMap_cons, hc]; exact h.reports⟩

section

variable {g : Guard ε} {op : κ} {name : Text} {w w' : GuardWorld CircuitBreaker} {o : Outcome α ε}
  {trace : List (GuardEvent α ε κ)}

/-- What the retry loop saw of its attempts. -/
def seenIn (g : Guard ε) (name : Text) (trace : List (GuardEvent α ε κ)) : List (Outcome α ε) :=
  (trace.filterMap GuardEvent.outcome).map (g.seen name)

theorem retryLoop_traced {attempts left : Nat} {baseDelay maxDelay : ℚ} {last : Option (Exc ε)}
    (hleft : left + 1 ≤ attempts) (h : Prog.Traced breakerOps.exec w
      (retryLoop (g.attempt op name) attempts baseDelay maxDelay g.retryOn (left + 1) last) trace o w') :
    Quiet w w' trace ∧ g.Stops (left + 1) (g.seenIn name trace) o := by
  induction left generalizing w trace last with
  | zero =>
    rw [retryLoop_succ] at h
    obtain ⟨e, x, w₁, rest, hexec, rfl, hrest⟩ := Prog.traced_call_iff.mp h
    have hbreaker : w₁.breaker = w.breaker :=
      (congrArg Prod.snd (BreakerOps.exec_eq_some_iff.mp hexec).2.1).symm
    have hlast : ¬attempts - (0 + 1) < attempts - 1 := by omega
    -- whatever the only attempt comes to, the loop ends with it
    have hend : rest = [] ∧ o = g.seen name x ∧ w' = w₁ := by
      cases hx : g.seen name x with
      | returned a => simpa [hx, Prog.traced_ret_iff] using hrest
      | cancelled => simpa [hx, Prog.traced_ret_iff] using hrest
      | raised exc =>
        by_cases hr : g.retryOn exc = true
        · simpa [hx, hr, hlast, retryLoop, Prog.traced_ret_iff] using hrest
        · simpa [hx, hr, Prog.traced_ret_iff] using hrest
    obtain ⟨rfl, rfl, rfl⟩ := hend
    exact ⟨.cons hbreaker rfl (.nil w'), .one le_rfl fun _ => rfl⟩
  | succ left ih =>
    rw [retryLoop_succ] at h
    obtain ⟨e, x, w₁, rest, hexec, rfl, hrest⟩ := Prog.traced_call_iff.mp h
    have hbreaker : w₁.breaker = w.breaker :=
      (congrArg Prod.snd (BreakerOps.exec_eq_some_iff.mp hexec).2.1).symm
    have hsleeps : attempts - (left + 1 + 1) < attempts - 1 := by omega
    by_cases hr : g.Retryable (g.seen name x)
    · obtain ⟨exc, hx, hretry⟩ := id hr
      simp only [hx, hretry, if_true, hsleeps] at hrest
      obtain ⟨e', slept, w₂, later, hexec', rfl, hlater⟩ := Prog.traced_call_iff.mp hrest
      have hbreaker' : w₂.breaker = w₁.breaker :=
        (congrArg Prod.snd (BreakerOps.exec_eq_some_iff.mp hexec').2.1).symm
      cases slept with
      | true =>
        rw [if_pos rfl] at hlater
        obtain ⟨hquiet, hstops⟩ := ih (by omega) hlater
        exact ⟨.cons hbreaker rfl (.cons hbreaker' rfl hquiet), hstops.cons hr⟩
      | false =>
        obtain ⟨rfl, rfl, rfl⟩ := Prog.traced_ret_iff.mp hlater
        refine ⟨.cons hbreaker rfl (.cons hbreaker' rfl (.nil w')), Nat.succ_le_succ (Nat.zero_le _), [],
          g.seen name x, rfl, by simp, .inr ?_⟩
        exact ⟨rfl, hr, Nat.succ_lt_succ (Nat.succ_pos left)⟩
    · have hend : rest = [] ∧ o = g.seen name x ∧ w' = w₁ := by
        cases hx : g.seen name x with
        | returned a => simpa [hx, Prog.traced_ret_iff] using hrest
        | cancelled => simpa [hx, Prog.traced_ret_iff] using hrest
        | raised exc =>
          have hno : ¬g.retryOn exc = true := fun hretry => hr ⟨exc, hx, hretry⟩
          simpa [hx, hno, Prog.traced_ret_iff] using hrest
      obtain ⟨rfl, rfl, rfl⟩ := hend
      exact ⟨.cons hbreaker rfl (.nil w'), .one (by omega) fun hr' => absurd hr' hr⟩

theorem retryAsync_traced {baseDelay maxDelay : ℚ} (hattempts : 1 ≤ g.attempts)
    (h : Prog.Traced breakerOps.exec w
      (retryAsync (g.attempt op name) g.attempts baseDelay maxDelay g.retryOn) trace o w') :
    Quiet w w' trace ∧ g.Stops g.attempts (g.seenIn name trace) o := by
  obtain ⟨left, hleft⟩ : ∃ left, g.attempts = left + 1 := ⟨g.attempts - 1, by omega⟩
  have hno : ¬left + 1 < 1 := by omega
  rw [retryAsync, hleft, if_neg hno] at h
  rw [hleft]
  exact retryLoop_traced le_rfl h

end

end Reliability.Guard

/-! The breaker after the reports it got. -/

namespace Reliability.CircuitBreaker

def report (b : CircuitBreaker) : Report ℚ → CircuitBreaker
  | .success => b.onSuccess
  | .failure t => b.onFailure t

/-- The state after `reports`, starting closed. -/
structure After (threshold : Nat) (cooldown : ℚ) (reports : List (Report ℚ)) (b : CircuitBreaker) : Prop where
  limit : b.threshold = threshold
  wait : b.resetAfter = cooldown
  tally : (⟨b.failures, b.openedAt⟩ : Streak.Tally ℚ) = Streak.tally threshold reports

variable {threshold : Nat} {cooldown : ℚ} {reports : List (Report ℚ)} {b : CircuitBreaker}

theorem After.fresh (name : Text) (threshold : Nat) (cooldown : ℚ) :
    After threshold cooldown [] ⟨name, threshold, cooldown, 0, none⟩ :=
  ⟨rfl, rfl, (Streak.tally_nil threshold).symm⟩

theorem After.concat (h : After threshold cooldown reports b) (r : Report ℚ) :
    After threshold cooldown (reports ++ [r]) (b.report r) := by
  have htally := congrArg (fun s => s.report threshold r) h.tally
  rw [← Streak.tally_concat] at htally
  cases r with
  | success => exact ⟨h.limit, h.wait, htally⟩
  | failure t =>
    refine ⟨h.limit, h.wait, ?_⟩
    rw [← htally]
    simp only [report, onFailure, Streak.Tally.report, h.limit]

theorem After.append (h : After threshold cooldown reports b) (more : List (Report ℚ)) :
    After threshold cooldown (reports ++ more) (more.foldl report b) := by
  induction more generalizing reports b with
  | nil => simpa using h
  | cons r more ih => simpa using ih (h.concat r)

/-- The breaker rejects while the reports keep it locked. -/
theorem After.rejects_iff (h : After threshold cooldown reports b) (now : ℚ) :
    b.beforeCall now = .rejected ↔ Locked threshold cooldown reports now := by
  have hsince : Streak.lockedSince threshold reports = b.openedAt := (congrArg Streak.Tally.since h.tally).symm
  rw [Streak.locked_iff, hsince]
  cases ho : b.openedAt with
  | none => simp [beforeCall_of_closed ho]
  | some t =>
    rw [beforeCall_of_opened ho, h.wait]
    by_cases hc : cooldown ≤ now - t
    · simp [hc, not_lt.mpr hc]
    · simp [hc, not_le.mp hc]

end Reliability.CircuitBreaker

namespace Reliability.Guard

/-- The reports of a call that ends with `o` at `t`. -/
def reportsOf (t : ℚ) : Outcome α ε → List (Report ℚ)
  | .returned _ => [.success]
  | .raised _ => [.failure t]
  | .cancelled => []

section

variable {g : Guard ε} {op : κ} {name : Text} {w w' : GuardWorld CircuitBreaker}
  {trace : List (GuardEvent α ε κ)} {result : CallResult α ε}

theorem clock_getLast {β : Type} {p : GuardProg α ε κ β} {b : β}
    (h : Prog.Traced breakerOps.exec w p trace b w') :
    (trace.getLast?.map (·.1.clock)).getD w.clock = w'.clock := by
  induction h with
  | ret => rfl
  | @call w w₁ w' c k r a trace e he h ih =>
    rw [List.getLast?_cons]
    cases hl : trace.getLast? with
    | none => simpa [hl] using ih
    | some x => simpa [hl] using ih

theorem seenIn_append_report {x : GuardEvent α ε κ} (hx : x.outcome = none) :
    g.seenIn name (trace ++ [x]) = g.seenIn name trace := by
  have hnone : [x].filterMap GuardEvent.outcome = [] := by rw [List.filterMap_cons, hx, List.filterMap_nil]
  rw [seenIn, List.filterMap_append, hnone, List.append_nil, seenIn]

theorem admitted_traced {breaker : Text} (hbreaker : g.breaker = some breaker) (hattempts : 1 ≤ g.attempts)
    (h : Prog.Traced breakerOps.exec w (g.admitted op name) trace result w') :
    ∃ o, result = .ended o ∧ g.Stops g.attempts (g.seenIn name trace) o ∧
      trace.filterMap GuardEvent.report = reportsOf w'.clock o ∧
      w'.breaker = (reportsOf w'.clock o).foldl CircuitBreaker.report w.breaker := by
  obtain ⟨loop, o, w₁, rest, rfl, hloop, hrest⟩ := Prog.traced_bind_iff.mp h
  obtain ⟨hquiet, hstops⟩ := retryAsync_traced hattempts hloop
  refine ⟨o, ?_⟩
  cases o with
  | cancelled =>
    obtain ⟨rfl, rfl, rfl⟩ := Prog.traced_ret_iff.mp hrest
    rw [List.append_nil]
    exact ⟨rfl, hstops, hquiet.reports, hquiet.breaker⟩
  | raised exc =>
    simp only [hbreaker, Option.isSome_some, if_true] at hrest
    obtain ⟨e, r, w₂, last, hexec, rfl, hret⟩ := Prog.traced_call_iff.mp hrest
    obtain ⟨rfl, rfl, rfl⟩ := Prog.traced_ret_iff.mp hret
    obtain ⟨_, hanswer, hclock⟩ := BreakerOps.exec_eq_some_iff.mp hexec
    refine ⟨rfl, ?_, ?_, ?_⟩
    · rw [seenIn_append_report rfl]
      exact hstops
    · rw [List.filterMap_append, hquiet.reports]
      rfl
    · rw [← hquiet.breaker, hclock]
      exact (congrArg Prod.snd hanswer).symm
  | returned a =>
    simp only [hbreaker, Option.isSome_some, if_true] at hrest
    obtain ⟨e, r, w₂, last, hexec, rfl, hret⟩ := Prog.traced_call_iff.mp hrest
    obtain ⟨rfl, rfl, rfl⟩ := Prog.traced_ret_iff.mp hret
    obtain ⟨_, hanswer, _⟩ := BreakerOps.exec_eq_some_iff.mp hexec
    refine ⟨rfl, ?_, ?_, ?_⟩
    · rw [seenIn_append_report rfl]
      exact hstops
    · rw [List.filterMap_append, hquiet.reports]
      rfl
    · rw [← hquiet.breaker]
      exact (congrArg Prod.snd hanswer).symm

theorem call_traced {breaker : Text} (hbreaker : g.breaker = some breaker)
    (h : Prog.Traced breakerOps.exec w (g.call op name) trace result w') :
    ∃ t rest, trace = (⟨w.breaker, t⟩, ⟨.beforeCall, w.breaker.beforeCall t⟩) :: rest ∧
      ((w.breaker.beforeCall t = .rejected ∧ rest = [] ∧ w' = ⟨w.breaker, t⟩ ∧ ∃ e, result = .rejected e) ∨
        (w.breaker.beforeCall t ≠ .rejected ∧
          Prog.Traced breakerOps.exec ⟨w.breaker, t⟩ (g.admitted op name) rest result w')) := by
  rw [call, hbreaker] at h
  obtain ⟨e, admission, w₁, rest, hexec, rfl, hrest⟩ := Prog.traced_call_iff.mp h
  obtain ⟨_, hanswer, hclock⟩ := BreakerOps.exec_eq_some_iff.mp hexec
  obtain ⟨b, t⟩ := w₁
  obtain rfl : t = e.now := hclock
  obtain ⟨hadmission, hb⟩ := Prod.mk.injEq .. ▸ hanswer
  have hb' : w.breaker = b := hb
  have hadmission' : w.breaker.beforeCall e.now = admission := hadmission
  subst hb'
  refine ⟨e.now, rest, by rw [hadmission'], ?_⟩
  cases admission with
  | rejected =>
    obtain ⟨rfl, rfl, rfl⟩ := Prog.traced_ret_iff.mp hrest
    exact .inl ⟨hadmission', rfl, rfl, _, rfl⟩
  | closed => exact .inr ⟨by rw [hadmission']; simp, hrest⟩
  | probe => exact .inr ⟨by rw [hadmission']; simp, hrest⟩

end

/-- What a call through `g` comes to when the breaker has got `reports` so far. -/
structure Obeys (g : Guard ε) (threshold : Nat) (cooldown : ℚ) (reports : List (Report ℚ))
    (c : CallRecord α ε κ) : Prop where
  rejected : c.rejected = true → c.outcomes = [] ∧ c.reports = []
  admitted : ∀ o, c.result = .ended o → g.Stops g.attempts (c.outcomes.map (g.seen c.name)) o
  reported : ∀ o, c.result = .ended o → c.reports = reportsOf c.ended o
  decides : c.rejected = true ↔ Locked threshold cooldown reports c.started

theorem call_obeys {g : Guard ε} {breaker : Text} (hbreaker : g.breaker = some breaker)
    (hattempts : 1 ≤ g.attempts) {threshold : Nat} {cooldown : ℚ} {reports : List (Report ℚ)}
    {w w' : GuardWorld CircuitBreaker} (hw : CircuitBreaker.After threshold cooldown reports w.breaker)
    {c : CallRecord α ε κ} (h : Prog.Traced breakerOps.exec w (g.call c.op c.name) c.trace c.result w') :
    g.Obeys threshold cooldown reports c ∧
      CircuitBreaker.After threshold cooldown (reports ++ c.reports) w'.breaker := by
  obtain ⟨op, name, trace, result⟩ := c
  have hended : (trace.getLast?.map (·.1.clock)).getD w.clock = w'.clock := clock_getLast h
  obtain ⟨t, rest, rfl, hcases⟩ := call_traced hbreaker h
  have hstarted : w.breaker.beforeCall t = .rejected ↔ Locked threshold cooldown reports t := hw.rejects_iff t
  rcases hcases with ⟨hno, rfl, rfl, e, rfl⟩ | ⟨hyes, hrest⟩
  · refine ⟨⟨fun _ => ⟨rfl, rfl⟩, fun o ho => ?_, fun o ho => ?_, ?_⟩, ?_⟩
    · cases ho
    · cases ho
    · exact iff_of_true rfl (hstarted.mp hno)
    · show CircuitBreaker.After threshold cooldown (reports ++ []) w.breaker
      rwa [List.append_nil]
  · obtain ⟨o, rfl, hstops, hreports, hafter⟩ := admitted_traced hbreaker hattempts hrest
    have hclock : (⟨op, name, (⟨w.breaker, t⟩, ⟨.beforeCall, w.breaker.beforeCall t⟩) :: rest, .ended o⟩ :
        CallRecord α ε κ).ended = w'.clock := by
      rw [← hended, CallRecord.ended, List.getLast?_cons]
      rfl
    refine ⟨⟨fun hr => ?_, fun o' ho => ?_, fun o' ho => ?_, ?_⟩, ?_⟩
    · cases hr
    · obtain rfl := CallResult.ended.inj ho
      exact hstops
    · obtain rfl := CallResult.ended.inj ho
      rw [hclock]
      exact hreports
    · refine iff_of_false (by simp [CallRecord.rejected]) fun hl => hyes (hstarted.mpr hl)
    · have hh := hw.append (reportsOf w'.clock o)
      rw [← hafter, ← hreports] at hh
      exact hh

/-- The report of a counted call. -/
def verdict (c : CallRecord α ε κ) : Report ℚ := if c.failed then .failure c.ended else .success

theorem Obeys.reports_eq {g : Guard ε} {threshold : Nat} {cooldown : ℚ} {reports : List (Report ℚ)}
    {c : CallRecord α ε κ} (h : g.Obeys threshold cooldown reports c) :
    c.reports = if c.counted then [verdict c] else [] := by
  obtain ⟨op, name, trace, result⟩ := c
  cases result with
  | rejected e => exact (h.rejected rfl).2
  | ended o =>
    rw [h.reported o rfl]
    cases o <;> rfl

section

variable {g : Guard ε} {breaker : Text} {threshold : Nat} {cooldown start : ℚ}
  {history : List (CallRecord α ε κ)} {w : GuardWorld CircuitBreaker}

theorem History.after (hbreaker : g.breaker = some breaker) (hattempts : 1 ≤ g.attempts)
    (h : g.History ⟨⟨breaker, threshold, cooldown, 0, none⟩, start⟩ history w) :
    CircuitBreaker.After threshold cooldown ((history.filter CallRecord.counted).map verdict) w.breaker ∧
      ∀ before c later, history = before ++ c :: later →
        g.Obeys threshold cooldown ((before.filter CallRecord.counted).map verdict) c := by
  induction h with
  | nil => exact ⟨.fresh breaker threshold cooldown, fun before c later he => by simp at he⟩
  | @call history w₁ w₂ op name trace result _ htrace ih =>
    obtain ⟨hw, hold⟩ := ih
    obtain ⟨hobeys, hafter⟩ := call_obeys (c := ⟨op, name, trace, result⟩) hbreaker hattempts hw htrace
    constructor
    · rw [hobeys.reports_eq] at hafter
      rw [List.filter_append, List.map_append, List.filter_singleton]
      cases hc : CallRecord.counted ⟨op, name, trace, result⟩ with
      | true =>
        rw [hc] at hafter
        exact hafter
      | false =>
        rw [hc] at hafter
        exact hafter
    · intro before c later hsplit
      rcases List.eq_nil_or_concat later with rfl | ⟨later, last, rfl⟩
      · obtain ⟨rfl, he⟩ := List.append_inj' hsplit rfl
        obtain rfl := List.singleton_inj.mp he
        exact hobeys
      · have hsplit' : history ++ [⟨op, name, trace, result⟩] = (before ++ c :: later) ++ [last] := by
          rw [hsplit]
          simp
        exact hold before c later (List.append_inj' hsplit' rfl).1

end

/-! A call that fails twice and opens the breaker, and one that is rejected. -/

end Reliability.Guard

end AiPrReview
