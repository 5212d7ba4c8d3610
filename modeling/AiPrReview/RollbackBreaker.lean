import AiPrReview.GuardAgreement
import AiPrReview.GuardDiscipline
import AiPrReview.Webhook

/-! Webhook requests that share one job queue: whether the breaker lets the
rollback of a claim through, after the failures that made it necessary. -/

namespace AiPrReview

open Streak (Report Locked)

/-- A call, and what was replied. -/
abbrev QueueEvent : Type := Sigma QueueCall.Reply

/-- An operation raises: its status write, or its enqueue, which the breaker may reject. -/
def QueueEvent.raisesOp : QueueEvent → Bool
  | ⟨.beforeCall (.enqueue _), admitted⟩ => !(admitted : Bool)
  | ⟨.onFailure (.enqueue _), _⟩ => true
  | ⟨.markPending _, reply⟩ => (reply : Option Unit).isNone
  | _ => false

/-- A DELETE for the claim of `d` goes out to Redis. -/
def QueueEvent.deletes (d : Text) : QueueEvent → Bool
  | ⟨.command (.delete d'), _⟩ => d' = d
  | _ => false

/-- The breaker does not reject a DELETE. -/
def QueueEvent.letsRollBack : QueueEvent → Bool
  | ⟨.beforeCall (.delete _), admitted⟩ => admitted
  | _ => true

/-! What a request says. -/

theorem withRetry_talks {cmd : RedisCommand} {attempts : Nat} {talk : List QueueEvent} {r : Option Bool}
    (h : (withRetry cmd attempts).Talks talk (.ret r)) :
    (∀ x ∈ talk, ∃ reply, x = ⟨.command cmd, reply⟩) ∧ (0 < attempts → talk ≠ []) := by
  induction attempts generalizing talk with
  | zero =>
    obtain ⟨rfl, _⟩ := Prog.talks_ret_iff.mp h
    exact ⟨by simp, fun hlt => absurd hlt (lt_irrefl 0)⟩
  | succ n ih =>
    obtain ⟨reply, rest, rfl, hrest⟩ := Prog.talks_call_ret_iff.mp h
    refine ⟨fun x hx => ?_, fun _ => by simp⟩
    rcases List.mem_cons.mp hx with rfl | hmem
    · exact ⟨reply, rfl⟩
    · cases (reply : Option Bool) with
      | some b =>
        obtain ⟨rfl, _⟩ := Prog.talks_ret_iff.mp hrest
        simp at hmem
      | none => exact (ih hrest).1 x hmem

/-- A guarded command is rejected, or it is tried and its result is reported. -/
theorem guarded_talks {cmd : RedisCommand} {talk : List QueueEvent} {r : Option Bool}
    (h : (guarded cmd).Talks talk (.ret r)) :
    (talk = [⟨.beforeCall cmd, false⟩] ∧ r = none) ∨
      ∃ tries, tries ≠ [] ∧ (∀ x ∈ tries, ∃ reply, x = (⟨.command cmd, reply⟩ : QueueEvent)) ∧
        ((r = none ∧ talk = ⟨.beforeCall cmd, true⟩ :: tries ++ [⟨.onFailure cmd, ()⟩]) ∨
          (r.isSome = true ∧ talk = ⟨.beforeCall cmd, true⟩ :: tries ++ [⟨.onSuccess cmd, ()⟩])) := by
  obtain ⟨admitted, rest, rfl, hrest⟩ := Prog.talks_call_ret_iff.mp h
  cases (admitted : Bool) with
  | false =>
    obtain ⟨rfl, hr⟩ := Prog.talks_done_iff.mp hrest
    exact .inl ⟨rfl, hr⟩
  | true =>
    obtain ⟨tries, a, last, rfl, htries, hlast⟩ := Prog.talks_bind_ret_iff.mp hrest
    obtain ⟨hall, hne⟩ := withRetry_talks htries
    refine .inr ⟨tries, hne (by decide), hall, ?_⟩
    cases a with
    | none =>
      obtain ⟨_, rfl, hr⟩ := Prog.talks_last_iff.mp hlast
      exact .inl ⟨hr, rfl⟩
    | some b =>
      obtain ⟨_, rfl, rfl⟩ := Prog.talks_last_iff.mp hlast
      exact .inr ⟨rfl, rfl⟩

theorem enqueueJob_talks {job : Job} {talk : List QueueEvent} {r : Option Bool}
    (h : (enqueueJob job).Talks talk (.ret r)) : talk.any QueueEvent.raisesOp = r.isNone := by
  have htries : ∀ tries : List QueueEvent, (∀ x ∈ tries, ∃ reply, x = (⟨.command (.enqueue job), reply⟩ : QueueEvent)) →
      tries.any QueueEvent.raisesOp = false := by
    intro tries hall
    rw [List.any_eq_false]
    intro x hx
    obtain ⟨reply, rfl⟩ := hall x hx
    simp [QueueEvent.raisesOp]
  rcases guarded_talks h with ⟨rfl, rfl⟩ | ⟨tries, _, hall, ⟨rfl, rfl⟩ | ⟨hr, rfl⟩⟩
  · rfl
  · simp [htries tries hall, QueueEvent.raisesOp]
  · rw [← Option.not_isSome, hr]
    simp [htries tries hall, QueueEvent.raisesOp]

theorem opRun_talks {op : EnqueueOp} {talk : List QueueEvent} {r : Option Bool}
    (h : op.run.Talks talk (.ret r)) : talk.any QueueEvent.raisesOp = r.isNone := by
  unfold EnqueueOp.run at h
  cases hp : op.pendingRepo with
  | none =>
    rw [hp] at h
    exact enqueueJob_talks h
  | some repo =>
    rw [hp] at h
    obtain ⟨reply, rest, rfl, hrest⟩ := Prog.talks_call_ret_iff.mp h
    cases (reply : Option Unit) with
    | none =>
      obtain ⟨rfl, rfl⟩ := Prog.talks_done_iff.mp hrest
      rfl
    | some u =>
      have hh := enqueueJob_talks hrest
      rw [List.any_cons, hh]
      rfl

theorem runOps_talks {ops : List EnqueueOp} {talk : List QueueEvent} {r : Option Unit}
    (h : (runOps ops).Talks talk (.ret r)) : talk.any QueueEvent.raisesOp = r.isNone := by
  induction ops generalizing talk with
  | nil =>
    obtain ⟨rfl, rfl⟩ := Prog.talks_done_iff.mp h
    rfl
  | cons op ops ih =>
    obtain ⟨first, a, rest, rfl, hfirst, hrest⟩ := Prog.talks_bind_ret_iff.mp h
    rw [List.any_append, opRun_talks hfirst]
    cases a with
    | none =>
      obtain ⟨rfl, rfl⟩ := Prog.talks_done_iff.mp hrest
      rfl
    | some b => exact ih hrest

theorem markSeen_talks {d : Text} {talk : List QueueEvent} {r : Option Bool}
    (h : (markSeen d).Talks talk (.ret r)) : talk.any QueueEvent.raisesOp = false := by
  rw [List.any_eq_false]
  intro x hx
  rcases guarded_talks h with ⟨rfl, _⟩ | ⟨tries, _, hall, ⟨_, rfl⟩ | ⟨_, rfl⟩⟩
  · rw [List.mem_singleton.mp hx]
    simp [QueueEvent.raisesOp]
  all_goals
    rcases List.mem_append.mp hx with hx | hx
    · rcases List.mem_cons.mp hx with rfl | hx
      · simp [QueueEvent.raisesOp]
      · obtain ⟨reply, rfl⟩ := hall x hx
        simp [QueueEvent.raisesOp]
    · rw [List.mem_singleton.mp hx]
      simp [QueueEvent.raisesOp]

theorem unclaim_talks {d : Text} {talk : List QueueEvent} {r : Option Bool}
    (h : (unclaim d).Talks talk (.ret r)) (hlets : ∀ x ∈ talk, QueueEvent.letsRollBack x = true) :
    talk.any (QueueEvent.deletes d) = true := by
  rcases guarded_talks h with ⟨rfl, _⟩ | ⟨tries, hne, hall, ⟨_, rfl⟩ | ⟨_, rfl⟩⟩
  · have hno := hlets ⟨.beforeCall (.delete d), false⟩ (by simp)
    cases hno
  all_goals
    obtain ⟨x, hx⟩ := List.exists_mem_of_ne_nil tries hne
    obtain ⟨reply, rfl⟩ := hall x hx
    rw [List.any_eq_true]
    exact ⟨_, List.mem_append_left _ (List.mem_cons_of_mem _ hx), by simp [QueueEvent.deletes]⟩

/-- A request whose operation raised asks the breaker for its rollback, and tries
the DELETE if it is let through. -/
theorem receiveWebhook_talks {d : Text} {event : WebhookEvent} {talk : List QueueEvent} {r : Response}
    (h : (receiveWebhook d event).Talks talk (.ret r)) (hraises : talk.any QueueEvent.raisesOp = true)
    (hlets : ∀ x ∈ talk, QueueEvent.letsRollBack x = true) : talk.any (QueueEvent.deletes d) = true := by
  unfold receiveWebhook at h
  cases hops : buildEnqueueOps d event with
  | none =>
    rw [hops] at h
    obtain ⟨rfl, _⟩ := Prog.talks_ret_iff.mp h
    simp at hraises
  | some ops =>
    rw [hops] at h
    obtain ⟨claim, isNew, rest, rfl, hclaim, hrest⟩ := Prog.talks_bind_ret_iff.mp h
    rw [List.any_append, markSeen_talks hclaim, Bool.false_or] at hraises
    obtain rfl | ⟨rfl, hclaimed⟩ : rest = [] ∨ isNew = some true ∧ (afterClaim d ops).Talks rest (.ret r) := by
      rcases isNew with _ | (_ | _)
      · exact .inl (Prog.talks_ret_iff.mp hrest).1
      · exact .inl (Prog.talks_ret_iff.mp hrest).1
      · exact .inr ⟨rfl, hrest⟩
    · simp at hraises
    obtain ⟨run, result, rollback, rfl, hrun, hrollback⟩ := Prog.talks_bind_ret_iff.mp hclaimed
    rw [List.any_append, runOps_talks hrun] at hraises
    cases result with
    | some u =>
      obtain ⟨rfl, _⟩ := Prog.talks_ret_iff.mp hrollback
      simp at hraises
    | none =>
      obtain ⟨deleting, _, last, rfl, hdeleting, _⟩ := Prog.talks_bind_ret_iff.mp hrollback
      have hdelete := unclaim_talks hdeleting fun x hx => hlets x (by simp [hx])
      rw [List.any_append, List.any_append, List.any_append, hdelete]
      simp

/-! The requests on their queue. The second part of the world is what the breaker
was told so far. -/

def QueueCall.report (now : ℚ) : QueueCall → List (Report ℚ)
  | onSuccess _ => [.success]
  | onFailure _ => [.failure now]
  | _ => []

/-- One process: nothing but the requests of the pool reports to the breaker. -/
def sharedQueue : Host QueueCall.Reply Fate (QueueWorld × List (Report ℚ)) where
  exec c e w := (c.exec e w.1).map fun x => (x.1, (x.2, w.2 ++ c.report w.1.clock))
  retries _ := false
  drift w w' := queueHost.drift w.1 w'.1 ∧ w'.1.breaker = w.1.breaker ∧ w'.2 = w.2

/-- A request that still knows its delivery when it is answered. -/
def webhookRequest (p : QueueProg (Text × Response)) : Prop :=
  ∃ d event, p = receiveWebhook d event >>= fun response => .ret (d, response)

theorem webhookRequest_talks {p : QueueProg (Text × Response)} {talk : List QueueEvent} {d : Text} {r : Response}
    (hp : webhookRequest p) (h : p.Talks talk (.ret (d, r))) (hraises : talk.any QueueEvent.raisesOp = true)
    (hlets : ∀ x ∈ talk, QueueEvent.letsRollBack x = true) : talk.any (QueueEvent.deletes d) = true := by
  obtain ⟨d', event, rfl⟩ := hp
  obtain ⟨first, response, rest, rfl, hfirst, hrest⟩ := Prog.talks_bind_ret_iff.mp h
  obtain ⟨rfl, hr⟩ := Prog.talks_done_iff.mp hrest
  obtain ⟨rfl, rfl⟩ := Prod.mk.injEq .. ▸ hr
  rw [List.append_nil] at hraises hlets ⊢
  exact receiveWebhook_talks hfirst hraises hlets

/-- The breaker is where its reports took it. -/
def BreakerTold (w : QueueWorld × List (Report ℚ)) : Prop :=
  Reliability.CircuitBreaker.After 3 30 w.2 (w.1.breaker.toReliability [])

theorem BreakerTold.admits_iff {w : QueueWorld × List (Report ℚ)} (hw : BreakerTold w) (now : ℚ) :
    w.1.breaker.admits now = true ↔ ¬Locked 3 30 w.2 now := by
  have hagree : (w.1.breaker.toReliability []).beforeCall now = w.1.breaker.beforeCall now :=
    (queue_breaker_agrees []).beforeCall w.1.breaker now
  rw [CircuitBreaker.admits_eq, decide_eq_true_iff, ← hw.rejects_iff now, hagree]

theorem RedisCommand.run_breaker (cmd : RedisCommand) (w : QueueWorld) : (cmd.run w).2.breaker = w.breaker := by
  cases cmd with
  | setNx d =>
    simp only [run]
    split_ifs <;> rfl
  | delete d => rfl
  | enqueue job => rfl

theorem breakerTold_exec {c : QueueCall} {e : Fate} {w w' : QueueWorld × List (Report ℚ)} {r : c.Reply}
    (hw : BreakerTold w) (h : sharedQueue.exec c e w = some (r, w')) : BreakerTold w' := by
  obtain ⟨⟨r', v⟩, hexec, hx⟩ := Option.map_eq_some_iff.mp h
  obtain ⟨rfl, rfl⟩ := Prod.mk.injEq .. ▸ hx
  have hsame : ∀ v : QueueWorld, v.breaker = w.1.breaker → BreakerTold (v, w.2 ++ []) := by
    intro v hv
    rw [BreakerTold, List.append_nil, hv]
    exact hw
  cases c with
  | beforeCall cmd => cases e <;> cases hexec; exact hsame _ rfl
  | command cmd => cases e <;> cases hexec <;> exact hsame _ (by simp only [RedisCommand.run_breaker])
  | onSuccess cmd => cases e <;> cases hexec; exact hw.concat .success
  | onFailure cmd => cases e <;> cases hexec; exact hw.concat (.failure w.1.clock)
  | markPending repo => cases e <;> cases hexec <;> exact hsame _ rfl

def startsRollback {α : Type} (s : Pool (QueueWorld × List (Report ℚ)) (QueueProg α)) : Label → Bool
  | .reply i =>
    match s.threads[i]? with
    | some (.running (.call (.beforeCall (.delete _)) _)) => true
    | _ => false
  | _ => false

/-- Where a rollback starts, the latest reports are not three failures in a row,
or the last of them is thirty seconds old. -/
def RollbackUnlocked {α : Type} (s : Pool (QueueWorld × List (Report ℚ)) (QueueProg α)) (l : Label) : Prop :=
  startsRollback s l = true → ¬Locked 3 30 s.world.2 s.world.1.clock

instance {α : Type} {s : Pool (QueueWorld × List (Report ℚ)) (QueueProg α)} {l : Label} :
    Decidable (RollbackUnlocked s l) :=
  inferInstanceAs (Decidable (_ → _))

theorem letsRollBack_of_unlocked {α : Type} {s : Pool (QueueWorld × List (Report ℚ)) (QueueProg α)} {i : Nat}
    {c : QueueCall} {k : c.Reply → QueueProg α} {e : Fate} {r : c.Reply} {w' : QueueWorld × List (Report ℚ)}
    (hw : BreakerTold s.world) (hc : RollbackUnlocked s (.reply i))
    (hat : s.threads[i]? = some (.running (.call c k))) (h : sharedQueue.exec c e s.world = some (r, w')) :
    QueueEvent.letsRollBack ⟨c, r⟩ = true := by
  cases c with
  | beforeCall cmd =>
    cases cmd with
    | delete d =>
      have hfree : ¬Locked 3 30 s.world.2 s.world.1.clock := hc (by simp only [startsRollback, hat])
      obtain ⟨⟨r', v⟩, hexec, hx⟩ := Option.map_eq_some_iff.mp h
      obtain ⟨rfl, rfl⟩ := Prod.mk.injEq .. ▸ hx
      cases e <;> cases hexec
      exact (hw.admits_iff _).mpr hfree
    | setNx d => rfl
    | enqueue job => rfl
  | command cmd => rfl
  | onSuccess cmd => rfl
  | onFailure cmd => rfl
  | markPending repo => rfl

theorem requests_recorded {w : QueueWorld} (hw : w.breaker = .fresh) {cond}
    {s : Pool (QueueWorld × List (Report ℚ)) (QueueProg (List QueueEvent × Text × Response))}
    {Q : QueueEvent → Prop}
    (hreply : ∀ (s : Pool (QueueWorld × List (Report ℚ)) (QueueProg (List QueueEvent × Text × Response)))
      i c k e r w', BreakerTold s.world → cond s (.reply i) →
        s.threads[i]? = some (.running (.call c k)) → sharedQueue.exec c e s.world = some (r, w') → Q ⟨c, r⟩)
    (h : sharedQueue.Run (fun p => ∃ q, webhookRequest q ∧ p = q.recording []) cond ⟨(w, []), []⟩ s) :
    BreakerTold s.world ∧ ∀ t ∈ s.threads, t.Recorded webhookRequest Q := by
  have hstart : BreakerTold (w, []) := by
    rw [BreakerTold, hw]
    exact .fresh [] 3 30
  refine h.recorded (fun c e w r w' hJ he => breakerTold_exec hJ he) (fun w w' hJ hd => ?_) hreply
    ⟨hstart, by simp⟩
  rw [BreakerTold, hd.2.1, hd.2.2]
  exact hJ

/-- While no rollback starts under the lock: every answered request with an
operation that raised has sent its DELETE. The breaker lets a rollback through
exactly when the lock is open. -/
theorem rollback_reaches_redis {w : QueueWorld} (hw : w.breaker = .fresh) :
    (∀ s : Pool (QueueWorld × List (Report ℚ)) (QueueProg (List QueueEvent × Text × Response)),
      sharedQueue.Run (fun p => ∃ q, webhookRequest q ∧ p = q.recording []) RollbackUnlocked ⟨(w, []), []⟩ s →
      ∀ said d response, .running (.ret (said, d, response)) ∈ s.threads →
        said.any QueueEvent.raisesOp = true → said.any (QueueEvent.deletes d) = true) ∧
    (∀ s : Pool (QueueWorld × List (Report ℚ)) (QueueProg (List QueueEvent × Text × Response)),
      sharedQueue.Run (fun p => ∃ q, webhookRequest q ∧ p = q.recording []) (fun _ _ => True) ⟨(w, []), []⟩ s →
      ∀ d admitted e w', sharedQueue.exec (.beforeCall (.delete d)) e s.world = some (admitted, w') →
        ((admitted : Bool) = true ↔ ¬Locked 3 30 s.world.2 s.world.1.clock)) := by
  constructor
  · intro s hrun said d response hmem hraises
    obtain ⟨q, said', rest, hq, htalks, hp, hsaid⟩ := (requests_recorded
      (Q := fun x => QueueEvent.letsRollBack x = true) hw
      (fun s i c k e r w' hJ hc hat he => letsRollBack_of_unlocked hJ hc hat he) hrun).2 _ hmem
    cases rest with
    | call c k => cases hp
    | ret a =>
      obtain ⟨rfl, rfl⟩ := Prod.mk.injEq .. ▸ Prog.ret.inj hp
      exact webhookRequest_talks hq htalks hraises hsaid
  · intro s hrun d admitted e w' hexec
    have htold := (requests_recorded (Q := fun _ => True) hw (fun _ _ _ _ _ _ _ _ _ _ _ => trivial) hrun).1
    obtain ⟨⟨r', v⟩, hexec, hx⟩ := Option.map_eq_some_iff.mp hexec
    obtain ⟨rfl, rfl⟩ := Prod.mk.injEq .. ▸ hx
    cases e <;> cases hexec
    exact htold.admits_iff _

/-! Runs for one pull request. -/

abbrev RequestMove : Type := Host.Move Fate (QueueProg (List QueueEvent × Text × Response))

def openedRequest (d : Text) : QueueProg (List QueueEvent × Text × Response) :=
  (receiveWebhook d (.pullRequest "opened".toList 7 "acme/api".toList) >>= fun response =>
    .ret (d, response)).recording []

def openedMoves (requests : List Text) (replies : List (Nat × Fate)) : List RequestMove :=
  requests.map (fun d => .spawn (openedRequest d)) ++ replies.map fun x => .reply x.1 x.2

theorem webhookRequest_of_opened {requests : List Text} {replies : List (Nat × Fate)}
    {p : QueueProg (List QueueEvent × Text × Response)} (h : .spawn p ∈ openedMoves requests replies) :
    ∃ q, webhookRequest q ∧ p = q.recording [] := by
  rcases List.mem_append.mp h with h | h
  · obtain ⟨d, _, hd⟩ := List.mem_map.mp h
    exact ⟨_, ⟨d, _, rfl⟩, (Host.Move.spawn.inj hd).symm⟩
  · obtain ⟨x, _, hx⟩ := List.mem_map.mp h
    cases hx

def claiming (i : Nat) : List (Nat × Fate) := [(i, .ok), (i, .ok), (i, .ok)]

def failingEnqueue (i : Nat) : List (Nat × Fate) := [(i, .ok), (i, .fails), (i, .fails), (i, .fails), (i, .ok)]

theorem rollback_deletes :
    ∃ s : Pool (QueueWorld × List (Report ℚ)) (QueueProg (List QueueEvent × Text × Response)),
      sharedQueue.Run (fun p => ∃ q, webhookRequest q ∧ p = q.recording []) RollbackUnlocked
        ⟨(⟨[], [], [], .fresh, 0⟩, []), []⟩ s ∧
      ∃ said response, .running (.ret (said, "72d3162e".toList, response)) ∈ s.threads ∧
        said.any QueueEvent.raisesOp = true ∧ said.any (QueueEvent.deletes "72d3162e".toList) = true := by
  let moves := openedMoves ["72d3162e".toList] (claiming 0 ++ failingEnqueue 0 ++ [(0, .ok), (0, .ok), (0, .ok)])
  have hchecked : sharedQueue.Checked RollbackUnlocked ⟨(⟨[], [], [], .fresh, 0⟩, []), []⟩ moves := by decide +kernel
  obtain ⟨s, hs, ⟨said, _, response⟩, hmem, rfl, hraises⟩ : ∃ s ∈ sharedQueue.play
      ⟨(⟨[], [], [], .fresh, 0⟩, []), []⟩ moves, ∃ x ∈ s.threads.filterMap Thread.result,
        x.2.1 = "72d3162e".toList ∧ x.1.any QueueEvent.raisesOp = true := by
    decide +kernel
  have hrun : sharedQueue.Run (fun p => ∃ q, webhookRequest q ∧ p = q.recording []) RollbackUnlocked
      ⟨(⟨[], [], [], .fresh, 0⟩, []), []⟩ s :=
    Host.run_of_checked (fun p hp => webhookRequest_of_opened hp) hchecked hs
  have hdone := Thread.mem_of_result hmem
  exact ⟨s, hrun, said, response, hdone, hraises, (rollback_reaches_redis rfl).1 s hrun said _ response hdone hraises⟩

/-- Three requests claim, and then Redis is away for all three: the third
failure opens the breaker, and the third claim is not rolled back. -/
theorem third_rollback_rejected :
    ∃ s : Pool (QueueWorld × List (Report ℚ)) (QueueProg (List QueueEvent × Text × Response)),
      sharedQueue.Run (fun p => ∃ q, webhookRequest q ∧ p = q.recording []) (fun _ _ => True)
        ⟨(⟨[], [], [], .fresh, 0⟩, []), []⟩ s ∧
      ∃ said response, .running (.ret (said, "72d3162e".toList, response)) ∈ s.threads ∧
        said.any QueueEvent.raisesOp = true ∧ said.any (QueueEvent.deletes "72d3162e".toList) = false ∧
        s.world.1.claims.contains "72d3162e".toList = true := by
  let moves := openedMoves ["51a0c7f4".toList, "0b9e66d3".toList, "72d3162e".toList]
    (claiming 0 ++ claiming 1 ++ claiming 2 ++ failingEnqueue 0 ++ failingEnqueue 1 ++ failingEnqueue 2 ++ [(2, .ok)])
  obtain ⟨s, hs, ⟨⟨said, _, response⟩, hmem, rfl, hraises, hno⟩, hclaimed⟩ : ∃ s ∈ sharedQueue.play
      ⟨(⟨[], [], [], .fresh, 0⟩, []), []⟩ moves, (∃ x ∈ s.threads.filterMap Thread.result,
        x.2.1 = "72d3162e".toList ∧ x.1.any QueueEvent.raisesOp = true ∧
        x.1.any (QueueEvent.deletes "72d3162e".toList) = false) ∧
        s.world.1.claims.contains "72d3162e".toList = true := by
    decide +kernel
  have hrun : sharedQueue.Run (fun p => ∃ q, webhookRequest q ∧ p = q.recording []) (fun _ _ => True)
      ⟨(⟨[], [], [], .fresh, 0⟩, []), []⟩ s :=
    Host.run_of_play (fun p hp => webhookRequest_of_opened hp) (fun _ _ => trivial) hs
  exact ⟨s, hrun, said, response, Thread.mem_of_result hmem, hraises, hno, hclaimed⟩

end AiPrReview
