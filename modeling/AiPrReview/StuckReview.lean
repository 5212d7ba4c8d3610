import AiPrReview.DeliveryRuns
import AiPrReview.WebhookRuns

/-! A delivery from its webhook to its review: the requests, the queue, and the
executions of `run_review`, any of which may raise. arq does not queue a job again
that has raised, and the claim of the delivery keeps redeliveries away. -/

namespace AiPrReview

def WorkerSettings.maxTries : Nat := 3

/-- `raising` is between the exception and the moment arq has finished the job. -/
inductive ExecutionState : Type where
  | running (p : ReviewProg RunReviewResult)
  | raising
  | finished

def ExecutionState.live : ExecutionState → Bool
  | finished => false
  | _ => true

/-- `job` is the place of the job in the queue. -/
structure Execution : Type where
  job : Nat
  state : ExecutionState

/-- `checkpointed`: the checkpoint of the delivery's thread is one in which the
aggregate node has run. -/
structure Worker : Type where
  world : ReviewWorld
  checkpointed : Bool
  executions : List Execution

namespace Worker

def stateAt (w : Worker) (i : Nat) : Option ExecutionState := (w.executions[i]?).map Execution.state

def setState (w : Worker) (i : Nat) (state : ExecutionState) : Worker :=
  { w with executions := w.executions.modify i fun x => { x with state } }

def taken (w : Worker) : List Nat := w.executions.map Execution.job

def start (w : Worker) (job : Nat) (p : ReviewProg RunReviewResult) : Worker :=
  { w with executions := w.executions ++ [⟨job, .running p⟩] }

end Worker

def ReviewCall.saves : ReviewCall → Bool
  | saveCheckpoint _ => true
  | _ => false

/-- The graph, resumed, answers that the aggregate node has already run. -/
def ReviewCall.resumesAtEnd : ReviewCall → ReviewChoice → Bool
  | runGraph .., e =>
    match e.graph with
    | .finished _ => true
    | .join _ => false
  | _, _ => false

/-- The reply to a call of an execution, and what the call leaves. -/
def ReviewCall.answer (c : ReviewCall) (e : ReviewChoice) (w : Worker) : Option (c.Reply × Worker) :=
  if c.resumesAtEnd e && !w.checkpointed then none
  else (c.exec e w.world).map fun x =>
    (x.1, { w with world := x.2, checkpointed := w.checkpointed || c.saves })

/-- A call that the endpoints of the HITL queue, or executions for other
deliveries, may make: it does not write the row of `d` as pending. -/
def ReviewCall.foreign (d : Text) : ReviewCall → Bool
  | upsertReview _ _ d' => d' ≠ d
  | setStatus _ status _ => status ≠ .pending
  | _ => true

/-- `fail i effect`: the awaited call raises, after it took effect or without. -/
inductive WorkerMove : Type where
  | take (job : Nat)
  | reply (i : Nat) (e : ReviewChoice)
  | retry (i : Nat) (e : ReviewChoice)
  | fail (i : Nat) (effect : Option ReviewChoice)
  | raises (i : Nat)
  | returns (i : Nat)
  | others (c : ReviewCall) (e : ReviewChoice)

inductive Worker.Step (d : Text) (jobs : List Job) : Worker → WorkerMove → Worker → Prop
  | take {w : Worker} {j : Nat} {repo action : Text} {prNumber : Int} :
      jobs[j]? = some (.review d repo prNumber action) → j ∉ w.taken →
      Step d jobs w (.take j) (w.start j (runReview ⟨repo, prNumber, d⟩))
  | reply {w w' : Worker} {i : Nat} {e : ReviewChoice} {c : ReviewCall}
      {k : c.Reply → ReviewProg RunReviewResult} {r : c.Reply} :
      w.stateAt i = some (.running (.call c k)) → c.answer e w = some (r, w') →
      Step d jobs w (.reply i e) (w'.setState i (.running (k r)))
  | retry {w w' : Worker} {i : Nat} {e : ReviewChoice} {c : ReviewCall}
      {k : c.Reply → ReviewProg RunReviewResult} {r : c.Reply} :
      w.stateAt i = some (.running (.call c k)) → c.retries = true → c.answer e w = some (r, w') →
      Step d jobs w (.retry i e) w'
  | fail {w : Worker} {i : Nat} {c : ReviewCall} {k : c.Reply → ReviewProg RunReviewResult} :
      w.stateAt i = some (.running (.call c k)) → Step d jobs w (.fail i none) (w.setState i .raising)
  | failLate {w w' : Worker} {i : Nat} {e : ReviewChoice} {c : ReviewCall}
      {k : c.Reply → ReviewProg RunReviewResult} {r : c.Reply} :
      w.stateAt i = some (.running (.call c k)) → c.answer e w = some (r, w') →
      Step d jobs w (.fail i (some e)) (w'.setState i .raising)
  | raises {w : Worker} {i : Nat} :
      w.stateAt i = some .raising → Step d jobs w (.raises i) (w.setState i .finished)
  | returns {w : Worker} {i : Nat} {a : RunReviewResult} :
      w.stateAt i = some (.running (.ret a)) → Step d jobs w (.returns i) (w.setState i .finished)
  | others {w : Worker} {e : ReviewChoice} {c : ReviewCall} {r : c.Reply} {world : ReviewWorld} :
      c.foreign d = true → c.exec e w.world = some (r, world) →
      Step d jobs w (.others c e) { w with world }

structure Pipeline : Type where
  webhook : Pool QueueWorld (QueueProg Response)
  worker : Worker

def Pipeline.begin (w : QueueWorld) (v : ReviewWorld) : Pipeline := ⟨⟨w, []⟩, ⟨v, false, []⟩⟩

def pullRequestFor (d : Text) (p : QueueProg Response) : Prop :=
  ∃ action number repo, p = receiveWebhook d (.pullRequest action number repo)

/-- `claim` is the step of the webhook that takes the free claim. -/
inductive PipelineEvent : Type where
  | webhook
  | claim
  | worker (m : WorkerMove)

inductive Pipeline.Step (d : Text) : Pipeline → PipelineEvent → Pipeline → Prop
  | webhook {s : Pipeline} {l : Label} {p : Pool QueueWorld (QueueProg Response)} :
      queueHost.Step (pullRequestFor d) s.webhook l p →
      (d ∈ p.world.claims → d ∈ s.webhook.world.claims) → Step d s .webhook { s with webhook := p }
  | claim {s : Pipeline} {l : Label} {p : Pool QueueWorld (QueueProg Response)} :
      queueHost.Step (pullRequestFor d) s.webhook l p →
      d ∉ s.webhook.world.claims → d ∈ p.world.claims → Step d s .claim { s with webhook := p }
  | worker {s : Pipeline} {m : WorkerMove} {w : Worker} :
      s.worker.Step d s.webhook.world.jobs m w → Step d s (.worker m) { s with worker := w }

/-- Runs whose steps all meet `cond`, a condition on the state before the step. -/
def Pipeline.Run (d : Text) (cond : Pipeline → PipelineEvent → Prop) : Pipeline → Pipeline → Prop :=
  Relation.ReflTransGen fun s s' => ∃ ev, cond s ev ∧ Pipeline.Step d s ev s'

/-! The property. -/

def isReviewOf (d : Text) : Job → Bool
  | .review d' .. => d' = d
  | _ => false

/-- A job for the delivery that no execution has taken. -/
def Queued (d : Text) (jobs : List Job) (w : Worker) : Prop :=
  ∃ j < jobs.length, (jobs[j]?).any (isReviewOf d) = true ∧ j ∉ w.taken

def Worker.RunsAt (w : Worker) (i : Nat) : Prop := (w.stateAt i).any ExecutionState.live = true

def Worker.Runs (w : Worker) : Prop := ∃ i < w.executions.length, w.RunsAt i

def Worker.RunsBesides (w : Worker) (i : Nat) : Prop := ∃ j < w.executions.length, j ≠ i ∧ w.RunsAt j

def ReviewPending (d : Text) (w : ReviewWorld) : Prop := (w.db.review d).map ReviewRecord.status = some .pending

namespace Pipeline

/-- The review is pending, and has tries left. -/
def Waits (d : Text) (s : Pipeline) : Prop :=
  ReviewPending d s.worker.world ∧ s.worker.executions.length < WorkerSettings.maxTries

def Claimed (d : Text) (s : Pipeline) : Prop := d ∈ s.webhook.world.claims

def NotStuck (d : Text) (s : Pipeline) : Prop :=
  s.Waits d → (Queued d s.webhook.world.jobs s.worker ∨ s.worker.Runs) ∨ ¬ s.Claimed d

/-- An execution raises only when its review is not pending, or has had its
tries, or another job for it is queued or running, or a redelivery would enqueue
one. And the claim is not taken while a pending review has neither. -/
def KeepsTry (d : Text) : Pipeline → PipelineEvent → Prop
  | s, .worker (.raises i) =>
    s.Waits d → (Queued d s.webhook.world.jobs s.worker ∨ s.worker.RunsBesides i) ∨ ¬ s.Claimed d
  | s, .claim => s.Waits d → Queued d s.webhook.world.jobs s.worker ∨ s.worker.Runs
  | _, _ => True

end Pipeline

/-! What a step of the worker leaves alone. -/

namespace Worker

variable {w w' : Worker} {i : Nat}

@[simp] theorem length_setState (w : Worker) (i : Nat) (st : ExecutionState) :
    (w.setState i st).executions.length = w.executions.length := by
  simp [setState]

@[simp] theorem world_setState (w : Worker) (i : Nat) (st : ExecutionState) :
    (w.setState i st).world = w.world := rfl

@[simp] theorem taken_setState (w : Worker) (i : Nat) (st : ExecutionState) :
    (w.setState i st).taken = w.taken := by
  apply List.ext_getElem?
  intro j
  simp only [taken, setState, List.getElem?_map, List.getElem?_modify]
  cases w.executions[j]? with
  | none => rfl
  | some x => by_cases h : i = j <;> simp [h]

theorem stateAt_setState (w : Worker) (i j : Nat) (st : ExecutionState) :
    (w.setState i st).stateAt j = if i = j then (w.stateAt j).map fun _ => st else w.stateAt j := by
  simp only [stateAt, setState, List.getElem?_modify]
  cases w.executions[j]? with
  | none => simp
  | some x => by_cases h : i = j <;> simp [h]

theorem stateAt_start (w : Worker) (job : Nat) (p : ReviewProg RunReviewResult) (i : Nat) :
    (w.start job p).stateAt i = if i = w.executions.length then some (.running p) else w.stateAt i := by
  simp only [stateAt, start]
  by_cases h : i = w.executions.length
  · simp [h]
  · rw [if_neg h, List.getElem?_append]
    split_ifs with hi
    · rfl
    · rw [List.getElem?_eq_none (by simp; omega), List.getElem?_eq_none (by omega)]

theorem runs_of_stateAt {st : ExecutionState} (h : w.stateAt i = some st) (hlive : st.live = true) : w.Runs := by
  obtain ⟨x, hx, _⟩ := Option.map_eq_some_iff.mp h
  refine ⟨i, (List.getElem?_eq_some_iff.mp hx).1, ?_⟩
  show (w.stateAt i).any ExecutionState.live = true
  rw [h]
  exact hlive

theorem runs_setState {st st' : ExecutionState} (h : w.stateAt i = some st) (hlive : st'.live = true) :
    (w.setState i st').Runs := by
  have hat : (w.setState i st').stateAt i = some st' := by
    rw [stateAt_setState, if_pos rfl, h]
    rfl
  exact runs_of_stateAt hat hlive

theorem runs_finished (w : Worker) (i : Nat) : (w.setState i .finished).Runs ↔ w.RunsBesides i := by
  have hat : ∀ j, (w.setState i .finished).RunsAt j ↔ j ≠ i ∧ w.RunsAt j := by
    intro j
    simp only [RunsAt, stateAt_setState]
    by_cases h : i = j
    · cases w.stateAt j <;> simp [h, ExecutionState.live]
    · simp [h, Ne.symm h]
  simp only [Runs, RunsBesides, length_setState, hat]

end Worker

/-- A call of an execution is a statement on its world; only the end of the
graph depends on the checkpoint. -/
theorem answer_cases {c : ReviewCall} {e : ReviewChoice} {w w' : Worker} {r : c.Reply}
    (h : c.answer e w = some (r, w')) : ∃ world, c.exec e w.world = some (r, world) ∧
      (c.resumesAtEnd e = true → w.checkpointed = true) ∧
      w' = ⟨world, w.checkpointed || c.saves, w.executions⟩ := by
  unfold ReviewCall.answer at h
  split_ifs at h with hend
  obtain ⟨x, hx, he⟩ := Option.map_eq_some_iff.mp h
  obtain ⟨rfl, rfl⟩ := Prod.mk.injEq .. ▸ he
  refine ⟨x.2, hx, ?_, rfl⟩
  intro hres
  simpa [hres] using hend

theorem stateAt_answer {c : ReviewCall} {e : ReviewChoice} {w w' : Worker} {r : c.Reply}
    (h : c.answer e w = some (r, w')) (i : Nat) : w'.stateAt i = w.stateAt i := by
  obtain ⟨world, _, _, rfl⟩ := answer_cases h
  rfl

/-! An execution returns only when its review is settled. -/

/-- What a mode knows about the row of the delivery. -/
def DeliveryMode.Stands (d : Text) (w : ReviewWorld) : DeliveryMode → Prop
  | .gate _ id | .post id | .mark id | .queue id | .write id => ∃ r, w.db.review d = some r ∧ r.id = id
  | .save | .done => settled d w
  | _ => True

theorem DeliveryMode.stands_of_keeps {d : Text} {w w' : ReviewWorld} (hk : keepsReview d w w')
    {m : DeliveryMode} (h : m.Stands d w) : m.Stands d w' := by
  have hrow : ∀ id, (∃ r, w.db.review d = some r ∧ r.id = id) → ∃ r, w'.db.review d = some r ∧ r.id = id := by
    rintro id ⟨r, hr, hid⟩
    obtain ⟨r', hr', hid', _⟩ := hk r hr
    exact ⟨r', hr', hid'.trans hid⟩
  cases m with
  | gate auto id => exact hrow id h
  | post id => exact hrow id h
  | mark id => exact hrow id h
  | queue id => exact hrow id h
  | write id => exact hrow id h
  | save => exact settled_of_keeps hk h
  | done => exact settled_of_keeps hk h
  | _ => trivial

theorem DeliveryMode.stands_next {d : Text} {m : DeliveryMode} {c : ReviewCall} (hallow : m.Allows d c)
    {w w' : ReviewWorld} (hm : m.Stands d w) {e : ReviewChoice} {r : c.Reply}
    (hend : c.resumesAtEnd e = true → settled d w) (he : c.exec e w = some (r, w')) :
    (m.next c r).Stands d w' := by
  have hk := keepsReview_exec hallow he
  cases hallow with
  | upsert repo prNumber =>
    obtain ⟨rfl, row, hrow, rfl⟩ := exec_upsertReview he
    by_cases hs : row.status = .pending
    · have hnext : DeliveryMode.next .begin (.upsertReview repo prNumber d) row.row = .fetch := if_pos hs
      rw [hnext]
      trivial
    · have hnext : DeliveryMode.next .begin (.upsertReview repo prNumber d) row.row = .done := if_neg hs
      rw [hnext]
      exact ⟨row, hrow, hs⟩
  | check auto repo prNumber =>
    obtain ⟨rfl, row, hrow, rfl⟩ := exec_upsertReview he
    by_cases hs : row.status = .pending
    · have hnext : DeliveryMode.next (.check auto) (.upsertReview repo prNumber d) row.row = .gate auto row.id :=
        if_pos hs
      rw [hnext]
      exact ⟨row, hrow, rfl⟩
    · have hnext : DeliveryMode.next (.check auto) (.upsertReview repo prNumber d) row.row = .save := if_neg hs
      rw [hnext]
      exact ⟨row, hrow, hs⟩
  | graph id diffText =>
    obtain ⟨rfl, rfl⟩ := Prod.mk.injEq .. ▸ Option.some.inj he
    obtain ⟨diff, graph, rank⟩ := e
    cases graph with
    | finished a => exact hend rfl
    | join entries => trivial
  | mark id gid score =>
    obtain rfl := exec_markPosted he
    obtain ⟨row, hrow, hid⟩ := hm
    have hmark := ReviewDb.review_markPosted w.db id gid score d
    rw [hrow, Option.map_some, if_pos hid] at hmark
    exact ⟨_, hmark, nofun⟩
  | write id status score hs =>
    obtain rfl := exec_setStatus he
    obtain ⟨row, hrow, hid⟩ := hm
    have hset := ReviewDb.review_setStatus w.db id status score d
    rw [hrow, Option.map_some, if_pos hid] at hset
    exact ⟨_, hset, hs⟩
  | emit auto id outcome score n threshold =>
    cases auto with
    | false => exact stands_of_keeps (m := .queue id) hk hm
    | true => exact stands_of_keeps (m := .post id) hk hm
  | insert auto id fs => exact stands_of_keeps (m := .gate auto id) hk hm
  | post id repo prNumber body event => exact stands_of_keeps (m := .mark id) hk hm
  | enqueue id reason => exact stands_of_keeps (m := .write id) hk hm
  | save => exact settled_of_keeps hk hm
  | fetch repo prNumber => trivial

structure WorkerInv (d : Text) (w : Worker) : Prop where
  stands : ∀ i p, w.stateAt i = some (.running p) →
    ∃ m, p.Follows (deliveryOutline d) (fun m _ => m = .done) m ∧ m.Stands d w.world
  ended : w.checkpointed = true → settled d w.world

namespace WorkerInv

variable {d : Text} {jobs : List Job} {w w' : Worker} {i : Nat}

theorem of_keeps (I : WorkerInv d w) {world : ReviewWorld} (hk : keepsReview d w.world world) :
    WorkerInv d { w with world } where
  stands i p h := by
    obtain ⟨m, hf, hm⟩ := I.stands i p h
    exact ⟨m, hf, m.stands_of_keeps hk hm⟩
  ended h := settled_of_keeps hk (I.ended h)

/-- Giving an execution a state with nothing left to run. -/
theorem setState (I : WorkerInv d w) {st : ExecutionState} (hst : ∀ p, st ≠ .running p) :
    WorkerInv d (w.setState i st) where
  stands j p h := by
    rw [Worker.stateAt_setState] at h
    split_ifs at h with hij
    · obtain ⟨_, _, he⟩ := Option.map_eq_some_iff.mp h
      exact absurd he (hst p)
    · exact I.stands j p h
  ended h := I.ended h

/-- What a call of an execution leaves: the others stand where they stood, and
its own program goes on. -/
theorem answer (I : WorkerInv d w) {c : ReviewCall} {k : c.Reply → ReviewProg RunReviewResult}
    (hi : w.stateAt i = some (.running (.call c k))) {e : ReviewChoice} {r : c.Reply}
    (h : c.answer e w = some (r, w')) : WorkerInv d w' ∧
      ∃ m, (k r).Follows (deliveryOutline d) (fun m _ => m = .done) m ∧ m.Stands d w'.world := by
  obtain ⟨world, he, hend, rfl⟩ := answer_cases h
  obtain ⟨m, hf, hm⟩ := I.stands i _ hi
  have hk := keepsReview_exec hf.1 he
  refine ⟨⟨(I.of_keeps hk).stands, ?_⟩, _, hf.2 r, m.stands_next hf.1 hm (fun hres => I.ended (hend hres)) he⟩
  intro hsaved
  rcases Bool.or_eq_true .. ▸ hsaved with hs | hs
  · exact settled_of_keeps hk (I.ended hs)
  · have hallow := hf.1
    -- the checkpoint is saved after the gate has written the row
    cases hallow with
    | save => exact settled_of_keeps hk hm
    | _ => simp [ReviewCall.saves] at hs

theorem step (I : WorkerInv d w) {m : WorkerMove} (h : w.Step d jobs m w') : WorkerInv d w' := by
  cases h with
  | @take j repo action prNumber hjob htaken =>
    refine ⟨fun i p h => ?_, I.ended⟩
    rw [Worker.stateAt_start] at h
    split_ifs at h with hi
    · obtain rfl := ExecutionState.running.inj (Option.some.inj h)
      exact ⟨.begin, runReview_follows rfl, trivial⟩
    · exact I.stands i p h
  | @reply w₁ i e c k r hi hans =>
    obtain ⟨I', m, hf, hm⟩ := I.answer hi hans
    refine ⟨fun j p h => ?_, I'.ended⟩
    rw [Worker.stateAt_setState] at h
    split_ifs at h with hij
    · obtain ⟨_, _, he⟩ := Option.map_eq_some_iff.mp h
      obtain rfl := ExecutionState.running.inj he
      exact ⟨m, hf, hm⟩
    · exact I'.stands j p h
  | retry hi _ hans => exact (I.answer hi hans).1
  | fail hi => exact I.setState nofun
  | failLate hi hans => exact (I.answer hi hans).1.setState nofun
  | raises hi => exact I.setState nofun
  | returns hi => exact I.setState nofun
  | others hc he =>
    refine I.of_keeps (keepsReview_of_exec (fun id score hset => ?_) he)
    subst hset
    simp [ReviewCall.foreign] at hc

theorem settled_of_returns (I : WorkerInv d w) {a : RunReviewResult}
    (h : w.stateAt i = some (.running (.ret a))) : settled d w.world := by
  obtain ⟨m, hf, hm⟩ := I.stands i _ h
  obtain rfl : m = .done := hf
  exact hm

end WorkerInv

/-! What the steps change in what the property reads. -/

theorem reviewPending_iff {d : Text} {w : ReviewWorld} :
    ReviewPending d w ↔ ∃ r, w.db.review d = some r ∧ r.status = .pending := Option.map_eq_some_iff

theorem not_pending_of_settled {d : Text} {w : ReviewWorld} (h : settled d w) : ¬ ReviewPending d w := by
  obtain ⟨r, hr, hs⟩ := h
  rw [reviewPending_iff]
  rintro ⟨r', hr', hs'⟩
  obtain rfl := Option.some.inj (hr.symm.trans hr')
  exact hs hs'

theorem review_none_of_foreign {d : Text} {c : ReviewCall} (hc : c.foreign d = true) {e : ReviewChoice}
    {w w' : ReviewWorld} {r : c.Reply} (he : c.exec e w = some (r, w')) (h : w.db.review d = none) :
    w'.db.review d = none := by
  cases c with
  | upsertReview repo prNumber d' =>
    obtain ⟨rfl, _⟩ := exec_upsertReview he
    exact (ReviewDb.review_upsertReview_of_ne w.db repo prNumber (of_decide_eq_true hc)).trans h
  | insertFindings id fs =>
    obtain ⟨hfk, rfl⟩ := exec_insertFindings he
    simpa using h
  | markPosted id gid score =>
    obtain rfl := exec_markPosted he
    simp [ReviewDb.review_markPosted, h]
  | setStatus id status score =>
    obtain rfl := exec_setStatus he
    simp [ReviewDb.review_setStatus, h]
  | enqueue id reason =>
    obtain ⟨hfk, rfl⟩ := exec_enqueue he
    exact h
  | resolve id status note =>
    obtain ⟨rfl, _⟩ := exec_resolve he
    exact h
  | postReview id repo prNumber body event =>
    obtain ⟨_, rfl⟩ := exec_postReview he
    exact h
  | _ =>
    obtain rfl := exec_of_reads rfl he
    exact h

theorem pending_of_foreign {d : Text} {c : ReviewCall} (hc : c.foreign d = true) {e : ReviewChoice}
    {w w' : ReviewWorld} {r : c.Reply} (he : c.exec e w = some (r, w')) (h : ReviewPending d w') :
    ReviewPending d w := by
  have hk : keepsReview d w w' := by
    refine keepsReview_of_exec (fun id score hset => ?_) he
    subst hset
    simp [ReviewCall.foreign] at hc
  rw [reviewPending_iff]
  cases hrow : w.db.review d with
  | none => simp [ReviewPending, review_none_of_foreign hc he hrow] at h
  | some row =>
    refine ⟨row, rfl, ?_⟩
    by_contra hs
    exact not_pending_of_settled (settled_of_keeps hk ⟨row, hrow, hs⟩) h

theorem exec_queue {c : QueueCall} {e : Fate} {w w' : QueueWorld} {r : c.Reply} (h : c.exec e w = some (r, w')) :
    (∃ tail, w'.jobs = w.jobs ++ tail) ∧ (w'.jobs = w.jobs ∨ w'.claims = w.claims) := by
  have hcmd : ∀ cmd : RedisCommand, (∃ tail, (cmd.run w).2.jobs = w.jobs ++ tail) ∧
      ((cmd.run w).2.jobs = w.jobs ∨ (cmd.run w).2.claims = w.claims) := by
    intro cmd
    cases cmd with
    | setNx d =>
      simp only [RedisCommand.run]
      split_ifs <;> exact ⟨⟨[], by simp⟩, .inl rfl⟩
    | delete d => exact ⟨⟨[], by simp [RedisCommand.run]⟩, .inl rfl⟩
    | enqueue job => exact ⟨⟨[job], rfl⟩, .inr rfl⟩
  have hsame : (∃ tail, w.jobs = w.jobs ++ tail) ∧ (w.jobs = w.jobs ∨ w.claims = w.claims) :=
    ⟨⟨[], by simp⟩, .inl rfl⟩
  cases c <;> cases e <;> simp only [QueueCall.exec, Option.some.injEq, reduceCtorEq] at h
  all_goals obtain ⟨_, rfl⟩ := h
  all_goals first
    | exact hcmd _
    | exact hsame

/-- The queue only grows, and the step that takes a claim puts no job. -/
theorem webhook_queue {d : Text} {spawns : QueueProg Response → Prop} {p p' : Pool QueueWorld (QueueProg Response)}
    {l : Label} (h : queueHost.Step spawns p l p') : (∃ tail, p'.world.jobs = p.world.jobs ++ tail) ∧
      (d ∉ p.world.claims → d ∈ p'.world.claims → p'.world.jobs = p.world.jobs) := by
  have hexec : ∀ {c : QueueCall} {e : Fate} {w w' : QueueWorld} {r : c.Reply}, c.exec e w = some (r, w') →
      (∃ tail, w'.jobs = w.jobs ++ tail) ∧ (d ∉ w.claims → d ∈ w'.claims → w'.jobs = w.jobs) := by
    intro c e w w' r he
    obtain ⟨htail, hjobs | hclaims⟩ := exec_queue he
    · exact ⟨htail, fun _ _ => hjobs⟩
    · exact ⟨htail, fun hn hd => absurd (hclaims ▸ hd) hn⟩
  cases h with
  | reply e he => exact hexec he
  | retry e hr he => exact hexec he
  | lose e he => exact hexec he
  | stop => exact ⟨⟨[], by simp⟩, fun _ _ => rfl⟩
  | spawn hp => exact ⟨⟨[], by simp⟩, fun _ _ => rfl⟩
  | drift hd => exact ⟨⟨[], by simp [hd.2.2]⟩, fun _ _ => hd.2.2⟩

theorem Queued.append {d : Text} {jobs : List Job} {w : Worker} (h : Queued d jobs w) (tail : List Job) :
    Queued d (jobs ++ tail) w := by
  obtain ⟨j, hj, hjob, htaken⟩ := h
  refine ⟨j, by simp; omega, ?_, htaken⟩
  rw [List.getElem?_append_left hj]
  exact hjob

namespace Pipeline

variable {d : Text} {s s' : Pipeline} {ev : PipelineEvent}

theorem notStuck_of_runs (h : s.worker.Runs) : s.NotStuck d := fun _ => .inl (.inr h)

theorem notStuck_worker (I : WorkerInv d s.worker) (hs : s.NotStuck d) {m : WorkerMove} {w : Worker}
    (h : s.worker.Step d s.webhook.world.jobs m w) :
    NotStuck d { s with worker := w } ↔ s.KeepsTry d (.worker m) := by
  obtain ⟨p, v⟩ := s
  cases h with
  | @take j repo action prNumber hjob htaken =>
    have hat : (v.start j (runReview ⟨repo, prNumber, d⟩)).stateAt v.executions.length =
        some (.running (runReview ⟨repo, prNumber, d⟩)) := by
      rw [Worker.stateAt_start, if_pos rfl]
    exact iff_of_true (notStuck_of_runs (Worker.runs_of_stateAt hat rfl)) trivial
  | reply hi hans =>
    exact iff_of_true (notStuck_of_runs (Worker.runs_setState ((stateAt_answer hans _).trans hi) rfl)) trivial
  | retry hi _ hans =>
    exact iff_of_true (notStuck_of_runs (Worker.runs_of_stateAt ((stateAt_answer hans _).trans hi) rfl)) trivial
  | fail hi => exact iff_of_true (notStuck_of_runs (Worker.runs_setState hi rfl)) trivial
  | failLate hi hans =>
    exact iff_of_true (notStuck_of_runs (Worker.runs_setState ((stateAt_answer hans _).trans hi) rfl)) trivial
  -- only here a pending review can lose its last execution
  | @raises i hi =>
    simp only [NotStuck, KeepsTry, Waits, Claimed, Queued, Worker.runs_finished, Worker.length_setState,
      Worker.world_setState, Worker.taken_setState]
  | returns hi =>
    have hset := I.settled_of_returns hi
    exact iff_of_true (fun hw => absurd hw.1 (not_pending_of_settled hset)) trivial
  | others hc he =>
    refine iff_of_true (fun hw => ?_) trivial
    exact hs ⟨pending_of_foreign hc he hw.1, hw.2⟩

theorem notStuck_step (I : WorkerInv d s.worker) (hs : s.NotStuck d) (h : Step d s ev s') :
    s'.NotStuck d ↔ s.KeepsTry d ev := by
  cases h with
  | @webhook l p hstep hclaim =>
    obtain ⟨⟨tail, htail⟩, _⟩ := webhook_queue (d := d) hstep
    refine iff_of_true (fun hw => ?_) trivial
    rcases hs hw with (hq | hr) | hfree
    · left; left
      show Queued d p.world.jobs s.worker
      rw [htail]
      exact hq.append tail
    · exact .inl (.inr hr)
    · exact .inr fun hd => hfree (hclaim hd)
  | @claim l p hstep hfree hheld =>
    have hjobs := (webhook_queue hstep).2 hfree hheld
    simp only [NotStuck, KeepsTry, Waits, Claimed, hjobs, hheld, not_true_eq_false, or_false]
  | worker hstep => exact notStuck_worker I hs hstep

theorem workerInv_step (I : WorkerInv d s.worker) (h : Step d s ev s') : WorkerInv d s'.worker := by
  cases h with
  | webhook => exact I
  | claim => exact I
  | worker hstep => exact I.step hstep

end Pipeline

/-- No review is stuck in a run whose steps all keep a try: while the review is
pending and has tries left, a job for it is queued or running, or a redelivery
would enqueue one. From such a state a step leads to a stuck review exactly when
it keeps no try. -/
theorem review_not_stuck {d : Text} {w₀ : QueueWorld} {v₀ : ReviewWorld} (hnew : v₀.db.review d = none)
    {s : Pipeline} (hrun : Pipeline.Run d (Pipeline.KeepsTry d) (.begin w₀ v₀) s) :
    s.NotStuck d ∧ ∀ ev s', Pipeline.Step d s ev s' → (s'.NotStuck d ↔ s.KeepsTry d ev) := by
  have hinv : WorkerInv d s.worker ∧ s.NotStuck d := by
    induction hrun with
    | refl =>
      refine ⟨⟨fun i p h => by simp [Pipeline.begin, Worker.stateAt] at h, nofun⟩, fun hw => ?_⟩
      have hpending : ReviewPending d v₀ := hw.1
      simp [ReviewPending, hnew] at hpending
    | tail _ hstep ih =>
      obtain ⟨ev, hkeep, hs⟩ := hstep
      exact ⟨Pipeline.workerInv_step ih.1 hs, (Pipeline.notStuck_step ih.1 ih.2 hs).mpr hkeep⟩
  exact ⟨hinv.2, fun ev s' hs => Pipeline.notStuck_step hinv.1 hinv.2 hs⟩

/-! Runs by their moves. -/

def Worker.atCall (w : Worker) (i : Nat)
    (f : (c : ReviewCall) → (c.Reply → ReviewProg RunReviewResult) → Option Worker) : Option Worker :=
  match w.stateAt i with
  | some (.running (.call c k)) => f c k
  | _ => none

theorem Worker.atCall_eq_some {w w' : Worker} {i : Nat}
    {f : (c : ReviewCall) → (c.Reply → ReviewProg RunReviewResult) → Option Worker} (h : w.atCall i f = some w') :
    ∃ c k, w.stateAt i = some (.running (.call c k)) ∧ f c k = some w' := by
  unfold Worker.atCall at h
  split at h
  · next c k hi => exact ⟨c, k, hi, h⟩
  · cases h

def Worker.move (d : Text) (jobs : List Job) (w : Worker) : WorkerMove → Option Worker
  | .take j =>
    match jobs[j]? with
    | some (.review d' repo prNumber _) =>
      if d' = d ∧ j ∉ w.taken then some (w.start j (runReview ⟨repo, prNumber, d⟩)) else none
    | _ => none
  | .reply i e => w.atCall i fun c k => (c.answer e w).map fun x => x.2.setState i (.running (k x.1))
  | .retry i e => w.atCall i fun c _ => if c.retries then (c.answer e w).map Prod.snd else none
  | .fail i none => w.atCall i fun _ _ => some (w.setState i .raising)
  | .fail i (some e) => w.atCall i fun c _ => (c.answer e w).map fun x => x.2.setState i .raising
  | .raises i =>
    match w.stateAt i with
    | some .raising => some (w.setState i .finished)
    | _ => none
  | .returns i =>
    match w.stateAt i with
    | some (.running (.ret _)) => some (w.setState i .finished)
    | _ => none
  | .others c e =>
    if c.foreign d then (c.exec e w.world).map fun x => { w with world := x.2 } else none

theorem Worker.step_of_move {d : Text} {jobs : List Job} {w w' : Worker} {m : WorkerMove}
    (h : w.move d jobs m = some w') : w.Step d jobs m w' := by
  cases m with
  | take j =>
    simp only [Worker.move] at h
    split at h
    · next d' repo prNumber action hjob =>
      split_ifs at h with hc
      obtain ⟨rfl, htaken⟩ := hc
      obtain rfl := Option.some.inj h
      exact .take hjob htaken
    · cases h
  | reply i e =>
    obtain ⟨c, k, hi, h⟩ := Worker.atCall_eq_some h
    obtain ⟨⟨r, w₁⟩, hans, rfl⟩ := Option.map_eq_some_iff.mp h
    exact .reply hi hans
  | retry i e =>
    obtain ⟨c, k, hi, h⟩ := Worker.atCall_eq_some h
    split_ifs at h with hr
    obtain ⟨⟨r, w₁⟩, hans, rfl⟩ := Option.map_eq_some_iff.mp h
    exact .retry hi hr hans
  | fail i effect =>
    cases effect with
    | none =>
      obtain ⟨c, k, hi, h⟩ := Worker.atCall_eq_some h
      obtain rfl := Option.some.inj h
      exact .fail hi
    | some e =>
      obtain ⟨c, k, hi, h⟩ := Worker.atCall_eq_some h
      obtain ⟨⟨r, w₁⟩, hans, rfl⟩ := Option.map_eq_some_iff.mp h
      exact .failLate hi hans
  | raises i =>
    simp only [Worker.move] at h
    split at h
    · next hi =>
      obtain rfl := Option.some.inj h
      exact .raises hi
    · cases h
  | returns i =>
    simp only [Worker.move] at h
    split at h
    · next a hi =>
      obtain rfl := Option.some.inj h
      exact .returns hi
    · cases h
  | others c e =>
    simp only [Worker.move] at h
    split_ifs at h with hc
    obtain ⟨⟨r, world⟩, he, rfl⟩ := Option.map_eq_some_iff.mp h
    exact .others hc he

namespace Pipeline

variable {d : Text} {cond : Pipeline → PipelineEvent → Prop}

theorem run_of_webhook {w : Worker} (hc : ∀ p, cond ⟨p, w⟩ .webhook ∧ cond ⟨p, w⟩ .claim)
    {p p' : Pool QueueWorld (QueueProg Response)}
    (h : queueHost.Run (pullRequestFor d) (fun _ _ => True) p p') : Run d cond ⟨p, w⟩ ⟨p', w⟩ := by
  induction h with
  | refl => exact .refl
  | @tail p₁ p₂ _ hstep ih =>
    obtain ⟨l, _, hl⟩ := hstep
    by_cases htakes : d ∉ p₁.world.claims ∧ d ∈ p₂.world.claims
    · exact ih.tail ⟨.claim, (hc p₁).2, .claim hl htakes.1 htakes.2⟩
    · refine ih.tail ⟨.webhook, (hc p₁).1, .webhook hl fun hd => ?_⟩
      by_contra hn
      exact htakes ⟨hn, hd⟩

theorem run_of_worker {p : Pool QueueWorld (QueueProg Response)} {moves : List WorkerMove}
    (hc : ∀ m ∈ moves, ∀ w, cond ⟨p, w⟩ (.worker m)) {w w' : Worker}
    (h : moves.foldlM (Worker.move d p.world.jobs) w = some w') : Run d cond ⟨p, w⟩ ⟨p, w'⟩ := by
  induction moves generalizing w with
  | nil =>
    obtain rfl := Option.some.inj h
    exact .refl
  | cons m moves ih =>
    simp only [List.foldlM_cons, Option.bind_eq_bind] at h
    obtain ⟨w₁, hw₁, hrest⟩ := Option.bind_eq_some_iff.mp h
    have hstep : Step d ⟨p, w⟩ (.worker m) ⟨p, w₁⟩ := .worker (Worker.step_of_move hw₁)
    exact .head ⟨_, hc m (by simp) w, hstep⟩ (ih (fun m' hm' => hc m' (by simp [hm'])) hrest)

end Pipeline

def acceptedRequest : List (Host.Move Fate (QueueProg Response)) :=
  .spawn (receiveWebhook "72d3162e".toList (.pullRequest "opened".toList 7 "acme/api".toList)) ::
    List.replicate 6 (.reply 0 .ok)

theorem run_of_acceptedRequest {cond : Pipeline → PipelineEvent → Prop} {v : ReviewWorld}
    (hc : ∀ p, cond ⟨p, ⟨v, false, []⟩⟩ .webhook ∧ cond ⟨p, ⟨v, false, []⟩⟩ .claim)
    {p : Pool QueueWorld (QueueProg Response)}
    (hp : queueHost.play ⟨⟨[], [], [], .fresh, 0⟩, []⟩ acceptedRequest = some p) :
    Pipeline.Run "72d3162e".toList cond (.begin ⟨[], [], [], .fresh, 0⟩ v) ⟨p, ⟨v, false, []⟩⟩ := by
  refine Pipeline.run_of_webhook hc (Host.run_of_play (fun q hq => ?_) (fun _ _ => trivial) hp)
  exact ⟨"opened".toList, 7, "acme/api".toList, by simpa [acceptedRequest] using hq⟩

/-- The review is posted, and then the save of the last checkpoint raises. -/
def postedThenFails : List WorkerMove :=
  .take 0 :: List.replicate 7 (.reply 0 ⟨[], .join [], id⟩) ++ [.fail 0 none]

theorem review_not_stuck_posted : ∃ s, Pipeline.Run "72d3162e".toList (Pipeline.KeepsTry "72d3162e".toList)
      (.begin ⟨[], [], [], .fresh, 0⟩ ⟨ReviewDb.empty, []⟩) s ∧
    Pipeline.Step "72d3162e".toList s (.worker (.raises 0)) { s with worker := s.worker.setState 0 .finished } ∧
    Pipeline.NotStuck "72d3162e".toList { s with worker := s.worker.setState 0 .finished } := by
  obtain ⟨p, hp, w, hw, hraising, hposted⟩ : ∃ p ∈ queueHost.play ⟨⟨[], [], [], .fresh, 0⟩, []⟩ acceptedRequest,
      ∃ w ∈ postedThenFails.foldlM (Worker.move "72d3162e".toList p.world.jobs) ⟨⟨ReviewDb.empty, []⟩, false, []⟩,
      (w.move "72d3162e".toList p.world.jobs (.raises 0)).isSome = true ∧
      (w.world.db.review "72d3162e".toList).map ReviewRecord.status = some .posted := by
    decide +kernel
  have hnew : ReviewDb.empty.review "72d3162e".toList = none := rfl
  have hidle : ∀ q, ¬ Pipeline.Waits "72d3162e".toList ⟨q, ⟨⟨ReviewDb.empty, []⟩, false, []⟩⟩ := by
    intro q hwait
    have hpending : none = some ReviewStatus.pending := hwait.1
    cases hpending
  have hrun : Pipeline.Run "72d3162e".toList (Pipeline.KeepsTry "72d3162e".toList)
      (.begin ⟨[], [], [], .fresh, 0⟩ ⟨ReviewDb.empty, []⟩) ⟨p, w⟩ := by
    refine (run_of_acceptedRequest (fun q => ⟨trivial, fun h => absurd h (hidle q)⟩) hp).trans
      (Pipeline.run_of_worker (fun m hm v => ?_) hw)
    rcases List.mem_append.mp hm with hm | hm
    · rcases List.mem_cons.mp hm with rfl | hm
      · trivial
      · obtain rfl := List.eq_of_mem_replicate hm
        trivial
    · obtain rfl := List.mem_singleton.mp hm
      trivial
  have hstep : Pipeline.Step "72d3162e".toList ⟨p, w⟩ (.worker (.raises 0)) ⟨p, w.setState 0 .finished⟩ := by
    obtain ⟨w', hw'⟩ := Option.isSome_iff_exists.mp hraising
    have hat : w.stateAt 0 = some .raising := by
      cases Worker.step_of_move hw' with
      | raises hi => exact hi
    exact .worker (.raises hat)
  have hkeep : Pipeline.KeepsTry "72d3162e".toList ⟨p, w⟩ (.worker (.raises 0)) := by
    intro hwait
    have hpending : some ReviewStatus.posted = some .pending := hposted.symm.trans hwait.1
    cases hpending
  exact ⟨⟨p, w⟩, hrun, hstep, ((review_not_stuck hnew hrun).2 _ _ hstep).mpr hkeep⟩

/-- The row is written, the diff cannot be fetched, and the job is over: the
claim still turns every redelivery away. -/
theorem review_stuck : ∃ s, Pipeline.Run "72d3162e".toList (fun _ _ => True)
      (.begin ⟨[], [], [], .fresh, 0⟩ ⟨ReviewDb.empty, []⟩) s ∧ ¬ s.NotStuck "72d3162e".toList := by
  obtain ⟨p, hp, w, hw, hpending, hfew, hqueued, hruns, hclaim⟩ :
      ∃ p ∈ queueHost.play ⟨⟨[], [], [], .fresh, 0⟩, []⟩ acceptedRequest,
      ∃ w ∈ [WorkerMove.take 0, .reply 0 ⟨[], .join [], id⟩, .fail 0 none, .raises 0].foldlM
          (Worker.move "72d3162e".toList p.world.jobs) ⟨⟨ReviewDb.empty, []⟩, false, []⟩,
      (w.world.db.review "72d3162e".toList).map ReviewRecord.status = some .pending ∧
      w.executions.length < WorkerSettings.maxTries ∧
      (¬ ∃ j < p.world.jobs.length, (p.world.jobs[j]?).any (isReviewOf "72d3162e".toList) = true ∧ j ∉ w.taken) ∧
      (¬ ∃ i < w.executions.length, (w.stateAt i).any ExecutionState.live = true) ∧
      "72d3162e".toList ∈ p.world.claims := by
    decide +kernel
  refine ⟨⟨p, w⟩, ?_, fun h => ?_⟩
  · exact (run_of_acceptedRequest (fun _ => ⟨trivial, trivial⟩) hp).trans
      (Pipeline.run_of_worker (fun _ _ _ => trivial) hw)
  · rcases h ⟨hpending, hfew⟩ with (hq | hr) | hfree
    · exact hqueued hq
    · exact hruns hr
    · exact hfree hclaim

end AiPrReview
