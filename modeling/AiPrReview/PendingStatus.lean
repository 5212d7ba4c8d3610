import AiPrReview.Webhook
import AiPrReview.Indexer
import Mathlib.Data.Fintype.Option

/-! The status of a repository's index. The webhook receiver marks it pending
before it enqueues a job, the worker done or failed when the job ends, and both
write over what is there. Here the two are put together: any webhooks, any
number of jobs, in any order of steps. -/

namespace AiPrReview

abbrev IndexStates : Type := Table RepoIndexState.repo

def statusOf (t : IndexStates) (repo : Text) : Option IndexStatus := (t.get repo).map RepoIndexState.status

def markPending (t : IndexStates) (repo : Text) : IndexStates :=
  t.upsert ⟨repo, none, 0, .pending, none⟩ (fun old => { old with status := .pending }) fun _ => rfl

def markFailed (t : IndexStates) (repo error : Text) : IndexStates :=
  t.upsert ⟨repo, none, 0, .failed, some error⟩ (fun old => { old with status := .failed, error := some error })
    fun _ => rfl

theorem statusOf_upsert {t : IndexStates} {a : RepoIndexState} {f : RepoIndexState → RepoIndexState}
    {hf : ∀ b, (f b).repo = b.repo} (hs : ∀ b, (f b).status = a.status) (r : Text) :
    statusOf (t.upsert a f hf) r = if a.repo = r then some a.status else statusOf t r := by
  unfold statusOf
  rw [Table.get_upsert]
  by_cases hr : a.repo = r
  · rw [if_pos hr, if_pos hr]
    cases t.get r with
    | none => rfl
    | some b => exact congrArg some (hs b)
  · rw [if_neg hr, if_neg hr]

@[simp] theorem statusOf_markPending (t : IndexStates) (repo r : Text) :
    statusOf (markPending t repo) r = if repo = r then some .pending else statusOf t r := by
  rw [markPending, statusOf_upsert]
  exact fun _ => rfl

@[simp] theorem statusOf_markFailed (t : IndexStates) (repo error r : Text) :
    statusOf (markFailed t repo error) r = if repo = r then some .failed else statusOf t r := by
  rw [markFailed, statusOf_upsert]
  exact fun _ => rfl

@[simp] theorem statusOf_upsertIndexState (t : IndexStates) (repo commitSha : Text) (total : Nat) (r : Text) :
    statusOf (upsertIndexState t repo commitSha total) r = if repo = r then some .done else statusOf t r := by
  rw [upsertIndexState, statusOf_upsert]
  exact fun _ => rfl

/-! The jobs of the worker. -/

def Job.indexedRepo : Job → Option Text
  | review .. => none
  | indexRepo _ repo => some repo
  | reindexRepo _ repo .. => some repo

inductive IndexCall : Type where
  | fullIndex (repo : Text)
  | incrementalIndex (repo beforeSha afterSha : Text) (changed : ChangedFiles)
  | markFailed (repo error : Text)

namespace IndexCall

/-- `Except.error` and `none` are exceptions. -/
def Reply : IndexCall → Type
  | fullIndex _ => Except Text IndexResult
  | incrementalIndex .. => Except Text IndexResult
  | markFailed .. => Option Unit

def repo : IndexCall → Text
  | fullIndex repo => repo
  | incrementalIndex repo .. => repo
  | markFailed repo _ => repo

end IndexCall

abbrev IndexProg : Type → Type := Prog IndexCall.Reply

/-- What `index_repo` and `reindex_repo` return. -/
structure IndexReport : Type where
  repoFullName : Text
  commitSha : Text
  chunkCount : Nat

/-- The end of both jobs: `none` is the exception, raised again after `mark_failed`
or the one that `mark_failed` raises. -/
def endIndex (repo : Text) : Except Text IndexResult → IndexProg (Option IndexReport)
  | .ok result => .ret (some ⟨result.repoFullName, result.commitSha, result.chunkCount⟩)
  | .error error => .call (.markFailed repo error) fun _ => .ret none

def indexRepo (repo : Text) : IndexProg (Option IndexReport) := .call (.fullIndex repo) (endIndex repo)

def reindexRepo (repo beforeSha afterSha : Text) (added modified removed : List Text) :
    IndexProg (Option IndexReport) :=
  .call (.incrementalIndex repo beforeSha afterSha ⟨added, modified, removed⟩) (endIndex repo)

/-- Every call is about `repo`. -/
def About {α : Type} (repo : Text) : IndexProg α → Prop
  | .ret _ => True
  | .call c k => c.repo = repo ∧ ∀ r, About repo (k r)

theorem about_endIndex (repo : Text) : ∀ reply, About repo (endIndex repo reply)
  | .ok _ => trivial
  | .error _ => ⟨rfl, fun _ => trivial⟩

/-- How an index call may go. `failed` is an exception, after the write was
committed or not; `marked` is for `mark_failed`. -/
inductive IndexChoice : Type where
  | indexed (result : IndexResult) (total : Nat)
  | failed (error : Text) (written : Option (Text × Nat))
  | marked (fate : Fate)

def indexOutcome (t : IndexStates) (repo : Text) : IndexChoice → Option (Except Text IndexResult × IndexStates)
  | .indexed result total => some (.ok result, upsertIndexState t repo result.commitSha total)
  | .failed error none => some (.error error, t)
  | .failed error (some (commitSha, total)) => some (.error error, upsertIndexState t repo commitSha total)
  | .marked _ => none

def IndexCall.exec : (c : IndexCall) → IndexChoice → IndexStates → Option (c.Reply × IndexStates)
  | fullIndex repo, e, t => indexOutcome t repo e
  | incrementalIndex repo .., e, t => indexOutcome t repo e
  | markFailed repo error, .marked .ok, t => some (some (), AiPrReview.markFailed t repo error)
  | markFailed _ _, .marked .fails, t => some (none, t)
  | markFailed repo error, .marked .lost, t => some (none, AiPrReview.markFailed t repo error)
  | markFailed _ _, _, _ => none

/-- The choice has the status written. -/
def IndexChoice.writes : IndexChoice → Bool
  | indexed .. => true
  | failed _ written => written.isSome
  | marked .ok => true
  | marked .fails => false
  | marked .lost => true

/-- A job of the worker never writes `pending`, and writes for its own repository only. -/
theorem IndexCall.exec_status {c : IndexCall} {e : IndexChoice} {t t' : IndexStates} {reply : c.Reply}
    (h : c.exec e t = some (reply, t')) :
    (∀ r, c.repo ≠ r → statusOf t' r = statusOf t r) ∧
      (if e.writes then statusOf t' c.repo ≠ some .pending else t' = t) := by
  have hindex : ∀ (repo : Text) (reply : Except Text IndexResult), indexOutcome t repo e = some (reply, t') →
      (∀ r, repo ≠ r → statusOf t' r = statusOf t r) ∧
        (if e.writes then statusOf t' repo ≠ some .pending else t' = t) := by
    intro repo reply h
    rcases e with ⟨result, total⟩ | ⟨error, _ | ⟨commitSha, total⟩⟩ | fate
    · obtain ⟨_, rfl⟩ := Prod.mk.inj (Option.some.inj h)
      refine ⟨fun r hr => ?_, ?_⟩
      · simp [hr]
      · simp [IndexChoice.writes]
    · obtain ⟨_, rfl⟩ := Prod.mk.inj (Option.some.inj h)
      exact ⟨fun _ _ => rfl, rfl⟩
    · obtain ⟨_, rfl⟩ := Prod.mk.inj (Option.some.inj h)
      refine ⟨fun r hr => ?_, ?_⟩
      · simp [hr]
      · simp [IndexChoice.writes]
    · cases h
  cases c with
  | fullIndex repo => exact hindex repo reply h
  | incrementalIndex repo _ _ _ => exact hindex repo reply h
  | markFailed repo error =>
    rcases e with _ | _ | fate
    · cases h
    · cases h
    · cases fate with
      | fails =>
        obtain ⟨_, rfl⟩ := Prod.mk.inj (Option.some.inj h)
        exact ⟨fun _ _ => rfl, rfl⟩
      | _ =>
        obtain ⟨_, rfl⟩ := Prod.mk.inj (Option.some.inj h)
        refine ⟨fun r hr => ?_, ?_⟩
        · rw [statusOf_markFailed, if_neg (by exact hr)]
        · simp [IndexChoice.writes, IndexCall.repo]

/-! The choices of the indexer that `Indexer` makes. -/

section

variable {E : Type} {isWord : Char → Bool} {embedding : Text → E} {github : TarballSource}
  {db db' : IndexDb E} {repo : Text} {result : IndexResult}

theorem write_states {embedded : List (Chunk × E)} {stale : List Text} {commitSha : Text}
    (h : write db repo embedded stale commitSha = some db') :
    ∃ total, db'.states = upsertIndexState db.states repo commitSha total := by
  simp only [write, Option.ite_none_right_eq_some, Option.some.injEq] at h
  obtain ⟨_, rfl⟩ := h
  exact ⟨_, rfl⟩

theorem fullIndex_states (h : fullIndex isWord embedding github db repo = some (db', result)) :
    ∃ total, IndexCall.exec (.fullIndex repo) (.indexed result total) db.states = some (.ok result, db'.states) := by
  simp only [fullIndex, Option.bind_eq_bind, Option.bind_eq_some_iff] at h
  obtain ⟨fetched, _, db₁, hw, he⟩ := h
  obtain ⟨rfl, rfl⟩ := Prod.mk.inj (Option.some.inj he)
  obtain ⟨total, hs⟩ := write_states hw
  exact ⟨total, by rw [hs]; rfl⟩

theorem incrementalIndex_states {beforeSha afterSha : Text} {changed : ChangedFiles}
    (h : incrementalIndex isWord embedding github db repo afterSha changed = some (db', result)) :
    ∃ total, IndexCall.exec (.incrementalIndex repo beforeSha afterSha changed) (.indexed result total) db.states =
      some (.ok result, db'.states) := by
  simp only [incrementalIndex, Option.bind_eq_bind, Option.bind_eq_some_iff] at h
  obtain ⟨chunks, _, db₁, hw, he⟩ := h
  obtain ⟨rfl, rfl⟩ := Prod.mk.inj (Option.some.inj he)
  obtain ⟨total, hs⟩ := write_states hw
  exact ⟨total, by rw [hs]; rfl⟩

end

/-- A job in the hands of the worker. -/
structure RunningJob : Type where
  job : Job
  repo : Text
  program : IndexProg (Option IndexReport)
  indexes : job.indexedRepo = some repo
  about : About repo program

/-- The job as the worker takes it up. A review has no part in the status. -/
def Job.taken : Job → Option RunningJob
  | .review .. => none
  | .indexRepo deliveryId repo =>
    some ⟨.indexRepo deliveryId repo, repo, AiPrReview.indexRepo repo, rfl, rfl, about_endIndex repo⟩
  | .reindexRepo deliveryId repo beforeSha afterSha added modified removed =>
    some ⟨.reindexRepo deliveryId repo beforeSha afterSha added modified removed, repo,
      AiPrReview.reindexRepo repo beforeSha afterSha added modified removed, rfl, rfl, about_endIndex repo⟩

theorem Job.taken_repo {job : Job} (r : Text) :
    (∃ t ∈ job.taken.toList, t.repo = r) ↔ job.indexedRepo = some r := by
  cases job <;> simp [taken, indexedRepo]

namespace RunningJob

/-- Nothing is left of a job that has returned or raised. -/
def goOn (t : RunningJob) : (p : IndexProg (Option IndexReport)) → About t.repo p → Option RunningJob
  | .ret _, _ => none
  | .call c k, h => some ⟨t.job, t.repo, .call c k, t.indexes, h⟩

def step (t : RunningJob) (e : IndexChoice) (states : IndexStates) : Option (IndexStates × Option RunningJob) :=
  match t.program, t.about with
  | .ret _, _ => none
  | .call c k, h => (c.exec e states).map fun x => (x.2, t.goOn (k x.1) (h.2 x.1))

theorem goOn_repo {t t' : RunningJob} {p : IndexProg (Option IndexReport)} {h : About t.repo p}
    (ht : t.goOn p h = some t') : t'.repo = t.repo := by
  cases p with
  | ret => cases ht
  | call c k =>
    obtain rfl := Option.some.inj ht
    rfl

theorem step_spec {t : RunningJob} {e : IndexChoice} {states states' : IndexStates} {left : Option RunningJob}
    (h : t.step e states = some (states', left)) :
    (∀ r, t.repo ≠ r → statusOf states' r = statusOf states r) ∧
      (if e.writes then statusOf states' t.repo ≠ some .pending else states' = states) ∧
      ∀ t' ∈ left, t'.repo = t.repo := by
  obtain ⟨job, repo, program, indexes, about⟩ := t
  cases program with
  | ret => cases h
  | call c k =>
    obtain ⟨⟨reply, states₁⟩, hexec, hx⟩ := Option.map_eq_some_iff.mp h
    obtain ⟨rfl, rfl⟩ := Prod.mk.inj hx
    have hstatus := IndexCall.exec_status hexec
    rw [about.1] at hstatus
    exact ⟨hstatus.1, hstatus.2, fun t' ht' => goOn_repo ht'⟩

end RunningJob

/-! The two processes together. -/

/-- `requests` are the webhook requests, `running` the jobs that left the queue. -/
structure Site : Type where
  queue : QueueWorld
  states : IndexStates
  requests : List (QueueProg Response)
  running : List RunningJob

/-- A request arrives, or goes on by a call; time passes, claims expire and other
deliveries report to the breaker; a job is taken up, or goes on by a call. A job
may be cancelled in the midst of a call, that has written the status or not: at
its time limit, or as the worker shuts down, and then it is run again. -/
inductive SiteMove : Type where
  | receive (deliveryId : Text) (event : WebhookEvent)
  | request (i : Nat) (fate : Fate)
  | drift (claims : List Text) (breaker : CircuitBreaker) (clock : ℚ)
  | start (n : Nat)
  | work (i : Nat) (e : IndexChoice)
  | cancel (i : Nat) (written : Option IndexChoice) (again : Bool)

def Fate.effective : Fate → Bool
  | ok => true
  | fails => false
  | lost => true

namespace QueueCall

def marked : QueueCall → Option Text
  | markPending repo => some repo
  | _ => none

def enqueuedRepo : QueueCall → Option Text
  | command (.enqueue job) => job.indexedRepo
  | _ => none

/-- The part of `exec` that concerns the statuses. -/
def states (c : QueueCall) (fate : Fate) (t : IndexStates) : IndexStates :=
  match c.marked, fate.effective with
  | some repo, true => AiPrReview.markPending t repo
  | _, _ => t

theorem statusOf_states (c : QueueCall) (fate : Fate) (t : IndexStates) (r : Text) :
    statusOf (c.states fate t) r =
      if c.marked = some r ∧ fate.effective = true then some .pending else statusOf t r := by
  unfold states
  cases c.marked <;> cases fate.effective <;> simp

theorem exec_jobs {c : QueueCall} {fate : Fate} {w w' : QueueWorld} {reply : c.Reply}
    (h : c.exec fate w = some (reply, w')) (r : Text) :
    (∃ job ∈ w'.jobs, job.indexedRepo = some r) ↔
      (∃ job ∈ w.jobs, job.indexedRepo = some r) ∨ (c.enqueuedRepo = some r ∧ fate.effective = true) := by
  have hrun : ∀ cmd : RedisCommand, (∃ job ∈ (cmd.run w).2.jobs, job.indexedRepo = some r) ↔
      (∃ job ∈ w.jobs, job.indexedRepo = some r) ∨ ((command cmd).enqueuedRepo = some r ∧ true = true) := by
    intro cmd
    cases cmd with
    | setNx d =>
      simp only [RedisCommand.run]
      split_ifs <;> simp [enqueuedRepo]
    | delete d => simp [RedisCommand.run, enqueuedRepo]
    | enqueue job => simp [RedisCommand.run, enqueuedRepo, or_and_right, exists_or]
  have hsame : ∀ {enqueued effective : Prop}, ¬(enqueued ∧ effective) →
      ((∃ job ∈ w.jobs, job.indexedRepo = some r) ↔
        (∃ job ∈ w.jobs, job.indexedRepo = some r) ∨ (enqueued ∧ effective)) := by
    intro _ _ hno
    rw [or_iff_left hno]
  cases c with
  | command cmd =>
    cases fate with
    | fails =>
      cases h
      exact hsame nofun
    | _ =>
      cases h
      exact hrun cmd
  | markPending repo => cases fate <;> cases h <;> exact hsame nofun
  | _ => cases fate <;> cases h; exact hsame nofun

end QueueCall

namespace Site

def status (s : Site) (r : Text) : Option IndexStatus := statusOf s.states r

/-- An index or reindex job for `r` is queued or running. -/
def Outstanding (r : Text) (s : Site) : Prop :=
  (∃ job ∈ s.queue.jobs, job.indexedRepo = some r) ∨ ∃ t ∈ s.running, t.repo = r

def move (s : Site) : SiteMove → Option Site
  | .receive deliveryId event => some { s with requests := s.requests ++ [receiveWebhook deliveryId event] }
  | .request i fate =>
    match s.requests[i]? with
    | some (.call c k) => (c.exec fate s.queue).map fun x =>
      { s with queue := x.2, states := c.states fate s.states, requests := s.requests.set i (k x.1) }
    | _ => none
  | .drift claims breaker clock =>
    if s.queue.clock ≤ clock ∧ claims ⊆ s.queue.claims then
      some { s with queue := { s.queue with claims := claims, breaker := breaker, clock := clock } }
    else none
  | .start n => s.queue.jobs[n]?.map fun job =>
    { s with
      queue := { s.queue with jobs := s.queue.jobs.eraseIdx n }
      running := s.running ++ job.taken.toList }
  | .work i e => s.running[i]?.bind fun t => (t.step e s.states).map fun x =>
    { s with states := x.1, running := s.running.eraseIdx i ++ x.2.toList }
  | .cancel i written again => s.running[i]?.bind fun t =>
    (written.elim (some s.states) fun e => (t.step e s.states).map Prod.fst).map fun states =>
      { s with
        queue := { s.queue with jobs := s.queue.jobs ++ if again then [t.job] else [] }
        states := states
        running := s.running.eraseIdx i }

inductive Run (cond : Site → SiteMove → Prop) (s₀ : Site) : Site → Prop
  | refl : Run cond s₀ s₀
  | tail {s s' : Site} {m : SiteMove} : Run cond s₀ s → cond s m → s.move m = some s' → Run cond s₀ s'

/-- The moves one after the other, as long as each meets `cond`. -/
def play (cond : Site → SiteMove → Prop) [∀ s m, Decidable (cond s m)] : Site → List SiteMove → Option Site
  | s, [] => some s
  | s, m :: moves => if cond s m then (s.move m).bind fun s' => play cond s' moves else none

theorem run_of_play {cond : Site → SiteMove → Prop} [∀ s m, Decidable (cond s m)] {s₀ s s' : Site}
    {moves : List SiteMove} (hrun : Run cond s₀ s) (h : play cond s moves = some s') : Run cond s₀ s' := by
  induction moves generalizing s with
  | nil =>
    obtain rfl := Option.some.inj h
    exact hrun
  | cons m moves ih =>
    obtain ⟨hc, hs⟩ := Option.ite_none_right_eq_some.mp h
    obtain ⟨s₁, hm, hrest⟩ := Option.bind_eq_some_iff.mp hs
    exact ih (.tail hrun hc hm) hrest

end Site

/-! What a request still owes. -/

/-- The request may enqueue a job for `r` without marking `r` first: it has
marked `r` and its enqueue is still to come. -/
def Owes {α : Type} (r : Text) (p : QueueProg α) : Prop := p.MayReach (·.enqueuedRepo = some r) (·.marked = some r)

instance : (c : QueueCall) → Fintype c.Reply
  | .beforeCall _ => inferInstanceAs (Fintype Bool)
  | .command _ => inferInstanceAs (Fintype (Option Bool))
  | .onSuccess _ => inferInstanceAs (Fintype Unit)
  | .onFailure _ => inferInstanceAs (Fintype Unit)
  | .markPending _ => inferInstanceAs (Fintype (Option Unit))

instance {α : Type} {r : Text} {p : QueueProg α} : Decidable (Owes r p) := Prog.decidableMayReach p

section

variable {α : Type} {r : Text}

/-- Any calls but an enqueue of a job for `r`. -/
def enqueuesNone (r : Text) : Outline QueueCall.Reply Unit where
  allows _ c := c.enqueuedRepo ≠ some r
  next _ _ _ := ()

theorem not_owes_guarded {cmd : RedisCommand} (h : (QueueCall.command cmd).enqueuedRepo ≠ some r)
    {f : Option Bool → QueueProg α} (hf : ∀ a, ¬Owes r (f a)) : ¬Owes r (guarded cmd >>= f) := by
  have hnone : none ≠ some r := (Option.some_ne_none r).symm
  have hfollows := @guarded_follows Unit (enqueuesNone r) cmd () () () () (fun _ => ()) (fun _ => ()) hnone rfl rfl
    h rfl (fun _ => rfl) hnone rfl (fun _ => hnone) fun _ => rfl
  have hguarded : ¬Owes r (guarded cmd) := hfollows.not_mayReach fun _ _ hallow => hallow
  intro hm
  rcases Prog.mayReach_of_bind hm with hm | ⟨a, hm⟩
  · exact hguarded hm
  · exact hf a hm

theorem not_owes_runOps {ops : List EnqueueOp} (h : ∀ op ∈ ops, op.job.indexedRepo = op.pendingRepo)
    {f : Option Unit → QueueProg α} (hf : ∀ a, ¬Owes r (f a)) : ¬Owes r (runOps ops >>= f) := by
  induction ops with
  | nil => exact hf _
  | cons op ops ih =>
    obtain ⟨hop, hops⟩ := List.forall_mem_cons.mp h
    rw [runOps, Prog.bind_assoc, EnqueueOp.run]
    cases hr : op.pendingRepo with
    | none =>
      rw [hr] at hop
      refine not_owes_guarded ?_ fun a => ?_
      · simp [QueueCall.enqueuedRepo, hop]
      · cases a with
        | none => exact hf none
        | some b => exact ih hops
    | some repo =>
      rw [hr] at hop
      intro hm
      rcases Prog.mayReach_call_iff.mp hm with hc | ⟨hne, reply, hk⟩
      · cases hc
      · have hne' : (QueueCall.command (.enqueue op.job)).enqueuedRepo ≠ some r := by
          simpa [QueueCall.enqueuedRepo, QueueCall.marked, hop] using hne
        cases (reply : Option Unit) with
        | none => exact hf none hk
        | some u =>
          refine not_owes_guarded hne' (fun a => ?_) hk
          cases a with
          | none => exact hf none
          | some b => exact ih hops

theorem indexedRepo_of_mem_ops {deliveryId : Text} {event : WebhookEvent} {ops : List EnqueueOp}
    (h : buildEnqueueOps deliveryId event = some ops) : ∀ op ∈ ops, op.job.indexedRepo = op.pendingRepo := by
  have hindex : ∀ repos : List Text, ∀ op ∈ repos.map (indexOp deliveryId), op.job.indexedRepo = op.pendingRepo := by
    intro repos op hop
    obtain ⟨repo, _, rfl⟩ := List.mem_map.mp hop
    rfl
  cases event with
  | pullRequest action number repo =>
    obtain rfl := Option.some.inj h
    simp [Job.indexedRepo]
  | installation action repositories =>
    obtain ⟨_, hops⟩ := Option.ite_none_left_eq_some.mp h
    exact Option.some.inj hops ▸ hindex repositories
  | installationRepositories added =>
    obtain ⟨_, hops⟩ := Option.ite_none_left_eq_some.mp h
    exact Option.some.inj hops ▸ hindex added
  | push before after repo commits =>
    obtain ⟨_, hops⟩ := Option.ite_none_left_eq_some.mp h
    obtain rfl := Option.some.inj hops
    simp [Job.indexedRepo]

/-- A request that arrives owes nothing: every operation marks first. -/
theorem not_owes_receiveWebhook (deliveryId : Text) (event : WebhookEvent) :
    ¬Owes r (receiveWebhook deliveryId event) := by
  have hclaim : (QueueCall.command (.setNx deliveryId)).enqueuedRepo ≠ some r := (Option.some_ne_none r).symm
  have hunclaim : (QueueCall.command (.delete deliveryId)).enqueuedRepo ≠ some r := (Option.some_ne_none r).symm
  unfold receiveWebhook
  cases hops : buildEnqueueOps deliveryId event with
  | none => exact Prog.not_mayReach_ret
  | some ops =>
    refine not_owes_guarded hclaim fun a => ?_
    cases a with
    | none => exact Prog.not_mayReach_ret
    | some isNew =>
      cases isNew with
      | false => exact Prog.not_mayReach_ret
      | true =>
        refine not_owes_runOps (indexedRepo_of_mem_ops hops) fun done => ?_
        cases done with
        | some => exact Prog.not_mayReach_ret
        | none => exact not_owes_guarded hunclaim fun _ => Prog.not_mayReach_ret

end

/-! The steps after which the status can still be relied on. -/

theorem exists_mem_iff_eraseIdx {α : Type} {P : α → Prop} {l : List α} {i : Nat} {a : α} (h : l[i]? = some a) :
    (∃ x ∈ l, P x) ↔ P a ∨ ∃ x ∈ l.eraseIdx i, P x := by
  obtain ⟨hi, rfl⟩ := List.getElem?_eq_some_iff.mp h
  have hp := List.getElem_cons_eraseIdx_perm hi
  simp only [← hp.mem_iff, List.mem_cons, exists_eq_or_imp]

theorem exists_mem_set_iff {α : Type} {P : α → Prop} {l : List α} {i : Nat} {a : α} (h : l[i]? = some a) (b : α) :
    (∃ x ∈ l.set i b, P x) ↔ P b ∨ ∃ x ∈ l.eraseIdx i, P x := by
  obtain ⟨hi, _⟩ := List.getElem?_eq_some_iff.mp h
  have hp := List.set_perm_cons_eraseIdx hi b
  simp only [hp.mem_iff, List.mem_cons, exists_eq_or_imp]

namespace Site

def Owed (r : Text) (s : Site) : Prop := ∃ p ∈ s.requests, Owes r p

instance {r : Text} {s : Site} : Decidable (Outstanding r s) := inferInstanceAs (Decidable (_ ∨ _))

instance {r : Text} {s : Site} : Decidable (Owed r s) := inferInstanceAs (Decidable (∃ _ ∈ _, _))

/-- What the dashboard may rely on at any time: an outstanding job is shown as
pending, and a pending repository has an outstanding job or will get one. -/
structure Told (r : Text) (s : Site) : Prop where
  kept : s.Outstanding r → s.status r = some .pending
  owed : s.status r = some .pending → s.Outstanding r ∨ s.Owed r

/-- Request `i` goes from `p` to `q` by the call `c`. A job for `r` is enqueued
only while `r` is pending, and a request gives up on the job of a pending `r`
only if there is another job, or another request that still enqueues one. -/
abbrev CarefulRequest (r : Text) (s : Site) (i : Nat) (c : QueueCall) (fate : Fate) (p q : QueueProg Response) : Prop :=
  (c.enqueuedRepo = some r ∧ fate.effective = true → s.status r = some .pending) ∧
  (¬Owes r q ∧ ¬(c.enqueuedRepo = some r ∧ fate.effective = true) ∧
      ((c.marked = some r ∧ fate.effective = true) ∨ (Owes r p ∧ s.status r = some .pending)) →
    s.Outstanding r ∨ ∃ p' ∈ s.requests.eraseIdx i, Owes r p')

/-- Job `i`, which is one for `r`, writes the status only as it ends and only as
the last one, and ends without that only if it is not the last. -/
abbrev CarefulJob (r : Text) (s : Site) (i : Nat) (wrote ended : Bool) : Prop :=
  if wrote then ended = true ∧ ¬Outstanding r { s with running := s.running.eraseIdx i }
  else ended = true → Outstanding r { s with running := s.running.eraseIdx i } ∨ s.Owed r

def Careful (r : Text) (s : Site) : SiteMove → Prop
  | .request i fate =>
    match s.requests[i]? with
    | some (.call c k) => ∀ x ∈ c.exec fate s.queue, s.CarefulRequest r i c fate (.call c k) (k x.1)
    | _ => True
  | .work i e => ∀ t ∈ s.running[i]?, t.repo = r → ∀ x ∈ t.step e s.states, s.CarefulJob r i e.writes x.2.isNone
  | .cancel i written again =>
    ∀ t ∈ s.running[i]?, t.repo = r → s.CarefulJob r i (written.any IndexChoice.writes) (!again)
  | _ => True

instance {r : Text} {s : Site} {m : SiteMove} : Decidable (s.Careful r m) :=
  match m with
  | .request i fate =>
    match h : s.requests[i]? with
    | some (.call c k) =>
      decidable_of_iff (∀ x ∈ c.exec fate s.queue, s.CarefulRequest r i c fate (.call c k) (k x.1))
        (by simp only [Careful, h])
    | some (.ret _) => isTrue (by simp only [Careful, h])
    | none => isTrue (by simp only [Careful, h])
  | .work .. => inferInstanceAs (Decidable (∀ _ ∈ _, _ → ∀ _ ∈ _, _))
  | .cancel .. => inferInstanceAs (Decidable (∀ _ ∈ _, _ → _))
  | .receive .. => isTrue trivial
  | .drift .. => isTrue trivial
  | .start _ => isTrue trivial

section

variable {r : Text} {s s' : Site}

theorem Told.congr (I : Told r s) (hstatus : s'.status r = s.status r) (hout : s'.Outstanding r ↔ s.Outstanding r)
    (howed : s.Owed r → s'.Owed r) : Told r s' := by
  constructor
  · intro h
    rw [hstatus]
    exact I.kept (hout.mp h)
  · intro h
    rw [hstatus] at h
    exact (I.owed h).imp hout.mpr howed

/-! What one call of a request changes. -/

section

variable {i : Nat} {c : QueueCall} {k : c.Reply → QueueProg Response} {fate : Fate} {reply : c.Reply} {w : QueueWorld}

theorem status_request : Site.status ⟨w, c.states fate s.states, s.requests.set i (k reply), s.running⟩ r =
      some .pending ↔ (c.marked = some r ∧ fate.effective = true) ∨ s.status r = some .pending := by
  show statusOf (c.states fate s.states) r = _ ↔ _
  rw [QueueCall.statusOf_states]
  split_ifs with hm
  · exact iff_of_true rfl (.inl hm)
  · exact (or_iff_right hm).symm

theorem outstanding_request (hexec : c.exec fate s.queue = some (reply, w)) :
    Outstanding r ⟨w, c.states fate s.states, s.requests.set i (k reply), s.running⟩ ↔
      s.Outstanding r ∨ (c.enqueuedRepo = some r ∧ fate.effective = true) := by
  show (_ ∨ _) ↔ _
  rw [QueueCall.exec_jobs hexec r, or_right_comm]
  rfl

theorem owed_request (hi : s.requests[i]? = some (.call c k)) :
    Owed r ⟨w, c.states fate s.states, s.requests.set i (k reply), s.running⟩ ↔
      Owes r (k reply) ∨ ∃ p' ∈ s.requests.eraseIdx i, Owes r p' := exists_mem_set_iff hi _

/-- No call both marks and enqueues. -/
theorem not_enqueues_and_marks : ¬(c.enqueuedRepo = some r ∧ c.marked = some r) := by
  rintro ⟨he, hm⟩
  cases c <;> first
    | cases he
    | cases hm

end

theorem told_request_iff (I : Told r s) {i : Nat} {c : QueueCall} {k : c.Reply → QueueProg Response} {fate : Fate}
    {reply : c.Reply} {w : QueueWorld} (hi : s.requests[i]? = some (.call c k))
    (hexec : c.exec fate s.queue = some (reply, w)) :
    Told r ⟨w, c.states fate s.states, s.requests.set i (k reply), s.running⟩ ↔
      s.CarefulRequest r i c fate (.call c k) (k reply) := by
  have howed : s.Owed r ↔ Owes r (.call c k) ∨ ∃ p' ∈ s.requests.eraseIdx i, Owes r p' :=
    exists_mem_iff_eraseIdx hi
  have howes := I.owed
  rw [howed] at howes
  constructor
  · rintro ⟨h₁, h₂⟩
    rw [status_request, outstanding_request hexec] at h₁
    rw [status_request, outstanding_request hexec, owed_request hi] at h₂
    refine ⟨fun he => ?_, fun ⟨hq, hne, hgive⟩ => ?_⟩
    · rcases h₁ (.inr he) with hm | hst
      · exact absurd ⟨he.1, hm.1⟩ not_enqueues_and_marks
      · exact hst
    · rcases h₂ (hgive.imp_right And.right) with (ho | he) | hq' | hothers
      · exact .inl ho
      · exact absurd he hne
      · exact absurd hq' hq
      · exact .inr hothers
  · rintro ⟨h₁, h₂⟩
    constructor
    · rw [status_request, outstanding_request hexec]
      rintro (ho | he)
      · exact .inr (I.kept ho)
      · exact .inr (h₁ he)
    · rw [status_request, outstanding_request hexec, owed_request hi]
      intro hm
      by_cases hq : Owes r (k reply)
      · exact .inr (.inl hq)
      · by_cases he : c.enqueuedRepo = some r ∧ fate.effective = true
        · exact .inl (.inr he)
        · have hgive : s.Outstanding r ∨ ∃ p' ∈ s.requests.eraseIdx i, Owes r p' := by
            rcases hm with hm | hst
            · exact h₂ ⟨hq, he, .inl hm⟩
            · rcases howes hst with ho | hp | hothers
              · exact .inl ho
              · exact h₂ ⟨hq, he, .inr ⟨hp, hst⟩⟩
              · exact .inr hothers
          exact hgive.imp .inl .inr

theorem told_job_iff (I : Told r s) {i : Nat} {t : RunningJob} (wrote ended : Bool) (hi : s.running[i]? = some t)
    (ht : t.repo = r) (hstatus : if wrote then s'.status r ≠ some .pending else s'.states = s.states)
    (hrequests : s'.requests = s.requests)
    (hout : s'.Outstanding r ↔ Outstanding r { s with running := s.running.eraseIdx i } ∨ ended = false) :
    Told r s' ↔ s.CarefulJob r i wrote ended := by
  have hpending : s.status r = some .pending := I.kept (.inr ⟨t, List.mem_of_getElem? hi, ht⟩)
  have howed : s'.Owed r ↔ s.Owed r := by
    unfold Owed
    rw [hrequests]
  unfold CarefulJob
  cases wrote with
  | true =>
    have hne : s'.status r ≠ some .pending := hstatus
    constructor
    · intro I'
      have hno := mt I'.kept hne
      rw [hout, not_or, Bool.not_eq_false] at hno
      exact ⟨hno.2, hno.1⟩
    · rintro ⟨hended, hno⟩
      refine ⟨fun ho => ?_, fun hp => absurd hp hne⟩
      rcases hout.mp ho with ho | ho
      · exact absurd ho hno
      · exact absurd (hended.symm.trans ho) nofun
  | false =>
    have hsame : s'.status r = s.status r := congrArg (statusOf · r) hstatus
    rw [hpending] at hsame
    constructor
    · intro I' hended
      rcases I'.owed hsame with ho | hw
      · rcases hout.mp ho with ho | ho
        · exact .inl ho
        · exact absurd (hended.symm.trans ho) nofun
      · exact .inr (howed.mp hw)
    · intro h
      refine ⟨fun _ => hsame, fun _ => ?_⟩
      cases ended with
      | false => exact .inl (hout.mpr (.inr rfl))
      | true =>
        rcases h rfl with ho | hw
        · exact .inl (hout.mpr (.inl ho))
        · exact .inr (howed.mpr hw)

theorem told_work_iff (I : Told r s) {i : Nat} {e : IndexChoice} {t : RunningJob} {states : IndexStates}
    {left : Option RunningJob} (hi : s.running[i]? = some t) (hstep : t.step e s.states = some (states, left)) :
    Told r { s with states := states, running := s.running.eraseIdx i ++ left.toList } ↔ s.Careful r (.work i e) := by
  obtain ⟨hothers, hwrites, hleft⟩ := RunningJob.step_spec hstep
  have hrest : (∃ t' ∈ s.running.eraseIdx i ++ left.toList, t'.repo = r) ↔
      (∃ t' ∈ s.running.eraseIdx i, t'.repo = r) ∨ (left.isNone = false ∧ t.repo = r) := by
    cases left with
    | none => simp
    | some t' => simp [or_and_right, exists_or, hleft t' rfl]
  by_cases ht : t.repo = r
  · rw [told_job_iff I e.writes left.isNone hi ht]
    · simp [Careful, hi, ht, hstep]
    · rw [← ht]
      exact hwrites
    · rfl
    · show (_ ∨ _) ↔ ((_ ∨ _) ∨ _)
      rw [hrest, and_iff_left ht, or_assoc]
  · refine iff_of_true (I.congr (hothers r ht) ?_ id) ?_
    · show (_ ∨ _) ↔ (_ ∨ _)
      rw [hrest, exists_mem_iff_eraseIdx hi]
      simp [ht]
    · simp [Careful, hi, ht]

theorem told_cancel_iff (I : Told r s) {i : Nat} {written : Option IndexChoice} {again : Bool} {t : RunningJob}
    {states : IndexStates} (hi : s.running[i]? = some t)
    (hwritten : (written.elim (some s.states) fun e => (t.step e s.states).map Prod.fst) = some states) :
    Told r { s with
      queue := { s.queue with jobs := s.queue.jobs ++ if again then [t.job] else [] }
      states := states
      running := s.running.eraseIdx i } ↔ s.Careful r (.cancel i written again) := by
  have hspec : (∀ r, t.repo ≠ r → statusOf states r = statusOf s.states r) ∧
      (if written.any IndexChoice.writes then statusOf states t.repo ≠ some .pending else states = s.states) := by
    cases written with
    | none =>
      obtain rfl := Option.some.inj hwritten
      exact ⟨fun _ _ => rfl, rfl⟩
    | some e =>
      obtain ⟨⟨states', left⟩, hstep, rfl⟩ := Option.map_eq_some_iff.mp hwritten
      obtain ⟨hothers, hwrites, _⟩ := RunningJob.step_spec hstep
      exact ⟨hothers, hwrites⟩
  have hqueued : (∃ job ∈ s.queue.jobs ++ (if again = true then [t.job] else []), job.indexedRepo = some r) ↔
      (∃ job ∈ s.queue.jobs, job.indexedRepo = some r) ∨ (again = true ∧ t.repo = r) := by
    cases again <;> simp [or_and_right, exists_or, t.indexes]
  by_cases ht : t.repo = r
  · rw [told_job_iff I (written.any IndexChoice.writes) (!again) hi ht]
    · simp [Careful, hi, ht]
    · rw [← ht]
      exact hspec.2
    · rfl
    · show (_ ∨ _) ↔ ((_ ∨ _) ∨ _)
      rw [hqueued, and_iff_left ht, or_right_comm, Bool.not_eq_false']
  · refine iff_of_true (I.congr (hspec.1 r ht) ?_ id) ?_
    · show (_ ∨ _) ↔ (_ ∨ _)
      rw [hqueued, exists_mem_iff_eraseIdx hi]
      simp [ht]
    · simp [Careful, hi, ht]

/-- From a state that is told, a step leads to one exactly if it is careful. -/
theorem told_iff_careful {m : SiteMove} (I : Told r s) (h : s.move m = some s') : Told r s' ↔ s.Careful r m := by
  cases m with
  | receive deliveryId event =>
    obtain rfl := Option.some.inj h
    refine iff_of_true (I.congr rfl Iff.rfl ?_) trivial
    rintro ⟨p, hp, hw⟩
    exact ⟨p, List.mem_append_left _ hp, hw⟩
  | request i fate =>
    simp only [move] at h
    simp only [Careful]
    split at h
    · rename_i c k hi
      obtain ⟨⟨reply, w⟩, hexec, rfl⟩ := Option.map_eq_some_iff.mp h
      rw [told_request_iff I hi hexec]
      simp [hexec]
    · cases h
  | drift claims breaker clock =>
    obtain ⟨_, hs⟩ := Option.ite_none_right_eq_some.mp h
    obtain rfl := Option.some.inj hs
    exact iff_of_true (I.congr rfl Iff.rfl id) trivial
  | start n =>
    obtain ⟨job, hn, rfl⟩ := Option.map_eq_some_iff.mp h
    refine iff_of_true (I.congr rfl ?_ id) trivial
    show (_ ∨ _) ↔ (_ ∨ _)
    rw [exists_mem_iff_eraseIdx hn, ← Job.taken_repo]
    simp only [List.mem_append, or_and_right, exists_or]
    exact (or_assoc.symm.trans or_comm).trans or_assoc.symm
  | work i e =>
    obtain ⟨t, hi, hx⟩ := Option.bind_eq_some_iff.mp h
    obtain ⟨⟨states, left⟩, hstep, rfl⟩ := Option.map_eq_some_iff.mp hx
    exact told_work_iff I hi hstep
  | cancel i written again =>
    obtain ⟨t, hi, hx⟩ := Option.bind_eq_some_iff.mp h
    obtain ⟨states, hwritten, rfl⟩ := Option.map_eq_some_iff.mp hx
    exact told_cancel_iff I hi hwritten

theorem told_of_run {s₀ : Site} (I₀ : Told r s₀) (hrun : Run (Careful r) s₀ s) : Told r s := by
  induction hrun with
  | refl => exact I₀
  | tail _ hc hm ih => exact (told_iff_careful ih hm).mpr hc

/-- Between the operations of the requests, the status of `r` is pending exactly
while an index or reindex job for `r` is queued or running, in every run of
careful steps; and in such a run the first step that is not careful leaves a
status that is not to be relied on. -/
theorem pending_truthful {s₀ : Site} (hnone : ¬s₀.Outstanding r) (hidle : s₀.status r ≠ some .pending)
    (hrun : Run (Careful r) s₀ s) :
    (¬s.Owed r → (s.status r = some .pending ↔ s.Outstanding r)) ∧
    ∀ m s', s.move m = some s' → (Told r s' ↔ s.Careful r m) := by
  have I₀ : Told r s₀ := ⟨fun h => absurd h hnone, fun h => absurd h hidle⟩
  have I := told_of_run I₀ hrun
  refine ⟨fun hbetween => ⟨fun h => ?_, I.kept⟩, fun m s' h => told_iff_careful I h⟩
  rcases I.owed h with ho | hw
  · exact ho
  · exact absurd hw hbetween

end

/-! Runs for one repository. -/

def empty : Site := ⟨⟨[], [], [], .fresh, 0⟩, .empty, [], []⟩

/-- A push to `acme/api`, as request `i`, whose calls go as `fates` says. -/
def pushed (i : Nat) (deliveryId : Text) (fates : List Fate) : List SiteMove :=
  .receive deliveryId (.push "b0".toList "c1".toList "acme/api".toList [⟨["a.py".toList], [], []⟩]) ::
    fates.map (.request i)

def indexedApi : IndexChoice := .indexed ⟨"acme/api".toList, "c1".toList, 2, 1⟩ 2

/-- A push is indexed, and the next one has its job in the queue at the second attempt. -/
theorem second_push_pending : ∃ s, Run (Careful "acme/api".toList) empty s ∧ ¬s.Owed "acme/api".toList ∧
    s.Outstanding "acme/api".toList ∧ s.status "acme/api".toList = some .pending := by
  have hplay : ∃ s ∈ play (Careful "acme/api".toList) empty
      (pushed 0 "7a".toList (List.replicate 7 .ok) ++ [.start 0, .work 0 indexedApi] ++
        pushed 1 "7b".toList [.ok, .ok, .ok, .ok, .ok, .fails, .ok, .ok]),
      ¬s.Owed "acme/api".toList ∧ s.Outstanding "acme/api".toList := by
    decide +kernel
  obtain ⟨s, hs, hbetween, hout⟩ := hplay
  have hrun : Run (Careful "acme/api".toList) empty s := run_of_play .refl hs
  have hnone : ¬empty.Outstanding "acme/api".toList := by decide
  have hidle : empty.status "acme/api".toList ≠ some .pending := by decide
  exact ⟨s, hrun, hbetween, hout, ((pending_truthful hnone hidle hrun).1 hbetween).mpr hout⟩

/-- A push whose enqueue fails is rolled back, and leaves a repository pending
that no job is about; and the job of one push ends while that of the next is in
the queue, and says done. -/
theorem pending_not_truthful :
    (∃ s, Run (fun _ _ => True) empty s ∧ ¬s.Owed "acme/api".toList ∧
      s.status "acme/api".toList = some .pending ∧ ¬s.Outstanding "acme/api".toList) ∧
    ∃ s, Run (fun _ _ => True) empty s ∧ ¬s.Owed "acme/api".toList ∧
      s.status "acme/api".toList = some .done ∧ s.Outstanding "acme/api".toList := by
  have hfailed : ∃ s ∈ play (fun _ _ => True) empty
      (pushed 0 "7a".toList [.ok, .ok, .ok, .ok, .ok, .fails, .fails, .fails, .ok, .ok, .ok, .ok]),
      ¬s.Owed "acme/api".toList ∧ s.status "acme/api".toList = some .pending ∧ ¬s.Outstanding "acme/api".toList := by
    decide +kernel
  have hdone : ∃ s ∈ play (fun _ _ => True) empty
      (pushed 0 "7a".toList (List.replicate 7 .ok) ++ [.start 0] ++ pushed 1 "7b".toList (List.replicate 7 .ok) ++
        [.work 0 indexedApi]),
      ¬s.Owed "acme/api".toList ∧ s.status "acme/api".toList = some .done ∧ s.Outstanding "acme/api".toList := by
    decide +kernel
  obtain ⟨s, hs, hs'⟩ := hfailed
  obtain ⟨t, ht, ht'⟩ := hdone
  exact ⟨⟨s, run_of_play .refl hs, hs'⟩, t, run_of_play .refl ht, ht'⟩

end Site

end AiPrReview
