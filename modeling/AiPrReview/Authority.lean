import AiPrReview.Ingress
import AiPrReview.PendingStatus
import AiPrReview.PostedTerminal
import AiPrReview.QueueAgreement
import AiPrReview.RelyGuarantee

/-! The receiver, the worker and the API as one system. What they do to GitHub,
to the index states and to the HITL queue was asked for by a request that is
signed with the webhook's secret, or that bears the API's token. -/

namespace AiPrReview

/-! `require_auth`; `none` is an exception. -/

/-- `API_AUTH_TOKEN`, which must be set and not empty. -/
def expectedToken (apiAuthToken : Option Text) : Option Text := apiAuthToken.filter (· ≠ [])

def checkToken (provided : Option Text) (expected : Text) : Option Bool :=
  match provided.filter (· ≠ []) with
  | none => some false
  | some token => compareDigest token expected

def bearerPrefix : Text := "Bearer ".toList

def providedToken (authorization : Option Text) : Option Text :=
  (authorization.filter bearerPrefix.isPrefixOf).map (List.drop bearerPrefix.length)

def requireAuth (apiAuthToken authorization : Option Text) : Option Bool :=
  (expectedToken apiAuthToken).bind (checkToken (providedToken authorization))

/-- The header holds the token that is configured. -/
def Bears (apiAuthToken authorization : Option Text) : Prop :=
  ∃ token, apiAuthToken = some token ∧ token ≠ [] ∧ authorization = some (bearerPrefix ++ token)

theorem bears_of_requireAuth {apiAuthToken authorization : Option Text}
    (h : requireAuth apiAuthToken authorization = some true) : Bears apiAuthToken authorization := by
  obtain ⟨token, htoken, hcheck⟩ := Option.bind_eq_some_iff.mp h
  obtain ⟨rfl, hne⟩ := Option.filter_eq_some_iff.mp htoken
  refine ⟨token, rfl, by simpa using hne, ?_⟩
  unfold checkToken at hcheck
  cases hprovided : (providedToken authorization).filter (· ≠ []) with
  | none =>
    rw [hprovided] at hcheck
    cases hcheck
  | some provided =>
    rw [hprovided] at hcheck
    have hsame : provided = token := by
      simpa using (Option.ite_none_right_eq_some.mp hcheck).2
    obtain ⟨hmap, _⟩ := Option.filter_eq_some_iff.mp hprovided
    obtain ⟨header, hheader, hdrop⟩ := Option.map_eq_some_iff.mp hmap
    obtain ⟨hauthorization, hprefix⟩ := Option.filter_eq_some_iff.mp hheader
    obtain ⟨rest, rfl⟩ := List.isPrefixOf_iff_prefix.mp hprefix
    rw [List.drop_left] at hdrop
    rw [hauthorization, hdrop, hsame]

/-- A request to `/api/hitl`. -/
inductive HitlAction : Type where
  | approve (reviewId : Nat) (note : Option Text)
  | reject (reviewId : Nat) (note : Option Text)

structure ApiRequest : Type where
  authorization : Option Text
  action : HitlAction

def HitlAction.run : HitlAction → ReviewProg (Except HttpError ResolveResponse)
  | approve reviewId note => AiPrReview.approve reviewId note
  | reject reviewId note => AiPrReview.reject reviewId note

/-- The row that the action claims, and the status it leaves it with. -/
def HitlAction.claims : HitlAction → Nat × HitlStatus
  | approve reviewId _ => (reviewId, .resolved)
  | reject reviewId _ => (reviewId, .dismissed)

def unauthorized : HttpError := ⟨401, "missing or invalid bearer token".toList⟩

def respond (apiAuthToken : Option Text) (request : ApiRequest) :
    ReviewProg (Option (Except HttpError ResolveResponse)) :=
  match requireAuth apiAuthToken request.authorization with
  | none => .ret none
  | some false => .ret (some (.error unauthorized))
  | some true => request.action.run >>= fun answer => .ret (some answer)

/-! The processes and their world. -/

inductive SystemCall : Type where
  | queue (c : QueueCall)
  | review (c : ReviewCall)
  | index (c : IndexCall)
  | takeJob

def SystemCall.Reply : SystemCall → Type
  | queue c => c.Reply
  | review c => c.Reply
  | index c => c.Reply
  | takeJob => Job

abbrev SystemProg : Type := Prog SystemCall.Reply Unit

structure SystemWorld : Type where
  queue : QueueWorld
  reviews : ReviewWorld
  states : IndexStates

def SystemWorld.empty : SystemWorld := ⟨⟨[], [], [], .fresh, 0⟩, emptyWorld, .empty⟩

def onQueue (c : QueueCall) : Prog SystemCall.Reply c.Reply := Prog.perform (SystemCall.queue c)

def onReviews (c : ReviewCall) : Prog SystemCall.Reply c.Reply := Prog.perform (SystemCall.review c)

def onIndex (c : IndexCall) : Prog SystemCall.Reply c.Reply := Prog.perform (SystemCall.index c)

def receiver (parsers : PayloadParsers) (secret : Text) (request : WebhookRequest) : SystemProg :=
  (((ingress parsers secret request).interpret IngressCall.program).interpret onQueue).void

def Job.task : Job → SystemProg
  | .review deliveryId repo prNumber _ => ((runReview ⟨repo, prNumber, deliveryId⟩).interpret onReviews).void
  | .indexRepo _ repo => ((AiPrReview.indexRepo repo).interpret onIndex).void
  | .reindexRepo _ repo beforeSha afterSha added modified removed =>
    ((AiPrReview.reindexRepo repo beforeSha afterSha added modified removed).interpret onIndex).void

def worker : SystemProg := .call .takeJob Job.task

def api (apiAuthToken : Option Text) (request : ApiRequest) : SystemProg :=
  ((respond apiAuthToken request).interpret onReviews).void

/-- A job that is taken stays in the queue if it is to run again. -/
inductive SystemChoice : Type where
  | fate (f : Fate)
  | review (e : ReviewChoice)
  | index (e : IndexChoice)
  | take (n : Nat) (again : Bool)

def SystemCall.exec : (c : SystemCall) → SystemChoice → SystemWorld → Option (c.Reply × SystemWorld)
  | queue c, .fate f, w => (c.exec f w.queue).map fun x =>
    (x.1, { w with queue := x.2, states := c.states f w.states })
  | review c, .review e, w => (c.exec e w.reviews).map fun x => (x.1, { w with reviews := x.2 })
  | index c, .index e, w => (c.exec e w.states).map fun x => (x.1, { w with states := x.2 })
  | takeJob, .take n again, w => w.queue.jobs[n]?.map fun job =>
    (job, { w with queue := { w.queue with jobs := if again then w.queue.jobs else w.queue.jobs.eraseIdx n } })
  | _, _, _ => none

def systemHost : Host SystemCall.Reply SystemChoice SystemWorld where
  exec := SystemCall.exec
  retries
    | .review c => c.retries
    | .index (.markFailed ..) => true
    | _ => false
  drift w w' := queueHost.drift w.queue w'.queue ∧ w'.reviews = w.reviews ∧ w'.states = w.states

/-! A mandate: the jobs and the claims of HITL rows that were asked for. -/

structure Mandate : Type where
  job : Job → Prop
  claim : Nat → HitlStatus → Prop

namespace Mandate

variable (M : Mandate)

def repoOf (deliveryId repo : Text) : Prop := ∃ prNumber action, M.job (.review deliveryId repo prNumber action)

def numberOf (deliveryId : Text) (prNumber : Int) : Prop :=
  ∃ repo action, M.job (.review deliveryId repo prNumber action)

/-- The repository and the number were asked for under one delivery id. -/
def review (repo : Text) (prNumber : Int) : Prop := ∃ d, M.repoOf d repo ∧ M.numberOf d prNumber

def index (repo : Text) : Prop := ∃ job, M.job job ∧ job.indexedRepo = some repo

def permitsQueue (c : QueueCall) : Prop :=
  (∀ job, c = .command (.enqueue job) → M.job job) ∧ ∀ repo, c.marked = some repo → M.index repo

def permitsReview : ReviewCall → Prop
  | .upsertReview repo prNumber deliveryId => M.repoOf deliveryId repo ∧ M.numberOf deliveryId prNumber
  | .postReview _ repo prNumber _ _ => M.review repo prNumber
  | .resolve reviewId status _ => M.claim reviewId status
  | _ => True

def tellsReview : (c : ReviewCall) → c.Reply → Prop
  | .getReview _, found => ∀ x ∈ (found : Option (Text × Int × Option ℚ)), M.review x.1 x.2.1
  | _, _ => True

def permits : SystemCall → Prop
  | .queue c => M.permitsQueue c
  | .review c => M.permitsReview c
  | .index c => M.index c.repo
  | .takeJob => True

def tells : (c : SystemCall) → c.Reply → Prop
  | .review c, r => M.tellsReview c r
  | .takeJob, job => M.job job
  | _, _ => True

/-- What was asked for stays so: the world has no part in the contracts. -/
def onCalls {C : Type} {R : C → Type} (permits : C → Prop) (tells : (c : C) → R c → Prop) :
    Contract R SystemWorld where
  later _ _ := True
  later_refl _ := trivial
  later_trans _ _ := trivial
  permits c _ := permits c
  tells c r _ _ := tells c r

def system : Contract SystemCall.Reply SystemWorld := onCalls M.permits M.tells

def reviews : Contract ReviewCall.Reply SystemWorld := onCalls M.permitsReview M.tellsReview

def queue : Contract QueueCall.Reply SystemWorld := onCalls M.permitsQueue fun _ _ => True

def states : Contract IndexCall.Reply SystemWorld := onCalls (fun c => M.index c.repo) fun _ _ => True

end Mandate

/-- The program makes calls of the contract, in any world. -/
def Obeys {C : Type} {R : C → Type} {α : Type} (K : Contract R SystemWorld) (p : Prog R α) : Prop :=
  ∀ w, p.Keeps K (fun _ _ => True) w

section

variable {M : Mandate} {C : Type} {R : C → Type} {α β : Type} {K : Contract R SystemWorld}

theorem Obeys.bind {p : Prog R α} {f : α → Prog R β} (hp : Obeys K p) (hf : ∀ a, Obeys K (f a)) :
    Obeys K (p >>= f) :=
  fun w => (hp w).bind fun a w' _ _ => hf a w'

theorem obeys_ret (a : α) : Obeys K (.ret a) := fun _ _ _ => trivial

theorem Obeys.void {p : Prog R α} (hp : Obeys K p) : Obeys K p.void := hp.bind fun _ => obeys_ret ()

section

variable {permits : C → Prop} {tells : (c : C) → R c → Prop} {c : C}

theorem Obeys.call {k : R c → Prog R α} (hc : permits c)
    (hk : ∀ r, tells c r → Obeys (Mandate.onCalls permits tells) (k r)) :
    Obeys (Mandate.onCalls permits tells) (.call c k) :=
  fun _ => Prog.Keeps.call (fun _ _ => hc) fun r _ w' _ _ htells => hk r htells w'

theorem obeys_perform (hc : permits c) : Obeys (Mandate.onCalls permits tells) (Prog.perform c) :=
  Obeys.call hc fun r _ => obeys_ret r

theorem Obeys.interpret {C' : Type} {R' : C' → Type} {permits' : C' → Prop} {tells' : (c : C') → R' c → Prop}
    {h : (c : C) → Prog R' (R c)}
    (hcalls : ∀ c w, permits c → (h c).Keeps (Mandate.onCalls permits' tells') (fun r _ => tells c r) w) {p : Prog R α}
    (hp : Obeys (Mandate.onCalls permits tells) p) : Obeys (Mandate.onCalls permits' tells') (p.interpret h) :=
  fun w => Prog.Keeps.interpret (fun _ _ _ => trivial) hcalls (hp w)

end

/-! The review programs. -/

theorem obeys_insertFindings (id : Nat) (fs : List Finding) : Obeys M.reviews (TruthStore.insertFindings id fs) := by
  unfold TruthStore.insertFindings
  split_ifs
  · exact obeys_ret ()
  · exact obeys_perform trivial

theorem obeys_applyGate {repo : Text} {prNumber : Int} (h : M.review repo prNumber) (id : Nat) (threshold : ℚ)
    (fs : List Finding) : Obeys M.reviews (applyGate repo prNumber id threshold fs) := by
  refine Obeys.bind (obeys_perform trivial) fun _ => ?_
  split_ifs
  · refine Obeys.bind (obeys_perform h) fun gid => ?_
    exact Obeys.bind (obeys_perform trivial) fun _ => obeys_ret _
  · refine Obeys.bind (obeys_perform trivial) fun rowId => ?_
    exact Obeys.bind (obeys_perform trivial) fun _ => obeys_ret _

theorem obeys_aggregate {repo d : Text} {prNumber : Int} (hrepo : M.repoOf d repo) (hnumber : M.numberOf d prNumber)
    (family : List (List Finding)) (threshold : ℚ) :
    Obeys M.reviews (aggregate repo prNumber d family threshold) := by
  rw [aggregate_eq]
  refine Obeys.call ⟨hrepo, hnumber⟩ fun row _ => ?_
  split_ifs
  · refine Obeys.bind (obeys_insertFindings _ _) fun _ => ?_
    exact obeys_applyGate ⟨d, hrepo, hnumber⟩ _ _ _
  · exact obeys_ret _

theorem obeys_runReview {repo d action : Text} {prNumber : Int} (h : M.job (.review d repo prNumber action)) :
    Obeys M.reviews (runReview ⟨repo, prNumber, d⟩) := by
  have hrepo : M.repoOf d repo := ⟨prNumber, action, h⟩
  have hnumber : M.numberOf d prNumber := ⟨repo, action, h⟩
  refine Obeys.bind (obeys_perform ⟨hrepo, hnumber⟩) fun row => ?_
  split_ifs
  · exact obeys_ret _
  · refine Obeys.bind (obeys_perform trivial) fun diffText => ?_
    refine Obeys.bind ?_ fun a => obeys_ret _
    refine Obeys.bind (obeys_perform trivial) fun reply => ?_
    cases (reply : GraphReply) with
    | finished a => exact obeys_ret a
    | join entries =>
      refine Obeys.bind ?_ fun a => Obeys.bind (obeys_perform trivial) fun _ => obeys_ret a
      exact Obeys.bind (obeys_aggregate hrepo hnumber _ _) fun result => obeys_ret _

theorem obeys_action {action : HitlAction} (h : M.claim action.claims.1 action.claims.2) :
    Obeys M.reviews action.run := by
  cases action with
  | approve id note =>
    rw [HitlAction.run, approve_eq]
    refine Obeys.call h fun claimed _ => ?_
    split_ifs
    · refine Obeys.call trivial fun found hfound => ?_
      cases (found : Option (Text × Int × Option ℚ)) with
      | none => exact obeys_ret _
      | some x =>
        refine Obeys.call trivial fun findings _ => ?_
        refine Obeys.call (hfound x rfl) fun gid _ => ?_
        exact Obeys.call trivial fun _ _ => obeys_ret _
    · exact obeys_ret _
  | reject id note =>
    rw [HitlAction.run, reject_eq]
    refine Obeys.call h fun claimed _ => ?_
    split_ifs
    · exact obeys_ret _
    · exact obeys_ret _

theorem obeys_respond {apiAuthToken : Option Text} {request : ApiRequest}
    (h : Bears apiAuthToken request.authorization → M.claim request.action.claims.1 request.action.claims.2) :
    Obeys M.reviews (respond apiAuthToken request) := by
  unfold respond
  cases hauth : requireAuth apiAuthToken request.authorization with
  | none => exact obeys_ret _
  | some valid =>
    cases valid with
    | false => exact obeys_ret _
    | true => exact (obeys_action (h (bears_of_requireAuth hauth))).bind fun answer => obeys_ret _

/-! The jobs that index, and the receiver. -/

theorem obeys_endIndex {repo : Text} (h : M.index repo) (reply : Except Text IndexResult) :
    Obeys M.states (endIndex repo reply) := by
  cases reply with
  | ok result => exact obeys_ret _
  | error error => exact Obeys.call h fun _ _ => obeys_ret _

theorem obeys_indexRepo {repo : Text} (h : M.index repo) : Obeys M.states (indexRepo repo) :=
  Obeys.call h fun reply _ => obeys_endIndex h reply

theorem obeys_reindexRepo {repo : Text} (h : M.index repo) (beforeSha afterSha : Text)
    (added modified removed : List Text) :
    Obeys M.states (reindexRepo repo beforeSha afterSha added modified removed) :=
  Obeys.call h fun reply _ => obeys_endIndex h reply

theorem obeys_withRetry {cmd : RedisCommand} (h : M.permitsQueue (.command cmd)) (n : Nat) :
    Obeys M.queue (withRetry cmd n) := by
  induction n with
  | zero => exact obeys_ret none
  | succ n ih =>
    refine Obeys.call h fun r _ => ?_
    cases (r : Option Bool) with
    | none => exact ih
    | some reply => exact obeys_ret _

theorem obeys_guarded {cmd : RedisCommand} (h : M.permitsQueue (.command cmd)) : Obeys M.queue (guarded cmd) := by
  have hother : ∀ c : QueueCall, (∀ job, c ≠ .command (.enqueue job)) → c.marked = none → M.permitsQueue c :=
    fun c hc hm => ⟨fun job he => absurd he (hc job), fun repo hr => by rw [hm] at hr; cases hr⟩
  refine Obeys.call (hother _ (by simp) rfl) fun admitted _ => ?_
  split_ifs
  · refine Obeys.bind (obeys_withRetry h _) fun r => ?_
    cases r with
    | none => exact Obeys.call (hother _ (by simp) rfl) fun _ _ => obeys_ret _
    | some reply => exact Obeys.call (hother _ (by simp) rfl) fun _ _ => obeys_ret _
  · exact obeys_ret _

def Mandate.permitsIngress (M : Mandate) : IngressCall → Prop
  | .enqueue job => M.job job
  | .markPending repo => M.index repo
  | _ => True

def Mandate.ingress (M : Mandate) : Contract IngressCall.Reply SystemWorld := onCalls M.permitsIngress fun _ _ => True

theorem obeys_program {c : IngressCall} (h : M.permitsIngress c) : Obeys M.queue c.program := by
  have hplain : ∀ cmd : RedisCommand, (∀ job, cmd ≠ .enqueue job) → M.permitsQueue (.command cmd) :=
    fun cmd hc => ⟨fun job he => absurd (QueueCall.command.inj he) (hc job), fun repo hr => by cases hr⟩
  cases c with
  | markSeen d => exact obeys_guarded (hplain _ (by simp))
  | unclaim d => exact obeys_guarded (hplain _ (by simp))
  | enqueue job =>
    refine obeys_guarded ⟨fun job' he => ?_, fun repo hr => (by cases hr)⟩
    obtain rfl := RedisCommand.enqueue.inj (QueueCall.command.inj he)
    exact h
  | markPending repo =>
    refine obeys_perform ⟨fun job he => (by cases he), fun repo' hr => ?_⟩
    obtain rfl := Option.some.inj hr
    exact h

theorem obeys_ingressOps {ops : List EnqueueOp}
    (h : ∀ op ∈ ops, M.job op.job ∧ ∀ repo, op.pendingRepo = some repo → M.index repo) :
    Obeys M.ingress (ingressOps ops) := by
  induction ops with
  | nil => exact obeys_ret _
  | cons op ops ih =>
    obtain ⟨hjob, hmark⟩ := h op List.mem_cons_self
    refine Obeys.bind ?_ fun r => ?_
    · unfold EnqueueOp.ingress
      cases hp : op.pendingRepo with
      | none => exact obeys_perform hjob
      | some repo =>
        refine Obeys.call (hmark repo hp) fun r _ => ?_
        cases (r : Option Unit) with
        | none => exact obeys_ret _
        | some u => exact obeys_perform hjob
    · cases r with
      | none => exact obeys_ret _
      | some b => exact ih fun op' hop' => h op' (List.mem_cons_of_mem op hop')

theorem obeys_claimAndEnqueue {ops : List EnqueueOp} (d : Text)
    (h : ∀ op ∈ ops, M.job op.job ∧ ∀ repo, op.pendingRepo = some repo → M.index repo) :
    Obeys M.ingress (claimAndEnqueue d ops) := by
  refine Obeys.call trivial fun isNew _ => ?_
  rcases (isNew : Option Bool) with _ | (_ | _)
  · exact obeys_ret _
  · exact obeys_ret _
  · refine (obeys_ingressOps h).bind fun r => ?_
    cases r with
    | none => exact Obeys.call trivial fun _ _ => obeys_ret _
    | some u => exact obeys_ret _

end

/-! Who asks. -/

def WebhookEvent.repositories : WebhookEvent → List Text
  | pullRequest .. => []
  | installation _ repositories => repositories
  | installationRepositories added => added
  | push _ _ repo _ => [repo]

section

variable (parsers : PayloadParsers) (secret : Text) (apiAuthToken : Option Text)
  (webhooks : WebhookRequest → Prop) (requests : ApiRequest → Prop)

def SignedEvent (d : Text) (payload : WebhookEvent) : Prop :=
  ∃ request, webhooks request ∧ request.signature = some (signatureOf request.rawBody secret) ∧
    Actionable parsers request d payload

def mandateOf : Mandate where
  job job := ∃ payload ops, SignedEvent parsers secret webhooks job.deliveryId payload ∧
    buildEnqueueOps job.deliveryId payload = some ops ∧ job ∈ ops.map EnqueueOp.job
  claim reviewId status := ∃ request, requests request ∧ Bears apiAuthToken request.authorization ∧
    request.action.claims = (reviewId, status)

end

theorem deliveryId_of_mem_ops {d : Text} {payload : WebhookEvent} {ops : List EnqueueOp}
    (h : buildEnqueueOps d payload = some ops) {op : EnqueueOp} (hop : op ∈ ops) : op.job.deliveryId = d := by
  have hindex : ∀ repos : List Text, op ∈ repos.map (indexOp d) → op.job.deliveryId = d := by
    intro repos hmem
    obtain ⟨repo, _, rfl⟩ := List.mem_map.mp hmem
    rfl
  cases payload with
  | pullRequest action number repo =>
    obtain rfl := Option.some.inj h
    rw [List.mem_singleton.mp hop]
    rfl
  | installation action repositories =>
    obtain ⟨_, hops⟩ := Option.ite_none_left_eq_some.mp h
    exact hindex repositories (Option.some.inj hops ▸ hop)
  | installationRepositories added =>
    obtain ⟨_, hops⟩ := Option.ite_none_left_eq_some.mp h
    exact hindex added (Option.some.inj hops ▸ hop)
  | push before after repo commits =>
    obtain ⟨_, hops⟩ := Option.ite_none_left_eq_some.mp h
    obtain rfl := Option.some.inj hops
    rw [List.mem_singleton.mp hop]
    rfl

theorem repo_of_mem_ops {d : Text} {payload : WebhookEvent} {ops : List EnqueueOp}
    (h : buildEnqueueOps d payload = some ops) {op : EnqueueOp} (hop : op ∈ ops) {repo : Text}
    (hrepo : op.job.indexedRepo = some repo) : repo ∈ payload.repositories := by
  have hindex : ∀ repos : List Text, op ∈ repos.map (indexOp d) → repo ∈ repos := by
    intro repos hmem
    obtain ⟨repo', hmem', rfl⟩ := List.mem_map.mp hmem
    obtain rfl := Option.some.inj hrepo
    exact hmem'
  cases payload with
  | pullRequest action number repo' =>
    obtain rfl := Option.some.inj h
    rw [List.mem_singleton.mp hop] at hrepo
    cases hrepo
  | installation action repositories =>
    obtain ⟨_, hops⟩ := Option.ite_none_left_eq_some.mp h
    exact hindex repositories (Option.some.inj hops ▸ hop)
  | installationRepositories added =>
    obtain ⟨_, hops⟩ := Option.ite_none_left_eq_some.mp h
    exact hindex added (Option.some.inj hops ▸ hop)
  | push before after repo' commits =>
    obtain ⟨_, hops⟩ := Option.ite_none_left_eq_some.mp h
    obtain rfl := Option.some.inj hops
    rw [List.mem_singleton.mp hop] at hrepo
    obtain rfl := Option.some.inj hrepo
    exact List.mem_singleton.mpr rfl

/-- The only operation that makes a review job is that of a pull request. -/
theorem payload_of_review {d repo action : Text} {prNumber : Int} {payload : WebhookEvent} {ops : List EnqueueOp}
    (h : buildEnqueueOps d payload = some ops) (hjob : .review d repo prNumber action ∈ ops.map EnqueueOp.job) :
    payload = .pullRequest action prNumber repo := by
  obtain ⟨op, hop, hreview⟩ := List.mem_map.mp hjob
  cases payload with
  | pullRequest action' number repo' =>
    obtain rfl := Option.some.inj h
    rw [List.mem_singleton.mp hop] at hreview
    cases hreview
    rfl
  | push before after repo' commits =>
    obtain ⟨_, hops⟩ := Option.ite_none_left_eq_some.mp h
    obtain rfl := Option.some.inj hops
    rw [List.mem_singleton.mp hop] at hreview
    cases hreview
  | _ =>
    obtain ⟨_, hops⟩ := Option.ite_none_left_eq_some.mp h
    obtain rfl := Option.some.inj hops
    obtain ⟨_, _, rfl⟩ := List.mem_map.mp hop
    cases hreview

section

variable {parsers : PayloadParsers} {secret : Text} {apiAuthToken : Option Text}
  {webhooks : WebhookRequest → Prop} {requests : ApiRequest → Prop}

theorem signedEvent_of_job {d repo action : Text} {prNumber : Int}
    (h : (mandateOf parsers secret apiAuthToken webhooks requests).job (.review d repo prNumber action)) :
    SignedEvent parsers secret webhooks d (.pullRequest action prNumber repo) := by
  obtain ⟨payload, ops, hsigned, hops, hmem⟩ := h
  obtain rfl := payload_of_review hops hmem
  exact hsigned

theorem signedEvent_of_index {repo : Text}
    (h : (mandateOf parsers secret apiAuthToken webhooks requests).index repo) :
    ∃ d payload, SignedEvent parsers secret webhooks d payload ∧ repo ∈ payload.repositories := by
  obtain ⟨job, ⟨payload, ops, hsigned, hops, hmem⟩, hrepo⟩ := h
  obtain ⟨op, hop, rfl⟩ := List.mem_map.mp hmem
  exact ⟨_, payload, hsigned, repo_of_mem_ops hops hop hrepo⟩

theorem obeys_ingress {request : WebhookRequest} (hrequest : webhooks request) :
    Obeys (mandateOf parsers secret apiAuthToken webhooks requests).ingress (ingress parsers secret request) := by
  unfold ingress
  cases hverify : verifySignature request.rawBody secret request.signature with
  | none => exact obeys_ret _
  | some valid =>
    cases valid with
    | false => exact obeys_ret _
    | true =>
      dsimp only
      cases hd : request.delivery.filter (· ≠ []) with
      | none => exact obeys_ret _
      | some d =>
        dsimp only
        cases he : request.event.filter (handledEvents.contains ·) with
        | none => exact obeys_ret _
        | some event =>
          dsimp only
          cases hparse : parsers.parse event request.rawBody with
          | error message => exact obeys_ret _
          | ok payload =>
            dsimp only
            cases hops : buildEnqueueOps d payload with
            | none => exact obeys_ret _
            | some ops =>
              refine Obeys.bind (obeys_claimAndEnqueue d fun op hop => ?_) fun r => obeys_ret _
              obtain ⟨hdelivery, hne⟩ := Option.filter_eq_some_iff.mp hd
              obtain ⟨hevent, hhandled⟩ := Option.filter_eq_some_iff.mp he
              have hact : Actionable parsers request d payload :=
                ⟨⟨hdelivery, by simpa using hne⟩, event, by simpa using hhandled, hevent, hparse⟩
              have hsigned : SignedEvent parsers secret webhooks d payload :=
                ⟨request, hrequest, (verifySignature_spec _ _ _).2.mp hverify, hact⟩
              have hjob : (mandateOf parsers secret apiAuthToken webhooks requests).job op.job := by
                refine ⟨payload, ops, ?_, ?_, List.mem_map_of_mem hop⟩
                · rw [deliveryId_of_mem_ops hops hop]
                  exact hsigned
                · rw [deliveryId_of_mem_ops hops hop]
                  exact hops
              refine ⟨hjob, fun repo hrepo => ⟨op.job, hjob, ?_⟩⟩
              rw [indexedRepo_of_mem_ops hops op hop]
              exact hrepo

end

/-! What one call adds. -/

section

variable {e : ReviewChoice} {w w' : ReviewWorld} {c : ReviewCall} {r : c.Reply}

/-- A review has the repository it was inserted with, and the last number that was upserted. -/
theorem review_of_exec (h : c.exec e w = some (r, w')) {d : Text} {row : ReviewRecord}
    (hrow : w'.db.review d = some row) :
    c = .upsertReview row.repo row.prNumber d ∨ ∃ old, w.db.review d = some old ∧ old.repo = row.repo ∧
      (old.prNumber = row.prNumber ∨ ∃ repo, c = .upsertReview repo row.prNumber d) := by
  have hsame : w'.db.review d = w.db.review d → c = .upsertReview row.repo row.prNumber d ∨
      ∃ old, w.db.review d = some old ∧ old.repo = row.repo ∧
        (old.prNumber = row.prNumber ∨ ∃ repo, c = .upsertReview repo row.prNumber d) :=
    fun hd => .inr ⟨row, hd ▸ hrow, rfl, .inl rfl⟩
  cases c with
  | upsertReview repo prNumber d' =>
    obtain ⟨rfl, _⟩ := exec_upsertReview h
    by_cases hd : d' = d
    · subst hd
      rw [ReviewDb.review_upsertReview_self] at hrow
      cases hold : w.db.review d' with
      | none =>
        rw [hold] at hrow
        obtain rfl := Option.some.inj hrow
        exact .inl rfl
      | some old =>
        rw [hold] at hrow
        obtain rfl := Option.some.inj hrow
        exact .inr ⟨old, rfl, rfl, .inr ⟨repo, rfl⟩⟩
    · exact hsame (ReviewDb.review_upsertReview_of_ne w.db repo prNumber hd)
  | insertFindings id fs =>
    obtain ⟨hfk, rfl⟩ := exec_insertFindings h
    exact hsame (ReviewDb.review_insertFindings w.db id fs hfk d)
  | enqueue id reason =>
    obtain ⟨hfk, rfl⟩ := exec_enqueue h
    exact hsame rfl
  | resolve id status note =>
    obtain ⟨rfl, _⟩ := exec_resolve h
    exact hsame rfl
  | postReview id repo prNumber body event =>
    obtain ⟨_, rfl⟩ := exec_postReview h
    exact hsame rfl
  | markPosted id gid score =>
    obtain rfl := exec_markPosted h
    rw [ReviewDb.review_markPosted] at hrow
    obtain ⟨old, hold, rfl⟩ := Option.map_eq_some_iff.mp hrow
    refine .inr ⟨old, hold, ?_⟩
    split_ifs <;> exact ⟨rfl, .inl rfl⟩
  | setStatus id status score =>
    obtain rfl := exec_setStatus h
    rw [ReviewDb.review_setStatus] at hrow
    obtain ⟨old, hold, rfl⟩ := Option.map_eq_some_iff.mp hrow
    refine .inr ⟨old, hold, ?_⟩
    split_ifs <;> exact ⟨rfl, .inl rfl⟩
  | _ =>
    obtain rfl := exec_of_reads rfl h
    exact hsame rfl

theorem post_of_exec (h : c.exec e w = some (r, w')) {post : PostedReview} (hpost : post ∈ w'.github) :
    post ∈ w.github ∨ c = .postReview post.reviewId post.repo post.prNumber post.body post.event := by
  cases c with
  | postReview id repo prNumber body event =>
    obtain ⟨_, rfl⟩ := exec_postReview h
    rcases List.mem_append.mp hpost with hold | hnew
    · exact .inl hold
    · obtain rfl := List.mem_singleton.mp hnew
      exact .inr rfl
  | upsertReview repo prNumber d =>
    obtain ⟨rfl, _⟩ := exec_upsertReview h
    exact .inl hpost
  | insertFindings id fs =>
    obtain ⟨_, rfl⟩ := exec_insertFindings h
    exact .inl hpost
  | enqueue id reason =>
    obtain ⟨_, rfl⟩ := exec_enqueue h
    exact .inl hpost
  | resolve id status note =>
    obtain ⟨rfl, _⟩ := exec_resolve h
    exact .inl hpost
  | markPosted id gid score =>
    obtain rfl := exec_markPosted h
    exact .inl hpost
  | setStatus id status score =>
    obtain rfl := exec_setStatus h
    exact .inl hpost
  | _ =>
    obtain rfl := exec_of_reads rfl h
    exact .inl hpost

theorem claim_of_exec (h : c.exec e w = some (r, w')) {row : HitlRow} (hrow : row ∈ w'.db.hitl)
    (hclaimed : row.status ≠ .pending) : row ∈ w.db.hitl ∨ ∃ note, c = .resolve row.reviewId row.status note := by
  cases c with
  | resolve id status note =>
    obtain ⟨rfl, _⟩ := exec_resolve h
    obtain ⟨old, hold, rfl⟩ := List.mem_map.mp hrow
    split_ifs with hfor
    · have hid : old.reviewId = id := (ReviewDb.isFor_iff.mp hfor).1
      exact .inr ⟨note, by rw [hid]⟩
    · exact .inl hold
  | enqueue id reason =>
    obtain ⟨_, rfl⟩ := exec_enqueue h
    rcases List.mem_append.mp hrow with hold | hnew
    · exact .inl hold
    · rw [List.mem_singleton.mp hnew] at hclaimed
      exact absurd rfl hclaimed
  | upsertReview repo prNumber d =>
    obtain ⟨rfl, _⟩ := exec_upsertReview h
    rw [ReviewDb.hitl_upsertReview] at hrow
    exact .inl hrow
  | insertFindings id fs =>
    obtain ⟨_, rfl⟩ := exec_insertFindings h
    rw [ReviewDb.hitl_insertFindings] at hrow
    exact .inl hrow
  | markPosted id gid score =>
    obtain rfl := exec_markPosted h
    exact .inl hrow
  | setStatus id status score =>
    obtain rfl := exec_setStatus h
    exact .inl hrow
  | postReview id repo prNumber body event =>
    obtain ⟨_, rfl⟩ := exec_postReview h
    exact .inl hrow
  | _ =>
    obtain rfl := exec_of_reads rfl h
    exact .inl hrow

end

theorem job_of_exec {c : QueueCall} {fate : Fate} {w w' : QueueWorld} {r : c.Reply}
    (h : c.exec fate w = some (r, w')) {job : Job} (hjob : job ∈ w'.jobs) :
    job ∈ w.jobs ∨ c = .command (.enqueue job) := by
  have hrun : ∀ cmd : RedisCommand, job ∈ (cmd.run w).2.jobs →
      job ∈ w.jobs ∨ QueueCall.command cmd = .command (.enqueue job) := by
    intro cmd hmem
    cases cmd with
    | setNx d =>
      simp only [RedisCommand.run] at hmem
      split_ifs at hmem <;> exact .inl hmem
    | delete d => exact .inl hmem
    | enqueue job' =>
      rcases List.mem_append.mp hmem with hold | hnew
      · exact .inl hold
      · exact .inr (by rw [List.mem_singleton.mp hnew])
  cases c with
  | command cmd =>
    cases fate with
    | fails =>
      cases h
      exact .inl hjob
    | _ =>
      cases h
      exact hrun cmd hjob
  | markPending repo => cases fate <;> cases h <;> exact .inl hjob
  | _ => cases fate <;> cases h; exact .inl hjob

/-! The system keeps within the mandate. -/

namespace Mandate

structure Holds (M : Mandate) (w : SystemWorld) : Prop where
  jobs : ∀ job ∈ w.queue.jobs, M.job job
  rows : ∀ d row, w.reviews.db.review d = some row → M.repoOf d row.repo ∧ M.numberOf d row.prNumber
  posts : ∀ post ∈ w.reviews.github, M.review post.repo post.prNumber
  claims : ∀ row ∈ w.reviews.db.hitl, row.status ≠ .pending → M.claim row.reviewId row.status
  states : ∀ repo status, statusOf w.states repo = some status → M.index repo

variable {M : Mandate} {w : SystemWorld}

theorem Holds.review (I : M.Holds w) {c : ReviewCall} {e : ReviewChoice} {r : c.Reply} {reviews : ReviewWorld}
    (hc : M.permitsReview c) (h : c.exec e w.reviews = some (r, reviews)) :
    M.Holds { w with reviews := reviews } ∧ M.tellsReview c r := by
  refine ⟨⟨I.jobs, fun d row hrow => ?_, fun post hpost => ?_, fun row hrow hclaimed => ?_, I.states⟩, ?_⟩
  · rcases review_of_exec h hrow with rfl | ⟨old, hold, hrepo, hnumber⟩
    · exact hc
    · obtain ⟨hrepo', hnumber'⟩ := I.rows d old hold
      rw [← hrepo]
      refine ⟨hrepo', ?_⟩
      rcases hnumber with hnumber | ⟨repo, rfl⟩
      · rw [← hnumber]
        exact hnumber'
      · exact hc.2
  · rcases post_of_exec h hpost with hold | rfl
    · exact I.posts post hold
    · exact hc
  · rcases claim_of_exec h hrow hclaimed with hold | ⟨note, rfl⟩
    · exact I.claims row hold hclaimed
    · exact hc
  · cases c with
    | getReview id =>
      obtain rfl := congrArg Prod.fst (Option.some.inj h)
      intro x hx
      obtain ⟨row, hrow, rfl⟩ := Option.map_eq_some_iff.mp hx
      have hmem := (ReviewDb.reviewById_eq_some_iff.mp hrow).1
      exact ⟨row.githubDeliveryId, I.rows _ row (Table.mem_rows_iff.mp hmem)⟩
    | _ => exact trivial

theorem Holds.queue (I : M.Holds w) {c : QueueCall} {fate : Fate} {r : c.Reply} {queue : QueueWorld}
    (hc : M.permitsQueue c) (h : c.exec fate w.queue = some (r, queue)) :
    M.Holds { w with queue := queue, states := c.states fate w.states } := by
  refine ⟨fun job hjob => ?_, I.rows, I.posts, I.claims, fun repo status hstatus => ?_⟩
  · rcases job_of_exec h hjob with hold | hnew
    · exact I.jobs job hold
    · exact hc.1 job hnew
  · have hstates := QueueCall.statusOf_states c fate w.states repo
    split_ifs at hstates with hmarked
    · exact hc.2 repo hmarked.1
    · exact I.states repo status (hstates ▸ hstatus)

theorem Holds.index (I : M.Holds w) {c : IndexCall} {e : IndexChoice} {r : c.Reply} {states : IndexStates}
    (hc : M.index c.repo) (h : c.exec e w.states = some (r, states)) : M.Holds { w with states := states } := by
  refine ⟨I.jobs, I.rows, I.posts, I.claims, fun repo status hstatus => ?_⟩
  by_cases hrepo : c.repo = repo
  · exact hrepo ▸ hc
  · have hother := (IndexCall.exec_status h).1 repo hrepo
    exact I.states repo status (hother ▸ hstatus)

theorem honours_system : systemHost.Honours M.system M.Holds := by
  refine ⟨fun c e w r w' I hpermits h => ?_, fun w w' I hd => ⟨?_, trivial⟩⟩
  · show M.Holds w' ∧ True ∧ M.tells c r
    cases c with
    | queue c =>
      cases e with
      | fate f =>
        obtain ⟨⟨r', queue⟩, hexec, hx⟩ := Option.map_eq_some_iff.mp h
        obtain ⟨rfl, rfl⟩ := Prod.mk.inj hx
        exact ⟨I.queue hpermits hexec, trivial, trivial⟩
      | _ => cases h
    | review c =>
      cases e with
      | review e =>
        obtain ⟨⟨r', reviews⟩, hexec, hx⟩ := Option.map_eq_some_iff.mp h
        obtain ⟨rfl, rfl⟩ := Prod.mk.inj hx
        obtain ⟨I', htells⟩ := I.review hpermits hexec
        exact ⟨I', trivial, htells⟩
      | _ => cases h
    | index c =>
      cases e with
      | index e =>
        obtain ⟨⟨r', states⟩, hexec, hx⟩ := Option.map_eq_some_iff.mp h
        obtain ⟨rfl, rfl⟩ := Prod.mk.inj hx
        exact ⟨I.index hpermits hexec, trivial, trivial⟩
      | _ => cases h
    | takeJob =>
      cases e with
      | take n again =>
        obtain ⟨job, hjob, hx⟩ := Option.map_eq_some_iff.mp h
        obtain ⟨rfl, rfl⟩ := Prod.mk.inj hx
        refine ⟨⟨fun job' hjob' => I.jobs job' ?_, I.rows, I.posts, I.claims, I.states⟩, trivial,
          I.jobs job (List.mem_of_getElem? hjob)⟩
        dsimp only at hjob'
        split_ifs at hjob'
        · exact hjob'
        · exact List.mem_of_mem_eraseIdx hjob'
      | _ => cases h
  · obtain ⟨⟨_, _, hjobs⟩, hreviews, hstates⟩ := hd
    refine ⟨?_, ?_, ?_, ?_, ?_⟩
    · rw [hjobs]
      exact I.jobs
    · rw [hreviews]
      exact I.rows
    · rw [hreviews]
      exact I.posts
    · rw [hreviews]
      exact I.claims
    · rw [hstates]
      exact I.states

end Mandate

section

variable {parsers : PayloadParsers} {secret : Text} {apiAuthToken : Option Text}
  {webhooks : WebhookRequest → Prop} {requests : ApiRequest → Prop}

theorem Obeys.onReviews {M : Mandate} {α : Type} {p : ReviewProg α} (h : Obeys M.reviews p) :
    Obeys M.system (p.interpret AiPrReview.onReviews) := by
  have hcalls : ∀ c w, M.permitsReview c →
      (AiPrReview.onReviews c).Keeps M.system (fun r _ => M.tellsReview c r) w := fun c w hc =>
    Prog.Keeps.call (c := SystemCall.review c) (fun _ _ => hc) fun _ _ _ _ _ htells _ _ => htells
  exact Obeys.interpret hcalls h

theorem Obeys.onQueue {M : Mandate} {α : Type} {p : QueueProg α} (h : Obeys M.queue p) :
    Obeys M.system (p.interpret AiPrReview.onQueue) := by
  have hcalls : ∀ c w, M.permitsQueue c → (AiPrReview.onQueue c).Keeps M.system (fun _ _ => True) w :=
    fun c w hc => Prog.Keeps.call (c := SystemCall.queue c) (fun _ _ => hc) fun _ _ _ _ _ _ _ _ => trivial
  exact Obeys.interpret hcalls h

theorem Obeys.onIndex {M : Mandate} {α : Type} {p : IndexProg α} (h : Obeys M.states p) :
    Obeys M.system (p.interpret AiPrReview.onIndex) := by
  have hcalls : ∀ c : IndexCall, ∀ w, M.index c.repo →
      (AiPrReview.onIndex c).Keeps M.system (fun _ _ => True) w :=
    fun c w hc => Prog.Keeps.call (c := SystemCall.index c) (fun _ _ => hc) fun _ _ _ _ _ _ _ _ => trivial
  exact Obeys.interpret hcalls h

theorem obeys_task {M : Mandate} {job : Job} (h : M.job job) : Obeys M.system job.task := by
  cases job with
  | review d repo prNumber action => exact (obeys_runReview h).onReviews.void
  | indexRepo d repo => exact (obeys_indexRepo ⟨_, h, rfl⟩).onIndex.void
  | reindexRepo d repo beforeSha afterSha added modified removed =>
    exact (obeys_reindexRepo ⟨_, h, rfl⟩ beforeSha afterSha added modified removed).onIndex.void

variable (parsers secret apiAuthToken webhooks requests) in
/-- What runs: any number of requests to the receiver and to the API, and workers
that take one job each. -/
def process (p : SystemProg) : Prop :=
  (∃ request, webhooks request ∧ p = receiver parsers secret request) ∨ p = worker ∨
    ∃ request, requests request ∧ p = api apiAuthToken request

theorem obeys_process {p : SystemProg} (h : process parsers secret apiAuthToken webhooks requests p) :
    Obeys (mandateOf parsers secret apiAuthToken webhooks requests).system p := by
  rcases h with ⟨request, hrequest, rfl⟩ | rfl | ⟨request, hrequest, rfl⟩
  · have hingress : Obeys (mandateOf parsers secret apiAuthToken webhooks requests).ingress
        (ingress parsers secret request) := obeys_ingress hrequest
    have hqueue : Obeys (mandateOf parsers secret apiAuthToken webhooks requests).queue
        ((ingress parsers secret request).interpret IngressCall.program) :=
      hingress.interpret fun c w hc => obeys_program hc w
    exact hqueue.onQueue.void
  · exact Obeys.call trivial fun job hjob => obeys_task hjob
  · refine (obeys_respond fun hbears => ?_).onReviews.void
    exact ⟨request, hrequest, hbears, rfl⟩

theorem holds_empty (M : Mandate) : M.Holds .empty := by
  refine ⟨?_, ?_, ?_, ?_, ?_⟩
  · simp [SystemWorld.empty]
  · simp [SystemWorld.empty, emptyWorld, ReviewDb.empty, ReviewDb.review, Table.get, Table.empty]
  · simp [SystemWorld.empty, emptyWorld]
  · simp [SystemWorld.empty, emptyWorld, ReviewDb.empty]
  · simp [SystemWorld.empty, statusOf, Table.get, Table.empty]

theorem holds_of_run {cond : Pool SystemWorld SystemProg → Label → Prop} {s : Pool SystemWorld SystemProg}
    (hrun : systemHost.Run (process parsers secret apiAuthToken webhooks requests) cond ⟨.empty, []⟩ s) :
    (mandateOf parsers secret apiAuthToken webhooks requests).Holds s.world := by
  refine (Mandate.honours_system.run (fun p w hp _ => obeys_process hp w) hrun (holds_empty _) ?_).1
  intro p hp
  cases hp

variable (parsers secret webhooks) in
/-- A signed webhook is about this pull request. -/
def PullRequested (d repo : Text) (prNumber : Int) : Prop :=
  ∃ action, SignedEvent parsers secret webhooks d (.pullRequest action prNumber repo)

/-- In every run: a review is posted to a repository and a pull request that
signed webhooks of one delivery id named; a HITL row is claimed by a request that
bears the token; an index state is of a repository that a signed webhook named. -/
theorem nothing_unasked {cond : Pool SystemWorld SystemProg → Label → Prop} {s : Pool SystemWorld SystemProg}
    (hrun : systemHost.Run (process parsers secret apiAuthToken webhooks requests) cond ⟨.empty, []⟩ s) :
    (∀ post ∈ s.world.reviews.github, ∃ d, (∃ prNumber, PullRequested parsers secret webhooks d post.repo prNumber) ∧
      (∃ repo, PullRequested parsers secret webhooks d repo post.prNumber) ∧
      ((∀ payload payload', SignedEvent parsers secret webhooks d payload →
        SignedEvent parsers secret webhooks d payload' → payload = payload') →
          PullRequested parsers secret webhooks d post.repo post.prNumber)) ∧
    (∀ row ∈ s.world.reviews.db.hitl, row.status ≠ .pending → ∃ request, requests request ∧
      Bears apiAuthToken request.authorization ∧ request.action.claims = (row.reviewId, row.status)) ∧
    ∀ repo status, statusOf s.world.states repo = some status → ∃ d payload,
      SignedEvent parsers secret webhooks d payload ∧ repo ∈ payload.repositories := by
  have I := holds_of_run hrun
  refine ⟨fun post hpost => ?_, I.claims, fun repo status hstatus => ?_⟩
  · obtain ⟨d, ⟨prNumber, action, hrepo⟩, repo, action', hnumber⟩ := I.posts post hpost
    have hrepo' := signedEvent_of_job hrepo
    have hnumber' := signedEvent_of_job hnumber
    refine ⟨d, ⟨prNumber, action, hrepo'⟩, ⟨repo, action', hnumber'⟩, fun hone => ⟨action, ?_⟩⟩
    have hsame : WebhookEvent.pullRequest action prNumber post.repo = .pullRequest action' post.prNumber repo :=
      hone _ _ hrepo' hnumber'
    obtain ⟨_, rfl, _⟩ := WebhookEvent.pullRequest.inj hsame
    exact hrepo'
  · exact signedEvent_of_index (I.states repo status hstatus)

end

/-! One review from its webhook to its approval. -/

def doubtfulGraph : GraphReply := .join [(.docs, [⟨.docs, .low, "docstring".toList, "db.py".toList, some 10,
  ⟨1 / 4, zero_le_one_fourth, one_fourth_le_one⟩, "Missing docstring".toList, "no docstring".toList⟩])]

abbrev SystemMove : Type := Host.Move SystemChoice SystemProg

def answersQueue (i : Nat) (fates : List Fate) : List SystemMove := fates.map fun f => .reply i (.fate f)

/-- A worker takes the first job and makes `calls` calls for it. -/
def worksOn (i calls : Nat) : List SystemMove :=
  .spawn worker :: .reply i (.take 0 false) :: List.replicate calls (.reply i (.review ⟨[], doubtfulGraph, id⟩))

def approval : ApiRequest := ⟨some "Bearer t0ken".toList, .approve 0 none⟩

def approves (i : Nat) : List SystemMove :=
  .spawn (api (some "t0ken".toList) approval) :: List.replicate 5 (.reply i (.review anyChoice))

/-- What the receiver makes of an authentic request, the signature checked. -/
def received (deliveryId event : Text) (payload : WebhookEvent) : SystemProg :=
  ((receiveWebhook deliveryId payload >>= fun r => .ret (some (r.answer event))).interpret onQueue).void

def openedOn (prNumber : Int) (repo : Text) : WebhookEvent := .pullRequest "opened".toList prNumber repo

def signedRequest (rawBody : List UInt8) : WebhookRequest :=
  ⟨rawBody, some (signatureOf rawBody "s3cret".toList), some "72d3162e".toList, some "pull_request".toList⟩

theorem receiver_signed {parsers : PayloadParsers} {rawBody : List UInt8} {prNumber : Int} {repo : Text}
    (hparse : parsers.pullRequest rawBody = .ok ("opened".toList, prNumber, repo)) :
    receiver parsers "s3cret".toList (signedRequest rawBody) =
      received "72d3162e".toList "pull_request".toList (openedOn prNumber repo) := by
  have hpayload : parsers.parse "pull_request".toList rawBody = .ok (openedOn prNumber repo) := by
    rw [PayloadParsers.parse, if_pos rfl, hparse]
    rfl
  have hinterpret : (ingress parsers "s3cret".toList (signedRequest rawBody)).interpret IngressCall.program =
      receiveWebhook "72d3162e".toList (openedOn prNumber repo) >>= fun r =>
        .ret (some (r.answer "pull_request".toList)) :=
    ingress_interpret rfl rfl (by decide) rfl (by decide) hpayload
  rw [receiver, hinterpret]
  rfl

def reviewedOnce : List SystemMove :=
  .spawn (received "72d3162e".toList "pull_request".toList (openedOn 7 "acme/api".toList)) ::
    answersQueue 0 [.ok, .ok, .ok, .ok, .ok, .ok] ++ worksOn 1 9 ++ approves 2

theorem signedEvent_unique {parsers : PayloadParsers} {secret d d' : Text} {request : WebhookRequest}
    {payload payload' : WebhookEvent} (h : SignedEvent parsers secret (· = request) d payload)
    (h' : SignedEvent parsers secret (· = request) d' payload') : payload = payload' := by
  obtain ⟨_, rfl, _, hact⟩ := h
  obtain ⟨_, rfl, _, hact'⟩ := h'
  exact (hact'.unique hact).2

theorem nothing_unasked_approved : ∃ s, systemHost.Run (process exampleParsers "s3cret".toList (some "t0ken".toList)
    (· = signedRequest exampleBody) (· = approval)) (fun _ _ => True) ⟨.empty, []⟩ s ∧
      (∃ post ∈ s.world.reviews.github, ∃ d,
        PullRequested exampleParsers "s3cret".toList (· = signedRequest exampleBody) d post.repo post.prNumber) ∧
      ∃ row ∈ s.world.reviews.db.hitl, row.status = .resolved ∧
        Bears (some "t0ken".toList) approval.authorization := by
  obtain ⟨s, hs, hposted, hresolved⟩ : ∃ s ∈ systemHost.play ⟨.empty, []⟩ reviewedOnce,
      s.world.reviews.github.length = 1 ∧ (s.world.reviews.db.hitl.map HitlRow.status) = [.resolved] := by
    decide +kernel
  have hrun : systemHost.Run (process exampleParsers "s3cret".toList (some "t0ken".toList)
      (· = signedRequest exampleBody) (· = approval)) (fun _ _ => True) ⟨.empty, []⟩ s := by
    refine Host.run_of_play (fun p hp => ?_) (fun _ _ => trivial) hs
    simp [reviewedOnce, answersQueue, worksOn, approves] at hp
    rcases hp with rfl | rfl | rfl
    · exact .inl ⟨_, rfl, (receiver_signed rfl).symm⟩
    · exact .inr (.inl rfl)
    · exact .inr (.inr ⟨_, rfl, rfl⟩)
  obtain ⟨hposts, hclaims, _⟩ := nothing_unasked hrun
  refine ⟨s, hrun, ?_, ?_⟩
  · obtain ⟨post, hpost⟩ := List.exists_mem_of_length_pos (by omega : 0 < s.world.reviews.github.length)
    obtain ⟨d, _, _, hexact⟩ := hposts post hpost
    exact ⟨post, hpost, d, hexact fun _ _ h h' => signedEvent_unique h h'⟩
  · obtain ⟨row, hrow, hstatus⟩ := List.mem_map.mp
      (by simp [hresolved] : .resolved ∈ s.world.reviews.db.hitl.map HitlRow.status)
    obtain ⟨_, rfl, hbears, _⟩ := hclaims row hrow (by simp [hstatus])
    exact ⟨row, hrow, hstatus, hbears⟩

/-! A delivery id that is used twice. Nothing ties the header to the signature,
and a rolled back claim lets the second request through. -/

def otherBody : List UInt8 := encodeUtf8 "other".toList

def twoParsers : PayloadParsers where
  pullRequest body := .ok (if body = otherBody then ("opened".toList, 9, "acme/web".toList)
    else ("opened".toList, 7, "acme/api".toList))
  installation _ := .error []
  installationRepositories _ := .error []
  push _ := .error []

/-- The first job is queued though its enqueue raises; the second request is
accepted under the same id, and its job finds the review of the first. -/
def reusedDelivery : List SystemMove :=
  .spawn (received "72d3162e".toList "pull_request".toList (openedOn 7 "acme/api".toList)) ::
    answersQueue 0 [.ok, .ok, .ok, .ok, .lost, .lost, .lost, .ok, .ok, .ok, .ok] ++
    .spawn (received "72d3162e".toList "pull_request".toList (openedOn 9 "acme/web".toList)) ::
    answersQueue 1 [.ok, .ok, .ok, .ok, .ok, .ok] ++
    worksOn 2 9 ++ worksOn 3 1 ++ worksOn 4 1 ++ worksOn 5 1 ++ approves 6

theorem twoParsers_event {d repo : Text} {prNumber : Int} {webhooks : WebhookRequest → Prop}
    (h : PullRequested twoParsers "s3cret".toList webhooks d repo prNumber) :
    (prNumber, repo) = (9, "acme/web".toList) ∨ (prNumber, repo) = (7, "acme/api".toList) := by
  obtain ⟨action, request, _, _, _, event, _, _, hparse⟩ := h
  unfold PayloadParsers.parse at hparse
  split_ifs at hparse with hpull
  · obtain ⟨_, hnumber, hrepo⟩ := WebhookEvent.pullRequest.inj (Except.ok.inj hparse)
    rw [← hnumber, ← hrepo]
    split_ifs
    · exact .inl rfl
    · exact .inr rfl
  · cases hparse
  · cases hparse
  · cases hparse

/-- The review of the first repository is posted to the number of the second. -/
theorem reused_delivery_mixes : ∃ s post, systemHost.Run (process twoParsers "s3cret".toList (some "t0ken".toList)
    (fun request => request = signedRequest exampleBody ∨ request = signedRequest otherBody) (· = approval))
      (fun _ _ => True) ⟨.empty, []⟩ s ∧ post ∈ s.world.reviews.github ∧
    ∀ webhooks d, ¬PullRequested twoParsers "s3cret".toList webhooks d post.repo post.prNumber := by
  obtain ⟨s, hs, hpost⟩ : ∃ s ∈ systemHost.play ⟨.empty, []⟩ reusedDelivery,
      (s.world.reviews.github.map fun p => (p.prNumber, p.repo)) = [(9, "acme/api".toList)] := by
    decide +kernel
  have hfirst : twoParsers.pullRequest exampleBody = .ok ("opened".toList, 7, "acme/api".toList) := by decide +kernel
  have hsecond : twoParsers.pullRequest otherBody = .ok ("opened".toList, 9, "acme/web".toList) := by decide +kernel
  obtain ⟨post, hmem, hpair⟩ := List.mem_map.mp (by rw [hpost]; exact List.mem_cons_self :
    (9, "acme/api".toList) ∈ s.world.reviews.github.map fun p => (p.prNumber, p.repo))
  refine ⟨s, post, ?_, hmem, fun webhooks d h => ?_⟩
  · refine Host.run_of_play (fun p hp => ?_) (fun _ _ => trivial) hs
    simp [reusedDelivery, answersQueue, worksOn, approves] at hp
    rcases hp with rfl | rfl | rfl | rfl
    · exact .inl ⟨_, .inl rfl, (receiver_signed hfirst).symm⟩
    · exact .inl ⟨_, .inr rfl, (receiver_signed hsecond).symm⟩
    · exact .inr (.inl rfl)
    · exact .inr (.inr ⟨_, rfl, rfl⟩)
  · rcases twoParsers_event h with he | he
    · rw [he] at hpair
      exact absurd hpair (by decide)
    · rw [he] at hpair
      exact absurd hpair (by decide)

end AiPrReview
