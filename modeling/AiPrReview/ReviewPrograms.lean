import AiPrReview.ReviewCalls

/-! The programs of the review pipeline: `aggregate`, the worker's `run_review`
around it, and the two endpoints that resolve a HITL row. -/

namespace AiPrReview

abbrev ReviewProg : Type → Type := Prog ReviewCall.Reply

abbrev ReviewCall.perform (c : ReviewCall) : ReviewProg c.Reply := Prog.perform c

structure ReviewWithFindings : Type where
  repo : Text
  prNumber : Int
  overallConfidence : Option ℚ
  findings : List Finding

namespace TruthStore

def upsertReview (repo : Text) (prNumber : Int) (deliveryId : Text) : ReviewProg ReviewRow :=
  ReviewCall.perform (.upsertReview repo prNumber deliveryId)

def insertFindings (reviewId : Nat) (findings : List Finding) : ReviewProg Unit :=
  if findings = [] then pure () else ReviewCall.perform (.insertFindings reviewId findings)

def markPosted (reviewId githubReviewId : Nat) (overallConfidence : ℚ) : ReviewProg Unit :=
  ReviewCall.perform (.markPosted reviewId githubReviewId overallConfidence)

def setStatus (reviewId : Nat) (status : ReviewStatus) (overallConfidence : ℚ) : ReviewProg Unit :=
  ReviewCall.perform (.setStatus reviewId status overallConfidence)

def getReviewWithFindings (reviewId : Nat) : ReviewProg (Option ReviewWithFindings) := do
  match ← ReviewCall.perform (.getReview reviewId) with
  | none => return none
  | some (repo, prNumber, overallConfidence) =>
    let findings ← ReviewCall.perform (.getFindings reviewId)
    return some ⟨repo, prNumber, overallConfidence, findings⟩

end TruthStore

def HitlQueue.enqueue (reviewId : Nat) (reason : Text) : ReviewProg Nat :=
  ReviewCall.perform (.enqueue reviewId reason)

def HitlQueue.resolve (reviewId : Nat) (status : HitlStatus) (note : Option Text) : ReviewProg Bool :=
  ReviewCall.perform (.resolve reviewId status note)

structure AggregateResult : Type where
  reviewId : Nat
  overallConfidence : ℚ
  decision : Decision
  githubReviewId : Option Nat
  hitlReviewId : Option Nat
  dedupedFindings : List Finding

/-- `prior` in `aggregate`, `_PRIOR_STATUS_DECISION` in the worker. -/
def priorDecision : ReviewStatus → Decision
  | .posted => .autoPost
  | .needsHuman => .queued
  | .escalated => .escalated
  | .pending => .queued

def reviewEvent (findings : List Finding) : ReviewEvent :=
  if findings = [] then .approve else .comment

def escalationReason (findings : List Finding) : Text :=
  let crits := findings.filter (·.severity = .critical)
  intText crits.length ++ " CRITICAL finding(s): ".toList ++
    joinWith "; ".toList (crits.map (·.title))

def queueReason (score threshold : ℚ) : Text :=
  "overall confidence ".toList ++ fixed2 score ++ " below threshold ".toList ++ fixed2 threshold

def routeToHuman (reviewId : Nat) (decision : Decision) (score threshold : ℚ)
    (deduped : List Finding) : ReviewProg AggregateResult := do
  let reason :=
    if decision = .escalated then escalationReason deduped else queueReason score threshold
  let status := if decision = .escalated then ReviewStatus.escalated else .needsHuman
  let hitlReviewId ← HitlQueue.enqueue reviewId reason
  TruthStore.setStatus reviewId status score
  return ⟨reviewId, score, decision, none, some hitlReviewId, deduped⟩

def autoPost (repo : Text) (prNumber : Int) (reviewId : Nat) (score : ℚ) (deduped : List Finding) :
    ReviewProg AggregateResult := do
  let githubReviewId ← ReviewCall.perform
    (.postReview reviewId repo prNumber (renderReviewBody deduped) (reviewEvent deduped))
  TruthStore.markPosted reviewId githubReviewId score
  return ⟨reviewId, score, .autoPost, some githubReviewId, none, deduped⟩

def applyGate (repo : Text) (prNumber : Int) (reviewId : Nat) (threshold : ℚ)
    (deduped : List Finding) : ReviewProg AggregateResult := do
  let score := overallConfidence deduped
  let decision := Decision.decide deduped score threshold
  ReviewCall.perform (.emitDecision reviewId decision score deduped.length threshold)
  if decision = .autoPost then autoPost repo prNumber reviewId score deduped
  else routeToHuman reviewId decision score threshold deduped

def aggregate (repo : Text) (prNumber : Int) (deliveryId : Text)
    (findingsByAgent : List (List Finding)) (threshold : ℚ) : ReviewProg AggregateResult := do
  let deduped := dedupFindings findingsByAgent.flatten
  let review ← TruthStore.upsertReview repo prNumber deliveryId
  if review.status ≠ .pending then
    return ⟨review.id, overallConfidence deduped, priorDecision review.status,
      review.githubReviewId, none, deduped⟩
  else
    TruthStore.insertFindings review.id deduped
    applyGate repo prNumber review.id threshold deduped

def specialistNames : List AgentType := [.security, .quality, .tests, .docs]

/-- `by_agent.get(name, [])`, where a later entry of an agent replaces an earlier one. -/
def findingsOf (entries : List (AgentType × List Finding)) (agent : AgentType) : List Finding :=
  ((entries.reverse.find? fun e => e.1 = agent).map Prod.snd).getD []

def aggregateNode (repo : Text) (prNumber : Int) (deliveryId : Text) (threshold : ℚ)
    (entries : List (AgentType × List Finding)) : ReviewProg Aggregated := do
  let result ← aggregate repo prNumber deliveryId (specialistNames.map (findingsOf entries)) threshold
  return ⟨result.reviewId, result.decision, result.overallConfidence, result.githubReviewId,
    result.hitlReviewId, result.dedupedFindings.length⟩

structure ReviewJob : Type where
  repoFullName : Text
  prNumber : Int
  deliveryId : Text

inductive RunReviewResult : Type where
  | replayed (reviewId : Nat) (decision : Decision) (githubReviewId : Option Nat)
  | aggregated (a : Aggregated)

/-- The graph from its entry or its last checkpoint to the end. -/
def engineRun (job : ReviewJob) (reviewId : Nat) (diffText : Text) : ReviewProg Aggregated := do
  let reply : GraphReply ← ReviewCall.perform (.runGraph reviewId job.deliveryId diffText)
  match reply with
  | .finished a => return a
  | .join entries =>
    let a ← aggregateNode job.repoFullName job.prNumber job.deliveryId
      defaultConfidenceThreshold entries
    ReviewCall.perform (.saveCheckpoint job.deliveryId)
    return a

def runReview (job : ReviewJob) : ReviewProg RunReviewResult := do
  let review ← TruthStore.upsertReview job.repoFullName job.prNumber job.deliveryId
  if review.status ≠ .pending then
    return .replayed review.id (priorDecision review.status) review.githubReviewId
  else
    let diffText ← ReviewCall.perform (.getPullRequestDiff job.repoFullName job.prNumber)
    let a ← engineRun job review.id diffText
    return .aggregated a

structure ResolveResponse : Type where
  reviewId : Nat
  status : HitlStatus
  githubReviewId : Option Nat

structure HttpError : Type where
  statusCode : Nat
  detail : Text

def alreadyResolved : HttpError := ⟨409, "already resolved".toList⟩

def reviewNotFound : HttpError := ⟨404, "review not found".toList⟩

def approve (reviewId : Nat) (note : Option Text) : ReviewProg (Except HttpError ResolveResponse) := do
  let claimed ← HitlQueue.resolve reviewId .resolved note
  if claimed then
    match ← TruthStore.getReviewWithFindings reviewId with
    | none => return .error reviewNotFound
    | some review =>
      let githubReviewId ← ReviewCall.perform (.postReview reviewId review.repo review.prNumber
        (renderReviewBody review.findings) (reviewEvent review.findings))
      TruthStore.markPosted reviewId githubReviewId (review.overallConfidence.getD 0)
      return .ok ⟨reviewId, .resolved, some githubReviewId⟩
  else return .error alreadyResolved

def reject (reviewId : Nat) (note : Option Text) : ReviewProg (Except HttpError ResolveResponse) := do
  let claimed ← HitlQueue.resolve reviewId .dismissed note
  if claimed then return .ok ⟨reviewId, .dismissed, none⟩
  else return .error alreadyResolved

/-! The same programs, call by call. -/

theorem aggregate_eq (repo : Text) (prNumber : Int) (d : Text) (family : List (List Finding))
    (threshold : ℚ) : aggregate repo prNumber d family threshold =
    .call (.upsertReview repo prNumber d) fun row =>
      if ReviewRow.status row = .pending then
        TruthStore.insertFindings (ReviewRow.id row) (dedupFindings family.flatten) >>= fun _ =>
          applyGate repo prNumber (ReviewRow.id row) threshold (dedupFindings family.flatten)
      else
        .ret ⟨ReviewRow.id row, overallConfidence (dedupFindings family.flatten),
          priorDecision (ReviewRow.status row), ReviewRow.githubReviewId row, none,
          dedupFindings family.flatten⟩ := by
  simp only [aggregate, TruthStore.upsertReview, Prog.perform_bind]
  refine congrArg (Prog.call _) (funext fun row => ?_)
  by_cases hs : ReviewRow.status row = .pending
  · rw [if_pos hs, if_neg (not_not.mpr hs)]
  · rw [if_neg hs, if_pos hs]
    rfl

def approvePosting (reviewId : Nat) (review : ReviewWithFindings) :
    ReviewProg (Except HttpError ResolveResponse) :=
  .call (.postReview reviewId review.repo review.prNumber (renderReviewBody review.findings)
    (reviewEvent review.findings)) fun gid =>
      .call (.markPosted reviewId gid (review.overallConfidence.getD 0)) fun _ =>
        .ret (.ok ⟨reviewId, .resolved, some gid⟩)

theorem approve_eq (reviewId : Nat) (note : Option Text) : approve reviewId note =
    .call (.resolve reviewId .resolved note) fun claimed =>
      if claimed = true then
        .call (.getReview reviewId) fun review =>
          match review with
          | none => .ret (.error reviewNotFound)
          | some (repo, prNumber, overallConfidence) =>
            .call (.getFindings reviewId) fun findings =>
              approvePosting reviewId ⟨repo, prNumber, overallConfidence, findings⟩
      else .ret (.error alreadyResolved) := by
  simp only [approve, HitlQueue.resolve, Prog.perform_bind]
  refine congrArg (Prog.call _) (funext fun claimed => ?_)
  by_cases hc : claimed = true
  · rw [if_pos hc, if_pos hc]
    refine congrArg (Prog.call _) (funext fun review => ?_)
    cases review <;> rfl
  · rw [if_neg hc, if_neg hc]
    rfl

theorem reject_eq (reviewId : Nat) (note : Option Text) : reject reviewId note =
    .call (.resolve reviewId .dismissed note) fun claimed =>
      if claimed = true then .ret (.ok ⟨reviewId, .dismissed, none⟩)
      else .ret (.error alreadyResolved) := rfl

end AiPrReview
