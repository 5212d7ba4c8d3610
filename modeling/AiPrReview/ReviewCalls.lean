import AiPrReview.Pool
import AiPrReview.ReviewDb

/-! The awaited calls of the review pipeline: statements of `TruthStore` and
`HitlQueue`, calls to GitHub, and the review graph up to its aggregate node. -/

namespace AiPrReview

/-- The `aggregated` channel of the graph's state. -/
structure Aggregated : Type where
  reviewId : Nat
  decision : Decision
  overallConfidence : ℚ
  githubReviewId : Option Nat
  hitlReviewId : Option Nat
  findings : Nat
  deriving DecidableEq

/-- What `engine.run` reaches: a checkpoint in which the aggregate node has
already run, or the entries of the `specialist_results` channel at the join. -/
inductive GraphReply : Type where
  | finished (aggregated : Aggregated)
  | join (entries : List (AgentType × List Finding))

inductive ReviewEvent : Type where
  | approve
  | comment
  deriving DecidableEq

/-- `postReview` names the review it acts for; GitHub does not see that. -/
inductive ReviewCall : Type where
  | upsertReview (repo : Text) (prNumber : Int) (deliveryId : Text)
  | insertFindings (reviewId : Nat) (findings : List Finding)
  | markPosted (reviewId githubReviewId : Nat) (overallConfidence : ℚ)
  | setStatus (reviewId : Nat) (status : ReviewStatus) (overallConfidence : ℚ)
  | getReview (reviewId : Nat)
  | getFindings (reviewId : Nat)
  | enqueue (reviewId : Nat) (reason : Text)
  | resolve (reviewId : Nat) (status : HitlStatus) (note : Option Text)
  | emitDecision (reviewId : Nat) (outcome : Decision) (confidence : ℚ) (findings : Nat)
      (threshold : ℚ)
  | postReview (reviewId : Nat) (repo : Text) (prNumber : Int) (body : Text) (event : ReviewEvent)
  | getPullRequestDiff (repo : Text) (prNumber : Int)
  | runGraph (reviewId : Nat) (deliveryId diffText : Text)
  | saveCheckpoint (deliveryId : Text)

namespace ReviewCall

abbrev Reply : ReviewCall → Type
  | upsertReview .. => ReviewRow
  | getReview .. => Option (Text × Int × Option ℚ)
  | getFindings .. => List Finding
  | enqueue .. => Nat
  | resolve .. => Bool
  | postReview .. => Nat
  | getPullRequestDiff .. => Text
  | runGraph .. => GraphReply
  | _ => Unit

/-- The statements `TruthStore._run` repeats after a lost reply. -/
def retries : ReviewCall → Bool
  | upsertReview .. | insertFindings .. | markPosted .. | setStatus .. => true
  | getReview .. | getFindings .. => true
  | _ => false

end ReviewCall

structure PostedReview : Type where
  reviewId : Nat
  repo : Text
  prNumber : Int
  body : Text
  event : ReviewEvent
  deriving DecidableEq

structure ReviewWorld : Type where
  db : ReviewDb
  github : List PostedReview

/-- What the environment chooses: the diff, what the specialists find, and the
order in which a SELECT without ORDER BY returns its rows. -/
structure ReviewChoice : Type where
  diffText : Text
  graph : GraphReply
  rowRank : Nat → Nat

def storableFinding (f : Finding) : Bool :=
  pgText f.category && pgText f.title && pgText f.file && pgText f.rationale &&
    f.line.all pgInt

def inRankOrder {α : Type} (rank : Nat → Nat) (l : List α) : List α :=
  (l.zipIdx.mergeSort fun a b => rank a.2 ≤ rank b.2).map Prod.fst

def ReviewCall.exec :
    (c : ReviewCall) → ReviewChoice → ReviewWorld → Option (c.Reply × ReviewWorld)
  | .upsertReview repo prNumber deliveryId, _, w =>
    if pgText repo && pgInt prNumber && pgText deliveryId then
      let db := w.db.upsertReview repo prNumber deliveryId
      (db.review deliveryId).map fun r => (r.row, { w with db })
    else none
  | .insertFindings reviewId findings, _, w =>
    if h : reviewId < w.db.reviews.rows.length then
      if findings.all storableFinding then
        some ((), { w with db := w.db.insertFindings reviewId findings h })
      else none
    else none
  | .markPosted reviewId githubReviewId score, _, w =>
    some ((), { w with db := w.db.markPosted reviewId githubReviewId score })
  | .setStatus reviewId status score, _, w =>
    some ((), { w with db := w.db.setStatus reviewId status score })
  | .getReview reviewId, _, w =>
    some ((w.db.reviewById reviewId).map fun r => (r.repo, r.prNumber, r.overallConfidence.map toDouble), w)
  | .getFindings reviewId, e, w =>
    some (inRankOrder e.rowRank ((w.db.findings.rows.filter (·.reviewId = reviewId)).map fun r =>
      { r.finding with confidence := r.finding.confidence.readBack }), w)
  | .enqueue reviewId reason, _, w =>
    if h : reviewId < w.db.reviews.rows.length then
      if pgText reason then
        some (w.db.hitl.length, { w with db := w.db.enqueue reviewId reason h })
      else none
    else none
  | .resolve reviewId status note, _, w =>
    if note.all pgText then
      some (w.db.hitl.any (ReviewDb.isPendingFor reviewId),
        { w with db := w.db.resolve reviewId status note })
    else none
  | .emitDecision .., _, w => some ((), w)
  | .postReview reviewId repo prNumber body event, _, w =>
    some (w.github.length, { w with github := w.github ++ [⟨reviewId, repo, prNumber, body, event⟩] })
  | .getPullRequestDiff .., e, w => some (e.diffText, w)
  | .runGraph .., e, w => some (e.graph, w)
  | .saveCheckpoint .., _, w => some ((), w)

/-! What the calls that can fail do when they do not. -/

section

variable {e : ReviewChoice} {w w' : ReviewWorld}

theorem exec_upsertReview {repo d : Text} {prNumber : Int} {row : ReviewRow}
    (h : ReviewCall.exec (.upsertReview repo prNumber d) e w = some (row, w')) :
    w' = ⟨w.db.upsertReview repo prNumber d, w.github⟩ ∧
      ∃ r, (w.db.upsertReview repo prNumber d).review d = some r ∧ row = r.row := by
  simp only [ReviewCall.exec] at h
  split_ifs at h
  obtain ⟨r, hr, he⟩ := Option.map_eq_some_iff.mp h
  obtain ⟨rfl, rfl⟩ := Prod.mk.injEq .. ▸ he
  exact ⟨rfl, r, hr, rfl⟩

theorem exec_insertFindings {id : Nat} {fs : List Finding} {r : Unit}
    (h : ReviewCall.exec (.insertFindings id fs) e w = some (r, w')) :
    ∃ hfk, w' = ⟨w.db.insertFindings id fs hfk, w.github⟩ := by
  simp only [ReviewCall.exec] at h
  split_ifs at h with hfk
  obtain ⟨_, rfl⟩ := Prod.mk.injEq .. ▸ Option.some.inj h
  exact ⟨hfk, rfl⟩

theorem exec_enqueue {id : Nat} {reason : Text} {r : Nat}
    (h : ReviewCall.exec (.enqueue id reason) e w = some (r, w')) :
    ∃ hfk, w' = ⟨w.db.enqueue id reason hfk, w.github⟩ := by
  simp only [ReviewCall.exec] at h
  split_ifs at h with hfk
  obtain ⟨_, rfl⟩ := Prod.mk.injEq .. ▸ Option.some.inj h
  exact ⟨hfk, rfl⟩

theorem exec_resolve {id : Nat} {status : HitlStatus} {note : Option Text} {claimed : Bool}
    (h : ReviewCall.exec (.resolve id status note) e w = some (claimed, w')) :
    w' = ⟨w.db.resolve id status note, w.github⟩ ∧ (claimed = true ↔ 0 < w.db.pendingCount id) := by
  simp only [ReviewCall.exec, ReviewDb.any_isPendingFor] at h
  split_ifs at h
  obtain ⟨rfl, rfl⟩ := Prod.mk.injEq .. ▸ Option.some.inj h
  exact ⟨rfl, by simp⟩

theorem exec_postReview {id : Nat} {repo body : Text} {prNumber : Int} {event : ReviewEvent} {gid : Nat}
    (h : ReviewCall.exec (.postReview id repo prNumber body event) e w = some (gid, w')) :
    gid = w.github.length ∧ w' = ⟨w.db, w.github ++ [⟨id, repo, prNumber, body, event⟩]⟩ := by
  obtain ⟨rfl, rfl⟩ := Prod.mk.injEq .. ▸ Option.some.inj h
  exact ⟨rfl, rfl⟩

theorem exec_markPosted {id gid : Nat} {score : ℚ} {r : Unit}
    (h : ReviewCall.exec (.markPosted id gid score) e w = some (r, w')) :
    w' = ⟨w.db.markPosted id gid score, w.github⟩ := by
  obtain ⟨_, rfl⟩ := Prod.mk.injEq .. ▸ Option.some.inj h
  rfl

theorem exec_setStatus {id : Nat} {status : ReviewStatus} {score : ℚ} {r : Unit}
    (h : ReviewCall.exec (.setStatus id status score) e w = some (r, w')) :
    w' = ⟨w.db.setStatus id status score, w.github⟩ := by
  obtain ⟨_, rfl⟩ := Prod.mk.injEq .. ▸ Option.some.inj h
  rfl

def ReviewCall.reads : ReviewCall → Bool
  | .getReview .. | .getFindings .. | .emitDecision .. | .getPullRequestDiff .. => true
  | .runGraph .. | .saveCheckpoint .. => true
  | _ => false

theorem exec_of_reads {c : ReviewCall} (hc : c.reads = true) {r : c.Reply}
    (h : c.exec e w = some (r, w')) : w' = w := by
  cases c with
  | getReview id => exact (congrArg Prod.snd (Option.some.inj h)).symm
  | getFindings id => exact (congrArg Prod.snd (Option.some.inj h)).symm
  | emitDecision => exact (congrArg Prod.snd (Option.some.inj h)).symm
  | getPullRequestDiff => exact (congrArg Prod.snd (Option.some.inj h)).symm
  | runGraph => exact (congrArg Prod.snd (Option.some.inj h)).symm
  | saveCheckpoint => exact (congrArg Prod.snd (Option.some.inj h)).symm
  | _ => simp [ReviewCall.reads] at hc

end

def reviewHost : Host ReviewCall.Reply ReviewChoice ReviewWorld where
  exec := ReviewCall.exec
  retries := ReviewCall.retries
  drift := fun _ _ => False

end AiPrReview
