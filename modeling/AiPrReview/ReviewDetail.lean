import AiPrReview.ApproveBody
import AiPrReview.Dashboard

/-! The pages of the read API, and that a human approves what the detail page
of a waiting review showed: nothing touches its findings until then. -/

namespace AiPrReview

open Ranking

structure ReviewSummary : Type where
  id : Nat
  repo : Text
  prNumber : Int
  status : ReviewStatus
  confidence : Option ℚ
  costUsd : ℚ
  createdAt : ℚ
  deriving DecidableEq

structure FindingSummary : Type where
  agentType : Text
  severity : Text
  category : Text
  summary : Text
  filePath : Text
  lineStart : Option Int
  confidence : ℚ
  rationale : Text
  deriving DecidableEq

structure ReviewDetail extends ReviewSummary where
  findings : List FindingSummary
  diffStats : Option DiffStats

def Finding.summary (f : Finding) : FindingSummary :=
  ⟨f.agentType.value, f.severity.value, f.category, f.title, f.file, f.line, f.confidence.val, f.rationale⟩

/-- How the store writes a review's id, orders text, and breaks the ties of a sort. -/
structure Rendering (κ : Type) : Type where
  times : RowTimes
  uuid : Nat → Text
  collate : Text → κ
  tie : FindingSummary → Nat

/-- `spend_for_review_usd`, and the `cost_usd` of the pages. -/
def Spine.spendForReviewUsd (s : Spine) (reviewId : Text) : ℚ :=
  toDouble (Spine.micros (s.rows.filter fun e => e.event.reviewId = reviewId) / 1000000)

section

variable {κ : Type} [LinearOrder κ]

def Rendering.summary (v : Rendering κ) (s : Spine) (r : ReviewRecord) : ReviewSummary :=
  ⟨r.id, r.repo, r.prNumber, r.status, r.overallConfidence.map toDouble, s.spendForReviewUsd (v.uuid r.id),
    v.times.createdAt r.id⟩

def reviewLimit : Nat := 100

/-- `ORDER BY r.created_at DESC, r.id LIMIT 100`. -/
def listReviews (v : Rendering κ) (s : Spine) (db : ReviewDb) : List ReviewSummary :=
  (orderBy (fun r => v.times.tie r.id) (fun r => -r.createdAt) (db.reviews.rows.map (v.summary s))).take reviewLimit

/-- `ORDER BY severity, file_path, line_start`, NULLs last. -/
def Rendering.findingKey (v : Rendering κ) (f : FindingSummary) : κ ×ₗ κ ×ₗ WithTop ℤ :=
  toLex (v.collate f.severity, toLex (v.collate f.filePath, (f.lineStart : WithTop ℤ)))

def shownFindings (v : Rendering κ) (db : ReviewDb) (reviewId : Nat) : List FindingSummary :=
  orderBy v.tie v.findingKey ((db.findings.rows.filter (·.reviewId = reviewId)).map fun r =>
    Finding.summary { r.finding with confidence := r.finding.confidence.readBack })

/-- `diff` is what GitHub returned, if a client is wired in and it did not raise. -/
def getReview (v : Rendering κ) (s : Spine) (db : ReviewDb) (diff : Option Text) (reviewId : Nat) :
    Except HttpError ReviewDetail :=
  match db.reviewById reviewId with
  | none => .error reviewNotFound
  | some r => .ok ⟨v.summary s r, shownFindings v db reviewId, diff.map parseDiffStats⟩

variable {v : Rendering κ} {s : Spine} {db : ReviewDb}

theorem getReview_eq_ok_iff {diff : Option Text} {id : Nat} {d : ReviewDetail} : getReview v s db diff id = .ok d ↔
    ∃ r, db.reviewById id = some r ∧ d = ⟨v.summary s r, shownFindings v db id, diff.map parseDiffStats⟩ := by
  unfold getReview
  cases hr : db.reviewById id with
  | none => simp
  | some r => simp [eq_comm]

/-- The list shows the newest reviews, each once and as its own page shows it. -/
theorem listReviews_newest (v : Rendering κ) (s : Spine) (db : ReviewDb) :
    (listReviews v s db).length = min reviewLimit db.reviews.rows.length ∧
    ((listReviews v s db).map ReviewSummary.id).Nodup ∧
    (listReviews v s db).Pairwise (fun a b => b.createdAt ≤ a.createdAt) ∧
    (∀ a ∈ listReviews v s db, ∀ diff, ∃ d, getReview v s db diff a.id = .ok d ∧ d.toReviewSummary = a) ∧
    ∀ r ∈ db.reviews.rows, v.summary s r ∉ listReviews v s db →
      ∀ a ∈ listReviews v s db, v.times.createdAt r.id ≤ a.createdAt := by
  have hperm := orderBy_perm (fun r : ReviewSummary => v.times.tie r.id) (fun r => -r.createdAt)
    (db.reviews.rows.map (v.summary s))
  have hids : (db.reviews.rows.map (v.summary s)).map ReviewSummary.id = List.range db.reviews.rows.length := by
    rw [List.map_map]
    exact db.review_ids
  refine ⟨?_, ?_, ?_, ?_, ?_⟩
  · rw [listReviews, List.length_take, hperm.length_eq, List.length_map]
  · have hnd : ((orderBy (fun r : ReviewSummary => v.times.tie r.id) (fun r => -r.createdAt)
        (db.reviews.rows.map (v.summary s))).map ReviewSummary.id).Nodup := by
      rw [(hperm.map _).nodup_iff, hids]
      exact List.nodup_range
    exact hnd.sublist ((List.take_sublist _ _).map _)
  · refine List.Pairwise.sublist (List.take_sublist _ _) ((orderBy_sorted _ _ _).imp fun hab => ?_)
    linarith
  · intro a ha diff
    obtain ⟨r, hr, rfl⟩ := List.mem_map.mp (hperm.mem_iff.mp (List.mem_of_mem_take ha))
    exact ⟨_, getReview_eq_ok_iff.mpr ⟨r, ReviewDb.reviewById_eq_some_iff.mpr ⟨hr, rfl⟩, rfl⟩, rfl⟩
  · intro r hr hout a ha
    have hle := key_le_of_left_out ha (List.mem_map_of_mem hr) hout
    exact neg_le_neg_iff.mp hle

end

/-! The findings of a review that is no longer pending. -/

/-- The review `id` is decided, belongs to `repo` and has these rows. -/
def Decided (id : Nat) (repo : Text) (rows : List FindingRecord) (w : ReviewWorld) : Prop :=
  (∃ r, w.db.reviewById id = some r ∧ r.status ≠ .pending ∧ r.repo = repo) ∧
    w.db.findings.rows.filter (fun f => decide (f.reviewId = id)) = rows

@[simp] theorem findings_upsertReview (db : ReviewDb) (repo : Text) (prNumber : Int) (d : Text) :
    (db.upsertReview repo prNumber d).findings = db.findings := by
  unfold ReviewDb.upsertReview
  split <;> rfl

theorem filter_insertFindings_of_ne {db : ReviewDb} {id id' : Nat} (hne : id' ≠ id) (fs : List Finding)
    (hfk : id' < db.reviews.rows.length) :
    (db.insertFindings id' fs hfk).findings.rows.filter (fun f => decide (f.reviewId = id)) =
      db.findings.rows.filter (fun f => decide (f.reviewId = id)) := by
  induction fs generalizing db with
  | nil => rfl
  | cons f fs ih =>
    have hstep : ((db.insertFinding id' f hfk).insertFindings id' fs hfk).findings.rows.filter
        (fun f => decide (f.reviewId = id)) =
          (db.insertFinding id' f hfk).findings.rows.filter (fun f => decide (f.reviewId = id)) :=
            @ih (db.insertFinding id' f hfk) hfk
    refine hstep.trans ?_
    simp only [ReviewDb.insertFinding, Table.insertIgnore]
    split_ifs
    · rfl
    · simp [List.filter_append, hne]

section

variable {id : Nat} {repo : Text} {rows : List FindingRecord} {w w' : ReviewWorld}

theorem decided_aggregate {repo' d : Text} {prNumber : Int} {family : List (List Finding)} {threshold : ℚ}
    {result : AggregateResult} (hw : Decided id repo rows w)
    (h : Prog.Completes ReviewCall.exec w (aggregate repo' prNumber d family threshold) result w') :
    Decided id repo rows w' := by
  rw [aggregate_eq] at h
  obtain ⟨_, row, _, he, h₁⟩ := Prog.completes_call_iff.mp h
  obtain ⟨rfl, r₂, hr₂, rfl⟩ := exec_upsertReview he
  obtain ⟨⟨r, hr, hst, hrepo⟩, hrows⟩ := hw
  obtain ⟨n, hup⟩ := ReviewDb.reviewById_upsertReview_of_some repo' prNumber d hr
  split_ifs at h₁ with hs
  · have hpend : r₂.status = .pending := hs
    -- this aggregate works on a review that is still pending, hence on another one
    have hne : r₂.id ≠ id := by
      intro he
      have hby := ReviewDb.reviewById_eq_some_iff.mpr ⟨ReviewDb.review_mem hr₂, he⟩
      obtain rfl := Option.some.inj (hby.symm.trans hup)
      exact hst hpend
    obtain ⟨_, w₂, hins, hgate⟩ := Prog.completes_bind_iff.mp h₁
    have hw₂ : w₂.db.reviewById id = some { r with prNumber := n } ∧
        w₂.db.findings.rows.filter (fun f => decide (f.reviewId = id)) = rows := by
      rcases insertFindings_completes hins with rfl | ⟨hfk, rfl⟩
      · exact ⟨hup, by simpa using hrows⟩
      · refine ⟨by simpa using hup, ?_⟩
        have hne' : r₂.row.id ≠ id := hne
        rw [filter_insertFindings_of_ne hne']
        simpa using hrows
    have hid : r.id = id := (ReviewDb.reviewById_eq_some_iff.mp hr).2
    rcases (applyGate_settles hgate).2 with ⟨_, _, post, score, _, rfl⟩ | ⟨_, reason, hfk, status, score, _, _, rfl⟩
    · refine ⟨⟨{ r with prNumber := n }, ?_, hst, hrepo⟩, hw₂.2⟩
      have hne' : id ≠ r₂.row.id := Ne.symm hne
      simp [ReviewDb.reviewById_markPosted, hw₂.1, hid, hne']
    · refine ⟨⟨{ r with prNumber := n }, ?_, hst, hrepo⟩, hw₂.2⟩
      have hne' : id ≠ r₂.row.id := Ne.symm hne
      simp [ReviewDb.reviewById_setStatus, hw₂.1, hid, hne']
  · obtain ⟨_, rfl⟩ := Prog.completes_ret_iff.mp h₁
    exact ⟨⟨_, hup, hst, hrepo⟩, by simpa using hrows⟩

theorem decided_approve {id' : Nat} {note : Option Text} {result : Except HttpError ResolveResponse}
    (hw : Decided id repo rows w) (h : Prog.Completes ReviewCall.exec w (approve id' note) result w') :
    Decided id repo rows w' := by
  obtain ⟨⟨r, hr, hst, hrepo⟩, hrows⟩ := hw
  rcases approve_settles h with ⟨_, rfl⟩ | ⟨_, _, post, score, _, rfl⟩
  · exact ⟨⟨r, hr, hst, hrepo⟩, hrows⟩
  · refine ⟨?_, hrows⟩
    simp only [ReviewDb.reviewById_markPosted, ReviewDb.reviewById_resolve, hr, Option.map_some]
    split_ifs
    · exact ⟨_, rfl, nofun, hrepo⟩
    · exact ⟨r, rfl, hst, hrepo⟩

theorem decided_runs {op : ReviewOp} (hw : Decided id repo rows w) (hop : op.Runs w w') : Decided id repo rows w' := by
  cases op with
  | aggregate repo' prNumber d family threshold =>
    obtain ⟨_, h⟩ := hop
    exact decided_aggregate hw h
  | approve id' note =>
    obtain ⟨_, h⟩ := hop
    exact decided_approve hw h
  | reject id' note =>
    obtain ⟨_, h⟩ := hop
    obtain rfl := reject_completes h
    exact hw

theorem decided_runsFrom {ops : List ReviewOp} (hw : Decided id repo rows w) (h : RunsFrom w ops w') :
    Decided id repo rows w' := by
  induction h with
  | nil => exact hw
  | cons hop _ ih => exact ih (decided_runs hw hop)

theorem approve_posts_row {r : ReviewRecord} {note : Option Text} {response : ResolveResponse}
    (hr : w.db.reviewById id = some r)
    (h : Prog.Completes ReviewCall.exec w (approve id note) (.ok response) w') :
    ∃ e, w'.github = w.github ++ [⟨id, r.repo, r.prNumber, renderReviewBody (findingsRead w id e),
      reviewEvent (findingsRead w id e)⟩] := by
  rw [approve_eq, Prog.completes_call_iff] at h
  obtain ⟨_, claimed, _, hresolve, h⟩ := h
  obtain ⟨rfl, _⟩ := exec_resolve hresolve
  split_ifs at h
  · obtain ⟨_, review, _, hreview, h⟩ := Prog.completes_call_iff.mp h
    obtain ⟨rfl, rfl⟩ := Prod.mk.injEq .. ▸ Option.some.inj ((getReview_exec hr).symm.trans hreview)
    obtain ⟨e, findings, _, hfindings, h⟩ := Prog.completes_call_iff.mp h
    obtain ⟨rfl, rfl⟩ := Prod.mk.injEq .. ▸ Option.some.inj hfindings
    obtain ⟨_, gid, _, hpost, h⟩ := Prog.completes_call_iff.mp h
    obtain ⟨_, rfl⟩ := exec_postReview hpost
    obtain ⟨_, _, _, hmark, h⟩ := Prog.completes_call_iff.mp h
    obtain rfl := exec_markPosted hmark
    obtain ⟨_, rfl⟩ := Prog.completes_ret_iff.mp h
    exact ⟨e, rfl⟩
  · cases h

theorem decided_of_listed {times : RowTimes} {ops : List ReviewOp} (hrun : RunsFrom emptyWorld ops w)
    (hlisted : id ∈ listedReviews times w) : ∃ r, w.db.reviewById id = some r ∧
      Decided id r.repo (w.db.findings.rows.filter fun f => decide (f.reviewId = id)) w := by
  obtain ⟨_, _, hitems, _⟩ := @inbox_agrees times _ _ hrun
  obtain ⟨item, hitem, rfl⟩ := List.mem_map.mp hlisted
  obtain ⟨r, hr, hwait, hid, _⟩ := hitems item hitem
  have hby := ReviewDb.reviewById_eq_some_iff.mpr ⟨hr, hid.symm⟩
  refine ⟨r, hby, ⟨r, hby, ?_, rfl⟩, rfl⟩
  intro hpend
  simp [hpend, waitsForHuman] at hwait

end

/-- The detail page of a review in the inbox shows what approving it posts,
whatever was aggregated, approved or rejected since: the approval goes to the
same repo, with the findings of the page and the event that they call for. -/
theorem approve_posts_shown {κ : Type} [LinearOrder κ] {v : Rendering κ} {s : Spine} {diff : Option Text}
    {before later : List ReviewOp} {w₁ w₂ w₃ : ReviewWorld} {id : Nat} {detail : ReviewDetail} {note : Option Text}
    {r : ResolveResponse} (hbefore : RunsFrom emptyWorld before w₁) (hlisted : id ∈ listedReviews v.times w₁)
    (hpage : getReview v s w₁.db diff id = .ok detail) (hlater : RunsFrom w₁ later w₂)
    (happrove : Prog.Completes ReviewCall.exec w₂ (approve id note) (.ok r) w₃) :
    ∃ post posted, w₃.github = w₂.github ++ [post] ∧ post.reviewId = id ∧ post.repo = detail.repo ∧
      (posted.map Finding.summary).Perm detail.findings ∧ post.body = renderReviewBody posted ∧
      (post.event = .approve ↔ detail.findings = []) := by
  obtain ⟨r₁, hr₁, hdecided⟩ := decided_of_listed hbefore hlisted
  obtain ⟨r, hr, rfl⟩ := getReview_eq_ok_iff.mp hpage
  obtain rfl : r₁ = r := Option.some.inj (hr₁.symm.trans hr)
  obtain ⟨⟨r₂, hr₂, _, hrepo⟩, hrows⟩ := decided_runsFrom hdecided hlater
  obtain ⟨e, hgithub⟩ := approve_posts_row hr₂ happrove
  have hshown : ((findingsRead w₂ id e).map Finding.summary).Perm (shownFindings v w₁.db id) := by
    have hread := (inRankOrder_perm e.rowRank ((w₂.db.findings.rows.filter (·.reviewId = id)).map fun f =>
      { f.finding with confidence := f.finding.confidence.readBack })).map Finding.summary
    refine hread.trans ?_
    rw [hrows, List.map_map]
    exact (orderBy_perm _ _ _).symm
  refine ⟨_, findingsRead w₂ id e, hgithub, rfl, hrepo, hshown, rfl, ?_⟩
  show reviewEvent (findingsRead w₂ id e) = .approve ↔ shownFindings v w₁.db id = []
  have hnil : findingsRead w₂ id e = [] ↔ shownFindings v w₁.db id = [] := by
    rw [← List.map_eq_nil_iff (f := Finding.summary), ← List.length_eq_zero_iff, hshown.length_eq,
      List.length_eq_zero_iff]
  rw [← hnil, reviewEvent]
  split_ifs with hempty
  · simp [hempty]
  · simp [hempty]

def plainRendering : Rendering Text := ⟨inOrder, fun _ => [], fun t => t, fun _ => 0⟩

def emptySpine : Spine := ⟨0, [], by simp⟩

/-- Looked at, delivered a second time, then approved. -/
theorem approve_posts_shown_doubtful : ∃ (w₁ w₂ w₃ : ReviewWorld) (detail : ReviewDetail),
    RunsFrom emptyWorld [doubtfulOp] w₁ ∧ getReview plainRendering emptySpine w₁.db none 0 = .ok detail ∧ RunsFrom w₁ [doubtfulOp] w₂ ∧
      ∃ post posted, w₃.github = w₂.github ++ [post] ∧ post.body = renderReviewBody posted ∧
        (posted.map Finding.summary).Perm detail.findings := by
  obtain ⟨w₁, h₁, hlisted, w₂, h₂, ⟨result, w₃⟩, h₃, hok⟩ : ∃ w₁ ∈ runAll anyChoice emptyWorld [doubtfulOp],
      0 ∈ listedReviews inOrder w₁ ∧ ∃ w₂ ∈ runAll anyChoice w₁ [doubtfulOp],
        ∃ x ∈ Prog.complete ReviewCall.exec anyChoice w₂ (approve 0 none), x.1.toOption.isSome := by
    decide +kernel
  cases result with
  | error e => cases hok
  | ok r =>
    have hpending := mem_listed_iff.mp hlisted
    obtain ⟨row, hrow⟩ := ReviewDb.exists_reviewById (ReviewDb.id_lt_of_pending hpending)
    have hpage : getReview plainRendering emptySpine w₁.db none 0 = .ok _ := getReview_eq_ok_iff.mpr ⟨row, hrow, rfl⟩
    obtain ⟨post, posted, hgithub, _, _, hshown, hbody, _⟩ := approve_posts_shown (v := plainRendering)
      (runsFrom_of_runAll h₁) hlisted hpage (runsFrom_of_runAll h₂) (Prog.completes_of_complete h₃)
    exact ⟨w₁, w₂, w₃, _, runsFrom_of_runAll h₁, hpage, runsFrom_of_runAll h₂, post, posted, hgithub, hbody, hshown⟩

end AiPrReview
