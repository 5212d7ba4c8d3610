import AiPrReview.PostedTerminal

/-! Redelivered webhooks. Once a delivery has been aggregated, `run_review`
answers from the row alone, whatever was done to any review in between. -/

namespace AiPrReview

def postsFor (w : ReviewWorld) (id : Nat) : Nat := w.github.countP (·.reviewId = id)

/-- The GitHub review that `gid` names is one of the review `id`. -/
def Names (w : ReviewWorld) (id : Nat) (gid : Option Nat) : Prop :=
  ∃ g post, gid = some g ∧ w.github[g]? = some post ∧ post.reviewId = id

/-- A 'posted' row names its review on GitHub, and no other row names one. -/
def Filed (w : ReviewWorld) (r : ReviewRecord) : Prop :=
  (r.status = .posted → Names w r.id r.githubReviewId) ∧ (r.status ≠ .posted → r.githubReviewId = none)

theorem Names.append {w w' : ReviewWorld} {id : Nat} {gid : Option Nat} {posts : List PostedReview}
    (h : Names w id gid) (hw : w'.github = w.github ++ posts) : Names w' id gid := by
  obtain ⟨g, post, rfl, hpost, hid⟩ := h
  obtain ⟨hlt, _⟩ := List.getElem?_eq_some_iff.mp hpost
  refine ⟨g, post, rfl, ?_, hid⟩
  rw [hw, List.getElem?_append_left hlt, hpost]

theorem names_last {w : ReviewWorld} {db : ReviewDb} {post : PostedReview} :
    Names ⟨db, w.github ++ [post]⟩ post.reviewId (some w.github.length) :=
  ⟨_, post, rfl, by simp, rfl⟩

theorem Filed.append {w w' : ReviewWorld} {r r' : ReviewRecord} {posts : List PostedReview} (h : Filed w r)
    (hw : w'.github = w.github ++ posts) (hid : r'.id = r.id) (hstatus : r'.status = r.status)
    (hgid : r'.githubReviewId = r.githubReviewId) : Filed w' r' := by
  rw [Filed, hid, hstatus, hgid]
  exact ⟨fun hp => (h.1 hp).append hw, h.2⟩

/-! What the programs leave, with what they return. -/

theorem applyGate_settles {w w' : ReviewWorld} {repo : Text} {prNumber : Int} {id : Nat} {threshold : ℚ}
    {fs : List Finding} {result : AggregateResult}
    (h : Prog.Completes ReviewCall.exec w (applyGate repo prNumber id threshold fs) result w') :
    result.reviewId = id ∧
      ((result.decision = .autoPost ∧ result.githubReviewId = some w.github.length ∧
        ∃ post score, post.reviewId = id ∧
          w' = ⟨w.db.markPosted id w.github.length score, w.github ++ [post]⟩) ∨
      (result.githubReviewId = none ∧ ∃ reason hfk status score, result.decision = priorDecision status ∧
        (status = .needsHuman ∨ status = .escalated) ∧
          w' = ⟨(w.db.enqueue id reason hfk).setStatus id status score, w.github⟩)) := by
  simp only [applyGate, Prog.perform_bind] at h
  obtain ⟨_, _, _, he, h₁⟩ := Prog.completes_call_iff.mp h
  obtain rfl := exec_of_reads rfl he
  split_ifs at h₁ with hd
  · obtain ⟨_, gid, _, hpost, h₂⟩ := Prog.completes_call_iff.mp h₁
    obtain ⟨rfl, rfl⟩ := exec_postReview hpost
    obtain ⟨_, _, _, hmark, h₃⟩ := Prog.completes_call_iff.mp h₂
    obtain rfl := exec_markPosted hmark
    obtain ⟨rfl, rfl⟩ := Prog.completes_ret_iff.mp h₃
    exact ⟨rfl, .inl ⟨rfl, rfl, _, _, rfl, rfl⟩⟩
  · obtain ⟨_, _, _, henq, h₂⟩ := Prog.completes_call_iff.mp h₁
    obtain ⟨hfk, rfl⟩ := exec_enqueue henq
    obtain ⟨_, _, _, hset, h₃⟩ := Prog.completes_call_iff.mp h₂
    obtain rfl := exec_setStatus hset
    obtain ⟨rfl, rfl⟩ := Prog.completes_ret_iff.mp h₃
    refine ⟨rfl, .inr ⟨rfl, _, hfk, _, _, ?_, ?_, rfl⟩⟩
    · by_cases hesc : Decision.decide fs (overallConfidence fs) threshold = .escalated
      · simp only [hesc, if_true, priorDecision]
      · simp only [hesc, if_false, priorDecision]
        generalize Decision.decide fs (overallConfidence fs) threshold = decision at hd hesc
        cases decision with
        | queued => rfl
        | autoPost => exact absurd rfl hd
        | escalated => exact absurd rfl hesc
    · split_ifs
      · exact .inr rfl
      · exact .inl rfl

theorem approve_settles {w w' : ReviewWorld} {id : Nat} {note : Option Text}
    {result : Except HttpError ResolveResponse}
    (h : Prog.Completes ReviewCall.exec w (approve id note) result w') :
    (w.db.pendingCount id = 0 ∧ w' = w.resolve id note) ∨
    (0 < w.db.pendingCount id ∧ result = .ok ⟨id, .resolved, some w.github.length⟩ ∧
      ∃ post score, post.reviewId = id ∧
        w' = ⟨(w.db.resolve id .resolved note).markPosted id w.github.length score, w.github ++ [post]⟩) := by
  rw [approve_eq] at h
  obtain ⟨_, claimed, _, he, h₁⟩ := Prog.completes_call_iff.mp h
  obtain ⟨rfl, hclaimed⟩ := exec_resolve he
  split_ifs at h₁ with hc
  · have hpending := hclaimed.mp hc
    obtain ⟨r, hr⟩ := ReviewDb.exists_reviewById (ReviewDb.id_lt_of_pending hpending)
    obtain ⟨_, review, _, hget, h₂⟩ := Prog.completes_call_iff.mp h₁
    obtain ⟨rfl, rfl⟩ := Prod.mk.injEq .. ▸ Option.some.inj ((getReview_exec hr).symm.trans hget)
    obtain ⟨_, findings, _, hread, h₃⟩ := Prog.completes_call_iff.mp h₂
    obtain rfl := exec_of_reads rfl hread
    obtain ⟨_, gid, _, hpost, h₄⟩ := Prog.completes_call_iff.mp h₃
    obtain ⟨rfl, rfl⟩ := exec_postReview hpost
    obtain ⟨_, _, _, hmark, h₅⟩ := Prog.completes_call_iff.mp h₄
    obtain rfl := exec_markPosted hmark
    obtain ⟨rfl, rfl⟩ := Prog.completes_ret_iff.mp h₅
    exact .inr ⟨hpending, rfl, _, _, rfl, rfl⟩
  · obtain ⟨_, rfl⟩ := Prog.completes_ret_iff.mp h₁
    exact .inl ⟨by have := mt hclaimed.mpr hc; omega, rfl⟩

theorem markPosted_self {db : ReviewDb} {d : Text} {r : ReviewRecord} (hr : db.review d = some r) (gid : Nat)
    (score : ℚ) : (db.markPosted r.id gid score).review d = some { r with
      status := .posted
      githubReviewId := some gid
      overallConfidence := some (numeric3 score) } := by
  rw [ReviewDb.review_markPosted, hr, Option.map_some, if_pos rfl]

theorem setStatus_self {db : ReviewDb} {d : Text} {r : ReviewRecord} (hr : db.review d = some r)
    (status : ReviewStatus) (score : ℚ) : (db.setStatus r.id status score).review d =
      some { r with status, overallConfidence := some (numeric3 score) } := by
  rw [ReviewDb.review_setStatus, hr, Option.map_some, if_pos rfl]

/-! What later operations do to the review of a delivery that is no longer pending. -/

/-- From `w` with `r` to `w'` with `r'`: nothing that concerns the review
happened, or a human approved it. -/
structure Follows (w : ReviewWorld) (r : ReviewRecord) (w' : ReviewWorld) (r' : ReviewRecord) : Prop where
  id : r'.id = r.id
  github : ∃ posts, w'.github = w.github ++ posts
  answer : (r'.status = r.status ∧ r'.githubReviewId = r.githubReviewId ∧ postsFor w' r.id = postsFor w r.id) ∨
    (waitsForHuman r.status = true ∧ r'.status = .posted ∧ Names w' r.id r'.githubReviewId ∧
      postsFor w' r.id = postsFor w r.id + 1)

theorem Follows.same {w w' : ReviewWorld} {r r' : ReviewRecord} (hid : r'.id = r.id) (hst : r'.status = r.status)
    (hgid : r'.githubReviewId = r.githubReviewId) (hgithub : w'.github = w.github) : Follows w r w' r' :=
  ⟨hid, ⟨[], by simp [hgithub]⟩, .inl ⟨hst, hgid, by simp [postsFor, hgithub]⟩⟩

theorem Follows.trans {w w' w'' : ReviewWorld} {r r' r'' : ReviewRecord} (h : Follows w r w' r')
    (h' : Follows w' r' w'' r'') : Follows w r w'' r'' := by
  obtain ⟨hid, ⟨posts, hposts⟩, hanswer⟩ := h
  obtain ⟨hid', ⟨posts', hposts'⟩, hanswer'⟩ := h'
  refine ⟨hid'.trans hid, ⟨posts ++ posts', by rw [hposts', hposts, List.append_assoc]⟩, ?_⟩
  rw [hid] at hanswer'
  rcases hanswer with ⟨hst, hgid, hn⟩ | ⟨hwait, hposted, hnames, hn⟩
  · rcases hanswer' with ⟨hst', hgid', hn'⟩ | ⟨hwait', hposted', hnames', hn'⟩
    · exact .inl ⟨hst'.trans hst, hgid'.trans hgid, hn'.trans hn⟩
    · exact .inr ⟨hst ▸ hwait', hposted', hnames', by omega⟩
  · rcases hanswer' with ⟨hst', hgid', hn'⟩ | ⟨hwait', _⟩
    · exact .inr ⟨hwait, hst'.trans hposted, hgid' ▸ hnames.append hposts', by omega⟩
    · simp [hposted, waitsForHuman] at hwait'

section

variable {w w' : ReviewWorld} {d : Text} {r : ReviewRecord}

theorem postsFor_concat (db db' : ReviewDb) (github : List PostedReview) (post : PostedReview) (id : Nat) :
    postsFor ⟨db', github ++ [post]⟩ id = postsFor ⟨db, github⟩ id + if post.reviewId = id then 1 else 0 := by
  simp [postsFor, List.countP_append, List.countP_singleton]

/-- Posting another review leaves this one alone. -/
theorem follows_other_post {post : PostedReview} (score : ℚ) (hr : w.db.review d = some r)
    (hne : r.id ≠ post.reviewId) :
    ∃ r', (w.db.markPosted post.reviewId w.github.length score).review d = some r' ∧
      Follows w r ⟨w.db.markPosted post.reviewId w.github.length score, w.github ++ [post]⟩ r' := by
  refine ⟨r, by simp [ReviewDb.review_markPosted, hr, hne], rfl, ⟨[post], rfl⟩, .inl ⟨rfl, rfl, ?_⟩⟩
  rw [postsFor_concat w.db]
  simp [Ne.symm hne, postsFor]

theorem follows_aggregate {repo d' : Text} {prNumber : Int} {family : List (List Finding)} {threshold : ℚ}
    {result : AggregateResult} (hr : w.db.review d = some r) (hs : r.status ≠ .pending)
    (h : Prog.Completes ReviewCall.exec w (aggregate repo prNumber d' family threshold) result w') :
    ∃ r', w'.db.review d = some r' ∧ Follows w r w' r' := by
  rw [aggregate_eq] at h
  obtain ⟨_, row, _, he, h₁⟩ := Prog.completes_call_iff.mp h
  obtain ⟨rfl, r₂, hr₂, rfl⟩ := exec_upsertReview he
  obtain ⟨r₁, hr₁, hf₁⟩ : ∃ r₁, (w.db.upsertReview repo prNumber d').review d = some r₁ ∧
      Follows w r ⟨w.db.upsertReview repo prNumber d', w.github⟩ r₁ := by
    by_cases hd : d' = d
    · subst hd
      rw [ReviewDb.review_upsertReview_self, hr]
      exact ⟨_, rfl, .same rfl rfl rfl rfl⟩
    · rw [ReviewDb.review_upsertReview_of_ne _ _ _ hd, hr]
      exact ⟨_, rfl, .same rfl rfl rfl rfl⟩
  split_ifs at h₁ with hpend
  · have hpend₂ : r₂.status = .pending := hpend
    -- the review this aggregate works on is another one
    have hne : r₁.id ≠ r₂.id := by
      intro he
      have hsame := ReviewDb.id_inj (ReviewDb.review_mem hr₁) (ReviewDb.review_mem hr₂) he
      rcases hf₁.answer with ⟨hst, _⟩ | ⟨_, hposted, _⟩
      · exact hs (hst ▸ hsame ▸ hpend₂)
      · rw [hsame, hpend₂] at hposted
        cases hposted
    obtain ⟨_, w₂, hins, hgate⟩ := Prog.completes_bind_iff.mp h₁
    have hw₂ : w₂.db.review d = some r₁ ∧ w₂.github = w.github := by
      rcases insertFindings_completes hins with rfl | ⟨hfk, rfl⟩
      · exact ⟨hr₁, rfl⟩
      · exact ⟨by simpa using hr₁, rfl⟩
    have hf₂ : Follows w r w₂ r₁ := hf₁.trans (.same rfl rfl rfl hw₂.2)
    rcases (applyGate_settles hgate).2 with ⟨_, _, post, score, hpost, rfl⟩ | ⟨_, reason, hfk, status, score, _, _, rfl⟩
    · have hother : r₁.id ≠ post.reviewId := hpost ▸ hne
      obtain ⟨r', hr', hf'⟩ := follows_other_post score hw₂.1 hother
      rw [hpost] at hr' hf'
      exact ⟨r', hr', hf₂.trans hf'⟩
    · refine ⟨r₁, ?_, hf₂.trans (.same rfl rfl rfl rfl)⟩
      have hne' : r₁.id ≠ ReviewRow.id r₂.row := hne
      simp [ReviewDb.review_setStatus, hw₂.1, hne']
  · obtain ⟨_, rfl⟩ := Prog.completes_ret_iff.mp h₁
    exact ⟨r₁, hr₁, hf₁⟩

theorem follows_approve {id : Nat} {note : Option Text} {result : Except HttpError ResolveResponse} (hag : Agrees w)
    (hr : w.db.review d = some r) (h : Prog.Completes ReviewCall.exec w (approve id note) result w') :
    ∃ r', w'.db.review d = some r' ∧ Follows w r w' r' := by
  rcases approve_settles h with ⟨_, rfl⟩ | ⟨hpending, _, post, score, rfl, rfl⟩
  · exact ⟨r, hr, .same rfl rfl rfl rfl⟩
  · have hres : (w.resolve post.reviewId note).db.review d = some r := hr
    by_cases hid : r.id = post.reviewId
    · refine ⟨{ r with
        status := .posted
        githubReviewId := some w.github.length
        overallConfidence := some (numeric3 score) }, ?_, rfl, ⟨[post], rfl⟩, .inr ⟨?_, rfl, ?_, ?_⟩⟩
      · rw [ReviewDb.review_markPosted, ReviewDb.review_resolve, hr, Option.map_some, if_pos hid]
      · -- a pending row is there only while the review waits
        have hby := ReviewDb.reviewById_eq_some_iff.mpr ⟨ReviewDb.review_mem hr, rfl⟩
        have hopen := (hag.at_id r.id r hby).1
        by_contra hno
        have hpos : 0 < w.db.hitlCount r.id .pending := hid ▸ hpending
        rw [if_neg hno, openCount] at hopen
        omega
      · rw [hid]
        exact names_last
      · rw [postsFor_concat w.db, if_pos hid.symm]
    · obtain ⟨r', hr', hf'⟩ := follows_other_post score hres hid
      have hclaim : Follows w r (w.resolve post.reviewId note) r := .same rfl rfl rfl rfl
      exact ⟨r', hr', hclaim.trans hf'⟩

theorem follows_runs {op : ReviewOp} (hag : Agrees w) (hop : op.Runs w w') (hr : w.db.review d = some r)
    (hs : r.status ≠ .pending) : ∃ r', w'.db.review d = some r' ∧ Follows w r w' r' := by
  cases op with
  | aggregate repo prNumber d' family threshold =>
    obtain ⟨_, h⟩ := hop
    exact follows_aggregate hr hs h
  | approve id note =>
    obtain ⟨_, h⟩ := hop
    exact follows_approve hag hr h
  | reject id note =>
    obtain ⟨_, h⟩ := hop
    obtain rfl := reject_completes h
    exact ⟨r, hr, .same rfl rfl rfl rfl⟩

theorem follows_runsFrom {ops : List ReviewOp} (hag : Agrees w) (hops : RunsFrom w ops w')
    (hr : w.db.review d = some r) (hs : r.status ≠ .pending) : ∃ r', w'.db.review d = some r' ∧ Follows w r w' r' := by
  induction hops generalizing r with
  | nil => exact ⟨r, hr, .same rfl rfl rfl rfl⟩
  | cons hop _ ih =>
    obtain ⟨r₁, hr₁, hf₁⟩ := follows_runs hag hop hr hs
    have hs₁ : r₁.status ≠ .pending := by
      rcases hf₁.answer with ⟨hst, _⟩ | ⟨_, hposted, _⟩
      · exact hst ▸ hs
      · rw [hposted]
        exact nofun
    obtain ⟨r', hr', hf'⟩ := ih (agrees_runs hag hop) hr₁ hs₁
    exact ⟨r', hr', hf₁.trans hf'⟩

end

/-! Every row is filed. -/

def AllFiled (w : ReviewWorld) : Prop := ∀ d r, w.db.review d = some r → Filed w r

section

variable {w w' : ReviewWorld}

theorem allFiled_upsert (h : AllFiled w) (repo : Text) (prNumber : Int) (d : Text) :
    AllFiled ⟨w.db.upsertReview repo prNumber d, w.github⟩ := by
  intro d' r' hr'
  by_cases hd : d = d'
  · subst hd
    rw [ReviewDb.review_upsertReview_self] at hr'
    cases hr : w.db.review d with
    | none =>
      rw [hr] at hr'
      obtain rfl := Option.some.inj hr'
      exact ⟨nofun, fun _ => rfl⟩
    | some r =>
      rw [hr] at hr'
      obtain rfl := Option.some.inj hr'
      exact h d r hr
  · rw [ReviewDb.review_upsertReview_of_ne _ _ _ hd] at hr'
    exact h d' r' hr'

theorem allFiled_mark (h : AllFiled w) (post : PostedReview) (score : ℚ) :
    AllFiled ⟨w.db.markPosted post.reviewId w.github.length score, w.github ++ [post]⟩ := by
  intro d' r' hr'
  simp only [ReviewDb.review_markPosted] at hr'
  obtain ⟨r, hr, rfl⟩ := Option.map_eq_some_iff.mp hr'
  by_cases hid : r.id = post.reviewId
  · rw [if_pos hid]
    refine ⟨fun _ => ?_, fun hno => absurd rfl hno⟩
    show Names _ r.id (some w.github.length)
    rw [hid]
    exact names_last
  · rw [if_neg hid]
    exact (h d' r hr).append rfl rfl rfl rfl

theorem allFiled_queue {r₀ : ReviewRecord} {reason : Text} {status : ReviewStatus} {score : ℚ} (h : AllFiled w)
    (hr₀ : r₀ ∈ w.db.reviews.rows) (hpend : r₀.status = .pending) (hfk : r₀.id < w.db.reviews.rows.length)
    (hs : status = .needsHuman ∨ status = .escalated) :
    AllFiled ⟨(w.db.enqueue r₀.id reason hfk).setStatus r₀.id status score, w.github⟩ := by
  intro d' r' hr'
  simp only [ReviewDb.review_setStatus, ReviewDb.review_enqueue] at hr'
  obtain ⟨r, hr, rfl⟩ := Option.map_eq_some_iff.mp hr'
  by_cases hid : r.id = r₀.id
  · obtain rfl := ReviewDb.id_inj (ReviewDb.review_mem hr) hr₀ hid
    have hgid : r.githubReviewId = none := (h d' r hr).2 (by simp [hpend])
    rw [if_pos rfl]
    refine ⟨fun hp => ?_, fun _ => hgid⟩
    rcases hs with rfl | rfl <;> cases hp
  · rw [if_neg hid]
    exact h d' r hr

theorem allFiled_of_review (h : AllFiled w) (hdb : ∀ d, w'.db.review d = w.db.review d)
    (hgithub : w'.github = w.github) :
    AllFiled w' := by
  intro d r hr
  rw [hdb] at hr
  exact (h d r hr).append (by rw [hgithub, List.append_nil]) rfl rfl rfl

/-- What `aggregate` returns is what the row of its delivery says from then on. -/
theorem aggregate_answers {repo d : Text} {prNumber : Int} {family : List (List Finding)} {threshold : ℚ}
    {result : AggregateResult} (hf : AllFiled w)
    (h : Prog.Completes ReviewCall.exec w (aggregate repo prNumber d family threshold) result w') :
    AllFiled w' ∧ ∃ r, w'.db.review d = some r ∧ r.status ≠ .pending ∧ r.id = result.reviewId ∧
      priorDecision r.status = result.decision ∧ r.githubReviewId = result.githubReviewId := by
  rw [aggregate_eq] at h
  obtain ⟨_, row, _, he, h₁⟩ := Prog.completes_call_iff.mp h
  obtain ⟨rfl, r, hr, rfl⟩ := exec_upsertReview he
  have hup := allFiled_upsert hf repo prNumber d
  split_ifs at h₁ with hs
  · have hpend : r.status = .pending := hs
    obtain ⟨_, w₂, hins, hgate⟩ := Prog.completes_bind_iff.mp h₁
    have hw₂ : w₂.db.review d = some r ∧ AllFiled w₂ := by
      rcases insertFindings_completes hins with rfl | ⟨hfk, rfl⟩
      · exact ⟨hr, hup⟩
      · exact ⟨by simpa using hr, allFiled_of_review hup (fun _ => by simp) rfl⟩
    obtain ⟨hid, hgate'⟩ := applyGate_settles hgate
    have hid' : result.reviewId = r.id := hid
    rcases hgate' with ⟨hdec, hgid, post, score, hpost, rfl⟩ | ⟨hgid, reason, hfk, status, score, hdec, hst, rfl⟩
    · have hpost' : post.reviewId = r.id := hpost
      refine ⟨?_, ?_⟩
      · have hmark := allFiled_mark hw₂.2 post score
        rw [hpost] at hmark
        exact hmark
      · exact ⟨_, markPosted_self hw₂.1 w₂.github.length score, by simp, hid'.symm, hdec.symm, hgid.symm⟩
    · refine ⟨allFiled_queue hw₂.2 (ReviewDb.review_mem hw₂.1) hpend hfk hst, ?_⟩
      have hnone : r.githubReviewId = none := (hw₂.2 d r hw₂.1).2 (by simp [hpend])
      refine ⟨_, setStatus_self hw₂.1 status score, ?_, hid'.symm, hdec.symm, hnone.trans hgid.symm⟩
      rcases hst with rfl | rfl <;> simp
  · obtain ⟨rfl, rfl⟩ := Prog.completes_ret_iff.mp h₁
    exact ⟨hup, r, hr, hs, rfl, rfl, rfl⟩

theorem allFiled_runs {op : ReviewOp} (hf : AllFiled w) (hop : op.Runs w w') : AllFiled w' := by
  cases op with
  | aggregate repo prNumber d family threshold =>
    obtain ⟨_, h⟩ := hop
    exact (aggregate_answers hf h).1
  | approve id note =>
    obtain ⟨_, h⟩ := hop
    rcases approve_settles h with ⟨_, rfl⟩ | ⟨_, _, post, score, rfl, rfl⟩
    · exact allFiled_of_review hf (fun _ => rfl) rfl
    · have hclaim : AllFiled (w.resolve post.reviewId note) := allFiled_of_review hf (fun _ => rfl) rfl
      exact allFiled_mark hclaim post score
  | reject id note =>
    obtain ⟨_, h⟩ := hop
    obtain rfl := reject_completes h
    exact allFiled_of_review hf (fun _ => rfl) rfl

theorem allFiled_runsFrom {ops : List ReviewOp} (hf : AllFiled w) (hops : RunsFrom w ops w') : AllFiled w' := by
  induction hops with
  | nil => exact hf
  | cons hop _ ih => exact ih (allFiled_runs hf hop)

theorem allFiled_emptyWorld : AllFiled emptyWorld := by
  intro d r hr
  cases hr

end

theorem runReview_replays {w w' : ReviewWorld} {job : ReviewJob} {answer : RunReviewResult} {r : ReviewRecord}
    (hr : w.db.review job.deliveryId = some r) (hs : r.status ≠ .pending)
    (h : Prog.Completes ReviewCall.exec w (runReview job) answer w') :
    w'.github = w.github ∧ answer = .replayed r.id (priorDecision r.status) r.githubReviewId := by
  simp only [runReview, TruthStore.upsertReview, Prog.perform_bind] at h
  obtain ⟨_, row, _, he, h₁⟩ := Prog.completes_call_iff.mp h
  obtain ⟨rfl, r', hr', rfl⟩ := exec_upsertReview he
  rw [ReviewDb.review_upsertReview_self, hr] at hr'
  obtain rfl := Option.some.inj hr'
  have hs' : ReviewRow.status (ReviewRecord.row { r with prNumber := job.prNumber }) ≠ .pending := hs
  rw [if_pos hs'] at h₁
  obtain ⟨rfl, rfl⟩ := Prog.completes_ret_iff.mp h₁
  exact ⟨rfl, rfl⟩

theorem priorDecision_autoPost_iff {status : ReviewStatus} : priorDecision status = .autoPost ↔ status = .posted := by
  cases status <;> simp [priorDecision]

/-- After an aggregate of a delivery, whatever operations follow, `run_review`
for it posts nothing and answers with the review, the decision and the GitHub id
of that aggregate; or, after a human has approved it, with 'auto_post' and the
one review that was posted on approval. -/
theorem redelivery_replays {before later : List ReviewOp} {w₀ w₁ w₂ w₃ : ReviewWorld} {repo d : Text} {prNumber : Int}
    {family : List (List Finding)} {threshold : ℚ} {result : AggregateResult} {job : ReviewJob}
    {answer : RunReviewResult}
    (hbefore : RunsFrom emptyWorld before w₀)
    (hagg : Prog.Completes ReviewCall.exec w₀ (aggregate repo prNumber d family threshold) result w₁)
    (hlater : RunsFrom w₁ later w₂) (hjob : job.deliveryId = d)
    (hrun : Prog.Completes ReviewCall.exec w₂ (runReview job) answer w₃) :
    w₃.github = w₂.github ∧ ∃ decision gid, answer = .replayed result.reviewId decision gid ∧
      ((decision = result.decision ∧ gid = result.githubReviewId ∧
          postsFor w₂ result.reviewId = postsFor w₁ result.reviewId) ∨
        (result.decision ≠ .autoPost ∧ decision = .autoPost ∧
          postsFor w₂ result.reviewId = postsFor w₁ result.reviewId + 1)) ∧
      (decision = .autoPost → Names w₂ result.reviewId gid) ∧ (decision ≠ .autoPost → gid = none) := by
  have hfiled₀ := allFiled_runsFrom allFiled_emptyWorld hbefore
  obtain ⟨hfiled₁, r₁, hr₁, hs₁, hid, hdec, hgid⟩ := aggregate_answers hfiled₀ hagg
  have hag₁ := agrees_aggregate (agrees_runsFrom agrees_emptyWorld hbefore) hagg
  obtain ⟨r₂, hr₂, hf⟩ := follows_runsFrom hag₁ hlater hr₁ hs₁
  have hfiled₂ := allFiled_runsFrom hfiled₁ hlater d r₂ hr₂
  have hs₂ : r₂.status ≠ .pending := by
    rcases hf.answer with ⟨hst, _⟩ | ⟨_, hposted, _⟩
    · exact hst ▸ hs₁
    · rw [hposted]
      exact nofun
  subst hjob
  obtain ⟨hgithub, rfl⟩ := runReview_replays hr₂ hs₂ hrun
  rw [hf.id, hid]
  refine ⟨hgithub, _, _, rfl, ?_, fun hauto => ?_, fun hauto => ?_⟩
  · have hanswer := hf.answer
    rw [hid] at hanswer
    rcases hanswer with ⟨hst, hgid₂, hn⟩ | ⟨hwait, hposted, _, hn⟩
    · exact .inl ⟨by rw [hst, hdec], hgid₂.trans hgid, hn⟩
    · refine .inr ⟨?_, priorDecision_autoPost_iff.mpr hposted, hn⟩
      rintro hauto
      rw [← hdec, priorDecision_autoPost_iff] at hauto
      simp [hauto, waitsForHuman] at hwait
  · have hnames := hfiled₂.1 (priorDecision_autoPost_iff.mp hauto)
    rwa [hf.id, hid] at hnames
  · exact hfiled₂.2 (mt priorDecision_autoPost_iff.mpr hauto)

def doubtfulReview : ReviewProg AggregateResult :=
  aggregate "o/r".toList 1 "d".toList
    [[], [], [], [⟨.docs, .low, "docstring".toList, "db.py".toList, some 10,
      ⟨1 / 4, zero_le_one_fourth, one_fourth_le_one⟩, "Missing docstring".toList, "no docstring".toList⟩]]
    defaultConfidenceThreshold

/-- Queued, approved, and delivered again. -/
theorem redelivery_replays_approved : ∃ (result : AggregateResult) (w₁ w₂ w₃ : ReviewWorld) (answer : RunReviewResult),
    Prog.Completes ReviewCall.exec emptyWorld doubtfulReview result w₁ ∧ RunsFrom w₁ [.approve 0 none] w₂ ∧
      Prog.Completes ReviewCall.exec w₂ (runReview ⟨"o/r".toList, 1, "d".toList⟩) answer w₃ ∧
      result.decision = .queued ∧ w₃.github = w₂.github ∧
      ∃ gid, answer = .replayed 0 .autoPost gid ∧ Names w₂ 0 gid := by
  obtain ⟨⟨result, w₁⟩, hagg, w₂, hlater, ⟨answer, w₃⟩, hrun, hdec, hid, hposts₁, hposts₂⟩ :
      ∃ x ∈ Prog.complete ReviewCall.exec anyChoice emptyWorld doubtfulReview,
      ∃ w₂ ∈ runAll anyChoice x.2 [.approve 0 none],
      ∃ y ∈ Prog.complete ReviewCall.exec anyChoice w₂ (runReview ⟨"o/r".toList, 1, "d".toList⟩),
        x.1.decision = .queued ∧ x.1.reviewId = 0 ∧ postsFor x.2 0 = 0 ∧ postsFor w₂ 0 = 1 := by
    decide +kernel
  have hagg' := Prog.completes_of_complete hagg
  have hlater' := runsFrom_of_runAll hlater
  have hrun' := Prog.completes_of_complete hrun
  obtain ⟨hgithub, decision, gid, hanswer, hcases, hnames, _⟩ :=
    redelivery_replays (.nil emptyWorld) hagg' hlater' rfl hrun'
  refine ⟨result, w₁, w₂, w₃, answer, hagg', hlater', hrun', hdec, hgithub, gid, ?_, ?_⟩
  all_goals
    simp only [show result.reviewId = 0 from hid] at hanswer hcases hnames
    rcases hcases with ⟨_, _, hn⟩ | ⟨_, hauto, _⟩
    · simp [show postsFor w₁ 0 = 0 from hposts₁, show postsFor w₂ 0 = 1 from hposts₂] at hn
  · rw [hanswer, hauto]
  · exact hnames hauto

end AiPrReview
