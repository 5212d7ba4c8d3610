import AiPrReview.Approve

/-! The review status and the human queue, over sequences of completed
operations. A reject dismisses the HITL row and leaves the review row alone. -/

namespace AiPrReview

inductive ReviewOp : Type where
  | aggregate (repo : Text) (prNumber : Int) (deliveryId : Text)
      (findingsByAgent : List (List Finding)) (threshold : ℚ)
  | approve (reviewId : Nat) (note : Option Text)
  | reject (reviewId : Nat) (note : Option Text)

/-- `op` runs to completion from `w` and leaves `w'`. -/
def ReviewOp.Runs (op : ReviewOp) (w w' : ReviewWorld) : Prop :=
  match op with
  | .aggregate repo prNumber deliveryId findingsByAgent threshold =>
    ∃ result, Prog.Completes ReviewCall.exec w
      (AiPrReview.aggregate repo prNumber deliveryId findingsByAgent threshold) result w'
  | .approve reviewId note =>
    ∃ result, Prog.Completes ReviewCall.exec w (AiPrReview.approve reviewId note) result w'
  | .reject reviewId note =>
    ∃ result, Prog.Completes ReviewCall.exec w (AiPrReview.reject reviewId note) result w'

def emptyWorld : ReviewWorld := ⟨ReviewDb.empty, []⟩

inductive RunsFrom : ReviewWorld → List ReviewOp → ReviewWorld → Prop
  | nil (w : ReviewWorld) : RunsFrom w [] w
  | cons {w w' w'' : ReviewWorld} {op : ReviewOp} {ops : List ReviewOp} :
      op.Runs w w' → RunsFrom w' ops w'' → RunsFrom w (op :: ops) w''

def ReviewOp.run (e : ReviewChoice) (w : ReviewWorld) : ReviewOp → Option ReviewWorld
  | .aggregate repo prNumber deliveryId findingsByAgent threshold =>
    (Prog.complete ReviewCall.exec e w
      (AiPrReview.aggregate repo prNumber deliveryId findingsByAgent threshold)).map Prod.snd
  | .approve reviewId note =>
    (Prog.complete ReviewCall.exec e w (AiPrReview.approve reviewId note)).map Prod.snd
  | .reject reviewId note =>
    (Prog.complete ReviewCall.exec e w (AiPrReview.reject reviewId note)).map Prod.snd

def runAll (e : ReviewChoice) : ReviewWorld → List ReviewOp → Option ReviewWorld
  | w, [] => some w
  | w, op :: ops => (op.run e w).bind fun w' => runAll e w' ops

theorem ReviewOp.runs_of_run {e : ReviewChoice} {w w' : ReviewWorld} {op : ReviewOp}
    (h : op.run e w = some w') : op.Runs w w' := by
  cases op with
  | aggregate repo prNumber d family threshold =>
    obtain ⟨⟨result, _⟩, hc, rfl⟩ := Option.map_eq_some_iff.mp h
    exact ⟨result, Prog.completes_of_complete hc⟩
  | approve id note =>
    obtain ⟨⟨result, _⟩, hc, rfl⟩ := Option.map_eq_some_iff.mp h
    exact ⟨result, Prog.completes_of_complete hc⟩
  | reject id note =>
    obtain ⟨⟨result, _⟩, hc, rfl⟩ := Option.map_eq_some_iff.mp h
    exact ⟨result, Prog.completes_of_complete hc⟩

theorem runsFrom_of_runAll {e : ReviewChoice} {ops : List ReviewOp} {w w' : ReviewWorld}
    (h : runAll e w ops = some w') : RunsFrom w ops w' := by
  induction ops generalizing w with
  | nil => exact Option.some.inj h ▸ .nil w
  | cons op ops ih =>
    obtain ⟨w₁, hop, hrest⟩ := Option.bind_eq_some_iff.mp h
    exact .cons (ReviewOp.runs_of_run hop) (ih hrest)

/-! What each operation leaves behind. -/

theorem insertFindings_completes {w w' : ReviewWorld} {id : Nat} {fs : List Finding}
    (h : Prog.Completes ReviewCall.exec w (TruthStore.insertFindings id fs) () w') :
    w' = w ∨ ∃ hfk, w' = ⟨w.db.insertFindings id fs hfk, w.github⟩ := by
  unfold TruthStore.insertFindings at h
  split_ifs at h with hfs
  · exact .inl (Prog.completes_ret_iff.mp h).2
  · obtain ⟨e, r, w₁, he, hr⟩ := Prog.completes_call_iff.mp h
    obtain ⟨_, rfl⟩ := Prog.completes_ret_iff.mp hr
    exact .inr (exec_insertFindings he)

theorem applyGate_completes {w w' : ReviewWorld} {repo : Text} {prNumber : Int} {id : Nat}
    {threshold : ℚ} {fs : List Finding} {result : AggregateResult}
    (h : Prog.Completes ReviewCall.exec w (applyGate repo prNumber id threshold fs) result w') :
    (∃ post gid score, post.reviewId = id ∧
      w' = ⟨w.db.markPosted id gid score, w.github ++ [post]⟩) ∨
    ∃ reason hfk status score, (status = .needsHuman ∨ status = .escalated) ∧
      w' = ⟨(w.db.enqueue id reason hfk).setStatus id status score, w.github⟩ := by
  simp only [applyGate, Prog.perform_bind] at h
  obtain ⟨_, _, _, he, h₁⟩ := Prog.completes_call_iff.mp h
  obtain rfl := exec_of_reads rfl he
  split_ifs at h₁ with hd
  · obtain ⟨_, gid, _, hpost, h₂⟩ := Prog.completes_call_iff.mp h₁
    obtain ⟨_, rfl⟩ := exec_postReview hpost
    obtain ⟨_, _, _, hmark, h₃⟩ := Prog.completes_call_iff.mp h₂
    obtain rfl := exec_markPosted hmark
    obtain ⟨_, rfl⟩ := Prog.completes_ret_iff.mp h₃
    exact .inl ⟨_, gid, _, rfl, rfl⟩
  · obtain ⟨_, _, _, henq, h₂⟩ := Prog.completes_call_iff.mp h₁
    obtain ⟨hfk, rfl⟩ := exec_enqueue henq
    obtain ⟨_, _, _, hset, h₃⟩ := Prog.completes_call_iff.mp h₂
    obtain rfl := exec_setStatus hset
    obtain ⟨_, rfl⟩ := Prog.completes_ret_iff.mp h₃
    refine .inr ⟨_, hfk, _, _, ?_, rfl⟩
    split_ifs
    · exact .inr rfl
    · exact .inl rfl

theorem approve_completes {w w' : ReviewWorld} {id : Nat} {note : Option Text}
    {result : Except HttpError ResolveResponse}
    (h : Prog.Completes ReviewCall.exec w (approve id note) result w') :
    (w.db.pendingCount id = 0 ∧ result = .error alreadyResolved ∧ w' = w.resolve id note) ∨
    (0 < w.db.pendingCount id ∧ ∃ post gid score, post.reviewId = id ∧
      w' = ⟨(w.db.resolve id .resolved note).markPosted id gid score, w.github ++ [post]⟩) := by
  rw [approve_eq] at h
  obtain ⟨_, claimed, _, he, h₁⟩ := Prog.completes_call_iff.mp h
  obtain ⟨rfl, hclaimed⟩ := exec_resolve he
  split_ifs at h₁ with hc
  · have hpending := hclaimed.mp hc
    obtain ⟨r, hr⟩ := ReviewDb.exists_reviewById (ReviewDb.id_lt_of_pending hpending)
    obtain ⟨_, review, _, hget, h₂⟩ := Prog.completes_call_iff.mp h₁
    obtain ⟨rfl, rfl⟩ := Prod.mk.injEq .. ▸ Option.some.inj ((getReview_exec hr).symm.trans hget)
    obtain ⟨_, findings, _, hread, h₃⟩ := Prog.completes_call_iff.mp h₂
    obtain rfl := exec_of_reads rfl hread
    obtain ⟨_, gid, _, hpost, h₄⟩ := Prog.completes_call_iff.mp h₃
    obtain ⟨_, rfl⟩ := exec_postReview hpost
    obtain ⟨_, _, _, hmark, h₅⟩ := Prog.completes_call_iff.mp h₄
    obtain rfl := exec_markPosted hmark
    obtain ⟨_, rfl⟩ := Prog.completes_ret_iff.mp h₅
    exact .inr ⟨hpending, _, gid, _, rfl, rfl⟩
  · obtain ⟨rfl, rfl⟩ := Prog.completes_ret_iff.mp h₁
    exact .inl ⟨by have := mt hclaimed.mpr hc; omega, rfl, rfl⟩

theorem reject_completes {w w' : ReviewWorld} {id : Nat} {note : Option Text}
    {result : Except HttpError ResolveResponse}
    (h : Prog.Completes ReviewCall.exec w (reject id note) result w') :
    w' = ⟨w.db.resolve id .dismissed note, w.github⟩ := by
  rw [reject_eq] at h
  obtain ⟨_, claimed, _, he, h₁⟩ := Prog.completes_call_iff.mp h
  obtain ⟨rfl, _⟩ := exec_resolve he
  split_ifs at h₁
  · exact (Prog.completes_ret_iff.mp h₁).2
  · exact (Prog.completes_ret_iff.mp h₁).2

/-! The invariant. -/

def openCount (w : ReviewWorld) (id : Nat) : Nat :=
  w.db.hitlCount id .pending + w.db.hitlCount id .dismissed

def waitsForHuman (status : ReviewStatus) : Bool :=
  status == .needsHuman || status == .escalated

def AgreesAt (w : ReviewWorld) (id : Nat) : Prop :=
  ∀ r, w.db.reviewById id = some r →
    openCount w id = (if waitsForHuman r.status then 1 else 0) ∧
      (r.status = .posted ↔ ∃ p ∈ w.github, p.reviewId = id)

structure Agrees (w : ReviewWorld) : Prop where
  posts_fk : ∀ p ∈ w.github, p.reviewId < w.db.reviews.rows.length
  at_id : ∀ id, AgreesAt w id

theorem agrees_emptyWorld : Agrees emptyWorld := by
  refine ⟨by simp [emptyWorld], fun id r hr => ?_⟩
  simp [emptyWorld, ReviewDb.empty, ReviewDb.reviewById, Table.empty] at hr

theorem agrees_upsertReview {w : ReviewWorld} (h : Agrees w) (repo : Text) (prNumber : Int) (d : Text) :
    Agrees ⟨w.db.upsertReview repo prNumber d, w.github⟩ := by
  have hlen := ReviewDb.length_upsertReview w.db repo prNumber d
  refine ⟨fun p hp => (h.posts_fk p hp).trans_le hlen, fun id r hr => ?_⟩
  have hopen : openCount ⟨w.db.upsertReview repo prNumber d, w.github⟩ id = openCount w id := by
    simp [openCount, ReviewDb.hitlCount]
  rw [hopen]
  rcases ReviewDb.reviewById_upsertReview hr with ⟨r₀, hr₀, hs⟩ | ⟨rfl, hs⟩
  · exact hs ▸ h.at_id id r₀ hr₀
  · have hnone : openCount w w.db.reviews.rows.length = 0 := by
      have hz : ∀ status, w.db.hitlCount w.db.reviews.rows.length status = 0 := by
        intro status
        by_contra hne
        obtain ⟨row, hrow, hid, _⟩ := ReviewDb.hitlCount_pos_iff.mp (Nat.pos_of_ne_zero hne)
        have := w.db.hitl_fk row hrow
        omega
      simp [openCount, hz]
    refine ⟨by simp [hnone, hs, waitsForHuman], ?_⟩
    constructor
    · intro hp
      simp [hs] at hp
    · rintro ⟨p, hp, hid⟩
      have := h.posts_fk p hp
      omega

theorem agrees_insertFindings {w w' : ReviewWorld} {id : Nat} {fs : List Finding} (h : Agrees w)
    (hw : w' = w ∨ ∃ hfk, w' = ⟨w.db.insertFindings id fs hfk, w.github⟩) : Agrees w' := by
  rcases hw with rfl | ⟨hfk, rfl⟩
  · exact h
  · refine ⟨by simpa using h.posts_fk, fun id' r hr => ?_⟩
    have hh := h.at_id id' r (by simpa using hr)
    simpa [openCount, ReviewDb.hitlCount] using hh

theorem agrees_posted {db : ReviewDb} {github : List PostedReview} {post : PostedReview}
    {gid : Nat} {score : ℚ} (hfk : ∀ p ∈ github, p.reviewId < db.reviews.rows.length)
    (hpost : post.reviewId < db.reviews.rows.length)
    (hopen : openCount ⟨db, github⟩ post.reviewId = 0)
    (h : ∀ id, id ≠ post.reviewId → AgreesAt ⟨db, github⟩ id) :
    Agrees ⟨db.markPosted post.reviewId gid score, github ++ [post]⟩ := by
  refine ⟨?_, fun id r hr => ?_⟩
  · intro p hp
    rcases List.mem_append.mp hp with hp | hp
    · simpa [ReviewDb.markPosted, ReviewDb.updateReviews, Table.update] using hfk p hp
    · simpa [ReviewDb.markPosted, ReviewDb.updateReviews, Table.update, List.mem_singleton.mp hp] using hpost
  · simp only [ReviewDb.reviewById_markPosted] at hr
    obtain ⟨r₀, hr₀, rfl⟩ := Option.map_eq_some_iff.mp hr
    have hid := (ReviewDb.reviewById_eq_some_iff.mp hr₀).2
    by_cases he : id = post.reviewId
    · subst he
      simp only [hid, if_true]
      exact ⟨by simpa [waitsForHuman, openCount, ReviewDb.hitlCount] using hopen, by simp⟩
    · have hne : r₀.id ≠ post.reviewId := hid ▸ he
      simp only [hne, if_false]
      have hh := h id he r₀ hr₀
      simpa [openCount, ReviewDb.hitlCount, Ne.symm he] using hh

theorem agrees_queued {w : ReviewWorld} {id : Nat} {r : ReviewRecord} {reason : Text}
    {status : ReviewStatus} {score : ℚ} (h : Agrees w) (hr : w.db.reviewById id = some r)
    (hp : r.status = .pending) (hfk : id < w.db.reviews.rows.length)
    (hs : status = .needsHuman ∨ status = .escalated) :
    Agrees ⟨(w.db.enqueue id reason hfk).setStatus id status score, w.github⟩ := by
  refine ⟨?_, fun id' r' hr' => ?_⟩
  · intro p hp
    simpa [ReviewDb.setStatus, ReviewDb.enqueue, ReviewDb.updateReviews, Table.update]
      using h.posts_fk p hp
  · have hopen : openCount ⟨(w.db.enqueue id reason hfk).setStatus id status score, w.github⟩ id' =
        openCount w id' + if id' = id then 1 else 0 := by
      have hc := ReviewDb.hitlCount_enqueue w.db id reason hfk id'
      have hset : ∀ st, ((w.db.enqueue id reason hfk).setStatus id status score).hitlCount id' st =
          (w.db.enqueue id reason hfk).hitlCount id' st := fun _ => rfl
      simp only [openCount, hset, hc]
      by_cases he : id' = id
      · simp [he]
        omega
      · simp [he]
    rw [hopen]
    simp only [ReviewDb.reviewById_setStatus, ReviewDb.reviewById_enqueue] at hr'
    obtain ⟨r₀, hr₀, rfl⟩ := Option.map_eq_some_iff.mp hr'
    have hid := (ReviewDb.reviewById_eq_some_iff.mp hr₀).2
    have hh := h.at_id id' r₀ hr₀
    by_cases he : id' = id
    · subst he
      obtain rfl : r₀ = r := Option.some.inj (hr₀.symm.trans hr)
      have hno : ¬ ∃ p ∈ w.github, p.reviewId = id' := by
        intro hex
        have := hh.2.mpr hex
        simp [hp] at this
      have hz : openCount w id' = 0 := by simpa [hp, waitsForHuman] using hh.1
      rcases hs with rfl | rfl
      · simpa [hid, hz, waitsForHuman] using hno
      · simpa [hid, hz, waitsForHuman] using hno
    · have hne : r₀.id ≠ id := hid ▸ he
      simpa [hne, he] using hh

theorem agrees_aggregate {w w' : ReviewWorld} {repo d : Text} {prNumber : Int}
    {family : List (List Finding)} {threshold : ℚ} {result : AggregateResult} (h : Agrees w)
    (hc : Prog.Completes ReviewCall.exec w (aggregate repo prNumber d family threshold) result w') :
    Agrees w' := by
  rw [aggregate_eq] at hc
  obtain ⟨_, row, _, he, hc₁⟩ := Prog.completes_call_iff.mp hc
  obtain ⟨rfl, r, hr, rfl⟩ := exec_upsertReview he
  have hup := agrees_upsertReview h repo prNumber d
  split_ifs at hc₁ with hs
  · have hpend : r.status = .pending := hs
    obtain ⟨_, w₁, hins, hgate⟩ := Prog.completes_bind_iff.mp hc₁
    have hw₁ := insertFindings_completes hins
    have hag := agrees_insertFindings hup hw₁
    have hr₁ : w₁.db.reviewById r.id = some r := by
      have hmem := ReviewDb.review_mem hr
      have hby := ReviewDb.reviewById_eq_some_iff.mpr ⟨hmem, rfl⟩
      rcases hw₁ with rfl | ⟨hfk, rfl⟩
      · exact hby
      · simpa using hby
    rcases applyGate_completes hgate with ⟨post, gid, score, hid, rfl⟩ | ⟨reason, hfk, status, score, hst, rfl⟩
    · have hid' : post.reviewId = r.id := hid
      have hz : openCount w₁ r.id = 0 := by
        simpa [hpend, waitsForHuman] using (hag.at_id r.id r hr₁).1
      show Agrees ⟨w₁.db.markPosted r.id gid score, _⟩
      rw [← hid'] at hz ⊢
      refine agrees_posted hag.posts_fk ?_ hz fun id _ => hag.at_id id
      exact hid' ▸ ReviewDb.id_lt (ReviewDb.reviewById_eq_some_iff.mp hr₁).1
    · exact agrees_queued hag hr₁ hpend hfk hst
  · obtain ⟨_, rfl⟩ := Prog.completes_ret_iff.mp hc₁
    exact hup

theorem agrees_approve {w w' : ReviewWorld} {id : Nat} {note : Option Text}
    {result : Except HttpError ResolveResponse} (h : Agrees w)
    (hc : Prog.Completes ReviewCall.exec w (approve id note) result w') : Agrees w' := by
  rcases approve_completes hc with ⟨hz, _, rfl⟩ | ⟨hpos, post, gid, score, rfl, rfl⟩
  · refine ⟨h.posts_fk, fun id' r hr => ?_⟩
    have hopen : openCount (w.resolve id note) id' = openCount w id' := by
      have hz' : w.db.hitlCount id .pending = 0 := hz
      by_cases he : id' = id
      · subst he
        simp [openCount, ReviewWorld.resolve, ReviewDb.hitlCount_resolve, hz']
      · simp [openCount, ReviewWorld.resolve, ReviewDb.hitlCount_resolve, he]
    rw [hopen]
    exact h.at_id id' r hr
  · have hlt := ReviewDb.id_lt_of_pending hpos
    refine agrees_posted h.posts_fk hlt ?_ ?_
    · obtain ⟨r, hr⟩ := ReviewDb.exists_reviewById hlt
      have hle : openCount w post.reviewId ≤ 1 := by
        rw [(h.at_id _ r hr).1]
        split_ifs <;> omega
      have hpos' : 0 < w.db.hitlCount post.reviewId .pending := hpos
      simp only [openCount] at hle ⊢
      simp [ReviewDb.hitlCount_resolve]
      omega
    · intro id hne r hr
      have hh := h.at_id id r hr
      simpa [openCount, ReviewDb.hitlCount_resolve, hne] using hh

theorem agrees_reject {w w' : ReviewWorld} {id : Nat} {note : Option Text}
    {result : Except HttpError ResolveResponse} (h : Agrees w)
    (hc : Prog.Completes ReviewCall.exec w (reject id note) result w') : Agrees w' := by
  obtain rfl := reject_completes hc
  refine ⟨h.posts_fk, fun id' r hr => ?_⟩
  have hopen : openCount ⟨w.db.resolve id .dismissed note, w.github⟩ id' = openCount w id' := by
    by_cases he : id' = id
    · subst he
      simp [openCount, ReviewDb.hitlCount_resolve, ReviewDb.pendingCount]
      omega
    · simp [openCount, ReviewDb.hitlCount_resolve, he]
  rw [hopen]
  exact h.at_id id' r hr

theorem agrees_runs {op : ReviewOp} {w w' : ReviewWorld} (h : Agrees w) (hr : op.Runs w w') :
    Agrees w' := by
  cases op with
  | aggregate repo prNumber d family threshold =>
    obtain ⟨_, hc⟩ := hr
    exact agrees_aggregate h hc
  | approve id note =>
    obtain ⟨_, hc⟩ := hr
    exact agrees_approve h hc
  | reject id note =>
    obtain ⟨_, hc⟩ := hr
    exact agrees_reject h hc

theorem agrees_runsFrom {ops : List ReviewOp} {w w' : ReviewWorld} (h : Agrees w)
    (hr : RunsFrom w ops w') : Agrees w' := by
  induction hr with
  | nil => exact h
  | cons hop _ ih => exact ih (agrees_runs h hop)

/-- A review waits for a human, by its status, exactly while one of its HITL
rows is pending or was dismissed; it is 'posted' exactly when it was posted. -/
theorem queue_agrees {ops : List ReviewOp} {w : ReviewWorld} (hrun : RunsFrom emptyWorld ops w)
    {r : ReviewRecord} (hr : r ∈ w.db.reviews.rows) :
    ((r.status = .needsHuman ∨ r.status = .escalated) ↔ ∃ h ∈ w.db.hitl,
      h.reviewId = r.id ∧ (h.status = .pending ∨ h.status = .dismissed)) ∧
    (r.status = .posted ↔ ∃ p ∈ w.github, p.reviewId = r.id) := by
  have hag := (agrees_runsFrom agrees_emptyWorld hrun).at_id r.id r
    (ReviewDb.reviewById_eq_some_iff.mpr ⟨hr, rfl⟩)
  refine ⟨?_, hag.2⟩
  have hopen : 0 < openCount w r.id ↔ ∃ h ∈ w.db.hitl,
      h.reviewId = r.id ∧ (h.status = .pending ∨ h.status = .dismissed) := by
    simp only [openCount, Nat.add_pos_iff_pos_or_pos, ReviewDb.hitlCount_pos_iff, ← exists_or, ← and_or_left]
  rw [← hopen, hag.1]
  cases r.status <;> simp [waitsForHuman]

def noFindings : ReviewOp :=
  .aggregate "o/r".toList 1 "d".toList [[], [], [], []] defaultConfidenceThreshold

theorem queue_agrees_noFindings : ∃ w, RunsFrom emptyWorld [noFindings] w ∧
    ∃ r ∈ w.db.reviews.rows, r.status = .posted ∧ ∃ p ∈ w.github, p.reviewId = r.id := by
  have hrun : ∃ w ∈ runAll ⟨[], .join [], id⟩ emptyWorld [noFindings],
      ∃ r ∈ w.db.reviews.rows, r.status = .posted := by
    decide +kernel
  obtain ⟨w, hw, r, hr, hs⟩ := hrun
  exact ⟨w, runsFrom_of_runAll hw, r, hr, hs, (queue_agrees (runsFrom_of_runAll hw) hr).2.mp hs⟩

def rejectedRun : List ReviewOp :=
  [.aggregate "o/r".toList 1 "d".toList
    [[], [], [], [⟨.docs, .low, "docstring".toList, "db.py".toList, some 10, ⟨1 / 4, by norm_num, by norm_num⟩,
      "Missing docstring".toList, "no docstring".toList⟩]] defaultConfidenceThreshold,
    .reject 0 none]

theorem rejectedRun_needsHuman : ∃ w, RunsFrom emptyWorld rejectedRun w ∧
    ∃ r ∈ w.db.reviews.rows, r.status = .needsHuman ∧ w.db.pendingCount r.id = 0 := by
  have hrun : ∃ w ∈ runAll ⟨[], .join [], id⟩ emptyWorld rejectedRun,
      ∃ r ∈ w.db.reviews.rows, r.status = .needsHuman ∧ w.db.pendingCount r.id = 0 := by
    decide +kernel
  obtain ⟨w, hw, hr⟩ := hrun
  exact ⟨w, runsFrom_of_runAll hw, hr⟩

end AiPrReview
