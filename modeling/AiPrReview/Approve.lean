import AiPrReview.ReviewPrograms

/-! The approve endpoint when it fails half-way. It claims the HITL row first,
and nothing gives the row back. -/

namespace AiPrReview

def ReviewWorld.status (w : ReviewWorld) (reviewId : Nat) : Option ReviewStatus :=
  (w.db.reviewById reviewId).map (·.status)

def ReviewWorld.resolve (w : ReviewWorld) (reviewId : Nat) (note : Option Text) : ReviewWorld :=
  { w with db := w.db.resolve reviewId .resolved note }

def approvedIn (reviewId : Nat) (w w' : ReviewWorld) : Prop :=
  (∃ post, post.reviewId = reviewId ∧ w'.github = w.github ++ [post]) ∧
    w'.status reviewId = some .posted

def stillPendingIn (reviewId : Nat) (w w' : ReviewWorld) : Prop :=
  w'.github = w.github ∧ 0 < w'.db.pendingCount reviewId

/-- What approve leaves behind when it ends after `n` answered awaits; with
`effect`, the next one still took effect. -/
def approveCut (e : ReviewChoice) (effect : Bool) (n : Nat) (w : ReviewWorld) (reviewId : Nat)
    (note : Option Text) : ReviewWorld :=
  Prog.cut ReviewCall.exec e effect n w (approve reviewId note)

section

variable {e : ReviewChoice} {w : ReviewWorld} {reviewId : Nat} {note : Option Text} {r : ReviewRecord}

theorem resolve_exec (hpending : 0 < w.db.pendingCount reviewId) (hnote : note.all pgText = true) :
    ReviewCall.exec (.resolve reviewId .resolved note) e w = some (true, w.resolve reviewId note) := by
  simp [ReviewCall.exec, ReviewWorld.resolve, hnote, ReviewDb.any_isPendingFor, hpending]

theorem getReview_exec (hr : w.db.reviewById reviewId = some r) :
    ReviewCall.exec (.getReview reviewId) e (w.resolve reviewId note) =
      some (some (r.repo, r.prNumber, r.overallConfidence.map toDouble), w.resolve reviewId note) := by
  simp [ReviewCall.exec, ReviewWorld.resolve, hr]

theorem approveCut_unstorable (effect : Bool) (n : Nat) (hnote : note.all pgText = false) :
    approveCut e effect n w reviewId note = w := by
  unfold approveCut
  rw [approve_eq, Prog.cut_raises (by simp [ReviewCall.exec, hnote])]

theorem approveCut_claimed (hpending : 0 < w.db.pendingCount reviewId) (hnote : note.all pgText = true)
    {effect : Bool} {n : Nat}
    (hn : (n = 0 ∧ effect = true) ∨ n = 1 ∨ n = 2 ∨ (n = 3 ∧ effect = false)) :
    approveCut e effect n w reviewId note = w.resolve reviewId note := by
  obtain ⟨r, hr⟩ := ReviewDb.exists_reviewById (ReviewDb.id_lt_of_pending hpending)
  unfold approveCut
  rw [approve_eq]
  rcases hn with ⟨rfl, rfl⟩ | rfl | rfl | ⟨rfl, rfl⟩
  · rw [Prog.cut_effect (resolve_exec hpending hnote)]
  · rw [Prog.cut_succ (resolve_exec hpending hnote), if_pos rfl]
    cases effect with
    | false => rw [Prog.cut_zero]
    | true => rw [Prog.cut_effect rfl]
  · rw [Prog.cut_succ (resolve_exec hpending hnote), if_pos rfl, Prog.cut_succ (getReview_exec hr)]
    cases effect with
    | false => rw [Prog.cut_zero]
    | true => rw [Prog.cut_effect rfl]
  · rw [Prog.cut_succ (resolve_exec hpending hnote), if_pos rfl, Prog.cut_succ (getReview_exec hr),
      Prog.cut_succ rfl, Prog.cut_zero]

theorem approveCut_add_three (hpending : 0 < w.db.pendingCount reviewId)
    (hnote : note.all pgText = true) (effect : Bool) (n : Nat) :
    ∃ review, approveCut e effect (n + 3) w reviewId note =
      Prog.cut ReviewCall.exec e effect n (w.resolve reviewId note)
        (approvePosting reviewId review) := by
  obtain ⟨r, hr⟩ := ReviewDb.exists_reviewById (ReviewDb.id_lt_of_pending hpending)
  unfold approveCut
  rw [approve_eq, Prog.cut_succ (resolve_exec hpending hnote), if_pos rfl,
    Prog.cut_succ (getReview_exec hr), Prog.cut_succ rfl]
  exact ⟨_, rfl⟩

/-- Between the post and the mark the review is on GitHub and its row says
nothing about it. -/
theorem approveCut_unmarked (hpending : 0 < w.db.pendingCount reviewId) (hnote : note.all pgText = true)
    {effect : Bool} {n : Nat} (hn : (n = 3 ∧ effect = true) ∨ (n = 4 ∧ effect = false)) :
    ∃ post, post.reviewId = reviewId ∧ approveCut e effect n w reviewId note =
      ⟨w.db.resolve reviewId .resolved note, w.github ++ [post]⟩ := by
  rcases hn with ⟨rfl, rfl⟩ | ⟨rfl, rfl⟩
  · obtain ⟨review, hc⟩ := approveCut_add_three (e := e) hpending hnote true 0
    rw [hc, approvePosting, Prog.cut_effect rfl]
    exact ⟨_, rfl, rfl⟩
  · obtain ⟨review, hc⟩ := approveCut_add_three (e := e) hpending hnote false 1
    rw [hc, approvePosting, Prog.cut_succ rfl, Prog.cut_zero]
    exact ⟨_, rfl, rfl⟩

theorem approveCut_marked (hpending : 0 < w.db.pendingCount reviewId) (hnote : note.all pgText = true)
    {effect : Bool} {n : Nat} (hn : (n = 4 ∧ effect = true) ∨ 5 ≤ n) :
    ∃ post gid score, post.reviewId = reviewId ∧ approveCut e effect n w reviewId note =
      ⟨(w.db.resolve reviewId .resolved note).markPosted reviewId gid score, w.github ++ [post]⟩ := by
  rcases hn with ⟨rfl, rfl⟩ | hn
  · obtain ⟨review, hc⟩ := approveCut_add_three (e := e) hpending hnote true 1
    rw [hc, approvePosting, Prog.cut_succ rfl, Prog.cut_effect rfl]
    exact ⟨_, _, _, rfl, rfl⟩
  · obtain ⟨m, rfl⟩ := Nat.exists_eq_add_of_le hn
    rw [show 5 + m = m + 2 + 3 by omega]
    obtain ⟨review, hc⟩ := approveCut_add_three (e := e) hpending hnote effect (m + 2)
    rw [hc, approvePosting, Prog.cut_succ rfl, Prog.cut_succ rfl, Prog.cut_ret]
    exact ⟨_, _, _, rfl, rfl⟩

end

/-- Approve is all-or-nothing exactly when it never made its claim, or when it
got as far as `mark_posted`, or when the row said 'posted' before. -/
theorem approve_allOrNothing_iff (e : ReviewChoice) (effect : Bool) (n : Nat) (w : ReviewWorld)
    (reviewId : Nat) (note : Option Text) (hpending : 0 < w.db.pendingCount reviewId) :
    (approvedIn reviewId w (approveCut e effect n w reviewId note) ∨
      stillPendingIn reviewId w (approveCut e effect n w reviewId note)) ↔
    (note.all pgText = false ∨ (n = 0 ∧ effect = false) ∨ (n = 4 ∧ effect = true) ∨ 5 ≤ n ∨
      (((n = 3 ∧ effect = true) ∨ (n = 4 ∧ effect = false)) ∧ w.status reviewId = some .posted)) := by
  by_cases hnote : note.all pgText = true
  · have hgone : (w.db.resolve reviewId .resolved note).pendingCount reviewId = 0 := by
      rw [ReviewDb.pendingCount_resolve _ _ (by decide), if_pos rfl]
    have hstage : (n = 0 ∧ effect = false) ∨
        ((n = 0 ∧ effect = true) ∨ n = 1 ∨ n = 2 ∨ (n = 3 ∧ effect = false)) ∨
        ((n = 3 ∧ effect = true) ∨ (n = 4 ∧ effect = false)) ∨ ((n = 4 ∧ effect = true) ∨ 5 ≤ n) := by
      cases effect <;> simp <;> omega
    rcases hstage with ⟨rfl, rfl⟩ | hn | hn | hn
    · simp [approveCut, stillPendingIn, hpending]
    · rw [approveCut_claimed hpending hnote hn]
      refine iff_of_false ?_ ?_
      · simp [approvedIn, stillPendingIn, ReviewWorld.resolve, hgone]
      · rcases hn with ⟨rfl, rfl⟩ | rfl | rfl | ⟨rfl, rfl⟩ <;> simp [hnote]
    · obtain ⟨post, hp, hc⟩ := approveCut_unmarked (e := e) hpending hnote hn
      have hlate : ¬ ((n = 0 ∧ effect = false) ∨ (n = 4 ∧ effect = true) ∨ 5 ≤ n) := by
        rcases hn with ⟨rfl, rfl⟩ | ⟨rfl, rfl⟩ <;> simp
      rw [hc]
      constructor
      · rintro (⟨_, hs⟩ | ⟨hg, _⟩)
        · exact .inr (.inr (.inr (.inr ⟨hn, by simpa [ReviewWorld.status] using hs⟩)))
        · simp at hg
      · rintro (hno | h | h | h | ⟨_, hs⟩)
        · simp [hno] at hnote
        · exact absurd (.inl h) hlate
        · exact absurd (.inr (.inl h)) hlate
        · exact absurd (.inr (.inr h)) hlate
        · exact .inl ⟨⟨post, hp, rfl⟩, by simpa [ReviewWorld.status] using hs⟩
    · obtain ⟨post, gid, score, hp, hc⟩ := approveCut_marked (e := e) hpending hnote hn
      obtain ⟨r, hr⟩ := ReviewDb.exists_reviewById (ReviewDb.id_lt_of_pending hpending)
      have hid := (ReviewDb.reviewById_eq_some_iff.mp hr).2
      rw [hc]
      refine iff_of_true (.inl ⟨⟨post, hp, rfl⟩, ?_⟩) (.inr (.inr ?_))
      · simp [ReviewWorld.status, ReviewDb.reviewById_markPosted, hr, hid]
      · rcases hn with hn | hn
        · exact .inl hn
        · exact .inr (.inl hn)
  · have hnote' : note.all pgText = false := by simpa using hnote
    rw [approveCut_unstorable effect n hnote']
    simp [stillPendingIn, hpending, hnote']

def escalatedWorld : ReviewWorld where
  db := ((ReviewDb.empty.upsertReview "o/r".toList 1 "d".toList).enqueue 0
    "1 CRITICAL finding(s): SQL injection".toList (by decide)).setStatus 0 .escalated (1 / 2)
  github := []

theorem approve_allOrNothing_marked :
    approvedIn 0 escalatedWorld (approveCut ⟨[], .join [], id⟩ true 4 escalatedWorld 0 none) ∨
      stillPendingIn 0 escalatedWorld (approveCut ⟨[], .join [], id⟩ true 4 escalatedWorld 0 none) :=
  (approve_allOrNothing_iff ⟨[], .join [], id⟩ true 4 escalatedWorld 0 none (by decide)).mpr
    (.inr (.inr (.inl ⟨rfl, rfl⟩)))

theorem approve_post_raises : 0 < escalatedWorld.db.pendingCount 0 ∧
    ¬ (approvedIn 0 escalatedWorld (approveCut ⟨[], .join [], id⟩ false 3 escalatedWorld 0 none) ∨
      stillPendingIn 0 escalatedWorld (approveCut ⟨[], .join [], id⟩ false 3 escalatedWorld 0 none)) := by
  have hpending : 0 < escalatedWorld.db.pendingCount 0 := by decide
  have hgone : (escalatedWorld.db.resolve 0 .resolved none).pendingCount 0 = 0 := by decide
  refine ⟨hpending, ?_⟩
  rw [approveCut_claimed hpending rfl (.inr (.inr (.inr ⟨rfl, rfl⟩)))]
  simp [approvedIn, stillPendingIn, ReviewWorld.resolve, hgone]

end AiPrReview
