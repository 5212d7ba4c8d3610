import AiPrReview.DiffStats
import AiPrReview.Ranking
import AiPrReview.Redelivery
import AiPrReview.Specialist

/-! What the read API shows: the HITL items that wait, and the newest reviews
with what they have cost. -/

namespace AiPrReview

open Ranking

/-- `created_at` of a table's rows, and how a sort orders rows of one time. -/
structure RowTimes : Type where
  createdAt : Nat → ℚ
  tie : Nat → Nat

structure PendingHitlItem : Type where
  id : Nat
  reviewId : Nat
  repo : Text
  prNumber : Int
  reason : Text
  createdAt : ℚ
  deriving DecidableEq

/-- A row of `hitl_reviews` with its id, joined with its review. -/
def pendingItem (times : RowTimes) (db : ReviewDb) (x : HitlRow × Nat) : Option PendingHitlItem :=
  if x.1.status = .pending then
    (db.reviewById x.1.reviewId).map fun r => ⟨x.2, r.id, r.repo, r.prNumber, x.1.reason, times.createdAt x.2⟩
  else none

def HitlQueue.listPending (times : RowTimes) (db : ReviewDb) : List PendingHitlItem :=
  orderBy (fun i => times.tie i.id) PendingHitlItem.createdAt (db.hitl.zipIdx.filterMap (pendingItem times db))

section

variable {times : RowTimes} {db : ReviewDb} {item : PendingHitlItem} {x : HitlRow × Nat}

theorem pendingItem_eq_some_iff : pendingItem times db x = some item ↔ x.1.status = .pending ∧
    ∃ r, db.reviewById x.1.reviewId = some r ∧
      ⟨x.2, r.id, r.repo, r.prNumber, x.1.reason, times.createdAt x.2⟩ = item := by
  unfold pendingItem
  split_ifs with h
  · simp [h]
  · simp [h]

theorem reviewId_of_pendingItem (h : pendingItem times db x = some item) : item.reviewId = x.1.reviewId := by
  obtain ⟨_, r, hr, rfl⟩ := pendingItem_eq_some_iff.mp h
  exact (ReviewDb.reviewById_eq_some_iff.mp hr).2

theorem mem_zipIdx_hitl (h : x ∈ db.hitl.zipIdx) : x.1 ∈ db.hitl := by
  obtain ⟨row, i⟩ := x
  have hget : db.hitl[i]? = some row := List.mk_mem_zipIdx_iff_getElem?.mp h
  exact List.mem_of_getElem? hget

/-- A review is listed as often as it has pending rows. -/
theorem countP_listPending (times : RowTimes) (db : ReviewDb) (id : Nat) :
    (HitlQueue.listPending times db).countP (·.reviewId = id) = db.pendingCount id := by
  have hrow : ∀ x ∈ db.hitl.zipIdx, ((pendingItem times db x).map fun i => decide (i.reviewId = id)).getD false = true ↔
      (ReviewDb.isFor id .pending ∘ Prod.fst) x = true := by
    intro x hx
    rw [Function.comp_apply, ReviewDb.isFor_iff]
    constructor
    · intro h
      cases hi : pendingItem times db x with
      | none => simp [hi] at h
      | some i =>
        have hid : i.reviewId = id := by simpa [hi] using h
        exact ⟨(reviewId_of_pendingItem hi).symm.trans hid, (pendingItem_eq_some_iff.mp hi).1⟩
    · rintro ⟨hid, hp⟩
      obtain ⟨r, hr⟩ := ReviewDb.exists_reviewById (db.hitl_fk x.1 (mem_zipIdx_hitl hx))
      have hi : pendingItem times db x =
          some ⟨x.2, r.id, r.repo, r.prNumber, x.1.reason, times.createdAt x.2⟩ :=
        pendingItem_eq_some_iff.mpr ⟨hp, r, hr, rfl⟩
      have hrev : r.id = x.1.reviewId := reviewId_of_pendingItem hi
      simp [hi, hrev, hid]
  rw [HitlQueue.listPending, (orderBy_perm _ _ _).countP_eq, List.countP_filterMap, List.countP_congr hrow,
    ← List.countP_map, List.zipIdx_map_fst]
  rfl

theorem mem_listed_iff {id : Nat} : id ∈ (HitlQueue.listPending times db).map PendingHitlItem.reviewId ↔
    0 < db.pendingCount id := by
  rw [← countP_listPending times, List.countP_pos_iff, List.mem_map]
  simp

theorem count_listed (times : RowTimes) (db : ReviewDb) (id : Nat) :
    ((HitlQueue.listPending times db).map PendingHitlItem.reviewId).count id = db.pendingCount id := by
  rw [← countP_listPending times, List.count, List.countP_map]
  refine List.countP_congr fun i _ => ?_
  simp

/-! What the statements do to the listing. -/

theorem listPending_markPosted (times : RowTimes) (db : ReviewDb) (id gid : Nat) (score : ℚ) :
    HitlQueue.listPending times (db.markPosted id gid score) = HitlQueue.listPending times db := by
  have hitem : pendingItem times (db.markPosted id gid score) = pendingItem times db := by
    funext x
    simp only [pendingItem, ReviewDb.reviewById_markPosted, Option.map_map]
    congr 2
    funext r
    by_cases h : r.id = id <;> simp [h]
  rw [HitlQueue.listPending, hitem]
  rfl

theorem pendingItem_resolve {status : HitlStatus} (hs : status ≠ .pending) (reviewId : Nat) (note : Option Text)
    (h : HitlRow) (i : Nat) : pendingItem times (db.resolve reviewId status note)
      (if ReviewDb.isPendingFor reviewId h then { h with status, resolutionNote := note } else h, i) =
        (pendingItem times db (h, i)).filter fun item => decide (item.reviewId ≠ reviewId) := by
  by_cases hp : ReviewDb.isPendingFor reviewId h = true
  · rw [if_pos hp]
    obtain ⟨hid, _⟩ := ReviewDb.isFor_iff.mp hp
    cases hi : pendingItem times db (h, i) with
    | none => simp [pendingItem, hs]
    | some item =>
      have hrev : item.reviewId = reviewId := (reviewId_of_pendingItem hi).trans hid
      simp [pendingItem, hs, Option.filter, hrev]
  · rw [if_neg hp]
    have hsame : pendingItem times (db.resolve reviewId status note) (h, i) = pendingItem times db (h, i) := rfl
    rw [hsame]
    cases hi : pendingItem times db (h, i) with
    | none => rfl
    | some item =>
      have hne : item.reviewId ≠ reviewId := by
        intro hid
        exact hp (ReviewDb.isFor_iff.mpr
          ⟨(reviewId_of_pendingItem hi).symm.trans hid, (pendingItem_eq_some_iff.mp hi).1⟩)
      simp [Option.filter, hne]

theorem listPending_resolve (times : RowTimes) (db : ReviewDb) (reviewId : Nat) {status : HitlStatus}
    (hs : status ≠ .pending) (note : Option Text) : HitlQueue.listPending times (db.resolve reviewId status note) =
      (HitlQueue.listPending times db).filter fun item => decide (item.reviewId ≠ reviewId) := by
  simp only [HitlQueue.listPending]
  rw [orderBy_filter, List.filter_filterMap]
  show orderBy _ _ (List.filterMap _ (List.zipIdx (db.hitl.map _))) = _
  rw [List.zipIdx_map, List.filterMap_map]
  congr 2
  funext ⟨h, i⟩
  exact pendingItem_resolve hs reviewId note h i

end

/-! The listing along a run of completed operations. -/

/-- The reviews a human can approve or reject, in the order they are shown. -/
def listedReviews (times : RowTimes) (w : ReviewWorld) : List Nat :=
  (HitlQueue.listPending times w.db).map PendingHitlItem.reviewId

section

variable {times : RowTimes} {w w' : ReviewWorld}

theorem approve_listing {id : Nat} {note : Option Text} {result : Except HttpError ResolveResponse}
    (h : Prog.Completes ReviewCall.exec w (approve id note) result w') :
    HitlQueue.listPending times w'.db =
        (HitlQueue.listPending times w.db).filter (fun item => decide (item.reviewId ≠ id)) ∧
      (result = .error alreadyResolved ↔ id ∉ listedReviews times w) := by
  rw [listedReviews, mem_listed_iff]
  rcases approve_completes h with ⟨hz, hresult, rfl⟩ | ⟨hpos, post, gid, score, rfl, rfl⟩
  · refine ⟨listPending_resolve times w.db id (nofun : HitlStatus.resolved ≠ .pending) note, ?_⟩
    simp [hresult, hz]
  · have hs : HitlStatus.resolved ≠ .pending := nofun
    refine ⟨?_, ?_⟩
    · rw [listPending_markPosted]
      exact listPending_resolve times w.db post.reviewId hs note
    · rcases approve_settles h with ⟨hz, _⟩ | ⟨_, hresult, _⟩
      · omega
      · simp [hresult, hpos]

theorem reject_listing {id : Nat} {note : Option Text} {result : Except HttpError ResolveResponse}
    (h : Prog.Completes ReviewCall.exec w (reject id note) result w') :
    HitlQueue.listPending times w'.db =
        (HitlQueue.listPending times w.db).filter (fun item => decide (item.reviewId ≠ id)) ∧
      (result = .error alreadyResolved ↔ id ∉ listedReviews times w) := by
  rw [listedReviews, mem_listed_iff]
  obtain rfl := reject_completes h
  have hs : HitlStatus.dismissed ≠ .pending := nofun
  refine ⟨listPending_resolve times w.db id hs note, ?_⟩
  rw [reject_eq] at h
  obtain ⟨_, claimed, _, he, h₁⟩ := Prog.completes_call_iff.mp h
  obtain ⟨_, hclaimed⟩ := exec_resolve he
  split_ifs at h₁ with hc
  · obtain ⟨rfl, _⟩ := Prog.completes_ret_iff.mp h₁
    simp [hclaimed.mp hc]
  · obtain ⟨rfl, _⟩ := Prog.completes_ret_iff.mp h₁
    simp [mt hclaimed.mpr hc]

theorem listed_perm {w₁ w₂ : ReviewWorld} (h : ∀ id, w₂.db.pendingCount id = w₁.db.pendingCount id) :
    (listedReviews times w₂).Perm (listedReviews times w₁) := by
  rw [List.perm_iff_count]
  intro id
  rw [listedReviews, listedReviews, count_listed, count_listed, h]

theorem listed_perm_cons {w₁ w₂ : ReviewWorld} {id : Nat}
    (h : ∀ id', w₂.db.pendingCount id' = w₁.db.pendingCount id' + if id' = id then 1 else 0) :
    (listedReviews times w₂).Perm (id :: listedReviews times w₁) := by
  rw [List.perm_iff_count]
  intro id'
  rw [List.count_cons, listedReviews, listedReviews, count_listed, count_listed, h]
  by_cases he : id' = id
  · simp [he]
  · simp [he, Ne.symm he]

/-- An aggregate that decides for a human adds its review, and nothing else
about the listed reviews changes. -/
theorem aggregate_listing {repo d : Text} {prNumber : Int} {family : List (List Finding)} {threshold : ℚ}
    {result : AggregateResult}
    (h : Prog.Completes ReviewCall.exec w (aggregate repo prNumber d family threshold) result w') :
    (listedReviews times w').Perm (if result.decision = .autoPost ∨ (w.db.review d).any (fun r => r.status ≠ .pending)
      then listedReviews times w else result.reviewId :: listedReviews times w) := by
  rw [aggregate_eq] at h
  obtain ⟨_, row, _, he, h₁⟩ := Prog.completes_call_iff.mp h
  obtain ⟨rfl, r, hr, rfl⟩ := exec_upsertReview he
  have hany : (w.db.review d).any (fun r => r.status ≠ .pending) = decide (r.status ≠ .pending) := by
    rw [ReviewDb.review_upsertReview_self] at hr
    cases hd : w.db.review d with
    | none =>
      rw [hd] at hr
      obtain rfl := Option.some.inj hr
      rfl
    | some r₀ =>
      rw [hd] at hr
      obtain rfl := Option.some.inj hr
      rfl
  rw [hany]
  split_ifs at h₁ with hs
  · have hpend : r.status = .pending := hs
    obtain ⟨_, w₂, hins, hgate⟩ := Prog.completes_bind_iff.mp h₁
    have hw₂ : ∀ id, w₂.db.pendingCount id = w.db.pendingCount id := by
      intro id
      rcases insertFindings_completes hins with rfl | ⟨hfk, rfl⟩
      · simp [ReviewDb.pendingCount, ReviewDb.hitlCount]
      · simp [ReviewDb.pendingCount, ReviewDb.hitlCount]
    obtain ⟨hid, hgate'⟩ := applyGate_settles hgate
    have hid' : result.reviewId = r.id := hid
    rcases hgate' with ⟨hdec, _, post, score, _, rfl⟩ | ⟨_, reason, hfk, status, score, hdec, hst, rfl⟩
    · rw [if_pos (.inl hdec)]
      exact listed_perm hw₂
    · have hhuman : result.decision ≠ .autoPost := by
        rw [hdec]
        rcases hst with rfl | rfl <;> simp [priorDecision]
      rw [if_neg (by simp [hhuman, hpend]), hid']
      refine listed_perm_cons fun id' => ?_
      rw [← hw₂ id']
      have hcount := ReviewDb.hitlCount_enqueue w₂.db r.id reason hfk id' .pending
      simp only [and_true] at hcount
      exact hcount
  · have hs' : r.status ≠ .pending := hs
    obtain ⟨_, rfl⟩ := Prog.completes_ret_iff.mp h₁
    rw [if_pos (.inr (decide_eq_true hs'))]
    refine listed_perm fun id => ?_
    simp [ReviewDb.pendingCount, ReviewDb.hitlCount]

end

/-- After any run of completed operations the inbox shows each waiting review
once, oldest first, with the repo and the pull request of its row. Approving or
rejecting a review answers 409 exactly when it is not shown and takes it off the
list; an aggregate puts its review on exactly when it decides for a human. -/
theorem inbox_agrees {times : RowTimes} {ops : List ReviewOp} {w : ReviewWorld} (hrun : RunsFrom emptyWorld ops w) :
    (listedReviews times w).Nodup ∧
    (HitlQueue.listPending times w.db).Pairwise (fun a b => a.createdAt ≤ b.createdAt) ∧
    (∀ item ∈ HitlQueue.listPending times w.db, ∃ r ∈ w.db.reviews.rows, waitsForHuman r.status = true ∧
      item.reviewId = r.id ∧ item.repo = r.repo ∧ item.prNumber = r.prNumber) ∧
    (∀ r ∈ w.db.reviews.rows, waitsForHuman r.status = true →
      r.id ∈ listedReviews times w ∨ 0 < w.db.hitlCount r.id .dismissed) ∧
    (∀ id note result w', (Prog.Completes ReviewCall.exec w (approve id note) result w' ∨
        Prog.Completes ReviewCall.exec w (reject id note) result w') →
      HitlQueue.listPending times w'.db =
        (HitlQueue.listPending times w.db).filter (fun item => decide (item.reviewId ≠ id)) ∧
      (result = .error alreadyResolved ↔ id ∉ listedReviews times w)) ∧
    (∀ repo prNumber d family threshold result w',
      Prog.Completes ReviewCall.exec w (aggregate repo prNumber d family threshold) result w' →
      (listedReviews times w').Perm
        (if result.decision = .autoPost ∨ (w.db.review d).any (fun r => r.status ≠ .pending)
          then listedReviews times w else result.reviewId :: listedReviews times w)) := by
  have hag := agrees_runsFrom agrees_emptyWorld hrun
  have hopen : ∀ r ∈ w.db.reviews.rows, openCount w r.id = if waitsForHuman r.status then 1 else 0 := fun r hr =>
    (hag.at_id r.id r (ReviewDb.reviewById_eq_some_iff.mpr ⟨hr, rfl⟩)).1
  refine ⟨?_, orderBy_sorted _ _ _, ?_, ?_, ?_, fun _ _ _ _ _ _ _ h => aggregate_listing h⟩
  · rw [List.nodup_iff_count_le_one]
    intro id
    rw [listedReviews, count_listed]
    rcases Nat.eq_zero_or_pos (w.db.pendingCount id) with hz | hpos
    · omega
    · obtain ⟨r, hr, rfl⟩ := ReviewDb.exists_of_id_lt (ReviewDb.id_lt_of_pending hpos)
      have hle := hopen r hr
      rw [openCount] at hle
      show w.db.hitlCount r.id .pending ≤ 1
      split_ifs at hle <;> omega
  · intro item hitem
    obtain ⟨x, hx, hi⟩ := List.mem_filterMap.mp (mem_orderBy_iff.mp hitem)
    obtain ⟨hp, r, hr, rfl⟩ := pendingItem_eq_some_iff.mp hi
    obtain ⟨hmem, hid⟩ := ReviewDb.reviewById_eq_some_iff.mp hr
    have hpos : 0 < w.db.hitlCount r.id .pending :=
      ReviewDb.hitlCount_pos_iff.mpr ⟨x.1, mem_zipIdx_hitl hx, hid.symm, hp⟩
    have hcount := hopen r hmem
    rw [openCount] at hcount
    refine ⟨r, hmem, ?_, rfl, rfl, rfl⟩
    by_contra hno
    rw [if_neg hno] at hcount
    omega
  · intro r hr hwait
    have hcount := hopen r hr
    rw [openCount, if_pos hwait] at hcount
    rw [listedReviews, mem_listed_iff, ReviewDb.pendingCount]
    omega
  · intro id note result w' h
    rcases h with h | h
    · exact approve_listing h
    · exact reject_listing h

def doubtfulOp : ReviewOp :=
  .aggregate "o/r".toList 1 "d".toList
    [[], [], [], [⟨.docs, .low, "docstring".toList, "db.py".toList, some 10,
      ⟨1 / 4, zero_le_one_fourth, one_fourth_le_one⟩, "Missing docstring".toList, "no docstring".toList⟩]]
    defaultConfidenceThreshold

def inOrder : RowTimes := ⟨fun i => i, fun i => i⟩

theorem inbox_agrees_doubtful : ∃ w, RunsFrom emptyWorld [doubtfulOp] w ∧ listedReviews inOrder w = [0] ∧
    ∀ note result w', Prog.Completes ReviewCall.exec w (reject 0 note) result w' →
      result ≠ .error alreadyResolved ∧ HitlQueue.listPending inOrder w'.db = [] := by
  obtain ⟨w, hw, hlisted, hall⟩ : ∃ w ∈ runAll anyChoice emptyWorld [doubtfulOp], listedReviews inOrder w = [0] ∧
      ∀ item ∈ HitlQueue.listPending inOrder w.db, item.reviewId = 0 := by
    decide +kernel
  have hrun := runsFrom_of_runAll hw
  refine ⟨w, hrun, hlisted, fun note result w' h => ?_⟩
  have hinbox := @inbox_agrees inOrder _ _ hrun
  obtain ⟨_, _, _, _, hresolve, _⟩ := hinbox
  obtain ⟨hlist, h409⟩ := hresolve 0 note result w' (.inr h)
  refine ⟨fun hresult => h409.mp hresult (by simp [hlisted]), ?_⟩
  rw [hlist, List.filter_eq_nil_iff]
  intro item hitem
  simp [hall item hitem]

end AiPrReview
