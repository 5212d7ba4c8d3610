import AiPrReview.QueueAgreement

/-! 'posted' under the interleavings of one `aggregate` with approves and
rejects. The HITL row is visible before the review's status is written. -/

namespace AiPrReview

/-- Where a thread stands: before its upsert, between a status check and the
call it leads to, or before the statement that ends it. -/
inductive ResolveMode : Type where
  | aggregate
  | armed (id : Nat)
  | queued (id : Nat)
  | approve (id : Nat)
  | reject (id : Nat)
  | holding (id : Nat)
  | marking (id : Nat)
  | done

inductive ResolveMode.Allows (d : Text) : ResolveMode → ReviewCall → Prop
  | upsert (repo : Text) (prNumber : Int) : Allows d .aggregate (.upsertReview repo prNumber d)
  | insert (id : Nat) (fs : List Finding) : Allows d (.armed id) (.insertFindings id fs)
  | emit (id : Nat) (outcome : Decision) (score : ℚ) (n : Nat) (threshold : ℚ) :
      Allows d (.armed id) (.emitDecision id outcome score n threshold)
  | autoPost (id : Nat) (repo : Text) (prNumber : Int) (body : Text) (event : ReviewEvent) :
      Allows d (.armed id) (.postReview id repo prNumber body event)
  | enqueue (id : Nat) (reason : Text) : Allows d (.armed id) (.enqueue id reason)
  | setStatus (id : Nat) (status : ReviewStatus) (score : ℚ) :
      status = .needsHuman ∨ status = .escalated → Allows d (.queued id) (.setStatus id status score)
  | claim (id : Nat) (note : Option Text) : Allows d (.approve id) (.resolve id .resolved note)
  | dismiss (id : Nat) (note : Option Text) : Allows d (.reject id) (.resolve id .dismissed note)
  | getReview (id : Nat) : Allows d (.holding id) (.getReview id)
  | getFindings (id : Nat) : Allows d (.holding id) (.getFindings id)
  | approvePost (id : Nat) (repo : Text) (prNumber : Int) (body : Text) (event : ReviewEvent) :
      Allows d (.holding id) (.postReview id repo prNumber body event)
  | mark (id gid : Nat) (score : ℚ) : Allows d (.marking id) (.markPosted id gid score)

def ResolveMode.next : ResolveMode → (c : ReviewCall) → c.Reply → ResolveMode
  | .aggregate, .upsertReview .., row => if ReviewRow.status row = .pending then .armed (ReviewRow.id row) else .done
  | .armed id, .postReview .., _ => .marking id
  | .armed id, .enqueue .., _ => .queued id
  | .armed id, _, _ => .armed id
  | .approve id, .resolve .., claimed => if claimed = true then .holding id else .done
  | .holding id, .postReview .., _ => .marking id
  | .holding id, _, _ => .holding id
  | _, _, _ => .done

def resolveOutline (d : Text) : Outline ReviewCall.Reply ResolveMode := ⟨ResolveMode.Allows d, ResolveMode.next⟩

def ResolveMode.ends (m : ResolveMode) : Prop := m = .done ∨ ∃ id, m = .holding id

theorem approve_follows (d : Text) (id : Nat) (note : Option Text) :
    (AiPrReview.approve id note).void.Follows (resolveOutline d) (fun m _ => m.ends) (.approve id) := by
  rw [Prog.void, approve_eq]
  refine ⟨.claim id note, fun claimed => ?_⟩
  by_cases hc : claimed = true
  · simp only [hc, if_true]
    refine ⟨.getReview id, fun review => ?_⟩
    cases review with
    | none => exact .inr ⟨id, rfl⟩
    | some r =>
      exact ⟨.getFindings id, fun _ =>
        ⟨.approvePost id _ _ _ _, fun _ => ⟨.mark id _ _, fun _ => .inl rfl⟩⟩⟩
  · simp only [hc]
    exact .inl rfl

theorem reject_follows (d : Text) (id : Nat) (note : Option Text) :
    (AiPrReview.reject id note).void.Follows (resolveOutline d) (fun m _ => m.ends) (.reject id) := by
  rw [Prog.void, reject_eq]
  refine ⟨.dismiss id note, fun claimed => ?_⟩
  by_cases hc : claimed = true
  · simp only [hc, if_true]
    exact .inl rfl
  · simp only [hc]
    exact .inl rfl

theorem applyGate_follows (d repo : Text) (prNumber : Int) (id : Nat) (threshold : ℚ)
    (deduped : List Finding) :
    (applyGate repo prNumber id threshold deduped).Follows (resolveOutline d) (fun m _ => m.ends)
      (.armed id) := by
  simp only [applyGate, Prog.perform_bind]
  refine ⟨.emit id _ _ _ _, fun _ => ?_⟩
  split_ifs with hd
  · exact ⟨.autoPost id _ _ _ _, fun _ => ⟨.mark id _ _, fun _ => .inl rfl⟩⟩
  · refine ⟨.enqueue id _, fun _ => ⟨.setStatus id _ _ ?_, fun _ => .inl rfl⟩⟩
    split_ifs
    · exact .inr rfl
    · exact .inl rfl

theorem aggregate_follows (d repo : Text) (prNumber : Int) (family : List (List Finding))
    (threshold : ℚ) :
    (AiPrReview.aggregate repo prNumber d family threshold).void.Follows (resolveOutline d)
      (fun m _ => m.ends) .aggregate := by
  rw [Prog.void, aggregate_eq]
  refine ⟨.upsert repo prNumber, fun row => ?_⟩
  by_cases hs : ReviewRow.status row = .pending
  · have hnext : (resolveOutline d).next .aggregate (.upsertReview repo prNumber d) row =
        .armed (ReviewRow.id row) := if_pos hs
    simp only [hnext, hs, if_true]
    have hins : (TruthStore.insertFindings (ReviewRow.id row) (dedupFindings family.flatten)).Follows
        (resolveOutline d) (fun m _ => m = .armed (ReviewRow.id row)) (.armed (ReviewRow.id row)) := by
      unfold TruthStore.insertFindings
      split_ifs
      · exact rfl
      · exact ⟨.insert _ _, fun _ => rfl⟩
    have hall := hins.bind fun m _ hm => hm ▸ applyGate_follows d repo prNumber (ReviewRow.id row)
      threshold (dedupFindings family.flatten)
    exact hall.bind fun m _ hm => hm
  · have hnext : (resolveOutline d).next .aggregate (.upsertReview repo prNumber d) row = .done :=
      if_neg hs
    simp only [hnext, hs, if_false]
    exact .inl rfl

/-! What keeps an approve and the aggregate apart. -/

def holdsReview (id : Nat) : Thread ResolveMode → Nat
  | .running (.armed i) | .running (.holding i) | .running (.marking i) => if i = id then 1 else 0
  | _ => 0

def isQueued (id : Nat) : Thread ResolveMode → Nat
  | .running (.queued i) => if i = id then 1 else 0
  | _ => 0

def isEntering : Thread ResolveMode → Nat
  | .running .aggregate => 1
  | _ => 0

def isAggregating : Thread ResolveMode → Nat
  | .running .aggregate | .running (.armed _) | .running (.queued _) => 1
  | _ => 0

structure ResolveInv (w : ReviewWorld) (ts : List (Thread ResolveMode)) : Prop where
  once : total isAggregating ts ≤ 1
  known : ∀ id, 0 < total (holdsReview id) ts → id < w.db.reviews.rows.length
  claim : ∀ id, 0 < w.db.pendingCount id → total (holdsReview id) ts = 0
  alone : ∀ id, total (holdsReview id) ts ≤ 1
  fresh : 0 < total isEntering ts → ∀ id, w.status id = some .pending →
    w.db.pendingCount id = 0 ∧ total (holdsReview id) ts = 0
  posted : ∀ id, w.status id = some .posted →
    w.db.pendingCount id = 0 ∧ total (holdsReview id) ts = 0 ∧ total (isQueued id) ts = 0

theorem isEntering_le (ts : List (Thread ResolveMode)) :
    total isEntering ts ≤ total isAggregating ts := by
  refine total_mono (fun t => ?_) ts
  cases t with
  | running m => cases m <;> simp [isEntering, isAggregating]
  | stopped m => simp [isEntering]
  | lost m => simp [isEntering]

def postedAs (w : ReviewWorld) (id gid : Nat) : Prop :=
  ∃ r, w.db.reviewById id = some r ∧ r.status = .posted ∧ r.githubReviewId = some gid

instance (w : ReviewWorld) (id gid : Nat) : Decidable (postedAs w id gid) :=
  decidable_of_iff
    ((w.db.reviewById id).map (fun r => (r.status, r.githubReviewId)) = some (.posted, some gid)) (by
      cases hr : w.db.reviewById id with
      | none => simp [postedAs, hr]
      | some r => simp [postedAs, hr])

theorem status_of_postedAs {w : ReviewWorld} {id gid : Nat} (h : postedAs w id gid) :
    w.status id = some .posted := by
  obtain ⟨r, hr, hs, _⟩ := h
  simp [ReviewWorld.status, hr, hs]

theorem status_upsertReview {db : ReviewDb} {github : List PostedReview} {repo d : Text}
    {prNumber : Int} {id : Nat} {st : ReviewStatus}
    (h : ReviewWorld.status ⟨db.upsertReview repo prNumber d, github⟩ id = some st) :
    ReviewWorld.status ⟨db, github⟩ id = some st ∨ (id = db.reviews.rows.length ∧ st = .pending) := by
  obtain ⟨r, hr, rfl⟩ := Option.map_eq_some_iff.mp h
  rcases ReviewDb.reviewById_upsertReview hr with ⟨r₀, hr₀, hs⟩ | ⟨hid, hs⟩
  · exact .inl (by simp [ReviewWorld.status, hr₀, hs])
  · exact .inr ⟨hid, hs⟩

theorem status_markPosted (db : ReviewDb) (github : List PostedReview) (id gid : Nat) (score : ℚ)
    (id' : Nat) : ReviewWorld.status ⟨db.markPosted id gid score, github⟩ id' =
      (ReviewWorld.status ⟨db, github⟩ id').map fun st => if id' = id then .posted else st := by
  simp only [ReviewWorld.status, ReviewDb.reviewById_markPosted, Option.map_map]
  cases hr : db.reviewById id' with
  | none => rfl
  | some r =>
    have hid := (ReviewDb.reviewById_eq_some_iff.mp hr).2
    by_cases he : id' = id
    · simp [hid, he]
    · simp [hid, he]

theorem status_setStatus (db : ReviewDb) (github : List PostedReview) (id : Nat) (status : ReviewStatus)
    (score : ℚ) (id' : Nat) : ReviewWorld.status ⟨db.setStatus id status score, github⟩ id' =
      (ReviewWorld.status ⟨db, github⟩ id').map fun st => if id' = id then status else st := by
  simp only [ReviewWorld.status, ReviewDb.reviewById_setStatus, Option.map_map]
  cases hr : db.reviewById id' with
  | none => rfl
  | some r =>
    have hid := (ReviewDb.reviewById_eq_some_iff.mp hr).2
    by_cases he : id' = id
    · simp [hid, he]
    · simp [hid, he]

namespace ResolveInv

variable {w w' : ReviewWorld} {ts ts' pre post : List (Thread ResolveMode)} {id : Nat}

theorem mono (I : ResolveInv w ts) (hst : ∀ id, w'.status id = w.status id)
    (hpd : ∀ id, w'.db.pendingCount id = w.db.pendingCount id)
    (hlen : w.db.reviews.rows.length ≤ w'.db.reviews.rows.length)
    (hh : ∀ id, total (holdsReview id) ts' ≤ total (holdsReview id) ts)
    (hq : ∀ id, total (isQueued id) ts' ≤ total (isQueued id) ts)
    (he : total isEntering ts' ≤ total isEntering ts)
    (ha : total isAggregating ts' ≤ total isAggregating ts) : ResolveInv w' ts' where
  once := ha.trans I.once
  known id h := (I.known id (h.trans_le (hh id))).trans_le hlen
  claim id h := by
    have hc := I.claim id (hpd id ▸ h)
    have hi := hh id
    omega
  alone id := (hh id).trans (I.alone id)
  fresh h id hs := by
    have hf := I.fresh (h.trans_le he) id (by rw [← hst id, hs])
    have hi := hh id
    exact ⟨by rw [hpd id, hf.1], by omega⟩
  posted id hs := by
    have hp := I.posted id (by rw [← hst id, hs])
    have hi := hh id
    have hqi := hq id
    exact ⟨by rw [hpd id, hp.1], by omega, by omega⟩

theorem finish {m : ResolveMode} (I : ResolveInv w (pre ++ .running m :: post)) :
    ResolveInv w (pre ++ .running .done :: post) := by
  have hle : ∀ f : Thread ResolveMode → Nat, f (.running .done) = 0 →
      total f (pre ++ .running .done :: post) ≤ total f (pre ++ .running m :: post) := by
    intro f hf
    simp only [total_middle, hf]
    omega
  exact I.mono (fun _ => rfl) (fun _ => rfl) le_rfl (fun id => hle (holdsReview id) rfl)
    (fun id => hle (isQueued id) rfl) (hle isEntering rfl) (hle isAggregating rfl)

theorem no_holder_of_length_le (I : ResolveInv w ts) (h : w.db.reviews.rows.length ≤ id) :
    w.db.pendingCount id = 0 ∧ total (holdsReview id) ts = 0 := by
  constructor
  · by_contra hne
    have := ReviewDb.id_lt_of_pending (Nat.pos_of_ne_zero hne)
    omega
  · by_contra hne
    have := I.known id (Nat.pos_of_ne_zero hne)
    omega

theorem no_entering (I : ResolveInv w (pre ++ .running .aggregate :: post)) :
    total isAggregating pre = 0 ∧ total isAggregating post = 0 ∧ total isEntering pre = 0 ∧
      total isEntering post = 0 := by
  have hone := I.once
  simp only [total_middle, isAggregating] at hone
  have hp := isEntering_le pre
  have hq := isEntering_le post
  omega

/-- The status check of the aggregate. Nothing else can hold a review that is
still pending, since this is the only aggregate. -/
theorem upsert_pending (I : ResolveInv w (pre ++ .running .aggregate :: post)) {repo d : Text}
    {prNumber : Int} {r : ReviewRecord} (hr : (w.db.upsertReview repo prNumber d).review d = some r)
    (hp : r.status = .pending) :
    ResolveInv ⟨w.db.upsertReview repo prNumber d, w.github⟩ (pre ++ .running (.armed r.id) :: post) := by
  have hr' := ReviewDb.reviewById_eq_some_iff.mpr ⟨ReviewDb.review_mem hr, rfl⟩
  have hstatus : ReviewWorld.status ⟨w.db.upsertReview repo prNumber d, w.github⟩ r.id = some .pending := by
    simp [ReviewWorld.status, hr', hp]
  have hpd : ∀ id, (w.db.upsertReview repo prNumber d).pendingCount id = w.db.pendingCount id := by
    simp [ReviewDb.pendingCount, ReviewDb.hitlCount]
  have hfree : w.db.pendingCount r.id = 0 ∧
      total (holdsReview r.id) (pre ++ .running .aggregate :: post) = 0 := by
    rcases status_upsertReview hstatus with hs | ⟨hid, _⟩
    · exact I.fresh (by simp only [total_middle, isEntering]; omega) r.id hs
    · exact I.no_holder_of_length_le hid.ge
  have hlen := ReviewDb.length_upsertReview w.db repo prNumber d
  have hrlt := ReviewDb.id_lt (ReviewDb.review_mem hr)
  have hno := I.no_entering
  simp only [total_middle, holdsReview] at hfree
  constructor
  · simp only [total_middle, isAggregating]
    omega
  · intro id h
    by_cases he : r.id = id
    · exact he ▸ hrlt
    · have hk := I.known id
      simp only [total_middle, holdsReview, he, if_false] at h hk
      exact (hk h).trans_le hlen
  · intro id h
    have hc := I.claim id (hpd id ▸ h)
    have he : r.id ≠ id := by
      rintro rfl
      have := hpd r.id ▸ h
      omega
    simp only [total_middle, holdsReview, he, if_false] at hc ⊢
    omega
  · intro id
    have ha := I.alone id
    by_cases he : r.id = id
    · subst he
      simp only [total_middle, holdsReview, if_true]
      omega
    · simp only [total_middle, holdsReview, he, if_false] at ha ⊢
      omega
  · intro h
    simp only [total_middle, isEntering] at h
    omega
  · intro id hs
    have he : r.id ≠ id := by
      rintro rfl
      rw [hstatus] at hs
      simp at hs
    rcases status_upsertReview hs with hs' | ⟨_, hs'⟩
    · have hpo := I.posted id hs'
      simp only [total_middle, holdsReview, isQueued, he, if_false] at hpo ⊢
      exact ⟨(hpd id).trans hpo.1, hpo.2⟩
    · simp at hs'

theorem upsert_done (I : ResolveInv w (pre ++ .running .aggregate :: post)) {repo d : Text}
    {prNumber : Int} :
    ResolveInv ⟨w.db.upsertReview repo prNumber d, w.github⟩ (pre ++ .running .done :: post) := by
  have hpd : ∀ id, (w.db.upsertReview repo prNumber d).pendingCount id = w.db.pendingCount id := by
    simp [ReviewDb.pendingCount, ReviewDb.hitlCount]
  have hh : ∀ id, total (holdsReview id) (pre ++ .running .done :: post) =
      total (holdsReview id) (pre ++ .running .aggregate :: post) := by
    simp [total_middle, holdsReview]
  have hlen := ReviewDb.length_upsertReview w.db repo prNumber d
  have hno := I.no_entering
  constructor
  · simp only [total_middle, isAggregating]
    omega
  · intro id h
    exact (I.known id (hh id ▸ h)).trans_le hlen
  · intro id h
    exact (hh id).trans (I.claim id (hpd id ▸ h))
  · intro id
    exact (hh id).trans_le (I.alone id)
  · intro h
    simp only [total_middle, isEntering] at h
    omega
  · intro id hs
    rcases status_upsertReview hs with hs' | ⟨_, hs'⟩
    · have hpo := I.posted id hs'
      simp only [total_middle, holdsReview, isQueued] at hpo ⊢
      exact ⟨(hpd id).trans hpo.1, hpo.2⟩
    · simp at hs'

/-- The HITL row becomes visible; the review's status is not written yet. -/
theorem enqueue (I : ResolveInv w (pre ++ .running (.armed id) :: post)) (reason : Text)
    (hfk : id < w.db.reviews.rows.length) :
    ResolveInv ⟨w.db.enqueue id reason hfk, w.github⟩ (pre ++ .running (.queued id) :: post) := by
  have hpd : ∀ id', id ≠ id' → (w.db.enqueue id reason hfk).pendingCount id' = w.db.pendingCount id' := by
    intro id' he
    simp [ReviewDb.pendingCount, ReviewDb.hitlCount_enqueue, Ne.symm he]
  have hh : ∀ id', total (holdsReview id') (pre ++ .running (.queued id) :: post) ≤
      total (holdsReview id') (pre ++ .running (.armed id) :: post) := by
    intro id'
    simp only [total_middle, holdsReview]
    omega
  have hone := I.once
  have hp := isEntering_le pre
  have hq := isEntering_le post
  simp only [total_middle, isAggregating] at hone
  constructor
  · simp only [total_middle, isAggregating]
    omega
  · intro id' h
    exact I.known id' (h.trans_le (hh id'))
  · intro id' h
    by_cases he : id = id'
    · subst he
      have ha := I.alone id
      simp only [total_middle, holdsReview, if_true] at ha ⊢
      omega
    · have hc := I.claim id' (hpd id' he ▸ h)
      have hi := hh id'
      omega
  · intro id'
    exact (hh id').trans (I.alone id')
  · intro h
    simp only [total_middle, isEntering] at h
    omega
  · intro id' hs
    have hpo := I.posted id' hs
    have he : id ≠ id' := by
      rintro rfl
      simp only [total_middle, holdsReview, if_true] at hpo
      omega
    simp only [total_middle, holdsReview, isQueued, he, if_false] at hpo ⊢
    exact ⟨(hpd id' he).trans hpo.1, hpo.2⟩

theorem mark (I : ResolveInv w (pre ++ .running (.marking id) :: post)) (gid : Nat) (score : ℚ)
    (hq : total (isQueued id) (pre ++ .running (.marking id) :: post) = 0) :
    ResolveInv ⟨w.db.markPosted id gid score, w.github⟩ (pre ++ .running .done :: post) := by
  have hlen : (w.db.markPosted id gid score).reviews.rows.length = w.db.reviews.rows.length := by
    simp [ReviewDb.markPosted, ReviewDb.updateReviews, Table.update]
  have hh : ∀ id', total (holdsReview id') (pre ++ .running .done :: post) ≤
      total (holdsReview id') (pre ++ .running (.marking id) :: post) := by
    intro id'
    simp only [total_middle, holdsReview]
    omega
  have hone := I.once
  simp only [total_middle, isAggregating] at hone
  constructor
  · simp only [total_middle, isAggregating]
    omega
  · intro id' h
    exact hlen ▸ I.known id' (h.trans_le (hh id'))
  · intro id' h
    have hc := I.claim id' h
    have hi := hh id'
    omega
  · intro id'
    exact (hh id').trans (I.alone id')
  · intro h id' hs
    rw [status_markPosted] at hs
    obtain ⟨st, hst, he⟩ := Option.map_eq_some_iff.mp hs
    have hne : id' ≠ id := by
      rintro rfl
      simp at he
    rw [if_neg hne] at he
    have hf := I.fresh (by simp only [total_middle, isEntering] at h ⊢; omega) id' (he ▸ hst)
    have hi := hh id'
    exact ⟨hf.1, by omega⟩
  · intro id' hs
    rw [status_markPosted] at hs
    obtain ⟨st, hst, he⟩ := Option.map_eq_some_iff.mp hs
    by_cases hne : id' = id
    · subst hne
      have ha := I.alone id'
      simp only [total_middle, holdsReview, isQueued, if_true] at ha hq ⊢
      refine ⟨?_, by omega, by omega⟩
      by_contra hpos
      have hc := I.claim id' (Nat.pos_of_ne_zero hpos)
      simp only [total_middle, holdsReview, if_true] at hc
      omega
    · rw [if_neg hne] at he
      have hpo := I.posted id' (he ▸ hst)
      have hi := hh id'
      refine ⟨hpo.1, by omega, ?_⟩
      have hqi := hpo.2.2
      simp only [total_middle, isQueued] at hqi ⊢
      omega

theorem setStatus (I : ResolveInv w (pre ++ .running (.queued id) :: post)) {status : ReviewStatus}
    (hs : status = .needsHuman ∨ status = .escalated) (score : ℚ) :
    ResolveInv ⟨w.db.setStatus id status score, w.github⟩ (pre ++ .running .done :: post) := by
  have hlen : (w.db.setStatus id status score).reviews.rows.length = w.db.reviews.rows.length := by
    simp [ReviewDb.setStatus, ReviewDb.updateReviews, Table.update]
  have hh : ∀ id', total (holdsReview id') (pre ++ .running .done :: post) =
      total (holdsReview id') (pre ++ .running (.queued id) :: post) := by
    simp [total_middle, holdsReview]
  have hone := I.once
  have hp := isEntering_le pre
  have hq := isEntering_le post
  simp only [total_middle, isAggregating] at hone
  constructor
  · simp only [total_middle, isAggregating]
    omega
  · intro id' h
    exact hlen ▸ I.known id' (hh id' ▸ h)
  · intro id' h
    exact (hh id').trans (I.claim id' h)
  · intro id'
    exact (hh id').trans_le (I.alone id')
  · intro h
    simp only [total_middle, isEntering] at h
    omega
  · intro id' hst
    rw [status_setStatus] at hst
    obtain ⟨st, hst', he⟩ := Option.map_eq_some_iff.mp hst
    have hne : id' ≠ id := by
      rintro rfl
      rcases hs with rfl | rfl <;> simp at he
    rw [if_neg hne] at he
    have hpo := I.posted id' (he ▸ hst')
    simp only [total_middle, holdsReview, isQueued] at hpo ⊢
    exact ⟨hpo.1, by omega, by omega⟩

theorem claimed (I : ResolveInv w (pre ++ .running (.approve id) :: post))
    (hpos : 0 < w.db.pendingCount id) (note : Option Text) :
    ResolveInv ⟨w.db.resolve id .resolved note, w.github⟩ (pre ++ .running (.holding id) :: post) := by
  have hpd : ∀ id', (w.db.resolve id .resolved note).pendingCount id' =
      if id' = id then 0 else w.db.pendingCount id' :=
    ReviewDb.pendingCount_resolve w.db id (by decide) note
  have hone := I.once
  have hfree := I.claim id hpos
  simp only [total_middle, isAggregating, holdsReview] at hone hfree
  constructor
  · simp only [total_middle, isAggregating]
    omega
  · intro id' h
    by_cases he : id = id'
    · have hlt : id < w.db.reviews.rows.length := ReviewDb.id_lt_of_pending hpos
      exact he ▸ hlt
    · have hk := I.known id'
      simp only [total_middle, holdsReview, he, if_false] at h hk
      exact hk h
  · intro id' h
    simp only [hpd id'] at h
    by_cases he : id' = id
    · simp [he] at h
    · have hc := I.claim id' (by simpa [he] using h)
      simp only [total_middle, holdsReview, Ne.symm he, if_false] at hc ⊢
      omega
  · intro id'
    have ha := I.alone id'
    by_cases he : id = id'
    · subst he
      simp only [total_middle, holdsReview, if_true]
      omega
    · simp only [total_middle, holdsReview, he, if_false] at ha ⊢
      omega
  · intro h id' hs
    have hf := I.fresh (by simp only [total_middle, isEntering] at h ⊢; omega) id' hs
    have he : id ≠ id' := by
      rintro rfl
      omega
    simp only [total_middle, holdsReview, he, if_false] at hf ⊢
    exact ⟨by simp [hpd id', Ne.symm he, hf.1], hf.2⟩
  · intro id' hs
    have hpo := I.posted id' hs
    have he : id ≠ id' := by
      rintro rfl
      omega
    simp only [total_middle, holdsReview, isQueued, he, if_false] at hpo ⊢
    exact ⟨by simp [hpd id', Ne.symm he, hpo.1], hpo.2⟩

theorem resolve (I : ResolveInv w ts) {status : HitlStatus} (hst : status ≠ .pending)
    (note : Option Text) : ResolveInv ⟨w.db.resolve id status note, w.github⟩ ts := by
  have hpd : ∀ id', (w.db.resolve id status note).pendingCount id' ≤ w.db.pendingCount id' := by
    intro id'
    rw [ReviewDb.pendingCount_resolve w.db id hst note id']
    split_ifs <;> omega
  refine ⟨I.once, I.known, ?_, I.alone, ?_, ?_⟩
  · intro id' h
    exact I.claim id' (h.trans_le (hpd id'))
  · intro h id' hs
    have hf := I.fresh h id' hs
    exact ⟨Nat.eq_zero_of_le_zero (hf.1 ▸ hpd id'), hf.2⟩
  · intro id' hs
    have hpo := I.posted id' hs
    exact ⟨Nat.eq_zero_of_le_zero (hpo.1 ▸ hpd id'), hpo.2⟩

end ResolveInv

/-! The statement: no step of such a run undoes 'posted', as long as no approve
marks a review whose status an aggregate has still to write. -/

theorem PostedAs.markPosted {db : ReviewDb} {github : List PostedReview} {id gid id' gid' : Nat}
    {score : ℚ} (h : postedAs ⟨db, github⟩ id gid) (hne : id' ≠ id) :
    postedAs ⟨db.markPosted id' gid' score, github⟩ id gid := by
  obtain ⟨r, hr, hs, hg⟩ := h
  have hr' : db.reviewById id = some r := hr
  have hid := (ReviewDb.reviewById_eq_some_iff.mp hr').2
  refine ⟨r, ?_, hs, hg⟩
  simp [ReviewDb.reviewById_markPosted, hr', hid, Ne.symm hne]

theorem PostedAs.setStatus {db : ReviewDb} {github : List PostedReview} {id gid id' : Nat}
    {status : ReviewStatus} {score : ℚ} (h : postedAs ⟨db, github⟩ id gid) (hne : id' ≠ id) :
    postedAs ⟨db.setStatus id' status score, github⟩ id gid := by
  obtain ⟨r, hr, hs, hg⟩ := h
  have hr' : db.reviewById id = some r := hr
  have hid := (ReviewDb.reviewById_eq_some_iff.mp hr').2
  refine ⟨r, ?_, hs, hg⟩
  simp [ReviewDb.reviewById_setStatus, hr', hid, Ne.symm hne]

theorem PostedAs.upsertReview {w : ReviewWorld} {id gid : Nat} {repo d : Text} {prNumber : Int}
    (h : postedAs w id gid) : postedAs ⟨w.db.upsertReview repo prNumber d, w.github⟩ id gid := by
  obtain ⟨r, hr, hs, hg⟩ := h
  obtain ⟨n, hn⟩ := ReviewDb.reviewById_upsertReview_of_some repo prNumber d hr
  exact ⟨_, hn, hs, hg⟩

theorem PostedAs.of_db {w w' : ReviewWorld} {id gid : Nat} (hdb : w'.db = w.db) (h : postedAs w id gid) :
    postedAs w' id gid := by
  simpa [postedAs, hdb] using h

/-- A thread that leaves the rows alone and takes no more on itself. -/
theorem ResolveInv.quiet {w w' : ReviewWorld} {pre post : List (Thread ResolveMode)} {m m' : ResolveMode}
    (I : ResolveInv w (pre ++ .running m :: post)) (hdb : w'.db = w.db)
    (hh : ∀ id, holdsReview id (.running m') ≤ holdsReview id (.running m))
    (hq : ∀ id, isQueued id (.running m') ≤ isQueued id (.running m))
    (hen : isEntering (.running m') ≤ isEntering (.running m))
    (hag : isAggregating (.running m') ≤ isAggregating (.running m)) :
    ResolveInv w' (pre ++ .running m' :: post) := by
  refine I.mono (fun id => ?_) (fun id => ?_) ?_ (fun id => ?_) (fun id => ?_) ?_ ?_
  · simp [ReviewWorld.status, hdb]
  · rw [hdb]
  · rw [hdb]
  · exact total_middle_le (hh id)
  · exact total_middle_le (hq id)
  · exact total_middle_le hen
  · exact total_middle_le hag

theorem ResolveInv.reply {d : Text} {w w' : ReviewWorld} {pre post : List (Thread ResolveMode)}
    {m : ResolveMode} {c : ReviewCall} {r : c.Reply} {e : ReviewChoice}
    (I : ResolveInv w (pre ++ .running m :: post)) (hallow : m.Allows d c)
    (he : c.exec e w = some (r, w'))
    (hmark : ∀ id, m = .marking id → total (isQueued id) (pre ++ .running m :: post) = 0) :
    ResolveInv w' (pre ++ .running (m.next c r) :: post) ∧
      ∀ id gid, postedAs w id gid → postedAs w' id gid := by
  cases hallow with
  | upsert repo prNumber =>
    obtain ⟨rfl, rec, hrec, rfl⟩ := exec_upsertReview he
    refine ⟨?_, fun id gid h => PostedAs.upsertReview h⟩
    by_cases hs : rec.status = .pending
    · have hnext : ResolveMode.next .aggregate (.upsertReview repo prNumber d) rec.row = .armed rec.id :=
        if_pos hs
      exact hnext ▸ I.upsert_pending hrec hs
    · have hnext : ResolveMode.next .aggregate (.upsertReview repo prNumber d) rec.row = .done :=
        if_neg hs
      exact hnext ▸ I.upsert_done
  | insert id fs =>
    obtain ⟨hfk, rfl⟩ := exec_insertFindings he
    refine ⟨I.mono (fun id' => ?_) (fun id' => ?_) ?_ (fun _ => le_rfl) (fun _ => le_rfl) le_rfl le_rfl, ?_⟩
    · simp [ReviewWorld.status]
    · simp [ReviewDb.pendingCount, ReviewDb.hitlCount]
    · simp
    · intro id' gid h
      simpa [postedAs] using h
  | emit id outcome score n threshold =>
    obtain rfl := exec_of_reads rfl he
    exact ⟨I.quiet rfl (fun _ => le_rfl) (fun _ => le_rfl) le_rfl le_rfl, fun _ _ h => h⟩
  | autoPost id repo prNumber body event =>
    obtain ⟨_, rfl⟩ := exec_postReview he
    exact ⟨I.quiet rfl (fun _ => le_rfl) (fun _ => le_rfl) le_rfl (by simp [isAggregating, ResolveMode.next]),
      fun _ _ h => PostedAs.of_db rfl h⟩
  | enqueue id reason =>
    obtain ⟨hfk, rfl⟩ := exec_enqueue he
    exact ⟨I.enqueue reason hfk, fun id' gid h => by simpa [postedAs] using h⟩
  | setStatus id status score hs =>
    obtain rfl := exec_setStatus he
    refine ⟨I.setStatus hs score, fun id' gid h => PostedAs.setStatus h ?_⟩
    rintro rfl
    have hpo := (I.posted id (status_of_postedAs h)).2.2
    simp only [total_middle, isQueued, if_true] at hpo
    omega
  | claim id note =>
    obtain ⟨rfl, hclaimed⟩ := exec_resolve he
    refine ⟨?_, fun id' gid h => by simpa [postedAs] using h⟩
    by_cases hc : r = true
    · have hnext : ResolveMode.next (.approve id) (.resolve id .resolved note) r = .holding id := if_pos hc
      exact hnext ▸ I.claimed (hclaimed.mp hc) note
    · have hnext : ResolveMode.next (.approve id) (.resolve id .resolved note) r = .done := if_neg hc
      exact hnext ▸ (I.resolve (by decide) note).finish
  | dismiss id note =>
    obtain ⟨rfl, _⟩ := exec_resolve he
    exact ⟨(I.resolve (by decide) note).finish, fun id' gid h => by simpa [postedAs] using h⟩
  | getReview id =>
    obtain rfl := exec_of_reads rfl he
    exact ⟨I.quiet rfl (fun _ => le_rfl) (fun _ => le_rfl) le_rfl le_rfl, fun _ _ h => h⟩
  | getFindings id =>
    obtain rfl := exec_of_reads rfl he
    exact ⟨I.quiet rfl (fun _ => le_rfl) (fun _ => le_rfl) le_rfl le_rfl, fun _ _ h => h⟩
  | approvePost id repo prNumber body event =>
    obtain ⟨_, rfl⟩ := exec_postReview he
    exact ⟨I.quiet rfl (fun _ => le_rfl) (fun _ => le_rfl) le_rfl (by simp [isAggregating, ResolveMode.next]),
      fun _ _ h => PostedAs.of_db rfl h⟩
  | mark id gid score =>
    obtain rfl := exec_markPosted he
    refine ⟨I.mark gid score (hmark id rfl), fun id' gid' h => PostedAs.markPosted h ?_⟩
    rintro rfl
    have hpo := (I.posted id (status_of_postedAs h)).2.1
    simp only [total_middle, holdsReview, if_true] at hpo
    omega

def Label.calm : Label → Bool
  | .reply _ | .spawn => true
  | _ => false

def resolves (p : ReviewProg Unit) : Prop :=
  ∃ id note, p = (approve id note).void ∨ p = (reject id note).void

/-- The step is not the mark of a review whose status an aggregate has still to write. -/
def marksAlone (s : Pool ReviewWorld (ReviewProg Unit)) (l : Label) : Prop :=
  ∀ i id gid score, l = .reply i →
    s.threads[i]?.bind Thread.next = some (.markPosted id gid score) →
    ∀ t ∈ s.threads, ∀ status score', t.next ≠ some (.setStatus id status score')

theorem no_queued_of_marksAlone {d : Text} {s : Pool ReviewWorld (ReviewProg Unit)} {w : ReviewWorld}
    {pre post : List (Thread ResolveMode)} {id : Nat}
    (hm : (resolveOutline d).Matches (fun m _ => m.ends) s ⟨w, pre ++ .running (.marking id) :: post⟩)
    (hc : marksAlone s (.reply pre.length)) :
    total (isQueued id) (pre ++ .running (.marking id) :: post) = 0 := by
  obtain ⟨p, hp, hf⟩ := hm.running_at
  cases p with
  | ret a => rcases hf with h | ⟨_, h⟩ <;> simp at h
  | call c k =>
    obtain ⟨hallow, _⟩ := hf
    cases hallow with
    | mark _ gid score =>
      refine total_eq_zero fun t ht => ?_
      by_contra hq
      obtain ⟨t', ht', hat⟩ := hm.mem ht
      cases hat with
      | @running p m hf =>
        cases m with
        | queued i =>
          cases p with
          | ret a => rcases hf with h | ⟨_, h⟩ <;> simp at h
          | call c k =>
            obtain ⟨hallow, _⟩ := hf
            cases hallow with
            | setStatus _ status score' _ =>
              have hid : i = id := by
                by_contra hne
                simp [isQueued, hne] at hq
              subst hid
              exact hc pre.length i gid score rfl (by simp [hp, Thread.next]) _ ht' status score' rfl
        | _ => simp [isQueued] at hq
      | _ => simp [isQueued] at hq

theorem resolveInv_step {d : Text} {s : Pool ReviewWorld (ReviewProg Unit)} {a a' : Pool ReviewWorld ResolveMode}
    {l : Label} (hm : (resolveOutline d).Matches (fun m _ => m.ends) s a)
    (hc : l.calm = true ∧ marksAlone s l) (I : ResolveInv a.world a.threads)
    (h : (resolveOutline d).Step reviewHost (fun m => ∃ id, m = .approve id ∨ m = .reject id) a l a') :
    ResolveInv a'.world a'.threads ∧ ∀ id gid, postedAs a.world id gid → postedAs a'.world id gid := by
  cases h with
  | @reply pre post m c w w' r e hallow he =>
    refine I.reply hallow he fun id hid => ?_
    subst hid
    exact no_queued_of_marksAlone hm hc.2
  | @spawn ts w m hsp =>
    refine ⟨?_, fun _ _ h => h⟩
    obtain ⟨id, rfl | rfl⟩ := hsp
    · refine I.mono (fun _ => rfl) (fun _ => rfl) le_rfl ?_ ?_ ?_ ?_ <;>
        simp [total_concat, holdsReview, isQueued, isEntering, isAggregating]
    · refine I.mono (fun _ => rfl) (fun _ => rfl) le_rfl ?_ ?_ ?_ ?_ <;>
        simp [total_concat, holdsReview, isQueued, isEntering, isAggregating]
  | retry => simp [Label.calm] at hc
  | stop => simp [Label.calm] at hc
  | lose => simp [Label.calm] at hc
  | drift => simp [Label.calm] at hc

theorem resolveInv_start {w : ReviewWorld} (h : Agrees w) :
    ResolveInv w [.running .aggregate] := by
  have hpd : ∀ id st, w.status id = some st → waitsForHuman st = false → w.db.pendingCount id = 0 := by
    intro id st hs hw
    obtain ⟨r, hr, rfl⟩ := Option.map_eq_some_iff.mp hs
    have hopen := (h.at_id id r hr).1
    simp only [hw, Bool.false_eq_true, if_false, openCount] at hopen
    simp only [ReviewDb.pendingCount]
    omega
  refine ⟨by simp [total, isAggregating], ?_, ?_, ?_, ?_, ?_⟩
  · simp [total, holdsReview]
  · simp [total, holdsReview]
  · simp [total, holdsReview]
  · intro _ id hs
    exact ⟨hpd id _ hs rfl, by simp [total, holdsReview]⟩
  · intro id hs
    exact ⟨hpd id _ hs rfl, by simp [total, holdsReview], by simp [total, isQueued]⟩

/-- Once a review is 'posted' under a GitHub id, it stays so in every run whose
approves never mark a review that an aggregate has enqueued but not yet written. -/
theorem posted_is_terminal {ops : List ReviewOp} {w₀ : ReviewWorld} (hops : RunsFrom emptyWorld ops w₀)
    (repo : Text) (prNumber : Int) (d : Text) (findingsByAgent : List (List Finding)) (threshold : ℚ)
    {s s' : Pool ReviewWorld (ReviewProg Unit)}
    (hs : reviewHost.Run resolves (fun s l => l.calm = true ∧ marksAlone s l)
      ⟨w₀, [.running (aggregate repo prNumber d findingsByAgent threshold).void]⟩ s)
    (hs' : reviewHost.Run resolves (fun s l => l.calm = true ∧ marksAlone s l) s s')
    {id gid : Nat} (hp : postedAs s.world id gid) : postedAs s'.world id gid := by
  have hspawn : ∀ p, resolves p → ∃ m, (∃ id, m = ResolveMode.approve id ∨ m = .reject id) ∧
      p.Follows (resolveOutline d) (fun m _ => m.ends) m := by
    rintro p ⟨id, note, rfl | rfl⟩
    · exact ⟨.approve id, ⟨id, .inl rfl⟩, approve_follows d id note⟩
    · exact ⟨.reject id, ⟨id, .inr rfl⟩, reject_follows d id note⟩
  have hstart : (resolveOutline d).Matches (fun m _ => m.ends)
      ⟨w₀, [.running (aggregate repo prNumber d findingsByAgent threshold).void]⟩
      (⟨w₀, [.running .aggregate]⟩ : Pool ReviewWorld ResolveMode) :=
    ⟨rfl, .cons (.running (aggregate_follows d repo prNumber findingsByAgent threshold)) .nil⟩
  obtain ⟨a, hm, I⟩ := hs.outline_invariant (I := fun a => ResolveInv a.world a.threads) hspawn
    (fun _ _ _ _ _ hm _ hc _ hstep hI => (resolveInv_step hm hc hI hstep).1) hstart
    (resolveInv_start (agrees_runsFrom agrees_emptyWorld hops))
  obtain ⟨a', hm', _, hp'⟩ := hs'.outline_invariant
    (I := fun a => ResolveInv a.world a.threads ∧ postedAs a.world id gid) hspawn
    (fun _ _ _ _ _ hm _ hc _ hstep hI =>
      have hh := resolveInv_step hm hc hI.1 hstep
      ⟨hh.1, hh.2 id gid hI.2⟩) hm ⟨I, hm.world ▸ hp⟩
  exact hm'.world ▸ hp'

theorem zero_le_one_fourth : (0 : ℚ) ≤ 1 / 4 := by norm_num

theorem one_fourth_le_one : (1 / 4 : ℚ) ≤ 1 := by norm_num

def doubtfulAggregate : ReviewProg Unit :=
  (aggregate "o/r".toList 1 "d".toList
    [[], [], [], [⟨.docs, .low, "docstring".toList, "db.py".toList, some 10,
      ⟨1 / 4, zero_le_one_fourth, one_fourth_le_one⟩, "Missing docstring".toList, "no docstring".toList⟩]]
    defaultConfidenceThreshold).void

def anyChoice : ReviewChoice := ⟨[], .join [], id⟩

theorem posted_is_terminal_redelivered : ∃ w₀ s', RunsFrom emptyWorld [noFindings] w₀ ∧
    reviewHost.Run resolves (fun s l => l.calm = true ∧ marksAlone s l)
      ⟨w₀, [.running doubtfulAggregate]⟩ s' ∧ postedAs s'.world 0 0 := by
  have hrun : ∃ w₀ ∈ runAll anyChoice emptyWorld [noFindings], postedAs w₀ 0 0 ∧
      (reviewHost.move ⟨w₀, [.running doubtfulAggregate]⟩ (.reply 0 anyChoice)).isSome := by
    decide +kernel
  obtain ⟨w₀, hw₀, hp, hmove⟩ := hrun
  obtain ⟨s', hs'⟩ := Option.isSome_iff_exists.mp hmove
  have halone : marksAlone ⟨w₀, [.running doubtfulAggregate]⟩ (.reply 0) := by
    intro i id gid score hi hn
    obtain rfl : 0 = i := by simpa using hi
    simp [Thread.next, doubtfulAggregate, aggregate_eq, Prog.void] at hn
  have hstep : reviewHost.Run resolves (fun s l => l.calm = true ∧ marksAlone s l)
      ⟨w₀, [.running doubtfulAggregate]⟩ s' :=
    .single ⟨_, ⟨rfl, halone⟩, Host.step_of_move (by simp) hs'⟩
  exact ⟨w₀, s', runsFrom_of_runAll hw₀, hstep,
    posted_is_terminal (runsFrom_of_runAll hw₀) _ _ _ _ _ .refl hstep hp⟩

def approveInBetween : List (Host.Move ReviewChoice (ReviewProg Unit)) :=
  [.reply 0 anyChoice, .reply 0 anyChoice, .reply 0 anyChoice, .reply 0 anyChoice,
    .spawn (approve 0 none).void,
    .reply 1 anyChoice, .reply 1 anyChoice, .reply 1 anyChoice, .reply 1 anyChoice, .reply 1 anyChoice]

theorem posted_overwritten : ∃ s s', reviewHost.Run resolves (fun _ l => l.calm = true)
      ⟨emptyWorld, [.running doubtfulAggregate]⟩ s ∧
    reviewHost.Run resolves (fun _ l => l.calm = true) s s' ∧
    postedAs s.world 0 0 ∧ ¬ postedAs s'.world 0 0 := by
  have hplay : ∃ s ∈ reviewHost.play ⟨emptyWorld, [.running doubtfulAggregate]⟩ approveInBetween,
      postedAs s.world 0 0 ∧
        ∃ s' ∈ reviewHost.play s [.reply 0 anyChoice], ¬ postedAs s'.world 0 0 := by
    decide +kernel
  obtain ⟨s, hs, hp, s', hs', hp'⟩ := hplay
  refine ⟨s, s', Host.run_of_play ?_ ?_ hs, Host.run_of_play ?_ ?_ hs', hp, hp'⟩
  · intro p hmem
    have hpe : p = (approve 0 none).void := by simpa [approveInBetween] using hmem
    exact ⟨0, none, .inl hpe⟩
  · simp [approveInBetween, Host.Move.label, Label.calm]
  · simp
  · simp [Host.Move.label, Label.calm]

end AiPrReview
