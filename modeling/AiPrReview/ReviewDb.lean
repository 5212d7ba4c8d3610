import AiPrReview.Dedup
import AiPrReview.Table

/-! The truth lane: `pr_review_records`, `finding_records` and `hitl_reviews`,
and the statements of `TruthStore` and `HitlQueue` on them. A UUID is modelled
by the position of its row, since rows are never deleted. -/

namespace AiPrReview

inductive ReviewStatus : Type where
  | pending
  | posted
  | needsHuman
  | escalated
  deriving DecidableEq

inductive HitlStatus : Type where
  | pending
  | resolved
  | dismissed
  deriving DecidableEq

def pgText (t : Text) : Bool := !t.contains '\x00'

def pgInt (n : Int) : Bool := -2 ^ 31 ≤ n && n < 2 ^ 31

/-- NUMERIC(4,3): three decimals, halves rounded up. -/
def numeric3 (q : ℚ) : ℚ := ⌊q * 1000 + 1 / 2⌋ / 1000

theorem numeric3_nonneg {q : ℚ} (h : 0 ≤ q) : 0 ≤ numeric3 q := by
  have : 0 ≤ ⌊q * 1000 + 1 / 2⌋ := Int.floor_nonneg.mpr (by linarith)
  exact div_nonneg (by exact_mod_cast this) (by norm_num)

theorem numeric3_le_one {q : ℚ} (h : q ≤ 1) : numeric3 q ≤ 1 := by
  have hf : ⌊q * 1000 + 1 / 2⌋ < 1001 := Int.floor_lt.mpr (by norm_num; linarith)
  have hc : ((⌊q * 1000 + 1 / 2⌋ : ℤ) : ℚ) ≤ 1000 := by exact_mod_cast Int.lt_add_one_iff.mp hf
  unfold numeric3
  rw [div_le_one (by norm_num)]
  exact hc

def Confidence.stored (c : Confidence) : Confidence :=
  ⟨numeric3 c.val, numeric3_nonneg c.nonneg, numeric3_le_one c.le_one⟩

/-- `float(row["confidence"])`. -/
def Confidence.readBack (c : Confidence) : Confidence :=
  ⟨toDouble c.val, toDouble_nonneg c.nonneg, toDouble_le_one c.nonneg c.le_one⟩

structure ReviewRecord : Type where
  id : Nat
  repo : Text
  prNumber : Int
  githubDeliveryId : Text
  status : ReviewStatus
  overallConfidence : Option ℚ
  githubReviewId : Option Nat
  deriving DecidableEq

/-- A row of `finding_records`: `summary` is the title, `line_start` the line. -/
structure FindingRecord : Type where
  reviewId : Nat
  finding : Finding
  deriving DecidableEq

/-- `finding_records_dedup_idx`. -/
def FindingRecord.key (r : FindingRecord) : Nat × AgentType × Text × Int × Text :=
  (r.reviewId, r.finding.agentType, r.finding.file, r.finding.line.getD (-1), r.finding.category)

structure HitlRow : Type where
  reviewId : Nat
  reason : Text
  status : HitlStatus
  resolutionNote : Option Text
  deriving DecidableEq

structure ReviewDb : Type where
  reviews : Table ReviewRecord.githubDeliveryId
  findings : Table FindingRecord.key
  hitl : List HitlRow
  review_ids : reviews.rows.map ReviewRecord.id = List.range reviews.rows.length
  findings_fk : ∀ r ∈ findings.rows, r.reviewId < reviews.rows.length
  hitl_fk : ∀ h ∈ hitl, h.reviewId < reviews.rows.length

structure ReviewRow : Type where
  id : Nat
  status : ReviewStatus
  githubReviewId : Option Nat
  deriving DecidableEq

def ReviewRecord.row (r : ReviewRecord) : ReviewRow := ⟨r.id, r.status, r.githubReviewId⟩

namespace ReviewDb

def empty : ReviewDb := ⟨.empty, .empty, [], rfl, by simp [Table.empty], by simp⟩

def review (db : ReviewDb) (deliveryId : Text) : Option ReviewRecord := db.reviews.get deliveryId

def reviewById (db : ReviewDb) (id : Nat) : Option ReviewRecord :=
  db.reviews.rows.find? fun r => r.id == id

/-- `UPDATE pr_review_records SET f WHERE p`. -/
def updateReviews (db : ReviewDb) (p : ReviewRecord → Bool) (f : ReviewRecord → ReviewRecord)
    (hkey : ∀ r, (f r).githubDeliveryId = r.githubDeliveryId) (hid : ∀ r, (f r).id = r.id) :
    ReviewDb where
  reviews := db.reviews.update p f hkey
  findings := db.findings
  hitl := db.hitl
  review_ids := by
    have hk : (ReviewRecord.id ∘ fun r => if p r then f r else r) = ReviewRecord.id := by
      funext r
      by_cases h : p r = true <;> simp [h, hid]
    simpa [Table.update, List.map_map, hk] using db.review_ids
  findings_fk := by simpa [Table.update] using db.findings_fk
  hitl_fk := by simpa [Table.update] using db.hitl_fk

/-- A new row of `pr_review_records`; a known delivery id changes nothing. -/
def insertReview (db : ReviewDb) (repo : Text) (prNumber : Int) (deliveryId : Text) : ReviewDb where
  reviews := db.reviews.insertIgnore
    ⟨db.reviews.rows.length, repo, prNumber, deliveryId, .pending, none, none⟩
  findings := db.findings
  hitl := db.hitl
  review_ids := by
    unfold Table.insertIgnore
    split_ifs with h
    · exact db.review_ids
    · simp [db.review_ids, List.range_succ]
  findings_fk := by
    intro r hr
    have := db.findings_fk r hr
    unfold Table.insertIgnore
    split_ifs <;> simp <;> omega
  hitl_fk := by
    intro r hr
    have := db.hitl_fk r hr
    unfold Table.insertIgnore
    split_ifs <;> simp <;> omega

def upsertReview (db : ReviewDb) (repo : Text) (prNumber : Int) (deliveryId : Text) : ReviewDb :=
  match db.review deliveryId with
  | some _ =>
    db.updateReviews (·.githubDeliveryId == deliveryId) (fun r => { r with prNumber })
      (fun _ => rfl) (fun _ => rfl)
  | none => db.insertReview repo prNumber deliveryId

def markPosted (db : ReviewDb) (reviewId githubReviewId : Nat) (overallConfidence : ℚ) : ReviewDb :=
  db.updateReviews (·.id == reviewId)
    (fun r => { r with
      status := .posted
      githubReviewId := some githubReviewId
      overallConfidence := some (numeric3 overallConfidence) })
    (fun _ => rfl) (fun _ => rfl)

def setStatus (db : ReviewDb) (reviewId : Nat) (status : ReviewStatus) (overallConfidence : ℚ) :
    ReviewDb :=
  db.updateReviews (·.id == reviewId)
    (fun r => { r with status, overallConfidence := some (numeric3 overallConfidence) })
    (fun _ => rfl) (fun _ => rfl)

def insertFinding (db : ReviewDb) (reviewId : Nat) (f : Finding)
    (hfk : reviewId < db.reviews.rows.length) : ReviewDb :=
  { db with
    findings := db.findings.insertIgnore ⟨reviewId, { f with confidence := f.confidence.stored }⟩
    findings_fk := by
      intro r hr
      unfold Table.insertIgnore at hr
      split_ifs at hr
      · exact db.findings_fk r hr
      · rcases List.mem_append.mp hr with hr | hr
        · exact db.findings_fk r hr
        · simpa [List.mem_singleton.mp hr] using hfk }

def insertFindings (db : ReviewDb) (reviewId : Nat) :
    List Finding → reviewId < db.reviews.rows.length → ReviewDb
  | [], _ => db
  | f :: fs, hfk => (db.insertFinding reviewId f hfk).insertFindings reviewId fs hfk

def enqueue (db : ReviewDb) (reviewId : Nat) (reason : Text)
    (hfk : reviewId < db.reviews.rows.length) : ReviewDb :=
  { db with
    hitl := db.hitl ++ [⟨reviewId, reason, .pending, none⟩]
    hitl_fk := by
      intro h hh
      rcases List.mem_append.mp hh with hh | hh
      · exact db.hitl_fk h hh
      · simpa [List.mem_singleton.mp hh] using hfk }

def isFor (reviewId : Nat) (status : HitlStatus) (h : HitlRow) : Bool :=
  h.reviewId == reviewId && h.status == status

def isPendingFor (reviewId : Nat) (h : HitlRow) : Bool := isFor reviewId .pending h

/-- `UPDATE hitl_reviews ... WHERE review_id = $1 AND status = 'pending'`. -/
def resolve (db : ReviewDb) (reviewId : Nat) (status : HitlStatus) (note : Option Text) : ReviewDb :=
  { db with
    hitl := db.hitl.map fun h =>
      if isPendingFor reviewId h then { h with status, resolutionNote := note } else h
    hitl_fk := by
      intro h hh
      obtain ⟨g, hg, rfl⟩ := List.mem_map.mp hh
      have := db.hitl_fk g hg
      split_ifs <;> exact this }

def hitlCount (db : ReviewDb) (reviewId : Nat) (status : HitlStatus) : Nat :=
  db.hitl.countP (isFor reviewId status)

def pendingCount (db : ReviewDb) (reviewId : Nat) : Nat := db.hitlCount reviewId .pending

/-! What the statements do to the review of a delivery. -/

theorem review_update {db : ReviewDb} {p : ReviewRecord → Bool} {f : ReviewRecord → ReviewRecord}
    {hkey : ∀ r, (f r).githubDeliveryId = r.githubDeliveryId} {hid : ∀ r, (f r).id = r.id}
    (d : Text) : (db.updateReviews p f hkey hid).review d =
      (db.review d).map fun r => if p r then f r else r :=
  Table.get_update db.reviews p f hkey d

theorem review_delivery {db : ReviewDb} {d : Text} {r : ReviewRecord} (h : db.review d = some r) :
    r.githubDeliveryId = d :=
  Table.get_key h

theorem review_mem {db : ReviewDb} {d : Text} {r : ReviewRecord} (h : db.review d = some r) :
    r ∈ db.reviews.rows :=
  (Table.get_eq_some_iff.mp h).1

theorem id_lt {db : ReviewDb} {r : ReviewRecord} (h : r ∈ db.reviews.rows) :
    r.id < db.reviews.rows.length := by
  have : r.id ∈ db.reviews.rows.map ReviewRecord.id := List.mem_map_of_mem h
  simpa [db.review_ids] using this

theorem id_inj {db : ReviewDb} {r r' : ReviewRecord} (h : r ∈ db.reviews.rows)
    (h' : r' ∈ db.reviews.rows) (he : r.id = r'.id) : r = r' := by
  have hnd : (db.reviews.rows.map ReviewRecord.id).Nodup := by
    rw [db.review_ids]
    exact List.nodup_range
  exact List.inj_on_of_nodup_map hnd h h' he

theorem exists_of_id_lt {db : ReviewDb} {id : Nat} (h : id < db.reviews.rows.length) :
    ∃ r ∈ db.reviews.rows, r.id = id := by
  have : id ∈ db.reviews.rows.map ReviewRecord.id := by simpa [db.review_ids] using h
  simpa [List.mem_map] using this

theorem review_insertReview (db : ReviewDb) (repo : Text) (prNumber : Int) (d d' : Text) :
    (db.insertReview repo prNumber d).review d' = (db.review d').or
      (if d = d' then
        some ⟨db.reviews.rows.length, repo, prNumber, d, .pending, none, none⟩ else none) :=
  Table.get_insertIgnore _ _ _

theorem review_upsertReview_self (db : ReviewDb) (repo : Text) (prNumber : Int) (d : Text) :
    (db.upsertReview repo prNumber d).review d = some (match db.review d with
      | some r => { r with prNumber }
      | none => ⟨db.reviews.rows.length, repo, prNumber, d, .pending, none, none⟩) := by
  unfold upsertReview
  cases h : db.review d with
  | none => simp [review_insertReview, h]
  | some r => simp [review_update, h, review_delivery h]

theorem review_upsertReview_of_ne (db : ReviewDb) (repo : Text) (prNumber : Int) {d d' : Text} (hne : d' ≠ d) :
    (db.upsertReview repo prNumber d').review d = db.review d := by
  unfold upsertReview
  cases h : db.review d' with
  | none => simp [review_insertReview, hne]
  | some r =>
    rw [review_update]
    cases hr : db.review d with
    | none => rfl
    | some r' => simp [review_delivery hr, hne.symm]

theorem review_markPosted (db : ReviewDb) (id gid : Nat) (score : ℚ) (d : Text) :
    (db.markPosted id gid score).review d = (db.review d).map fun r =>
      if r.id = id then { r with
        status := .posted
        githubReviewId := some gid
        overallConfidence := some (numeric3 score) } else r := by
  simp [markPosted, review_update]

theorem review_setStatus (db : ReviewDb) (id : Nat) (status : ReviewStatus) (score : ℚ) (d : Text) :
    (db.setStatus id status score).review d = (db.review d).map fun r =>
      if r.id = id then { r with status, overallConfidence := some (numeric3 score) } else r := by
  simp [setStatus, review_update]

@[simp] theorem reviews_insertFindings (db : ReviewDb) (id : Nat) (fs : List Finding)
    (hfk : id < db.reviews.rows.length) : (db.insertFindings id fs hfk).reviews = db.reviews := by
  induction fs generalizing db with
  | nil => rfl
  | cons f fs ih => exact ih (db.insertFinding id f hfk) hfk

@[simp] theorem hitl_insertFindings (db : ReviewDb) (id : Nat) (fs : List Finding)
    (hfk : id < db.reviews.rows.length) : (db.insertFindings id fs hfk).hitl = db.hitl := by
  induction fs generalizing db with
  | nil => rfl
  | cons f fs ih => exact ih (db.insertFinding id f hfk) hfk

@[simp] theorem hitl_upsertReview (db : ReviewDb) (repo : Text) (prNumber : Int) (d : Text) :
    (db.upsertReview repo prNumber d).hitl = db.hitl := by
  unfold upsertReview
  split <;> rfl

@[simp] theorem hitl_markPosted (db : ReviewDb) (id gid : Nat) (score : ℚ) :
    (db.markPosted id gid score).hitl = db.hitl := rfl

@[simp] theorem hitl_setStatus (db : ReviewDb) (id : Nat) (status : ReviewStatus) (score : ℚ) :
    (db.setStatus id status score).hitl = db.hitl := rfl

@[simp] theorem review_enqueue (db : ReviewDb) (id : Nat) (reason : Text)
    (hfk : id < db.reviews.rows.length) (d : Text) :
    (db.enqueue id reason hfk).review d = db.review d := rfl

@[simp] theorem review_resolve (db : ReviewDb) (id : Nat) (status : HitlStatus)
    (note : Option Text) (d : Text) : (db.resolve id status note).review d = db.review d := rfl

@[simp] theorem review_insertFindings (db : ReviewDb) (id : Nat) (fs : List Finding)
    (hfk : id < db.reviews.rows.length) (d : Text) :
    (db.insertFindings id fs hfk).review d = db.review d := by
  simp [review]

/-! Reviews by id, and the pending rows of a review. -/

theorem reviewById_eq_some_iff {db : ReviewDb} {id : Nat} {r : ReviewRecord} :
    db.reviewById id = some r ↔ r ∈ db.reviews.rows ∧ r.id = id := by
  constructor
  · intro h
    exact ⟨List.mem_of_find?_eq_some h, by simpa using List.find?_some h⟩
  · rintro ⟨hr, rfl⟩
    cases hf : db.reviewById r.id with
    | none => exact absurd hr fun hm => by simpa using List.find?_eq_none.mp hf r hm
    | some r' =>
      have hid : r'.id = r.id := by simpa using List.find?_some hf
      rw [id_inj (List.mem_of_find?_eq_some hf) hr hid]

theorem exists_reviewById {db : ReviewDb} {id : Nat} (h : id < db.reviews.rows.length) :
    ∃ r, db.reviewById id = some r := by
  obtain ⟨r, hr, he⟩ := exists_of_id_lt h
  exact ⟨r, reviewById_eq_some_iff.mpr ⟨hr, he⟩⟩

theorem reviewById_update {db : ReviewDb} {p : ReviewRecord → Bool} {f : ReviewRecord → ReviewRecord}
    {hkey : ∀ r, (f r).githubDeliveryId = r.githubDeliveryId} {hid : ∀ r, (f r).id = r.id}
    (id : Nat) : (db.updateReviews p f hkey hid).reviewById id =
      (db.reviewById id).map fun r => if p r then f r else r := by
  have hk : ∀ r, (if p r then f r else r).id = r.id := by
    intro r
    split_ifs
    · exact hid r
    · rfl
  simp [reviewById, updateReviews, Table.update, List.find?_map, Function.comp_def, hk]

theorem reviewById_markPosted (db : ReviewDb) (id gid : Nat) (score : ℚ) (id' : Nat) :
    (db.markPosted id gid score).reviewById id' = (db.reviewById id').map fun r =>
      if r.id = id then { r with
        status := .posted
        githubReviewId := some gid
        overallConfidence := some (numeric3 score) } else r := by
  simp [markPosted, reviewById_update]

theorem reviewById_setStatus (db : ReviewDb) (id : Nat) (status : ReviewStatus) (score : ℚ)
    (id' : Nat) : (db.setStatus id status score).reviewById id' = (db.reviewById id').map fun r =>
      if r.id = id then { r with status, overallConfidence := some (numeric3 score) } else r := by
  simp [setStatus, reviewById_update]

@[simp] theorem reviewById_enqueue (db : ReviewDb) (id : Nat) (reason : Text)
    (hfk : id < db.reviews.rows.length) (id' : Nat) :
    (db.enqueue id reason hfk).reviewById id' = db.reviewById id' := rfl

@[simp] theorem reviewById_resolve (db : ReviewDb) (id : Nat) (status : HitlStatus)
    (note : Option Text) (id' : Nat) :
    (db.resolve id status note).reviewById id' = db.reviewById id' := rfl

@[simp] theorem reviewById_insertFindings (db : ReviewDb) (id : Nat) (fs : List Finding)
    (hfk : id < db.reviews.rows.length) (id' : Nat) :
    (db.insertFindings id fs hfk).reviewById id' = db.reviewById id' := by
  simp [reviewById]

theorem reviewById_upsertReview {db : ReviewDb} {repo : Text} {prNumber : Int} {d : Text} {id : Nat}
    {r : ReviewRecord} (h : (db.upsertReview repo prNumber d).reviewById id = some r) :
    (∃ r₀, db.reviewById id = some r₀ ∧ r₀.status = r.status) ∨
      (id = db.reviews.rows.length ∧ r.status = .pending) := by
  unfold upsertReview at h
  cases hd : db.review d with
  | some r' =>
    simp only [hd, reviewById_update] at h
    obtain ⟨r₀, hr₀, rfl⟩ := Option.map_eq_some_iff.mp h
    refine .inl ⟨r₀, hr₀, ?_⟩
    split_ifs <;> rfl
  | none =>
    simp only [hd] at h
    have hnone : db.reviews.get d = none := hd
    have hmem := (reviewById_eq_some_iff.mp h).1
    have hid := (reviewById_eq_some_iff.mp h).2
    simp only [insertReview, Table.insertIgnore] at hmem
    split_ifs at hmem with hk
    · exact .inl ⟨r, reviewById_eq_some_iff.mpr ⟨hmem, hid⟩, rfl⟩
    · rcases List.mem_append.mp hmem with hm | hm
      · exact .inl ⟨r, reviewById_eq_some_iff.mpr ⟨hm, hid⟩, rfl⟩
      · obtain rfl := List.mem_singleton.mp hm
        exact .inr ⟨hid.symm, rfl⟩

theorem reviewById_upsertReview_of_some {db : ReviewDb} (repo : Text) (prNumber : Int) (d : Text)
    {id : Nat} {r : ReviewRecord} (h : db.reviewById id = some r) :
    ∃ n, (db.upsertReview repo prNumber d).reviewById id = some { r with prNumber := n } := by
  unfold upsertReview
  cases hd : db.review d with
  | some r' =>
    simp only [reviewById_update, h, Option.map_some]
    split_ifs
    · exact ⟨prNumber, rfl⟩
    · exact ⟨r.prNumber, rfl⟩
  | none =>
    have hr := reviewById_eq_some_iff.mp h
    refine ⟨r.prNumber, reviewById_eq_some_iff.mpr ⟨?_, hr.2⟩⟩
    simp only [insertReview, Table.insertIgnore]
    split_ifs
    · exact hr.1
    · exact List.mem_append_left _ hr.1

theorem length_upsertReview (db : ReviewDb) (repo : Text) (prNumber : Int) (d : Text) :
    db.reviews.rows.length ≤ (db.upsertReview repo prNumber d).reviews.rows.length := by
  unfold upsertReview
  split
  · simp [updateReviews, Table.update]
  · simp only [insertReview, Table.insertIgnore]
    split_ifs <;> simp

theorem isFor_iff {id : Nat} {status : HitlStatus} {h : HitlRow} :
    isFor id status h = true ↔ h.reviewId = id ∧ h.status = status := by
  simp [isFor]

theorem hitlCount_pos_iff {db : ReviewDb} {id : Nat} {status : HitlStatus} :
    0 < db.hitlCount id status ↔ ∃ h ∈ db.hitl, h.reviewId = id ∧ h.status = status := by
  simp only [hitlCount, List.countP_pos_iff, isFor_iff]

theorem any_isPendingFor {db : ReviewDb} {id : Nat} :
    db.hitl.any (isPendingFor id) = decide (0 < db.pendingCount id) := by
  rw [Bool.eq_iff_iff]
  simp [pendingCount, hitlCount, isPendingFor, List.countP_pos_iff]

theorem id_lt_of_pending {db : ReviewDb} {id : Nat} (h : 0 < db.pendingCount id) :
    id < db.reviews.rows.length := by
  obtain ⟨row, hr, hid, _⟩ := hitlCount_pos_iff.mp h
  exact hid ▸ db.hitl_fk row hr

theorem hitlCount_enqueue (db : ReviewDb) (id : Nat) (reason : Text)
    (hfk : id < db.reviews.rows.length) (id' : Nat) (status : HitlStatus) :
    (db.enqueue id reason hfk).hitlCount id' status =
      db.hitlCount id' status + if id' = id ∧ status = .pending then 1 else 0 := by
  by_cases h : id' = id ∧ status = .pending
  · simp [hitlCount, enqueue, List.countP_append, isFor, h]
  · have hno : isFor id' status ⟨id, reason, .pending, none⟩ = false := by
      by_contra hf
      have hh := isFor_iff.mp (Bool.not_eq_false _ ▸ hf)
      exact h ⟨hh.1.symm, hh.2.symm⟩
    simp [hitlCount, enqueue, List.countP_append, hno, h]

theorem hitlCount_resolve (db : ReviewDb) (id : Nat) {status : HitlStatus} (hs : status ≠ .pending)
    (note : Option Text) (id' : Nat) (status' : HitlStatus) :
    (db.resolve id status note).hitlCount id' status' =
      if id' ≠ id then db.hitlCount id' status'
      else if status' = .pending then 0
      else if status' = status then db.hitlCount id status' + db.pendingCount id
      else db.hitlCount id status' := by
  simp only [hitlCount, pendingCount, resolve]
  induction db.hitl with
  | nil => simp
  | cons row rows ih =>
    simp only [List.map_cons, List.countP_cons, ih]
    by_cases hp : row.reviewId = id ∧ row.status = .pending
    · have hrow : isPendingFor id row = true := isFor_iff.mpr hp
      obtain ⟨rfl, hst⟩ := hp
      by_cases hid : id' = row.reviewId
      · subst hid
        by_cases hs' : status' = .pending
        · simp [hrow, isFor, hs', hs]
        · by_cases he : status' = status
          · subst he
            simp [hrow, isFor, hst, hs', Ne.symm hs']
            omega
          · simp [hrow, isFor, hst, hs', he, Ne.symm he, Ne.symm hs']
      · simp [hrow, isFor, hid, Ne.symm hid]
    · have hrow : isPendingFor id row = false := by
        rw [Bool.eq_false_iff]
        exact fun h => hp (isFor_iff.mp h)
      by_cases hid : id' = id
      · subst hid
        have hpend : isFor id' .pending row = false := hrow
        by_cases hs' : status' = .pending
        · subst hs'
          simp [hrow, hpend]
        · by_cases he : status' = status
          · subst he
            simp [hrow, hpend, hs']
            omega
          · simp [hrow, hs', he]
      · simp [hrow, hid]

theorem pendingCount_resolve (db : ReviewDb) (id : Nat) {status : HitlStatus}
    (hs : status ≠ .pending) (note : Option Text) (id' : Nat) :
    (db.resolve id status note).pendingCount id' = if id' = id then 0 else db.pendingCount id' := by
  by_cases h : id' = id
  · simp [pendingCount, hitlCount_resolve _ _ hs, h]
  · simp [pendingCount, hitlCount_resolve _ _ hs, h]

end ReviewDb

end AiPrReview
