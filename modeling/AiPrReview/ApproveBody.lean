import AiPrReview.ReviewBody
import AiPrReview.ReviewPrograms

/-! What approve posts, after the findings went through `finding_records` and
came back in any order. -/

namespace AiPrReview

/-- A finding as `get_review_with_findings` reconstructs it. -/
def Finding.readBack (f : Finding) : Finding := { f with confidence := f.confidence.stored.readBack }

def Finding.dedupKey (f : Finding) : AgentType × Text × Int × Text :=
  (f.agentType, f.file, f.line.getD (-1), f.category)

def storedRow (reviewId : Nat) (f : Finding) : FindingRecord :=
  ⟨reviewId, { f with confidence := f.confidence.stored }⟩

/-- The findings that `finding_records_dedup_idx` lets in, `seen` being the keys
that are there. -/
def firstOfKey : List (AgentType × Text × Int × Text) → List Finding → List Finding
  | _, [] => []
  | seen, f :: fs =>
    if f.dedupKey ∈ seen then firstOfKey seen fs else f :: firstOfKey (f.dedupKey :: seen) fs

example (f : Finding) : firstOfKey [] [f, { f with title := [] }] = [f] := by
  simp [firstOfKey, Finding.dedupKey]

theorem firstOfKey_sublist (seen : List (AgentType × Text × Int × Text)) (fs : List Finding) :
    (firstOfKey seen fs).Sublist fs := by
  induction fs generalizing seen with
  | nil => exact List.Sublist.refl _
  | cons f fs ih =>
    unfold firstOfKey
    split_ifs
    · exact (ih seen).cons f
    · exact (ih (f.dedupKey :: seen)).cons_cons f

theorem firstOfKey_nodup (seen : List (AgentType × Text × Int × Text)) (fs : List Finding) :
    ((firstOfKey seen fs).map Finding.dedupKey).Nodup ∧ ∀ f ∈ firstOfKey seen fs, f.dedupKey ∉ seen := by
  induction fs generalizing seen with
  | nil => simp [firstOfKey]
  | cons f fs ih =>
    unfold firstOfKey
    split_ifs with h
    · exact ih seen
    · obtain ⟨hn, hseen⟩ := ih (f.dedupKey :: seen)
      constructor
      · rw [List.map_cons, List.nodup_cons]
        refine ⟨fun hm => ?_, hn⟩
        obtain ⟨g, hg, he⟩ := List.mem_map.mp hm
        exact hseen g hg (by simp [he])
      · intro g hg hs
        rcases List.mem_cons.mp hg with rfl | hg
        · exact h hs
        · exact hseen g hg (List.mem_cons_of_mem _ hs)

theorem firstOfKey_eq_self {seen : List (AgentType × Text × Int × Text)} {fs : List Finding}
    (hn : (fs.map Finding.dedupKey).Nodup) (hseen : ∀ f ∈ fs, f.dedupKey ∉ seen) :
    firstOfKey seen fs = fs := by
  induction fs generalizing seen with
  | nil => rfl
  | cons f fs ih =>
    rw [List.map_cons, List.nodup_cons] at hn
    rw [firstOfKey, if_neg (hseen f (by simp)), ih hn.2]
    intro g hg hs
    rcases List.mem_cons.mp hs with he | hs
    · exact hn.1 (List.mem_map.mpr ⟨g, hg, he⟩)
    · exact hseen g (by simp [hg]) hs

theorem insertFindings_rows {db : ReviewDb} {reviewId : Nat} {fs : List Finding}
    {hfk : reviewId < db.reviews.rows.length} {seen : List (AgentType × Text × Int × Text)}
    (hseen : ∀ k, k ∈ seen ↔ (reviewId, k) ∈ db.findings.rows.map FindingRecord.key) :
    (db.insertFindings reviewId fs hfk).findings.rows =
      db.findings.rows ++ (firstOfKey seen fs).map (storedRow reviewId) := by
  induction fs generalizing db seen with
  | nil => simp [ReviewDb.insertFindings, firstOfKey]
  | cons f fs ih =>
    by_cases hf : f.dedupKey ∈ seen
    · have hrows : (db.insertFinding reviewId f hfk).findings.rows = db.findings.rows :=
        congrArg Table.rows (dif_pos ((hseen f.dedupKey).mp hf))
      refine (ih (hrows ▸ hseen)).trans ?_
      rw [hrows, firstOfKey, if_pos hf]
    · have hrows : (db.insertFinding reviewId f hfk).findings.rows =
          db.findings.rows ++ [storedRow reviewId f] :=
        congrArg Table.rows (dif_neg fun hm => hf ((hseen f.dedupKey).mpr hm))
      have hseen' : ∀ k, k ∈ f.dedupKey :: seen ↔
          (reviewId, k) ∈ (db.insertFinding reviewId f hfk).findings.rows.map FindingRecord.key := by
        intro k
        rw [hrows, List.map_append, List.mem_append, ← hseen, List.mem_cons, or_comm]
        simp [FindingRecord.key, storedRow, Finding.dedupKey]
      refine (ih hseen').trans ?_
      rw [hrows, firstOfKey, if_neg hf, List.map_cons, List.append_assoc, List.singleton_append]

/-! The order in which a SELECT returns its rows. -/

theorem inRankOrder_perm {β : Type} (rank : Nat → Nat) (l : List β) : (inRankOrder rank l).Perm l := by
  have hp := (List.mergeSort_perm l.zipIdx fun a b => decide (rank a.2 ≤ rank b.2)).map Prod.fst
  rwa [List.zipIdx_map_fst] at hp

/-- Every order of distinct rows is one of the orders a SELECT may choose. -/
theorem exists_inRankOrder {β : Type} [DecidableEq β] {l l' : List β} (h : l.Perm l') (hn : l.Nodup) :
    ∃ rank, inRankOrder rank l = l' := by
  refine ⟨fun i => (l[i]?.map fun a => l'.idxOf a).getD 0, ?_⟩
  have hrank : ∀ x ∈ l.zipIdx, (l[x.2]?.map fun a => l'.idxOf a).getD 0 = l'.idxOf x.1 := by
    intro x hx
    rw [List.mem_zipIdx_iff_getElem?.mp hx]
    rfl
  have hsorted : (inRankOrder (fun i => (l[i]?.map fun a => l'.idxOf a).getD 0) l).Pairwise
      fun a b => l'.idxOf a ≤ l'.idxOf b := by
    rw [inRankOrder, List.pairwise_map]
    refine List.Pairwise.imp_of_mem ?_ (List.pairwise_mergeSort (fun a b c hab hbc => ?_) (fun a b => ?_) l.zipIdx)
    · intro a b ha hb hab
      rw [← hrank a (List.mem_mergeSort.mp ha), ← hrank b (List.mem_mergeSort.mp hb)]
      exact of_decide_eq_true hab
    · exact decide_eq_true ((of_decide_eq_true hab).trans (of_decide_eq_true hbc))
    · simpa using Nat.le_total _ _
  have htarget : l'.Pairwise fun a b => l'.idxOf a ≤ l'.idxOf b := by
    have hn' : l'.Nodup := h.nodup_iff.mp hn
    refine List.pairwise_iff_getElem.mpr fun i j hi hj hij => ?_
    rw [hn'.idxOf_getElem, hn'.idxOf_getElem]
    exact hij.le
  refine ((inRankOrder_perm _ l).trans h).eq_of_pairwise (fun a b ha hb hab hba => ?_) hsorted htarget
  exact (List.idxOf_inj hb).mp (le_antisymm hba hab) |>.symm

/-! What approve posts. -/

def findingsRead (w : ReviewWorld) (reviewId : Nat) (e : ReviewChoice) : List Finding :=
  inRankOrder e.rowRank ((w.db.findings.rows.filter (·.reviewId = reviewId)).map fun r =>
    { r.finding with confidence := r.finding.confidence.readBack })

/-- Every approve that goes through posts the body and the event of `fs`. -/
def RepostsAs (w : ReviewWorld) (reviewId : Nat) (fs : List Finding) : Prop :=
  ∀ note r w', Prog.Completes ReviewCall.exec w (approve reviewId note) (.ok r) w' →
    ∃ post, w'.github = w.github ++ [post] ∧ post.body = renderReviewBody fs ∧ post.event = reviewEvent fs

section

variable {w w' : ReviewWorld} {reviewId : Nat} {note : Option Text} {r : ResolveResponse}

theorem approve_posts (h : Prog.Completes ReviewCall.exec w (approve reviewId note) (.ok r) w') :
    ∃ e repo prNumber, w'.github = w.github ++ [⟨reviewId, repo, prNumber,
      renderReviewBody (findingsRead w reviewId e), reviewEvent (findingsRead w reviewId e)⟩] := by
  rw [approve_eq, Prog.completes_call_iff] at h
  obtain ⟨_, claimed, w₁, hresolve, h⟩ := h
  obtain ⟨rfl, _⟩ := exec_resolve hresolve
  split_ifs at h with hc
  · obtain ⟨_, review, w₂, hreview, h⟩ := Prog.completes_call_iff.mp h
    obtain rfl := exec_of_reads rfl hreview
    rcases review with _ | ⟨repo, prNumber, score⟩
    · cases h
    · obtain ⟨e, findings, w₃, hfindings, h⟩ := Prog.completes_call_iff.mp h
      obtain ⟨rfl, rfl⟩ := Prod.mk.injEq .. ▸ Option.some.inj hfindings
      obtain ⟨_, gid, w₄, hpost, h⟩ := Prog.completes_call_iff.mp h
      obtain ⟨_, rfl⟩ := exec_postReview hpost
      obtain ⟨_, _, w₅, hmark, h⟩ := Prog.completes_call_iff.mp h
      obtain rfl := exec_markPosted hmark
      obtain ⟨_, rfl⟩ := Prog.completes_ret_iff.mp h
      exact ⟨e, repo, prNumber, rfl⟩
  · cases h

theorem approve_can_post (hpending : 0 < w.db.pendingCount reviewId) (e : ReviewChoice) :
    ∃ r w' repo prNumber, Prog.Completes ReviewCall.exec w (approve reviewId none) (.ok r) w' ∧
      w'.github = w.github ++ [⟨reviewId, repo, prNumber, renderReviewBody (findingsRead w reviewId e),
        reviewEvent (findingsRead w reviewId e)⟩] := by
  obtain ⟨review, hr⟩ := ReviewDb.exists_reviewById (ReviewDb.id_lt_of_pending hpending)
  have hresolve : ReviewCall.exec (.resolve reviewId .resolved none) e w =
      some (true, ⟨w.db.resolve reviewId .resolved none, w.github⟩) := by
    simp [ReviewCall.exec, ReviewDb.any_isPendingFor, hpending]
  have hreview : ReviewCall.exec (.getReview reviewId) e ⟨w.db.resolve reviewId .resolved none, w.github⟩ =
      some (some (review.repo, review.prNumber, review.overallConfidence.map toDouble),
        ⟨w.db.resolve reviewId .resolved none, w.github⟩) := by
    simp [ReviewCall.exec, hr]
  have hdone : Prog.Completes ReviewCall.exec w (approve reviewId none)
      (.ok ⟨reviewId, .resolved, some w.github.length⟩)
      ⟨(w.db.resolve reviewId .resolved none).markPosted reviewId w.github.length
        ((review.overallConfidence.map toDouble).getD 0),
        w.github ++ [⟨reviewId, review.repo, review.prNumber, renderReviewBody (findingsRead w reviewId e),
          reviewEvent (findingsRead w reviewId e)⟩]⟩ := by
    rw [approve_eq]
    refine .call e hresolve ?_
    rw [if_pos rfl]
    exact .call e hreview (.call e rfl (.call e rfl (.call e rfl (.ret _ _))))
  exact ⟨_, _, _, _, hdone, rfl⟩

end

theorem repostsAs_iff {w : ReviewWorld} {reviewId : Nat} (hpending : 0 < w.db.pendingCount reviewId)
    (fs : List Finding) : RepostsAs w reviewId fs ↔ ∀ e : ReviewChoice,
      renderReviewBody (findingsRead w reviewId e) = renderReviewBody fs ∧
        reviewEvent (findingsRead w reviewId e) = reviewEvent fs := by
  constructor
  · intro h e
    obtain ⟨r, w', repo, prNumber, hdone, hgithub⟩ := approve_can_post hpending e
    obtain ⟨post, hpost, hbody, hevent⟩ := h none r w' hdone
    rw [hgithub] at hpost
    obtain rfl := List.singleton_inj.mp (List.append_cancel_left hpost)
    exact ⟨hbody, hevent⟩
  · intro h note r w' hdone
    obtain ⟨e, repo, prNumber, hgithub⟩ := approve_posts hdone
    exact ⟨_, hgithub, (h e).1, (h e).2⟩

/-- The rows of a fresh review after its findings were stored once. -/
theorem findingsRead_eq {w₀ w₁ w₂ : ReviewWorld} {reviewId : Nat} {fs : List Finding}
    (hfresh : ∀ r ∈ w₀.db.findings.rows, r.reviewId ≠ reviewId)
    (hstored : Prog.Completes ReviewCall.exec w₀ (TruthStore.insertFindings reviewId fs) () w₁)
    (hsame : (w₂.db.findings.rows.filter fun r => r.reviewId = reviewId) =
      w₁.db.findings.rows.filter fun r => r.reviewId = reviewId)
    (e : ReviewChoice) : findingsRead w₂ reviewId e =
      inRankOrder e.rowRank ((firstOfKey [] fs).map Finding.readBack) := by
  have hold : (w₀.db.findings.rows.filter fun r => r.reviewId = reviewId) = [] := by
    rw [List.filter_eq_nil_iff]
    intro r hr
    simpa using hfresh r hr
  have hrows : (w₁.db.findings.rows.filter fun r => r.reviewId = reviewId) =
      (firstOfKey [] fs).map (storedRow reviewId) := by
    unfold TruthStore.insertFindings at hstored
    split_ifs at hstored with hnil
    · obtain ⟨_, rfl⟩ := Prog.completes_ret_iff.mp hstored
      rw [hold, hnil]
      rfl
    · obtain ⟨_, _, _, hexec, hret⟩ := Prog.completes_call_iff.mp hstored
      obtain ⟨hfk, rfl⟩ := exec_insertFindings hexec
      obtain ⟨_, rfl⟩ := Prog.completes_ret_iff.mp hret
      have hseen : ∀ k, k ∈ ([] : List (AgentType × Text × Int × Text)) ↔
          (reviewId, k) ∈ w₀.db.findings.rows.map FindingRecord.key := by
        intro k
        simp only [List.not_mem_nil, false_iff, List.mem_map, not_exists, not_and]
        intro r hr he
        exact hfresh r hr (congrArg Prod.fst he)
      simp only [insertFindings_rows hseen, List.filter_append, hold, List.nil_append]
      refine List.filter_eq_self.mpr fun r hr => ?_
      obtain ⟨f, _, rfl⟩ := List.mem_map.mp hr
      exact decide_eq_true rfl
  rw [findingsRead, hsame, hrows, List.map_map]
  rfl

/-! When the findings that come back print as the findings that were stored. -/

structure RendersBack (fs : List Finding) : Prop where
  keys : (fs.map Finding.dedupKey).Nodup
  digits : ∀ f ∈ fs, fixed2 f.readBack.confidence.val = fixed2 f.confidence.val
  order : ∀ f ∈ fs, ∀ g ∈ fs, f.severity = g.severity →
    blockText f ++ blockText g = blockText g ++ blockText f

theorem severity_readBack (f : Finding) : f.readBack.severity = f.severity := rfl

theorem blockHead_readBack (f : Finding) : blockHead f.readBack = blockHead f := rfl

theorem blockTail_readBack (f : Finding) : blockTail f.readBack = blockTail f := rfl

theorem blockText_readBack {f : Finding} (h : fixed2 f.readBack.confidence.val = fixed2 f.confidence.val) :
    blockText f.readBack = blockText f := by
  rw [blockText_eq, blockText_eq, h, blockHead_readBack, blockTail_readBack]

theorem inRankOrder_eq_nil_iff {β : Type} {rank : Nat → Nat} {l : List β} :
    inRankOrder rank l = [] ↔ l = [] := by
  rw [← List.length_eq_zero_iff, (inRankOrder_perm rank l).length_eq, List.length_eq_zero_iff]

theorem RendersBack.render_eq {fs : List Finding} (h : RendersBack fs) (rank : Nat → Nat) :
    renderReviewBody (inRankOrder rank (fs.map Finding.readBack)) = renderReviewBody fs := by
  by_cases hnil : fs = []
  · have hempty : inRankOrder rank ([] : List Finding) = [] := inRankOrder_eq_nil_iff.mpr rfl
    rw [hnil, List.map_nil, hempty]
  have hpages : pageText (fs.map Finding.readBack) = pageText fs := by
    refine pageText_congr (fun s => ?_) fun s => ?_
    · rw [bucket_map severity_readBack, List.flatMap_map]
      refine List.flatMap_congr fun f hf => ?_
      exact blockText_readBack (h.digits f (List.mem_filter.mp hf).1)
    · rw [bucket_map severity_readBack, List.map_eq_nil_iff]
  have hcommute : ∀ f ∈ fs.map Finding.readBack, ∀ g ∈ fs.map Finding.readBack, f.severity = g.severity →
      blockText f ++ blockText g = blockText g ++ blockText f := by
    intro f hf g hg hs
    obtain ⟨f', hf', rfl⟩ := List.mem_map.mp hf
    obtain ⟨g', hg', rfl⟩ := List.mem_map.mp hg
    rw [blockText_readBack (h.digits f' hf'), blockText_readBack (h.digits g' hg')]
    exact h.order f' hf' g' hg' hs
  have hfound := pageText_of_perm (inRankOrder_perm rank (fs.map Finding.readBack)).symm hcommute
  rw [renderReviewBody_eq hnil, renderReviewBody_eq (by simpa [inRankOrder_eq_nil_iff] using hnil),
    ← hfound, hpages]

section

variable {fs : List Finding}
  (h : ∀ rank, rstrip (pageText (inRankOrder rank ((firstOfKey [] fs).map Finding.readBack))) =
    rstrip (pageText fs))

include h

theorem rstrip_page_of_perm {found : List Finding}
    (hp : ((firstOfKey [] fs).map Finding.readBack).Perm found) :
    rstrip (pageText found) = rstrip (pageText fs) := by
  have hkeys : (((firstOfKey [] fs).map Finding.readBack).map Finding.dedupKey).Nodup := by
    rw [List.map_map]
    exact (firstOfKey_nodup [] fs).1
  obtain ⟨rank, rfl⟩ := exists_inRankOrder hp (List.Nodup.of_map _ hkeys)
  exact h rank

theorem solid_page_eq : solid (pageText ((firstOfKey [] fs).map Finding.readBack)) = solid (pageText fs) := by
  have hh := congrArg solid (rstrip_page_of_perm h (List.Perm.refl _))
  rwa [solid_rstrip, solid_rstrip] at hh

theorem firstOfKey_eq_of_page : firstOfKey [] fs = fs := by
  have hsub := firstOfKey_sublist [] fs
  refine hsub.eq_of_length (le_antisymm hsub.length_le (not_lt.mp fun hlt => ?_))
  have hshort := solid_pageText_lt hsub hlt
  rw [← solid_page_eq h, length_solid_pageText severity_readBack blockHead_readBack blockTail_readBack] at hshort
  exact lt_irrefl _ hshort

theorem rendersBack_of_page : RendersBack fs := by
  have hkept := firstOfKey_eq_of_page h
  have hsolid := solid_page_eq h
  rw [hkept] at hsolid
  have hdigits := fixed2_eq_of_page severity_readBack blockHead_readBack blockTail_readBack hsolid
  refine ⟨hkept ▸ (firstOfKey_nodup [] fs).1, hdigits, fun f hf g hg hs => ?_⟩
  by_cases hfg : f = g
  · rw [hfg]
  have hg' : g ∈ fs.erase f := (List.mem_erase_of_ne (Ne.symm hfg)).mpr hg
  have hp : fs.Perm (f :: g :: (fs.erase f).erase g) :=
    (List.perm_cons_erase hf).trans ((List.perm_cons_erase hg').cons f)
  have hback := hp.map Finding.readBack
  have hfirst := rstrip_page_of_perm h (hkept.symm ▸ hback)
  have hsecond := rstrip_page_of_perm h (hkept.symm ▸ hback.trans (List.Perm.swap _ _ _))
  have hcomm := blockText_comm_of_swap (f := f.readBack) (g := g.readBack) hs (hfirst.trans hsecond.symm)
  rwa [blockText_readBack (hdigits f hf), blockText_readBack (hdigits g hg)] at hcomm

end

theorem reposts_page {fs : List Finding} {w : ReviewWorld} {reviewId : Nat}
    (hread : ∀ e, findingsRead w reviewId e = inRankOrder e.rowRank ((firstOfKey [] fs).map Finding.readBack))
    (hpending : 0 < w.db.pendingCount reviewId) (h : RepostsAs w reviewId fs) (hnil : fs ≠ []) (rank : Nat → Nat) :
    rstrip (pageText (inRankOrder rank ((firstOfKey [] fs).map Finding.readBack))) = rstrip (pageText fs) := by
  obtain ⟨hbody, hevent⟩ := (repostsAs_iff hpending fs).mp h ⟨[], .join [], rank⟩
  rw [hread] at hbody hevent
  have hfound : inRankOrder rank ((firstOfKey [] fs).map Finding.readBack) ≠ [] := by
    intro he
    simp [he, reviewEvent, hnil] at hevent
  rw [renderReviewBody_eq hnil, renderReviewBody_eq hfound] at hbody
  exact List.append_cancel_right hbody

theorem RepostsAs.rendersBack {fs : List Finding} {w : ReviewWorld} {reviewId : Nat}
    (hread : ∀ e, findingsRead w reviewId e = inRankOrder e.rowRank ((firstOfKey [] fs).map Finding.readBack))
    (hpending : 0 < w.db.pendingCount reviewId) (h : RepostsAs w reviewId fs) : RendersBack fs := by
  by_cases hnil : fs = []
  · subst hnil
    exact ⟨by simp, by simp, by simp⟩
  · exact rendersBack_of_page (reposts_page hread hpending h hnil)

/-- Approve posts what would have been posted automatically exactly when the
findings survive `finding_records` in print. -/
theorem approve_reposts_iff (w₀ w₁ w₂ : ReviewWorld) (reviewId : Nat) (fs : List Finding)
    (hfresh : ∀ r ∈ w₀.db.findings.rows, r.reviewId ≠ reviewId)
    (hstored : Prog.Completes ReviewCall.exec w₀ (TruthStore.insertFindings reviewId fs) () w₁)
    (hsame : (w₂.db.findings.rows.filter fun r => r.reviewId = reviewId) =
      w₁.db.findings.rows.filter fun r => r.reviewId = reviewId)
    (hpending : 0 < w₂.db.pendingCount reviewId) :
    RepostsAs w₂ reviewId fs ↔ RendersBack fs := by
  have hread := findingsRead_eq hfresh hstored hsame
  constructor
  · intro h
    exact h.rendersBack hread hpending
  · intro h
    refine (repostsAs_iff hpending fs).mpr fun e => ?_
    rw [hread, firstOfKey_eq_self h.keys (by simp)]
    refine ⟨h.render_eq e.rowRank, ?_⟩
    simp [reviewEvent, inRankOrder_eq_nil_iff]

/-! A review with one finding, before and after its finding was stored. -/

def openedDb : ReviewDb := ReviewDb.empty.upsertReview "o/r".toList 1 "d".toList

def oneFinding (confidence : Confidence) : Finding :=
  ⟨.quality, .low, "style".toList, "a.py".toList, some 3, confidence, "Long line".toList, []⟩

def storedDb (confidence : Confidence) : ReviewDb :=
  openedDb.insertFindings 0 [oneFinding confidence] (by decide)

def queuedDb (confidence : Confidence) : ReviewDb :=
  (storedDb confidence).enqueue 0 (queueReason confidence.val (17 / 20))
    (by rw [storedDb, ReviewDb.reviews_insertFindings]; decide)

theorem stores_oneFinding (confidence : Confidence) : Prog.Completes ReviewCall.exec ⟨openedDb, []⟩
    (TruthStore.insertFindings 0 [oneFinding confidence]) () ⟨storedDb confidence, []⟩ := by
  refine .call ⟨[], .join [], id⟩ ?_ (.ret _ _)
  rfl

theorem pendingCount_queuedDb (confidence : Confidence) : (queuedDb confidence).pendingCount 0 = 1 := by
  rw [ReviewDb.pendingCount, queuedDb, ReviewDb.hitlCount_enqueue, ReviewDb.hitlCount, storedDb,
    ReviewDb.hitl_insertFindings]
  decide

def halfConfidence : Confidence := ⟨1 / 2, by decide +kernel, by decide +kernel⟩

theorem approve_reposts_half : RepostsAs ⟨queuedDb halfConfidence, []⟩ 0 [oneFinding halfConfidence] :=
  (approve_reposts_iff ⟨openedDb, []⟩ ⟨storedDb halfConfidence, []⟩ ⟨queuedDb halfConfidence, []⟩ 0
    [oneFinding halfConfidence] (by decide) (stores_oneFinding halfConfidence) rfl
    (by rw [pendingCount_queuedDb]; decide)).mpr
    ⟨by decide, by decide +kernel, by decide +kernel⟩

/-- 0.134765625: two decimals make it 0.13, three decimals 0.135, and two
decimals of those 0.14. -/
def roundedTwice : Confidence := ⟨69 / 512, by decide +kernel, by decide +kernel⟩

theorem approve_rounds_twice : dedupFindings [oneFinding roundedTwice] = [oneFinding roundedTwice] ∧
    Prog.Completes ReviewCall.exec ⟨openedDb, []⟩
      (TruthStore.insertFindings 0 (dedupFindings [oneFinding roundedTwice])) () ⟨storedDb roundedTwice, []⟩ ∧
    ¬RepostsAs ⟨queuedDb roundedTwice, []⟩ 0 (dedupFindings [oneFinding roundedTwice]) := by
  have hdedup : dedupFindings [oneFinding roundedTwice] = [oneFinding roundedTwice] := by decide +kernel
  rw [hdedup]
  refine ⟨rfl, stores_oneFinding roundedTwice, fun h => ?_⟩
  have hread : ∀ e, findingsRead ⟨queuedDb roundedTwice, []⟩ 0 e = inRankOrder e.rowRank
      ((firstOfKey [] [oneFinding roundedTwice]).map Finding.readBack) :=
    findingsRead_eq (by decide) (stores_oneFinding roundedTwice) rfl
  have hpending : 0 < (queuedDb roundedTwice).pendingCount 0 := by
    rw [pendingCount_queuedDb]
    decide
  have hdigits := (h.rendersBack hread hpending).digits (oneFinding roundedTwice) (by simp)
  exact absurd hdigits (by decide +kernel)

end AiPrReview
