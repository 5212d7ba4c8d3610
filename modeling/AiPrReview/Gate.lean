import AiPrReview.ReviewPrograms

/-! The confidence-weighted gate and CRITICAL findings. -/

namespace AiPrReview

def CriticalOnTop (findings : List Finding) : Prop :=
  ∃ pre f post, findings = pre ++ f :: post ∧ f.severity = .critical ∧
    (∀ g ∈ pre, g.spot = f.spot → g.confidence.val < f.confidence.val) ∧
    (∀ g ∈ post, g.spot = f.spot → g.confidence.val ≤ f.confidence.val)

theorem critical_mem_dedupFindings_iff {findings : List Finding} :
    (∃ f ∈ dedupFindings findings, f.severity = .critical) ↔ CriticalOnTop findings := by
  constructor
  · rintro ⟨f, hf, hc⟩
    obtain ⟨pre, winner, post, hsplit, hpre, hpost, rfl⟩ := mem_dedupFindings_iff.mp hf
    exact ⟨pre, winner, post, hsplit, (withAgreement_severity _ _).symm.trans hc, hpre, hpost⟩
  · rintro ⟨pre, winner, post, hsplit, hc, hpre, hpost⟩
    exact ⟨_, mem_dedupFindings_iff.mpr ⟨pre, winner, post, hsplit, hpre, hpost, rfl⟩,
      (withAgreement_severity _ _).trans hc⟩

theorem decide_eq_escalated_iff {findings : List Finding} {score threshold : ℚ} :
    Decision.decide findings score threshold = .escalated ↔
      ∃ f ∈ findings, f.severity = .critical := by
  unfold Decision.decide
  split_ifs with hc hs
  · simpa using hc
  · simpa using hc
  · simpa using hc

theorem decide_eq_autoPost_iff {findings : List Finding} {score threshold : ℚ} :
    Decision.decide findings score threshold = .autoPost ↔
      (∀ f ∈ findings, f.severity ≠ .critical) ∧ threshold ≤ score := by
  have hany : findings.any (·.severity = .critical) = true ↔ ∃ f ∈ findings, f.severity = .critical := by
    simp
  unfold Decision.decide
  split_ifs with hc hs
  · obtain ⟨f, hf, he⟩ := hany.mp hc
    simpa using fun h => absurd he (h f hf)
  · simpa using fun _ => hs
  · have hno : ∀ f ∈ findings, f.severity ≠ .critical := fun f hf he => hc (hany.mpr ⟨f, hf, he⟩)
    simpa using ⟨hno, not_lt.mp hs⟩

/-- On a pending review, every talk of `aggregate` with its collaborators posts
nothing, and one that returns has enqueued a HITL row and decided ESCALATED. -/
def EscalatesPending (repo : Text) (prNumber : Int) (deliveryId : Text)
    (findingsByAgent : List (List Finding)) (threshold : ℚ) : Prop :=
  ∀ row talk rest, row.status = ReviewStatus.pending →
    (aggregate repo prNumber deliveryId findingsByAgent threshold).Talks
      (⟨.upsertReview repo prNumber deliveryId, row⟩ :: talk) rest →
    (∀ id r n body event, rest.next ≠ some (.postReview id r n body event)) ∧
    ∀ result, rest = .ret result → result.decision = .escalated ∧
      ∃ reason hitlId, ⟨.enqueue row.id reason, hitlId⟩ ∈ talk ∧ result.hitlReviewId = some hitlId

theorem aggregate_pending_talks {repo : Text} {prNumber : Int} {deliveryId : Text}
    {findingsByAgent : List (List Finding)} {threshold : ℚ} {row : ReviewRow}
    {talk : List (Sigma ReviewCall.Reply)} {rest : ReviewProg AggregateResult}
    (hp : row.status = .pending) :
    (aggregate repo prNumber deliveryId findingsByAgent threshold).Talks
      (⟨.upsertReview repo prNumber deliveryId, row⟩ :: talk) rest ↔
    ((TruthStore.insertFindings row.id (dedupFindings findingsByAgent.flatten)) >>= fun _ =>
      applyGate repo prNumber row.id threshold (dedupFindings findingsByAgent.flatten)).Talks
        talk rest := by
  simp [aggregate_eq, Prog.talks_call_iff, hp]

theorem applyGate_escalated {repo : Text} {prNumber : Int} {reviewId : Nat} {threshold : ℚ}
    {deduped : List Finding} (hc : ∃ f ∈ deduped, f.severity = .critical) :
    applyGate repo prNumber reviewId threshold deduped =
      .call (.emitDecision reviewId .escalated (overallConfidence deduped) deduped.length threshold)
        fun _ => .call (.enqueue reviewId (escalationReason deduped)) fun hitlId =>
          .call (.setStatus reviewId .escalated (overallConfidence deduped)) fun _ =>
            .ret ⟨reviewId, overallConfidence deduped, .escalated, none, some hitlId, deduped⟩ := by
  have hd : Decision.decide deduped (overallConfidence deduped) threshold = .escalated :=
    decide_eq_escalated_iff.mpr hc
  simp only [applyGate]
  rw [hd]
  rfl

theorem applyGate_talks_without_critical (repo : Text) (prNumber : Int) (reviewId : Nat)
    (threshold : ℚ) {deduped : List Finding} (hc : ∀ f ∈ deduped, f.severity ≠ .critical) :
    ∃ talk rest, (applyGate repo prNumber reviewId threshold deduped).Talks talk rest ∧
      ((∃ body event, rest.next = some (.postReview reviewId repo prNumber body event)) ∨
        ∃ result, rest = .ret result ∧ result.decision = .queued) := by
  by_cases hs : threshold ≤ overallConfidence deduped
  · have hd : Decision.decide deduped (overallConfidence deduped) threshold = .autoPost :=
      decide_eq_autoPost_iff.mpr ⟨hc, hs⟩
    simp only [applyGate, hd, if_true, Prog.perform_bind]
    exact ⟨[⟨_, ()⟩], _, .cons (.refl _), .inl ⟨_, _, rfl⟩⟩
  · have hd : Decision.decide deduped (overallConfidence deduped) threshold = .queued := by
      have hany : ¬ deduped.any (·.severity = .critical) := by simpa using hc
      simp [Decision.decide, hany, not_le.mp hs]
    simp only [applyGate, hd, Prog.perform_bind]
    exact ⟨[⟨_, ()⟩, ⟨_, (0 : Nat)⟩, ⟨_, ()⟩], _, .cons (.cons (.cons (.refl _))), .inr ⟨_, rfl, rfl⟩⟩

theorem not_escalatesPending {findingsByAgent : List (List Finding)}
    (hc : ∀ f ∈ dedupFindings findingsByAgent.flatten, f.severity ≠ .critical)
    (repo : Text) (prNumber : Int) (deliveryId : Text) (threshold : ℚ) :
    ¬ EscalatesPending repo prNumber deliveryId findingsByAgent threshold := by
  intro h
  obtain ⟨talk, rest, ht, hr⟩ := applyGate_talks_without_critical repo prNumber 0 threshold hc
  obtain ⟨talk', ht'⟩ : ∃ talk', (TruthStore.insertFindings 0 (dedupFindings findingsByAgent.flatten) >>=
      fun _ => applyGate repo prNumber 0 threshold (dedupFindings findingsByAgent.flatten)).Talks
        talk' rest := by
    by_cases he : dedupFindings findingsByAgent.flatten = []
    · exact ⟨talk, by simpa [TruthStore.insertFindings, he] using he ▸ ht⟩
    · exact ⟨⟨.insertFindings 0 (dedupFindings findingsByAgent.flatten), ()⟩ :: talk, by
        simpa [TruthStore.insertFindings, he, Prog.talks_call_iff] using ht⟩
  have hh := h ⟨0, .pending, none⟩ talk' rest rfl ((aggregate_pending_talks rfl).mpr ht')
  rcases hr with ⟨body, event, hn⟩ | ⟨result, rfl, hd⟩
  · exact hh.1 _ _ _ _ _ hn
  · have hesc := (hh.2 result rfl).1
    simp [hd] at hesc

theorem applyGate_talks_escalated {repo : Text} {prNumber : Int} {reviewId : Nat} {threshold : ℚ}
    {deduped : List Finding} (hc : ∃ f ∈ deduped, f.severity = .critical)
    {talk : List (Sigma ReviewCall.Reply)} {rest : ReviewProg AggregateResult}
    (h : (TruthStore.insertFindings reviewId deduped >>= fun _ =>
      applyGate repo prNumber reviewId threshold deduped).Talks talk rest) :
    (∀ id r n body event, rest.next ≠ some (.postReview id r n body event)) ∧
    ∀ result, rest = .ret result → result.decision = .escalated ∧
      ∃ reason hitlId, ⟨.enqueue reviewId reason, hitlId⟩ ∈ talk ∧
        result.hitlReviewId = some hitlId := by
  have hne : deduped ≠ [] := by
    obtain ⟨f, hf, _⟩ := hc
    exact List.ne_nil_of_mem hf
  simp only [TruthStore.insertFindings, hne, if_false, applyGate_escalated hc, Prog.perform_bind,
    Prog.talks_call_iff] at h
  rcases h with ⟨_, rfl⟩ | ⟨_, _, _, h⟩
  · simp
  rcases h with ⟨_, rfl⟩ | ⟨_, _, _, h⟩
  · simp
  rcases h with ⟨_, rfl⟩ | ⟨hitlId, _, rfl, h⟩
  · simp
  rcases h with ⟨_, rfl⟩ | ⟨_, _, _, h⟩
  · simp
  obtain ⟨_, rfl⟩ := Prog.talks_ret_iff.mp h
  refine ⟨by simp, ?_⟩
  intro result hr
  obtain rfl := Prog.ret.inj hr
  exact ⟨rfl, escalationReason deduped, hitlId, by simp [*], rfl⟩

/-- The gate escalates a family that has a CRITICAL finding exactly when one of
them is the first most confident finding of its file and line. -/
theorem escalatesPending_iff (repo : Text) (prNumber : Int) (deliveryId : Text)
    (findingsByAgent : List (List Finding)) (threshold : ℚ) :
    ((∃ f ∈ findingsByAgent.flatten, f.severity = .critical) →
      EscalatesPending repo prNumber deliveryId findingsByAgent threshold) ↔
    ((∀ f ∈ findingsByAgent.flatten, f.severity ≠ .critical) ∨
      CriticalOnTop findingsByAgent.flatten) := by
  constructor
  · intro h
    by_cases hc : ∃ f ∈ findingsByAgent.flatten, f.severity = .critical
    · refine .inr (critical_mem_dedupFindings_iff.mp ?_)
      by_contra hno
      exact not_escalatesPending (fun f hf he => hno ⟨f, hf, he⟩) repo prNumber deliveryId threshold (h hc)
    · exact .inl fun f hf he => hc ⟨f, hf, he⟩
  · rintro (hno | htop) ⟨f, hf, he⟩ row talk rest hp ht
    · exact absurd he (hno f hf)
    · exact applyGate_talks_escalated (critical_mem_dedupFindings_iff.mpr htop)
        ((aggregate_pending_talks hp).mp ht)

def outbidCritical : List (List Finding) :=
  [[⟨.security, .critical, "sql-injection".toList, "db.py".toList, some 10, ⟨1 / 2, by norm_num, by norm_num⟩,
      "SQL injection".toList, "user input reaches the query".toList⟩],
    [], [],
    [⟨.docs, .info, "docstring".toList, "db.py".toList, some 10, ⟨3 / 4, by norm_num, by norm_num⟩,
      "Missing docstring".toList, "no docstring".toList⟩]]

theorem outbidCritical_not_escalated :
    (∃ f ∈ outbidCritical.flatten, f.severity = .critical) ∧
      ¬ EscalatesPending "o/r".toList 1 "d".toList outbidCritical defaultConfidenceThreshold := by
  have hno : ∀ f ∈ dedupFindings outbidCritical.flatten, f.severity ≠ .critical := by decide +kernel
  exact ⟨⟨_, List.mem_cons_self, rfl⟩, not_escalatesPending hno _ _ _ _⟩

end AiPrReview
