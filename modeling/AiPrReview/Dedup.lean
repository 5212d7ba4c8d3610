import AiPrReview.Findings
import AiPrReview.Grouping

/-! The pure part of the aggregator: one finding for each place, the overall
confidence, the decision of the gate and the body that is posted. -/

namespace AiPrReview

def severityOrder : List Severity := [.critical, .high, .medium, .low, .info]

def Severity.rank (s : Severity) : Nat := severityOrder.idxOf s

inductive Decision : Type where
  | autoPost
  | queued
  | escalated
  deriving DecidableEq

def Decision.value : Decision → Text
  | autoPost => "auto_post".toList
  | queued => "queued".toList
  | escalated => "escalated".toList

def otherAgents (winner : Finding) (group : List Finding) : List Text :=
  (((group.map (·.agentType)).dedup.filter (· ≠ winner.agentType)).map (·.value)).mergeSort
    fun a b => decide (a ≤ b)

def agreementNote (others : List Text) : Text :=
  "\n\n_Also flagged by: ".toList ++ joinWith ", ".toList others ++ "._".toList

def withAgreement (winner : Finding) (group : List Finding) : Finding :=
  if group.length > 1 then
    let others := otherAgents winner group
    if others ≠ [] then { winner with rationale := winner.rationale ++ agreementNote others }
    else winner
  else winner

/-- What a group contributes: `max` keeps its first most confident member. -/
def groupWinner (group : List Finding) : Option Finding :=
  (group.argmax (·.confidence.val)).map (withAgreement · group)

/-- Comparison by `(_SEVERITY_ORDER.index(f.severity), f.file, f.line or 0)`. -/
def sortsBefore (f g : Finding) : Bool :=
  f.severity.rank < g.severity.rank ||
    (f.severity.rank == g.severity.rank &&
      (decide (f.file < g.file) || (f.file == g.file && decide (f.line.getD 0 ≤ g.line.getD 0))))

def dedupFindings (findings : List Finding) : List Finding :=
  ((groupsOf Finding.spot findings).filterMap fun g => groupWinner g.2).mergeSort sortsBefore

def overallConfidence (findings : List Finding) : ℚ :=
  if findings = [] then 1 else fmean (findings.map (·.confidence.val))

def defaultConfidenceThreshold : ℚ := 3 / 4

def Decision.decide (findings : List Finding) (score threshold : ℚ) : Decision :=
  if findings.any (·.severity = .critical) then .escalated
  else if score < threshold then .queued
  else .autoPost

def findingLines (f : Finding) : List Text :=
  let loc := match f.line with
    | none => f.file
    | some n => f.file ++ ':' :: intText n
  ("- **".toList ++ f.title ++ "** — `".toList ++ loc ++ "` · confidence ".toList ++
      fixed2 f.confidence.val ++ " · ".toList ++ f.agentType.value) ::
    (splitlines f.rationale).map fun line => if line ≠ [] then "  > ".toList ++ line else "  >".toList

def severityLines (findings : List Finding) (severity : Severity) : List Text :=
  let bucket := findings.filter (·.severity = severity)
  if bucket = [] then []
  else ("### ".toList ++ upper severity.value) :: bucket.flatMap findingLines ++ [[]]

def renderReviewBody (findings : List Finding) : Text :=
  if findings = [] then "✅ No issues found by the automated review.".toList
  else
    rstrip (joinWith "\n".toList
      ("**Automated review**".toList :: [] :: severityOrder.flatMap (severityLines findings))) ++
      "\n".toList

/-! What survives the deduplication. -/

theorem withAgreement_severity (winner : Finding) (group : List Finding) :
    (withAgreement winner group).severity = winner.severity := by
  simp only [withAgreement]
  split_ifs <;> rfl

/-- A survivor is the first most confident finding of its place, up to the
agreement note. -/
theorem mem_dedupFindings_iff {findings : List Finding} {f : Finding} :
    f ∈ dedupFindings findings ↔ ∃ pre winner post, findings = pre ++ winner :: post ∧
      (∀ g ∈ pre, g.spot = winner.spot → g.confidence.val < winner.confidence.val) ∧
      (∀ g ∈ post, g.spot = winner.spot → g.confidence.val ≤ winner.confidence.val) ∧
      f = withAgreement winner (findings.filter (·.spot = winner.spot)) := by
  simp only [dedupFindings, List.mem_mergeSort, List.mem_filterMap, groupWinner, Option.map_eq_some_iff]
  constructor
  · rintro ⟨⟨spot, group⟩, hg, winner, hw, hf⟩
    obtain ⟨_, hgroup⟩ := mem_groupsOf_iff.mp hg
    have hspot : winner.spot = spot := by
      have hm : winner ∈ findings.filter (·.spot = spot) := hgroup ▸ List.argmax_mem hw
      simpa using (List.mem_filter.mp hm).2
    obtain ⟨pre', post', hsplit, hpre, hpost⟩ := argmax_eq_some_split.mp hw
    obtain ⟨pre, rest, hfs, hpre', hrest⟩ := List.filter_eq_append_iff.mp (hgroup.symm.trans hsplit)
    obtain ⟨between, post, hr, hb, _, hpost'⟩ := List.filter_eq_cons_iff.mp hrest
    refine ⟨pre ++ between, winner, post, by rw [hfs, hr, List.append_assoc], ?_, ?_, ?_⟩
    · intro g hg hs
      rcases List.mem_append.mp hg with hg | hg
      · exact hpre g (by simpa [← hpre'] using ⟨hg, hs.trans hspot⟩)
      · exact absurd (by simpa using hs.trans hspot) (hb g hg)
    · intro g hg hs
      exact hpost g (by simpa [← hpost'] using ⟨hg, hs.trans hspot⟩)
    · rw [← hf, hgroup, hspot]
  · rintro ⟨pre, winner, post, rfl, hpre, hpost, rfl⟩
    refine ⟨(winner.spot, _), mem_groupsOf_iff.mpr ⟨?_, rfl⟩, winner, ?_, rfl⟩
    · simp
    · refine argmax_eq_some_split.mpr ⟨pre.filter (·.spot = winner.spot),
        post.filter (·.spot = winner.spot), by simp [List.filter_append], ?_, ?_⟩
      · intro g hg
        have := List.mem_filter.mp hg
        exact hpre g this.1 (by simpa using this.2)
      · intro g hg
        have := List.mem_filter.mp hg
        exact hpost g this.1 (by simpa using this.2)

end AiPrReview
