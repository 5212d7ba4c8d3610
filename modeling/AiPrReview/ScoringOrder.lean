import AiPrReview.RegressionGate

/-! What a score has to do with the best pairing of expected and actual findings, and
when the order of either makes no difference. -/

namespace AiPrReview

open Matching

variable (lower : Text → Text)

/-- How many of the expected findings can be paired with findings of their own. -/
def GoldenCase.pairable (case : GoldenCase) (actual : List Finding) : Set ℕ :=
  sizes (ExpectedFinding.matches lower) case.expectedFindings actual

/-- Of two expected findings that match a common finding, the later matches all that the earlier does. -/
def GoldenCase.NarrowFirst (case : GoldenCase) (actual : List Finding) : Prop :=
  Nested (ExpectedFinding.matches lower) case.expectedFindings actual

def GoldenCase.only (case : GoldenCase) (expected : List ExpectedFinding) : GoldenCase :=
  { case with expectedFindings := expected }

/-- The score counts the most expected findings that can be paired. -/
def MatchesMost (case : GoldenCase) (actual : List Finding) : Prop :=
  ∃ n : ℕ, (scoreCase lower case actual).matched = n ∧ IsGreatest (case.pairable lower actual) n

variable {lower}

theorem matchesMost_iff {case : GoldenCase} {actual : List Finding} : MatchesMost lower case actual ↔
    IsGreatest (case.pairable lower actual)
      (greedy (ExpectedFinding.matches lower) case.expectedFindings actual).length := by
  unfold MatchesMost
  rw [scoreCase_matched]
  constructor
  · rintro ⟨n, hn, h⟩
    rwa [Nat.cast_inj.mp hn]
  · exact fun h => ⟨_, rfl, h⟩

theorem scoreCase_half (case : GoldenCase) (actual : List Finding) :
    ∃ n : ℕ, (scoreCase lower case actual).matched = n ∧ n ∈ case.pairable lower actual ∧
      ∀ m ∈ case.pairable lower actual, m ≤ 2 * n := by
  refine ⟨_, scoreCase_matched lower case actual, ⟨_, greedy_pairing _ _ _, Multiset.coe_card _⟩, ?_⟩
  rintro m ⟨pairs, hpairs, rfl⟩
  exact card_le_two_mul_greedy hpairs

theorem narrowFirst_iff (case : GoldenCase) (actual : List Finding) : case.NarrowFirst lower actual ↔
    ∀ (expected : List ExpectedFinding) (reported : List Finding), expected.Sublist case.expectedFindings →
      reported.Subperm actual → MatchesMost lower (case.only expected) reported := by
  unfold GoldenCase.NarrowFirst
  rw [nested_iff]
  constructor
  · exact fun h expected reported hexp hrep => matchesMost_iff.mpr (h expected reported hexp hrep)
  · exact fun h expected reported hexp hrep => matchesMost_iff.mp (h expected reported hexp hrep)

/-- The same case and findings, with either list in another order. -/
structure Reordered (p q : GoldenCase × List Finding) : Prop where
  expected : p.1.expectedFindings.Perm q.1.expectedFindings
  actual : p.2.Perm q.2
  caps : p.1.expectMaxFindings = q.1.expectMaxFindings

theorem Reordered.falsePositives {p q : GoldenCase × List Finding} (h : Reordered p q) :
    (scoreCase lower p.1 p.2).falsePositives = (scoreCase lower q.1 q.2).falsePositives := by
  have hover : excess p.2 = excess q.2 := funext fun cap => by rw [excess, excess, h.actual.countP_eq]
  rw [scoreCase_falsePositives, scoreCase_falsePositives, hover, h.caps]

theorem Reordered.matched {p q : GoldenCase × List Finding} (h : Reordered p q)
    (hp : p.1.NarrowFirst lower p.2) (hq : q.1.NarrowFirst lower q.2) :
    (scoreCase lower p.1 p.2).matched = (scoreCase lower q.1 q.2).matched := by
  have hexp : (p.1.expectedFindings : Multiset ExpectedFinding) = q.1.expectedFindings :=
    Multiset.coe_eq_coe.mpr h.expected
  have hact : (p.2 : Multiset Finding) = q.2 := Multiset.coe_eq_coe.mpr h.actual
  have hgreatest := greedy_isGreatest hp
  rw [hexp, hact] at hgreatest
  rw [scoreCase_matched, scoreCase_matched, hgreatest.unique (greedy_isGreatest hq)]

theorem Reordered.recall {p q : GoldenCase × List Finding} (h : Reordered p q)
    (hm : (scoreCase lower p.1 p.2).matched = (scoreCase lower q.1 q.2).matched) :
    (scoreCase lower p.1 p.2).recall = (scoreCase lower q.1 q.2).recall := by
  have hexp : (scoreCase lower p.1 p.2).expected = (scoreCase lower q.1 q.2).expected :=
    congrArg Nat.cast h.expected.length_eq
  rw [CaseScore.recall, CaseScore.recall, hm, hexp]

theorem evaluate_reordered {pairs pairs' : List (GoldenCase × List Finding)}
    (h : List.Forall₂ Reordered pairs pairs') (hn : ∀ p ∈ pairs ++ pairs', p.1.NarrowFirst lower p.2)
    (baseline : Baseline) (thresholds : GateThresholds) :
    evaluate (scoreSuite lower pairs) baseline thresholds = evaluate (scoreSuite lower pairs') baseline thresholds := by
  have hnumbers : (scoreSuite lower pairs).perCase.map (·.recall) = (scoreSuite lower pairs').perCase.map (·.recall) ∧
      (scoreSuite lower pairs).perCase.map (·.falsePositives) =
        (scoreSuite lower pairs').perCase.map (·.falsePositives) := by
    clear baseline thresholds
    induction h with
    | nil => exact ⟨rfl, rfl⟩
    | @cons p q pairs pairs' hpq h ih =>
      have hp := hn p (by simp)
      have hq := hn q (by simp)
      have hrest := ih fun r hr => hn r (by
        rcases List.mem_append.mp hr with hr | hr
        · simp [hr]
        · simp [hr])
      constructor
      · exact congrArg₂ List.cons (hpq.recall (hpq.matched hp hq)) hrest.1
      · exact congrArg₂ List.cons hpq.falsePositives hrest.2
  have hlength := congrArg List.length hnumbers.1
  rw [List.length_map, List.length_map] at hlength
  refine evaluate_congr ?_ ?_ rfl rfl thresholds
  · unfold SuiteScore.meanRecall
    rw [hnumbers.1, hlength]
    simp only [← List.length_eq_zero_iff, hlength]
  · rw [SuiteScore.totalFalsePositives, SuiteScore.totalFalsePositives, hnumbers.2]

/-- The score is at least half of the best pairing, and all of it, in whatever order the
findings come, where the narrower expectations come first. -/
theorem scoreCase_matchesMost (lower : Text → Text) :
    (∀ (case : GoldenCase) (actual : List Finding), ∃ n : ℕ, (scoreCase lower case actual).matched = n ∧
      n ∈ case.pairable lower actual ∧ ∀ m ∈ case.pairable lower actual, m ≤ 2 * n) ∧
    (∀ (case : GoldenCase) (actual : List Finding), case.NarrowFirst lower actual ↔
      ∀ (expected : List ExpectedFinding) (reported : List Finding), expected.Sublist case.expectedFindings →
        reported.Subperm actual → MatchesMost lower (case.only expected) reported) ∧
    (∀ p q, Reordered p q → p.1.NarrowFirst lower p.2 → q.1.NarrowFirst lower q.2 →
      (scoreCase lower p.1 p.2).matched = (scoreCase lower q.1 q.2).matched ∧
        (scoreCase lower p.1 p.2).recall = (scoreCase lower q.1 q.2).recall) ∧
    ∀ pairs pairs', List.Forall₂ Reordered pairs pairs' → (∀ p ∈ pairs ++ pairs', p.1.NarrowFirst lower p.2) →
      ∀ baseline thresholds, evaluate (scoreSuite lower pairs) baseline thresholds =
        evaluate (scoreSuite lower pairs') baseline thresholds := by
  refine ⟨scoreCase_half, narrowFirst_iff, ?_, ?_⟩
  · intro p q h hp hq
    have hm := h.matched hp hq
    exact ⟨hm, h.recall hm⟩
  · intro pairs pairs' h hn baseline thresholds
    exact evaluate_reordered h hn baseline thresholds

/-- Any security finding of the file, and one on its tenth line. -/
def wide : ExpectedFinding := { agentType := .security, file := "a.py".toList }

def narrow : ExpectedFinding := { wide with line := some 10, lineTolerance := 0 }

def twoExpected (expected : List ExpectedFinding) : GoldenCase := ⟨"two".toList, expected, Table.empty⟩

def onLine (line : Int) : Finding where
  agentType := .security
  severity := .high
  category := "sql-injection".toList
  file := "a.py".toList
  line := some line
  confidence := ⟨1, zero_le_one, le_rfl⟩
  title := "Query".toList
  rationale := "Built from input".toList

theorem scoreCase_matchesMost_narrow :
    MatchesMost (List.map Char.toLower) (twoExpected [narrow, wide]) [onLine 10, onLine 90] := by
  refine ((scoreCase_matchesMost (List.map Char.toLower)).2.1 (twoExpected [narrow, wide]) [onLine 10, onLine 90]).mp ?_ _ _
    (List.Sublist.refl _) (List.Subperm.refl _)
  unfold GoldenCase.NarrowFirst Nested
  decide +kernel

/-- With the wide expectation first, it takes the finding that the narrow one needs; the
other order of the findings pairs both. -/
theorem wide_first_not_most :
    ¬((∀ case actual, MatchesMost (List.map Char.toLower) case actual) ∨
      ∀ p q, Reordered p q → (scoreCase (List.map Char.toLower) p.1 p.2).matched =
        (scoreCase (List.map Char.toLower) q.1 q.2).matched) := by
  have hone : (scoreCase (List.map Char.toLower) (twoExpected [wide, narrow]) [onLine 10, onLine 90]).matched = 1 := by
    decide +kernel
  have htwo : (scoreCase (List.map Char.toLower) (twoExpected [wide, narrow]) [onLine 90, onLine 10]).matched = 2 := by
    decide +kernel
  rintro (h | h)
  · obtain ⟨n, hn, hgreatest⟩ := h (twoExpected [wide, narrow]) [onLine 10, onLine 90]
    obtain ⟨m, hm, hmost⟩ := h (twoExpected [wide, narrow]) [onLine 90, onLine 10]
    have hswap : (([onLine 90, onLine 10] : List Finding) : Multiset Finding) = [onLine 10, onLine 90] :=
      Multiset.coe_eq_coe.mpr (List.Perm.swap _ _ [])
    have hmem := hmost.1
    unfold GoldenCase.pairable at hmem
    rw [hswap] at hmem
    have hle : m ≤ n := hgreatest.2 hmem
    omega
  · have hh := h (twoExpected [wide, narrow], [onLine 10, onLine 90])
      (twoExpected [wide, narrow], [onLine 90, onLine 10]) ⟨List.Perm.refl _, List.Perm.swap _ _ [], rfl⟩
    dsimp only at hh
    rw [hone, htwo] at hh
    cases hh

end AiPrReview
