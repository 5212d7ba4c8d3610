import AiPrReview.Scorer

/-! The regression gate: the score of a suite against a baseline. The gate compares
two numbers, and a baseline's list of case ids is recorded but not compared. -/

namespace AiPrReview

structure GateThresholds : Type where
  maxRecallDrop : ℚ := toDouble (5 / 100)
  maxFpIncrease : Int := 0

structure Baseline : Type where
  meanRecall : ℚ
  totalFalsePositives : Int
  recordedAt : Text
  cases : List Text

structure GateReport : Type where
  passed : Bool
  reasons : List Text
  currentMeanRecall : ℚ
  currentFalsePositives : Int
  baselineMeanRecall : ℚ
  baselineFalsePositives : Int
  deriving DecidableEq

/-- `f"{q:.3f}"`. -/
def fixed3 (q : ℚ) : Text :=
  let n := (roundHalfEven (|q| * 1000)).toNat
  (if q < 0 then ['-'] else []) ++ intText (n / 1000 : Nat) ++ '.' ::
    (intText (n / 100 % 10 : Nat) ++ intText (n / 10 % 10 : Nat) ++ intText (n % 10 : Nat))

def recallReason (recallDrop : ℚ) (baseline current tolerance : ℚ) : Text :=
  "mean recall dropped ".toList ++ fixed3 recallDrop ++ " (".toList ++ fixed3 baseline ++ " → ".toList ++
    fixed3 current ++ "), over the ".toList ++ fixed3 tolerance ++ " tolerance".toList

def fpReason (fpIncrease baseline current : Int) : Text :=
  "false positives rose by ".toList ++ intText fpIncrease ++ " (".toList ++ intText baseline ++ " → ".toList ++
    intText current ++ ")".toList

def evaluate (suite : SuiteScore) (baseline : Baseline) (thresholds : GateThresholds) : GateReport :=
  let recallDrop := toDouble (baseline.meanRecall - suite.meanRecall)
  let fpIncrease := suite.totalFalsePositives - baseline.totalFalsePositives
  let reasons :=
    (if thresholds.maxRecallDrop < recallDrop then
      [recallReason recallDrop baseline.meanRecall suite.meanRecall thresholds.maxRecallDrop] else []) ++
    (if thresholds.maxFpIncrease < fpIncrease then
      [fpReason fpIncrease baseline.totalFalsePositives suite.totalFalsePositives] else [])
  ⟨decide (reasons = []), reasons, suite.meanRecall, suite.totalFalsePositives, baseline.meanRecall,
    baseline.totalFalsePositives⟩

def baselineFromSuite (suite : SuiteScore) (caseIds : List Text) (now : Text) : Baseline :=
  ⟨suite.meanRecall, suite.totalFalsePositives, now, caseIds⟩

theorem evaluate_passed_iff (suite : SuiteScore) (baseline : Baseline) (thresholds : GateThresholds) :
    (evaluate suite baseline thresholds).passed = true ↔
      toDouble (baseline.meanRecall - suite.meanRecall) ≤ thresholds.maxRecallDrop ∧
        suite.totalFalsePositives - baseline.totalFalsePositives ≤ thresholds.maxFpIncrease := by
  unfold evaluate
  dsimp only
  rw [decide_eq_true_eq, List.append_eq_nil_iff, ← not_lt, ← not_lt]
  split_ifs <;> simp [*]

theorem evaluate_congr {suite suite' : SuiteScore} {baseline baseline' : Baseline}
    (hrecall : suite'.meanRecall = suite.meanRecall)
    (hfps : suite'.totalFalsePositives = suite.totalFalsePositives)
    (hrecall' : baseline'.meanRecall = baseline.meanRecall)
    (hfps' : baseline'.totalFalsePositives = baseline.totalFalsePositives) (thresholds : GateThresholds) :
    evaluate suite' baseline' thresholds = evaluate suite baseline thresholds := by
  unfold evaluate
  rw [hrecall, hfps, hrecall', hfps']

theorem evaluate_own_baseline (suite : SuiteScore) (caseIds : List Text) (now : Text) {thresholds : GateThresholds}
    (hdrop : 0 ≤ thresholds.maxRecallDrop) (hfps : 0 ≤ thresholds.maxFpIncrease) :
    (evaluate suite (baselineFromSuite suite caseIds now) thresholds).passed = true := by
  rw [evaluate_passed_iff, baselineFromSuite]
  constructor
  · have hzero : toDouble 0 = 0 := if_pos rfl
    rw [sub_self, hzero]
    exact hdrop
  · rw [Int.sub_self]
    exact hfps

/-! A suite without some of its cases. -/

/-- The mean before any rounding. -/
def exactMean (qs : List ℚ) : ℚ := if qs = [] then 1 else qs.sum / qs.length

/-- Leaving out what is not below the mean of the rest does not raise the mean. -/
theorem exactMean_le {kept dropped qs : List ℚ} (hperm : qs.Perm (kept ++ dropped))
    (h : ∀ q ∈ dropped, exactMean kept ≤ q) : exactMean kept ≤ exactMean qs := by
  by_cases hqs : qs = []
  · subst hqs
    have hnil : kept = [] := (List.append_eq_nil_iff.mp hperm.symm.eq_nil).1
    rw [hnil]
  have hpos : (0 : ℚ) < qs.length := by exact_mod_cast List.length_pos_iff.mpr hqs
  have hsum : qs.sum = kept.sum + dropped.sum := hperm.sum_eq.trans List.sum_append
  have hlength : (qs.length : ℚ) = kept.length + dropped.length := by
    rw [hperm.length_eq, List.length_append, Nat.cast_add]
  have hdropped : dropped.length * exactMean kept ≤ dropped.sum := by
    have hh := List.card_nsmul_le_sum dropped (exactMean kept) h
    rwa [nsmul_eq_mul] at hh
  have hkept : kept.length * exactMean kept = kept.sum := by
    unfold exactMean
    split_ifs with hnil
    · rw [hnil, List.length_nil, List.sum_nil, Nat.cast_zero, zero_mul]
    · have hne : (kept.length : ℚ) ≠ 0 := by exact_mod_cast (List.length_pos_iff.mpr hnil).ne'
      exact mul_div_cancel₀ _ hne
  have hmean : exactMean qs = qs.sum / qs.length := if_neg hqs
  rw [hmean, le_div_iff₀ hpos, hlength, hsum]
  linarith

def SuiteScore.recalls (suite : SuiteScore) : List ℚ := suite.perCase.map (·.recall)

/-- The mean recall is the exact mean, rounded once. -/
def SuiteScore.RoundedOnce (suite : SuiteScore) : Prop := suite.meanRecall = toDouble (exactMean suite.recalls)

theorem exists_recall_lt {suite kept : SuiteScore} {dropped : List CaseScore}
    (hperm : suite.perCase.Perm (kept.perCase ++ dropped)) (hsuite : suite.RoundedOnce) (hkept : kept.RoundedOnce)
    (h : suite.meanRecall < kept.meanRecall) : ∃ s ∈ dropped, s.recall < exactMean kept.recalls := by
  by_contra hno
  push Not at hno
  have hrecalls : suite.recalls.Perm (kept.recalls ++ dropped.map (·.recall)) := by
    have hh := hperm.map (·.recall)
    rwa [List.map_append] at hh
  have hle : exactMean kept.recalls ≤ exactMean suite.recalls := by
    refine exactMean_le hrecalls fun q hq => ?_
    obtain ⟨s, hs, rfl⟩ := List.mem_map.mp hq
    exact hno s hs
  have hmono := toDouble_monotone hle
  rw [← hsuite, ← hkept] at hmono
  exact absurd h (not_lt.mpr hmono)

theorem exists_falsePositives_pos {suite kept : SuiteScore} {dropped : List CaseScore}
    (hperm : suite.perCase.Perm (kept.perCase ++ dropped))
    (h : kept.totalFalsePositives < suite.totalFalsePositives) : ∃ s ∈ dropped, 0 < s.falsePositives := by
  by_contra hno
  push Not at hno
  have hsum : suite.totalFalsePositives = kept.totalFalsePositives + (dropped.map (·.falsePositives)).sum := by
    have hh := (hperm.map (·.falsePositives)).sum_eq
    rwa [List.map_append, List.sum_append] at hh
  have hdropped : (dropped.map (·.falsePositives)).sum ≤ 0 := by
    have hh := List.sum_le_card_nsmul (dropped.map (·.falsePositives)) 0 fun n hn => by
      obtain ⟨s, hs, rfl⟩ := List.mem_map.mp hn
      exact hno s hs
    rwa [nsmul_zero] at hh
  omega

/-- The suite under other case ids. -/
def SuiteScore.relabel (suite : SuiteScore) (ids : CaseScore → Text) : SuiteScore :=
  ⟨suite.perCase.map fun s => { s with caseId := ids s }⟩

theorem relabel_numbers (suite : SuiteScore) (ids : CaseScore → Text) :
    (suite.relabel ids).meanRecall = suite.meanRecall ∧
      (suite.relabel ids).totalFalsePositives = suite.totalFalsePositives := by
  have hrecall : (suite.relabel ids).perCase.map (·.recall) = suite.perCase.map (·.recall) := List.map_map
  have hfps : (suite.relabel ids).perCase.map (·.falsePositives) = suite.perCase.map (·.falsePositives) := List.map_map
  constructor
  · unfold SuiteScore.meanRecall
    rw [hrecall, SuiteScore.relabel, List.length_map]
    simp only [List.map_eq_nil_iff]
  · rw [SuiteScore.totalFalsePositives, hfps, SuiteScore.totalFalsePositives]

/-- Where a suite fails and a part of it passes, the rest has a finding too many or
holds the mean down. -/
theorem exists_dropped {suite kept : SuiteScore} {dropped : List CaseScore} {baseline : Baseline}
    {thresholds : GateThresholds} (hperm : suite.perCase.Perm (kept.perCase ++ dropped))
    (hfail : (evaluate suite baseline thresholds).passed = false)
    (hpass : (evaluate kept baseline thresholds).passed = true) :
    (∃ s ∈ dropped, 0 < s.falsePositives) ∨ suite.meanRecall < kept.meanRecall ∧
      (suite.RoundedOnce → kept.RoundedOnce → ∃ s ∈ dropped, s.recall < exactMean kept.recalls) := by
  have hfail' := Bool.eq_false_iff.mp hfail
  rw [Ne, evaluate_passed_iff, not_and_or, not_le, not_le] at hfail'
  rw [evaluate_passed_iff] at hpass
  rcases hfail' with hrecall | hfps
  · have hlt : suite.meanRecall < kept.meanRecall := by
      by_contra hno
      have hdrop : baseline.meanRecall - suite.meanRecall ≤ baseline.meanRecall - kept.meanRecall := by linarith
      have hmono := toDouble_monotone hdrop
      linarith
    exact .inr ⟨hlt, fun hsuite hkept => exists_recall_lt hperm hsuite hkept hlt⟩
  · refine .inl (exists_falsePositives_pos hperm ?_)
    omega

/-- The gate reads a mean and a sum, and no case id. -/
theorem evaluate_reads_numbers (suite : SuiteScore) (baseline : Baseline) (thresholds : GateThresholds) :
    (∀ ids cases now, evaluate (suite.relabel ids) { baseline with cases := cases, recordedAt := now } thresholds =
      evaluate suite baseline thresholds) ∧
    ((evaluate suite baseline thresholds).passed = true ↔
      toDouble (baseline.meanRecall - suite.meanRecall) ≤ thresholds.maxRecallDrop ∧
        suite.totalFalsePositives - baseline.totalFalsePositives ≤ thresholds.maxFpIncrease) ∧
    ((evaluate ⟨[]⟩ baseline thresholds).passed = true ↔
      toDouble (baseline.meanRecall - 1) ≤ thresholds.maxRecallDrop ∧
        -baseline.totalFalsePositives ≤ thresholds.maxFpIncrease) ∧
    ∀ (kept : SuiteScore) (dropped : List CaseScore), suite.perCase.Perm (kept.perCase ++ dropped) →
      (evaluate suite baseline thresholds).passed = false → (evaluate kept baseline thresholds).passed = true →
      (∃ s ∈ dropped, 0 < s.falsePositives) ∨ suite.meanRecall < kept.meanRecall ∧
        (suite.RoundedOnce → kept.RoundedOnce → ∃ s ∈ dropped, s.recall < exactMean kept.recalls) := by
  refine ⟨fun ids cases now => ?_, evaluate_passed_iff suite baseline thresholds, ?_, ?_⟩
  · exact evaluate_congr (relabel_numbers suite ids).1 (relabel_numbers suite ids).2 rfl rfl thresholds
  · have hh := evaluate_passed_iff ⟨[]⟩ baseline thresholds
    have hzero : (⟨[]⟩ : SuiteScore).totalFalsePositives - baseline.totalFalsePositives =
        -baseline.totalFalsePositives := Int.zero_sub _
    rw [hzero] at hh
    exact hh
  · intro kept dropped hperm hfail hpass
    exact exists_dropped hperm hfail hpass

/-- A case of which nothing that it expects was found. -/
def missedCase : CaseScore := ⟨"s".toList, 4, 0, [], 0, []⟩

def foundCase : CaseScore := ⟨"t".toList, 4, 4, [], 0, []⟩

def fullBaseline : Baseline := ⟨1, 0, "2026-09-08T00:00:00+00:00".toList, ["s".toList, "t".toList]⟩

theorem evaluate_reads_numbers_missedCase :
    ∃ s ∈ [missedCase], s.recall < exactMean (SuiteScore.recalls ⟨[foundCase]⟩) := by
  have hh := (evaluate_reads_numbers ⟨[missedCase, foundCase]⟩ fullBaseline {}).2.2.2 ⟨[foundCase]⟩ [missedCase]
    (List.Perm.swap foundCase missedCase []) (by decide +kernel) (by decide +kernel)
  rcases hh with ⟨s, hs, hpos⟩ | ⟨-, hrounded⟩
  · rw [List.mem_singleton.mp hs] at hpos
    exact absurd hpos (by decide)
  · have hsuite : toDouble (sumFloats [missedCase.recall, foundCase.recall] / 2) =
        toDouble (exactMean [missedCase.recall, foundCase.recall]) := by decide +kernel
    have hkept : toDouble (sumFloats [foundCase.recall] / 1) = toDouble (exactMean [foundCase.recall]) := by
      decide +kernel
    exact hrounded hsuite hkept

/-- A suite that covers the baseline fails, and passes with the missed case left out. -/
theorem evaluate_passes_uncovered :
    ¬((∀ (suite : SuiteScore) (baseline : Baseline) (thresholds : GateThresholds),
        (evaluate suite baseline thresholds).passed = true →
          ∀ id ∈ baseline.cases, id ∈ suite.perCase.map (·.caseId)) ∨
      ∀ (suite kept : SuiteScore) (baseline : Baseline) (thresholds : GateThresholds),
        (∀ id ∈ baseline.cases, id ∈ suite.perCase.map (·.caseId)) →
          (evaluate suite baseline thresholds).passed = false → kept.perCase.Sublist suite.perCase →
          (evaluate kept baseline thresholds).passed = false) := by
  have hpass : (evaluate ⟨[foundCase]⟩ fullBaseline {}).passed = true := by decide +kernel
  have hfail : (evaluate ⟨[missedCase, foundCase]⟩ fullBaseline {}).passed = false := by decide +kernel
  rintro (h | h)
  · have hmem := h ⟨[foundCase]⟩ fullBaseline {} hpass "s".toList List.mem_cons_self
    exact absurd hmem (by decide +kernel)
  · have hcovers : ∀ id ∈ fullBaseline.cases, id ∈ [missedCase, foundCase].map (·.caseId) := fun id hid => hid
    have hh := h ⟨[missedCase, foundCase]⟩ ⟨[foundCase]⟩ fullBaseline {} hcovers hfail
      (List.sublist_cons_self missedCase [foundCase])
    rw [hpass] at hh
    cases hh

end AiPrReview
