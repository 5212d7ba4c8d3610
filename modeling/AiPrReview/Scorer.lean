import AiPrReview.Findings
import AiPrReview.Matching
import AiPrReview.Table

/-! Scoring a golden case: how many of the findings it expects the specialists
reported, and how many findings go over the ceilings of their agents. -/

namespace AiPrReview

open Matching

structure ExpectedFinding : Type where
  agentType : AgentType
  file : Text
  line : Option Int := none
  lineTolerance : Int := 3
  categoryContains : Option Text := none
  rationaleContains : Option Text := none
  note : Option Text := none

/-- An agent absent from `expectMaxFindings` is unconstrained. -/
structure GoldenCase : Type where
  id : Text
  expectedFindings : List ExpectedFinding
  expectMaxFindings : Table fun cap : AgentType × Int => cap.1

def GoldenCase.label (expected : ExpectedFinding) : Text :=
  if expected.note.getD [] ≠ [] then expected.note.getD []
  else
    expected.agentType.value ++ ':' :: expected.file ++ ':' ::
      match expected.line with
      | none => "None".toList
      | some n => intText n

/-- `f.line` and `expected.line` are compared only where both are there. -/
def ExpectedFinding.nearLine (expected : ExpectedFinding) (finding : Finding) : Bool :=
  match expected.line, finding.line with
  | some e, some f => decide (|f - e| ≤ expected.lineTolerance)
  | _, _ => true

/-! `lower` is `str.lower`; nothing below depends on what it does. -/

section

variable (lower : Text → Text)

/-- `wanted is None or wanted.lower() in text.lower()`. -/
def containsLower (wanted : Option Text) (text : Text) : Bool :=
  match wanted with
  | none => true
  | some t => decide (lower t <:+: lower text)

def ExpectedFinding.matches (expected : ExpectedFinding) (finding : Finding) : Bool :=
  decide (finding.agentType = expected.agentType) && decide (finding.file = expected.file) &&
    expected.nearLine finding && containsLower lower expected.categoryContains finding.category &&
    containsLower lower expected.rationaleContains (finding.title ++ '\n' :: finding.rationale)

end

/-- `Counter`, as a dictionary in the order of the first occurrences. -/
def bump : List (Text × Nat) → Text → List (Text × Nat)
  | [], key => [(key, 1)]
  | (k, n) :: rest, key => if k = key then (k, n + 1) :: rest else (k, n) :: bump rest key

def counter (keys : List Text) : List (Text × Nat) := keys.foldl bump []

structure CaseScore : Type where
  caseId : Text
  expected : Int
  matched : Int
  missed : List Text
  falsePositives : Int
  findingsByAgent : List (Text × Nat)
  deriving DecidableEq

def CaseScore.recall (s : CaseScore) : ℚ := if s.expected = 0 then 1 else toDouble (s.matched / s.expected)

structure SuiteScore : Type where
  perCase : List CaseScore

/-- One item of `sum` over floats: the sum so far, and what rounding has cost it. -/
def sumStep (s : ℚ × ℚ) (x : ℚ) : ℚ × ℚ :=
  let t := toDouble (s.1 + x)
  (t, if |x| ≤ |s.1| then toDouble (s.2 + toDouble (toDouble (s.1 - t) + x))
    else toDouble (s.2 + toDouble (toDouble (x - t) + s.1)))

/-- `sum` of floats, which is compensated since Python 3.12. -/
def sumFloats : List ℚ → ℚ
  | [] => 0
  | x :: xs =>
    let s := xs.foldl sumStep (x, 0)
    if s.2 ≠ 0 then toDouble (s.1 + s.2) else s.1

def SuiteScore.meanRecall (suite : SuiteScore) : ℚ :=
  if suite.perCase = [] then 1 else toDouble (sumFloats (suite.perCase.map (·.recall)) / suite.perCase.length)

def SuiteScore.totalFalsePositives (suite : SuiteScore) : Int := (suite.perCase.map (·.falsePositives)).sum

/-- The variables of the loop of `score_case`. -/
structure Scoring : Type where
  remaining : List Finding
  matched : Nat
  missed : List Text

section

variable (lower : Text → Text)

def scoreExpected (s : Scoring) (expected : ExpectedFinding) : Scoring :=
  match s.remaining.find? (expected.matches lower) with
  | none => { s with missed := s.missed ++ [GoldenCase.label expected] }
  | some hit => { s with remaining := s.remaining.erase hit, matched := s.matched + 1 }

def overCap (byAgent : List (Text × Nat)) (cap : AgentType × Int) : Int :=
  max 0 (((byAgent.lookup cap.1.value).getD 0 : Nat) - cap.2)

def scoreCase (case : GoldenCase) (actual : List Finding) : CaseScore :=
  let s := case.expectedFindings.foldl (scoreExpected lower) ⟨actual, 0, []⟩
  let byAgent := counter (actual.map (·.agentType.value))
  let falsePositives := case.expectMaxFindings.rows.foldl (fun n cap => n + overCap byAgent cap) 0
  ⟨case.id, case.expectedFindings.length, s.matched, s.missed, falsePositives, byAgent⟩

def scoreSuite (pairs : List (GoldenCase × List Finding)) : SuiteScore := ⟨pairs.map fun p => scoreCase lower p.1 p.2⟩

end

/-! The findings that are matched. -/

section

variable {lower : Text → Text}

theorem scoreExpected_none {s : Scoring} {e : ExpectedFinding} (h : s.remaining.find? (e.matches lower) = none) :
    scoreExpected lower s e = { s with missed := s.missed ++ [GoldenCase.label e] } := by
  rw [scoreExpected, h]

theorem scoreExpected_some {s : Scoring} {e : ExpectedFinding} {hit : Finding}
    (h : s.remaining.find? (e.matches lower) = some hit) :
    scoreExpected lower s e = { s with remaining := s.remaining.erase hit, matched := s.matched + 1 } := by
  rw [scoreExpected, h]

variable (lower)

theorem matched_foldl (es : List ExpectedFinding) (s : Scoring) : (es.foldl (scoreExpected lower) s).matched =
    s.matched + (greedy (ExpectedFinding.matches lower) es s.remaining).length := by
  induction es generalizing s with
  | nil => rfl
  | cons e es ih =>
    rw [List.foldl_cons, ih]
    cases h : s.remaining.find? (e.matches lower) with
    | none => rw [greedy_none h, scoreExpected_none h]
    | some hit =>
      rw [greedy_some h, scoreExpected_some h, List.length_cons]
      dsimp only
      omega

theorem missed_foldl (es : List ExpectedFinding) (s : Scoring) : (es.foldl (scoreExpected lower) s).matched +
    (es.foldl (scoreExpected lower) s).missed.length = s.matched + s.missed.length + es.length := by
  induction es generalizing s with
  | nil => rfl
  | cons e es ih =>
    rw [List.foldl_cons, ih, List.length_cons]
    cases h : s.remaining.find? (e.matches lower) with
    | none =>
      rw [scoreExpected_none h, List.length_append, List.length_singleton]
      dsimp only
      omega
    | some hit =>
      rw [scoreExpected_some h]
      dsimp only
      omega

theorem scoreCase_matched (case : GoldenCase) (actual : List Finding) : (scoreCase lower case actual).matched =
    (greedy (ExpectedFinding.matches lower) case.expectedFindings actual).length := by
  have hh := matched_foldl lower case.expectedFindings ⟨actual, 0, []⟩
  rw [Nat.zero_add] at hh
  exact congrArg Nat.cast hh

theorem scoreCase_missed (case : GoldenCase) (actual : List Finding) :
    (scoreCase lower case actual).matched + (scoreCase lower case actual).missed.length =
      (scoreCase lower case actual).expected := by
  have hh := missed_foldl lower case.expectedFindings ⟨actual, 0, []⟩
  simp only [List.length_nil, Nat.zero_add] at hh
  have hint := congrArg (Nat.cast (R := Int)) hh
  rw [Nat.cast_add] at hint
  exact hint

theorem scoreCase_matched_le (case : GoldenCase) (actual : List Finding) :
    (scoreCase lower case actual).matched ≤ actual.length := by
  rw [scoreCase_matched]
  have hh := Multiset.card_le_card (greedy_pairing (ExpectedFinding.matches lower) case.expectedFindings actual).rights
  rw [Multiset.card_map, Multiset.coe_card, Multiset.coe_card] at hh
  exact_mod_cast hh

end

/-! The findings over a ceiling. -/

theorem getD_lookup_cons (k' : Text) (n : Nat) (rest : List (Text × Nat)) (k : Text) :
    (((k', n) :: rest).lookup k).getD 0 = if k' = k then n else (rest.lookup k).getD 0 := by
  by_cases h : k' = k
  · subst h
    rw [List.lookup_cons_self, if_pos rfl, Option.getD_some]
  · have hne : (k == k') = false := by simpa using fun he => h he.symm
    rw [List.lookup_cons, hne, if_neg h]

theorem lookup_bump (table : List (Text × Nat)) (key k : Text) :
    ((bump table key).lookup k).getD 0 = (table.lookup k).getD 0 + if key = k then 1 else 0 := by
  induction table with
  | nil =>
    rw [bump, getD_lookup_cons, List.lookup_nil, Option.getD_none]
    split_ifs <;> rfl
  | cons entry rest ih =>
    obtain ⟨k', n⟩ := entry
    rw [bump]
    by_cases hk : k' = key
    · rw [if_pos hk, getD_lookup_cons, getD_lookup_cons, hk]
      split_ifs <;> rfl
    · rw [if_neg hk, getD_lookup_cons, getD_lookup_cons, ih]
      by_cases h : k' = k
      · have hne : ¬key = k := fun he => hk (h.trans he.symm)
        rw [if_pos h, if_pos h, if_neg hne, Nat.add_zero]
      · rw [if_neg h, if_neg h]

theorem lookup_counter (keys : List Text) (k : Text) : ((counter keys).lookup k).getD 0 = keys.count k := by
  have hh : ∀ (keys : List Text) (table : List (Text × Nat)),
      ((keys.foldl bump table).lookup k).getD 0 = (table.lookup k).getD 0 + keys.count k := by
    intro keys
    induction keys with
    | nil => exact fun _ => rfl
    | cons key keys ih =>
      intro table
      rw [List.foldl_cons, ih, lookup_bump, List.count_cons]
      simp only [beq_iff_eq]
      omega
  have hnil := hh keys []
  rw [List.lookup_nil, Option.getD_none, Nat.zero_add] at hnil
  exact hnil

/-- How far an agent is over its ceiling. -/
def excess (actual : List Finding) (cap : AgentType × Int) : Int :=
  max 0 ((actual.countP (·.agentType = cap.1) : Nat) - cap.2)

theorem overCap_counter (actual : List Finding) (cap : AgentType × Int) :
    overCap (counter (actual.map (·.agentType.value))) cap = excess actual cap := by
  have hcount : (actual.map (·.agentType.value)).count cap.1.value = actual.countP (·.agentType = cap.1) := by
    rw [List.count, List.countP_map]
    refine List.countP_congr fun f _ => ?_
    simp only [Function.comp_apply, beq_iff_eq, decide_eq_true_eq]
    exact ⟨fun h => AgentType.value_injective h, fun h => h ▸ rfl⟩
  rw [overCap, lookup_counter, hcount, excess]

theorem scoreCase_falsePositives (lower : Text → Text) (case : GoldenCase) (actual : List Finding) :
    (scoreCase lower case actual).falsePositives = (case.expectMaxFindings.rows.map (excess actual)).sum := by
  have hfold : ∀ (caps : List (AgentType × Int)) (n : Int), caps.foldl (fun n cap =>
      n + overCap (counter (actual.map (·.agentType.value))) cap) n = n + (caps.map (excess actual)).sum := by
    intro caps
    induction caps with
    | nil => exact fun n => (Int.add_zero n).symm
    | cons cap caps ih =>
      intro n
      rw [List.foldl_cons, ih, overCap_counter, List.map_cons, List.sum_cons]
      omega
  have hh := hfold case.expectMaxFindings.rows 0
  rw [Int.zero_add] at hh
  exact hh

/-! One finding more. -/

section

variable {lower : Text → Text} {before after : List Finding} (x : Finding)

theorem matched_insert (case : GoldenCase) :
    (scoreCase lower case (before ++ x :: after)).matched = (scoreCase lower case (before ++ after)).matched ∨
      (scoreCase lower case (before ++ x :: after)).matched =
        (scoreCase lower case (before ++ after)).matched + 1 := by
  have hmore : OneMore (before ++ after) (before ++ x :: after) := ⟨before, x, after, rfl, rfl⟩
  rw [scoreCase_matched, scoreCase_matched]
  rcases length_greedy_oneMore (ExpectedFinding.matches lower) case.expectedFindings hmore with hh | hh
  · exact .inl (congrArg Nat.cast hh)
  · exact .inr (by rw [hh, Nat.cast_succ])

theorem countP_insert (agent : AgentType) : (before ++ x :: after).countP (·.agentType = agent) =
    (before ++ after).countP (·.agentType = agent) + if x.agentType = agent then 1 else 0 := by
  rw [List.countP_append, List.countP_append, List.countP_cons]
  simp only [decide_eq_true_eq]
  omega

theorem excess_insert_of_ne {cap : AgentType × Int} (h : cap.1 ≠ x.agentType) :
    excess (before ++ x :: after) cap = excess (before ++ after) cap := by
  rw [excess, excess, countP_insert, if_neg h.symm, Nat.add_zero]

theorem excess_insert (before after : List Finding) (cap : AgentType × Int) :
    excess (before ++ x :: after) cap = excess (before ++ after) cap ∨
      excess (before ++ x :: after) cap = excess (before ++ after) cap + 1 := by
  rw [excess, excess, countP_insert]
  generalize (before ++ after).countP (·.agentType = cap.1) = n
  split_ifs <;> omega

theorem sum_excess_insert {caps : List (AgentType × Int)} (hcaps : (caps.map Prod.fst).Nodup) :
    (caps.map (excess (before ++ x :: after))).sum = (caps.map (excess (before ++ after))).sum ∨
      (caps.map (excess (before ++ x :: after))).sum = (caps.map (excess (before ++ after))).sum + 1 := by
  induction caps with
  | nil => exact .inl rfl
  | cons cap caps ih =>
    rw [List.map_cons, List.nodup_cons] at hcaps
    simp only [List.map_cons, List.sum_cons]
    by_cases h : cap.1 = x.agentType
    · have hrest : caps.map (excess (before ++ x :: after)) = caps.map (excess (before ++ after)) := by
        refine List.map_congr_left fun cap' hcap' => excess_insert_of_ne x fun he => hcaps.1 ?_
        rw [h, ← he]
        exact List.mem_map_of_mem hcap'
      rw [hrest]
      rcases excess_insert x before after cap with hh | hh <;> rw [hh] <;> omega
    · rw [excess_insert_of_ne x h]
      rcases ih hcaps.2 with hh | hh <;> rw [hh] <;> omega

theorem falsePositives_insert (case : GoldenCase) :
    (scoreCase lower case (before ++ x :: after)).falsePositives =
        (scoreCase lower case (before ++ after)).falsePositives ∨
      (scoreCase lower case (before ++ x :: after)).falsePositives =
        (scoreCase lower case (before ++ after)).falsePositives + 1 := by
  rw [scoreCase_falsePositives, scoreCase_falsePositives]
  exact sum_excess_insert x case.expectMaxFindings.keys_nodup

end

theorem recall_mono {s s' : CaseScore} (hexp : s'.expected = s.expected) (hpos : 0 ≤ s.expected)
    (h : s.matched ≤ s'.matched) : s.recall ≤ s'.recall := by
  unfold CaseScore.recall
  rw [hexp]
  split_ifs with hzero
  · exact le_rfl
  · have hle : (s.matched : ℚ) ≤ s'.matched := by exact_mod_cast h
    have he : (0 : ℚ) ≤ s.expected := by exact_mod_cast hpos
    exact toDouble_monotone (div_le_div_of_nonneg_right hle he)

/-- A finding more is matched or not, over a ceiling or not, and costs nothing else. -/
theorem scoreCase_insert (lower : Text → Text) (case : GoldenCase) (before after : List Finding) (x : Finding) :
    let s := scoreCase lower case (before ++ after)
    let s' := scoreCase lower case (before ++ x :: after)
    (s'.matched = s.matched ∨ s'.matched = s.matched + 1) ∧
      (s'.falsePositives = s.falsePositives ∨ s'.falsePositives = s.falsePositives + 1) ∧
      s.recall ≤ s'.recall ∧
      (s.matched + s.missed.length = s.expected ∧ s'.matched + s'.missed.length = s'.expected) ∧
      s.matched ≤ (before ++ after).length ∧ s'.matched ≤ (before ++ x :: after).length := by
  intro s s'
  have hmatched : s'.matched = s.matched ∨ s'.matched = s.matched + 1 := matched_insert x case
  have hrecall : s.recall ≤ s'.recall := by
    refine recall_mono rfl (Int.natCast_nonneg _) ?_
    omega
  exact ⟨hmatched, falsePositives_insert x case, hrecall, ⟨scoreCase_missed lower case _, scoreCase_missed lower case _⟩,
    scoreCase_matched_le lower case _, scoreCase_matched_le lower case _⟩

end AiPrReview
