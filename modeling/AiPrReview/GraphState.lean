import AiPrReview.ReviewPrograms

/-! What crosses the state of the review graph: the findings as JSON, and the
aggregate node, which reads them back from the entries of the specialists. -/

namespace AiPrReview

inductive Json : Type where
  | null
  | bool (b : Bool)
  | int (n : Int)
  | float (q : ℚ)
  | str (t : Text)
  | arr (items : List Json)
  | obj (fields : List (Text × Json))

namespace Json

def asStr : Json → Option Text
  | str t => some t
  | _ => none

def asInt : Json → Option Int
  | int n => some n
  | float q => if q.den = 1 then some q.num else none
  | _ => none

def asOptionalInt : Json → Option (Option Int)
  | null => some none
  | j => j.asInt.map some

def asConfidence : Json → Option Confidence
  | float q => if h : 0 ≤ q ∧ q ≤ 1 then some ⟨q, h.1, h.2⟩ else none
  | int n => if h : 0 ≤ (n : ℚ) ∧ (n : ℚ) ≤ 1 then some ⟨n, h.1, h.2⟩ else none
  | _ => none

def field (name : Text) : List (Text × Json) → Option Json
  | [] => none
  | (key, j) :: fields => if key = name then some j else field name fields

end Json

def AgentType.ofValue (t : Text) : Option AgentType :=
  [security, quality, tests, docs].find? (·.value = t)

def Severity.ofValue (t : Text) : Option Severity :=
  severityOrder.find? (·.value = t)

namespace Finding

def fieldNames : List Text :=
  ["agent_type", "severity", "category", "file", "line", "confidence", "title", "rationale"].map String.toList

/-- `model_dump(mode="json")`. -/
def modelDump (f : Finding) : Json :=
  .obj [("agent_type".toList, .str f.agentType.value), ("severity".toList, .str f.severity.value),
    ("category".toList, .str f.category), ("file".toList, .str f.file),
    ("line".toList, f.line.elim .null .int), ("confidence".toList, .float f.confidence.val),
    ("title".toList, .str f.title), ("rationale".toList, .str f.rationale)]

/-- `model_validate`; `none` is a `ValidationError`. Strings that spell numbers,
which the lax mode reads as numbers, are refused here. -/
def modelValidate : Json → Option Finding
  | .obj fields => do
    if fields.all fun f => fieldNames.contains f.1 then
      let agentType ← ((Json.field "agent_type".toList fields).bind Json.asStr).bind AgentType.ofValue
      let severity ← ((Json.field "severity".toList fields).bind Json.asStr).bind Severity.ofValue
      let category ← (Json.field "category".toList fields).bind Json.asStr
      let file ← (Json.field "file".toList fields).bind Json.asStr
      let line ← ((Json.field "line".toList fields).getD .null).asOptionalInt
      let confidence ← (Json.field "confidence".toList fields).bind Json.asConfidence
      let title ← (Json.field "title".toList fields).bind Json.asStr
      let rationale ← (Json.field "rationale".toList fields).bind Json.asStr
      return ⟨agentType, severity, category, file, line, confidence, title, rationale⟩
    else none
  | _ => none

end Finding

/-- An entry of the `specialist_results` channel. -/
structure SpecialistResult : Type where
  agent : Text
  findings : List Json

/-- What the node of the specialist `name` appends to the channel. -/
def specialistResult (name : AgentType) (findings : List Finding) : SpecialistResult :=
  ⟨name.value, findings.map Finding.modelDump⟩

def readResult (entry : SpecialistResult) : Option (Text × List Finding) :=
  (entry.findings.mapM Finding.modelValidate).map (entry.agent, ·)

/-- `aggregate_node`, which raises before its first call when an entry holds no
findings. -/
def aggregateStateNode (repo : Text) (prNumber : Int) (deliveryId : Text) (threshold : ℚ)
    (specialistResults : List SpecialistResult) : Option (ReviewProg Aggregated) := do
  let byAgent ← specialistResults.mapM readResult
  let findingsByAgent := specialistNames.map fun name =>
    ((byAgent.reverse.find? fun e => e.1 = name.value).map Prod.snd).getD []
  return aggregate repo prNumber deliveryId findingsByAgent threshold >>= fun result =>
    pure ⟨result.reviewId, result.decision, result.overallConfidence, result.githubReviewId,
      result.hitlReviewId, result.dedupedFindings.length⟩

/-! The crossing loses nothing. -/

theorem AgentType.ofValue_value (t : AgentType) : AgentType.ofValue t.value = some t := by
  cases t <;> decide

theorem Severity.ofValue_value (s : Severity) : Severity.ofValue s.value = some s := by
  cases s <;> decide

theorem Json.asConfidence_float (c : Confidence) : (Json.float c.val).asConfidence = some c := by
  have hc : 0 ≤ c.val ∧ c.val ≤ 1 := ⟨c.nonneg, c.le_one⟩
  simp [Json.asConfidence, hc]

theorem Json.asOptionalInt_line (line : Option Int) :
    (line.elim Json.null Json.int).asOptionalInt = some line := by
  cases line <;> rfl

theorem Finding.modelValidate_modelDump (f : Finding) : modelValidate f.modelDump = some f := by
  have hline : (f.line.elim Json.null Json.int).asOptionalInt = some f.line := Json.asOptionalInt_line f.line
  have hconfidence : (Json.float f.confidence.val).asConfidence = some f.confidence :=
    Json.asConfidence_float f.confidence
  change (AgentType.ofValue f.agentType.value).bind _ = some f
  rw [AgentType.ofValue_value]
  change (Severity.ofValue f.severity.value).bind _ = some f
  rw [Severity.ofValue_value]
  change (f.line.elim Json.null Json.int).asOptionalInt.bind _ = some f
  rw [hline]
  change (Json.float f.confidence.val).asConfidence.bind _ = some f
  rw [hconfidence]
  rfl

theorem readResult_specialistResult (name : AgentType) (findings : List Finding) :
    readResult (specialistResult name findings) = some (name.value, findings) := by
  have hall : (findings.map Finding.modelDump).mapM Finding.modelValidate = some findings := by
    induction findings with
    | nil => rfl
    | cons f fs ih => simp [List.mapM_cons, Finding.modelValidate_modelDump, ih]
  simp [readResult, specialistResult, hall]

/-- On what the specialists append, the node is the aggregate of their findings. -/
theorem aggregateStateNode_results (repo : Text) (prNumber : Int) (d : Text) (threshold : ℚ)
    (entries : List (AgentType × List Finding)) :
    aggregateStateNode repo prNumber d threshold (entries.map fun e => specialistResult e.1 e.2) =
      some (aggregateNode repo prNumber d threshold entries) := by
  have hread : (entries.map fun e => specialistResult e.1 e.2).mapM readResult =
      some (entries.map fun e => (e.1.value, e.2)) := by
    induction entries with
    | nil => rfl
    | cons e es ih => simp [List.mapM_cons, readResult_specialistResult, ih]
  have hfind : ∀ name : AgentType,
      (((entries.map fun e => (e.1.value, e.2)).reverse.find? fun e => e.1 = name.value).map Prod.snd).getD [] =
        findingsOf entries name := by
    intro name
    rw [findingsOf, ← List.map_reverse, List.find?_map, Option.map_map]
    simp only [Function.comp_def, AgentType.value_injective.eq_iff]
  simp only [aggregateStateNode, hread, Option.bind_eq_bind, Option.bind_some, hfind]
  rfl

theorem findingsOf_of_perm {assign : AgentType → List Finding} {order : List AgentType}
    (h : order.Perm specialistNames) (name : AgentType) :
    findingsOf (order.map fun n => (n, assign n)) name = assign name := by
  have hmem : name ∈ order := h.mem_iff.mpr (by cases name <;> decide)
  have hfind : (order.reverse.find? fun n => n = name) = some name := by
    cases hf : order.reverse.find? fun n => n = name with
    | none => simpa [hmem] using List.find?_eq_none.mp hf name
    | some n => simpa using List.find?_some hf
  rw [findingsOf, ← List.map_reverse, List.find?_map, Option.map_map]
  simp only [Function.comp_def, hfind, Option.map_some, Option.getD_some]

/-- In whatever order the entries of the four specialists reach the channel,
their findings are read back as they were, and the node does the same. -/
theorem aggregateStateNode_perm (repo : Text) (prNumber : Int) (d : Text) (threshold : ℚ)
    (assign : AgentType → List Finding) {order order' : List AgentType}
    (h : order.Perm specialistNames) (h' : order'.Perm specialistNames) :
    (∀ name, readResult (specialistResult name (assign name)) = some (name.value, assign name)) ∧
      aggregateStateNode repo prNumber d threshold (order.map fun n => specialistResult n (assign n)) =
        aggregateStateNode repo prNumber d threshold (order'.map fun n => specialistResult n (assign n)) ∧
      aggregateStateNode repo prNumber d threshold (order.map fun n => specialistResult n (assign n)) =
        some (aggregateNode repo prNumber d threshold (specialistNames.map fun n => (n, assign n))) := by
  have hnode : ∀ {o : List AgentType}, o.Perm specialistNames →
      aggregateStateNode repo prNumber d threshold (o.map fun n => specialistResult n (assign n)) =
        some (aggregateNode repo prNumber d threshold (specialistNames.map fun n => (n, assign n))) := by
    intro o ho
    have hh := aggregateStateNode_results repo prNumber d threshold (o.map fun n => (n, assign n))
    rw [List.map_map] at hh
    refine hh.trans (congrArg some ?_)
    have hfamily : specialistNames.map (findingsOf (o.map fun n => (n, assign n))) =
        specialistNames.map (findingsOf (specialistNames.map fun n => (n, assign n))) := by
      refine List.map_congr_left fun n _ => ?_
      rw [findingsOf_of_perm ho, findingsOf_of_perm (List.Perm.refl _)]
    simp only [aggregateNode, hfamily]
  exact ⟨fun name => readResult_specialistResult name (assign name), (hnode h).trans (hnode h').symm, hnode h⟩

theorem zero_le_one_half : (0 : ℚ) ≤ 1 / 2 := by norm_num

theorem one_half_le_one : (1 / 2 : ℚ) ≤ 1 := by norm_num

def sameLine (agent : AgentType) : List Finding :=
  [⟨agent, .high, "sql-injection".toList, "app/db.py".toList, some 4, ⟨1 / 2, zero_le_one_half, one_half_le_one⟩,
    "raw query".toList, "built from input".toList⟩]

/-- Four findings of one line, equally confident, that arrive in reverse. -/
theorem aggregateStateNode_perm_reversed :
    aggregateStateNode "acme/api".toList 7 "72d3162e".toList (3 / 4)
        (specialistNames.map fun n => specialistResult n (sameLine n)) =
      aggregateStateNode "acme/api".toList 7 "72d3162e".toList (3 / 4)
        (specialistNames.reverse.map fun n => specialistResult n (sameLine n)) :=
  (aggregateStateNode_perm _ _ _ _ sameLine (List.Perm.refl _) (List.reverse_perm _)).2.1

end AiPrReview
