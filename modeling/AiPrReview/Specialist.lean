import AiPrReview.Findings
import AiPrReview.InjectionGuard
import AiPrReview.Pool

/-! A specialist agent: its prompt, and one traced review run over the events
spine, with the budget guard in front when the agent has one. -/

namespace AiPrReview

/-! `textwrap.dedent`. -/

def isBlankChar (c : Char) : Bool := c == ' ' || c == '\t'

def commonPrefix : Text → Text → Text
  | a :: as, b :: bs => if a = b then a :: commonPrefix as bs else []
  | _, _ => []

def margin (lines : List Text) : Text :=
  match (lines.filter (· ≠ [])).map fun l => l.takeWhile isBlankChar with
  | [] => []
  | indent :: indents => indents.foldl commonPrefix indent

def dedent (text : Text) : Text :=
  let lines := (text.splitOn '\n').map fun l => if l.all isBlankChar then [] else l
  let m := margin lines
  joinWith ['\n'] (lines.map fun l => if m.isPrefixOf l then l.drop m.length else l)

structure DiffContext : Type where
  repoFullName : Text
  prNumber : Int
  diffText : Text

structure RetrievedChunk : Type where
  path : Text
  content : Text

structure FindingDraft : Type where
  severity : Severity
  category : Text
  file : Text
  line : Option Int
  confidence : Confidence
  title : Text
  rationale : Text

def Finding.fromDraft (d : FindingDraft) (agentType : AgentType) : Finding :=
  ⟨agentType, d.severity, d.category, d.file, d.line, d.confidence, d.title, d.rationale⟩

/-- What the model returned: its token counts, if it gave any, and the parsed draft. -/
structure Completion : Type where
  usage : Option (Nat × Nat)
  parsed : Option (List FindingDraft)

def usageOf (c : Completion) : Nat × Nat := c.usage.getD (0, 0)

/-! The events spine. -/

inductive EventType : Type where
  | spanStart
  | spanEnd
  | llmCall
  | toolCall
  | decision
  deriving DecidableEq

inductive EventPayload : Type where
  | promptVersion (v : Text)
  | retrieval (k hits : Nat)

/-- The arguments of `emit` that a specialist gives, its latencies apart. -/
structure Event : Type where
  reviewId : Text
  agent : AgentType
  eventType : EventType
  model : Option Text
  tokensIn : Option Nat
  tokensOut : Option Nat
  outcome : Option Text
  payload : Option EventPayload

def pricePer1M (model : Text) : ℚ × ℚ :=
  if model = "gpt-5.4-mini".toList then (15 / 100, 60 / 100)
  else if model = "gpt-5.4".toList then (250 / 100, 1000 / 100)
  else if model = "text-embedding-3-small".toList then (2 / 100, 0)
  else (50 / 100, 150 / 100)

def costUsd (model : Text) (tokensIn tokensOut : Nat) : ℚ :=
  (tokensIn * (pricePer1M model).1 + tokensOut * (pricePer1M model).2) / 1000000

/-- A `NUMERIC(10,6)`, in millionths. -/
def toMicros (q : ℚ) : Nat := ⌊q * 1000000 + 1 / 2⌋₊

/-- A row of `agent_events`, with the day of its time stamp. -/
structure AgentEvent : Type where
  day : Nat
  event : Event
  costMicros : Option Nat

/-- The cost that `emit` stamps on a row. -/
def stampedCost (e : Event) : Option Nat :=
  match e.eventType, e.model with
  | .llmCall, some model => some (toMicros (costUsd model (e.tokensIn.getD 0) (e.tokensOut.getD 0)))
  | _, _ => none

/-- The spine and the current day; rows are stamped when they are written. -/
structure Spine : Type where
  today : Nat
  rows : List AgentEvent
  stamped : ∀ r ∈ rows, r.day ≤ today

namespace Spine

def append (s : Spine) (e : Event) : Spine :=
  ⟨s.today, s.rows ++ [⟨s.today, e, stampedCost e⟩], by
    intro r hr
    rcases List.mem_append.mp hr with hr | hr
    · exact s.stamped r hr
    · rw [List.mem_singleton.mp hr]⟩

def micros (rows : List AgentEvent) : Nat := (rows.map fun r => r.costMicros.getD 0).sum

def recordedToday (s : Spine) : Nat := micros (s.rows.filter fun r => r.day == s.today)

/-- `spend_today_usd`: the exact sum, as the nearest double. -/
def spendTodayUsd (s : Spine) : ℚ := toDouble (s.recordedToday / 1000000)

end Spine

/-! The calls of a specialist run; the reply `none` is an exception. -/

inductive SpecialistCall : Type where
  | spendTodayUsd
  | emit (e : Event)
  | retrieve (repo queryText : Text) (k : Nat)
  | parse (model system user : Text)

def SpecialistCall.Reply : SpecialistCall → Type
  | spendTodayUsd => Option ℚ
  | emit _ => Option Unit
  | retrieve .. => Option (List RetrievedChunk)
  | parse .. => Option Completion

/-- How a call goes: it may raise before it had its effect, or after. -/
inductive Answer : Type where
  | ok
  | raises
  | lost
  | chunks (l : List RetrievedChunk)
  | completion (c : Completion)

def SpecialistCall.exec : (c : SpecialistCall) → Answer → Spine → Option (c.Reply × Spine)
  | spendTodayUsd, .ok, s => some (some s.spendTodayUsd, s)
  | spendTodayUsd, .raises, s => some (none, s)
  | emit e, .ok, s => some (some (), s.append e)
  | emit e, .lost, s => some (none, s.append e)
  | emit _, .raises, s => some (none, s)
  | retrieve .., .chunks l, s => some (some l, s)
  | retrieve .., .raises, s => some (none, s)
  | parse .., .completion c, s => some (some c, s)
  | parse .., .raises, s => some (none, s)
  | _, _, _ => none

abbrev SpecialistProg : Type → Type := Prog SpecialistCall.Reply

/-- Nothing is retried; a day may pass. -/
def spineHost : Host SpecialistCall.Reply Answer Spine where
  exec := SpecialistCall.exec
  retries _ := false
  drift s s' := s.today < s'.today ∧ s'.rows = s.rows

structure BudgetGuard : Type where
  dailyCapUsd : ℚ
  is_double : toDouble dailyCapUsd = dailyCapUsd

/-- An agent; `isWord` is the class `\w` its guard's patterns use. -/
structure SpecialistAgent : Type where
  agentType : AgentType
  systemPrompt : Text
  promptVersion : Option Text
  model : Text
  groundingK : Nat
  budget : Option BudgetGuard
  guard : InjectionGuard
  isWord : Char → Bool

/-- `check`: the run goes on with `rest` if the cap is not reached. -/
def BudgetGuard.check {α : Type} (g : BudgetGuard) (rest : SpecialistProg (Option α)) :
    SpecialistProg (Option α) :=
  .call .spendTodayUsd fun
    | none => .ret none
    | some spend => if g.dailyCapUsd ≤ spend then .ret none else rest

namespace SpecialistAgent

variable (a : SpecialistAgent)

def buildPrompt (diff : DiffContext) (grounding : List RetrievedChunk) : Text :=
  let contextBlock :=
    if grounding = [] then "(no related codebase context retrieved)".toList
    else joinWith "\n\n".toList
      (grounding.map fun c => a.guard.wrap a.isWord ("CHUNK ".toList ++ c.path) c.content)
  let diffBlock := a.guard.wrap a.isWord "PR DIFF".toList diff.diffText
  strip (dedent (
    "\n            Repository: ".toList ++ diff.repoFullName ++
    "\n            Pull request: #".toList ++ intText diff.prNumber ++
    "\n\n            ## Diff under review\n            ".toList ++ diffBlock ++
    "\n\n            ## Retrieved codebase context (grounding — use this, don't guess)\n            ".toList ++
    contextBlock ++ "\n            ".toList))

def retrieve (diff : DiffContext) : SpecialistProg (Option (List RetrievedChunk)) :=
  .perform (SpecialistCall.retrieve diff.repoFullName diff.diffText a.groundingK)

def parseCompletion (diff : DiffContext) (grounding : List RetrievedChunk) :
    SpecialistProg (Option Completion) :=
  .perform (SpecialistCall.parse a.model (a.systemPrompt ++ "\n\n".toList ++ a.guard.hardeningClause)
    (a.buildPrompt diff grounding))

def findings (drafts : List FindingDraft) : List Finding :=
  drafts.map fun d => Finding.fromDraft d a.agentType

/-- `_call_llm`: nothing parsed is nothing to report. -/
def callLlm (diff : DiffContext) (grounding : List RetrievedChunk) :
    SpecialistProg (Option (List Finding)) := do
  match ← a.parseCompletion diff grounding with
  | none => return none
  | some completion => return some (a.findings (completion.parsed.getD []))

def event (reviewId : Text) (eventType : EventType) : Event :=
  ⟨reviewId, a.agentType, eventType, none, none, none, none, none⟩

def emit (e : Event) : SpecialistProg (Option Unit) := .perform (SpecialistCall.emit e)

/-- The `try` block: its outcome, and its findings unless it raised. -/
def traced (diff : DiffContext) (reviewId : Text) : SpecialistProg (Text × Option (List Finding)) := do
  match ← a.retrieve diff with
  | none => return ("error".toList, none)
  | some grounding =>
    match ← emit { a.event reviewId .toolCall with
        outcome := some "ok".toList, payload := some (.retrieval a.groundingK grounding.length) } with
    | none => return ("error".toList, none)
    | some () =>
      match ← a.parseCompletion diff grounding with
      | none => return ("error".toList, none)
      | some completion =>
        match ← emit { a.event reviewId .llmCall with
            model := some a.model, tokensIn := some (usageOf completion).1,
            tokensOut := some (usageOf completion).2, outcome := some "ok".toList } with
        | none => return ("error".toList, none)
        | some () =>
          match completion.parsed with
          | none => return ("empty".toList, some [])
          | some drafts => return ("ok".toList, some (a.findings drafts))

def tracedReview (diff : DiffContext) (reviewId : Text) : SpecialistProg (Option (List Finding)) := do
  match ← emit { a.event reviewId .spanStart with
      payload := (a.promptVersion.filter (· ≠ [])).map .promptVersion } with
  | none => return none
  | some () =>
    let (outcome, result) ← a.traced diff reviewId
    match ← emit { a.event reviewId .spanEnd with outcome := some outcome } with
    | none => return none
    | some () => return result

def review (diff : DiffContext) : Option Text → SpecialistProg (Option (List Finding))
  | none => do
    match ← a.retrieve diff with
    | none => return none
    | some grounding => a.callLlm diff grounding
  | some reviewId =>
    match a.budget with
    | none => a.tracedReview diff reviewId
    | some g => g.check (a.tracedReview diff reviewId)

end SpecialistAgent

/-! The composition root of the worker. The prompts come from files, the tags
are random. -/

structure AgentParts : Type where
  prompt : Text
  promptVersion : Text
  guard : InjectionGuard
  isWord : Char → Bool

/-- The agent that `startup` builds: no budget is handed to it. -/
def startupAgent (parts : AgentType → AgentParts) (t : AgentType) : SpecialistAgent where
  agentType := t
  systemPrompt := (parts t).prompt
  promptVersion := some (parts t).promptVersion
  model := "gpt-5.4-mini".toList
  groundingK := 5
  budget := none
  guard := (parts t).guard
  isWord := (parts t).isWord

/-- The specialist nodes that `run_review` drives always carry a review id. -/
def specialistRun (parts : AgentType → AgentParts) (p : SpecialistProg (Option (List Finding))) : Prop :=
  ∃ t diff reviewId, p = (startupAgent parts t).review diff (some reviewId)

end AiPrReview
