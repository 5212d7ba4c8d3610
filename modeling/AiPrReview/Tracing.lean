import AiPrReview.Specialist

/-! A specialist run with and without a review id, where each exception has an
identity: the run without one is the plain path, the run with one is traced. -/

namespace AiPrReview.Tracing

variable {Err : Type}

structure ChatCompletion : Type where
  usage : Option (Nat × Nat)
  choices : List (Option (List FindingDraft))

def usageOf (c : ChatCompletion) : Nat × Nat := c.usage.getD (0, 0)

/-- What may raise between two calls: indexing an empty list, and `Finding.from_draft`. -/
structure Raising (Err : Type) : Type where
  indexError : Err
  fromDraft : FindingDraft → AgentType → Except Err Finding

inductive Call : Type where
  | checkBudget (agent : AgentType)
  | emit (e : Event)
  | retrieve (repo queryText : Text) (k : Nat)
  | parse (model system user : Text)

def Call.Reply (Err : Type) : Call → Type
  | checkBudget _ => Except Err Unit
  | emit _ => Except Err Unit
  | retrieve .. => Except Err (List RetrievedChunk)
  | parse .. => Except Err ChatCompletion

abbrev ReviewProg (Err : Type) : Type → Type := Prog (Call.Reply Err)

section

variable (py : Raising Err) (a : SpecialistAgent)

/-- `completion.choices[0].message.parsed`. -/
def parsedDraft (c : ChatCompletion) : Except Err (Option (List FindingDraft)) :=
  match c.choices with
  | [] => .error py.indexError
  | parsed :: _ => .ok parsed

def stamp (drafts : List FindingDraft) : Except Err (List Finding) :=
  drafts.mapM fun d => py.fromDraft d a.agentType

def checkBudget : ReviewProg Err (Except Err Unit) := .perform (Call.checkBudget a.agentType)

def retrieve (diff : DiffContext) : ReviewProg Err (Except Err (List RetrievedChunk)) :=
  .perform (Call.retrieve diff.repoFullName diff.diffText a.groundingK)

def parseCall (diff : DiffContext) (grounding : List RetrievedChunk) : Call :=
  .parse a.model (a.systemPrompt ++ "\n\n".toList ++ a.guard.hardeningClause) (a.buildPrompt diff grounding)

def parseCompletion (diff : DiffContext) (grounding : List RetrievedChunk) :
    ReviewProg Err (Except Err ChatCompletion) :=
  .perform (parseCall a diff grounding)

def emit (e : Event) : ReviewProg Err (Except Err Unit) := .perform (Call.emit e)

/-- `_call_llm` on the completion. -/
def plainFindings (c : ChatCompletion) : Except Err (List Finding) := do
  match ← parsedDraft py c with
  | none => return []
  | some drafts => stamp py a drafts

def callLlm (diff : DiffContext) (grounding : List RetrievedChunk) : ReviewProg Err (Except Err (List Finding)) := do
  match ← parseCompletion a diff grounding with
  | .error e => return .error e
  | .ok completion => return plainFindings py a completion

/-- The end of the `try` block: the outcome that `finally` reports, and the findings. -/
def tracedFindings (c : ChatCompletion) : Text × Except Err (List Finding) :=
  match parsedDraft py c with
  | .error e => ("error".toList, .error e)
  | .ok none => ("empty".toList, .ok [])
  | .ok (some drafts) =>
    match stamp py a drafts with
    | .error e => ("error".toList, .error e)
    | .ok findings => ("ok".toList, .ok findings)

def spanStart (reviewId : Text) : Event :=
  { a.event reviewId .spanStart with payload := (a.promptVersion.filter (· ≠ [])).map .promptVersion }

def toolCall (reviewId : Text) (grounding : List RetrievedChunk) : Event :=
  { a.event reviewId .toolCall with
    outcome := some "ok".toList, payload := some (.retrieval a.groundingK grounding.length) }

def llmCall (reviewId : Text) (completion : ChatCompletion) : Event :=
  { a.event reviewId .llmCall with
    model := some a.model, tokensIn := some (usageOf completion).1, tokensOut := some (usageOf completion).2,
    outcome := some "ok".toList }

def spanEnd (reviewId outcome : Text) : Event := { a.event reviewId .spanEnd with outcome := some outcome }

def tryBlock (diff : DiffContext) (reviewId : Text) : ReviewProg Err (Text × Except Err (List Finding)) := do
  match ← retrieve a diff with
  | .error e => return ("error".toList, .error e)
  | .ok grounding =>
    match ← emit (toolCall a reviewId grounding) with
    | .error e => return ("error".toList, .error e)
    | .ok () =>
      match ← parseCompletion a diff grounding with
      | .error e => return ("error".toList, .error e)
      | .ok completion =>
        match ← emit (llmCall a reviewId completion) with
        | .error e => return ("error".toList, .error e)
        | .ok () => return tracedFindings py a completion

/-- An exception of the `finally` block takes the place of that of the `try` block. -/
def tracedReview (diff : DiffContext) (reviewId : Text) : ReviewProg Err (Except Err (List Finding)) := do
  match ← emit (spanStart a reviewId) with
  | .error e => return .error e
  | .ok () =>
    let (outcome, result) ← tryBlock py a diff reviewId
    match ← emit (spanEnd a reviewId outcome) with
    | .error e => return .error e
    | .ok () => return result

def review (diff : DiffContext) : Option Text → ReviewProg Err (Except Err (List Finding))
  | none => do
    match ← retrieve a diff with
    | .error e => return .error e
    | .ok grounding => callLlm py a diff grounding
  | some reviewId =>
    if a.budget.isSome then do
      match ← checkBudget a with
      | .error e => return .error e
      | .ok () => tracedReview py a diff reviewId
    else tracedReview py a diff reviewId

end

/-! One behaviour of the world around an agent, with a spine that takes every event. -/

structure Behaviour (Err : Type) : Type where
  budget : AgentType → Except Err Unit
  retriever : Text → Text → Nat → Except Err (List RetrievedChunk)
  llm : Text → Text → Text → Except Err ChatCompletion

def Behaviour.answer (b : Behaviour Err) : (c : Call) → c.Reply Err
  | .checkBudget agent => b.budget agent
  | .emit _ => .ok ()
  | .retrieve repo queryText k => b.retriever repo queryText k
  | .parse model system user => b.llm model system user

def Call.event? : Call → Option Event
  | emit e => some e
  | _ => none

def emitted (calls : List Call) : List Event := calls.filterMap Call.event?

/-- The calls that are not part of the tracing. -/
def asked (calls : List Call) : List Call := calls.filter fun c => c.event?.isNone

section

variable (py : Raising Err) (a : SpecialistAgent) (b : Behaviour Err) (diff : DiffContext)

/-- What the retriever says, and what the model says then. -/
def Behaviour.grounding : Except Err (List RetrievedChunk) :=
  b.retriever diff.repoFullName diff.diffText a.groundingK

def Behaviour.reply (grounding : List RetrievedChunk) : Except Err ChatCompletion :=
  b.answer (parseCall a diff grounding)

def Behaviour.completion : Except Err ChatCompletion := do
  let grounding ← b.grounding a diff
  b.reply a diff grounding

/-! One call of each kind. -/

section

variable {α : Type}

theorem checkBudget_played (f : Except Err Unit → ReviewProg Err α) : (checkBudget a >>= f).played b.answer =
    (.checkBudget a.agentType :: ((f (b.budget a.agentType)).played b.answer).1,
      ((f (b.budget a.agentType)).played b.answer).2) := rfl

theorem retrieve_played (f : Except Err (List RetrievedChunk) → ReviewProg Err α) :
    (retrieve a diff >>= f).played b.answer =
      (.retrieve diff.repoFullName diff.diffText a.groundingK :: ((f (b.grounding a diff)).played b.answer).1,
        ((f (b.grounding a diff)).played b.answer).2) := rfl

theorem parse_played (grounding : List RetrievedChunk) (f : Except Err ChatCompletion → ReviewProg Err α) :
    (parseCompletion a diff grounding >>= f).played b.answer =
      (parseCall a diff grounding :: ((f (b.reply a diff grounding)).played b.answer).1,
        ((f (b.reply a diff grounding)).played b.answer).2) := rfl

theorem emit_played (e : Event) (f : Except Err Unit → ReviewProg Err α) : (emit e >>= f).played b.answer =
    (.emit e :: ((f (.ok ())).played b.answer).1, ((f (.ok ())).played b.answer).2) := rfl

theorem emitted_emit (e : Event) (calls : List Call) : emitted (.emit e :: calls) = e :: emitted calls := rfl

theorem emitted_append (calls calls' : List Call) : emitted (calls ++ calls') = emitted calls ++ emitted calls' :=
  List.filterMap_append

theorem asked_append (calls calls' : List Call) : asked (calls ++ calls') = asked calls ++ asked calls' :=
  List.filter_append ..

end

/-! The `try` block next to the plain path. -/

def settle : Except Err ChatCompletion → Text × Except Err (List Finding)
  | .error e => ("error".toList, .error e)
  | .ok completion => tracedFindings py a completion

def returned {α : Type} (event : α → Event) : Except Err α → List Event
  | .ok x => [event x]
  | .error _ => []

theorem plainFindings_eq (c : ChatCompletion) : plainFindings py a c = (tracedFindings py a c).2 := by
  unfold plainFindings tracedFindings
  cases parsedDraft py c with
  | error e => rfl
  | ok draft =>
    cases draft with
    | none => rfl
    | some drafts =>
      cases h : stamp py a drafts with
      | error e => simp only [h, Except.bind, bind]
      | ok findings => simp only [h, Except.bind, bind]

theorem tryBlock_played (reviewId : Text) : ((tryBlock py a diff reviewId).played b.answer).2 =
      settle py a (b.completion a diff) ∧
    emitted ((tryBlock py a diff reviewId).played b.answer).1 =
      returned (toolCall a reviewId) (b.grounding a diff) ++ returned (llmCall a reviewId) (b.completion a diff) ∧
    ((review py a diff none).played b.answer).2 = (settle py a (b.completion a diff)).2 ∧
    asked ((tryBlock py a diff reviewId).played b.answer).1 = ((review py a diff none).played b.answer).1 := by
  unfold tryBlock review
  rw [retrieve_played, retrieve_played]
  cases hg : b.grounding a diff with
  | error e =>
    have hc : b.completion a diff = .error e := by rw [Behaviour.completion, hg]; rfl
    rw [hc]
    exact ⟨rfl, rfl, rfl, rfl⟩
  | ok grounding =>
    have hc : b.completion a diff = b.reply a diff grounding := by rw [Behaviour.completion, hg]; rfl
    unfold callLlm
    dsimp only
    rw [hc, emit_played, parse_played, parse_played]
    cases b.reply a diff grounding with
    | error e => exact ⟨rfl, rfl, rfl, rfl⟩
    | ok completion =>
      dsimp only
      rw [emit_played]
      exact ⟨rfl, rfl, plainFindings_eq py a completion, rfl⟩

theorem plain_emits_nothing : emitted ((review py a diff none).played b.answer).1 = [] := by
  unfold review
  rw [retrieve_played]
  cases b.grounding a diff with
  | error e => rfl
  | ok grounding =>
    unfold callLlm
    dsimp only
    rw [parse_played]
    cases b.reply a diff grounding <;> rfl

theorem tracedReview_played (reviewId : Text) : (tracedReview py a diff reviewId).played b.answer =
    (.emit (spanStart a reviewId) :: (((tryBlock py a diff reviewId).played b.answer).1 ++
        [.emit (spanEnd a reviewId (settle py a (b.completion a diff)).1)]),
      (settle py a (b.completion a diff)).2) := by
  unfold tracedReview
  rw [emit_played]
  dsimp only
  rw [Prog.played_bind, (tryBlock_played py a b diff reviewId).1]
  cases settle py a (b.completion a diff)
  rfl

theorem review_some (reviewId : Text) (hbudget : a.budget.isSome = true → b.budget a.agentType = .ok ()) :
    ((review py a diff (some reviewId)).played b.answer).2 = (settle py a (b.completion a diff)).2 ∧
      emitted ((review py a diff (some reviewId)).played b.answer).1 =
        emitted ((tracedReview py a diff reviewId).played b.answer).1 ∧
      asked ((review py a diff (some reviewId)).played b.answer).1 =
        (if a.budget.isSome then [Call.checkBudget a.agentType] else []) ++
          asked ((tracedReview py a diff reviewId).played b.answer).1 := by
  have hvalue := congrArg Prod.snd (tracedReview_played py a b diff reviewId)
  unfold review
  by_cases h : a.budget.isSome = true
  · dsimp only
    rw [if_pos h, if_pos h, checkBudget_played, hbudget h]
    exact ⟨hvalue, rfl, rfl⟩
  · dsimp only
    rw [if_neg h, if_neg h]
    exact ⟨hvalue, rfl, rfl⟩

end

/-! Which outcome is reported. -/

section

variable (py : Raising Err) (a : SpecialistAgent)

theorem outcomes_ne : "ok".toList ≠ "empty".toList ∧ "ok".toList ≠ "error".toList ∧
    "empty".toList ≠ "error".toList := by
  decide

/-- What the three outcomes say of a run. -/
structure Reports (completion : Except Err ChatCompletion) (outcome : Text) (result : Except Err (List Finding)) :
    Prop where
  ok : outcome = "ok".toList ↔ ∃ c drafts rest findings, completion = .ok c ∧ c.choices = some drafts :: rest ∧
    stamp py a drafts = .ok findings ∧ result = .ok findings
  empty : outcome = "empty".toList ↔ ∃ c rest, completion = .ok c ∧ c.choices = none :: rest
  error : outcome = "error".toList ↔ ∃ e, result = .error e

theorem Reports.of_error {completion : Except Err ChatCompletion} {e : Err}
    (hno : ∀ c rest, completion = .ok c → c.choices ≠ none :: rest) :
    Reports py a completion "error".toList (.error e) where
  ok := by
    refine ⟨fun h => absurd h.symm outcomes_ne.2.1, ?_⟩
    rintro ⟨_, _, _, _, -, -, -, h⟩
    cases h
  empty := by
    refine ⟨fun h => absurd h.symm outcomes_ne.2.2, ?_⟩
    rintro ⟨c, rest, hc, h⟩
    exact absurd h (hno c rest hc)
  error := ⟨fun _ => ⟨e, rfl⟩, fun _ => rfl⟩

theorem Reports.of_empty {c : ChatCompletion} {rest : List (Option (List FindingDraft))}
    (h : c.choices = none :: rest) : Reports py a (.ok c) "empty".toList (.ok []) where
  ok := by
    refine ⟨fun h => absurd h.symm outcomes_ne.1, ?_⟩
    rintro ⟨_, drafts, rest', _, hc, hdrafts, -, -⟩
    rw [← Except.ok.inj hc, h] at hdrafts
    cases hdrafts
  empty := ⟨fun _ => ⟨c, rest, rfl, h⟩, fun _ => rfl⟩
  error := by
    refine ⟨fun h => absurd h outcomes_ne.2.2, ?_⟩
    rintro ⟨_, h⟩
    cases h

theorem Reports.of_ok {c : ChatCompletion} {drafts : List FindingDraft} {rest : List (Option (List FindingDraft))}
    {findings : List Finding} (h : c.choices = some drafts :: rest) (hstamp : stamp py a drafts = .ok findings) :
    Reports py a (.ok c) "ok".toList (.ok findings) where
  ok := ⟨fun _ => ⟨c, drafts, rest, findings, rfl, h, hstamp, rfl⟩, fun _ => rfl⟩
  empty := by
    refine ⟨fun h => absurd h outcomes_ne.1, ?_⟩
    rintro ⟨_, rest', hc, hnone⟩
    rw [← Except.ok.inj hc, h] at hnone
    cases hnone
  error := by
    refine ⟨fun h => absurd h outcomes_ne.2.1, ?_⟩
    rintro ⟨_, h⟩
    cases h

theorem settle_reports (completion : Except Err ChatCompletion) :
    Reports py a completion (settle py a completion).1 (settle py a completion).2 := by
  cases completion with
  | error e => exact Reports.of_error py a nofun
  | ok c =>
    cases hc : c.choices with
    | nil =>
      have hsettle : settle py a (.ok c) = ("error".toList, .error py.indexError) := by
        simp only [settle, tracedFindings, parsedDraft, hc]
      rw [hsettle]
      refine Reports.of_error py a fun c' rest he => ?_
      rw [← Except.ok.inj he, hc]
      exact nofun
    | cons parsed rest =>
      cases parsed with
      | none =>
        have hsettle : settle py a (.ok c) = ("empty".toList, .ok []) := by
          simp only [settle, tracedFindings, parsedDraft, hc]
        rw [hsettle]
        exact Reports.of_empty py a hc
      | some drafts =>
        cases hs : stamp py a drafts with
        | error e =>
          have hsettle : settle py a (.ok c) = ("error".toList, .error e) := by
            simp only [settle, tracedFindings, parsedDraft, hc, hs]
          rw [hsettle]
          refine Reports.of_error py a fun c' rest he => ?_
          rw [← Except.ok.inj he, hc]
          exact nofun
        | ok findings =>
          have hsettle : settle py a (.ok c) = ("ok".toList, .ok findings) := by
            simp only [settle, tracedFindings, parsedDraft, hc, hs]
          rw [hsettle]
          exact Reports.of_ok py a hc hs

end

/-! Where it does not matter which exception it is, this is the run of `Specialist`. -/

section

def ofOption {α : Type} : Option α → Except Unit α
  | none => .error ()
  | some x => .ok x

/-- `from_draft` checks again what the draft has passed. -/
def validated : Raising Unit := ⟨(), fun d agentType => .ok (Finding.fromDraft d agentType)⟩

def fromCompletion (c : Completion) : ChatCompletion := ⟨c.usage, [c.parsed]⟩

def Call.program (a : SpecialistAgent) : (c : Call) → SpecialistProg (c.Reply Unit)
  | .checkBudget _ =>
    match a.budget with
    | none => .ret (.ok ())
    | some g => g.check (.ret (some ())) >>= fun r => .ret (ofOption r)
  | .emit e => .call (.emit e) fun r => .ret (ofOption r)
  | .retrieve repo queryText k => .call (.retrieve repo queryText k) fun r => .ret (ofOption r)
  | .parse model system user => .call (.parse model system user) fun r => .ret (ofOption (r.map fromCompletion))

variable (a : SpecialistAgent) (diff : DiffContext)

theorem stamp_validated (drafts : List FindingDraft) : stamp validated a drafts = .ok (a.findings drafts) := by
  unfold stamp
  induction drafts with
  | nil => rfl
  | cons d drafts ih =>
    rw [List.mapM_cons, ih]
    rfl

theorem plainFindings_validated (c : Completion) :
    plainFindings validated a (fromCompletion c) = .ok (a.findings (c.parsed.getD [])) := by
  unfold plainFindings parsedDraft fromCompletion
  cases c.parsed with
  | none => rfl
  | some drafts => exact stamp_validated a drafts

theorem plain_interpret : (review validated a diff none).interpret (Call.program a) =
    a.review diff none >>= fun r => .ret (ofOption r) := by
  refine congrArg (Prog.call (SpecialistCall.retrieve diff.repoFullName diff.diffText a.groundingK)) (funext fun r => ?_)
  cases r with
  | none => rfl
  | some grounding =>
    refine congrArg (Prog.call (SpecialistCall.parse a.model _ _)) (funext fun r => ?_)
    cases r with
    | none => rfl
    | some c => exact congrArg Prog.ret (plainFindings_validated a c)

theorem tracedFindings_validated (c : Completion) : tracedFindings validated a (fromCompletion c) =
    (if c.parsed.isSome then "ok".toList else "empty".toList, .ok (a.findings (c.parsed.getD []))) := by
  unfold tracedFindings parsedDraft fromCompletion
  cases c.parsed with
  | none => rfl
  | some drafts =>
    dsimp only
    rw [stamp_validated]
    rfl

theorem tryBlock_interpret (reviewId : Text) : (tryBlock validated a diff reviewId).interpret (Call.program a) =
    a.traced diff reviewId >>= fun p => .ret (p.1, ofOption p.2) := by
  refine congrArg (Prog.call (SpecialistCall.retrieve diff.repoFullName diff.diffText a.groundingK)) (funext fun r => ?_)
  cases r with
  | none => rfl
  | some grounding =>
    refine congrArg (Prog.call (SpecialistCall.emit _)) (funext fun r => ?_)
    cases r with
    | none => rfl
    | some _ =>
      refine congrArg (Prog.call (SpecialistCall.parse a.model _ _)) (funext fun r => ?_)
      cases r with
      | none => rfl
      | some c =>
        refine congrArg (Prog.call (SpecialistCall.emit _)) (funext fun r => ?_)
        cases r with
        | none => rfl
        | some _ =>
          refine (congrArg Prog.ret (tracedFindings_validated a c)).trans ?_
          dsimp only
          cases c.parsed <;> rfl

/-- The `finally` block. -/
def ended (reviewId : Text) (p : Text × Option (List Finding)) : SpecialistProg (Option (List Finding)) := do
  match ← SpecialistAgent.emit (spanEnd a reviewId p.1) with
  | none => return none
  | some () => return p.2

theorem tracedReview_interpret (reviewId : Text) : (tracedReview validated a diff reviewId).interpret (Call.program a) =
    a.tracedReview diff reviewId >>= fun r => .ret (ofOption r) := by
  refine congrArg (Prog.call (SpecialistCall.emit _)) (funext fun r => ?_)
  cases r with
  | none => rfl
  | some _ =>
    refine (Prog.interpret_bind (Call.program a) (tryBlock validated a diff reviewId) _).trans ?_
    rw [tryBlock_interpret]
    refine (Prog.bind_assoc _ _ _).trans (Eq.trans ?_ (Prog.bind_assoc (a.traced diff reviewId) (ended a reviewId) _).symm)
    refine congrArg (a.traced diff reviewId >>= ·) (funext fun p => ?_)
    refine congrArg (Prog.call (SpecialistCall.emit _)) (funext fun r => ?_)
    cases r with
    | none => rfl
    | some _ => cases p.2 <;> rfl

/-- The run of an agent, but for the identities of exceptions. -/
theorem review_interpret (reviewId : Option Text) : (review validated a diff reviewId).interpret (Call.program a) =
    a.review diff reviewId >>= fun r => .ret (ofOption r) := by
  cases reviewId with
  | none => exact plain_interpret a diff
  | some reviewId =>
    have htraced := tracedReview_interpret a diff reviewId
    unfold review SpecialistAgent.review
    dsimp only
    cases hbudget : a.budget with
    | none => exact htraced
    | some g =>
      have hprogram : Call.program a (.checkBudget a.agentType) =
          g.check (.ret (some ())) >>= fun r => .ret (ofOption r) := by
        rw [Call.program, hbudget]
        rfl
      rw [Option.isSome_some, if_pos rfl]
      refine (congrArg (· >>= _) hprogram).trans ?_
      refine congrArg (Prog.call SpecialistCall.spendTodayUsd) (funext fun r => ?_)
      cases r with
      | none => rfl
      | some spend =>
        dsimp only
        by_cases hcap : g.dailyCapUsd ≤ spend
        · rw [if_pos hcap, if_pos hcap]
          rfl
        · rw [if_neg hcap, if_neg hcap]
          exact htraced

end

/-- A budget that raises keeps the run from starting. Otherwise the traced run asks the
same and ends the same as the plain one, and reports how it ended. -/
theorem review_traced (py : Raising Err) (a : SpecialistAgent) (b : Behaviour Err) (diff : DiffContext)
    (reviewId : Text) :
    let plain := (review py a diff none).played b.answer
    let run := (review py a diff (some reviewId)).played b.answer
    (∀ e, a.budget.isSome = true → b.budget a.agentType = .error e →
      run = ([.checkBudget a.agentType], .error e)) ∧
    ((a.budget.isSome = true → b.budget a.agentType = .ok ()) →
      run.2 = plain.2 ∧
      asked run.1 = (if a.budget.isSome then [.checkBudget a.agentType] else []) ++ plain.1 ∧
      emitted plain.1 = [] ∧
      ∃ outcome, Reports py a (b.completion a diff) outcome run.2 ∧
        emitted run.1 = spanStart a reviewId :: (returned (toolCall a reviewId) (b.grounding a diff) ++
          returned (llmCall a reviewId) (b.completion a diff) ++ [spanEnd a reviewId outcome])) := by
  intro plain run
  constructor
  · intro e hsome he
    show (review py a diff (some reviewId)).played b.answer = _
    unfold review
    dsimp only
    rw [if_pos hsome, checkBudget_played, he]
    rfl
  · intro hbudget
    obtain ⟨-, hemitted, hplain, hasked⟩ := tryBlock_played py a b diff reviewId
    obtain ⟨hvalue, hemits, hasks⟩ := review_some py a b diff reviewId hbudget
    refine ⟨hvalue.trans hplain.symm, ?_, plain_emits_nothing py a b diff, (settle py a (b.completion a diff)).1, ?_, ?_⟩
    · have hask : asked ((tracedReview py a diff reviewId).played b.answer).1 =
          asked ((tryBlock py a diff reviewId).played b.answer).1 := by
        rw [tracedReview_played]
        exact (asked_append _ _).trans (List.append_nil _)
      exact hasks.trans (by rw [hask, hasked])
    · have hreports := settle_reports py a (b.completion a diff)
      rwa [← hvalue] at hreports
    · refine hemits.trans ?_
      rw [tracedReview_played, emitted_emit, emitted_append, hemitted]
      rfl

end AiPrReview.Tracing
