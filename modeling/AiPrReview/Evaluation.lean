import AiPrReview.ContextRetriever
import AiPrReview.Pool
import AiPrReview.Scorer

/-! The live runner of the golden suite. Each case seeds chunks under a name of
its own, has the four specialists review its diff, and deletes what it seeded,
in a table that other suites and the product use at the same time. -/

namespace AiPrReview

structure RepoFile : Type where
  path : Text
  content : Text
  deriving DecidableEq

structure EvalCase : Type extends GoldenCase where
  repoContext : List RepoFile
  diff : Text

inductive EvalCall (E : Type) : Type where
  | uuid4 (case : EvalCase)
  | embed (text : Text)
  | insertChunk (repo path : Text) (chunkIndex : Nat) (content : Text) (embedding : E)
  | specialist (c : SpecialistCall)
  | deleteChunks (repo : Text)

variable {E : Type}

/-- `uuid4` answers the hex digits that the name takes; `none` is an exception,
a cancellation included. -/
def EvalCall.Reply : EvalCall E → Type
  | uuid4 _ => Text
  | embed _ => Option E
  | insertChunk .. => Option Unit
  | specialist c => c.Reply
  | deleteChunks _ => Option Unit

abbrev EvalProg (E : Type) : Type → Type := Prog (EvalCall.Reply (E := E))

def EvalCall.perform (c : EvalCall E) : EvalProg E c.Reply := Prog.perform c

/-- What a case or a suite may raise; the two are told apart for the statements below. -/
inductive RunError : Type where
  | body
  | cleanup
  deriving DecidableEq

def evalRepo (case : EvalCase) (hex : Text) : Text := "eval-golden/".toList ++ case.id ++ '-' :: hex

def seedContext (repo : Text) : Nat → List RepoFile → EvalProg E (Option Unit)
  | _, [] => .ret (some ())
  | index, rf :: files =>
    .call (.embed rf.content) fun
      | none => .ret none
      | some embedding => .call (.insertChunk repo rf.path index rf.content embedding) fun
        | none => .ret none
        | some () => seedContext repo (index + 1) files

def reviewAll (diff : DiffContext) : List SpecialistAgent → EvalProg E (Option (List Finding))
  | [] => .ret (some [])
  | agent :: agents =>
    ((agent.review diff none).interpret fun c => (EvalCall.specialist c).perform) >>= fun
      | none => .ret none
      | some findings => reviewAll diff agents >>= fun rest => .ret (rest.map (findings ++ ·))

def cleanup (repo : Text) : EvalProg E (Option Unit) := (EvalCall.deleteChunks repo).perform

def caseAgents : List AgentType := [.security, .quality, .tests, .docs]

section

variable (agents : AgentType → SpecialistAgent)

/-- The `try` block. -/
def caseBody (repo : Text) (case : EvalCase) : EvalProg E (Option (List Finding)) :=
  seedContext repo 0 case.repoContext >>= fun
    | none => .ret none
    | some () => reviewAll ⟨repo, 1, case.diff⟩ (caseAgents.map agents)

def runCase (case : EvalCase) : EvalProg E (Except RunError (List Finding)) :=
  .call (.uuid4 case) fun hex =>
    caseBody agents (evalRepo case hex) case >>= fun findings =>
      cleanup (evalRepo case hex) >>= fun
        | none => .ret (.error .cleanup)
        | some () => .ret (findings.elim (.error .body) .ok)

def runCases : List EvalCase → EvalProg E (Except RunError (List (EvalCase × List Finding)))
  | [] => .ret (.ok [])
  | case :: cases => runCase agents case >>= fun
    | .error e => .ret (.error e)
    | .ok findings => runCases cases >>= fun rest => .ret (rest.map ((case, findings) :: ·))

def runSuite (lower : Text → Text) (cases : List EvalCase) : EvalProg E (Except RunError SuiteScore) :=
  runCases agents cases >>= fun pairs =>
    .ret (pairs.map fun pairs => scoreSuite lower (pairs.map fun p => (p.1.toGoldenCase, p.2)))

end

/-- A suite that returns has run all of its cases, in order. -/
theorem runCases_covers {agents : AgentType → SpecialistAgent} {cases : List EvalCase}
    {talk : List (Sigma (EvalCall.Reply (E := E)))} {pairs : List (EvalCase × List Finding)}
    (h : (runCases agents cases).Talks talk (.ret (.ok pairs))) : pairs.map Prod.fst = cases := by
  induction cases generalizing talk pairs with
  | nil =>
    obtain ⟨_, he⟩ := Prog.talks_done_iff.mp h
    obtain rfl := Except.ok.inj he
    rfl
  | cons case cases ih =>
    obtain ⟨_, result, rest, _, _, hrest⟩ := Prog.talks_bind_ret_iff.mp h
    cases result with
    | error e =>
      obtain ⟨_, he⟩ := Prog.talks_done_iff.mp hrest
      cases he
    | ok findings =>
      obtain ⟨_, more, last, _, hmore, hlast⟩ := Prog.talks_bind_ret_iff.mp hrest
      obtain ⟨_, he⟩ := Prog.talks_done_iff.mp hlast
      cases more with
      | error e => cases he
      | ok more =>
        obtain rfl := Except.ok.inj he
        rw [List.map_cons, ih hmore]

theorem runSuite_covers {agents : AgentType → SpecialistAgent} {lower : Text → Text} {cases : List EvalCase}
    {talk : List (Sigma (EvalCall.Reply (E := E)))} {score : SuiteScore}
    (h : (runSuite agents lower cases).Talks talk (.ret (.ok score))) :
    score.perCase.map CaseScore.caseId = cases.map fun case => case.id := by
  obtain ⟨_, result, last, _, hcases, hlast⟩ := Prog.talks_bind_ret_iff.mp h
  obtain ⟨_, he⟩ := Prog.talks_done_iff.mp hlast
  cases result with
  | error e => cases he
  | ok pairs =>
    obtain rfl := Except.ok.inj he
    show ((pairs.map fun p => (p.1.toGoldenCase, p.2)).map fun p => scoreCase lower p.1 p.2).map CaseScore.caseId = _
    rw [← runCases_covers hcases, List.map_map, List.map_map, List.map_map]
    rfl

/-! The world of the suites. -/

/-- `drawn` are the names that were drawn, with their cases. -/
structure EvalWorld (E : Type) : Type where
  chunks : Table (StoredChunk.id (E := E))
  drawn : List (Text × EvalCase)

/-- The token count, which nothing here reads, is NULL in the source. -/
def seededChunk (repo path : Text) (chunkIndex : Nat) (content : Text) (embedding : E) (id : Nat) : StoredChunk E where
  repo := repo
  path := path
  symbol := none
  chunkIndex := chunkIndex
  content := content
  embedding := embedding
  tokenCount := 0
  id := id

namespace EvalWorld

def drawnAs (w : EvalWorld E) (repo : Text) : Prop := repo ∈ w.drawn.map Prod.fst

/-- The row is stored unless it breaks a unique index or holds a NUL. -/
def insert (w : EvalWorld E) (row : StoredChunk E) : Option (EvalWorld E) :=
  if row.toCodeChunk.legal && w.chunks.rows.all fun r =>
      decide (r.id ≠ row.id) && decide (r.toCodeChunk.key ≠ row.toCodeChunk.key) then
    some { w with chunks := w.chunks.insertIgnore row }
  else none

def delete (w : EvalWorld E) (repo : Text) : EvalWorld E :=
  { w with chunks := w.chunks.delete fun r => r.repo == repo }

/-- No chunk and no case has the name. -/
def unused (w : EvalWorld E) (repo : Text) : Bool :=
  (w.drawn.all fun d => decide (d.1 ≠ repo)) && w.chunks.rows.all fun r => decide (r.repo ≠ repo)

end EvalWorld

/-- How a call goes. `raises` is an exception before the call had its effect;
`inserted` and `deleted` say whether the reply came. -/
inductive EvalChoice (E : Type) : Type where
  | raises
  | hex (digits : Text)
  | embedded
  | inserted (id : Nat) (answered : Bool)
  | retrieved (ties : ContextRetriever.Ties E)
  | completion (c : Completion)
  | deleted (answered : Bool)

section

variable {D R : Type} [LinearOrder D] [LinearOrder R] (ops : ContextRetriever.SearchOps E D R) (embedding : Text → E)

/-- A name that is drawn is a new one. -/
def EvalCall.exec : (c : EvalCall E) → EvalChoice E → EvalWorld E → Option (c.Reply × EvalWorld E)
  | uuid4 case, .hex digits, w =>
    if w.unused (evalRepo case digits) then some (digits, { w with drawn := (evalRepo case digits, case) :: w.drawn })
    else none
  | embed text, .embedded, w => some (some (ContextRetriever.embed embedding text), w)
  | embed _, .raises, w => some (none, w)
  | insertChunk repo path chunkIndex content e, .inserted id answered, w =>
    (w.insert (seededChunk repo path chunkIndex content e id)).map fun w' => (if answered then some () else none, w')
  | insertChunk .., .raises, w => some (none, w)
  | specialist (.retrieve repo queryText k), .retrieved ties, w =>
    some ((ContextRetriever.retrieve ops w.chunks ties embedding repo queryText k).map fun found =>
      found.map ScoredChunk.toRetrievedChunk, w)
  | specialist (.retrieve ..), .raises, w => some (none, w)
  | specialist (.parse ..), .completion c, w => some (some c, w)
  | specialist (.parse ..), .raises, w => some (none, w)
  | deleteChunks repo, .deleted answered, w => some (if answered then some () else none, w.delete repo)
  | deleteChunks _, .raises, w => some (none, w)
  | _, _, _ => none

/-- Reads and model calls may be repeated. Nobody else writes under a name that was drawn. -/
def evalHost : Host (EvalCall.Reply (E := E)) (EvalChoice E) (EvalWorld E) where
  exec := EvalCall.exec ops embedding
  retries
    | .embed _ => true
    | .specialist _ => true
    | _ => false
  drift w w' := w'.drawn = w.drawn ∧ ∀ r, w.drawnAs r.repo → (r ∈ w'.chunks.rows ↔ r ∈ w.chunks.rows)

end

/-! What a suite is about. -/

/-- `left` is a name whose cleanup raised. -/
inductive EvalMode : Type where
  | between
  | inCase (repo : Text) (case : EvalCase)
  | grounded (repo : Text) (case : EvalCase) (grounding : List RetrievedChunk)
  | left (repo : Text)

namespace EvalMode

def repo : EvalMode → Option Text
  | between => none
  | inCase repo _ => some repo
  | grounded repo _ _ => some repo
  | left repo => some repo

def Allows (agents : AgentType → SpecialistAgent) : EvalMode → EvalCall E → Prop
  | between, .uuid4 _ => True
  | inCase _ _, .embed _ => True
  | inCase repo case, .insertChunk name path _ content _ => name = repo ∧ ⟨path, content⟩ ∈ case.repoContext
  | inCase repo _, .specialist (.retrieve name _ _) => name = repo
  | grounded repo case grounding, .specialist (.parse _ _ user) =>
    ∃ t, user = (agents t).buildPrompt ⟨repo, 1, case.diff⟩ grounding
  | inCase repo _, .deleteChunks name => name = repo
  | _, _ => False

def next : EvalMode → (c : EvalCall E) → c.Reply → EvalMode
  | between, .uuid4 case, hex => inCase (evalRepo case hex) case
  | inCase repo case, .specialist (.retrieve ..), some grounding => grounded repo case grounding
  | grounded repo case _, .specialist (.parse ..), _ => inCase repo case
  | inCase _ _, .deleteChunks _, some () => between
  | inCase repo _, .deleteChunks _, none => left repo
  | m, _, _ => m

end EvalMode

def evalOutline (agents : AgentType → SpecialistAgent) : Outline (EvalCall.Reply (E := E)) EvalMode :=
  ⟨EvalMode.Allows agents, EvalMode.next⟩

section

variable {agents : AgentType → SpecialistAgent} {repo : Text} {case : EvalCase}

theorem seedContext_follows (index : Nat) {files : List RepoFile} (hfiles : ∀ f ∈ files, f ∈ case.repoContext) :
    (seedContext (E := E) repo index files).Follows (evalOutline agents) (fun m _ => m = .inCase repo case)
      (.inCase repo case) := by
  induction files generalizing index with
  | nil => exact rfl
  | cons f files ih =>
    refine ⟨trivial, fun
      | none => rfl
      | some e => ⟨⟨rfl, hfiles f List.mem_cons_self⟩, fun
        | none => rfl
        | some () => ih (index + 1) fun g hg => hfiles g (List.mem_cons_of_mem f hg)⟩⟩

theorem review_follows (t : AgentType) :
    (((agents t).review ⟨repo, 1, case.diff⟩ none).interpret fun c => (EvalCall.specialist (E := E) c).perform).Follows
      (evalOutline agents) (fun m _ => m = .inCase repo case) (.inCase repo case) := by
  refine ⟨rfl, fun
    | none => rfl
    | some grounding => ⟨⟨t, rfl⟩, fun
      | none => rfl
      | some completion => rfl⟩⟩

theorem reviewAll_follows (ts : List AgentType) :
    (reviewAll (E := E) ⟨repo, 1, case.diff⟩ (ts.map agents)).Follows (evalOutline agents)
      (fun m _ => m = .inCase repo case) (.inCase repo case) := by
  induction ts with
  | nil => exact rfl
  | cons t ts ih =>
    refine (review_follows t).bind fun m findings hm => ?_
    obtain rfl : m = .inCase repo case := hm
    cases findings with
    | none => exact rfl
    | some findings => exact ih.bind fun m rest hm => hm

def RunEnds {α : Type} (m : EvalMode) (result : Except RunError α) : Prop :=
  m = .between ∨ result = .error .cleanup ∧ ∃ repo, m = .left repo

theorem RunEnds.map {α β : Type} {m : EvalMode} {result : Except RunError α} (h : RunEnds m result) (f : α → β) :
    RunEnds m (result.map f) := by
  rcases h with h | ⟨rfl, h⟩
  · exact .inl h
  · exact .inr ⟨rfl, h⟩

theorem runCase_follows (case : EvalCase) :
    (runCase (E := E) agents case).Follows (evalOutline agents) RunEnds .between := by
  refine ⟨trivial, fun hex => ?_⟩
  have hbody : (caseBody (E := E) agents (evalRepo case hex) case).Follows (evalOutline agents)
      (fun m _ => m = .inCase (evalRepo case hex) case) (.inCase (evalRepo case hex) case) := by
    refine (seedContext_follows 0 fun f hf => hf).bind fun m seeded hm => ?_
    obtain rfl : m = .inCase (evalRepo case hex) case := hm
    cases seeded with
    | none => exact rfl
    | some u => exact reviewAll_follows caseAgents
  refine hbody.bind fun m findings hm => ?_
  obtain rfl : m = .inCase (evalRepo case hex) case := hm
  refine ⟨rfl, fun
    | none => .inr ⟨rfl, _, rfl⟩
    | some () => .inl rfl⟩

theorem runCases_follows (cases : List EvalCase) :
    (runCases (E := E) agents cases).Follows (evalOutline agents) RunEnds .between := by
  induction cases with
  | nil => exact .inl rfl
  | cons case cases ih =>
    refine (runCase_follows case).bind fun m result hm => ?_
    rcases hm with rfl | ⟨rfl, hleft⟩
    · cases result with
      | error e => exact .inl rfl
      | ok findings => exact ih.bind fun m rest hm => hm.map _
    · exact .inr ⟨rfl, hleft⟩

theorem runSuite_follows (lower : Text → Text) (cases : List EvalCase) :
    (runSuite (E := E) agents lower cases).Follows (evalOutline agents) RunEnds .between :=
  (runCases_follows cases).bind fun _ _ hm => hm.map _

end

/-! The invariant: the rows under a name are files of its case, and the name is
in the hands of a suite. -/

structure Seeded (held : Text → Prop) (w : EvalWorld E) : Prop where
  names : (w.drawn.map Prod.fst).Nodup
  rows : ∀ r ∈ w.chunks.rows, ∀ d ∈ w.drawn, r.repo = d.1 → ⟨r.path, r.content⟩ ∈ d.2.repoContext ∧ held r.repo

def EvalMode.Sound (w : EvalWorld E) : EvalMode → Prop
  | .between => True
  | .inCase repo case => (repo, case) ∈ w.drawn
  | .grounded repo case grounding =>
    (repo, case) ∈ w.drawn ∧ ∀ x ∈ grounding, ⟨x.path, x.content⟩ ∈ case.repoContext
  | .left _ => True

/-- The prompt of a specialist for a case: its diff, and files of its own context. -/
def Hermetic (agents : AgentType → SpecialistAgent) (w : EvalWorld E) (user : Text) : Prop :=
  ∃ d ∈ w.drawn, ∃ t grounding, (∀ x ∈ grounding, (⟨x.path, x.content⟩ : RepoFile) ∈ d.2.repoContext) ∧
    user = (agents t).buildPrompt ⟨d.1, 1, d.2.diff⟩ grounding

section

variable {D R : Type} [LinearOrder D] [LinearOrder R] {ops : ContextRetriever.SearchOps E D R} {embedding : Text → E}
  {agents : AgentType → SpecialistAgent} {held : Text → Prop} {m : EvalMode} {c : EvalCall E} {e : EvalChoice E}
  {w w' : EvalWorld E} {r : c.Reply}

theorem Seeded.insert (S : Seeded held w) {repo : Text} {case : EvalCase} (hdrawn : (repo, case) ∈ w.drawn)
    (hheld : held repo) {row : StoredChunk E} (hrepo : row.repo = repo)
    (hfile : (⟨row.path, row.content⟩ : RepoFile) ∈ case.repoContext) (h : w.insert row = some w') :
    w'.drawn = w.drawn ∧ Seeded held w' := by
  obtain ⟨_, rfl⟩ := Option.ite_none_right_eq_some.mp h |>.imp_right Option.some.inj
  refine ⟨rfl, S.names, fun x hx d hd hxd => ?_⟩
  have hcases : x ∈ w.chunks.rows ∨ x = row := by
    simp only [Table.insertIgnore] at hx
    split at hx
    · exact .inl hx
    · rcases List.mem_append.mp hx with hx | hx
      · exact .inl hx
      · exact .inr (List.mem_singleton.mp hx)
  rcases hcases with hx | rfl
  · exact S.rows x hx d hd hxd
  · have hd' : d = (repo, case) := List.inj_on_of_nodup_map S.names hd hdrawn (hxd.symm.trans hrepo)
    rw [hd', hrepo]
    exact ⟨hfile, hheld⟩

theorem Seeded.delete (S : Seeded held w) (repo : Text) :
    Seeded held (w.delete repo) ∧ ∀ x ∈ (w.delete repo).chunks.rows, x.repo ≠ repo := by
  refine ⟨⟨S.names, fun x hx d hd hxd => ?_⟩, fun x hx => ?_⟩
  · exact S.rows x (Table.mem_delete_iff.mp hx).1 d hd hxd
  · simpa using (Table.mem_delete_iff.mp hx).2

theorem Seeded.draw (S : Seeded held w) {repo : Text} (case : EvalCase) (hunused : w.unused repo = true) :
    Seeded held { w with drawn := (repo, case) :: w.drawn } := by
  obtain ⟨hnames, hrows⟩ := Bool.and_eq_true_iff.mp hunused
  refine ⟨List.nodup_cons.mpr ⟨fun hmem => ?_, S.names⟩, fun x hx d hd hxd => ?_⟩
  · obtain ⟨d, hd, he⟩ := List.mem_map.mp hmem
    exact of_decide_eq_true (List.all_eq_true.mp hnames d hd) he
  · rcases List.mem_cons.mp hd with rfl | hd
    · exact absurd hxd (of_decide_eq_true (List.all_eq_true.mp hrows x hx))
    · exact S.rows x hx d hd hxd

/-- What is retrieved for a case are files of its context. -/
theorem Seeded.retrieved (S : Seeded held w) {repo queryText : Text} {case : EvalCase} (hdrawn : (repo, case) ∈ w.drawn)
    {ties : ContextRetriever.Ties E} {k : Nat} {found : List ScoredChunk}
    (h : ContextRetriever.retrieve ops w.chunks ties embedding repo queryText k = some found) :
    ∀ x ∈ found.map ScoredChunk.toRetrievedChunk, (⟨x.path, x.content⟩ : RepoFile) ∈ case.repoContext := by
  intro x hx
  obtain ⟨y, hy, rfl⟩ := List.mem_map.mp hx
  obtain ⟨row, hrow, hrepo, hpath, hcontent⟩ := ContextRetriever.exists_chunk_of_retrieve h hy
  rw [hpath, hcontent]
  exact (S.rows row hrow (repo, case) hdrawn hrepo).1

/-- What a call of a suite does: the table stays as it should be, and a name is
given up only when nothing is left under it. -/
structure CallKeeps (held : Text → Prop) (m m' : EvalMode) (w w' : EvalWorld E) : Prop where
  seeded : Seeded held w'
  drawn : w.drawn ⊆ w'.drawn
  sound : m'.Sound w'
  released : ∀ repo, m.repo = some repo → m'.repo = some repo ∨ ∀ x ∈ w'.chunks.rows, x.repo ≠ repo

theorem CallKeeps.same (S : Seeded held w) {m' : EvalMode} (hm : m'.Sound w)
    (hrepo : ∀ repo, m.repo = some repo → m'.repo = some repo) : CallKeeps held m m' w w :=
  ⟨S, fun _ hd => hd, hm, fun repo hr => .inl (hrepo repo hr)⟩

theorem Seeded.exec (S : Seeded held w) (hm : m.Sound w) (hheld : ∀ repo, m.repo = some repo → held repo)
    (hallow : m.Allows agents c) (h : c.exec ops embedding e w = some (r, w')) :
    CallKeeps held m (m.next c r) w w' := by
  cases m with
  | between =>
    cases c with
    | uuid4 case =>
      cases e with
      | hex digits =>
        obtain ⟨hunused, hx⟩ := Option.ite_none_right_eq_some.mp h
        obtain ⟨rfl, rfl⟩ := Prod.mk.inj (Option.some.inj hx)
        exact ⟨S.draw case hunused, fun _ hd => List.mem_cons_of_mem _ hd, List.mem_cons_self, fun _ hr => by cases hr⟩
      | _ => cases h
    | _ => exact hallow.elim
  | inCase repo case =>
    have hdrawn : (repo, case) ∈ w.drawn := hm
    cases c with
    | embed text =>
      cases e with
      | embedded =>
        obtain ⟨rfl, rfl⟩ := Prod.mk.inj (Option.some.inj h)
        exact .same S hdrawn fun _ hr => hr
      | raises =>
        obtain ⟨rfl, rfl⟩ := Prod.mk.inj (Option.some.inj h)
        exact .same S hdrawn fun _ hr => hr
      | _ => cases h
    | insertChunk name path chunkIndex content e' =>
      obtain ⟨rfl, hfile⟩ := hallow
      cases e with
      | inserted id answered =>
        obtain ⟨w₁, hw₁, hx⟩ := Option.map_eq_some_iff.mp h
        obtain ⟨rfl, rfl⟩ := Prod.mk.inj hx
        obtain ⟨hsame, hseeded⟩ := S.insert hdrawn (hheld name rfl) rfl hfile hw₁
        refine ⟨hseeded, ?_, ?_, fun _ hr => .inl hr⟩
        · rw [hsame]
          exact fun _ hd => hd
        · show (name, case) ∈ w₁.drawn
          rwa [hsame]
      | raises =>
        obtain ⟨rfl, rfl⟩ := Prod.mk.inj (Option.some.inj h)
        exact .same S hdrawn fun _ hr => hr
      | _ => cases h
    | specialist c =>
      cases c with
      | retrieve name queryText k =>
        obtain rfl : name = repo := hallow
        cases e with
        | retrieved ties =>
          obtain ⟨rfl, rfl⟩ := Prod.mk.inj (Option.some.inj h)
          cases hfound : ContextRetriever.retrieve ops w.chunks ties embedding name queryText k with
          | none => exact .same S hdrawn fun _ hr => hr
          | some found => exact .same S ⟨hdrawn, S.retrieved hdrawn hfound⟩ fun _ hr => hr
        | raises =>
          obtain ⟨rfl, rfl⟩ := Prod.mk.inj (Option.some.inj h)
          exact .same S hdrawn fun _ hr => hr
        | _ => cases h
      | _ => exact hallow.elim
    | deleteChunks name =>
      obtain rfl : name = repo := hallow
      cases e with
      | deleted answered =>
        obtain ⟨rfl, rfl⟩ := Prod.mk.inj (Option.some.inj h)
        obtain ⟨hseeded, hnone⟩ := S.delete name
        refine ⟨hseeded, fun _ hd => hd, ?_, fun repo hr => .inr ?_⟩
        · cases answered <;> trivial
        · obtain rfl := Option.some.inj hr
          exact hnone
      | raises =>
        obtain ⟨rfl, rfl⟩ := Prod.mk.inj (Option.some.inj h)
        exact .same S trivial fun _ hr => hr
      | _ => cases h
    | _ => exact hallow.elim
  | grounded repo case grounding =>
    have hdrawn : (repo, case) ∈ w.drawn := hm.1
    cases c with
    | specialist c =>
      cases c with
      | parse model system user =>
        cases e with
        | completion answer =>
          obtain ⟨rfl, rfl⟩ := Prod.mk.inj (Option.some.inj h)
          exact .same S hdrawn fun _ hr => hr
        | raises =>
          obtain ⟨rfl, rfl⟩ := Prod.mk.inj (Option.some.inj h)
          exact .same S hdrawn fun _ hr => hr
        | _ => cases h
      | _ => exact hallow.elim
    | _ => exact hallow.elim
  | left repo => cases c <;> exact hallow.elim

theorem EvalMode.Sound.mono (hm : m.Sound w) (h : w.drawn ⊆ w'.drawn) : m.Sound w' := by
  cases m with
  | between => trivial
  | inCase repo case => exact h hm
  | grounded repo case grounding => exact ⟨h hm.1, hm.2⟩
  | left repo => trivial

omit [LinearOrder D] [LinearOrder R] in
theorem Hermetic.mono {user : Text} (hu : Hermetic agents w user) (h : w.drawn ⊆ w'.drawn) :
    Hermetic agents w' user := by
  obtain ⟨d, hd, hrest⟩ := hu
  exact ⟨d, h hd, hrest⟩

theorem hermetic_of_allowed {model system user : Text} (hm : m.Sound w)
    (hallow : m.Allows agents (.specialist (E := E) (.parse model system user))) : Hermetic agents w user := by
  cases m with
  | grounded repo case grounding =>
    obtain ⟨t, ht⟩ := hallow
    exact ⟨(repo, case), hm.1, t, grounding, hm.2, ht⟩
  | _ => exact hallow.elim

theorem Seeded.weaken {held' : Text → Prop} (S : Seeded held w)
    (h : ∀ x ∈ w.chunks.rows, held x.repo → held' x.repo) : Seeded held' w :=
  ⟨S.names, fun x hx d hd hxd => ⟨(S.rows x hx d hd hxd).1, h x hx (S.rows x hx d hd hxd).2⟩⟩

end

def holding (ts : List (Thread EvalMode)) (repo : Text) : Prop := ∃ t ∈ ts, t.program.repo = some repo

abbrev LoggedEval (E : Type) : Type := EvalWorld E × List (Sigma (EvalCall.Reply (E := E)))

structure EvalInv (agents : AgentType → SpecialistAgent) (a : Pool (LoggedEval E) EvalMode) : Prop where
  seeded : Seeded (holding a.threads) a.world.1
  sound : ∀ t ∈ a.threads, t.program.Sound a.world.1
  asked : ∀ model system user reply, ⟨.specialist (.parse model system user), reply⟩ ∈ a.world.2 →
    Hermetic agents a.world.1 user

section

variable {D R : Type} [LinearOrder D] [LinearOrder R] {ops : ContextRetriever.SearchOps E D R} {embedding : Text → E}
  {agents : AgentType → SpecialistAgent} {pre post : List (Thread EvalMode)} {m : EvalMode} {c : EvalCall E}
  {e : EvalChoice E} {w w' : LoggedEval E} {r : c.Reply}

theorem mem_replaced {A : Type} {before after : List A} {a u : A} (h : u ∈ before ++ a :: after) :
    u = a ∨ ∀ b, u ∈ before ++ b :: after := by
  simp only [List.mem_append, List.mem_cons] at h ⊢
  tauto

/-- A call of one thread, whatever becomes of the thread: `t` is what is left of it. -/
theorem EvalInv.called (I : EvalInv agents ⟨w, pre ++ .running m :: post⟩) (hallow : m.Allows agents c)
    (h : (evalHost ops embedding).logged.exec c e w = some (r, w')) {t : Thread EvalMode}
    (ht : t.program = m ∨ t.program = m.next c r) : EvalInv agents ⟨w', pre ++ t :: post⟩ := by
  obtain ⟨he, hlog⟩ := Host.exec_logged h
  have hm : m.Sound w.1 := I.sound (.running m) (by simp)
  have hheld : ∀ repo, m.repo = some repo → holding (pre ++ .running m :: post) repo :=
    fun repo hr => ⟨.running m, by simp, hr⟩
  have K : CallKeeps _ m (m.next c r) w.1 w'.1 := I.seeded.exec hm hheld hallow he
  refine ⟨K.seeded.weaken fun x hx ⟨u, hu, hrepo⟩ => ?_, fun u hu => ?_, fun model system user reply hmem => ?_⟩
  · rcases mem_replaced hu with rfl | hu
    · have hr : m.repo = some x.repo := hrepo
      rcases ht with ht | ht
      · exact ⟨t, by simp, by rw [ht]; exact hr⟩
      · rcases K.released _ hr with hkept | hnone
        · exact ⟨t, by simp, by rw [ht]; exact hkept⟩
        · exact absurd rfl (hnone x hx)
    · exact ⟨u, hu t, hrepo⟩
  · rcases mem_replaced hu with rfl | hu
    · rcases ht with ht | ht
      · rw [ht]
        exact hm.mono K.drawn
      · rw [ht]
        exact K.sound
    · exact (I.sound u (hu _)).mono K.drawn
  · rw [hlog] at hmem
    rcases List.mem_append.mp hmem with hmem | hmem
    · exact (I.asked model system user reply hmem).mono K.drawn
    · obtain ⟨rfl, _⟩ := Sigma.mk.inj (List.mem_singleton.mp hmem)
      exact (hermetic_of_allowed hm hallow).mono K.drawn

theorem evalInv_step {spawnsMode : EvalMode → Prop} (hspawn : ∀ m, spawnsMode m → m = .between)
    {a a' : Pool (LoggedEval E) EvalMode} {l : Label}
    (h : (evalOutline agents).Step (evalHost ops embedding).logged spawnsMode a l a') (I : EvalInv agents a) :
    EvalInv agents a' := by
  cases h with
  | @reply pre post m c w w' r e hallow he => exact I.called hallow he (.inr rfl)
  | @retry pre post m c w w' r e hallow hr he => exact I.called hallow he (.inl rfl)
  | @stop pre post m w =>
    refine ⟨I.seeded.weaken fun x _ ⟨u, hu, hrepo⟩ => ?_, fun u hu => ?_, I.asked⟩
    · rcases mem_replaced hu with rfl | hu
      · exact ⟨.stopped m, by simp, hrepo⟩
      · exact ⟨u, hu _, hrepo⟩
    · rcases mem_replaced hu with rfl | hu
      · exact I.sound (.running m) (by simp)
      · exact I.sound u (hu _)
  | @lose pre post m c w w' r e hallow he => exact I.called hallow he (.inl rfl)
  | @spawn ts w m hm =>
    obtain rfl := hspawn m hm
    refine ⟨I.seeded.weaken fun x _ ⟨u, hu, hrepo⟩ => ⟨u, by simp [hu], hrepo⟩, fun u hu => ?_, I.asked⟩
    rcases List.mem_append.mp hu with hu | hu
    · exact I.sound u hu
    · rw [List.mem_singleton.mp hu]
      trivial
  | @drift ts w w' hd =>
    obtain ⟨⟨hdrawn, hrows⟩, hlog⟩ := hd
    have hsub : w.1.drawn ⊆ w'.1.drawn := by
      rw [hdrawn]
      exact fun _ hd => hd
    refine ⟨⟨?_, fun x hx d hd hxd => ?_⟩, fun u hu => (I.sound u hu).mono hsub, fun model system user reply hmem => ?_⟩
    · rw [hdrawn]
      exact I.seeded.names
    · rw [hdrawn] at hd
      refine I.seeded.rows x ((hrows x ?_).mp hx) d hd hxd
      rw [hxd]
      exact List.mem_map_of_mem hd
    · rw [hlog] at hmem
      exact (I.asked model system user reply hmem).mono hsub

/-- However suites run at once, fail, are cancelled and killed, and whatever else
happens in the table: each prompt is that of a case with files of its own
context; and once all suites have returned, none with an exception of its
cleanup, nothing is left under the names that were drawn. -/
theorem suites_hermetic {lower : Text → Text} {chunks : Table (StoredChunk.id (E := E))}
    {cond : Pool (LoggedEval E) (EvalProg E (Except RunError SuiteScore)) → Label → Prop}
    {s : Pool (LoggedEval E) (EvalProg E (Except RunError SuiteScore))}
    (hrun : (evalHost ops embedding).logged.Run (fun p => ∃ cases, p = runSuite agents lower cases) cond
      ⟨(⟨chunks, []⟩, []), []⟩ s) :
    (∀ model system user reply, ⟨.specialist (.parse model system user), reply⟩ ∈ s.world.2 →
      Hermetic agents s.world.1 user) ∧
    ((∀ t ∈ s.threads, ∃ result, t = .running (.ret result) ∧ result ≠ .error .cleanup) →
      ∀ x ∈ s.world.1.chunks.rows, ¬s.world.1.drawnAs x.repo) := by
  have hspawn : ∀ p : EvalProg E (Except RunError SuiteScore), (∃ cases, p = runSuite agents lower cases) →
      ∃ m, m = EvalMode.between ∧ p.Follows (evalOutline agents) RunEnds m := by
    rintro p ⟨cases, rfl⟩
    exact ⟨_, rfl, runSuite_follows lower cases⟩
  have hstart : EvalInv agents (⟨(⟨chunks, []⟩, []), []⟩ : Pool (LoggedEval E) EvalMode) :=
    ⟨⟨List.nodup_nil, by simp⟩, by simp, by simp⟩
  obtain ⟨a, hm, I⟩ := hrun.outline_invariant (I := EvalInv agents) hspawn
    (fun _ _ _ _ _ _ _ _ _ hstep hI => evalInv_step (fun _ hm => hm) hstep hI) (a := ⟨(⟨chunks, []⟩, []), []⟩)
    ⟨rfl, .nil⟩ hstart
  rw [hm.world]
  refine ⟨I.asked, fun hdone x hx hdrawn => ?_⟩
  obtain ⟨d, hd, hxd⟩ := List.mem_map.mp hdrawn
  obtain ⟨t, ht, hrepo⟩ := (I.seeded.rows x hx d hd hxd.symm).2
  -- the name is in the hands of a suite, but those have all ended
  obtain ⟨t', ht', hat⟩ := hm.mem ht
  obtain ⟨result, rfl, hresult⟩ := hdone t' ht'
  cases hat with
  | running hends =>
    rcases hends with rfl | ⟨herror, _⟩
    · cases hrepo
    · exact hresult herror

end

/-! Two suites, of which the second cannot insert its file. -/

def smallCase (id : String) : EvalCase where
  id := id.toList
  expectedFindings := []
  expectMaxFindings := Table.empty
  repoContext := [⟨"app/db.py".toList, "connect()".toList⟩]
  diff := "+1".toList

def plainOps : ContextRetriever.SearchOps Nat Nat Nat := ⟨fun a b => a + b, fun _ _ => true, fun _ _ => 0⟩

def plainTies : ContextRetriever.Ties Nat := ⟨fun _ => 0, fun _ => 0, fun _ => 0, fun _ => 0, fun _ => 0⟩

def plainAgent (t : AgentType) : SpecialistAgent where
  agentType := t
  systemPrompt := []
  promptVersion := none
  model := []
  groundingK := 5
  budget := none
  guard := ⟨"T".toList, by simp⟩
  isWord := Char.isAlphanum

def twoSuites : List (Host.Move (EvalChoice Nat) (EvalProg Nat (Except RunError SuiteScore))) :=
  [.spawn (runSuite plainAgent id [smallCase "a"]), .spawn (runSuite plainAgent id [smallCase "b"])] ++
    [(0, EvalChoice.hex "0f".toList), (1, .hex "1f".toList), (0, .embedded), (1, .embedded), (0, .inserted 7 true),
      (1, .raises), (0, .retrieved plainTies), (0, .completion ⟨none, none⟩), (1, .deleted true),
      (0, .retrieved plainTies), (0, .completion ⟨none, none⟩), (0, .retrieved plainTies),
      (0, .completion ⟨none, none⟩), (0, .retrieved plainTies), (0, .completion ⟨none, none⟩), (0, .deleted true)].map fun x => .reply x.1 x.2

def endedClean : Except RunError SuiteScore → Bool
  | .error .cleanup => false
  | _ => true

theorem eq_of_result {α : Type} {t : Thread (EvalProg E α)} {a : α} (h : t.result = some a) :
    t = .running (.ret a) := by
  cases t with
  | running p =>
    cases p with
    | ret b =>
      obtain rfl := Option.some.inj h
      rfl
    | call c k => cases h
  | stopped p => cases h
  | lost p => cases h

def promptOf : EvalCall E → Option Text
  | .specialist (.parse _ _ user) => some user
  | _ => none

theorem exists_parse {c : EvalCall E} {user : Text} (h : promptOf c = some user) :
    ∃ model system, c = .specialist (.parse model system user) := by
  cases c with
  | specialist c =>
    cases c with
    | parse model system user' =>
      obtain rfl := Option.some.inj h
      exact ⟨model, system, rfl⟩
    | _ => cases h
  | _ => cases h

theorem suites_hermetic_two : ∃ s, (evalHost plainOps List.length).logged.Run
    (fun p => ∃ cases, p = runSuite plainAgent id cases) (fun _ _ => True) ⟨(⟨Table.empty, []⟩, []), []⟩ s ∧
      s.world.1.drawn.length = 2 ∧ (∃ user, Hermetic plainAgent s.world.1 user) ∧
      ∀ x ∈ s.world.1.chunks.rows, ¬s.world.1.drawnAs x.repo := by
  obtain ⟨s, hs, hdrawn, hended, hasked⟩ : ∃ s ∈ (evalHost plainOps List.length).logged.play
      ⟨(⟨Table.empty, []⟩, []), []⟩ twoSuites, s.world.1.drawn.length = 2 ∧
        (s.threads.all fun t => t.result.any endedClean) = true ∧
        (s.world.2.any fun x => (promptOf x.1).isSome) = true := by
    decide +kernel
  have hrun : (evalHost plainOps List.length).logged.Run (fun p => ∃ cases, p = runSuite plainAgent id cases)
      (fun _ _ => True) ⟨(⟨Table.empty, []⟩, []), []⟩ s := by
    refine Host.run_of_play (fun p hp => ?_) (fun _ _ => trivial) hs
    simp [twoSuites] at hp
    rcases hp with rfl | rfl
    · exact ⟨_, rfl⟩
    · exact ⟨_, rfl⟩
  obtain ⟨hprompts, hclean⟩ := suites_hermetic hrun
  refine ⟨s, hrun, hdrawn, ?_, hclean fun t ht => ?_⟩
  · obtain ⟨⟨c, reply⟩, hx, hsome⟩ := List.any_eq_true.mp hasked
    obtain ⟨user, huser⟩ := Option.isSome_iff_exists.mp hsome
    obtain ⟨model, system, rfl⟩ := exists_parse huser
    exact ⟨user, hprompts model system user reply hx⟩
  · have hwell := List.all_eq_true.mp hended t ht
    cases hresult : t.result with
    | none =>
      rw [hresult] at hwell
      cases hwell
    | some result =>
      rw [hresult] at hwell
      refine ⟨result, eq_of_result hresult, ?_⟩
      rintro rfl
      cases hwell

end AiPrReview
