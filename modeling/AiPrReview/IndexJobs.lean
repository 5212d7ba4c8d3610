import AiPrReview.ContextRetriever
import AiPrReview.FullIndex
import AiPrReview.PendingStatus
import AiPrReview.RelyGuarantee

/-! The index jobs call by call, with any number of jobs and of specialists at
work in one table. -/

namespace AiPrReview

inductive IndexerCall (E : Type) : Type where
  | getRepoHeadSha (repo ref : Text)
  | downloadTarball (repo commitSha : Text)
  | createEmbedding (input : Text)
  | existingPaths (repo : Text)
  | write (repo : Text) (embedded : List (Chunk × E)) (deletePaths : List Text) (commitSha : Text)
  | markFailed (repo error : Text)
  | specialist (c : SpecialistCall)

variable {E : Type}

/-- `Except.error` and `none` are exceptions. -/
def IndexerCall.Reply : IndexerCall E → Type
  | getRepoHeadSha .. => Except Text Text
  | downloadTarball .. => Except Text SourceTree
  | createEmbedding _ => Except Text E
  | existingPaths _ => Except Text (List Text)
  | write .. => Except Text Unit
  | markFailed .. => Option Unit
  | specialist c => c.Reply

abbrev IndexerProg (E : Type) : Type → Type := Prog (IndexerCall.Reply (E := E))

def IndexerCall.perform (c : IndexerCall E) : IndexerProg E c.Reply := Prog.perform c

namespace Indexer

def andThen {α β : Type} (p : IndexerProg E (Except Text α)) (f : α → IndexerProg E (Except Text β)) :
    IndexerProg E (Except Text β) :=
  p >>= fun
    | .ok a => f a
    | .error error => .ret (.error error)

def fetchTarball (repo ref : Text) : IndexerProg E (Except Text FetchedSource) :=
  .call (.getRepoHeadSha repo ref) fun
    | .error error => .ret (.error error)
    | .ok commitSha => .call (.downloadTarball repo commitSha) fun
      | .error error => .ret (.error error)
      | .ok tree => .ret (.ok ⟨tree, commitSha⟩)

/-- `text[:_MAX_EMBED_CHARS] or " "`. -/
def embedInput (text : Text) : Text := if text.take maxEmbedChars = [] then [' '] else text.take maxEmbedChars

def embedChunks : List Chunk → IndexerProg E (Except Text (List (Chunk × E)))
  | [] => .ret (.ok [])
  | chunk :: chunks => .call (.createEmbedding (embedInput chunk.content)) fun
    | .error error => .ret (.error error)
    | .ok embedding => andThen (embedChunks chunks) fun rest => .ret (.ok ((chunk, embedding) :: rest))

def write (repo : Text) (embedded : List (Chunk × E)) (deletePaths : List Text) (commitSha : Text)
    (filesEmbedded : Nat) : IndexerProg E (Except Text IndexResult) :=
  .call (.write repo embedded deletePaths commitSha) fun
    | .error error => .ret (.error error)
    | .ok () => .ret (.ok ⟨repo, commitSha, embedded.length, filesEmbedded⟩)

section

variable (isWord : Char → Bool)

def fullIndex (repo : Text) : IndexerProg E (Except Text IndexResult) :=
  andThen (fetchTarball repo "HEAD".toList) fun fetched =>
    let chunks := chunkRepo isWord fetched.tree none
    andThen (embedChunks chunks) fun embedded =>
      let retained := chunks.map Chunk.path
      .call (.existingPaths repo) fun
        | .error error => .ret (.error error)
        | .ok existing =>
          let stale := existing.filter fun p => !retained.contains p
          write repo embedded stale fetched.commitSha retained.dedup.length

def chunksToReembed (repo afterSha : Text) (reembed : List Text) : IndexerProg E (Except Text (List Chunk)) :=
  if reembed = [] then .ret (.ok [])
  else andThen (fetchTarball repo afterSha) fun fetched => .ret (.ok (chunkRepo isWord fetched.tree (some reembed)))

/-- Nothing reads `before_sha`. -/
def incrementalIndex (repo afterSha : Text) (changed : ChangedFiles) : IndexerProg E (Except Text IndexResult) :=
  andThen (chunksToReembed isWord repo afterSha changed.toReembed) fun chunks =>
    andThen (embedChunks chunks) fun embedded =>
      write repo embedded changed.removed afterSha changed.toReembed.dedup.length

def program : (c : IndexCall) → IndexerProg E c.Reply
  | .fullIndex repo => fullIndex isWord repo
  | .incrementalIndex repo _ afterSha changed => incrementalIndex isWord repo afterSha changed
  | .markFailed repo error => (IndexerCall.markFailed repo error).perform

end

end Indexer

/-! The tasks that run. -/

inductive TaskResult : Type where
  | indexed (report : Option IndexReport)
  | reviewed (findings : Option (List Finding))

def indexTask (isWord : Char → Bool) (repo : Text) : IndexerProg E TaskResult :=
  (indexRepo repo).interpret (Indexer.program isWord) >>= fun report => .ret (.indexed report)

def reindexTask (isWord : Char → Bool) (repo beforeSha afterSha : Text) (added modified removed : List Text) :
    IndexerProg E TaskResult :=
  (reindexRepo repo beforeSha afterSha added modified removed).interpret (Indexer.program isWord) >>= fun report =>
    .ret (.indexed report)

def reviewTask (agent : SpecialistAgent) (diff : DiffContext) (reviewId : Option Text) : IndexerProg E TaskResult :=
  (agent.review diff reviewId).interpret (fun c => (IndexerCall.specialist c).perform) >>= fun findings =>
    .ret (.reviewed findings)

/-- What a worker may be given to do. -/
inductive IsTask (isWord : Char → Bool) (agents : AgentType → SpecialistAgent) : IndexerProg E TaskResult → Prop
  | index (repo : Text) : IsTask isWord agents (indexTask isWord repo)
  | reindex (repo beforeSha afterSha : Text) (added modified removed : List Text) :
      IsTask isWord agents (reindexTask isWord repo beforeSha afterSha added modified removed)
  | review (t : AgentType) (diff : DiffContext) (reviewId : Option Text) :
      IsTask isWord agents (reviewTask (agents t) diff reviewId)

/-! Their world. -/

structure CommittedWrite (E : Type) : Type where
  repo : Text
  embedded : List (Chunk × E)
  deletePaths : List Text
  commitSha : Text

/-- `served` are the trees that GitHub has handed out, `commits` the transactions
of `_write` that have committed. -/
structure IndexWorld (E : Type) : Type where
  db : IndexDb E
  spine : Spine
  served : List (Text × FetchedSource)
  commits : List (CommittedWrite E)

/-- The rows with their ids, which are in the order of the table. -/
def storedChunks (t : Table (CodeChunk.key (E := E))) : Table (StoredChunk.id (E := E)) where
  rows := t.rows.zipIdx.map fun x => { x.1 with id := x.2 }
  keys_nodup := by
    rw [List.map_map]
    exact (List.zipIdx_map_snd 0 t.rows).symm ▸ List.nodup_range'

/-- How a call goes. `raises` is an exception before the call had its effect;
`commits` may lose its reply to one. -/
inductive IndexerChoice (E : Type) : Type where
  | raises (error : Text)
  | sha (commitSha : Text)
  | tree (tree : SourceTree)
  | embedded
  | paths
  | commits (lost : Option Text)
  | marks (fate : Fate)
  | retrieves (ties : ContextRetriever.Ties E)
  | answers (a : Answer)

section

variable {D R : Type} [LinearOrder D] [LinearOrder R] (ops : ContextRetriever.SearchOps E D R) (embedding : Text → E)

def IndexerCall.exec : (c : IndexerCall E) → IndexerChoice E → IndexWorld E → Option (c.Reply × IndexWorld E)
  | getRepoHeadSha .., .sha commitSha, w => some (.ok commitSha, w)
  | getRepoHeadSha .., .raises error, w => some (.error error, w)
  | downloadTarball repo commitSha, .tree tree, w =>
    some (.ok tree, { w with served := w.served ++ [(repo, ⟨tree, commitSha⟩)] })
  | downloadTarball .., .raises error, w => some (.error error, w)
  | createEmbedding input, .embedded, w => some (.ok (embedding input), w)
  | createEmbedding _, .raises error, w => some (.error error, w)
  | existingPaths repo, .paths, w => some (.ok ((repoRows w.db repo).map CodeChunk.path).dedup, w)
  | existingPaths _, .raises error, w => some (.error error, w)
  | write repo embedded deletePaths commitSha, .commits lost, w =>
    (AiPrReview.write w.db repo embedded deletePaths commitSha).map fun db =>
      (lost.elim (.ok ()) .error,
        { w with db := db, commits := w.commits ++ [⟨repo, embedded, deletePaths, commitSha⟩] })
  | write .., .raises error, w => some (.error error, w)
  | markFailed repo error, .marks fate, w =>
    ((IndexCall.markFailed repo error).exec (.marked fate) w.db.states).map fun x =>
      (x.1, { w with db := { w.db with states := x.2 } })
  | specialist (.retrieve repo queryText k), .retrieves ties, w =>
    some ((ContextRetriever.retrieve ops (storedChunks w.db.chunks) ties embedding repo queryText k).map fun found =>
      found.map ScoredChunk.toRetrievedChunk, w)
  | specialist (.retrieve ..), .raises _, w => some (none, w)
  | specialist (.retrieve ..), _, _ => none
  | specialist c, .answers a, w => (c.exec a w.spine).map fun x => (x.1, { w with spine := x.2 })
  | _, _, _ => none

/-- A call may be repeated when its reply was lost. Meanwhile the webhook receiver
marks repositories pending, and days pass. -/
def indexHost : Host (IndexerCall.Reply (E := E)) (IndexerChoice E) (IndexWorld E) where
  exec := IndexerCall.exec ops embedding
  retries _ := true
  drift w w' := w'.db.chunks = w.db.chunks ∧ w'.served = w.served ∧ w'.commits = w.commits ∧
    (w'.db.states = w.db.states ∨ ∃ repo, w'.db.states = markPending w.db.states repo) ∧
    (w'.spine = w.spine ∨ spineHost.drift w.spine w'.spine)

end

/-! A job that runs alone, with GitHub answering as `github`, does what it is said to do in one step. -/

theorem write_congr {db : IndexDb E} {repo commitSha : Text} {embedded : List (Chunk × E)} {stale stale' : List Text}
    (h : ∀ p, p ∈ stale ↔ p ∈ stale') :
    write db repo embedded stale commitSha = write db repo embedded stale' commitSha := by
  have hcontains : ∀ p, stale.contains p = stale'.contains p := by
    intro p
    rw [Bool.eq_iff_iff, List.contains_iff_mem, List.contains_iff_mem, h p]
  have hall : stale.all legalText = stale'.all legalText := by
    rw [Bool.eq_iff_iff, List.all_eq_true, List.all_eq_true]
    simp only [h]
  have hdelete : deletePaths db.chunks repo stale = deletePaths db.chunks repo stale' := by
    simp only [deletePaths, hcontains]
  simp only [write, hall, hdelete]

section

variable {D R : Type} [LinearOrder D] [LinearOrder R] {ops : ContextRetriever.SearchOps E D R} {embedding : Text → E}
  {isWord : Char → Bool} {github : TarballSource} {w : IndexWorld E} {repo : Text}

theorem andThen_completes {α β : Type} {p : IndexerProg E (Except Text α)} {f : α → IndexerProg E (Except Text β)}
    {a : α} {r : Except Text β} {w₁ w₂ : IndexWorld E}
    (hp : Prog.Completes (IndexerCall.exec ops embedding) w p (.ok a) w₁)
    (hf : Prog.Completes (IndexerCall.exec ops embedding) w₁ (f a) r w₂) :
    Prog.Completes (IndexerCall.exec ops embedding) w (Indexer.andThen p f) r w₂ :=
  Prog.completes_bind_iff.mpr ⟨.ok a, w₁, hp, hf⟩

theorem fetchTarball_completes {ref : Text} {fetched : FetchedSource}
    (h : fetchTarball github repo ref = some fetched) :
    Prog.Completes (IndexerCall.exec ops embedding) w (Indexer.fetchTarball repo ref) (.ok fetched)
      { w with served := w.served ++ [(repo, fetched)] } := by
  obtain ⟨commitSha, _, htree⟩ := Option.bind_eq_some_iff.mp h
  obtain ⟨tree, _, he⟩ := Option.bind_eq_some_iff.mp htree
  obtain rfl := Option.some.inj he
  exact .call (.sha commitSha) rfl (.call (.tree tree) rfl (.ret _ _))

theorem embedChunks_completes (chunks : List Chunk) :
    Prog.Completes (IndexerCall.exec ops embedding) w (Indexer.embedChunks chunks)
      (.ok (embedChunks embedding chunks)) w := by
  induction chunks with
  | nil => exact .ret _ _
  | cons chunk chunks ih => exact .call .embedded rfl (andThen_completes ih (.ret _ _))

theorem write_completes {embedded : List (Chunk × E)} {stale : List Text} {commitSha : Text} {n : Nat} {db' : IndexDb E}
    (h : write w.db repo embedded stale commitSha = some db') :
    Prog.Completes (IndexerCall.exec ops embedding) w (Indexer.write repo embedded stale commitSha n)
      (.ok ⟨repo, commitSha, embedded.length, n⟩)
      { w with db := db', commits := w.commits ++ [⟨repo, embedded, stale, commitSha⟩] } := by
  have hexec : (IndexerCall.write repo embedded stale commitSha).exec ops embedding (.commits none) w =
      some (.ok (), { w with db := db', commits := w.commits ++ [⟨repo, embedded, stale, commitSha⟩] }) := by
    rw [IndexerCall.exec, h]
    rfl
  exact .call (.commits none) hexec (.ret _ _)

theorem fullIndex_completes {db' : IndexDb E} {res : IndexResult}
    (h : fullIndex isWord embedding github w.db repo = some (db', res)) : ∃ w',
      Prog.Completes (IndexerCall.exec ops embedding) w (Indexer.fullIndex isWord repo) (.ok res) w' ∧ w'.db = db' := by
  obtain ⟨fetched, hfetched, hrest⟩ := Option.bind_eq_some_iff.mp h
  obtain ⟨db₁, hwrite, he⟩ := Option.bind_eq_some_iff.mp hrest
  obtain ⟨rfl, rfl⟩ := Prod.mk.inj (Option.some.inj he)
  refine ⟨_, andThen_completes (fetchTarball_completes hfetched) (andThen_completes (embedChunks_completes _)
    (.call .paths rfl (write_completes ?_))), rfl⟩
  refine (write_congr fun p => ?_).trans hwrite
  simp [repoRows]

theorem incrementalIndex_completes {afterSha : Text} {changed : ChangedFiles} {db' : IndexDb E} {res : IndexResult}
    (h : incrementalIndex isWord embedding github w.db repo afterSha changed = some (db', res)) : ∃ w',
      Prog.Completes (IndexerCall.exec ops embedding) w (Indexer.incrementalIndex isWord repo afterSha changed)
        (.ok res) w' ∧ w'.db = db' := by
  obtain ⟨chunks, hchunks, hrest⟩ := Option.bind_eq_some_iff.mp h
  obtain ⟨db₁, hwrite, he⟩ := Option.bind_eq_some_iff.mp hrest
  obtain ⟨rfl, rfl⟩ := Prod.mk.inj (Option.some.inj he)
  have hreembed : ∃ w₁, Prog.Completes (IndexerCall.exec ops embedding) w
      (Indexer.chunksToReembed isWord repo afterSha changed.toReembed) (.ok chunks) w₁ ∧ w₁.db = w.db := by
    unfold chunksToReembed at hchunks
    unfold Indexer.chunksToReembed
    split_ifs at hchunks ⊢
    · obtain rfl := Option.some.inj hchunks
      exact ⟨w, .ret _ _, rfl⟩
    · obtain ⟨fetched, hfetched, rfl⟩ := Option.map_eq_some_iff.mp hchunks
      exact ⟨_, andThen_completes (fetchTarball_completes hfetched) (.ret _ _), rfl⟩
  obtain ⟨w₁, hcompletes, hdb⟩ := hreembed
  rw [← hdb] at hwrite
  exact ⟨_, andThen_completes hcompletes (andThen_completes (embedChunks_completes _) (write_completes hwrite)), rfl⟩

end

/-! What committed writes leave behind. -/

namespace CommittedWrite

variable (x : CommittedWrite E)

def Keyed : Prop := (x.embedded.map fun e => (e.1.path, e.1.chunkIndex)).Nodup

/-- The repository has the rows of the write, and no others. -/
def Exact (db : IndexDb E) : Prop :=
  ∀ r : CodeChunk E, r.repo = x.repo → (r ∈ db.chunks.rows ↔ ∃ e ∈ x.embedded, CodeChunk.ofChunk x.repo e.1 e.2 = r)

/-- The write clears every path of the repository. -/
def Covers (db : IndexDb E) : Prop :=
  ∀ r ∈ db.chunks.rows, r.repo = x.repo → r.path ∈ x.deletePaths ∨ ∃ e ∈ x.embedded, e.1.path = r.path

variable {x} {y : CommittedWrite E} {db db' : IndexDb E}

theorem Exact.covers (h : x.Exact db) : x.Covers db := by
  intro r hr hrepo
  obtain ⟨e, he, rfl⟩ := (h r hrepo).mp hr
  exact .inr ⟨e, he, rfl⟩

theorem Covers.write (h : x.Covers db) (hkeyed : x.Keyed)
    (hwrite : write db x.repo x.embedded x.deletePaths x.commitSha = some db') : x.Exact db' := by
  intro r hr
  rw [replaces_write hwrite hkeyed h r]
  constructor
  · rintro (hnew | ⟨_, hne⟩)
    · exact hnew
    · exact absurd hr hne
  · exact .inl

theorem mem_write_other (hkeyed : y.Keyed)
    (hwrite : AiPrReview.write db y.repo y.embedded y.deletePaths y.commitSha = some db')
    {r : CodeChunk E} (hr : r.repo ≠ y.repo) : r ∈ db'.chunks.rows ↔ r ∈ db.chunks.rows := by
  rw [mem_write_iff hwrite hkeyed]
  constructor
  · rintro (⟨e, _, rfl⟩ | ⟨hold, _⟩)
    · exact absurd rfl hr
    · exact hold
  · intro hold
    exact .inr ⟨hold, fun he => absurd he hr⟩

/-- A write that is `x`, or of another repository. -/
theorem Exact.step (h : x.Exact db) (hsame : y.repo = x.repo → y = x) (hkeyed : y.Keyed)
    (hwrite : AiPrReview.write db y.repo y.embedded y.deletePaths y.commitSha = some db') : x.Exact db' := by
  by_cases hy : y.repo = x.repo
  · obtain rfl := hsame hy
    exact h.covers.write hkeyed hwrite
  · intro r hr
    have hne : r.repo ≠ y.repo := fun he => hy (he.symm.trans hr)
    exact (mem_write_other hkeyed hwrite hne).trans (h r hr)

theorem Covers.step (h : x.Covers db) (hsame : y.repo = x.repo → y = x) (hkeyed : y.Keyed)
    (hwrite : AiPrReview.write db y.repo y.embedded y.deletePaths y.commitSha = some db') :
    x.Covers db' ∧ (x = y → x.Exact db') := by
  by_cases hy : y.repo = x.repo
  · obtain rfl := hsame hy
    have hexact := h.write hkeyed hwrite
    exact ⟨hexact.covers, fun _ => hexact⟩
  · refine ⟨fun r hr hrepo => ?_, fun he => absurd (by rw [he]) hy⟩
    have hne : r.repo ≠ y.repo := fun he => hy (he.symm.trans hrepo)
    exact h r ((mem_write_other hkeyed hwrite hne).mp hr) hrepo

end CommittedWrite

/-- From `db` to `db'` these writes have committed; the states are left aside. -/
def Replayed : List (CommittedWrite E) → IndexDb E → IndexDb E → Prop
  | [], db, db' => db'.chunks = db.chunks
  | x :: xs, db, db' => ∃ db₁ db₂, db₁.chunks = db.chunks ∧ x.Keyed ∧
      write db₁ x.repo x.embedded x.deletePaths x.commitSha = some db₂ ∧ Replayed xs db₂ db'

namespace Replayed

variable {x : CommittedWrite E} {xs ys : List (CommittedWrite E)} {db db' db'' : IndexDb E}

theorem of_chunks {db₁ : IndexDb E} (hc : db₁.chunks = db.chunks) (h : Replayed xs db db') : Replayed xs db₁ db' := by
  cases xs with
  | nil => exact h.trans hc.symm
  | cons x xs =>
    obtain ⟨db₂, db₃, hc', hrest⟩ := h
    exact ⟨db₂, db₃, hc'.trans hc.symm, hrest⟩

theorem append (h : Replayed xs db db') (h' : Replayed ys db' db'') : Replayed (xs ++ ys) db db'' := by
  induction xs generalizing db with
  | nil => exact h'.of_chunks h.symm
  | cons x xs ih =>
    obtain ⟨db₁, db₂, hc, hkeyed, hwrite, hrest⟩ := h
    exact ⟨db₁, db₂, hc, hkeyed, hwrite, ih hrest⟩

theorem exact (h : Replayed xs db db') (hsame : ∀ y ∈ xs, y.repo = x.repo → y = x) (hx : x.Exact db) :
    x.Exact db' := by
  induction xs generalizing db with
  | nil =>
    have hc : db'.chunks = db.chunks := h
    simpa only [CommittedWrite.Exact, hc] using hx
  | cons y xs ih =>
    obtain ⟨db₁, db₂, hc, hkeyed, hwrite, hrest⟩ := h
    have hx₁ : x.Exact db₁ := by simpa only [CommittedWrite.Exact, hc] using hx
    exact ih hrest (fun z hz => hsame z (by simp [hz])) (hx₁.step (hsame y (by simp)) hkeyed hwrite)

theorem covers (h : Replayed xs db db') (hsame : ∀ y ∈ xs, y.repo = x.repo → y = x) (hx : x.Covers db) :
    x.Covers db' ∧ (x ∈ xs → x.Exact db') := by
  induction xs generalizing db with
  | nil =>
    have hc : db'.chunks = db.chunks := h
    refine ⟨?_, fun hmem => absurd hmem List.not_mem_nil⟩
    simpa only [CommittedWrite.Covers, hc] using hx
  | cons y xs ih =>
    obtain ⟨db₁, db₂, hc, hkeyed, hwrite, hrest⟩ := h
    have hx₁ : x.Covers db₁ := by simpa only [CommittedWrite.Covers, hc] using hx
    have hrestSame : ∀ z ∈ xs, z.repo = x.repo → z = x := fun z hz => hsame z (by simp [hz])
    obtain ⟨hcovers, hexact⟩ := hx₁.step (hsame y (by simp)) hkeyed hwrite
    obtain ⟨hcovers', hexact'⟩ := ih hrest hrestSame hcovers
    refine ⟨hcovers', fun hmem => ?_⟩
    rcases List.mem_cons.mp hmem with he | hmem
    · exact hrest.exact hrestSame (hexact he)
    · exact hexact' hmem

end Replayed

/-! What the tasks may do, and what they are told. -/

/-- What happens in between: trees are served, and writes commit. -/
def IndexWorld.Later (w w' : IndexWorld E) : Prop :=
  w.served <+: w'.served ∧ ∃ xs, w'.commits = w.commits ++ xs ∧ Replayed xs w.db w'.db

namespace IndexWorld.Later

variable {w w' w'' : IndexWorld E}

theorem refl (w : IndexWorld E) : w.Later w := ⟨List.prefix_refl _, [], (List.append_nil _).symm, rfl⟩

theorem trans (h : w.Later w') (h' : w'.Later w'') : w.Later w'' := by
  obtain ⟨hserved, xs, hxs, hwritten⟩ := h
  obtain ⟨hserved', ys, hys, hwritten'⟩ := h'
  refine ⟨hserved.trans hserved', xs ++ ys, ?_, hwritten.append hwritten'⟩
  rw [hys, hxs, List.append_assoc]

theorem served (h : w.Later w') : w.served <+: w'.served := h.1

theorem commits (h : w.Later w') : w.commits <+: w'.commits := by
  obtain ⟨_, xs, hxs, _⟩ := h
  exact ⟨xs, hxs.symm⟩

end IndexWorld.Later

def IndexWorld.lastWrite (w : IndexWorld E) (repo : Text) : Option (CommittedWrite E) :=
  (w.commits.filter fun x => x.repo == repo).getLast?

def IndexWorld.recorded (w : IndexWorld E) (repo : Text) : Option (Option Text × Nat) :=
  (w.db.states.get repo).map fun state => (state.lastIndexedCommit, state.chunkCount)

section

variable (isWord : Char → Bool) (embedding : Text → E) (agents : AgentType → SpecialistAgent)
  (base : List (CodeChunk E))

/-- A row from the start, or one of a tree that GitHub served for its repository. -/
def Sourced (w : IndexWorld E) (r : CodeChunk E) : Prop :=
  r ∈ base ∨ ∃ src, (r.repo, src) ∈ w.served ∧ TreeRow isWord embedding src.tree r

def SourcedChunk (w : IndexWorld E) (repo : Text) (x : RetrievedChunk) : Prop :=
  ∃ r, Sourced isWord embedding base w r ∧ r.repo = repo ∧ r.path = x.path ∧ r.content = x.content

/-- The prompt of a review whose grounding is of its own repository. -/
def Grounded (w : IndexWorld E) (user : Text) : Prop :=
  ∃ t diff grounding, user = (agents t).buildPrompt diff grounding ∧
    ∀ x ∈ grounding, SourcedChunk isWord embedding base w diff.repoFullName x

def IndexerCall.permitted : IndexerCall E → IndexWorld E → Prop
  | write repo embedded _ _, w => (embedded.map fun e => (e.1.path, e.1.chunkIndex)).Nodup ∧
    ∀ e ∈ embedded, Sourced isWord embedding base w (CodeChunk.ofChunk repo e.1 e.2)
  | specialist (.parse _ _ user), w => Grounded isWord embedding agents base w user
  | _, _ => True

def IndexerCall.told : (c : IndexerCall E) → c.Reply → IndexWorld E → IndexWorld E → Prop
  | downloadTarball repo commitSha, reply, w, w' => ∀ tree : SourceTree, reply = Except.ok tree →
    w'.served = w.served ++ [(repo, ⟨tree, commitSha⟩)]
  | createEmbedding input, reply, _, _ => ∀ e : E, reply = Except.ok e → e = embedding input
  | existingPaths repo, reply, _, w' => ∀ paths : List Text, reply = Except.ok paths →
    ∀ r ∈ w'.db.chunks.rows, r.repo = repo → r.path ∈ paths
  | write repo embedded deletePaths commitSha, reply, w, w' => reply = Except.ok () →
    w'.commits = w.commits ++ [⟨repo, embedded, deletePaths, commitSha⟩]
  | specialist (.retrieve repo _ _), reply, _, w' => ∀ found : List RetrievedChunk, reply = some found →
    ∀ x ∈ found, SourcedChunk isWord embedding base w' repo x
  | _, _, _, _ => True

def indexContract : Contract (IndexerCall.Reply (E := E)) (IndexWorld E) where
  later := IndexWorld.Later
  later_refl := IndexWorld.Later.refl
  later_trans := IndexWorld.Later.trans
  permits c w := c.permitted isWord embedding agents base w
  tells c := c.told isWord embedding base

/-- The rows have a source, and what is recorded of a repository is of the last
write that committed for it. -/
structure IndexSound (w : IndexWorld E) : Prop where
  rows : ∀ r ∈ w.db.chunks.rows, Sourced isWord embedding base w r
  recorded : ∀ repo, ∀ x ∈ w.lastWrite repo,
    w.recorded repo = some (some x.commitSha, (repoRows w.db repo).length)

end

section

variable {isWord : Char → Bool} {embedding : Text → E} {agents : AgentType → SpecialistAgent}
  {base : List (CodeChunk E)} {w w' : IndexWorld E}

theorem Sourced.mono {r : CodeChunk E} (h : Sourced isWord embedding base w r) (hw : w.served <+: w'.served) :
    Sourced isWord embedding base w' r := by
  rcases h with h | ⟨src, hsrc, hrow⟩
  · exact .inl h
  · exact .inr ⟨src, hw.subset hsrc, hrow⟩

theorem SourcedChunk.mono {repo : Text} {x : RetrievedChunk} (h : SourcedChunk isWord embedding base w repo x)
    (hw : w.served <+: w'.served) : SourcedChunk isWord embedding base w' repo x := by
  obtain ⟨r, hr, hrest⟩ := h
  exact ⟨r, hr.mono hw, hrest⟩

theorem Grounded.mono {user : Text} (h : Grounded isWord embedding agents base w user) (hw : w.served <+: w'.served) :
    Grounded isWord embedding agents base w' user := by
  obtain ⟨t, diff, grounding, huser, hgrounding⟩ := h
  exact ⟨t, diff, grounding, huser, fun x hx => (hgrounding x hx).mono hw⟩

/-! What a call does. -/

theorem mem_storedChunks {t : Table (CodeChunk.key (E := E))} {c : StoredChunk E} (h : c ∈ (storedChunks t).rows) :
    c.toCodeChunk ∈ t.rows := by
  obtain ⟨⟨r, i⟩, hr, rfl⟩ := List.mem_map.mp h
  exact List.fst_mem_of_mem_zipIdx hr

/-- `mark_pending` and `mark_failed` leave what is recorded of an index alone. -/
theorem recorded_upsert {t : IndexStates} {a : RepoIndexState} {f : RepoIndexState → RepoIndexState}
    {hf : ∀ b, (f b).repo = b.repo}
    (hkeep : ∀ b, ((f b).lastIndexedCommit, (f b).chunkCount) = (b.lastIndexedCommit, b.chunkCount)) (repo : Text) :
    t.get repo = none ∨ ((t.upsert a f hf).get repo).map (fun state => (state.lastIndexedCommit, state.chunkCount)) =
      (t.get repo).map fun state => (state.lastIndexedCommit, state.chunkCount) := by
  cases hold : t.get repo with
  | none => exact .inl rfl
  | some b =>
    right
    rw [Table.get_upsert, hold]
    split_ifs
    · exact congrArg some (hkeep b)
    · rfl

/-- The table and the writes are as they were, and the states hold the same. -/
theorem IndexSound.of_states (S : IndexSound isWord embedding base w) (hrows : w'.db.chunks = w.db.chunks)
    (hserved : w.served <+: w'.served) (hcommits : w'.commits = w.commits)
    (hstates : ∀ repo, w.db.states.get repo = none ∨ w'.recorded repo = w.recorded repo) :
    IndexSound isWord embedding base w' ∧ w.Later w' := by
  refine ⟨⟨fun r hr => ?_, fun repo x hx => ?_⟩, hserved, [], by rw [hcommits, List.append_nil], hrows⟩
  · rw [hrows] at hr
    exact (S.rows r hr).mono hserved
  · have hlast : x ∈ w.lastWrite repo := by rwa [IndexWorld.lastWrite, hcommits] at hx
    have hrecorded := S.recorded repo x hlast
    rcases hstates repo with hnone | hsame
    · rw [IndexWorld.recorded, hnone] at hrecorded
      cases hrecorded
    · rw [hsame, hrecorded, repoRows, repoRows, hrows]

theorem IndexSound.refl (S : IndexSound isWord embedding base w) :
    IndexSound isWord embedding base w ∧ w.Later w :=
  S.of_states rfl (List.prefix_refl _) rfl fun _ => .inr rfl

theorem IndexSound.markFailed (S : IndexSound isWord embedding base w) {repo error : Text} {fate : Fate}
    {x : Option Unit × IndexStates} (h : (IndexCall.markFailed repo error).exec (.marked fate) w.db.states = some x) :
    IndexSound isWord embedding base { w with db := { w.db with states := x.2 } } ∧
      w.Later { w with db := { w.db with states := x.2 } } := by
  refine S.of_states rfl (List.prefix_refl _) rfl fun r => ?_
  have hmarked : w.db.states.get r = none ∨ ((AiPrReview.markFailed w.db.states repo error).get r).map
      (fun state => (state.lastIndexedCommit, state.chunkCount)) =
        (w.db.states.get r).map fun state => (state.lastIndexedCommit, state.chunkCount) := by
    apply recorded_upsert
    intro b
    rfl
  cases fate with
  | ok =>
    obtain rfl := Option.some.inj h
    exact hmarked
  | fails =>
    obtain rfl := Option.some.inj h
    exact .inr rfl
  | lost =>
    obtain rfl := Option.some.inj h
    exact hmarked

theorem lastWrite_append (commits : List (CommittedWrite E)) (x : CommittedWrite E) (repo : Text) :
    ((commits ++ [x]).filter fun y => y.repo == repo).getLast? =
      if x.repo = repo then some x else (commits.filter fun y => y.repo == repo).getLast? := by
  rw [List.filter_append]
  split_ifs with h
  · simp [h]
  · simp [h]

/-- A write whose rows have a source. -/
theorem IndexSound.write (S : IndexSound isWord embedding base w) {x : CommittedWrite E} (hkeyed : x.Keyed)
    (hsource : ∀ e ∈ x.embedded, Sourced isWord embedding base w (CodeChunk.ofChunk x.repo e.1 e.2)) {db' : IndexDb E}
    (hwrite : write w.db x.repo x.embedded x.deletePaths x.commitSha = some db') :
    IndexSound isWord embedding base { w with db := db', commits := w.commits ++ [x] } ∧
      w.Later { w with db := db', commits := w.commits ++ [x] } := by
  refine ⟨⟨fun r hr => ?_, fun repo y hy => ?_⟩, List.prefix_refl _, [x], rfl, w.db, db', rfl, hkeyed, hwrite, rfl⟩
  · rcases (mem_write_iff hwrite hkeyed).mp hr with ⟨e, he, rfl⟩ | ⟨hold, _⟩
    · exact hsource e he
    · exact S.rows r hold
  · have hlast : y ∈ if x.repo = repo then some x else w.lastWrite repo := by
      rwa [IndexWorld.lastWrite, lastWrite_append] at hy
    rw [IndexWorld.recorded, states_write hwrite]
    split_ifs at hlast ⊢ with hrepo
    · obtain rfl := Option.some.inj hlast
      rw [← hrepo]
      rfl
    · have hrows : ∀ r : CodeChunk E, r.repo = repo → (r ∈ db'.chunks.rows ↔ r ∈ w.db.chunks.rows) := by
        rintro r rfl
        exact CommittedWrite.mem_write_other hkeyed hwrite fun he => hrepo he.symm
      rw [(repoRows_perm hrows).length_eq]
      exact S.recorded repo y hlast

theorem told_retrieve (S : IndexSound isWord embedding base w) {D R : Type} [LinearOrder D] [LinearOrder R]
    {ops : ContextRetriever.SearchOps E D R} {ties : ContextRetriever.Ties E} {repo queryText : Text} {k : Nat}
    {found : List RetrievedChunk}
    (h : (ContextRetriever.retrieve ops (storedChunks w.db.chunks) ties embedding repo queryText k).map (fun found =>
      found.map ScoredChunk.toRetrievedChunk) = some found) :
    ∀ x ∈ found, SourcedChunk isWord embedding base w repo x := by
  obtain ⟨scored, hscored, rfl⟩ := Option.map_eq_some_iff.mp h
  intro x hx
  obtain ⟨y, hy, rfl⟩ := List.mem_map.mp hx
  obtain ⟨c, hc, hrepo, hpath, hcontent⟩ := ContextRetriever.exists_chunk_of_retrieve hscored hy
  exact ⟨c.toCodeChunk, S.rows _ (mem_storedChunks hc), hrepo, hpath.symm, hcontent.symm⟩

theorem honours_index {D R : Type} [LinearOrder D] [LinearOrder R] {ops : ContextRetriever.SearchOps E D R} :
    (indexHost ops embedding).Honours (indexContract isWord embedding agents base)
      (IndexSound isWord embedding base) := by
  refine ⟨fun c e w r w' S hpermits h => ?_, fun w w' S hd => ?_⟩
  · rw [← and_assoc]
    cases c with
    | getRepoHeadSha repo ref =>
      refine ⟨?_, trivial⟩
      cases e with
      | sha commitSha =>
        obtain ⟨rfl, rfl⟩ := Prod.mk.inj (Option.some.inj h)
        exact S.refl
      | raises error =>
        obtain ⟨rfl, rfl⟩ := Prod.mk.inj (Option.some.inj h)
        exact S.refl
      | _ => cases h
    | downloadTarball repo commitSha =>
      cases e with
      | tree tree =>
        obtain ⟨rfl, rfl⟩ := Prod.mk.inj (Option.some.inj h)
        refine ⟨S.of_states rfl (List.prefix_append _ _) rfl fun _ => .inr rfl, fun tree' he => ?_⟩
        obtain rfl := Except.ok.inj he
        rfl
      | raises error =>
        obtain ⟨rfl, rfl⟩ := Prod.mk.inj (Option.some.inj h)
        exact ⟨S.refl, fun _ he => by cases he⟩
      | _ => cases h
    | createEmbedding input =>
      cases e with
      | embedded =>
        obtain ⟨rfl, rfl⟩ := Prod.mk.inj (Option.some.inj h)
        exact ⟨S.refl, fun _ he => (Except.ok.inj he).symm⟩
      | raises error =>
        obtain ⟨rfl, rfl⟩ := Prod.mk.inj (Option.some.inj h)
        exact ⟨S.refl, fun _ he => by cases he⟩
      | _ => cases h
    | existingPaths repo =>
      cases e with
      | paths =>
        obtain ⟨rfl, rfl⟩ := Prod.mk.inj (Option.some.inj h)
        refine ⟨S.refl, fun paths he r hr hrepo => ?_⟩
        obtain rfl := Except.ok.inj he
        exact List.mem_dedup.mpr (List.mem_map_of_mem (mem_repoRows_iff.mpr ⟨hr, hrepo⟩))
      | raises error =>
        obtain ⟨rfl, rfl⟩ := Prod.mk.inj (Option.some.inj h)
        exact ⟨S.refl, fun _ he => by cases he⟩
      | _ => cases h
    | write repo embedded deletePaths commitSha =>
      cases e with
      | commits lost =>
        obtain ⟨db, hwrite, hx⟩ := Option.map_eq_some_iff.mp h
        obtain ⟨_, rfl⟩ := Prod.mk.inj hx
        exact ⟨S.write (x := ⟨repo, embedded, deletePaths, commitSha⟩) hpermits.1 hpermits.2 hwrite, fun _ => rfl⟩
      | raises error =>
        obtain ⟨rfl, rfl⟩ := Prod.mk.inj (Option.some.inj h)
        exact ⟨S.refl, fun he => by cases he⟩
      | _ => cases h
    | markFailed repo error =>
      refine ⟨?_, trivial⟩
      cases e with
      | marks fate =>
        obtain ⟨x, hmark, hx⟩ := Option.map_eq_some_iff.mp h
        obtain ⟨rfl, rfl⟩ := Prod.mk.inj hx
        exact S.markFailed hmark
      | _ => cases h
    | specialist c =>
      cases c with
      | retrieve repo queryText k =>
        cases e with
        | retrieves ties =>
          obtain ⟨hr, rfl⟩ := Prod.mk.inj (Option.some.inj h)
          exact ⟨S.refl, fun found he => told_retrieve S (hr.trans he)⟩
        | raises error =>
          obtain ⟨rfl, rfl⟩ := Prod.mk.inj (Option.some.inj h)
          exact ⟨S.refl, fun _ he => by cases he⟩
        | _ => cases h
      | _ =>
        refine ⟨?_, trivial⟩
        cases e with
        | answers a =>
          obtain ⟨x, _, hx⟩ := Option.map_eq_some_iff.mp h
          obtain ⟨_, rfl⟩ := Prod.mk.inj hx
          exact S.of_states rfl (List.prefix_refl _) rfl fun _ => .inr rfl
        | _ => cases h
  · obtain ⟨hrows, hserved, hcommits, hstates, _⟩ := hd
    refine S.of_states hrows (by rw [hserved]) hcommits fun repo => ?_
    rcases hstates with hsame | ⟨repo', hmarked⟩
    · exact .inr (by rw [IndexWorld.recorded, hsame]; rfl)
    · rw [IndexWorld.recorded, hmarked]
      apply recorded_upsert
      intro b
      rfl

end

end AiPrReview
