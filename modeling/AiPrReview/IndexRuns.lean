import AiPrReview.Evaluation
import AiPrReview.IndexJobs
import AiPrReview.ReviewDetail

/-! Runs of index jobs and reviews in one table: what the prompts are grounded
in, and when a full index leaves exactly the tree that it fetched. -/

namespace AiPrReview

open IndexWorld

variable {E : Type} {isWord : Char → Bool} {embedding : Text → E} {agents : AgentType → SpecialistAgent}
  {base : List (CodeChunk E)} {w w' : IndexWorld E}

theorem mem_drop_of_prefix {A : Type} {first middle last : List A} {a : A} (h : first <+: middle)
    (h' : middle ++ [a] <+: last) : a ∈ last.drop first.length := by
  obtain ⟨xs, rfl⟩ := h
  obtain ⟨ys, rfl⟩ := h'
  simp

theorem mem_drop_of_drop {A : Type} {first middle last : List A} {a : A} (h : first <+: middle) (h' : middle <+: last)
    (ha : a ∈ middle.drop first.length) : a ∈ last.drop first.length := by
  obtain ⟨xs, rfl⟩ := h
  obtain ⟨ys, rfl⟩ := h'
  simp only [List.append_assoc, List.drop_left] at ha ⊢
  exact List.mem_append_left _ ha

namespace Indexer

variable (isWord embedding agents base) in
/-- `p` keeps the contract, and what it returns has `Q`. -/
def Gives {α : Type} (Q : α → IndexWorld E → Prop) (p : IndexerProg E (Except Text α)) (w : IndexWorld E) : Prop :=
  p.Keeps (indexContract isWord embedding agents base) (fun r w => ∀ a, r = .ok a → Q a w) w

section

variable {α β : Type} {Q : α → IndexWorld E → Prop} {Q' : β → IndexWorld E → Prop}

theorem Gives.error (error : Text) : Gives isWord embedding agents base Q (.ret (.error error)) w := by
  intro w' _ a ha
  cases ha

theorem Gives.ok {a : α} (h : ∀ w', w.Later w' → Q a w') :
    Gives isWord embedding agents base Q (.ret (.ok a)) w := by
  intro w' hw b hb
  obtain rfl := Except.ok.inj hb
  exact h w' hw

theorem Gives.andThen {p : IndexerProg E (Except Text α)} {f : α → IndexerProg E (Except Text β)}
    (h : Gives isWord embedding agents base Q p w)
    (hf : ∀ a w', w.Later w' → Q a w' →
      Gives isWord embedding agents base Q' (f a) w') :
    Gives isWord embedding agents base Q' (Indexer.andThen p f) w := by
  refine Prog.Keeps.bind h fun r w' hw hr => ?_
  cases r with
  | error error => exact Gives.error error
  | ok a => exact hf a w' hw (hr a rfl)

end

theorem gives_fetchTarball (repo ref : Text) :
    Gives isWord embedding agents base (fun fetched w' => (repo, fetched) ∈ w'.served.drop w.served.length)
      (fetchTarball repo ref) w := by
  refine Prog.Keeps.call (fun _ _ => trivial) fun reply w₁ w₂ hw₁ hw₂ _ => ?_
  cases reply with
  | error error => exact Gives.error error
  | ok commitSha =>
    refine Prog.Keeps.call (fun _ _ => trivial) fun reply w₃ w₄ hw₃ hw₄ htold => ?_
    cases reply with
    | error error => exact Gives.error error
    | ok tree =>
      refine Gives.ok fun w₅ hw₅ => ?_
      have hserved : w₄.served = w₃.served ++ [(repo, ⟨tree, commitSha⟩)] := htold tree rfl
      have hlast : w₃.served ++ [(repo, ⟨tree, commitSha⟩)] <+: w₅.served := hserved ▸ Later.served hw₅
      exact mem_drop_of_prefix ((Later.served hw₁).trans ((Later.served hw₂).trans (Later.served hw₃))) hlast

theorem gives_embedChunks (chunks : List Chunk) :
    Gives isWord embedding agents base (fun embedded _ => embedded = AiPrReview.embedChunks embedding chunks)
      (embedChunks chunks) w := by
  induction chunks generalizing w with
  | nil => exact Gives.ok fun _ _ => rfl
  | cons chunk chunks ih =>
    refine Prog.Keeps.call (fun _ _ => trivial) fun reply w₁ w₂ _ _ htold => ?_
    cases reply with
    | error error => exact Gives.error error
    | ok e =>
      refine Gives.andThen ih fun rest w₃ _ hrest => Gives.ok fun _ _ => ?_
      have he : e = embedding (embedInput chunk.content) := htold e rfl
      rw [hrest, he]
      rfl

theorem gives_write {repo commitSha : Text} {embedded : List (Chunk × E)} {deletePaths : List Text}
    (filesEmbedded : Nat)
    (hkeyed : (embedded.map fun e => (e.1.path, e.1.chunkIndex)).Nodup)
    (hsource : ∀ e ∈ embedded, Sourced isWord embedding base w (CodeChunk.ofChunk repo e.1 e.2)) :
    Gives isWord embedding agents base (fun result w' => result = ⟨repo, commitSha, embedded.length, filesEmbedded⟩ ∧
        ⟨repo, embedded, deletePaths, commitSha⟩ ∈ w'.commits.drop w.commits.length)
      (Indexer.write repo embedded deletePaths commitSha filesEmbedded) w := by
  refine Prog.Keeps.call (fun w₁ hw₁ => ⟨hkeyed, fun e he => (hsource e he).mono (Later.served hw₁)⟩)
    fun reply w₁ w₂ hw₁ hw₂ htold => ?_
  cases reply with
  | error error => exact Gives.error error
  | ok u =>
    refine Gives.ok fun w₃ hw₃ => ⟨rfl, ?_⟩
    have hcommits : w₂.commits = w₁.commits ++ [⟨repo, embedded, deletePaths, commitSha⟩] := htold rfl
    have hlast : w₁.commits ++ [⟨repo, embedded, deletePaths, commitSha⟩] <+: w₃.commits :=
      hcommits ▸ Later.commits hw₃
    exact mem_drop_of_prefix (Later.commits hw₁) hlast

theorem sourced_embedChunks {repo : Text} {src : FetchedSource} {only : Option (List Text)}
    (hsrc : (repo, src) ∈ w.served) :
    ∀ e ∈ AiPrReview.embedChunks embedding (chunkRepo isWord src.tree only),
      Sourced isWord embedding base w (CodeChunk.ofChunk repo e.1 e.2) := by
  intro e he
  obtain ⟨c, hc, rfl⟩ := List.mem_map.mp he
  exact .inr ⟨src, hsrc, (treeRow_iff.mp ⟨c, hc, rfl⟩).2⟩

variable (isWord embedding) in
/-- From `w₀` to `w` a tree was fetched and written, and if no other write of its
repository was committed the table has its rows. -/
def FullyIndexed (repo : Text) (w₀ : IndexWorld E) (commitSha : Text) (chunkCount : Nat) (w : IndexWorld E) : Prop :=
  ∃ tree x, (repo, ⟨tree, commitSha⟩) ∈ w.served.drop w₀.served.length ∧ x ∈ w.commits.drop w₀.commits.length ∧
    x.repo = repo ∧ x.commitSha = commitSha ∧
    x.embedded = AiPrReview.embedChunks embedding (chunkRepo isWord tree none) ∧ chunkCount = x.embedded.length ∧
    ((∀ y ∈ w.commits.drop w₀.commits.length, y.repo = repo → y = x) → x.Exact w.db)

theorem gives_fullIndex (repo : Text) :
    Gives isWord embedding agents base (fun result w' => result.repoFullName = repo ∧
        FullyIndexed isWord embedding repo w result.commitSha result.chunkCount w')
      (fullIndex isWord repo) w := by
  refine Gives.andThen (gives_fetchTarball repo _) fun fetched w₁ hw₁ hfetched => ?_
  refine Gives.andThen (gives_embedChunks _) fun embedded w₂ hw₂ hembedded => ?_
  subst hembedded
  refine Prog.Keeps.call (fun _ _ => trivial) fun reply w₃ w₄ hw₃ hw₄ htold => ?_
  cases reply with
  | error error => exact Gives.error error
  | ok existing =>
    have hserved₄ : w₁.served <+: w₄.served :=
      (Later.served hw₂).trans ((Later.served hw₃).trans (Later.served hw₄))
    have hsrc : (repo, fetched) ∈ w₄.served := hserved₄.subset (List.mem_of_mem_drop hfetched)
    have hkeyed : ((AiPrReview.embedChunks embedding (chunkRepo isWord fetched.tree none)).map fun e =>
        (e.1.path, e.1.chunkIndex)).Nodup :=
      embedChunks_nodup embedding (chunkRepo_nodup isWord fetched.tree none)
    refine Prog.Keeps.mono (gives_write _ hkeyed (sourced_embedChunks hsrc)) ?_
    intro reply w₅ hw₅ hgives result hresult
    obtain ⟨rfl, hmem⟩ := hgives result hresult
    have hcommits : w.commits <+: w₄.commits := (Later.commits hw₁).trans ((Later.commits hw₂).trans
      ((Later.commits hw₃).trans (Later.commits hw₄)))
    obtain ⟨earlier, hearlier⟩ := hcommits
    obtain ⟨hserved₅, xs, hxs, hwritten⟩ := hw₅
    rw [hxs, List.drop_left] at hmem
    have hdrop : w₅.commits.drop w.commits.length = earlier ++ xs := by
      rw [hxs, ← hearlier, List.append_assoc, List.drop_left]
    have hserved := mem_drop_of_drop (Later.served hw₁) (hserved₄.trans hserved₅) hfetched
    have hnew := List.mem_append_right earlier hmem
    rw [← hdrop] at hnew
    refine ⟨rfl, fetched.tree, _, hserved, hnew, rfl, rfl, rfl, rfl, fun hsame => ?_⟩
    rw [hdrop] at hsame
    refine (hwritten.covers (fun y hy => hsame y (List.mem_append_right _ hy)) ?_).2 hmem
    -- a path of an old row is retained or stale
    intro r hr hrepo
    have hold : r.path ∈ existing := htold existing rfl r hr hrepo
    by_cases hp : r.path ∈ (chunkRepo isWord fetched.tree none).map Chunk.path
    · obtain ⟨c, hc, hcp⟩ := List.mem_map.mp hp
      exact .inr ⟨_, List.mem_map_of_mem hc, hcp⟩
    · exact .inl (List.mem_filter.mpr ⟨hold, by simpa using hp⟩)

theorem gives_chunksToReembed (repo afterSha : Text) (reembed : List Text) :
    Gives isWord embedding agents base (fun chunks w' => chunks = [] ∨ ∃ src, (repo, src) ∈ w'.served ∧
      chunks = chunkRepo isWord src.tree (some reembed)) (chunksToReembed isWord repo afterSha reembed) w := by
  unfold chunksToReembed
  split_ifs
  · exact Gives.ok fun _ _ => .inl rfl
  · refine Gives.andThen (gives_fetchTarball repo _) fun fetched w₁ _ hfetched => Gives.ok fun w₂ hw₂ => ?_
    exact .inr ⟨fetched, (Later.served hw₂).subset (List.mem_of_mem_drop hfetched), rfl⟩

theorem gives_incrementalIndex (repo afterSha : Text) (changed : ChangedFiles) :
    Gives isWord embedding agents base (fun _ _ => True) (incrementalIndex isWord repo afterSha changed) w := by
  refine Gives.andThen (gives_chunksToReembed repo afterSha _) fun chunks w₁ _ hchunks => ?_
  refine Gives.andThen (gives_embedChunks chunks) fun embedded w₂ hw₂ hembedded => ?_
  subst hembedded
  rcases hchunks with rfl | ⟨src, hsrc, rfl⟩
  · have hsource : ∀ e ∈ ([] : List (Chunk × E)),
        Sourced isWord embedding base w₂ (CodeChunk.ofChunk repo e.1 e.2) := fun e he => absurd he List.not_mem_nil
    exact Prog.Keeps.mono (gives_write _ List.nodup_nil hsource) fun _ _ _ _ _ _ => trivial
  · have hkeyed := embedChunks_nodup embedding (chunkRepo_nodup isWord src.tree (some changed.toReembed))
    have hsrc' : (repo, src) ∈ w₂.served := (Later.served hw₂).subset hsrc
    exact Prog.Keeps.mono (gives_write _ hkeyed (sourced_embedChunks hsrc')) fun _ _ _ _ _ _ => trivial

end Indexer

/-! The tasks. -/

open Indexer

theorem endIndex_keeps {repo : Text} (reply : Except Text IndexResult) :
    ((endIndex repo reply).interpret (Indexer.program isWord)).Keeps (indexContract isWord embedding agents base)
      (fun report _ => ∀ r, report = some r → ∃ result, reply = .ok result ∧
        r = ⟨result.repoFullName, result.commitSha, result.chunkCount⟩) w := by
  cases reply with
  | ok result =>
    intro w' _ r hr
    obtain rfl := Option.some.inj hr
    exact ⟨result, rfl, rfl⟩
  | error error =>
    refine Prog.Keeps.call (fun _ _ => trivial) fun _ _ w₂ _ _ _ w₃ _ r hr => ?_
    cases hr

theorem indexTask_keeps (repo : Text) :
    (indexTask isWord repo).Keeps (indexContract isWord embedding agents base)
      (fun result w' => ∀ report, result = .indexed (some report) →
        FullyIndexed isWord embedding repo w report.commitSha report.chunkCount w') w := by
  have hindex : (Indexer.fullIndex isWord repo >>= fun reply =>
      (endIndex repo reply).interpret (Indexer.program isWord)).Keeps (indexContract isWord embedding agents base)
        (fun report w' => ∀ r, report = some r →
          FullyIndexed isWord embedding repo w r.commitSha r.chunkCount w') w := by
    refine Prog.Keeps.bind_later (gives_fullIndex repo) fun reply w₁ _ hreply => ?_
    refine Prog.Keeps.mono (endIndex_keeps reply) fun report w₂ hw₂ hr r hsome => ?_
    obtain ⟨result, hresult, rfl⟩ := hr r hsome
    exact (hreply w₂ hw₂ result hresult).2
  refine Prog.Keeps.bind_later hindex fun report w₁ _ hreport w₂ hw₂ r hr => ?_
  exact hreport w₂ hw₂ r (TaskResult.indexed.inj hr)

theorem reindexTask_keeps (repo beforeSha afterSha : Text) (added modified removed : List Text) :
    (reindexTask isWord repo beforeSha afterSha added modified removed).Keeps
      (indexContract isWord embedding agents base) (fun _ _ => True) w := by
  have hindex : (Indexer.incrementalIndex isWord repo afterSha ⟨added, modified, removed⟩ >>= fun reply =>
      (endIndex repo reply).interpret (Indexer.program isWord)).Keeps (indexContract isWord embedding agents base)
        (fun _ _ => True) w := by
    refine Prog.Keeps.bind (gives_incrementalIndex repo afterSha _) fun reply w₁ _ _ => ?_
    exact Prog.Keeps.mono (endIndex_keeps reply) fun _ _ _ _ => trivial
  exact Prog.Keeps.bind hindex fun _ _ _ _ _ _ => trivial

/-! A review: the contract seen from its calls. -/

variable (isWord embedding agents base) in
def specialistContract : Contract SpecialistCall.Reply (IndexWorld E) where
  later := IndexWorld.Later
  later_refl := IndexWorld.Later.refl
  later_trans := IndexWorld.Later.trans
  permits c := (IndexerCall.specialist c).permitted isWord embedding agents base
  tells c := (IndexerCall.specialist c).told isWord embedding base

theorem specialist_keeps {c : SpecialistCall} (h : (specialistContract isWord embedding agents base).permits c w) :
    (IndexerCall.specialist c).perform.Keeps (indexContract isWord embedding agents base)
      (fun r w' => (specialistContract isWord embedding agents base).tells c r w w') w := by
  cases c with
  | retrieve repo queryText k =>
    refine Prog.Keeps.call (fun _ _ => trivial) fun reply w₁ w₂ _ _ htold w₃ hw₃ found hfound x hx => ?_
    exact (htold found hfound x hx).mono (Later.served hw₃)
  | parse model system user =>
    have hgrounded : Grounded isWord embedding agents base w user := h
    exact Prog.Keeps.call (fun w₁ hw₁ => hgrounded.mono (Later.served hw₁)) fun _ _ _ _ _ _ _ _ => trivial
  | spendTodayUsd => exact Prog.Keeps.call (fun _ _ => trivial) fun _ _ _ _ _ _ _ _ => trivial
  | emit e => exact Prog.Keeps.call (fun _ _ => trivial) fun _ _ _ _ _ _ _ _ => trivial

theorem emit_keeps (e : Event) : (SpecialistAgent.emit e).Keeps (specialistContract isWord embedding agents base)
    (fun _ _ => True) w :=
  Prog.Keeps.call (fun _ _ => trivial) fun _ _ _ _ _ _ _ _ => trivial

theorem retrieve_keeps (a : SpecialistAgent) (diff : DiffContext) :
    (a.retrieve diff).Keeps (specialistContract isWord embedding agents base)
      (fun reply w' => ∀ found, reply = some found →
        ∀ x ∈ found, SourcedChunk isWord embedding base w' diff.repoFullName x) w :=
  Prog.Keeps.call (fun _ _ => trivial) fun _ _ _ _ _ htold _ hw found hfound x hx =>
    (htold found hfound x hx).mono (Later.served hw)

theorem parseCompletion_keeps (t : AgentType) {diff : DiffContext} {grounding : List RetrievedChunk}
    (h : ∀ x ∈ grounding, SourcedChunk isWord embedding base w diff.repoFullName x) :
    ((agents t).parseCompletion diff grounding).Keeps (specialistContract isWord embedding agents base)
      (fun _ _ => True) w :=
  Prog.Keeps.call (fun _ hw => ⟨t, diff, grounding, rfl, fun x hx => (h x hx).mono (Later.served hw)⟩)
    fun _ _ _ _ _ _ _ _ => trivial

theorem traced_keeps (t : AgentType) (diff : DiffContext) (reviewId : Text) :
    ((agents t).traced diff reviewId).Keeps (specialistContract isWord embedding agents base) (fun _ _ => True) w := by
  have hret : ∀ {w : IndexWorld E} (outcome : Text × Option (List Finding)), (pure outcome : SpecialistProg _).Keeps
      (specialistContract isWord embedding agents base) (fun _ _ => True) w := fun _ _ _ => trivial
  refine Prog.Keeps.bind_later (retrieve_keeps (agents t) diff) fun reply w₁ _ hreply => ?_
  cases reply with
  | none => exact hret _
  | some grounding =>
    refine Prog.Keeps.bind (emit_keeps _) fun reply w₂ hw₂ _ => ?_
    cases reply with
    | none => exact hret _
    | some u =>
      refine Prog.Keeps.bind (parseCompletion_keeps t (hreply w₂ hw₂ grounding rfl)) fun reply w₃ _ _ => ?_
      cases reply with
      | none => exact hret _
      | some completion =>
        refine Prog.Keeps.bind (emit_keeps _) fun reply w₄ _ _ => ?_
        cases reply with
        | none => exact hret _
        | some u => cases completion.parsed <;> exact hret _

theorem tracedReview_keeps (t : AgentType) (diff : DiffContext) (reviewId : Text) :
    ((agents t).tracedReview diff reviewId).Keeps (specialistContract isWord embedding agents base)
      (fun _ _ => True) w := by
  refine Prog.Keeps.bind (emit_keeps _) fun reply w₁ _ _ => ?_
  cases reply with
  | none => exact fun _ _ => trivial
  | some u =>
    refine Prog.Keeps.bind (traced_keeps t diff reviewId) fun result w₂ _ _ => ?_
    refine Prog.Keeps.bind (emit_keeps _) fun reply w₃ _ _ => ?_
    cases reply <;> exact fun _ _ => trivial

theorem review_keeps (t : AgentType) (diff : DiffContext) (reviewId : Option Text) :
    ((agents t).review diff reviewId).Keeps (specialistContract isWord embedding agents base) (fun _ _ => True) w := by
  cases reviewId with
  | none =>
    refine Prog.Keeps.bind_later (retrieve_keeps (agents t) diff) fun reply w₁ _ hreply => ?_
    cases reply with
    | none => exact fun _ _ => trivial
    | some grounding =>
      have hgrounding := hreply w₁ (.refl w₁) grounding rfl
      refine Prog.Keeps.bind (parseCompletion_keeps t hgrounding) fun reply w₂ _ _ => ?_
      cases reply <;> exact fun _ _ => trivial
  | some reviewId =>
    unfold SpecialistAgent.review
    cases (agents t).budget with
    | none => exact tracedReview_keeps t diff reviewId
    | some g =>
      refine Prog.Keeps.call (fun _ _ => trivial) fun spend w₁ w₂ _ _ _ => ?_
      cases spend with
      | none => exact fun _ _ => trivial
      | some spend =>
        dsimp only
        split_ifs
        · exact fun _ _ => trivial
        · exact tracedReview_keeps t diff reviewId

theorem reviewTask_keeps (t : AgentType) (diff : DiffContext) (reviewId : Option Text) :
    (reviewTask (agents t) diff reviewId).Keeps (indexContract isWord embedding agents base) (fun _ _ => True) w := by
  have hreview : ((agents t).review diff reviewId).Keeps (specialistContract isWord embedding agents base)
      (fun _ _ => True) w := review_keeps t diff reviewId
  have hcalls : (((agents t).review diff reviewId).interpret fun c => (IndexerCall.specialist c).perform).Keeps
      (indexContract isWord embedding agents base) (fun _ _ => True) w := by
    refine Prog.Keeps.interpret ?_ ?_ hreview
    · exact fun _ _ hw => hw
    · exact fun c w hc => specialist_keeps hc
  exact Prog.Keeps.bind hcalls fun _ _ _ _ _ _ => trivial

theorem task_keeps {p : IndexerProg E TaskResult} (h : IsTask isWord agents p) :
    p.Keeps (indexContract isWord embedding agents base) (fun _ _ => True) w := by
  cases h with
  | index repo => exact Prog.Keeps.mono (indexTask_keeps repo) fun _ _ _ _ => trivial
  | reindex repo beforeSha afterSha added modified removed =>
    exact reindexTask_keeps repo beforeSha afterSha added modified removed
  | review t diff reviewId => exact reviewTask_keeps t diff reviewId

/-! Whole runs. -/

section

variable {D R : Type} [LinearOrder D] [LinearOrder R] {ops : ContextRetriever.SearchOps E D R}
  {cond : Pool (IndexWorld E) (IndexerProg E TaskResult) → Label → Prop} {db : IndexDb E} {spine : Spine}
  {s₀ s : Pool (IndexWorld E) (IndexerProg E TaskResult)}

theorem indexSound_start (db : IndexDb E) (spine : Spine) :
    IndexSound isWord embedding db.chunks.rows (⟨db, spine, [], []⟩ : IndexWorld E) := by
  refine ⟨fun r hr => .inl hr, fun repo x hx => ?_⟩
  cases hx

theorem keeps_of_run
    (hrun : (indexHost ops embedding).Run (IsTask isWord agents) cond ⟨⟨db, spine, [], []⟩, []⟩ s) :
    IndexSound isWord embedding db.chunks.rows s.world ∧
      s.Keeps (indexContract isWord embedding agents db.chunks.rows) fun _ _ => True := by
  obtain ⟨hsound, _, hkeeps⟩ := honours_index.run (fun p w hp _ => task_keeps hp) hrun (indexSound_start db spine)
    fun p hp => by cases hp
  exact ⟨hsound, hkeeps⟩

/-- A prompt that is about to be sent is grounded in chunks of the repository
under review: rows from the start, or of trees that GitHub served for it. -/
theorem prompts_sourced
    (hrun : (indexHost ops embedding).Run (IsTask isWord agents) cond ⟨⟨db, spine, [], []⟩, []⟩ s)
    {p : IndexerProg E TaskResult} (hp : .running p ∈ s.threads) {model system user : Text}
    (hnext : p.next = some (.specialist (.parse model system user))) :
    Grounded isWord embedding agents db.chunks.rows s.world user := by
  have hkeeps := (keeps_of_run hrun).2 p hp
  cases p with
  | ret a => cases hnext
  | call c k =>
    obtain rfl := Option.some.inj hnext
    exact (hkeeps s.world (.refl _)).1

theorem lastWrite_of_new {old new : List (CommittedWrite E)} {x : CommittedWrite E} (hx : x ∈ new)
    (hsame : ∀ y ∈ new, y.repo = x.repo → y = x) :
    ((old ++ new).filter fun y => y.repo == x.repo).getLast? = some x := by
  rw [List.filter_append, List.getLast?_append]
  have hmem : x ∈ new.filter fun y => y.repo == x.repo := List.mem_filter.mpr ⟨hx, by simp⟩
  cases hlast : (new.filter fun y => y.repo == x.repo).getLast? with
  | none =>
    rw [List.getLast?_eq_none_iff.mp hlast] at hmem
    exact absurd hmem List.not_mem_nil
  | some y =>
    obtain ⟨hy, hrepo⟩ := List.mem_filter.mp (List.mem_of_getLast? hlast)
    rw [hsame y hy (by simpa using hrepo)]
    rfl

theorem holdsTree_of_exact {db : IndexDb E} {x : CommittedWrite E} {tree : SourceTree} (h : x.Exact db)
    (hx : x.embedded = embedChunks embedding (chunkRepo isWord tree none)) :
    HoldsTree isWord embedding db x.repo tree := by
  intro r hr
  rw [h r hr, hx, mem_embedChunks_iff]

theorem repoRows_length {db : IndexDb E} {repo : Text} {tree : SourceTree}
    (h : HoldsTree isWord embedding db repo tree) :
    (repoRows db repo).length = (chunkRepo isWord tree none).length := by
  have hrows : ((chunkRepo isWord tree none).map (rowOf embedding repo)).Nodup := by
    refine List.Nodup.of_map (fun r : CodeChunk E => (r.path, r.chunkIndex)) ?_
    rw [List.map_map]
    exact chunkRepo_nodup isWord tree none
  have hperm : (repoRows db repo).Perm ((chunkRepo isWord tree none).map (rowOf embedding repo)) := by
    refine (List.perm_ext_iff_of_nodup ((chunks_nodup db).filter _) hrows).mpr fun r => ?_
    show r ∈ repoRows db repo ↔ _
    rw [mem_repoRows_iff, List.mem_map]
    constructor
    · rintro ⟨hr, hrepo⟩
      exact (h r hrepo).mp hr
    · rintro ⟨c, hc, rfl⟩
      exact ⟨(h _ rfl).mpr ⟨c, hc, rfl⟩, rfl⟩
  rw [hperm.length_eq, List.length_map]

/-- A full index that has returned, among any other tasks: a tree that GitHub
served meanwhile was written for the repository, and if no other write of the
repository has committed since the task began, the index holds exactly this tree
and is recorded as the task reports it. -/
theorem full_index_current
    (hrun₀ : (indexHost ops embedding).Run (IsTask isWord agents) cond ⟨⟨db, spine, [], []⟩, []⟩ s₀) {i : Nat}
    {repo : Text} (htask : s₀.threads[i]? = some (.running (indexTask isWord repo)))
    (hrun : (indexHost ops embedding).Run (IsTask isWord agents) cond s₀ s) {report : IndexReport}
    (hdone : s.threads[i]? = some (.running (.ret (.indexed (some report))))) :
    ∃ tree x, (repo, ⟨tree, report.commitSha⟩) ∈ s.world.served.drop s₀.world.served.length ∧
      x ∈ s.world.commits.drop s₀.world.commits.length ∧ x.repo = repo ∧ x.commitSha = report.commitSha ∧
      x.embedded = embedChunks embedding (chunkRepo isWord tree none) ∧
      ((∀ y ∈ s.world.commits.drop s₀.world.commits.length, y.repo = repo → y = x) →
        HoldsTree isWord embedding s.world.db repo tree ∧
          s.world.recorded repo = some (some report.commitSha, report.chunkCount)) := by
  obtain ⟨hsound₀, hkeeps₀⟩ := keeps_of_run hrun₀
  obtain ⟨hsound, hlater, _⟩ := honours_index.run (fun p w hp _ => task_keeps hp) hrun hsound₀ hkeeps₀
  obtain ⟨hlt, _⟩ := List.getElem?_eq_some_iff.mp htask
  have hat := honours_index.run_at (fun p w hp _ => task_keeps hp) hrun hsound₀ hkeeps₀ hlt fun p hp => by
    obtain rfl := Thread.running.inj (Option.some.inj (htask.symm.trans hp))
    exact indexTask_keeps repo
  obtain ⟨tree, x, hserved, hx, hrepo, hsha, hembedded, hcount, hexact⟩ := hat.returned hdone report rfl
  refine ⟨tree, x, hserved, hx, hrepo, hsha, hembedded, fun hsame => ?_⟩
  subst hrepo
  have hholds := holdsTree_of_exact (hexact hsame) hembedded
  obtain ⟨new, hnew⟩ := Later.commits hlater
  rw [← hnew, List.drop_left] at hx hsame
  have hlast : s.world.lastWrite x.repo = some x := by
    rw [IndexWorld.lastWrite, ← hnew]
    exact lastWrite_of_new hx hsame
  refine ⟨hholds, ?_⟩
  rw [hsound.recorded x.repo x hlast, repoRows_length hholds, hsha, hcount, hembedded, embedChunks, List.length_map]

end

/-! A full index and a review, while another repository is reindexed. -/

abbrev IndexMove : Type := Host.Move (IndexerChoice Nat) (IndexerProg Nat TaskResult)

def docsReview : IndexerProg Nat TaskResult := reviewTask (plainAgent .docs) ⟨"o/r".toList, 1, "+1".toList⟩ none

def taken : List IndexMove := [.spawn docsReview, .spawn (indexTask Char.isAlphanum "o/r".toList)]

def fetchedBy (i : Nat) (sha : Text) (tree : SourceTree) : List IndexMove :=
  [.reply i (.sha sha), .reply i (.tree tree), .reply i .embedded]

def otherReindexed : List IndexMove :=
  [.spawn (reindexTask Char.isAlphanum "o/s".toList [] "c".toList [] [] ["a.py".toList]), .reply 2 (.commits none)]

def indexedMeanwhile : List IndexMove :=
  fetchedBy 1 "b".toList (oneFile "a.py".toList (.bytes [120])) ++ .reply 1 .paths :: otherReindexed ++
    [.reply 1 (.commits none), .reply 0 (.retrieves plainTies)]

def TaskResult.report : TaskResult → Option (Text × Nat)
  | indexed report => report.map fun r => (r.commitSha, r.chunkCount)
  | reviewed _ => none

theorem exists_report {s : Pool (IndexWorld Nat) (IndexerProg Nat TaskResult)} {i : Nat} {sha : Text} {count : Nat}
    (h : (s.threads[i]?.bind Thread.result).bind TaskResult.report = some (sha, count)) :
    ∃ report : IndexReport, s.threads[i]? = some (.running (.ret (.indexed (some report)))) ∧
      report.commitSha = sha ∧ report.chunkCount = count := by
  obtain ⟨result, hresult, hreport⟩ := Option.bind_eq_some_iff.mp h
  obtain ⟨t, ht, hend⟩ := Option.bind_eq_some_iff.mp hresult
  cases result with
  | reviewed findings => cases hreport
  | indexed report? =>
    obtain ⟨report, rfl, hpair⟩ := Option.map_eq_some_iff.mp hreport
    obtain ⟨hsha, hcount⟩ := Prod.mk.inj hpair
    cases t with
    | running p =>
      cases p with
      | ret a =>
        obtain rfl := Option.some.inj hend
        exact ⟨report, ht, hsha, hcount⟩
      | call c k => cases hend
    | stopped p => cases hend
    | lost p => cases hend

abbrev exampleHost : Host (IndexerCall.Reply (E := Nat)) (IndexerChoice Nat) (IndexWorld Nat) :=
  indexHost plainOps List.length

theorem isTask_of_taken {p : IndexerProg Nat TaskResult} (h : .spawn p ∈ taken ∨ .spawn p ∈ indexedMeanwhile) :
    IsTask Char.isAlphanum plainAgent p := by
  simp [taken, indexedMeanwhile, fetchedBy, otherReindexed] at h
  rcases h with (rfl | rfl) | rfl
  · exact .review .docs _ none
  · exact .index _
  · exact .reindex _ _ _ _ _ _

theorem full_index_current_stale : ∃ s, exampleHost.Run (IsTask Char.isAlphanum plainAgent) (fun _ _ => True)
    ⟨⟨staleDb, emptySpine, [], []⟩, []⟩ s ∧
      ∃ tree, HoldsTree Char.isAlphanum List.length s.world.db "o/r".toList tree ∧
        s.world.recorded "o/r".toList = some (some "b".toList, 1) := by
  obtain ⟨s₀, hs₀, s, hs, htask, hreport, hone⟩ : ∃ s₀ ∈ exampleHost.play ⟨⟨staleDb, emptySpine, [], []⟩, []⟩ taken,
      ∃ s ∈ exampleHost.play s₀ indexedMeanwhile, s₀.threads.length = 2 ∧
        (s.threads[1]?.bind Thread.result).bind TaskResult.report = some ("b".toList, 1) ∧
        ((s.world.commits.drop s₀.world.commits.length).filter fun x => x.repo == "o/r".toList).length = 1 := by
    decide +kernel
  have hrun₀ : exampleHost.Run (IsTask Char.isAlphanum plainAgent) (fun _ _ => True)
      ⟨⟨staleDb, emptySpine, [], []⟩, []⟩ s₀ :=
    Host.run_of_play (fun p hp => isTask_of_taken (.inl hp)) (fun _ _ => trivial) hs₀
  have hrun : exampleHost.Run (IsTask Char.isAlphanum plainAgent) (fun _ _ => True) s₀ s :=
    Host.run_of_play (fun p hp => isTask_of_taken (.inr hp)) (fun _ _ => trivial) hs
  have hsecond : s₀.threads[1]? = some (.running (indexTask Char.isAlphanum "o/r".toList)) := by
    obtain rfl := Option.some.inj hs₀
    rfl
  obtain ⟨report, hdone, hsha, hcount⟩ := exists_report hreport
  obtain ⟨tree, x, _, hx, hrepo, _, _, hcurrent⟩ := full_index_current hrun₀ hsecond hrun hdone
  obtain ⟨y, hy⟩ := List.length_eq_one_iff.mp hone
  have hsame : ∀ z ∈ s.world.commits.drop s₀.world.commits.length, z.repo = "o/r".toList → z = y := by
    intro z hz hzrepo
    have hmem : z ∈ (s.world.commits.drop s₀.world.commits.length).filter fun x => x.repo == "o/r".toList :=
      List.mem_filter.mpr ⟨hz, beq_iff_eq.mpr hzrepo⟩
    rw [hy] at hmem
    exact List.mem_singleton.mp hmem
  obtain ⟨hholds, hrecorded⟩ := hcurrent fun z hz hzrepo => (hsame z hz hzrepo).trans (hsame x hx hrepo).symm
  rw [hsha, hcount] at hrecorded
  exact ⟨s, hrun₀.trans hrun, tree, hholds, hrecorded⟩

def IndexerCall.prompt : IndexerCall E → Option Text
  | specialist (.parse _ _ user) => some user
  | _ => none

theorem exists_prompt {c : IndexerCall E} {user : Text} (h : c.prompt = some user) :
    ∃ model system, c = .specialist (.parse model system user) := by
  cases c with
  | specialist c =>
    cases c with
    | parse model system user' =>
      obtain rfl := Option.some.inj h
      exact ⟨model, system, rfl⟩
    | _ => cases h
  | _ => cases h

theorem prompts_sourced_stale : ∃ s user, exampleHost.Run (IsTask Char.isAlphanum plainAgent) (fun _ _ => True)
    ⟨⟨staleDb, emptySpine, [], []⟩, []⟩ s ∧
      Grounded Char.isAlphanum List.length plainAgent staleDb.chunks.rows s.world user := by
  obtain ⟨s, hs, hprompt⟩ : ∃ s ∈ exampleHost.play ⟨⟨staleDb, emptySpine, [], []⟩, []⟩ (taken ++ indexedMeanwhile),
      (((s.threads[0]?.bind Thread.next).bind IndexerCall.prompt)).isSome = true := by
    decide +kernel
  have hrun : exampleHost.Run (IsTask Char.isAlphanum plainAgent) (fun _ _ => True)
      ⟨⟨staleDb, emptySpine, [], []⟩, []⟩ s :=
    Host.run_of_play (fun p hp => isTask_of_taken (List.mem_append.mp hp)) (fun _ _ => trivial) hs
  obtain ⟨user, huser⟩ := Option.isSome_iff_exists.mp hprompt
  obtain ⟨c, hc, hasked⟩ := Option.bind_eq_some_iff.mp huser
  obtain ⟨t, ht, hnext⟩ := Option.bind_eq_some_iff.mp hc
  obtain ⟨model, system, rfl⟩ := exists_prompt hasked
  cases t with
  | running p => exact ⟨s, user, hrun, prompts_sourced hrun (List.mem_of_getElem? ht) hnext⟩
  | stopped p => cases hnext
  | lost p => cases hnext

/-! A path that is written after the task has read the paths stays in the index. -/

def overtaken : List IndexMove :=
  fetchedBy 1 "b".toList (oneFile "a.py".toList (.bytes [120])) ++ .reply 1 .paths ::
    .spawn (reindexTask Char.isAlphanum "o/r".toList [] "c".toList ["late.py".toList] [] []) ::
    fetchedBy 2 "c".toList (oneFile "late.py".toList (.bytes [121])) ++
      [.reply 2 (.commits none), .reply 1 (.commits none)]

theorem full_index_overtaken : ∃ s report tree, exampleHost.Run (IsTask Char.isAlphanum plainAgent) (fun _ _ => True)
    ⟨⟨staleDb, emptySpine, [], []⟩, []⟩ s ∧ s.threads[1]? = some (.running (.ret (.indexed (some report)))) ∧
      ("o/r".toList, ⟨tree, report.commitSha⟩) ∈ s.world.served ∧
      (s.world.lastWrite "o/r".toList).map CommittedWrite.commitSha = some report.commitSha ∧
      ¬HoldsTree Char.isAlphanum List.length s.world.db "o/r".toList tree := by
  obtain ⟨s, hs, hreport, hserved, hlast, hlate⟩ : ∃ s ∈ exampleHost.play ⟨⟨staleDb, emptySpine, [], []⟩, []⟩
      (taken ++ overtaken), (s.threads[1]?.bind Thread.result).bind TaskResult.report = some ("b".toList, 1) ∧
        (s.world.served.any fun x => x.1 == "o/r".toList && x.2.commitSha == "b".toList &&
          x.2.tree.rows.map Prod.fst == ["a.py".toList]) = true ∧
        (s.world.lastWrite "o/r".toList).map CommittedWrite.commitSha = some "b".toList ∧
        ((repoRows s.world.db "o/r".toList).any fun r => r.path == "late.py".toList) = true := by
    decide +kernel
  obtain ⟨report, hdone, hsha, _⟩ := exists_report hreport
  obtain ⟨⟨repo, tree, sha⟩, hx, heq⟩ := List.any_eq_true.mp hserved
  simp only [Bool.and_eq_true, beq_iff_eq] at heq
  obtain ⟨⟨rfl, rfl⟩, hpaths⟩ := heq
  obtain ⟨r, hr, hpath⟩ := List.any_eq_true.mp hlate
  obtain ⟨hrow, hrepo⟩ := mem_repoRows_iff.mp hr
  have hrun : exampleHost.Run (IsTask Char.isAlphanum plainAgent) (fun _ _ => True)
      ⟨⟨staleDb, emptySpine, [], []⟩, []⟩ s := by
    refine Host.run_of_play (fun p hp => ?_) (fun _ _ => trivial) hs
    simp [taken, overtaken, fetchedBy] at hp
    rcases hp with rfl | rfl | rfl
    · exact .review .docs _ none
    · exact .index _
    · exact .reindex _ _ _ _ _ _
  refine ⟨s, report, tree, hrun, hdone, by rwa [hsha], by rwa [hsha], fun hholds => ?_⟩
  obtain ⟨c, hc, rfl⟩ := (hholds r hrepo).mp hrow
  obtain ⟨_, file, hfile, _⟩ := mem_chunkRepo_iff.mp hc
  have hrows : (c.path, file) ∈ tree.rows := Table.mem_rows_iff.mpr hfile
  have hlisted : c.path ∈ tree.rows.map Prod.fst := List.mem_map_of_mem hrows
  rw [hpaths, List.mem_singleton] at hlisted
  have hlate : c.path = "late.py".toList := beq_iff_eq.mp hpath
  exact absurd (hlisted.symm.trans hlate) (by decide)

end AiPrReview
