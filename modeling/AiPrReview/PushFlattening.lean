import AiPrReview.FullIndex
import AiPrReview.PendingStatus

/-! A push of several commits as one reindex job. The lists of the commits are
put together and their order is given up; what the job leaves in `code_chunks`
rests on the order of the statements of `_write`. -/

namespace AiPrReview

inductive FileChange : Type where
  | added
  | modified
  | removed
  deriving DecidableEq

def PushCommit.paths (c : PushCommit) : FileChange → List Text
  | .added => c.added
  | .modified => c.modified
  | .removed => c.removed

def PushCommit.mentions (c : PushCommit) : List (FileChange × Text) :=
  [FileChange.added, .modified, .removed].flatMap fun change => (c.paths change).map (change, ·)

/-- The mentions of one commit after those of another, in any order within a commit. -/
inductive Story : List PushCommit → List (FileChange × Text) → Prop where
  | nil : Story [] []
  | cons {c : PushCommit} {commits : List PushCommit} {mentions story : List (FileChange × Text)} :
      mentions.Perm c.mentions → Story commits story → Story (c :: commits) (mentions ++ story)

def lastMention (story : List (FileChange × Text)) (path : Text) : Option FileChange :=
  ((story.filter fun m => m.2 == path).getLast?).map Prod.fst

theorem PushCommit.mem_mentions_iff {c : PushCommit} {change : FileChange} {path : Text} :
    (change, path) ∈ c.mentions ↔ path ∈ c.paths change := by
  cases change <;> simp [mentions]

theorem Story.mem_iff {commits : List PushCommit} {story : List (FileChange × Text)} (h : Story commits story)
    {m : FileChange × Text} : m ∈ story ↔ ∃ c ∈ commits, m ∈ c.mentions := by
  induction h with
  | nil => simp
  | cons hp _ ih => simp [hp.mem_iff, ih]

theorem mem_of_lastMention {story : List (FileChange × Text)} {path : Text} {change : FileChange}
    (h : lastMention story path = some change) : (change, path) ∈ story := by
  obtain ⟨⟨change', path'⟩, hlast, rfl⟩ := Option.map_eq_some_iff.mp h
  obtain ⟨hm, hp⟩ := List.mem_filter.mp (List.mem_of_getLast? hlast)
  exact eq_of_beq hp ▸ hm

theorem lastMention_eq_none_iff {story : List (FileChange × Text)} {path : Text} :
    lastMention story path = none ↔ ∀ change, (change, path) ∉ story := by
  rw [lastMention, Option.map_eq_none_iff, List.getLast?_eq_none_iff, List.filter_eq_nil_iff]
  constructor
  · exact fun h change hm => h _ hm (beq_self_eq_true path)
  · rintro h ⟨change, path'⟩ hm hp
    exact h change (eq_of_beq hp ▸ hm)

/-! The lists of the job that a push makes. -/

section

variable {deliveryId before after repo : Text} {commits : List PushCommit} {ops : List EnqueueOp}
  {story : List (FileChange × Text)}

def flattened (commits : List PushCommit) : ChangedFiles :=
  ⟨commits.flatMap PushCommit.added, commits.flatMap PushCommit.modified, commits.flatMap PushCommit.removed⟩

theorem mem_flattened_iff (h : Story commits story) {path : Text} :
    (path ∈ (flattened commits).toReembed ↔ (.added, path) ∈ story ∨ (.modified, path) ∈ story) ∧
      (path ∈ (flattened commits).removed ↔ (.removed, path) ∈ story) := by
  have hstory : ∀ change, (change, path) ∈ story ↔ ∃ c ∈ commits, path ∈ c.paths change := by
    intro change
    simp only [h.mem_iff, PushCommit.mem_mentions_iff]
  simp only [hstory, ChangedFiles.toReembed, flattened, List.mem_append, List.mem_flatMap, PushCommit.paths, and_self]

theorem present_reembedded (h : Story commits story) {path : Text} {change : FileChange}
    (hchange : lastMention story path = some change) (hkept : change ≠ .removed) :
    path ∈ (flattened commits).toReembed := by
  have hmention := mem_of_lastMention hchange
  refine (mem_flattened_iff h).1.mpr ?_
  cases change with
  | added => exact .inl hmention
  | modified => exact .inr hmention
  | removed => exact absurd rfl hkept

theorem gone_removed (h : Story commits story) {path : Text} (hchange : lastMention story path = some .removed) :
    path ∈ (flattened commits).removed :=
  (mem_flattened_iff h).2.mpr (mem_of_lastMention hchange)

theorem unmentioned_untouched (h : Story commits story) {path : Text} (hnone : lastMention story path = none) :
    path ∉ (flattened commits).toReembed ∧ path ∉ (flattened commits).removed := by
  rw [lastMention_eq_none_iff] at hnone
  rw [(mem_flattened_iff h).1, (mem_flattened_iff h).2]
  exact ⟨fun hm => hm.elim (hnone _) (hnone _), hnone _⟩

theorem push_job (h : buildEnqueueOps deliveryId (.push before after repo commits) = some ops) :
    ops = [⟨some repo, .reindexRepo deliveryId repo before after (flattened commits).added
      (flattened commits).modified (flattened commits).removed⟩] := by
  obtain ⟨_, he⟩ := Option.ite_none_left_eq_some.mp h
  exact (Option.some.inj he).symm

end

/-! The job in the hands of the worker, on the database. -/

section

variable {E : Type}

theorem mem_writeRepeated_iff {db db' : IndexDb E} {repo commitSha : Text} {embedded : List (Chunk × E)}
    {stale : List Text} {again : Nat} (h : writeRepeated db repo embedded stale commitSha again = some db')
    (hn : (embedded.map fun e => (e.1.path, e.1.chunkIndex)).Nodup) {r : CodeChunk E} :
    r ∈ db'.chunks.rows ↔ (∃ e ∈ embedded, CodeChunk.ofChunk repo e.1 e.2 = r) ∨
      (r ∈ db.chunks.rows ∧ (r.repo = repo → r.path ∉ stale ∧ ∀ e ∈ embedded, e.1.path ≠ r.path)) := by
  induction again generalizing db with
  | zero => exact mem_write_iff h hn
  | succ again ih =>
    obtain ⟨db₁, h₁, hrest⟩ := Option.bind_eq_some_iff.mp h
    rw [ih hrest, mem_write_iff h₁ hn]
    constructor
    · rintro (hnew | ⟨hnew | hold, _⟩)
      · exact .inl hnew
      · exact .inl hnew
      · exact .inr hold
    · rintro (hnew | hold)
      · exact .inl hnew
      · exact .inr ⟨.inr hold, hold.2⟩

variable (isWord : Char → Bool) (embedding : Text → E) (github : TarballSource)

/-- `incremental_index` when its transaction is run `again` more times after a commit. -/
def incrementalIndexRetried (db : IndexDb E) (repo afterSha : Text) (changed : ChangedFiles) (again : Nat) :
    Option (IndexDb E × IndexResult) := do
  let reembed := changed.toReembed
  let chunks ← chunksToReembed isWord github repo afterSha reembed
  let embedded := embedChunks embedding chunks
  let db' ← writeRepeated db repo embedded changed.removed afterSha again
  return (db', ⟨repo, afterSha, embedded.length, reembed.dedup.length⟩)

theorem incrementalIndexRetried_zero (db : IndexDb E) (repo afterSha : Text) (changed : ChangedFiles) :
    incrementalIndexRetried isWord embedding github db repo afterSha changed 0 =
      incrementalIndex isWord embedding github db repo afterSha changed := rfl

/-- A call of the worker ends with its effect, its transaction run `again` more
times, or it raises, before it took effect or after. -/
inductive WorkerFate : Type where
  | done (again : Nat)
  | raises (error : Text) (written : Option Nat)

def indexOutcomeOnDb (index : Nat → Option (IndexDb E × IndexResult)) (db : IndexDb E) :
    WorkerFate → Option (Except Text IndexResult × IndexDb E)
  | .done again => (index again).map fun x => (.ok x.2, x.1)
  | .raises error none => some (.error error, db)
  | .raises error (some again) => (index again).map fun x => (.error error, x.1)

def IndexCall.onDb : (c : IndexCall) → WorkerFate → IndexDb E → Option (c.Reply × IndexDb E)
  | .fullIndex repo, fate, db => indexOutcomeOnDb (fullIndexRetried isWord embedding github db repo) db fate
  | .incrementalIndex repo _ afterSha changed, fate, db =>
    indexOutcomeOnDb (incrementalIndexRetried isWord embedding github db repo afterSha changed) db fate
  | .markFailed repo error, .done _, db => some (some (), ⟨db.chunks, AiPrReview.markFailed db.states repo error⟩)
  | .markFailed _ _, .raises _ none, db => some (none, db)
  | .markFailed repo error, .raises _ (some _), db =>
    some (none, ⟨db.chunks, AiPrReview.markFailed db.states repo error⟩)

variable {isWord embedding github}

/-- A reindex job that returns a report has run `incremental_index` to its end. -/
theorem incrementalIndex_of_reported {db db' : IndexDb E} {repo beforeSha afterSha : Text}
    {added modified removed : List Text} {report : IndexReport}
    (h : (reindexRepo repo beforeSha afterSha added modified removed).Completes
      (IndexCall.onDb isWord embedding github) db (some report) db') : ∃ again res,
    incrementalIndexRetried isWord embedding github db repo afterSha ⟨added, modified, removed⟩ again =
      some (db', res) := by
  obtain ⟨fate, reply, db₁, hexec, hend⟩ := Prog.completes_call_iff.mp h
  cases reply with
  | error error =>
    obtain ⟨_, _, _, _, hret⟩ := Prog.completes_call_iff.mp hend
    cases (Prog.completes_ret_iff.mp hret).1
  | ok result =>
    obtain ⟨_, rfl⟩ := Prog.completes_ret_iff.mp hend
    cases fate with
    | done again =>
      obtain ⟨⟨db₂, res⟩, hindex, he⟩ := Option.map_eq_some_iff.mp hexec
      obtain ⟨_, rfl⟩ := Prod.mk.inj he
      exact ⟨again, res, hindex⟩
    | raises error written =>
      cases written with
      | none => cases hexec
      | some again =>
        obtain ⟨_, _, he⟩ := Option.map_eq_some_iff.mp hexec
        cases he

theorem mem_incrementalIndexRetried_iff {db db' : IndexDb E} {repo afterSha sha : Text} {changed : ChangedFiles}
    {again : Nat} {res : IndexResult} {after : SourceTree}
    (hf : fetchTarball github repo afterSha = some ⟨after, sha⟩)
    (h : incrementalIndexRetried isWord embedding github db repo afterSha changed again = some (db', res))
    {r : CodeChunk E} : r ∈ db'.chunks.rows ↔
      (∃ c ∈ chunkRepo isWord after (some changed.toReembed), rowOf embedding repo c = r) ∨
        (r ∈ db.chunks.rows ∧ (r.repo = repo → r.path ∉ changed.removed ∧
          ¬∃ c ∈ chunkRepo isWord after (some changed.toReembed), c.path = r.path)) := by
  have hchunks : chunksToReembed isWord github repo afterSha changed.toReembed = _ :=
    chunksToReembed_eq changed.toReembed hf
  simp only [incrementalIndexRetried, hchunks, Option.bind_eq_bind, Option.bind_some,
    Option.bind_eq_some_iff] at h
  obtain ⟨db₁, hw, he⟩ := h
  obtain rfl : db₁ = db' := (Prod.mk.inj (Option.some.inj he)).1
  rw [mem_writeRepeated_iff hw (embedChunks_nodup embedding (chunkRepo_nodup isWord after _)),
    mem_embedChunks_iff]
  simp [embedChunks]

/-- What a push leaves: of the files of the tree that are mentioned and have
chunks their rows, of the mentioned files that are gone no row, and the rest. -/
structure Pushed (isWord : Char → Bool) (embedding : Text → E) (repo : Text) (story : List (FileChange × Text))
    (after : SourceTree) (db db' : IndexDb E) : Prop where
  present : ∀ path file change, lastMention story path = some change → after.get path = some (path, file) →
    isIndexable path file = true → ∀ r : CodeChunk E, r.repo = repo → r.path = path →
      (r ∈ db'.chunks.rows ↔ ∃ c ∈ fileChunks isWord path file, rowOf embedding repo c = r)
  gone : ∀ path change, lastMention story path = some change → after.get path = none →
    ∀ r ∈ db'.chunks.rows, r.repo = repo → r.path ≠ path
  others : ∀ r : CodeChunk E, r.repo ≠ repo ∨ lastMention story r.path = none →
    (r ∈ db'.chunks.rows ↔ r ∈ db.chunks.rows)

/-- The rows of `db'` once the flattened push has been applied to `after`. -/
def AppliedRows (isWord : Char → Bool) (embedding : Text → E) (repo : Text) (commits : List PushCommit)
    (after : SourceTree) (db db' : IndexDb E) : Prop :=
  ∀ r : CodeChunk E, r ∈ db'.chunks.rows ↔
    (r.repo = repo ∧ r.path ∈ (flattened commits).toReembed ∧ TreeRow isWord embedding after r) ∨
      (r ∈ db.chunks.rows ∧ (r.repo = repo → r.path ∉ (flattened commits).removed ∧
        ¬(r.path ∈ (flattened commits).toReembed ∧
          ∃ file, after.get r.path = some (r.path, file) ∧ isIndexable r.path file = true)))

theorem appliedRows_of_indexed {repo afterSha sha : Text} {commits : List PushCommit} {again : Nat} {res : IndexResult}
    {after : SourceTree} {db db' : IndexDb E} (hf : fetchTarball github repo afterSha = some ⟨after, sha⟩)
    (h : incrementalIndexRetried isWord embedding github db repo afterSha (flattened commits) again = some (db', res)) :
    AppliedRows isWord embedding repo commits after db db' := by
  intro r
  have hnew : (∃ c ∈ chunkRepo isWord after (some (flattened commits).toReembed), rowOf embedding repo c = r) ↔
      r.repo = repo ∧ r.path ∈ (flattened commits).toReembed ∧ TreeRow isWord embedding after r := by
    constructor
    · intro hrow
      obtain ⟨c, _, hc⟩ := id hrow
      obtain rfl : repo = r.repo := by
        rw [← hc]
        rfl
      exact ⟨rfl, by simpa using treeRow_iff.mp hrow⟩
    · rintro ⟨rfl, hrow⟩
      exact treeRow_iff.mpr (by simpa using hrow)
  rw [mem_incrementalIndexRetried_iff hf h, hnew, exists_chunk_iff]

theorem pushed_of_appliedRows {repo : Text} {commits : List PushCommit} {story : List (FileChange × Text)}
    {after : SourceTree} {db db' : IndexDb E} (hrows : AppliedRows isWord embedding repo commits after db db')
    (hstory : Story commits story)
    (hlast : ∀ path change, lastMention story path = some change → (after.get path ≠ none ↔ change ≠ .removed)) :
    Pushed isWord embedding repo story after db db' := by
  constructor
  · intro path file change hchange hget hindexable r hrepo hpath
    subst hpath
    have hreembed : r.path ∈ (flattened commits).toReembed :=
      present_reembedded hstory hchange ((hlast r.path change hchange).mp (by simp [hget]))
    rw [hrows r]
    constructor
    · rintro (⟨-, -, file', hget', hrow⟩ | ⟨-, hkeep⟩)
      · obtain rfl := (Prod.mk.inj (Option.some.inj (hget.symm.trans hget'))).2
        rwa [hrepo] at hrow
      -- the file has chunks, so an old row at its path is cleared
      · exact absurd ⟨hreembed, file, hget, hindexable⟩ (hkeep hrepo).2
    · intro hrow
      refine .inl ⟨hrepo, hreembed, file, hget, ?_⟩
      rwa [hrepo]
  · intro path change hchange hget r hr hrepo hpath
    subst hpath
    have hremoved : change = .removed := by
      by_contra hkept
      exact (hlast r.path change hchange).mpr hkept hget
    rw [hremoved] at hchange
    rcases (hrows r).mp hr with ⟨-, -, file, hget', -⟩ | ⟨-, hkeep⟩
    · rw [hget] at hget'
      cases hget'
    · exact (hkeep hrepo).1 (gone_removed hstory hchange)
  · intro r hother
    have huntouched : r.repo = repo →
        r.path ∉ (flattened commits).toReembed ∧ r.path ∉ (flattened commits).removed :=
      fun hrepo => unmentioned_untouched hstory (hother.resolve_left (not_not_intro hrepo))
    rw [hrows r]
    constructor
    · rintro (⟨hrepo, hreembed, -⟩ | ⟨hold, -⟩)
      · exact absurd hreembed (huntouched hrepo).1
      · exact hold
    · intro hold
      exact .inr ⟨hold, fun hrepo => ⟨(huntouched hrepo).2, fun hchunk => (huntouched hrepo).1 hchunk.1⟩⟩

/-- The order of the commits is not needed: in `after` a mentioned path exists
unless its last mention is a removal. -/
theorem flattened_push {deliveryId before afterSha repo sha : Text} {commits : List PushCommit}
    {ops : List EnqueueOp} {op : EnqueueOp} {job : RunningJob} {report : IndexReport}
    {story : List (FileChange × Text)} {after : SourceTree} {db db' : IndexDb E}
    (hops : buildEnqueueOps deliveryId (.push before afterSha repo commits) = some ops) (hop : op ∈ ops)
    (hjob : op.job.taken = some job) (hf : fetchTarball github repo afterSha = some ⟨after, sha⟩)
    (hstory : Story commits story)
    (hlast : ∀ path change, lastMention story path = some change → (after.get path ≠ none ↔ change ≠ .removed))
    (h : job.program.Completes (IndexCall.onDb isWord embedding github) db (some report) db') :
    Pushed isWord embedding repo story after db db' := by
  rw [push_job hops, List.mem_singleton] at hop
  rw [hop] at hjob
  obtain rfl := Option.some.inj hjob
  obtain ⟨again, res, hindex⟩ := incrementalIndex_of_reported h
  exact pushed_of_appliedRows (appliedRows_of_indexed hf hindex) hstory hlast

end

/-- A file is added, removed and added again, another one added and removed. -/
def backAndForth : List PushCommit :=
  [⟨["a.py".toList, "b.py".toList], [], []⟩, ⟨[], ["a.py".toList, "b.py".toList], []⟩, ⟨["a.py".toList], [], []⟩]

theorem flattened_push_backAndForth : ∃ db' : IndexDb Nat,
    Pushed Char.isAlphanum List.length "o/r".toList (backAndForth.flatMap PushCommit.mentions)
      (oneFile "a.py".toList (.bytes [120])) ⟨Table.empty, Table.empty⟩ db' := by
  obtain ⟨⟨report, db'⟩, hrun, hreport⟩ : ∃ x ∈ Prog.complete
      (IndexCall.onDb Char.isAlphanum List.length (sourceAt (oneFile "a.py".toList (.bytes [120])))) (.done 0)
      ⟨Table.empty, Table.empty⟩ (reindexRepo "o/r".toList "a".toList "b".toList (flattened backAndForth).added
        (flattened backAndForth).modified (flattened backAndForth).removed), x.1.isSome = true := by
    decide +kernel
  obtain ⟨report, rfl⟩ := Option.isSome_iff_exists.mp hreport
  have hstory : Story backAndForth (backAndForth.flatMap PushCommit.mentions) :=
    .cons (List.Perm.refl _) (.cons (List.Perm.refl _) (.cons (List.Perm.refl _) .nil))
  have hlast : ∀ path change, lastMention (backAndForth.flatMap PushCommit.mentions) path = some change →
      ((oneFile "a.py".toList (.bytes [120])).get path ≠ none ↔ change ≠ .removed) := by
    intro path change h
    have hpath : path = "a.py".toList ∨ path = "b.py".toList := by
      have hm := mem_of_lastMention h
      simp only [backAndForth, PushCommit.mentions, PushCommit.paths, List.flatMap_cons, List.flatMap_nil,
        List.map_cons, List.map_nil, List.append_nil, List.nil_append, List.cons_append, List.mem_cons, Prod.mk.injEq,
        List.not_mem_nil, or_false] at hm
      tauto
    rcases hpath with rfl | rfl
    · obtain rfl : FileChange.added = change := Option.some.inj (Eq.trans (by decide) h)
      decide
    · obtain rfl : FileChange.removed = change := Option.some.inj (Eq.trans (by decide) h)
      decide
  have hops : buildEnqueueOps "d".toList (.push "a".toList "b".toList "o/r".toList backAndForth) = some _ := rfl
  exact ⟨db', flattened_push hops (List.mem_singleton.mpr rfl) rfl rfl hstory hlast (Prog.completes_of_complete hrun)⟩

end AiPrReview
