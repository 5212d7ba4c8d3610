import AiPrReview.Chunker

/-! The indexer: full and incremental indexing of a repository into `code_chunks`. -/

namespace AiPrReview

/-- A row of `code_chunks`, without its surrogate id and its time. -/
structure CodeChunk (E : Type) : Type where
  repo : Text
  path : Text
  symbol : Option Text
  chunkIndex : Nat
  content : Text
  embedding : E
  tokenCount : Nat
  deriving DecidableEq

inductive IndexStatus : Type where
  | pending
  | done
  | failed
  deriving DecidableEq

structure RepoIndexState : Type where
  repo : Text
  lastIndexedCommit : Option Text
  chunkCount : Nat
  status : IndexStatus
  error : Option Text

structure ChangedFiles : Type where
  added : List Text
  modified : List Text
  removed : List Text

def ChangedFiles.toReembed (c : ChangedFiles) : List Text := c.added ++ c.modified

structure IndexResult : Type where
  repoFullName : Text
  commitSha : Text
  chunkCount : Nat
  filesEmbedded : Nat
  deriving DecidableEq

/-- What the GitHub client answers: the commit of a ref, and the tree at a commit. -/
structure TarballSource : Type where
  headSha : Text → Text → Option Text
  tarball : Text → Text → Option SourceTree

structure FetchedSource : Type where
  tree : SourceTree
  commitSha : Text

def fetchTarball (github : TarballSource) (repo ref : Text) : Option FetchedSource := do
  let commitSha ← github.headSha repo ref
  let tree ← github.tarball repo commitSha
  return ⟨tree, commitSha⟩

/-- PostgreSQL takes no text with a NUL in it. -/
def legalText (t : Text) : Bool := !t.contains (Char.ofNat 0)

def wordCount (content : Text) : Nat := ((content.splitOnP isSpace).filter (· ≠ [])).length

variable {E : Type}

namespace CodeChunk

def key (r : CodeChunk E) : Text × Text × Nat := (r.repo, r.path, r.chunkIndex)

def legal (r : CodeChunk E) : Bool :=
  legalText r.repo && legalText r.path && r.symbol.all legalText && legalText r.content

def ofChunk (repo : Text) (c : Chunk) (embedding : E) : CodeChunk E :=
  ⟨repo, c.path, c.symbol, c.chunkIndex, c.content, embedding, wordCount c.content⟩

end CodeChunk

structure IndexDb (E : Type) : Type where
  chunks : Table (CodeChunk.key (E := E))
  states : Table RepoIndexState.repo

def deletePaths (t : Table (CodeChunk.key (E := E))) (repo : Text) (paths : List Text) :
    Table (CodeChunk.key (E := E)) :=
  t.delete fun r => r.repo == repo && paths.contains r.path

def upsertChunk (t : Table (CodeChunk.key (E := E))) (r : CodeChunk E) : Table (CodeChunk.key (E := E)) :=
  t.upsert r (fun old => { old with
    symbol := r.symbol
    content := r.content
    embedding := r.embedding
    tokenCount := r.tokenCount })
    fun _ => rfl

def upsertIndexState (t : Table RepoIndexState.repo) (repo commitSha : Text) (total : Nat) :
    Table RepoIndexState.repo :=
  t.upsert ⟨repo, some commitSha, total, .done, none⟩
    (fun old => { old with lastIndexedCommit := some commitSha, chunkCount := total, status := .done, error := none })
    fun _ => rfl

/-- `_write`: one transaction, that raises and changes nothing when it meets an
illegal text. -/
def write (db : IndexDb E) (repo : Text) (embedded : List (Chunk × E)) (stale : List Text)
    (commitSha : Text) : Option (IndexDb E) :=
  let rows := embedded.map fun e => CodeChunk.ofChunk repo e.1 e.2
  let touched := embedded.map fun e => e.1.path
  if legalText repo && legalText commitSha && stale.all legalText && rows.all CodeChunk.legal then
    let chunks := rows.foldl upsertChunk (deletePaths (deletePaths db.chunks repo stale) repo touched)
    let total := chunks.rows.countP fun r => r.repo == repo
    some ⟨chunks, upsertIndexState db.states repo commitSha total⟩
  else none

section

variable (isWord : Char → Bool) (embedding : Text → E) (github : TarballSource)

def maxEmbedChars : Nat := 8000

def embed (text : Text) : E :=
  embedding (if text.take maxEmbedChars = [] then [' '] else text.take maxEmbedChars)

def embedChunks (chunks : List Chunk) : List (Chunk × E) := chunks.map fun c => (c, embed embedding c.content)

def fullIndex (db : IndexDb E) (repo : Text) : Option (IndexDb E × IndexResult) := do
  let fetched ← fetchTarball github repo "HEAD".toList
  let chunks := chunkRepo isWord fetched.tree none
  let embedded := embedChunks embedding chunks
  let retained := chunks.map Chunk.path
  let existing := (db.chunks.rows.filter fun r => r.repo == repo).map CodeChunk.path
  let stale := existing.filter fun p => !retained.contains p
  let db' ← write db repo embedded stale fetched.commitSha
  return (db', ⟨repo, fetched.commitSha, embedded.length, retained.dedup.length⟩)

/-- Nothing is fetched when there is nothing to embed. -/
def chunksToReembed (repo afterSha : Text) (reembed : List Text) : Option (List Chunk) :=
  if reembed = [] then some []
  else (fetchTarball github repo afterSha).map fun fetched => chunkRepo isWord fetched.tree (some reembed)

def incrementalIndex (db : IndexDb E) (repo afterSha : Text) (changed : ChangedFiles) :
    Option (IndexDb E × IndexResult) := do
  let reembed := changed.toReembed
  let chunks ← chunksToReembed isWord github repo afterSha reembed
  let embedded := embedChunks embedding chunks
  let db' ← write db repo embedded changed.removed afterSha
  return (db', ⟨repo, afterSha, embedded.length, reembed.dedup.length⟩)

end

/-! What a write leaves in `code_chunks`. -/

theorem mem_deletePaths_iff {t : Table (CodeChunk.key (E := E))} {repo : Text} {paths : List Text}
    {r : CodeChunk E} :
    r ∈ (deletePaths t repo paths).rows ↔ r ∈ t.rows ∧ (r.repo = repo → r.path ∉ paths) := by
  rw [deletePaths, Table.mem_delete_iff]
  simp

theorem mem_upsertChunk_iff (t : Table (CodeChunk.key (E := E))) (a r : CodeChunk E) :
    r ∈ (upsertChunk t a).rows ↔ r = a ∨ (r ∈ t.rows ∧ r.key ≠ a.key) := by
  refine Table.mem_upsert_iff fun b hb => ?_
  obtain ⟨hrepo, hpath, hindex⟩ : b.repo = a.repo ∧ b.path = a.path ∧ b.chunkIndex = a.chunkIndex := by
    simpa [CodeChunk.key] using hb
  rw [hrepo, hpath, hindex]

theorem mem_write_iff {db db' : IndexDb E} {repo commitSha : Text} {embedded : List (Chunk × E)}
    {stale : List Text} (h : write db repo embedded stale commitSha = some db')
    (hn : (embedded.map fun e => (e.1.path, e.1.chunkIndex)).Nodup) {r : CodeChunk E} :
    r ∈ db'.chunks.rows ↔ (∃ e ∈ embedded, CodeChunk.ofChunk repo e.1 e.2 = r) ∨
      (r ∈ db.chunks.rows ∧ (r.repo = repo → r.path ∉ stale ∧ ∀ e ∈ embedded, e.1.path ≠ r.path)) := by
  simp only [write, Option.ite_none_right_eq_some, Option.some.injEq] at h
  obtain ⟨_, rfl⟩ := h
  have hkeys : ((embedded.map fun e => CodeChunk.ofChunk repo e.1 e.2).map CodeChunk.key).Nodup := by
    rw [List.Nodup, List.pairwise_map] at hn ⊢
    rw [List.pairwise_map]
    refine hn.imp fun hne he => hne ?_
    simpa [CodeChunk.key, CodeChunk.ofChunk] using he
  rw [Table.mem_foldl_iff mem_upsertChunk_iff hkeys, mem_deletePaths_iff, mem_deletePaths_iff, List.mem_map]
  refine or_congr_right ⟨?_, ?_⟩
  · rintro ⟨⟨⟨hr, hstale⟩, htouched⟩, _⟩
    refine ⟨hr, fun hrepo => ⟨hstale hrepo, fun e he hp => htouched hrepo ?_⟩⟩
    exact List.mem_map.mpr ⟨e, he, hp⟩
  · rintro ⟨hr, hkeep⟩
    refine ⟨⟨⟨hr, fun hrepo => (hkeep hrepo).1⟩, fun hrepo hp => ?_⟩, fun hk => ?_⟩
    · obtain ⟨e, he, hpath⟩ := List.mem_map.mp hp
      exact (hkeep hrepo).2 e he hpath
    · obtain ⟨c, hc, hck⟩ := List.mem_map.mp hk
      obtain ⟨e, he, rfl⟩ := List.mem_map.mp hc
      have hboth : repo = r.repo ∧ e.1.path = r.path ∧ e.1.chunkIndex = r.chunkIndex := by
        simpa [CodeChunk.key, CodeChunk.ofChunk] using hck
      exact (hkeep hboth.1.symm).2 e he hboth.2.1

/-! The rows of `code_chunks` that belong to a tree. -/

section

variable (isWord : Char → Bool) (embedding : Text → E)

def rowOf (repo : Text) (c : Chunk) : CodeChunk E := CodeChunk.ofChunk repo c (embed embedding c.content)

def HoldsTree (db : IndexDb E) (repo : Text) (tree : SourceTree) : Prop :=
  ∀ r : CodeChunk E, r.repo = repo →
    (r ∈ db.chunks.rows ↔ ∃ c ∈ chunkRepo isWord tree none, rowOf embedding repo c = r)

theorem mem_embedChunks_iff {chunks : List Chunk} {repo : Text} {r : CodeChunk E} :
    (∃ e ∈ embedChunks embedding chunks, CodeChunk.ofChunk repo e.1 e.2 = r) ↔
      ∃ c ∈ chunks, rowOf embedding repo c = r := by
  simp [embedChunks, rowOf]

theorem embedChunks_nodup {chunks : List Chunk} (h : (chunks.map fun c => (c.path, c.chunkIndex)).Nodup) :
    ((embedChunks embedding chunks).map fun e => (e.1.path, e.1.chunkIndex)).Nodup := by
  rw [embedChunks, List.map_map]
  exact h

theorem fullIndex_holdsTree {github : TarballSource} {db db' : IndexDb E} {repo : Text} {res : IndexResult}
    {fetched : FetchedSource} (hf : fetchTarball github repo "HEAD".toList = some fetched)
    (h : fullIndex isWord embedding github db repo = some (db', res)) :
    HoldsTree isWord embedding db' repo fetched.tree := by
  simp only [fullIndex, hf, Option.bind_eq_bind, Option.bind_some, Option.bind_eq_some_iff] at h
  obtain ⟨db₁, hw, he⟩ := h
  obtain rfl : db₁ = db' := (Prod.mk.inj (Option.some.inj he)).1
  intro r hr
  rw [mem_write_iff hw (embedChunks_nodup embedding (chunkRepo_nodup isWord fetched.tree none)),
    mem_embedChunks_iff]
  refine ⟨fun hm => ?_, .inl⟩
  rcases hm with hm | ⟨hold, hkeep⟩
  · exact hm
  -- an old row is at a path that is stale or one that is written again
  · obtain ⟨hstale, htouched⟩ := hkeep hr
    by_cases hp : r.path ∈ (chunkRepo isWord fetched.tree none).map Chunk.path
    · obtain ⟨c, hc, hcp⟩ := List.mem_map.mp hp
      exact absurd hcp (htouched (c, embed embedding c.content) (List.mem_map.mpr ⟨c, hc, rfl⟩))
    · refine absurd (List.mem_filter.mpr ⟨List.mem_map.mpr ⟨r, ?_, rfl⟩, ?_⟩) hstale
      · exact List.mem_filter.mpr ⟨hold, by simpa using hr⟩
      · simpa using hp

end

end AiPrReview
