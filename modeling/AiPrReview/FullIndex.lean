import AiPrReview.IncrementalIndex

/-! Full indexing: the rows and the state of the repository afterwards, also when
the transaction was repeated after its acknowledgement was lost. -/

namespace AiPrReview

variable {E : Type}

/-- The transaction of `_write` takes effect `again + 1` times. -/
def writeRepeated (db : IndexDb E) (repo : Text) (embedded : List (Chunk × E)) (stale : List Text)
    (commitSha : Text) : Nat → Option (IndexDb E)
  | 0 => write db repo embedded stale commitSha
  | again + 1 =>
    (write db repo embedded stale commitSha).bind fun db' => writeRepeated db' repo embedded stale commitSha again

/-- `full_index` when its transaction is run `again` more times after a commit. -/
def fullIndexRetried (isWord : Char → Bool) (embedding : Text → E) (github : TarballSource) (db : IndexDb E)
    (repo : Text) (again : Nat) : Option (IndexDb E × IndexResult) := do
  let fetched ← fetchTarball github repo "HEAD".toList
  let chunks := chunkRepo isWord fetched.tree none
  let embedded := embedChunks embedding chunks
  let retained := chunks.map Chunk.path
  let existing := (db.chunks.rows.filter fun r => r.repo == repo).map CodeChunk.path
  let stale := existing.filter fun p => !retained.contains p
  let db' ← writeRepeated db repo embedded stale fetched.commitSha again
  return (db', ⟨repo, fetched.commitSha, embedded.length, retained.dedup.length⟩)

theorem fullIndexRetried_zero (isWord : Char → Bool) (embedding : Text → E) (github : TarballSource)
    (db : IndexDb E) (repo : Text) :
    fullIndexRetried isWord embedding github db repo 0 = fullIndex isWord embedding github db repo := rfl

def repoRows (db : IndexDb E) (repo : Text) : List (CodeChunk E) := db.chunks.rows.filter fun r => r.repo == repo

theorem chunks_nodup (db : IndexDb E) : db.chunks.rows.Nodup := List.Nodup.of_map _ db.chunks.keys_nodup

theorem mem_repoRows_iff {db : IndexDb E} {repo : Text} {r : CodeChunk E} :
    r ∈ repoRows db repo ↔ r ∈ db.chunks.rows ∧ r.repo = repo := by
  simp [repoRows]

theorem repoRows_perm {db db' : IndexDb E} {repo : Text}
    (h : ∀ r : CodeChunk E, r.repo = repo → (r ∈ db'.chunks.rows ↔ r ∈ db.chunks.rows)) :
    (repoRows db' repo).Perm (repoRows db repo) := by
  refine (List.perm_ext_iff_of_nodup ((chunks_nodup db').filter _) ((chunks_nodup db).filter _)).mpr fun r => ?_
  show r ∈ repoRows db' repo ↔ r ∈ repoRows db repo
  rw [mem_repoRows_iff, mem_repoRows_iff]
  constructor
  · rintro ⟨hr, he⟩
    exact ⟨(h r he).mp hr, he⟩
  · rintro ⟨hr, he⟩
    exact ⟨(h r he).mpr hr, he⟩

/-! What one write leaves of the states, and what a repeated write leaves. -/

section

variable {db db' : IndexDb E} {repo commitSha : Text} {embedded : List (Chunk × E)} {stale : List Text}
  {again : Nat}

theorem states_write (h : write db repo embedded stale commitSha = some db') (other : Text) :
    db'.states.get other = if repo = other
      then some ⟨repo, some commitSha, (repoRows db' repo).length, .done, none⟩
      else db.states.get other := by
  simp only [write, Option.ite_none_right_eq_some, Option.some.injEq] at h
  obtain ⟨_, rfl⟩ := h
  simp only [upsertIndexState, Table.get_upsert, repoRows, ← List.countP_eq_length_filter]
  by_cases ho : repo = other
  · rw [if_pos ho, if_pos ho]
    cases hg : db.states.get other with
    | none => simp
    | some old =>
      have hrepo : old.repo = repo := (Table.get_key hg).trans ho.symm
      simp [hrepo]
  · rw [if_neg ho, if_neg ho]

/-- The rows after a write that has cleared the repository. -/
def Replaces (repo : Text) (embedded : List (Chunk × E)) (db db' : IndexDb E) : Prop :=
  ∀ r : CodeChunk E, r ∈ db'.chunks.rows ↔
    (∃ e ∈ embedded, CodeChunk.ofChunk repo e.1 e.2 = r) ∨ (r ∈ db.chunks.rows ∧ r.repo ≠ repo)

theorem replaces_write (h : write db repo embedded stale commitSha = some db')
    (hn : (embedded.map fun e => (e.1.path, e.1.chunkIndex)).Nodup)
    (hcover : ∀ r ∈ db.chunks.rows, r.repo = repo → r.path ∈ stale ∨ ∃ e ∈ embedded, e.1.path = r.path) :
    Replaces repo embedded db db' := by
  intro r
  rw [mem_write_iff h hn]
  refine or_congr_right ⟨?_, ?_⟩
  · rintro ⟨hr, hkeep⟩
    refine ⟨hr, fun he => ?_⟩
    rcases hcover r hr he with hs | ⟨e, hem, hp⟩
    · exact (hkeep he).1 hs
    · exact (hkeep he).2 e hem hp
  · rintro ⟨hr, hne⟩
    exact ⟨hr, fun he => absurd he hne⟩

theorem Replaces.cover (h : Replaces repo embedded db db') {r : CodeChunk E} (hr : r ∈ db'.chunks.rows)
    (he : r.repo = repo) : ∃ e ∈ embedded, e.1.path = r.path := by
  rcases (h r).mp hr with ⟨e, hem, rfl⟩ | ⟨_, hne⟩
  · exact ⟨e, hem, rfl⟩
  · exact absurd he hne

theorem Replaces.trans {db'' : IndexDb E} (h : Replaces repo embedded db db')
    (h' : Replaces repo embedded db' db'') : Replaces repo embedded db db'' := by
  intro r
  rw [h' r]
  constructor
  · rintro (hnew | ⟨hr, hne⟩)
    · exact .inl hnew
    · rcases (h r).mp hr with ⟨e, hem, rfl⟩ | hold
      · exact absurd rfl hne
      · exact .inr hold
  · rintro (hnew | hold)
    · exact .inl hnew
    · exact .inr ⟨(h r).mpr (.inr hold), hold.2⟩

theorem writeRepeated_spec (h : writeRepeated db repo embedded stale commitSha again = some db')
    (hn : (embedded.map fun e => (e.1.path, e.1.chunkIndex)).Nodup)
    (hcover : ∀ r ∈ db.chunks.rows, r.repo = repo → r.path ∈ stale ∨ ∃ e ∈ embedded, e.1.path = r.path) :
    Replaces repo embedded db db' ∧ ∀ other, db'.states.get other = if repo = other
      then some ⟨repo, some commitSha, (repoRows db' repo).length, .done, none⟩
      else db.states.get other := by
  induction again generalizing db with
  | zero => exact ⟨replaces_write h hn hcover, states_write h⟩
  | succ again ih =>
    obtain ⟨db₁, h₁, hrest⟩ := Option.bind_eq_some_iff.mp h
    have hrows := replaces_write h₁ hn hcover
    obtain ⟨hrows', hstates⟩ := ih hrest fun r hr he => .inr (hrows.cover hr he)
    refine ⟨hrows.trans hrows', fun other => ?_⟩
    rw [hstates other, states_write h₁ other]
    split_ifs <;> rfl

end

/-! `full_index`. -/

section

variable (isWord : Char → Bool) (embedding : Text → E)

/-- The repository is indexed at a tree and a commit; the others are as before. -/
structure IndexedAs (repo : Text) (tree : SourceTree) (commitSha : Text) (db db' : IndexDb E) : Prop where
  rows : (repoRows db' repo).Perm ((chunkRepo isWord tree none).map (rowOf embedding repo))
  keys : ((chunkRepo isWord tree none).map fun c => (c.path, c.chunkIndex)).Nodup
  state : db'.states.get repo = some ⟨repo, some commitSha, (repoRows db' repo).length, .done, none⟩
  otherRows : ∀ other, other ≠ repo → (repoRows db' other).Perm (repoRows db other)
  otherStates : ∀ other, other ≠ repo → db'.states.get other = db.states.get other

variable {isWord embedding}

theorem fullIndexRetried_spec {github : TarballSource} {db db' : IndexDb E} {repo : Text} {again : Nat}
    {res : IndexResult} {fetched : FetchedSource} (hf : fetchTarball github repo "HEAD".toList = some fetched)
    (h : fullIndexRetried isWord embedding github db repo again = some (db', res)) :
    Replaces repo (embedChunks embedding (chunkRepo isWord fetched.tree none)) db db' ∧
      ∀ other, db'.states.get other = if repo = other
        then some ⟨repo, some fetched.commitSha, (repoRows db' repo).length, .done, none⟩
        else db.states.get other := by
  simp only [fullIndexRetried, hf, Option.bind_eq_bind, Option.bind_some, Option.bind_eq_some_iff] at h
  obtain ⟨db₁, hw, he⟩ := h
  obtain rfl : db₁ = db' := (Prod.mk.inj (Option.some.inj he)).1
  refine writeRepeated_spec hw (embedChunks_nodup embedding (chunkRepo_nodup isWord fetched.tree none)) ?_
  -- a path of an old row is retained or stale
  intro r hr hrepo
  by_cases hp : r.path ∈ (chunkRepo isWord fetched.tree none).map Chunk.path
  · obtain ⟨c, hc, hcp⟩ := List.mem_map.mp hp
    exact .inr ⟨(c, embed embedding c.content), List.mem_map.mpr ⟨c, hc, rfl⟩, hcp⟩
  · refine .inl (List.mem_filter.mpr ⟨List.mem_map.mpr ⟨r, ?_, rfl⟩, by simpa using hp⟩)
    exact List.mem_filter.mpr ⟨hr, by simpa using hrepo⟩

theorem mem_of_replaces {repo : Text} {chunks : List Chunk} {db db' : IndexDb E}
    (h : Replaces repo (embedChunks embedding chunks) db db') {r : CodeChunk E} (hr : r.repo = repo) :
    r ∈ db'.chunks.rows ↔ ∃ c ∈ chunks, rowOf embedding repo c = r := by
  rw [h r, mem_embedChunks_iff]
  simp [hr]

theorem indexedAs_of_replaces {repo commitSha : Text} {tree : SourceTree} {db db' : IndexDb E}
    (h : Replaces repo (embedChunks embedding (chunkRepo isWord tree none)) db db')
    (hstates : ∀ other, db'.states.get other = if repo = other
      then some ⟨repo, some commitSha, (repoRows db' repo).length, .done, none⟩ else db.states.get other) :
    IndexedAs isWord embedding repo tree commitSha db db' := by
  have hkeys := chunkRepo_nodup isWord tree none
  refine ⟨?_, hkeys, ?_, fun other ho => repoRows_perm fun r hr => ?_, fun other ho => ?_⟩
  · have hrows : ((chunkRepo isWord tree none).map (rowOf embedding repo)).Nodup := by
      refine List.Nodup.of_map (fun r : CodeChunk E => (r.path, r.chunkIndex)) ?_
      rw [List.map_map]
      exact hkeys
    refine (List.perm_ext_iff_of_nodup ((chunks_nodup db').filter _) hrows).mpr fun r => ?_
    show r ∈ repoRows db' repo ↔ _
    rw [mem_repoRows_iff, List.mem_map]
    constructor
    · rintro ⟨hr, he⟩
      exact (mem_of_replaces h he).mp hr
    · rintro ⟨c, hc, rfl⟩
      exact ⟨(mem_of_replaces h rfl).mpr ⟨c, hc, rfl⟩, rfl⟩
  · rw [hstates repo, if_pos rfl]
  · rw [h r]
    constructor
    · rintro (⟨e, _, rfl⟩ | ⟨hold, _⟩)
      · exact absurd hr.symm ho
      · exact hold
    · intro hold
      exact .inr ⟨hold, hr ▸ ho⟩
  · rw [hstates other, if_neg ho.symm]

/-- Full indexing is exact, leaves the other repositories alone, and changes no
row when it is run again on the same tree. -/
theorem fullIndex_exact {github : TarballSource} {db db' : IndexDb E} {repo : Text} {again : Nat}
    {res : IndexResult} {fetched : FetchedSource} (hf : fetchTarball github repo "HEAD".toList = some fetched)
    (h : fullIndexRetried isWord embedding github db repo again = some (db', res)) :
    IndexedAs isWord embedding repo fetched.tree fetched.commitSha db db' ∧
      ∀ (github' : TarballSource) (sha : Text) (again' : Nat) (db'' : IndexDb E) (res' : IndexResult),
        fetchTarball github' repo "HEAD".toList = some ⟨fetched.tree, sha⟩ →
        fullIndexRetried isWord embedding github' db' repo again' = some (db'', res') →
        db''.chunks.rows.Perm db'.chunks.rows := by
  obtain ⟨hrows, hstates⟩ := fullIndexRetried_spec hf h
  refine ⟨indexedAs_of_replaces hrows hstates, fun github' sha again' db'' res' hf' h' => ?_⟩
  obtain ⟨hrows', _⟩ := fullIndexRetried_spec hf' h'
  refine (List.perm_ext_iff_of_nodup (chunks_nodup db'') (chunks_nodup db')).mpr fun r => ?_
  rw [hrows' r]
  constructor
  · rintro (hnew | ⟨hr, _⟩)
    · exact (hrows r).mpr (.inl hnew)
    · exact hr
  · intro hr
    rcases (hrows r).mp hr with hnew | ⟨_, hne⟩
    · exact .inl hnew
    · exact .inr ⟨hr, hne⟩

end

/-- A table with a row of a file that is gone, and one of another repository. -/
def staleDb : IndexDb Nat where
  chunks := ⟨[⟨"o/r".toList, "old.py".toList, none, 0, "old".toList, 3, 1⟩,
    ⟨"o/s".toList, "a.py".toList, none, 0, "s".toList, 1, 1⟩], by decide⟩
  states := Table.empty

theorem fullIndex_exact_stale : ∃ (db' : IndexDb Nat) (res : IndexResult),
    fullIndexRetried Char.isAlphanum List.length (sourceAt (oneFile "a.py".toList (.bytes [120]))) staleDb
      "o/r".toList 1 = some (db', res) ∧
    IndexedAs Char.isAlphanum List.length "o/r".toList (oneFile "a.py".toList (.bytes [120])) "HEAD".toList
      staleDb db' := by
  obtain ⟨⟨db', res⟩, hi⟩ : ∃ p, fullIndexRetried Char.isAlphanum List.length
      (sourceAt (oneFile "a.py".toList (.bytes [120]))) staleDb "o/r".toList 1 = some p :=
    Option.isSome_iff_exists.mp (by decide +kernel)
  have hf : fetchTarball (sourceAt (oneFile "a.py".toList (.bytes [120]))) "o/r".toList "HEAD".toList =
      some ⟨oneFile "a.py".toList (.bytes [120]), "HEAD".toList⟩ := rfl
  exact ⟨db', res, hi, (fullIndex_exact hf hi).1⟩

end AiPrReview
