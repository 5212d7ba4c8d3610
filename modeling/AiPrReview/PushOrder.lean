import AiPrReview.FullIndex

/-! Reindex jobs of successive pushes, completed in any order. Nothing compares
the commit that a job starts from with the commit that is indexed. -/

namespace AiPrReview

structure Commit : Type where
  sha : Text
  tree : SourceTree

/-- A push from `before` to `after`, as its reindex job reports it. -/
structure Push : Type where
  before : Commit
  after : Commit
  changed : ChangedFiles

/-- Pushes one after the other, each with exact lists. -/
inductive Chain : Commit → List Push → Commit → Prop
  | nil (c : Commit) : Chain c [] c
  | cons {p : Push} {ps : List Push} {last : Commit} : ExactChange p.before.tree p.after.tree p.changed →
      Chain p.after ps last → Chain p.before (p :: ps) last

variable {E : Type}

section

variable (isWord : Char → Bool) (embedding : Text → E) (github : TarballSource) (repo : Text)

/-- The reindex jobs of the pushes, each as one step. -/
def runJobs (db : IndexDb E) (order : List Push) : Option (IndexDb E) :=
  order.foldlM (fun db p => (incrementalIndex isWord embedding github db repo p.after.sha p.changed).map Prod.fst) db

def IndexedAt (db : IndexDb E) (c : Commit) : Prop :=
  HoldsTree isWord embedding db repo c.tree ∧
    (db.states.get repo).map RepoIndexState.lastIndexedCommit = some (some c.sha)

def pathChunks (tree : SourceTree) (path : Text) : List Chunk :=
  ((tree.get path).map fun f => fileChunks isWord path f.2).getD []

def SameChunks (tree tree' : SourceTree) (path : Text) : Prop :=
  ∀ c, c ∈ pathChunks isWord tree path ↔ c ∈ pathChunks isWord tree' path

/-- The job clears a path: it removes it, or it finds chunks to put there. -/
def Push.clears (p : Push) (path : Text) : Bool :=
  p.changed.removed.contains path ||
    (p.changed.toReembed.contains path && (p.after.tree.get path).any fun f => isIndexable path f.2)

/-- The commit of the last completed job that clears a path. -/
def clearedAt (path : Text) (c : Commit) (order : List Push) : Commit :=
  order.foldl (fun c p => if p.clears path then p.after else c) c

def completedAt (c : Commit) (order : List Push) : Commit := order.foldl (fun _ p => p.after) c

end

variable {isWord : Char → Bool} {embedding : Text → E} {github : TarballSource} {repo : Text}

theorem mem_pathChunks_iff {tree : SourceTree} {path : Text} {c : Chunk} :
    c ∈ pathChunks isWord tree path ↔ ∃ file, tree.get path = some (path, file) ∧ c ∈ fileChunks isWord path file := by
  unfold pathChunks
  cases hg : tree.get path with
  | none => simp
  | some f =>
    obtain ⟨p, file⟩ := f
    obtain rfl : p = path := Table.get_key hg
    simp

theorem treeRow_iff_pathChunks {tree : SourceTree} {r : CodeChunk E} :
    TreeRow isWord embedding tree r ↔ ∃ c ∈ pathChunks isWord tree r.path, rowOf embedding r.repo c = r := by
  constructor
  · rintro ⟨file, hf, c, hc, hr⟩
    exact ⟨c, mem_pathChunks_iff.mpr ⟨file, hf, hc⟩, hr⟩
  · rintro ⟨c, hc, hr⟩
    obtain ⟨file, hf, hcf⟩ := mem_pathChunks_iff.mp hc
    exact ⟨file, hf, c, hcf, hr⟩

theorem rowOf_injective {c c' : Chunk} (h : rowOf embedding repo c = rowOf embedding repo c') : c = c' := by
  obtain ⟨path, symbol, index, content⟩ := c
  obtain ⟨path', symbol', index', content'⟩ := c'
  simp only [rowOf, CodeChunk.ofChunk, CodeChunk.mk.injEq, true_and] at h
  rw [h.1, h.2.1, h.2.2.1, h.2.2.2.1]

variable (embedding repo) in
theorem sameChunks_iff {tree tree' : SourceTree} {path : Text} :
    SameChunks isWord tree tree' path ↔ ∀ r : CodeChunk E, r.repo = repo → r.path = path →
      (TreeRow isWord embedding tree r ↔ TreeRow isWord embedding tree' r) := by
  constructor
  · intro h r _ hp
    rw [treeRow_iff_pathChunks, treeRow_iff_pathChunks, hp]
    constructor
    · rintro ⟨c, hc, hr⟩
      exact ⟨c, (h c).mp hc, hr⟩
    · rintro ⟨c, hc, hr⟩
      exact ⟨c, (h c).mpr hc, hr⟩
  · intro h c
    have hrow : ∀ {t : SourceTree}, c ∈ pathChunks isWord t path →
        TreeRow isWord embedding t (rowOf embedding repo c) := by
      intro t hc
      obtain ⟨file, hf, hcf⟩ := mem_pathChunks_iff.mp hc
      obtain rfl := path_of_mem_fileChunks hcf
      exact ⟨file, hf, c, hcf, rfl⟩
    have hback : ∀ {t : SourceTree}, c.path = path → TreeRow isWord embedding t (rowOf embedding repo c) →
        c ∈ pathChunks isWord t path := by
      rintro t rfl ⟨file, hf, c', hcf, hr⟩
      obtain rfl := rowOf_injective hr
      exact mem_pathChunks_iff.mpr ⟨file, hf, hcf⟩
    have hpath : ∀ {t : SourceTree}, c ∈ pathChunks isWord t path → c.path = path := by
      intro t hc
      obtain ⟨file, _, hcf⟩ := mem_pathChunks_iff.mp hc
      exact path_of_mem_fileChunks hcf
    constructor
    · intro hc
      exact hback (hpath hc) ((h (rowOf embedding repo c) rfl (hpath hc)).mp (hrow hc))
    · intro hc
      exact hback (hpath hc) ((h (rowOf embedding repo c) rfl (hpath hc)).mpr (hrow hc))

/-! One job. -/

section

variable {db db' : IndexDb E} {p : Push}

/-- A job leaves its tree's rows at the paths it clears, and the other paths alone. -/
theorem mem_job_iff (hf : fetchTarball github repo p.after.sha = some ⟨p.after.tree, p.after.sha⟩)
    (hc : ExactChange p.before.tree p.after.tree p.changed) {res : IndexResult}
    (h : incrementalIndex isWord embedding github db repo p.after.sha p.changed = some (db', res))
    {r : CodeChunk E} (hr : r.repo = repo) :
    r ∈ db'.chunks.rows ↔
      if p.clears r.path then TreeRow isWord embedding p.after.tree r else r ∈ db.chunks.rows := by
  have hlisted : (∃ c ∈ chunkRepo isWord p.after.tree (some p.changed.toReembed), rowOf embedding repo c = r) ↔
      r.path ∈ p.changed.toReembed ∧ TreeRow isWord embedding p.after.tree r := by
    rw [← hr, treeRow_iff]
    simp
  rw [mem_incrementalIndex_iff hf h, hlisted, exists_chunk_iff]
  by_cases hrem : r.path ∈ p.changed.removed
  · have hclears : p.clears r.path = true := by simp [Push.clears, hrem]
    have hgone := ((hc.removed _).mp hrem).2
    rw [if_pos hclears]
    constructor
    · rintro (⟨_, hrow⟩ | ⟨_, hkeep⟩)
      · exact hrow
      · exact absurd hrem (hkeep hr).1
    · rintro ⟨file, hfile, _⟩
      rw [hgone] at hfile
      cases hfile
  · by_cases hre : r.path ∈ p.changed.toReembed ∧ ∃ file, p.after.tree.get r.path = some (r.path, file) ∧
        isIndexable r.path file = true
    · obtain ⟨hp, file, hfile, hi⟩ := hre
      have hclears : p.clears r.path = true := by simp [Push.clears, hp, hfile, hi]
      rw [if_pos hclears]
      constructor
      · rintro (⟨_, hrow⟩ | ⟨_, hkeep⟩)
        · exact hrow
        · exact absurd ⟨hp, file, hfile, hi⟩ (hkeep hr).2
      · intro hrow
        exact .inl ⟨hp, hrow⟩
    -- nothing to put there: what is there stays
    · have hclears : ¬p.clears r.path = true := by
        intro hh
        simp only [Push.clears, Bool.or_eq_true, List.contains_iff_mem, Bool.and_eq_true] at hh
        rcases hh with hh | ⟨hp, hany⟩
        · exact hrem hh
        · obtain ⟨⟨path, file⟩, hg, hi⟩ := (Option.any_eq_true _ _).mp hany
          obtain rfl : path = r.path := Table.get_key hg
          exact hre ⟨hp, file, hg, hi⟩
      rw [if_neg hclears]
      constructor
      · rintro (⟨hp, hrow⟩ | ⟨hold, _⟩)
        · obtain ⟨file, hfile, c, hcf, _⟩ := hrow
          exact absurd ⟨hp, file, hfile, fileChunks_ne_nil_iff.mp (List.ne_nil_of_mem hcf)⟩ hre
        · exact hold
      · intro hold
        exact .inr ⟨hold, fun _ => ⟨hrem, hre⟩⟩

theorem state_job {res : IndexResult}
    (h : incrementalIndex isWord embedding github db repo p.after.sha p.changed = some (db', res)) :
    (db'.states.get repo).map RepoIndexState.lastIndexedCommit = some (some p.after.sha) := by
  simp only [incrementalIndex, Option.bind_eq_bind, Option.bind_eq_some_iff] at h
  obtain ⟨_, _, db₁, hw, he⟩ := h
  obtain rfl : db₁ = db' := (Prod.mk.inj (Option.some.inj he)).1
  rw [states_write hw, if_pos rfl]
  rfl

end

/-! All the jobs. -/

theorem runJobs_cons {db db' : IndexDb E} {p : Push} {order : List Push}
    (h : runJobs isWord embedding github repo db (p :: order) = some db') :
    ∃ db₁ res, incrementalIndex isWord embedding github db repo p.after.sha p.changed = some (db₁, res) ∧
      runJobs isWord embedding github repo db₁ order = some db' := by
  simp only [runJobs, List.foldlM_cons, Option.bind_eq_bind, Option.bind_eq_some_iff] at h
  obtain ⟨db₁, hjob, hrest⟩ := h
  obtain ⟨⟨_, res⟩, hi, rfl⟩ := Option.map_eq_some_iff.mp hjob
  exact ⟨_, res, hi, hrest⟩

theorem mem_runJobs_iff {order : List Push}
    (hf : ∀ p ∈ order, fetchTarball github repo p.after.sha = some ⟨p.after.tree, p.after.sha⟩)
    (hc : ∀ p ∈ order, ExactChange p.before.tree p.after.tree p.changed) {db db' : IndexDb E}
    (h : runJobs isWord embedding github repo db order = some db') {r : CodeChunk E} (hr : r.repo = repo)
    {c : Commit} (hdb : r ∈ db.chunks.rows ↔ TreeRow isWord embedding c.tree r) :
    r ∈ db'.chunks.rows ↔ TreeRow isWord embedding (clearedAt r.path c order).tree r := by
  induction order generalizing db c with
  | nil =>
    obtain rfl := Option.some.inj h
    exact hdb
  | cons p order ih =>
    obtain ⟨db₁, res, hjob, hrest⟩ := runJobs_cons h
    have hdb₁ : r ∈ db₁.chunks.rows ↔
        TreeRow isWord embedding (if p.clears r.path then p.after else c).tree r := by
      rw [mem_job_iff (hf p (by simp)) (hc p (by simp)) hjob hr]
      split_ifs
      · rfl
      · exact hdb
    exact ih (fun q hq => hf q (by simp [hq])) (fun q hq => hc q (by simp [hq])) hrest hdb₁

theorem state_runJobs {order : List Push} {db db' : IndexDb E}
    (h : runJobs isWord embedding github repo db order = some db') {c : Commit}
    (hdb : (db.states.get repo).map RepoIndexState.lastIndexedCommit = some (some c.sha)) :
    (db'.states.get repo).map RepoIndexState.lastIndexedCommit = some (some (completedAt c order).sha) := by
  induction order generalizing db c with
  | nil =>
    obtain rfl := Option.some.inj h
    exact hdb
  | cons p order ih =>
    obtain ⟨db₁, res, hjob, hrest⟩ := runJobs_cons h
    exact ih hrest (state_job hjob)

theorem Chain.exact {c last : Commit} {pushes : List Push} (h : Chain c pushes last) :
    ∀ p ∈ pushes, ExactChange p.before.tree p.after.tree p.changed := by
  induction h with
  | nil => simp
  | cons hc _ ih =>
    intro q hq
    rcases List.mem_cons.mp hq with rfl | hq
    · exact hc
    · exact ih q hq

/-- Jobs that complete in the order of their pushes clear every path for its newest file. -/
theorem Chain.cleared_inOrder {c₀ last : Commit} {pushes : List Push} (h : Chain c₀ pushes last)
    (hfiles : ∀ p ∈ pushes, ∀ path file, p.after.tree.get path = some (path, file) → isIndexable path file = true)
    {path : Text} {c : Commit} (hc : c.tree.get path = c₀.tree.get path) :
    (clearedAt path c pushes).tree.get path = last.tree.get path := by
  induction h generalizing c with
  | nil => exact hc
  | @cons p ps last hexact _ ih =>
    refine ih (fun q hq => hfiles q (by simp [hq])) ?_
    show (if p.clears path then p.after else c).tree.get path = p.after.tree.get path
    split_ifs with hclears
    · rfl
    · rw [hc]
      by_contra hne
      apply hclears
      rw [Push.clears, Bool.or_eq_true, List.contains_iff_mem, Bool.and_eq_true, List.contains_iff_mem]
      by_cases ha : p.after.tree.get path = none
      · exact .inl ((hexact.removed path).mpr ⟨fun hb => hne (hb.trans ha.symm), ha⟩)
      · obtain ⟨⟨path', file⟩, hg⟩ := Option.ne_none_iff_exists'.mp ha
        obtain rfl : path' = path := Table.get_key hg
        refine .inr ⟨List.mem_append.mpr ?_, by simp [hg, hfiles p (by simp) _ file hg]⟩
        by_cases hb : p.before.tree.get path' = none
        · exact .inl ((hexact.added path').mpr ⟨hb, ha⟩)
        · exact .inr ((hexact.modified path').mpr ⟨hb, ha, hne⟩)

theorem Chain.completed_inOrder {c₀ last : Commit} {pushes : List Push} (h : Chain c₀ pushes last) :
    completedAt c₀ pushes = last := by
  induction h with
  | nil => rfl
  | cons _ _ ih => exact ih

theorem sameChunks_of_get_eq {tree tree' : SourceTree} {path : Text} (h : tree.get path = tree'.get path) :
    SameChunks isWord tree tree' path := by
  intro c
  rw [pathChunks, pathChunks, h]

theorem indexedAt_of_fullIndex {db db' : IndexDb E} {res : IndexResult} {fetched : FetchedSource}
    (hf : fetchTarball github repo "HEAD".toList = some fetched)
    (h : fullIndex isWord embedding github db repo = some (db', res)) :
    IndexedAt isWord embedding repo db' ⟨fetched.commitSha, fetched.tree⟩ := by
  refine ⟨fullIndex_holdsTree isWord embedding hf h, ?_⟩
  have hh : fullIndexRetried isWord embedding github db repo 0 = some (db', res) := h
  rw [(fullIndexRetried_spec hf hh).2 repo, if_pos rfl]
  rfl

/-- After the jobs of a chain of pushes, completed in any order, the index is
that of the newest commit exactly when the last completed job was the newest
commit's, and every path was last cleared for a tree that has the newest chunks
there. -/
theorem reindexed_at_newest_iff {c₀ last : Commit} {pushes order : List Push} (hchain : Chain c₀ pushes last)
    (horder : order.Perm pushes)
    (hgithub : ∀ p ∈ pushes, fetchTarball github repo p.after.sha = some ⟨p.after.tree, p.after.sha⟩)
    {db₀ db : IndexDb E} (hstart : IndexedAt isWord embedding repo db₀ c₀)
    (hrun : runJobs isWord embedding github repo db₀ order = some db) :
    IndexedAt isWord embedding repo db last ↔ (completedAt c₀ order).sha = last.sha ∧
      ∀ path, SameChunks isWord (clearedAt path c₀ order).tree last.tree path := by
  have hrows : ∀ r : CodeChunk E, r.repo = repo →
      (r ∈ db.chunks.rows ↔ TreeRow isWord embedding (clearedAt r.path c₀ order).tree r) := by
    intro r hr
    exact mem_runJobs_iff (fun p hp => hgithub p (horder.mem_iff.mp hp))
      (fun p hp => hchain.exact p (horder.mem_iff.mp hp)) hrun hr (holdsTree_iff.mp hstart.1 r hr)
  have hstate := state_runJobs hrun hstart.2
  rw [IndexedAt, hstate, Option.some.injEq, Option.some.injEq, and_comm, holdsTree_iff]
  refine and_congr_right fun _ => ⟨fun h path => ?_, fun h r hr => ?_⟩
  · refine (sameChunks_iff embedding repo).mpr fun r hr hp => ?_
    subst hp
    exact (hrows r hr).symm.trans (h r hr)
  · exact (hrows r hr).trans ((sameChunks_iff embedding repo).mp (h r.path) r hr rfl)

/-! Three commits of one file. -/

def commitOf (sha : Text) (byte : UInt8) : Commit := ⟨sha, oneFile "a.py".toList (.bytes [byte])⟩

def rewrittenBy (before after : Commit) : Push := ⟨before, after, ⟨[], ["a.py".toList], []⟩⟩

def firstCommit : Commit := commitOf "HEAD".toList 120
def secondCommit : Commit := commitOf "b".toList 121
def thirdCommit : Commit := commitOf "c".toList 122

def history : TarballSource where
  headSha _ ref := some ref
  tarball _ sha := some (if sha = "b".toList then secondCommit.tree
    else if sha = "c".toList then thirdCommit.tree else firstCommit.tree)

def twoPushes : List Push := [rewrittenBy firstCommit secondCommit, rewrittenBy secondCommit thirdCommit]

theorem twoPushes_chain : Chain firstCommit twoPushes thirdCommit := by
  have hlast : Chain secondCommit [rewrittenBy secondCommit thirdCommit] thirdCommit :=
    Chain.cons (p := rewrittenBy secondCommit thirdCommit) (exactChange_oneFile (by decide)) (.nil thirdCommit)
  exact Chain.cons (p := rewrittenBy firstCommit secondCommit) (exactChange_oneFile (by decide)) hlast

theorem history_fetches : ∀ p ∈ twoPushes, fetchTarball history "o/r".toList p.after.sha =
    some ⟨p.after.tree, p.after.sha⟩ := by
  intro p hp
  simp only [twoPushes, List.mem_cons, List.not_mem_nil, or_false] at hp
  rcases hp with rfl | rfl
  · rfl
  · rfl

/-- The index of the first commit, and after it the jobs of `order`. -/
def reindexed (order : List Push) : Option (IndexDb Nat × IndexDb Nat) := do
  let first ← fullIndex Char.isAlphanum List.length history ⟨Table.empty, Table.empty⟩ "o/r".toList
  let db ← runJobs Char.isAlphanum List.length history "o/r".toList first.1 order
  return (first.1, db)

theorem reindexed_start {order : List Push} {db₀ db : IndexDb Nat} (h : reindexed order = some (db₀, db)) :
    IndexedAt Char.isAlphanum List.length "o/r".toList db₀ firstCommit ∧
      runJobs Char.isAlphanum List.length history "o/r".toList db₀ order = some db := by
  simp only [reindexed, Option.bind_eq_bind, Option.bind_eq_some_iff] at h
  obtain ⟨⟨first, res⟩, hfirst, db', hrun, he⟩ := h
  obtain ⟨rfl, rfl⟩ := Prod.mk.injEq .. ▸ Option.some.inj he
  have hf : fetchTarball history "o/r".toList "HEAD".toList = some ⟨firstCommit.tree, "HEAD".toList⟩ := rfl
  exact ⟨indexedAt_of_fullIndex hf hfirst, hrun⟩

theorem reindexed_at_newest_inOrder : ∃ db : IndexDb Nat,
    (∃ db₀, reindexed twoPushes = some (db₀, db)) ∧
      IndexedAt Char.isAlphanum List.length "o/r".toList db thirdCommit := by
  obtain ⟨⟨db₀, db⟩, h⟩ : ∃ p, reindexed twoPushes = some p := Option.isSome_iff_exists.mp (by decide +kernel)
  obtain ⟨hstart, hrun⟩ := reindexed_start h
  refine ⟨db, ⟨db₀, h⟩, (reindexed_at_newest_iff twoPushes_chain (List.Perm.refl _) history_fetches hstart hrun).mpr
    ⟨rfl, fun path => sameChunks_of_get_eq (twoPushes_chain.cleared_inOrder ?_ rfl)⟩⟩
  intro p hp path file hg
  simp only [twoPushes, List.mem_cons, List.not_mem_nil, or_false] at hp
  rcases hp with rfl | rfl
  all_goals
    simp only [rewrittenBy, secondCommit, thirdCommit, commitOf, get_oneFile] at hg
    split_ifs at hg with hpath
    obtain ⟨rfl, rfl⟩ := Prod.mk.injEq .. ▸ Option.some.inj hg
    decide +kernel

/-- The job of the second push is done first, and the job of the first one puts the old file back. -/
theorem reindexed_backwards_not_newest : ∃ db₀ db : IndexDb Nat,
    Chain firstCommit twoPushes thirdCommit ∧ twoPushes.reverse.Perm twoPushes ∧
    IndexedAt Char.isAlphanum List.length "o/r".toList db₀ firstCommit ∧
    runJobs Char.isAlphanum List.length history "o/r".toList db₀ twoPushes.reverse = some db ∧
    ¬IndexedAt Char.isAlphanum List.length "o/r".toList db thirdCommit := by
  obtain ⟨⟨db₀, db⟩, h, hsha⟩ : ∃ p ∈ reindexed twoPushes.reverse,
      (p.2.states.get "o/r".toList).map RepoIndexState.lastIndexedCommit = some (some "b".toList) := by
    decide +kernel
  obtain ⟨hstart, hrun⟩ := reindexed_start h
  refine ⟨db₀, db, twoPushes_chain, List.reverse_perm _, hstart, hrun, fun hnew => ?_⟩
  have hsame := hsha.symm.trans hnew.2
  exact absurd hsame (by decide)

end AiPrReview
