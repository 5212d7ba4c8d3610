import AiPrReview.FullIndex
import AiPrReview.ReadCommitted

/-! The transactions of `_write` statement by statement: what the recorded
number of chunks is worth when several of them run at once. -/

namespace AiPrReview

open ReadCommitted

variable {E : Type}

structure WriteCall (E : Type) : Type where
  embedded : List (Chunk × E)
  stale : List Text
  commitSha : Text

def deleteStatement (repo : Text) (paths : List Text) : List (Statement (CodeChunk.key (E := E))) :=
  if paths = [] then [] else [.delete fun k => k.1 == repo && paths.contains k.2.1]

theorem key_overwritten (r old : CodeChunk E) : CodeChunk.key { old with
    symbol := r.symbol
    content := r.content
    embedding := r.embedding
    tokenCount := r.tokenCount } = old.key := rfl

def upsertStatement (r : CodeChunk E) : Statement (CodeChunk.key (E := E)) :=
  .upsert r (fun old => { old with
    symbol := r.symbol
    content := r.content
    embedding := r.embedding
    tokenCount := r.tokenCount })
    (key_overwritten r)

/-- The statements of the transaction before its count, and the row of
`repo_index_state` that it writes with the count. -/
def WriteCall.body (repo : Text) (c : WriteCall E) :
    List (Statement (CodeChunk.key (E := E))) × (Nat → RepoIndexState) :=
  (deleteStatement repo c.stale ++ deleteStatement repo (c.embedded.map fun e => e.1.path) ++
      c.embedded.map fun e => upsertStatement (CodeChunk.ofChunk repo e.1 e.2),
    fun total => ⟨repo, some c.commitSha, total, .done, none⟩)

def ofRepo (repo : Text) (k : Text × Text × Nat) : Bool := k.1 == repo

abbrev WriteSystem (E : Type) : Type := System (CodeChunk.key (E := E)) RepoIndexState

/-- Transactions of `_write` on one repository, none of which has begun. -/
def writersOf (db : IndexDb E) (repo : Text) (calls : List (WriteCall E)) : WriteSystem E :=
  .opened db.chunks.rows (db.states.get repo) (calls.map (WriteCall.body repo))

def chunkRows (repo : Text) (s : WriteSystem E) : Nat := rowsOf (ofRepo repo) CodeChunk.key s.store.rows

/-- Once all have committed, the recorded count is the number of rows exactly
when the last transaction to commit counted as many committed rows as there were
at its commit. -/
theorem chunkCount_recorded_iff {db : IndexDb E} {repo : Text} {calls : List (WriteCall E)} (hne : calls ≠ [])
    {s : WriteSystem E} (hrun : Relation.ReflTransGen (Step (ofRepo repo)) (writersOf db repo calls) s)
    (hdone : ∀ w ∈ s.writers, w.phase = .committed) :
    ∃ state, s.store.saved = some state ∧ state.repo = repo ∧
      (state.chunkCount = chunkRows repo s ↔ ∀ c ∈ s.store.commits.getLast?, c.1 = c.2) := by
  obtain ⟨b, hb, total, hsaved, hiff⟩ := saved_count_iff (by simpa using hne) hrun hdone
  obtain ⟨c, _, rfl⟩ := List.mem_map.mp hb
  exact ⟨_, hsaved, rfl, hiff⟩

/-! A transaction that is alone does what `write` does. -/

theorem run_deleteStatement (t : Table (CodeChunk.key (E := E))) (repo : Text) (paths : List Text) :
    (deleteStatement repo paths).foldl Statement.run t = deletePaths t repo paths := by
  unfold deleteStatement
  split_ifs with h
  · refine Table.eq_of_rows ?_
    rw [h]
    exact (List.filter_eq_self.mpr (by simp)).symm
  · rfl

theorem run_body (t : Table (CodeChunk.key (E := E))) (repo : Text) (c : WriteCall E) :
    (c.body repo).1.foldl Statement.run t =
      (c.embedded.map fun e => CodeChunk.ofChunk repo e.1 e.2).foldl upsertChunk
        (deletePaths (deletePaths t repo c.stale) repo (c.embedded.map fun e => e.1.path)) := by
  rw [WriteCall.body, List.foldl_append, List.foldl_append, run_deleteStatement, run_deleteStatement,
    List.foldl_map, List.foldl_map]
  rfl

theorem lone_write {db db' : IndexDb E} {repo : Text} {c : WriteCall E}
    (hwrite : write db repo c.embedded c.stale c.commitSha = some db') {s : WriteSystem E}
    (hrun : Relation.ReflTransGen (Step (ofRepo repo)) (writersOf db repo [c]) s)
    (hdone : ∀ w ∈ s.writers, w.phase = .committed) :
    s.store.rows.map Prod.snd = db'.chunks.rows ∧ s.store.saved = db'.states.get repo := by
  have hrows := (lone_writer hrun hdone).trans (congrArg Table.rows (run_body db.chunks repo c))
  have hchunks : s.store.rows.map Prod.snd = db'.chunks.rows := by
    rw [hrows]
    simp only [write, Option.ite_none_right_eq_some, Option.some.injEq] at hwrite
    obtain ⟨_, rfl⟩ := hwrite
    rfl
  refine ⟨hchunks, ?_⟩
  obtain ⟨b, hb, total, hsaved, hiff⟩ := saved_count_iff (List.cons_ne_nil _ _) hrun hdone
  obtain rfl := List.mem_singleton.mp hb
  have htotal := hiff.mpr fun c' hc' => lone_commits hrun c' (List.mem_of_getLast? hc')
  have hcount : rowsOf (ofRepo repo) CodeChunk.key s.store.rows = (repoRows db' repo).length := by
    rw [repoRows, ← List.countP_eq_length_filter, ← hchunks, List.countP_map]
    rfl
  rw [hsaved, states_write hwrite, if_pos rfl, htotal, hcount]
  rfl

/-! Two transactions on different files. -/

def chunkCall (path sha : Text) : WriteCall Nat := ⟨[(⟨path, none, 0, "x".toList⟩, 0)], [], sha⟩

def twoWrites : List (WriteCall Nat) := [chunkCall "a.py".toList "b".toList, chunkCall "b.py".toList "c".toList]

def emptyDb : IndexDb Nat := ⟨Table.empty, Table.empty⟩

def isCommitted (w : Writer (CodeChunk.key (E := Nat)) RepoIndexState) : Bool :=
  match w.phase with
  | .committed => true
  | _ => false

theorem committed_of_all {s : WriteSystem Nat} (h : s.writers.all isCommitted = true) :
    ∀ w ∈ s.writers, w.phase = .committed := by
  intro w hw
  have hh := List.all_eq_true.mp h w hw
  unfold isCommitted at hh
  split at hh
  · next hphase => exact hphase
  · cases hh

/-- The transactions act in this order. -/
def schedule (s : WriteSystem Nat) (order : List Nat) : Option (WriteSystem Nat) :=
  order.foldlM (System.advance (ofRepo "o/r".toList)) s

theorem run_of_schedule {order : List Nat} {s s' : WriteSystem Nat} (h : schedule s order = some s') :
    Relation.ReflTransGen (Step (ofRepo "o/r".toList)) s s' := by
  induction order generalizing s with
  | nil =>
    obtain rfl := Option.some.inj h
    exact .refl
  | cons i order ih =>
    simp only [schedule, List.foldlM_cons, Option.bind_eq_bind] at h
    obtain ⟨s₁, hs₁, hrest⟩ := Option.bind_eq_some_iff.mp h
    exact .head ⟨i, hs₁⟩ (ih hrest)

theorem chunkCount_recorded_inTurn : ∃ s,
    Relation.ReflTransGen (Step (ofRepo "o/r".toList)) (writersOf emptyDb "o/r".toList twoWrites) s ∧
      ∃ state, s.store.saved = some state ∧ state.chunkCount = chunkRows "o/r".toList s := by
  obtain ⟨s, hs, hdone, hlast⟩ : ∃ s ∈ schedule (writersOf emptyDb "o/r".toList twoWrites)
      [0, 0, 0, 0, 0, 0, 1, 1, 1, 1, 1, 1], s.writers.all isCommitted = true ∧
        ∀ c ∈ s.store.commits.getLast?, c.1 = c.2 := by
    decide +kernel
  have hrun := run_of_schedule hs
  obtain ⟨state, hsaved, _, hiff⟩ := chunkCount_recorded_iff (by decide) hrun (committed_of_all hdone)
  exact ⟨s, hrun, state, hsaved, hiff.mpr hlast⟩

/-- Both count before either commits: the table has two rows, the record says one. -/
theorem chunkCount_recorded_short : ∃ s,
    Relation.ReflTransGen (Step (ofRepo "o/r".toList)) (writersOf emptyDb "o/r".toList twoWrites) s ∧
      (∀ w ∈ s.writers, w.phase = .committed) ∧ s.store.saved.map RepoIndexState.chunkCount = some 1 ∧
      chunkRows "o/r".toList s = 2 := by
  obtain ⟨s, hs, hdone, hsaved, hrows⟩ : ∃ s ∈ schedule (writersOf emptyDb "o/r".toList twoWrites)
      [0, 0, 0, 1, 1, 1, 0, 1, 0, 0, 1, 1], s.writers.all isCommitted = true ∧
        s.store.saved.map RepoIndexState.chunkCount = some 1 ∧ chunkRows "o/r".toList s = 2 := by
    decide +kernel
  exact ⟨s, run_of_schedule hs, committed_of_all hdone, hsaved, hrows⟩

end AiPrReview
