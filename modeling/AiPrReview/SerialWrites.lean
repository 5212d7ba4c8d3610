import AiPrReview.CommitOrder
import AiPrReview.WriteRaces

/-! Transactions of `_write` that run at once, statement by statement. As long as
those under way have no file in common they come to the same as one after the
other; two on one file can leave it with chunks of both. -/

namespace AiPrReview

open ReadCommitted

variable {E : Type}

def WriteCall.files (c : WriteCall E) : List Text := c.stale ++ c.embedded.map fun e => e.1.path

/-- No two transactions under way delete or write the same file. -/
def FilesApart (repo : Text) (calls : List (WriteCall E)) (s : WriteSystem E) : Prop :=
  (calls.zip s.writers).Pairwise fun x y =>
    AtWork (x.1.body repo) x.2 → AtWork (y.1.body repo) y.2 → ∀ p ∈ x.1.files, p ∉ y.1.files

abbrev WriteRun (repo : Text) (db : IndexDb E) (calls : List (WriteCall E)) : List Nat → WriteSystem E → Prop :=
  OrderedRun (ofRepo repo) (calls.map (WriteCall.body repo)) (writersOf db repo calls)

/-- The calls of `_write` one after the other. -/
def writeAll (repo : Text) (db : IndexDb E) (calls : List (WriteCall E)) : Option (IndexDb E) :=
  calls.foldlM (fun db c => write db repo c.embedded c.stale c.commitSha) db

section

variable {repo : Text} {db : IndexDb E} {calls : List (WriteCall E)} {order : List Nat} {s : WriteSystem E}

theorem touched_body {c : WriteCall E} {k : Text × Text × Nat} :
    touched (c.body repo) k = true ↔ k.1 = repo ∧ k.2.1 ∈ c.files := by
  have hdelete : ∀ paths, (deleteStatement repo paths).any
      (fun d : Statement (CodeChunk.key (E := E)) => d.touches k) = true ↔ k.1 = repo ∧ k.2.1 ∈ paths := by
    intro paths
    unfold deleteStatement
    split_ifs with h
    · simp [h]
    · simp [Statement.touches]
  have hupsert : (c.embedded.map fun e => upsertStatement (CodeChunk.ofChunk repo e.1 e.2)).any
      (fun d => d.touches k) = true → k.1 = repo ∧ k.2.1 ∈ c.embedded.map fun e => e.1.path := by
    intro h
    obtain ⟨d, hd, hk⟩ := List.any_eq_true.mp h
    obtain ⟨e, he, rfl⟩ := List.mem_map.mp hd
    obtain rfl := of_decide_eq_true hk
    exact ⟨rfl, List.mem_map_of_mem he⟩
  show List.any (deleteStatement repo c.stale ++ deleteStatement repo (c.embedded.map fun e => e.1.path) ++ _)
    _ = true ↔ _
  rw [List.any_append, List.any_append, Bool.or_eq_true, Bool.or_eq_true, hdelete, hdelete, WriteCall.files,
    List.mem_append]
  constructor
  · rintro ((⟨hk, hp⟩ | ⟨hk, hp⟩) | h)
    · exact ⟨hk, .inl hp⟩
    · exact ⟨hk, .inr hp⟩
    · exact ⟨(hupsert h).1, .inr (hupsert h).2⟩
  · rintro ⟨hk, hp | hp⟩
    · exact .inl (.inl ⟨hk, hp⟩)
    · exact .inl (.inr ⟨hk, hp⟩)

theorem sharesKey_iff {c d : WriteCall E} :
    SharesKey (c.body repo) (d.body repo) ↔ ∃ p ∈ c.files, p ∈ d.files := by
  constructor
  · rintro ⟨k, hc, hd⟩
    exact ⟨k.2.1, (touched_body.mp hc).2, (touched_body.mp hd).2⟩
  · rintro ⟨p, hc, hd⟩
    exact ⟨(repo, p, 0), touched_body.mpr ⟨rfl, hc⟩, touched_body.mpr ⟨rfl, hd⟩⟩

theorem keepApart_iff : KeepApart (calls.map (WriteCall.body repo)) s ↔ FilesApart repo calls s := by
  rw [KeepApart, List.zip_map_left, List.pairwise_map, FilesApart]
  refine iff_of_eq (congrArg (fun R => List.Pairwise R _) ?_)
  funext x y
  simp [sharesKey_iff]

/-- Whether a write goes through depends on its texts alone. -/
theorem write_isSome_iff {db₁ : IndexDb E} {c : WriteCall E} :
    (write db repo c.embedded c.stale c.commitSha).isSome ↔ (write db₁ repo c.embedded c.stale c.commitSha).isSome := by
  simp [write]

theorem writeAll_rows (hlegal : ∀ c ∈ calls, (write db repo c.embedded c.stale c.commitSha).isSome) :
    ∃ db', writeAll repo db calls = some db' ∧
      db'.chunks = (calls.flatMap fun c => (c.body repo).1).foldl Statement.run db.chunks := by
  induction calls generalizing db with
  | nil => exact ⟨db, rfl, rfl⟩
  | cons c calls ih =>
    obtain ⟨db₁, h₁⟩ := Option.isSome_iff_exists.mp (hlegal c List.mem_cons_self)
    have hrest : ∀ d ∈ calls, (write db₁ repo d.embedded d.stale d.commitSha).isSome := fun d hd =>
      write_isSome_iff.mp (hlegal d (List.mem_cons_of_mem c hd))
    obtain ⟨db', h', hrows⟩ := ih hrest
    refine ⟨db', ?_, ?_⟩
    · rw [writeAll, List.foldlM_cons, h₁]
      exact h'
    · rw [hrows, List.flatMap_cons, List.foldl_append, run_body]
      simp only [write, Option.ite_none_right_eq_some, Option.some.injEq] at h₁
      obtain ⟨_, rfl⟩ := h₁
      rfl

theorem flatMap_bodyAt (order : List Nat) : order.flatMap (bodyAt (calls.map (WriteCall.body repo))) =
    (order.filterMap fun i => calls[i]?).flatMap fun c => (c.body repo).1 := by
  induction order with
  | nil => rfl
  | cons i order ih =>
    rw [List.flatMap_cons, ih, bodyAt, List.getElem?_map, List.filterMap_cons]
    cases calls[i]? <;> rfl

theorem serial_rows (hlegal : ∀ c ∈ calls, (write db repo c.embedded c.stale c.commitSha).isSome)
    (hrun : WriteRun repo db calls order s) :
    ∃ db', writeAll repo db (order.filterMap fun i => calls[i]?) = some db' ∧
      (s.store.rows.map Prod.snd).Perm db'.chunks.rows := by
  have hmem : ∀ c ∈ order.filterMap fun i => calls[i]?, c ∈ calls := by
    intro c hc
    obtain ⟨i, _, hi⟩ := List.mem_filterMap.mp hc
    exact List.mem_of_getElem? hi
  obtain ⟨db', hdb', hchunks⟩ := writeAll_rows fun c hc => hlegal c (hmem c hc)
  refine ⟨db', hdb', ?_⟩
  rw [hchunks, ← flatMap_bodyAt]
  exact hrun.serial.rows

/-! Which chunks a file has in the end. -/

def lastOn (path : Text) (calls : List (WriteCall E)) : Option (WriteCall E) :=
  calls.reverse.find? fun c => decide (path ∈ c.files)

theorem mem_writeAll_iff {db' : IndexDb E}
    (hnodup : ∀ c ∈ calls, (c.embedded.map fun e => (e.1.path, e.1.chunkIndex)).Nodup)
    (h : writeAll repo db calls = some db') {r : CodeChunk E} (hr : r.repo = repo) :
    r ∈ db'.chunks.rows ↔ (lastOn r.path calls).elim (r ∈ db.chunks.rows)
      fun c => ∃ e ∈ c.embedded, CodeChunk.ofChunk repo e.1 e.2 = r := by
  induction calls generalizing db with
  | nil =>
    obtain rfl := Option.some.inj h
    rfl
  | cons c calls ih =>
    obtain ⟨db₁, h₁, hrest⟩ := Option.bind_eq_some_iff.mp h
    rw [ih (fun d hd => hnodup d (List.mem_cons_of_mem c hd)) hrest, lastOn, lastOn, List.reverse_cons,
      List.find?_append]
    cases calls.reverse.find? fun c => decide (r.path ∈ c.files) with
    | some d => rfl
    | none =>
      rw [Option.none_or, Option.elim_none, mem_write_iff h₁ (hnodup c List.mem_cons_self)]
      by_cases hp : r.path ∈ c.files
      · simp only [List.find?_cons, hp, decide_true, Option.elim_some]
        refine or_iff_left fun hold => ?_
        obtain ⟨hstale, hpath⟩ := hold.2 hr
        rcases List.mem_append.mp hp with hp | hp
        · exact hstale hp
        · obtain ⟨e, he, hep⟩ := List.mem_map.mp hp
          exact hpath e he hep
      · simp only [List.find?_cons, hp, decide_false, List.find?_nil, Option.elim_none]
        have hno := not_or.mp (fun hh => hp (List.mem_append.mpr hh))
        constructor
        · rintro (⟨e, he, rfl⟩ | hold)
          · exact absurd (List.mem_map_of_mem he) hno.2
          · exact hold.1
        · intro hold
          exact .inr ⟨hold, fun _ => ⟨hno.1, fun e he hep => hno.2 (hep ▸ List.mem_map_of_mem he)⟩⟩

/-- Then no file is a mix: its chunks are those of the last committed call on it. -/
theorem file_of_last_write (hlegal : ∀ c ∈ calls, (write db repo c.embedded c.stale c.commitSha).isSome)
    (hnodup : ∀ c ∈ calls, (c.embedded.map fun e => (e.1.path, e.1.chunkIndex)).Nodup)
    (hrun : WriteRun repo db calls order s) {r : CodeChunk E} (hr : r.repo = repo) :
    r ∈ s.store.rows.map Prod.snd ↔ (lastOn r.path (order.filterMap fun i => calls[i]?)).elim (r ∈ db.chunks.rows)
      fun c => ∃ e ∈ c.embedded, CodeChunk.ofChunk repo e.1 e.2 = r := by
  obtain ⟨db', hdb', hrows⟩ := serial_rows hlegal hrun
  rw [hrows.mem_iff]
  refine mem_writeAll_iff (fun c hc => hnodup c ?_) hdb' hr
  obtain ⟨i, _, hi⟩ := List.mem_filterMap.mp hc
  exact List.mem_of_getElem? hi

/-- In any run in which the transactions under way have no file in common, the
rows of `code_chunks` are at any time those of the committed calls, made one
after the other as they committed; the last of them is the one recorded. -/
theorem writes_serializable (hlegal : ∀ c ∈ calls, (write db repo c.embedded c.stale c.commitSha).isSome)
    (hrun : WriteRun repo db calls order s) :
    (∃ db', writeAll repo db (order.filterMap fun i => calls[i]?) = some db' ∧
      (s.store.rows.map Prod.snd).Perm db'.chunks.rows) ∧
    (∀ i ∈ order.getLast?, ∃ c, calls[i]? = some c ∧
      s.store.saved.bind RepoIndexState.lastIndexedCommit = some c.commitSha) ∧
    order.Nodup ∧ ∀ i w, s.writers[i]? = some w → (w.phase = .committed ↔ i ∈ order) := by
  refine ⟨serial_rows hlegal hrun, fun i hi => ?_, hrun.serial.nodup, hrun.serial.committed⟩
  obtain ⟨b, hb, total, hsaved⟩ := hrun.serial.saved i hi
  rw [List.getElem?_map] at hb
  obtain ⟨c, hc, rfl⟩ := Option.map_eq_some_iff.mp hb
  exact ⟨c, hc, by rw [hsaved]; rfl⟩

/-- Transactions on different files never have to wait for one another. -/
theorem orderedRun_of_apart (hapart : calls.Pairwise fun c d => ∀ p ∈ c.files, p ∉ d.files)
    (hrun : Relation.ReflTransGen (Step (ofRepo repo)) (writersOf db repo calls) s) :
    ∃ order, WriteRun repo db calls order s := by
  induction hrun with
  | refl => exact ⟨[], .refl⟩
  | tail _ hstep ih =>
    obtain ⟨order, ho⟩ := ih
    obtain ⟨i, hi⟩ := hstep
    refine ⟨_, ho.act hi (keepApart_iff.mpr ?_)⟩
    refine List.pairwise_iff_getElem.mpr fun j k hj hk hjk _ _ => ?_
    rw [List.getElem_zip, List.getElem_zip]
    exact List.pairwise_iff_getElem.mp hapart j k _ _ hjk

end

/-- The two writes of different files count and save in turn, each before the
other has ended. -/
theorem writes_serializable_interleaved : ∃ (order : List Nat) (s : WriteSystem Nat) (db' : IndexDb Nat),
    WriteRun "o/r".toList emptyDb twoWrites order s ∧ (∀ w ∈ s.writers, w.phase = .committed) ∧
      writeAll "o/r".toList emptyDb (order.filterMap fun i => twoWrites[i]?) = some db' ∧
      (s.store.rows.map Prod.snd).Perm db'.chunks.rows ∧ s.store.rows.length = 2 := by
  obtain ⟨s, hs, hdone, hlen⟩ : ∃ s ∈ schedule (writersOf emptyDb "o/r".toList twoWrites)
      [0, 0, 0, 1, 1, 1, 0, 1, 0, 0, 1, 1], s.writers.all isCommitted = true ∧ s.store.rows.length = 2 := by
    decide +kernel
  have hapart : twoWrites.Pairwise fun c d => ∀ p ∈ c.files, p ∉ d.files := by decide
  obtain ⟨order, hrun⟩ := orderedRun_of_apart hapart (run_of_schedule hs)
  have hlegal : ∀ c ∈ twoWrites, (write emptyDb "o/r".toList c.embedded c.stale c.commitSha).isSome := by
    decide +kernel
  obtain ⟨⟨db', hdb', hrows⟩, _⟩ := writes_serializable hlegal hrun
  exact ⟨order, s, db', hrun, committed_of_all hdone, hdb', hrows, hlen⟩

/-! Two transactions on one file. -/

/-- The file has two chunks at the first commit and one at the second. -/
def shrunkFile : List (WriteCall Nat) :=
  [⟨[(⟨"a.py".toList, none, 0, "x".toList⟩, 0), (⟨"a.py".toList, none, 1, "y".toList⟩, 0)], [], "b".toList⟩,
    ⟨[(⟨"a.py".toList, none, 0, "z".toList⟩, 0)], [], "c".toList⟩]

/-- The second deletes before the first commits, and so misses what it inserts:
the file is left with a chunk of each commit, and the second is recorded. -/
theorem overlapping_writes_mix : ∃ s,
    Relation.ReflTransGen (Step (ofRepo "o/r".toList)) (writersOf emptyDb "o/r".toList shrunkFile) s ∧
      (∀ w ∈ s.writers, w.phase = .committed) ∧
      s.store.saved.bind RepoIndexState.lastIndexedCommit = some "c".toList ∧
      (s.store.rows.map fun r => r.2.content) = ["z".toList, "y".toList] := by
  obtain ⟨s, hs, hdone, hsaved, hrows⟩ : ∃ s ∈ schedule (writersOf emptyDb "o/r".toList shrunkFile)
      [0, 0, 0, 0, 1, 1, 0, 0, 0, 1, 1, 1, 1], s.writers.all isCommitted = true ∧
        s.store.saved.bind RepoIndexState.lastIndexedCommit = some "c".toList ∧
        (s.store.rows.map fun r => r.2.content) = ["z".toList, "y".toList] := by
    decide +kernel
  exact ⟨s, run_of_schedule hs, committed_of_all hdone, hsaved, hrows⟩

end AiPrReview
