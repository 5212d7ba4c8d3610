import AiPrReview.Checkpointer

/-! What the `aput_writes` calls of the tasks amount to at one checkpoint, and
that this is what is read back. -/

namespace AiPrReview

open Redis (Command Dict Server Value)

variable {O B : Type}

def entryOf (base : CheckpointBase O B) (c : PutCall O) : Entry B :=
  ⟨base.dumpsTyped c.checkpoint, base.dumpsTyped (base.getCheckpointMetadata c.config c.metadata),
    c.config.checkpointId⟩

/-- What a checkpoint is read back as. -/
def savedTuple (base : CheckpointBase O B) (threadId ns : Text) (c : PutCall O) (ws : List (PendingWrite O)) :
    CheckpointTuple O where
  config := ⟨threadId, ns, base.checkpointId c.checkpoint⟩
  checkpoint := c.checkpoint
  metadata := base.getCheckpointMetadata c.config c.metadata
  pendingWrites := ws
  parentConfig := (c.config.checkpointId.filter (· ≠ [])).map fun parentId => ⟨threadId, ns, parentId⟩

/-- The write of a call at an index, the last one if there are several, with its path. -/
def WritesCall.at (base : CheckpointBase O B) (c : WritesCall O) (i : Int) : Option ((Text × O) × Text) :=
  ((indexed base c).reverse.find? fun w => w.1 == i).map fun w => (w.2, c.taskPath)

/-- The first call with a write at the index has its say, the last one if the index is special. -/
def pendingAt (base : CheckpointBase O B) (calls : List (WritesCall O)) (i : Int) : Option ((Text × O) × Text) :=
  if 0 ≤ i then calls.findSome? (·.at base i) else calls.reverse.findSome? (·.at base i)

def storedWrite (base : CheckpointBase O B) (taskId : Text) (w : (Text × O) × Text) : StoredWrite B :=
  ⟨taskId, w.1.1, base.dumpsTyped w.1.2, w.2⟩

theorem pendingAt_concat (base : CheckpointBase O B) (calls : List (WritesCall O)) (c : WritesCall O) (i : Int) :
    pendingAt base (calls ++ [c]) i =
      if 0 ≤ i then (pendingAt base calls i).or (c.at base i) else (c.at base i).or (pendingAt base calls i) := by
  by_cases hi : 0 ≤ i
  · simp only [pendingAt, if_pos hi, List.findSome?_append, List.findSome?_singleton]
  · simp only [pendingAt, if_neg hi, List.reverse_append, List.reverse_singleton, List.singleton_append,
      List.findSome?_cons]
    cases c.at base i <;> rfl

theorem find_toSet (base : CheckpointBase O B) (c : WritesCall O) (existing : List Text) (i : Int) :
    (toSet base c existing).find (writeField c.taskId i) =
      if 0 ≤ i ∧ writeField c.taskId i ∈ existing then none
      else (c.at base i).map (storedWrite base c.taskId) := by
  unfold toSet WritesCall.at
  generalize indexed base c = l
  induction l using List.reverseRecOn with
  | nil => simp
  | append_singleton l w ih =>
    rw [List.foldl_concat, List.reverse_append, List.reverse_singleton, List.singleton_append]
    by_cases hw : w.1 = i
    · rw [List.find?_cons_of_pos (by simp [hw]), hw]
      by_cases hb : 0 ≤ i ∧ writeField c.taskId i ∈ existing
      · rw [if_pos hb, ih, if_pos hb, if_pos hb]
      · rw [if_neg hb, Dict.find_put, if_pos rfl, if_neg hb]
        rfl
    · rw [List.find?_cons_of_neg (by simp [hw]), ← ih]
      split_ifs with hb
      · rfl
      · rw [Dict.find_put, if_neg (by simp [hw])]

theorem find_toSet_other (base : CheckpointBase O B) (c : WritesCall O) (existing : List Text) {field : Text}
    (h : ∀ i, field ≠ writeField c.taskId i) : (toSet base c existing).find field = none := by
  unfold toSet
  generalize indexed base c = l
  induction l using List.reverseRecOn with
  | nil => rfl
  | append_singleton l w ih =>
    rw [List.foldl_concat]
    split_ifs
    · exact ih
    · rw [Dict.find_put, if_neg (h _).symm, ih]

/-- A call that knows which of its task's fields exist adds its writes to those before it. -/
theorem find_toSet_or {base : CheckpointBase O B} {c : WritesCall O} {existing : List Text}
    {calls : List (WritesCall O)}
    (h : ∀ i, writeField c.taskId i ∈ existing ↔ (pendingAt base calls i).isSome) (i : Int) :
    ((toSet base c existing).find (writeField c.taskId i)).or
        ((pendingAt base calls i).map (storedWrite base c.taskId)) =
      (pendingAt base (calls ++ [c]) i).map (storedWrite base c.taskId) := by
  rw [find_toSet, pendingAt_concat]
  by_cases hi : 0 ≤ i
  · rw [if_pos hi]
    cases hp : pendingAt base calls i with
    | none =>
      have hn : writeField c.taskId i ∉ existing := by
        rw [h i, hp]
        exact Bool.false_ne_true
      simp [hn]
    | some w =>
      have hm : writeField c.taskId i ∈ existing := by
        rw [h i, hp]
        rfl
      simp [hi, hm]
  · rw [if_neg hi, if_neg fun hh => hi hh.1]
    cases c.at base i with
    | none => rfl
    | some w => rfl

/-- The hash of a checkpoint holds the completed writes of every task and nothing else. -/
structure HoldsWrites (base : CheckpointBase O B) (calls : Text → List (WritesCall O))
    (d : Dict Text (StoredWrite B)) : Prop where
  find : ∀ taskId i,
    d.find (writeField taskId i) = (pendingAt base (calls taskId) i).map (storedWrite base taskId)
  names : ∀ field ∈ d.names, ∃ taskId i, field = writeField taskId i

/-! What is read back. -/

/-- The writes of a task in a list of pending writes are those its calls amount
to, in ascending order of the index. -/
def Pending (base : CheckpointBase O B) (calls : List (WritesCall O)) (taskId : Text)
    (ws : List (PendingWrite O)) : Prop :=
  ∃ entries : List (Int × Text × O), entries.Pairwise (fun a b => a.1 < b.1) ∧
    (∀ i x, (i, x) ∈ entries ↔ (pendingAt base calls i).map Prod.fst = some x) ∧
    ws.filter (·.taskId = taskId) = entries.map fun e => ⟨taskId, e.2.1, e.2.2⟩

/-- The calls of every task, after one more. -/
def addCall (calls : Text → List (WritesCall O)) (c : WritesCall O) (taskId : Text) : List (WritesCall O) :=
  if taskId = c.taskId then calls taskId ++ [c] else calls taskId

theorem HoldsWrites.mem_names {base : CheckpointBase O B} {calls : Text → List (WritesCall O)}
    {d : Dict Text (StoredWrite B)} (hd : HoldsWrites base calls d) {existing : List Text}
    (hex : existing.Perm d.names) (taskId : Text) (i : Int) :
    writeField taskId i ∈ existing ↔ (pendingAt base (calls taskId) i).isSome := by
  rw [hex.mem_iff, Dict.mem_names_iff, hd.find, Option.isSome_map]

/-- A call that knows which of its task's fields exist adds its writes to a hash. -/
theorem HoldsWrites.add {base : CheckpointBase O B} {calls : Text → List (WritesCall O)}
    {d : Dict Text (StoredWrite B)} (hd : HoldsWrites base calls d) {c : WritesCall O} {existing : List Text}
    (hknows : ∀ i, writeField c.taskId i ∈ existing ↔ (pendingAt base (calls c.taskId) i).isSome) :
    HoldsWrites base (addCall calls c) (d.merge (toSet base c existing)) where
  find taskId i := by
    rw [Dict.find_merge, addCall]
    by_cases ht : taskId = c.taskId
    · rw [if_pos ht, ht, hd.find, find_toSet_or hknows]
    · have hother : ∀ j, writeField taskId i ≠ writeField c.taskId j := fun j hj => ht (writeField_inj.mp hj).1
      rw [if_neg ht, find_toSet_other base c existing hother, Option.none_or, hd.find]
  names field hfield := by
    by_cases hf : ∃ i, field = writeField c.taskId i
    · obtain ⟨i, hf⟩ := hf
      exact ⟨_, i, hf⟩
    · rw [Dict.mem_names_iff, Dict.find_merge, find_toSet_other base c existing (not_exists.mp hf),
        Option.none_or, ← Dict.mem_names_iff] at hfield
      exact hd.names field hfield

theorem HoldsWrites.congr {base : CheckpointBase O B} {calls calls' : Text → List (WritesCall O)}
    {d : Dict Text (StoredWrite B)} (hd : HoldsWrites base calls d)
    (h : ∀ taskId i, pendingAt base (calls' taskId) i = pendingAt base (calls taskId) i) :
    HoldsWrites base calls' d where
  find taskId i := by rw [hd.find, h]
  names := hd.names

theorem pendingAt_concat_nil {base : CheckpointBase O B} (calls : List (WritesCall O)) {c : WritesCall O}
    (hc : c.writes = []) (i : Int) : pendingAt base (calls ++ [c]) i = pendingAt base calls i := by
  have hat : c.at base i = none := by simp [WritesCall.at, indexed, hc]
  rw [pendingAt_concat, hat, Option.or_none, Option.none_or, ite_self]

theorem pendingAt_concat_isSome {base : CheckpointBase O B} {calls : List (WritesCall O)} {i : Int}
    (h : (pendingAt base calls i).isSome) (c : WritesCall O) : (pendingAt base (calls ++ [c]) i).isSome := by
  rw [pendingAt_concat]
  split_ifs <;> simp [h]

theorem HoldsWrites.names_ne_nil_iff {base : CheckpointBase O B} {calls : Text → List (WritesCall O)}
    {d : Dict Text (StoredWrite B)} (hd : HoldsWrites base calls d) :
    d.names ≠ [] ↔ ∃ taskId i, (pendingAt base (calls taskId) i).isSome := by
  constructor
  · intro h
    obtain ⟨field, hf⟩ := List.exists_mem_of_ne_nil _ h
    obtain ⟨taskId, i, rfl⟩ := hd.names field hf
    rw [Dict.mem_names_iff, hd.find, Option.isSome_map] at hf
    exact ⟨taskId, i, hf⟩
  · intro h
    obtain ⟨taskId, i, hi⟩ := h
    refine List.ne_nil_of_mem (a := writeField taskId i) ?_
    rw [Dict.mem_names_iff, hd.find, Option.isSome_map]
    exact hi

theorem holdsWrites_empty {base : CheckpointBase O B} {calls : Text → List (WritesCall O)}
    (h : ∀ taskId i, pendingAt base (calls taskId) i = none) : HoldsWrites base calls .empty where
  find taskId i := by
    rw [h]
    rfl
  names field hf := by cases hf

theorem mapM_ok {A A' ε : Type} {f : A → Except ε A'} {l : List A} (h : ∀ a ∈ l, ∃ b, f a = .ok b) :
    ∃ bs, l.mapM f = .ok bs ∧ l.map f = bs.map .ok := by
  induction l with
  | nil => exact ⟨[], rfl, rfl⟩
  | cons a l ih =>
    obtain ⟨b, hb⟩ := h a (by simp)
    obtain ⟨bs, hbs, hmap⟩ := ih fun a' ha' => h a' (by simp [ha'])
    refine ⟨b :: bs, ?_, ?_⟩
    · rw [List.mapM_cons, hb, hbs]
      rfl
    · rw [List.map_cons, List.map_cons, hb, hmap]

section

variable {base : CheckpointBase O B} {calls : Text → List (WritesCall O)} {d : Dict Text (StoredWrite B)}

theorem HoldsWrites.entry (hd : HoldsWrites base calls d) {row : Text × StoredWrite B} (hrow : row ∈ d.rows) :
    ∃ taskId i x, pendingAt base (calls taskId) i = some x ∧
      row = (writeField taskId i, storedWrite base taskId x) ∧
      pendingEntry base row = .ok (i, ⟨taskId, x.1.1, x.1.2⟩) := by
  obtain ⟨taskId, i, hk⟩ := hd.names row.1 (List.mem_map_of_mem hrow)
  obtain ⟨field, w⟩ := row
  obtain rfl : field = writeField taskId i := hk
  have hfind := Dict.mem_rows_iff.mp hrow
  rw [hd.find] at hfind
  obtain ⟨x, hx, rfl⟩ := Option.map_eq_some_iff.mp hfind
  exact ⟨taskId, i, x, hx, rfl, pendingEntry_writeField base taskId i _ (base.loads_dumps x.1.2)⟩

theorem HoldsWrites.decode (hd : HoldsWrites base calls d) {rows : List (Text × StoredWrite B)}
    (hrows : rows.Perm d.rows) :
    ∃ es, rows.mapM (pendingEntry base) = .ok es ∧ (es.map fun e => (e.2.taskId, e.1)).Nodup ∧
      ∀ e, e ∈ es ↔ (pendingAt base (calls e.2.taskId) e.1).map Prod.fst = some (e.2.channel, e.2.value) := by
  have hentry : ∀ row ∈ rows, ∃ taskId i x, pendingAt base (calls taskId) i = some x ∧
      row = (writeField taskId i, storedWrite base taskId x) ∧
      pendingEntry base row = .ok (i, ⟨taskId, x.1.1, x.1.2⟩) :=
    fun row hrow => hd.entry (hrows.mem_iff.mp hrow)
  obtain ⟨es, hes, hmap⟩ : ∃ es, rows.mapM (pendingEntry base) = .ok es ∧
      rows.map (pendingEntry base) = es.map .ok := by
    refine mapM_ok ?_
    intro row hrow
    obtain ⟨_, _, _, _, _, hok⟩ := hentry row hrow
    exact ⟨_, hok⟩
  refine ⟨es, hes, ?_, ?_⟩
  · have hkeys : (es.map fun e => writeField e.2.taskId e.1) = rows.map Prod.fst := by
      refine List.map_injective_iff.mpr (fun _ _ h => Except.ok.inj h : Function.Injective
        (Except.ok : Text → Except SaverError Text)) ?_
      have hh := congrArg (List.map (Except.map fun e : Int × PendingWrite O => writeField e.2.taskId e.1)) hmap
      rw [List.map_map, List.map_map] at hh
      rw [List.map_map, List.map_map]
      refine hh.symm.trans (List.map_congr_left ?_)
      intro row hrow
      obtain ⟨_, _, _, _, rfl, hok⟩ := hentry row hrow
      simp only [Function.comp_apply, hok, Except.map]
    refine List.Nodup.of_map (fun x : Text × Int => writeField x.1 x.2) ?_
    rw [List.map_map]
    exact hkeys ▸ (hrows.map Prod.fst).nodup_iff.mpr d.keys_nodup
  · intro e
    have hmem : e ∈ es ↔ ∃ row ∈ rows, pendingEntry base row = .ok e := by
      rw [← List.mem_map, hmap, List.mem_map]
      constructor
      · intro he
        exact ⟨e, he, rfl⟩
      · intro h
        obtain ⟨e', he', h⟩ := h
        exact Except.ok.inj h ▸ he'
    rw [hmem]
    constructor
    · intro h
      obtain ⟨row, hrow, hre⟩ := h
      obtain ⟨taskId, i, x, hx, _, hok⟩ := hentry row hrow
      obtain rfl := Except.ok.inj (hok.symm.trans hre)
      simp only [hx, Option.map_some]
    · intro h
      obtain ⟨⟨cv, path⟩, hx, rfl⟩ := Option.map_eq_some_iff.mp h
      have hfind : d.find (writeField e.2.taskId e.1) =
          some ⟨e.2.taskId, e.2.channel, base.dumpsTyped e.2.value, path⟩ := by
        rw [hd.find, hx]
        rfl
      refine ⟨_, hrows.mem_iff.mpr (Dict.mem_rows_iff.mpr hfind), ?_⟩
      exact pendingEntry_writeField base _ _ _ (base.loads_dumps _)

theorem HoldsWrites.pending (hd : HoldsWrites base calls d) {rows : List (Text × StoredWrite B)}
    (hrows : rows.Perm d.rows) :
    ∃ ws, (rows.mapM (pendingEntry base)).map sortedWrites = .ok ws ∧
      ∀ taskId, Pending base (calls taskId) taskId ws := by
  obtain ⟨es, hes, hnodup, hmem⟩ := hd.decode hrows
  refine ⟨sortedWrites es, by rw [hes]; rfl, ?_⟩
  intro taskId
  have hperm := List.mergeSort_perm es fun a b => decide (a.1 ≤ b.1)
  generalize hsorted : es.mergeSort (fun a b => decide (a.1 ≤ b.1)) = sorted at hperm
  have hle : sorted.Pairwise fun a b => a.1 ≤ b.1 := by
    rw [← hsorted]
    refine (List.pairwise_mergeSort ?_ ?_ es).imp fun h => of_decide_eq_true h
    · intro a b c hab hbc
      exact decide_eq_true ((of_decide_eq_true hab).trans (of_decide_eq_true hbc))
    · intro a b
      simpa using Int.le_total a.1 b.1
  have hkeys : (sorted.map fun e => (e.2.taskId, e.1)).Nodup := (hperm.map _).nodup_iff.mpr hnodup
  have hne : sorted.Pairwise fun a b => (a.2.taskId, a.1) ≠ (b.2.taskId, b.1) := List.pairwise_map.mp hkeys
  refine ⟨(sorted.filter fun e => e.2.taskId = taskId).map fun e => (e.1, e.2.channel, e.2.value), ?_, ?_, ?_⟩
  · rw [List.pairwise_map]
    refine ((hle.and hne).filter _).imp_of_mem ?_
    intro a b ha hb hab
    have hta : a.2.taskId = taskId := by simpa using (List.mem_filter.mp ha).2
    have htb : b.2.taskId = taskId := by simpa using (List.mem_filter.mp hb).2
    have hi : a.1 ≠ b.1 := by
      intro he
      exact hab.2 (by rw [hta, htb, he])
    exact lt_of_le_of_ne hab.1 hi
  · intro i x
    simp only [List.mem_map, List.mem_filter, decide_eq_true_eq, hperm.mem_iff, hmem]
    constructor
    · intro h
      obtain ⟨e, ⟨he, rfl⟩, hx⟩ := h
      obtain ⟨rfl, rfl⟩ := Prod.mk.injEq .. ▸ hx
      exact he
    · intro h
      exact ⟨(i, ⟨taskId, x.1, x.2⟩), ⟨h, rfl⟩, rfl⟩
  · rw [sortedWrites, hsorted, List.filter_map, List.map_map]
    refine List.map_congr_left ?_
    intro e he
    have hte : e.2.taskId = taskId := by simpa using (List.mem_filter.mp he).2
    simp only [Function.comp_apply, ← hte]

theorem loadPendingWrites_meets {fits : Text → Text → Bool} {threadId ns checkpointId : Text} {w : SaverServer B}
    (hk : w.fieldsAt (writesKey threadId ns checkpointId) = some d) (hd : HoldsWrites base calls d) :
    (loadPendingWrites base threadId ns checkpointId).Meets (Command.exec fits)
      (fun r w' => w' = w ∧ ∃ ws, r = .ok ws ∧ ∀ taskId, Pending base (calls taskId) taskId ws) w := by
  refine Redis.meets_hgetall hk ?_
  intro rows hrows
  obtain ⟨ws, hws, hpending⟩ := hd.pending hrows
  exact ⟨rfl, ws, hws, hpending⟩

theorem readTuple_none {fits : Text → Text → Bool} {threadId ns checkpointId : Text} {w : SaverServer B}
    (hk : w.lookup (checkpointKey threadId ns checkpointId) = none) :
    (readTuple base threadId ns checkpointId).Meets (Command.exec fits) (fun r w' => w' = w ∧ r = .ok none) w :=
  Redis.meets_get_none hk ⟨rfl, rfl⟩

theorem readTuple_meets {fits : Text → Text → Bool} {threadId ns checkpointId : Text} {w : SaverServer B}
    {c : PutCall O} (hid : base.checkpointId c.checkpoint = checkpointId)
    (hk : w.lookup (checkpointKey threadId ns checkpointId) = some (.string (entryOf base c)))
    (hd : w.fieldsAt (writesKey threadId ns checkpointId) = some d) (hh : HoldsWrites base calls d) :
    (readTuple base threadId ns checkpointId).Meets (Command.exec fits)
      (fun r w' => w' = w ∧ ∃ ws, r = .ok (some (savedTuple base threadId ns c ws)) ∧
        ∀ taskId, Pending base (calls taskId) taskId ws) w := by
  refine Redis.meets_get_string hk ?_
  simp only [entryOf, base.loads_dumps, Prog.meets_bind_iff]
  refine (loadPendingWrites_meets hd hh).mono ?_
  intro r w' hr
  obtain ⟨rfl, ws, rfl, hws⟩ := hr
  obtain rfl := hid
  exact ⟨rfl, ws, rfl, hws⟩

end

theorem pending_nil {base : CheckpointBase O B} {taskId : Text} {ws : List (PendingWrite O)}
    (h : Pending base [] taskId ws) : ws.filter (·.taskId = taskId) = [] := by
  obtain ⟨entries, _, hmem, hws⟩ := h
  cases entries with
  | nil => exact hws
  | cons e entries =>
    have hh := (hmem e.1 e.2).mp (by simp)
    simp [pendingAt] at hh

/-! A base whose objects are an id and a number. -/

def specialIdx (channel : Text) : Option Int :=
  if channel = "__error__".toList then some (-1)
  else if channel = "__scheduled__".toList then some (-2)
  else if channel = "__interrupt__".toList then some (-3)
  else if channel = "__resume__".toList then some (-4)
  else none

theorem specialIdx_neg (channel : Text) (i : Int) (h : specialIdx channel = some i) : i < 0 := by
  unfold specialIdx at h
  split_ifs at h
  all_goals
    obtain rfl := Option.some.inj h
    decide

def plainBase : CheckpointBase (Text × Nat) (Text × Nat) where
  dumpsTyped o := o
  loadsTyped := some
  loads_dumps _ := rfl
  checkpointId o := o.1
  getCheckpointMetadata _ metadata := metadata
  writesIdxMap := specialIdx
  special_neg := specialIdx_neg

def putOf (threadId ns checkpointId : Text) (n : Nat) : PutCall (Text × Nat) :=
  ⟨⟨⟨threadId, some ns, none⟩, ([], 0)⟩, (checkpointId, n), ([], n)⟩

def latestOf : Except SaverError (Option (CheckpointTuple (Text × Nat))) → Option (Text × Nat)
  | .ok tup => tup.map CheckpointTuple.checkpoint
  | .error _ => none

end AiPrReview
