import AiPrReview.PyText
import AiPrReview.Redis

/-! The Redis checkpoint saver: its keys, what it stores under them, and its
methods as programs of Redis commands. `O` stands for the objects the
serializer takes and `B` for the bytes it makes of them. -/

namespace AiPrReview

open Redis (Command Dict Server)

def checkpointPrefix : Text := "orchestrator:checkpoint".toList

def fieldSep : Char := Char.ofNat 0x1f

def checkpointKey (threadId ns checkpointId : Text) : Text :=
  checkpointPrefix ++ ":cp:".toList ++ threadId ++ ':' :: ns ++ ':' :: checkpointId

def orderKey (threadId ns : Text) : Text :=
  checkpointPrefix ++ ":order:".toList ++ threadId ++ ':' :: ns

def writesKey (threadId ns checkpointId : Text) : Text :=
  checkpointPrefix ++ ":writes:".toList ++ threadId ++ ':' :: ns ++ ':' :: checkpointId

/-- What the saver reads of `config["configurable"]`. -/
structure Configurable : Type where
  threadId : Text
  checkpointNs : Option Text
  checkpointId : Option Text

/-- A config with the rest of it, which only `get_checkpoint_metadata` looks at. -/
structure RunnableConfig (O : Type) extends Configurable where
  other : O

/-- What the saver takes from `langgraph.checkpoint.base`. -/
structure CheckpointBase (O B : Type) : Type where
  dumpsTyped : O → B
  loadsTyped : B → Option O
  loads_dumps : ∀ o, loadsTyped (dumpsTyped o) = some o
  checkpointId : O → Text
  getCheckpointMetadata : RunnableConfig O → O → O
  writesIdxMap : Text → Option Int
  special_neg : ∀ channel i, writesIdxMap channel = some i → i < 0

/-- The pickled entry of a checkpoint. -/
structure Entry (B : Type) : Type where
  checkpoint : B
  metadata : B
  parentId : Option Text

/-- The pickled write of a task. -/
structure StoredWrite (B : Type) : Type where
  taskId : Text
  channel : Text
  value : B
  taskPath : Text

structure PendingWrite (O : Type) : Type where
  taskId : Text
  channel : Text
  value : O

structure CheckpointRef : Type where
  threadId : Text
  checkpointNs : Text
  checkpointId : Text

structure CheckpointTuple (O : Type) : Type where
  config : CheckpointRef
  checkpoint : O
  metadata : O
  pendingWrites : List (PendingWrite O)
  parentConfig : Option CheckpointRef

inductive SaverError : Type where
  | keyError (name : Text)
  | valueError
  | unreadable

abbrev SaverServer (B : Type) : Type := Server Text (Entry B) (StoredWrite B)

abbrev SaverProg (B α : Type) : Type :=
  Prog (Command.Reply (K := Text) (S := Entry B) (F := StoredWrite B)) α

variable {O B : Type}

def latestCheckpointId (threadId ns : Text) : SaverProg B (Option Text) :=
  .call (.lindexLast (orderKey threadId ns)) fun last => .ret (last.filter (· ≠ []))

/-- `field.rsplit(_FIELD_SEP, 1)`, if the separator is in it. -/
def rsplitSep (field : Text) : Option (Text × Text) :=
  match field.rdropWhile (· ≠ fieldSep) with
  | [] => none
  | c :: head => some ((c :: head).dropLast, field.rtakeWhile (· ≠ fieldSep))

def natOfText (t : Text) : Option Nat :=
  if t ≠ [] ∧ t.all Char.isDigit then some (Nat.ofDigitChars 10 t 0) else none

/-- `int(t)` of a text that `str` made of an integer. -/
def intOfText : Text → Option Int
  | '-' :: t => (natOfText t).map fun n => -n
  | t => (natOfText t).map fun n => n

def pendingEntry (base : CheckpointBase O B) (row : Text × StoredWrite B) :
    Except SaverError (Int × PendingWrite O) :=
  match (rsplitSep row.1).bind fun parts => intOfText parts.2, base.loadsTyped row.2.value with
  | none, _ => .error .valueError
  | some _, none => .error .unreadable
  | some idx, some value => .ok (idx, ⟨row.2.taskId, row.2.channel, value⟩)

def sortedWrites (entries : List (Int × PendingWrite O)) : List (PendingWrite O) :=
  (entries.mergeSort fun a b => a.1 ≤ b.1).map Prod.snd

def loadPendingWrites (base : CheckpointBase O B) (threadId ns checkpointId : Text) :
    SaverProg B (Except SaverError (List (PendingWrite O))) :=
  .call (.hgetall (writesKey threadId ns checkpointId)) fun rows =>
    .ret ((rows.mapM (pendingEntry base)).map sortedWrites)

def readTuple (base : CheckpointBase O B) (threadId ns checkpointId : Text) :
    SaverProg B (Except SaverError (Option (CheckpointTuple O))) :=
  .call (.get (checkpointKey threadId ns checkpointId)) fun
    | none => .ret (.ok none)
    | some entry =>
      match base.loadsTyped entry.checkpoint, base.loadsTyped entry.metadata with
      | some checkpoint, some metadata => do
        let pendingWrites ← loadPendingWrites base threadId ns checkpointId
        let parentConfig := (entry.parentId.filter (· ≠ [])).map fun parentId => ⟨threadId, ns, parentId⟩
        .ret (pendingWrites.map fun ws => some ⟨⟨threadId, ns, checkpointId⟩, checkpoint, metadata, ws, parentConfig⟩)
      | _, _ => .ret (.error .unreadable)

def agetTuple (base : CheckpointBase O B) (config : Configurable) :
    SaverProg B (Except SaverError (Option (CheckpointTuple O))) :=
  let ns := config.checkpointNs.getD []
  match config.checkpointId with
  | some checkpointId => readTuple base config.threadId ns checkpointId
  | none => do
    match ← latestCheckpointId config.threadId ns with
    | none => .ret (.ok none)
    | some checkpointId => readTuple base config.threadId ns checkpointId

/-- The loop of `alist`, after `count` tuples. `filter` is the test of the metadata. -/
def alistFrom (base : CheckpointBase O B) (threadId ns : Text) (filter : O → Bool)
    (beforeId : Option Text) (limit : Option Int) :
    List Text → Int → SaverProg B (Except SaverError (List (CheckpointTuple O)))
  | [], _ => .ret (.ok [])
  | checkpointId :: ids, count =>
    if beforeId.any fun b => b ≠ [] && b ≤ checkpointId then
      alistFrom base threadId ns filter beforeId limit ids count
    else do
      match ← agetTuple base ⟨threadId, some ns, some checkpointId⟩ with
      | .error e => .ret (.error e)
      | .ok none => alistFrom base threadId ns filter beforeId limit ids count
      | .ok (some tup) =>
        if filter tup.metadata then
          if limit.any (· ≤ count + 1) then .ret (.ok [tup])
          else do
            let rest ← alistFrom base threadId ns filter beforeId limit ids (count + 1)
            .ret (rest.map (tup :: ·))
        else alistFrom base threadId ns filter beforeId limit ids count

def alist (base : CheckpointBase O B) (config : Option Configurable) (filter : O → Bool)
    (before : Option Configurable) (limit : Option Int) :
    SaverProg B (Except SaverError (List (CheckpointTuple O))) :=
  match config with
  | none => .ret (.ok [])
  | some config =>
    let ns := config.checkpointNs.getD []
    .call (.lrange (orderKey config.threadId ns)) fun ids =>
      alistFrom base config.threadId ns filter (before.bind (·.checkpointId)) limit ids.reverse 0

structure PutCall (O : Type) : Type where
  config : RunnableConfig O
  checkpoint : O
  metadata : O

def aput (base : CheckpointBase O B) (c : PutCall O) : SaverProg B (Except SaverError CheckpointRef) :=
  let threadId := c.config.threadId
  match c.config.checkpointNs with
  | none => .ret (.error (.keyError "checkpoint_ns".toList))
  | some ns =>
    let checkpointId := base.checkpointId c.checkpoint
    let entry := ⟨base.dumpsTyped c.checkpoint, base.dumpsTyped (base.getCheckpointMetadata c.config c.metadata),
      c.config.checkpointId⟩
    .call (.set (checkpointKey threadId ns checkpointId) entry) fun _ =>
    .call (.rpush (orderKey threadId ns) checkpointId) fun _ =>
    .ret (.ok ⟨threadId, ns, checkpointId⟩)

structure WritesCall (O : Type) : Type where
  config : Configurable
  writes : List (Text × O)
  taskId : Text
  taskPath : Text

def writeField (taskId : Text) (writeIdx : Int) : Text := taskId ++ fieldSep :: intText writeIdx

/-- The writes of a call with their indices. -/
def indexed (base : CheckpointBase O B) (c : WritesCall O) : List (Int × Text × O) :=
  c.writes.zipIdx.map fun w => ((base.writesIdxMap w.1.1).getD w.2, w.1)

def toSet (base : CheckpointBase O B) (c : WritesCall O) (existing : List Text) : Dict Text (StoredWrite B) :=
  (indexed base c).foldl (fun d w =>
    if 0 ≤ w.1 ∧ writeField c.taskId w.1 ∈ existing then d
    else d.put (writeField c.taskId w.1) ⟨c.taskId, w.2.1, base.dumpsTyped w.2.2, c.taskPath⟩) .empty

def aputWrites (base : CheckpointBase O B) (c : WritesCall O) : SaverProg B (Except SaverError Unit) :=
  match c.config.checkpointId with
  | none => .ret (.error (.keyError "checkpoint_id".toList))
  | some checkpointId =>
    let key := writesKey c.config.threadId (c.config.checkpointNs.getD []) checkpointId
    .call (.hkeys key) fun existing =>
      if (toSet base c existing).rows = [] then .ret (.ok ())
      else .call (.hset key (toSet base c existing)) fun _ => .ret (.ok ())

def deletePattern (threadId : Text) : Text :=
  checkpointPrefix ++ ":*:".toList ++ threadId ++ ":*".toList

def deleteKeys (keys : List Text) (rest : SaverProg B Unit) : SaverProg B Unit :=
  if keys = [] then rest else .call (.del keys) fun _ => rest

/-- The loop of `adelete_thread`. -/
def sweep (pattern : Text) (cursor : Nat) : SaverProg B Unit :=
  .call (.scan cursor pattern) fun (⟨next, _⟩, keys) =>
    deleteKeys keys (if _ : next = 0 then .ret () else sweep pattern next)
termination_by (if cursor = 0 then 1 else 0, cursor)
decreasing_by
  next hnext h =>
    by_cases hc : cursor = 0
    · simp only [hc, h, if_true, if_false]
      exact Prod.Lex.left _ _ Nat.zero_lt_one
    · simp only [hc, h, if_false]
      exact Prod.Lex.right _ (hnext.resolve_left hc)

def adeleteThread (threadId : Text) : SaverProg B Unit := sweep (deletePattern threadId) 0

/-! The keys of one namespace of one thread do not meet. -/

section

variable {threadId ns checkpointId checkpointId' : Text}

@[simp] theorem checkpointKey_inj :
    checkpointKey threadId ns checkpointId = checkpointKey threadId ns checkpointId' ↔
      checkpointId = checkpointId' := by
  simp [checkpointKey]

@[simp] theorem writesKey_inj :
    writesKey threadId ns checkpointId = writesKey threadId ns checkpointId' ↔ checkpointId = checkpointId' := by
  simp [writesKey]

variable {threadId' ns' : Text}

@[simp] theorem checkpointKey_ne_orderKey : checkpointKey threadId ns checkpointId ≠ orderKey threadId' ns' := by
  simp [checkpointKey, orderKey]

@[simp] theorem checkpointKey_ne_writesKey :
    checkpointKey threadId ns checkpointId ≠ writesKey threadId' ns' checkpointId' := by
  simp [checkpointKey, writesKey]

theorem writesKey_eq_iff : writesKey threadId ns checkpointId = writesKey threadId' ns' checkpointId' ↔
    checkpointKey threadId ns checkpointId = checkpointKey threadId' ns' checkpointId' := by
  simp [writesKey, checkpointKey]

@[simp] theorem orderKey_ne_writesKey : orderKey threadId ns ≠ writesKey threadId' ns' checkpointId' := by
  simp [orderKey, writesKey]

end

/-! A field of the writes hash tells its task and its index. -/

theorem natOfText_toDigits (n : Nat) : natOfText (Nat.toDigits 10 n) = some n := by
  have hall : (Nat.toDigits 10 n).all Char.isDigit = true :=
    List.all_eq_true.mpr fun c hc => isDigit_of_mem_toDigits hc
  unfold natOfText
  rw [if_pos ⟨Nat.toDigits_ne_nil, hall⟩, Nat.ofDigitChars_ten_toDigits]

theorem intOfText_intText (i : Int) : intOfText (intText i) = some i := by
  cases i with
  | ofNat n =>
    have hhead : ∀ t, Nat.toDigits 10 n ≠ '-' :: t := by
      intro t ht
      have hd : ('-' : Char).isDigit = true := isDigit_of_mem_toDigits (n := n) (by rw [ht]; simp)
      cases hd
    show intOfText (intText n) = _
    rw [intText_natCast, intOfText, natOfText_toDigits]
    · rfl
    · exact hhead
  | negSucc n =>
    rw [intText_negSucc, intOfText, natOfText_toDigits]
    rfl

theorem fieldSep_notMem_intText (i : Int) : fieldSep ∉ intText i := by
  intro hm
  rcases mem_intText hm with h | h
  · revert h
    decide
  · revert h
    decide

theorem rsplitSep_writeField (taskId : Text) (i : Int) :
    rsplitSep (writeField taskId i) = some (taskId, intText i) := by
  have hrev : (writeField taskId i).reverse = (intText i).reverse ++ fieldSep :: taskId.reverse := by
    simp [writeField]
  have hall : ∀ c ∈ (intText i).reverse, decide (c ≠ fieldSep) = true := by
    intro c hc
    have hne : c ≠ fieldSep := by
      intro he
      exact fieldSep_notMem_intText i (he ▸ List.mem_reverse.mp hc)
    exact decide_eq_true hne
  have htail : (writeField taskId i).rtakeWhile (· ≠ fieldSep) = intText i := by
    rw [List.rtakeWhile, hrev, List.takeWhile_append_of_pos hall]
    simp
  have hhead : (writeField taskId i).rdropWhile (· ≠ fieldSep) = taskId ++ [fieldSep] := by
    rw [List.rdropWhile, hrev, List.dropWhile_append_of_pos hall]
    simp
  unfold rsplitSep
  rw [hhead, htail]
  cases taskId with
  | nil => rfl
  | cons c t =>
    show some (((c :: t) ++ [fieldSep]).dropLast, intText i) = _
    rw [List.dropLast_concat]

@[simp] theorem writeField_inj {taskId taskId' : Text} {i i' : Int} :
    writeField taskId i = writeField taskId' i' ↔ taskId = taskId' ∧ i = i' := by
  constructor
  · intro h
    have hh := congrArg rsplitSep h
    rw [rsplitSep_writeField, rsplitSep_writeField] at hh
    obtain ⟨ht, hi⟩ := Prod.mk.injEq .. ▸ Option.some.inj hh
    have hint := congrArg intOfText hi
    rw [intOfText_intText, intOfText_intText] at hint
    exact ⟨ht, Option.some.inj hint⟩
  · intro h
    obtain ⟨rfl, rfl⟩ := h
    rfl

theorem pendingEntry_writeField (base : CheckpointBase O B) (taskId : Text) (i : Int) (w : StoredWrite B)
    {value : O} (hv : base.loadsTyped w.value = some value) :
    pendingEntry base (writeField taskId i, w) = .ok (i, ⟨w.taskId, w.channel, value⟩) := by
  simp only [pendingEntry, rsplitSep_writeField, Option.bind_some, intOfText_intText, hv]

theorem latestCheckpointId_meets {fits : Text → Text → Bool} {threadId ns : Text} {w : SaverServer B}
    {items : List Text} (hk : w.itemsAt (orderKey threadId ns) = some items) :
    (latestCheckpointId threadId ns).Meets (Command.exec fits)
      (fun r w' => r = items.getLast?.filter (· ≠ []) ∧ w' = w) w :=
  Redis.meets_lindexLast hk ⟨rfl, rfl⟩

end AiPrReview
