import AiPrReview.PendingWrites
import Mathlib.Logic.Relation

/-! One thread of the checkpoint saver, cut between any two Redis commands: what
is read back afterwards. -/

namespace AiPrReview

open Redis (Command Dict Server Value)

/-- A caller that makes its calls one after another. `tried` are the calls it
began after the last one that completed; a crash forgets the one in flight. -/
structure Session (Call P : Type) : Type where
  completed : List Call
  tried : List Call
  inFlight : Option (Call × P)

namespace Session

variable {Call C α : Type} {R : C → Type}

def idle {P : Type} : Session Call P := ⟨[], [], none⟩

def begin {P : Type} (s : Session Call P) (c : Call) (p : P) : Session Call P :=
  ⟨s.completed, s.tried ++ [c], some (c, p)⟩

/-- A call completes with the reply to its last command. -/
def answered (s : Session Call (Prog R α)) (c : Call) : Prog R α → Session Call (Prog R α)
  | .ret _ => ⟨s.completed ++ [c], [], none⟩
  | .call cmd k => { s with inFlight := some (c, .call cmd k) }

def crashed {P : Type} (s : Session Call P) : Session Call P := { s with inFlight := none }

end Session

variable {O B : Type}

structure SaverState (O B : Type) : Type where
  redis : SaverServer B
  puts : Session (PutCall O) (SaverProg B (Except SaverError CheckpointRef))
  tasks : Text → Session (WritesCall O) (SaverProg B (Except SaverError Unit))

inductive SaverMove (O : Type) : Type where
  | beginPut (c : PutCall O)
  | beginWrites (c : WritesCall O)
  | putCommand (e : Redis.Choice Text)
  | writesCommand (taskId : Text) (e : Redis.Choice Text)
  | crash

/-- The call is one on this thread in namespace `""`. -/
def Configurable.inThread (threadId : Text) (config : Configurable) : Bool :=
  config.threadId == threadId && config.checkpointNs.getD [] == []

namespace SaverState

def begin (w : SaverServer B) : SaverState O B := ⟨w, .idle, fun _ => .idle⟩

def setTask (s : SaverState O B) (taskId : Text)
    (session : Session (WritesCall O) (SaverProg B (Except SaverError Unit))) : SaverState O B :=
  { s with tasks := fun t => if t = taskId then session else s.tasks t }

@[simp] theorem tasks_setTask (s : SaverState O B) (taskId t : Text)
    (session : Session (WritesCall O) (SaverProg B (Except SaverError Unit))) :
    (s.setTask taskId session).tasks t = if t = taskId then session else s.tasks t := rfl

/-- The next command of a program, if there is one, is answered. -/
def command {α : Type} (fits : Text → Text → Bool) (e : Redis.Choice Text) (w : SaverServer B) :
    SaverProg B α → Option (SaverProg B α × SaverServer B)
  | .ret _ => none
  | .call cmd k => (cmd.exec fits e w).map fun x => (k x.1, x.2)

def move (base : CheckpointBase O B) (fits : Text → Text → Bool) (threadId : Text) (s : SaverState O B) :
    SaverMove O → Option (SaverState O B)
  | .beginPut c =>
    if s.puts.inFlight.isNone && c.config.inThread threadId && c.config.checkpointNs.isSome then
      some { s with puts := s.puts.begin c (aput base c) }
    else none
  | .beginWrites c =>
    if (s.tasks c.taskId).inFlight.isNone && c.config.inThread threadId && c.config.checkpointId.isSome then
      some (s.setTask c.taskId ((s.tasks c.taskId).begin c (aputWrites base c)))
    else none
  | .putCommand e => s.puts.inFlight.bind fun call =>
    (command fits e s.redis call.2).map fun x => { s with redis := x.2, puts := s.puts.answered call.1 x.1 }
  | .writesCommand taskId e => (s.tasks taskId).inFlight.bind fun call =>
    (command fits e s.redis call.2).map fun x =>
      { s with redis := x.2 }.setTask taskId ((s.tasks taskId).answered call.1 x.1)
  | .crash => some ⟨s.redis, s.puts.crashed, fun taskId => (s.tasks taskId).crashed⟩

def Step (base : CheckpointBase O B) (fits : Text → Text → Bool) (threadId : Text) (s s' : SaverState O B) : Prop :=
  ∃ m, s.move base fits threadId m = some s'

/-- The states at which a run of the thread may be cut. -/
abbrev Reachable (base : CheckpointBase O B) (fits : Text → Text → Bool) (threadId : Text) :
    SaverState O B → SaverState O B → Prop :=
  Relation.ReflTransGen (Step base fits threadId)

end SaverState

/-- Nothing is stored yet under the keys of the thread. -/
def Fresh (threadId : Text) (w : SaverServer B) : Prop :=
  w.lookup (orderKey threadId []) = none ∧
    ∀ checkpointId, w.lookup (checkpointKey threadId [] checkpointId) = none ∧
      w.lookup (writesKey threadId [] checkpointId) = none

/-! The invariant of a run. -/

namespace SaverState

/-- The completed calls of a task at a checkpoint. -/
def callsAt (s : SaverState O B) (taskId checkpointId : Text) : List (WritesCall O) :=
  (s.tasks taskId).completed.filter fun c => c.config.checkpointId = some checkpointId

theorem callsAt_setTask_of_completed {s : SaverState O B} {taskId : Text}
    {session : Session (WritesCall O) (SaverProg B (Except SaverError Unit))}
    (h : session.completed = (s.tasks taskId).completed) (t checkpointId : Text) :
    (s.setTask taskId session).callsAt t checkpointId = s.callsAt t checkpointId := by
  simp only [callsAt, tasks_setTask]
  split_ifs with ht
  · rw [h, ht]
  · rfl

theorem callsAt_completed {s : SaverState O B} {w : SaverServer B} {c : WritesCall O} {checkpointId : Text}
    (hid : c.config.checkpointId = some checkpointId) (r : Except SaverError Unit) (t id : Text) :
    ({ s with redis := w }.setTask c.taskId ((s.tasks c.taskId).answered c (.ret r))).callsAt t id =
      if t = c.taskId ∧ id = checkpointId then s.callsAt t id ++ [c] else s.callsAt t id := by
  simp only [callsAt, tasks_setTask]
  by_cases ht : t = c.taskId
  · rw [if_pos ht, Session.answered, List.filter_append, ht]
    by_cases hi : id = checkpointId
    · rw [if_pos ⟨rfl, hi⟩, List.filter_cons_of_pos (by simp [hid, hi])]
      rfl
    · rw [if_neg fun h => hi h.2, List.filter_cons_of_neg (by simpa [hid] using Ne.symm hi)]
      simp
  · rw [if_neg ht, if_neg fun h => ht h.1]

end SaverState

/-- What is left of `aput` after its first command. -/
def afterSet (base : CheckpointBase O B) (threadId : Text) (c : PutCall O) :
    SaverProg B (Except SaverError CheckpointRef) :=
  .call (.rpush (orderKey threadId []) (base.checkpointId c.checkpoint)) fun _ =>
    .ret (.ok ⟨threadId, [], base.checkpointId c.checkpoint⟩)

/-- What is left of `aput_writes` after its first command, when there is something to set. -/
def afterKeys (base : CheckpointBase O B) (threadId checkpointId : Text) (c : WritesCall O)
    (existing : List Text) : SaverProg B (Except SaverError Unit) :=
  .call (.hset (writesKey threadId [] checkpointId) (toSet base c existing)) fun _ => .ret (.ok ())

structure PutInFlight (base : CheckpointBase O B) (threadId : Text) (s : SaverState O B) (c : PutCall O)
    (p : SaverProg B (Except SaverError CheckpointRef)) : Prop where
  tried : c ∈ s.puts.tried
  place : (p = .call (.set (checkpointKey threadId [] (base.checkpointId c.checkpoint)) (entryOf base c))
        fun _ => afterSet base threadId c) ∨
    (p = afterSet base threadId c ∧
      s.redis.lookup (checkpointKey threadId [] (base.checkpointId c.checkpoint)) = some (.string (entryOf base c)))

structure WritesInFlight (base : CheckpointBase O B) (threadId : Text) (s : SaverState O B) (taskId : Text)
    (c : WritesCall O) (p : SaverProg B (Except SaverError Unit)) : Prop where
  task : c.taskId = taskId
  place : ∃ checkpointId, c.config.checkpointId = some checkpointId ∧
    ((p = .call (.hkeys (writesKey threadId [] checkpointId)) fun existing =>
        if (toSet base c existing).rows = [] then .ret (.ok ())
        else afterKeys base threadId checkpointId c existing) ∨
      ∃ existing, p = afterKeys base threadId checkpointId c existing ∧
        ∀ i, writeField c.taskId i ∈ existing ↔ (pendingAt base (s.callsAt taskId checkpointId) i).isSome)

structure SaverInv (base : CheckpointBase O B) (threadId : Text) (s : SaverState O B) : Prop where
  order : s.redis.itemsAt (orderKey threadId []) =
    some (s.puts.completed.map fun c => base.checkpointId c.checkpoint)
  latest : ∀ c ∈ s.puts.completed.getLast?,
    (∀ c' ∈ s.puts.tried, base.checkpointId c'.checkpoint ≠ base.checkpointId c.checkpoint) →
    s.redis.lookup (checkpointKey threadId [] (base.checkpointId c.checkpoint)) = some (.string (entryOf base c))
  put : ∀ c p, s.puts.inFlight = some (c, p) → PutInFlight base threadId s c p
  hashes : ∀ checkpointId, ∃ d, s.redis.fieldsAt (writesKey threadId [] checkpointId) = some d ∧
    HoldsWrites base (fun taskId => s.callsAt taskId checkpointId) d
  writes : ∀ taskId c p, (s.tasks taskId).inFlight = some (c, p) → WritesInFlight base threadId s taskId c p
  own : ∀ taskId, ∀ c ∈ (s.tasks taskId).completed, c.taskId = taskId

theorem aput_inThread {base : CheckpointBase O B} {threadId : Text} {c : PutCall O}
    (h : c.config.inThread threadId = true) (hns : c.config.checkpointNs.isSome = true) :
    aput base c = .call (.set (checkpointKey threadId [] (base.checkpointId c.checkpoint)) (entryOf base c))
      fun _ => afterSet base threadId c := by
  obtain ⟨ns, hns⟩ := Option.isSome_iff_exists.mp hns
  simp only [Configurable.inThread, hns, Option.getD_some, Bool.and_eq_true, beq_iff_eq] at h
  obtain ⟨rfl, rfl⟩ := h
  simp only [aput, hns]
  rfl

theorem aputWrites_inThread {base : CheckpointBase O B} {threadId checkpointId : Text} {c : WritesCall O}
    (h : c.config.inThread threadId = true) (hid : c.config.checkpointId = some checkpointId) :
    aputWrites base c = .call (.hkeys (writesKey threadId [] checkpointId)) fun existing =>
      if (toSet base c existing).rows = [] then .ret (.ok ())
      else afterKeys base threadId checkpointId c existing := by
  simp only [Configurable.inThread, Bool.and_eq_true, beq_iff_eq] at h
  obtain ⟨rfl, hns⟩ := h
  simp only [aputWrites, hid]
  rw [hns]
  rfl

/-! One lemma per move. -/

section

variable {base : CheckpointBase O B} {fits : Text → Text → Bool} {threadId : Text} {s s' : SaverState O B}

theorem SaverInv.beginPut (I : SaverInv base threadId s) {c : PutCall O}
    (h : c.config.inThread threadId = true) (hns : c.config.checkpointNs.isSome = true) :
    SaverInv base threadId { s with puts := s.puts.begin c (aput base c) } where
  order := I.order
  latest c' hc' hne := I.latest c' hc' fun c₁ hc₁ => hne c₁ (List.mem_append_left _ hc₁)
  put c' p hp := by
    obtain ⟨rfl, rfl⟩ := Prod.mk.injEq .. ▸ Option.some.inj hp
    exact ⟨List.mem_append_right _ (List.mem_singleton_self _), .inl (aput_inThread h hns)⟩
  hashes := I.hashes
  writes taskId c' p hp := ⟨(I.writes taskId c' p hp).task, (I.writes taskId c' p hp).place⟩
  own := I.own

theorem SaverInv.crash (I : SaverInv base threadId s) :
    SaverInv base threadId ⟨s.redis, s.puts.crashed, fun taskId => (s.tasks taskId).crashed⟩ where
  order := I.order
  latest := I.latest
  put c p hp := by cases hp
  hashes := I.hashes
  writes taskId c p hp := by cases hp
  own := I.own

theorem SaverInv.goOn (I : SaverInv base threadId s) {taskId : Text}
    {session : Session (WritesCall O) (SaverProg B (Except SaverError Unit))}
    (hcompleted : session.completed = (s.tasks taskId).completed)
    (hinFlight : ∀ c p, session.inFlight = some (c, p) →
      WritesInFlight base threadId (s.setTask taskId session) taskId c p) :
    SaverInv base threadId (s.setTask taskId session) := by
  have hcalls : ∀ t id, (s.setTask taskId session).callsAt t id = s.callsAt t id :=
    SaverState.callsAt_setTask_of_completed hcompleted
  constructor
  case order => exact I.order
  case latest => exact I.latest
  case put => exact fun c' p hp => ⟨(I.put c' p hp).tried, (I.put c' p hp).place⟩
  case hashes =>
    intro id
    simp only [hcalls]
    exact I.hashes id
  case writes =>
    intro t c' p hp
    rw [SaverState.tasks_setTask] at hp
    split_ifs at hp with ht
    · subst ht
      exact hinFlight c' p hp
    · obtain ⟨htask, hplace⟩ := I.writes t c' p hp
      refine ⟨htask, ?_⟩
      simp only [hcalls]
      exact hplace
  case own =>
    intro t c' hc'
    rw [SaverState.tasks_setTask] at hc'
    split_ifs at hc' with ht
    · rw [hcompleted] at hc'
      exact ht ▸ I.own _ c' hc'
    · exact I.own t c' hc'

theorem SaverInv.beginWrites (I : SaverInv base threadId s) {c : WritesCall O}
    (h : c.config.inThread threadId = true) (hid : c.config.checkpointId.isSome = true) :
    SaverInv base threadId (s.setTask c.taskId ((s.tasks c.taskId).begin c (aputWrites base c))) := by
  refine I.goOn rfl fun c' p hp => ?_
  obtain ⟨rfl, rfl⟩ := Prod.mk.injEq .. ▸ Option.some.inj hp
  obtain ⟨checkpointId, hid⟩ := Option.isSome_iff_exists.mp hid
  exact ⟨rfl, checkpointId, hid, .inl (aputWrites_inThread h hid)⟩

theorem SaverInv.set (I : SaverInv base threadId s) {c : PutCall O} (htried : c ∈ s.puts.tried) :
    SaverInv base threadId
      { s with
        redis := s.redis.store (checkpointKey threadId [] (base.checkpointId c.checkpoint))
          (.string (entryOf base c))
        puts := s.puts.answered c (afterSet base threadId c) } := by
  constructor
  case order =>
    rw [Server.itemsAt_store _ checkpointKey_ne_orderKey]
    exact I.order
  case latest =>
    intro c' hc' hne
    have hid := hne c htried
    rw [Server.lookup_store, if_neg (by simpa using hid)]
    exact I.latest c' hc' hne
  case put =>
    intro c' p hp
    obtain ⟨rfl, rfl⟩ := Prod.mk.injEq .. ▸ Option.some.inj hp
    refine ⟨htried, .inr ⟨rfl, ?_⟩⟩
    rw [Server.lookup_store, if_pos rfl]
  case hashes =>
    intro checkpointId
    obtain ⟨d, hd, hh⟩ := I.hashes checkpointId
    exact ⟨d, by rw [Server.fieldsAt_store _ checkpointKey_ne_writesKey]; exact hd, hh⟩
  case writes => exact fun taskId c' p hp => ⟨(I.writes taskId c' p hp).task, (I.writes taskId c' p hp).place⟩
  case own => exact I.own

theorem SaverInv.rpush (I : SaverInv base threadId s) {c : PutCall O}
    (hset : s.redis.lookup (checkpointKey threadId [] (base.checkpointId c.checkpoint)) =
      some (.string (entryOf base c))) (r : Except SaverError CheckpointRef) :
    SaverInv base threadId
      { s with
        redis := s.redis.store (orderKey threadId [])
          (.list ((s.puts.completed.map fun c => base.checkpointId c.checkpoint) ++ [base.checkpointId c.checkpoint]))
        puts := s.puts.answered c (.ret r) } := by
  constructor
  case order =>
    rw [Server.itemsAt_store_list]
    simp [Session.answered]
  case latest =>
    intro c' hc' _
    simp only [Session.answered, List.getLast?_concat, Option.mem_some_iff] at hc'
    subst hc'
    rw [Server.lookup_store, if_neg checkpointKey_ne_orderKey.symm]
    exact hset
  case put => exact fun c' p hp => by cases hp
  case hashes =>
    intro checkpointId
    obtain ⟨d, hd, hh⟩ := I.hashes checkpointId
    exact ⟨d, by rw [Server.fieldsAt_store _ orderKey_ne_writesKey]; exact hd, hh⟩
  case writes => exact fun taskId c' p hp => ⟨(I.writes taskId c' p hp).task, (I.writes taskId c' p hp).place⟩
  case own => exact I.own

/-- A task's call completes: its hash has got the call's writes, and nothing else changes. -/
theorem SaverInv.completeWrites (I : SaverInv base threadId s) {c : WritesCall O} {checkpointId : Text}
    (hid : c.config.checkpointId = some checkpointId) {w : SaverServer B}
    (hframe : ∀ k, k ≠ writesKey threadId [] checkpointId → w.lookup k = s.redis.lookup k)
    {d : Dict Text (StoredWrite B)} (hd : w.fieldsAt (writesKey threadId [] checkpointId) = some d)
    (hh : HoldsWrites base (addCall (fun taskId => s.callsAt taskId checkpointId) c) d)
    (r : Except SaverError Unit) :
    SaverInv base threadId ({ s with redis := w }.setTask c.taskId ((s.tasks c.taskId).answered c (.ret r))) := by
  have hcalls := SaverState.callsAt_completed (s := s) (w := w) hid r
  constructor
  case order => exact (Server.itemsAt_congr (hframe _ orderKey_ne_writesKey)).trans I.order
  case latest =>
    intro c' hc' hne
    exact (hframe _ checkpointKey_ne_writesKey).trans (I.latest c' hc' hne)
  case put =>
    intro c' p hp
    obtain ⟨htried, hplace⟩ := I.put c' p hp
    refine ⟨htried, hplace.imp id ?_⟩
    intro hplace
    exact ⟨hplace.1, (hframe _ checkpointKey_ne_writesKey).trans hplace.2⟩
  case hashes =>
    intro id
    by_cases hi : id = checkpointId
    · subst hi
      refine ⟨d, hd, ?_⟩
      have hsame : ∀ taskId, SaverState.callsAt
          ({ s with redis := w }.setTask c.taskId ((s.tasks c.taskId).answered c (.ret r))) taskId id =
            addCall (fun taskId => s.callsAt taskId id) c taskId := by
        intro taskId
        rw [hcalls, addCall]
        simp only [and_true]
      simp only [hsame]
      exact hh
    · obtain ⟨d₁, hd₁, hh⟩ := I.hashes id
      refine ⟨d₁, (Server.fieldsAt_congr (hframe _ (by simpa using hi))).trans hd₁, ?_⟩
      have hsame : ∀ taskId, SaverState.callsAt
          ({ s with redis := w }.setTask c.taskId ((s.tasks c.taskId).answered c (.ret r))) taskId id =
            s.callsAt taskId id := by
        intro taskId
        rw [hcalls, if_neg fun h => hi h.2]
      simp only [hsame]
      exact hh
  case writes =>
    intro taskId c' p hp
    rw [SaverState.tasks_setTask] at hp
    split_ifs at hp with ht
    · cases hp
    · obtain ⟨htask, hplace⟩ := I.writes taskId c' p hp
      refine ⟨htask, ?_⟩
      have hsame : ∀ id, SaverState.callsAt
          ({ s with redis := w }.setTask c.taskId ((s.tasks c.taskId).answered c (.ret r))) taskId id =
            s.callsAt taskId id := by
        intro id
        rw [hcalls, if_neg fun h => ht h.1]
      simp only [hsame]
      exact hplace
  case own =>
    intro taskId c' hc'
    rw [SaverState.tasks_setTask] at hc'
    split_ifs at hc' with ht
    · rcases List.mem_append.mp hc' with hm | hm
      · exact (I.own _ c' hm).trans ht.symm
      · rw [List.mem_singleton.mp hm, ht]
    · exact I.own taskId c' hc'

theorem SaverInv.hkeys (I : SaverInv base threadId s) {c : WritesCall O} {checkpointId : Text}
    (hid : c.config.checkpointId = some checkpointId) {d : Dict Text (StoredWrite B)}
    (hd : s.redis.fieldsAt (writesKey threadId [] checkpointId) = some d) {existing : List Text}
    (hex : existing.Perm d.names) :
    SaverInv base threadId (s.setTask c.taskId ((s.tasks c.taskId).answered c
      (if (toSet base c existing).rows = [] then .ret (.ok ())
        else afterKeys base threadId checkpointId c existing))) := by
  obtain ⟨d₀, hd₀, hh⟩ := I.hashes checkpointId
  obtain rfl : d₀ = d := Option.some.inj (hd₀.symm.trans hd)
  have hknows := hh.mem_names hex c.taskId
  by_cases hrows : (toSet base c existing).rows = []
  · rw [if_pos hrows]
    have hadd := hh.add hknows
    rw [Dict.merge_of_nil d₀ hrows] at hadd
    exact I.completeWrites hid (fun k _ => rfl) hd₀ hadd _
  · rw [if_neg hrows]
    have hcalls : ∀ taskId id, (s.setTask c.taskId ((s.tasks c.taskId).answered c
        (afterKeys base threadId checkpointId c existing))).callsAt taskId id = s.callsAt taskId id :=
      SaverState.callsAt_setTask_of_completed rfl
    refine I.goOn rfl fun c' p hp => ?_
    obtain ⟨rfl, rfl⟩ := Prod.mk.injEq .. ▸ Option.some.inj hp
    refine ⟨rfl, checkpointId, hid, .inr ⟨existing, rfl, ?_⟩⟩
    intro i
    rw [hcalls, hknows]

theorem SaverInv.hset (I : SaverInv base threadId s) {c : WritesCall O} {checkpointId : Text}
    (hid : c.config.checkpointId = some checkpointId) {d : Dict Text (StoredWrite B)}
    (hd : s.redis.fieldsAt (writesKey threadId [] checkpointId) = some d) {existing : List Text}
    (hknows : ∀ i, writeField c.taskId i ∈ existing ↔
      (pendingAt base (s.callsAt c.taskId checkpointId) i).isSome) (r : Except SaverError Unit) :
    SaverInv base threadId
      ({ s with
          redis := s.redis.store (writesKey threadId [] checkpointId)
            (.hash (d.merge (toSet base c existing))) }.setTask
        c.taskId ((s.tasks c.taskId).answered c (.ret r))) := by
  obtain ⟨d₀, hd₀, hh⟩ := I.hashes checkpointId
  obtain rfl : d₀ = d := Option.some.inj (hd₀.symm.trans hd)
  refine I.completeWrites hid ?_ (Server.fieldsAt_store_hash ..) (hh.add hknows) r
  intro k hk
  rw [Server.lookup_store, if_neg hk.symm]

theorem SaverInv.step (I : SaverInv base threadId s) (h : SaverState.Step base fits threadId s s') :
    SaverInv base threadId s' := by
  obtain ⟨m, hm⟩ := h
  cases m with
  | beginPut c =>
    simp only [SaverState.move, Option.ite_none_right_eq_some, Bool.and_eq_true, Option.some.injEq] at hm
    obtain ⟨⟨⟨_, h⟩, hns⟩, rfl⟩ := hm
    exact I.beginPut h hns
  | beginWrites c =>
    simp only [SaverState.move, Option.ite_none_right_eq_some, Bool.and_eq_true, Option.some.injEq] at hm
    obtain ⟨⟨⟨_, h⟩, hid⟩, rfl⟩ := hm
    exact I.beginWrites h hid
  | putCommand e =>
    obtain ⟨⟨c, p⟩, hp, hx⟩ := Option.bind_eq_some_iff.mp hm
    obtain ⟨⟨q, w⟩, hcmd, rfl⟩ := Option.map_eq_some_iff.mp hx
    obtain ⟨htried, rfl | ⟨rfl, hset⟩⟩ := I.put c p hp
    · obtain ⟨rfl, rfl⟩ := Prod.mk.injEq .. ▸ Option.some.inj hcmd
      exact I.set htried
    · simp only [SaverState.command, afterSet, Command.exec, I.order, Option.map_some] at hcmd
      obtain ⟨rfl, rfl⟩ := Prod.mk.injEq .. ▸ Option.some.inj hcmd
      exact I.rpush hset _
  | writesCommand taskId e =>
    obtain ⟨⟨c, p⟩, hp, hx⟩ := Option.bind_eq_some_iff.mp hm
    obtain ⟨⟨q, w⟩, hcmd, rfl⟩ := Option.map_eq_some_iff.mp hx
    obtain ⟨rfl, checkpointId, hid, rfl | ⟨existing, rfl, hknows⟩⟩ := I.writes taskId c p hp
    · obtain ⟨⟨existing, w'⟩, hexec, hq⟩ := Option.map_eq_some_iff.mp hcmd
      obtain ⟨rfl, rfl⟩ := Prod.mk.injEq .. ▸ hq
      obtain ⟨d, hd, _⟩ := I.hashes checkpointId
      obtain ⟨hperm, rfl⟩ := Redis.exec_hkeys hd hexec
      exact I.hkeys hid hd hperm
    · obtain ⟨d, hd, _⟩ := I.hashes checkpointId
      simp only [SaverState.command, afterKeys, Command.exec, hd, Option.map_some] at hcmd
      obtain ⟨rfl, rfl⟩ := Prod.mk.injEq .. ▸ Option.some.inj hcmd
      exact I.hset hid hd hknows _
  | crash =>
    obtain rfl := Option.some.inj hm
    exact I.crash

theorem saverInv_begin {w : SaverServer B} (h : Fresh threadId w) :
    SaverInv base threadId (SaverState.begin w : SaverState O B) where
  order := by
    simp only [SaverState.begin, Server.itemsAt, h.1]
    rfl
  latest c hc := by cases hc
  put c p hp := by cases hp
  hashes checkpointId := by
    refine ⟨.empty, ?_, ?_, ?_⟩
    · simp only [SaverState.begin, Server.fieldsAt, (h.2 checkpointId).2]
    · intro taskId i
      simp [pendingAt, SaverState.callsAt, SaverState.begin, Session.idle]
    · intro field hf
      cases hf
  writes taskId c p hp := by cases hp
  own taskId c hc := by cases hc

theorem SaverState.Reachable.inv {w : SaverServer B} (hfresh : Fresh threadId w)
    (h : SaverState.Reachable base fits threadId (.begin w) s) : SaverInv base threadId s := by
  induction h with
  | refl => exact saverInv_begin hfresh
  | tail _ hstep ih => exact ih.step hstep

end

/-- The answer is the last checkpoint whose `aput` completed, with its metadata,
its parent and its pending writes. -/
def IsLatest (base : CheckpointBase O B) (threadId : Text) (s : SaverState O B)
    (r : Except SaverError (Option (CheckpointTuple O))) : Prop :=
  match s.puts.completed.getLast? with
  | none => r = .ok none
  | some c => ∃ ws, r = .ok (some (savedTuple base threadId [] c ws)) ∧
      ∀ taskId, Pending base (s.callsAt taskId (base.checkpointId c.checkpoint)) taskId ws

section

variable {base : CheckpointBase O B} {fits : Text → Text → Bool} {threadId : Text} {s : SaverState O B}

theorem SaverInv.pending (I : SaverInv base threadId s) (checkpointId : Text) :
    (loadPendingWrites base threadId [] checkpointId).Meets (Command.exec fits)
      (fun r _ => ∃ ws, r = .ok ws ∧ ∀ taskId, Pending base (s.callsAt taskId checkpointId) taskId ws) s.redis := by
  obtain ⟨d, hd, hh⟩ := I.hashes checkpointId
  refine (loadPendingWrites_meets hd hh).mono ?_
  intro r _ hr
  exact hr.2

theorem SaverInv.getsLatest (I : SaverInv base threadId s)
    (hid : ∀ c ∈ s.puts.completed.getLast?, base.checkpointId c.checkpoint ≠ [] ∧
      ∀ c' ∈ s.puts.tried, base.checkpointId c'.checkpoint ≠ base.checkpointId c.checkpoint)
    {config : Configurable} (hthread : config.inThread threadId = true) (hnone : config.checkpointId = none) :
    (agetTuple base config).Meets (Command.exec fits) (fun r _ => IsLatest base threadId s r) s.redis := by
  simp only [Configurable.inThread, Bool.and_eq_true, beq_iff_eq] at hthread
  obtain ⟨rfl, hns⟩ := hthread
  simp only [agetTuple, hnone, hns, Prog.meets_bind_iff]
  refine (latestCheckpointId_meets I.order).mono ?_
  intro r w hr
  obtain ⟨rfl, rfl⟩ := hr
  rw [List.getLast?_map]
  cases hlast : s.puts.completed.getLast? with
  | none =>
    show IsLatest base _ s _
    rw [IsLatest, hlast]
  | some c =>
    obtain ⟨hne, htried⟩ := hid c hlast
    rw [Option.map_some, Option.filter_some_pos (by simpa using hne)]
    obtain ⟨d, hd, hh⟩ := I.hashes (base.checkpointId c.checkpoint)
    refine (readTuple_meets rfl (I.latest c hlast htried) hd hh).mono ?_
    intro r _ hr
    obtain ⟨_, ws, rfl, hws⟩ := hr
    show IsLatest base _ s _
    rw [IsLatest, hlast]
    exact ⟨ws, rfl, hws⟩

end

/-- At every state at which a run may be cut: the last completed checkpoint is
what `aget_tuple` gives, unless an `aput` begun since then puts its id again; the
pending writes are those the completed calls amount to; and of a task with a
single call all writes are there or none. -/
theorem checkpoint_survives_crash {base : CheckpointBase O B} {fits : Text → Text → Bool} {threadId : Text}
    {w : SaverServer B} (hfresh : Fresh threadId w) {s : SaverState O B}
    (hrun : SaverState.Reachable base fits threadId (.begin w) s) :
    ((∀ c ∈ s.puts.completed.getLast?, base.checkpointId c.checkpoint ≠ [] ∧
        ∀ c' ∈ s.puts.tried, base.checkpointId c'.checkpoint ≠ base.checkpointId c.checkpoint) →
      ∀ config : Configurable, config.inThread threadId = true → config.checkpointId = none →
        (agetTuple base config).Meets (Command.exec fits) (fun r _ => IsLatest base threadId s r) s.redis) ∧
    (∀ checkpointId, (loadPendingWrites base threadId [] checkpointId).Meets (Command.exec fits)
      (fun r _ => ∃ ws, r = .ok ws ∧ ∀ taskId, Pending base (s.callsAt taskId checkpointId) taskId ws) s.redis) ∧
    ∀ taskId c, (s.tasks taskId).completed ++ (s.tasks taskId).tried = [c] → ∀ checkpointId,
      (loadPendingWrites base threadId [] checkpointId).Meets (Command.exec fits)
        (fun r _ => ∃ ws, r = .ok ws ∧ (ws.filter (·.taskId = taskId) = [] ∨
          (c.config.checkpointId = some checkpointId ∧ Pending base [c] taskId ws))) s.redis := by
  have I := hrun.inv hfresh
  refine ⟨fun hid config hthread hnone => I.getsLatest hid hthread hnone, I.pending, ?_⟩
  intro taskId c hc checkpointId
  refine (I.pending checkpointId).mono ?_
  intro r _ hr
  obtain ⟨ws, rfl, hws⟩ := hr
  refine ⟨ws, rfl, ?_⟩
  have hcalls := hws taskId
  rcases List.append_eq_singleton_iff.mp hc with ⟨hcompleted, _⟩ | ⟨hcompleted, _⟩
  · left
    refine @pending_nil _ _ base _ _ ?_
    simpa only [SaverState.callsAt, hcompleted, List.filter_nil] using hcalls
  · simp only [SaverState.callsAt, hcompleted] at hcalls
    by_cases hid : c.config.checkpointId = some checkpointId
    · right
      rw [List.filter_cons_of_pos (by simpa using hid)] at hcalls
      exact ⟨hid, hcalls⟩
    · left
      rw [List.filter_cons_of_neg (by simpa using hid)] at hcalls
      exact pending_nil hcalls

/-! Short runs. -/

def writesOf (checkpointId taskId : Text) (writes : List (Text × Text × Nat)) : WritesCall (Text × Nat) :=
  ⟨⟨"t".toList, none, some checkpointId⟩, writes, taskId, []⟩

def playSaver (moves : List (SaverMove (Text × Nat))) : Option (SaverState (Text × Nat) (Text × Nat)) :=
  moves.foldlM (SaverState.move plainBase (fun _ _ => false) "t".toList) (.begin .empty)

def readSaver {α : Type} (order : List Text) (s : SaverState (Text × Nat) (Text × Nat)) (p : SaverProg (Text × Nat) α) :
    Option α :=
  (p.complete (Command.exec fun _ _ => false) (.order order) s.redis).map Prod.fst

theorem reachable_of_playSaver {moves : List (SaverMove (Text × Nat))} {s : SaverState (Text × Nat) (Text × Nat)}
    (h : playSaver moves = some s) :
    SaverState.Reachable plainBase (fun _ _ => false) "t".toList (.begin .empty) s := by
  unfold playSaver at h
  generalize SaverState.begin (O := Text × Nat) (B := Text × Nat) .empty = s₀ at h ⊢
  induction moves generalizing s₀ with
  | nil =>
    obtain rfl := Option.some.inj h
    exact .refl
  | cons m moves ih =>
    simp only [List.foldlM_cons, Option.bind_eq_bind] at h
    obtain ⟨s₁, hs₁, hrest⟩ := Option.bind_eq_some_iff.mp h
    exact .head ⟨m, hs₁⟩ (ih s₁ hrest)

theorem checkpoint_survives_crash_between : ∃ s,
    SaverState.Reachable plainBase (fun _ _ => false) "t".toList (.begin .empty) s ∧
      s.puts.completed.map (·.checkpoint) = [("1".toList, 1)] ∧ s.puts.tried.map (·.checkpoint) = [("2".toList, 2)] ∧
      (agetTuple plainBase ⟨"t".toList, none, none⟩).Meets (Command.exec fun _ _ => false)
        (fun r _ => IsLatest plainBase "t".toList s r) s.redis := by
  obtain ⟨s, hs, hid, hcompleted, htried⟩ : ∃ s ∈ playSaver
        [.beginPut (putOf "t".toList [] "1".toList 1), .putCommand .plain, .putCommand .plain,
          .beginWrites (writesOf "1".toList "a".toList [("x".toList, [], 5)]), .writesCommand "a".toList (.order []),
          .beginPut (putOf "t".toList [] "2".toList 2), .putCommand .plain],
      (∀ c ∈ s.puts.completed.getLast?, plainBase.checkpointId c.checkpoint ≠ [] ∧
        ∀ c' ∈ s.puts.tried, plainBase.checkpointId c'.checkpoint ≠ plainBase.checkpointId c.checkpoint) ∧
      s.puts.completed.map (·.checkpoint) = [("1".toList, 1)] ∧
      s.puts.tried.map (·.checkpoint) = [("2".toList, 2)] := by
    decide +kernel
  have hrun := reachable_of_playSaver hs
  have hfresh : Fresh "t".toList (Server.empty : SaverServer (Text × Nat)) := ⟨rfl, fun _ => ⟨rfl, rfl⟩⟩
  exact ⟨s, hrun, hcompleted, htried,
    (checkpoint_survives_crash hfresh hrun).1 hid ⟨"t".toList, none, none⟩ rfl rfl⟩

/-- An `aput` of the last checkpoint's id cut after its first command shows; a
checkpoint with the empty id does not; and of two writes of one call to a special
channel the first one is not kept. -/
theorem checkpoint_crash_exceptions :
    (∃ s, SaverState.Reachable plainBase (fun _ _ => false) "t".toList (.begin .empty) s ∧
      s.puts.completed.map (·.checkpoint) = [("1".toList, 1)] ∧
      (readSaver [] s (agetTuple plainBase ⟨"t".toList, none, none⟩)).map latestOf = some (some ("1".toList, 2))) ∧
    (∃ s, SaverState.Reachable plainBase (fun _ _ => false) "t".toList (.begin .empty) s ∧
      s.puts.completed.map (·.checkpoint) = [([], 1)] ∧
      (readSaver [] s (agetTuple plainBase ⟨"t".toList, none, none⟩)).map latestOf = some none) ∧
    ∃ s, SaverState.Reachable plainBase (fun _ _ => false) "t".toList (.begin .empty) s ∧
      (s.tasks "a".toList).completed.map (·.writes) =
        [[("__interrupt__".toList, [], 1), ("__interrupt__".toList, [], 2)]] ∧
      (readSaver [writeField "a".toList (-3)] s (loadPendingWrites plainBase "t".toList [] "1".toList)).map
        (fun r => r.toOption.map (List.map PendingWrite.value)) = some (some [([], 2)]) := by
  refine ⟨?_, ?_, ?_⟩
  · obtain ⟨s, hs, hh⟩ : ∃ s ∈ playSaver [.beginPut (putOf "t".toList [] "1".toList 1), .putCommand .plain,
        .putCommand .plain, .beginPut (putOf "t".toList [] "1".toList 2), .putCommand .plain],
        s.puts.completed.map (·.checkpoint) = [("1".toList, 1)] ∧
        (readSaver [] s (agetTuple plainBase ⟨"t".toList, none, none⟩)).map latestOf =
          some (some ("1".toList, 2)) := by
      decide +kernel
    exact ⟨s, reachable_of_playSaver hs, hh⟩
  · obtain ⟨s, hs, hh⟩ : ∃ s ∈ playSaver [.beginPut (putOf "t".toList [] [] 1), .putCommand .plain, .putCommand .plain],
        s.puts.completed.map (·.checkpoint) = [([], 1)] ∧
        (readSaver [] s (agetTuple plainBase ⟨"t".toList, none, none⟩)).map latestOf = some none := by
      decide +kernel
    exact ⟨s, reachable_of_playSaver hs, hh⟩
  · obtain ⟨s, hs, hh⟩ : ∃ s ∈ playSaver [.beginWrites (writesOf "1".toList "a".toList
          [("__interrupt__".toList, [], 1), ("__interrupt__".toList, [], 2)]),
        .writesCommand "a".toList (.order []), .writesCommand "a".toList .plain],
        (s.tasks "a".toList).completed.map (·.writes) =
          [[("__interrupt__".toList, [], 1), ("__interrupt__".toList, [], 2)]] ∧
        (readSaver [writeField "a".toList (-3)] s (loadPendingWrites plainBase "t".toList [] "1".toList)).map
          (fun r => r.toOption.map (List.map PendingWrite.value)) = some (some [([], 2)]) := by
      decide +kernel
    exact ⟨s, reachable_of_playSaver hs, hh⟩

end AiPrReview
