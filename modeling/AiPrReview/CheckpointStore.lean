import AiPrReview.Glob
import AiPrReview.PendingWrites

/-! The checkpoint saver against one store for each thread and namespace. A
sequence of calls behaves like the stores as long as no two of the keys in use
are the same text. -/

namespace AiPrReview

open Redis (Command Dict Server Value)

variable {O B : Type}

def utf8 (t : Text) : List UInt8 := t.flatMap String.utf8EncodeChar

/-- The matching of `SCAN`, on the bytes of the texts. -/
def keyFits (pattern key : Text) : Bool := Redis.glob (utf8 pattern) (utf8 key)

abbrev saverExec : (c : Command Text (Entry B) (StoredWrite B)) → Redis.Choice Text → SaverServer B →
    Option (c.Reply × SaverServer B) :=
  Command.exec keyFits

inductive SaverOp (O : Type) : Type where
  | put (c : PutCall O)
  | putWrites (c : WritesCall O)
  | get (config : Configurable)
  | list (config : Option Configurable) (filter : O → Bool) (before : Option Configurable) (limit : Option Int)
  | delete (threadId : Text)

def Configurable.isOf (config : Configurable) (threadId ns : Text) : Bool :=
  config.threadId == threadId && config.checkpointNs.getD [] == ns

namespace SaverOp

/-- The operation is one on this thread and namespace; a call that raises a `KeyError` is on none. -/
def concerns (threadId ns : Text) : SaverOp O → Bool
  | put c => c.config.threadId == threadId && c.config.checkpointNs == some ns
  | putWrites c => c.config.isOf threadId ns && c.config.checkpointId.isSome
  | get config => config.isOf threadId ns
  | list config _ _ _ => config.any fun config => config.isOf threadId ns
  | delete t => t == threadId

/-- The operation runs alone from `w` to `w'`. -/
def Completes (base : CheckpointBase O B) (w w' : SaverServer B) : SaverOp O → Prop
  | put c => ∃ r, Prog.Completes saverExec w (aput base c) r w'
  | putWrites c => ∃ r, Prog.Completes saverExec w (aputWrites base c) r w'
  | get config => ∃ r, Prog.Completes saverExec w (agetTuple base config) r w'
  | list config filter before limit => ∃ r, Prog.Completes saverExec w (alist base config filter before limit) r w'
  | delete threadId => ∃ r, Prog.Completes saverExec w (adeleteThread threadId) r w'

end SaverOp

/-! What the saver is for: of each thread and namespace, the checkpoints, the
newest first, and the writes. -/

structure Shelf (base : CheckpointBase O B) : Type where
  checkpoints : Table (fun c : PutCall O => base.checkpointId c.checkpoint)
  writes : List (WritesCall O)

namespace Shelf

variable {base : CheckpointBase O B}

def empty : Shelf base := ⟨.empty, []⟩

def apply (s : Shelf base) : SaverOp O → Shelf base
  | .put c => { s with checkpoints := s.checkpoints.push c }
  | .putWrites c => { s with writes := s.writes ++ [c] }
  | .get _ => s
  | .list .. => s
  | .delete _ => empty

def callsAt (s : Shelf base) (checkpointId taskId : Text) : List (WritesCall O) :=
  s.writes.filter fun c => c.config.checkpointId = some checkpointId ∧ c.taskId = taskId

/-- A checkpoint passes the tests of a listing. -/
def passes (base : CheckpointBase O B) (filter : O → Bool) (beforeId : Option Text) (c : PutCall O) : Bool :=
  (beforeId.all fun b => b = [] || base.checkpointId c.checkpoint < b) &&
    filter (base.getCheckpointMetadata c.config c.metadata)

theorem passes_eq (base : CheckpointBase O B) (filter : O → Bool) (beforeId : Option Text) (c : PutCall O) :
    passes base filter beforeId c = (!(beforeId.any fun b => b ≠ [] && b ≤ base.checkpointId c.checkpoint) &&
      filter (base.getCheckpointMetadata c.config c.metadata)) := by
  have hh : ∀ b : Text, (decide (b = []) || decide (base.checkpointId c.checkpoint < b)) =
      !(decide (b ≠ []) && decide (b ≤ base.checkpointId c.checkpoint)) := by
    intro b
    by_cases hlt : base.checkpointId c.checkpoint < b
    · simp [hlt]
    · simp [hlt]
  cases beforeId with
  | none => rfl
  | some b => simp only [passes, Option.all_some, Option.any_some, hh]

def upTo {A : Type} : Option Int → List A → List A
  | none, l => l
  | some n, l => l.take n.toNat

theorem upTo_cons_of_last {A : Type} {limit : Option Int} {count : Int} (hlimit : ∀ m ∈ limit, count < m)
    (hlast : (limit.any (· ≤ count + 1)) = true) (a : A) (l : List A) :
    upTo (limit.map (· - count)) (a :: l) = [a] := by
  cases limit with
  | none => cases hlast
  | some m =>
    have hm := hlimit m rfl
    have hle : m ≤ count + 1 := by simpa using hlast
    have hone : (m - count).toNat = 1 := by omega
    rw [Option.map_some, upTo, hone]
    rfl

theorem upTo_cons_of_next {A : Type} {limit : Option Int} {count : Int} (hnext : ∀ m ∈ limit, count + 1 < m)
    (a : A) (l : List A) :
    upTo (limit.map (· - count)) (a :: l) = a :: upTo (limit.map (· - (count + 1))) l := by
  cases limit with
  | none => rfl
  | some m =>
    have hm := hnext m rfl
    have hsucc : (m - count).toNat = (m - (count + 1)).toNat + 1 := by omega
    rw [Option.map_some, upTo, hsucc]
    rfl

/-- The checkpoints that a listing is to give. -/
def listed (s : Shelf base) (filter : O → Bool) (before : Option Configurable) (limit : Option Int) :
    List (PutCall O) :=
  upTo limit (s.checkpoints.rows.filter (passes base filter (before.bind (·.checkpointId))))

end Shelf

/-- The store of one thread and namespace, from the operations on it alone. -/
def shelf (base : CheckpointBase O B) (ops : List (SaverOp O)) (threadId ns : Text) : Shelf base :=
  (ops.filter (SaverOp.concerns threadId ns)).foldl Shelf.apply .empty

theorem shelf_concat (base : CheckpointBase O B) (ops : List (SaverOp O)) (op : SaverOp O) (threadId ns : Text) :
    shelf base (ops ++ [op]) threadId ns =
      if op.concerns threadId ns then (shelf base ops threadId ns).apply op else shelf base ops threadId ns := by
  by_cases h : op.concerns threadId ns = true
  · rw [if_pos h, shelf, List.filter_append, List.filter_cons_of_pos h, List.filter_nil, List.foldl_concat]
    rfl
  · rw [if_neg h, shelf, List.filter_append, List.filter_cons_of_neg h, List.filter_nil, List.append_nil]
    rfl

theorem shelf_concat_of {base : CheckpointBase O B} {ops : List (SaverOp O)} {op : SaverOp O} {threadId ns : Text}
    (h : ∀ t n, op.concerns t n = true ↔ threadId = t ∧ ns = n) (t n : Text) :
    shelf base (ops ++ [op]) t n =
      if t = threadId ∧ n = ns then (shelf base ops t n).apply op else shelf base ops t n := by
  rw [shelf_concat]
  by_cases hc : op.concerns t n = true
  · obtain ⟨rfl, rfl⟩ := (h t n).mp hc
    rw [if_pos hc, if_pos ⟨rfl, rfl⟩]
  · rw [if_neg hc, if_neg fun hh => hc ((h t n).mpr ⟨hh.1.symm, hh.2.symm⟩)]

theorem shelf_concat_none {base : CheckpointBase O B} {ops : List (SaverOp O)} {op : SaverOp O}
    (h : ∀ t n, op.concerns t n = true → ∀ s : Shelf base, s.apply op = s) :
    shelf base (ops ++ [op]) = shelf base ops := by
  funext t n
  rw [shelf_concat]
  split_ifs with hc
  · exact h t n hc _
  · rfl

abbrev Shelves (base : CheckpointBase O B) : Type := Text → Text → Shelf base

section

variable {base : CheckpointBase O B} (σ : Shelves base)

/-! Which keys are in use. -/

def Stored (threadId ns checkpointId : Text) : Prop :=
  ((σ threadId ns).checkpoints.get checkpointId).isSome

def Occupied (threadId ns : Text) : Prop := (σ threadId ns).checkpoints.rows ≠ []

def Written (threadId ns checkpointId : Text) : Prop :=
  ∃ taskId i, (pendingAt base ((σ threadId ns).callsAt checkpointId taskId) i).isSome

def Owns (threadId key : Text) : Prop :=
  (∃ ns checkpointId, Stored σ threadId ns checkpointId ∧ key = checkpointKey threadId ns checkpointId) ∨
    (∃ ns, Occupied σ threadId ns ∧ key = orderKey threadId ns) ∨
    ∃ ns checkpointId, Written σ threadId ns checkpointId ∧ key = writesKey threadId ns checkpointId

/-- No other place in use has the keys of this one. -/
def Alone (threadId ns checkpointId : Text) : Prop :=
  ∀ t n i, Stored σ t n i ∨ Written σ t n i → checkpointKey t n i = checkpointKey threadId ns checkpointId →
    t = threadId ∧ n = ns ∧ i = checkpointId

def OrderAlone (threadId ns : Text) : Prop :=
  ∀ t n, Occupied σ t n → orderKey t n = orderKey threadId ns → t = threadId ∧ n = ns

/-- The condition on an operation: its keys are not those of another thread or
namespace, no id is put again, the newest id is not empty, a limit lets something
through, and the pattern of a deletion fits the thread's own keys only. -/
def SaverOp.Safe : SaverOp O → Prop
  | put c => ∀ ns, c.config.checkpointNs = some ns →
    ¬ Stored σ c.config.threadId ns (base.checkpointId c.checkpoint) ∧
      Alone σ c.config.threadId ns (base.checkpointId c.checkpoint) ∧ OrderAlone σ c.config.threadId ns
  | putWrites c => c.writes ≠ [] → ∀ checkpointId, c.config.checkpointId = some checkpointId →
    Alone σ c.config.threadId (c.config.checkpointNs.getD []) checkpointId
  | get config =>
    match config.checkpointId with
    | some checkpointId => ∀ t n i, Stored σ t n i →
      checkpointKey t n i = checkpointKey config.threadId (config.checkpointNs.getD []) checkpointId →
      t = config.threadId ∧ n = config.checkpointNs.getD [] ∧ i = checkpointId
    | none => OrderAlone σ config.threadId (config.checkpointNs.getD []) ∧
      ∀ c ∈ (σ config.threadId (config.checkpointNs.getD [])).checkpoints.rows.head?,
        base.checkpointId c.checkpoint ≠ []
  | list config filter before limit => ∀ c ∈ config, OrderAlone σ c.threadId (c.checkpointNs.getD []) ∧
    ((∀ n ∈ limit, 0 < n) ∨ (σ c.threadId (c.checkpointNs.getD [])).listed filter before none = [])
  | delete threadId => ∀ t key, Owns σ t key → (keyFits (deletePattern threadId) key = true ↔ t = threadId)

end

/-- A sequence of calls, each of which meets the condition. -/
inductive SaverRun (base : CheckpointBase O B) : List (SaverOp O) → SaverServer B → Prop
  | nil : SaverRun base [] .empty
  | concat {ops : List (SaverOp O)} {w w' : SaverServer B} (op : SaverOp O) :
      SaverRun base ops w → op.Safe (shelf base ops) → op.Completes base w w' → SaverRun base (ops ++ [op]) w'

/-! The Redis keys hold what the stores say. -/

structure StoreInv (base : CheckpointBase O B) (σ : Shelves base) (w : SaverServer B) : Prop where
  stored : ∀ t n i c, (σ t n).checkpoints.get i = some c →
    w.lookup (checkpointKey t n i) = some (.string (entryOf base c))
  order : ∀ t n, Occupied σ t n → w.lookup (orderKey t n) =
    some (.list ((σ t n).checkpoints.rows.map fun c => base.checkpointId c.checkpoint).reverse)
  written : ∀ t n i, Written σ t n i → ∃ d, w.lookup (writesKey t n i) = some (.hash d) ∧
    HoldsWrites base ((σ t n).callsAt i) d
  owned : ∀ key, (w.lookup key).isSome → ∃ t, Owns σ t key
  places : ∀ t n i, Stored σ t n i ∨ Written σ t n i → Alone σ t n i
  spots : ∀ t n, Occupied σ t n → OrderAlone σ t n

namespace StoreInv

variable {base : CheckpointBase O B} {σ : Shelves base} {w : SaverServer B} {t n i : Text}

theorem lookup_unstored (I : StoreInv base σ w)
    (halone : ∀ t' n' i', Stored σ t' n' i' → checkpointKey t' n' i' = checkpointKey t n i → t' = t ∧ n' = n ∧ i' = i)
    (h : ¬ Stored σ t n i) : w.lookup (checkpointKey t n i) = none := by
  by_contra hne
  obtain ⟨t', ho | ho | ho⟩ := I.owned _ (Option.isSome_iff_ne_none.mpr hne)
  · obtain ⟨n', i', hs, hk⟩ := ho
    obtain ⟨rfl, rfl, rfl⟩ := halone t' n' i' hs hk.symm
    exact h hs
  · obtain ⟨n', _, hk⟩ := ho
    exact checkpointKey_ne_orderKey hk
  · obtain ⟨n', i', _, hk⟩ := ho
    exact checkpointKey_ne_writesKey hk

theorem itemsAt_order (I : StoreInv base σ w) (halone : OrderAlone σ t n) :
    w.itemsAt (orderKey t n) =
      some ((σ t n).checkpoints.rows.map fun c => base.checkpointId c.checkpoint).reverse := by
  by_cases hocc : Occupied σ t n
  · simp only [Server.itemsAt, I.order t n hocc]
  · have hnone : w.lookup (orderKey t n) = none := by
      by_contra hne
      obtain ⟨t', ho | ho | ho⟩ := I.owned _ (Option.isSome_iff_ne_none.mpr hne)
      · obtain ⟨n', i', _, hk⟩ := ho
        exact checkpointKey_ne_orderKey hk.symm
      · obtain ⟨n', hs, hk⟩ := ho
        obtain ⟨rfl, rfl⟩ := halone t' n' hs hk.symm
        exact hocc hs
      · obtain ⟨n', i', _, hk⟩ := ho
        exact orderKey_ne_writesKey hk
    rw [Occupied, not_not] at hocc
    simp only [Server.itemsAt, hnone, hocc]
    rfl

theorem lookup_writes (I : StoreInv base σ w) (h : w.lookup (writesKey t n i) ≠ none) :
    ∃ t' n' i', Written σ t' n' i' ∧ checkpointKey t' n' i' = checkpointKey t n i := by
  obtain ⟨t', ho | ho | ho⟩ := I.owned _ (Option.isSome_iff_ne_none.mpr h)
  · obtain ⟨n', i', _, hk⟩ := ho
    exact absurd hk.symm checkpointKey_ne_writesKey
  · obtain ⟨n', _, hk⟩ := ho
    exact absurd hk.symm orderKey_ne_writesKey
  · obtain ⟨n', i', hs, hk⟩ := ho
    exact ⟨t', n', i', hs, writesKey_eq_iff.mp hk.symm⟩

theorem fieldsAt_writes (I : StoreInv base σ w) (t n i : Text) : ∃ d, w.fieldsAt (writesKey t n i) = some d := by
  by_cases hnone : w.lookup (writesKey t n i) = none
  · exact ⟨.empty, by simp only [Server.fieldsAt, hnone]⟩
  · obtain ⟨t', n', i', hs, hk⟩ := I.lookup_writes hnone
    obtain ⟨d, hd, _⟩ := I.written t' n' i' hs
    rw [writesKey_eq_iff.mpr hk] at hd
    exact ⟨d, by simp only [Server.fieldsAt, hd]⟩

theorem fieldsAt_alone (I : StoreInv base σ w) (halone : Alone σ t n i) :
    ∃ d, w.fieldsAt (writesKey t n i) = some d ∧ HoldsWrites base ((σ t n).callsAt i) d := by
  by_cases hw : Written σ t n i
  · obtain ⟨d, hd, hh⟩ := I.written t n i hw
    exact ⟨d, by simp only [Server.fieldsAt, hd], hh⟩
  · have hnone : w.lookup (writesKey t n i) = none := by
      by_contra hne
      obtain ⟨t', n', i', hs, hk⟩ := I.lookup_writes hne
      obtain ⟨rfl, rfl, rfl⟩ := halone t' n' i' (.inr hs) hk
      exact hw hs
    refine ⟨.empty, by simp only [Server.fieldsAt, hnone], holdsWrites_empty ?_⟩
    intro taskId j
    by_contra hj
    exact hw ⟨taskId, j, Option.isSome_iff_ne_none.mpr hj⟩

end StoreInv

theorem storeInv_nil (base : CheckpointBase O B) : StoreInv base (shelf base []) .empty where
  stored t n i c h := by cases h
  order t n h := absurd rfl h
  written t n i h := by
    obtain ⟨taskId, j, hj⟩ := h
    simp [shelf, Shelf.callsAt, Shelf.empty, pendingAt] at hj
  owned key h := by cases h
  places t n i h := by
    rcases h with h | h
    · cases h
    · obtain ⟨taskId, j, hj⟩ := h
      simp [shelf, Shelf.callsAt, Shelf.empty, pendingAt] at hj
  spots t n h := absurd rfl h

/-! One lemma per operation that changes something. -/

section

variable {base : CheckpointBase O B} {σ σ' : Shelves base} {w : SaverServer B} {threadId ns : Text}

theorem Owns.imp {key : Text} (hown : Owns σ threadId key) (hs : ∀ n i, Stored σ threadId n i → Stored σ' threadId n i)
    (ho : ∀ n, Occupied σ threadId n → Occupied σ' threadId n)
    (hw : ∀ n i, Written σ threadId n i → Written σ' threadId n i) : Owns σ' threadId key := by
  rcases hown with ⟨n, i, h, hk⟩ | ⟨n, h, hk⟩ | ⟨n, i, h, hk⟩
  · exact .inl ⟨n, i, hs n i h, hk⟩
  · exact .inr (.inl ⟨n, ho n h, hk⟩)
  · exact .inr (.inr ⟨n, i, hw n i h, hk⟩)

theorem alone_of_added {checkpointId : Text} (h : ∀ t n i, Stored σ t n i ∨ Written σ t n i → Alone σ t n i)
    (halone : Alone σ threadId ns checkpointId) (hadded : ∀ {t n i}, Stored σ' t n i ∨ Written σ' t n i →
      (Stored σ t n i ∨ Written σ t n i) ∨ (t = threadId ∧ n = ns ∧ i = checkpointId)) (t n i : Text)
    (huse : Stored σ' t n i ∨ Written σ' t n i) : Alone σ' t n i := by
  intro t' n' i' huse' hk
  rcases hadded huse with hu | ⟨rfl, rfl, rfl⟩
  · rcases hadded huse' with hu' | ⟨rfl, rfl, rfl⟩
    · exact h t n i hu t' n' i' hu' hk
    · obtain ⟨h₁, h₂, h₃⟩ := halone t n i hu hk.symm
      exact ⟨h₁.symm, h₂.symm, h₃.symm⟩
  · rcases hadded huse' with hu' | hu'
    · exact halone t' n' i' hu' hk
    · exact hu'

theorem get_put {c : PutCall O} (hσ : ∀ t n, σ' t n = if t = threadId ∧ n = ns then (σ t n).apply (.put c) else σ t n)
    (t n i : Text) : (σ' t n).checkpoints.get i =
      if t = threadId ∧ n = ns ∧ i = base.checkpointId c.checkpoint then some c else (σ t n).checkpoints.get i := by
  rw [hσ]
  by_cases h : t = threadId ∧ n = ns
  · rw [if_pos h]
    show ((σ t n).checkpoints.push c).get i = _
    rw [Table.get_push]
    by_cases hi : base.checkpointId c.checkpoint = i
    · rw [if_pos hi, if_pos ⟨h.1, h.2, hi.symm⟩]
    · rw [if_neg hi, if_neg fun hh => hi hh.2.2.symm]
  · rw [if_neg h, if_neg fun hh => h ⟨hh.1, hh.2.1⟩]

theorem stored_put {c : PutCall O}
    (hσ : ∀ t n, σ' t n = if t = threadId ∧ n = ns then (σ t n).apply (.put c) else σ t n) {t n i : Text} :
    Stored σ' t n i ↔ Stored σ t n i ∨ (t = threadId ∧ n = ns ∧ i = base.checkpointId c.checkpoint) := by
  unfold Stored
  rw [get_put hσ]
  by_cases h : t = threadId ∧ n = ns ∧ i = base.checkpointId c.checkpoint
  · simp [h]
  · simp [h]

theorem occupied_put {c : PutCall O}
    (hσ : ∀ t n, σ' t n = if t = threadId ∧ n = ns then (σ t n).apply (.put c) else σ t n) {t n : Text} :
    Occupied σ' t n ↔ Occupied σ t n ∨ (t = threadId ∧ n = ns) := by
  unfold Occupied
  rw [hσ]
  by_cases h : t = threadId ∧ n = ns
  · rw [if_pos h]
    exact ⟨fun _ => .inr h, fun _ => List.cons_ne_nil _ _⟩
  · rw [if_neg h]
    exact ⟨.inl, fun hh => hh.resolve_right h⟩

theorem written_put {c : PutCall O}
    (hσ : ∀ t n, σ' t n = if t = threadId ∧ n = ns then (σ t n).apply (.put c) else σ t n) (t n : Text) :
    (σ' t n).writes = (σ t n).writes := by
  rw [hσ]
  split_ifs <;> rfl

theorem StoreInv.put (I : StoreInv base σ w) {c : PutCall O}
    (hσ : ∀ t n, σ' t n = if t = threadId ∧ n = ns then (σ t n).apply (.put c) else σ t n)
    (hnew : ¬ Stored σ threadId ns (base.checkpointId c.checkpoint))
    (halone : Alone σ threadId ns (base.checkpointId c.checkpoint)) (horder : OrderAlone σ threadId ns) :
    StoreInv base σ' ((w.store (checkpointKey threadId ns (base.checkpointId c.checkpoint))
      (.string (entryOf base c))).store (orderKey threadId ns)
        (.list (((σ threadId ns).checkpoints.rows.map fun c => base.checkpointId c.checkpoint).reverse ++
          [base.checkpointId c.checkpoint]))) := by
  have hcalls : ∀ t n i, (σ' t n).callsAt i = (σ t n).callsAt i := by
    intro t n i
    funext taskId
    rw [Shelf.callsAt, written_put hσ, Shelf.callsAt]
  have hwritten : ∀ t n i, Written σ' t n i ↔ Written σ t n i := by
    intro t n i
    simp only [Written, hcalls]
  have hplace : ∀ t n i, Stored σ' t n i ∨ Written σ' t n i ↔
      (Stored σ t n i ∨ Written σ t n i) ∨ (t = threadId ∧ n = ns ∧ i = base.checkpointId c.checkpoint) := by
    intro t n i
    rw [stored_put hσ, hwritten]
    exact or_right_comm
  constructor
  case stored =>
    intro t n i c' hc'
    rw [Server.lookup_store, if_neg checkpointKey_ne_orderKey.symm, Server.lookup_store]
    rw [get_put hσ] at hc'
    split_ifs at hc' with h
    · obtain ⟨rfl, rfl, rfl⟩ := h
      obtain rfl := Option.some.inj hc'
      rw [if_pos rfl]
    · have hst : Stored σ t n i := Option.isSome_iff_exists.mpr ⟨c', hc'⟩
      rw [if_neg fun hk => h (halone t n i (.inl hst) hk.symm)]
      exact I.stored t n i c' hc'
  case order =>
    intro t n hocc
    rw [Server.lookup_store, hσ]
    by_cases h : t = threadId ∧ n = ns
    · obtain ⟨rfl, rfl⟩ := h
      have hrows : ((σ t n).checkpoints.push c).rows = c :: (σ t n).checkpoints.rows :=
        Table.push_rows_of_new (Option.not_isSome_iff_eq_none.mp hnew)
      rw [if_pos rfl, if_pos ⟨rfl, rfl⟩]
      show _ = some (Value.list (((σ t n).checkpoints.push c).rows.map _).reverse)
      rw [hrows, List.map_cons, List.reverse_cons]
    · have hocc' := ((occupied_put hσ).mp hocc).resolve_right h
      rw [if_neg fun hk => h (horder t n hocc' hk.symm), if_neg h, Server.lookup_store,
        if_neg checkpointKey_ne_orderKey]
      exact I.order t n hocc'
  case written =>
    intro t n i hw
    obtain ⟨d, hd, hh⟩ := I.written t n i ((hwritten t n i).mp hw)
    refine ⟨d, ?_, hcalls t n i ▸ hh⟩
    rw [Server.lookup_store, if_neg orderKey_ne_writesKey, Server.lookup_store, if_neg checkpointKey_ne_writesKey]
    exact hd
  case owned =>
    intro key hkey
    by_cases ho : orderKey threadId ns = key
    · exact ⟨threadId, .inr (.inl ⟨ns, (occupied_put hσ).mpr (.inr ⟨rfl, rfl⟩), ho.symm⟩)⟩
    · by_cases hk : checkpointKey threadId ns (base.checkpointId c.checkpoint) = key
      · exact ⟨threadId, .inl ⟨ns, _, (stored_put hσ).mpr (.inr ⟨rfl, rfl, rfl⟩), hk.symm⟩⟩
      · rw [Server.lookup_store, if_neg ho, Server.lookup_store, if_neg hk] at hkey
        obtain ⟨t, hown⟩ := I.owned key hkey
        exact ⟨t, hown.imp (fun n i h => (stored_put hσ).mpr (.inl h)) (fun n h => (occupied_put hσ).mpr (.inl h))
          fun n i => (hwritten t n i).mpr⟩
  case places => exact alone_of_added I.places halone fun huse => (hplace _ _ _).mp huse
  case spots =>
    intro t n hocc t' n' hocc' hk
    rcases (occupied_put hσ).mp hocc with ho | ⟨rfl, rfl⟩
    · rcases (occupied_put hσ).mp hocc' with ho' | ⟨rfl, rfl⟩
      · exact I.spots t n ho t' n' ho' hk
      · obtain ⟨h₁, h₂⟩ := horder t n ho hk.symm
        exact ⟨h₁.symm, h₂.symm⟩
    · rcases (occupied_put hσ).mp hocc' with ho' | ho'
      · exact horder t' n' ho' hk
      · exact ho'

section

variable {c : WritesCall O} {checkpointId : Text}

theorem callsAt_putWrites
    (hσ : ∀ t n, σ' t n = if t = threadId ∧ n = ns then (σ t n).apply (.putWrites c) else σ t n)
    (hid : c.config.checkpointId = some checkpointId) (t n i taskId : Text) :
    (σ' t n).callsAt i taskId =
      if t = threadId ∧ n = ns ∧ i = checkpointId then addCall ((σ t n).callsAt i) c taskId
      else (σ t n).callsAt i taskId := by
  rw [hσ]
  by_cases h : t = threadId ∧ n = ns
  · rw [if_pos h]
    show ((σ t n).writes ++ [c]).filter _ = _
    rw [List.filter_append]
    by_cases hi : i = checkpointId
    · rw [if_pos ⟨h.1, h.2, hi⟩, addCall]
      by_cases ht : taskId = c.taskId
      · rw [if_pos ht, List.filter_cons_of_pos (by simp [hid, hi, ht])]
        rfl
      · rw [if_neg ht, List.filter_cons_of_neg (by simp [Ne.symm ht]), List.filter_nil, List.append_nil]
        rfl
    · rw [if_neg fun hh => hi hh.2.2, List.filter_cons_of_neg (by simp [hid, Ne.symm hi]), List.filter_nil,
        List.append_nil]
      rfl
  · rw [if_neg h, if_neg fun hh => h ⟨hh.1, hh.2.1⟩]

theorem checkpoints_putWrites
    (hσ : ∀ t n, σ' t n = if t = threadId ∧ n = ns then (σ t n).apply (.putWrites c) else σ t n) (t n : Text) :
    (σ' t n).checkpoints = (σ t n).checkpoints := by
  rw [hσ]
  split_ifs <;> rfl

theorem stored_putWrites
    (hσ : ∀ t n, σ' t n = if t = threadId ∧ n = ns then (σ t n).apply (.putWrites c) else σ t n) {t n i : Text} :
    Stored σ' t n i ↔ Stored σ t n i := by
  rw [Stored, checkpoints_putWrites hσ, Stored]

theorem occupied_putWrites
    (hσ : ∀ t n, σ' t n = if t = threadId ∧ n = ns then (σ t n).apply (.putWrites c) else σ t n) {t n : Text} :
    Occupied σ' t n ↔ Occupied σ t n := by
  rw [Occupied, checkpoints_putWrites hσ, Occupied]

theorem Written.mono_putWrites
    (hσ : ∀ t n, σ' t n = if t = threadId ∧ n = ns then (σ t n).apply (.putWrites c) else σ t n)
    (hid : c.config.checkpointId = some checkpointId) {t n i : Text} (h : Written σ t n i) : Written σ' t n i := by
  obtain ⟨taskId, j, hj⟩ := h
  refine ⟨taskId, j, ?_⟩
  rw [callsAt_putWrites hσ hid]
  split_ifs
  · rw [addCall]
    split_ifs
    · exact pendingAt_concat_isSome hj c
    · exact hj
  · exact hj

theorem StoreInv.noWrites (I : StoreInv base σ w)
    (hσ : ∀ t n, σ' t n = if t = threadId ∧ n = ns then (σ t n).apply (.putWrites c) else σ t n)
    (hid : c.config.checkpointId = some checkpointId) (hc : c.writes = []) : StoreInv base σ' w := by
  have hpending : ∀ t n i taskId j, pendingAt base ((σ' t n).callsAt i taskId) j =
      pendingAt base ((σ t n).callsAt i taskId) j := by
    intro t n i taskId j
    rw [callsAt_putWrites hσ hid]
    split_ifs
    · rw [addCall]
      split_ifs
      · exact pendingAt_concat_nil _ hc j
      · rfl
    · rfl
  have hwritten : ∀ {t n i}, Written σ' t n i ↔ Written σ t n i := by
    intro t n i
    simp only [Written, hpending]
  have halone : ∀ {t n i}, Alone σ' t n i ↔ Alone σ t n i := by
    intro t n i
    simp only [Alone, stored_putWrites hσ, hwritten]
  constructor
  case stored =>
    intro t n i c' hc'
    rw [checkpoints_putWrites hσ] at hc'
    exact I.stored t n i c' hc'
  case order =>
    intro t n hocc
    rw [checkpoints_putWrites hσ]
    exact I.order t n ((occupied_putWrites hσ).mp hocc)
  case written =>
    intro t n i hw
    obtain ⟨d, hd, hh⟩ := I.written t n i (hwritten.mp hw)
    exact ⟨d, hd, hh.congr (hpending t n i)⟩
  case owned =>
    intro key hkey
    obtain ⟨t, hown⟩ := I.owned key hkey
    refine ⟨t, ?_⟩
    simpa only [Owns, stored_putWrites hσ, occupied_putWrites hσ, hwritten] using hown
  case places =>
    intro t n i huse
    rw [stored_putWrites hσ, hwritten] at huse
    exact halone.mpr (I.places t n i huse)
  case spots =>
    intro t n hocc
    simp only [OrderAlone, occupied_putWrites hσ] at hocc ⊢
    exact I.spots t n hocc

theorem StoreInv.addWrites (I : StoreInv base σ w)
    (hσ : ∀ t n, σ' t n = if t = threadId ∧ n = ns then (σ t n).apply (.putWrites c) else σ t n)
    (hid : c.config.checkpointId = some checkpointId) (halone : Alone σ threadId ns checkpointId)
    {w' : SaverServer B} (hframe : ∀ k, k ≠ writesKey threadId ns checkpointId → w'.lookup k = w.lookup k)
    {d : Dict Text (StoredWrite B)} (hd : w'.fieldsAt (writesKey threadId ns checkpointId) = some d)
    (hh : HoldsWrites base (addCall ((σ threadId ns).callsAt checkpointId) c) d)
    (hkept : w'.lookup (writesKey threadId ns checkpointId) ≠ none → d.names ≠ []) : StoreInv base σ' w' := by
  have hcalls := callsAt_putWrites hσ hid
  have hself : (σ' threadId ns).callsAt checkpointId = addCall ((σ threadId ns).callsAt checkpointId) c := by
    funext taskId
    rw [hcalls, if_pos ⟨rfl, rfl, rfl⟩]
  have hother : ∀ {t n i}, ¬ (t = threadId ∧ n = ns ∧ i = checkpointId) →
      (σ' t n).callsAt i = (σ t n).callsAt i := by
    intro t n i h
    funext taskId
    rw [hcalls, if_neg h]
  have hwritten : ∀ {t n i}, Written σ' t n i → Written σ t n i ∨ (t = threadId ∧ n = ns ∧ i = checkpointId) := by
    intro t n i hw
    by_cases h : t = threadId ∧ n = ns ∧ i = checkpointId
    · exact .inr h
    · rw [Written, hother h] at hw
      exact .inl hw
  have hplace : ∀ {t n i}, Stored σ' t n i ∨ Written σ' t n i →
      (Stored σ t n i ∨ Written σ t n i) ∨ (t = threadId ∧ n = ns ∧ i = checkpointId) := by
    intro t n i h
    rcases h with h | h
    · exact .inl (.inl ((stored_putWrites hσ).mp h))
    · exact (hwritten h).imp .inr id
  have hnames : d.names ≠ [] ↔ Written σ' threadId ns checkpointId := by
    rw [hh.names_ne_nil_iff, Written, hself]
  constructor
  case stored =>
    intro t n i c' hc'
    rw [checkpoints_putWrites hσ] at hc'
    exact (hframe _ checkpointKey_ne_writesKey).trans (I.stored t n i c' hc')
  case order =>
    intro t n hocc
    rw [checkpoints_putWrites hσ, hframe _ orderKey_ne_writesKey]
    exact I.order t n ((occupied_putWrites hσ).mp hocc)
  case written =>
    intro t n i hw
    by_cases h : t = threadId ∧ n = ns ∧ i = checkpointId
    · obtain ⟨rfl, rfl, rfl⟩ := h
      exact ⟨d, Server.lookup_of_fieldsAt hd (hnames.mpr hw), hself ▸ hh⟩
    · have hw' := (hwritten hw).resolve_right h
      obtain ⟨d₀, hd₀, hh₀⟩ := I.written t n i hw'
      refine ⟨d₀, (hframe _ ?_).trans hd₀, hother h ▸ hh₀⟩
      intro hk
      exact h (halone t n i (.inr hw') (writesKey_eq_iff.mp hk))
  case owned =>
    intro key hkey
    by_cases hk : key = writesKey threadId ns checkpointId
    · subst hk
      have hw := hnames.mp (hkept (Option.isSome_iff_ne_none.mp hkey))
      exact ⟨threadId, .inr (.inr ⟨ns, checkpointId, hw, rfl⟩)⟩
    · rw [hframe key hk] at hkey
      obtain ⟨t, hown⟩ := I.owned key hkey
      exact ⟨t, hown.imp (fun n i => (stored_putWrites hσ).mpr) (fun n => (occupied_putWrites hσ).mpr)
        fun n i h => h.mono_putWrites hσ hid⟩
  case places => exact alone_of_added I.places halone hplace
  case spots =>
    intro t n hocc
    simp only [OrderAlone, occupied_putWrites hσ] at hocc ⊢
    exact I.spots t n hocc

theorem StoreInv.putWrites (I : StoreInv base σ w)
    (hσ : ∀ t n, σ' t n = if t = threadId ∧ n = ns then (σ t n).apply (.putWrites c) else σ t n)
    (ht : c.config.threadId = threadId) (hn : c.config.checkpointNs.getD [] = ns)
    (hid : c.config.checkpointId = some checkpointId)
    (halone : c.writes ≠ [] → Alone σ threadId ns checkpointId) :
    (aputWrites base c).Meets saverExec (fun r w' => r = .ok () ∧ StoreInv base σ' w') w := by
  simp only [aputWrites, hid]
  rw [ht, hn]
  by_cases hc : c.writes = []
  · obtain ⟨d, hd⟩ := I.fieldsAt_writes threadId ns checkpointId
    refine Redis.meets_hkeys hd ?_
    intro existing _
    have hrows : (toSet base c existing).rows = [] := by
      rw [toSet, indexed, hc]
      rfl
    rw [if_pos hrows]
    exact ⟨rfl, I.noWrites hσ hid hc⟩
  · obtain ⟨d, hd, hh⟩ := I.fieldsAt_alone (halone hc)
    refine Redis.meets_hkeys hd ?_
    intro existing hex
    have hadd := hh.add (hh.mem_names hex c.taskId)
    by_cases hrows : (toSet base c existing).rows = []
    · rw [if_pos hrows]
      rw [Dict.merge_of_nil d hrows] at hadd
      refine ⟨rfl, I.addWrites hσ hid (halone hc) (fun _ _ => rfl) hd hadd ?_⟩
      intro hne
      obtain ⟨t', n', i', hs, hk⟩ := I.lookup_writes hne
      obtain ⟨rfl, rfl, rfl⟩ := halone hc t' n' i' (.inr hs) hk
      exact hh.names_ne_nil_iff.mpr hs
    · rw [if_neg hrows]
      refine Redis.meets_hset hd ⟨rfl, ?_⟩
      refine I.addWrites hσ hid (halone hc) ?_ (Server.fieldsAt_store_hash ..) hadd ?_
      · intro k hk
        rw [Server.lookup_store, if_neg hk.symm]
      · intro _
        exact Dict.names_merge_ne_nil d hrows

end

end

/-! Deletion. -/

theorem deleteKeys_meets {keys : List Text} {rest : SaverProg B Unit} {w : SaverServer B}
    {post : Unit → SaverServer B → Prop}
    (h : ∀ w', w'.unvisited = w.unvisited → (∀ k, w'.lookup k = if k ∈ keys then none else w.lookup k) →
      rest.Meets saverExec post w') : (deleteKeys keys rest).Meets saverExec post w := by
  unfold deleteKeys
  split_ifs with hkeys
  · refine h w rfl ?_
    intro k
    rw [hkeys, if_neg List.not_mem_nil]
  · refine Redis.meets_del (h _ rfl ?_)
    intro k
    rw [Server.lookup_remove]
    by_cases hk : k ∈ keys
    · rw [if_pos hk, if_pos hk]
    · rw [if_neg hk, if_neg hk]

/-- The keys that fit are those of the answers still to come. -/
def Covers (pattern : Text) (w : SaverServer B) (rest : List (List Text)) : Prop :=
  ∀ k, keyFits pattern k = true → w.lookup k ≠ none → k ∈ rest.flatten

/-- What is left of a scan deletes the keys that fit. -/
def Sweeps (pattern : Text) (w : SaverServer B) (p : SaverProg B Unit) : Prop :=
  p.Meets saverExec (fun _ w' => ∀ k, w'.lookup k = if keyFits pattern k = true then none else w.lookup k) w

theorem sweeps_answer {pattern : Text} {batch : List Text} {rest : List (List Text)} {w : SaverServer B}
    (hcover : Covers pattern w (batch :: rest))
    (hrest : rest ≠ [] → ∀ w' : SaverServer B, w'.unvisited = rest → Covers pattern w' rest →
      Sweeps pattern w' (sweep pattern rest.length)) :
    (deleteKeys (Redis.visit (keyFits pattern) w batch)
      (if _ : rest.length = 0 then .ret () else sweep pattern rest.length)).Meets saverExec
        (fun _ w' => ∀ k, w'.lookup k = if keyFits pattern k = true then none else w.lookup k)
        { w with unvisited := rest } := by
  refine deleteKeys_meets ?_
  intro w' hunvisited hlookup
  have hnot : ∀ k, keyFits pattern k ≠ true → w'.lookup k = w.lookup k := by
    intro k hfits
    rw [hlookup, if_neg fun hv => hfits (Redis.mem_visit_iff.mp hv).2.2]
    rfl
  have hcover' : Covers pattern w' rest := by
    intro k hfits hne
    rw [hlookup] at hne
    split_ifs at hne with hv
    · exact absurd rfl hne
    · have hmem := hcover k hfits hne
      rw [List.flatten_cons, List.mem_append] at hmem
      refine hmem.resolve_left ?_
      intro hb
      exact hv (Redis.mem_visit_iff.mpr ⟨hb, Option.isSome_iff_ne_none.mpr hne, hfits⟩)
  split_ifs with hzero
  · intro k
    split_ifs with hfits
    · by_contra hne
      have hmem := hcover' k hfits hne
      rw [List.length_eq_zero_iff.mp hzero] at hmem
      cases hmem
    · exact hnot k hfits
  · have hne : rest ≠ [] := fun he => hzero (by rw [he]; rfl)
    refine (hrest hne w' hunvisited hcover').mono ?_
    intro _ w'' hw'' k
    rw [hw'' k]
    split_ifs with hfits
    · rfl
    · exact hnot k hfits

theorem sweeps_rest {pattern : Text} {rest : List (List Text)} (hrest : rest ≠ []) {w : SaverServer B}
    (hw : w.unvisited = rest) (hcover : Covers pattern w rest) : Sweeps pattern w (sweep pattern rest.length) := by
  induction rest generalizing w with
  | nil => exact absurd rfl hrest
  | cons batch rest ih =>
    rw [Sweeps, sweep, List.length_cons]
    refine Redis.meets_scan_next hw rfl ?_
    intro _
    exact sweeps_answer hcover fun hne w' => ih hne

theorem adeleteThread_sweeps (threadId : Text) (w : SaverServer B) :
    Sweeps (deletePattern threadId) w (adeleteThread threadId) := by
  rw [Sweeps, adeleteThread, sweep]
  refine Redis.meets_scan_start ?_
  intro batch rest hsub
  refine sweeps_answer ?_ fun hne w' => sweeps_rest hne
  intro k _ hne
  exact hsub (Dict.mem_names_iff.mpr (Option.isSome_iff_ne_none.mpr hne))

theorem StoreInv.delete {base : CheckpointBase O B} {σ σ' : Shelves base} {w w' : SaverServer B} {threadId : Text}
    (I : StoreInv base σ w) (hσ : ∀ t n, σ' t n = if t = threadId then .empty else σ t n)
    (hsafe : ∀ t key, Owns σ t key → (keyFits (deletePattern threadId) key = true ↔ t = threadId))
    (hw : ∀ k, w'.lookup k = if keyFits (deletePattern threadId) k = true then none else w.lookup k) :
    StoreInv base σ' w' := by
  have hself : ∀ {t n}, t ≠ threadId → σ' t n = σ t n := by
    intro t n h
    rw [hσ, if_neg h]
  have hstored : ∀ {t n i}, Stored σ' t n i ↔ t ≠ threadId ∧ Stored σ t n i := by
    intro t n i
    rw [Stored, hσ]
    by_cases h : t = threadId
    · simp [h, Shelf.empty, Table.get, Table.empty]
    · simp [h, Stored]
  have hoccupied : ∀ {t n}, Occupied σ' t n ↔ t ≠ threadId ∧ Occupied σ t n := by
    intro t n
    rw [Occupied, hσ]
    by_cases h : t = threadId
    · simp [h, Shelf.empty, Table.empty]
    · simp [h, Occupied]
  have hwritten : ∀ {t n i}, Written σ' t n i ↔ t ≠ threadId ∧ Written σ t n i := by
    intro t n i
    rw [Written, hσ]
    by_cases h : t = threadId
    · simp [h, Shelf.empty, Shelf.callsAt, pendingAt]
    · simp [h, Written]
  have hkept : ∀ {t key}, Owns σ t key → t ≠ threadId → w'.lookup key = w.lookup key := by
    intro t key hown hne
    rw [hw, if_neg fun hfits => hne ((hsafe t key hown).mp hfits)]
  constructor
  case stored =>
    intro t n i c hc
    obtain ⟨hne, hst⟩ := hstored.mp (Option.isSome_iff_exists.mpr ⟨c, hc⟩)
    rw [hself hne] at hc
    exact (hkept (.inl ⟨n, i, hst, rfl⟩) hne).trans (I.stored t n i c hc)
  case order =>
    intro t n hocc
    obtain ⟨hne, hocc⟩ := hoccupied.mp hocc
    rw [hself hne]
    exact (hkept (.inr (.inl ⟨n, hocc, rfl⟩)) hne).trans (I.order t n hocc)
  case written =>
    intro t n i hwr
    obtain ⟨hne, hwr⟩ := hwritten.mp hwr
    rw [hself hne]
    obtain ⟨d, hd, hh⟩ := I.written t n i hwr
    exact ⟨d, (hkept (.inr (.inr ⟨n, i, hwr, rfl⟩)) hne).trans hd, hh⟩
  case owned =>
    intro key hkey
    rw [hw] at hkey
    split_ifs at hkey with hfits
    · cases hkey
    · obtain ⟨t, hown⟩ := I.owned key hkey
      have hne : t ≠ threadId := fun ht => hfits ((hsafe t key hown).mpr ht)
      exact ⟨t, hown.imp (fun n i h => hstored.mpr ⟨hne, h⟩) (fun n h => hoccupied.mpr ⟨hne, h⟩)
        fun n i h => hwritten.mpr ⟨hne, h⟩⟩
  case places =>
    intro t n i huse t' n' i' huse' hk
    rw [hstored, hwritten] at huse huse'
    exact I.places t n i (huse.imp And.right And.right) t' n' i' (huse'.imp And.right And.right) hk
  case spots =>
    intro t n hocc t' n' hocc' hk
    exact I.spots t n (hoccupied.mp hocc).2 t' n' (hoccupied.mp hocc').2 hk

/-! What is read. -/

/-- The tuple is the checkpoint, with its pending writes. -/
def IsSaved {base : CheckpointBase O B} (s : Shelf base) (threadId ns : Text) (c : PutCall O)
    (tup : CheckpointTuple O) : Prop :=
  ∃ ws, tup = savedTuple base threadId ns c ws ∧
    ∀ taskId, Pending base (s.callsAt (base.checkpointId c.checkpoint) taskId) taskId ws

def Gets {base : CheckpointBase O B} (s : Shelf base) (threadId ns : Text) (found : Option (PutCall O))
    (r : Except SaverError (Option (CheckpointTuple O))) : Prop :=
  match found with
  | none => r = .ok none
  | some c => ∃ tup, r = .ok (some tup) ∧ IsSaved s threadId ns c tup

def Lists {base : CheckpointBase O B} (s : Shelf base) (threadId ns : Text) (found : List (PutCall O))
    (r : Except SaverError (List (CheckpointTuple O))) : Prop :=
  ∃ tups, r = .ok tups ∧ List.Forall₂ (IsSaved s threadId ns) found tups

section

variable {base : CheckpointBase O B} {σ : Shelves base} {w : SaverServer B} {t n i : Text}

theorem StoreInv.readTuple_meets (I : StoreInv base σ w)
    (halone : ∀ t' n' i', Stored σ t' n' i' → checkpointKey t' n' i' = checkpointKey t n i →
      t' = t ∧ n' = n ∧ i' = i) :
    (readTuple base t n i).Meets saverExec
      (fun r w' => w' = w ∧ Gets (σ t n) t n ((σ t n).checkpoints.get i) r) w := by
  cases hget : (σ t n).checkpoints.get i with
  | none =>
    have hnot : ¬ Stored σ t n i := by
      rw [Stored, hget]
      exact Bool.false_ne_true
    exact readTuple_none (I.lookup_unstored halone hnot)
  | some c =>
    have hid : base.checkpointId c.checkpoint = i := by
      have hh := Table.get_key hget
      exact hh
    have hst : Stored σ t n i := Option.isSome_iff_exists.mpr ⟨c, hget⟩
    obtain ⟨d, hd, hh⟩ := I.fieldsAt_alone (I.places t n i (.inl hst))
    refine (AiPrReview.readTuple_meets hid (I.stored t n i c hget) hd hh).mono ?_
    intro r w' hr
    obtain ⟨rfl, ws, rfl, hws⟩ := hr
    exact ⟨rfl, _, rfl, ws, rfl, hid ▸ hws⟩

theorem StoreInv.readRow_meets (I : StoreInv base σ w) {c : PutCall O} (hc : c ∈ (σ t n).checkpoints.rows) :
    (readTuple base t n (base.checkpointId c.checkpoint)).Meets saverExec
      (fun r w' => w' = w ∧ Gets (σ t n) t n (some c) r) w := by
  have hget : (σ t n).checkpoints.get (base.checkpointId c.checkpoint) = some c :=
    Table.get_eq_some_iff.mpr ⟨hc, rfl⟩
  have hst : Stored σ t n (base.checkpointId c.checkpoint) := Option.isSome_iff_exists.mpr ⟨c, hget⟩
  have hread := I.readTuple_meets (t := t) (n := n) fun t' n' i' hs hk =>
    I.places t n _ (.inl hst) t' n' i' (.inl hs) hk
  rw [hget] at hread
  exact hread

theorem StoreInv.getLatest_meets (I : StoreInv base σ w) (halone : OrderAlone σ t n)
    (hne : ∀ c ∈ (σ t n).checkpoints.rows.head?, base.checkpointId c.checkpoint ≠ []) {config : Configurable}
    (ht : config.threadId = t) (hn : config.checkpointNs.getD [] = n) (hid : config.checkpointId = none) :
    (agetTuple base config).Meets saverExec
      (fun r w' => w' = w ∧ Gets (σ t n) t n (σ t n).checkpoints.rows.head? r) w := by
  simp only [agetTuple, hid, ht, hn, Prog.meets_bind_iff]
  refine (latestCheckpointId_meets (I.itemsAt_order halone)).mono ?_
  intro r w' hr
  obtain ⟨rfl, rfl⟩ := hr
  rw [List.getLast?_reverse, List.head?_map]
  cases hhead : (σ t n).checkpoints.rows.head? with
  | none => exact ⟨rfl, rfl⟩
  | some c =>
    rw [Option.map_some, Option.filter_some_pos (by simpa using hne c hhead)]
    exact I.readRow_meets (List.mem_of_mem_head? hhead)

theorem StoreInv.alistFrom_meets (I : StoreInv base σ w) (filter : O → Bool) (beforeId : Option Text)
    (limit : Option Int) {cs : List (PutCall O)} (hcs : ∀ c ∈ cs, c ∈ (σ t n).checkpoints.rows) {count : Int}
    (hlimit : (∀ m ∈ limit, count < m) ∨ cs.filter (Shelf.passes base filter beforeId) = []) :
    (alistFrom base t n filter beforeId limit (cs.map fun c => base.checkpointId c.checkpoint) count).Meets saverExec
      (fun r w' => w' = w ∧ Lists (σ t n) t n
        (Shelf.upTo (limit.map (· - count)) (cs.filter (Shelf.passes base filter beforeId))) r) w := by
  induction cs generalizing count with
  | nil =>
    refine ⟨rfl, [], rfl, ?_⟩
    cases limit <;> simp [Shelf.upTo]
  | cons c cs ih =>
    have hcs' : ∀ c ∈ cs, c ∈ (σ t n).checkpoints.rows := fun c' hc' => hcs c' (by simp [hc'])
    have hread := I.readRow_meets (hcs c (by simp))
    rw [List.map_cons, alistFrom]
    -- a checkpoint that fails a test changes nothing
    have hskip : Shelf.passes base filter beforeId c = false →
        (alistFrom base t n filter beforeId limit (cs.map fun c => base.checkpointId c.checkpoint) count).Meets
          saverExec (fun r w' => w' = w ∧ Lists (σ t n) t n (Shelf.upTo (limit.map (· - count))
            ((c :: cs).filter (Shelf.passes base filter beforeId))) r) w := by
      intro hfail
      rw [List.filter_cons_of_neg (by simp [hfail])] at hlimit ⊢
      exact ih hcs' hlimit
    by_cases hbefore : (beforeId.any fun b => b ≠ [] && b ≤ base.checkpointId c.checkpoint) = true
    · rw [if_pos hbefore]
      refine hskip ?_
      rw [Shelf.passes_eq, hbefore]
      rfl
    · rw [if_neg hbefore, Prog.meets_bind_iff]
      show (readTuple base t n _).Meets _ _ _
      refine hread.mono ?_
      intro r w' hr
      obtain ⟨rfl, tup, rfl, htup⟩ := hr
      have hpasses : Shelf.passes base filter beforeId c = filter tup.metadata := by
        obtain ⟨ws, rfl, _⟩ := htup
        rw [Shelf.passes_eq, Bool.eq_false_iff.mpr hbefore]
        rfl
      dsimp only
      by_cases hfilter : filter tup.metadata = true
      · rw [if_pos hfilter]
        have hpos : (c :: cs).filter (Shelf.passes base filter beforeId) =
            c :: cs.filter (Shelf.passes base filter beforeId) :=
          List.filter_cons_of_pos (hpasses.trans hfilter)
        have hbound : ∀ m ∈ limit, count < m := hlimit.resolve_right (by rw [hpos]; exact List.cons_ne_nil _ _)
        rw [hpos]
        by_cases hlast : (limit.any (· ≤ count + 1)) = true
        · rw [if_pos hlast]
          refine ⟨rfl, [tup], rfl, ?_⟩
          rw [Shelf.upTo_cons_of_last hbound hlast]
          exact .cons htup .nil
        · rw [if_neg hlast, Prog.meets_bind_iff]
          have hnext : ∀ m ∈ limit, count + 1 < m := by
            intro m hm
            obtain rfl := hm
            simpa using hlast
          refine (ih hcs' (.inl hnext)).mono ?_
          intro r w' hr
          obtain ⟨rfl, tups, rfl, htups⟩ := hr
          refine ⟨rfl, tup :: tups, rfl, ?_⟩
          rw [Shelf.upTo_cons_of_next hnext]
          exact .cons htup htups
      · rw [if_neg hfilter]
        exact hskip (hpasses.trans (Bool.eq_false_iff.mpr hfilter))

end

/-- What an operation is to do, said of the stores. -/
def SaverOp.Faithful {base : CheckpointBase O B} (σ : Shelves base) (w : SaverServer B) : SaverOp O → Prop
  | put c => (aput base c).Meets saverExec (fun r _ => ∀ ns, c.config.checkpointNs = some ns →
      r = .ok ⟨c.config.threadId, ns, base.checkpointId c.checkpoint⟩) w
  | putWrites c => (aputWrites base c).Meets saverExec (fun r _ => c.config.checkpointId ≠ none → r = .ok ()) w
  | get config =>
    let ns := config.checkpointNs.getD []
    let s := σ config.threadId ns
    (agetTuple base config).Meets saverExec (fun r _ => Gets s config.threadId ns
      (match config.checkpointId with
        | some checkpointId => s.checkpoints.get checkpointId
        | none => s.checkpoints.rows.head?) r) w
  | list none filter before limit => (alist base none filter before limit).Meets saverExec (fun r _ => r = .ok []) w
  | list (some config) filter before limit =>
    let ns := config.checkpointNs.getD []
    let s := σ config.threadId ns
    (alist base (some config) filter before limit).Meets saverExec
      (fun r _ => Lists s config.threadId ns (s.listed filter before limit) r) w
  | delete threadId => (adeleteThread threadId).Meets saverExec (fun _ w' =>
      (∀ t key, Owns σ t key → w'.lookup key = if t = threadId then none else w.lookup key) ∧
        ∀ key, (w'.lookup key).isSome → ∃ t, t ≠ threadId ∧ Owns σ t key) w

section

variable {base : CheckpointBase O B} {ops : List (SaverOp O)} {w w' : SaverServer B}

theorem StoreInv.aput_meets (I : StoreInv base (shelf base ops) w) {c : PutCall O} {ns : Text}
    (hns : c.config.checkpointNs = some ns) (hsafe : (SaverOp.put c).Safe (shelf base ops)) :
    (aput base c).Meets saverExec (fun r w' =>
      r = .ok ⟨c.config.threadId, ns, base.checkpointId c.checkpoint⟩ ∧
        StoreInv base (shelf base (ops ++ [.put c])) w') w := by
  obtain ⟨hnew, halone, horder⟩ := hsafe ns hns
  simp only [aput, hns]
  refine Redis.meets_set (Redis.meets_rpush ((Server.itemsAt_store _ checkpointKey_ne_orderKey _).trans
    (I.itemsAt_order horder)) ⟨rfl, ?_⟩)
  refine I.put (shelf_concat_of ?_) hnew halone horder
  intro t n
  simp only [SaverOp.concerns, hns, Bool.and_eq_true, beq_iff_eq, Option.some.injEq]

theorem StoreInv.aputWrites_meets (I : StoreInv base (shelf base ops) w) {c : WritesCall O} {checkpointId : Text}
    (hid : c.config.checkpointId = some checkpointId) (hsafe : (SaverOp.putWrites c).Safe (shelf base ops)) :
    (aputWrites base c).Meets saverExec
      (fun r w' => r = .ok () ∧ StoreInv base (shelf base (ops ++ [.putWrites c])) w') w := by
  refine I.putWrites (shelf_concat_of ?_) rfl rfl hid fun hc => hsafe hc checkpointId hid
  intro t n
  simp only [SaverOp.concerns, Configurable.isOf, hid, Bool.and_eq_true, beq_iff_eq, Option.isSome_some, and_true]

theorem StoreInv.get_faithful (I : StoreInv base (shelf base ops) w) {config : Configurable}
    (hsafe : (SaverOp.get config : SaverOp O).Safe (shelf base ops)) :
    (agetTuple base config).Meets saverExec (fun r w' => w' = w ∧
      Gets (shelf base ops config.threadId (config.checkpointNs.getD [])) config.threadId
        (config.checkpointNs.getD [])
        (match config.checkpointId with
          | some checkpointId =>
            (shelf base ops config.threadId (config.checkpointNs.getD [])).checkpoints.get checkpointId
          | none => (shelf base ops config.threadId (config.checkpointNs.getD [])).checkpoints.rows.head?) r) w := by
  cases hid : config.checkpointId with
  | none =>
    simp only [SaverOp.Safe, hid] at hsafe
    exact I.getLatest_meets hsafe.1 hsafe.2 rfl rfl hid
  | some checkpointId =>
    simp only [SaverOp.Safe, hid] at hsafe
    simp only [agetTuple, hid]
    exact I.readTuple_meets hsafe

theorem StoreInv.list_faithful (I : StoreInv base (shelf base ops) w) {config : Configurable} {filter : O → Bool}
    {before : Option Configurable} {limit : Option Int}
    (hsafe : (SaverOp.list (some config) filter before limit).Safe (shelf base ops)) :
    (alist base (some config) filter before limit).Meets saverExec (fun r w' => w' = w ∧
      Lists (shelf base ops config.threadId (config.checkpointNs.getD [])) config.threadId
        (config.checkpointNs.getD [])
        ((shelf base ops config.threadId (config.checkpointNs.getD [])).listed filter before limit) r) w := by
  obtain ⟨halone, hlimit⟩ := hsafe config rfl
  refine Redis.meets_lrange (I.itemsAt_order halone) ?_
  rw [List.reverse_reverse]
  refine (I.alistFrom_meets filter _ limit (fun c hc => hc) hlimit).mono ?_
  intro r w' hr
  simp only [Int.sub_zero, Option.map_id'] at hr
  exact hr

theorem StoreInv.delete_faithful (I : StoreInv base (shelf base ops) w) {threadId : Text}
    (hsafe : (SaverOp.delete threadId : SaverOp O).Safe (shelf base ops)) :
    (adeleteThread threadId).Meets saverExec (fun _ w' =>
      StoreInv base (shelf base (ops ++ [.delete threadId])) w' ∧
        (∀ t key, Owns (shelf base ops) t key → w'.lookup key = if t = threadId then none else w.lookup key) ∧
        ∀ key, (w'.lookup key).isSome → ∃ t, t ≠ threadId ∧ Owns (shelf base ops) t key) w := by
  refine (adeleteThread_sweeps threadId w).mono ?_
  intro _ w' hw'
  have hkeys : ∀ t key, Owns (shelf base ops) t key →
      w'.lookup key = if t = threadId then none else w.lookup key := by
    intro t key hown
    rw [hw']
    by_cases ht : t = threadId
    · rw [if_pos ((hsafe t key hown).mpr ht), if_pos ht]
    · rw [if_neg fun hfits => ht ((hsafe t key hown).mp hfits), if_neg ht]
  refine ⟨I.delete ?_ hsafe hw', hkeys, ?_⟩
  · intro t n
    rw [shelf_concat]
    by_cases ht : t = threadId
    · subst ht
      rw [if_pos (by simp [SaverOp.concerns]), if_pos rfl]
      rfl
    · rw [if_neg (by simpa [SaverOp.concerns] using Ne.symm ht), if_neg ht]
  · intro key hkey
    have hbefore : (w.lookup key).isSome := by
      rw [hw'] at hkey
      split_ifs at hkey
      · cases hkey
      · exact hkey
    obtain ⟨t, hown⟩ := I.owned key hbefore
    refine ⟨t, ?_, hown⟩
    intro ht
    rw [hkeys t key hown, if_pos ht] at hkey
    cases hkey

theorem StoreInv.step (I : StoreInv base (shelf base ops) w) {op : SaverOp O} (hsafe : op.Safe (shelf base ops))
    (h : op.Completes base w w') : StoreInv base (shelf base (ops ++ [op])) w' := by
  cases op with
  | put c =>
    obtain ⟨r, hr⟩ := h
    cases hns : c.config.checkpointNs with
    | none =>
      simp only [aput, hns] at hr
      obtain ⟨_, rfl⟩ := Prog.completes_ret_iff.mp hr
      rw [shelf_concat_none fun t n hc => by simp [SaverOp.concerns, hns] at hc]
      exact I
    | some ns => exact ((I.aput_meets hns hsafe).of_completes hr).2
  | putWrites c =>
    obtain ⟨r, hr⟩ := h
    cases hid : c.config.checkpointId with
    | none =>
      simp only [aputWrites, hid] at hr
      obtain ⟨_, rfl⟩ := Prog.completes_ret_iff.mp hr
      rw [shelf_concat_none fun t n hc => by simp [SaverOp.concerns, hid] at hc]
      exact I
    | some checkpointId => exact ((I.aputWrites_meets hid hsafe).of_completes hr).2
  | get config =>
    obtain ⟨r, hr⟩ := h
    obtain ⟨rfl, _⟩ := (I.get_faithful hsafe).of_completes hr
    rw [shelf_concat_none fun _ _ _ _ => rfl]
    exact I
  | list config filter before limit =>
    obtain ⟨r, hr⟩ := h
    cases config with
    | none =>
      obtain ⟨_, rfl⟩ := Prog.completes_ret_iff.mp hr
      rw [shelf_concat_none fun _ _ _ _ => rfl]
      exact I
    | some config =>
      obtain ⟨rfl, _⟩ := (I.list_faithful hsafe).of_completes hr
      rw [shelf_concat_none fun _ _ _ _ => rfl]
      exact I
  | delete threadId =>
    obtain ⟨r, hr⟩ := h
    exact ((I.delete_faithful hsafe).of_completes hr).1

theorem SaverRun.inv (h : SaverRun base ops w) : StoreInv base (shelf base ops) w := by
  induction h with
  | nil => exact storeInv_nil base
  | concat op _ hsafe hop ih => exact ih.step hsafe hop

end

/-- In a sequence of calls that all meet the condition, every call that meets it
does what the stores say: what it reads for a thread and namespace depends on the
calls on these alone, a listing gives every checkpoint once, the newest first, and
a deletion takes the keys of its thread and no other. -/
theorem saver_refines_store {base : CheckpointBase O B} {ops : List (SaverOp O)} {w : SaverServer B}
    (hrun : SaverRun base ops w) {op : SaverOp O} (hsafe : op.Safe (shelf base ops)) :
    op.Faithful (shelf base ops) w := by
  have I := hrun.inv
  cases op with
  | put c =>
    show (aput base c).Meets _ _ w
    cases hns : c.config.checkpointNs with
    | none =>
      simp only [aput, hns]
      intro ns h
      cases h
    | some ns =>
      refine (I.aput_meets hns hsafe).mono ?_
      intro r _ hr ns' h
      obtain rfl := Option.some.inj h
      exact hr.1
  | putWrites c =>
    show (aputWrites base c).Meets _ _ w
    cases hid : c.config.checkpointId with
    | none =>
      simp only [aputWrites, hid]
      intro h
      exact absurd rfl h
    | some checkpointId => exact (I.aputWrites_meets hid hsafe).mono fun _ _ h _ => h.1
  | get config => exact (I.get_faithful hsafe).mono fun _ _ h => h.2
  | list config filter before limit =>
    cases config with
    | none => exact rfl
    | some config => exact (I.list_faithful hsafe).mono fun _ _ h => h.2
  | delete threadId => exact (I.delete_faithful hsafe).mono fun _ _ h => h.2

/-! A thread id without the special bytes of a pattern. -/

theorem utf8_append (t u : Text) : utf8 (t ++ u) = utf8 t ++ utf8 u := List.flatMap_append

/-- The pattern of such a deletion fits the texts with the id between colons after the prefix. -/
theorem keyFits_deletePattern {threadId key : Text} (h : ∀ b ∈ utf8 threadId, Redis.Ordinary b) :
    keyFits (deletePattern threadId) key = true ↔
      ∃ u v, utf8 key = utf8 (checkpointPrefix ++ [':']) ++ u ++ utf8 (':' :: threadId ++ [':']) ++ v := by
  have hparts : deletePattern threadId =
      checkpointPrefix ++ [':'] ++ ['*'] ++ (':' :: threadId ++ [':']) ++ ['*'] := by
    simp [deletePattern]
  have hstar : utf8 ['*'] = [Redis.starByte] := by decide
  have hpattern : utf8 (deletePattern threadId) = utf8 (checkpointPrefix ++ [':']) ++ Redis.starByte ::
      (utf8 (':' :: threadId ++ [':']) ++ [Redis.starByte]) := by
    rw [hparts, utf8_append, utf8_append, utf8_append _ ['*'], hstar]
    simp only [List.append_assoc, List.cons_append, List.nil_append]
  have hpre : ∀ b ∈ utf8 (checkpointPrefix ++ [':']), Redis.Ordinary b := by decide +kernel
  have hcolon : ∀ b ∈ utf8 [':'], Redis.Ordinary b := by decide +kernel
  have hmid : ∀ b ∈ utf8 (':' :: threadId ++ [':']), Redis.Ordinary b := by
    intro b hb
    rw [← List.singleton_append, List.append_assoc, utf8_append, utf8_append, List.mem_append, List.mem_append] at hb
    rcases hb with hb | hb | hb
    · exact hcolon b hb
    · exact h b hb
    · exact hcolon b hb
  rw [keyFits, hpattern, Redis.glob_between hpre hmid]

theorem keyFits_owned {base : CheckpointBase O B} {σ : Shelves base} {threadId key : Text}
    (h : ∀ b ∈ utf8 threadId, Redis.Ordinary b) (hown : Owns σ threadId key) :
    keyFits (deletePattern threadId) key = true := by
  obtain ⟨kind, rest, rfl⟩ : ∃ kind rest : Text,
      key = checkpointPrefix ++ [':'] ++ kind ++ (':' :: threadId ++ [':']) ++ rest := by
    rcases hown with ⟨n, i, _, rfl⟩ | ⟨n, _, rfl⟩ | ⟨n, i, _, rfl⟩
    · exact ⟨"cp".toList, n ++ ':' :: i, by simp [checkpointKey]⟩
    · exact ⟨"order".toList, n, by simp [orderKey]⟩
    · exact ⟨"writes".toList, n ++ ':' :: i, by simp [writesKey]⟩
  rw [keyFits_deletePattern h]
  exact ⟨utf8 kind, utf8 rest, by rw [utf8_append, utf8_append, utf8_append _ kind]⟩

/-- For such an id a deletion is safe when no key of another thread has the id between colons. -/
theorem safe_delete_iff {base : CheckpointBase O B} {σ : Shelves base} {threadId : Text}
    (h : ∀ b ∈ utf8 threadId, Redis.Ordinary b) :
    (SaverOp.delete threadId : SaverOp O).Safe σ ↔ ∀ t key, t ≠ threadId → Owns σ t key →
      ¬ ∃ u v, utf8 key = utf8 (checkpointPrefix ++ [':']) ++ u ++ utf8 (':' :: threadId ++ [':']) ++ v := by
  simp only [SaverOp.Safe, ← keyFits_deletePattern h]
  constructor
  · intro hs t key hne hown hfits
    exact hne ((hs t key hown).mp hfits)
  · intro hs t key hown
    constructor
    · intro hfits
      by_contra hne
      exact hs t key hne hown hfits
    · intro ht
      exact keyFits_owned h (ht ▸ hown)

/-! Runs on the calls of a few threads. -/

def playPuts (calls : List (PutCall (Text × Nat))) : Option (SaverServer (Text × Nat)) :=
  calls.foldlM (fun w c => ((aput plainBase c).complete saverExec (.order []) w).map Prod.snd) .empty

theorem saver_refines_store_listing : ∃ w,
    SaverRun plainBase [.put (putOf "t".toList [] "1".toList 1)] w ∧
      (SaverOp.list (some ⟨"t".toList, none, none⟩) (fun _ => true) none (some 1)).Faithful
        (shelf plainBase [.put (putOf "t".toList [] "1".toList 1)]) w := by
  have hunused : ∀ t n i, ¬ (Stored (shelf plainBase []) t n i ∨ Written (shelf plainBase []) t n i) := by
    intro t n i h
    rcases h with h | ⟨taskId, j, hj⟩
    · cases h
    · simp [shelf, Shelf.callsAt, Shelf.empty, pendingAt] at hj
  have hput : (SaverOp.put (putOf "t".toList [] "1".toList 1)).Safe (shelf plainBase []) := by
    intro ns _
    exact ⟨fun h => hunused _ _ _ (.inl h), fun t n i h => absurd h (hunused t n i), fun t n h => absurd rfl h⟩
  have hσ : ∀ t n, shelf plainBase [.put (putOf "t".toList [] "1".toList 1)] t n =
      if t = "t".toList ∧ n = [] then (shelf plainBase [] t n).apply (.put (putOf "t".toList [] "1".toList 1))
      else shelf plainBase [] t n := by
    refine @shelf_concat_of _ _ plainBase [] _ _ _ ?_
    simp [SaverOp.concerns, putOf, Bool.and_eq_true]
  have hlist : (SaverOp.list (some ⟨"t".toList, none, none⟩) (fun _ => true) none (some 1)).Safe
      (shelf plainBase [.put (putOf "t".toList [] "1".toList 1)]) := by
    intro c hc
    obtain rfl := Option.some.inj hc
    refine ⟨?_, .inl ?_⟩
    · intro t n hocc _
      exact ((occupied_put hσ).mp hocc).resolve_left fun h => h rfl
    · intro m hm
      obtain rfl := Option.some.inj hm
      decide
  obtain ⟨w, hw⟩ : ∃ w, ((aput plainBase (putOf "t".toList [] "1".toList 1)).complete saverExec (.order [])
      .empty).map Prod.snd = some w := ⟨_, rfl⟩
  obtain ⟨⟨r, w'⟩, hr, rfl⟩ := Option.map_eq_some_iff.mp hw
  have hrun : SaverRun plainBase ([] ++ [.put (putOf "t".toList [] "1".toList 1)]) w' :=
    .concat _ .nil hput ⟨r, Prog.completes_of_complete hr⟩
  exact ⟨w', hrun, saver_refines_store hrun hlist⟩

def checkpointsOf : Except SaverError (List (CheckpointTuple (Text × Nat))) → List (Text × Nat)
  | .ok tups => tups.map CheckpointTuple.checkpoint
  | .error _ => []

/-- A checkpoint put under one thread and namespace is read under another; an id
put again is listed twice; the limit 0 gives one checkpoint; and the deletion of
one thread takes the checkpoint of another. -/
theorem saver_mixes_threads :
    (∃ w ∈ playPuts [putOf "a".toList "b:c".toList "1".toList 1],
      ((agetTuple plainBase ⟨"a:b".toList, some "c".toList, some "1".toList⟩).complete saverExec (.order []) w).map
        (fun x => latestOf x.1) = some (some ("1".toList, 1))) ∧
    (∃ w ∈ playPuts [putOf "t".toList [] "1".toList 1, putOf "t".toList [] "1".toList 2],
      ((alist plainBase (some ⟨"t".toList, none, none⟩) (fun _ => true) none none).complete saverExec (.order [])
        w).map (fun x => checkpointsOf x.1) = some [("1".toList, 2), ("1".toList, 2)]) ∧
    (∃ w ∈ playPuts [putOf "t".toList [] "1".toList 1],
      ((alist plainBase (some ⟨"t".toList, none, none⟩) (fun _ => true) none (some 0)).complete saverExec (.order [])
        w).map (fun x => checkpointsOf x.1) = some [("1".toList, 1)]) ∧
    ∃ w ∈ playPuts [putOf "review:x".toList [] "1".toList 1],
      (w.lookup (checkpointKey "review:x".toList [] "1".toList)).isSome ∧
        (adeleteThread "x".toList).Meets saverExec
          (fun _ w' => w'.lookup (checkpointKey "review:x".toList [] "1".toList) = none) w := by
  refine ⟨by decide +kernel, by decide +kernel, by decide +kernel, ?_⟩
  obtain ⟨w, hw, hsome⟩ : ∃ w ∈ playPuts [putOf "review:x".toList [] "1".toList 1],
      (w.lookup (checkpointKey "review:x".toList [] "1".toList)).isSome := by
    decide +kernel
  refine ⟨w, hw, hsome, (adeleteThread_sweeps "x".toList w).mono ?_⟩
  intro _ w' hw'
  have hfits : keyFits (deletePattern "x".toList) (checkpointKey "review:x".toList [] "1".toList) = true := by
    decide +kernel
  rw [hw', if_pos hfits]

end AiPrReview
