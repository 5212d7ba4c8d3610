import AiPrReview.Pool
import AiPrReview.Table
import Mathlib.Data.List.Count

/-! Writers of one table under READ COMMITTED. A statement sees the rows that
were committed when it started and its own; a row that another writer has
deleted, updated or inserted blocks a statement that wants to change it. At its
end a writer counts the rows of interest, saves the count in a row that all
writers share, and commits. -/

namespace AiPrReview.ReadCommitted

/-- The statements that change the table. A row is found by its key, and an
update keeps the key. -/
inductive Statement {α κ : Type} (key : α → κ) : Type where
  | delete (p : κ → Bool)
  | upsert (a : α) (f : α → α) (hf : ∀ b, key (f b) = key b)

inductive Phase : Type where
  | writing
  | counted (total rowsThen : Nat)
  | saved (total rowsThen : Nat)
  | committed

/-- A writer: what is left to do, the rows that a started DELETE has seen, and
what only it sees so far. Rows of the table have an id of their own. -/
structure Writer {α κ : Type} (key : α → κ) (σ : Type) : Type where
  todo : List (Statement key)
  seen : Option (List Nat)
  deleted : List Nat
  updated : List (Nat × {f : α → α // ∀ b, key (f b) = key b})
  inserted : List α
  phase : Phase
  save : Nat → σ

/-- The committed state, and for each commit how many rows of interest there
were when the writer counted and when it committed. -/
structure Store (α σ : Type) : Type where
  rows : List (Nat × α)
  nextId : Nat
  saved : Option σ
  commits : List (Nat × Nat)
  ids_nodup : (rows.map Prod.fst).Nodup
  ids_lt : ∀ r ∈ rows, r.1 < nextId

/-- Before any of the writers has begun. -/
def Store.opened {α σ : Type} (rows : List α) (saved : Option σ) : Store α σ where
  rows := rows.zipIdx.map Prod.swap
  nextId := rows.length
  saved := saved
  commits := []
  ids_nodup := by
    have hids : (rows.zipIdx.map Prod.swap).map Prod.fst = rows.zipIdx.map Prod.snd := by simp [Function.comp_def]
    rw [hids, List.zipIdx_map_snd]
    exact List.nodup_range' ..
  ids_lt := by
    intro r hr
    obtain ⟨x, hx, rfl⟩ := List.mem_map.mp hr
    simpa using List.snd_lt_of_mem_zipIdx hx

variable {α κ σ : Type} {key : α → κ}

namespace Writer

def start (todo : List (Statement key)) (save : Nat → σ) : Writer key σ :=
  ⟨todo, none, [], [], [], .writing, save⟩

def locks (w : Writer key σ) : List Nat := w.deleted ++ w.updated.map Prod.fst

def isSaved (w : Writer key σ) : Bool :=
  match w.phase with
  | .saved .. => true
  | _ => false

def current (w : Writer key σ) (r : Nat × α) : α :=
  (w.updated.filter fun u => u.1 = r.1).foldl (fun a u => u.2.1 a) r.2

/-- The committed rows that the writer still sees, as it sees them. -/
def kept (w : Writer key σ) (rows : List (Nat × α)) : List (Nat × α) :=
  (rows.filter fun r => r.1 ∉ w.deleted).map fun r => (r.1, w.current r)

def view (w : Writer key σ) (rows : List (Nat × α)) : List α := (w.kept rows).map Prod.snd ++ w.inserted

end Writer

def rowsOf (interest : κ → Bool) (key : α → κ) (rows : List (Nat × α)) : Nat :=
  rows.countP fun r => interest (key r.2)

/-- The rows after a commit; rows that were inserted get new ids. -/
def Store.commit (s : Store α σ) (w : Writer key σ) (interest : κ → Bool) (total rowsThen : Nat) : Store α σ where
  rows := w.kept s.rows ++ w.inserted.zipIdx.map fun x => (s.nextId + x.2, x.1)
  nextId := s.nextId + w.inserted.length
  saved := some (w.save total)
  commits := s.commits ++ [(rowsThen, rowsOf interest key s.rows)]
  ids_nodup := by
    have hkept : (w.kept s.rows).map Prod.fst = (s.rows.filter fun r => r.1 ∉ w.deleted).map Prod.fst := by
      simp [Writer.kept, Function.comp_def]
    have hnew : (w.inserted.zipIdx.map fun x => (s.nextId + x.2, x.1)).map Prod.fst =
        (List.range' 0 w.inserted.length).map (s.nextId + ·) := by
      rw [← List.zipIdx_map_snd, List.map_map, List.map_map]
      rfl
    rw [List.map_append, hkept, hnew, List.nodup_append]
    have hrange : ((List.range' 0 w.inserted.length).map (s.nextId + ·)).Nodup :=
      List.Nodup.map (fun _ _ h => Nat.add_left_cancel h) (List.nodup_range' ..)
    refine ⟨(List.filter_sublist.map _).nodup s.ids_nodup, hrange, ?_⟩
    intro id hid id' hid' he
    obtain ⟨r, hr, rfl⟩ := List.mem_map.mp hid
    obtain ⟨i, _, rfl⟩ := List.mem_map.mp hid'
    have hlt := s.ids_lt r (List.mem_filter.mp hr).1
    omega
  ids_lt := by
    intro r hr
    rcases List.mem_append.mp hr with hr | hr
    · obtain ⟨r', hr', rfl⟩ := List.mem_map.mp hr
      exact Nat.lt_add_right _ (s.ids_lt r' (List.mem_filter.mp hr').1)
    · obtain ⟨x, hx, rfl⟩ := List.mem_map.mp hr
      exact Nat.add_lt_add_left (List.snd_lt_of_mem_zipIdx hx) _

/-! What a writer keeps out of the others' sight, in numbers. -/

section

variable (interest : κ → Bool)

def lockedRows (rows : List (Nat × α)) (w : Writer key σ) : Nat :=
  rows.countP fun r => r.1 ∈ w.deleted && interest (key r.2)

def ownRows (w : Writer key σ) : Nat := w.inserted.countP fun a => interest (key a)

variable {interest}

theorem Writer.key_current (w : Writer key σ) (r : Nat × α) : key (w.current r) = key r.2 := by
  have hfold : ∀ (l : List (Nat × {f : α → α // ∀ b, key (f b) = key b})) (a : α),
      key (l.foldl (fun a u => u.2.1 a) a) = key a := by
    intro l
    induction l with
    | nil => simp
    | cons u l ih =>
      intro a
      rw [List.foldl_cons, ih, u.2.2]
  exact hfold _ _

theorem rowsOf_kept (w : Writer key σ) (rows : List (Nat × α)) :
    rowsOf interest key (w.kept rows) + lockedRows interest rows w = rowsOf interest key rows := by
  induction rows with
  | nil => rfl
  | cons r rows ih =>
    simp only [rowsOf, Writer.kept, lockedRows, List.filter_cons, List.countP_cons, Bool.and_eq_true,
      decide_eq_true_eq] at ih ⊢
    by_cases hd : r.1 ∈ w.deleted
    · simp only [hd, not_true, if_false, true_and]
      omega
    · simp only [hd, not_false_eq_true, if_true, List.map_cons, List.countP_cons, false_and, if_false, w.key_current]
      omega

theorem count_view (w : Writer key σ) (rows : List (Nat × α)) :
    (w.view rows).countP (fun a => interest (key a)) + lockedRows interest rows w =
      rowsOf interest key rows + ownRows interest w := by
  rw [← rowsOf_kept w rows, Writer.view, List.countP_append, List.countP_map]
  simp only [rowsOf, ownRows, Function.comp_def]
  omega

theorem rowsOf_commit (s : Store α σ) (w : Writer key σ) (total rowsThen : Nat) :
    rowsOf interest key (s.commit w interest total rowsThen).rows + lockedRows interest s.rows w =
      rowsOf interest key s.rows + ownRows interest w := by
  have hnew : (w.inserted.zipIdx.map fun x => (s.nextId + x.2, x.1)).countP (fun r => interest (key r.2)) =
      ownRows interest w := by
    rw [List.countP_map, ownRows]
    conv_rhs => rw [← List.zipIdx_map_fst 0 w.inserted, List.countP_map]
    rfl
  have hkept : rowsOf interest key (w.kept s.rows) + lockedRows interest s.rows w = rowsOf interest key s.rows :=
    rowsOf_kept w s.rows
  rw [rowsOf] at hkept
  rw [rowsOf, Store.commit, List.countP_append, hnew]
  omega

/-- A commit leaves the rows that another writer has deleted where they are. -/
theorem lockedRows_commit {s : Store α σ} {w u : Writer key σ} {total rowsThen : Nat}
    (hapart : ∀ id ∈ w.locks, id ∉ u.locks) (hfresh : ∀ id ∈ u.locks, id < s.nextId) :
    lockedRows interest (s.commit w interest total rowsThen).rows u = lockedRows interest s.rows u := by
  have hdel : ∀ id ∈ u.deleted, id ∉ w.deleted := by
    intro id hu hw
    exact hapart id (List.mem_append_left _ hw) (List.mem_append_left _ hu)
  have hnew : (w.inserted.zipIdx.map fun x => (s.nextId + x.2, x.1)).countP
      (fun r => r.1 ∈ u.deleted && interest (key r.2)) = 0 := by
    rw [List.countP_eq_zero]
    intro r hr hh
    obtain ⟨x, _, rfl⟩ := List.mem_map.mp hr
    have hlt := hfresh _ (List.mem_append_left _ (of_decide_eq_true (Bool.and_eq_true _ _ ▸ hh).1))
    omega
  have hkept : (w.kept s.rows).countP (fun r => r.1 ∈ u.deleted && interest (key r.2)) =
      s.rows.countP fun r => r.1 ∈ u.deleted && interest (key r.2) := by
    rw [Writer.kept, List.countP_map, List.countP_filter]
    refine List.countP_congr fun r _ => ?_
    simp only [Function.comp_def, w.key_current, Bool.and_eq_true, decide_eq_true_eq]
    constructor
    · intro hh
      exact hh.1
    · intro hh
      exact ⟨hh, hdel r.1 hh.1⟩
  rw [lockedRows, Store.commit, List.countP_append, hnew, hkept]
  rfl

end

/-! The actions. -/

variable [DecidableEq κ]

namespace Writer

/-- The started DELETE of `p`: of the rows it has seen, those that are still
there are gone, and so are the writer's own. -/
def delete (w : Writer key σ) (rows : List (Nat × α)) (ids : List Nat) (p : κ → Bool)
    (rest : List (Statement key)) : Writer key σ :=
  { w with
    todo := rest
    seen := none
    deleted := w.deleted ++ ids.filter fun id => id ∈ rows.map Prod.fst
    inserted := w.inserted.filter fun a => !p (key a) }

def upsert (w : Writer key σ) (rows : List (Nat × α)) (a : α) (f : α → α) (hf : ∀ b, key (f b) = key b)
    (rest : List (Statement key)) : Writer key σ :=
  if w.inserted.any fun b => key b = key a then
    { w with
      todo := rest
      inserted := w.inserted.map fun b => if key b = key a then f b else b }
  else
    match rows.find? fun r => key r.2 = key a ∧ r.1 ∉ w.deleted with
    | some r => { w with todo := rest, updated := w.updated ++ [(r.1, ⟨f, hf⟩)] }
    | none => { w with todo := rest, inserted := w.inserted ++ [a] }

end Writer

/-- Another writer has a row of this key in hand. -/
def keyInHand (rows : List (Nat × α)) (k : κ) (other : Writer key σ) : Bool :=
  (rows.any fun r => key r.2 = k ∧ r.1 ∈ other.locks) || other.inserted.any fun b => key b = k

/-- The next action of a writer among the others, unless one of them blocks it. -/
def Writer.act (interest : κ → Bool) (s : Store α σ) (others : List (Writer key σ)) (w : Writer key σ) :
    Option (Store α σ × Writer key σ) :=
  match w.phase, w.todo, w.seen with
  | .writing, .delete p :: _, none =>
    some (s, { w with seen := some ((s.rows.filter fun r => p (key r.2)).map Prod.fst) })
  | .writing, .delete p :: rest, some ids =>
    if others.any fun u => ids.any fun id => id ∈ u.locks then none
    else some (s, w.delete s.rows ids p rest)
  | .writing, .upsert a f hf :: rest, _ =>
    if others.any (keyInHand s.rows (key a)) then none
    else some (s, w.upsert s.rows a f hf rest)
  | .writing, [], _ =>
    some (s, { w with
      phase := .counted ((w.view s.rows).countP fun a => interest (key a)) (rowsOf interest key s.rows) })
  | .counted total rowsThen, _, _ =>
    if others.any Writer.isSaved then none else some (s, { w with phase := .saved total rowsThen })
  | .saved total rowsThen, _, _ =>
    some (s.commit w interest total rowsThen,
      { w with deleted := [], updated := [], inserted := [], phase := .committed })
  | .committed, _, _ => none

structure System {α κ : Type} (key : α → κ) (σ : Type) : Type where
  store : Store α σ
  writers : List (Writer key σ)

/-- The writer at place `i` acts. -/
def System.advance (interest : κ → Bool) (s : System key σ) (i : Nat) : Option (System key σ) :=
  (s.writers[i]?).bind fun w =>
    (w.act interest s.store (s.writers.take i ++ s.writers.drop (i + 1))).map fun x =>
      ⟨x.1, s.writers.take i ++ x.2 :: s.writers.drop (i + 1)⟩

def Step (interest : κ → Bool) (s s' : System key σ) : Prop := ∃ i, s.advance interest i = some s'

theorem step_split {interest : κ → Bool} {s s' : System key σ} (h : Step interest s s') :
    ∃ pre w post store w', s.writers = pre ++ w :: post ∧
      w.act interest s.store (pre ++ post) = some (store, w') ∧ s' = ⟨store, pre ++ w' :: post⟩ := by
  obtain ⟨i, h⟩ := h
  obtain ⟨w, hw, hact⟩ := Option.bind_eq_some_iff.mp h
  obtain ⟨⟨store, w'⟩, ha, rfl⟩ := Option.map_eq_some_iff.mp hact
  exact ⟨_, w, _, store, w', (Host.getElem?_split hw).1, ha, rfl⟩

/-! The invariant: the locks of two writers are apart, and what a writer has
counted is out by what others have committed since. -/

def Phase.Counted (phase : Phase) (total rowsThen : Nat) : Prop :=
  phase = .counted total rowsThen ∨ phase = .saved total rowsThen

def Apart (w u : Writer key σ) : Prop := ∀ id ∈ w.locks, id ∉ u.locks

structure Sound (interest : κ → Bool) (saves : List (Nat → σ)) (store : Store α σ) (writers : List (Writer key σ)) :
    Prop where
  saves_eq : writers.map Writer.save = saves
  fresh : ∀ w ∈ writers, ∀ id ∈ w.locks, id < store.nextId
  apart : writers.Pairwise Apart
  counted : ∀ w ∈ writers, ∀ total rowsThen, w.phase.Counted total rowsThen →
    total + lockedRows interest store.rows w = rowsThen + ownRows interest w
  last : ∀ init rowsThen before, store.commits = init ++ [(rowsThen, before)] →
    ∃ save ∈ saves, ∃ total, store.saved = some (save total) ∧
      total + before = rowsThen + rowsOf interest key store.rows
  done : ∀ w ∈ writers, w.phase = .committed → store.commits ≠ []

omit [DecidableEq κ] in
theorem Apart.symm {w u : Writer key σ} (h : Apart w u) : Apart u w := fun id hu hw => h id hw hu

section

variable {interest : κ → Bool} {saves : List (Nat → σ)} {store : Store α σ} {pre post : List (Writer key σ)}
  {w w' : Writer key σ}

theorem mem_middle {A : Type} {pre post : List A} {a b : A} (h : b ∈ pre ++ a :: post) : b = a ∨ b ∈ pre ++ post := by
  simp only [List.mem_append, List.mem_cons] at h ⊢
  tauto

theorem mem_middle_of {A : Type} {pre post : List A} {b : A} (h : b ∈ pre ++ post) (a : A) :
    b ∈ pre ++ a :: post := by
  simp only [List.mem_append, List.mem_cons] at h ⊢
  tauto

omit [DecidableEq κ] in
theorem Sound.others (S : Sound interest saves store (pre ++ w :: post)) : ∀ u ∈ pre ++ post, Apart w u := by
  have hh := (List.pairwise_middle fun {_ _} h => Apart.symm h).mp S.apart
  exact (List.pairwise_cons.mp hh).1

omit [DecidableEq κ] in
theorem Sound.pairwise (S : Sound interest saves store (pre ++ w :: post)) (h : ∀ u ∈ pre ++ post, Apart w' u) :
    (pre ++ w' :: post).Pairwise Apart := by
  have hh := (List.pairwise_middle fun {_ _} h => Apart.symm h).mp S.apart
  exact (List.pairwise_middle fun {_ _} h => Apart.symm h).mpr
    (List.pairwise_cons.mpr ⟨h, (List.pairwise_cons.mp hh).2⟩)

omit [DecidableEq κ] in
/-- A step that commits nothing. What it locks is committed and in nobody else's hands. -/
theorem Sound.own (S : Sound interest saves store (pre ++ w :: post))
    (hlocks : ∀ id ∈ w'.locks, id ∈ w.locks ∨ (id ∈ store.rows.map Prod.fst ∧ ∀ u ∈ pre ++ post, id ∉ u.locks))
    (hphase : w'.phase ≠ .committed) (hsave : w'.save = w.save)
    (hcount : ∀ total rowsThen, w'.phase.Counted total rowsThen →
      total + lockedRows interest store.rows w' = rowsThen + ownRows interest w') :
    Sound interest saves store (pre ++ w' :: post) := by
  refine ⟨?_, fun u hu id hid => ?_, S.pairwise fun u hu id hid => ?_, fun u hu => ?_, S.last, fun u hu => ?_⟩
  · rw [← S.saves_eq]
    simp [hsave]
  · rcases mem_middle hu with rfl | hu
    · rcases hlocks id hid with hid | ⟨hid, _⟩
      · exact S.fresh w (by simp) id hid
      · obtain ⟨r, hr, rfl⟩ := List.mem_map.mp hid
        exact store.ids_lt r hr
    · exact S.fresh u (mem_middle_of hu w) id hid
  · rcases hlocks id hid with hid | ⟨_, hfree⟩
    · exact S.others u hu id hid
    · exact hfree u hu
  · rcases mem_middle hu with rfl | hu
    · exact hcount
    · exact S.counted u (mem_middle_of hu w)
  · rcases mem_middle hu with rfl | hu
    · intro he
      exact absurd he hphase
    · exact S.done u (mem_middle_of hu w)

omit [DecidableEq κ] in
theorem Sound.commit (S : Sound interest saves store (pre ++ w :: post)) {total rowsThen : Nat}
    (hc : w.phase.Counted total rowsThen)
    (hw' : w' = { w with deleted := [], updated := [], inserted := [], phase := .committed }) :
    Sound interest saves (store.commit w interest total rowsThen) (pre ++ w' :: post) := by
  have hnone : w'.locks = [] := by rw [hw']; rfl
  have hlt : store.nextId ≤ (store.commit w interest total rowsThen).nextId := Nat.le_add_right _ _
  refine ⟨?_, fun u hu id hid => ?_, S.pairwise ?_, fun u hu total' rowsThen' hu' => ?_, ?_, ?_⟩
  · rw [← S.saves_eq, hw']
    simp
  · rcases mem_middle hu with rfl | hu
    · simp [hnone] at hid
    · exact Nat.lt_of_lt_of_le (S.fresh u (mem_middle_of hu w) id hid) hlt
  · intro u _ id hid
    simp [hnone] at hid
  · rcases mem_middle hu with rfl | hu
    · rw [hw'] at hu'
      rcases hu' with hu' | hu' <;> cases hu'
    · rw [lockedRows_commit (S.others u hu) (S.fresh u (mem_middle_of hu w))]
      exact S.counted u (mem_middle_of hu w) total' rowsThen' hu'
  · intro init rowsThen' before he
    obtain ⟨_, hlast⟩ := List.append_inj' he rfl
    obtain ⟨rfl, rfl⟩ := Prod.mk.injEq .. ▸ List.singleton_inj.mp hlast
    refine ⟨w.save, ?_, total, rfl, ?_⟩
    · rw [← S.saves_eq]
      simp
    · have hcount := S.counted w (by simp) total rowsThen hc
      have hrows : rowsOf interest key (store.commit w interest total rowsThen).rows +
          lockedRows interest store.rows w = rowsOf interest key store.rows + ownRows interest w :=
        rowsOf_commit store w total rowsThen
      omega
  · intro u _ _
    simp [Store.commit]

end

theorem sound_act {interest : κ → Bool} {saves : List (Nat → σ)} {store store' : Store α σ}
    {pre post : List (Writer key σ)} {w w' : Writer key σ} (S : Sound interest saves store (pre ++ w :: post))
    (h : w.act interest store (pre ++ post) = some (store', w')) : Sound interest saves store' (pre ++ w' :: post) := by
  have hwriting : ∀ {v : Writer key σ}, v.phase = .writing → ∀ total rowsThen, v.phase.Counted total rowsThen →
      total + lockedRows interest store.rows v = rowsThen + ownRows interest v := by
    intro v hv total rowsThen hc
    rw [hv] at hc
    rcases hc with hc | hc <;> cases hc
  unfold Writer.act at h
  split at h
  · next p rest hphase _ _ =>
    obtain ⟨rfl, rfl⟩ := Prod.mk.injEq .. ▸ Option.some.inj h
    exact S.own (fun id hid => .inl hid) (by simp [hphase]) rfl (hwriting hphase)
  · next p rest ids hphase _ _ =>
    split_ifs at h with hblocked
    obtain ⟨rfl, rfl⟩ := Prod.mk.injEq .. ▸ Option.some.inj h
    refine S.own (fun id hid => ?_) (by simp [Writer.delete, hphase]) rfl (hwriting hphase)
    simp only [Writer.locks, Writer.delete, List.mem_append, List.mem_filter, decide_eq_true_eq] at hid ⊢
    rcases hid with (hid | ⟨hid, hrow⟩) | hid
    · exact .inl (.inl hid)
    · refine .inr ⟨hrow, fun u hu hlock => hblocked ?_⟩
      exact List.any_eq_true.mpr ⟨u, List.mem_append.mpr hu,
        List.any_eq_true.mpr ⟨id, hid, decide_eq_true (List.mem_append.mpr hlock)⟩⟩
    · exact .inl (.inr hid)
  · next a f hf rest hphase _ =>
    split_ifs at h with hblocked
    obtain ⟨rfl, rfl⟩ := Prod.mk.injEq .. ▸ Option.some.inj h
    unfold Writer.upsert
    split_ifs with hown
    · exact S.own (fun id hid => .inl hid) (by simp [hphase]) rfl (hwriting hphase)
    · split
      · next r hr =>
        refine S.own (fun id hid => ?_) (by simp [hphase]) rfl (hwriting hphase)
        simp only [Writer.locks, List.map_append, List.map_cons, List.map_nil, List.mem_append,
          List.mem_singleton] at hid ⊢
        rcases hid with hid | hid | rfl
        · exact .inl (.inl hid)
        · exact .inl (.inr hid)
        · have hmem := List.mem_of_find?_eq_some hr
          have hkey := List.find?_some hr
          refine .inr ⟨List.mem_map_of_mem hmem, fun u hu hlock => hblocked ?_⟩
          refine List.any_eq_true.mpr ⟨u, List.mem_append.mpr hu, ?_⟩
          refine Bool.or_eq_true .. ▸ .inl (List.any_eq_true.mpr ⟨r, hmem, ?_⟩)
          simp only [decide_eq_true_eq, Writer.locks, List.mem_append] at hkey ⊢
          exact ⟨hkey.1, hlock⟩
      · exact S.own (fun id hid => .inl hid) (by simp [hphase]) rfl (hwriting hphase)
  · next hphase _ _ =>
    obtain ⟨rfl, rfl⟩ := Prod.mk.injEq .. ▸ Option.some.inj h
    refine S.own (fun id hid => .inl hid) (by simp) rfl fun total rowsThen hc => ?_
    rcases hc with hc | hc
    · obtain ⟨rfl, rfl⟩ := Phase.counted.injEq .. ▸ hc
      exact count_view w store.rows
    · cases hc
  · next _ _ total rowsThen hphase =>
    split_ifs at h with hblocked
    obtain ⟨rfl, rfl⟩ := Prod.mk.injEq .. ▸ Option.some.inj h
    refine S.own (fun id hid => .inl hid) (by simp) rfl fun total' rowsThen' hc => ?_
    rcases hc with hc | hc
    · cases hc
    · obtain ⟨rfl, rfl⟩ := Phase.saved.injEq .. ▸ hc
      exact S.counted w (by simp) total rowsThen (.inl hphase)
  · next _ _ total rowsThen hphase =>
    obtain ⟨rfl, rfl⟩ := Prod.mk.injEq .. ▸ Option.some.inj h
    exact S.commit (.inr hphase) rfl
  · cases h

theorem sound_run {interest : κ → Bool} {saves : List (Nat → σ)} {s s' : System key σ}
    (h : Relation.ReflTransGen (Step interest) s s') (S : Sound interest saves s.store s.writers) :
    Sound interest saves s'.store s'.writers := by
  induction h with
  | refl => exact S
  | tail _ hstep ih =>
    obtain ⟨pre, w, post, store, w', hws, hact, rfl⟩ := step_split hstep
    rw [hws] at ih
    exact sound_act ih hact

/-- Writers that have done nothing yet, over a table with these rows. -/
def System.opened (rows : List α) (saved : Option σ) (bodies : List (List (Statement key) × (Nat → σ))) :
    System key σ :=
  ⟨.opened rows saved, bodies.map fun b => .start b.1 b.2⟩

omit [DecidableEq κ] in
theorem sound_opened (interest : κ → Bool) (rows : List α) (saved : Option σ)
    (bodies : List (List (Statement key) × (Nat → σ))) :
    Sound interest (bodies.map Prod.snd) (System.opened rows saved bodies).store
      (System.opened rows saved bodies).writers := by
  have hstart : ∀ w ∈ (System.opened rows saved bodies).writers, w.locks = [] ∧ w.phase = .writing := by
    intro w hw
    obtain ⟨b, _, rfl⟩ := List.mem_map.mp hw
    exact ⟨rfl, rfl⟩
  refine ⟨?_, fun w hw id hid => ?_, ?_, fun w hw total rowsThen hc => ?_, fun init rowsThen before he => ?_,
    fun w hw he => ?_⟩
  · simp [System.opened, Writer.start, Function.comp_def]
  · simp [(hstart w hw).1] at hid
  · refine List.pairwise_iff_getElem.mpr fun i j hi hj _ id hid => ?_
    simp [(hstart _ (List.getElem_mem hi)).1] at hid
  · rw [(hstart w hw).2] at hc
    rcases hc with hc | hc <;> cases hc
  · exact absurd he (by simp [System.opened, Store.opened])
  · rw [(hstart w hw).2] at he
    cases he

/-- When all writers have committed, the saved count is right exactly when the
last of them found as many committed rows when it counted as when it committed. -/
theorem saved_count_iff {interest : κ → Bool} {rows : List α} {saved : Option σ}
    {bodies : List (List (Statement key) × (Nat → σ))} (hne : bodies ≠ []) {s : System key σ}
    (hrun : Relation.ReflTransGen (Step interest) (System.opened rows saved bodies) s)
    (hdone : ∀ w ∈ s.writers, w.phase = .committed) :
    ∃ b ∈ bodies, ∃ total, s.store.saved = some (b.2 total) ∧
      (total = rowsOf interest key s.store.rows ↔ ∀ c ∈ s.store.commits.getLast?, c.1 = c.2) := by
  have S := sound_run hrun (sound_opened interest rows saved bodies)
  obtain ⟨w, hw⟩ : ∃ w, w ∈ s.writers := by
    refine List.exists_mem_of_ne_nil _ fun hnil => hne ?_
    have hsaves := S.saves_eq
    rw [hnil] at hsaves
    exact List.map_eq_nil_iff.mp hsaves.symm
  have hcommits := S.done w hw (hdone w hw)
  obtain ⟨init, ⟨rowsThen, before⟩, hlast⟩ := List.eq_nil_or_concat' s.store.commits |>.resolve_left hcommits
  obtain ⟨save, hsave, total, hsaved, hcount⟩ := S.last init rowsThen before hlast
  obtain ⟨b, hb, rfl⟩ := List.mem_map.mp hsave
  refine ⟨b, hb, total, hsaved, ?_⟩
  rw [hlast, List.getLast?_concat]
  simp only [Option.mem_def, Option.some.injEq, forall_eq']
  omega

/-! A writer that is alone does its statements one after the other. -/

def Statement.run (t : Table key) : Statement key → Table key
  | .delete p => t.delete fun a => p (key a)
  | .upsert a f hf => t.upsert a f hf

section

variable {store : Store α σ} {w : Writer key σ} {t : Table key}

theorem view_delete {p : κ → Bool} {rest : List (Statement key)} (ht : t.rows = w.view store.rows) :
    (Statement.run t (.delete p)).rows =
      (w.delete store.rows ((store.rows.filter fun r => p (key r.2)).map Prod.fst) p rest).view store.rows := by
  have hids : ∀ r ∈ store.rows, (r.1 ∈ ((store.rows.filter fun r => p (key r.2)).map Prod.fst).filter
      (fun id => id ∈ store.rows.map Prod.fst) ↔ p (key r.2) = true) := by
    intro r hr
    rw [List.mem_filter]
    constructor
    · rintro ⟨hid, _⟩
      obtain ⟨r', hr', he⟩ := List.mem_map.mp hid
      obtain ⟨hr', hp⟩ := List.mem_filter.mp hr'
      rwa [← List.inj_on_of_nodup_map store.ids_nodup hr' hr he]
    · intro hp
      exact ⟨List.mem_map_of_mem (List.mem_filter.mpr ⟨hr, hp⟩), decide_eq_true (List.mem_map_of_mem hr)⟩
  have hfilter : store.rows.filter (fun r => r.1 ∉ w.deleted ++
      ((store.rows.filter fun r => p (key r.2)).map Prod.fst).filter fun id => id ∈ store.rows.map Prod.fst) =
        (store.rows.filter fun r => r.1 ∉ w.deleted).filter fun r => !p (key r.2) := by
    rw [List.filter_filter]
    refine List.filter_congr fun r hr => ?_
    rw [Bool.eq_iff_iff, decide_eq_true_eq, List.mem_append, hids r hr]
    simp [and_comm]
  show t.rows.filter (fun a => !p (key a)) = _
  rw [ht, Writer.view, List.filter_append, Writer.view, Writer.kept, Writer.kept, Writer.delete, hfilter]
  refine congrArg (· ++ _) ?_
  rw [List.map_map, List.map_map, List.filter_map]
  refine congrArg (List.map _) (List.filter_congr fun r _ => ?_)
  simp [w.key_current]

omit [DecidableEq κ] in
theorem current_update (w : Writer key σ) (rest : List (Statement key)) (id : Nat)
    (f : {f : α → α // ∀ b, key (f b) = key b}) (r : Nat × α) :
    ({ w with todo := rest, updated := w.updated ++ [(id, f)] } : Writer key σ).current r =
      if id = r.1 then f.1 (w.current r) else w.current r := by
  unfold Writer.current
  rw [List.filter_append, List.foldl_append]
  by_cases h : id = r.1 <;> simp [h]

theorem rows_upsert_of_mem {a : α} {f : α → α} {hf : ∀ b, key (f b) = key b} (h : key a ∈ t.rows.map key) :
    (t.upsert a f hf).rows = t.rows.map fun b => if key b = key a then f b else b := by
  rw [Table.upsert, if_pos h]
  simp [Table.update]

theorem rows_upsert_of_not_mem {a : α} {f : α → α} {hf : ∀ b, key (f b) = key b} (h : key a ∉ t.rows.map key) :
    (t.upsert a f hf).rows = t.rows ++ [a] := by
  rw [Table.upsert, if_neg h, Table.insertIgnore, dif_neg h]

theorem view_upsert {a : α} {f : α → α} {hf : ∀ b, key (f b) = key b} {rest : List (Statement key)}
    (ht : t.rows = w.view store.rows) :
    (Statement.run t (.upsert a f hf)).rows = (w.upsert store.rows a f hf rest).view store.rows := by
  have hnodup : (((store.rows.filter fun r => r.1 ∉ w.deleted).map fun r => key r.2) ++ w.inserted.map key).Nodup := by
    have hh := t.keys_nodup
    rw [ht, Writer.view, Writer.kept, List.map_append, List.map_map, List.map_map] at hh
    simpa only [Function.comp_def, w.key_current] using hh
  rw [List.nodup_append] at hnodup
  obtain ⟨hkept, _, hapart⟩ := hnodup
  have hmem : key a ∈ t.rows.map key ↔
      (∃ r ∈ store.rows, r.1 ∉ w.deleted ∧ key r.2 = key a) ∨ ∃ b ∈ w.inserted, key b = key a := by
    rw [ht, Writer.view, Writer.kept]
    simp [w.key_current, and_assoc]
  show (t.upsert a f hf).rows = _
  unfold Writer.upsert
  split_ifs with hown
  -- one of the writer's own rows
  · obtain ⟨b, hb, hk⟩ := List.any_eq_true.mp hown
    rw [rows_upsert_of_mem (hmem.mpr (.inr ⟨b, hb, of_decide_eq_true hk⟩)), ht, Writer.view,
      List.map_append, Writer.view]
    refine congrArg (· ++ _) ?_
    rw [Writer.kept, Writer.kept, List.map_map, List.map_map, List.map_map]
    refine List.map_congr_left fun r hr => ?_
    have hne : key r.2 ≠ key a := by
      rw [← of_decide_eq_true hk]
      exact hapart _ (List.mem_map_of_mem hr) _ (List.mem_map_of_mem hb)
    simp only [Function.comp_def, w.key_current, hne, if_false]
    rfl
  · have hno : ∀ b ∈ w.inserted, key b ≠ key a := by
      intro b hb hk
      exact hown (List.any_eq_true.mpr ⟨b, hb, decide_eq_true hk⟩)
    split
    -- a committed row
    · next r hr =>
      have hrow := List.mem_of_find?_eq_some hr
      have hkey := List.find?_some hr
      simp only [decide_eq_true_eq] at hkey
      rw [rows_upsert_of_mem (hmem.mpr (.inl ⟨r, hrow, hkey.2, hkey.1⟩)), ht, Writer.view, List.map_append, Writer.view]
      have hinserted : w.inserted.map (fun b => if key b = key a then f b else b) = w.inserted := by
        rw [List.map_congr_left fun b hb => if_neg (hno b hb), List.map_id']
      rw [hinserted]
      refine congrArg (· ++ _) ?_
      rw [Writer.kept, Writer.kept, List.map_map, List.map_map, List.map_map]
      refine List.map_congr_left fun x hx => ?_
      have hsame : key x.2 = key a ↔ r.1 = x.1 := by
        constructor
        · intro hk
          have hr' : r ∈ store.rows.filter fun r => r.1 ∉ w.deleted :=
            List.mem_filter.mpr ⟨hrow, decide_eq_true hkey.2⟩
          rw [List.inj_on_of_nodup_map hkept hr' hx (hkey.1.trans hk.symm)]
        · intro hid
          rw [← List.inj_on_of_nodup_map store.ids_nodup hrow (List.mem_filter.mp hx).1 hid]
          exact hkey.1
      simp only [Function.comp_def, w.key_current, hsame]
      exact (current_update w rest r.1 ⟨f, hf⟩ x).symm
    · next hnone =>
      have habsent : key a ∉ t.rows.map key := by
        rw [hmem]
        rintro (⟨r, hr, hd, hk⟩ | ⟨b, hb, hk⟩)
        · exact absurd (List.find?_eq_none.mp hnone r hr) (by simp [hk, hd])
        · exact hno b hb hk
      rw [rows_upsert_of_not_mem habsent, ht, Writer.view, Writer.view, List.append_assoc]
      rfl

end

theorem upsert_todo (w : Writer key σ) (rows : List (Nat × α)) (a : α) (f : α → α) (hf : ∀ b, key (f b) = key b)
    (rest : List (Statement key)) : (w.upsert rows a f hf rest).todo = rest ∧
      (w.upsert rows a f hf rest).seen = w.seen ∧ (w.upsert rows a f hf rest).phase = w.phase := by
  unfold Writer.upsert
  split_ifs
  · exact ⟨rfl, rfl, rfl⟩
  · split <;> exact ⟨rfl, rfl, rfl⟩

omit [DecidableEq κ] in
theorem commit_rows (store : Store α σ) (w : Writer key σ) (interest : κ → Bool) (total rowsThen : Nat) :
    (store.commit w interest total rowsThen).rows.map Prod.snd = w.view store.rows := by
  rw [Store.commit, List.map_append, List.map_map, Writer.view]
  refine congrArg (_ ++ ·) ?_
  exact List.zipIdx_map_fst 0 w.inserted

/-- Where a lone writer stands on its way to the rows `final`. -/
def OnTheWay (final : List α) (store : Store α σ) (w : Writer key σ) : Prop :=
  match w.phase with
  | .writing => (∃ t : Table key, t.rows = w.view store.rows ∧ (w.todo.foldl Statement.run t).rows = final) ∧
      ∀ ids, w.seen = some ids → ∃ p rest, w.todo = .delete p :: rest ∧
        ids = (store.rows.filter fun r => p (key r.2)).map Prod.fst
  | .counted _ _ | .saved _ _ => w.view store.rows = final
  | .committed => store.rows.map Prod.snd = final

theorem onTheWay_of_writing {final : List α} {store : Store α σ} {w : Writer key σ} (hphase : w.phase = .writing)
    (hseen : w.seen = none) {t : Table key} (ht : t.rows = w.view store.rows)
    (hfinal : (w.todo.foldl Statement.run t).rows = final) : OnTheWay final store w := by
  unfold OnTheWay
  rw [hphase]
  refine ⟨⟨t, ht, hfinal⟩, fun ids he => ?_⟩
  rw [hseen] at he
  cases he

theorem onTheWay_act {interest : κ → Bool} {final : List α} {store store' : Store α σ} {w w' : Writer key σ}
    (h : w.act interest store [] = some (store', w')) (hw : OnTheWay final store w) : OnTheWay final store' w' := by
  obtain ⟨todo, seen, deleted, updated, inserted, phase, save⟩ := w
  cases phase with
  | writing =>
    obtain ⟨⟨t, ht, hfinal⟩, hseen⟩ := hw
    cases todo with
    | nil =>
      obtain ⟨rfl, rfl⟩ := Prod.mk.injEq .. ▸ Option.some.inj h
      exact ht.symm.trans hfinal
    | cons c rest =>
      cases c with
      | delete p =>
        cases seen with
        | none =>
          obtain ⟨rfl, rfl⟩ := Prod.mk.injEq .. ▸ Option.some.inj h
          refine ⟨⟨t, ht, hfinal⟩, fun ids he => ⟨p, rest, rfl, (Option.some.inj he).symm⟩⟩
        | some ids =>
          obtain ⟨rfl, rfl⟩ := Prod.mk.injEq .. ▸ Option.some.inj h
          obtain ⟨p', rest', htodo, hids⟩ := hseen ids rfl
          obtain ⟨hp, rfl⟩ := List.cons.inj htodo
          obtain rfl := Statement.delete.inj hp
          subst hids
          exact onTheWay_of_writing rfl rfl (view_delete ht) hfinal
      | upsert a f hf =>
        obtain ⟨rfl, rfl⟩ := Prod.mk.injEq .. ▸ Option.some.inj h
        have hnone : seen = none := by
          cases seen with
          | none => rfl
          | some ids =>
            obtain ⟨p, rest', htodo, _⟩ := hseen ids rfl
            cases htodo
        obtain ⟨htodo', hseen', hphase'⟩ :=
          upsert_todo ⟨.upsert a f hf :: rest, seen, deleted, updated, inserted, .writing, save⟩ store.rows a f hf rest
        refine onTheWay_of_writing hphase' (hseen'.trans hnone) (view_upsert ht) ?_
        rw [htodo']
        exact hfinal
  | counted total rowsThen =>
    obtain ⟨rfl, rfl⟩ := Prod.mk.injEq .. ▸ Option.some.inj h
    exact hw
  | saved total rowsThen =>
    obtain ⟨rfl, rfl⟩ := Prod.mk.injEq .. ▸ Option.some.inj h
    exact (commit_rows store _ interest total rowsThen).trans hw
  | committed => cases h

theorem single_step {interest : κ → Bool} {s s' : System key σ} {w : Writer key σ} (hw : s.writers = [w])
    (h : Step interest s s') :
    ∃ store w', w.act interest s.store [] = some (store, w') ∧ s' = ⟨store, [w']⟩ := by
  obtain ⟨pre, w₁, post, store, w', hws, hact, rfl⟩ := step_split h
  rw [hw] at hws
  obtain ⟨rfl, rfl, rfl⟩ : pre = [] ∧ w = w₁ ∧ post = [] := by
    cases pre with
    | nil => simpa [eq_comm] using hws
    | cons a pre => simp at hws
  exact ⟨store, w', hact, rfl⟩

theorem lone_writer {interest : κ → Bool} {t : Table key} {saved : Option σ} {todo : List (Statement key)}
    {save : Nat → σ} {s : System key σ}
    (hrun : Relation.ReflTransGen (Step interest) (System.opened t.rows saved [(todo, save)]) s)
    (hdone : ∀ w ∈ s.writers, w.phase = .committed) :
    s.store.rows.map Prod.snd = (todo.foldl Statement.run t).rows := by
  have hway : ∃ w, s.writers = [w] ∧ OnTheWay (todo.foldl Statement.run t).rows s.store w := by
    clear hdone
    induction hrun with
    | refl =>
      refine ⟨_, rfl, onTheWay_of_writing (t := t) rfl rfl ?_ rfl⟩
      simp [System.opened, Store.opened, Writer.start, Writer.view, Writer.kept, Writer.current, Function.comp_def]
    | tail _ hstep ih =>
      obtain ⟨w, hw, hway⟩ := ih
      obtain ⟨store, w', hact, rfl⟩ := single_step hw hstep
      exact ⟨w', rfl, onTheWay_act hact hway⟩
  obtain ⟨w, hw, hway⟩ := hway
  have hcommitted := hdone w (by simp [hw])
  unfold OnTheWay at hway
  rwa [hcommitted] at hway

theorem lone_commits {interest : κ → Bool} {rows : List α} {saved : Option σ}
    {body : List (Statement key) × (Nat → σ)} {s : System key σ}
    (hrun : Relation.ReflTransGen (Step interest) (System.opened rows saved [body]) s) :
    ∀ c ∈ s.store.commits, c.1 = c.2 := by
  have hall : ∃ w, s.writers = [w] ∧ (∀ c ∈ s.store.commits, c.1 = c.2) ∧
      ∀ total rowsThen, w.phase.Counted total rowsThen → rowsThen = rowsOf interest key s.store.rows := by
    induction hrun with
    | refl =>
      refine ⟨_, rfl, by simp [System.opened, Store.opened], fun total rowsThen hc => ?_⟩
      rcases hc with hc | hc <;> cases hc
    | @tail b _ _ hstep ih =>
      obtain ⟨w, hw, hcommits, hcount⟩ := ih
      obtain ⟨store, w', hact, rfl⟩ := single_step hw hstep
      refine ⟨w', rfl, ?_⟩
      obtain ⟨todo, seen, deleted, updated, inserted, phase, save⟩ := w
      cases phase with
      | writing =>
        cases todo with
        | nil =>
          obtain ⟨rfl, rfl⟩ := Prod.mk.injEq .. ▸ Option.some.inj hact
          refine ⟨hcommits, fun total rowsThen hc => ?_⟩
          rcases hc with hc | hc
          · exact (Phase.counted.inj hc).2.symm
          · cases hc
        | cons c rest =>
          have hwriting : store = b.store ∧ w'.phase = .writing := by
            cases c with
            | delete p =>
              cases seen <;>
              · obtain ⟨rfl, rfl⟩ := Prod.mk.injEq .. ▸ Option.some.inj hact
                exact ⟨rfl, rfl⟩
            | upsert a f hf =>
              obtain ⟨rfl, rfl⟩ := Prod.mk.injEq .. ▸ Option.some.inj hact
              exact ⟨rfl, (upsert_todo _ _ a f hf rest).2.2⟩
          obtain ⟨rfl, hphase⟩ := hwriting
          refine ⟨hcommits, fun total rowsThen hc => ?_⟩
          rw [hphase] at hc
          rcases hc with hc | hc <;> cases hc
      | counted total rowsThen =>
        obtain ⟨rfl, rfl⟩ := Prod.mk.injEq .. ▸ Option.some.inj hact
        refine ⟨hcommits, fun total' rowsThen' hc => ?_⟩
        rcases hc with hc | hc
        · cases hc
        · obtain ⟨rfl, rfl⟩ := Phase.saved.inj hc
          exact hcount total rowsThen (.inl rfl)
      | saved total rowsThen =>
        obtain ⟨rfl, rfl⟩ := Prod.mk.injEq .. ▸ Option.some.inj hact
        refine ⟨fun c hc => ?_, fun total' rowsThen' hc => ?_⟩
        · rcases List.mem_append.mp hc with hc | hc
          · exact hcommits c hc
          · rw [List.mem_singleton.mp hc]
            exact hcount total rowsThen (.inr rfl)
        · rcases hc with hc | hc <;> cases hc
      | committed => cases hact
  obtain ⟨_, _, hcommits, _⟩ := hall
  exact hcommits

end AiPrReview.ReadCommitted
