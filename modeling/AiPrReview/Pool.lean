import AiPrReview.Program
import Mathlib.Algebra.GroupWithZero.Nat
import Mathlib.Data.List.Forall2

/-! Pools of programs that share a world. One step answers one call of one
thread; threads may be killed at any call, and new ones may start. -/

namespace AiPrReview

/-- A thread of a pool. `stopped` and `lost` keep what was left when it died:
in `lost` the pending call had already taken effect. -/
inductive Thread (P : Type) : Type where
  | running (p : P)
  | stopped (p : P)
  | lost (p : P)

def Thread.next {C : Type} {R : C → Type} {α : Type} : Thread (Prog R α) → Option C
  | running p => p.next
  | _ => none

def Thread.result {C : Type} {R : C → Type} {α : Type} : Thread (Prog R α) → Option α
  | running (.ret a) => some a
  | _ => none

theorem Thread.mem_of_result {C : Type} {R : C → Type} {α : Type} {ts : List (Thread (Prog R α))} {a : α}
    (h : a ∈ ts.filterMap Thread.result) : .running (.ret a) ∈ ts := by
  obtain ⟨t, ht, ha⟩ := List.mem_filterMap.mp h
  cases t with
  | running p =>
    cases p with
    | ret b =>
      obtain rfl := Option.some.inj ha
      exact ht
    | call c k => cases ha
  | stopped p => cases ha
  | lost p => cases ha

structure Pool (W P : Type) where
  world : W
  threads : List (Thread P)

def Pool.mapWorld {W W' P : Type} (f : W → W') (s : Pool W P) : Pool W' P := ⟨f s.world, s.threads⟩

inductive Label : Type where
  | reply (i : Nat)
  | retry (i : Nat)
  | stop (i : Nat)
  | lose (i : Nat)
  | spawn
  | drift
  deriving DecidableEq

/-- Who answers the calls. `retries` marks calls that the caller repeats when
their reply is lost; `drift` is what the world may do on its own. -/
structure Host {C : Type} (R : C → Type) (E W : Type) where
  exec : (c : C) → E → W → Option (R c × W)
  retries : C → Bool
  drift : W → W → Prop

variable {C : Type} {R : C → Type} {E W α M : Type}

namespace Host

inductive Step (H : Host R E W) (spawns : Prog R α → Prop) :
    Pool W (Prog R α) → Label → Pool W (Prog R α) → Prop
  | reply {pre post : List (Thread (Prog R α))} {c : C} {k : R c → Prog R α}
      {w w' : W} {r : R c} (e : E) : H.exec c e w = some (r, w') →
      Step H spawns ⟨w, pre ++ .running (.call c k) :: post⟩ (.reply pre.length)
        ⟨w', pre ++ .running (k r) :: post⟩
  | retry {pre post : List (Thread (Prog R α))} {c : C} {k : R c → Prog R α}
      {w w' : W} {r : R c} (e : E) : H.retries c = true → H.exec c e w = some (r, w') →
      Step H spawns ⟨w, pre ++ .running (.call c k) :: post⟩ (.retry pre.length)
        ⟨w', pre ++ .running (.call c k) :: post⟩
  | stop {pre post : List (Thread (Prog R α))} {c : C} {k : R c → Prog R α} {w : W} :
      Step H spawns ⟨w, pre ++ .running (.call c k) :: post⟩ (.stop pre.length)
        ⟨w, pre ++ .stopped (.call c k) :: post⟩
  | lose {pre post : List (Thread (Prog R α))} {c : C} {k : R c → Prog R α}
      {w w' : W} {r : R c} (e : E) : H.exec c e w = some (r, w') →
      Step H spawns ⟨w, pre ++ .running (.call c k) :: post⟩ (.lose pre.length)
        ⟨w', pre ++ .lost (.call c k) :: post⟩
  | spawn {ts : List (Thread (Prog R α))} {w : W} {p : Prog R α} : spawns p →
      Step H spawns ⟨w, ts⟩ .spawn ⟨w, ts ++ [.running p]⟩
  | drift {ts : List (Thread (Prog R α))} {w w' : W} : H.drift w w' →
      Step H spawns ⟨w, ts⟩ .drift ⟨w', ts⟩

/-- Runs of any length whose steps all meet `cond`, a condition on the state
before the step and on its label. -/
def Run (H : Host R E W) (spawns : Prog R α → Prop)
    (cond : Pool W (Prog R α) → Label → Prop) :
    Pool W (Prog R α) → Pool W (Prog R α) → Prop :=
  Relation.ReflTransGen fun s s' => ∃ l, cond s l ∧ H.Step spawns s l s'

theorem Step.reply_inv {H : Host R E W} {spawns : Prog R α → Prop} {s s' : Pool W (Prog R α)} {i : Nat}
    (h : H.Step spawns s (.reply i) s') :
    ∃ c k e r, s.threads[i]? = some (.running (.call c k)) ∧
      H.exec c e s.world = some (r, s'.world) ∧ s'.threads[i]? = some (.running (k r)) := by
  generalize hl : Label.reply i = l at h
  cases h with
  | @reply pre post c k w w' r e he =>
    obtain rfl := Label.reply.inj hl
    exact ⟨c, k, e, r, by simp, he, by simp⟩
  | _ => simp at hl

theorem Step.length_eq {H : Host R E W} {spawns : Prog R α → Prop} {s s' : Pool W (Prog R α)} {l : Label}
    (h : H.Step spawns s l s') :
    s'.threads.length = s.threads.length ∨ (l = .spawn ∧ s'.threads.length = s.threads.length + 1) := by
  cases h with
  | spawn => exact .inr ⟨rfl, by simp⟩
  | _ =>
    left
    simp

theorem Run.spawned {H : Host R E W} {spawns : Prog R α → Prop}
    {cond : Pool W (Prog R α) → Label → Prop} {s s' : Pool W (Prog R α)} (h : H.Run spawns cond s s')
    {i : Nat} (hs : s.threads.length ≤ i) (hi : i < s'.threads.length) :
    ∃ s₁ s₂, H.Run spawns cond s s₁ ∧ s₁.threads.length = i ∧ cond s₁ .spawn ∧
      H.Step spawns s₁ .spawn s₂ ∧ H.Run spawns cond s₂ s' := by
  induction h with
  | refl => omega
  | @tail b c hb hstep ih =>
    obtain ⟨l, hc, hl⟩ := hstep
    by_cases hib : i < b.threads.length
    · obtain ⟨s₁, s₂, h₁, hlen, hcond, hspawn, h₂⟩ := ih hib
      exact ⟨s₁, s₂, h₁, hlen, hcond, hspawn, h₂.tail ⟨l, hc, hl⟩⟩
    · rcases hl.length_eq with he | ⟨rfl, he⟩
      · omega
      · exact ⟨b, c, hb, by omega, hc, hl, .refl⟩

theorem Run.head_alone {H : Host R E W} {spawns : Prog R α → Prop}
    {cond : Pool W (Prog R α) → Label → Prop} {c : C} {k : R c → Prog R α} {w w' : W} {r : R c} (e : E)
    (he : H.exec c e w = some (r, w')) (hc : cond ⟨w, [.running (.call c k)]⟩ (.reply 0))
    {s : Pool W (Prog R α)} (h : H.Run spawns cond ⟨w', [.running (k r)]⟩ s) :
    H.Run spawns cond ⟨w, [.running (.call c k)]⟩ s := by
  have hh : H.Step spawns ⟨w, [] ++ .running (.call c k) :: []⟩ (.reply 0)
      ⟨w', [] ++ .running (k r) :: []⟩ := .reply e he
  exact .head ⟨_, hc, hh⟩ h

/-- A step with the environment's choices written out. -/
inductive Move (E P : Type) : Type where
  | reply (i : Nat) (e : E)
  | stop (i : Nat)
  | lose (i : Nat) (e : E)
  | spawn (p : P)

def Move.label {E P : Type} : Move E P → Label
  | .reply i _ => .reply i
  | .stop i => .stop i
  | .lose i _ => .lose i
  | .spawn _ => .spawn

def move (H : Host R E W) (s : Pool W (Prog R α)) : Move E (Prog R α) → Option (Pool W (Prog R α))
  | .reply i e =>
    match s.threads[i]? with
    | some (.running (.call c k)) => (H.exec c e s.world).map fun x =>
        ⟨x.2, s.threads.take i ++ .running (k x.1) :: s.threads.drop (i + 1)⟩
    | _ => none
  | .stop i =>
    match s.threads[i]? with
    | some (.running (.call c k)) =>
      some ⟨s.world, s.threads.take i ++ .stopped (.call c k) :: s.threads.drop (i + 1)⟩
    | _ => none
  | .lose i e =>
    match s.threads[i]? with
    | some (.running (.call c k)) => (H.exec c e s.world).map fun x =>
        ⟨x.2, s.threads.take i ++ .lost (.call c k) :: s.threads.drop (i + 1)⟩
    | _ => none
  | .spawn p => some ⟨s.world, s.threads ++ [.running p]⟩

def play (H : Host R E W) (s : Pool W (Prog R α)) (moves : List (Move E (Prog R α))) :
    Option (Pool W (Prog R α)) :=
  moves.foldlM H.move s

def Move.mapProgram {E P Q : Type} (f : P → Q) : Move E P → Move E Q
  | .reply i e => .reply i e
  | .stop i => .stop i
  | .lose i e => .lose i e
  | .spawn p => .spawn (f p)

theorem getElem?_split {A : Type} {l : List A} {i : Nat} {a : A} (h : l[i]? = some a) :
    l = l.take i ++ a :: l.drop (i + 1) ∧ (l.take i).length = i := by
  obtain ⟨hi, rfl⟩ := List.getElem?_eq_some_iff.mp h
  refine ⟨?_, by simp; omega⟩
  rw [← List.drop_eq_getElem_cons hi, List.take_append_drop]

theorem step_of_move {H : Host R E W} {spawns : Prog R α → Prop} {s s' : Pool W (Prog R α)}
    {m : Move E (Prog R α)} (hm : ∀ p, m = .spawn p → spawns p) (h : H.move s m = some s') :
    H.Step spawns s m.label s' := by
  obtain ⟨w, ts⟩ := s
  cases m with
  | reply i e =>
    simp only [move] at h
    split at h
    · next c k hi =>
      obtain ⟨⟨r, w'⟩, he, rfl⟩ := Option.map_eq_some_iff.mp h
      obtain ⟨hts, hl⟩ := getElem?_split hi
      have hh : H.Step spawns ⟨w, ts.take i ++ .running (.call c k) :: ts.drop (i + 1)⟩ _ _ :=
        .reply e he
      rwa [← hts, hl] at hh
    · simp at h
  | stop i =>
    simp only [move] at h
    split at h
    · next c k hi =>
      obtain rfl := Option.some.inj h
      obtain ⟨hts, hl⟩ := getElem?_split hi
      have hh : H.Step spawns ⟨w, ts.take i ++ .running (.call c k) :: ts.drop (i + 1)⟩ _ _ :=
        .stop
      rwa [← hts, hl] at hh
    · simp at h
  | lose i e =>
    simp only [move] at h
    split at h
    · next c k hi =>
      obtain ⟨⟨r, w'⟩, he, rfl⟩ := Option.map_eq_some_iff.mp h
      obtain ⟨hts, hl⟩ := getElem?_split hi
      have hh : H.Step spawns ⟨w, ts.take i ++ .running (.call c k) :: ts.drop (i + 1)⟩ _ _ :=
        .lose e he
      rwa [← hts, hl] at hh
    · simp at h
  | spawn p =>
    obtain rfl := Option.some.inj h
    exact .spawn (hm p rfl)

/-- Where one world is an image of the other and every call is answered alike,
the same moves lead to the same threads. -/
theorem play_mapWorld {W' : Type} {H : Host R E W} {H' : Host R E W'} {f : W → W'}
    (hexec : ∀ c e w, H'.exec c e (f w) = (H.exec c e w).map fun x => (x.1, f x.2))
    (s : Pool W (Prog R α)) (moves : List (Move E (Prog R α))) :
    H'.play (s.mapWorld f) moves = (H.play s moves).map (Pool.mapWorld f) := by
  have hmove : ∀ (s : Pool W (Prog R α)) m, H'.move (s.mapWorld f) m = (H.move s m).map (Pool.mapWorld f) := by
    intro s m
    cases m with
    | spawn p => rfl
    | stop i =>
      simp only [move, Pool.mapWorld]
      split <;> rfl
    | reply i e =>
      simp only [move, Pool.mapWorld]
      split
      · rw [hexec, Option.map_map, Option.map_map]
        rfl
      · rfl
    | lose i e =>
      simp only [move, Pool.mapWorld]
      split
      · rw [hexec, Option.map_map, Option.map_map]
        rfl
      · rfl
  induction moves generalizing s with
  | nil => rfl
  | cons m moves ih =>
    simp only [play, List.foldlM_cons, Option.bind_eq_bind] at ih ⊢
    rw [hmove]
    cases H.move s m with
    | none => rfl
    | some s' => exact ih s'

/-- Every move of the run meets the condition where it is made. -/
def Checked (H : Host R E W) (cond : Pool W (Prog R α) → Label → Prop) :
    Pool W (Prog R α) → List (Move E (Prog R α)) → Prop
  | _, [] => True
  | s, m :: moves => cond s m.label ∧ ∀ s' ∈ H.move s m, H.Checked cond s' moves

def decidableChecked {H : Host R E W} {cond : Pool W (Prog R α) → Label → Prop}
    [∀ s l, Decidable (cond s l)] : ∀ s moves, Decidable (H.Checked cond s moves)
  | _, [] => .isTrue trivial
  | s, m :: moves =>
    have : ∀ s', Decidable (H.Checked cond s' moves) := fun s' => decidableChecked s' moves
    inferInstanceAs (Decidable (cond s m.label ∧ ∀ s' ∈ H.move s m, H.Checked cond s' moves))

instance {H : Host R E W} {cond : Pool W (Prog R α) → Label → Prop} [∀ s l, Decidable (cond s l)]
    {s : Pool W (Prog R α)} {moves : List (Move E (Prog R α))} : Decidable (H.Checked cond s moves) :=
  decidableChecked s moves

theorem run_of_checked {H : Host R E W} {spawns : Prog R α → Prop} {cond : Pool W (Prog R α) → Label → Prop}
    {moves : List (Move E (Prog R α))} {s s' : Pool W (Prog R α)}
    (hm : ∀ p, .spawn p ∈ moves → spawns p) (hc : H.Checked cond s moves)
    (h : H.play s moves = some s') : H.Run spawns cond s s' := by
  induction moves generalizing s with
  | nil =>
    obtain rfl := Option.some.inj h
    exact .refl
  | cons m moves ih =>
    simp only [play, List.foldlM_cons, Option.bind_eq_bind] at h
    obtain ⟨s₁, hs₁, hrest⟩ := Option.bind_eq_some_iff.mp h
    have hl := step_of_move (fun p hp => hm p (by simp [hp])) hs₁
    exact .head ⟨m.label, hc.1, hl⟩ (ih (fun p hp => hm p (by simp [hp])) (hc.2 s₁ hs₁) hrest)

theorem run_of_play {H : Host R E W} {spawns : Prog R α → Prop} {cond : Label → Prop}
    {moves : List (Move E (Prog R α))} {s s' : Pool W (Prog R α)}
    (hm : ∀ p, .spawn p ∈ moves → spawns p) (hc : ∀ m ∈ moves, cond m.label)
    (h : H.play s moves = some s') : H.Run spawns (fun _ l => cond l) s s' := by
  refine run_of_checked hm ?_ h
  clear h
  induction moves generalizing s with
  | nil => exact trivial
  | cons m moves ih =>
    exact ⟨hc m (by simp), fun s₁ _ => ih (fun p hp => hm p (by simp [hp])) fun m' hm' => hc m' (by simp [hm'])⟩

theorem length_of_reply {H : Host R E W} {s s' : Pool W (Prog R α)} {i : Nat} {e : E}
    (h : H.move s (.reply i e) = some s') : s'.threads.length = s.threads.length := by
  simp only [move] at h
  split at h
  · next c k hi =>
    obtain ⟨_, _, rfl⟩ := Option.map_eq_some_iff.mp h
    obtain ⟨hlt, _⟩ := List.getElem?_eq_some_iff.mp hi
    simp
    omega
  · simp at h

/-- A run of replies alone, under a condition that holds for pools of its size. -/
theorem run_of_replies {H : Host R E W} {spawns : Prog R α → Prop}
    {cond : Pool W (Prog R α) → Label → Prop} {n : Nat}
    (hc : ∀ s : Pool W (Prog R α), s.threads.length = n → ∀ i, cond s (.reply i))
    {replies : List (Nat × E)} {s s' : Pool W (Prog R α)} (hn : s.threads.length = n)
    (h : H.play s (replies.map fun x => .reply x.1 x.2) = some s') : H.Run spawns cond s s' := by
  induction replies generalizing s with
  | nil =>
    obtain rfl := Option.some.inj h
    exact .refl
  | cons x replies ih =>
    simp only [play, List.map_cons, List.foldlM_cons, Option.bind_eq_bind] at h
    obtain ⟨s₁, hs₁, hrest⟩ := Option.bind_eq_some_iff.mp h
    have hl : H.Step spawns s (.reply x.1) s₁ := step_of_move (by simp) hs₁
    exact .head ⟨_, hc s hn _, hl⟩ (ih ((length_of_reply hs₁).trans hn) hrest)

end Host

/-- The same host, keeping a list of the calls it has answered. -/
def Host.logged (H : Host R E W) : Host R E (W × List (Sigma R)) where
  exec c e w := (H.exec c e w.1).map fun x => (x.1, (x.2, w.2 ++ [⟨c, x.1⟩]))
  retries := H.retries
  drift w w' := H.drift w.1 w'.1 ∧ w'.2 = w.2

theorem Host.exec_logged {H : Host R E W} {c : C} {e : E} {w w' : W × List (Sigma R)} {r : R c}
    (h : H.logged.exec c e w = some (r, w')) :
    H.exec c e w.1 = some (r, w'.1) ∧ w'.2 = w.2 ++ [⟨c, r⟩] := by
  obtain ⟨⟨r', v⟩, he, hx⟩ := Option.map_eq_some_iff.mp h
  obtain ⟨rfl, rfl⟩ := Prod.mk.injEq .. ▸ hx
  exact ⟨he, rfl⟩

/-! Programs that return what they said. -/

def Prog.recording : List (Sigma R) → Prog R α → Prog R (List (Sigma R) × α)
  | said, .ret a => .ret (said, a)
  | said, .call c k => .call c fun r => (k r).recording (said ++ [⟨c, r⟩])

def Thread.program {P : Type} : Thread P → P
  | running p => p
  | stopped p => p
  | lost p => p

/-- The thread is one of `spawns` after it has said things that all meet `Q`. -/
def Thread.Recorded (spawns : Prog R α → Prop) (Q : Sigma R → Prop) (t : Thread (Prog R (List (Sigma R) × α))) :
    Prop :=
  ∃ q said rest, spawns q ∧ q.Talks said rest ∧ t.program = rest.recording said ∧ ∀ x ∈ said, Q x

theorem Prog.Talks.snoc {p : Prog R α} {talk : List (Sigma R)} {c : C} {k : R c → Prog R α}
    (h : p.Talks talk (.call c k)) (r : R c) : p.Talks (talk ++ [⟨c, r⟩]) (k r) := by
  generalize hq : Prog.call c k = q at h
  induction h with
  | refl => 
    subst hq
    exact .cons (.refl _)
  | cons _ ih => exact .cons (ih hq)

theorem Thread.Recorded.call_inv {spawns : Prog R α → Prop} {Q : Sigma R → Prop} {c : C}
    {k : R c → Prog R (List (Sigma R) × α)} (h : (Thread.running (.call c k)).Recorded spawns Q) :
    ∃ q said k', spawns q ∧ q.Talks said (.call c k') ∧ (∀ x ∈ said, Q x) ∧
      ∀ r, k r = (k' r).recording (said ++ [⟨c, r⟩]) := by
  obtain ⟨q, said, rest, hq, htalks, hp, hsaid⟩ := h
  cases rest with
  | ret a => cases hp
  | call c' k' =>
    obtain ⟨rfl, hk⟩ := Prog.call.inj hp
    exact ⟨q, said, k', hq, htalks, hsaid, fun r => congrFun (eq_of_heq hk) r⟩

/-- What every answer meets, every thread has only said such things. `J` is an
invariant of the world. -/
theorem Host.Run.recorded {H : Host R E W} {spawns : Prog R α → Prop} {Q : Sigma R → Prop} {J : W → Prop}
    {cond : Pool W (Prog R (List (Sigma R) × α)) → Label → Prop}
    (hexec : ∀ c e w r w', J w → H.exec c e w = some (r, w') → J w')
    (hdrift : ∀ w w', J w → H.drift w w' → J w')
    (hreply : ∀ s i c k e r w', J s.world → cond s (.reply i) → s.threads[i]? = some (.running (.call c k)) →
      H.exec c e s.world = some (r, w') → Q ⟨c, r⟩)
    {s s' : Pool W (Prog R (List (Sigma R) × α))}
    (h : H.Run (fun p => ∃ q, spawns q ∧ p = q.recording []) cond s s')
    (h0 : J s.world ∧ ∀ t ∈ s.threads, t.Recorded spawns Q) :
    J s'.world ∧ ∀ t ∈ s'.threads, t.Recorded spawns Q := by
  induction h with
  | refl => exact h0
  | tail _ hstep ih =>
    obtain ⟨l, hc, hl⟩ := hstep
    obtain ⟨hJ, hts⟩ := ih
    cases hl with
    | @reply pre post c k w w' r e he =>
      refine ⟨hexec c e w r w' hJ he, fun t ht => ?_⟩
      have hat : (pre ++ .running (.call c k) :: post)[pre.length]? = some (.running (.call c k)) := by simp
      have hQ : Q ⟨c, r⟩ := hreply _ _ c k e r w' hJ hc hat he
      rcases List.mem_append.mp ht with ht | ht
      · exact hts t (by simp [ht])
      rcases List.mem_cons.mp ht with rfl | ht
      · obtain ⟨q, said, k', hq, htalks, hsaid, hk⟩ := (hts (.running (.call c k)) (by simp)).call_inv
        refine ⟨q, _, k' r, hq, htalks.snoc r, hk r, fun x hx => ?_⟩
        rcases List.mem_append.mp hx with hx | hx
        · exact hsaid x hx
        · rw [List.mem_singleton.mp hx]
          exact hQ
      · exact hts t (by simp [ht])
    | @retry pre post c k w w' r e hr he => exact ⟨hexec c e w r w' hJ he, hts⟩
    | @stop pre post c k w =>
      refine ⟨hJ, fun t ht => ?_⟩
      rcases List.mem_append.mp ht with ht | ht
      · exact hts t (by simp [ht])
      rcases List.mem_cons.mp ht with rfl | ht
      · exact hts (.running (.call c k)) (by simp)
      · exact hts t (by simp [ht])
    | @lose pre post c k w w' r e he =>
      refine ⟨hexec c e w r w' hJ he, fun t ht => ?_⟩
      rcases List.mem_append.mp ht with ht | ht
      · exact hts t (by simp [ht])
      rcases List.mem_cons.mp ht with rfl | ht
      · exact hts (.running (.call c k)) (by simp)
      · exact hts t (by simp [ht])
    | @spawn ts w p hp =>
      refine ⟨hJ, fun t ht => ?_⟩
      rcases List.mem_append.mp ht with ht | ht
      · exact hts t ht
      · obtain ⟨q, hq, rfl⟩ := hp
        rw [List.mem_singleton.mp ht]
        exact ⟨q, [], q, hq, .refl q, rfl, by simp⟩
    | drift hd => exact ⟨hdrift _ _ hJ hd, hts⟩

/-! Outlines. A mode says which calls a program may make next; each reply
moves it to another mode. -/

structure Outline {C : Type} (R : C → Type) (M : Type) where
  allows : M → C → Prop
  next : M → (c : C) → R c → M

/-- From mode `m`, `p` makes only calls the outline allows, whatever the
replies, and returns only with `post`. -/
def Prog.Follows (O : Outline R M) (post : M → α → Prop) : Prog R α → M → Prop
  | .ret a, m => post m a
  | .call c k, m => O.allows m c ∧ ∀ r, (k r).Follows O post (O.next m c r)

namespace Prog

variable {O : Outline R M} {β : Type}

theorem Follows.mono {post post' : M → α → Prop} (hp : ∀ m a, post m a → post' m a)
    {p : Prog R α} {m : M} (h : p.Follows O post m) : p.Follows O post' m := by
  induction p generalizing m with
  | ret a => exact hp m a h
  | call c k ih => exact ⟨h.1, fun r => ih r (h.2 r)⟩

/-- A coarser outline is followed wherever a finer one is. -/
theorem Follows.map {M' : Type} {O' : Outline R M'} {f : M → M'} {post : M → α → Prop}
    (hallow : ∀ m c, O.allows m c → O'.allows (f m) c)
    (hnext : ∀ m c r, O.allows m c → f (O.next m c r) = O'.next (f m) c r) {p : Prog R α} {m : M}
    (h : p.Follows O post m) : p.Follows O' (fun m' a => ∃ n, m' = f n ∧ post n a) (f m) := by
  induction p generalizing m with
  | ret a => exact ⟨m, rfl, h⟩
  | call c k ih =>
    refine ⟨hallow m c h.1, fun r => ?_⟩
    rw [← hnext m c r h.1]
    exact ih r (h.2 r)

theorem Follows.bind {post : M → α → Prop} {post' : M → β → Prop} {p : Prog R α}
    {f : α → Prog R β} {m : M} (h : p.Follows O post m)
    (hf : ∀ m' a, post m' a → (f a).Follows O post' m') :
    (p >>= f).Follows O post' m := by
  induction p generalizing m with
  | ret a => exact hf m a h
  | call c k ih => exact ⟨h.1, fun r => ih r (h.2 r)⟩

theorem Follows.not_mayReach {goal stop : C → Prop} (hno : ∀ m c, O.allows m c → ¬goal c) {post : M → α → Prop}
    {p : Prog R α} {m : M} (h : p.Follows O post m) : ¬p.MayReach goal stop := by
  intro hreach
  induction hreach generalizing m with
  | here hgoal => exact hno m _ h.1 hgoal
  | later r _ _ ih => exact ih (h.2 r)

end Prog

namespace Outline

/-- The pool in which every program is replaced by its mode. -/
inductive Step (O : Outline R M) (H : Host R E W) (spawns : M → Prop) :
    Pool W M → Label → Pool W M → Prop
  | reply {pre post : List (Thread M)} {m : M} {c : C} {w w' : W} {r : R c} (e : E) :
      O.allows m c → H.exec c e w = some (r, w') →
      Step O H spawns ⟨w, pre ++ .running m :: post⟩ (.reply pre.length)
        ⟨w', pre ++ .running (O.next m c r) :: post⟩
  | retry {pre post : List (Thread M)} {m : M} {c : C} {w w' : W} {r : R c} (e : E) :
      O.allows m c → H.retries c = true → H.exec c e w = some (r, w') →
      Step O H spawns ⟨w, pre ++ .running m :: post⟩ (.retry pre.length)
        ⟨w', pre ++ .running m :: post⟩
  | stop {pre post : List (Thread M)} {m : M} {w : W} :
      Step O H spawns ⟨w, pre ++ .running m :: post⟩ (.stop pre.length)
        ⟨w, pre ++ .stopped m :: post⟩
  | lose {pre post : List (Thread M)} {m : M} {c : C} {w w' : W} {r : R c} (e : E) :
      O.allows m c → H.exec c e w = some (r, w') →
      Step O H spawns ⟨w, pre ++ .running m :: post⟩ (.lose pre.length)
        ⟨w', pre ++ .lost m :: post⟩
  | spawn {ts : List (Thread M)} {w : W} {m : M} : spawns m →
      Step O H spawns ⟨w, ts⟩ .spawn ⟨w, ts ++ [.running m]⟩
  | drift {ts : List (Thread M)} {w w' : W} : H.drift w w' →
      Step O H spawns ⟨w, ts⟩ .drift ⟨w', ts⟩

inductive At (O : Outline R M) (post : M → α → Prop) : Thread (Prog R α) → Thread M → Prop
  | running {p : Prog R α} {m : M} : p.Follows O post m → At O post (.running p) (.running m)
  | stopped {p : Prog R α} {m : M} : p.Follows O post m → At O post (.stopped p) (.stopped m)
  | lost {p : Prog R α} {m : M} : p.Follows O post m → At O post (.lost p) (.lost m)

structure Matches (O : Outline R M) (post : M → α → Prop) (s : Pool W (Prog R α))
    (a : Pool W M) : Prop where
  world : s.world = a.world
  threads : List.Forall₂ (O.At post) s.threads a.threads

end Outline

theorem forall₂_middle_split {A B : Type} {r : A → B → Prop} {pre post : List A} {t : A}
    {ms : List B} (h : List.Forall₂ r (pre ++ t :: post) ms) :
    ∃ mpre m mpost, ms = mpre ++ m :: mpost ∧ pre.length = mpre.length ∧
      List.Forall₂ r pre mpre ∧ r t m ∧ List.Forall₂ r post mpost := by
  induction pre generalizing ms with
  | nil =>
    obtain ⟨m, mpost, ht, hp, rfl⟩ := List.forall₂_cons_left_iff.mp h
    exact ⟨[], m, mpost, rfl, rfl, .nil, ht, hp⟩
  | cons a pre ih =>
    obtain ⟨b, rest, hab, hr, rfl⟩ := List.forall₂_cons_left_iff.mp h
    obtain ⟨mpre, m, mpost, rfl, hl, hpre, ht, hpost⟩ := ih hr
    exact ⟨b :: mpre, m, mpost, rfl, by simp [hl], .cons hab hpre, ht, hpost⟩

theorem forall₂_middle {A B : Type} {r : A → B → Prop} {pre post : List A} {t : A}
    {mpre mpost : List B} {m : B} (hpre : List.Forall₂ r pre mpre) (ht : r t m)
    (hpost : List.Forall₂ r post mpost) :
    List.Forall₂ r (pre ++ t :: post) (mpre ++ m :: mpost) :=
  List.rel_append hpre (.cons ht hpost)

def total {A : Type} (f : A → Nat) (ts : List A) : Nat := (ts.map f).sum

theorem total_middle {A : Type} (f : A → Nat) (pre post : List A) (t : A) :
    total f (pre ++ t :: post) = total f pre + f t + total f post := by
  simp [total, Nat.add_assoc]

theorem total_middle_le {A : Type} {f : A → Nat} {pre post : List A} {t t' : A} (h : f t' ≤ f t) :
    total f (pre ++ t' :: post) ≤ total f (pre ++ t :: post) := by
  rw [total_middle, total_middle]
  omega

theorem total_concat {A : Type} (f : A → Nat) (ts : List A) (t : A) :
    total f (ts ++ [t]) = total f ts + f t := by
  simp [total]

theorem total_mono {A : Type} {f g : A → Nat} (h : ∀ t, f t ≤ g t) (ts : List A) :
    total f ts ≤ total g ts := by
  induction ts with
  | nil => exact Nat.le_refl _
  | cons t ts ih =>
    simp only [total, List.map_cons, List.sum_cons] at ih ⊢
    exact Nat.add_le_add (h t) ih

theorem total_eq_zero {A : Type} {f : A → Nat} {ts : List A} (h : ∀ t ∈ ts, f t = 0) :
    total f ts = 0 := by
  induction ts with
  | nil => rfl
  | cons t ts ih =>
    have hh := ih fun t' ht' => h t' (by simp [ht'])
    simp only [total, List.map_cons, List.sum_cons] at hh ⊢
    rw [h t (by simp), hh]

theorem exists_of_total_pos {A : Type} {f : A → Nat} {ts : List A} (h : 0 < total f ts) :
    ∃ t ∈ ts, 0 < f t := by
  by_contra hno
  simp only [not_exists, not_and, Nat.not_lt, Nat.le_zero] at hno
  rw [total_eq_zero hno] at h
  exact Nat.lt_irrefl 0 h

namespace Outline.Matches

variable {O : Outline R M} {post : M → α → Prop} {s : Pool W (Prog R α)}

theorem running_at {w : W} {mpre mpost : List (Thread M)} {m : M}
    (h : O.Matches post s ⟨w, mpre ++ .running m :: mpost⟩) :
    ∃ p, s.threads[mpre.length]? = some (.running p) ∧ p.Follows O post m := by
  obtain ⟨pre, t, tail, hs, hl, _, ht, _⟩ := forall₂_middle_split h.threads.flip
  cases ht with
  | @running p _ hf => exact ⟨p, by simp [hs, hl], hf⟩

theorem getElem? {a : Pool W M} (h : O.Matches post s a) {i : Nat} {t : Thread (Prog R α)}
    (ht : s.threads[i]? = some t) : ∃ t', a.threads[i]? = some t' ∧ O.At post t t' := by
  obtain ⟨hs, hl⟩ := Host.getElem?_split ht
  have hf := h.threads
  rw [hs] at hf
  obtain ⟨mpre, t', mpost, hm, hlen, _, hat, _⟩ := forall₂_middle_split hf
  refine ⟨t', ?_, hat⟩
  rw [hm, ← hl, hlen]
  simp

theorem mem {a : Pool W M} (h : O.Matches post s a) {t : Thread M} (ht : t ∈ a.threads) :
    ∃ t' ∈ s.threads, O.At post t' t := by
  obtain ⟨mpre, mpost, hm⟩ := List.append_of_mem ht
  have hf := h.threads
  rw [hm] at hf
  obtain ⟨pre, t', tail, hs, _, _, ht', _⟩ := forall₂_middle_split hf.flip
  exact ⟨t', by simp [hs], ht'⟩

end Outline.Matches

/-- Replacing every program by its mode simulates the pool, label by label. -/
theorem Host.Step.simulated {H : Host R E W} {O : Outline R M} {post : M → α → Prop}
    {spawns : Prog R α → Prop} {spawnsMode : M → Prop}
    (hspawn : ∀ p, spawns p → ∃ m, spawnsMode m ∧ p.Follows O post m)
    {s s' : Pool W (Prog R α)} {l : Label} (h : H.Step spawns s l s')
    {a : Pool W M} (hm : O.Matches post s a) :
    ∃ a', O.Step H spawnsMode a l a' ∧ O.Matches post s' a' := by
  obtain ⟨v, ms⟩ := a
  obtain ⟨hw, ht⟩ := hm
  cases h with
  | @reply pre tail c k w w' r e he =>
    obtain rfl : w = v := hw
    obtain ⟨mpre, m, mpost, rfl, hl, hpre, ha, hpost⟩ := forall₂_middle_split ht
    cases ha with
    | running hf =>
      rw [hl]
      exact ⟨_, .reply e hf.1 he, rfl, forall₂_middle hpre (.running (hf.2 r)) hpost⟩
  | @retry pre tail c k w w' r e hr he =>
    obtain rfl : w = v := hw
    obtain ⟨mpre, m, mpost, rfl, hl, hpre, ha, hpost⟩ := forall₂_middle_split ht
    cases ha with
    | running hf =>
      rw [hl]
      exact ⟨_, .retry e hf.1 hr he, rfl, forall₂_middle hpre (.running hf) hpost⟩
  | @stop pre tail c k w =>
    obtain rfl : w = v := hw
    obtain ⟨mpre, m, mpost, rfl, hl, hpre, ha, hpost⟩ := forall₂_middle_split ht
    cases ha with
    | running hf =>
      rw [hl]
      exact ⟨_, .stop, rfl, forall₂_middle hpre (.stopped hf) hpost⟩
  | @lose pre tail c k w w' r e he =>
    obtain rfl : w = v := hw
    obtain ⟨mpre, m, mpost, rfl, hl, hpre, ha, hpost⟩ := forall₂_middle_split ht
    cases ha with
    | running hf =>
      rw [hl]
      exact ⟨_, .lose e hf.1 he, rfl, forall₂_middle hpre (.lost hf) hpost⟩
  | @spawn ts w p hp =>
    obtain rfl : w = v := hw
    obtain ⟨m, hsm, hf⟩ := hspawn p hp
    exact ⟨_, .spawn hsm, rfl, List.rel_append ht (.cons (.running hf) .nil)⟩
  | @drift ts w w' hd =>
    obtain rfl : w = v := hw
    exact ⟨_, .drift hd, rfl, ht⟩

/-- An invariant of the modes is an invariant of the programs. The step of the
programs, and the condition it meets, stay available. -/
theorem Host.Run.outline_invariant {H : Host R E W} {O : Outline R M} {post : M → α → Prop}
    {spawns : Prog R α → Prop} {spawnsMode : M → Prop}
    {cond : Pool W (Prog R α) → Label → Prop} {I : Pool W M → Prop}
    (hspawn : ∀ p, spawns p → ∃ m, spawnsMode m ∧ p.Follows O post m)
    (hstep : ∀ s l s' a a', O.Matches post s a → O.Matches post s' a' → cond s l →
      H.Step spawns s l s' → O.Step H spawnsMode a l a' → I a → I a')
    {s s' : Pool W (Prog R α)} (h : H.Run spawns cond s s')
    {a : Pool W M} (hm : O.Matches post s a) (h0 : I a) :
    ∃ a', O.Matches post s' a' ∧ I a' := by
  induction h with
  | refl => exact ⟨a, hm, h0⟩
  | tail _ hs ih =>
    obtain ⟨l, hc, hl⟩ := hs
    obtain ⟨b, hb, hI⟩ := ih
    obtain ⟨b', hs', hm'⟩ := hl.simulated hspawn hb
    exact ⟨b', hm', hstep _ _ _ _ _ hb hm' hc hl hs' hI⟩

end AiPrReview
