import AiPrReview.Pool
import AiPrReview.Reliability

/-! Pools whose calls go through guards. A thread repeats an attempt, sleeps
and reports to its breaker where a thread of the plain pool makes one call. -/

namespace AiPrReview

variable {C : Type} {R : C → Type} {E W B α β ε : Type}

/-- How an awaited operation ends that does not return. -/
inductive Failure (ε : Type) : Type where
  | raised (e : Exc ε)
  | cancelled

def Failure.outcome {γ : Type} : Failure ε → Outcome γ ε
  | raised e => .raised e
  | cancelled => .cancelled

/-- How one attempt ends. After a lost reply the statement has taken effect. -/
inductive AttemptFate (ε : Type) : Type where
  | served
  | refused (f : Failure ε)
  | lostReply (f : Failure ε)

/-- `guarded i c g` is a step `g` of the guarded call `c` through breaker `i`. -/
inductive GuardedCall (C : Type) : Type where
  | plain (c : C)
  | guarded (i : Nat) (c : C) (g : GuardCall Unit)

def GuardedCall.Reply (R : C → Type) (ε : Type) : GuardedCall C → Type
  | plain c => R c
  | guarded _ c g => g.Reply (R c) ε

abbrev GuardedProg (R : C → Type) (ε α : Type) : Type := Prog (GuardedCall.Reply R ε) α

structure GuardedWorld (B W : Type) : Type where
  guards : Nat → GuardWorld B
  world : W

structure GuardedChoice (E ε : Type) : Type where
  choice : E
  now : ℚ
  fate : AttemptFate ε
  slept : Bool

namespace Host

/-- One attempt of `c`: its outcome and the world after it. -/
def attempt (H : Host R E W) (c : C) (e : GuardedChoice E ε) (w : W) : Option (Outcome (R c) ε × W) :=
  match e.fate with
  | .served => (H.exec c e.choice w).map fun x => (.returned x.1, x.2)
  | .refused f => some (f.outcome, w)
  | .lostReply f => (H.exec c e.choice w).map fun x => (f.outcome, x.2)

/-- The answer of guard `i`, which knows the attempt's outcome. -/
def askGuard (I : BreakerOps B) (i : Nat) (c : C) (g : GuardCall Unit) (o : Outcome (R c) ε)
    (e : GuardedChoice E ε) (w : GuardedWorld B W) : Option (g.Reply (R c) ε × GuardedWorld B W) :=
  (I.exec g ⟨e.now, o, e.slept⟩ (w.guards i)).map fun x =>
    (x.1, { w with guards := Function.update w.guards i x.2 })

/-- The host behind its guards. A guarded call is repeated by the program itself. -/
def guarded (H : Host R E W) (I : BreakerOps B) :
    Host (GuardedCall.Reply R ε) (GuardedChoice E ε) (GuardedWorld B W) where
  exec
    | .plain c, e, w => (H.exec c e.choice w.world).map fun x => (x.1, { w with world := x.2 })
    | .guarded i c (.attempt op), e, w => (H.attempt c e w.world).bind fun x =>
        askGuard I i c (.attempt op) x.1 e { w with world := x.2 }
    | .guarded i c g, e, w => askGuard I i c g .cancelled e w
  retries _ := false
  drift w w' := H.drift w.world w'.world ∧ w'.guards = w.guards

end Host

namespace Prog

/-- The calls of a guard as calls of breaker `i` for `c`. -/
def throughGuard {γ : Type} (i : Nat) (c : C) (f : β → GuardedProg R ε γ) :
    GuardProg (R c) ε Unit β → GuardedProg R ε γ
  | .ret b => f b
  | .call g k => .call (.guarded i c g) fun r => throughGuard i c f (k r)

theorem throughGuard_bind {β' γ : Type} (i : Nat) (c : C) (f : β' → GuardedProg R ε γ)
    (p : GuardProg (R c) ε Unit β) (h : β → GuardProg (R c) ε Unit β') :
    throughGuard i c f (p >>= h) = throughGuard i c (fun b => throughGuard i c f (h b)) p := by
  induction p with
  | ret b => rfl
  | call g k ih => exact congrArg (Prog.call _) (funext fun r => ih r)

/-- `p` with the calls that `retries` marks made through a guard; `none` when
one of them raises. -/
def guarded (retries : C → Bool) (g : Reliability.Guard ε) (i : Nat) (name : C → Text) :
    Prog R α → GuardedProg R ε (Option α)
  | .ret a => .ret (some a)
  | .call c k =>
    if retries c then
      throughGuard i c (fun
        | .ended (.returned r) => (k r).guarded retries g i name
        | _ => .ret none) (g.call () (name c))
    else .call (.plain c) fun r => (k r).guarded retries g i name

/-- What is left of a guarded execution, `p`, where what is left of the plain
one is `q`, or nothing since it has raised. -/
def Mirrors (retries : C → Bool) : GuardedProg R ε (Option α) → Option (Prog R α) → Prop
  | .ret x, q => q = x.map .ret
  | .call (.plain c) k, q => ∃ k', q = some (.call c k') ∧ ∀ r, (k r).Mirrors retries (some (k' r))
  | .call (.guarded _ c (.attempt _)) k, q => retries c = true ∧ ∃ k', q = some (.call c k') ∧
      (∀ r, (k (.returned r)).Mirrors retries (some (k' r))) ∧
      ∀ f : Failure ε, (k f.outcome).Mirrors retries q ∨ (k f.outcome).Mirrors retries none
  | .call (.guarded ..) k, q => ∀ r, (k r).Mirrors retries q ∨
      ((∃ c k', q = some (.call c k')) ∧ (k r).Mirrors retries none)

section

variable {retries : C → Bool} {g : Reliability.Guard ε} {i : Nat} {c : C} {name : Text}
  {k : R c → Prog R α} {f : CallResult (R c) ε → GuardedProg R ε (Option α)}

/-- The way out of a guarded call that has raised. -/
def Escapes (f : CallResult (R c) ε → GuardedProg R ε (Option α)) : Prop :=
  f (.ended .cancelled) = .ret none ∧ (∀ e, f (.rejected e) = .ret none) ∧
    ∀ e, f (.ended (.raised e)) = .ret none

/-- What `__call__` does once the retry loop has ended. -/
def afterLoop (g : Reliability.Guard ε) : Outcome (R c) ε → GuardProg (R c) ε Unit (CallResult (R c) ε)
  | .cancelled => .ret (.ended .cancelled)
  | .raised e =>
    if g.breaker.isSome then .call .onFailure fun _ => .ret (.ended (.raised e)) else .ret (.ended (.raised e))
  | .returned a =>
    if g.breaker.isSome then .call .onSuccess fun _ => .ret (.ended (.returned a)) else .ret (.ended (.returned a))

theorem admitted_eq (g : Reliability.Guard ε) (name : Text) : g.admitted () name =
    Reliability.retryAsync (g.attempt () name) g.attempts g.baseDelay Reliability.defaultMaxDelay g.retryOn >>=
      afterLoop (c := c) (R := R) g := by
  refine congrArg (_ >>= ·) (funext fun o => ?_)
  cases o <;> rfl

theorem afterLoop_failed (hf : Escapes f) (x : Failure ε) :
    (throughGuard i c f (afterLoop g x.outcome)).Mirrors retries none := by
  obtain ⟨hcancelled, _, hraised⟩ := hf
  cases x with
  | cancelled =>
    show (f (.ended .cancelled)).Mirrors retries none
    rw [hcancelled]
    rfl
  | raised e =>
    have hret : (f (.ended (.raised e))).Mirrors retries none := by
      rw [hraised]
      rfl
    simp only [Failure.outcome, afterLoop]
    split_ifs
    · exact fun _ => .inl hret
    · exact hret

theorem afterLoop_returned (hk : ∀ r, (f (.ended (.returned r))).Mirrors retries (some (k r))) (r : R c) :
    (throughGuard i c f (afterLoop g (.returned r))).Mirrors retries (some (k r)) := by
  simp only [afterLoop]
  split_ifs
  · exact fun _ => .inl (hk r)
  · exact hk r

theorem seen_failure (g : Reliability.Guard ε) (name : Text) (x : Failure ε) :
    ∃ y : Failure ε, (g.seen name x.outcome : Outcome (R c) ε) = y.outcome := by
  cases x with
  | cancelled =>
    refine ⟨.cancelled, ?_⟩
    unfold Reliability.Guard.seen
    split <;> rfl
  | raised e =>
    unfold Reliability.Guard.seen
    split
    · exact ⟨.raised e, rfl⟩
    · cases e with
      | timeoutError => exact ⟨.raised (.operationTimeout _ _), rfl⟩
      | _ => exact ⟨.raised _, rfl⟩

/-- With attempts to go, the loop stands where the plain call does; with none
left it has raised. -/
theorem retryLoop_mirrors (hc : retries c = true) (hf : Escapes f)
    (hk : ∀ r, (f (.ended (.returned r))).Mirrors retries (some (k r))) (left : Nat) (last : Option (Exc ε)) :
    (throughGuard i c (fun o => throughGuard i c f (afterLoop g o))
      (Reliability.retryLoop (g.attempt () name) g.attempts g.baseDelay Reliability.defaultMaxDelay g.retryOn
        left last)).Mirrors retries (if left = 0 then none else some (.call c k)) := by
  induction left generalizing last with
  | zero =>
    cases last with
    | none => exact afterLoop_failed (g := g) (i := i) hf (.raised .assertionError)
    | some e => exact afterLoop_failed (g := g) (i := i) hf (.raised e)
  | succ left ih =>
    rw [if_neg (Nat.succ_ne_zero left), Reliability.Guard.retryLoop_succ]
    refine ⟨hc, k, rfl, fun r => ?_, fun x => ?_⟩
    · have hseen : g.seen name (.returned r) = .returned r := by
        unfold Reliability.Guard.seen
        split <;> rfl
      simp only [hseen]
      exact afterLoop_returned hk r
    · obtain ⟨y, hy⟩ := seen_failure (c := c) (R := R) g name x
      simp only [hy]
      cases y with
      | cancelled => exact .inr (afterLoop_failed (g := g) (i := i) hf .cancelled)
      | raised e =>
        by_cases hretry : g.retryOn e = true
        · have hrest := ih (some e)
          -- the last of the attempts does not sleep
          by_cases hsleeps : g.attempts - (left + 1) < g.attempts - 1
          · simp only [Failure.outcome, hretry, if_true, if_pos hsleeps]
            refine .inl fun slept => ?_
            cases slept with
            | false => exact .inr ⟨⟨c, k, rfl⟩, afterLoop_failed (g := g) (i := i) hf .cancelled⟩
            | true =>
              split_ifs at hrest
              · exact .inr ⟨⟨c, k, rfl⟩, hrest⟩
              · exact .inl hrest
          · simp only [Failure.outcome, hretry, if_true, if_neg hsleeps]
            split_ifs at hrest
            · exact .inr hrest
            · exact .inl hrest
        · simp only [Failure.outcome, hretry]
          exact .inr (afterLoop_failed (g := g) (i := i) hf (.raised e))

end

/-- The guarded program stands where the plain one does, call after call. -/
theorem guarded_mirrors {g : Reliability.Guard ε} (hattempts : 1 ≤ g.attempts) (retries : C → Bool) (i : Nat)
    (name : C → Text) (p : Prog R α) : (p.guarded retries g i name).Mirrors retries (some p) := by
  induction p with
  | ret a => exact rfl
  | call c k ih =>
    by_cases hc : retries c = true
    · simp only [guarded, if_pos hc]
      have hadmitted : ∀ f : CallResult (R c) ε → GuardedProg R ε (Option α), Escapes f →
          (∀ r, (f (.ended (.returned r))).Mirrors retries (some (k r))) →
          (throughGuard i c f (g.admitted () (name c))).Mirrors retries (some (.call c k)) := by
        intro f hf hk
        have hloop : (throughGuard i c (fun o => throughGuard i c f (afterLoop g o))
            (Reliability.retryLoop (g.attempt () (name c)) g.attempts g.baseDelay Reliability.defaultMaxDelay g.retryOn
              g.attempts none)).Mirrors retries (if g.attempts = 0 then none else some (.call c k)) :=
          retryLoop_mirrors hc hf hk g.attempts none
        rw [if_neg (by omega)] at hloop
        rw [admitted_eq, throughGuard_bind, Reliability.retryAsync, if_neg (by omega)]
        exact hloop
      have hf : Escapes (R := R) (c := c) (ε := ε) (α := α) (fun
          | .ended (.returned r) => (k r).guarded retries g i name
          | _ => .ret none) := ⟨rfl, fun _ => rfl, fun _ => rfl⟩
      unfold Reliability.Guard.call
      split
      · exact hadmitted _ hf ih
      · intro admission
        cases admission with
        | rejected => exact .inr ⟨⟨c, k, rfl⟩, rfl⟩
        | closed => exact .inl (hadmitted _ hf ih)
        | probe => exact .inl (hadmitted _ hf ih)
    · simp only [guarded, if_neg hc]
      exact ⟨k, rfl, ih⟩

end Prog

/-! The simulation. A guarded execution that has raised is a stopped or a lost
one of the plain pool; one that is killed while it reports stands at its end there. -/

def Thread.Mirrors (retries : C → Bool) : Thread (GuardedProg R ε (Option α)) → Thread (Prog R α) → Prop
  | .running p, .running q => p.Mirrors retries (some q)
  | .running p, _ => p.Mirrors retries none
  | .stopped _, t => t.next = none
  | .lost _, t => t.next = none

structure Pool.Mirrors (retries : C → Bool) (s : Pool (GuardedWorld B W) (GuardedProg R ε (Option α)))
    (a : Pool W (Prog R α)) : Prop where
  world : s.world.world = a.world
  threads : List.Forall₂ (Thread.Mirrors retries) s.threads a.threads

/-- What thread `i` has returned. -/
def Pool.result (s : Pool W (Prog R α)) (i : Nat) : Option α := s.threads[i]?.bind Thread.result

/-- The guarded programs that start where plain ones may. -/
def Guards (spawns : Prog R α → Prop) (retries : C → Bool) (g : Reliability.Guard ε) (name : C → Text)
    (p : GuardedProg R ε (Option α)) : Prop :=
  ∃ q i, spawns q ∧ p = q.guarded retries g i name

namespace Host

variable {H : Host R E W} {I : BreakerOps B} {spawns : Prog R α → Prop} {w : W}

/-- The plain pool can leave `t'` for its thread `t`, and the world `w'`. -/
def Answers (H : Host R E W) (spawns : Prog R α → Prop) (w : W) (t : Thread (Prog R α)) (w' : W)
    (t' : Thread (Prog R α)) : Prop :=
  ∀ pre post, H.Run spawns (fun _ _ => True) ⟨w, pre ++ t :: post⟩ ⟨w', pre ++ t' :: post⟩

theorem Answers.refl (w : W) (t : Thread (Prog R α)) : H.Answers spawns w t w t := fun _ _ => .refl

theorem Answers.of_step {t t' : Thread (Prog R α)} {w' : W}
    (h : ∀ pre post, ∃ l, H.Step spawns ⟨w, pre ++ t :: post⟩ l ⟨w', pre ++ t' :: post⟩) :
    H.Answers spawns w t w' t' := by
  intro pre post
  obtain ⟨l, hl⟩ := h pre post
  exact .single ⟨l, trivial, hl⟩

section

variable {c : C} {k : R c → Prog R α} {e : E} {w' : W} {r : R c}

theorem Answers.reply (h : H.exec c e w = some (r, w')) :
    H.Answers spawns w (.running (.call c k)) w' (.running (k r)) :=
  .of_step fun _ _ => ⟨_, .reply e h⟩

theorem Answers.retry (hc : H.retries c = true) (h : H.exec c e w = some (r, w')) :
    H.Answers spawns w (.running (.call c k)) w' (.running (.call c k)) :=
  .of_step fun _ _ => ⟨_, .retry e hc h⟩

theorem Answers.lose (h : H.exec c e w = some (r, w')) :
    H.Answers spawns w (.running (.call c k)) w' (.lost (.call c k)) :=
  .of_step fun _ _ => ⟨_, .lose e h⟩

theorem Answers.stop : H.Answers spawns w (.running (.call c k)) w (.stopped (.call c k)) :=
  .of_step fun _ _ => ⟨_, .stop⟩

end

/-- A thread that is killed makes no more calls. -/
theorem Answers.kill (w : W) (t : Thread (Prog R α)) : ∃ t', H.Answers spawns w t w t' ∧ t'.next = none := by
  cases t with
  | running q =>
    cases q with
    | ret a => exact ⟨_, .refl w _, rfl⟩
    | call c k => exact ⟨_, .stop, rfl⟩
  | stopped q => exact ⟨_, .refl w _, rfl⟩
  | lost q => exact ⟨_, .refl w _, rfl⟩

theorem askGuard_world {i : Nat} {c : C} {g : GuardCall Unit} {o : Outcome (R c) ε} {e : GuardedChoice E ε}
    {v v' : GuardedWorld B W} {r : g.Reply (R c) ε} (h : askGuard I i c g o e v = some (r, v')) :
    v'.world = v.world := by
  obtain ⟨x, _, hx⟩ := Option.map_eq_some_iff.mp h
  obtain ⟨_, rfl⟩ := Prod.mk.injEq .. ▸ hx
  rfl

theorem askGuard_attempt {i : Nat} {c : C} {op : Unit} {o : Outcome (R c) ε} {e : GuardedChoice E ε}
    {v v' : GuardedWorld B W} {r : Outcome (R c) ε} (h : askGuard I i c (.attempt op) o e v = some (r, v')) :
    r = o := by
  obtain ⟨x, hx, hv⟩ := Option.map_eq_some_iff.mp h
  obtain ⟨hr, _⟩ := Prod.mk.injEq .. ▸ hv
  exact hr ▸ (congrArg Prod.fst (BreakerOps.exec_eq_some_iff.mp hx).2.1).symm

/-- The plain execution a thread still has. -/
def live : Thread (Prog R α) → Option (Prog R α)
  | .running q => some q
  | _ => none

theorem mirrors_iff_live {p : GuardedProg R ε (Option α)} {retries : C → Bool} {t : Thread (Prog R α)} :
    (Thread.running p).Mirrors retries t ↔ p.Mirrors retries (live t) := by
  cases t <;> rfl

/-- A step that leaves the world alone and keeps the execution at its call, or raises. -/
theorem answered_quiet {p : GuardedProg R ε (Option α)} {t : Thread (Prog R α)}
    (h : p.Mirrors H.retries (live t) ∨
      ((∃ c k', live t = some (.call c k')) ∧ p.Mirrors H.retries none)) :
    ∃ t', H.Answers spawns w t w t' ∧ (Thread.running p).Mirrors H.retries t' := by
  rcases h with hp | ⟨⟨c, k', hq⟩, hnone⟩
  · exact ⟨t, .refl w t, mirrors_iff_live.mpr hp⟩
  · cases t with
    | running q =>
      obtain rfl := Option.some.inj hq
      exact ⟨_, .stop, hnone⟩
    | stopped q => cases hq
    | lost q => cases hq

/-- What one answered call of a guarded thread is for the plain pool. -/
theorem answered {gc : GuardedCall C} {k : GuardedCall.Reply R ε gc → GuardedProg R ε (Option α)}
    {e : GuardedChoice E ε} {v v' : GuardedWorld B W} {r : GuardedCall.Reply R ε gc} {t : Thread (Prog R α)}
    (h : (H.guarded I).exec gc e v = some (r, v')) (ht : (Thread.running (.call gc k)).Mirrors H.retries t) :
    ∃ t', H.Answers spawns v.world t v'.world t' ∧ (Thread.running (k r)).Mirrors H.retries t' := by
  cases gc with
  | plain c =>
    obtain ⟨⟨x, w'⟩, hx, hv⟩ := Option.map_eq_some_iff.mp h
    obtain ⟨rfl, rfl⟩ := Prod.mk.injEq .. ▸ hv
    cases t with
    | running q =>
      obtain ⟨k', hq, hk⟩ := ht
      obtain rfl := Option.some.inj hq
      exact ⟨_, .reply hx, hk x⟩
    | stopped q => exact absurd ht.choose_spec.1 nofun
    | lost q => exact absurd ht.choose_spec.1 nofun
  | guarded i c g =>
    cases g with
    | attempt op =>
      obtain ⟨⟨o, w'⟩, hattempt, hask⟩ := Option.bind_eq_some_iff.mp h
      obtain rfl : r = o := askGuard_attempt hask
      have hworld : v'.world = w' := askGuard_world hask
      rw [hworld]
      cases t with
      | running q =>
        obtain ⟨hretry, k', hq, hreturned, hfailed⟩ := ht
        obtain rfl := Option.some.inj hq
        unfold attempt at hattempt
        split at hattempt
        · obtain ⟨⟨x, w₁⟩, hx, hv⟩ := Option.map_eq_some_iff.mp hattempt
          obtain ⟨rfl, rfl⟩ := Prod.mk.injEq .. ▸ hv
          exact ⟨_, .reply hx, hreturned x⟩
        · next f _ =>
          obtain ⟨rfl, rfl⟩ := Prod.mk.injEq .. ▸ Option.some.inj hattempt
          rcases hfailed f with hf | hf
          · exact ⟨_, .refl _ _, hf⟩
          · exact ⟨_, .stop, hf⟩
        · next f _ =>
          obtain ⟨⟨x, w₁⟩, hx, hv⟩ := Option.map_eq_some_iff.mp hattempt
          obtain ⟨rfl, rfl⟩ := Prod.mk.injEq .. ▸ hv
          rcases hfailed f with hf | hf
          · exact ⟨_, .retry hretry hx, hf⟩
          · exact ⟨_, .lose hx, hf⟩
      | stopped q => exact absurd ht.2.choose_spec.1 nofun
      | lost q => exact absurd ht.2.choose_spec.1 nofun
    | beforeCall =>
      rw [askGuard_world h]
      exact answered_quiet (mirrors_iff_live.mp ht r)
    | sleep seconds =>
      rw [askGuard_world h]
      exact answered_quiet (mirrors_iff_live.mp ht r)
    | onSuccess =>
      rw [askGuard_world h]
      exact answered_quiet (mirrors_iff_live.mp ht r)
    | onFailure =>
      rw [askGuard_world h]
      exact answered_quiet (mirrors_iff_live.mp ht r)

/-- One step of the guarded pool is a run of the plain one. -/
theorem guarded_step {g : Reliability.Guard ε} (hattempts : 1 ≤ g.attempts) {name : C → Text}
    {s s' : Pool (GuardedWorld B W) (GuardedProg R ε (Option α))} {l : Label} {a : Pool W (Prog R α)}
    (h : (H.guarded I).Step (Guards spawns H.retries g name) s l s') (hm : s.Mirrors H.retries a) :
    ∃ a', H.Run spawns (fun _ _ => True) a a' ∧ s'.Mirrors H.retries a' := by
  obtain ⟨v, ts⟩ := a
  obtain ⟨hw, hts⟩ := hm
  cases h with
  | @reply pre post gc k w w' r e he =>
    obtain rfl : w.world = v := hw
    obtain ⟨apre, t, apost, rfl, _, hpre, ht, hpost⟩ := forall₂_middle_split hts
    obtain ⟨t', hrun, ht'⟩ := answered he ht
    exact ⟨⟨w'.world, apre ++ t' :: apost⟩, hrun apre apost, rfl, forall₂_middle hpre ht' hpost⟩
  | @retry pre post gc k w w' r e hr he => exact absurd hr Bool.false_ne_true
  | @stop pre post gc k w =>
    obtain rfl : w.world = v := hw
    obtain ⟨apre, t, apost, rfl, _, hpre, ht, hpost⟩ := forall₂_middle_split hts
    obtain ⟨t', hrun, ht'⟩ : ∃ t', H.Answers spawns w.world t w.world t' ∧ t'.next = none := Answers.kill w.world t
    exact ⟨⟨w.world, apre ++ t' :: apost⟩, hrun apre apost, rfl, forall₂_middle hpre ht' hpost⟩
  | @lose pre post gc k w w' r e he =>
    obtain rfl : w.world = v := hw
    obtain ⟨apre, t, apost, rfl, _, hpre, ht, hpost⟩ := forall₂_middle_split hts
    obtain ⟨t₁, hrun, _⟩ := answered he ht
    obtain ⟨t', hkill, ht'⟩ : ∃ t', H.Answers spawns w'.world t₁ w'.world t' ∧ t'.next = none :=
      Answers.kill w'.world t₁
    exact ⟨⟨w'.world, apre ++ t' :: apost⟩, (hrun apre apost).trans (hkill apre apost), rfl,
      forall₂_middle hpre ht' hpost⟩
  | @spawn ts' w p hp =>
    obtain rfl : w.world = v := hw
    obtain ⟨q, i, hq, rfl⟩ := hp
    have hat : Thread.Mirrors H.retries (.running (q.guarded H.retries g i name)) (.running q) :=
      Prog.guarded_mirrors hattempts H.retries i name q
    exact ⟨⟨w.world, ts ++ [.running q]⟩, .single ⟨.spawn, trivial, .spawn hq⟩, rfl,
      List.rel_append hts (.cons hat .nil)⟩
  | @drift ts' w w' hd =>
    obtain rfl : w.world = v := hw
    exact ⟨⟨w'.world, ts⟩, .single ⟨.drift, trivial, .drift hd.1⟩, rfl, hts⟩

/-- Every run of the guarded pool is one of the plain pool, to the same world. -/
theorem guarded_run {g : Reliability.Guard ε} (hattempts : 1 ≤ g.attempts) {name : C → Text}
    {cond : Pool (GuardedWorld B W) (GuardedProg R ε (Option α)) → Label → Prop}
    {s s' : Pool (GuardedWorld B W) (GuardedProg R ε (Option α))} {a : Pool W (Prog R α)}
    (h : (H.guarded I).Run (Guards spawns H.retries g name) cond s s') (hm : s.Mirrors H.retries a) :
    ∃ a', H.Run spawns (fun _ _ => True) a a' ∧ s'.Mirrors H.retries a' := by
  induction h with
  | refl => exact ⟨a, .refl, hm⟩
  | tail _ hstep ih =>
    obtain ⟨l, _, hl⟩ := hstep
    obtain ⟨b, hb, hmb⟩ := ih
    obtain ⟨a', ha', hma'⟩ := guarded_step hattempts hl hmb
    exact ⟨a', hb.trans ha', hma'⟩

/-- What a guarded execution returns, its plain one does. -/
theorem result_of_mirrors {retries : C → Bool} {s : Pool (GuardedWorld B W) (GuardedProg R ε (Option α))}
    {a : Pool W (Prog R α)} (hm : s.Mirrors retries a) {i : Nat} {x : α}
    (hx : s.result i = some (some x)) : a.result i = some x := by
  obtain ⟨t, ht, hr⟩ := Option.bind_eq_some_iff.mp hx
  obtain ⟨hs, hl⟩ := getElem?_split ht
  have hts := hm.threads
  rw [hs] at hts
  obtain ⟨apre, t', apost, ha, hlen, _, htt', _⟩ := forall₂_middle_split hts
  rw [Pool.result, ha, ← hl, hlen]
  cases t with
  | running p =>
    cases p with
    | ret y =>
      obtain rfl := Option.some.inj hr
      have hp := mirrors_iff_live.mp htt'
      cases t' with
      | running q =>
        obtain rfl : q = .ret x := Option.some.inj hp
        simp [Thread.result]
      | stopped q => cases hp
      | lost q => cases hp
    | call gc k => cases hr
  | stopped p => cases hr
  | lost p => cases hr

/-! A call made alone. -/

/-- Executing `c` again changes nothing, and gives the reply it would have given the first time. -/
def Repeats (H : Host R E W) (c : C) : Prop :=
  ∀ e e' w w₁ w₂ r r', H.exec c e w = some (r, w₁) → H.exec c e' w₁ = some (r', w₂) →
    w₂ = w₁ ∧ H.exec c e' w = some (r', w₁)

/-- The thread of the call, from `w₀`: still to make it, done with it, or dead. -/
inductive Alone (H : Host R E W) (c : C) (w₀ : W) : W → Thread (Prog R (R c)) → Prop
  | calls {w : W} : (w = w₀ ∨ ∃ e r, H.exec c e w₀ = some (r, w)) → Alone H c w₀ w (.running (.call c .ret))
  | done {w : W} {e : E} {r : R c} : H.exec c e w₀ = some (r, w) → Alone H c w₀ w (.running (.ret r))
  | dead {w : W} {t : Thread (Prog R (R c))} : (w = w₀ ∨ ∃ e r, H.exec c e w₀ = some (r, w)) →
      (∀ q, t ≠ .running q) → Alone H c w₀ w t

theorem Alone.executed {c : C} {w₀ : W} {t : Thread (Prog R (R c))} (h : H.Alone c w₀ w t) :
    w = w₀ ∨ ∃ e r, H.exec c e w₀ = some (r, w) := by
  cases h with
  | calls h => exact h
  | done h => exact .inr ⟨_, _, h⟩
  | dead h _ => exact h

theorem Alone.exec {c : C} {w₀ w' : W} {e : E} {r : R c} (hrep : H.Repeats c)
    (h : w = w₀ ∨ ∃ e r, H.exec c e w₀ = some (r, w)) (he : H.exec c e w = some (r, w')) :
    H.exec c e w₀ = some (r, w') := by
  rcases h with rfl | ⟨e₁, r₁, h₁⟩
  · exact he
  · obtain ⟨rfl, hagain⟩ := hrep _ _ _ _ _ _ _ h₁ he
    exact hagain

theorem alone_step {c : C} {w₀ : W} (hrep : H.Repeats c) (hdrift : ∀ w w', ¬H.drift w w')
    {s s' : Pool W (Prog R (R c))} {l : Label} (h : H.Step (fun _ => False) s l s')
    (ha : ∃ t, s.threads = [t] ∧ H.Alone c w₀ s.world t) : ∃ t, s'.threads = [t] ∧ H.Alone c w₀ s'.world t := by
  obtain ⟨t, hts, ht⟩ := ha
  have hone : ∀ {pre post : List (Thread (Prog R (R c)))} {t' : Thread (Prog R (R c))},
      pre ++ t' :: post = [t] → pre = [] ∧ t' = t ∧ post = [] := by
    intro pre post t' he
    cases pre with
    | nil => exact ⟨rfl, (List.cons.inj he).1, (List.cons.inj he).2⟩
    | cons a pre => simp at he
  cases h with
  | @reply pre post c' k w w' r e he =>
    obtain ⟨rfl, rfl, rfl⟩ := hone hts
    cases ht with
    | calls hw => exact ⟨_, rfl, .done (Alone.exec hrep hw he)⟩
    | dead _ hno => exact absurd rfl (hno _)
  | @retry pre post c' k w w' r e hc he =>
    obtain ⟨rfl, rfl, rfl⟩ := hone hts
    cases ht with
    | calls hw => exact ⟨_, rfl, .calls (.inr ⟨e, r, Alone.exec hrep hw he⟩)⟩
    | dead _ hno => exact absurd rfl (hno _)
  | @stop pre post c' k w =>
    obtain ⟨rfl, rfl, rfl⟩ := hone hts
    exact ⟨_, rfl, .dead ht.executed nofun⟩
  | @lose pre post c' k w w' r e he =>
    obtain ⟨rfl, rfl, rfl⟩ := hone hts
    cases ht with
    | calls hw => exact ⟨_, rfl, .dead (.inr ⟨e, r, Alone.exec hrep hw he⟩) nofun⟩
    | dead _ hno => exact absurd rfl (hno _)
  | spawn h => exact absurd h id
  | drift h => exact absurd h (hdrift _ _)

theorem alone_run {c : C} {w₀ : W} (hrep : H.Repeats c) (hdrift : ∀ w w', ¬H.drift w w')
    {cond : Pool W (Prog R (R c)) → Label → Prop} {s : Pool W (Prog R (R c))}
    (h : H.Run (fun _ => False) cond ⟨w₀, [.running (Prog.perform c)]⟩ s) :
    ∃ t, s.threads = [t] ∧ H.Alone c w₀ s.world t := by
  induction h with
  | refl => exact ⟨_, rfl, .calls (.inl rfl)⟩
  | tail _ hstep ih =>
    obtain ⟨l, _, hl⟩ := hstep
    exact alone_step hrep hdrift hl ih

end Host

end AiPrReview
