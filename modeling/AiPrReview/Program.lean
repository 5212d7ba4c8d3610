import Mathlib.Data.Fintype.Defs
import Mathlib.Logic.Relation

/-! Programs as trees of calls. A program either returns a value or makes one
call and goes on with the reply. Who answers the calls, and in what world, is
left open here. -/

namespace AiPrReview

inductive Prog {C : Type} (R : C → Type) (α : Type) : Type where
  | ret (a : α)
  | call (c : C) (k : R c → Prog R α)

namespace Prog

variable {C : Type} {R : C → Type} {α β : Type}

protected def bind : Prog R α → (α → Prog R β) → Prog R β
  | ret a, f => f a
  | call c k, f => call c fun r => (k r).bind f

instance : Monad (Prog R) where
  pure := ret
  bind := Prog.bind

def perform (c : C) : Prog R (R c) := call c ret

@[simp] theorem ret_bind (a : α) (f : α → Prog R β) : (ret a >>= f) = f a := rfl

@[simp] theorem call_bind (c : C) (k : R c → Prog R α) (f : α → Prog R β) :
    (call c k >>= f) = call c fun r => k r >>= f := rfl

@[simp] theorem perform_bind (c : C) (f : R c → Prog R β) :
    (perform c >>= f) = call c f := rfl

/-- Every call answered by a program of its own. -/
def interpret {C' : Type} {R' : C' → Type} (h : (c : C) → Prog R' (R c)) : Prog R α → Prog R' α
  | ret a => ret a
  | call c k => h c >>= fun r => (k r).interpret h

theorem bind_assoc {γ : Type} (p : Prog R α) (f : α → Prog R β) (g : β → Prog R γ) :
    (p >>= f >>= g) = p >>= fun a => f a >>= g := by
  induction p with
  | ret a => rfl
  | call c k ih => exact congrArg (call c) (funext fun r => ih r)

theorem interpret_bind {C' : Type} {R' : C' → Type} (h : (c : C) → Prog R' (R c)) (p : Prog R α)
    (f : α → Prog R β) : (p >>= f).interpret h = p.interpret h >>= fun a => (f a).interpret h := by
  induction p with
  | ret a => rfl
  | call c k ih =>
    simp only [call_bind, interpret, bind_assoc]
    exact congrArg (h c >>= ·) (funext fun r => ih r)

/-- The calls that a program makes and its value, when `answer` answers. -/
def played (answer : (c : C) → R c) : Prog R α → List C × α
  | ret a => ([], a)
  | call c k => (c :: ((k (answer c)).played answer).1, ((k (answer c)).played answer).2)

@[simp] theorem played_ret (answer : (c : C) → R c) (a : α) : (ret a : Prog R α).played answer = ([], a) := rfl

@[simp] theorem played_call (answer : (c : C) → R c) (c : C) (k : R c → Prog R α) : (call c k).played answer =
    (c :: ((k (answer c)).played answer).1, ((k (answer c)).played answer).2) := rfl

theorem played_bind (answer : (c : C) → R c) (p : Prog R α) (f : α → Prog R β) : (p >>= f).played answer =
    ((p.played answer).1 ++ ((f (p.played answer).2).played answer).1, ((f (p.played answer).2).played answer).2) := by
  induction p with
  | ret a => rfl
  | call c k ih => rw [call_bind, played_call, ih, played_call, List.cons_append]

def void (p : Prog R α) : Prog R Unit := p >>= fun _ => ret ()

def next : Prog R α → Option C
  | ret _ => none
  | call c _ => some c

@[simp] theorem next_ret (a : α) : (ret a : Prog R α).next = none := rfl

@[simp] theorem next_call (c : C) (k : R c → Prog R α) : (call c k).next = some c := rfl

/-- `p.Talks talk q`: after exchanging the calls and replies of `talk`, what is
left of `p` is `q`. The replies are arbitrary. -/
inductive Talks : Prog R α → List (Sigma R) → Prog R α → Prop
  | refl (p : Prog R α) : Talks p [] p
  | cons {c : C} {k : R c → Prog R α} {r : R c} {talk : List (Sigma R)} {q : Prog R α} :
      Talks (k r) talk q → Talks (call c k) (⟨c, r⟩ :: talk) q

@[simp] theorem talks_ret_iff {a : α} {talk : List (Sigma R)} {q : Prog R α} :
    (ret a).Talks talk q ↔ talk = [] ∧ q = ret a := by
  constructor
  · intro h
    cases h
    exact ⟨rfl, rfl⟩
  · rintro ⟨rfl, rfl⟩
    exact .refl _

theorem talks_done_iff {a b : α} {talk : List (Sigma R)} :
    (ret a : Prog R α).Talks talk (ret b) ↔ talk = [] ∧ b = a := by
  rw [talks_ret_iff, ret.injEq]

theorem talks_call_iff {c : C} {k : R c → Prog R α} {talk : List (Sigma R)} {q : Prog R α} :
    (call c k).Talks talk q ↔ (talk = [] ∧ q = call c k) ∨
      ∃ r rest, talk = ⟨c, r⟩ :: rest ∧ (k r).Talks rest q := by
  constructor
  · intro h
    cases h with
    | refl => exact .inl ⟨rfl, rfl⟩
    | cons h => exact .inr ⟨_, _, rfl, h⟩
  · rintro (⟨rfl, rfl⟩ | ⟨r, rest, rfl, h⟩)
    · exact .refl _
    · exact .cons h

theorem talks_call_ret_iff {c : C} {k : R c → Prog R α} {talk : List (Sigma R)} {a : α} :
    (call c k).Talks talk (ret a) ↔ ∃ r rest, talk = ⟨c, r⟩ :: rest ∧ (k r).Talks rest (ret a) := by
  rw [talks_call_iff, or_iff_right]
  rintro ⟨_, hno⟩
  cases hno

theorem talks_last_iff {c : C} {f : R c → α} {talk : List (Sigma R)} {a : α} :
    (call c fun r => ret (f r)).Talks talk (ret a) ↔ ∃ r, talk = [⟨c, r⟩] ∧ a = f r := by
  rw [talks_call_ret_iff]
  constructor
  · rintro ⟨r, rest, rfl, h⟩
    obtain ⟨rfl, ha⟩ := talks_done_iff.mp h
    exact ⟨r, rfl, ha⟩
  · rintro ⟨r, rfl, rfl⟩
    exact ⟨r, [], rfl, .refl _⟩

/-- A finished talk of `p >>= f` is one of `p` and then one of `f`. -/
theorem talks_bind_ret_iff {p : Prog R α} {f : α → Prog R β} {talk : List (Sigma R)} {b : β} :
    (p >>= f).Talks talk (ret b) ↔
      ∃ first a rest, talk = first ++ rest ∧ p.Talks first (ret a) ∧ (f a).Talks rest (ret b) := by
  induction p generalizing talk with
  | ret a =>
    simp only [ret_bind, talks_ret_iff]
    constructor
    · intro h
      exact ⟨[], a, talk, rfl, ⟨rfl, rfl⟩, h⟩
    · rintro ⟨_, a', rest, rfl, ⟨rfl, ha⟩, h⟩
      obtain rfl := ret.inj ha
      exact h
  | call c k ih =>
    simp only [call_bind, talks_call_iff, ih, reduceCtorEq, and_false, false_or]
    constructor
    · rintro ⟨r, _, rfl, first, a, rest, rfl, hp, hf⟩
      exact ⟨⟨c, r⟩ :: first, a, rest, rfl, ⟨r, first, rfl, hp⟩, hf⟩
    · rintro ⟨_, a, rest, rfl, ⟨r, first, rfl, hp⟩, hf⟩
      exact ⟨r, first ++ rest, rfl, first, a, rest, rfl, hp, hf⟩

/-- `p` may reach a call of `goal` before it makes a call of `stop`. -/
inductive MayReach (goal stop : C → Prop) : Prog R α → Prop
  | here {c : C} {k : R c → Prog R α} : goal c → MayReach goal stop (call c k)
  | later {c : C} {k : R c → Prog R α} (r : R c) :
      ¬ stop c → MayReach goal stop (k r) → MayReach goal stop (call c k)

section

variable {goal stop : C → Prop}

theorem not_mayReach_ret {a : α} : ¬(ret a : Prog R α).MayReach goal stop := nofun

theorem mayReach_call_iff {c : C} {k : R c → Prog R α} :
    (call c k).MayReach goal stop ↔ goal c ∨ (¬stop c ∧ ∃ r, (k r).MayReach goal stop) := by
  constructor
  · intro h
    cases h with
    | here hg => exact .inl hg
    | later r hs hk => exact .inr ⟨hs, r, hk⟩
  · rintro (hg | ⟨hs, r, hk⟩)
    · exact .here hg
    · exact .later r hs hk

theorem mayReach_of_bind {p : Prog R α} {f : α → Prog R β} (h : (p >>= f).MayReach goal stop) :
    p.MayReach goal stop ∨ ∃ a, (f a).MayReach goal stop := by
  induction p with
  | ret a => exact .inr ⟨a, h⟩
  | call c k ih =>
    rcases mayReach_call_iff.mp h with hg | ⟨hs, r, hk⟩
    · exact .inl (.here hg)
    · exact (ih r hk).imp_left (.later r hs)

def decidableMayReach [∀ c, Fintype (R c)] [DecidablePred goal] [DecidablePred stop] :
    (p : Prog R α) → Decidable (p.MayReach goal stop)
  | ret _ => isFalse not_mayReach_ret
  | call _ k =>
    have : ∀ r, Decidable ((k r).MayReach goal stop) := fun r => decidableMayReach (k r)
    decidable_of_iff _ mayReach_call_iff.symm

instance [∀ c, Fintype (R c)] [DecidablePred goal] [DecidablePred stop] {p : Prog R α} :
    Decidable (p.MayReach goal stop) :=
  decidableMayReach p

end

/-! Sequential execution. `exec c e w` answers the call `c` in the world `w`
with the choice `e` the environment makes; `none` means that the call raises. -/

variable {E W : Type}

/-- `p` runs alone from `w` to completion, returning `a` in `w'`. -/
inductive Completes (exec : (c : C) → E → W → Option (R c × W)) :
    W → Prog R α → α → W → Prop
  | ret (w : W) (a : α) : Completes exec w (ret a) a w
  | call {w w' w'' : W} {c : C} {k : R c → Prog R α} {r : R c} {a : α} (e : E) :
      exec c e w = some (r, w') → Completes exec w' (k r) a w'' →
      Completes exec w (call c k) a w''

@[simp] theorem completes_ret_iff {exec : (c : C) → E → W → Option (R c × W)}
    {w w' : W} {a b : α} : Completes exec w (ret a) b w' ↔ b = a ∧ w' = w := by
  constructor
  · intro h
    cases h
    exact ⟨rfl, rfl⟩
  · rintro ⟨rfl, rfl⟩
    exact .ret _ _

theorem completes_call_iff {exec : (c : C) → E → W → Option (R c × W)}
    {w w' : W} {c : C} {k : R c → Prog R α} {a : α} :
    Completes exec w (call c k) a w' ↔
      ∃ e r w₁, exec c e w = some (r, w₁) ∧ Completes exec w₁ (k r) a w' := by
  constructor
  · intro h
    cases h with
    | call e he h => exact ⟨e, _, _, he, h⟩
  · rintro ⟨e, r, w₁, he, h⟩
    exact .call e he h

theorem completes_bind_iff {exec : (c : C) → E → W → Option (R c × W)}
    {w w' : W} {p : Prog R α} {f : α → Prog R β} {b : β} :
    Completes exec w (p >>= f) b w' ↔
      ∃ a w₁, Completes exec w p a w₁ ∧ Completes exec w₁ (f a) b w' := by
  induction p generalizing w with
  | ret a =>
    simp only [ret_bind, completes_ret_iff]
    constructor
    · intro h
      exact ⟨a, w, ⟨rfl, rfl⟩, h⟩
    · rintro ⟨_, _, ⟨rfl, rfl⟩, h⟩
      exact h
  | call c k ih =>
    simp only [call_bind, completes_call_iff, ih]
    constructor
    · rintro ⟨e, r, w₁, he, a, w₂, hp, hf⟩
      exact ⟨a, w₂, ⟨e, r, w₁, he, hp⟩, hf⟩
    · rintro ⟨a, w₂, ⟨e, r, w₁, he, hp⟩, hf⟩
      exact ⟨e, r, w₁, he, a, w₂, hp, hf⟩

/-- `Completes`, with every call and its reply in between, and the world after it. -/
inductive Traced (exec : (c : C) → E → W → Option (R c × W)) :
    W → Prog R α → List (W × Sigma R) → α → W → Prop
  | ret (w : W) (a : α) : Traced exec w (ret a) [] a w
  | call {w w' w'' : W} {c : C} {k : R c → Prog R α} {r : R c} {a : α} {trace : List (W × Sigma R)} (e : E) :
      exec c e w = some (r, w') → Traced exec w' (k r) trace a w'' →
      Traced exec w (call c k) ((w', ⟨c, r⟩) :: trace) a w''

theorem traced_ret_iff {exec : (c : C) → E → W → Option (R c × W)} {w w' : W} {a b : α}
    {trace : List (W × Sigma R)} : Traced exec w (ret a) trace b w' ↔ trace = [] ∧ b = a ∧ w' = w := by
  constructor
  · intro h
    cases h
    exact ⟨rfl, rfl, rfl⟩
  · rintro ⟨rfl, rfl, rfl⟩
    exact .ret _ _

theorem traced_call_iff {exec : (c : C) → E → W → Option (R c × W)} {w w' : W} {c : C}
    {k : R c → Prog R α} {a : α} {trace : List (W × Sigma R)} :
    Traced exec w (call c k) trace a w' ↔ ∃ e r w₁ rest, exec c e w = some (r, w₁) ∧
      trace = (w₁, ⟨c, r⟩) :: rest ∧ Traced exec w₁ (k r) rest a w' := by
  constructor
  · intro h
    cases h with
    | call e he h => exact ⟨e, _, _, _, he, rfl, h⟩
  · rintro ⟨e, r, w₁, rest, he, rfl, h⟩
    exact .call e he h

theorem traced_bind_iff {exec : (c : C) → E → W → Option (R c × W)} {w w' : W} {p : Prog R α}
    {f : α → Prog R β} {b : β} {trace : List (W × Sigma R)} :
    Traced exec w (p >>= f) trace b w' ↔ ∃ first a w₁ rest, trace = first ++ rest ∧
      Traced exec w p first a w₁ ∧ Traced exec w₁ (f a) rest b w' := by
  induction p generalizing w trace with
  | ret a =>
    simp only [ret_bind, traced_ret_iff]
    constructor
    · intro h
      exact ⟨[], a, w, trace, rfl, ⟨rfl, rfl, rfl⟩, h⟩
    · rintro ⟨_, _, _, _, rfl, ⟨rfl, rfl, rfl⟩, h⟩
      exact h
  | call c k ih =>
    simp only [call_bind, traced_call_iff, ih]
    constructor
    · rintro ⟨e, r, w₁, _, he, rfl, first, a, w₂, rest, rfl, hp, hf⟩
      exact ⟨(w₁, ⟨c, r⟩) :: first, a, w₂, rest, rfl, ⟨e, r, w₁, first, he, rfl, hp⟩, hf⟩
    · rintro ⟨_, a, w₂, rest, rfl, ⟨e, r, w₁, first, he, rfl, hp⟩, hf⟩
      exact ⟨e, r, w₁, first ++ rest, he, rfl, first, a, w₂, rest, rfl, hp, hf⟩

def complete (exec : (c : C) → E → W → Option (R c × W)) (e : E) : W → Prog R α → Option (α × W)
  | w, ret a => some (a, w)
  | w, call c k => (exec c e w).bind fun x => complete exec e x.2 (k x.1)

theorem completes_of_complete {exec : (c : C) → E → W → Option (R c × W)} {e : E} {w w' : W}
    {p : Prog R α} {a : α} (h : complete exec e w p = some (a, w')) : Completes exec w p a w' := by
  induction p generalizing w with
  | ret b =>
    obtain ⟨rfl, rfl⟩ := Prod.mk.injEq .. ▸ Option.some.inj h
    exact .ret _ _
  | call c k ih =>
    obtain ⟨⟨r, w₁⟩, he, hk⟩ := Option.bind_eq_some_iff.mp h
    exact .call e he (ih r hk)

/-- `p` runs alone from `w`, with the environment's choices in a list. -/
def replay (exec : (c : C) → E → W → Option (R c × W)) :
    List E → W → Prog R α → Option (List (Sigma R) × α × W)
  | _, w, ret a => some ([], a, w)
  | [], _, call _ _ => none
  | e :: choices, w, call c k => (exec c e w).bind fun x =>
    (replay exec choices x.2 (k x.1)).map fun y => (⟨c, x.1⟩ :: y.1, y.2)

theorem talks_of_replay {exec : (c : C) → E → W → Option (R c × W)} {choices : List E} {w w' : W} {p : Prog R α}
    {talk : List (Sigma R)} {a : α} (h : replay exec choices w p = some (talk, a, w')) : p.Talks talk (ret a) := by
  induction p generalizing choices w talk with
  | ret b =>
    cases choices <;> obtain ⟨rfl, rfl, rfl⟩ := by simpa only [replay, Option.some.injEq, Prod.mk.injEq] using h
    all_goals exact .refl _
  | call c k ih =>
    cases choices with
    | nil => cases h
    | cons e choices =>
      obtain ⟨⟨r, w₁⟩, _, hk⟩ := Option.bind_eq_some_iff.mp h
      obtain ⟨⟨rest, b, w₂⟩, hrest, hx⟩ := Option.map_eq_some_iff.mp hk
      obtain ⟨rfl, rfl, rfl⟩ := by simpa only [Prod.mk.injEq] using hx
      exact .cons (ih r hrest)

/-! Total correctness: alone from `w`, `p` is answered at every call it comes to,
and it returns with `post`, whatever the environment chooses. -/

def Meets (exec : (c : C) → E → W → Option (R c × W)) (post : α → W → Prop) : Prog R α → W → Prop
  | ret a, w => post a w
  | call c k, w => (∃ e r w', exec c e w = some (r, w')) ∧
      ∀ e r w', exec c e w = some (r, w') → Meets exec post (k r) w'

section

variable {exec : (c : C) → E → W → Option (R c × W)} {post post' : α → W → Prop} {w : W}

@[simp] theorem meets_ret_iff {a : α} : (ret a).Meets exec post w ↔ post a w := Iff.rfl

theorem meets_call_iff {c : C} {k : R c → Prog R α} :
    (call c k).Meets exec post w ↔ (∃ e r w', exec c e w = some (r, w')) ∧
      ∀ e r w', exec c e w = some (r, w') → (k r).Meets exec post w' := Iff.rfl

/-- The rule for a call whose answer the environment has no say in. -/
theorem Meets.call [Nonempty E] {c : C} {k : R c → Prog R α} {r : R c} {w' : W}
    (he : ∀ e, exec c e w = some (r, w')) (h : (k r).Meets exec post w') :
    (call c k).Meets exec post w := by
  obtain ⟨e⟩ := ‹Nonempty E›
  refine ⟨⟨e, r, w', he e⟩, ?_⟩
  intro e₁ r₁ w₁ h₁
  obtain ⟨rfl, rfl⟩ := Prod.mk.injEq .. ▸ Option.some.inj (h₁.symm.trans (he e₁))
  exact h

theorem Meets.mono (hp : ∀ a w, post a w → post' a w) {p : Prog R α} (h : p.Meets exec post w) :
    p.Meets exec post' w := by
  induction p generalizing w with
  | ret a => exact hp a w h
  | call c k ih => exact ⟨h.1, fun e r w' he => ih r (h.2 e r w' he)⟩

theorem Meets.and {p : Prog R α} (h : p.Meets exec post w) (h' : p.Meets exec post' w) :
    p.Meets exec (fun a w => post a w ∧ post' a w) w := by
  induction p generalizing w with
  | ret a => exact ⟨h, h'⟩
  | call c k ih => exact ⟨h.1, fun e r w' he => ih r (h.2 e r w' he) (h'.2 e r w' he)⟩

theorem meets_bind_iff {q : β → W → Prop} {p : Prog R α} {f : α → Prog R β} :
    (p >>= f).Meets exec q w ↔ p.Meets exec (fun a w' => (f a).Meets exec q w') w := by
  induction p generalizing w with
  | ret a => exact Iff.rfl
  | call c k ih =>
    simp only [call_bind, meets_call_iff, ih]

theorem Meets.of_completes {p : Prog R α} {a : α} {w' : W} (h : p.Meets exec post w)
    (hc : Completes exec w p a w') : post a w' := by
  induction hc with
  | ret w a => exact h
  | call e he _ ih => exact ih (h.2 e _ _ he)

end

/-- `p` runs alone from `w`, is answered `n` times, and then the process is
gone: the next call never took effect, or, with `effect`, it did but its reply
is never seen. A program that returns earlier, or a call that raises, ends the
run before that. -/
def cut (exec : (c : C) → E → W → Option (R c × W)) (e : E) (effect : Bool) :
    Nat → W → Prog R α → W
  | _, w, ret _ => w
  | 0, w, call c _ => if effect then ((exec c e w).map Prod.snd).getD w else w
  | n + 1, w, call c k =>
    match exec c e w with
    | none => w
    | some (r, w') => cut exec e effect n w' (k r)

section

variable {exec : (c : C) → E → W → Option (R c × W)} {e : E} {effect : Bool} {n : Nat}
  {w w' : W} {c : C} {k : R c → Prog R α} {r : R c}

@[simp] theorem cut_ret (a : α) : cut exec e effect n w (ret a : Prog R α) = w := by
  cases n <;> rfl

@[simp] theorem cut_zero (p : Prog R α) : cut exec e false 0 w p = w := by
  cases p <;> rfl

theorem cut_raises (h : exec c e w = none) : cut exec e effect n w (call c k) = w := by
  cases n with
  | zero => simp [cut, h]
  | succ n => simp [cut, h]

theorem cut_effect (h : exec c e w = some (r, w')) : cut exec e true 0 w (call c k) = w' := by
  simp [cut, h]

theorem cut_succ (h : exec c e w = some (r, w')) :
    cut exec e effect (n + 1) w (call c k) = cut exec e effect n w' (k r) := by
  simp [cut, h]

end

end Prog

end AiPrReview
