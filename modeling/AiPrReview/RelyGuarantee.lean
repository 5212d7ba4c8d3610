import AiPrReview.Pool

/-! Rely and guarantee for programs that share a world. A contract says which
calls a program may make in a world and what a reply tells it of the worlds before
and after the call; what was told is read in any later world. -/

namespace AiPrReview

structure Contract {C : Type} (R : C → Type) (W : Type) where
  later : W → W → Prop
  later_refl : ∀ w, later w w
  later_trans : ∀ {w w' w''}, later w w' → later w' w'' → later w w''
  permits : C → W → Prop
  tells : (c : C) → R c → W → W → Prop

variable {C : Type} {R : C → Type} {E W α β : Type}

/-- From `w` on, `p` makes only calls that `K` permits, as long as the replies
tell the truth and the world only goes on, and it returns with `post`. -/
def Prog.Keeps (K : Contract R W) (post : α → W → Prop) : Prog R α → W → Prop
  | .ret a, w => ∀ w', K.later w w' → post a w'
  | .call c k, w => ∀ w', K.later w w' → K.permits c w' ∧
      ∀ r w'', K.later w' w'' → K.tells c r w' w'' → (k r).Keeps K post w''

namespace Prog

variable {K : Contract R W} {post post' : α → W → Prop} {w w' : W}

theorem Keeps.later {p : Prog R α} (h : p.Keeps K post w) (hw : K.later w w') : p.Keeps K post w' := by
  cases p with
  | ret a => exact fun w₁ hw₁ => h w₁ (K.later_trans hw hw₁)
  | call c k => exact fun w₁ hw₁ => h w₁ (K.later_trans hw hw₁)

theorem keeps_ret_iff {a : α} : (ret a : Prog R α).Keeps K post w ↔ ∀ w', K.later w w' → post a w' := Iff.rfl

/-- The rule for a call. -/
theorem Keeps.call {c : C} {k : R c → Prog R α} (hpermits : ∀ w', K.later w w' → K.permits c w')
    (hk : ∀ r w' w'', K.later w w' → K.later w' w'' → K.tells c r w' w'' → (k r).Keeps K post w'') :
    (Prog.call c k).Keeps K post w :=
  fun w₁ hw₁ => ⟨hpermits w₁ hw₁, fun r w₂ hw₂ htells => hk r w₁ w₂ hw₁ hw₂ htells⟩

theorem Keeps.mono {p : Prog R α} (h : p.Keeps K post w)
    (hp : ∀ a w', K.later w w' → post a w' → post' a w') : p.Keeps K post' w := by
  induction p generalizing w with
  | ret a => exact fun w₁ hw₁ => hp a w₁ hw₁ (h w₁ hw₁)
  | call c k ih =>
    intro w₁ hw₁
    obtain ⟨hpermits, hk⟩ := h w₁ hw₁
    refine ⟨hpermits, fun r w₂ hw₂ htells => ih r (hk r w₂ hw₂ htells) fun a w₃ hw₃ => ?_⟩
    exact hp a w₃ (K.later_trans hw₁ (K.later_trans hw₂ hw₃))

/-- What holds of the value when `p` returns goes on to hold. -/
theorem Keeps.bind_later {q : β → W → Prop} {p : Prog R α} {f : α → Prog R β} (h : p.Keeps K post w)
    (hf : ∀ a w', K.later w w' → (∀ w'', K.later w' w'' → post a w'') → (f a).Keeps K q w') :
    (p >>= f).Keeps K q w := by
  induction p generalizing w with
  | ret a => exact hf a w (K.later_refl w) h
  | call c k ih =>
    intro w₁ hw₁
    obtain ⟨hpermits, hk⟩ := h w₁ hw₁
    refine ⟨hpermits, fun r w₂ hw₂ htells => ih r (hk r w₂ hw₂ htells) fun a w₃ hw₃ => ?_⟩
    exact hf a w₃ (K.later_trans hw₁ (K.later_trans hw₂ hw₃))

theorem Keeps.bind {q : β → W → Prop} {p : Prog R α} {f : α → Prog R β} (h : p.Keeps K post w)
    (hf : ∀ a w', K.later w w' → post a w' → (f a).Keeps K q w') : (p >>= f).Keeps K q w :=
  h.bind_later fun a w' hw hpost => hf a w' hw (hpost w' (K.later_refl w'))

/-- Every call answered by a program that makes good on what the call's contract says. -/
theorem Keeps.interpret {C' : Type} {R' : C' → Type} {K' : Contract R' W} {h : (c : C) → Prog R' (R c)}
    (hlater : ∀ w w', K'.later w w' → K.later w w')
    (hcalls : ∀ c w, K.permits c w → (h c).Keeps K' (fun r w' => K.tells c r w w') w) {p : Prog R α}
    (hp : p.Keeps K post w) : (p.interpret h).Keeps K' post w := by
  induction p generalizing w with
  | ret a => exact fun w' hw => hp w' (hlater w w' hw)
  | call c k ih =>
    have hpermits := (hp w (K.later_refl w)).1
    refine Keeps.bind (hcalls c w hpermits) fun r w' hw htells => ih r ?_
    exact (hp w (K.later_refl w)).2 r w' (hlater w w' hw) htells

end Prog

/-! What a step of a pool does to the world and to one thread. -/

section

variable {H : Host R E W} {spawns : Prog R α → Prop} {s s' : Pool W (Prog R α)} {l : Label}

theorem Host.Step.world_cases (h : H.Step spawns s l s') : s'.world = s.world ∨
    (∃ c k e r, .running (.call c k) ∈ s.threads ∧ H.exec c e s.world = some (r, s'.world)) ∨
      H.drift s.world s'.world := by
  cases h with
  | reply e he => exact .inr (.inl ⟨_, _, e, _, List.mem_append_right _ List.mem_cons_self, he⟩)
  | retry e _ he => exact .inr (.inl ⟨_, _, e, _, List.mem_append_right _ List.mem_cons_self, he⟩)
  | stop => exact .inl rfl
  | lose e he => exact .inr (.inl ⟨_, _, e, _, List.mem_append_right _ List.mem_cons_self, he⟩)
  | spawn hp => exact .inl rfl
  | drift hd => exact .inr (.inr hd)

theorem getElem?_replaced {A : Type} {before after : List A} {a b x : A} {i : Nat}
    (h : (before ++ b :: after)[i]? = some x) :
    (i ≠ before.length ∧ (before ++ a :: after)[i]? = some x) ∨ (i = before.length ∧ x = b) := by
  rcases lt_trichotomy i before.length with hlt | rfl | hgt
  · rw [List.getElem?_append_left hlt] at h
    exact .inl ⟨by omega, by rw [List.getElem?_append_left hlt, h]⟩
  · exact .inr ⟨rfl, by simpa using h.symm⟩
  · obtain ⟨n, rfl⟩ : ∃ n, i = before.length + (n + 1) := ⟨i - before.length - 1, by omega⟩
    rw [List.getElem?_append_right (by omega), Nat.add_sub_cancel_left, List.getElem?_cons_succ] at h
    refine .inl ⟨by omega, ?_⟩
    rw [List.getElem?_append_right (by omega), Nat.add_sub_cancel_left, List.getElem?_cons_succ, h]

theorem Host.Step.thread_cases (h : H.Step spawns s l s') {i : Nat} {p : Prog R α}
    (hp : s'.threads[i]? = some (.running p)) : s.threads[i]? = some (.running p) ∨
      (∃ c k e r, s.threads[i]? = some (.running (.call c k)) ∧ H.exec c e s.world = some (r, s'.world) ∧ p = k r) ∨
        (i = s.threads.length ∧ spawns p ∧ s'.world = s.world) := by
  cases h with
  | @reply before after c k w w' r e he =>
    rcases getElem?_replaced hp with ⟨_, hsame⟩ | ⟨rfl, hnew⟩
    · exact .inl hsame
    · exact .inr (.inl ⟨c, k, e, r, by simp, he, Thread.running.inj hnew⟩)
  | retry e _ he => exact .inl hp
  | stop =>
    rcases getElem?_replaced hp with ⟨_, hsame⟩ | ⟨_, hnew⟩
    · exact .inl hsame
    · cases hnew
  | lose e he =>
    rcases getElem?_replaced hp with ⟨_, hsame⟩ | ⟨_, hnew⟩
    · exact .inl hsame
    · cases hnew
  | @spawn ts w q hq =>
    have hlast : (i ≠ ts.length ∧ (ts ++ [.stopped q])[i]? = some (.running p)) ∨
        (i = ts.length ∧ Thread.running p = .running q) := getElem?_replaced hp
    rcases hlast with ⟨hne, hsame⟩ | ⟨rfl, hnew⟩
    · left
      have hlt : i < ts.length := by
        obtain ⟨hlt, _⟩ := List.getElem?_eq_some_iff.mp hsame
        rw [List.length_append, List.length_singleton] at hlt
        omega
      rwa [List.getElem?_append_left hlt] at hsame
    · obtain rfl := Thread.running.inj hnew
      exact .inr (.inr ⟨rfl, hq, rfl⟩)
  | drift hd => exact .inl hp

end

/-- `H` lives up to the contract while `I` holds, and keeps `I`. -/
structure Host.Honours (H : Host R E W) (K : Contract R W) (I : W → Prop) : Prop where
  exec : ∀ c e w r w', I w → K.permits c w → H.exec c e w = some (r, w') → I w' ∧ K.later w w' ∧ K.tells c r w w'
  drift : ∀ w w', I w → H.drift w w' → I w' ∧ K.later w w'

/-- Every thread that runs keeps the contract. -/
def Pool.Keeps (K : Contract R W) (post : α → W → Prop) (s : Pool W (Prog R α)) : Prop :=
  ∀ p, .running p ∈ s.threads → p.Keeps K post s.world

/-- The thread at `i` keeps the contract as long as it runs. -/
def Pool.KeepsAt (K : Contract R W) (post : α → W → Prop) (i : Nat) (s : Pool W (Prog R α)) : Prop :=
  ∀ p, s.threads[i]? = some (.running p) → p.Keeps K post s.world

theorem Pool.keeps_iff {K : Contract R W} {post : α → W → Prop} {s : Pool W (Prog R α)} :
    s.Keeps K post ↔ ∀ i, s.KeepsAt K post i := by
  constructor
  · intro h i p hp
    exact h p (List.mem_of_getElem? hp)
  · intro h p hp
    obtain ⟨i, hi⟩ := List.mem_iff_getElem?.mp hp
    exact h i p hi

section

variable {H : Host R E W} {K : Contract R W} {I : W → Prop} {post post' : α → W → Prop} {spawns : Prog R α → Prop}
  {s s' : Pool W (Prog R α)} {l : Label} {i : Nat}

theorem Host.Honours.step_world (hH : H.Honours K I) (h : H.Step spawns s l s') (hI : I s.world)
    (hs : s.Keeps K post) : I s'.world ∧ K.later s.world s'.world := by
  rcases h.world_cases with hw | ⟨c, k, e, r, hmem, he⟩ | hd
  · rw [hw]
    exact ⟨hI, K.later_refl _⟩
  · obtain ⟨hpermits, _⟩ := hs _ hmem s.world (K.later_refl _)
    obtain ⟨hI', hlater, _⟩ := hH.exec c e _ r _ hI hpermits he
    exact ⟨hI', hlater⟩
  · exact hH.drift _ _ hI hd

theorem Host.Honours.step_at (hH : H.Honours K I) (h : H.Step spawns s l s') (hI : I s.world)
    (hlater : K.later s.world s'.world) (hi : s.KeepsAt K post i)
    (hspawns : i = s.threads.length → ∀ p w, spawns p → I w → p.Keeps K post w) : s'.KeepsAt K post i := by
  intro p hp
  rcases h.thread_cases hp with hsame | ⟨c, k, e, r, hcall, he, rfl⟩ | ⟨hlast, hq, hw⟩
  · exact (hi p hsame).later hlater
  · obtain ⟨hpermits, hk⟩ := hi _ hcall s.world (K.later_refl _)
    obtain ⟨_, _, htells⟩ := hH.exec c e _ r _ hI hpermits he
    exact hk r s'.world hlater htells
  · rw [hw]
    exact hspawns hlast p s.world hq hI

/-- Along a run every thread keeps the contract, and those that have returned
have done so with `post`. -/
theorem Host.Honours.run (hH : H.Honours K I) (hspawns : ∀ p w, spawns p → I w → p.Keeps K post w)
    {cond : Pool W (Prog R α) → Label → Prop} (h : H.Run spawns cond s s') (hI : I s.world)
    (hs : s.Keeps K post) : I s'.world ∧ K.later s.world s'.world ∧ s'.Keeps K post := by
  induction h with
  | refl => exact ⟨hI, K.later_refl _, hs⟩
  | tail _ hstep ih =>
    obtain ⟨l, _, hl⟩ := hstep
    obtain ⟨hI₁, hlater, hs₁⟩ := ih
    obtain ⟨hI', hlater'⟩ := hH.step_world hl hI₁ hs₁
    refine ⟨hI', K.later_trans hlater hlater', Pool.keeps_iff.mpr fun i => ?_⟩
    exact hH.step_at hl hI₁ hlater' (Pool.keeps_iff.mp hs₁ i) fun _ => hspawns

/-- One of the threads may promise more than the others. -/
theorem Host.Honours.run_at (hH : H.Honours K I) (hspawns : ∀ p w, spawns p → I w → p.Keeps K post w)
    {cond : Pool W (Prog R α) → Label → Prop} (h : H.Run spawns cond s s') (hI : I s.world)
    (hs : s.Keeps K post) (hlt : i < s.threads.length) (hi : s.KeepsAt K post' i) : s'.KeepsAt K post' i := by
  have hboth : i < s'.threads.length ∧ s'.KeepsAt K post' i := by
    induction h with
    | refl => exact ⟨hlt, hi⟩
    | @tail s₁ s₂ h₁ hstep ih =>
      obtain ⟨l, _, hl⟩ := hstep
      obtain ⟨hI₁, _, hs₁⟩ := hH.run hspawns h₁ hI hs
      obtain ⟨_, hlater⟩ := hH.step_world hl hI₁ hs₁
      refine ⟨?_, hH.step_at hl hI₁ hlater ih.2 fun hlast => absurd ih.1 (by omega)⟩
      rcases hl.length_eq with hlen | ⟨_, hlen⟩ <;> omega
  exact hboth.2

theorem Pool.Keeps.returned (h : s.Keeps K post) {a : α} (ha : .running (.ret a) ∈ s.threads) : post a s.world :=
  h _ ha s.world (K.later_refl _)

theorem Pool.KeepsAt.returned (h : s.KeepsAt K post i) {a : α} (ha : s.threads[i]? = some (.running (.ret a))) :
    post a s.world :=
  h _ ha s.world (K.later_refl _)

end

end AiPrReview
