import AiPrReview.Specialist

/-! The daily spend cap over the specialist runs of the worker. -/

namespace AiPrReview

inductive SpendMode : Type where
  | before
  | after
  | done

inductive SpendMode.Allows : SpendMode → SpecialistCall → Prop
  | retrieve (repo queryText : Text) (k : Nat) : Allows .before (.retrieve repo queryText k)
  | parse (model system user : Text) : Allows .before (.parse model system user)
  | emit (e : Event) : Allows .before (.emit e)
  | close (e : Event) : e.eventType = .spanEnd → Allows .after (.emit e)

def SpendMode.next : SpendMode → (c : SpecialistCall) → c.Reply → SpendMode
  | .before, .retrieve .., reply => if Option.isSome reply then .before else .after
  | .before, .parse .., reply => if Option.isSome reply then .before else .after
  | .before, .emit e, reply =>
    match e.eventType with
    | .llmCall => .after
    | .spanStart => if Option.isSome reply then .before else .done
    | _ => if Option.isSome reply then .before else .after
  | _, _, _ => .done

def spendOutline : Outline SpecialistCall.Reply SpendMode := ⟨SpendMode.Allows, SpendMode.next⟩

theorem traced_follows (a : SpecialistAgent) (diff : DiffContext) (reviewId : Text) :
    (a.traced diff reviewId).Follows spendOutline (fun m _ => m = .after) .before := by
  refine ⟨.retrieve _ _ _, fun r => ?_⟩
  cases r with
  | none => exact rfl
  | some grounding =>
    refine ⟨.emit _, fun r => ?_⟩
    cases r with
    | none => exact rfl
    | some u =>
      refine ⟨.parse _ _ _, fun r => ?_⟩
      cases r with
      | none => exact rfl
      | some completion =>
        refine ⟨.emit _, fun r => ?_⟩
        cases r with
        | none => exact rfl
        | some u =>
          dsimp only
          cases completion.parsed with
          | none => exact rfl
          | some drafts => exact rfl

theorem tracedReview_follows (a : SpecialistAgent) (diff : DiffContext) (reviewId : Text) :
    (a.tracedReview diff reviewId).Follows spendOutline (fun m _ => m = .done) .before := by
  refine ⟨.emit _, fun r => ?_⟩
  cases r with
  | none => exact rfl
  | some u =>
    refine (traced_follows a diff reviewId).bind fun m result hm => ?_
    subst hm
    refine ⟨.close _ rfl, fun r => ?_⟩
    cases r with
    | none => exact rfl
    | some u => exact rfl

theorem specialistRun_follows {parts : AgentType → AgentParts}
    {p : SpecialistProg (Option (List Finding))} (h : specialistRun parts p) :
    p.Follows spendOutline (fun m _ => m = .done) .before := by
  obtain ⟨t, diff, reviewId, rfl⟩ := h
  exact tracedReview_follows (startupAgent parts t) diff reviewId

/-! What the ledger records. -/

namespace Spine

def costs (rows : List AgentEvent) : List Nat := rows.filterMap AgentEvent.costMicros

theorem micros_eq (rows : List AgentEvent) : micros rows = (costs rows).sum := by
  induction rows with
  | nil => rfl
  | cons r rows ih =>
    simp only [micros, costs, List.map_cons, List.sum_cons, List.filterMap_cons] at ih ⊢
    cases hc : r.costMicros with
    | none => simpa using ih
    | some m => simpa using ih

theorem costs_append (rows rows' : List AgentEvent) : costs (rows ++ rows') = costs rows ++ costs rows' :=
  List.filterMap_append

theorem recordedToday_of_append {s s' : Spine} {late : List AgentEvent} (ht : s'.today = s.today)
    (hr : s'.rows = s.rows ++ late) (hl : ∀ r ∈ late, r.day = s.today) :
    s'.recordedToday = s.recordedToday + (costs late).sum := by
  have hlate : late.filter (fun r => r.day == s.today) = late :=
    List.filter_eq_self.mpr fun r h => by simpa using hl r h
  rw [recordedToday, recordedToday, ht, hr, List.filter_append, hlate, micros_eq, costs_append,
    List.sum_append, micros_eq]

theorem recordedToday_of_later {s s' : Spine} (ht : s.today < s'.today) (hr : s'.rows = s.rows) :
    s'.recordedToday = 0 := by
  have hnone : s'.rows.filter (fun r => r.day == s'.today) = [] := by
    rw [hr, List.filter_eq_nil_iff]
    intro r hmem
    have hle := s.stamped r hmem
    simp only [beq_iff_eq]
    omega
  rw [recordedToday, hnone]
  rfl

theorem spendTodayUsd_lt {s : Spine} {g : BudgetGuard} (h : s.spendTodayUsd < g.dailyCapUsd) :
    (s.recordedToday : ℚ) / 1000000 < g.dailyCapUsd := by
  by_contra hn
  rw [not_lt] at hn
  have h0 : 0 ≤ g.dailyCapUsd := (toDouble_nonneg (by positivity)).trans h.le
  have hm := toDouble_mono h0 hn
  rw [g.is_double] at hm
  exact absurd (hm.trans_lt h) (lt_irrefl _)

end Spine

/-! What one step records, and how many runs may still record something. -/

def SpendMode.weight : SpendMode → Nat
  | before => 1
  | _ => 0

def threadWeight : Thread SpendMode → Nat
  | .running m => m.weight
  | _ => 0

def pending (a : Pool Spine SpendMode) : Nat := total threadWeight a.threads

theorem costs_row_le (day : Nat) (e : Event) :
    (Spine.costs [⟨day, e, stampedCost e⟩]).length ≤ if e.eventType = .llmCall then 1 else 0 := by
  by_cases h : e.eventType = .llmCall
  · rw [if_pos h]
    exact List.length_filterMap_le _ _
  · have hnone : stampedCost e = none := by
      unfold stampedCost
      split
      · rename_i hl _
        exact absurd hl h
      · rfl
    simp [Spine.costs, hnone]

theorem SpendMode.weight_le_one (m : SpendMode) : m.weight ≤ 1 := by
  cases m <;> simp [weight]

theorem exec_spine {c : SpecialistCall} {e : Answer} {s s' : Spine} {r : c.Reply}
    (h : c.exec e s = some (r, s')) : s' = s ∨ ∃ event, c = .emit event ∧ s' = s.append event := by
  cases c <;> cases e <;> simp only [SpecialistCall.exec, Option.some.injEq, reduceCtorEq] at h
  all_goals obtain ⟨_, rfl⟩ := h
  all_goals first
    | exact .inl rfl
    | exact .inr ⟨_, rfl, rfl⟩

theorem exec_records {c : SpecialistCall} {e : Answer} {s s' : Spine} {r : c.Reply}
    (h : c.exec e s = some (r, s')) {m : SpendMode} (hm : m.Allows c) :
    s'.today = s.today ∧ ∃ late, s'.rows = s.rows ++ late ∧ (∀ row ∈ late, row.day = s.today) ∧
      (Spine.costs late).length + (m.next c r).weight ≤ m.weight := by
  have hweight : (m.next c r).weight ≤ m.weight := by
    cases hm with
    | close event hc => exact Nat.le_refl 0
    | _ => exact SpendMode.weight_le_one _
  rcases exec_spine h with rfl | ⟨event, rfl, rfl⟩
  · exact ⟨rfl, [], by simp, by simp, by simpa [Spine.costs] using hweight⟩
  · refine ⟨rfl, [⟨s.today, event, stampedCost event⟩], rfl, by simp, ?_⟩
    have hrow := costs_row_le s.today event
    by_cases hl : event.eventType = .llmCall
    · rw [if_pos hl] at hrow
      cases hm with
      | emit =>
        have hnext : (SpendMode.next .before (.emit event) r).weight = 0 := by
          simp only [SpendMode.next, hl]
          rfl
        rw [hnext]
        exact hrow
      | close _ hc =>
        rw [hc] at hl
        cases hl
    · rw [if_neg hl] at hrow
      omega

theorem step_records {spawns : SpendMode → Prop} {a a' : Pool Spine SpendMode} {l : Label}
    (h : spendOutline.Step spineHost spawns a l a') (hl : l ≠ .spawn) :
    (a'.world.today = a.world.today ∧ ∃ late, a'.world.rows = a.world.rows ++ late ∧
      (∀ row ∈ late, row.day = a.world.today) ∧ (Spine.costs late).length + pending a' ≤ pending a) ∨
    (a.world.today < a'.world.today ∧ a'.world.rows = a.world.rows) := by
  cases h with
  | @reply pre post m c w w' r e ha he =>
    obtain ⟨ht, late, hr, hd, hw⟩ := exec_records he ha
    refine .inl ⟨ht, late, hr, hd, ?_⟩
    change _ + (spendOutline.next m c r).weight ≤ _ at hw
    simp only [pending, total_middle, threadWeight]
    omega
  | retry e ha hr he => exact absurd hr Bool.false_ne_true
  | @stop pre post m w =>
    refine .inl ⟨rfl, [], by simp, by simp, ?_⟩
    simp only [pending, total_middle, threadWeight, Spine.costs, List.filterMap_nil, List.length_nil]
    omega
  | @lose pre post m c w w' r e ha he =>
    obtain ⟨ht, late, hr, hd, hw⟩ := exec_records he ha
    refine .inl ⟨ht, late, hr, hd, ?_⟩
    simp only [pending, total_middle, threadWeight]
    omega
  | spawn => exact absurd rfl hl
  | drift hd => exact .inr hd

def StartsUnder (g : BudgetGuard) (s : Pool Spine (SpecialistProg (Option (List Finding)))) (l : Label) :
    Prop :=
  l = .spawn → s.world.spendTodayUsd < g.dailyCapUsd

def inFlight (s : Pool Spine (SpecialistProg (Option (List Finding)))) : Nat :=
  s.threads.countP fun t => t.next.isSome

theorem threadWeight_le {t : Thread (SpecialistProg (Option (List Finding)))} {m : Thread SpendMode}
    (h : spendOutline.At (fun m _ => m = .done) t m) :
    threadWeight m ≤ if t.next.isSome = true then 1 else 0 := by
  cases h with
  | @running p m hf =>
    cases p with
    | ret result =>
      have hm : m = .done := hf
      rw [hm]
      exact Nat.zero_le _
    | call c k => exact SpendMode.weight_le_one m
  | stopped hf => exact Nat.zero_le _
  | lost hf => exact Nat.zero_le _

theorem pending_le_inFlight {s : Pool Spine (SpecialistProg (Option (List Finding)))}
    {a : Pool Spine SpendMode} (h : spendOutline.Matches (fun m _ => m = .done) s a) :
    pending a ≤ inFlight s := by
  obtain ⟨w, ts⟩ := s
  obtain ⟨v, ms⟩ := a
  have hts : List.Forall₂ (spendOutline.At fun m _ => m = .done) ts ms := h.threads
  clear h
  induction hts with
  | nil => exact Nat.le_refl 0
  | cons ht _ ih =>
    have hw := threadWeight_le ht
    simp only [pending, inFlight, total, List.map_cons, List.sum_cons, List.countP_cons] at ih ⊢
    omega

section

variable {parts : AgentType → AgentParts} {g : BudgetGuard}
  {s₀ s : Pool Spine (SpecialistProg (Option (List Finding)))}

/-- `late` was recorded since `s₁`, the last moment known to be below the cap
(or the start of the run, or of the day), by runs that were in flight then. -/
structure Overrun (parts : AgentType → AgentParts) (g : BudgetGuard)
    (s₀ s₁ s : Pool Spine (SpecialistProg (Option (List Finding)))) (late : List AgentEvent) : Prop where
  before : spineHost.Run (specialistRun parts) (StartsUnder g) s₀ s₁
  since : spineHost.Run (specialistRun parts) (StartsUnder g) s₁ s
  today : s₁.world.today = s.world.today
  below : (s₁.world.recordedToday : ℚ) / 1000000 < g.dailyCapUsd ∨ s₁ = s₀ ∨ s₁.world.recordedToday = 0
  rows : s.world.rows = s₁.world.rows ++ late
  stamped : ∀ row ∈ late, row.day = s₁.world.today

theorem Overrun.refl (h : spineHost.Run (specialistRun parts) (StartsUnder g) s₀ s)
    (hb : (s.world.recordedToday : ℚ) / 1000000 < g.dailyCapUsd ∨ s = s₀ ∨ s.world.recordedToday = 0) :
    Overrun parts g s₀ s s [] :=
  ⟨h, .refl, rfl, hb, by simp, by simp⟩

theorem exists_overrun (h0 : s₀.threads = [])
    (h : spineHost.Run (specialistRun parts) (StartsUnder g) s₀ s) :
    ∃ a, spendOutline.Matches (fun m _ => m = .done) s a ∧ ∃ s₁ late, Overrun parts g s₀ s₁ s late ∧
      (Spine.costs late).length + pending a ≤ inFlight s₁ := by
  have hfresh : ∀ {s' a'}, spendOutline.Matches (fun m _ => m = .done) s' a' →
      spineHost.Run (specialistRun parts) (StartsUnder g) s₀ s' →
      ((s'.world.recordedToday : ℚ) / 1000000 < g.dailyCapUsd ∨ s' = s₀ ∨ s'.world.recordedToday = 0) →
      ∃ a, spendOutline.Matches (fun m _ => m = .done) s' a ∧ ∃ s₁ late, Overrun parts g s₀ s₁ s' late ∧
        (Spine.costs late).length + pending a ≤ inFlight s₁ := by
    intro s' a' hm hrun hb
    refine ⟨a', hm, s', [], Overrun.refl hrun hb, ?_⟩
    simpa [Spine.costs] using pending_le_inFlight hm
  induction h with
  | refl =>
    have hm : spendOutline.Matches (fun m _ => m = .done) s₀ ⟨s₀.world, []⟩ :=
      ⟨rfl, by rw [h0]; exact .nil⟩
    exact hfresh hm .refl (.inr (.inl rfl))
  | @tail s s' hrun hstep ih =>
    obtain ⟨l, hc, hl⟩ := hstep
    obtain ⟨a, hm, s₁, late, ho, hcount⟩ := ih
    have hrun' := hrun.tail ⟨l, hc, hl⟩
    have hsp : ∀ p, specialistRun parts p → ∃ m, m = SpendMode.before ∧
        p.Follows spendOutline (fun m _ => m = .done) m :=
      fun p hp => ⟨.before, rfl, specialistRun_follows hp⟩
    obtain ⟨a', hs', hm'⟩ := hl.simulated hsp hm
    by_cases hspawn : l = .spawn
    · have hworld : s'.world = s.world := by
        subst hspawn
        cases hl
        rfl
      refine hfresh hm' hrun' (.inl ?_)
      rw [hworld]
      exact Spine.spendTodayUsd_lt (hc hspawn)
    have hw : s.world = a.world := hm.world
    have hw' : s'.world = a'.world := hm'.world
    have hrec := step_records hs' hspawn
    rw [← hw, ← hw'] at hrec
    rcases hrec with ⟨ht, new, hr, hd, hp⟩ | ⟨ht, hr⟩
    · by_cases hcap : s.world.spendTodayUsd < g.dailyCapUsd
      · refine ⟨a', hm', s, new, ⟨hrun, .single ⟨l, hc, hl⟩, ht.symm, .inl (Spine.spendTodayUsd_lt hcap),
          hr, hd⟩, ?_⟩
        exact hp.trans (pending_le_inFlight hm)
      · refine ⟨a', hm', s₁, late ++ new, ⟨ho.before, ho.since.tail ⟨l, hc, hl⟩, ho.today.trans ht.symm,
          ho.below, ?_, ?_⟩, ?_⟩
        · rw [hr, ho.rows, List.append_assoc]
        · intro row hrow
          rcases List.mem_append.mp hrow with hrow | hrow
          · exact ho.stamped row hrow
          · exact (hd row hrow).trans ho.today.symm
        · rw [Spine.costs_append, List.length_append]
          omega
    · exact hfresh hm' hrun' (.inr (.inr (Spine.recordedToday_of_later ht hr)))

/-- When every run starts below the cap, what the day has recorded exceeds it
by at most one call of each run in flight when it was last below. -/
theorem dailySpend_bounded (h0 : s₀.threads = [])
    (h : spineHost.Run (specialistRun parts) (StartsUnder g) s₀ s) :
    (∀ i < s.threads.length, ∃ s₁ s₂, spineHost.Run (specialistRun parts) (StartsUnder g) s₀ s₁ ∧
      s₁.threads.length = i ∧ s₁.world.spendTodayUsd < g.dailyCapUsd ∧
      spineHost.Step (specialistRun parts) s₁ .spawn s₂ ∧
      spineHost.Run (specialistRun parts) (StartsUnder g) s₂ s) ∧
    ∃ s₁ late, Overrun parts g s₀ s₁ s late ∧ (Spine.costs late).length ≤ inFlight s₁ ∧
      s.world.recordedToday = s₁.world.recordedToday + (Spine.costs late).sum := by
  constructor
  · intro i hi
    obtain ⟨s₁, s₂, h₁, hlen, hc, hspawn, h₂⟩ := h.spawned (i := i) (by simp [h0]) hi
    exact ⟨s₁, s₂, h₁, hlen, hc rfl, hspawn, h₂⟩
  · obtain ⟨a, _, s₁, late, ho, hcount⟩ := exists_overrun h0 h
    exact ⟨s₁, late, ho, by omega, Spine.recordedToday_of_append ho.today.symm ho.rows ho.stamped⟩

end

/-! One specialist run, on a ledger that is empty or over the cap. -/

section

def someParts : AgentType → AgentParts := fun _ => ⟨[], [], ⟨"T".toList, by decide⟩, Char.isAlphanum⟩

def oneDollar : BudgetGuard := ⟨1, by decide +kernel⟩

def spentSpine (micros : Nat) : Spine where
  today := 0
  rows := [⟨0, ⟨[], .tests, .llmCall, none, none, none, none, none⟩, some micros⟩]
  stamped := by simp

def securityRun : SpecialistProg (Option (List Finding)) :=
  (startupAgent someParts .security).review ⟨"o/r".toList, 1, []⟩ (some "r".toList)

def securityAnswers : List (Nat × Answer) :=
  [.ok, .chunks [], .ok, .completion ⟨some (1000000, 0), none⟩, .ok, .ok].map fun e => (0, e)

theorem securityRun_specialistRun : specialistRun someParts securityRun :=
  ⟨.security, ⟨"o/r".toList, 1, []⟩, "r".toList, rfl⟩

theorem dailySpend_bounded_security : ∃ s, 0 < s.world.recordedToday ∧
    ∃ s₁ late, Overrun someParts oneDollar ⟨spentSpine 0, []⟩ s₁ s late ∧
      (Spine.costs late).length ≤ inFlight s₁ ∧
      s.world.recordedToday = s₁.world.recordedToday + (Spine.costs late).sum := by
  have hplay : ∃ s ∈ spineHost.play ⟨spentSpine 0, [.running securityRun]⟩
      (securityAnswers.map fun x => .reply x.1 x.2), 0 < s.world.recordedToday := by
    decide +kernel
  obtain ⟨s, hs, hspent⟩ := hplay
  have hunder : StartsUnder oneDollar ⟨spentSpine 0, []⟩ .spawn := by
    intro _
    decide +kernel
  have hrun : spineHost.Run (specialistRun someParts) (StartsUnder oneDollar) ⟨spentSpine 0, []⟩ s :=
    .head ⟨.spawn, hunder, .spawn securityRun_specialistRun⟩
      (Host.run_of_replies (fun _ _ _ h => by cases h) rfl hs)
  exact ⟨s, hspent, (dailySpend_bounded rfl hrun).2⟩

theorem overCap_run_records : ∃ s, spineHost.Run (specialistRun someParts) (fun _ _ => True)
      ⟨spentSpine 2000000, []⟩ s ∧ oneDollar.dailyCapUsd ≤ (spentSpine 2000000).spendTodayUsd ∧
    s.world.today = 0 ∧ (spentSpine 2000000).recordedToday < s.world.recordedToday := by
  have hplay : ∃ s ∈ spineHost.play ⟨spentSpine 2000000, []⟩
      (.spawn securityRun :: securityAnswers.map fun x => .reply x.1 x.2),
      s.world.today = 0 ∧ (spentSpine 2000000).recordedToday < s.world.recordedToday := by
    decide +kernel
  obtain ⟨s, hs, htoday, hspent⟩ := hplay
  refine ⟨s, Host.run_of_play ?_ (fun _ _ => trivial) hs, by decide +kernel, htoday, hspent⟩
  intro p hp
  have hpe : p = securityRun := by simpa [securityAnswers] using hp
  rw [hpe]
  exact securityRun_specialistRun

end

end AiPrReview
