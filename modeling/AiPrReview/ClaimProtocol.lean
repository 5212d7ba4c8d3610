import AiPrReview.WebhookRuns

/-! The claim of a delivery when no reply of Redis is lost: who answers for it
at every moment, over any number of requests. -/

namespace AiPrReview

/-- Every command takes effect and is acknowledged, or raises without effect. -/
def QueueCall.ordinary : (c : QueueCall) → Fate → QueueWorld → Option (c.Reply × QueueWorld)
  | _, .lost, _ => none
  | c, e, w => c.exec e w

def jobsOf (d : Text) (w : QueueWorld) : List Job := w.jobs.filter fun job => job.deliveryId = d

/-- No claim of `d` expires. Other deliveries do what they like. -/
def unexpiredHost (d : Text) : Host QueueCall.Reply Fate QueueWorld where
  exec := QueueCall.ordinary
  retries _ := false
  drift w w' := w.clock ≤ w'.clock ∧ (d ∈ w'.claims ↔ d ∈ w.claims) ∧ jobsOf d w' = jobsOf d w

def claimHost (d : Text) : Host QueueCall.Reply Fate (QueueWorld × List (Sigma QueueCall.Reply)) :=
  (unexpiredHost d).logged

/-- `unclaim` raised: the breaker was open, or every attempt of the DEL failed. -/
def rollbackRaises (d : Text) : Sigma QueueCall.Reply → Bool
  | ⟨.beforeCall (.delete d'), admitted⟩ => d' = d && !(admitted : Bool)
  | ⟨.onFailure (.delete d'), _⟩ => d' = d
  | _ => false

def RollbackRaised (d : Text) (log : List (Sigma QueueCall.Reply)) : Prop := log.any (rollbackRaises d)

/-- The request has claimed the delivery, and neither its enqueue has succeeded
nor its rollback ended: it may still come to the end of a DEL of the claim. -/
def Between (d : Text) (t : Thread (QueueProg Response)) : Prop :=
  ∃ p, t = .running p ∧
    p.MayReach (fun c => c = .command (.delete d) ∨ c = .onFailure (.delete d)) (· = .command (.setNx d))

/-! Every claim is answered for by exactly one of: a request that may still give
it back, the job, a rollback that raised. -/

def ClaimMode.owns : ClaimMode → Nat
  | owner | failing | deleting => 1
  | _ => 0

def isOwner : Thread ClaimMode → Nat
  | .running m => m.owns
  | _ => 0

def claimed (d : Text) (w : QueueWorld) : Nat := if d ∈ w.claims then 1 else 0

def rollbacksRaised (d : Text) (log : List (Sigma QueueCall.Reply)) : Nat := log.countP (rollbackRaises d)

/-- Who answers for the claim of `d`, counted. -/
def ClaimInv (d : Text) (w : QueueWorld × List (Sigma QueueCall.Reply)) (ts : List (Thread ClaimMode)) : Prop :=
  claimed d w.1 = total isOwner ts + (jobsOf d w.1).length + rollbacksRaised d w.2

theorem claimed_le_one (d : Text) (w : QueueWorld) : claimed d w ≤ 1 := by
  unfold claimed
  split_ifs <;> omega

theorem ordinary_cases {c : QueueCall} {e : Fate} {w w' : QueueWorld} {r : c.Reply}
    (h : QueueCall.ordinary c e w = some (r, w')) : e ≠ .lost ∧ c.exec e w = some (r, w') := by
  cases e with
  | lost => cases c <;> cases h
  | ok => exact ⟨nofun, h⟩
  | fails => exact ⟨nofun, h⟩

theorem ordinary_command {cmd : RedisCommand} {e : Fate} {w w' : QueueWorld} {r : Option Bool}
    (h : QueueCall.ordinary (.command cmd) e w = some (r, w')) :
    (r = none ∧ w' = w) ∨ (r = some (cmd.run w).1 ∧ w' = (cmd.run w).2) := by
  cases e with
  | lost => cases h
  | ok =>
    obtain ⟨rfl, rfl⟩ := Prod.mk.injEq .. ▸ Option.some.inj h
    exact .inr ⟨rfl, rfl⟩
  | fails =>
    obtain ⟨rfl, rfl⟩ := Prod.mk.injEq .. ▸ Option.some.inj h
    exact .inl ⟨rfl, rfl⟩

def QueueCall.isCommand : QueueCall → Bool
  | command _ => true
  | _ => false

theorem ordinary_other {c : QueueCall} (hc : c.isCommand = false) {e : Fate} {w w' : QueueWorld} {r : c.Reply}
    (h : QueueCall.ordinary c e w = some (r, w')) : w'.claims = w.claims ∧ w'.jobs = w.jobs := by
  obtain ⟨_, h⟩ := ordinary_cases h
  cases c with
  | command cmd => cases hc
  | _ =>
    cases e <;> simp only [QueueCall.exec, Option.some.injEq, reduceCtorEq] at h
    all_goals
      obtain ⟨_, rfl⟩ := h
      exact ⟨rfl, rfl⟩

theorem rollbacksRaised_append (d : Text) (log : List (Sigma QueueCall.Reply)) (x : Sigma QueueCall.Reply) :
    rollbacksRaised d (log ++ [x]) = rollbacksRaised d log + if rollbackRaises d x then 1 else 0 := by
  simp [rollbacksRaised]

theorem claimed_step {d : Text} {m : ClaimMode} {c : QueueCall} (hallow : m.Allows d c) {e : Fate}
    {w w' : QueueWorld} {r : c.Reply} (h : QueueCall.ordinary c e w = some (r, w'))
    (hm : m.owns ≤ claimed d w) :
    claimed d w' + m.owns + (jobsOf d w).length = claimed d w + (m.next c r).owns + (jobsOf d w').length +
      if rollbackRaises d ⟨c, r⟩ then 1 else 0 := by
  have hother : c.isCommand = false → claimed d w' = claimed d w ∧ jobsOf d w' = jobsOf d w := by
    intro hc
    obtain ⟨hclaims, hjobs⟩ := ordinary_other hc h
    exact ⟨by rw [claimed, claimed, hclaims], by rw [jobsOf, jobsOf, hjobs]⟩
  cases hallow with
  | setNx =>
    rcases ordinary_command h with ⟨rfl, rfl⟩ | ⟨rfl, rfl⟩
    · simp [rollbackRaises, ClaimMode.next, ClaimMode.owns]
    · by_cases hd : d ∈ w.claims
      · simp [RedisCommand.run, hd, rollbackRaises, ClaimMode.next, ClaimMode.owns]
      · simp [RedisCommand.run, hd, rollbackRaises, ClaimMode.next, ClaimMode.owns, claimed, jobsOf]
  | enqueue job hj =>
    rcases ordinary_command h with ⟨rfl, rfl⟩ | ⟨rfl, rfl⟩
    · simp [rollbackRaises, ClaimMode.next]
    · have hclaim : claimed d (RedisCommand.run (.enqueue job) w).2 = claimed d w := rfl
      have hjobs : jobsOf d (RedisCommand.run (.enqueue job) w).2 = jobsOf d w ++ [job] := by
        simp [jobsOf, RedisCommand.run, hj]
      rw [hclaim, hjobs]
      simp [rollbackRaises, ClaimMode.next, ClaimMode.owns]
      omega
  | delete =>
    rcases ordinary_command h with ⟨rfl, rfl⟩ | ⟨rfl, rfl⟩
    · simp [rollbackRaises, ClaimMode.next]
    · have hheld : claimed d w = 1 := le_antisymm (claimed_le_one d w) hm
      have hfree : claimed d (RedisCommand.run (.delete d) w).2 = 0 := by simp [claimed, RedisCommand.run]
      have hjobs : jobsOf d (RedisCommand.run (.delete d) w).2 = jobsOf d w := rfl
      rw [hheld, hfree, hjobs]
      simp [rollbackRaises, ClaimMode.next, ClaimMode.owns]
  | ask =>
    obtain ⟨hclaims, hjobs⟩ := hother rfl
    cases r <;> simp [hclaims, hjobs, rollbackRaises, ClaimMode.next, ClaimMode.owns]
  | pending repo =>
    obtain ⟨hclaims, hjobs⟩ := hother rfl
    cases r <;> simp [hclaims, hjobs, rollbackRaises, ClaimMode.next, ClaimMode.owns]
  | start job =>
    obtain ⟨hclaims, hjobs⟩ := hother rfl
    cases r <;> simp [hclaims, hjobs, rollbackRaises, ClaimMode.next, ClaimMode.owns]
  | unclaim =>
    obtain ⟨hclaims, hjobs⟩ := hother rfl
    cases r with
    | false =>
      simp [hclaims, hjobs, rollbackRaises, ClaimMode.next, ClaimMode.owns]
      omega
    | true => simp [hclaims, hjobs, rollbackRaises, ClaimMode.next, ClaimMode.owns]
  | kept =>
    obtain ⟨hclaims, hjobs⟩ := hother rfl
    simp [hclaims, hjobs, rollbackRaises, ClaimMode.next, ClaimMode.owns]
    omega
  | _ =>
    obtain ⟨hclaims, hjobs⟩ := hother rfl
    simp [hclaims, hjobs, rollbackRaises, ClaimMode.next, ClaimMode.owns]

/-- No request dies half-way. -/
def NoDeath (l : Label) : Prop := ∀ i, l ≠ .stop i ∧ l ≠ .lose i

theorem claimInv_step {d : Text} {a a' : Pool (QueueWorld × List (Sigma QueueCall.Reply)) ClaimMode} {l : Label}
    (h : (claimOutline d).Step (claimHost d) (fun m => m = .asking ∨ m = .answered .ignored) a l a')
    (hl : NoDeath l) (I : ClaimInv d a.world a.threads) : ClaimInv d a'.world a'.threads := by
  unfold ClaimInv at I ⊢
  cases h with
  | @reply pre post m c w w' r e hallow hexec =>
    obtain ⟨hexec, hlog⟩ := Host.exec_logged hexec
    rw [total_middle] at I
    have hm : m.owns ≤ claimed d w.1 := by
      rw [I]
      show isOwner (.running m) ≤ _
      omega
    have hstep := claimed_step hallow hexec hm
    show claimed d w'.1 = total isOwner (pre ++ .running (m.next c r) :: post) + _ + _
    rw [total_middle, hlog, rollbacksRaised_append]
    simp only [isOwner] at I ⊢
    omega
  | retry e hallow hr hexec => exact absurd hr Bool.false_ne_true
  | @stop pre post m w => exact absurd rfl (hl pre.length).1
  | @lose pre post m c w w' r e hallow hexec => exact absurd rfl (hl pre.length).2
  | @spawn ts w m hm =>
    have hzero : isOwner (.running m) = 0 := by
      rcases hm with rfl | rfl
      · rfl
      · rfl
    rw [total_concat, hzero]
    exact I
  | @drift ts w w' hd =>
    obtain ⟨⟨_, hclaims, hjobs⟩, hlog⟩ := hd
    have hheld : claimed d w'.1 = claimed d w.1 := by
      unfold claimed
      split_ifs with h h' h'
      · rfl
      · exact absurd (hclaims.mp h) h'
      · exact absurd (hclaims.mpr h') h
      · rfl
    rw [hheld, hjobs, hlog]
    exact I

section

variable {d : Text} {p : QueueProg Response} {m : ClaimMode}

/-- The next mode after a call of an owner that is not the end of a rollback. -/
theorem ClaimMode.owns_of_next {c : QueueCall} {r : c.Reply} (hallow : m.Allows d c)
    (hc : c ≠ .command (.setNx d)) (h : (m.next c r).owns = 1) : m.owns = 1 := by
  cases hallow with
  | setNx => exact absurd rfl hc
  | ask => cases r <;> simp [ClaimMode.next, ClaimMode.owns] at h
  | unasked => simp [ClaimMode.next, ClaimMode.owns] at h
  | told => simp [ClaimMode.next, ClaimMode.owns] at h
  | put => simp [ClaimMode.next, ClaimMode.owns] at h
  | deleted => simp [ClaimMode.next, ClaimMode.owns] at h
  | _ => rfl

theorem owns_of_mayReach
    (h : p.MayReach (fun c => c = .command (.delete d) ∨ c = .onFailure (.delete d)) (· = .command (.setNx d)))
    (hf : p.Follows (claimOutline d) (fun m r => m = .answered r) m) : m.owns = 1 := by
  induction h generalizing m with
  | here hc =>
    rcases hc with rfl | rfl
    · cases hf.1 with
      | delete => rfl
    · cases hf.1 with
      | kept => rfl
  | later r hstop _ ih => exact ClaimMode.owns_of_next hf.1 hstop (ih (hf.2 r))

/-- An owner may fail from where it is, and then deletes its claim. -/
theorem mayReach_of_owns (hm : m.owns = 1) (hf : p.Follows (claimOutline d) (fun m r => m = .answered r) m) :
    p.MayReach (fun c => c = .command (.delete d) ∨ c = .onFailure (.delete d)) (· = .command (.setNx d)) := by
  induction p generalizing m with
  | ret r =>
    obtain rfl : m = .answered r := hf
    simp [ClaimMode.owns] at hm
  | call c k ih =>
    obtain ⟨hallow, hk⟩ := hf
    cases hallow with
    | owns => exact .later () nofun (ih () rfl (hk ()))
    | pending repo => exact .later none nofun (ih none rfl (hk none))
    | start job => exact .later false nofun (ih false rfl (hk false))
    | enqueue job hj => exact .later none nofun (ih none rfl (hk none))
    | failed job => exact .later () nofun (ih () rfl (hk ()))
    | unclaim => exact .later true nofun (ih true rfl (hk true))
    | delete => exact .here (.inl rfl)
    | kept => exact .here (.inr rfl)
    | _ => simp [ClaimMode.owns] at hm

end

theorem exists_between_iff {d : Text} {W : Type} {s : Pool W (QueueProg Response)} {a : Pool W ClaimMode}
    (hm : (claimOutline d).Matches (fun m r => m = .answered r) s a) :
    (∃ t ∈ s.threads, Between d t) ↔ 0 < total isOwner a.threads := by
  constructor
  · rintro ⟨t, ht, p, rfl, hreach⟩
    obtain ⟨i, hi⟩ := List.getElem?_of_mem ht
    obtain ⟨t', ht', hat⟩ := hm.getElem? hi
    cases hat with
    | @running _ m hf =>
      obtain ⟨pre, post, hsplit⟩ := List.append_of_mem (List.mem_of_getElem? ht')
      have hone : isOwner (.running m) = 1 := owns_of_mayReach hreach hf
      rw [hsplit, total_middle, hone]
      omega
  · intro h
    obtain ⟨t, ht, hpos⟩ := exists_of_total_pos h
    obtain ⟨t', ht', hat⟩ := hm.mem ht
    cases hat with
    | @running p m hf =>
      have hone : m.owns = 1 := by
        have hpos' : 0 < m.owns := hpos
        cases m <;> first | rfl | simp [ClaimMode.owns] at hpos'
      exact ⟨_, ht', p, rfl, mayReach_of_owns hone hf⟩
    | stopped => simp [isOwner] at hpos
    | lost => simp [isOwner] at hpos

/-- At most one job is put for a delivery, and its claim is held exactly while a
request is between its claim and the end of its enqueue or rollback, or the job
was put, or a rollback raised. So a redelivery gets a new attempt when a failed
enqueue was rolled back, and none after a job was put. -/
theorem claim_protocol {d : Text} {w₀ : QueueWorld} (hfree : d ∉ w₀.claims) (hnojob : jobsOf d w₀ = [])
    {s : Pool (QueueWorld × List (Sigma QueueCall.Reply)) (QueueProg Response)}
    (hrun : (claimHost d).Run (requestFor d) (fun _ l => NoDeath l) ⟨(w₀, []), []⟩ s) :
    (jobsOf d s.world.1).length ≤ 1 ∧
    (d ∈ s.world.1.claims ↔ (∃ t ∈ s.threads, Between d t) ∨ JobPut d s.world.1 ∨ RollbackRaised d s.world.2) ∧
    (((∃ t ∈ s.threads, Between d t) ∨ JobPut d s.world.1 ∨ RollbackRaised d s.world.2) ↔
      (RedisCommand.run (.setNx d) s.world.1).1 = false) := by
  have hstart : (claimOutline d).Matches (fun m r => m = .answered r)
      (⟨(w₀, []), []⟩ : Pool (QueueWorld × List (Sigma QueueCall.Reply)) (QueueProg Response))
      (⟨(w₀, []), []⟩ : Pool (QueueWorld × List (Sigma QueueCall.Reply)) ClaimMode) := ⟨rfl, .nil⟩
  have hinit : ClaimInv d (w₀, []) [] := by
    simp [ClaimInv, claimed, hfree, hnojob, total, rollbacksRaised]
  obtain ⟨a, hm, I⟩ := hrun.outline_invariant (I := fun a => ClaimInv d a.world a.threads)
    (fun p hp => receiveWebhook_claims hp) (fun _ _ _ _ _ _ _ hc _ hstep hI => claimInv_step hstep hc hI)
    hstart hinit
  have I' : claimed d s.world.1 = total isOwner a.threads + (jobsOf d s.world.1).length +
      rollbacksRaised d s.world.2 := by
    rw [hm.world]
    exact I
  have hone := claimed_le_one d s.world.1
  have hheld : d ∈ s.world.1.claims ↔ 0 < claimed d s.world.1 := by
    unfold claimed
    split_ifs with h <;> simp [h]
  have hput : JobPut d s.world.1 ↔ 0 < (jobsOf d s.world.1).length := by
    rw [List.length_pos_iff_exists_mem]
    simp [JobPut, jobsOf]
  have hraised : RollbackRaised d s.world.2 ↔ 0 < rollbacksRaised d s.world.2 := by
    simp [RollbackRaised, rollbacksRaised, List.countP_pos_iff]
  have hiff : d ∈ s.world.1.claims ↔
      (∃ t ∈ s.threads, Between d t) ∨ JobPut d s.world.1 ∨ RollbackRaised d s.world.2 := by
    rw [exists_between_iff hm, hput, hraised, hheld, I']
    omega
  refine ⟨by omega, hiff, ?_⟩
  rw [← hiff]
  by_cases hd : d ∈ s.world.1.claims <;> simp [RedisCommand.run, hd]

/-- A request whose enqueue fails and is rolled back, and then its redelivery. -/
def failedThenRedelivered : List (Host.Move Fate (QueueProg Response)) :=
  let request := receiveWebhook "72d3162e".toList (.pullRequest "opened".toList 7 "acme/api".toList)
  .spawn request :: [Fate.ok, .ok, .ok, .ok, .fails, .fails, .fails, .ok, .ok, .ok, .ok].map (.reply 0) ++
    .spawn request :: List.replicate 6 (.reply 1 .ok)

theorem claim_protocol_redelivered : ∃ s,
    (claimHost "72d3162e".toList).Run (requestFor "72d3162e".toList) (fun _ l => NoDeath l)
      ⟨(⟨[], [], [], .fresh, 0⟩, []), []⟩ s ∧
    (jobsOf "72d3162e".toList s.world.1).length = 1 ∧ "72d3162e".toList ∈ s.world.1.claims := by
  have hplay : ∃ s ∈ (claimHost "72d3162e".toList).play ⟨(⟨[], [], [], .fresh, 0⟩, []), []⟩ failedThenRedelivered,
      (jobsOf "72d3162e".toList s.world.1).length = 1 := by
    decide +kernel
  obtain ⟨s, hs, hjobs⟩ := hplay
  have hrun : (claimHost "72d3162e".toList).Run (requestFor "72d3162e".toList) (fun _ l => NoDeath l)
      ⟨(⟨[], [], [], .fresh, 0⟩, []), []⟩ s := by
    refine Host.run_of_play (fun p hp => ?_) (fun m hm => ?_) hs
    · refine ⟨.pullRequest "opened".toList 7 "acme/api".toList, trivial, ?_⟩
      simpa [failedThenRedelivered] using hp
    · have hkind : ∀ m ∈ failedThenRedelivered, ∀ i, m.label ≠ .stop i ∧ m.label ≠ .lose i := by
        simp [failedThenRedelivered, Host.Move.label]
      exact hkind m hm
  have hjob : JobPut "72d3162e".toList s.world.1 := by
    obtain ⟨job, hjob⟩ := List.length_pos_iff_exists_mem.mp (hjobs.symm ▸ Nat.one_pos)
    exact ⟨job, (List.mem_filter.mp hjob).1, of_decide_eq_true (List.mem_filter.mp hjob).2⟩
  exact ⟨s, hrun, hjobs, (claim_protocol (by simp) (by simp [jobsOf]) hrun).2.1.mpr (.inr (.inl hjob))⟩

end AiPrReview
