import AiPrReview.GuardedPool
import AiPrReview.Redelivery

/-! The truth store behind its guard: a statement is repeated when its attempt
fails, whether or not it had taken effect. -/

namespace AiPrReview

/-- What asyncpg raises, as far as `_RETRYABLE_DB` tells it apart. -/
inductive DbError : Type where
  | connection
  | interface
  | os
  | query

/-- `_RETRYABLE_DB`. A `TimeoutError` is an `OSError`. -/
def retryableDb : Exc DbError → Bool
  | .operationTimeout .. | .timeoutError => true
  | .other e => match e with
    | .connection | .interface | .os => true
    | .query => false
  | _ => false

namespace TruthStore

def commandTimeoutSeconds : ℚ := 10

/-- The guard `TruthStore.__init__` builds. -/
def guard : Reliability.Guard DbError :=
  { (Reliability.Guard.default (some "tiger-truth".toList) : Reliability.Guard DbError) with
    timeoutSeconds := some commandTimeoutSeconds
    retryOn := retryableDb }

/-- The name `_run` is given; the other calls are not made through it. -/
def opName : ReviewCall → Text
  | .upsertReview .. => "truth_store.upsert_review".toList
  | .insertFindings .. => "truth_store.insert_findings".toList
  | .markPosted .. => "truth_store.mark_posted".toList
  | .getReview .. => "truth_store.get_review".toList
  | .getFindings .. => "truth_store.get_findings".toList
  | .setStatus .. => "truth_store.set_status".toList
  | _ => []

/-- A program of the pipeline that makes its statements through store `i`. -/
def run {α : Type} (i : Nat) (p : ReviewProg α) : GuardedProg ReviewCall.Reply DbError (Option α) :=
  p.guarded ReviewCall.retries guard i opName

end TruthStore

abbrev StoreWorld : Type := GuardedWorld Reliability.CircuitBreaker ReviewWorld

abbrev StorePool (α : Type) : Type := Pool StoreWorld (GuardedProg ReviewCall.Reply DbError (Option α))

def storeHost : Host (GuardedCall.Reply ReviewCall.Reply DbError) (GuardedChoice ReviewChoice DbError) StoreWorld :=
  reviewHost.guarded Reliability.breakerOps

/-- A program of `spawns` with a store of its own, or one it shares. -/
def throughStore {α : Type} (spawns : ReviewProg α → Prop) (p : GuardedProg ReviewCall.Reply DbError (Option α)) :
    Prop :=
  ∃ q i, spawns q ∧ p = TruthStore.run i q

/-- Whatever the guards do, the pipeline behind them runs as one whose calls
are answered, repeated after a lost reply, or raise. -/
theorem store_refines {α : Type} {spawns : ReviewProg α → Prop} {cond : StorePool α → Label → Prop} {v : StoreWorld}
    {s : StorePool α} (hrun : storeHost.Run (throughStore spawns) cond ⟨v, []⟩ s) :
    ∃ a, reviewHost.Run spawns (fun _ _ => True) ⟨v.world, []⟩ a ∧ a.world = s.world.world ∧
      ∀ i x, s.result i = some (some x) → a.result i = some x := by
  have hattempts : 1 ≤ TruthStore.guard.attempts := by decide
  have hstart : (⟨v, []⟩ : StorePool α).Mirrors reviewHost.retries ⟨v.world, []⟩ := ⟨rfl, .nil⟩
  obtain ⟨a, ha, hm⟩ := Host.guarded_run hattempts hrun hstart
  exact ⟨a, ha, hm.world.symm, fun i x hx => Host.result_of_mirrors hm hx⟩

abbrev StoreMove (α : Type) : Type :=
  Host.Move (GuardedChoice ReviewChoice DbError) (GuardedProg ReviewCall.Reply DbError (Option α))

def closedGuards (_ : Nat) : GuardWorld Reliability.CircuitBreaker := ⟨⟨"tiger-truth".toList, 5, 30, 0, none⟩, 0⟩

def answered {α : Type} (fate : AttemptFate DbError) : StoreMove α := .reply 0 ⟨anyChoice, 0, fate, true⟩

/-- The reply of the first attempt is lost after the row was written. -/
def repeatedStatement (α : Type) : List (StoreMove α) :=
  [answered .served, answered (.lostReply (.raised (.other .connection))), answered .served, answered .served,
    answered .served]

abbrev someUpsert : ReviewCall := .upsertReview "o/r".toList 1 "d".toList

theorem store_refines_retried : ∃ (s : StorePool ReviewRow) (a : Pool ReviewWorld (ReviewProg ReviewRow)),
    s.result 0 = some (some ⟨0, .pending, none⟩) ∧ s.world.world.db.reviews.rows.length = 1 ∧
      reviewHost.Run (fun p => p = someUpsert.perform) (fun _ _ => True) ⟨emptyWorld, []⟩ a ∧
      a.world = s.world.world ∧ a.result 0 = some ⟨0, .pending, none⟩ := by
  have hplay : ∃ s ∈ storeHost.play ⟨⟨closedGuards, emptyWorld⟩, []⟩
      (.spawn (TruthStore.run 0 someUpsert.perform) :: repeatedStatement ReviewRow),
      s.result 0 = some (some ⟨0, .pending, none⟩) ∧ s.world.world.db.reviews.rows.length = 1 := by
    decide +kernel
  obtain ⟨s, hs, hr, hl⟩ := hplay
  have hrun : storeHost.Run (throughStore fun p => p = someUpsert.perform) (fun _ _ => True)
      ⟨⟨closedGuards, emptyWorld⟩, []⟩ s := by
    refine Host.run_of_play (fun p hp => ?_) (fun _ _ => trivial) hs
    simp [repeatedStatement, answered] at hp
    exact ⟨_, 0, rfl, hp⟩
  obtain ⟨a, ha, hworld, hresult⟩ := store_refines hrun
  exact ⟨s, a, hr, hl, ha, hworld, hresult 0 _ hr⟩

/-! Every statement of the store may be repeated. -/

namespace ReviewDb

theorem ext {db db' : ReviewDb} (hr : db.reviews.rows = db'.reviews.rows) (hf : db.findings.rows = db'.findings.rows)
    (hh : db.hitl = db'.hitl) : db = db' := by
  obtain ⟨reviews, findings, hitl, _, _, _⟩ := db
  obtain ⟨reviews', findings', hitl', _, _, _⟩ := db'
  obtain rfl := Table.eq_of_rows hr
  obtain rfl := Table.eq_of_rows hf
  obtain rfl : hitl = hitl' := hh
  rfl

theorem updateReviews_of_fixed {db : ReviewDb} {p : ReviewRecord → Bool} {f : ReviewRecord → ReviewRecord}
    {hkey : ∀ r, (f r).githubDeliveryId = r.githubDeliveryId} {hid : ∀ r, (f r).id = r.id}
    (h : ∀ r ∈ db.reviews.rows, p r = true → f r = r) : db.updateReviews p f hkey hid = db := by
  refine ext ?_ rfl rfl
  refine (List.map_congr_left fun r hr => ?_).trans (List.map_id _)
  by_cases hp : p r = true
  · simp [hp, h r hr hp]
  · simp [hp]

/-- An UPDATE that sets what it has set already changes nothing. -/
theorem updateReviews_twice {db : ReviewDb} {p : ReviewRecord → Bool} {f : ReviewRecord → ReviewRecord}
    {hkey : ∀ r, (f r).githubDeliveryId = r.githubDeliveryId} {hid : ∀ r, (f r).id = r.id}
    (hf : ∀ r, f (f r) = f r) :
    (db.updateReviews p f hkey hid).updateReviews p f hkey hid = db.updateReviews p f hkey hid := by
  refine updateReviews_of_fixed fun r hr hpr => ?_
  obtain ⟨r₀, _, rfl⟩ := List.mem_map.mp hr
  by_cases h : p r₀ = true
  · simp [h, hf]
  · simp [h] at hpr

theorem markPosted_twice (db : ReviewDb) (id gid : Nat) (score : ℚ) :
    (db.markPosted id gid score).markPosted id gid score = db.markPosted id gid score :=
  updateReviews_twice fun _ => rfl

theorem setStatus_twice (db : ReviewDb) (id : Nat) (status : ReviewStatus) (score : ℚ) :
    (db.setStatus id status score).setStatus id status score = db.setStatus id status score :=
  updateReviews_twice fun _ => rfl

theorem upsertReview_twice (db : ReviewDb) (repo : Text) (prNumber : Int) (d : Text) :
    (db.upsertReview repo prNumber d).upsertReview repo prNumber d = db.upsertReview repo prNumber d := by
  have hself := review_upsertReview_self db repo prNumber d
  generalize hdb : db.upsertReview repo prNumber d = db₁ at hself
  unfold upsertReview
  rw [hself]
  refine updateReviews_of_fixed fun r hr hd => ?_
  -- the row of the delivery carries the number already
  have hrow : db₁.review d = some r :=
    Table.get_eq_some_iff.mpr ⟨hr, by simpa using hd⟩
  obtain rfl := Option.some.inj (hself.symm.trans hrow)
  split <;> rfl

theorem insertFinding_of_mem {db : ReviewDb} {id : Nat} {f : Finding} (hfk : id < db.reviews.rows.length)
    (h : FindingRecord.key ⟨id, f⟩ ∈ db.findings.rows.map FindingRecord.key) : db.insertFinding id f hfk = db := by
  refine ext rfl ?_ rfl
  show (db.findings.insertIgnore _).rows = db.findings.rows
  unfold Table.insertIgnore
  split_ifs with hno
  · rfl
  · exact absurd h hno

theorem keys_insertFinding {db : ReviewDb} {id : Nat} {f : Finding} (hfk : id < db.reviews.rows.length)
    (k : Nat × AgentType × Text × Int × Text) : k ∈ (db.insertFinding id f hfk).findings.rows.map FindingRecord.key ↔
      k ∈ db.findings.rows.map FindingRecord.key ∨ k = FindingRecord.key ⟨id, f⟩ := by
  show k ∈ (db.findings.insertIgnore _).rows.map FindingRecord.key ↔ _
  unfold Table.insertIgnore
  split_ifs with h
  · constructor
    · exact .inl
    · rintro (hk | rfl)
      · exact hk
      · exact h
  · simp [FindingRecord.key]

theorem keys_insertFindings {db : ReviewDb} {id : Nat} {fs : List Finding} (hfk : id < db.reviews.rows.length)
    (k : Nat × AgentType × Text × Int × Text) : k ∈ (db.insertFindings id fs hfk).findings.rows.map FindingRecord.key ↔
      k ∈ db.findings.rows.map FindingRecord.key ∨ ∃ f ∈ fs, k = FindingRecord.key ⟨id, f⟩ := by
  induction fs generalizing db with
  | nil => simp [insertFindings]
  | cons f fs ih =>
    have hrest := @ih (db.insertFinding id f hfk) hfk
    rw [keys_insertFinding, or_assoc] at hrest
    refine hrest.trans ?_
    simp

theorem insertFindings_of_mem {db : ReviewDb} {id : Nat} {fs : List Finding} (hfk : id < db.reviews.rows.length)
    (h : ∀ f ∈ fs, FindingRecord.key ⟨id, f⟩ ∈ db.findings.rows.map FindingRecord.key) :
    db.insertFindings id fs hfk = db := by
  induction fs with
  | nil => rfl
  | cons f fs ih =>
    have hf := insertFinding_of_mem hfk (h f List.mem_cons_self)
    have hrest := ih fun g hg => h g (List.mem_cons_of_mem f hg)
    rw [insertFindings]
    simpa only [hf] using hrest

theorem insertFindings_twice (db : ReviewDb) (id : Nat) (fs : List Finding) (hfk : id < db.reviews.rows.length)
    (hfk' : id < (db.insertFindings id fs hfk).reviews.rows.length) :
    (db.insertFindings id fs hfk).insertFindings id fs hfk' = db.insertFindings id fs hfk :=
  insertFindings_of_mem hfk' fun f hf => (keys_insertFindings hfk _).mpr (.inr ⟨f, hf, rfl⟩)

end ReviewDb

theorem store_repeats {c : ReviewCall} (hc : c.retries = true) : reviewHost.Repeats c := by
  intro e e' w w₁ w₂ r r' h h'
  change c.exec e w = some (r, w₁) at h
  change c.exec e' w₁ = some (r', w₂) at h'
  change w₂ = w₁ ∧ c.exec e' w = some (r', w₁)
  have hreads : c.reads = true → w₂ = w₁ ∧ c.exec e' w = some (r', w₁) := by
    intro hr
    obtain rfl := exec_of_reads hr h
    exact ⟨exec_of_reads hr h', exec_of_reads hr h' ▸ h'⟩
  -- a write answers alike whatever the choice, and leaves the same world again
  cases c with
  | upsertReview repo prNumber d =>
    obtain ⟨hw₁, x, hx, hr⟩ := exec_upsertReview h
    obtain ⟨hw₂, x', hx', hr'⟩ := exec_upsertReview h'
    subst hw₁
    simp only [ReviewDb.upsertReview_twice] at hx' hw₂
    obtain rfl := Option.some.inj (hx.symm.trans hx')
    exact ⟨hw₂, hr' ▸ hr ▸ h⟩
  | insertFindings id fs =>
    obtain ⟨hfk, hw₁⟩ := exec_insertFindings h
    obtain ⟨hfk', hw₂⟩ := exec_insertFindings h'
    subst hw₁
    simp only [ReviewDb.insertFindings_twice] at hw₂
    exact ⟨hw₂, h⟩
  | markPosted id gid score =>
    obtain hw₁ := exec_markPosted h
    obtain hw₂ := exec_markPosted h'
    subst hw₁
    simp only [ReviewDb.markPosted_twice] at hw₂
    exact ⟨hw₂, h⟩
  | setStatus id status score =>
    obtain hw₁ := exec_setStatus h
    obtain hw₂ := exec_setStatus h'
    subst hw₁
    simp only [ReviewDb.setStatus_twice] at hw₂
    exact ⟨hw₂, h⟩
  | getReview id => exact hreads rfl
  | getFindings id => exact hreads rfl
  | _ => cases hc

/-- A statement made through the guarded store and nothing else: after its
retries the database is as it was, or as one execution leaves it; and the call
returns what that execution would have returned. -/
theorem statement_once {c : ReviewCall} (hc : c.retries = true) {cond : StorePool c.Reply → Label → Prop} {i : Nat}
    {v : StoreWorld} {s : StorePool c.Reply}
    (hrun : storeHost.Run (fun _ => False) cond ⟨v, [.running (TruthStore.run i c.perform)]⟩ s) :
    (s.world.world = v.world ∨ ∃ e r, c.exec e v.world = some (r, s.world.world)) ∧
      ∀ r, s.result 0 = some (some r) → ∃ e, c.exec e v.world = some (r, s.world.world) := by
  have hattempts : 1 ≤ TruthStore.guard.attempts := by decide
  have hmirrors : Pool.Mirrors reviewHost.retries (⟨v, [.running (TruthStore.run i c.perform)]⟩ : StorePool c.Reply)
      ⟨v.world, [.running c.perform]⟩ :=
    ⟨rfl, .cons (Prog.guarded_mirrors hattempts ReviewCall.retries i TruthStore.opName c.perform) .nil⟩
  have hnone : (fun _ => False) = Guards (fun _ : ReviewProg c.Reply => False) reviewHost.retries TruthStore.guard
      TruthStore.opName := by
    funext p
    simp [Guards]
  rw [hnone] at hrun
  obtain ⟨a, ha, hm⟩ := Host.guarded_run hattempts hrun hmirrors
  obtain ⟨t, hts, ht⟩ := Host.alone_run (store_repeats hc) (fun _ _ h => h) ha
  rw [hm.world]
  refine ⟨ht.executed, fun r hr => ?_⟩
  have hres := Host.result_of_mirrors hm hr
  rw [Pool.result, hts] at hres
  cases ht with
  | calls _ => cases hres
  | done he =>
    obtain rfl := Option.some.inj hres
    exact ⟨_, he⟩
  | dead _ hno =>
    cases t with
    | running q => exact absurd rfl (hno q)
    | stopped q => cases hres
    | lost q => cases hres

theorem statement_once_retried : ∃ s : StorePool ReviewRow,
    s.result 0 = some (some ⟨0, .pending, none⟩) ∧ s.world.world.db.reviews.rows.length = 1 ∧
      ∃ e, someUpsert.exec e emptyWorld = some (⟨0, .pending, none⟩, s.world.world) := by
  have hplay : ∃ s ∈ storeHost.play ⟨⟨closedGuards, emptyWorld⟩, [.running (TruthStore.run 0 someUpsert.perform)]⟩
      (repeatedStatement ReviewRow), s.result 0 = some (some ⟨0, .pending, none⟩) ∧
        s.world.world.db.reviews.rows.length = 1 := by
    decide +kernel
  obtain ⟨s, hs, hr, hl⟩ := hplay
  have hrun : storeHost.Run (fun _ => False) (fun _ _ => True)
      ⟨⟨closedGuards, emptyWorld⟩, [.running (TruthStore.run 0 someUpsert.perform)]⟩ s :=
    Host.run_of_play (fun p hp => by simp [repeatedStatement, answered] at hp) (fun _ _ => trivial) hs
  exact ⟨s, hr, hl, (statement_once (c := someUpsert) rfl hrun).2 _ hr⟩

/-! Approvals through the guarded store. A claimed HITL row is worth one post. -/

/-- A pending row of the review can still be claimed. -/
def claimable (w : ReviewWorld) (id : Nat) : Nat := if 0 < w.db.pendingCount id then 1 else 0

def mayPost (id : Nat) : Thread ResolveMode → Nat
  | .running (.armed i) | .running (.holding i) => if i = id then 1 else 0
  | _ => 0

/-- Every post was a claim, every claim a pending row. -/
structure PostBudget (w₀ w : ReviewWorld) (ts : List (Thread ResolveMode)) : Prop where
  entering : total isEntering ts = 0
  budget : ∀ id, postsFor w id + total (mayPost id) ts + claimable w id ≤ postsFor w₀ id + claimable w₀ id

theorem claimable_enqueue_le (w : ReviewWorld) (id : Nat) (reason : Text) (hfk : id < w.db.reviews.rows.length)
    (id' : Nat) : claimable ⟨w.db.enqueue id reason hfk, w.github⟩ id' ≤
      claimable w id' + if id = id' then 1 else 0 := by
  have hc := ReviewDb.hitlCount_enqueue w.db id reason hfk id' .pending
  simp only [claimable, ReviewDb.pendingCount, hc]
  by_cases h : id = id'
  · simp [h]
  · simp [h, Ne.symm h]
    exact le_rfl

/-- An allowed call other than an upsert pays for what it posts or makes claimable. -/
theorem pays {d : Text} {m : ResolveMode} {c : ReviewCall} {r : c.Reply} {e : ReviewChoice} {w w' : ReviewWorld}
    (hallow : m.Allows d c) (hm : m ≠ .aggregate) (he : c.exec e w = some (r, w')) (id : Nat) :
    postsFor w' id + mayPost id (.running (m.next c r)) + claimable w' id ≤
      postsFor w id + mayPost id (.running m) + claimable w id := by
  cases hallow with
  | upsert => exact absurd rfl hm
  | insert i fs =>
    obtain ⟨hfk, rfl⟩ := exec_insertFindings he
    simp [postsFor, claimable, ReviewDb.pendingCount, ReviewDb.hitlCount, mayPost, ResolveMode.next]
  | emit =>
    obtain rfl := exec_of_reads rfl he
    exact le_rfl
  | autoPost i repo prNumber body event =>
    obtain ⟨_, rfl⟩ := exec_postReview he
    simp [postsFor, claimable, mayPost, ResolveMode.next, List.countP_append]
  | enqueue i reason =>
    obtain ⟨hfk, rfl⟩ := exec_enqueue he
    have hle := claimable_enqueue_le w i reason hfk id
    simp only [postsFor, mayPost, ResolveMode.next]
    omega
  | setStatus i status score hs =>
    obtain rfl := exec_setStatus he
    exact le_rfl
  | claim i note =>
    obtain ⟨rfl, hclaimed⟩ := exec_resolve he
    simp only [postsFor, claimable, ResolveMode.next,
      ReviewDb.pendingCount_resolve w.db i (show HitlStatus.resolved ≠ .pending by decide)]
    by_cases hr : r = true
    · have hpos := hclaimed.mp hr
      by_cases hid : i = id
      · subst hid
        simp [mayPost, hr, hpos]
      · simp [mayPost, hr, hid, Ne.symm hid]
    · by_cases hid : id = i
      · simp [mayPost, hr, hid]
      · simp [mayPost, hr, hid]
  | dismiss i note =>
    obtain ⟨rfl, _⟩ := exec_resolve he
    simp only [postsFor, claimable, ResolveMode.next,
      ReviewDb.pendingCount_resolve w.db i (show HitlStatus.dismissed ≠ .pending by decide)]
    by_cases hid : id = i
    · simp [mayPost, hid]
    · simp [mayPost, hid]
  | getReview i =>
    obtain rfl := exec_of_reads rfl he
    exact le_rfl
  | getFindings i =>
    obtain rfl := exec_of_reads rfl he
    exact le_rfl
  | approvePost i repo prNumber body event =>
    obtain ⟨_, rfl⟩ := exec_postReview he
    simp [postsFor, claimable, mayPost, ResolveMode.next, List.countP_append]
  | mark i gid score =>
    obtain rfl := exec_markPosted he
    exact le_rfl

theorem retried_free {c : ReviewCall} {r : c.Reply} {e : ReviewChoice} {w w' : ReviewWorld} (hc : c.retries = true)
    (he : c.exec e w = some (r, w')) (id : Nat) :
    postsFor w' id = postsFor w id ∧ claimable w' id = claimable w id := by
  cases c with
  | upsertReview repo prNumber d =>
    obtain ⟨rfl, _⟩ := exec_upsertReview he
    simp [postsFor, claimable, ReviewDb.pendingCount, ReviewDb.hitlCount]
  | insertFindings i fs =>
    obtain ⟨hfk, rfl⟩ := exec_insertFindings he
    simp [postsFor, claimable, ReviewDb.pendingCount, ReviewDb.hitlCount]
  | markPosted i gid score =>
    obtain rfl := exec_markPosted he
    exact ⟨rfl, rfl⟩
  | setStatus i status score =>
    obtain rfl := exec_setStatus he
    exact ⟨rfl, rfl⟩
  | getReview i =>
    obtain rfl := exec_of_reads rfl he
    exact ⟨rfl, rfl⟩
  | getFindings i =>
    obtain rfl := exec_of_reads rfl he
    exact ⟨rfl, rfl⟩
  | _ => cases hc

theorem next_ne_aggregate {d : Text} {m : ResolveMode} {c : ReviewCall} (hallow : m.Allows d c) (r : c.Reply) :
    m.next c r ≠ .aggregate := by
  cases hallow with
  | upsert repo prNumber =>
    show (if ReviewRow.status r = .pending then ResolveMode.armed (ReviewRow.id r) else .done) ≠ .aggregate
    split_ifs <;> exact nofun
  | claim i note =>
    show (if r = true then ResolveMode.holding i else .done) ≠ .aggregate
    split_ifs <;> exact nofun
  | _ => exact nofun

theorem isEntering_running {m : ResolveMode} (h : m ≠ .aggregate) : isEntering (.running m) = 0 := by
  cases m with
  | aggregate => exact absurd rfl h
  | _ => rfl

theorem PostBudget.replace {w₀ w w' : ReviewWorld} {pre post : List (Thread ResolveMode)} {t t' : Thread ResolveMode}
    (I : PostBudget w₀ w (pre ++ t :: post)) (hentering : isEntering t' = 0)
    (hpays : ∀ id, postsFor w' id + mayPost id t' + claimable w' id ≤ postsFor w id + mayPost id t + claimable w id) :
    PostBudget w₀ w' (pre ++ t' :: post) := by
  have hzero := I.entering
  rw [total_middle] at hzero
  refine ⟨?_, fun id => ?_⟩
  · rw [total_middle]
    omega
  · have hb := I.budget id
    have hp := hpays id
    rw [total_middle] at hb ⊢
    omega

theorem postBudget_step {d : Text} {w₀ : ReviewWorld} {a a' : Pool ReviewWorld ResolveMode} {l : Label}
    (I : PostBudget w₀ a.world a.threads)
    (h : (resolveOutline d).Step reviewHost (fun m => ∃ id, m = .approve id ∨ m = .reject id) a l a') :
    PostBudget w₀ a'.world a'.threads := by
  have hmode : ∀ {m : ResolveMode} {pre post : List (Thread ResolveMode)} {w : ReviewWorld},
      PostBudget w₀ w (pre ++ .running m :: post) → m ≠ .aggregate := by
    rintro m pre post w I rfl
    have hzero := I.entering
    rw [total_middle] at hzero
    simp [isEntering] at hzero
  cases h with
  | @reply pre post m c w w' r e hallow he =>
    exact I.replace (isEntering_running (next_ne_aggregate hallow r)) fun id => pays hallow (hmode I) he id
  | @retry pre post m c w w' r e hallow hc he =>
    refine I.replace (isEntering_running (hmode I)) fun id => ?_
    obtain ⟨hposts, hclaimable⟩ := retried_free hc he id
    rw [hposts, hclaimable]
  | @stop pre post m w =>
    refine I.replace rfl fun id => ?_
    show postsFor w id + 0 + claimable w id ≤ postsFor w id + mayPost id (.running m) + claimable w id
    omega
  | @lose pre post m c w w' r e hallow he =>
    refine I.replace rfl fun id => ?_
    have hpays := pays hallow (hmode I) he id
    show postsFor w' id + 0 + claimable w' id ≤ postsFor w id + mayPost id (.running m) + claimable w id
    omega
  | @spawn ts w m hm =>
    obtain ⟨id, rfl | rfl⟩ := hm
    · refine ⟨?_, fun id' => ?_⟩
      · simpa [total_concat, isEntering] using I.entering
      · simpa [total_concat, mayPost] using I.budget id'
    · refine ⟨?_, fun id' => ?_⟩
      · simpa [total_concat, isEntering] using I.entering
      · simpa [total_concat, mayPost] using I.budget id'
  | drift h => exact absurd h id

/-- However approves and rejects through the guarded store interleave, fail and
are retried: a review gets at most one new post, and none without a pending row. -/
theorem approvals_post_once {cond : StorePool Unit → Label → Prop} {v : StoreWorld} {s : StorePool Unit}
    (hrun : storeHost.Run (throughStore resolves) cond ⟨v, []⟩ s) (id : Nat) :
    postsFor s.world.world id ≤ postsFor v.world id + claimable v.world id := by
  obtain ⟨a, ha, hworld, _⟩ := store_refines hrun
  have hspawn : ∀ p, resolves p → ∃ m, (∃ id, m = ResolveMode.approve id ∨ m = .reject id) ∧
      p.Follows (resolveOutline []) (fun m _ => m.ends) m := by
    rintro p ⟨id, note, rfl | rfl⟩
    · exact ⟨.approve id, ⟨id, .inl rfl⟩, approve_follows [] id note⟩
    · exact ⟨.reject id, ⟨id, .inr rfl⟩, reject_follows [] id note⟩
  obtain ⟨b, hm, I⟩ := ha.outline_invariant (I := fun b => PostBudget v.world b.world b.threads) hspawn
    (fun _ _ _ _ _ _ _ _ _ hstep hI => postBudget_step hI hstep) (a := ⟨v.world, []⟩) ⟨rfl, .nil⟩
    ⟨rfl, fun id => by simp [total]⟩
  have hb := I.budget id
  rw [← hworld, hm.world]
  omega

/-- The reply of `mark_posted` is lost once. -/
def approveRepeated : List (StoreMove Unit) :=
  .spawn (TruthStore.run 0 (approve 0 none).void) :: List.replicate 8 (answered .served) ++ repeatedStatement Unit

def oneQueued : List ReviewOp := rejectedRun.take 1

theorem approvals_post_once_retried : ∃ (w : ReviewWorld) (s : StorePool Unit),
    claimable w 0 = 1 ∧ postsFor w 0 = 0 ∧ postsFor s.world.world 0 = 1 ∧ w.status 0 = some .needsHuman ∧
      s.world.world.status 0 = some .posted ∧ postsFor s.world.world 0 ≤ postsFor w 0 + claimable w 0 := by
  have hplay : ∃ w ∈ runAll anyChoice emptyWorld oneQueued,
      ∃ s ∈ storeHost.play ⟨⟨closedGuards, w⟩, []⟩ approveRepeated, claimable w 0 = 1 ∧ postsFor w 0 = 0 ∧
        postsFor s.world.world 0 = 1 ∧ w.status 0 = some .needsHuman ∧ s.world.world.status 0 = some .posted := by
    decide +kernel
  obtain ⟨w, _, s, hs, hclaim, hnone, hposts, hw, hst⟩ := hplay
  have hrun : storeHost.Run (throughStore resolves) (fun _ _ => True) ⟨⟨closedGuards, w⟩, []⟩ s := by
    refine Host.run_of_play (fun p hp => ?_) (fun _ _ => trivial) hs
    simp [approveRepeated, repeatedStatement, answered] at hp
    exact ⟨_, 0, ⟨0, none, .inl rfl⟩, hp⟩
  exact ⟨w, s, hclaim, hnone, hposts, hw, hst, approvals_post_once hrun 0⟩

end AiPrReview
