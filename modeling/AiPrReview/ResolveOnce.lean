import AiPrReview.QueueAgreement

/-! Many approves and rejects of one review at once. The UPDATE of `resolve` is
the only place where they meet: whoever finds the row pending owns it. -/

namespace AiPrReview

inductive ResolveCall : Type where
  | approve (note : Option Text)
  | reject (note : Option Text)

namespace ResolveCall

def note : ResolveCall → Option Text
  | approve note | reject note => note

def status : ResolveCall → HitlStatus
  | approve _ => .resolved
  | reject _ => .dismissed

def program (reviewId : Nat) : ResolveCall → ReviewProg (Except HttpError ResolveResponse)
  | approve note => AiPrReview.approve reviewId note
  | reject note => AiPrReview.reject reviewId note

def posts : ResolveCall → Nat
  | approve _ => 1
  | reject _ => 0

theorem status_ne_pending (c : ResolveCall) : c.status ≠ .pending := by
  cases c <;> simp [status]

end ResolveCall

def reviewRows (w : ReviewWorld) (reviewId : Nat) : List HitlRow :=
  w.db.hitl.filter fun h => h.reviewId = reviewId

def QueuedOnce (w : ReviewWorld) (reviewId : Nat) (reason : Text) : Prop :=
  reviewRows w reviewId = [⟨reviewId, reason, .pending, none⟩]

/-! The row of the review under the statements of an endpoint. -/

section

variable {w : ReviewWorld} {reviewId : Nat} {reason : Text} {status : HitlStatus} {note : Option Text}

theorem reviewRows_resolve (db : ReviewDb) (github : List PostedReview) (reviewId : Nat)
    (status : HitlStatus) (note : Option Text) :
    reviewRows ⟨db.resolve reviewId status note, github⟩ reviewId =
      (reviewRows ⟨db, github⟩ reviewId).map fun h =>
        if h.status = .pending then { h with status, resolutionNote := note } else h := by
  simp only [reviewRows, ReviewDb.resolve, List.filter_map]
  have hkeep : ((fun h : HitlRow => decide (h.reviewId = reviewId)) ∘ fun h =>
      if ReviewDb.isPendingFor reviewId h = true then { h with status, resolutionNote := note } else h) =
        fun h => decide (h.reviewId = reviewId) := by
    funext h
    by_cases hp : ReviewDb.isPendingFor reviewId h = true <;> simp [hp]
  rw [hkeep]
  refine List.map_congr_left fun h hh => ?_
  have hid : h.reviewId = reviewId := of_decide_eq_true (List.mem_filter.mp hh).2
  simp [ReviewDb.isPendingFor, ReviewDb.isFor, hid]

theorem pendingCount_eq (w : ReviewWorld) (reviewId : Nat) :
    w.db.pendingCount reviewId = (reviewRows w reviewId).countP fun h => h.status = .pending := by
  rw [ReviewDb.pendingCount, ReviewDb.hitlCount, reviewRows, List.countP_filter]
  refine List.countP_congr fun h _ => ?_
  simp [ReviewDb.isFor, and_comm]

theorem pending_iff (h : reviewRows w reviewId = [⟨reviewId, reason, status, note⟩]) :
    0 < w.db.pendingCount reviewId ↔ status = .pending := by
  rw [pendingCount_eq, h]
  by_cases hs : status = .pending <;> simp [hs]

theorem review_exists (h : reviewRows w reviewId = [⟨reviewId, reason, status, note⟩]) :
    ∃ r, w.db.reviewById reviewId = some r := by
  have hmem : (⟨reviewId, reason, status, note⟩ : HitlRow) ∈ reviewRows w reviewId := by simp [h]
  exact ReviewDb.exists_reviewById (w.db.hitl_fk _ (List.mem_filter.mp hmem).1)

end

theorem aggregate_queuesOnce {w w' : ReviewWorld} {repo d : Text} {prNumber : Int}
    {family : List (List Finding)} {threshold : ℚ} {result : AggregateResult}
    (h : Prog.Completes ReviewCall.exec w (aggregate repo prNumber d family threshold) result w')
    {reviewId : Nat} (hnew : reviewRows w reviewId = []) :
    reviewRows w' reviewId = [] ∨ ∃ reason, QueuedOnce w' reviewId reason := by
  rw [aggregate_eq, Prog.completes_call_iff] at h
  obtain ⟨_, row, w₁, hup, h⟩ := h
  obtain ⟨rfl, _⟩ := exec_upsertReview hup
  split_ifs at h with hs
  · obtain ⟨_, w₂, hins, hgate⟩ := Prog.completes_bind_iff.mp h
    have hnew₂ : reviewRows w₂ reviewId = [] := by
      rcases insertFindings_completes hins with rfl | ⟨hfk, rfl⟩
      · simpa [reviewRows] using hnew
      · simpa [reviewRows] using hnew
    rcases applyGate_completes hgate with ⟨_, _, _, _, rfl⟩ | ⟨reason, hfk, _, _, _, rfl⟩
    · exact .inl hnew₂
    · by_cases hid : row.id = reviewId
      · refine .inr ⟨reason, ?_⟩
        have hrows : w₂.db.hitl.filter (fun h => h.reviewId = reviewId) = [] := hnew₂
        simp [QueuedOnce, reviewRows, ReviewDb.enqueue, hid, hrows]
      · refine .inl ?_
        have hrows : w₂.db.hitl.filter (fun h => h.reviewId = reviewId) = [] := hnew₂
        simp [reviewRows, ReviewDb.enqueue, hid, hrows]
  · obtain ⟨_, rfl⟩ := Prog.completes_ret_iff.mp h
    exact .inl (by simpa [reviewRows] using hnew)

/-! Where a call stands. -/

inductive CallStage : Type where
  | start
  | held
  | reading
  | posting
  | marking
  | served
  | refused
  | missing

structure CallMode : Type where
  call : ResolveCall
  stage : CallStage

inductive CallMode.Allows (reviewId : Nat) : CallMode → ReviewCall → Prop
  | claim (c : ResolveCall) : Allows reviewId ⟨c, .start⟩ (.resolve reviewId c.status c.note)
  | getReview (note : Option Text) : Allows reviewId ⟨.approve note, .held⟩ (.getReview reviewId)
  | getFindings (note : Option Text) : Allows reviewId ⟨.approve note, .reading⟩ (.getFindings reviewId)
  | post (note : Option Text) (repo : Text) (prNumber : Int) (body : Text) (event : ReviewEvent) :
      Allows reviewId ⟨.approve note, .posting⟩ (.postReview reviewId repo prNumber body event)
  | mark (note : Option Text) (gid : Nat) (score : ℚ) :
      Allows reviewId ⟨.approve note, .marking⟩ (.markPosted reviewId gid score)

def ResolveCall.claimed : ResolveCall → CallStage
  | approve _ => .held
  | reject _ => .served

def CallMode.next : CallMode → (c : ReviewCall) → c.Reply → CallMode
  | ⟨call, .start⟩, .resolve .., claimed => ⟨call, if claimed = true then call.claimed else .refused⟩
  | ⟨call, .held⟩, .getReview _, none => ⟨call, .missing⟩
  | ⟨call, .held⟩, .getReview _, some _ => ⟨call, .reading⟩
  | ⟨call, .reading⟩, _, _ => ⟨call, .posting⟩
  | ⟨call, .posting⟩, _, _ => ⟨call, .marking⟩
  | ⟨call, _⟩, _, _ => ⟨call, .served⟩

def callOutline (reviewId : Nat) : Outline ReviewCall.Reply CallMode :=
  ⟨CallMode.Allows reviewId, CallMode.next⟩

inductive CallMode.Answers (reviewId : Nat) : CallMode → Except HttpError ResolveResponse → Prop
  | served (c : ResolveCall) (gid : Option Nat) :
      Answers reviewId ⟨c, .served⟩ (.ok ⟨reviewId, c.status, gid⟩)
  | refused (c : ResolveCall) : Answers reviewId ⟨c, .refused⟩ (.error alreadyResolved)
  | missing (c : ResolveCall) : Answers reviewId ⟨c, .missing⟩ (.error reviewNotFound)

theorem program_follows (reviewId : Nat) (c : ResolveCall) :
    (c.program reviewId).Follows (callOutline reviewId) (CallMode.Answers reviewId) ⟨c, .start⟩ := by
  cases c with
  | approve note =>
    rw [ResolveCall.program, approve_eq]
    refine ⟨.claim (.approve note), fun claimed => ?_⟩
    by_cases hc : claimed = true
    · simp only [hc, if_true]
      refine ⟨.getReview note, fun review => ?_⟩
      cases review with
      | none => exact .missing _
      | some r =>
        exact ⟨.getFindings note, fun _ => ⟨.post note _ _ _ _, fun _ => ⟨.mark note _ _, fun gid => .served _ _⟩⟩⟩
    · simp only [hc]
      exact .refused _
  | reject note =>
    rw [ResolveCall.program, reject_eq]
    refine ⟨.claim (.reject note), fun claimed => ?_⟩
    by_cases hc : claimed = true
    · simp only [hc, if_true]
      exact .served _ _
    · simp only [hc]
      exact .refused _

theorem next_call {reviewId : Nat} {m : CallMode} {c : ReviewCall} (h : m.Allows reviewId c) (r : c.Reply) :
    (m.next c r).call = m.call := by
  cases h with
  | getReview note => cases r <;> rfl
  | _ => rfl

def CallStage.rank : CallStage → Nat
  | start => 5
  | held => 4
  | reading => 3
  | posting => 2
  | marking => 1
  | _ => 0

theorem rank_next {reviewId : Nat} {m : CallMode} {c : ReviewCall} (h : m.Allows reviewId c) (r : c.Reply) :
    (m.next c r).stage.rank < m.stage.rank := by
  cases h with
  | claim call =>
    simp only [CallMode.next]
    split_ifs
    · cases call <;> simp [ResolveCall.claimed, CallStage.rank]
    · simp [CallStage.rank]
  | getReview note => cases r <;> simp [CallMode.next, CallStage.rank]
  | _ => simp [CallMode.next, CallStage.rank]

/-! The row, its claimant and the posts. -/

def callOf : Thread CallMode → ResolveCall
  | .running m | .stopped m | .lost m => m.call

def CallStage.claims : CallStage → Nat
  | held | reading | posting | marking | served => 1
  | start | refused | missing => 0

def claimsRow : Thread CallMode → Nat
  | .running m => m.stage.claims
  | _ => 0

def hasMoved : Thread CallMode → Nat
  | .running ⟨_, .start⟩ => 0
  | _ => 1

def hasPosted : Thread CallMode → Nat
  | .running ⟨_, .marking⟩ => 1
  | .running ⟨call, .served⟩ => call.posts
  | _ => 0

theorem claimsRow_le_hasMoved (t : Thread CallMode) : claimsRow t ≤ hasMoved t := by
  rcases t with ⟨c, s⟩ | m | m
  · cases s <;> simp [claimsRow, hasMoved, CallStage.claims]
  · exact Nat.zero_le _
  · exact Nat.zero_le _

def OwnedBy (w : ReviewWorld) (reviewId : Nat) (reason : Text) (c : ResolveCall) (ts : List (Thread CallMode)) :
    Prop :=
  reviewRows w reviewId = [⟨reviewId, reason, c.status, c.note⟩] ∧ total claimsRow ts = 1 ∧
    ∀ t ∈ ts, claimsRow t = 1 → callOf t = c

structure OnceInv (w₀ : ReviewWorld) (reviewId : Nat) (reason : Text) (calls : List ResolveCall)
    (w : ReviewWorld) (ts : List (Thread CallMode)) : Prop where
  calls : ts.map callOf = calls
  alive : ∀ t ∈ ts, ∃ m, t = .running m ∧ m.stage ≠ .missing
  row : (QueuedOnce w reviewId reason ∧ total hasMoved ts = 0) ∨ ∃ c, OwnedBy w reviewId reason c ts
  posts : ∃ posts, w.github = w₀.github ++ posts ∧ posts.length = total hasPosted ts ∧
    ∀ p ∈ posts, p.reviewId = reviewId

namespace OnceInv

variable {w₀ w w' : ReviewWorld} {reviewId : Nat} {reason : Text} {calls : List ResolveCall}
  {pre tail : List (Thread CallMode)} {call : ResolveCall} {s s' : CallStage}

theorem calls_next (I : OnceInv w₀ reviewId reason calls w (pre ++ .running ⟨call, s⟩ :: tail)) :
    (pre ++ .running ⟨call, s'⟩ :: tail).map callOf = calls := by
  rw [← I.calls]
  simp [callOf]

theorem alive_next (I : OnceInv w₀ reviewId reason calls w (pre ++ .running ⟨call, s⟩ :: tail))
    (hs : s' ≠ .missing) : ∀ t ∈ pre ++ .running ⟨call, s'⟩ :: tail, ∃ m, t = .running m ∧ m.stage ≠ .missing := by
  intro t ht
  rcases List.mem_append.mp ht with ht | ht
  · exact I.alive t (List.mem_append_left _ ht)
  · rcases List.mem_cons.mp ht with rfl | ht
    · exact ⟨_, rfl, hs⟩
    · exact I.alive t (by simp [ht])

theorem claim (I : OnceInv w₀ reviewId reason calls w (pre ++ .running ⟨call, .start⟩ :: tail))
    (hq : QueuedOnce w reviewId reason) :
    OnceInv w₀ reviewId reason calls ⟨w.db.resolve reviewId call.status call.note, w.github⟩
      (pre ++ .running ⟨call, call.claimed⟩ :: tail) := by
  have hidle : total hasMoved (pre ++ .running ⟨call, .start⟩ :: tail) = 0 := by
    rcases I.row with ⟨_, h⟩ | ⟨c, hrows, _⟩
    · exact h
    · rw [QueuedOnce, hrows, List.singleton_inj, HitlRow.mk.injEq] at hq
      exact absurd hq.2.2.1 c.status_ne_pending
  rw [total_middle] at hidle
  have hpre := total_mono claimsRow_le_hasMoved pre
  have htail := total_mono claimsRow_le_hasMoved tail
  have hone : claimsRow (.running ⟨call, call.claimed⟩) = 1 := by cases call <;> rfl
  have hnone : hasPosted (.running ⟨call, call.claimed⟩) = 0 := by cases call <;> rfl
  refine ⟨I.calls_next, I.alive_next (by cases call <;> simp [ResolveCall.claimed]), .inr ⟨call, ?_, ?_, ?_⟩, ?_⟩
  · rw [reviewRows_resolve, show reviewRows ⟨w.db, w.github⟩ reviewId = _ from hq]
    rfl
  · rw [total_middle, hone]
    omega
  · have hz : ∀ t, claimsRow t = 1 → ∀ ts, total claimsRow ts = 0 → t ∉ ts := by
      intro t ht ts hts hm
      obtain ⟨a, b, rfl⟩ := List.append_of_mem hm
      rw [total_middle] at hts
      omega
    intro t ht hclaim
    rcases List.mem_append.mp ht with ht | ht
    · exact absurd ht (hz t hclaim pre (by omega))
    · rcases List.mem_cons.mp ht with rfl | ht
      · rfl
      · exact absurd ht (hz t hclaim tail (by omega))
  · obtain ⟨posts, hgithub, hlen, hall⟩ := I.posts
    refine ⟨posts, hgithub, ?_, hall⟩
    rw [total_middle] at hlen ⊢
    rw [hlen, hnone]
    rfl

theorem refuse (I : OnceInv w₀ reviewId reason calls w (pre ++ .running ⟨call, .start⟩ :: tail))
    {c : ResolveCall} (ho : OwnedBy w reviewId reason c (pre ++ .running ⟨call, .start⟩ :: tail)) :
    OnceInv w₀ reviewId reason calls ⟨w.db.resolve reviewId call.status call.note, w.github⟩
      (pre ++ .running ⟨call, .refused⟩ :: tail) := by
  obtain ⟨hrows, htotal, howner⟩ := ho
  refine ⟨I.calls_next, I.alive_next (by simp), .inr ⟨c, ?_, ?_, ?_⟩, ?_⟩
  · rw [reviewRows_resolve, show reviewRows ⟨w.db, w.github⟩ reviewId = _ from hrows]
    simp [c.status_ne_pending]
  · rw [total_middle] at htotal ⊢
    exact htotal
  · intro t ht hclaim
    rcases List.mem_append.mp ht with ht | ht
    · exact howner t (List.mem_append_left _ ht) hclaim
    · rcases List.mem_cons.mp ht with rfl | ht
      · simp [claimsRow, CallStage.claims] at hclaim
      · exact howner t (by simp [ht]) hclaim
  · obtain ⟨posts, hgithub, hlen, hall⟩ := I.posts
    refine ⟨posts, hgithub, ?_, hall⟩
    rw [total_middle] at hlen ⊢
    exact hlen

theorem advance (I : OnceInv w₀ reviewId reason calls w (pre ++ .running ⟨call, s⟩ :: tail))
    (hs : s.claims = 1) (hs' : s'.claims = 1) (hrows : reviewRows w' reviewId = reviewRows w reviewId)
    (hposts : ∃ new, w'.github = w.github ++ new ∧
      new.length + hasPosted (.running ⟨call, s⟩) = hasPosted (.running ⟨call, s'⟩) ∧
      ∀ p ∈ new, p.reviewId = reviewId) :
    OnceInv w₀ reviewId reason calls w' (pre ++ .running ⟨call, s'⟩ :: tail) := by
  refine ⟨I.calls_next, I.alive_next (by rintro rfl; simp [CallStage.claims] at hs'), ?_, ?_⟩
  · rcases I.row with ⟨_, hidle⟩ | ⟨c, hc, htotal, howner⟩
    · have hmoved := claimsRow_le_hasMoved (.running ⟨call, s⟩)
      rw [total_middle] at hidle
      simp only [claimsRow, hs] at hmoved
      omega
    · refine .inr ⟨c, hrows.trans hc, ?_, fun t ht hclaim => ?_⟩
      · rw [total_middle] at htotal ⊢
        simp only [claimsRow, hs, hs'] at htotal ⊢
        exact htotal
      · rcases List.mem_append.mp ht with ht | ht
        · exact howner t (List.mem_append_left _ ht) hclaim
        · rcases List.mem_cons.mp ht with rfl | ht
          · exact howner (.running ⟨call, s⟩) (by simp) hs
          · exact howner t (by simp [ht]) hclaim
  · obtain ⟨posts, hgithub, hlen, hall⟩ := I.posts
    obtain ⟨new, hnew, hcount, hids⟩ := hposts
    refine ⟨posts ++ new, by rw [hnew, hgithub, List.append_assoc], ?_, fun p hp => ?_⟩
    · rw [total_middle] at hlen ⊢
      rw [List.length_append, hlen]
      omega
    · rcases List.mem_append.mp hp with hp | hp
      · exact hall p hp
      · exact hids p hp

theorem quiet (I : OnceInv w₀ reviewId reason calls w (pre ++ .running ⟨call, s⟩ :: tail))
    (hs : s.claims = 1) (hs' : s'.claims = 1)
    (hp : hasPosted (.running ⟨call, s⟩) = hasPosted (.running ⟨call, s'⟩)) :
    OnceInv w₀ reviewId reason calls w (pre ++ .running ⟨call, s'⟩ :: tail) :=
  I.advance hs hs' rfl ⟨[], by simp, by simpa using hp, by simp⟩

theorem exec {m : CallMode} (I : OnceInv w₀ reviewId reason calls w (pre ++ .running m :: tail))
    {c : ReviewCall} (hallow : m.Allows reviewId c) {e : ReviewChoice} {r : c.Reply}
    (hexec : c.exec e w = some (r, w')) :
    OnceInv w₀ reviewId reason calls w' (pre ++ .running (m.next c r) :: tail) := by
  cases hallow with
  | claim call =>
    obtain ⟨rfl, hclaimed⟩ := exec_resolve hexec
    rcases I.row with ⟨hq, _⟩ | ⟨c, ho⟩
    · have hr : r = true := hclaimed.mpr ((pending_iff hq).mpr rfl)
      rw [show CallMode.next ⟨call, .start⟩ (.resolve reviewId call.status call.note) r =
        ⟨call, call.claimed⟩ by simp [CallMode.next, hr]]
      exact I.claim hq
    · have hr : r ≠ true := fun hr => c.status_ne_pending ((pending_iff ho.1).mp (hclaimed.mp hr))
      rw [show CallMode.next ⟨call, .start⟩ (.resolve reviewId call.status call.note) r =
        ⟨call, .refused⟩ by simp [CallMode.next, hr]]
      exact I.refuse ho
  | getReview note =>
    obtain rfl := exec_of_reads rfl hexec
    obtain ⟨review, hreview⟩ : ∃ review, w'.db.reviewById reviewId = some review := by
      rcases I.row with ⟨hq, _⟩ | ⟨c, ho⟩
      · exact review_exists hq
      · exact review_exists ho.1
    have hr : r = some (review.repo, review.prNumber, review.overallConfidence.map toDouble) := by
      have hh : (w'.db.reviewById reviewId).map
          (fun r => (r.repo, r.prNumber, r.overallConfidence.map toDouble)) = r :=
        congrArg Prod.fst (Option.some.inj hexec)
      rw [hreview] at hh
      exact hh.symm
    subst hr
    exact I.quiet rfl rfl rfl
  | getFindings note =>
    obtain rfl := exec_of_reads rfl hexec
    exact I.quiet rfl rfl rfl
  | post note repo prNumber body event =>
    obtain ⟨_, rfl⟩ := exec_postReview hexec
    exact I.advance rfl rfl rfl ⟨[_], rfl, rfl, by simp⟩
  | mark note gid score =>
    obtain rfl := exec_markPosted hexec
    exact I.advance rfl rfl rfl ⟨[], by simp, rfl, by simp⟩

end OnceInv

/-! Runs of the endpoints' calls, each statement on its own. -/

abbrev CallPool : Type := Pool ReviewWorld (ReviewProg (Except HttpError ResolveResponse))

/-- One more call of one of the threads is answered. -/
def CallStep (s s' : CallPool) : Prop := ∃ i, reviewHost.Step (fun _ => False) s (.reply i) s'

def endpointPool (w : ReviewWorld) (reviewId : Nat) (calls : List ResolveCall) : CallPool :=
  ⟨w, calls.map fun c => .running (c.program reviewId)⟩

def rankOf : Thread CallMode → Nat
  | .running m => m.stage.rank
  | _ => 0

/-- The pool `s` with every program at its place in its outline. -/
def OnceAt (w₀ : ReviewWorld) (reviewId : Nat) (reason : Text) (calls : List ResolveCall)
    (s : CallPool) (ts : List (Thread CallMode)) : Prop :=
  (callOutline reviewId).Matches (CallMode.Answers reviewId) s ⟨s.world, ts⟩ ∧
    OnceInv w₀ reviewId reason calls s.world ts

section

variable {w₀ : ReviewWorld} {reviewId : Nat} {reason : Text} {calls : List ResolveCall} {s s' : CallPool}
  {ts : List (Thread CallMode)}

theorem OnceAt.step (h : OnceAt w₀ reviewId reason calls s ts) (hstep : CallStep s s') :
    ∃ ts', OnceAt w₀ reviewId reason calls s' ts' ∧ total rankOf ts' < total rankOf ts := by
  obtain ⟨hm, I⟩ := h
  obtain ⟨i, hstep⟩ := hstep
  have hspawn : ∀ p : ReviewProg (Except HttpError ResolveResponse), False →
      ∃ m, (fun _ => False) m ∧ p.Follows (callOutline reviewId) (CallMode.Answers reviewId) m :=
    fun _ hp => hp.elim
  obtain ⟨a, ha, hm'⟩ := hstep.simulated hspawn hm
  obtain ⟨w', ts'⟩ := a
  obtain rfl : s'.world = w' := hm'.world
  generalize hl : Label.reply i = l at ha
  generalize hts : (⟨s.world, ts⟩ : Pool ReviewWorld CallMode) = a at ha
  generalize hts' : (⟨s'.world, ts'⟩ : Pool ReviewWorld CallMode) = a' at ha
  cases ha with
  | @reply pre tail m c w w' r e hallow hexec =>
    obtain ⟨rfl, rfl⟩ := Pool.mk.injEq .. ▸ hts
    obtain ⟨rfl, rfl⟩ := Pool.mk.injEq .. ▸ hts'
    refine ⟨_, ⟨hm', I.exec hallow hexec⟩, ?_⟩
    have hrank : rankOf (.running (m.next c r)) < rankOf (.running m) := rank_next hallow r
    rw [total_middle, total_middle]
    show _ + rankOf (.running (m.next c r)) + _ < _
    omega
  | _ => simp at hl

theorem onceAt_start (hq : QueuedOnce w₀ reviewId reason) (calls : List ResolveCall) :
    OnceAt w₀ reviewId reason calls (endpointPool w₀ reviewId calls)
      (calls.map fun c => .running ⟨c, .start⟩) := by
  have hzero : ∀ f : Thread CallMode → Nat, (∀ c, f (.running ⟨c, .start⟩) = 0) →
      total f (calls.map fun c => .running ⟨c, .start⟩) = 0 := by
    intro f hf
    refine total_eq_zero fun t ht => ?_
    obtain ⟨c, _, rfl⟩ := List.mem_map.mp ht
    exact hf c
  refine ⟨⟨rfl, ?_⟩, ?_, ?_, .inl ⟨hq, hzero _ fun _ => rfl⟩, [], by simp [endpointPool], ?_, by simp⟩
  · refine List.forall₂_map_left_iff.mpr (List.forall₂_map_right_iff.mpr ?_)
    exact List.forall₂_same.mpr fun c _ => .running (program_follows reviewId c)
  · rw [List.map_map]
    exact List.map_id' calls
  · intro t ht
    obtain ⟨c, _, rfl⟩ := List.mem_map.mp ht
    exact ⟨_, rfl, by simp⟩
  · exact (hzero _ fun _ => rfl).symm

theorem onceAt_run (hq : QueuedOnce w₀ reviewId reason)
    (hrun : Relation.ReflTransGen CallStep (endpointPool w₀ reviewId calls) s) :
    ∃ ts, OnceAt w₀ reviewId reason calls s ts := by
  induction hrun with
  | refl => exact ⟨_, onceAt_start hq calls⟩
  | tail _ hstep ih =>
    obtain ⟨ts, h⟩ := ih
    obtain ⟨ts', h', _⟩ := h.step hstep
    exact ⟨ts', h'⟩

theorem OnceAt.acc (h : OnceAt w₀ reviewId reason calls s ts) : Acc (fun s' s => CallStep s s') s := by
  generalize hn : total rankOf ts = n
  induction n using Nat.strong_induction_on generalizing s ts with
  | _ n ih =>
    refine ⟨_, fun s' hstep => ?_⟩
    obtain ⟨ts', h', hlt⟩ := h.step hstep
    exact ih _ (hn ▸ hlt) h' rfl

theorem exec_answers {m : CallMode} {c : ReviewCall} (hallow : m.Allows reviewId c)
    (hnote : m.call.note.all pgText = true) (w : ReviewWorld) : ∃ e r w', c.exec e w = some (r, w') := by
  refine ⟨⟨[], .join [], id⟩, ?_⟩
  cases hallow with
  | claim call => exact ⟨_, _, if_pos hnote⟩
  | _ => exact ⟨_, _, rfl⟩

theorem OnceAt.returned (h : OnceAt w₀ reviewId reason calls s ts)
    (hnotes : ∀ c ∈ calls, c.note.all pgText = true) (hdone : ∀ s', ¬CallStep s s')
    {t : Thread CallMode} (ht : t ∈ ts) {p : Thread (ReviewProg (Except HttpError ResolveResponse))}
    (hp : p ∈ s.threads) (hat : (callOutline reviewId).At (CallMode.Answers reviewId) p t) :
    ∃ m a, t = .running m ∧ p = .running (.ret a) ∧ m.Answers reviewId a := by
  obtain ⟨hm, I⟩ := h
  obtain ⟨m, rfl, _⟩ := I.alive t ht
  cases hat with
  | @running q _ hf =>
    cases q with
    | ret a => exact ⟨m, a, rfl, rfl, hf⟩
    | call c k =>
      have hcall : m.call ∈ calls := by
        rw [← I.calls]
        exact List.mem_map.mpr ⟨_, ht, rfl⟩
      obtain ⟨e, r, w', hexec⟩ := exec_answers hf.1 (hnotes _ hcall) s.world
      obtain ⟨pre, tail, hs⟩ := List.append_of_mem hp
      have hstep : reviewHost.Step (fun _ => False) ⟨s.world, pre ++ .running (.call c k) :: tail⟩
          (.reply pre.length) ⟨w', pre ++ .running (k r) :: tail⟩ := .reply e hexec
      rw [← hs] at hstep
      exact absurd ⟨_, hstep⟩ (hdone _)

theorem refused_of_unclaimed {ps : List (Thread (ReviewProg (Except HttpError ResolveResponse)))}
    (hat : List.Forall₂ ((callOutline reviewId).At (CallMode.Answers reviewId)) ps ts)
    (hret : ∀ p ∈ ps, ∀ t ∈ ts, (callOutline reviewId).At (CallMode.Answers reviewId) p t →
      ∃ m a, t = .running m ∧ p = .running (.ret a) ∧ m.Answers reviewId a)
    (halive : ∀ t ∈ ts, ∃ m, t = .running m ∧ m.stage ≠ .missing) (hnone : total claimsRow ts = 0) :
    ps = (ts.map callOf).map (fun _ => .running (.ret (.error alreadyResolved))) ∧ total hasPosted ts = 0 := by
  induction hat with
  | nil => exact ⟨rfl, rfl⟩
  | @cons p t ps ts hpt _ ih =>
    obtain ⟨m, a, rfl, rfl, hans⟩ := hret p (by simp) t (by simp) hpt
    obtain ⟨m', hm', hmiss⟩ := halive _ List.mem_cons_self
    obtain rfl := Thread.running.inj hm'
    have hsum : total claimsRow (.running m :: ts) = claimsRow (.running m) + total claimsRow ts := by
      simp [total]
    rw [hsum] at hnone
    obtain ⟨hps, hposts⟩ := ih (fun p hp t ht => hret p (by simp [hp]) t (by simp [ht]))
      (fun t ht => halive t (by simp [ht])) (by omega)
    cases hans with
    | served c gid => simp [claimsRow, CallStage.claims] at hnone
    | missing c => exact absurd rfl hmiss
    | refused c =>
      refine ⟨by rw [hps]; rfl, ?_⟩
      rw [total] at hposts
      rw [total, List.map_cons, List.sum_cons, hposts]
      rfl

end

/-- Of all the calls, `c` was served and the others were told that they came too late. -/
def ResolvedBy (w₀ : ReviewWorld) (reviewId : Nat) (reason : Text) (before : List ResolveCall) (c : ResolveCall)
    (after : List ResolveCall) (s : CallPool) : Prop :=
  ∃ gid posts, s.threads = before.map (fun _ => .running (.ret (.error alreadyResolved))) ++
      .running (.ret (.ok ⟨reviewId, c.status, gid⟩)) ::
        after.map (fun _ => .running (.ret (.error alreadyResolved))) ∧
    reviewRows s.world reviewId = [⟨reviewId, reason, c.status, c.note⟩] ∧
    s.world.github = w₀.github ++ posts ∧ posts.length = c.posts ∧ ∀ p ∈ posts, p.reviewId = reviewId

theorem OnceAt.resolvedBy {w₀ : ReviewWorld} {reviewId : Nat} {reason : Text} {calls : List ResolveCall}
    {s : CallPool} {ts : List (Thread CallMode)} (h : OnceAt w₀ reviewId reason calls s ts) (hne : calls ≠ [])
    (hnotes : ∀ c ∈ calls, c.note.all pgText = true) (hdone : ∀ s', ¬CallStep s s') :
    ∃ before c after, calls = before ++ c :: after ∧ ResolvedBy w₀ reviewId reason before c after s := by
  have I := h.2
  have hret : ∀ p ∈ s.threads, ∀ t ∈ ts, (callOutline reviewId).At (CallMode.Answers reviewId) p t →
      ∃ m a, t = .running m ∧ p = .running (.ret a) ∧ m.Answers reviewId a :=
    fun p hp t ht hat => h.returned hnotes hdone ht hp hat
  rcases I.row with ⟨_, hidle⟩ | ⟨c, hrows, htotal, howner⟩
  -- somebody was there, and nobody moved
  · obtain ⟨t, ht⟩ := List.exists_mem_of_ne_nil ts (by
      rintro rfl
      exact hne I.calls.symm)
    obtain ⟨p, hp, hat⟩ := h.1.mem ht
    obtain ⟨m, a, rfl, _, hans⟩ := hret p hp t ht hat
    obtain ⟨pre, tail, rfl⟩ := List.append_of_mem ht
    rw [total_middle] at hidle
    cases hans <;> simp [hasMoved] at hidle
  · obtain ⟨t, ht, hclaim⟩ := exists_of_total_pos (htotal.symm ▸ Nat.one_pos)
    obtain ⟨pre, tail, rfl⟩ := List.append_of_mem ht
    rw [total_middle] at htotal
    obtain ⟨ps, p, qs, hs, _, hpre, hat, htail⟩ := forall₂_middle_split h.1.threads.flip
    have hmem : p ∈ s.threads := by simp [hs]
    obtain ⟨m, a, rfl, rfl, hans⟩ := hret p hmem _ ht hat
    have hcall : m.call = c := howner _ ht (by omega)
    obtain ⟨hps, hpre₀⟩ := refused_of_unclaimed hpre.flip
      (fun p hp t ht => hret p (by simp [hs, hp]) t (by simp [ht]))
      (fun t ht => I.alive t (by simp [ht])) (by omega)
    obtain ⟨hqs, htail₀⟩ := refused_of_unclaimed htail.flip
      (fun p hp t ht => hret p (by simp [hs, hp]) t (by simp [ht]))
      (fun t ht => I.alive t (by simp [ht])) (by omega)
    obtain ⟨posts, hgithub, hlen, hids⟩ := I.posts
    rw [total_middle, hpre₀, htail₀] at hlen
    cases hans with
    | served call gid =>
      obtain rfl : call = c := hcall
      refine ⟨pre.map callOf, call, tail.map callOf, ?_, gid, posts, ?_, hrows, hgithub, ?_, hids⟩
      · rw [← I.calls]
        simp [callOf]
      · rw [hs, hps, hqs]
      · simpa [hasPosted] using hlen
    | refused call => simp [claimsRow, CallStage.claims] at hclaim
    | missing call => simp [claimsRow, CallStage.claims] at hclaim

/-- Of any number of approves and rejects of a review that waits, exactly one
claims the row, the others are answered 409, and only an approve posts. No run
goes on for ever. -/
theorem resolved_exactly_once {w₀ : ReviewWorld} {reviewId : Nat} {reason : Text} {calls : List ResolveCall}
    (hqueued : QueuedOnce w₀ reviewId reason) (hne : calls ≠ [])
    (hnotes : ∀ c ∈ calls, c.note.all pgText = true) :
    Acc (fun s' s => CallStep s s') (endpointPool w₀ reviewId calls) ∧
      ∀ s, Relation.ReflTransGen CallStep (endpointPool w₀ reviewId calls) s → (∀ s', ¬CallStep s s') →
        ∃ before c after, calls = before ++ c :: after ∧ ResolvedBy w₀ reviewId reason before c after s := by
  refine ⟨(onceAt_start hqueued calls).acc, fun s hrun hdone => ?_⟩
  obtain ⟨ts, h⟩ := onceAt_run hqueued hrun
  exact h.resolvedBy hne hnotes hdone

/-! An approve and a reject of an escalated review, the reject being faster. -/

def hasReturned : Thread (ReviewProg (Except HttpError ResolveResponse)) → Bool
  | .running (.ret _) => true
  | _ => false

theorem no_callStep {s s' : CallPool} (h : s.threads.all hasReturned = true) : ¬CallStep s s' := by
  rintro ⟨i, hstep⟩
  obtain ⟨c, k, _, _, ht, _, _⟩ := hstep.reply_inv
  have hh := List.all_eq_true.mp h _ (List.mem_of_getElem? ht)
  exact absurd hh (by simp [hasReturned])

theorem callSteps_of_play {replies : List Nat} {e : ReviewChoice} {s s' : CallPool}
    (h : reviewHost.play s (replies.map fun i => .reply i e) = some s') :
    Relation.ReflTransGen CallStep s s' := by
  induction replies generalizing s with
  | nil =>
    obtain rfl := Option.some.inj h
    exact .refl
  | cons i replies ih =>
    simp only [Host.play, List.map_cons, List.foldlM_cons, Option.bind_eq_bind] at h
    obtain ⟨s₁, hs₁, hrest⟩ := Option.bind_eq_some_iff.mp h
    have hstep : reviewHost.Step (fun _ => False) s (.reply i) s₁ := Host.step_of_move (by simp) hs₁
    exact .head ⟨i, hstep⟩ (ih hrest)

def twoCalls : List ResolveCall := [.approve none, .reject (some "style only".toList)]

theorem resolved_exactly_once_rejected : ∃ s,
    Relation.ReflTransGen CallStep (endpointPool escalatedWorld 0 twoCalls) s ∧
      ∃ before c after, twoCalls = before ++ c :: after ∧
        ResolvedBy escalatedWorld 0 "1 CRITICAL finding(s): SQL injection".toList before c after s := by
  have hplay : ∃ s ∈ reviewHost.play (endpointPool escalatedWorld 0 twoCalls)
      ([1, 0].map fun i => .reply i ⟨[], .join [], id⟩), s.threads.all hasReturned = true := by
    decide +kernel
  obtain ⟨s, hs, hret⟩ := hplay
  have hrun := callSteps_of_play hs
  have hqueued : QueuedOnce escalatedWorld 0 "1 CRITICAL finding(s): SQL injection".toList := by
    unfold QueuedOnce
    decide
  exact ⟨s, hrun, (resolved_exactly_once hqueued (by decide) (by decide)).2 s hrun fun _ => no_callStep hret⟩

end AiPrReview
