import AiPrReview.Webhook

/-! The requests for one delivery: when an answer of 200 means that a job is on
the queue. -/

namespace AiPrReview

def singleJob : WebhookEvent → Prop
  | .pullRequest .. => True
  | .push .. => True
  | _ => False

def requestFor (d : Text) (p : QueueProg Response) : Prop :=
  ∃ event, singleJob event ∧ p = receiveWebhook d event

theorem buildEnqueueOps_single {d : Text} {event : WebhookEvent} (h : singleJob event) :
    buildEnqueueOps d event = none ∨
      ∃ op : EnqueueOp, op.job.deliveryId = d ∧ buildEnqueueOps d event = some [op] := by
  cases event with
  | pullRequest action number repo => exact .inr ⟨_, rfl, rfl⟩
  | push before after repo commits =>
    simp only [buildEnqueueOps]
    split_ifs
    · exact .inl rfl
    · exact .inr ⟨_, rfl, rfl⟩
  | installation => exact absurd h id
  | installationRepositories => exact absurd h id

/-! Where a request stands: what it has done about the claim. -/

inductive ClaimMode : Type where
  | asking
  | told
  | owner
  | put
  | failing
  | deleting
  | deleted
  | answered (r : Response)

inductive ClaimMode.Allows (d : Text) : ClaimMode → QueueCall → Prop
  | ask : Allows d .asking (.beforeCall (.setNx d))
  | setNx : Allows d .asking (.command (.setNx d))
  | unasked : Allows d .asking (.onFailure (.setNx d))
  | told : Allows d .told (.onSuccess (.setNx d))
  | owns : Allows d .owner (.onSuccess (.setNx d))
  | pending (repo : Text) : Allows d .owner (.markPending repo)
  | start (job : Job) : Allows d .owner (.beforeCall (.enqueue job))
  | enqueue (job : Job) : job.deliveryId = d → Allows d .owner (.command (.enqueue job))
  | failed (job : Job) : Allows d .owner (.onFailure (.enqueue job))
  | put (job : Job) : Allows d .put (.onSuccess (.enqueue job))
  | unclaim : Allows d .failing (.beforeCall (.delete d))
  | delete : Allows d .deleting (.command (.delete d))
  | kept : Allows d .deleting (.onFailure (.delete d))
  | deleted : Allows d .deleted (.onSuccess (.delete d))

def ClaimMode.next : ClaimMode → (c : QueueCall) → c.Reply → ClaimMode
  | .asking, .beforeCall _, admitted => bif (admitted : Bool) then .asking else .answered .unavailable
  | .asking, .command _, reply => (reply : Option Bool).elim .asking fun isNew => bif isNew then .owner else .told
  | .asking, _, _ => .answered .unavailable
  | .told, _, _ => .answered .duplicate
  | .owner, .markPending _, reply => if (reply : Option Unit).isSome then .owner else .failing
  | .owner, .beforeCall _, admitted => bif (admitted : Bool) then .owner else .failing
  | .owner, .command _, reply => if (reply : Option Bool).isSome then .put else .owner
  | .owner, .onFailure _, _ => .failing
  | .owner, .onSuccess _, _ => .owner
  | .put, _, _ => .answered .accepted
  | .failing, .beforeCall _, admitted => bif (admitted : Bool) then .deleting else .answered .unavailable
  | .deleting, .command _, reply => if (reply : Option Bool).isSome then .deleted else .deleting
  | _, _, _ => .answered .unavailable

def claimOutline (d : Text) : Outline QueueCall.Reply ClaimMode := ⟨ClaimMode.Allows d, ClaimMode.next⟩

theorem enqueueJob_claims {d : Text} {job : Job} (hj : job.deliveryId = d) :
    (enqueueJob job).Follows (claimOutline d)
      (fun m r => (∃ b, r = some b ∧ m = .answered .accepted) ∨ (r = none ∧ m = .failing)) .owner := by
  refine (guarded_follows (O := claimOutline d) .owner (fun _ => .put)
    (fun _ => .answered .accepted) (.start job) rfl rfl (.enqueue job hj) rfl (fun _ => rfl)
    (.failed job) rfl (fun _ => .put job) (fun _ => rfl)).mono fun m r h => ?_
  rcases h with h | ⟨hr, hm | hm⟩
  · exact .inl h
  · exact .inr ⟨hr, hm⟩
  · exact .inr ⟨hr, hm⟩

theorem opRun_claims {d : Text} {op : EnqueueOp} (hj : op.job.deliveryId = d) :
    op.run.Follows (claimOutline d)
      (fun m r => (∃ b, r = some b ∧ m = .answered .accepted) ∨ (r = none ∧ m = .failing)) .owner := by
  unfold EnqueueOp.run
  cases op.pendingRepo with
  | none => exact enqueueJob_claims hj
  | some repo =>
    refine ⟨.pending repo, fun r => ?_⟩
    cases r with
    | none => exact .inr ⟨rfl, rfl⟩
    | some u => exact enqueueJob_claims hj

theorem unclaim_claims (d : Text) :
    (unclaim d).Follows (claimOutline d) (fun m _ => m = .answered .unavailable) .failing := by
  refine (guarded_follows (O := claimOutline d) .deleting (fun _ => .deleted)
    (fun _ => .answered .unavailable) .unclaim rfl rfl .delete rfl (fun _ => rfl) .kept rfl
    (fun _ => .deleted) (fun _ => rfl)).mono fun m r h => ?_
  rcases h with ⟨b, _, hm⟩ | ⟨_, hm | hm⟩
  · exact hm
  · exact hm
  · exact hm

theorem afterClaim_claims {d : Text} {op : EnqueueOp} (hj : op.job.deliveryId = d) :
    (afterClaim d [op]).Follows (claimOutline d) (fun m r => m = .answered r) .owner := by
  have hops : (runOps [op]).Follows (claimOutline d)
      (fun m r => (r = some () ∧ m = .answered .accepted) ∨ (r = none ∧ m = .failing)) .owner := by
    refine (opRun_claims hj).bind fun m r h => ?_
    rcases h with ⟨b, rfl, rfl⟩ | ⟨rfl, rfl⟩
    · exact .inl ⟨rfl, rfl⟩
    · exact .inr ⟨rfl, rfl⟩
  refine hops.bind fun m r h => ?_
  rcases h with ⟨rfl, rfl⟩ | ⟨rfl, rfl⟩
  · exact rfl
  · exact (unclaim_claims d).bind fun m' _ hm => hm

theorem receiveWebhook_claims {d : Text} {p : QueueProg Response} (h : requestFor d p) :
    ∃ m, (m = .asking ∨ m = .answered .ignored) ∧
      p.Follows (claimOutline d) (fun m r => m = .answered r) m := by
  obtain ⟨event, hsingle, rfl⟩ := h
  rcases buildEnqueueOps_single hsingle with hnone | ⟨op, hj, hsome⟩
  · refine ⟨.answered .ignored, .inr rfl, ?_⟩
    rw [receiveWebhook, hnone]
    exact rfl
  · refine ⟨.asking, .inl rfl, ?_⟩
    rw [receiveWebhook, hsome]
    have hclaim : (markSeen d).Follows (claimOutline d)
        (fun m r => (∃ b, r = some b ∧ m = bif b then .owner else .answered .duplicate) ∨
          (r = none ∧ m = .answered .unavailable)) .asking := by
      refine (guarded_follows (O := claimOutline d) .asking
        (fun b => bif b then .owner else .told) (fun b => bif b then .owner else .answered .duplicate)
        .ask rfl rfl .setNx rfl (fun _ => rfl) .unasked rfl
        (fun b => ?_) (fun b => by cases b <;> rfl)).mono fun m r h => ?_
      · cases b with
        | false => exact .told
        | true => exact .owns
      · rcases h with h | ⟨hr, hm | hm⟩
        · exact .inl h
        · exact .inr ⟨hr, hm⟩
        · exact .inr ⟨hr, hm⟩
    refine hclaim.bind fun m r h => ?_
    rcases h with ⟨b, rfl, rfl⟩ | ⟨rfl, rfl⟩
    · cases b with
      | false => exact rfl
      | true => exact afterClaim_claims hj
    · exact rfl

/-- Where a request stands. `holding` has claimed the delivery, `found` was
told that it is claimed, `failing` is about to roll its claim back. -/
inductive RequestMode : Type where
  | claiming
  | found
  | holding
  | put
  | failing
  | rollback
  | answered (r : Response)

inductive RequestMode.Allows (d : Text) : RequestMode → QueueCall → Prop
  | claim : Allows d .claiming (.beforeCall (.setNx d))
  | setNx : Allows d .claiming (.command (.setNx d))
  | unclaimed : Allows d .claiming (.onFailure (.setNx d))
  | found : Allows d .found (.onSuccess (.setNx d))
  | claimed : Allows d .holding (.onSuccess (.setNx d))
  | pending (repo : Text) : Allows d .holding (.markPending repo)
  | start (job : Job) : Allows d .holding (.beforeCall (.enqueue job))
  | enqueue (job : Job) : job.deliveryId = d → Allows d .holding (.command (.enqueue job))
  | failed (job : Job) : Allows d .holding (.onFailure (.enqueue job))
  | put (job : Job) : Allows d .put (.onSuccess (.enqueue job))
  | unclaim : Allows d .failing (.beforeCall (.delete d))
  | delete : Allows d .rollback (.command (.delete d))
  | deleted : Allows d .rollback (.onSuccess (.delete d))
  | kept : Allows d .rollback (.onFailure (.delete d))

def RequestMode.next : RequestMode → (c : QueueCall) → c.Reply → RequestMode
  | .claiming, .beforeCall _, admitted => bif (admitted : Bool) then .claiming else .answered .unavailable
  | .claiming, .command _, reply =>
    match (reply : Option Bool) with
    | none => .claiming
    | some isNew => if isNew then .holding else .found
  | .claiming, _, _ => .answered .unavailable
  | .found, _, _ => .answered .duplicate
  | .holding, .markPending _, reply => if (reply : Option Unit).isSome then .holding else .failing
  | .holding, .beforeCall _, admitted => bif (admitted : Bool) then .holding else .failing
  | .holding, .command _, reply => if (reply : Option Bool).isSome then .put else .holding
  | .holding, .onFailure _, _ => .failing
  | .holding, .onSuccess _, _ => .holding
  | .put, _, _ => .answered .accepted
  | .failing, .beforeCall _, admitted => bif (admitted : Bool) then .rollback else .answered .unavailable
  | .rollback, .command _, _ => .rollback
  | _, _, _ => .answered .unavailable

def requestOutline (d : Text) : Outline QueueCall.Reply RequestMode := ⟨RequestMode.Allows d, RequestMode.next⟩

def ClaimMode.coarse : ClaimMode → RequestMode
  | .asking => .claiming
  | .told => .found
  | .owner => .holding
  | .put => .put
  | .failing => .failing
  | .deleting | .deleted => .rollback
  | .answered r => .answered r

theorem ClaimMode.coarse_allows {d : Text} {m : ClaimMode} {c : QueueCall} (h : m.Allows d c) :
    m.coarse.Allows d c := by
  cases h with
  | ask => exact .claim
  | setNx => exact .setNx
  | unasked => exact .unclaimed
  | told => exact .found
  | owns => exact .claimed
  | pending repo => exact .pending repo
  | start job => exact .start job
  | enqueue job hj => exact .enqueue job hj
  | failed job => exact .failed job
  | put job => exact .put job
  | unclaim => exact .unclaim
  | delete => exact .delete
  | kept => exact .kept
  | deleted => exact .deleted

theorem ClaimMode.coarse_next {d : Text} {m : ClaimMode} {c : QueueCall} (h : m.Allows d c) (r : c.Reply) :
    (m.next c r).coarse = m.coarse.next c r := by
  cases h with
  | ask => cases r <;> rfl
  | setNx =>
    cases r with
    | none => rfl
    | some isNew => cases isNew <;> rfl
  | pending repo => cases r <;> rfl
  | start job => cases r <;> rfl
  | enqueue job hj => cases r <;> rfl
  | unclaim => cases r <;> rfl
  | delete => cases r <;> rfl
  | _ => rfl

theorem receiveWebhook_follows {d : Text} {p : QueueProg Response} (h : requestFor d p) :
    ∃ m, (m = .claiming ∨ m = .answered .ignored) ∧
      p.Follows (requestOutline d) (fun m r => m = .answered r) m := by
  obtain ⟨m, hm, hf⟩ := receiveWebhook_claims h
  refine ⟨m.coarse, ?_, ?_⟩
  · rcases hm with rfl | rfl
    · exact .inl rfl
    · exact .inr rfl
  · have hcoarse : p.Follows (requestOutline d) (fun m' r => ∃ n, m' = ClaimMode.coarse n ∧ n = .answered r) m.coarse :=
      hf.map (fun _ _ => ClaimMode.coarse_allows) (fun _ _ r hallow => ClaimMode.coarse_next hallow r)
    refine hcoarse.mono fun m' r hm' => ?_
    obtain ⟨n, rfl, rfl⟩ := hm'
    rfl

/-! The promise behind an answer of 200. -/

def JobPut (d : Text) (w : QueueWorld) : Prop := ∃ job ∈ w.jobs, job.deliveryId = d

/-- The request has claimed the delivery, and has neither put its job nor begun
to roll back: it may still get to the rollback, with no other claim on the way. -/
def Holder (d : Text) (t : Thread (QueueProg Response)) : Prop :=
  ∃ p, t = .running p ∧ p.MayReach (· = .beforeCall (.delete d)) (· = .command (.setNx d))

/-- No process dies. A request that was told that the delivery is claimed goes on
to its answer while a job was put, or while there is a holder. A rollback begins
only if a job was put, or nobody was answered that the delivery is a duplicate,
or there is another holder. -/
def KeepsPromise (d : Text) (s : Pool QueueWorld (QueueProg Response)) (l : Label) : Prop :=
  (∀ i, l ≠ .stop i ∧ l ≠ .lose i) ∧
  ∀ i, l = .reply i →
    (∀ k, s.threads[i]? = some (.running (.call (.onSuccess (.setNx d)) k)) → k () = .ret .duplicate →
      JobPut d s.world ∨ ∃ t ∈ s.threads, Holder d t) ∧
    (∀ k, s.threads[i]? = some (.running (.call (.beforeCall (.delete d)) k)) →
      JobPut d s.world ∨ .running (.ret .duplicate) ∉ s.threads ∨
        ∃ (j : Nat) (t : Thread (QueueProg Response)), j ≠ i ∧ s.threads[j]? = some t ∧ Holder d t)

def RequestMode.Holds (m : RequestMode) : Prop := m = .holding ∨ m = .failing

theorem RequestMode.not_holds_answered {r : Response} : ¬(answered r).Holds := by
  rintro (h | h) <;> cases h

theorem RequestMode.holds_of_next {d : Text} {m : RequestMode} {c : QueueCall} {r : c.Reply}
    (ha : m.Allows d c) (hc : c ≠ .command (.setNx d)) (h : (m.next c r).Holds) : m.Holds := by
  cases ha with
  | claim =>
    cases r with
    | false => exact absurd h not_holds_answered
    | true => rcases h with h | h <;> cases h
  | setNx => exact absurd rfl hc
  | unclaimed => exact absurd h not_holds_answered
  | found => exact absurd h not_holds_answered
  | put => exact absurd h not_holds_answered
  | unclaim => exact .inr rfl
  | delete => rcases h with h | h <;> cases h
  | deleted => exact absurd h not_holds_answered
  | kept => exact absurd h not_holds_answered
  | _ => exact .inl rfl

theorem holds_of_mayReach {d : Text} {p : QueueProg Response} {m : RequestMode}
    {post : RequestMode → Response → Prop}
    (h : p.MayReach (· = .beforeCall (.delete d)) (· = .command (.setNx d)))
    (hf : p.Follows (requestOutline d) post m) : m.Holds := by
  induction h generalizing m with
  | here hc =>
    subst hc
    cases hf.1 with
    | unclaim => exact .inr rfl
  | later r hstop _ ih => exact RequestMode.holds_of_next hf.1 hstop (ih (hf.2 r))

structure PromiseInv (d : Text) (w : QueueWorld) (ts : List (Thread RequestMode)) : Prop where
  kept : ∀ m, .running m ∈ ts → m = .put ∨ m = .answered .accepted → JobPut d w
  promised : .running (.answered .duplicate) ∈ ts → JobPut d w ∨ ∃ m, .running m ∈ ts ∧ m.Holds

theorem jobPut_of_run {d : Text} {cmd : RedisCommand} {w : QueueWorld} (hj : JobPut d w) :
    JobPut d (cmd.run w).2 := by
  obtain ⟨job, hm, hd⟩ := hj
  cases cmd with
  | setNx d' =>
    simp only [RedisCommand.run]
    split_ifs
    · exact ⟨job, hm, hd⟩
    · exact ⟨job, hm, hd⟩
  | delete d' => exact ⟨job, hm, hd⟩
  | enqueue job' => exact ⟨job, List.mem_append_left _ hm, hd⟩

theorem jobPut_of_exec {d : Text} {c : QueueCall} {e : Fate} {w w' : QueueWorld} {r : c.Reply}
    (h : c.exec e w = some (r, w')) (hj : JobPut d w) : JobPut d w' := by
  cases c <;> cases e <;> simp only [QueueCall.exec, Option.some.injEq, reduceCtorEq] at h
  all_goals obtain ⟨_, rfl⟩ := h
  all_goals first
    | exact jobPut_of_run hj
    | exact hj

theorem jobPut_of_enqueue {d : Text} {job : Job} {e : Fate} {w w' : QueueWorld} {b : Bool}
    (hd : job.deliveryId = d)
    (h : QueueCall.exec (.command (.enqueue job)) e w = some ((some b : Option Bool), w')) : JobPut d w' := by
  have hput : JobPut d (RedisCommand.run (.enqueue job) w).2 := ⟨job, by simp [RedisCommand.run], hd⟩
  cases e with
  | ok =>
    have hw : (RedisCommand.run (.enqueue job) w).2 = w' := congrArg Prod.snd (Option.some.inj h)
    rw [← hw]
    exact hput
  | fails => exact absurd (congrArg Prod.fst (Option.some.inj h)) (by simp)
  | lost => exact absurd (congrArg Prod.fst (Option.some.inj h)) (by simp)

theorem PromiseInv.move {d : Text} {w w' : QueueWorld} {pre post : List (Thread RequestMode)}
    {m m' : RequestMode} (I : PromiseInv d w (pre ++ .running m :: post)) (hw : JobPut d w → JobPut d w')
    (hput : m' = .put ∨ m' = .answered .accepted → JobPut d w')
    (hdup : m' = .answered .duplicate → JobPut d w ∨ ∃ n, .running n ∈ pre ++ post ∧ n.Holds)
    (hhold : m.Holds → m'.Holds ∨ JobPut d w' ∨ .running (.answered .duplicate) ∉ pre ++ post ∨
      ∃ n, .running n ∈ pre ++ post ∧ n.Holds) :
    PromiseInv d w' (pre ++ .running m' :: post) := by
  have hsub : ∀ t, t ∈ pre ++ post → ∀ n, t ∈ pre ++ Thread.running n :: post := by
    intro t ht n
    rcases List.mem_append.mp ht with ht | ht
    · exact List.mem_append_left _ ht
    · exact List.mem_append_right _ (List.mem_cons_of_mem _ ht)
  have hcases : ∀ {n n'}, Thread.running n ∈ pre ++ Thread.running n' :: post →
      n = n' ∨ Thread.running n ∈ pre ++ post := by
    intro n n' hn
    rcases List.mem_append.mp hn with hn | hn
    · exact .inr (List.mem_append_left _ hn)
    · rcases List.mem_cons.mp hn with hn | hn
      · exact .inl (Thread.running.inj hn)
      · exact .inr (List.mem_append_right _ hn)
  constructor
  · intro n hn hk
    rcases hcases hn with rfl | hn
    · exact hput hk
    · exact hw (I.kept n (hsub _ hn m) hk)
  · intro hd
    have hother : (∃ n, .running n ∈ pre ++ post ∧ n.Holds) →
        JobPut d w' ∨ ∃ n, .running n ∈ pre ++ Thread.running m' :: post ∧ n.Holds := by
      rintro ⟨n, hn, hh⟩
      exact .inr ⟨n, hsub _ hn m', hh⟩
    rcases hcases hd with he | hd
    · rcases hdup he.symm with hj | hn
      · exact .inl (hw hj)
      · exact hother hn
    · rcases I.promised (hsub _ hd m) with hj | ⟨n, hn, hh⟩
      · exact .inl (hw hj)
      · rcases hcases hn with rfl | hn
        · rcases hhold hh with hh' | hj | hno | hn
          · exact .inr ⟨m', by simp, hh'⟩
          · exact .inl hj
          · exact absurd hd hno
          · exact hother hn
        · exact hother ⟨n, hn, hh⟩

section

variable {d : Text} {s : Pool QueueWorld (QueueProg Response)} {w : QueueWorld}
  {pre post : List (Thread RequestMode)} {m : RequestMode}

theorem exists_holds_of_holder
    (hm : (requestOutline d).Matches (fun m r => m = .answered r) s ⟨w, pre ++ .running m :: post⟩)
    {j : Nat} {t : Thread (QueueProg Response)} (hj : s.threads[j]? = some t) (ht : Holder d t)
    (hne : j ≠ pre.length ∨ ¬m.Holds) : ∃ n, .running n ∈ pre ++ post ∧ n.Holds := by
  obtain ⟨t', hj', hat⟩ := hm.getElem? hj
  obtain ⟨p, rfl, hreach⟩ := ht
  cases hat with
  | @running _ n hf =>
    have hn : n.Holds := holds_of_mayReach hreach hf
    refine ⟨n, ?_, hn⟩
    rcases lt_trichotomy j pre.length with hlt | rfl | hgt
    · rw [List.getElem?_append_left hlt] at hj'
      exact List.mem_append_left _ (List.mem_of_getElem? hj')
    · have he : m = n := by simpa using hj'
      rw [he] at hne
      rcases hne with h | h
      · exact absurd rfl h
      · exact absurd hn h
    · obtain ⟨i, hi⟩ : ∃ i, j - pre.length = i + 1 := ⟨j - pre.length - 1, by omega⟩
      rw [List.getElem?_append_right hgt.le, hi, List.getElem?_cons_succ] at hj'
      exact List.mem_append_right _ (List.mem_of_getElem? hj')

theorem promised_of_found
    (hm : (requestOutline d).Matches (fun m r => m = .answered r) s ⟨w, pre ++ .running .found :: post⟩)
    (hc : KeepsPromise d s (.reply pre.length)) :
    JobPut d w ∨ ∃ n, .running n ∈ pre ++ post ∧ n.Holds := by
  obtain ⟨p, hp, hf⟩ := hm.running_at
  cases p with
  | ret r => cases hf
  | call c k =>
    obtain ⟨ha, hk⟩ := hf
    cases ha with
    | found =>
      have hret : k () = .ret .duplicate := by
        have hfk := hk ()
        cases hkp : k () with
        | ret r =>
          rw [hkp] at hfk
          have he : RequestMode.answered .duplicate = .answered r := hfk
          rw [← RequestMode.answered.inj he]
        | call c' k' =>
          rw [hkp] at hfk
          cases hfk.1
      rcases (hc.2 _ rfl).1 k hp hret with hj | ⟨t, ht, hh⟩
      · left
        rw [hm.world] at hj
        exact hj
      · right
        obtain ⟨j, hj⟩ := List.getElem?_of_mem ht
        exact exists_holds_of_holder hm hj hh (.inr (by rintro (h | h) <;> cases h))

theorem promised_of_failing
    (hm : (requestOutline d).Matches (fun m r => m = .answered r) s ⟨w, pre ++ .running .failing :: post⟩)
    (hc : KeepsPromise d s (.reply pre.length)) :
    JobPut d w ∨ .running (.answered .duplicate) ∉ pre ++ post ∨
      ∃ n, .running n ∈ pre ++ post ∧ n.Holds := by
  obtain ⟨p, hp, hf⟩ := hm.running_at
  cases p with
  | ret r => cases hf
  | call c k =>
    cases hf.1 with
    | unclaim =>
      rcases (hc.2 _ rfl).2 k hp with hj | hno | ⟨j, t, hne, hj, hh⟩
      · left
        rw [hm.world] at hj
        exact hj
      · right; left
        intro hd
        obtain ⟨t, ht, hat⟩ := hm.mem (t := .running (.answered .duplicate)) (by
          rcases List.mem_append.mp hd with h | h
          · exact List.mem_append_left _ h
          · exact List.mem_append_right _ (List.mem_cons_of_mem _ h))
        cases hat with
        | @running q _ hq =>
          cases q with
          | ret r =>
            have he : RequestMode.answered .duplicate = .answered r := hq
            rw [← RequestMode.answered.inj he] at ht
            exact hno ht
          | call c' k' => cases hq.1
      · exact .inr (.inr (exists_holds_of_holder hm hj hh (.inl hne)))

theorem PromiseInv.concat {ts : List (Thread RequestMode)} (I : PromiseInv d w ts)
    (hm : m = .claiming ∨ m = .answered .ignored) : PromiseInv d w (ts ++ [.running m]) := by
  have hnot : m ≠ .put ∧ m ≠ .answered .accepted ∧ m ≠ .answered .duplicate := by
    rcases hm with rfl | rfl <;> simp
  have hold : ∀ {n}, n ≠ m → Thread.running n ∈ ts ++ [Thread.running m] → Thread.running n ∈ ts := by
    intro n hn hmem
    rcases List.mem_append.mp hmem with h | h
    · exact h
    · exact absurd (Thread.running.inj (List.mem_singleton.mp h)) hn
  constructor
  · intro n hn hk
    refine I.kept n (hold ?_ hn) hk
    rintro rfl
    rcases hk with hk | hk
    · exact hnot.1 hk
    · exact hnot.2.1 hk
  · intro hd
    rcases I.promised (hold hnot.2.2.symm hd) with hj | ⟨n, hn, hh⟩
    · exact .inl hj
    · exact .inr ⟨n, List.mem_append_left _ hn, hh⟩

theorem promiseInv_step {a a' : Pool QueueWorld RequestMode} {l : Label}
    (hm : (requestOutline d).Matches (fun m r => m = .answered r) s a) (hc : KeepsPromise d s l)
    (hs : (requestOutline d).Step queueHost (fun m => m = .claiming ∨ m = .answered .ignored) a l a')
    (I : PromiseInv d a.world a.threads) : PromiseInv d a'.world a'.threads := by
  cases hs with
  | @reply pre post m c w w' r e ha he =>
    have hw : JobPut d w → JobPut d w' := jobPut_of_exec he
    have hmem : Thread.running m ∈ pre ++ Thread.running m :: post := by simp
    refine I.move hw ?_ ?_ ?_
    · -- a job is put by the reply to its command, and then reported
      intro hput
      cases ha with
      | enqueue job hd =>
        cases r with
        | none => rcases hput with h | h <;> cases h
        | some b => exact jobPut_of_enqueue hd he
      | put job => exact hw (I.kept _ hmem (.inl rfl))
      | setNx =>
        cases r with
        | none => rcases hput with h | h <;> cases h
        | some b => cases b <;> rcases hput with h | h <;> cases h
      | claim => cases r <;> rcases hput with h | h <;> cases h
      | pending => cases r <;> rcases hput with h | h <;> cases h
      | start => cases r <;> rcases hput with h | h <;> cases h
      | unclaim => cases r <;> rcases hput with h | h <;> cases h
      | _ => rcases hput with h | h <;> cases h
    · intro hdup
      cases ha with
      | found => exact promised_of_found hm hc
      | setNx =>
        cases r with
        | none => cases hdup
        | some b => cases b <;> cases hdup
      | claim => cases r <;> cases hdup
      | pending => cases r <;> cases hdup
      | start => cases r <;> cases hdup
      | enqueue => cases r <;> cases hdup
      | unclaim => cases r <;> cases hdup
      | _ => cases hdup
    · intro hh
      rcases hh with rfl | rfl
      · cases ha with
        | claimed => exact .inl (.inl rfl)
        | failed job => exact .inl (.inr rfl)
        | pending repo =>
          cases r with
          | none => exact .inl (.inr rfl)
          | some u => exact .inl (.inl rfl)
        | start job =>
          cases r with
          | false => exact .inl (.inr rfl)
          | true => exact .inl (.inl rfl)
        | enqueue job hd =>
          cases r with
          | none => exact .inl (.inl rfl)
          | some b => exact .inr (.inl (jobPut_of_enqueue hd he))
      · rcases promised_of_failing hm hc with hj | hrest
        · exact .inr (.inl (hw hj))
        · exact .inr (.inr hrest)
  | retry e ha hr he => exact absurd hr Bool.false_ne_true
  | @stop pre post m w => exact absurd rfl (hc.1 pre.length).1
  | @lose pre post m c w w' r e ha he => exact absurd rfl (hc.1 pre.length).2
  | @spawn ts w m hsp => exact I.concat hsp
  | @drift ts w w' hd =>
    have hj : JobPut d w' ↔ JobPut d w := by rw [JobPut, JobPut, hd.2.2]
    constructor
    · intro m hm hk
      exact hj.mpr (I.kept m hm hk)
    · intro hdup
      exact (I.promised hdup).imp hj.mpr id

end

theorem keepsPromise_alone {d : Text} {w : QueueWorld} {c : QueueCall} {k : c.Reply → QueueProg Response}
    (hfound : ∀ k', Prog.call c k = .call (.onSuccess (.setNx d)) k' → k' () ≠ .ret .duplicate)
    (hunclaim : c ≠ .beforeCall (.delete d)) :
    KeepsPromise d ⟨w, [.running (.call c k)]⟩ (.reply 0) := by
  refine ⟨fun i => ⟨nofun, nofun⟩, fun i hi => ?_⟩
  obtain rfl := Label.reply.inj hi
  constructor
  · intro k' hk hret
    have he : Prog.call c k = .call (.onSuccess (.setNx d)) k' := by simpa using hk
    exact absurd hret (hfound k' he)
  · intro k' hk
    have he : Prog.call c k = .call (.beforeCall (.delete d)) k' := by simpa using hk
    cases he
    exact absurd rfl hunclaim

/-- While every step keeps its promise: once no request for the delivery is in
flight, an answer of 200 to one of them means that a job was put. -/
theorem accepted_not_lost {d : Text} {w₀ : QueueWorld} {s : Pool QueueWorld (QueueProg Response)}
    (hrun : queueHost.Run (requestFor d) (KeepsPromise d) ⟨w₀, []⟩ s)
    (hquiet : ∀ t ∈ s.threads, t.next = none)
    (h200 : .running (.ret .accepted) ∈ s.threads ∨ .running (.ret .duplicate) ∈ s.threads) :
    JobPut d s.world := by
  have hstart : (requestOutline d).Matches (fun m r => m = .answered r)
      (⟨w₀, []⟩ : Pool QueueWorld (QueueProg Response)) (⟨w₀, []⟩ : Pool QueueWorld RequestMode) :=
    ⟨rfl, .nil⟩
  have hinit : PromiseInv d w₀ [] := ⟨by simp, by simp⟩
  obtain ⟨a, hm, I⟩ := hrun.outline_invariant (I := fun a => PromiseInv d a.world a.threads)
    (fun p hp => receiveWebhook_follows hp)
    (fun _ _ _ _ _ hm _ hc _ hstep hI => promiseInv_step hm hc hstep hI) hstart hinit
  have hanswered : ∀ r, .running (.ret r) ∈ s.threads → .running (.answered r) ∈ a.threads := by
    intro r hr
    obtain ⟨i, hi⟩ := List.getElem?_of_mem hr
    obtain ⟨t, ht, hat⟩ := hm.getElem? hi
    cases hat with
    | @running _ m hf =>
      have he : m = .answered r := hf
      rw [← he]
      exact List.mem_of_getElem? ht
  rw [hm.world]
  rcases h200 with hr | hr
  · exact I.kept _ (hanswered _ hr) (.inr rfl)
  · rcases I.promised (hanswered _ hr) with hj | ⟨m, hmem, hh⟩
    · exact hj
    · obtain ⟨t, ht, hat⟩ := hm.mem hmem
      cases hat with
      | @running p _ hf =>
        cases p with
        | ret r =>
          have he : m = .answered r := hf
          rw [he] at hh
          exact absurd hh RequestMode.not_holds_answered
        | call c k => exact absurd (hquiet _ ht) (by simp [Thread.next])

theorem accepted_not_lost_alone :
    ∃ s : Pool QueueWorld (QueueProg Response),
      queueHost.Run (requestFor "72d3162e".toList) (KeepsPromise "72d3162e".toList)
        ⟨⟨[], [], [], .fresh, 0⟩, []⟩ s ∧
      .running (.ret .accepted) ∈ s.threads ∧ JobPut "72d3162e".toList s.world := by
  have hrest : queueHost.Run (requestFor "72d3162e".toList) (KeepsPromise "72d3162e".toList)
      ⟨⟨[], [], [], .fresh, 0⟩,
        [.running (receiveWebhook "72d3162e".toList (.pullRequest "opened".toList 7 "acme/api".toList))]⟩
      ⟨⟨["72d3162e".toList], [.review "72d3162e".toList "acme/api".toList 7 "opened".toList], [], .fresh, 0⟩,
        [.running (.ret .accepted)]⟩ := by
    refine Host.Run.head_alone .ok rfl (keepsPromise_alone (by nofun) (by nofun)) ?_
    refine Host.Run.head_alone .ok rfl (keepsPromise_alone (by nofun) (by nofun)) ?_
    refine Host.Run.head_alone .ok rfl (keepsPromise_alone ?_ (by nofun)) ?_
    · intro k' h
      cases h
      exact nofun
    refine Host.Run.head_alone .ok rfl (keepsPromise_alone (by nofun) (by nofun)) ?_
    refine Host.Run.head_alone .ok rfl (keepsPromise_alone (by nofun) (by nofun)) ?_
    refine Host.Run.head_alone .ok rfl (keepsPromise_alone (by nofun) (by nofun)) ?_
    exact .refl
  have hrun : queueHost.Run (requestFor "72d3162e".toList) (KeepsPromise "72d3162e".toList)
      ⟨⟨[], [], [], .fresh, 0⟩, []⟩ _ :=
    .head ⟨.spawn, ⟨fun i => ⟨nofun, nofun⟩, nofun⟩,
      .spawn ⟨.pullRequest "opened".toList 7 "acme/api".toList, trivial, rfl⟩⟩ hrest
  exact ⟨_, hrun, by simp, accepted_not_lost hrun (by simp [Thread.next]) (by simp)⟩

theorem lostClaim_answers_duplicate :
    ∃ s : Pool QueueWorld (QueueProg Response),
      queueHost.Run (requestFor "72d3162e".toList) (fun _ l => ∀ i, l ≠ .stop i ∧ l ≠ .lose i)
        ⟨⟨[], [], [], .fresh, 0⟩, []⟩ s ∧
      (∀ t ∈ s.threads, t.next = none) ∧ .running (.ret .duplicate) ∈ s.threads ∧
      ¬JobPut "72d3162e".toList s.world := by
  have hrest : queueHost.Run (requestFor "72d3162e".toList) (fun _ l => ∀ i, l ≠ .stop i ∧ l ≠ .lose i)
      ⟨⟨[], [], [], .fresh, 0⟩,
        [.running (receiveWebhook "72d3162e".toList (.pullRequest "opened".toList 7 "acme/api".toList))]⟩
      ⟨⟨["72d3162e".toList], [], [], .fresh, 0⟩, [.running (.ret .duplicate)]⟩ := by
    refine Host.Run.head_alone .ok rfl (fun i => ⟨nofun, nofun⟩) ?_
    refine Host.Run.head_alone .lost rfl (fun i => ⟨nofun, nofun⟩) ?_
    refine Host.Run.head_alone .ok rfl (fun i => ⟨nofun, nofun⟩) ?_
    refine Host.Run.head_alone .ok rfl (fun i => ⟨nofun, nofun⟩) ?_
    exact .refl
  have hrun : queueHost.Run (requestFor "72d3162e".toList) (fun _ l => ∀ i, l ≠ .stop i ∧ l ≠ .lose i)
      ⟨⟨[], [], [], .fresh, 0⟩, []⟩ _ :=
    .head ⟨.spawn, fun i => ⟨nofun, nofun⟩,
      .spawn ⟨.pullRequest "opened".toList 7 "acme/api".toList, trivial, rfl⟩⟩ hrest
  exact ⟨_, hrun, by simp [Thread.next], by simp, by simp [JobPut]⟩

end AiPrReview
