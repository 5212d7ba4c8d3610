import AiPrReview.ReviewPrograms

/-! The executions of `run_review` for one delivery: duplicates, crashes at any
await, and runs that resume. The status read by `upsert_review` is the guard. -/

namespace AiPrReview

/-- Where an execution stands. `auto` remembers that the findings of the graph
will be posted automatically. -/
inductive DeliveryMode : Type where
  | begin
  | fetch
  | graph
  | check (auto : Bool)
  | gate (auto : Bool) (id : Nat)
  | post (id : Nat)
  | mark (id : Nat)
  | queue (id : Nat)
  | write (id : Nat)
  | save
  | done

def postsEntries (entries : List (AgentType × List Finding)) : Bool :=
  let deduped := dedupFindings (specialistNames.map (findingsOf entries)).flatten
  Decision.decide deduped (overallConfidence deduped) defaultConfidenceThreshold == .autoPost

inductive DeliveryMode.Allows (d : Text) : DeliveryMode → ReviewCall → Prop
  | upsert (repo : Text) (prNumber : Int) : Allows d .begin (.upsertReview repo prNumber d)
  | fetch (repo : Text) (prNumber : Int) : Allows d .fetch (.getPullRequestDiff repo prNumber)
  | graph (id : Nat) (diffText : Text) : Allows d .graph (.runGraph id d diffText)
  | check (auto : Bool) (repo : Text) (prNumber : Int) :
      Allows d (.check auto) (.upsertReview repo prNumber d)
  | insert (auto : Bool) (id : Nat) (fs : List Finding) : Allows d (.gate auto id) (.insertFindings id fs)
  | emit (auto : Bool) (id : Nat) (outcome : Decision) (score : ℚ) (n : Nat) (threshold : ℚ) :
      Allows d (.gate auto id) (.emitDecision id outcome score n threshold)
  | post (id : Nat) (repo : Text) (prNumber : Int) (body : Text) (event : ReviewEvent) :
      Allows d (.post id) (.postReview id repo prNumber body event)
  | mark (id gid : Nat) (score : ℚ) : Allows d (.mark id) (.markPosted id gid score)
  | enqueue (id : Nat) (reason : Text) : Allows d (.queue id) (.enqueue id reason)
  | write (id : Nat) (status : ReviewStatus) (score : ℚ) : status ≠ .pending →
      Allows d (.write id) (.setStatus id status score)
  | save : Allows d .save (.saveCheckpoint d)

def DeliveryMode.next : DeliveryMode → (c : ReviewCall) → c.Reply → DeliveryMode
  | .begin, .upsertReview .., row => if ReviewRow.status row = .pending then .fetch else .done
  | .fetch, _, _ => .graph
  | .graph, .runGraph .., reply =>
    match reply with
    | GraphReply.finished _ => .done
    | GraphReply.join entries => .check (postsEntries entries)
  | .check auto, .upsertReview .., row =>
    if ReviewRow.status row = .pending then .gate auto (ReviewRow.id row) else .save
  | .gate auto id, .emitDecision .., _ => if auto then .post id else .queue id
  | .gate auto id, _, _ => .gate auto id
  | .post id, _, _ => .mark id
  | .mark _, _, _ => .save
  | .queue id, _, _ => .write id
  | .write _, _, _ => .save
  | _, _, _ => .done

def deliveryOutline (d : Text) : Outline ReviewCall.Reply DeliveryMode :=
  ⟨DeliveryMode.Allows d, DeliveryMode.next⟩

theorem applyGate_follows_delivery (d repo : Text) (prNumber : Int) (id : Nat) (threshold : ℚ)
    (deduped : List Finding) {auto : Bool}
    (hauto : auto = (Decision.decide deduped (overallConfidence deduped) threshold == .autoPost)) :
    (applyGate repo prNumber id threshold deduped).Follows (deliveryOutline d) (fun m _ => m = .save)
      (.gate auto id) := by
  simp only [applyGate, Prog.perform_bind]
  refine ⟨.emit auto id _ _ _ _, fun _ => ?_⟩
  cases auto with
  | true =>
    have hd : Decision.decide deduped (overallConfidence deduped) threshold = .autoPost := by
      simpa using hauto.symm
    rw [if_pos hd]
    exact ⟨.post id _ _ _ _, fun _ => ⟨.mark id _ _, fun _ => rfl⟩⟩
  | false =>
    have hd : Decision.decide deduped (overallConfidence deduped) threshold ≠ .autoPost := by
      simpa using hauto.symm
    rw [if_neg hd]
    refine ⟨.enqueue id _, fun _ => ⟨.write id _ _ ?_, fun _ => rfl⟩⟩
    split_ifs <;> simp

theorem aggregate_follows_delivery (d repo : Text) (prNumber : Int)
    (entries : List (AgentType × List Finding)) :
    (aggregateNode repo prNumber d defaultConfidenceThreshold entries).Follows (deliveryOutline d)
      (fun m _ => m = .save) (.check (postsEntries entries)) := by
  have hagg : (aggregate repo prNumber d (specialistNames.map (findingsOf entries))
      defaultConfidenceThreshold).Follows (deliveryOutline d) (fun m _ => m = .save)
        (.check (postsEntries entries)) := by
    rw [aggregate_eq]
    refine ⟨.check _ repo prNumber, fun row => ?_⟩
    by_cases hs : ReviewRow.status row = .pending
    · have hnext : (deliveryOutline d).next (.check (postsEntries entries)) (.upsertReview repo prNumber d)
          row = .gate (postsEntries entries) (ReviewRow.id row) := if_pos hs
      simp only [hnext, hs, if_true]
      have hins : (TruthStore.insertFindings (ReviewRow.id row)
          (dedupFindings (specialistNames.map (findingsOf entries)).flatten)).Follows (deliveryOutline d)
            (fun m _ => m = .gate (postsEntries entries) (ReviewRow.id row))
            (.gate (postsEntries entries) (ReviewRow.id row)) := by
        unfold TruthStore.insertFindings
        split_ifs
        · exact rfl
        · exact ⟨.insert _ _ _, fun _ => rfl⟩
      exact hins.bind fun m _ hm => hm ▸ applyGate_follows_delivery d repo prNumber _ _ _ rfl
    · have hnext : (deliveryOutline d).next (.check (postsEntries entries)) (.upsertReview repo prNumber d)
          row = .save := if_neg hs
      simp only [hnext, hs, if_false]
      exact rfl
  exact hagg.bind fun m _ hm => hm

theorem runReview_follows {d : Text} {job : ReviewJob} (hd : job.deliveryId = d) :
    (runReview job).Follows (deliveryOutline d) (fun m _ => m = .done) .begin := by
  subst hd
  simp only [runReview, TruthStore.upsertReview, Prog.perform_bind]
  refine ⟨.upsert job.repoFullName job.prNumber, fun row => ?_⟩
  by_cases hs : ReviewRow.status row = .pending
  · have hnext : (deliveryOutline job.deliveryId).next .begin
        (.upsertReview job.repoFullName job.prNumber job.deliveryId) row = .fetch := if_pos hs
    simp only [hnext, hs, ne_eq, not_true_eq_false, if_false]
    refine ⟨.fetch _ _, fun diffText => ?_⟩
    have hrun : (engineRun job (ReviewRow.id row) diffText).Follows (deliveryOutline job.deliveryId)
        (fun m _ => m = .done) .graph := by
      simp only [engineRun, Prog.perform_bind]
      refine ⟨.graph _ _, fun reply => ?_⟩
      cases reply with
      | finished a => exact rfl
      | join entries =>
        have hnode := aggregate_follows_delivery job.deliveryId job.repoFullName job.prNumber entries
        exact hnode.bind fun m _ hm => hm ▸ ⟨.save, fun _ => rfl⟩
    exact hrun.bind fun m _ hm => hm
  · have hnext : (deliveryOutline job.deliveryId).next .begin
        (.upsertReview job.repoFullName job.prNumber job.deliveryId) row = .done := if_neg hs
    simp only [hnext, hs, ne_eq, not_false_eq_true, if_true]
    exact rfl

/-! What the executions have done together. -/

def actsOn (id : Nat) : Thread DeliveryMode → Nat
  | .running (.gate _ i) | .running (.post i) | .running (.mark i) | .running (.queue i)
  | .running (.write i) => if i = id then 1 else 0
  | _ => 0

def isArmed : Thread DeliveryMode → Nat
  | .running (.gate true _) | .running (.post _) => 1
  | _ => 0

def isUnmarked : Thread DeliveryMode → Nat
  | .running (.mark _) | .stopped (.mark _) | .lost (.mark _) | .lost (.post _) => 1
  | _ => 0

def settled (d : Text) (w : ReviewWorld) : Prop :=
  ∃ r, w.db.review d = some r ∧ r.status ≠ .pending

def keepsReview (d : Text) (w w' : ReviewWorld) : Prop :=
  ∀ r, w.db.review d = some r →
    ∃ r', w'.db.review d = some r' ∧ r'.id = r.id ∧ (r.status ≠ .pending → r'.status ≠ .pending)

theorem settled_of_keeps {d : Text} {w w' : ReviewWorld} (hk : keepsReview d w w')
    (h : settled d w) : settled d w' := by
  obtain ⟨r, hr, hs⟩ := h
  obtain ⟨r', hr', _, hs'⟩ := hk r hr
  exact ⟨r', hr', hs' hs⟩

theorem keepsReview_of_db {d : Text} {w w' : ReviewWorld} (h : ∀ d, w'.db.review d = w.db.review d) :
    keepsReview d w w' :=
  fun r hr => ⟨r, (h d).trans hr, rfl, id⟩

theorem keepsReview_upsert (d : Text) (w : ReviewWorld) (repo : Text) (prNumber : Int) (d' : Text) :
    keepsReview d w ⟨w.db.upsertReview repo prNumber d', w.github⟩ := by
  intro r₀ hr₀
  by_cases hd : d' = d
  · subst hd
    refine ⟨{ r₀ with prNumber }, ?_, rfl, id⟩
    simp [ReviewDb.review_upsertReview_self, hr₀]
  · exact ⟨r₀, (ReviewDb.review_upsertReview_of_ne w.db repo prNumber hd).trans hr₀, rfl, id⟩

/-- Nothing but `setStatus` with 'pending' brings a settled review back. -/
theorem keepsReview_of_exec {d : Text} {c : ReviewCall} (hc : ∀ id score, c ≠ .setStatus id .pending score)
    {e : ReviewChoice} {w w' : ReviewWorld} {r : c.Reply} (he : c.exec e w = some (r, w')) :
    keepsReview d w w' := by
  cases c with
  | upsertReview repo prNumber d' =>
    obtain ⟨rfl, _⟩ := exec_upsertReview he
    exact keepsReview_upsert d w repo prNumber d'
  | insertFindings id fs =>
    obtain ⟨hfk, rfl⟩ := exec_insertFindings he
    exact keepsReview_of_db fun d => by simp
  | postReview id repo prNumber body event =>
    obtain ⟨_, rfl⟩ := exec_postReview he
    exact keepsReview_of_db fun d => rfl
  | markPosted id gid score =>
    obtain rfl := exec_markPosted he
    intro r₀ hr₀
    have hmark := ReviewDb.review_markPosted w.db id gid score d
    rw [hr₀, Option.map_some] at hmark
    refine ⟨_, hmark, ?_, ?_⟩
    · split_ifs <;> rfl
    · split_ifs
      · simp
      · exact fun h => h
  | enqueue id reason =>
    obtain ⟨hfk, rfl⟩ := exec_enqueue he
    exact keepsReview_of_db fun d => rfl
  | resolve id status note =>
    obtain ⟨rfl, _⟩ := exec_resolve he
    exact keepsReview_of_db fun d => rfl
  | setStatus id status score =>
    obtain rfl := exec_setStatus he
    intro r₀ hr₀
    have hset := ReviewDb.review_setStatus w.db id status score d
    rw [hr₀, Option.map_some] at hset
    refine ⟨_, hset, ?_, ?_⟩
    · split_ifs <;> rfl
    · split_ifs
      · rintro _ rfl
        exact hc id score rfl
      · exact fun h => h
  | _ => exact exec_of_reads rfl he ▸ keepsReview_of_db fun d => rfl

theorem keepsReview_exec {d : Text} {m : DeliveryMode} {c : ReviewCall} (hallow : m.Allows d c)
    {e : ReviewChoice} {w w' : ReviewWorld} {r : c.Reply} (he : c.exec e w = some (r, w')) :
    keepsReview d w w' := by
  refine keepsReview_of_exec (fun id score hc => ?_) he
  subst hc
  cases hallow with
  | write _ _ _ hs => exact hs rfl

theorem github_exec {d : Text} {m : DeliveryMode} {c : ReviewCall} (hallow : m.Allows d c)
    (hm : ∀ id, m ≠ .post id) {e : ReviewChoice} {w w' : ReviewWorld} {r : c.Reply}
    (he : c.exec e w = some (r, w')) : w'.github = w.github := by
  cases hallow with
  | upsert => exact (exec_upsertReview he).1 ▸ rfl
  | check => exact (exec_upsertReview he).1 ▸ rfl
  | insert =>
    obtain ⟨hfk, rfl⟩ := exec_insertFindings he
    rfl
  | post id => exact absurd rfl (hm id)
  | mark => exact exec_markPosted he ▸ rfl
  | enqueue =>
    obtain ⟨hfk, rfl⟩ := exec_enqueue he
    rfl
  | write => exact exec_setStatus he ▸ rfl
  | fetch => exact exec_of_reads rfl he ▸ rfl
  | graph => exact exec_of_reads rfl he ▸ rfl
  | emit => exact exec_of_reads rfl he ▸ rfl
  | save => exact exec_of_reads rfl he ▸ rfl

structure DeliveryInv (d : Text) (n₀ : Nat) (w : ReviewWorld) (ts : List (Thread DeliveryMode)) :
    Prop where
  known : ∀ id, 0 < total (actsOn id) ts → ∃ r, w.db.review d = some r ∧ r.id = id
  start : n₀ ≤ w.github.length
  budget : total isArmed ts + w.github.length ≤ n₀ + 1
  marked : n₀ < w.github.length → settled d w ∨ 0 < total isUnmarked ts

namespace DeliveryInv

variable {d : Text} {n₀ : Nat} {w w' : ReviewWorld} {ts ts' pre tail : List (Thread DeliveryMode)}

theorem quiet (I : DeliveryInv d n₀ w ts) (hk : keepsReview d w w') (hg : w'.github = w.github)
    (hact : ∀ id, total (actsOn id) ts' ≤ total (actsOn id) ts)
    (harm : total isArmed ts' ≤ total isArmed ts)
    (hun : total isUnmarked ts ≤ total isUnmarked ts') : DeliveryInv d n₀ w' ts' where
  known id h := by
    obtain ⟨r, hr, hid⟩ := I.known id (h.trans_le (hact id))
    obtain ⟨r', hr', hid', _⟩ := hk r hr
    exact ⟨r', hr', hid'.trans hid⟩
  start := hg ▸ I.start
  budget := by
    have hb := I.budget
    rw [hg]
    omega
  marked h := by
    rcases I.marked (hg ▸ h) with hs | hu
    · exact .inl (settled_of_keeps hk hs)
    · exact .inr (hu.trans_le hun)

theorem replace {t t' : Thread DeliveryMode} (I : DeliveryInv d n₀ w (pre ++ t :: tail))
    (hk : keepsReview d w w') (hg : w'.github = w.github) (hact : ∀ id, actsOn id t' ≤ actsOn id t)
    (harm : isArmed t' ≤ isArmed t) (hun : isUnmarked t ≤ isUnmarked t') :
    DeliveryInv d n₀ w' (pre ++ t' :: tail) := by
  exact I.quiet hk hg (fun id => total_middle_le (hact id)) (total_middle_le harm) (total_middle_le hun)

theorem arm {auto : Bool} {repo : Text} {prNumber : Int} {r : ReviewRecord}
    (I : DeliveryInv d n₀ w (pre ++ .running (.check auto) :: tail))
    (hr : (w.db.upsertReview repo prNumber d).review d = some r) (hp : r.status = .pending)
    (hidle : auto = true → total isArmed (pre ++ .running (.check auto) :: tail) = 0 ∧
      total isUnmarked (pre ++ .running (.check auto) :: tail) = 0) :
    DeliveryInv d n₀ ⟨w.db.upsertReview repo prNumber d, w.github⟩
      (pre ++ .running (.gate auto r.id) :: tail) := by
  have hkeep := keepsReview_upsert d w repo prNumber d
  have hun : total isUnmarked (pre ++ .running (.gate auto r.id) :: tail) =
      total isUnmarked (pre ++ .running (.check auto) :: tail) := by
    simp [total_middle, isUnmarked]
  have hnot : ¬ settled d w := by
    intro hs
    obtain ⟨r', hr', hs'⟩ := settled_of_keeps hkeep hs
    obtain rfl := Option.some.inj (hr'.symm.trans hr)
    exact hs' hp
  constructor
  · intro id h
    by_cases he : r.id = id
    · exact ⟨r, hr, he⟩
    · have hk := I.known id
      simp only [total_middle, actsOn, he, if_false] at h hk
      obtain ⟨r', hr', hid⟩ := hk h
      obtain ⟨r'', hr'', hid', _⟩ := hkeep r' hr'
      exact ⟨r'', hr'', hid'.trans hid⟩
  · exact I.start
  · have hb := I.budget
    cases auto with
    | false => simpa only [total_middle, isArmed] using hb
    | true =>
      obtain ⟨ha, hu⟩ := hidle rfl
      have hle := I.start
      have hlen : ¬ n₀ < w.github.length := by
        intro hlt
        rcases I.marked hlt with hs | hpos
        · exact hnot hs
        · omega
      simp only [total_middle, isArmed] at ha ⊢
      omega
  · intro h
    rcases I.marked h with hs | hpos
    · exact absurd hs hnot
    · exact .inr (hun ▸ hpos)

theorem post {id : Nat} {t : Thread DeliveryMode} (ht : t = .running (.mark id) ∨ t = .lost (.post id))
    {review : PostedReview} (I : DeliveryInv d n₀ w (pre ++ .running (.post id) :: tail)) :
    DeliveryInv d n₀ ⟨w.db, w.github ++ [review]⟩ (pre ++ t :: tail) := by
  have hact : ∀ id', actsOn id' t ≤ actsOn id' (.running (.post id)) := by
    rcases ht with rfl | rfl <;> simp [actsOn]
  have hun : isUnmarked t = 1 := by
    rcases ht with rfl | rfl <;> rfl
  have harm : isArmed t = 0 := by
    rcases ht with rfl | rfl <;> rfl
  constructor
  · intro id' h
    have hle := hact id'
    refine I.known id' ?_
    simp only [total_middle] at h ⊢
    omega
  · have hs := I.start
    simp only [List.length_append, List.length_singleton]
    omega
  · have hb := I.budget
    simp only [total_middle, harm, List.length_append, List.length_singleton] at hb ⊢
    simp only [isArmed] at hb
    omega
  · intro _
    simp only [total_middle, hun]
    exact .inr (by omega)

theorem mark {id gid : Nat} {score : ℚ} (I : DeliveryInv d n₀ w (pre ++ .running (.mark id) :: tail)) :
    DeliveryInv d n₀ ⟨w.db.markPosted id gid score, w.github⟩ (pre ++ .running .save :: tail) := by
  obtain ⟨r, hr, hid⟩ := I.known id (by simp only [total_middle, actsOn, if_true]; omega)
  have hmark := ReviewDb.review_markPosted w.db id gid score d
  rw [hr, Option.map_some, if_pos hid] at hmark
  have hkeep : keepsReview d w ⟨w.db.markPosted id gid score, w.github⟩ := by
    intro r₀ hr₀
    obtain rfl := Option.some.inj (hr₀.symm.trans hr)
    exact ⟨_, hmark, rfl, fun _ => by simp⟩
  constructor
  · intro id' h
    obtain ⟨r₀, hr₀, hid₀⟩ := I.known id' (by simp only [total_middle, actsOn] at h ⊢; omega)
    obtain ⟨r', hr', hid', _⟩ := hkeep r₀ hr₀
    exact ⟨r', hr', hid'.trans hid₀⟩
  · exact I.start
  · simpa only [total_middle, isArmed] using I.budget
  · exact fun _ => .inl ⟨_, hmark, by simp⟩

end DeliveryInv

/-! The condition on the steps of a run, in terms of the programs. -/

def ReviewCall.checksStatus : ReviewCall → Prop
  | .upsertReview .. => True
  | _ => False

def ReviewCall.postsOrMarks : ReviewCall → Prop
  | .postReview .. | .markPosted .. => True
  | _ => False

/-- The program may still post or mark without another look at the status. -/
def goesOnToPost (p : ReviewProg RunReviewResult) : Prop :=
  p.MayReach ReviewCall.postsOrMarks ReviewCall.checksStatus

/-- An execution between its own check and its mark, or dead between its post and its mark. -/
def unsettled : Thread (ReviewProg RunReviewResult) → Prop
  | .running p => goesOnToPost p
  | .stopped p => ∃ id gid score, p.next = some (.markPosted id gid score)
  | .lost p => ∃ c, p.next = some c ∧ c.postsOrMarks

/-- A check that reads 'pending' and leads to a post is made only while no
execution is unsettled. -/
def checksAlone (s : Pool ReviewWorld (ReviewProg RunReviewResult)) (l : Label) : Prop :=
  ∀ i c k e r w', l = .reply i → s.threads[i]? = some (.running (.call c k)) → c.checksStatus →
    c.exec e s.world = some (r, w') → goesOnToPost (k r) → ∀ t ∈ s.threads, ¬ unsettled t

section

variable {d : Text} {p : ReviewProg RunReviewResult} {id : Nat}

theorem next_of_mark (h : p.Follows (deliveryOutline d) (fun m _ => m = .done) (.mark id)) :
    ∃ gid score, p.next = some (.markPosted id gid score) := by
  cases p with
  | ret a => cases h
  | call c k =>
    obtain ⟨hallow, _⟩ := h
    cases hallow with
    | mark _ gid score => exact ⟨gid, score, rfl⟩

theorem next_of_post (h : p.Follows (deliveryOutline d) (fun m _ => m = .done) (.post id)) :
    ∃ c, p.next = some c ∧ c.postsOrMarks := by
  cases p with
  | ret a => cases h
  | call c k =>
    obtain ⟨hallow, _⟩ := h
    cases hallow with
    | post => exact ⟨_, rfl, trivial⟩

theorem goesOnToPost_of_next (h : ∃ c, p.next = some c ∧ c.postsOrMarks) : goesOnToPost p := by
  obtain ⟨c, hc, hp⟩ := h
  cases p with
  | ret a => simp at hc
  | call c' k =>
    obtain rfl : c' = c := by simpa using hc
    exact .here hp

theorem goesOnToPost_of_gate (h : p.Follows (deliveryOutline d) (fun m _ => m = .done) (.gate true id)) :
    goesOnToPost p := by
  induction p with
  | ret a => cases h
  | call c k ih =>
    obtain ⟨hallow, hk⟩ := h
    cases hallow with
    | insert _ _ fs => exact .later () (by simp [ReviewCall.checksStatus]) (ih () (hk ()))
    | emit =>
      exact .later () (by simp [ReviewCall.checksStatus]) (goesOnToPost_of_next (next_of_post (hk ())))

theorem unsettled_of_armed {t : Thread (ReviewProg RunReviewResult)} {t' : Thread DeliveryMode}
    (h : (deliveryOutline d).At (fun m _ => m = .done) t t') (ht : isArmed t' ≠ 0) : unsettled t := by
  cases h with
  | @running p m hf =>
    cases m with
    | gate auto id =>
      cases auto with
      | true => exact goesOnToPost_of_gate hf
      | false => simp [isArmed] at ht
    | post id => exact goesOnToPost_of_next (next_of_post hf)
    | _ => simp [isArmed] at ht
  | _ => simp [isArmed] at ht

theorem unsettled_of_unmarked {t : Thread (ReviewProg RunReviewResult)} {t' : Thread DeliveryMode}
    (h : (deliveryOutline d).At (fun m _ => m = .done) t t') (ht : isUnmarked t' ≠ 0) : unsettled t := by
  cases h with
  | @running p m hf =>
    cases m with
    | mark id =>
      obtain ⟨gid, score, hn⟩ := next_of_mark hf
      exact goesOnToPost_of_next ⟨_, hn, trivial⟩
    | _ => simp [isUnmarked] at ht
  | @stopped p m hf =>
    cases m with
    | mark id =>
      obtain ⟨gid, score, hn⟩ := next_of_mark hf
      exact ⟨id, gid, score, hn⟩
    | _ => simp [isUnmarked] at ht
  | @lost p m hf =>
    cases m with
    | mark id =>
      obtain ⟨gid, score, hn⟩ := next_of_mark hf
      exact ⟨_, hn, trivial⟩
    | post id => exact next_of_post hf
    | _ => simp [isUnmarked] at ht

end

theorem idle_of_settled {d : Text} {s : Pool ReviewWorld (ReviewProg RunReviewResult)}
    {a : Pool ReviewWorld DeliveryMode}
    (hm : (deliveryOutline d).Matches (fun m _ => m = .done) s a) (h : ∀ t ∈ s.threads, ¬ unsettled t) :
    total isArmed a.threads = 0 ∧ total isUnmarked a.threads = 0 := by
  constructor
  · refine total_eq_zero fun t ht => ?_
    by_contra hne
    obtain ⟨t', ht', hat⟩ := hm.mem ht
    exact h t' ht' (unsettled_of_armed hat hne)
  · refine total_eq_zero fun t ht => ?_
    by_contra hne
    obtain ⟨t', ht', hat⟩ := hm.mem ht
    exact h t' ht' (unsettled_of_unmarked hat hne)

def executes (d : Text) (p : ReviewProg RunReviewResult) : Prop :=
  ∃ job : ReviewJob, job.deliveryId = d ∧ p = runReview job

theorem idle_of_check {d : Text} {s s' : Pool ReviewWorld (ReviewProg RunReviewResult)} {w w' : ReviewWorld}
    {pre tail pre' tail' : List (Thread DeliveryMode)} {id : Nat}
    (hm : (deliveryOutline d).Matches (fun m _ => m = .done) s ⟨w, pre ++ .running (.check true) :: tail⟩)
    (hm' : (deliveryOutline d).Matches (fun m _ => m = .done) s'
      ⟨w', pre' ++ .running (.gate true id) :: tail'⟩) (hl : pre'.length = pre.length)
    (hc : checksAlone s (.reply pre.length)) (hs : reviewHost.Step (executes d) s (.reply pre.length) s') :
    total isArmed (pre ++ .running (.check true) :: tail) = 0 ∧
      total isUnmarked (pre ++ .running (.check true) :: tail) = 0 := by
  obtain ⟨c, k, e, r, hi, he, hk⟩ := hs.reply_inv
  obtain ⟨p, hp, hf⟩ := hm.running_at
  obtain ⟨q, hq, hg⟩ := hm'.running_at
  obtain rfl : p = .call c k := by simpa [hi] using hp.symm
  obtain rfl : q = k r := by simpa [hl, hk] using hq.symm
  have hcheck : c.checksStatus := by
    obtain ⟨hallow, _⟩ := hf
    cases hallow with
    | check => trivial
  exact idle_of_settled hm (hc _ c k e r _ rfl hi hcheck he (goesOnToPost_of_gate hg))

theorem DeliveryInv.reply {d : Text} {n₀ : Nat} {w w' : ReviewWorld} {pre tail : List (Thread DeliveryMode)}
    {m : DeliveryMode} {c : ReviewCall} {r : c.Reply} {e : ReviewChoice}
    (I : DeliveryInv d n₀ w (pre ++ .running m :: tail)) (hallow : m.Allows d c) (he : c.exec e w = some (r, w'))
    (hidle : ∀ id, m = .check true → m.next c r = .gate true id →
      total isArmed (pre ++ .running m :: tail) = 0 ∧ total isUnmarked (pre ++ .running m :: tail) = 0) :
    DeliveryInv d n₀ w' (pre ++ .running (m.next c r) :: tail) := by
  have hkeep := keepsReview_exec hallow he
  have hgit : (∀ id, m ≠ .post id) → w'.github = w.github := fun hm => github_exec hallow hm he
  cases hallow with
  | check auto repo prNumber =>
    obtain ⟨rfl, rec, hrec, rfl⟩ := exec_upsertReview he
    by_cases hp : rec.status = .pending
    · have hnext : DeliveryMode.next (.check auto) (.upsertReview repo prNumber d) rec.row =
          .gate auto rec.id := if_pos hp
      rw [hnext]
      refine I.arm hrec hp fun hauto => ?_
      subst hauto
      exact hidle rec.id rfl hnext
    · have hnext : DeliveryMode.next (.check auto) (.upsertReview repo prNumber d) rec.row =
          .save := if_neg hp
      rw [hnext]
      exact I.replace hkeep rfl (fun _ => le_rfl) le_rfl le_rfl
  | post id repo prNumber body event =>
    obtain ⟨_, rfl⟩ := exec_postReview he
    exact I.post (.inl rfl)
  | mark id gid score =>
    obtain rfl := exec_markPosted he
    exact I.mark
  | upsert repo prNumber =>
    obtain ⟨rfl, rec, hrec, rfl⟩ := exec_upsertReview he
    have hnext : DeliveryMode.next .begin (.upsertReview repo prNumber d) rec.row =
        if rec.status = .pending then .fetch else .done := rfl
    rw [hnext]
    split_ifs
    · exact I.replace hkeep rfl (fun _ => le_rfl) le_rfl le_rfl
    · exact I.replace hkeep rfl (fun _ => le_rfl) le_rfl le_rfl
  | fetch => exact I.replace hkeep (hgit (by simp)) (fun _ => le_rfl) le_rfl le_rfl
  | graph id diffText =>
    cases r with
    | finished a => exact I.replace hkeep (hgit (by simp)) (fun _ => le_rfl) le_rfl le_rfl
    | join entries => exact I.replace hkeep (hgit (by simp)) (fun _ => le_rfl) le_rfl le_rfl
  | insert auto id fs => exact I.replace hkeep (hgit (by simp)) (fun _ => le_rfl) le_rfl le_rfl
  | emit auto id =>
    cases auto with
    | true => exact I.replace hkeep (hgit (by simp)) (fun _ => le_rfl) le_rfl le_rfl
    | false => exact I.replace hkeep (hgit (by simp)) (fun _ => le_rfl) le_rfl le_rfl
  | enqueue id reason => exact I.replace hkeep (hgit (by simp)) (fun _ => le_rfl) le_rfl le_rfl
  | write id status score =>
    exact I.replace hkeep (hgit (by simp)) (fun _ => Nat.zero_le _) le_rfl le_rfl
  | save => exact I.replace hkeep (hgit (by simp)) (fun _ => le_rfl) le_rfl le_rfl

theorem deliveryInv_step {d : Text} {n₀ : Nat} {s s' : Pool ReviewWorld (ReviewProg RunReviewResult)}
    {a a' : Pool ReviewWorld DeliveryMode} {l : Label}
    (hm : (deliveryOutline d).Matches (fun m _ => m = .done) s a)
    (hm' : (deliveryOutline d).Matches (fun m _ => m = .done) s' a') (hc : checksAlone s l)
    (hs : reviewHost.Step (executes d) s l s')
    (h : (deliveryOutline d).Step reviewHost (fun m => m = .begin) a l a')
    (I : DeliveryInv d n₀ a.world a.threads) : DeliveryInv d n₀ a'.world a'.threads := by
  cases h with
  | @reply pre tail m c w w' r e hallow he =>
    refine I.reply hallow he fun id hcheck hgate => ?_
    subst hcheck
    change (deliveryOutline d).next (.check true) c r = .gate true id at hgate
    rw [hgate] at hm'
    exact idle_of_check hm hm' rfl hc hs
  | @retry pre tail m c w w' r e hallow hr he =>
    change c.exec e w = some (r, w') at he
    have hkeep := keepsReview_exec hallow he
    have hnopost : ∀ id, m ≠ .post id := by
      rintro id rfl
      cases hallow with
      | post => simp [reviewHost, ReviewCall.retries] at hr
    exact I.replace hkeep (github_exec hallow hnopost he) (fun _ => le_rfl) le_rfl le_rfl
  | @stop pre tail m w =>
    have hkeep : keepsReview d w w := keepsReview_of_db fun _ => rfl
    refine I.replace hkeep rfl (fun id => Nat.zero_le _) (Nat.zero_le _) ?_
    cases m <;> simp [isUnmarked]
  | @lose pre tail m c w w' r e hallow he =>
    change c.exec e w = some (r, w') at he
    by_cases hpost : ∃ id, m = .post id
    · obtain ⟨id, rfl⟩ := hpost
      cases hallow with
      | post _ repo prNumber body event =>
        obtain ⟨_, rfl⟩ := exec_postReview he
        exact I.post (.inr rfl)
    · have hnopost : ∀ id, m ≠ .post id := fun id h => hpost ⟨id, h⟩
      refine I.replace (keepsReview_exec hallow he) (github_exec hallow hnopost he)
        (fun id => Nat.zero_le _) (Nat.zero_le _) ?_
      cases m with
      | post id => exact absurd rfl (hnopost id)
      | _ => simp [isUnmarked]
  | @spawn ts w m hbegin =>
    subst hbegin
    refine I.quiet (keepsReview_of_db fun _ => rfl) rfl (fun id => ?_) ?_ ?_
    · simp [total_concat, actsOn]
    · simp [total_concat, isArmed]
    · simp [total_concat]
  | drift h => exact absurd h id

/-- However the executions of a delivery interleave, crash and resume: if every
check that reads 'pending' on the way to a post is made while no other execution
is between its check and its mark, the delivery is posted at most once. -/
theorem delivery_posted_at_most_once {d : Text} {w₀ : ReviewWorld}
    {s : Pool ReviewWorld (ReviewProg RunReviewResult)}
    (hrun : reviewHost.Run (executes d) checksAlone ⟨w₀, []⟩ s) :
    s.world.github.length ≤ w₀.github.length + 1 := by
  have hspawn : ∀ p, executes d p →
      ∃ m, m = DeliveryMode.begin ∧ p.Follows (deliveryOutline d) (fun m _ => m = .done) m := by
    rintro p ⟨job, hd, rfl⟩
    exact ⟨.begin, rfl, runReview_follows hd⟩
  have hstart : (deliveryOutline d).Matches (fun m _ => m = .done)
      (⟨w₀, []⟩ : Pool ReviewWorld (ReviewProg RunReviewResult))
      (⟨w₀, []⟩ : Pool ReviewWorld DeliveryMode) := ⟨rfl, .nil⟩
  have hinit : DeliveryInv d w₀.github.length w₀ [] :=
    ⟨fun id h => by simp [total] at h, le_rfl, by simp [total], fun h => by omega⟩
  obtain ⟨a, hm, I⟩ := hrun.outline_invariant
    (I := fun a => DeliveryInv d w₀.github.length a.world a.threads) hspawn
    (fun _ _ _ _ _ hm hm' hc hs hstep hI => deliveryInv_step hm hm' hc hs hstep hI) hstart hinit
  have hb := I.budget
  rw [hm.world]
  omega

def someJob : ReviewJob := ⟨"o/r".toList, 1, "d".toList⟩

theorem checksAlone_single {s : Pool ReviewWorld (ReviewProg RunReviewResult)}
    (hs : s.threads.length = 1) (l : Label) : checksAlone s l := by
  obtain ⟨t, ht⟩ := List.length_eq_one_iff.mp hs
  rintro i c k e r w' - hi hcheck - - t' ht'
  rw [ht] at hi ht'
  obtain rfl := List.mem_singleton.mp ht'
  have hrun : t' = .running (.call c k) := by
    have hm := List.mem_of_getElem? hi
    exact (List.mem_singleton.mp hm).symm
  subst hrun
  intro hgo
  cases hgo with
  | here hp => cases c <;> simp [ReviewCall.checksStatus, ReviewCall.postsOrMarks] at hcheck hp
  | later r hstop => exact hstop hcheck

theorem delivery_posted_once : ∃ s, reviewHost.Run (executes "d".toList) checksAlone
    ⟨⟨ReviewDb.empty, []⟩, []⟩ s ∧ 0 < s.world.github.length ∧ s.world.github.length ≤ 1 := by
  have hplay : ∃ s ∈ reviewHost.play ⟨⟨ReviewDb.empty, []⟩, [.running (runReview someJob)]⟩
      ((List.replicate 7 (0, (⟨[], .join [], id⟩ : ReviewChoice))).map fun x => .reply x.1 x.2),
      0 < s.world.github.length := by
    decide +kernel
  obtain ⟨s, hs, hlen⟩ := hplay
  have hspawn : checksAlone ⟨⟨ReviewDb.empty, []⟩, []⟩ .spawn := by
    intro i c k e r w' hl
    simp at hl
  have hrun : reviewHost.Run (executes "d".toList) checksAlone ⟨⟨ReviewDb.empty, []⟩, []⟩ s :=
    .head ⟨.spawn, hspawn, .spawn ⟨someJob, rfl, rfl⟩⟩
      (Host.run_of_replies (fun _ h i => checksAlone_single h (.reply i)) rfl hs)
  exact ⟨s, hrun, hlen, delivery_posted_at_most_once hrun⟩

def twoExecutions : List (Host.Move ReviewChoice (ReviewProg RunReviewResult)) :=
  let e : ReviewChoice := ⟨[], .join [], id⟩
  [.spawn (runReview someJob), .spawn (runReview someJob)] ++
    ([0, 0, 0, 0, 1, 1, 1, 1, 0, 0, 0, 1, 1, 1].map fun i => .reply i e)

theorem delivery_posted_twice : ∃ s, reviewHost.Run (executes "d".toList) (fun _ _ => True)
    ⟨⟨ReviewDb.empty, []⟩, []⟩ s ∧ s.world.github.length = 2 := by
  have hplay : ∃ s ∈ reviewHost.play ⟨⟨ReviewDb.empty, []⟩, []⟩ twoExecutions,
      s.world.github.length = 2 := by
    decide +kernel
  obtain ⟨s, hs, hlen⟩ := hplay
  refine ⟨s, Host.run_of_play ?_ (fun _ _ => trivial) hs, hlen⟩
  intro p hp
  have hpe : p = runReview someJob := by simpa [twoExecutions] using hp
  exact ⟨someJob, rfl, hpe⟩

end AiPrReview
