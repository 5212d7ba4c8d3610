import AiPrReview.GuardAgreement

/-! The GitHub client: the transport with its breaker and its retries, and how
often a review comes to be posted through it. -/

namespace AiPrReview.GitHub

/-- `id` and `token` are what the JSON of the response has under these names. -/
structure HttpResponse : Type where
  status : Nat
  text : Text
  id : Option Int
  token : Option Text

/-- One attempt: what the client sees of it, `none` being an `httpx.HTTPError`,
and whether GitHub processed the request. -/
structure Attempt : Type where
  seen : Option HttpResponse
  processed : Bool
  answered : ∀ resp ∈ seen, resp.status < 300 → processed = true
  turnedAway : ∀ resp ∈ seen, 300 ≤ resp.status → resp.status < 500 → processed = false

namespace Attempt

def refused : Attempt := ⟨none, false, by simp, by simp⟩

def readTimeout (processed : Bool) : Attempt := ⟨none, processed, by simp, by simp⟩

def success (id : Option Int) (token : Option Text) : Attempt :=
  ⟨some ⟨200, [], id, token⟩, true, by simp, by simp⟩

end Attempt

structure Request : Type where
  method : Text
  path : Text
  auth : Text
  json : Option (Text × Text)
  deriving DecidableEq

inductive Cause : Type where
  | httpError
  | gitHubError (message : Text)

/-- `other` is any exception that is no `GitHubError`. -/
inductive ClientError : Type where
  | circuitOpen (message : Text)
  | gitHubError (message : Text) (cause : Option Cause)
  | other

def ClientError.isGitHubError : ClientError → Bool
  | other => false
  | _ => true

inductive ClientCall : Type where
  | beforeCall
  | attempt (request : Request)
  | sleep (seconds : ℚ)
  | onSuccess
  | onFailure
  | appJwt
  | cachedId (repo : Text)
  | cacheId (repo : Text) (id : Int)
  | cachedToken (id : Int)
  | cacheToken (id : Int) (token : Text)

def ClientCall.Reply : ClientCall → Type
  | beforeCall => Bool
  | attempt _ => Attempt
  | sleep _ => Unit
  | onSuccess => Unit
  | onFailure => Unit
  | appJwt => Text
  | cachedId _ => Option Int
  | cacheId _ _ => Unit
  | cachedToken _ => Option Text
  | cacheToken _ _ => Unit

abbrev ClientProg : Type → Type := Prog ClientCall.Reply

abbrev ClientEvent : Type := Sigma ClientCall.Reply

def ClientProg.andThen {α β : Type} (p : ClientProg (Except ClientError α))
    (f : α → ClientProg (Except ClientError β)) : ClientProg (Except ClientError β) :=
  p >>= fun
    | .ok a => f a
    | .error e => .ret (.error e)

/-! The transport. -/

def isRetryableStatus (status : Nat) : Bool := status = 429 || 500 ≤ status

def retryAttempts : Nat := 3

def retryBaseDelaySeconds : ℚ := 1 / 5

def requestText (request : Request) : Text :=
  "GitHub ".toList ++ request.method ++ ' ' :: request.path

def definitiveText (request : Request) (resp : HttpResponse) : Text :=
  requestText request ++ " -> ".toList ++ intText resp.status ++ ": ".toList ++ resp.text.take 300

def retryableText (request : Request) (resp : HttpResponse) : Text :=
  requestText request ++ " -> ".toList ++ intText resp.status ++ " (retryable)".toList

def exhaustedText (request : Request) : Text :=
  requestText request ++ " failed after ".toList ++ intText retryAttempts ++ " attempts".toList

/-- Between two attempts, but not after the last. -/
def backoff {α : Type} (attempt : Nat) (next : ClientProg α) : ClientProg α :=
  if attempt < retryAttempts - 1 then .call (.sleep (retryBaseDelaySeconds * 2 ^ attempt)) fun _ => next else next

/-- The loop of `_send` with `left` attempts to go. -/
def sendLoop (request : Request) : Nat → Option Cause → ClientProg (Except ClientError HttpResponse)
  | 0, lastExc => .call .onFailure fun _ => .ret (.error (.gitHubError (exhaustedText request) lastExc))
  | left + 1, _ => .call (.attempt request) fun outcome : Attempt =>
    let attempt := retryAttempts - (left + 1)
    match outcome.seen with
    | none => backoff attempt (sendLoop request left (some .httpError))
    | some resp =>
      if resp.status < 400 then .call .onSuccess fun _ => .ret (.ok resp)
      else if isRetryableStatus resp.status then
        backoff attempt (sendLoop request left (some (.gitHubError (retryableText request resp))))
      else .call .onSuccess fun _ => .ret (.error (.gitHubError (definitiveText request resp) none))

def openMessage : Text := "github circuit breaker is open".toList

/-- `_send`. -/
def send (request : Request) : ClientProg (Except ClientError HttpResponse) :=
  .call .beforeCall fun admitted : Bool =>
    if admitted then sendLoop request retryAttempts none else .ret (.error (.circuitOpen openMessage))

/-! The operations. -/

/-- `repo_full_name.split("/", 1)` into two; with no slash the unpacking raises. -/
def splitRepo : Text → Option (Text × Text)
  | [] => none
  | '/' :: name => some ([], name)
  | c :: rest => (splitRepo rest).map fun x => (c :: x.1, x.2)

def repoPath (owner name : Text) : Text := "/repos/".toList ++ (owner ++ '/' :: name)

/-- `data[...]`, kept for the next time; a missing key raises. -/
def keepField {α : Type} (field : Option α) (cache : α → ClientCall) : ClientProg (Except ClientError α) :=
  match field with
  | none => .ret (.error .other)
  | some x => .call (cache x) fun _ => .ret (.ok x)

def installationId (repo : Text) : ClientProg (Except ClientError Int) :=
  .call (.cachedId repo) fun
    | some cached => .ret (.ok cached)
    | none =>
      match splitRepo repo with
      | none => .ret (.error .other)
      | some (owner, name) => .call .appJwt fun jwt : Text =>
        ClientProg.andThen
          (send ⟨"GET".toList, repoPath owner name ++ "/installation".toList, "Bearer ".toList ++ jwt, none⟩)
          fun data => keepField data.id (.cacheId repo)

def installationToken (repo : Text) : ClientProg (Except ClientError Text) :=
  ClientProg.andThen (installationId repo) fun id =>
    .call (.cachedToken id) fun
      | some cached => .ret (.ok cached)
      | none => .call .appJwt fun jwt : Text =>
        ClientProg.andThen
          (send ⟨"POST".toList, "/app/installations/".toList ++ intText id ++ "/access_tokens".toList,
            "Bearer ".toList ++ jwt, none⟩)
          fun data => keepField data.token (.cacheToken id)

def reviewsPath (repoPath : Text) (prNumber : Int) : Text :=
  repoPath ++ "/pulls/".toList ++ intText prNumber ++ "/reviews".toList

def postReview (repo : Text) (prNumber : Int) (body event : Text) : ClientProg (Except ClientError Int) :=
  match splitRepo repo with
  | none => .ret (.error .other)
  | some (owner, name) =>
    ClientProg.andThen (installationToken repo) fun token =>
      ClientProg.andThen
        (send ⟨"POST".toList, reviewsPath (repoPath owner name) prNumber, "token ".toList ++ token,
          some (body, event)⟩)
        fun data =>
          match data.id with
          | none => .ret (.error .other)
          | some id => .ret (.ok id)

theorem splitRepo_eq {repo owner name : Text} (h : splitRepo repo = some (owner, name)) :
    owner ++ '/' :: name = repo := by
  induction repo generalizing owner with
  | nil => cases h
  | cons c rest ih =>
    by_cases hc : c = '/'
    · subst hc
      obtain ⟨rfl, rfl⟩ := Prod.mk.injEq .. ▸ Option.some.inj h
      rfl
    · have hmap : splitRepo (c :: rest) = (splitRepo rest).map fun x => (c :: x.1, x.2) := by
        simp [splitRepo]
      rw [hmap] at h
      obtain ⟨⟨owner', name'⟩, hrest, hx⟩ := Option.map_eq_some_iff.mp h
      obtain ⟨rfl, rfl⟩ := Prod.mk.injEq .. ▸ hx
      rw [← ih hrest]
      rfl

/-! A client of its own. -/

/-- A token is kept with its expiry on the monotonic clock. -/
structure ClientWorld : Type where
  breaker : CircuitBreaker
  installationIds : List (Text × Int)
  installationTokens : List (Int × Text × ℚ)

structure ClientChoice : Type where
  now : ℚ
  jwt : Text
  outcome : Attempt

def refreshMarginSeconds : ℚ := 5 * 60

def ClientCall.exec : (c : ClientCall) → ClientChoice → ClientWorld → Option (c.Reply × ClientWorld)
  | beforeCall, e, w => some (decide (w.breaker.beforeCall e.now ≠ .rejected), w)
  | attempt _, e, w => some (e.outcome, w)
  | sleep _, _, w => some ((), w)
  | onSuccess, _, w => some ((), { w with breaker := w.breaker.onSuccess })
  | onFailure, e, w => some ((), { w with breaker := w.breaker.onFailure e.now })
  | appJwt, e, w => some (e.jwt, w)
  | cachedId repo, _, w => some (w.installationIds.lookup repo, w)
  | cacheId repo id, _, w => some ((), { w with installationIds := (repo, id) :: w.installationIds })
  | cachedToken id, e, w =>
    some (((w.installationTokens.lookup id).filter fun x => refreshMarginSeconds < x.2 - e.now).map Prod.fst, w)
  | cacheToken id token, e, w =>
    some ((), { w with installationTokens := (id, token, e.now + 60 * 60) :: w.installationTokens })

def ClientWorld.fresh : ClientWorld := ⟨⟨4, 30, 0, none⟩, [], []⟩

/-! What a call says to GitHub. -/

def ClientEvent.attempt : ClientEvent → Option (Request × Attempt)
  | ⟨.attempt request, outcome⟩ => some (request, outcome)
  | _ => none

def attempts (talk : List ClientEvent) : List (Request × Attempt) := talk.filterMap ClientEvent.attempt

theorem attempts_append (talk talk' : List ClientEvent) : attempts (talk ++ talk') = attempts talk ++ attempts talk' :=
  List.filterMap_append

theorem attempts_attempt (request : Request) (outcome : Attempt) (talk : List ClientEvent) :
    attempts (⟨.attempt request, outcome⟩ :: talk) = (request, outcome) :: attempts talk := rfl

/-- A timeout, a 429 or a 5xx: the client goes on as if nothing had happened. -/
def Attempt.transient (a : Attempt) : Bool := a.seen.all fun resp => isRetryableStatus resp.status

/-- The reviews that an answer stands for. -/
def posted : Except ClientError HttpResponse → Nat
  | .ok resp => if resp.status < 300 then 1 else 0
  | .error _ => 0

theorem posted_le (r : Except ClientError HttpResponse) : posted r ≤ 1 := by
  cases r with
  | error e => exact Nat.zero_le 1
  | ok resp =>
    simp only [posted]
    split_ifs <;> omega

theorem talks_andThen {α β : Type} {p : ClientProg (Except ClientError α)} {f : α → ClientProg (Except ClientError β)}
    {talk : List ClientEvent} {r : Except ClientError β} (h : (p.andThen f).Talks talk (.ret r)) :
    ∃ first a rest, talk = first ++ rest ∧ p.Talks first (.ret a) ∧
      ((∃ e, a = .error e ∧ r = .error e ∧ rest = []) ∨ ∃ x, a = .ok x ∧ (f x).Talks rest (.ret r)) := by
  obtain ⟨first, a, rest, rfl, hfirst, hrest⟩ := Prog.talks_bind_ret_iff.mp h
  refine ⟨first, a, rest, rfl, hfirst, ?_⟩
  cases a with
  | ok x => exact .inr ⟨x, rfl, hrest⟩
  | error e =>
    obtain ⟨rfl, rfl⟩ := Prog.talks_done_iff.mp hrest
    exact .inl ⟨e, rfl, rfl, rfl⟩

/-- At most `left` attempts, all of `request`; beside those that GitHub processed
although they failed for the client, it processed `n`. -/
def Tries (request : Request) (left n : Nat) (talk : List ClientEvent) : Prop :=
  ∃ tries : List Attempt, attempts talk = tries.map (request, ·) ∧ tries.length ≤ left ∧
    tries.countP (·.processed) = tries.countP (fun a => a.processed && a.transient) + n

theorem tries_nil {request : Request} {left : Nat} {talk : List ClientEvent} (h : attempts talk = []) :
    Tries request left 0 talk :=
  ⟨[], h, Nat.zero_le left, rfl⟩

theorem Tries.again {request : Request} {left n : Nat} {talk : List ClientEvent} {outcome : Attempt}
    (h : Tries request left n talk) (htransient : outcome.transient = true) :
    Tries request (left + 1) n (⟨.attempt request, outcome⟩ :: talk) := by
  obtain ⟨tries, htries, hlen, hcount⟩ := h
  refine ⟨outcome :: tries, ?_, Nat.succ_le_succ hlen, ?_⟩
  · rw [attempts_attempt, htries]
    rfl
  · rw [List.countP_cons, List.countP_cons, htransient, Bool.and_true, hcount]
    omega

theorem Tries.answer {request : Request} {left n : Nat} {talk : List ClientEvent} {outcome : Attempt}
    (h : attempts talk = []) (hanswer : outcome.transient = false) (hn : n = if outcome.processed then 1 else 0) :
    Tries request (left + 1) n (⟨.attempt request, outcome⟩ :: talk) := by
  refine ⟨[outcome], ?_, by simp, ?_⟩
  · rw [attempts_attempt, h]
    rfl
  · simp [hanswer, hn]

theorem Tries.backoff {α : Type} {request : Request} {left n attempt : Nat} {next : ClientProg α}
    {talk : List ClientEvent} {a : α} (h : (backoff attempt next).Talks talk (.ret a))
    (hnext : ∀ {rest : List ClientEvent}, next.Talks rest (.ret a) → Tries request left n rest) :
    Tries request left n talk := by
  unfold GitHub.backoff at h
  split_ifs at h
  · obtain ⟨_, rest, rfl, hrest⟩ := Prog.talks_call_ret_iff.mp h
    obtain ⟨tries, htries⟩ := hnext hrest
    exact ⟨tries, htries⟩
  · exact hnext h

theorem sendLoop_tries {request : Request} {left : Nat} {last : Option Cause} {talk : List ClientEvent}
    {r : Except ClientError HttpResponse} (h : (sendLoop request left last).Talks talk (.ret r)) :
    Tries request left (posted r) talk := by
  induction left generalizing last talk with
  | zero =>
    obtain ⟨_, rfl, rfl⟩ := Prog.talks_last_iff.mp h
    exact tries_nil rfl
  | succ left ih =>
    obtain ⟨⟨seen, processed, answered, turnedAway⟩, rest, rfl, hrest⟩ := Prog.talks_call_ret_iff.mp h
    cases seen with
    | none => exact .again (.backoff hrest ih) rfl
    | some resp =>
      dsimp only at hrest
      split_ifs at hrest with hok hretry
      · obtain ⟨_, rfl, rfl⟩ := Prog.talks_last_iff.mp hrest
        have hlow : isRetryableStatus resp.status = false := by
          simp only [isRetryableStatus, Bool.or_eq_false_iff, decide_eq_false_iff_not]
          omega
        refine .answer rfl hlow ?_
        by_cases hs : resp.status < 300
        · simp [posted, hs, answered resp rfl hs]
        · simp [posted, hs, turnedAway resp rfl (by omega) (by omega)]
      · exact .again (.backoff hrest ih) hretry
      · obtain ⟨_, rfl, rfl⟩ := Prog.talks_last_iff.mp hrest
        have hfive : resp.status < 500 := by
          by_contra hge
          exact hretry (by simp [isRetryableStatus]; omega)
        have hanswer : isRetryableStatus resp.status = false := by simpa only [Bool.not_eq_true] using hretry
        refine .answer rfl hanswer ?_
        simp [posted, turnedAway resp rfl (by omega) hfive]

theorem send_tries {request : Request} {talk : List ClientEvent} {r : Except ClientError HttpResponse}
    (h : (send request).Talks talk (.ret r)) : Tries request retryAttempts (posted r) talk := by
  obtain ⟨admitted, rest, rfl, hrest⟩ := Prog.talks_call_ret_iff.mp h
  cases (admitted : Bool) with
  | true =>
    obtain ⟨tries, htries⟩ := sendLoop_tries hrest
    exact ⟨tries, htries⟩
  | false =>
    obtain ⟨rfl, rfl⟩ := Prog.talks_done_iff.mp hrest
    exact tries_nil rfl

/-! What it makes of the reviews with one body on one pull request. -/

def Request.isReview (path body : Text) (request : Request) : Bool :=
  request.path = path && request.json.map Prod.fst = some body

/-- GitHub creates a review for every such request it processes. -/
def reviewsCreated (path body : Text) (talk : List ClientEvent) : Nat :=
  (attempts talk).countP fun x => x.1.isReview path body && x.2.processed

/-- Those of them whose attempt failed for the client. -/
def reviewsUnseen (path body : Text) (talk : List ClientEvent) : Nat :=
  (attempts talk).countP fun x => x.1.isReview path body && (x.2.processed && x.2.transient)

def reviewAttempts (path body : Text) (talk : List ClientEvent) : Nat :=
  (attempts talk).countP fun x => x.1.isReview path body

theorem Tries.reviews {path body : Text} {request : Request} {left n : Nat} {talk : List ClientEvent}
    (h : Tries request left n talk) (hrequest : request.isReview path body = true) :
    reviewsCreated path body talk = reviewsUnseen path body talk + n ∧ reviewAttempts path body talk ≤ left := by
  obtain ⟨tries, htries, hlen, hcount⟩ := h
  simp only [reviewsCreated, reviewsUnseen, reviewAttempts, htries, List.countP_map, Function.comp_def, hrequest,
    Bool.true_and, List.countP_true]
  exact ⟨hcount, hlen⟩

/-- The requests for a token are no reviews. -/
def TokenTalk (talk : List ClientEvent) : Prop := ∀ x ∈ attempts talk, x.1.json = none

theorem TokenTalk.append {talk talk' : List ClientEvent} (h : TokenTalk talk) (h' : TokenTalk talk') :
    TokenTalk (talk ++ talk') := by
  intro x hx
  rw [attempts_append, List.mem_append] at hx
  exact hx.elim (h x) (h' x)

theorem TokenTalk.send {request : Request} {talk : List ClientEvent} {r : Except ClientError HttpResponse}
    (h : (send request).Talks talk (.ret r)) (hrequest : request.json = none) : TokenTalk talk := by
  obtain ⟨tries, htries, _⟩ := send_tries h
  intro x hx
  rw [htries] at hx
  obtain ⟨a, _, rfl⟩ := List.mem_map.mp hx
  exact hrequest

theorem keepField_talks {α : Type} {field : Option α} {cache : α → ClientCall} {talk : List ClientEvent}
    {r : Except ClientError α} (hcache : ∀ x reply, ClientEvent.attempt ⟨cache x, reply⟩ = none)
    (h : (keepField field cache).Talks talk (.ret r)) : TokenTalk talk := by
  cases field with
  | none =>
    obtain ⟨rfl, _⟩ := Prog.talks_ret_iff.mp h
    exact nofun
  | some x =>
    obtain ⟨reply, rfl, _⟩ := Prog.talks_last_iff.mp h
    intro y hy
    simp [attempts, hcache] at hy

theorem tokenTalk_fetch {α : Type} {request : Text → Request} {next : HttpResponse → ClientProg (Except ClientError α)}
    {talk : List ClientEvent} {r : Except ClientError α} (hjson : ∀ jwt, (request jwt).json = none)
    (hnext : ∀ data talk r, (next data).Talks talk (.ret r) → TokenTalk talk)
    (h : (.call .appJwt fun jwt : Text => (send (request jwt)).andThen next :
      ClientProg (Except ClientError α)).Talks talk (.ret r)) : TokenTalk talk := by
  obtain ⟨_, rest, rfl, hrest⟩ := Prog.talks_call_ret_iff.mp h
  obtain ⟨first, a, last, rfl, hsend, hlast⟩ := talks_andThen hrest
  have hfirst : TokenTalk first := .send hsend (hjson _)
  refine hfirst.append ?_
  rcases hlast with ⟨_, _, _, rfl⟩ | ⟨data, _, hdata⟩
  · exact nofun
  · exact hnext data last r hdata

theorem installationId_talks {repo : Text} {talk : List ClientEvent} {r : Except ClientError Int}
    (h : (installationId repo).Talks talk (.ret r)) : TokenTalk talk := by
  obtain ⟨cached, rest, rfl, hrest⟩ := Prog.talks_call_ret_iff.mp h
  suffices hh : TokenTalk rest from hh
  cases (cached : Option Int) with
  | some id =>
    obtain ⟨rfl, _⟩ := Prog.talks_ret_iff.mp hrest
    exact nofun
  | none =>
    cases hsplit : splitRepo repo with
    | none =>
      rw [hsplit] at hrest
      obtain ⟨rfl, _⟩ := Prog.talks_ret_iff.mp hrest
      exact nofun
    | some parts =>
      rw [hsplit] at hrest
      exact tokenTalk_fetch (fun _ => rfl) (fun _ _ _ hnext => keepField_talks (fun _ _ => rfl) hnext) hrest

theorem installationToken_talks {repo : Text} {talk : List ClientEvent} {r : Except ClientError Text}
    (h : (installationToken repo).Talks talk (.ret r)) : TokenTalk talk := by
  obtain ⟨first, a, rest, rfl, hfirst, hrest⟩ := talks_andThen h
  refine (installationId_talks hfirst).append ?_
  rcases hrest with ⟨_, _, _, rfl⟩ | ⟨id, _, hrest⟩
  · exact nofun
  · obtain ⟨cached, last, rfl, hlast⟩ := Prog.talks_call_ret_iff.mp hrest
    suffices hh : TokenTalk last from hh
    cases (cached : Option Text) with
    | some token =>
      obtain ⟨rfl, _⟩ := Prog.talks_ret_iff.mp hlast
      exact nofun
    | none =>
      exact tokenTalk_fetch (fun _ => rfl) (fun _ _ _ hnext => keepField_talks (fun _ _ => rfl) hnext) hlast

theorem TokenTalk.reviews {path body : Text} {talk talk' : List ClientEvent} (h : TokenTalk talk) :
    reviewsCreated path body (talk ++ talk') = reviewsCreated path body talk' ∧
    reviewsUnseen path body (talk ++ talk') = reviewsUnseen path body talk' ∧
    reviewAttempts path body (talk ++ talk') = reviewAttempts path body talk' := by
  have hno : ∀ x ∈ attempts talk, x.1.isReview path body = false := by
    intro x hx
    simp [Request.isReview, h x hx]
  simp only [reviewsCreated, reviewsUnseen, reviewAttempts, attempts_append, List.countP_append]
  refine ⟨?_, ?_, ?_⟩
  all_goals
    rw [Nat.add_eq_right, List.countP_eq_zero]
    intro x hx
    simp [hno x hx]

def raisesGitHubError : Except ClientError Int → Bool
  | .ok _ => false
  | .error e => e.isGitHubError

theorem postReview_talks {repo body event : Text} {prNumber : Int} {talk : List ClientEvent}
    {r : Except ClientError Int} (h : (postReview repo prNumber body event).Talks talk (.ret r)) {path : Text}
    (hpath : path = reviewsPath ("/repos/".toList ++ repo) prNumber) :
    ∃ n ≤ 1, (raisesGitHubError r = true → n = 0) ∧
      reviewsCreated path body talk = reviewsUnseen path body talk + n ∧
      reviewAttempts path body talk ≤ retryAttempts := by
  unfold postReview at h
  cases hsplit : splitRepo repo with
  | none =>
    rw [hsplit] at h
    obtain ⟨rfl, _⟩ := Prog.talks_ret_iff.mp h
    exact ⟨0, Nat.zero_le 1, fun _ => rfl, rfl, Nat.zero_le _⟩
  | some parts =>
    obtain ⟨owner, name⟩ := parts
    rw [hsplit] at h
    rw [← splitRepo_eq hsplit] at hpath
    obtain ⟨first, a, rest, rfl, hfirst, hrest⟩ := talks_andThen h
    obtain ⟨hcreated, hunseen, hattempts⟩ := (installationToken_talks hfirst).reviews
    rw [hcreated, hunseen, hattempts]
    rcases hrest with ⟨_, _, _, rfl⟩ | ⟨token, _, hpost⟩
    · exact ⟨0, Nat.zero_le 1, fun _ => rfl, rfl, Nat.zero_le _⟩
    obtain ⟨sent, b, last, rfl, hsent, hlast⟩ := talks_andThen hpost
    have hreview : Request.isReview path body ⟨"POST".toList, reviewsPath (repoPath owner name) prNumber,
        "token ".toList ++ token, some (body, event)⟩ = true := by
      rw [Request.isReview, hpath]
      exact Bool.and_eq_true_iff.mpr ⟨decide_eq_true rfl, decide_eq_true rfl⟩
    obtain ⟨hcount, hlen⟩ := (send_tries hsent).reviews hreview
    obtain ⟨rfl, hn⟩ : last = [] ∧ (raisesGitHubError r = true → posted b = 0) := by
      rcases hlast with ⟨e, rfl, _, rfl⟩ | ⟨data, rfl, hdata⟩
      · exact ⟨rfl, fun _ => rfl⟩
      · cases hid : data.id with
        | none =>
          rw [hid] at hdata
          obtain ⟨rfl, rfl⟩ := Prog.talks_done_iff.mp hdata
          exact ⟨rfl, fun hraises => by cases hraises⟩
        | some id =>
          rw [hid] at hdata
          obtain ⟨rfl, rfl⟩ := Prog.talks_done_iff.mp hdata
          exact ⟨rfl, fun hraises => by cases hraises⟩
    rw [List.append_nil]
    exact ⟨posted b, posted_le b, hn, hcount, hlen⟩

/-- What one call creates, beside what GitHub processes while the client sees a
failure, is one review at most, and none if it raises. So where GitHub processes
no attempt that fails for the client, one call creates at most one, and so do a
call that raises and the one after it. -/
theorem post_review_creates {repo body event event' : Text} {prNumber : Int} {talk talk' : List ClientEvent}
    {r r' : Except ClientError Int} (h : (postReview repo prNumber body event).Talks talk (.ret r))
    (h' : (postReview repo prNumber body event').Talks talk' (.ret r')) {path : Text}
    (hpath : path = reviewsPath ("/repos/".toList ++ repo) prNumber) :
    (∃ n ≤ 1, (raisesGitHubError r = true → n = 0) ∧ reviewsCreated path body talk = reviewsUnseen path body talk + n) ∧
    reviewAttempts path body talk ≤ retryAttempts ∧
    (reviewsUnseen path body talk = 0 → reviewsCreated path body talk ≤ 1) ∧
    (raisesGitHubError r = true → reviewsUnseen path body talk = 0 → reviewsUnseen path body talk' = 0 →
      reviewsCreated path body talk + reviewsCreated path body talk' ≤ 1) := by
  obtain ⟨n, hn, hraises, hcreated, hattempts⟩ := postReview_talks h hpath
  obtain ⟨n', hn', _, hcreated', _⟩ := postReview_talks h' hpath
  refine ⟨⟨n, hn, hraises, hcreated⟩, hattempts, fun hseen => ?_, fun hr hseen hseen' => ?_⟩
  · omega
  · have hzero : n = 0 := hraises hr
    omega

/-! Runs of one client, from when it was made. -/

def choice (outcome : Attempt) : ClientChoice := ⟨0, "eyJhbGciOi".toList, outcome⟩

def idle : ClientChoice := choice .refused

/-- Both requests for a token succeed, and the breaker lets the POST through. -/
def authorized : List ClientChoice :=
  [idle, idle, idle, choice (.success (some 31) none), idle, idle] ++
    [idle, idle, idle, choice (.success none (some "ghs_16C7e42F".toList)), idle, idle] ++ [idle]

def cachedAuthorized : List ClientChoice := [idle, idle, idle]

def exampleReview : ClientProg (Except ClientError Int) :=
  postReview "acme/api".toList 7 "No findings.".toList "APPROVE".toList

def examplePath : Text := reviewsPath ("/repos/".toList ++ "acme/api".toList) 7

theorem one_review_after_refusal :
    ∃ talk r w talk' r' w', Prog.replay ClientCall.exec (authorized ++
        [choice .refused, idle, choice .refused, idle, choice .refused, idle]) .fresh exampleReview =
        some (talk, r, w) ∧
      Prog.replay ClientCall.exec (cachedAuthorized ++ [choice (.success (some 900) none), idle]) w exampleReview =
        some (talk', r', w') ∧
      raisesGitHubError r = true ∧ reviewsCreated examplePath "No findings.".toList talk' = 1 ∧
      reviewsCreated examplePath "No findings.".toList talk +
        reviewsCreated examplePath "No findings.".toList talk' ≤ 1 := by
  obtain ⟨⟨talk, r, w⟩, h, ⟨talk', r', w'⟩, h', hraises, hunseen, hunseen', hone⟩ :
      ∃ x ∈ Prog.replay ClientCall.exec (authorized ++
        [choice .refused, idle, choice .refused, idle, choice .refused, idle]) .fresh exampleReview,
      ∃ y ∈ Prog.replay ClientCall.exec (cachedAuthorized ++ [choice (.success (some 900) none), idle]) x.2.2
          exampleReview,
        raisesGitHubError x.2.1 = true ∧ reviewsUnseen examplePath "No findings.".toList x.1 = 0 ∧
        reviewsUnseen examplePath "No findings.".toList y.1 = 0 ∧
        reviewsCreated examplePath "No findings.".toList y.1 = 1 := by
    decide +kernel
  exact ⟨talk, r, w, talk', r', w', h, h', hraises, hone,
    (post_review_creates (Prog.talks_of_replay h) (Prog.talks_of_replay h') rfl).2.2.2 hraises hunseen hunseen'⟩

/-- A read timeout after GitHub has created the review: the retry creates
another. And where the last attempt times out like this, the call raises, and
the next call creates another. -/
theorem second_review_created :
    (∃ talk r w, Prog.replay ClientCall.exec (authorized ++
        [choice (.readTimeout true), idle, choice (.success (some 900) none), idle]) .fresh exampleReview =
        some (talk, r, w) ∧
      reviewsCreated examplePath "No findings.".toList talk = 2) ∧
    ∃ talk r w talk' r' w', Prog.replay ClientCall.exec (authorized ++
        [choice .refused, idle, choice .refused, idle, choice (.readTimeout true), idle]) .fresh exampleReview =
        some (talk, r, w) ∧
      Prog.replay ClientCall.exec (cachedAuthorized ++ [choice (.success (some 900) none), idle]) w exampleReview =
        some (talk', r', w') ∧
      raisesGitHubError r = true ∧
      reviewsCreated examplePath "No findings.".toList talk +
        reviewsCreated examplePath "No findings.".toList talk' = 2 := by
  constructor
  · obtain ⟨⟨talk, r, w⟩, h, htwo⟩ : ∃ x ∈ Prog.replay ClientCall.exec (authorized ++
        [choice (.readTimeout true), idle, choice (.success (some 900) none), idle]) .fresh exampleReview,
        reviewsCreated examplePath "No findings.".toList x.1 = 2 := by
      decide +kernel
    exact ⟨talk, r, w, h, htwo⟩
  · obtain ⟨⟨talk, r, w⟩, h, ⟨talk', r', w'⟩, h', hraises, htwo⟩ :
        ∃ x ∈ Prog.replay ClientCall.exec (authorized ++
          [choice .refused, idle, choice .refused, idle, choice (.readTimeout true), idle]) .fresh exampleReview,
        ∃ y ∈ Prog.replay ClientCall.exec (cachedAuthorized ++ [choice (.success (some 900) none), idle]) x.2.2
          exampleReview, raisesGitHubError x.2.1 = true ∧
          reviewsCreated examplePath "No findings.".toList x.1 +
            reviewsCreated examplePath "No findings.".toList y.1 = 2 := by
      decide +kernel
    exact ⟨talk, r, w, talk', r', w', h, h', hraises, htwo⟩

end AiPrReview.GitHub
