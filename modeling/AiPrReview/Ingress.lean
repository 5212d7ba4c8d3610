import AiPrReview.Sha256
import AiPrReview.Webhook

/-! The webhook endpoint from the raw request on: the signature, the headers,
the payload, and what it asks of whatever queue and status store it is given. -/

namespace AiPrReview

/-! The signature. -/

def isAscii (c : Char) : Bool := c.toNat < 128

/-- `hmac.compare_digest` of two strings; `none` is its `TypeError`. -/
def compareDigest (a b : Text) : Option Bool := if a.all isAscii && b.all isAscii then some (a == b) else none

def encodeUtf8 (t : Text) : List UInt8 := t.flatMap String.utf8EncodeChar

def signaturePrefix : Text := "sha256=".toList

def bodyDigest (payloadBody : List UInt8) (secret : Text) : Text :=
  Sha256.hexdigest (Sha256.hmac (encodeUtf8 secret) payloadBody)

/-- `none` is an exception. -/
def verifySignature (payloadBody : List UInt8) (secret : Text) : Option Text → Option Bool
  | none => some false
  | some header =>
    if header = [] ∨ ¬signaturePrefix.isPrefixOf header then some false
    else compareDigest (bodyDigest payloadBody secret) (header.drop signaturePrefix.length)

/-! The request. Pydantic's parsers are parameters; an error is its message. -/

structure WebhookRequest : Type where
  rawBody : List UInt8
  signature : Option Text
  delivery : Option Text
  event : Option Text

structure PayloadParsers : Type where
  pullRequest : List UInt8 → Except Text (Text × Int × Text)
  installation : List UInt8 → Except Text (Text × List Text)
  installationRepositories : List UInt8 → Except Text (List Text)
  push : List UInt8 → Except Text (Text × Text × Text × List PushCommit)

def handledEvents : List Text :=
  ["pull_request".toList, "installation".toList, "installation_repositories".toList, "push".toList]

/-- The parsing half of `_build_enqueue_ops`, for a handled event. -/
def PayloadParsers.parse (p : PayloadParsers) (event : Text) (rawBody : List UInt8) : Except Text WebhookEvent :=
  if event = "pull_request".toList then (p.pullRequest rawBody).map fun x => .pullRequest x.1 x.2.1 x.2.2
  else if event = "installation".toList then (p.installation rawBody).map fun x => .installation x.1 x.2
  else if event = "installation_repositories".toList then
    (p.installationRepositories rawBody).map .installationRepositories
  else (p.push rawBody).map fun x => .push x.1 x.2.1 x.2.2.1 x.2.2.2

structure HttpAnswer : Type where
  status : Nat
  content : Text
  deriving DecidableEq

def accepted : HttpAnswer := ⟨200, "accepted".toList⟩

def Response.answer (event : Text) : Response → HttpAnswer
  | .accepted => AiPrReview.accepted
  | .duplicate => ⟨200, "duplicate delivery, already processed".toList⟩
  | .ignored => ⟨200, "ignored: nothing to enqueue for ".toList ++ event⟩
  | .unavailable => ⟨503, "job queue temporarily unavailable".toList⟩

/-! What the endpoint asks for; the reply `none` is an ordinary exception. -/

inductive IngressCall : Type where
  | markSeen (deliveryId : Text)
  | unclaim (deliveryId : Text)
  | enqueue (job : Job)
  | markPending (repo : Text)

def IngressCall.Reply : IngressCall → Type
  | markPending _ => Option Unit
  | _ => Option Bool

abbrev IngressProg : Type → Type := Prog IngressCall.Reply

abbrev IngressEvent : Type := Sigma IngressCall.Reply

def EnqueueOp.ingress (op : EnqueueOp) : IngressProg (Option Bool) :=
  match op.pendingRepo with
  | none => .perform (IngressCall.enqueue op.job)
  | some repo => .call (.markPending repo) fun
    | none => .ret none
    | some () => .perform (IngressCall.enqueue op.job)

def ingressOps : List EnqueueOp → IngressProg (Option Unit)
  | [] => .ret (some ())
  | op :: ops => op.ingress >>= fun
    | none => .ret none
    | some _ => ingressOps ops

def claimAndEnqueue (deliveryId : Text) (ops : List EnqueueOp) : IngressProg Response :=
  .call (.markSeen deliveryId) fun
    | none => .ret .unavailable
    | some false => .ret .duplicate
    | some true => ingressOps ops >>= fun
      | some () => .ret .accepted
      | none => .call (.unclaim deliveryId) fun _ => .ret .unavailable

/-- `receive_webhook`; the answer `none` is an unhandled exception. -/
def ingress (parsers : PayloadParsers) (secret : Text) (request : WebhookRequest) : IngressProg (Option HttpAnswer) :=
  match verifySignature request.rawBody secret request.signature with
  | none => .ret none
  | some false => .ret (some ⟨401, "invalid signature".toList⟩)
  | some true =>
    match request.delivery.filter (· ≠ []) with
    | none => .ret (some ⟨400, "missing X-GitHub-Delivery header".toList⟩)
    | some deliveryId =>
      match request.event.filter (handledEvents.contains ·) with
      | none => .ret (some ⟨200, "ignored: unhandled event ".toList ++ request.event.getD "None".toList⟩)
      | some event =>
        match parsers.parse event request.rawBody with
        | .error message => .ret (some ⟨422, message⟩)
        | .ok payload =>
          match buildEnqueueOps deliveryId payload with
          | none => .ret (some (Response.ignored.answer event))
          | some ops => claimAndEnqueue deliveryId ops >>= fun r => .ret (some (r.answer event))

/-! The signature check. -/

theorem bodyDigest_ascii (payloadBody : List UInt8) (secret : Text) :
    (bodyDigest payloadBody secret).all isAscii = true := by
  rw [List.all_eq_true]
  intro c hc
  exact decide_eq_true (Sha256.hexdigest_ascii hc)

/-- The header that is answered with anything but 401. -/
def signatureOf (payloadBody : List UInt8) (secret : Text) : Text := signaturePrefix ++ bodyDigest payloadBody secret

/-- A signature header whose text after `sha256=` is not ASCII. -/
def Undigestible (signature : Option Text) : Prop :=
  ∃ provided, signature = some (signaturePrefix ++ provided) ∧ provided.all isAscii = false

theorem verifySignature_prefixed (payloadBody : List UInt8) (secret provided : Text) :
    verifySignature payloadBody secret (some (signaturePrefix ++ provided)) =
      compareDigest (bodyDigest payloadBody secret) provided := by
  have hne : signaturePrefix ++ provided ≠ [] := List.cons_ne_nil _ _
  have hprefix : signaturePrefix.isPrefixOf (signaturePrefix ++ provided) = true :=
    List.isPrefixOf_iff_prefix.mpr (List.prefix_append _ _)
  rw [verifySignature, if_neg (by simp [hne, hprefix]), List.drop_left]

theorem verifySignature_spec (payloadBody : List UInt8) (secret : Text) (signature : Option Text) :
    (verifySignature payloadBody secret signature = none ↔ Undigestible signature) ∧
    (verifySignature payloadBody secret signature = some true ↔ signature = some (signatureOf payloadBody secret)) := by
  cases signature with
  | none =>
    refine ⟨⟨nofun, ?_⟩, ⟨nofun, nofun⟩⟩
    rintro ⟨_, hsome, _⟩
    cases hsome
  | some header =>
    by_cases hprefix : signaturePrefix <+: header
    · obtain ⟨provided, rfl⟩ := hprefix
      have hcancel : ∀ t, some (signaturePrefix ++ provided) = some (signaturePrefix ++ t) ↔ provided = t := by
        intro t
        rw [Option.some.injEq, List.append_right_inj]
      rw [verifySignature_prefixed, compareDigest, bodyDigest_ascii, Bool.true_and, signatureOf, hcancel]
      cases hascii : provided.all isAscii with
      | true =>
        refine ⟨⟨nofun, ?_⟩, ?_⟩
        · rintro ⟨t, ht, hno⟩
          rw [← (hcancel t).mp ht, hascii] at hno
          cases hno
        · simp only [if_true, Option.some.injEq, beq_iff_eq]
          exact eq_comm
      | false =>
        refine ⟨⟨fun _ => ⟨provided, rfl, hascii⟩, fun _ => rfl⟩, ⟨nofun, ?_⟩⟩
        rintro rfl
        rw [bodyDigest_ascii] at hascii
        cases hascii
    · have hfalse : verifySignature payloadBody secret (some header) = some false := by
        rw [verifySignature, if_pos]
        exact .inr fun hp => hprefix (List.isPrefixOf_iff_prefix.mp hp)
      rw [hfalse]
      refine ⟨⟨nofun, ?_⟩, ⟨nofun, ?_⟩⟩
      · rintro ⟨provided, hsome, _⟩
        obtain rfl := Option.some.inj hsome
        exact absurd (List.prefix_append _ _) hprefix
      · intro hsome
        obtain rfl := Option.some.inj hsome
        exact absurd (List.prefix_append _ _) hprefix

/-! The operations. -/

/-- The jobs whose enqueue returned. -/
def returnedJobs (talk : List IngressEvent) : List Job :=
  talk.filterMap fun
    | ⟨.enqueue job, reply⟩ => (reply : Option Bool).map fun _ => job
    | _ => none

theorem returnedJobs_append (talk talk' : List IngressEvent) :
    returnedJobs (talk ++ talk') = returnedJobs talk ++ returnedJobs talk' := List.filterMap_append

theorem opIngress_talks {op : EnqueueOp} {talk : List IngressEvent} {r : Option Bool}
    (h : op.ingress.Talks talk (.ret r)) : returnedJobs talk = if r.isSome then [op.job] else [] := by
  have hperform : ∀ {rest : List IngressEvent},
      (Prog.perform (R := IngressCall.Reply) (.enqueue op.job)).Talks rest (.ret r) →
        returnedJobs rest = if r.isSome then [op.job] else [] := by
    intro rest hrest
    obtain ⟨reply, rfl, rfl⟩ := Prog.talks_last_iff.mp hrest
    cases (r : Option Bool) <;> rfl
  unfold EnqueueOp.ingress at h
  cases hp : op.pendingRepo with
  | none =>
    rw [hp] at h
    exact hperform h
  | some repo =>
    rw [hp] at h
    obtain ⟨reply, rest, rfl, hrest⟩ := Prog.talks_call_ret_iff.mp h
    cases (reply : Option Unit) with
    | none =>
      obtain ⟨rfl, rfl⟩ := Prog.talks_done_iff.mp hrest
      rfl
    | some u =>
      have hh := hperform hrest
      exact hh

theorem ingressOps_talks {ops : List EnqueueOp} {talk : List IngressEvent} {r : Option Unit}
    (h : (ingressOps ops).Talks talk (.ret r)) :
    (r = some () → returnedJobs talk = ops.map EnqueueOp.job) ∧
      (r = none → (returnedJobs talk).length < ops.length) := by
  induction ops generalizing talk with
  | nil =>
    obtain ⟨rfl, rfl⟩ := Prog.talks_done_iff.mp h
    exact ⟨fun _ => rfl, nofun⟩
  | cons op ops ih =>
    obtain ⟨first, a, rest, rfl, hfirst, hrest⟩ := Prog.talks_bind_ret_iff.mp h
    rw [returnedJobs_append, opIngress_talks hfirst]
    cases a with
    | none =>
      obtain ⟨rfl, rfl⟩ := Prog.talks_done_iff.mp hrest
      exact ⟨nofun, fun _ => Nat.zero_lt_succ _⟩
    | some b =>
      obtain ⟨hdone, hraised⟩ := ih hrest
      refine ⟨fun hr => ?_, fun hr => ?_⟩
      · rw [hdone hr]
        rfl
      · have hlen := hraised hr
        have hone : (if (some b : Option Bool).isSome = true then [op.job] else []).length = 1 := rfl
        rw [List.length_append, hone, List.length_cons]
        omega

theorem claimAndEnqueue_talks {d : Text} {ops : List EnqueueOp} {talk : List IngressEvent} {r : Response}
    (h : (claimAndEnqueue d ops).Talks talk (.ret r)) : r ≠ .ignored ∧
      (r = .accepted ↔ ⟨.markSeen d, some true⟩ ∈ talk ∧ returnedJobs talk = ops.map EnqueueOp.job) := by
  obtain ⟨isNew, rest, rfl, hrest⟩ := Prog.talks_call_ret_iff.mp h
  rcases (isNew : Option Bool) with _ | (_ | _)
  · obtain ⟨rfl, rfl⟩ := Prog.talks_done_iff.mp hrest
    refine ⟨by simp, ⟨nofun, ?_⟩⟩
    rintro ⟨hmem, _⟩
    cases List.mem_singleton.mp hmem
  · obtain ⟨rfl, rfl⟩ := Prog.talks_done_iff.mp hrest
    refine ⟨by simp, ⟨nofun, ?_⟩⟩
    rintro ⟨hmem, _⟩
    cases List.mem_singleton.mp hmem
  · obtain ⟨run, result, last, rfl, hrun, hlast⟩ := Prog.talks_bind_ret_iff.mp hrest
    obtain ⟨hdone, hraised⟩ := ingressOps_talks hrun
    cases result with
    | some u =>
      obtain ⟨rfl, rfl⟩ := Prog.talks_done_iff.mp hlast
      rw [List.append_nil]
      exact ⟨by simp, ⟨fun _ => ⟨List.mem_cons_self, hdone rfl⟩, fun _ => rfl⟩⟩
    | none =>
      obtain ⟨reply, rfl, rfl⟩ := Prog.talks_last_iff.mp hlast
      refine ⟨by simp, ⟨nofun, ?_⟩⟩
      rintro ⟨_, hjobs⟩
      have hrunJobs : returnedJobs (run ++ [⟨.unclaim d, reply⟩]) = ops.map EnqueueOp.job := hjobs
      rw [returnedJobs_append, show returnedJobs [⟨.unclaim d, reply⟩] = [] from rfl, List.append_nil] at hrunJobs
      have hlen := hraised rfl
      rw [hrunJobs, List.length_map] at hlen
      exact absurd hlen (lt_irrefl _)

/-! The whole request. -/

/-- A delivery id, and what there is to do for a valid payload of a handled event. -/
structure Actionable (parsers : PayloadParsers) (request : WebhookRequest) (deliveryId : Text)
    (payload : WebhookEvent) : Prop where
  delivery : request.delivery = some deliveryId ∧ deliveryId ≠ []
  event : ∃ event ∈ handledEvents, request.event = some event ∧ parsers.parse event request.rawBody = .ok payload

/-- The outcome that the endpoint is to have. -/
structure Determined (parsers : PayloadParsers) (secret : Text) (request : WebhookRequest) (talk : List IngressEvent)
    (answer : Option HttpAnswer) : Prop where
  answered : ∃ a, answer = some a ∧ a.status ∈ [401, 400, 422, 503, 200]
  unauthorized_iff : (∃ a, answer = some a ∧ a.status = 401) ↔
    request.signature ≠ some (signatureOf request.rawBody secret)
  guarded : talk ≠ [] → request.signature = some (signatureOf request.rawBody secret) ∧
    ∃ deliveryId payload, Actionable parsers request deliveryId payload
  accepted_iff : answer = some accepted ↔ ∃ deliveryId payload ops, Actionable parsers request deliveryId payload ∧
    buildEnqueueOps deliveryId payload = some ops ∧ ⟨.markSeen deliveryId, some true⟩ ∈ talk ∧
      returnedJobs talk = ops.map EnqueueOp.job

theorem determined_of_silent {parsers : PayloadParsers} {secret : Text} {request : WebhookRequest} {a : HttpAnswer}
    (hsignature : request.signature = some (signatureOf request.rawBody secret))
    (hstatus : a.status ∈ [400, 422, 503, 200]) (ha : a ≠ accepted) :
    Determined parsers secret request [] (some a) := by
  refine ⟨⟨a, rfl, by simp at hstatus ⊢; omega⟩, ?_, nofun, ?_⟩
  · refine ⟨?_, fun hno => absurd hsignature hno⟩
    rintro ⟨b, hb, h401⟩
    obtain rfl := Option.some.inj hb
    simp at hstatus
    omega
  · refine ⟨fun h => absurd (Option.some.inj h) ha, ?_⟩
    rintro ⟨_, _, _, _, _, hmem, _⟩
    cases hmem

theorem silent_ne_accepted (text : Text) : (⟨200, "ignored: ".toList ++ text⟩ : HttpAnswer) ≠ accepted := by
  intro h
  have hh := congrArg (fun a => a.content.head?) h
  cases hh

theorem Actionable.unique {parsers : PayloadParsers} {request : WebhookRequest} {d d' : Text}
    {payload payload' : WebhookEvent} (h : Actionable parsers request d payload)
    (h' : Actionable parsers request d' payload') : d' = d ∧ payload' = payload := by
  obtain ⟨⟨hd, _⟩, event, _, he, hparse⟩ := h
  obtain ⟨⟨hd', _⟩, event', _, he', hparse'⟩ := h'
  obtain rfl := Option.some.inj (he'.symm.trans he)
  exact ⟨Option.some.inj (hd'.symm.trans hd), Except.ok.inj (hparse'.symm.trans hparse)⟩

theorem Response.answer_eq_accepted_iff {r : Response} (h : r ≠ .ignored) (event : Text) :
    r.answer event = AiPrReview.accepted ↔ r = .accepted := by
  cases r with
  | accepted => exact ⟨fun _ => rfl, fun _ => rfl⟩
  | ignored => exact absurd rfl h
  | duplicate =>
    refine ⟨fun hno => ?_, nofun⟩
    have hh : "duplicate delivery, already processed".toList = "accepted".toList := congrArg HttpAnswer.content hno
    exact absurd hh (by decide +kernel)
  | unavailable =>
    refine ⟨fun hno => ?_, nofun⟩
    have hh : 503 = 200 := congrArg HttpAnswer.status hno
    exact absurd hh (by decide)

theorem determined_of_claimed {parsers : PayloadParsers} {secret : Text} {request : WebhookRequest} {d event : Text}
    {payload : WebhookEvent} {ops : List EnqueueOp} {talk : List IngressEvent} {r : Response}
    (hsignature : request.signature = some (signatureOf request.rawBody secret))
    (hact : Actionable parsers request d payload) (hops : buildEnqueueOps d payload = some ops)
    (h : (claimAndEnqueue d ops).Talks talk (.ret r)) :
    Determined parsers secret request talk (some (r.answer event)) := by
  obtain ⟨hignored, haccepted⟩ := claimAndEnqueue_talks h
  have hstatus : (r.answer event).status ∈ [200, 503] := by cases r <;> simp [Response.answer, accepted]
  refine ⟨⟨_, rfl, by simp at hstatus ⊢; omega⟩, ?_, fun _ => ⟨hsignature, d, payload, hact⟩, ?_⟩
  · refine ⟨?_, fun hno => absurd hsignature hno⟩
    rintro ⟨a, ha, h401⟩
    obtain rfl := Option.some.inj ha
    simp at hstatus
    omega
  · rw [Option.some.injEq, Response.answer_eq_accepted_iff hignored, haccepted]
    constructor
    · rintro ⟨hclaimed, hjobs⟩
      exact ⟨d, payload, ops, hact, hops, hclaimed, hjobs⟩
    · rintro ⟨d', payload', ops', hact', hops', hclaimed, hjobs⟩
      obtain ⟨rfl, rfl⟩ := hact.unique hact'
      obtain rfl := Option.some.inj (hops'.symm.trans hops)
      exact ⟨hclaimed, hjobs⟩

theorem determined_of_signed {parsers : PayloadParsers} {secret : Text} {request : WebhookRequest}
    {talk : List IngressEvent} {answer : Option HttpAnswer}
    (hverify : verifySignature request.rawBody secret request.signature = some true)
    (h : (ingress parsers secret request).Talks talk (.ret answer)) :
    Determined parsers secret request talk answer := by
  have hsignature := (verifySignature_spec request.rawBody secret request.signature).2.mp hverify
  rw [ingress, hverify] at h
  dsimp only at h
  cases hd : request.delivery.filter (· ≠ []) with
  | none =>
    rw [hd] at h
    obtain ⟨rfl, rfl⟩ := Prog.talks_done_iff.mp h
    exact determined_of_silent hsignature (by simp) fun hno => by cases congrArg HttpAnswer.status hno
  | some d =>
    rw [hd] at h
    obtain ⟨hdelivery, hne⟩ := Option.filter_eq_some_iff.mp hd
    dsimp only at h
    cases he : request.event.filter (handledEvents.contains ·) with
    | none =>
      rw [he] at h
      obtain ⟨rfl, rfl⟩ := Prog.talks_done_iff.mp h
      exact determined_of_silent hsignature (by simp) (silent_ne_accepted _)
    | some event =>
      rw [he] at h
      obtain ⟨hevent, hhandled⟩ := Option.filter_eq_some_iff.mp he
      dsimp only at h
      cases hparse : parsers.parse event request.rawBody with
      | error message =>
        rw [hparse] at h
        obtain ⟨rfl, rfl⟩ := Prog.talks_done_iff.mp h
        exact determined_of_silent hsignature (by simp) fun hno => by cases congrArg HttpAnswer.status hno
      | ok payload =>
        rw [hparse] at h
        dsimp only at h
        have hact : Actionable parsers request d payload :=
          ⟨⟨hdelivery, by simpa using hne⟩, event, by simpa using hhandled, hevent, hparse⟩
        cases hops : buildEnqueueOps d payload with
        | none =>
          rw [hops] at h
          obtain ⟨rfl, rfl⟩ := Prog.talks_done_iff.mp h
          exact determined_of_silent hsignature (by simp [Response.answer]) (silent_ne_accepted _)
        | some ops =>
          rw [hops] at h
          obtain ⟨first, r, last, rfl, hfirst, hlast⟩ := Prog.talks_bind_ret_iff.mp h
          obtain ⟨rfl, rfl⟩ := Prog.talks_done_iff.mp hlast
          rw [List.append_nil]
          exact determined_of_claimed hsignature hact hops hfirst

theorem determined_of_unsigned {parsers : PayloadParsers} {secret : Text} {request : WebhookRequest}
    {talk : List IngressEvent} {answer : Option HttpAnswer}
    (hverify : verifySignature request.rawBody secret request.signature = some false)
    (h : (ingress parsers secret request).Talks talk (.ret answer)) :
    Determined parsers secret request talk answer := by
  have hsignature : request.signature ≠ some (signatureOf request.rawBody secret) := by
    intro hs
    have htrue := (verifySignature_spec request.rawBody secret request.signature).2.mpr hs
    cases htrue.symm.trans hverify
  rw [ingress, hverify] at h
  obtain ⟨rfl, rfl⟩ := Prog.talks_done_iff.mp h
  refine ⟨⟨_, rfl, by simp⟩, ⟨fun _ => hsignature, fun _ => ⟨_, rfl, rfl⟩⟩, nofun, ⟨?_, ?_⟩⟩
  · intro hno
    cases congrArg HttpAnswer.status (Option.some.inj hno)
  · rintro ⟨_, _, _, _, _, hmem, _⟩
    cases hmem

/-- Whatever the queue and the status store do: the outcome is as it should be,
but for a header with text after `sha256=` that is not ASCII. -/
theorem ingress_determined_iff {parsers : PayloadParsers} {secret : Text} {request : WebhookRequest}
    {talk : List IngressEvent} {answer : Option HttpAnswer}
    (h : (ingress parsers secret request).Talks talk (.ret answer)) :
    Determined parsers secret request talk answer ↔ ¬Undigestible request.signature := by
  rw [← (verifySignature_spec request.rawBody secret request.signature).1]
  constructor
  · intro hdet hverify
    rw [ingress, hverify] at h
    obtain ⟨rfl, rfl⟩ := Prog.talks_done_iff.mp h
    obtain ⟨a, ha, _⟩ := hdet.answered
    cases ha
  · intro hdigestible
    obtain ⟨valid, hverify⟩ := Option.ne_none_iff_exists'.mp hdigestible
    cases valid with
    | false => exact determined_of_unsigned hverify h
    | true => exact determined_of_signed hverify h

def exampleBody : List UInt8 :=
  encodeUtf8 ("\x7b\"action\":\"opened\",\"number\":7,\"pull_request\":\x7b\x7d," ++
    "\"repository\":\x7b\"full_name\":\"acme/api\"\x7d\x7d").toList

/-- What the four parsers make of `exampleBody`. -/
def exampleParsers : PayloadParsers where
  pullRequest _ := .ok ("opened".toList, 7, "acme/api".toList)
  installation _ := .ok ("opened".toList, [])
  installationRepositories _ := .ok []
  push _ := .error "3 validation errors for PushWebhookPayload".toList

def exampleRequest (signature : Text) : WebhookRequest :=
  ⟨exampleBody, some signature, some "72d3162e".toList, some "pull_request".toList⟩

theorem signed_talks (rawBody : List UInt8) (secret : Text) :
    (ingress exampleParsers secret ⟨rawBody, some (signatureOf rawBody secret), some "72d3162e".toList,
      some "pull_request".toList⟩).Talks
      [⟨.markSeen "72d3162e".toList, some true⟩,
        ⟨.enqueue (.review "72d3162e".toList "acme/api".toList 7 "opened".toList), some true⟩]
      (.ret (some accepted)) := by
  have hverify := (verifySignature_spec rawBody secret _).2.mpr rfl
  rw [ingress, hverify]
  exact .cons (.cons (.refl _))

theorem undigestible_talks (parsers : PayloadParsers) (secret : Text) {request : WebhookRequest}
    (h : Undigestible request.signature) : (ingress parsers secret request).Talks [] (.ret none) := by
  rw [ingress, (verifySignature_spec request.rawBody secret request.signature).1.mpr h]
  exact .refl _

theorem signature_digestible (rawBody : List UInt8) (secret : Text) :
    ¬Undigestible (some (signatureOf rawBody secret)) := by
  have hspec := verifySignature_spec rawBody secret (some (signatureOf rawBody secret))
  rw [← hspec.1, hspec.2.mpr rfl]
  exact nofun

theorem signed_request_determined :
    ∃ talk, Determined exampleParsers "s3cret".toList (exampleRequest (signatureOf exampleBody "s3cret".toList)) talk
      (some accepted) :=
  ⟨_, (ingress_determined_iff (signed_talks exampleBody "s3cret".toList)).mpr (signature_digestible _ _)⟩

/-- `sha256=é`: the comparison raises, and nothing catches it. -/
theorem signature_not_ascii_raises :
    (ingress exampleParsers "s3cret".toList (exampleRequest (signaturePrefix ++ ['é']))).Talks [] (.ret none) ∧
    ¬Determined exampleParsers "s3cret".toList (exampleRequest (signaturePrefix ++ ['é'])) [] none := by
  refine ⟨undigestible_talks _ _ ⟨['é'], rfl, rfl⟩, fun hdet => ?_⟩
  obtain ⟨a, ha, _⟩ := hdet.answered
  cases ha

/-! The endpoint on the job queue. -/

def IngressCall.program : (c : IngressCall) → QueueProg c.Reply
  | markSeen d => AiPrReview.markSeen d
  | unclaim d => AiPrReview.unclaim d
  | enqueue job => enqueueJob job
  | markPending repo => .perform (QueueCall.markPending repo)

theorem bind_ret {α : Type} (p : QueueProg α) : (p >>= fun a => .ret a) = p := by
  induction p with
  | ret a => rfl
  | call c k ih => exact congrArg (Prog.call c) (funext fun r => ih r)

theorem opIngress_interpret (op : EnqueueOp) : op.ingress.interpret IngressCall.program = op.run := by
  unfold EnqueueOp.ingress EnqueueOp.run
  cases op.pendingRepo with
  | none => exact bind_ret _
  | some repo =>
    refine congrArg (Prog.call (QueueCall.markPending repo)) (funext fun r => ?_)
    cases (r : Option Unit) with
    | none => rfl
    | some u => exact bind_ret _

theorem ingressOps_interpret (ops : List EnqueueOp) : (ingressOps ops).interpret IngressCall.program = runOps ops := by
  induction ops with
  | nil => rfl
  | cons op ops ih =>
    rw [ingressOps, Prog.interpret_bind, opIngress_interpret, runOps]
    congr 1
    funext r
    cases r with
    | none => rfl
    | some b => exact ih

theorem claimAndEnqueue_interpret {d : Text} {event : WebhookEvent} {ops : List EnqueueOp}
    (hops : buildEnqueueOps d event = some ops) :
    (claimAndEnqueue d ops).interpret IngressCall.program = receiveWebhook d event := by
  rw [receiveWebhook, hops]
  show (AiPrReview.markSeen d >>= _) = _
  congr 1
  funext r
  rcases (r : Option Bool) with _ | (_ | _)
  · rfl
  · rfl
  · show Prog.interpret IngressCall.program (ingressOps ops >>= _) = afterClaim d ops
    rw [Prog.interpret_bind, ingressOps_interpret, afterClaim]
    congr 1
    funext u
    cases u with
    | none => rfl
    | some _ => rfl

/-- On the job queue, an authentic request with something to do is what
`receiveWebhook` makes of its payload. -/
theorem ingress_interpret {parsers : PayloadParsers} {secret : Text} {request : WebhookRequest} {d event : Text}
    {payload : WebhookEvent} (hsignature : request.signature = some (signatureOf request.rawBody secret))
    (hd : request.delivery = some d) (hne : d ≠ []) (he : request.event = some event) (hhandled : event ∈ handledEvents)
    (hparse : parsers.parse event request.rawBody = .ok payload) :
    (ingress parsers secret request).interpret IngressCall.program =
      receiveWebhook d payload >>= fun r => .ret (some (r.answer event)) := by
  have hverify := (verifySignature_spec request.rawBody secret request.signature).2.mpr hsignature
  have hdelivery : request.delivery.filter (· ≠ []) = some d := by simp [hd, hne]
  have hevent : request.event.filter (handledEvents.contains ·) = some event := by simp [he, hhandled]
  rw [ingress, hverify]
  dsimp only
  rw [hdelivery]
  dsimp only
  rw [hevent]
  dsimp only
  rw [hparse]
  dsimp only
  cases hops : buildEnqueueOps d payload with
  | none =>
    rw [receiveWebhook, hops]
    rfl
  | some ops =>
    dsimp only
    rw [Prog.interpret_bind, claimAndEnqueue_interpret hops]
    rfl

end AiPrReview
