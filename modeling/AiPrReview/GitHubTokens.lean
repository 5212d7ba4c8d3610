import AiPrReview.GitHubClient
import AiPrReview.RelyGuarantee

/-! Calls of one GitHub client that run at the same time share its caches of
installation ids and of tokens. No request about a repository is sent with a
token that was issued for the installation of another one. -/

namespace AiPrReview.GitHub

/-! The other public operations. `json` is the field of a response body. -/

/-- What the operations on a repository have in common. -/
def withToken {α : Type} (repo : Text) (request : Text → Text → Text → Request)
    (read : HttpResponse → ClientProg (Except ClientError α)) : ClientProg (Except ClientError α) :=
  match splitRepo repo with
  | none => .ret (.error .other)
  | some (owner, name) => ClientProg.andThen (installationToken repo) fun token =>
    ClientProg.andThen (send (request owner name token)) read

theorem postReview_eq (repo : Text) (prNumber : Int) (body event : Text) : postReview repo prNumber body event =
    withToken repo (fun owner name token => ⟨"POST".toList, reviewsPath (repoPath owner name) prNumber,
      "token ".toList ++ token, some (body, event)⟩) fun data =>
        match data.id with
        | none => .ret (.error .other)
        | some id => .ret (.ok id) := by
  unfold postReview withToken
  cases splitRepo repo with
  | none => rfl
  | some parts => rfl

def getPullRequestDiff (repo : Text) (prNumber : Int) : ClientProg (Except ClientError Text) :=
  withToken repo (fun owner name token => ⟨"GET".toList, repoPath owner name ++ ("/pulls/".toList ++ intText prNumber),
    "token ".toList ++ token, none⟩) fun resp => .ret (.ok resp.text)

def readField (json : Text → Text → Option Text) (key : Text) (data : HttpResponse) :
    ClientProg (Except ClientError Text) :=
  match json data.text key with
  | none => .ret (.error .other)
  | some x => .ret (.ok x)

def defaultBranch (json : Text → Text → Option Text) (repo : Text) : ClientProg (Except ClientError Text) :=
  withToken repo (fun owner name token => ⟨"GET".toList, repoPath owner name, "token ".toList ++ token, none⟩)
    (readField json "default_branch".toList)

def getRepoHeadSha (json : Text → Text → Option Text) (repo ref : Text) : ClientProg (Except ClientError Text) :=
  ClientProg.andThen (if ref = "HEAD".toList then defaultBranch json repo else .ret (.ok ref)) fun resolvedRef =>
    withToken repo (fun owner name token => ⟨"GET".toList, repoPath owner name ++ ("/commits/".toList ++ resolvedRef),
      "token ".toList ++ token, none⟩) (readField json "sha".toList)

/-- Its result stands for the bytes of the response. -/
def downloadTarball (repo ref : Text) : ClientProg (Except ClientError HttpResponse) :=
  withToken repo (fun owner name token => ⟨"GET".toList, repoPath owner name ++ ("/tarball/".toList ++ ref),
    "token ".toList ++ token, none⟩) fun resp => .ret (.ok resp)

inductive ClientOp : Type where
  | getPullRequestDiff (repo : Text) (prNumber : Int)
  | getRepoHeadSha (repo ref : Text)
  | downloadTarball (repo ref : Text)
  | postReview (repo : Text) (prNumber : Int) (body event : Text)

def ClientOp.repo : ClientOp → Text
  | .getPullRequestDiff repo _ => repo
  | .getRepoHeadSha repo _ => repo
  | .downloadTarball repo _ => repo
  | .postReview repo _ _ _ => repo

def ClientOp.run (json : Text → Text → Option Text) : ClientOp → ClientProg Unit
  | .getPullRequestDiff repo prNumber => (GitHub.getPullRequestDiff repo prNumber).void
  | .getRepoHeadSha repo ref => (GitHub.getRepoHeadSha json repo ref).void
  | .downloadTarball repo ref => (GitHub.downloadTarball repo ref).void
  | .postReview repo prNumber body event => (GitHub.postReview repo prNumber body event).void

/-! Where a request goes, and what the log of a client says about tokens. -/

/-- The repository in the path of a request: the two parts after `/repos/`. -/
def targetRepo (path : Text) : Option Text :=
  if "/repos/".toList.isPrefixOf path then
    (splitRepo (path.drop 7)).map fun x => x.1 ++ '/' :: x.2.takeWhile (· ≠ '/')
  else none

def lookupPath (repo : Text) : Text := "/repos/".toList ++ (repo ++ "/installation".toList)

def tokensPath (id : Int) : Text := "/app/installations/".toList ++ intText id ++ "/access_tokens".toList

/-- GitHub answered the request with `resp`. -/
def Answered (log : List ClientEvent) (request : Request) (resp : HttpResponse) : Prop :=
  ∃ outcome : Attempt, ⟨.attempt request, outcome⟩ ∈ log ∧ outcome.seen = some resp ∧ resp.status < 400

/-- GitHub named `id` as the installation of `repo`. -/
def Named (log : List ClientEvent) (repo : Text) (id : Int) : Prop :=
  ∃ request resp, request.path = lookupPath repo ∧ Answered log request resp ∧ resp.id = some id

def Issued (log : List ClientEvent) (id : Int) (token : Text) : Prop :=
  ∃ request resp, request.path = tokensPath id ∧ Answered log request resp ∧ resp.token = some token

def Signed (log : List ClientEvent) (jwt : Text) : Prop := ⟨.appJwt, jwt⟩ ∈ log

/-- Only lookups and token requests are signed as the app; any other request is
about a repository and bears a token of its installation. -/
def Authorized (log : List ClientEvent) (request : Request) : Prop :=
  (∃ jwt, Signed log jwt ∧ request.auth = "Bearer ".toList ++ jwt ∧
    ((∃ repo, targetRepo request.path = some repo ∧ request.path = lookupPath repo) ∨
      ∃ repo id, request.path = tokensPath id ∧ Named log repo id)) ∨
  ∃ repo id token, targetRepo request.path = some repo ∧ request.auth = "token ".toList ++ token ∧
    Named log repo id ∧ Issued log id token

section

variable {log log' : List ClientEvent}

theorem Answered.later {request : Request} {resp : HttpResponse} (h : Answered log request resp)
    (hlog : log <+: log') : Answered log' request resp := by
  obtain ⟨outcome, hmem, hseen, hstatus⟩ := h
  exact ⟨outcome, hlog.subset hmem, hseen, hstatus⟩

theorem Named.later {repo : Text} {id : Int} (h : Named log repo id) (hlog : log <+: log') : Named log' repo id := by
  obtain ⟨request, resp, hpath, hanswered, hid⟩ := h
  exact ⟨request, resp, hpath, hanswered.later hlog, hid⟩

theorem Issued.later {id : Int} {token : Text} (h : Issued log id token) (hlog : log <+: log') :
    Issued log' id token := by
  obtain ⟨request, resp, hpath, hanswered, htoken⟩ := h
  exact ⟨request, resp, hpath, hanswered.later hlog, htoken⟩

theorem Signed.later {jwt : Text} (h : Signed log jwt) (hlog : log <+: log') : Signed log' jwt := hlog.subset h

theorem Authorized.later {request : Request} (h : Authorized log request) (hlog : log <+: log') :
    Authorized log' request := by
  rcases h with ⟨jwt, hjwt, hauth, hpath⟩ | ⟨repo, id, token, hrepo, hauth, hnamed, hissued⟩
  · refine .inl ⟨jwt, hjwt.later hlog, hauth, hpath.imp_right ?_⟩
    rintro ⟨repo, id, hpath, hnamed⟩
    exact ⟨repo, id, hpath, hnamed.later hlog⟩
  · exact .inr ⟨repo, id, token, hrepo, hauth, hnamed.later hlog, hissued.later hlog⟩

end

theorem splitRepo_eq_some {owner name : Text} (h : '/' ∉ owner) :
    splitRepo (owner ++ '/' :: name) = some (owner, name) := by
  induction owner with
  | nil => rfl
  | cons c owner ih =>
    have hc : c ≠ '/' := fun hc => h (by simp [hc])
    have hrest : '/' ∉ owner := fun hmem => h (List.mem_cons_of_mem c hmem)
    rw [List.cons_append]
    simp [splitRepo, ih hrest]

theorem not_mem_of_splitRepo {repo owner name : Text} (h : splitRepo repo = some (owner, name)) : '/' ∉ owner := by
  induction repo generalizing owner with
  | nil => cases h
  | cons c rest ih =>
    by_cases hc : c = '/'
    · have hsplit : splitRepo (c :: rest) = some ([], rest) := by rw [hc, splitRepo]
      rw [hsplit] at h
      cases h
      simp
    · have hmap : splitRepo (c :: rest) = (splitRepo rest).map fun x => (c :: x.1, x.2) := by
        simp [splitRepo]
      rw [hmap] at h
      obtain ⟨⟨owner', name'⟩, hrest, hx⟩ := Option.map_eq_some_iff.mp h
      cases hx
      simp [ih hrest, Ne.symm hc]

/-- `repo_full_name` is "owner/name". -/
def FullName (repo : Text) : Prop := repo.count '/' ≤ 1

instance {repo : Text} : Decidable (FullName repo) := inferInstanceAs (Decidable (_ ≤ _))

theorem FullName.target {repo owner name suffix : Text} (hrepo : FullName repo)
    (h : splitRepo repo = some (owner, name)) (hsuffix : suffix.head? = none ∨ suffix.head? = some '/') :
    targetRepo (repoPath owner name ++ suffix) = some repo := by
  have hcount : repo.count '/' ≤ 1 := hrepo
  rw [← splitRepo_eq h, List.count_append, List.count_cons_self] at hcount
  have hname : ∀ c ∈ name, (c ≠ '/') = true := by
    intro c hc
    have hz : name.count '/' = 0 := by omega
    have hne : c ≠ '/' := fun he => List.count_eq_zero.mp hz (he ▸ hc)
    simp [hne]
  have hassoc : ∀ head : Text,
      (head ++ (owner ++ '/' :: name)) ++ suffix = head ++ (owner ++ '/' :: (name ++ suffix)) := by
    simp
  have hpath : repoPath owner name ++ suffix = "/repos/".toList ++ (owner ++ '/' :: (name ++ suffix)) := hassoc _
  have hprefix : "/repos/".toList.isPrefixOf (repoPath owner name ++ suffix) = true := by
    rw [hpath, List.isPrefixOf_iff_prefix]
    exact List.prefix_append _ _
  have hdrop : (repoPath owner name ++ suffix).drop 7 = owner ++ '/' :: (name ++ suffix) := by
    rw [hpath]
    exact List.drop_left' (by decide)
  have htake : (name ++ suffix).takeWhile (fun c => decide (c ≠ '/')) = name := by
    rw [List.takeWhile_append_of_pos fun c hc => by simpa using hname c hc]
    cases suffix with
    | nil => simp
    | cons c rest =>
      have hc : c = '/' := by simpa using hsuffix
      simp [hc]
  rw [targetRepo, if_pos hprefix, hdrop, splitRepo_eq_some (not_mem_of_splitRepo h), Option.map_some, htake,
    splitRepo_eq h]

theorem targetRepo_tokensPath (id : Int) : targetRepo (tokensPath id) = none := by
  have hno : ¬"/repos/".toList.isPrefixOf (tokensPath id) = true := by
    rw [show "/repos/".toList.isPrefixOf (tokensPath id) = false from rfl]
    exact Bool.false_ne_true
  rw [targetRepo, if_neg hno]

/-! The contract of the client. -/

def clientHost : Host ClientCall.Reply ClientChoice ClientWorld where
  exec := ClientCall.exec
  retries _ := false
  drift _ _ := False

abbrev LoggedClient : Type := ClientWorld × List ClientEvent

def ClientCall.permitted (log : List ClientEvent) : ClientCall → Prop
  | attempt request => Authorized log request
  | cacheId repo id => Named log repo id
  | cacheToken id token => Issued log id token
  | _ => True

/-- What the caches give out has been heard from GitHub. -/
def ClientCall.truthful (log : List ClientEvent) : (c : ClientCall) → c.Reply → Prop
  | cachedId repo, reply => ∀ id : Int, reply = some id → Named log repo id
  | cachedToken id, reply => ∀ token : Text, reply = some token → Issued log id token
  | _, _ => True

def tokenContract : Contract ClientCall.Reply LoggedClient where
  later w w' := w.2 <+: w'.2
  later_refl w := List.prefix_refl w.2
  later_trans h h' := h.trans h'
  permits c w := c.permitted w.2
  tells c r _ w := ⟨c, r⟩ ∈ w.2 ∧ c.truthful w.2 r

structure TokensKnown (w : LoggedClient) : Prop where
  ids : ∀ repo id, (repo, id) ∈ w.1.installationIds → Named w.2 repo id
  tokens : ∀ id x, (id, x) ∈ w.1.installationTokens → Issued w.2 id x.1
  sent : ∀ before request (outcome : Attempt), before ++ [⟨.attempt request, outcome⟩] <+: w.2 →
    Authorized before request

/-- Only `cacheId` and `cacheToken` add to the caches. -/
theorem exec_caches {c : ClientCall} {e : ClientChoice} {v v' : ClientWorld} {r : c.Reply}
    (h : c.exec e v = some (r, v')) :
    (∀ repo id, (repo, id) ∈ v'.installationIds → (repo, id) ∈ v.installationIds ∨ c = .cacheId repo id) ∧
    (∀ id x, (id, x) ∈ v'.installationTokens → (id, x) ∈ v.installationTokens ∨ c = .cacheToken id x.1) := by
  cases c with
  | cacheId repo id =>
    obtain rfl := congrArg Prod.snd (Option.some.inj h)
    refine ⟨fun repo' id' hmem => ?_, fun _ _ hmem => .inl hmem⟩
    rcases List.mem_cons.mp hmem with heq | hold
    · obtain ⟨rfl, rfl⟩ := Prod.mk.inj heq
      exact .inr rfl
    · exact .inl hold
  | cacheToken id token =>
    obtain rfl := congrArg Prod.snd (Option.some.inj h)
    refine ⟨fun _ _ hmem => .inl hmem, fun id' x hmem => ?_⟩
    rcases List.mem_cons.mp hmem with heq | hold
    · obtain ⟨rfl, rfl⟩ := Prod.mk.inj heq
      exact .inr rfl
    · exact .inl hold
  | _ =>
    obtain rfl := congrArg Prod.snd (Option.some.inj h)
    exact ⟨fun _ _ hmem => .inl hmem, fun _ _ hmem => .inl hmem⟩

theorem mem_of_lookup {α β : Type} [BEq α] [LawfulBEq α] {l : List (α × β)} {a : α} {b : β}
    (h : l.lookup a = some b) : (a, b) ∈ l := by
  induction l with
  | nil => cases h
  | cons x l ih =>
    rw [List.lookup_cons] at h
    split at h
    · next heq =>
      obtain rfl := Option.some.inj h
      rw [beq_iff_eq] at heq
      simp [heq]
    · exact List.mem_cons_of_mem x (ih h)

section

variable {w w' : LoggedClient}

theorem TokensKnown.extend {c : ClientCall} {r : c.Reply} (I : TokensKnown w) (hlog : w'.2 = w.2 ++ [⟨c, r⟩])
    (hpermitted : c.permitted w.2) (hids : ∀ repo id, (repo, id) ∈ w'.1.installationIds →
      (repo, id) ∈ w.1.installationIds ∨ c = .cacheId repo id)
    (htokens : ∀ id x, (id, x) ∈ w'.1.installationTokens →
      (id, x) ∈ w.1.installationTokens ∨ c = .cacheToken id x.1) : TokensKnown w' := by
  have hlater : w.2 <+: w'.2 := ⟨[⟨c, r⟩], hlog.symm⟩
  refine ⟨fun repo id h => ?_, fun id x h => ?_, fun before request outcome h => ?_⟩
  · rcases hids repo id h with hold | rfl
    · exact (I.ids repo id hold).later hlater
    · exact Named.later hpermitted hlater
  · rcases htokens id x h with hold | rfl
    · exact (I.tokens id x hold).later hlater
    · exact Issued.later hpermitted hlater
  · rw [hlog, List.prefix_concat_iff] at h
    rcases h with h | h
    · obtain ⟨rfl, hlast⟩ := List.append_inj' h rfl
      obtain ⟨rfl, _⟩ := Sigma.mk.inj (List.singleton_inj.mp hlast)
      exact hpermitted
    · exact I.sent before request outcome h

theorem honours_tokens : clientHost.logged.Honours tokenContract TokensKnown := by
  refine ⟨fun c e w r w' I hpermits he => ?_, fun w w' _ hd => hd.1.elim⟩
  obtain ⟨hexec, hlog⟩ := Host.exec_logged he
  have hpermitted : c.permitted w.2 := hpermits
  have hlater : w.2 <+: w'.2 := ⟨[⟨c, r⟩], hlog.symm⟩
  have hmem : ⟨c, r⟩ ∈ w'.2 := by
    rw [hlog]
    exact List.mem_concat_self
  have hexec' : ClientCall.exec c e w.1 = some (r, w'.1) := hexec
  obtain ⟨hids, htokens⟩ := exec_caches hexec'
  refine ⟨I.extend hlog hpermitted hids htokens, hlater, hmem, ?_⟩
  cases c with
  | cachedId repo =>
    obtain rfl := congrArg Prod.fst (Option.some.inj hexec')
    intro id hid
    exact (I.ids repo id (mem_of_lookup hid)).later hlater
  | cachedToken id =>
    obtain rfl := congrArg Prod.fst (Option.some.inj hexec')
    intro token htoken
    obtain ⟨x, hx, rfl⟩ := Option.map_eq_some_iff.mp htoken
    exact (I.tokens id x (mem_of_lookup (Option.filter_eq_some_iff.mp hx).1)).later hlater
  | _ => exact trivial

end

/-! What the operations keep to. -/

/-- Whatever happens beside it, `p` makes permitted calls, and what it returns meets `Q`. -/
def Gives {α : Type} (Q : α → LoggedClient → Prop) (p : ClientProg (Except ClientError α)) (w : LoggedClient) : Prop :=
  p.Keeps tokenContract (fun r w => ∀ a, r = .ok a → Q a w) w

section

variable {α β : Type} {Q : α → LoggedClient → Prop} {Q' : β → LoggedClient → Prop} {w : LoggedClient}

theorem Gives.error (e : ClientError) : Gives Q (.ret (.error e)) w := fun _ _ _ h => by cases h

theorem Gives.ok {a : α} (h : ∀ w', tokenContract.later w w' → Q a w') : Gives Q (.ret (.ok a)) w := by
  intro w' hw a' ha
  cases ha
  exact h w' hw

theorem Gives.andThen {p : ClientProg (Except ClientError α)} {f : α → ClientProg (Except ClientError β)}
    (h : Gives Q p w) (hf : ∀ a w', tokenContract.later w w' → Q a w' → Gives Q' (f a) w') :
    Gives Q' (p.andThen f) w := by
  refine Prog.Keeps.bind h fun r w' hw hr => ?_
  cases r with
  | error e => exact Gives.error e
  | ok a => exact hf a w' hw (hr a rfl)

/-- The calls that are always permitted. -/
theorem Gives.call {c : ClientCall} {k : c.Reply → ClientProg (Except ClientError α)}
    (hc : ∀ log, c.permitted log)
    (hk : ∀ r w', tokenContract.later w w' → ⟨c, r⟩ ∈ w'.2 ∧ c.truthful w'.2 r → Gives Q (k r) w') :
    Gives Q (.call c k) w :=
  Prog.Keeps.call (fun w' _ => hc w'.2) fun r _ w' hw hw' htells => hk r w' (hw.trans hw') htells

theorem gives_backoff {attempt : Nat} {next : ClientProg (Except ClientError α)} (h : Gives Q next w) :
    Gives Q (backoff attempt next) w := by
  unfold backoff
  split_ifs
  · exact Gives.call (fun _ => trivial) fun _ w' hw _ => h.later hw
  · exact h

theorem gives_sendLoop {request : Request} {left : Nat} {last : Option Cause} (h : Authorized w.2 request) :
    Gives (fun resp w => Answered w.2 request resp) (sendLoop request left last) w := by
  induction left generalizing last w with
  | zero => exact Gives.call (fun _ => trivial) fun _ _ _ _ => Gives.error _
  | succ left ih =>
    refine Prog.Keeps.call (fun w' hw => h.later hw) fun outcome w₁ w' hw₁ hw₂ htells => ?_
    have hw : w.2 <+: w'.2 := hw₁.trans hw₂
    have hnext : ∀ last, Gives (fun resp w => Answered w.2 request resp) (sendLoop request left last) w' :=
      fun last => ih (h.later hw)
    cases hseen : Attempt.seen outcome with
    | none => exact gives_backoff (hnext _)
    | some resp =>
      dsimp only
      split_ifs with hok hretry
      · refine Gives.call (fun _ => trivial) fun _ w'' hw' _ => Gives.ok fun w₁ hw₁ => ?_
        exact ⟨outcome, (hw'.trans hw₁).subset htells.1, hseen, hok⟩
      · exact gives_backoff (hnext _)
      · exact Gives.call (fun _ => trivial) fun _ _ _ _ => Gives.error _

theorem gives_send {request : Request} (h : Authorized w.2 request) :
    Gives (fun resp w => Answered w.2 request resp) (send request) w := by
  refine Gives.call (fun _ => trivial) fun admitted w' hw _ => ?_
  cases (admitted : Bool) with
  | true => exact gives_sendLoop (h.later hw)
  | false => exact Gives.error _

theorem gives_keepField {field : Option α} {cache : α → ClientCall}
    (hcache : ∀ x ∈ field, ∀ w', tokenContract.later w w' → (cache x).permitted w'.2 ∧ Q x w') :
    Gives Q (keepField field cache) w := by
  cases field with
  | none => exact Gives.error _
  | some x =>
    refine Prog.Keeps.call (fun w' hw => (hcache x rfl w' hw).1) fun _ w₁ w' hw hw' _ => ?_
    exact Gives.ok fun w₂ hw₂ => (hcache x rfl w₂ ((hw.trans hw').trans hw₂)).2

theorem lookupPath_eq {repo owner name : Text} (h : splitRepo repo = some (owner, name)) :
    repoPath owner name ++ "/installation".toList = lookupPath repo := by
  obtain rfl := splitRepo_eq h
  exact List.append_assoc "/repos/".toList (owner ++ '/' :: name) "/installation".toList

theorem gives_installationId {repo : Text} (hrepo : FullName repo) :
    Gives (fun id w => Named w.2 repo id) (installationId repo) w := by
  refine Gives.call (fun _ => trivial) fun cached w₁ _ htells => ?_
  cases hcached : (cached : Option Int) with
  | some id =>
    have hnamed : Named w₁.2 repo id := htells.2 id hcached
    exact Gives.ok fun w' hw => hnamed.later hw
  | none =>
    cases hsplit : splitRepo repo with
    | none => exact Gives.error _
    | some parts =>
      obtain ⟨owner, name⟩ := parts
      refine Gives.call (fun _ => trivial) fun jwt w₂ _ hjwt => ?_
      have hpath := lookupPath_eq hsplit
      have htarget : targetRepo (repoPath owner name ++ "/installation".toList) = some repo :=
        hrepo.target hsplit (.inr rfl)
      refine (gives_send (.inl ⟨jwt, hjwt.1, rfl, .inl ⟨repo, htarget, hpath⟩⟩)).andThen fun data w₃ _ hdata => ?_
      refine gives_keepField fun id hid w' hw => ?_
      have hnamed : Named w'.2 repo id := ⟨_, data, hpath, hdata.later hw, hid⟩
      exact ⟨hnamed, hnamed⟩

/-- `repo` and one of its tokens. -/
def TokenOf (log : List ClientEvent) (repo token : Text) : Prop := ∃ id, Named log repo id ∧ Issued log id token

theorem TokenOf.later {log log' : List ClientEvent} {repo token : Text} (h : TokenOf log repo token)
    (hlog : log <+: log') : TokenOf log' repo token := by
  obtain ⟨id, hnamed, hissued⟩ := h
  exact ⟨id, hnamed.later hlog, hissued.later hlog⟩

theorem gives_installationToken {repo : Text} (hrepo : FullName repo) :
    Gives (fun token w => TokenOf w.2 repo token) (installationToken repo) w := by
  refine (gives_installationId hrepo).andThen fun id w₁ _ hnamed => ?_
  refine Gives.call (fun _ => trivial) fun cached w₂ hw₂ htells => ?_
  have hnamed₂ : Named w₂.2 repo id := hnamed.later hw₂
  cases hcached : (cached : Option Text) with
  | some token =>
    have hissued : Issued w₂.2 id token := htells.2 token hcached
    exact Gives.ok fun w' hw => ⟨id, hnamed₂.later hw, hissued.later hw⟩
  | none =>
    refine Gives.call (fun _ => trivial) fun jwt w₃ hw₃ hjwt => ?_
    have hnamed₃ : Named w₃.2 repo id := hnamed₂.later hw₃
    refine (gives_send (.inl ⟨jwt, hjwt.1, rfl, .inr ⟨repo, id, rfl, hnamed₃⟩⟩)).andThen fun data w₄ hw₄ hdata => ?_
    refine gives_keepField fun token htoken w' hw => ?_
    have hissued : Issued w'.2 id token := ⟨_, data, rfl, hdata.later hw, htoken⟩
    exact ⟨hissued, id, hnamed₃.later (hw₄.trans hw), hissued⟩

/-- An operation on `repo` whose requests are below its path. -/
theorem gives_withToken {repo : Text} (hrepo : FullName repo) {request : Text → Text → Text → Request}
    {read : HttpResponse → ClientProg (Except ClientError α)}
    (hauth : ∀ owner name token, (request owner name token).auth = "token ".toList ++ token)
    (hpath : ∀ owner name token, ∃ suffix : Text, (suffix.head? = none ∨ suffix.head? = some '/') ∧
      (request owner name token).path = repoPath owner name ++ suffix)
    (hread : ∀ resp w, Gives Q (read resp) w) : Gives Q (withToken repo request read) w := by
  unfold withToken
  cases hsplit : splitRepo repo with
  | none => exact Gives.error _
  | some parts =>
    obtain ⟨owner, name⟩ := parts
    refine (gives_installationToken hrepo).andThen fun token w' _ htoken => ?_
    obtain ⟨id, hnamed, hissued⟩ := htoken
    obtain ⟨suffix, hsuffix, hsame⟩ := hpath owner name token
    have htarget : targetRepo (request owner name token).path = some repo := by
      rw [hsame]
      exact hrepo.target hsplit hsuffix
    refine (gives_send (.inr ⟨repo, id, token, htarget, hauth owner name token, hnamed, hissued⟩)).andThen ?_
    exact fun resp w'' _ _ => hread resp w''

theorem keeps_void {p : ClientProg (Except ClientError α)} (h : Gives Q p w) :
    p.void.Keeps tokenContract (fun _ _ => True) w :=
  Prog.Keeps.bind h fun _ _ _ _ => Prog.keeps_ret_iff.mpr fun _ _ => trivial

end

theorem reviewsPath_eq (owner name : Text) (prNumber : Int) : reviewsPath (repoPath owner name) prNumber =
    repoPath owner name ++ ("/pulls/".toList ++ intText prNumber ++ "/reviews".toList) := by
  have hassoc : ∀ a b c d : Text, a ++ b ++ c ++ d = a ++ (b ++ c ++ d) := by simp
  exact hassoc _ _ _ _

theorem gives_readField (json : Text → Text → Option Text) (key : Text) (data : HttpResponse) (w : LoggedClient) :
    Gives (fun _ _ => True) (readField json key data) w := by
  unfold readField
  cases json data.text key with
  | none => exact Gives.error _
  | some x => exact Gives.ok fun _ _ => trivial

theorem keeps_run (json : Text → Text → Option Text) {op : ClientOp} (hrepo : FullName op.repo) (w : LoggedClient) :
    (op.run json).Keeps tokenContract (fun _ _ => True) w := by
  cases op with
  | getPullRequestDiff repo prNumber =>
    refine keeps_void (Q := fun _ _ => True) (gives_withToken hrepo (fun _ _ _ => rfl) (fun _ _ _ => ?_) fun _ _ => ?_)
    · exact ⟨_, .inr rfl, rfl⟩
    · exact Gives.ok fun _ _ => trivial
  | getRepoHeadSha repo ref =>
    refine keeps_void (Q := fun _ _ => True) (Gives.andThen (Q := fun _ _ => True) ?_ fun resolvedRef w' _ _ => ?_)
    · split_ifs
      · refine gives_withToken hrepo (fun _ _ _ => rfl) (fun owner name _ => ?_) fun _ _ => gives_readField json _ _ _
        exact ⟨[], .inl rfl, (List.append_nil (repoPath owner name)).symm⟩
      · exact Gives.ok fun _ _ => trivial
    · refine gives_withToken hrepo (fun _ _ _ => rfl) (fun _ _ _ => ?_) fun _ _ => gives_readField json _ _ _
      exact ⟨_, .inr rfl, rfl⟩
  | downloadTarball repo ref =>
    refine keeps_void (Q := fun _ _ => True) (gives_withToken hrepo (fun _ _ _ => rfl) (fun _ _ _ => ?_) fun _ _ => ?_)
    · exact ⟨_, .inr rfl, rfl⟩
    · exact Gives.ok fun _ _ => trivial
  | postReview repo prNumber body event =>
    simp only [ClientOp.run, postReview_eq]
    refine keeps_void (Q := fun _ _ => True)
      (gives_withToken hrepo (fun _ _ _ => rfl) (fun owner name _ => ?_) fun resp _ => ?_)
    · exact ⟨_, .inr rfl, reviewsPath_eq owner name prNumber⟩
    · cases resp.id with
      | none => exact Gives.error _
      | some id => exact Gives.ok fun _ _ => trivial

/-- The calls that are made of a client. -/
def clientOps (json : Text → Text → Option Text) (p : ClientProg Unit) : Prop :=
  ∃ op : ClientOp, FullName op.repo ∧ p = op.run json

/-- Whatever operations share a client, in any interleaving, a request about a
repository bears a token that GitHub had issued for the installation it had
named for that repository, or it is the lookup of that installation; and it is
only the lookups and the token requests that are signed as the app. -/
theorem token_isolation {json : Text → Text → Option Text} {s : Pool LoggedClient (ClientProg Unit)}
    {cond : Pool LoggedClient (ClientProg Unit) → Label → Prop}
    (hrun : clientHost.logged.Run (clientOps json) cond ⟨(.fresh, []), []⟩ s) {before after : List ClientEvent}
    {request : Request} {outcome : Attempt} (hlog : s.world.2 = before ++ ⟨.attempt request, outcome⟩ :: after) :
    (∀ repo, targetRepo request.path = some repo → request.path ≠ lookupPath repo →
      ∃ id token, request.auth = "token ".toList ++ token ∧ Named before repo id ∧ Issued before id token) ∧
    ((∀ token, request.auth ≠ "token ".toList ++ token) → ∃ jwt, Signed before jwt ∧
      request.auth = "Bearer ".toList ++ jwt ∧ ((∃ repo, request.path = lookupPath repo) ∨
        ∃ repo id, request.path = tokensPath id ∧ Named before repo id)) := by
  have hstart : TokensKnown (.fresh, []) := by
    refine ⟨nofun, nofun, fun before request outcome h => ?_⟩
    have hlen := h.length_le
    simp at hlen
  have hspawns : ∀ (p : ClientProg Unit) (w : LoggedClient), clientOps json p → TokensKnown w →
      p.Keeps tokenContract (fun _ _ => True) w := by
    rintro p w ⟨op, hrepo, rfl⟩ _
    exact keeps_run json hrepo w
  obtain ⟨I, _, _⟩ := honours_tokens.run hspawns hrun hstart (fun p hp => by cases hp)
  have hauthorized : Authorized before request := I.sent before request outcome ⟨after, by simp [hlog]⟩
  rcases hauthorized with ⟨jwt, hjwt, hauth, hpath⟩ | ⟨repo, id, token, htarget, hauth, hnamed, hissued⟩
  · refine ⟨fun repo hrepo hno => ?_, fun _ => ⟨jwt, hjwt, hauth, hpath.imp_left fun ⟨r, _, hr⟩ => ⟨r, hr⟩⟩⟩
    rcases hpath with ⟨repo', htarget, hlookup⟩ | ⟨_, id, htokens, _⟩
    · obtain rfl := Option.some.inj (htarget.symm.trans hrepo)
      exact absurd hlookup hno
    · rw [htokens, targetRepo_tokensPath] at hrepo
      cases hrepo
  · refine ⟨fun repo' hrepo' _ => ?_, fun hno => absurd hauth (hno token)⟩
    obtain rfl := Option.some.inj (htarget.symm.trans hrepo')
    exact ⟨id, token, hauth, hnamed, hissued⟩

theorem exists_split_of_mem_attempts {log : List ClientEvent} {x : Request × Attempt} (h : x ∈ attempts log) :
    ∃ before after, log = before ++ ⟨.attempt x.1, x.2⟩ :: after := by
  obtain ⟨ev, hev, hx⟩ := List.mem_filterMap.mp h
  have hsame : ev = ⟨.attempt x.1, x.2⟩ := by
    obtain ⟨c, r⟩ := ev
    cases c with
    | attempt request =>
      obtain rfl := Option.some.inj hx
      rfl
    | _ => cases hx
  exact List.append_of_mem (hsame ▸ hev)

def noJson : Text → Text → Option Text := fun _ _ => none

def apiDiff : ClientOp := .getPullRequestDiff "acme/api".toList 7

def webDiff : ClientOp := .getPullRequestDiff "zeta/web".toList 3

def tokenAnswers (id : Int) (token : Text) : List ClientChoice :=
  [idle, idle, idle, choice (.success (some id) none), idle, idle] ++
    [idle, idle, idle, choice (.success none (some token)), idle, idle] ++ [idle, choice (.success none none)]

/-- Both operations at once, call by call in turn. -/
def bothDiffs : List (Host.Move ClientChoice (ClientProg Unit)) :=
  [.spawn (apiDiff.run noJson), .spawn (webDiff.run noJson)] ++
    ((tokenAnswers 31 "ghs_api".toList).zip (tokenAnswers 32 "ghs_web".toList)).flatMap fun x =>
      [.reply 0 x.1, .reply 1 x.2]

theorem token_isolation_two : ∃ s, clientHost.logged.Run (clientOps noJson) (fun _ _ => True) ⟨(.fresh, []), []⟩ s ∧
    ∃ x ∈ attempts s.world.2, x.1.path = "/repos/zeta/web/pulls/3".toList ∧ x.1.auth = "token ghs_web".toList ∧
      ∃ before id token, x.1.auth = "token ".toList ++ token ∧ Named before "zeta/web".toList id ∧
        Issued before id token := by
  obtain ⟨s, hs, hsent⟩ : ∃ s ∈ clientHost.logged.play ⟨(.fresh, []), []⟩ bothDiffs,
      (attempts s.world.2).any fun x => x.1.path = "/repos/zeta/web/pulls/3".toList &&
        x.1.auth = "token ghs_web".toList && targetRepo x.1.path = some "zeta/web".toList &&
        !(x.1.path = lookupPath "zeta/web".toList) := by
    decide +kernel
  have hrun : clientHost.logged.Run (clientOps noJson) (fun _ _ => True) ⟨(.fresh, []), []⟩ s := by
    refine Host.run_of_play (fun p hp => ?_) (fun _ _ => trivial) hs
    rcases List.mem_append.mp hp with hp | hp
    · simp only [List.mem_cons, Host.Move.spawn.injEq, List.not_mem_nil, or_false] at hp
      rcases hp with rfl | rfl
      · exact ⟨apiDiff, by decide, rfl⟩
      · exact ⟨webDiff, by decide, rfl⟩
    · obtain ⟨x, _, hx⟩ := List.mem_flatMap.mp hp
      simp at hx
  obtain ⟨x, hx, hgood⟩ := List.any_eq_true.mp hsent
  simp only [Bool.and_eq_true, Bool.not_eq_true', decide_eq_true_eq, decide_eq_false_iff_not] at hgood
  obtain ⟨⟨⟨hpath, hauth⟩, htarget⟩, hno⟩ := hgood
  obtain ⟨before, after, hlog⟩ := exists_split_of_mem_attempts hx
  obtain ⟨id, token, htoken, hnamed, hissued⟩ := (token_isolation hrun hlog).1 _ htarget hno
  exact ⟨s, hrun, x, hx, hpath, hauth, before, id, token, htoken, hnamed, hissued⟩

end AiPrReview.GitHub
