import AiPrReview.Pool
import AiPrReview.Reliability

/-! Concurrent calls through one `Guard`. The breaker keeps a counter and a
timestamp only: it knows neither which probes are out nor whose report it gets. -/

namespace AiPrReview

variable {α ε κ : Type}

/-- `saw` is what `before_call` told the call, and `rest` what is left of it. -/
structure OngoingCall (α ε κ : Type) : Type where
  saw : Option Admission
  rest : GuardProg α ε κ (CallResult α ε)

/-- Let through as a probe, and without report so far. -/
def OngoingCall.probing (x : OngoingCall α ε κ) : Bool := x.saw = some .probe && x.rest.next.isSome

@[simp] theorem OngoingCall.probing_call {saw : Option Admission} {c : GuardCall κ}
    {k : c.Reply α ε → GuardProg α ε κ (CallResult α ε)} :
    OngoingCall.probing ⟨saw, .call c k⟩ = decide (saw = some .probe) := Bool.and_true _

structure Traffic (α ε κ : Type) : Type where
  world : GuardWorld Reliability.CircuitBreaker
  calls : List (OngoingCall α ε κ)

inductive TrafficMove (α ε κ : Type) : Type where
  | start (op : κ) (name : Text)
  | reply (i : Nat) (e : GuardChoice α ε)

def GuardCall.seenAfter : (c : GuardCall κ) → c.Reply α ε → Option Admission → Option Admission
  | .beforeCall, admission, _ => some admission
  | _, _, saw => saw

namespace Traffic

def begin (b : Reliability.CircuitBreaker) (start : ℚ) : Traffic α ε κ := ⟨⟨b, start⟩, []⟩

def openedAt (s : Traffic α ε κ) : Option ℚ := s.world.breaker.openedAt

def probes (s : Traffic α ε κ) : Nat := s.calls.countP OngoingCall.probing

/-- A call starts, or one call of a started one is answered. -/
def move (g : Reliability.Guard ε) (s : Traffic α ε κ) : TrafficMove α ε κ → Option (Traffic α ε κ)
  | .start op name => some { s with calls := s.calls ++ [⟨none, g.call op name⟩] }
  | .reply i e =>
    match s.calls[i]? with
    | some ⟨saw, .call c k⟩ => (Reliability.breakerOps.exec c e s.world).map fun x =>
        ⟨x.2, s.calls.set i ⟨c.seenAfter x.1 saw, k x.1⟩⟩
    | _ => none

/-- Runs whose steps all meet `cond`, a condition on the state before the step
and on the move. -/
def Run (g : Reliability.Guard ε) (cond : Traffic α ε κ → TrafficMove α ε κ → Prop) :
    Traffic α ε κ → Traffic α ε κ → Prop :=
  Relation.ReflTransGen fun s s' => ∃ m, cond s m ∧ s.move g m = some s'

/-- At most one probe is out while the breaker is open, and none once it is closed. -/
structure OneProbe (s : Traffic α ε κ) : Prop where
  opened : s.openedAt ≠ none → s.probes ≤ 1
  closed : s.openedAt = none → s.probes = 0

/-- The step admits nothing during the cooldown, and closes the breaker only
through the success of a probe. -/
structure Orderly (s : Traffic α ε κ) (m : TrafficMove α ε κ) (s' : Traffic α ε κ) : Prop where
  cooldown : ∀ i e x x' t, m = .reply i e → s.calls[i]? = some x → x.rest.next = some .beforeCall →
    s'.calls[i]? = some x' → s.openedAt = some t → e.now - t < s.world.breaker.resetAfter →
    x'.saw = some .rejected
  closes : s.openedAt ≠ none → s'.openedAt = none → ∃ i e x, m = .reply i e ∧ s.calls[i]? = some x ∧
    x.rest.next = some .onSuccess ∧ x.probing = true

/-- No call asks an open breaker after the cooldown while a probe is out, and no
call but a probe reports a success to an open breaker. -/
def Careful (s : Traffic α ε κ) : TrafficMove α ε κ → Prop
  | .start .. => True
  | .reply i e => ∀ x ∈ s.calls[i]?, ∀ t ∈ s.openedAt,
    (x.rest.next = some .beforeCall → s.world.breaker.resetAfter ≤ e.now - t → s.probes = 0) ∧
    (x.rest.next = some .onSuccess → x.saw = some .probe)

instance [DecidableEq κ] (s : Traffic α ε κ) (m : TrafficMove α ε κ) : Decidable (s.Careful m) :=
  match m with
  | .start .. => isTrue trivial
  | .reply i e => inferInstanceAs (Decidable (∀ x ∈ s.calls[i]?, ∀ t ∈ s.openedAt,
      (x.rest.next = some .beforeCall → s.world.breaker.resetAfter ≤ e.now - t → s.probes = 0) ∧
      (x.rest.next = some .onSuccess → x.saw = some .probe)))

end Traffic

/-! How far a call has got. -/

inductive GuardMode : Type where
  | waiting
  | starting
  | within
  | ended
  deriving DecidableEq

def guardOutline (α ε κ : Type) : Outline (GuardCall.Reply α ε (κ := κ)) GuardMode where
  allows
    | .waiting, c => c = .beforeCall
    | .starting, c => c ≠ .beforeCall
    | .within, c => c ≠ .beforeCall
    | .ended, _ => False
  next
    | .waiting, .beforeCall, .rejected => .ended
    | .waiting, .beforeCall, _ => .starting
    | _, .onSuccess, _ => .ended
    | _, .onFailure, _ => .ended
    | _, _, _ => .within

/-- A call does not return before it has been asked, nor right after it was let in. -/
def mayReturn (m : GuardMode) : Prop := m = .within ∨ m = .ended

namespace Reliability.Guard

variable {g : Guard ε} {op : κ} {name : Text}

theorem retryLoop_follows (attempts : Nat) (baseDelay maxDelay : ℚ) (left : Nat) (last : Option (Exc ε))
    {m : GuardMode} (hm : m = .within ∨ (m = .starting ∧ 0 < left)) :
    (retryLoop (g.attempt op name) attempts baseDelay maxDelay g.retryOn left last).Follows
      (guardOutline α ε κ) (fun m' _ => m' = .within) m := by
  induction left generalizing last m with
  | zero =>
    have hwithin : m = .within := by simpa using hm
    cases last with
    | none => exact hwithin
    | some e => exact hwithin
  | succ left ih =>
    rw [retryLoop_succ]
    have hnext : ∀ o : Outcome α ε, (guardOutline α ε κ).next m (.attempt op) o = .within := by
      intro o
      rcases hm with rfl | ⟨rfl, _⟩ <;> rfl
    refine ⟨by rcases hm with rfl | ⟨rfl, _⟩ <;> exact nofun, fun o : Outcome α ε => ?_⟩
    rw [hnext]
    dsimp only
    cases g.seen name o with
    | returned a => exact rfl
    | cancelled => exact rfl
    | raised e =>
      by_cases hr : g.retryOn e = true
      · by_cases hs : attempts - (left + 1) < attempts - 1
        · simp only [hr, hs, if_true]
          refine ⟨nofun, fun slept : Bool => ?_⟩
          cases slept with
          | false => exact rfl
          | true => exact ih _ (.inl rfl)
        · simp only [hr, hs, if_true, if_false]
          exact ih _ (.inl rfl)
      · simp only [hr]
        exact rfl

theorem call_follows {breaker : Text} (hbreaker : g.breaker = some breaker) (hattempts : 1 ≤ g.attempts) :
    (g.call op name : GuardProg α ε κ (CallResult α ε)).Follows (guardOutline α ε κ)
      (fun m _ => mayReturn m) .waiting := by
  have hloop : (g.admitted op name : GuardProg α ε κ (CallResult α ε)).Follows (guardOutline α ε κ)
      (fun m _ => mayReturn m) .starting := by
    have hno : ¬g.attempts < 1 := by omega
    rw [admitted, retryAsync, if_neg hno]
    refine (retryLoop_follows g.attempts _ _ g.attempts none (.inr ⟨rfl, by omega⟩)).bind ?_
    rintro m o rfl
    cases o with
    | cancelled => exact .inl rfl
    | raised e =>
      simp only [hbreaker, Option.isSome_some, if_true]
      exact ⟨nofun, fun _ => .inr rfl⟩
    | returned a =>
      simp only [hbreaker, Option.isSome_some, if_true]
      exact ⟨nofun, fun _ => .inr rfl⟩
  rw [call, hbreaker]
  refine ⟨rfl, fun admission : Admission => ?_⟩
  cases admission with
  | rejected => exact .inr rfl
  | closed => exact hloop
  | probe => exact hloop

end Reliability.Guard

/-- The call is where its outline says, and it has been asked unless it waits. -/
def OngoingCall.Placed (x : OngoingCall α ε κ) : Prop :=
  ∃ m, x.rest.Follows (guardOutline α ε κ) (fun m' _ => mayReturn m') m ∧ (x.saw = none ↔ m = .waiting) ∧
    (x.saw = some .rejected → m = .ended)

namespace OngoingCall

variable {saw : Option Admission} {r : Unit}

theorem Placed.asked {k : Admission → GuardProg α ε κ (CallResult α ε)} (h : Placed ⟨saw, .call .beforeCall k⟩)
    (admission : Admission) : saw = none ∧ Placed ⟨some admission, k admission⟩ ∧
      (probing ⟨some admission, k admission⟩ = true ↔ admission = .probe) := by
  obtain ⟨m, hf, hsaw, _⟩ := h
  obtain rfl : m = .waiting := by
    cases m with
    | waiting => rfl
    | starting => exact absurd rfl hf.1
    | within => exact absurd rfl hf.1
    | ended => exact hf.1.elim
  refine ⟨hsaw.mpr rfl, ⟨_, hf.2 admission, ?_, ?_⟩, ?_⟩
  · cases admission <;> simp [guardOutline]
  · cases admission <;> simp [guardOutline]
  · cases admission with
    | closed => simp [probing]
    | rejected => simp [probing]
    | probe =>
      -- a probe that was just let in has a call to make
      have hnext := hf.2 Admission.probe
      cases hk : k .probe with
      | ret a =>
        rw [hk] at hnext
        rcases hnext with hno | hno <;> cases hno
      | call c k' => simp [probing]

theorem Placed.working {c : GuardCall κ} {k : c.Reply α ε → GuardProg α ε κ (CallResult α ε)}
    (h : Placed ⟨saw, .call c k⟩) (hask : c ≠ .beforeCall) (hs : c ≠ .onSuccess) (hf : c ≠ .onFailure)
    (r : c.Reply α ε) : Placed ⟨saw, k r⟩ := by
  obtain ⟨m, hfollows, hsaw, hrejected⟩ := h
  have hm : m ≠ .waiting ∧ m ≠ .ended := by
    refine ⟨?_, ?_⟩
    · rintro rfl
      exact hask hfollows.1
    · rintro rfl
      exact hfollows.1
  have hnext : (guardOutline α ε κ).next m c r = .within := by
    cases c with
    | beforeCall => exact absurd rfl hask
    | onSuccess => exact absurd rfl hs
    | onFailure => exact absurd rfl hf
    | attempt op => cases m <;> rfl
    | sleep seconds => cases m <;> rfl
  refine ⟨.within, hnext ▸ hfollows.2 r, ?_, fun hr => absurd (hrejected hr) hm.2⟩
  exact iff_of_false (fun hn => hm.1 (hsaw.mp hn)) nofun

theorem Placed.reported {c : GuardCall κ} {k : c.Reply α ε → GuardProg α ε κ (CallResult α ε)}
    (h : Placed ⟨saw, .call c k⟩) (hc : c = .onSuccess ∨ c = .onFailure) (r : c.Reply α ε) :
    Placed ⟨saw, k r⟩ ∧ probing ⟨saw, k r⟩ = false := by
  obtain ⟨m, hfollows, hsaw, hrejected⟩ := h
  have hm : m ≠ .waiting ∧ m ≠ .ended := by
    refine ⟨?_, ?_⟩
    · rintro rfl
      have hask : c = .beforeCall := hfollows.1
      rcases hc with rfl | rfl <;> cases hask
    · rintro rfl
      exact hfollows.1
  have hnext : (guardOutline α ε κ).next m c r = .ended := by
    rcases hc with rfl | rfl <;> cases m <;> rfl
  have hover := hfollows.2 r
  rw [hnext] at hover
  refine ⟨⟨.ended, hover, ?_, fun _ => rfl⟩, ?_⟩
  · exact iff_of_false (fun hn => hm.1 (hsaw.mp hn)) nofun
  · cases hk : k r with
    | ret a => simp [probing]
    | call c' k' =>
      rw [hk] at hover
      exact hover.1.elim

end OngoingCall

namespace Traffic

variable {g : Reliability.Guard ε} {s s' : Traffic α ε κ} {m : TrafficMove α ε κ} {i : Nat} {e : GuardChoice α ε}

theorem move_reply_inv (h : s.move g (.reply i e) = some s') :
    ∃ saw c k r w, s.calls[i]? = some ⟨saw, .call c k⟩ ∧ Reliability.breakerOps.exec c e s.world = some (r, w) ∧
      s' = ⟨w, s.calls.set i ⟨c.seenAfter r saw, k r⟩⟩ := by
  simp only [move] at h
  split at h
  · next saw c k hi =>
    obtain ⟨⟨r, w⟩, hexec, rfl⟩ := Option.map_eq_some_iff.mp h
    exact ⟨saw, c, k, r, w, hi, hexec, rfl⟩
  · cases h

theorem probes_set {x : OngoingCall α ε κ} (x' : OngoingCall α ε κ) (w : GuardWorld Reliability.CircuitBreaker)
    (hi : s.calls[i]? = some x) : (⟨w, s.calls.set i x'⟩ : Traffic α ε κ).probes + (if x.probing then 1 else 0) =
      s.probes + (if x'.probing then 1 else 0) := by
  obtain ⟨hlt, hx⟩ := List.getElem?_eq_some_iff.mp hi
  have hpos : (if x.probing then 1 else 0) ≤ s.calls.countP OngoingCall.probing := by
    by_cases hp : x.probing = true
    · have hmem : 0 < s.calls.countP OngoingCall.probing :=
        List.countP_pos_iff.mpr ⟨x, List.mem_of_getElem? hi, hp⟩
      simpa [hp] using hmem
    · simp [hp]
  show (s.calls.set i x').countP _ + _ = s.calls.countP _ + _
  rw [List.countP_set hlt, hx]
  omega

theorem probes_set_le {x x' : OngoingCall α ε κ} {w : GuardWorld Reliability.CircuitBreaker}
    (hi : s.calls[i]? = some x) (hx : x'.probing = true → x.probing = true) :
    (⟨w, s.calls.set i x'⟩ : Traffic α ε κ).probes ≤ s.probes := by
  have hprobes := probes_set x' w hi
  by_cases hp : x'.probing = true
  · rw [if_pos hp, if_pos (hx hp)] at hprobes
    omega
  · rw [if_neg hp] at hprobes
    omega

theorem placed_set {x : OngoingCall α ε κ} (h : ∀ y ∈ s.calls, y.Placed) (hx : x.Placed) :
    ∀ y ∈ s.calls.set i x, y.Placed := by
  intro y hy
  rcases List.mem_or_eq_of_mem_set hy with hy | rfl
  · exact h y hy
  · exact hx

theorem placed_step {breaker : Text} (hbreaker : g.breaker = some breaker) (hattempts : 1 ≤ g.attempts)
    (h : ∀ x ∈ s.calls, x.Placed) (hm : s.move g m = some s') : ∀ x ∈ s'.calls, x.Placed := by
  cases m with
  | start op name =>
    obtain rfl := Option.some.inj hm
    intro x hx
    rcases List.mem_append.mp hx with hx | hx
    · exact h x hx
    · obtain rfl := List.mem_singleton.mp hx
      exact ⟨.waiting, Reliability.Guard.call_follows hbreaker hattempts, iff_of_true rfl rfl, nofun⟩
  | reply i e =>
    obtain ⟨saw, c, k, r, w, hi, _, rfl⟩ := move_reply_inv hm
    have hx := h _ (List.mem_of_getElem? hi)
    apply placed_set h
    cases c with
    | beforeCall => exact (hx.asked r).2.1
    | attempt op => exact hx.working nofun nofun nofun r
    | sleep seconds => exact hx.working nofun nofun nofun r
    | onSuccess => exact (hx.reported (.inl rfl) r).1
    | onFailure => exact (hx.reported (.inr rfl) r).1

theorem OneProbe.shrink (h : s.OneProbe) (hle : s'.probes ≤ s.probes)
    (hopen : s'.openedAt = none → s.openedAt = none) : s'.OneProbe := by
  refine ⟨fun _ => hle.trans ?_, fun hc => Nat.le_zero.mp ((h.closed (hopen hc)) ▸ hle)⟩
  by_cases ho : s.openedAt = none
  · rw [h.closed ho]
    exact Nat.zero_le 1
  · exact h.opened ho

theorem orderly_of_stays {x : OngoingCall α ε κ} (hi : s.calls[i]? = some x)
    (hnext : x.rest.next ≠ some .beforeCall) (hopen : s'.openedAt = none → s.openedAt = none) :
    s.Orderly (.reply i e) s' := by
  refine ⟨fun i' e' x' _ _ hm hx hask _ _ _ => ?_, fun ho hc => absurd (hopen hc) ho⟩
  obtain ⟨rfl, rfl⟩ := TrafficMove.reply.inj hm
  obtain rfl := Option.some.inj (hi.symm.trans hx)
  exact absurd hask hnext

theorem careful_of_next {x : OngoingCall α ε κ} (hi : s.calls[i]? = some x)
    (hask : x.rest.next ≠ some .beforeCall) (hreport : x.rest.next ≠ some .onSuccess) :
    s.Careful (.reply i e) := by
  intro y hy t _
  obtain rfl := Option.some.inj (hi.symm.trans hy)
  exact ⟨fun h => absurd h hask, fun h => absurd h hreport⟩

section

variable {saw : Option Admission} {w : GuardWorld Reliability.CircuitBreaker}

theorem step_working {c : GuardCall κ} {k : c.Reply α ε → GuardProg α ε κ (CallResult α ε)} {r : c.Reply α ε}
    (h : s.OneProbe) (hi : s.calls[i]? = some ⟨saw, .call c k⟩) (hask : c ≠ .beforeCall) (hs : c ≠ .onSuccess)
    (hopen : w.breaker.openedAt = none → s.openedAt = none) :
    ((⟨w, s.calls.set i ⟨saw, k r⟩⟩ : Traffic α ε κ).OneProbe ∧
      s.Orderly (.reply i e) ⟨w, s.calls.set i ⟨saw, k r⟩⟩) ↔ s.Careful (.reply i e) := by
  have hle : (⟨w, s.calls.set i ⟨saw, k r⟩⟩ : Traffic α ε κ).probes ≤ s.probes := by
    refine probes_set_le hi fun hp => ?_
    rw [OngoingCall.probing, Bool.and_eq_true] at hp
    simpa using hp.1
  have hnext : ∀ c', c ≠ c' → (⟨saw, .call c k⟩ : OngoingCall α ε κ).rest.next ≠ some c' := by
    intro c' hne he
    exact hne (Option.some.inj he)
  exact iff_of_true ⟨h.shrink hle hopen, orderly_of_stays hi (hnext _ hask) hopen⟩
    (careful_of_next hi (hnext _ hask) (hnext _ hs))

/-- The breaker's own answer keeps to the cooldown, so asking is always orderly. -/
theorem orderly_of_asked {k : Admission → GuardProg α ε κ (CallResult α ε)} {r : Admission}
    (hi : s.calls[i]? = some ⟨saw, .call .beforeCall k⟩) (hr : s.world.breaker.beforeCall e.now = r)
    (hw : w.breaker = s.world.breaker) : s.Orderly (.reply i e) ⟨w, s.calls.set i ⟨some r, k r⟩⟩ := by
  constructor
  · intro i' e' x x' t hm _ _ hx' ht hlt
    obtain ⟨rfl, rfl⟩ := TrafficMove.reply.inj hm
    obtain ⟨hlen, _⟩ := List.getElem?_eq_some_iff.mp hi
    rw [List.getElem?_set_self hlen] at hx'
    have hrejected : r = .rejected := by
      rw [← hr, Reliability.CircuitBreaker.beforeCall_of_opened ht, if_neg (not_le.mpr hlt)]
    rw [← Option.some.inj hx', hrejected]
  · intro ho hc
    have hsame : (⟨w, s.calls.set i ⟨some r, k r⟩⟩ : Traffic α ε κ).openedAt = s.openedAt :=
      congrArg Reliability.CircuitBreaker.openedAt hw
    exact absurd (hsame.symm.trans hc) ho

theorem step_asked {k : Admission → GuardProg α ε κ (CallResult α ε)} {r : Admission}
    (h : s.OneProbe) (hi : s.calls[i]? = some ⟨saw, .call .beforeCall k⟩)
    (hx : OngoingCall.Placed ⟨saw, .call .beforeCall k⟩) (hr : s.world.breaker.beforeCall e.now = r)
    (hw : w.breaker = s.world.breaker) :
    ((⟨w, s.calls.set i ⟨some r, k r⟩⟩ : Traffic α ε κ).OneProbe ∧
      s.Orderly (.reply i e) ⟨w, s.calls.set i ⟨some r, k r⟩⟩) ↔ s.Careful (.reply i e) := by
  have horderly := orderly_of_asked hi hr hw
  obtain ⟨rfl, _, hprobe⟩ := hx.asked r
  have hsame : (⟨w, s.calls.set i ⟨some r, k r⟩⟩ : Traffic α ε κ).openedAt = s.openedAt :=
    congrArg Reliability.CircuitBreaker.openedAt hw
  have hidle : OngoingCall.probing (⟨none, .call .beforeCall k⟩ : OngoingCall α ε κ) = false := rfl
  have hprobes := probes_set ⟨some r, k r⟩ w hi
  simp only [hidle, Bool.false_eq_true, if_false, hprobe, Nat.add_zero] at hprobes
  cases ho : s.openedAt with
  | none =>
    have hno : r ≠ .probe := by
      rw [← hr, Reliability.CircuitBreaker.beforeCall_of_closed ho]
      exact nofun
    rw [if_neg hno] at hprobes
    refine iff_of_true ⟨h.shrink hprobes.le fun _ => ho, horderly⟩ fun y _ t ht => ?_
    rw [ho] at ht
    cases ht
  | some t =>
    rw [Reliability.CircuitBreaker.beforeCall_of_opened ho] at hr
    by_cases hc : s.world.breaker.resetAfter ≤ e.now - t
    · rw [if_pos hc] at hr
      rw [if_pos hr.symm] at hprobes
      constructor
      · rintro ⟨hone, _⟩ y hy t' _
        obtain rfl := Option.some.inj (hi.symm.trans hy)
        refine ⟨fun _ _ => ?_, nofun⟩
        have hle := hone.opened (by rw [hsame, ho]; exact nofun)
        omega
      · intro hcareful
        have hzero := (hcareful _ hi t ho).1 rfl hc
        exact ⟨⟨fun _ => by omega, fun hn => by rw [hsame, ho] at hn; cases hn⟩, horderly⟩
    · rw [if_neg hc] at hr
      have hno : r ≠ .probe := by
        rw [← hr]
        exact nofun
      rw [if_neg hno] at hprobes
      refine iff_of_true ⟨h.shrink hprobes.le fun hn => hsame.symm.trans hn, horderly⟩ fun y hy t' ht' => ?_
      obtain rfl := Option.some.inj (hi.symm.trans hy)
      obtain rfl := Option.some.inj (ho.symm.trans ht')
      exact ⟨fun _ hover => absurd hover hc, nofun⟩

theorem step_succeeded {k : Unit → GuardProg α ε κ (CallResult α ε)}
    (h : s.OneProbe) (hi : s.calls[i]? = some ⟨saw, .call .onSuccess k⟩)
    (hx : OngoingCall.probing ⟨saw, k ()⟩ = false) (hw : w.breaker.openedAt = none) :
    ((⟨w, s.calls.set i ⟨saw, k ()⟩⟩ : Traffic α ε κ).OneProbe ∧
      s.Orderly (.reply i e) ⟨w, s.calls.set i ⟨saw, k ()⟩⟩) ↔ s.Careful (.reply i e) := by
  have hprobes := probes_set ⟨saw, k ()⟩ w hi
  have hprobing : OngoingCall.probing (⟨saw, .call .onSuccess k⟩ : OngoingCall α ε κ) = decide (saw = some .probe) :=
    OngoingCall.probing_call
  rw [hx, hprobing] at hprobes
  simp only [decide_eq_true_eq, Bool.false_eq_true, if_false, Nat.add_zero] at hprobes
  have hask : (⟨saw, .call .onSuccess k⟩ : OngoingCall α ε κ).rest.next ≠ some .beforeCall := nofun
  by_cases ho : s.openedAt = none
  · have hle : (⟨w, s.calls.set i ⟨saw, k ()⟩⟩ : Traffic α ε κ).probes ≤ s.probes := by omega
    refine iff_of_true ⟨h.shrink hle fun _ => ho, orderly_of_stays hi hask fun _ => ho⟩ fun y _ t ht => ?_
    rw [ho] at ht
    cases ht
  · constructor
    · rintro ⟨_, horderly⟩ y hy t _
      obtain rfl := Option.some.inj (hi.symm.trans hy)
      refine ⟨nofun, fun _ => ?_⟩
      obtain ⟨i', e', x, hm, hx', _, hp⟩ := horderly.closes ho hw
      obtain ⟨rfl, rfl⟩ := TrafficMove.reply.inj hm
      obtain rfl := Option.some.inj (hi.symm.trans hx')
      exact of_decide_eq_true (hprobing.symm.trans hp)
    · intro hcareful
      obtain ⟨t, ht⟩ := Option.ne_none_iff_exists'.mp ho
      have hsaw := (hcareful _ hi t ht).2 rfl
      have hone := h.opened ho
      have hsaw' : saw = some .probe := hsaw
      rw [if_pos hsaw'] at hprobes
      refine ⟨⟨fun _ => by omega, fun _ => by omega⟩, ⟨?_, fun _ _ => ⟨i, e, _, rfl, hi, rfl, ?_⟩⟩⟩
      · intro i' e' x x' t' hm hx' hnext _ _ _
        obtain ⟨rfl, rfl⟩ := TrafficMove.reply.inj hm
        obtain rfl := Option.some.inj (hi.symm.trans hx')
        exact absurd hnext hask
      · exact hprobing.trans (decide_eq_true hsaw')

end

theorem oneProbe_step (hplaced : ∀ x ∈ s.calls, x.Placed) (h : s.OneProbe) (hm : s.move g m = some s') :
    (s'.OneProbe ∧ s.Orderly m s') ↔ s.Careful m := by
  cases m with
  | start op name =>
    obtain rfl := Option.some.inj hm
    have hprobes : (⟨s.world, s.calls ++ [⟨none, g.call op name⟩]⟩ : Traffic α ε κ).probes = s.probes := by
      simp [probes, OngoingCall.probing]
    refine iff_of_true ⟨h.shrink hprobes.le id, ?_⟩ trivial
    refine ⟨fun i e x x' t he => ?_, fun ho hc => absurd hc ho⟩
    cases he
  | reply i e =>
    obtain ⟨saw, c, k, r, w, hi, hexec, rfl⟩ := move_reply_inv hm
    have hx := hplaced _ (List.mem_of_getElem? hi)
    obtain ⟨_, hanswer, _⟩ := BreakerOps.exec_eq_some_iff.mp hexec
    have hbreaker : (Reliability.breakerOps.answer s.world.breaker e c).2 = w.breaker := congrArg Prod.snd hanswer
    cases c with
    | beforeCall => exact step_asked h hi hx (congrArg Prod.fst hanswer) hbreaker.symm
    | attempt op => exact step_working h hi nofun nofun fun hn => by rw [openedAt, ← hn]; exact congrArg _ hbreaker
    | sleep seconds => exact step_working h hi nofun nofun fun hn => by rw [openedAt, ← hn]; exact congrArg _ hbreaker
    | onSuccess => exact step_succeeded h hi (hx.reported (.inl rfl) ()).2 (by rw [← hbreaker]; rfl)
    | onFailure =>
      refine step_working h hi nofun nofun fun hn => ?_
      rw [← hbreaker] at hn
      simp only [BreakerOps.answer, Reliability.breakerOps, Reliability.CircuitBreaker.onFailure] at hn
      split_ifs at hn
      exact hn

/-- One probe at a time in every run whose steps are careful, and the steps that
are not are those after which it fails. -/
theorem one_probe {breaker : Text} {threshold : Nat} {cooldown start : ℚ} (hbreaker : g.breaker = some breaker)
    (hattempts : 1 ≤ g.attempts)
    (h : Run g Careful (begin ⟨breaker, threshold, cooldown, 0, none⟩ start) s) :
    s.OneProbe ∧ ∀ m s', s.move g m = some s' → ((s'.OneProbe ∧ s.Orderly m s') ↔ s.Careful m) := by
  have hinv : (∀ x ∈ s.calls, x.Placed) ∧ s.OneProbe := by
    induction h with
    | refl => exact ⟨fun x hx => by simp [begin] at hx, fun ho => absurd rfl ho, fun _ => rfl⟩
    | tail _ hstep ih =>
      obtain ⟨m, hcareful, hm⟩ := hstep
      exact ⟨placed_step hbreaker hattempts ih.1 hm, ((oneProbe_step ih.1 ih.2 hm).mpr hcareful).1⟩
  exact ⟨hinv.2, fun m s' hm => oneProbe_step hinv.1 hinv.2 hm⟩

/-! Runs by their moves. -/

def play (g : Reliability.Guard ε) (cond : Traffic α ε κ → TrafficMove α ε κ → Bool) (s : Traffic α ε κ)
    (moves : List (TrafficMove α ε κ)) : Option (Traffic α ε κ) :=
  moves.foldlM (fun s m => if cond s m then s.move g m else none) s

theorem run_of_play {cond : Traffic α ε κ → TrafficMove α ε κ → Bool} {moves : List (TrafficMove α ε κ)}
    (h : s.play g cond moves = some s') : Run g (fun s m => cond s m = true) s s' := by
  induction moves generalizing s with
  | nil =>
    obtain rfl := Option.some.inj h
    exact .refl
  | cons m moves ih =>
    simp only [play, List.foldlM_cons, Option.bind_eq_bind] at h
    obtain ⟨s₁, hs₁, hrest⟩ := Option.bind_eq_some_iff.mp h
    split_ifs at hs₁ with hc
    exact .head ⟨m, hc, hs₁⟩ (ih hrest)

theorem Run.mono {cond cond' : Traffic α ε κ → TrafficMove α ε κ → Prop} (hc : ∀ s m, cond s m → cond' s m)
    (h : Run g cond s s') : Run g cond' s s' :=
  Relation.ReflTransGen.mono (fun _ _ ⟨m, hm, hs⟩ => ⟨m, hc _ m hm, hs⟩) _ _ h

def lone : Reliability.Guard Unit := ⟨some "llm".toList, 1, 1 / 10, none, fun _ => true⟩

/-- The breaker opens with the first failure. -/
def closedBreaker : Reliability.CircuitBreaker := ⟨"llm".toList, 1, 30, 0, none⟩

def idle : Traffic Unit Unit Unit := begin closedBreaker 0

def answered (i : Nat) (now : ℚ) (outcome : Outcome Unit Unit) : TrafficMove Unit Unit Unit :=
  .reply i ⟨now, outcome, true⟩

def opening : List (TrafficMove Unit Unit Unit) :=
  [.start () [], answered 0 0 .cancelled, answered 0 1 (.raised (.other ())), answered 0 2 .cancelled]

theorem one_probe_fails : ∃ s, Run lone Careful idle s ∧ s.openedAt = some 34 ∧ s.OneProbe := by
  obtain ⟨s, hs, hopen⟩ : ∃ s ∈ idle.play lone (fun s m => decide (s.Careful m))
      (opening ++ [.start () [], answered 1 32 .cancelled, answered 1 33 (.raised (.other ())),
        answered 1 34 .cancelled]),
      s.openedAt = some 34 := by
    decide +kernel
  have hrun : Run lone Careful idle s :=
    (run_of_play hs).mono fun _ _ hc => of_decide_eq_true hc
  exact ⟨s, hrun, hopen, (one_probe rfl (by decide) hrun).1⟩

/-- After the cooldown two calls are let through together; and the success of a
call from before the failure closes the breaker. -/
theorem two_probes_and_late_success :
    (∃ s, Run lone (fun _ _ => True) idle s ∧ s.openedAt = some 2 ∧ s.probes = 2) ∧
    ∃ s m s', Run lone (fun _ _ => True) idle s ∧ s.move lone m = some s' ∧ ¬s.Orderly m s' := by
  have htrue : ∀ (s : Traffic Unit Unit Unit) moves s', s.play lone (fun _ _ => true) moves = some s' →
      Run lone (fun _ _ => True) s s' := fun s moves s' h => (run_of_play h).mono fun _ _ _ => trivial
  constructor
  · obtain ⟨s, hs, hopen⟩ : ∃ s ∈ idle.play lone (fun _ _ => true)
        (opening ++ [.start () [], .start () [], answered 1 32 .cancelled, answered 2 33 .cancelled]),
        s.openedAt = some 2 ∧ s.probes = 2 := by
      decide +kernel
    exact ⟨s, htrue _ _ _ hs, hopen⟩
  · obtain ⟨s, hs, hopen, hcall, s', hs', hclosed⟩ : ∃ s ∈ idle.play lone (fun _ _ => true)
        [.start () [], .start () [], answered 0 0 .cancelled, answered 1 0 .cancelled,
          answered 0 1 (.raised (.other ())), answered 0 2 .cancelled, answered 1 3 (.returned ())],
        s.openedAt = some 2 ∧ (s.calls[1]?).all (fun x => !x.probing) = true ∧
        ∃ s' ∈ s.move lone (answered 1 4 .cancelled), s'.openedAt = none := by
      decide +kernel
    refine ⟨s, answered 1 4 .cancelled, s', htrue _ _ _ hs, hs', fun horderly => ?_⟩
    obtain ⟨i, e, x, hm, hx, _, hp⟩ := horderly.closes (by rw [hopen]; exact nofun) hclosed
    obtain ⟨rfl, _⟩ := TrafficMove.reply.inj hm
    rw [hx] at hcall
    simp [hp] at hcall

end Traffic

end AiPrReview
