import Mathlib.Data.Multiset.MapFold
import Mathlib.Order.Bounds.Basic

/-! Pairing the entries of one list with those of another, one entry at a time. Each
entry takes the first one left that it is related to, and nothing is taken back. -/

namespace AiPrReview.Matching

open Multiset

variable {α β : Type} {R : α → β → Bool}

/-- Related pairs that use no entry of `as` and no entry of `bs` twice. -/
structure Pairing (R : α → β → Bool) (as : Multiset α) (bs : Multiset β) (pairs : Multiset (α × β)) : Prop where
  lefts : pairs.map Prod.fst ≤ as
  rights : pairs.map Prod.snd ≤ bs
  related : ∀ p ∈ pairs, R p.1 p.2 = true

/-- The numbers of entries that can be paired. -/
def sizes (R : α → β → Bool) (as : Multiset α) (bs : Multiset β) : Set ℕ :=
  {n | ∃ pairs, Pairing R as bs pairs ∧ pairs.card = n}

namespace Pairing

variable {as : Multiset α} {bs : Multiset β} {a : α} {b : β} {pairs : Multiset (α × β)}

theorem nil (R : α → β → Bool) (as : Multiset α) (bs : Multiset β) : Pairing R as bs 0 :=
  ⟨Multiset.zero_le as, Multiset.zero_le bs, fun p hp => absurd hp (Multiset.notMem_zero p)⟩

theorem cons (h : Pairing R as bs pairs) (hab : R a b = true) :
    Pairing R (a ::ₘ as) (b ::ₘ bs) ((a, b) ::ₘ pairs) := by
  constructor
  · rw [map_cons]
    exact cons_le_cons a h.lefts
  · rw [map_cons]
    exact cons_le_cons b h.rights
  · intro p hp
    rcases mem_cons.mp hp with rfl | hp
    · exact hab
    · exact h.related p hp

theorem mono {as' : Multiset α} {bs' : Multiset β} (h : Pairing R as bs pairs) (has : as ≤ as') (hbs : bs ≤ bs') :
    Pairing R as' bs' pairs :=
  ⟨h.lefts.trans has, h.rights.trans hbs, h.related⟩

theorem of_unrelated (h : Pairing R (a ::ₘ as) bs pairs) (hno : ∀ b ∈ bs, R a b = false) :
    Pairing R as bs pairs := by
  have ha : a ∉ pairs.map Prod.fst := by
    intro ha
    obtain ⟨p, hp, rfl⟩ := mem_map.mp ha
    have hright : p.2 ∈ bs := mem_of_le h.rights (mem_map_of_mem Prod.snd hp)
    have hh := h.related p hp
    rw [hno p.2 hright] at hh
    cases hh
  exact ⟨(le_cons_of_notMem ha).mp h.lefts, h.rights, h.related⟩

theorem drop_left (h : Pairing R (a ::ₘ as) bs pairs) :
    ∃ rest, Pairing R as bs rest ∧ pairs.card ≤ rest.card + 1 := by
  by_cases ha : a ∈ pairs.map Prod.fst
  · obtain ⟨p, hp, rfl⟩ := mem_map.mp ha
    obtain ⟨rest, rfl⟩ := exists_cons_of_mem hp
    have hl := h.lefts
    have hr := h.rights
    rw [map_cons] at hl hr
    refine ⟨rest, ⟨(cons_le_cons_iff p.1).mp hl, (le_cons_self _ _).trans hr, ?_⟩, (card_cons p rest).le⟩
    exact fun q hq => h.related q (mem_cons_of_mem hq)
  · exact ⟨pairs, ⟨(le_cons_of_notMem ha).mp h.lefts, h.rights, h.related⟩, Nat.le_succ _⟩

theorem drop_right (h : Pairing R as (b ::ₘ bs) pairs) :
    ∃ rest, Pairing R as bs rest ∧ pairs.card ≤ rest.card + 1 := by
  by_cases hb : b ∈ pairs.map Prod.snd
  · obtain ⟨p, hp, rfl⟩ := mem_map.mp hb
    obtain ⟨rest, rfl⟩ := exists_cons_of_mem hp
    have hl := h.lefts
    have hr := h.rights
    rw [map_cons] at hl hr
    refine ⟨rest, ⟨(le_cons_self _ _).trans hl, (cons_le_cons_iff p.2).mp hr, ?_⟩, (card_cons p rest).le⟩
    exact fun q hq => h.related q (mem_cons_of_mem hq)
  · exact ⟨pairs, ⟨h.lefts, (le_cons_of_notMem hb).mp h.rights, h.related⟩, Nat.le_succ _⟩

/-- Pairing `a` with `b` costs one pair at most, if what shares `b` with `a` can take
whatever `a` had. -/
theorem exchange (h : Pairing R (a ::ₘ as) (b ::ₘ bs) pairs) (hab : R a b = true)
    (hshare : ∀ x ∈ as, R x b = true → ∀ c ∈ bs, R a c = true → R x c = true) :
    ∃ rest, Pairing R as bs rest ∧ pairs.card ≤ rest.card + 1 := by
  by_cases ha : a ∈ pairs.map Prod.fst
  · obtain ⟨⟨a, c⟩, hp, rfl⟩ := mem_map.mp ha
    obtain ⟨others, rfl⟩ := exists_cons_of_mem hp
    have hl := h.lefts
    have hr := h.rights
    rw [map_cons] at hl hr
    have hothers : ∀ q ∈ others, R q.1 q.2 = true := fun q hq => h.related q (mem_cons_of_mem hq)
    have hl' : others.map Prod.fst ≤ as := (cons_le_cons_iff a).mp hl
    by_cases hcb : c = b
    · subst hcb
      exact ⟨others, ⟨hl', (cons_le_cons_iff c).mp hr, hothers⟩, (card_cons _ others).le⟩
    by_cases hb : b ∈ others.map Prod.snd
    · obtain ⟨⟨x, b⟩, hq, rfl⟩ := mem_map.mp hb
      obtain ⟨rest, rfl⟩ := exists_cons_of_mem hq
      rw [map_cons] at hl' hr
      rw [cons_swap] at hr
      have hr' : c ::ₘ rest.map Prod.snd ≤ bs := (cons_le_cons_iff b).mp hr
      have hx : x ∈ as := mem_of_le hl' (mem_cons_self x _)
      have hc : c ∈ bs := mem_of_le hr' (mem_cons_self c _)
      -- `x` gives `b` up and takes what `a` had
      refine ⟨(x, c) ::ₘ rest, ⟨?_, ?_, ?_⟩, ?_⟩
      · rw [map_cons]
        exact hl'
      · rw [map_cons]
        exact hr'
      · intro q hq
        rcases mem_cons.mp hq with rfl | hq
        · exact hshare x hx (hothers (x, b) (mem_cons_self _ _)) c hc (h.related (a, c) (mem_cons_self _ _))
        · exact hothers q (mem_cons_of_mem hq)
      · simp only [card_cons, le_refl]
    · have hr' : others.map Prod.snd ≤ b ::ₘ bs := (le_cons_self _ _).trans hr
      exact ⟨others, ⟨hl', (le_cons_of_notMem hb).mp hr', hothers⟩, (card_cons _ others).le⟩
  · have hl : pairs.map Prod.fst ≤ as := (le_cons_of_notMem ha).mp h.lefts
    exact drop_right ⟨hl, h.rights, h.related⟩

end Pairing

/-- Of two entries related to a common one, the later is related to all that the earlier is. -/
def Nested (R : α → β → Bool) (as : List α) (bs : List β) : Prop :=
  as.Pairwise fun a x => ∀ b ∈ bs, R a b = true → R x b = true → ∀ c ∈ bs, R a c = true → R x c = true

theorem Nested.subset {as : List α} {bs bs' : List β} (h : Nested R as bs) (hsub : bs' ⊆ bs) : Nested R as bs' :=
  h.imp fun hh b hb hab hxb c hc => hh b (hsub hb) hab hxb c (hsub hc)

/-! One entry after the other. -/

section

variable [DecidableEq β]

def greedy (R : α → β → Bool) : List α → List β → List (α × β)
  | [], _ => []
  | a :: as, bs =>
    match bs.find? (R a) with
    | none => greedy R as bs
    | some b => (a, b) :: greedy R as (bs.erase b)

theorem greedy_none {a : α} {bs : List β} (h : bs.find? (R a) = none) (as : List α) :
    greedy R (a :: as) bs = greedy R as bs := by
  rw [greedy, h]

theorem greedy_some {a : α} {b : β} {bs : List β} (h : bs.find? (R a) = some b) (as : List α) :
    greedy R (a :: as) bs = (a, b) :: greedy R as (bs.erase b) := by
  rw [greedy, h]

theorem coe_eq_cons_erase {b : β} {bs : List β} (h : b ∈ bs) : (bs : Multiset β) = b ::ₘ (bs.erase b : List β) :=
  coe_eq_coe.mpr (List.perm_cons_erase h)

theorem greedy_pairing (R : α → β → Bool) (as : List α) (bs : List β) : Pairing R as bs (greedy R as bs) := by
  induction as generalizing bs with
  | nil => exact Pairing.nil R _ _
  | cons a as ih =>
    cases h : bs.find? (R a) with
    | none =>
      rw [greedy_none h]
      exact (ih bs).mono (le_cons_self _ a) le_rfl
    | some b =>
      rw [greedy_some h, coe_eq_cons_erase (List.mem_of_find?_eq_some h)]
      exact (ih (bs.erase b)).cons (List.find?_some h)

/-- No pairing is more than twice as large. -/
theorem card_le_two_mul_greedy {as : List α} {bs : List β} {pairs : Multiset (α × β)} (h : Pairing R as bs pairs) :
    pairs.card ≤ 2 * (greedy R as bs).length := by
  induction as generalizing bs pairs with
  | nil =>
    have hl := card_le_card h.lefts
    rw [card_map] at hl
    exact hl
  | cons a as ih =>
    cases hfind : bs.find? (R a) with
    | none =>
      rw [greedy_none hfind]
      have hno : ∀ b ∈ (bs : Multiset β), R a b = false := fun b hb =>
        Bool.eq_false_iff.mpr (List.find?_eq_none.mp hfind b hb)
      exact ih (h.of_unrelated hno)
    | some b =>
      rw [greedy_some hfind, List.length_cons]
      rw [coe_eq_cons_erase (List.mem_of_find?_eq_some hfind), ← cons_coe] at h
      obtain ⟨rest, hrest, hcard⟩ := h.drop_left
      obtain ⟨others, hothers, hcard'⟩ := hrest.drop_right
      have hh := ih hothers
      omega

theorem card_le_greedy {as : List α} {bs : List β} {pairs : Multiset (α × β)} (hn : Nested R as bs)
    (h : Pairing R as bs pairs) : pairs.card ≤ (greedy R as bs).length := by
  induction as generalizing bs pairs with
  | nil =>
    have hl := card_le_card h.lefts
    rw [card_map] at hl
    exact hl
  | cons a as ih =>
    obtain ⟨ha, has⟩ := List.pairwise_cons.mp hn
    cases hfind : bs.find? (R a) with
    | none =>
      rw [greedy_none hfind]
      have hno : ∀ b ∈ (bs : Multiset β), R a b = false := fun b hb =>
        Bool.eq_false_iff.mpr (List.find?_eq_none.mp hfind b hb)
      exact ih has (h.of_unrelated hno)
    | some b =>
      have hb : b ∈ bs := List.mem_of_find?_eq_some hfind
      have hab : R a b = true := List.find?_some hfind
      rw [greedy_some hfind, List.length_cons]
      rw [coe_eq_cons_erase hb, ← cons_coe] at h
      have hshare : ∀ x ∈ (as : Multiset α), R x b = true → ∀ c ∈ (bs.erase b : Multiset β), R a c = true →
          R x c = true := fun x hx hxb c hc => ha x hx b hb hab hxb c (List.mem_of_mem_erase hc)
      obtain ⟨rest, hrest, hcard⟩ := h.exchange hab hshare
      have hh := ih (Nested.subset has (List.erase_subset)) hrest
      omega

theorem greedy_isGreatest {as : List α} {bs : List β} (h : Nested R as bs) :
    IsGreatest (sizes R as bs) (greedy R as bs).length := by
  constructor
  · exact ⟨_, greedy_pairing R as bs, coe_card _⟩
  · rintro n ⟨pairs, hpairs, rfl⟩
    exact card_le_greedy h hpairs

/-- Being nested is what it takes to be greatest, whatever part is looked at and in
whatever order `bs` stands. -/
theorem nested_iff {as : List α} {bs : List β} : Nested R as bs ↔ ∀ (as' : List α) (bs' : List β),
    as'.Sublist as → bs'.Subperm bs → IsGreatest (sizes R as' bs') (greedy R as' bs').length := by
  constructor
  · intro h as' bs' has hbs
    exact greedy_isGreatest (Nested.subset (List.Pairwise.sublist has h) hbs.subset)
  · intro h
    refine List.pairwise_iff_forall_sublist.mpr fun {a x} has b hb hab hxb c hc hac => ?_
    by_contra hxc
    have hne : b ≠ c := fun he => hxc (he ▸ hxb)
    have hnodup : [b, c].Nodup := List.nodup_cons.mpr ⟨by simpa using hne, List.nodup_singleton c⟩
    have hsub : [b, c] ⊆ bs := by
      intro d hd
      rcases List.mem_cons.mp hd with rfl | hd
      · exact hb
      · exact List.mem_singleton.mp hd ▸ hc
    -- `a` takes `b`, and `x` gets nothing
    have hgreedy : greedy R [a, x] [b, c] = [(a, b)] := by
      have hx : [c].find? (R x) = none := List.find?_eq_none.mpr fun d hd => List.mem_singleton.mp hd ▸ hxc
      rw [greedy_some (List.find?_cons_of_pos hab), List.erase_cons_head, greedy_none hx]
      rfl
    have hpairing : Pairing R ([a, x] : List α) ([b, c] : List β) {(a, c), (x, b)} := by
      have hpair := (Pairing.nil R (0 : Multiset α) (0 : Multiset β)).cons hxb
      rw [← coe_nil, ← coe_nil] at hpair
      have hswap : ([b, c] : Multiset β) = c ::ₘ {b} := coe_eq_coe.mpr (List.Perm.swap c b [])
      rw [hswap]
      exact hpair.cons hac
    have htwo := (h [a, x] [b, c] has (hnodup.subperm hsub)).2 ⟨_, hpairing, rfl⟩
    rw [hgreedy] at htwo
    exact Nat.not_succ_le_self 1 htwo

/-! One entry more. -/

/-- `bs'` has one entry that `bs` has not. -/
def OneMore (bs bs' : List β) : Prop := ∃ before x after, bs = before ++ after ∧ bs' = before ++ x :: after

theorem oneMore_erase {b : β} {bs : List β} (h : b ∈ bs) : OneMore (bs.erase b) bs := by
  obtain ⟨before, after, -, hbs, herase⟩ := List.exists_erase_eq h
  exact ⟨before, b, after, herase, hbs⟩

theorem OneMore.erase {bs bs' : List β} {p : β → Bool} (h : OneMore bs bs') :
    (bs.find? p = none ∧ (bs'.find? p = none ∨ ∃ x, bs'.find? p = some x ∧ bs'.erase x = bs)) ∨
    ∃ b x, bs.find? p = some b ∧ bs'.find? p = some x ∧ OneMore (bs.erase b) (bs'.erase x) := by
  obtain ⟨before, x, after, rfl, rfl⟩ := h
  cases hbefore : before.find? p with
  | some b =>
    have hb : b ∈ before := List.mem_of_find?_eq_some hbefore
    refine .inr ⟨b, b, ?_, ?_, before.erase b, x, after, ?_, ?_⟩
    · rw [List.find?_append, hbefore, Option.some_or]
    · rw [List.find?_append, hbefore, Option.some_or]
    · exact List.erase_append_left after hb
    · exact List.erase_append_left (x :: after) hb
  | none =>
    have hnot : ∀ b, p b = true → b ∉ before := fun b hpb hb => List.find?_eq_none.mp hbefore b hb hpb
    have hbs : (before ++ after).find? p = after.find? p := by rw [List.find?_append, hbefore, Option.none_or]
    have hbs' : (before ++ x :: after).find? p = (x :: after).find? p := by
      rw [List.find?_append, hbefore, Option.none_or]
    by_cases hx : p x = true
    · have hfirst : (before ++ x :: after).find? p = some x := hbs'.trans (List.find?_cons_of_pos hx)
      have hsame : (before ++ x :: after).erase x = before ++ after := by
        rw [List.erase_append_right _ (hnot x hx), List.erase_cons_head]
      cases hafter : after.find? p with
      | none => exact .inl ⟨hbs.trans hafter, .inr ⟨x, hfirst, hsame⟩⟩
      | some b =>
        have hb : b ∈ before ++ after := List.mem_append_right before (List.mem_of_find?_eq_some hafter)
        refine .inr ⟨b, x, hbs.trans hafter, hfirst, ?_⟩
        rw [hsame]
        exact oneMore_erase hb
    · have hskip : (before ++ x :: after).find? p = after.find? p := hbs'.trans (List.find?_cons_of_neg hx)
      cases hafter : after.find? p with
      | none => exact .inl ⟨hbs.trans hafter, .inl (hskip.trans hafter)⟩
      | some b =>
        have hpb : p b = true := List.find?_some hafter
        have hne : x ≠ b := fun he => hx (he ▸ hpb)
        refine .inr ⟨b, b, hbs.trans hafter, hskip.trans hafter, before, x, after.erase b, ?_, ?_⟩
        · exact List.erase_append_right after (hnot b hpb)
        · rw [List.erase_append_right _ (hnot b hpb), List.erase_cons_tail (by simpa using hne)]

theorem length_greedy_oneMore (R : α → β → Bool) (as : List α) {bs bs' : List β} (h : OneMore bs bs') :
    (greedy R as bs').length = (greedy R as bs).length ∨
      (greedy R as bs').length = (greedy R as bs).length + 1 := by
  induction as generalizing bs bs' with
  | nil => exact .inl rfl
  | cons a as ih =>
    rcases h.erase (p := R a) with ⟨hnone, hnone' | ⟨x, hx, hsame⟩⟩ | ⟨b, x, hb, hx, hmore⟩
    · rw [greedy_none hnone, greedy_none hnone']
      exact ih h
    · rw [greedy_none hnone, greedy_some hx, hsame]
      exact .inr rfl
    · rw [greedy_some hb, greedy_some hx, List.length_cons, List.length_cons]
      rcases ih hmore with hh | hh
      · exact .inl (congrArg (· + 1) hh)
      · exact .inr (congrArg (· + 1) hh)

end

end AiPrReview.Matching
