import Mathlib.Data.List.MinMax
import Mathlib.Data.List.Nodup

/-! Grouping a list by a key, in order of first appearance, and the first
maximum of a list. -/

namespace AiPrReview

variable {α κ β : Type}

section

variable [DecidableEq κ]

def addTo (k : κ) (a : α) : List (κ × List α) → List (κ × List α)
  | [] => [(k, [a])]
  | (k', as) :: gs => if k' = k then (k', as ++ [a]) :: gs else (k', as) :: addTo k a gs

def groupsOf (key : α → κ) (l : List α) : List (κ × List α) :=
  l.foldl (fun gs a => addTo (key a) a gs) []

theorem groupsOf_concat (key : α → κ) (l : List α) (a : α) :
    groupsOf key (l ++ [a]) = addTo (key a) a (groupsOf key l) := by
  simp [groupsOf]

theorem keys_addTo (k : κ) (a : α) (gs : List (κ × List α)) :
    (addTo k a gs).map Prod.fst =
      if k ∈ gs.map Prod.fst then gs.map Prod.fst else gs.map Prod.fst ++ [k] := by
  induction gs with
  | nil => rfl
  | cons g gs ih =>
    obtain ⟨k', as⟩ := g
    by_cases hk : k' = k
    · simp [addTo, hk]
    · have hk' : k ≠ k' := Ne.symm hk
      simp only [addTo, hk, if_false, List.map_cons, ih, List.mem_cons, hk', false_or]
      split_ifs <;> rfl

theorem groupsOf_keys_nodup (key : α → κ) (l : List α) :
    ((groupsOf key l).map Prod.fst).Nodup := by
  induction l using List.reverseRecOn with
  | nil => exact List.nodup_nil
  | append_singleton l a ih =>
    rw [groupsOf_concat, keys_addTo]
    split_ifs with h
    · exact ih
    · rw [List.nodup_append]
      refine ⟨ih, by simp, ?_⟩
      rintro k hk k' hk' rfl
      exact h (by simpa [List.mem_singleton.mp hk'] using hk)

theorem mem_addTo_of_ne {k k' : κ} {a : α} {as : List α} {gs : List (κ × List α)}
    (hk : k' ≠ k) : (k', as) ∈ addTo k a gs ↔ (k', as) ∈ gs := by
  induction gs with
  | nil => simp [addTo, hk]
  | cons g gs ih =>
    obtain ⟨k₁, as₁⟩ := g
    by_cases h : k₁ = k
    · subst h
      simp [addTo, hk]
    · simp only [addTo, h, if_false, List.mem_cons, ih]

theorem mem_addTo_self {k : κ} {a : α} {as : List α} {gs : List (κ × List α)}
    (hnd : (gs.map Prod.fst).Nodup) : (k, as) ∈ addTo k a gs ↔
      (k ∉ gs.map Prod.fst ∧ as = [a]) ∨ ∃ as', (k, as') ∈ gs ∧ as = as' ++ [a] := by
  induction gs with
  | nil => simp [addTo]
  | cons g gs ih =>
    obtain ⟨k₁, as₁⟩ := g
    have hn := List.nodup_cons.mp hnd
    by_cases h : k₁ = k
    · subst h
      have hno : ∀ as', (k₁, as') ∉ gs := fun as' hm => hn.1 (List.mem_map.mpr ⟨_, hm, rfl⟩)
      simp [addTo, hno]
    · have h' : k ≠ k₁ := Ne.symm h
      simp only [addTo, h, if_false, List.mem_cons, Prod.mk.injEq, h', false_and, false_or,
        ih hn.2, List.map_cons]

theorem mem_groupsOf_iff {key : α → κ} {l as : List α} {k : κ} :
    (k, as) ∈ groupsOf key l ↔ as ≠ [] ∧ as = l.filter (fun a => key a = k) := by
  induction l using List.reverseRecOn generalizing as with
  | nil =>
    simp only [groupsOf, List.foldl_nil, List.not_mem_nil, List.filter_nil, false_iff]
    rintro ⟨h, rfl⟩
    exact h rfl
  | append_singleton l a ih =>
    rw [groupsOf_concat, List.filter_append]
    by_cases hk : key a = k
    · subst hk
      have hmem : key a ∉ (groupsOf key l).map Prod.fst ↔ l.filter (fun b => key b = key a) = [] := by
        constructor
        · intro h
          by_contra hne
          exact h (List.mem_map.mpr ⟨_, ih.mpr ⟨hne, rfl⟩, rfl⟩)
        · intro he hm
          obtain ⟨⟨k', as'⟩, hg, rfl⟩ := List.mem_map.mp hm
          exact (ih.mp hg).1 ((ih.mp hg).2.trans he)
      rw [mem_addTo_self (groupsOf_keys_nodup key l), hmem]
      simp only [ih, List.filter_singleton, decide_true]
      constructor
      · rintro (⟨he, rfl⟩ | ⟨as', ⟨_, rfl⟩, rfl⟩)
        · simp [he]
        · simp
      · rintro ⟨_, rfl⟩
        by_cases he : l.filter (fun b => key b = key a) = []
        · exact .inl ⟨he, by simp [he]⟩
        · exact .inr ⟨_, ⟨he, rfl⟩, rfl⟩
    · rw [mem_addTo_of_ne (Ne.symm hk), ih]
      simp [hk]

end

theorem argmax_eq_some_split [LinearOrder β] {f : α → β} {l : List α} {m : α} :
    l.argmax f = some m ↔ ∃ pre post, l = pre ++ m :: post ∧
      (∀ a ∈ pre, f a < f m) ∧ ∀ a ∈ post, f a ≤ f m := by
  induction l with
  | nil => simp
  | cons x xs ih =>
    rw [List.argmax_cons]
    cases hx : xs.argmax f with
    | none =>
      have : xs = [] := List.argmax_eq_none.mp hx
      subst this
      constructor
      · intro h
        exact ⟨[], [], by simpa using h, by simp, by simp⟩
      · rintro ⟨pre, post, he, _, _⟩
        cases pre with
        | nil => simpa using (List.cons.inj he).1
        | cons a pre => simp at he
    | some n =>
      have hn : ∀ a ∈ xs, f a ≤ f n := fun a ha => List.le_of_mem_argmax ha hx
      have hnm : n ∈ xs := List.argmax_mem hx
      dsimp only
      constructor
      · intro h
        split_ifs at h with hlt
        · obtain rfl : n = m := by simpa using h
          obtain ⟨pre, post, rfl, hpre, hpost⟩ := ih.mp hx
          exact ⟨x :: pre, post, rfl, by simpa [hlt] using hpre, hpost⟩
        · obtain rfl : x = m := by simpa using h
          exact ⟨[], xs, rfl, by simp, fun a ha => (hn a ha).trans (not_lt.mp hlt)⟩
      · rintro ⟨pre, post, he, hpre, hpost⟩
        cases pre with
        | nil =>
          obtain ⟨rfl, rfl⟩ := List.cons.inj he
          rw [if_neg (not_lt.mpr (hpost n hnm))]
        | cons y pre =>
          obtain ⟨rfl, rfl⟩ := List.cons.inj he
          have hm := ih.mpr ⟨pre, post, rfl, fun a ha => hpre a (by simp [ha]), hpost⟩
          obtain rfl : n = m := Option.some.inj (hx.symm.trans hm)
          rw [if_pos (hpre x (by simp))]

end AiPrReview
