import Mathlib.Data.List.Sort

/-! The lines of a list, each with the terminator that ends it. -/

namespace AiPrReview

variable {α β : Type} (nl : α → Bool)

def linesOf : List α → List (List α)
  | [] => []
  | a :: l =>
    if nl a then [a] :: linesOf l
    else
      match linesOf l with
      | [] => [[a]]
      | x :: xs => (a :: x) :: xs

theorem flatten_linesOf (l : List α) : (linesOf nl l).flatten = l := by
  induction l with
  | nil => rfl
  | cons a l ih =>
    rw [linesOf]
    split_ifs with h
    · simp [ih]
    · cases hl : linesOf nl l with
      | nil =>
        rw [hl] at ih
        simp [← ih]
      | cons x xs =>
        rw [hl] at ih
        simp [← ih]

theorem linesOf_eq_nil_iff {l : List α} : linesOf nl l = [] ↔ l = [] := by
  constructor
  · intro h
    have hf := flatten_linesOf nl l
    rw [h] at hf
    exact hf.symm
  · rintro rfl
    rfl

theorem ne_nil_of_mem_linesOf {l x : List α} (h : x ∈ linesOf nl l) : x ≠ [] := by
  induction l generalizing x with
  | nil => simp [linesOf] at h
  | cons a l ih =>
    rw [linesOf] at h
    split_ifs at h with ha
    · rcases List.mem_cons.mp h with rfl | h
      · exact List.cons_ne_nil a []
      · exact ih h
    · cases hl : linesOf nl l with
      | nil =>
        rw [hl] at h
        rw [List.mem_singleton.mp h]
        exact List.cons_ne_nil a []
      | cons y ys =>
        rw [hl] at h ih
        rcases List.mem_cons.mp h with rfl | h
        · exact List.cons_ne_nil a y
        · exact ih (List.mem_cons_of_mem y h)

theorem linesOf_map (nl : β → Bool) (f : α → β) (l : List α) :
    (linesOf (fun a => nl (f a)) l).map (List.map f) = linesOf nl (l.map f) := by
  induction l with
  | nil => rfl
  | cons a l ih =>
    rw [List.map_cons, linesOf, linesOf, ← ih]
    split_ifs with h
    · rfl
    · cases linesOf (fun a => nl (f a)) l with
      | nil => rfl
      | cons x xs => rfl

/-- `x` is a line of `pre ++ x ++ post`. -/
structure LineAt (pre x post : List α) : Prop where
  ne_nil : x ≠ []
  starts : ∀ a ∈ pre.getLast?, nl a = true
  inside : ∀ a ∈ x.dropLast, nl a = false
  stops : post = [] ∨ ∀ a ∈ x.getLast?, nl a = true

variable {nl}

theorem LineAt.map_iff (nl : β → Bool) (f : α → β) {pre x post : List α} :
    LineAt nl (pre.map f) (x.map f) (post.map f) ↔ LineAt (fun a => nl (f a)) pre x post := by
  constructor
  · intro h
    refine ⟨fun hx => h.ne_nil (by rw [hx, List.map_nil]), fun a ha => h.starts (f a) ?_,
      fun a ha => h.inside (f a) ?_, ?_⟩
    · rw [List.getLast?_map]
      exact Option.mem_map_of_mem f ha
    · rw [← List.map_dropLast]
      exact List.mem_map_of_mem ha
    · simpa using h.stops
  · intro h
    refine ⟨fun hx => h.ne_nil (List.map_eq_nil_iff.mp hx), ?_, ?_, ?_⟩
    · simpa using h.starts
    · simpa [← List.map_dropLast] using h.inside
    · simpa using h.stops

theorem LineAt.cons_iff {a : α} {pre x post : List α} : LineAt nl (a :: pre) x post ↔
    LineAt nl pre x post ∧ (pre = [] → nl a = true) := by
  constructor
  · intro h
    refine ⟨⟨h.ne_nil, fun b hb => h.starts b ?_, h.inside, h.stops⟩, fun hp => ?_⟩
    · cases pre with
      | nil => simp at hb
      | cons c pre => rwa [List.getLast?_cons_cons]
    · subst hp
      exact h.starts a (by simp)
  · rintro ⟨h, hp⟩
    refine ⟨h.ne_nil, fun b hb => ?_, h.inside, h.stops⟩
    cases pre with
    | nil =>
      have he : a = b := by simpa using hb
      rw [← he]
      exact hp rfl
    | cons c pre =>
      rw [List.getLast?_cons_cons] at hb
      exact h.starts b hb

theorem LineAt.head_iff {a : α} {x post : List α} : LineAt nl [] (a :: x) post ↔
    (x = [] ∧ (nl a = true ∨ post = [])) ∨ (nl a = false ∧ LineAt nl [] x post) := by
  cases x with
  | nil =>
    constructor
    · intro h
      rcases h.stops with hp | hs
      · exact .inl ⟨rfl, .inr hp⟩
      · exact .inl ⟨rfl, .inl (hs a (by simp))⟩
    · rintro (⟨_, h⟩ | ⟨_, h⟩)
      · refine ⟨List.cons_ne_nil a [], by simp, by simp, ?_⟩
        rcases h with h | h
        · right
          simpa using h
        · exact .inl h
      · exact absurd rfl h.ne_nil
  | cons b x =>
    constructor
    · intro h
      have ha : nl a = false := h.inside a (by simp)
      refine .inr ⟨ha, List.cons_ne_nil b x, by simp, fun c hc => h.inside c ?_, ?_⟩
      · rw [List.dropLast_cons_of_ne_nil (List.cons_ne_nil b x)]
        exact List.mem_cons_of_mem a hc
      · simpa only [List.getLast?_cons_cons] using h.stops
    · rintro (⟨h, _⟩ | ⟨ha, h⟩)
      · exact absurd h (List.cons_ne_nil b x)
      · refine ⟨List.cons_ne_nil a _, by simp, fun c hc => ?_, ?_⟩
        · rw [List.dropLast_cons_of_ne_nil (List.cons_ne_nil b x)] at hc
          rcases List.mem_cons.mp hc with rfl | hc
          · exact ha
          · exact h.inside c hc
        · simpa only [List.getLast?_cons_cons] using h.stops

theorem linesOf_append {pre rest : List α} (h : ∀ a ∈ pre.getLast?, nl a = true) :
    linesOf nl (pre ++ rest) = linesOf nl pre ++ linesOf nl rest := by
  induction pre with
  | nil => rfl
  | cons a pre ih =>
    rw [List.cons_append, linesOf, linesOf]
    cases pre with
    | nil =>
      have ha : nl a = true := h a (by simp)
      simp [ha, linesOf]
    | cons b pre =>
      rw [ih fun c hc => h c (by rwa [List.getLast?_cons_cons])]
      split_ifs with ha
      · rfl
      · cases hl : linesOf nl (b :: pre) with
        | nil => exact absurd ((linesOf_eq_nil_iff nl).mp hl) (List.cons_ne_nil b pre)
        | cons x xs => rfl

theorem linesOf_line {x post : List α} (h : LineAt nl [] x post) :
    linesOf nl (x ++ post) = x :: linesOf nl post := by
  induction x with
  | nil => exact absurd rfl h.ne_nil
  | cons a x ih =>
    rw [List.cons_append, linesOf]
    rcases LineAt.head_iff.mp h with ⟨rfl, ha | rfl⟩ | ⟨ha, hx⟩
    · rw [if_pos ha]
      rfl
    · by_cases ha : nl a = true
      · rw [if_pos ha]
        rfl
      · rw [if_neg ha]
        rfl
    · rw [ih hx, ha]
      rfl

theorem lineAt_of_linesOf {l x : List α} {A B : List (List α)} (h : linesOf nl l = A ++ x :: B) :
    LineAt nl A.flatten x B.flatten := by
  induction l generalizing A x B with
  | nil =>
    rw [linesOf] at h
    simp at h
  | cons a l ih =>
    rw [linesOf] at h
    split_ifs at h with ha
    · cases A with
      | nil =>
        obtain ⟨rfl, rfl⟩ := List.cons.inj h
        exact LineAt.head_iff.mpr (.inl ⟨rfl, .inl ha⟩)
      | cons y A =>
        obtain ⟨rfl, hl⟩ := List.cons.inj h
        exact LineAt.cons_iff.mpr ⟨ih hl, fun _ => ha⟩
    · cases hl : linesOf nl l with
      | nil =>
        rw [hl] at h
        cases A with
        | nil =>
          obtain ⟨rfl, rfl⟩ := List.cons.inj h
          exact LineAt.head_iff.mpr (.inl ⟨rfl, .inr rfl⟩)
        | cons y A =>
          have hnil : A ++ x :: B = [] := (List.cons.inj h).2.symm
          simp at hnil
      | cons y ys =>
        rw [hl] at h
        cases A with
        | nil =>
          obtain ⟨rfl, rfl⟩ := List.cons.inj h
          exact LineAt.head_iff.mpr (.inr ⟨by simpa using ha, ih (A := []) hl⟩)
        | cons z A =>
          obtain ⟨rfl, rfl⟩ := List.cons.inj h
          refine LineAt.cons_iff.mpr ⟨ih (A := y :: A) hl, fun hp => ?_⟩
          have hy : y ≠ [] := ne_nil_of_mem_linesOf nl (hl ▸ List.mem_cons_self)
          exact absurd (List.append_eq_nil_iff.mp hp).1 hy

theorem mem_linesOf_iff {l x : List α} :
    x ∈ linesOf nl l ↔ ∃ pre post, l = pre ++ (x ++ post) ∧ LineAt nl pre x post := by
  constructor
  · intro h
    obtain ⟨A, B, hAB⟩ := List.append_of_mem h
    refine ⟨A.flatten, B.flatten, ?_, lineAt_of_linesOf hAB⟩
    have hf := flatten_linesOf nl l
    rw [hAB] at hf
    simpa using hf.symm
  · rintro ⟨pre, post, rfl, h⟩
    have hx : LineAt nl [] x post := ⟨h.ne_nil, by simp, h.inside, h.stops⟩
    rw [linesOf_append h.starts, linesOf_line hx]
    exact List.mem_append_right _ List.mem_cons_self

theorem pairwise_zipIdx (l : List α) : l.zipIdx.Pairwise fun a b => a.2 < b.2 := by
  have h : (l.zipIdx.map Prod.snd).Pairwise (· < ·) := by
    rw [List.zipIdx_map_snd]
    exact List.pairwise_lt_range'
  exact List.pairwise_map.mp h

/-! The lines of an increasing list come in its order, so those that are lines
of another such list too come in the same order there. -/

theorem pairwise_linesOf {R : α → α → Prop} {l : List α} (h : l.Pairwise R) :
    (linesOf nl l).Pairwise fun x y => ∀ a ∈ x, ∀ b ∈ y, R a b := by
  rw [← flatten_linesOf nl l] at h
  exact (List.pairwise_flatten.mp h).2

theorem linesOf_sublist {A : List (List α)} {l l' : List α} (k : α → Nat)
    (h : l.Pairwise fun a b => k a < k b) (h' : l'.Pairwise fun a b => k a < k b)
    (hA : A.Sublist (linesOf nl l)) (hs : A ⊆ linesOf nl l') : A.Sublist (linesOf nl l') := by
  let first : List α → Nat := fun x => x.head?.elim 0 k
  have key : ∀ {m : List α}, m.Pairwise (fun a b => k a < k b) →
      (linesOf nl m).Pairwise fun x y => first x < first y := by
    intro m hm
    refine (pairwise_linesOf hm).imp_of_mem fun {x y} hx hy hxy => ?_
    obtain ⟨a, x, rfl⟩ := List.exists_cons_of_ne_nil (ne_nil_of_mem_linesOf nl hx)
    obtain ⟨b, y, rfl⟩ := List.exists_cons_of_ne_nil (ne_nil_of_mem_linesOf nl hy)
    exact hxy a List.mem_cons_self b List.mem_cons_self
  have hAp : A.Pairwise fun x y => first x < first y := (key h).sublist hA
  have hnodup : A.Nodup := hAp.imp fun hxy he => by
    rw [he] at hxy
    exact lt_irrefl _ hxy
  have : Std.Antisymm fun x y : List α => first x < first y :=
    ⟨fun x y hxy hyx => absurd (hxy.trans hyx) (lt_irrefl _)⟩
  exact List.sublist_of_subperm_of_pairwise (List.subperm_of_subset hnodup hs) hAp (key h')

end AiPrReview
