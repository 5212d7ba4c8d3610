import AiPrReview.InjectionGuard

/-! What the scan for marker fragments keeps of a part of a text, and whether
a fragment is still open at its end. -/

namespace AiPrReview

variable {α : Type} (char : α → Char)

/-- A fragment starts at the head of `l`, whose invisible characters are ignored. -/
def fragmentAt (l : List α) : Prop :=
  ∃ a rest, l = a :: rest ∧ char a = '«' ∧ startsMarker ((removeInvisible char rest).map char) = true

/-- A fragment that starts in `pre` is not closed where `rest` begins. -/
def openAfter (pre rest : List α) : Prop :=
  ∃ u v, pre = u ++ v ∧ v ≠ [] ∧ fragmentAt char (v ++ rest) ∧ ∀ a ∈ v, char a ≠ '»'

/-! The state of the scan after `pre`, and what it has kept. -/

def openAt : Bool → List α → List α → Bool
  | b, [], _ => b
  | true, a :: pre, rest => openAt (char a != '»') pre rest
  | false, a :: pre, rest =>
    openAt (char a == '«' && startsMarker ((pre ++ rest).map char)) pre rest

def keptOf : Bool → List α → List α → List α
  | _, [], _ => []
  | true, a :: pre, rest => keptOf (char a != '»') pre rest
  | false, a :: pre, rest =>
    if char a == '«' && startsMarker ((pre ++ rest).map char) then keptOf true pre rest
    else a :: keptOf false pre rest

theorem stripFragments_append (b : Bool) (pre rest : List α) :
    stripFragments char b (pre ++ rest) =
      keptOf char b pre rest ++ stripFragments char (openAt char b pre rest) rest := by
  induction pre generalizing b with
  | nil => simp [keptOf, openAt]
  | cons a pre ih =>
    cases b with
    | true => simpa only [List.cons_append, stripFragments, keptOf, openAt] using ih _
    | false =>
      simp only [List.cons_append, stripFragments, keptOf, openAt]
      split_ifs with h
      · rw [h]
        exact ih true
      · have hf : (char a == '«' && startsMarker ((pre ++ rest).map char)) = false := by simpa using h
        rw [hf, ih false, List.cons_append]

theorem keptOf_subset (b : Bool) (pre rest : List α) : keptOf char b pre rest ⊆ pre := by
  induction pre generalizing b with
  | nil => simp [keptOf]
  | cons a pre ih =>
    cases b with
    | true => exact List.subset_cons_of_subset a (ih _)
    | false =>
      simp only [keptOf]
      split_ifs
      · exact List.subset_cons_of_subset a (ih true)
      · exact List.cons_subset_cons a (ih false)

theorem stripFragments_sublist (b : Bool) (l : List α) : (stripFragments char b l).Sublist l := by
  induction l generalizing b with
  | nil => simp [stripFragments]
  | cons a l ih =>
    cases b with
    | true => exact (ih _).cons a
    | false =>
      simp only [stripFragments]
      split_ifs
      · exact (ih true).cons a
      · exact (ih false).cons_cons a

theorem openAt_eq_true_iff (b : Bool) (pre rest : List α) : openAt char b pre rest = true ↔
    (b = true ∧ ∀ a ∈ pre, char a ≠ '»') ∨ ∃ u a v, pre = u ++ a :: v ∧ char a = '«' ∧
      startsMarker ((v ++ rest).map char) = true ∧ ∀ x ∈ v, char x ≠ '»' := by
  induction pre generalizing b with
  | nil => simp [openAt]
  | cons a pre ih =>
    have hsplit : (∃ u a' v, a :: pre = u ++ a' :: v ∧ char a' = '«' ∧
        startsMarker ((v ++ rest).map char) = true ∧ ∀ x ∈ v, char x ≠ '»') ↔
        (char a = '«' ∧ startsMarker ((pre ++ rest).map char) = true ∧ ∀ x ∈ pre, char x ≠ '»') ∨
        ∃ u a' v, pre = u ++ a' :: v ∧ char a' = '«' ∧
          startsMarker ((v ++ rest).map char) = true ∧ ∀ x ∈ v, char x ≠ '»' := by
      constructor
      · rintro ⟨u, a', v, he, h⟩
        cases u with
        | nil =>
          obtain ⟨rfl, rfl⟩ := List.cons.inj he
          exact .inl h
        | cons x u =>
          obtain ⟨rfl, rfl⟩ := List.cons.inj he
          exact .inr ⟨u, a', v, rfl, h⟩
      · rintro (h | ⟨u, a', v, rfl, h⟩)
        · exact ⟨[], a, pre, rfl, h⟩
        · exact ⟨a :: u, a', v, rfl, h⟩
    rw [hsplit]
    have hdiff : char a = '«' → char a ≠ '»' := by
      intro h
      rw [h]
      decide
    cases b with
    | true =>
      simp only [openAt, ih, bne_iff_ne, ne_eq, true_and, List.mem_cons, forall_eq_or_imp]
      constructor
      · rintro (h | h)
        · exact .inl h
        · exact .inr (.inr h)
      · rintro (h | ⟨h, _, hn⟩ | h)
        · exact .inl h
        · exact .inl ⟨hdiff h, hn⟩
        · exact .inr h
    | false =>
      simp only [openAt, ih, Bool.and_eq_true, beq_iff_eq, Bool.false_eq_true, false_and, false_or,
        and_assoc]

theorem removeInvisible_append (l l' : List α) :
    removeInvisible char (l ++ l') = removeInvisible char l ++ removeInvisible char l' := by
  simp [removeInvisible]

theorem openAt_removeInvisible (pre rest : List α) :
    openAt char false (removeInvisible char pre) (removeInvisible char rest) = true ↔
      openAfter char pre rest := by
  rw [openAt_eq_true_iff]
  have hguillemet : ∀ a : α, char a = '«' → isInvisible (char a) = false := by
    intro a h
    rw [h]
    decide
  constructor
  · rintro (⟨h, _⟩ | ⟨u', a, v', he, ha, hs, hn⟩)
    · simp at h
    · obtain ⟨u, w, rfl, rfl, hw⟩ := List.filter_eq_append_iff.mp he
      obtain ⟨between, v, rfl, hb, _, rfl⟩ := List.filter_eq_cons_iff.mp hw
      refine ⟨u ++ between, a :: v, by simp, by simp, ⟨a, v ++ rest, rfl, ha, ?_⟩, ?_⟩
      · rw [removeInvisible_append]
        exact hs
      · intro x hx
        rcases List.mem_cons.mp hx with rfl | hx
        · rw [ha]
          decide
        · by_cases hi : isInvisible (char x) = true
          · intro hc
            rw [hc] at hi
            exact absurd hi (by decide)
          · exact hn x (List.mem_filter.mpr ⟨hx, by simpa using hi⟩)
  · rintro ⟨u, v, rfl, hv, ⟨a, r, he, ha, hs⟩, hn⟩
    cases v with
    | nil => exact absurd rfl hv
    | cons a' v =>
      obtain ⟨rfl, rfl⟩ := List.cons.inj he
      refine .inr ⟨removeInvisible char u, a', removeInvisible char v, ?_, ha, ?_, ?_⟩
      · rw [removeInvisible_append]
        simp [removeInvisible, hguillemet a' ha]
      · change startsMarker ((removeInvisible char (v ++ rest)).map char) = true at hs
        rw [removeInvisible_append] at hs
        exact hs
      · intro x hx
        exact hn x (List.mem_cons_of_mem _ (List.mem_filter.mp hx).1)

theorem cleaned_append (pre rest : List α) : cleaned char (pre ++ rest) =
    keptOf char false (removeInvisible char pre) (removeInvisible char rest) ++
      stripFragments char (openAt char false (removeInvisible char pre) (removeInvisible char rest))
        (removeInvisible char rest) := by
  rw [cleaned, removeInvisible_append, stripFragments_append]

/-! What the scan does at the head of a text. -/

theorem cleaned_invisible {a : α} {w : List α} (h : isInvisible (char a) = true) :
    cleaned char (a :: w) = cleaned char w := by
  simp [cleaned, removeInvisible, h]

theorem cleaned_kept {a : α} {w : List α} (h : isInvisible (char a) = false)
    (hf : ¬fragmentAt char (a :: w)) : cleaned char (a :: w) = a :: cleaned char w := by
  have hn : ¬(char a == '«' && startsMarker ((removeInvisible char w).map char)) = true := by
    intro hm
    rw [Bool.and_eq_true, beq_iff_eq] at hm
    exact hf ⟨a, w, rfl, hm⟩
  have hv : removeInvisible char (a :: w) = a :: removeInvisible char w := by
    simp [removeInvisible, h]
  rw [cleaned, hv, stripFragments, if_neg hn]
  rfl

theorem stripFragments_unclosed {l : List α} (h : ∀ a ∈ l, char a ≠ '»') :
    stripFragments char true l = [] := by
  induction l with
  | nil => rfl
  | cons a l ih =>
    have ha : (char a != '»') = true := by simpa using h a List.mem_cons_self
    rw [stripFragments, ha]
    exact ih fun x hx => h x (List.mem_cons_of_mem a hx)

theorem stripFragments_closed {l w : List α} {z : α} (h : ∀ a ∈ l, char a ≠ '»') (hz : char z = '»') :
    stripFragments char true (l ++ z :: w) = stripFragments char false w := by
  induction l with
  | nil => simp [stripFragments, hz]
  | cons a l ih =>
    have ha : (char a != '»') = true := by simpa using h a List.mem_cons_self
    rw [List.cons_append, stripFragments, ha]
    exact ih fun x hx => h x (List.mem_cons_of_mem a hx)

theorem cleaned_fragment {a : α} {w : List α} (h : fragmentAt char (a :: w)) :
    cleaned char (a :: w) = stripFragments char true (removeInvisible char w) := by
  obtain ⟨b, r, he, hb, hs⟩ := h
  obtain ⟨rfl, rfl⟩ := List.cons.inj he
  have hv : removeInvisible char (a :: w) = a :: removeInvisible char w := by
    have hi : isInvisible (char a) = false := by
      rw [hb]
      decide
    simp [removeInvisible, hi]
  rw [cleaned, hv, stripFragments, if_pos (by simp [hb, hs])]

theorem cleaned_fragment_closed {f w : List α} {z : α} (h : fragmentAt char (f ++ z :: w))
    (hn : ∀ a ∈ f, char a ≠ '»') (hz : char z = '»') : cleaned char (f ++ z :: w) = cleaned char w := by
  have hi : isInvisible (char z) = false := by
    rw [hz]
    decide
  cases f with
  | nil =>
    obtain ⟨b, r, he, hb, _⟩ := h
    obtain ⟨rfl, _⟩ := List.cons.inj he
    rw [hz] at hb
    exact absurd hb (by decide)
  | cons a f =>
    have hv : removeInvisible char (f ++ z :: w) = removeInvisible char f ++ z :: removeInvisible char w := by
      simp [removeInvisible, hi]
    rw [List.cons_append] at h ⊢
    rw [cleaned_fragment char h, hv]
    refine stripFragments_closed char (fun x hx => ?_) hz
    exact hn x (List.mem_cons_of_mem a (List.mem_filter.mp hx).1)

theorem cleaned_fragment_unclosed {f : List α} (h : fragmentAt char f) (hn : ∀ a ∈ f, char a ≠ '»') :
    cleaned char f = [] := by
  cases f with
  | nil => rfl
  | cons a f =>
    rw [cleaned_fragment char h]
    refine stripFragments_unclosed char fun x hx => ?_
    exact hn x (List.mem_cons_of_mem a (List.mem_filter.mp hx).1)

/-! A part of the cleaned text is the cleaning of a part of the text. -/

theorem stripFragments_split {b : Bool} {t x y : List α} (h : stripFragments char b t = x ++ y)
    (hy : y ≠ []) : ∃ pre w, t = pre ++ w ∧ openAt char b pre w = false ∧
      stripFragments char false w = y := by
  induction t generalizing b x with
  | nil =>
    have hnil : x ++ y = [] := h.symm
    exact absurd (List.append_eq_nil_iff.mp hnil).2 hy
  | cons a t ih =>
    cases b with
    | true =>
      rw [stripFragments] at h
      obtain ⟨pre, w, rfl, ho, hw⟩ := ih h
      exact ⟨a :: pre, w, rfl, ho, hw⟩
    | false =>
      by_cases hm : (char a == '«' && startsMarker (t.map char)) = true
      · rw [stripFragments, if_pos hm] at h
        obtain ⟨pre, w, rfl, ho, hw⟩ := ih h
        refine ⟨a :: pre, w, rfl, ?_, hw⟩
        rw [openAt, hm]
        exact ho
      · cases x with
        | nil => exact ⟨[], a :: t, rfl, rfl, h⟩
        | cons c x =>
          rw [stripFragments, if_neg hm] at h
          obtain ⟨pre, w, rfl, ho, hw⟩ := ih (List.cons.inj h).2
          refine ⟨a :: pre, w, rfl, ?_, hw⟩
          rw [openAt, Bool.eq_false_of_not_eq_true hm]
          exact ho

theorem cleaned_split {text x y : List α} (h : cleaned char text = x ++ y) (hy : y ≠ []) :
    ∃ pre w, text = pre ++ w ∧ ¬openAfter char pre w ∧ cleaned char w = y := by
  obtain ⟨pre', w', he, ho, hw⟩ := stripFragments_split char h hy
  obtain ⟨pre, w, rfl, rfl, rfl⟩ := List.filter_eq_append_iff.mp he
  refine ⟨pre, w, rfl, ?_, hw⟩
  rw [← openAt_removeInvisible]
  simpa [removeInvisible] using ho

theorem cleaned_append_of_not_open {pre w : List α} (h : ¬openAfter char pre w) :
    ∃ x, cleaned char (pre ++ w) = x ++ cleaned char w := by
  refine ⟨keptOf char false (removeInvisible char pre) (removeInvisible char w), ?_⟩
  have ho : openAt char false (removeInvisible char pre) (removeInvisible char w) = false := by
    rw [← openAt_removeInvisible] at h
    simpa using h
  rw [cleaned_append, ho]
  rfl

/-! Invisible characters play no part in what is kept or flagged. -/

end AiPrReview
