import Mathlib.Data.List.DropRight
import Mathlib.Data.List.Perm.Basic

/-! Words with blanks in them: what dropping the blanks at the end leaves to be
compared, and when the order of two words does not matter. -/

namespace AiPrReview

variable {α β : Type} {p : α → Bool}

theorem dropWhile_append_of_solid {s : List α} (hs : ∃ c ∈ s, p c = false) (t : List α) :
    (s ++ t).dropWhile p = s.dropWhile p ++ t := by
  have hne : s.dropWhile p ≠ [] := by
    obtain ⟨c, hc, hpc⟩ := hs
    intro hnil
    rw [List.dropWhile_eq_nil_iff] at hnil
    rw [hnil c hc] at hpc
    cases hpc
  rw [List.dropWhile_append, if_neg (by simpa using hne)]

theorem rdropWhile_append_of_solid {t : List α} (ht : ∃ c ∈ t, p c = false) (s : List α) :
    (s ++ t).rdropWhile p = s ++ t.rdropWhile p := by
  have ht' : ∃ c ∈ t.reverse, p c = false := by simpa using ht
  rw [List.rdropWhile, List.reverse_append, dropWhile_append_of_solid ht', List.reverse_append, List.reverse_reverse]
  rfl

theorem rdropWhile_append_of_blank {t : List α} (ht : ∀ c ∈ t, p c = true) (s : List α) :
    (s ++ t).rdropWhile p = s.rdropWhile p := by
  rw [List.rdropWhile, List.reverse_append, List.dropWhile_append_of_pos (by simpa using ht)]
  rfl

theorem rdropWhile_cons_of_solid {c : α} (hc : p c = false) (l : List α) :
    (c :: l).rdropWhile p = c :: l.rdropWhile p := by
  by_cases hl : ∃ b ∈ l, p b = false
  · exact rdropWhile_append_of_solid hl [c]
  · have hblank : ∀ b ∈ l, p b = true := fun b hb => by
      by_contra hno
      exact hl ⟨b, hb, Bool.eq_false_iff.mpr hno⟩
    rw [List.rdropWhile_eq_nil_iff.mpr hblank]
    have hh := rdropWhile_append_of_blank hblank [c]
    rw [List.rdropWhile_singleton, hc] at hh
    exact hh

theorem filter_rdropWhile (p : α → Bool) (l : List α) :
    (l.rdropWhile p).filter (fun c => !p c) = l.filter fun c => !p c := by
  induction l using List.reverseRecOn with
  | nil => rfl
  | append_singleton l c ih =>
    by_cases hc : p c = true
    · rw [List.rdropWhile_concat_pos p _ c hc, ih, List.filter_append]
      simp [hc]
    · rw [List.rdropWhile_concat_neg p _ c hc]

/-- The word ends in something that is no blank. -/
def EndsSolid (p : α → Bool) (x : List α) : Prop := ∃ x' c, x = x' ++ [c] ∧ p c = false

theorem endsSolid_rdropWhile {l : List α} (h : ∃ c ∈ l, p c = false) : EndsSolid p (l.rdropWhile p) := by
  have hne : l.rdropWhile p ≠ [] := by
    intro he
    obtain ⟨c, hc, hp⟩ := h
    rw [List.rdropWhile_eq_nil_iff.mp he c hc] at hp
    exact absurd hp (by decide)
  have hlast := List.rdropWhile_last_not p l hne
  exact ⟨_, _, (List.dropLast_append_getLast hne).symm, by simpa using hlast⟩

theorem EndsSolid.of_append {y z : List α} (h : EndsSolid p (y ++ z)) (hz : z ≠ []) : EndsSolid p z := by
  obtain ⟨x, c, he, hc⟩ := h
  refine ⟨z.dropLast, z.getLast hz, (List.dropLast_append_getLast hz).symm, ?_⟩
  have hlast : (y ++ z).getLast (by simp [hz]) = c := by
    simp only [he, List.getLast_append_singleton]
  rw [List.getLast_append_of_ne_nil _ hz] at hlast
  rw [hlast]
  exact hc

theorem EndsSolid.not_blank {z : List α} (h : EndsSolid p z) : ¬∀ c ∈ z, p c = true := by
  obtain ⟨x, c, rfl, hc⟩ := h
  intro hall
  rw [hall c (by simp)] at hc
  exact absurd hc (by decide)

theorem EndsSolid.ne_nil {z : List α} (h : EndsSolid p z) : z ≠ [] := by
  rintro rfl
  exact h.not_blank (by simp)

/-- Two words that may change places around blanks of one length are parted by
the same blanks. -/
theorem gap_eq_of_exchange {x y a b : List α} (hx : EndsSolid p x) (hy : EndsSolid p y)
    (ha : ∀ c ∈ a, p c = true) (hb : ∀ c ∈ b, p c = true) (hlen : a.length = b.length)
    (h : x ++ (a ++ y) = y ++ (b ++ x)) : a = b := by
  generalize hn : x.length + y.length = n
  induction n using Nat.strong_induction_on generalizing x y a b with
  | _ n ih =>
    wlog hle : x.length ≤ y.length generalizing x y a b
    · exact (this hy hx hb ha hlen.symm h.symm (by omega) (by omega)).symm
    rcases hle.lt_or_eq with hlt | heq
    · obtain ⟨z, rfl⟩ : x <+: y :=
        List.prefix_of_prefix_length_le (List.prefix_append x _) (h ▸ List.prefix_append y _) hle
      have hz : EndsSolid p z := hy.of_append (by rintro rfl; simp at hlt)
      have hrest : a ++ (x ++ z) = z ++ (b ++ x) := by
        rw [List.append_assoc] at h
        exact List.append_cancel_left h
      by_cases hshort : z.length < a.length
      · have hpre : z <+: a :=
          List.prefix_of_prefix_length_le (hrest ▸ List.prefix_append z _) (List.prefix_append a _) hshort.le
        exact absurd (fun c hc => ha c (hpre.subset hc)) hz.not_blank
      -- what `y` has beyond `x` starts with the blanks: take both off
      · obtain ⟨z', rfl⟩ : a <+: z :=
          List.prefix_of_prefix_length_le (List.prefix_append a _) (hrest ▸ List.prefix_append z _) (by omega)
        have hrest' : x ++ (a ++ z') = z' ++ (b ++ x) := by
          rw [List.append_assoc] at hrest
          exact List.append_cancel_left hrest
        by_cases hz' : z' = []
        · rw [hz', List.append_nil] at hz
          exact absurd ha hz.not_blank
        · have hpos : 0 < x.length := List.length_pos_iff.mpr hx.ne_nil
          refine ih (x.length + z'.length) ?_ hx (hz.of_append hz') ha hb hlen hrest' rfl
          simp only [List.length_append] at hn
          omega
    · obtain ⟨rfl, hrest⟩ := List.append_inj h heq
      exact (List.append_inj hrest hlen).1

/-- Words that may change places before a tail, up to the blanks at the end,
commute. -/
theorem append_comm_of_rdropWhile {u v t : List α} (hu : ∃ c ∈ u, p c = false) (hv : ∃ c ∈ v, p c = false)
    (h : (u ++ v ++ t).rdropWhile p = (v ++ u ++ t).rdropWhile p) : u ++ v = v ++ u := by
  by_cases ht : ∃ c ∈ t, p c = false
  · rw [rdropWhile_append_of_solid ht, rdropWhile_append_of_solid ht] at h
    exact List.append_cancel_right h
  · have hblank : ∀ c ∈ t, p c = true := by
      intro c hc
      by_contra hp
      exact ht ⟨c, hc, by simpa using hp⟩
    rw [rdropWhile_append_of_blank hblank, rdropWhile_append_of_blank hblank,
      rdropWhile_append_of_solid hv, rdropWhile_append_of_solid hu] at h
    have hsu : u.rdropWhile p ++ u.rtakeWhile p = u := List.rdropWhile_append_rtakeWhile
    have hsv : v.rdropWhile p ++ v.rtakeWhile p = v := List.rdropWhile_append_rtakeWhile
    rw [← hsu, ← hsv] at h
    rw [List.append_assoc, List.append_assoc, hsu, hsv] at h
    have hlen : (u.rtakeWhile p).length = (v.rtakeWhile p).length := by
      have hl := congrArg List.length h
      simp only [List.length_append] at hl
      omega
    have hgap := gap_eq_of_exchange (endsSolid_rdropWhile hu) (endsSolid_rdropWhile hv)
      (fun c hc => List.mem_rtakeWhile_imp hc) (fun c hc => List.mem_rtakeWhile_imp hc) hlen h
    calc u ++ v = u.rdropWhile p ++ (u.rtakeWhile p ++ v.rdropWhile p) ++ v.rtakeWhile p := by
          rw [List.append_assoc, List.append_assoc, hsv, ← List.append_assoc, hsu]
      _ = v.rdropWhile p ++ (v.rtakeWhile p ++ u.rdropWhile p) ++ u.rtakeWhile p := by rw [h, hgap]
      _ = v ++ u := by rw [List.append_assoc, List.append_assoc, hsu, ← List.append_assoc, hsv]

theorem flatMap_eq_of_perm {f : β → List α} {l l' : List β} (h : l.Perm l')
    (hc : ∀ x ∈ l, ∀ y ∈ l, f x ++ f y = f y ++ f x) : l.flatMap f = l'.flatMap f := by
  induction h with
  | nil => rfl
  | cons x _ ih =>
    rw [List.flatMap_cons, List.flatMap_cons, ih fun a ha b hb => hc a (by simp [ha]) b (by simp [hb])]
  | swap x y l =>
    simp only [List.flatMap_cons, ← List.append_assoc]
    rw [hc y (by simp) x (by simp)]
  | trans h₁ _ ih₁ ih₂ =>
    exact (ih₁ hc).trans (ih₂ fun a ha b hb => hc a (h₁.mem_iff.mpr ha) b (h₁.mem_iff.mpr hb))

theorem eq_of_flatMap_eq {f g : β → List α} {l : List β} (hlen : ∀ x ∈ l, (f x).length = (g x).length)
    (h : l.flatMap f = l.flatMap g) : ∀ x ∈ l, f x = g x := by
  induction l with
  | nil => simp
  | cons a l ih =>
    rw [List.flatMap_cons, List.flatMap_cons] at h
    obtain ⟨ha, hl⟩ := List.append_inj h (hlen a (by simp))
    intro x hx
    rcases List.mem_cons.mp hx with rfl | hx
    · exact ha
    · exact ih (fun y hy => hlen y (by simp [hy])) hl x hx

end AiPrReview
