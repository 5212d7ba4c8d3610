import AiPrReview.ApproveBody
import AiPrReview.DedupSpec

/-! What `finding_records` holds after the findings of a review were inserted
any number of times, whole or in part. -/

namespace AiPrReview

theorem firstOfKey_congr {seen seen' : List (AgentType × Text × Int × Text)}
    (h : ∀ k, k ∈ seen ↔ k ∈ seen') (fs : List Finding) : firstOfKey seen fs = firstOfKey seen' fs := by
  induction fs generalizing seen seen' with
  | nil => rfl
  | cons f fs ih =>
    have hcons : ∀ k, k ∈ f.dedupKey :: seen ↔ k ∈ f.dedupKey :: seen' := by
      intro k
      rw [List.mem_cons, List.mem_cons, h]
    simp only [firstOfKey, h, ih h, ih hcons]

theorem firstOfKey_append (seen : List (AgentType × Text × Int × Text)) (fs gs : List Finding) :
    firstOfKey seen (fs ++ gs) =
      firstOfKey seen fs ++ firstOfKey (fs.map Finding.dedupKey ++ seen) gs := by
  induction fs generalizing seen with
  | nil => rfl
  | cons f fs ih =>
    by_cases hf : f.dedupKey ∈ seen
    · have hseen : ∀ k, k ∈ fs.map Finding.dedupKey ++ seen ↔
          k ∈ (f :: fs).map Finding.dedupKey ++ seen := by
        intro k
        rw [List.map_cons, List.cons_append, List.mem_cons, or_iff_right_of_imp]
        rintro rfl
        exact List.mem_append_right _ hf
      rw [List.cons_append, firstOfKey, if_pos hf, firstOfKey, if_pos hf, ih, firstOfKey_congr hseen]
    · have hseen : ∀ k, k ∈ fs.map Finding.dedupKey ++ f.dedupKey :: seen ↔
          k ∈ (f :: fs).map Finding.dedupKey ++ seen := by
        intro k
        simp only [List.map_cons, List.cons_append, List.mem_append, List.mem_cons]
        exact or_left_comm
      rw [List.cons_append, firstOfKey, if_neg hf, firstOfKey, if_neg hf, ih, firstOfKey_congr hseen,
        List.cons_append]

theorem firstOfKey_eq_nil {seen : List (AgentType × Text × Int × Text)} {fs : List Finding}
    (h : ∀ f ∈ fs, f.dedupKey ∈ seen) : firstOfKey seen fs = [] := by
  induction fs with
  | nil => rfl
  | cons f fs ih =>
    rw [firstOfKey, if_pos (h f (by simp)), ih fun g hg => h g (by simp [hg])]

theorem keys_firstOfKey (seen : List (AgentType × Text × Int × Text)) (fs : List Finding) {f : Finding}
    (hf : f ∈ fs) : f.dedupKey ∈ seen ∨ f.dedupKey ∈ (firstOfKey seen fs).map Finding.dedupKey := by
  induction fs generalizing seen with
  | nil => simp at hf
  | cons g fs ih =>
    rw [firstOfKey]
    rcases List.mem_cons.mp hf with rfl | hf
    · by_cases hin : f.dedupKey ∈ seen
      · exact .inl hin
      · rw [if_neg hin]
        exact .inr (by simp)
    · split_ifs with hin
      · exact ih seen hf
      · rcases ih (g.dedupKey :: seen) hf with hh | hh
        · rcases List.mem_cons.mp hh with he | hh
          · exact .inr (by simp [he])
          · exact .inl hh
        · exact .inr (List.mem_cons_of_mem _ hh)

theorem firstOfKey_take_take (fs : List Finding) (m n : Nat) :
    firstOfKey [] (fs.take m) ++ firstOfKey ((fs.take m).map Finding.dedupKey) (fs.take n) =
      firstOfKey [] (fs.take (max m n)) := by
  by_cases hmn : n ≤ m
  · have hnone : firstOfKey ((fs.take m).map Finding.dedupKey) (fs.take n) = [] := by
      refine firstOfKey_eq_nil fun f hf => List.mem_map_of_mem ?_
      exact (List.take_subset_take_left fs hmn) hf
    rw [hnone, List.append_nil, Nat.max_eq_left hmn]
  · have hle : m ≤ n := by omega
    have hsplit : fs.take n = fs.take m ++ (fs.drop m).take (n - m) := by
      rw [← List.take_add, Nat.add_sub_cancel' hle]
    have hold : firstOfKey ((fs.take m).map Finding.dedupKey) (fs.take m) = [] :=
      firstOfKey_eq_nil fun f hf => List.mem_map_of_mem hf
    have hseen : ∀ k, k ∈ (fs.take m).map Finding.dedupKey ++ (fs.take m).map Finding.dedupKey ↔
        k ∈ (fs.take m).map Finding.dedupKey ++ [] := by
      intro k
      simp
    rw [Nat.max_eq_right hle, hsplit, firstOfKey_append, firstOfKey_append, hold, List.nil_append,
      firstOfKey_congr hseen]

/-! Calls of `insert_findings` with the same findings. -/

/-- One call with the first `n` findings. A call that raises leaves nothing. -/
def insertPrefix (reviewId : Nat) (fs : List Finding) (w : ReviewWorld) (a : Nat × ReviewChoice) : ReviewWorld :=
  match Prog.complete ReviewCall.exec a.2 w (TruthStore.insertFindings reviewId (fs.take a.1)) with
  | some (_, w') => w'
  | none => w

/-- The review has its rows from the first `n` findings. -/
structure HoldsPrefix (reviewId : Nat) (fs : List Finding) (n : Nat) (w : ReviewWorld) : Prop where
  review : reviewId < w.db.reviews.rows.length
  rows : (w.db.findings.rows.filter fun r => r.reviewId = reviewId) =
    (firstOfKey [] (fs.take n)).map (storedRow reviewId)

section

variable {reviewId : Nat} {fs : List Finding} {n : Nat} {w : ReviewWorld}

theorem HoldsPrefix.seen (h : HoldsPrefix reviewId fs n w) (k : AgentType × Text × Int × Text) :
    k ∈ (fs.take n).map Finding.dedupKey ↔ (reviewId, k) ∈ w.db.findings.rows.map FindingRecord.key := by
  have hrow : ∀ r ∈ w.db.findings.rows, r.reviewId = reviewId →
      r ∈ (firstOfKey [] (fs.take n)).map (storedRow reviewId) := by
    intro r hr he
    rw [← h.rows]
    exact List.mem_filter.mpr ⟨hr, by simpa using he⟩
  constructor
  · intro hk
    obtain ⟨f, hf, rfl⟩ := List.mem_map.mp hk
    rcases keys_firstOfKey [] (fs.take n) hf with hno | hin
    · simp at hno
    · obtain ⟨g, hg, he⟩ := List.mem_map.mp hin
      have hmem : storedRow reviewId g ∈ w.db.findings.rows.filter fun r => r.reviewId = reviewId := by
        rw [h.rows]
        exact List.mem_map_of_mem hg
      exact List.mem_map.mpr ⟨_, (List.mem_filter.mp hmem).1, by rw [← he]; rfl⟩
  · intro hk
    obtain ⟨r, hr, he⟩ := List.mem_map.mp hk
    obtain ⟨f, hf, rfl⟩ := List.mem_map.mp (hrow r hr (congrArg Prod.fst he))
    have hkey : f.dedupKey = k := congrArg Prod.snd he
    rw [← hkey]
    exact List.mem_map_of_mem ((firstOfKey_sublist _ _).subset hf)

theorem HoldsPrefix.insert {a : Nat × ReviewChoice} (h : HoldsPrefix reviewId fs n w)
    (hs : (fs.take a.1).all storableFinding = true) :
    HoldsPrefix reviewId fs (max n a.1) (insertPrefix reviewId fs w a) := by
  have hmax := firstOfKey_take_take fs n a.1
  by_cases hne : fs.take a.1 = []
  · have hw : insertPrefix reviewId fs w a = w := by
      simp [insertPrefix, TruthStore.insertFindings, hne, Prog.complete, pure]
    rw [hne, firstOfKey, List.append_nil] at hmax
    rw [hw]
    exact ⟨h.review, by rw [h.rows, hmax]⟩
  · have hw : insertPrefix reviewId fs w a = ⟨w.db.insertFindings reviewId (fs.take a.1) h.review, w.github⟩ := by
      simp [insertPrefix, TruthStore.insertFindings, hne, ReviewCall.perform, Prog.perform, Prog.complete,
        ReviewCall.exec, hs, h.review]
    rw [hw]
    refine ⟨by simpa using h.review, ?_⟩
    have hall : ∀ r ∈ (firstOfKey ((fs.take n).map Finding.dedupKey) (fs.take a.1)).map (storedRow reviewId),
        decide (r.reviewId = reviewId) = true := by
      intro r hr
      obtain ⟨f, _, rfl⟩ := List.mem_map.mp hr
      exact decide_eq_true rfl
    rw [insertFindings_rows h.seen, List.filter_append, h.rows, List.filter_eq_self.mpr hall, ← List.map_append, hmax]

end

/-! The same in terms of the findings before `dedup_findings`. -/

end AiPrReview
