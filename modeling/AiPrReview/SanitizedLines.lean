import AiPrReview.FragmentScan
import AiPrReview.Lines
import Mathlib.Data.List.Infix

/-! Which lines of an untrusted text the reviewer still sees as written. -/

namespace AiPrReview

section

variable {α : Type} (char : α → Char)

def isNewline (a : α) : Bool := char a == '\n'

def cleanLine (line : List α) : Bool := line.all fun a => !isInvisible (char a) && char a != '«'

variable {char}

theorem removeInvisible_clean {line : List α} (h : cleanLine char line = true) :
    removeInvisible char line = line := by
  refine List.filter_eq_self.mpr fun a ha => ?_
  have hc := List.all_eq_true.mp h a ha
  rw [Bool.and_eq_true] at hc
  exact hc.1

theorem stripFragments_clean {line : List α} (h : cleanLine char line = true) (rest : List α) :
    stripFragments char false (line ++ rest) = line ++ stripFragments char false rest := by
  induction line with
  | nil => rfl
  | cons a line ih =>
    simp only [cleanLine, List.all_cons, Bool.and_eq_true, bne_iff_ne, ne_eq] at h
    have ha : ¬(char a == '«' && startsMarker ((line ++ rest).map char)) = true := by
      simp [h.1.2]
    rw [List.cons_append, stripFragments, if_neg ha, ih h.2, List.cons_append]

theorem cleaned_clean {line : List α} (h : cleanLine char line = true) (rest : List α) :
    cleaned char (line ++ rest) = line ++ cleaned char rest := by
  rw [cleaned, removeInvisible_append, removeInvisible_clean h, stripFragments_clean h]
  rfl

/-! Before a place outside a fragment the last newline is kept. -/

theorem getLast?_keptOf {b : Bool} {pre rest : List α} (h : ∀ a ∈ pre.getLast?, isNewline char a = true)
    (ho : openAt char b pre rest = false) : (keptOf char b pre rest).getLast? = pre.getLast? := by
  induction pre generalizing b with
  | nil => rfl
  | cons a pre ih =>
    cases pre with
    | nil =>
      have ha : char a = '\n' := by simpa [isNewline] using h a (by simp)
      cases b with
      | true => simp [openAt, ha] at ho
      | false => simp [keptOf, ha]
    | cons c pre =>
      have hrest : ∀ d ∈ (c :: pre).getLast?, isNewline char d = true := by
        intro d hd
        exact h d (by rwa [List.getLast?_cons_cons])
      rw [List.getLast?_cons_cons]
      cases b with
      | true => exact ih hrest ho
      | false =>
        rw [openAt] at ho
        rw [keptOf]
        split_ifs with hm
        · rw [hm] at ho
          exact ih hrest ho
        · rw [Bool.eq_false_of_not_eq_true hm] at ho
          rw [List.getLast?_cons, ih hrest ho, List.getLast?_cons]
          rfl

theorem getLast?_removeInvisible {pre : List α} (h : ∀ a ∈ pre.getLast?, isNewline char a = true) :
    ∀ a ∈ (removeInvisible char pre).getLast?, isNewline char a = true := by
  rcases List.eq_nil_or_concat pre with rfl | ⟨init, a, rfl⟩
  · exact h
  · have ha : isNewline char a = true := h a (by simp)
    have hv : removeInvisible char [a] = [a] := by
      have hc : char a = '\n' := by simpa [isNewline] using ha
      refine List.filter_eq_self.mpr fun b hb => ?_
      rw [List.mem_singleton.mp hb, hc]
      decide
    rw [List.concat_eq_append, removeInvisible_append, hv]
    intro b hb
    have he : a = b := by simpa using hb
    rw [← he]
    exact ha

theorem mem_linesOf_cleaned {pre line post : List α} (hl : LineAt (isNewline char) pre line post)
    (hc : cleanLine char line = true) (ho : ¬openAfter char pre (line ++ post)) :
    line ∈ linesOf (isNewline char) (cleaned char (pre ++ (line ++ post))) := by
  have hopen : openAt char false (removeInvisible char pre) (removeInvisible char (line ++ post)) = false := by
    rw [← openAt_removeInvisible] at ho
    simpa using ho
  have hsplit : cleaned char (pre ++ (line ++ post)) =
      keptOf char false (removeInvisible char pre) (removeInvisible char (line ++ post)) ++
        (line ++ cleaned char post) := by
    rw [cleaned_append, hopen]
    exact congrArg _ (cleaned_clean hc post)
  refine mem_linesOf_iff.mpr ⟨_, _, hsplit, hl.ne_nil, ?_, hl.inside, ?_⟩
  · rw [getLast?_keptOf (getLast?_removeInvisible hl.starts) hopen]
    exact getLast?_removeInvisible hl.starts
  · rcases hl.stops with rfl | hs
    · exact .inl rfl
    · exact .inr hs

theorem cleaned_sublist (l : List α) : (cleaned char l).Sublist l :=
  (stripFragments_sublist char false _).trans List.filter_sublist

theorem notMem_linesOf_cleaned {pre line post : List α} (hl : LineAt (isNewline char) pre line post)
    (hc : cleanLine char line = true) (ho : openAfter char pre (line ++ post))
    (hd : (pre ++ (line ++ post)).Nodup) :
    line ∉ linesOf (isNewline char) (cleaned char (pre ++ (line ++ post))) := by
  intro hmem
  obtain ⟨a, line, rfl⟩ := List.exists_cons_of_ne_nil hl.ne_nil
  have ha : a ∈ cleaned char (pre ++ (a :: line ++ post)) := by
    rw [← flatten_linesOf (isNewline char) (cleaned char _)]
    exact List.mem_flatten.mpr ⟨_, hmem, List.mem_cons_self⟩
  have hopen := (openAt_removeInvisible char pre (a :: line ++ post)).mpr ho
  have hfirst : removeInvisible char (a :: line ++ post) = a :: removeInvisible char (line ++ post) := by
    rw [removeInvisible_append, removeInvisible_clean hc, removeInvisible_append]
    have htail : cleanLine char line = true := by
      simp only [cleanLine, List.all_cons, Bool.and_eq_true] at hc
      exact hc.2
    rw [removeInvisible_clean htail, List.cons_append]
  rw [cleaned_append, hopen, hfirst, stripFragments] at ha
  obtain ⟨_, hrest, hdisj⟩ := List.nodup_append.mp hd
  rcases List.mem_append.mp ha with hk | hk
  · have hpre : a ∈ pre := (List.mem_filter.mp (keptOf_subset char _ _ _ hk)).1
    exact hdisj a hpre a (by simp) rfl
  · have hpost : a ∈ line ++ post := (List.mem_filter.mp ((stripFragments_sublist char _ _).subset hk)).1
    exact (List.nodup_cons.mp hrest).1 hpost

end

/-! The characters of a text carry their places, so that two equal lines are told apart. -/

section

variable {α β : Type} (char : β → Char) (f : α → β)

theorem removeInvisible_map (l : List α) :
    (removeInvisible (fun a => char (f a)) l).map f = removeInvisible char (l.map f) := by
  simp [removeInvisible, List.filter_map, Function.comp_def]

theorem stripFragments_map (b : Bool) (l : List α) :
    (stripFragments (fun a => char (f a)) b l).map f = stripFragments char b (l.map f) := by
  induction l generalizing b with
  | nil => simp [stripFragments]
  | cons a l ih =>
    cases b with
    | true => exact ih _
    | false =>
      simp only [List.map_cons, stripFragments, List.map_map, Function.comp_def]
      split_ifs
      · exact ih true
      · rw [List.map_cons, ih false]

theorem cleaned_map (l : List α) :
    (cleaned (fun a => char (f a)) l).map f = cleaned char (l.map f) := by
  rw [cleaned, stripFragments_map, removeInvisible_map, cleaned]

theorem openAt_map (b : Bool) (pre rest : List α) :
    openAt (fun a => char (f a)) b pre rest = openAt char b (pre.map f) (rest.map f) := by
  induction pre generalizing b with
  | nil => simp [openAt]
  | cons a pre ih =>
    cases b with
    | true => exact ih _
    | false =>
      simp only [List.map_cons, openAt, ← List.map_append, List.map_map, Function.comp_def]
      exact ih _

theorem openAfter_map (pre rest : List α) :
    openAfter (fun a => char (f a)) pre rest ↔ openAfter char (pre.map f) (rest.map f) := by
  rw [← openAt_removeInvisible, ← openAt_removeInvisible, openAt_map, removeInvisible_map,
    removeInvisible_map]

theorem cleanLine_map (line : List α) :
    cleanLine char (line.map f) = cleanLine (fun a => char (f a)) line := by
  simp [cleanLine, List.all_map, Function.comp_def]

end

theorem nodup_zipIdx (text : Text) : text.zipIdx.Nodup :=
  (pairwise_zipIdx text).imp fun h he => by
    rw [he] at h
    exact lt_irrefl _ h

/-- Every clean line of `text`, at its own place, is a line of the cleaned text. -/
def KeepsLines (text : Text) : Prop :=
  ((linesOf (isNewline Prod.fst) text.zipIdx).filter (cleanLine Prod.fst)).Sublist
    (linesOf (isNewline Prod.fst) (cleaned Prod.fst text.zipIdx))

/-- No clean line of `text` starts inside a fragment that is still open. -/
def LinesOutsideFragments (text : Text) : Prop :=
  ∀ pre line post, text = pre ++ (line ++ post) → LineAt (isNewline id) pre line post →
    cleanLine id line = true → ¬openAfter id pre (line ++ post)

theorem keepsLines_of_outside {text : Text} (h : LinesOutsideFragments text) : KeepsLines text := by
  have hsorted := pairwise_zipIdx text
  refine linesOf_sublist Prod.snd hsorted (hsorted.sublist (cleaned_sublist _)) List.filter_sublist ?_
  intro line hline
  obtain ⟨hmem, hc⟩ := List.mem_filter.mp hline
  obtain ⟨pre, post, he, hl⟩ := mem_linesOf_iff.mp hmem
  have htext : text = pre.map Prod.fst ++ (line.map Prod.fst ++ post.map Prod.fst) := by
    have hm := congrArg (List.map Prod.fst) he
    simpa [List.zipIdx_map_fst] using hm
  have ho := h _ _ _ htext ((LineAt.map_iff (isNewline id) Prod.fst).mpr hl) (by rw [cleanLine_map]; exact hc)
  rw [he]
  refine mem_linesOf_cleaned hl hc fun hopen => ho ?_
  rw [← List.map_append]
  exact (openAfter_map id Prod.fst pre (line ++ post)).mp hopen

theorem outside_of_keepsLines {text : Text} (h : KeepsLines text) : LinesOutsideFragments text := by
  intro pre line post he hl hc hopen
  have hz : text.zipIdx.map Prod.fst = pre ++ (line ++ post) := by
    rw [List.zipIdx_map_fst, he]
  obtain ⟨pre', rest, hz', rfl, hrest⟩ := List.map_eq_append_iff.mp hz
  obtain ⟨line', post', rfl, rfl, rfl⟩ := List.map_eq_append_iff.mp hrest
  have hl' : LineAt (isNewline Prod.fst) pre' line' post' := (LineAt.map_iff (isNewline id) Prod.fst).mp hl
  have hc' : cleanLine Prod.fst line' = true := by rw [cleanLine_map] at hc; exact hc
  have hmem : line' ∈ (linesOf (isNewline Prod.fst) text.zipIdx).filter (cleanLine Prod.fst) :=
    List.mem_filter.mpr ⟨mem_linesOf_iff.mpr ⟨pre', post', hz', hl'⟩, hc'⟩
  have hkept := h.subset hmem
  have hnodup := nodup_zipIdx text
  rw [hz'] at hkept hnodup
  rw [← List.map_append] at hopen
  exact notMem_linesOf_cleaned hl' hc' ((openAfter_map id Prod.fst pre' _).mpr hopen) hnodup hkept

/-- Forgetting the places, the clean lines are lines of the sanitized text, in their order. -/
theorem KeepsLines.sublist {text : Text} (h : KeepsLines text) (isWord : Char → Bool) :
    ((linesOf (isNewline id) text).filter (cleanLine id)).Sublist
      (linesOf (isNewline id) (sanitize isWord text).text) := by
  have hlines : ∀ l : List (Char × Nat), (linesOf (isNewline Prod.fst) l).map (List.map Prod.fst) =
      linesOf (isNewline id) (l.map Prod.fst) := fun l => linesOf_map (isNewline id) Prod.fst l
  have hclean : (cleaned Prod.fst text.zipIdx).map Prod.fst = (sanitize isWord text).text := by
    have hm := cleaned_map id (Prod.fst : Char × Nat → Char) text.zipIdx
    rwa [List.zipIdx_map_fst] at hm
  have hmap := List.Sublist.map (List.map Prod.fst) h
  rw [hlines, hclean] at hmap
  have hfilter : ((linesOf (isNewline Prod.fst) text.zipIdx).filter (cleanLine Prod.fst)).map
      (List.map Prod.fst) = (linesOf (isNewline id) text).filter (cleanLine id) := by
    have ht : linesOf (isNewline id) text =
        (linesOf (isNewline Prod.fst) text.zipIdx).map (List.map Prod.fst) := by
      rw [hlines, List.zipIdx_map_fst]
    rw [ht, List.filter_map]
    congr 2
    funext line
    exact (cleanLine_map id Prod.fst line).symm
  rwa [hfilter] at hmap

theorem sanitize_keepsLines_iff (isWord : Char → Bool) (text : Text) :
    (KeepsLines text ↔ LinesOutsideFragments text) ∧
      (LinesOutsideFragments text → ((linesOf (isNewline id) text).filter (cleanLine id)).Sublist
        (linesOf (isNewline id) (sanitize isWord text).text)) := by
  refine ⟨⟨outside_of_keepsLines, keepsLines_of_outside⟩, fun h => ?_⟩
  exact (keepsLines_of_outside h).sublist isWord

theorem openFragment_hides_line :
    ¬((linesOf (isNewline id) "«UNTRUSTED\ncode\n".toList).filter (cleanLine id)).Sublist
      (linesOf (isNewline id) (sanitize Char.isAlphanum "«UNTRUSTED\ncode\n".toList).text) := by
  decide +kernel

end AiPrReview
