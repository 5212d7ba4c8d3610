import Mathlib.Data.List.Infix

/-! Texts edited line by line, and parts that a text contains in order. -/

namespace AiPrReview.LineEdits

variable {α : Type}

/-! Lines. -/

theorem intercalate_append {sep : List α} {A B : List (List α)} (hA : A ≠ []) (hB : B ≠ []) :
    sep.intercalate (A ++ B) = sep.intercalate A ++ sep ++ sep.intercalate B := by
  induction A with
  | nil => exact absurd rfl hA
  | cons a A ih =>
    rw [List.cons_append, List.intercalate_cons_of_ne_nil (List.append_ne_nil_of_right_ne_nil A hB)]
    by_cases h : A = []
    · subst h
      simp
    · rw [ih h, List.intercalate_cons_of_ne_nil h]
      simp only [List.append_assoc]

theorem intercalate_around (nl : α) (before : List (List α)) (line : List α) (after : List (List α)) :
    [nl].intercalate (before ++ line :: after) =
      before.flatMap (· ++ [nl]) ++ line ++ after.flatMap (nl :: ·) := by
  induction before with
  | nil =>
    induction after generalizing line with
    | nil => simp
    | cons next after ih =>
      have hh := ih next
      simp only [List.nil_append, List.flatMap_nil] at hh ⊢
      rw [List.intercalate_cons_cons, hh]
      simp
  | cons first before ih =>
    rw [List.cons_append, List.intercalate_cons_of_ne_nil (by simp), ih]
    simp

section

variable {p : α → Bool}

theorem eq_false_of_mem_splitOnP {line t : List α} (h : line ∈ t.splitOnP p) : ∀ c ∈ line, p c = false := by
  induction t generalizing line with
  | nil =>
    obtain rfl : line = [] := by simpa only [List.splitOnP_nil, List.mem_singleton] using h
    exact fun _ hc => absurd hc List.not_mem_nil
  | cons a t ih =>
    rw [List.splitOnP_cons_eq_if_modifyHead] at h
    by_cases ha : p a = true
    · rw [if_pos ha] at h
      rcases List.mem_cons.mp h with rfl | h
      · exact fun _ hc => absurd hc List.not_mem_nil
      · exact ih h
    · obtain ⟨first, rest, hs⟩ := List.exists_cons_of_ne_nil (List.splitOnP_ne_nil p t)
      rw [if_neg ha, hs, List.modifyHead_cons] at h
      rw [hs] at ih
      rcases List.mem_cons.mp h with rfl | h
      · intro c hc
        rcases List.mem_cons.mp hc with rfl | hc
        · exact Bool.eq_false_iff.mpr ha
        · exact ih List.mem_cons_self c hc
      · exact ih (List.mem_cons_of_mem _ h)

theorem splitOnP_ended {nl : α} (hnl : p nl = true) {lines : List (List α)}
    (h : ∀ line ∈ lines, ∀ c ∈ line, p c = false) :
    (lines.flatMap (· ++ [nl])).splitOnP p = lines ++ [[]] := by
  induction lines with
  | nil => exact List.splitOnP_nil
  | cons line lines ih =>
    have hh := ih fun x hx => h x (List.mem_cons_of_mem _ hx)
    rw [List.flatMap_cons, List.append_assoc, List.singleton_append,
      List.splitOnP_append_cons_of_forall_mem (h line List.mem_cons_self) nl hnl, hh]
    rfl

end

section

variable [DecidableEq α] {nl : α}

theorem splitOn_cons_of_ne {c : α} (h : c ≠ nl) (t : List α) :
    (c :: t).splitOn nl = (t.splitOn nl).modifyHead (c :: ·) := by
  rw [List.splitOn_cons_eq_if_modifyHead, beq_false_of_ne h]
  rfl

theorem exists_splitOn (nl : α) (t : List α) : ∃ line lines, t.splitOn nl = line :: lines :=
  List.exists_cons_of_ne_nil (List.splitOn_ne_nil nl t)

theorem splitOn_indented {indent : List α} (h : nl ∉ indent) (t : List α) :
    (indent ++ t).splitOn nl = (t.splitOn nl).modifyHead (indent ++ ·) := by
  obtain ⟨line, lines, hs⟩ := exists_splitOn nl t
  induction indent with
  | nil =>
    rw [List.nil_append, hs]
    rfl
  | cons c indent ih =>
    rw [List.cons_append, splitOn_cons_of_ne (List.ne_of_not_mem_cons h).symm,
      ih (List.not_mem_of_not_mem_cons h), hs]
    rfl

theorem not_mem_of_mem_splitOn {line t : List α} (h : line ∈ t.splitOn nl) : nl ∉ line := by
  intro hm
  rw [List.splitOn_eq_splitOnP] at h
  have hh := eq_false_of_mem_splitOnP h nl hm
  rw [beq_self_eq_true] at hh
  cases hh

theorem mem_splitOn_of_infix {line t : List α} (hline : nl ∉ line) (h : nl :: line ++ [nl] <:+: t) :
    line ∈ t.splitOn nl := by
  obtain ⟨pre, post, rfl⟩ := h
  have ht : pre ++ (nl :: line ++ [nl]) ++ post = pre ++ nl :: (line ++ nl :: post) := by simp
  rw [ht, List.splitOn_append_cons_self, List.splitOn_append_cons_self_of_not_mem hline]
  simp

theorem exists_of_mem_splitOn {line t : List α} (h : line ∈ t.splitOn nl) :
    ∃ pre post, t = pre ++ line ++ post ∧ (pre = [] ∨ ∃ p, pre = p ++ [nl]) ∧ (post = [] ∨ ∃ q, post = nl :: q) := by
  obtain ⟨before, after, hs⟩ := List.append_of_mem h
  have ht : t = before.flatMap (· ++ [nl]) ++ line ++ after.flatMap (nl :: ·) := by
    rw [← intercalate_around, ← hs, List.intercalate_splitOn]
  refine ⟨_, _, ht, ?_, ?_⟩
  · rcases List.eq_nil_or_concat before with rfl | ⟨before, last, rfl⟩
    · exact .inl rfl
    · exact .inr ⟨before.flatMap (· ++ [nl]) ++ last, by simp⟩
  · cases after with
    | nil => exact .inl rfl
    | cons next after => exact .inr ⟨next ++ after.flatMap (nl :: ·), by simp⟩

/-! Edits. -/

/-- `f` of every line. -/
def mapLines (nl : α) (f : List α → List α) (t : List α) : List α := [nl].intercalate ((t.splitOn nl).map f)

theorem mapLines_append (f : List α → List α) (s t : List α) :
    mapLines nl f (s ++ nl :: t) = mapLines nl f s ++ nl :: mapLines nl f t := by
  rw [mapLines, List.splitOn_append_cons_self, List.map_append, intercalate_append (by simp) (by simp),
    List.append_assoc]
  rfl

theorem mapLines_line (f : List α → List α) {line : List α} (h : nl ∉ line) : mapLines nl f line = f line := by
  rw [mapLines, List.splitOn_eq_singleton h, List.map_singleton, List.intercalate_singleton]

theorem mapLines_indented {f : List α → List α} {indent indent' t line : List α} {lines : List (List α)}
    (hindent : nl ∉ indent) (ht : t.splitOn nl = line :: lines) (hline : f (indent ++ line) = indent' ++ line)
    (hlines : ∀ l ∈ lines, f l = l) : mapLines nl f (indent ++ t) = indent' ++ t := by
  have hmap : lines.map f = lines := by simpa using List.map_congr_left hlines
  have hback : t = line ++ lines.flatMap (nl :: ·) := by
    have hh := intercalate_around nl [] line lines
    rw [List.nil_append, ← ht, List.intercalate_splitOn] at hh
    simpa using hh
  have hh := intercalate_around nl [] (indent' ++ line) lines
  rw [mapLines, splitOn_indented hindent, ht, List.modifyHead_cons, List.map_cons, hline, hmap, hback]
  simpa using hh

theorem splitOn_mapLines {f : List α → List α} (hf : ∀ l, nl ∉ l → nl ∉ f l) (t : List α) :
    (mapLines nl f t).splitOn nl = (t.splitOn nl).map f := by
  refine List.splitOn_intercalate nl (fun l hl => ?_) (by simp)
  obtain ⟨line, hline, rfl⟩ := List.mem_map.mp hl
  exact hf line (not_mem_of_mem_splitOn hline)

end

/-! Parts in order. -/

/-- The parts stand in the text one after the other. -/
def InOrder : List (List α) → List α → Prop
  | [], _ => True
  | part :: parts, t => ∃ pre post, t = pre ++ part ++ post ∧ InOrder parts post

namespace InOrder

theorem prepend {parts : List (List α)} {t : List α} (h : InOrder parts t) (pre : List α) :
    InOrder parts (pre ++ t) := by
  cases parts with
  | nil => exact trivial
  | cons part parts =>
    obtain ⟨before, post, rfl, hrest⟩ := h
    exact ⟨pre ++ before, post, by simp only [List.append_assoc], hrest⟩

theorem infix_of_mem {parts : List (List α)} {t part : List α} (h : InOrder parts t) (hpart : part ∈ parts) :
    part <:+: t := by
  induction parts generalizing t with
  | nil => cases hpart
  | cons first parts ih =>
    obtain ⟨pre, post, rfl, hrest⟩ := h
    rcases List.mem_cons.mp hpart with rfl | hpart
    · exact ⟨pre, post, rfl⟩
    · exact (ih hrest hpart).trans (List.suffix_append (pre ++ first) post).isInfix

theorem of_forall_nil {parts : List (List α)} (h : ∀ part ∈ parts, part = []) (t : List α) : InOrder parts t := by
  induction parts with
  | nil => exact trivial
  | cons part parts ih =>
    obtain rfl := h part List.mem_cons_self
    exact ⟨[], t, rfl, ih fun q hq => h q (List.mem_cons_of_mem _ hq)⟩

theorem concat {parts : List (List α)} {t last : List α} (h : InOrder parts t) :
    InOrder (parts ++ [last]) (t ++ last) := by
  induction parts generalizing t with
  | nil => exact ⟨t, [], by simp, trivial⟩
  | cons part parts ih =>
    obtain ⟨pre, post, rfl, hrest⟩ := h
    exact ⟨pre, post ++ last, by simp only [List.append_assoc], ih hrest⟩

theorem intercalate (sep : List α) (parts : List (List α)) : InOrder parts (sep.intercalate parts) := by
  induction parts with
  | nil => exact trivial
  | cons part parts ih =>
    cases parts with
    | nil => exact ⟨[], [], by simp, trivial⟩
    | cons next parts =>
      rw [List.intercalate_cons_cons]
      exact ⟨[], sep ++ sep.intercalate (next :: parts), by simp, ih.prepend sep⟩

end InOrder

end AiPrReview.LineEdits
