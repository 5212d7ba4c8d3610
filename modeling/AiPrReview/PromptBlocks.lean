import AiPrReview.FenceForgery
import AiPrReview.LineEdits
import AiPrReview.Specialist
import AiPrReview.Words

/-! The user message of a specialist, for any guard: whether the untrusted
blocks come through the dedent and the strip of their template. -/

namespace AiPrReview

open LineEdits (mapLines InOrder)

/-! The prompt. -/

def chunkBlock (wrap : Text → Text → Text) (c : RetrievedChunk) : Text := wrap ("CHUNK ".toList ++ c.path) c.content

def diffBlock (wrap : Text → Text → Text) (diff : DiffContext) : Text := wrap "PR DIFF".toList diff.diffText

def contextBlock (wrap : Text → Text → Text) (grounding : List RetrievedChunk) : Text :=
  if grounding = [] then "(no related codebase context retrieved)".toList
  else joinWith "\n\n".toList (grounding.map (chunkBlock wrap))

def promptTemplate (diff : DiffContext) (diffBlock contextBlock : Text) : Text :=
  "\n            Repository: ".toList ++ diff.repoFullName ++
  "\n            Pull request: #".toList ++ intText diff.prNumber ++
  "\n\n            ## Diff under review\n            ".toList ++ diffBlock ++
  "\n\n            ## Retrieved codebase context (grounding — use this, don't guess)\n            ".toList ++
  contextBlock ++ "\n            ".toList

/-- `_build_prompt` with what `wrap` of the guard does as a parameter. -/
def buildPrompt (wrap : Text → Text → Text) (diff : DiffContext) (grounding : List RetrievedChunk) : Text :=
  strip (dedent (promptTemplate diff (diffBlock wrap diff) (contextBlock wrap grounding)))

theorem SpecialistAgent.buildPrompt_eq (a : SpecialistAgent) (diff : DiffContext) (grounding : List RetrievedChunk) :
    a.buildPrompt diff grounding = AiPrReview.buildPrompt (a.guard.wrap a.isWord) diff grounding := rfl

def untrustedBlocks (wrap : Text → Text → Text) (diff : DiffContext) (grounding : List RetrievedChunk) : List Text :=
  diffBlock wrap diff :: grounding.map (chunkBlock wrap)

/-! What `dedent` does to a line. -/

def blankOut (line : Text) : Text := if line.all isBlankChar then [] else line

def dedentMargin (text : Text) : Text := margin ((text.splitOn '\n').map blankOut)

def dedentLine (margin line : Text) : Text :=
  if margin.isPrefixOf (blankOut line) then (blankOut line).drop margin.length else blankOut line

theorem dedent_eq (text : Text) : dedent text = mapLines '\n' (dedentLine (dedentMargin text)) text := by
  rw [dedent, mapLines, List.map_map]
  rfl

theorem commonPrefix_isPrefix (s t : Text) : commonPrefix s t <+: s ∧ commonPrefix s t <+: t := by
  induction s generalizing t with
  | nil => exact ⟨List.nil_prefix, List.nil_prefix⟩
  | cons a s ih =>
    cases t with
    | nil => exact ⟨List.nil_prefix, List.nil_prefix⟩
    | cons b t =>
      by_cases h : a = b
      · subst h
        have hh : commonPrefix (a :: s) (a :: t) = a :: commonPrefix s t := by simp [commonPrefix]
        rw [hh]
        exact ⟨(List.prefix_cons_inj a).mpr (ih t).1, (List.prefix_cons_inj a).mpr (ih t).2⟩
      · have hh : commonPrefix (a :: s) (b :: t) = [] := by simp [commonPrefix, h]
        rw [hh]
        exact ⟨List.nil_prefix, List.nil_prefix⟩

theorem foldl_commonPrefix_isPrefix (indents : List Text) (s : Text) :
    indents.foldl commonPrefix s <+: s ∧ ∀ t ∈ indents, indents.foldl commonPrefix s <+: t := by
  induction indents generalizing s with
  | nil => exact ⟨List.prefix_refl s, by simp⟩
  | cons t indents ih =>
    obtain ⟨hs, hall⟩ := ih (commonPrefix s t)
    refine ⟨hs.trans (commonPrefix_isPrefix s t).1, fun u hu => ?_⟩
    rcases List.mem_cons.mp hu with rfl | hu
    · exact hs.trans (commonPrefix_isPrefix s u).2
    · exact hall u hu

/-- The margin is an indentation of every line that is not blank. -/
theorem margin_isPrefix {lines : List Text} {line : Text} (h : line ∈ lines) (hne : line ≠ []) :
    margin lines <+: line.takeWhile isBlankChar := by
  have hmem : line.takeWhile isBlankChar ∈ (lines.filter (· ≠ [])).map fun l => l.takeWhile isBlankChar :=
    List.mem_map.mpr ⟨line, List.mem_filter.mpr ⟨h, by simpa using hne⟩, rfl⟩
  unfold margin
  split
  · next hnil =>
    rw [hnil] at hmem
    cases hmem
  · next indent indents hcons =>
    rw [hcons] at hmem
    obtain ⟨hs, hall⟩ := foldl_commonPrefix_isPrefix indents indent
    rcases List.mem_cons.mp hmem with he | hmem
    · rw [he]
      exact hs
    · exact hall _ hmem

theorem blankOut_of_not_all {line : Text} (h : line.all isBlankChar = false) : blankOut line = line := by
  rw [blankOut, h]
  rfl

theorem dedentMargin_isPrefix {text line : Text} (h : line ∈ text.splitOn '\n')
    (hblank : line.all isBlankChar = false) :
    dedentMargin text <+: line.takeWhile isBlankChar := by
  have hne : line ≠ [] := by
    rintro rfl
    cases hblank
  have hmem : line ∈ (text.splitOn '\n').map blankOut := List.mem_map.mpr ⟨line, h, blankOut_of_not_all hblank⟩
  exact margin_isPrefix hmem hne

theorem dedentLine_blank {m line : Text} (h : line.all isBlankChar = true) : dedentLine m line = [] := by
  have hh : blankOut line = [] := by simp [blankOut, h]
  rw [dedentLine, hh]
  split_ifs
  · exact List.drop_nil
  · rfl

theorem dedentLine_nil_margin {line : Text} (h : line.all isBlankChar = true → line = []) :
    dedentLine [] line = line := by
  cases hb : line.all isBlankChar with
  | true =>
    rw [dedentLine_blank hb, h hb]
  | false =>
    rw [dedentLine, blankOut_of_not_all hb]
    rfl

theorem dedentLine_indented {m indent line : Text} (hm : m <+: indent) (h : line.all isBlankChar = false) :
    dedentLine m (indent ++ line) = indent.drop m.length ++ line := by
  have hall : (indent ++ line).all isBlankChar = false := by simp [h]
  have hp : m <+: indent ++ line := hm.trans (List.prefix_append indent line)
  rw [dedentLine, blankOut_of_not_all hall, if_pos (List.isPrefixOf_iff_prefix.mpr hp),
    List.drop_append_of_le_length hm.length_le]

theorem dedentLine_not_blank {m line : Text} (hm : ∀ c ∈ m, isBlankChar c = true)
    (h : (dedentLine m line).all isBlankChar = true) : dedentLine m line = [] := by
  cases hb : line.all isBlankChar with
  | true => exact dedentLine_blank hb
  | false =>
    exfalso
    rw [dedentLine, blankOut_of_not_all hb] at h
    split_ifs at h with hp
    · obtain ⟨rest, rfl⟩ := List.isPrefixOf_iff_prefix.mp hp
      rw [List.drop_left] at h
      rw [List.all_append, h, Bool.and_true] at hb
      have hm' : m.all isBlankChar = true := by simpa using hm
      rw [hm'] at hb
      cases hb
    · rw [hb] at h
      cases h

/-! The template. Its lines are indented by `templateIndent`, blocks are not. -/

def templateIndent : Text := List.replicate 12 ' '

def templateHead (diff : DiffContext) : Text :=
  "\n            Repository: ".toList ++ diff.repoFullName ++
  "\n            Pull request: #".toList ++ intText diff.prNumber ++ ['\n']

def diffHeading : Text := "## Diff under review".toList

def contextHeading : Text := "## Retrieved codebase context (grounding — use this, don't guess)".toList

theorem headed_append {head indent h₁ h₂ s₁ s₂ s₃ : Text} (d c : Text)
    (hs₁ : s₁ = ['\n'] ++ '\n' :: ((indent ++ h₁) ++ '\n' :: indent))
    (hs₂ : s₂ = '\n' :: ([] ++ '\n' :: ((indent ++ h₂) ++ '\n' :: indent))) (hs₃ : s₃ = '\n' :: indent) :
    head ++ s₁ ++ d ++ s₂ ++ c ++ s₃ = (head ++ ['\n']) ++ '\n' :: ((indent ++ h₁) ++ '\n' :: ((indent ++ d) ++ '\n' ::
      ([] ++ '\n' :: ((indent ++ h₂) ++ '\n' :: ((indent ++ c) ++ '\n' :: indent))))) := by
  subst hs₁ hs₂ hs₃
  simp only [List.append_assoc, List.cons_append, List.nil_append]

theorem promptTemplate_eq (diff : DiffContext) (d c : Text) : promptTemplate diff d c =
    templateHead diff ++ '\n' :: ((templateIndent ++ diffHeading) ++ '\n' :: ((templateIndent ++ d) ++ '\n' ::
      ([] ++ '\n' :: ((templateIndent ++ contextHeading) ++ '\n' ::
        ((templateIndent ++ c) ++ '\n' :: templateIndent))))) :=
  headed_append d c (by decide +kernel) (by decide +kernel) (by decide +kernel)

theorem templateIndent_blank : ∀ c ∈ templateIndent, isBlankChar c = true := List.all_eq_true.mp (by decide)

theorem break_not_mem_headings :
    '\n' ∉ templateIndent ++ diffHeading ∧ '\n' ∉ templateIndent ++ contextHeading := by decide

theorem templateMargin_isPrefix (diff : DiffContext) (d c : Text) :
    dedentMargin (promptTemplate diff d c) <+: templateIndent := by
  have hline : templateIndent ++ diffHeading ∈ (promptTemplate diff d c).splitOn '\n' := by
    refine LineEdits.mem_splitOn_of_infix break_not_mem_headings.1 ?_
    rw [promptTemplate_eq]
    exact ⟨templateHead diff, _, by simp only [List.append_assoc, List.cons_append, List.nil_append]; rfl⟩
  have hblank : (templateIndent ++ diffHeading).all isBlankChar = false := by decide
  have htake : (templateIndent ++ diffHeading).takeWhile isBlankChar = templateIndent := by decide
  rw [← htake]
  exact dedentMargin_isPrefix hline hblank

/-- A block keeps its text if it has no blank line, and no further line that could lose a margin. -/
theorem mapLines_block {m block : Text} (hm : m <+: templateIndent)
    (hblank : ∀ line ∈ block.splitOn '\n', line.all isBlankChar = true → line = [])
    (hmargin : m = [] ∨ ∀ line ∈ (block.splitOn '\n').tail, line = []) :
    ∃ indent, mapLines '\n' (dedentLine m) (templateIndent ++ block) = indent ++ block := by
  obtain ⟨line, lines, hs⟩ := LineEdits.exists_splitOn '\n' block
  rw [hs] at hblank hmargin
  have hindent : '\n' ∉ templateIndent := by decide
  have hlines : ∀ l ∈ lines, dedentLine m l = l := by
    intro l hl
    rcases hmargin with rfl | hnil
    · exact dedentLine_nil_margin (hblank l (List.mem_cons_of_mem line hl))
    · rw [hnil l hl]
      exact dedentLine_blank rfl
  cases hb : line.all isBlankChar with
  | true =>
    obtain rfl := hblank line List.mem_cons_self hb
    have hline : dedentLine m (templateIndent ++ []) = [] ++ [] := dedentLine_blank (by decide)
    exact ⟨[], LineEdits.mapLines_indented hindent hs hline hlines⟩
  | false => exact ⟨_, LineEdits.mapLines_indented hindent hs (dedentLine_indented hm hb) hlines⟩

theorem dedent_template {diff : DiffContext} {d c : Text}
    (hd : ∀ line ∈ d.splitOn '\n', line.all isBlankChar = true → line = [])
    (hc : ∀ line ∈ c.splitOn '\n', line.all isBlankChar = true → line = [])
    (hmargin : dedentMargin (promptTemplate diff d c) = [] ∨
      ∀ b ∈ [d, c], ∀ line ∈ (b.splitOn '\n').tail, line = []) :
    ∃ before between, dedent (promptTemplate diff d c) = before ++ (d ++ (between ++ (c ++ ['\n']))) ∧
      (∃ x ∈ before, isSpace x = false) ∧ ∃ x ∈ between, isSpace x = false := by
  have hm := templateMargin_isPrefix diff d c
  rw [dedent_eq]
  generalize dedentMargin (promptTemplate diff d c) = m at hm hmargin
  obtain ⟨i, hi⟩ := mapLines_block hm hd (hmargin.imp_right fun h => h d (by simp))
  obtain ⟨j, hj⟩ := mapLines_block hm hc (hmargin.imp_right fun h => h c (by simp))
  have hdiff : mapLines '\n' (dedentLine m) (templateIndent ++ diffHeading) =
      templateIndent.drop m.length ++ diffHeading := by
    rw [LineEdits.mapLines_line _ break_not_mem_headings.1, dedentLine_indented hm (by decide)]
  have hcontext : mapLines '\n' (dedentLine m) (templateIndent ++ contextHeading) =
      templateIndent.drop m.length ++ contextHeading := by
    rw [LineEdits.mapLines_line _ break_not_mem_headings.2, dedentLine_indented hm (by decide)]
  have hempty : mapLines '\n' (dedentLine m) [] = [] := by
    rw [LineEdits.mapLines_line _ List.not_mem_nil, dedentLine_blank rfl]
  have hend : mapLines '\n' (dedentLine m) templateIndent = [] := by
    rw [LineEdits.mapLines_line _ (by decide), dedentLine_blank (by decide)]
  rw [promptTemplate_eq]
  simp only [LineEdits.mapLines_append, hdiff, hcontext, hempty, hend, hi, hj]
  refine ⟨mapLines '\n' (dedentLine m) (templateHead diff) ++
      '\n' :: (templateIndent.drop m.length ++ diffHeading ++ '\n' :: i),
    '\n' :: '\n' :: (templateIndent.drop m.length ++ contextHeading ++ '\n' :: j), ?_,
    ⟨'#', ?_, by decide⟩, ⟨'#', ?_, by decide⟩⟩
  · simp only [List.append_assoc, List.cons_append, List.nil_append]
  · have hh : '#' ∈ diffHeading := by decide
    simp [hh]
  · have hh : '#' ∈ contextHeading := by decide
    simp [hh]

/-! The strip. -/

theorem strip_around {before d between rest : Text} (hbefore : ∃ x ∈ before, isSpace x = false)
    (hbetween : ∃ x ∈ between, isSpace x = false) :
    strip (before ++ (d ++ (between ++ rest))) = before.dropWhile isSpace ++ (d ++ rstrip (between ++ rest)) := by
  obtain ⟨x, hx, hspace⟩ := hbetween
  have hrest : ∃ x ∈ between ++ rest, isSpace x = false := ⟨x, List.mem_append_left rest hx, hspace⟩
  have hd : ∃ x ∈ d ++ (between ++ rest), isSpace x = false := by
    obtain ⟨y, hy, hs⟩ := hrest
    exact ⟨y, List.mem_append_right d hy, hs⟩
  rw [strip, rstrip, rdropWhile_append_of_solid hd, rdropWhile_append_of_solid hrest,
    dropWhile_append_of_solid hbefore]
  rfl

theorem inOrder_rstrip {parts : List Text} {before c : Text} (h : InOrder parts (rstrip c)) :
    InOrder parts (rstrip (before ++ (c ++ ['\n']))) := by
  have hend : rstrip (before ++ (c ++ ['\n'])) = rstrip (before ++ c) := by
    rw [← List.append_assoc]
    exact rdropWhile_append_of_blank (List.all_eq_true.mp (by decide)) _
  rw [hend]
  by_cases hc : ∃ x ∈ c, isSpace x = false
  · rw [rstrip, rdropWhile_append_of_solid hc]
    exact h.prepend before
  · have hnil : rstrip c = [] := by
      rw [rstrip, List.rdropWhile_eq_nil_iff]
      intro x hx
      by_contra hno
      exact hc ⟨x, hx, by simpa using hno⟩
    refine .of_forall_nil (fun part hpart => ?_) _
    have hinfix := h.infix_of_mem hpart
    rw [hnil] at hinfix
    exact List.infix_nil.mp hinfix

/-- The blocks that end the message, up to empty ones, do not end with white space. -/
def EndsKept (blocks : List Text) : Prop :=
  ∀ pre b post, blocks = pre ++ b :: post → (∀ c ∈ post, c = []) → rstrip b = b

theorem joinWith_concat (sep : Text) (blocks : List Text) (b : Text) :
    ∃ before, joinWith sep (blocks ++ [b]) = before ++ b ∧ (blocks = [] ∨ before = joinWith sep blocks ++ sep) := by
  by_cases h : blocks = []
  · subst h
    exact ⟨[], List.intercalate_singleton, .inl rfl⟩
  · refine ⟨joinWith sep blocks ++ sep, ?_, .inr rfl⟩
    rw [joinWith, LineEdits.intercalate_append h (List.cons_ne_nil b []), List.intercalate_singleton]
    rfl

theorem inOrder_of_endsKept {blocks : List Text} (h : EndsKept blocks) :
    InOrder blocks (rstrip (joinWith "\n\n".toList blocks)) := by
  induction blocks using List.reverseRecOn with
  | nil => exact trivial
  | append_singleton blocks b ih =>
    obtain ⟨before, hjoin, hbefore⟩ := joinWith_concat "\n\n".toList blocks b
    by_cases hb : b = []
    · subst hb
      have hkept : EndsKept blocks := by
        rintro pre c post rfl hpost
        refine h pre c (post ++ [[]]) (by simp) fun x hx => ?_
        rcases List.mem_append.mp hx with hx | hx
        · exact hpost x hx
        · exact List.mem_singleton.mp hx
      have hh : InOrder (blocks ++ [[]]) (rstrip (joinWith "\n\n".toList blocks) ++ []) := (ih hkept).concat
      rw [List.append_nil] at hh
      rw [hjoin, List.append_nil]
      rcases hbefore with rfl | rfl
      · exact .of_forall_nil (by simp) _
      · rw [rstrip, rdropWhile_append_of_blank (List.all_eq_true.mp (by decide))]
        exact hh
    · have hkept : rstrip b = b := h blocks b [] (by simp) (by simp)
      have hspace : ∃ x ∈ b, isSpace x = false := by
        by_contra hno
        have hall : ∀ x ∈ b, isSpace x = true := by
          intro x hx
          by_contra hs
          exact hno ⟨x, hx, by simpa using hs⟩
        exact hb (hkept.symm.trans (List.rdropWhile_eq_nil_iff.mpr hall))
      have hwhole : rstrip (joinWith "\n\n".toList (blocks ++ [b])) = joinWith "\n\n".toList (blocks ++ [b]) := by
        rw [hjoin, rstrip, rdropWhile_append_of_solid hspace]
        exact congrArg (before ++ ·) hkept
      rw [hwhole]
      exact .intercalate _ _

/-! When the blocks come through. -/

/-- No line of a block is made of blanks alone; the template has no margin, or
no block has a further line with something on it; the last blocks do not end
with white space. -/
structure Untouched (wrap : Text → Text → Text) (diff : DiffContext) (grounding : List RetrievedChunk) : Prop where
  no_blank_line : ∀ b ∈ untrustedBlocks wrap diff grounding, ∀ line ∈ b.splitOn '\n',
    line.all isBlankChar = true → line = []
  no_margin : dedentMargin (promptTemplate diff (diffBlock wrap diff) (contextBlock wrap grounding)) = [] ∨
    ∀ b ∈ [diffBlock wrap diff, contextBlock wrap grounding], ∀ line ∈ (b.splitOn '\n').tail, line = []
  ends_kept : EndsKept (grounding.map (chunkBlock wrap))

theorem mem_splitOn_joinWith {blocks : List Text} {line : Text}
    (h : line ∈ (joinWith "\n\n".toList blocks).splitOn '\n') : line = [] ∨ ∃ b ∈ blocks, line ∈ b.splitOn '\n' := by
  induction blocks with
  | nil =>
    rw [joinWith, List.intercalate_nil, List.splitOn_nil] at h
    exact .inl (List.mem_singleton.mp h)
  | cons b blocks ih =>
    by_cases hne : blocks = []
    · subst hne
      rw [joinWith, List.intercalate_singleton] at h
      exact .inr ⟨b, List.mem_cons_self, h⟩
    · have hjoin : joinWith "\n\n".toList (b :: blocks) =
          b ++ '\n' :: ([] ++ '\n' :: joinWith "\n\n".toList blocks) := by
        rw [joinWith, List.intercalate_cons_of_ne_nil hne, List.append_assoc]
        rfl
      rw [hjoin, List.splitOn_append_cons_self, List.splitOn_append_cons_self] at h
      rcases List.mem_append.mp h with h | h
      · exact .inr ⟨b, List.mem_cons_self, h⟩
      rcases List.mem_append.mp h with h | h
      · exact .inl (by simpa using h)
      · rcases ih h with rfl | ⟨b', hb', hline⟩
        · exact .inl rfl
        · exact .inr ⟨b', List.mem_cons_of_mem b hb', hline⟩

theorem contextBlock_lines {wrap : Text → Text → Text} {grounding : List RetrievedChunk}
    (h : ∀ b ∈ grounding.map (chunkBlock wrap), ∀ line ∈ b.splitOn '\n', line.all isBlankChar = true → line = [])
    {line : Text} (hline : line ∈ (contextBlock wrap grounding).splitOn '\n') (hblank : line.all isBlankChar = true) :
    line = [] := by
  unfold contextBlock at hline
  split_ifs at hline with hg
  · have hh : ∀ l ∈ "(no related codebase context retrieved)".toList.splitOn '\n',
        l.all isBlankChar = true → l = [] := by
      decide +kernel
    exact hh line hline hblank
  · rcases mem_splitOn_joinWith hline with hnil | ⟨b, hb, hmem⟩
    · exact hnil
    · exact h b hb line hmem hblank

theorem inOrder_of_untouched {wrap : Text → Text → Text} {diff : DiffContext} {grounding : List RetrievedChunk}
    (h : Untouched wrap diff grounding) :
    InOrder (untrustedBlocks wrap diff grounding) (buildPrompt wrap diff grounding) := by
  obtain ⟨before, between, hdedent, hbefore, hbetween⟩ := dedent_template (h.no_blank_line _ List.mem_cons_self)
    (fun line hline hblank =>
      contextBlock_lines (fun b hb => h.no_blank_line b (List.mem_cons_of_mem _ hb)) hline hblank)
    h.no_margin
  rw [buildPrompt, hdedent, strip_around hbefore hbetween]
  refine ⟨before.dropWhile isSpace, _, (List.append_assoc _ _ _).symm, inOrder_rstrip ?_⟩
  unfold contextBlock
  split_ifs with hg
  · subst hg
    exact trivial
  · exact inOrder_of_endsKept h.ends_kept

theorem dedent_template_lines {diff : DiffContext} {d c line : Text}
    (h : line ∈ (dedent (promptTemplate diff d c)).splitOn '\n') (hblank : line.all isBlankChar = true) :
    line = [] := by
  have hm := templateMargin_isPrefix diff d c
  have hkeep : ∀ l, '\n' ∉ l → '\n' ∉ dedentLine (dedentMargin (promptTemplate diff d c)) l := by
    intro l hl hmem
    have hsub : ∀ x ∈ blankOut l, x ∈ l := by
      intro x hx
      unfold blankOut at hx
      split_ifs at hx
      · cases hx
      · exact hx
    unfold dedentLine at hmem
    split_ifs at hmem
    · exact hl (hsub _ (List.mem_of_mem_drop hmem))
    · exact hl (hsub _ hmem)
  rw [dedent_eq, LineEdits.splitOn_mapLines hkeep] at h
  obtain ⟨l, _, rfl⟩ := List.mem_map.mp h
  exact dedentLine_not_blank (fun x hx => templateIndent_blank x (hm.subset hx)) hblank

theorem strip_isInfix (t : Text) : strip t <:+: t :=
  (List.dropWhile_suffix _).isInfix.trans (List.rdropWhile_prefix _ _).isInfix

theorem no_blank_inside {wrap : Text → Text → Text} {diff : DiffContext} {grounding : List RetrievedChunk}
    (h : InOrder (untrustedBlocks wrap diff grounding) (buildPrompt wrap diff grounding)) {b line : Text}
    (hb : b ∈ untrustedBlocks wrap diff grounding) (hblank : line.all isBlankChar = true)
    (hinside : '\n' :: line ++ ['\n'] <:+: b) : line = [] := by
  have hbreak : '\n' ∉ line := by
    intro hmem
    have hno := List.all_eq_true.mp hblank _ hmem
    exact absurd hno (by decide)
  have hinfix := (hinside.trans (h.infix_of_mem hb)).trans (strip_isInfix _)
  exact dedent_template_lines (LineEdits.mem_splitOn_of_infix hbreak hinfix) hblank

/-! The fence of the guard. -/

theorem inside_of_mem {b line rest init : Text} {first last : Char} (hfirst : b = first :: rest)
    (hlast : b = init ++ [last]) (hf : isBlankChar first = false) (hl : isBlankChar last = false)
    (h : line ∈ b.splitOn '\n') (hblank : line.all isBlankChar = true) (hne : line ≠ []) :
    '\n' :: line ++ ['\n'] <:+: b := by
  have hall := List.all_eq_true.mp hblank
  obtain ⟨pre, post, hb, hpre, hpost⟩ := LineEdits.exists_of_mem_splitOn h
  rcases hpre with rfl | ⟨p, rfl⟩
  · exfalso
    obtain ⟨c, line, rfl⟩ := List.exists_cons_of_ne_nil hne
    rw [hfirst] at hb
    obtain ⟨rfl, _⟩ := List.cons.inj hb
    rw [hall first List.mem_cons_self] at hf
    cases hf
  rcases hpost with rfl | ⟨q, rfl⟩
  · exfalso
    obtain ⟨line, c, rfl⟩ := (List.eq_nil_or_concat' line).resolve_left hne
    rw [hlast, List.append_nil, ← List.append_assoc] at hb
    obtain ⟨_, hc⟩ := List.append_inj' hb rfl
    obtain rfl := List.singleton_inj.mp hc
    rw [hall last (by simp)] at hl
    cases hl
  · exact ⟨p, q, by rw [hb]; simp only [List.append_assoc, List.cons_append, List.nil_append]⟩

namespace InjectionGuard

variable (g : InjectionGuard) (isWord : Char → Bool) (label text : Text)

theorem wrap_first : ∃ rest, g.wrap isWord label text = '«' :: rest := by
  rw [wrap_eq, header_cons]
  exact ⟨_, List.cons_append⟩

theorem wrap_last : ∃ init, g.wrap isWord label text = init ++ ['»'] := by
  obtain ⟨c, hclosing⟩ : ∃ c, g.closing = c ++ ['»'] := ⟨"«/UNTRUSTED:".toList ++ g.tag, rfl⟩
  refine ⟨g.header label ++ (cleaned id text ++ '\n' :: c), ?_⟩
  rw [wrap_eq, trailer, hclosing, List.append_assoc, List.append_assoc, List.cons_append]

theorem wrap_closing : ∃ pre rest, g.wrap isWord label text = pre ++ '\n' :: '«' :: rest := by
  obtain ⟨rest, hclosing⟩ := g.closing_cons
  refine ⟨g.opening ++ ' ' :: label ++ "»\n".toList ++ (sanitize isWord text).text, '/' :: 'U' :: rest, ?_⟩
  rw [wrap, hclosing]

end InjectionGuard

theorem rstrip_fenced {b init : Text} {last : Char} (hlast : b = init ++ [last]) (hl : isSpace last = false) :
    rstrip b = b := by
  rw [hlast, rstrip, List.rdropWhile_concat, hl]
  rfl

/-- The fence of the diff ends on a line of its own, so the template has no margin. -/
theorem fenced_margin {diff : DiffContext} {d c pre rest : Text} (hd : d = pre ++ '\n' :: '«' :: rest) :
    dedentMargin (promptTemplate diff d c) = [] := by
  have hmem : ∃ line, '«' :: line ∈ (promptTemplate diff d c).splitOn '\n' := by
    have hsplit : ∃ before after, promptTemplate diff d c = before ++ '\n' :: '«' :: after := by
      rw [promptTemplate_eq, hd]
      exact ⟨templateHead diff ++ '\n' :: (templateIndent ++ diffHeading ++ '\n' :: (templateIndent ++ pre)), _, by
        simp only [List.append_assoc, List.cons_append]; rfl⟩
    obtain ⟨before, after, he⟩ := hsplit
    obtain ⟨line, lines, hs⟩ := LineEdits.exists_splitOn '\n' after
    refine ⟨line, ?_⟩
    rw [he, List.splitOn_append_cons_self, LineEdits.splitOn_cons_of_ne (by decide), hs]
    exact List.mem_append_right _ List.mem_cons_self
  obtain ⟨line, hline⟩ := hmem
  exact List.prefix_nil.mp (dedentMargin_isPrefix hline rfl)

/-- For any guard: untouched blocks are in the message, in order; and a block
that is in it has no line of blanks alone inside. For the guard that fences
them: the blocks are in the message exactly when they have no such line. -/
theorem prompt_carries_blocks (wrap : Text → Text → Text) (a : SpecialistAgent) (diff : DiffContext)
    (grounding : List RetrievedChunk) :
    (Untouched wrap diff grounding →
      InOrder (untrustedBlocks wrap diff grounding) (buildPrompt wrap diff grounding)) ∧
    (InOrder (untrustedBlocks wrap diff grounding) (buildPrompt wrap diff grounding) →
      ∀ b ∈ untrustedBlocks wrap diff grounding, ∀ line, line.all isBlankChar = true →
        '\n' :: line ++ ['\n'] <:+: b → line = []) ∧
    (InOrder (untrustedBlocks (a.guard.wrap a.isWord) diff grounding) (a.buildPrompt diff grounding) ↔
      ∀ b ∈ untrustedBlocks (a.guard.wrap a.isWord) diff grounding, ∀ line ∈ b.splitOn '\n',
        line.all isBlankChar = true → line = []) := by
  refine ⟨inOrder_of_untouched, fun h b hb line hblank hinside => no_blank_inside h hb hblank hinside, ?_⟩
  have hwrap : ∀ b ∈ untrustedBlocks (a.guard.wrap a.isWord) diff grounding,
      ∃ label text, b = a.guard.wrap a.isWord label text := by
    intro b hb
    rcases List.mem_cons.mp hb with rfl | hb
    · exact ⟨_, _, rfl⟩
    · obtain ⟨c, _, rfl⟩ := List.mem_map.mp hb
      exact ⟨_, _, rfl⟩
  rw [a.buildPrompt_eq]
  constructor
  · intro h b hb line hline hblank
    by_contra hne
    obtain ⟨label, text, rfl⟩ := hwrap b hb
    obtain ⟨rest, hfirst⟩ := a.guard.wrap_first a.isWord label text
    obtain ⟨init, hlast⟩ := a.guard.wrap_last a.isWord label text
    have hinside := inside_of_mem hfirst hlast (by decide) (by decide) hline hblank hne
    exact hne (no_blank_inside h hb hblank hinside)
  · intro h
    obtain ⟨pre, rest, hclosing⟩ := a.guard.wrap_closing a.isWord "PR DIFF".toList diff.diffText
    refine inOrder_of_untouched ⟨h, .inl (fenced_margin hclosing), ?_⟩
    rintro before b after hblocks -
    obtain ⟨label, text, rfl⟩ := hwrap b (by simp [untrustedBlocks, hblocks])
    obtain ⟨init, hlast⟩ := a.guard.wrap_last a.isWord label text
    exact rstrip_fenced hlast (by decide)

def exampleAgent : SpecialistAgent :=
  startupAgent (fun _ => ⟨"Review the diff.".toList, "v1".toList, ⟨"5e1c0b7a9d42".toList, by decide⟩, Char.isAlphanum⟩)
    .quality

def exampleDiff (context : Text) : DiffContext :=
  ⟨"acme/api".toList, 7, "@@ -1,3 +1,3 @@\n a = 1\n".toList ++ context ++ "\n-b = 2\n+b = 3".toList⟩

theorem prompt_carries_diff :
    InOrder (untrustedBlocks (exampleAgent.guard.wrap exampleAgent.isWord) (exampleDiff " c = 0".toList) [])
      (exampleAgent.buildPrompt (exampleDiff " c = 0".toList) []) :=
  (prompt_carries_blocks (exampleAgent.guard.wrap exampleAgent.isWord) exampleAgent (exampleDiff " c = 0".toList)
    []).2.2.mpr (by decide +kernel)

/-- A blank context line of the diff, a single space. -/
theorem blank_context_line_lost :
    ¬InOrder (untrustedBlocks (exampleAgent.guard.wrap exampleAgent.isWord) (exampleDiff [' ']) [])
      (exampleAgent.buildPrompt (exampleDiff [' ']) []) := by
  intro h
  rw [exampleAgent.buildPrompt_eq] at h
  have hinside : '\n' :: [' '] ++ ['\n'] <:+:
      diffBlock (exampleAgent.guard.wrap exampleAgent.isWord) (exampleDiff [' ']) := by
    decide +kernel
  exact absurd (no_blank_inside h List.mem_cons_self rfl hinside) (by decide)

end AiPrReview
