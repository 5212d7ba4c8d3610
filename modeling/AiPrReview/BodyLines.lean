import AiPrReview.LineEdits
import AiPrReview.ReviewBody

/-! The lines of a review body. A rationale is quoted line by line, but a title
and a file name stand on the line of their finding as they are. -/

namespace AiPrReview

def headingLine (severity : Severity) : Text := "### ".toList ++ upper severity.value

def bulletLine (f : Finding) : Text :=
  "- **".toList ++ f.title ++ "** — `".toList ++ location f ++ "` · confidence ".toList ++
    fixed2 f.confidence.val ++ " · ".toList ++ f.agentType.value

def quotedLine (line : Text) : Text := if line ≠ [] then "  > ".toList ++ line else "  >".toList

theorem findingLines_eq (f : Finding) :
    findingLines f = bulletLine f :: (splitlines f.rationale).map quotedLine := rfl

/-- The severities that have a section. -/
def present (findings : List Finding) : List Severity := severityOrder.filter fun s => bucket findings s ≠ []

def isHeading (line : Text) : Bool := "### ".toList.isPrefixOf line

def isBullet (line : Text) : Bool := "- **".toList.isPrefixOf line

def isBlank (line : Text) : Bool := line.all isSpace

/-- The lines of a body are those that its findings make: a heading for each severity
present, under it one line for each of its findings, and under that its rationale. -/
structure Unforged (isBreak : Char → Bool) (findings : List Finding) (body : Text) : Prop where
  headings : (body.splitOnP isBreak).filter isHeading = (present findings).map headingLine
  bullets : (body.splitOnP isBreak).filter isBullet =
    (present findings).flatMap fun s => (bucket findings s).map bulletLine
  outline : ((body.splitOnP isBreak).tail.filter fun line => !isBlank line).map rstrip =
    (present findings).flatMap fun s => headingLine s :: (bucket findings s).flatMap fun f =>
      bulletLine f :: (splitlines f.rationale).map fun line => rstrip ("  > ".toList ++ line)

/-! What each line is. -/

theorem heading_line (s : Severity) : isHeading (headingLine s) = true ∧ isBullet (headingLine s) = false ∧
    isBlank (headingLine s) = false ∧ rstrip (headingLine s) = headingLine s := by
  cases s <;> decide

theorem isPrefixOf_rstrip {w line : Text} (h : w.isPrefixOf (rstrip line) = true) : w.isPrefixOf line = true :=
  List.isPrefixOf_iff_prefix.mpr ((List.isPrefixOf_iff_prefix.mp h).trans (List.rdropWhile_prefix isSpace line))

theorem rstrip_rstrip (line : Text) : rstrip (rstrip line) = rstrip line := List.rdropWhile_idempotent isSpace line

theorem isBlank_rstrip (line : Text) : isBlank (rstrip line) = isBlank line := by
  rw [Bool.eq_iff_iff, isBlank, isBlank, List.all_eq_true, List.all_eq_true, ← List.rdropWhile_eq_nil_iff,
    ← List.rdropWhile_eq_nil_iff]
  exact iff_of_eq (congrArg (· = []) (rstrip_rstrip line))

/-- What stands on the line of a finding before its agent. -/
def bulletHead (f : Finding) : Text :=
  "** — `".toList ++ location f ++ "` · confidence ".toList ++ fixed2 f.confidence.val ++ " · ".toList

theorem bulletLine_eq (f : Finding) :
    bulletLine f = '-' :: ' ' :: '*' :: '*' :: (f.title ++ bulletHead f ++ f.agentType.value) := by
  unfold bulletLine bulletHead
  generalize fixed2 f.confidence.val = decimals
  simp only [List.append_assoc]
  rfl

theorem agent_value (agent : AgentType) :
    (∃ c ∈ agent.value, isSpace c = false) ∧ agent.value.rdropWhile isSpace = agent.value := by
  cases agent <;> exact ⟨⟨_, List.mem_cons_self, by decide⟩, by decide⟩

theorem bullet_line (f : Finding) : isHeading (bulletLine f) = false ∧ isBullet (bulletLine f) = true ∧
    isBlank (bulletLine f) = false ∧ rstrip (bulletLine f) = bulletLine f := by
  rw [bulletLine_eq]
  generalize f.title ++ bulletHead f = middle
  refine ⟨rfl, rfl, rfl, ?_⟩
  have hvalue := agent_value f.agentType
  have hh := rdropWhile_append_of_solid hvalue.1 ('-' :: ' ' :: '*' :: '*' :: middle)
  rw [hvalue.2] at hh
  exact hh

theorem quoted_line (line : Text) : isHeading (quotedLine line) = false ∧ isBullet (quotedLine line) = false ∧
    isBlank (quotedLine line) = false ∧ rstrip (quotedLine line) = rstrip ("  > ".toList ++ line) := by
  unfold quotedLine
  by_cases h : line = []
  · rw [if_neg (not_not_intro h), h]
    decide
  · rw [if_pos h]
    exact ⟨rfl, rfl, rfl, rfl⟩

/-- The lines of the section of a severity that has one. -/
def sectionLines (findings : List Finding) (severity : Severity) : List Text :=
  headingLine severity :: (bucket findings severity).flatMap findingLines ++ [[]]

theorem severityLines_present (findings : List Finding) :
    severityOrder.flatMap (severityLines findings) = (present findings).flatMap (sectionLines findings) := by
  unfold present
  generalize severityOrder = order
  induction order with
  | nil => rfl
  | cons s order ih =>
    rw [List.flatMap_cons, ih]
    by_cases h : bucket findings s = []
    · have hs : severityLines findings s = [] := if_pos h
      rw [hs, List.filter_cons_of_neg (by simpa using h), List.nil_append]
    · have hs : severityLines findings s = sectionLines findings s := if_neg h
      rw [hs, List.filter_cons_of_pos (by simpa using h), List.flatMap_cons]

theorem mem_sectionLines {findings : List Finding} {s : Severity} {line : Text}
    (h : line ∈ sectionLines findings s) : line = headingLine s ∨ (∃ f ∈ findings, line = bulletLine f ∨
      ∃ said ∈ splitlines f.rationale, line = quotedLine said) ∨ line = [] := by
  simp only [sectionLines, List.cons_append, List.mem_cons, List.mem_append, List.mem_flatMap, List.not_mem_nil,
    or_false] at h
  rcases h with h | ⟨f, hf, h⟩ | h
  · exact .inl h
  · refine .inr (.inl ⟨f, List.mem_of_mem_filter hf, ?_⟩)
    rw [findingLines_eq, List.mem_cons, List.mem_map] at h
    rcases h with h | ⟨said, hsaid, h⟩
    · exact .inl h
    · exact .inr ⟨said, hsaid, h.symm⟩
  · exact .inr (.inr h)

/-! The lines of a section, sorted. -/

section

variable (findings : List Finding)

theorem findingLines_headings (f : Finding) : (findingLines f).filter isHeading = [] := by
  rw [findingLines_eq, List.filter_cons_of_neg (by simp [(bullet_line f).1]), List.filter_eq_nil_iff]
  intro line h
  obtain ⟨said, -, rfl⟩ := List.mem_map.mp h
  simp [(quoted_line said).1]

theorem findingLines_bullets (f : Finding) : (findingLines f).filter isBullet = [bulletLine f] := by
  rw [findingLines_eq, List.filter_cons_of_pos (bullet_line f).2.1, List.cons_inj_right, List.filter_eq_nil_iff]
  intro line h
  obtain ⟨said, -, rfl⟩ := List.mem_map.mp h
  simp [(quoted_line said).2.1]

theorem sectionLines_headings (s : Severity) : (sectionLines findings s).filter isHeading = [headingLine s] := by
  have hf : ((bucket findings s).flatMap findingLines).filter isHeading = [] := by
    rw [List.filter_flatMap, List.flatMap_eq_nil_iff]
    exact fun f _ => findingLines_headings f
  rw [sectionLines, List.filter_append, List.filter_cons_of_pos (heading_line s).1, hf]
  rfl

theorem sectionLines_bullets (s : Severity) :
    (sectionLines findings s).filter isBullet = (bucket findings s).map bulletLine := by
  have hf : ((bucket findings s).flatMap findingLines).filter isBullet = (bucket findings s).map bulletLine := by
    rw [List.filter_flatMap, List.map_eq_flatMap]
    exact congrArg (fun g => (bucket findings s).flatMap g) (funext findingLines_bullets)
  rw [sectionLines, List.filter_append, List.filter_cons_of_neg (by simp [(heading_line s).2.1]), hf]
  exact List.append_nil _

/-- What a section shows: its heading, and each finding with its rationale. -/
def shownSection (s : Severity) : List Text :=
  headingLine s :: (bucket findings s).flatMap fun f =>
    bulletLine f :: (splitlines f.rationale).map fun line => rstrip ("  > ".toList ++ line)

theorem findingLines_outline (f : Finding) : ((findingLines f).filter fun line => !isBlank line).map rstrip =
    bulletLine f :: (splitlines f.rationale).map fun line => rstrip ("  > ".toList ++ line) := by
  have hsolid : ∀ line ∈ findingLines f, (!isBlank line) = true := by
    intro line h
    rw [findingLines_eq, List.mem_cons, List.mem_map] at h
    rcases h with rfl | ⟨said, -, rfl⟩
    · rw [(bullet_line f).2.2.1]
      rfl
    · rw [(quoted_line said).2.2.1]
      rfl
  rw [List.filter_eq_self.mpr hsolid, findingLines_eq, List.map_cons, (bullet_line f).2.2.2, List.map_map]
  exact congrArg _ (List.map_congr_left fun said _ => (quoted_line said).2.2.2)

theorem sectionLines_outline (s : Severity) :
    ((sectionLines findings s).filter fun line => !isBlank line).map rstrip = shownSection findings s := by
  have hf : (((bucket findings s).flatMap findingLines).filter fun line => !isBlank line).map rstrip =
      (bucket findings s).flatMap fun f =>
        bulletLine f :: (splitlines f.rationale).map fun line => rstrip ("  > ".toList ++ line) := by
    rw [List.filter_flatMap, List.map_flatMap]
    exact congrArg (fun g => (bucket findings s).flatMap g) (funext findingLines_outline)
  have hheading := heading_line s
  rw [sectionLines, List.filter_append, List.filter_cons_of_pos (by rw [hheading.2.2.1]; rfl), List.map_append,
    List.map_cons, hf, hheading.2.2.2]
  exact List.append_nil _

end

/-! The lines of the body. -/

theorem exists_last_solid {lines : List Text} (h : ∃ line ∈ lines, isBlank line = false) :
    ∃ before last after, lines = before ++ last :: after ∧ isBlank last = false ∧
      ∀ line ∈ after, isBlank line = true := by
  obtain ⟨before, last, hend, hlast⟩ := endsSolid_rdropWhile h
  refine ⟨before, last, lines.rtakeWhile isBlank, ?_, hlast, fun _ => List.mem_rtakeWhile_imp⟩
  have hh : lines.rdropWhile isBlank ++ lines.rtakeWhile isBlank = lines := List.rdropWhile_append_rtakeWhile
  rw [hend, List.append_assoc] at hh
  exact hh.symm

theorem pageText_lines (findings : List Finding) :
    pageText findings = headerText ++ ((present findings).flatMap (sectionLines findings)).flatMap lineText := by
  rw [← severityLines_present, List.flatMap_assoc, pageText]
  exact congrArg (fun g => headerText ++ severityOrder.flatMap g)
    (funext fun s => (severityLines_text findings s).symm)

def headerLine : Text := "**Automated review**".toList

theorem headerText_eq : headerText = headerLine ++ ['\n', '\n'] := by decide

/-- The body ends with its last line that is not blank. -/
theorem renderReviewBody_cut {findings : List Finding} (h : findings ≠ []) {before after : List Text} {last : Text}
    (hlines : (present findings).flatMap (sectionLines findings) = before ++ last :: after)
    (hlast : isBlank last = false) (hafter : ∀ line ∈ after, isBlank line = true) :
    renderReviewBody findings = (headerLine :: [] :: before ++ [rstrip last]).flatMap lineText := by
  have hsolid : ∃ c ∈ last, isSpace c = false := by
    by_contra hno
    push Not at hno
    refine absurd (List.all_eq_true.mpr fun c hc => ?_) (Bool.eq_false_iff.mp hlast)
    exact Bool.not_eq_false _ ▸ hno c hc
  have hblank : ∀ c ∈ '\n' :: after.flatMap lineText, isSpace c = true := by
    intro c hc
    rcases List.mem_cons.mp hc with rfl | hc
    · rfl
    · obtain ⟨line, hline, hc⟩ := List.mem_flatMap.mp hc
      rcases List.mem_append.mp hc with hc | hc
      · exact List.all_eq_true.mp (hafter line hline) c hc
      · rw [List.mem_singleton.mp hc]
        rfl
  have hpage : pageText findings =
      (headerText ++ before.flatMap lineText) ++ last ++ '\n' :: after.flatMap lineText := by
    rw [pageText_lines, hlines, List.flatMap_append, List.flatMap_cons, lineText]
    simp only [List.append_assoc, List.cons_append, List.nil_append]
  rw [renderReviewBody_eq h, hpage, rstrip, rdropWhile_append_of_blank hblank, rdropWhile_append_of_solid hsolid,
    List.flatMap_append, headerText_eq]
  simp only [List.flatMap_cons, List.flatMap_nil, lineText, List.append_assoc, List.append_nil, List.cons_append,
    List.nil_append, rstrip]

/-! No line of a section is broken, unless a title or a file name breaks it. -/

theorem not_isLineBreak_of_mem_splitlines {line t : Text} (h : line ∈ splitlines t) :
    ∀ c ∈ line, isLineBreak c = false := by
  obtain ⟨kept, hkept, rfl⟩ := List.mem_map.mp h
  clear h
  fun_induction splitlinesKeep t generalizing kept with
  | case1 => exact absurd hkept List.not_mem_nil
  | case2 rest ih =>
    rcases List.mem_cons.mp hkept with rfl | hkept
    · have hnil : ['\r', '\n'].rdropWhile isLineBreak = [] := by decide
      rw [hnil]
      exact fun _ hc => absurd hc List.not_mem_nil
    · exact ih kept hkept
  | case3 c rest _ hc ih =>
    rcases List.mem_cons.mp hkept with rfl | hkept
    · rw [List.rdropWhile_singleton, if_pos hc]
      exact fun _ hc => absurd hc List.not_mem_nil
    · exact ih kept hkept
  | case4 c rest _ hc hrest ih =>
    rw [Bool.not_eq_true] at hc
    rw [List.mem_singleton.mp hkept, rdropWhile_cons_of_solid hc]
    exact fun d hd => List.mem_singleton.mp hd ▸ hc
  | case5 c rest _ hc line lines hrest ih =>
    rw [Bool.not_eq_true] at hc
    rw [hrest] at ih
    rcases List.mem_cons.mp hkept with rfl | hkept
    · rw [rdropWhile_cons_of_solid hc]
      intro d hd
      rcases List.mem_cons.mp hd with rfl | hd
      · exact hc
      · exact ih line List.mem_cons_self d hd
    · exact ih kept (List.mem_cons_of_mem _ hkept)

section

variable {isBreak : Char → Bool} (hbreak : ∀ c, isBreak c = true → isLineBreak c = true)

include hbreak

theorem not_isBreak_of_solid {c : Char} (h : isSpace c = false) : isBreak c = false := by
  by_contra hno
  rw [isSpace_of_isLineBreak (hbreak c (Bool.not_eq_false _ ▸ hno))] at h
  cases h

theorem not_isBreak_of_all {t : Text} (h : t.all (fun c => !isLineBreak c) = true) :
    ∀ c ∈ t, isBreak c = false := by
  intro c hc
  by_contra hno
  have hh := List.all_eq_true.mp h c hc
  rw [hbreak c (Bool.not_eq_false _ ▸ hno)] at hh
  cases hh

theorem headingLine_whole (s : Severity) : ∀ c ∈ headingLine s, isBreak c = false :=
  not_isBreak_of_all hbreak (by cases s <;> decide)

theorem quotedLine_whole {t said : Text} (h : said ∈ splitlines t) : ∀ c ∈ quotedLine said, isBreak c = false := by
  apply not_isBreak_of_all hbreak
  have hsaid : said.all (fun c => !isLineBreak c) = true :=
    List.all_eq_true.mpr fun c hc => by rw [not_isLineBreak_of_mem_splitlines h c hc]; rfl
  unfold quotedLine
  split_ifs
  · rw [List.all_append, hsaid]
    rfl
  · rfl

theorem location_whole {f : Finding} (h : ∀ c ∈ f.file, isBreak c = false) : ∀ c ∈ location f, isBreak c = false := by
  intro c hc
  unfold location at hc
  cases hline : f.line with
  | none =>
    rw [hline] at hc
    exact h c hc
  | some n =>
    rw [hline] at hc
    rcases List.mem_append.mp hc with hc | hc
    · exact h c hc
    · apply not_isBreak_of_solid hbreak
      rcases List.mem_cons.mp hc with rfl | hc
      · rfl
      · rcases mem_intText hc with rfl | hc
        · rfl
        · exact isSpace_of_isDigit hc

theorem bulletLine_whole {f : Finding} (h : ∀ c ∈ f.title ++ f.file, isBreak c = false) :
    ∀ c ∈ bulletLine f, isBreak c = false := by
  have hloc := location_whole hbreak fun c hc => h c (List.mem_append_right f.title hc)
  have hdecimals : ∀ c ∈ fixed2 f.confidence.val, isBreak c = false := fun c hc => by
    rw [← (fixed2_solid f.confidence.nonneg f.confidence.le_one).2] at hc
    have hh := List.of_mem_filter hc
    exact not_isBreak_of_solid hbreak (by simpa using hh)
  intro c hc
  unfold bulletLine at hc
  generalize fixed2 f.confidence.val = decimals at hc hdecimals
  simp only [List.mem_append] at hc
  rcases hc with ((((((hc | hc) | hc) | hc) | hc) | hc) | hc) | hc
  · exact not_isBreak_of_all hbreak (by decide) c hc
  · exact h c (List.mem_append_left f.file hc)
  · exact not_isBreak_of_all hbreak (by decide) c hc
  · exact hloc c hc
  · exact not_isBreak_of_all hbreak (by decide) c hc
  · exact hdecimals c hc
  · exact not_isBreak_of_all hbreak (by decide) c hc
  · exact not_isBreak_of_all hbreak (by cases f.agentType <;> decide) c hc

theorem body_whole {findings : List Finding} (h : ∀ f ∈ findings, ∀ c ∈ f.title ++ f.file, isBreak c = false)
    (line : Text) (hline : line ∈ headerLine :: [] :: (present findings).flatMap (sectionLines findings)) :
    ∀ c ∈ line, isBreak c = false := by
  rcases List.mem_cons.mp hline with rfl | hline
  · exact not_isBreak_of_all hbreak (by decide)
  rcases List.mem_cons.mp hline with rfl | hline
  · exact fun _ hc => absurd hc List.not_mem_nil
  · obtain ⟨s, -, hline⟩ := List.mem_flatMap.mp hline
    rcases mem_sectionLines hline with rfl | ⟨f, hf, rfl | ⟨said, hsaid, rfl⟩⟩ | rfl
    · exact headingLine_whole hbreak s
    · exact bulletLine_whole hbreak (h f hf)
    · exact quotedLine_whole hbreak hsaid
    · exact fun _ hc => absurd hc List.not_mem_nil

end

/-! What the lines of the body are. -/

theorem mem_present {findings : List Finding} {f : Finding} (hf : f ∈ findings) :
    f.severity ∈ present findings ∧ f ∈ bucket findings f.severity := by
  have hbucket : f ∈ bucket findings f.severity := List.mem_filter.mpr ⟨hf, by simp⟩
  exact ⟨List.mem_filter.mpr ⟨by cases f.severity <;> decide, by simpa using List.ne_nil_of_mem hbucket⟩, hbucket⟩

theorem exists_solid_line {findings : List Finding} (h : findings ≠ []) :
    ∃ line ∈ (present findings).flatMap (sectionLines findings), isBlank line = false := by
  obtain ⟨f, hf⟩ := List.exists_mem_of_ne_nil findings h
  have hheading : headingLine f.severity ∈ sectionLines findings f.severity := List.mem_cons_self
  exact ⟨headingLine f.severity, List.mem_flatMap.mpr ⟨f.severity, (mem_present hf).1, hheading⟩,
    (heading_line f.severity).2.2.1⟩

/-- Cutting the blank end off leaves the lines that begin with `w`. -/
theorem filter_cut {w : Text} (hw : ∃ c ∈ w, isSpace c = false) {before after : List Text} {last : Text}
    (hwhole : ∀ line ∈ before ++ last :: after, w.isPrefixOf line = true → rstrip line = line)
    (hafter : ∀ line ∈ after, isBlank line = true) :
    (before ++ [rstrip last, []]).filter w.isPrefixOf = (before ++ last :: after).filter w.isPrefixOf := by
  have hblank : ∀ line, isBlank line = true → ¬w.isPrefixOf line = true := by
    intro line hline h
    obtain ⟨c, hc, hsolid⟩ := hw
    have hspace := List.all_eq_true.mp hline c ((List.isPrefixOf_iff_prefix.mp h).subset hc)
    rw [hsolid] at hspace
    cases hspace
  have hlast : [rstrip last].filter w.isPrefixOf = [last].filter w.isPrefixOf := by
    by_cases h : w.isPrefixOf last = true
    · rw [hwhole last (by simp) h]
    · have hcut : ¬w.isPrefixOf (rstrip last) = true := fun hh => h (isPrefixOf_rstrip hh)
      rw [List.filter_cons_of_neg h, List.filter_cons_of_neg hcut]
  have hrest : after.filter w.isPrefixOf = [] := List.filter_eq_nil_iff.mpr fun line h => hblank line (hafter line h)
  have hnil : [([] : Text)].filter w.isPrefixOf = [] :=
    List.filter_eq_nil_iff.mpr fun line h => List.mem_singleton.mp h ▸ hblank [] rfl
  have hcut : before ++ [rstrip last, []] = before ++ ([rstrip last] ++ [[]]) := rfl
  have hall : before ++ last :: after = before ++ ([last] ++ after) := rfl
  rw [hcut, hall, List.filter_append, List.filter_append, List.filter_append, List.filter_append, hlast, hrest, hnil]

theorem outline_cut (before : List Text) {after : List Text} {last : Text} (hlast : isBlank last = false)
    (hafter : ∀ line ∈ after, isBlank line = true) :
    ((before ++ [rstrip last, []]).filter fun line => !isBlank line).map rstrip =
      ((before ++ last :: after).filter fun line => !isBlank line).map rstrip := by
  have hrest : (after.filter fun line => !isBlank line) = [] := List.filter_eq_nil_iff.mpr fun line h => by
    rw [hafter line h]
    exact Bool.false_ne_true
  have hcut : ([rstrip last, []].filter fun line => !isBlank line) = [rstrip last] := by
    rw [List.filter_cons_of_pos (by rw [isBlank_rstrip, hlast]; rfl)]
    rfl
  have hall : ((last :: after).filter fun line => !isBlank line) = [last] := by
    rw [List.filter_cons_of_pos (by rw [hlast]; rfl), hrest]
  rw [List.filter_append, List.filter_append, hcut, hall, List.map_append, List.map_append, List.map_singleton,
    List.map_singleton, rstrip_rstrip]

theorem section_heading_whole (findings : List Finding) (line : Text)
    (h : line ∈ (present findings).flatMap (sectionLines findings))
    (hmark : isHeading line = true ∨ isBullet line = true) : rstrip line = line := by
  obtain ⟨s, -, h⟩ := List.mem_flatMap.mp h
  rcases mem_sectionLines h with rfl | ⟨f, -, rfl | ⟨said, -, rfl⟩⟩ | rfl
  · exact (heading_line s).2.2.2
  · exact (bullet_line f).2.2.2
  · rw [(quoted_line said).1, (quoted_line said).2.1] at hmark
    exact absurd hmark (by decide)
  · rfl

theorem mem_bulletLine {f : Finding} {c : Char} (h : c ∈ f.title ++ f.file) : c ∈ bulletLine f := by
  have hloc : ∀ c ∈ f.file, c ∈ location f := by
    intro c hc
    unfold location
    cases f.line with
    | none => exact hc
    | some n => exact List.mem_append_left _ hc
  have hline : c ∈ f.title ++ bulletHead f := by
    rcases List.mem_append.mp h with h | h
    · exact List.mem_append_left _ h
    · apply List.mem_append_right
      unfold bulletHead
      generalize fixed2 f.confidence.val = decimals
      exact List.mem_append_left _ (List.mem_append_left _ (List.mem_append_left _
        (List.mem_append_right _ (hloc c h))))
  rw [bulletLine_eq]
  generalize f.title ++ bulletHead f = middle at hline
  simp [hline]

/-- The lines of a body say what its findings say if and only if no title and no file
name holds a line break. -/
theorem renderReviewBody_unforged_iff {isBreak : Char → Bool} {findings : List Finding} (hne : findings ≠ [])
    (hnl : isBreak '\n' = true) (hbreak : ∀ c, isBreak c = true → isLineBreak c = true) :
    Unforged isBreak findings (renderReviewBody findings) ↔
      ∀ f ∈ findings, ∀ c ∈ f.title ++ f.file, isBreak c = false := by
  constructor
  · intro h f hf c hc
    have hbullet : bulletLine f ∈ (present findings).flatMap fun s => (bucket findings s).map bulletLine :=
      List.mem_flatMap.mpr ⟨f.severity, (mem_present hf).1, List.mem_map_of_mem (mem_present hf).2⟩
    rw [← h.bullets] at hbullet
    exact LineEdits.eq_false_of_mem_splitOnP (List.mem_of_mem_filter hbullet) c (mem_bulletLine hc)
  · intro h
    obtain ⟨before, last, after, hlines, hlast, hafter⟩ := exists_last_solid (exists_solid_line hne)
    have hwhole := fun line => body_whole hbreak h line
    have hends := section_heading_whole findings
    rw [hlines] at hwhole hends
    have hall : ∀ line ∈ headerLine :: [] :: before ++ [rstrip last], ∀ c ∈ line, isBreak c = false := by
      intro line hline c hc
      rcases List.mem_append.mp hline with hline | hline
      · exact hwhole line (List.mem_append_left (last :: after) hline) c hc
      · rw [List.mem_singleton.mp hline] at hc
        have hlast : last ∈ headerLine :: [] :: (before ++ last :: after) := by simp
        exact hwhole last hlast c ((List.rdropWhile_prefix isSpace last).subset hc)
    have hbody : (renderReviewBody findings).splitOnP isBreak =
        headerLine :: [] :: (before ++ [rstrip last, []]) := by
      rw [renderReviewBody_cut hne hlines hlast hafter]
      refine (LineEdits.splitOnP_ended hnl hall).trans ?_
      simp
    constructor
    · have hcut := filter_cut (w := "### ".toList) ⟨'#', by decide, by decide⟩
        (fun line hline hmark => hends line hline (.inl hmark)) hafter
      rw [hbody, List.map_eq_flatMap, ← funext (sectionLines_headings findings), ← List.filter_flatMap, hlines]
      exact hcut
    · have hcut := filter_cut (w := "- **".toList) ⟨'-', by decide, by decide⟩
        (fun line hline hmark => hends line hline (.inr hmark)) hafter
      rw [hbody, ← funext (sectionLines_bullets findings), ← List.filter_flatMap, hlines]
      exact hcut
    · have hcut := outline_cut before hlast hafter
      rw [← hlines, List.filter_flatMap, List.map_flatMap, funext (sectionLines_outline findings)] at hcut
      rw [hbody]
      exact hcut

theorem full_nonneg : (0 : ℚ) ≤ 1 := zero_le_one

theorem full_le_one : (1 : ℚ) ≤ 1 := le_rfl

def longTitle (rest : Text) : Finding where
  agentType := .quality
  severity := .low
  category := "style".toList
  file := "a.py".toList
  line := some 3
  confidence := ⟨1, full_nonneg, full_le_one⟩
  title := "Long line".toList ++ rest
  rationale := "Too long\nto read".toList

theorem longTitle_unforged : Unforged isLineBreak [longTitle []] (renderReviewBody [longTitle []]) := by
  refine (renderReviewBody_unforged_iff (List.cons_ne_nil _ _) (by decide) fun _ h => h).mpr fun f hf => ?_
  rw [List.mem_singleton.mp hf]
  exact List.forall_iff_forall_mem.mp (by decide +kernel)

theorem longTitle_forges_heading : ¬∀ findings : List Finding, findings ≠ [] →
    Unforged (· = '\n') findings (renderReviewBody findings) := by
  intro h
  have hh := (h [longTitle "\n### CRITICAL".toList] (List.cons_ne_nil _ _)).headings
  exact absurd hh (by decide +kernel)

end AiPrReview
