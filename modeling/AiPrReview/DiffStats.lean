import AiPrReview.PyText
import AiPrReview.Words

/-! The line counts of a unified diff. The source keeps no state: a line is told
by how it begins, and the lines are those of `str.splitlines`. -/

namespace AiPrReview

@[ext] structure DiffStats : Type where
  filesChanged : Nat
  additions : Nat
  deletions : Nat
  deriving DecidableEq

namespace DiffStats

def count (s : DiffStats) (line : Text) : DiffStats :=
  if "diff --git ".toList.isPrefixOf line then { s with filesChanged := s.filesChanged + 1 }
  else if "+++".toList.isPrefixOf line || "---".toList.isPrefixOf line then s
  else if "+".toList.isPrefixOf line then { s with additions := s.additions + 1 }
  else if "-".toList.isPrefixOf line then { s with deletions := s.deletions + 1 }
  else s

end DiffStats

def parseDiffStats (diffText : Text) : DiffStats := (splitlines diffText).foldl DiffStats.count ⟨0, 0, 0⟩

/-! What a line counts as. -/

def isFileLine (line : Text) : Bool := "diff --git ".toList.isPrefixOf line

def isAddition (line : Text) : Bool := "+".toList.isPrefixOf line && !"+++".toList.isPrefixOf line

def isDeletion (line : Text) : Bool := "-".toList.isPrefixOf line && !"---".toList.isPrefixOf line

theorem count_eq (s : DiffStats) (line : Text) : s.count line =
    ⟨s.filesChanged + (isFileLine line).toNat, s.additions + (isAddition line).toNat,
      s.deletions + (isDeletion line).toNat⟩ := by
  cases line with
  | nil => rfl
  | cons c line =>
    have hother : ∀ {a : Char} (w : Text), a ≠ c → (a :: w).isPrefixOf (c :: line) = false := by
      intro a w ha
      rw [List.isPrefixOf_cons_cons, beq_false_of_ne ha, Bool.false_and]
    unfold DiffStats.count isFileLine isAddition isDeletion
    by_cases hp : c = '+'
    · subst hp
      have hfile : "diff --git ".toList.isPrefixOf ('+' :: line) = false := hother _ (by decide)
      have hminus : "-".toList.isPrefixOf ('+' :: line) = false := hother _ (by decide)
      have hold : "---".toList.isPrefixOf ('+' :: line) = false := hother _ (by decide)
      have hplus : "+".toList.isPrefixOf ('+' :: line) = true := rfl
      rw [hfile, hminus, hold, hplus]
      cases "+++".toList.isPrefixOf ('+' :: line) <;> rfl
    · have hplus : "+".toList.isPrefixOf (c :: line) = false := hother _ (Ne.symm hp)
      have hnew : "+++".toList.isPrefixOf (c :: line) = false := hother _ (Ne.symm hp)
      rw [hplus, hnew]
      by_cases hm : c = '-'
      · subst hm
        have hfile : "diff --git ".toList.isPrefixOf ('-' :: line) = false := hother _ (by decide)
        have hminus : "-".toList.isPrefixOf ('-' :: line) = true := rfl
        rw [hfile, hminus]
        cases "---".toList.isPrefixOf ('-' :: line) <;> rfl
      · have hminus : "-".toList.isPrefixOf (c :: line) = false := hother _ (Ne.symm hm)
        have hold : "---".toList.isPrefixOf (c :: line) = false := hother _ (Ne.symm hm)
        rw [hminus, hold]
        cases "diff --git ".toList.isPrefixOf (c :: line) <;> rfl

theorem parseDiffStats_eq (diffText : Text) : parseDiffStats diffText =
    ⟨(splitlines diffText).countP isFileLine, (splitlines diffText).countP isAddition,
      (splitlines diffText).countP isDeletion⟩ := by
  have hfold : ∀ (lines : List Text) (s : DiffStats), lines.foldl DiffStats.count s =
      ⟨s.filesChanged + lines.countP isFileLine, s.additions + lines.countP isAddition,
        s.deletions + lines.countP isDeletion⟩ := by
    intro lines
    induction lines with
    | nil => exact fun _ => rfl
    | cons line lines ih =>
      intro s
      rw [List.foldl_cons, ih, count_eq, List.countP_cons, List.countP_cons, List.countP_cons]
      have hnat : ∀ b : Bool, b.toNat = if b = true then 1 else 0 := by decide
      simp only [hnat, Nat.add_comm, Nat.add_left_comm]
  rw [parseDiffStats, hfold]
  simp only [Nat.zero_add]

/-! The lines that `str.splitlines` makes of one line of the diff: its first
fragment begins as the line does, and the others are strays. -/

def fragments (line : Text) : List Text := splitlines (line ++ ['\n'])

def strays (line : Text) : List Text := (fragments line).tail

theorem splitlinesKeep_line_ne_nil (line : Text) : splitlinesKeep (line ++ ['\n']) ≠ [] := by
  intro h
  have hh := flatten_splitlinesKeep (line ++ ['\n'])
  rw [h] at hh
  exact absurd hh.symm (by simp)

theorem fragments_eq (line : Text) : fragments line = (fragments line).headD [] :: strays line := by
  have hne : fragments line ≠ [] := by
    rw [fragments, splitlines]
    simpa using splitlinesKeep_line_ne_nil line
  obtain ⟨first, others, he⟩ := List.exists_cons_of_ne_nil hne
  rw [strays, he]
  rfl

theorem splitlines_line (line rest : Text) : splitlines (line ++ '\n' :: rest) = fragments line ++ splitlines rest := by
  rw [splitlines, splitlinesKeep_append, List.map_append]
  rfl

theorem fragments_solid {c : Char} (hc : isLineBreak c = false) (line : Text) :
    fragments (c :: line) = (c :: (fragments line).headD []) :: strays line := by
  obtain ⟨first, others, he⟩ := List.exists_cons_of_ne_nil (splitlinesKeep_line_ne_nil line)
  unfold strays fragments splitlines
  rw [List.cons_append, splitlinesKeep_solid hc, he, List.map_cons]
  exact congrArg (· :: _) (rdropWhile_cons_of_solid hc first)

theorem fragments_break {c : Char} (hc : isLineBreak c = true) (line : Text) :
    (fragments (c :: line)).headD [] = [] := by
  unfold fragments splitlines
  rw [List.cons_append]
  by_cases h : CrLf c (line ++ ['\n'])
  · obtain ⟨rfl, rest, hrest⟩ := h
    rw [hrest, splitlinesKeep]
    rfl
  · rw [splitlinesKeep_break hc h]
    exact List.rdropWhile_eq_nil_iff.mpr (by simpa using hc)

theorem isPrefixOf_fragment {p : Text} (hp : p.all (fun c => !isLineBreak c) = true) (line : Text) :
    p.isPrefixOf ((fragments line).headD []) = p.isPrefixOf line := by
  induction p generalizing line with
  | nil => simp
  | cons a p ih =>
    rw [List.all_cons, Bool.and_eq_true, Bool.not_eq_true'] at hp
    obtain ⟨ha, hp⟩ := hp
    cases line with
    | nil => rfl
    | cons c line =>
      by_cases hc : isLineBreak c = true
      · have hne : a ≠ c := by
          rintro rfl
          rw [hc] at ha
          cases ha
        rw [fragments_break hc, List.isPrefixOf_cons_cons, beq_false_of_ne hne, Bool.false_and]
        rfl
      · rw [Bool.not_eq_true] at hc
        have hh := ih hp line
        rw [fragments_solid hc, List.headD_cons, List.isPrefixOf_cons_cons, List.isPrefixOf_cons_cons, hh]

theorem first_fragment (line : Text) : isFileLine ((fragments line).headD []) = isFileLine line ∧
    isAddition ((fragments line).headD []) = isAddition line ∧
    isDeletion ((fragments line).headD []) = isDeletion line := by
  have hfile : isFileLine ((fragments line).headD []) = isFileLine line := isPrefixOf_fragment (by decide) line
  have hplus := isPrefixOf_fragment (p := "+".toList) (by decide) line
  have hnew := isPrefixOf_fragment (p := "+++".toList) (by decide) line
  have hminus := isPrefixOf_fragment (p := "-".toList) (by decide) line
  have hold := isPrefixOf_fragment (p := "---".toList) (by decide) line
  refine ⟨hfile, ?_, ?_⟩
  · rw [isAddition, isAddition, hplus, hnew]
  · rw [isDeletion, isDeletion, hminus, hold]

theorem countP_splitlines {p : Text → Bool} (hp : ∀ line, p ((fragments line).headD []) = p line)
    (lines : List Text) : (splitlines (lines.flatMap (· ++ ['\n']))).countP p = lines.countP p + (lines.flatMap strays).countP p := by
  induction lines with
  | nil => rfl
  | cons line lines ih =>
    have hcons : (line :: lines).flatMap (· ++ ['\n']) = line ++ '\n' :: lines.flatMap (· ++ ['\n']) := by simp
    rw [hcons, splitlines_line, List.countP_append, ih, fragments_eq, List.countP_cons, hp, List.flatMap_cons,
      List.countP_cons, List.countP_append]
    omega

/-! A unified diff, rendered. -/

/-- What stands on one line. -/
structure Content : Type where
  text : Text
  oneLine : '\n' ∉ text

inductive BodyMark : Type where
  | context
  | added
  | removed
  deriving DecidableEq

def BodyMark.char : BodyMark → Char
  | context => ' '
  | added => '+'
  | removed => '-'

structure BodyLine : Type where
  mark : BodyMark
  content : Content

structure Hunk : Type where
  heading : Content
  body : List BodyLine

/-- A header line is one of the pair of file names, or begins in another way
than a body line or the line of a file does. -/
inductive HeaderLine : Type where
  | oldFile (name : Content)
  | newFile (name : Content)
  | extended (content : Content) (plus : content.text.head? ≠ some '+') (minus : content.text.head? ≠ some '-')
      (other : isFileLine content.text = false)

structure FileDiff : Type where
  names : Content
  header : List HeaderLine
  hunks : List Hunk

def BodyLine.text (b : BodyLine) : Text := b.mark.char :: b.content.text

def HeaderLine.text : HeaderLine → Text
  | oldFile name => "--- ".toList ++ name.text
  | newFile name => "+++ ".toList ++ name.text
  | extended content .. => content.text

def Hunk.lines (h : Hunk) : List Text := ("@@ ".toList ++ h.heading.text) :: h.body.map BodyLine.text

def FileDiff.lines (f : FileDiff) : List Text :=
  ("diff --git ".toList ++ f.names.text) :: f.header.map HeaderLine.text ++ f.hunks.flatMap Hunk.lines

def diffLines (files : List FileDiff) : List Text := files.flatMap FileDiff.lines

def renderDiff (files : List FileDiff) : Text := (diffLines files).flatMap (· ++ ['\n'])

def bodyLines (files : List FileDiff) : List BodyLine := files.flatMap fun f => f.hunks.flatMap Hunk.body

def statsOf (files : List FileDiff) : DiffStats :=
  ⟨files.length, (bodyLines files).countP fun b => b.mark = .added, (bodyLines files).countP fun b => b.mark = .removed⟩

/-- The body lines that are taken for a header. -/
def hidden (mark : BodyMark) (files : List FileDiff) : Nat :=
  (bodyLines files).countP fun b => b.mark = mark && [mark.char, mark.char].isPrefixOf b.content.text

section

variable {p : Text → Bool}

theorem countP_hunks (hheading : ∀ heading, p ("@@ ".toList ++ heading) = false) (hunks : List Hunk) :
    (hunks.flatMap Hunk.lines).countP p = (hunks.flatMap Hunk.body).countP fun b => p b.text := by
  induction hunks with
  | nil => rfl
  | cons h hunks ih =>
    rw [List.flatMap_cons, List.flatMap_cons, List.countP_append, List.countP_append, ih, Hunk.lines,
      List.countP_cons_of_neg (by rw [hheading]; decide), List.countP_map]
    rfl

theorem countP_diffLines (hheading : ∀ heading, p ("@@ ".toList ++ heading) = false)
    (hheader : ∀ h : HeaderLine, p h.text = false) (files : List FileDiff) :
    (diffLines files).countP p = (files.countP fun f => p ("diff --git ".toList ++ f.names.text)) +
      (bodyLines files).countP fun b => p b.text := by
  induction files with
  | nil => rfl
  | cons f files ih =>
    have hnone : (f.header.map HeaderLine.text).countP p = 0 := by
      rw [List.countP_map, List.countP_eq_zero]
      exact fun h _ => by simp [hheader]
    rw [diffLines, bodyLines] at ih ⊢
    rw [List.flatMap_cons, List.flatMap_cons, List.countP_append, List.countP_append, ih, FileDiff.lines,
      List.countP_append, List.countP_cons, hnone, countP_hunks hheading, List.countP_cons]
    omega

end

theorem header_uncounted (h : HeaderLine) :
    isFileLine h.text = false ∧ isAddition h.text = false ∧ isDeletion h.text = false := by
  cases h with
  | oldFile name => exact ⟨rfl, rfl, rfl⟩
  | newFile name => exact ⟨rfl, rfl, rfl⟩
  | extended content plus minus other =>
    obtain ⟨text, _⟩ := content
    refine ⟨other, ?_, ?_⟩
    · cases text with
      | nil => rfl
      | cons c text =>
        have hc : '+' ≠ c := fun he => plus (congrArg some he.symm)
        simp [HeaderLine.text, isAddition, hc]
    · cases text with
      | nil => rfl
      | cons c text =>
        have hc : '-' ≠ c := fun he => minus (congrArg some he.symm)
        simp [HeaderLine.text, isDeletion, hc]

theorem body_counted (b : BodyLine) : isFileLine b.text = false ∧
    isAddition b.text = (b.mark = .added && !"++".toList.isPrefixOf b.content.text) ∧
    isDeletion b.text = (b.mark = .removed && !"--".toList.isPrefixOf b.content.text) := by
  obtain ⟨mark, content⟩ := b
  cases mark <;> exact ⟨rfl, rfl, rfl⟩

theorem countP_marked (mark : BodyMark) (files : List FileDiff) {p : Text → Bool}
    (hp : ∀ b : BodyLine, p b.text = (b.mark = mark && !List.isPrefixOf [mark.char, mark.char] b.content.text)) :
    ((bodyLines files).countP fun b => p b.text) + hidden mark files =
      (bodyLines files).countP fun b => b.mark = mark := by
  have hsplit := List.countP_eq_countP_filter_add (bodyLines files) (fun b => decide (b.mark = mark))
    fun b => [mark.char, mark.char].isPrefixOf b.content.text
  rw [List.countP_filter, List.countP_filter] at hsplit
  simp only [hp]
  rw [hsplit, Nat.add_comm]
  rfl

/-- The counts, told by the lines that are hidden and the lines that are strays. -/
theorem parseDiffStats_render (files : List FileDiff) :
    (parseDiffStats (renderDiff files)).filesChanged =
      files.length + ((diffLines files).flatMap strays).countP isFileLine ∧
    (parseDiffStats (renderDiff files)).additions + hidden .added files =
      (statsOf files).additions + ((diffLines files).flatMap strays).countP isAddition ∧
    (parseDiffStats (renderDiff files)).deletions + hidden .removed files =
      (statsOf files).deletions + ((diffLines files).flatMap strays).countP isDeletion := by
  have hfirst := first_fragment
  have hfile : (files.countP fun f => isFileLine ("diff --git ".toList ++ f.names.text)) = files.length :=
    List.countP_eq_length.mpr fun _ _ => rfl
  have hbody : ((bodyLines files).countP fun b => isFileLine b.text) = 0 :=
    List.countP_eq_zero.mpr fun b _ => by simp [(body_counted b).1]
  have hadded := countP_marked .added files fun b => (body_counted b).2.1
  have hremoved := countP_marked .removed files fun b => (body_counted b).2.2
  have hno : (files.countP fun f => isAddition ("diff --git ".toList ++ f.names.text)) = 0 ∧
      (files.countP fun f => isDeletion ("diff --git ".toList ++ f.names.text)) = 0 :=
    ⟨List.countP_eq_zero.mpr fun _ _ => Bool.false_ne_true, List.countP_eq_zero.mpr fun _ _ => Bool.false_ne_true⟩
  rw [parseDiffStats_eq, renderDiff, statsOf]
  dsimp only
  rw [countP_splitlines fun line => (hfirst line).1, countP_splitlines fun line => (hfirst line).2.1,
    countP_splitlines fun line => (hfirst line).2.2, countP_diffLines (fun _ => rfl) fun h => (header_uncounted h).1,
    countP_diffLines (fun _ => rfl) fun h => (header_uncounted h).2.1,
    countP_diffLines (fun _ => rfl) fun h => (header_uncounted h).2.2]
  omega

/-- The counts are right when nothing that a separator cuts off a line looks like
the line of a file, and as many added lines look like a header as such pieces
look like added lines, and so for the removed ones. -/
theorem parseDiffStats_exact_iff (files : List FileDiff) :
    parseDiffStats (renderDiff files) = statsOf files ↔
      (∀ s ∈ (diffLines files).flatMap strays, isFileLine s = false) ∧
        hidden .added files = ((diffLines files).flatMap strays).countP isAddition ∧
        hidden .removed files = ((diffLines files).flatMap strays).countP isDeletion := by
  obtain ⟨hfiles, hadded, hremoved⟩ := parseDiffStats_render files
  have hnone : ((diffLines files).flatMap strays).countP isFileLine = 0 ↔
      ∀ s ∈ (diffLines files).flatMap strays, isFileLine s = false := by
    simp only [List.countP_eq_zero, Bool.not_eq_true]
  have hlength : (statsOf files).filesChanged = files.length := rfl
  rw [← hnone, DiffStats.ext_iff]
  omega

/-- One added line, `++i;`. -/
def incrementDiff : List FileDiff :=
  [⟨⟨"a/x.c b/x.c".toList, by decide⟩,
    [.oldFile ⟨"a/x.c".toList, by decide⟩, .newFile ⟨"b/x.c".toList, by decide⟩],
    [⟨⟨"-0,0 +1 @@".toList, by decide⟩, [⟨.added, ⟨"++i;".toList, by decide⟩⟩]⟩]⟩]

theorem incrementDiff_miscounted : parseDiffStats (renderDiff incrementDiff) ≠ statsOf incrementDiff := by
  decide +kernel

end AiPrReview
