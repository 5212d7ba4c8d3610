import AiPrReview.Lines
import AiPrReview.SourceTree

/-! How the files of a source tree are split into chunks, and which files have any. -/

namespace AiPrReview

structure Chunk : Type where
  path : Text
  symbol : Option Text
  chunkIndex : Nat
  content : Text
  deriving DecidableEq

def vendoredDirNames : List Text :=
  [".git", ".venv", "venv", "node_modules", "vendor", "dist", "build", "__pycache__", ".mypy_cache",
    ".pytest_cache", ".next", "target"].map String.toList

def lockfileNames : List Text :=
  ["package-lock.json", "yarn.lock", "pnpm-lock.yaml", "poetry.lock", "uv.lock", "Pipfile.lock",
    "go.sum", "Cargo.lock", "composer.lock"].map String.toList

def binarySuffixes : List Text :=
  [".png", ".jpg", ".jpeg", ".gif", ".ico", ".webp", ".pdf", ".zip", ".gz", ".tar", ".whl", ".so",
    ".dylib", ".dll", ".exe", ".woff", ".woff2", ".ttf", ".eot", ".mp3", ".mp4", ".sqlite", ".db",
    ".bin", ".pyc"].map String.toList

def maxFileBytes : Nat := 500000

def lineWindow : Nat := 200

def lineOverlap : Nat := 20

def isVendored (path : Text) : Bool := (pathParts path).any fun part => vendoredDirNames.contains part

/-- No letter outside ASCII has one of the letters of a binary suffix as its lower case. -/
def shouldSkip (path : Text) (sizeBytes : Nat) : Bool :=
  isVendored path || lockfileNames.contains (pathName path) ||
    binarySuffixes.contains ((pathSuffix path).map Char.toLower) || decide (maxFileBytes < sizeBytes)

/-! `^(?:async\s+def|def|class)\s+(\w+)`, where `isWord` is the class `\w`. -/

def afterWord (word line : Text) : Option Text :=
  if word.isPrefixOf line then some (line.drop word.length) else none

def afterSpaces (line : Text) : Option Text :=
  if line.head?.any isSpace then some (line.dropWhile isSpace) else none

def topLevelSymbol (isWord : Char → Bool) (line : Text) : Option Text :=
  let afterKeyword :=
    ((afterWord "async".toList line).bind afterSpaces).bind (afterWord "def".toList) |>.or
      ((afterWord "def".toList line).or (afterWord "class".toList line))
  (afterKeyword.bind afterSpaces).bind fun rest =>
    let name := rest.takeWhile isWord
    if name = [] then none else some name

def slice (lines : List Text) (start stop : Nat) : Text := ((lines.take stop).drop start).flatten

def symbolPieces (lines : List Text) : List (Nat × Text) → List (Option Text × Text)
  | [] => []
  | (start, symbol) :: boundaries =>
    (some symbol, slice lines start (boundaries.head?.elim lines.length Prod.fst)) ::
      symbolPieces lines boundaries

def splitPython (isWord : Char → Bool) (text : Text) : List (Option Text × Text) :=
  let lines := splitlinesKeep text
  let boundaries := lines.zipIdx.filterMap fun (line, i) => (topLevelSymbol isWord line).map (i, ·)
  match boundaries with
  | [] => if strip text = [] then [] else [(none, text)]
  | (first, _) :: _ =>
    let head := slice lines 0 first
    (if strip head = [] then [] else [(none, head)]) ++ symbolPieces lines boundaries

/-- The loop over `range(0, len(lines), step)`, with `rounds` rounds left; no window is empty. -/
def lineWindows (lines : List Text) : Nat → Nat → List (Option Text × Text)
  | 0, _ => []
  | rounds + 1, start =>
    (none, slice lines start (start + lineWindow)) ::
      if lines.length ≤ start + lineWindow then []
      else lineWindows lines rounds (start + (lineWindow - lineOverlap))

def splitByLineWindow (text : Text) : List (Option Text × Text) :=
  let lines := splitlinesKeep text
  let step := lineWindow - lineOverlap
  lineWindows lines ((lines.length + step - 1) / step) 0

def chunkFile (isWord : Char → Bool) (path text : Text) : List Chunk :=
  let pieces := if pathSuffix path = ".py".toList then splitPython isWord text else splitByLineWindow text
  pieces.zipIdx.filterMap fun ((symbol, content), i) =>
    if strip content = [] then none else some ⟨path, symbol, i, content⟩

def fileChunks (isWord : Char → Bool) (path : Text) (file : SourceFile) : List Chunk :=
  match file.statSize, file.readText with
  | some sizeBytes, some text => if shouldSkip path sizeBytes then [] else chunkFile isWord path text
  | _, _ => []

def chunkRepo (isWord : Char → Bool) (tree : SourceTree) (onlyPaths : Option (List Text)) : List Chunk :=
  tree.sorted.flatMap fun f =>
    if onlyPaths.all (·.contains f.1) then fileChunks isWord f.1 f.2 else []

/-! A file has a chunk when it is eligible, and its text is not blank. -/

theorem mem_slice_iff {lines : List Text} {start stop : Nat} {c : Char} :
    c ∈ slice lines start stop ↔ ∃ i line, start ≤ i ∧ i < stop ∧ lines[i]? = some line ∧ c ∈ line := by
  rw [slice, List.mem_flatten]
  constructor
  · rintro ⟨line, hl, hc⟩
    obtain ⟨k, hk⟩ := List.getElem?_of_mem hl
    rw [List.getElem?_drop, List.getElem?_take] at hk
    by_cases h : start + k < stop
    · rw [if_pos h] at hk
      exact ⟨start + k, line, Nat.le_add_right _ _, h, hk, hc⟩
    · rw [if_neg h] at hk
      exact absurd hk (Option.some_ne_none line).symm
  · rintro ⟨i, line, hs, hi, hl, hc⟩
    refine ⟨line, List.mem_of_getElem? (i := i - start) ?_, hc⟩
    rw [List.getElem?_drop, List.getElem?_take, Nat.add_sub_cancel' hs, if_pos hi]
    exact hl

theorem slice_subset (lines : List Text) (start stop : Nat) : slice lines start stop ⊆ lines.flatten := by
  intro c hc
  obtain ⟨i, line, _, _, hl, hcl⟩ := mem_slice_iff.mp hc
  exact List.mem_flatten.mpr ⟨line, List.mem_of_getElem? hl, hcl⟩

theorem lineWindows_cover {lines : List Text} {i : Nat} {line : Text} (hl : lines[i]? = some line)
    {rounds start : Nat} (hs : start ≤ i)
    (hr : lines.length ≤ start + (lineWindow - lineOverlap) * rounds) :
    ∃ piece ∈ lineWindows lines rounds start, line ⊆ piece.2 := by
  have hi : i < lines.length := (List.getElem?_eq_some_iff.mp hl).1
  induction rounds generalizing start with
  | zero => omega
  | succ rounds ih =>
    rw [lineWindows]
    by_cases hin : i < start + lineWindow
    · exact ⟨_, List.mem_cons_self, fun c hc => mem_slice_iff.mpr ⟨i, line, hs, hin, hl, hc⟩⟩
    · have hgo : ¬lines.length ≤ start + lineWindow := by omega
      rw [if_neg hgo]
      have hw : lineWindow - lineOverlap ≤ lineWindow := Nat.sub_le _ _
      rw [Nat.mul_succ] at hr
      have hnext : start + (lineWindow - lineOverlap) ≤ i := by omega
      obtain ⟨piece, hp, hsub⟩ := ih hnext (by omega)
      exact ⟨piece, List.mem_cons_of_mem _ hp, hsub⟩

theorem symbolPieces_cover {lines : List Text} {i : Nat} {line : Text} (hl : lines[i]? = some line)
    {boundaries : List (Nat × Text)} (hs : ∃ b ∈ boundaries.head?, b.1 ≤ i) :
    ∃ piece ∈ symbolPieces lines boundaries, line ⊆ piece.2 := by
  have hi : i < lines.length := (List.getElem?_eq_some_iff.mp hl).1
  induction boundaries with
  | nil => simp at hs
  | cons b boundaries ih =>
    have hb : b.1 ≤ i := by simpa using hs
    rw [symbolPieces]
    by_cases hin : i < boundaries.head?.elim lines.length Prod.fst
    · exact ⟨_, List.mem_cons_self, fun c hc => mem_slice_iff.mpr ⟨i, line, hb, hin, hl, hc⟩⟩
    · have hnext : ∃ b ∈ boundaries.head?, b.1 ≤ i := by
        cases hh : boundaries.head? with
        | none =>
          rw [hh] at hin
          exact absurd hi hin
        | some next =>
          rw [hh] at hin
          exact ⟨next, rfl, not_lt.mp hin⟩
      obtain ⟨piece, hp, hsub⟩ := ih hnext
      exact ⟨piece, List.mem_cons_of_mem _ hp, hsub⟩

theorem lineWindows_subset {lines : List Text} {rounds start : Nat} {piece : Option Text × Text}
    (h : piece ∈ lineWindows lines rounds start) : piece.2 ⊆ lines.flatten := by
  induction rounds generalizing start with
  | zero => simp [lineWindows] at h
  | succ rounds ih =>
    rw [lineWindows] at h
    rcases List.mem_cons.mp h with rfl | h
    · exact slice_subset lines _ _
    · by_cases hgo : lines.length ≤ start + lineWindow
      · rw [if_pos hgo] at h
        exact absurd h List.not_mem_nil
      · rw [if_neg hgo] at h
        exact ih h

theorem symbolPieces_subset {lines : List Text} {boundaries : List (Nat × Text)}
    {piece : Option Text × Text} (h : piece ∈ symbolPieces lines boundaries) :
    piece.2 ⊆ lines.flatten := by
  induction boundaries with
  | nil => simp [symbolPieces] at h
  | cons b boundaries ih =>
    rw [symbolPieces] at h
    rcases List.mem_cons.mp h with rfl | h
    · exact slice_subset lines _ _
    · exact ih h

theorem exists_line {text : Text} {c : Char} (h : c ∈ text) :
    ∃ (i : Nat) (line : Text), (splitlinesKeep text)[i]? = some line ∧ c ∈ line := by
  rw [← flatten_splitlinesKeep text] at h
  obtain ⟨line, hl, hc⟩ := List.mem_flatten.mp h
  obtain ⟨i, hi⟩ := List.getElem?_of_mem hl
  exact ⟨i, line, hi, hc⟩

theorem splitByLineWindow_cover {text : Text} {c : Char} (h : c ∈ text) :
    ∃ piece ∈ splitByLineWindow text, c ∈ piece.2 := by
  obtain ⟨i, line, hl, hc⟩ := exists_line h
  have hr : (splitlinesKeep text).length ≤ 0 + (lineWindow - lineOverlap) *
      (((splitlinesKeep text).length + (lineWindow - lineOverlap) - 1) / (lineWindow - lineOverlap)) := by
    simp only [lineWindow, lineOverlap]
    omega
  obtain ⟨piece, hp, hsub⟩ := lineWindows_cover hl (Nat.zero_le i) hr
  exact ⟨piece, hp, hsub hc⟩

theorem splitByLineWindow_subset {text : Text} {piece : Option Text × Text}
    (h : piece ∈ splitByLineWindow text) : piece.2 ⊆ text := by
  have hs := lineWindows_subset h
  rwa [flatten_splitlinesKeep] at hs

theorem splitPython_cover {isWord : Char → Bool} {text : Text} {c : Char} (h : c ∈ text)
    (hn : isSpace c = false) : ∃ piece ∈ splitPython isWord text, c ∈ piece.2 := by
  obtain ⟨i, line, hl, hc⟩ := exists_line h
  have hnb : ∀ {t : Text}, c ∈ t → ¬strip t = [] := by
    intro t ht he
    have hs := strip_eq_nil_iff.mp he c ht
    rw [hn] at hs
    exact absurd hs (by decide)
  simp only [splitPython]
  split
  · exact ⟨_, by rw [if_neg (hnb h)]; exact List.mem_singleton.mpr rfl, h⟩
  · rename_i first symbol rest hb
    by_cases hi : i < first
    · -- the line stands before the first symbol
      have hhead : c ∈ slice (splitlinesKeep text) 0 first :=
        mem_slice_iff.mpr ⟨i, line, Nat.zero_le i, hi, hl, hc⟩
      refine ⟨(none, slice (splitlinesKeep text) 0 first), List.mem_append_left _ ?_, hhead⟩
      rw [if_neg (hnb hhead)]
      exact List.mem_singleton.mpr rfl
    · have hfirst : ∃ b ∈ ((first, symbol) :: rest).head?, b.1 ≤ i :=
        ⟨(first, symbol), rfl, not_lt.mp hi⟩
      rw [← hb] at hfirst
      obtain ⟨piece, hp, hsub⟩ := symbolPieces_cover hl hfirst
      exact ⟨piece, List.mem_append_right _ hp, hsub hc⟩

theorem splitPython_subset {isWord : Char → Bool} {text : Text} {piece : Option Text × Text}
    (h : piece ∈ splitPython isWord text) : piece.2 ⊆ text := by
  simp only [splitPython] at h
  split at h
  · split_ifs at h
    · exact absurd h List.not_mem_nil
    · rw [List.mem_singleton.mp h]
      exact List.Subset.refl _
  · rename_i first _ _ _
    rcases List.mem_append.mp h with h | h
    · split_ifs at h
      · exact absurd h List.not_mem_nil
      · rw [List.mem_singleton.mp h]
        have hs := slice_subset (splitlinesKeep text) 0 first
        rwa [flatten_splitlinesKeep] at hs
    · have hs := symbolPieces_subset h
      rwa [flatten_splitlinesKeep] at hs

theorem exists_chunk_of_mem (isWord : Char → Bool) (path : Text) {text : Text} {c : Char} (h : c ∈ text)
    (hn : isSpace c = false) : ∃ chunk ∈ chunkFile isWord path text, c ∈ chunk.content := by
  have hcover : ∃ piece ∈ if pathSuffix path = ".py".toList then splitPython isWord text
      else splitByLineWindow text, c ∈ piece.2 := by
    split_ifs
    · exact splitPython_cover h hn
    · exact splitByLineWindow_cover h
  obtain ⟨⟨symbol, content⟩, hp, hcp⟩ := hcover
  have hb : strip content ≠ [] := by
    intro hb
    have hs := strip_eq_nil_iff.mp hb c hcp
    rw [hn] at hs
    exact absurd hs (by decide)
  obtain ⟨i, hi⟩ := List.getElem?_of_mem hp
  refine ⟨⟨path, symbol, i, content⟩, ?_, hcp⟩
  exact List.mem_filterMap.mpr ⟨((symbol, content), i), List.mem_zipIdx_iff_getElem?.mpr hi, if_neg hb⟩

theorem content_subset {isWord : Char → Bool} {path text : Text} {chunk : Chunk}
    (h : chunk ∈ chunkFile isWord path text) : chunk.content ⊆ text := by
  obtain ⟨⟨⟨symbol, content⟩, i⟩, hp, hc⟩ := List.mem_filterMap.mp h
  simp only [Option.ite_none_left_eq_some, Option.some.injEq] at hc
  rw [← hc.2]
  have hmem := List.fst_mem_of_mem_zipIdx hp
  split_ifs at hmem
  · exact splitPython_subset hmem
  · exact splitByLineWindow_subset hmem

theorem chunkFile_not_blank {isWord : Char → Bool} {path text : Text} {chunk : Chunk}
    (h : chunk ∈ chunkFile isWord path text) : strip chunk.content ≠ [] := by
  obtain ⟨⟨⟨symbol, content⟩, i⟩, _, hc⟩ := List.mem_filterMap.mp h
  simp only [Option.ite_none_left_eq_some, Option.some.injEq] at hc
  rw [← hc.2]
  exact hc.1

theorem chunkFile_eq_nil_iff {isWord : Char → Bool} {path text : Text} :
    chunkFile isWord path text = [] ↔ strip text = [] := by
  constructor
  · intro h
    rw [strip_eq_nil_iff]
    intro c hc
    by_contra hn
    rw [Bool.not_eq_true] at hn
    obtain ⟨chunk, hchunk, _⟩ := exists_chunk_of_mem isWord path hc hn
    rw [h] at hchunk
    exact absurd hchunk List.not_mem_nil
  · intro h
    rw [List.eq_nil_iff_forall_not_mem]
    intro chunk hchunk
    rw [strip_eq_nil_iff] at h
    exact chunkFile_not_blank hchunk (strip_eq_nil_iff.mpr fun c hc => h c (content_subset hchunk hc))

def isIndexable (path : Text) (file : SourceFile) : Bool :=
  match file.statSize, file.readText with
  | some sizeBytes, some text => !shouldSkip path sizeBytes && !(strip text).isEmpty
  | _, _ => false

theorem fileChunks_ne_nil_iff {isWord : Char → Bool} {path : Text} {file : SourceFile} :
    fileChunks isWord path file ≠ [] ↔ isIndexable path file = true := by
  rw [fileChunks, isIndexable]
  cases file.statSize with
  | none => simp
  | some sizeBytes =>
    cases file.readText with
    | none => simp
    | some text =>
      by_cases hs : shouldSkip path sizeBytes = true
      · simp [hs]
      · simp [hs, chunkFile_eq_nil_iff]

/-! A chunk belongs to one file, and has its index to itself there. -/

theorem path_of_mem_fileChunks {isWord : Char → Bool} {path : Text} {file : SourceFile} {c : Chunk}
    (h : c ∈ fileChunks isWord path file) : c.path = path := by
  rw [fileChunks] at h
  split at h
  · split_ifs at h
    · exact absurd h List.not_mem_nil
    · obtain ⟨⟨⟨symbol, content⟩, i⟩, _, hc⟩ := List.mem_filterMap.mp h
      by_cases hb : strip content = []
      · simp [hb] at hc
      · have he : Chunk.mk path symbol i content = c := by simpa [hb] using hc
        rw [← he]
  · exact absurd h List.not_mem_nil

theorem chunkFile_increasing (isWord : Char → Bool) (path text : Text) :
    (chunkFile isWord path text).Pairwise fun c c' => c.chunkIndex < c'.chunkIndex := by
  refine List.pairwise_filterMap.mpr ((pairwise_zipIdx _).imp ?_)
  rintro ⟨⟨symbol, content⟩, i⟩ ⟨⟨symbol', content'⟩, i'⟩ hlt c hc c' hc'
  simp only [Option.ite_none_left_eq_some, Option.some.injEq] at hc hc'
  rw [← hc.2, ← hc'.2]
  exact hlt

theorem fileChunks_nodup (isWord : Char → Bool) (path : Text) (file : SourceFile) :
    ((fileChunks isWord path file).map Chunk.chunkIndex).Nodup := by
  rw [List.Nodup, List.pairwise_map, fileChunks]
  split
  · split_ifs
    · exact List.Pairwise.nil
    · exact (chunkFile_increasing isWord path _).imp fun hlt => hlt.ne
  · exact List.Pairwise.nil

theorem mem_chunkRepo_iff {isWord : Char → Bool} {tree : SourceTree} {only : Option (List Text)}
    {c : Chunk} : c ∈ chunkRepo isWord tree only ↔
      (only.all (·.contains c.path) = true) ∧
        ∃ file, tree.get c.path = some (c.path, file) ∧ c ∈ fileChunks isWord c.path file := by
  rw [chunkRepo, List.mem_flatMap]
  constructor
  · rintro ⟨⟨path, file⟩, hf, hc⟩
    by_cases ho : only.all (·.contains path) = true
    · rw [if_pos ho] at hc
      obtain rfl := path_of_mem_fileChunks hc
      exact ⟨ho, file, SourceTree.mem_sorted.mp hf, hc⟩
    · rw [if_neg ho] at hc
      exact absurd hc List.not_mem_nil
  · rintro ⟨ho, file, hf, hc⟩
    exact ⟨(c.path, file), SourceTree.mem_sorted.mpr hf, by rwa [if_pos ho]⟩

theorem chunkRepo_nodup (isWord : Char → Bool) (tree : SourceTree) (only : Option (List Text)) :
    ((chunkRepo isWord tree only).map fun c => (c.path, c.chunkIndex)).Nodup := by
  rw [List.Nodup, List.pairwise_map, chunkRepo, List.pairwise_flatMap]
  have hpath : ∀ f : Text × SourceFile, ∀ c ∈ (if only.all (·.contains f.1) then
      fileChunks isWord f.1 f.2 else []), c ∈ fileChunks isWord f.1 f.2 := by
    intro f c hc
    split_ifs at hc
    · exact hc
    · exact absurd hc List.not_mem_nil
  constructor
  · rintro ⟨path, file⟩ _
    have hn := fileChunks_nodup isWord path file
    rw [List.Nodup, List.pairwise_map] at hn
    split_ifs
    · exact hn.imp fun hne he => hne (Prod.mk.inj he).2
    · exact List.Pairwise.nil
  · have hn := SourceTree.sorted_nodup tree
    rw [List.Nodup, List.pairwise_map] at hn
    refine hn.imp fun {f f'} hne c hc c' hc' he => hne ?_
    have hp := path_of_mem_fileChunks (hpath f c hc)
    have hp' := path_of_mem_fileChunks (hpath f' c' hc')
    rw [← hp, ← hp']
    exact (Prod.mk.inj he).1

end AiPrReview
