import AiPrReview.Chunker

/-! What the chunks of a file cover of it. -/

namespace AiPrReview

/-! The windows of a file that is not split by symbols, as runs of line numbers. -/

/-- Windows over the `n - start` lines from `start` on: each at most 200 lines long,
each but the first with the last 20 lines of the one before it and at least one more. -/
structure Windows (start n : Nat) (windows : List (Nat × Nat)) : Prop where
  size : ∀ w ∈ windows, w.1 < w.2 ∧ w.2 ≤ w.1 + 200
  first : windows.head?.map Prod.fst = some start
  shared : windows.IsChain fun w w' => w.1 < w'.1 ∧ w'.1 + 20 = w.2 ∧ w.2 < w'.2
  last : windows.getLast?.map Prod.snd = some n

theorem Windows.single {start n : Nat} (h : start < n) (hn : n ≤ start + 200) : Windows start n [(start, n)] where
  size w hw := by
    rw [List.mem_singleton.mp hw]
    exact ⟨h, hn⟩
  first := rfl
  shared := .singleton _
  last := rfl

theorem Windows.cons {start n : Nat} {windows : List (Nat × Nat)} (hn : start + 200 < n)
    (h : Windows (start + 180) n windows) : Windows start n ((start, start + 200) :: windows) := by
  cases windows with
  | nil => exact absurd h.first nofun
  | cons w windows =>
    have hw : w.1 = start + 180 := Option.some.inj h.first
    have hlong : start + 200 < w.2 := by
      cases windows with
      | nil =>
        have hlast : w.2 = n := Option.some.inj h.last
        omega
      | cons w' windows =>
        have hnext := (List.isChain_cons_cons.mp h.shared).1
        have hsize := (h.size w' (by simp)).1
        omega
    refine ⟨fun x hx => ?_, rfl, List.isChain_cons_cons.mpr ⟨⟨?_, ?_, hlong⟩, h.shared⟩, ?_⟩
    · rcases List.mem_cons.mp hx with rfl | hx
      · exact ⟨Nat.lt_add_of_pos_right (by decide), Nat.le_refl _⟩
      · exact h.size x hx
    · show start < w.1
      omega
    · show w.1 + 20 = start + 200
      omega
    · rw [List.getLast?_cons_cons]
      exact h.last

theorem lineWindows_windows {lines : List Text} {rounds start : Nat} (hs : start < lines.length)
    (hr : lines.length ≤ start + 180 * rounds) : ∃ windows, Windows start lines.length windows ∧
      lineWindows lines rounds start = windows.map fun w => (none, slice lines w.1 w.2) := by
  induction rounds generalizing start with
  | zero => omega
  | succ rounds ih =>
    have hwindow : lineWindow = 200 := rfl
    have hstep : lineWindow - lineOverlap = 180 := rfl
    rw [lineWindows, hstep, hwindow]
    by_cases hend : lines.length ≤ start + 200
    · refine ⟨[(start, lines.length)], .single hs hend, ?_⟩
      have hall : slice lines start (start + 200) = slice lines start lines.length := by
        rw [slice, slice, List.take_of_length_le hend, List.take_length]
      rw [if_pos hend, hall]
      rfl
    · have hnext : start + 180 < lines.length := by omega
      obtain ⟨windows, hw, he⟩ := ih hnext (by omega)
      refine ⟨_, hw.cons (not_le.mp hend), ?_⟩
      rw [if_neg hend, he]
      rfl

theorem Windows.exists_window {start n i : Nat} {windows : List (Nat × Nat)} (h : Windows start n windows)
    (hs : start ≤ i) (hi : i < n) : ∃ w ∈ windows, w.1 ≤ i ∧ i < w.2 := by
  induction windows generalizing start with
  | nil => exact absurd h.first nofun
  | cons w windows ih =>
    obtain rfl : w.1 = start := Option.some.inj h.first
    by_cases hin : i < w.2
    · exact ⟨w, List.mem_cons_self, hs, hin⟩
    · cases windows with
      | nil =>
        have hlast : w.2 = n := Option.some.inj h.last
        omega
      | cons w' windows =>
        obtain ⟨⟨_, hover, _⟩, hchain⟩ := List.isChain_cons_cons.mp h.shared
        have hrest : Windows w'.1 n (w' :: windows) :=
          ⟨fun x hx => h.size x (List.mem_cons_of_mem _ hx), rfl, hchain,
            by rw [← h.last, List.getLast?_cons_cons]⟩
        obtain ⟨x, hx, hxi⟩ := ih hrest (by omega)
        exact ⟨x, List.mem_cons_of_mem _ hx, hxi⟩

/-! The pieces of a file that is split by symbols. -/

theorem slice_append_drop (lines : List Text) {start stop : Nat} (h : start ≤ stop) :
    slice lines start stop ++ (lines.drop stop).flatten = (lines.drop start).flatten := by
  have hsplit : (lines.take stop).drop start ++ lines.drop stop = lines.drop start := by
    by_cases hlen : stop ≤ lines.length
    · have htake : (lines.take stop ++ lines.drop stop).drop start = _ :=
        List.drop_append_of_le_length (by rw [List.length_take]; omega)
      rw [← htake, List.take_append_drop]
    · rw [List.take_of_length_le (by omega), List.drop_of_length_le (i := stop) (by omega), List.append_nil]
  rw [slice, ← List.flatten_append, hsplit]

theorem symbolPieces_flatten {lines : List Text} {b : Nat × Text} {boundaries : List (Nat × Text)}
    (h : (b :: boundaries).Pairwise fun b b' => b.1 < b'.1) (hb : ∀ x ∈ b :: boundaries, x.1 < lines.length) :
    ((symbolPieces lines (b :: boundaries)).map Prod.snd).flatten = (lines.drop b.1).flatten := by
  induction boundaries generalizing b with
  | nil =>
    have hlen : b.1 ≤ lines.length := (hb b (by simp)).le
    have hh := slice_append_drop lines hlen
    rw [List.drop_length, List.flatten_nil] at hh
    exact hh
  | cons b' boundaries ih =>
    obtain ⟨hlt, hrest⟩ := List.pairwise_cons.mp h
    have hh := ih hrest fun x hx => hb x (List.mem_cons_of_mem _ hx)
    rw [symbolPieces, List.map_cons, List.flatten_cons, hh]
    exact slice_append_drop lines (hlt b' (by simp)).le

/-- A piece that is a run of lines of the text, the first of them one of its symbol. -/
def StartsAtSymbol (isWord : Char → Bool) (text : Text) (piece : Option Text × Text) : Prop :=
  ∃ before line lines after, splitlinesKeep text = before ++ (line :: lines) ++ after ∧
    piece.2 = (line :: lines).flatten ∧ topLevelSymbol isWord line = piece.1 ∧ piece.1 ≠ none

theorem exists_solid_of_symbol {isWord : Char → Bool} {line : Text} (h : topLevelSymbol isWord line ≠ none) :
    ∃ c ∈ line, isSpace c = false := by
  have hword : ∀ {word : Text}, (∃ c ∈ word, isSpace c = false) → afterWord word line ≠ none →
      ∃ c ∈ line, isSpace c = false := by
    rintro word ⟨c, hc, hs⟩ hw
    have hp : word.isPrefixOf line = true := by
      by_contra hno
      exact hw (if_neg hno)
    exact ⟨c, (List.isPrefixOf_iff_prefix.mp hp).subset hc, hs⟩
  by_cases hasync : afterWord "async".toList line = none
  · by_cases hdef : afterWord "def".toList line = none
    · have hclass : afterWord "class".toList line ≠ none := by
        intro hclass
        refine h ?_
        rw [topLevelSymbol, hasync, hdef, hclass]
        rfl
      exact hword ⟨'c', by decide, by decide⟩ hclass
    · exact hword ⟨'d', by decide, by decide⟩ hdef
  · exact hword ⟨'a', by decide, by decide⟩ hasync

theorem StartsAtSymbol.not_blank {isWord : Char → Bool} {text : Text} {piece : Option Text × Text}
    (h : StartsAtSymbol isWord text piece) : strip piece.2 ≠ [] := by
  obtain ⟨_, line, lines, _, _, hpiece, hsymbol, hsome⟩ := h
  obtain ⟨c, hc, hs⟩ := exists_solid_of_symbol (hsymbol.trans_ne hsome)
  intro hblank
  have hspace := strip_eq_nil_iff.mp hblank c (by
    rw [hpiece]
    exact List.mem_append_left _ hc)
  rw [hs] at hspace
  cases hspace

def symbolLines (isWord : Char → Bool) (lines : List Text) : List (Nat × Text) :=
  lines.zipIdx.filterMap fun (line, i) => (topLevelSymbol isWord line).map (i, ·)

section

variable {isWord : Char → Bool} {lines : List Text}

theorem mem_symbolLines_iff {b : Nat × Text} : b ∈ symbolLines isWord lines ↔
    ∃ line, lines[b.1]? = some line ∧ topLevelSymbol isWord line = some b.2 := by
  rw [symbolLines, List.mem_filterMap]
  constructor
  · rintro ⟨⟨line, i⟩, hl, hb⟩
    obtain ⟨symbol, hs, rfl⟩ := Option.map_eq_some_iff.mp hb
    exact ⟨line, List.mem_zipIdx_iff_getElem?.mp hl, hs⟩
  · rintro ⟨line, hl, hs⟩
    exact ⟨(line, b.1), List.mem_zipIdx_iff_getElem?.mpr hl, congrArg (Option.map (b.1, ·)) hs⟩

theorem pairwise_symbolLines : (symbolLines isWord lines).Pairwise fun b b' => b.1 < b'.1 := by
  refine List.pairwise_filterMap.mpr ((pairwise_zipIdx lines).imp ?_)
  rintro ⟨line, i⟩ ⟨line', i'⟩ hlt b hb b' hb'
  obtain ⟨_, _, rfl⟩ := Option.map_eq_some_iff.mp hb
  obtain ⟨_, _, rfl⟩ := Option.map_eq_some_iff.mp hb'
  exact hlt

theorem symbolLines_lt {b : Nat × Text} (h : b ∈ symbolLines isWord lines) : b.1 < lines.length := by
  obtain ⟨_, hl, _⟩ := mem_symbolLines_iff.mp h
  exact (List.getElem?_eq_some_iff.mp hl).1

theorem symbol_eq_none_of_notMem {i : Nat} {line : Text} (hl : lines[i]? = some line)
    (h : ∀ symbol, (i, symbol) ∉ symbolLines isWord lines) : topLevelSymbol isWord line = none := by
  cases hs : topLevelSymbol isWord line with
  | none => rfl
  | some symbol => exact absurd (mem_symbolLines_iff.mpr ⟨line, hl, hs⟩) (h symbol)

end

theorem startsAtSymbol_of_mem {isWord : Char → Bool} {text : Text} {boundaries : List (Nat × Text)}
    (h : boundaries.Pairwise fun b b' => b.1 < b'.1)
    (hb : ∀ b ∈ boundaries, b ∈ symbolLines isWord (splitlinesKeep text)) :
    ∀ piece ∈ symbolPieces (splitlinesKeep text) boundaries, StartsAtSymbol isWord text piece := by
  induction boundaries with
  | nil => exact fun _ hp => absurd hp List.not_mem_nil
  | cons b boundaries ih =>
    obtain ⟨hlt, hrest⟩ := List.pairwise_cons.mp h
    intro piece hp
    rcases List.mem_cons.mp hp with rfl | hp
    · obtain ⟨line, hl, hs⟩ := mem_symbolLines_iff.mp (hb b (by simp))
      obtain ⟨hlen, hget⟩ := List.getElem?_eq_some_iff.mp hl
      obtain ⟨stop, hstop, hnext⟩ : ∃ stop, b.1 < stop ∧
          boundaries.head?.elim (splitlinesKeep text).length Prod.fst = stop := by
        cases boundaries with
        | nil => exact ⟨_, hlen, rfl⟩
        | cons b' _ => exact ⟨_, hlt b' (by simp), rfl⟩
      have hcut : ((splitlinesKeep text).take stop).drop b.1 =
          line :: ((splitlinesKeep text).take stop).drop (b.1 + 1) := by
        have hin : b.1 < ((splitlinesKeep text).take stop).length := by
          rw [List.length_take]
          omega
        rw [List.drop_eq_getElem_cons hin, List.getElem_take, hget]
      refine ⟨((splitlinesKeep text).take stop).take b.1, line, ((splitlinesKeep text).take stop).drop (b.1 + 1),
        (splitlinesKeep text).drop stop, ?_, ?_, hs, nofun⟩
      · rw [← hcut, List.take_append_drop, List.take_append_drop]
      · rw [← hcut, ← hnext]
        rfl
    · exact ih hrest (fun x hx => hb x (List.mem_cons_of_mem _ hx)) piece hp

theorem splitPython_of_no_symbol {isWord : Char → Bool} {text : Text}
    (h : symbolLines isWord (splitlinesKeep text) = []) :
    splitPython isWord text = if strip text = [] then [] else [(none, text)] := by
  rw [symbolLines] at h
  rw [splitPython]
  dsimp only
  rw [h]

theorem splitPython_of_symbols {isWord : Char → Bool} {text : Text} {b : Nat × Text}
    {boundaries : List (Nat × Text)} (h : symbolLines isWord (splitlinesKeep text) = b :: boundaries) :
    splitPython isWord text =
      (if strip (slice (splitlinesKeep text) 0 b.1) = [] then [] else [(none, slice (splitlinesKeep text) 0 b.1)]) ++
        symbolPieces (splitlinesKeep text) (b :: boundaries) := by
  rw [symbolLines] at h
  rw [splitPython]
  dsimp only
  rw [h]

/-- The pieces are those in `lead`, at most one and without a symbol, and those in
`rest`; together they are the text without its first lines, `blank`. -/
structure SymbolCover (isWord : Char → Bool) (text : Text) (blank : List Text)
    (lead rest : List (Option Text × Text)) : Prop where
  atStart : blank <+: splitlinesKeep text
  isBlank : ∀ line ∈ blank, topLevelSymbol isWord line = none ∧ ∀ c ∈ line, isSpace c = true
  whole : blank.flatten ++ ((lead ++ rest).map Prod.snd).flatten = text
  atMostOne : lead.length ≤ 1
  symbolless : ∀ piece ∈ lead, piece.1 = none ∧ strip piece.2 ≠ []
  atSymbol : ∀ piece ∈ rest, StartsAtSymbol isWord text piece

theorem spaces_of_strip_flatten {lines : List Text} (h : strip lines.flatten = []) :
    ∀ line ∈ lines, ∀ c ∈ line, isSpace c = true :=
  fun line hl c hc => strip_eq_nil_iff.mp h c (List.mem_flatten.mpr ⟨line, hl, hc⟩)

theorem no_symbol_before {isWord : Char → Bool} {lines : List Text} {b : Nat × Text} {boundaries : List (Nat × Text)}
    (hb : symbolLines isWord lines = b :: boundaries) {line : Text} (h : line ∈ lines.take b.1) :
    topLevelSymbol isWord line = none := by
  obtain ⟨i, hi⟩ := List.getElem?_of_mem h
  have hlt : i < b.1 := by
    have hlen := (List.getElem?_eq_some_iff.mp hi).1
    rw [List.length_take] at hlen
    omega
  rw [List.getElem?_take, if_pos hlt] at hi
  have hsorted : (b :: boundaries).Pairwise fun b b' => b.1 < b'.1 := hb ▸ pairwise_symbolLines
  refine symbol_eq_none_of_notMem hi fun symbol hs => ?_
  rw [hb] at hs
  rcases List.mem_cons.mp hs with rfl | hs
  · exact absurd hlt (Nat.lt_irrefl _)
  · exact absurd ((List.pairwise_cons.mp hsorted).1 _ hs) (Nat.lt_asymm hlt)

theorem splitPython_covers_symbolless {isWord : Char → Bool} {text : Text}
    (hb : symbolLines isWord (splitlinesKeep text) = []) : ∃ blank lead rest,
    splitPython isWord text = lead ++ rest ∧ SymbolCover isWord text blank lead rest := by
  have hkeep := flatten_splitlinesKeep text
  rw [splitPython_of_no_symbol hb]
  by_cases hblank : strip text = []
  · have hnone : ∀ line ∈ splitlinesKeep text, topLevelSymbol isWord line = none := by
      intro line hl
      obtain ⟨i, hi⟩ := List.getElem?_of_mem hl
      refine symbol_eq_none_of_notMem hi fun symbol hs => ?_
      rw [hb] at hs
      exact absurd hs List.not_mem_nil
    have hspaces := spaces_of_strip_flatten (hkeep.symm ▸ hblank)
    rw [if_pos hblank]
    refine ⟨splitlinesKeep text, [], [], rfl, List.prefix_refl _, ?_, by simpa using hkeep, by simp, by simp, by simp⟩
    exact fun line hl => ⟨hnone line hl, hspaces line hl⟩
  · rw [if_neg hblank]
    exact ⟨[], [(none, text)], [], by simp, List.nil_prefix, by simp, by simp, by simp, by simp [hblank], by simp⟩

theorem splitPython_covers (isWord : Char → Bool) (text : Text) : ∃ blank lead rest,
    splitPython isWord text = lead ++ rest ∧ SymbolCover isWord text blank lead rest := by
  cases hb : symbolLines isWord (splitlinesKeep text) with
  | nil => exact splitPython_covers_symbolless hb
  | cons b boundaries =>
    have hsorted : (b :: boundaries).Pairwise fun b b' => b.1 < b'.1 := hb ▸ pairwise_symbolLines
    have hmem : ∀ x ∈ b :: boundaries, x ∈ symbolLines isWord (splitlinesKeep text) := by
      rw [hb]
      exact fun _ hx => hx
    have hflat := symbolPieces_flatten hsorted fun x hx => symbolLines_lt (hmem x hx)
    have hrest := startsAtSymbol_of_mem hsorted hmem
    have hhead : slice (splitlinesKeep text) 0 b.1 = ((splitlinesKeep text).take b.1).flatten := rfl
    have hall : slice (splitlinesKeep text) 0 b.1 ++ ((splitlinesKeep text).drop b.1).flatten = text := by
      rw [slice_append_drop _ (Nat.zero_le _)]
      exact flatten_splitlinesKeep text
    rw [splitPython_of_symbols hb]
    by_cases hblank : strip (slice (splitlinesKeep text) 0 b.1) = []
    · have hspaces := spaces_of_strip_flatten (hhead ▸ hblank)
      rw [if_pos hblank]
      refine ⟨(splitlinesKeep text).take b.1, [], _, rfl, List.take_prefix _ _, ?_, ?_, by simp, by simp, hrest⟩
      · exact fun line hl => ⟨no_symbol_before hb hl, hspaces line hl⟩
      · rw [List.nil_append, hflat, ← hhead]
        exact hall
    · rw [if_neg hblank]
      refine ⟨[], [(none, slice (splitlinesKeep text) 0 b.1)], _, rfl, List.nil_prefix, by simp, ?_,
        by simp, by simp [hblank], hrest⟩
      rw [List.map_append, List.flatten_append, hflat]
      simpa using hall

/-! The chunks. -/

/-- A Python file: its chunks are all of it, but for blank lines before the first symbol. -/
def PythonCover (isWord : Char → Bool) (text : Text) (chunks : List Chunk) : Prop :=
  ∃ blank lead rest, chunks = lead ++ rest ∧
    SymbolCover isWord text blank (lead.map fun c => (c.symbol, c.content)) (rest.map fun c => (c.symbol, c.content))

/-- Any other file: the chunks are the windows that are not blank, and no line
that is not blank is outside of all of them. -/
def WindowCover (path text : Text) (chunks : List Chunk) : Prop :=
  ∃ windows, (if text = [] then windows = [] else Windows 0 (splitlinesKeep text).length windows) ∧
    (chunks = windows.zipIdx.filterMap fun (w, i) =>
      let content := slice (splitlinesKeep text) w.1 w.2
      if strip content = [] then none else some ⟨path, none, i, content⟩) ∧
    ∀ i line, (splitlinesKeep text)[i]? = some line → strip line ≠ [] →
      ∃ w ∈ windows, w.1 ≤ i ∧ i < w.2 ∧ ∃ c ∈ chunks, c.content = slice (splitlinesKeep text) w.1 w.2

theorem chunkFile_pythonCover (isWord : Char → Bool) {path : Text} (text : Text)
    (hpath : pathSuffix path = ".py".toList) : PythonCover isWord text (chunkFile isWord path text) := by
  obtain ⟨blank, lead, rest, hsplit, hcover⟩ := splitPython_covers isWord text
  have hsolid : ∀ piece ∈ splitPython isWord text, strip piece.2 ≠ [] := by
    intro piece hp
    rw [hsplit] at hp
    rcases List.mem_append.mp hp with hp | hp
    · exact (hcover.symbolless piece hp).2
    · exact (hcover.atSymbol piece hp).not_blank
  have hpieces : (chunkFile isWord path text).map (fun c => (c.symbol, c.content)) = splitPython isWord text := by
    rw [chunkFile, if_pos hpath]
    generalize splitPython isWord text = pieces at hsolid
    rw [List.map_filterMap]
    conv_rhs => rw [← List.zipIdx_map_fst 0 pieces, ← List.filterMap_eq_map]
    refine List.filterMap_congr fun x hx => ?_
    have hs := hsolid x.1 (List.fst_mem_of_mem_zipIdx hx)
    simp [hs]
  rw [hsplit] at hpieces
  obtain ⟨first, others, hchunks, rfl, rfl⟩ := List.map_eq_append_iff.mp hpieces
  exact ⟨blank, first, others, hchunks, hcover⟩

theorem splitByLineWindow_windows (text : Text) : ∃ windows,
    (if text = [] then windows = [] else Windows 0 (splitlinesKeep text).length windows) ∧
      splitByLineWindow text = windows.map fun w => (none, slice (splitlinesKeep text) w.1 w.2) := by
  by_cases hnil : text = []
  · rw [hnil]
    exact ⟨[], by simp, rfl⟩
  · have hpos : 0 < (splitlinesKeep text).length := by
      rw [List.length_pos_iff]
      intro he
      have hkeep := flatten_splitlinesKeep text
      rw [he] at hkeep
      exact hnil hkeep.symm
    have hrounds : (splitlinesKeep text).length ≤ 0 + 180 * (((splitlinesKeep text).length + 180 - 1) / 180) := by
      omega
    obtain ⟨windows, hw, he⟩ := lineWindows_windows hpos hrounds
    exact ⟨windows, (if_neg hnil).mpr hw, he⟩

theorem chunkFile_windowCover (isWord : Char → Bool) {path : Text} (text : Text)
    (hpath : pathSuffix path ≠ ".py".toList) : WindowCover path text (chunkFile isWord path text) := by
  obtain ⟨windows, hw, hpieces⟩ := splitByLineWindow_windows text
  have hchunks : chunkFile isWord path text = windows.zipIdx.filterMap fun (w, i) =>
      let content := slice (splitlinesKeep text) w.1 w.2
      if strip content = [] then none else some ⟨path, none, i, content⟩ := by
    rw [chunkFile, if_neg hpath, hpieces, List.zipIdx_map, List.filterMap_map]
    rfl
  refine ⟨windows, hw, hchunks, fun i line hl hline => ?_⟩
  obtain ⟨hi, _⟩ := List.getElem?_eq_some_iff.mp hl
  have hne : text ≠ [] := by
    rintro rfl
    exact absurd hi (Nat.not_lt_zero i)
  rw [if_neg hne] at hw
  obtain ⟨w, hmem, hle, hlt⟩ := hw.exists_window (Nat.zero_le i) hi
  have hblank : strip (slice (splitlinesKeep text) w.1 w.2) ≠ [] := by
    intro he
    refine hline (strip_eq_nil_iff.mpr fun c hc => ?_)
    exact strip_eq_nil_iff.mp he c (mem_slice_iff.mpr ⟨i, line, hle, hlt, hl, hc⟩)
  obtain ⟨j, hj⟩ := List.getElem?_of_mem hmem
  refine ⟨w, hmem, hle, hlt, ⟨path, none, j, slice (splitlinesKeep text) w.1 w.2⟩, ?_, rfl⟩
  rw [hchunks]
  exact List.mem_filterMap.mpr ⟨(w, j), List.mem_zipIdx_iff_getElem?.mpr hj, if_neg hblank⟩

/-- No code is lost when a file is split into chunks. -/
theorem chunkFile_loses_nothing (isWord : Char → Bool) (path text : Text) :
    (if pathSuffix path = ".py".toList then PythonCover isWord text (chunkFile isWord path text)
      else WindowCover path text (chunkFile isWord path text)) ∧
    (strip text = [] → chunkFile isWord path text = []) ∧
    (chunkFile isWord path text).Pairwise (fun c c' => c.chunkIndex < c'.chunkIndex) ∧
    ∀ c ∈ chunkFile isWord path text, strip c.content ≠ [] := by
  refine ⟨?_, chunkFile_eq_nil_iff.mpr, chunkFile_increasing isWord path text, fun c => chunkFile_not_blank⟩
  by_cases hpath : pathSuffix path = ".py".toList
  · rw [if_pos hpath]
    exact chunkFile_pythonCover isWord text hpath
  · rw [if_neg hpath]
    exact chunkFile_windowCover isWord text hpath

end AiPrReview
