import AiPrReview.ContextRetriever

/-! Which chunks the hybrid query selects. It ranks by the scores that are left when both
rankings are cut to their first `k` rows, and not by the scores of the whole rankings. -/

namespace AiPrReview.ContextRetriever

open Ranking Numeric

variable {E D R : Type} [LinearOrder D] [LinearOrder R]

section

variable (s : SearchOps E D R) (t : Table (StoredChunk.id (E := E))) (p : HybridParams E)

def exactQuotient (d : Nat) : ℚ := 1 / d

/-- The score of a chunk by its ranks in the whole rankings. -/
def rrfScore (quotient : Nat → ℚ) (c : StoredChunk E) : ℚ :=
  rrf quotient (some (vectorRank s t p c)) (ftsRank s t p c)

/-- Neither rank of the chunk is cut off. -/
def Uncut (c : StoredChunk E) : Prop := vectorRank s t p c ≤ p.k ∧ ∀ n, ftsRank s t p c = some n → n ≤ p.k

/-- The rows are distinct chunks of the repository, `k` at most, and no chunk `among`
those left out has a larger score than one of them. -/
structure TopChunks (among : StoredChunk E → Prop) (score : StoredChunk E → ℚ) (rows : List HybridRow) : Prop where
  ids_nodup : (rows.map HybridRow.id).Nodup
  length_le : rows.length ≤ p.k
  of_repo : ∀ r ∈ rows, ∃ c ∈ repoChunks t p, c.id = r.id ∧ c.path = r.path ∧ c.content = r.content
  best : ∀ c ∈ repoChunks t p, among c → c.id ∉ rows.map HybridRow.id →
    ∀ d ∈ repoChunks t p, d.id ∈ rows.map HybridRow.id → score c ≤ score d

/-- The rows are the top by the cut ranks; and by the whole ranks too, as far as the chunks
left out were not cut. -/
structure FusesCuts (quotient : Nat → ℚ) (rows : List HybridRow) : Prop where
  by_cut : TopChunks t p (fun c => InCut s t p c ∨ p.k ≤ absentRank) (cutScore s t p quotient) rows
  by_rank : (repoChunks t p).length ≤ absentRank → TopChunks t p (Uncut s t p) (rrfScore s t p quotient) rows

end

/-! Scores and ranks. -/

theorem rrf_le_rrf {quotient : Nat → ℚ} (hq : ∀ {a b}, 0 < a → a ≤ b → quotient b ≤ quotient a)
    {v f v' f' : Option Nat} (hv : v'.getD absentRank ≤ v.getD absentRank)
    (hf : f'.getD absentRank ≤ f.getD absentRank) : rrf quotient v f ≤ rrf quotient v' f' := by
  have hpos : ∀ n, 0 < rrfK + n := fun n => Nat.add_pos_left (by decide) n
  exact add_le_add (hq (hpos _) (Nat.add_le_add_left hv rrfK)) (hq (hpos _) (Nat.add_le_add_left hf rrfK))

theorem getD_filter_le {o : Option Nat} {k m : Nat} (hk : k ≤ m) : (o.filter (· ≤ k)).getD m ≤ m := by
  cases hf : o.filter (· ≤ k) with
  | none => exact Nat.le_refl m
  | some n => exact (of_decide_eq_true (Option.filter_eq_some_iff.mp hf).2).trans hk

theorem getD_le_getD_filter {o : Option Nat} {k m : Nat} (ho : ∀ n, o = some n → n ≤ m) :
    o.getD m ≤ (o.filter (· ≤ k)).getD m := by
  cases o with
  | none => exact Nat.le_refl m
  | some n =>
    by_cases h : n ≤ k
    · rw [Option.filter_some_pos (by simpa using h)]
    · rw [Option.filter_some_neg (by simpa using h)]
      exact ho n rfl

section

variable {s : SearchOps E D R} {t : Table (StoredChunk.id (E := E))} {p : HybridParams E} {ties : Ties E}
  {c d : StoredChunk E} {quotient : Nat → ℚ}

theorem cutScore_of_uncut (h : Uncut s t p c) : cutScore s t p quotient c = rrfScore s t p quotient c := by
  have hv : cutVectorRank s t p c = some (vectorRank s t p c) := Option.filter_some_pos (by simpa using h.1)
  have hf : cutFtsRank s t p c = ftsRank s t p c := by
    rw [cutFtsRank]
    cases hr : ftsRank s t p c with
    | none => rfl
    | some n => exact Option.filter_some_pos (by simpa using h.2 n hr)
  rw [cutScore, rrfScore, hv, hf]

theorem inCut_of_uncut (h : Uncut s t p c) : InCut s t p c := by
  have hv : cutVectorRank s t p c = some (vectorRank s t p c) := Option.filter_some_pos (by simpa using h.1)
  exact .inl (Option.isSome_of_eq_some hv)

/-- A cut takes nothing but score away, in a repository of up to a million chunks. -/
theorem cutScore_le_rrfScore (hq : ∀ {a b}, 0 < a → a ≤ b → quotient b ≤ quotient a)
    (hsize : (repoChunks t p).length ≤ absentRank) (hd : d ∈ repoChunks t p) :
    cutScore s t p quotient d ≤ rrfScore s t p quotient d := by
  refine rrf_le_rrf hq (getD_le_getD_filter fun n hn => ?_) (getD_le_getD_filter fun n hn => ?_)
  · cases hn
    exact (vectorRank_le hd).trans hsize
  · exact (ftsRank_le hd hn).trans hsize

theorem chunk_of_mem (h : TieFree s t p) {r : HybridRow} (hr : r ∈ hybridQuery s t p ties) :
    ∃ c ∈ repoChunks t p, chunkRow s t p c = r := by
  obtain ⟨c, hc, _, he⟩ := (mem_fused_iff h).mp (mem_of_mem_hybridQuery hr)
  exact ⟨c, hc, he⟩

theorem cutScore_le_of_selected (h : TieFree s t p) (hc : c ∈ repoChunks t p) (hcut : InCut s t p c ∨ p.k ≤ absentRank)
    (hout : c.id ∉ (hybridQuery s t p ties).map HybridRow.id) (hd : d ∈ repoChunks t p)
    (hin : d.id ∈ (hybridQuery s t p ties).map HybridRow.id) :
    cutScore s t p oneOver c ≤ cutScore s t p oneOver d := by
  obtain ⟨r, hr, hid⟩ := List.mem_map.mp hin
  obtain ⟨e, he, rfl⟩ := chunk_of_mem h hr
  obtain rfl := eq_of_id he hd hid
  by_cases hcand : InCut s t p c
  · exact cutScore_le_of_left_out h hr hc hcand hout
  · -- neither ranking holds `c`, and no rank that was kept is behind the absent one
    have hk : p.k ≤ absentRank := hcut.resolve_left hcand
    obtain ⟨hv, hf⟩ := not_or.mp hcand
    rw [Option.not_isSome_iff_eq_none] at hv hf
    rw [cutScore, hv, hf]
    exact rrf_le_rrf oneOver_antitone (getD_filter_le hk) (getD_filter_le hk)

theorem topChunks_hybridQuery (h : TieFree s t p) {among : StoredChunk E → Prop} {score : StoredChunk E → ℚ}
    (hbest : ∀ c ∈ repoChunks t p, among c → c.id ∉ (hybridQuery s t p ties).map HybridRow.id →
      ∀ d ∈ repoChunks t p, d.id ∈ (hybridQuery s t p ties).map HybridRow.id → score c ≤ score d) :
    TopChunks t p among score (hybridQuery s t p ties) := by
  refine ⟨hybridQuery_ids_nodup h, List.length_take_le _ _, fun r hr => ?_, hbest⟩
  obtain ⟨c, hc, rfl⟩ := chunk_of_mem h hr
  exact ⟨c, hc, rfl, rfl, rfl⟩

/-- The cut ranking fuses in the order of every quotient that agrees with the one of the
query about the cut scores. -/
theorem fusesCuts_of (h : TieFree s t p) (hq : ∀ {a b}, 0 < a → a ≤ b → quotient b ≤ quotient a)
    (hagree : ∀ c d, cutScore s t p oneOver c ≤ cutScore s t p oneOver d →
      cutScore s t p quotient c ≤ cutScore s t p quotient d) :
    FusesCuts s t p quotient (hybridQuery s t p ties) := by
  constructor
  · refine topChunks_hybridQuery h fun c hc hcut hout d hd hin => ?_
    exact hagree c d (cutScore_le_of_selected h hc hcut hout hd hin)
  · intro hsize
    refine topChunks_hybridQuery h fun c hc huncut hout d hd hin => ?_
    calc rrfScore s t p quotient c = cutScore s t p quotient c := (cutScore_of_uncut huncut).symm
      _ ≤ cutScore s t p quotient d :=
        hagree c d (cutScore_le_of_selected h hc (.inl (inCut_of_uncut huncut)) hout hd hin)
      _ ≤ rrfScore s t p quotient d := cutScore_le_rrfScore hq hsize hd

/-! Exact scores. -/

theorem exactQuotient_antitone {a b : Nat} (ha : 0 < a) (h : a ≤ b) : exactQuotient b ≤ exactQuotient a :=
  one_div_le_one_div_of_le (by exact_mod_cast ha) (by exact_mod_cast h)

theorem divisor_filter {o : Option Nat} {k : Nat} (hk : k ≤ 7000) :
    Divisor 7060 1000060 (rrfK + (o.filter (· ≤ k)).getD absentRank) := by
  cases hf : o.filter (· ≤ k) with
  | none => exact ⟨by decide, by decide, .inr rfl⟩
  | some n =>
    have hn : n ≤ k := of_decide_eq_true (Option.filter_eq_some_iff.mp hf).2
    have hsmall : rrfK + n ≤ 7060 := Nat.add_le_add_left (hn.trans hk) 60
    exact ⟨Nat.add_pos_left (by decide) n, hsmall.trans (by decide), .inl hsmall⟩

theorem exact_agrees (hk : p.k ≤ 7000) (h : cutScore s t p oneOver c ≤ cutScore s t p oneOver d) :
    cutScore s t p exactQuotient c ≤ cutScore s t p exactQuotient d :=
  add_le_of_oneOver_add_le (divisor_filter hk) (divisor_filter hk) (divisor_filter hk) (divisor_filter hk)
    (by norm_num) (by norm_num) h

theorem hybridQuery_fusesCuts (s : SearchOps E D R) (t : Table (StoredChunk.id (E := E))) (p : HybridParams E)
    (ties : Ties E) (h : TieFree s t p) :
    FusesCuts s t p oneOver (hybridQuery s t p ties) ∧
      (p.k ≤ 7000 → FusesCuts s t p exactQuotient (hybridQuery s t p ties)) := by
  constructor
  · exact fusesCuts_of h oneOver_antitone fun c d hle => hle
  · intro hk
    exact fusesCuts_of h exactQuotient_antitone fun c d hle => exact_agrees hk hle

end

/-! A chunk that is second in both rankings, while the query asks for one row. -/

/-- The distance of unit vectors, and the text search for a query of one word. -/
def unitOps : SearchOps (ℚ × ℚ) ℚ ℚ where
  distance a b := 1 - (a.1 * b.1 + a.2 * b.2)
  tsMatches content query := (query.splitOnP isSpace).all ((content.splitOnP isSpace).contains ·)
  tsRankCd content query := (content.splitOnP isSpace).count query / 10

def tokenChunk (id : Nat) (path content : String) (embedding : ℚ × ℚ) : StoredChunk (ℚ × ℚ) where
  repo := "acme/app".toList
  path := path.toList
  symbol := none
  chunkIndex := 0
  content := content.toList
  embedding := embedding
  tokenCount := wordCount content.toList
  id := id

def tokenRows : List (StoredChunk (ℚ × ℚ)) :=
  [tokenChunk 0 "cache.py" "cache" (1, 0), tokenChunk 1 "token.py" "token" (4 / 5, 3 / 5),
    tokenChunk 2 "index.py" "index" (3 / 5, 4 / 5), tokenChunk 3 "lexer.py" "token token" (0, 1)]

theorem tokenRows_ids : (tokenRows.map StoredChunk.id).Nodup := by decide

def tokenTable : Table (StoredChunk.id (E := ℚ × ℚ)) := ⟨tokenRows, tokenRows_ids⟩

def tokenParams : HybridParams (ℚ × ℚ) := ⟨(1, 0), "acme/app".toList, 1, "token".toList⟩

def scanTies : Ties (ℚ × ℚ) := ⟨fun _ => 0, fun _ => 0, fun _ => 0, fun _ => 0, fun _ => 0⟩

theorem tokenTable_tieFree : TieFree unitOps tokenTable tokenParams := by
  constructor
  · decide +kernel
  · decide +kernel

theorem hybridQuery_fusesCuts_token :
    TieFree unitOps tokenTable tokenParams ∧
      FusesCuts unitOps tokenTable tokenParams oneOver (hybridQuery unitOps tokenTable tokenParams scanTies) ∧
      FusesCuts unitOps tokenTable tokenParams exactQuotient (hybridQuery unitOps tokenTable tokenParams scanTies) := by
  obtain ⟨hnumeric, hexact⟩ := hybridQuery_fusesCuts unitOps tokenTable tokenParams scanTies tokenTable_tieFree
  exact ⟨tokenTable_tieFree, hnumeric, hexact (by decide)⟩

theorem secondInBoth_left_out :
    TieFree unitOps tokenTable tokenParams ∧ 1 ≤ tokenParams.k ∧
      ¬ TopChunks tokenTable tokenParams (fun _ => True) (rrfScore unitOps tokenTable tokenParams exactQuotient)
        (hybridQuery unitOps tokenTable tokenParams scanTies) := by
  refine ⟨tokenTable_tieFree, Nat.le_refl 1, fun h => ?_⟩
  have hids : (hybridQuery unitOps tokenTable tokenParams scanTies).map HybridRow.id = [0] := by decide +kernel
  have hsecond : tokenChunk 1 "token.py" "token" (4 / 5, 3 / 5) ∈ repoChunks tokenTable tokenParams :=
    mem_repoChunks_iff.mpr ⟨List.mem_cons_of_mem _ List.mem_cons_self, rfl⟩
  have hfirst : tokenChunk 0 "cache.py" "cache" (1, 0) ∈ repoChunks tokenTable tokenParams :=
    mem_repoChunks_iff.mpr ⟨List.mem_cons_self, rfl⟩
  have hle := h.best _ hsecond trivial (by rw [hids]; decide) _ hfirst (by rw [hids]; decide)
  exact absurd hle (by decide +kernel)

end AiPrReview.ContextRetriever
