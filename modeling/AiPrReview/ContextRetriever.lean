import AiPrReview.Indexer
import AiPrReview.Numeric
import AiPrReview.Ranking
import AiPrReview.Specialist

/-! Hybrid retrieval over `code_chunks`: a vector ranking and a full-text ranking of one
repository's chunks, each cut to its first rows, and joined by reciprocal rank fusion. -/

namespace AiPrReview

open Ranking Numeric

structure StoredChunk (E : Type) : Type extends CodeChunk E where
  id : Nat

/-- A `RetrievedChunk` with its score, which no specialist reads. -/
structure ScoredChunk : Type extends RetrievedChunk where
  score : ℚ

namespace ContextRetriever

/-- What pgvector and the text search of PostgreSQL say of a chunk: `embedding <=> $1`,
`content_tsv @@ plainto_tsquery('english', $4)` and `ts_rank_cd` of the two. -/
structure SearchOps (E D R : Type) : Type where
  distance : E → E → D
  tsMatches : Text → Text → Bool
  tsRankCd : Text → Text → R

/-- `$1` to `$4`; `$5` is always `RRF_K`. -/
structure HybridParams (E : Type) : Type where
  queryEmbedding : E
  repo : Text
  k : Nat
  tsText : Text

def rrfK : Nat := 60

/-- What `COALESCE` puts in the place of a missing rank. -/
def absentRank : Nat := 1000000

def maxQueryChars : Nat := 8000

structure HybridRow : Type where
  id : Nat
  path : Text
  content : Text
  rrfScore : ℚ
  deriving DecidableEq

/-- How each sort orders the rows that have one key. -/
structure Ties (E : Type) : Type where
  vectorWindow : StoredChunk E → Nat
  vectorOrder : StoredChunk E × Nat → Nat
  ftsWindow : StoredChunk E → Nat
  ftsOrder : StoredChunk E × Nat → Nat
  result : HybridRow → Nat

def rrf (quotient : Nat → ℚ) (vectorRank ftsRank : Option Nat) : ℚ :=
  quotient (rrfK + vectorRank.getD absentRank) + quotient (rrfK + ftsRank.getD absentRank)

variable {E D R : Type}

def hybridRow (j : Joined (StoredChunk E × Nat) (StoredChunk E × Nat)) : HybridRow where
  id := j.coalesce (·.1.id) (·.1.id)
  path := j.coalesce (·.1.path) (·.1.path)
  content := j.coalesce (·.1.content) (·.1.content)
  rrfScore := rrf oneOver (j.left?.map Prod.snd) (j.right?.map Prod.snd)

section

variable [LinearOrder D] [LinearOrder R] (s : SearchOps E D R) (t : Table (StoredChunk.id (E := E)))
  (p : HybridParams E) (ties : Ties E)

def repoChunks : List (StoredChunk E) := t.rows.filter fun c => c.repo == p.repo

def matchingChunks : List (StoredChunk E) :=
  t.rows.filter fun c => c.repo == p.repo && s.tsMatches c.content p.tsText

def vectorKey (c : StoredChunk E) : D := s.distance c.embedding p.queryEmbedding

/-- `ts_rank_cd(..) DESC`. -/
def ftsKey (c : StoredChunk E) : Rᵒᵈ := OrderDual.toDual (s.tsRankCd c.content p.tsText)

def vectorRanked : List (StoredChunk E × Nat) :=
  firstRanked ties.vectorWindow ties.vectorOrder (vectorKey s p) p.k (repoChunks t p)

def ftsRanked : List (StoredChunk E × Nat) :=
  firstRanked ties.ftsWindow ties.ftsOrder (ftsKey s p) p.k (matchingChunks s t p)

def fused : List HybridRow :=
  (fullOuterJoin (fun v f => f.1.id == v.1.id) (vectorRanked s t p ties) (ftsRanked s t p ties)).map hybridRow

/-- `_HYBRID_QUERY`. -/
def hybridQuery : List HybridRow :=
  (orderBy ties.result (fun r => OrderDual.toDual r.rrfScore) (fused s t p ties)).take p.k

def embed (embedding : Text → E) (text : Text) : E :=
  embedding (if text.take maxQueryChars = [] then [' '] else text.take maxQueryChars)

def hybridParams (embedding : Text → E) (repo queryText : Text) (k : Nat) : HybridParams E where
  queryEmbedding := embed embedding queryText
  repo := repo
  k := k
  tsText := if queryText.take 2000 = [] then [' '] else queryText.take 2000

/-- PostgreSQL takes no parameter with a NUL in it; then the call raises. -/
def retrieve (embedding : Text → E) (repo queryText : Text) (k : Nat) : Option (List ScoredChunk) :=
  let p := hybridParams embedding repo queryText k
  if legalText p.repo && legalText p.tsText then
    some ((hybridQuery s t p ties).map fun r => ⟨⟨r.path, r.content⟩, r.rrfScore⟩)
  else none

/-! The ranks of a chunk, whole and cut to the first `k`. -/

/-- No two chunks of the repository are at one distance, and no two matching ones have
one text rank. -/
structure TieFree : Prop where
  vector : ((repoChunks t p).map (vectorKey s p)).Nodup
  fts : ((matchingChunks s t p).map (ftsKey s p)).Nodup

def vectorRank (c : StoredChunk E) : Nat := rank (vectorKey s p) (repoChunks t p) c

def ftsRank (c : StoredChunk E) : Option Nat :=
  if s.tsMatches c.content p.tsText then some (rank (ftsKey s p) (matchingChunks s t p) c) else none

def cutVectorRank (c : StoredChunk E) : Option Nat := (some (vectorRank s t p c)).filter (· ≤ p.k)

def cutFtsRank (c : StoredChunk E) : Option Nat := (ftsRank s t p c).filter (· ≤ p.k)

/-- One of the cut rankings holds the chunk. -/
def InCut (c : StoredChunk E) : Prop := (cutVectorRank s t p c).isSome ∨ (cutFtsRank s t p c).isSome

def cutScore (quotient : Nat → ℚ) (c : StoredChunk E) : ℚ := rrf quotient (cutVectorRank s t p c) (cutFtsRank s t p c)

def chunkRow (c : StoredChunk E) : HybridRow := ⟨c.id, c.path, c.content, cutScore s t p oneOver c⟩

end

variable {s : SearchOps E D R} {t : Table (StoredChunk.id (E := E))} {p : HybridParams E} {ties : Ties E}
  {c d : StoredChunk E} {n : Nat}

theorem mem_repoChunks_iff : c ∈ repoChunks t p ↔ c ∈ t.rows ∧ c.repo = p.repo := by
  rw [repoChunks, List.mem_filter, beq_iff_eq]

theorem mem_matchingChunks_iff :
    c ∈ matchingChunks s t p ↔ c ∈ repoChunks t p ∧ s.tsMatches c.content p.tsText = true := by
  rw [matchingChunks, List.mem_filter, mem_repoChunks_iff, Bool.and_eq_true, beq_iff_eq, and_assoc]

theorem matchingChunks_sublist : (matchingChunks s t p).Sublist (repoChunks t p) := by
  have hsplit : matchingChunks s t p = (repoChunks t p).filter fun c => s.tsMatches c.content p.tsText := by
    rw [matchingChunks, repoChunks, List.filter_filter]
    simp only [Bool.and_comm]
  rw [hsplit]
  exact List.filter_sublist

theorem eq_of_id (hc : c ∈ repoChunks t p) (hd : d ∈ repoChunks t p) (h : c.id = d.id) : c = d :=
  List.inj_on_of_nodup_map t.keys_nodup (mem_repoChunks_iff.mp hc).1 (mem_repoChunks_iff.mp hd).1 h

theorem ids_nodup {l : List (StoredChunk E × Nat)} (hn : (l.map Prod.fst).Nodup)
    (hl : ∀ x ∈ l, x.1 ∈ repoChunks t p) : (l.map fun x => x.1.id).Nodup := by
  have hids : ((l.map Prod.fst).map StoredChunk.id).Nodup := by
    refine hn.map_on fun c hc d hd he => ?_
    obtain ⟨x, hx, rfl⟩ := List.mem_map.mp hc
    obtain ⟨y, hy, rfl⟩ := List.mem_map.mp hd
    exact eq_of_id (hl x hx) (hl y hy) he
  rwa [List.map_map] at hids

section

variable [LinearOrder D]

theorem vectorRank_le (hc : c ∈ repoChunks t p) : vectorRank s t p c ≤ (repoChunks t p).length :=
  rank_le_length hc

theorem mem_vectorRanked_iff (h : TieFree s t p) :
    (c, n) ∈ vectorRanked s t p ties ↔ c ∈ repoChunks t p ∧ cutVectorRank s t p c = some n := by
  rw [vectorRanked, mem_firstRanked_iff h.vector, cutVectorRank, Option.filter_eq_some_iff, Option.some.injEq,
    decide_eq_true_eq, vectorRank, eq_comm (a := n)]

end

section

variable [LinearOrder R]

theorem ftsRank_le (hc : c ∈ repoChunks t p) (h : ftsRank s t p c = some n) : n ≤ (repoChunks t p).length := by
  unfold ftsRank at h
  split at h
  · rename_i hm
    cases h
    exact (rank_le_length (mem_matchingChunks_iff.mpr ⟨hc, hm⟩)).trans matchingChunks_sublist.length_le
  · cases h

theorem mem_ftsRanked_iff (h : TieFree s t p) :
    (c, n) ∈ ftsRanked s t p ties ↔ c ∈ repoChunks t p ∧ cutFtsRank s t p c = some n := by
  rw [ftsRanked, mem_firstRanked_iff h.fts, cutFtsRank, Option.filter_eq_some_iff, decide_eq_true_eq,
    mem_matchingChunks_iff, ftsRank, and_assoc]
  refine and_congr_right fun _ => ?_
  by_cases hm : s.tsMatches c.content p.tsText = true
  · rw [if_pos hm, Option.some.injEq, eq_comm (a := n)]
    exact ⟨fun hn => hn.2, fun hn => ⟨hm, hn⟩⟩
  · rw [if_neg hm]
    exact ⟨fun hn => absurd hn.1 hm, fun hn => nomatch hn.1⟩

end

section

variable [LinearOrder D] [LinearOrder R]

theorem chunkRow_of_row {j : Joined (StoredChunk E × Nat) (StoredChunk E × Nat)}
    (hj : Joined.row c (cutVectorRank s t p c) (cutFtsRank s t p c) = some j) :
    hybridRow j = chunkRow s t p c ∧ InCut s t p c := by
  rw [chunkRow, cutScore, InCut]
  cases hv : cutVectorRank s t p c with
  | some n =>
    cases hf : cutFtsRank s t p c with
    | some m =>
      rw [hv, hf] at hj
      cases hj
      exact ⟨rfl, .inl rfl⟩
    | none =>
      rw [hv, hf] at hj
      cases hj
      exact ⟨rfl, .inl rfl⟩
  | none =>
    cases hf : cutFtsRank s t p c with
    | some m =>
      rw [hv, hf] at hj
      cases hj
      exact ⟨rfl, .inr rfl⟩
    | none =>
      rw [hv, hf] at hj
      cases hj

theorem exists_row_of_inCut (h : InCut s t p c) :
    ∃ j, Joined.row c (cutVectorRank s t p c) (cutFtsRank s t p c) = some j := by
  rcases h with h | h
  · obtain ⟨n, hv⟩ := Option.isSome_iff_exists.mp h
    rw [hv]
    cases cutFtsRank s t p c with
    | some m => exact ⟨_, rfl⟩
    | none => exact ⟨_, rfl⟩
  · obtain ⟨m, hf⟩ := Option.isSome_iff_exists.mp h
    rw [hf]
    cases cutVectorRank s t p c with
    | some n => exact ⟨_, rfl⟩
    | none => exact ⟨_, rfl⟩

/-- The join holds the chunks of the cut rankings, with the ranks that were not cut. -/
theorem mem_fused_iff (h : TieFree s t p) {r : HybridRow} :
    r ∈ fused s t p ties ↔ ∃ c ∈ repoChunks t p, InCut s t p c ∧ chunkRow s t p c = r := by
  have hjoin : ∀ {j}, j ∈ fullOuterJoin (fun v f => f.1.id == v.1.id) (vectorRanked s t p ties) (ftsRanked s t p ties) ↔
      ∃ c ∈ repoChunks t p, Joined.row c (cutVectorRank s t p c) (cutFtsRank s t p c) = some j :=
    mem_join_iff (fun c hc d hd he => eq_of_id hc hd he) (fun _ _ => mem_vectorRanked_iff h)
      fun _ _ => mem_ftsRanked_iff h
  rw [fused, List.mem_map]
  constructor
  · rintro ⟨j, hj, rfl⟩
    obtain ⟨c, hc, hrow⟩ := hjoin.mp hj
    obtain ⟨he, hcut⟩ := chunkRow_of_row hrow
    exact ⟨c, hc, hcut, he.symm⟩
  · rintro ⟨c, hc, hcut, rfl⟩
    obtain ⟨j, hrow⟩ := exists_row_of_inCut hcut
    exact ⟨j, hjoin.mpr ⟨c, hc, hrow⟩, (chunkRow_of_row hrow).1⟩

theorem fused_ids_nodup (h : TieFree s t p) : ((fused s t p ties).map HybridRow.id).Nodup := by
  have hv : ((vectorRanked s t p ties).map fun x => x.1.id).Nodup :=
    ids_nodup (firstRanked_nodup h.vector) fun x hx => ((mem_vectorRanked_iff h).mp hx).1
  have hf : ((ftsRanked s t p ties).map fun x => x.1.id).Nodup :=
    ids_nodup (firstRanked_nodup h.fts) fun x hx => ((mem_ftsRanked_iff h).mp hx).1
  have hjoin := fullOuterJoin_keys_nodup hv hf
  rw [fused, List.map_map]
  exact hjoin

theorem mem_of_mem_hybridQuery {r : HybridRow} (hr : r ∈ hybridQuery s t p ties) : r ∈ fused s t p ties :=
  mem_orderBy_iff.mp (List.mem_of_mem_take hr)

theorem hybridQuery_ids_nodup (h : TieFree s t p) : ((hybridQuery s t p ties).map HybridRow.id).Nodup := by
  have hn := ((orderBy_perm ties.result (fun r => OrderDual.toDual r.rrfScore) (fused s t p ties)).map
    HybridRow.id).nodup_iff.mpr (fused_ids_nodup h)
  exact hn.sublist ((List.take_sublist p.k _).map HybridRow.id)

/-- The query selects as many rows as `k` and the repository allow. -/
theorem length_hybridQuery (h : TieFree s t p) :
    (hybridQuery s t p ties).length = min p.k (repoChunks t p).length := by
  have hfused : (fused s t p ties).length ≤ (repoChunks t p).length := by
    have hsub : (fused s t p ties).map HybridRow.id ⊆ (repoChunks t p).map StoredChunk.id := by
      intro i hi
      obtain ⟨r, hr, rfl⟩ := List.mem_map.mp hi
      obtain ⟨c, hc, _, rfl⟩ := (mem_fused_iff h).mp hr
      exact List.mem_map_of_mem hc
    have hle := ((fused_ids_nodup h).subperm hsub).length_le
    rwa [List.length_map, List.length_map] at hle
  have hvector : min p.k (repoChunks t p).length ≤ (fused s t p ties).length := by
    have hlen : (vectorRanked s t p ties).length = min p.k (repoChunks t p).length := length_firstRanked
    rw [← hlen, fused, List.length_map]
    exact length_le_fullOuterJoin
  rw [hybridQuery, List.length_take, (orderBy_perm _ _ _).length_eq]
  omega

theorem cutScore_le_of_left_out (h : TieFree s t p) {r : HybridRow} (hr : r ∈ hybridQuery s t p ties)
    (hc : c ∈ repoChunks t p) (hcut : InCut s t p c) (hout : c.id ∉ (hybridQuery s t p ties).map HybridRow.id) :
    cutScore s t p oneOver c ≤ r.rrfScore := by
  have hfused : chunkRow s t p c ∈ fused s t p ties := (mem_fused_iff h).mpr ⟨c, hc, hcut, rfl⟩
  have hnot : chunkRow s t p c ∉ hybridQuery s t p ties := fun hmem => hout (List.mem_map_of_mem hmem)
  exact key_le_of_left_out hr hfused hnot

/-- Every descending order of the joined rows is the one of some tie order. -/
theorem exists_result (h : TieFree s t p) {l : List HybridRow} (hp : l.Perm (fused s t p ties))
    (hs : l.Pairwise fun r r' => r'.rrfScore ≤ r.rrfScore) :
    ∃ result, hybridQuery s t p { ties with result } = l.take p.k := by
  have hn : (fused s t p ties).Nodup := List.Nodup.of_map HybridRow.id (fused_ids_nodup h)
  obtain ⟨result, he⟩ := exists_orderBy (fun r : HybridRow => OrderDual.toDual r.rrfScore) hp hs hn
  refine ⟨result, ?_⟩
  rw [← he]
  rfl

theorem retrieve_eq_some {embedding : Text → E} {repo queryText : Text} {k : Nat} {found : List ScoredChunk}
    (hfound : retrieve s t ties embedding repo queryText k = some found) :
    found = (hybridQuery s t (hybridParams embedding repo queryText k) ties).map
      fun r => ⟨⟨r.path, r.content⟩, r.rrfScore⟩ := by
  unfold retrieve at hfound
  dsimp only at hfound
  split at hfound
  · exact (Option.some.inj hfound).symm
  · cases hfound

/-- Whatever the order of ties, what is retrieved are chunks of the repository. -/
theorem exists_chunk_of_retrieve {embedding : Text → E} {repo queryText : Text} {k : Nat} {found : List ScoredChunk}
    (hfound : retrieve s t ties embedding repo queryText k = some found) {x : ScoredChunk} (hx : x ∈ found) :
    ∃ c ∈ t.rows, c.repo = repo ∧ x.path = c.path ∧ x.content = c.content := by
  rw [retrieve_eq_some hfound] at hx
  obtain ⟨r, hr, rfl⟩ := List.mem_map.mp hx
  obtain ⟨j, hj, rfl⟩ := List.mem_map.mp (mem_of_mem_hybridQuery hr)
  rcases mem_fullOuterJoin_iff.mp hj with ⟨v, hv, f, _, _, rfl⟩ | ⟨v, hv, _, rfl⟩ | ⟨f, hf, _, rfl⟩
  · obtain ⟨hrow, hrepo⟩ := mem_repoChunks_iff.mp (mem_of_mem_firstRanked hv)
    exact ⟨v.1, hrow, hrepo, rfl, rfl⟩
  · obtain ⟨hrow, hrepo⟩ := mem_repoChunks_iff.mp (mem_of_mem_firstRanked hv)
    exact ⟨v.1, hrow, hrepo, rfl, rfl⟩
  · have hmatch : f.1 ∈ matchingChunks s t _ := mem_of_mem_firstRanked hf
    obtain ⟨hrow, hrepo⟩ := mem_repoChunks_iff.mp (matchingChunks_sublist.subset hmatch)
    exact ⟨f.1, hrow, hrepo, rfl, rfl⟩

/-- What a specialist is given: chunks of its repository, as many as `k` and the repository allow. -/
theorem retrieve_chunks {embedding : Text → E} {repo queryText : Text} {k : Nat} {found : List ScoredChunk}
    (h : TieFree s t (hybridParams embedding repo queryText k))
    (hfound : retrieve s t ties embedding repo queryText k = some found) :
    found.length = min k (repoChunks t (hybridParams embedding repo queryText k)).length ∧
      ∀ x ∈ found, ∃ c ∈ t.rows, c.repo = repo ∧ x.path = c.path ∧ x.content = c.content := by
  rw [retrieve_eq_some hfound]
  refine ⟨by rw [List.length_map, length_hybridQuery h]; rfl, fun x hx => ?_⟩
  obtain ⟨r, hr, rfl⟩ := List.mem_map.mp hx
  obtain ⟨c, hc, _, rfl⟩ := (mem_fused_iff h).mp (mem_of_mem_hybridQuery hr)
  obtain ⟨hrow, hrepo⟩ := mem_repoChunks_iff.mp hc
  exact ⟨c, hrow, hrepo, rfl, rfl⟩

end

end ContextRetriever

end AiPrReview
