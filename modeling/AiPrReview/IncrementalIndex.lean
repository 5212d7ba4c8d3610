import AiPrReview.Indexer

/-! When an incremental index leaves what a full index would. -/

namespace AiPrReview

variable {E : Type} (isWord : Char → Bool) (embedding : Text → E)

structure ExactChange (before after : SourceTree) (changed : ChangedFiles) : Prop where
  added : ∀ p, p ∈ changed.added ↔ before.get p = none ∧ after.get p ≠ none
  modified : ∀ p, p ∈ changed.modified ↔
    before.get p ≠ none ∧ after.get p ≠ none ∧ before.get p ≠ after.get p
  removed : ∀ p, p ∈ changed.removed ↔ before.get p ≠ none ∧ after.get p = none

def StaysIndexable (before after : SourceTree) (changed : ChangedFiles) : Prop :=
  ∀ p ∈ changed.modified, ∀ f f', before.get p = some (p, f) → after.get p = some (p, f') →
    isIndexable p f = true → isIndexable p f' = true

def TreeRow (tree : SourceTree) (r : CodeChunk E) : Prop :=
  ∃ file, tree.get r.path = some (r.path, file) ∧
    ∃ c ∈ fileChunks isWord r.path file, rowOf embedding r.repo c = r

variable {isWord embedding}

theorem TreeRow.congr {tree tree' : SourceTree} {r : CodeChunk E}
    (h : tree.get r.path = tree'.get r.path) (hr : TreeRow isWord embedding tree r) :
    TreeRow isWord embedding tree' r := by
  obtain ⟨file, hf, hc⟩ := hr
  exact ⟨file, h ▸ hf, hc⟩

theorem treeRow_iff {tree : SourceTree} {only : Option (List Text)} {r : CodeChunk E} :
    (∃ c ∈ chunkRepo isWord tree only, rowOf embedding r.repo c = r) ↔
      only.all (·.contains r.path) = true ∧ TreeRow isWord embedding tree r := by
  have hpath : ∀ {c : Chunk}, rowOf embedding r.repo c = r → c.path = r.path := fun h => by
    rw [← h]
    rfl
  constructor
  · rintro ⟨c, hc, hr⟩
    obtain ⟨ho, file, hf, hcf⟩ := mem_chunkRepo_iff.mp hc
    rw [hpath hr] at ho hf hcf
    exact ⟨ho, file, hf, c, hcf, hr⟩
  · rintro ⟨ho, file, hf, c, hcf, hr⟩
    refine ⟨c, mem_chunkRepo_iff.mpr ?_, hr⟩
    rw [hpath hr]
    exact ⟨ho, file, hf, hcf⟩

theorem exists_chunk_iff {tree : SourceTree} {paths : List Text} {p : Text} :
    (∃ c ∈ chunkRepo isWord tree (some paths), c.path = p) ↔
      p ∈ paths ∧ ∃ file, tree.get p = some (p, file) ∧ isIndexable p file = true := by
  constructor
  · rintro ⟨c, hc, rfl⟩
    obtain ⟨ho, file, hf, hcf⟩ := mem_chunkRepo_iff.mp hc
    refine ⟨by simpa using ho, file, hf, ?_⟩
    exact fileChunks_ne_nil_iff.mp (List.ne_nil_of_mem hcf)
  · rintro ⟨hp, file, hf, hi⟩
    obtain ⟨c, hc⟩ := List.exists_mem_of_ne_nil (fileChunks isWord p file) (fileChunks_ne_nil_iff.mpr hi)
    have hcp := path_of_mem_fileChunks hc
    refine ⟨c, mem_chunkRepo_iff.mpr ?_, hcp⟩
    rw [hcp]
    exact ⟨by simpa using hp, file, hf, hc⟩

section

variable {github : TarballSource} {db db' : IndexDb E} {repo afterSha sha : Text}
  {changed : ChangedFiles} {res : IndexResult} {before after : SourceTree}

theorem chunksToReembed_eq (paths : List Text) (hf : fetchTarball github repo afterSha = some ⟨after, sha⟩) :
    chunksToReembed isWord github repo afterSha paths = some (chunkRepo isWord after (some paths)) := by
  rw [chunksToReembed]
  split_ifs with hnil
  · have hnone : ∀ c, c ∉ chunkRepo isWord after (some paths) := by
      intro c hc
      have hlisted := (mem_chunkRepo_iff.mp hc).1
      rw [hnil] at hlisted
      exact absurd hlisted (by simp)
    rw [List.eq_nil_iff_forall_not_mem.mpr hnone]
  · rw [hf]
    rfl

theorem mem_incrementalIndex_iff (hf : fetchTarball github repo afterSha = some ⟨after, sha⟩)
    (h : incrementalIndex isWord embedding github db repo afterSha changed = some (db', res))
    {r : CodeChunk E} : r ∈ db'.chunks.rows ↔
      (∃ c ∈ chunkRepo isWord after (some changed.toReembed), rowOf embedding repo c = r) ∨
        (r ∈ db.chunks.rows ∧ (r.repo = repo → r.path ∉ changed.removed ∧
          ¬∃ c ∈ chunkRepo isWord after (some changed.toReembed), c.path = r.path)) := by
  have hchunks : chunksToReembed isWord github repo afterSha changed.toReembed = _ :=
    chunksToReembed_eq changed.toReembed hf
  simp only [incrementalIndex, hchunks, Option.bind_eq_bind, Option.bind_some,
    Option.bind_eq_some_iff] at h
  obtain ⟨db₁, hw, he⟩ := h
  obtain rfl : db₁ = db' := (Prod.mk.inj (Option.some.inj he)).1
  rw [mem_write_iff hw (embedChunks_nodup embedding (chunkRepo_nodup isWord after _)),
    mem_embedChunks_iff]
  simp [embedChunks]

theorem holdsTree_iff {tree : SourceTree} : HoldsTree isWord embedding db repo tree ↔
    ∀ r : CodeChunk E, r.repo = repo → (r ∈ db.chunks.rows ↔ TreeRow isWord embedding tree r) := by
  have hrow : ∀ r : CodeChunk E, r.repo = repo →
      ((∃ c ∈ chunkRepo isWord tree none, rowOf embedding repo c = r) ↔ TreeRow isWord embedding tree r) := by
    intro r hr
    rw [← hr, treeRow_iff]
    simp
  constructor
  · intro h r hr
    rw [h r hr, hrow r hr]
  · intro h r hr
    rw [h r hr, hrow r hr]

theorem holdsTree_of_staysIndexable (hA : HoldsTree isWord embedding db repo before)
    (hc : ExactChange before after changed)
    (hf : fetchTarball github repo afterSha = some ⟨after, sha⟩)
    (h : incrementalIndex isWord embedding github db repo afterSha changed = some (db', res))
    (hs : StaysIndexable before after changed) : HoldsTree isWord embedding db' repo after := by
  rw [holdsTree_iff] at hA ⊢
  intro r hr
  rw [mem_incrementalIndex_iff hf h]
  constructor
  · rintro (hnew | ⟨hold, hkeep⟩)
    · rw [← hr] at hnew
      exact (treeRow_iff.mp hnew).2
    · obtain ⟨hremoved, htouched⟩ := hkeep hr
      have hrow := (hA r hr).mp hold
      by_cases hsame : before.get r.path = after.get r.path
      · exact hrow.congr hsame
      -- the path is modified, so its file has chunks again
      · obtain ⟨f, hbf, c, hcf, _⟩ := hrow
        have hb : before.get r.path ≠ none := by simp [hbf]
        have ha : after.get r.path ≠ none := fun ha => hremoved ((hc.removed _).mpr ⟨hb, ha⟩)
        obtain ⟨⟨p, f'⟩, hf'⟩ := Option.ne_none_iff_exists'.mp ha
        obtain rfl : p = r.path := Table.get_key hf'
        have hm := (hc.modified r.path).mpr ⟨hb, ha, hsame⟩
        have hi := hs r.path hm f f' hbf hf' (fileChunks_ne_nil_iff.mp (List.ne_nil_of_mem hcf))
        exact absurd (exists_chunk_iff.mpr ⟨List.mem_append_right _ hm, f', hf', hi⟩) htouched
  · intro hrow
    by_cases hp : r.path ∈ changed.toReembed
    · left
      rw [← hr]
      exact treeRow_iff.mpr ⟨by simpa using hp, hrow⟩
    · obtain ⟨f, haf, _⟩ := id hrow
      have ha : after.get r.path ≠ none := by simp [haf]
      have hb : before.get r.path ≠ none := fun hb =>
        hp (List.mem_append_left _ ((hc.added _).mpr ⟨hb, ha⟩))
      have hsame : before.get r.path = after.get r.path := by
        by_contra hne
        exact hp (List.mem_append_right _ ((hc.modified _).mpr ⟨hb, ha, hne⟩))
      refine .inr ⟨(hA r hr).mpr (hrow.congr hsame.symm), fun _ => ⟨fun hrem => ?_, fun ht => ?_⟩⟩
      · exact ha ((hc.removed _).mp hrem).2
      · exact hp (exists_chunk_iff.mp ht).1

theorem staysIndexable_of_holdsTree (hA : HoldsTree isWord embedding db repo before)
    (hc : ExactChange before after changed)
    (hf : fetchTarball github repo afterSha = some ⟨after, sha⟩)
    (h : incrementalIndex isWord embedding github db repo afterSha changed = some (db', res))
    (hB : HoldsTree isWord embedding db' repo after) : StaysIndexable before after changed := by
  rw [holdsTree_iff] at hA hB
  intro p hp f f' hbf haf hi
  by_contra hn
  obtain ⟨c, hcf⟩ := List.exists_mem_of_ne_nil (fileChunks isWord p f) (fileChunks_ne_nil_iff.mpr hi)
  obtain rfl := path_of_mem_fileChunks hcf
  -- an old row of a file that has no chunks any more is left alone
  have hold := (hA (rowOf embedding repo c) rfl).mpr ⟨f, hbf, c, hcf, rfl⟩
  have hkept : rowOf embedding repo c ∈ db'.chunks.rows := by
    refine (mem_incrementalIndex_iff hf h).mpr (.inr ⟨hold, fun _ => ⟨fun hrem => ?_, fun ht => ?_⟩⟩)
    · exact ((hc.modified _).mp hp).2.1 ((hc.removed _).mp hrem).2
    · obtain ⟨_, f'', haf', hi'⟩ := exists_chunk_iff.mp ht
      have he : some (c.path, f'') = some (c.path, f') := haf'.symm.trans haf
      obtain rfl := (Prod.mk.inj (Option.some.inj he)).2
      exact hn hi'
  obtain ⟨f'', haf', c', hcf', _⟩ := (hB (rowOf embedding repo c) rfl).mp hkept
  have he : some (c.path, f'') = some (c.path, f') := haf'.symm.trans haf
  obtain rfl := (Prod.mk.inj (Option.some.inj he)).2
  exact hn (fileChunks_ne_nil_iff.mp (List.ne_nil_of_mem hcf'))

/-- The table holds the new tree when no modified file lost its last chunk. The
rows of other repositories stay. -/
theorem incrementalIndex_holdsTree_iff (hA : HoldsTree isWord embedding db repo before)
    (hc : ExactChange before after changed)
    (hf : fetchTarball github repo afterSha = some ⟨after, sha⟩)
    (h : incrementalIndex isWord embedding github db repo afterSha changed = some (db', res)) :
    (HoldsTree isWord embedding db' repo after ↔ StaysIndexable before after changed) ∧
      ∀ r : CodeChunk E, r.repo ≠ repo → (r ∈ db'.chunks.rows ↔ r ∈ db.chunks.rows) := by
  refine ⟨⟨staysIndexable_of_holdsTree hA hc hf h, holdsTree_of_staysIndexable hA hc hf h⟩,
    fun r hr => ?_⟩
  rw [mem_incrementalIndex_iff hf h]
  constructor
  · rintro (⟨c, _, rfl⟩ | ⟨hold, _⟩)
    · exact absurd rfl hr
    · exact hold
  · intro hold
    exact .inr ⟨hold, fun he => absurd he hr⟩

end

/-! Runs on trees of one file. -/

section

def oneFile (path : Text) (file : SourceFile) : SourceTree := ⟨[(path, file)], by simp⟩

theorem get_oneFile (path p : Text) (file : SourceFile) :
    (oneFile path file).get p = if path = p then some (path, file) else none := by
  by_cases h : path = p <;> simp [oneFile, Table.get, h]

def sourceAt (tree : SourceTree) : TarballSource := ⟨fun _ ref => some ref, fun _ _ => some tree⟩

theorem exactChange_oneFile {path : Text} {f f' : SourceFile} (hne : f ≠ f') :
    ExactChange (oneFile path f) (oneFile path f') ⟨[], [path], []⟩ := by
  refine ⟨fun p => ?_, fun p => ?_, fun p => ?_⟩ <;> by_cases h : path = p <;>
    simp [get_oneFile, h, hne, eq_comm]

def indexedOnce (before : SourceTree) : Option (IndexDb Nat × IndexResult) :=
  fullIndex Char.isAlphanum List.length (sourceAt before) ⟨Table.empty, Table.empty⟩ "o/r".toList

def pushedOnce (before after : SourceTree) (changed : ChangedFiles) : Option (IndexDb Nat × IndexResult) := do
  let indexed ← indexedOnce before
  incrementalIndex Char.isAlphanum List.length (sourceAt after) indexed.1 "o/r".toList "b".toList changed

theorem indexedOnce_holdsTree {before : SourceTree} {db : IndexDb Nat} {res : IndexResult}
    (h : indexedOnce before = some (db, res)) :
    HoldsTree Char.isAlphanum List.length db "o/r".toList before := by
  have hf : fetchTarball (sourceAt before) "o/r".toList "HEAD".toList = some ⟨before, "HEAD".toList⟩ := rfl
  exact fullIndex_holdsTree Char.isAlphanum List.length hf h

theorem incrementalIndex_holdsTree_rewritten :
    ∃ db db' : IndexDb Nat, ∃ res, incrementalIndex Char.isAlphanum List.length
        (sourceAt (oneFile "a.py".toList (.bytes [121]))) db "o/r".toList "b".toList
        ⟨[], ["a.py".toList], []⟩ = some (db', res) ∧
      (HoldsTree Char.isAlphanum List.length db' "o/r".toList (oneFile "a.py".toList (.bytes [121])) ↔
        StaysIndexable (oneFile "a.py".toList (.bytes [120])) (oneFile "a.py".toList (.bytes [121]))
          ⟨[], ["a.py".toList], []⟩) := by
  obtain ⟨⟨db, res⟩, hi⟩ : ∃ p, indexedOnce (oneFile "a.py".toList (.bytes [120])) = some p :=
    Option.isSome_iff_exists.mp (by decide +kernel)
  obtain ⟨⟨db', res'⟩, hp⟩ : ∃ p, pushedOnce (oneFile "a.py".toList (.bytes [120]))
      (oneFile "a.py".toList (.bytes [121])) ⟨[], ["a.py".toList], []⟩ = some p :=
    Option.isSome_iff_exists.mp (by decide +kernel)
  rw [pushedOnce, hi] at hp
  have hf : fetchTarball (sourceAt (oneFile "a.py".toList (.bytes [121]))) "o/r".toList "b".toList =
      some ⟨oneFile "a.py".toList (.bytes [121]), "b".toList⟩ := rfl
  exact ⟨db, db', res', hp, (incrementalIndex_holdsTree_iff (indexedOnce_holdsTree hi)
    (exactChange_oneFile (by decide)) hf hp).1⟩

theorem emptiedFile_keeps_chunk :
    ∃ db db' : IndexDb Nat, ∃ res,
      HoldsTree Char.isAlphanum List.length db "o/r".toList (oneFile "a.py".toList (.bytes [120])) ∧
      ExactChange (oneFile "a.py".toList (.bytes [120])) (oneFile "a.py".toList (.bytes []))
        ⟨[], ["a.py".toList], []⟩ ∧
      incrementalIndex Char.isAlphanum List.length (sourceAt (oneFile "a.py".toList (.bytes []))) db
        "o/r".toList "b".toList ⟨[], ["a.py".toList], []⟩ = some (db', res) ∧
      ¬HoldsTree Char.isAlphanum List.length db' "o/r".toList (oneFile "a.py".toList (.bytes [])) := by
  obtain ⟨⟨db, res⟩, hi⟩ : ∃ p, indexedOnce (oneFile "a.py".toList (.bytes [120])) = some p :=
    Option.isSome_iff_exists.mp (by decide +kernel)
  obtain ⟨⟨db', res'⟩, hp, hrow⟩ : ∃ p ∈ pushedOnce (oneFile "a.py".toList (.bytes [120]))
      (oneFile "a.py".toList (.bytes [])) ⟨[], ["a.py".toList], []⟩,
      (⟨"o/r".toList, "a.py".toList, none, 0, "x".toList, 1, 1⟩ : CodeChunk Nat) ∈ p.1.chunks.rows := by
    decide +kernel
  rw [pushedOnce, hi] at hp
  refine ⟨db, db', res', indexedOnce_holdsTree hi, exactChange_oneFile (by decide), hp, fun hB => ?_⟩
  obtain ⟨c, hc, _⟩ := (hB _ rfl).mp hrow
  have hnone : chunkRepo Char.isAlphanum (oneFile "a.py".toList (.bytes [])) none = [] := by
    decide +kernel
  rw [hnone] at hc
  exact absurd hc List.not_mem_nil

end

end AiPrReview
