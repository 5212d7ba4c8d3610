import Mathlib.Data.List.Sort
import Mathlib.Data.Prod.Lex

/-! Lists put in order by a key, the ranks of their entries, the first entries of such
a ranking, and the full outer join of two lists. -/

namespace AiPrReview.Ranking

section

variable {α κ : Type} [LinearOrder κ] {key : α → κ} {tie : α → ℕ} {l : List α} {a b : α} {k : ℕ}

/-- `ORDER BY key`, where `tie` orders the entries that have one key. -/
def orderBy (tie : α → ℕ) (key : α → κ) (l : List α) : List α :=
  l.insertionSort fun a b => toLex (key a, tie a) ≤ toLex (key b, tie b)

theorem orderBy_perm (tie : α → ℕ) (key : α → κ) (l : List α) : (orderBy tie key l).Perm l :=
  List.perm_insertionSort _ l

theorem mem_orderBy_iff : a ∈ orderBy tie key l ↔ a ∈ l := (orderBy_perm tie key l).mem_iff

theorem orderBy_pairwise (tie : α → ℕ) (key : α → κ) (l : List α) :
    (orderBy tie key l).Pairwise fun a b => toLex (key a, tie a) ≤ toLex (key b, tie b) := by
  have htotal : Std.Total fun a b : α => toLex (key a, tie a) ≤ toLex (key b, tie b) := ⟨fun a b => le_total _ _⟩
  have htrans : IsTrans α fun a b => toLex (key a, tie a) ≤ toLex (key b, tie b) := ⟨fun a b c => le_trans⟩
  exact List.pairwise_insertionSort _ l

theorem orderBy_sorted (tie : α → ℕ) (key : α → κ) (l : List α) :
    (orderBy tie key l).Pairwise fun a b => key a ≤ key b := by
  refine (orderBy_pairwise tie key l).imp fun hab => ?_
  rcases Prod.Lex.toLex_le_toLex.mp hab with h | h
  · exact h.le
  · exact h.1.le

/-- Every sorted arrangement of distinct entries is the one that some tie order gives. -/
theorem exists_orderBy [DecidableEq α] (key : α → κ) {l' : List α} (hp : l'.Perm l)
    (hs : l'.Pairwise fun a b => key a ≤ key b) (hn : l.Nodup) : ∃ tie, orderBy tie key l = l' := by
  have hn' : l'.Nodup := hp.nodup_iff.mpr hn
  refine ⟨fun a => l'.idxOf a, ((orderBy_perm _ key l).trans hp.symm).eq_of_pairwise ?_
    (orderBy_pairwise _ key l) ?_⟩
  · intro a b _ hb hab hba
    have he := congrArg (fun x => (ofLex x).2) (le_antisymm hba hab)
    exact ((List.idxOf_inj hb).mp he).symm
  · refine List.pairwise_iff_getElem.mpr fun i j hi hj hij => Prod.Lex.toLex_le_toLex.mpr ?_
    have hkey := List.pairwise_iff_getElem.mp hs i j hi hj hij
    rcases hkey.lt_or_eq with h | h
    · exact .inl h
    · refine .inr ⟨h, ?_⟩
      change l'.idxOf l'[i] ≤ l'.idxOf l'[j]
      rw [hn'.idxOf_getElem, hn'.idxOf_getElem]
      exact hij.le

theorem orderedInsert_filter {r : α → α → Prop} [DecidableRel r] (htrans : ∀ a b c, r a b → r b c → r a c) (p : α → Bool)
    (a : α) {l : List α} (h : l.Pairwise r) :
    (l.orderedInsert r a).filter p = if p a then (l.filter p).orderedInsert r a else l.filter p := by
  induction l with
  | nil => by_cases ha : p a = true <;> simp [ha]
  | cons b l ih =>
    obtain ⟨hb, hl⟩ := List.pairwise_cons.mp h
    by_cases hab : r a b
    · rw [List.orderedInsert_cons_of_le r l hab]
      by_cases ha : p a = true
      · -- whatever the filter leaves of the list, `a` comes before all of it
        have hall : ∀ c ∈ (b :: l).filter p, r a c := by
          intro c hc
          rcases List.mem_cons.mp (List.mem_filter.mp hc).1 with rfl | hc
          · exact hab
          · exact htrans a b c hab (hb c hc)
        rw [if_pos ha, List.filter_cons_of_pos ha]
        cases hf : (b :: l).filter p with
        | nil => rfl
        | cons c rest =>
          rw [hf] at hall
          rw [List.orderedInsert_cons_of_le r rest (hall c List.mem_cons_self)]
      · rw [if_neg ha, List.filter_cons_of_neg ha]
    · rw [List.orderedInsert_of_not_le r l hab]
      by_cases hpb : p b = true
      · rw [List.filter_cons_of_pos hpb, List.filter_cons_of_pos hpb, ih hl]
        split_ifs
        · rw [List.orderedInsert_of_not_le r _ hab]
        · rfl
      · rw [List.filter_cons_of_neg hpb, List.filter_cons_of_neg hpb, ih hl]

/-- What a filter leaves of the rows is in the same order. -/
theorem orderBy_filter (tie : α → ℕ) (key : α → κ) (p : α → Bool) (l : List α) :
    (orderBy tie key l).filter p = orderBy tie key (l.filter p) := by
  have htrans : ∀ a b c : α, toLex (key a, tie a) ≤ toLex (key b, tie b) → toLex (key b, tie b) ≤ toLex (key c, tie c) →
      toLex (key a, tie a) ≤ toLex (key c, tie c) := fun a b c => le_trans
  induction l with
  | nil => rfl
  | cons a l ih =>
    have hsorted := orderBy_pairwise tie key l
    show (List.orderedInsert _ a (orderBy tie key l)).filter p = _
    rw [orderedInsert_filter htrans p a hsorted, ih]
    by_cases ha : p a = true
    · rw [if_pos ha, List.filter_cons_of_pos ha]
      rfl
    · rw [if_neg ha, List.filter_cons_of_neg ha]

theorem orderBy_strict (h : (l.map key).Nodup) : (orderBy tie key l).Pairwise fun a b => key a < key b := by
  have hkeys : ((orderBy tie key l).map key).Nodup := ((orderBy_perm tie key l).map key).nodup_iff.mpr h
  have hne := List.pairwise_map.mp hkeys
  exact (orderBy_sorted tie key l).imp₂ (fun a b hab hne => lt_of_le_of_ne hab hne) hne

theorem orderBy_eq_self (h : l.Pairwise fun a b => key a < key b) : orderBy tie key l = l :=
  List.Pairwise.insertionSort_eq (h.imp fun hab => Prod.Lex.toLex_le_toLex.mpr (.inl hab))

theorem key_le_of_left_out (ha : a ∈ (orderBy tie key l).take k) (hb : b ∈ l)
    (hout : b ∉ (orderBy tie key l).take k) : key a ≤ key b := by
  have hs := orderBy_sorted tie key l
  have hb' : b ∈ orderBy tie key l := mem_orderBy_iff.mpr hb
  rw [← List.take_append_drop k (orderBy tie key l)] at hs hb'
  rcases List.mem_append.mp hb' with h | h
  · exact absurd h hout
  · exact (List.pairwise_append.mp hs).2.2 a ha b h

/-- The place of `a` in `l` by `key`, counted from 1. -/
def rank (key : α → κ) (l : List α) (a : α) : ℕ := l.countP (fun b => key b < key a) + 1

theorem rank_perm {l' : List α} (h : l.Perm l') : rank key l a = rank key l' a := by
  rw [rank, rank, h.countP_eq]

theorem rank_le_length (ha : a ∈ l) : rank key l a ≤ l.length := by
  refine Nat.lt_of_le_of_ne List.countP_le_length fun he => ?_
  have hself := List.countP_eq_length.mp he a ha
  simp at hself

theorem rank_append {pre post : List α} (h : (pre ++ a :: post).Pairwise fun a b => key a < key b) :
    rank key (pre ++ a :: post) a = pre.length + 1 := by
  obtain ⟨_, hpost, hcross⟩ := List.pairwise_append.mp h
  have hbefore : pre.countP (fun b => key b < key a) = pre.length := by
    refine List.countP_eq_length.mpr fun b hb => decide_eq_true ?_
    exact hcross b hb a List.mem_cons_self
  have hafter : (a :: post).countP (fun b => key b < key a) = 0 := by
    refine List.countP_eq_zero.mpr fun b hb => ?_
    rcases List.mem_cons.mp hb with rfl | hb
    · simp
    · simpa using (List.rel_of_pairwise_cons hpost hb).le
  rw [rank, List.countP_append, hbefore, hafter, Nat.add_zero]

/-- Each entry of a sorted list stands at its rank. -/
theorem getElem?_eq_some_iff_rank (h : l.Pairwise fun a b => key a < key b) {i : ℕ} :
    l[i]? = some a ↔ a ∈ l ∧ rank key l a = i + 1 := by
  have hplace : ∀ i, l[i]? = some a → rank key l a = i + 1 := by
    intro i hi
    obtain ⟨hlt, rfl⟩ := List.getElem?_eq_some_iff.mp hi
    have hsplit : l.take i ++ l[i] :: l.drop (i + 1) = l := by
      rw [← List.drop_eq_getElem_cons hlt, List.take_append_drop]
    have hr : rank key (l.take i ++ l[i] :: l.drop (i + 1)) l[i] = (l.take i).length + 1 :=
      rank_append (by rw [hsplit]; exact h)
    rwa [hsplit, List.length_take_of_le hlt.le] at hr
  constructor
  · exact fun hi => ⟨List.mem_of_getElem? hi, hplace i hi⟩
  · rintro ⟨ha, hr⟩
    obtain ⟨j, hj⟩ := List.getElem?_of_mem ha
    have he : j = i := by
      have hrank := hplace j hj
      omega
    exact he ▸ hj

/-- `row_number() OVER (ORDER BY key)`. -/
def rowNumber (tie : α → ℕ) (key : α → κ) (l : List α) : List (α × ℕ) := (orderBy tie key l).zipIdx 1

/-- The rows with their numbers, ordered by the key once more and cut to the first `k`. -/
def firstRanked (tie : α → ℕ) (tieAgain : α × ℕ → ℕ) (key : α → κ) (k : ℕ) (l : List α) : List (α × ℕ) :=
  (orderBy tieAgain (fun x => key x.1) (rowNumber tie key l)).take k

theorem mem_of_mem_firstRanked {tieAgain : α × ℕ → ℕ} {k : ℕ} {x : α × ℕ} (h : x ∈ firstRanked tie tieAgain key k l) :
    x.1 ∈ l := by
  have hnumber : x ∈ rowNumber tie key l := mem_orderBy_iff.mp (List.mem_of_mem_take h)
  exact mem_orderBy_iff.mp (List.fst_mem_of_mem_zipIdx hnumber)

theorem take_zipIdx (l : List α) (n k : ℕ) : (l.zipIdx n).take k = (l.take k).zipIdx n := by
  refine List.ext_getElem? fun i => ?_
  rw [List.getElem?_take, List.getElem?_zipIdx, List.getElem?_zipIdx, List.getElem?_take]
  split <;> rfl

variable {tieAgain : α × ℕ → ℕ}

theorem firstRanked_eq (h : (l.map key).Nodup) :
    firstRanked tie tieAgain key k l = ((orderBy tie key l).take k).zipIdx 1 := by
  have hs : (rowNumber tie key l).Pairwise fun x y => key x.1 < key y.1 := by
    have hfst : ((rowNumber tie key l).map Prod.fst).Pairwise fun a b => key a < key b := by
      rw [rowNumber, List.zipIdx_map_fst]
      exact orderBy_strict h
    rwa [List.pairwise_map] at hfst
  rw [firstRanked, orderBy_eq_self hs, rowNumber, take_zipIdx]

theorem mem_firstRanked_iff (h : (l.map key).Nodup) {x : α × ℕ} :
    x ∈ firstRanked tie tieAgain key k l ↔ x.1 ∈ l ∧ x.2 = rank key l x.1 ∧ x.2 ≤ k := by
  obtain ⟨a, n⟩ := x
  rw [firstRanked_eq h, List.mk_mem_zipIdx_iff_le_and_getElem?_sub, List.getElem?_take]
  have hs : (orderBy tie key l).Pairwise fun a b => key a < key b := orderBy_strict h
  have hplace := getElem?_eq_some_iff_rank (a := a) (i := n - 1) hs
  rw [rank_perm (orderBy_perm tie key l), mem_orderBy_iff] at hplace
  have hpos : 1 ≤ rank key l a := Nat.le_add_left 1 _
  constructor
  · rintro ⟨hn, he⟩
    split at he
    · rename_i hk
      obtain ⟨ha, hr⟩ := hplace.mp he
      have hrank : n = rank key l a := by omega
      have hle : n ≤ k := by omega
      exact ⟨ha, hrank, hle⟩
    · cases he
  · rintro ⟨ha, hn, hk⟩
    change n = rank key l a at hn
    change n ≤ k at hk
    refine ⟨by omega, ?_⟩
    rw [if_pos (by omega)]
    exact hplace.mpr ⟨ha, by omega⟩

theorem firstRanked_nodup (h : (l.map key).Nodup) : ((firstRanked tie tieAgain key k l).map Prod.fst).Nodup := by
  rw [firstRanked_eq h, List.zipIdx_map_fst]
  have hn : (orderBy tie key l).Nodup := (orderBy_perm tie key l).nodup_iff.mpr (List.Nodup.of_map key h)
  exact hn.sublist (List.take_sublist k _)

theorem length_firstRanked : (firstRanked tie tieAgain key k l).length = min k l.length := by
  rw [firstRanked, List.length_take, (orderBy_perm _ _ _).length_eq, rowNumber, List.length_zipIdx,
    (orderBy_perm tie key l).length_eq]

end

/-! The full outer join. -/

inductive Joined (α β : Type) : Type where
  | both (a : α) (b : β)
  | left (a : α)
  | right (b : β)

namespace Joined

variable {α β γ : Type}

def left? : Joined α β → Option α
  | both a _ => some a
  | left a => some a
  | right _ => none

def right? : Joined α β → Option β
  | both _ b => some b
  | left _ => none
  | right b => some b

/-- `COALESCE(left.f, right.g)`. -/
def coalesce (f : α → γ) (g : β → γ) : Joined α β → γ
  | both a _ => f a
  | left a => f a
  | right b => g b

end Joined

section

variable {α β γ : Type} {on : α → β → Bool} {l : List α} {r : List β} {a : α} {b : β}

def joinedWith (on : α → β → Bool) (r : List β) (a : α) : List (Joined α β) :=
  if r.any (on a) then (r.filter (on a)).map (.both a) else [.left a]

def fullOuterJoin (on : α → β → Bool) (l : List α) (r : List β) : List (Joined α β) :=
  l.flatMap (joinedWith on r) ++ (r.filter fun b => !l.any fun a => on a b).map .right

theorem mem_joinedWith_iff {j : Joined α β} : j ∈ joinedWith on r a ↔
    (∃ b ∈ r, on a b = true ∧ j = .both a b) ∨ ((∀ b ∈ r, on a b = false) ∧ j = .left a) := by
  unfold joinedWith
  split
  · rename_i h
    obtain ⟨b₀, hb₀, hon₀⟩ := List.any_eq_true.mp h
    simp only [List.mem_map, List.mem_filter, and_assoc]
    constructor
    · rintro ⟨b, hb, hon, rfl⟩
      exact .inl ⟨b, hb, hon, rfl⟩
    · rintro (⟨b, hb, hon, rfl⟩ | ⟨hnone, _⟩)
      · exact ⟨b, hb, hon, rfl⟩
      · exact absurd hon₀ (by simp [hnone b₀ hb₀])
  · rename_i h
    have hnone : ∀ b ∈ r, on a b = false := by simpa using h
    rw [List.mem_singleton]
    constructor
    · exact fun hj => .inr ⟨hnone, hj⟩
    · rintro (⟨b, hb, hon, _⟩ | ⟨_, rfl⟩)
      · exact absurd hon (by simp [hnone b hb])
      · rfl

theorem mem_fullOuterJoin_iff {j : Joined α β} : j ∈ fullOuterJoin on l r ↔
    (∃ a ∈ l, ∃ b ∈ r, on a b = true ∧ j = .both a b) ∨
      (∃ a ∈ l, (∀ b ∈ r, on a b = false) ∧ j = .left a) ∨
      ∃ b ∈ r, (∀ a ∈ l, on a b = false) ∧ j = .right b := by
  rw [fullOuterJoin, List.mem_append, List.mem_flatMap, List.mem_map, ← or_assoc]
  refine or_congr ?_ ?_
  · simp only [mem_joinedWith_iff, and_or_left, exists_or]
  · refine exists_congr fun b => ?_
    rw [List.mem_filter, and_assoc]
    refine and_congr_right fun _ => and_congr ?_ eq_comm
    simp

/-- The joined row of `a`, by what the two sides have for it. -/
def Joined.row {μ ν : Type} (a : α) : Option μ → Option ν → Option (Joined (α × μ) (α × ν))
  | some n, some m => some (.both (a, n) (a, m))
  | some n, none => some (.left (a, n))
  | none, some m => some (.right (a, m))
  | none, none => none

/-- The join of two tables that list, for the entries of one pool, what `f` and `g` have for them. -/
theorem mem_join_iff [DecidableEq γ] {μ ν : Type} {pool : List α} {id : α → γ} {f : α → Option μ} {g : α → Option ν}
    {l : List (α × μ)} {r : List (α × ν)} (hid : ∀ a ∈ pool, ∀ b ∈ pool, id a = id b → a = b)
    (hl : ∀ a n, (a, n) ∈ l ↔ a ∈ pool ∧ f a = some n) (hr : ∀ a n, (a, n) ∈ r ↔ a ∈ pool ∧ g a = some n)
    {j : Joined (α × μ) (α × ν)} :
    j ∈ fullOuterJoin (fun v w => id w.1 == id v.1) l r ↔ ∃ a ∈ pool, Joined.row a (f a) (g a) = some j := by
  rw [mem_fullOuterJoin_iff]
  constructor
  · rintro (⟨⟨a, n⟩, hn, ⟨b, m⟩, hm, hon, rfl⟩ | ⟨⟨a, n⟩, hn, hnone, rfl⟩ | ⟨⟨a, n⟩, hn, hnone, rfl⟩)
    · obtain ⟨ha, hf⟩ := (hl a n).mp hn
      obtain ⟨hb, hg⟩ := (hr b m).mp hm
      obtain rfl := hid b hb a ha (beq_iff_eq.mp hon)
      exact ⟨b, hb, by rw [hf, hg, Joined.row]⟩
    · obtain ⟨ha, hf⟩ := (hl a n).mp hn
      cases hg : g a with
      | none => exact ⟨a, ha, by rw [hf, hg, Joined.row]⟩
      | some m => exact absurd (hnone (a, m) ((hr a m).mpr ⟨ha, hg⟩)) (by simp)
    · obtain ⟨ha, hg⟩ := (hr a n).mp hn
      cases hf : f a with
      | none => exact ⟨a, ha, by rw [hf, hg, Joined.row]⟩
      | some m => exact absurd (hnone (a, m) ((hl a m).mpr ⟨ha, hf⟩)) (by simp)
  · rintro ⟨a, ha, hj⟩
    cases hf : f a with
    | some n =>
      have hn : (a, n) ∈ l := (hl a n).mpr ⟨ha, hf⟩
      cases hg : g a with
      | some m =>
        rw [hf, hg, Joined.row, Option.some.injEq] at hj
        exact .inl ⟨(a, n), hn, (a, m), (hr a m).mpr ⟨ha, hg⟩, beq_self_eq_true (id a), hj.symm⟩
      | none =>
        rw [hf, hg, Joined.row, Option.some.injEq] at hj
        refine .inr (.inl ⟨(a, n), hn, fun x hx => beq_eq_false_iff_ne.mpr fun he => ?_, hj.symm⟩)
        obtain ⟨hb, hm⟩ := (hr x.1 x.2).mp hx
        rw [hid x.1 hb a ha he, hg] at hm
        cases hm
    | none =>
      cases hg : g a with
      | some m =>
        rw [hf, hg, Joined.row, Option.some.injEq] at hj
        refine .inr (.inr ⟨(a, m), (hr a m).mpr ⟨ha, hg⟩, fun x hx => beq_eq_false_iff_ne.mpr fun he => ?_, hj.symm⟩)
        obtain ⟨hb, hm⟩ := (hl x.1 x.2).mp hx
        rw [← hid a ha x.1 hb he, hf] at hm
        cases hm
      | none =>
        rw [hf, hg, Joined.row] at hj
        cases hj

/-- A join on keys that are unique on either side has one row for each key. -/
theorem fullOuterJoin_keys_nodup [DecidableEq γ] {f : α → γ} {g : β → γ} (hl : (l.map f).Nodup)
    (hr : (r.map g).Nodup) :
    ((fullOuterJoin (fun a b => g b == f a) l r).map (Joined.coalesce f g)).Nodup := by
  have hone : ∀ a, (joinedWith (fun a b => g b == f a) r a).map (Joined.coalesce f g) = [f a] := by
    intro a
    unfold joinedWith
    split
    · rename_i h
      obtain ⟨b, hb, hon⟩ := List.any_eq_true.mp h
      have hcount : (r.map g).count (f a) = 1 :=
        List.count_eq_one_of_mem hr (List.mem_map.mpr ⟨b, hb, by simpa using hon⟩)
      have hlen : (r.filter fun b => g b == f a).length = 1 := by
        rw [← List.countP_eq_length_filter, ← hcount, List.count, List.countP_map]
        rfl
      obtain ⟨b', hb'⟩ := List.length_eq_one_iff.mp hlen
      rw [hb']
      rfl
    · rfl
  have hleft : (l.flatMap (joinedWith (fun a b => g b == f a) r)).map (Joined.coalesce f g) = l.map f := by
    rw [List.map_flatMap, List.map_eq_flatMap]
    exact List.flatMap_congr fun a _ => hone a
  have hright : ((r.filter fun b => !l.any fun a => g b == f a).map .right).map (Joined.coalesce f g) =
      (r.filter fun b => !l.any fun a => g b == f a).map g := by
    rw [List.map_map]
    rfl
  rw [fullOuterJoin, List.map_append, hleft, hright, List.nodup_append]
  refine ⟨hl, hr.sublist (List.filter_sublist.map g), fun x hx y hy he => ?_⟩
  obtain ⟨a, ha, rfl⟩ := List.mem_map.mp hx
  obtain ⟨b, hb, rfl⟩ := List.mem_map.mp hy
  have hnone := (List.mem_filter.mp hb).2
  rw [Bool.not_eq_true', List.any_eq_false] at hnone
  exact hnone a ha (by simp [he])

theorem length_le_fullOuterJoin : l.length ≤ (fullOuterJoin on l r).length := by
  have hone : ∀ a, 1 ≤ (joinedWith on r a).length := by
    intro a
    refine List.length_pos_iff_exists_mem.mpr ?_
    by_cases h : ∃ b ∈ r, on a b = true
    · obtain ⟨b, hb, hon⟩ := h
      exact ⟨.both a b, mem_joinedWith_iff.mpr (.inl ⟨b, hb, hon, rfl⟩)⟩
    · exact ⟨.left a, mem_joinedWith_iff.mpr (.inr ⟨by simpa using h, rfl⟩)⟩
  have hleft : l.length ≤ (l.flatMap (joinedWith on r)).length := by
    induction l with
    | nil => exact Nat.le_refl 0
    | cons a l ih =>
      rw [List.flatMap_cons, List.length_append, List.length_cons, Nat.add_comm]
      exact Nat.add_le_add (hone a) ih
  rw [fullOuterJoin, List.length_append]
  exact hleft.trans (Nat.le_add_right _ _)

end

end AiPrReview.Ranking
