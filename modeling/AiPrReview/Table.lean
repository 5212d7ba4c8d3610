import Mathlib.Data.List.Nodup
import Mathlib.Data.List.Perm.Basic

/-! Tables with a unique index. A table is a list of rows in which no two rows
have the same key; statements keep this by construction, and what a statement
does is read off from `get`. -/

namespace AiPrReview

structure Table {α κ : Type} (key : α → κ) where
  rows : List α
  keys_nodup : (rows.map key).Nodup

namespace Table

variable {α κ : Type} {key : α → κ}

theorem eq_of_rows {t t' : Table key} (h : t.rows = t'.rows) : t = t' := by
  cases t
  cases t'
  cases h
  rfl

def empty : Table key := ⟨[], List.nodup_nil⟩

/-- `DELETE ... WHERE p`. -/
def delete (t : Table key) (p : α → Bool) : Table key :=
  ⟨t.rows.filter (fun a => !p a), (List.filter_sublist.map key).nodup t.keys_nodup⟩

/-- `UPDATE ... SET f WHERE p`, for an `f` that leaves the key alone. -/
def update (t : Table key) (p : α → Bool) (f : α → α) (hf : ∀ a, key (f a) = key a) : Table key :=
  ⟨t.rows.map (fun a => if p a then f a else a), by
    have hk : (key ∘ fun a => if p a then f a else a) = key := by
      funext a
      by_cases h : p a = true <;> simp [h, hf]
    rw [List.map_map, hk]
    exact t.keys_nodup⟩

theorem mem_delete_iff {t : Table key} {p : α → Bool} {a : α} :
    a ∈ (t.delete p).rows ↔ a ∈ t.rows ∧ p a = false := by
  simp [delete, List.mem_filter]

theorem mem_foldl_iff {put : Table key → α → Table key}
    (hput : ∀ t a b, b ∈ (put t a).rows ↔ b = a ∨ (b ∈ t.rows ∧ key b ≠ key a)) {l : List α}
    (hl : (l.map key).Nodup) {t : Table key} {b : α} :
    b ∈ (l.foldl put t).rows ↔ b ∈ l ∨ (b ∈ t.rows ∧ key b ∉ l.map key) := by
  induction l generalizing t with
  | nil => simp
  | cons a l ih =>
    rw [List.map_cons, List.nodup_cons] at hl
    rw [List.foldl_cons, ih hl.2, hput, List.mem_cons, List.map_cons, List.mem_cons, not_or]
    constructor
    · rintro (h | ⟨rfl | ⟨h, hne⟩, hn⟩)
      · exact .inl (.inr h)
      · exact .inl (.inl rfl)
      · exact .inr ⟨h, hne, hn⟩
    · rintro ((rfl | h) | ⟨h, hne, hn⟩)
      · exact .inr ⟨.inl rfl, hl.1⟩
      · exact .inl h
      · exact .inr ⟨.inr ⟨h, hne⟩, hn⟩

variable [DecidableEq κ]

def get (t : Table key) (k : κ) : Option α := t.rows.find? fun a => key a == k

/-- `INSERT ... ON CONFLICT (key) DO NOTHING`. -/
def insertIgnore (t : Table key) (a : α) : Table key :=
  if h : key a ∈ t.rows.map key then t
  else ⟨t.rows ++ [a], by
    rw [List.map_append, List.nodup_append]
    refine ⟨t.keys_nodup, by simp, ?_⟩
    intro k hk k' hk' he
    simp only [List.map_cons, List.map_nil, List.mem_singleton] at hk'
    exact h (hk' ▸ he ▸ hk)⟩

/-- `INSERT ... ON CONFLICT (key) DO UPDATE SET f`. -/
def upsert (t : Table key) (a : α) (f : α → α) (hf : ∀ b, key (f b) = key b) : Table key :=
  if key a ∈ t.rows.map key then t.update (fun b => key b == key a) f hf
  else t.insertIgnore a

/-- The row comes first, in place of the one with its key. -/
def push (t : Table key) (a : α) : Table key :=
  ⟨a :: (t.delete fun b => key b == key a).rows, by
    rw [List.map_cons, List.nodup_cons]
    refine ⟨?_, (t.delete fun b => key b == key a).keys_nodup⟩
    intro hm
    obtain ⟨b, hb, hk⟩ := List.mem_map.mp hm
    have hne := (mem_delete_iff.mp hb).2
    simp [hk] at hne⟩

theorem get_eq_some_iff {t : Table key} {k : κ} {a : α} :
    t.get k = some a ↔ a ∈ t.rows ∧ key a = k := by
  constructor
  · intro h
    exact ⟨List.mem_of_find?_eq_some h, by simpa using List.find?_some h⟩
  · rintro ⟨ha, rfl⟩
    obtain ⟨b, hb⟩ : ∃ b, t.get (key a) = some b := by
      apply Option.isSome_iff_exists.mp
      exact List.find?_isSome.mpr ⟨a, ha, by simp⟩
    have hm := List.mem_of_find?_eq_some hb
    have hk : key b = key a := by simpa using List.find?_some hb
    rw [hb, List.inj_on_of_nodup_map t.keys_nodup hm ha hk]

theorem get_key {t : Table key} {k : κ} {a : α} (h : t.get k = some a) : key a = k :=
  (get_eq_some_iff.mp h).2

theorem get_eq_none_iff {t : Table key} {k : κ} : t.get k = none ↔ k ∉ t.rows.map key := by
  simp [get]

theorem get_push (t : Table key) (a : α) (k : κ) :
    (t.push a).get k = if key a = k then some a else t.get k := by
  apply Option.ext
  intro b
  simp only [get_eq_some_iff, push, List.mem_cons, mem_delete_iff, beq_eq_false_iff_ne]
  by_cases hk : key a = k
  · rw [if_pos hk, Option.some.injEq]
    constructor
    · intro h
      obtain ⟨rfl | ⟨_, hne⟩, hb⟩ := h
      · rfl
      · exact absurd (hb.trans hk.symm) hne
    · intro h
      exact ⟨.inl h.symm, h ▸ hk⟩
  · rw [if_neg hk, get_eq_some_iff]
    constructor
    · intro h
      obtain ⟨rfl | ⟨hb, _⟩, hbk⟩ := h
      · exact absurd hbk hk
      · exact ⟨hb, hbk⟩
    · intro h
      exact ⟨.inr ⟨h.1, fun he => hk (he.symm.trans h.2)⟩, h.2⟩

theorem push_rows_of_new {t : Table key} {a : α} (h : t.get (key a) = none) : (t.push a).rows = a :: t.rows := by
  show a :: t.rows.filter _ = _
  congr 1
  refine List.filter_eq_self.mpr ?_
  intro b hb
  have hne : key b ≠ key a := fun he => get_eq_none_iff.mp h (he ▸ List.mem_map_of_mem hb)
  simpa using hne

theorem mem_rows_iff {t : Table key} {a : α} : a ∈ t.rows ↔ t.get (key a) = some a := by
  simp [get_eq_some_iff]

theorem get_update (t : Table key) (p : α → Bool) (f : α → α) (hf : ∀ a, key (f a) = key a)
    (k : κ) : (t.update p f hf).get k = (t.get k).map (fun a => if p a then f a else a) := by
  apply Option.ext
  intro a
  simp only [get_eq_some_iff, update, List.mem_map, Option.map_eq_some_iff]
  constructor
  · rintro ⟨⟨b, hb, rfl⟩, hk⟩
    refine ⟨b, ⟨hb, ?_⟩, rfl⟩
    by_cases hp : p b = true <;> simpa [hp, hf] using hk
  · rintro ⟨b, ⟨hb, hk⟩, rfl⟩
    refine ⟨⟨b, hb, rfl⟩, ?_⟩
    by_cases hp : p b = true <;> simpa [hp, hf] using hk

theorem get_insertIgnore (t : Table key) (a : α) (k : κ) :
    (t.insertIgnore a).get k = (t.get k).or (if key a = k then some a else none) := by
  unfold insertIgnore
  by_cases h : key a ∈ t.rows.map key
  · rw [dif_pos h]
    by_cases hk : key a = k
    · subst hk
      obtain ⟨b, hb⟩ := Option.ne_none_iff_exists'.mp (mt get_eq_none_iff.mp (not_not.mpr h))
      simp [hb]
    · simp [hk]
  · rw [dif_neg h]
    simp only [get, List.find?_append, List.find?_singleton]
    congr 1
    by_cases hk : key a = k <;> simp [hk]

theorem get_upsert (t : Table key) (a : α) (f : α → α) (hf : ∀ b, key (f b) = key b) (k : κ) :
    (t.upsert a f hf).get k =
      if key a = k then some (((t.get k).map f).getD a) else t.get k := by
  unfold upsert
  by_cases h : key a ∈ t.rows.map key
  · rw [if_pos h, get_update]
    by_cases hk : key a = k
    · subst hk
      obtain ⟨b, hb⟩ := Option.ne_none_iff_exists'.mp (mt get_eq_none_iff.mp (not_not.mpr h))
      simp [hb, get_key hb]
    · rw [if_neg hk]
      cases hb : t.get k with
      | none => rfl
      | some b =>
        have hkb : key b ≠ key a := fun he => hk (he.symm.trans (get_key hb))
        simp [hkb]
  · rw [if_neg h, get_insertIgnore]
    by_cases hk : key a = k
    · subst hk
      simp [get_eq_none_iff.mpr h]
    · simp [hk]

theorem mem_upsert_iff {t : Table key} {a : α} {f : α → α} {hf : ∀ b, key (f b) = key b}
    (hfa : ∀ b, key b = key a → f b = a) {b : α} :
    b ∈ (t.upsert a f hf).rows ↔ b = a ∨ (b ∈ t.rows ∧ key b ≠ key a) := by
  rw [mem_rows_iff, get_upsert]
  by_cases hk : key a = key b
  · have hv : ((t.get (key b)).map f).getD a = a := by
      cases hg : t.get (key b) with
      | none => rfl
      | some c => exact hfa c ((get_key hg).trans hk.symm)
    rw [if_pos hk, hv, Option.some.injEq]
    constructor
    · intro h
      exact .inl h.symm
    · rintro (rfl | ⟨_, hne⟩)
      · rfl
      · exact absurd hk.symm hne
  · rw [if_neg hk, ← mem_rows_iff]
    constructor
    · intro h
      exact .inr ⟨h, fun he => hk he.symm⟩
    · rintro (rfl | ⟨h, _⟩)
      · exact absurd rfl hk
      · exact h

end Table

end AiPrReview
