import AiPrReview.ReadCommitted

/-! Writers that have no key in common while both are at work leave the table as
if they had run alone, one after the other in the order of their commits. -/

namespace AiPrReview.ReadCommitted

variable {α κ σ : Type} {key : α → κ} [DecidableEq κ]

def Statement.touches (k : κ) : Statement key → Bool
  | .delete p => p k
  | .upsert a _ _ => decide (key a = k)

def Statement.Within (q : κ → Bool) (c : Statement key) : Prop := ∀ k, c.touches k = true → q k = true

/-- What a writer does and what it saves. -/
abbrev Body {α κ : Type} (key : α → κ) (σ : Type) : Type := List (Statement key) × (Nat → σ)

def touched (b : Body key σ) (k : κ) : Bool := b.1.any (·.touches k)

def SharesKey (b c : Body key σ) : Prop := ∃ k, touched b k = true ∧ touched c k = true

theorem within_touched (b : Body key σ) : ∀ c ∈ b.1, c.Within (touched b) := fun c hc _ hk =>
  List.any_eq_true.mpr ⟨c, hc, hk⟩

/-! A statement on the rows of some keys. -/

section

variable {q : κ → Bool} {t t' : Table key} {c : Statement key}

omit [DecidableEq κ] in
theorem map_filter_key (q : κ → Bool) {g : α → α} (hg : ∀ a, key (g a) = key a) (rows : List α) :
    (rows.map g).filter (fun a => q (key a)) = (rows.filter fun a => q (key a)).map g := by
  simp [List.filter_map, Function.comp_def, hg]

theorem key_overwrite {a : α} {f : α → α} (hf : ∀ b, key (f b) = key b) (b : α) :
    key (if key b = key a then f b else b) = key b := by
  split_ifs
  · exact hf b
  · rfl

theorem run_perm (h : t.rows.Perm t'.rows) (c : Statement key) :
    (Statement.run t c).rows.Perm (Statement.run t' c).rows := by
  cases c with
  | delete p => exact h.filter _
  | upsert a f hf =>
    have hkeys : key a ∈ t.rows.map key ↔ key a ∈ t'.rows.map key := (h.map key).mem_iff
    show (t.upsert a f hf).rows.Perm (t'.upsert a f hf).rows
    by_cases hmem : key a ∈ t.rows.map key
    · rw [rows_upsert_of_mem hmem, rows_upsert_of_mem (hkeys.mp hmem)]
      exact h.map _
    · rw [rows_upsert_of_not_mem hmem, rows_upsert_of_not_mem (fun hh => hmem (hkeys.mpr hh))]
      exact h.append_right _

theorem foldl_run_perm {body : List (Statement key)} (h : t.rows.Perm t'.rows) :
    (body.foldl Statement.run t).rows.Perm (body.foldl Statement.run t').rows := by
  induction body generalizing t t' with
  | nil => exact h
  | cons c body ih => exact ih (run_perm h c)

/-- The rows that a statement may change are changed as they would be alone. -/
theorem filter_run (hc : c.Within q) (h : t'.rows = t.rows.filter fun a => q (key a)) :
    (Statement.run t' c).rows = (Statement.run t c).rows.filter fun a => q (key a) := by
  cases c with
  | delete p =>
    show t'.rows.filter _ = (t.rows.filter _).filter _
    rw [h, List.filter_filter, List.filter_filter]
    exact List.filter_congr fun a _ => Bool.and_comm ..
  | upsert a f hf =>
    have hq : q (key a) = true := hc (key a) (decide_eq_true rfl)
    have hkeys : key a ∈ t'.rows.map key ↔ key a ∈ t.rows.map key := by
      rw [h]
      constructor
      · intro hk
        obtain ⟨b, hb, he⟩ := List.mem_map.mp hk
        exact List.mem_map.mpr ⟨b, (List.mem_filter.mp hb).1, he⟩
      · intro hk
        obtain ⟨b, hb, he⟩ := List.mem_map.mp hk
        exact List.mem_map.mpr ⟨b, List.mem_filter.mpr ⟨hb, by rwa [he]⟩, he⟩
    show (t'.upsert a f hf).rows = (t.upsert a f hf).rows.filter _
    by_cases hmem : key a ∈ t.rows.map key
    · rw [rows_upsert_of_mem hmem, rows_upsert_of_mem (hkeys.mpr hmem), map_filter_key q (key_overwrite hf), h]
    · rw [rows_upsert_of_not_mem hmem, rows_upsert_of_not_mem (fun hh => hmem (hkeys.mp hh)), List.filter_append, h]
      simp [hq]

theorem filter_run_outside (hc : c.Within q) :
    (Statement.run t c).rows.filter (fun a => !q (key a)) = t.rows.filter fun a => !q (key a) := by
  cases c with
  | delete p =>
    show (t.rows.filter _).filter _ = _
    rw [List.filter_filter]
    refine List.filter_congr fun a _ => ?_
    cases hp : p (key a) with
    | false => simp [hp]
    | true =>
      have hq : q (key a) = true := hc (key a) hp
      simp [hq]
  | upsert a f hf =>
    have hq : q (key a) = true := hc (key a) (decide_eq_true rfl)
    show (t.upsert a f hf).rows.filter _ = _
    by_cases hmem : key a ∈ t.rows.map key
    · rw [rows_upsert_of_mem hmem, map_filter_key (fun k => !q k) (key_overwrite hf)]
      refine (List.map_congr_left fun b hb => if_neg fun he => ?_).trans (List.map_id' _)
      have hb' := (List.mem_filter.mp hb).2
      simp [he, hq] at hb'
    · rw [rows_upsert_of_not_mem hmem, List.filter_append]
      simp [hq]

theorem filter_foldl_run {body : List (Statement key)} (hb : ∀ c ∈ body, c.Within q)
    (h : t'.rows = t.rows.filter fun a => q (key a)) :
    (body.foldl Statement.run t').rows = (body.foldl Statement.run t).rows.filter fun a => q (key a) := by
  induction body generalizing t t' with
  | nil => exact h
  | cons c body ih => exact ih (fun d hd => hb d (List.mem_cons_of_mem c hd)) (filter_run (hb c (by simp)) h)

theorem filter_foldl_run_outside {body : List (Statement key)} (hb : ∀ c ∈ body, c.Within q) :
    (body.foldl Statement.run t).rows.filter (fun a => !q (key a)) = t.rows.filter fun a => !q (key a) := by
  induction body generalizing t with
  | nil => rfl
  | cons c body ih =>
    rw [List.foldl_cons, ih fun d hd => hb d (List.mem_cons_of_mem c hd)]
    exact filter_run_outside (hb c (by simp))

end

/-! A writer at work on the rows of some keys. -/

def Store.only (key : α → κ) (q : κ → Bool) (s : Store α σ) : Store α σ where
  rows := s.rows.filter fun r => q (key r.2)
  nextId := s.nextId
  saved := s.saved
  commits := s.commits
  ids_nodup := (List.filter_sublist.map Prod.fst).nodup s.ids_nodup
  ids_lt := fun r hr => s.ids_lt r (List.mem_filter.mp hr).1

/-- The writer has its hands on rows of these keys only, and does to them what
`body` does to a table of them. -/
structure OnCourse (q : κ → Bool) (body : List (Statement key)) (s : Store α σ) (w : Writer key σ) : Prop where
  way : ∃ t : Table key, t.rows = (s.only key q).rows.map Prod.snd ∧
    OnTheWay (body.foldl Statement.run t).rows (s.only key q) w
  todo : ∀ c ∈ w.todo, c.Within q
  locked : ∀ r ∈ s.rows, r.1 ∈ w.locks → q (key r.2) = true
  inserted : ∀ a ∈ w.inserted, q (key a) = true
  fresh : ∀ id ∈ w.locks, id < s.nextId

section

variable {interest : κ → Bool} {q : κ → Bool} {body : List (Statement key)} {s s' : Store α σ}
  {others : List (Writer key σ)} {w w' : Writer key σ}

omit [DecidableEq κ] in
theorem row_of_id {r r' : Nat × α} (hr : r ∈ s.rows) (hr' : r' ∈ s.rows) (h : r.1 = r'.1) : r = r' :=
  List.inj_on_of_nodup_map s.ids_nodup hr hr' h

omit [DecidableEq κ] in
theorem seen_only {p : κ → Bool} (hp : ∀ k, p k = true → q k = true) :
    (s.only key q).rows.filter (fun r => p (key r.2)) = s.rows.filter fun r => p (key r.2) := by
  show (s.rows.filter _).filter _ = _
  rw [List.filter_filter]
  refine List.filter_congr fun r _ => ?_
  cases hpr : p (key r.2) with
  | false => rfl
  | true => simp [hp _ hpr]

omit [DecidableEq κ] in
theorem delete_only {p : κ → Bool} (hp : ∀ k, p k = true → q k = true) (rest : List (Statement key)) :
    w.delete s.rows ((s.rows.filter fun r => p (key r.2)).map Prod.fst) p rest =
      w.delete (s.only key q).rows (((s.only key q).rows.filter fun r => p (key r.2)).map Prod.fst) p rest := by
  have hall : ∀ rows : List (Nat × α), ((rows.filter fun r => p (key r.2)).map Prod.fst).filter
      (fun id => id ∈ rows.map Prod.fst) = (rows.filter fun r => p (key r.2)).map Prod.fst := by
    intro rows
    refine List.filter_eq_self.mpr fun id hid => decide_eq_true ?_
    obtain ⟨r, hr, rfl⟩ := List.mem_map.mp hid
    exact List.mem_map_of_mem (List.mem_filter.mp hr).1
  rw [Writer.delete, Writer.delete, hall, hall, seen_only hp]

theorem upsert_only {a : α} (f : α → α) (hf : ∀ b, key (f b) = key b) (ha : q (key a) = true)
    (rest : List (Statement key)) : w.upsert s.rows a f hf rest = w.upsert (s.only key q).rows a f hf rest := by
  have hfind : (s.only key q).rows.find? (fun r => key r.2 = key a ∧ r.1 ∉ w.deleted) =
      s.rows.find? fun r => key r.2 = key a ∧ r.1 ∉ w.deleted := by
    show (s.rows.filter _).find? _ = _
    rw [List.find?_filter]
    refine congrArg (fun g => s.rows.find? g) (funext fun r => ?_)
    by_cases hk : key r.2 = key a
    · simp [hk, ha]
    · simp [hk]
  rw [Writer.upsert, Writer.upsert, hfind]

omit [DecidableEq κ] in
theorem mem_locks_delete {rows : List (Nat × α)} {ids : List Nat} {p : κ → Bool} {rest : List (Statement key)}
    {id : Nat}
    (h : id ∈ (w.delete rows ids p rest).locks) : id ∈ w.locks ∨ id ∈ ids ∧ id ∈ rows.map Prod.fst := by
  simp only [Writer.locks, Writer.delete, List.mem_append, List.mem_filter, decide_eq_true_eq] at h ⊢
  tauto

theorem mem_locks_upsert {rows : List (Nat × α)} {a : α} {f : α → α} {hf : ∀ b, key (f b) = key b}
    {rest : List (Statement key)} {id : Nat} (h : id ∈ (w.upsert rows a f hf rest).locks) :
    id ∈ w.locks ∨ ∃ r ∈ rows, r.1 = id ∧ key r.2 = key a := by
  unfold Writer.upsert at h
  split_ifs at h
  · exact .inl h
  · split at h
    · next r hr =>
      simp only [Writer.locks, List.map_append, List.map_cons, List.map_nil, List.mem_append,
        List.mem_singleton] at h ⊢
      rcases h with h | h | rfl
      · exact .inl (.inl h)
      · exact .inl (.inr h)
      · have hkey := List.find?_some hr
        simp only [decide_eq_true_eq] at hkey
        exact .inr ⟨r, List.mem_of_find?_eq_some hr, rfl, hkey.1⟩
    · exact .inl h

theorem mem_inserted_upsert {rows : List (Nat × α)} {a b : α} {f : α → α} {hf : ∀ b, key (f b) = key b}
    {rest : List (Statement key)} (h : b ∈ (w.upsert rows a f hf rest).inserted) :
    b = a ∨ ∃ c ∈ w.inserted, key b = key c := by
  unfold Writer.upsert at h
  split_ifs at h
  · obtain ⟨c, hc, rfl⟩ := List.mem_map.mp h
    exact .inr ⟨c, hc, key_overwrite hf c⟩
  · split at h
    · exact .inr ⟨b, h, rfl⟩
    · rcases List.mem_append.mp h with h | h
      · exact .inr ⟨b, h, rfl⟩
      · exact .inl (List.mem_singleton.mp h)

theorem upsert_save (w : Writer key σ) (rows : List (Nat × α)) (a : α) (f : α → α) (hf : ∀ b, key (f b) = key b)
    (rest : List (Statement key)) : (w.upsert rows a f hf rest).save = w.save := by
  unfold Writer.upsert
  split_ifs
  · rfl
  · split <;> rfl

theorem act_save (h : w.act interest s others = some (s', w')) : w.phase ≠ .committed ∧ w'.save = w.save := by
  obtain ⟨todo, seen, deleted, updated, inserted, phase, save⟩ := w
  refine ⟨?_, ?_⟩
  · rintro rfl
    cases h
  unfold Writer.act at h
  split at h
  · obtain ⟨rfl, rfl⟩ := Prod.mk.injEq .. ▸ Option.some.inj h
    rfl
  · split_ifs at h
    obtain ⟨rfl, rfl⟩ := Prod.mk.injEq .. ▸ Option.some.inj h
    rfl
  · split_ifs at h
    obtain ⟨rfl, rfl⟩ := Prod.mk.injEq .. ▸ Option.some.inj h
    exact upsert_save ..
  · obtain ⟨rfl, rfl⟩ := Prod.mk.injEq .. ▸ Option.some.inj h
    rfl
  · split_ifs at h
    obtain ⟨rfl, rfl⟩ := Prod.mk.injEq .. ▸ Option.some.inj h
    rfl
  · obtain ⟨rfl, rfl⟩ := Prod.mk.injEq .. ▸ Option.some.inj h
    rfl
  · cases h

theorem OnCourse.act (C : OnCourse q body s w) (hsaved : w.isSaved = false)
    (h : w.act interest s others = some (s', w')) : s' = s ∧ w'.phase ≠ .committed ∧ OnCourse q body s w' := by
  obtain ⟨⟨t, ht, hway⟩, htodo, hlocked, hinserted, hfresh⟩ := C
  obtain ⟨todo, seen, deleted, updated, inserted, phase, save⟩ := w
  cases phase with
  | writing =>
    obtain ⟨⟨t₁, ht₁, hfinal⟩, hseen⟩ := hway
    cases todo with
    | nil =>
      obtain ⟨rfl, rfl⟩ := Prod.mk.injEq .. ▸ Option.some.inj h
      exact ⟨rfl, by simp, ⟨t, ht, ht₁.symm.trans hfinal⟩, htodo, hlocked, hinserted, hfresh⟩
    | cons c rest =>
      have hrest : ∀ c ∈ rest, c.Within q := fun d hd => htodo d (List.mem_cons_of_mem c hd)
      cases c with
      | delete p =>
        have hp : ∀ k, p k = true → q k = true := htodo _ List.mem_cons_self
        cases seen with
        | none =>
          obtain ⟨rfl, rfl⟩ := Prod.mk.injEq .. ▸ Option.some.inj h
          refine ⟨rfl, by simp, ⟨t, ht, ⟨t₁, ht₁, hfinal⟩, fun ids he => ⟨p, rest, rfl, ?_⟩⟩, htodo, hlocked,
            hinserted, hfresh⟩
          rw [seen_only hp]
          exact (Option.some.inj he).symm
        | some ids =>
          simp only [Writer.act] at h
          split_ifs at h
          obtain ⟨rfl, rfl⟩ := Prod.mk.injEq .. ▸ Option.some.inj h
          obtain ⟨p', rest', htodo', hids⟩ := hseen ids rfl
          obtain ⟨hp', rfl⟩ := List.cons.inj htodo'
          obtain rfl := Statement.delete.inj hp'
          rw [seen_only hp] at hids
          subst hids
          refine ⟨rfl, by simp [Writer.delete], ⟨t, ht, ?_⟩, hrest, fun r hr hid => ?_, fun a ha => ?_,
            fun id hid => ?_⟩
          · rw [delete_only hp]
            exact onTheWay_of_writing rfl rfl (view_delete ht₁) hfinal
          · rcases mem_locks_delete hid with hid | ⟨hid, _⟩
            · exact hlocked r hr hid
            · obtain ⟨r', hr', he⟩ := List.mem_map.mp hid
              obtain ⟨hr', hpr⟩ := List.mem_filter.mp hr'
              obtain rfl := row_of_id hr' hr he
              exact hp _ hpr
          · exact hinserted a (List.mem_filter.mp ha).1
          · rcases mem_locks_delete hid with hid | ⟨_, hid⟩
            · exact hfresh id hid
            · obtain ⟨r, hr, rfl⟩ := List.mem_map.mp hid
              exact s.ids_lt r hr
      | upsert a f hf =>
        have ha : q (key a) = true := htodo _ List.mem_cons_self (key a) (decide_eq_true rfl)
        simp only [Writer.act] at h
        split_ifs at h
        obtain ⟨rfl, rfl⟩ := Prod.mk.injEq .. ▸ Option.some.inj h
        have hnone : seen = none := by
          cases seen with
          | none => rfl
          | some ids =>
            obtain ⟨p, rest', htodo', _⟩ := hseen ids rfl
            cases htodo'
        obtain ⟨htodo', hseen', hphase'⟩ :=
          upsert_todo ⟨.upsert a f hf :: rest, seen, deleted, updated, inserted, .writing, save⟩ s.rows a f hf rest
        refine ⟨rfl, by simp [hphase'], ⟨t, ht, ?_⟩, fun c hc => ?_, fun r hr hid => ?_, fun b hb => ?_,
          fun id hid => ?_⟩
        · rw [upsert_only f hf ha] at htodo' hseen' hphase' ⊢
          refine onTheWay_of_writing hphase' (hseen'.trans hnone) (view_upsert ht₁) ?_
          rw [htodo']
          exact hfinal
        · rw [htodo'] at hc
          exact hrest c hc
        · rcases mem_locks_upsert hid with hid | ⟨r', hr', he, hk⟩
          · exact hlocked r hr hid
          · obtain rfl := row_of_id hr' hr he
            rwa [hk]
        · rcases mem_inserted_upsert hb with rfl | ⟨c, hc, hk⟩
          · exact ha
          · rw [hk]
            exact hinserted c hc
        · rcases mem_locks_upsert hid with hid | ⟨r, hr, rfl, _⟩
          · exact hfresh id hid
          · exact s.ids_lt r hr
  | counted total rowsThen =>
    simp only [Writer.act] at h
    split_ifs at h
    obtain ⟨rfl, rfl⟩ := Prod.mk.injEq .. ▸ Option.some.inj h
    exact ⟨rfl, by simp, ⟨t, ht, hway⟩, htodo, hlocked, hinserted, hfresh⟩
  | saved total rowsThen => cases hsaved
  | committed => cases h

theorem act_saved (hsaved : w.isSaved = true) (h : w.act interest s others = some (s', w')) :
    ∃ total rowsThen, s' = s.commit w interest total rowsThen ∧ w'.phase = .committed := by
  obtain ⟨todo, seen, deleted, updated, inserted, phase, save⟩ := w
  cases phase with
  | saved total rowsThen =>
    obtain ⟨rfl, rfl⟩ := Prod.mk.injEq .. ▸ Option.some.inj h
    exact ⟨total, rowsThen, rfl, rfl⟩
  | _ => cases hsaved

omit [DecidableEq κ] in
theorem current_of_unlocked {r : Nat × α} (h : r.1 ∉ w.locks) : w.current r = r.2 := by
  have hnone : w.updated.filter (fun u => u.1 = r.1) = [] := by
    refine List.filter_eq_nil_iff.mpr fun u hu he => h ?_
    rw [← of_decide_eq_true he]
    exact List.mem_append_right _ (List.mem_map_of_mem hu)
  rw [Writer.current, hnone]
  rfl

omit [DecidableEq κ] in
theorem filter_kept_of_unlocked {p : κ → Bool} (h : ∀ r ∈ s.rows, p (key r.2) = true → r.1 ∉ w.locks) :
    (w.kept s.rows).filter (fun r => p (key r.2)) = s.rows.filter fun r => p (key r.2) := by
  rw [Writer.kept, List.filter_map, List.filter_filter]
  have hfilter : s.rows.filter (fun r => ((fun r : Nat × α => p (key r.2)) ∘ fun r => (r.1, w.current r)) r &&
      decide (r.1 ∉ w.deleted)) = s.rows.filter fun r => p (key r.2) := by
    refine List.filter_congr fun r hr => ?_
    rw [Function.comp_apply, w.key_current]
    cases hp : p (key r.2) with
    | false => rfl
    | true =>
      have hdel : r.1 ∉ w.deleted := fun hd => h r hr hp (List.mem_append_left _ hd)
      simp [hdel]
  rw [hfilter]
  refine (List.map_congr_left fun r hr => ?_).trans (List.map_id _)
  obtain ⟨hr, hp⟩ := List.mem_filter.mp hr
  rw [current_of_unlocked (h r hr hp)]
  rfl

namespace OnCourse

theorem start (hkeys : (s.rows.map fun r => key r.2).Nodup) (b : Body key σ) :
    OnCourse (touched b) b.1 s (.start b.1 b.2) := by
  have hnodup : (((s.only key (touched b)).rows.map Prod.snd).map key).Nodup := by
    rw [List.map_map]
    exact (List.filter_sublist.map _).nodup hkeys
  have hview : (s.only key (touched b)).rows.map Prod.snd =
      (Writer.start b.1 b.2).view (s.only key (touched b)).rows := by
    simp [Writer.start, Writer.view, Writer.kept, Writer.current]
  refine ⟨⟨⟨_, hnodup⟩, rfl, onTheWay_of_writing rfl rfl hview rfl⟩, within_touched b, ?_, ?_, ?_⟩ <;>
    simp [Writer.start, Writer.locks]

theorem view_inside (C : OnCourse q body s w) :
    (w.view s.rows).filter (fun a => q (key a)) = w.view (s.only key q).rows := by
  have hkept : ((w.kept s.rows).map Prod.snd).filter (fun a => q (key a)) =
      (w.kept (s.only key q).rows).map Prod.snd := by
    show _ = (w.kept (s.rows.filter fun r => q (key r.2))).map Prod.snd
    rw [Writer.kept, Writer.kept, List.map_map, List.map_map, List.filter_map, List.filter_filter, List.filter_filter]
    refine congrArg (List.map _) (List.filter_congr fun r _ => ?_)
    simp [w.key_current, Bool.and_comm]
  rw [Writer.view, List.filter_append, hkept, Writer.view, List.filter_eq_self.mpr C.inserted]

theorem view_outside (C : OnCourse q body s w) :
    (w.view s.rows).filter (fun a => !q (key a)) = (s.rows.map Prod.snd).filter fun a => !q (key a) := by
  have hinserted : w.inserted.filter (fun a => !q (key a)) = [] :=
    List.filter_eq_nil_iff.mpr fun a ha => by simp [C.inserted a ha]
  have hkept : (w.kept s.rows).filter (fun r => !q (key r.2)) = s.rows.filter fun r => !q (key r.2) := by
    refine filter_kept_of_unlocked (p := fun k => !q k) fun r hr hout hid => ?_
    simp [C.locked r hr hid] at hout
  rw [Writer.view, List.filter_append, hinserted, List.append_nil, List.filter_map, List.filter_map]
  exact congrArg (List.map Prod.snd) hkept

/-- What a writer commits is what its statements do to any table of these rows. -/
theorem commit_perm (C : OnCourse q body s w) (hbody : ∀ c ∈ body, c.Within q) (hsaved : w.isSaved = true)
    {t : Table key} (ht : (s.rows.map Prod.snd).Perm t.rows) (total rowsThen : Nat) :
    ((s.commit w interest total rowsThen).rows.map Prod.snd).Perm (body.foldl Statement.run t).rows := by
  obtain ⟨t₁, ht₁, hway⟩ := C.way
  have hfinal : w.view (s.only key q).rows = (body.foldl Statement.run t₁).rows := by
    obtain ⟨todo, seen, deleted, updated, inserted, phase, save⟩ := w
    cases phase with
    | saved total rowsThen => exact hway
    | _ => cases hsaved
  obtain ⟨tq, htq⟩ : ∃ tq : Table key, tq.rows = t.rows.filter fun a => q (key a) :=
    ⟨t.delete fun a => !q (key a), by simp only [Table.delete, Bool.not_not]⟩
  have honly : t₁.rows.Perm tq.rows := by
    rw [ht₁, htq]
    have hfilter : (s.only key q).rows.map Prod.snd = (s.rows.map Prod.snd).filter fun a => q (key a) := by
      rw [List.filter_map]
      rfl
    rw [hfilter]
    exact ht.filter _
  rw [commit_rows]
  refine (List.filter_append_perm (fun a => q (key a)) _).symm.trans ?_
  refine List.Perm.trans ?_ (List.filter_append_perm (fun a => q (key a)) _)
  refine List.Perm.append ?_ ?_
  · rw [C.view_inside, hfinal, ← filter_foldl_run hbody htq]
    exact foldl_run_perm honly
  · rw [C.view_outside, filter_foldl_run_outside hbody]
    exact ht.filter _

/-- The commit of a writer with other keys changes nothing for this one. -/
theorem of_commit (C : OnCourse q body s w) {u : Writer key σ} {qu : κ → Bool} {other : List (Statement key)}
    (D : OnCourse qu other s u) (hapart : ∀ k, q k = true → qu k = false) (total rowsThen : Nat) :
    OnCourse q body (s.commit u interest total rowsThen) w := by
  have hout : ∀ {k}, qu k = true → q k = false := by
    intro k hk
    cases hq : q k with
    | false => rfl
    | true => exact absurd (hapart k hq) (by simp [hk])
  have hrows : ((s.commit u interest total rowsThen).only key q).rows = (s.only key q).rows := by
    have hnew : (u.inserted.zipIdx.map fun x => (s.nextId + x.2, x.1)).filter (fun r => q (key r.2)) = [] := by
      refine List.filter_eq_nil_iff.mpr fun r hr hq => ?_
      obtain ⟨x, hx, rfl⟩ := List.mem_map.mp hr
      have hkey := hout (D.inserted x.1 (List.fst_mem_of_mem_zipIdx hx))
      exact absurd hq (by simp [hkey])
    show (u.kept s.rows ++ _).filter (fun r => q (key r.2)) = s.rows.filter fun r => q (key r.2)
    rw [List.filter_append, hnew, List.append_nil]
    refine filter_kept_of_unlocked fun r hr hq hid => ?_
    exact absurd (D.locked r hr hid) (by simp [hapart _ hq])
  obtain ⟨⟨t, ht, hway⟩, htodo, hlocked, hinserted, hfresh⟩ := C
  refine ⟨⟨t, ht.trans (congrArg (List.map Prod.snd) hrows.symm), ?_⟩, htodo, fun r hr hid => ?_, hinserted,
    fun id hid => Nat.lt_add_right _ (hfresh id hid)⟩
  · unfold OnTheWay at hway ⊢
    rwa [hrows]
  · rcases List.mem_append.mp hr with hr | hr
    · obtain ⟨r', hr', rfl⟩ := List.mem_map.mp hr
      show q (key (u.current r')) = true
      rw [u.key_current]
      exact hlocked r' (List.mem_filter.mp hr').1 hid
    · obtain ⟨x, _, rfl⟩ := List.mem_map.mp hr
      have hlt := hfresh _ hid
      omega

end OnCourse

end

/-! Runs, with the order in which the writers commit. -/

/-- The writer has done something and has not committed. -/
def AtWork (b : Body key σ) (w : Writer key σ) : Prop := w.phase ≠ .committed ∧ w ≠ .start b.1 b.2

/-- No two writers that are at work may change the same key. -/
def KeepApart (bodies : List (Body key σ)) (s : System key σ) : Prop :=
  (bodies.zip s.writers).Pairwise fun x y => AtWork x.1 x.2 → AtWork y.1 y.2 → ¬SharesKey x.1 y.1

inductive OrderedRun (interest : κ → Bool) (bodies : List (Body key σ)) (s₀ : System key σ) :
    List Nat → System key σ → Prop where
  | refl : OrderedRun interest bodies s₀ [] s₀
  | act {order : List Nat} {s s' : System key σ} {i : Nat} (hrun : OrderedRun interest bodies s₀ order s)
    (hact : s.advance interest i = some s') (hapart : KeepApart bodies s') :
    OrderedRun interest bodies s₀ (if (s.writers[i]?).any Writer.isSaved then order ++ [i] else order) s'

def bodyAt (bodies : List (Body key σ)) (i : Nat) : List (Statement key) := ((bodies[i]?).map Prod.fst).getD []

/-- The table after the writers of `order` have run one after the other. -/
def oneByOne (bodies : List (Body key σ)) (t : Table key) (order : List Nat) : Table key :=
  (order.flatMap (bodyAt bodies)).foldl Statement.run t

structure Serial (bodies : List (Body key σ)) (t : Table key) (order : List Nat) (s : System key σ) : Prop where
  rows : (s.store.rows.map Prod.snd).Perm (oneByOne bodies t order).rows
  course : List.Forall₂ (fun b w => w.save = b.2 ∧ (w.phase ≠ .committed → OnCourse (touched b) b.1 s.store w))
    bodies s.writers
  apart : KeepApart bodies s
  nodup : order.Nodup
  committed : ∀ i w, s.writers[i]? = some w → (w.phase = .committed ↔ i ∈ order)
  saved : ∀ i, order.getLast? = some i → ∃ b, bodies[i]? = some b ∧ ∃ total, s.store.saved = some (b.2 total)

theorem serial_opened (bodies : List (Body key σ)) (t : Table key) (saved : Option σ) :
    Serial bodies t [] (System.opened t.rows saved bodies) := by
  have hrows : (System.opened t.rows saved bodies).store.rows.map Prod.snd = t.rows := by
    simp [System.opened, Store.opened, Function.comp_def]
  refine ⟨by rw [hrows]; rfl, ?_, ?_, List.nodup_nil, ?_, by simp⟩
  · refine List.forall₂_map_right_iff.mpr (List.forall₂_same.mpr fun b _ => ⟨rfl, fun _ => OnCourse.start ?_ b⟩)
    have hkeys := t.keys_nodup
    rwa [← hrows, List.map_map] at hkeys
  · refine List.pairwise_iff_getElem.mpr fun i j hi hj _ hwork => absurd ?_ hwork.2
    simp [System.opened]
  · intro i w hw
    obtain ⟨b, _, rfl⟩ := List.mem_map.mp (List.mem_of_getElem? hw)
    simp [Writer.start]

theorem KeepApart.others {bpre bpost : List (Body key σ)} {b : Body key σ} {store : Store α σ}
    {pre post : List (Writer key σ)} {w : Writer key σ} (h : KeepApart (bpre ++ b :: bpost) ⟨store, pre ++ w :: post⟩)
    (hl : bpre.length = pre.length) (hw : AtWork b w) {c : Body key σ} {u : Writer key σ}
    (hcu : (c, u) ∈ bpre.zip pre ∨ (c, u) ∈ bpost.zip post) (hu : AtWork c u) : ¬SharesKey b c := by
  rw [KeepApart, List.zip_append hl, List.zip_cons_cons, List.pairwise_append, List.pairwise_cons] at h
  obtain ⟨_, ⟨hafter, _⟩, hbefore⟩ := h
  rcases hcu with hcu | hcu
  · rintro ⟨k, hb, hc⟩
    exact hbefore (c, u) hcu (b, w) List.mem_cons_self hu hw ⟨k, hc, hb⟩
  · exact hafter (c, u) hcu hw hu

theorem getElem?_replaced {A : Type} {l : List A} {a a' b : A} {i j : Nat} (ha : l[i]? = some a)
    (h : (l.take i ++ a' :: l.drop (i + 1))[j]? = some b) : j = i ∧ b = a' ∨ j ≠ i ∧ l[j]? = some b := by
  have hi : i < l.length := (List.getElem?_eq_some_iff.mp ha).1
  have hset : l.take i ++ a' :: l.drop (i + 1) = l.set i a' := by
    rw [List.set_eq_take_append_cons_drop, if_pos hi]
  rw [hset, List.getElem?_set] at h
  by_cases hj : i = j
  · rw [if_pos hj, if_pos hi] at h
    exact .inl ⟨hj.symm, (Option.some.inj h).symm⟩
  · rw [if_neg hj] at h
    exact .inr ⟨fun he => hj he.symm, h⟩

/-- After the commit of one writer, another that was at work goes on as before,
and one that was not begins from the new rows. -/
theorem course_commit {interest : κ → Bool} {b c : Body key σ} {s : Store α σ} {w u : Writer key σ}
    {total rowsThen : Nat}
    (C : OnCourse (touched b) b.1 s w) (hkeys : ((s.commit w interest total rowsThen).rows.map fun r => key r.2).Nodup)
    (D : OnCourse (touched c) c.1 s u) (hphase : u.phase ≠ .committed) (hsep : AtWork c u → ¬SharesKey b c) :
    OnCourse (touched c) c.1 (s.commit w interest total rowsThen) u := by
  by_cases hu : AtWork c u
  · refine D.of_commit C (fun k hk => ?_) total rowsThen
    cases hb : touched b k with
    | false => rfl
    | true => exact absurd ⟨k, hb, hk⟩ (hsep hu)
  · have hstart : u = .start c.1 c.2 := by
      by_contra hne
      exact hu ⟨hphase, hne⟩
    rw [hstart]
    exact OnCourse.start hkeys c

theorem Serial.advance {interest : κ → Bool} {bodies : List (Body key σ)} {t : Table key} {order : List Nat}
    {s s' : System key σ} {i : Nat} (S : Serial bodies t order s) (hact : s.advance interest i = some s')
    (hapart : KeepApart bodies s') :
    Serial bodies t (if (s.writers[i]?).any Writer.isSaved then order ++ [i] else order) s' := by
  obtain ⟨w, hw, hx⟩ := Option.bind_eq_some_iff.mp hact
  obtain ⟨⟨store, w'⟩, ha, rfl⟩ := Option.map_eq_some_iff.mp hx
  obtain ⟨hwriters, hlen⟩ := Host.getElem?_split hw
  obtain ⟨hworking, hsave'⟩ := act_save ha
  have hcourse := S.course.flip
  rw [hwriters] at hcourse
  obtain ⟨bpre, b, bpost, hbodies, hl, hpre, ⟨hsave, hC⟩, hpost⟩ := forall₂_middle_split hcourse
  have C := hC hworking
  have hnew : i ∉ order := fun hi => hworking ((S.committed i w hw).mpr hi)
  rw [hw, Option.any_some]
  cases hsaved : w.isSaved with
  | false =>
    obtain ⟨rfl, hphase, C'⟩ := C.act hsaved ha
    rw [if_neg Bool.false_ne_true]
    refine ⟨S.rows, ?_, hapart, S.nodup, fun j u hu => ?_, S.saved⟩
    · rw [hbodies]
      exact (forall₂_middle hpre ⟨hsave'.trans hsave, fun _ => C'⟩ hpost).flip
    · rcases getElem?_replaced hw hu with ⟨rfl, rfl⟩ | ⟨_, hj⟩
      · exact ⟨fun hc => absurd hc hphase, fun hi => absurd hi hnew⟩
      · exact S.committed j u hj
  | true =>
    obtain ⟨total, rowsThen, rfl, hphase⟩ := act_saved hsaved ha
    rw [if_pos rfl]
    have hat : bodies[i]? = some b := by
      rw [hbodies, ← hlen, hl]
      simp
    have hrows : ((s.store.commit w interest total rowsThen).rows.map Prod.snd).Perm
        (oneByOne bodies t (order ++ [i])).rows := by
      have hb : bodyAt bodies i = b.1 := by rw [bodyAt, hat]; rfl
      rw [oneByOne, List.flatMap_append, List.foldl_append, List.flatMap_singleton, hb]
      exact C.commit_perm (within_touched b) hsaved S.rows total rowsThen
    have hkeys : ((s.store.commit w interest total rowsThen).rows.map fun r => key r.2).Nodup := by
      have hh := (hrows.map key).nodup_iff.mpr (oneByOne bodies t (order ++ [i])).keys_nodup
      rwa [List.map_map] at hh
    have hwork : AtWork b w := by
      refine ⟨hworking, fun he => ?_⟩
      rw [he] at hsaved
      cases hsaved
    have hapart' : KeepApart (bpre ++ b :: bpost) ⟨s.store, s.writers.take i ++ w :: s.writers.drop (i + 1)⟩ := by
      rw [← hbodies, ← hwriters]
      exact S.apart
    refine ⟨hrows, ?_, hapart, ?_, fun j u hu => ?_, fun j he => ?_⟩
    · rw [hbodies]
      refine forall₂_middle ?_ ⟨hsave'.trans hsave, fun hne => absurd hphase hne⟩ ?_
      · have hh := List.forall₂_iff_zip.mp hpre.flip
        refine List.forall₂_iff_zip.mpr ⟨hh.1, fun {c u} hcu => ⟨(hh.2 hcu).1, fun hu => ?_⟩⟩
        exact course_commit C hkeys ((hh.2 hcu).2 hu) hu (hapart'.others hl.symm hwork (.inl hcu))
      · have hh := List.forall₂_iff_zip.mp hpost.flip
        refine List.forall₂_iff_zip.mpr ⟨hh.1, fun {c u} hcu => ⟨(hh.2 hcu).1, fun hu => ?_⟩⟩
        exact course_commit C hkeys ((hh.2 hcu).2 hu) hu (hapart'.others hl.symm hwork (.inr hcu))
    · rw [List.nodup_append]
      refine ⟨S.nodup, by simp, fun a ha c hc he => hnew ?_⟩
      rw [← List.mem_singleton.mp hc, ← he]
      exact ha
    · rcases getElem?_replaced hw hu with ⟨rfl, rfl⟩ | ⟨hne, hj⟩
      · simp [hphase]
      · rw [S.committed j u hj]
        simp [hne]
    · rw [List.getLast?_concat] at he
      obtain rfl := Option.some.inj he
      refine ⟨b, hat, total, ?_⟩
      rw [← hsave]
      rfl

theorem OrderedRun.serial {interest : κ → Bool} {bodies : List (Body key σ)} {t : Table key} {saved : Option σ}
    {order : List Nat} {s : System key σ} (h : OrderedRun interest bodies (System.opened t.rows saved bodies) order s) :
    Serial bodies t order s := by
  induction h with
  | refl => exact serial_opened bodies t saved
  | act _ hact hapart ih => exact ih.advance hact hapart

end AiPrReview.ReadCommitted
