import AiPrReview.Dedup
import AiPrReview.Words

/-! The body of a review as a text: a header, and for each severity a section
with one block for each of its findings. -/

namespace AiPrReview

theorem intercalate_append_sep (c : Char) {parts : List Text} (h : parts ≠ []) :
    joinWith [c] parts ++ [c] = parts.flatMap (· ++ [c]) := by
  induction parts with
  | nil => exact absurd rfl h
  | cons t ts ih =>
    cases ts with
    | nil => simp [joinWith, List.intercalate]
    | cons t' ts =>
      have hh := ih (by simp)
      rw [List.flatMap_cons, ← hh]
      simp [joinWith, List.intercalate, List.append_assoc]

def lineText (line : Text) : Text := line ++ ['\n']

def blockText (f : Finding) : Text := (findingLines f).flatMap lineText

def bucket (findings : List Finding) (severity : Severity) : List Finding :=
  findings.filter (·.severity = severity)

def headingText (severity : Severity) : Text := lineText ("### ".toList ++ upper severity.value)

def sectionText (findings : List Finding) (severity : Severity) : Text :=
  if bucket findings severity = [] then []
  else headingText severity ++ ((bucket findings severity).flatMap blockText ++ ['\n'])

def headerText : Text := "**Automated review**\n\n".toList

def pageText (findings : List Finding) : Text := headerText ++ severityOrder.flatMap (sectionText findings)

theorem severityLines_text (findings : List Finding) (severity : Severity) :
    (severityLines findings severity).flatMap lineText = sectionText findings severity := by
  unfold severityLines sectionText bucket
  dsimp only
  split_ifs with h
  · rfl
  · simp only [List.flatMap_append, List.flatMap_cons, List.flatMap_nil, List.append_nil,
      List.flatMap_assoc, List.append_assoc, lineText, headingText, List.nil_append]
    rfl

theorem renderReviewBody_eq {findings : List Finding} (h : findings ≠ []) :
    renderReviewBody findings = rstrip (pageText findings) ++ ['\n'] := by
  have hjoin : ∀ lines : List Text, lines ≠ [] →
      rstrip (joinWith ['\n'] lines) = rstrip (lines.flatMap lineText) := by
    intro lines hne
    have hsep : joinWith ['\n'] lines ++ ['\n'] = lines.flatMap lineText := intercalate_append_sep '\n' hne
    rw [← hsep]
    exact (List.rdropWhile_concat_pos isSpace _ '\n' (by decide)).symm
  rw [renderReviewBody, if_neg h]
  have hh := hjoin ("**Automated review**".toList :: [] :: severityOrder.flatMap (severityLines findings)) (by simp)
  refine congrArg (· ++ ['\n']) (hh.trans (congrArg rstrip ?_))
  simp only [List.flatMap_cons, List.flatMap_assoc, severityLines_text, pageText]
  rfl

/-! The solid part of a text: what is left of it without its white space. -/

def solid (t : Text) : Text := t.filter fun c => !isSpace c

@[simp] theorem solid_nil : solid [] = [] := rfl

@[simp] theorem solid_append (s t : Text) : solid (s ++ t) = solid s ++ solid t := List.filter_append ..

@[simp] theorem solid_rstrip (t : Text) : solid (rstrip t) = solid t := filter_rdropWhile isSpace t

theorem solid_flatMap {β : Type} (f : β → Text) (l : List β) :
    solid (l.flatMap f) = l.flatMap fun x => solid (f x) := by
  induction l with
  | nil => rfl
  | cons x l ih => rw [List.flatMap_cons, List.flatMap_cons, solid_append, ih]

/-! A block around the two decimals of its confidence. -/

def location (f : Finding) : Text :=
  match f.line with
  | none => f.file
  | some n => f.file ++ ':' :: intText n

def blockHead (f : Finding) : Text :=
  "- **".toList ++ f.title ++ "** — `".toList ++ location f ++ "` · confidence ".toList

def blockTail (f : Finding) : Text :=
  " · ".toList ++ f.agentType.value ++ '\n' ::
    ((splitlines f.rationale).map fun line => if line ≠ [] then "  > ".toList ++ line else "  >".toList).flatMap
      lineText

theorem blockText_eq (f : Finding) :
    blockText f = blockHead f ++ (fixed2 f.confidence.val ++ blockTail f) := by
  unfold blockText findingLines blockHead blockTail
  simp only [List.flatMap_cons, lineText, List.append_assoc, List.cons_append, List.nil_append]
  rfl

theorem intText_digit : ∀ d < 10, (intText (d : Nat)).length = 1 ∧ solid (intText (d : Nat)) = intText (d : Nat) := by
  decide

theorem fixed2_solid {q : ℚ} (h₀ : 0 ≤ q) (h₁ : q ≤ 1) :
    (fixed2 q).length = 4 ∧ solid (fixed2 q) = fixed2 q := by
  have hr : roundHalfEven (|q| * 100) ≤ 100 := roundHalfEven_le (by
    rw [abs_of_nonneg h₀]
    push_cast
    linarith)
  have hn : (roundHalfEven (|q| * 100)).toNat ≤ 100 := by omega
  unfold fixed2
  generalize (roundHalfEven (|q| * 100)).toNat = n at hn
  rw [if_neg (not_lt.mpr h₀)]
  have hunits := intText_digit (n / 100) (by omega)
  have htenths := intText_digit (n / 10 % 10) (by omega)
  have hhundredths := intText_digit (n % 10) (by omega)
  have hpoint : ∀ t : Text, solid ('.' :: t) = '.' :: solid t := fun t => List.filter_cons_of_pos (by decide)
  constructor
  · simp only [List.length_append, List.length_cons, List.length_nil, hunits.1, htenths.1, hhundredths.1]
  · rw [solid_append, solid_append, solid_nil, hpoint, solid_append, hunits.2, htenths.2, hhundredths.2]

theorem blockText_solid (f : Finding) : solid (blockText f) =
    solid (blockHead f) ++ (fixed2 f.confidence.val ++ solid (blockTail f)) := by
  rw [blockText_eq, solid_append, solid_append, (fixed2_solid f.confidence.nonneg f.confidence.le_one).2]

theorem exists_solid_blockText (f : Finding) : ∃ c ∈ blockText f, isSpace c = false := by
  refine ⟨'-', ?_, by decide⟩
  rw [blockText_eq]
  exact List.mem_cons_self

/-! Findings that differ in their confidence only. -/

section

variable {back : Finding → Finding}

theorem bucket_map (hsev : ∀ f, (back f).severity = f.severity) (findings : List Finding)
    (severity : Severity) : bucket (findings.map back) severity = (bucket findings severity).map back := by
  simp only [bucket, List.filter_map, Function.comp_def, hsev]

theorem solid_sectionText (findings : List Finding) (severity : Severity) :
    solid (sectionText findings severity) =
      if bucket findings severity = [] then []
      else solid (headingText severity) ++
        (bucket findings severity).flatMap fun f => solid (blockText f) := by
  unfold sectionText
  split_ifs with h
  · rfl
  · rw [solid_append, solid_append, solid_flatMap]
    exact congrArg _ (List.append_nil _)

theorem solid_sectionText_map (hsev : ∀ f, (back f).severity = f.severity) (findings : List Finding)
    (severity : Severity) : solid (sectionText (findings.map back) severity) =
      if bucket findings severity = [] then []
      else solid (headingText severity) ++
        (bucket findings severity).flatMap fun f => solid (blockText (back f)) := by
  rw [solid_sectionText, bucket_map hsev, List.flatMap_map]
  simp only [List.map_eq_nil_iff]

variable (hsev : ∀ f, (back f).severity = f.severity) (hhead : ∀ f, blockHead (back f) = blockHead f)
  (htail : ∀ f, blockTail (back f) = blockTail f)

include hhead htail in
theorem length_solid_blockText (f : Finding) :
    (solid (blockText (back f))).length = (solid (blockText f)).length := by
  rw [blockText_solid, blockText_solid, hhead, htail]
  simp only [List.length_append, (fixed2_solid (back f).confidence.nonneg (back f).confidence.le_one).1,
    (fixed2_solid f.confidence.nonneg f.confidence.le_one).1]

include hsev hhead htail

theorem length_solid_sectionText (findings : List Finding) (s : Severity) :
    (solid (sectionText (findings.map back) s)).length = (solid (sectionText findings s)).length := by
  rw [solid_sectionText_map hsev, solid_sectionText]
  split_ifs
  · rfl
  · simp only [List.length_append, List.length_flatMap, length_solid_blockText hhead htail]

theorem length_solid_pageText (findings : List Finding) :
    (solid (pageText (findings.map back))).length = (solid (pageText findings)).length := by
  simp only [pageText, solid_append, solid_flatMap, List.length_append, List.length_flatMap,
    length_solid_sectionText hsev hhead htail]

theorem fixed2_eq_of_page {findings : List Finding}
    (h : solid (pageText (findings.map back)) = solid (pageText findings)) :
    ∀ f ∈ findings, fixed2 (back f).confidence.val = fixed2 f.confidence.val := by
  rw [pageText, pageText, solid_append, solid_append, solid_flatMap, solid_flatMap] at h
  intro f hf
  have hs : solid (sectionText (findings.map back) f.severity) = solid (sectionText findings f.severity) :=
    eq_of_flatMap_eq (fun s _ => length_solid_sectionText hsev hhead htail findings s)
      (List.append_cancel_left h) f.severity (by cases f.severity <;> decide)
  have hmem : f ∈ bucket findings f.severity := List.mem_filter.mpr ⟨hf, by simp⟩
  rw [solid_sectionText_map hsev, solid_sectionText, if_neg (List.ne_nil_of_mem hmem),
    if_neg (List.ne_nil_of_mem hmem)] at hs
  have hb := eq_of_flatMap_eq (fun g _ => length_solid_blockText hhead htail g)
    (List.append_cancel_left hs) f hmem
  rw [blockText_solid, blockText_solid, hhead] at hb
  refine (List.append_inj (List.append_cancel_left hb) ?_).1
  rw [(fixed2_solid (back f).confidence.nonneg (back f).confidence.le_one).1,
    (fixed2_solid f.confidence.nonneg f.confidence.le_one).1]

end

/-! A page that lacks a finding is shorter, white space apart. -/

theorem length_eq_sum_buckets (findings : List Finding) :
    findings.length = (severityOrder.map fun s => (bucket findings s).length).sum := by
  induction findings with
  | nil => rfl
  | cons f fs ih =>
    simp only [severityOrder, List.map_cons, List.map_nil, List.sum_cons, List.sum_nil, bucket] at ih ⊢
    cases hs : f.severity <;> simp [hs] <;> omega

theorem sum_add_length_le {β : Type} {w : β → Nat} (hw : ∀ x, 1 ≤ w x) {l l' : List β} (h : l.Sublist l') :
    (l.map w).sum + l'.length ≤ (l'.map w).sum + l.length := by
  induction h with
  | slnil => exact Nat.le_refl _
  | cons a _ ih =>
    have ha := hw a
    simp only [List.map_cons, List.sum_cons, List.length_cons]
    omega
  | cons_cons a _ ih =>
    simp only [List.map_cons, List.sum_cons, List.length_cons]
    omega

theorem solid_blockText_pos (f : Finding) : 1 ≤ (solid (blockText f)).length := by
  obtain ⟨c, hc, hp⟩ := exists_solid_blockText f
  exact List.length_pos_of_mem (List.mem_filter.mpr ⟨hc, by simp [hp]⟩)

theorem section_add_length_le {findings findings' : List Finding} (h : findings.Sublist findings')
    (s : Severity) : (solid (sectionText findings s)).length + (bucket findings' s).length ≤
      (solid (sectionText findings' s)).length + (bucket findings s).length := by
  have hsub : (bucket findings s).Sublist (bucket findings' s) := h.filter _
  have hsum := sum_add_length_le solid_blockText_pos hsub
  rw [solid_sectionText, solid_sectionText]
  by_cases he : bucket findings s = []
  · rw [if_pos he, he]
    rw [he] at hsum
    split_ifs with he'
    · simp [he']
    · simp only [List.length_append, List.length_flatMap, List.length_nil, List.map_nil, List.sum_nil] at hsum ⊢
      omega
  · have he' : bucket findings' s ≠ [] := by
      intro hnil
      rw [hnil] at hsub
      exact he (List.sublist_nil.mp hsub)
    rw [if_neg he, if_neg he']
    simp only [List.length_append, List.length_flatMap] at hsum ⊢
    omega

theorem solid_pageText_lt {findings findings' : List Finding} (h : findings.Sublist findings')
    (hlt : findings.length < findings'.length) :
    (solid (pageText findings)).length < (solid (pageText findings')).length := by
  rw [length_eq_sum_buckets findings, length_eq_sum_buckets findings'] at hlt
  simp only [pageText, solid_append, solid_flatMap, List.length_append, List.length_flatMap]
  have h₁ := section_add_length_le h .critical
  have h₂ := section_add_length_le h .high
  have h₃ := section_add_length_le h .medium
  have h₄ := section_add_length_le h .low
  have h₅ := section_add_length_le h .info
  simp only [severityOrder, List.map_cons, List.map_nil, List.sum_cons, List.sum_nil] at hlt ⊢
  omega

/-! The order of the findings. -/

theorem pageText_congr {findings findings' : List Finding}
    (h : ∀ s, (bucket findings s).flatMap blockText = (bucket findings' s).flatMap blockText)
    (hnil : ∀ s, bucket findings s = [] ↔ bucket findings' s = []) : pageText findings = pageText findings' := by
  have hs : sectionText findings = sectionText findings' := by
    funext s
    simp only [sectionText, h s, hnil s]
  rw [pageText, pageText, hs]

theorem pageText_of_perm {findings findings' : List Finding} (h : findings.Perm findings')
    (hc : ∀ f ∈ findings, ∀ g ∈ findings, f.severity = g.severity →
      blockText f ++ blockText g = blockText g ++ blockText f) : pageText findings = pageText findings' := by
  refine pageText_congr (fun s => flatMap_eq_of_perm (h.filter _) fun f hf g hg => ?_) fun s => ?_
  · obtain ⟨hf, hfs⟩ := List.mem_filter.mp hf
    obtain ⟨hg, hgs⟩ := List.mem_filter.mp hg
    have he : f.severity = g.severity := by simpa using (of_decide_eq_true hfs).trans (of_decide_eq_true hgs).symm
    exact hc f hf g hg he
  · have hp : (bucket findings s).Perm (bucket findings' s) := h.filter _
    rw [← List.length_eq_zero_iff, ← List.length_eq_zero_iff, hp.length_eq]

theorem pageText_cons_cons {f g : Finding} (hs : f.severity = g.severity) (rest : List Finding) :
    ∃ pre post, pageText (f :: g :: rest) = pre ++ (blockText f ++ blockText g ++ post) ∧
      pageText (g :: f :: rest) = pre ++ (blockText g ++ blockText f ++ post) := by
  obtain ⟨before, after, horder⟩ : ∃ before after, severityOrder = before ++ g.severity :: after :=
    List.append_of_mem (by cases g.severity <;> decide)
  have hn : severityOrder.Nodup := by decide
  rw [horder, List.nodup_append] at hn
  obtain ⟨_, hafter, hbefore⟩ := hn
  have hother : ∀ {f g : Finding} {s : Severity}, s ≠ f.severity → s ≠ g.severity →
      sectionText (f :: g :: rest) s = sectionText rest s := by
    intro f g s hf hg
    have hb : bucket (f :: g :: rest) s = bucket rest s := by
      simp only [bucket, List.filter_cons, Ne.symm hf, Ne.symm hg, decide_false,
        Bool.false_eq_true, if_false]
    rw [sectionText, sectionText, hb]
  have hsection : ∀ {f g : Finding}, f.severity = g.severity → sectionText (f :: g :: rest) g.severity =
      headingText g.severity ++ (blockText f ++ blockText g ++
        ((bucket rest g.severity).flatMap blockText ++ ['\n'])) := by
    intro f g hs
    simp only [sectionText, bucket, List.filter_cons, hs, decide_true, if_true, reduceCtorEq, if_false,
      List.flatMap_cons, List.append_assoc]
  have hpage : ∀ {f' g' : Finding}, f'.severity = g.severity → g'.severity = g.severity →
      pageText (f' :: g' :: rest) = (headerText ++ (before.flatMap (sectionText rest) ++ headingText g.severity)) ++
        (blockText f' ++ blockText g' ++ (((bucket rest g.severity).flatMap blockText ++ ['\n']) ++
          after.flatMap (sectionText rest))) := by
    intro f' g' hf' hg'
    have hb : before.flatMap (sectionText (f' :: g' :: rest)) = before.flatMap (sectionText rest) := by
      refine List.flatMap_congr fun s hs' => ?_
      have hne : s ≠ g.severity := hbefore s hs' g.severity (by simp)
      exact hother (hf' ▸ hne) (hg' ▸ hne)
    have ha : after.flatMap (sectionText (f' :: g' :: rest)) = after.flatMap (sectionText rest) := by
      refine List.flatMap_congr fun s hs' => ?_
      have hne : s ≠ g.severity := fun he => (List.nodup_cons.mp hafter).1 (he ▸ hs')
      exact hother (hf' ▸ hne) (hg' ▸ hne)
    have hm := hsection (hf'.trans hg'.symm)
    rw [hg'] at hm
    rw [pageText, horder, List.flatMap_append, List.flatMap_cons, hb, ha, hm]
    simp only [List.append_assoc]
  exact ⟨_, _, hpage hs rfl, hpage rfl hs⟩

theorem blockText_comm_of_swap {f g : Finding} (hs : f.severity = g.severity) {rest : List Finding}
    (h : rstrip (pageText (f :: g :: rest)) = rstrip (pageText (g :: f :: rest))) :
    blockText f ++ blockText g = blockText g ++ blockText f := by
  obtain ⟨pre, post, hfg, hgf⟩ := pageText_cons_cons hs rest
  have hsolid : ∀ u v t : Text, (∃ c ∈ u, isSpace c = false) → ∃ c ∈ u ++ v ++ t, isSpace c = false := by
    rintro u v t ⟨c, hc, hp⟩
    exact ⟨c, by simp [hc], hp⟩
  rw [hfg, hgf, rstrip, rstrip, rdropWhile_append_of_solid (hsolid _ _ _ (exists_solid_blockText f)),
    rdropWhile_append_of_solid (hsolid _ _ _ (exists_solid_blockText g))] at h
  exact append_comm_of_rdropWhile (exists_solid_blockText f) (exists_solid_blockText g)
    (List.append_cancel_left h)

end AiPrReview
