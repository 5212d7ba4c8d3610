import AiPrReview.Dedup
import Mathlib.Data.Prod.Lex

/-! What `dedup_findings` returns: which findings survive, in which order, and
what is left of them on a second pass. -/

namespace AiPrReview

section

variable {α : Type} {le : α → α → Bool}

theorem pairwise_ties_mergeSort {R : α → α → Prop}
    (trans : ∀ a b c : α, le a b = true → le b c = true → le a c = true)
    (total : ∀ a b : α, (le a b || le b a) = true) {l : List α} (h : l.Pairwise R) :
    (l.mergeSort le).Pairwise fun a b => le b a = true → R a b := by
  induction l with
  | nil => simp
  | cons a l ih =>
    obtain ⟨hal, hl⟩ := List.pairwise_cons.mp h
    obtain ⟨l₁, l₂, hcons, hsort, hlt⟩ := List.mergeSort_cons trans total a l
    have hs := ih hl
    have hmem : ∀ b ∈ l₁ ++ l₂, b ∈ l := by
      intro b hb
      rw [← hsort] at hb
      exact List.mem_mergeSort.mp hb
    rw [hsort, List.pairwise_append] at hs
    obtain ⟨h₁, h₂, h₁₂⟩ := hs
    rw [hcons, List.pairwise_append]
    refine ⟨h₁, List.pairwise_cons.mpr ⟨fun b hb _ => hal b (hmem b (by simp [hb])), h₂⟩, ?_⟩
    intro b hb c hc hcb
    rcases List.mem_cons.mp hc with rfl | hc
    · have hh := hlt b hb
      rw [hcb] at hh
      simp at hh
    · exact h₁₂ b hb c hc hcb

end

section

variable {α κ : Type} [DecidableEq κ]

theorem mem_keys_groupsOf_iff {key : α → κ} {l : List α} {k : κ} :
    k ∈ (groupsOf key l).map Prod.fst ↔ k ∈ l.map key := by
  constructor
  · intro h
    obtain ⟨⟨k', as⟩, hg, rfl⟩ := List.mem_map.mp h
    obtain ⟨hne, has⟩ := mem_groupsOf_iff.mp hg
    obtain ⟨a, ha⟩ := List.exists_mem_of_ne_nil as hne
    rw [has, List.mem_filter] at ha
    exact List.mem_map.mpr ⟨a, ha.1, by simpa using ha.2⟩
  · intro h
    obtain ⟨a, ha, rfl⟩ := List.mem_map.mp h
    refine List.mem_map.mpr ⟨(key a, _), mem_groupsOf_iff.mpr ⟨?_, rfl⟩, rfl⟩
    exact List.ne_nil_of_mem (List.mem_filter.mpr ⟨ha, by simp⟩)

theorem findIdx_key_append {key : α → κ} {l : List α} {k : κ} (h : k ∈ l.map key) (a : α) :
    (l ++ [a]).findIdx (fun b => key b = k) = l.findIdx (fun b => key b = k) ∧
      l.findIdx (fun b => key b = k) < l.length := by
  obtain ⟨b, hb, rfl⟩ := List.mem_map.mp h
  have hlt : l.findIdx (fun b' => key b' = key b) < l.length :=
    List.findIdx_lt_length.mpr ⟨b, hb, by simp⟩
  exact ⟨by rw [List.findIdx_append, if_pos hlt], hlt⟩

theorem groupsOf_keys_inOrder (key : α → κ) (l : List α) :
    ((groupsOf key l).map Prod.fst).Pairwise fun k k' =>
      l.findIdx (fun b => key b = k) < l.findIdx (fun b => key b = k') := by
  induction l using List.reverseRecOn with
  | nil => simp [groupsOf]
  | append_singleton l a ih =>
    have hold : ((groupsOf key l).map Prod.fst).Pairwise fun k k' =>
        (l ++ [a]).findIdx (fun b => key b = k) < (l ++ [a]).findIdx (fun b => key b = k') := by
      refine List.Pairwise.imp_of_mem ?_ ih
      intro k k' hk hk' hlt
      rw [(findIdx_key_append (mem_keys_groupsOf_iff.mp hk) a).1,
        (findIdx_key_append (mem_keys_groupsOf_iff.mp hk') a).1]
      exact hlt
    rw [groupsOf_concat, keys_addTo]
    split_ifs with hin
    · exact hold
    · rw [List.pairwise_append]
      refine ⟨hold, by simp, ?_⟩
      intro k hk k' hk'
      obtain rfl := List.mem_singleton.mp hk'
      obtain ⟨hpos, hlt⟩ := findIdx_key_append (mem_keys_groupsOf_iff.mp hk) a
      have hnew : ¬l.findIdx (fun b => key b = key a) < l.length := by
        rw [List.findIdx_lt_length]
        rintro ⟨b, hb, he⟩
        exact hin (mem_keys_groupsOf_iff.mpr (List.mem_map.mpr ⟨b, hb, by simpa using he⟩))
      rw [hpos, List.findIdx_append, if_neg hnew]
      omega

theorem groupsOf_eq_singletons {key : α → κ} {l : List α} (h : (l.map key).Nodup) :
    groupsOf key l = l.map fun a => (key a, [a]) := by
  induction l using List.reverseRecOn with
  | nil => rfl
  | append_singleton l a ih =>
    rw [List.map_append, List.nodup_append] at h
    obtain ⟨hl, _, hdis⟩ := h
    have hnew : ∀ g ∈ groupsOf key l, g.1 ≠ key a := by
      intro g hg he
      have hk := mem_keys_groupsOf_iff.mp (List.mem_map.mpr ⟨g, hg, rfl⟩)
      exact hdis _ hk _ (by simp) he
    have hadd : ∀ gs : List (κ × List α), (∀ g ∈ gs, g.1 ≠ key a) →
        addTo (key a) a gs = gs ++ [(key a, [a])] := by
      intro gs hgs
      induction gs with
      | nil => rfl
      | cons g gs ihg =>
        obtain ⟨k, as⟩ := g
        have hk : k ≠ key a := hgs (k, as) (by simp)
        rw [addTo, if_neg hk, ihg fun g hg => hgs g (by simp [hg]), List.cons_append]
    rw [groupsOf_concat, hadd _ hnew, ih hl, List.map_append]
    rfl

end

/-! The survivors, their notes and their order. -/

def sortKey (f : Finding) : ℕ ×ₗ Text ×ₗ ℤ := toLex (f.severity.rank, toLex (f.file, f.line.getD 0))

/-- `f` is the first most confident finding of its place. -/
def WinsSpot (findings : List Finding) (f : Finding) : Prop :=
  ∃ pre post, findings = pre ++ f :: post ∧
    (∀ g ∈ pre, g.spot = f.spot → g.confidence.val < f.confidence.val) ∧
    ∀ g ∈ post, g.spot = f.spot → g.confidence.val ≤ f.confidence.val

/-- `others` names, in sorted order, the other agents that flagged the place of `f`. -/
structure NamesOthers (findings : List Finding) (f : Finding) (others : List Text) : Prop where
  sorted : others.Pairwise (· < ·)
  names : ∀ t, t ∈ others ↔ ∃ g ∈ findings, g.spot = f.spot ∧ g.agentType ≠ f.agentType ∧ t = g.agentType.value

def noted (f : Finding) (others : List Text) : Finding :=
  if others = [] then f else { f with rationale := f.rationale ++ agreementNote others }

theorem sortsBefore_iff {f g : Finding} : sortsBefore f g = true ↔ sortKey f ≤ sortKey g := by
  simp only [sortsBefore, sortKey, Prod.Lex.toLex_le_toLex, Bool.or_eq_true, Bool.and_eq_true,
    decide_eq_true_eq, beq_iff_eq]

theorem sortsBefore_trans (f g h : Finding) (hfg : sortsBefore f g = true) (hgh : sortsBefore g h = true) :
    sortsBefore f h = true :=
  sortsBefore_iff.mpr ((sortsBefore_iff.mp hfg).trans (sortsBefore_iff.mp hgh))

theorem sortsBefore_total (f g : Finding) : (sortsBefore f g || sortsBefore g f) = true := by
  rw [Bool.or_eq_true, sortsBefore_iff, sortsBefore_iff]
  exact le_total _ _

theorem AgentType.value_inj {a b : AgentType} (h : a.value = b.value) : a = b := by
  cases a <;> cases b <;> first | rfl | exact absurd h (by decide)

theorem mem_otherAgents_iff {winner : Finding} {group : List Finding} {t : Text} :
    t ∈ otherAgents winner group ↔ ∃ g ∈ group, g.agentType ≠ winner.agentType ∧ t = g.agentType.value := by
  simp only [otherAgents, List.mem_mergeSort, List.mem_map, List.mem_filter, List.mem_dedup, decide_eq_true_eq]
  constructor
  · rintro ⟨a, ⟨⟨g, hg, rfl⟩, hne⟩, rfl⟩
    exact ⟨g, hg, hne, rfl⟩
  · rintro ⟨g, hg, hne, rfl⟩
    exact ⟨_, ⟨⟨g, hg, rfl⟩, hne⟩, rfl⟩

theorem otherAgents_sorted (winner : Finding) (group : List Finding) :
    (otherAgents winner group).Pairwise (· < ·) := by
  have hle : (otherAgents winner group).Pairwise (· ≤ ·) := by
    refine List.Pairwise.imp ?_ (List.pairwise_mergeSort ?_ ?_ _)
    · intro a b h
      exact of_decide_eq_true h
    · intro a b c hab hbc
      exact decide_eq_true ((of_decide_eq_true hab).trans (of_decide_eq_true hbc))
    · intro a b
      rw [Bool.or_eq_true]
      exact (le_total a b).imp (decide_eq_true ·) (decide_eq_true ·)
  have hnd : (otherAgents winner group).Nodup := by
    rw [otherAgents, (List.mergeSort_perm _ _).nodup_iff]
    exact (List.Nodup.filter _ (List.nodup_dedup _)).map fun a b h => AgentType.value_inj h
  refine (hle.and hnd).imp ?_
  rintro a b ⟨hab, hne⟩
  exact lt_of_le_of_ne hab hne

theorem namesOthers_iff {findings : List Finding} {f : Finding} {others : List Text} :
    NamesOthers findings f others ↔ others = otherAgents f (findings.filter (·.spot = f.spot)) := by
  have hnames : NamesOthers findings f (otherAgents f (findings.filter (·.spot = f.spot))) := by
    refine ⟨otherAgents_sorted _ _, fun t => ?_⟩
    simp [mem_otherAgents_iff, and_assoc]
  constructor
  · intro h
    have hp : others.Perm (otherAgents f (findings.filter (·.spot = f.spot))) := by
      rw [List.perm_ext_iff_of_nodup (h.sorted.imp ne_of_lt) (hnames.sorted.imp ne_of_lt)]
      intro t
      rw [h.names, hnames.names]
    exact hp.eq_of_pairwise (fun a b _ _ hab hba => absurd (hab.trans hba) (lt_irrefl _)) h.sorted hnames.sorted
  · rintro rfl
    exact hnames

theorem withAgreement_eq_noted {winner : Finding} {group : List Finding} (hw : winner ∈ group) :
    withAgreement winner group = noted winner (otherAgents winner group) := by
  by_cases hlen : group.length > 1
  · simp only [withAgreement, hlen, if_true, noted, ne_eq, ite_not]
  · have hone : group = [winner] := by
      obtain ⟨pre, post, rfl⟩ := List.append_of_mem hw
      simp only [List.length_append, List.length_cons] at hlen
      have hpre : pre = [] := List.length_eq_zero_iff.mp (by omega)
      have hpost : post = [] := List.length_eq_zero_iff.mp (by omega)
      rw [hpre, hpost, List.nil_append]
    have hothers : otherAgents winner group = [] := by
      rw [List.eq_nil_iff_forall_not_mem]
      intro t ht
      obtain ⟨g, hg, hne, _⟩ := mem_otherAgents_iff.mp ht
      rw [hone, List.mem_singleton] at hg
      exact hne (congrArg _ hg)
    simp [withAgreement, hlen, noted, hothers]

theorem noted_spot (f : Finding) (others : List Text) : (noted f others).spot = f.spot := by
  unfold noted
  split_ifs <;> rfl

theorem mem_dedupFindings_iff_noted {findings : List Finding} {f : Finding} :
    f ∈ dedupFindings findings ↔ ∃ winner others, WinsSpot findings winner ∧
      NamesOthers findings winner others ∧ f = noted winner others := by
  rw [mem_dedupFindings_iff]
  constructor
  · rintro ⟨pre, winner, post, hsplit, hpre, hpost, rfl⟩
    have hw : winner ∈ findings.filter (·.spot = winner.spot) := by simp [hsplit]
    exact ⟨winner, _, ⟨pre, post, hsplit, hpre, hpost⟩, namesOthers_iff.mpr rfl, withAgreement_eq_noted hw⟩
  · rintro ⟨winner, others, ⟨pre, post, hsplit, hpre, hpost⟩, hothers, rfl⟩
    have hw : winner ∈ findings.filter (·.spot = winner.spot) := by simp [hsplit]
    refine ⟨pre, winner, post, hsplit, hpre, hpost, ?_⟩
    rw [withAgreement_eq_noted hw, namesOthers_iff.mp hothers]

def groupWinners (findings : List Finding) : List Finding :=
  (groupsOf Finding.spot findings).filterMap fun g => groupWinner g.2

theorem spots_groupWinners (findings : List Finding) :
    (groupWinners findings).map Finding.spot = (groupsOf Finding.spot findings).map Prod.fst := by
  have hspot : ∀ g ∈ groupsOf Finding.spot findings, ∃ f, groupWinner g.2 = some f ∧ f.spot = g.1 := by
    rintro ⟨k, as⟩ hg
    obtain ⟨hne, has⟩ := mem_groupsOf_iff.mp hg
    cases hw : as.argmax (·.confidence.val) with
    | none => exact absurd (List.argmax_eq_none.mp hw) hne
    | some w =>
      have hmem : w ∈ as := List.argmax_mem hw
      refine ⟨withAgreement w as, by simp [groupWinner, hw], ?_⟩
      rw [withAgreement_eq_noted hmem, noted_spot]
      rw [has, List.mem_filter] at hmem
      simpa using hmem.2
  unfold groupWinners
  generalize groupsOf Finding.spot findings = gs at hspot
  induction gs with
  | nil => rfl
  | cons g gs ih =>
    obtain ⟨f, hf, hs⟩ := hspot g (List.mem_cons_self)
    rw [List.filterMap_cons, hf, List.map_cons, List.map_cons, hs,
      ih fun g' hg' => hspot g' (List.mem_cons_of_mem _ hg')]

theorem spots_dedupFindings_perm (findings : List Finding) :
    ((dedupFindings findings).map Finding.spot).Perm ((groupsOf Finding.spot findings).map Prod.fst) := by
  rw [← spots_groupWinners]
  exact (List.mergeSort_perm _ _).map _

theorem spots_dedupFindings_nodup (findings : List Finding) :
    ((dedupFindings findings).map Finding.spot).Nodup :=
  (spots_dedupFindings_perm findings).nodup_iff.mpr (groupsOf_keys_nodup _ _)

theorem dedupFindings_sorted (findings : List Finding) :
    (dedupFindings findings).Pairwise fun f g => sortKey f ≤ sortKey g :=
  (List.pairwise_mergeSort sortsBefore_trans sortsBefore_total _).imp sortsBefore_iff.mp

theorem dedupFindings_ties (findings : List Finding) :
    (dedupFindings findings).Pairwise fun f g => sortKey f = sortKey g →
      findings.findIdx (·.spot = f.spot) < findings.findIdx (·.spot = g.spot) := by
  have horder : (groupWinners findings).Pairwise fun f g =>
      findings.findIdx (·.spot = f.spot) < findings.findIdx (·.spot = g.spot) := by
    have hh := groupsOf_keys_inOrder Finding.spot findings
    rw [← spots_groupWinners, List.pairwise_map] at hh
    exact hh
  refine (pairwise_ties_mergeSort sortsBefore_trans sortsBefore_total horder).imp ?_
  intro f g hfg he
  exact hfg (sortsBefore_iff.mpr he.ge)

theorem dedupFindings_eq_self {findings : List Finding} (hn : (findings.map Finding.spot).Nodup)
    (hs : findings.Pairwise fun f g => sortKey f ≤ sortKey g) : dedupFindings findings = findings := by
  have hwinners : groupWinners findings = findings := by
    have hone : ∀ f : Finding, groupWinner [f] = some f := fun f => by simp [groupWinner, withAgreement]
    rw [groupWinners, groupsOf_eq_singletons hn, List.filterMap_map]
    simp only [Function.comp_def, hone, List.filterMap_some]
  show (groupWinners findings).mergeSort sortsBefore = findings
  rw [hwinners]
  exact List.mergeSort_of_pairwise (hs.imp sortsBefore_iff.mpr)

theorem dedupFindings_spec (findings : List Finding) :
    ((dedupFindings findings).map Finding.spot).Nodup ∧
    (∀ spot, spot ∈ (dedupFindings findings).map Finding.spot ↔ spot ∈ findings.map Finding.spot) ∧
    (∀ f, f ∈ dedupFindings findings ↔ ∃ winner others, WinsSpot findings winner ∧
      NamesOthers findings winner others ∧ f = noted winner others) ∧
    ((dedupFindings findings).Pairwise fun f g => sortKey f ≤ sortKey g) ∧
    ((dedupFindings findings).Pairwise fun f g => sortKey f = sortKey g →
      findings.findIdx (·.spot = f.spot) < findings.findIdx (·.spot = g.spot)) ∧
    dedupFindings (dedupFindings findings) = dedupFindings findings := by
  refine ⟨spots_dedupFindings_nodup findings, ?_, fun f => mem_dedupFindings_iff_noted,
    dedupFindings_sorted findings, dedupFindings_ties findings,
    dedupFindings_eq_self (spots_dedupFindings_nodup findings) (dedupFindings_sorted findings)⟩
  intro spot
  rw [(spots_dedupFindings_perm findings).mem_iff, mem_keys_groupsOf_iff]

end AiPrReview
