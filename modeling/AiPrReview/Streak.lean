import Mathlib.Data.List.Induction
import Mathlib.Order.Defs.LinearOrder

/-! Reports of success and failure in time, and the lock that a streak of
failures closes for a while. -/

namespace AiPrReview.Streak

variable {τ : Type}

inductive Report (τ : Type) : Type where
  | success
  | failure (time : τ)
  deriving DecidableEq

/-- The times of the failures since the last success. -/
def streak (reports : List (Report τ)) : List τ :=
  reports.foldl (fun times r => match r with
    | .success => []
    | .failure t => times ++ [t]) []

@[simp] theorem streak_nil : streak ([] : List (Report τ)) = [] := rfl

@[simp] theorem streak_success (reports : List (Report τ)) : streak (reports ++ [.success]) = [] := by
  simp [streak]

@[simp] theorem streak_failure (reports : List (Report τ)) (t : τ) :
    streak (reports ++ [.failure t]) = streak reports ++ [t] := by
  simp [streak]

theorem exists_streak (reports : List (Report τ)) :
    ∃ older, reports = older ++ (streak reports).map .failure := by
  induction reports using List.reverseRecOn with
  | nil => exact ⟨[], rfl⟩
  | append_singleton reports r ih =>
    cases r with
    | success => exact ⟨reports ++ [.success], by simp⟩
    | failure t =>
      obtain ⟨older, hsplit⟩ := ih
      refine ⟨older, ?_⟩
      rw [streak_failure, List.map_append, ← List.append_assoc, ← hsplit]
      rfl

theorem streak_append_failures (reports : List (Report τ)) (times : List τ) :
    streak (reports ++ times.map .failure) = streak reports ++ times := by
  induction times using List.reverseRecOn with
  | nil => simp
  | append_singleton times t ih =>
    rw [List.map_append, ← List.append_assoc, List.map_singleton, streak_failure, ih, List.append_assoc]

/-- When the lock closed: at the latest of `threshold` failures in a row. -/
def lockedSince (threshold : Nat) (reports : List (Report τ)) : Option τ :=
  if threshold ≤ (streak reports).length then (streak reports).getLast? else none

theorem lockedSince_eq_some_iff {threshold : Nat} {reports : List (Report τ)} {t : τ} :
    lockedSince threshold reports = some t ↔ ∃ (older : List (Report τ)) (times : List τ),
      reports = older ++ times.map .failure ∧ threshold ≤ times.length ∧ times.getLast? = some t := by
  constructor
  · intro h
    unfold lockedSince at h
    split_ifs at h with hlen
    obtain ⟨older, hsplit⟩ := exists_streak reports
    exact ⟨older, _, hsplit, hlen, h⟩
  · rintro ⟨older, times, rfl, hlen, hlast⟩
    have hle : threshold ≤ (streak older ++ times).length := by
      rw [List.length_append]
      omega
    rw [lockedSince, streak_append_failures, if_pos hle, List.getLast?_append, hlast]
    rfl

/-- At `now` the lock is closed. -/
def Locked [Sub τ] [LT τ] (threshold : Nat) (cooldown : τ) (reports : List (Report τ)) (now : τ) : Prop :=
  ∃ (older : List (Report τ)) (times : List τ) (t : τ), reports = older ++ times.map .failure ∧
    threshold ≤ times.length ∧ times.getLast? = some t ∧ now - t < cooldown

theorem locked_iff [Sub τ] [LT τ] {threshold : Nat} {cooldown : τ} {reports : List (Report τ)} {now : τ} :
    Locked threshold cooldown reports now ↔
      ∃ t, lockedSince threshold reports = some t ∧ now - t < cooldown := by
  constructor
  · rintro ⟨older, times, t, hsplit, hlen, hlast, hlt⟩
    exact ⟨t, lockedSince_eq_some_iff.mpr ⟨older, times, hsplit, hlen, hlast⟩, hlt⟩
  · rintro ⟨t, hsince, hlt⟩
    obtain ⟨older, times, hsplit, hlen, hlast⟩ := lockedSince_eq_some_iff.mp hsince
    exact ⟨older, times, t, hsplit, hlen, hlast, hlt⟩

instance [Sub τ] [LT τ] [DecidableLT τ] {threshold : Nat} {cooldown : τ} {reports : List (Report τ)} {now : τ} :
    Decidable (Locked threshold cooldown reports now) :=
  decidable_of_iff (∃ t ∈ lockedSince threshold reports, now - t < cooldown) locked_iff.symm

/-! A counter and a timestamp are enough to tell. -/

structure Tally (τ : Type) : Type where
  count : Nat
  since : Option τ

def Tally.report (threshold : Nat) (s : Tally τ) : Report τ → Tally τ
  | .success => ⟨0, none⟩
  | .failure t => ⟨s.count + 1, if threshold ≤ s.count + 1 then some t else s.since⟩

def tally (threshold : Nat) (reports : List (Report τ)) : Tally τ :=
  ⟨(streak reports).length, lockedSince threshold reports⟩

@[simp] theorem tally_nil (threshold : Nat) : tally threshold ([] : List (Report τ)) = ⟨0, none⟩ := by
  simp [tally, lockedSince]

theorem tally_concat (threshold : Nat) (reports : List (Report τ)) (r : Report τ) :
    tally threshold (reports ++ [r]) = (tally threshold reports).report threshold r := by
  cases r with
  | success => simp [tally, lockedSince, Tally.report]
  | failure t =>
    have hlen : (streak (reports ++ [.failure t])).length = (streak reports).length + 1 := by simp
    by_cases h : threshold ≤ (streak reports).length + 1
    · simp [tally, lockedSince, Tally.report, h]
    · have hlt : ¬threshold ≤ (streak reports).length := by omega
      simp [tally, lockedSince, Tally.report, h, hlt]

end AiPrReview.Streak
