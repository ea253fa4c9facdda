-- The law of the text that follows. A scan adds to the rules it has finished
-- and never takes one back, so what is typed later changes no finished rule.
import Mathlib
import ClassList.Proofs.Typed
import ClassList.Proofs.Words

namespace ClassList

open Text

/-! ## A scan that goes on -/

namespace Scan

variable {s : Scan} {a : Text}

theorem HasRead.ruleHere_stop (h : s.HasRead a) : s.settle.ruleHere.loc.stop = size a :=
  (hasRead_settle h).offset_eq

/-- A scan that goes on keeps the rules it has finished. Those it finishes
then stop no sooner than what it had read before. -/
theorem finished_foldl (h : s.HasRead a) (b : Text) :
    ∃ later, (b.foldl step s).finished = s.finished ++ later ∧
      ∀ r ∈ later, size a ≤ r.loc.stop := by
  induction b generalizing s a with
  | nil => exact ⟨[], by simp, by simp⟩
  | cons c b ih =>
    obtain ⟨later, hlater, hstop⟩ := ih (hasRead_step c h)
    have hle : ∀ r ∈ later, size a ≤ r.loc.stop := by
      intro r hr
      have := hstop r hr
      rw [size_append] at this
      omega
    rw [List.foldl_cons, hlater]
    rcases finished_step s c with hc | hc
    · exact ⟨later, by rw [hc], hle⟩
    · refine ⟨s.settle.ruleHere :: later, by simp [hc], ?_⟩
      rintro r (_ | ⟨_, hr⟩)
      · exact Nat.le_of_eq h.ruleHere_stop.symm
      · exact hle r hr

end Scan

/-! ## The rules of a longer text -/

namespace Text

/-- A longer text keeps the rules that are finished. -/
theorem rules_append (a b : Text) :
    ∃ later, rules (a ++ b) = (Scan.run a).finished ++ later ∧
      ∀ r ∈ later, size a ≤ r.loc.stop := by
  obtain ⟨later, hlater, hstop⟩ := Scan.finished_foldl (Scan.hasRead_run a) b
  rw [← Scan.run_append] at hlater
  have hend := Scan.finished_endIdentifier (Scan.run (a ++ b)).settle
  rw [Scan.finished_settle, hlater, ← rules_eq] at hend
  rcases hend with hend | hend
  · exact ⟨later, hend, hstop⟩
  · refine ⟨later ++ [(Scan.run (a ++ b)).settle.ruleHere], by rw [hend, List.append_assoc], ?_⟩
    intro r hr
    rcases List.mem_append.mp hr with hr | hr
    · exact hstop r hr
    · obtain rfl := List.mem_singleton.mp hr
      rw [(Scan.hasRead_run (a ++ b)).ruleHere_stop, size_append]
      exact Nat.le_add_right _ _

/-- The rules that stop in a first part of the text are finished there. -/
theorem rules_stopping_before (a b : Text) :
    (rules (a ++ b)).filter (fun r => r.loc.stop < size a) =
      (Scan.run a).finished.filter (fun r => r.loc.stop < size a) := by
  obtain ⟨later, hrules, hstop⟩ := rules_append a b
  have hnone : later.filter (fun r => r.loc.stop < size a) = [] := by
    rw [List.filter_eq_nil_iff]
    intro r hr
    simpa using hstop r hr
  rw [hrules, List.filter_append, hnone, List.append_nil]

end Text

/-! ## The law -/

/-- Whatever follows a text, the rules that stop inside of it are the same. -/
theorem later_text_keeps_finished_rules (a b b' : Text) :
    (Text.rules (a ++ b)).filter (fun r => r.loc.stop < size a) =
      (Text.rules (a ++ b')).filter (fun r => r.loc.stop < size a) := by
  rw [rules_stopping_before, rules_stopping_before]

/-- Behind `sm:(-mx(2 !a:` the rule of the `2` is finished, though its groups are
open: neither a second colon nor the closing parentheses change it. -/
theorem later_text_keeps_finished_rules_in_open_groups :
    ((Text.rules ("sm:(-mx(2 !a:".toList ++ ":b))".toList)).filter
        (fun r => r.loc.stop < size "sm:(-mx(2 !a:".toList)).map Rule.value =
      ["sm:-mx-2".toList] := by
  rw [later_text_keeps_finished_rules "sm:(-mx(2 !a:".toList ":b))".toList []]
  decide

end ClassList
