-- Reading a text that was written without groups: some variants and a word
-- behind them. Between two words the scan is at rest, so each of them is read
-- as it is, whatever stands in front of it.
import Mathlib
import ClassList.Proofs.Typed

namespace ClassList

open Text

/-! ## Reading a word -/

namespace Scan

/-- The mode inside or outside a run of brackets. -/
def modeOf (inside : Bool) : Mode := if inside then .bracket else .plain

theorem modeOf_ne_colon (inside : Bool) : modeOf inside ≠ .colon := by
  cases inside <;> decide

/-- A word without delimiters goes into the word of the scan as it is. -/
theorem foldl_step_word {s : Scan} {w : Text} (inside : Bool) (hm : s.mode = modeOf inside)
    (hw : ∀ c ∈ outside inside w, c ∉ delimiters) :
    w.foldl step s = { s with word := s.word ++ w, mode := modeOf (runAfter inside w) } := by
  induction w generalizing s inside with
  | nil => simp [runAfter, ← hm]
  | cons c w ih =>
    have hpush : ∀ inside', (∀ c ∈ outside inside' w, c ∉ delimiters) →
        w.foldl step { s.push c with mode := modeOf inside' } =
          { s with word := s.word ++ c :: w, mode := modeOf (runAfter inside' w) } := by
      intro inside' hw'
      rw [ih inside' rfl hw']
      simp [push]
    cases inside with
    | true =>
      have hstep : s.step c = { s.push c with mode := modeOf (c != ']') } := by
        by_cases hc : c = ']' <;> simp [step, hm, modeOf, hc]
      simp only [outside, Bool.true_or, if_true] at hw
      rw [List.foldl_cons, hstep, hpush _ hw]
      simp [runAfter]
    | false =>
      by_cases hb : c = '['
      · subst hb
        have hstep : s.step '[' = { s.push '[' with mode := modeOf true } := by
          simp [step, hm, modeOf, read, Delimiter.ofChar?]
        rw [List.foldl_cons, hstep, hpush true (by simpa [outside] using hw)]
        simp [runAfter]
      · have hc : Delimiter.ofChar? c = none :=
          Delimiter.ofChar?_eq_none.mpr (hw c (by simp [outside, hb]))
        have hstep : s.step c = { s.push c with mode := modeOf false } := by
          simp [step, hm, modeOf, read, hc, hb]
        rw [List.foldl_cons, hstep, hpush false (fun d hd => hw d (by simp [outside, hb, hd]))]
        simp [runAfter, hb]

/-! ## A scan between two words -/

/-- No word is being read, apart from the colons of a variant. -/
structure Rested (s : Scan) : Prop where
  mode_ne : s.mode ≠ .bracket
  word_nil : s.settle.word = []

variable {s : Scan}

theorem rested_init : init.Rested := ⟨by decide, rfl⟩

theorem Rested.settle_mode (h : s.Rested) : s.settle.mode = .plain := by
  cases hm : s.mode with
  | plain => rw [settle_of_mode (by rw [hm]; decide), hm]
  | bracket => exact absurd hm h.mode_ne
  | colon => rw [settle_of_colon hm, endVariant_mode]

theorem Rested.step_eq (h : s.Rested) {c : Char} (hc : c ≠ ':') : s.step c = s.settle.step c := by
  cases hm : s.mode with
  | plain => rw [settle_of_mode (by rw [hm]; decide)]
  | bracket => exact absurd hm h.mode_ne
  | colon =>
    rw [settle_of_colon hm]
    simp [step, hm, hc, endVariant_mode]

/-- Reading a word between two words. -/
theorem Rested.foldl_word (h : s.Rested) {w : Text} (hne : w ≠ []) (hw : Solid w) :
    w.foldl step s = { s.settle with word := w, mode := modeOf (inRun w) } := by
  obtain ⟨c, w, rfl⟩ := List.exists_cons_of_ne_nil hne
  have hc : c ≠ ':' := by
    rintro rfl
    exact hw.head (by decide)
  have hs : (c :: w).foldl step s = (c :: w).foldl step s.settle := by
    rw [List.foldl_cons, List.foldl_cons, h.step_eq hc]
  rw [hs, foldl_step_word false h.settle_mode hw, h.word_nil]
  rfl

theorem Rested.settle_word (h : s.Rested) {w : Text} (hw : Solid w) :
    (w.foldl step s).settle = { s.settle with word := w, mode := modeOf (inRun w) } := by
  by_cases hne : w = []
  · subst hne
    show s.settle = { s.settle with word := [], mode := .plain }
    rw [← h.word_nil, ← h.settle_mode]
  · rw [h.foldl_word hne hw, settle_of_mode (modeOf_ne_colon _)]

/-! ## Reading variants -/

theorem step_colon (hm : s.mode = .plain) (hw : s.word ≠ []) :
    s.step ':' = { s.push ':' with mode := .colon } := by
  simp [step, hm, read, Delimiter.ofChar?, hw]

/-- The end of a variant does not depend on the mode. -/
theorem endVariant_mode_irrel (s : Scan) (m : Mode) :
    { s with mode := m }.endVariant = s.endVariant := by
  unfold endVariant
  dsimp only
  split <;> rfl

/-- Reading a variant that has a name. -/
theorem Rested.foldl_variant (h : s.Rested) {body colons : Text} (hne : body ≠ [])
    (hs : Solid body) (hr : inRun body = false) (hc : colons = [':'] ∨ colons = [':', ':']) :
    ((body ++ colons).foldl step s).mode ≠ .bracket ∧
      ((body ++ colons).foldl step s).settle =
        { s.settle with word := body ++ colons }.endVariant := by
  have hbody : body.foldl step s = { s.settle with word := body, mode := .plain } := by
    rw [h.foldl_word hne hs, hr]
    rfl
  have hone : (body.foldl step s).step ':' =
      { s.settle with word := body ++ [':'], mode := .colon } := by
    rw [hbody, step_colon rfl hne]
    rfl
  rw [List.foldl_append]
  rcases hc with rfl | rfl
  · rw [List.foldl_cons, List.foldl_nil, hone]
    refine ⟨by simp, ?_⟩
    rw [settle_of_colon rfl]
    exact endVariant_mode_irrel { s.settle with word := body ++ [':'] } .colon
  · have htwo : ({ s.settle with word := body ++ [':'], mode := .colon } : Scan).step ':' =
        { s.settle with word := body ++ [':', ':'] }.endVariant := by
      rw [← endVariant_mode_irrel _ .colon]
      simp [step, push]
    rw [List.foldl_cons, List.foldl_cons, List.foldl_nil, hone, htwo]
    refine ⟨by rw [endVariant_mode]; decide, ?_⟩
    rw [settle_of_mode (by rw [endVariant_mode]; decide)]

theorem Rested.step_colon (h : s.Rested) : (s.step ':').Rested := by
  cases hm : s.mode with
  | plain =>
    have hw : s.word = [] := by
      have := h.word_nil
      rwa [settle_of_mode (by rw [hm]; decide)] at this
    simp only [step, hm, read, Delimiter.ofChar?, hw, List.isEmpty_nil, if_true]
    exact ⟨by simp, rfl⟩
  | bracket => exact absurd hm h.mode_ne
  | colon =>
    simp only [step, hm, if_true]
    refine ⟨by rw [endVariant_mode]; decide, ?_⟩
    rw [settle_of_mode (by rw [endVariant_mode]; decide), endVariant_word]

/-- Behind any variant the scan is at rest again. -/
theorem Rested.foldl_variantText (h : s.Rested) {v : Text} (hv : VariantText v) :
    (v.foldl step s).Rested := by
  obtain ⟨body, colons, rfl, hs, hr, hc⟩ := hv
  by_cases hne : body = []
  · subst hne
    rcases hc with rfl | rfl
    · exact h.step_colon
    · exact h.step_colon.step_colon
  · obtain ⟨hm, he⟩ := h.foldl_variant hne hs hr hc
    exact ⟨hm, by rw [he, endVariant_word]⟩

theorem Rested.foldl_flatten (h : s.Rested) {vs : List Text} (hv : ∀ v ∈ vs, VariantText v) :
    (vs.flatten.foldl step s).Rested := by
  induction vs generalizing s with
  | nil => exact h
  | cons v vs ih =>
    rw [List.flatten_cons, List.foldl_append]
    exact ih (h.foldl_variantText (hv v (by simp))) (fun v hv' => hv v (by simp [hv']))

/-- The scan behind some variants. -/
def enterVariants (s : Scan) (vs : List Text) : Scan :=
  vs.foldl (fun s v => (s.enter (.variant ⟨v⟩) s.start).restart (s.start + size v)) s

/-- A variant that can be read again as it is. -/
structure Plain (v : Text) : Prop where
  text : VariantText v
  bang : v.head? ≠ some '!'
  colon : v.head? ≠ some ':'

/-- Reading plain variants enters each of them. -/
theorem Rested.settle_variants (h : s.Rested) {vs : List Text} (hv : ∀ v ∈ vs, Plain v) :
    (vs.flatten.foldl step s).settle = s.settle.enterVariants vs := by
  induction vs generalizing s with
  | nil => rfl
  | cons v vs ih =>
    have hplain := hv v (by simp)
    have hrested := h.foldl_variantText hplain.text
    obtain ⟨body, colons, rfl, hs, hr, hc⟩ := hplain.text
    have hne : body ≠ [] := by
      rintro rfl
      exact hplain.colon (by rcases hc with rfl | rfl <;> rfl)
    have hfirst : ((body ++ colons).foldl step s).settle =
        (s.settle.enter (.variant ⟨body ++ colons⟩) s.settle.start).restart
          (s.settle.start + size (body ++ colons)) := by
      rw [(h.foldl_variant hne hs hr hc).2]
      unfold endVariant
      split
      · rename_i rest hrest
        dsimp only at hrest
        exact absurd (by rw [hrest]; rfl) hplain.bang
      · rfl
    rw [List.flatten_cons, List.foldl_append, ih hrested (fun v hv' => hv v (by simp [hv'])),
      hfirst]
    rfl

/-! ## What plain variants add -/

theorem enterVariants_variants (s : Scan) (vs : List Text) :
    ((s.enterVariants vs).scopes.filterMap Rule.variantOf?).reverse.map (·.value) =
      (s.scopes.filterMap Rule.variantOf?).reverse.map (·.value) ++ vs := by
  induction vs generalizing s with
  | nil => simp [enterVariants]
  | cons v vs ih =>
    have hcons : s.enterVariants (v :: vs) = Scan.enterVariants
        ((s.enter (.variant ⟨v⟩) s.start).restart (s.start + size v)) vs := rfl
    rw [hcons, ih]
    simp [item, Rule.variantOf?, Variant.value]

theorem enterVariants_identifiers (s : Scan) (vs : List Text) :
    (s.enterVariants vs).scopes.filterMap Item.identifier? =
      s.scopes.filterMap Item.identifier? := by
  induction vs generalizing s with
  | nil => rfl
  | cons v vs ih => exact ih _

theorem enterVariants_finished (s : Scan) (vs : List Text) :
    (s.enterVariants vs).finished = s.finished := by
  induction vs generalizing s with
  | nil => rfl
  | cons v vs ih => exact (ih _).trans (finished_open rfl rfl)

theorem enterVariants_awaitsName (s : Scan) {vs : List Text} (h : vs ≠ []) :
    (s.enterVariants vs).awaitsName = true := by
  rcases List.eq_nil_or_concat vs with rfl | ⟨vs, v, rfl⟩
  · exact absurd rfl h
  · simp only [enterVariants, List.concat_eq_append, List.foldl_append, List.foldl_cons,
      List.foldl_nil]
    rfl

end Scan

/-! ## Variants and a word -/

namespace Text

/-- The rule of a word behind other text comes behind the rules of that text. -/
theorem rules_word {a w : Text} (h : (Scan.run a).Rested) (hw : Solid w)
    (hne : w ≠ [] ∨ (Scan.run a).settle.awaitsName = true) :
    rules (a ++ w) = (Scan.run a).settle.finished ++
      [.ofName w (Scan.run a).settle.start (Scan.run a).settle.scopes] := by
  rw [rules_eq, Scan.run_append, h.settle_word hw,
    Scan.finished_closed (Scan.endIdentifier_placed hne) rfl]
  rfl

/-- Plain variants and a word behind them are one rule. -/
theorem rules_plain {vs : List Text} {w : Text} (hv : ∀ v ∈ vs, Scan.Plain v) (hw : Solid w)
    (hne : vs.flatten ++ w ≠ []) :
    rules (vs.flatten ++ w) = [.ofName w (Scan.init.enterVariants vs).start
      (Scan.init.enterVariants vs).scopes] := by
  have hrested : (Scan.run vs.flatten).Rested :=
    Scan.rested_init.foldl_flatten fun v h => (hv v h).text
  have hsettle : (Scan.run vs.flatten).settle = Scan.init.enterVariants vs :=
    Scan.rested_init.settle_variants hv
  have hname : w ≠ [] ∨ (Scan.run vs.flatten).settle.awaitsName = true := by
    by_cases hnil : w = []
    · right
      rw [hsettle]
      apply Scan.enterVariants_awaitsName
      rintro rfl
      simp [hnil] at hne
    · exact Or.inl hnil
  rw [rules_word hrested hw hname, hsettle, Scan.enterVariants_finished]
  rfl

end Text

end ClassList
