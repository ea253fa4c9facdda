-- The laws of diagnostics. The rules of a text are looked at one by one, and
-- a variant is met again in every rule below it, but the reports are those of
-- the words of the text: each word once, in source order.
import Mathlib
import ClassList.Diagnostic.Basic
import ClassList.Proofs.NormalForm
import ClassList.Proofs.Spans

namespace ClassList

open Text

/-! ## Rules in source order -/

/-- The first range starts in front of the second one and stops before it. -/
def Span.Before (a b : Span) : Prop := a.start < b.start ∧ a.stop ≤ b.start

theorem Span.Before.trans {a b c : Span} (h : a.Before b) (h' : b.Before c) : a.Before c :=
  ⟨Nat.lt_trans h.1 h'.1, Nat.le_trans h.2 (Nat.le_of_lt h'.1)⟩

theorem Span.Before.ne {a b : Span} (h : a.Before b) : a ≠ b := by
  rintro rfl
  exact Nat.lt_irrefl _ h.1

/-- The rules stand one behind the other. Each name stands behind its variants,
and a variant of a later rule belongs to an earlier one as well, unless it
stands behind the name of that rule. -/
structure Rule.InOrder (rules : List Rule) : Prop where
  variants : ∀ r ∈ rules, r.variants.Pairwise fun v w => v.loc.Before w.loc
  around : ∀ r ∈ rules, ∀ v ∈ r.variants, v.loc.Before r.loc
  names : rules.Pairwise fun r r' => r.loc.Before r'.loc
  shared : rules.Pairwise fun r r' => ∀ v ∈ r'.variants, v ∈ r.variants ∨ r.loc.Before v.loc

namespace Rule.InOrder

variable {rules : List Rule} {r r' : Rule} {v v' : PlacedVariant}

theorem init (h : InOrder (rules ++ [r])) : InOrder rules where
  variants := fun r hr => h.variants r (List.mem_append_left _ hr)
  around := fun r hr => h.around r (List.mem_append_left _ hr)
  names := (List.pairwise_append.mp h.names).1
  shared := (List.pairwise_append.mp h.shared).1

/-- No two names have one place. -/
theorem name_unique (h : InOrder rules) (hr : r ∈ rules) (hr' : r' ∈ rules)
    (he : r.loc = r'.loc) : r = r' := by
  have hnodup : (rules.map Rule.loc).Nodup :=
    List.pairwise_map.mpr (h.names.imp fun hbefore => hbefore.ne)
  exact List.inj_on_of_nodup_map hnodup hr hr' he

/-- Two variants that have one place are one variant, also in two rules. -/
theorem variant_unique (h : InOrder rules) (hr : r ∈ rules) (hr' : r' ∈ rules)
    (hv : v ∈ r.variants) (hv' : v' ∈ r'.variants) (he : v.loc = v'.loc) : v = v' := by
  have hsame : ∀ r ∈ rules, ∀ v ∈ r.variants, ∀ v' ∈ r.variants, v.loc = v'.loc → v = v' := by
    intro r hr v hv v' hv' he
    have hnodup : (r.variants.map PlacedVariant.loc).Nodup :=
      List.pairwise_map.mpr ((h.variants r hr).imp fun hbefore => hbefore.ne)
    exact List.inj_on_of_nodup_map hnodup hv hv' he
  -- A variant of a later rule that has the place of an earlier one stands
  -- in front of the earlier name.
  have hpair : rules.Pairwise fun r r' =>
      ∀ v ∈ r.variants, ∀ v' ∈ r'.variants, v.loc = v'.loc → v = v' := by
    refine h.shared.imp_of_mem ?_
    intro r r' hr hr' hshared v hv v' hv' he
    rcases hshared v' hv' with hv' | hbefore
    · exact hsame r hr v hv v' hv' he
    · have hlt := (h.around r hr v hv).1
      have hgt := hbefore.1
      rw [← he] at hgt
      omega
  have hsymm : Std.Symm fun r r' : Rule =>
      ∀ v ∈ r.variants, ∀ v' ∈ r'.variants, v.loc = v'.loc → v = v' :=
    ⟨fun _ _ hu v hv v' hv' he => (hu v' hv' v hv he.symm).symm⟩
  exact List.Pairwise.forall_of_forall hsame hpair hr hr' v hv v' hv' he

/-- A variant and a name have two places. -/
theorem variant_ne_name (h : InOrder rules) (hr : r ∈ rules) (hr' : r' ∈ rules)
    (hv : v ∈ r.variants) : v.loc ≠ r'.loc := by
  intro he
  have hbefore := h.around r hr v hv
  have hne : r ≠ r' := by
    rintro rfl
    exact hbefore.ne he
  obtain ⟨front, back, rfl⟩ := List.append_of_mem hr
  rcases List.mem_append.mp hr' with hfront | hback
  · have hshared := (List.pairwise_append.mp h.shared).2.2 r' hfront r List.mem_cons_self
    rcases hshared v hv with hv' | hbehind
    · exact (h.around r' hr' v hv').ne he
    · exact hbehind.ne he.symm
  · have hback := (List.mem_cons.mp hback).resolve_left hne.symm
    have hlt := (List.rel_of_pairwise_cons (List.pairwise_append.mp h.names).2.1 hback).1
    have hlt' := hbefore.1
    rw [← he] at hlt
    omega

end Rule.InOrder

/-! ## The rules of a layout -/

namespace Layout

variable {ended : Bool} {a : Text} {s : Scan} {p q : Placed} {i : Item}

/-- What is in scope now was in scope at every item behind its start. -/
theorem scope_kept (h : Layout ended a s) (hp : p ∈ s.placed) (hi : i ∈ s.scopes)
    (hlt : i.start < p.item.start) : i ∈ p.scopes := by
  -- A new item starts at the end of the text, behind all the others.
  have hnew : ∀ {a : Text} {s : Scan} (k : Kind), Layout false a s →
      (p ∈ s.placed → i ∈ s.scopes → i ∈ p.scopes) →
      p ∈ (s.enter k (size a)).placed → i ∈ (s.enter k (size a)).scopes → i ∈ p.scopes := by
    intro a s k hl ih hp hi
    rcases List.mem_cons.mp hp with rfl | hp
    · refine (List.mem_cons.mp hi).resolve_left ?_
      rintro rfl
      exact Nat.lt_irrefl _ hlt
    · refine ih hp ((List.mem_cons.mp hi).resolve_left ?_)
      rintro rfl
      exact Nat.lt_asymm hlt (hl.start_lt hp)
  induction h with
  | start => cases hp
  | colon _ ih => exact ih hp hi
  | enter hl _ ih => exact hnew _ hl ih hp hi
  | name closed hl _ ih => exact hnew (.identifier ⟨_, closed⟩) hl ih hp (List.mem_cons_of_mem _ hi)
  | opening hl ih => exact hnew _ hl ih hp hi
  | closing _ _ ih =>
    exact ih (by simpa using hp) ((Scan.leaveWords_leaveGroup_suffix _ _).subset hi)
  | blank _ _ _ ih => exact ih hp ((List.dropWhile_suffix _).subset hi)

/-- Of two words, the one that starts first stops before the other one. -/
theorem word_before (h : Layout ended a s) (hp : p ∈ s.placed) (hq : q ∈ s.placed)
    (hg : p.item.isGroup = false) (hlt : p.item.start < q.item.start) :
    p.item.span.Before q.item.span := by
  have hne : p ≠ q := by
    rintro rfl
    exact Nat.lt_irrefl _ hlt
  obtain ⟨before, s₀, rest, hl, -, hp₀, hstart, -⟩ :=
    h.placed_before hp hq hne (Nat.le_of_lt hlt)
  refine ⟨hlt, ?_⟩
  have hstop := (hl.standsIn hp₀ hg).stop_le
  show p.item.span.stop ≤ q.item.start
  omega

end Layout

theorem Scan.mem_finished {s : Scan} {r : Rule} :
    r ∈ s.finished ↔ ∃ p ∈ s.placed, p.isClosed = true ∧ Rule.ofChain p.item p.scopes = r := by
  simp [finished, and_assoc]

/-- A closed name is neither a group nor a variant. -/
theorem Placed.isClosed_word {p : Placed} (h : p.isClosed = true) :
    p.item.isGroup = false ∧ Rule.variantOf? p.item = none := by
  rcases p with ⟨⟨id, _ | v | w, start⟩, scopes⟩
  · cases h
  · cases h
  · exact ⟨rfl, rfl⟩

theorem Rule.variantOf?_word {i : Item} {v : PlacedVariant} (h : Rule.variantOf? i = some v) :
    i.isGroup = false ∧ v.loc = i.span := by
  obtain ⟨hk, hloc⟩ := Rule.variantOf?_eq_some h
  exact ⟨by simp [Item.isGroup, hk], hloc⟩

namespace Layout

variable {ended : Bool} {a : Text} {s : Scan} {p q : Placed} {v : PlacedVariant}

/-- The variants of a rule are the variants in the scopes of its name. -/
theorem mem_variants (h : Layout ended a s) (hp : p ∈ s.placed) (hc : p.isClosed = true) :
    v ∈ (Rule.ofChain p.item p.scopes).variants ↔
      ∃ q ∈ s.placed, q.item ∈ p.scopes ∧ Rule.variantOf? q.item = some v := by
  have hvariants : (Rule.ofChain p.item p.scopes).variants =
      (p.scopes.filterMap Rule.variantOf?).reverse := by
    show ((p.item :: p.scopes).filterMap Rule.variantOf?).reverse = _
    rw [List.filterMap_cons_none (Placed.isClosed_word hc).2]
  rw [hvariants, List.mem_reverse, List.mem_filterMap]
  constructor
  · rintro ⟨i, hi, hv⟩
    rcases h.scope_known hp hi with rfl | ⟨q, hq, rfl⟩
    · cases hv
    · exact ⟨q, hq, hi, hv⟩
  · rintro ⟨q, -, hi, hv⟩
    exact ⟨q.item, hi, hv⟩

/-- What holds of two names, the first in front of the second, holds of the
rules in order. -/
theorem finished_pairwise {R : Rule → Rule → Prop} (h : Layout ended a s)
    (hR : ∀ p ∈ s.placed, ∀ q ∈ s.placed, p.isClosed = true → q.isClosed = true →
      p.item.start < q.item.start →
      R (Rule.ofChain p.item p.scopes) (Rule.ofChain q.item q.scopes)) :
    s.finished.Pairwise R := by
  unfold Scan.finished
  rw [List.pairwise_map, List.pairwise_filter, List.pairwise_reverse]
  refine h.starts.imp_of_mem ?_
  intro q p hq hp hlt hcp hcq
  exact hR p hp q hq hcp hcq hlt

theorem rule_variants (h : Layout ended a s) (hp : p ∈ s.placed) :
    (Rule.ofChain p.item p.scopes).variants.Pairwise fun v w => v.loc.Before w.loc := by
  show ((p.chain.filterMap Rule.variantOf?).reverse).Pairwise _
  rw [List.pairwise_reverse, List.pairwise_filterMap]
  apply pairwise_of_suffix
  intro i rest hsuf j hj v hv w hw
  rcases h.chain_placed hp hsuf with ⟨-, rfl⟩ | hi
  · cases hj
  rcases h.scope_known hi hj with rfl | ⟨q, hq, rfl⟩
  · cases hw
  rw [(Rule.variantOf?_word hv).2, (Rule.variantOf?_word hw).2]
  exact h.word_before hq hi (Rule.variantOf?_word hw).1 (h.scope_start_lt hi hq hj)

/-- The rules of a text stand in order. -/
theorem rules_inOrder (h : Layout ended a s) : Rule.InOrder s.finished where
  variants := by
    intro r hr
    obtain ⟨p, hp, -, rfl⟩ := Scan.mem_finished.mp hr
    exact h.rule_variants hp
  around := by
    intro r hr v hv
    obtain ⟨p, hp, hc, rfl⟩ := Scan.mem_finished.mp hr
    obtain ⟨q, hq, hscope, hqv⟩ := (h.mem_variants hp hc).mp hv
    rw [(Rule.variantOf?_word hqv).2]
    exact h.word_before hq hp (Rule.variantOf?_word hqv).1 (h.scope_start_lt hp hq hscope)
  names := by
    apply h.finished_pairwise
    intro p hp q hq hcp _ hlt
    exact h.word_before hp hq (Placed.isClosed_word hcp).1 hlt
  shared := by
    apply h.finished_pairwise
    intro p hp q hq hcp hcq hlt v hv
    obtain ⟨x, hx, hscope, hxv⟩ := (h.mem_variants hq hcq).mp hv
    by_cases hxp : x.item.start < p.item.start
    · -- The variant was in scope at the later name, so it was at the earlier one.
      left
      have hne : p ≠ q := by
        rintro rfl
        exact Nat.lt_irrefl _ hlt
      obtain ⟨before, s₀, rest, hl, -, hp₀, -, hscopes⟩ :=
        h.placed_before hp hq hne (Nat.le_of_lt hlt)
      rw [hscopes] at hscope
      exact (h.mem_variants hp hcp).mpr ⟨x, hx, hl.scope_kept hp₀ hscope hxp, hxv⟩
    · right
      have hne : p ≠ x := by
        rintro rfl
        rw [(Placed.isClosed_word hcp).2] at hxv
        cases hxv
      have hstart := h.start_ne hp hx hne
      rw [(Rule.variantOf?_word hxv).2]
      exact h.word_before hp hx (Placed.isClosed_word hcp).1 (by omega)

end Layout

theorem Text.rules_inOrder (t : Text) : Rule.InOrder t.rules := by
  obtain ⟨ended, s, hl, htree⟩ := Tree.layout_ofText t
  unfold Text.rules
  rw [htree, Scan.rules_tree]
  exact hl.rules_inOrder

/-! ## What a review finds -/

/-- The report of a variant that nobody knows. -/
def PlacedVariant.finding (v : PlacedVariant) : Finding := ⟨.unknownVariant v.value, v.loc⟩

/-- The report of a rule whose name nobody knows. -/
def Rule.finding (r : Rule) : Finding := ⟨.unknownDirective r.name, r.loc⟩

/-- The finding is about a variant of the rule or about its name. -/
def Vocabulary.FindsIn (voc : Vocabulary) (r : Rule) (f : Finding) : Prop :=
  (∃ v ∈ r.variants, voc.knowsVariant v.name = false ∧ f = v.finding) ∨
    (voc.knowsUtility r.bareName = false ∧ f = r.finding)

namespace Review

variable {voc : Vocabulary} {w : Review} {rules : List Rule} {r : Rule}

/-- The variants that are not known and not reported yet. -/
def unreported (voc : Vocabulary) (w : Review) (vs : List PlacedVariant) : List PlacedVariant :=
  vs.filter fun v => !(voc.knowsVariant v.name || w.seen.contains v.loc)

theorem mem_unreported {vs : List PlacedVariant} {v : PlacedVariant} :
    v ∈ w.unreported voc vs ↔ v ∈ vs ∧ voc.knowsVariant v.name = false ∧ v.loc ∉ w.seen := by
  simp [unreported]

/-- Looking at variants in different places reports those that are new. -/
theorem foldl_addVariant {vs : List PlacedVariant} (w : Review)
    (h : vs.Pairwise fun v v' => v.loc ≠ v'.loc) :
    vs.foldl (addVariant voc) w =
      { seen := ((w.unreported voc vs).map (·.loc)).reverse ++ w.seen
        findings := w.findings ++ (w.unreported voc vs).map PlacedVariant.finding } := by
  induction vs generalizing w with
  | nil => simp [unreported]
  | cons v vs ih =>
    obtain ⟨hv, hvs⟩ := List.pairwise_cons.mp h
    rw [List.foldl_cons, ih _ hvs]
    by_cases hskip : voc.knowsVariant v.name || w.seen.contains v.loc
    · have hadd : addVariant voc w v = w := if_pos hskip
      have hrest : w.unreported voc (v :: vs) = w.unreported voc vs := by
        apply List.filter_cons_of_neg
        rw [hskip]
        decide
      rw [hadd, hrest]
    · have hadd : addVariant voc w v = ⟨v.loc :: w.seen, w.findings ++ [v.finding]⟩ := if_neg hskip
      have hrest : w.unreported voc (v :: vs) = v :: w.unreported voc vs := by
        apply List.filter_cons_of_pos
        rw [eq_false_of_ne_true hskip]
        decide
      -- The place of this variant is none of the places that follow.
      have hsame : (addVariant voc w v).unreported voc vs = w.unreported voc vs := by
        rw [hadd]
        apply List.filter_congr
        intro v' hv'
        simp [(hv v' hv').symm]
      rw [hsame, hadd, hrest]
      simp

theorem addRule_seen (w : Review) (h : r.variants.Pairwise fun v v' => v.loc ≠ v'.loc) :
    (addRule voc w r).seen = ((w.unreported voc r.variants).map (·.loc)).reverse ++ w.seen := by
  unfold addRule
  rw [foldl_addVariant w h]
  dsimp only
  split <;> rfl

theorem addRule_findings (w : Review) (h : r.variants.Pairwise fun v v' => v.loc ≠ v'.loc) :
    (addRule voc w r).findings =
      w.findings ++ ((w.unreported voc r.variants).map PlacedVariant.finding ++
        if voc.knowsUtility r.bareName then [] else [r.finding]) := by
  unfold addRule
  rw [foldl_addVariant w h]
  dsimp only
  split
  · simp
  · simp [Rule.finding]

theorem mem_name_finding {f : Finding} :
    f ∈ (if voc.knowsUtility r.bareName then [] else [r.finding]) ↔
      voc.knowsUtility r.bareName = false ∧ f = r.finding := by
  by_cases hknown : voc.knowsUtility r.bareName
  · simp [hknown]
  · simp [hknown]

/-- The review of some rules in order. -/
structure Reports (voc : Vocabulary) (rules : List Rule) (w : Review) : Prop where
  findings : ∀ f, f ∈ w.findings ↔ ∃ r ∈ rules, voc.FindsIn r f
  seen : ∀ loc, loc ∈ w.seen ↔
    ∃ r ∈ rules, ∃ v ∈ r.variants, voc.knowsVariant v.name = false ∧ v.loc = loc
  sorted : w.findings.Pairwise fun f g => f.range.Before g.range

/-- A finding of a rule stands at its name or in front of it. -/
theorem range_cases {f : Finding} (h : Rule.InOrder rules) (hr : r ∈ rules)
    (hf : voc.FindsIn r f) : f.range.Before r.loc ∨ f.range = r.loc := by
  rcases hf with ⟨v, hv, -, rfl⟩ | ⟨-, rfl⟩
  · exact Or.inl (h.around r hr v hv)
  · exact Or.inr rfl

namespace Reports

variable {v : PlacedVariant} {f : Finding}

/-- A variant whose place was seen is reported. -/
theorem reported (hw : w.Reports voc rules) (h : Rule.InOrder (rules ++ [r])) (hv : v ∈ r.variants)
    (hknown : voc.knowsVariant v.name = false) (hseen : v.loc ∈ w.seen) :
    v.finding ∈ w.findings := by
  obtain ⟨r', hr', v', hv', hknown', hloc⟩ := (hw.seen v.loc).mp hseen
  obtain rfl := h.variant_unique (List.mem_append_left _ hr') (by simp) hv' hv hloc
  exact (hw.findings _).mpr ⟨r', hr', Or.inl ⟨v', hv', hknown, rfl⟩⟩

/-- A variant that is new stands behind all earlier names. -/
theorem unreported_behind (hw : w.Reports voc rules) (h : Rule.InOrder (rules ++ [r]))
    (hv : v ∈ w.unreported voc r.variants) : ∀ r' ∈ rules, r'.loc.Before v.loc := by
  intro r' hr'
  obtain ⟨hv, hknown, hseen⟩ := mem_unreported.mp hv
  have hshared := (List.pairwise_append.mp h.shared).2.2 r' hr' r (by simp)
  refine (hshared v hv).resolve_left ?_
  intro hv'
  exact hseen ((hw.seen v.loc).mpr ⟨r', hr', v, hv', hknown, rfl⟩)

/-- What stands behind all names stands behind all findings. -/
theorem finding_before (hw : w.Reports voc rules) (h : Rule.InOrder rules) (hf : f ∈ w.findings)
    {place : Span} (hplace : ∀ r' ∈ rules, r'.loc.Before place) : f.range.Before place := by
  obtain ⟨r', hr', hfound⟩ := (hw.findings f).mp hf
  rcases range_cases h hr' hfound with hbefore | he
  · exact hbefore.trans (hplace r' hr')
  · rw [he]
    exact hplace r' hr'

/-- One more rule. -/
theorem addRule (hw : w.Reports voc rules) (h : Rule.InOrder (rules ++ [r])) :
    (Review.addRule voc w r).Reports voc (rules ++ [r]) := by
  have hr : r ∈ rules ++ [r] := by simp
  have hvariants := (h.variants r hr).imp fun hbefore => hbefore.ne
  have hname : ∀ r' ∈ rules, r'.loc.Before r.loc := fun r' hr' =>
    (List.pairwise_append.mp h.names).2.2 r' hr' r (by simp)
  constructor
  case findings =>
    intro f
    rw [addRule_findings w hvariants, List.mem_append, List.mem_append, List.mem_map, hw.findings]
    simp only [List.mem_append, List.mem_singleton, or_and_right, exists_or, exists_eq_left]
    refine or_congr_right' ?_
    intro hnot
    refine or_congr ?_ ?_
    · constructor
      · rintro ⟨v, hv, rfl⟩
        obtain ⟨hv, hknown, -⟩ := mem_unreported.mp hv
        exact ⟨v, hv, hknown, rfl⟩
      · rintro ⟨v, hv, hknown, rfl⟩
        refine ⟨v, mem_unreported.mpr ⟨hv, hknown, ?_⟩, rfl⟩
        intro hseen
        exact hnot ((hw.findings _).mp (hw.reported h hv hknown hseen))
    · exact mem_name_finding
  case seen =>
    intro loc
    rw [addRule_seen w hvariants, List.mem_append, List.mem_reverse, List.mem_map, hw.seen, or_comm]
    simp only [List.mem_append, List.mem_singleton, or_and_right, exists_or, exists_eq_left]
    refine or_congr_right' ?_
    intro hnot
    constructor
    · rintro ⟨v, hv, rfl⟩
      obtain ⟨hv, hknown, -⟩ := mem_unreported.mp hv
      exact ⟨v, hv, hknown, rfl⟩
    · rintro ⟨v, hv, hknown, rfl⟩
      refine ⟨v, mem_unreported.mpr ⟨hv, hknown, ?_⟩, rfl⟩
      intro hseen
      exact hnot ((hw.seen _).mp hseen)
  case sorted =>
    rw [addRule_findings w hvariants, List.pairwise_append, List.pairwise_append]
    refine ⟨hw.sorted, ⟨?_, ?_, ?_⟩, ?_⟩
    · rw [List.pairwise_map]
      exact (h.variants r hr).sublist List.filter_sublist
    · split <;> simp
    · intro f hf g hg
      obtain ⟨v, hv, rfl⟩ := List.mem_map.mp hf
      obtain rfl := (mem_name_finding.mp hg).2
      exact h.around r hr v (mem_unreported.mp hv).1
    · intro f hf g hg
      apply hw.finding_before h.init hf
      rcases List.mem_append.mp hg with hg | hg
      · obtain ⟨v, hv, rfl⟩ := List.mem_map.mp hg
        exact hw.unreported_behind h hv
      · obtain rfl := (mem_name_finding.mp hg).2
        exact hname

end Reports

/-- The review of all rules. -/
theorem reports_foldl (voc : Vocabulary) (h : Rule.InOrder rules) :
    (rules.foldl (Review.addRule voc) .empty).Reports voc rules := by
  induction rules using List.reverseRecOn with
  | nil => constructor <;> simp [empty]
  | append_singleton rules r ih =>
    rw [List.foldl_append]
    exact (ih h.init).addRule h

end Review

/-! ## Diagnostics of a text -/

namespace Vocabulary

variable {voc : Vocabulary} {t : Text}

theorem mem_diagnostics {d : Diagnostic} :
    d ∈ voc.diagnostics t ↔ ∃ r ∈ t.rules, ∃ f, voc.FindsIn r f ∧ d = f.toDiagnostic := by
  unfold diagnostics review
  rw [List.mem_map]
  constructor
  · rintro ⟨f, hf, rfl⟩
    obtain ⟨r, hr, hfound⟩ := ((Review.reports_foldl voc t.rules_inOrder).findings f).mp hf
    exact ⟨r, hr, f, hfound, rfl⟩
  · rintro ⟨r, hr, f, hfound, rfl⟩
    exact ⟨f, ((Review.reports_foldl voc t.rules_inOrder).findings f).mpr ⟨r, hr, hfound⟩, rfl⟩

/-- Nothing is reported at the name of a rule if the name is known. -/
theorem quiet_at_name {r : Rule} (hr : r ∈ t.rules) (hknown : voc.knowsUtility r.bareName = true) :
    ∀ d ∈ voc.diagnostics t, d.range ≠ r.loc := by
  intro d hd he
  obtain ⟨r', hr', f, hfound, rfl⟩ := mem_diagnostics.mp hd
  rcases hfound with ⟨v, hv, -, rfl⟩ | ⟨hunknown, rfl⟩
  · exact t.rules_inOrder.variant_ne_name hr' hr hv he
  · rw [t.rules_inOrder.name_unique hr' hr he, hknown] at hunknown
    cases hunknown

/-- Nothing is reported at a variant of a rule if the variant is known. -/
theorem quiet_at_variant {r : Rule} {v : PlacedVariant} (hr : r ∈ t.rules) (hv : v ∈ r.variants)
    (hknown : voc.knowsVariant v.name = true) : ∀ d ∈ voc.diagnostics t, d.range ≠ v.loc := by
  intro d hd he
  obtain ⟨r', hr', f, hfound, rfl⟩ := mem_diagnostics.mp hd
  rcases hfound with ⟨v', hv', hunknown, rfl⟩ | ⟨-, rfl⟩
  · rw [t.rules_inOrder.variant_unique hr' hr hv' hv he, hknown] at hunknown
    cases hunknown
  · exact t.rules_inOrder.variant_ne_name hr hr' hv he.symm

end Vocabulary

/-! ## The words with a problem -/

/-- What is wrong with a word of a tree: a variant that nobody knows and that
some name is below of, or the last name of a rule that nobody knows. -/
def Vocabulary.findingAt? (voc : Vocabulary) (t : Tree) (w : Node) : Option Finding :=
  match w.item.kind with
  | .group => none
  | .variant v =>
    if (∃ last ∈ t.terminals, w.id ∈ last.ancestors) ∧ voc.knowsVariant v.name = false then
      some ⟨.unknownVariant v.value, w.span⟩
    else none
  | .identifier _ =>
    if w.isTerminal = true ∧ voc.knowsUtility (Rule.ofNode w).bareName = false then
      some ⟨.unknownDirective (Rule.ofNode w).name, w.span⟩
    else none

theorem Vocabulary.findingAt?_range {voc : Vocabulary} {t : Tree} {w : Node} {f : Finding}
    (h : voc.findingAt? t w = some f) : f.range = w.span := by
  unfold findingAt? at h
  split at h
  · cases h
  · split at h
    · obtain rfl := Option.some.inj h
      rfl
    · cases h
  · split at h
    · obtain rfl := Option.some.inj h
      rfl
    · cases h

theorem Scan.mem_terminals {s : Scan} {n : Nat} {last : Node} :
    last ∈ (s.tree n).terminals ↔ ∃ p ∈ s.placed, p.isClosed = true ∧ p.wordNode = last := by
  rw [Tree.terminals_eq, List.mem_filter, Scan.mem_words]
  constructor
  · rintro ⟨⟨p, hp, -, rfl⟩, hc⟩
    exact ⟨p, hp, hc, rfl⟩
  · rintro ⟨p, hp, hc, rfl⟩
    exact ⟨⟨p, hp, (Placed.isClosed_word hc).1, rfl⟩, hc⟩

namespace Layout

variable {ended : Bool} {t : Text} {s : Scan} {p : Placed} {voc : Vocabulary} {f : Finding}

/-- A name is below a variant exactly if the variant is in its scopes. -/
theorem below_variant (h : Layout ended t s) (n : Nat) (hp : p ∈ s.placed) {v : Variant}
    (hk : p.item.kind = .variant v) :
    (∃ last ∈ (s.tree n).terminals, p.wordNode.id ∈ last.ancestors) ↔
      ∃ q ∈ s.placed, q.isClosed = true ∧ p.item ∈ q.scopes := by
  have hne : ∀ q : Placed, q.isClosed = true → p ≠ q := by
    rintro q hc rfl
    have hv := (Placed.isClosed_word hc).2
    simp [Rule.variantOf?, hk] at hv
  constructor
  · rintro ⟨last, hlast, hid⟩
    obtain ⟨q, hq, hc, rfl⟩ := Scan.mem_terminals.mp hlast
    exact ⟨q, hq, hc, (h.id_mem_ancestors hp hq (hne q hc)).mp hid⟩
  · rintro ⟨q, hq, hc, hscope⟩
    exact ⟨q.wordNode, Scan.mem_terminals.mpr ⟨q, hq, hc, rfl⟩,
      (h.id_mem_ancestors hp hq (hne q hc)).mpr hscope⟩

/-- The findings of the words are the findings of the rules. -/
theorem mem_word_findings (h : Layout ended t s) (n : Nat) :
    f ∈ (s.tree n).words.filterMap (voc.findingAt? (s.tree n)) ↔
      ∃ r ∈ s.finished, voc.FindsIn r f := by
  rw [List.mem_filterMap]
  constructor
  · rintro ⟨w, hw, hf⟩
    obtain ⟨p, hp, hg, rfl⟩ := Scan.mem_words.mp hw
    unfold Vocabulary.findingAt? at hf
    split at hf
    · cases hf
    · rename_i v hk
      rw [Option.ite_none_right_eq_some, h.below_variant n hp hk] at hf
      obtain ⟨⟨⟨q, hq, hc, hscope⟩, hknown⟩, hf⟩ := hf
      have hv : Rule.variantOf? p.item = some ⟨v, p.item.span⟩ := by
        simp [Rule.variantOf?, show p.item.kind = .variant v from hk]
      refine ⟨_, Scan.mem_finished.mpr ⟨q, hq, hc, rfl⟩,
        Or.inl ⟨⟨v, p.item.span⟩, ?_, hknown, ?_⟩⟩
      · exact (h.mem_variants hq hc).mpr ⟨p, hp, hscope, hv⟩
      · exact (Option.some.inj hf).symm
    · rw [Option.ite_none_right_eq_some] at hf
      obtain ⟨⟨hc, hknown⟩, hf⟩ := hf
      exact ⟨Rule.ofNode p.wordNode, Scan.mem_finished.mpr ⟨p, hp, hc, rfl⟩,
        Or.inr ⟨hknown, (Option.some.inj hf).symm⟩⟩
  · rintro ⟨r, hr, hf⟩
    obtain ⟨p, hp, hc, rfl⟩ := Scan.mem_finished.mp hr
    rcases hf with ⟨v, hv, hknown, rfl⟩ | ⟨hknown, rfl⟩
    · obtain ⟨q, hq, hscope, hqv⟩ := (h.mem_variants hp hc).mp hv
      obtain ⟨hk, hloc⟩ := Rule.variantOf?_eq_some hqv
      refine ⟨q.wordNode, Scan.mem_words.mpr ⟨q, hq, (Rule.variantOf?_word hqv).1, rfl⟩, ?_⟩
      unfold Vocabulary.findingAt?
      rw [show q.wordNode.item.kind = .variant v.toVariant from hk]
      dsimp only
      rw [Option.ite_none_right_eq_some, h.below_variant n hq hk]
      refine ⟨⟨⟨p, hp, hc, hscope⟩, hknown⟩, ?_⟩
      rw [PlacedVariant.finding, hloc]
      rfl
    · refine ⟨p.wordNode, Scan.mem_words.mpr ⟨p, hp, (Placed.isClosed_word hc).1, rfl⟩, ?_⟩
      rcases p with ⟨⟨id, _ | v | w, start⟩, scopes⟩
      · cases hc
      · cases hc
      · exact if_pos ⟨hc, hknown⟩

/-- The words of a tree report in source order. -/
theorem word_findings_sorted (h : Layout ended t s) (n : Nat) :
    ((s.tree n).words.filterMap (voc.findingAt? (s.tree n))).Pairwise
      fun f g => f.range.Before g.range := by
  rw [List.pairwise_filterMap, Scan.words_tree, List.pairwise_reverse, List.pairwise_map,
    List.pairwise_filter]
  refine h.starts.imp_of_mem ?_
  intro q p hq hp hlt _ hg f hf g hgq
  rw [Vocabulary.findingAt?_range hf, Vocabulary.findingAt?_range hgq]
  show p.item.span.Before q.item.span
  exact h.word_before hp hq (by simpa using hg) hlt

end Layout

/-! ## The law -/

/-- The diagnostics of a text are warnings, one for each word with a problem. They
come in the order of the words, and no two of them overlap. -/
theorem problems_are_reported_once (voc : Vocabulary) (t : Text) :
    voc.diagnostics t = ((Tree.ofText t).words.filterMap
        (voc.findingAt? (Tree.ofText t))).map Finding.toDiagnostic ∧
      (∀ d ∈ voc.diagnostics t, d.level = .warning) ∧
      (voc.diagnostics t).Pairwise fun d e => d.range.Before e.range := by
  obtain ⟨ended, s, hl, htree⟩ := Tree.layout_ofText t
  have hrules : t.rules = s.finished := by
    rw [← Scan.rules_tree s (size t), ← htree]
    rfl
  have hreview := Review.reports_foldl voc t.rules_inOrder
  have hirrefl : Std.Irrefl fun f g : Finding => f.range.Before g.range :=
    ⟨fun f h => h.ne rfl⟩
  have hanti : Std.Antisymm fun f g : Finding => f.range.Before g.range :=
    ⟨fun f g h h' => absurd h.1 (Nat.lt_asymm h'.1)⟩
  -- Both lists are sorted by place, so it is enough that they hold the same findings.
  have hfindings : voc.review t.rules =
      (Tree.ofText t).words.filterMap (voc.findingAt? (Tree.ofText t)) := by
    apply hreview.sorted.eq_of_mem_iff
    · rw [htree]
      exact hl.word_findings_sorted (size t)
    · intro f
      rw [hreview.findings, htree, hl.mem_word_findings, hrules]
  refine ⟨by rw [← hfindings]; rfl, ?_, ?_⟩
  · intro d hd
    obtain ⟨f, -, rfl⟩ := List.mem_map.mp hd
    rfl
  · exact List.pairwise_map.mpr hreview.sorted

/-- In `x:(a b)` the variant of two rules is reported once, in front of both names. -/
theorem problems_are_reported_once_below_a_variant :
    Vocabulary.diagnostics ⟨[], [], []⟩ "x:(a b)".toList =
        [⟨.warning, "unknown variant `x:`".toList, ⟨0, 2⟩⟩,
          ⟨.warning, "unknown directive `a`".toList, ⟨3, 4⟩⟩,
          ⟨.warning, "unknown directive `b`".toList, ⟨5, 6⟩⟩] ∧
      (Tree.ofText "x:(a b)".toList).words.length = 3 := by
  rw [(problems_are_reported_once ⟨[], [], []⟩ "x:(a b)".toList).1]
  decide

/-! ## Listed utilities -/

namespace Vocabulary

variable {voc : Vocabulary} {t : Text} {r : Rule} {u : Utility}

/-- The name has square brackets, and no utility with an interpolation has the part in front
of them. A template is no such name. -/
def LacksHead (voc : Vocabulary) (name : Text) : Prop :=
  ∃ head, bracketHead? name = some head ∧ isTemplate name = false ∧
    ∀ i ∈ voc.utilities, i.interpolation.isSome = true → i.value ≠ head

/-- A listed utility without an interpolation is known by its value. A value with
square brackets is left to the utilities with an interpolation. -/
theorem unknown_iff_of_listed (hu : u ∈ voc.utilities) (hi : u.interpolation = none) :
    voc.knowsUtility u.value = false ↔ voc.LacksHead u.value := by
  cases hhead : bracketHead? u.value with
  | none =>
    have hknown : voc.knowsUtility u.value = true := by
      unfold knowsUtility
      split
      · rfl
      · rw [hhead, List.any_eq_true]
        exact ⟨u, hu, by simp [Utility.accepts, hi]⟩
    simp [LacksHead, hhead, hknown]
  | some head =>
    have hne : u.value.isEmpty = false := by
      cases hu : u.value with
      | nil => simp [hu, bracketHead?] at hhead
      | cons => rfl
    unfold knowsUtility LacksHead
    rw [hhead, hne, Bool.or_false]
    cases isTemplate u.value <;> simp

/-- The name of a rule is looked up without the `-` of a negated rule. -/
def Misses (voc : Vocabulary) (r : Rule) : Prop :=
  if r.negated then voc.knowsUtility r.bareName = false else voc.LacksHead r.name

theorem misses_iff (hu : u ∈ voc.utilities) (hi : u.interpolation = none)
    (hv : u.value = r.name) : voc.Misses r ↔ voc.knowsUtility r.bareName = false := by
  unfold Misses
  split
  · rfl
  · rename_i hn
    have hname : r.name = r.bareName := if_neg hn
    rw [← hname, ← hv, unknown_iff_of_listed hu hi]

end Vocabulary

/-- A rule whose name is listed without an interpolation is not reported, unless its name is
missed: that of a negated rule is looked up without its `-`, and one with square brackets only
among the utilities with an interpolation. A rule that is missed is reported as unknown. -/
theorem a_listed_utility_is_not_reported {voc : Vocabulary} {t : Text} {r : Rule} {u : Utility}
    (hr : r ∈ t.rules) (hu : u ∈ voc.utilities) (hi : u.interpolation = none)
    (hv : u.value = r.name) :
    (¬ voc.Misses r → ∀ d ∈ voc.diagnostics t, d.range ≠ r.loc) ∧
      (voc.Misses r → r.finding.toDiagnostic ∈ voc.diagnostics t) := by
  rw [Vocabulary.misses_iff hu hi hv]
  constructor
  · intro hknown
    exact Vocabulary.quiet_at_name hr (by simpa using hknown)
  · intro hunknown
    exact Vocabulary.mem_diagnostics.mpr ⟨r, hr, r.finding, Or.inr ⟨hunknown, rfl⟩, rfl⟩

/-- In `-mx(2) w-[3px]` both names are listed. The first one is known without its `-`, too, and
the second one is reported. -/
theorem a_listed_utility_is_not_reported_though_negated :
    ∃ voc : Vocabulary, (∀ u ∈ voc.utilities, u.interpolation = none) ∧
      voc.utilities.map (·.value) = ["-mx-2".toList, "mx-2".toList, "w-[3px]".toList] ∧
      ∃ r ∈ Text.rules "-mx(2) w-[3px]".toList, r.name = "-mx-2".toList ∧
        (∀ d ∈ voc.diagnostics "-mx(2) w-[3px]".toList, d.range ≠ r.loc) ∧
        ∃ r ∈ Text.rules "-mx(2) w-[3px]".toList, r.name = "w-[3px]".toList ∧
          r.finding.toDiagnostic ∈ voc.diagnostics "-mx(2) w-[3px]".toList := by
  let voc : Vocabulary := ⟨[], [], [⟨"-mx-2".toList, none, none⟩, ⟨"mx-2".toList, none, none⟩,
    ⟨"w-[3px]".toList, none, none⟩]⟩
  obtain ⟨r, hr, hname, hnegated, hbare⟩ : ∃ r ∈ Text.rules "-mx(2) w-[3px]".toList,
      r.name = "-mx-2".toList ∧ r.negated = true ∧ r.bareName = "mx-2".toList := by decide
  obtain ⟨r', hr', hname', hplain⟩ : ∃ r ∈ Text.rules "-mx(2) w-[3px]".toList,
      r.name = "w-[3px]".toList ∧ r.negated = false := by decide
  have hknown : ¬ voc.Misses r := by
    unfold Vocabulary.Misses
    rw [hnegated, if_pos rfl, hbare]
    decide
  have hmissed : voc.Misses r' := by
    unfold Vocabulary.Misses
    rw [hplain, if_neg Bool.false_ne_true, hname']
    exact ⟨"w-".toList, by decide⟩
  refine ⟨voc, by decide, rfl, r, hr, hname, ?_, r', hr', hname', ?_⟩
  · exact (a_listed_utility_is_not_reported (u := ⟨"-mx-2".toList, none, none⟩) hr (by decide) rfl
      hname.symm).1 hknown
  · exact (a_listed_utility_is_not_reported (u := ⟨"w-[3px]".toList, none, none⟩) hr' (by decide)
      rfl hname'.symm).2 hmissed

/-- A negated rule is looked up without its `-`, and a name with square brackets only among the
utilities with an interpolation. So both are reported, though the vocabulary has the
declarations that belong to the name. -/
theorem a_listed_utility_may_be_reported :
    (∃ r ∈ Text.rules "-mx-2".toList, r.name = "-mx-2".toList ∧
      Vocabulary.css ⟨[], [], [⟨"-mx-2".toList, none, some "margin: -2px".toList⟩]⟩ r =
        some "margin: -2px".toList ∧
      Finding.toDiagnostic ⟨.unknownDirective "-mx-2".toList, r.loc⟩ ∈
        Vocabulary.diagnostics ⟨[], [], [⟨"-mx-2".toList, none, some "margin: -2px".toList⟩]⟩
          "-mx-2".toList) ∧
    ∃ r ∈ Text.rules "w-[3px]".toList, r.name = "w-[3px]".toList ∧
      Vocabulary.css ⟨[], [], [⟨"w-[3px]".toList, none, some "width: 3px".toList⟩]⟩ r =
        some "width: 3px".toList ∧
      Finding.toDiagnostic ⟨.unknownDirective "w-[3px]".toList, r.loc⟩ ∈
        Vocabulary.diagnostics ⟨[], [], [⟨"w-[3px]".toList, none, some "width: 3px".toList⟩]⟩
          "w-[3px]".toList := by
  decide

end ClassList
