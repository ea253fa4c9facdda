-- The laws of accepted completions. The label of a completion is what is left
-- of a key of the vocabulary inside the groups around the offset, so reading the
-- label there gives the key back, and diagnostics know it.
import Mathlib
import ClassList.Completion
import ClassList.Proofs.Composition
import ClassList.Proofs.Continuation
import ClassList.Proofs.Findings

namespace ClassList

open Text

/-! ## Names in a group -/

namespace Rule

/-- A name behind an outer name that may be empty. -/
def extend (outer name : Text) : Text := if outer = [] then name else outer ++ '-' :: name

theorem prefix_extend (outer name : Text) : outer <+: extend outer name := by
  unfold extend
  split
  · rename_i h
    rw [h]
    exact List.nil_prefix
  · exact List.prefix_append _ _

theorem intercalate_concat {l : List Text} (n : Text) (hne : ∀ a ∈ l, a ≠ []) :
    ['-'].intercalate (l ++ [n]) = extend (['-'].intercalate l) n := by
  induction l with
  | nil => simp [extend, List.intercalate]
  | cons a l ih =>
    cases l with
    | nil => simp [extend, List.intercalate, hne a (by simp)]
    | cons b l =>
      have hb := intercalate_ne_nil l (hne b (by simp))
      have hrest := ih (fun a ha => hne a (by simp [ha]))
      rw [List.cons_append] at hrest
      rw [List.cons_append, List.cons_append, intercalate_cons_cons, intercalate_cons_cons, hrest]
      simp [extend, hb]

theorem joinNames_concat {n : Text} (names : List Text) (hne : n ≠ []) (hamp : n ≠ ['&']) :
    joinNames (names ++ [n]) = extend (joinNames names) n := by
  unfold joinNames
  rw [List.filter_append, List.filter_cons_of_pos (by simp [hne, hamp]), List.filter_nil]
  exact intercalate_concat n fun a ha => (mem_counted ha).2.2

theorem joinNames_concat_skip {n : Text} (names : List Text) (h : n = ['&'] ∨ n = []) :
    joinNames (names ++ [n]) = joinNames names := by
  unfold joinNames
  rw [List.filter_append, List.filter_cons_of_neg, List.filter_nil, List.append_nil]
  rcases h with rfl | rfl <;> simp

/-- The last name adds to the outer name or leaves it as it is. -/
theorem bareOuter_prefix {r : Rule} (h : r.names ≠ []) : r.bareOuter <+: r.bareName := by
  obtain ⟨names, n, hnames⟩ := (List.eq_nil_or_concat r.names).resolve_left h
  unfold bareOuter bareName
  rw [hnames, List.concat_eq_append, List.dropLast_concat]
  by_cases hn : n = ['&'] ∨ n = []
  · rw [joinNames_concat_skip names hn]
  · rw [not_or] at hn
    rw [joinNames_concat names hn.2 hn.1]
    exact prefix_extend _ _

end Rule

/-- The outer name and what is left of a longer name make up that name. -/
theorem eq_extend_of_relativeName? {outer key label : Text} (hp : outer <+: key)
    (h : relativeName? outer key = some label) : key = Rule.extend outer label := by
  obtain ⟨rest, rfl⟩ := hp
  unfold relativeName? at h
  unfold Rule.extend
  split at h
  · rename_i houter
    rw [List.isEmpty_iff] at houter
    subst houter
    split at h
    · cases h
    · simpa using h
  · rename_i houter
    rw [List.isEmpty_iff] at houter
    -- The name starts with the outer one, so the last branch is never taken.
    have hdrop : Text.dropStart? (outer ++ rest) outer = some rest := by simp [dropStart?]
    rw [hdrop] at h
    rw [if_neg houter]
    split at h
    · rename_i tail htail
      split at h
      · cases h
      · obtain rfl := Option.some.inj h
        rw [Option.some.inj htail]
    · cases h
    · rename_i hnone
      cases hnone

/-! ## What is offered -/

/-- What a completion of a rule that is being typed shows, by its kind. The detail
is the full name, and the label is what is left of it in the groups of the rule. -/
structure Vocabulary.Offers (voc : Vocabulary) (r : Rule) (c : Completion) : Prop where
  range : c.range = r.loc
  variant : c.kind = .screen ∨ c.kind = .variant →
    ∃ v, voc.knowsVariant v = true ∧ c.label = v ++ [':']
  group : c.kind = .directiveGroup →
    c.detail = some (Rule.extend r.bareOuter c.label ++ "(...)".toList)
  directive : c.kind = .directive → c.detail = some (Rule.extend r.bareOuter c.label)
  self : c.kind = .selfReference → c.label = ['&'] ∧ c.detail = some r.bareOuter

namespace Vocabulary

variable {voc : Vocabulary} {r : Rule} {c : Completion}

theorem prefix_of_mem_keys {key : Text} (h : key ∈ voc.keys r) : r.bareName <+: key := by
  unfold keys at h
  exact List.isPrefixOf_iff_prefix.mp (List.mem_filter.mp h).2

theorem prefix_of_mem_groups {g : Text} (h : g ∈ voc.groups r) : r.bareName <+: g := by
  unfold groups at h
  rw [List.mem_eraseDups, List.mem_filterMap] at h
  obtain ⟨key, -, hg⟩ := h
  unfold groupOf? at hg
  dsimp only at hg
  split at hg
  · obtain rfl := Option.some.inj hg
    exact List.prefix_append _ _
  · cases hg

theorem offers_of_mem (hnames : r.names ≠ []) (h : c ∈ voc.offers r) : voc.Offers r c := by
  have houter := Rule.bareOuter_prefix hnames
  unfold offers at h
  simp only [List.mem_append, or_assoc] at h
  rcases h with h | h | h | h | h
  · unfold screenCompletions at h
    split at h
    · obtain ⟨s, hs, rfl⟩ := List.mem_map.mp h
      have hmem : s.1 ∈ voc.screens.map Prod.fst := List.mem_map_of_mem (List.mem_filter.mp hs).1
      have hknown : voc.knowsVariant s.1 = true := by simp [knowsVariant, hmem]
      exact ⟨rfl, fun _ => ⟨s.1, hknown, rfl⟩, by simp, by simp, by simp⟩
    · cases h
  · unfold variantCompletions at h
    obtain ⟨v, hv, rfl⟩ := List.mem_map.mp h
    have hknown : voc.knowsVariant v = true := by simp [knowsVariant, (List.mem_filter.mp hv).1]
    exact ⟨rfl, fun _ => ⟨v, hknown, rfl⟩, by simp, by simp, by simp⟩
  · unfold groupCompletions at h
    obtain ⟨g, hg, h⟩ := List.mem_filterMap.mp h
    obtain ⟨label, hlabel, rfl⟩ := Option.map_eq_some_iff.mp h
    have hkey := eq_extend_of_relativeName? (houter.trans (prefix_of_mem_groups hg)) hlabel
    exact ⟨rfl, by simp, fun _ => by rw [hkey], by simp, by simp⟩
  · unfold directiveCompletions at h
    obtain ⟨key, hkey, h⟩ := List.mem_filterMap.mp h
    obtain ⟨label, hlabel, rfl⟩ := Option.map_eq_some_iff.mp h
    have hkey := eq_extend_of_relativeName? (houter.trans (prefix_of_mem_keys hkey)) hlabel
    exact ⟨rfl, by simp, by simp, fun _ => by rw [hkey], by simp⟩
  · unfold selfCompletions at h
    split at h
    · obtain rfl := List.mem_singleton.mp h
      exact ⟨rfl, by simp, by simp, by simp, fun _ => ⟨rfl, rfl⟩⟩
    · cases h

end Vocabulary

/-! ## Plain names -/

/-- A plain word that is its own name in any group: it has no marks and is no `&`. -/
structure Text.PlainName (w : Text) : Prop extends PlainWord w where
  unmarked : '!' ∉ w
  minus : w.head? ≠ some '-'
  amp : w ≠ ['&']

/-- A plain name, or one with a colon at its end: the variant `after::` has the name
`after:`. -/
def Text.PlainVariant (name : Text) : Prop :=
  ∃ p : Text, p.PlainName ∧ (name = p ∨ name = p ++ [':'])

theorem Variant.name_concat (v : Text) : (Variant.mk (v ++ [':'])).name = v :=
  List.dropLast_concat

namespace Text.PlainName

variable {w : Text}

theorem name_eq (h : w.PlainName) (closed : Bool) : (⟨w, closed⟩ : Identifier).name = w := by
  have hlast : w.getLast? ≠ some '!' := fun hw => h.unmarked (List.mem_of_getLast? hw)
  exact (h.toPlainWord.unmarked hlast h.minus closed).2.2

theorem bracketHead?_eq (h : w.PlainName) : Vocabulary.bracketHead? w = none := by
  have hdrop : w.dropWhile (· ≠ '[') = [] := by
    rw [List.dropWhile_eq_nil_iff]
    intro c hc
    simpa using (h.chars c hc).2.1
  unfold Vocabulary.bracketHead?
  rw [hdrop]

end Text.PlainName

theorem Text.PlainVariant.plain {name : Text} (h : name.PlainVariant) :
    Scan.Plain (name ++ [':']) := by
  obtain ⟨p, hp, hname⟩ := h
  obtain ⟨colons, hcolons, hraw⟩ : ∃ colons, (colons = [':'] ∨ colons = [':', ':']) ∧
      name ++ [':'] = p ++ colons := by
    rcases hname with rfl | rfl
    · exact ⟨[':'], Or.inl rfl, rfl⟩
    · exact ⟨[':', ':'], Or.inr rfl, by simp⟩
  have hhead : (p ++ colons).head? = p.head? := List.head?_append_of_ne_nil p hp.ne_nil
  rw [hraw]
  refine ⟨⟨p, colons, rfl, hp.solid, hp.not_inRun, hcolons⟩, ?_, ?_⟩
  · rw [hhead]
    exact hp.bang
  · rw [hhead]
    intro hcolon
    exact (hp.chars ':' (List.mem_of_head? hcolon)).1 (by decide)

/-! ## Names behind the names around them -/

namespace Rule

/-- The name that the items around a rule give it. -/
def outerOf (scopes : List Item) : Text :=
  joinNames ((scopes.filterMap Item.identifier?).map Identifier.name).reverse

variable (w : Text) (start : Nat) (scopes : List Item)

theorem ofName_bareOuter : (ofName w start scopes).bareOuter = outerOf scopes := by
  rw [bareOuter, ofName_names, List.dropLast_concat]
  rfl

theorem ofName_bareName_amp : (ofName ['&'] start scopes).bareName = outerOf scopes := by
  rw [bareName, ofName_names]
  exact joinNames_concat_skip _ (Or.inl rfl)

theorem ofName_bareName_plain {w : Text} (h : w.PlainName) :
    (ofName w start scopes).bareName = extend (outerOf scopes) w := by
  rw [bareName, ofName_names, h.name_eq, joinNames_concat _ h.ne_nil h.amp]
  rfl

end Rule

/-! ## Reading on behind a text at rest -/

namespace Scan.Rested

variable {a w v : Text}

theorem not_inRun (h : (run a).Rested) : inRun a = false := by
  rw [Bool.eq_false_iff]
  intro hin
  exact h.mode_ne ((hasRead_run a).inRun_iff.mp hin)

theorem start_eq (h : (run a).Rested) : (run a).settle.start = size a := by
  have hoffset := (hasRead_settle (hasRead_run a)).offset_eq
  rw [offset, h.word_nil] at hoffset
  simpa using hoffset

theorem ruleHere_word (h : (run a).Rested) (hw : Solid w) :
    (run (a ++ w)).settle.ruleHere = .ofName w (size a) (run a).settle.scopes := by
  rw [run_append, h.settle_word hw, ← h.start_eq]
  rfl

theorem settle_variant (h : (run a).Rested) (hv : Plain v) :
    (run (a ++ v)).settle = (run a).settle.enterVariants [v] := by
  have hread := h.settle_variants (by simpa using hv : ∀ u ∈ [v], Plain u)
  rwa [List.flatten_singleton, ← run_append] at hread

/-- The variant in front of the offset is the last one of the rule there. -/
theorem ruleHere_variants (h : (run a).Rested) (hv : Plain v) :
    (run (a ++ v)).settle.ruleHere.variants =
      ((run a).settle.scopes.filterMap Rule.variantOf?).reverse ++ [⟨⟨v⟩, .ofText (size a) v⟩] := by
  rw [ruleHere, Rule.ofName_variants, h.settle_variant hv, ← h.start_eq, ← List.reverse_cons]
  rfl

theorem inRun_word (h : (run a).Rested) (hw : w.PlainWord) : inRun (a ++ w) = false := by
  rw [inRun_append, h.not_inRun]
  exact hw.not_inRun

/-- In the group of a plain name that name is the last of the outer ones. -/
theorem outerOf_group (h : (run a).Rested) (hw : w.PlainName) :
    Rule.outerOf (run (a ++ w ++ ['('])).settle.scopes =
      Rule.extend (Rule.outerOf (run a).settle.scopes) w := by
  have hne : w.isEmpty = false := by simpa using hw.ne_nil
  have hscopes : (run (a ++ w ++ ['('])).settle.scopes.filterMap Item.identifier? =
      ⟨w, false⟩ :: (run a).settle.scopes.filterMap Item.identifier? := by
    rw [run_push (h.inRun_word hw.toPlainWord) (by decide), run_append,
      h.settle_word hw.solid, read_opening]
    unfold endOuter
    dsimp only
    rw [hne]
    rfl
  unfold Rule.outerOf
  rw [hscopes, List.map_cons, List.reverse_cons, hw.name_eq,
    Rule.joinNames_concat _ hw.ne_nil hw.amp]

end Scan.Rested

namespace Text

theorem ruleTyped_size (a b : Text) :
    ruleTyped (size a) (a ++ b) = (Scan.run a).settle.ruleHere := by
  rw [ruleTyped_eq, upTo_size_append]
  rfl

/-- The text in front of the word being typed leaves the scan at rest. -/
theorem typed_split (t : Text) (n : Nat) :
    ∃ before w rest, t = before ++ w ++ rest ∧ (Scan.run before).Rested ∧
      t.ruleTyped n = .ofName w (size before) (Scan.run before).settle.scopes := by
  obtain ⟨before, hupTo, hword, hstart, hscopes⟩ :=
    Scan.settle_rewind (u := []) (v := (Scan.run (t.upTo n)).settle.word) rfl
  have hrested : (Scan.run before).Rested := by
    refine ⟨?_, hword⟩
    intro hm
    have hfits := (Scan.hasRead_run before).fits
    rw [Scan.settle_of_mode (by rw [hm]; decide)] at hword
    rw [hm, hword] at hfits
    cases hfits.2
  refine ⟨before, (Scan.run (t.upTo n)).settle.word, t.after n, ?_, hrested, ?_⟩
  · rw [← hupTo, upTo_append_after]
  · rw [ruleTyped_eq, ← hstart, hrested.start_eq, hscopes]

/-- A blank finishes the rule in front of it, whatever follows. -/
theorem mem_rules_of_blank {a : Text} (rest : Text) (ha : inRun a = false)
    (hname : (Scan.run a).settle.word ≠ [] ∨ (Scan.run a).settle.awaitsName = true) :
    (Scan.run a).settle.ruleHere ∈ Text.rules (a ++ ' ' :: rest) := by
  have hblank : ' ' ∈ blanks ∨ ' ' = ')' := by decide
  have hplaced := ((Scan.run a).settle.read_terminator hblank).2
  obtain ⟨later, hrules, -⟩ := rules_append (a ++ [' ']) rest
  rw [run_push ha (terminator_ne_colon hblank), Scan.finished_congr hplaced,
    Scan.finished_closed (Scan.endIdentifier_placed hname) rfl, Scan.ofChain_nameHere] at hrules
  have hsplit : a ++ ' ' :: rest = a ++ [' '] ++ rest := by simp
  rw [hsplit, hrules]
  simp

end Text

/-! ## A completion put into a text -/

namespace Completion

/-- The text with the label in place of the range, and some text behind the label. -/
def putInto (c : Completion) (behind t : Text) : Text :=
  t.upTo c.range.start ++ (c.label ++ behind) ++ t.after c.range.stop

/-- The rule being typed behind the label and the text behind it. -/
def ruleAfter (c : Completion) (behind t : Text) : Rule :=
  (c.putInto behind t).ruleTyped (c.range.start + size (c.label ++ behind))

/-- The completion is for the word `w` behind the text `before`. -/
structure Replaces (c : Completion) (before w rest t : Text) : Prop where
  split : t = before ++ w ++ rest
  range : c.range = ⟨size before, size (before ++ w)⟩
  rested : (Scan.run before).Rested

namespace Replaces

variable {c : Completion} {before w rest t : Text}

theorem upTo_start (h : c.Replaces before w rest t) : t.upTo c.range.start = before := by
  rw [h.range, h.split, List.append_assoc, upTo_size_append]

theorem ruleAfter_eq (h : c.Replaces before w rest t) (behind : Text) :
    c.ruleAfter behind t = (Scan.run (before ++ (c.label ++ behind))).settle.ruleHere := by
  unfold ruleAfter putInto
  rw [h.upTo_start, h.range, h.split, after_size_append, ← size_append, ruleTyped_size]

theorem boundaries (h : c.Replaces before w rest t) :
    isBoundary c.range.start t = true ∧ isBoundary c.range.stop t = true := by
  rw [h.range, isBoundary_iff, isBoundary_iff]
  exact ⟨⟨before, w ++ rest, by rw [h.split, List.append_assoc], rfl⟩,
    ⟨before ++ w, rest, h.split, rfl⟩⟩

end Replaces

end Completion

namespace Vocabulary

variable {voc : Vocabulary} {t : Text} {n : Nat} {c : Completion}

theorem mem_completions : c ∈ voc.completions t n ↔ c ∈ voc.offers (t.ruleTyped n) :=
  List.mem_mergeSort

/-- A completion replaces the word being typed and is offered for its rule. -/
theorem replaces_of_mem (hc : c ∈ voc.completions t n) :
    ∃ before w rest, c.Replaces before w rest t ∧
      t.ruleTyped n = .ofName w (size before) (Scan.run before).settle.scopes ∧
      voc.Offers (.ofName w (size before) (Scan.run before).settle.scopes) c := by
  obtain ⟨before, w, rest, hsplit, hrested, htyped⟩ := t.typed_split n
  have hoffer : voc.Offers (.ofName w (size before) (Scan.run before).settle.scopes) c := by
    rw [mem_completions, htyped] at hc
    exact offers_of_mem (by simp [Rule.ofName_names]) hc
  have hrange : c.range = ⟨size before, size (before ++ w)⟩ := by
    rw [hoffer.range, size_append]
    rfl
  exact ⟨before, w, rest, ⟨hsplit, hrange, hrested⟩, htyped, hoffer⟩

end Vocabulary

/-! ## The laws -/

/-- A completion stands between two boundaries of the text, and accepting it gives
the rule that it showed: a directive the key, the variants kept; a `&` the name of
the groups around; a variant one variant more; and a group, once it is opened, its
outer name. -/
theorem accepting_gives_what_was_shown {voc : Vocabulary} {t : Text} {n : Nat} {c : Completion}
    (hc : c ∈ voc.completions t n) :
    (isBoundary c.range.start t = true ∧ isBoundary c.range.stop t = true) ∧
    (c.kind = .directive → c.label.PlainName →
      (c.ruleAfter [] t).variants = (t.ruleTyped n).variants ∧
        c.detail = some (c.ruleAfter [] t).bareName) ∧
    (c.kind = .selfReference → c.detail = some (c.ruleAfter [] t).bareName) ∧
    (c.kind = .screen ∨ c.kind = .variant → (Variant.mk c.label).name.PlainVariant →
      (c.ruleAfter [] t).variants.map (·.value) =
        (t.ruleTyped n).variants.map (·.value) ++ [c.label]) ∧
    (c.kind = .directiveGroup → c.label.PlainName →
      c.detail = some ((c.ruleAfter ['('] t).bareOuter ++ "(...)".toList)) := by
  obtain ⟨before, w, rest, hreplaces, htyped, hoffer⟩ := Vocabulary.replaces_of_mem hc
  have hrested := hreplaces.rested
  refine ⟨hreplaces.boundaries, ?_, ?_, ?_, ?_⟩
  · intro hkind hplain
    rw [hoffer.directive hkind, hreplaces.ruleAfter_eq, List.append_nil,
      hrested.ruleHere_word hplain.solid, Rule.ofName_bareName_plain _ _ hplain,
      Rule.ofName_bareOuter, htyped]
    exact ⟨rfl, rfl⟩
  · intro hkind
    obtain ⟨hlabel, hdetail⟩ := hoffer.self hkind
    have hamp : Solid ['&'] := by simp [Solid, outside, delimiters]
    rw [hdetail, hreplaces.ruleAfter_eq, hlabel, List.append_nil, hrested.ruleHere_word hamp,
      Rule.ofName_bareName_amp, Rule.ofName_bareOuter]
  · intro hkind hplain
    obtain ⟨v, -, hlabel⟩ := hoffer.variant hkind
    rw [hlabel, Variant.name_concat] at hplain
    rw [hreplaces.ruleAfter_eq, hlabel, List.append_nil, hrested.ruleHere_variants hplain.plain,
      List.map_append, htyped]
    rfl
  · intro hkind hplain
    rw [hoffer.group hkind, hreplaces.ruleAfter_eq, ← List.append_assoc, Scan.ruleHere,
      Rule.ofName_bareOuter, Rule.ofName_bareOuter, hrested.outerOf_group hplain]

/-- The directive completes the `2` of a negated group, and its label makes up the key
together with the name of the group. -/
theorem accepting_gives_what_was_shown_in_a_negated_group :
    ∃ c ∈ Vocabulary.completions ⟨[], [], [⟨"mx-24".toList, none, none⟩]⟩
        "sm:-mx(2)b".toList 8,
      c.kind = .directive ∧ c.label = "24".toList ∧ c.label.PlainName ∧
      c.putInto [] "sm:-mx(2)b".toList = "sm:-mx(24)b".toList ∧
      (c.ruleAfter [] "sm:-mx(2)b".toList).name = "-mx-24".toList ∧
      c.detail = some (c.ruleAfter [] "sm:-mx(2)b".toList).bareName := by
  obtain ⟨c, hc, hkind, hlabel, hput, hname⟩ : ∃ c ∈ Vocabulary.offers
      ⟨[], [], [⟨"mx-24".toList, none, none⟩]⟩ (Text.ruleTyped 8 "sm:-mx(2)b".toList),
      c.kind = .directive ∧ c.label = "24".toList ∧
      c.putInto [] "sm:-mx(2)b".toList = "sm:-mx(24)b".toList ∧
      (c.ruleAfter [] "sm:-mx(2)b".toList).name = "-mx-24".toList := by decide
  have hc := Vocabulary.mem_completions.mpr hc
  have hplain : c.label.PlainName := by
    rw [hlabel]
    exact ⟨⟨by decide, by simp [delimiters], by decide⟩, by decide, by decide, by decide⟩
  have hshown := (accepting_gives_what_was_shown hc).2.1 hkind hplain
  exact ⟨c, hc, hkind, hlabel, hplain, hput, hname, hshown.2⟩

namespace Vocabulary

variable {voc : Vocabulary} {a w v : Text}

/-- Nothing is reported at a plain name that is known in the groups around it. -/
theorem quiet_at_plain_name (h : (Scan.run a).Rested) (hw : w.PlainName) (rest : Text)
    (hknown : voc.knowsUtility
      (Rule.extend (Rule.outerOf (Scan.run a).settle.scopes) w) = true) :
    ∀ d ∈ voc.diagnostics (a ++ w ++ ' ' :: rest), d.range ≠ .ofText (size a) w := by
  have hrule := h.ruleHere_word hw.solid
  have hword : (Scan.run (a ++ w)).settle.word ≠ [] := by
    rw [Scan.run_append, h.settle_word hw.solid]
    exact hw.ne_nil
  have hmem := mem_rules_of_blank rest (h.inRun_word hw.toPlainWord) (Or.inl hword)
  rw [hrule] at hmem
  apply quiet_at_name hmem
  rw [Rule.ofName_bareName_plain _ _ hw]
  exact hknown

/-- Nothing is reported at a variant that is known. -/
theorem quiet_at_plain_variant (h : (Scan.run a).Rested) (hv : Scan.Plain v) (rest : Text)
    (hknown : voc.knowsVariant (Variant.mk v).name = true) :
    ∀ d ∈ voc.diagnostics (a ++ v ++ ' ' :: rest), d.range ≠ .ofText (size a) v := by
  have hrun : inRun (a ++ v) = false := by
    rw [inRun_append, h.not_inRun]
    exact hv.text.not_inRun
  have hname : (Scan.run (a ++ v)).settle.awaitsName = true := by
    rw [h.settle_variant hv]
    exact Scan.enterVariants_awaitsName _ (by simp)
  have hmem := mem_rules_of_blank rest hrun (Or.inr hname)
  have hlast : (⟨⟨v⟩, .ofText (size a) v⟩ : PlacedVariant) ∈
      (Scan.run (a ++ v)).settle.ruleHere.variants := by
    rw [h.ruleHere_variants hv]
    simp
  exact quiet_at_variant hmem hlast hknown

end Vocabulary

/-- What a completion puts in is not reported, whatever follows it: neither a plain
variant nor a plain name whose key is listed without an interpolation. -/
theorem accepted_completions_are_not_reported {voc : Vocabulary} {t : Text} {n : Nat}
    {c : Completion} (hc : c ∈ voc.completions t n)
    (hplain : (c.kind = .screen ∨ c.kind = .variant) ∧ (Variant.mk c.label).name.PlainVariant ∨
      c.kind = .directive ∧ c.label.PlainName ∧
        ∃ u ∈ voc.utilities, u.interpolation = none ∧ u.value.PlainName ∧ c.detail = some u.value)
    (rest : Text) :
    ∀ d ∈ voc.diagnostics (t.upTo c.range.start ++ c.label ++ ' ' :: rest),
      d.range ≠ .ofText c.range.start c.label := by
  obtain ⟨before, w, behind, hreplaces, -, hoffer⟩ := Vocabulary.replaces_of_mem hc
  rw [hreplaces.upTo_start, hreplaces.range]
  rcases hplain with ⟨hkind, hvariant⟩ | ⟨hkind, hlabel, u, hu, hi, hvalue, hdetail⟩
  · obtain ⟨v, hv, hlabel⟩ := hoffer.variant hkind
    rw [hlabel] at hvariant ⊢
    rw [Variant.name_concat] at hvariant
    apply Vocabulary.quiet_at_plain_variant hreplaces.rested hvariant.plain
    rw [Variant.name_concat]
    exact hv
  · -- The label in its groups is the listed value again.
    have hkey : Rule.extend (Rule.outerOf (Scan.run before).settle.scopes) c.label = u.value := by
      rw [hoffer.directive hkind, Rule.ofName_bareOuter] at hdetail
      exact Option.some.inj hdetail
    apply Vocabulary.quiet_at_plain_name hreplaces.rested hlabel
    have hhead : ¬ voc.LacksHead u.value := by
      rintro ⟨head, hhead, -⟩
      rw [hvalue.bracketHead?_eq] at hhead
      cases hhead
    rw [hkey]
    simpa using (Vocabulary.unknown_iff_of_listed hu hi).not.mpr hhead

/-- The variant is put in behind another one. It stands there without a name, and a
group that is never closed follows. -/
theorem accepted_completions_are_not_reported_behind_a_variant :
    ∃ c ∈ Vocabulary.completions ⟨[], ["hover".toList], []⟩ "x:(sm:ho b)".toList 8,
      c.kind = .variant ∧ c.label = "hover:".toList ∧
      (Variant.mk c.label).name.PlainVariant ∧ c.range = ⟨6, 8⟩ ∧
      ∀ d ∈ Vocabulary.diagnostics ⟨[], ["hover".toList], []⟩ "x:(sm:hover: (b".toList,
        d.range ≠ ⟨6, 12⟩ := by
  obtain ⟨c, hc, hkind, hlabel, hrange⟩ : ∃ c ∈ Vocabulary.offers ⟨[], ["hover".toList], []⟩
      (Text.ruleTyped 8 "x:(sm:ho b)".toList),
      c.kind = .variant ∧ c.label = "hover:".toList ∧ c.range = ⟨6, 8⟩ := by decide
  have hc := Vocabulary.mem_completions.mpr hc
  have hhover : Text.PlainName "hover".toList :=
    ⟨⟨by decide, by simp [delimiters], by decide⟩, by decide, by decide, by decide⟩
  have hplain : (Variant.mk c.label).name.PlainVariant := by
    rw [hlabel]
    exact ⟨_, hhover, Or.inl rfl⟩
  have hquiet := accepted_completions_are_not_reported hc (Or.inl ⟨Or.inr hkind, hplain⟩)
    "(b".toList
  rw [hlabel, hrange] at hquiet
  exact ⟨c, hc, hkind, hlabel, hplain, hrange, hquiet⟩

end ClassList
