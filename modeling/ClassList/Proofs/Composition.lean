-- The laws of composed texts. White space puts the rules of two texts one
-- behind the other, and a group adds its variant or its outer name to every
-- rule of its content, whatever the content is.
import Mathlib
import ClassList.Proofs.Reading
import ClassList.Proofs.Names
import ClassList.Proofs.Relocation

namespace ClassList

open Text

/-! ## The end of a name -/

namespace Scan

variable {s : Scan} {c : Char}

theorem step_eq_read (hm : s.mode ≠ .bracket) (hc : c ≠ ':') : s.step c = s.settle.read c := by
  cases h : s.mode with
  | plain =>
    rw [settle_of_mode (by rw [h]; decide)]
    simp [step, h]
  | bracket => exact absurd h hm
  | colon =>
    rw [settle_of_colon h]
    simp [step, h, hc]

/-- Behind the end of a name, no name is due. -/
theorem endIdentifier_nameless (s : Scan) : s.endIdentifier.awaitsName = false := by
  unfold endIdentifier
  split
  · rename_i h
    simp only [Bool.and_eq_true, Bool.not_eq_true'] at h
    exact h.2
  · rfl

theorem read_blank (s : Scan) (hc : c ∈ blanks) :
    s.read c = s.endIdentifier.leaveWords.restart (s.offset + c.utf8Size) := by
  unfold read
  rw [Delimiter.ofChar?_eq_blank.mpr hc]

theorem read_opening (s : Scan) :
    s.read '(' = (s.endOuter.enter .group s.offset).restart (s.offset + 1) := rfl

theorem read_closing (s : Scan) :
    s.read ')' = (s.endIdentifier.leaveWords.leaveGroup (s.offset + 1)).restart (s.offset + 1) :=
  rfl

/-- White space and a closing parenthesis end a name as the end of the text
does. -/
theorem read_terminator (s : Scan) (hc : c ∈ blanks ∨ c = ')') :
    (s.read c).Idle ∧ (s.read c).placed = s.endIdentifier.placed := by
  rcases hc with hc | rfl
  · rw [read_blank s hc]
    exact ⟨⟨rfl, rfl, s.endIdentifier_nameless⟩, rfl⟩
  · rw [read_closing]
    have hplaced : ((s.endIdentifier.leaveWords.leaveGroup (s.offset + 1)).restart
        (s.offset + 1)).placed = s.endIdentifier.placed := by simp
    refine ⟨⟨rfl, rfl, ?_⟩, hplaced⟩
    unfold awaitsName
    rw [hplaced]
    exact s.endIdentifier_nameless

end Scan

namespace Text

variable {a : Text} {c : Char}

theorem run_push (ha : inRun a = false) (hc : c ≠ ':') :
    Scan.run (a ++ [c]) = (Scan.run a).settle.read c := by
  have hm : (Scan.run a).mode ≠ .bracket := by
    intro hm
    rw [(Scan.hasRead_run a).inRun_iff.mpr hm] at ha
    cases ha
  rw [Scan.run_append]
  exact Scan.step_eq_read hm hc

theorem terminator_ne_colon (hc : c ∈ blanks ∨ c = ')') : c ≠ ':' := by
  rintro rfl
  revert hc
  decide

theorem rules_terminator (ha : inRun a = false) (hc : c ∈ blanks ∨ c = ')') :
    Text.rules (a ++ [c]) = a.rules := by
  have hrun := run_push ha (terminator_ne_colon hc)
  obtain ⟨hidle, hplaced⟩ := (Scan.run a).settle.read_terminator hc
  rw [← hrun] at hidle hplaced
  rw [rules_of_idle hidle, Scan.finished_congr hplaced, ← rules_eq]

end Text

/-! ## White space -/

/-- When all parentheses are closed, a blank leaves the root alone in scope. -/
theorem Layout.leaveWords_eq_root {ended : Bool} {a : Text} {s : Scan} (h : Layout ended a s)
    (hclosed : ∀ i ∈ openings a, ∃ j, closes a i j = true) :
    s.scopes.dropWhile (!·.isGroup) = [.root] := by
  have hsuf : s.scopes.dropWhile (!·.isGroup) <:+ s.scopes := List.dropWhile_suffix _
  have hroot := leaveWords_root h.root_scope
  rcases hs : s.scopes.dropWhile (!·.isGroup) with _ | ⟨g, rest⟩
  · rw [hs] at hroot
    cases hroot
  · have hmem : g ∈ s.scopes := hsuf.subset (by simp [hs])
    have hg : g.isGroup = true := head_dropWhile_isGroup s.scopes g (by rw [hs]; rfl)
    have hgroot : g = .root := by
      rcases h.nested.known g hmem with hgroot | ⟨p, hp, rfl⟩
      · exact hgroot
      · obtain ⟨j, hj⟩ := hclosed _ (mem_openings.mpr (h.group_opens hp hg))
        rw [h.not_closes_of_scope hp hg hmem j] at hj
        cases hj
    -- The numbers of scopes fall towards the root, so nothing stands behind it.
    have hstacked := h.nested.stacked.sublist hsuf.sublist
    rw [hs, hgroot] at hstacked
    have hrest : rest = [] := by
      rw [List.eq_nil_iff_forall_not_mem]
      intro i hi
      exact absurd (List.rel_of_pairwise_cons hstacked hi) (Nat.not_lt_zero _)
    rw [hs, hgroot, hrest]

/-- Behind white space a scan is ready, and at the root if every parenthesis is
closed. -/
theorem Text.ready_blank {a : Text} {w : Char} (ha : inRun a = false) (hw : w ∈ blanks)
    (hclosed : ∀ i ∈ openings a, ∃ j, closes a i j = true) :
    (Scan.run (a ++ [w])).Ready ∧ (Scan.run (a ++ [w])).scopes = [.root] := by
  have hrun := run_push ha (terminator_ne_colon (Or.inl hw))
  have hidle := ((Scan.run a).settle.read_terminator (Or.inl hw)).1
  obtain ⟨ended, hl⟩ :=
    Scan.layout_endIdentifier (Scan.hasRead_settle (Scan.hasRead_run a)) (Scan.settle_mode _)
  have hscopes : (Scan.run (a ++ [w])).scopes = [.root] := by
    rw [hrun, Scan.read_blank _ hw]
    exact hl.leaveWords_eq_root hclosed
  rw [← hrun] at hidle
  exact ⟨⟨hidle, .root, [], hscopes, rfl⟩, hscopes⟩

theorem Text.size_blank {w : Char} (hw : w ∈ blanks) : w.utf8Size = 1 := by
  simp only [blanks, List.mem_cons, List.not_mem_nil, or_false] at hw
  rcases hw with rfl | rfl | rfl | rfl <;> rfl

/-- White space between two texts puts their rules one behind the other, if
the first text leaves no parenthesis and no bracket open. -/
theorem rules_split_at_a_blank {a b : Text} {w : Char}
    (hclosed : ∀ i ∈ openings a, ∃ j, closes a i j = true) (hrun : inRun a = false)
    (hw : w ∈ blanks) :
    Text.rules (a ++ w :: b) = a.rules ++ b.rules.map (Rule.shift (size a + 1)) := by
  obtain ⟨hready, hscopes⟩ := ready_blank hrun hw hclosed
  have hsize : size (a ++ [w]) = size a + 1 := by rw [size_append, size_singleton, size_blank hw]
  have hsplit : a ++ w :: b = a ++ [w] ++ b := by simp
  rw [hsplit, rules_behind hready (Or.inl (by rw [hscopes]; rfl)),
    rules_terminator hrun (Or.inl hw), hscopes, hsize]
  simp only [Rule.within_group _ (rfl : Item.root.isGroup = true)]

/-- The first text has a dangling variant in its group and a stray parenthesis at
its end, the second one a stray parenthesis and an open group. -/
theorem rules_split_at_a_blank_past_a_stray_parenthesis :
    (∀ i ∈ openings "mx(a sm:)b)".toList, ∃ j, closes "mx(a sm:)b)".toList i j = true) ∧
      inRun "mx(a sm:)b)".toList = false ∧ '\n' ∈ blanks ∧
      Text.rules ("mx(a sm:)b)".toList ++ '\n' :: ")x:(é".toList) =
        Text.rules "mx(a sm:)b)".toList ++ (Text.rules ")x:(é".toList).map (Rule.shift 12) ∧
      (Text.rules ("mx(a sm:)b)".toList ++ '\n' :: ")x:(é".toList)).map
          (fun r => (r.value, r.loc)) =
        [("mx-a".toList, ⟨3, 4⟩), ("sm:mx".toList, ⟨8, 8⟩), ("mx-b".toList, ⟨9, 10⟩),
          ("x:é".toList, ⟨16, 18⟩)] := by
  have hclosed : ∀ i ∈ openings "mx(a sm:)b)".toList,
      ∃ j, closes "mx(a sm:)b)".toList i j = true := by
    have hopenings : openings "mx(a sm:)b)".toList = [2] := by decide
    rw [hopenings]
    rintro i (_ | ⟨_, hi⟩)
    · exact ⟨8, by decide⟩
    · cases hi
  have hrun : inRun "mx(a sm:)b)".toList = false := by decide
  have hsize : size "mx(a sm:)b)".toList + 1 = 12 := by decide
  have hrules := rules_split_at_a_blank (b := ")x:(é".toList) hclosed hrun
    (by decide : '\n' ∈ blanks)
  rw [hsize] at hrules
  refine ⟨hclosed, hrun, by decide, hrules, ?_⟩
  rw [hrules]
  decide

/-! ## A word and its group -/

namespace Text

/-- The parentheses of the text match each other, and no run of brackets is open
behind it. -/
structure Balanced (t : Text) : Prop where
  parentheses : openAfter (outside false t) = some 0
  brackets : inRun t = false

/-- A word that may stand in front of a colon or a group as it is. -/
structure PlainWord (w : Text) : Prop where
  ne_nil : w ≠ []
  chars : ∀ c ∈ w, c ∉ delimiters ∧ c ≠ '[' ∧ c ≠ ']'
  bang : w.head? ≠ some '!'

variable {w : Text}

theorem PlainWord.solid (h : w.PlainWord) : Solid w := by
  intro c hc
  obtain ⟨a, b, rfl, -⟩ := mem_outside.mp hc
  exact (h.chars c (by simp)).1

theorem inRun_of_forall (h : ∀ c ∈ w, c ≠ '[') : inRun w = false := by
  induction w with
  | nil => rfl
  | cons c w ih =>
    have hw := ih (fun d hd => h d (by simp [hd]))
    simpa [inRun, runAfter, h c (by simp)] using hw

theorem PlainWord.not_inRun (h : w.PlainWord) : inRun w = false :=
  inRun_of_forall fun c hc => (h.chars c hc).2.1

end Text

namespace Scan

/-- The scan behind a first word and an opening parenthesis. -/
def opened (k : Kind) (raw : Text) : Scan :=
  ((init.enter k 0).enter .group (size raw)).restart (size raw + 1)

theorem ready_opened (k : Kind) (raw : Text) : (opened k raw).Ready :=
  ⟨⟨rfl, rfl, rfl⟩, _, _, rfl, rfl⟩

variable {w : Text}

theorem run_outer (h : w.PlainWord) :
    run (w ++ ['(']) = opened (.identifier ⟨w, false⟩) w := by
  have hword : (run w).settle = { init with word := w } := by
    have hsettle := rested_init.settle_word h.solid
    rw [h.not_inRun] at hsettle
    exact hsettle
  have hne : w.isEmpty = false := by simpa using h.ne_nil
  rw [run_push h.not_inRun (by decide), hword, read_opening]
  unfold endOuter
  dsimp only
  rw [hne]
  simp [opened, offset, init, restart, enter, place, item]

theorem run_variant (h : w.PlainWord) :
    run (w ++ [':', '(']) = opened (.variant ⟨w ++ [':']⟩) (w ++ [':']) := by
  have hsettle : (run (w ++ [':'])).settle = init.enterVariants [w ++ [':']] := by
    have hplain : Plain (w ++ [':']) := by
      obtain ⟨c, w, rfl⟩ := List.exists_cons_of_ne_nil h.ne_nil
      refine ⟨⟨_, _, rfl, h.solid, h.not_inRun, Or.inl rfl⟩, h.bang, ?_⟩
      intro hc
      obtain rfl : c = ':' := by simpa using hc
      exact h.solid.head (by decide)
    have hvariants : ∀ v ∈ [w ++ [':']], Plain v := by simpa using hplain
    have hread := rested_init.settle_variants hvariants
    rw [List.flatten_singleton] at hread
    exact hread
  have hsplit : w ++ [':', '('] = w ++ [':'] ++ ['('] := by simp
  rw [hsplit, run_push (inRun_delimiter h.not_inRun (by decide)) (by decide), hsettle, read_opening]
  simp [opened, enterVariants, endOuter, offset, init, restart, enter, place, item]

end Scan

namespace Text

/-- The rules of a group behind a first word are the rules of its content, moved
and below that word. -/
theorem rules_opened {k : Kind} {raw s : Text} (hraw : inRun raw = false)
    (hrun : Scan.run (raw ++ ['(']) = Scan.opened k raw)
    (hrules : (Scan.opened k raw).finished = []) (hs : s.Balanced) :
    Text.rules (raw ++ ['('] ++ s ++ [')']) =
      s.rules.map fun r => (r.shift (size raw + 1)).within [⟨1, k, 0⟩] := by
  have hready := Scan.ready_opened k raw
  rw [← hrun] at hready
  have hscopes : (Scan.run (raw ++ ['('])).scopes = [⟨2, .group, size raw⟩, ⟨1, k, 0⟩, .root] := by
    rw [hrun]
    rfl
  have hfront : Text.rules (raw ++ ['(']) = [] := by rw [rules_of_idle hready.toIdle, hrun, hrules]
  have hclosed : inRun (raw ++ ['('] ++ s) = false := by
    rw [List.append_assoc, List.singleton_append, inRun_behind_opening hraw, hs.brackets]
  have hsize : size (raw ++ ['(']) = size raw + 1 := size_append _ _
  rw [rules_terminator hclosed (Or.inr rfl),
    rules_behind hready (Or.inr (by rw [hs.parentheses]; simp)), hfront, hscopes, hsize,
    List.nil_append]
  rfl

end Text

/-! ## What a word adds to a rule -/

namespace Rule

theorem addSpan_apart {spans : List Span} {s : Span} (h : ∀ f ∈ spans, f.start ≠ s.stop) :
    addSpan spans s = s :: spans := by
  cases spans with
  | nil => rfl
  | cons f rest => simp [addSpan, h f (by simp)]

/-- A place in front of places that were moved behind it touches none of them. -/
theorem addSpan_moved (spans : List Span) {s : Span} {n : Nat} (h : s.stop < n) :
    addSpan (spans.map (Span.shift n)) s = s :: spans.map (Span.shift n) := by
  apply addSpan_apart
  intro f hf
  obtain ⟨f, -, rfl⟩ := List.mem_map.mp hf
  show f.start + n ≠ s.stop
  omega

theorem within_variant (r : Rule) (id start : Nat) (v : Variant) :
    r.within [⟨id, .variant v, start⟩] =
      { r with
        variants := { v with loc := .ofText start v.raw } :: r.variants
        spans := addSpan r.spans (.ofText start v.raw) } := by
  simp [within, Item.identifier?, variantOf?, Item.isGroup, Item.span, Item.raw,
    List.filterMap_cons]

theorem within_outer (r : Rule) (id start : Nat) (w : Identifier) :
    r.within [⟨id, .identifier w, start⟩] =
      { r with
        names := w.name :: r.names
        negated := r.negated || w.negated
        important := r.important || w.important
        spans := addSpan r.spans (.ofText start w.raw) } := by
  simp [within, Item.identifier?, variantOf?, Item.isGroup, Item.span, Item.raw,
    List.filterMap_cons]

/-- The rule `r` in the group of a variant: the variant comes first. -/
structure UnderVariant (v : Text) (r r' : Rule) : Prop where
  raw : r'.raw = r.raw
  value : r'.value = v ++ ':' :: r.value
  name : r'.name = r.name
  outer : r'.outer = r.outer
  negated : r'.negated = r.negated
  important : r'.important = r.important
  variants : r'.variants =
    ⟨⟨v ++ [':']⟩, ⟨0, size v + 1⟩⟩ :: r.variants.map (PlacedVariant.shift (size v + 2))
  loc : r'.loc = r.loc.shift (size v + 2)
  spans : r'.spans = ⟨0, size v + 1⟩ :: r.spans.map (Span.shift (size v + 2))

/-- A name in front of a name that may be empty. -/
def prepend (p name : Text) : Text := if name = [] then p else p ++ '-' :: name

/-- The rule `r` in the group of an outer name: the name stands in front of the
names of the rule, behind the `-` of a negated rule. -/
structure UnderOuter (p : Text) (r r' : Rule) : Prop where
  raw : r'.raw = r.raw
  bareName : r'.bareName = prepend p r.bareName
  name : r'.name = signed r.negated (prepend p r.bareName)
  bareOuter : r'.bareOuter = prepend p r.bareOuter
  outer : r'.outer = signed r.negated (prepend p r.bareOuter)
  value : r'.value = r.variants.flatMap (·.value) ++ (if r.important then ['!'] else []) ++ r'.name
  negated : r'.negated = r.negated
  important : r'.important = r.important
  variants : r'.variants = r.variants.map (PlacedVariant.shift (size p + 1))
  loc : r'.loc = r.loc.shift (size p + 1)
  spans : r'.spans = ⟨0, size p⟩ :: r.spans.map (Span.shift (size p + 1))

theorem flatMap_value_shift (n : Nat) (variants : List PlacedVariant) :
    (variants.map (PlacedVariant.shift n)).flatMap (·.value) = variants.flatMap (·.value) := by
  rw [List.flatMap_map]
  rfl

theorem underVariant (v : Text) (r : Rule) :
    UnderVariant v r
      ((r.shift (size (v ++ [':']) + 1)).within [⟨1, .variant ⟨v ++ [':']⟩, 0⟩]) := by
  have hsize : size (v ++ [':']) = size v + 1 := size_append _ _
  rw [within_variant, hsize]
  refine ⟨rfl, ?_, rfl, rfl, rfl, rfl, ?_, rfl, ?_⟩
  · show v ++ [':'] ++ (r.variants.map (PlacedVariant.shift (size v + 2))).flatMap (·.value) ++
      (if r.important then ['!'] else []) ++ r.name = _
    rw [flatMap_value_shift]
    simp [value]
  · simp [Span.ofText, hsize, shift]
  · simp only [Span.ofText, hsize, shift, Nat.zero_add]
    exact addSpan_moved _ (Nat.lt_succ_self _)

theorem joinNames_cons {p : Text} (names : List Text) (hne : p ≠ []) (hamp : p ≠ ['&']) :
    joinNames (p :: names) = prepend p (joinNames names) := by
  unfold joinNames prepend
  rw [List.filter_cons_of_pos (by simp [hne, hamp])]
  rcases hl : names.filter fun n => n ≠ ['&'] ∧ n ≠ [] with _ | ⟨a, l⟩
  · simp [List.intercalate]
  · have ha := mem_counted (hl ▸ List.mem_cons_self : a ∈ names.filter _)
    rw [if_neg (intercalate_ne_nil l ha.2.2), intercalate_cons_cons]

theorem prepend_ne_nil {p : Text} (name : Text) (hne : p ≠ []) : prepend p name ≠ [] := by
  unfold prepend
  split
  · exact hne
  · simp [hne]

end Rule

/-- A plain word without marks is its own name. -/
theorem Text.PlainWord.unmarked {p : Text} (h : p.PlainWord) (hbang : p.getLast? ≠ some '!')
    (hminus : p.head? ≠ some '-') (closed : Bool) :
    (⟨p, closed⟩ : Identifier).important = false ∧ (⟨p, closed⟩ : Identifier).negated = false ∧
      (⟨p, closed⟩ : Identifier).name = p := by
  have hplain : Rule.Unmarked false false p := ⟨fun _ => hbang, fun _ _ => h.bang, fun _ => hminus⟩
  exact Rule.read_marked hplain closed

theorem Rule.underOuter {p : Text} {r : Rule} (h : p.PlainWord) (hbang : p.getLast? ≠ some '!')
    (hminus : p.head? ≠ some '-') (hamp : p ≠ ['&']) (hnames : r.names ≠ []) :
    Rule.UnderOuter p r ((r.shift (size p + 1)).within [⟨1, .identifier ⟨p, false⟩, 0⟩]) := by
  obtain ⟨himportant, hnegated, hname⟩ := h.unmarked hbang hminus false
  rw [within_outer, himportant, hnegated, hname, Bool.or_false, Bool.or_false]
  have hbare := joinNames_cons r.names h.ne_nil hamp
  have hbareOuter : joinNames (p :: r.names).dropLast = prepend p r.bareOuter := by
    rw [List.dropLast_cons_of_ne_nil hnames, joinNames_cons _ h.ne_nil hamp]
    rfl
  have hfull : (prepend p r.bareOuter).isEmpty = false := by
    simpa using prepend_ne_nil r.bareOuter h.ne_nil
  refine ⟨rfl, hbare, ?_, hbareOuter, ?_, ?_, rfl, rfl, rfl, rfl, ?_⟩
  · show signed r.negated (joinNames (p :: r.names)) = _
    rw [hbare]
    rfl
  · show signed (r.negated && !(joinNames (p :: r.names).dropLast).isEmpty)
      (joinNames (p :: r.names).dropLast) = _
    rw [hbareOuter, hfull]
    simp
  · show (r.variants.map (PlacedVariant.shift (size p + 1))).flatMap (·.value) ++
      (if r.important then ['!'] else []) ++ _ = _
    rw [flatMap_value_shift]
  · simp only [Span.ofText, Nat.zero_add]
    exact addSpan_moved _ (Nat.lt_succ_self _)

/-! ## The law of groups -/

theorem Text.names_ne_nil {t : Text} {r : Rule} (hr : r ∈ t.rules) : r.names ≠ [] := by
  obtain ⟨a, b, -, rfl⟩ := Text.rule_origin hr
  rw [Rule.ofName_names]
  simp

/-- A group behind a variant adds the variant to each rule of its content, and a
group behind a name adds the name. -/
theorem groups_distribute {s : Text} (hs : s.Balanced) :
    (∀ v : Text, v.PlainWord →
      List.Forall₂ (Rule.UnderVariant v) s.rules (Text.rules (v ++ [':', '('] ++ s ++ [')']))) ∧
    ∀ p : Text, p.PlainWord → p.getLast? ≠ some '!' → p.head? ≠ some '-' → p ≠ ['&'] →
      List.Forall₂ (Rule.UnderOuter p) s.rules (Text.rules (p ++ ['('] ++ s ++ [')'])) := by
  constructor
  · intro v hv
    have hsplit : v ++ [':', '('] = v ++ [':'] ++ ['('] := by simp
    have hrun := Scan.run_variant hv
    rw [hsplit] at hrun ⊢
    rw [rules_opened (inRun_delimiter hv.not_inRun (by decide)) hrun rfl hs,
      List.forall₂_map_right_iff, List.forall₂_same]
    exact fun r _ => Rule.underVariant v r
  · intro p hp hbang hminus hamp
    rw [rules_opened hp.not_inRun (Scan.run_outer hp) rfl hs, List.forall₂_map_right_iff,
      List.forall₂_same]
    exact fun r hr => Rule.underOuter hp hbang hminus hamp (names_ne_nil hr)

/-- The content has a group of its own, a negated rule, an important one and one
that adds nothing to its outer name. -/
theorem groups_distribute_over_nested_groups :
    Text.Balanced "-a(2 &) sm:b!".toList ∧ Text.PlainWord "mx".toList ∧
      List.Forall₂ (Rule.UnderVariant "mx".toList) (Text.rules "-a(2 &) sm:b!".toList)
        (Text.rules "mx:(-a(2 &) sm:b!)".toList) ∧
      List.Forall₂ (Rule.UnderOuter "mx".toList) (Text.rules "-a(2 &) sm:b!".toList)
        (Text.rules "mx(-a(2 &) sm:b!)".toList) ∧
      (Text.rules "mx:(-a(2 &) sm:b!)".toList).map Rule.value =
        ["mx:-a-2".toList, "mx:-a".toList, "mx:sm:!b".toList] ∧
      (Text.rules "mx(-a(2 &) sm:b!)".toList).map Rule.value =
        ["-mx-a-2".toList, "-mx-a".toList, "sm:!mx-b".toList] := by
  have hs : Text.Balanced "-a(2 &) sm:b!".toList := ⟨by decide, by decide⟩
  have hp : Text.PlainWord "mx".toList := ⟨by decide, by simp [delimiters], by decide⟩
  obtain ⟨hvariant, houter⟩ := groups_distribute hs
  refine ⟨hs, hp, hvariant _ hp, houter _ hp (by decide) (by decide) (by decide), ?_, ?_⟩
  · decide
  · decide

end ClassList
