-- No operation leaves its domain, and every range can be used. For each question there
-- is a checked form, in which every offset, range and cut may fail: on a text that has
-- offsets at all it never fails and gives what the unchecked form gives. In both forms the
-- rule being typed depends on nothing behind it.
import Mathlib
import ClassList.Proofs.Lines
import ClassList.Proofs.Listing
import ClassList.Proofs.Stopping

namespace ClassList

open Text

/-! ## Ranges that can be used -/

/-- The ends of the range are in order, in the text and between two characters. -/
structure Span.UsableIn (s : Span) (t : Text) : Prop where
  ordered : s.start ≤ s.stop
  inside : s.stop ≤ size t
  start : isBoundary s.start t = true
  stop : isBoundary s.stop t = true

namespace Text

variable {t : Text} {n : Nat}

theorem isBoundary_zero (t : Text) : isBoundary 0 t = true := isBoundary_iff.mpr ⟨[], t, rfl, rfl⟩

theorem isBoundary_size (t : Text) : isBoundary (size t) t = true :=
  isBoundary_iff.mpr ⟨t, [], (List.append_nil t).symm, rfl⟩

theorem isBoundary_append (h : isBoundary n t = true) (rest : Text) :
    isBoundary n (t ++ rest) = true := by
  obtain ⟨a, b, rfl, hsize⟩ := isBoundary_iff.mp h
  exact isBoundary_iff.mpr ⟨a, b ++ rest, List.append_assoc a b rest, hsize⟩

/-- A boundary in front of an offset is a boundary of the text in front of it. -/
theorem isBoundary_upTo_of_le {m : Nat} (h : isBoundary m t = true) (hmn : m ≤ n) :
    isBoundary m (t.upTo n) = true := by
  obtain ⟨a, b, rfl, rfl⟩ := isBoundary_iff.mp h
  rw [upTo_append_of_ge a b hmn]
  exact isBoundary_iff.mpr ⟨a, _, rfl, rfl⟩

/-- A boundary has a line and a column. Its line is the number of the line feeds in front. -/
theorem lineCol?_of_boundary (h : isBoundary n t = true) :
    ∃ column, (LineIndex.ofText t).lineCol? n = some ((t.upTo n).count '\n', column) := by
  rw [LineIndex.lineCol?_ofText, lineCol?, if_pos h]
  exact ⟨_, rfl⟩

end Text

namespace Span.UsableIn

variable {s s' : Span} {t : Text}

theorem of_boundaries (hle : s.start ≤ s.stop) (hstart : isBoundary s.start t = true)
    (hstop : isBoundary s.stop t = true) : s.UsableIn t :=
  ⟨hle, boundary_le_size hstop, hstart, hstop⟩

theorem cover (h : s.UsableIn t) (h' : s'.UsableIn t) : (s.cover s').UsableIn t := by
  have hordered : min s.start s'.start ≤ max s.stop s'.stop :=
    (min_le_left _ _).trans (h.ordered.trans (le_max_left _ _))
  refine of_boundaries hordered ?_ ?_
  · show isBoundary (min s.start s'.start) t = true
    rcases min_choice s.start s'.start with he | he <;> rw [he]
    exacts [h.start, h'.start]
  · show isBoundary (max s.stop s'.stop) t = true
    rcases max_choice s.stop s'.stop with he | he <;> rw [he]
    exacts [h.stop, h'.stop]

/-- The text in the range can be cut out. -/
theorem slice?_eq (h : s.UsableIn t) : Checked.slice? s t = some (slice s t) := by
  unfold Checked.slice?
  rw [Checked.upTo?_eq h.stop]
  exact Checked.after?_eq (isBoundary_upTo_of_le h.start h.ordered)

/-- The lines around the range can be cut out, too. -/
theorem excerpt?_eq (h : s.UsableIn t) : Checked.excerpt? t s = some (.ofRange t s) := by
  have hle : s.start ≤ size (t.upTo s.stop) := h.ordered.trans_eq (beq_iff_eq.mp h.stop).symm
  have hfirst : (t.upTo s.stop).upTo s.start = t.upTo s.start := by
    rw [← upTo_append_of_le _ (t.after s.stop) hle, upTo_append_after]
  have hinside : slice s t = (t.upTo s.stop).drop (t.upTo s.start).length := by
    unfold slice after
    rw [hfirst]
  unfold Checked.excerpt? Excerpt.ofRange
  rw [Checked.upTo?_eq h.start, h.slice?_eq, Checked.after?_eq h.stop, hinside]
  rfl

theorem render?_eq (level : Level) (message : Text) (h : s.UsableIn t) (path : Text) :
    Checked.render? ⟨level, message, s⟩ path t =
      some (Diagnostic.render ⟨level, message, s⟩ path t) := by
  unfold Checked.render?
  rw [h.excerpt?_eq]
  rfl

end Span.UsableIn

theorem Item.StandsIn.usable {i : Item} {t : Text} (h : i.StandsIn t) : i.span.UsableIn t :=
  .of_boundaries (Nat.le_add_right _ _) h.isBoundary_start h.isBoundary_stop

/-! ## Nodes -/

namespace Layout

variable {ended : Bool} {a t : Text} {s : Scan} {p : Placed}

/-- The words around a word stand in the text, also where more text follows. -/
theorem chain_usable (h : Layout ended a s) (ha : a <+: t) (hp : p ∈ s.placed) :
    ∀ i ∈ p.chain, i.isGroup = false → i.span.UsableIn t := by
  obtain ⟨rest, rfl⟩ := ha
  intro i hi hg
  exact ((h.chain_standsIn hp hi hg).append rest).usable

theorem group_usable (h : Layout ended a s) (ha : a <+: t) (hp : p ∈ s.placed)
    (hg : p.item.isGroup = true) : (s.nodeOf (size t) p).span.UsableIn t := by
  obtain ⟨rest, rfl⟩ := ha
  have hopens := h.group_opens hp hg
  have hstart : isBoundary p.item.start (a ++ rest) = true :=
    isBoundary_append (isBoundary_of_structuralAt hopens) rest
  have hstop : (s.nodeOf (size (a ++ rest)) p).stop =
      (s.closed.lookup p.item.id).getD (size (a ++ rest)) := Scan.stopOf_group hg
  rcases h.group_state p hp hg with ⟨-, hnone⟩ | ⟨j, hj, hsome⟩
  · -- The group is still open.
    rw [hnone] at hstop
    refine .of_boundaries (s := ⟨p.item.start, _⟩) ?_ hstart ?_
    · rw [hstop]
      exact boundary_le_size hstart
    · rw [hstop]
      exact isBoundary_size _
  · -- The parenthesis that closes it has one byte, so a boundary follows it.
    rw [hsome] at hstop
    have hlt := closes_lt hj
    obtain ⟨x, y, rfl, rfl, -⟩ := structuralAt?_eq_some.mp (closes_at hj)
    refine .of_boundaries (s := ⟨p.item.start, _⟩) ?_ hstart ?_
    · rw [hstop]
      show p.item.start ≤ size x + 1
      omega
    · rw [hstop]
      exact isBoundary_iff.mpr ⟨x ++ [')'], y ++ rest, by simp, size_append x [')']⟩

end Layout

theorem Tree.nodes_usable (stop : Option Nat) (t : Text) :
    ∀ n ∈ (ofTextTo stop t).nodes, n.span.UsableIn t := by
  obtain ⟨ended, s, hl, htree⟩ := layout_ofTextTo stop t
  rw [htree]
  intro n hn
  rcases Scan.mem_nodes.mp hn with rfl | ⟨p, hp, rfl⟩
  · exact .of_boundaries (Nat.zero_le _) (isBoundary_zero t) (isBoundary_size t)
  · by_cases hg : p.item.isGroup = true
    · exact hl.group_usable (t.readTo_prefix stop) hp hg
    · rw [Bool.not_eq_true] at hg
      rw [Scan.nodeOf_word hg]
      exact hl.chain_usable (t.readTo_prefix stop) hp _ List.mem_cons_self hg

/-! ## Rules -/

namespace Checked

variable {t : Text}

theorem addSpan?_eq {spans : List Span} {s : Span} (h : ∀ f ∈ spans, f.UsableIn t)
    (hs : s.UsableIn t) : addSpan? spans s = some (Rule.addSpan spans s) ∧
      ∀ f ∈ Rule.addSpan spans s, f.UsableIn t := by
  rcases spans with _ | ⟨first, rest⟩
  · exact ⟨rfl, by simpa [Rule.addSpan] using hs⟩
  · have hfirst := h first List.mem_cons_self
    have hrest := fun f hf => h f (List.mem_cons_of_mem first hf)
    unfold addSpan? Rule.addSpan
    dsimp only
    by_cases htouch : first.start = s.stop
    · -- Two ranges in order that touch are in order as one.
      have hle : s.start ≤ first.stop := by
        have := hs.ordered
        have := hfirst.ordered
        omega
      rw [if_pos htouch, if_pos htouch, range?_eq hle]
      exact ⟨rfl, List.forall_mem_cons.mpr ⟨.of_boundaries hle hs.start hfirst.stop, hrest⟩⟩
    · rw [if_neg htouch, if_neg htouch]
      exact ⟨rfl, List.forall_mem_cons.mpr ⟨hs, h⟩⟩

end Checked

/-- All ranges of a rule. -/
def Rule.ranges (r : Rule) : List Span := r.loc :: r.spans ++ r.variants.map (·.loc)

/-- A rule of words that stand in the text. -/
theorem Rule.usable_ofNode {n : Node} {t : Text} (hword : n.item.isGroup = false)
    (h : ∀ i ∈ n.chain, i.isGroup = false → i.span.UsableIn t) :
    Checked.rule? n = some (.ofNode n) ∧ ∀ s ∈ (Rule.ofNode n).ranges, s.UsableIn t := by
  have hplaces : ∀ s ∈ (n.chain.filter (!·.isGroup)).map Item.span, s.UsableIn t := by
    intro s hs
    obtain ⟨i, hi, rfl⟩ := List.mem_map.mp hs
    obtain ⟨hi, hg⟩ := List.mem_filter.mp hi
    exact h i hi (by simpa using hg)
  obtain ⟨hsome, hspans⟩ := Checked.foldlM_eq_foldl
    (fun spans : List Span => ∀ s ∈ spans, s.UsableIn t)
    (fun spans hspans s hs => Checked.addSpan?_eq hspans (hplaces s hs)) (b := []) (by simp)
  constructor
  · unfold Checked.rule?
    rw [hsome]
    rfl
  · intro s hs
    rcases List.mem_append.mp hs with hs | hs
    · rcases List.mem_cons.mp hs with rfl | hs
      · exact h n.item List.mem_cons_self hword
      · exact hspans s hs
    · obtain ⟨v, hv, rfl⟩ := List.mem_map.mp hs
      obtain ⟨i, hi, hvariant⟩ := List.mem_filterMap.mp (List.mem_reverse.mp hv)
      obtain ⟨hg, hloc⟩ := Rule.variantOf?_word hvariant
      rw [hloc]
      exact h i hi hg

theorem Item.not_isGroup_of_name {i : Item} {w : Identifier} (h : i.identifier? = some w) :
    i.isGroup = false := by
  rcases i with ⟨id, _ | v | w, start⟩
  · cases h
  · rfl
  · rfl

/-- Every word of a reading ends a rule that can be used. -/
theorem Tree.rule_usable (stop : Option Nat) {t : Text} {n : Node}
    (hn : n ∈ (ofTextTo stop t).nodes) {w : Identifier} (hw : n.item.identifier? = some w) :
    Checked.rule? n = some (.ofNode n) ∧ ∀ s ∈ (Rule.ofNode n).ranges, s.UsableIn t := by
  have hword := Item.not_isGroup_of_name hw
  obtain ⟨ended, s, hl, htree⟩ := layout_ofTextTo stop t
  rw [htree] at hn
  rcases Scan.mem_nodes.mp hn with rfl | ⟨p, hp, rfl⟩
  · cases hw
  · exact Rule.usable_ofNode hword (hl.chain_usable (t.readTo_prefix stop) hp)

theorem Tree.terminal_usable {t : Text} {n : Node} (hn : n ∈ (ofText t).terminals) :
    Checked.rule? n = some (.ofNode n) ∧ ∀ s ∈ (Rule.ofNode n).ranges, s.UsableIn t := by
  obtain ⟨hmem, hterminal⟩ := List.mem_filter.mp hn
  obtain ⟨w, hw, -⟩ := (Option.any_eq_true _ _).mp hterminal
  exact rule_usable none hmem hw

theorem Text.ranges_usable {t : Text} {r : Rule} (hr : r ∈ t.rules) :
    ∀ s ∈ r.ranges, s.UsableIn t := by
  obtain ⟨n, hn, rfl⟩ := List.mem_map.mp hr
  exact (Tree.terminal_usable hn).2

theorem Text.typed_usable (n : Nat) (t : Text) :
    Checked.rule? (Tree.ofTextUpTo n t).last = some (t.ruleTyped n) ∧
      ∀ s ∈ (t.ruleTyped n).ranges, s.UsableIn t := by
  obtain ⟨w, hw, -⟩ := (Tree.endsAt_ofTextUpTo n t).name
  rw [ruleTyped_eq_last]
  exact Tree.rule_usable (some n) (List.mem_of_getLast? (Tree.Ordered.last_eq _)) hw

namespace Checked

variable {t : Text}

theorem terminals_eq (t : Text) : (Tree.ofText t).terminals.mapM rule? = some t.rules :=
  mapM_eq_map fun _ hn => (Tree.terminal_usable hn).1

theorem rules?_eq (ht : size t < limit) : rules? t = some t.rules := by
  unfold rules?
  rw [tree?_eq ht none]
  exact terminals_eq t

theorem rulesAt?_eq (ht : size t < limit) (n : Nat) : rulesAt? n t = some (t.rulesAt n) := by
  unfold rulesAt? rulesAt
  rw [tree?_eq ht none]
  show ((Tree.ofText t).terminals.mapM rule?).bind _ = _
  rw [terminals_eq, Option.bind_some]
  dsimp only
  split <;> rfl

theorem ruleTyped?_eq (ht : size t < limit) (n : Nat) : ruleTyped? n t = some (t.ruleTyped n) := by
  obtain ⟨w, hw, -⟩ := (Tree.endsAt_ofTextUpTo n t).name
  unfold ruleTyped?
  rw [arena?_eq ht (some n)]
  show ((Arena.ofTextTo (some n) t).tree?).bind _ = _
  rw [Arena.tree?_ofTextTo]
  show (if (Tree.ofTextUpTo n t).last.item.identifier?.isSome then _ else _) = _
  rw [if_pos (by rw [hw]; rfl)]
  exact (typed_usable n t).1

/-! ## Diagnostics -/

/-- A negated rule has a `-` in front of its name. -/
theorem bareName?_eq (r : Rule) : bareName? r = some r.bareName := by
  unfold bareName?
  by_cases hn : r.negated = true
  · have hname : r.name = ['-'] ++ r.bareName := by simp [Rule.name, Rule.signed, hn]
    have hboundary : isBoundary 1 r.name = true :=
      isBoundary_iff.mpr ⟨['-'], r.bareName, hname, rfl⟩
    rw [if_pos hn, after?_eq hboundary, hname]
    exact congrArg some (after_size_append ['-'] r.bareName)
  · rw [if_neg hn, Rule.name, Rule.signed, if_neg hn]

theorem addRule?_eq (voc : Vocabulary) (w : Review) (r : Rule) :
    addRule? voc w r = some (Review.addRule voc w r) := by
  unfold addRule? Review.addRule
  rw [bareName?_eq]
  dsimp only
  show (if _ then _ else _) = _
  split <;> rfl

theorem diagnostics?_eq (ht : size t < limit) (voc : Vocabulary) :
    diagnostics? voc t = some (voc.diagnostics t) := by
  obtain ⟨hreview, -⟩ := foldlM_eq_foldl (fun _ => True) (l := t.rules) (b := .empty)
    (fun w _ r _ => ⟨addRule?_eq voc w r, trivial⟩) trivial
  unfold diagnostics?
  rw [rules?_eq ht]
  show (t.rules.foldlM (addRule? voc) .empty).bind _ = _
  rw [hreview]
  rfl

end Checked

theorem Vocabulary.diagnostic_usable {voc : Vocabulary} {t : Text} {d : Diagnostic}
    (hd : d ∈ voc.diagnostics t) : d.range.UsableIn t := by
  obtain ⟨r, hr, f, hf, rfl⟩ := mem_diagnostics.mp hd
  apply ranges_usable hr
  rcases hf with ⟨v, hv, -, rfl⟩ | ⟨-, rfl⟩
  · exact List.mem_append_right _ (List.mem_map.mpr ⟨v, hv, rfl⟩)
  · exact List.mem_append_left _ List.mem_cons_self

/-! ## Completions -/

namespace Text

variable {t : Text}

theorem size_of_ascii (h : ∀ c ∈ t, c.utf8Size = 1) : size t = t.length := by
  induction t with
  | nil => rfl
  | cons c t ih =>
    rw [size_cons, h c List.mem_cons_self, ih fun d hd => h d (List.mem_cons_of_mem c hd),
      List.length_cons, Nat.add_comm]

/-- A text of one-byte characters can be cut anywhere. -/
theorem cut_ascii (h : ∀ c ∈ t, c.utf8Size = 1) {n : Nat} (hn : n ≤ t.length) :
    isBoundary n t = true ∧ t.after n = t.drop n := by
  have hsize : size (t.take n) = n := by
    rw [size_of_ascii fun c hc => h c (List.mem_of_mem_take hc), List.length_take]
    exact min_eq_left hn
  have hafter := after_size_append (t.take n) (t.drop n)
  rw [List.take_append_drop, hsize] at hafter
  exact ⟨isBoundary_iff.mpr ⟨_, _, (List.take_append_drop n t).symm, hsize⟩, hafter⟩

theorem utf8Size_of_isDigit {c : Char} (h : c.isDigit = true) : c.utf8Size = 1 := by
  have hle : c.val ≤ 57 := by
    simp [Char.isDigit] at h
    exact h.2
  unfold Char.utf8Size
  exact if_pos (UInt32.le_trans hle (by decide))

end Text

namespace Checked

/-- A padded row of digits has at least eight bytes, one for each digit. -/
theorem padDigits?_eq {digits : Text} (h : ∀ c ∈ digits, c.isDigit = true) :
    padDigits? digits = some digits.padDigits := by
  have hascii : ∀ c ∈ List.replicate (8 - digits.length) '0' ++ digits, c.utf8Size = 1 := by
    intro c hc
    rcases List.mem_append.mp hc with hc | hc
    · rw [List.eq_of_mem_replicate hc]
      rfl
    · exact utf8Size_of_isDigit (h c hc)
  have hlong : 8 ≤ (List.replicate (8 - digits.length) '0' ++ digits).length := by
    rw [List.length_append, List.length_replicate]
    omega
  obtain ⟨hboundary, hafter⟩ := cut_ascii hascii (Nat.sub_le _ 8)
  unfold padDigits? padDigits
  dsimp only
  rw [size_of_ascii hascii, sub?_eq hlong]
  show after? _ _ = _
  rw [after?_eq hboundary, hafter]

theorem flush?_eq {k : NaturalKey} (h : ∀ c ∈ k.digits, c.isDigit = true) :
    flush? k = some k.flush := by
  unfold flush? NaturalKey.flush
  split
  · rfl
  · rw [padDigits?_eq h]
    rfl

theorem keyStep?_eq {k : NaturalKey} (h : ∀ c ∈ k.digits, c.isDigit = true) (c : Char) :
    keyStep? k c = some (k.step c) ∧ ∀ d ∈ (k.step c).digits, d.isDigit = true := by
  unfold keyStep? NaturalKey.step
  by_cases hc : c.isDigit = true
  · rw [if_pos hc, if_pos hc]
    exact ⟨rfl, by simpa [or_imp, forall_and, hc] using h⟩
  · rw [if_neg hc, if_neg hc, flush?_eq h]
    exact ⟨rfl, by simp⟩

theorem naturalKey?_eq (key : Text) : naturalKey? key = some key.naturalKey := by
  obtain ⟨hfold, hdigits⟩ := foldlM_eq_foldl
    (fun k : NaturalKey => ∀ c ∈ k.digits, c.isDigit = true) (l := key) (b := ⟨[], []⟩)
    (fun k hk c _ => keyStep?_eq hk c) (by simp)
  unfold naturalKey?
  rw [hfold]
  exact flush?_eq hdigits

/-- A key that starts with the typed name is cut behind it and in front of a `-`. -/
theorem groupOf?_eq {typed key : Text} (h : typed <+: key) :
    groupOf? typed key = some (Vocabulary.groupOf? typed key) := by
  obtain ⟨rest, rfl⟩ := h
  have hbehind : isBoundary (size typed) (typed ++ rest) = true :=
    isBoundary_iff.mpr ⟨typed, rest, rfl, rfl⟩
  have hgroup : typed ++ rest =
      (typed ++ rest.takeWhile (· ≠ '-')) ++ rest.dropWhile (· ≠ '-') := by
    rw [List.append_assoc, List.takeWhile_append_dropWhile]
  have hend : isBoundary (size typed + size (rest.takeWhile (· ≠ '-'))) (typed ++ rest) = true :=
    isBoundary_iff.mpr ⟨_, _, hgroup, size_append _ _⟩
  unfold groupOf? Vocabulary.groupOf?
  rw [after?_eq hbehind, after_size_append, List.drop_left]
  show (if _ then _ else _) = _
  dsimp only
  split
  · rw [upTo?_eq hend, ← size_append, hgroup, upTo_size_append]
    rfl
  · rfl

theorem groupCompletions?_eq (voc : Vocabulary) (r : Rule) :
    groupCompletions? voc r = some (voc.groupCompletions r) := by
  have hfound : (voc.keys r).mapM (groupOf? r.bareName) = some _ :=
    mapM_eq_map fun key hkey => groupOf?_eq (Vocabulary.prefix_of_mem_keys hkey)
  unfold groupCompletions?
  rw [hfound, Option.bind_eq_bind, Option.bind_some, List.filterMap_map]
  rfl

theorem directiveCompletions?_eq (voc : Vocabulary) (r : Rule) :
    directiveCompletions? voc r = some (voc.directiveCompletions r) := by
  have hone : ∀ key, directiveCompletion? r key =
      some ((relativeName? r.bareOuter key).map fun label =>
        ⟨.directive, label, '$' :: key.naturalKey, some key, r.loc⟩) := by
    intro key
    unfold directiveCompletion?
    split
    · rename_i hnone
      rw [hnone]
      rfl
    · rename_i label hsome
      rw [hsome, naturalKey?_eq]
      rfl
  unfold directiveCompletions?
  rw [mapM_eq_map fun key _ => hone key, Option.bind_eq_bind, Option.bind_some,
    List.filterMap_map]
  rfl

theorem completions?_eq {t : Text} (ht : size t < limit) (voc : Vocabulary) (n : Nat) :
    completions? voc t n = some (voc.completions t n) := by
  unfold completions?
  rw [ruleTyped?_eq ht, Option.bind_eq_bind, Option.bind_some, groupCompletions?_eq,
    Option.bind_eq_bind, Option.bind_some, directiveCompletions?_eq]
  rfl

end Checked

/-! ## Hovers -/

namespace Checked

theorem extent?_eq {r : Rule} {t : Text} (h : ∀ s ∈ r.ranges, s.UsableIn t) :
    extent? r = some r.extent? ∧ ∀ s ∈ r.extent?, s.UsableIn t := by
  have hspans : ∀ s ∈ r.spans, s.UsableIn t := fun s hs =>
    h s (List.mem_append_left _ (List.mem_cons_of_mem _ hs))
  unfold extent? Rule.extent?
  rcases hr : r.spans with _ | ⟨s, rest⟩
  · exact ⟨rfl, by simp⟩
  · rw [hr, List.forall_mem_cons] at hspans
    obtain ⟨hcover, husable⟩ := foldlM_eq_foldl (fun s : Span => s.UsableIn t) (f := cover?)
      (g := Span.cover)
      (fun s hs s' hs' => ⟨range?_eq (hs.cover (hspans.2 s' hs')).ordered,
        hs.cover (hspans.2 s' hs')⟩) hspans.1
    dsimp only
    rw [hcover]
    exact ⟨rfl, by simpa using husable⟩

theorem hover?_eq {t : Text} (ht : size t < limit) (n : Nat) (css : Rule → Option Text) :
    hover? t n css = some (t.hover? n css) ∧ ∀ h ∈ t.hover? n css, h.range.UsableIn t := by
  unfold hover? Text.hover? hoverAmong?
  rw [rules?_eq ht, Option.bind_eq_bind, Option.bind_some]
  rcases hfind : t.rules.find? (·.isAt n) with _ | r
  · rw [hfind]
    exact ⟨rfl, by simp⟩
  · obtain ⟨hextent, husable⟩ := extent?_eq (ranges_usable (List.mem_of_find?_eq_some hfind))
    rw [hfind]
    dsimp only
    rw [hextent]
    cases hr : r.extent? with
    | none => exact ⟨by simp [hr], by simp [hr]⟩
    | some range => exact ⟨by simp [hr], by simpa [hr] using husable⟩

end Checked

/-! ## The law -/

/-- The checked form of a question has the answer of the unchecked one, and the ranges in
the answer can be used. -/
structure Checked.Answers {α : Type} (t : Text) (checked : Option α) (answer : α)
    (ranges : List Span) : Prop where
  in_domain : checked = some answer
  usable : ∀ s ∈ ranges, s.UsableIn t

theorem Text.rulesAt_subset (n : Nat) (t : Text) : t.rulesAt n ⊆ t.rules := by
  unfold rulesAt
  dsimp only
  split <;> exact List.filter_sublist.subset

/-- Every question about a text that has offsets is answered without leaving the domain
of an operation, at any offset and for any vocabulary. The ranges in the answers can be
cut out of the text, both ends have a line and a column, and a message about such a range
can be shown, from the line of its start on. -/
theorem no_operation_leaves_its_domain (voc : Vocabulary) {t : Text}
    (ht : size t < Checked.limit) :
    (∀ stop, Checked.Answers t (Checked.tree? stop t) (Tree.ofTextTo stop t)
        ((Tree.ofTextTo stop t).nodes.map (·.span))) ∧
      Checked.Answers t (Checked.rules? t) t.rules (t.rules.flatMap Rule.ranges) ∧
      (∀ n, Checked.Answers t (Checked.rulesAt? n t) (t.rulesAt n)
        ((t.rulesAt n).flatMap Rule.ranges)) ∧
      (∀ n, Checked.Answers t (Checked.ruleTyped? n t) (t.ruleTyped n) (t.ruleTyped n).ranges) ∧
      Checked.Answers t (Checked.diagnostics? voc t) (voc.diagnostics t)
        ((voc.diagnostics t).map (·.range)) ∧
      (∀ n, Checked.Answers t (Checked.completions? voc t n) (voc.completions t n)
        ((voc.completions t n).map (·.range))) ∧
      (∀ n css, Checked.Answers t (Checked.hover? t n css) (t.hover? n css)
        ((t.hover? n css).toList.map (·.range))) ∧
      ∀ s : Span, s.UsableIn t →
        Checked.slice? s t = some (slice s t) ∧
          (∃ line column, (LineIndex.ofText t).lineCol? s.start = some (line, column) ∧
            (Excerpt.ofRange t s).number = line + 1) ∧
          ((LineIndex.ofText t).lineCol? s.stop).isSome = true ∧
          ∀ level message path, Checked.render? ⟨level, message, s⟩ path t =
            some (Diagnostic.render ⟨level, message, s⟩ path t) := by
  refine ⟨?_, ?_, ?_, ?_, ?_, ?_, ?_, ?_⟩
  · intro stop
    exact ⟨Checked.tree?_eq ht stop, List.forall_mem_map.mpr (Tree.nodes_usable stop t)⟩
  · exact ⟨Checked.rules?_eq ht, List.forall_mem_flatMap.mpr fun r hr => ranges_usable hr⟩
  · intro n
    exact ⟨Checked.rulesAt?_eq ht n,
      List.forall_mem_flatMap.mpr fun r hr => ranges_usable (rulesAt_subset n t hr)⟩
  · intro n
    exact ⟨Checked.ruleTyped?_eq ht n, (typed_usable n t).2⟩
  · exact ⟨Checked.diagnostics?_eq ht voc,
      List.forall_mem_map.mpr fun d hd => Vocabulary.diagnostic_usable hd⟩
  · intro n
    refine ⟨Checked.completions?_eq ht voc n, List.forall_mem_map.mpr fun c hc => ?_⟩
    rw [Vocabulary.range_of_mem hc]
    exact (typed_usable n t).2 _ List.mem_cons_self
  · intro n css
    obtain ⟨hsome, husable⟩ := Checked.hover?_eq ht n css
    exact ⟨hsome, List.forall_mem_map.mpr fun h hh => husable h (Option.mem_toList.mp hh)⟩
  · intro s hs
    obtain ⟨column, hstart⟩ := lineCol?_of_boundary hs.start
    obtain ⟨_, hstop⟩ := lineCol?_of_boundary hs.stop
    refine ⟨hs.slice?_eq, ⟨_, column, hstart, Nat.add_comm 1 _⟩, by rw [hstop]; rfl, ?_⟩
    exact fun level message path => hs.render?_eq level message path

/-- An offset inside the `é` of `-é(x` is moved in front of it, where a cut would fail. -/
theorem no_operation_leaves_its_domain_inside_a_character :
    size "-é(x".toList < Checked.limit ∧ Checked.slice? ⟨0, 2⟩ "-é(x".toList = none ∧
      Checked.ruleTyped? 2 "-é(x".toList = some (Text.ruleTyped 2 "-é(x".toList) ∧
      (Text.ruleTyped 2 "-é(x".toList).loc = ⟨0, 1⟩ ∧
      Checked.diagnostics? ⟨[], [], []⟩ "-é(x".toList =
        some [⟨.warning, "unknown directive `-é-x`".toList, ⟨4, 5⟩⟩] := by
  have hsize : size "-é(x".toList < Checked.limit := by decide
  obtain ⟨-, -, -, htyped, hdiagnostics, -⟩ := no_operation_leaves_its_domain ⟨[], [], []⟩ hsize
  refine ⟨hsize, by decide, (htyped 2).in_domain, by decide, ?_⟩
  rw [hdiagnostics.in_domain]
  decide

/-! ## What the rule being typed depends on -/

/-- The rule being typed and the completions depend on the text in front of the
offset only, which ends at the last boundary that is not behind the offset. At
or past the end of that text they are the same. So they are where a reading stops
early in the whole text and goes to the end of the first part. -/
theorem the_typed_rule_sees_no_later_text (t : Text) (n : Nat) :
    IsGreatest {m | m ≤ n ∧ isBoundary m t = true} (size (t.upTo n)) ∧
      ∀ q, size (t.upTo n) ≤ q →
        t.ruleTyped n = (t.upTo n).ruleTyped q ∧
        (∀ voc : Vocabulary, voc.completions t n = voc.completions (t.upTo n) q) ∧
        (size t < Checked.limit →
          Checked.ruleTyped? n t = some (t.ruleTyped n) ∧
          Checked.ruleTyped? q (t.upTo n) = some (t.ruleTyped n) ∧
          ∀ voc : Vocabulary,
            Checked.completions? voc t n = some (voc.completions t n) ∧
            Checked.completions? voc (t.upTo n) q = some (voc.completions t n)) := by
  refine ⟨⟨⟨size_upTo_le n t, isBoundary_upTo n t⟩, ?_⟩, ?_⟩
  · rintro m ⟨hmn, hm⟩
    exact (size_readTo_max (some n) t).2 m hm (by simpa using hmn)
  · intro q hq
    have htyped : t.ruleTyped n = (t.upTo n).ruleTyped q := by
      rw [ruleTyped_eq, ruleTyped_eq, upTo_of_size_le (t.upTo n) hq]
    have hcompletions : ∀ voc : Vocabulary,
        voc.completions t n = voc.completions (t.upTo n) q := by
      intro voc
      unfold Vocabulary.completions
      rw [htyped]
    refine ⟨htyped, hcompletions, ?_⟩
    intro ht
    have hfirst : size (t.upTo n) < Checked.limit :=
      (boundary_le_size (isBoundary_upTo n t)).trans_lt ht
    refine ⟨Checked.ruleTyped?_eq ht n, ?_, ?_⟩
    · rw [htyped]
      exact Checked.ruleTyped?_eq hfirst q
    · intro voc
      refine ⟨Checked.completions?_eq ht voc n, ?_⟩
      rw [hcompletions]
      exact Checked.completions?_eq hfirst voc q

/-- Inside the second character of `aé:b`, and past the end of `a`. -/
theorem the_typed_rule_sees_no_later_text_inside_a_character :
    Text.upTo 2 "aé:b".toList = "a".toList ∧
      Text.ruleTyped 2 "aé:b".toList = Text.ruleTyped 7 "a".toList ∧
      (∀ voc : Vocabulary, voc.completions "aé:b".toList 2 = voc.completions "a".toList 7) ∧
      size "aé:b".toList < Checked.limit ∧
      Checked.ruleTyped? 2 "aé:b".toList = Checked.ruleTyped? 7 "a".toList := by
  have hupTo : Text.upTo 2 "aé:b".toList = "a".toList := by decide
  have hsize : size "aé:b".toList < Checked.limit := by decide
  have h := the_typed_rule_sees_no_later_text "aé:b".toList 2
  rw [hupTo] at h
  obtain ⟨htyped, hcompletions, hchecked⟩ := h.2 7 (by decide)
  obtain ⟨hwhole, hfirst, -⟩ := hchecked hsize
  exact ⟨hupTo, htyped, hcompletions, hsize, hwhole.trans hfirst.symm⟩

end ClassList
