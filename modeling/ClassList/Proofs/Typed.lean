-- The laws of the rule being typed. A scan that stops inside a name is in
-- the same scopes as the scan that reads the whole name, so the typed rule and
-- the finished rule differ in nothing but the part of the name not yet typed.
import Mathlib
import ClassList.Rule.Query
import ClassList.Proofs.Layout

namespace ClassList

open Text

/-! ## One step back -/

namespace Scan

theorem settle_of_mode {s : Scan} (h : s.mode ≠ .colon) : s.settle = s := by
  simp [settle, h]

theorem settle_of_colon {s : Scan} (h : s.mode = .colon) : s.settle = s.endVariant := by
  simp [settle, h]

/-- Outside square brackets and behind no colon, a character either goes into
the word or leaves none. -/
theorem read_word (s : Scan) (c : Char) :
    (s.read c).settle.word = [] ∨ ∃ m, (s.read c).settle = { s.push c with mode := m } := by
  unfold read
  dsimp only
  split
  · split
    · exact Or.inl rfl
    · exact Or.inl (endVariant_word _)
  · exact Or.inl rfl
  · exact Or.inl rfl
  · exact Or.inl rfl
  · right
    by_cases hb : c = '['
    · exact ⟨.bracket, by simp [hb, settle]⟩
    · exact ⟨.plain, by simp [hb, settle]⟩

/-- A step leaves no word, or the word of the scan before and one character
more. Then nothing else has changed. -/
theorem step_word (s : Scan) (c : Char) :
    (s.step c).settle.word = [] ∨ ∃ m, (s.step c).settle = { s.settle.push c with mode := m } := by
  unfold step
  split
  · rename_i hm
    rw [settle_of_mode (by rw [hm]; decide : s.mode ≠ .colon)]
    exact read_word s c
  · rename_i hm
    rw [settle_of_mode (by rw [hm]; decide : s.mode ≠ .colon)]
    right
    by_cases hb : c = ']'
    · exact ⟨.plain, by simp [hb, settle]⟩
    · exact ⟨.bracket, by simp [hb, settle]⟩
  · rename_i hm
    split
    · left
      rw [settle_of_mode (by rw [endVariant_mode]; decide), endVariant_word]
    · rw [settle_of_colon hm]
      exact read_word _ c

/-- Reading less of a word gives the scan with less of that word. -/
theorem settle_rewind {a u v : Text} (h : (run a).settle.word = u ++ v) :
    ∃ b, a = b ++ v ∧ (run b).settle.word = u ∧
      (run b).settle.start = (run a).settle.start ∧
      (run b).settle.scopes = (run a).settle.scopes := by
  induction v using List.reverseRecOn generalizing a with
  | nil => exact ⟨a, by simp, by simpa using h, rfl, rfl⟩
  | append_singleton v d ih =>
    rcases List.eq_nil_or_concat a with rfl | ⟨a, c, rfl⟩
    · simp [run, init, settle] at h
    · rw [List.concat_eq_append, run_append, List.foldl_cons, List.foldl_nil] at h ⊢
      rcases step_word (run a) c with hnil | ⟨m, hm⟩
      · rw [hnil] at h
        simp at h
      · rw [hm] at h ⊢
        have hcat : (run a).settle.word ++ [c] = (u ++ v) ++ [d] := by simpa [push] using h
        obtain ⟨hw, hcd⟩ := List.append_inj' hcat rfl
        obtain rfl : c = d := by simpa using hcd
        obtain ⟨b, rfl, hbw, hbs, hbc⟩ := ih hw
        exact ⟨b, by simp, hbw, hbs, hbc⟩

end Scan

/-! ## The finished rules of a scan -/

/-- The item is a closed name. -/
def Placed.isClosed (p : Placed) : Bool := p.item.identifier?.any Identifier.closed

/-- The rule of a name that starts at an offset in some scopes. -/
def Rule.ofName (w : Text) (start : Nat) (scopes : List Item) : Rule :=
  .ofChain ⟨0, .identifier ⟨w, true⟩, start⟩ scopes

namespace Scan

/-- The name that the scan would place here. -/
def nameHere (s : Scan) (closed : Bool) : Placed :=
  ⟨s.item (.identifier ⟨s.word, closed⟩) s.start, s.scopes⟩

/-- The rule of the word being read, if it ended here. -/
def ruleHere (s : Scan) : Rule := .ofName s.word s.start s.scopes

/-- A rule does not show the number of its name, nor whether it is closed. -/
theorem ofChain_nameHere (s : Scan) (closed : Bool) :
    Rule.ofChain (s.nameHere closed).item (s.nameHere closed).scopes = s.ruleHere := rfl

/-- The rules of the names that a scan has closed, in source order. -/
def finished (s : Scan) : List Rule :=
  (s.placed.reverse.filter Placed.isClosed).map fun p => .ofChain p.item p.scopes

/-- Only what is placed decides which rules are finished. -/
theorem finished_congr {s s' : Scan} (h : s'.placed = s.placed) : s'.finished = s.finished := by
  unfold finished
  rw [h]

theorem finished_open {s s' : Scan} {p : Placed} (h : s'.placed = p :: s.placed)
    (hp : p.isClosed = false) : s'.finished = s.finished := by
  unfold finished
  rw [h, List.reverse_cons, List.filter_append, List.filter_cons_of_neg (by simp [hp]),
    List.filter_nil, List.append_nil]

theorem finished_closed {s s' : Scan} {p : Placed} (h : s'.placed = p :: s.placed)
    (hp : p.isClosed = true) : s'.finished = s.finished ++ [.ofChain p.item p.scopes] := by
  unfold finished
  rw [h, List.reverse_cons, List.filter_append, List.filter_cons_of_pos hp, List.filter_nil,
    List.map_append]
  rfl

theorem finished_endVariant (s : Scan) : s.endVariant.finished = s.finished := by
  unfold endVariant
  split
  · rw [finished_open (s := s.enter (.identifier ⟨['!'], false⟩) s.start) rfl rfl]
    exact finished_open rfl rfl
  · exact finished_open rfl rfl

theorem finished_endOuter (s : Scan) : s.endOuter.finished = s.finished := by
  unfold endOuter
  split
  · rfl
  · exact finished_open rfl rfl

theorem finished_settle (s : Scan) : s.settle.finished = s.finished := by
  unfold settle
  split
  · exact finished_endVariant s
  · rfl

theorem endIdentifier_placed {s : Scan} (h : s.word ≠ [] ∨ s.awaitsName = true) :
    s.endIdentifier.placed = s.nameHere true :: s.placed := by
  unfold endIdentifier
  rw [if_neg (by rcases h with h | h <;> simp [h])]
  rfl

theorem finished_endIdentifier (s : Scan) :
    s.endIdentifier.finished = s.finished ∨
      s.endIdentifier.finished = s.finished ++ [s.ruleHere] := by
  by_cases h : s.word ≠ [] ∨ s.awaitsName = true
  · right
    rw [finished_closed (endIdentifier_placed h) rfl, ofChain_nameHere]
  · left
    unfold endIdentifier
    rw [if_pos (by simpa using h)]

theorem finished_read (s : Scan) (c : Char) :
    (s.read c).finished = s.finished ∨ (s.read c).finished = s.finished ++ [s.ruleHere] := by
  unfold read
  dsimp only
  split
  · left
    split <;> rfl
  · left
    rw [finished_open (s := s.endOuter) rfl rfl]
    exact finished_endOuter s
  · have hplaced : ((s.endIdentifier.leaveWords.leaveGroup (s.offset + c.utf8Size)).restart
        (s.offset + c.utf8Size)).placed = s.endIdentifier.placed := by simp
    rw [finished_congr hplaced]
    exact finished_endIdentifier s
  · exact finished_endIdentifier s
  · exact Or.inl rfl

/-- A character finishes the rule of the word in front of it, or none. -/
theorem finished_step (s : Scan) (c : Char) :
    (s.step c).finished = s.finished ∨
      (s.step c).finished = s.finished ++ [s.settle.ruleHere] := by
  unfold step
  split
  · rename_i hm
    rw [settle_of_mode (by rw [hm]; decide : s.mode ≠ .colon)]
    exact finished_read s c
  · exact Or.inl rfl
  · rename_i hm
    rw [settle_of_colon hm]
    split
    · exact Or.inl (finished_endVariant _)
    · rw [← finished_endVariant s]
      exact finished_read _ c

/-- Every finished rule is the rule of the word that the scan had read up to
some place. -/
theorem finished_origin {t : Text} {r : Rule} (hr : r ∈ (run t).finished) :
    ∃ a b, t = a ++ b ∧ r = (run a).settle.ruleHere := by
  induction t using List.reverseRecOn with
  | nil => cases hr
  | append_singleton t c ih =>
    rw [run_append, List.foldl_cons, List.foldl_nil] at hr
    rcases finished_step (run t) c with hc | hc
    · rw [hc] at hr
      obtain ⟨a, b, rfl, he⟩ := ih hr
      exact ⟨a, b ++ [c], by simp, he⟩
    · rw [hc] at hr
      rcases List.mem_append.mp hr with hr | hr
      · obtain ⟨a, b, rfl, he⟩ := ih hr
        exact ⟨a, b ++ [c], by simp, he⟩
      · exact ⟨t, [c], rfl, List.mem_singleton.mp hr⟩

end Scan

/-! ## The rules of a text -/

/-- The rules of a tree are those that its scan has finished. -/
theorem Scan.rules_tree (s : Scan) (n : Nat) : (s.tree n).rules = s.finished := by
  have hroot : ¬ (s.tree n).root.isTerminal = true := by
    show ¬ false = true
    simp
  unfold Tree.rules Tree.terminals Tree.nodes
  rw [List.filter_cons_of_neg hroot]
  unfold Scan.tree
  rw [List.filter_map, List.map_map]
  rfl

/-- The rules of a text are finished at its end. -/
theorem Text.rules_eq (t : Text) : t.rules = (Scan.run t).settle.endIdentifier.finished :=
  Scan.rules_tree _ _

/-- Every rule is the rule of a word at the end of some first part of the text. -/
theorem Text.rule_origin {t : Text} {r : Rule} (hr : r ∈ t.rules) :
    ∃ a b, t = a ++ b ∧ r = .ofName (Scan.run a).settle.word (Scan.run a).settle.start
      (Scan.run a).settle.scopes := by
  have hend := Scan.finished_endIdentifier (Scan.run t).settle
  rw [Scan.finished_settle, ← Text.rules_eq] at hend
  rcases hend with he | he
  · rw [he] at hr
    exact Scan.finished_origin hr
  · rw [he] at hr
    rcases List.mem_append.mp hr with hr | hr
    · exact Scan.finished_origin hr
    · exact ⟨t, [], by simp, List.mem_singleton.mp hr⟩

/-- A rule stands in its text behind a layout, in the scopes that are open there. -/
theorem Text.rule_layout {t : Text} {r : Rule} (hr : r ∈ t.rules) :
    ∃ before w rest s, t = before ++ w ++ rest ∧ Layout false before s ∧ Solid w ∧
      r = .ofName w (size before) s.scopes := by
  obtain ⟨a, b, rfl, rfl⟩ := Text.rule_origin hr
  have hread := Scan.hasRead_settle (Scan.hasRead_run a)
  obtain ⟨before, ha, hl⟩ := hread.split
  have hstart : (Scan.run a).settle.start = size before := hl.start_eq
  refine ⟨before, _, b, _, by rw [← ha], hl, hread.solid (Scan.settle_mode _), ?_⟩
  rw [hstart]
  rfl

/-- The typed rule is the rule of the word in front of the offset. -/
theorem Text.ruleTyped_eq (n : Nat) (t : Text) :
    t.ruleTyped n = .ofName (Scan.run (t.upTo n)).settle.word (Scan.run (t.upTo n)).settle.start
      (Scan.run (t.upTo n)).settle.scopes := by
  have hlast : (Tree.ofTextUpTo n t).last.toPlaced =
      (Scan.run (t.upTo n)).settle.nameHere (decide (t.upTo n = t)) := by
    simp [Tree.ofTextUpTo, Tree.last, Scan.tree, Scan.nameHere]
  have hsome : (Tree.ofTextUpTo n t).last.item.identifier?.isSome = true := by
    rw [hlast]
    rfl
  unfold ruleTyped
  dsimp only
  rw [if_pos hsome, Rule.ofNode, hlast]
  exact Scan.ofChain_nameHere _ _

/-! ## A name and a part of it -/

namespace Rule

/-- Only the last place of a rule depends on where its name stops. -/
theorem foldl_addSpan (places front : List Span) (first : Nat) :
    ∃ front' first', ∀ stop, places.foldl addSpan (front ++ [⟨first, stop⟩]) =
      front' ++ [⟨first', stop⟩] := by
  induction places generalizing front first with
  | nil => exact ⟨front, first, fun _ => rfl⟩
  | cons s places ih =>
    rcases front with _ | ⟨f, front⟩
    · by_cases hs : first = s.stop
      · obtain ⟨front', first', h⟩ := ih [] s.start
        exact ⟨front', first', fun stop => by simpa [addSpan, hs] using h stop⟩
      · obtain ⟨front', first', h⟩ := ih [s] first
        exact ⟨front', first', fun stop => by simpa [addSpan, hs] using h stop⟩
    · by_cases hs : f.start = s.stop
      · obtain ⟨front', first', h⟩ := ih (⟨s.start, f.stop⟩ :: front) first
        exact ⟨front', first', fun stop => by simpa [addSpan, hs] using h stop⟩
      · obtain ⟨front', first', h⟩ := ih (s :: f :: front) first
        exact ⟨front', first', fun stop => by simpa [addSpan, hs] using h stop⟩

variable (w : Text) (start : Nat) (scopes : List Item)

@[simp] theorem ofName_raw : (ofName w start scopes).raw = w := rfl

@[simp] theorem ofName_loc : (ofName w start scopes).loc = ⟨start, start + size w⟩ := rfl

@[simp] theorem ofName_variants :
    (ofName w start scopes).variants = (scopes.filterMap variantOf?).reverse := rfl

theorem ofName_names : (ofName w start scopes).names =
    ((scopes.filterMap Item.identifier?).map Identifier.name).reverse ++
      [Identifier.name ⟨w, true⟩] := by
  simp [ofName, ofChain, Item.identifier?]

theorem ofName_spans : (ofName w start scopes).spans =
    ((scopes.filter (!·.isGroup)).map Item.span).foldl addSpan [⟨start, start + size w⟩] := rfl

/-- The outer name is the bare one, with a `-` in front or without. -/
theorem outer_eq (r : Rule) : r.outer = r.bareOuter ∨ r.outer = '-' :: r.bareOuter := by
  unfold outer signed
  split
  · exact Or.inr rfl
  · exact Or.inl rfl

end Rule

/-- A boundary inside a word cuts the word in two. -/
theorem Text.boundary_in_word {before w rest : Text} {n : Nat}
    (hn : isBoundary n (before ++ w ++ rest) = true) (hstart : size before ≤ n)
    (hstop : n ≤ size before + size w) :
    ∃ u v, w = u ++ v ∧ n = size before + size u := by
  obtain ⟨x, y, hxy, rfl⟩ := isBoundary_iff.mp hn
  rw [List.append_assoc] at hxy
  rcases List.append_eq_append_iff.mp hxy with ⟨u, rfl, huv⟩ | ⟨u, hbefore, -⟩
  · rw [size_append] at hstop ⊢
    rcases List.append_eq_append_iff.mp huv with ⟨v, rfl, -⟩ | ⟨v, hw, -⟩
    · have hv : v = [] := size_eq_zero (by rw [size_append] at hstop; omega)
      exact ⟨w, [], by simp, by simp [hv]⟩
    · exact ⟨u, v, hw, rfl⟩
  · have hu : u = [] := size_eq_zero (by rw [hbefore, size_append] at hstart; omega)
    exact ⟨[], w, rfl, by simp [hbefore, hu]⟩

/-! ## The law -/

/-- The rule being typed inside the name of a rule is that rule with the rest
of the name left out, and at the end of the name it is the rule itself. -/
theorem the_typed_rule_agrees {t : Text} {r : Rule} {n : Nat} (hr : r ∈ t.rules)
    (hn : isBoundary n t = true) (hstart : r.loc.start ≤ n) (hstop : n ≤ r.loc.stop) :
    (t.ruleTyped n).loc = ⟨r.loc.start, n⟩ ∧
      (t.ruleTyped n).raw = t.slice ⟨r.loc.start, n⟩ ∧
      (t.ruleTyped n).variants = r.variants ∧
      (∃ outer, (r.outer = outer ∨ r.outer = '-' :: outer) ∧
        ((t.ruleTyped n).outer = outer ∨ (t.ruleTyped n).outer = '-' :: outer)) ∧
      (t.ruleTyped n).bareOuter = r.bareOuter ∧
      (∃ front first, r.spans = front ++ [⟨first, r.loc.stop⟩] ∧
        (t.ruleTyped n).spans = front ++ [⟨first, n⟩]) ∧
      (n = r.loc.stop → t.ruleTyped n = r) := by
  obtain ⟨a, b, rfl, hre⟩ := Text.rule_origin hr
  obtain ⟨before, ha, hl⟩ := (Scan.hasRead_settle (Scan.hasRead_run a)).split
  have hbefore : (Scan.run a).settle.start = size before := hl.start_eq
  -- The offset cuts the name into what is typed and what is not.
  have hcut : ∃ u v, (Scan.run a).settle.word = u ++ v ∧ n = size before + size u := by
    have hn : isBoundary n (before ++ (Scan.run a).settle.word ++ b) = true := by
      rw [← ha]
      exact hn
    apply Text.boundary_in_word hn
    · simpa [hre, hbefore] using hstart
    · simpa [hre, hbefore] using hstop
  obtain ⟨u, v, huv, hnu⟩ := hcut
  obtain ⟨x, hxv, hxw, hxs, hxc⟩ := Scan.settle_rewind huv
  have hx : x = before ++ u := by
    rw [huv, ← List.append_assoc] at ha
    exact (List.append_inj' (hxv.symm.trans ha) rfl).1
  have hupTo : (a ++ b).upTo n = x := by
    have hsplit : a ++ b = x ++ (v ++ b) := by rw [hxv, List.append_assoc]
    rw [hsplit, hnu, ← size_append, ← hx, upTo_size_append]
  have htyped : (a ++ b).ruleTyped n =
      .ofName u (size before) (Scan.run a).settle.scopes := by
    rw [Text.ruleTyped_eq, hupTo, hxw, hxs, hxc, hbefore]
  rw [hbefore, huv] at hre
  rw [htyped, hre]
  have hbare : (Rule.ofName u (size before) (Scan.run a).settle.scopes).bareOuter =
      (Rule.ofName (u ++ v) (size before) (Scan.run a).settle.scopes).bareOuter := by
    simp only [Rule.bareOuter, Rule.ofName_names, List.dropLast_concat]
  obtain ⟨front, first, hspans⟩ := Rule.foldl_addSpan
    (((Scan.run a).settle.scopes.filter (!·.isGroup)).map Item.span) [] (size before)
  refine ⟨by simp [hnu], ?_, rfl, ⟨_, Rule.outer_eq _, ?_⟩, hbare, ⟨front, first, ?_, ?_⟩, ?_⟩
  · rw [Rule.ofName_raw, Rule.ofName_loc, hnu]
    have hsplit : a ++ b = before ++ u ++ (v ++ b) := by rw [hxv, hx, List.append_assoc]
    rw [hsplit, slice_append]
  · rw [← hbare]
    exact Rule.outer_eq _
  · rw [Rule.ofName_spans]
    exact hspans _
  · rw [Rule.ofName_spans, hnu]
    exact hspans _
  · intro hend
    have hv : v = [] := by
      simp only [Rule.ofName_loc, size_append] at hend
      exact size_eq_zero (by omega)
    rw [hv, List.append_nil]

/-- Inside the name of `-mx(5 sm:!2x)`, behind the `!2`. -/
theorem the_typed_rule_agrees_in_a_group :
    ∃ r ∈ Text.rules "-mx(5 sm:!2x)".toList,
      isBoundary 11 "-mx(5 sm:!2x)".toList = true ∧ r.loc.start ≤ 11 ∧ 11 ≤ r.loc.stop ∧
      (Text.ruleTyped 11 "-mx(5 sm:!2x)".toList).variants = r.variants ∧
      (Text.ruleTyped 11 "-mx(5 sm:!2x)".toList).loc = ⟨9, 11⟩ := by
  obtain ⟨r, hr, hstart, hstop, h9⟩ : ∃ r ∈ Text.rules "-mx(5 sm:!2x)".toList,
      r.loc.start ≤ 11 ∧ 11 ≤ r.loc.stop ∧ r.loc.start = 9 := by decide
  have h := the_typed_rule_agrees hr (by decide) hstart hstop
  exact ⟨r, hr, by decide, hstart, hstop, h.2.2.1, h9 ▸ h.1⟩

end ClassList
