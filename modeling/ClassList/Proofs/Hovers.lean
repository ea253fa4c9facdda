-- The laws of hovers. A hover looks for its rule among all rules of a text and
-- takes in everything between the places of that rule. It is there exactly where
-- the rules at the offset are those of a word, and then it shows the first of them.
import Mathlib
import ClassList.Hover
import ClassList.Proofs.AtOffset

namespace ClassList

open Text

/-! ## The range around some places -/

namespace Span

theorem encloses_trans {a b c : Span} (hab : a.encloses b = true) (hbc : b.encloses c = true) :
    a.encloses c = true := by
  rw [encloses_iff] at *
  omega

theorem contains_of_encloses {a b : Span} {n : Nat} (hab : a.encloses b = true)
    (hn : b.contains n = true) : a.contains n = true := by
  rw [encloses_iff] at hab
  rw [contains_iff] at *
  omega

theorem cover_encloses (a b : Span) :
    (a.cover b).encloses a = true ∧ (a.cover b).encloses b = true := by
  simp [cover, encloses_iff]

/-- The range around some places is around each of them. -/
theorem foldl_cover_encloses (first : Span) (rest : List Span) :
    ∀ s ∈ first :: rest, (rest.foldl cover first).encloses s = true := by
  induction rest generalizing first with
  | nil => simp [encloses_refl]
  | cons next rest ih =>
    have hboth := ih (first.cover next) _ List.mem_cons_self
    intro s hs
    rw [List.mem_cons, List.mem_cons] at hs
    rcases hs with rfl | rfl | hs
    · exact encloses_trans hboth (cover_encloses s next).1
    · exact encloses_trans hboth (cover_encloses first s).2
    · exact ih (first.cover next) s (List.mem_cons_of_mem _ hs)

/-- Around places that stand one behind the other, the range goes from the start of the
first to the stop of the last. -/
theorem foldl_cover_of_ordered {first last : Span} {rest : List Span}
    (hvalid : ∀ s ∈ first :: rest, s.start ≤ s.stop)
    (hapart : (first :: rest).Pairwise fun a b => a.stop < b.start)
    (hlast : (first :: rest).getLast? = some last) :
    rest.foldl cover first = ⟨first.start, last.stop⟩ := by
  induction rest using List.reverseRecOn generalizing last with
  | nil =>
    obtain rfl : first = last := by simpa using hlast
    rfl
  | append_singleton front d ih =>
    rw [← List.cons_append] at hvalid hapart hlast
    rw [List.getLast?_concat, Option.some.injEq] at hlast
    subst hlast
    obtain ⟨hfront, -, hbehind⟩ := List.pairwise_append.mp hapart
    obtain ⟨e, he⟩ : ∃ e, (first :: front).getLast? = some e :=
      ⟨_, List.getLast?_eq_some_getLast (List.cons_ne_nil first front)⟩
    have hmem := List.mem_of_getLast? he
    have hall := ih (fun s hs => hvalid s (List.mem_append_left _ hs)) hfront he
    -- The range so far stops where its last place does, in front of the new place.
    have hstart : first.start ≤ e.stop := by
      have hfirst := (encloses_iff.mp (foldl_cover_encloses first front e hmem)).1
      rw [hall] at hfirst
      exact Nat.le_trans hfirst (hvalid e (List.mem_append_left _ hmem))
    have hlt := hbehind e hmem d (by simp)
    have hd := hvalid d (by simp)
    rw [List.foldl_append, hall]
    simp only [List.foldl_cons, List.foldl_nil, cover, mk.injEq]
    omega

end Span

/-! ## The range of a rule -/

/-- The range around the places of a rule starts with the first of them and stops with the
name. -/
theorem Text.extent_of_mem {t : Text} {r : Rule} (hr : r ∈ t.rules) :
    ∃ first ∈ r.spans.head?, r.extent? = some ⟨first.start, r.loc.stop⟩ ∧
      ∀ s ∈ r.spans, (⟨first.start, r.loc.stop⟩ : Span).encloses s = true := by
  obtain ⟨ended, s, hl, htree⟩ := Tree.layout_ofText t
  unfold Text.rules Tree.rules at hr
  rw [htree] at hr
  obtain ⟨last, hlast, rfl⟩ := List.mem_map.mp hr
  obtain ⟨p, hp, hg, rfl⟩ := Layout.mem_terminals hlast
  have hjoins : Joins _ (Rule.ofNode (s.nodeOf (size t) p)).spans := hl.joins_chain hp
  have hmade := hl.madeOf (List.prefix_refl t) hp hg
  obtain ⟨final, hfinal, -, hstop⟩ := hmade.loc
  obtain ⟨first, rest, hspans⟩ := List.exists_cons_of_ne_nil hmade.nonempty
  have hvalid := hjoins.valid
  have hapart := hmade.separated
  rw [hspans] at hvalid hapart hfinal
  have hcover := Span.foldl_cover_of_ordered hvalid hapart hfinal
  rw [hstop] at hcover
  refine ⟨first, by rw [hspans]; rfl, ?_, ?_⟩
  · unfold Rule.extent?
    rw [hspans, ← hcover]
  · rw [hspans, ← hcover]
    exact Span.foldl_cover_encloses first rest

/-! ## The rule of a hover -/

namespace Text

/-- A hover is there if some rule is at the offset, and shows the first one. -/
theorem hover_eq_some {t : Text} {n : Nat} (css : Rule → Option Text) {r : Rule}
    (hr : t.rules.find? (·.isAt n) = some r) :
    ∃ first ∈ r.spans.head?, t.hover? n css = some ⟨r.value, ⟨first.start, r.loc.stop⟩, css r⟩ ∧
      ∀ s ∈ r.spans, (⟨first.start, r.loc.stop⟩ : Span).encloses s = true := by
  obtain ⟨first, hfirst, hextent, hencloses⟩ := extent_of_mem (List.mem_of_find?_eq_some hr)
  refine ⟨first, hfirst, ?_, hencloses⟩
  unfold hover? hoverAmong?
  rw [hr]
  simp [hextent]

theorem hover_eq_none {t : Text} {n : Nat} {css : Rule → Option Text}
    (hr : t.rules.find? (·.isAt n) = none) : t.hover? n css = none := by
  unfold hover? hoverAmong?
  rw [hr]
  rfl

/-- The first of all rules that is at an offset is the first of the rules there. -/
theorem head_rulesAt {t : Text} {n : Nat} {r : Rule} (hr : t.rules.find? (·.isAt n) = some r) :
    (t.rulesAt n).head? = some r := by
  have hat : r.isAt n = true := by simpa using List.find?_some hr
  have hany : t.rules.any (·.isAt n) = true :=
    List.any_eq_true.mpr ⟨r, List.mem_of_find?_eq_some hr, hat⟩
  unfold rulesAt
  dsimp only
  rw [hany, if_pos rfl, List.head?_filter, hr]

/-- Some rule is at an offset exactly if a word there is on the way to a name. -/
theorem exists_isAt_iff (t : Text) (n : Nat) :
    (∃ r ∈ t.rules, r.isAt n = true) ↔ ∃ w ∈ (Tree.ofText t).words, w.span.contains n = true ∧
      ∃ last ∈ (Tree.ofText t).terminals, w.id ∈ last.ancestors := by
  obtain ⟨ended, s, hl, htree⟩ := Tree.layout_ofText t
  unfold Text.rules Tree.rules
  rw [htree]
  constructor
  · rintro ⟨r, hr, hat⟩
    obtain ⟨last, hlast, rfl⟩ := List.mem_map.mp hr
    obtain ⟨w, hw, hid, hwn⟩ := (hl.isAt_iff hlast n).mp hat
    exact ⟨w, hw, hwn, last, hlast, hid⟩
  · rintro ⟨w, hw, hwn, last, hlast, hid⟩
    exact ⟨_, List.mem_map_of_mem hlast, (hl.isAt_iff hlast n).mpr ⟨w, hw, hid, hwn⟩⟩

end Text

/-! ## The law -/

/-- A hover is there exactly at a word on the way to a name. It shows the first of the rules
at the offset, from the start of its first place to the end of its name, and with the
declarations found for that rule. Where there is no hover, no rule has the offset in one of
its places, and the rules there are those of the group around it. -/
theorem hovers_show_the_first_rule_there (t : Text) (n : Nat) (css : Rule → Option Text) :
    ((t.hover? n css).isSome = true ↔
      ∃ w ∈ (Tree.ofText t).words, w.span.contains n = true ∧
        ∃ last ∈ (Tree.ofText t).terminals, w.id ∈ last.ancestors) ∧
    (∀ h ∈ t.hover? n css, ∃ r ∈ (t.rulesAt n).head?, ∃ first ∈ r.spans.head?,
      h = ⟨r.value, ⟨first.start, r.loc.stop⟩, css r⟩ ∧ h.range.contains n = true ∧
        ∀ s ∈ r.spans, h.range.encloses s = true) ∧
    (t.hover? n css = none →
      (∀ r ∈ t.rules, ∀ s ∈ r.spans, s.contains n = false) ∧
      t.rulesAt n = t.rules.filter fun r =>
        r.spans.any ((Tree.ofText t).groupAt n).span.encloses) := by
  rw [← exists_isAt_iff]
  cases hfind : t.rules.find? (·.isAt n) with
  | some r =>
    obtain ⟨first, hfirst, hhover, hencloses⟩ := hover_eq_some css hfind
    have hat : r.isAt n = true := by simpa using List.find?_some hfind
    rw [hhover]
    refine ⟨iff_of_true rfl ⟨r, List.mem_of_find?_eq_some hfind, hat⟩, ?_, by simp⟩
    intro h hh
    obtain rfl := Option.some.inj hh
    obtain ⟨s, hs, hsn⟩ := List.any_eq_true.mp hat
    exact ⟨r, head_rulesAt hfind, first, hfirst, rfl,
      Span.contains_of_encloses (hencloses s hs) hsn, hencloses⟩
  | none =>
    have hnone := List.find?_eq_none.mp hfind
    rw [hover_eq_none hfind]
    refine ⟨iff_of_false (by simp) ?_, by simp, fun _ => ⟨?_, ?_⟩⟩
    · rintro ⟨r, hr, hat⟩
      exact hnone r hr hat
    · intro r hr s hs
      rw [← Bool.not_eq_true]
      exact fun hsn => hnone r hr (List.any_eq_true.mpr ⟨s, hs, hsn⟩)
    · have hany : t.rules.any (·.isAt n) = false := List.any_eq_false.mpr hnone
      unfold rulesAt
      dsimp only
      rw [hany]
      rfl

/-- In `te(lg md:xl)` an offset in `te` has two rules, and the hover shows the first one, in
front of the group and into it. The blank in the group has rules too, but no hover. -/
theorem hovers_show_the_first_rule_there_at_a_shared_name :
    (Text.hover? "te(lg md:xl)".toList 1 fun r => some r.raw) =
        some ⟨"te-lg".toList, ⟨0, 5⟩, some "lg".toList⟩ ∧
      (Text.rulesAt 1 "te(lg md:xl)".toList).length = 2 ∧
      ((Text.rulesAt 5 "te(lg md:xl)".toList).length = 2 ∧
        ∀ r ∈ Text.rules "te(lg md:xl)".toList, ∀ s ∈ r.spans, s.contains 5 = false) := by
  have hnone : Text.hover? "te(lg md:xl)".toList 5 (fun r => some r.raw) = none := by decide
  refine ⟨?_, by decide, by decide, ((hovers_show_the_first_rule_there _ 5 _).2.2 hnone).1⟩
  obtain ⟨h, hh⟩ := Option.isSome_iff_exists.mp
    ((hovers_show_the_first_rule_there "te(lg md:xl)".toList 1 fun r => some r.raw).1.mpr
      (by decide))
  obtain ⟨r, hr, first, hfirst, rfl, -⟩ :=
    (hovers_show_the_first_rule_there _ 1 _).2.1 h hh
  rw [hh]
  have hrule : ∀ r ∈ (Text.rulesAt 1 "te(lg md:xl)".toList).head?, ∀ first ∈ r.spans.head?,
      r.value = "te-lg".toList ∧ first.start = 0 ∧ r.loc.stop = 5 ∧ r.raw = "lg".toList := by
    decide
  obtain ⟨hvalue, hstart, hstop, hraw⟩ := hrule r hr first hfirst
  rw [hvalue, hstart, hstop, hraw]

end ClassList
