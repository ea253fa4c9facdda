-- The value of a rule is a normal form: read again, it gives one rule with
-- the same variants, the same marks and the same name. The only exceptions
-- are the empty value and a variant that starts with a `!` or a colon.
import Mathlib
import ClassList.Proofs.Names
import ClassList.Proofs.Nesting
import ClassList.Proofs.Reading

namespace ClassList

open Text

/-! ## The words in scope -/

namespace Layout

variable {ended : Bool} {a : Text} {s : Scan}

/-- The words in scope have no character in common. -/
theorem length_scopes (h : Layout ended a s) :
    (s.scopes.map (·.raw.length)).sum ≤ a.length := by
  have hleave : ∀ {l l' : List Item} {n m : Nat}, l' <:+ l →
      (l.map (·.raw.length)).sum ≤ n → n ≤ m → (l'.map (·.raw.length)).sum ≤ m := by
    intro l l' n m hsuf hle hnm
    exact ((hsuf.sublist.map _).sum_le_sum (by simp)).trans (hle.trans hnm)
  induction h with
  | start => exact Nat.le_refl _
  | colon _ ih => exact hleave (List.suffix_refl _) ih (by simp)
  | enter _ ho ih =>
    simp only [Scan.restart_scopes, Scan.enter_scopes, List.map_cons, List.sum_cons,
      ho.item_raw, List.length_append]
    omega
  | name _ _ _ ih => exact hleave (List.suffix_refl _) ih (by simp)
  | opening _ ih =>
    have hgroup : ∀ (s : Scan) (n : Nat), (s.item .group n).raw = [] := fun _ _ => rfl
    simp only [Scan.restart_scopes, Scan.enter_scopes, List.map_cons, List.sum_cons,
      hgroup, List.length_nil, List.length_append]
    omega
  | closing _ _ ih => exact hleave (Scan.leaveWords_leaveGroup_suffix _ _) ih (by simp)
  | blank _ _ _ ih => exact hleave (List.dropWhile_suffix _) ih (by simp)

end Layout

/-! ## The variants and identifiers of a rule -/

theorem Rule.variantOf?_eq_some {i : Item} {v : PlacedVariant} (h : Rule.variantOf? i = some v) :
    i.kind = .variant v.toVariant ∧ v.loc = i.span := by
  unfold Rule.variantOf? at h
  split at h
  · rename_i w hk
    obtain rfl := Option.some.inj h
    exact ⟨hk, rfl⟩
  · cases h

/-- A variant that starts with a `!` or a colon. -/
def Variant.Barbed (v : Variant) : Prop := v.value.head? = some '!' ∨ v.value.head? = some ':'

instance (v : Variant) : Decidable v.Barbed := inferInstanceAs (Decidable (_ ∨ _))

namespace Layout

variable {ended : Bool} {a : Text} {s : Scan}

/-- A variant in scope has the text of a variant. A barbed one stands right
behind a `!` that is in scope too. -/
theorem variant_opens (h : Layout ended a s) {v : PlacedVariant}
    (hv : v ∈ s.scopes.filterMap Rule.variantOf?) :
    VariantText v.value ∧ (v.Barbed → (∃ b ∈ s.scopes, b.IsBang) ∧
      ∃ x y, a = x ++ '!' :: v.value ++ y ∧ v.loc.start = size x + 1) := by
  obtain ⟨i, hi, hiv⟩ := List.mem_filterMap.mp hv
  obtain ⟨hk, hloc⟩ := Rule.variantOf?_eq_some hiv
  obtain ⟨front, rest, hscopes⟩ := List.append_of_mem hi
  have hg : i.isGroup = false := by simp [Item.isGroup, hk]
  have hraw : i.raw = v.value := by simp [Item.raw, hk, Variant.value]
  have ho := h.scope_opens ⟨front, hscopes.symm⟩ hg
  rw [hk, hraw] at ho
  refine ⟨ho.of_variant.1, fun hbarbed => ?_⟩
  obtain ⟨b, hb, hbang, hstop⟩ := ho.of_variant.2 hbarbed
  have hmem : b ∈ s.scopes := by
    rw [hscopes]
    exact List.mem_append_right _ (List.mem_cons_of_mem _ (List.mem_of_mem_head? hb))
  -- Both words stand in the text, and the second starts where the first stops.
  obtain ⟨x, c, hx, hxs, -⟩ := (h.scope_standsIn hmem hbang.not_isGroup).split
  obtain ⟨z, y, hz, hzs, -⟩ := (h.scope_standsIn hi hg).split
  have hstart : i.start = size x + 1 := by
    rw [← hstop, hxs, Item.span, Span.ofText, hbang.raw_eq]
    rfl
  have hzx : x ++ ['!'] = z := by
    rw [hx, hbang.raw_eq, List.append_assoc z] at hz
    refine (append_inj_of_size hz ?_).1
    rw [hzs, hstart, size_append]
    rfl
  refine ⟨⟨b, hmem, hbang⟩, x, y, ?_, by rw [hloc]; exact hstart⟩
  rw [hz, hraw, ← hzx]
  simp

/-- The identifiers of a scope hold no delimiter and leave no run open. -/
theorem identifier_opens (h : Layout ended a s) {w : Identifier}
    (hw : w ∈ s.scopes.filterMap Item.identifier?) : Solid w.raw ∧ inRun w.raw = false := by
  obtain ⟨i, hi, hiw⟩ := List.mem_filterMap.mp hw
  obtain ⟨front, rest, hscopes⟩ := List.append_of_mem hi
  have hk : i.kind = .identifier w := by
    unfold Item.identifier? at hiw
    split at hiw
    · rename_i hk
      rw [hk, Option.some.inj hiw]
    · cases hiw
  have hraw : i.raw = w.raw := by simp [Item.raw, hk]
  have ho := h.scope_opens ⟨front, hscopes.symm⟩ (by simp [Item.isGroup, hk])
  rw [hk, hraw] at ho
  cases ho with
  | outer _ hs hr => exact ⟨hs, hr⟩

end Layout

/-! ## What a rule shows -/

namespace Rule

/-- The value is the variants one behind the other and the marked name. -/
theorem value_eq (r : Rule) :
    r.value = (r.variants.map (·.value)).flatten ++ marked r.important r.negated r.bareName := by
  simp [value, marked, name, List.flatMap_def]

variable {w : Text} {start : Nat} {scopes : List Item}

theorem ofName_important : (ofName w start scopes).important =
    (Identifier.important ⟨w, true⟩ ||
      (scopes.filterMap Item.identifier?).any Identifier.important) := rfl

theorem ofName_negated : (ofName w start scopes).negated =
    (Identifier.negated ⟨w, true⟩ ||
      (scopes.filterMap Item.identifier?).any Identifier.negated) := rfl

theorem important_of_bang {i : Item} (hi : i ∈ scopes) (h : i.IsBang) :
    (ofName w start scopes).important = true := by
  rw [ofName_important, Bool.or_eq_true, List.any_eq_true]
  exact Or.inr ⟨_, List.mem_filterMap.mpr ⟨i, hi, h.identifier_eq⟩, rfl⟩

/-- Every name of a rule is the name of an identifier that has no more marks
than the rule. -/
theorem mem_names {n : Text} (h : n ∈ (ofName w start scopes).names) :
    ∃ i : Identifier, i.name = n ∧
      ((ofName w start scopes).important = false → i.important = false) ∧
      ((ofName w start scopes).negated = false → i.negated = false) := by
  rw [ofName_names, List.mem_append, List.mem_reverse, List.mem_map, List.mem_singleton] at h
  rw [ofName_important, ofName_negated, Bool.or_eq_false_iff, Bool.or_eq_false_iff,
    List.any_eq_false, List.any_eq_false]
  rcases h with ⟨i, hi, rfl⟩ | rfl
  · exact ⟨i, rfl, fun h => by simpa using h.2 i hi, fun h => by simpa using h.2 i hi⟩
  · exact ⟨⟨w, true⟩, rfl, And.left, And.left⟩

/-- The bare name of a rule takes no mark for its own. -/
theorem unmarked_ofName :
    Unmarked (ofName w start scopes).important (ofName w start scopes).negated
      (ofName w start scopes).bareName where
  last := by
    intro himp hlast
    obtain ⟨n, hn, hc⟩ := getLast_joinNames hlast
    obtain ⟨i, rfl, hi, -⟩ := mem_names hn
    exact Identifier.name_getLast (hi himp) hc
  head := by
    intro himp hneg hhead
    obtain ⟨n, hn, hc⟩ := head_joinNames hhead
    obtain ⟨i, rfl, hi, hng⟩ := mem_names hn
    exact Identifier.name_head (hi himp) (hng hneg) hc
  minus := by
    intro hneg hhead
    obtain ⟨n, hn, hc⟩ := head_joinNames hhead
    obtain ⟨i, rfl, -, hng⟩ := mem_names hn
    exact Identifier.name_head_minus (hng hneg) hc

theorem solid_marked {important negated : Bool} {bare : Text} (h : Solid bare) :
    Solid (marked important negated bare) := by
  have hcons : ∀ {c : Char} {w : Text}, c ∉ delimiters → c ≠ '[' → Solid w → Solid (c :: w) := by
    intro c w hc hb hw
    refine solid_append (a := [c]) ?_ (by simp [inRun, runAfter, hb]) hw
    simpa [Solid, outside, hb] using hc
  have hsigned : Solid (signed negated bare) := by
    cases negated
    · exact h
    · exact hcons (by decide) (by decide) h
  cases important
  · exact hsigned
  · exact hcons (by decide) (by decide) hsigned

/-- The bare name of a rule holds no delimiter. -/
theorem solid_bareName {ended : Bool} {a : Text} {s : Scan} (h : Layout ended a s) (hw : Solid w) :
    Solid (ofName w start s.scopes).bareName := by
  have hmem : ∀ n ∈ ((s.scopes.filterMap Item.identifier?).map Identifier.name).reverse,
      ∃ i ∈ s.scopes.filterMap Item.identifier?, i.name = n := by
    intro n hn
    exact List.mem_map.mp (List.mem_reverse.mp hn)
  rw [bareName, ofName_names]
  apply solid_joinNames
  · intro n hn
    obtain ⟨i, hi, rfl⟩ := hmem n hn
    exact Identifier.name_solid (h.identifier_opens hi).1
  · intro n hn
    obtain ⟨i, hi, rfl⟩ := hmem n hn
    rw [Identifier.name_inRun]
    exact (h.identifier_opens hi).2
  · exact Identifier.name_solid hw

end Rule

/-! ## Reading the value again -/

/-- The two rules show the same: they differ in nothing but where they stand
and how their name came together. -/
structure Rule.ShowsAs (r r' : Rule) : Prop where
  value : r.value = r'.value
  name : r.name = r'.name
  negated : r.negated = r'.negated
  important : r.important = r'.important
  variants : r.variants.map (·.value) = r'.variants.map (·.value)

/-- A rule with plain variants reads again as a rule that shows the same. -/
theorem Rule.reads_again {r : Rule} (hv : ∀ v ∈ r.variants.map (·.value), Scan.Plain v)
    (hs : Solid r.bareName) (hm : Unmarked r.important r.negated r.bareName)
    (hne : r.value ≠ []) : ∃ r', Text.rules r.value = [r'] ∧ r'.ShowsAs r := by
  rw [r.value_eq] at hne ⊢
  refine ⟨_, Text.rules_plain hv (Rule.solid_marked hs) hne, ?_⟩
  have hids : (Scan.init.enterVariants (r.variants.map (·.value))).scopes.filterMap
      Item.identifier? = [] := by
    rw [Scan.enterVariants_identifiers]
    rfl
  obtain ⟨himp, hneg, hname⟩ := Rule.read_marked hm true
  generalize hr' : Rule.ofName _ _ _ = r'
  have himportant : r'.important = r.important := by
    rw [← hr', Rule.ofName_important, hids, himp]
    simp
  have hnegated : r'.negated = r.negated := by
    rw [← hr', Rule.ofName_negated, hids, hneg]
    simp
  have hbare : r'.bareName = r.bareName := by
    rw [Rule.bareName, ← hr', Rule.ofName_names, hids, hname]
    exact Rule.joinNames_joinNames r.names
  have hvariants : r'.variants.map (·.value) = r.variants.map (·.value) := by
    rw [← hr', Rule.ofName_variants, Scan.enterVariants_variants]
    rfl
  refine ⟨?_, by rw [Rule.name, Rule.name, hnegated, hbare], hnegated, himportant, hvariants⟩
  rw [Rule.value_eq, Rule.value_eq, hvariants, himportant, hnegated, hbare]

/-- The words in scope are variants and identifiers. -/
theorem length_words (scopes : List Item) :
    (scopes.map (·.raw.length)).sum =
      ((scopes.filterMap Rule.variantOf?).map (·.value.length)).sum +
      ((scopes.filterMap Item.identifier?).map (·.raw.length)).sum := by
  induction scopes with
  | nil => rfl
  | cons i scopes ih =>
    rw [List.map_cons, List.sum_cons, ih]
    cases hk : i.kind with
    | group =>
      rw [List.filterMap_cons_none (by simp [Rule.variantOf?, hk]),
        List.filterMap_cons_none (by simp [Item.identifier?, hk])]
      simp [Item.raw, hk]
    | variant v =>
      rw [List.filterMap_cons_some (by simp [Rule.variantOf?, hk]; rfl),
        List.filterMap_cons_none (by simp [Item.identifier?, hk])]
      simp [Item.raw, hk, Variant.value, Nat.add_assoc]
    | identifier w =>
      rw [List.filterMap_cons_none (by simp [Rule.variantOf?, hk]),
        List.filterMap_cons_some (by simp [Item.identifier?, hk]; rfl)]
      simp [Item.raw, hk]
      omega

/-- A rule that takes all the text in front of its name for its variants has
no barbed variant: there is no room for the `!` in front of it. -/
theorem not_barbed {vs : List Text} {w : Text} {r : Rule} (hv : ∀ v ∈ vs, VariantText v)
    (hw : Solid w) (hne : w ≠ []) (hr : Text.rules (vs.flatten ++ w) = [r])
    (hvs : r.variants.map (·.value) = vs) : ∀ v ∈ r.variants, ¬ v.Barbed := by
  have hrested : (Scan.run vs.flatten).Rested := Scan.rested_init.foldl_flatten hv
  rw [Text.rules_word hrested hw (Or.inl hne)] at hr
  have hlast := (List.append_inj' (hr.trans (List.nil_append [r]).symm) rfl).2
  obtain rfl := List.singleton_inj.mp hlast
  intro v hv' hbarbed
  rw [Rule.ofName_variants, List.mem_reverse] at hv'
  obtain ⟨before, ha, hl⟩ := (Scan.hasRead_settle (Scan.hasRead_run vs.flatten)).split
  rw [hrested.word_nil, List.append_nil] at ha
  have hroom := hl.length_scopes
  rw [← ha, length_words, Scan.restart_scopes] at hroom
  have hvariants : (((Scan.run vs.flatten).settle.scopes.filterMap Rule.variantOf?).map
      (·.value.length)).sum = vs.flatten.length := by
    have hlength := congrArg (fun l : List Text => l.flatten.length) hvs
    simpa [List.length_flatten, List.sum_reverse, Function.comp_def] using hlength
  obtain ⟨b, hb, hbang⟩ := ((hl.variant_opens hv').2 hbarbed).1
  have hpos : 1 ≤ (((Scan.run vs.flatten).settle.scopes.filterMap Item.identifier?).map
      (·.raw.length)).sum := by
    apply List.le_sum_of_mem
    exact List.mem_map.mpr ⟨_, List.mem_filterMap.mpr ⟨b, hb, hbang.identifier_eq⟩, rfl⟩
  omega

/-! ## The law -/

/-- The value of a rule, read again, gives one rule that shows the same,
unless the value is empty or a variant starts with a `!` or a colon. Such a
variant stands right behind another `!` in the text, as in `!!hover:x`. -/
theorem the_value_is_a_normal_form {t : Text} {r : Rule} (hr : r ∈ t.rules) :
    ((∃ r', Text.rules r.value = [r'] ∧ r'.ShowsAs r) ↔
      r.value ≠ [] ∧ ∀ v ∈ r.variants, ¬ v.Barbed) ∧
    ∀ v ∈ r.variants, v.Barbed →
      ∃ x y, t = x ++ '!' :: v.value ++ y ∧ v.loc.start = size x + 1 := by
  obtain ⟨before, w, rest, s, rfl, hl, hw, rfl⟩ := Text.rule_layout hr
  have hopens : ∀ v ∈ (Rule.ofName w (size before) s.scopes).variants, _ := fun v hv =>
    hl.variant_opens (List.mem_reverse.mp hv)
  have hsolid : Solid (Rule.ofName w (size before) s.scopes).bareName :=
    Rule.solid_bareName hl hw
  refine ⟨⟨?_, ?_⟩, ?_⟩
  · rintro ⟨r', hrules, hshows⟩
    refine ⟨?_, ?_⟩
    · intro hnil
      rw [hnil] at hrules
      cases hrules
    · intro v hv hbarbed
      obtain ⟨b, hb, hbang⟩ := ((hopens v hv).2 hbarbed).1
      have himp : (Rule.ofName w (size before) s.scopes).important = true :=
        Rule.important_of_bang hb hbang
      rw [Rule.value_eq, himp] at hrules
      have hvt : ∀ raw ∈ (Rule.ofName w (size before) s.scopes).variants.map (·.value),
          VariantText raw := by
        intro raw hraw
        obtain ⟨v, hv, rfl⟩ := List.mem_map.mp hraw
        exact (hopens v hv).1
      -- The second rule has a variant with the same text, which is barbed too.
      obtain ⟨v', hv', he⟩ : ∃ v' ∈ r'.variants, v'.value = v.value := by
        rw [← List.mem_map, hshows.variants]
        exact List.mem_map_of_mem hv
      refine not_barbed hvt (Rule.solid_marked hsolid) ?_ hrules hshows.variants v' hv' ?_
      · simp [Rule.marked]
      · rwa [Variant.Barbed, he]
  · rintro ⟨hne, hplain⟩
    refine Rule.reads_again ?_ hsolid Rule.unmarked_ofName hne
    intro raw hraw
    obtain ⟨v, hv, rfl⟩ := List.mem_map.mp hraw
    exact ⟨(hopens v hv).1, fun h => hplain v hv (Or.inl h), fun h => hplain v hv (Or.inr h)⟩
  · intro v hv hbarbed
    obtain ⟨x, y, rfl, hstart⟩ := ((hopens v hv).2 hbarbed).2
    exact ⟨x, y ++ w ++ rest, by simp, hstart⟩

/-- A rule with a variant, both marks and a joined name reads again as itself. A
rule with a barbed variant does not. -/
theorem the_value_is_a_normal_form_in_a_group :
    (∃ r ∈ Text.rules "sm:-mx(& [a b]!)".toList, r.value = "sm:!-mx-[a b]".toList ∧
      ∃ r', Text.rules r.value = [r'] ∧ r'.ShowsAs r) ∧
    ∃ r ∈ Text.rules "!!hover:x".toList, r.value = "!hover:!x".toList ∧
      ¬ ∃ r', Text.rules r.value = [r'] ∧ r'.ShowsAs r := by
  constructor
  · obtain ⟨r, hr, hvalue, hne, hplain⟩ : ∃ r ∈ Text.rules "sm:-mx(& [a b]!)".toList,
        r.value = "sm:!-mx-[a b]".toList ∧ r.value ≠ [] ∧ ∀ v ∈ r.variants, ¬ v.Barbed := by
      decide
    exact ⟨r, hr, hvalue, (the_value_is_a_normal_form hr).1.mpr ⟨hne, hplain⟩⟩
  · obtain ⟨r, hr, hvalue, v, hv, hbarbed⟩ : ∃ r ∈ Text.rules "!!hover:x".toList,
        r.value = "!hover:!x".toList ∧ ∃ v ∈ r.variants, v.Barbed := by decide
    refine ⟨r, hr, hvalue, fun h => ?_⟩
    exact ((the_value_is_a_normal_form hr).1.mp h).2 v hv hbarbed

end ClassList
