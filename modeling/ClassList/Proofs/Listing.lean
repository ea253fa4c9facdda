-- The laws of the list of completions. A stable sort keeps the order of any part
-- of a list, so what holds for the completions before they are sorted holds for
-- the sorted list: each further character of a word takes some of them away and
-- moves none.
import Mathlib
import ClassList.Proofs.Acceptance

namespace ClassList

open Text

/-! ## The order of texts -/

namespace Text

theorem le_total (s t : Text) : (le s t || le t s) = true := by
  induction s generalizing t with
  | nil => rfl
  | cons a s ih =>
    cases t with
    | nil => rfl
    | cons b t =>
      have hrest := ih t
      simp only [le, Bool.or_eq_true, Bool.and_eq_true, decide_eq_true_eq, beq_iff_eq] at hrest ⊢
      rcases Nat.lt_trichotomy a.toNat b.toNat with hlt | heq | hlt
      · exact Or.inl (Or.inl hlt)
      · exact hrest.imp (fun h => Or.inr ⟨heq, h⟩) (fun h => Or.inr ⟨heq.symm, h⟩)
      · exact Or.inr (Or.inl hlt)

theorem le_trans (s t u : Text) (hst : le s t = true) (htu : le t u = true) : le s u = true := by
  induction s generalizing t u with
  | nil => rfl
  | cons a s ih =>
    cases t with
    | nil => cases hst
    | cons b t =>
      cases u with
      | nil => cases htu
      | cons c u =>
        simp only [le, Bool.or_eq_true, Bool.and_eq_true, decide_eq_true_eq, beq_iff_eq]
          at hst htu ⊢
        rcases hst with hab | ⟨hab, hst⟩
        · rcases htu with hbc | ⟨hbc, -⟩ <;> exact Or.inl (by omega)
        · rcases htu with hbc | ⟨hbc, htu⟩
          · exact Or.inl (by omega)
          · exact Or.inr ⟨by omega, ih t u hst htu⟩

end Text

/-! ## Sorting a part of a list -/

section Sorting

variable {α : Type} (key : α → Text)

/-- What a new first element finds sorted: all that is below it, then the rest. -/
theorem mergeSort_insert (a : α) (l : List α) :
    (a :: l).mergeSort (fun a b => (key a).le (key b)) =
      (l.mergeSort fun a b => (key a).le (key b)).filter (fun b => !(key a).le (key b)) ++
        a :: (l.mergeSort fun a b => (key a).le (key b)).filter fun b => (key a).le (key b) := by
  obtain ⟨below, above, hcons, hl, hbelow⟩ := List.mergeSort_cons
    (fun a b c => le_trans (key a) (key b) (key c)) (fun a b => le_total (key a) (key b)) a l
  have habove : ∀ b ∈ above, (key a).le (key b) = true := by
    have hsorted := List.pairwise_mergeSort (fun a b c => le_trans (key a) (key b) (key c))
      (fun a b => le_total (key a) (key b)) (a :: l)
    rw [hcons] at hsorted
    exact (List.pairwise_cons.mp (List.pairwise_append.mp hsorted).2.1).1
  have hfront : ∀ b ∈ below, (key a).le (key b) = false := by
    intro b hb
    simpa using hbelow b hb
  rw [hcons, hl, List.filter_append, List.filter_append, List.filter_eq_self.mpr hbelow,
    List.filter_eq_self.mpr habove, List.filter_eq_nil_iff.mpr (by simpa using habove),
    List.filter_eq_nil_iff.mpr (by simpa using hfront), List.append_nil, List.nil_append]

/-- A part of a list, sorted, is a part of the sorted list. -/
theorem mergeSort_sublist {part l : List α} (h : part.Sublist l) :
    (part.mergeSort fun a b => (key a).le (key b)).Sublist
      (l.mergeSort fun a b => (key a).le (key b)) := by
  induction h with
  | slnil => exact List.Sublist.refl _
  | @cons part l a _ ih =>
    obtain ⟨below, above, hcons, hl, -⟩ := List.mergeSort_cons
      (fun a b c => le_trans (key a) (key b) (key c)) (fun a b => le_total (key a) (key b)) a l
    rw [hl] at ih
    rw [hcons]
    exact ih.trans ((List.sublist_cons_self a above).append_left below)
  | cons_cons a _ ih =>
    rw [mergeSort_insert, mergeSort_insert]
    exact (ih.filter _).append ((ih.filter _).cons_cons a)

/-- Choosing and sorting may be done in either order. -/
theorem filter_mergeSort (p : α → Bool) (l : List α) :
    (l.mergeSort fun a b => (key a).le (key b)).filter p =
      (l.filter p).mergeSort fun a b => (key a).le (key b) := by
  have hpart := (mergeSort_sublist key (List.filter_sublist (p := p) (l := l))).filter p
  have hall : ∀ b ∈ (l.filter p).mergeSort (fun a b => (key a).le (key b)), p b = true := by
    intro b hb
    exact (List.mem_filter.mp (List.mem_mergeSort.mp hb)).2
  rw [List.filter_eq_self.mpr hall] at hpart
  have hlength := ((List.mergeSort_perm l fun a b => (key a).le (key b)).filter p).length_eq
  apply Eq.symm
  apply hpart.eq_of_length
  rw [List.length_mergeSort, hlength]

end Sorting

/-! ## A name that grows -/

namespace Identifier

variable (w : Text) (c : Char) (closed closed' : Bool)

/-- A further character leaves the mark in front alone, and what was a mark at the end
is a part of the name again. -/
theorem unmarked_push :
    (⟨w, closed⟩ : Identifier).unmarked <+: (⟨w ++ [c], closed'⟩ : Identifier).unmarked := by
  cases w with
  | nil => exact List.nil_prefix
  | cons d w =>
    by_cases hd : d = '!'
    · subst hd
      exact List.prefix_append w [c]
    · have hshort : (⟨d :: w, closed⟩ : Identifier).unmarked <+: d :: w := by
        simp only [unmarked, List.head?_cons, beq_iff_eq, Option.some.injEq, hd, if_false]
        split
        · exact List.dropLast_prefix _
        · exact List.prefix_refl _
      have hlong : d :: w <+: (⟨d :: w ++ [c], closed'⟩ : Identifier).unmarked := by
        have hhead : (d :: w ++ [c]).head? ≠ some '!' := by simpa using hd
        simp only [unmarked, beq_iff_eq, hhead, if_false, List.dropLast_concat]
        split
        · exact List.prefix_refl _
        · exact List.prefix_append _ _
      exact hshort.trans hlong

theorem name_push :
    (⟨w, closed⟩ : Identifier).name <+: (⟨w ++ [c], closed'⟩ : Identifier).name := by
  have hu := unmarked_push w c closed closed'
  rcases unmarked_cases ⟨w, closed⟩ with ⟨-, hs⟩ | ⟨-, hs, hshead⟩
  · rcases unmarked_cases ⟨w ++ [c], closed'⟩ with ⟨-, hl⟩ | ⟨-, hl, hlhead⟩
    · rw [hs, hl] at hu
      exact (List.cons_prefix_cons.mp hu).2
    · rw [hs, hl] at hu
      obtain ⟨rest, hrest⟩ := hu
      rw [← hrest] at hlhead
      exact absurd rfl hlhead
  · rcases unmarked_cases ⟨w ++ [c], closed'⟩ with ⟨-, hl⟩ | ⟨-, hl, -⟩
    · -- The short name has no `-` in front though the long one has: it is empty.
      rw [hs, hl] at hu
      cases hname : (⟨w, closed⟩ : Identifier).name with
      | nil => exact List.nil_prefix
      | cons d rest =>
        rw [hname] at hu hshead
        rw [(List.cons_prefix_cons.mp hu).1] at hshead
        exact absurd rfl hshead
    · rw [hs, hl] at hu
      exact hu

end Identifier

namespace Rule

/-- A longer last name makes the joined name longer: a `&` that goes on is a name
like any other. -/
theorem joinNames_grow (names : List Text) {n n' : Text} (h : n <+: n') :
    joinNames (names ++ [n]) <+: joinNames (names ++ [n']) := by
  by_cases hskip : n = ['&'] ∨ n = []
  · rw [joinNames_concat_skip names hskip]
    by_cases hskip' : n' = ['&'] ∨ n' = []
    · rw [joinNames_concat_skip names hskip']
    · rw [not_or] at hskip'
      rw [joinNames_concat names hskip'.2 hskip'.1]
      exact prefix_extend _ _
  · rw [not_or] at hskip
    obtain ⟨more, rfl⟩ := h
    have hne : n ++ more ≠ [] := by simp [hskip.2]
    have hamp : n ++ more ≠ ['&'] := by
      intro he
      rcases List.append_eq_singleton_iff.mp he with ⟨hn, -⟩ | ⟨hn, -⟩
      · exact hskip.2 hn
      · exact hskip.1 hn
    rw [joinNames_concat names hskip.2 hskip.1, joinNames_concat names hne hamp]
    unfold extend
    split
    · exact List.prefix_append _ _
    · exact ⟨more, by simp⟩

/-- More of the last word has been typed, and nothing else is different. -/
structure GrowsTo (r r' : Rule) : Prop where
  raw : r.raw <+: r'.raw
  name : r.bareName <+: r'.bareName
  outer : r'.bareOuter = r.bareOuter
  variants : r'.variants = r.variants
  start : r'.loc.start = r.loc.start

theorem ofName_grows (w : Text) (c : Char) (start : Nat) (scopes : List Item) :
    (ofName w start scopes).GrowsTo (ofName (w ++ [c]) start scopes) where
  raw := List.prefix_append w [c]
  name := by
    unfold bareName
    rw [ofName_names, ofName_names]
    exact joinNames_grow _ (Identifier.name_push w c true true)
  outer := by rw [ofName_bareOuter, ofName_bareOuter]
  variants := rfl
  start := rfl

end Rule

/-! ## A word that goes on -/

namespace Scan

/-- A character in a run of brackets, or one that is no delimiter, goes into the
word and changes nothing else. -/
theorem run_word_goes_on {a : Text} {c : Char} (hc : inRun a = true ∨ c ∉ delimiters) :
    ∃ m, (run (a ++ [c])).settle = { (run a).settle.push c with mode := m } := by
  rw [run_append, List.foldl_cons, List.foldl_nil]
  have hread : c ∉ delimiters → ∀ s : Scan,
      ∃ m, (s.read c).settle = { s.push c with mode := m } := by
    intro hd s
    rw [read, Delimiter.ofChar?_eq_none.mpr hd]
    by_cases hb : c = '['
    · exact ⟨.bracket, by simp [hb, settle]⟩
    · exact ⟨.plain, by simp [hb, settle]⟩
  cases hm : (run a).mode with
  | bracket =>
    rw [settle_of_mode (s := run a) (by rw [hm]; decide)]
    by_cases hb : c = ']'
    · exact ⟨.plain, by simp [step, hm, hb, settle]⟩
    · exact ⟨.bracket, by simp [step, hm, hb, settle]⟩
  | plain =>
    have hd := hc.resolve_left fun hrun => by
      rw [(hasRead_run a).inRun_iff, hm] at hrun
      cases hrun
    rw [settle_of_mode (s := run a) (by rw [hm]; decide), step, hm]
    exact hread hd _
  | colon =>
    have hd := hc.resolve_left fun hrun => by
      rw [(hasRead_run a).inRun_iff, hm] at hrun
      cases hrun
    have hcolon : c ≠ ':' := by
      rintro rfl
      exact hd (by decide)
    rw [settle_of_colon hm, step, hm]
    simp only [hcolon, if_false]
    exact hread hd _

end Scan

theorem Text.ruleTyped_grows {a : Text} {c : Char} (hc : inRun a = true ∨ c ∉ delimiters) :
    (a.ruleTyped (size a)).GrowsTo (Text.ruleTyped (size (a ++ [c])) (a ++ [c])) := by
  obtain ⟨m, hm⟩ := Scan.run_word_goes_on hc
  have hshort := ruleTyped_size a []
  have hlong := ruleTyped_size (a ++ [c]) []
  rw [List.append_nil] at hshort hlong
  rw [hshort, hlong, Scan.ruleHere, Scan.ruleHere, hm]
  exact Rule.ofName_grows _ c _ _

/-! ## The offers of one kind -/

/-- The first character of the sort texts of a kind. -/
def CompletionKind.mark : CompletionKind → Char
  | directiveGroup => '#'
  | directive => '$'
  | selfReference => '&'
  | variant => ':'
  | screen => '@'

namespace Vocabulary

/-- The offers of one kind. -/
def ofKind (voc : Vocabulary) (r : Rule) : CompletionKind → List Completion
  | .screen => voc.screenCompletions r
  | .variant => voc.variantCompletions r
  | .directiveGroup => voc.groupCompletions r
  | .directive => voc.directiveCompletions r
  | .selfReference => selfCompletions r

/-- The mark keeps the sort texts of a kind apart from all others. -/
theorem of_mem_ofKind {voc : Vocabulary} {r : Rule} {k : CompletionKind} {c : Completion}
    (h : c ∈ voc.ofKind r k) : c.kind = k ∧ c.sortText.head? = some k.mark := by
  cases k with
  | screen =>
    rw [ofKind, screenCompletions] at h
    split at h
    · obtain ⟨s, -, rfl⟩ := List.mem_map.mp h
      exact ⟨rfl, rfl⟩
    · cases h
  | variant =>
    obtain ⟨v, -, rfl⟩ := List.mem_map.mp h
    exact ⟨rfl, rfl⟩
  | directiveGroup =>
    obtain ⟨g, -, hc⟩ := List.mem_filterMap.mp h
    obtain ⟨label, -, rfl⟩ := Option.map_eq_some_iff.mp hc
    exact ⟨rfl, rfl⟩
  | directive =>
    obtain ⟨key, -, hc⟩ := List.mem_filterMap.mp h
    obtain ⟨label, -, rfl⟩ := Option.map_eq_some_iff.mp hc
    exact ⟨rfl, rfl⟩
  | selfReference =>
    rw [ofKind, selfCompletions] at h
    split at h
    · obtain rfl := List.mem_singleton.mp h
      exact ⟨rfl, rfl⟩
    · cases h

theorem filter_kind_ofKind (voc : Vocabulary) (r : Rule) (p : CompletionKind → Bool)
    (k : CompletionKind) :
    (voc.ofKind r k).filter (fun c => p c.kind) = if p k then voc.ofKind r k else [] := by
  split
  · rename_i hk
    rw [List.filter_eq_self]
    intro c hc
    rw [(of_mem_ofKind hc).1, hk]
  · rename_i hk
    rw [List.filter_eq_nil_iff]
    intro c hc
    rw [(of_mem_ofKind hc).1]
    exact hk

/-- Choosing some kinds of the offers leaves out the other kinds as a whole. -/
theorem filter_kind_offers (voc : Vocabulary) (r : Rule) (p : CompletionKind → Bool) :
    (voc.offers r).filter (fun c => p c.kind) =
      (if p .screen then voc.ofKind r .screen else []) ++
      (if p .variant then voc.ofKind r .variant else []) ++
      (if p .directiveGroup then voc.ofKind r .directiveGroup else []) ++
      (if p .directive then voc.ofKind r .directive else []) ++
      (if p .selfReference then voc.ofKind r .selfReference else []) := by
  have hoffers : voc.offers r = voc.ofKind r .screen ++ voc.ofKind r .variant ++
      voc.ofKind r .directiveGroup ++ voc.ofKind r .directive ++ voc.ofKind r .selfReference := rfl
  rw [hoffers]
  simp only [List.filter_append, filter_kind_ofKind]

end Vocabulary

/-! ## Fewer completions -/

namespace Completion

/-- What a completion shows, wherever its word ends. -/
def entry (c : Completion) : CompletionKind × Text × Text × Option Text :=
  (c.kind, c.label, c.sortText, c.detail)

/-- The completion is for one name and does not open a group. -/
def isSingle (c : Completion) : Bool := c.kind ≠ .directiveGroup

end Completion

namespace Vocabulary

variable {r r' : Rule}

theorem screens_narrow (voc : Vocabulary) (h : r.GrowsTo r') :
    ((voc.screenCompletions r').map Completion.entry).Sublist
      ((voc.screenCompletions r).map Completion.entry) := by
  unfold screenCompletions
  rw [h.variants]
  split
  · rw [List.map_map, List.map_map]
    apply List.Sublist.map
    apply List.monotone_filter_right
    intro s hs
    rw [List.isPrefixOf_iff_prefix] at hs ⊢
    exact h.raw.trans hs
  · exact List.Sublist.refl _

theorem variants_narrow (voc : Vocabulary) (h : r.GrowsTo r') :
    ((voc.variantCompletions r').map Completion.entry).Sublist
      ((voc.variantCompletions r).map Completion.entry) := by
  unfold variantCompletions
  rw [h.variants, List.map_map, List.map_map]
  apply List.Sublist.map
  apply List.monotone_filter_right
  intro v hv
  rw [Bool.and_eq_true, List.isPrefixOf_iff_prefix] at hv ⊢
  exact ⟨h.raw.trans hv.1, hv.2⟩

theorem keys_narrow (voc : Vocabulary) (h : r.GrowsTo r') : (voc.keys r').Sublist (voc.keys r) := by
  apply List.monotone_filter_right
  intro key hkey
  rw [List.isPrefixOf_iff_prefix] at hkey ⊢
  exact h.name.trans hkey

theorem directives_narrow (voc : Vocabulary) (h : r.GrowsTo r') :
    ((voc.directiveCompletions r').map Completion.entry).Sublist
      ((voc.directiveCompletions r).map Completion.entry) := by
  unfold directiveCompletions
  rw [List.map_filterMap, List.map_filterMap, h.outer]
  simp only [Option.map_map]
  exact (voc.keys_narrow h).filterMap _

theorem self_narrows (h : r.GrowsTo r') :
    ((selfCompletions r').map Completion.entry).Sublist
      ((selfCompletions r).map Completion.entry) := by
  have hraw : r'.raw = [] ∨ r'.raw = ['&'] → r.raw = [] ∨ r.raw = ['&'] := by
    have hprefix := h.raw
    rintro (he | he)
    · rw [he] at hprefix
      exact Or.inl (List.prefix_nil.mp hprefix)
    · rw [he] at hprefix
      rcases List.prefix_cons_iff.mp hprefix with hnil | ⟨rest, hrest, htail⟩
      · exact Or.inl hnil
      · exact Or.inr (by rw [hrest, List.prefix_nil.mp htail])
  unfold selfCompletions
  rw [h.outer]
  split
  · rename_i hself
    have hshort : (!r.bareOuter.isEmpty && (r.raw.isEmpty || r.raw == ['&'])) = true := by
      simp only [Bool.and_eq_true, Bool.or_eq_true, List.isEmpty_iff, beq_iff_eq] at hself ⊢
      exact ⟨hself.1, hraw hself.2⟩
    rw [if_pos hshort]
    exact List.Sublist.refl _
  · exact List.nil_sublist _

/-- Apart from the groups the offers are those of the four other kinds. -/
theorem offers_single (voc : Vocabulary) (r : Rule) :
    (voc.offers r).filter Completion.isSingle =
      voc.screenCompletions r ++ voc.variantCompletions r ++ voc.directiveCompletions r ++
        selfCompletions r := by
  have hsingle : (voc.offers r).filter Completion.isSingle = _ :=
    voc.filter_kind_offers r fun k => k ≠ .directiveGroup
  simpa [ofKind] using hsingle

theorem offers_narrow (voc : Vocabulary) (h : r.GrowsTo r') :
    (((voc.offers r').filter Completion.isSingle).map Completion.entry).Sublist
      (((voc.offers r).filter Completion.isSingle).map Completion.entry) := by
  rw [offers_single, offers_single]
  simp only [List.map_append]
  exact (((voc.screens_narrow h).append (voc.variants_narrow h)).append
    (voc.directives_narrow h)).append (self_narrows h)

/-- The order of the list looks at the entries only. -/
theorem entries_sorted (voc : Vocabulary) (t : Text) (n : Nat) :
    ((voc.completions t n).filter Completion.isSingle).map Completion.entry =
      (((voc.offers (t.ruleTyped n)).filter Completion.isSingle).map Completion.entry).mergeSort
        fun a b => a.2.2.1.le b.2.2.1 := by
  unfold completions
  rw [filter_mergeSort Completion.sortText]
  exact List.map_mergeSort fun _ _ _ _ => rfl

/-- Every completion is for the word being typed. -/
theorem range_of_mem {voc : Vocabulary} {t : Text} {n : Nat} {c : Completion}
    (hc : c ∈ voc.completions t n) : c.range = (t.ruleTyped n).loc := by
  obtain ⟨before, w, rest, -, htyped, hoffer⟩ := replaces_of_mem hc
  rw [htyped]
  exact hoffer.range

end Vocabulary

/-! ## The law -/

/-- A character that goes on with the word in front of it takes completions away and
adds none: apart from the groups, those that are left are a part of the list before,
in the same order, and all of them are for a word that starts at the same place. -/
theorem typing_narrows_the_list (voc : Vocabulary) {a : Text} {c : Char}
    (hc : inRun a = true ∨ c ∉ delimiters) :
    (((voc.completions (a ++ [c]) (size (a ++ [c]))).filter Completion.isSingle).map
        Completion.entry).Sublist
      (((voc.completions a (size a)).filter Completion.isSingle).map Completion.entry) ∧
    ∀ x ∈ voc.completions (a ++ [c]) (size (a ++ [c])), ∀ y ∈ voc.completions a (size a),
      x.range.start = y.range.start := by
  have hgrows := Text.ruleTyped_grows hc
  constructor
  · rw [Vocabulary.entries_sorted, Vocabulary.entries_sorted]
    exact mergeSort_sublist (fun x => x.2.2.1) (voc.offers_narrow hgrows)
  · intro x hx y hy
    rw [Vocabulary.range_of_mem hx, Vocabulary.range_of_mem hy]
    exact hgrows.start

/-- The parenthesis goes on with the word because it stands in brackets. Of the two keys
of the group it leaves one. -/
theorem typing_narrows_the_list_inside_brackets :
    inRun "sm:-mx(w-[".toList = true ∧
      (((Vocabulary.completions ⟨[], [], [⟨"mx-w-[(a]".toList, none, none⟩,
            ⟨"mx-w-[b]".toList, none, none⟩]⟩ "sm:-mx(w-[(".toList 11).filter
          Completion.isSingle).map Completion.entry).Sublist
        (((Vocabulary.completions ⟨[], [], [⟨"mx-w-[(a]".toList, none, none⟩,
            ⟨"mx-w-[b]".toList, none, none⟩]⟩ "sm:-mx(w-[".toList 10).filter
          Completion.isSingle).map Completion.entry) ∧
      ∃ c ∈ Vocabulary.completions ⟨[], [], [⟨"mx-w-[(a]".toList, none, none⟩,
          ⟨"mx-w-[b]".toList, none, none⟩]⟩ "sm:-mx(w-[(".toList 11,
        c.label = "w-[(a]".toList ∧ c.range = ⟨7, 11⟩ := by
  have hrun : inRun "sm:-mx(w-[".toList = true := by decide
  obtain ⟨c, hc, hshown⟩ : ∃ c ∈ Vocabulary.offers ⟨[], [], [⟨"mx-w-[(a]".toList, none, none⟩,
      ⟨"mx-w-[b]".toList, none, none⟩]⟩ (Text.ruleTyped 11 "sm:-mx(w-[(".toList),
      c.label = "w-[(a]".toList ∧ c.range = ⟨7, 11⟩ := by decide
  exact ⟨hrun, (typing_narrows_the_list _ (Or.inl hrun : _ ∨ '(' ∉ delimiters)).1, c,
    Vocabulary.mem_completions.mpr hc, hshown⟩

end ClassList
