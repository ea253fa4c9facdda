-- What the list of completions holds, and its order. The first characters of the sort
-- texts keep the kinds apart, so each kind has a part of the list to itself: its offers,
-- which follow the vocabulary, sorted.
import Mathlib
import ClassList.Proofs.Listing

namespace ClassList

open Text

/-! ## The order of bytes -/

namespace Text

/-- The bytes of a text in UTF-8. -/
def bytes (t : Text) : List UInt8 := t.flatMap String.utf8EncodeChar

theorem byte_cons_lt {m n : Nat} {x y : List UInt8} (hm : m < 256) (hn : n < 256) :
    UInt8.ofNat m :: x < UInt8.ofNat n :: y ↔ m < n ∨ (m = n ∧ x < y) := by
  rw [List.cons_lt_cons_iff, UInt8.lt_iff_toNat_lt, ← UInt8.toNat_inj,
    UInt8.toNat_ofNat_of_lt' hm, UInt8.toNat_ofNat_of_lt' hn]

theorem code_lt (c : Char) : c.val.toNat < 0x110000 := by
  have hvalid := c.valid
  unfold UInt32.isValidChar Nat.isValidChar at hvalid
  omega

theorem lt_iff_digits {m n : Nat} :
    m < n ↔ m / 64 < n / 64 ∨ (m / 64 = n / 64 ∧ m % 64 < n % 64) := by
  omega

/-- A longer encoding has a higher first byte, and encodings of the same length differ
first where the code points do, in digits of base 64. -/
theorem encode_lt {a b : Char} (h : a.toNat < b.toNat) (x y : List UInt8) :
    String.utf8EncodeChar a ++ x < String.utf8EncodeChar b ++ y := by
  have ha := code_lt a
  have hb := code_lt b
  change a.val.toNat < b.val.toNat at h
  unfold String.utf8EncodeChar
  dsimp only
  generalize a.val.toNat = m at h ha ⊢
  generalize b.val.toNat = n at h hb ⊢
  -- No two code points differ above their fourth digit.
  have hdigits := h
  rw [lt_iff_digits, lt_iff_digits (m := m / 64), lt_iff_digits (m := m / 64 / 64),
    Nat.div_div_eq_div_mul, Nat.div_div_eq_div_mul, Nat.div_div_eq_div_mul,
    Nat.div_div_eq_div_mul] at hdigits
  have hm : m / 262144 % 8 = m / 262144 := by omega
  have hn : n / 262144 % 8 = n / 262144 := by omega
  rw [hm, hn]
  split_ifs <;>
    simp (disch := omega) only [List.cons_append, List.nil_append, byte_cons_lt] <;> omega

/-- The order by code points is the order by bytes. -/
theorem le_iff_bytes (s t : Text) : le s t = true ↔ s.bytes ≤ t.bytes := by
  induction s generalizing t with
  | nil => simp [le, bytes]
  | cons a s ih =>
    cases t with
    | nil => simp [le, bytes]
    | cons b t =>
      simp only [le, Bool.or_eq_true, Bool.and_eq_true, decide_eq_true_eq, beq_iff_eq, bytes,
        List.flatMap_cons]
      rcases Nat.lt_trichotomy a.toNat b.toNat with hlt | heq | hlt
      · exact iff_of_true (Or.inl hlt) (List.le_of_lt (encode_lt hlt _ _))
      · obtain rfl := Char.toNat_inj.mp heq
        have hcancel : String.utf8EncodeChar a ++ bytes s ≤ String.utf8EncodeChar a ++ bytes t ↔
            bytes s ≤ bytes t := by
          refine ⟨fun h => ?_, List.append_left_le⟩
          exact List.not_lt.mp fun hlt => List.not_lt.mpr h (List.append_left_lt hlt)
        simpa [ih, bytes] using hcancel.symm
      · exact iff_of_false (by omega) (List.not_le.mpr (encode_lt hlt _ _))

end Text

/-! ## Sorting and leaving out repetitions -/

section Sorting

variable {α : Type} (key : α → Text)

theorem sorted_mergeSort (l : List α) :
    (l.mergeSort fun a b => (key a).le (key b)).Pairwise fun a b =>
      bytes (key a) ≤ bytes (key b) := by
  refine (List.pairwise_mergeSort (fun a b c => le_trans (key a) (key b) (key c))
    (fun a b => le_total (key a) (key b)) l).imp ?_
  intro a b h
  exact (le_iff_bytes _ _).mp h

/-- Sorting does not move the elements of one key past each other. -/
theorem filter_key_mergeSort (l : List α) (s : Text) :
    (l.mergeSort fun a b => (key a).le (key b)).filter (fun a => key a = s) =
      l.filter fun a => key a = s := by
  rw [filter_mergeSort]
  apply List.mergeSort_of_pairwise
  apply List.pairwise_of_forall_mem_list
  intro a ha b hb
  have hkeys : key a = key b := by
    rw [of_decide_eq_true (List.mem_filter.mp ha).2, of_decide_eq_true (List.mem_filter.mp hb).2]
  rw [hkeys]
  simpa using Text.le_total (key b) (key b)

end Sorting

theorem nodup_eraseDups (l : List Text) : l.eraseDups.Nodup := by
  induction hn : l.length using Nat.strongRecOn generalizing l with
  | ind n ih =>
    cases l with
    | nil => exact List.nodup_nil
    | cons a l =>
      rw [List.eraseDups_cons, List.nodup_cons]
      refine ⟨?_, ih _ ?_ _ rfl⟩
      · rw [List.mem_eraseDups, List.mem_filter]
        simp
      · have hlength := List.length_filter_le (fun b => !b == a) l
        rw [List.length_cons] at hn
        omega

/-! ## Names in groups -/

/-- The name can be written in the groups of an outer name, which may be empty. -/
def FitsIn (outer key : Text) : Prop :=
  key ≠ [] ∧ (outer ≠ [] → outer ++ ['-'] <+: key ∧ key ≠ outer ++ ['-'])

instance (outer key : Text) : Decidable (FitsIn outer key) := inferInstanceAs (Decidable (_ ∧ _))

/-- What is written there. -/
def labelIn (outer key : Text) : Text := if outer = [] then key else key.drop (outer.length + 1)

theorem fitsIn_append {outer : Text} (h : outer ≠ []) (rest : Text) :
    FitsIn outer (outer ++ rest) ↔ ∃ label, rest = '-' :: label ∧ label ≠ [] := by
  unfold FitsIn
  rw [List.prefix_append_right_inj]
  constructor
  · rintro ⟨-, hrest⟩
    obtain ⟨⟨label, rfl⟩, hlabel⟩ := hrest h
    exact ⟨label, rfl, by simpa using hlabel⟩
  · rintro ⟨label, rfl, hlabel⟩
    exact ⟨by simp, fun _ => ⟨⟨label, rfl⟩, by simpa using hlabel⟩⟩

theorem relativeName?_eq {outer key : Text} (h : outer <+: key) :
    relativeName? outer key = if FitsIn outer key then some (labelIn outer key) else none := by
  obtain ⟨rest, rfl⟩ := h
  unfold relativeName? labelIn
  by_cases houter : outer = []
  · subst houter
    cases rest <;> simp [FitsIn]
  · have hdrop : Text.dropStart? (outer ++ rest) outer = some rest := by simp [dropStart?]
    rw [hdrop, if_neg (by simpa using houter)]
    by_cases hfits : FitsIn outer (outer ++ rest)
    · obtain ⟨label, rfl, hlabel⟩ := (fitsIn_append houter rest).mp hfits
      simp [hfits, houter, hlabel, List.drop_append]
    · rw [if_neg hfits]
      rw [fitsIn_append houter] at hfits
      split
      · rename_i label hlabel
        have hempty : label = [] := by
          by_contra hne
          exact hfits ⟨label, Option.some.inj hlabel, hne⟩
        simp [hempty]
      · rfl
      · rename_i hnone
        cases hnone

/-- Of some names that go on with an outer name, those that can be written in its groups. -/
theorem filterMap_relativeName? {outer : Text} {keys : List Text} (h : ∀ key ∈ keys, outer <+: key)
    (entry : Text → Text → Completion) :
    keys.filterMap (fun key => (relativeName? outer key).map (entry key)) =
      (keys.filter fun key => FitsIn outer key).map fun key => entry key (labelIn outer key) := by
  induction keys with
  | nil => rfl
  | cons key keys ih =>
    have hkey := relativeName?_eq (h key (by simp))
    have hrest := ih fun key hkey => h key (by simp [hkey])
    by_cases hfits : FitsIn outer key
    · rw [if_pos hfits] at hkey
      simp [hkey, hfits, hrest]
    · rw [if_neg hfits] at hkey
      simp [hkey, hfits, hrest]

/-! ## Where a typed name leads to -/

/-- The typed name starts the utility, and the groups around leave something to write. -/
def Rule.LeadsTo (r : Rule) (u : Utility) : Prop :=
  r.bareName <+: u.value ∧ FitsIn r.bareOuter u.value

instance (r : Rule) (u : Utility) : Decidable (r.LeadsTo u) := inferInstanceAs (Decidable (_ ∧ _))

namespace Vocabulary

/-- The completion for a utility. -/
def directiveEntry (r : Rule) (u : Utility) : Completion :=
  ⟨.directive, labelIn r.bareOuter u.value, '$' :: u.value.naturalKey, some u.value, r.loc⟩

/-- The completion for a group. -/
def groupEntry (r : Rule) (g : Text) : Completion :=
  ⟨.directiveGroup, labelIn r.bareOuter g, '#' :: g, some (g ++ "(...)".toList), r.loc⟩

variable {voc : Vocabulary} {r : Rule}

theorem directiveCompletions_eq (hnames : r.names ≠ []) :
    voc.directiveCompletions r = (voc.utilities.filter r.LeadsTo).map (directiveEntry r) := by
  have houter := Rule.bareOuter_prefix hnames
  unfold directiveCompletions
  rw [filterMap_relativeName? fun key hkey => houter.trans (prefix_of_mem_keys hkey)]
  unfold keys
  rw [List.filter_filter, List.filter_map, List.map_map]
  congr 1
  apply List.filter_congr
  intro u _
  rw [Bool.eq_iff_iff, decide_eq_true_eq]
  simp [Rule.LeadsTo, and_comm]

theorem groupCompletions_eq (hnames : r.names ≠ []) :
    voc.groupCompletions r =
      ((voc.groups r).filter fun g => FitsIn r.bareOuter g).map (groupEntry r) := by
  have houter := Rule.bareOuter_prefix hnames
  exact filterMap_relativeName? (fun g hg => houter.trans (prefix_of_mem_groups hg)) _

/-- The group of a key reaches up to the first `-` behind the typed name. -/
theorem groupOf?_eq_some {typed key g : Text} (h : typed <+: key) :
    groupOf? typed key = some g ↔ (∃ x, g = typed ++ x ∧ '-' ∉ x) ∧ g ++ ['-'] <+: key := by
  have htake : ∀ {x y : Text}, '-' ∉ x → (x ++ '-' :: y).takeWhile (· ≠ '-') = x := by
    intro x y hx
    have hall : ∀ c ∈ x, decide (c ≠ '-') = true := by
      intro c hc
      exact decide_eq_true fun hdash => hx (hdash ▸ hc)
    rw [List.takeWhile_append_of_pos hall]
    simp
  obtain ⟨rest, rfl⟩ := h
  unfold groupOf?
  simp only [List.drop_left, List.contains_iff_mem]
  constructor
  · intro hg
    split at hg
    · rename_i hdash
      obtain ⟨x, y, rfl, hx⟩ := List.eq_append_cons_of_mem hdash
      rw [htake hx] at hg
      obtain rfl := Option.some.inj hg
      exact ⟨⟨x, rfl, hx⟩, y, by simp⟩
    · cases hg
  · rintro ⟨⟨x, rfl, hx⟩, y, hy⟩
    obtain rfl : x ++ '-' :: y = rest := by simpa using hy
    rw [if_pos (by simp), htake hx]

/-- The groups are the names up to a `-` that utilities share with the typed name. -/
theorem mem_groups {g : Text} :
    g ∈ voc.groups r ↔
      (∃ x, g = r.bareName ++ x ∧ '-' ∉ x) ∧ ∃ u ∈ voc.utilities, g ++ ['-'] <+: u.value := by
  unfold groups keys
  rw [List.mem_eraseDups, List.mem_filterMap]
  constructor
  · rintro ⟨key, hkey, hg⟩
    obtain ⟨hmem, hprefix⟩ := List.mem_filter.mp hkey
    obtain ⟨u, hu, rfl⟩ := List.mem_map.mp hmem
    obtain ⟨hx, hdash⟩ := (groupOf?_eq_some (List.isPrefixOf_iff_prefix.mp hprefix)).mp hg
    exact ⟨hx, u, hu, hdash⟩
  · rintro ⟨⟨x, rfl, hx⟩, u, hu, hdash⟩
    have hprefix : r.bareName <+: u.value :=
      (List.prefix_append _ x).trans ((List.prefix_append _ _).trans hdash)
    refine ⟨u.value, ?_, (groupOf?_eq_some hprefix).mpr ⟨⟨x, rfl, hx⟩, hdash⟩⟩
    exact List.mem_filter.mpr ⟨List.mem_map_of_mem hu, List.isPrefixOf_iff_prefix.mpr hprefix⟩

end Vocabulary

/-! ## Where a typed word leads to -/

namespace Rule

/-- The typed word starts the variant, and the rule does not have that variant yet. -/
def LeadsToVariant (r : Rule) (v : Text) : Prop := r.raw <+: v ∧ ∀ w ∈ r.variants, w.name ≠ v

/-- The typed word starts the screen, and the rule has no variant at all. -/
def LeadsToScreen (r : Rule) (s : Text) : Prop := r.raw <+: s ∧ r.variants = []

/-- There are groups around, and nothing is typed but the `&` that stands for their name. -/
def LeadsToOuter (r : Rule) : Prop := r.bareOuter ≠ [] ∧ (r.raw = [] ∨ r.raw = ['&'])

instance (r : Rule) (v : Text) : Decidable (r.LeadsToVariant v) :=
  inferInstanceAs (Decidable (_ ∧ _))

instance (r : Rule) (s : Text) : Decidable (r.LeadsToScreen s) :=
  inferInstanceAs (Decidable (_ ∧ _))

instance (r : Rule) : Decidable r.LeadsToOuter := inferInstanceAs (Decidable (_ ∧ _))

end Rule

namespace Vocabulary

/-- The completion for a variant. -/
def variantEntry (r : Rule) (v : Text) : Completion := ⟨.variant, v ++ [':'], ':' :: v, none, r.loc⟩

/-- The completion for a screen and its least width. -/
def screenEntry (r : Rule) (s : Text × Text) : Completion :=
  ⟨.screen, s.1 ++ [':'], '@' :: s.1, some ("breakpoint @ ".toList ++ s.2), r.loc⟩

/-- The completion for the name of the groups around. -/
def selfEntry (r : Rule) : Completion := ⟨.selfReference, ['&'], ['&'], some r.bareOuter, r.loc⟩

variable {voc : Vocabulary} {r : Rule}

theorem variantCompletions_eq :
    voc.variantCompletions r = (voc.variants.filter r.LeadsToVariant).map (variantEntry r) := by
  unfold variantCompletions
  congr 1
  apply List.filter_congr
  intro v _
  rw [Bool.eq_iff_iff, decide_eq_true_eq]
  simp [Rule.LeadsToVariant]

theorem screenCompletions_eq :
    voc.screenCompletions r =
      (voc.screens.filter fun s => r.LeadsToScreen s.1).map (screenEntry r) := by
  unfold screenCompletions
  split
  · rename_i hempty
    have hnil : r.variants = [] := List.isEmpty_iff.mp hempty
    congr 1
    apply List.filter_congr
    intro s _
    rw [Bool.eq_iff_iff, decide_eq_true_eq]
    simp [Rule.LeadsToScreen, hnil]
  · rename_i hsome
    have hnone : voc.screens.filter (fun s => r.LeadsToScreen s.1) = [] := by
      rw [List.filter_eq_nil_iff]
      intro s _ hs
      exact hsome (List.isEmpty_iff.mpr (of_decide_eq_true hs).2)
    rw [hnone]
    rfl

theorem selfCompletions_eq :
    selfCompletions r = if r.LeadsToOuter then [selfEntry r] else [] := by
  unfold selfCompletions
  apply if_congr ?_ rfl rfl
  simp [Rule.LeadsToOuter]

end Vocabulary

/-! ## The kinds -/

namespace CompletionKind

/-- The place of a kind in the list. -/
def rank : CompletionKind → Nat
  | directiveGroup => 0
  | directive => 1
  | selfReference => 2
  | variant => 3
  | screen => 4

theorem rank_le_of_mark {k k' : CompletionKind} (h : k.mark.toNat ≤ k'.mark.toNat) :
    k.rank ≤ k'.rank := by
  revert h
  cases k <;> cases k' <;> decide

end CompletionKind

theorem Text.head_le_of_le {s t : Text} {c d : Char} (hs : s.head? = some c)
    (ht : t.head? = some d) (h : le s t = true) : c.toNat ≤ d.toNat := by
  obtain ⟨s, rfl⟩ := List.head?_eq_some_iff.mp hs
  obtain ⟨t, rfl⟩ := List.head?_eq_some_iff.mp ht
  simp only [le, Bool.or_eq_true, Bool.and_eq_true, decide_eq_true_eq, beq_iff_eq] at h
  omega

namespace Vocabulary

theorem filter_offers (voc : Vocabulary) (r : Rule) (k : CompletionKind) :
    (voc.offers r).filter (fun c => c.kind = k) = voc.ofKind r k := by
  rw [filter_kind_offers voc r fun k' => k' = k]
  cases k <;> simp

theorem sortText_of_mem_offers {voc : Vocabulary} {r : Rule} {c : Completion}
    (h : c ∈ voc.offers r) : c.sortText.head? = some c.kind.mark := by
  have hkind : c ∈ (voc.offers r).filter fun d => d.kind = c.kind :=
    List.mem_filter.mpr ⟨h, decide_eq_true rfl⟩
  rw [filter_offers] at hkind
  exact (of_mem_ofKind hkind).2

end Vocabulary

/-! ## The sorted list -/

/-- The completions of one kind in a list are the given ones, and those with the same sort
text are in the given order. -/
structure Shows (l : List Completion) (k : CompletionKind) (part : List Completion) : Prop where
  perm : (l.filter fun c => c.kind = k).Perm part
  stable : ∀ s, (l.filter fun c => c.kind = k ∧ c.sortText = s) =
    part.filter fun c => c.sortText = s

namespace Vocabulary

variable (voc : Vocabulary) (t : Text) (n : Nat)

theorem filter_completions (k : CompletionKind) :
    (voc.completions t n).filter (fun c => c.kind = k) =
      (voc.ofKind (t.ruleTyped n) k).mergeSort fun a b => a.sortText.le b.sortText := by
  unfold completions
  rw [filter_mergeSort Completion.sortText, filter_offers]

theorem shows_completions (k : CompletionKind) :
    Shows (voc.completions t n) k (voc.ofKind (t.ruleTyped n) k) where
  perm := by
    rw [filter_completions]
    exact List.mergeSort_perm _ _
  stable := by
    intro s
    have hsplit : (voc.completions t n).filter (fun c => c.kind = k ∧ c.sortText = s) =
        ((voc.completions t n).filter fun c => c.kind = k).filter fun c => c.sortText = s := by
      rw [List.filter_filter]
      simp [Bool.and_comm]
    rw [hsplit, filter_completions, filter_key_mergeSort Completion.sortText]

theorem groups_completions (hnames : (t.ruleTyped n).names ≠ []) :
    ∃ keys : List Text, keys.Nodup ∧
      (voc.completions t n).filter (fun c => c.kind = .directiveGroup) =
        keys.map (groupEntry (t.ruleTyped n)) ∧
      ∀ g, g ∈ keys ↔ (∃ x, g = (t.ruleTyped n).bareName ++ x ∧ '-' ∉ x) ∧
        (∃ u ∈ voc.utilities, g ++ ['-'] <+: u.value) ∧ FitsIn (t.ruleTyped n).bareOuter g := by
  -- The groups in the order of the sort texts that their completions have.
  refine ⟨((voc.groups (t.ruleTyped n)).filter fun g =>
    FitsIn (t.ruleTyped n).bareOuter g).mergeSort fun a b => le ('#' :: a) ('#' :: b), ?_, ?_, ?_⟩
  · exact (List.mergeSort_perm _ _).nodup_iff.mpr ((nodup_eraseDups _).filter _)
  · rw [filter_completions, ofKind, groupCompletions_eq hnames]
    symm
    exact List.map_mergeSort fun _ _ _ _ => rfl
  · intro g
    rw [List.mem_mergeSort, List.mem_filter, decide_eq_true_eq, mem_groups, and_assoc]

theorem sorted_completions :
    (voc.completions t n).Pairwise fun a b => bytes a.sortText ≤ bytes b.sortText :=
  sorted_mergeSort Completion.sortText _

theorem marked_completions : ∀ c ∈ voc.completions t n, c.sortText.head? = some c.kind.mark :=
  fun _ hc => sortText_of_mem_offers (mem_completions.mp hc)

theorem ranked_completions :
    (voc.completions t n).Pairwise fun a b => a.kind.rank ≤ b.kind.rank := by
  refine List.Pairwise.imp_of_mem ?_ (voc.sorted_completions t n)
  intro a b ha hb hab
  apply CompletionKind.rank_le_of_mark
  exact head_le_of_le (voc.marked_completions t n a ha) (voc.marked_completions t n b hb)
    ((le_iff_bytes _ _).mpr hab)

end Vocabulary

theorem Text.ruleTyped_names (t : Text) (n : Nat) : (t.ruleTyped n).names ≠ [] := by
  obtain ⟨before, w, rest, -, -, htyped⟩ := t.typed_split n
  rw [htyped, Rule.ofName_names]
  simp

/-! ## The law -/

/-- The list holds all completions of a rule that is being typed, in order. -/
structure Vocabulary.Lists (voc : Vocabulary) (r : Rule) (l : List Completion) : Prop where
  directives : Shows l .directive ((voc.utilities.filter r.LeadsTo).map (directiveEntry r))
  /-- A group stands there once. It goes on with the typed name up to a `-` of some utility. -/
  groups : ∃ keys : List Text, keys.Nodup ∧
    (l.filter fun c => c.kind = .directiveGroup) = keys.map (groupEntry r) ∧
    ∀ g, g ∈ keys ↔ (∃ x, g = r.bareName ++ x ∧ '-' ∉ x) ∧
      (∃ u ∈ voc.utilities, g ++ ['-'] <+: u.value) ∧ FitsIn r.bareOuter g
  self : Shows l .selfReference (if r.LeadsToOuter then [selfEntry r] else [])
  variants : Shows l .variant ((voc.variants.filter r.LeadsToVariant).map (variantEntry r))
  screens : Shows l .screen
    ((voc.screens.filter fun s => r.LeadsToScreen s.1).map (screenEntry r))
  sorted : l.Pairwise fun a b => bytes a.sortText ≤ bytes b.sortText
  ranked : l.Pairwise fun a b => a.kind.rank ≤ b.kind.rank
  /-- Completions of two kinds do not share a sort text. -/
  marked : ∀ c ∈ l, c.sortText.head? = some c.kind.mark

/-- At every offset the list is complete, holds no group twice, and is sorted by the bytes
of the sort texts: groups, directives, the outer name, variants, screens. -/
theorem completions_are_complete_and_ranked (voc : Vocabulary) (t : Text) (n : Nat) :
    voc.Lists (t.ruleTyped n) (voc.completions t n) where
  directives := by
    rw [← Vocabulary.directiveCompletions_eq (t.ruleTyped_names n)]
    exact voc.shows_completions t n .directive
  groups := voc.groups_completions t n (t.ruleTyped_names n)
  self := by
    rw [← Vocabulary.selfCompletions_eq]
    exact voc.shows_completions t n .selfReference
  variants := by
    rw [← Vocabulary.variantCompletions_eq]
    exact voc.shows_completions t n .variant
  screens := by
    rw [← Vocabulary.screenCompletions_eq]
    exact voc.shows_completions t n .screen
  sorted := voc.sorted_completions t n
  ranked := voc.ranked_completions t n
  marked := voc.marked_completions t n

end ClassList
