-- The laws of moved text. A scan that goes on from a resting place reads a
-- text as a new scan reads it: it finds the same items with their numbers and
-- offsets moved up, and its own scopes stand where the new scan has the root.
import Mathlib
import ClassList.Proofs.Parentheses
import ClassList.Proofs.Continuation

namespace ClassList

open Text

/-! ## Moving to the right -/

/-- The range `n` bytes further right. -/
def Span.shift (n : Nat) (s : Span) : Span := ⟨s.start + n, s.stop + n⟩

/-- The item with `ids` more items and `n` more bytes in front of it. -/
def Item.shift (ids n : Nat) (i : Item) : Item := ⟨i.id + ids, i.kind, i.start + n⟩

def PlacedVariant.shift (n : Nat) (v : PlacedVariant) : PlacedVariant :=
  { v with loc := v.loc.shift n }

/-- The rule `n` bytes further right. Nothing but its places changes. -/
def Rule.shift (n : Nat) (r : Rule) : Rule :=
  { r with
    variants := r.variants.map (PlacedVariant.shift n)
    loc := r.loc.shift n
    spans := r.spans.map (Span.shift n) }

namespace Item

variable (ids n : Nat) (i : Item)

@[simp] theorem shift_isGroup : (i.shift ids n).isGroup = i.isGroup := rfl
@[simp] theorem shift_identifier? : (i.shift ids n).identifier? = i.identifier? := rfl
@[simp] theorem shift_raw : (i.shift ids n).raw = i.raw := rfl

@[simp] theorem shift_span : (i.shift ids n).span = i.span.shift n := by
  simp [Item.span, Span.ofText, Span.shift, Item.shift, Item.raw, Nat.add_right_comm]

@[simp] theorem shift_variantOf? :
    Rule.variantOf? (i.shift ids n) = (Rule.variantOf? i).map (PlacedVariant.shift n) := by
  have hkind : (i.shift ids n).kind = i.kind := rfl
  unfold Rule.variantOf?
  rw [hkind, shift_span]
  split <;> rfl

end Item

namespace Rule

/-- Places that touch still touch when all of them are moved. -/
theorem addSpan_shift (n : Nat) (spans : List Span) (s : Span) :
    addSpan (spans.map (Span.shift n)) (s.shift n) = (addSpan spans s).map (Span.shift n) := by
  cases spans with
  | nil => rfl
  | cons f rest =>
    by_cases h : f.start = s.stop
    · simp [addSpan, Span.shift, h]
    · simp [addSpan, Span.shift, h]

theorem foldl_addSpan_shift (n : Nat) (places spans : List Span) :
    (places.map (Span.shift n)).foldl addSpan (spans.map (Span.shift n)) =
      (places.foldl addSpan spans).map (Span.shift n) := by
  induction places generalizing spans with
  | nil => rfl
  | cons s places ih => rw [List.map_cons, List.foldl_cons, addSpan_shift, ih, List.foldl_cons]

/-- The rule of moved items is the moved rule. -/
theorem ofChain_shift (ids n : Nat) (last : Item) (scopes : List Item) :
    ofChain (last.shift ids n) (scopes.map (Item.shift ids n)) = (ofChain last scopes).shift n := by
  have hspans := foldl_addSpan_shift n (((last :: scopes).filter (!·.isGroup)).map Item.span) []
  unfold ofChain shift
  rw [← List.map_cons]
  simp only [List.filterMap_map, List.filter_map, List.map_map, List.map_reverse,
    List.map_filterMap, Function.comp_def, Item.shift_isGroup, Item.shift_identifier?,
    Item.shift_span, Item.shift_variantOf?, Item.shift_raw] at hspans ⊢
  rw [← hspans]
  rfl

/-! ## Further scopes -/

/-- The rule inside further scopes, which are given innermost first. -/
def within (scopes : List Item) (r : Rule) : Rule where
  raw := r.raw
  names := ((scopes.filterMap Item.identifier?).map Identifier.name).reverse ++ r.names
  negated := r.negated || (scopes.filterMap Item.identifier?).any Identifier.negated
  important := r.important || (scopes.filterMap Item.identifier?).any Identifier.important
  variants := (scopes.filterMap variantOf?).reverse ++ r.variants
  loc := r.loc
  spans := ((scopes.filter (!·.isGroup)).map Item.span).foldl addSpan r.spans

theorem ofChain_append (last : Item) (inner outer : List Item) :
    ofChain last (inner ++ outer) = (ofChain last inner).within outer := by
  unfold ofChain within
  simp only [← List.cons_append, List.filterMap_append, List.filter_append, List.map_append,
    List.reverse_append, List.any_append, List.foldl_append]

/-- A group adds nothing to a rule. -/
theorem within_group (r : Rule) {g : Item} (hg : g.isGroup = true) : r.within [g] = r := by
  obtain ⟨id, kind, start⟩ := g
  cases kind with
  | group => simp [within, Item.identifier?, variantOf?, Item.isGroup, List.filterMap_cons]
  | variant v => cases hg
  | identifier w => cases hg

end Rule

/-! ## A scan that goes on -/

namespace Scan

/-- The scopes that a new scan has in some place, when the text is read from
`base` on: the scopes of `base` take the place of the root. -/
def liftScopes (base : Scan) (scopes : List Item) : List Item :=
  scopes.dropLast.map (Item.shift base.placed.length base.start) ++ base.scopes

def liftPlaced (base : Scan) (p : Placed) : Placed :=
  ⟨p.item.shift base.placed.length base.start, base.liftScopes p.scopes⟩

/-- What becomes of `base` while it reads the text that `s` has read. -/
def graft (base s : Scan) : Scan where
  word := s.word
  start := s.start + base.start
  mode := s.mode
  scopes := base.liftScopes s.scopes
  placed := s.placed.map base.liftPlaced ++ base.placed
  closed := s.closed.map (fun c => (c.1 + base.placed.length, c.2 + base.start)) ++ base.closed

/-- No word is being read, and no name is due. -/
structure Idle (s : Scan) : Prop where
  word_nil : s.word = []
  mode_plain : s.mode = .plain
  nameless : s.awaitsName = false

/-- Besides, the scan stands right inside a group. -/
structure Ready (s : Scan) : Prop extends s.Idle where
  inside : ∃ g rest, s.scopes = g :: rest ∧ g.isGroup = true

variable {base s : Scan}

@[simp] theorem graft_word : (base.graft s).word = s.word := rfl
@[simp] theorem graft_start : (base.graft s).start = s.start + base.start := rfl
@[simp] theorem graft_mode : (base.graft s).mode = s.mode := rfl
@[simp] theorem graft_scopes : (base.graft s).scopes = base.liftScopes s.scopes := rfl

theorem graft_init (h : base.Ready) : base.graft init = base := by
  obtain ⟨word, start, mode, scopes, placed, closed⟩ := base
  obtain rfl : word = [] := h.word_nil
  obtain rfl : mode = .plain := h.mode_plain
  simp [graft, init, liftScopes]

theorem liftScopes_concat (inner : List Item) (i : Item) :
    base.liftScopes (inner ++ [i]) =
      inner.map (Item.shift base.placed.length base.start) ++ base.scopes := by
  rw [liftScopes, List.dropLast_concat]

theorem liftScopes_cons (i : Item) {scopes : List Item} (h : scopes ≠ []) :
    base.liftScopes (i :: scopes) =
      i.shift base.placed.length base.start :: base.liftScopes scopes := by
  rw [liftScopes, List.dropLast_cons_of_ne_nil h, List.map_cons, List.cons_append]
  rfl

/-! ### Items and words -/

theorem graft_offset : (base.graft s).offset = s.offset + base.start := Nat.add_right_comm _ _ _

theorem graft_item (k : Kind) (n : Nat) :
    (base.graft s).item k (n + base.start) = (s.item k n).shift base.placed.length base.start := by
  simp [item, graft, Item.shift, Nat.add_right_comm]

theorem graft_place (k : Kind) (n : Nat) :
    base.graft (s.place k n) = (base.graft s).place k (n + base.start) := by
  unfold place
  rw [graft_item]
  rfl

theorem graft_enter (k : Kind) (n : Nat) (h : s.scopes ≠ []) :
    base.graft (s.enter k n) = (base.graft s).enter k (n + base.start) := by
  unfold enter
  rw [← graft_place, graft_item]
  unfold graft
  dsimp only
  rw [liftScopes_cons _ h]

theorem graft_awaitsName (hb : base.Ready) : (base.graft s).awaitsName = s.awaitsName := by
  have hbase := hb.nameless
  unfold awaitsName at *
  unfold graft
  cases s.placed with
  | nil => exact hbase
  | cons p placed => rfl

theorem graft_endVariant (h : s.scopes ≠ []) :
    base.graft s.endVariant = (base.graft s).endVariant := by
  unfold endVariant
  rw [graft_word, graft_start, graft_offset]
  split
  · rename_i rest hw
    have hone : s.start + base.start + 1 = s.start + 1 + base.start := Nat.add_right_comm _ _ _
    rw [hone, ← graft_enter _ _ h, ← graft_enter _ _ (by simp)]
    rfl
  · rw [← graft_enter _ _ h]
    rfl

theorem graft_endIdentifier (hb : base.Ready) :
    base.graft s.endIdentifier = (base.graft s).endIdentifier := by
  unfold endIdentifier
  rw [graft_word, graft_start, graft_awaitsName hb, ← graft_place]
  split <;> rfl

theorem graft_endOuter (h : s.scopes ≠ []) :
    base.graft s.endOuter = (base.graft s).endOuter := by
  unfold endOuter
  rw [graft_word, graft_start, ← graft_enter _ _ h]
  split <;> rfl

theorem graft_settle (h : s.scopes ≠ []) : base.graft s.settle = (base.graft s).settle := by
  unfold settle
  rw [graft_mode, ← graft_endVariant h]
  split <;> rfl

/-! ### Scopes -/

theorem dropWhile_liftScopes (hb : base.Ready) (inner : List Item) :
    (base.liftScopes (inner ++ [Item.root])).dropWhile (!·.isGroup) =
      base.liftScopes ((inner ++ [Item.root]).dropWhile (!·.isGroup)) := by
  induction inner with
  | nil =>
    obtain ⟨g, rest, hs, hg⟩ := hb.inside
    show base.scopes.dropWhile (!·.isGroup) = base.scopes
    rw [hs, List.dropWhile_cons_of_neg (by simp [hg])]
  | cons i inner ih =>
    rw [List.cons_append, liftScopes_cons i (by simp)]
    by_cases hi : i.isGroup = true
    · rw [List.dropWhile_cons_of_neg (by simp [hi]), List.dropWhile_cons_of_neg (by simp [hi]),
        liftScopes_cons i (by simp)]
    · rw [List.dropWhile_cons_of_pos (by simp [hi]), List.dropWhile_cons_of_pos (by simp [hi]), ih]

theorem graft_leaveWords (hb : base.Ready) (h : s.scopes.getLast? = some .root) :
    base.graft s.leaveWords = (base.graft s).leaveWords := by
  obtain ⟨inner, hs⟩ := List.getLast?_eq_some_iff.mp h
  unfold leaveWords graft
  dsimp only
  rw [hs, dropWhile_liftScopes hb]

theorem leaveGroup_of_le (n : Nat) (h : s.scopes.length ≤ 1) : s.leaveGroup n = s := by
  unfold leaveGroup
  split
  · rename_i hs
    simp [hs] at h
  · rfl

theorem leaveGroup_of_cons (n : Nat) {g : Item} {rest : List Item} (hs : s.scopes = g :: rest)
    (hne : rest ≠ []) :
    s.leaveGroup n = { s with scopes := rest, closed := (g.id, n) :: s.closed } := by
  obtain ⟨outer, rest, rfl⟩ := List.exists_cons_of_ne_nil hne
  simp [leaveGroup, hs]

/-- Both scans close the same group of the text that is read. Where there is none
to close, both leave the root alone, but another group of `base` would go. -/
theorem graft_leaveGroup (hb : base.Ready) (n : Nat) (h : s.scopes.getLast? = some .root)
    (hroom : base.scopes.length ≤ 1 ∨ 2 ≤ s.scopes.length) :
    base.graft (s.leaveGroup n) = (base.graft s).leaveGroup (n + base.start) := by
  obtain ⟨g, outer, hbase, -⟩ := hb.inside
  obtain ⟨inner, hs⟩ := List.getLast?_eq_some_iff.mp h
  cases inner with
  | nil =>
    rw [List.nil_append] at hs
    have hone : base.scopes.length ≤ 1 := hroom.resolve_right (by simp [hs])
    have hgraft : (base.graft s).scopes = base.scopes := by
      rw [graft_scopes, hs]
      rfl
    rw [leaveGroup_of_le _ (by simp [hs]), leaveGroup_of_le _ (by rwa [hgraft])]
  | cons i inner =>
    have hgraft : (base.graft s).scopes = i.shift base.placed.length base.start ::
        base.liftScopes (inner ++ [.root]) := by
      rw [graft_scopes, hs, List.cons_append, liftScopes_cons i (by simp)]
    rw [leaveGroup_of_cons n hs (by simp),
      leaveGroup_of_cons _ hgraft (by simp [liftScopes_concat, hbase])]
    rfl

/-! ### The depth of a scan -/

/-- The number of groups around the word, the root included. -/
def depth (s : Scan) : Nat := s.scopes.countP Item.isGroup

theorem countP_dropWhile (scopes : List Item) :
    (scopes.dropWhile (!·.isGroup)).countP Item.isGroup = scopes.countP Item.isGroup := by
  induction scopes with
  | nil => rfl
  | cons i scopes ih =>
    by_cases hi : i.isGroup = true
    · rw [List.dropWhile_cons_of_neg (by simp [hi])]
    · rw [List.dropWhile_cons_of_pos (by simp [hi]), ih, List.countP_cons_of_neg hi]

theorem depth_leaveWords (s : Scan) : s.leaveWords.depth = s.depth := countP_dropWhile s.scopes

theorem depth_le_length (s : Scan) : s.depth ≤ s.scopes.length := List.countP_le_length

theorem depth_leaveGroup (s : Scan) (n : Nat) (h : 2 ≤ s.depth) :
    (s.leaveWords.leaveGroup n).depth + 1 = s.depth := by
  rw [← s.depth_leaveWords] at h ⊢
  have hlength := s.leaveWords.depth_le_length
  rcases hs : s.leaveWords.scopes with _ | ⟨g, rest⟩
  · rw [hs, List.length_nil] at hlength
    omega
  · have hg : g.isGroup = true := head_dropWhile_isGroup s.scopes g (by
      rw [← leaveWords_scopes, hs]
      rfl)
    have hne : rest ≠ [] := by
      rintro rfl
      rw [hs, List.length_singleton] at hlength
      omega
    rw [leaveGroup_of_cons n hs hne, depth, depth, hs, List.countP_cons_of_pos hg]

theorem depth_endVariant (s : Scan) : s.endVariant.depth = s.depth := by
  unfold endVariant
  split <;> rfl

theorem endIdentifier_scopes (s : Scan) : s.endIdentifier.scopes = s.scopes := by
  unfold endIdentifier
  split <;> rfl

end Scan

theorem Text.behind_zero (a : Text) : behind 0 a = outside false a := by
  have hupTo := upTo_size_append [] a
  have hafter := after_size_append [] a
  rw [size_nil, List.nil_append] at hupTo hafter
  rw [behind, hupTo, hafter]
  rfl

/-- As many groups are around the word as parentheses are open, and the root. -/
theorem Layout.depth_of_open {ended : Bool} {a : Text} {s : Scan} (h : Layout ended a s) :
    ∀ d, openAfter (outside false a) = some d → s.depth = d + 1 := by
  simp only [← behind_zero]
  induction h with
  | start =>
    intro d hd
    obtain rfl : 0 = d := by simpa [behind, outside, upTo, after, openAfter] using hd
    rfl
  | colon hl ih =>
    intro d hd
    rw [open_behind_word (Nat.zero_le _) (hl.not_inRun rfl) (by simp [outside])] at hd
    exact ih d hd
  | enter hl ho ih =>
    intro d hd
    rw [open_behind_word (Nat.zero_le _) (hl.not_inRun rfl) ho.outside] at hd
    rw [← ih d hd]
    exact List.countP_cons_of_neg (by rw [ho.not_isGroup]; decide)
  | name closed hl hs ih =>
    intro d hd
    rw [open_behind_word (Nat.zero_le _) (hl.not_inRun rfl) (fun c hc => Or.inl (hs c hc))] at hd
    exact ih d hd
  | opening hl ih =>
    intro d hd
    rw [open_behind_delimiter (Nat.zero_le _) (hl.not_inRun rfl) (by decide),
      Option.bind_eq_some_iff] at hd
    obtain ⟨e, he, hstep⟩ := hd
    obtain rfl : e + 1 = d := by simpa [openStep] using hstep
    rw [← ih e he]
    exact List.countP_cons_of_pos rfl
  | @closing ended a s hl hr ih =>
    intro d hd
    rw [open_behind_delimiter (Nat.zero_le _) hr (by decide), Option.bind_eq_some_iff] at hd
    obtain ⟨e, he, hstep⟩ := hd
    have hdepth := ih e he
    obtain ⟨hpos, hminus⟩ : e ≠ 0 ∧ e - 1 = d := by simpa [openStep] using hstep
    have hleave := s.depth_leaveGroup (size (a ++ [')'])) (by omega)
    show (s.leaveWords.leaveGroup (size (a ++ [')']))).depth = d + 1
    omega
  | @blank ended a s c hl hr hc ih =>
    intro d hd
    obtain ⟨hopening, hclosing⟩ := blank_ne_paren hc
    rw [open_behind_delimiter (Nat.zero_le _) hr (blanks_subset hc),
      Option.bind_eq_some_iff] at hd
    obtain ⟨e, he, hstep⟩ := hd
    rw [openStep_other hopening hclosing, Option.some.injEq] at hstep
    rw [← hstep, ← ih e he]
    exact s.depth_leaveWords

namespace Scan

variable {base s : Scan} {a : Text}

theorem HasRead.root_scope (h : s.HasRead a) : s.scopes.getLast? = some .root := by
  obtain ⟨before, -, hl⟩ := h.split
  exact hl.root_scope

theorem HasRead.word_outside (h : s.HasRead a) :
    ∀ c ∈ outside false s.word, c ∉ delimiters ∨ c = ':' := by
  have hf := h.fits
  cases hm : s.mode with
  | plain =>
    rw [hm] at hf
    exact fun c hc => Or.inl (hf.1 c hc)
  | bracket =>
    rw [hm] at hf
    exact fun c hc => Or.inl (hf.1 c hc)
  | colon =>
    rw [hm] at hf
    obtain ⟨body, -, hw, hs, hr⟩ := hf
    exact VariantText.outside ⟨body, [':'], hw, hs, hr, Or.inl rfl⟩

/-- A run is open exactly while the scan reads it. -/
theorem HasRead.inRun_iff (h : s.HasRead a) : inRun a = true ↔ s.mode = .bracket := by
  have hf := h.fits
  obtain ⟨before, rfl, hl⟩ := h.split
  rw [inRun_append, hl.not_inRun rfl]
  show inRun s.word = true ↔ _
  cases hm : s.mode with
  | plain =>
    rw [hm] at hf
    simp [hf.2]
  | bracket =>
    rw [hm] at hf
    simp [hf.2]
  | colon =>
    rw [hm] at hf
    obtain ⟨body, -, hw, -, hr⟩ := hf
    simp [hw, inRun_delimiter hr (by decide : ':' ∈ delimiters)]

theorem HasRead.depth_of_open (h : s.HasRead a) {d : Nat}
    (hd : openAfter (outside false a) = some d) : s.depth = d + 1 := by
  have hword := h.word_outside
  obtain ⟨before, rfl, hl⟩ := h.split
  rw [← behind_zero, open_behind_word (Nat.zero_le _) (hl.not_inRun rfl) hword,
    behind_zero] at hd
  exact hl.depth_of_open d hd

/-! ### One character -/

theorem graft_read (hb : base.Ready) (h : s.scopes.getLast? = some .root) (c : Char)
    (hroom : c = ')' → base.scopes.length ≤ 1 ∨ 2 ≤ s.depth) :
    base.graft (s.read c) = (base.graft s).read c := by
  have hne := ne_nil_of_root h
  have hnext : (base.graft s).offset + c.utf8Size = s.offset + c.utf8Size + base.start := by
    rw [graft_offset, Nat.add_right_comm]
  unfold read
  simp only [hnext, graft_word]
  split
  · split <;> rfl
  · have houter : s.endOuter.scopes ≠ [] := by
      unfold endOuter
      split
      · exact hne
      · simp
    rw [graft_offset, ← graft_endOuter hne, ← graft_enter _ _ houter]
    rfl
  · rename_i hc
    have hscopes : s.endIdentifier.scopes.getLast? = some .root := by rwa [endIdentifier_scopes]
    have hroom : base.scopes.length ≤ 1 ∨ 2 ≤ s.endIdentifier.leaveWords.scopes.length := by
      refine (hroom (Delimiter.ofChar?_eq_closing.mp hc)).imp_right ?_
      intro hdepth
      have hle := s.endIdentifier.leaveWords.depth_le_length
      rw [depth_leaveWords, depth, endIdentifier_scopes] at hle
      exact Nat.le_trans hdepth hle
    rw [← graft_endIdentifier hb, ← graft_leaveWords hb hscopes,
      ← graft_leaveGroup hb _ (leaveWords_root hscopes) hroom]
    rfl
  · have hscopes : s.endIdentifier.scopes.getLast? = some .root := by rwa [endIdentifier_scopes]
    rw [← graft_endIdentifier hb, ← graft_leaveWords hb hscopes]
    rfl
  · rfl

/-- Both scans take the same step, unless it closes the group that `base`
stands in. -/
theorem graft_step (hb : base.Ready) (h : s.HasRead a) (c : Char)
    (hroom : c = ')' → s.mode ≠ .bracket → base.scopes.length ≤ 1 ∨ 2 ≤ s.depth) :
    base.graft (s.step c) = (base.graft s).step c := by
  have hroot := h.root_scope
  have hne := ne_nil_of_root hroot
  unfold step
  rw [graft_mode]
  split
  · rename_i hm
    exact graft_read hb hroot c fun hc => hroom hc (by rw [hm]; decide)
  · rfl
  · rename_i hm
    split
    · exact graft_endVariant (s := s.push c) hne
    · have hsettle := (hasRead_settle h).root_scope
      rw [settle_of_colon hm] at hsettle
      rw [← graft_endVariant hne]
      refine graft_read hb hsettle c ?_
      rw [depth_endVariant]
      exact fun hc => hroom hc (by rw [hm]; decide)

/-- A text that closes no group of `base` is read from `base` on as it is read
from the beginning. -/
theorem foldl_eq_graft (hb : base.Ready) {t : Text}
    (ht : base.scopes.length ≤ 1 ∨ openAfter (outside false t) ≠ none) :
    t.foldl step base = base.graft (run t) := by
  induction t using List.reverseRecOn with
  | nil => exact (graft_init hb).symm
  | append_singleton t c ih =>
    have hread := hasRead_run t
    rw [outside_append, openAfter_append] at ht
    have hfront : base.scopes.length ≤ 1 ∨ openAfter (outside false t) ≠ none := by
      refine ht.imp_right ?_
      intro hopen hnone
      rw [hnone] at hopen
      exact hopen rfl
    rw [List.foldl_append, ih hfront, run_append]
    refine (graft_step hb hread c ?_).symm
    rintro rfl hm
    refine ht.imp_right ?_
    intro hopen
    -- The parenthesis closes one that is open in the text, so two groups are around it.
    obtain ⟨e, he⟩ := Option.ne_none_iff_exists'.mp hopen
    obtain ⟨d, hd, hstep⟩ := Option.bind_eq_some_iff.mp he
    have hrun : runAfter false t = false := by
      rw [← Bool.not_eq_true]
      exact fun hrun => hm (hread.inRun_iff.mp hrun)
    rw [hrun, outside_delimiter (by decide)] at hstep
    have hpos : d ≠ 0 := by
      rintro rfl
      cases hstep
    have hdepth := hread.depth_of_open hd
    omega

/-! ### The rules -/

/-- The rule of a lifted item. -/
theorem ofChain_liftPlaced {p : Placed} (h : p.scopes.getLast? = some .root) :
    Rule.ofChain (base.liftPlaced p).item (base.liftPlaced p).scopes =
      ((Rule.ofChain p.item p.scopes).shift base.start).within base.scopes := by
  obtain ⟨inner, hs⟩ := List.getLast?_eq_some_iff.mp h
  unfold liftPlaced
  dsimp only
  rw [hs, liftScopes_concat, Rule.ofChain_append, Rule.ofChain_shift, Rule.ofChain_append,
    Rule.within_group _ rfl]

theorem finished_graft (h : ∀ p ∈ s.placed, p.scopes.getLast? = some .root) :
    (base.graft s).finished = base.finished ++
      s.finished.map fun r => (r.shift base.start).within base.scopes := by
  have hclosed : Placed.isClosed ∘ base.liftPlaced = Placed.isClosed := rfl
  unfold finished graft
  dsimp only
  rw [List.reverse_append, List.filter_append, List.map_append, ← List.map_reverse,
    List.filter_map, hclosed, List.map_map, List.map_map]
  congr 1
  apply List.map_congr_left
  intro p hp
  exact ofChain_liftPlaced (h p (List.mem_reverse.mp (List.mem_filter.mp hp).1))

end Scan

theorem Layout.placed_root {ended : Bool} {a : Text} {s : Scan} (h : Layout ended a s) :
    ∀ p ∈ s.placed, p.scopes.getLast? = some .root := by
  intro p hp
  obtain ⟨before, raw, rest, s₀, k, hl, -, -, rfl, -, -⟩ := h.origin p hp
  exact hl.root_scope

/-- An idle scan has finished all rules of its text. -/
theorem Text.rules_of_idle {a : Text} (h : (Scan.run a).Idle) :
    a.rules = (Scan.run a).finished := by
  have hsettle : (Scan.run a).settle = Scan.run a :=
    Scan.settle_of_mode (by rw [h.mode_plain]; decide)
  rw [rules_eq, hsettle]
  unfold Scan.endIdentifier
  rw [if_pos (by simp [h.word_nil, h.nameless])]

/-- The rules of a text behind a resting place: those in front of it, and the
rules of the text itself, moved and inside further scopes. -/
theorem Text.rules_behind {a b : Text} (ha : (Scan.run a).Ready)
    (hb : (Scan.run a).scopes.length ≤ 1 ∨ openAfter (outside false b) ≠ none) :
    Text.rules (a ++ b) =
      a.rules ++ b.rules.map fun r => (r.shift (size a)).within (Scan.run a).scopes := by
  have hread := Scan.hasRead_run b
  have hstart : (Scan.run a).start = size a := by
    have hoffset := (Scan.hasRead_run a).offset_eq
    rwa [Scan.offset, ha.word_nil] at hoffset
  have hend : (Scan.run (a ++ b)).settle.endIdentifier =
      (Scan.run a).graft (Scan.run b).settle.endIdentifier := by
    rw [Scan.run_append, Scan.foldl_eq_graft ha hb, Scan.graft_endIdentifier ha,
      Scan.graft_settle (ne_nil_of_root hread.root_scope)]
  obtain ⟨ended, hl⟩ := Scan.layout_endIdentifier (Scan.hasRead_settle hread) (Scan.settle_mode _)
  have hroots : ∀ p ∈ (Scan.run b).settle.endIdentifier.placed,
      p.scopes.getLast? = some .root := hl.placed_root
  rw [rules_eq (a ++ b), hend, Scan.finished_graft hroots, rules_of_idle ha.toIdle,
    rules_eq b, hstart]

end ClassList
