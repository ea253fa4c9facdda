-- The laws of the words of a text. Words stand where their ranges say, one
-- behind the other, and between them there is nothing but delimiters: a
-- reading loses no character and takes none twice.
import Mathlib
import ClassList.Proofs.Layout

namespace ClassList

open Text

/-! ## The words of a tree -/

/-- The nodes that are no groups, in source order. -/
def Tree.words (t : Tree) : List Node := t.nodes.filter fun n => !n.item.isGroup

/-- The node of a word. -/
def Placed.wordNode (p : Placed) : Node := { p with stop := p.item.span.stop }

theorem Placed.wordNode_span (p : Placed) : p.wordNode.span = p.item.span := rfl

theorem Scan.stopOf_word {s : Scan} {size : Nat} {i : Item} (h : i.isGroup = false) :
    s.stopOf size i = i.span.stop := by
  unfold stopOf
  split
  · rename_i hk
    simp [Item.isGroup, hk] at h
  · rfl

/-- The words of a tree are the words that the scan placed. -/
theorem Scan.words_tree (s : Scan) (size : Nat) :
    (s.tree size).words =
      ((s.placed.filter fun p => !p.item.isGroup).map Placed.wordNode).reverse := by
  have hroot : (s.tree size).root.item.isGroup = true := rfl
  have hfun : ∀ p ∈ s.placed.filter (fun p => !p.item.isGroup),
      ({ p with stop := s.stopOf size p.item } : Node) = p.wordNode := by
    intro p hp
    have hg : p.item.isGroup = false := by simpa using (List.mem_filter.mp hp).2
    simp only [Placed.wordNode, stopOf_word hg]
  unfold Tree.words Tree.nodes
  rw [List.filter_cons_of_neg (by simp [hroot]), ← List.map_reverse, ← List.filter_reverse]
  unfold tree
  rw [List.filter_map]
  apply List.map_congr_left
  intro p hp
  apply hfun p
  simpa using hp

theorem Scan.mem_words {s : Scan} {size : Nat} {n : Node} :
    n ∈ (s.tree size).words ↔
      ∃ p ∈ s.placed, p.item.isGroup = false ∧ p.wordNode = n := by
  rw [words_tree, List.mem_reverse, List.mem_map]
  constructor
  · rintro ⟨p, hp, rfl⟩
    obtain ⟨hp, hg⟩ := List.mem_filter.mp hp
    exact ⟨p, hp, by simpa using hg, rfl⟩
  · rintro ⟨p, hp, hg, rfl⟩
    exact ⟨p, List.mem_filter.mpr ⟨hp, by simp [hg]⟩, rfl⟩

/-! ## A word stands in its text -/

/-- The text of a word has the shape of its kind. -/
def Item.Shaped (i : Item) : Prop :=
  match i.kind with
  | .group => True
  | .variant v => VariantText v.raw
  | .identifier w => Solid w.raw

/-- The word stands in the text at its start, outside all runs of brackets. -/
structure Item.StandsIn (i : Item) (t : Text) : Prop where
  split : ∃ b c, t = b ++ i.raw ++ c ∧ size b = i.start ∧ inRun b = false
  shaped : i.Shaped

namespace Item

variable {i : Item} {t : Text}

theorem StandsIn.append (h : i.StandsIn t) (x : Text) : i.StandsIn (t ++ x) := by
  obtain ⟨b, c, rfl, hb, hr⟩ := h.split
  exact ⟨⟨b, c ++ x, by simp, hb, hr⟩, h.shaped⟩

theorem StandsIn.stop_le (h : i.StandsIn t) : i.span.stop ≤ size t := by
  obtain ⟨b, c, rfl, hb, -⟩ := h.split
  simp only [span, Span.ofText, size_append]
  omega

theorem StandsIn.slice_eq (h : i.StandsIn t) : slice i.span t = i.raw := by
  obtain ⟨b, c, rfl, hb, -⟩ := h.split
  rw [span, Span.ofText, ← hb]
  exact slice_append b i.raw c

theorem StandsIn.isBoundary_start (h : i.StandsIn t) : isBoundary i.span.start t = true := by
  obtain ⟨b, c, rfl, hb, -⟩ := h.split
  exact isBoundary_iff.mpr ⟨b, i.raw ++ c, by simp, hb⟩

theorem StandsIn.isBoundary_stop (h : i.StandsIn t) : isBoundary i.span.stop t = true := by
  obtain ⟨b, c, rfl, hb, -⟩ := h.split
  exact isBoundary_iff.mpr ⟨b ++ i.raw, c, rfl, by rw [size_append, hb]; rfl⟩

/-- A character in the range of a word is a character of its text. -/
theorem StandsIn.charAt {a : Text} {c : Char} (h : i.StandsIn t) (ha : a ++ [c] <+: t)
    (hc : i.span.contains (size a) = true) :
    ∃ x y, i.raw = x ++ c :: y ∧ size a = i.start + size x ∧ structural a c = structural x c := by
  obtain ⟨b, r, rfl, hb, hr⟩ := h.split
  simp only [Span.contains, span, Span.ofText, Bool.and_eq_true, decide_eq_true_eq, ← hb] at hc
  obtain ⟨z, hz⟩ := ha
  have hbt : b <+: b ++ i.raw ++ r := ⟨i.raw ++ r, by simp⟩
  have hat : a <+: b ++ i.raw ++ r := ⟨c :: z, by rw [← hz]; simp⟩
  have hab : b <+: a := by
    rcases List.prefix_or_prefix_of_prefix hbt hat with h | ⟨y, rfl⟩
    · exact h
    · have hy : y = [] := size_eq_zero (by rw [size_append] at hc; omega)
      simp [hy]
  obtain ⟨x, rfl⟩ := hab
  have hx : i.raw ++ r = x ++ c :: z := by simpa using hz.symm
  rcases List.append_eq_append_iff.mp hx with ⟨y, hxy, -⟩ | ⟨y, hxy, hy⟩
  · exfalso
    rw [hxy, size_append, size_append] at hc
    omega
  · cases y with
    | nil =>
      exfalso
      rw [hxy, List.append_nil, size_append] at hc
      omega
    | cons d y =>
      obtain ⟨rfl, -⟩ : c = d ∧ z = y ++ r := by simpa using hy
      refine ⟨x, y, hxy, by rw [size_append, hb], ?_⟩
      simp only [structural, inRun_append, hr]
      rfl

end Item

/-! ## No delimiter in a name, only colons in a variant -/

theorem structural_mem_outside {x y : Text} {c : Char} (h : structural x c = true) :
    c ∈ outside false (x ++ c :: y) := by
  refine mem_outside.mpr ⟨x, y, rfl, ?_⟩
  simpa [structural, inRun] using h

/-- Only the last one or two characters of a variant are delimiters, and they
are colons. -/
def Text.EndsInColons (t : Text) (s : Span) (raw : Text) : Prop :=
  ∃ body colons, raw = body ++ colons ∧ (colons = [':'] ∨ colons = [':', ':']) ∧
    ∀ a c, a ++ [c] <+: t → s.contains (size a) = true →
      ((structural a c = true ∧ c ∈ delimiters) ↔ s.stop ≤ size a + size colons)

theorem Item.StandsIn.no_delimiter {i : Item} {t a : Text} {c : Char} {w : Identifier}
    (h : i.StandsIn t) (hk : i.kind = .identifier w) (ha : a ++ [c] <+: t)
    (hc : i.span.contains (size a) = true) (hs : structural a c = true) : c ∉ delimiters := by
  obtain ⟨x, y, hxy, -, hsx⟩ := h.charAt ha hc
  have hsolid : Solid i.raw := by
    have := h.shaped
    simpa [Item.Shaped, Item.raw, hk] using this
  apply hsolid
  rw [hxy]
  exact structural_mem_outside (hsx ▸ hs)

theorem Item.StandsIn.endsInColons {i : Item} {t : Text} {v : Variant} (h : i.StandsIn t)
    (hk : i.kind = .variant v) : EndsInColons t i.span i.raw := by
  have hv : VariantText i.raw := by
    have := h.shaped
    simpa [Item.Shaped, Item.raw, hk] using this
  obtain ⟨body, colons, hraw, hsolid, hrun, hcolons⟩ := hv
  refine ⟨body, colons, hraw, hcolons, ?_⟩
  intro a c ha hc
  obtain ⟨x, y, hxy, hsize, hsx⟩ := h.charAt ha hc
  have hstop : i.span.stop = i.start + size body + size colons := by
    simp only [Item.span, Span.ofText, hraw, size_append]
    omega
  rw [hraw] at hxy
  rw [hsx, hstop, hsize]
  -- The character stands in the body or among the colons.
  rcases List.append_eq_append_iff.mp hxy.symm with ⟨z, hbody, hz⟩ | ⟨z, hx, hcol⟩
  · cases z with
    | nil =>
      obtain rfl : body = x := by simpa using hbody
      have hc : c = ':' := by
        rcases hcolons with rfl | rfl <;> simp at hz <;> exact hz.1
      subst hc
      simp [structural, hrun, delimiters]
    | cons d z =>
      obtain ⟨rfl, -⟩ : c = d ∧ y = z ++ colons := by simpa using hz
      have hlt : size x < size body := by
        have := c.utf8Size_pos
        rw [hbody, size_append, size_cons]
        omega
      constructor
      · rintro ⟨hs, hd⟩
        have hmem : c ∈ outside false body := by
          rw [hbody]
          exact structural_mem_outside hs
        exact absurd hd (hsolid c hmem)
      · intro hle
        omega
  · have hc : c = ':' ∧ inRun x = false := by
      rw [hx, inRun_append, hrun]
      rcases hcolons with rfl | rfl
      · rcases z with _ | ⟨d, z⟩ <;> simp at hcol
        exact ⟨hcol.1.symm, rfl⟩
      · rcases z with _ | ⟨d, _ | ⟨f, z⟩⟩ <;> simp at hcol
        · exact ⟨hcol.1.symm, rfl⟩
        · obtain ⟨rfl, rfl, -⟩ := hcol
          exact ⟨rfl, rfl⟩
    obtain ⟨rfl, hrx⟩ := hc
    subst hx
    simp [structural, hrx, delimiters, size_append]

/-! ## One behind the other -/

/-- Every word stands in the text that was laid out. -/
theorem Layout.standsIn {ended : Bool} {a : Text} {s : Scan} (h : Layout ended a s) {p : Placed}
    (hp : p ∈ s.placed) (hg : p.item.isGroup = false) : p.item.StandsIn a := by
  obtain ⟨before, raw, rest, s₀, k, hl, hk, rfl, rfl, -, -⟩ := h.origin p hp
  have hsplit : (s₀.item k (size before)).raw = raw ∧ (s₀.item k (size before)).Shaped := by
    cases hk with
    | opens ho =>
      refine ⟨ho.item_raw s₀ _, ?_⟩
      cases ho with
      | variant hv _ => exact hv
      | outer _ hs _ => exact hs
    | name _ hs => exact ⟨rfl, hs⟩
    | group => cases hg
  exact ⟨⟨before, rest, by rw [hsplit.1], rfl, hl.not_inRun rfl⟩, hsplit.2⟩

/-- The words stand one behind the other, here the latest first. -/
theorem Layout.ordered {ended : Bool} {a : Text} {s : Scan} (h : Layout ended a s) :
    (s.placed.filter fun p => !p.item.isGroup).Pairwise
      fun p q => q.item.span.stop ≤ p.item.start := by
  -- A new word starts at the end of the text, and every other word stops before.
  have hnew : ∀ {a : Text} {s : Scan} (i : Item) (scopes : List Item), Layout false a s →
      i.start = size a →
      (s.placed.filter fun p => !p.item.isGroup).Pairwise
        (fun p q => q.item.span.stop ≤ p.item.start) →
      ((⟨i, scopes⟩ :: s.placed).filter fun p => !p.item.isGroup).Pairwise
        fun p q => q.item.span.stop ≤ p.item.start := by
    intro a s i scopes hl hi ih
    rw [List.filter_cons]
    split
    · refine List.Pairwise.cons ?_ ih
      intro q hq
      obtain ⟨hq, hg⟩ := List.mem_filter.mp hq
      have hle := (hl.standsIn hq (by simpa using hg)).stop_le
      show q.item.span.stop ≤ i.start
      omega
    · exact ih
  induction h with
  | start => simp [Scan.init]
  | colon _ ih => exact ih
  | enter hl _ ih => exact hnew _ _ hl rfl ih
  | name _ hl _ ih => exact hnew _ _ hl rfl ih
  | opening hl ih => exact hnew _ _ hl rfl ih
  | closing _ _ ih => simpa using ih
  | blank _ _ _ ih => exact ih

/-! ## Nothing in between but delimiters -/

/-- A character of a longer text stands in its first part or behind it. -/
theorem snoc_prefix_append {a b x : Text} {c : Char} (h : x ++ [c] <+: a ++ b) :
    x ++ [c] <+: a ∨ ∃ y z, b = y ++ c :: z ∧ x = a ++ y := by
  obtain ⟨z, hz⟩ := h
  rcases List.append_eq_append_iff.mp hz with ⟨y, ha, -⟩ | ⟨y, hx, hb⟩
  · exact Or.inl ⟨y, ha.symm⟩
  · rcases List.eq_nil_or_concat y with rfl | ⟨y, d, rfl⟩
    · exact Or.inl ⟨[], by simpa using hx⟩
    · right
      have hcat : x ++ [c] = (a ++ y) ++ [d] := by simpa using hx
      obtain ⟨rfl, hd⟩ := List.append_inj' hcat rfl
      obtain rfl : c = d := by simpa using hd
      exact ⟨y, z, by simpa using hb, rfl⟩

/-- Each character of the text belongs to a word, or is a delimiter outside
all runs of brackets. -/
def Covers (placed : List Placed) (a : Text) : Prop :=
  ∀ x c, x ++ [c] <+: a →
    (∃ p ∈ placed, p.item.isGroup = false ∧ p.item.span.contains (size x) = true) ∨
      (structural x c = true ∧ c ∈ delimiters)

theorem covers_delimiter {placed more : List Placed} {a : Text} {d : Char} (h : Covers placed a)
    (hr : inRun a = false) (hd : d ∈ delimiters) (hsub : placed ⊆ more) :
    Covers more (a ++ [d]) := by
  intro x c hx
  rcases snoc_prefix_append hx with hx | ⟨y, z, hyz, rfl⟩
  · rcases h x c hx with ⟨p, hp, hg, hc⟩ | h
    · exact Or.inl ⟨p, hsub hp, hg, hc⟩
    · exact Or.inr h
  · right
    obtain ⟨rfl, rfl, rfl⟩ : y = [] ∧ d = c ∧ z = [] := by
      cases y <;> simp_all
    have hne : d ≠ '[' := by
      rintro rfl
      revert hd
      decide
    simp [structural, hr, hne, hd]

theorem covers_word {placed : List Placed} {a : Text} (p : Placed) (h : Covers placed a)
    (hp : p.item.isGroup = false) (hs : p.item.start = size a) :
    Covers (p :: placed) (a ++ p.item.raw) := by
  intro x c hx
  rcases snoc_prefix_append hx with hx | ⟨y, z, hyz, rfl⟩
  · rcases h x c hx with ⟨q, hq, hg, hc⟩ | h
    · exact Or.inl ⟨q, List.mem_cons_of_mem _ hq, hg, hc⟩
    · exact Or.inr h
  · refine Or.inl ⟨p, List.mem_cons_self, hp, ?_⟩
    have := c.utf8Size_pos
    simp only [Span.contains, Item.span, Span.ofText, hs, hyz, size_append, size_cons,
      Bool.and_eq_true, decide_eq_true_eq]
    omega

theorem Layout.covers {ended : Bool} {a : Text} {s : Scan} (h : Layout ended a s) :
    Covers s.placed a := by
  induction h with
  | start =>
    intro x c hx
    simp at hx
  | colon hl ih => exact covers_delimiter ih (hl.not_inRun rfl) (by decide) (fun _ h => h)
  | @enter a raw s k hl ho ih =>
    have := covers_word ⟨s.item k (size a), s.scopes⟩ ih (ho.not_isGroup s _) rfl
    rwa [ho.item_raw] at this
  | @name a w s closed hl hs ih =>
    exact covers_word ⟨s.item (.identifier ⟨w, closed⟩) (size a), s.scopes⟩ ih rfl rfl
  | opening hl ih =>
    exact covers_delimiter ih (hl.not_inRun rfl) (by decide) (List.subset_cons_self _ _)
  | closing _ hr ih => exact covers_delimiter ih hr (by decide) (by simp)
  | blank _ hr hc ih => exact covers_delimiter ih hr (blanks_subset hc) (fun _ h => h)

/-! ## The reading of a text -/

/-- The part of a text that is read: all of it, or the part up to an offset. -/
def Text.readTo (stop : Option Nat) (t : Text) : Text :=
  match stop with
  | none => t
  | some n => t.upTo n

/-- The tree of the part of a text that is read. -/
def Tree.ofTextTo (stop : Option Nat) (t : Text) : Tree :=
  match stop with
  | none => ofText t
  | some n => ofTextUpTo n t

theorem Tree.layout_ofTextTo (stop : Option Nat) (t : Text) :
    ∃ ended s, Layout ended (t.readTo stop) s ∧ ofTextTo stop t = s.tree (size t) := by
  cases stop with
  | none => exact layout_ofText t
  | some n => exact ⟨true, layout_ofTextUpTo n t⟩

theorem Text.readTo_prefix (stop : Option Nat) (t : Text) : t.readTo stop <+: t := by
  cases stop with
  | none => exact List.prefix_refl t
  | some n => exact ⟨after n t, upTo_append_after n t⟩

/-- A reading ends at the last boundary that is not behind its stop. -/
theorem Text.size_readTo_max (stop : Option Nat) (t : Text) :
    (∀ n ∈ stop, size (t.readTo stop) ≤ n) ∧
      ∀ m, isBoundary m t = true → (∀ n ∈ stop, m ≤ n) → m ≤ size (t.readTo stop) := by
  cases stop with
  | none =>
    refine ⟨by simp, ?_⟩
    intro m hm _
    obtain ⟨a, b, rfl, rfl⟩ := isBoundary_iff.mp hm
    simp [readTo, size_append]
  | some n =>
    refine ⟨by simpa [readTo] using size_upTo_le n t, ?_⟩
    intro m hm hn
    have hmn : m ≤ n := hn n rfl
    obtain ⟨a, b, rfl, rfl⟩ := isBoundary_iff.mp hm
    have hpre : a <+: upTo n (a ++ b) := by
      rw [upTo_append_of_ge a b hmn]
      exact List.prefix_append _ _
    obtain ⟨y, hy⟩ := hpre
    simp [readTo, ← hy, size_append]

/-- The words of a text tile the part of it that was read. -/
structure Tiles (t read : Text) (words : List Node) : Prop where
  in_read : ∀ w ∈ words, w.span.start ≤ w.span.stop ∧ w.span.stop ≤ size read
  boundaries : ∀ w ∈ words,
    isBoundary w.span.start t = true ∧ isBoundary w.span.stop t = true
  slices : ∀ w ∈ words, slice w.span t = w.item.raw
  ordered : words.Pairwise fun v w => v.span.stop ≤ w.span.start
  /-- What belongs to no word is a delimiter. -/
  gaps : ∀ a c, a ++ [c] <+: read → (∀ w ∈ words, w.span.contains (size a) = false) →
    structural a c = true ∧ c ∈ delimiters
  names : ∀ w ∈ words, ∀ i, w.item.kind = .identifier i → ∀ a c, a ++ [c] <+: read →
    w.span.contains (size a) = true → structural a c = true → c ∉ delimiters
  variants : ∀ w ∈ words, ∀ v, w.item.kind = .variant v → EndsInColons read w.span w.item.raw

theorem Layout.tiles {ended : Bool} {t read : Text} {s : Scan} (h : Layout ended read s)
    (hp : read <+: t) : Tiles t read (s.tree (size t)).words := by
  obtain ⟨rest, rfl⟩ := hp
  constructor
  case in_read =>
    intro w hw
    obtain ⟨p, hp, hg, rfl⟩ := Scan.mem_words.mp hw
    exact ⟨Nat.le_add_right _ _, (h.standsIn hp hg).stop_le⟩
  case boundaries =>
    intro w hw
    obtain ⟨p, hp, hg, rfl⟩ := Scan.mem_words.mp hw
    have hin := (h.standsIn hp hg).append rest
    exact ⟨hin.isBoundary_start, hin.isBoundary_stop⟩
  case slices =>
    intro w hw
    obtain ⟨p, hp, hg, rfl⟩ := Scan.mem_words.mp hw
    exact ((h.standsIn hp hg).append rest).slice_eq
  case ordered =>
    rw [Scan.words_tree, List.pairwise_reverse, List.pairwise_map]
    exact h.ordered
  case gaps =>
    intro a c ha hnone
    rcases h.covers a c ha with ⟨p, hp, hg, hc⟩ | hd
    · have hw : p.wordNode ∈ (s.tree (size (read ++ rest))).words :=
        Scan.mem_words.mpr ⟨p, hp, hg, rfl⟩
      have := hnone _ hw
      rw [p.wordNode_span, hc] at this
      cases this
    · exact hd
  case names =>
    intro w hw i hk a c ha hc hs
    obtain ⟨p, hp, hg, rfl⟩ := Scan.mem_words.mp hw
    exact (h.standsIn hp hg).no_delimiter hk ha hc hs
  case variants =>
    intro w hw v hk
    obtain ⟨p, hp, hg, rfl⟩ := Scan.mem_words.mp hw
    exact (h.standsIn hp hg).endsInColons hk

/-- A text is read up to the last boundary that is not behind the stop, and
the words of its tree tile what was read. -/
theorem readings_tile (stop : Option Nat) (t : Text) :
    (∀ n ∈ stop, size (t.readTo stop) ≤ n) ∧
      (∀ m, isBoundary m t = true → (∀ n ∈ stop, m ≤ n) → m ≤ size (t.readTo stop)) ∧
      t.readTo stop <+: t ∧ Tiles t (t.readTo stop) (Tree.ofTextTo stop t).words := by
  obtain ⟨hle, hmax⟩ := size_readTo_max stop t
  obtain ⟨ended, s, hl, htree⟩ := Tree.layout_ofTextTo stop t
  have hpre := t.readTo_prefix stop
  rw [htree]
  exact ⟨hle, hmax, hpre, hl.tiles hpre⟩

/-- A stop inside the `é` of `sm:é b` is moved in front of it. The `sm:` in front
of it tiles the text, and so does the empty name that follows. -/
theorem readings_tile_inside_a_character :
    Text.readTo (some 4) "sm:é b".toList = "sm:".toList ∧
      (Tree.ofTextTo (some 4) "sm:é b".toList).words.map (·.span) = [⟨0, 3⟩, ⟨3, 3⟩] ∧
      Tiles "sm:é b".toList "sm:".toList (Tree.ofTextTo (some 4) "sm:é b".toList).words := by
  have hread : Text.readTo (some 4) "sm:é b".toList = "sm:".toList := by decide
  refine ⟨hread, by decide, ?_⟩
  rw [← hread]
  exact (readings_tile (some 4) "sm:é b".toList).2.2.2

end ClassList
