-- The laws of groups. The groups of a tree are the matched parentheses of its
-- text, any two of them are nested or apart, and a node belongs to the groups
-- whose ranges are around its own.
import Mathlib
import ClassList.Proofs.Building

namespace ClassList

open Text

/-! ## Empty names -/

/-- An empty word stands right behind a colon. -/
def Placed.BehindColon (p : Placed) (a : Text) : Prop :=
  p.item.isGroup = false → p.item.raw = [] →
    ∃ b, b ++ [':'] <+: a ∧ p.item.start = size (b ++ [':'])

theorem Placed.BehindColon.append {p : Placed} {a : Text} (h : p.BehindColon a) (x : Text) :
    p.BehindColon (a ++ x) := by
  intro hg hraw
  obtain ⟨b, hb, hstart⟩ := h hg hraw
  exact ⟨b, hb.trans (List.prefix_append a x), hstart⟩

theorem Placed.behindColon_of_ne {p : Placed} {a : Text} (h : p.item.raw ≠ []) :
    p.BehindColon a := fun _ hraw => absurd hraw h

theorem Placed.behindColon_of_group {p : Placed} {a : Text} (h : p.item.isGroup = true) :
    p.BehindColon a := by
  intro hg
  rw [h] at hg
  cases hg

/-- A scan waits for a name only right behind a colon, and so it places an
empty name only there. -/
structure Scan.Tidy (s : Scan) (a : Text) : Prop where
  awaits : s.awaitsName = true → ∃ b, a = b ++ ':' :: s.word
  empties : ∀ p ∈ s.placed, p.BehindColon a

namespace Scan

variable {s : Scan} {a : Text}

theorem tidy_init : init.Tidy [] := by
  constructor
  · intro h
    cases h
  · intro p hp
    cases hp

theorem Tidy.push {m : Mode} (c : Char) (h : s.Tidy a) :
    Tidy { s.push c with mode := m } (a ++ [c]) := by
  constructor
  · intro hw
    obtain ⟨b, rfl⟩ := h.awaits hw
    exact ⟨b, by simp [Scan.push]⟩
  · intro p hp
    exact (h.empties p hp).append [c]

theorem tidy_endIdentifier (hr : s.HasRead a) (h : s.Tidy a) :
    s.endIdentifier.awaitsName = false ∧ ∀ p ∈ s.endIdentifier.placed, p.BehindColon a := by
  unfold endIdentifier
  split
  · rename_i he
    rw [Bool.and_eq_true, Bool.not_eq_true'] at he
    exact ⟨he.2, h.empties⟩
  · rename_i he
    refine ⟨rfl, ?_⟩
    intro p hp
    rcases List.mem_cons.mp hp with rfl | hp
    · intro _ hraw
      have hw : s.word = [] := hraw
      have haw : s.awaitsName = true := by simpa [hw] using he
      obtain ⟨b, hb⟩ := h.awaits haw
      rw [hw] at hb
      refine ⟨b, by rw [hb], ?_⟩
      have hoff := hr.offset_eq
      rw [offset, hw, size_nil, Nat.add_zero, hb] at hoff
      exact hoff
    · exact h.empties p hp

/-- What is left when a name has ended. -/
theorem tidy_ended {s' : Scan} {x : Text} (hw : s.awaitsName = false)
    (hp : ∀ p ∈ s.placed, p.BehindColon a) (hs : s'.placed = s.placed) : s'.Tidy (a ++ x) := by
  constructor
  · intro haw
    unfold awaitsName at haw hw
    rw [hs, hw] at haw
    cases haw
  · intro p hmem
    rw [hs] at hmem
    exact (hp p hmem).append x

theorem tidy_endVariant {b body : Text} (ha : a = b ++ [':']) (hw : s.word = body ++ [':'])
    (hne : body ≠ []) (hp : ∀ p ∈ s.placed, p.BehindColon a) : s.endVariant.Tidy a := by
  have hword := endVariant_word s
  constructor
  · intro _
    exact ⟨b, by rw [hword, ha]⟩
  · unfold endVariant
    split
    · rename_i rest hrest
      have hne' : rest ≠ [] := by
        rintro rfl
        rw [hw] at hrest
        cases body with
        | nil => exact hne rfl
        | cons c body => simp at hrest
      intro p hmem
      simp only [restart_placed, enter_placed, List.mem_cons] at hmem
      rcases hmem with rfl | rfl | hmem
      · exact Placed.behindColon_of_ne hne'
      · exact Placed.behindColon_of_ne (List.cons_ne_nil _ _)
      · exact hp p hmem
    · intro p hmem
      simp only [restart_placed, enter_placed, List.mem_cons] at hmem
      rcases hmem with rfl | hmem
      · refine Placed.behindColon_of_ne ?_
        show s.word ≠ []
        rw [hw]
        simp
      · exact hp p hmem

theorem tidy_read (c : Char) (hr : s.HasRead a) (h : s.Tidy a) :
    (s.read c).Tidy (a ++ [c]) := by
  obtain ⟨hended, hnames⟩ := tidy_endIdentifier hr h
  unfold read
  dsimp only
  split
  · rename_i hc
    obtain rfl := Delimiter.ofChar?_eq_colon.mp hc
    split
    · constructor
      · intro _
        exact ⟨a, rfl⟩
      · intro p hp
        exact (h.empties p hp).append _
    · exact h.push ':'
  · constructor
    · intro haw
      cases haw
    · intro p hp
      rcases List.mem_cons.mp hp with rfl | hp
      · exact Placed.behindColon_of_group rfl
      · unfold endOuter at hp
        split at hp
        · exact (h.empties p hp).append _
        · rename_i he
          rcases List.mem_cons.mp hp with rfl | hp
          · exact Placed.behindColon_of_ne fun hw => he (List.isEmpty_iff.mpr hw)
          · exact (h.empties p hp).append _
  · exact tidy_ended hended hnames (by simp)
  · exact tidy_ended hended hnames rfl
  · exact h.push c

/-- In front of the second colon of a variant, or of what follows it. -/
theorem tidy_settle (hr : s.HasRead a) (h : s.Tidy a) : s.settle.Tidy a := by
  unfold settle
  split
  · rename_i hm
    obtain ⟨before, ha, -⟩ := hr.split
    have hf := hr.fits
    rw [hm] at hf
    obtain ⟨body, hne, hw, -, -⟩ := hf
    have hcolon : a = (before ++ body) ++ [':'] := by rw [ha, hw, List.append_assoc]
    exact tidy_endVariant hcolon hw hne h.empties
  · exact h

theorem tidy_step (c : Char) (hr : s.HasRead a) (h : s.Tidy a) :
    (s.step c).Tidy (a ++ [c]) := by
  have hf := hr.fits
  unfold step
  split
  · exact tidy_read c hr h
  · exact h.push c
  · rename_i hm
    rw [hm] at hf
    obtain ⟨body, hne, hw, -, -⟩ := hf
    split
    · rename_i hc
      subst hc
      have hw2 : (s.push ':').word = s.word ++ [':'] := rfl
      refine tidy_endVariant rfl hw2 (by simp [hw]) ?_
      intro p hp
      exact (h.empties p hp).append _
    · have hset : s.settle = s.endVariant := by simp [settle, hm]
      rw [← hset]
      exact tidy_read c (hasRead_settle hr) (tidy_settle hr h)

theorem tidy_run (t : Text) : (run t).Tidy t := by
  induction t using List.reverseRecOn with
  | nil => exact tidy_init
  | append_singleton t c ih =>
    rw [run_append]
    exact tidy_step c (hasRead_run t) ih

end Scan

/-! ## The tree of a text -/

/-- The tree of a text holds what its layout places, and only behind a colon
an empty name. -/
theorem Tree.layout_behindColon (t : Text) :
    ∃ ended s, Layout ended t s ∧ ofText t = s.tree (size t) ∧
      ∀ p ∈ s.placed, p.BehindColon t := by
  have hread := Scan.hasRead_run t
  have hsettle := Scan.hasRead_settle hread
  obtain ⟨ended, hl⟩ := Scan.layout_endIdentifier hsettle (Scan.settle_mode _)
  exact ⟨ended, _, hl, rfl,
    (Scan.tidy_endIdentifier hsettle (Scan.tidy_settle hread (Scan.tidy_run t))).2⟩

/-! ## Starts and stops -/

/-- The only delimiters of a word are colons. -/
theorem Item.StandsIn.outside {i : Item} {t : Text} (h : i.StandsIn t) (hg : i.isGroup = false) :
    ∀ c ∈ i.raw.outside false, c ∉ delimiters ∨ c = ':' := by
  have hshape := h.shaped
  unfold Item.Shaped at hshape
  rcases i with ⟨id, _ | v | w, start⟩
  · cases hg
  · exact VariantText.outside hshape
  · exact fun c hc => Or.inl (hshape c hc)

/-- A word ends in front of every closing parenthesis that follows its start. -/
theorem Item.StandsIn.stop_le_closing {i : Item} {t : Text} {j : Nat} (h : i.StandsIn t)
    (hg : i.isGroup = false) (hj : structuralAt? j t = some ')') (hle : i.start ≤ j) :
    i.span.stop ≤ j := by
  by_contra hlt
  obtain ⟨x, y, rfl, rfl, hs⟩ := structuralAt?_eq_some.mp hj
  have hcontains : i.span.contains (size x) = true :=
    Span.contains_iff.mpr ⟨hle, by omega⟩
  obtain ⟨u, v, hraw, -, hsu⟩ := h.charAt (c := ')') ⟨y, by simp⟩ hcontains
  have hmem : ')' ∈ i.raw.outside false := by
    rw [hraw]
    exact structural_mem_outside (hsu ▸ hs)
  exact (colon_ne_paren (h.outside hg _ hmem)).2 rfl

namespace Layout

variable {ended : Bool} {t : Text} {s : Scan} {p q : Placed}

theorem starts (h : Layout ended t s) :
    s.placed.Pairwise fun p q => q.item.start < p.item.start := by
  induction h with
  | start => simp [Scan.init]
  | colon _ ih => exact ih
  | enter hl _ ih => exact List.Pairwise.cons (fun _ hq => hl.start_lt hq) ih
  | name _ hl _ ih => exact List.Pairwise.cons (fun _ hq => hl.start_lt hq) ih
  | opening hl ih => exact List.Pairwise.cons (fun _ hq => hl.start_lt hq) ih
  | closing _ _ ih => simpa using ih
  | blank _ _ _ ih => exact ih

theorem start_ne (h : Layout ended t s) (hp : p ∈ s.placed) (hq : q ∈ s.placed) (hne : p ≠ q) :
    p.item.start ≠ q.item.start := by
  have hnodup : (s.placed.map fun p => p.item.start).Nodup :=
    List.pairwise_map.mpr (h.starts.imp Nat.ne_of_gt)
  intro he
  exact hne (List.inj_on_of_nodup_map hnodup hp hq he)

/-- A group stops behind the parenthesis that closes its own, or at the end of
the text. -/
theorem group_stop (h : Layout ended t s) (hp : p ∈ s.placed) (hg : p.item.isGroup = true) :
    (∃ j, closes t p.item.start j = true ∧ s.stopOf (size t) p.item = j + 1) ∨
      ((∀ j, closes t p.item.start j = false) ∧ s.stopOf (size t) p.item = size t) := by
  have hstop : s.stopOf (size t) p.item = (s.closed.lookup p.item.id).getD (size t) :=
    Scan.stopOf_group hg
  rcases h.group_state p hp hg with ⟨hmem, hnone⟩ | ⟨j, hj, hsome⟩
  · exact Or.inr ⟨h.not_closes_of_scope hp hg hmem, by rw [hstop, hnone]; rfl⟩
  · exact Or.inl ⟨j, hj, by rw [hstop, hsome]; rfl⟩

theorem group_stop_of_closes (h : Layout ended t s) (hp : p ∈ s.placed)
    (hg : p.item.isGroup = true) {j : Nat} (hj : closes t p.item.start j = true) :
    s.stopOf (size t) p.item = j + 1 := by
  rcases h.group_stop hp hg with ⟨k, hk, hstop⟩ | ⟨hnone, -⟩
  · rw [hstop, closes_unique (h.group_opens hp hg) hk hj]
  · rw [hnone j] at hj
    cases hj

theorem group_start_lt_stop (h : Layout ended t s) (hp : p ∈ s.placed)
    (hg : p.item.isGroup = true) : p.item.start < s.stopOf (size t) p.item := by
  rcases h.group_stop hp hg with ⟨j, hj, hstop⟩ | ⟨-, hstop⟩
  · have := closes_lt hj
    omega
  · rw [hstop]
    exact h.group_start_lt hp hg

theorem stop_le_size (h : Layout ended t s) (hp : p ∈ s.placed) :
    s.stopOf (size t) p.item ≤ size t := by
  by_cases hg : p.item.isGroup = true
  · rcases h.group_stop hp hg with ⟨j, hj, hstop⟩ | ⟨-, hstop⟩
    · rw [hstop]
      exact structuralAt_lt (closes_at hj)
    · rw [hstop]
  · rw [Bool.not_eq_true] at hg
    rw [Scan.stopOf_word hg]
    exact (h.standsIn hp hg).stop_le

theorem ne_of_group (hp : p.item.isGroup = false) (hq : q.item.isGroup = true) : q ≠ p := by
  rintro rfl
  rw [hp] at hq
  cases hq

/-! ## The groups around an item -/

theorem scope_start_lt (h : Layout ended t s) (hp : p ∈ s.placed) (hq : q ∈ s.placed)
    (hmem : q.item ∈ p.scopes) : q.item.start < p.item.start := by
  obtain ⟨before, raw, rest, s₀, k, hl, -, -, rfl, hsuf, -⟩ := h.origin p hp
  rcases hl.nested.known _ hmem with hroot | ⟨q', hq', he⟩
  · exact absurd hroot (h.item_ne_root hq)
  · rw [← he]
    exact hl.start_lt hq'

/-- A group is a scope of what stands behind its parenthesis and in front of
the one that closes it. -/
theorem group_mem_scopes_iff (h : Layout ended t s) (hp : p ∈ s.placed) (hq : q ∈ s.placed)
    (hg : q.item.isGroup = true) :
    q.item ∈ p.scopes ↔ q.item.start < p.item.start ∧
      ∀ j, closes t q.item.start j = true → p.item.start ≤ j := by
  rw [← and_iff_right_of_imp (h.scope_start_lt hp hq)]
  refine and_congr_right ?_
  intro hlt
  have hne : q ≠ p := by
    rintro rfl
    exact Nat.lt_irrefl _ hlt
  obtain ⟨before, s₀, rest, hl, rfl, hq₀, hstart, hscopes⟩ :=
    h.placed_before hq hp hne (Nat.le_of_lt hlt)
  have hboundary : isBoundary (size before) (before ++ rest) = true :=
    isBoundary_iff.mpr ⟨before, rest, rfl, rfl⟩
  rw [hstart] at hlt
  rw [hscopes, hstart, ← groupsAbove_isSome, ← hl.openAfter_eq q hq₀ hg,
    ← structuralIn_append rest hlt, ← not_iff_not, Bool.not_eq_true, Option.isSome_eq_false_iff,
    Option.isNone_iff_eq_none, openAfter_eq_none_iff (h.group_opens hq hg) hboundary hlt]
  push Not
  exact exists_congr fun j => and_comm

/-- A group that is no scope of an item behind it stops in front of that item. -/
theorem group_stop_le_start (h : Layout ended t s) (hp : p ∈ s.placed) (hq : q ∈ s.placed)
    (hg : q.item.isGroup = true) (hlt : q.item.start < p.item.start) (hnot : q.item ∉ p.scopes) :
    s.stopOf (size t) q.item ≤ p.item.start := by
  rw [h.group_mem_scopes_iff hp hq hg] at hnot
  push Not at hnot
  obtain ⟨j, hj, hjp⟩ := hnot hlt
  rw [h.group_stop_of_closes hq hg hj]
  exact hjp

/-- A group reaches over all that it is a scope of. -/
theorem stop_le_group_stop (h : Layout ended t s) (hp : p ∈ s.placed) (hq : q ∈ s.placed)
    (hg : q.item.isGroup = true) (hmem : q.item ∈ p.scopes) :
    s.stopOf (size t) p.item ≤ s.stopOf (size t) q.item := by
  obtain ⟨hlt, hclose⟩ := (h.group_mem_scopes_iff hp hq hg).mp hmem
  rcases h.group_stop hq hg with ⟨j, hj, hstop⟩ | ⟨-, hstop⟩
  · have hle := hclose j hj
    rw [hstop]
    by_cases hpg : p.item.isGroup = true
    · -- The parenthesis at `j` is closing, so it is not the group's own.
      have hopens := h.group_opens hp hpg
      have hne : p.item.start ≠ j := by
        intro he
        rw [he, closes_at hj] at hopens
        cases hopens
      obtain ⟨k, hk, hkc⟩ := closes_inner (h.group_opens hq hg) hopens hj hlt (by omega)
      rw [h.group_stop_of_closes hp hpg hkc]
      omega
    · rw [Bool.not_eq_true] at hpg
      rw [Scan.stopOf_word hpg]
      have := (h.standsIn hp hpg).stop_le_closing hpg (closes_at hj) hle
      omega
  · rw [hstop]
    exact h.stop_le_size hp

/-- A group is a scope of an item exactly if its range is around the item. An
empty name never stands right behind a closing parenthesis. -/
theorem group_around_iff (h : Layout ended t s) (hp : p ∈ s.placed) (hq : q ∈ s.placed)
    (hg : q.item.isGroup = true) (hcolon : p.BehindColon t) :
    q.item ∈ p.scopes ↔ q.item.start < p.item.start ∧
      s.stopOf (size t) p.item ≤ s.stopOf (size t) q.item := by
  constructor
  · intro hmem
    exact ⟨h.scope_start_lt hp hq hmem, h.stop_le_group_stop hp hq hg hmem⟩
  · rintro ⟨hlt, hle⟩
    rw [h.group_mem_scopes_iff hp hq hg]
    refine ⟨hlt, ?_⟩
    intro j hj
    rw [h.group_stop_of_closes hq hg hj] at hle
    by_cases hpg : p.item.isGroup = true
    · have := h.group_start_lt_stop hp hpg
      omega
    · rw [Bool.not_eq_true] at hpg
      rw [Scan.stopOf_word hpg] at hle
      by_cases hraw : p.item.raw = []
      · have hstop : p.item.span.stop = p.item.start := by
          unfold Item.span Span.ofText
          rw [hraw]
          rfl
        by_contra hlt
        obtain ⟨b, ⟨r, hr⟩, hb⟩ := hcolon hpg hraw
        obtain ⟨x, y, hx, hj', -⟩ := structuralAt?_eq_some.mp (closes_at hj)
        have hsize : size b = size x := by
          rw [size_append] at hb
          have : size [':'] = 1 := rfl
          omega
        have hsplit : b ++ (':' :: r) = x ++ ')' :: y := by rw [← hx, ← hr]; simp
        have := (append_inj_of_size hsplit hsize).2
        cases this
      · have hpos := size_pos hraw
        have hstop : p.item.span.stop = p.item.start + size p.item.raw := rfl
        omega

/-- Every opening parenthesis of the text has a group. -/
def OpeningsPlaced (a : Text) (placed : List Placed) : Prop :=
  ∀ x, x ++ ['('] <+: a → inRun x = false →
    ∃ p ∈ placed, p.item.isGroup = true ∧ p.item.start = size x

/-- Text without an opening parenthesis opens no group. -/
theorem OpeningsPlaced.append {a w : Text} {placed more : List Placed}
    (h : OpeningsPlaced a placed) (ha : inRun a = false)
    (hw : ∀ c ∈ outside false w, c ≠ '(') (hsub : placed ⊆ more) :
    OpeningsPlaced (a ++ w) more := by
  intro x hx hrun
  rcases snoc_prefix_append hx with hx | ⟨y, z, rfl, rfl⟩
  · obtain ⟨p, hp, hgp⟩ := h x hx hrun
    exact ⟨p, hsub hp, hgp⟩
  · rw [inRun_append, ha] at hrun
    have hs : structural y '(' = true := (structural_paren (by decide)).mpr hrun
    exact absurd rfl (hw '(' (structural_mem_outside hs))

theorem openings_placed (h : Layout ended t s) : OpeningsPlaced t s.placed := by
  induction h with
  | start =>
    intro x hx
    simp at hx
  | colon hl ih => exact ih.append (hl.not_inRun rfl) (by simp [outside]) (fun _ h => h)
  | enter hl ho ih =>
    exact ih.append (hl.not_inRun rfl) (fun c hc => (colon_ne_paren (ho.outside c hc)).1)
      (List.subset_cons_self _ _)
  | name _ hl hs ih =>
    exact ih.append (hl.not_inRun rfl) (fun c hc => (colon_ne_paren (Or.inl (hs c hc))).1)
      (List.subset_cons_self _ _)
  | @opening a s hl ih =>
    intro x hx hrun
    rcases snoc_prefix_append hx with hx | ⟨y, z, hyz, rfl⟩
    · obtain ⟨p, hp, hgp⟩ := ih x hx hrun
      exact ⟨p, List.mem_cons_of_mem _ hp, hgp⟩
    · obtain ⟨rfl, -⟩ : y = [] ∧ z = [] := by cases y <;> simp_all
      exact ⟨_, List.mem_cons_self, rfl, by rw [List.append_nil]; rfl⟩
  | closing _ hr ih => exact ih.append hr (by simp [outside]) (by simp)
  | @blank ended a s c hl hr hc ih =>
    refine ih.append hr ?_ (fun _ h => h)
    rw [outside_delimiter (blanks_subset hc)]
    intro d hd
    obtain rfl := List.mem_singleton.mp hd
    exact (blank_ne_paren hc).1

end Layout

/-! ## The law -/

/-- The nodes of the opening parentheses, in source order. -/
def Tree.groups (t : Tree) : List Node := t.inner.filter (·.item.isGroup)

/-- The groups of a tree are the matched parentheses of the text, and they hold
what stands between them. -/
structure Tree.Parenthesised (tree : Tree) (t : Text) : Prop where
  root : tree.root.span = ⟨0, size t⟩
  openings : tree.groups.map (·.span.start) = t.openings
  closed : ∀ g ∈ tree.groups, ∀ j, t.closes g.span.start j = true → g.span.stop = j + 1
  unclosed : ∀ g ∈ tree.groups, (∀ j, t.closes g.span.start j = false) → g.span.stop = size t
  laminar : ∀ g ∈ tree.nodes, ∀ h ∈ tree.nodes, g.item.isGroup = true → h.item.isGroup = true →
    g.span.encloses h.span = true ∨ h.span.encloses g.span = true ∨
      g.span.stop ≤ h.span.start ∨ h.span.stop ≤ g.span.start
  around : ∀ n ∈ tree.nodes, ∀ g ∈ tree.nodes, g.item.isGroup = true → g ≠ n →
    (g.id ∈ n.ancestors ↔
      g = tree.root ∨ (g.span.start < n.span.start ∧ n.span.stop ≤ g.span.stop))

namespace Layout

variable {ended : Bool} {t : Text} {s : Scan}

theorem groups_openings (h : Layout ended t s) :
    (s.tree (size t)).groups.map (·.span.start) = t.openings := by
  have hirrefl : Std.Irrefl fun i j : Nat => i < j := ⟨Nat.lt_irrefl⟩
  have hanti : Std.Antisymm fun i j : Nat => i < j :=
    ⟨fun _ _ h₁ h₂ => absurd h₁ (Nat.lt_asymm h₂)⟩
  have hleft : ((s.tree (size t)).groups.map (·.span.start)).Pairwise (· < ·) := by
    unfold Tree.groups Scan.tree
    rw [List.pairwise_map]
    apply List.Pairwise.filter
    rw [List.pairwise_map, List.pairwise_reverse]
    exact h.starts
  have hright : t.openings.Pairwise (· < ·) := List.Pairwise.filter _ List.pairwise_lt_range
  apply hleft.eq_of_mem_iff hright
  intro n
  rw [mem_openings, List.mem_map]
  constructor
  · rintro ⟨g, hg, rfl⟩
    obtain ⟨hg, hgroup⟩ := List.mem_filter.mp hg
    obtain ⟨p, hp, rfl⟩ := Scan.mem_inner.mp hg
    exact h.group_opens hp hgroup
  · intro hn
    obtain ⟨x, y, rfl, rfl, hs⟩ := structuralAt?_eq_some.mp hn
    rw [structural_paren (by decide)] at hs
    obtain ⟨p, hp, hg, hstart⟩ := h.openings_placed x ⟨y, by simp⟩ hs
    exact ⟨s.nodeOf (size (x ++ '(' :: y)) p,
      List.mem_filter.mpr ⟨Scan.mem_inner.mpr ⟨p, hp, rfl⟩, hg⟩, hstart⟩

theorem groups_laminar (h : Layout ended t s) {p q : Placed} (hp : p ∈ s.placed)
    (hq : q ∈ s.placed) (hgq : q.item.isGroup = true) (hlt : q.item.start < p.item.start) :
    (s.nodeOf (size t) q).span.encloses (s.nodeOf (size t) p).span = true ∨
      (s.nodeOf (size t) q).span.stop ≤ (s.nodeOf (size t) p).span.start := by
  by_cases hmem : q.item ∈ p.scopes
  · exact Or.inl (Span.encloses_iff.mpr
      ⟨Nat.le_of_lt hlt, h.stop_le_group_stop hp hq hgq hmem⟩)
  · exact Or.inr (h.group_stop_le_start hp hq hgq hlt hmem)

/-- The root is around everything. -/
theorem root_encloses (h : Layout ended t s) {n : Node} (hn : n ∈ (s.tree (size t)).nodes) :
    (s.tree (size t)).root.span.encloses n.span = true := by
  refine Span.encloses_iff.mpr ⟨Nat.zero_le _, ?_⟩
  rcases Scan.mem_nodes.mp hn with rfl | ⟨p, hp, rfl⟩
  · exact Nat.le_refl _
  · exact h.stop_le_size hp

/-- Two groups are nested or apart. -/
theorem nested_or_apart (h : Layout ended t s) {g k : Node} (hg : g ∈ (s.tree (size t)).nodes)
    (hk : k ∈ (s.tree (size t)).nodes) (hgg : g.item.isGroup = true)
    (hgk : k.item.isGroup = true) :
    g.span.encloses k.span = true ∨ k.span.encloses g.span = true ∨
      g.span.stop ≤ k.span.start ∨ k.span.stop ≤ g.span.start := by
  rcases Scan.mem_nodes.mp hg with rfl | ⟨p, hp, rfl⟩
  · exact Or.inl (h.root_encloses hk)
  rcases Scan.mem_nodes.mp hk with rfl | ⟨q, hq, rfl⟩
  · exact Or.inr (Or.inl (h.root_encloses hg))
  rcases Nat.lt_trichotomy p.item.start q.item.start with hlt | heq | hlt
  · rcases h.groups_laminar hq hp hgg hlt with henc | hapart
    · exact Or.inl henc
    · exact Or.inr (Or.inr (Or.inl hapart))
  · obtain rfl : p = q := by
      by_contra hne
      exact h.start_ne hp hq hne heq
    exact Or.inl (Span.encloses_refl _)
  · rcases h.groups_laminar hp hq hgk hlt with henc | hapart
    · exact Or.inr (Or.inl henc)
    · exact Or.inr (Or.inr (Or.inr hapart))

theorem root_mem_scopes (h : Layout ended t s) {p : Placed} (hp : p ∈ s.placed) :
    .root ∈ p.scopes := by
  obtain ⟨before, raw, rest, s₀, k, hl, -, -, rfl, -, -⟩ := h.origin p hp
  exact List.mem_of_getLast? hl.root_scope

theorem around_iff (h : Layout ended t s) (hcolon : ∀ p ∈ s.placed, p.BehindColon t) {n g : Node}
    (hn : n ∈ (s.tree (size t)).nodes) (hg : g ∈ (s.tree (size t)).nodes)
    (hgroup : g.item.isGroup = true) (hne : g ≠ n) :
    g.id ∈ n.ancestors ↔ g = (s.tree (size t)).root ∨
      (g.span.start < n.span.start ∧ n.span.stop ≤ g.span.stop) := by
  rcases Scan.mem_nodes.mp hg with rfl | ⟨q, hq, rfl⟩
  · rcases Scan.mem_nodes.mp hn with rfl | ⟨p, hp, rfl⟩
    · exact absurd rfl hne
    · refine iff_of_true ?_ (Or.inl rfl)
      exact List.mem_map_of_mem (List.mem_cons_of_mem _ (h.root_mem_scopes hp))
  · have hroot : s.nodeOf (size t) q ≠ (s.tree (size t)).root := by
      intro he
      exact h.item_ne_root hq (congrArg (fun n => n.item) he)
    rw [or_iff_right hroot]
    rcases Scan.mem_nodes.mp hn with rfl | ⟨p, hp, rfl⟩
    · refine iff_of_false ?_ ?_
      · intro hmem
        have hzero : q.item.id = 0 := List.mem_singleton.mp hmem
        have := (h.nested.bounds q hq).1
        omega
      · rintro ⟨hlt, -⟩
        exact Nat.not_lt_zero _ hlt
    · have hqp : q ≠ p := fun he => hne (by rw [he])
      exact (h.id_mem_ancestors hq hp hqp).trans (h.group_around_iff hp hq hgroup (hcolon p hp))

end Layout

/-- The groups of a text are its matched parentheses: each stops where its own
parenthesis is closed, and the groups around a node are those that are its
ancestors. So it is with the ranges that are stored while the text is read,
stretched at each closing parenthesis and at the end. -/
theorem groups_are_matched_parentheses (t : Text) :
    (Tree.ofText t).Parenthesised t ∧ (Arena.ofTextTo none t).tree? = some (Tree.ofText t) := by
  refine ⟨?_, Arena.tree?_ofTextTo none t⟩
  obtain ⟨ended, s, hl, htree, hcolon⟩ := Tree.layout_behindColon t
  have hmem : ∀ g ∈ (s.tree (size t)).groups,
      ∃ p ∈ s.placed, p.item.isGroup = true ∧ s.nodeOf (size t) p = g := by
    intro g hg
    obtain ⟨hg, hgroup⟩ := List.mem_filter.mp hg
    obtain ⟨p, hp, rfl⟩ := Scan.mem_inner.mp hg
    exact ⟨p, hp, hgroup, rfl⟩
  rw [htree]
  constructor
  case root => rfl
  case openings => exact hl.groups_openings
  case closed =>
    intro g hg j hj
    obtain ⟨p, hp, hgroup, rfl⟩ := hmem g hg
    exact hl.group_stop_of_closes hp hgroup hj
  case unclosed =>
    intro g hg hnone
    obtain ⟨p, hp, hgroup, rfl⟩ := hmem g hg
    rcases hl.group_stop hp hgroup with ⟨j, hj, -⟩ | ⟨-, hstop⟩
    · have hfalse := hnone j
      rw [show (s.nodeOf (size t) p).span.start = p.item.start from rfl, hj] at hfalse
      cases hfalse
    · exact hstop
  case laminar =>
    intro g hg h hh hgg hgh
    exact hl.nested_or_apart hg hh hgg hgh
  case around =>
    intro n hn g hg hgroup hne
    exact hl.around_iff hcolon hn hg hgroup hne

/-- In `b(a:)) [(]x(y` the parenthesis in brackets opens nothing, the second
closing one closes nothing, and the empty name behind `a:` is in the first group. -/
theorem groups_are_matched_parentheses_beside_brackets :
    Text.openings "b(a:)) [(]x(y".toList = [1, 11] ∧
      ∃ g ∈ (Tree.ofText "b(a:)) [(]x(y".toList).nodes, g.item.isGroup = true ∧
        g.span = ⟨1, 5⟩ ∧
        ∃ n ∈ (Tree.ofText "b(a:)) [(]x(y".toList).nodes, n.span = ⟨4, 4⟩ ∧
          g.id ∈ n.ancestors := by
  obtain ⟨h, -⟩ := groups_are_matched_parentheses "b(a:)) [(]x(y".toList
  obtain ⟨g, hg, hnode, hgroup, hstart, hcloses, n, hn, hspan, hne⟩ :
      ∃ g ∈ (Tree.ofText "b(a:)) [(]x(y".toList).groups,
        g ∈ (Tree.ofText "b(a:)) [(]x(y".toList).nodes ∧ g.item.isGroup = true ∧
        g.span.start = 1 ∧ Text.closes "b(a:)) [(]x(y".toList g.span.start 4 = true ∧
        ∃ n ∈ (Tree.ofText "b(a:)) [(]x(y".toList).nodes, n.span = ⟨4, 4⟩ ∧ g ≠ n := by
    decide
  have hstop : g.span.stop = 5 := h.closed g hg 4 hcloses
  have hrange : g.span = ⟨1, 5⟩ := congrArg₂ Span.mk hstart hstop
  refine ⟨by decide, g, hnode, hgroup, hrange, n, hn, hspan, ?_⟩
  refine (h.around n hn g hnode hgroup hne).mpr (Or.inr ?_)
  rw [hrange, hspan]
  decide

end ClassList
