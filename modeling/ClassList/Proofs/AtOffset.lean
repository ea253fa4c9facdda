-- The laws of the rules at an offset. They are found by comparing ranges, but
-- they are the rules that the tree puts there: those of the word at the offset,
-- and where there is none, those of the smallest group around it.
import Mathlib
import ClassList.Proofs.Spans

namespace ClassList

open Text

/-! ## The rules below a node -/

/-- The rules of the names that have a node on their way to the root. -/
def Tree.rulesUnder (t : Tree) (id : Nat) : List Rule :=
  (t.terminals.filter fun last => id ∈ last.ancestors).map Rule.ofNode

/-- A filter of the rules that each name decides by its node. -/
theorem Tree.filter_rules {t : Tree} {f : Rule → Bool} {g : Node → Bool}
    (h : ∀ last ∈ t.terminals, f (Rule.ofNode last) = g last) :
    t.rules.filter f = (t.terminals.filter g).map Rule.ofNode := by
  unfold rules
  rw [List.filter_map]
  congr 1
  exact List.filter_congr h

namespace Layout

variable {ended : Bool} {t : Text} {s : Scan} {p q : Placed}

theorem mem_terminals {last : Node} (h : last ∈ (s.tree (size t)).terminals) :
    ∃ p ∈ s.placed, p.item.isGroup = false ∧ last = s.nodeOf (size t) p := by
  rw [Tree.terminals_eq, List.mem_filter, Scan.mem_words] at h
  obtain ⟨⟨p, hp, hg, rfl⟩, -⟩ := h
  exact ⟨p, hp, hg, (Scan.nodeOf_word hg).symm⟩

/-! ## Words at an offset -/

/-- No two words hold one offset. -/
theorem word_unique (h : Layout ended t s) {v w : Node} {n : Nat}
    (hv : v ∈ (s.tree (size t)).words) (hw : w ∈ (s.tree (size t)).words)
    (hvn : v.span.contains n = true) (hwn : w.span.contains n = true) : v = w := by
  have hordered := (h.tiles (List.prefix_refl t)).ordered
  have hsymm : Std.Symm fun v w : Node =>
      v.span.contains n = true → w.span.contains n = true → v = w :=
    ⟨fun _ _ he hvn hwn => (he hwn hvn).symm⟩
  have hpair : (s.tree (size t)).words.Pairwise fun v w =>
      v.span.contains n = true → w.span.contains n = true → v = w := by
    refine hordered.imp ?_
    intro v w hle hvn hwn
    rw [Span.contains_iff] at hvn hwn
    omega
  exact List.Pairwise.forall_of_forall (fun _ _ _ _ => rfl) hpair hv hw hvn hwn

theorem isAt_iff (h : Layout ended t s) {last : Node} (hlast : last ∈ (s.tree (size t)).terminals)
    (n : Nat) : (Rule.ofNode last).isAt n = true ↔
      ∃ w ∈ (s.tree (size t)).words, w.id ∈ last.ancestors ∧ w.span.contains n = true := by
  obtain ⟨p, hp, hg, rfl⟩ := mem_terminals hlast
  have hordered := h.ordered_tree (Nat.le_refl (size t))
  unfold Rule.isAt
  rw [List.any_eq_true, (h.madeOf (List.prefix_refl t) hp hg).union n]
  refine exists_congr ?_
  intro w
  rw [hordered.mem_path, Tree.words, List.mem_filter, Bool.not_eq_true']
  tauto

/-! ## Groups around a rule -/

/-- The parenthesis of a group belongs to no word. -/
theorem opening_not_in_word (h : Layout ended t s) (hp : p ∈ s.placed) (hq : q ∈ s.placed)
    (hpg : p.item.isGroup = false) (hqg : q.item.isGroup = true) :
    p.item.span.contains q.item.start = false := by
  rw [← Bool.not_eq_true, Span.contains_iff]
  rintro ⟨hle, hlt⟩
  have hne := (ne_of_group hpg hqg).symm
  obtain ⟨before, s₀, rest, hl, -, hp₀, hstart, -⟩ := h.placed_before hp hq hne hle
  have := (hl.standsIn hp₀ hpg).stop_le
  omega

/-- A group around a place of a rule is around a word there, and so around
the name. -/
theorem mem_scopes_of_encloses (h : Layout ended t s) (hcolon : ∀ p ∈ s.placed, p.BehindColon t)
    (hp : p ∈ s.placed) (hpg : p.item.isGroup = false) (hq : q ∈ s.placed)
    (hqg : q.item.isGroup = true) {place : Span}
    (hplace : place ∈ (Rule.ofChain p.item p.scopes).spans)
    (hencloses : (s.nodeOf (size t) q).span.encloses place = true) : q.item ∈ p.scopes := by
  obtain ⟨word, hword, haround⟩ := (h.joins_chain hp).around place hplace
  obtain ⟨i, hi, rfl⟩ := List.mem_map.mp hword
  obtain ⟨hi, hig⟩ := List.mem_filter.mp (List.mem_reverse.mp hi)
  have hig : i.isGroup = false := by simpa using hig
  obtain ⟨front, rest, hsplit⟩ := List.append_of_mem hi
  have hsuf : i :: rest <:+ p.chain := ⟨front, hsplit.symm⟩
  rcases h.chain_placed hp hsuf with ⟨rfl, -⟩ | hmem
  · cases hig
  rw [Span.encloses_iff] at hencloses haround
  have hne : q ≠ ⟨i, rest⟩ := ne_of_group hig hqg
  have hle : q.item.start ≤ i.start := Nat.le_trans hencloses.1 haround.1
  have hlt : q.item.start < i.start := Nat.lt_of_le_of_ne hle (h.start_ne hq hmem hne)
  have hstop : i.span.stop ≤ s.stopOf (size t) q.item := Nat.le_trans haround.2 hencloses.2
  have hscope : q.item ∈ rest := by
    refine (h.group_around_iff hmem hq hqg (hcolon _ hmem)).mpr ⟨hlt, ?_⟩
    rw [Scan.stopOf_word hig]
    exact hstop
  have hchain : q.item ∈ p.chain := hsuf.subset (List.mem_cons_of_mem _ hscope)
  refine (List.mem_cons.mp hchain).resolve_left ?_
  intro he
  rw [he, hpg] at hqg
  cases hqg

/-- No place of a rule holds the parenthesis of a group. -/
theorem opening_not_in_place (h : Layout ended t s) (hp : p ∈ s.placed)
    (hpg : p.item.isGroup = false) (hq : q ∈ s.placed) (hqg : q.item.isGroup = true)
    {place : Span} (hplace : place ∈ (Rule.ofChain p.item p.scopes).spans) :
    place.contains q.item.start = false := by
  have hordered := h.ordered_tree (Nat.le_refl (size t))
  have hmade := h.madeOf (List.prefix_refl t) hp hpg
  rw [← Bool.not_eq_true]
  intro hcontains
  obtain ⟨w, hw, hwn⟩ := (hmade.union q.item.start).mp ⟨place, hplace, hcontains⟩
  obtain ⟨hw, hwg, -⟩ := hordered.mem_path.mp hw
  rcases Scan.mem_nodes.mp hw with rfl | ⟨v, hv, rfl⟩
  · cases hwg
  · rw [span_of_word hw hwg] at hwn
    rw [show (s.nodeOf (size t) v).item = v.item from rfl,
      h.opening_not_in_word hv hq hwg hqg] at hwn
    cases hwn

/-- A group around a name is around the place of the name. That place may
start in front of the name, but not in front of the parenthesis. -/
theorem encloses_of_mem_scopes (h : Layout ended t s) (hp : p ∈ s.placed)
    (hpg : p.item.isGroup = false) (hq : q ∈ s.placed) (hqg : q.item.isGroup = true)
    (hmem : q.item ∈ p.scopes) : ∃ place ∈ (Rule.ofChain p.item p.scopes).spans,
      (s.nodeOf (size t) q).span.encloses place = true := by
  obtain ⟨place, hlast, hloc, hstop⟩ := (h.madeOf (List.prefix_refl t) hp hpg).loc
  have hplace := List.mem_of_getLast? hlast
  have hapart := h.opening_not_in_place hp hpg hq hqg hplace
  have hlt := h.scope_start_lt hp hq hmem
  have hle := h.stop_le_group_stop hp hq hqg hmem
  rw [Scan.stopOf_word hpg] at hle
  have hlocStop : (Rule.ofNode (s.nodeOf (size t) p)).loc.stop = p.item.span.stop := rfl
  have hname : p.item.start ≤ p.item.span.stop := Nat.le_add_right _ _
  refine ⟨place, hplace, Span.encloses_iff.mpr ⟨?_, ?_⟩⟩
  · show q.item.start ≤ place.start
    rw [← Bool.not_eq_true, Span.contains_iff] at hapart
    omega
  · show place.stop ≤ s.stopOf (size t) q.item
    omega

theorem root_encloses_rule (h : Layout ended t s) (hp : p ∈ s.placed)
    (hpg : p.item.isGroup = false) :
    ∃ place ∈ (Rule.ofChain p.item p.scopes).spans,
      (s.tree (size t)).root.span.encloses place = true := by
  obtain ⟨place, hlast, -, hstop⟩ := (h.madeOf (List.prefix_refl t) hp hpg).loc
  refine ⟨place, List.mem_of_getLast? hlast, Span.encloses_iff.mpr ⟨Nat.zero_le _, ?_⟩⟩
  rw [hstop]
  exact (h.standsIn hp hpg).stop_le

/-- The rules with a place in a group are the rules of the names in it. -/
theorem rules_in_group (h : Layout ended t s) (hcolon : ∀ p ∈ s.placed, p.BehindColon t) {g : Node}
    (hg : g ∈ (s.tree (size t)).nodes) (hgroup : g.item.isGroup = true) :
    ((s.tree (size t)).rules.filter fun r => r.spans.any g.span.encloses) =
      (s.tree (size t)).rulesUnder g.id := by
  apply Tree.filter_rules
  intro last hlast
  obtain ⟨p, hp, hpg, rfl⟩ := mem_terminals hlast
  rw [Bool.eq_iff_iff, List.any_eq_true, decide_eq_true_eq]
  rcases Scan.mem_nodes.mp hg with rfl | ⟨q, hq, rfl⟩
  · refine iff_of_true (h.root_encloses_rule hp hpg) ?_
    exact List.mem_map_of_mem (List.mem_cons_of_mem _ (h.root_mem_scopes hp))
  · have hqp : q ≠ p := ne_of_group hpg hgroup
    refine Iff.trans ?_ (h.id_mem_ancestors hq hp hqp).symm
    constructor
    · rintro ⟨place, hplace, hencloses⟩
      exact h.mem_scopes_of_encloses hcolon hp hpg hq hgroup hplace hencloses
    · exact h.encloses_of_mem_scopes hp hpg hq hgroup

end Layout

/-! ## The smallest group -/

/-- The group holds the offset, and no group that holds it is shorter. -/
structure Tree.SmallestAt (t : Tree) (n : Nat) (g : Node) : Prop where
  mem : g ∈ t.nodes
  group : g.item.isGroup = true
  holds : g.span.contains n = true
  least : ∀ h ∈ t.nodes, h.item.isGroup = true → h.span.contains n = true →
    g.span.stop - g.span.start ≤ h.span.stop - h.span.start

theorem pairwise_getLast {l : List Node} {R : Node → Node → Prop} {x y : Node}
    (h : l.Pairwise R) (hx : l.getLast? = some x) (hy : y ∈ l) : y = x ∨ R y x := by
  obtain ⟨front, rfl⟩ := List.getLast?_eq_some_iff.mp hx
  rcases List.mem_append.mp hy with hy | hy
  · exact Or.inr ((List.pairwise_append.mp h).2.2 y hy x (by simp))
  · exact Or.inl (List.mem_singleton.mp hy)

namespace Layout

variable {ended : Bool} {t : Text} {s : Scan} {n : Nat}

/-- Of two groups that hold an offset, the first one is around the other. -/
theorem encloses_of_contains (h : Layout ended t s) {g m : Node}
    (hg : g ∈ (s.tree (size t)).nodes) (hm : m ∈ (s.tree (size t)).nodes)
    (hgg : g.item.isGroup = true) (hid : g.id < m.id)
    (hstart : g.item.start ≤ m.item.start) (hgn : g.span.contains n = true)
    (hmn : m.span.contains n = true) : g.span.encloses m.span = true := by
  rcases Scan.mem_nodes.mp hm with rfl | ⟨p, hp, rfl⟩
  · exact absurd hid (Nat.not_lt_zero _)
  rcases Scan.mem_nodes.mp hg with rfl | ⟨q, hq, rfl⟩
  · exact h.root_encloses hm
  have hqp : q ≠ p := by
    rintro rfl
    exact Nat.lt_irrefl _ hid
  have hne : q.item.start ≠ p.item.start := h.start_ne hq hp hqp
  have hle : q.item.start ≤ p.item.start := hstart
  rcases h.groups_laminar hp hq hgg (by omega) with henc | hapart
  · exact henc
  · rw [Span.contains_iff] at hgn hmn
    omega

theorem groupAt_spec (h : Layout ended t s) (hn : n < size t) :
    (s.tree (size t)).groupAt n ∈ (s.tree (size t)).nodes ∧
      ((s.tree (size t)).groupAt n).item.isGroup = true ∧
      ((s.tree (size t)).groupAt n).span.contains n = true ∧
      ∀ g ∈ (s.tree (size t)).nodes, g.item.isGroup = true → g.span.contains n = true →
        g.span.encloses ((s.tree (size t)).groupAt n).span = true := by
  have hordered := h.ordered_tree (Nat.le_refl (size t))
  have hroot : (s.tree (size t)).root.span.contains n = true :=
    Span.contains_iff.mpr ⟨Nat.zero_le _, hn⟩
  have hmem : (s.tree (size t)).root ∈
      (s.tree (size t)).nodes.filter fun m => m.item.isGroup && m.span.contains n := by
    rw [List.mem_filter, Bool.and_eq_true]
    exact ⟨List.mem_cons_self, rfl, hroot⟩
  obtain ⟨m, hm⟩ : ∃ m, ((s.tree (size t)).nodes.filter fun m =>
      m.item.isGroup && m.span.contains n).getLast? = some m := by
    rw [← Option.isSome_iff_exists, List.getLast?_isSome]
    exact List.ne_nil_of_mem hmem
  have hgroupAt : (s.tree (size t)).groupAt n = m := by
    unfold Tree.groupAt
    rw [hm]
    rfl
  obtain ⟨hnode, hholds⟩ := List.mem_filter.mp (List.mem_of_getLast? hm)
  rw [Bool.and_eq_true] at hholds
  rw [hgroupAt]
  refine ⟨hnode, hholds.1, hholds.2, ?_⟩
  intro g hg hgg hgn
  have hpair := (hordered.increasing.and hordered.starts).filter
    fun m => m.item.isGroup && m.span.contains n
  have hgmem : g ∈ (s.tree (size t)).nodes.filter fun m =>
      m.item.isGroup && m.span.contains n := by
    rw [List.mem_filter, Bool.and_eq_true]
    exact ⟨hg, hgg, hgn⟩
  rcases pairwise_getLast hpair hm hgmem with rfl | ⟨hid, hstart⟩
  · exact Span.encloses_refl _
  · exact h.encloses_of_contains hg hnode hgg hid hstart hgn hholds.2

theorem smallestAt_groupAt (h : Layout ended t s) (hn : n < size t) :
    (s.tree (size t)).SmallestAt n ((s.tree (size t)).groupAt n) := by
  obtain ⟨hmem, hgroup, hholds, hleast⟩ := h.groupAt_spec hn
  refine ⟨hmem, hgroup, hholds, ?_⟩
  intro g hg hgg hgn
  have := Span.encloses_iff.mp (hleast g hg hgg hgn)
  omega

/-- Two smallest groups have one range. -/
theorem span_smallestAt (h : Layout ended t s) (hn : n < size t) {g : Node}
    (hg : (s.tree (size t)).SmallestAt n g) :
    g.span = ((s.tree (size t)).groupAt n).span := by
  obtain ⟨hmem, hgroup, hholds, hleast⟩ := h.groupAt_spec hn
  have henc := Span.encloses_iff.mp (hleast g hg.mem hg.group hg.holds)
  have hlen := hg.least _ hmem hgroup hholds
  rw [Span.contains_iff] at hholds
  have hstart : g.span.start = ((s.tree (size t)).groupAt n).span.start := by omega
  have hstop : g.span.stop = ((s.tree (size t)).groupAt n).span.stop := by omega
  exact congrArg₂ Span.mk hstart hstop

/-- Past the end of the text no group holds the offset. -/
theorem groupAt_of_le (h : Layout ended t s) (hn : size t ≤ n) :
    (s.tree (size t)).groupAt n = (s.tree (size t)).root := by
  have hnil : ((s.tree (size t)).nodes.filter fun m =>
      m.item.isGroup && m.span.contains n) = [] := by
    rw [List.filter_eq_nil_iff]
    intro m hm hholds
    rw [Bool.and_eq_true, Span.contains_iff] at hholds
    have hroot := Span.encloses_iff.mp (h.root_encloses hm)
    have hsize : (s.tree (size t)).root.span.stop = size t := rfl
    omega
  unfold Tree.groupAt
  rw [hnil]
  rfl

/-! ## The answer -/

/-- The words that no rule is made up of are no answer. -/
theorem rulesAt_unused (h : Layout ended t s) (htree : Tree.ofText t = s.tree (size t))
    (hnone : ∀ w ∈ (s.tree (size t)).words, w.span.contains n = true →
      ∀ last ∈ (s.tree (size t)).terminals, w.id ∉ last.ancestors) :
    t.rulesAt n = t.rules.filter fun r =>
      r.spans.any ((s.tree (size t)).groupAt n).span.encloses := by
  have hany : t.rules.any (·.isAt n) = false := by
    unfold Text.rules
    rw [List.any_eq_false, htree]
    intro r hr hat
    obtain ⟨last, hlast, rfl⟩ := List.mem_map.mp hr
    obtain ⟨w, hw, hid, hwn⟩ := (h.isAt_iff hlast n).mp hat
    exact hnone w hw hwn last hlast hid
  unfold rulesAt
  dsimp only
  rw [hany, htree]
  rfl

theorem rulesAt_word (h : Layout ended t s) (htree : Tree.ofText t = s.tree (size t)) {w : Node}
    (hw : w ∈ (s.tree (size t)).words) (hwn : w.span.contains n = true)
    (hused : ∃ last ∈ (s.tree (size t)).terminals, w.id ∈ last.ancestors) :
    t.rulesAt n = (s.tree (size t)).rulesUnder w.id := by
  have hrules : t.rules = (s.tree (size t)).rules := congrArg Tree.rules htree
  -- A rule is at the offset exactly if this word is on the way to its name.
  have hat : ∀ last ∈ (s.tree (size t)).terminals,
      (Rule.ofNode last).isAt n = decide (w.id ∈ last.ancestors) := by
    intro last hlast
    rw [Bool.eq_iff_iff, h.isAt_iff hlast n, decide_eq_true_eq]
    constructor
    · rintro ⟨v, hv, hid, hvn⟩
      rw [h.word_unique hw hv hwn hvn]
      exact hid
    · intro hid
      exact ⟨w, hw, hid, hwn⟩
  obtain ⟨last, hlast, hid⟩ := hused
  have hany : t.rules.any (·.isAt n) = true := by
    rw [List.any_eq_true, hrules]
    exact ⟨_, List.mem_map_of_mem hlast, by rw [hat last hlast]; simpa using hid⟩
  unfold rulesAt
  dsimp only
  rw [hany, if_pos rfl, hrules]
  exact Tree.filter_rules hat

theorem rulesAt_past_end (h : Layout ended t s) (htree : Tree.ofText t = s.tree (size t))
    (hn : size t ≤ n) : t.rulesAt n = t.rules := by
  have hnone : ∀ w ∈ (s.tree (size t)).words, w.span.contains n = true →
      ∀ last ∈ (s.tree (size t)).terminals, w.id ∉ last.ancestors := by
    intro w hw hwn
    have hle := ((h.tiles (List.prefix_refl t)).in_read w hw).2
    rw [Span.contains_iff] at hwn
    omega
  rw [h.rulesAt_unused htree hnone, h.groupAt_of_le hn, List.filter_eq_self]
  unfold Text.rules
  rw [htree]
  intro r hr
  obtain ⟨last, hlast, rfl⟩ := List.mem_map.mp hr
  obtain ⟨p, hp, hpg, rfl⟩ := mem_terminals hlast
  rw [List.any_eq_true]
  exact h.root_encloses_rule hp hpg

end Layout

/-! ## The law -/

/-- At a word that some rule is made up of, the answer is the rules of the
names below that word. Elsewhere it is the rules of the names in the smallest
group around the offset, and past the end of the text all rules. -/
theorem rules_at_an_offset (t : Text) (n : Nat) :
    (∀ w ∈ (Tree.ofText t).words, w.span.contains n = true →
      (∃ last ∈ (Tree.ofText t).terminals, w.id ∈ last.ancestors) →
      t.rulesAt n = (Tree.ofText t).rulesUnder w.id) ∧
    ((∀ w ∈ (Tree.ofText t).words, w.span.contains n = true →
        ∀ last ∈ (Tree.ofText t).terminals, w.id ∉ last.ancestors) →
      n < size t →
      (∃ g, (Tree.ofText t).SmallestAt n g) ∧
        ∀ g, (Tree.ofText t).SmallestAt n g → t.rulesAt n = (Tree.ofText t).rulesUnder g.id) ∧
    (size t ≤ n → t.rulesAt n = t.rules) := by
  obtain ⟨ended, s, hl, htree, hcolon⟩ := Tree.layout_behindColon t
  have hrules : t.rules = (s.tree (size t)).rules := congrArg Tree.rules htree
  rw [htree]
  refine ⟨fun w hw hwn hused => hl.rulesAt_word htree hw hwn hused, ?_,
    hl.rulesAt_past_end htree⟩
  intro hnone hn
  refine ⟨⟨_, hl.smallestAt_groupAt hn⟩, ?_⟩
  intro g hg
  rw [hl.rulesAt_unused htree hnone, hrules, ← hl.span_smallestAt hn hg]
  exact hl.rules_in_group hcolon hg.mem hg.group

/-- In `sm:(a b()) c` the rules at `sm:` are those of the name behind it. The
empty group behind `b` leaves it without a rule, so there the outer group counts. -/
theorem rules_at_an_offset_of_an_unused_word :
    (∃ w ∈ (Tree.ofText "sm:(a b()) c".toList).words, w.span = ⟨0, 3⟩ ∧
      Text.rulesAt 1 "sm:(a b()) c".toList =
        (Tree.ofText "sm:(a b()) c".toList).rulesUnder w.id) ∧
    (∃ g ∈ (Tree.ofText "sm:(a b()) c".toList).nodes, g.span = ⟨3, 10⟩ ∧
      Text.rulesAt 6 "sm:(a b()) c".toList =
        (Tree.ofText "sm:(a b()) c".toList).rulesUnder g.id) ∧
    (Text.rulesAt 6 "sm:(a b()) c".toList).map Rule.raw = ["a".toList] ∧
    Text.rulesAt 12 "sm:(a b()) c".toList = Text.rules "sm:(a b()) c".toList := by
  refine ⟨?_, ?_, by decide, (rules_at_an_offset _ 12).2.2 (by decide)⟩
  · obtain ⟨w, hw, hspan, hat, hused⟩ : ∃ w ∈ (Tree.ofText "sm:(a b()) c".toList).words,
        w.span = ⟨0, 3⟩ ∧ w.span.contains 1 = true ∧
        ∃ last ∈ (Tree.ofText "sm:(a b()) c".toList).terminals, w.id ∈ last.ancestors := by
      decide
    exact ⟨w, hw, hspan, (rules_at_an_offset _ 1).1 w hw hat hused⟩
  · have hspan : ∀ g ∈ (Tree.ofText "sm:(a b()) c".toList).nodes, g.item.isGroup = true →
        g.span.contains 6 = true → (∀ h ∈ (Tree.ofText "sm:(a b()) c".toList).nodes,
          h.item.isGroup = true → h.span.contains 6 = true →
          g.span.stop - g.span.start ≤ h.span.stop - h.span.start) → g.span = ⟨3, 10⟩ := by
      decide
    obtain ⟨⟨g, hg⟩, hrules⟩ := (rules_at_an_offset "sm:(a b()) c".toList 6).2.1
      (by decide) (by decide)
    exact ⟨g, hg.mem, hspan g hg.mem hg.group hg.holds hg.least, hrules g hg⟩

end ClassList
