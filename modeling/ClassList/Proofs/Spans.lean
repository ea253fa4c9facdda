-- The laws of the places of a rule. A rule is made up of the words on the way
-- from the root to its name. Where two of them touch they are one place, so the
-- places are as few as can be, and together they hold these words and no more.
import Mathlib
import ClassList.Rule.Query
import ClassList.Proofs.Groups

namespace ClassList

open Text

/-! ## Joining places that touch -/

theorem Text.slice_split {t : Text} {a m b : Nat} (hm : isBoundary m t = true) (ham : a ≤ m)
    (hmb : m ≤ b) : slice ⟨a, b⟩ t = slice ⟨a, m⟩ t ++ slice ⟨m, b⟩ t := by
  obtain ⟨x, y, rfl, rfl⟩ := isBoundary_iff.mp hm
  unfold slice
  rw [upTo_append_of_ge x y hmb, upTo_size_append, after_append_of_le x _ ham, after_size_append]

/-- The joined places hold what the places hold, and no two of them touch. -/
structure Joins (places joined : List Span) : Prop where
  first : joined.head?.map Span.start = places.head?.map Span.start
  valid : ∀ s ∈ joined, s.start ≤ s.stop
  separated : joined.Pairwise fun a b => a.stop < b.start
  same : ∀ n, (∃ s ∈ joined, s.contains n = true) ↔ ∃ s ∈ places, s.contains n = true
  last : ∀ s ∈ places.getLast?, ∃ j ∈ joined.getLast?, j.encloses s = true ∧ j.stop = s.stop
  around : ∀ j ∈ joined, ∃ s ∈ places, j.encloses s = true
  text : ∀ t : Text, (∀ s ∈ places, isBoundary s.stop t = true) →
    joined.flatMap (slice · t) = places.flatMap (slice · t)

namespace Joins

variable {places joined rest : List Span} {s f : Span}

theorem nil : Joins [] [] := by
  constructor <;> simp

theorem nil_iff (h : Joins places joined) : joined = [] ↔ places = [] := by
  have hfirst := h.first
  cases places <;> cases joined <;> simp_all

/-- A place that touches the first one becomes a part of it. -/
theorem cons_touching (h : Joins places (f :: rest)) (hs : s.start ≤ s.stop)
    (htouch : f.start = s.stop) : Joins (s :: places) (⟨s.start, f.stop⟩ :: rest) := by
  have hvalid := h.valid f List.mem_cons_self
  have hne : places ≠ [] := fun hnil => List.cons_ne_nil _ _ (h.nil_iff.mpr hnil)
  constructor
  case first => rfl
  case valid =>
    intro j hj
    rcases List.mem_cons.mp hj with rfl | hj
    · show s.start ≤ f.stop
      omega
    · exact h.valid j (List.mem_cons_of_mem _ hj)
  case separated =>
    obtain ⟨hfront, hrest⟩ := List.pairwise_cons.mp h.separated
    exact List.Pairwise.cons hfront hrest
  case same =>
    intro n
    have hn := h.same n
    simp only [List.exists_mem_cons_iff, Span.contains_iff] at hn ⊢
    rw [← hn]
    constructor
    · rintro (⟨hstart, hstop⟩ | hr)
      · by_cases hcut : n < s.stop
        · exact Or.inl ⟨hstart, hcut⟩
        · exact Or.inr (Or.inl ⟨by omega, hstop⟩)
      · exact Or.inr (Or.inr hr)
    · rintro (⟨hstart, hstop⟩ | ⟨hstart, hstop⟩ | hr)
      · exact Or.inl ⟨hstart, by omega⟩
      · exact Or.inl ⟨by omega, hstop⟩
      · exact Or.inr hr
  case last =>
    intro p hp
    rw [List.getLast?_cons_of_ne_nil hne] at hp
    obtain ⟨j, hj, hencloses, hstop⟩ := h.last p hp
    cases rest with
    | nil =>
      obtain rfl : f = j := by simpa using hj
      rw [Span.encloses_iff] at hencloses
      refine ⟨⟨s.start, f.stop⟩, rfl, Span.encloses_iff.mpr ⟨?_, hencloses.2⟩, hstop⟩
      show s.start ≤ p.start
      omega
    | cons g rest => exact ⟨j, by simpa using hj, hencloses, hstop⟩
  case around =>
    intro j hj
    rcases List.mem_cons.mp hj with rfl | hj
    · refine ⟨s, List.mem_cons_self, Span.encloses_iff.mpr ⟨Nat.le_refl _, ?_⟩⟩
      show s.stop ≤ f.stop
      omega
    · obtain ⟨p, hp, hencloses⟩ := h.around j (List.mem_cons_of_mem _ hj)
      exact ⟨p, List.mem_cons_of_mem _ hp, hencloses⟩
  case text =>
    intro t ht
    have hcut := slice_split (ht s List.mem_cons_self) hs (by omega : s.stop ≤ f.stop)
    have hfirst : (⟨s.stop, f.stop⟩ : Span) = f := by rw [← htouch]
    have htext := h.text t fun p hp => ht p (List.mem_cons_of_mem _ hp)
    rw [List.flatMap_cons] at htext
    rw [List.flatMap_cons, List.flatMap_cons, ← htext, hcut, hfirst, List.append_assoc]

/-- A place in front of the first one stays a place of its own. -/
theorem cons_apart (h : Joins places joined) (hs : s.start ≤ s.stop)
    (hlt : ∀ j ∈ joined.head?, s.stop < j.start) : Joins (s :: places) (s :: joined) := by
  constructor
  case first => rfl
  case valid =>
    intro j hj
    rcases List.mem_cons.mp hj with rfl | hj
    · exact hs
    · exact h.valid j hj
  case separated =>
    refine List.Pairwise.cons ?_ h.separated
    intro j hj
    cases joined with
    | nil => cases hj
    | cons f rest =>
      have hf := hlt f rfl
      rcases List.mem_cons.mp hj with rfl | hj
      · exact hf
      · have hvalid := h.valid f List.mem_cons_self
        have hfront := (List.pairwise_cons.mp h.separated).1 j hj
        omega
  case same =>
    intro n
    rw [List.exists_mem_cons_iff, h.same n, List.exists_mem_cons_iff]
  case last =>
    intro p hp
    by_cases hnil : places = []
    · rw [hnil] at hp
      obtain rfl : s = p := by simpa using hp
      rw [h.nil_iff.mpr hnil]
      exact ⟨s, rfl, Span.encloses_refl _, rfl⟩
    · have hne : joined ≠ [] := fun hj => hnil (h.nil_iff.mp hj)
      rw [List.getLast?_cons_of_ne_nil hnil] at hp
      rw [List.getLast?_cons_of_ne_nil hne]
      exact h.last p hp
  case around =>
    intro j hj
    rcases List.mem_cons.mp hj with rfl | hj
    · exact ⟨j, List.mem_cons_self, Span.encloses_refl _⟩
    · obtain ⟨p, hp, hencloses⟩ := h.around j hj
      exact ⟨p, List.mem_cons_of_mem _ hp, hencloses⟩
  case text =>
    intro t ht
    have htext := h.text t fun p hp => ht p (List.mem_cons_of_mem _ hp)
    rw [List.flatMap_cons, htext, List.flatMap_cons]

theorem addSpan (h : Joins places joined) (hs : s.start ≤ s.stop)
    (hle : ∀ p ∈ places.head?, s.stop ≤ p.start) :
    Joins (s :: places) (Rule.addSpan joined s) := by
  have hfirst : ∀ f ∈ joined.head?, s.stop ≤ f.start := by
    intro f hf
    have hmap := h.first
    rw [Option.mem_def.mp hf] at hmap
    obtain ⟨p, hp, he⟩ := Option.map_eq_some_iff.mp hmap.symm
    rw [← he]
    exact hle p hp
  unfold Rule.addSpan
  split
  · exact h.cons_apart hs (by simp)
  · rename_i f rest
    split
    · exact h.cons_touching hs (by assumption)
    · rename_i hapart
      have := hfirst f rfl
      refine h.cons_apart hs ?_
      intro j hj
      obtain rfl : f = j := by simpa using hj
      omega

end Joins

/-- The places of ordered words, taken from the last word to the first. -/
theorem joins_foldl {places : List Span} (hs : ∀ s ∈ places, s.start ≤ s.stop)
    (ho : places.Pairwise fun a b => a.stop ≤ b.start) :
    Joins places (places.reverse.foldl Rule.addSpan []) := by
  rw [List.foldl_reverse]
  induction places with
  | nil => exact Joins.nil
  | cons s places ih =>
    obtain ⟨hfront, ho⟩ := List.pairwise_cons.mp ho
    apply (ih (fun p hp => hs p (List.mem_cons_of_mem _ hp)) ho).addSpan
    · exact hs s List.mem_cons_self
    · intro p hp
      exact hfront p (List.mem_of_mem_head? hp)

/-! ## The words on the way to a node -/

/-- The words from the root to a node, with the node itself. -/
def Tree.path (t : Tree) (n : Node) : List Node :=
  (n.ancestors.reverse.filterMap t.node?).filter fun m => !m.item.isGroup

theorem pairwise_of_suffix {l : List Item} {R : Item → Item → Prop}
    (h : ∀ i rest, i :: rest <:+ l → ∀ j ∈ rest, R i j) : l.Pairwise R := by
  induction l with
  | nil => exact List.Pairwise.nil
  | cons i l ih =>
    refine List.Pairwise.cons (h i l (List.suffix_refl _)) (ih ?_)
    intro j rest hsuf
    exact h j rest (hsuf.trans (List.suffix_cons i l))

namespace Tree.Ordered

variable {t : Tree}

/-- The nodes on the way hold the items of the chain. -/
theorem path_items (h : t.Ordered) {n : Node} (hn : n ∈ t.nodes) :
    (t.path n).map (·.item) = (n.chain.filter (!·.isGroup)).reverse := by
  obtain ⟨-, hknown⟩ := h.chain_known n hn
  have hfind : ∀ i ∈ n.chain.reverse, (t.node? i.id).map (·.item) = some i := by
    intro i hi
    obtain ⟨front, rest, hsplit⟩ := List.append_of_mem (List.mem_reverse.mp hi)
    obtain ⟨m, hm, hplaced⟩ := hknown i rest ⟨front, hsplit.symm⟩
    have hitem : m.item = i := congrArg Placed.item hplaced
    have hnode := h.node_of_mem hm
    rw [show m.id = i.id from congrArg Item.id hitem] at hnode
    rw [hnode, Option.map_some, hitem]
  have hitems : (n.ancestors.reverse.filterMap t.node?).map (·.item) = n.chain.reverse := by
    unfold Node.ancestors
    rw [← List.map_reverse, List.filterMap_map, List.map_filterMap]
    exact (List.filterMap_congr hfind).trans (List.filterMap_some)
  unfold path
  rw [← List.filter_reverse, ← hitems, List.filter_map]
  rfl

theorem mem_path (h : t.Ordered) {n w : Node} :
    w ∈ t.path n ↔ w ∈ t.nodes ∧ w.item.isGroup = false ∧ w.id ∈ n.ancestors := by
  unfold path
  rw [List.mem_filter, List.mem_filterMap, Bool.not_eq_true']
  constructor
  · rintro ⟨⟨i, hi, hfind⟩, hg⟩
    have hid : w.id = i := by simpa using List.find?_some hfind
    exact ⟨List.mem_of_find?_eq_some hfind, hg, hid ▸ List.mem_reverse.mp hi⟩
  · rintro ⟨hw, hg, hi⟩
    exact ⟨⟨w.id, List.mem_reverse.mpr hi, h.node_of_mem hw⟩, hg⟩

end Tree.Ordered

/-! ## The chain of an item -/

namespace Layout

variable {ended : Bool} {a t : Text} {s : Scan} {p : Placed}

theorem chain_placed (h : Layout ended a s) (hp : p ∈ s.placed) {i : Item} {rest : List Item}
    (hi : i :: rest <:+ p.chain) : (i = .root ∧ rest = []) ∨ ⟨i, rest⟩ ∈ s.placed := by
  rcases List.suffix_cons_iff.mp hi with he | hi
  · obtain ⟨rfl, rfl⟩ := List.cons.inj he
    exact Or.inr hp
  · obtain ⟨before, raw, tail, s₀, k, hl, -, -, rfl, hsuf, -⟩ := h.origin p hp
    rcases hl.entered hi with hroot | ⟨hmem, -⟩
    · exact Or.inl hroot
    · exact Or.inr (hsuf.subset (List.mem_cons_of_mem _ hmem))

theorem chain_standsIn (h : Layout ended a s) (hp : p ∈ s.placed) {i : Item} (hi : i ∈ p.chain)
    (hg : i.isGroup = false) : i.StandsIn a := by
  obtain ⟨front, rest, hsplit⟩ := List.append_of_mem hi
  rcases h.chain_placed hp ⟨front, hsplit.symm⟩ with ⟨rfl, -⟩ | hmem
  · cases hg
  · exact h.standsIn hmem hg

/-- The words of a chain stand one behind the other, here the innermost first. -/
theorem chain_ordered (h : Layout ended a s) (hp : p ∈ s.placed) :
    (p.chain.filter (!·.isGroup)).Pairwise fun i j => j.span.stop ≤ i.span.start := by
  rw [List.pairwise_filter]
  apply pairwise_of_suffix
  intro i rest hsuf j hj hi hgj
  rcases h.chain_placed hp hsuf with ⟨-, rfl⟩ | hmem
  · cases hj
  · exact h.scope_stop_le hmem hj (by simpa using hgj)

theorem joins_chain (h : Layout ended a s) (hp : p ∈ s.placed) :
    Joins ((p.chain.filter (!·.isGroup)).reverse.map Item.span)
      (Rule.ofChain p.item p.scopes).spans := by
  have hspans : (Rule.ofChain p.item p.scopes).spans =
      (((p.chain.filter (!·.isGroup)).reverse.map Item.span).reverse).foldl Rule.addSpan [] := by
    rw [← List.map_reverse, List.reverse_reverse]
    rfl
  rw [hspans]
  apply joins_foldl
  · intro place hplace
    obtain ⟨i, -, rfl⟩ := List.mem_map.mp hplace
    exact Nat.le_add_right _ _
  · rw [List.pairwise_map, List.pairwise_reverse]
    exact h.chain_ordered hp

end Layout

/-! ## The law -/

/-- The rule is made up of the words on the way to its name, and its places
are the fewest that hold them. -/
structure Rule.MadeOf (r : Rule) (t : Text) (path : List Node) : Prop where
  nonempty : r.spans ≠ []
  separated : r.spans.Pairwise fun a b => a.stop < b.start
  loc : ∃ last ∈ r.spans.getLast?, last.encloses r.loc = true ∧ last.stop = r.loc.stop
  raw : slice r.loc t = r.raw
  variants : ∀ v ∈ r.variants, slice v.loc t = v.raw
  union : ∀ n, (∃ s ∈ r.spans, s.contains n = true) ↔ ∃ w ∈ path, w.span.contains n = true
  text : r.spans.flatMap (slice · t) = path.flatMap (·.item.raw)

namespace Layout

variable {ended : Bool} {a t : Text} {s : Scan} {p : Placed}

theorem ends_in_name (h : Layout true a s) :
    ∃ p, s.placed.head? = some p ∧ p.item.isGroup = false ∧
      p.item.identifier?.isSome = true := by
  cases h with
  | name closed _ _ => exact ⟨_, rfl, rfl, rfl⟩

/-- A word node stands where its item does. -/
theorem span_of_word {n : Nat} {w : Node} (hw : w ∈ (s.tree n).nodes)
    (hg : w.item.isGroup = false) : w.span = w.item.span := by
  rcases Scan.mem_nodes.mp hw with rfl | ⟨q, -, rfl⟩
  · cases hg
  · rw [Scan.nodeOf_word (p := q) hg]
    rfl

theorem path_spans (h : (s.tree (size t)).Ordered) {n : Node} (hn : n ∈ (s.tree (size t)).nodes) :
    ((s.tree (size t)).path n).map Node.span =
      (n.chain.filter (!·.isGroup)).reverse.map Item.span := by
  rw [← h.path_items hn, List.map_map]
  apply List.map_congr_left
  intro w hw
  obtain ⟨hw, hg, -⟩ := h.mem_path.mp hw
  exact span_of_word hw hg

theorem madeOf (h : Layout ended a s) (ha : a <+: t) (hp : p ∈ s.placed)
    (hg : p.item.isGroup = false) :
    (Rule.ofNode (s.nodeOf (size t) p)).MadeOf t
      ((s.tree (size t)).path (s.nodeOf (size t) p)) := by
  obtain ⟨rest, rfl⟩ := ha
  have hordered : (s.tree (size (a ++ rest))).Ordered :=
    h.ordered_tree (by rw [size_append]; omega)
  have hnode : s.nodeOf (size (a ++ rest)) p ∈ (s.tree (size (a ++ rest))).nodes :=
    Scan.mem_nodes.mpr (Or.inr ⟨p, hp, rfl⟩)
  have hjoins := h.joins_chain hp
  have hstands : ∀ i ∈ (p.chain.filter (!·.isGroup)).reverse, i.StandsIn (a ++ rest) := by
    intro i hi
    obtain ⟨hi, hword⟩ := List.mem_filter.mp (List.mem_reverse.mp hi)
    exact (h.chain_standsIn hp hi (by simpa using hword)).append rest
  have hlast : ((p.chain.filter (!·.isGroup)).reverse.map Item.span).getLast? =
      some p.item.span := by
    simp [Placed.chain, hg]
  constructor
  case nonempty =>
    intro hnil
    rw [hjoins.nil_iff.mp hnil] at hlast
    cases hlast
  case separated => exact hjoins.separated
  case loc => exact hjoins.last _ hlast
  case raw => exact ((h.standsIn hp hg).append rest).slice_eq
  case variants =>
    intro v hv
    obtain ⟨i, hi, hvi⟩ := List.mem_filterMap.mp (List.mem_reverse.mp hv)
    rcases i with ⟨id, _ | w | w, start⟩
    · cases hvi
    · obtain rfl : (⟨w, _⟩ : PlacedVariant) = v := Option.some.inj hvi
      exact ((h.chain_standsIn hp hi rfl).append rest).slice_eq
    · cases hvi
  case union =>
    intro n
    have hspans := path_spans hordered hnode
    have hiff : (∃ w ∈ (s.tree (size (a ++ rest))).path (s.nodeOf (size (a ++ rest)) p),
        w.span.contains n = true) ↔
        ∃ place ∈ (p.chain.filter (!·.isGroup)).reverse.map Item.span,
          place.contains n = true := by
      rw [← show _ = (p.chain.filter (!·.isGroup)).reverse.map Item.span from hspans]
      simp
    rw [hiff]
    exact hjoins.same n
  case text =>
    have hitems := hordered.path_items hnode
    have hraw : ((s.tree (size (a ++ rest))).path (s.nodeOf (size (a ++ rest)) p)).flatMap
        (·.item.raw) = (p.chain.filter (!·.isGroup)).reverse.flatMap Item.raw := by
      rw [← show _ = (p.chain.filter (!·.isGroup)).reverse from hitems, List.flatMap_map]
    have hslices : ((p.chain.filter (!·.isGroup)).reverse.map Item.span).flatMap
        (slice · (a ++ rest)) = (p.chain.filter (!·.isGroup)).reverse.flatMap Item.raw := by
      rw [List.flatMap_map]
      exact List.flatMap_congr fun i hi => (hstands i hi).slice_eq
    rw [hraw, ← hslices]
    apply hjoins.text
    intro place hplace
    obtain ⟨i, hi, rfl⟩ := List.mem_map.mp hplace
    exact (hstands i hi).isBoundary_stop

end Layout

/-- The places of every rule, and of the rule being typed, hold the words on
the way to its name exactly, in order and joined where they touch. -/
theorem spans_cover_the_path (t : Text) :
    List.Forall₂ (fun last r => Rule.MadeOf r t ((Tree.ofText t).path last))
        (Tree.ofText t).terminals t.rules ∧
      ∀ n, (t.ruleTyped n).MadeOf t ((Tree.ofTextUpTo n t).path (Tree.ofTextUpTo n t).last) := by
  constructor
  · obtain ⟨ended, s, hl, htree⟩ := Tree.layout_ofText t
    unfold Text.rules Tree.rules
    rw [List.forall₂_map_right_iff, List.forall₂_same]
    intro last hlast
    rw [Tree.terminals_eq, htree, List.mem_filter, Scan.mem_words] at hlast
    obtain ⟨⟨p, hp, hg, rfl⟩, -⟩ := hlast
    rw [htree, ← Scan.nodeOf_word hg]
    exact hl.madeOf (List.prefix_refl t) hp hg
  · intro n
    obtain ⟨s, hl, htree⟩ := Tree.layout_ofTextUpTo n t
    obtain ⟨p, hp, hg, hsome⟩ := hl.ends_in_name
    have hlast : (Tree.ofTextUpTo n t).last = s.nodeOf (size t) p := by
      rw [htree]
      unfold Tree.last Scan.tree
      rw [List.getLast?_map, List.getLast?_reverse, hp]
      rfl
    have hrule : t.ruleTyped n = .ofNode (Tree.ofTextUpTo n t).last := by
      unfold ruleTyped
      exact if_pos (by rw [hlast]; exact hsome)
    rw [hrule, hlast, htree]
    exact hl.madeOf ⟨after n t, upTo_append_after n t⟩ (List.mem_of_mem_head? hp) hg

/-- Behind `x::` stands a third colon that belongs to no word, so the empty
name is a place of its own. -/
theorem spans_cover_the_path_past_a_colon :
    (Text.ruleTyped 13 "mx(sm:!2 x:::)".toList).spans = [⟨0, 2⟩, ⟨9, 12⟩, ⟨13, 13⟩] ∧
      (Text.ruleTyped 13 "mx(sm:!2 x:::)".toList).MadeOf "mx(sm:!2 x:::)".toList
        ((Tree.ofTextUpTo 13 "mx(sm:!2 x:::)".toList).path
          (Tree.ofTextUpTo 13 "mx(sm:!2 x:::)".toList).last) :=
  ⟨by decide, (spans_cover_the_path _).2 13⟩

end ClassList
