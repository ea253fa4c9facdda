-- The numbers and the nesting of what a scan places. Numbers grow in source
-- order, the scopes of an item are items in front of it, and no number is
-- given twice.
import Mathlib
import ClassList.Proofs.Words

namespace ClassList

open Text

/-! ## The invariant of the scopes -/

/-- The items of a scan are numbered, and every scope is one of them. -/
structure Scan.Nested (s : Scan) : Prop where
  numbered : s.placed.Pairwise fun p q => q.item.id < p.item.id
  bounds : ∀ p ∈ s.placed, 0 < p.item.id ∧ p.item.id ≤ s.placed.length
  stacked : s.scopes.Pairwise fun i j => j.id < i.id
  known : ∀ i ∈ s.scopes, i = .root ∨ ∃ p ∈ s.placed, p.item = i

namespace Scan

variable {s : Scan}

theorem Nested.scope_le (h : s.Nested) {i : Item} (hi : i ∈ s.scopes) : i.id ≤ s.placed.length := by
  rcases h.known i hi with rfl | ⟨p, hp, rfl⟩
  · exact Nat.zero_le _
  · exact (h.bounds p hp).2

/-- A new item has a number of its own. -/
theorem Nested.fresh (h : s.Nested) {p : Placed} (hp : p ∈ s.placed) (k : Kind) (n : Nat) :
    p.item ≠ s.item k n := by
  intro he
  have hle := (h.bounds p hp).2
  have hid : p.item.id = s.placed.length + 1 := by rw [he]; rfl
  omega

theorem nested_init : init.Nested := by
  constructor <;> simp [init]

theorem nested_place (h : s.Nested) (k : Kind) (n : Nat) : (s.place k n).Nested where
  numbered := by
    refine List.Pairwise.cons ?_ h.numbered
    intro p hp
    exact Nat.lt_succ_of_le (h.bounds p hp).2
  bounds := by
    intro p hp
    simp only [place_placed, List.length_cons]
    rcases List.mem_cons.mp hp with rfl | hp
    · exact ⟨Nat.succ_pos _, Nat.le_refl _⟩
    · exact ⟨(h.bounds p hp).1, Nat.le_succ_of_le (h.bounds p hp).2⟩
  stacked := h.stacked
  known := by
    intro i hi
    rcases h.known i hi with hr | ⟨p, hp, he⟩
    · exact Or.inl hr
    · exact Or.inr ⟨p, List.mem_cons_of_mem _ hp, he⟩

theorem nested_enter (h : s.Nested) (k : Kind) (n : Nat) : (s.enter k n).Nested := by
  have hp := nested_place h k n
  refine ⟨hp.numbered, hp.bounds, ?_, ?_⟩
  · exact List.Pairwise.cons (fun i hi => Nat.lt_succ_of_le (h.scope_le hi)) h.stacked
  · intro i hi
    rcases List.mem_cons.mp hi with rfl | hi
    · exact Or.inr ⟨_, List.mem_cons_self, rfl⟩
    · exact hp.known i hi

/-- Leaving scopes keeps the invariant. -/
theorem Nested.of_suffix {s' : Scan} (h : s.Nested) (hp : s'.placed = s.placed)
    (hs : s'.scopes <:+ s.scopes) : s'.Nested where
  numbered := hp ▸ h.numbered
  bounds := hp ▸ h.bounds
  stacked := h.stacked.sublist hs.sublist
  known := fun i hi => hp ▸ h.known i (hs.subset hi)

end Scan

/-- Every layout numbers its items. -/
theorem Layout.nested {ended : Bool} {a : Text} {s : Scan} (h : Layout ended a s) : s.Nested := by
  induction h with
  | start => exact Scan.nested_init
  | colon _ ih => exact ih.of_suffix rfl (List.suffix_refl _)
  | enter _ _ ih => exact (Scan.nested_enter ih _ _).of_suffix rfl (List.suffix_refl _)
  | name _ _ _ ih => exact (Scan.nested_place ih _ _).of_suffix rfl (List.suffix_refl _)
  | opening _ ih => exact (Scan.nested_enter ih _ _).of_suffix rfl (List.suffix_refl _)
  | closing _ _ ih => exact ih.of_suffix (by simp) (Scan.leaveWords_leaveGroup_suffix _ _)
  | blank _ _ _ ih => exact ih.of_suffix rfl (List.dropWhile_suffix _)

theorem getLast?_of_suffix {l l' : List Item} (h : l' <:+ l) (hne : l' ≠ []) :
    l'.getLast? = l.getLast? := by
  obtain ⟨front, rfl⟩ := h
  rw [List.getLast?_append_of_ne_nil front hne]

theorem ne_nil_of_root {scopes : List Item} (h : scopes.getLast? = some .root) : scopes ≠ [] := by
  intro hnil
  rw [hnil] at h
  cases h

/-- A blank leaves the root in scope. -/
theorem leaveWords_root {scopes : List Item} (h : scopes.getLast? = some .root) :
    (scopes.dropWhile (!·.isGroup)).getLast? = some .root := by
  rw [← h]
  apply getLast?_of_suffix (List.dropWhile_suffix _)
  intro hnil
  have hroot := List.dropWhile_eq_nil_iff.mp hnil _ (List.mem_of_getLast? h)
  cases hroot

/-- The outermost scope is always the root. -/
theorem Layout.root_scope {ended : Bool} {a : Text} {s : Scan} (h : Layout ended a s) :
    s.scopes.getLast? = some .root := by
  induction h with
  | start => rfl
  | colon _ ih => exact ih
  | enter _ _ ih => simp [List.getLast?_cons, ih]
  | name _ _ _ ih => exact ih
  | opening _ ih => simp [List.getLast?_cons, ih]
  | closing _ _ ih =>
    have hroot := leaveWords_root ih
    rw [Scan.restart_scopes, Scan.leaveGroup_scopes, Scan.leaveWords_scopes]
    split
    · exact hroot
    · rename_i hlen
      rw [← hroot]
      apply getLast?_of_suffix (List.tail_suffix _)
      intro hnil
      have := congrArg List.length hnil
      rw [List.length_tail, List.length_nil] at this
      omega
  | blank _ _ _ ih => exact leaveWords_root ih

/-- Two items with one number are one item. -/
theorem Scan.Nested.eq_of_id {s : Scan} (h : s.Nested) {p q : Placed} (hp : p ∈ s.placed)
    (hq : q ∈ s.placed) (hid : p.item.id = q.item.id) : p = q := by
  have hnodup : (s.placed.map fun p => p.item.id).Nodup :=
    List.pairwise_map.mpr (h.numbered.imp Nat.ne_of_gt)
  exact List.inj_on_of_nodup_map hnodup hp hq hid

/-! ## The links between scopes -/

namespace Layout

variable {ended : Bool} {a : Text} {s : Scan} {i : Item} {rest : List Item}

/-- Every scope but the root was placed in the scopes behind it in the list. It
is a group or a word that opened a scope there. -/
theorem entered (h : Layout ended a s) (hi : i :: rest <:+ s.scopes) :
    (i = .root ∧ rest = []) ∨
      (⟨i, rest⟩ ∈ s.placed ∧ (i.isGroup = true ∨ Opens rest i.start i.kind i.raw)) := by
  induction h with
  | start =>
    left
    simpa [Scan.init, List.suffix_cons_iff] using hi
  | colon _ ih => exact ih hi
  | @enter a raw s k _ ho ih =>
    rcases List.suffix_cons_iff.mp hi with he | hi
    · obtain ⟨rfl, rfl⟩ := List.cons.inj he
      rw [ho.item_raw]
      exact Or.inr ⟨List.mem_cons_self, Or.inr ho⟩
    · exact (ih hi).imp_right (.imp_left (List.mem_cons_of_mem _))
  | name _ _ _ ih => exact (ih hi).imp_right (.imp_left (List.mem_cons_of_mem _))
  | opening _ ih =>
    rcases List.suffix_cons_iff.mp hi with he | hi
    · obtain ⟨rfl, rfl⟩ := List.cons.inj he
      exact Or.inr ⟨List.mem_cons_self, Or.inl rfl⟩
    · exact (ih hi).imp_right (.imp_left (List.mem_cons_of_mem _))
  | closing _ _ ih => simpa using ih (hi.trans (Scan.leaveWords_leaveGroup_suffix _ _))
  | blank _ _ _ ih => exact ih (hi.trans (List.dropWhile_suffix _))

/-- Every word in scope opened a scope. -/
theorem scope_opens (h : Layout ended a s) (hi : i :: rest <:+ s.scopes)
    (hg : i.isGroup = false) : Opens rest i.start i.kind i.raw := by
  rcases h.entered hi with ⟨rfl, -⟩ | ⟨-, hgroup | ho⟩
  · cases hg
  · rw [hg] at hgroup
    cases hgroup
  · exact ho

end Layout

/-! ## The chain of an item -/

namespace Layout

variable {ended : Bool} {a : Text} {s : Scan} {p : Placed}

/-- The numbers of a chain fall from an item to the root. -/
theorem chain_pairwise (h : Layout ended a s) (hp : p ∈ s.placed) :
    p.chain.Pairwise fun i j => j.id < i.id := by
  obtain ⟨before, raw, rest, s₀, k, hl, -, -, rfl, -, -⟩ := h.origin p hp
  have hn := hl.nested
  exact List.Pairwise.cons (fun i hi => Nat.lt_succ_of_le (hn.scope_le hi)) hn.stacked

/-- A scope of an item is the root or an item of the same text. -/
theorem scope_known (h : Layout ended a s) (hp : p ∈ s.placed) {i : Item} (hi : i ∈ p.scopes) :
    i = .root ∨ ∃ q ∈ s.placed, q.item = i := by
  obtain ⟨before, raw, rest, s₀, k, hl, -, -, rfl, hsuf, -⟩ := h.origin p hp
  rcases hl.nested.known i hi with hr | ⟨q, hq, he⟩
  · exact Or.inl hr
  · exact Or.inr ⟨q, hsuf.subset (List.mem_cons_of_mem _ hq), he⟩

/-- A word in scope stands in the text. -/
theorem scope_standsIn (h : Layout ended a s) {i : Item} (hi : i ∈ s.scopes)
    (hg : i.isGroup = false) : i.StandsIn a := by
  rcases h.nested.known i hi with rfl | ⟨p, hp, rfl⟩
  · cases hg
  · exact h.standsIn hp hg

/-- A word in scope stops before the item starts. -/
theorem scope_stop_le (h : Layout ended a s) (hp : p ∈ s.placed) {i : Item} (hi : i ∈ p.scopes)
    (hg : i.isGroup = false) : i.span.stop ≤ p.item.start := by
  obtain ⟨before, raw, rest, s₀, k, hl, -, -, rfl, -, -⟩ := h.origin p hp
  exact (hl.scope_standsIn hi hg).stop_le

/-- Every item starts in front of what follows it. -/
theorem start_lt (h : Layout false a s) (hp : p ∈ s.placed) : p.item.start < size a := by
  obtain ⟨before, raw, rest, s₀, k, -, -, rfl, rfl, -, hleft⟩ := h.origin p hp
  have hpos := size_pos (hleft rfl)
  show size before < size (before ++ raw ++ rest)
  rw [List.append_assoc, size_append]
  omega

/-- Of two items, one was placed when the other one already stood. -/
theorem placed_before (h : Layout ended a s) {q : Placed} (hp : p ∈ s.placed) (hq : q ∈ s.placed)
    (hne : p ≠ q) (hle : p.item.start ≤ q.item.start) :
    ∃ before s₀ rest, Layout false before s₀ ∧ a = before ++ rest ∧ p ∈ s₀.placed ∧
      q.item.start = size before ∧ q.scopes = s₀.scopes := by
  obtain ⟨b, raw, rest, s₀, k, hl, -, ha, hqe, hqsuf, -⟩ := h.origin q hq
  refine ⟨b, s₀, raw ++ rest, hl, by simp [ha], ?_, by rw [hqe]; rfl, by rw [hqe]⟩
  obtain ⟨b₁, -, -, s₁, k₁, hl₁, -, -, hpe, hpsuf, -⟩ := h.origin p hp
  rcases List.suffix_or_suffix_of_suffix hpsuf hqsuf with hsuf | hsuf
  · rcases List.suffix_cons_iff.mp hsuf with heq | hsuf
    · exact absurd (List.cons.inj heq).1 hne
    · exact hsuf.subset List.mem_cons_self
  · rcases List.suffix_cons_iff.mp hsuf with heq | hsuf
    · exact absurd (List.cons.inj heq).1.symm hne
    · have hlt := hl₁.start_lt (hsuf.subset List.mem_cons_self)
      have hstart : p.item.start = size b₁ := by rw [hpe]; rfl
      omega

/-! ## Following the parents -/

/-- The parent of an item is the root, or was placed in the other scopes of
that item. -/
theorem parent_placed (h : Layout ended a s) (hp : p ∈ s.placed) {i : Item} {rest : List Item}
    (hs : p.scopes = i :: rest) : (i = .root ∧ rest = []) ∨ ⟨i, rest⟩ ∈ s.placed := by
  obtain ⟨before, raw, tail, s₀, k, hl, -, -, rfl, hsuf, -⟩ := h.origin p hp
  rcases hl.entered (hs ▸ List.suffix_refl _ : i :: rest <:+ s₀.scopes) with hr | ⟨hi, -⟩
  · exact Or.inl hr
  · exact Or.inr (hsuf.subset (List.mem_cons_of_mem _ hi))

/-- The number of an item finds its node. -/
theorem node_of_id (h : Layout ended a s) (hp : p ∈ s.placed) (size : Nat) :
    ∃ n, (s.tree size).node? p.item.id = some n ∧ n.toPlaced = p := by
  have hn := h.nested
  have hmem : ∀ n ∈ (s.tree size).nodes, n.id = p.item.id → n.toPlaced = p := by
    intro n hnode hid
    rcases List.mem_cons.mp hnode with rfl | hnode
    · have hpos := (hn.bounds p hp).1
      have hzero : (s.tree size).root.id = 0 := rfl
      omega
    · obtain ⟨q, hq, rfl⟩ := List.mem_map.mp hnode
      exact hn.eq_of_id (List.mem_reverse.mp hq) hp hid
  cases hfind : (s.tree size).node? p.item.id with
  | none =>
    have hnode : (⟨p, s.stopOf size p.item⟩ : Node) ∈ (s.tree size).nodes :=
      List.mem_cons_of_mem _ (List.mem_map.mpr ⟨p, List.mem_reverse.mpr hp, rfl⟩)
    exact absurd (beq_self_eq_true _) (List.find?_eq_none.mp hfind _ hnode)
  | some n =>
    have hid : n.id = p.item.id := by simpa using List.find?_some hfind
    exact ⟨n, rfl, hmem n (List.mem_of_find?_eq_some hfind) hid⟩

/-- The ancestors of a node are the node itself, its parent, and so on. -/
theorem ancestors_eq (h : Layout ended a s) (size : Nat) {n : Node}
    (hn : n ∈ (s.tree size).nodes) :
    n.ancestors = n.id :: (n.parent?.bind (s.tree size).node?).elim [] Node.ancestors := by
  rcases List.mem_cons.mp hn with rfl | hn
  · rfl
  · obtain ⟨p, hp, rfl⟩ := List.mem_map.mp hn
    obtain ⟨item, scopes⟩ := p
    cases scopes with
    | nil => rfl
    | cons i rest =>
      rcases h.parent_placed (List.mem_reverse.mp hp) rfl with ⟨rfl, rfl⟩ | hi
      · rfl
      · obtain ⟨m, hm, hmp⟩ := h.node_of_id hi size
        have hparent : (⟨⟨item, i :: rest⟩, s.stopOf size item⟩ : Node).parent? = some i.id := rfl
        rw [hparent, Option.bind_some, hm, Option.elim_some, Node.ancestors, Node.ancestors, hmp]
        rfl

end Layout

end ClassList
