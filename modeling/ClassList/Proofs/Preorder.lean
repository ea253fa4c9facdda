-- The nodes of a tree in preorder. A node that follows another one is in its scope or in
-- one of the scopes around that, so the thread of the nodes knows the whole tree.
import Mathlib
import ClassList.Proofs.Parentheses

namespace ClassList

open Text

/-! ## The nodes of a scan -/

/-- The node of an item in a text of a given size. -/
def Scan.nodeOf (s : Scan) (size : Nat) (p : Placed) : Node :=
  { p with stop := s.stopOf size p.item }

theorem Scan.nodeOf_word {s : Scan} {size : Nat} {p : Placed} (h : p.item.isGroup = false) :
    s.nodeOf size p = p.wordNode := by
  unfold nodeOf Placed.wordNode
  rw [stopOf_word h]

theorem Scan.mem_inner {s : Scan} {size : Nat} {n : Node} :
    n ∈ (s.tree size).inner ↔ ∃ p ∈ s.placed, s.nodeOf size p = n := by
  unfold tree
  rw [List.mem_map]
  simp only [List.mem_reverse]
  rfl

theorem Scan.mem_nodes {s : Scan} {size : Nat} {n : Node} :
    n ∈ (s.tree size).nodes ↔ n = (s.tree size).root ∨ ∃ p ∈ s.placed, s.nodeOf size p = n := by
  unfold Tree.nodes
  rw [List.mem_cons, mem_inner]

/-! ## Nodes in preorder -/

def Placed.root : Placed := ⟨.root, []⟩

/-- The node that follows an item starts no sooner, and its scopes are the
item and the items around it, or some of these. -/
structure Placed.Precedes (m n : Placed) : Prop where
  id : m.item.id < n.item.id
  start : m.item.start ≤ n.item.start
  scopes : n.scopes <:+ m.chain
  nested : n.scopes ≠ []

/-- The nodes of a tree follow each other, and new numbers are still free. -/
structure Tree.Ordered (t : Tree) : Prop where
  root : t.root.toPlaced = .root
  fresh : ∀ n ∈ t.nodes, n.id < t.fresh
  preorder : t.nodes.IsChain fun m n => m.toPlaced.Precedes n.toPlaced
  stops : ∀ n ∈ t.nodes, n.item.start ≤ n.stop

namespace Tree.Ordered

variable {t : Tree}

theorem increasing (h : t.Ordered) : t.nodes.Pairwise fun m n => m.id < n.id := by
  have htrans : IsTrans Node fun m n => m.id < n.id := ⟨fun _ _ _ => Nat.lt_trans⟩
  rw [← List.isChain_iff_pairwise]
  exact h.preorder.imp fun _ _ hp => hp.id

theorem starts (h : t.Ordered) : t.nodes.Pairwise fun m n => m.item.start ≤ n.item.start := by
  have htrans : IsTrans Node fun m n => m.item.start ≤ n.item.start :=
    ⟨fun _ _ _ => Nat.le_trans⟩
  rw [← List.isChain_iff_pairwise]
  exact h.preorder.imp fun _ _ hp => hp.start

theorem ids_ne (h : t.Ordered) {front back : List Node} {n : Node}
    (ht : t.nodes = front ++ n :: back) : ∀ m ∈ front, m.id ≠ n.id := by
  have hinc := h.increasing
  rw [ht, List.pairwise_append] at hinc
  intro m hm
  exact Nat.ne_of_lt (hinc.2.2 m hm n List.mem_cons_self)

theorem node_of_mem (h : t.Ordered) {n : Node} (hn : n ∈ t.nodes) : t.node? n.id = some n := by
  obtain ⟨front, back, ht⟩ := List.append_of_mem hn
  unfold node?
  rw [List.find?_eq_some_iff_append]
  refine ⟨by simp, front, back, ht, ?_⟩
  intro m hm
  simpa using h.ids_ne ht m hm

/-- The chain of a node ends at the root, and every item on it is a node of
the tree. -/
theorem chain_known (h : t.Ordered) : ∀ n ∈ t.nodes, n.chain.getLast? = some .root ∧
    ∀ i rest, i :: rest <:+ n.chain → ∃ m ∈ t.nodes, m.toPlaced = ⟨i, rest⟩ := by
  -- Along the thread: the scopes of a node are on the chain of the node before it.
  have hrun : ∀ l : List Node, t.root :: l <+: t.nodes → ∀ n ∈ t.root :: l,
      n.chain.getLast? = some .root ∧
        ∀ i rest, i :: rest <:+ n.chain → ∃ m ∈ t.nodes, m.toPlaced = ⟨i, rest⟩ := by
    intro l
    induction l using List.reverseRecOn with
    | nil =>
      intro _ n hn
      obtain rfl := List.mem_singleton.mp hn
      unfold Placed.chain
      rw [h.root]
      refine ⟨rfl, ?_⟩
      intro i rest hsuf
      obtain ⟨rfl, rfl⟩ : i = .root ∧ rest = [] := by
        simpa [Placed.root, List.suffix_cons_iff] using hsuf
      exact ⟨t.root, List.mem_cons_self, h.root⟩
    | append_singleton l n ih =>
      intro hpre m hm
      rw [← List.cons_append] at hpre hm
      have hprefix : t.root :: l <+: t.nodes := (List.prefix_append _ _).trans hpre
      rcases List.mem_append.mp hm with hm | hm
      · exact ih hprefix m hm
      obtain rfl := List.mem_singleton.mp hm
      obtain ⟨b, hb, hprec⟩ : ∃ b ∈ t.root :: l, b.toPlaced.Precedes m.toPlaced := by
        have hchain := List.IsChain.prefix h.preorder hpre
        rw [List.isChain_append] at hchain
        have hlast := List.getLast?_eq_some_getLast (List.cons_ne_nil t.root l)
        exact ⟨_, List.mem_of_getLast? hlast, hchain.2.2 _ hlast m rfl⟩
      obtain ⟨hroot, hknown⟩ := ih hprefix b hb
      constructor
      · have hscopes : m.scopes.getLast? = some .root := by
          rw [getLast?_of_suffix hprec.scopes hprec.nested, hroot]
        simp [Placed.chain, List.getLast?_cons, hscopes]
      · intro i rest hsuf
        rcases List.suffix_cons_iff.mp hsuf with he | hsuf
        · obtain ⟨rfl, rfl⟩ := List.cons.inj he
          exact ⟨m, hpre.subset (by simp), rfl⟩
        · exact hknown i rest (hsuf.trans hprec.scopes)
  exact hrun t.inner (List.prefix_refl _)

theorem last_eq (t : Tree) : t.nodes.getLast? = some t.last := by
  unfold nodes last
  rw [List.getLast?_cons]

end Tree.Ordered

/-! ## The items of a scan in preorder -/

/-- Everything that a scan has found, the latest first and the root last. -/
def Scan.found (s : Scan) : List Placed := s.placed ++ [.root]

/-- The items are numbered in order, and every scope was placed in the scopes around it. -/
structure Scan.Rooted (s : Scan) : Prop where
  ids : s.found.reverse.map (·.item.id) = List.range (s.placed.length + 1)
  known : ∀ i rest, i :: rest <:+ s.scopes → ⟨i, rest⟩ ∈ s.found
  root : s.scopes.getLast? = some .root

namespace Scan.Rooted

variable {s s' : Scan}

theorem of_init : init.Rooted := by
  refine ⟨rfl, ?_, rfl⟩
  intro i rest hi
  simpa [init, found, Placed.root, List.suffix_cons_iff] using hi

theorem place (h : s.Rooted) (k : Kind) (n : Nat) : (s.place k n).Rooted where
  ids := by
    have hfound : (s.place k n).found = ⟨s.item k n, s.scopes⟩ :: s.found := rfl
    rw [hfound, List.reverse_cons, List.map_append, h.ids, place_placed, List.length_cons,
      List.range_succ (n := s.placed.length + 1)]
    rfl
  known := fun i rest hi => List.mem_cons_of_mem _ (h.known i rest hi)
  root := h.root

theorem enter (h : s.Rooted) (k : Kind) (n : Nat) : (s.enter k n).Rooted where
  ids := (h.place k n).ids
  known := by
    intro i rest hi
    rcases List.suffix_cons_iff.mp hi with he | hi
    · obtain ⟨rfl, rfl⟩ := List.cons.inj he
      exact List.mem_cons_self
    · exact List.mem_cons_of_mem _ (h.known i rest hi)
  root := by simp [List.getLast?_cons, h.root]

/-- Scopes can be left, though not the root. -/
theorem of_suffix (h : s.Rooted) (hp : s'.placed = s.placed) (hs : s'.scopes <:+ s.scopes)
    (hne : s'.scopes ≠ []) : s'.Rooted where
  ids := by
    unfold found
    rw [hp]
    exact h.ids
  known := by
    intro i rest hi
    unfold found
    rw [hp]
    exact h.known i rest (hi.trans hs)
  root := by rw [getLast?_of_suffix hs hne, h.root]

theorem scopes_ne (h : s.Rooted) : s.scopes ≠ [] := ne_nil_of_root h.root

theorem id_le (h : s.Rooted) {p : Placed} (hp : p ∈ s.found) : p.item.id ≤ s.placed.length := by
  have hid : p.item.id ∈ s.found.reverse.map (·.item.id) :=
    List.mem_map_of_mem (List.mem_reverse.mpr hp)
  rw [h.ids, List.mem_range] at hid
  exact Nat.le_of_lt_succ hid

/-- Two items with one number are one item. -/
theorem eq_of_id (h : s.Rooted) {p q : Placed} (hp : p ∈ s.found) (hq : q ∈ s.found)
    (hid : p.item.id = q.item.id) : p = q := by
  have hnodup : (s.found.reverse.map (·.item.id)).Nodup := by
    rw [h.ids]
    exact List.nodup_range
  exact List.inj_on_of_nodup_map hnodup (List.mem_reverse.mpr hp) (List.mem_reverse.mpr hq) hid

end Scan.Rooted

/-- The items follow each other, and the scan is in the scope of the latest
one or of an item around it. -/
structure Scan.Preceded (s : Scan) : Prop where
  chain : s.found.IsChain fun n m => m.Precedes n
  latest : ∀ m ∈ s.found.head?, s.scopes <:+ m.chain

namespace Layout

variable {ended : Bool} {a : Text} {s : Scan}

theorem start_le_size (h : Layout ended a s) {p : Placed} (hp : p ∈ s.placed) :
    p.item.start ≤ size a := by
  obtain ⟨before, raw, rest, s₀, k, -, -, rfl, rfl, -, -⟩ := h.origin p hp
  show size before ≤ size (before ++ raw ++ rest)
  rw [size_append, size_append]
  omega

theorem start_le_stop (h : Layout ended a s) {p : Placed} (hp : p ∈ s.placed) {n : Nat}
    (hn : size a ≤ n) : p.item.start ≤ s.stopOf n p.item := by
  have hstart := h.start_le_size hp
  by_cases hg : p.item.isGroup = true
  · have hstop : s.stopOf n p.item = (s.closed.lookup p.item.id).getD n :=
      Scan.stopOf_group hg
    rcases h.group_state p hp hg with ⟨-, hnone⟩ | ⟨j, hj, hsome⟩
    · rw [hstop, hnone, Option.getD_none]
      omega
    · have := closes_lt hj
      rw [hstop, hsome, Option.getD_some]
      omega
  · rw [Bool.not_eq_true] at hg
    rw [Scan.stopOf_word hg]
    exact Nat.le_add_right _ _

/-- A new item stands behind all others, in the scopes of the scan. -/
theorem preceded_place (h : Layout false a s) (hs : s.Preceded) (k : Kind) :
    (⟨s.item k (size a), s.scopes⟩ :: s.found).IsChain fun n m => m.Precedes n := by
  rw [List.isChain_cons]
  refine ⟨?_, hs.chain⟩
  intro m hm
  have hne := ne_nil_of_root h.root_scope
  rcases List.mem_append.mp (List.mem_of_mem_head? hm) with hmem | hmem
  · exact ⟨Nat.lt_succ_of_le (h.nested.bounds m hmem).2, Nat.le_of_lt (h.start_lt hmem),
      hs.latest m hm, hne⟩
  · obtain rfl := List.mem_singleton.mp hmem
    exact ⟨Nat.succ_pos _, Nat.zero_le _, hs.latest _ hm, hne⟩

/-- A new item that the scan goes into is the innermost scope itself. -/
theorem preceded_enter (h : Layout false a s) (hs : s.Preceded) (k : Kind) (n : Nat) :
    ((s.enter k (size a)).restart n).Preceded := by
  refine ⟨h.preceded_place hs k, ?_⟩
  intro m hm
  cases hm
  exact List.suffix_refl _

/-- The items of a layout follow each other. -/
theorem preceded (h : Layout ended a s) : s.Preceded := by
  induction h with
  | start =>
    refine ⟨List.isChain_singleton _, ?_⟩
    intro m hm
    cases hm
    exact List.suffix_refl _
  | colon _ ih => exact ⟨ih.chain, ih.latest⟩
  | enter hl _ ih => exact hl.preceded_enter ih _ _
  | name _ hl _ ih =>
    refine ⟨hl.preceded_place ih _, ?_⟩
    intro m hm
    cases hm
    exact List.suffix_cons _ _
  | opening hl ih => exact hl.preceded_enter ih _ _
  | @closing ended a s _ _ ih =>
    have hfound : ((s.leaveWords.leaveGroup (size (a ++ [')']))).restart
        (size (a ++ [')']))).found = s.found := by
      simp [Scan.found]
    refine ⟨hfound ▸ ih.chain, ?_⟩
    intro m hm
    rw [hfound] at hm
    exact (Scan.leaveWords_leaveGroup_suffix _ _).trans (ih.latest m hm)
  | blank _ _ _ ih =>
    exact ⟨ih.chain, fun m hm => (List.dropWhile_suffix _).trans (ih.latest m hm)⟩

theorem ordered_tree (h : Layout ended a s) {n : Nat} (hn : size a ≤ n) : (s.tree n).Ordered := by
  constructor
  · rfl
  · intro m hm
    rcases Scan.mem_nodes.mp hm with rfl | ⟨p, hp, rfl⟩
    · exact Nat.succ_pos _
    · exact Nat.lt_succ_of_le (h.nested.bounds p hp).2
  · have hnodes : (s.tree n).nodes.map Node.toPlaced = s.found.reverse := by
      simp [Tree.nodes, Scan.tree, Scan.found, Placed.root, Function.comp_def]
    have hchain := h.preceded.chain
    rw [← List.isChain_reverse, ← hnodes, List.isChain_map] at hchain
    exact hchain
  · intro m hm
    rcases Scan.mem_nodes.mp hm with rfl | ⟨p, hp, rfl⟩
    · exact Nat.zero_le _
    · exact h.start_le_stop hp hn

theorem rooted (h : Layout ended a s) : s.Rooted := by
  induction h with
  | start => exact .of_init
  | colon _ ih => exact ⟨ih.ids, ih.known, ih.root⟩
  | enter _ _ ih => exact (ih.enter _ _).of_suffix rfl (List.suffix_refl _) (List.cons_ne_nil _ _)
  | name _ _ _ ih => exact (ih.place _ _).of_suffix rfl (List.suffix_refl _) ih.scopes_ne
  | opening _ ih => exact (ih.enter _ _).of_suffix rfl (List.suffix_refl _) (List.cons_ne_nil _ _)
  | closing hl hr ih =>
    exact ih.of_suffix (by simp) (Scan.leaveWords_leaveGroup_suffix _ _)
      (ne_nil_of_root (hl.closing hr).root_scope)
  | blank hl hr hc ih =>
    exact ih.of_suffix rfl (List.dropWhile_suffix _)
      (ne_nil_of_root (hl.blank hr hc).root_scope)

/-- No number is left out. -/
theorem numbers_tree (h : Layout ended a s) (n : Nat) :
    (s.tree n).nodes.map Node.id = List.range (s.tree n).fresh := by
  have hfresh : (s.tree n).fresh = s.placed.length + 1 := rfl
  rw [hfresh, ← h.rooted.ids]
  simp [Tree.nodes, Scan.tree, Scan.found, Placed.root, Node.id, Function.comp_def]

end Layout

/-- The nodes of a text are in preorder and numbered from zero on. -/
theorem Tree.ordered_ofTextTo (stop : Option Nat) (t : Text) :
    (ofTextTo stop t).Ordered ∧
      (ofTextTo stop t).nodes.map Node.id = List.range (ofTextTo stop t).fresh := by
  obtain ⟨ended, s, hl, htree⟩ := layout_ofTextTo stop t
  obtain ⟨rest, hrest⟩ := readTo_prefix stop t
  have hsize := congrArg size hrest
  rw [size_append] at hsize
  rw [htree]
  exact ⟨hl.ordered_tree (by omega), hl.numbers_tree (size t)⟩

end ClassList
