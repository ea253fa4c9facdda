-- The laws of the links between nodes. Every node knows the node in front of
-- it, the node behind it and its parent. Followed from node to node, these
-- links lead through the whole tree and end, also after placeholders were put
-- into it.
import Mathlib
import ClassList.Proofs.Stopping

namespace ClassList

open Text

/-! ## Placeholders -/

namespace Arena

/-- The next nodes lead from the root to the node. -/
def Reachable (a : Arena) (id : Nat) : Prop :=
  Relation.ReflTransGen (fun i j => a.nextOf? i = some j) 0 id

/-- Placeholders were appended, each one behind a node that could be reached at that time. -/
inductive Grows (a : Arena) : Arena → Prop
  | start : a.Grows a
  | append {b b' : Arena} {id : Nat} : a.Grows b → b.Reachable id →
      b.appendPlaceholder? id = some b' → a.Grows b'

end Arena

namespace Tree.Ordered

variable {t : Tree}

/-- What follows the node is cut off, and the placeholder takes its place. -/
theorem appendPlaceholder?_eq (h : t.Ordered) {front back : List Node} {n : Node}
    (ht : t.nodes = front ++ n :: back) :
    ∃ t', t.appendPlaceholder? n.id = some t' ∧ t'.root = t.root ∧ t'.fresh = t.fresh + 1 ∧
      t'.nodes = front ++ [n, placeholder t.fresh n] := by
  have htake : t.nodes.takeWhile (·.id != n.id) = front := by
    rw [ht, List.takeWhile_append_of_pos (by simpa using h.ids_ne ht)]
    simp
  unfold appendPlaceholder?
  rw [h.node_of_mem (by simp [ht]), htake]
  refine ⟨_, rfl, rfl, rfl, ?_⟩
  show t.root :: (front ++ [n, placeholder t.fresh n]).tail = front ++ [n, placeholder t.fresh n]
  -- The root comes first, whether it is the node itself or stands in front of it.
  cases front with
  | nil =>
    have hroot : t.root = n := (List.cons.inj ht).1
    rw [hroot]
    rfl
  | cons m front =>
    have hroot : t.root = m := (List.cons.inj ht).1
    rw [hroot]
    rfl

/-- The tree is still in preorder when a placeholder has taken the place of all that followed. -/
theorem cut (h : t.Ordered) {t' : Tree} {front back : List Node} {n : Node}
    (ht : t.nodes = front ++ n :: back) (hroot : t'.root = t.root)
    (hfresh : t'.fresh = t.fresh + 1) (ht' : t'.nodes = front ++ [n, placeholder t.fresh n]) :
    t'.Ordered := by
  have hn : n ∈ t.nodes := by simp [ht]
  have hold : ∀ m ∈ front ++ [n], m ∈ t.nodes := by
    intro m hm
    rw [ht]
    exact List.mem_append.mpr ((List.mem_append.mp hm).imp_right fun hm => by simp_all)
  have hsplit : t'.nodes = (front ++ [n]) ++ [placeholder t.fresh n] := by simp [ht']
  constructor
  · rw [hroot, h.root]
  · intro m hm
    rw [hsplit] at hm
    rw [hfresh]
    rcases List.mem_append.mp hm with hm | hm
    · exact Nat.lt_succ_of_lt (h.fresh m (hold m hm))
    · rw [List.mem_singleton.mp hm]
      exact Nat.lt_succ_self _
  · have hfront : (front ++ [n]).IsChain fun m n => m.toPlaced.Precedes n.toPlaced := by
      have hchain := h.preorder
      rw [ht, List.append_cons] at hchain
      exact hchain.left_of_append
    rw [hsplit, List.isChain_append]
    refine ⟨hfront, List.isChain_singleton _, ?_⟩
    intro m hm p hp
    obtain rfl : n = m := by simpa using hm
    obtain rfl : placeholder t.fresh n = p := by simpa using hp
    exact ⟨h.fresh n hn, h.stops n hn, List.suffix_refl _, List.cons_ne_nil _ _⟩
  · intro m hm
    rw [hsplit] at hm
    rcases List.mem_append.mp hm with hm | hm
    · exact h.stops m (hold m hm)
    · rw [List.mem_singleton.mp hm]
      exact Nat.le_refl _

end Tree.Ordered

namespace Arena

/-- Behind a node everything is cut off, and a new empty identifier is the last node. What was
cut off stays where it is stored. -/
structure CutBehind (a a' : Arena) (id : Nat) : Prop where
  walk : ∃ front back, a.walk = front ++ id :: back ∧ a'.walk = front ++ [id, a.fresh]
  last : a'.last = a.fresh
  identifier : ∃ c, a.cell? id = some c ∧ a'.cell? a.fresh =
    some ⟨.identifier ⟨[], false⟩, ⟨c.span.stop, c.span.stop⟩, some id, none, some id⟩
  kept : ∀ j < a.fresh, j ≠ id → a'.cell? j = a.cell? j

namespace Stores

variable {a : Arena} {t : Tree} {id : Nat}

theorem reachable_iff (h : a.Stores t) (ho : t.Ordered) : a.Reachable id ↔ id ∈ a.walk := by
  have hwalk := h.walk_next
  rw [← h.walk_eq ho] at hwalk
  have hroot : a.walk = 0 :: a.walk.tail := by
    rw [h.walk_eq ho]
    exact congrArg (· :: _) (congrArg (fun p => p.item.id) ho.root)
  rw [hroot] at hwalk ⊢
  exact hwalk.reaches_iff

/-- A placeholder can be put behind every node, and then the tree with the placeholder is
stored. -/
theorem appendPlaceholder (h : a.Stores t) (ho : t.Ordered) (hid : id ∈ a.walk) :
    ∃ a' t', a.appendPlaceholder? id = some a' ∧ t.appendPlaceholder? id = some t' ∧
      a'.Stores t' ∧ t'.Ordered ∧ a.CutBehind a' id := by
  rw [h.walk_eq ho] at hid
  obtain ⟨n, hn, rfl⟩ := List.mem_map.mp hid
  obtain ⟨front, back, ht⟩ := List.append_of_mem hn
  obtain ⟨t', hsome, hroot, hfresh, ht'⟩ := ho.appendPlaceholder?_eq ht
  have ho' := ho.cut ht hroot hfresh ht'
  obtain ⟨before, behind, hcell⟩ := h.cell_of_mem hn
  have hlt := h.lt_fresh hn
  have hstores : (a.attach n.id n.id (.identifier ⟨[], false⟩) ⟨n.stop, n.stop⟩).Stores t' :=
    h.attach (n := Tree.placeholder t.fresh n) ht (ho.ids_ne ht) rfl rfl ht' hfresh
  have hwalk : (a.attach n.id n.id (.identifier ⟨[], false⟩) ⟨n.stop, n.stop⟩).walk =
      front.map Node.id ++ [n.id, a.fresh] := by
    rw [hstores.walk_eq ho', ht', h.fresh, List.map_append]
    rfl
  have hcut : a.CutBehind (a.attach n.id n.id (.identifier ⟨[], false⟩) ⟨n.stop, n.stop⟩) n.id := by
    have hfront : a.walk = front.map Node.id ++ n.id :: back.map Node.id := by
      rw [h.walk_eq ho, ht]
      simp
    refine ⟨⟨_, _, hfront, hwalk⟩, ?_, ?_, ?_⟩
    · unfold last
      rw [hwalk]
      simp
    · exact ⟨_, hcell, by rw [cell?_attach hlt, if_pos rfl]; rfl⟩
    · intro j hj hne
      rw [cell?_attach hlt, if_neg (Nat.ne_of_lt hj), if_neg hne]
  refine ⟨_, t', ?_, hsome, hstores, ho', hcut⟩
  unfold appendPlaceholder?
  rw [hcell]
  rfl

end Stores

/-- Whatever was appended, a tree is stored. -/
theorem Grows.stores {a b : Arena} {t : Tree} (h : a.Grows b) (hs : a.Stores t)
    (ho : t.Ordered) : ∃ u, b.Stores u ∧ u.Ordered := by
  induction h with
  | start => exact ⟨t, hs, ho⟩
  | append _ hid happend ih =>
    obtain ⟨u, hu, hou⟩ := ih
    obtain ⟨b', u', hsome, -, hu', hou', -⟩ :=
      hu.appendPlaceholder hou ((hu.reachable_iff hou).mp hid)
    rw [happend] at hsome
    obtain rfl := Option.some.inj hsome
    exact ⟨u', hu', hou'⟩

end Arena

/-! ## The law -/

namespace Arena

/-- The links of an arena thread its nodes in preorder. -/
structure Threaded (a : Arena) : Prop where
  root : a.walk.head? = some 0
  increasing : a.walk.Pairwise (· < ·)
  stored : ∀ id ∈ a.walk, id < a.fresh
  /-- From the root, the next nodes are all nodes that can be reached, up to a last one. -/
  forward : Walk a.nextOf? a.walk
  reachable : ∀ id, a.Reachable id ↔ id ∈ a.walk
  backward : Walk a.prevOf? a.walk.reverse
  /-- Only the root has no node in front of it and no parent. -/
  alone : ∀ id ∈ a.walk, (a.prevOf? id = none ↔ id = 0) ∧ (a.parentOf? id = none ↔ id = 0)
  /-- A parent is the node in front, or one of its ancestors. -/
  preorder : a.walk.IsChain fun i j => ∃ k ∈ a.ancestors i, a.parentOf? j = some k
  /-- From every node, the parents are its ancestors, and the last one is the root. -/
  upward : ∀ id ∈ a.walk, Walk a.parentOf? (a.ancestors id) ∧
    (a.ancestors id).head? = some id ∧ (a.ancestors id).getLast? = some 0 ∧
      a.ancestors id ⊆ a.walk
  starts : a.walk.Pairwise fun i j =>
    ∀ c ∈ a.cell? i, ∀ d ∈ a.cell? j, c.span.start ≤ d.span.start

namespace Stores

variable {a : Arena} {t : Tree}

/-- A node is the root, or another one precedes it. -/
theorem eq_root_or_preceded (h : a.Stores t) (ho : t.Ordered) {n : Node} (hn : n ∈ t.nodes) :
    n = t.root ∨ 0 < n.id ∧ (∃ m, a.prevOf? n.id = some m) ∧ n.scopes ≠ [] := by
  obtain ⟨front, back, ht⟩ := List.append_of_mem hn
  rcases List.eq_nil_or_concat front with rfl | ⟨front, m, rfl⟩
  · exact Or.inl (List.cons.inj ht).1.symm
  · right
    have hchain := ho.preorder
    rw [ht, List.isChain_append] at hchain
    have hprec := hchain.2.2 m (by simp) n rfl
    exact ⟨Nat.zero_lt_of_lt hprec.id, ⟨m.id, by simp [(h.neighbours ht).1]⟩, hprec.nested⟩

theorem alone (h : a.Stores t) (ho : t.Ordered) {n : Node} (hn : n ∈ t.nodes) :
    (a.prevOf? n.id = none ↔ n.id = 0) ∧ (a.parentOf? n.id = none ↔ n.id = 0) := by
  have hroot : t.root.id = 0 := congrArg (fun p => p.item.id) ho.root
  rcases h.eq_root_or_preceded ho hn with rfl | ⟨hpos, ⟨m, hprev⟩, hscopes⟩
  · have hfirst : t.nodes = [] ++ t.root :: t.inner := rfl
    refine ⟨iff_of_true (h.neighbours hfirst).1 hroot, iff_of_true ?_ hroot⟩
    rw [h.parentOf_eq hn, Node.parent?, ho.root]
    rfl
  · refine ⟨iff_of_false (by simp [hprev]) (Nat.ne_of_gt hpos),
      iff_of_false ?_ (Nat.ne_of_gt hpos)⟩
    rw [h.parentOf_eq hn, Node.parent?, Option.map_eq_none_iff, List.head?_eq_none_iff]
    exact hscopes

theorem threaded (h : a.Stores t) (ho : t.Ordered) : a.Threaded := by
  have hwalk := h.walk_eq ho
  have hmem : ∀ id ∈ a.walk, ∃ n ∈ t.nodes, n.id = id := by
    intro id hid
    rw [hwalk] at hid
    exact List.mem_map.mp hid
  constructor
  case root =>
    rw [hwalk]
    exact congrArg some (congrArg (fun p => p.item.id) ho.root)
  case increasing =>
    rw [hwalk]
    exact List.pairwise_map.mpr ho.increasing
  case stored =>
    intro id hid
    obtain ⟨n, hn, rfl⟩ := hmem id hid
    exact h.lt_fresh hn
  case forward =>
    rw [hwalk]
    exact h.walk_next
  case reachable => exact fun id => h.reachable_iff ho
  case backward =>
    rw [hwalk]
    exact h.walk_prev
  case alone =>
    intro id hid
    obtain ⟨n, hn, rfl⟩ := hmem id hid
    exact h.alone ho hn
  case preorder =>
    rw [hwalk, List.isChain_map]
    refine ho.preorder.imp_of_mem_imp ?_
    intro m n hm hn hprec
    obtain ⟨i, rest, hscopes⟩ := List.exists_cons_of_ne_nil hprec.nested
    rw [h.ancestors_eq ho hm]
    refine ⟨i.id, List.mem_map_of_mem (hprec.scopes.subset (by simp [hscopes])), ?_⟩
    rw [h.parentOf_eq hn, Node.parent?, hscopes]
    rfl
  case upward =>
    intro id hid
    obtain ⟨n, hn, rfl⟩ := hmem id hid
    obtain ⟨hlast, hknown⟩ := ho.chain_known n hn
    rw [h.ancestors_eq ho hn]
    refine ⟨h.walk_chain (List.cons_ne_nil _ _) hknown, rfl, ?_, ?_⟩
    · unfold Node.ancestors
      rw [List.getLast?_map, hlast]
      rfl
    · intro i hi
      obtain ⟨j, hj, rfl⟩ := List.mem_map.mp hi
      obtain ⟨front, rest, hsplit⟩ := List.append_of_mem hj
      obtain ⟨m, hm, hplaced⟩ := hknown j rest ⟨front, hsplit.symm⟩
      rw [hwalk, ← show m.id = j.id from congrArg (fun p => p.item.id) hplaced]
      exact List.mem_map_of_mem hm
  case starts =>
    rw [hwalk, List.pairwise_map]
    refine ho.starts.imp_of_mem ?_
    intro m n hm hn hle c hc d hd
    obtain ⟨_, _, hcell⟩ := h.cell_of_mem hm
    obtain ⟨_, _, hcell'⟩ := h.cell_of_mem hn
    rw [hcell] at hc
    rw [hcell'] at hd
    obtain rfl := Option.some.inj hc
    obtain rfl := Option.some.inj hd
    exact hle

end Stores

end Arena

/-- Whatever placeholders are appended to what is stored for a text, the links thread all nodes
that can be reached in preorder. A placeholder cuts the thread behind its node and is the last
node itself, and the links lead through the tree with the placeholder. Before the first one
every stored node can be reached, and the links lead through the tree of the text. A reading
with a cursor and a stop stores the same nodes with the same links. -/
theorem links_thread_the_tree {stop : Option Nat} {t : Text} {a : Arena}
    (h : (Arena.ofTextTo stop t).Grows a) :
    a.Threaded ∧
      (∀ id, a.Reachable id → ∃ a', a.appendPlaceholder? id = some a' ∧ a.CutBehind a' id ∧
        a'.tree? = a.tree?.bind (·.appendPlaceholder? id)) ∧
      (∀ id < (Arena.ofTextTo stop t).fresh, (Arena.ofTextTo stop t).Reachable id) ∧
      (Arena.ofTextTo stop t).tree? = some (Tree.ofTextTo stop t) ∧
      (size t < Checked.limit → Checked.arena? stop t = some (Arena.ofTextTo stop t)) := by
  have hstores := Arena.stores_ofTextTo stop t
  obtain ⟨hordered, hids⟩ := Tree.ordered_ofTextTo stop t
  obtain ⟨u, hu, hou⟩ := h.stores hstores hordered
  refine ⟨hu.threaded hou, ?_, ?_, Arena.tree?_ofTextTo stop t,
    fun ht => Checked.arena?_eq ht stop⟩
  · intro id hid
    obtain ⟨a', u', hsome, htree, hu', hou', hcut⟩ :=
      hu.appendPlaceholder hou ((hu.reachable_iff hou).mp hid)
    refine ⟨a', hsome, hcut, ?_⟩
    rw [hu.tree?_eq hou, hu'.tree?_eq hou', Option.bind_some, htree]
  · intro id hid
    rw [hstores.reachable_iff hordered, hstores.walk_eq hordered, hids, List.mem_range,
      ← hstores.fresh]
    exact hid

/-- In `a(b c)d`, a placeholder behind the group cuts off what is in it, and one behind the
first placeholder is nested in that. What was cut off keeps its links. -/
theorem links_thread_the_tree_behind_a_cut :
    ∃ a, (Arena.ofTextTo none "a(b c)d".toList).Grows a ∧ a.Threaded ∧
      a.walk = [0, 1, 2, 6, 7] ∧ a.ancestors 7 = [7, 6, 2, 1, 0] ∧ a.prevOf? 3 = some 2 ∧
      a.nextOf? 3 = some 4 := by
  obtain ⟨b, hb, h₀, h₁, h₂, a, ha, hfacts⟩ : ∃ b,
      (Arena.ofTextTo none "a(b c)d".toList).appendPlaceholder? 2 = some b ∧
        b.nextOf? 0 = some 1 ∧ b.nextOf? 1 = some 2 ∧ b.nextOf? 2 = some 6 ∧
        ∃ a, b.appendPlaceholder? 6 = some a ∧ a.walk = [0, 1, 2, 6, 7] ∧
          a.ancestors 7 = [7, 6, 2, 1, 0] ∧ a.prevOf? 3 = some 2 ∧ a.nextOf? 3 = some 4 := by
    decide
  have hgroup : (Arena.ofTextTo none "a(b c)d".toList).Reachable 2 :=
    .tail (.tail .refl (by decide : _ = some 1)) (by decide)
  have hplaceholder : b.Reachable 6 := .tail (.tail (.tail .refl h₀) h₁) h₂
  have hgrows : (Arena.ofTextTo none "a(b c)d".toList).Grows a :=
    .append (.append .start hgroup hb) hplaceholder ha
  exact ⟨a, hgrows, (links_thread_the_tree hgrows).1, hfacts⟩

end ClassList
