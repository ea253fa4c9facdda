-- What an arena stores. It stores a tree if each node of the tree stands in its cell with
-- the numbers of its neighbours and of its parent. The links then lead through the nodes of
-- the tree and through no others, whatever else is in the arena.
import Mathlib
import ClassList.Tree.Builder
import ClassList.Proofs.Preorder

namespace ClassList

/-! ## Following links -/

/-- From the first number the links lead through all of them, one after the
other, and end at the last one. -/
def Walk (link : Nat → Option Nat) : List Nat → Prop
  | [] => False
  | [a] => link a = none
  | a :: b :: rest => link a = some b ∧ Walk link (b :: rest)

section Walks

variable {link : Nat → Option Nat} {l front back : List Nat} {a b : Nat}

theorem walk_of_split (hne : l ≠ [])
    (h : ∀ front a back, l = front ++ a :: back → link a = back.head?) : Walk link l := by
  induction l with
  | nil => exact absurd rfl hne
  | cons a l ih =>
    have ha := h [] a l rfl
    cases l with
    | nil => exact ha
    | cons b l =>
      refine ⟨ha, ih (by simp) ?_⟩
      intro front c back hl
      exact h (a :: front) c back (by rw [hl]; rfl)

namespace Walk

theorem head (h : Walk link (a :: back)) : link a = back.head? := by
  cases back with
  | nil => exact h
  | cons b back => exact h.1

theorem behind (h : Walk link (front ++ a :: back)) : Walk link (a :: back) := by
  induction front with
  | nil => exact h
  | cons b front ih =>
    apply ih
    cases front with
    | nil => exact h.2
    | cons c front => exact h.2

/-- Where a walk starts decides where it leads. -/
theorem unique (h : Walk link (a :: front)) (h' : Walk link (a :: back)) : front = back := by
  induction front generalizing a back with
  | nil =>
    have hhead := h'.head
    rw [show link a = none from h] at hhead
    exact (List.head?_eq_none_iff.mp hhead.symm).symm
  | cons b front ih =>
    have hhead := h'.head
    rw [h.1] at hhead
    cases back with
    | nil => cases hhead
    | cons c back =>
      obtain rfl : b = c := Option.some.inj hhead
      rw [ih h.2 h'.2]

/-- A walk that ends never comes to a number twice. -/
theorem nodup (h : Walk link l) : l.Nodup := by
  induction l with
  | nil => exact List.nodup_nil
  | cons a l ih =>
    rw [List.nodup_cons]
    constructor
    · intro ha
      obtain ⟨front, back, rfl⟩ := List.append_of_mem ha
      have hagain : Walk link (a :: back) := by
        rw [← List.cons_append] at h
        exact h.behind
      have hlength := congrArg List.length (h.unique hagain)
      simp at hlength
      omega
    · cases l with
      | nil => exact List.nodup_nil
      | cons b l => exact ih h.2

/-- What can be reached is what the walk comes to. -/
theorem reaches_iff (h : Walk link (a :: l)) :
    Relation.ReflTransGen (fun i j => link i = some j) a b ↔ b ∈ a :: l := by
  constructor
  · intro hreach
    induction hreach with
    | refl => exact List.mem_cons_self
    | @tail i j _ hij ih =>
      obtain ⟨front, back, hsplit⟩ := List.append_of_mem ih
      rw [hsplit] at h ⊢
      have hnext := h.behind.head
      rw [hij] at hnext
      cases back with
      | nil => cases hnext
      | cons k back =>
        obtain rfl : j = k := Option.some.inj hnext
        simp
  · intro hb
    induction l generalizing a with
    | nil =>
      rw [List.mem_singleton.mp hb]
    | cons c l ih =>
      rcases List.mem_cons.mp hb with rfl | hb
      · exact .refl
      · exact .head h.1 (ih h.2 hb)

/-- Enough steps follow a walk to its end. -/
theorem follow_eq {count : Nat} (h : Walk link (a :: l)) (hcount : l.length < count) :
    Arena.follow link count a = a :: l := by
  induction l generalizing a count with
  | nil =>
    obtain ⟨count, rfl⟩ := Nat.exists_eq_succ_of_ne_zero (Nat.ne_of_gt hcount)
    rw [Arena.follow, show link a = none from h]
    rfl
  | cons b l ih =>
    obtain ⟨count, rfl⟩ := Nat.exists_eq_succ_of_ne_zero (Nat.ne_of_gt (Nat.zero_lt_of_lt hcount))
    rw [List.length_cons] at hcount
    rw [Arena.follow, h.1, Option.elim_some, ih h.2 (by omega)]

/-- So many steps as there are numbers to come to are enough. -/
theorem follow_eq_of_lt {count : Nat} (h : Walk link (a :: l)) (hlt : ∀ i ∈ a :: l, i < count) :
    Arena.follow link count a = a :: l := by
  apply h.follow_eq
  have hsub : a :: l ⊆ List.range count := fun i hi => List.mem_range.mpr (hlt i hi)
  have hlength := (h.nodup.subperm hsub).length_le
  simp at hlength
  omega

end Walk

end Walks

/-! ## Cells -/

namespace Arena

variable {a : Arena} {id j : Nat}

theorem lt_fresh {c : Cell} (h : a.cell? id = some c) : id < a.fresh :=
  (Array.getElem?_eq_some_iff.mp h).1

theorem fresh_modify (f : Cell → Cell) : (a.modify id f).fresh = a.fresh := by
  unfold modify fresh
  split
  · exact Array.size_setIfInBounds
  · rfl

theorem cell?_modify (f : Cell → Cell) :
    (a.modify id f).cell? j = if j = id then (a.cell? j).map f else a.cell? j := by
  unfold modify
  split
  · rename_i c hc
    unfold cell? at hc ⊢
    have hlt : id < a.cells.size := lt_fresh hc
    rw [Array.getElem?_setIfInBounds]
    by_cases hj : j = id
    · rw [hj, if_pos rfl, if_pos rfl, if_pos hlt, hc]
      rfl
    · rw [if_neg hj, if_neg (Ne.symm hj)]
  · rename_i hnone
    split
    · rename_i hj
      rw [hj, hnone]
      rfl
    · rfl

theorem fresh_attach (before parent : Nat) (kind : Kind) (span : Span) :
    (a.attach before parent kind span).fresh = a.fresh + 1 := by
  unfold attach
  rw [fresh_modify]
  exact Array.size_push _

/-- The new node has the next number. The node in front of it leads to it, and all others are
as they were. -/
theorem cell?_attach {before parent : Nat} {kind : Kind} {span : Span} (hb : before < a.fresh) :
    (a.attach before parent kind span).cell? j =
      if j = a.fresh then some ⟨kind, span, some before, none, some parent⟩
      else if j = before then (a.cell? j).map fun c => { c with next := some a.fresh }
      else a.cell? j := by
  have hpush : (⟨a.cells.push ⟨kind, span, some before, none, some parent⟩⟩ : Arena).cell? j =
      if j = a.fresh then some ⟨kind, span, some before, none, some parent⟩ else a.cell? j :=
    Array.getElem?_push
  unfold attach
  rw [cell?_modify, hpush]
  by_cases hj : j = a.fresh
  · rw [if_pos hj, if_pos hj, if_neg (by omega)]
  · rw [if_neg hj, if_neg hj]

theorem fresh_stretch (stop : Nat) : (a.stretch id stop).fresh = a.fresh := fresh_modify _

end Arena

/-! ## The thread of a tree -/

/-- The nodes of a list with their neighbours. -/
def threadFrom (before : Option Nat) : List Node → List (Node × Option Nat × Option Nat)
  | [] => []
  | n :: rest => (n, before, rest.head?.map Node.id) :: threadFrom (some n.id) rest

theorem zip_eq_threadFrom (before : Option Nat) (nodes : List Node) :
    nodes.zip ((before :: nodes.map fun n => some n.id).zip
      ((nodes.map fun n => some n.id).tail ++ [none])) = threadFrom before nodes := by
  induction nodes generalizing before with
  | nil => rfl
  | cons n rest ih =>
    cases rest with
    | nil => rfl
    | cons m rest =>
      have h := ih (some n.id)
      simp only [List.map_cons, List.tail_cons] at h
      simp only [List.map_cons, List.tail_cons, List.cons_append, List.zip_cons_cons, threadFrom,
        List.head?_cons, Option.map_some]
      rw [h]
      rfl

theorem Tree.threaded_eq (t : Tree) : t.threaded = threadFrom none t.nodes :=
  zip_eq_threadFrom none t.nodes

theorem mem_threadFrom {before : Option Nat} {nodes : List Node}
    {x : Node × Option Nat × Option Nat} :
    x ∈ threadFrom before nodes ↔ ∃ front back, nodes = front ++ x.1 :: back ∧
      x.2 = ((front.getLast?.map Node.id).or before, back.head?.map Node.id) := by
  induction nodes generalizing before with
  | nil => simp [threadFrom]
  | cons n rest ih =>
    rw [threadFrom, List.mem_cons, ih]
    constructor
    · rintro (rfl | ⟨front, back, rfl, hx⟩)
      · exact ⟨[], rest, rfl, rfl⟩
      · refine ⟨n :: front, back, rfl, ?_⟩
        rw [hx, List.getLast?_cons]
        cases front.getLast? <;> rfl
    · rintro ⟨_ | ⟨m, front⟩, back, hsplit, hx⟩
      · obtain ⟨rfl, rfl⟩ := List.cons.inj hsplit
        exact Or.inl (Prod.ext rfl hx)
      · obtain ⟨rfl, hrest⟩ := List.cons.inj hsplit
        refine Or.inr ⟨front, back, hrest, ?_⟩
        rw [hx, List.getLast?_cons]
        cases front.getLast? <;> rfl

/-- A node of the thread has the node before it and the node after it for its neighbours. -/
theorem Tree.mem_threaded {t : Tree} {n : Node} {before behind : Option Nat} :
    (n, before, behind) ∈ t.threaded ↔ ∃ front back, t.nodes = front ++ n :: back ∧
      before = front.getLast?.map Node.id ∧ behind = back.head?.map Node.id := by
  rw [threaded_eq, mem_threadFrom]
  simp only [Option.or_none, Prod.mk.injEq]

/-! ## A tree in an arena -/

/-- The cell of a node between two neighbours. -/
def Node.cell (n : Node) (prev next : Option Nat) : Cell :=
  ⟨n.item.kind, n.span, prev, next, n.parent?⟩

/-- The node with another stop, if it has one of the numbers. -/
def Node.stretch (ids : List Nat) (stop : Nat) (n : Node) : Node :=
  if n.id ∈ ids then { n with stop := stop } else n

namespace Node

variable {ids : List Nat} {n : Node}

theorem stretch_of_mem (h : n.id ∈ ids) (stop : Nat) :
    n.stretch ids stop = { n with stop := stop } := if_pos h

theorem stretch_of_not_mem (h : n.id ∉ ids) (stop : Nat) : n.stretch ids stop = n := if_neg h

theorem stretch_id (ids : List Nat) (stop : Nat) (n : Node) : (n.stretch ids stop).id = n.id := by
  unfold stretch
  split <;> rfl

theorem stretch_cons (id : Nat) (ids : List Nat) (stop : Nat) (n : Node) :
    n.stretch (id :: ids) stop = (n.stretch [id] stop).stretch ids stop := by
  by_cases hid : n.id = id
  · have hmem : n.id ∈ id :: ids := List.mem_cons.mpr (Or.inl hid)
    rw [stretch_of_mem hmem, stretch_of_mem (List.mem_singleton.mpr hid)]
    unfold stretch
    split <;> rfl
  · have hiff : n.id ∈ id :: ids ↔ n.id ∈ ids := by rw [List.mem_cons, or_iff_right hid]
    rw [stretch_of_not_mem (List.mem_singleton.not.mpr hid)]
    unfold stretch
    simp only [hiff]

end Node

/-- The tree with another stop at the nodes that have one of the numbers. -/
def Tree.stretch (ids : List Nat) (stop : Nat) (t : Tree) : Tree :=
  { t with root := t.root.stretch ids stop, inner := t.inner.map (Node.stretch ids stop) }

/-- Where every element has a value, so has the list. -/
theorem mapM_eq_map {α β : Type} {f : α → Option β} {g : α → β} {l : List α}
    (h : ∀ a ∈ l, f a = some (g a)) : l.mapM f = some (l.map g) := by
  induction l with
  | nil => rfl
  | cons a l ih =>
    rw [List.mapM_cons, h a List.mem_cons_self, ih fun b hb => h b (List.mem_cons_of_mem a hb)]
    rfl

/-- Where every element is found again, so is the list. -/
theorem mapM_map_eq {α β : Type} {f : α → β} {g : β → Option α} {l : List α}
    (h : ∀ a ∈ l, g (f a) = some a) : (l.map f).mapM g = some l := by
  have hfound : l.mapM (g ∘ f) = some (l.map id) := mapM_eq_map h
  rw [List.mapM_map, hfound, List.map_id]

/-- Each node of the tree stands in its cell, and its links are the thread. -/
structure Arena.Stores (a : Arena) (t : Tree) : Prop where
  fresh : a.fresh = t.fresh
  cells : ∀ n before behind, (n, before, behind) ∈ t.threaded →
    a.cell? n.id = some (n.cell before behind)

namespace Arena.Stores

variable {a : Arena} {t t' : Tree} {front back : List Node} {m n : Node}

theorem cell_eq (h : a.Stores t) (ht : t.nodes = front ++ n :: back) :
    a.cell? n.id = some (n.cell (front.getLast?.map Node.id) (back.head?.map Node.id)) :=
  h.cells n _ _ (Tree.mem_threaded.mpr ⟨front, back, ht, rfl, rfl⟩)

theorem cell_of_mem (h : a.Stores t) (hn : n ∈ t.nodes) :
    ∃ before behind, a.cell? n.id = some (n.cell before behind) := by
  obtain ⟨front, back, ht⟩ := List.append_of_mem hn
  exact ⟨_, _, h.cell_eq ht⟩

theorem lt_fresh (h : a.Stores t) (hn : n ∈ t.nodes) : n.id < a.fresh := by
  obtain ⟨before, behind, hcell⟩ := h.cell_of_mem hn
  exact Arena.lt_fresh hcell

theorem item_eq (h : a.Stores t) (hn : n ∈ t.nodes) : a.item? n.id = some n.item := by
  obtain ⟨before, behind, hcell⟩ := h.cell_of_mem hn
  unfold item?
  rw [hcell]
  rfl

theorem parentOf_eq (h : a.Stores t) (hn : n ∈ t.nodes) : a.parentOf? n.id = n.parent? := by
  obtain ⟨before, behind, hcell⟩ := h.cell_of_mem hn
  unfold parentOf?
  rw [hcell]
  rfl

theorem neighbours (h : a.Stores t) (ht : t.nodes = front ++ n :: back) :
    a.prevOf? n.id = front.getLast?.map Node.id ∧ a.nextOf? n.id = back.head?.map Node.id := by
  unfold prevOf? nextOf?
  rw [h.cell_eq ht]
  exact ⟨rfl, rfl⟩

/-- A new node takes the place of all nodes behind the one that it is attached to. -/
theorem attach (h : a.Stores t) (ht : t.nodes = front ++ m :: back)
    (hne : ∀ x ∈ front, x.id ≠ m.id) (hid : n.id = t.fresh) {p : Nat} (hp : n.parent? = some p)
    (ht' : t'.nodes = front ++ [m, n]) (hfresh : t'.fresh = t.fresh + 1) :
    (a.attach m.id p n.item.kind n.span).Stores t' := by
  have hold : ∀ x ∈ front ++ [m], x ∈ t.nodes := by
    intro x hx
    rw [ht]
    exact List.mem_append.mpr ((List.mem_append.mp hx).imp_right fun hx => by simp_all)
  have hlt : ∀ x ∈ front ++ [m], x.id ≠ a.fresh := fun x hx =>
    Nat.ne_of_lt (h.lt_fresh (hold x hx))
  have hm : m.id < a.fresh := h.lt_fresh (hold m (by simp))
  refine ⟨by rw [fresh_attach, h.fresh, hfresh], ?_⟩
  intro x _ _ hx
  obtain ⟨before, behind, hsplit, rfl, rfl⟩ := Tree.mem_threaded.mp hx
  rw [ht'] at hsplit
  rcases List.eq_nil_or_concat behind with rfl | ⟨behind, y, rfl⟩
  · -- The new node itself.
    obtain ⟨rfl, rfl⟩ : before = front ++ [m] ∧ x = n := by
      have hsnoc : front ++ [m] ++ [n] = before ++ [x] := by simpa using hsplit
      exact (List.append_singleton_inj.mp hsnoc).imp Eq.symm Eq.symm
    rw [hid, ← h.fresh, cell?_attach hm, if_pos rfl]
    simp [Node.cell, hp]
  obtain ⟨hfront, rfl⟩ : front ++ [m] = before ++ x :: behind ∧ n = y := by
    have hsnoc : front ++ [m] ++ [n] = before ++ x :: behind ++ [y] := by simpa using hsplit
    exact List.append_singleton_inj.mp hsnoc
  have hx : x.id ≠ a.fresh := hlt x (by rw [hfront]; simp)
  rw [cell?_attach hm, if_neg hx]
  rcases List.eq_nil_or_concat behind with rfl | ⟨behind, z, rfl⟩
  · -- The node in front of it.
    obtain ⟨rfl, rfl⟩ := List.append_singleton_inj.mp hfront
    rw [if_pos rfl, h.cell_eq ht, h.fresh, ← hid]
    rfl
  · -- A node further to the front.
    obtain ⟨rfl, rfl⟩ : front = before ++ x :: behind ∧ m = z := by
      have hsnoc : front ++ [m] = before ++ x :: behind ++ [z] := by simpa using hfront
      exact List.append_singleton_inj.mp hsnoc
    have ht : t.nodes = before ++ x :: (behind ++ m :: back) := by rw [ht]; simp
    rw [if_neg (hne x (by simp)), h.cell_eq ht]
    cases behind <;> rfl

theorem stretch (h : a.Stores t) (id stop : Nat) :
    (a.stretch id stop).Stores (t.stretch [id] stop) := by
  refine ⟨by rw [fresh_stretch]; exact h.fresh, ?_⟩
  intro x _ _ hx
  obtain ⟨before, behind, hsplit, rfl, rfl⟩ := Tree.mem_threaded.mp hx
  have hsplit : t.nodes.map (Node.stretch [id] stop) = before ++ x :: behind := hsplit
  obtain ⟨front, rest, ht, rfl, hrest⟩ := List.map_eq_append_iff.mp hsplit
  obtain ⟨n, back, rfl, rfl, rfl⟩ := List.map_eq_cons_iff.mp hrest
  unfold Arena.stretch
  rw [n.stretch_id, cell?_modify, h.cell_eq ht, List.getLast?_map, List.head?_map,
    Option.map_map, Option.map_map]
  simp only [Function.comp_def, Node.stretch_id]
  by_cases hid : n.id = id
  · rw [if_pos hid, Node.stretch_of_mem (List.mem_singleton.mpr hid)]
    rfl
  · rw [if_neg hid, Node.stretch_of_not_mem (List.mem_singleton.not.mpr hid)]

theorem stretch_all (h : a.Stores t) (ids : List Nat) (stop : Nat) :
    (ids.foldl (fun a id => a.stretch id stop) a).Stores (t.stretch ids stop) := by
  induction ids generalizing a t with
  | nil =>
    have hnil : Node.stretch [] stop = id := funext fun n => n.stretch_of_not_mem (by simp) stop
    unfold Tree.stretch
    rw [hnil, List.map_id]
    exact h
  | cons id ids ih =>
    have hcons : t.stretch (id :: ids) stop = (t.stretch [id] stop).stretch ids stop := by
      simp [Tree.stretch, Node.stretch_cons id ids]
    rw [hcons]
    exact ih (h.stretch id stop)

/-! ## Links -/

/-- Along a chain of nodes that stand in each other, the parents lead to its end. -/
theorem walk_chain (h : a.Stores t) {chain : List Item} (hne : chain ≠ [])
    (hknown : ∀ i rest, i :: rest <:+ chain → ∃ n ∈ t.nodes, n.toPlaced = ⟨i, rest⟩) :
    Walk a.parentOf? (chain.map Item.id) := by
  apply walk_of_split
  · simpa using hne
  · intro front id back hsplit
    obtain ⟨items, rest, rfl, -, hrest⟩ := List.map_eq_append_iff.mp hsplit
    obtain ⟨i, rest, rfl, rfl, rfl⟩ := List.map_eq_cons_iff.mp hrest
    obtain ⟨n, hn, hplaced⟩ := hknown i rest (List.suffix_append _ _)
    have hparent := h.parentOf_eq hn
    rw [Node.parent?, show n.id = i.id from congrArg (fun p => p.item.id) hplaced, hplaced]
      at hparent
    rw [hparent, List.head?_map]

theorem ancestors_of_chain (h : a.Stores t) {i : Item} {rest : List Item}
    (hknown : ∀ j back, j :: back <:+ i :: rest → ∃ n ∈ t.nodes, n.toPlaced = ⟨j, back⟩) :
    a.ancestors i.id = (i :: rest).map Item.id := by
  refine (h.walk_chain (List.cons_ne_nil i rest) hknown).follow_eq_of_lt ?_
  intro id (hid : id ∈ (i :: rest).map Item.id)
  obtain ⟨j, hj, rfl⟩ := List.mem_map.mp hid
  obtain ⟨front, back, hsplit⟩ := List.append_of_mem hj
  obtain ⟨n, hn, hplaced⟩ := hknown j back ⟨front, hsplit.symm⟩
  rw [← show n.id = j.id from congrArg (fun p => p.item.id) hplaced]
  exact h.lt_fresh hn

theorem walk_next (h : a.Stores t) : Walk a.nextOf? (t.nodes.map Node.id) := by
  apply walk_of_split (by simp [Tree.nodes])
  intro front id back hsplit
  obtain ⟨nodes, rest, ht, -, hrest⟩ := List.map_eq_append_iff.mp hsplit
  obtain ⟨n, rest, rfl, rfl, rfl⟩ := List.map_eq_cons_iff.mp hrest
  rw [(h.neighbours ht).2, List.head?_map]

theorem walk_prev (h : a.Stores t) : Walk a.prevOf? (t.nodes.map Node.id).reverse := by
  apply walk_of_split (by simp [Tree.nodes])
  intro front id back hsplit
  rw [List.reverse_eq_iff, List.reverse_append, List.reverse_cons, List.append_assoc] at hsplit
  obtain ⟨nodes, rest, ht, hback, hrest⟩ := List.map_eq_append_iff.mp hsplit
  obtain ⟨n, rest, rfl, rfl, -⟩ := List.map_eq_cons_iff.mp hrest
  rw [(h.neighbours ht).1, ← List.getLast?_map, hback, List.getLast?_reverse]

/-! ## The tree that the links lead through -/

theorem walk_eq (h : a.Stores t) (ho : t.Ordered) : a.walk = t.nodes.map Node.id := by
  have hroot : t.root.id = 0 := congrArg (fun p => p.item.id) ho.root
  have hwalk := h.walk_next
  unfold Tree.nodes at hwalk
  rw [List.map_cons, hroot] at hwalk
  unfold walk Tree.nodes
  rw [List.map_cons, hroot]
  refine hwalk.follow_eq_of_lt ?_
  intro id hid
  rw [← hroot, ← List.map_cons] at hid
  obtain ⟨n, hn, rfl⟩ := List.mem_map.mp hid
  exact h.lt_fresh hn

theorem ancestors_eq (h : a.Stores t) (ho : t.Ordered) (hn : n ∈ t.nodes) :
    a.ancestors n.id = n.ancestors :=
  h.ancestors_of_chain (ho.chain_known n hn).2

/-- A node can be read back from its cell and the cells of its ancestors. -/
theorem node?_eq (h : a.Stores t) (ho : t.Ordered) (hn : n ∈ t.nodes) :
    a.node? n.id = some n := by
  obtain ⟨before, behind, hcell⟩ := h.cell_of_mem hn
  have hscopes : (n.scopes.map Item.id).mapM a.item? = some n.scopes := by
    apply mapM_map_eq
    intro i hi
    obtain ⟨front, back, hsplit⟩ := List.append_of_mem hi
    obtain ⟨m, hm, hplaced⟩ := (ho.chain_known n hn).2 i back
      ⟨n.item :: front, by rw [Placed.chain, hsplit]; rfl⟩
    have hitem := h.item_eq hm
    rwa [show m.id = i.id from congrArg (fun p => p.item.id) hplaced,
      show m.item = i from congrArg Placed.item hplaced] at hitem
  unfold node?
  rw [hcell, h.ancestors_eq ho hn]
  show ((n.scopes.map Item.id).mapM a.item?).bind _ = _
  rw [hscopes]
  rfl

/-- The links lead through the stored tree. -/
theorem tree?_eq (h : a.Stores t) (ho : t.Ordered) : a.tree? = some t := by
  have hroot : a.node? 0 = some t.root := by
    rw [← show t.root.id = 0 from congrArg (fun p => p.item.id) ho.root]
    exact h.node?_eq ho List.mem_cons_self
  have hinner : (t.inner.map Node.id).mapM a.node? = some t.inner :=
    mapM_map_eq fun n hn => h.node?_eq ho (List.mem_cons_of_mem _ hn)
  unfold tree?
  rw [hroot, h.walk_eq ho, h.fresh]
  show ((t.inner.map Node.id).mapM a.node?).bind _ = _
  rw [hinner]
  rfl

end Arena.Stores

end ClassList
