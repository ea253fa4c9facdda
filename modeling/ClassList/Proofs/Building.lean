-- A builder stores what a scan finds. Every operation of the builder on its arena is the
-- operation of the scan on its lists: the parent is the innermost scope, its parents are the
-- other scopes, and what is closed in the lists is stretched in the arena.
import Mathlib
import ClassList.Proofs.Storage

namespace ClassList

open Text

/-! ## The tree of an unfinished scan -/

/-- The node of an item so far. A group that was not closed stops right behind its parenthesis. -/
def Scan.draftNode (s : Scan) (p : Placed) : Node := s.nodeOf (p.item.start + 1) p

/-- The tree of everything found so far. -/
def Scan.draft (s : Scan) (size : Nat) : Tree where
  root := ⟨.root, size⟩
  inner := s.placed.reverse.map s.draftNode
  fresh := s.placed.length + 1

namespace Scan

variable {s : Scan} {size : Nat}

theorem draft_toPlaced (s : Scan) (size : Nat) :
    (s.draft size).nodes.map Node.toPlaced = s.found.reverse := by
  simp [Tree.nodes, draft, found, draftNode, nodeOf, Placed.root, Function.comp_def]

theorem draft_place (s : Scan) (size : Nat) (k : Kind) (n : Nat) :
    ((s.place k n).draft size).nodes =
      (s.draft size).nodes ++ [s.draftNode ⟨s.item k n, s.scopes⟩] := by
  unfold Tree.nodes draft
  rw [place_placed, List.reverse_cons, List.map_append, List.cons_append]
  rfl

theorem exists_node {p : Placed} (hp : p ∈ s.found) :
    ∃ n ∈ (s.draft size).nodes, n.toPlaced = p := by
  rw [← List.mem_reverse, ← s.draft_toPlaced size] at hp
  exact List.mem_map.mp hp

/-- The latest node has the highest number. -/
theorem Rooted.latest (h : s.Rooted) (size : Nat) :
    ∃ front m, (s.draft size).nodes = front ++ [m] ∧ m.id = s.placed.length ∧
      ∀ x ∈ front, x.id ≠ m.id := by
  have hids : (s.draft size).nodes.map Node.id = List.range (s.placed.length + 1) := by
    rw [← h.ids, ← s.draft_toPlaced size, List.map_map]
    rfl
  obtain ⟨front, m, hsplit⟩ : ∃ front m, (s.draft size).nodes = front ++ [m] :=
    ⟨_, _, (List.dropLast_append_getLast (List.cons_ne_nil _ _)).symm⟩
  rw [List.range_succ, hsplit, List.map_append] at hids
  obtain ⟨hfront, hm⟩ := List.append_singleton_inj.mp hids
  refine ⟨front, m, hsplit, hm, ?_⟩
  intro x hx
  have hlt : x.id ∈ List.range s.placed.length := hfront ▸ List.mem_map_of_mem hx
  rw [hm]
  exact Nat.ne_of_lt (List.mem_range.mp hlt)

/-- Closing a group stretches its node. -/
theorem Rooted.draft_close (h : s.Rooted) {g outer : Item} {rest : List Item}
    (hs : s.scopes = g :: outer :: rest) (hg : g.isGroup = true) (stop : Nat) :
    ({ s with scopes := outer :: rest, closed := (g.id, stop) :: s.closed } : Scan).draft size =
      (s.draft size).stretch [g.id] stop := by
  have hfound : ⟨g, outer :: rest⟩ ∈ s.found := h.known g _ (hs ▸ List.suffix_refl _)
  have hroot : (⟨.root, size⟩ : Node).id ≠ g.id := by
    intro hid
    have := h.eq_of_id (List.mem_append_right _ (List.mem_singleton_self _)) hfound hid
    cases this
  unfold draft Tree.stretch
  congr 1
  · exact (Node.stretch_of_not_mem (List.mem_singleton.not.mpr hroot) stop).symm
  · rw [List.map_map]
    apply List.map_congr_left
    intro p hp
    have hp : p ∈ s.found := List.mem_append_left _ (List.mem_reverse.mp hp)
    rw [Function.comp_apply]
    by_cases hid : (s.draftNode p).id = g.id
    · obtain rfl : p = ⟨g, outer :: rest⟩ := h.eq_of_id hp hfound hid
      rw [Node.stretch_of_mem (List.mem_singleton.mpr hid)]
      unfold draftNode nodeOf
      rw [stopOf_group hg, List.lookup_cons_self]
      rfl
    · rw [Node.stretch_of_not_mem (List.mem_singleton.not.mpr hid)]
      unfold draftNode nodeOf stopOf
      rw [List.lookup_cons, show (p.item.id == g.id) = false from beq_eq_false_iff_ne.mpr hid]

/-- At the end the open groups are stretched up to the end of the text. They are the groups in
scope, and no group that was closed is among them. -/
theorem Rooted.draft_finish (h : s.Rooted) {ended : Bool} {a : Text} {n : Nat}
    (hl : Layout ended a (s.restart n)) :
    (s.draft size).stretch ((s.scopes.filter Item.isGroup).map Item.id) size = s.tree size := by
  have hopen : ∀ p ∈ s.found, p.item.id ∈ (s.scopes.filter Item.isGroup).map Item.id ↔
      p.item ∈ s.scopes ∧ p.item.isGroup = true := by
    intro p hp
    constructor
    · intro hid
      obtain ⟨g, hg, hid⟩ := List.mem_map.mp hid
      obtain ⟨hscope, hgroup⟩ := List.mem_filter.mp hg
      obtain ⟨front, back, hsplit⟩ := List.append_of_mem hscope
      obtain rfl := h.eq_of_id hp (h.known g back ⟨front, hsplit.symm⟩) hid.symm
      exact ⟨hscope, hgroup⟩
    · intro hscope
      exact List.mem_map_of_mem (List.mem_filter.mpr hscope)
  unfold draft Tree.stretch tree
  congr 1
  · unfold Node.stretch
    split <;> rfl
  · rw [List.map_map]
    apply List.map_congr_left
    intro p hp
    have hp : p ∈ s.placed := List.mem_reverse.mp hp
    have hiff := hopen p (List.mem_append_left _ hp)
    rw [Function.comp_apply]
    show _ = s.nodeOf size p
    by_cases hg : p.item.isGroup = true
    · rcases hl.group_state p hp hg with ⟨hscope, hnone⟩ | ⟨j, hj, hsome⟩
      · rw [Node.stretch_of_mem (hiff.mpr ⟨hscope, hg⟩)]
        unfold draftNode nodeOf
        rw [stopOf_group hg, stopOf_group hg, show s.closed.lookup p.item.id = none from hnone]
        rfl
      · have hnot : p.item ∉ s.scopes := by
          intro hscope
          have := hl.not_closes_of_scope hp hg hscope j
          rw [hj] at this
          cases this
        rw [Node.stretch_of_not_mem fun hid => hnot (hiff.mp hid).1]
        unfold draftNode nodeOf
        rw [stopOf_group hg, stopOf_group hg,
          show s.closed.lookup p.item.id = some (j + 1) from hsome]
        rfl
    · rw [Node.stretch_of_not_mem fun hid => hg (hiff.mp hid).2]
      rw [Bool.not_eq_true] at hg
      unfold draftNode nodeOf
      rw [stopOf_word hg, stopOf_word hg]

end Scan

/-! ## Variants -/

section Variants

variable {b : Builder} {s : Scan} {rest : Text}

theorem Scan.endVariant_bang (h : s.word = '!' :: rest) :
    s.endVariant = ((s.enter (.identifier ⟨['!'], false⟩) s.start).enter (.variant ⟨rest⟩)
      (s.start + 1)).restart s.offset := by
  unfold endVariant
  rw [h]
  rfl

theorem Scan.endVariant_plain (h : ∀ rest, s.word ≠ '!' :: rest) :
    s.endVariant = (s.enter (.variant ⟨s.word⟩) s.start).restart s.offset := by
  unfold endVariant
  split
  · rename_i rest hword
    exact absurd hword (h rest)
  · rfl

theorem Builder.endVariant_bang (h : b.word = '!' :: rest) :
    b.endVariant = ((b.enter (.identifier ⟨['!'], false⟩) ⟨b.start, b.start + 1⟩).enter
      (.variant ⟨rest⟩) (.ofText (b.start + 1) rest)).restart b.offset := by
  unfold endVariant
  rw [h]
  rfl

theorem Builder.endVariant_plain (h : ∀ rest, b.word ≠ '!' :: rest) :
    b.endVariant =
      (b.enter (.variant ⟨b.word⟩) (.ofText b.start b.word)).restart b.offset := by
  unfold endVariant
  split
  · rename_i rest hword
    exact absurd hword (h rest)
  · rfl

end Variants

/-! ## The builder and the scan -/

/-- The builder is where the scan is. -/
structure Builder.Follows (b : Builder) (s : Scan) (size : Nat) : Prop where
  stores : b.arena.Stores (s.draft size)
  rooted : s.Rooted
  closed : ∀ c ∈ s.closed, c.1 ≤ s.placed.length
  parent : s.scopes.head?.map Item.id = some b.parent
  latest : b.latest = s.placed.length
  word : b.word = s.word
  start : b.start = s.start
  mode : b.mode = s.mode

namespace Builder.Follows

variable {b : Builder} {s : Scan} {size : Nat}

theorem init (size : Nat) : (Builder.init size).Follows .init size where
  stores := by
    refine ⟨rfl, ?_⟩
    intro n _ _ hn
    obtain ⟨front, back, hsplit, rfl, rfl⟩ := Tree.mem_threaded.mp hn
    obtain ⟨rfl, rfl, rfl⟩ : front = [] ∧ n = ⟨.root, size⟩ ∧ back = [] := by
      cases front <;> simp_all [Scan.draft, Scan.init, Tree.nodes]
    rfl
  rooted := .of_init
  closed := by simp [Scan.init]
  parent := rfl
  latest := rfl
  word := rfl
  start := rfl
  mode := rfl

theorem offset (h : b.Follows s size) : b.offset = s.offset := by
  unfold Builder.offset Scan.offset
  rw [h.start, h.word]

/-- Another word changes nothing that is stored. -/
theorem withWord (h : b.Follows s size) {w w' : Text} {n n' : Nat} {m m' : Mode} (hw : w = w')
    (hn : n = n') (hm : m = m') :
    Follows { b with word := w, start := n, mode := m }
      { s with word := w', start := n', mode := m' } size where
  stores := h.stores
  rooted := ⟨h.rooted.ids, h.rooted.known, h.rooted.root⟩
  closed := h.closed
  parent := h.parent
  latest := h.latest
  word := hw
  start := hn
  mode := hm

theorem restart (h : b.Follows s size) (n : Nat) : (b.restart n).Follows (s.restart n) size :=
  h.withWord rfl rfl rfl

theorem push (h : b.Follows s size) (c : Char) : (b.push c).Follows (s.push c) size :=
  h.withWord (congrArg (· ++ [c]) h.word) h.start h.mode

theorem inMode (h : b.Follows s size) (m : Mode) :
    Follows { b with mode := m } { s with mode := m } size :=
  h.withWord h.word h.start rfl

theorem awaitsName (h : b.Follows s size) : b.awaitsName = s.awaitsName := by
  obtain ⟨front, m, hnodes, hid, -⟩ := h.rooted.latest size
  have hitem : b.arena.item? b.latest = some m.item := by
    rw [h.latest, ← hid]
    exact h.stores.item_eq (by rw [hnodes]; simp)
  have hlast : s.found.head? = some m.toPlaced := by
    rw [← List.getLast?_reverse, ← s.draft_toPlaced size, hnodes, List.map_append]
    simp
  unfold Builder.awaitsName Scan.awaitsName
  rw [hitem]
  unfold Scan.found at hlast
  cases hp : s.placed with
  | nil =>
    have hm : Placed.root = m.toPlaced := by simpa [hp] using hlast
    rw [← show Placed.root.item = m.item from congrArg Placed.item hm]
    rfl
  | cons p placed =>
    have hm : p = m.toPlaced := by simpa [hp] using hlast
    rw [hm]
    rfl

/-! ## New nodes -/

theorem append (h : b.Follows s size) (k : Kind) (span : Span)
    (hspan : s.stopOf (span.start + 1) (s.item k span.start) = span.stop) :
    (b.append k span).Follows (s.place k span.start) size := by
  obtain ⟨front, m, hnodes, hid, hne⟩ := h.rooted.latest size
  refine ⟨?_, h.rooted.place k span.start, fun c hc => Nat.le_succ_of_le (h.closed c hc), h.parent,
    ?_, h.word, h.start, h.mode⟩
  · have hnew : (s.draftNode ⟨s.item k span.start, s.scopes⟩).span = span := by
      unfold Node.span Scan.draftNode Scan.nodeOf
      dsimp only
      rw [show (s.item k span.start).start = span.start from rfl, hspan]
    have hdraft : ((s.place k span.start).draft size).nodes =
        front ++ [m, s.draftNode ⟨s.item k span.start, s.scopes⟩] := by
      rw [s.draft_place, hnodes, List.append_assoc]
      rfl
    have hattach := h.stores.attach (n := s.draftNode ⟨s.item k span.start, s.scopes⟩) hnodes hne
      rfl h.parent hdraft rfl
    rw [hnew] at hattach
    unfold Builder.append
    rw [h.latest, ← hid]
    exact hattach
  · exact h.stores.fresh

theorem enter (h : b.Follows s size) (k : Kind) (span : Span)
    (hspan : s.stopOf (span.start + 1) (s.item k span.start) = span.stop) :
    (b.enter k span).Follows (s.enter k span.start) size := by
  have happend := h.append k span hspan
  refine ⟨happend.stores, h.rooted.enter k span.start, happend.closed, ?_, happend.latest, h.word,
    h.start, h.mode⟩
  exact congrArg some h.stores.fresh.symm

/-- A group that has just been opened. -/
theorem open_stop (h : b.Follows s size) (n : Nat) :
    s.stopOf (n + 1) (s.item .group n) = n + 1 := by
  have hnone : s.closed.lookup (s.item .group n).id = none := by
    rw [List.lookup_eq_none_iff]
    intro c hc
    have hle := h.closed c hc
    rw [bne_iff_ne]
    exact Nat.ne_of_gt (Nat.lt_succ_of_le hle)
  rw [Scan.stopOf_group rfl, hnone]
  rfl

/-! ## Words -/

theorem endVariant (h : b.Follows s size) : b.endVariant.Follows s.endVariant size := by
  by_cases hbang : ∃ rest, s.word = '!' :: rest
  · obtain ⟨rest, hword⟩ := hbang
    have henter := h.enter (.identifier ⟨['!'], false⟩) ⟨s.start, s.start + 1⟩ rfl
    rw [Builder.endVariant_bang (h.word.trans hword), Scan.endVariant_bang hword, h.start, h.offset]
    exact (henter.enter (.variant ⟨rest⟩) (.ofText (s.start + 1) rest) rfl).restart s.offset
  · have hword : ∀ rest, s.word ≠ '!' :: rest := not_exists.mp hbang
    rw [Builder.endVariant_plain (by rwa [h.word]), Scan.endVariant_plain hword, h.word, h.start,
      h.offset]
    exact (h.enter (.variant ⟨s.word⟩) (.ofText s.start s.word) rfl).restart s.offset

theorem endOuter (h : b.Follows s size) : b.endOuter.Follows s.endOuter size := by
  unfold Builder.endOuter Scan.endOuter
  rw [h.word, h.start]
  split
  · exact h
  · exact h.enter (.identifier ⟨s.word, false⟩) (.ofText s.start s.word) rfl

theorem endText (h : b.Follows s size) (closed : Bool) :
    (b.endText closed).Follows (s.place (.identifier ⟨s.word, closed⟩) s.start) size := by
  unfold Builder.endText
  rw [h.word, h.start]
  exact h.append (.identifier ⟨s.word, closed⟩) (.ofText s.start s.word) rfl

/-! ## Scopes -/

/-- The ancestors of the parent are the scopes. -/
theorem ancestors_eq (h : b.Follows s size) :
    b.arena.ancestors b.parent = s.scopes.map Item.id := by
  obtain ⟨i, rest, hs⟩ := List.exists_cons_of_ne_nil h.rooted.scopes_ne
  have hparent : i.id = b.parent := by simpa [hs] using h.parent
  rw [hs, ← hparent]
  apply h.stores.ancestors_of_chain
  intro j back hsuf
  exact Scan.exists_node (h.rooted.known j back (hs ▸ hsuf))

/-- A scope is stored with its start. -/
theorem cell_of_scope (h : b.Follows s size) {i : Item} (hi : i ∈ s.scopes) :
    ∃ c, b.arena.cell? i.id = some c ∧ c.item i.id = i := by
  obtain ⟨front, back, hsplit⟩ := List.append_of_mem hi
  obtain ⟨n, hn, hplaced⟩ := Scan.exists_node (h.rooted.known i back ⟨front, hsplit.symm⟩)
  obtain ⟨before, behind, hcell⟩ := h.stores.cell_of_mem hn
  have hitem : n.item = i := congrArg Placed.item hplaced
  rw [show n.id = i.id from congrArg Item.id hitem] at hcell
  exact ⟨_, hcell, by rw [← hitem]; rfl⟩

theorem isGroup_eq (h : b.Follows s size) {i : Item} (hi : i ∈ s.scopes) :
    b.arena.isGroup i.id = i.isGroup := by
  obtain ⟨c, hcell, hitem⟩ := h.cell_of_scope hi
  unfold Arena.isGroup Arena.item?
  rw [hcell, Option.map_some, hitem]
  rfl

theorem leaveWords (h : b.Follows s size) : b.leaveWords.Follows s.leaveWords size := by
  have hne : s.leaveWords.scopes ≠ [] := ne_nil_of_root (leaveWords_root h.rooted.root)
  have hfind : (b.arena.ancestors b.parent).find? b.arena.isGroup =
      s.leaveWords.scopes.head?.map Item.id := by
    rw [Scan.leaveWords_scopes, ← List.find?_eq_head?_dropWhile_not, h.ancestors_eq,
      List.find?_map]
    exact congrArg _ (List.find?_congr fun i hi => h.isGroup_eq hi)
  refine ⟨h.stores, h.rooted.of_suffix rfl (List.dropWhile_suffix _) hne, h.closed, ?_, h.latest,
    h.word, h.start, h.mode⟩
  unfold Builder.leaveWords
  rw [hfind]
  obtain ⟨g, rest, hg⟩ := List.exists_cons_of_ne_nil hne
  rw [hg]
  rfl

theorem leaveGroup (h : b.Follows s size) (hg : ∀ g ∈ s.scopes.head?, g.isGroup = true)
    (stop : Nat) : (b.leaveGroup stop).Follows (s.leaveGroup stop) size := by
  unfold Builder.leaveGroup Scan.leaveGroup
  rcases hs : s.scopes with _ | ⟨g, _ | ⟨outer, rest⟩⟩
  · exact absurd hs h.rooted.scopes_ne
  · -- The last scope is the root, which has the number zero.
    obtain rfl : g = .root := by simpa [hs] using h.rooted.root
    have hparent : 0 = b.parent := by simpa [hs, Item.root] using h.parent
    rw [if_pos hparent.symm]
    exact h
  · have hparent : g.id = b.parent := by simpa [hs] using h.parent
    have hfound : ⟨g, outer :: rest⟩ ∈ s.found := h.rooted.known g _ (hs ▸ List.suffix_refl _)
    have hzero : b.parent ≠ 0 := by
      intro hzero
      have hroot : Placed.root ∈ s.found := List.mem_append_right _ (List.mem_singleton_self _)
      have heq := h.rooted.eq_of_id hfound hroot (hparent.trans hzero)
      cases heq
    have houter : b.arena.parentOf? b.parent = some outer.id := by
      obtain ⟨n, hn, hplaced⟩ := Scan.exists_node hfound
      have hid : n.id = g.id := congrArg (fun p => p.item.id) hplaced
      rw [← hparent, ← hid, h.stores.parentOf_eq hn, Node.parent?, hplaced]
      rfl
    rw [if_neg hzero, houter]
    refine ⟨?_, h.rooted.of_suffix rfl ?_ (List.cons_ne_nil _ _), ?_, rfl, h.latest, h.word,
      h.start, h.mode⟩
    · rw [h.rooted.draft_close hs (hg g (by rw [hs]; rfl)), ← hparent]
      exact h.stores.stretch g.id stop
    · rw [hs]
      exact List.suffix_cons _ _
    · intro c hc
      rcases List.mem_cons.mp hc with rfl | hc
      · exact h.rooted.id_le hfound
      · exact h.closed c hc

/-! ## One character -/

/-- The builder goes into a name that has ended, but at once out of it again. -/
theorem endIdentifier (h : b.Follows s size) :
    b.endIdentifier.leaveWords.Follows s.endIdentifier.leaveWords size := by
  unfold Builder.endIdentifier Scan.endIdentifier
  rw [h.word, h.awaitsName, h.start]
  split
  · exact h.leaveWords
  · have henter := h.enter (.identifier ⟨s.word, true⟩) (.ofText s.start s.word) rfl
    have hleave : (s.enter (.identifier ⟨s.word, true⟩) s.start).leaveWords =
        (s.place (.identifier ⟨s.word, true⟩) s.start).leaveWords := by
      unfold Scan.leaveWords
      rw [Scan.enter_scopes, List.dropWhile_cons_of_pos rfl]
      rfl
    rw [← hleave]
    exact henter.leaveWords

theorem read (h : b.Follows s size) (c : Char) : (b.read c).Follows (s.read c) size := by
  unfold Builder.read Scan.read
  rw [h.offset, h.word]
  cases Delimiter.ofChar? c with
  | none => exact (h.push c).inMode _
  | some d =>
    cases d with
    | colon =>
      dsimp only
      split
      · exact h.restart _
      · exact (h.push c).inMode .colon
    | opening =>
      have houter := h.endOuter
      exact (houter.enter .group ⟨s.offset, s.offset + 1⟩ (houter.open_stop s.offset)).restart _
    | closing => exact (h.endIdentifier.leaveGroup (head_dropWhile_isGroup _) _).restart _
    | blank => exact h.endIdentifier.restart _

theorem step (h : b.Follows s size) (c : Char) : (b.step c).Follows (s.step c) size := by
  unfold Builder.step Scan.step
  rw [h.mode]
  cases s.mode with
  | plain => exact h.read c
  | bracket => exact (h.push c).inMode _
  | colon =>
    dsimp only
    split
    · exact (h.push c).endVariant
    · exact h.endVariant.read c

theorem settle (h : b.Follows s size) : b.settle.Follows s.settle size := by
  unfold Builder.settle Scan.settle
  rw [h.mode]
  split
  · exact h.endVariant
  · exact h

/-- While a text is read, the builder is where the scan is. -/
theorem run (size : Nat) (t : Text) : (Builder.run size t).Follows (Scan.run t) size := by
  induction t using List.reverseRecOn with
  | nil => exact init size
  | append_singleton t c ih =>
    rw [Builder.run_append, Scan.run_append]
    exact ih.step c

/-! ## The end -/

theorem finish (h : b.Follows s size) {ended : Bool} {a : Text} {n : Nat}
    (hl : Layout ended a (s.restart n)) : b.finish.Stores (s.tree size) := by
  obtain ⟨before, behind, hroot⟩ := h.stores.cell_of_mem List.mem_cons_self
  have hroot : b.arena.cell? 0 = some (Node.cell ⟨.root, size⟩ before behind) := hroot
  have hopen : (b.arena.ancestors b.parent).filter b.arena.isGroup =
      (s.scopes.filter Item.isGroup).map Item.id := by
    rw [h.ancestors_eq, List.filter_map]
    exact congrArg _ (List.filter_congr fun i hi => h.isGroup_eq hi)
  unfold Builder.finish
  rw [hroot, hopen, ← h.rooted.draft_finish hl]
  exact h.stores.stretch_all _ size

end Builder.Follows

/-! ## The arena of a text -/

/-- The scan at the end of a reading: at the end of the text, or at a stop, where the
word is a name even if it is empty. -/
def Scan.atEnd (stop : Option Nat) (t : Text) : Scan :=
  match stop with
  | none => (run t).settle.endIdentifier
  | some n =>
    let s := (run (t.upTo n)).settle
    s.place (.identifier ⟨s.word, t.upTo n = t⟩) s.start

theorem Tree.ofTextTo_eq (stop : Option Nat) (t : Text) :
    ofTextTo stop t = (Scan.atEnd stop t).tree (size t) := by
  cases stop <;> rfl

/-- What has been read is laid out, up to where the next word would start. -/
theorem Scan.layout_atEnd (stop : Option Nat) (t : Text) :
    ∃ ended n, Layout ended (t.readTo stop) ((Scan.atEnd stop t).restart n) := by
  cases stop with
  | none =>
    obtain ⟨ended, hl⟩ := layout_endIdentifier (hasRead_settle (hasRead_run t)) (settle_mode _)
    exact ⟨ended, _, hl⟩
  | some n =>
    have hread := hasRead_settle (hasRead_run (t.upTo n))
    obtain ⟨before, hsplit, hl⟩ := hread.split
    have hname := hl.name (decide (t.upTo n = t)) (hread.solid (settle_mode _))
    rw [← hsplit, ← show (run (t.upTo n)).settle.start = size before from hl.start_eq,
      place_restart] at hname
    exact ⟨true, _, hname⟩

theorem Builder.Follows.atEnd (stop : Option Nat) (t : Text) :
    (Builder.atEnd stop t).Follows (Scan.atEnd stop t) (size t) := by
  cases stop with
  | none =>
    have hfollows := (run (size t) t).settle
    unfold Builder.atEnd Scan.atEnd Scan.endIdentifier
    dsimp only
    rw [hfollows.word, hfollows.awaitsName]
    split
    · exact hfollows
    · exact hfollows.endText true
  | some n => exact (run (size t) (t.upTo n)).settle.endText _

namespace Arena

/-- What is stored for a text is the tree of the text. -/
theorem stores_ofTextTo (stop : Option Nat) (t : Text) :
    (ofTextTo stop t).Stores (Tree.ofTextTo stop t) := by
  obtain ⟨ended, n, hl⟩ := Scan.layout_atEnd stop t
  rw [Tree.ofTextTo_eq]
  exact (Builder.Follows.atEnd stop t).finish hl

/-- The links of what is stored for a text lead through the tree of the text. -/
theorem tree?_ofTextTo (stop : Option Nat) (t : Text) :
    (ofTextTo stop t).tree? = some (Tree.ofTextTo stop t) :=
  (stores_ofTextTo stop t).tree?_eq (Tree.ordered_ofTextTo stop t).1

end Arena

end ClassList
