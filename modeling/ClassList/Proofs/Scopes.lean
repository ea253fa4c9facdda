-- The laws of scopes. The scan moves in and out of scopes one word and one
-- parenthesis at a time, but which words a name belongs to can be read off
-- the text alone: count the parentheses in between, and stop at the first
-- blank or closing parenthesis outside of them.
import Mathlib
import ClassList.Rule.Query
import ClassList.Proofs.Nesting

namespace ClassList

open Text

/-! ## Reading with a depth counter -/

namespace Text

/-- The depth behind a character. There is none behind a blank or a closing
parenthesis at depth zero. -/
def depthStep (depth : Nat) (c : Char) : Option Nat :=
  if c = '(' then some (depth + 1)
  else if c = ')' then if depth = 0 then none else some (depth - 1)
  else if c ∈ blanks then if depth = 0 then none else some depth
  else some depth

/-- The depth behind some characters, from depth zero in front of them. -/
def depthAfter (t : Text) : Option Nat := t.foldlM depthStep 0

/-- The characters outside all runs of brackets, from an offset on. -/
def behind (n : Nat) (t : Text) : Text := outside (inRun (t.upTo n)) (t.after n)

/-- The characters of a range that stand outside all runs of brackets. -/
def structuralIn (s : Span) (t : Text) : Text := outside (inRun (t.upTo s.start)) (t.slice s)

/-- A word that stops at `m` takes in what starts at `n`: no blank and no
closing parenthesis between them stands at depth zero. -/
def reaches (t : Text) (m n : Nat) : Bool := (depthAfter (t.structuralIn ⟨m, n⟩)).isSome

theorem depthAfter_append (a b : Text) :
    depthAfter (a ++ b) = (depthAfter a).bind fun d => b.foldlM depthStep d := by
  simp only [depthAfter, List.foldlM_append]
  rfl

theorem depthAfter_push (a : Text) (c : Char) :
    depthAfter (a ++ [c]) = (depthAfter a).bind fun d => depthStep d c := by
  rw [depthAfter_append]
  congr 1
  funext d
  simp

/-- Characters that are neither parentheses nor blanks change no depth. -/
theorem depthAfter_neutral {a b : Text} (h : ∀ c ∈ b, c ∉ delimiters ∨ c = ':') :
    depthAfter (a ++ b) = depthAfter a := by
  induction b using List.reverseRecOn with
  | nil => simp
  | append_singleton b c ih =>
    have hstep : ∀ d, depthStep d c = some d := by
      intro d
      rcases h c (by simp) with hc | rfl
      · simp only [delimiters, List.mem_cons, not_or] at hc
        simp [depthStep, blanks, hc]
      · rfl
    rw [← List.append_assoc, depthAfter_push, ih (fun c hc => h c (by simp [hc]))]
    simp [hstep]

theorem behind_append {n : Nat} {a : Text} (b : Text) (h : n ≤ size a) :
    behind n (a ++ b) = behind n a ++ outside (inRun a) b := by
  have hrun : runAfter (inRun (upTo n a)) (after n a) = inRun a := by
    rw [← inRun_append, upTo_append_after]
  rw [behind, upTo_append_of_le a b h, after_append_of_le a b h, outside_append, hrun]
  rfl

theorem behind_size (a : Text) : behind (size a) a = [] := by
  simp [behind, outside]

/-- Only the text up to the end of a range decides what stands in it. -/
theorem structuralIn_append {m : Nat} {a : Text} (b : Text) (h : m ≤ size a) :
    structuralIn ⟨m, size a⟩ (a ++ b) = behind m a := by
  simp only [structuralIn, slice, behind, upTo_size_append, upTo_append_of_le a b h]

/-- A delimiter outside all runs is read as it is. -/
theorem outside_delimiter {c : Char} (h : c ∈ delimiters) : outside false [c] = [c] := by
  have hne : c ≠ '[' := by
    rintro rfl
    revert h
    decide
  simp [outside, hne]

variable {n : Nat} {a : Text}

/-- A word that is read behind an offset keeps the depth. -/
theorem depth_behind_word {w : Text} (hn : n ≤ size a) (ha : inRun a = false)
    (hw : ∀ c ∈ outside false w, c ∉ delimiters ∨ c = ':') :
    depthAfter (behind n (a ++ w)) = depthAfter (behind n a) := by
  rw [behind_append _ hn, ha, depthAfter_neutral hw]

/-- A delimiter that is read behind an offset is a step of the counter. -/
theorem depth_behind_delimiter {c : Char} (hn : n ≤ size a) (ha : inRun a = false)
    (hc : c ∈ delimiters) :
    depthAfter (behind n (a ++ [c])) = (depthAfter (behind n a)).bind fun d => depthStep d c := by
  rw [behind_append _ hn, ha, outside_delimiter hc, depthAfter_push]

theorem depthStep_blank {c : Char} (hc : c ∈ blanks) (d : Nat) :
    depthStep d c = if d = 0 then none else some d := by
  obtain ⟨hopening, hclosing⟩ := blank_ne_paren hc
  simp [depthStep, hopening, hclosing, hc]

end Text

/-! ## The depth of a scope -/

/-- How many groups were opened inside the scope of an item and are still
open, if the item is among the scopes. -/
def groupsAbove (i : Item) : List Item → Option Nat
  | [] => none
  | j :: rest =>
    if j = i then some 0 else (groupsAbove i rest).map fun d => if j.isGroup then d + 1 else d

theorem groupsAbove_isSome {i : Item} {scopes : List Item} :
    (groupsAbove i scopes).isSome = true ↔ i ∈ scopes := by
  induction scopes with
  | nil => simp [groupsAbove]
  | cons j scopes ih =>
    by_cases h : j = i
    · simp [groupsAbove, h]
    · simp [groupsAbove, h, ih, Ne.symm h]

theorem groupsAbove_eq_none {i : Item} {scopes : List Item} (h : i ∉ scopes) :
    groupsAbove i scopes = none := by
  rw [← Option.not_isSome_iff_eq_none, groupsAbove_isSome]
  exact h

/-- A blank ends the scopes of all words that no open group protects. -/
theorem groupsAbove_dropWhile {i : Item} {scopes : List Item} (hi : i.isGroup = false)
    (hs : scopes.Pairwise fun i j => j.id < i.id) :
    groupsAbove i (scopes.dropWhile (!·.isGroup)) =
      (groupsAbove i scopes).bind fun d => if d = 0 then none else some d := by
  induction scopes with
  | nil => rfl
  | cons j scopes ih =>
    obtain ⟨hj, hs⟩ := List.pairwise_cons.mp hs
    by_cases hg : j.isGroup = true
    · have hne : j ≠ i := by
        rintro rfl
        rw [hi] at hg
        cases hg
      rw [List.dropWhile_cons_of_neg (by simp [hg])]
      simp only [groupsAbove, hne, if_false, hg, if_true]
      cases groupsAbove i scopes <;> simp
    · have hg : j.isGroup = false := by simpa using hg
      rw [List.dropWhile_cons_of_pos (by simp [hg]), ih hs]
      by_cases he : j = i
      · -- The item itself is left, and it does not stand a second time further out.
        subst he
        have hnot : j ∉ scopes := fun hmem => Nat.lt_irrefl _ (hj j hmem)
        simp [groupsAbove, groupsAbove_eq_none hnot]
      · simp [groupsAbove, he, hg]

/-- Without its innermost group, a scope holds one open group less. -/
theorem groupsAbove_tail {i : Item} {scopes : List Item} (hi : i.isGroup = false)
    (hg : ∀ g ∈ scopes.head?, g.isGroup = true) :
    groupsAbove i (if scopes.length ≤ 1 then scopes else scopes.tail) =
      (groupsAbove i scopes).map (· - 1) := by
  rcases scopes with _ | ⟨g, rest⟩
  · rfl
  · have hgroup : g.isGroup = true := hg g rfl
    have hne : g ≠ i := by
      rintro rfl
      rw [hi] at hgroup
      cases hgroup
    rcases rest with _ | ⟨outer, rest⟩
    · simp [groupsAbove, hne]
    · have hcons : groupsAbove i (g :: outer :: rest) =
          (groupsAbove i (outer :: rest)).map (· + 1) := by
        rw [groupsAbove, if_neg hne, hgroup]
        rfl
      rw [hcons, Option.map_map]
      simp [Function.comp_def]

theorem head_dropWhile_isGroup (scopes : List Item) :
    ∀ g ∈ (scopes.dropWhile (!·.isGroup)).head?, g.isGroup = true := by
  intro g hg
  induction scopes with
  | nil => cases hg
  | cons j scopes ih =>
    by_cases hj : j.isGroup = true
    · rw [List.dropWhile_cons_of_neg (by simp [hj])] at hg
      cases hg
      exact hj
    · rw [List.dropWhile_cons_of_pos (by simp [hj])] at hg
      exact ih hg

/-- A closing parenthesis ends one group more than a blank. -/
theorem groupsAbove_leaveGroup {i : Item} {s : Scan} (n : Nat) (hi : i.isGroup = false)
    (hs : s.scopes.Pairwise fun i j => j.id < i.id) :
    groupsAbove i (s.leaveWords.leaveGroup n).scopes =
      (groupsAbove i s.scopes).bind fun d => if d = 0 then none else some (d - 1) := by
  rw [Scan.leaveGroup_scopes, Scan.leaveWords_scopes,
    groupsAbove_tail hi (head_dropWhile_isGroup s.scopes), groupsAbove_dropWhile hi hs]
  cases groupsAbove i s.scopes with
  | none => rfl
  | some d => by_cases h0 : d = 0 <;> simp [h0]

/-! ## The depth counter follows the scopes -/

/-- Between two words, the counter from a word on gives the number of groups
above the word, or nothing when the scan has left its scope. Only a name that
has just ended is not yet left by the counter. -/
theorem Layout.depth_eq {ended : Bool} {a : Text} {s : Scan} (h : Layout ended a s) :
    ∀ p ∈ s.placed, p.item.isGroup = false →
      depthAfter (behind p.item.span.stop a) = groupsAbove p.item s.scopes ∨
        (ended = true ∧ p.item.span.stop = size a ∧ p.item ∉ s.scopes) := by
  induction h with
  | start => simp [Scan.init]
  | @colon a s hl ih =>
    intro p hp hg
    left
    have heq := (ih p hp hg).resolve_right (by simp)
    have hle := (hl.standsIn hp hg).stop_le
    rw [depth_behind_word hle (hl.not_inRun rfl) (by simp [outside]), heq]
    rfl
  | @enter a raw s k hl ho ih =>
    intro p hp hg
    left
    rcases List.mem_cons.mp hp with rfl | hp
    · have hstop : (s.item k (size a)).span.stop = size (a ++ raw) := by
        simp only [Item.span, Span.ofText, ho.item_raw, size_append]
        rfl
      simp only [hstop, behind_size]
      simp [groupsAbove, depthAfter]
    · have heq := (ih p hp hg).resolve_right (by simp)
      have hle := (hl.standsIn hp hg).stop_le
      have hne := (hl.nested.fresh hp k (size a)).symm
      rw [depth_behind_word hle (hl.not_inRun rfl) ho.outside, heq]
      simp [groupsAbove, hne, ho.not_isGroup]
  | @name a w s closed hl hs ih =>
    intro p hp hg
    rcases List.mem_cons.mp hp with rfl | hp
    · right
      refine ⟨rfl, ?_, ?_⟩
      · simp [Item.span, Span.ofText, Scan.item, Item.raw, size_append]
      · intro hmem
        have := hl.nested.scope_le hmem
        simp [Scan.item] at this
    · left
      have heq := (ih p hp hg).resolve_right (by simp)
      have hle := (hl.standsIn hp hg).stop_le
      rw [depth_behind_word hle (hl.not_inRun rfl) (fun c hc => Or.inl (hs c hc)), heq]
      rfl
  | @opening a s hl ih =>
    intro p hp hg
    left
    rcases List.mem_cons.mp hp with rfl | hp
    · cases hg
    · have heq := (ih p hp hg).resolve_right (by simp)
      have hle := (hl.standsIn hp hg).stop_le
      have hne := (hl.nested.fresh hp .group (size a)).symm
      rw [depth_behind_delimiter hle (hl.not_inRun rfl) (by decide), heq]
      simp only [Scan.restart_scopes, Scan.enter_scopes, groupsAbove, if_neg hne]
      cases groupsAbove p.item s.scopes <;> rfl
  | @closing ended a s hl hr ih =>
    intro p hp hg
    left
    have hp : p ∈ s.placed := by simpa using hp
    have hle := (hl.standsIn hp hg).stop_le
    rw [depth_behind_delimiter hle hr (by decide), Scan.restart_scopes,
      groupsAbove_leaveGroup _ hg hl.nested.stacked]
    rcases ih p hp hg with heq | ⟨-, hstop, hnot⟩
    · rw [heq]
      rfl
    · rw [hstop, behind_size, groupsAbove_eq_none hnot]
      rfl
  | @blank ended a s c hl hr hc ih =>
    intro p hp hg
    left
    have hle := (hl.standsIn hp hg).stop_le
    rw [depth_behind_delimiter hle hr (blanks_subset hc), Scan.restart_scopes,
      Scan.leaveWords_scopes, groupsAbove_dropWhile hg hl.nested.stacked]
    simp only [depthStep_blank hc]
    rcases ih p hp hg with heq | ⟨-, hstop, hnot⟩
    · rw [heq]
    · rw [hstop, behind_size, groupsAbove_eq_none hnot]
      rfl

/-- So the counter between two items decides whether one is in the scope of
the other. -/
theorem Layout.reaches_iff {ended : Bool} {a : Text} {s : Scan} (h : Layout ended a s)
    {p q : Placed} (hp : p ∈ s.placed) (hq : q ∈ s.placed) (hg : p.item.isGroup = false)
    (hne : p ≠ q) (hle : p.item.span.stop ≤ q.item.start) :
    reaches a p.item.span.stop q.item.start = true ↔ p.item ∈ q.scopes := by
  have hstart : p.item.start ≤ p.item.span.stop := Nat.le_add_right _ _
  obtain ⟨before, s₀, rest, hl, rfl, hp₀, hqs, hqscopes⟩ :=
    h.placed_before hp hq hne (Nat.le_trans hstart hle)
  rw [hqs] at hle ⊢
  rw [reaches, structuralIn_append rest hle, hqscopes, ← groupsAbove_isSome]
  rcases hl.depth_eq p hp₀ hg with heq | ⟨he, -⟩
  · rw [heq]
  · cases he

/-! ## The words around a name -/

/-- The words that take in a name, in source order, read off the text. -/
def Text.scopeOf (t : Text) (last : Node) : List Node :=
  (Tree.ofText t).words.filter fun w =>
    w ≠ last ∧ w.stop ≤ last.item.start ∧ t.reaches w.stop last.item.start = true

theorem Tree.terminals_eq (t : Tree) : t.terminals = t.words.filter Node.isTerminal := by
  unfold terminals words
  rw [List.filter_filter]
  apply List.filter_congr
  intro n _
  rcases n with ⟨⟨⟨id, _ | v | w, start⟩, scopes⟩, stop⟩ <;>
    simp [Node.isTerminal, Item.identifier?, Item.isGroup]

/-- A word is on the chain of another one exactly if it is one of its scopes. -/
theorem Layout.id_mem_ancestors {ended : Bool} {a : Text} {s : Scan} (h : Layout ended a s)
    {p q : Placed} (hp : p ∈ s.placed) (hq : q ∈ s.placed) (hne : p ≠ q) :
    p.wordNode.id ∈ q.wordNode.ancestors ↔ p.item ∈ q.scopes := by
  have hn := h.nested
  show p.item.id ∈ (q.item :: q.scopes).map Item.id ↔ p.item ∈ q.scopes
  constructor
  · intro hmem
    obtain ⟨i, hi, hid⟩ := List.mem_map.mp hmem
    rcases List.mem_cons.mp hi with rfl | hi
    · exact absurd (hn.eq_of_id hq hp hid).symm hne
    · rcases h.scope_known hq hi with rfl | ⟨p', hp', rfl⟩
      · have := (hn.bounds p hp).1
        have hroot : Item.root.id = 0 := rfl
        omega
      · rw [← hn.eq_of_id hp' hp hid]
        exact hi
  · intro hmem
    exact List.mem_map_of_mem (List.mem_cons_of_mem _ hmem)

/-- The words around an item are its scopes without the groups. -/
theorem Layout.scope_eq {ended : Bool} {t : Text} {s : Scan} (h : Layout ended t s)
    (htree : Tree.ofText t = s.tree (size t)) {q : Placed} (hq : q ∈ s.placed) :
    (t.scopeOf q.wordNode).map (·.item) = (q.scopes.filter (!·.isGroup)).reverse := by
  have hn := h.nested
  have hirrefl : Std.Irrefl fun i j : Item => i.id < j.id := ⟨fun _ => Nat.lt_irrefl _⟩
  have hanti : Std.Antisymm fun i j : Item => i.id < j.id :=
    ⟨fun _ _ h₁ h₂ => absurd h₁ (Nat.lt_asymm h₂)⟩
  have hleft : ((t.scopeOf q.wordNode).map (·.item)).Pairwise fun i j => i.id < j.id := by
    unfold scopeOf
    rw [htree, Scan.words_tree, List.pairwise_map]
    apply List.Pairwise.filter
    rw [List.pairwise_reverse, List.pairwise_map]
    exact hn.numbered.filter _
  have hright : (q.scopes.filter (!·.isGroup)).reverse.Pairwise fun i j => i.id < j.id := by
    rw [List.pairwise_reverse]
    exact (List.pairwise_cons.mp (h.chain_pairwise hq)).2.filter _
  -- Both lists are sorted by number, so it is enough that they hold the same items.
  apply hleft.eq_of_mem_iff hright
  intro i
  unfold scopeOf
  rw [htree]
  simp only [List.mem_map, List.mem_filter, List.mem_reverse, decide_eq_true_eq, Scan.mem_words]
  constructor
  · rintro ⟨w, ⟨⟨p, hp, hg, rfl⟩, hne, hle, hreach⟩, rfl⟩
    have hpq : p ≠ q := fun he => hne (by rw [he])
    exact ⟨(h.reaches_iff hp hq hg hpq hle).mp hreach, by simp [Placed.wordNode, hg]⟩
  · rintro ⟨hi, hg⟩
    have hg : i.isGroup = false := by simpa using hg
    rcases h.scope_known hq hi with rfl | ⟨p, hp, rfl⟩
    · cases hg
    · have hlt := List.rel_of_pairwise_cons (h.chain_pairwise hq) hi
      have hpq : p ≠ q := by
        rintro rfl
        exact Nat.lt_irrefl _ hlt
      have hle := h.scope_stop_le hq hi hg
      refine ⟨p.wordNode, ⟨⟨p, hp, hg, rfl⟩, ?_, hle, (h.reaches_iff hp hq hg hpq hle).mpr hi⟩, rfl⟩
      intro he
      have hid : p.item.id = q.item.id := congrArg (fun n => n.item.id) he
      exact hpq (hn.eq_of_id hp hq hid)

/-! ## The rule of a name -/

/-- The identifiers among some words. -/
def identifiersOf (words : List Node) : List Identifier := words.filterMap (·.item.identifier?)

/-- The rule holds what its name and the words around it say, and no more. -/
structure Rule.Gathers (r : Rule) (around : List Node) (last : Node) : Prop where
  loc : r.loc = last.span
  variants : r.variants = around.filterMap fun w => Rule.variantOf? w.item
  negated : r.negated = (identifiersOf (around ++ [last])).any Identifier.negated
  important : r.important = (identifiersOf (around ++ [last])).any Identifier.important
  name : r.name = (if r.negated then ['-'] else []) ++ ['-'].intercalate
    (((identifiersOf (around ++ [last])).map Identifier.name).filter fun n => n ≠ ['&'] ∧ n ≠ [])
  value : r.value =
    r.variants.flatMap (·.value) ++ (if r.important then ['!'] else []) ++ r.name

/-- What groups do not have can be taken from the words alone. -/
theorem filterMap_words {β : Type} (f : Item → Option β) (hf : ∀ i, i.isGroup = true → f i = none)
    (scopes : List Item) : scopes.filterMap f = (scopes.filter (!·.isGroup)).filterMap f := by
  rw [List.filterMap_filter]
  apply List.filterMap_congr
  intro i _
  by_cases hg : i.isGroup = true
  · simp [hg, hf i hg]
  · simp [hg]

theorem Rule.gathers_ofNode {around : List Node} {last : Node}
    (hlast : last.isTerminal = true) (hspan : last.span = last.item.span)
    (haround : around.map (·.item) = (last.scopes.filter (!·.isGroup)).reverse) :
    (Rule.ofNode last).Gathers around last := by
  have hvgroup : ∀ i : Item, i.isGroup = true → variantOf? i = none := by
    rintro ⟨id, _ | v | w, start⟩ hi <;> simp_all [Item.isGroup, variantOf?]
  have higroup : ∀ i : Item, i.isGroup = true → i.identifier? = none := by
    rintro ⟨id, _ | v | w, start⟩ hi <;> simp_all [Item.isGroup, Item.identifier?]
  have hvlast : variantOf? last.item = none := by
    rcases last with ⟨⟨⟨id, _ | v | w, start⟩, scopes⟩, stop⟩ <;>
      simp_all [Node.isTerminal, Item.identifier?, variantOf?]
  have hvariants : ((last.item :: last.scopes).filterMap variantOf?).reverse =
      around.filterMap fun w => variantOf? w.item := by
    rw [List.filterMap_cons_none hvlast, filterMap_words _ hvgroup, ← List.filterMap_reverse,
      ← haround, List.filterMap_map]
    rfl
  have hids : ((last.item :: last.scopes).filterMap Item.identifier?).reverse =
      identifiersOf (around ++ [last]) := by
    have hcons : (last.item :: last.scopes).reverse.filterMap Item.identifier? =
        (last.scopes.filter (!·.isGroup)).reverse.filterMap Item.identifier? ++
          [last.item].filterMap Item.identifier? := by
      rw [List.reverse_cons, List.filterMap_append, List.filterMap_reverse,
        filterMap_words _ higroup, ← List.filterMap_reverse]
    rw [← List.filterMap_reverse, hcons, ← haround, identifiersOf, List.filterMap_append,
      List.filterMap_map]
    rfl
  refine ⟨hspan.symm, hvariants, ?_, ?_, ?_, rfl⟩
  · rw [← hids, List.any_reverse]
    rfl
  · rw [← hids, List.any_reverse]
    rfl
  · rw [← hids, List.map_reverse]
    unfold Rule.name signed bareName joinNames
    by_cases hneg : (ofNode last).negated = true
    · simp only [hneg, if_true, List.singleton_append]
      rfl
    · simp only [hneg, if_false, List.nil_append, Bool.false_eq_true]
      rfl

/-! ## The law -/

/-- Whether a word takes in a name, that is, whether it is met on the way from
the name to the root, can be read off the text between them. Each rule is made
up of its name and the words that so take it in. -/
theorem scoping_is_textual (t : Text) :
    (∀ n ∈ (Tree.ofText t).nodes,
      n.ancestors = n.id :: (n.parent?.bind (Tree.ofText t).node?).elim [] Node.ancestors) ∧
    (∀ last ∈ (Tree.ofText t).terminals, ∀ word ∈ (Tree.ofText t).words, word ≠ last →
      word.stop ≤ last.item.start →
      (word.id ∈ last.ancestors ↔ t.reaches word.stop last.item.start = true)) ∧
    List.Forall₂ (fun last r => Rule.Gathers r (t.scopeOf last) last)
      (Tree.ofText t).terminals t.rules := by
  obtain ⟨ended, s, hl, htree⟩ := Tree.layout_ofText t
  have hterminal : ∀ last ∈ (Tree.ofText t).terminals,
      ∃ q ∈ s.placed, q.wordNode = last ∧ last.isTerminal = true := by
    intro last hlast
    rw [Tree.terminals_eq, htree, List.mem_filter, Scan.mem_words] at hlast
    obtain ⟨⟨q, hq, -, rfl⟩, hterm⟩ := hlast
    exact ⟨q, hq, rfl, hterm⟩
  refine ⟨?_, ?_, ?_⟩
  · intro n hn
    rw [htree] at hn ⊢
    exact hl.ancestors_eq (size t) hn
  · intro last hlast word hword hne hle
    obtain ⟨q, hq, rfl, -⟩ := hterminal last hlast
    rw [htree, Scan.mem_words] at hword
    obtain ⟨p, hp, hg, rfl⟩ := hword
    have hpq : p ≠ q := fun he => hne (by rw [he])
    rw [hl.id_mem_ancestors hp hq hpq]
    exact (hl.reaches_iff hp hq hg hpq hle).symm
  · unfold Text.rules Tree.rules
    rw [List.forall₂_map_right_iff, List.forall₂_same]
    intro last hlast
    obtain ⟨q, hq, rfl, hterm⟩ := hterminal last hlast
    exact Rule.gathers_ofNode hterm rfl (hl.scope_eq htree hq)

/-- The `a` of `a(b [)]c)d e` takes in the `d` behind its group, but not the `e`. -/
theorem scoping_is_textual_behind_a_group :
    ∃ word ∈ (Tree.ofText "a(b [)]c)d e".toList).words, word.item.raw = ['a'] ∧
      (∃ last ∈ (Tree.ofText "a(b [)]c)d e".toList).terminals,
        last.item.raw = ['d'] ∧ word.id ∈ last.ancestors) ∧
      ∃ last ∈ (Tree.ofText "a(b [)]c)d e".toList).terminals,
        last.item.raw = ['e'] ∧ word.id ∉ last.ancestors := by
  obtain ⟨word, hword, hraw, ⟨d, hd, hdraw, hdne, hdle, hdreach⟩, e, he, heraw, hene, hele,
      hereach⟩ :
      ∃ word ∈ (Tree.ofText "a(b [)]c)d e".toList).words, word.item.raw = ['a'] ∧
        (∃ last ∈ (Tree.ofText "a(b [)]c)d e".toList).terminals, last.item.raw = ['d'] ∧
          word ≠ last ∧ word.stop ≤ last.item.start ∧
          Text.reaches "a(b [)]c)d e".toList word.stop last.item.start = true) ∧
        ∃ last ∈ (Tree.ofText "a(b [)]c)d e".toList).terminals, last.item.raw = ['e'] ∧
          word ≠ last ∧ word.stop ≤ last.item.start ∧
          ¬ Text.reaches "a(b [)]c)d e".toList word.stop last.item.start = true := by
    decide
  have h := (scoping_is_textual "a(b [)]c)d e".toList).2.1
  refine ⟨word, hword, hraw, ⟨d, hd, hdraw, ?_⟩, e, he, heraw, ?_⟩
  · exact (h d hd word hword hdne hdle).mpr hdreach
  · exact fun hmem => hereach ((h e he word hword hene hele).mp hmem)

end ClassList
