-- The laws of dumps. Every part of a line can be told from what follows it, so the
-- lines of a dump give back the kind, the range and the depth of every node. In
-- preorder the depths give the parents too, and with them the whole tree.
import Mathlib
import ClassList.Tree.Dump
import ClassList.Proofs.Preorder

namespace ClassList

open Text

/-! ## Runs of characters -/

namespace Text

/-- A run of characters ends where the next character is of another class. -/
theorem run_append_inj {p : Char → Bool} {x y a b : Text} (hx : ∀ c ∈ x, p c = true)
    (hy : ∀ c ∈ y, p c = true) (ha : ∀ c ∈ a.head?, p c = false) (hb : ∀ c ∈ b.head?, p c = false)
    (h : x ++ a = y ++ b) : x = y ∧ a = b := by
  have hnil : ∀ {a : Text}, (∀ c ∈ a.head?, p c = false) → a.takeWhile p = [] := by
    intro a ha
    cases a with
    | nil => rfl
    | cons c a => simp [ha c rfl]
  have htake := congrArg (List.takeWhile p) h
  rw [List.takeWhile_append_of_pos hx, List.takeWhile_append_of_pos hy, hnil ha, hnil hb,
    List.append_nil, List.append_nil] at htake
  subst htake
  exact ⟨rfl, List.append_cancel_left h⟩

/-! ## Numbers -/

theorem digitChar_inj :
    ∀ m < 16, ∀ n < 16, Nat.digitChar m = Nat.digitChar n → m = n := by
  decide

theorem mem_toDigits {b n : Nat} (hb : 1 < b) {c : Char} (hc : c ∈ Nat.toDigits b n) :
    ∃ d < b, c = Nat.digitChar d := by
  induction n using Nat.strongRecOn with
  | ind n ih =>
    rw [Nat.toDigits_eq_if hb] at hc
    split at hc
    · exact ⟨n, by assumption, by simpa using hc⟩
    · rename_i hle
      rcases List.mem_append.mp hc with hc | hc
      · exact ih (n / b) (Nat.div_lt_self (by omega) hb) hc
      · exact ⟨n % b, Nat.mod_lt n (by omega), by simpa using hc⟩

/-- A number is written in one way only. -/
theorem toDigits_inj {b m n : Nat} (hb : 1 < b) (hb' : b ≤ 16)
    (h : Nat.toDigits b m = Nat.toDigits b n) : m = n := by
  induction m using Nat.strongRecOn generalizing n with
  | ind m ih =>
    rw [Nat.toDigits_eq_if hb, Nat.toDigits_eq_if hb (n := n)] at h
    split at h
    · rename_i hm
      split at h
      · exact digitChar_inj m (by omega) n (by omega) (List.singleton_inj.mp h)
      · simpa using congrArg List.length h
    · rename_i hm
      split at h
      · simpa using congrArg List.length h
      · obtain ⟨hfront, hlast⟩ := List.append_inj' h rfl
        have hdiv := ih (m / b) (Nat.div_lt_self (by omega) hb) hfront
        have hmod := digitChar_inj _ (Nat.lt_of_lt_of_le (Nat.mod_lt m (by omega)) hb')
          _ (Nat.lt_of_lt_of_le (Nat.mod_lt n (by omega)) hb') (List.singleton_inj.mp hlast)
        rw [← Nat.div_add_mod m b, ← Nat.div_add_mod n b, hdiv, hmod]

theorem ofNat_append_inj {m n : Nat} {a b : Text} (ha : ∀ c ∈ a.head?, c.isDigit = false)
    (hb : ∀ c ∈ b.head?, c.isDigit = false) (h : ofNat m ++ a = ofNat n ++ b) :
    m = n ∧ a = b := by
  have hdigits : ∀ k, ∀ c ∈ ofNat k, c.isDigit = true := fun k c hc =>
    Nat.isDigit_of_mem_toDigits (by decide) (by decide) hc
  obtain ⟨hnumber, hrest⟩ := run_append_inj (hdigits m) (hdigits n) ha hb h
  exact ⟨toDigits_inj (by decide) (by decide) hnumber, hrest⟩

theorem hex_append_inj {m n : Nat} {a b : Text}
    (h : hex m ++ '\x7d' :: a = hex n ++ '\x7d' :: b) : m = n ∧ a = b := by
  have hdigits : ∀ k, ∀ c ∈ hex k, (decide (c ≠ '\x7d')) = true := by
    intro k c hc
    obtain ⟨d, hd, rfl⟩ := mem_toDigits (by decide) hc
    interval_cases d <;> rfl
  obtain ⟨hnumber, hrest⟩ := run_append_inj (hdigits m) (hdigits n) (by simp) (by simp) h
  exact ⟨toDigits_inj (by decide) (by decide) hnumber, (List.cons.inj hrest).2⟩

/-! ## Quoted texts -/

/-- The character that stands behind a backslash as a single other one. -/
def escaped : Char → Char
  | 'n' => '\n'
  | 'r' => '\r'
  | 't' => '\t'
  | '0' => '\x00'
  | c => c

/-- A character stands for itself, behind a backslash, or as a number in braces. -/
theorem quotedChar_cases (c : Char) :
    (quotedChar c = [c] ∧ c ≠ '\\' ∧ c ≠ '"') ∨
    (∃ e, quotedChar c = ['\\', e] ∧ e ≠ 'u' ∧ c = escaped e) ∨
    quotedChar c = '\\' :: 'u' :: '\x7b' :: (hex c.toNat ++ ['\x7d']) := by
  unfold quotedChar
  split
  · exact Or.inr (Or.inl ⟨'"', rfl, by decide, rfl⟩)
  · exact Or.inr (Or.inl ⟨'\\', rfl, by decide, rfl⟩)
  · exact Or.inr (Or.inl ⟨'n', rfl, by decide, rfl⟩)
  · exact Or.inr (Or.inl ⟨'r', rfl, by decide, rfl⟩)
  · exact Or.inr (Or.inl ⟨'t', rfl, by decide, rfl⟩)
  · exact Or.inr (Or.inl ⟨'0', rfl, by decide, rfl⟩)
  · rename_i hquote hslash _ _ _ _
    split
    · exact Or.inr (Or.inr rfl)
    · exact Or.inl ⟨rfl, hslash, hquote⟩

theorem quotedChar_append_inj {c d : Char} {a b : Text}
    (h : quotedChar c ++ a = quotedChar d ++ b) : c = d ∧ a = b := by
  rcases quotedChar_cases c with ⟨hc, hcslash, -⟩ | ⟨e, hc, he, hce⟩ | hc <;>
  rcases quotedChar_cases d with ⟨hd, hdslash, -⟩ | ⟨f, hd, hf, hdf⟩ | hd <;>
  rw [hc, hd] at h
  · simpa using h
  · simp [hcslash] at h
  · simp [hcslash] at h
  · simp [Ne.symm hdslash] at h
  · obtain ⟨rfl, rfl⟩ : e = f ∧ a = b := by simpa using h
    exact ⟨by rw [hce, hdf], rfl⟩
  · simp [he] at h
  · simp [Ne.symm hdslash] at h
  · simp [Ne.symm hf] at h
  · simp only [List.cons_append, List.append_assoc, List.cons.injEq, true_and,
      List.nil_append] at h
    obtain ⟨hnumber, hrest⟩ := hex_append_inj h
    exact ⟨Char.toNat_inj.mp hnumber, hrest⟩

/-- No character is written with a quote in front. -/
theorem quotedChar_append_ne (c : Char) (a b : Text) : quotedChar c ++ a ≠ '"' :: b := by
  intro h
  rcases quotedChar_cases c with ⟨hc, -, hquote⟩ | ⟨e, hc, -⟩ | hc <;> rw [hc] at h
  · simp [hquote] at h
  · simp at h
  · simp at h

/-- A quoted text ends at its second bare quote. -/
theorem quoted_append_inj {s t a b : Text} (h : quoted s ++ a = quoted t ++ b) :
    s = t ∧ a = b := by
  have hbody : s.flatMap quotedChar ++ '"' :: a = t.flatMap quotedChar ++ '"' :: b := by
    simpa [quoted] using h
  clear h
  induction s generalizing t with
  | nil =>
    cases t with
    | nil => simpa using hbody
    | cons d t =>
      rw [List.flatMap_cons, List.append_assoc] at hbody
      exact absurd hbody.symm (quotedChar_append_ne d _ _)
  | cons c s ih =>
    rw [List.flatMap_cons, List.append_assoc] at hbody
    cases t with
    | nil => exact absurd hbody (quotedChar_append_ne c _ _)
    | cons d t =>
      rw [List.flatMap_cons, List.append_assoc] at hbody
      obtain ⟨rfl, hrest⟩ := quotedChar_append_inj hbody
      obtain ⟨rfl, rfl⟩ := ih hrest
      exact ⟨rfl, rfl⟩

end Text

/-! ## Lines -/

theorem Span.dump_append_inj {s s' : Span} {a b : Text} (ha : ∀ c ∈ a.head?, c.isDigit = false)
    (hb : ∀ c ∈ b.head?, c.isDigit = false) (h : s.dump ++ a = s'.dump ++ b) :
    s = s' ∧ a = b := by
  unfold dump at h
  simp only [List.append_assoc, List.cons_append, List.nil_append] at h
  obtain ⟨hstart, hrest⟩ := ofNat_append_inj (by simp) (by simp) h
  simp only [List.cons.injEq, true_and] at hrest
  obtain ⟨hstop, hrest⟩ := ofNat_append_inj ha hb hrest
  exact ⟨congrArg₂ Span.mk hstart hstop, hrest⟩

/-- Behind equal texts the marks differ in the last one only. -/
theorem Identifier.flags_append_inj {i j : Identifier} {a b : Text} (hraw : i.raw = j.raw)
    (h : i.flags ++ '\n' :: a = j.flags ++ '\n' :: b) : i = j ∧ a = b := by
  obtain ⟨raw, closed⟩ := i
  obtain ⟨raw', closed'⟩ := j
  obtain rfl : raw = raw' := hraw
  have himportant : (⟨raw, closed⟩ : Identifier).important =
      (⟨raw, closed'⟩ : Identifier).important := rfl
  have hnegated : (⟨raw, closed⟩ : Identifier).negated =
      (⟨raw, closed'⟩ : Identifier).negated := rfl
  unfold flags at h
  simp only [himportant, hnegated, List.append_assoc, List.append_cancel_left_eq] at h
  cases closed with
  | false =>
    cases closed' with
    | false => simpa using h
    | true => simp at h
  | true =>
    cases closed' with
    | false => simp at h
    | true => simpa using h

/-- The lines show the same depth, kind and range. -/
structure Node.SameLine (m n : Node) : Prop where
  depth : m.scopes.length = n.scopes.length
  kind : m.item.kind = n.item.kind
  span : m.span = n.span

namespace Node

variable {m n : Node} {a b : Text}

theorem label_append_inj (h : m.label ++ '\n' :: a = n.label ++ '\n' :: b) :
    m.item.kind = n.item.kind ∧ m.span = n.span ∧ a = b := by
  unfold label at h
  cases hm : m.item.kind with
  | group =>
    cases hn : n.item.kind with
    | group =>
      rw [hm, hn] at h
      simp only [List.append_assoc, List.append_cancel_left_eq] at h
      obtain ⟨hspan, hrest⟩ := Span.dump_append_inj (by simp) (by simp) h
      exact ⟨rfl, hspan, (List.cons.inj hrest).2⟩
    | variant w => simp [hm, hn] at h
    | identifier j => simp [hm, hn] at h
  | variant v =>
    cases hn : n.item.kind with
    | group => simp [hm, hn] at h
    | variant w =>
      rw [hm, hn] at h
      simp only [List.append_assoc, List.append_cancel_left_eq, List.cons_append] at h
      obtain ⟨hspan, hrest⟩ := Span.dump_append_inj (by simp) (by simp) h
      obtain ⟨hraw, hrest⟩ := quoted_append_inj (List.cons.inj hrest).2
      exact ⟨congrArg (fun raw => Kind.variant ⟨raw⟩) hraw, hspan, (List.cons.inj hrest).2⟩
    | identifier j => simp [hm, hn] at h
  | identifier i =>
    cases hn : n.item.kind with
    | group => simp [hm, hn] at h
    | variant w => simp [hm, hn] at h
    | identifier j =>
      rw [hm, hn] at h
      simp only [List.append_assoc, List.append_cancel_left_eq, List.cons_append] at h
      obtain ⟨hspan, hrest⟩ := Span.dump_append_inj (by simp) (by simp) h
      obtain ⟨hraw, hrest⟩ := quoted_append_inj (List.cons.inj hrest).2
      obtain ⟨hname, hrest⟩ := Identifier.flags_append_inj hraw hrest
      exact ⟨by rw [hname], hspan, hrest⟩

/-- The indent ends where the label starts. -/
theorem label_head (n : Node) : ∀ c ∈ (n.label ++ a).head?, decide (c = ' ') = false := by
  unfold label
  cases n.item.kind <;> simp

theorem dump_append_inj (h : m.dump ++ a = n.dump ++ b) : m.SameLine n ∧ a = b := by
  unfold dump at h
  simp only [List.append_assoc, List.cons_append, List.nil_append] at h
  obtain ⟨hindent, hline⟩ := run_append_inj (p := fun c => decide (c = ' '))
    (by simp) (by simp) m.label_head n.label_head h
  obtain ⟨hkind, hspan, hrest⟩ := label_append_inj hline
  have hlength := congrArg List.length hindent
  rw [List.length_replicate, List.length_replicate] at hlength
  exact ⟨⟨by omega, hkind, hspan⟩, hrest⟩

theorem dump_ne_nil (n : Node) : n.dump ≠ [] := by simp [dump]

end Node

/-- Equal dumps have equal lines, node by node. -/
theorem sameLines_of_dump {l l' : List Node} (h : l.flatMap Node.dump = l'.flatMap Node.dump) :
    List.Forall₂ Node.SameLine l l' := by
  induction l generalizing l' with
  | nil =>
    cases l' with
    | nil => exact List.Forall₂.nil
    | cons n l' => simp [n.dump_ne_nil] at h
  | cons m l ih =>
    cases l' with
    | nil => simp [m.dump_ne_nil] at h
    | cons n l' =>
      rw [List.flatMap_cons, List.flatMap_cons] at h
      obtain ⟨hline, hrest⟩ := Node.dump_append_inj h
      exact List.Forall₂.cons hline (ih hrest)

/-! ## The tree of some lines -/

theorem eq_of_suffix_of_length {l a b : List Item} (ha : a <:+ l) (hb : b <:+ l)
    (h : a.length = b.length) : a = b :=
  (List.suffix_of_suffix_length_le ha hb (Nat.le_of_eq h)).eq_of_length h

/-- In preorder, the scopes of a node are those of the node before it up to some depth. So
a node has the same place as another one if its line, its number and the node before are
the same. -/
theorem nodes_eq_of_lines {first : Node} {l l' : List Node}
    (hl : (first :: l).IsChain fun m n => m.toPlaced.Precedes n.toPlaced)
    (hl' : (first :: l').IsChain fun m n => m.toPlaced.Precedes n.toPlaced)
    (hlines : List.Forall₂ Node.SameLine l l') (hids : l.map Node.id = l'.map Node.id) :
    l = l' := by
  induction hlines generalizing first with
  | nil => rfl
  | @cons m n l l' hline _ ih =>
    obtain ⟨hfirst, hl⟩ := List.isChain_cons_cons.mp hl
    obtain ⟨hfirst', hl'⟩ := List.isChain_cons_cons.mp hl'
    rw [List.map_cons, List.map_cons, List.cons.injEq] at hids
    have hscopes := eq_of_suffix_of_length hfirst.scopes hfirst'.scopes hline.depth
    obtain ⟨⟨⟨id, kind, start⟩, scopes⟩, stop⟩ := m
    obtain ⟨⟨⟨id', kind', start'⟩, scopes'⟩, stop'⟩ := n
    obtain ⟨-, hkind, hspan⟩ := hline
    obtain ⟨hstart, hstop⟩ := Span.mk.inj hspan
    obtain rfl : id = id' := hids.1
    obtain rfl : kind = kind' := hkind
    obtain rfl : start = start' := hstart
    obtain rfl : scopes = scopes' := hscopes
    obtain rfl : stop = stop' := hstop
    rw [ih hl hl' hids.2]

namespace Tree

/-- The first line is the root's. It shows where the text ends, and the other lines give
back all other nodes. -/
theorem Ordered.eq_of_lines {t t' : Tree} (h : t.Ordered) (h' : t'.Ordered)
    (hlines : List.Forall₂ Node.SameLine t.nodes t'.nodes)
    (hids : t.nodes.map Node.id = t'.nodes.map Node.id) (hfresh : t.fresh = t'.fresh) :
    t = t' := by
  obtain ⟨⟨placed, stop⟩, inner, fresh⟩ := t
  obtain ⟨⟨placed', stop'⟩, inner', fresh'⟩ := t'
  obtain rfl : placed = .root := h.root
  obtain rfl : placed' = .root := h'.root
  obtain ⟨hroot, hinner⟩ := List.forall₂_cons.mp hlines
  obtain rfl : stop = stop' := (Span.mk.inj hroot.span).2
  obtain rfl : inner = inner' :=
    nodes_eq_of_lines h.preorder h'.preorder hinner (List.cons.inj hids).2
  obtain rfl : fresh = fresh' := hfresh
  rfl

end Tree

/-! ## The law -/

/-- Two dumps are equal only if the trees are: the nodes in order, with their kinds, texts,
marks and ranges, and with the nodes around them. -/
theorem dumps_are_faithful {stop stop' : Option Nat} {t t' : Text}
    (h : (Tree.ofTextTo stop t).dump = (Tree.ofTextTo stop' t').dump) :
    Tree.ofTextTo stop t = Tree.ofTextTo stop' t' := by
  obtain ⟨hordered, hids⟩ := Tree.ordered_ofTextTo stop t
  obtain ⟨hordered', hids'⟩ := Tree.ordered_ofTextTo stop' t'
  have hlines := sameLines_of_dump h
  have hfresh : (Tree.ofTextTo stop t).fresh = (Tree.ofTextTo stop' t').fresh := by
    have hlength := congrArg List.length hids
    have hlength' := congrArg List.length hids'
    rw [List.length_map, List.length_range] at hlength hlength'
    rw [← hlength, ← hlength', hlines.length_eq]
  exact hordered.eq_of_lines hordered' hlines (by rw [hids, hids', hfresh]) hfresh

/-- The blank between two names is not shown, nor is a stop behind the text. -/
theorem dumps_are_faithful_across_blanks :
    (Tree.ofTextTo (some 10) "a! hover:b".toList).dump =
        (Tree.ofTextTo none "a!\thover:b".toList).dump ∧
      Tree.ofTextTo (some 10) "a! hover:b".toList = Tree.ofTextTo none "a!\thover:b".toList :=
  ⟨by decide, dumps_are_faithful (by decide)⟩

end ClassList
