-- The layout of a text: words and delimiters, one behind the other. Each
-- rule of `Layout` adds one of them, so a law of every scan is an induction
-- over these rules, with no word half read and no mode to look at.
import Mathlib
import ClassList.Proofs.Brackets

namespace ClassList

open Text

/-! ## The fields of a scan -/

namespace Scan

variable (s : Scan) (k : Kind) (n : Nat)

@[simp] theorem restart_word : (s.restart n).word = [] := rfl
@[simp] theorem restart_start : (s.restart n).start = n := rfl
@[simp] theorem restart_mode : (s.restart n).mode = .plain := rfl
@[simp] theorem restart_scopes : (s.restart n).scopes = s.scopes := rfl
@[simp] theorem restart_placed : (s.restart n).placed = s.placed := rfl
@[simp] theorem restart_closed : (s.restart n).closed = s.closed := rfl
@[simp] theorem place_scopes : (s.place k n).scopes = s.scopes := rfl
@[simp] theorem place_placed : (s.place k n).placed = ⟨s.item k n, s.scopes⟩ :: s.placed := rfl
@[simp] theorem enter_scopes : (s.enter k n).scopes = s.item k n :: s.scopes := rfl
@[simp] theorem enter_placed : (s.enter k n).placed = ⟨s.item k n, s.scopes⟩ :: s.placed := rfl
@[simp] theorem leaveWords_scopes : s.leaveWords.scopes = s.scopes.dropWhile (!·.isGroup) := rfl
@[simp] theorem leaveWords_placed : s.leaveWords.placed = s.placed := rfl

/-- Where the word starts makes no difference to what is placed. -/
@[simp] theorem place_restart (m p : Nat) :
    ((s.restart m).place k n).restart p = (s.place k n).restart p := rfl

@[simp] theorem enter_restart (m p : Nat) :
    ((s.restart m).enter k n).restart p = (s.enter k n).restart p := rfl

@[simp] theorem leaveGroup_placed : (s.leaveGroup n).placed = s.placed := by
  unfold leaveGroup
  split <;> rfl

/-- Closing a group takes one scope away, or none at the root. -/
theorem leaveGroup_scopes :
    (s.leaveGroup n).scopes = if s.scopes.length ≤ 1 then s.scopes else s.scopes.tail := by
  unfold leaveGroup
  split
  · rename_i g outer rest h
    simp [h]
  · rename_i h
    rcases hs : s.scopes with _ | ⟨g, _ | ⟨outer, rest⟩⟩
    · rfl
    · rfl
    · exact absurd hs (h g outer rest)

theorem leaveGroup_suffix : (s.leaveGroup n).scopes <:+ s.scopes := by
  rw [leaveGroup_scopes]
  split
  · exact List.suffix_refl _
  · exact List.tail_suffix _

/-- A closing parenthesis only takes scopes away, and so does a blank. -/
theorem leaveWords_leaveGroup_suffix : (s.leaveWords.leaveGroup n).scopes <:+ s.scopes :=
  (leaveGroup_suffix _ _).trans (List.dropWhile_suffix _)

end Scan

/-! ## Words -/

/-- The item is the `!` in front of a variant. -/
def Item.IsBang (i : Item) : Prop := i.kind = .identifier ⟨['!'], false⟩

namespace Item

variable {i : Item}

theorem IsBang.raw_eq (h : i.IsBang) : i.raw = ['!'] := by
  simp [Item.raw, show i.kind = _ from h]

theorem IsBang.not_isGroup (h : i.IsBang) : i.isGroup = false := by
  simp [Item.isGroup, show i.kind = _ from h]

theorem IsBang.identifier_eq (h : i.IsBang) : i.identifier? = some ⟨['!'], false⟩ := by
  simp [Item.identifier?, show i.kind = _ from h]

end Item

/-- The text of a variant: a word and one or two colons. -/
def VariantText (raw : Text) : Prop :=
  ∃ body colons, raw = body ++ colons ∧ Solid body ∧ inRun body = false ∧
    (colons = [':'] ∨ colons = [':', ':'])

/-- A word that becomes a scope. A variant starts with a `!` or a colon only
right behind a `!` of its own. -/
inductive Opens (scopes : List Item) (start : Nat) : Kind → Text → Prop
  | variant {raw : Text} : VariantText raw →
      (raw.head? = some '!' ∨ raw.head? = some ':' →
        ∃ i ∈ scopes.head?, i.IsBang ∧ i.span.stop = start) →
      Opens scopes start (.variant ⟨raw⟩) raw
  | outer {raw : Text} : raw ≠ [] → Solid raw → inRun raw = false →
      Opens scopes start (.identifier ⟨raw, false⟩) raw

theorem VariantText.ne_nil {raw : Text} (h : VariantText raw) : raw ≠ [] := by
  obtain ⟨body, colons, rfl, -, -, rfl | rfl⟩ := h <;> simp

theorem VariantText.not_inRun {raw : Text} (h : VariantText raw) : inRun raw = false := by
  obtain ⟨body, colons, rfl, -, hr, hc⟩ := h
  rw [inRun_append, hr]
  rcases hc with rfl | rfl <;> rfl

theorem VariantText.outside {raw : Text} (h : VariantText raw) :
    ∀ c ∈ raw.outside false, c ∉ delimiters ∨ c = ':' := by
  intro c hc
  obtain ⟨body, colons, rfl, hs, hr, hcolons⟩ := h
  rw [outside_append, show runAfter false body = false from hr, List.mem_append] at hc
  rcases hc with hc | hc
  · exact Or.inl (hs c hc)
  · rcases hcolons with rfl | rfl
    all_goals
      right
      simpa [Text.outside] using hc

namespace Opens

variable {scopes : List Item} {start : Nat} {k : Kind} {raw : Text}

theorem ne_nil (h : Opens scopes start k raw) : raw ≠ [] := by
  cases h with
  | variant hv _ => exact hv.ne_nil
  | outer hne _ _ => exact hne

theorem not_inRun (h : Opens scopes start k raw) : inRun raw = false := by
  cases h with
  | variant hv _ => exact hv.not_inRun
  | outer _ _ hr => exact hr

theorem of_variant {v : Variant} (h : Opens scopes start (.variant v) raw) :
    VariantText raw ∧ (raw.head? = some '!' ∨ raw.head? = some ':' →
      ∃ i ∈ scopes.head?, i.IsBang ∧ i.span.stop = start) := by
  cases h with
  | variant hv hbang => exact ⟨hv, hbang⟩

/-- The only delimiters of a scope's word are colons. -/
theorem outside (h : Opens scopes start k raw) :
    ∀ c ∈ raw.outside false, c ∉ delimiters ∨ c = ':' := by
  cases h with
  | outer _ hs _ => exact fun c hc => Or.inl (hs c hc)
  | variant hv _ => exact hv.outside

theorem item_raw (h : Opens scopes start k raw) (s : Scan) (n : Nat) : (s.item k n).raw = raw := by
  cases h <;> rfl

theorem not_isGroup (h : Opens scopes start k raw) (s : Scan) (n : Nat) :
    (s.item k n).isGroup = false := by
  cases h <;> rfl

end Opens

/-! ## The layout of a text -/

/-- The text is laid out as the words and delimiters that the scan found. The
flag says that a name has just ended: only white space or a closing
parenthesis goes on from there. -/
inductive Layout : Bool → Text → Scan → Prop
  | start : Layout false [] .init
  | colon {a : Text} {s : Scan} : Layout false a s →
      Layout false (a ++ [':']) (s.restart (size (a ++ [':'])))
  | enter {a raw : Text} {s : Scan} {k : Kind} : Layout false a s →
      Opens s.scopes (size a) k raw →
      Layout false (a ++ raw) ((s.enter k (size a)).restart (size (a ++ raw)))
  | name {a w : Text} {s : Scan} (closed : Bool) : Layout false a s → Solid w →
      Layout true (a ++ w) ((s.place (.identifier ⟨w, closed⟩) (size a)).restart (size (a ++ w)))
  | opening {a : Text} {s : Scan} : Layout false a s →
      Layout false (a ++ ['(']) ((s.enter .group (size a)).restart (size (a ++ ['('])))
  | closing {ended : Bool} {a : Text} {s : Scan} : Layout ended a s → inRun a = false →
      Layout false (a ++ [')'])
        ((s.leaveWords.leaveGroup (size (a ++ [')']))).restart (size (a ++ [')'])))
  | blank {ended : Bool} {a : Text} {s : Scan} {c : Char} : Layout ended a s → inRun a = false →
      c ∈ blanks → Layout false (a ++ [c]) (s.leaveWords.restart (size (a ++ [c])))

namespace Layout

variable {ended : Bool} {a : Text} {s : Scan}

theorem start_eq (h : Layout ended a s) : s.start = size a := by
  cases h <;> rfl

theorem restart_start (h : Layout ended a s) : s.restart s.start = s := by
  cases h <;> rfl

/-- Between two words no run is open. -/
theorem not_inRun (h : Layout ended a s) (he : ended = false) : inRun a = false := by
  induction h with
  | start => rfl
  | colon _ ih => exact inRun_delimiter (ih rfl) (by decide)
  | enter _ ho ih => rw [inRun_append, ih rfl]; exact ho.not_inRun
  | name => cases he
  | opening _ ih => exact inRun_delimiter (ih rfl) (by decide)
  | closing _ ha _ => exact inRun_delimiter ha (by decide)
  | blank _ ha hc _ => exact inRun_delimiter ha (blanks_subset hc)

end Layout

/-! ## Where an item comes from -/

/-- What a layout can place: a scope, a name or a group. -/
inductive Places (scopes : List Item) (start : Nat) : Kind → Text → Prop
  | opens {k : Kind} {raw : Text} : Opens scopes start k raw → Places scopes start k raw
  | name {w : Text} (closed : Bool) : Solid w → Places scopes start (.identifier ⟨w, closed⟩) w
  | group : Places scopes start .group ['(']

/-- The item was placed behind a first part of the text, in the scopes that
were open there. Only a name that has just ended may be empty. -/
def Origin (ended : Bool) (a : Text) (s : Scan) (p : Placed) : Prop :=
  ∃ before raw rest s₀ k, Layout false before s₀ ∧ Places s₀.scopes (size before) k raw ∧
    a = before ++ raw ++ rest ∧ p = ⟨s₀.item k (size before), s₀.scopes⟩ ∧
    p :: s₀.placed <:+ s.placed ∧ (ended = false → raw ++ rest ≠ [])

namespace Layout

/-- More text does not change where an item comes from. -/
theorem origin_append {e e' : Bool} {a x : Text} {s s' : Scan} {p : Placed}
    (h : Origin e a s p) (hx : e' = false → e = false ∨ x ≠ [])
    (hs : s.placed <:+ s'.placed) : Origin e' (a ++ x) s' p := by
  obtain ⟨before, raw, rest, s₀, k, hl, hk, rfl, hp, hsuf, hleft⟩ := h
  refine ⟨before, raw, rest ++ x, s₀, k, hl, hk, by simp, hp, hsuf.trans hs, ?_⟩
  intro he hnil
  rcases hx he with he | hx
  · exact hleft he (by simp_all)
  · simp_all

/-- Every item has an origin. -/
theorem origin {ended : Bool} {a : Text} {s : Scan} (h : Layout ended a s) :
    ∀ p ∈ s.placed, Origin ended a s p := by
  induction h with
  | start => simp [Scan.init]
  | colon _ ih => exact fun p hp => origin_append (ih p hp) (by simp) (List.suffix_refl _)
  | @enter a raw s k hl ho ih =>
    intro p hp
    rcases List.mem_cons.mp hp with rfl | hp
    · exact ⟨a, raw, [], s, k, hl, .opens ho, by simp, rfl, List.suffix_refl _,
        by simp [ho.ne_nil]⟩
    · exact origin_append (ih p hp) (by simp) (List.suffix_cons _ _)
  | @name a w s closed hl hs ih =>
    intro p hp
    rcases List.mem_cons.mp hp with rfl | hp
    · exact ⟨a, w, [], s, _, hl, .name closed hs, by simp, rfl, List.suffix_refl _, by simp⟩
    · exact origin_append (ih p hp) (by simp) (List.suffix_cons _ _)
  | @opening a s hl ih =>
    intro p hp
    rcases List.mem_cons.mp hp with rfl | hp
    · exact ⟨a, ['('], [], s, _, hl, .group, by simp, rfl, List.suffix_refl _, by simp⟩
    · exact origin_append (ih p hp) (by simp) (List.suffix_cons _ _)
  | closing _ _ ih =>
    intro p hp
    exact origin_append (ih p (by simpa using hp)) (by simp) (by simp)
  | blank _ _ _ ih => exact fun p hp => origin_append (ih p hp) (by simp) (List.suffix_refl _)

end Layout

/-! ## A scan lays out its text -/

/-- What the mode of a scan says about the word being read. -/
def Mode.Fits : Mode → Text → Prop
  | .plain, w => Solid w ∧ inRun w = false
  | .bracket, w => Solid w ∧ inRun w = true
  | .colon, w => ∃ body, body ≠ [] ∧ w = body ++ [':'] ∧ Solid body ∧ inRun body = false

/-- The scan has read the text: everything in front of its word is laid out. -/
structure Scan.HasRead (s : Scan) (a : Text) : Prop where
  split : ∃ before, a = before ++ s.word ∧ Layout false before (s.restart s.start)
  fits : s.mode.Fits s.word

namespace Scan

variable {s : Scan} {a : Text}

theorem hasRead_init : HasRead init [] where
  split := ⟨[], rfl, .start⟩
  fits := by simp [init, Mode.Fits, inRun, runAfter]

theorem hasRead_of_layout (h : Layout false a s) (hw : s.word = []) (hm : s.mode = .plain) :
    s.HasRead a where
  split := ⟨a, by simp [hw], by rw [h.restart_start]; exact h⟩
  fits := by rw [hm, hw]; simp [Mode.Fits, inRun, runAfter]

theorem hasRead_push {m : Mode} (c : Char) (h : s.HasRead a) (hm : m.Fits (s.word ++ [c])) :
    HasRead { s.push c with mode := m } (a ++ [c]) := by
  obtain ⟨before, rfl, hl⟩ := h.split
  exact ⟨⟨before, by simp [push], hl⟩, hm⟩

/-- The end of a variant, with a `!` of its own or without. -/
theorem layout_endVariant {before body colons : Text}
    (hl : Layout false before (s.restart s.start)) (hw : s.word = body ++ colons)
    (hne : body ≠ []) (hs : Solid body) (hr : inRun body = false)
    (hc : colons = [':'] ∨ colons = [':', ':']) :
    Layout false (before ++ s.word) s.endVariant := by
  have hstart : s.start = size before := hl.start_eq
  obtain ⟨c, body, rfl⟩ := List.exists_cons_of_ne_nil hne
  by_cases hb : c = '!'
  · subst hb
    have hbang := hl.enter (.outer (by simp) (hs.left (b := body)) rfl : Opens _ _ _ ['!'])
    have hv : VariantText (body ++ colons) := ⟨body, colons, rfl, hs.right (a := ['!']) rfl, hr, hc⟩
    have hvar := hbang.enter (.variant hv fun _ => ⟨_, rfl, rfl, (size_append _ _).symm⟩)
    have he : s.endVariant = ((s.enter (.identifier ⟨['!'], false⟩) s.start).enter
        (.variant ⟨body ++ colons⟩) (s.start + 1)).restart s.offset := by
      simp only [endVariant, hw, List.cons_append]
    have hone : '!'.utf8Size = 1 := rfl
    rw [he, hw]
    simpa [offset, hw, hstart, size_append, Nat.add_assoc, hone] using hvar
  · have hv : VariantText s.word := ⟨c :: body, colons, hw, hs, hr, hc⟩
    have hhead : s.word.head? = some c := by rw [hw]; rfl
    have hcolon : c ≠ ':' := by
      rintro rfl
      exact hs.head (by decide)
    have hvar := hl.enter (.variant hv (by simp [hhead, hb, hcolon]))
    have he : s.endVariant = (s.enter (.variant ⟨s.word⟩) s.start).restart s.offset := by
      unfold endVariant
      split
      · rename_i rest hw'
        rw [hw', List.head?_cons, Option.some.injEq] at hhead
        exact absurd hhead.symm hb
      · rfl
    rw [he]
    simpa [offset, hstart, size_append] using hvar

theorem endVariant_word (s : Scan) : s.endVariant.word = [] := by
  unfold endVariant
  split <;> rfl

theorem endVariant_mode (s : Scan) : s.endVariant.mode = .plain := by
  unfold endVariant
  split <;> rfl

theorem settle_mode (s : Scan) : s.settle.mode ≠ .colon := by
  unfold settle
  split
  · rw [endVariant_mode]; decide
  · assumption

theorem hasRead_settle (h : s.HasRead a) : s.settle.HasRead a := by
  unfold settle
  split
  · rename_i hm
    obtain ⟨before, rfl, hl⟩ := h.split
    have hf := h.fits
    rw [hm] at hf
    obtain ⟨body, hne, hw, hs, hr⟩ := hf
    exact hasRead_of_layout (layout_endVariant hl hw hne hs hr (Or.inl rfl))
      (endVariant_word s) (endVariant_mode s)
  · exact h

theorem HasRead.solid (h : s.HasRead a) (hm : s.mode ≠ .colon) : Solid s.word := by
  have hf := h.fits
  cases hmode : s.mode with
  | plain => rw [hmode] at hf; exact hf.1
  | bracket => rw [hmode] at hf; exact hf.1
  | colon => exact absurd hmode hm

theorem HasRead.offset_eq (h : s.HasRead a) : s.offset = size a := by
  obtain ⟨before, rfl, hl⟩ := h.split
  have hstart : s.start = size before := hl.start_eq
  rw [offset, size_append, hstart]

/-- The end of a name, if there is one. -/
theorem layout_endIdentifier (h : s.HasRead a) (hm : s.mode ≠ .colon) :
    ∃ ended, Layout ended a (s.endIdentifier.restart (size a)) := by
  obtain ⟨before, rfl, hl⟩ := h.split
  have hstart : s.start = size before := hl.start_eq
  unfold endIdentifier
  split
  · rename_i he
    have hw : s.word = [] := by
      simp only [Bool.and_eq_true, List.isEmpty_iff] at he
      exact he.1
    refine ⟨false, ?_⟩
    simpa [hw, hstart] using hl
  · refine ⟨true, ?_⟩
    simpa [hstart] using hl.name true (h.solid hm)

/-- The end of the outer name of a group, if there is one. -/
theorem layout_endOuter (h : s.HasRead a) (hm : s.mode = .plain) :
    Layout false a (s.endOuter.restart (size a)) := by
  obtain ⟨before, rfl, hl⟩ := h.split
  have hstart : s.start = size before := hl.start_eq
  have hf := h.fits
  rw [hm] at hf
  unfold endOuter
  split
  · rename_i he
    have hw : s.word = [] := List.isEmpty_iff.mp he
    simpa [hw, hstart] using hl
  · rename_i he
    have hne : s.word ≠ [] := fun hw => he (List.isEmpty_iff.mpr hw)
    simpa [hstart] using hl.enter (.outer hne hf.1 hf.2)

theorem HasRead.not_inRun (h : s.HasRead a) (hm : s.mode = .plain) : inRun a = false := by
  obtain ⟨before, rfl, hl⟩ := h.split
  have hf := h.fits
  rw [hm] at hf
  rw [inRun_append, hl.not_inRun rfl]
  exact hf.2

theorem hasRead_read (c : Char) (h : s.HasRead a) (hm : s.mode = .plain) :
    (s.read c).HasRead (a ++ [c]) := by
  have hnext : s.offset + c.utf8Size = size (a ++ [c]) := by
    rw [h.offset_eq, size_append, size_singleton]
  have hrun := h.not_inRun hm
  obtain ⟨ended, hend⟩ := layout_endIdentifier h (by rw [hm]; decide)
  have hf := h.fits
  rw [hm] at hf
  unfold read
  simp only [hnext]
  split
  · rename_i hc
    obtain rfl := Delimiter.ofChar?_eq_colon.mp hc
    split
    · rename_i he
      have hw : s.word = [] := List.isEmpty_iff.mp he
      obtain ⟨before, hb, hl⟩ := h.split
      obtain rfl : a = before := by simpa [hw] using hb
      exact hasRead_of_layout hl.colon rfl rfl
    · rename_i he
      have hne : s.word ≠ [] := fun hw => he (List.isEmpty_iff.mpr hw)
      exact hasRead_push ':' h ⟨s.word, hne, rfl, hf.1, hf.2⟩
  · rename_i hc
    obtain rfl := Delimiter.ofChar?_eq_opening.mp hc
    rw [h.offset_eq]
    exact hasRead_of_layout (layout_endOuter h hm).opening rfl rfl
  · rename_i hc
    obtain rfl := Delimiter.ofChar?_eq_closing.mp hc
    have hclose := hend.closing hrun
    refine hasRead_of_layout ?_ rfl rfl
    have heq : ((s.endIdentifier.restart (size a)).leaveWords.leaveGroup
        (size (a ++ [')']))).restart (size (a ++ [')'])) =
        (s.endIdentifier.leaveWords.leaveGroup (size (a ++ [')']))).restart
          (size (a ++ [')'])) := by
      unfold leaveGroup leaveWords restart
      split <;> simp_all
    rw [← heq]
    exact hclose
  · rename_i hc
    exact hasRead_of_layout (hend.blank hrun (Delimiter.ofChar?_eq_blank.mp hc)) rfl rfl
  · rename_i hc
    have hd := Delimiter.ofChar?_eq_none.mp hc
    have hsolid := solid_push hf.1 (Or.inr hd)
    apply hasRead_push c h
    by_cases hb : c = '['
    · simp only [hb, if_true, Mode.Fits]
      exact ⟨hb ▸ hsolid, by rw [inRun_push]; simp⟩
    · simp only [hb, if_false, Mode.Fits]
      exact ⟨hsolid, by rw [inRun_push, hf.2]; simp [hb]⟩

/-- One more character. -/
theorem hasRead_step (c : Char) (h : s.HasRead a) : (s.step c).HasRead (a ++ [c]) := by
  have hf := h.fits
  unfold step
  split
  · rename_i hm
    exact hasRead_read c h hm
  · rename_i hm
    rw [hm] at hf
    have hsolid := solid_push hf.1 (Or.inl hf.2 : inRun s.word = true ∨ c ∉ delimiters)
    apply hasRead_push c h
    by_cases hb : c = ']'
    · simp only [hb, if_true, Mode.Fits]
      exact ⟨hb ▸ hsolid, by rw [inRun_push]; simp⟩
    · simp only [hb, if_false, Mode.Fits]
      exact ⟨hsolid, by rw [inRun_push, hf.2]; simp [hb]⟩
  · rename_i hm
    rw [hm] at hf
    obtain ⟨body, hne, hw, hs, hr⟩ := hf
    split
    · rename_i hc
      subst hc
      obtain ⟨before, rfl, hl⟩ := h.split
      have hw2 : (s.push ':').word = body ++ [':', ':'] := by simp [push, hw]
      have hv := layout_endVariant (s := s.push ':') hl hw2 hne hs hr (Or.inr rfl)
      have := hasRead_of_layout hv (endVariant_word _) (endVariant_mode _)
      simpa [push] using this
    · have hset : s.settle = s.endVariant := by simp [settle, hm]
      have := hasRead_read c (hasRead_settle h)
      rw [hset] at this
      exact this (endVariant_mode s)

/-- A scan has read its text. -/
theorem hasRead_run (t : Text) : (run t).HasRead t := by
  induction t using List.reverseRecOn with
  | nil => exact hasRead_init
  | append_singleton t c ih =>
    rw [run_append]
    exact hasRead_step c ih

end Scan

/-! ## The layout of a tree -/

namespace Tree

/-- The tree of a text holds what its layout places. -/
theorem layout_ofText (t : Text) :
    ∃ ended s, Layout ended t s ∧ ofText t = s.tree (size t) := by
  have hr := Scan.hasRead_settle (Scan.hasRead_run t)
  obtain ⟨ended, hl⟩ := Scan.layout_endIdentifier hr (Scan.settle_mode _)
  exact ⟨ended, _, hl, rfl⟩

/-- So does the tree of a text that is read up to an offset. Its last node is
always a name. -/
theorem layout_ofTextUpTo (n : Nat) (t : Text) :
    ∃ s, Layout true (t.upTo n) s ∧ ofTextUpTo n t = s.tree (size t) := by
  have hr := Scan.hasRead_settle (Scan.hasRead_run (t.upTo n))
  have hsolid := hr.solid (Scan.settle_mode _)
  obtain ⟨before, hb, hl⟩ := hr.split
  have hname := hl.name (decide (t.upTo n = t)) hsolid
  rw [← hb] at hname
  refine ⟨_, hname, ?_⟩
  have hstart := hl.start_eq
  simp only [Scan.restart_start] at hstart
  rw [← hstart]
  rfl

end Tree

end ClassList
