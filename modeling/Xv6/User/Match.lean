import Mathlib.Data.List.Basic

/-!
# The matcher of `grep` (`grep.c`)

`match`, `matchhere` and `matchstar` on strings. A string is the list of its
bytes before the NUL, so that `re[0] == '\0'` says that the list is empty.
`matchstar` goes along the text and `matchhere` along the pattern; since both are
recursions on these lists, they terminate.

A pattern is a list of items (`parse`), and `Matches` says which parts of a text
it denotes. `match` finds a text that has such a part (`match_iff_denotes`).
-/

namespace Xv6.User

open List

/-- The characters `^`, `$`, `.` and `*`. -/
abbrev caret : UInt8 := 94
abbrev dollar : UInt8 := 36
abbrev dot : UInt8 := 46
abbrev asterisk : UInt8 := 42

/-- The loop of `matchstar`: search for `c*re` at the beginning of the text, where
`m` searches for `re`. -/
def matchstar (c : UInt8) (m : List UInt8 → Bool) : List UInt8 → Bool
  | [] => m []
  | x :: text => m (x :: text) || ((x = c || c = dot) && matchstar c m text)

/-- Does the text begin with a character that `c` stands for? -/
def first (c : UInt8) : List UInt8 → Bool
  | [] => false
  | x :: _ => c = dot || c = x

/-- Search for `re` at the beginning of the text. -/
def matchhere : List UInt8 → List UInt8 → Bool
  | [], _ => true
  | [c], text => if c = dollar then text.isEmpty else first c text
  | c :: d :: re, text =>
    if d = asterisk then matchstar c (matchhere re) text else first c text && matchhere (d :: re) text.tail

/-- The loop of `match` over the text. -/
def matchAt (re : List UInt8) : List UInt8 → Bool
  | [] => matchhere re []
  | x :: text => matchhere re (x :: text) || matchAt re text

/-- Search for `re` in the text. -/
def «match» (re text : List UInt8) : Bool :=
  match re with
  | [] => matchAt [] text
  | c :: re => if c = caret then matchhere re text else matchAt (c :: re) text

/-! ## The language of a pattern -/

/-- One character, any number of characters, or the end of the text. -/
inductive Item where
  | one (c : UInt8)
  | star (c : UInt8)
  | eot
  deriving DecidableEq

/-- A pattern, read from left to right. -/
def parse : List UInt8 → List Item
  | [] => []
  | [c] => if c = dollar then [.eot] else [.one c]
  | c :: d :: re => if d = asterisk then .star c :: parse re else .one c :: parse (d :: re)

/-- The characters that `c` stands for. -/
def Accepts (c x : UInt8) : Prop := c = dot ∨ c = x

/-- The items denote the text `w` where `rest` comes after it. -/
inductive Matches : List Item → List UInt8 → List UInt8 → Prop where
  | nil (rest : List UInt8) : Matches [] [] rest
  | one {c x : UInt8} {items : List Item} {w rest : List UInt8} (hx : Accepts c x) (h : Matches items w rest) :
      Matches (.one c :: items) (x :: w) rest
  | star {c : UInt8} {items : List Item} {u w rest : List UInt8} (hu : ∀ x ∈ u, Accepts c x) (h : Matches items w rest) :
      Matches (.star c :: items) (u ++ w) rest
  | eot : Matches [.eot] [] []

variable {c : UInt8} {text : List UInt8} {items : List Item}

/-- `matchstar` skips some characters that `c` stands for. -/
theorem matchstar_iff {m : List UInt8 → Bool} :
    matchstar c m text = true ↔ ∃ u rest, text = u ++ rest ∧ (∀ x ∈ u, Accepts c x) ∧ m rest = true := by
  induction text with
  | nil =>
    rw [matchstar]
    constructor
    · intro h
      exact ⟨[], [], rfl, fun x hx => absurd hx not_mem_nil, h⟩
    · rintro ⟨u, rest, htext, -, h⟩
      obtain ⟨rfl, rfl⟩ := append_eq_nil_iff.1 htext.symm
      exact h
  | cons x text ih =>
    rw [matchstar, Bool.or_eq_true, Bool.and_eq_true, ih]
    have hx : (x = c || c = dot) = true ↔ Accepts c x := by
      unfold Accepts
      rw [Bool.or_eq_true, decide_eq_true_eq, decide_eq_true_eq, or_comm, eq_comm (a := x)]
    rw [hx]
    constructor
    · rintro (h | ⟨hacc, u, rest, rfl, hu, h⟩)
      · exact ⟨[], x :: text, rfl, fun y hy => absurd hy not_mem_nil, h⟩
      · exact ⟨x :: u, rest, rfl, forall_mem_cons.2 ⟨hacc, hu⟩, h⟩
    · rintro ⟨u, rest, htext, hu, h⟩
      cases u with
      | nil =>
        rw [nil_append] at htext
        exact .inl (htext ▸ h)
      | cons y u =>
        obtain ⟨rfl, rfl⟩ := List.cons.inj htext
        exact .inr ⟨(forall_mem_cons.1 hu).1, u, rest, rfl, (forall_mem_cons.1 hu).2, h⟩

/-- The items denote some beginning of the text. -/
def Begins (items : List Item) (text : List UInt8) : Prop := ∃ w rest, text = w ++ rest ∧ Matches items w rest

theorem begins_nil (text : List UInt8) : Begins [] text := ⟨[], text, rfl, .nil text⟩

theorem begins_eot : Begins [.eot] text ↔ text = [] := by
  constructor
  · rintro ⟨w, rest, rfl, h⟩
    cases h
    rfl
  · rintro rfl
    exact ⟨[], [], rfl, .eot⟩

theorem begins_one :
    Begins (.one c :: items) text ↔ ∃ x text', text = x :: text' ∧ Accepts c x ∧ Begins items text' := by
  constructor
  · rintro ⟨w, rest, rfl, h⟩
    cases h with
    | one hx h => exact ⟨_, _, rfl, hx, _, rest, rfl, h⟩
  · rintro ⟨x, _, rfl, hx, w, rest, rfl, h⟩
    exact ⟨x :: w, rest, rfl, .one hx h⟩

theorem begins_star :
    Begins (.star c :: items) text ↔ ∃ u text', text = u ++ text' ∧ (∀ x ∈ u, Accepts c x) ∧ Begins items text' := by
  constructor
  · rintro ⟨w, rest, rfl, h⟩
    cases h with
    | star hu h => exact ⟨_, _, append_assoc .., hu, _, rest, rfl, h⟩
  · rintro ⟨u, _, rfl, hu, w, rest, rfl, h⟩
    exact ⟨u ++ w, rest, (append_assoc ..).symm, .star hu h⟩

theorem accepts_iff {x : UInt8} : (c = dot || c = x) = true ↔ Accepts c x := by
  rw [Bool.or_eq_true, decide_eq_true_eq, decide_eq_true_eq]
  rfl

theorem begins_one_iff :
    Begins (.one c :: items) text ↔ first c text = true ∧ Begins items text.tail := by
  rw [begins_one]
  cases text with
  | nil =>
    refine iff_of_false ?_ fun h => Bool.false_ne_true h.1
    rintro ⟨_, _, ⟨⟩, -⟩
  | cons x text =>
    rw [first, accepts_iff]
    constructor
    · rintro ⟨_, _, ⟨⟩, hx, h⟩
      exact ⟨hx, h⟩
    · rintro ⟨hx, h⟩
      exact ⟨x, text, rfl, hx, h⟩

/-- `matchhere` finds what the pattern denotes, at the beginning of the text. -/
theorem matchhere_iff (re text : List UInt8) : matchhere re text = true ↔ Begins (parse re) text := by
  induction re using parse.induct generalizing text with
  | case1 => exact iff_of_true rfl (begins_nil text)
  | case2 => rw [matchhere, if_pos rfl, parse, if_pos rfl, begins_eot, List.isEmpty_iff]
  | case3 c hc => rw [matchhere, if_neg hc, parse, if_neg hc, begins_one_iff, and_iff_left (begins_nil _)]
  | case4 c re ih =>
    rw [matchhere, if_pos rfl, parse, if_pos rfl, begins_star, matchstar_iff]
    simp only [ih]
  | case5 c d re hd ih => rw [matchhere, if_neg hd, parse, if_neg hd, begins_one_iff, Bool.and_eq_true, ih]

theorem matchAt_iff (re text : List UInt8) : matchAt re text = true ↔ ∃ pre text', text = pre ++ text' ∧
    matchhere re text' = true := by
  induction text with
  | nil =>
    rw [matchAt]
    constructor
    · intro h
      exact ⟨[], [], rfl, h⟩
    · rintro ⟨pre, text', htext, h⟩
      obtain ⟨rfl, rfl⟩ := append_eq_nil_iff.1 htext.symm
      exact h
  | cons x text ih =>
    rw [matchAt, Bool.or_eq_true, ih]
    constructor
    · rintro (h | ⟨pre, text', rfl, h⟩)
      · exact ⟨[], x :: text, rfl, h⟩
      · exact ⟨x :: pre, text', rfl, h⟩
    · rintro ⟨pre, text', htext, h⟩
      cases pre with
      | nil =>
        rw [nil_append] at htext
        exact .inl (htext ▸ h)
      | cons y pre =>
        obtain ⟨-, rfl⟩ := List.cons.inj htext
        exact .inr ⟨pre, text', rfl, h⟩

/-- `match` finds a text that has a part which the pattern denotes; after a `^` it
is at the beginning of the text. -/
theorem match_iff_denotes (re text : List UInt8) : «match» re text = true ↔
    if re.head? = some caret then ∃ w rest, text = w ++ rest ∧ Matches (parse re.tail) w rest
    else ∃ pre w rest, text = pre ++ w ++ rest ∧ Matches (parse re) w rest := by
  have hany : ∀ re, matchAt re text = true ↔ ∃ pre w rest, text = pre ++ w ++ rest ∧ Matches (parse re) w rest := by
    intro re
    rw [matchAt_iff]
    constructor
    · rintro ⟨pre, _, rfl, h⟩
      obtain ⟨w, rest, rfl, hm⟩ := (matchhere_iff re _).1 h
      exact ⟨pre, w, rest, (append_assoc ..).symm, hm⟩
    · rintro ⟨pre, w, rest, rfl, hm⟩
      exact ⟨pre, w ++ rest, append_assoc .., (matchhere_iff re _).2 ⟨w, rest, rfl, hm⟩⟩
  cases re with
  | nil => exact hany []
  | cons c re =>
    by_cases hc : c = caret
    · rw [«match», if_pos hc, if_pos (show (c :: re).head? = some caret from congrArg some hc)]
      exact matchhere_iff re text
    · rw [«match», if_neg hc, if_neg (show (c :: re).head? ≠ some caret from fun h => hc (Option.some_inj.1 h))]
      exact hany (c :: re)

end Xv6.User
