import Mathlib.Data.List.TakeWhile
import Mathlib.Tactic.SplitIfs
import Xv6.Sh.Model

/-!
# Tokens

The tokens of a line (`lex`): words are maximal runs of characters that are
neither whitespace nor symbols, and `>>` is taken before `>`. `gettoken` takes
the first token of what is left of the line, and `peek` looks at it; so what
the parser does depends on the tokens that are left (`tokens`).
-/

namespace Xv6.Sh

open List

inductive Token where
  | lt
  | bar
  | gt
  | amp
  | semi
  | lparen
  | rparen
  | append
  | word (w : List UInt8)
deriving DecidableEq

namespace Token

/-- What `gettoken` returns for the token. -/
def code : Token → UInt8
  | lt => ch '<'
  | bar => ch '|'
  | gt => ch '>'
  | amp => ch '&'
  | semi => ch ';'
  | lparen => ch '('
  | rparen => ch ')'
  | append => ch '+'
  | word _ => ch 'a'

/-- The symbol that the token starts with, if it is not a word. -/
def symbol : Token → Option UInt8
  | append => some (ch '>')
  | word _ => none
  | tok => some tok.code

end Token

def isSpace (c : UInt8) : Bool := strchr whitespace c

def isWord (c : UInt8) : Bool := !strchr whitespace c && !strchr symbols c

/-- The token that starts with the character `c`, which is not whitespace, and
what follows it. -/
def token (c : UInt8) (rest : List UInt8) : Token × List UInt8 :=
  if c = ch '<' then (.lt, rest)
  else if c = ch '|' then (.bar, rest)
  else if c = ch '&' then (.amp, rest)
  else if c = ch ';' then (.semi, rest)
  else if c = ch '(' then (.lparen, rest)
  else if c = ch ')' then (.rparen, rest)
  else if c = ch '>' then if rest.headD 0 = ch '>' then (.append, rest.tail) else (.gt, rest)
  else (.word (c :: rest.takeWhile isWord), rest.dropWhile isWord)

theorem length_token (c : UInt8) (rest : List UInt8) : (token c rest).2.length ≤ rest.length := by
  have h1 := (dropWhile_suffix (l := rest) isWord).length_le
  unfold token
  split_ifs <;> simp [h1]

variable {α : Type} {t rest toks : List UInt8} {c : UInt8} {q : Nat}

theorem drop_takeWhile (p : α → Bool) (l : List α) : l.drop (l.takeWhile p).length = l.dropWhile p := by
  induction l with
  | nil => rfl
  | cons a l ih => cases h : p a <;> simp [h, ih]

theorem dropWhile_dropWhile (p : α → Bool) (l : List α) : (l.dropWhile p).dropWhile p = l.dropWhile p := by
  induction l with
  | nil => rfl
  | cons a l ih => cases h : p a <;> simp [h, ih]

theorem of_dropWhile_cons {p : α → Bool} {l rest : List α} {c : α} (h : l.dropWhile p = c :: rest) : p c = false := by
  induction l with
  | nil => cases h
  | cons a l ih =>
    cases ha : p a with
    | false =>
      rw [dropWhile_cons_of_neg (by simp [ha])] at h
      cases h
      exact ha
    | true =>
      rw [dropWhile_cons_of_pos ha] at h
      exact ih h

/-- The tokens of a text. -/
def lex (t : List UInt8) : List Token :=
  match _h : t.dropWhile isSpace with
  | [] => []
  | c :: rest => (token c rest).1 :: lex (token c rest).2
termination_by t.length
decreasing_by
  have h1 := (dropWhile_suffix (l := t) isSpace).length_le
  have h2 := length_token c rest
  rw [_h, length_cons] at h1
  omega

theorem lex_nil (h : t.dropWhile isSpace = []) : lex t = [] := by
  rw [lex]
  split
  · rfl
  · rename_i h'
    rw [h] at h'
    cases h'

theorem lex_cons (h : t.dropWhile isSpace = c :: rest) :
    lex t = (token c rest).1 :: lex (token c rest).2 := by
  rw [lex]
  split
  · rename_i h'
    rw [h] at h'
    cases h'
  · rename_i h'
    rw [h] at h'
    cases h'
    rfl

theorem lex_dropWhile (t : List UInt8) : lex (t.dropWhile isSpace) = lex t := by
  have hd := dropWhile_dropWhile isSpace t
  cases h : t.dropWhile isSpace with
  | nil => rw [lex_nil h, lex_nil rfl]
  | cons c rest =>
    rw [h] at hd
    rw [lex_cons h, lex_cons hd]

theorem length_lex (t : List UInt8) : (lex t).length ≤ t.length := by
  induction h : t.length using Nat.strongRecOn generalizing t with
  | ind n ih =>
    have hle := (dropWhile_suffix (l := t) isSpace).length_le
    cases hd : t.dropWhile isSpace with
    | nil =>
      rw [lex_nil hd]
      exact Nat.zero_le _
    | cons c rest =>
      have htok := length_token c rest
      rw [hd, length_cons] at hle
      have := ih _ (by omega) (token c rest).2 rfl
      rw [lex_cons hd, length_cons]
      omega

/-! ## The tokens that are left -/

/-- The tokens of the line from the offset `s` on. -/
def tokens (line : List UInt8) (s : Nat) : List Token := lex (line.drop s)

/-- The text of a span. -/
def slice (line : List UInt8) (w : Span) : List UInt8 := (line.drop w.q).take (w.eq - w.q)

/-- The span is a word of the line: all of its characters are characters of
words, and it ends where the line ends or at another character. -/
structure WordSpan (line : List UInt8) (w : Span) : Prop where
  le : w.q ≤ w.eq
  bound : w.eq ≤ line.length
  inside : ∀ i, w.q ≤ i → i < w.eq → isWord (char line i) = true
  after : w.eq < line.length → isWord (char line w.eq) = false

variable {line : List UInt8} {s : Nat}

theorem drop_skip (line : List UInt8) (p : UInt8 → Bool) (s : Nat) : line.drop
    (skip line p s) = (line.drop s).dropWhile p := by
  rw [skip, ← drop_drop, drop_takeWhile]

theorem char_eq (line : List UInt8) (s : Nat) : char line s = (line.drop s).headD 0 := by
  rw [char, getD_eq_getElem?_getD, headD_eq_head?_getD, head?_drop]

theorem tokens_skip (line : List UInt8) (s : Nat) : tokens line (skip line (strchr whitespace) s) = tokens line s := by
  rw [tokens, drop_skip]
  exact lex_dropWhile _

/-- What is left of a line without NULs, whitespace skipped: nothing, or a token
that starts at the offset `q`. -/
theorem tokens_cases (hs : 0 ∉ line) (s : Nat) :
    line.drop (skip line (strchr whitespace) s) = [] ∧ char line (skip line (strchr whitespace) s) = 0 ∧ tokens line s = [] ∨
    ∃ c rest, line.drop (skip line (strchr whitespace) s) = c :: rest ∧ char line (skip line (strchr whitespace) s) = c ∧
      c ≠ 0 ∧ isSpace c = false ∧ tokens line s = (token c rest).1 :: lex (token c rest).2 := by
  have hdrop := drop_skip line (strchr whitespace) s
  cases h : (line.drop s).dropWhile (strchr whitespace) with
  | nil =>
    rw [h] at hdrop
    exact .inl ⟨hdrop, by rw [char_eq, hdrop]; rfl, lex_nil h⟩
  | cons c rest =>
    rw [h] at hdrop
    have hmem : c ∈ line := mem_of_mem_drop (hdrop ▸ mem_cons_self)
    exact .inr ⟨c, rest, hdrop, by rw [char_eq, hdrop]; rfl, fun e => hs (e ▸ hmem), of_dropWhile_cons h, lex_cons h⟩

theorem isWord_of (hs : isSpace c = false) (hy : strchr symbols c = false) : isWord c = true := by
  rw [isWord, show strchr whitespace c = false from hs, hy]
  rfl

/-- A character that a token starts with is one of the symbols `toks` if and
only if the token's symbol is. -/
theorem symbol_token (hsp : isSpace c = false) (htoks : toks ⊆ symbols) :
    (token c rest).1.symbol.any (strchr toks) = strchr toks c := by
  cases hy : strchr symbols c with
  | false =>
    have hc : c ∉ symbols := by simpa [strchr] using hy
    have hne : ∀ d ∈ symbols, c ≠ d := fun d hd e => hc (e ▸ hd)
    have hw : (token c rest).1 = .word (c :: rest.takeWhile isWord) := by
      simp only [token]
      repeat rw [if_neg (hne _ (by decide))]
    have ht : strchr toks c = false := by simpa [strchr] using fun h => hc (htoks h)
    rw [hw, ht]
    rfl
  | true =>
    have hc : c ∈ symbols := by simpa [strchr] using hy
    have hcases : c = ch '<' ∨ c = ch '|' ∨ c = ch '>' ∨ c = ch '&' ∨ c = ch ';' ∨ c = ch '(' ∨ c = ch ')' := by
      simpa [symbols, bytes, ch] using hc
    rcases hcases with rfl | rfl | rfl | rfl | rfl | rfl | rfl
    case inr.inr.inl =>
      show Option.any _ (if rest.headD 0 = ch '>' then (Token.append, rest.tail) else (.gt, rest)).1.symbol = _
      split <;> rfl
    all_goals rfl

/-- The first of the tokens is one of the symbols `toks`. -/
def starts (toks : List UInt8) (ts : List Token) : Bool := ts.head?.any fun tok => tok.symbol.any (strchr toks)

/-- `peek` looks at the first of the tokens that are left. -/
theorem peek_run (hs : 0 ∉ line) (htoks : toks ⊆ symbols) (s : Nat) :
    ∃ s', (peek line toks).run s = .ok (starts toks (tokens line s)) s' ∧ tokens line s' = tokens line s := by
  refine ⟨skip line (strchr whitespace) s, ?_, tokens_skip line s⟩
  rw [peek, Cmd.run_modify, Cmd.run_get, Cmd.run_pure]
  rcases tokens_cases hs s with ⟨-, hc, ht⟩ | ⟨c, rest, -, hc, hne, hsp, ht⟩
  · simp [hc, ht, starts]
  · simp [hc, ht, hne, starts, symbol_token hsp htoks]

theorem slice_skip (line : List UInt8) (q : Nat) : slice line ⟨q, skip line isWord q⟩ = (line.drop q).takeWhile isWord := by
  rw [slice, skip, Nat.add_sub_cancel_left]
  exact (prefix_iff_eq_take.mp (List.takeWhile_prefix isWord)).symm

/-- The characters at the offset `q` and after it, up to one that is not a
character of words, are a word. -/
theorem wordSpan_skip (hq : q ≤ line.length) : WordSpan line ⟨q, skip line isWord q⟩ where
  le := Nat.le_add_right _ _
  bound := by
    have h := (List.takeWhile_prefix (l := line.drop q) isWord).length_le
    rw [length_drop] at h
    show q + _ ≤ _
    omega
  inside i hi h := by
    have hi : q ≤ i := hi
    have h : i < q + ((line.drop q).takeWhile isWord).length := h
    have hlen : i - q < ((line.drop q).takeWhile isWord).length := by omega
    have hget := (List.takeWhile_prefix (l := line.drop q) isWord).getElem hlen
    have hmem := mem_takeWhile_imp (getElem_mem hlen)
    have hi' : q + (i - q) = i := by omega
    rw [hget, getElem_drop] at hmem
    rw [char, getD_eq_getElem?_getD, ← hi', getElem?_eq_getElem]
    exact hmem
  after h := by
    rw [char_eq, drop_skip]
    cases hd : (line.drop q).dropWhile isWord with
    | nil =>
      rw [← drop_skip, drop_eq_nil_iff] at hd
      exact absurd h (not_lt.mpr hd)
    | cons c rest => exact of_dropWhile_cons hd

/-- What `gettoken` finds at the offset `q`. -/
def scan (line : List UInt8) (q : Nat) : UInt8 × Nat :=
  let c := char line q
  if c = 0 then (c, q)
  else if strchr (bytes "|();&<") c then (c, q + 1)
  else if c = ch '>' then
    if char line (q + 1) = ch '>' then (ch '+', q + 2) else (c, q + 1)
  else (ch 'a', skip line (fun c => !strchr whitespace c && !strchr symbols c) q)

theorem gettoken_run (line : List UInt8) (s : Nat) : (gettoken line).run s =
    .ok ((scan line (skip line (strchr whitespace) s)).1,
      ⟨skip line (strchr whitespace) s, (scan line (skip line (strchr whitespace) s)).2⟩)
      (skip line (strchr whitespace) (scan line (skip line (strchr whitespace) s)).2) := rfl

theorem scan_symbol (hd : line.drop q = c :: rest) (hc : c ∈ bytes "|();&<") :
    scan line q = ((token c rest).1.code, q + 1) ∧ (token c rest).2 = rest ∧ ∀ w, (token c rest).1 ≠ .word w := by
  have hchar : char line q = c := by rw [char_eq, hd]; rfl
  have hm : strchr (bytes "|();&<") c = true := by simpa [strchr] using hc
  have hne : c ≠ 0 := by
    rintro rfl
    exact nomatch hc
  rw [scan, hchar, if_neg hne, if_pos hm]
  have hcases : c = ch '|' ∨ c = ch '(' ∨ c = ch ')' ∨ c = ch ';' ∨ c = ch '&' ∨ c = ch '<' := by simpa [bytes, ch] using hc
  rcases hcases with rfl | rfl | rfl | rfl | rfl | rfl <;> exact ⟨rfl, rfl, by rintro w ⟨⟩⟩

theorem drop_succ_of_drop (hd : line.drop q = c :: rest) : line.drop (q + 1) = rest := by
  rw [← drop_drop, hd]
  rfl

/-- `scan` finds the token that starts at the offset `q`. -/
theorem scan_token (hd : line.drop q = c :: rest) (h0 : c ≠ 0) (hsp : isSpace c = false) :
    (scan line q).1 = (token c rest).1.code ∧ line.drop (scan line q).2 = (token c rest).2 ∧
      ∀ w, (token c rest).1 = .word w → slice line ⟨q, (scan line q).2⟩ = w ∧ WordSpan line ⟨q, (scan line q).2⟩ := by
  have hchar : char line q = c := by rw [char_eq, hd]; rfl
  have hnext := drop_succ_of_drop hd
  by_cases hc : c ∈ bytes "|();&<"
  · obtain ⟨h1, h2, h3⟩ := scan_symbol hd hc
    rw [h1, h2]
    exact ⟨rfl, hnext, fun w hw => absurd hw (h3 w)⟩
  have hm : ¬ strchr (bytes "|();&<") c = true := by simpa [strchr] using hc
  have hcs : c ≠ ch '|' ∧ c ≠ ch '(' ∧ c ≠ ch ')' ∧ c ≠ ch ';' ∧ c ≠ ch '&' ∧ c ≠ ch '<' := by simpa [bytes, ch] using hc
  obtain ⟨n1, n2, n3, n4, n5, n6⟩ := hcs
  have hchar' : char line (q + 1) = rest.headD 0 := by rw [char_eq, hnext]
  rw [scan, hchar, if_neg h0, if_neg hm, token, if_neg n6, if_neg n1, if_neg n5, if_neg n4, if_neg n2, if_neg n3, hchar']
  by_cases hgt : c = ch '>'
  · rw [if_pos hgt, if_pos hgt]
    by_cases hgg : rest.headD 0 = ch '>'
    · rw [if_pos hgg, if_pos hgg]
      refine ⟨rfl, ?_, by simp⟩
      show line.drop (q + 1 + 1) = rest.tail
      rw [← drop_drop, hnext, drop_one]
    · rw [if_neg hgg, if_neg hgg]
      exact ⟨hgt, hnext, by simp⟩
  · rw [if_neg hgt, if_neg hgt]
    have hw : isWord c = true := by
      apply isWord_of hsp
      simp [strchr, symbols, bytes, ch] at *
      simp [*]
    have hq : q ≤ line.length := by
      by_contra hlt
      rw [drop_eq_nil_of_le (by omega)] at hd
      cases hd
    refine ⟨rfl, ?_, ?_⟩
    · show line.drop (skip line isWord q) = _
      rw [drop_skip, hd, dropWhile_cons_of_pos hw]
    · rintro w ⟨⟩
      refine ⟨?_, wordSpan_skip hq⟩
      show slice line ⟨q, skip line isWord q⟩ = _
      rw [slice_skip, hd, takeWhile_cons_of_pos hw]

/-- At the end of the line `gettoken` returns 0. -/
theorem gettoken_nil (hs : 0 ∉ line) (h : tokens line s = []) : ∃ sp s', (gettoken line).run s = .ok
    (0, sp) s' ∧ tokens line s' = [] := by
  rcases tokens_cases hs s with ⟨hd, hc, -⟩ | ⟨c, rest, -, -, -, -, ht⟩
  · have hscan : scan line (skip line (strchr whitespace) s) = (0, skip line (strchr whitespace) s) := by
      rw [scan, hc, if_pos rfl]
    refine ⟨_, _, by rw [gettoken_run, hscan], ?_⟩
    rw [tokens_skip, tokens_skip, h]
  · rw [h] at ht
    cases ht

/-- `gettoken` takes the first of the tokens that are left. -/
theorem gettoken_cons (hs : 0 ∉ line) {tok : Token} {rest : List Token} (h : tokens line s = tok :: rest) :
    ∃ sp s', (gettoken line).run s = .ok (tok.code, sp) s' ∧ tokens line s' = rest ∧
      ∀ w, tok = .word w → slice line sp = w ∧ WordSpan line sp := by
  rcases tokens_cases hs s with ⟨-, -, ht⟩ | ⟨c, after, hd, -, h0, hsp, ht⟩
  · rw [h] at ht
    cases ht
  · rw [h] at ht
    obtain ⟨rfl, rfl⟩ := List.cons.inj ht
    obtain ⟨h1, h2, h3⟩ := scan_token hd h0 hsp
    refine ⟨_, _, by rw [gettoken_run, h1], ?_, h3⟩
    rw [tokens_skip, tokens, h2]

theorem skip_le (p : UInt8 → Bool) (h : s ≤ line.length) : skip line p s ≤ line.length := by
  have hle := (List.takeWhile_prefix (l := line.drop s) p).length_le
  rw [length_drop] at hle
  rw [skip]
  omega

/-- No token is left if and only if there is only whitespace up to the end. -/
theorem tokens_eq_nil_iff (hs : s ≤ line.length) : tokens line s = [] ↔ skip line (strchr whitespace) s = line.length := by
  constructor
  · intro h
    have hd : line.drop (skip line (strchr whitespace) s) = [] := by
      rw [drop_skip]
      cases hd : (line.drop s).dropWhile (strchr whitespace) with
      | nil => rfl
      | cons c rest =>
        rw [tokens, lex_cons hd] at h
        cases h
    exact le_antisymm (skip_le _ hs) (drop_eq_nil_iff.mp hd)
  · intro h
    rw [← tokens_skip, h, tokens, drop_length]
    exact lex_nil rfl

theorem lt_of_char (h : char line s ≠ 0) : s < line.length := by
  by_contra hge
  rw [char, getD_eq_getElem?_getD, getElem?_eq_none (by omega)] at h
  exact h rfl

/-- `peek` and `gettoken` stay in the line. -/
theorem peek_keeps (toks : List UInt8) : Cmd.Keeps (· ≤ line.length) (peek line toks) := by
  rintro s _ _ hs ⟨⟩
  exact skip_le _ hs

theorem scan_le (hq : q ≤ line.length) : (scan line q).2 ≤ line.length := by
  rw [scan]
  split_ifs with h1 h2 h3 h4
  · exact hq
  · exact lt_of_char h1
  · exact lt_of_char (s := q + 1) (by rw [h4]; decide)
  · exact lt_of_char h1
  · exact skip_le _ hq

theorem gettoken_keeps : Cmd.Keeps (· ≤ line.length) (gettoken line) := by
  intro s _ _ hs hrun
  rw [gettoken_run] at hrun
  cases hrun
  exact skip_le _ (scan_le (skip_le _ hs))

end Xv6.Sh
