import Xv6.Sh.Lexer

/-!
# The grammar of the shell

`Derives` is the grammar of command lines, over tokens, with the tree of each
derivation:

* a line is a pipe, then `&`s, then possibly `;` and a line;
* a pipe is an exec, then possibly `|` and a pipe;
* an exec is a line in parentheses with redirections after it, or redirections
  and words, fewer than `maxargs` of them.

`Derives g ts c us` says that the tokens `ts` start with a `g` whose tree is
`c`, and `us` follow it. The parser builds only such trees (`parse_sound`), and
it accepts everything that the grammar derives (`parse_complete`).
-/

namespace Xv6.Sh

open List

/-! ## The grammar -/

/-- A redirection. -/
structure Redir (α : Type) where
  file : α
  mode : Nat
  fd : Nat

/-- The redirections around a command, the first of them innermost. -/
def wrap {α : Type} (rs : List (Redir α)) (c : Command α) : Command α :=
  rs.foldl (fun c r => .redir c r.file r.mode r.fd) c

/-- The mode and the descriptor that a redirection's token stands for. -/
def Token.redir : Token → Option (Nat × Nat)
  | lt => some (oRdonly, 0)
  | gt => some (oWronly ||| oCreate ||| oTrunc, 1)
  | append => some (oWronly ||| oCreate, 1)
  | _ => none

abbrev Text := List UInt8

/-- `redir*`. -/
inductive Redirs : List Token → List (Redir Text) → List Token → Prop
  | nil (ts : List Token) : Redirs ts [] ts
  | cons {tok : Token} {mode fd : Nat} {w : Text} {ts us : List Token} {rs : List (Redir Text)}
      (htok : tok.redir = some (mode, fd)) (h : Redirs ts rs us) : Redirs (tok :: .word w :: ts) (⟨w, mode, fd⟩ :: rs) us

/-- `(word redir*)*`: the words and the redirections. -/
inductive Words : List Token → List Text → List (Redir Text) → List Token → Prop
  | nil (ts : List Token) : Words ts [] [] ts
  | cons {w : Text} {ws : List Text} {ts us vs : List Token} {rs rs' : List (Redir Text)}
      (hr : Redirs ts rs us) (hw : Words us ws rs' vs) : Words (.word w :: ts) (w :: ws) (rs ++ rs') vs

/-- `'&'*` after the command `c`. -/
inductive Backs : List Token → Command Text → Command Text → List Token → Prop
  | nil (ts : List Token) (c : Command Text) : Backs ts c c ts
  | cons {c d : Command Text} {ts us : List Token} (h : Backs ts (.back c) d us) : Backs (.amp :: ts) c d us

inductive Nonterminal where
  | line
  | pipe
  | exec

inductive Derives : Nonterminal → List Token → Command Text → List Token → Prop
  | line {ts us vs : List Token} {c d : Command Text} (hp : Derives .pipe ts c us) (hb : Backs us c d vs) : Derives
    .line ts d vs
  | list {ts us vs ws : List Token} {c d e : Command Text} (hp : Derives .pipe ts c us) (hb : Backs us c d (.semi :: vs))
      (hl : Derives .line vs e ws) : Derives .line ts (.list d e) ws
  | single {ts us : List Token} {c : Command Text} (h : Derives .exec ts c us) : Derives .pipe ts c us
  | pipe {ts us vs : List Token} {c d : Command Text} (he : Derives .exec ts c (.bar :: us)) (hp : Derives .pipe us d vs) :
      Derives .pipe ts (.pipe c d) vs
  | block {ts us vs : List Token} {c : Command Text} {rs : List (Redir Text)} (hl : Derives .line ts c (.rparen :: us))
      (hr : Redirs us rs vs) : Derives .exec (.lparen :: ts) (wrap rs c) vs
  | words {ts us vs : List Token} {ws : List Text} {rs rs' : List (Redir Text)} (hr : Redirs ts rs us)
    (hw : Words us ws rs' vs)
      (hn : ws.length < maxargs) : Derives .exec ts (wrap (rs ++ rs') (.exec ws)) vs

variable {ts us : List Token} {rs : List (Redir Text)} {c : Command Text}

theorem Redirs.length_le (h : Redirs ts rs us) : us.length ≤ ts.length := by
  induction h with
  | nil => exact le_rfl
  | cons _ _ ih => exact le_trans ih (by rw [length_cons, length_cons]; omega)

theorem Words.length_le {ws : List Text} (h : Words ts ws rs us) : us.length ≤ ts.length := by
  induction h with
  | nil => exact le_rfl
  | cons hr _ ih => exact le_trans ih (le_trans hr.length_le (by simp))

theorem Backs.length_le {d : Command Text} (h : Backs ts c d us) : us.length ≤ ts.length := by
  induction h with
  | nil => exact le_rfl
  | cons _ ih => exact le_trans ih (by simp)

theorem Derives.length_le {g : Nonterminal} (h : Derives g ts c us) : us.length ≤ ts.length := by
  induction h with
  | line _ hb ih => exact le_trans hb.length_le ih
  | list _ hb _ ih1 ih2 =>
    have := hb.length_le
    rw [length_cons] at this
    omega
  | single _ ih => exact ih
  | pipe _ _ ih1 ih2 =>
    rw [length_cons] at ih1
    omega
  | block _ hr ih =>
    have := hr.length_le
    rw [length_cons] at ih ⊢
    omega
  | words hr hw => exact le_trans hw.length_le hr.length_le

/-! ## Trees -/

namespace Redir

def map {α β : Type} (f : α → β) (r : Redir α) : Redir β := ⟨f r.file, r.mode, r.fd⟩

end Redir

namespace Command

variable {α β : Type}

def map (f : α → β) : Command α → Command β
  | exec argv => exec (argv.map f)
  | redir cmd file mode fd => redir (cmd.map f) (f file) mode fd
  | pipe left right => pipe (left.map f) (right.map f)
  | list left right => list (left.map f) (right.map f)
  | back cmd => back (cmd.map f)

/-- The words and files of the command. -/
def words : Command α → List α
  | exec argv => argv
  | redir cmd file _ _ => cmd.words ++ [file]
  | pipe left right => left.words ++ right.words
  | list left right => left.words ++ right.words
  | back cmd => cmd.words

theorem map_congr {f g : α → β} {c : Command α} (h : ∀ w ∈ c.words, f w = g w) : c.map f = c.map g := by
  induction c with
  | exec argv =>
    show exec (argv.map f) = exec (argv.map g)
    exact congrArg exec (map_congr_left h)
  | redir cmd file mode fd ih =>
    rw [map, map, ih fun w hw => h w (mem_append_left _ hw), h file (mem_append_right _ (by simp))]
  | pipe left right ih1 ih2 | list left right ih1 ih2 =>
    rw [map, map, ih1 fun w hw => h w (mem_append_left _ hw), ih2 fun w hw => h w (mem_append_right _ hw)]
  | back cmd ih => rw [map, map, ih h]

end Command

theorem map_wrap {α β : Type} (f : α → β) (rs : List (Redir α)) (c : Command α) :
    (wrap rs c).map f = wrap (rs.map (Redir.map f)) (c.map f) := by
  induction rs generalizing c with
  | nil => rfl
  | cons r rs ih => exact ih _

theorem words_wrap {α : Type} (rs : List (Redir α)) (c : Command α) : (wrap rs c).words = c.words ++ rs.map (·.file) := by
  induction rs generalizing c with
  | nil => simp [wrap]
  | cons r rs ih =>
    show (wrap rs (.redir c r.file r.mode r.fd)).words = _
    rw [ih]
    simp [Command.words]

theorem wrap_append {α : Type} (rs rs' : List (Redir α)) (c : Command α) : wrap rs' (wrap rs c) = wrap (rs ++ rs') c :=
  foldl_append.symm

theorem addArg_wrap {α : Type} (rs : List (Redir α)) (c : Command α) (w : α) :
    (wrap rs c).addArg w = wrap rs (c.addArg w) := by
  induction rs generalizing c with
  | nil => rfl
  | cons r rs ih => exact ih _

/-! ## Soundness -/

section

variable {line : List UInt8} {s n : Nat} {α β : Type} {P : String → Prop}

variable {toks : List UInt8} {R : β → Nat → Prop} {tok : Token} {ts us : List Token} {k : UInt8 × Span → Parse β}
  {rs : List (Redir Text)} {ws : List Text} {c d : Command Text} {g : Nonterminal}

theorem spec_peek (hs : 0 ∉ line) (htoks : toks ⊆ symbols) {k : Bool → Parse β}
    (h : ∀ s', tokens line s' = tokens line s → Cmd.Spec P s' (k (starts toks (tokens line s))) R) :
    Cmd.Spec P s (peek line toks >>= k) R := by
  obtain ⟨s', hrun, ht⟩ := peek_run hs htoks s
  rw [Cmd.Spec, Cmd.run_bind hrun]
  exact h s' ht

theorem spec_gettoken (hs : 0 ∉ line) (ht : tokens line s = tok :: ts)
    (h : ∀ sp s', tokens line s' = ts → (∀ w, tok = .word w → slice line sp = w ∧ WordSpan line sp) →
      Cmd.Spec P s' (k (tok.code, sp)) R) : Cmd.Spec P s (gettoken line >>= k) R := by
  obtain ⟨sp, s', hrun, ht', hw⟩ := gettoken_cons hs ht
  rw [Cmd.Spec, Cmd.run_bind hrun]
  exact h sp s' ht' hw

theorem spec_gettoken_nil (hs : 0 ∉ line) (ht : tokens line s = [])
    (h : ∀ sp s', tokens line s' = [] → Cmd.Spec P s' (k (0, sp)) R) : Cmd.Spec P s (gettoken line >>= k) R := by
  obtain ⟨sp, s', hrun, ht'⟩ := gettoken_nil hs ht
  rw [Cmd.Spec, Cmd.run_bind hrun]
  exact h sp s' ht'

theorem spec_panic {m : String} (h : P m) : Cmd.Spec P s (Cmd.panic m : Parse β) R := h

theorem starts_redir (tok : Token) (ts : List Token) : starts (bytes "<>") (tok :: ts) = tok.redir.isSome := by
  cases tok <;> rfl

theorem redircmd_eq {mode fd : Nat} (h : tok.redir = some (mode, fd)) (c : Command Span) (file : Span) :
    redircmd tok.code c file = .redir c file mode fd := by
  cases tok <;> cases h <;> rfl

/-- Only `>` starts more than one kind of token. -/
theorem eq_of_symbol {tok' : Token} (h : tok.symbol = tok'.symbol) (hw : tok.symbol ≠ none) (hc : tok.symbol ≠ some (ch '>')) :
    tok = tok' := by
  cases tok with
  | word w => exact absurd rfl hw
  | append | gt => exact absurd rfl hc
  | _ =>
    cases tok' with
    | word w => cases h
    | _ => first | rfl | exact nomatch h

/-- The first of the tokens is `tok`, the one that starts with `c`. -/
theorem starts_iff (tok : Token) {c : UInt8} (htok : tok.symbol = some c) (hc : c ≠ ch '>') :
    starts [c] ts = true ↔ ∃ us, ts = tok :: us := by
  constructor
  · intro h
    cases ts with
    | nil => cases h
    | cons tok' us =>
      have hany : tok'.symbol.any (strchr [c]) = true := h
      have hsym : tok.symbol = tok'.symbol := by
        obtain ⟨d, hd, hmem⟩ := Option.any_eq_true _ _ |>.mp hany
        rw [htok, hd, show d = c by simpa [strchr] using hmem]
      refine ⟨us, ?_⟩
      rw [eq_of_symbol hsym (by simp [htok]) (by simpa [htok] using hc)]
  · rintro ⟨us, rfl⟩
    show tok.symbol.any _ = true
    rw [htok]
    simp [strchr]

theorem code_eq_word : tok.code = ch 'a' ↔ ∃ w, tok = .word w := by
  cases tok with
  | word w => exact ⟨fun _ => ⟨w, rfl⟩, fun _ => rfl⟩
  | _ => exact ⟨fun h => absurd h (by decide), by rintro ⟨w, ⟨⟩⟩⟩

theorem word_code (w : Text) : ¬ (Token.word w).code ≠ ch 'a' := fun h => h rfl

theorem code_ne_zero (tok : Token) : tok.code ≠ 0 := by
  cases tok with
  | word w => exact show ch 'a' ≠ 0 by decide
  | _ => decide

/-- What the parser returns: the redirections that it found around a command. -/
structure Redirected (line : List UInt8) (ts : List Token) (cmd c : Command Span) (us : List Token)
    (rs : List (Redir Span)) : Prop where
  eq : c = wrap rs cmd
  redirs : Redirs ts (rs.map (Redir.map (slice line))) us
  spans : ∀ r ∈ rs, WordSpan line r.file

theorem parseredirs_sound (hs : 0 ∉ line) (cmd : Command Span) (hn : (tokens line s).length < n) :
    Cmd.Spec (fun _ => True) s (parseredirs line n cmd) fun c s' =>
      ∃ rs, Redirected line (tokens line s) cmd c (tokens line s') rs := by
  induction n generalizing s cmd with
  | zero => cases hn
  | succ n ih =>
    refine spec_peek hs (by decide) fun s1 h1 => ?_
    cases ht : tokens line s with
    | nil => exact .ret ⟨[], rfl, by rw [h1, ht]; exact .nil _, by simp⟩
    | cons tok ts =>
      rw [starts_redir]
      cases hr : tok.redir with
      | none => exact .ret ⟨[], rfl, by rw [h1, ht]; exact .nil _, by simp⟩
      | some md =>
        obtain ⟨mode, fd⟩ := md
        rw [Option.isSome_some, if_pos rfl]
        refine spec_gettoken hs (h1.trans ht) fun _ s2 h2 _ => ?_
        cases ts with
        | nil => exact spec_gettoken_nil hs h2 fun _ _ _ => spec_panic trivial
        | cons tok' ts =>
          refine spec_gettoken hs h2 fun sp s3 h3 hw => ?_
          dsimp only
          by_cases hword : ∃ w, tok' = .word w
          · obtain ⟨w, rfl⟩ := hword
            obtain ⟨hslice, hspan⟩ := hw w rfl
            rw [if_neg (word_code w), redircmd_eq hr]
            have hlen : (tokens line s3).length < n := by
              rw [ht, length_cons, length_cons] at hn
              rw [h3]
              omega
            refine (ih _ hlen).mono fun c s' => ?_
            rintro ⟨rs, rfl, hrs, hspans⟩
            refine ⟨⟨sp, mode, fd⟩ :: rs, rfl, ?_, ?_⟩
            · rw [h3] at hrs
              rw [map_cons, Redir.map, hslice]
              exact .cons hr hrs
            · rintro r (_ | ⟨_, hmem⟩)
              · exact hspan
              · exact hspans r hmem
          · rw [if_pos (mt code_eq_word.mp hword)]
            exact spec_panic trivial

theorem starts_end (tok : Token) (ts : List Token) :
    starts (bytes "|)&;") (tok :: ts) = decide (tok ∈ [Token.bar, .rparen, .amp, .semi]) := by
  cases tok <;> rfl

theorem parseargs_sound (hs : 0 ∉ line) (ws : List Span) (rs : List (Redir Span)) (hws : ws.length < maxargs)
    (hn : (tokens line s).length < n) :
    Cmd.Spec (fun _ => True) s (parseargs line n ws.length (wrap rs (.exec ws))) fun c s' => ∃ ws' rs',
      c = wrap (rs ++ rs') (.exec (ws ++ ws')) ∧ (ws ++ ws').length < maxargs ∧
      Words (tokens line s) (ws'.map (slice line)) (rs'.map (Redir.map (slice line))) (tokens line s') ∧
      (∀ w ∈ ws', WordSpan line w) ∧ ∀ r ∈ rs', WordSpan line r.file := by
  induction n generalizing s ws rs with
  | zero => cases hn
  | succ n ih =>
    have hret : ∀ s', tokens line s' = tokens line s →
      Cmd.Spec (fun _ => True) s' (pure (wrap rs (.exec ws)) : Parse _) fun c s' =>
        ∃ ws' rs', c = wrap (rs ++ rs') (.exec (ws ++ ws')) ∧ (ws ++ ws').length < maxargs ∧
        Words (tokens line s) (ws'.map (slice line)) (rs'.map (Redir.map (slice line))) (tokens line s') ∧
        (∀ w ∈ ws', WordSpan line w) ∧ ∀ r ∈ rs', WordSpan line r.file := by
      intro s' hs'
      refine .ret ⟨[], [], by simp, by simpa using hws, ?_, by simp, by simp⟩
      rw [hs']
      exact .nil _
    refine spec_peek hs (by decide) fun s1 h1 => ?_
    cases ht : tokens line s with
    | nil =>
      rw [if_neg (by decide)]
      refine spec_gettoken_nil hs (h1.trans ht) fun _ s2 h2 => ?_
      dsimp only
      rw [if_pos rfl, ← ht]
      exact hret s2 (h2.trans ht.symm)
    | cons tok ts =>
      rw [← ht]
      by_cases hb : starts (bytes "|)&;") (tokens line s) = true
      · rw [if_pos hb]
        exact hret s1 h1
      rw [if_neg hb]
      refine spec_gettoken hs (h1.trans ht) fun sp s2 h2 hw => ?_
      dsimp only
      rw [if_neg (code_ne_zero tok)]
      by_cases hword : ∃ w, tok = .word w
      · obtain ⟨w, rfl⟩ := hword
        obtain ⟨hslice, hspan⟩ := hw w rfl
        rw [if_neg (word_code w), addArg_wrap]
        by_cases hmax : ws.length + 1 ≥ maxargs
        · rw [if_pos hmax]
          exact spec_panic trivial
        rw [if_neg hmax]
        rw [ht, length_cons] at hn
        refine (parseredirs_sound hs _ (by rw [h2]; omega)).bind fun c s3 hc => ?_
        obtain ⟨rs1, rfl, hrs, hspans⟩ := hc
        rw [h2] at hrs
        have hlen := hrs.length_le
        rw [wrap_append, show ws.length + 1 = (ws ++ [sp]).length by simp]
        refine (ih (ws ++ [sp]) _ (by simpa using hmax) (by omega)).mono fun c s' => ?_
        rintro ⟨ws', rs', rfl, hlt, hwords, hws', hrs'⟩
        refine ⟨sp :: ws', rs1 ++ rs', by simp, by simpa using hlt, ?_, ?_, ?_⟩
        · rw [ht, map_cons, hslice, map_append]
          exact .cons hrs hwords
        · rintro w (_ | ⟨_, hmem⟩)
          · exact hspan
          · exact hws' w hmem
        · intro r hr
          rcases mem_append.mp hr with hr | hr
          · exact hspans r hr
          · exact hrs' r hr
      · rw [if_pos (mt code_eq_word.mp hword)]
        exact spec_panic trivial

theorem parsebacks_sound (hs : 0 ∉ line) (cmd : Command Span) (hn : (tokens line s).length < n) :
    Cmd.Spec (fun _ => True) s (parsebacks line n cmd) fun c s' =>
      Backs (tokens line s) (cmd.map (slice line)) (c.map (slice line)) (tokens line s') ∧ c.words = cmd.words := by
  induction n generalizing s cmd with
  | zero => cases hn
  | succ n ih =>
    refine spec_peek hs (by decide) fun s1 h1 => ?_
    by_cases hb : starts (bytes "&") (tokens line s) = true
    · obtain ⟨ts, ht⟩ := (starts_iff .amp rfl (by decide)).mp hb
      rw [if_pos hb]
      refine spec_gettoken hs (h1.trans ht) fun _ s2 h2 _ => ?_
      rw [ht, length_cons] at hn
      refine (ih (.back cmd) (by rw [h2]; omega)).mono fun c s' h => ?_
      rw [h2] at h
      rw [ht]
      exact ⟨.cons h.1, h.2⟩
    · rw [if_neg hb]
      exact .ret ⟨by rw [h1]; exact .nil _ _, rfl⟩

/-- The tree that the parser has built from the tokens between the offsets `s`
and `s'`. -/
def Parsed (line : List UInt8) (g : Nonterminal) (s : Nat) (cmd : Command Span) (s' : Nat) : Prop :=
  Derives g (tokens line s) (cmd.map (slice line)) (tokens line s') ∧ ∀ w ∈ cmd.words, WordSpan line w

theorem parse_sound (hs : 0 ∉ line) (n s : Nat) :
    (4 * (tokens line s).length + 3 < n → Cmd.Spec (fun _ => True) s (parseline line n) (Parsed line .line s)) ∧
    (4 * (tokens line s).length + 2 < n → Cmd.Spec (fun _ => True) s (parsepipe line n) (Parsed line .pipe s)) ∧
    (4 * (tokens line s).length + 1 < n → Cmd.Spec (fun _ => True) s (parseexec line n) (Parsed line .exec s)) ∧
    (4 * (tokens line s).length < n → Cmd.Spec (fun _ => True) s (parseblock line n) (Parsed line .exec s)) := by
  induction n generalizing s with
  | zero => refine ⟨?_, ?_, ?_, ?_⟩ <;> exact nofun
  | succ n ih =>
    refine ⟨fun hn => ?_, fun hn => ?_, fun hn => ?_, fun hn => ?_⟩
    · -- `parseline`
      refine ((ih s).2.1 (by omega)).bind fun cmd s1 h1 => ?_
      have hl1 := h1.1.length_le
      refine (parsebacks_sound hs cmd (by omega)).bind fun c s2 h2 => ?_
      have hl2 := h2.1.length_le
      refine spec_peek hs (by decide) fun s3 h3 => ?_
      by_cases hb : starts (bytes ";") (tokens line s2) = true
      · obtain ⟨ts, ht⟩ := (starts_iff .semi rfl (by decide)).mp hb
        rw [if_pos hb]
        refine spec_gettoken hs (h3.trans ht) fun _ s4 h4 _ => ?_
        rw [ht, length_cons] at hl2
        refine ((ih s4).1 (by rw [h4]; omega)).bind fun d s' hd => .ret ⟨?_, ?_⟩
        · exact .list h1.1 (ht ▸ h2.1) (h4 ▸ hd.1)
        · intro w hw
          rcases mem_append.mp hw with hw | hw
          · exact h1.2 w (h2.2 ▸ hw)
          · exact hd.2 w hw
      · rw [if_neg hb]
        exact .ret ⟨h3 ▸ .line h1.1 h2.1, h2.2 ▸ h1.2⟩
    · -- `parsepipe`
      refine ((ih s).2.2.1 (by omega)).bind fun cmd s1 h1 => ?_
      have hl1 := h1.1.length_le
      refine spec_peek hs (by decide) fun s2 h2 => ?_
      by_cases hb : starts (bytes "|") (tokens line s1) = true
      · obtain ⟨ts, ht⟩ := (starts_iff .bar rfl (by decide)).mp hb
        rw [if_pos hb]
        refine spec_gettoken hs (h2.trans ht) fun _ s3 h3 _ => ?_
        rw [ht, length_cons] at hl1
        refine ((ih s3).2.1 (by rw [h3]; omega)).bind fun d s' hd => .ret ⟨?_, ?_⟩
        · exact .pipe (ht ▸ h1.1) (h3 ▸ hd.1)
        · intro w hw
          rcases mem_append.mp hw with hw | hw
          · exact h1.2 w hw
          · exact hd.2 w hw
      · rw [if_neg hb]
        exact .ret ⟨h2 ▸ .single h1.1, h1.2⟩
    · -- `parseexec`
      refine spec_peek hs (by decide) fun s1 h1 => ?_
      by_cases hb : starts (bytes "(") (tokens line s) = true
      · rw [if_pos hb]
        refine ((ih s1).2.2.2 (by rw [h1]; omega)).mono fun cmd s' h => ?_
        exact ⟨h1 ▸ h.1, h.2⟩
      · rw [if_neg hb]
        refine (parseredirs_sound hs _ (by rw [h1]; omega)).bind fun c s2 hc => ?_
        obtain ⟨rs, rfl, hrs, hspans⟩ := hc
        have hl := hrs.length_le
        rw [h1] at hl hrs
        refine (parseargs_sound hs [] rs (by decide) (by omega)).mono fun c s' => ?_
        rintro ⟨ws, rs', rfl, hlt, hw, hws, hrs'⟩
        rw [nil_append] at hlt ⊢
        refine ⟨?_, ?_⟩
        · rw [map_wrap, map_append]
          exact .words hrs hw (by rwa [length_map])
        · intro w hw
          rw [words_wrap, map_append] at hw
          simp only [mem_append, mem_map] at hw
          rcases hw with hw | ⟨r, hr, rfl⟩ | ⟨r, hr, rfl⟩
          · exact hws w hw
          · exact hspans r hr
          · exact hrs' r hr
    · -- `parseblock`
      refine spec_peek hs (by decide) fun s1 h1 => ?_
      by_cases hb : starts (bytes "(") (tokens line s) = true
      · obtain ⟨ts, ht⟩ := (starts_iff .lparen rfl (by decide)).mp hb
        rw [hb, if_neg (by decide)]
        refine spec_gettoken hs (h1.trans ht) fun _ s2 h2 _ => ?_
        rw [ht, length_cons] at hn
        refine ((ih s2).1 (by rw [h2]; omega)).bind fun cmd s3 hc => ?_
        have hl := hc.1.length_le
        refine spec_peek hs (by decide) fun s4 h4 => ?_
        by_cases hb' : starts (bytes ")") (tokens line s3) = true
        · obtain ⟨us, hu⟩ := (starts_iff .rparen rfl (by decide)).mp hb'
          rw [hb', if_neg (by decide)]
          refine spec_gettoken hs (h4.trans hu) fun _ s5 h5 _ => ?_
          rw [hu, h2, length_cons] at hl
          refine (parseredirs_sound hs _ (by rw [h5]; omega)).mono fun c s' h => ?_
          obtain ⟨rs, rfl, hrs, hspans⟩ := h
          refine ⟨?_, ?_⟩
          · rw [map_wrap, ht]
            exact .block (hu ▸ h2 ▸ hc.1) (h5 ▸ hrs)
          · intro w hw
            rw [words_wrap] at hw
            simp only [mem_append, mem_map] at hw
            rcases hw with hw | ⟨r, hr, rfl⟩
            · exact hc.2 w hw
            · exact hspans r hr
        · rw [if_pos (by simpa using hb')]
          exact spec_panic trivial
      · rw [if_pos (by simpa using hb)]
        exact spec_panic trivial

/-! ## Completeness -/

theorem Redirs.head (h : Redirs ts rs us) :
    ∀ tok ∈ ts.head?, tok.redir.isSome ∨ tok ∈ us.head? := by
  cases h with
  | nil => exact fun tok h => .inr h
  | cons htok _ =>
    rintro tok ⟨⟩
    exact .inl (by rw [htok]; rfl)

theorem Words.head (h : Words ts ws rs us) :
    ∀ tok ∈ ts.head?, (∃ w, tok = .word w) ∨ tok ∈ us.head? := by
  cases h with
  | nil => exact fun tok h => .inr h
  | cons _ _ =>
    rintro tok ⟨⟩
    exact .inl ⟨_, rfl⟩

theorem Backs.head (h : Backs ts c d us) :
    ∀ tok ∈ ts.head?, tok = .amp ∨ tok ∈ us.head? := by
  cases h with
  | nil => exact fun tok h => .inr h
  | cons _ =>
    rintro tok ⟨⟩
    exact .inl rfl

/-- What may come after what a nonterminal derives. -/
def Nonterminal.follow : Nonterminal → List Token
  | .line => [.rparen]
  | .pipe => [.amp, .semi, .rparen]
  | .exec => [.bar, .amp, .semi, .rparen]

/-- The tokens `us` may come after `g`. -/
def Follows (g : Nonterminal) (us : List Token) : Prop := ∀ tok ∈ us.head?, tok ∈ g.follow

theorem starts_eq_false (h : ∀ tok ∈ ts.head?, tok.symbol.any (strchr toks) = false) :
    starts toks ts = false := by
  cases ts with
  | nil => rfl
  | cons tok ts => exact h tok rfl

theorem Follows.starts (h : Follows g us)
    (hg : ∀ tok ∈ g.follow, tok.symbol.any (strchr toks) = false) : starts toks us = false :=
  starts_eq_false fun tok htok => hg tok (h tok htok)

theorem follows_backs {vs : List Token} (h : Backs us c d vs) (hv : Follows .pipe vs) : Follows .pipe us := by
  intro tok htok
  rcases h.head tok htok with rfl | hmem
  · decide
  · exact hv tok hmem

theorem parseredirs_complete (hs : 0 ∉ line) (h : Redirs ts rs us)
    (hu : ∀ tok ∈ us.head?, tok.redir = none) (ht : tokens line s = ts) (hn : ts.length < n) (cmd : Command Span) :
    Cmd.Spec (fun _ => False) s (parseredirs line n cmd) fun c s' =>
      ∃ rs', c = wrap rs' cmd ∧ rs'.map (Redir.map (slice line)) = rs ∧ tokens line s' = us := by
  induction h generalizing s n cmd with
  | nil ts =>
    obtain ⟨n, rfl⟩ := Nat.exists_eq_add_one.2 (Nat.zero_lt_of_lt hn)
    refine spec_peek hs (by decide) fun s1 h1 => ?_
    have hb : starts (bytes "<>") (tokens line s) = false := by
      rw [ht]
      cases ts with
      | nil => rfl
      | cons tok ts => rw [starts_redir, hu tok rfl]; rfl
    rw [hb]
    exact .ret ⟨[], rfl, rfl, h1.trans ht⟩
  | @cons tok mode fd w ts us rs htok _ ih =>
    obtain ⟨n, rfl⟩ := Nat.exists_eq_add_one.2 (Nat.zero_lt_of_lt hn)
    refine spec_peek hs (by decide) fun s1 h1 => ?_
    rw [ht, starts_redir, htok, Option.isSome_some, if_pos rfl]
    refine spec_gettoken hs (h1.trans ht) fun _ s2 h2 _ => ?_
    refine spec_gettoken hs h2 fun sp s3 h3 hw => ?_
    dsimp only
    rw [if_neg (word_code w), redircmd_eq htok]
    rw [length_cons, length_cons] at hn
    refine (ih hu h3 (by omega) _).mono fun c s' => ?_
    rintro ⟨rs', rfl, hrs, hs'⟩
    refine ⟨⟨sp, mode, fd⟩ :: rs', rfl, ?_, hs'⟩
    rw [map_cons, Redir.map, (hw w rfl).1, hrs]

theorem redir_of_follows (h : Follows .exec us) : ∀ tok ∈ us.head?, tok.redir = none := by
  intro tok htok
  have hmem := h tok htok
  simp only [Nonterminal.follow, mem_cons, not_mem_nil, or_false] at hmem
  rcases hmem with rfl | rfl | rfl | rfl <;> rfl

theorem redir_of_words (h : Words ts ws rs us) (hu : Follows .exec us) :
    ∀ tok ∈ ts.head?, tok.redir = none := by
  intro tok htok
  rcases h.head tok htok with ⟨w, rfl⟩ | hmem
  · rfl
  · exact redir_of_follows hu tok hmem

theorem parseargs_complete (hs : 0 ∉ line) (h : Words ts ws rs us)
    (hu : Follows .exec us) (ht : tokens line s = ts) (hn : ts.length < n) (ws0 : List Span) (rs0 : List (Redir Span))
    (hmax : ws0.length + ws.length < maxargs) :
    Cmd.Spec (fun _ => False) s (parseargs line n ws0.length (wrap rs0 (.exec ws0))) fun c s' => ∃ ws' rs',
      c = wrap (rs0 ++ rs') (.exec (ws0 ++ ws')) ∧ ws'.map (slice line) = ws ∧ rs'.map (Redir.map (slice line)) = rs ∧
      tokens line s' = us := by
  induction h generalizing s n ws0 rs0 with
  | nil ts =>
    obtain ⟨n, rfl⟩ := Nat.exists_eq_add_one.2 (Nat.zero_lt_of_lt hn)
    refine spec_peek hs (by decide) fun s1 h1 => ?_
    cases ts with
    | nil =>
      rw [ht, if_neg (by decide)]
      refine spec_gettoken_nil hs (h1.trans ht) fun _ s2 h2 => ?_
      exact .ret ⟨[], [], by simp, rfl, rfl, h2⟩
    | cons tok ts =>
      have hb : starts (bytes "|)&;") (tokens line s) = true := by
        rw [ht, starts_end]
        have := hu tok rfl
        simp only [Nonterminal.follow, mem_cons, not_mem_nil, or_false] at this
        rcases this with rfl | rfl | rfl | rfl <;> rfl
      rw [if_pos hb]
      exact .ret ⟨[], [], by simp, rfl, rfl, h1.trans ht⟩
  | @cons w ws ts us vs rs rs' hr hw ih =>
    obtain ⟨n, rfl⟩ := Nat.exists_eq_add_one.2 (Nat.zero_lt_of_lt hn)
    refine spec_peek hs (by decide) fun s1 h1 => ?_
    rw [ht, starts_end, if_neg (by simp)]
    refine spec_gettoken hs (h1.trans ht) fun sp s2 h2 hword => ?_
    dsimp only
    rw [length_cons] at hn hmax
    rw [if_neg (code_ne_zero _), if_neg (word_code w), if_neg (by omega), addArg_wrap]
    refine (parseredirs_complete hs hr (redir_of_words hw hu) h2 (by omega) _).bind fun c s3 => ?_
    rintro ⟨rs1, rfl, hrs1, h3⟩
    have hlen := hr.length_le
    rw [wrap_append, show ws0.length + 1 = (ws0 ++ [sp]).length by simp]
    refine (ih hu h3 (by omega) (ws0 ++ [sp]) _ (by rw [length_append, length_singleton]; omega)).mono fun c s' => ?_
    rintro ⟨ws', rs2, rfl, hws', hrs2, hs'⟩
    refine ⟨sp :: ws', rs1 ++ rs2, by simp, ?_, ?_, hs'⟩
    · rw [map_cons, (hword w rfl).1, hws']
    · rw [map_append, hrs1, hrs2]

theorem parsebacks_complete (hs : 0 ∉ line) (h : Backs ts c d us)
    (hu : starts (bytes "&") us = false) (ht : tokens line s = ts) (hn : ts.length < n) {cmd : Command Span}
    (hcmd : cmd.map (slice line) = c) :
    Cmd.Spec (fun _ => False) s (parsebacks line n cmd) fun c' s' => c'.map (slice line) = d ∧ tokens line s' = us := by
  induction h generalizing s n cmd with
  | nil ts c =>
    obtain ⟨n, rfl⟩ := Nat.exists_eq_add_one.2 (Nat.zero_lt_of_lt hn)
    refine spec_peek hs (by decide) fun s1 h1 => ?_
    rw [ht, hu]
    exact .ret ⟨hcmd, h1.trans ht⟩
  | @cons c d ts us _ ih =>
    obtain ⟨n, rfl⟩ := Nat.exists_eq_add_one.2 (Nat.zero_lt_of_lt hn)
    refine spec_peek hs (by decide) fun s1 h1 => ?_
    rw [ht, if_pos (show starts (bytes "&") (.amp :: ts) = true from rfl)]
    refine spec_gettoken hs (h1.trans ht) fun _ s2 h2 _ => ?_
    rw [length_cons] at hn
    exact ih hu h2 (by omega) (by rw [Command.map, hcmd])

/-- The function that parses `g`. -/
def parse (line : List UInt8) : Nonterminal → Nat → Parse (Command Span)
  | .line => parseline line
  | .pipe => parsepipe line
  | .exec => parseexec line

/-- The number of calls that `parse` needs for `m` tokens. -/
def calls : Nonterminal → Nat → Nat
  | .line, m => 4 * m + 4
  | .pipe, m => 4 * m + 3
  | .exec, m => 4 * m + 2

theorem parse_complete (hs : 0 ∉ line) (h : Derives g ts c us)
    (hu : Follows g us) (ht : tokens line s = ts) (hn : calls g ts.length ≤ n) :
    Cmd.Spec (fun _ => False) s (parse line g n) fun cmd s' => cmd.map (slice line) = c ∧ tokens line s' = us := by
  induction h generalizing s n with
  | @line ts us vs c d hp hb ih =>
    cases n with
    | zero => cases hn
    | succ n =>
      have hn : 4 * ts.length + 4 ≤ n + 1 := hn
      have hlen := hp.length_le
      refine (ih (follows_backs hb fun tok htok => ?_) ht (Nat.le_of_succ_le_succ hn)).bind fun cmd s1 h1 => ?_
      · have := hu tok htok
        simp only [Nonterminal.follow, mem_singleton] at this
        rw [this]
        decide
      refine (parsebacks_complete hs hb (hu.starts (by decide)) h1.2 (by omega) h1.1).bind fun cmd' s2 h2 => ?_
      refine spec_peek hs (by decide) fun s3 h3 => ?_
      rw [h2.2, hu.starts (by decide)]
      exact .ret ⟨h2.1, h3.trans h2.2⟩
  | @list ts us vs ws c d e hp hb hl ih1 ih2 =>
    cases n with
    | zero => cases hn
    | succ n =>
      have hn : 4 * ts.length + 4 ≤ n + 1 := hn
      have hlen := hp.length_le
      have hlen' := hb.length_le
      rw [length_cons] at hlen'
      refine (ih1 (follows_backs hb (by rintro tok ⟨⟩; decide)) ht (Nat.le_of_succ_le_succ hn)).bind fun cmd s1 h1 => ?_
      refine (parsebacks_complete hs hb rfl h1.2 (by omega) h1.1).bind fun cmd' s2 h2 => ?_
      refine spec_peek hs (by decide) fun s3 h3 => ?_
      rw [h2.2, if_pos (show starts (bytes ";") (.semi :: vs) = true from rfl)]
      refine spec_gettoken hs (h3.trans h2.2) fun _ s4 h4 _ => ?_
      refine (ih2 hu h4 (show 4 * vs.length + 4 ≤ n by omega)).bind fun cmd' s' h' => .ret ⟨?_, h'.2⟩
      rw [Command.map, h2.1, h'.1]
  | @single ts us c h ih =>
    cases n with
    | zero => cases hn
    | succ n =>
      have hf : Follows .exec us := fun tok htok => by
        have := hu tok htok
        simp only [Nonterminal.follow, mem_cons, not_mem_nil, or_false] at this ⊢
        exact .inr this
      refine (ih hf ht (Nat.le_of_succ_le_succ hn)).bind fun cmd s1 h1 => ?_
      refine spec_peek hs (by decide) fun s2 h2 => ?_
      rw [h1.2, hu.starts (by decide)]
      exact .ret ⟨h1.1, h2.trans h1.2⟩
  | @pipe ts us vs c d he hp ih1 ih2 =>
    cases n with
    | zero => cases hn
    | succ n =>
      have hn : 4 * ts.length + 3 ≤ n + 1 := hn
      have hlen := he.length_le
      rw [length_cons] at hlen
      refine (ih1 (by rintro tok ⟨⟩; decide) ht (Nat.le_of_succ_le_succ hn)).bind fun cmd s1 h1 => ?_
      refine spec_peek hs (by decide) fun s2 h2 => ?_
      rw [h1.2, if_pos (show starts (bytes "|") (.bar :: us) = true from rfl)]
      refine spec_gettoken hs (h2.trans h1.2) fun _ s3 h3 _ => ?_
      refine (ih2 hu h3 (show 4 * us.length + 3 ≤ n by omega)).bind fun cmd' s' h' => .ret ⟨?_, h'.2⟩
      rw [Command.map, h1.1, h'.1]
  | @block ts us vs c rs hl hr ih =>
    have hn : 4 * (ts.length + 1) + 2 ≤ n := hn
    obtain ⟨n, rfl⟩ := Nat.exists_eq_add_of_le' (show 2 ≤ n by omega)
    have hlen := hl.length_le
    rw [length_cons] at hlen
    refine spec_peek hs (by decide) fun s1 h1 => ?_
    rw [ht, if_pos (show starts (bytes "(") (.lparen :: ts) = true from rfl)]
    refine spec_peek hs (by decide) fun s2 h2 => ?_
    have ht1 := h1.trans ht
    rw [ht1, show starts (bytes "(") (.lparen :: ts) = true from rfl, if_neg (by decide)]
    refine spec_gettoken hs (h2.trans ht1) fun _ s3 h3 _ => ?_
    refine (ih (by rintro tok ⟨⟩; decide) h3 (show 4 * ts.length + 4 ≤ n by omega)).bind fun cmd s4 h4 => ?_
    refine spec_peek hs (by decide) fun s5 h5 => ?_
    rw [h4.2, show starts (bytes ")") (.rparen :: us) = true from rfl, if_neg (by decide)]
    refine spec_gettoken hs (h5.trans h4.2) fun _ s6 h6 _ => ?_
    refine (parseredirs_complete hs hr (redir_of_follows hu) h6 (by omega) cmd).mono fun c' s' => ?_
    rintro ⟨rs', rfl, hrs', hs'⟩
    rw [map_wrap, hrs', h4.1]
    exact ⟨rfl, hs'⟩
  | @words ts us vs ws rs rs' hr hw hmax =>
    cases n with
    | zero => cases hn
    | succ n =>
      have hn : 4 * ts.length + 2 ≤ n + 1 := hn
      have hlen := hr.length_le
      refine spec_peek hs (by decide) fun s1 h1 => ?_
      have hb : starts (bytes "(") (tokens line s) = false := by
        rw [ht]
        refine starts_eq_false fun tok htok => ?_
        rcases hr.head tok htok with hsome | hmem
        · cases tok <;> first | rfl | cases hsome
        · rcases hw.head tok hmem with ⟨w, rfl⟩ | hmem'
          · rfl
          · exact (by decide : ∀ tok ∈ Nonterminal.exec.follow, tok.symbol.any (strchr (bytes "(")) = false) tok (hu tok hmem')
      rw [hb, if_neg (by decide)]
      refine (parseredirs_complete hs hr (redir_of_words hw hu) (h1.trans ht) (by omega) _).bind fun c1 s2 => ?_
      rintro ⟨rs1, rfl, hrs1, h2⟩
      refine (parseargs_complete hs hw hu h2 (by omega) [] rs1 (by simpa using hmax)).mono fun c2 s' => ?_
      rintro ⟨ws', rs2, rfl, hws', hrs2, hs'⟩
      rw [map_wrap, map_append, hrs1, hrs2, nil_append, Command.map, hws']
      exact ⟨rfl, hs'⟩

end

end Xv6.Sh
