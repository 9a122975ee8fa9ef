import Xv6.Sh.Parser

/-!
# The strings of a command

`nulterminate` writes a NUL after each word and each file of the command, over
a character that is not part of any word, so that in the buffer each of them
is the C string with the text of its token (`cstr_nulterminate`). With what the
parser does on tokens this gives `parsecmd_iff_derives`.
-/

namespace Xv6.Sh

open List

/-- The C string at the offset `q` of the buffer. -/
def cstr (buf : List UInt8) (q : Nat) : Text := (buf.drop q).takeWhile (· ≠ 0)

variable {line : List UInt8} {n : Nat}

theorem nulterminate_eq (cmd : Command Span) (buf : List UInt8) :
    nulterminate cmd buf = cmd.words.foldl (fun buf w => buf.set w.eq 0) buf := by
  induction cmd generalizing buf with
  | exec argv => rfl
  | redir cmd file mode fd ih => rw [nulterminate, ih, Command.words, foldl_append, foldl_cons, foldl_nil]
  | pipe left right ih1 ih2 | list left right ih1 ih2 => rw [nulterminate, ih1, ih2, Command.words, foldl_append]
  | back cmd ih => exact ih buf

theorem getD_foldl_set (ws : List Span) (buf : List UInt8) (i : Nat) :
    (ws.foldl (fun buf w => buf.set w.eq 0) buf).getD i 0 = if ∃ w ∈ ws, w.eq = i then 0 else buf.getD i 0 := by
  induction ws generalizing buf with
  | nil => simp
  | cons w ws ih =>
    rw [foldl_cons, ih]
    by_cases h : ∃ w' ∈ ws, w'.eq = i
    · rw [if_pos h, if_pos (h.imp fun w' hw' => ⟨mem_cons_of_mem _ hw'.1, hw'.2⟩)]
    · rw [if_neg h]
      by_cases hw : w.eq = i
      · rw [if_pos ⟨w, mem_cons_self, hw⟩, hw, getD_eq_getElem?_getD, getElem?_set_self']
        cases buf[i]? <;> rfl
      · rw [if_neg, getD_eq_getElem?_getD, getElem?_set_ne hw, getD_eq_getElem?_getD]
        rintro ⟨w', hmem, he⟩
        rcases mem_cons.mp hmem with rfl | hmem
        · exact hw he
        · exact h ⟨w', hmem, he⟩

theorem length_foldl_set (ws : List Span) (buf : List UInt8) :
    (ws.foldl (fun buf w => buf.set w.eq 0) buf).length = buf.length := by
  induction ws generalizing buf with
  | nil => rfl
  | cons w ws ih => rw [foldl_cons, ih, length_set]

/-- A string goes up to its first NUL. -/
theorem cstr_eq {buf : List UInt8} {q m : Nat} (hm : q + m < buf.length) (hin : ∀ i, i < m → buf.getD (q + i) 0 ≠ 0)
    (h0 : buf.getD (q + m) 0 = 0) : cstr buf q = (buf.drop q).take m := by
  induction m generalizing q with
  | zero =>
    rw [Nat.add_zero] at hm h0
    rw [cstr, drop_eq_getElem_cons hm, takeWhile_cons_of_neg, take_zero]
    rw [getD_eq_getElem?_getD, getElem?_eq_getElem hm] at h0
    simpa using h0
  | succ m ih =>
    have hq : q < buf.length := by omega
    have hfirst := hin 0 (Nat.succ_pos m)
    rw [Nat.add_zero, getD_eq_getElem?_getD, getElem?_eq_getElem hq] at hfirst
    have hrest := ih (q := q + 1) (by omega) (fun i hi => by rw [Nat.add_assoc, Nat.add_comm 1]; exact hin (i + 1) (by omega))
      (by rw [Nat.add_assoc, Nat.add_comm 1]; exact h0)
    rw [cstr] at hrest ⊢
    rw [drop_eq_getElem_cons hq, takeWhile_cons_of_pos (by simpa using hfirst), take_succ_cons, hrest]

/-- After `nulterminate`, each word is the C string at its start. -/
theorem cstr_nulterminate (hs : 0 ∉ line) {cmd : Command Span} (hspans : ∀ w ∈ cmd.words, WordSpan line w) {w : Span}
    (hw : w ∈ cmd.words) : cstr (nulterminate cmd (line ++ [0])) w.q = slice line w := by
  have hspan := hspans w hw
  have hle := hspan.le
  have hbound := hspan.bound
  have hlen : (nulterminate cmd (line ++ [0])).length = line.length + 1 := by
    rw [nulterminate_eq, length_foldl_set, length_append]
    rfl
  -- No NUL is written into the word: its characters are characters of words.
  have hkeep : ∀ i, w.q ≤ i → i < w.eq → (nulterminate cmd (line ++ [0])).getD i 0 = char line i := by
    intro i hi hlt
    rw [nulterminate_eq, getD_foldl_set, if_neg, char, getD_eq_getElem?_getD, getD_eq_getElem?_getD,
      getElem?_append_left (by omega)]
    rintro ⟨w', hmem, rfl⟩
    have hword := hspan.inside w'.eq hi hlt
    rw [(hspans w' hmem).after (by omega)] at hword
    cases hword
  have hne : ∀ i, w.q ≤ i → i < w.eq → char line i ≠ 0 := by
    intro i _ hlt h0
    have hi : i < line.length := by omega
    rw [char, getD_eq_getElem?_getD, getElem?_eq_getElem hi, Option.getD_some] at h0
    exact hs (h0 ▸ getElem_mem hi)
  have h0 : (nulterminate cmd (line ++ [0])).getD w.eq 0 = 0 := by
    rw [nulterminate_eq, getD_foldl_set, if_pos ⟨w, hw, rfl⟩]
  have heq : w.q + (w.eq - w.q) = w.eq := by omega
  rw [cstr_eq (m := w.eq - w.q) (by omega) _ (by rw [heq]; exact h0), slice]
  · refine ext_getElem? fun i => ?_
    rw [getElem?_take, getElem?_take]
    by_cases hi : i < w.eq - w.q
    · rw [if_pos hi, if_pos hi, getElem?_drop, getElem?_drop]
      have hk := hkeep (w.q + i) (by omega) (by omega)
      rw [char, getD_eq_getElem?_getD, getD_eq_getElem?_getD, getElem?_eq_getElem (by omega),
        getElem?_eq_getElem (by omega), Option.getD_some, Option.getD_some] at hk
      rw [getElem?_eq_getElem (by omega), getElem?_eq_getElem (by omega), hk]
    · rw [if_neg hi, if_neg hi]
  · intro i hi
    rw [hkeep _ (by omega) (by omega)]
    exact hne _ (by omega) (by omega)

/-! ## The offset stays in the line -/

section

open Cmd

theorem parseredirs_keeps (n : Nat) (cmd : Command Span) : Keeps (· ≤ line.length) (parseredirs line n cmd) := by
  induction n generalizing cmd with
  | zero => exact .hang
  | succ n ih =>
    refine (peek_keeps _).bind fun b => .ite ?_ (.ret _)
    exact gettoken_keeps.bind fun tok => gettoken_keeps.bind fun file => .ite (.panic _) (ih _)

theorem parseargs_keeps (n argc : Nat) (ret : Command Span) : Keeps (· ≤ line.length) (parseargs line n argc ret) := by
  induction n generalizing argc ret with
  | zero => exact .hang
  | succ n ih =>
    refine (peek_keeps _).bind fun b => .ite (.ret _) (gettoken_keeps.bind fun tok => ?_)
    exact .ite (.ret _) (.ite (.panic _) (.ite (.panic _) ((parseredirs_keeps _ _).bind fun ret => ih _ _)))

theorem parsebacks_keeps (n : Nat) (cmd : Command Span) : Keeps (· ≤ line.length) (parsebacks line n cmd) := by
  induction n generalizing cmd with
  | zero => exact .hang
  | succ n ih => exact (peek_keeps _).bind fun b => .ite (gettoken_keeps.bind fun _ => ih _) (.ret _)

theorem parse_keeps (n : Nat) : Keeps (· ≤ line.length) (parseline line n) ∧ Keeps (· ≤ line.length) (parsepipe line n) ∧
    Keeps (· ≤ line.length) (parseexec line n) ∧ Keeps (· ≤ line.length) (parseblock line n) := by
  induction n with
  | zero => exact ⟨.hang, .hang, .hang, .hang⟩
  | succ n ih =>
    obtain ⟨hline, hpipe, hexec, hblock⟩ := ih
    refine ⟨?_, ?_, ?_, ?_⟩
    · refine hpipe.bind fun cmd => (parsebacks_keeps _ _).bind fun cmd => (peek_keeps _).bind fun b => .ite ?_ (.ret _)
      exact gettoken_keeps.bind fun _ => hline.bind fun right => .ret _
    · refine hexec.bind fun cmd => (peek_keeps _).bind fun b => .ite ?_ (.ret _)
      exact gettoken_keeps.bind fun _ => hpipe.bind fun right => .ret _
    · exact (peek_keeps _).bind fun b => .ite hblock ((parseredirs_keeps _ _).bind fun ret => parseargs_keeps _ _ _)
    · refine (peek_keeps _).bind fun b => .ite (.panic _) (gettoken_keeps.bind fun _ => hline.bind fun cmd => ?_)
      exact (peek_keeps _).bind fun b => .ite (.panic _) (gettoken_keeps.bind fun _ => parseredirs_keeps _ _)

end

/-! ## Lines -/

/-- What `parsecmd` does after `parseline` has returned: it accepts if no token
is left. -/
theorem parsecmd_run {cmd : Command Span} {s : Nat} (h : (parseline line n).run 0 = .ok cmd s) :
    (parsecmd line n).run 0 = if tokens line s = [] then .ok (cmd, nulterminate cmd (line ++ [0])) line.length
      else .panic "syntax" := by
  have hle : s ≤ line.length := (parse_keeps n).1 0 cmd s (Nat.zero_le _) h
  have htok := tokens_eq_nil_iff hle
  rw [parsecmd, Cmd.run_bind h]
  show ((if skip line (strchr whitespace) s ≠ line.length then Cmd.panic "syntax"
    else pure (cmd, nulterminate cmd (line ++ [0])) : Parse _).run (skip line (strchr whitespace) s)) = _
  by_cases ht : tokens line s = []
  · rw [if_pos ht, if_neg (not_not_intro (htok.mp ht)), htok.mp ht]
    rfl
  · rw [if_neg ht, if_pos (mt htok.mpr ht)]
    rfl

/-- The parser returns or panics on every line, and it returns a command if and
only if the grammar derives the line's tokens; the words and files of the
command, read as C strings, make it the tree of the derivation. -/
theorem parsecmd_iff_derives (line : List UInt8) (hs : 0 ∉ line) (n : Nat) (hn : 4 * line.length + 4 ≤ n) :
    (parsecmd line n).run 0 ≠ .wait ∧
    ∀ c, Derives .line (lex line) c [] ↔ ∃ cmd buf s, (parsecmd line n).run 0 = .ok (cmd, buf) s ∧
      cmd.map (fun w => cstr buf w.q) = c := by
  have htok : tokens line 0 = lex line := rfl
  have hlen := length_lex line
  have hsound := (parse_sound hs n 0).1 (by rw [htok]; omega)
  have hcstr : ∀ {cmd s}, Parsed line .line 0 cmd s →
      cmd.map (fun w => cstr (nulterminate cmd (line ++ [0])) w.q) = cmd.map (slice line) :=
    fun h => Command.map_congr fun w hw => cstr_nulterminate hs h.2 hw
  refine ⟨fun hwait => ?_, fun c => ⟨fun hc => ?_, ?_⟩⟩
  · unfold Cmd.Spec at hsound
    cases hrun : (parseline line n).run 0 with
    | ok cmd s =>
      rw [parsecmd_run hrun] at hwait
      split at hwait <;> cases hwait
    | wait => rw [hrun] at hsound; exact hsound
    | panic m =>
      rw [parsecmd, Cmd.run_bind_panic hrun] at hwait
      cases hwait
  · have hfol : Follows .line [] := by rintro tok ⟨⟩
    obtain ⟨cmd, s, hrun, hmap, ht⟩ := (parse_complete hs hc hfol htok (show 4 * _ + 4 ≤ n by omega)).result
    have hparsed : Parsed line .line 0 cmd s := by
      have hrun : (parseline line n).run 0 = _ := hrun
      rw [Cmd.Spec, hrun] at hsound
      exact hsound
    refine ⟨cmd, _, _, by rw [parsecmd_run hrun, if_pos ht], ?_⟩
    rw [hcstr hparsed, hmap]
  · rintro ⟨cmd, buf, s, hrun, rfl⟩
    obtain ⟨cmd', s', hline, -⟩ := Cmd.of_run_bind hrun
    rw [Cmd.Spec, hline] at hsound
    have hparsed : Parsed line .line 0 cmd' s' := hsound
    rw [parsecmd_run hline] at hrun
    split at hrun
    · rename_i ht
      cases hrun
      rw [hcstr hparsed, ← ht]
      exact hparsed.1
    · cases hrun

theorem parsecmd_iff_derives_list : (parsecmd (bytes "(a > b &) | c;") 60).run 0 ≠ .wait ∧
    ∀ c, Derives .line (lex (bytes "(a > b &) | c;")) c [] ↔
      ∃ cmd buf s, (parsecmd (bytes "(a > b &) | c;") 60).run 0 = .ok (cmd, buf) s ∧ cmd.map (fun w => cstr buf w.q) = c :=
  parsecmd_iff_derives (bytes "(a > b &) | c;") (by decide) 60 (by decide)

end Xv6.Sh
