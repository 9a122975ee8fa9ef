import Mathlib.Data.List.GetD
import Xv6.User.Match

/-!
# The lines that `grep` writes (`grep.c`)

`grep` reads its input in pieces into a buffer, writes the lines in it that match,
and slides the rest of the last line to the front of the buffer. `linesFrom` cuts
the input into lines one character after the other, so how it arrives makes no
difference. But if the buffer is full and has no newline, there is no room to read
into, and `grep` takes this for the end of its input (`grep_correct_iff`).

A loop of the source is a recursion that has as many turns as it is given; the
result is `none` if these are not enough.
-/

namespace Xv6.User

open List

abbrev bufSize : Nat := 1024

abbrev newline : UInt8 := 10

/-- Where `c` is in the string, whose first character is at `p`. -/
def strchr (c : UInt8) : List UInt8 → Nat → Option Nat
  | [], _ => none
  | x :: s, p => if x = 0 then none else if x = c then some p else strchr c s (p + 1)

def cstr (buf : List UInt8) (p : Nat) : List UInt8 := (buf.drop p).takeWhile (· ≠ 0)

/-- `memmove` of `m` bytes from `p` to the front. -/
def slide (buf : List UInt8) (p m : Nat) : List UInt8 := (buf.drop p).take m ++ buf.drop m

/-- What `read` stores at `m`. -/
def fill (buf : List UInt8) (m : Nat) (bytes : List UInt8) : List UInt8 := buf.take m ++ bytes ++ buf.drop (m + bytes.length)

/-- How many bytes `read` returns. It is at least one, if there are any and there is
room for them; `choice` chooses how many. -/
def readLen (choice : Nat) (inp : List UInt8) (size : Nat) : Nat :=
  if inp = [] ∨ size = 0 then 0 else 1 + choice % min inp.length size

/-- The loop over the lines in the buffer, from `p` on. `out` has what was written. -/
def grepLines (pattern : List UInt8) : Nat → List UInt8 → Nat → List (List UInt8) → Option
    (List UInt8 × Nat × List (List UInt8))
  | 0, _, _, _ => none
  | turns + 1, buf, p, out =>
    match strchr newline (buf.drop p) p with
    | none => some (buf, p, out)
    | some q =>
      let buf := buf.set q 0
      if «match» pattern (cstr buf p) then
        let buf := buf.set q newline
        grepLines pattern turns buf (q + 1) (out ++ [(buf.drop p).take (q + 1 - p)])
      else grepLines pattern turns buf (q + 1) out

/-- The loop over the pieces of the input. `choice k` is for the `k`-th `read`. The
result is the input that was not read, and what was written. -/
def grepLoop (pattern : List UInt8) (choice : Nat → Nat) :
    Nat → Nat → List UInt8 → List UInt8 → Nat → List (List UInt8) → Option (List UInt8 × List (List UInt8))
  | 0, _, _, _, _, _ => none
  | turns + 1, k, inp, buf, m, out =>
    let n := readLen (choice k) inp (bufSize - m - 1)
    if n > 0 then do
      let buf := fill buf m (inp.take n)
      let m := m + n
      let buf := buf.set m 0
      let (buf, p, out) ← grepLines pattern bufSize buf 0 out
      let (m, buf) := if m > 0 then (m - p, slide buf p (m - p)) else (m, buf)
      grepLoop pattern choice turns (k + 1) (inp.drop n) buf m out
    else some (inp, out)

/-- `grep` of an input, which `choice` cuts into pieces. `buf` is what the buffer has
before. -/
def grep (pattern : List UInt8) (choice : Nat → Nat) (inp buf : List UInt8) : Option (List UInt8 × List (List UInt8)) :=
  grepLoop pattern choice (inp.length + 1) 0 inp buf 0 []

/-! ## Lines -/

/-- The lines that end in a newline, and the rest, where `cur` is the beginning of
the first line. -/
def linesFrom (cur : List UInt8) : List UInt8 → List (List UInt8) × List UInt8
  | [] => ([], cur)
  | c :: t => if c = newline then (cur :: (linesFrom [] t).1, (linesFrom [] t).2) else linesFrom (cur ++ [c]) t

theorem linesFrom_append (cur a b : List UInt8) :
    linesFrom cur (a ++ b) =
      ((linesFrom cur a).1 ++ (linesFrom (linesFrom cur a).2 b).1, (linesFrom (linesFrom cur a).2 b).2) := by
  induction a generalizing cur with
  | nil => rfl
  | cons c a ih =>
    rw [cons_append, linesFrom, linesFrom]
    by_cases hc : c = newline
    · rw [if_pos hc, if_pos hc, ih]
      rfl
    · rw [if_neg hc, if_neg hc, ih]

variable {cur t l junk buf inp : List UInt8} {c x : UInt8} {p turns : Nat}

/-- No line ends. -/
theorem linesFrom_of_notMem (h : newline ∉ t) : linesFrom cur t = ([], cur ++ t) := by
  induction t generalizing cur with
  | nil => rw [linesFrom, append_nil]
  | cons c t ih =>
    obtain ⟨hc, ht⟩ := not_or.1 (mt mem_cons.2 h)
    rw [linesFrom, if_neg (Ne.symm hc), ih ht, append_assoc]
    rfl

theorem linesFrom_newline (h : newline ∉ l) :
    linesFrom cur (l ++ newline :: t) = ((cur ++ l) :: (linesFrom [] t).1, (linesFrom [] t).2) := by
  rw [linesFrom_append, linesFrom_of_notMem h, nil_append, linesFrom, if_pos rfl]

theorem linesFrom_nil_append (h : newline ∉ cur) : linesFrom [] (cur ++ t) = linesFrom cur t := by
  rw [linesFrom_append, linesFrom_of_notMem h]
  rfl

/-- A text has no newline, or a first one. -/
theorem newline_cases (t : List UInt8) : newline ∉ t ∨ ∃ l t', t = l ++ newline :: t' ∧ newline ∉ l := by
  by_cases h : newline ∈ t
  · obtain ⟨l, t', rfl, hl⟩ := eq_append_cons_of_mem h
    exact .inr ⟨l, t', rfl, hl⟩
  · exact .inl h

/-- The rest of a text. -/
theorem linesFrom_rest (cur t : List UInt8) :
    (∀ c ∈ (linesFrom cur t).2, c ∈ cur ++ t) ∧ (linesFrom cur t).2.length ≤ cur.length + t.length := by
  induction t generalizing cur with
  | nil =>
    rw [linesFrom, append_nil]
    exact ⟨fun _ => id, Nat.le_refl _⟩
  | cons c t ih =>
    rw [linesFrom]
    split
    · obtain ⟨hmem, hlen⟩ := ih []
      refine ⟨fun x hx => mem_append_right _ (mem_cons_of_mem _ (hmem x hx)), ?_⟩
      rw [length_nil] at hlen
      rw [length_cons]
      dsimp only
      omega
    · obtain ⟨hmem, hlen⟩ := ih (cur ++ [c])
      rw [append_assoc] at hmem
      rw [length_append, length_singleton] at hlen
      refine ⟨hmem, ?_⟩
      rw [length_cons]
      omega

theorem newline_notMem_rest (h : newline ∉ cur) : newline ∉ (linesFrom cur t).2 := by
  induction t generalizing cur with
  | nil => exact h
  | cons c t ih =>
    rw [linesFrom]
    split
    · exact ih not_mem_nil
    · refine ih fun hm => ?_
      rcases mem_append.1 hm with hm | hm
      · exact h hm
      · exact ‹¬c = newline› (mem_singleton.1 hm).symm

/-- What is written of some lines. -/
def written (pattern : List UInt8) (ls : List (List UInt8)) : List (List UInt8) :=
  (ls.filter («match» pattern)).map (· ++ [newline])

theorem written_append (pattern : List UInt8) (ls ls' : List (List UInt8)) :
    written pattern (ls ++ ls') = written pattern ls ++ written pattern ls' := by
  rw [written, filter_append, map_append]
  rfl

/-! ## The lines in the buffer -/

theorem strchr_none (h : c ∉ t) (p : Nat) : strchr c (t ++ 0 :: junk) p = none := by
  induction t generalizing p with
  | nil => rw [nil_append, strchr, if_pos rfl]
  | cons x t ih =>
    obtain ⟨hx, ht⟩ := not_or.1 (mt mem_cons.2 h)
    rw [cons_append, strchr]
    split
    · rfl
    · rw [if_neg (Ne.symm hx), ih ht]

theorem strchr_some (h : c ∉ l) (h0 : (0 : UInt8) ∉ l) (hc : c ≠ 0) (p : Nat) :
    strchr c (l ++ c :: t) p = some (p + l.length) := by
  induction l generalizing p with
  | nil => rw [nil_append, strchr, if_neg hc, if_pos rfl]; rfl
  | cons x l ih =>
    obtain ⟨hx, hl⟩ := not_or.1 (mt mem_cons.2 h)
    obtain ⟨hx0, hl0⟩ := not_or.1 (mt mem_cons.2 h0)
    rw [cons_append, strchr, if_neg (Ne.symm hx0), if_neg (Ne.symm hx), ih hl hl0, length_cons, Nat.add_assoc, Nat.add_comm 1]

theorem drop_set (h : buf.drop p = l ++ x :: t) (c : UInt8) :
    (buf.set (p + l.length) c).drop p = l ++ c :: t := by
  rw [List.drop_set, if_neg (by omega), h, Nat.add_sub_cancel_left, List.set_append_right _ _ (Nat.le_refl _), Nat.sub_self]
  rfl

theorem drop_succ (h : buf.drop p = l ++ x :: t) : buf.drop (p + l.length + 1) = t := by
  rw [Nat.add_assoc, ← drop_drop, h, drop_append]
  simp

theorem cstr_eq (h : buf.drop p = l ++ 0 :: t) (h0 : (0 : UInt8) ∉ l) : cstr buf p = l := by
  rw [cstr, h, takeWhile_append_of_pos fun x hx => by simpa using fun e : x = 0 => h0 (e ▸ hx)]
  simp

/-- The loop over the lines writes those of them that match. -/
theorem grepLines_eq (pattern : List UInt8) (out : List (List UInt8))
    (h : buf.drop p = t ++ 0 :: junk) (h0 : (0 : UInt8) ∉ t) (hturns : t.length < turns) :
    ∃ buf' p', grepLines pattern turns buf p out = some (buf', p', out ++ written pattern (linesFrom [] t).1) ∧
      buf'.drop p' = (linesFrom [] t).2 ++ 0 :: junk ∧ p' + (linesFrom [] t).2.length = p + t.length ∧
        buf'.length = buf.length := by
  induction turns generalizing buf t p out with
  | zero => exact nomatch hturns
  | succ turns ih =>
    rw [grepLines]
    rcases newline_cases t with hnl | ⟨l, t', rfl, hnl⟩
    · rw [h, strchr_none hnl, linesFrom_of_notMem hnl]
      refine ⟨buf, p, ?_, h, rfl, rfl⟩
      simp [written]
    · rw [append_assoc, cons_append] at h
      have hl0 : (0 : UInt8) ∉ l := fun hm => h0 (mem_append_left _ hm)
      have ht0 : (0 : UInt8) ∉ t' := fun hm => h0 (mem_append_right _ (mem_cons_of_mem _ hm))
      have hset := drop_set h 0
      rw [length_append, length_cons] at hturns ⊢
      rw [h, strchr_some hnl hl0 (by decide)]
      dsimp only
      rw [cstr_eq hset hl0, linesFrom_newline hnl, nil_append]
      dsimp only
      by_cases hm : «match» pattern l = true
      · -- the newline is put back for the output
        have hset' := drop_set hset newline
        have htake : (((buf.set (p + l.length) 0).set (p + l.length) newline).drop p).take
          (p + l.length + 1 - p) = l ++ [newline] := by
          rw [hset', append_cons]
          exact take_left' (by rw [length_append, length_singleton]; omega)
        rw [if_pos hm, htake]
        obtain ⟨buf', p', hrun, hdrop, hp, hbuf⟩ := ih (out ++ [l ++ [newline]]) (drop_succ hset') ht0 (by omega)
        refine ⟨buf', p', ?_, hdrop, by omega, ?_⟩
        · rw [hrun, written, written, filter_cons_of_pos hm, append_assoc]
          rfl
        · rw [hbuf, length_set, length_set]
      · rw [if_neg hm]
        obtain ⟨buf', p', hrun, hdrop, hp, hbuf⟩ := ih out (drop_succ hset) ht0 (by omega)
        refine ⟨buf', p', ?_, hdrop, by omega, ?_⟩
        · rw [hrun, written, written, filter_cons_of_neg hm]
        · rw [hbuf, length_set]

/-! ## The whole input -/

/-- The lines fit into the buffer: those that end, with their newline, and the rest. -/
def Fit (cur inp : List UInt8) : Prop :=
  (∀ l ∈ (linesFrom cur inp).1, l.length ≤ bufSize - 2) ∧ (linesFrom cur inp).2.length ≤ bufSize - 1

/-- A buffer that is full of the beginning of a line. -/
theorem not_fit_of_full (hcur : cur.length = bufSize - 1) (hinp : inp ≠ []) : ¬Fit cur inp := by
  rintro ⟨hlines, hrest⟩
  rcases newline_cases inp with hnl | ⟨l, t, rfl, hnl⟩
  · rw [linesFrom_of_notMem hnl, length_append] at hrest
    have := length_pos_iff.2 hinp
    omega
  · have := hlines (cur ++ l) (by rw [linesFrom_newline hnl]; exact mem_cons_self)
    rw [length_append] at this
    simp only [bufSize] at *
    omega

/-- The lines that end are shorter than the text. -/
theorem length_lt_of_mem_linesFrom (h : l ∈ (linesFrom cur t).1) : l.length < cur.length + t.length := by
  induction t generalizing cur with
  | nil => exact absurd h not_mem_nil
  | cons c t ih =>
    rw [linesFrom] at h
    rw [length_cons]
    split at h
    · rcases mem_cons.1 h with rfl | h
      · omega
      · have := ih h
        rw [length_nil] at this
        omega
    · have := ih h
      rw [length_append, length_singleton] at this
      omega

/-- What fits after a piece of the input. -/
theorem fit_append {a b : List UInt8} (h : cur.length + a.length ≤ bufSize - 1) : Fit cur (a ++ b) ↔ Fit
    (linesFrom cur a).2 b := by
  unfold Fit
  rw [linesFrom_append]
  refine and_congr_left fun _ => ⟨fun hl l hm => hl l (mem_append_right _ hm), fun hl l hm => ?_⟩
  rcases mem_append.1 hm with hm | hm
  · have := length_lt_of_mem_linesFrom hm
    omega
  · exact hl l hm

theorem readLen_spec (choice : Nat) {size : Nat} (hinp : inp ≠ []) (hsize : size ≠ 0) :
    0 < readLen choice inp size ∧ readLen choice inp size ≤ inp.length ∧ readLen choice inp size ≤ size := by
  have hpos := length_pos_iff.2 hinp
  have hlt : choice % min inp.length size < min inp.length size := Nat.mod_lt _ (by omega)
  rw [readLen, if_neg fun h => h.elim hinp hsize]
  omega

/-- The loop over the pieces, where the buffer has the beginning `cur` of a line. It
reads all of its input just if the lines fit, and then it writes the lines that
match. -/
theorem grepLoop_spec (pattern : List UInt8) (choice : Nat → Nat) (k : Nat) (out : List (List UInt8))
    (hbuf : buf.length = bufSize) (hcur : buf.take cur.length = cur) (hle : cur.length ≤ bufSize - 1) (hnl : newline ∉ cur)
    (hcur0 : (0 : UInt8) ∉ cur) (hinp0 : (0 : UInt8) ∉ inp) (hturns : inp.length < turns) :
    ∃ rest out', grepLoop pattern choice turns k inp buf cur.length out = some (rest, out') ∧ (rest = [] ↔ Fit cur inp) ∧
      (Fit cur inp → out' = out ++ written pattern (linesFrom cur inp).1) := by
  induction turns generalizing k inp buf cur out with
  | zero => exact nomatch hturns
  | succ turns ih =>
    rw [grepLoop]
    by_cases hinp : inp = []
    · subst hinp
      refine ⟨[], out, rfl, iff_of_true rfl ⟨fun l hl => absurd hl not_mem_nil, hle⟩, fun _ => ?_⟩
      rw [linesFrom]
      simp [written]
    by_cases hfull : cur.length = bufSize - 1
    · -- there is no room to read into
      have hread : readLen (choice k) inp (bufSize - cur.length - 1) = 0 := if_pos (.inr (by omega))
      refine ⟨inp, out, ?_, iff_of_false hinp (not_fit_of_full hfull hinp), fun hf => absurd hf (not_fit_of_full hfull hinp)⟩
      rw [hread, if_neg (Nat.lt_irrefl 0)]
    · obtain ⟨hpos, hn, hsize⟩ := readLen_spec (choice k) hinp (show bufSize - cur.length - 1 ≠ 0 by omega)
      generalize readLen (choice k) inp (bufSize - cur.length - 1) = n at hpos hn hsize ⊢
      obtain ⟨a, b, rfl, ha⟩ : ∃ a b, inp = a ++ b ∧ a.length = n :=
        ⟨inp.take n, inp.drop n, (take_append_drop ..).symm, length_take_of_le hn⟩
      subst ha
      rw [take_left, drop_left]
      have ha0 : (0 : UInt8) ∉ cur ++ a := fun hm =>
        (mem_append.1 hm).elim hcur0 fun hm => hinp0 (mem_append_left _ hm)
      -- the piece stands after the beginning of the line, and a NUL after it
      have hfill : (fill buf cur.length a).drop 0 = (cur ++ a) ++ buf.getD (cur.length + a.length) 0 :: buf.drop
        (cur.length + a.length + 1) := by
        rw [drop_zero, fill, hcur, getD_eq_getElem _ _ (by omega), ← drop_eq_getElem_cons (by omega)]
      have hnul := drop_set hfill 0
      rw [Nat.zero_add, length_append] at hnul
      have hlen : ((fill buf cur.length a).set (cur.length + a.length) 0).length = bufSize := by
        have := congrArg List.length hnul
        simp only [drop_zero, length_append, length_cons, length_drop] at this
        omega
      have hshort : (cur ++ a).length < bufSize := by
        rw [length_append]
        omega
      obtain ⟨buf', p', hrun, hdrop, hp, hbuf'⟩ := grepLines_eq pattern out hnul ha0 hshort
      rw [linesFrom_nil_append hnl] at hrun hdrop hp
      rw [length_append] at hp
      obtain ⟨hmem, hrest⟩ := linesFrom_rest cur a
      have hm : cur.length + a.length - p' = (linesFrom cur a).2.length := by omega
      have hslide : (slide buf' p' (linesFrom cur a).2.length).take (linesFrom cur a).2.length = (linesFrom cur a).2 := by
        rw [slide, hdrop, take_left, take_left]
      have hslen : (slide buf' p' (linesFrom cur a).2.length).length = bufSize := by
        rw [slide, hdrop, take_left, length_append, length_drop]
        omega
      obtain ⟨rest, out', hloop, hiff, hout⟩ :=
        ih (k + 1) (out ++ written pattern (linesFrom cur a).1) hslen hslide (by omega) (newline_notMem_rest hnl)
        (fun h => ha0 (hmem _ h)) (fun h => hinp0 (mem_append_right _ h)) (by rw [length_append] at hturns; omega)
      refine ⟨rest, out', ?_, ?_, ?_⟩
      · dsimp only
        rw [if_pos hpos, hrun]
        rw [Option.bind_eq_bind, Option.bind_some]
        rw [if_pos (by omega), hm]
        exact hloop
      · rw [hiff, fit_append (by omega)]
      · rw [fit_append (by omega), linesFrom_append]
        intro hf
        rw [hout hf, append_assoc, written_append]

/-- `grep` reads all of its input and writes just the lines that match, exactly if
every line fits into the buffer. -/
theorem grep_correct_iff (pattern : List UInt8) (choice : Nat → Nat) (inp buf : List UInt8) (hbuf : buf.length = bufSize)
    (hinp : (0 : UInt8) ∉ inp) :
    (∃ rest out, grep pattern choice inp buf = some (rest, out)) ∧
    (grep pattern choice inp buf = some ([], written pattern (linesFrom [] inp).1) ↔
      (∀ l ∈ (linesFrom [] inp).1, l.length ≤ bufSize - 2) ∧ (linesFrom [] inp).2.length ≤ bufSize - 1) := by
  have hnil : buf.take ([] : List UInt8).length = [] := rfl
  obtain ⟨rest, out, hrun, hiff, hout⟩ := grepLoop_spec pattern choice 0 [] hbuf hnil (Nat.zero_le _)
    not_mem_nil not_mem_nil hinp (Nat.lt_succ_self _)
  have hgrep : grep pattern choice inp buf = some (rest, out) := hrun
  refine ⟨⟨rest, out, hgrep⟩, ?_⟩
  rw [hgrep]
  constructor
  · intro h
    exact hiff.1 (Prod.mk.inj (Option.some_inj.1 h)).1
  · intro hf
    rw [hiff.2 hf, hout hf]
    rfl

/-- Three lines, which are read two characters at a time. -/
theorem grep_correct_iff_short : (0 : UInt8) ∉ [98, 97, newline, 98, newline, 97, newline] ∧
    grep [97] (fun _ => 1) [98, 97, newline, 98, newline, 97, newline] (replicate bufSize 0) =
      some ([], [[98, 97, newline], [97, newline]]) := by
  refine ⟨by decide, ?_⟩
  have hbuf : (replicate bufSize (0 : UInt8)).length = bufSize := length_replicate
  exact (grep_correct_iff [97] (fun _ => 1) [98, 97, newline, 98, newline, 97, newline] _ hbuf (by decide)).2.2 (by decide)

/-- A line of 1023 characters fills the buffer, and the line after it is lost. -/
theorem grep_long_line :
    grep [98] (fun _ => 1022) (replicate 1023 97 ++ [newline, 98, newline]) (replicate bufSize 0) =
      some ([newline, 98, newline], []) ∧
      written [98] (linesFrom [] (replicate 1023 97 ++ [newline, 98, newline])).1 = [[98, newline]] := by
  decide +kernel

end Xv6.User
