import Xv6.Console.Model

/-!
# The console's line discipline

The invariant says that the ring has, between `r` and `w`, what the line editor has
committed and nobody has read, and between `w` and `e` the editor's line. There is one
lemma for what a character does to it (`Lines.edit`) and one for what a reader takes
(`readChar_spec`).

A reader sleeps only if there is nothing to read, unless the handler that holds the
lock is about to wake it up.
-/

namespace Xv6.Console

open Function List
open Option (some_inj)

variable {s s' : Cons} {c : UInt8}

/-- The characters between `r` and `w`, and those between `w` and `e`. -/
def Cons.committed (s : Cons) : List UInt8 := Ring.contents inputBuf s.buf s.r s.w
def Cons.line (s : Cons) : List UInt8 := Ring.contents inputBuf s.buf s.w s.e

theorem line_eq (hne : s.e ≠ s.w) (h : (s.e - s.w).toNat ≤ inputBuf) :
    s.line = ({ s with e := s.e - 1 } : Cons).line ++ [s.buf ((s.e - 1).toNat % inputBuf)] :=
  Ring.contents_last (by decide) (by decide) _ (Ne.symm hne) h

/-- The handler takes back a line in which there is no newline. -/
theorem killLine_eq {turns : Nat} (hturns : (s.e - s.w).toNat = turns) (h : turns ≤ inputBuf) (hplain : newline ∉ s.line) :
    killLine turns s = { s with e := s.w } := by
  induction turns generalizing s with
  | zero =>
    have he : s.e = s.w := by bv_omega
    exact congrArg (fun e => ({ s with e } : Cons)) he
  | succ turns ih =>
    have hne : s.e ≠ s.w := by bv_omega
    have hline := line_eq hne (by omega)
    rw [hline, mem_append, mem_singleton, not_or] at hplain
    rw [killLine, if_pos ⟨hne, Ne.symm hplain.2⟩]
    refine ih ?_ (by omega) hplain.1
    show (s.e - 1 - s.w).toNat = turns
    bv_omega

/-- The ring against the line editor `ed`, of whose log `taken` has been read. -/
structure Lines (s : Cons) (ed : Editor) (taken : List UInt8) : Prop where
  order : (s.w - s.r).toNat ≤ (s.e - s.r).toNat
  size : (s.e - s.r).toNat ≤ inputBuf
  log : taken ++ s.committed = ed.log
  taken : ed.taken = taken.length
  line : s.line = ed.line
  plain : newline ∉ ed.line
  full : (s.e - s.r).toNat = inputBuf → s.w = s.e

namespace Lines

variable {ed : Editor} {taken : List UInt8}

variable (h : Lines s ed taken)

include h

theorem congr (hbuf : s'.buf = s.buf) (hr : s'.r = s.r) (hw : s'.w = s.w) (he : s'.e = s.e) : Lines s' ed taken where
  order := by rw [hr, hw, he]; exact h.order
  size := by rw [hr, he]; exact h.size
  log := by rw [Cons.committed, hbuf, hr, hw]; exact h.log
  taken := h.taken
  line := by rw [Cons.line, hbuf, hw, he]; exact h.line
  plain := h.plain
  full := by rw [hr, hw, he]; exact h.full

theorem length_line : ed.line.length = (s.e - s.w).toNat := by
  rw [← h.line, Cons.line, Ring.length_contents]

theorem sub_eq : (s.w - s.r).toNat + (s.e - s.w).toNat = (s.e - s.r).toNat := by
  have := h.order
  bv_omega

theorem pending : ed.pending = (s.e - s.r).toNat := by
  rw [Editor.pending, h.length_line, ← h.log, h.taken, length_append, Nat.add_sub_cancel_left, Cons.committed,
    Ring.length_contents,
    h.sub_eq]

/-- A character of the line is taken back. -/
theorem erase (hne : s.e ≠ s.w) : Lines { s with e := s.e - 1 } { ed with line := ed.line.dropLast } taken := by
  have hsub := h.sub_eq
  have hsize := h.size
  have hline := line_eq hne (by omega)
  rw [h.line] at hline
  refine ⟨?_, ?_, h.log, h.taken, ?_, fun hmem => h.plain ((dropLast_sublist _).mem hmem), fun hfull => ?_⟩
  · show (s.w - s.r).toNat ≤ (s.e - 1 - s.r).toNat
    bv_omega
  · show (s.e - 1 - s.r).toNat ≤ inputBuf
    bv_omega
  · rw [hline, dropLast_concat]
  · have : (s.e - 1 - s.r).toNat = inputBuf := hfull
    bv_omega

/-- A character is stored. -/
theorem store (hroom : (s.e - s.r).toNat < inputBuf) (c : UInt8) :
    Lines (store c s).2 (ed.append c) taken := by
  have hsub := h.sub_eq
  have hsucc : (s.e + 1 - s.r).toNat = (s.e - s.r).toNat + 1 := Ring.toNat_sub_succ (by simp only [inputBuf] at hroom; omega)
  have hcommitted : Ring.contents inputBuf (update s.buf (s.e.toNat % inputBuf) c) s.r s.w = s.committed :=
    Ring.contents_update (by decide) _ h.order hroom c
  have hline : Ring.contents inputBuf (update s.buf (s.e.toNat % inputBuf) c) s.w (s.e + 1) = ed.line ++ [c] := by
    rw [Ring.contents_push (by decide) (by decide) _ (by omega), ← h.line]
    rfl
  have hfull : s.e + 1 = s.r + .ofNat 32 inputBuf ↔ ed.pending + 1 = inputBuf := by
    rw [Ring.eq_add_cap_iff (by decide), hsucc, h.pending]
  by_cases hcommit : c = newline ∨ c = ctrlD ∨ ed.pending + 1 = inputBuf
  · have hcond : c = newline ∨ c = ctrlD ∨ s.e + 1 = s.r + .ofNat 32 inputBuf := hcommit.imp_right (Or.imp_right hfull.2)
    rw [Console.store, Editor.append, if_pos hcommit]
    rw [if_pos hcond]
    refine ⟨le_rfl, ?_, ?_, h.taken, Ring.contents_self _ _, not_mem_nil, fun _ => rfl⟩
    · show (s.e + 1 - s.r).toNat ≤ inputBuf
      omega
    · show taken ++ Ring.contents inputBuf (update s.buf (s.e.toNat % inputBuf) c) s.r (s.e + 1) = ed.log ++ (ed.line ++ [c])
      have hcut : (s.w - s.r).toNat + (s.e + 1 - s.w).toNat = (s.e + 1 - s.r).toNat := by bv_omega
      rw [Ring.contents_append (by decide) _ hcut, hcommitted, hline, ← append_assoc, h.log]
  · have hcond : ¬(c = newline ∨ c = ctrlD ∨ s.e + 1 = s.r + .ofNat 32 inputBuf) :=
      mt (Or.imp_right (Or.imp_right hfull.1)) hcommit
    rw [Console.store, Editor.append, if_neg hcommit]
    rw [if_neg hcond]
    refine ⟨?_, ?_, ?_, h.taken, hline, ?_, fun hf => ?_⟩
    · show (s.w - s.r).toNat ≤ (s.e + 1 - s.r).toNat
      omega
    · show (s.e + 1 - s.r).toNat ≤ inputBuf
      omega
    · show taken ++ Ring.contents inputBuf (update s.buf (s.e.toNat % inputBuf) c) s.r s.w = ed.log
      rw [hcommitted, h.log]
    · rw [mem_append, mem_singleton, not_or]
      exact ⟨h.plain, fun e => hcommit (.inl e.symm)⟩
    · have hf : (s.e + 1 - s.r).toNat = inputBuf := hf
      exact absurd (.inr (.inr (by rw [h.pending, ← hsucc, hf]))) hcommit

/-- What a character does in the ring it does in the line editor. -/
theorem edit (c : UInt8) : Lines (edit c s).2 (ed.type c) taken := by
  have hsub := h.sub_eq
  have hsize := h.size
  by_cases hskip : c = 0 ∨ c = ctrlP
  · rw [Editor.type, if_pos hskip]
    rcases hskip with rfl | rfl
    · exact h
    · exact h
  obtain ⟨h0, hp⟩ := not_or.1 hskip
  rw [Editor.type, Console.edit, if_neg hskip, if_neg hp]
  by_cases hu : c = ctrlU
  · -- there is no newline in the line, so nothing stops the loop
    rw [if_pos hu, if_pos hu, killLine_eq rfl (by omega) (by rw [h.line]; exact h.plain)]
    refine ⟨le_rfl, ?_, h.log, h.taken, Ring.contents_self _ _, not_mem_nil, fun _ => rfl⟩
    exact h.order.trans hsize
  rw [if_neg hu, if_neg hu]
  by_cases hh : c = ctrlH ∨ c = del
  · rw [if_pos hh, if_pos hh]
    by_cases he : s.e = s.w
    · have hnil : ed.line = [] := by rw [← h.line, Cons.line, he, Ring.contents_self]
      rw [if_neg (not_not_intro he), hnil]
      exact ⟨h.order, hsize, h.log, h.taken, h.line.trans hnil, not_mem_nil, h.full⟩
    · rw [if_pos he]
      exact h.erase he
  rw [if_neg hh, if_neg hh, h.pending]
  by_cases hroom : (s.e - s.r).toNat < inputBuf
  · rw [if_pos (⟨h0, hroom⟩ : c ≠ 0 ∧ _), if_neg (ne_of_lt hroom)]
    exact h.store hroom _
  · have hfull : (s.e - s.r).toNat = inputBuf := by omega
    rw [if_neg fun hc : c ≠ 0 ∧ _ => hroom hc.2, if_pos hfull]
    exact h

omit h in
theorem head_committed (h : s.r ≠ s.w) :
    s.committed = s.buf (s.r.toNat % inputBuf) :: ({ s with r := s.r + 1 } : Cons).committed :=
  Ring.contents_pop (by decide) _ h

/-- A reader takes a character. -/
theorem take (hne : s.r ≠ s.w) :
    Lines { s with r := s.r + 1 } ed.take (taken ++ [s.buf (s.r.toNat % inputBuf)]) := by
  have hsub := h.sub_eq
  have horder := h.order
  have hsize := h.size
  refine ⟨?_, ?_, ?_, ?_, h.line, h.plain, fun hfull => ?_⟩
  · show (s.w - (s.r + 1)).toNat ≤ (s.e - (s.r + 1)).toNat
    bv_omega
  · show (s.e - (s.r + 1)).toNat ≤ inputBuf
    bv_omega
  · rw [append_assoc, singleton_append, ← head_committed hne]
    exact h.log
  · rw [length_append, ← h.taken]
    rfl
  · have hfull : (s.e - (s.r + 1)).toNat = inputBuf := hfull
    bv_omega

end Lines

/-! ## Reads -/

/-- What has been read by a call that returns `result`, as far as it can be seen without
the log. -/
structure Ended (n : BitVec 32) (cur : Cur) (result : Int) : Prop where
  most : cur.got.length ≤ n.toInt.toNat
  line : newline ∉ cur.got.dropLast
  eof : ctrlD ∈ cur.got → cur.got = [ctrlD]
  result : result = if cur.got = [ctrlD] then 0 else (cur.got.length : Int)
  stop : cur.got.length < n.toInt.toNat → cur.got.getLast? = some newline ∨ cur.got = [ctrlD] ∨ cur.got ≠ [] ∧ cur.left.isSome

/-- A read of `n` bytes took at most `n` characters, and has them in its buffer. A
newline was the last of them. A control-D was the only one, and then the result is 0. If
the read ended early, it was with a newline, or with a control-D; if other characters
came before, the control-D is next in the log behind all that had been taken. -/
structure ReadOk (log : List UInt8) (x : Read) : Prop where
  most : x.cur.got.length ≤ x.n.toInt.toNat
  line : newline ∉ x.cur.got.dropLast
  eof : ctrlD ∈ x.cur.got → x.cur.got = [ctrlD]
  result : x.result = if x.cur.got = [ctrlD] then 0 else (x.cur.got.length : Int)
  bytes : x.cur.user_dst = true → x.bytes = if x.cur.got = [ctrlD] then [] else x.cur.got
  stop : x.cur.got.length < x.n.toInt.toNat →
    x.cur.got.getLast? = some newline ∨ x.cur.got = [ctrlD] ∨ x.cur.got ≠ [] ∧ ∃ pos, x.cur.left = some pos ∧
      log[pos]? = some ctrlD

/-- A read that has `n` of its `target` bytes to go. -/
structure Reading (target n : BitVec 32) (cur : Cur) : Prop where
  go : n.toNat + cur.got.length = target.toNat
  pos : cur.got ≠ [] → 0 < target.toInt
  line : newline ∉ cur.got
  eof : ctrlD ∉ cur.got
  left : cur.left = none

/-- The characters that have been taken, other than a control-D, are in the buffer. -/
def Stored (mem : BitVec 64 → UInt8) (g : Cur) : Prop :=
  g.user_dst = true → ∀ i c, g.got[i]? = some c → c ≠ ctrlD → mem (g.dst + .ofNat 64 i) = c

/-- What the process that holds the lock knows: nothing, that there is a character or
that there is none, or that it has committed characters and will wake up the readers. -/
inductive Held where
  | nothing
  | ready
  | empty
  | owes

def Held.Ok (s : Cons) : Held → Prop
  | .ready => s.r ≠ s.w
  | .empty => s.r = s.w
  | _ => True

/-- The invariant. `k` is what the process that holds the lock knows. -/
structure Inv (s : Cons) (chan : Ctx → Option Chan) (k : Option Held) (cur : Ctx → Cur) : Prop where
  alive : ∀ t, s.killed t = false
  cur : ∀ t, cur t = s.hist.cur t
  lines : Lines s s.hist.editor s.hist.taken
  reads : ∀ x ∈ s.hist.reads, ReadOk s.hist.editor.log x
  left : ∀ t pos, (s.hist.cur t).left = some pos → s.hist.editor.log[pos]? = some ctrlD
  mem : ∀ t, Stored (s.mem t) (s.hist.cur t)
  held : ∀ h, k = some h → h.Ok s
  sleepers : ∀ u, chan u ≠ none → s.r = s.w ∨ k = some .owes

/-- The program keeps the invariant and does not panic. -/
abbrev Spec (t : Ctx) {α : Type} (p : KProg α) (x : Mon.Ghost Held Cur) (Q : α → Mon.Ghost Held Cur → Prop) : Prop :=
  Mon.Spec Inv (fun _ => True) (fun _ => False) t p x Q

variable {mapped : Ctx → BitVec 64 → Bool} {t : Ctx} {chan : Ctx → Option Chan} {cur : Ctx → Cur} {g : Cur}
  {h : Held} {α : Type}

theorem start_inv (buf : Nat → UInt8) (kmem : BitVec 64 → UInt8) (mem : Ctx → BitVec 64 → UInt8) :
    Mon.Inv Inv (start buf kmem mem) fun _ => ⟨none, {}⟩ := by
  refine ⟨fun t => by simp [start], ⟨fun _ => rfl, fun _ => rfl, ?_, fun x hx => absurd hx not_mem_nil, fun t pos hpos => ?_,
    fun t ht => ?_, fun h hh => ?_, fun _ _ => .inl rfl⟩⟩
  · exact ⟨le_rfl, by simp [start], Ring.contents_self _ _, rfl, Ring.contents_self _ _, not_mem_nil, fun _ => rfl⟩
  · cases hpos
  · cases ht
  · cases hh

variable {l : List UInt8} {n target : BitVec 32} {user_dst : Bool} {dst : BitVec 64}

theorem getElem?_append_some {i : Nat} (h : l[i]? = some c) (l' : List UInt8) : (l ++ l')[i]? = some c := by
  rw [List.getElem?_append_left (List.getElem?_eq_some_iff.1 h).1, h]

theorem ReadOk.append {log : List UInt8} {x : Read} (hx : ReadOk log x) (l : List UInt8) : ReadOk (log ++ l) x :=
  { hx with stop := fun hlt => (hx.stop hlt).imp_right (Or.imp_right fun ⟨hne, pos, hpos, hlog⟩ =>
    ⟨hne, pos, hpos, getElem?_append_some hlog l⟩) }

/-! ## The lock -/

theorem Inv.lock (hi : Inv s chan none cur) : Inv s chan (some .nothing) cur :=
  { hi with
    held := fun h e => by
      cases e
      trivial
    sleepers := fun u hu => .inl ((hi.sleepers u hu).resolve_right (by simp)) }

theorem Inv.unlock (hi : Inv s chan (some h) cur) (hh : h ≠ .owes) : Inv s chan none cur :=
  { hi with
    held := fun h e => by cases e
    sleepers := fun u hu => .inl ((hi.sleepers u hu).resolve_right fun e => hh (some_inj.1 e)) }

theorem acquire_spec : Spec t Mon.acquire ⟨none, g⟩ fun _ x => x = ⟨some .nothing, g⟩ :=
  Mon.acquire_spec Held.nothing fun _ _ _ => Inv.lock

theorem release_spec (hh : h ≠ .owes) : Spec t Mon.release ⟨some h, g⟩ fun _ x => x = ⟨none, g⟩ :=
  Mon.release_spec fun _ _ _ _ hi => hi.unlock hh

theorem sleep_spec : Spec t (Mon.sleep .r) ⟨some .empty, g⟩ fun _ x => x = ⟨some .nothing, g⟩ := by
  refine Mon.sleep_spec Held.nothing (fun s chan cur _ hi => ?_) fun _ _ _ => Inv.lock
  have hempty : s.r = s.w := hi.held .empty rfl
  exact { hi.unlock (by simp) with sleepers := fun _ _ => .inl hempty }

theorem wakeup_spec : Spec t (Mon.wakeup .r) ⟨some .owes, g⟩ fun _ x => x = ⟨some .nothing, g⟩ := by
  refine Mon.wakeup_spec Held.nothing fun s chan cur _ hi => ?_
  refine { hi with held := fun h e => ?_, sleepers := fun u hu => absurd ?_ hu }
  · cases e
    trivial
  · -- there is no other channel
    rw [Mon.woken]
    split
    · rfl
    · rename_i hne
      cases hc : chan u with
      | none => rfl
      | some c => exact absurd hc hne

theorem atomic_spec {f : Ctx → Cons → α × Cons} {Q : α → Mon.Ghost Held Cur → Prop}
    (hf : ∀ s chan cur, cur t = g → Inv s chan (some h) cur →
      ∃ h' g', Inv (f t s).2 chan (some h') (update cur t g') ∧ Q (f t s).1 ⟨some h', g'⟩) :
    Spec t (atomic f) ⟨some h, g⟩ Q :=
  Mon.holder_spec fun s chan cur he hi => hf s chan cur he hi

/-! ## The interrupt handler -/

/-- What the handler leaves alone. -/
theorem edit_keeps (hl : (s.e - s.w).toNat ≤ inputBuf) (hp : newline ∉ s.line) (c : UInt8) :
    (edit c s).2.r = s.r ∧ (edit c s).2.killed = s.killed ∧ (edit c s).2.mem = s.mem ∧
    ((edit c s).1 = false → (edit c s).2.w = s.w) := by
  rw [edit]
  split
  · exact ⟨rfl, rfl, rfl, fun _ => rfl⟩
  split
  · rw [killLine_eq rfl hl hp]
    exact ⟨rfl, rfl, rfl, fun _ => rfl⟩
  split
  · dsimp only
    split
    · exact ⟨rfl, rfl, rfl, fun _ => rfl⟩
    · exact ⟨rfl, rfl, rfl, fun _ => rfl⟩
  split
  · generalize (if c = cr then newline else c) = c'
    rw [store]
    split
    · exact ⟨rfl, rfl, rfl, nofun⟩
    · exact ⟨rfl, rfl, rfl, fun _ => rfl⟩
  · exact ⟨rfl, rfl, rfl, fun _ => rfl⟩

/-- The log only grows. -/
theorem Editor.log_type (ed : Editor) (c : UInt8) : ∃ l, (ed.type c).log = ed.log ++ l := by
  have hself : ∃ l, ed.log = ed.log ++ l := ⟨[], (append_nil _).symm⟩
  rw [Editor.type]
  split
  · exact hself
  split
  · exact hself
  split
  · exact hself
  split
  · exact hself
  · generalize (if c = cr then newline else c) = c'
    rw [Editor.append]
    split
    · exact ⟨_, rfl⟩
    · exact hself

theorem consoleintr_spec (c : UInt8) : Spec t (consoleintr c) ⟨none, g⟩ fun _ x => x = ⟨none, g⟩ := by
  refine .next acquire_spec fun _ => ?_
  refine .bind (R := fun wake x => x = ⟨some (if wake then .owes else .nothing), g⟩)
    (atomic_spec fun s chan cur he hi => ?_) ?_
  · have hsub := hi.lines.sub_eq
    have hsize := hi.lines.size
    obtain ⟨hr, hkilled, hmem, hw⟩ := edit_keeps (s := s) (by omega) (by rw [hi.lines.line]; exact hi.lines.plain) c
    obtain ⟨l, hl⟩ := s.hist.editor.log_type c
    refine ⟨if (edit c s).1 then .owes else .nothing,
      g, ⟨fun u => ?_, fun u => ?_, ?_, fun x hx => ?_, fun u pos hpos => ?_, fun u => ?_,
      fun h e => ?_, fun u hu => ?_⟩, rfl⟩
    · exact (congrFun hkilled u).trans (hi.alive u)
    · rw [← he, update_eq_self]
      exact hi.cur u
    · have hlines := hi.lines.edit c
      exact ⟨hlines.order, hlines.size, hlines.log, hlines.taken, hlines.line, hlines.plain, hlines.full⟩
    · show ReadOk (s.hist.editor.type c).log x
      rw [hl]
      exact (hi.reads x hx).append l
    · show (s.hist.editor.type c).log[pos]? = _
      rw [hl]
      exact getElem?_append_some (hi.left u pos hpos) l
    · show Stored ((edit c s).2.mem u) (s.hist.cur u)
      rw [hmem]
      exact hi.mem u
    · rw [← some_inj.1 e]
      split <;> trivial
    · cases hwake : (edit c s).1 with
      | true => exact .inr rfl
      | false =>
        left
        show (edit c s).2.r = (edit c s).2.w
        rw [hr, hw hwake]
        exact (hi.sleepers u hu).resolve_right (by simp)
  rintro wake _ rfl
  cases wake with
  | true =>
    refine .next wakeup_spec fun _ => ?_
    exact release_spec (by simp)
  | false => exact release_spec (by simp)

/-! ## Reading -/

theorem Inv.learn (hi : Inv s chan (some h) cur) (hh : h ≠ .owes) {h' : Held} (hok : h'.Ok s) : Inv s chan (some h') cur :=
  { hi with
    held := fun _ e => some_inj.1 e ▸ hok
    sleepers := fun u hu => .inl ((hi.sleepers u hu).resolve_right fun e => hh (some_inj.1 e)) }

theorem waitInput_spec : Spec t waitInput ⟨some .nothing, g⟩ fun ok x => ok = true ∧ x = ⟨some .ready, g⟩ := by
  refine .loop (J := fun _ x => x = ⟨some .nothing, g⟩) ?_ rfl
  rintro _ _ rfl
  refine .bind (R := fun empty x => x = ⟨some (if empty then .empty else .ready), g⟩)
    (atomic_spec fun s chan cur he hi => ?_) ?_
  · refine ⟨_, g, ?_, rfl⟩
    rw [← he, update_eq_self]
    refine hi.learn (by simp) ?_
    by_cases hempty : s.r = s.w
    · rw [if_pos (decide_eq_true hempty)]
      exact hempty
    · rw [if_neg (by simpa using hempty)]
      exact hempty
  rintro empty _ rfl
  cases empty with
  | false => exact .ret ⟨rfl, rfl⟩
  | true =>
    refine .bind (R := fun killed x => killed = false ∧ x = ⟨some .empty, g⟩) (atomic_spec fun s chan cur he hi => ?_) ?_
    · refine ⟨.empty, g, ?_, hi.alive t, rfl⟩
      rw [← he, update_eq_self]
      exact hi
    rintro _ _ ⟨rfl, rfl⟩
    exact .next sleep_spec fun _ => Safe.ret rfl

/-- Nobody sleeps while there is a character, unless the readers will be woken up. -/
theorem Inv.awake (hi : Inv s chan (some .ready) cur) (u : Ctx) : chan u = none := by
  by_contra hu
  rcases hi.sleepers u hu with e | e
  · exact hi.held .ready rfl e
  · cases e

theorem cur_update (hi : ∀ u, cur u = s.hist.cur u) (g' : Cur) (u : Ctx) : update cur t g' u = update s.hist.cur t g' u := by
  rcases eq_or_ne u t with rfl | hu
  · rw [update_self, update_self]
  · rw [update_of_ne hu, update_of_ne hu, hi u]

/-- A reader takes a character, and does something with the memory. -/
theorem Inv.take (hi : Inv s chan (some .ready) cur) (he : cur t = g) (hbuf : s'.buf = s.buf) (hr : s'.r = s.r + 1)
    (hw : s'.w = s.w)
    (hee : s'.e = s.e) (hkilled : s'.killed = s.killed) (hhist : s'.hist = s.hist.take t (s.buf (s.r.toNat % inputBuf)))
    (hother : ∀ u, u ≠ t → s'.mem u = s.mem u)
      (hmem : Stored (s'.mem t) { g with got := g.got ++ [s.buf (s.r.toNat % inputBuf)] }) :
    Inv s' chan (some .nothing) (update cur t { g with got := g.got ++ [s.buf (s.r.toNat % inputBuf)] }) := by
  have hne : s.r ≠ s.w := hi.held .ready rfl
  have hg : s.hist.cur t = g := (hi.cur t).symm.trans he
  refine ⟨fun u => by rw [hkilled]; exact hi.alive u, fun u => ?_, ?_, fun x hx => ?_, fun u pos hpos => ?_, fun u => ?_,
    fun h e => ?_, fun u hu => absurd (hi.awake u) hu⟩
  · rw [hhist, cur_update hi.cur, Hist.take, hg]
  · rw [hhist]
    exact (hi.lines.take hne).congr hbuf hr hw hee
  · rw [hhist] at hx ⊢
    exact hi.reads x hx
  · rw [hhist, Hist.take_left] at hpos
    rw [hhist]
    exact hi.left u pos hpos
  · rw [hhist]
    rcases eq_or_ne u t with rfl | hu
    · rw [Hist.take_self, hg]
      exact hmem
    · rw [Hist.take_of_ne _ _ hu, hother u hu]
      exact hi.mem u
  · rw [← some_inj.1 e]
    trivial

/-- A reader sees a control-D, and leaves it. -/
theorem Inv.leave (hi : Inv s chan (some .ready) cur) (he : cur t = g) (hd : s.buf (s.r.toNat % inputBuf) = ctrlD) :
    Inv { s with r := s.r + 1 - 1, hist := s.hist.leave t } chan (some .nothing)
      (update cur t { g with left := some s.hist.taken.length }) := by
  have hne : s.r ≠ s.w := hi.held .ready rfl
  have hg : s.hist.cur t = g := (hi.cur t).symm.trans he
  have hr : s.r + 1 - 1 = s.r := BitVec.add_sub_cancel _ _
  refine ⟨hi.alive, fun u => ?_, hi.lines.congr rfl hr rfl rfl, hi.reads, fun u pos hpos => ?_, fun u => ?_, fun h e => ?_,
    fun u hu => absurd (hi.awake u) hu⟩
  · rw [cur_update hi.cur, ← hg]
    rfl
  · have hpos : ((s.hist.leave t).cur u).left = some pos := hpos
    show s.hist.editor.log[pos]? = some ctrlD
    rcases eq_or_ne u t with rfl | hu
    · rw [Hist.leave_self] at hpos
      have hpos := some_inj.1 hpos
      rw [← hpos, ← hi.lines.log, getElem?_append_right (le_rfl), Nat.sub_self, Lines.head_committed hne, hd]
      rfl
    · rw [Hist.leave_of_ne _ hu] at hpos
      exact hi.left u pos hpos
  · rcases eq_or_ne u t with rfl | hu
    · show Stored (s.mem u) ((s.hist.leave u).cur u)
      rw [Hist.leave_self]
      exact hi.mem u
    · show Stored (s.mem u) ((s.hist.leave t).cur u)
      rw [Hist.leave_of_ne _ hu]
      exact hi.mem u
  · rw [← some_inj.1 e]
    trivial

/-- What a turn of the loop leaves behind. -/
def TurnOk (target n : BitVec 32) (g : Cur) : Turn → Cur → Prop
  | .eof, g' => Ended target g' (target - n).toInt
  | .failed, _ => False
  | .copied c, g' => c ≠ ctrlD ∧ g' = { g with got := g.got ++ [c] }

theorem toInt_pos (h : 0 < n.toInt) : n.toInt.toNat = n.toNat ∧ 0 < n.toNat ∧ n.toNat < 2 ^ 31 := by
  have := BitVec.toInt_eq_toNat_cond n
  split at this <;> omega

/-- A control-D that is the first character ends the read. -/
theorem Reading.ended_eof (hg : Reading target n g) (hn : 0 < n.toInt) (hfirst : ¬n.toNat < target.toNat) :
    Ended target { g with got := g.got ++ [ctrlD] } (target - n).toInt := by
  have hgo := hg.go
  have hnil : g.got = [] := eq_nil_of_length_eq_zero (by omega)
  obtain rfl : n = target := BitVec.eq_of_toNat_eq (by omega)
  rw [hnil, nil_append, BitVec.sub_self]
  obtain ⟨h1, h2, -⟩ := toInt_pos hn
  refine ⟨?_, not_mem_nil, fun _ => rfl, rfl, fun _ => .inr (.inl rfl)⟩
  show 1 ≤ n.toInt.toNat
  omega

/-- One more character, which is no newline. -/
theorem Reading.next (hg : Reading target n g) (hn : 0 < n.toInt) (hc : c ≠ ctrlD) (hnl : c ≠ newline) :
    Reading target (n - 1) { g with got := g.got ++ [c] } := by
  have hgo := hg.go
  obtain ⟨hnat, hpos, hlt⟩ := toInt_pos hn
  refine ⟨?_, fun _ => ?_, ?_, ?_, hg.left⟩
  · show (n - 1).toNat + (g.got ++ [c]).length = target.toNat
    rw [length_append, length_singleton]
    bv_omega
  · by_cases hnil : g.got = []
    · rw [hnil, length_nil, add_zero] at hgo
      rwa [← BitVec.eq_of_toNat_eq hgo]
    · exact hg.pos hnil
  · rw [mem_append, mem_singleton, not_or]
    exact ⟨hg.line, Ne.symm hnl⟩
  · rw [mem_append, mem_singleton, not_or]
    exact ⟨hg.eof, Ne.symm hc⟩

/-- A read that ends otherwise returns the number of characters that it has copied. -/
theorem ended_copied (hres : (target - n).toNat = g.got.length) (hmost : g.got.length ≤ target.toInt.toNat)
    (hline : newline ∉ g.got.dropLast) (heof : ctrlD ∉ g.got)
    (hstop : g.got.length < target.toInt.toNat → g.got.getLast? = some newline ∨ g.got ≠ [] ∧ g.left.isSome) :
    Ended target g (target - n).toInt := by
  have hne : g.got ≠ [ctrlD] := fun e => heof (e ▸ mem_singleton_self _)
  refine ⟨hmost, hline, fun h => absurd h heof, ?_, fun hlt => (hstop hlt).imp_right .inr⟩
  rw [if_neg hne, ← hres]
  have := BitVec.toInt_eq_toNat_cond (target - n)
  have := BitVec.toInt_lt (x := target)
  split at * <;> omega

theorem notMem_dropLast (h : newline ∉ l) : newline ∉ l.dropLast := mt (dropLast_sublist l).mem h

section Reading

variable (hg : Reading target n g)

include hg

theorem Reading.result : (target - n).toNat = g.got.length := by
  have := hg.go
  bv_omega

/-- What has been copied is not more than what was asked for. -/
theorem Reading.most : g.got.length ≤ target.toInt.toNat := by
  have hgo := hg.go
  by_cases hnil : g.got = []
  · rw [hnil]
    exact Nat.zero_le _
  · obtain ⟨hnat, -, -⟩ := toInt_pos (hg.pos hnil)
    omega

theorem Reading.ended (hn : ¬0 < n.toInt) : Ended target g (target - n).toInt := by
  refine ended_copied hg.result hg.most (notMem_dropLast hg.line) hg.eof fun hlt => ?_
  have hgo := hg.go
  obtain ⟨hnat, hpos, htlt⟩ := toInt_pos (n := target) (by omega)
  have := BitVec.toInt_eq_toNat_cond n
  split at this <;> omega

/-- A control-D is left behind other characters. -/
theorem Reading.ended_left (hlt : n.toNat < target.toNat) (pos : Nat) :
    Ended target { g with left := some pos } (target - n).toInt := by
  have hgo := hg.go
  refine ended_copied hg.result hg.most (notMem_dropLast hg.line) hg.eof fun _ => .inr ⟨fun hnil => ?_, rfl⟩
  have hnil : g.got = [] := hnil
  rw [hnil, length_nil] at hgo
  omega

/-- A newline has been copied. -/
theorem Reading.ended_newline (hn : 0 < n.toInt) :
    Ended target { g with got := g.got ++ [newline] } (target - (n - 1)).toInt := by
  have hgo := hg.go
  have hmost := hg.most
  obtain ⟨hnat, hpos, hlt⟩ := toInt_pos hn
  have hlen : (g.got ++ [newline]).length = g.got.length + 1 := by rw [length_append, length_singleton]
  have htarget : target.toInt.toNat = target.toNat := by
    by_cases hnil : g.got = []
    · rw [hnil, length_nil, add_zero] at hgo
      rw [← BitVec.eq_of_toNat_eq hgo, hnat]
    · exact (toInt_pos (hg.pos hnil)).1
  refine ended_copied ?_ ?_ ?_ ?_ fun _ => .inl ?_
  · rw [hlen]
    bv_omega
  · rw [hlen, htarget]
    omega
  · rw [dropLast_concat]
    exact hg.line
  · rw [mem_append, mem_singleton, not_or]
    exact ⟨hg.eof, by decide⟩
  · rw [getLast?_concat]

end Reading

/-- The buffer with one more character. -/
theorem Stored.append {mem mem' : BitVec 64 → UInt8} (h : Stored mem g)
    (hnew : g.user_dst = true → c ≠ ctrlD → mem' (g.dst + .ofNat 64 g.got.length) = c)
    (hold : g.user_dst = true → ∀ i, i < g.got.length → mem' (g.dst + .ofNat 64 i) = mem (g.dst + .ofNat 64 i)) :
    Stored mem' { g with got := g.got ++ [c] } := by
  intro huser i c' hi hc'
  have hi : (g.got ++ [c])[i]? = some c' := hi
  show mem' (g.dst + .ofNat 64 i) = c'
  rcases Nat.lt_trichotomy i g.got.length with hlt | rfl | hgt
  · rw [getElem?_append_left hlt] at hi
    rw [hold huser i hlt]
    exact h huser i c' hi hc'
  · rw [getElem?_concat_length, some_inj] at hi
    exact hi ▸ hnew huser (hi ▸ hc')
  · rw [getElem?_eq_none (by rw [length_append, length_singleton]; omega)] at hi
    cases hi

/-- All the bytes that are still to be read can be stored, behind those that have been
read. -/
structure Room (mapped : Ctx → BitVec 64 → Bool) (t : Ctx) (user_dst : Bool) (dst : BitVec 64) (n : BitVec 32)
    (g : Cur) : Prop where
  mapped : user_dst = true → ∀ i, i < n.toInt.toNat → mapped t (dst + .ofNat 64 i) = true
  user : g.user_dst = user_dst
  dst : dst = g.dst + .ofNat 64 g.got.length

theorem Room.next (h : Room mapped t user_dst dst n g) (hn : 0 < n.toInt) (c : UInt8) :
    Room mapped t user_dst (dst + 1) (n - 1) { g with got := g.got ++ [c] } := by
  obtain ⟨hnat, hpos, hlt⟩ := toInt_pos hn
  refine ⟨fun huser i hi => ?_, h.user, ?_⟩
  · have hpred : (n - 1).toInt.toNat + 1 = n.toInt.toNat := by
      have := BitVec.toInt_eq_toNat_cond (n - 1)
      split at this <;> bv_omega
    have := h.mapped huser (i + 1) (by omega)
    rw [Nat.add_comm, BitVec.ofNat_add, ← BitVec.add_assoc] at this
    exact this
  · show dst + 1 = g.dst + .ofNat 64 (g.got ++ [c]).length
    rw [h.dst, length_append, length_singleton, BitVec.ofNat_add, BitVec.add_assoc]
    rfl

/-- `either_copyout` stores a character, and nothing else changes. -/
theorem eitherCopyout_spec (hroom : Room mapped t user_dst dst n g) (hn : 0 < n.toInt) (c : UInt8) (s : Cons) :
    ∃ s', eitherCopyout mapped t user_dst dst c s = some s' ∧ (s'.buf = s.buf ∧ s'.r = s.r ∧ s'.w = s.w ∧ s'.e = s.e) ∧
      s'.killed = s.killed ∧ s'.hist = s.hist ∧ (∀ u, u ≠ t → s'.mem u = s.mem u) ∧
      (g.user_dst = true → s'.mem t = update (s.mem t) dst c) := by
  rw [eitherCopyout]
  split
  · rename_i huser
    have hmapped := hroom.mapped huser 0 (by omega)
    rw [BitVec.add_zero] at hmapped
    rw [if_pos hmapped]
    exact ⟨_, rfl, ⟨rfl, rfl, rfl, rfl⟩, rfl, rfl, fun u hu => update_of_ne hu .., fun _ => update_self ..⟩
  · rename_i huser
    exact ⟨_, rfl, ⟨rfl, rfl, rfl, rfl⟩, rfl, rfl, fun _ _ => rfl, fun e => absurd (hroom.user ▸ e) huser⟩

theorem readChar_spec (hg : Reading target n g) (hn : 0 < n.toInt) (hroom : Room mapped t user_dst dst n g) :
    Spec t (atomic (readChar mapped user_dst dst n target)) ⟨some .ready, g⟩ fun r x => ∃ g', x = ⟨some .nothing, g'⟩ ∧
      TurnOk target n g r g' := by
  refine atomic_spec fun s chan cur he hi => ?_
  have hstored : Stored (s.mem t) g := by
    rw [← he, hi.cur t]
    exact hi.mem t
  rw [readChar]
  dsimp only
  by_cases hd : s.buf (s.r.toNat % inputBuf) = ctrlD
  · rw [if_pos hd]
    split
    · rename_i hlt
      exact ⟨_, _, hi.leave he hd, _, rfl, hg.ended_left hlt _⟩
    · rename_i hfirst
      have hmem : Stored (s.mem t) { g with got := g.got ++ [s.buf (s.r.toNat % inputBuf)] } :=
        hstored.append (fun _ hne => absurd hd hne) fun _ _ _ => rfl
      have htake : Inv { s with r := s.r + 1, hist := s.hist.take t (s.buf (s.r.toNat % inputBuf)) } chan (some .nothing) _ :=
        hi.take he rfl rfl rfl rfl rfl rfl (fun _ _ => rfl) hmem
      refine ⟨_, _, htake, _, rfl, ?_⟩
      rw [hd]
      exact hg.ended_eof hn hfirst
  · rw [if_neg hd]
    obtain ⟨s', hcopy, ⟨hbuf, hr, hw, hee⟩, hkilled, hhist, hother, hmem⟩ :=
      eitherCopyout_spec hroom hn (s.buf (s.r.toNat % inputBuf))
      { s with r := s.r + 1, hist := s.hist.take t (s.buf (s.r.toNat % inputBuf)) }
    rw [hcopy]
    have hlen : g.got.length < 2 ^ 32 := by
      have := hg.go
      omega
    refine ⟨_, _, hi.take he hbuf hr hw hee hkilled hhist hother
      (hstored.append (fun huser _ => ?_) fun huser i hlt => ?_), _, rfl, hd, rfl⟩
    · rw [hmem huser, hroom.dst, update_self]
    · rw [hmem huser, hroom.dst, update_of_ne]
      intro e
      have := congrArg BitVec.toNat ((BitVec.add_right_inj g.dst).1 e)
      rw [BitVec.toNat_ofNat, BitVec.toNat_ofNat, Nat.mod_eq_of_lt (by omega), Nat.mod_eq_of_lt (by omega)] at this
      omega

/-- How the loop ends. -/
def LoopEnd (target : BitVec 32) : Option (BitVec 32) → Mon.Ghost Held Cur → Prop
  | none, _ => False
  | some n, x => ∃ g, x = ⟨some .nothing, g⟩ ∧ Ended target g (target - n).toInt

theorem readLoop_spec (hg : Reading target n g) (hroom : Room mapped t user_dst dst n g) :
    Spec t (readLoop mapped user_dst target (n, dst)) ⟨some .nothing, g⟩ (LoopEnd target) := by
  refine .loop (J := fun b x => ∃ g, x = ⟨some .nothing, g⟩ ∧ Reading target b.1 g ∧
    Room mapped t user_dst b.2 b.1 g) ?_ ⟨g, rfl, hg, hroom⟩
  rintro ⟨n, dst⟩ _ ⟨g, rfl, hg, hroom⟩
  dsimp only
  split
  · rename_i hn
    refine .bind waitInput_spec ?_
    rintro _ _ ⟨rfl, rfl⟩
    refine .bind (readChar_spec hg hn hroom) ?_
    rintro r _ ⟨g', rfl, hturn⟩
    cases r with
    | eof => exact .ret ⟨g', rfl, hturn⟩
    | failed => exact hturn.elim
    | copied c =>
      obtain ⟨hc, rfl⟩ := hturn
      dsimp only
      split
      · rename_i hnl
        rw [hnl]
        exact .ret ⟨_, rfl, hg.ended_newline hn⟩
      · rename_i hnl
        exact .ret ⟨_, rfl, hg.next hn hc hnl, hroom.next hn c⟩
  · rename_i hn
    exact .ret ⟨g, rfl, hg.ended hn⟩

theorem consoleread_spec (hv : validBuf mapped t user_dst dst n = true) :
    Spec t (consoleread mapped user_dst dst n) ⟨none, { user_dst, dst }⟩ fun r x => ∃ g, x = ⟨none, g⟩ ∧ Ended n g r := by
  have hmapped : user_dst = true → ∀ i, i < n.toInt.toNat → mapped t (dst + .ofNat 64 i) = true := fun huser i hi => by
    rw [validBuf, huser, Bool.not_true, Bool.false_or] at hv
    exact all_eq_true.1 hv i (mem_range.2 hi)
  refine .next acquire_spec fun _ => ?_
  refine .bind (readLoop_spec ⟨rfl, fun h => absurd rfl h, not_mem_nil, not_mem_nil, rfl⟩
    ⟨hmapped, rfl, (BitVec.add_zero dst).symm⟩) ?_
  rintro r x hend
  cases r with
  | none => exact hend.elim
  | some n' =>
    obtain ⟨g, rfl, hended⟩ := hend
    refine .next (release_spec (by simp)) fun _ => ?_
    exact .ret ⟨g, rfl, hended⟩

/-! ## Whole runs -/

theorem beginRead_spec (user_dst : Bool) (dst : BitVec 64) :
    Spec t (beginRead user_dst dst) ⟨none, g⟩ fun _ x => x = ⟨none, { user_dst, dst }⟩ := by
  refine Mon.other_spec fun s chan k cur he hi => ⟨{ user_dst, dst }, ?_, rfl⟩
  refine { hi with
    cur := cur_update hi.cur _, lines := hi.lines.congr rfl rfl rfl rfl, left := fun u pos hpos => ?_, mem := fun u => ?_ }
  · rcases eq_or_ne u t with rfl | hu
    · dsimp only at hpos
      rw [update_self] at hpos
      cases hpos
    · dsimp only at hpos
      rw [update_of_ne hu] at hpos
      exact hi.left u pos hpos
  · rcases eq_or_ne u t with rfl | hu
    · dsimp only
      rw [update_self]
      exact fun _ i c hc => by simp at hc
    · dsimp only
      rw [update_of_ne hu]
      exact hi.mem u

/-- What a reader that has not seen the end of the file has in its buffer. -/
theorem bytes_eq (h : Stored (s.mem t) g) (huser : g.user_dst = true)
    (heof : ctrlD ∉ g.got) : s.bytes t g.dst g.got.length = g.got := by
  refine ext_getElem (by simp [Cons.bytes]) fun i h1 h2 => ?_
  have hi : g.got[i]? = some g.got[i] := getElem?_eq_getElem h2
  have hat : (s.bytes t g.dst g.got.length)[i] = s.mem t (g.dst + .ofNat 64 i) := by simp [Cons.bytes]
  rw [hat]
  exact h huser i _ hi fun e => heof (e ▸ getElem_mem h2)

theorem endRead_spec {r : Int} (hend : Ended n g r) : Spec t (endRead n r) ⟨none, g⟩ fun _ x => x = ⟨none, g⟩ := by
  refine Mon.other_spec fun s chan k cur he hi => ⟨g, ?_, rfl⟩
  have hg : s.hist.cur t = g := (hi.cur t).symm.trans he
  rw [← he, update_eq_self]
  refine { hi with lines := hi.lines.congr rfl rfl rfl rfl, reads := fun x hx => ?_ }
  rcases mem_cons.1 hx with rfl | hx
  · rw [hg]
    refine ⟨hend.most, hend.line, hend.eof, hend.result, fun huser => ?_, fun hlt => ?_⟩
    · rw [hend.result]
      split
      · rfl
      · rename_i hne
        exact bytes_eq (hg ▸ hi.mem t) huser (mt hend.eof hne)
    · refine (hend.stop hlt).imp_right (Or.imp_right fun ⟨hne, hleft⟩ => ?_)
      obtain ⟨pos, hpos⟩ := Option.isSome_iff_exists.1 hleft
      exact ⟨hne, pos, hpos, hi.left t pos (hg ▸ hpos)⟩
  · exact hi.reads x hx

theorem call_spec (x : Call) (hx : (client mapped).allowed t () x = true) :
    Spec t ((client mapped).body x ()) ⟨none, g⟩ fun _ x' => x'.held = none := by
  cases x with
  | intr c => exact (consoleintr_spec c).mono fun _ _ e => by rw [e]
  | read user_dst dst n =>
    have hv : validBuf mapped t user_dst dst n = true := (Bool.and_eq_true_iff.1 hx).2
    refine .next (beginRead_spec user_dst dst) fun _ => ?_
    refine .bind (consoleread_spec hv) ?_
    rintro r _ ⟨g', rfl, hend⟩
    exact (endRead_spec hend).mono fun _ _ e => by rw [e]

/-- The line discipline: the order of the counters; what readers have taken and what is
between `r` and `w` is the log of the line editor, and what is between `w` and `e` is
its line; what each read has returned; a full buffer is committed; and who sleeps finds
nothing to read, and there is room for a character. -/
structure Disciplined (s : Mon Cons Chan Ctx) : Prop where
  order : (s.data.w - s.data.r).toNat ≤ (s.data.e - s.data.r).toNat
  size : (s.data.e - s.data.r).toNat ≤ inputBuf
  log : s.data.hist.taken ++ s.data.committed = s.data.hist.editor.log
  line : s.data.line = s.data.hist.editor.line
  reads : ∀ x ∈ s.data.hist.reads, ReadOk s.data.hist.editor.log x
  full : (s.data.e - s.data.r).toNat = inputBuf → s.data.w = s.data.e
  waits : s.lock = none → ∀ t, s.chan t ≠ none → s.data.r = s.data.w ∧ (s.data.e - s.data.r).toNat < inputBuf

/-- In every state of every run of readers and interrupts the line discipline holds, and
nobody has panicked. -/
theorem line_discipline {buf : Nat → UInt8} {kmem : BitVec 64 → UInt8} {mem : Ctx → BitVec 64 → UInt8}
    {c : Config (Mon Cons Chan Ctx) Ctx Unit}
    (hr : Config.Run (client mapped) (fun _ => True) (.idle (start buf kmem mem) ()) c) : Disciplined c.shared ∧
      c.panicked = none := by
  obtain ⟨hinv, hp⟩ := Config.Run.inv (fun _ (x : Mon.Ghost Held Cur) => x.held = none) hr (start_inv buf kmem mem)
    (fun _ => (rfl : (⟨none, {}⟩ : Mon.Ghost Held Cur).held = none)) rfl
    (by rintro t _ ⟨_, g⟩ x rfl hx; exact call_spec x hx)
  obtain ⟨γ, hi, -⟩ := hinv 0
  have h := hi.data
  refine ⟨⟨h.lines.order, h.lines.size, h.lines.log, h.lines.line, h.reads, h.lines.full, fun hlock t ht => ?_⟩, ?_⟩
  · rw [hlock] at h
    have hempty : c.shared.data.r = c.shared.data.w := (h.sleepers t ht).resolve_right (by simp)
    refine ⟨hempty, Nat.lt_of_le_of_ne h.lines.size fun hfull => ?_⟩
    have hw := h.lines.full hfull
    rw [hempty, hw, BitVec.sub_self] at hfull
    exact nomatch hfull
  · cases hc : c.panicked with
    | none => rfl
    | some m => exact (hp m hc).elim

/-- A process reads and has to sleep; `a` and a carriage return arrive, and it goes on. -/
def readThenType : List (Event Ctx Call) :=
  .call (.inl 0) (.read true 0 8) :: Event.steps (.inl 0) 7 ++ .call (.inr 0) (.intr 97) :: Event.steps (.inr 0) 4 ++
    .call (.inr 0) (.intr cr) :: Event.steps (.inr 0) 5 ++ Event.steps (.inl 0) 12

def blank : Mon Cons Chan Ctx := start (fun _ => 0) (fun _ => 0) fun _ _ => 0

set_option maxRecDepth 100000 in
theorem readThenType_run : ((Config.idle blank ()).execAll (client fun _ _ => true) (fun _ => true) readThenType).map (fun c =>
    decide (c.shared.data.hist.taken = [97, newline] ∧ c.shared.data.r = c.shared.data.w ∧
      c.shared.data.hist.reads.map (fun x => (x.result, x.bytes)) = [(2, [97, newline])])) = some true := by
  decide +kernel

theorem line_discipline_after_sleep : ∃ c : Config (Mon Cons Chan Ctx) Ctx Unit,
    Config.Run (client fun _ _ => true) (fun _ => True) (.idle blank ()) c ∧
    c.shared.data.hist.reads.map (fun x => (x.result, x.bytes)) = [(2, [97, newline])] ∧
      c.shared.data.hist.editor.log = [97, newline] ∧
    c.panicked = none := by
  obtain ⟨c, hc, h⟩ := Option.map_eq_some_iff.mp readThenType_run
  obtain ⟨htaken, hempty, hreads⟩ := of_decide_eq_true h
  have hr : Config.Run (client fun _ _ => true) (fun _ => True) (.idle blank ()) c := .of_execAll (fun _ _ => trivial) hc
  obtain ⟨hd, hp⟩ := line_discipline hr
  refine ⟨c, hr, hreads, ?_, hp⟩
  rw [← hd.log, htaken, Cons.committed, hempty, Ring.contents_self]
  rfl

end Xv6.Console
