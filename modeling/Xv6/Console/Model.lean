import Xv6.Framework.Monitor
import Xv6.Framework.Ring
import Xv6.Param

/-!
# Console input (`console.c`)

`cons` is a ring of characters with three counters: the reader is at `r`, the lines
that have been committed end at `w`, and the line that is edited at `e`.
`consoleintr` edits the line, and processes read with `consoleread`. Both hold
`cons.lock`, and a reader sleeps with it. What is written to the console, and so the
echo of the characters, is left out.

`Editor` is a line editor to compare with: it has the line as a list, and a log of all
that was committed. The history (`Hist`), which no step reads, has the editor that gets
the same characters, the characters that readers have taken, and what each read has
returned.
-/

namespace Xv6.Console

open Function

abbrev inputBuf : Nat := 128

/-- `C('D')`, `C('H')`, `C('P')` and `C('U')`. -/
abbrev ctrlD : UInt8 := 4
abbrev ctrlH : UInt8 := 8
abbrev ctrlP : UInt8 := 16
abbrev ctrlU : UInt8 := 21

/-- `'\x7f'`, `'\n'` and `'\r'`. -/
abbrev del : UInt8 := 127
abbrev newline : UInt8 := 10
abbrev cr : UInt8 := 13

/-- Who runs: a process, or a CPU that handles an interrupt. -/
abbrev Ctx := Pid ⊕ Nat

/-- What a reader sleeps on: `&cons.r`. -/
inductive Chan where
  | r
  deriving DecidableEq

/-! ## A line editor -/

/-- The line, all that has been committed, and how much of that has been read. -/
structure Editor where
  line : List UInt8 := []
  log : List UInt8 := []
  taken : Nat := 0

namespace Editor

/-- How many characters have not been read. -/
def pending (ed : Editor) : Nat := ed.log.length - ed.taken + ed.line.length

/-- A character at the end of the line. A newline, a control-D and the last character
that there is room for commit the line. -/
def append (ed : Editor) (c : UInt8) : Editor :=
  if c = newline ∨ c = ctrlD ∨ ed.pending + 1 = inputBuf then { ed with line := [], log := ed.log ++ (ed.line ++ [c]) }
  else { ed with line := ed.line ++ [c] }

/-- A character is typed. -/
def type (ed : Editor) (c : UInt8) : Editor :=
  if c = 0 ∨ c = ctrlP then ed
  else if c = ctrlU then { ed with line := [] }
  else if c = ctrlH ∨ c = del then { ed with line := ed.line.dropLast }
  else if ed.pending = inputBuf then ed
  else ed.append (if c = cr then newline else c)

def take (ed : Editor) : Editor := { ed with taken := ed.taken + 1 }

end Editor

/-! ## State -/

/-- Of a read, where its buffer is, the characters that it has taken, and how many had
been taken by all when it has seen a control-D and left it. -/
structure Cur where
  user_dst : Bool := false
  dst : BitVec 64 := 0
  got : List UInt8 := []
  left : Option Nat := none

/-- A read of `n` bytes that has returned, with what was then in the buffer of the
process. -/
structure Read where
  n : BitVec 32
  cur : Cur
  result : Int
  bytes : List UInt8

/-- History variables. -/
structure Hist where
  editor : Editor := {}
  /-- The characters that have been taken. -/
  taken : List UInt8 := []
  /-- The read that a process is in. -/
  cur : Ctx → Cur := fun _ => {}
  reads : List Read := []

/-- The read of `t` has taken the character `c`. -/
def Hist.take (h : Hist) (t : Ctx) (c : UInt8) : Hist :=
  { h with
    editor := h.editor.take
    taken := h.taken ++ [c]
    cur := update h.cur t { h.cur t with got := (h.cur t).got ++ [c] } }

/-- The read of `t` has seen a control-D and left it. -/
def Hist.leave (h : Hist) (t : Ctx) : Hist :=
  { h with cur := update h.cur t { h.cur t with left := some h.taken.length } }

theorem Hist.take_self (h : Hist) (t : Ctx) (c : UInt8) : (h.take t c).cur t = { h.cur t with got := (h.cur t).got ++ [c] } :=
  update_self ..

theorem Hist.take_of_ne (h : Hist) {t u : Ctx} (c : UInt8) (hu : u ≠ t) : (h.take t c).cur u = h.cur u := update_of_ne hu ..

theorem Hist.take_left (h : Hist) (t u : Ctx) (c : UInt8) : ((h.take t c).cur u).left = (h.cur u).left := by
  rcases eq_or_ne u t with rfl | hu
  · rw [Hist.take_self]
  · rw [Hist.take_of_ne _ _ hu]

theorem Hist.leave_self (h : Hist) (t : Ctx) : (h.leave t).cur t = { h.cur t with left := some h.taken.length } :=
  update_self ..

theorem Hist.leave_of_ne (h : Hist) {t u : Ctx} (hu : u ≠ t) : (h.leave t).cur u = h.cur u := update_of_ne hu ..

/-- `cons`, and the memory of the kernel and of the processes. -/
structure Cons where
  buf : Nat → UInt8
  r : BitVec 32 := 0
  w : BitVec 32 := 0
  e : BitVec 32 := 0
  kmem : BitVec 64 → UInt8
  mem : Ctx → BitVec 64 → UInt8
  killed : Ctx → Bool := fun _ => false
  hist : Hist := {}

abbrev KProg := Prog (Mon Cons Chan Ctx) Ctx

def atomic {α : Type} (f : Ctx → Cons → α × Cons) : KProg α := Mon.on (.step fun t s => .ok (f t s).1 (f t s).2)

/-! ## The interrupt handler -/

/-- `while(cons.e != cons.w && cons.buf[(cons.e-1) % INPUT_BUF] != '\n')`, for as many
turns as there are characters between `w` and `e`. -/
def killLine : Nat → Cons → Cons
  | 0, s => s
  | turns + 1, s =>
    if s.e ≠ s.w ∧ s.buf ((s.e - 1).toNat % inputBuf) ≠ newline then killLine turns { s with e := s.e - 1 } else s

/-- Store a character, and return whether the line is committed. -/
def store (c : UInt8) (s : Cons) : Bool × Cons :=
  let s := { s with buf := update s.buf (s.e.toNat % inputBuf) c, e := s.e + 1 }
  if c = newline ∨ c = ctrlD ∨ s.e = s.r + .ofNat 32 inputBuf then (true, { s with w := s.e }) else (false, s)

/-- The `switch` of `consoleintr`. -/
def edit (c : UInt8) (s : Cons) : Bool × Cons :=
  if c = ctrlP then (false, s)
  else if c = ctrlU then (false, killLine (s.e - s.w).toNat s)
  else if c = ctrlH ∨ c = del then (false, if s.e ≠ s.w then { s with e := s.e - 1 } else s)
  else if c ≠ 0 ∧ (s.e - s.r).toNat < inputBuf then store (if c = cr then newline else c) s
  else (false, s)

def consoleintr (c : UInt8) : KProg Unit := do
  Mon.acquire
  let wake ← atomic fun _ s => ((edit c s).1, { (edit c s).2 with hist := { s.hist with editor := s.hist.editor.type c } })
  if wake then Mon.wakeup .r else pure ()
  Mon.release

/-! ## Reading -/

section

-- `mapped t a`: process `t` has memory at address `a`
variable (mapped : Ctx → BitVec 64 → Bool)

/-- `either_copyout` of one byte. -/
def eitherCopyout (t : Ctx) (user_dst : Bool) (dst : BitVec 64) (c : UInt8) (s : Cons) : Option Cons :=
  if user_dst then
    if mapped t dst then some { s with mem := update s.mem t (update (s.mem t) dst c) } else none
  else some { s with kmem := update s.kmem dst c }

/-- What a turn of the loop of `consoleread` does. -/
inductive Turn where
  | eof
  | failed
  | copied (c : UInt8)

/-- A turn of the loop, from where there is a character. -/
def readChar (user_dst : Bool) (dst : BitVec 64) (n target : BitVec 32) (t : Ctx) (s : Cons) : Turn × Cons :=
  let c := s.buf (s.r.toNat % inputBuf)
  let s := { s with r := s.r + 1 }
  if c = ctrlD then
    if n.toNat < target.toNat then (.eof, { s with r := s.r - 1, hist := s.hist.leave t })
    else (.eof, { s with hist := s.hist.take t c })
  else
    let s := { s with hist := s.hist.take t c }
    match eitherCopyout mapped t user_dst dst c s with
    | none => (.failed, s)
    | some s => (.copied c, s)

/-- The loop that sleeps until there is a character. Returns `false`, with the lock
released, if the process has been killed. -/
def waitInput : KProg Bool :=
  .loop (fun (_ : Unit) => do
    let empty ← atomic fun _ s => (decide (s.r = s.w), s)
    if empty then
      let killed ← atomic fun t s => (s.killed t, s)
      if killed then
        Mon.release
        return .inr false
      else
        Mon.sleep .r
        return .inl ()
    else return .inr true) ()

/-- The loop of `consoleread`, for what `n` and `dst` are now. Returns what `n` is at
the end, or nothing if the process has been killed. -/
def readLoop (user_dst : Bool) (target : BitVec 32) : BitVec 32 × BitVec 64 → KProg (Option (BitVec 32)) :=
  .loop fun (n, dst) =>
    if 0 < n.toInt then do
      if ← waitInput then
        match ← atomic (readChar mapped user_dst dst n target) with
        | .eof => return .inr (some n)
        | .failed => return .inr (some n)
        | .copied c => if c = newline then return .inr (some (n - 1)) else return .inl (n - 1, dst + 1)
      else return .inr none
    else return .inr (some n)

def consoleread (user_dst : Bool) (dst : BitVec 64) (n : BitVec 32) : KProg Int := do
  Mon.acquire
  match ← readLoop mapped user_dst n (n, dst) with
  | none => return -1
  | some n' =>
    Mon.release
    return (n - n').toInt

/-! ## Processes and interrupts -/

/-- What happens: a character arrives, or a process reads. -/
inductive Call where
  | intr (c : UInt8)
  | read (user_dst : Bool) (dst : BitVec 64) (n : BitVec 32)

/-- All of the `n` bytes from `dst` on can be stored. -/
def validBuf (t : Ctx) (user_dst : Bool) (dst : BitVec 64) (n : BitVec 32) : Bool :=
  !user_dst || (List.range n.toInt.toNat).all fun i => mapped t (dst + .ofNat 64 i)

def beginRead (user_dst : Bool) (dst : BitVec 64) : KProg Unit :=
  atomic fun t s => ((), { s with hist := { s.hist with cur := update s.hist.cur t { user_dst, dst } } })

/-- What a process has at `dst`. -/
def Cons.bytes (s : Cons) (t : Ctx) (dst : BitVec 64) (n : Nat) : List UInt8 :=
  (List.range n).map fun i => s.mem t (dst + .ofNat 64 i)

/-- A read returns. -/
def endRead (n : BitVec 32) (result : Int) : KProg Unit :=
  atomic fun t s => ((), { s with
    hist := { s.hist with reads := ⟨n, s.hist.cur t, result, s.bytes t (s.hist.cur t).dst result.toNat⟩ :: s.hist.reads } })

/-- Processes read into memory that they have, and interrupts happen at any time. -/
def client : Client (Mon Cons Chan Ctx) Ctx Unit Call where
  allowed t _
    | .intr _ => t.isRight
    | .read user_dst dst n => t.isLeft && validBuf mapped t user_dst dst n
  body
    | .intr c, _ => consoleintr c
    | .read user_dst dst n, _ => do
      beginRead user_dst dst
      let result ← consoleread mapped user_dst dst n
      endRead n result

end

/-- The console before any character has arrived, with any contents of the memory. -/
def start (buf : Nat → UInt8) (kmem : BitVec 64 → UInt8) (mem : Ctx → BitVec 64 → UInt8) : Mon Cons Chan Ctx where
  data := { buf, kmem, mem }

end Xv6.Console
