import Mathlib.Algebra.BigOperators.Fin
import Mathlib.Algebra.Order.BigOperators.Group.Finset
import Xv6.Disk.File
import Xv6.Framework.Thread

/-!
# A file that processes share

Processes that write to one `struct file`, in any order of their steps. A chunk
of `filewrite` takes a place in the log, locks the inode, writes at `f->off` and
advances it, unlocks the inode and gives its place in the log back. Between the
steps other processes may do anything that leaves this file alone (`env`).

The history (`Hist`), which no step reads, has the calls, the chunks in the order
in which they were written, each with the number of its call, and what the calls
have returned. When all calls have returned, the file has the chunks in this
order (`shared_writes`).
-/

namespace Xv6.Disk.Shared

open Function List
open Option (some_inj map_some getD_some elim_some)

/-- A call of `filewrite`: the user's memory, and the arguments. -/
structure Write where
  mem : Mem
  addr : BitVec 64
  n : BitVec 32

namespace Write

def len (x : Write) : Nat := x.n.toInt.toNat

def chunk (x : Write) (k : Nat) : List UInt8 := copyin x.mem (x.addr + .ofNat 64 (writeMax * k))
    (chunkLen x.len (writeMax * k))

/-- The first `k` chunks. -/
def chunks (x : Write) (k : Nat) : List (List UInt8) := (range k).map x.chunk

def count (x : Write) : Nat := (x.len + (writeMax - 1)) / writeMax

/-- A write of bytes that can be read. -/
def valid (x : Write) : Bool := decide (0 ≤ x.n.toInt) && decide (Readable x.mem x.addr x.len)

end Write

/-- History variables. -/
structure Hist where
  calls : List Write := []
  chunks : List (Nat × List UInt8) := []
  rets : List (Nat × Int) := []

namespace Hist

/-- The chunks of call `c`. -/
def own (h : Hist) (c : Nat) : List (List UInt8) := (h.chunks.filter fun e => e.1 = c).map Prod.snd

def bytes (h : Hist) : List UInt8 := (h.chunks.map Prod.snd).flatten

def begin (h : Hist) (x : Write) : Hist := { h with calls := h.calls ++ [x] }

def add (h : Hist) (c : Nat) (l : List UInt8) : Hist := { h with chunks := h.chunks ++ [(c, l)] }

def ret (h : Hist) (c : Nat) (r : Int) : Hist := { h with rets := h.rets ++ [(c, r)] }

end Hist

/-- The file, the lock of its inode, and the history. -/
structure State (τ : Type) where
  file : OpenFile
  lock : Option τ
  hist : Hist

section Model

variable {τ : Type} [DecidableEq τ]

abbrev SProg (τ : Type) := Prog (State τ) τ

def onFs {α : Type} (c : DCmd α) : SProg τ α :=
  .step fun _ s => (c.zoom (fun s : State τ => s.file.fs) fun s fs => { s with file := { s.file with fs } }).run s

/-- `ilock`, which sleeps while another process has the inode locked. -/
def ilock : SProg τ Unit :=
  .step fun t s => if s.lock = none then .ok () { s with lock := some t } else .wait

def iunlock : SProg τ Unit :=
  .step fun t s => if s.lock = some t then .ok () { s with lock := none } else .panic "iunlock"

/-- `writei` at `f->off`, for a chunk of call `c`. -/
def writeAt (c : Nat) (mem : Mem) (addr : BitVec 64) (n1 : Nat) : SProg τ Int :=
  .step fun _ s => match (writei mem addr s.file.off (.ofNat 32 n1)).run s.file.fs with
    | .ok r fs => .ok r { s with
        file := { s.file with fs }
        hist := if r < 0 then s.hist else s.hist.add c (copyin mem addr n1) }
    | .wait => .wait
    | .panic m => .panic m

def advance (r : Int) : SProg τ Unit :=
  .step fun _ s => .ok () { s with file := { s.file with off := if r > 0 then s.file.off + .ofInt 32 r else s.file.off } }

/-- A chunk of `n1` bytes at `addr`, in a transaction of its own. -/
def writeChunk (c : Nat) (mem : Mem) (addr : BitVec 64) (n1 : Nat) : SProg τ Int := do
  onFs beginOp
  ilock
  let r ← writeAt c mem addr n1
  advance r
  iunlock
  onFs endOp
  return r

/-- Write to a file of an inode, as call `c`. -/
def filewrite (c : Nat) (x : Write) : SProg τ Int := do
  let writable ← .step fun _ s => .ok s.file.writable s
  if writable = false then return -1
  else
    let i ← .loop (fun i : Nat =>
      if (i : Int) < x.n.toInt then do
        let n1 := min (x.n.toInt - i).toNat writeMax
        let r ← writeChunk c x.mem (x.addr + .ofNat 64 i) n1
        if r < 0 then return .inr i
        else if r ≠ n1 then
          .step fun _ _ => .panic "short filewrite"
        else return .inl (i + n1)
      else return .inr i) 0
    return if (i : Int) = x.n.toInt then x.n.toInt else -1

/-- What a process may do. -/
inductive Call where
  | write (x : Write)
  | other (k : Nat)

/-- The call gets its number. -/
def beginCall (x : Write) : SProg τ Nat := .step fun _ s => .ok s.hist.calls.length { s with hist := s.hist.begin x }

def endCall (c : Nat) (r : Int) : SProg τ Unit := .step fun _ s => .ok () { s with hist := s.hist.ret c r }

/-- Processes that write to the file. `env` is what may happen to the file system
besides. -/
def client (env : Nat → Disk.State → Disk.State) : Client (State τ) τ Unit Call where
  allowed _ _
    | .write x => x.valid
    | .other _ => true
  body
    | .write x, _ => do
      let c ← beginCall x
      let r ← filewrite c x
      endCall c r
    | .other k, _ => .step fun _ s => .ok () { s with file := { s.file with fs := env k s.file.fs } }

end Model

/-! ## The chunks of a call -/

namespace Write

variable {x : Write}

theorem readable (h : x.valid = true) : Readable x.mem x.addr x.len := by
  simp only [valid, Bool.and_eq_true, decide_eq_true_eq] at h
  exact h.2

theorem toInt_eq (h : x.valid = true) : x.n.toInt = x.len := by
  simp only [valid, Bool.and_eq_true, decide_eq_true_eq] at h
  exact (Int.toNat_of_nonneg h.1).symm

theorem chunks_succ (x : Write) (k : Nat) : x.chunks (k + 1) = x.chunks k ++ [x.chunk k] := by
  simp [chunks, range_succ]

theorem min_succ (n k : Nat) : min n (writeMax * (k + 1)) = min n (writeMax * k) + chunkLen n (writeMax * k) := by
  simp only [chunkLen, writeMax, maxopblocks, bsize]
  omega

/-- The bytes of the first `k` chunks. -/
theorem flatten_chunks (h : x.valid = true) (k : Nat) :
    (x.chunks k).flatten = copyin x.mem x.addr (min x.len (writeMax * k)) := by
  induction k with
  | zero => rw [mul_zero, Nat.min_zero]; rfl
  | succ k ih =>
    rw [chunks_succ, flatten_append, ih, min_succ, copyin_readable ((readable h).mono (min_le_left ..)), flatten_singleton]
    by_cases hk : writeMax * k ≤ x.len
    · rw [min_eq_right hk]
      rfl
    · have hzero : chunkLen x.len (writeMax * k) = 0 := by
        rw [chunkLen, Nat.sub_eq_zero_of_le (by omega)]
        exact Nat.zero_min _
      rw [chunk, hzero]
      rfl

theorem length_flatten_chunks (h : x.valid = true) (k : Nat) : (x.chunks k).flatten.length = min x.len (writeMax * k) := by
  rw [flatten_chunks h]
  exact (readable h).mono (min_le_left ..)

theorem le_count (x : Write) : x.len ≤ writeMax * x.count := by
  simp only [count, writeMax, maxopblocks, bsize]
  omega

variable {k : Nat}

theorem lt_count (h : writeMax * k < x.len) : k + 1 ≤ x.count := by
  simp only [count, writeMax, maxopblocks, bsize] at *
  omega

theorem count_le (h : x.len ≤ writeMax * k) : x.count ≤ k := by
  simp only [count, writeMax, maxopblocks, bsize] at *
  omega

end Write

namespace Hist

variable (h : Hist)

theorem own_add (c d : Nat) (l : List UInt8) : (h.add c l).own d = if d = c then h.own d ++ [l] else h.own d := by
  unfold own add
  rw [filter_append, map_append]
  by_cases hd : d = c
  · rw [if_pos hd, filter_cons_of_pos (by simp [hd])]
    rfl
  · rw [if_neg hd, filter_cons_of_neg (by simpa using fun e => hd e.symm), filter_nil, map_nil, append_nil]

theorem bytes_add (c : Nat) (l : List UInt8) : (h.add c l).bytes = h.bytes ++ l := by
  simp [bytes, add]

/-- The bytes are those of all calls. -/
theorem length_bytes {n : Nat} (hn : ∀ e ∈ h.chunks, e.1 < n) : h.bytes.length = ∑ c ∈ Finset.range n,
    (h.own c).flatten.length := by
  unfold bytes own
  generalize h.chunks = l at hn ⊢
  induction l with
  | nil => simp
  | cons e l ih =>
    have he := hn e mem_cons_self
    have ih := ih fun e' he' => hn e' (mem_cons_of_mem _ he')
    have hterm : ∀ c, (((e :: l).filter fun e => e.1 = c).map Prod.snd).flatten.length =
        (if e.1 = c then e.2.length else 0) + ((l.filter fun e => e.1 = c).map Prod.snd).flatten.length := fun c => by
      by_cases hc : e.1 = c
      · rw [if_pos hc, filter_cons_of_pos (by simpa using hc), map_cons, flatten_cons, length_append]
      · rw [if_neg hc, filter_cons_of_neg (by simpa using hc), zero_add]
    rw [map_cons, flatten_cons, length_append, ih, Finset.sum_congr rfl fun c _ => hterm c, Finset.sum_add_distrib,
      Finset.sum_ite_eq, if_pos (Finset.mem_range.2 he)]

end Hist

/-! ## The invariant -/

/-- A call in progress: its number, and how many chunks it has written. -/
structure Running where
  call : Nat
  write : Write
  done : Nat

/-- The length of its next chunk. -/
abbrev Running.size (r : Running) : Nat := chunkLen r.write.len (writeMax * r.done)

/-- Where a process is in a chunk: without the lock of the inode, with it, or with
it after a write of `n` bytes which `f->off` does not count yet. -/
inductive Phase where
  | out
  | locked
  | wrote (n : Nat)

def Phase.pending : Phase → Nat
  | .wrote n => n
  | _ => 0

structure Ghost where
  call : Option Running := none
  phase : Phase := .out

variable {τ : Type}

/-- The calls in progress and those that have returned agree with the history. -/
structure Calls (h : Hist) (call : τ → Option Running) : Prop where
  running : ∀ t r, call t = some r → h.calls[r.call]? = some r.write ∧ h.own r.call = r.write.chunks r.done
  inj : ∀ t u r r', call t = some r → call u = some r' → r.call = r'.call → t = u
  done : ∀ c x, h.calls[c]? = some x →
    (∃ t r, call t = some r ∧ r.call = c) ∨ (h.own c = x.chunks x.count ∧ (c, (x.len : Int)) ∈ h.rets)
  known : ∀ e ∈ h.chunks, e.1 < h.calls.length
  rets : ∀ e ∈ h.rets, ∃ x, h.calls[e.1]? = some x ∧ e.2 = x.len
  valid : ∀ x ∈ h.calls, x.valid = true

/-- The chunks are those of `o` on, and `f->off` is after them. -/
structure Inv (s0 : Disk.State) (o : Nat) (s : State τ) (γ : τ → Ghost) : Prop where
  writable : s.file.writable = true
  wf : Wf s.file.fs
  synced : Synced s.file.fs
  held : s.file.fs.held = []
  inum : s.file.fs.inum = s0.inum
  lock : ∀ t, s.lock = some t ↔ (γ t).phase ≠ .out
  off : s.file.off.toNat + s.lock.elim 0 (fun t => (γ t).phase.pending) = o + s.hist.bytes.length
  size : s.file.fs.ip.size = max s0.ip.size (o + s.hist.bytes.length)
  bytes : ∀ pos, s.file.fs.byteAt s0.inum pos =
    if o ≤ pos ∧ pos < o + s.hist.bytes.length then s.hist.bytes.getD (pos - o) 0 else s0.byteAt s0.inum pos
  calls : Calls s.hist fun t => (γ t).call

/-- The file has room for all writes. -/
def Fits (o : Nat) (s : State τ) : Prop := o + (s.hist.calls.map Write.len).sum ≤ maxfile * bsize

section Calls

variable {h : Hist} {call : τ → Option Running} {t : τ} {r : Running} {x : Write}

variable (hc : Calls h call)

include hc

theorem Calls.own_length : h.own h.calls.length = [] := by
  unfold Hist.own
  rw [filter_eq_nil_iff.2 fun e he => by have := hc.known e he; simp; omega]
  rfl

theorem Calls.lt_of_running (ht : call t = some r) : r.call < h.calls.length :=
  (List.getElem?_eq_some_iff.1 (hc.running t r ht).1).1

variable [DecidableEq τ]

theorem Calls.begin (ht : call t = none) (hx : x.valid = true) :
    Calls (h.begin x) (update call t (some ⟨h.calls.length, x, 0⟩)) where
  running u r hu := by
    rcases eq_or_ne u t with rfl | hne
    · rw [update_self, some_inj] at hu
      rw [← hu]
      exact ⟨getElem?_concat_length, hc.own_length⟩
    · rw [update_of_ne hne] at hu
      have := hc.running u r hu
      refine ⟨?_, this.2⟩
      show (h.calls ++ [x])[r.call]? = _
      rw [getElem?_append_left (hc.lt_of_running hu), this.1]
  inj u v r r' hu hv heq := by
    rcases eq_or_ne u t with rfl | hut <;> rcases eq_or_ne v u with rfl | hvu
    · rfl
    · rw [update_self, some_inj] at hu
      rw [update_of_ne hvu] at hv
      have := hc.lt_of_running hv
      rw [← heq, ← hu] at this
      exact absurd this (lt_irrefl _)
    · rfl
    · rw [update_of_ne hut] at hu
      rcases eq_or_ne v t with rfl | hvt
      · rw [update_self, some_inj] at hv
        have := hc.lt_of_running hu
        rw [heq, ← hv] at this
        exact absurd this (lt_irrefl _)
      · rw [update_of_ne hvt] at hv
        exact hc.inj u v r r' hu hv heq
  done c y hy := by
    by_cases hcl : c < h.calls.length
    · have hy' : (h.calls ++ [x])[c]? = some y := hy
      rw [getElem?_append_left hcl] at hy'
      refine (hc.done c y hy').imp_left ?_
      rintro ⟨u, r, hu, hr⟩
      have hne : u ≠ t := fun e => by rw [e, ht] at hu; cases hu
      exact ⟨u, r, by rw [update_of_ne hne]; exact hu, hr⟩
    · have hlt : c < (h.calls ++ [x]).length := (List.getElem?_eq_some_iff.1 hy).1
      rw [length_append, length_singleton] at hlt
      exact .inl ⟨t, _, update_self .., by show h.calls.length = c; omega⟩
  known e he := by
    have := hc.known e he
    show e.1 < (h.calls ++ [x]).length
    rw [length_append]
    omega
  rets e he := by
    obtain ⟨y, hy, hr⟩ := hc.rets e he
    refine ⟨y, ?_, hr⟩
    show (h.calls ++ [x])[e.1]? = _
    rw [List.getElem?_append_left (List.getElem?_eq_some_iff.1 hy).1, hy]
  valid y hy := by
    rcases mem_append.1 hy with hy | hy
    · exact hc.valid y hy
    · rw [mem_singleton.1 hy]
      exact hx

/-- The next chunk of `t`'s call. -/
theorem Calls.add (ht : call t = some r) :
    Calls (h.add r.call (r.write.chunk r.done)) (update call t (some { r with done := r.done + 1 })) where
  running u r' hu := by
    rw [Hist.own_add]
    rcases eq_or_ne u t with rfl | hne
    · rw [update_self, some_inj] at hu
      rw [← hu]
      refine ⟨(hc.running u r ht).1, ?_⟩
      rw [if_pos rfl, (hc.running u r ht).2, Write.chunks_succ]
    · rw [update_of_ne hne] at hu
      rw [if_neg fun e => hne (hc.inj u t r' r hu ht e)]
      exact hc.running u r' hu
  inj u v r1 r2 hu hv heq := by
    -- the numbers are as before
    have hold : ∀ {w r'}, update call t (some { r with done := r.done + 1 }) w = some r' →
        ∃ r'', call w = some r'' ∧ r''.call = r'.call := by
      intro w r' hw
      rcases eq_or_ne w t with rfl | hne
      · rw [update_self, some_inj] at hw
        exact ⟨r, ht, by rw [← hw]⟩
      · rw [update_of_ne hne] at hw
        exact ⟨r', hw, rfl⟩
    obtain ⟨r1', h1, e1⟩ := hold hu
    obtain ⟨r2', h2, e2⟩ := hold hv
    exact hc.inj u v r1' r2' h1 h2 (e1.trans (heq.trans e2.symm))
  done c y hy := by
    by_cases hcr : c = r.call
    · exact .inl ⟨t, _, update_self .., hcr.symm⟩
    · rw [Hist.own_add, if_neg hcr]
      refine (hc.done c y hy).imp_left ?_
      rintro ⟨u, r', hu, hr⟩
      have hne : u ≠ t := fun e => by
        rw [e, ht, some_inj] at hu
        exact hcr (by rw [← hr, hu])
      exact ⟨u, r', by rw [update_of_ne hne]; exact hu, hr⟩
  known e he := by
    rcases mem_append.1 he with he | he
    · exact hc.known e he
    · rw [mem_singleton.1 he]
      exact hc.lt_of_running ht
  rets := hc.rets
  valid := hc.valid

/-- `t`'s call returns. -/
theorem Calls.ret (ht : call t = some r) (hdone : r.done = r.write.count) :
    Calls (h.ret r.call r.write.len) (update call t none) where
  running u r' hu := by
    rcases eq_or_ne u t with rfl | hne
    · rw [update_self] at hu
      cases hu
    · rw [update_of_ne hne] at hu
      exact hc.running u r' hu
  inj u v r1 r2 hu hv := by
    have hold : ∀ {w r'}, update call t none w = some r' → call w = some r' := by
      intro w r' hw
      rcases eq_or_ne w t with rfl | hne
      · rw [update_self] at hw
        cases hw
      · rwa [update_of_ne hne] at hw
    exact hc.inj u v r1 r2 (hold hu) (hold hv)
  done c y hy := by
    by_cases hcr : c = r.call
    · obtain ⟨hcall, hown⟩ := hc.running t r ht
      have hy' : h.calls[c]? = some y := hy
      rw [hcr, hcall, some_inj] at hy'
      refine .inr ⟨?_, ?_⟩
      · rw [hcr, ← hy', ← hdone]
        exact hown
      · rw [hcr, ← hy']
        exact mem_append_right _ mem_cons_self
    · rcases hc.done c y hy with ⟨u, r', hu, hr⟩ | ⟨hown, hret⟩
      · have hne : u ≠ t := fun e => by
          rw [e, ht, some_inj] at hu
          exact hcr (by rw [← hr, hu])
        exact .inl ⟨u, r', by rw [update_of_ne hne]; exact hu, hr⟩
      · exact .inr ⟨hown, mem_append_left _ hret⟩
  known := hc.known
  rets e he := by
    rcases mem_append.1 he with he | he
    · exact hc.rets e he
    · rw [mem_singleton.1 he]
      exact ⟨r.write, (hc.running t r ht).1, rfl⟩
  valid := hc.valid

omit [DecidableEq τ]

omit hc in
theorem sum_len (l : List Write) : (l.map Write.len).sum = ∑ c ∈ Finset.range l.length, (l[c]?.map Write.len).getD 0 := by
  induction l with
  | nil => rfl
  | cons x l ih =>
    rw [map_cons, sum_cons, ih, length_cons, Finset.sum_range_succ', Nat.add_comm]
    rfl

/-- What a call has written, which is at most its length. -/
theorem Calls.own_le {c : Nat} (hcx : h.calls[c]? = some x) : (h.own c).flatten.length ≤ x.len := by
  have hv := hc.valid x (mem_of_getElem? hcx)
  rcases hc.done c x hcx with ⟨t, r, ht, rfl⟩ | ⟨hown, -⟩
  · obtain ⟨hr, hown⟩ := hc.running t r ht
    rw [hcx, some_inj] at hr
    rw [hown, ← hr, Write.length_flatten_chunks hv]
    exact min_le_left ..
  · rw [hown, Write.length_flatten_chunks hv]
    exact min_le_left ..

/-- The next chunk fits. -/
theorem Calls.room (ht : call t = some r) (hlt : writeMax * r.done < r.write.len) :
    h.bytes.length + r.size ≤ (h.calls.map Write.len).sum := by
  have hlen := hc.lt_of_running ht
  obtain ⟨hr, hown⟩ := hc.running t r ht
  have hv := hc.valid _ (mem_of_getElem? hr)
  have hsum : r.size =
      ∑ c ∈ Finset.range h.calls.length, if r.call = c then r.size else 0 := by
    rw [Finset.sum_ite_eq, if_pos (Finset.mem_range.2 hlen)]
  rw [h.length_bytes hc.known, sum_len, hsum, ← Finset.sum_add_distrib]
  refine Finset.sum_le_sum fun c hcr => ?_
  have hcx := getElem?_eq_getElem (Finset.mem_range.1 hcr)
  rw [hcx, map_some, getD_some]
  by_cases hrc : r.call = c
  · subst hrc
    rw [hcx, some_inj] at hr
    rw [if_pos rfl, hown, Write.length_flatten_chunks hv, hr]
    unfold Running.size chunkLen
    omega
  · rw [if_neg hrc]
    exact hc.own_le hcx

theorem Calls.le_total : h.bytes.length ≤ (h.calls.map Write.len).sum := by
  rw [h.length_bytes hc.known, sum_len]
  refine Finset.sum_le_sum fun c hcr => ?_
  have hcx := getElem?_eq_getElem (Finset.mem_range.1 hcr)
  rw [hcx, map_some, getD_some]
  exact hc.own_le hcx

/-- All calls have returned. -/
theorem Calls.total (hidle : ∀ t, call t = none) : h.bytes.length = (h.calls.map Write.len).sum := by
  rw [h.length_bytes hc.known, sum_len]
  refine Finset.sum_congr rfl fun c hcr => ?_
  have hcx := getElem?_eq_getElem (Finset.mem_range.1 hcr)
  rw [hcx, map_some, getD_some]
  rcases hc.done c _ hcx with ⟨t, r, ht, -⟩ | ⟨hown, -⟩
  · rw [hidle t] at ht
    cases ht
  · rw [hown, Write.length_flatten_chunks (hc.valid _ (getElem_mem _)), min_eq_left (Write.le_count _)]

end Calls

/-! ## Steps -/

/-- The new state has the same file. -/
structure Same (s s' : Disk.State) : Prop where
  wf : Wf s → Synced s → s.held = [] → Wf s' ∧ Synced s' ∧ s'.held = []
  inum : s'.inum = s.inum
  size : s'.ip.size = s.ip.size
  bytes : ∀ pos, s'.byteAt s.inum pos = s.byteAt s.inum pos

theorem Same.withLog (s : Disk.State) (log : Log) : Same s { s with log } where
  wf h hsync hheld := ⟨h.withLog log, hsync, hheld⟩
  inum := rfl
  size := rfl
  bytes _ := rfl

variable {s0 : Disk.State} {o : Nat} {s : State τ} {γ : τ → Ghost} {t : τ} {g : Ghost}

theorem Inv.same (h : Inv s0 o s γ) {fs : Disk.State} (hs : Same s.file.fs fs) :
    Inv s0 o { s with file := { s.file with fs } } γ := by
  obtain ⟨hwf, hsync, hheld⟩ := hs.wf h.wf h.synced h.held
  refine ⟨h.writable, hwf, hsync, hheld, hs.inum.trans h.inum, h.lock, h.off, hs.size.trans h.size, fun pos => ?_, h.calls⟩
  have := hs.bytes pos
  rw [h.inum] at this
  exact this.trans (h.bytes pos)

variable [DecidableEq τ]

abbrev Spec (s0 : Disk.State) (o : Nat) {α : Type} (t : τ) (p : SProg τ α) (g : Ghost) (Q : α → Ghost → Prop) : Prop :=
  Safe (Fits o) (Inv s0 o) (fun _ => True) t p g Q

/-- A step that does not touch the file. -/
theorem onFs_spec {α : Type} {c : DCmd α} (hc : ∀ fs a fs', c.run fs = .ok a fs' → Same fs fs') :
    Spec s0 o t (onFs c) g fun _ g' => g' = g := by
  refine .step fun s γ h ht => ?_
  cases hrun : (c.zoom (fun s : State τ => s.file.fs) fun s fs => { s with file := { s.file with fs } }).run s with
  | ok a s' =>
    obtain ⟨fs, hfs, rfl⟩ := Cmd.of_run_zoom hrun
    refine fun _ => ⟨g, ?_, rfl⟩
    rw [← ht, update_eq_self]
    exact h.same (hc _ _ _ hfs)
  | wait => trivial
  | panic m => trivial

theorem beginOp_spec : Spec s0 o t (onFs beginOp) g fun _ g' => g' = g :=
  onFs_spec fun fs _ fs' h => by
    rw [of_beginOp h]
    exact .withLog _ _

theorem endOp_spec : Spec s0 o t (onFs endOp) g fun _ g' => g' = g :=
  onFs_spec fun fs _ fs' h => by
    cases h
    exact .withLog _ _

theorem call_update (γ : τ → Ghost) (t : τ) (g : Ghost) :
    (fun u => (update γ t g u).call) = update (fun u => (γ u).call) t g.call := by
  funext u
  exact apply_update (fun _ => Ghost.call) γ t g u

theorem call_update_self (hg : g.call = (γ t).call) : (fun u => (update γ t g u).call) = fun u => (γ u).call := by
  rw [call_update, hg]
  exact update_eq_self t _

theorem ilock_spec (r : Running) : Spec s0 o t ilock
    { call := some r } fun _ g' => g' = { call := some r, phase := .locked } := by
  refine .step fun s γ h ht => ?_
  by_cases hl : s.lock = none
  · rw [if_pos hl]
    refine fun _ => ⟨_, { h with lock := fun u => ?_, off := ?_, calls := ?_ }, rfl⟩
    · rcases eq_or_ne u t with rfl | hu
      · rw [update_self]
        exact iff_of_true rfl (by simp)
      · rw [update_of_ne hu]
        have hold := h.lock u
        rw [hl] at hold
        refine iff_of_false (fun e => hu (some_inj.1 e).symm) fun hp => ?_
        exact Option.some_ne_none _ (hold.2 hp).symm
    · have hoff := h.off
      rw [hl] at hoff
      show _ + (update γ t _ t).phase.pending = _
      rw [update_self]
      exact hoff
    · rw [call_update_self (by rw [ht])]
      exact h.calls
  · rw [if_neg hl]
    trivial

theorem lock_update (h : ∀ u, s.lock = some u ↔ (γ u).phase ≠ .out) (ht : (γ t).phase ≠ .out) (hg : g.phase ≠ .out) (u : τ) :
    s.lock = some u ↔ (update γ t g u).phase ≠ .out := by
  rcases eq_or_ne u t with rfl | hu
  · rw [update_self]
    exact iff_of_true ((h u).2 ht) hg
  · rw [update_of_ne hu]
    exact h u

variable {n c : Nat}

theorem pos_chunkLen (h : c < n) : 0 < chunkLen n c := by
  simp only [chunkLen, writeMax, maxopblocks, bsize]
  omega

theorem chunkLen_lt (n c : Nat) : chunkLen n c < 2 ^ 31 := by
  simp only [chunkLen, writeMax, maxopblocks, bsize]
  omega

/-- The next chunk of a call is written. -/
theorem writeAt_spec {r : Running} (hlt : writeMax * r.done < r.write.len) :
    Spec s0 o t (writeAt r.call r.write.mem (r.write.addr + .ofNat 64 (writeMax * r.done)) r.size)
      { call := some r, phase := .locked } fun v g' => v = r.size ∧
        g' = { call := some { r with done := r.done + 1 }, phase := .wrote r.size } := by
  refine .step fun s γ h ht => ?_
  cases hrun : (writei r.write.mem (r.write.addr + .ofNat 64 (writeMax * r.done)) s.file.off
      (.ofNat 32 r.size)).run s.file.fs with
  | wait => trivial
  | panic m => trivial
  | ok v fs =>
    intro hfits
    have hphase : (γ t).phase = .locked := by rw [ht]
    have hlock : s.lock = some t := (h.lock t).2 (by simp [hphase])
    have hcall : (γ t).call = some r := by rw [ht]
    have hroom := h.calls.room hcall hlt
    have hoff : s.file.off.toNat = o + s.hist.bytes.length := by
      have := h.off
      rw [hlock] at this
      simpa [hphase, Phase.pending] using this
    have hn : r.size < 2 ^ 31 := chunkLen_lt ..
    have hpos : 0 < r.size := pos_chunkLen hlt
    have hlen : (BitVec.ofNat 32 r.size).toNat = r.size :=
      (BitVec.toNat_ofNat ..).trans (Nat.mod_eq_of_lt (by omega))
    have hint : (BitVec.ofNat 32 r.size).toInt = r.size := by
      rw [BitVec.toInt_eq_toNat_of_lt (by omega), hlen]
    have hread : (r.write.chunk r.done).length = r.size :=
      (Write.readable (h.calls.valid _ (mem_of_getElem? (h.calls.running t r hcall).1))).chunk hlt
    have hmax : o + s.hist.bytes.length + r.size ≤ maxfile * bsize := by
      have : ∀ h', Fits o ({ s with file := { s.file with fs }, hist := h' } : State τ) → h'.calls = s.hist.calls →
          o + (s.hist.calls.map Write.len).sum ≤ maxfile * bsize := fun h' hf he => by
        rw [← he]
        exact hf
      have := this _ hfits (by split <;> rfl)
      omega
    rcases of_writei h.wf h.synced h.held hrun with ⟨rfl, rfl, hbad⟩ | ⟨rfl, -, -, hst⟩
    · -- there is room
      have := h.size
      omega
    · rw [hlen] at hst
      change Stored _ _ _ (r.write.chunk r.done) _ at hst
      rw [hint, if_neg (by omega)] at hfits ⊢
      have hbytes : (s.hist.add r.call (r.write.chunk r.done)).bytes.length =
          s.hist.bytes.length + r.size := by
        rw [Hist.bytes_add, length_append, hread]
      refine ⟨_, ⟨h.writable, hst.wf, hst.synced, hst.held.trans h.held, hst.inum.trans h.inum,
        ?_, ?_, ?_, fun pos => ?_, ?_⟩, rfl, rfl⟩
      · exact lock_update h.lock (by simp [hphase]) (by simp)
      · show _ + s.lock.elim 0 _ = o + (s.hist.add r.call (r.write.chunk r.done)).bytes.length
        rw [hlock, hbytes, elim_some, update_self, hoff]
        exact add_assoc ..
      · show fs.ip.size = max _ (o + (s.hist.add r.call (r.write.chunk r.done)).bytes.length)
        rw [hst.size, stopAt, if_neg (not_lt.2 hread.ge), hbytes, h.size]
        omega
      · show fs.byteAt s0.inum pos = if o ≤ pos ∧ pos < o + (s.hist.add r.call (r.write.chunk r.done)).bytes.length then
          (s.hist.add r.call (r.write.chunk r.done)).bytes.getD (pos - o) 0 else _
        have hb := hst.bytes pos
        rw [h.inum, h.bytes pos, hoff] at hb
        rw [hb, hbytes, Hist.bytes_add]
        by_cases hnew : o + s.hist.bytes.length ≤ pos ∧ pos < o + s.hist.bytes.length + (r.write.chunk r.done).length
        · rw [if_pos hnew, if_pos (by omega), getD_append_right _ _ _ _ (by omega)]
          congr 1
          omega
        · rw [if_neg hnew]
          by_cases hold : o ≤ pos ∧ pos < o + s.hist.bytes.length
          · rw [if_pos hold, if_pos (by omega), getD_append _ _ _ _ (by omega)]
          · rw [if_neg hold, if_neg (by omega)]
      · rw [call_update]
        exact h.calls.add hcall

/-- `f->off` follows. -/
theorem advance_spec {r : Option Running} (hpos : 0 < n) :
    Spec s0 o t (advance n) { call := r, phase := .wrote n } fun _ g' => g' = { call := r, phase := .locked } := by
  refine .step fun s γ h ht hfits => ?_
  have hphase : (γ t).phase = .wrote n := by rw [ht]
  have hlock : s.lock = some t := (h.lock t).2 (by simp [hphase])
  have hoff := h.off
  rw [hlock, elim_some, hphase] at hoff
  change _ + n = _ at hoff
  refine ⟨_, { h with lock := ?_, off := ?_, calls := ?_ }, rfl⟩
  · exact lock_update h.lock (by simp [hphase]) (by simp)
  · show (if (n : Int) > 0 then s.file.off + .ofInt 32 n else s.file.off).toNat + s.lock.elim 0 _ = o + s.hist.bytes.length
    have hle := h.calls.le_total
    have hmax : o + (s.hist.calls.map Write.len).sum ≤ maxfile * bsize := hfits
    have hlt : maxfile * bsize < 2 ^ 32 := by decide
    rw [if_pos (by omega), hlock, elim_some, update_self, BitVec.ofInt_natCast, BitVec.toNat_add, BitVec.toNat_ofNat,
      Nat.mod_eq_of_lt (show n < 2 ^ 32 by omega), Nat.mod_eq_of_lt (by omega)]
    exact hoff
  · rw [call_update_self (by rw [ht])]
    exact h.calls

theorem iunlock_spec {r : Option Running} :
    Spec s0 o t iunlock { call := r, phase := .locked } fun _ g' => g' = { call := r } := by
  refine .step fun s γ h ht => ?_
  have hphase : (γ t).phase = .locked := by rw [ht]
  have hlock : s.lock = some t := (h.lock t).2 (by simp [hphase])
  rw [if_pos hlock]
  refine fun _ => ⟨_, { h with lock := fun u => ?_, off := ?_, calls := ?_ }, rfl⟩
  · rcases eq_or_ne u t with rfl | hu
    · rw [update_self]
      exact iff_of_false (by simp) (by simp)
    · rw [update_of_ne hu, ← h.lock u, hlock]
      exact iff_of_false (by simp) fun e => hu (some_inj.1 e).symm
  · have hoff := h.off
    rw [hlock, elim_some, hphase] at hoff
    exact hoff
  · rw [call_update_self (by rw [ht])]
    exact h.calls

theorem writeChunk_spec {r : Running} (hlt : writeMax * r.done < r.write.len) :
    Spec s0 o t (writeChunk r.call r.write.mem (r.write.addr + .ofNat 64 (writeMax * r.done)) r.size)
      { call := some r } fun v g' => v = r.size ∧
        g' = { call := some { r with done := r.done + 1 } } := by
  refine .next beginOp_spec fun _ => ?_
  refine .next (ilock_spec r) fun _ => ?_
  refine .bind (writeAt_spec hlt) ?_
  rintro _ _ ⟨rfl, rfl⟩
  refine .next (advance_spec (pos_chunkLen hlt)) fun _ => ?_
  refine .next iunlock_spec fun _ => ?_
  refine .next endOp_spec fun _ => ?_
  exact .ret ⟨rfl, rfl⟩

/-! ## Calls -/

theorem filewrite_spec {x : Write} (hx : x.valid = true) :
    Spec s0 o t (filewrite c x) { call := some ⟨c, x, 0⟩ } fun v g' => v = x.len ∧ g' = { call := some ⟨c, x, x.count⟩ } := by
  have hn := Write.toInt_eq hx
  refine .bind (R := fun w g' => w = true ∧ g' = { call := some ⟨c, x, 0⟩ }) (.step fun s γ h ht _ => ?_) ?_
  · exact ⟨_, by rw [← ht, update_eq_self]; exact h, h.writable, rfl⟩
  rintro _ _ ⟨rfl, rfl⟩
  rw [if_neg (by decide)]
  -- `k` chunks have been written
  refine .bind (R := fun i g' => i = x.len ∧ g' = { call := some ⟨c, x, x.count⟩ })
    (.loop (J := fun i g => ∃ k, k ≤ x.count ∧ i = min x.len (writeMax * k) ∧ g = { call := some ⟨c, x, k⟩ }) ?_
      ⟨0, Nat.zero_le _, (Nat.min_zero _).symm, rfl⟩) ?_
  · rintro i _ ⟨k, hk, rfl, rfl⟩
    by_cases hlt : writeMax * k < x.len
    · rw [min_eq_right hlt.le, if_pos (by rw [hn]; exact_mod_cast hlt)]
      have hlen : min (x.n.toInt - (writeMax * k : Nat)).toNat writeMax = chunkLen x.len (writeMax * k) := by
        rw [hn, chunkLen]
        congr 1
        omega
      show Safe _ _ _ t ((writeChunk c x.mem _ (min (x.n.toInt - (writeMax * k : Nat)).toNat writeMax)).bind _) _ _
      rw [hlen]
      refine .bind (writeChunk_spec (r := ⟨c, x, k⟩) hlt) ?_
      rintro _ _ ⟨rfl, rfl⟩
      rw [if_neg (by omega), if_neg (by simp)]
      refine .ret ⟨k + 1, Write.lt_count hlt, ?_, rfl⟩
      rw [Write.min_succ, min_eq_right hlt.le]
    · rw [min_eq_left (by omega), if_neg (by rw [hn]; exact Int.lt_irrefl _)]
      refine .ret ⟨rfl, ?_⟩
      rw [le_antisymm hk (Write.count_le (by omega))]
  · rintro _ _ ⟨rfl, rfl⟩
    rw [if_pos hn.symm, hn]
    exact .ret ⟨rfl, rfl⟩

theorem pending_update_self (hg : g.phase = (γ t).phase) :
    (fun u => (update γ t g u).phase.pending) = fun u => (γ u).phase.pending :=
  funext (update_keep (fun g : Ghost => g.phase.pending) rfl (by rw [hg]))

theorem beginCall_spec {x : Write} (hx : x.valid = true) :
    Spec s0 o t (beginCall x) {} fun c g' => g' = { call := some ⟨c, x, 0⟩ } := by
  refine .step fun s γ h ht _ => ⟨_, { h with lock := fun u => ?_, off := ?_, calls := ?_ }, rfl⟩
  · rw [update_keep Ghost.phase rfl (by rw [ht])]
    exact h.lock u
  · rw [pending_update_self (by rw [ht])]
    exact h.off
  · rw [call_update]
    exact h.calls.begin (by rw [ht]) hx

theorem endCall_spec {x : Write} :
    Spec s0 o t (endCall c x.len) { call := some ⟨c, x, x.count⟩ } fun _ g' => g' = {} := by
  refine .step fun s γ h ht _ => ⟨_, { h with lock := fun u => ?_, off := ?_, calls := ?_ }, rfl⟩
  · rw [update_keep Ghost.phase rfl (by rw [ht])]
    exact h.lock u
  · rw [pending_update_self (by rw [ht])]
    exact h.off
  · rw [call_update]
    exact h.calls.ret (r := ⟨c, x, x.count⟩) (by rw [ht]) rfl

/-- What leaves the file alone. -/
def Apart (env : Nat → Disk.State → Disk.State) : Prop := ∀ k s, Same s (env k s)

theorem call_spec {env : Nat → Disk.State → Disk.State} (henv : Apart env) (x : Call)
    (hx : (client (τ := τ) env).allowed t () x = true) :
    Spec s0 o t ((client env).body x ()) {} fun _ g' => g' = {} := by
  cases x with
  | write x =>
    refine .next (beginCall_spec hx) fun c => ?_
    refine .bind (filewrite_spec hx) ?_
    rintro _ _ ⟨rfl, rfl⟩
    exact endCall_spec
  | other k =>
    refine .step fun s γ h ht _ => ⟨_, ?_, rfl⟩
    rw [← ht, update_eq_self]
    exact h.same (henv k _)

omit [DecidableEq τ] in
theorem start_inv {f : OpenFile} (hw : f.writable = true) (h : Wf f.fs) (hsync : Synced f.fs) (hheld : f.fs.held = [])
    (hoff : f.off.toNat ≤ f.fs.ip.size) : Inv (τ := τ) f.fs f.off.toNat ⟨f, none, {}⟩ fun _ => {} where
  writable := hw
  wf := h
  synced := hsync
  held := hheld
  inum := rfl
  lock _ := by simp
  off := rfl
  size := (max_eq_left hoff).symm
  bytes pos := by rw [if_neg fun hp => absurd hp.2 (not_lt.2 hp.1)]
  calls := ⟨by simp, by simp, by simp, by simp, by simp, by simp⟩

end Xv6.Disk.Shared
