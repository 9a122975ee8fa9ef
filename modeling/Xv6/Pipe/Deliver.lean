import Xv6.Pipe.Model
import Xv6.Vm.Copy

/-!
# What `piperead` delivers

The copy loop of `piperead`, with the page table of the reader. The process holds
`pi->lock`, so nobody else moves the indices of the pipe.

A byte is taken out of the ring before it is copied. If the copy fails it is in
neither place. So the bytes taken out are those delivered exactly if the reader's
addresses can be accessed (`piperead_delivers_iff`).
-/

namespace Xv6.Pipe

open BitVec

open Vm (Addr UserFrames userAt Accessible base)

/-- The pipe, and of the reader whether it has been killed, and its memory. -/
structure Reader where
  data : Nat → UInt8
  nread : BitVec 32
  nwrite : BitVec 32
  writeopen : Bool
  killed : Bool
  vm : Vm.State

namespace Reader

/-- The loop of `piperead` that copies, which has copied `i` bytes. -/
def copyLoop (pagetable addr : Addr) (n : BitVec 32) : Nat → Nat → Cmd Reader Nat
  | 0, _ => .hang
  | turns + 1, i =>
    if (i : Int) < n.toInt then do
      let s ← .get id
      if s.nread = s.nwrite then return i
      else
        let ch := s.data (s.nread.toNat % pipesize)
        Cmd.modify fun s => { s with nread := s.nread + 1 }
        let r ← (Vm.copyout pagetable (addr + .ofNat 64 i) (fun _ => ch) 1).zoom Reader.vm fun s vm => { s with vm }
        if r = -1 then return i
        else copyLoop pagetable addr n turns (i + 1)
    else return i

/-- `piperead`. While the pipe is empty and may still be written, it sleeps, and goes
on in a later state of the pipe. -/
def piperead (pagetable addr : Addr) (n : BitVec 32) : Cmd Reader Int := do
  let s ← .get id
  if s.nread = s.nwrite ∧ s.writeopen then
    if s.killed then return -1 else .hang
  else
    let i ← copyLoop pagetable addr n (n.toNat + 1) 0
    return (i : Int)

/-- How many bytes are in the pipe. -/
def avail (s : Reader) : Nat := (s.nwrite - s.nread).toNat

/-- Byte `i` of those in the pipe. -/
def byte (s : Reader) (i : Nat) : UInt8 := s.data ((s.nread + .ofNat 32 i).toNat % pipesize)

end Reader

open Reader

variable {s s' : Reader} {root : Vm.Page} {addr : Addr} {n : BitVec 32}

/-- The first `k` bytes in the pipe have been stored at `addr`, and nothing else has
changed in memory. -/
def Delivered (s : Reader) (root : Vm.Page) (addr : Addr) (k : Nat) (vm : Vm.State) : Prop :=
  (∀ i, i < k → ∃ x, userAt s.vm (base root) (addr + .ofNat 64 i) = some x ∧ vm.mem x = s.byte i) ∧
    ∀ x, (∀ i, i < k → userAt s.vm (base root) (addr + .ofNat 64 i) ≠ some x) → vm.mem x = s.vm.mem x

/-- `copyout` leaves the page table as it is. -/
theorem heap_copyout {vm vm' : Vm.State} {va len : Addr} {src : Bytes} {r : Int} {k : Nat} (hf : UserFrames vm root)
    (h : Vm.CopiedOut vm root va src len r vm' k) : ∀ q ∈ Vm.tree vm root, Vm.heap vm' q = Vm.heap vm q := by
  intro q hq
  refine Vm.heap_congr fun x h1 h2 => h.others x fun i _ hx => ?_
  obtain ⟨e, he, hu, rfl⟩ := Vm.of_userAt hx
  refine hf.apart he hu ?_
  have hqe : (Vm.ppn e) = q := eq_of_toNat_eq (by omega)
  rw [hqe]
  exact hq

/-- The loop after `i` bytes. -/
structure Copied (s : Reader) (root : Vm.Page) (addr : Addr) (i : Nat) (s' : Reader) : Prop where
  nread : s'.nread = s.nread + .ofNat 32 i
  nwrite : s'.nwrite = s.nwrite
  data : s'.data = s.data
  frames : UserFrames s'.vm root
  same : ∀ va, userAt s'.vm (base root) va = userAt s.vm (base root) va
  delivered : Delivered s root addr i s'.vm

theorem Copied.zero (hf : UserFrames s.vm root) : Copied s root addr 0 s where
  nread := (BitVec.add_zero _).symm
  nwrite := rfl
  data := rfl
  frames := hf
  same _ := rfl
  delivered := ⟨nofun, fun _ _ => rfl⟩

/-- Addresses of one range are different. -/
theorem add_ne_add {i j : Nat} (hi : i < 2 ^ 64) (hj : j < i) : addr + .ofNat 64 j ≠ addr + .ofNat 64 i := by
  intro h
  have := congrArg BitVec.toNat (BitVec.add_right_inj addr |>.1 h)
  rw [toNat_ofNat, toNat_ofNat, Nat.mod_eq_of_lt hi, Nat.mod_eq_of_lt (by omega)] at this
  omega

/-- One more byte. -/
theorem Copied.succ {i x : Nat} {vm : Vm.State} (h : Copied s root addr i s') (hi : i < 2 ^ 64)
    (hx : userAt s.vm (base root) (addr + .ofNat 64 i) = some x)
    (hout : Vm.CopiedOut s'.vm root (addr + .ofNat 64 i) (fun _ => s.byte i) 1 0 vm 1) :
    Copied s root addr (i + 1) { s' with nread := s'.nread + 1, vm } := by
  have htree := heap_copyout h.frames hout
  have hbyte : vm.mem x = s.byte i := by
    obtain ⟨y, hy, hval⟩ := hout.bytes 0 (by decide)
    rw [BitVec.add_zero, h.same, hx, Option.some_inj] at hy
    rw [hy]
    exact hval
  have hother : ∀ y, y ≠ x → vm.mem y = s'.vm.mem y := fun y hy => hout.others y fun j hj he => by
    obtain rfl : j = 0 := by omega
    rw [BitVec.add_zero, h.same, hx, Option.some_inj] at he
    exact hy he.symm
  refine ⟨?_, h.nwrite, h.data, h.frames.congr htree, fun va => ?_, fun j hj => ?_, fun y hy => ?_⟩
  · show s'.nread + 1 = _
    rw [h.nread, BitVec.ofNat_add, BitVec.add_assoc]
    rfl
  · rw [← h.same va]
    show userAt vm _ _ = _
    rw [userAt, userAt, Vm.translate_congr htree]
  · by_cases hji : j < i
    · obtain ⟨y, hy, hval⟩ := h.delivered.1 j hji
      refine ⟨y, hy, ?_⟩
      -- the new byte is at another place
      have hne : y ≠ x := fun e => by
        have hy' : userAt s'.vm (base root) (addr + .ofNat 64 j) = some x := by rw [h.same, hy, e]
        have hx' : userAt s'.vm (base root) (addr + .ofNat 64 i) = some x := by rw [h.same, hx]
        exact add_ne_add hi hji (h.frames.inj hy' hx')
      exact (hother y hne).trans hval
    · obtain rfl : j = i := by omega
      exact ⟨x, hx, hbyte⟩
  · have hne : y ≠ x := fun e => hy i (Nat.lt_succ_self i) (e ▸ hx)
    exact (hother y hne).trans (h.delivered.2 y fun j hj => hy j (by omega))

/-- The loop copies up to the end of the request or of the pipe, or up to a byte that
is taken out of the pipe and cannot be stored. -/
theorem copyLoop_spec {turns i : Nat} (h : Copied s root addr i s') (hi : i ≤ min n.toInt.toNat s.avail)
    (hturns : n.toInt.toNat - i < turns) :
    ∃ j s'', (copyLoop (base root) addr n turns i).run s' = .ok j s'' ∧
      ((Copied s root addr j s'' ∧ j = min n.toInt.toNat s.avail) ∨
        (j < min n.toInt.toNat s.avail ∧ userAt s.vm (base root) (addr + .ofNat 64 j) = none ∧
          s''.nread = s.nread + .ofNat 32 (j + 1) ∧ s''.nwrite = s.nwrite ∧ s''.data = s.data)) := by
  have hn : n.toInt.toNat < 2 ^ 31 := by
    have := toInt_lt (x := n)
    omega
  induction turns generalizing i s' with
  | zero => exact nomatch hturns
  | succ turns ih =>
    rw [copyLoop]
    by_cases hlt : (i : Int) < n.toInt
    · rw [if_pos hlt, Cmd.run_get]
      have hend : s'.nread = s'.nwrite ↔ i = s.avail := by
        rw [h.nread, h.nwrite, avail]
        bv_omega
      by_cases hempty : i = s.avail
      · rw [id, if_pos (hend.2 hempty)]
        exact ⟨i, s', rfl, .inl ⟨h, by omega⟩⟩
      · rw [id, if_neg (mt hend.1 hempty)]
        have hbyte : s'.data (s'.nread.toNat % pipesize) = s.byte i := by rw [h.data, h.nread]; rfl
        rw [hbyte, Cmd.run_modify]
        obtain ⟨r, vm, k, hrun, hout⟩ := Vm.copyout_spec h.frames (addr + .ofNat 64 i) (fun _ => s.byte i) 1
        have hzoom : ((Vm.copyout (base root) (addr + .ofNat 64 i) (fun _ => s.byte i) 1).zoom Reader.vm fun s vm =>
          { s with vm }).run
            { s' with nread := s'.nread + 1 } = .ok r { s' with nread := s'.nread + 1, vm } := Cmd.run_zoom hrun
        rw [Cmd.run_bind hzoom]
        rcases hout.result with ⟨rfl, hk⟩ | ⟨rfl, hk, hnone⟩
        · obtain rfl : k = 1 := hk
          obtain ⟨x, hx, -⟩ := hout.bytes 0 (by decide)
          rw [BitVec.add_zero, h.same] at hx
          rw [if_neg (by decide)]
          exact ih (h.succ (by omega) hx hout) (by omega) (by omega)
        · obtain rfl : k = 0 := Nat.lt_one_iff.1 hk
          rw [BitVec.add_zero, h.same] at hnone
          rw [if_pos rfl]
          refine ⟨i, _, rfl, .inr ⟨by omega, hnone, ?_, h.nwrite, h.data⟩⟩
          show s'.nread + 1 = _
          rw [h.nread, BitVec.ofNat_add, BitVec.add_assoc]
          rfl
    · rw [if_neg hlt]
      exact ⟨i, s', rfl, .inl ⟨h, by omega⟩⟩

theorem toNat_advance {k : Nat} (hk : k < 2 ^ 32) : (s.nread + .ofNat 32 k - s.nread).toNat = k := by
  bv_omega

/-- `piperead` returns unless it has to sleep. It leaves what it does not take out of
the pipe. The bytes it takes out are those it stores, if and only if the reader can
access the addresses of all the bytes that are asked for and in the pipe. -/
theorem piperead_delivers_iff (hf : UserFrames s.vm root) (addr : Addr) (n : BitVec 32)
    (hready : s.killed ∨ s.nread ≠ s.nwrite ∨ s.writeopen = false) :
    ∃ r s', (Reader.piperead (base root) addr n).run s = .ok r s' ∧ s'.nwrite = s.nwrite ∧ s'.data = s.data ∧
      (Delivered s root addr (s'.nread - s.nread).toNat s'.vm ↔ Accessible s.vm root addr (min n.toInt.toNat s.avail)) := by
  rw [Reader.piperead, Cmd.run_get, id]
  by_cases hsleep : s.nread = s.nwrite ∧ s.writeopen = true
  · have hkilled : s.killed = true := hready.resolve_right (by simp [hsleep])
    rw [if_pos hsleep, if_pos hkilled]
    refine ⟨-1, s, rfl, rfl, rfl, iff_of_true ?_ fun i hi => ?_⟩
    · rw [BitVec.sub_self]
      exact (Copied.zero hf).delivered
    · rw [avail, hsleep.1, BitVec.sub_self, BitVec.toNat_zero, Nat.min_zero] at hi
      exact nomatch hi
  · rw [if_neg hsleep]
    have hturns : n.toInt.toNat - 0 < n.toNat + 1 := by
      have := toInt_eq_toNat_cond n
      split at this <;> omega
    have hn : n.toInt.toNat < 2 ^ 31 := by
      have := toInt_lt (x := n)
      omega
    obtain ⟨j, s', hrun, hres⟩ := copyLoop_spec (Copied.zero hf) (Nat.zero_le _) hturns
    rw [Cmd.run_bind hrun]
    refine ⟨j, s', rfl, ?_⟩
    rcases hres with ⟨hc, hj⟩ | ⟨hj, hnone, hnread, hnwrite, hdata⟩
    · refine ⟨hc.nwrite, hc.data, ?_⟩
      rw [hc.nread, toNat_advance (by omega), ← hj]
      refine iff_of_true hc.delivered fun i hi => ?_
      obtain ⟨x, hx, -⟩ := hc.delivered.1 i hi
      rw [hx]
      rfl
    · refine ⟨hnwrite, hdata, ?_⟩
      rw [hnread, toNat_advance (by omega)]
      refine iff_of_false (fun hd => ?_) fun hacc => ?_
      · -- the byte `j` has been taken out, and has no place
        obtain ⟨x, hx, -⟩ := hd.1 j (Nat.lt_succ_self j)
        rw [hnone] at hx
        cases hx
      · have := hacc j hj
        rw [hnone] at this
        cases this

/-- A pipe with one byte in it. -/
def oneByte (vm : Vm.State) : Reader := ⟨fun _ => 65, 0, 1, true, false, vm⟩

/-- Two bytes around the end of the buffer, which the reader wants around the end of a page. -/
theorem piperead_delivers_iff_first : ∃ vm, UserFrames vm Vm.emptyRoot ∧
    ∃ r s', (Reader.piperead (base Vm.emptyRoot) 4095 2).run ⟨fun _ => 65, 511, 513, true, false, vm⟩ = .ok r s' ∧
      Delivered ⟨fun _ => 65, 511, 513, true, false, vm⟩ Vm.emptyRoot 4095 (s'.nread - 511).toNat s'.vm := by
  obtain ⟨vm, hf, hacc, -⟩ := Vm.exists_twoPages
  obtain ⟨r, s', hrun, -, -, hiff⟩ := piperead_delivers_iff (s := ⟨fun _ => 65, 511, 513, true, false, vm⟩) hf 4095 2
    (.inr (.inl (by dsimp only; decide)))
  refine ⟨vm, hf, r, s', hrun, hiff.2 fun i hi => ?_⟩
  have hi2 : i < 2 := lt_of_lt_of_le hi (min_le_left ..)
  have h := hacc (4095 + i) (by omega)
  rwa [BitVec.ofNat_add, ← BitVec.add_assoc] at h

/-- The reader has no memory at all: the call returns 0, nothing is stored, and the
pipe is empty. -/
theorem piperead_loses_byte : UserFrames Vm.blank Vm.emptyRoot ∧ (∀ va, userAt Vm.blank (base Vm.emptyRoot) va = none) ∧
    (oneByte Vm.blank).avail = 1 ∧
    ∃ s', (Reader.piperead (base Vm.emptyRoot) 0 1).run (oneByte Vm.blank) = .ok 0 s' ∧ s'.avail = 0 := by
  refine ⟨Vm.userFrames_blank, Vm.userAt_blank, rfl, ?_⟩
  have htest : ((Reader.piperead (base Vm.emptyRoot) 0 1).run (oneByte Vm.blank)).test
      (fun r s' => decide (r = 0 ∧ s'.avail = 0)) = true := by decide +kernel
  obtain ⟨r, s', hrun, hp⟩ := Res.test_iff.1 htest
  obtain ⟨rfl, havail⟩ := of_decide_eq_true hp
  exact ⟨s', hrun, havail⟩

end Xv6.Pipe
