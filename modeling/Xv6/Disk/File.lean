import Xv6.Disk.Contents
import Xv6.Vm.Copy

/-!
# `filewrite`

A write to a file of an inode goes in chunks of at most `3 * BSIZE` bytes, each in
a transaction of its own; `f->off` advances by what `writei` returns.

`writei` returns `n` also when a byte could not be copied, and then the file has
neither the bytes nor the size, but `f->off` has advanced. So the value that
`filewrite` returns and `f->off` are right exactly if the bytes can be read
(`filewrite_spec`).
-/

namespace Xv6.Disk

open List BitVec

variable {m j : Nat} {l : List UInt8} {r : Int}

/-- `struct file`, and the file system. -/
structure OpenFile where
  writable : Bool
  off : BitVec 32
  fs : State

abbrev FCmd := Cmd OpenFile

def onFs {α : Type} (c : DCmd α) : FCmd α := Cmd.zoom OpenFile.fs (fun f fs => { f with fs }) c

/-- `begin_op`, which waits until there is room in the log for one more system call. -/
def beginOp : DCmd Unit := do
  let s ← .get id
  if s.log.lh.length + (s.log.outstanding + 1) * maxopblocks > logsize then .hang
  else Cmd.modify fun s => { s with log := { s.log with outstanding := s.log.outstanding + 1 } }

/-- `end_op`; the last system call commits, which empties the log. -/
def endOp : DCmd Unit :=
  Cmd.modify fun s => { s with
    log := { outstanding := s.log.outstanding - 1, lh := if s.log.outstanding = 1 then [] else s.log.lh } }

/-- The bytes that are written at a time: there is room for the i-node, the
indirect block, allocation blocks, and 2 blocks of slop for non-aligned writes. -/
abbrev writeMax : Nat := (maxopblocks - 1 - 1 - 2) / 2 * bsize

/-- A chunk of `n1` bytes at `addr`, in a transaction of its own. -/
def writeChunk (mem : Mem) (addr : BitVec 64) (n1 : Nat) : FCmd Int := do
  onFs beginOp
  let off ← .get OpenFile.off
  let r ← onFs (writei mem addr off (.ofNat 32 n1))
  Cmd.modify fun f => if r > 0 then { f with off := f.off + .ofInt 32 r } else f
  onFs endOp
  return r

/-- The loop of `filewrite`, which has written `i` bytes. The value is `i` at its
end. -/
def filewriteLoop (mem : Mem) (addr : BitVec 64) (n : BitVec 32) : Nat → Nat → FCmd Nat
  | 0, _ => .hang
  | turns + 1, i =>
    if (i : Int) < n.toInt then do
      let n1 := min (n.toInt - i).toNat writeMax
      let r ← writeChunk mem (addr + .ofNat 64 i) n1
      if r < 0 then return i
      else if r ≠ n1 then .panic "short filewrite"
      else filewriteLoop mem addr n turns (i + n1)
    else return i

/-- Write to a file of an inode. -/
def filewrite (mem : Mem) (addr : BitVec 64) (n : BitVec 32) : FCmd Int := do
  let writable ← .get OpenFile.writable
  if writable = false then return -1
  else
    let i ← filewriteLoop mem addr n (n.toNat + 1) 0
    return if (i : Int) = n.toInt then n.toInt else -1

/-! ## Readable ranges -/

/-- All `n` bytes at `addr` can be read. -/
def Readable (mem : Mem) (addr : BitVec 64) (n : Nat) : Prop := (copyin mem addr n).length = n

instance (mem : Mem) (addr : BitVec 64) (n : Nat) : Decidable (Readable mem addr n) := inferInstanceAs (Decidable (_ = _))

variable {mem : Mem} {addr : BitVec 64}

theorem readable_add {n : Nat} : Readable mem addr (m + n) ↔ Readable mem addr m ∧ Readable mem (addr + .ofNat 64 m) n := by
  have hle := length_copyin_le mem addr m
  have hle' := length_copyin_le mem (addr + .ofNat 64 m) n
  unfold Readable
  rw [copyin_add]
  split
  · omega
  · rw [length_append]
    omega

theorem Readable.mono {n : Nat} (h : Readable mem addr n) (hle : m ≤ n) : Readable mem addr m := by
  rw [← Nat.add_sub_cancel' hle, readable_add] at h
  exact h.1

theorem copyin_readable {n : Nat} (h : Readable mem addr m) :
    copyin mem addr (m + n) = copyin mem addr m ++ copyin mem (addr + .ofNat 64 m) n := by
  rw [copyin_add, if_neg (by unfold Readable at h; omega)]

/-! ## A chunk -/

/-- The length of the chunk that begins after `c` of `n` bytes. -/
def chunkLen (n c : Nat) : Nat := min (n - c) writeMax

variable {s0 s s' : State} {o n i : Nat} {f f' : OpenFile}

/-- Each of the chunks in the first `i` bytes could be read, or was in the file
already. -/
def Fine (s0 : State) (mem : Mem) (addr : BitVec 64) (o n i : Nat) : Prop :=
  ∀ c, c < i → c % writeMax = 0 → Readable mem (addr + .ofNat 64 c) (chunkLen n c) ∨ o + c + chunkLen n c ≤ s0.ip.size

/-- The file after `i` bytes of the `n` bytes at `o`. -/
structure Progress (s0 : State) (mem : Mem) (addr : BitVec 64) (o n i : Nat) (f : OpenFile) : Prop where
  wf : Wf f.fs
  synced : Synced f.fs
  held : f.fs.held = []
  inum : f.fs.inum = s0.inum
  off : f.off.toNat = o + i
  bound : o + i ≤ maxfile * bsize
  within : o + i ≤ f.fs.ip.size ↔ Fine s0 mem addr o n i
  size : Fine s0 mem addr o n i → f.fs.ip.size = max s0.ip.size (o + i)
  bytes : Readable mem addr i → ∀ pos, o ≤ pos → pos < o + i → f.fs.byteAt s0.inum pos = (copyin mem addr i).getD (pos - o) 0

theorem chunkLen_pos (h : i < n) : 0 < chunkLen n i := Nat.lt_min.2 ⟨Nat.sub_pos_of_lt h, by decide⟩

theorem fine_zero : Fine s0 mem addr o n 0 := nofun

/-- One chunk more. -/
theorem fine_add (hi : i % writeMax = 0) (hlt : i < n) :
    Fine s0 mem addr o n (i + chunkLen n i) ↔
      Fine s0 mem addr o n i ∧ (Readable mem (addr + .ofNat 64 i) (chunkLen n i) ∨ o + i + chunkLen n i ≤ s0.ip.size) := by
  have hpos := chunkLen_pos hlt
  constructor
  · intro h
    exact ⟨fun c hc => h c (by omega), h i (by omega) hi⟩
  · rintro ⟨h, h'⟩ c hc hmod
    by_cases hci : c < i
    · exact h c hci hmod
    · obtain rfl : c = i := by
        simp only [chunkLen, writeMax, maxopblocks, bsize] at *
        omega
      exact h'

theorem stopAt_lt (off : Nat) {n : Nat} (h : l.length < n) : stopAt off n l < off + n := by
  rw [stopAt, if_pos h]
  have := Nat.div_mul_le_self (off + l.length) bsize
  omega

/-- After a chunk. -/
theorem Progress.add (h : Progress s0 mem addr o n i f) (hi : i % writeMax = 0) (hlt : i < n) (hoff : o + i ≤ f.fs.ip.size)
    (hmax : o + i + chunkLen n i ≤ maxfile * bsize)
    (hst : Stored f.fs (o + i) (chunkLen n i) (copyin mem (addr + .ofNat 64 i) (chunkLen n i)) f'.fs)
    (hoff' : f'.off.toNat = o + i + chunkLen n i) : Progress s0 mem addr o n (i + chunkLen n i) f' := by
  have hpos := chunkLen_pos hlt
  have hfine := h.within.1 hoff
  have hsize := h.size hfine
  have hle := length_copyin_le mem (addr + .ofNat 64 i) (chunkLen n i)
  have hsize' := hst.size
  have hin : o + (i + chunkLen n i) ≤ f'.fs.ip.size ↔
      Readable mem (addr + .ofNat 64 i) (chunkLen n i) ∨ o + i + chunkLen n i ≤ s0.ip.size := by
    unfold Readable
    by_cases hlen : (copyin mem (addr + .ofNat 64 i) (chunkLen n i)).length < chunkLen n i
    · have := stopAt_lt (o + i) hlen
      omega
    · rw [stopAt, if_neg hlen] at hsize'
      omega
  refine ⟨hst.wf, hst.synced, hst.held.trans h.held, hst.inum.trans h.inum, by omega, by omega,
    ?_, fun hf => ?_, fun hread pos h1 h2 => ?_⟩
  · rw [fine_add hi hlt, hin]
    exact ⟨fun hr => ⟨hfine, hr⟩, And.right⟩
  · have := hin.2 ((fine_add hi hlt).1 hf).2
    have hstop : stopAt (o + i) (chunkLen n i) (copyin mem (addr + .ofNat 64 i) (chunkLen n i)) ≤ o + i + chunkLen n i :=
      stopAt_le
    omega
  · obtain ⟨hr1, hr2⟩ := readable_add.1 hread
    rw [← h.inum, hst.bytes, copyin_readable hr1]
    unfold Readable at hr1 hr2
    by_cases hnew : o + i ≤ pos
    · rw [if_pos (by omega), getD_append_right _ _ _ _ (by omega)]
      congr 1
      omega
    · rw [if_neg (by omega), getD_append _ _ _ _ (by omega), h.inum]
      exact h.bytes hr1 pos h1 (by omega)

theorem Wf.withLog (h : Wf s) (log : Log) : Wf { s with log } := ⟨h.layout, h.owned, h.fits, h.present, h.current⟩

theorem Progress.withLog (h : Progress s0 mem addr o n i f) (log : Log) : Progress s0 mem addr o n i
    { f with fs := { f.fs with log } } :=
  { h with wf := h.wf.withLog log }

theorem of_beginOp {x : Unit} (h : (beginOp).run s = .ok x s') :
    s' = { s with log := { s.log with outstanding := s.log.outstanding + 1 } } := by
  unfold beginOp at h
  rw [Cmd.run_get] at h
  split at h
  · cases h
  · cases h
    rfl

/-- What `writei` does if it returns. -/
theorem of_writei {src : BitVec 64} {off n : BitVec 32} (h : Wf s) (hsync : Synced s) (hheld : s.held = [])
    (hrun : (writei mem src off n).run s = .ok r s') :
    (r = -1 ∧ s' = s ∧ (s.ip.size < off.toNat ∨ maxfile * bsize < off.toNat + n.toNat)) ∨
    (r = n.toInt ∧ off.toNat ≤ s.ip.size ∧ off.toNat + n.toNat ≤ maxfile * bsize ∧
        Stored s off.toNat n.toNat (copyin mem src n.toNat) s') := by
  by_cases hok : off.toNat ≤ s.ip.size ∧ off.toNat + n.toNat ≤ maxfile * bsize
  · have hr : Room (fun _ => True) s (s.writeLogged off.toNat n.toNat) := ⟨.inr trivial, .inr ⟨trivial, trivial⟩⟩
    obtain ⟨hr, hst, -⟩ := (writei_spec mem src off n h hsync hheld hok.1 hok.2 (fun _ => hr) (.inr trivial)).of_ok hrun
    exact .inr ⟨hr, hok.1, hok.2, hst⟩
  · have hbad : s.ip.size < off.toNat ∨ maxfile * bsize < off.toNat + n.toNat := by omega
    rw [writei_fails mem src off n (by omega)] at hrun
    cases hrun
    exact .inl ⟨rfl, rfl, hbad⟩

/-- What a chunk does if it returns. -/
theorem writeChunk_spec (h : Progress s0 mem addr o n i f) (hi : i % writeMax = 0) (hlt : i < n)
    (hrun : (writeChunk mem (addr + .ofNat 64 i) (chunkLen n i)).run f = .ok r f') :
    (r = -1 ∧ Progress s0 mem addr o n i f' ∧ (¬Fine s0 mem addr o n i ∨ maxfile * bsize < o + i + chunkLen n i)) ∨
    (r = chunkLen n i ∧ Progress s0 mem addr o n (i + chunkLen n i) f') := by
  obtain ⟨_, f1, h1, hrun⟩ := Cmd.of_run_bind hrun
  obtain ⟨_, hbegin, rfl⟩ := Cmd.of_run_zoom h1
  obtain rfl := of_beginOp hbegin
  rw [Cmd.run_get] at hrun
  obtain ⟨r', f2, h2, hrun⟩ := Cmd.of_run_bind hrun
  obtain ⟨fs, hwrite, rfl⟩ := Cmd.of_run_zoom h2
  have hp := h.withLog { f.fs.log with outstanding := f.fs.log.outstanding + 1 }
  have hlen : (BitVec.ofNat 32 (chunkLen n i)).toNat = chunkLen n i := by
    refine toNat_ofNat .. |>.trans (Nat.mod_eq_of_lt ?_)
    simp only [chunkLen, writeMax, maxopblocks, bsize]
    omega
  have hpos := chunkLen_pos hlt
  rw [Cmd.run_modify] at hrun
  cases hrun
  rcases of_writei hp.wf hp.synced hp.held hwrite with ⟨rfl, rfl, hbad⟩ | ⟨rfl, hoff, hmax, hst⟩
  · refine .inl ⟨rfl, h.withLog _, ?_⟩
    have hsize : f.fs.ip.size < f.off.toNat ∨ maxfile * bsize < f.off.toNat + chunkLen n i := hlen ▸ hbad
    rw [h.off] at hsize
    refine hsize.imp_left fun hgt hfine => ?_
    have := h.within.2 hfine
    omega
  · have hint : (BitVec.ofNat 32 (chunkLen n i)).toInt = chunkLen n i := by
      rw [toInt_eq_toNat_of_lt, hlen]
      rw [hlen]
      simp only [chunkLen, writeMax, maxopblocks, bsize]
      omega
    have hbv : BitVec.ofInt 32 (chunkLen n i : Int) = .ofNat 32 (chunkLen n i) := ofInt_natCast ..
    rw [hlen] at hmax hst
    change f.off.toNat ≤ f.fs.ip.size at hoff
    change f.off.toNat + _ ≤ _ at hmax
    change Stored _ f.off.toNat _ _ _ at hst
    rw [h.off] at hoff hmax hst
    refine .inr ⟨hint, ?_⟩
    rw [hint, if_pos (by omega), hbv]
    have hnext : Progress s0 mem addr o n (i + chunkLen n i) { f with off := f.off + .ofNat 32 (chunkLen n i), fs := fs } := by
      refine hp.add hi hlt hoff hmax hst ?_
      show (f.off + .ofNat 32 (chunkLen n i)).toNat = _
      have : maxfile * bsize < 2 ^ 32 := by decide
      rw [toNat_add, hlen, h.off]
      omega
    exact hnext.withLog _

/-! ## The loop -/

theorem filewriteLoop_spec {n : BitVec 32} {turns : Nat} (h : Progress s0 mem addr o n.toInt.toNat i f)
    (hi : i % writeMax = 0 ∨ i = n.toInt.toNat) (hle : i ≤ n.toInt.toNat)
    (hrun : (filewriteLoop mem addr n turns i).run f = .ok j f') :
    Progress s0 mem addr o n.toInt.toNat j f' ∧ j ≤ n.toInt.toNat ∧ (j < n.toInt.toNat → j % writeMax = 0 ∧
      (¬Fine s0 mem addr o n.toInt.toNat j ∨ maxfile * bsize < o + j + chunkLen n.toInt.toNat j)) := by
  induction turns generalizing f i with
  | zero => cases hrun
  | succ turns ih =>
    rw [filewriteLoop] at hrun
    by_cases hlt : (i : Int) < n.toInt
    · have hlt' : i < n.toInt.toNat := by omega
      have hi' := hi.resolve_right (by omega)
      have hlen : min (n.toInt - i).toNat writeMax = chunkLen n.toInt.toNat i := by
        rw [chunkLen]
        congr 1
        omega
      rw [if_pos hlt] at hrun
      rw [hlen] at hrun
      obtain ⟨r, f1, hchunk, hrun⟩ := Cmd.of_run_bind hrun
      rcases writeChunk_spec h hi' hlt' hchunk with ⟨rfl, hp, hstop⟩ | ⟨rfl, hp⟩
      · rw [if_pos (by decide)] at hrun
        cases hrun
        exact ⟨hp, hle, fun _ => ⟨hi', hstop⟩⟩
      · rw [if_neg (by omega), if_neg (by simp)] at hrun
        have hnext : (i + chunkLen n.toInt.toNat i) % writeMax = 0 ∨ i + chunkLen n.toInt.toNat i = n.toInt.toNat := by
          simp only [chunkLen, writeMax, maxopblocks, bsize] at *
          omega
        have hle' : i + chunkLen n.toInt.toNat i ≤ n.toInt.toNat := by
          omega
        exact ih hp hnext hle' hrun
    · rw [if_neg hlt] at hrun
      cases hrun
      exact ⟨h, hle, fun hlt' => absurd hlt' (by omega)⟩

/-- The bytes that a write of `n` bytes can read: all of them, if the file has room
for them; otherwise those of the chunks that it has room for, as far as they would
make it grow. -/
def WriteOk (f : OpenFile) (mem : Mem) (addr : BitVec 64) (n : Nat) : Prop :=
  if f.off.toNat + n ≤ maxfile * bsize then Readable mem addr n
  else ∀ c, c < n → c % writeMax = 0 → f.off.toNat + c + chunkLen n c ≤ maxfile * bsize →
    Readable mem (addr + .ofNat 64 c) (chunkLen n c) ∨ f.off.toNat + c + chunkLen n c ≤ f.fs.ip.size

theorem Readable.chunk {n c : Nat} (h : Readable mem addr n) (hc : c < n) : Readable mem (addr + .ofNat 64 c)
    (chunkLen n c) := by
  have hle : c + chunkLen n c ≤ n := by
    unfold chunkLen
    omega
  exact (readable_add.1 (h.mono hle)).2

/-- The loop has stopped before the end; then `f->off` is in the file just if the
bytes could be read. -/
theorem fine_iff_writeOk {n : Nat} (hj : j < n) (hmod : j % writeMax = 0) (hbound : f.off.toNat + j ≤ maxfile * bsize)
    (hstop : ¬Fine f.fs mem addr f.off.toNat n j ∨ maxfile * bsize < f.off.toNat + j + chunkLen n j) :
    Fine f.fs mem addr f.off.toNat n j ↔ WriteOk f mem addr n := by
  have hlen : j + chunkLen n j ≤ n := by
    unfold chunkLen
    omega
  unfold WriteOk
  split
  · refine ⟨fun hf => ?_, fun hr c hc _ => .inl (hr.chunk (by omega))⟩
    have := hstop.resolve_left (not_not.2 hf)
    omega
  · constructor
    · intro hf c hc hc' hmax
      -- a later chunk does not fit either
      have hmax' := hstop.resolve_left (not_not.2 hf)
      refine hf c ?_ hc'
      by_contra hge
      have : chunkLen n j ≤ c + chunkLen n c - j := by
        simp only [chunkLen, writeMax, maxopblocks, bsize] at *
        omega
      omega
    · intro hok c hc hc'
      have : c + chunkLen n c ≤ j := by
        simp only [chunkLen, writeMax, maxopblocks, bsize] at *
        omega
      exact hok c (by omega) hc' (by omega)

/-- What has been read is in the file. -/
theorem Progress.contents (h : Progress s0 mem addr o n i f) (hread : Readable mem addr i) (hin : o + i ≤ f.fs.ip.size) :
    ((f.fs.contents s0.inum).drop o).take i = copyin mem addr i := by
  have hsize : (f.fs.inode s0.inum).size = f.fs.ip.size := by rw [← h.inum, State.inode_self]
  have hlen : (copyin mem addr i).length = i := hread
  refine ext_getElem ?_ fun k h1 h2 => ?_
  · rw [length_take, length_drop, length_contents, hsize, hlen]
    omega
  · have hk : k < i := by omega
    simp only [State.contents, getElem_take, getElem_drop, getElem_map, getElem_range]
    rw [h.bytes hread (o + k) (by omega) (by omega), Nat.add_sub_cancel_left, getD_eq_getElem _ _ (by omega)]

theorem filewrite_iff (mem : Mem) (addr : BitVec 64) (n : BitVec 32) (h : Wf f.fs) (hsync : Synced f.fs)
    (hheld : f.fs.held = [])
    (hoff : f.off.toNat ≤ f.fs.ip.size) (hrun : (filewrite mem addr n).run f = .ok r f') :
    ((0 ≤ r → ((f'.fs.contents f.fs.inum).drop f.off.toNat).take r.toNat = copyin mem addr r.toNat ∧
      Readable mem addr r.toNat ∧
        f'.off.toNat = f.off.toNat + r.toNat) ∧ f'.off.toNat ≤ f'.fs.ip.size) ↔
      f.writable = false ∨ WriteOk f mem addr n.toInt.toNat := by
  unfold filewrite at hrun
  rw [Cmd.run_get] at hrun
  by_cases hw : f.writable = false
  · rw [if_pos hw] at hrun
    cases hrun
    exact ⟨fun _ => .inl hw, fun _ => ⟨fun h => absurd h (by decide), hoff⟩⟩
  · rw [if_neg hw] at hrun
    obtain ⟨j, f1, hloop, hret⟩ := Cmd.of_run_bind hrun
    cases hret
    have hmax : f.off.toNat + 0 ≤ maxfile * bsize := hoff.trans h.ip_fits.size
    have hstart : Progress f.fs mem addr f.off.toNat n.toInt.toNat 0 f :=
      ⟨h, hsync, hheld, rfl, rfl, hmax, iff_of_true hoff fine_zero, fun _ => (Nat.max_eq_left hoff).symm,
        fun _ pos _ _ => by omega⟩
    obtain ⟨hp, hle, hstop⟩ := filewriteLoop_spec hstart (.inl rfl) (Nat.zero_le _) hloop
    rw [or_iff_right hw]
    by_cases hj : (j : Int) = n.toInt
    · -- the whole write was done
      have hjn : n.toInt.toNat = j := by omega
      rw [if_pos hj, WriteOk, hjn, if_pos hp.bound]
      constructor
      · rintro ⟨hpos, -⟩
        exact (hpos (by omega)).2.1
      · intro hread
        have hfine : Fine f.fs mem addr f.off.toNat n.toInt.toNat j := fun c hc _ => .inl (by rw [hjn]; exact hread.chunk hc)
        have hin := hp.within.2 hfine
        exact ⟨fun _ => ⟨hp.contents hread hin, hread, hp.off⟩, hp.off ▸ hin⟩
    · rw [if_neg hj, hp.off, hp.within]
      have hneg : ∀ {p : Prop}, (0 ≤ (-1 : Int) → p) ↔ True := iff_true_intro fun h => nomatch h
      rw [hneg, true_and]
      by_cases hlt : j < n.toInt.toNat
      · exact fine_iff_writeOk hlt (hstop hlt).1 hp.bound (hstop hlt).2
      · -- `n` is negative
        obtain rfl : j = 0 := by omega
        have hn : n.toInt.toNat = 0 := by omega
        refine iff_of_true fine_zero ?_
        rw [WriteOk, hn, if_pos hmax]
        rfl

/-! ## User memory -/

section User

open Vm

variable {vm : Vm.State} {root : Page}

/-- A copy up to the first byte that cannot be read is the only one. -/
theorem copyin_eq_of_bytes {mem : Mem} {addr : BitVec 64} {n : Nat} (hle : l.length ≤ n)
    (hbytes : ∀ i, i < l.length → mem (addr + .ofNat 64 i) = l[i]?)
      (hend : l.length < n → mem (addr + .ofNat 64 l.length) = none) :
    copyin mem addr n = l := by
  induction l generalizing addr n with
  | nil =>
    cases n with
    | zero => rfl
    | succ n =>
      have := hend (Nat.succ_pos n)
      rw [length_nil, BitVec.add_zero] at this
      rw [copyin, this]
  | cons x l ih =>
    cases n with
    | zero => exact absurd hle (Nat.not_succ_le_zero _)
    | succ n =>
      have hx := hbytes 0 (Nat.succ_pos _)
      rw [BitVec.add_zero] at hx
      have hnext : ∀ i, addr + 1 + .ofNat 64 i = addr + .ofNat 64 (i + 1) := fun i => by
        rw [BitVec.add_assoc, add_comm i 1, BitVec.ofNat_add]
        rfl
      rw [copyin, hx]
      refine congrArg (x :: ·) (ih (Nat.le_of_succ_le_succ hle) (fun i hi => ?_) fun hlt => ?_)
      · rw [hnext]
        exact hbytes (i + 1) (Nat.succ_lt_succ hi)
      · rw [hnext]
        exact hend (Nat.succ_lt_succ hlt)

/-- The kernel's `copyin` reads user memory byte by byte. -/
theorem copyin_userByte (hf : UserFrames vm root) (va len : Addr) :
    (Vm.copyin (base root) va len).run vm =
      .ok (if Readable (userByte vm root) va len.toNat then 0 else -1, copyin (userByte vm root) va len.toNat) vm := by
  obtain ⟨r, l, hrun, h⟩ := Vm.copyin_spec hf va len
  have hle : l.length ≤ len.toNat := by
    rcases h.result with ⟨-, hl⟩ | ⟨-, hl, -⟩ <;> omega
  have hcopy : copyin (userByte vm root) va len.toNat = l := by
    refine copyin_eq_of_bytes hle (fun i hi => (getElem?_userByte (h.bytes i hi)).symm) fun hlt => ?_
    rcases h.result with ⟨-, hl⟩ | ⟨-, -, hnone⟩
    · omega
    · rw [userByte, hnone]
      rfl
  have hread : Readable (userByte vm root) va len.toNat ↔ l.length = len.toNat := by rw [Readable, hcopy]
  rw [hrun, hcopy]
  rcases h.result with ⟨rfl, hl⟩ | ⟨rfl, hl, -⟩
  · rw [if_pos (hread.2 hl)]
  · rw [if_neg (mt hread.1 hl.ne)]

/-- `filewrite` returns what it has written, and `f->off` stays in the file,
exactly if the bytes of the user can be read. -/
theorem filewrite_wrote_iff (hf : UserFrames vm root) (addr : BitVec 64) (n : BitVec 32) (h : Wf f.fs) (hsync : Synced f.fs)
    (hheld : f.fs.held = []) (hoff : f.off.toNat ≤ f.fs.ip.size) :
    (∀ va len, (Vm.copyin (base root) va len).run vm =
      .ok (if Readable (userByte vm root) va len.toNat then 0 else -1, copyin (userByte vm root) va len.toNat) vm) ∧
    ∀ r f', (filewrite (userByte vm root) addr n).run f = .ok r f' →
      (((0 ≤ r → ((f'.fs.contents f.fs.inum).drop f.off.toNat).take r.toNat = copyin (userByte vm root) addr r.toNat ∧
          Readable (userByte vm root) addr r.toNat ∧ f'.off.toNat = f.off.toNat + r.toNat) ∧ f'.off.toNat ≤ f'.fs.ip.size) ↔
        f.writable = false ∨ WriteOk f (userByte vm root) addr n.toInt.toNat) :=
  ⟨copyin_userByte hf, fun _ _ hrun => filewrite_iff _ addr n h hsync hheld hoff hrun⟩

end User

namespace Small

/-- The empty file, opened. -/
def opened : OpenFile := { writable := true, off := 0, fs := { disk with log := { outstanding := 0, lh := [] } } }

/-- Two pages of zeros. -/
def zeros : Mem := fun a => if a.toNat < 8192 then some 0 else none

theorem exists_zeros : ∃ vm, Vm.UserFrames vm Vm.emptyRoot ∧ Vm.userByte vm Vm.emptyRoot = zeros := by
  obtain ⟨s, hf, hacc, hnone⟩ := Vm.exists_twoPages
  obtain ⟨r, s', k, -, h⟩ := Vm.copyout_spec hf 0 (fun _ => 0) 8192
  obtain rfl := h.iff.2 hacc
  obtain ⟨hf', hu⟩ := h.userAt_eq hf
  have hk : k = 8192 := h.result.elim And.right fun hr => absurd hr.1 (by decide)
  refine ⟨s', hf', funext fun va => ?_⟩
  rw [Vm.userByte, hu, zeros]
  by_cases hva : va.toNat < 8192
  · obtain ⟨y, hy, hz⟩ := h.bytes va.toNat (hk ▸ hva)
    rw [show 0 + .ofNat 64 va.toNat = va by simp] at hy
    rw [hy, if_pos hva, Option.map_some, hz]
  · rw [hnone va (not_lt.1 hva), if_neg hva]
    rfl

end Small

set_option maxRecDepth 100000 in
/-- A write of two chunks, from two pages. -/
theorem filewrite_wrote_iff_first : ∃ vm, Vm.UserFrames vm Vm.emptyRoot ∧
    ∃ f', (filewrite (Vm.userByte vm Vm.emptyRoot) 4000 3073).run Small.opened = .ok 3073 f' ∧
      f'.off.toNat ≤ f'.fs.ip.size := by
  obtain ⟨vm, hf, hmem⟩ := Small.exists_zeros
  have htest : ((filewrite Small.zeros 4000 3073).run Small.opened).test
    (fun r _ => decide (r = 3073)) = true := by decide +kernel
  obtain ⟨r, f', hrun, hr⟩ := Res.test_iff.1 htest
  obtain rfl := of_decide_eq_true hr
  have hread : Readable Small.zeros 4000 3073 := by decide +kernel
  rw [← hmem] at hrun hread
  have hiff := (filewrite_wrote_iff hf 4000 3073 (Small.wf.withLog _) Small.synced rfl (Nat.zero_le _)).2 3073 f' hrun
  exact ⟨vm, hf, f', hrun, (hiff.2 (.inr (by rw [WriteOk, if_pos (by decide)]; exact hread))).2⟩

theorem userByte_blank (va : Vm.Addr) : Vm.userByte Vm.blank Vm.emptyRoot va = none := by
  rw [Vm.userByte, Vm.userAt_blank]
  rfl

/-- A byte that cannot be read: `filewrite` returns 1, and `f->off` is 1, but the
file is empty as before. -/
theorem filewrite_unreadable : Vm.UserFrames Vm.blank Vm.emptyRoot ∧ Wf Small.opened.fs ∧ Synced Small.opened.fs ∧
    ∃ f', (filewrite (Vm.userByte Vm.blank Vm.emptyRoot) 0 1).run Small.opened = .ok 1 f' ∧ f'.off = 1 ∧
      f'.fs.ip.size = 0 := by
  have hblank : Vm.userByte Vm.blank Vm.emptyRoot = fun _ => none := funext userByte_blank
  refine ⟨Vm.userFrames_blank, Small.wf.withLog _, Small.synced, ?_⟩
  rw [hblank]
  have htest : ((filewrite (fun _ => none) 0 1).run Small.opened).test
      (fun r f' => decide (r = 1 ∧ f'.off = 1 ∧ f'.fs.ip.size = 0)) = true := by decide +kernel
  obtain ⟨r, f', hrun, hp⟩ := Res.test_iff.1 htest
  obtain ⟨rfl, hoff, hsize⟩ := of_decide_eq_true hp
  exact ⟨f', hrun, hoff, hsize⟩

end Xv6.Disk
