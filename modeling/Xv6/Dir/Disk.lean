import Xv6.Dir.Map
import Xv6.Disk.Contents

/-!
# Directories on the disk

`Dir.handler` has the contents of an inode as an array of bytes. Here the code on
directories reaches them with `readi` and `writei` of `Disk.Model`, in an
operation of the file system that has the inode locked. A run on the disk is a
run on the array, until the operation is too big or the disk is full.
-/

namespace Xv6.Dir

open List

/-- A number as a `uint`. No file has `2 ^ 31` bytes, so larger numbers are as good as one. -/
def uint (x : Nat) : BitVec 32 := .ofNat 32 (min x (2 ^ 31 - 1))

def diskHandler : Handler FileOp Disk.State
  | _, .type, s => .ok s.ip.type s
  | _, .size, s => .ok s.ip.size s
  | _, .readi off n, s => (Disk.readi (fun _ _ => true) (uint off) (uint n)).run s
  | _, .writei off src, s => (Disk.writei (fun a => src[a.toNat]?) 0 (uint off) (uint src.length)).run s
  | _, .panic msg, _ => .panic msg

/-- The panics of an operation that is too big, or for which the disk is too small. -/
def Exhausted (msg : String) : Prop :=
  msg = "balloc: out of blocks" ∨ msg = "too big a transaction" ∨ msg = "bget: no buffers"

/-- The inode that is locked has the contents `c`. -/
structure OnDisk (s : Disk.State) (c : Contents) : Prop where
  wf : Disk.Wf s
  synced : Disk.Synced s
  held : s.held = []
  outstanding : 1 ≤ s.log.outstanding
  type : s.ip.type = c.type
  data : s.contents s.inum = c.data

variable {s : Disk.State} {c : Contents}

theorem OnDisk.size (h : OnDisk s c) : s.ip.size = c.data.length := by
  rw [← h.data, Disk.length_contents, Disk.State.inode_self]

theorem toNat_uint (x : Nat) : (uint x).toNat = min x (2 ^ 31 - 1) := by
  rw [uint, BitVec.toNat_ofNat, Nat.mod_eq_of_lt (by omega)]

/-- A copy of `src` from the offset `i`. -/
theorem copyin_list (src : List UInt8) (n i : Nat) (h : i + n = src.length) (hlt : src.length < 2 ^ 64) :
    Disk.copyin (fun a => src[a.toNat]?) (.ofNat 64 i) n = src.drop i := by
  induction n generalizing i with
  | zero => rw [drop_eq_nil_of_le (by omega)]; rfl
  | succ n ih =>
    have hi : i < src.length := by omega
    have ha : (BitVec.ofNat 64 i).toNat = i := by rw [BitVec.toNat_ofNat, Nat.mod_eq_of_lt (by omega)]
    simp only [Disk.copyin, ha, getElem?_eq_getElem hi]
    rw [drop_eq_getElem_cons hi, ← ih (i + 1) (by omega), BitVec.ofNat_add]
    rfl

theorem readi_on_disk (h : OnDisk s c) (off n : Nat) :
    (diskHandler _ (.readi off n) s).Holds (fun l s' => l = (c.data.drop off).take n ∧ s' = s) Exhausted := by
  have hfits : c.data.length < 2 ^ 31 - 1 := lt_of_le_of_lt c.fits (by decide)
  have hoff := toNat_uint off
  have hn := toNat_uint n
  by_cases hlt : off ≤ c.data.length
  · refine (Disk.readi_spec h.wf h.held (.inr (.inr (.inr rfl))) (uint off) (uint n) (by rw [h.size]; omega)
      (by omega)).mono ?_
    rintro _ _ ⟨rfl, rfl⟩
    rw [h.data, hn, hoff, min_eq_left (show off ≤ _ by omega)]
    refine ⟨?_, rfl⟩
    rw [take_eq_take_iff, length_drop]
    omega
  · refine Cmd.Spec.get ?_
    rw [if_pos (.inl (by rw [h.size]; omega)), drop_eq_nil_of_le (by omega), take_nil]
    exact ⟨rfl, rfl⟩

theorem writei_on_disk (h : OnDisk s c) (off : Nat) (src : List UInt8) :
    (diskHandler _ (.writei off src) s).Holds
    (fun r s' => ∃ c', handler _ (.writei off src) c = .ok r c' ∧ OnDisk s' c') Exhausted := by
  have hmax : maxfile * bsize < 2 ^ 31 - 1 := by decide
  have hfits := c.fits
  have hoff := toNat_uint off
  have hn := toNat_uint src.length
  simp only [handler]
  by_cases hok : off ≤ c.data.length ∧ off + src.length ≤ maxfile * bsize
  · rw [min_eq_left (by omega)] at hoff hn
    have hcopy : Disk.copyin (fun a => src[a.toNat]?) 0 src.length = src := copyin_list src _ 0 (by omega) (by omega)
    refine (Disk.writei_spec (P := Exhausted) _ 0 (uint off) (uint src.length) h.wf h.synced h.held (by rw [h.size]; omega)
      (by omega) (fun _ => ⟨.inl h.outstanding, .inr ⟨.inr (.inl rfl), .inr (.inr rfl)⟩⟩) (.inr (.inl rfl))).mono ?_
    rintro _ s' ⟨rfl, hst, -⟩
    rw [hoff, hn, hcopy] at hst
    refine ⟨_, by rw [dif_pos hok, BitVec.toInt_eq_toNat_of_lt (by omega), hn], hst.wf, hst.synced, hst.held.trans h.held,
      hst.outstanding ▸ h.outstanding, ?_, ?_⟩
    · rw [hst.attrs]
      exact h.type
    · rw [hst.inum, hst.contents rfl (by rw [h.size]; exact hok.1), h.data]
      rfl
  · refine Cmd.Spec.of_run (Disk.writei_fails _ 0 (uint off) (uint src.length) ?_) ⟨c, dif_neg hok, h⟩
    rw [h.size]
    omega

/-- The code on directories does on the disk what it does on the array of bytes. -/
theorem run_on_disk {α : Type} (p : DirProg α) (h : OnDisk s c) :
    (p.run diskHandler s).Holds (fun a s' => ∃ c', p.run handler c = .ok a c' ∧ OnDisk s' c')
      fun m => p.run handler c = .panic m ∨ Exhausted m := by
  refine Eff.run_simulates (fun β o s c h => ?_) p h
  cases o with
  | type => exact ⟨c, by rw [h.type]; rfl, h⟩
  | size => exact ⟨c, by rw [h.size]; rfl, h⟩
  | readi off n =>
    refine (readi_on_disk h off n).mono ?_ fun _ => .inr
    rintro _ _ ⟨rfl, rfl⟩
    exact ⟨c, rfl, h⟩
  | writei off src => exact (writei_on_disk h off src).mono (fun _ _ => id) fun _ => .inr
  | panic msg => exact .inl rfl

/-- Calls on a directory of the disk leave a directory whose names are different,
and return what they return on the array of bytes. -/
theorem calls_on_disk (h : OnDisk s c) (hwf : Wf c) {l : List Call} (hl : ∀ x ∈ l, x.Valid) {r : List Reply} {s' : Disk.State}
    (hrun : (calls l).run diskHandler s = .ok r s') :
    ∃ c', (calls l).run handler c = .ok r c' ∧ OnDisk s' c' ∧ Wf c' := by
  have := run_on_disk (calls l) h
  rw [hrun] at this
  obtain ⟨c', hc, h'⟩ := this
  exact ⟨c', hc, h', calls_wf hl hwf hc⟩

end Xv6.Dir
