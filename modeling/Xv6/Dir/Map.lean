import Mathlib.Data.List.GetD
import Mathlib.Data.List.TakeWhile
import Xv6.Dir.Model

/-!
# A directory is a finite map

The entries of a directory are slots with names and inode numbers. On a
directory whose names are different (`Wf`) the functions on directories do what
they should on the map from names to inode numbers (`resolve`), and keep the
names different (`directory_is_map`). The string functions agree on what a name
is: its first `DIRSIZ` bytes, up to a NUL (`key`).

The number of an inode is cut to 16 bits in an entry, and the entry for a
number whose low 16 bits are 0 is a free slot (`dirlink_truncates`).
-/

namespace Xv6.Dir

open Function List

/-! ## Names -/

/-- The first `n` bytes of a string, up to the NUL. -/
def cstr (p : Bytes) : Nat → List UInt8
  | 0 => []
  | n + 1 => if p 0 = 0 then [] else p 0 :: cstr (next p) n

/-- What a name is in a directory. -/
def key (name : Bytes) : List UInt8 := cstr name dirsiz

variable {p name : Bytes} {n i inum : Nat} {de k : List UInt8} {a b : Slots (List UInt8) Nat} {c' : Contents}

theorem strncmp_eq_zero {q : Bytes} : strncmp p q n = 0 ↔ cstr p n = cstr q n := by
  induction n generalizing p q with
  | zero => simp [strncmp, cstr]
  | succ n ih =>
    by_cases heq : p 0 = q 0
    · by_cases hp : p 0 = 0
      · simp [strncmp, cstr, hp, ← heq]
      · rw [strncmp, if_pos ⟨hp, heq⟩, ih, cstr, cstr, if_neg hp, if_neg (heq ▸ hp), heq]
        simp
    · have hne : ((p 0).toNat : Int) - (q 0).toNat ≠ 0 := by
        intro h
        exact heq (UInt8.toNat_inj.1 (by omega))
      rw [strncmp, if_neg (by tauto), cstr, cstr]
      refine iff_of_false hne ?_
      split <;> split <;> simp_all

theorem namecmp_eq_zero {s t : Bytes} : namecmp s t = 0 ↔ key s = key t := strncmp_eq_zero

theorem length_strncpy (t : Bytes) (n : Nat) : (strncpy t n).length = n := by
  induction n generalizing t with
  | zero => rfl
  | succ n ih =>
    rw [strncpy]
    split <;> simp [ih]

/-- The bytes that `strncpy` stores are the same string. -/
theorem cstr_strncpy (t : Bytes) (n : Nat) : cstr (literal (strncpy t n)) n = cstr t n := by
  induction n generalizing t with
  | zero => rfl
  | succ n ih =>
    by_cases ht : t 0 = 0
    · simp [cstr, strncpy, literal, ht]
    · have hnext : next (literal (t 0 :: strncpy (next t) n)) = literal (strncpy (next t) n) := rfl
      rw [strncpy, if_neg ht, cstr, cstr, if_neg ht, if_neg (show literal (t 0 :: _) 0 ≠ 0 from ht), hnext, ih]
      rfl

/-- A string that is stored, with a NUL after it if there is room for one. -/
theorem cstr_of_bytes {l : List UInt8} (hl : ∀ i (h : i < l.length), i < n → p i = l[i])
    (hnul : 0 ∉ l) (hend : l.length < n → p l.length = 0) : cstr p n = l.take n := by
  induction n generalizing p l with
  | zero => rfl
  | succ n ih =>
    cases l with
    | nil =>
      rw [cstr, if_pos (show p 0 = 0 from hend (by simp))]
      rfl
    | cons x l =>
      have hx : p 0 = x := hl 0 (by simp) (by omega)
      have hx0 : x ≠ 0 := fun h => hnul (by simp [h])
      rw [cstr, hx, if_neg hx0, take_succ_cons]
      refine congrArg (x :: ·) (ih (fun i h hi => ?_) (fun h => hnul (by simp [h])) fun h => ?_)
      · exact hl (i + 1) (by simpa using h) (by omega)
      · exact hend (by simpa using h)

/-- The next element of a path. -/
def nextElem (path : List UInt8) : List UInt8 :=
  (path.dropWhile (· = slash)).takeWhile fun c => c ≠ slash ∧ c ≠ 0

/-- The name that `skipelem` stores is the element, cut to `DIRSIZ` bytes. -/
theorem key_skipelem {path rest : List UInt8} {buf : Bytes} (h : skipelem path buf = some (rest, name)) :
    key name = (nextElem path).take dirsiz := by
  have hnul : 0 ∉ nextElem path := fun h => by simpa using mem_takeWhile_imp h
  have hname : name = if (nextElem path).length ≥ dirsiz then memmove buf ((nextElem path).take dirsiz)
      else update (memmove buf (nextElem path)) (nextElem path).length 0 := by
    simp only [skipelem] at h
    split at h
    · cases h
    · simp only [Option.some.injEq, Prod.mk.injEq] at h
      exact h.2.symm
  generalize nextElem path = l at hnul hname ⊢
  rw [hname]
  by_cases hl : l.length ≥ dirsiz
  · rw [if_pos hl]
    have hlen : (l.take dirsiz).length = dirsiz := by rw [length_take, min_eq_left hl]
    have hcstr : key (memmove buf (l.take dirsiz)) = (l.take dirsiz).take dirsiz :=
      cstr_of_bytes (fun i h _ => by simp only [memmove, getD_eq_getElem _ _ h])
        (fun h => hnul (mem_of_mem_take h)) (fun h => absurd h (by omega))
    rw [hcstr, take_take, min_self]
  · rw [if_neg hl, key]
    refine cstr_of_bytes (fun i h _ => ?_) hnul fun _ => update_self ..
    rw [update_of_ne (by omega)]
    simp only [memmove, getD_eq_getElem _ _ h]

/-! ## Entries -/

/-- A `struct dirent` as a slot; it is free if its `inum` is 0. -/
def slotOf (de : List UInt8) : Option (List UInt8 × Nat) :=
  if direntInum de = 0 then none else some (key (direntName de), direntInum de)

/-- The bytes of entry `i`. -/
def entry (c : Contents) (i : Nat) : List UInt8 := (c.data.drop (direntSize * i)).take direntSize

/-- The entries of a directory. -/
def slots (c : Contents) : Slots (List UInt8) Nat :=
  (range (c.data.length / direntSize)).map fun i => slotOf (entry c i)

/-- The map from names to inode numbers. -/
def resolve (c : Contents) : List UInt8 → Option Nat := (slots c).lookup

/-- A directory whose names are different. -/
structure Wf (c : Contents) : Prop where
  type : c.type = tDir
  size : direntSize ∣ c.data.length
  distinct : (slots c).Distinct

@[simp] theorem length_slots (c : Contents) : (slots c).length = c.data.length / direntSize := by
  simp [slots]

theorem slots_getElem (c : Contents) (i : Nat) (h : i < (slots c).length) : (slots c)[i] = slotOf (entry c i) := by
  simp [slots]

theorem slotOf_dirent (inum : Nat) (name : Bytes) :
    slotOf (dirent inum (strncpy name dirsiz)) = if inum % 65536 = 0 then none else some (key name, inum % 65536) := by
  have hinum : direntInum (dirent inum (strncpy name dirsiz)) = inum % 65536 := by
    simp only [direntInum, dirent, getLE, literal, getD_cons_zero, getD_cons_succ, UInt8.toNat_ofNat']
    omega
  have hname : direntName (dirent inum (strncpy name dirsiz)) = literal (strncpy name dirsiz) := by
    funext i
    simp [direntName, dirent, literal, add_comm 2 i]
  rw [slotOf, hinum, hname, key, cstr_strncpy, key]

theorem slotOf_zero : slotOf (replicate direntSize 0) = none := by decide

section Loops

variable {c : Contents}

section Size

variable (hsize : direntSize ∣ c.data.length)

include hsize

theorem length_eq : c.data.length = direntSize * (slots c).length := by
  rw [length_slots, Nat.mul_div_cancel' hsize]

theorem entries_eq : entries c.data.length = (slots c).length := by
  have := length_eq hsize
  simp only [entries, direntSize] at *
  omega

theorem length_entry {i : Nat} (hi : i < (slots c).length) :
    (entry c i).length = direntSize := by
  have := length_eq hsize
  simp only [entry, length_take, length_drop, direntSize] at *
  omega

end Size

/-- A loop over the entries whose body is `f` of the slot and its number. -/
theorem scan_run {α : Type} (body : Nat → DirProg (Option α)) {f : Option (List UInt8 × Nat) × Nat → Option α}
    (hbody : ∀ i < (slots c).length, (body (direntSize * i)).run handler c = .ok (f (slotOf (entry c i), i)) c) (k i : Nat)
    (hk : i + k = (slots c).length) :
    (scan body k (direntSize * i)).run handler c = .ok ((((slots c).drop i).zipIdx i).findSome? f) c := by
  induction k generalizing i with
  | zero =>
    rw [drop_eq_nil_of_le (by omega)]
    rfl
  | succ k ih =>
    have hi : i < (slots c).length := by omega
    rw [drop_eq_getElem_cons hi, zipIdx_cons, findSome?_cons, slots_getElem, scan,
      Eff.run_bind_ok (hbody i hi)]
    cases f (slotOf (entry c i), i) with
    | some x => rfl
    | none => exact ih (i + 1) (by omega)

end Loops

/-- The loop of `dirlookup` finds the first slot with the name. -/
theorem find_eq_findSome (k : List UInt8) (l : Slots (List UInt8) Nat) (i : Nat) :
    (Slots.find k l i).map (fun p => (p.1, direntSize * p.2)) =
    (l.zipIdx i).findSome? fun p => p.1.bind fun e => if k = e.1 then some (e.2, direntSize * p.2) else none := by
  induction l generalizing i with
  | nil => rfl
  | cons e l ih =>
    cases e with
    | none => exact ih (i + 1)
    | some p =>
      rw [Slots.find, zipIdx_cons, findSome?_cons]
      by_cases hp : k = p.1
      · simp [hp]
      · simpa [hp, Ne.symm hp] using ih (i + 1)

/-- The loop of `dirlink` ends at the first free slot. -/
theorem free_eq_findSome (l : Slots (List UInt8) Nat) (i : Nat) :
    ((l.zipIdx i).findSome? fun p => if p.1 = none then some (direntSize * p.2) else none).getD (direntSize * (i + l.length)) =
      direntSize * (i + Slots.free l) := by
  induction l generalizing i with
  | nil => rfl
  | cons e l ih =>
    cases e with
    | none => simp [Slots.free, findIdx_cons]
    | some p =>
      have hfree : Slots.free (some p :: l) = Slots.free l + 1 := by simp [Slots.free, findIdx_cons]
      have := ih (i + 1)
      rw [zipIdx_cons, findSome?_cons, hfree, length_cons,
        show i + (l.length + 1) = i + 1 + l.length by omega, show i + (Slots.free l + 1) = i + 1 + Slots.free l by omega]
      simpa using this

/-! ## The functions on directories -/

variable {c : Contents}

theorem readDirent_run (h : Wf c) (hi : i < (slots c).length) (msg : String) :
    (readDirent (direntSize * i) msg).run handler c = .ok (entry c i) c := by
  show (if (entry c i).length ≠ direntSize then _ else _ : DirProg _).run handler c = _
  rw [if_neg (by simpa using length_entry h.size hi)]
  rfl

theorem dirlookup_run (h : Wf c) (name : Bytes) :
    (dirlookup name).run handler c = .ok ((Slots.find (key name) (slots c) 0).map fun p => (p.1, direntSize * p.2)) c := by
  rw [find_eq_findSome, dirlookup]
  show (if c.type ≠ tDir then _ else _ : DirProg _).run handler c = _
  rw [if_neg (by simp [h.type])]
  show (scan _ (entries c.data.length) 0).run handler c = _
  rw [entries_eq h.size]
  refine scan_run _ (fun i hi => ?_) (slots c).length 0 (zero_add _)
  rw [Eff.run_bind_ok (readDirent_run h hi _), slotOf]
  by_cases hinum : direntInum (entry c i) = 0
  · rw [if_pos hinum, if_pos hinum]
    rfl
  · rw [if_neg hinum, if_neg hinum, Option.bind_some]
    by_cases hname : key name = key (direntName (entry c i))
    · rw [if_pos (namecmp_eq_zero.2 hname), if_pos hname]
      rfl
    · rw [if_neg (mt namecmp_eq_zero.1 hname), if_neg hname]
      rfl

theorem Contents.write_getElem? (off : Nat) (src : List UInt8) (hoff : off ≤ c.data.length)
    (hmax : off + src.length ≤ maxfile * bsize) (x : Nat) :
    (c.write off src hoff hmax).data[x]? =
      if off ≤ x ∧ x < off + src.length then src[x - off]? else c.data[x]? := by
  have hlen : (c.data.take off).length = off := length_take_of_le hoff
  simp only [Contents.write, append_assoc, getElem?_append, hlen, getElem?_take, getElem?_drop]
  by_cases hlow : x < off
  · rw [if_pos hlow, if_pos hlow, if_neg (by omega)]
  · rw [if_neg hlow]
    by_cases hsrc : x - off < src.length
    · rw [if_pos hsrc, if_pos (by omega)]
    · rw [if_neg hsrc, if_neg (by omega), show off + src.length + (x - off - src.length) = x by omega]

/-- An entry that is written is in its slot, and the others are as before. -/
theorem entry_write (hde : de.length = direntSize) (hoff : direntSize * i ≤ c.data.length)
    (hmax : direntSize * i + de.length ≤ maxfile * bsize) (j : Nat) :
    entry (c.write (direntSize * i) de hoff hmax) j = if j = i then de else entry c j := by
  refine ext_getElem? fun x => ?_
  simp only [entry, getElem?_take, getElem?_drop, Contents.write_getElem?, hde]
  by_cases hx : x < direntSize
  · rw [if_pos hx]
    by_cases hj : j = i
    · rw [if_pos hj, if_pos (by subst hj; omega), hj, show direntSize * i + x - direntSize * i = x by omega]
    · rw [if_neg hj, if_neg (by unfold direntSize at *; omega)]
      simp [hx]
  · rw [if_neg hx]
    by_cases hj : j = i
    · rw [if_pos hj, getElem?_eq_none (by omega)]
    · rw [if_neg hj]
      simp [hx]

theorem slots_getElem? (c : Contents) (j : Nat) :
    (slots c)[j]? = if j < (slots c).length then some (slotOf (entry c j)) else none := by
  split
  · rw [getElem?_eq_getElem ‹_›, slots_getElem]
  · exact getElem?_eq_none (by omega)

theorem slots_write (hsize : direntSize ∣ c.data.length) (hi : i ≤ (slots c).length) (hde : de.length = direntSize)
    (hoff : direntSize * i ≤ c.data.length) (hmax : direntSize * i + de.length ≤ maxfile * bsize) :
    slots (c.write (direntSize * i) de hoff hmax) = (slots c).put i (slotOf de) := by
  have hn := length_eq hsize
  have hlen : (slots (c.write (direntSize * i) de hoff hmax)).length = max (slots c).length (i + 1) := by
    rw [length_slots, Contents.write]
    simp only [length_append, length_take, length_drop, direntSize] at *
    omega
  refine ext_getElem? fun j => ?_
  rw [slots_getElem?, hlen, entry_write hde, Slots.getElem?_put hi, slots_getElem?]
  by_cases hj : j = i
  · rw [if_pos hj, if_pos hj, if_pos (by omega)]
  · rw [if_neg hj, if_neg hj]
    by_cases hlt : j < (slots c).length
    · rw [if_pos hlt, if_pos (by omega)]
    · rw [if_neg hlt, if_neg (by omega)]

theorem run_writei {off : Nat} {src : List UInt8} (hoff : off ≤ c.data.length) (hmax : off + src.length ≤ maxfile * bsize)
    {α : Type} (k : Int → DirProg α) :
    (Eff.call (.writei off src) >>= k).run handler c = (k src.length).run handler (c.write off src hoff hmax) := by
  have hw : handler _ (.writei off src) c = .ok (src.length : Int) (c.write off src hoff hmax) := dif_pos ⟨hoff, hmax⟩
  exact Eff.run_call_ok hw k

theorem length_dirent (inum : Nat) (name : Bytes) : (dirent inum (strncpy name dirsiz)).length = direntSize := by
  simp [dirent, length_strncpy]

/-- Where `dirlink` writes an entry. -/
theorem dirlink_run_none (h : Wf c) (hnone : resolve c (key name) = none) (inum : Nat) :
    (dirlink name inum).run handler c =
    (do
        let r ← .call (.writei (direntSize * (slots c).free) (dirent inum (strncpy name dirsiz)))
        if r ≠ direntSize then .call (.panic "dirlink")
        else return 0 : DirProg Int).run handler c := by
  have hfind : Slots.find (key name) (slots c) 0 = none := Option.map_eq_none_iff.1 hnone
  have hlookup := dirlookup_run h name
  rw [hfind] at hlookup
  have hscan := scan_run (c := c) (fun off => do
      let de ← readDirent off "dirlink read"
      if direntInum de = 0 then return some off
      else return none) (f := fun p => if p.1 = none then some (direntSize * p.2) else none)
    (fun i hi => by
      rw [Eff.run_bind_ok (readDirent_run h hi _), slotOf]
      by_cases hinum : direntInum (entry c i) = 0
      · rw [if_pos hinum, if_pos hinum]
        rfl
      · rw [if_neg hinum, if_neg hinum]
        rfl)
    (slots c).length 0 (zero_add _)
  have hfree := free_eq_findSome (slots c) 0
  rw [zero_add, zero_add] at hfree
  rw [drop_zero, mul_zero] at hscan
  rw [dirlink, Eff.run_bind_ok hlookup, ← hfree]
  show (scan _ (entries c.data.length) 0 >>= _ : DirProg Int).run handler c = _
  rw [entries_eq h.size, Eff.run_bind_ok hscan]

/-! ## The map -/

/-- The entry at the offset `off` has this name and this inode number. -/
def EntryAt (c : Contents) (off : Nat) (k : List UInt8) (inum : Nat) : Prop :=
  direntSize ∣ off ∧ (slots c)[off / direntSize]? = some (some (k, inum))

inductive Call where
  | dirlookup (name : Bytes)
  | dirlink (name : Bytes) (inum : Nat)
  | unlink (target : Nat → Target) (name : Bytes)

/-- What a call returns. -/
inductive Reply where
  | found (r : Option (Nat × Nat))
  | status (r : Int)

def Call.prog : Call → DirProg Reply
  | .dirlookup name => do return .found (← Dir.dirlookup name)
  | .dirlink name inum => do return .status (← Dir.dirlink name inum)
  | .unlink target name => do return .status (← Dir.unlink target name)

/-- An inode number fits into an entry. -/
def Call.Valid : Call → Prop
  | .dirlink _ inum => 0 < inum ∧ inum < 65536
  | _ => True

/-- A number of calls, one after the other. -/
def calls : List Call → DirProg (List Reply)
  | [] => return []
  | x :: l => do
    let r ← x.prog
    return r :: (← calls l)

/-- The directory is the map `m`, and has as many entries as before. -/
structure Same (c c' : Contents) (m : List UInt8 → Option Nat) : Prop where
  wf : Wf c'
  map : resolve c' = m
  size : c'.data.length = c.data.length

/-- The directory is the map `m`, and has grown only if there was no free slot. -/
structure Grown (c c' : Contents) (m : List UInt8 → Option Nat) : Prop where
  wf : Wf c'
  map : resolve c' = m
  size : c'.data.length = if none ∈ slots c then c.data.length else c.data.length + direntSize

/-- What a call should do, on the map from names to inode numbers. -/
def Effect (c : Contents) : Call → Res Contents Reply → Prop
  | .dirlookup name, r => ∃ o, r = .ok (.found o) c ∧ o.map Prod.fst = resolve c (key name) ∧
      ∀ inum off, o = some (inum, off) ↔ EntryAt c off (key name) inum
  | .dirlink name inum, r =>
    match resolve c (key name) with
    | some _ => r = .ok (.status (-1)) c
    | none =>
      if none ∉ slots c ∧ c.data.length + direntSize > maxfile * bsize then r = .panic "dirlink"
      else ∃ c', r = .ok (.status 0) c' ∧ Grown c c' (update (resolve c) (key name) (some inum))
  | .unlink target name, r =>
    match resolve c (key name) with
    | none => r = .ok (.status (-1)) c
    | some inum =>
      if key name = [46] ∨ key name = [46, 46] then r = .ok (.status (-1)) c
      else if (target inum).nlink.toInt < 1 then r = .panic "unlink: nlink < 1"
      else if (target inum).busy then r = .ok (.status (-1)) c
      else ∃ c', r = .ok (.status 0) c' ∧ Same c c' (update (resolve c) (key name) none)

theorem dirlookup_effect (h : Wf c) (name : Bytes) : Effect c (.dirlookup name)
    ((Call.dirlookup name).prog.run handler c) := by
  refine ⟨_, Eff.run_bind_ok (dirlookup_run h name) _, ?_, fun inum off => ?_⟩
  · rw [resolve, Slots.lookup, Option.map_map]
    rfl
  · constructor
    · intro ho
      obtain ⟨⟨v, i⟩, hfind, heq⟩ := Option.map_eq_some_iff.1 ho
      obtain ⟨rfl, rfl⟩ := Prod.mk.inj heq
      obtain ⟨a, b, hslots, -, rfl⟩ := Slots.find_eq_some hfind
      refine ⟨Dvd.intro _ rfl, ?_⟩
      rw [Nat.mul_div_cancel_left _ (by decide), hslots, zero_add]
      simp
    · rintro ⟨⟨i, rfl⟩, hi⟩
      rw [Nat.mul_div_cancel_left _ (by decide)] at hi
      -- the entry is the only one with the name
      obtain ⟨hlt, hget⟩ := List.getElem?_eq_some_iff.1 hi
      have hsplit : slots c = (slots c).take i ++ some (key name, inum) :: (slots c).drop (i + 1) := by
        rw [← hget, getElem_cons_drop, take_append_drop]
      have hd := h.distinct
      rw [hsplit, Slots.Distinct, Slots.keys_append, Slots.keys_cons_some, nodup_middle, nodup_cons,
        mem_append, not_or] at hd
      rw [hsplit, Slots.find_eq_some_of_middle hd.1.1, length_take_of_le (by omega)]
      simp

theorem length_write (hde : de.length = direntSize) (hoff : direntSize * i ≤ c.data.length)
    (hmax : direntSize * i + de.length ≤ maxfile * bsize) :
    (c.write (direntSize * i) de hoff hmax).data.length = max c.data.length (direntSize * i + direntSize) := by
  simp only [Contents.write, length_append, length_take, length_drop, hde]
  omega

/-- A free slot is filled. -/
theorem grown_fill (h : Wf c) (hslots : slots c = a ++ none :: b)
    (hnone : resolve c k = none) (hde : de.length = direntSize) (hslot : slotOf de = some (k, inum))
    (hoff : direntSize * a.length ≤ c.data.length) (hmax : direntSize * a.length + de.length ≤ maxfile * bsize) :
    Grown c (c.write (direntSize * a.length) de hoff hmax) (update (resolve c) k (some inum)) := by
  have hn := length_eq h.size
  have hlt : a.length < (slots c).length := by simp [hslots]
  have hwrite := slots_write h.size hlt.le hde hoff hmax
  rw [hslot, hslots, Slots.put_middle] at hwrite
  rw [resolve, hslots] at hnone
  have hlen : (c.write (direntSize * a.length) de hoff hmax).data.length = c.data.length := by
    rw [length_write hde]
    simp only [direntSize] at *
    omega
  refine ⟨⟨h.type, hlen ▸ h.size, ?_⟩, ?_, ?_⟩
  · rw [hwrite]
    exact (hslots ▸ h.distinct).fill hnone inum
  · rw [resolve, hwrite, resolve, hslots]
    exact Slots.lookup_fill hnone inum
  · rw [hlen, if_pos (by simp [hslots])]

/-- An entry is written behind the others. -/
theorem grown_append (h : Wf c) (hfull : none ∉ slots c) (hnone : resolve c k = none)
    (hde : de.length = direntSize) (hslot : slotOf de = some (k, inum))
    (hoff : direntSize * (slots c).length ≤ c.data.length)
    (hmax : direntSize * (slots c).length + de.length ≤ maxfile * bsize) :
    Grown c (c.write (direntSize * (slots c).length) de hoff hmax) (update (resolve c) k (some inum)) := by
  have hn := length_eq h.size
  have hwrite := slots_write h.size (le_rfl) hde hoff hmax
  rw [hslot, Slots.put_length] at hwrite
  have hlen : (c.write (direntSize * (slots c).length) de hoff hmax).data.length = c.data.length + direntSize := by
    rw [length_write hde]
    omega
  refine ⟨⟨h.type, hlen ▸ Nat.dvd_add h.size (Nat.dvd_refl _), ?_⟩, ?_, ?_⟩
  · rw [hwrite]
    exact h.distinct.append hnone inum
  · rw [resolve, hwrite]
    exact Slots.lookup_append hnone inum
  · rw [hlen, if_neg hfull]

theorem dirlink_effect (h : Wf c) (name : Bytes) (hpos : 0 < inum) (hlt : inum < 65536) :
    Effect c (.dirlink name inum) ((Call.dirlink name inum).prog.run handler c) := by
  simp only [Effect]
  cases hr : resolve c (key name) with
  | some v =>
    obtain ⟨⟨v, i⟩, hfind, -⟩ := Option.map_eq_some_iff.1 hr
    have hlookup := dirlookup_run h name
    rw [hfind] at hlookup
    have hrun : (dirlink name inum).run handler c = .ok (-1) c := by
      rw [dirlink, Eff.run_bind_ok hlookup]
      rfl
    exact Eff.run_bind_ok hrun _
  | none =>
    have hn := length_eq h.size
    have hfits := c.fits
    have hlen := length_dirent inum name
    have hslot : slotOf (dirent inum (strncpy name dirsiz)) = some (key name, inum) := by
      rw [slotOf_dirent, Nat.mod_eq_of_lt hlt, if_neg (by omega)]
    have hrun := dirlink_run_none h hr inum
    rcases (slots c).free_cases with ⟨a, b, hslots, -, hfree⟩ | ⟨hfull, hfree⟩
    · have halt : a.length < (slots c).length := by simp [hslots]
      have hoff : direntSize * a.length ≤ c.data.length := by
        rw [hn]
        exact Nat.mul_le_mul_left _ halt.le
      have hmax : direntSize * a.length + (dirent inum (strncpy name dirsiz)).length ≤ maxfile * bsize := by
        simp only [hlen, direntSize] at *
        omega
      rw [if_neg (by simp [hslots])]
      refine ⟨_, ?_, grown_fill h hslots hr hlen hslot hoff hmax⟩
      rw [hfree, run_writei hoff hmax, if_neg (by simp [hlen])] at hrun
      exact Eff.run_bind_ok hrun _
    · by_cases hmax : direntSize * (slots c).length + (dirent inum (strncpy name dirsiz)).length ≤ maxfile * bsize
      · rw [if_neg (by rw [hn]; omega)]
        refine ⟨_, ?_, grown_append h hfull hr hlen hslot hn.ge hmax⟩
        rw [hfree, run_writei hn.ge hmax, if_neg (by simp [hlen])] at hrun
        exact Eff.run_bind_ok hrun _
      · rw [if_pos ⟨hfull, by rw [hn]; omega⟩]
        have hw : handler _ (.writei (direntSize * (slots c).length) (dirent inum (strncpy name dirsiz))) c = .ok (-1) c :=
          dif_neg fun h => hmax h.2
        rw [hfree, Eff.run_call_ok hw, if_pos (by decide)] at hrun
        rw [Call.prog, Eff.run_bind, hrun]
        rfl

/-- A slot is made free. -/
theorem same_clear (h : Wf c)
    (hslots : slots c = a ++ some (k, inum) :: b) (hde : de.length = direntSize) (hslot : slotOf de = none)
    (hoff : direntSize * a.length ≤ c.data.length) (hmax : direntSize * a.length + de.length ≤ maxfile * bsize) :
    Same c (c.write (direntSize * a.length) de hoff hmax) (update (resolve c) k none) := by
  have hn := length_eq h.size
  have hlt : a.length < (slots c).length := by simp [hslots]
  have hwrite := slots_write h.size hlt.le hde hoff hmax
  rw [hslot, hslots, Slots.put_middle] at hwrite
  have hlen : (c.write (direntSize * a.length) de hoff hmax).data.length = c.data.length := by
    rw [length_write hde]
    simp only [direntSize] at *
    omega
  refine ⟨⟨h.type, hlen ▸ h.size, ?_⟩, ?_, hlen⟩
  · rw [hwrite]
    exact (hslots ▸ h.distinct).clear
  · rw [resolve, hwrite, resolve, hslots]
    exact Slots.lookup_clear (hslots ▸ h.distinct)

theorem unlink_effect (h : Wf c) (target : Nat → Target) (name : Bytes) :
    Effect c (.unlink target name) ((Call.unlink target name).prog.run handler c) := by
  have hdots : (namecmp name (literal [46]) = 0 ∨ namecmp name (literal [46, 46]) = 0) ↔
      (key name = [46] ∨ key name = [46, 46]) := by
    rw [namecmp_eq_zero, namecmp_eq_zero]
    rfl
  have hlookup := dirlookup_run h name
  simp only [Effect]
  cases hr : resolve c (key name) with
  | none =>
    have hfind : Slots.find (key name) (slots c) 0 = none := Option.map_eq_none_iff.1 hr
    rw [hfind] at hlookup
    have hrun : (unlink target name).run handler c = .ok (-1) c := by
      rw [unlink]
      split
      · rfl
      · rw [Eff.run_bind_ok hlookup]
        rfl
    exact Eff.run_bind_ok hrun _
  | some inum =>
    obtain ⟨⟨v, i⟩, hfind, hv⟩ := Option.map_eq_some_iff.1 hr
    obtain rfl : inum = v := hv.symm
    rw [hfind, Option.map_some] at hlookup
    simp only [Call.prog]
    rw [unlink]
    by_cases hdot : key name = [46] ∨ key name = [46, 46]
    · rw [if_pos hdot, if_pos (hdots.2 hdot)]
      rfl
    rw [if_neg hdot, if_neg (mt hdots.1 hdot), Eff.run_bind, Eff.run_bind_ok hlookup]
    dsimp only
    by_cases hlink : (target inum).nlink.toInt < 1
    · rw [if_pos hlink, if_pos hlink]
      rfl
    rw [if_neg hlink, if_neg hlink]
    by_cases hbusy : (target inum).busy = true
    · rw [if_pos hbusy, if_pos hbusy]
      rfl
    rw [if_neg hbusy, if_neg hbusy]
    -- the entry is there, so the write does not change the size
    obtain ⟨a, b, hslots, -, hi⟩ := Slots.find_eq_some hfind
    rw [zero_add] at hi
    subst hi
    have hn := length_eq h.size
    have hfits := c.fits
    have halt : a.length < (slots c).length := by simp [hslots]
    have hlen : (replicate direntSize (0 : UInt8)).length = direntSize := length_replicate
    have hoff : direntSize * a.length ≤ c.data.length := by
      rw [hn]
      exact Nat.mul_le_mul_left _ halt.le
    have hmax : direntSize * a.length + (replicate direntSize (0 : UInt8)).length ≤ maxfile * bsize := by
      simp only [hlen, direntSize] at *
      omega
    rw [run_writei hoff hmax, if_neg (by rw [hlen]; simp)]
    exact ⟨_, rfl, same_clear h hslots hlen slotOf_zero hoff hmax⟩

theorem call_effect (h : Wf c) (x : Call) (hx : x.Valid) : Effect c x (x.prog.run handler c) := by
  cases x with
  | dirlookup name => exact dirlookup_effect h name
  | dirlink name inum => exact dirlink_effect h name hx.1 hx.2
  | unlink target name => exact unlink_effect h target name

/-- A call that returns has left a directory whose names are different. -/
theorem Effect.wf {x : Call} {r : Reply} (h : Wf c) (he : Effect c x (.ok r c')) : Wf c' := by
  cases x with
  | dirlookup name =>
    obtain ⟨o, heq, -⟩ := he
    cases heq
    exact h
  | dirlink name inum =>
    simp only [Effect] at he
    split at he
    · cases he
      exact h
    · split at he
      · cases he
      · obtain ⟨c1, heq, hg⟩ := he
        cases heq
        exact hg.wf
  | unlink target name =>
    simp only [Effect] at he
    split at he
    · cases he
      exact h
    · split at he
      · cases he
        exact h
      · split at he
        · cases he
        · split at he
          · cases he
            exact h
          · obtain ⟨c1, heq, hs⟩ := he
            cases heq
            exact hs.wf

/-- The names are different after any number of calls. -/
theorem calls_wf {l : List Call} (hl : ∀ x ∈ l, x.Valid) {c : Contents} (h : Wf c) {r : List Reply}
    (hrun : (calls l).run handler c = .ok r c') : Wf c' := by
  induction l generalizing c r with
  | nil =>
    cases hrun
    exact h
  | cons x l ih =>
    have he := call_effect h x (hl x (by simp))
    obtain ⟨r1, c1, hx, hrest⟩ := Eff.of_run_bind hrun
    obtain ⟨r2, c2, hl', hret⟩ := Eff.of_run_bind hrest
    cases hret
    rw [hx] at he
    exact ih (fun y hy => hl y (by simp [hy])) (he.wf h) hl'

/-- From a directory whose names are different, after any number of calls the
names are different, and every call does what it should on the map from names to
inode numbers; the name that `skipelem` stores is the first `DIRSIZ` bytes of the
element. -/
theorem directory_is_map {c c' : Contents} (h : Wf c) {l : List Call} (hl : ∀ x ∈ l, x.Valid) {r : List Reply}
    (hrun : (calls l).run handler c = .ok r c') :
    Wf c' ∧ (∀ x : Call, x.Valid → Effect c' x (x.prog.run handler c')) ∧
      ∀ (path rest : List UInt8) (buf name : Bytes), skipelem path buf = some (rest, name) →
        key name = (nextElem path).take dirsiz :=
  ⟨calls_wf hl h hrun, fun x hx => call_effect (calls_wf hl h hrun) x hx, fun _ _ _ _ => key_skipelem⟩

/-- The empty directory, and a name. -/
def emptyDir : Contents := ⟨tDir, [], by decide⟩

def nameA : Bytes := literal [97]

theorem wf_emptyDir : Wf emptyDir := ⟨rfl, by decide, nodup_nil⟩

theorem directory_is_map_linked : ∃ r c', (calls [.dirlink nameA 7]).run handler emptyDir = .ok r c' ∧ Wf c' ∧
    (∀ x : Call, x.Valid → Effect c' x (x.prog.run handler c')) ∧
      ∀ (path rest : List UInt8) (buf name : Bytes), skipelem path buf = some (rest, name) →
        key name = (nextElem path).take dirsiz := by
  have hrun : (calls [.dirlink nameA 7]).run handler emptyDir =
      .ok [.status 0] (emptyDir.write 0 (dirent 7 (strncpy nameA dirsiz)) (by decide) (by decide)) := rfl
  exact ⟨_, _, hrun, directory_is_map wf_emptyDir (by simp [Call.Valid]) hrun⟩

/-- An inode number whose low 16 bits are 0 is linked without an error, and the
name is not found. -/
theorem dirlink_truncates : ∃ c c', Wf c ∧ (dirlink nameA 65536).run handler c = .ok 0 c' ∧
    (dirlookup nameA).run handler c' = .ok none c' :=
  ⟨emptyDir, emptyDir.write 0 (dirent 65536 (strncpy nameA dirsiz)) (by decide) (by decide), wf_emptyDir, rfl, rfl⟩

end Xv6.Dir
