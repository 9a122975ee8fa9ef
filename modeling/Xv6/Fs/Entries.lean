import Xv6.Dir.Disk
import Xv6.Fs.Walk

/-!
# Directory entries on the disk

What `readDirent` and `writeDirent` of `nodeHandler` do with the list of entries
of a directory is what `readi` and `writei` do with its bytes on the disk, and
a name has the same inode in both.
-/

namespace Xv6.Fs

open List

/-- An entry that is not used has no name. -/
def Dirent.slot (e : Dirent) : Option (List UInt8 × Nat) := if e.inum = 0 then none else some (e.name, e.inum)

/-- The bytes of an entry. -/
def Dirent.bytes (e : Dirent) : List UInt8 := Dir.dirent e.inum (Dir.strncpy (Dir.literal e.name) dirsiz)

/-- The directory `x` is on the disk. -/
def Stores (s : Disk.State) (x : Node) : Prop :=
  ∃ c, Dir.OnDisk s c ∧ c.data.length = x.attrs.size ∧ Dir.slots c = x.ents.map Dirent.slot

theorem Dirent.slotOf_bytes {e : Dirent} (he : e.inum < 2 ^ 16) (hname : NameOk e.name) : Dir.slotOf e.bytes = e.slot := by
  have hkey : Dir.key (Dir.literal e.name) = e.name := by
    refine (Dir.cstr_of_bytes (fun i h _ => ?_) hname.nonul fun _ => ?_).trans (take_of_length_le hname.len)
    · exact getD_eq_getElem _ _ h
    · exact getD_eq_default _ _ (le_rfl)
  rw [Dirent.bytes, Dir.slotOf_dirent, hkey, show e.inum % 65536 = e.inum from Nat.mod_eq_of_lt he]
  rfl

variable {N : Nat} {u : Users} {s : St (Nodes N)} {pins temps : List Slot} {dp : Slot} {d : Fin N} {k : Nat} {e : Dirent}
  {t : Disk.State}

theorem find_slots (name : Name) (l : List Dirent) (i : Nat) :
    (Slots.find name (l.map Dirent.slot) i).map Prod.fst =
      (l.find? fun e => e.inum ≠ 0 ∧ e.name = name).map Dirent.inum := by
  induction l generalizing i with
  | nil => rfl
  | cons e l ih =>
    by_cases h0 : e.inum = 0
    · simp [Dirent.slot, h0, Slots.find, ih]
    · by_cases hn : e.name = name
      · simp [Dirent.slot, h0, hn, Slots.find]
      · simp [Dirent.slot, h0, hn, Slots.find, ih]

theorem lookup_on_disk {n : Fin N → Node} (h : Stores t (n d)) (hdir : (n d).attrs.type = tDir) (hok : DirOk N (n d))
    (name : Name) : ∃ c, Dir.OnDisk t c ∧ Dir.resolve c name = (lookup n d name).map Fin.val := by
  obtain ⟨c, hc, -, hslots⟩ := h
  refine ⟨c, hc, ?_⟩
  rw [Dir.resolve, hslots, Slots.lookup, find_slots, lookup, if_pos hdir]
  cases hf : (n d).ents.find? fun e => e.inum ≠ 0 ∧ e.name = name with
  | none => rfl
  | some e => simp [hok.inum e (mem_of_find?_eq_some hf)]

section Directory

variable (hc : Cache u s pins temps) (hb : Loads s.core dp d) (hdir : (s.low.node d).attrs.type = tDir)
  (h : Stores t (s.low.node d))

include hc hb hdir h

theorem readDirent_on_disk (hk : k < (s.low.node d).ents.length) :
    ∃ e, nodeHandler _ (.readDirent dp (16 * k)) s.core s.low = .ok (some e) s.low ∧
      (Dir.diskHandler _ (.readi (16 * k) 16) t).Holds (fun l t' => l.length = 16 ∧ Dir.slotOf l = e.slot ∧
        t' = t) Dir.Exhausted := by
  obtain ⟨c, hd, hsize, hslots⟩ := h
  have hlen := congrArg length hslots
  rw [length_map] at hlen
  refine ⟨_, readDirent_ok hc hb hdir hk, (Dir.readi_on_disk hd _ _).mono ?_ fun _ => id⟩
  rintro _ _ ⟨rfl, rfl⟩
  have hdvd : Dir.direntSize ∣ c.data.length := ⟨_, hsize.trans (hc.dirs d hdir).size⟩
  refine ⟨Dir.length_entry hdvd (hlen ▸ hk), (Dir.slots_getElem c k (hlen ▸ hk)).symm.trans ?_, rfl⟩
  simp only [hslots, getElem_map]

theorem writeDirent_on_disk (hN : N ≤ 2 ^ 16) (hk : k ≤ (s.low.node d).ents.length) (he : e.inum < N) (hname : NameOk e.name) :
    ∃ r low, nodeHandler _ (.writeDirent dp (16 * k) e) s.core s.low = .ok r low ∧
      (Dir.diskHandler _ (.writei (16 * k) e.bytes) t).Holds (fun n t' => (n = 16 ↔ r.isSome) ∧ Stores t' (low.node d))
        Dir.Exhausted := by
  have hok := (hc.dirs d hdir).size
  have hwrite := writeDirent_eq hN hc hb hdir k he hname
  obtain ⟨c, hd, hsize, hslots⟩ := h
  have hdvd : Dir.direntSize ∣ c.data.length := ⟨_, hsize.trans hok⟩
  have hlen : e.bytes.length = 16 := Dir.length_dirent ..
  have hmax : maxfile * bsize < 2 ^ 32 := by decide
  have hdisk := Dir.writei_on_disk hd (16 * k) e.bytes
  simp only [Dir.handler] at hdisk
  by_cases hcan : canWrite (s.low.node d).attrs.size (16 * k) 16
  · rw [if_pos hcan] at hwrite
    refine ⟨_, _, hwrite, hdisk.mono ?_ fun _ => id⟩
    rintro _ t' ⟨c', hc', hd'⟩
    rw [dif_pos ⟨by omega, by rw [hlen]; exact hcan.2.2⟩] at hc'
    cases hc'
    refine ⟨by simp [hlen], _, hd', ?_, ?_⟩
    · rw [Nodes.write_self]
      exact (Dir.length_write hlen _ _).trans (by rw [hsize]; rfl)
    · rw [Nodes.write_self, Dir.slots_write hdvd (by rw [hslots, length_map]; exact hk) hlen, e.slotOf_bytes (by omega) hname,
        hslots, Slots.put, Node.put, length_map]
      split <;> simp
  · rw [if_neg hcan] at hwrite
    refine ⟨_, _, hwrite, hdisk.mono ?_ fun _ => id⟩
    rintro _ t' ⟨c', hc', hd'⟩
    rw [dif_neg fun h => hcan ⟨by omega, by omega, by omega⟩] at hc'
    cases hc'
    exact ⟨by simp, c, hd', hsize, hslots⟩

end Directory

end Xv6.Fs
