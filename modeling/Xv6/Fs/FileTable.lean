import Xv6.Fs.Runs

/-!
# Reference counts of files, pipes and inodes

In every run, with calls that fail included, a file's `ref` is the number of
descriptors for it, and a pipe is there as long as one of its ends is open
(`file_refs_exact`). The `ref` of an inode in the cache is the number of open files
and current directories that it is for (`inode_refs_exact`).
-/

namespace Xv6.Fs

open Finset

variable {N : Nat}

/-- The descriptors of all processes that refer to the file. -/
def descriptors (proc : Pid → Proc) (f : FileId) : Finset (Pid × Fd) :=
  Finset.univ.filter fun x => (proc x.1).ofile x.2 = some f

theorem card_descriptors (proc : Pid → Proc) (f : FileId) : (descriptors proc f).card = total proc (fdRef f) := by
  unfold descriptors fdRef tally total
  rw [card_filter, ← univ_product_univ, sum_product]
  refine sum_congr rfl fun p _ => sum_congr rfl fun fd _ => ?_
  by_cases h : (proc p).ofile fd = some f <;> simp [h]

/-- The file table and the pipes are as they should be. -/
structure FilesExact (c : Core) : Prop where
  ref : ∀ f, (c.file f).ref = (descriptors c.proc f).card
  free : ∀ f, (c.file f).ref = 0 → (c.file f).type = .none
  /-- A page is a pipe exactly while one of its ends is open. -/
  page : ∀ pi e, c.pipe pi = some e → e.readopen = true ∨ e.writeopen = true
  readopen : ∀ pi, (∃ e, c.pipe pi = some e ∧ e.readopen = true) ↔
    ∃ f, 0 < (c.file f).ref ∧ (c.file f).type = .pipe ∧ (c.file f).pipe = pi ∧ (c.file f).readable = true
  writeopen : ∀ pi, (∃ e, c.pipe pi = some e ∧ e.writeopen = true) ↔
    ∃ f, 0 < (c.file f).ref ∧ (c.file f).type = .pipe ∧ (c.file f).pipe = pi ∧ (c.file f).writable = true
  /-- The pipe of an open file has not been freed. -/
  live : ∀ f, 0 < (c.file f).ref → (c.file f).type = .pipe → (c.pipe (c.file f).pipe).isSome

theorem Files.endOf_iff {proc : Pid → Proc} {g : List FileId} {c : Core} (h : Files proc g c) {f : FileId} {pi : Nat}
    {w : Bool} :
    EndOf (c.file f) pi w ↔
      0 < (c.file f).ref ∧ (c.file f).type = .pipe ∧ (c.file f).pipe = pi ∧
        (if w then (c.file f).writable else (c.file f).readable) = true := by
  constructor
  · rintro ⟨h1, h2, h3, h4, h5⟩
    refine ⟨h1, h2, h3, ?_⟩
    cases w
    · exact h5
    · exact h4
  · rintro ⟨h1, h2, h3, h4⟩
    obtain ⟨pi', w', he⟩ := h.side f h1 h2
    obtain rfl : pi' = pi := he.pipe.symm.trans h3
    have hw : w' = w := by
      have hwr := he.writable
      have hrd := he.readable
      cases w <;> cases w' <;> simp_all
    exact hw ▸ he

theorem Files.exact {c : Core} (h : Files c.proc [] c) : FilesExact c := by
  have hends : ∀ pi w, (∃ e, c.pipe pi = some e ∧ e.isOpen w = true) ↔ ∃ f, 0 < (c.file f).ref ∧ (c.file f).type = .pipe ∧
      (c.file f).pipe = pi ∧ (if w then (c.file f).writable else (c.file f).readable) = true := fun pi w =>
    (h.ends pi w).symm.trans (exists_congr fun f => h.endOf_iff)
  refine ⟨fun f => ?_, h.free, h.alloc, fun pi => hends pi false, fun pi => hends pi true, fun f hf ht => ?_⟩
  · rw [card_descriptors, h.ref]
    rfl
  · obtain ⟨pi, w, he⟩ := h.side f hf ht
    obtain ⟨e, hp, -⟩ := (h.ends pi w).mp ⟨f, he⟩
    rw [he.pipe, hp]
    rfl

/-- In every run from the first process on a well-formed disk, `ref` counts the
descriptors, pipes are there while they are open, and no call panics because
a file or a pipe has no references. -/
theorem file_refs_exact (n : Table N) (h : WellFormed n) (s : St (Nodes N)) (hr : Reach nodeHandler Anything (boot n) s) :
    FilesExact s.core ∧ ∀ p x m, (sysCall p x).run (handler nodeHandler) s = .panic m →
      m ≠ "filedup" ∧ m ≠ "fileclose" ∧ m ≠ "use after free" := by
  have hinv := hr.inv h
  refine ⟨hinv.ok.files.exact, fun p x m hm => ?_⟩
  obtain ⟨hroot, -⟩ := h.root
  have hspec := sysCall_any h.small hroot hinv p x
  unfold Runs Eff.Spec at hspec
  rw [hm] at hspec
  have hall : ∀ m ∈ "ilock: no type" :: resources, m ≠ "filedup" ∧ m ≠ "fileclose" ∧ m ≠ "use after free" := by decide
  exact hall m (by rcases hspec with hm | rfl; exacts [List.mem_cons_of_mem _ hm, List.mem_cons_self])

/-- After a `pipe` whose descriptors could not be copied out, everything is closed
again. -/
theorem file_refs_exact_after_failed_pipe : ∃ s : St (Nodes ninodes), FilesExact s.core ∧ s.core.pipe 5 = none ∧
    (s.core.file 0).type = .none := by
  have hw := (mkfs_ok ⟨[], by decide, nofun⟩).wellFormed
  have h : outcome nodeHandler (boot (mkfs ⟨[], by decide, nofun⟩)) [(0, .pipe (some 5) false)]
      (fun s => s.core.pipe 5 = none && (s.core.file 0).type = .none) = true := by decide +kernel
  obtain ⟨s, hr, hq⟩ := Reach.after h
  simp only [Bool.and_eq_true, decide_eq_true_eq] at hq
  exact ⟨s, (file_refs_exact _ hw s hr).1, hq.1, hq.2⟩

/-- The inode cache is as it should be. -/
structure InodesExact (s : St (Nodes N)) : Prop where
  ref : ∀ b, (s.core.icache b).ref = tally s.core.file (fileRef b) + tally s.core.proc (cwdRef b)
  uniq : ∀ b b' (i : Fin N), Caches s.core b i → Caches s.core b' i → b = b'
  sync : ∀ b i, Loads s.core b i → (s.core.icache b).attrs = (s.low.node i).attrs
  /-- An inode that is referred to has not been freed. -/
  live : ∀ b, 0 < (s.core.icache b).ref → ∃ i, Caches s.core b i ∧ (s.low.node i).attrs.type ≠ 0
  /-- No directory is open for writing. -/
  solid : ∀ f i, 0 < (s.core.file f).ref → (s.core.file f).type = .inode → (s.core.file f).writable = true →
    Caches s.core (s.core.file f).ip i → (s.low.node i).attrs.type ≠ tDir
  /-- An inode without links is freed with its last reference. -/
  orphan : ∀ i, (s.low.node i).attrs.type ≠ 0 → (s.low.node i).attrs.nlink = 0 → ∃ b, Loads s.core b i

/-- In every run, the references to the inode cache are those of open files and
current directories, and what it has of an inode is what the disk has. -/
theorem inode_refs_exact (n : Table N) (h : WellFormed n) (s : St (Nodes N)) (hr : Reach nodeHandler Anything (boot n) s) :
    InodesExact s := by
  have hc := (hr.inv h).ok.cache
  refine ⟨hc.ref, hc.uniq, fun b i hb => (hc.sync b i hb).1, fun b hb => ?_, fun f i hf ht hw hi => ?_, fun i hi h0 => ?_⟩
  · obtain ⟨i, -, hi⟩ := hc.inum b hb
    exact ⟨i, ⟨hb, hi⟩, hc.live b i ⟨hb, hi⟩ (hb.trans_eq (hc.ref b))⟩
  · exact hc.solid _ i hi ⟨f, by simp [fileRef, hf, ht], ht, hw⟩
  · obtain ⟨b, hb, ⟨hv, -⟩ | hpin⟩ := hc.orphan i hi h0
    · exact ⟨b, hb, hv⟩
    · cases hpin

theorem inode_refs_exact_after_fork : ∃ s : St (Nodes ninodes), InodesExact s ∧ (s.core.icache 0).ref = 2 := by
  have hw := (mkfs_ok ⟨[], by decide, nofun⟩).wellFormed
  have h : outcome nodeHandler (boot (mkfs ⟨[], by decide, nofun⟩)) [(0, .fork (some 1))]
    (fun s => (s.core.icache 0).ref = 2) = true := by
    decide +kernel
  obtain ⟨s, hr, hq⟩ := Reach.after h
  exact ⟨s, inode_refs_exact _ hw s hr, of_decide_eq_true hq⟩

end Xv6.Fs
