import Xv6.Fs.ProcSpec
import Xv6.Fs.Tree

/-!
# `mkfs` and the first process

`mkfs` is the table of inodes that `mkfs.c` writes, and `boot` is the state in
which the first process begins, on any disk. The invariants hold in it if the
disk is well formed (`boot_inv`), and the image of `mkfs` is (`mkfs_ok`).
-/

namespace Xv6.Fs

open List

/-! ## `mkfs.c` -/

abbrev ninodes : Nat := 200

/-- The inodes that `mkfs` has written. -/
structure Mkfs where
  node : Table ninodes
  freeinode : Nat

namespace Mkfs

def ialloc (m : Mkfs) (type : BitVec 16) : Mkfs where
  node i := if i.val = m.freeinode then { attrs := { type, nlink := 1 } } else m.node i
  freeinode := m.freeinode + 1

/-- `iappend` of a directory entry. -/
def iappendDirent (m : Mkfs) (inum : Nat) (de : Dirent) : Mkfs where
  node i := if i.val = inum then (m.node i).put (m.node i).ents.length de else m.node i
  freeinode := m.freeinode

/-- `iappend` of `n` bytes of a file. -/
def iappend (m : Mkfs) (inum n : Nat) : Mkfs where
  node i := if i.val = inum then ⟨(m.node i).attrs.withSize ((m.node i).attrs.size + n), (m.node i).ents⟩ else m.node i
  freeinode := m.freeinode

/-- The body of the loop over the files, with the name and the size of the file. -/
def file (m : Mkfs) (f : Name × Nat) : Mkfs :=
  ((m.ialloc tFile).iappendDirent rootino ⟨m.freeinode % 2 ^ 16, f.1.take dirsiz⟩).iappend m.freeinode f.2

/-- "fix size of root inode dir": the rest of its last block has unused entries. -/
def fixRoot (m : Mkfs) : Mkfs where
  node i := if i.val = rootino then
      let size := ((m.node i).attrs.size / bsize + 1) * bsize
      ⟨(m.node i).attrs.withSize size, (m.node i).ents ++ replicate ((size - (m.node i).attrs.size) / 16) ⟨0, []⟩⟩
    else m.node i
  freeinode := m.freeinode

/-- The root directory with its first two entries. -/
def root : Mkfs :=
  ((({ node := fun _ => {}, freeinode := 1 } : Mkfs).ialloc tDir).iappendDirent rootino ⟨rootino, dot⟩).iappendDirent rootino
    ⟨rootino, dotdot⟩

end Mkfs

/-- The files that `mkfs` is called with: names without slashes, and sizes. There
are inodes for all of them. -/
structure Image where
  files : List (Name × Nat)
  fits : files.length + 2 ≤ ninodes
  names : ∀ f ∈ files, f.1 ≠ dot ∧ f.1 ≠ dotdot

def mkfs (img : Image) : Table ninodes := (img.files.foldl Mkfs.file Mkfs.root).fixRoot.node

/-! ## The image is well formed -/

/-- What the system calls need of a disk. -/
structure WellFormed {N : Nat} (n : Table N) : Prop where
  small : N ≤ 2 ^ 16
  root : ∃ h : rootino < N, (n ⟨rootino, h⟩).attrs.type = tDir
  dots : Dots n
  dirs : ∀ i, (n i).attrs.type = tDir → DirOk N (n i)
  tidy : Tidy n

namespace Mkfs

/-- What is true of the inodes while `mkfs` adds files. -/
structure Ok (m : Mkfs) (k : Nat) : Prop where
  next : m.freeinode = k + 2
  fresh : ∀ i : Fin ninodes, m.freeinode ≤ i.val → m.node i = {}
  dots : Dots m.node
  dir : ∀ i, (m.node i).attrs.type = tDir → i.val = rootino
  size : ∀ i : Fin ninodes, i.val = rootino → (m.node i).attrs.size = 16 * (k + 2) ∧ (m.node i).ents.length = k + 2
  inum : ∀ i : Fin ninodes, i.val = rootino → ∀ a ∈ (m.node i).ents, a.inum < ninodes
  exact : Exact m.node
  small : Small m.node
  tidy : Tidy m.node
  positive : Positive m.node

variable {m : Mkfs} {k : Nat}

theorem root_node (i : Fin ninodes) : root.node i =
    if i.val = rootino then ⟨{ type := tDir, nlink := 1, size := 32 }, [⟨rootino, dot⟩, ⟨rootino, dotdot⟩]⟩ else {} := by
  by_cases hi : i.val = rootino
  · simp [root, iappendDirent, ialloc, hi, Node.put, Attrs.withSize]
  · simp [root, iappendDirent, ialloc, hi]

theorem root_ok : root.Ok 0 := by
  have h1 : rootino = 1 := rfl
  have hnil : ∀ i, (root.node i).subs = [] := fun i => by
    rw [root_node]
    split <;> rfl
  have hrefs : ∀ i, refs root.node i = 0 := fun i => by
    by_contra h0
    obtain ⟨d, a, ha, -⟩ := exists_of_refs_pos (Nat.pos_of_ne_zero h0)
    rw [hnil] at ha
    cases ha
  have hdir : ∀ i, (root.node i).attrs.type = tDir → i.val = rootino := fun i hi => by
    rw [root_node] at hi
    split at hi
    · assumption
    · cases hi
  have hsub : ∀ d i, ¬ Sub root.node d i := by
    rintro d i ⟨a, ha, -⟩
    rw [hnil] at ha
    cases ha
  have hshape : Shape root.node := by
    refine ⟨fun r hr => ?_, fun i hi => ?_, fun i _ => ?_, fun d i hs => absurd hs (hsub d i), fun i hi => ?_⟩
    · rw [hrefs, root_node, if_pos hr]
      exact ⟨rfl, rfl, rfl⟩
    · rw [hrefs] at hi
      exact absurd hi (lt_irrefl 0)
    · rw [hrefs]
      exact Nat.zero_le 1
    · obtain ⟨j, hs, -⟩ := Relation.TransGen.head'_iff.mp hi
      exact hsub i j hs
  refine ⟨rfl, fun i hi => ?_, fun i hi => ?_, hdir,
    fun i hi => ?_, fun i hi => ?_, ⟨hshape, fun i => ?_, fun d _ _ => hnil d⟩,
    fun i => ?_, fun i hi => ?_, fun i hi => ?_⟩
  · rw [root_node, if_neg]
    have : 2 ≤ i.val := hi
    omega
  · have hi' := hdir i hi
    rw [root_node, if_pos hi']
    refine ⟨by omega, ⟨rootino, [], by decide, by rw [hi']⟩, fun b hb => ?_⟩
    cases hb
  · rw [root_node, if_pos hi]
    exact ⟨rfl, rfl⟩
  · rw [root_node, if_pos hi]
    simp
  · rw [links, hrefs, hshape.kids_of_subs_nil (hnil i), root_node, rootLink]
    split <;> rfl
  · rw [root_node]
    split <;> decide
  · rw [root_node] at hi ⊢
    split at hi
    · rw [if_pos ‹_›]; decide
    · exact absurd rfl hi
  · rw [root_node] at hi
    split at hi
    · omega
    · exact absurd rfl hi

theorem file_node (h : m.Ok k) (hk : k + 3 ≤ ninodes) (f : Name × Nat) (i : Fin ninodes) :
    (m.file f).node i = if i.val = rootino then (m.node i).put (m.node i).ents.length ⟨m.freeinode, f.1.take dirsiz⟩
      else if i.val = m.freeinode then ⟨{ type := tFile, nlink := 1, size := f.2 }, []⟩ else m.node i := by
  have hne : rootino ≠ m.freeinode := by
    rw [h.next]
    unfold rootino
    omega
  have hmod : m.freeinode % 2 ^ 16 = m.freeinode := by
    refine Nat.mod_eq_of_lt ?_
    rw [h.next]
    unfold ninodes at hk
    omega
  simp only [file, iappend, iappendDirent, ialloc, hmod]
  by_cases hr : i.val = rootino
  · simp only [hr, if_true, if_neg hne]
  · by_cases hi : i.val = m.freeinode
    · simp [hi, Attrs.withSize, Ne.symm hne]
    · simp [hr, hi]

theorem file_ok (h : m.Ok k) (hk : k + 3 ≤ ninodes) {f : Name × Nat} (hf : f.1 ≠ dot ∧ f.1 ≠ dotdot) :
    (m.file f).Ok (k + 1) := by
  have hnext := h.next
  have h1 : rootino = 1 := rfl
  have hne : m.freeinode ≠ rootino := by omega
  have hnode := file_node h hk f
  have hlt : m.freeinode < ninodes := by omega
  -- the root gets an entry for the new inode
  let r : Fin ninodes := ⟨rootino, by decide⟩
  let i : Fin ninodes := ⟨m.freeinode, hlt⟩
  have hri : r ≠ i := fun he => hne (congrArg Fin.val he).symm
  have hr := hnode r
  rw [if_pos rfl] at hr
  have hi : (m.file f).node i = ⟨{ type := tFile, nlink := 1, size := f.2 }, []⟩ := by
    rw [hnode, if_neg hne, if_pos rfl]
  have hother : ∀ j, j ≠ r → j ≠ i → (m.file f).node j = m.node j := fun j hjr hji => by
    rw [hnode, if_neg (fun he => hjr (Fin.ext he)), if_neg (fun he => hji (Fin.ext he))]
  have hempty : m.node i = {} := h.fresh i (le_rfl)
  obtain ⟨hrd, hr0, hrp⟩ := h.exact.root r rfl
  have hlen := (h.size r rfl).2
  have hname : f.1.take dirsiz ≠ dot ∧ f.1.take dirsiz ≠ dotdot := by
    have htake : ∀ l : Name, l.length < dirsiz → f.1.take dirsiz = l → f.1 = l := fun l hl he => by
      have hlen := congrArg List.length he
      rw [length_take] at hlen
      rw [← he, take_of_length_le (by omega)]
    exact ⟨fun he => hf.1 (htake dot (by decide) he), fun he => hf.2 (htake dotdot (by decide) he)⟩
  have hfree : Free (m.node r) (m.node r).ents.length := ⟨le_rfl, fun h => absurd h (lt_irrefl _)⟩
  have hsub : (m.node i).subs = [] := by rw [hempty]; rfl
  have hrefs : refs m.node i = 0 := by
    by_contra h0
    exact h.exact.alloc i (Nat.pos_of_ne_zero h0) (by rw [hempty])
  have hgrown : Grown m.node (m.file f).node r i ⟨m.freeinode, f.1.take dirsiz⟩ :=
    grown_of_put hrd hfree h.dots (show 0 < m.freeinode by omega) hr hother hsub (by rw [hi]; rfl) (fun _ => hrefs)
      fun hd => by rw [hi] at hd; cases hd
  have hexact : Exact (m.file f).node := by
    refine Change.exact (hgrown.change h.exact.toShape hri ?_ ?_ hne ?_
      (.inr ⟨?_, hrefs, h.exact.kids_of_subs_nil hsub⟩) ?_ fun j hjr hji => by rw [hother j hjr hji]) trivial h.exact
    · rw [hi]; exact (by decide : tFile ≠ 0)
    · rw [hi]; rfl
    · exact fun _ : True => h.tidy r (by rw [hrd]; decide)
    · rw [hi]
    · rw [hi, hr]; rfl
  have hcases : ∀ j, j = r ∨ j = i ∨ (m.file f).node j = m.node j := fun j => by
    by_cases hjr : j = r
    · exact .inl hjr
    · by_cases hji : j = i
      · exact .inr (.inl hji)
      · exact .inr (.inr (hother j hjr hji))
  refine ⟨?_, fun j hj => ?_, fun j hj => ?_, fun j hj => ?_, fun j hj => ?_, fun j hj a ha => ?_, hexact,
    fun j => ?_, fun j hj => ?_,
    fun j hj => ?_⟩
  · show m.freeinode + 1 = _
    omega
  · have : m.freeinode + 1 ≤ j.val := hj
    rw [hother j (fun he => ?_) fun he => ?_]
    · exact h.fresh j (by omega)
    · have : j.val = rootino := congrArg Fin.val he
      omega
    · have : j.val = m.freeinode := congrArg Fin.val he
      omega
  · rcases hcases j with rfl | rfl | he
    · rw [hr]
      exact (h.dots r hrd).put (by omega) fun _ => hname
    · rw [hi] at hj; cases hj
    · rw [he] at hj ⊢
      exact h.dots j hj
  · rcases hcases j with rfl | rfl | he
    · rfl
    · rw [hi] at hj; cases hj
    · rw [he] at hj
      exact h.dir j hj
  · obtain rfl : j = r := Fin.ext hj
    obtain ⟨hs, hl⟩ := h.size r rfl
    rw [hr]
    simp only [Node.put, Attrs.withSize, hs, hl, if_neg (lt_irrefl _), length_append, length_singleton]
    exact ⟨by omega, trivial⟩
  · obtain rfl : j = r := Fin.ext hj
    rw [hr] at ha
    simp only [Node.put, if_neg (lt_irrefl _), mem_append, mem_singleton] at ha
    rcases ha with ha | rfl
    · exact h.inum r rfl a ha
    · exact hlt
  · rcases hcases j with rfl | rfl | he
    · rw [hr]; exact h.small r
    · rw [hi]; exact (by decide : (1 : BitVec 16).toNat < 2 ^ 15)
    · rw [he]; exact h.small j
  · rcases hcases j with rfl | rfl | he
    · rw [hr]; exact h.tidy r (by rw [hrd]; decide)
    · rw [hi]; exact (by decide : (1 : BitVec 16) ≠ 0)
    · rw [he] at hj ⊢; exact h.tidy j hj
  · rcases hcases j with rfl | rfl | he
    · exact one_pos
    · show 0 < m.freeinode
      omega
    · rw [he] at hj; exact h.positive j hj

theorem files_ok (files : List (Name × Nat)) (hnames : ∀ f ∈ files, f.1 ≠ dot ∧ f.1 ≠ dotdot) (h : m.Ok k)
    (hk : k + files.length + 2 ≤ ninodes) : (files.foldl file m).Ok (k + files.length) := by
  induction files generalizing m k with
  | nil => exact h
  | cons f files ih =>
    rw [length_cons] at hk ⊢
    have := ih (fun g hg => hnames g (mem_cons_of_mem _ hg)) (file_ok h (by omega) (hnames f mem_cons_self)) (by omega)
    rw [foldl_cons, show k + (files.length + 1) = k + 1 + files.length by omega]
    exact this

/-- What is true of the image. -/
structure Made (n : Table ninodes) : Prop where
  wellFormed : WellFormed n
  exact : Exact n
  small : Small n
  positive : Positive n

theorem fixRoot_ok (h : m.Ok k) (hk : k + 2 ≤ ninodes) : Made m.fixRoot.node := by
  have hother : ∀ i : Fin ninodes, i.val ≠ rootino → m.fixRoot.node i = m.node i := fun i hi => if_neg hi
  have hroot : ∀ i : Fin ninodes, i.val = rootino → ∃ size p, m.fixRoot.node i = ⟨(m.node i).attrs.withSize size,
      (m.node i).ents ++ replicate p ⟨0, []⟩⟩ ∧ size = 16 * (k + 2 + p) ∧ size ≤ 16 * (k + 2) + 1024 := fun i hi => by
    obtain ⟨hs, -⟩ := h.size i hi
    refine ⟨_, _, if_pos hi, ?_, ?_⟩ <;> rw [hs] <;> unfold bsize <;> omega
  have hattrs : ∀ i, (m.fixRoot.node i).attrs.type = (m.node i).attrs.type ∧
      (m.fixRoot.node i).attrs.nlink = (m.node i).attrs.nlink := fun i => by
    by_cases hi : i.val = rootino
    · obtain ⟨size, p, he, -⟩ := hroot i hi
      rw [he]
      exact ⟨rfl, rfl⟩
    · rw [hother i hi]
      exact ⟨rfl, rfl⟩
  have hsubs : ∀ i, (m.fixRoot.node i).subs = (m.node i).subs := fun i => by
    by_cases hi : i.val = rootino
    · obtain ⟨size, p, he, -⟩ := hroot i hi
      rw [he, Node.subs, Node.subs]
      rw [drop_append_of_le_length (by rw [(h.size i hi).2]; omega), filter_append]
      simp
    · rw [hother i hi]
  have hlen : ∀ i : Fin ninodes, i.val = rootino → 2 ≤ (m.node i).ents.length := fun i hi => by
    rw [(h.size i hi).2]; omega
  have hchange : Change True m.node m.fixRoot.node := by
    refine .of_subs h.exact.toShape hsubs (fun i => (hattrs i).1) (fun i hd => ?_) fun i => (hattrs i).2
    obtain ⟨size, p, he, -⟩ := hroot i (h.dir i hd)
    rw [he, Node.parent, Node.parent, getElem?_append_left (by have := hlen i (h.dir i hd); omega)]
  refine ⟨⟨by decide, ⟨by decide, ?_⟩, fun i hd => ?_, fun i hd => ?_, fun i hi => ?_⟩, hchange.exact trivial h.exact,
    fun i => ?_,
    fun i hi => ?_⟩
  · rw [(hattrs _).1]
    exact (h.exact.root _ rfl).1
  · rw [(hattrs i).1] at hd
    obtain ⟨size, p, he, -⟩ := hroot i (h.dir i hd)
    obtain ⟨hpos, ⟨q, rest, hq, hents⟩, hnames⟩ := h.dots i hd
    rw [he]
    refine ⟨hpos, ⟨q, rest ++ replicate p ⟨0, []⟩, hq, by rw [hents]; rfl⟩, fun b hb hne => ?_⟩
    rw [drop_append_of_le_length (hlen i (h.dir i hd)), mem_append, mem_replicate] at hb
    rcases hb with hb | ⟨-, rfl⟩
    · exact hnames b hb hne
    · exact absurd rfl hne
  · rw [(hattrs i).1] at hd
    have hi := h.dir i hd
    obtain ⟨size, p, he, hsize, hmax⟩ := hroot i hi
    rw [he]
    refine ⟨?_, ?_, fun a ha => ?_⟩
    · rw [length_append, length_replicate, (h.size i hi).2]
      exact hsize
    · have hk' : k + 2 ≤ 200 := hk
      have hb : maxfile * bsize = 274432 := by decide
      show size ≤ maxfile * bsize
      omega
    · rw [mem_append, mem_replicate] at ha
      rcases ha with ha | ⟨-, rfl⟩
      · exact h.inum i hi a ha
      · decide
  · rw [(hattrs i).1] at hi
    rw [(hattrs i).2]
    exact h.tidy i hi
  · rw [(hattrs i).2]
    exact h.small i
  · rw [(hattrs i).1] at hi
    exact h.positive i hi

end Mkfs

theorem mkfs_ok (img : Image) : Mkfs.Made (mkfs img) :=
  Mkfs.fixRoot_ok (Mkfs.files_ok img.files img.names Mkfs.root_ok (by have := img.fits; omega)) (by have := img.fits; omega)

/-! ## The first process -/

variable {N : Nat}

/-- The state after `userinit`, on a disk with these inodes. -/
def boot (n : Table N) : St (Nodes N) where
  core := {
    icache := fun b => if b = 0 then { dev := rootdev, inum := rootino, ref := 1 } else {}
    file := fun _ => {}
    proc := fun p => if p = 0 then { used := true, cwd := some 0 } else {}
    pipe := fun _ => none
    hist := {} }
  low := { node := n, disks := [n] }

theorem boot_users (n : Table N) (b : Slot) : (boot n).users.count b = if b = 0 then 1 else 0 := by
  have h₁ : tally (boot n).core.file (fileRef b) = 0 := by
    by_contra h0
    obtain ⟨f, hf⟩ := exists_of_tally_pos (Nat.pos_of_ne_zero h0)
    cases hf
  have h2 : tally (boot n).core.proc (cwdRef b) = if b = 0 then 1 else 0 := by
    refine (total_single (i := 0) fun p hp => ?_).trans ?_
    · simp [boot, cwdRef, hp]
    · simp only [boot, cwdRef, if_true, Option.some.injEq, Bool.toNat, Bool.cond_decide, eq_comm]
  show tally _ _ + tally _ _ = _
  rw [h₁, h2, zero_add]

theorem boot_inv {n : Table N} (h : WellFormed n) : Inv (boot n) := by
  obtain ⟨hN, hroot⟩ := h.root
  have hcaches : ∀ b (i : Fin N), Caches (boot n).core b i → b = 0 ∧ i = ⟨rootino, hN⟩ := fun b i ⟨hr, hi⟩ => by
    by_cases hb : b = 0
    · subst hb
      exact ⟨rfl, Fin.ext hi.symm⟩
    · simp [boot, hb] at hr
  have hfd : ∀ f, total (boot n).core.proc (fdRef f) = 0 := fun f => by
    by_contra h0
    obtain ⟨p, hp⟩ := exists_of_total_pos (Nat.pos_of_ne_zero h0)
    obtain ⟨fd, hfd⟩ := exists_of_tally_pos hp
    by_cases hp0 : p = 0 <;> simp [boot, hp0] at hfd
  have hend : ∀ f pi w, ¬ EndOf ((boot n).core.file f) pi w := fun f pi w he => absurd he.ref (lt_irrefl 0)
  refine ⟨⟨⟨fun f => ?_, fun f _ => rfl, fun f hf => ?_, fun f hf => ?_, fun pi w => ⟨?_, ?_⟩, fun f f' pi w hf =>
    ?_, fun pi e he => ?_⟩,
    ⟨fun b => ?_, fun b b' i hb hb' => ?_, fun b hb => ?_, fun b hb => ?_, fun b i hb => ?_, fun b i hb _ => ?_,
      fun b i _ hw => ?_,
      h.dirs, fun i hi h0 => ?_⟩⟩, fun p => ?_, fun p fd hp => ?_, h.dots⟩
  · rw [hfd]; rfl
  · rw [hfd] at hf; exact absurd hf (lt_irrefl 0)
  · exact absurd hf (lt_irrefl 0)
  · rintro ⟨f, hf⟩; exact absurd hf (hend f pi w)
  · rintro ⟨e, he, -⟩; cases he
  · exact absurd hf (hend f pi w)
  · cases he
  · have : (users (boot n).core.file (boot n).core.proc).count b = _ := boot_users n b
    rw [this]
    by_cases hb : b = 0 <;> simp [boot, hb]
  · rw [(hcaches b i hb).1, (hcaches b' i hb').1]
  · by_cases hb0 : b = 0
    · subst hb0; rfl
    · simp [boot, hb0] at hb
  · by_cases hb0 : b = 0
    · subst hb0; exact ⟨⟨rootino, hN⟩, one_pos, rfl⟩
    · simp [boot, hb0] at hb
  · have := hb.2
    by_cases hb0 : b = 0 <;> simp [boot, hb0] at this
  · rw [(hcaches b i hb).2]
    show (n _).attrs.type ≠ 0
    rw [hroot]; decide
  · obtain ⟨f, hf, -⟩ := hw
    cases hf
  · exact absurd h0 (h.tidy i hi)
  · by_cases hp : p = 0 <;> simp [boot, hp]
  · by_cases hp0 : p = 0 <;> simp [boot, hp0]

end Xv6.Fs
