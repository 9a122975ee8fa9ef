import Mathlib.Data.Fintype.Card
import Mathlib.Data.List.Nodup
import Xv6.Bio.Model

/-!
# The invariant of the buffer cache

Each process has a ghost value: the buffers that it holds, those that it is
about to lock or has just unlocked, and, while it holds `bcache.lock`, what it
protects (`View`). The rest of the invariant is about the shared state alone:
the ring, the reference counts and, if no block number is read from two
devices, what the cache and the disk know of each block (`Store`).

One lemma for each kind of step says that it keeps the shared part.
-/

namespace Xv6.Bio

open Function List

open Log (BufId Buf)

/-- What `bcache.lock` protects. -/
structure View where
  block : BufId → Block
  refcnt : BufId → BitVec 32
  links : Links BufId

def State.view (s : State) : View := ⟨s.block, fun i => (s.buf i).refcnt, s.links⟩

def View.order (v : View) : List BufId := v.links.walk nbuf (v.links.next none)

/-- What a process knows: what `bcache.lock` protects, while it holds it, the
buffers that it has locked and whose data are valid, those that it has just
locked, and those with a reference but no lock. -/
structure Ghost where
  held : List (BufId × Block) := []
  fresh : List (BufId × Block) := []
  pend : List (BufId × Block) := []
  view : Option View := none

def Ghost.locks (g : Ghost) : List BufId := (g.held ++ g.fresh).map (·.1)

def Ghost.refs (g : Ghost) : List (BufId × Block) := g.held ++ g.fresh ++ g.pend

/-- What is known of one process. -/
structure Own (s : State) (t : Pid) (g : Ghost) : Prop where
  lk : s.lk = some t ↔ g.view ≠ none
  view : ∀ v, g.view = some v → s.view = v
  lock : ∀ i, (s.buf i).lock = some t ↔ i ∈ g.locks
  nodup : g.locks.Nodup
  holds : ∀ i, s.hist.holds.count (t, i) = (g.refs.map (·.1)).count i
  key : ∀ x ∈ g.refs, s.block x.1 = x.2 ∧ x.2 ∈ s.hist.reads
  valid : ∀ x ∈ g.held, (s.buf x.1).valid = true

/-- `i` was released after `j`, or neither was released yet. -/
def Later (s : State) (i j : BufId) : Prop :=
  s.hist.freedAt j < s.hist.freedAt i ∨ s.hist.freedAt i = 0 ∧ s.hist.freedAt j = 0

/-- Two buffers have different blocks, except that the buffers that have not
been used yet all have block 0 of device 0; a second one with that block is
neither held nor valid. -/
def Apart (s : State) (i j : BufId) : Prop :=
  s.block i = s.block j → s.block i = (0, 0) ∧ (s.buf j).valid = false ∧ ∀ t, (t, j) ∉ s.hist.holds

/-- What the disk, which was `d` at the start, and the valid buffers know of
each block. -/
structure Store (d : Nat → Bytes) (s : State) : Prop where
  unread : ∀ n, (∀ y ∈ s.hist.reads, y.2 ≠ n) → s.disk n = d n
  fresh : ∀ y, y ∉ s.hist.reads → s.hist.mark y = .untouched
  untouched : ∀ y, s.hist.mark y = .untouched → s.hist.last y = d y.2
  disk : ∀ y ∈ s.hist.reads, s.hist.mark y = .untouched ∨ s.hist.mark y = .written → s.disk y.2 = s.hist.last y
  cache : ∀ i, (s.buf i).valid = true → s.hist.mark (s.block i) ≠ .lost → (s.buf i).data = s.hist.last (s.block i)
  dirty : ∀ y, s.hist.mark y = .dirty → ∃ i, s.block i = y ∧ (s.buf i).valid = true ∧ 0 < s.refs i

/-- The part of the invariant that is about the shared state alone. -/
structure Global (d : Nat → Bytes) (s : State) : Prop where
  bal : Balanced s
  cnt : ∀ i, (s.buf i).refcnt = .ofNat 32 (s.refs i)
  ring : s.links.Ring s.order
  all : ∀ i, i ∈ s.order
  later : s.order.Pairwise (Later s)
  apart : s.order.Pairwise (Apart s)
  clock : ∀ i, s.hist.freedAt i ≤ s.hist.clock
  misses : ∀ m ∈ s.hist.misses, m.LastUnused
  reads : ∀ i, (s.buf i).valid = true → s.block i ∈ s.hist.reads
  store : OneDev s → Store d s

structure Inv (d : Nat → Bytes) (s : State) (γ : Pid → Ghost) : Prop where
  own : ∀ t, Own s t (γ t)
  glob : Global d s

variable {d : Nat → Bytes} {s s' : State} {γ : Pid → Ghost} {g g' : Ghost} {t u : Pid} {b i j : BufId} {blk : Block}

/-! ## The ring -/

theorem order_eq {l : List BufId} (hr : s.links.Ring l) : s.order = l := by
  refine hr.walk_eq ?_
  have := List.Nodup.length_le_card hr.nodup
  rwa [Fintype.card_fin] at this

theorem mem_order_insert {l : List BufId} (hl : ∀ i, i ∈ l) (b i : BufId) : i ∈ b :: l.erase b := by
  rcases eq_or_ne i b with rfl | hi
  · exact mem_cons_self
  · exact mem_cons_of_mem _ ((mem_erase_of_ne hi).2 (hl i))

/-- Of two buffers with the same block, one of which is held, the other is
unused. -/
theorem Global.apart_held (h : Global d s) (ht : (t, i) ∈ s.hist.holds) (hij : j ≠ i) : Apart s i j := by
  intro hb
  obtain ⟨p, q, hpq, -⟩ := eq_append_cons_of_mem (h.all i)
  have hap := h.apart
  rw [hpq, pairwise_append, pairwise_cons] at hap
  have hj := h.all j
  rw [hpq, mem_append, mem_cons] at hj
  rcases hj with hj | hj | hj
  · exact absurd ht ((hap.2.2 j hj i mem_cons_self hb.symm).2.2 t)
  · exact absurd hj hij
  · exact hap.2.1.1 j hj hb

theorem Global.eq_of_held (h : Global d s) (ht : (t, i) ∈ s.hist.holds) (hb : s.block i = s.block j)
    (hv : (s.buf j).valid = true) : i = j := by
  by_contra hij
  rw [(h.apart_held ht (Ne.symm hij) hb).2.1] at hv
  exact Bool.false_ne_true hv

theorem Global.uniqueBlocks (h : Global d s) : UniqueBlocks s := by
  intro i j hd hb
  by_contra hij
  have hz : s.block i ≠ (0, 0) := fun e => hd (congrArg Prod.fst e)
  obtain ⟨p, q, hpq, -⟩ := eq_append_cons_of_mem (h.all i)
  have hap := h.apart
  rw [hpq, pairwise_append, pairwise_cons] at hap
  have hj := h.all j
  rw [hpq, mem_append, mem_cons] at hj
  rcases hj with hj | hj | hj
  · exact hz (hb.trans (hap.2.2 j hj i mem_cons_self hb.symm).1)
  · exact hij hj.symm
  · exact hz (hap.2.1.1 j hj hb).1

/-! ## Reference counts -/

theorem refs_pos_of_holds (ht : (t, i) ∈ s.hist.holds) : 0 < s.refs i := by
  have : 0 < s.hist.holds.countP (·.2 = i) := countP_pos_iff.2 ⟨_, ht, by simp⟩
  exact Nat.add_pos_left this _

theorem Global.refcnt_eq_zero (h : Global d s) : (s.buf i).refcnt = 0 ↔ s.refs i = 0 := by
  have hlt := h.bal.2 i
  rw [h.cnt i]
  constructor
  · intro e
    have := congrArg BitVec.toNat e
    rwa [BitVec.toNat_ofNat, Nat.mod_eq_of_lt hlt] at this
  · intro e
    rw [e]
    rfl

theorem ofNat_sub_one {n : Nat} (hn : 0 < n) : BitVec.ofNat 32 n - 1 = BitVec.ofNat 32 (n - 1) := by
  obtain ⟨m, rfl⟩ : ∃ m, n = m + 1 := ⟨n - 1, by omega⟩
  rw [Nat.add_sub_cancel, BitVec.ofNat_add]
  exact BitVec.add_sub_cancel _ _

/-! ## Other processes -/

theorem Own.mem_holds (h : Own s t g) {x : BufId × Block} (hx : x ∈ g.refs) : (t, x.1) ∈ s.hist.holds := by
  have hpos : 0 < (g.refs.map (·.1)).count x.1 := count_pos_iff.2 (mem_map_of_mem hx)
  rw [← h.holds] at hpos
  exact count_pos_iff.1 hpos

/-- A step of `t` keeps what is known of `u`. -/
theorem Own.frame (h : Own s u g) (hlk : s'.lk = some u ↔ s.lk = some u) (hview : s.lk = some u → s'.view = s.view)
    (hlock : ∀ i, (s'.buf i).lock = some u ↔ (s.buf i).lock = some u)
    (hholds : ∀ i, s'.hist.holds.count (u, i) = s.hist.holds.count (u, i))
    (hkey : ∀ i, (u, i) ∈ s.hist.holds → s'.block i = s.block i) (hreads : ∀ y ∈ s.hist.reads, y ∈ s'.hist.reads)
    (hvalid : ∀ i, (s.buf i).lock = some u → (s.buf i).valid = true → (s'.buf i).valid = true) : Own s' u g where
  lk := hlk.trans h.lk
  view v hv := (hview (h.lk.2 (by simp [hv]))).trans (h.view v hv)
  lock i := (hlock i).trans (h.lock i)
  nodup := h.nodup
  holds i := (hholds i).trans (h.holds i)
  key x hx := ⟨(hkey x.1 (h.mem_holds hx)).trans (h.key x hx).1, hreads _ (h.key x hx).2⟩
  valid x hx := hvalid x.1 ((h.lock x.1).2 (mem_map_of_mem (mem_append_left _ hx))) (h.valid x hx)

theorem Inv.self (h : Inv d s γ) (ht : γ t = g) : Own s t g := ht ▸ h.own t

theorem Inv.update (h : Inv d s γ) (ht : Own s' t g') (hother : ∀ u, u ≠ t → Own s u (γ u) → Own s' u (γ u))
    (hg : Global d s') : Inv d s' (update γ t g') := by
  refine ⟨fun u => ?_, hg⟩
  rcases eq_or_ne u t with rfl | hu
  · rw [update_self]; exact ht
  · rw [update_of_ne hu]; exact hother u hu (h.own u)

/-! ## Steps on the shared part -/

/-- Two buffers stay apart, if the second one is not taken, or filled by a
holder. -/
theorem Apart.mono (h : Apart s i j) (hi : s'.block i = s.block i) (hj : s'.block j = s.block j)
    (hv : (s.buf j).valid = false → (∀ u, (u, j) ∉ s.hist.holds) → (s'.buf j).valid = false)
    (hh : ∀ u, (u, j) ∈ s'.hist.holds → (u, j) ∈ s.hist.holds) : Apart s' i j := by
  intro e
  rw [hi, hj] at e
  obtain ⟨h1, h2, h3⟩ := h e
  exact ⟨hi.trans h1, hv h2 h3, fun u hu => h3 u (hh u hu)⟩

/-- A step that changes only locks of buffers. -/
theorem Global.congr (h : Global d s) {f : BufId → Buf} (hs : s' = { s with buf := f }) (hblk : s'.block = s.block)
    (hv : ∀ i, (s'.buf i).valid = (s.buf i).valid) (hc : ∀ i, (s'.buf i).refcnt = (s.buf i).refcnt)
    (hdata : ∀ i, (s'.buf i).data = (s.buf i).data) : Global d s' := by
  subst hs
  refine { h with
    cnt := fun i => (hc i).trans (h.cnt i), apart := h.apart.imp fun hij => ?_, reads := fun i => ?_, store := fun ho => ?_ }
  · exact hij.mono (congrFun hblk _) (congrFun hblk _) (fun hj _ => (hv _).trans hj) fun _ => id
  · rw [hv, hblk]; exact h.reads i
  · have hs := h.store ho
    refine { hs with cache := fun i => ?_, dirty := fun y hy => ?_ }
    · rw [hv, hblk, hdata]; exact hs.cache i
    · obtain ⟨i, hi, hvi, hr⟩ := hs.dirty y hy
      exact ⟨i, by rw [hblk, hi], by rw [hv, hvi], hr⟩

/-- A block is asked for, and gets a buffer. Valid buffers with references
stay as they are. -/
theorem Store.read (h : OneDev s → Store d s) (ho : OneDev s') (hreads : s'.hist.reads = blk :: s.hist.reads)
    (hmark : s'.hist.mark = s.hist.mark) (hlast : s'.hist.last = s.hist.last) (hdisk : s'.disk = s.disk)
    (hcache : ∀ i, (s'.buf i).valid = true →
      (s.buf i).valid = true ∧ (s'.buf i).data = (s.buf i).data ∧ s'.block i = s.block i)
    (hkeep : ∀ i, (s.buf i).valid = true → 0 < s.refs i → (s'.buf i).valid = true ∧ s'.block i = s.block i ∧ 0 < s'.refs i) :
    Store d s' := by
  have hmem : ∀ y ∈ s.hist.reads, y ∈ s'.hist.reads := fun y hy => by rw [hreads]; exact mem_cons_of_mem _ hy
  have hs := h fun x hx y hy => ho x (hmem x hx) y (hmem y hy)
  constructor
  · intro n hn
    rw [hdisk]
    exact hs.unread n fun y hy => hn y (hmem y hy)
  · intro y hy
    rw [hmark]
    exact hs.fresh y fun hy' => hy (hmem y hy')
  · intro y hy
    rw [hlast]
    exact hs.untouched y (by rwa [hmark] at hy)
  · intro y hy hm
    rw [hmark] at hm
    rw [hdisk, hlast]
    by_cases hy' : y ∈ s.hist.reads
    · exact hs.disk y hy' hm
    · -- the first read of this block: its block number has not been read from any device
      have hun := hs.unread y.2 fun z hz e => hy' (ho z (hmem z hz) y hy e ▸ hz)
      rw [hun, hs.untouched y (hs.fresh y hy')]
  · intro i hv hm
    obtain ⟨hv, hdata, hblk⟩ := hcache i hv
    rw [hmark, hblk] at hm
    rw [hdata, hlast, hblk]
    exact hs.cache i hv hm
  · intro y hy
    rw [hmark] at hy
    obtain ⟨i, hi, hv, hr⟩ := hs.dirty y hy
    obtain ⟨hv, hblk, hr⟩ := hkeep i hv hr
    exact ⟨i, hblk.trans hi, hv, hr⟩

/-- Only references change; a dirty block may be lost. -/
theorem Store.count (h : Store d s) (hreads : s'.hist.reads = s.hist.reads) (hlast : s'.hist.last = s.hist.last)
    (hdisk : s'.disk = s.disk) (hblk : s'.block = s.block) (hv : ∀ i, (s'.buf i).valid = (s.buf i).valid)
    (hdata : ∀ i, (s'.buf i).data = (s.buf i).data)
    (hmark : ∀ y, s'.hist.mark y = s.hist.mark y ∨ s.hist.mark y = .dirty ∧ s'.hist.mark y = .lost)
    (hdirty : ∀ i, s'.hist.mark (s.block i) = .dirty → 0 < s.refs i → 0 < s'.refs i) : Store d s' := by
  have hold : ∀ y m, m ≠ .lost → s'.hist.mark y = m → s.hist.mark y = m := by
    intro y m hm hy
    rcases hmark y with e | ⟨-, e⟩
    · rw [← e, hy]
    · exact absurd (hy.symm.trans e) hm
  constructor
  · rw [hreads, hdisk]; exact h.unread
  · intro y hy
    have hu := h.fresh y (by rwa [hreads] at hy)
    rcases hmark y with e | ⟨e, -⟩
    · rw [e, hu]
    · rw [hu] at e; cases e
  · intro y hy
    rw [hlast]
    exact h.untouched y (hold y _ (by decide) hy)
  · intro y hy hm
    rw [hdisk, hlast]
    exact h.disk y (by rwa [hreads] at hy) (hm.imp (hold y _ (by decide)) (hold y _ (by decide)))
  · intro i hvi hm
    rw [hblk] at hm ⊢
    rw [hdata, hlast]
    refine h.cache i (by rwa [hv] at hvi) fun e => ?_
    rcases hmark (s.block i) with e' | ⟨e', -⟩
    · exact hm (e'.trans e)
    · rw [e] at e'; cases e'
  · intro y hy
    obtain ⟨i, hi, hvi, hr⟩ := h.dirty y (hold y _ (by decide) hy)
    exact ⟨i, by rw [hblk, hi], by rw [hv, hvi], hdirty i (by rwa [hi]) hr⟩

theorem refs_cons_holds (t : Pid) (b i : BufId) (hh : s'.hist.holds = (t, b) :: s.hist.holds)
    (hp : s'.hist.pins = s.hist.pins) : s'.refs i = s.refs i + if i = b then 1 else 0 := by
  rcases eq_or_ne i b with rfl | hi
  · simp [State.refs, hh, hp]; omega
  · simp [State.refs, hh, hp, hi, hi.symm]

theorem block_keep {x : Buf} (hbuf : s'.buf = update s.buf b x) (hx : (x.dev, x.blockno) = s.block b) : s'.block = s.block :=
  funext (update_keep (fun x => (x.dev, x.blockno)) hbuf hx)

/-- `takeRef`, for the first buffer of the ring with the block. -/
theorem Global.takeRef (h : Global d s) (hb : s.block b = blk)
    (hfirst : ∃ p q, s.order = p ++ b :: q ∧ ∀ i ∈ p, s.block i ≠ blk)
    (hs' : s' = ((s.modBuf b fun x => { x with refcnt := x.refcnt + 1 }).modHist
      fun h => { h with holds := (t, b) :: h.holds, reads := blk :: h.reads })) (hbal : Balanced s') : Global d s' := by
  have hbuf : s'.buf = update s.buf b { s.buf b with refcnt := (s.buf b).refcnt + 1 } := by subst hs'; rfl
  have hblk := block_keep hbuf rfl
  have hv : ∀ i, (s'.buf i).valid = (s.buf i).valid := update_keep Buf.valid hbuf rfl
  have hdata : ∀ i, (s'.buf i).data = (s.buf i).data := update_keep Buf.data hbuf rfl
  have hrefs : ∀ i, s'.refs i = s.refs i + if i = b then 1 else 0 := fun i =>
    refs_cons_holds t b i (by subst hs'; rfl) (by subst hs'; rfl)
  subst hs'
  refine { h with bal := hbal, cnt := fun i => ?_, apart := ?_, reads := fun i hi => ?_, store := fun ho => ?_ }
  · rw [hrefs]
    rcases eq_or_ne i b with rfl | hi
    · simp [h.cnt, BitVec.ofNat_add]
    · simp [h.cnt, hi]
  · -- the new holder is of the first buffer with its block
    show s.order.Pairwise _
    obtain ⟨p, q, hpq, hfirst⟩ := hfirst
    have hap := h.apart
    have hkeep : ∀ i j, j ≠ b → Apart s i j → Apart _ i j := fun i j hj hij =>
      hij.mono (congrFun hblk i) (congrFun hblk j) (fun h2 _ => (hv j).trans h2) fun u hu =>
        (mem_cons.1 hu).resolve_left fun e => hj (congrArg Prod.snd e)
    have hnd := h.ring.nodup
    rw [hpq] at hap hnd ⊢
    rw [pairwise_append, pairwise_cons] at hap ⊢
    obtain ⟨hp, ⟨hbq, hq⟩, hcross⟩ := hap
    obtain ⟨-, hndq, hdisj⟩ := nodup_append.1 hnd
    have hqb : ∀ j ∈ q, j ≠ b := fun j hj e => (nodup_cons.1 hndq).1 (e ▸ hj)
    have hpb : ∀ j ∈ p, j ≠ b := fun j hj e => hdisj j hj b mem_cons_self e
    refine ⟨hp.imp_of_mem fun _ hj => hkeep _ _ (hpb _ hj), ⟨fun j hj => hkeep _ _ (hqb j hj) (hbq j hj),
      hq.imp_of_mem fun _ hj => hkeep _ _ (hqb _ hj)⟩, fun i hi j hj => ?_⟩
    rcases mem_cons.1 hj with rfl | hj'
    · intro e
      rw [hblk] at e
      exact absurd (e.trans hb) (hfirst i hi)
    · exact hkeep _ _ (hqb j hj') (hcross i hi j hj)
  · rw [hblk]
    exact mem_cons_of_mem _ (h.reads i (by rwa [hv] at hi))
  · refine .read h.store ho rfl rfl rfl rfl (fun i hi => ⟨by rwa [hv] at hi, hdata i, congrFun hblk i⟩) fun i hvi hr =>
      ⟨by rwa [hv], congrFun hblk i, ?_⟩
    rw [hrefs]; omega

/-- `recycle`, for a buffer without references and a block that is not cached. -/
theorem Global.recycle (h : Global d s) (hmiss : ∀ i, s.block i ≠ blk)
    (hlru : s.order.reverse.find? (fun i => (s.buf i).refcnt = 0) = some b)
    (hs' : s' = ((s.modBuf b fun x => { x with dev := blk.1, blockno := blk.2, valid := false, refcnt := 1 }).modHist
    fun h => { h with
      holds := (t, b) :: h.holds
      reads := blk :: h.reads
      misses := ⟨b, s.order, (finRange nbuf).filter fun i => (s.buf i).refcnt = 0,
        (finRange nbuf).filter fun i => s.refs i = 0⟩ :: h.misses })) (hbal : Balanced s') : Global d s' := by
  have hb0 : s.refs b = 0 := h.refcnt_eq_zero.1 (by simpa using find?_some hlru)
  have hne : ∀ i, i ≠ b → s'.buf i = s.buf i := by
    subst hs'; exact fun i hi => update_of_ne hi _ _
  have hself : s'.buf b = { s.buf b with dev := blk.1, blockno := blk.2, valid := false, refcnt := 1 } := by
    subst hs'; exact update_self _ _ _
  have hblk : ∀ i, i ≠ b → s'.block i = s.block i := fun i hi => by simp only [State.block, hne i hi]
  have hblkb : s'.block b = blk := by simp only [State.block, hself]
  have hrefs : ∀ i, s'.refs i = s.refs i + if i = b then 1 else 0 := fun i =>
    refs_cons_holds t b i (by subst hs'; rfl) (by subst hs'; rfl)
  subst hs'
  refine { h with
    bal := hbal, cnt := fun i => ?_, apart := ?_, misses := fun m hm => ?_, reads := fun i hi => ?_, store := fun ho => ?_ }
  · rw [hrefs]
    rcases eq_or_ne i b with rfl | hi
    · rw [hself, if_pos rfl, hb0]; rfl
    · rw [hne i hi, if_neg hi]; exact h.cnt i
  · have hnd : s.order.Pairwise (· ≠ ·) := h.ring.nodup
    refine (h.apart.and hnd).imp ?_
    rintro i j ⟨hij, hd⟩
    rcases eq_or_ne i b with rfl | hi
    · intro e
      rw [hblkb, hblk j hd.symm] at e
      exact absurd e.symm (hmiss j)
    rcases eq_or_ne j b with rfl | hj
    · intro e
      rw [hblkb, hblk i hi] at e
      exact absurd e (hmiss i)
    exact hij.mono (hblk i hi) (hblk j hj) (fun h2 _ => by rw [hne j hj, h2]) fun u hu =>
      (mem_cons.1 hu).resolve_left fun e => hj (congrArg Prod.snd e)
  · rcases mem_cons.1 hm with rfl | hm
    · refine ⟨?_, by simp [hb0]⟩
      simpa using hlru
    · exact h.misses m hm
  · rcases eq_or_ne i b with rfl | hib
    · rw [hself] at hi; exact nomatch hi
    · rw [hblk i hib]
      exact mem_cons_of_mem _ (h.reads i (by rwa [hne i hib] at hi))
  · refine .read h.store ho rfl rfl rfl rfl (fun i hi => ?_) fun i hvi hr => ?_
    · have hib : i ≠ b := by
        intro e; subst e; rw [hself] at hi; exact Bool.false_ne_true hi
      rw [hne i hib] at hi ⊢
      exact ⟨hi, rfl, hblk i hib⟩
    · have hib : i ≠ b := by
        intro e; subst e; omega
      rw [hne i hib, hblk i hib, hrefs i]
      exact ⟨hvi, rfl, by omega⟩

/-- The holder of buffer `b` fills it from the disk. -/
theorem Global.fill (h : Global d s) (ht : (t, b) ∈ s.hist.holds) (hr : s.block b ∈ s.hist.reads)
    (hv : (s.buf b).valid = false) (hs' : s' = s.modBuf b fun x => { x with data := s.disk x.blockno, valid := true }) :
    Global d s' := by
  have hbuf : s'.buf = update s.buf b { s.buf b with data := s.disk (s.buf b).blockno, valid := true } := by
    subst hs'; rfl
  have hblk := block_keep hbuf rfl
  have hne : ∀ i, i ≠ b → s'.buf i = s.buf i := fun i hi => by rw [hbuf, update_of_ne hi]
  have hself : s'.buf b = { s.buf b with data := s.disk (s.buf b).blockno, valid := true } := by
    rw [hbuf, update_self]
  subst hs'
  refine { h with cnt := fun i => ?_, apart := h.apart.imp fun hij => ?_, reads := fun i hi => ?_, store := fun ho => ?_ }
  · exact (update_keep Buf.refcnt hbuf rfl i).trans (h.cnt i)
  · refine hij.mono (congrFun hblk _) (congrFun hblk _) (fun h2 h3 => ?_) fun _ => id
    rwa [hne _ fun hj => h3 t (by rw [hj]; exact ht)]
  · rw [hblk]
    rcases eq_or_ne i b with rfl | hib
    · exact hr
    · exact h.reads i (by rwa [hne i hib] at hi)
  · have hs := h.store ho
    -- a dirty block has a valid buffer, which would be `b`
    have hclean : s.hist.mark (s.block b) ≠ .dirty := by
      intro hm
      obtain ⟨j, hj, hvj, -⟩ := hs.dirty _ hm
      rw [← h.eq_of_held ht hj.symm hvj, hv] at hvj
      exact Bool.false_ne_true hvj
    refine { hs with cache := fun i hi hm => ?_, dirty := fun y hy => ?_ }
    · rw [hblk] at hm ⊢
      rcases eq_or_ne i b with rfl | hib
      · rw [hself]
        refine hs.disk _ hr ?_
        cases hk : s.hist.mark (s.block i) with
        | untouched => exact .inl rfl
        | written => exact .inr rfl
        | dirty => exact absurd hk hclean
        | lost => exact absurd hk hm
      · rw [hne i hib] at hi ⊢
        exact hs.cache i hi hm
    · obtain ⟨i, hi, hvi, hri⟩ := hs.dirty y hy
      refine ⟨i, by rw [hblk, hi], ?_, hri⟩
      rcases eq_or_ne i b with rfl | hib
      · rw [hself]
      · rw [hne i hib, hvi]

/-- The holder of a valid buffer changes its data. -/
theorem Global.modify (h : Global d s) (ht : (t, b) ∈ s.hist.holds) (hv : (s.buf b).valid = true) (f : Bytes → Bytes)
    (hs' : s' = (s.modBuf b fun x => { x with data := f x.data }).modHist fun h => { h with
      mark := update h.mark (s.block b) .dirty
      last := update h.last (s.block b) (f (s.buf b).data) }) : Global d s' := by
  have hbuf : s'.buf = update s.buf b { s.buf b with data := f (s.buf b).data } := by subst hs'; rfl
  have hblk := block_keep hbuf rfl
  have hvalid : ∀ i, (s'.buf i).valid = (s.buf i).valid := update_keep Buf.valid hbuf rfl
  have hmark : s'.hist.mark = update s.hist.mark (s.block b) .dirty := by subst hs'; rfl
  have hlast : s'.hist.last = update s.hist.last (s.block b) (f (s.buf b).data) := by subst hs'; rfl
  have hold : ∀ y, y ≠ s.block b → s'.hist.mark y = s.hist.mark y ∧ s'.hist.last y = s.hist.last y := fun y hy => by
    rw [hmark, hlast, update_of_ne hy, update_of_ne hy]; exact ⟨rfl, rfl⟩
  have hneq : ∀ y m, m ≠ .dirty → s'.hist.mark y = m → y ≠ s.block b := by
    intro y m hm hy e
    rw [e, hmark, update_self] at hy
    exact hm hy.symm
  subst hs'
  refine { h with cnt := fun i => ?_, apart := h.apart.imp fun hij => ?_, reads := fun i hi => ?_, store := fun ho => ?_ }
  · exact (update_keep Buf.refcnt hbuf rfl i).trans (h.cnt i)
  · exact hij.mono (congrFun hblk _) (congrFun hblk _) (fun h2 _ => (hvalid _).trans h2) fun _ => id
  · rw [hblk]
    exact h.reads i (by rwa [hvalid] at hi)
  · have hs := h.store ho
    refine ⟨hs.unread, fun y hy => ?_, fun y hy => ?_, fun y hy hm => ?_, fun i hi hm => ?_, fun y hy => ?_⟩
    · have hne : y ≠ s.block b := fun e => hy (e ▸ h.reads b hv)
      rw [(hold y hne).1]
      exact hs.fresh y hy
    · have hne := hneq y _ (by decide) hy
      rw [(hold y hne).2]
      exact hs.untouched y (by rwa [(hold y hne).1] at hy)
    · have hne : y ≠ s.block b := hm.elim (hneq y _ (by decide)) (hneq y _ (by decide))
      rw [(hold y hne).2]
      rw [(hold y hne).1] at hm
      exact hs.disk y hy hm
    · rw [hblk] at hm ⊢
      rw [hvalid] at hi
      rcases eq_or_ne i b with rfl | hib
      · rw [hlast, update_self, hbuf, update_self]
      · have hne : s.block i ≠ s.block b := fun e => hib (h.eq_of_held ht e.symm hi).symm
        rw [(hold _ hne).2, hbuf, update_of_ne hib]
        exact hs.cache i hi (by rwa [(hold _ hne).1] at hm)
    · rw [hblk]
      by_cases hyb : y = s.block b
      · exact ⟨b, hyb.symm, by rw [hvalid, hv], refs_pos_of_holds ht⟩
      · rw [(hold y hyb).1] at hy
        obtain ⟨i, hi, hvi, hri⟩ := hs.dirty y hy
        exact ⟨i, hi, by rw [hvalid, hvi], hri⟩

theorem Mark.write_ne_dirty (m : Mark) : m.write ≠ .dirty := by cases m <;> decide

theorem Mark.of_write {m m' : Mark} (h : m.write = m') (hm : m' = .untouched ∨ m' = .lost) : m = m' := by
  subst h
  cases m <;> simp_all [Mark.write]

/-- The holder of a valid buffer writes it to the disk. -/
theorem Global.bwrite (h : Global d s) (hv : (s.buf b).valid = true) (hs' : s' = { s with
      disk := update s.disk (s.buf b).blockno (s.buf b).data
      hist := { s.hist with mark := update s.hist.mark (s.block b) (s.hist.mark (s.block b)).write } }) :
    Global d s' := by
  subst hs'
  refine { h with store := fun ho => ?_ }
  have hs := h.store ho
  have hb := h.reads b hv
  have hold : ∀ y, y ≠ s.block b → update s.hist.mark (s.block b) (s.hist.mark (s.block b)).write y =
      s.hist.mark y := fun y hy => update_of_ne hy _ _
  have hnew : update s.hist.mark (s.block b) (s.hist.mark (s.block b)).write (s.block b) =
      (s.hist.mark (s.block b)).write := update_self _ _ _
  have hdisk : ∀ y ∈ s.hist.reads, y ≠ s.block b →
      update s.disk (s.buf b).blockno (s.buf b).data y.2 = s.disk y.2 := fun y hy hne =>
    update_of_ne (fun e => hne (ho y hy _ hb e)) _ _
  refine ⟨fun n hn => ?_, fun y hy => ?_, fun y hy => ?_, fun y hy hm => ?_, fun i hi hm => ?_, fun y hy => ?_⟩
  · exact (update_of_ne (hn _ hb).symm _ _).trans (hs.unread n hn)
  · have hne : y ≠ s.block b := fun e => hy (e ▸ hb)
    exact (hold y hne).trans (hs.fresh y hy)
  · refine hs.untouched y ?_
    by_cases hyb : y = s.block b
    · subst hyb
      exact Mark.of_write (hnew.symm.trans hy) (.inl rfl)
    · exact (hold y hyb).symm.trans hy
  · by_cases hyb : y = s.block b
    · subst hyb
      refine (update_self _ _ _).trans (hs.cache b hv fun e => ?_)
      change update s.hist.mark (s.block b) _ _ = _ ∨ update s.hist.mark (s.block b) _ _ = _ at hm
      rw [hnew, e] at hm
      exact hm.elim nofun nofun
    · change update s.hist.mark (s.block b) _ _ = _ ∨ update s.hist.mark (s.block b) _ _ = _ at hm
      rw [hold y hyb] at hm
      exact (hdisk y hy hyb).trans (hs.disk y hy hm)
  · refine hs.cache i hi fun e => hm ?_
    show update s.hist.mark (s.block b) _ (s.block i) = _
    by_cases hyb : s.block i = s.block b
    · rw [hyb, hnew, ← hyb, e]; rfl
    · rw [hold _ hyb, e]
  · change update s.hist.mark (s.block b) _ y = _ at hy
    have hyb : y ≠ s.block b := by
      intro e
      rw [e, hnew] at hy
      exact Mark.write_ne_dirty _ hy
    rw [hold y hyb] at hy
    exact hs.dirty y hy

/-- The number of references to buffer `b` changes; nothing else does, except
that a block that loses its last reference may be lost. -/
theorem Global.count (h : Global d s) {c : BitVec 32} {holds : List (Pid × BufId)} {pins : List BufId} {unb : Bool}
    {m : Block → Mark}
    (hs' : s' = (s.modBuf b ({ · with refcnt := c })).modHist fun h => { h with holds, pins, unbalanced := unb, mark := m })
    (hc : c = .ofNat 32 (s'.refs b)) (hrefs : ∀ i, i ≠ b → s'.refs i = s.refs i) (hholds : ∀ x ∈ holds, x ∈ s.hist.holds)
    (hmark : ∀ y, m y = s.hist.mark y ∨ s.hist.mark y = .dirty ∧ m y = .lost) (hdirty : m (s.block b) = .dirty → 0 < s'.refs b)
    (hbal : Balanced s') : Global d s' := by
  have hbuf : s'.buf = update s.buf b { s.buf b with refcnt := c } := by subst hs'; rfl
  have hblk := block_keep hbuf rfl
  have hvalid : ∀ i, (s'.buf i).valid = (s.buf i).valid := update_keep Buf.valid hbuf rfl
  have hdata : ∀ i, (s'.buf i).data = (s.buf i).data := update_keep Buf.data hbuf rfl
  subst hs'
  refine { h with
    bal := hbal, cnt := fun i => ?_, apart := h.apart.imp fun hij => ?_, reads := fun i hi => ?_, store := fun ho => ?_ }
  · rcases eq_or_ne i b with rfl | hi
    · rw [hbuf, update_self]; exact hc
    · rw [hbuf, update_of_ne hi, hrefs i hi]; exact h.cnt i
  · exact hij.mono (congrFun hblk _) (congrFun hblk _) (fun h2 _ => (hvalid _).trans h2) fun _ => hholds _
  · rw [hblk]
    exact h.reads i (by rwa [hvalid] at hi)
  · refine (h.store ho).count rfl rfl rfl hblk hvalid hdata hmark fun i hi hr => ?_
    rcases eq_or_ne i b with rfl | hib
    · exact hdirty hi
    · rw [hrefs i hib]; exact hr

/-- A buffer moves to the head of the ring. -/
theorem Global.toFront (h : Global d s) (hb : ∀ j, j ≠ b → Apart s b j) (hs' : s' = { s with
      links := (s.links.remove b).insert b
      hist := { s.hist with clock := s.hist.clock + 1, freedAt := update s.hist.freedAt b (s.hist.clock + 1) } }) :
    Global d s' := by
  have hring : s'.links.Ring (b :: s.order.erase b) := by subst hs'; exact h.ring.toFront (h.all b)
  have horder : s'.order = b :: s.order.erase b := order_eq hring
  have hfreed : s'.hist.freedAt = update s.hist.freedAt b (s.hist.clock + 1) := by subst hs'; rfl
  have hnb : ∀ j ∈ s.order.erase b, j ≠ b := fun j hj => ((List.Nodup.mem_erase_iff h.ring.nodup).1 hj).1
  subst hs'
  refine { h with
    ring := by rw [horder]; exact hring, all := by rw [horder]; exact mem_order_insert h.all b, later := ?_, apart := ?_
    clock := fun i => ?_, store := fun ho => { h.store ho with } }
  · rw [horder, pairwise_cons]
    refine ⟨fun j hj => .inl ?_, (h.later.sublist erase_sublist).imp_of_mem fun hi hj hij => ?_⟩
    · rw [hfreed, update_self, update_of_ne (hnb j hj)]
      exact Nat.lt_succ_of_le (h.clock j)
    · unfold Later
      rw [hfreed, update_of_ne (hnb _ hi), update_of_ne (hnb _ hj)]
      exact hij
  · have hap : (b :: s.order.erase b).Pairwise (Apart s) :=
      pairwise_cons.2 ⟨fun j hj => hb j (hnb j hj), h.apart.sublist erase_sublist⟩
    rw [horder]
    exact hap
  · rw [hfreed]
    rcases eq_or_ne i b with rfl | hi
    · rw [update_self]
    · rw [update_of_ne hi]
      exact Nat.le_succ_of_le (h.clock i)

theorem dropped_unbalanced (s : State) (b : BufId) : (s.dropped b).hist.unbalanced = s.hist.unbalanced := by
  unfold State.dropped; split <;> rfl

/-- Only the mark of the block changes. -/
theorem dropped_eq (s : State) (b : BufId) : ∃ m, s.dropped b = s.modHist ({ · with mark := m }) ∧
    (∀ y, m y = s.hist.mark y ∨ s.hist.mark y = .dirty ∧ m y = .lost) ∧ (m (s.block b) = .dirty → 0 < s.refs b) := by
  unfold State.dropped
  split
  · refine ⟨_, rfl, fun y => ?_, fun hm => ?_⟩
    · by_cases hy : y = s.block b
      · subst hy
        rw [update_self]
        cases s.hist.mark (s.block b) <;> simp [Mark.drop]
      · rw [update_of_ne hy]; exact .inl rfl
    · rw [update_self] at hm
      cases hk : s.hist.mark (s.block b) <;> rw [hk] at hm <;> cases hm
  · rename_i hr
    exact ⟨s.hist.mark, rfl, fun y => .inl rfl, fun _ => Nat.pos_of_ne_zero hr⟩

end Xv6.Bio
