import Xv6.Bio.Inv

/-!
# The buffer cache: what each function does

One specification for each function of `bio.c`, in terms of the calling
process's ghost value, and from them the promises of the cache in every run
(`cache_refines_store`).
-/

namespace Xv6.Bio

open List

open Log (BufId Buf)

variable {d : Nat → Bytes} {s s' : State} {γ : Pid → Ghost} {g : Ghost} {t : Pid} {b : BufId} {blk : Block} {v : View}

/-- The program keeps the invariant, and panics only for want of buffers. -/
abbrev Spec (d : Nat → Bytes) (t : Pid) {α : Type} (p : KProg α) (g : Ghost) (Q : α → Ghost → Prop) : Prop :=
  Safe Balanced (Inv d) (· = "bget: no buffers") t p g Q

/-! ## `bcache.lock` -/

theorem acquire_spec (hg : g.view = none) : Spec d t acquire g fun _ g' =>
    ∃ v, g' = { g with view := some v } ∧ v.links.Ring v.order ∧ ∀ i, i ∈ v.order := by
  refine .step fun s γ h ht => ?_
  have hown := h.self ht
  split
  · rename_i hl
    refine fun _ => ⟨{ g with view := some s.view }, h.update ?_ (fun u hu hown => ?_) ?_, s.view, rfl, h.glob.ring,
      h.glob.all⟩
    · exact { hown with lk := by simp, view := fun v hv => Option.some.inj hv }
    · have hu' : some t = some u ↔ s.lk = some u := by simp [hl, hu.symm]
      exact { hown with lk := hu'.trans hown.lk }
    · exact { h.glob with store := fun ho => { h.glob.store ho with } }
  · rename_i u hl
    split
    · rename_i e
      exact absurd hg (hown.lk.1 (e ▸ hl))
    · trivial

theorem Own.locked (h : Own s t g) (hv : g.view = some v) : s.lk = some t := h.lk.2 (by simp [hv])

theorem release_spec (hg : g.view = some v) : Spec d t release g fun _ g' => g' = { g with view := none } := by
  refine .step fun s γ h ht => ?_
  have hown := h.self ht
  have hl := hown.locked hg
  rw [if_pos hl]
  refine fun _ => ⟨_, h.update ?_ (fun u hu hown => ?_) ?_, rfl⟩
  · exact { hown with lk := by simp, view := nofun }
  · have hu' : none = some u ↔ s.lk = some u := by simp [hl, hu.symm]
    exact { hown with lk := hu'.trans hown.lk }
  · exact { h.glob with store := fun ho => { h.glob.store ho with } }

theorem Inv.same (h : Inv d s γ) (ht : γ t = g) : Inv d s (Function.update γ t g) := by
  rwa [← ht, Function.update_eq_self]

/-- `scan` finds the first buffer of `l` with `P`, if `dir` walks along `l`
and `bcache.lock` protects what `P` depends on. -/
theorem scan_spec {dir : Links BufId → Option BufId → Option BufId} {P : Buf → Bool} {p : BufId → Bool} {l : List BufId}
    (hg : g.view = some v) (hP : ∀ s : State, s.view = v → ∀ i, P (s.buf i) = p i) (hhead : dir v.links none = l.head?)
    (hdir : ∀ l1 i l2, l = l1 ++ i :: l2 → dir v.links (some i) = l2.head?) :
    Spec d t (scan dir P) g fun r g' => g' = g ∧ r = l.find? p := by
  refine .bind (R := fun b g' => g' = g ∧ b = l.head?) (.step fun s γ h ht _ => ?_) ?_
  · have hv := (h.own t).view v (by rw [ht, hg])
    exact ⟨g, h.same ht, rfl, by rw [← hhead, ← hv]; rfl⟩
  rintro _ _ ⟨e, rfl⟩
  rw [e]
  refine .loop (J := fun b g' => g' = g ∧ ∃ l1 l2, l = l1 ++ l2 ∧ b = l2.head? ∧ ∀ i ∈ l1, p i = false) ?_
    ⟨rfl, [], l, rfl, rfl, nofun⟩
  rintro b _ ⟨e, l1, l2, rfl, rfl, hl1⟩
  rw [e]
  refine .step fun s γ h ht _ => ⟨g, h.same ht, ?_⟩
  have hv := (h.own t).view v (by rw [ht, hg])
  have hfind : l1.find? p = none := find?_eq_none.2 fun i hi => by simp [hl1 i hi]
  cases l2 with
  | nil => exact ⟨rfl, by simp [hfind]⟩
  | cons i l2 =>
    simp only [head?_cons, hP s hv i]
    cases hi : p i with
    | true => exact ⟨trivial, by simp [find?_append, hfind, hi]⟩
    | false =>
      refine ⟨trivial, l1 ++ [i], l2, by simp, ?_, fun j hj => ?_⟩
      · rw [show s.links = v.links by rw [← hv]; rfl]
        exact hdir l1 i l2 rfl
      · rcases mem_append.1 hj with hj | hj
        · exact hl1 j hj
        · rw [mem_singleton.1 hj, hi]

/-! ## Taking and dropping references -/

variable {w : List (BufId × Block)} {g' : Ghost}

section Locked

variable (h : Inv d s γ) (ht : γ t = g) (hl : s.lk = some t) (hlk : s'.lk = s.lk)
  (hlock : ∀ i, (s'.buf i).lock = (s.buf i).lock)

include h ht hl hlk hlock

/-- A step under `bcache.lock` that changes the references of `t` to buffers
that it has not locked. -/
theorem Inv.lockedStep (hreads : ∀ y ∈ s.hist.reads, y ∈ s'.hist.reads)
    (hholds : ∀ u, u ≠ t → ∀ i, s'.hist.holds.count (u, i) = s.hist.holds.count (u, i))
    (hcount : ∀ i, s'.hist.holds.count (t, i) = ((g.held ++ g.fresh ++ w).map (·.1)).count i)
    (hkeep : ∀ u i, (u, i) ∈ s.hist.holds → s'.block i = s.block i ∧ (s'.buf i).valid = (s.buf i).valid)
    (hw : ∀ x ∈ w, s'.block x.1 = x.2 ∧ x.2 ∈ s'.hist.reads) (hglob : Global d s') :
    Inv d s' (Function.update γ t { g with view := some s'.view, pend := w }) := by
  have hown := h.self ht
  have hkeep' : ∀ x ∈ g.held ++ g.fresh, s'.block x.1 = s.block x.1 ∧ (s'.buf x.1).valid = (s.buf x.1).valid := fun x hx =>
    hkeep t x.1 (hown.mem_holds (mem_append_left _ hx))
  refine h.update ⟨by simp [hlk, hl], fun v hv => Option.some.inj hv, fun i => by rw [hlock]; exact hown.lock i, hown.nodup,
    hcount, fun x hx => ?_, fun x hx => ?_⟩ (fun u hu hown => ?_) hglob
  · rcases mem_append.1 hx with hx | hx
    · have hkey := hown.key x (mem_append_left _ hx)
      exact ⟨(hkeep' x hx).1.trans hkey.1, hreads _ hkey.2⟩
    · exact hw x hx
  · rw [(hkeep' x (mem_append_left _ hx)).2]
    exact hown.valid x hx
  · refine hown.frame (by rw [hlk]) (by simp [hl, hu.symm]) (fun i => by rw [hlock]) (hholds u hu)
      (fun i hi => (hkeep u i hi).1) hreads fun i hi hv => ?_
    obtain ⟨x, hx, rfl⟩ := mem_map.1 ((hown.lock i).1 hi)
    rw [(hkeep u x.1 (hown.mem_holds (mem_append_left _ hx))).2, hv]

/-- A process gets a reference: `holds` and `reads` grow, the buffer that it
gets has the block, and nobody else's buffers change. -/
theorem Inv.addRef (hholds : s'.hist.holds = (t, b) :: s.hist.holds)
    (hreads : s'.hist.reads = blk :: s.hist.reads) (hblk : s'.block b = blk)
    (hkeep : ∀ u i, (u, i) ∈ s.hist.holds → s'.block i = s.block i ∧ (s'.buf i).valid = (s.buf i).valid)
    (hglob : Global d s') :
    Inv d s' (Function.update γ t { g with view := some s'.view, pend := (b, blk) :: g.pend }) := by
  have hown := h.self ht
  have hmem : ∀ y ∈ s.hist.reads, y ∈ s'.hist.reads := fun y hy => by rw [hreads]; exact mem_cons_of_mem _ hy
  refine h.lockedStep ht hl hlk hlock hmem (fun u hu i => ?_) (fun i => ?_) hkeep (fun x hx => ?_) hglob
  · rw [hholds, count_cons_of_ne (by simp [hu.symm])]
  · have hcount := hown.holds i
    rw [hholds]
    simp only [Ghost.refs, map_append, map_cons, count_append, count_cons, beq_iff_eq,
      Prod.mk.injEq, true_and] at hcount ⊢
    omega
  · rcases mem_cons.1 hx with rfl | hx
    · exact ⟨hblk, by rw [hreads]; exact mem_cons_self⟩
    · have hx' : x ∈ g.refs := mem_append_right _ hx
      rw [(hkeep t x.1 (hown.mem_holds hx')).1]
      exact ⟨(hown.key x hx').1, hmem _ (hown.key x hx').2⟩

end Locked

theorem takeRef_spec (hg : g.view = some v) (hb : v.block b = blk)
    (hfirst : ∃ p q, v.order = p ++ b :: q ∧ ∀ i ∈ p, v.block i ≠ blk) :
    Spec d t (takeRef blk b) g fun _ g' => ∃ v', g' = { g with view := some v', pend := (b, blk) :: g.pend } := by
  refine .step fun s γ h ht hbal => ?_
  have hown := h.self ht
  obtain rfl := hown.view v hg
  have hglob := h.glob.takeRef (t := t) hb hfirst rfl hbal
  refine ⟨_, h.addRef ht (hown.locked hg) rfl (update_keep Buf.lock rfl rfl) rfl rfl ?_ (fun u i _ => ?_) hglob, _, rfl⟩
  · simpa [State.block, State.view] using hb
  · rcases eq_or_ne i b with rfl | hi
    · simp [State.block]
    · simp [State.block, Function.update_of_ne hi]

theorem recycle_spec (hg : g.view = some v) (hmiss : ∀ i, v.block i ≠ blk)
    (hlru : v.order.reverse.find? (fun i => v.refcnt i = 0) = some b) :
    Spec d t (recycle blk b) g fun _ g' => ∃ v', g' = { g with view := some v', pend := (b, blk) :: g.pend } := by
  refine .step fun s γ h ht hbal => ?_
  have hown := h.self ht
  obtain rfl := hown.view v hg
  have hglob := h.glob.recycle (t := t) hmiss hlru rfl hbal
  have hzero := find?_some hlru
  have hb0 : s.refs b = 0 := h.glob.refcnt_eq_zero.1 (of_decide_eq_true hzero)
  refine ⟨_, h.addRef ht (hown.locked hg) rfl (update_keep Buf.lock rfl rfl) rfl rfl ?_ (fun u i hi => ?_) hglob, _, rfl⟩
  · simp [State.block]
  · have hib : i ≠ b := by
      intro e
      have := refs_pos_of_holds hi
      rw [e, hb0] at this
      exact lt_irrefl _ this
    simp [State.block, Function.update_of_ne hib]

variable {l : List (BufId × Block)}

/-- A step that changes nothing that `bcache.lock` protects, and of the locks
only those that `t` has or gets. -/
theorem Inv.viewStep (h : Inv d s γ) (ht : γ t = g) (hlk : s'.lk = s.lk) (hview : s'.view = s.view)
    (hlock : ∀ i, (s'.buf i).lock = some t ↔ i ∈ g'.locks) (hother : ∀ u, u ≠ t → ∀ i, (s'.buf i).lock = some u ↔
      (s.buf i).lock = some u)
    (hholds : s'.hist.holds = s.hist.holds) (hreads : s'.hist.reads = s.hist.reads)
    (hvalid : ∀ i, (s.buf i).valid = true → (s'.buf i).valid = true) (hgview : g'.view = g.view) (hnd : g'.locks.Nodup)
    (hgrefs : g'.refs.Perm g.refs) (hheld : ∀ x ∈ g'.held, (s'.buf x.1).valid = true) (hglob : Global d s') :
    Inv d s' (Function.update γ t g') := by
  have hown := h.self ht
  have hblk : s'.block = s.block := congrArg View.block hview
  refine h.update ⟨?_, fun v hv => ?_, hlock, hnd, fun i => ?_, fun x hx => ?_, hheld⟩ (fun u hu hown => ?_) hglob
  · rw [hlk, hgview]; exact hown.lk
  · rw [hview]; exact hown.view v (by rwa [hgview] at hv)
  · rw [hholds, (hgrefs.map _).count_eq]; exact hown.holds i
  · rw [hblk, hreads]; exact hown.key x (hgrefs.subset hx)
  · exact hown.frame (by rw [hlk]) (fun _ => hview) (hother u hu) (fun i => by rw [hholds])
      (fun i _ => congrFun hblk i) (fun y hy => by rwa [hreads]) fun i _ => hvalid i

theorem view_eq {x : Buf} (hbuf : s'.buf = Function.update s.buf b x)
    (hx : (x.dev, x.blockno, x.refcnt) = ((s.buf b).dev, (s.buf b).blockno, (s.buf b).refcnt)) (hl : s'.links = s.links) :
    s'.view = s.view := by
  simp only [Prod.mk.injEq] at hx
  have hblk := block_keep hbuf (by simp [hx, State.block])
  have hcnt : ∀ i, (s'.buf i).refcnt = (s.buf i).refcnt := update_keep Buf.refcnt hbuf (by simp [hx])
  simp only [State.view, hblk, hcnt, hl]

/-- A step that changes the lock of buffer `b` only, from or to `t`. -/
theorem Inv.sleepLock {o : Option Pid} (h : Inv d s γ) (ht : γ t = g) (ho : o = none ∨ o = some t)
    (hold : (s.buf b).lock = none ∨ (s.buf b).lock = some t) (hgview : g'.view = g.view) (hrefs : g'.refs.Perm g.refs)
    (hheld : ∀ x ∈ g'.held, x ∈ g.held) (hnd : g'.locks.Nodup)
    (hlock : ∀ i, (if i = b then o else (s.buf i).lock) = some t ↔ i ∈ g'.locks) :
    Inv d (s.modBuf b ({ · with lock := o })) (Function.update γ t g') := by
  generalize hs' : s.modBuf b ({ · with lock := o }) = s'
  have hbuf : s'.buf = Function.update s.buf b { s.buf b with lock := o } := by subst hs'; rfl
  have hlk : ∀ i, (s'.buf i).lock = if i = b then o else (s.buf i).lock := by
    intro i
    rw [hbuf]
    rcases eq_or_ne i b with rfl | hi
    · simp
    · simp [hi]
  have hv : ∀ i, (s'.buf i).valid = (s.buf i).valid := update_keep Buf.valid hbuf rfl
  have hview : s'.view = s.view := view_eq hbuf rfl (by subst hs'; rfl)
  refine h.viewStep ht (by subst hs'; rfl) hview (fun i => by rw [hlk]; exact hlock i) (fun u hu i => ?_) (by subst hs'; rfl)
    (by subst hs'; rfl) (fun i hi => by rwa [hv]) hgview hnd hrefs (fun x hx => by
      rw [hv]; exact (h.self ht).valid x (hheld x hx)) ?_
  · rw [hlk]
    split
    · rename_i hi
      have hne : ∀ o : Option Pid, o = none ∨ o = some t → o ≠ some u := by
        rintro _ (rfl | rfl)
        · nofun
        · exact fun e => hu (Option.some.inj e).symm
      rw [hi]
      exact iff_of_false (hne _ ho) (hne _ hold)
    · rfl
  · exact h.glob.congr hs'.symm (congrArg View.block hview) hv (update_keep Buf.refcnt hbuf rfl)
      (update_keep Buf.data hbuf rfl)

theorem acquiresleep_spec : Spec d t (acquiresleep b) { held := l, pend := [(b, blk)] } fun _ g' =>
    g' = { held := l, fresh := [(b, blk)] } := by
  refine .step fun s γ h ht => ?_
  have hown := h.self ht
  split
  · rename_i hl
    have hb : b ∉ l.map (·.1) := by
      intro hb
      have := (hown.lock b).2 (by simpa [Ghost.locks] using hb)
      rw [hl] at this; cases this
    refine fun _ => ⟨{ held := l, fresh := [(b, blk)] }, h.sleepLock ht (.inr rfl) (.inl hl) rfl ?_ (fun _ => id)
      ?_ fun i => ?_, rfl⟩
    · simp [Ghost.refs]
    · have hnd := hown.nodup
      simp only [Ghost.locks, append_nil] at hnd
      simp only [Ghost.locks, map_append, map_cons, map_nil]
      exact nodup_append.2 ⟨hnd, by simp, fun x hx y hy e => hb (by
        rw [mem_singleton.1 hy] at e; exact e ▸ hx)⟩
    · have := hown.lock i
      simp only [Ghost.locks, append_nil] at this
      simp only [Ghost.locks, map_append, map_cons, map_nil, mem_append, mem_singleton]
      split
      · rename_i e; simp [e]
      · rename_i e; rw [this]; simp [e]
  · trivial

/-- The first step of `brelse`. -/
theorem unlock_spec (hx : (b, blk) ∈ l) :
    Spec d t (.step fun t s => if (s.buf b).lock = some t then .ok () (s.modBuf b ({ · with lock := none }))
      else .panic "brelse") { held := l } fun _ g' => g' = { held := l.erase (b, blk), pend := [(b, blk)] } := by
  refine .step fun s γ h ht => ?_
  have hown := h.self ht
  have hperm : l.Perm ((b, blk) :: l.erase (b, blk)) := perm_cons_erase hx
  have hnd : (l.map (·.1)).Nodup := by simpa [Ghost.locks] using hown.nodup
  have hnd' := (hperm.map (·.1)).nodup_iff.1 hnd
  obtain ⟨hb, hnd'⟩ := nodup_cons.1 hnd'
  have hlock : (s.buf b).lock = some t := (hown.lock b).2 (by
    simp only [Ghost.locks, append_nil]
    exact mem_map_of_mem (f := (·.1)) hx)
  rw [if_pos hlock]
  refine fun _ => ⟨{ held := l.erase (b, blk), pend := [(b, blk)] }, h.sleepLock ht (.inl rfl) (.inr hlock) rfl ?_
    (fun x => mem_of_mem_erase) ?_ fun i => ?_, rfl⟩
  · have : (l.erase (b, blk) ++ [(b, blk)]).Perm l := perm_append_comm.trans hperm.symm
    simpa [Ghost.refs] using this
  · simpa [Ghost.locks] using hnd'
  · simp only [Ghost.locks, append_nil]
    split
    · rename_i e
      rw [e]
      exact iff_of_false nofun hb
    · rename_i e
      rw [hown.lock i]
      have := (hperm.map (·.1)).mem_iff (a := i)
      simp only [Ghost.locks, append_nil]
      rw [this, map_cons, mem_cons]
      exact or_iff_right e

/-! ## Data -/

theorem Own.block_eq (h : Own s t g) {x : BufId × Block} (hx : x ∈ g.refs) : s.block x.1 = x.2 := (h.key x hx).1

/-- A step of the holder of buffer `b` that changes data, `valid`, the disk and
the history of the data only. -/
theorem Inv.dataStep (h : Inv d s γ) (ht : γ t = g) (hlk : s'.lk = s.lk) (hview : s'.view = s.view)
    (hlock : ∀ i, (s'.buf i).lock = (s.buf i).lock) (hholds : s'.hist.holds = s.hist.holds)
    (hreads : s'.hist.reads = s.hist.reads) (hvalid : ∀ i, (s.buf i).valid = true → (s'.buf i).valid = true)
    (hgview : g'.view = g.view) (hglocks : g'.locks.Perm g.locks) (hgrefs : g'.refs.Perm g.refs)
    (hheld : ∀ x ∈ g'.held, (s'.buf x.1).valid = true) (hglob : Global d s') : Inv d s' (Function.update γ t g') := by
  have hown := h.self ht
  exact h.viewStep ht hlk hview (fun i => by rw [hlock, hglocks.mem_iff]; exact hown.lock i) (fun _ _ i => by
    rw [hlock]) hholds hreads
    hvalid hgview (hglocks.nodup_iff.2 hown.nodup) hgrefs hheld hglob

theorem bget_spec : Spec d t (bget blk) { held := l } fun b g' => g' = { held := l, fresh := [(b, blk)] } := by
  refine .bind (acquire_spec rfl) ?_
  rintro _ _ ⟨v, rfl, hring, hall⟩
  have hprev : ∀ l1 i l2, v.order.reverse = l1 ++ i :: l2 → v.links.prev (some i) = l2.head? := by
    intro l1 i l2 e
    have e' : v.order = l2.reverse ++ i :: l1.reverse := by
      rw [← reverse_reverse v.order, e]; simp
    rw [e'] at hring
    rw [hring.prev_eq, getLast?_reverse]
  refine .bind (scan_spec (p := fun i => v.block i = blk) rfl (fun s hs i => ?_) hring.head fun l1 i l2 e => ?_) ?_
  · rw [← hs]
    simp [State.view, State.block, Prod.ext_iff]
  · rw [e] at hring
    exact hring.next_eq
  rintro r _ ⟨rfl, hr⟩
  have hrest : ∀ b (v' : View), Spec d t (do release; acquiresleep b; return b)
      { held := l, view := some v', pend := [(b, blk)] } fun b g' => g' = { held := l, fresh := [(b, blk)] } := by
    intro b v'
    refine .next (release_spec rfl) fun _ => ?_
    exact .next acquiresleep_spec fun _ => Safe.ret rfl
  cases r with
  | some b =>
    obtain ⟨hb, l1, l2, hl, hl1⟩ := find?_eq_some_iff_append.1 hr.symm
    refine .bind (takeRef_spec rfl (of_decide_eq_true hb) ⟨l1, l2, hl, fun i hi => by simpa using hl1 i hi⟩) ?_
    rintro _ _ ⟨v', rfl⟩
    exact hrest b v'
  | none =>
    have hmiss : ∀ i, v.block i ≠ blk := fun i => by simpa using find?_eq_none.1 hr.symm i (hall i)
    refine .bind (scan_spec (p := fun i => v.refcnt i = 0) rfl (fun s hs i => ?_) ?_ hprev) ?_
    · rw [← hs]; rfl
    · rw [hring.last, head?_reverse]
    rintro r _ ⟨rfl, hr⟩
    cases r with
    | some b =>
      refine .bind (recycle_spec rfl hmiss hr.symm) ?_
      rintro _ _ ⟨v', rfl⟩
      exact hrest b v'
    | none => exact .step fun _ _ _ _ => rfl

theorem bread_spec : Spec d t (bread blk) { held := l } fun b g' => g' = { held := (b, blk) :: l } := by
  refine .next bget_spec fun b => ?_
  refine .bind (R := fun _ g' => g' = { held := (b, blk) :: l }) (.step fun s γ h ht _ => ?_) ?_
  · have hown := h.self ht
    have hx : (b, blk) ∈ ({ held := l, fresh := [(b, blk)] } : Ghost).refs := by simp [Ghost.refs]
    have hlocks : ({ held := (b, blk) :: l } : Ghost).locks.Perm ({ held := l, fresh := [(b, blk)] } : Ghost).locks := by
      simpa [Ghost.locks] using @List.perm_append_comm _ [b] _
    have hrefs : ({ held := (b, blk) :: l } : Ghost).refs.Perm ({ held := l, fresh := [(b, blk)] } : Ghost).refs := by
      simpa [Ghost.refs] using @List.perm_append_comm _ [(b, blk)] _
    refine ⟨{ held := (b, blk) :: l }, ?_, rfl⟩
    split
    · rename_i hv
      refine h.dataStep ht rfl rfl (fun _ => rfl) rfl rfl (fun _ => id) rfl hlocks hrefs (fun x hx => ?_) h.glob
      rcases mem_cons.1 hx with rfl | hx
      · exact hv
      · exact hown.valid x hx
    · rename_i hv
      have hglob := h.glob.fill (hown.mem_holds hx) (by rw [hown.block_eq hx]; exact (hown.key _ hx).2) (by simpa using hv) rfl
      have hvalid : ∀ i, (s.buf i).valid = true →
          ((s.modBuf b fun x => { x with data := s.disk x.blockno, valid := true }).buf i).valid = true := by
        intro i hi
        rcases eq_or_ne i b with rfl | hib
        · simp
        · simp [Function.update_of_ne hib, hi]
      refine h.dataStep ht rfl (view_eq (b := b) rfl rfl rfl) (update_keep Buf.lock rfl rfl) rfl rfl hvalid rfl hlocks
        hrefs (fun x hx => ?_) hglob
      rcases mem_cons.1 hx with rfl | hx
      · simp
      · exact hvalid _ (hown.valid x hx)
  · rintro _ _ rfl
    exact .ret rfl

theorem modify_spec (hx : (b, blk) ∈ l) (f : Bytes → Bytes) :
    Spec d t (modify b f) { held := l } fun _ g' => g' = { held := l } := by
  refine .step fun s γ h ht _ => ?_
  have hown := h.self ht
  have hv := hown.valid _ hx
  have hh : (t, b) ∈ s.hist.holds := hown.mem_holds (by simpa [Ghost.refs] using hx)
  have hglob := h.glob.modify hh hv f rfl
  refine ⟨_, h.dataStep ht rfl (view_eq (b := b) rfl rfl rfl) (update_keep Buf.lock rfl rfl) rfl rfl (fun i hi => ?_) rfl
    (.refl _) (.refl _) (fun x hx => ?_) hglob, rfl⟩
  · rw [← hi]; exact update_keep Buf.valid (by rfl) (by rfl) i
  · rw [← hown.valid x hx]; exact update_keep Buf.valid (by rfl) (by rfl) x.1

theorem bwrite_spec (hx : (b, blk) ∈ l) : Spec d t (bwrite b) { held := l } fun _ g' => g' = { held := l } := by
  refine .step fun s γ h ht => ?_
  have hown := h.self ht
  have hlock : (s.buf b).lock = some t := (hown.lock b).2 (by
    simp only [Ghost.locks, append_nil]
    exact mem_map_of_mem (f := (·.1)) hx)
  rw [if_pos hlock]
  exact fun _ => ⟨_, h.dataStep ht rfl rfl (fun _ => rfl) rfl rfl (fun _ => id) rfl (.refl _) (.refl _) hown.valid
    (h.glob.bwrite (hown.valid _ hx) rfl), rfl⟩

/-! ## Releasing, pinning and unpinning -/

/-- A step under `bcache.lock` that changes the references and pins of buffer
`b` only. -/
theorem Inv.countStep {c : BitVec 32} (h : Inv d s γ) (ht : γ t = g) (hl : s.lk = some t)
    (hlk : s'.lk = s.lk) (hbuf : s'.buf = Function.update s.buf b { s.buf b with refcnt := c })
    (hreads : s'.hist.reads = s.hist.reads)
    (hholds : ∀ u, u ≠ t → ∀ i, s'.hist.holds.count (u, i) = s.hist.holds.count (u, i)) (hpend : ∀ x ∈ w, x ∈ g.pend)
    (hcount : ∀ i, s'.hist.holds.count (t, i) = ((g.held ++ g.fresh ++ w).map (·.1)).count i)
    (hglob : Global d s') : Inv d s' (Function.update γ t { g with view := some s'.view, pend := w }) := by
  have hblk := block_keep hbuf rfl
  refine h.lockedStep ht hl hlk (update_keep Buf.lock hbuf rfl) (fun y hy => by rwa [hreads]) hholds hcount
    (fun _ i _ => ⟨congrFun hblk i, update_keep Buf.valid hbuf rfl i⟩) (fun x hx => ?_) hglob
  rw [hblk, hreads]
  exact (h.self ht).key x (mem_append_right _ (hpend x hx))

/-- `bpin` and `bunpin` are a step under `bcache.lock`. -/
theorem locked_spec {f : Pid → State → Res State Unit}
    (hf : ∀ s γ v, Inv d s γ → γ t = { held := l, view := some v } → (f t s).Post (fun _ s' => Balanced s' →
      Inv d s' (Function.update γ t { held := l, view := some s'.view })) (· = "bget: no buffers")) :
    Spec d t (do acquire; .step f; release) { held := l } fun _ g' => g' = { held := l } := by
  refine .bind (acquire_spec rfl) ?_
  rintro _ _ ⟨v, rfl, -, -⟩
  refine .bind (R := fun _ g' => ∃ v, g' = { held := l, view := some v }) (.step fun s γ h ht => ?_) ?_
  · exact (hf s γ v h ht).mono fun _ s' hs' hbal => ⟨_, hs' hbal, _, rfl⟩
  · rintro _ _ ⟨v, rfl⟩
    exact release_spec rfl

theorem bpin_spec (b : BufId) : Spec d t (bpin b) { held := l } fun _ g' => g' = { held := l } := by
  refine locked_spec fun s γ v h ht hbal => ?_
  have hown := h.self ht
  generalize hs' : State.modHist _ _ = s' at hbal ⊢
  have hrefs : ∀ i, s'.refs i = s.refs i + if i = b then 1 else 0 := by
    intro i
    subst hs'
    rcases eq_or_ne i b with rfl | hi
    · simp [State.refs]; omega
    · simp [State.refs, hi, hi.symm]
  have hbuf : s'.buf = Function.update s.buf b { s.buf b with refcnt := (s.buf b).refcnt + 1 } := by subst hs'; rfl
  have hglob : Global d s' := by
    refine h.glob.count hs'.symm ?_ (fun i hi => by rw [hrefs, if_neg hi]; rfl) (fun _ => id) (fun _ => .inl rfl)
      (fun _ => by rw [hrefs, if_pos rfl]; omega) hbal
    rw [hrefs, if_pos rfl, h.glob.cnt, BitVec.ofNat_add]; rfl
  refine h.countStep ht (hown.locked rfl) (by subst hs'; rfl) hbuf (by subst hs'; rfl) (fun _ _ _ => by subst hs'; rfl)
    (fun _ => id) (by subst hs'; exact hown.holds) hglob

/-- The steps of `bunpin` and `brelse` that drop one of the references `holds`
and `pins` to `b`, before the buffer moves in the ring: but for the mark of the
block, nothing else changes. -/
theorem Global.drop (h : Global d s) {holds : List (Pid × BufId)} {pins : List BufId} {unb : Bool}
    (hrefs : ∀ i, holds.countP (·.2 = i) + pins.count i + (if i = b then 1 else 0) = s.refs i)
    (hsub : ∀ x ∈ holds, x ∈ s.hist.holds) (hs' : ((s.modBuf b fun x => { x with refcnt := x.refcnt - 1 }).modHist
      fun h => { h with holds, pins, unbalanced := unb }).dropped b = s') (hunb : unb = false) :
    Global d s' ∧ ∃ m, s' = (s.modBuf b fun x => { x with refcnt := x.refcnt - 1 }).modHist
      fun h => { h with holds, pins, unbalanced := unb, mark := m } := by
  obtain ⟨m, he, hmark, hdirty⟩ := dropped_eq ((s.modBuf b fun x => { x with refcnt := x.refcnt - 1 }).modHist
    fun h => { h with holds, pins, unbalanced := unb }) b
  have hs' := he.symm.trans hs'
  have hrefs' : ∀ i, s'.refs i + (if i = b then 1 else 0) = s.refs i := by subst hs'; exact hrefs
  have hb := hrefs' b
  rw [if_pos rfl] at hb
  refine ⟨h.count hs'.symm ?_ (fun i hi => ?_) hsub hmark (fun hm => ?_) ⟨by subst hs'; exact hunb, fun i => ?_⟩, m, hs'.symm⟩
  · rw [h.cnt b, ofNat_sub_one (by omega), ← hb, Nat.add_sub_cancel]
  · have := hrefs' i
    rwa [if_neg hi] at this
  · subst hs'
    refine hdirty ?_
    simpa [State.block] using hm
  · have := h.bal.2 i
    have := hrefs' i
    omega

theorem bunpin_spec (b : BufId) : Spec d t (bunpin b) { held := l } fun _ g' => g' = { held := l } := by
  refine locked_spec fun s γ v h ht hbal => ?_
  have hown := h.self ht
  generalize hs' : State.dropped _ _ = s' at hbal ⊢
  -- the run is balanced, so there was a pin to remove
  have hunb := hbal.1
  rw [← hs', dropped_unbalanced] at hunb
  have hpin : b ∈ s.hist.pins := by
    by_contra hb
    simp [hb] at hunb
  have hrefs : ∀ i, s.hist.holds.countP (·.2 = i) + (s.hist.pins.erase b).count i + (if i = b then 1 else 0) = s.refs i := by
    intro i
    have hp := (perm_cons_erase hpin).count_eq i
    rw [count_cons] at hp
    simp only [State.refs]
    rcases eq_or_ne i b with rfl | hi
    · simp at hp ⊢; omega
    · simp [hi, hi.symm] at hp ⊢
  obtain ⟨hglob, m, rfl⟩ := h.glob.drop hrefs (fun _ => id) hs' hunb
  exact h.countStep ht (hown.locked rfl) rfl rfl rfl (fun _ _ _ => rfl) (fun _ => id) hown.holds hglob

theorem dropRef_spec : Spec d t (dropRef b) { held := l, pend := [(b, blk)], view := some v } fun _ g' =>
    ∃ v, g' = { held := l, view := some v } := by
  refine .step fun s γ h ht _ => ?_
  have hown := h.self ht
  have hx : (b, blk) ∈ ({ held := l, pend := [(b, blk)], view := some v } : Ghost).refs := by simp [Ghost.refs]
  have hh : (t, b) ∈ s.hist.holds := hown.mem_holds hx
  generalize hs1 : State.dropped _ _ = s1
  have hrefs : ∀ i, (s.hist.holds.erase (t, b)).countP (·.2 = i) + s.hist.pins.count i + (if i = b then 1 else 0) =
      s.refs i := by
    intro i
    have hp := (perm_cons_erase hh).countP_eq (fun x => decide (x.2 = i))
    rw [countP_cons] at hp
    simp only [State.refs]
    rcases eq_or_ne i b with rfl | hi
    · simp at hp ⊢; omega
    · simp [hi, hi.symm] at hp ⊢; omega
  obtain ⟨hglob, m, hs⟩ := h.glob.drop hrefs (fun _ => mem_of_mem_erase) hs1 h.glob.bal.1
  have hbuf : s1.buf = Function.update s.buf b { s.buf b with refcnt := (s.buf b).refcnt - 1 } := by rw [hs]; rfl
  have hholds : s1.hist.holds = s.hist.holds.erase (t, b) := by rw [hs]; rfl
  have hapart : ∀ j, j ≠ b → Apart s1 b j := by
    have hblk := block_keep hbuf rfl
    exact fun j hj => (h.glob.apart_held hh hj).mono (congrFun hblk b) (congrFun hblk j)
      (fun h2 _ => (update_keep Buf.valid hbuf rfl j).trans h2) fun u hu => mem_of_mem_erase (hholds ▸ hu)
  have hfinal : ∀ s' : State, s'.lk = s1.lk → s'.buf = s1.buf → s'.hist.reads = s1.hist.reads →
      s'.hist.holds = s1.hist.holds → Global d s' → Inv d s' (Function.update γ t { held := l, view := some s'.view }) := by
    intro s' hlk hb hr hho hg
    refine h.countStep (w := []) ht (hown.locked rfl) (by rw [hlk, hs]; rfl) (hb.trans hbuf)
      (by rw [hr, hs]; rfl) (fun u hu i => ?_) (by simp) (fun i => ?_) hg
    · rw [hho, hholds, count_erase_of_ne (by simp [hu])]
    · rw [hho, hholds]
      have hp := (perm_cons_erase hh).count_eq (t, i)
      have hc := hown.holds i
      simp only [Ghost.refs, append_nil, map_append, map_cons, map_nil, count_append,
        count_cons, count_nil, Prod.mk.injEq, beq_iff_eq, true_and] at hp hc ⊢
      omega
  split
  · exact ⟨_, hfinal _ rfl rfl rfl rfl (hglob.toFront hapart rfl), _, rfl⟩
  · exact ⟨_, hfinal _ rfl rfl rfl rfl hglob, _, rfl⟩

theorem brelse_spec (hx : (b, blk) ∈ l) :
    Spec d t (brelse b) { held := l } fun _ g' => g' = { held := l.erase (b, blk) } := by
  refine .next (unlock_spec hx) fun _ => ?_
  refine .bind (acquire_spec rfl) ?_
  rintro _ _ ⟨v, rfl, -, -⟩
  refine .bind dropRef_spec ?_
  rintro _ _ ⟨v, rfl⟩
  exact release_spec rfl

/-! ## Whole runs -/

theorem call_spec {x : Call} (hx : client.allowed t l x = true) :
    Spec d t (client.body x l) { held := l } fun l' g' => g' = { held := l' } := by
  cases x with
  | bread blk =>
    exact .next bread_spec fun b => Safe.ret rfl
  | modify b blk f =>
    exact .next (modify_spec (of_decide_eq_true hx) f) fun _ => Safe.ret rfl
  | bwrite b blk =>
    exact .next (bwrite_spec (of_decide_eq_true hx)) fun _ => Safe.ret rfl
  | brelse b blk =>
    exact .next (brelse_spec (of_decide_eq_true hx)) fun _ => Safe.ret rfl
  | bpin b =>
    exact .next (bpin_spec b) fun _ => Safe.ret rfl
  | bunpin b =>
    exact .next (bunpin_spec b) fun _ => Safe.ret rfl

theorem foldl_insert_ring {l m : List BufId} {k : Links BufId} (hk : k.Ring m) (hl : (l.reverse ++ m).Nodup) :
    (l.foldl Links.insert k).Ring (l.reverse ++ m) := by
  induction l generalizing k m with
  | nil => exact hk
  | cons x l ih =>
    rw [reverse_cons, append_assoc] at hl ⊢
    refine ih (hk.insert ?_) hl
    have := (nodup_append.1 hl).2.1
    exact (nodup_cons.1 this).1

theorem binit_inv (d : Nat → Bytes) : Inv d (binit d) fun _ => {} := by
  have hring : (binit d).links.Ring (finRange nbuf).reverse := by
    have := foldl_insert_ring (l := finRange nbuf) Links.Ring.empty (by simpa using nodup_finRange nbuf)
    rwa [append_nil] at this
  have horder := order_eq hring
  refine ⟨fun t => ⟨by simp [binit], by simp, by simp [binit, Ghost.locks], nodup_nil, by simp [binit, Ghost.refs],
    by simp [Ghost.refs], by simp⟩,
      ⟨⟨rfl, fun i => by simp [State.refs, binit]⟩, fun i => by simp [State.refs, binit], by rwa [horder],
    by simp [horder], ?_, ?_, by simp [binit], by simp [binit], by simp [binit], fun _ => ?_⟩⟩
  · exact pairwise_of_forall fun i j => .inr ⟨rfl, rfl⟩
  · exact pairwise_of_forall fun i j _ => ⟨rfl, rfl, by simp [binit]⟩
  · exact ⟨fun _ _ => rfl, fun _ _ => rfl, fun _ _ => rfl, by simp [binit], by simp [binit], by simp [binit]⟩

/-- In every run in which pins are balanced and no reference count overflows:
no block has two buffers, the ring keeps its order, and every buffer recycled
is the last unused one. If moreover no block number is read from two devices,
a process sees in the buffers that it has read what the last holder left
there. -/
theorem cache_refines_store {d : Nat → Bytes} {c : Config State Pid (List (BufId × Block))}
    (hr : Config.Run client Balanced (.idle (binit d) []) c) :
    UniqueBlocks c.shared ∧ RingOrdered c.shared ∧ (∀ m ∈ c.shared.hist.misses, m.LastUnused) ∧
    (OneDev c.shared → ∀ t l, c.thread t = .idle l → ∀ b blk, (b, blk) ∈ l → Sees d c.shared b blk) := by
  obtain ⟨hinv, -⟩ := Config.Run.inv (fun l g => g = ({ held := l } : Ghost)) hr (binit_inv d)
    (fun _ => (rfl : ({} : Ghost) = {}))
    rfl (by rintro t l _ x rfl hx; exact call_spec hx)
  obtain ⟨γ, h, hidle⟩ := hinv 0
  refine ⟨h.glob.uniqueBlocks, ⟨c.shared.order, h.glob.ring, h.glob.all, h.glob.later⟩, h.glob.misses,
    fun ho t l ht b blk hx => ?_⟩
  have hg := hidle t
  rw [ht] at hg
  have hown := h.own t
  rw [show γ t = { held := l } from hg] at hown
  have hs := h.glob.store ho
  have hv := hown.valid _ hx
  obtain ⟨hblk, hreads⟩ := hown.key (b, blk) (by simpa [Ghost.refs] using hx)
  have hcache := hs.cache b hv
  rw [hblk] at hcache
  refine ⟨hv, hblk, hcache, fun hu => ?_⟩
  have hdisk := hs.disk blk hreads (.inl hu)
  exact ⟨(hcache (by rw [hu]; decide)).trans hdisk.symm, hdisk.trans (hs.untouched blk hu)⟩

/-- Process 0 makes call `x`, which takes `n` steps. -/
def calls (x : Call) (n : Nat) : List (Event Pid Call) := .call 0 x :: Event.steps 0 n

/-- Process 0 changes and writes block 5 of device 1, and reads it again. -/
def writeAndRead : List (Event Pid Call) :=
  calls (.bread (1, 5)) 72 ++ calls (.modify 0 (1, 5) fun _ _ => 7) 2 ++ calls (.bwrite 0 (1, 5)) 2 ++
    calls (.brelse 0 (1, 5)) 5 ++ calls (.bread (1, 5)) 9

set_option maxRecDepth 100000 in
theorem writeAndRead_run : ((Config.idle (binit fun _ _ => 0) []).execAll client (Balanced ·) writeAndRead).map (fun c =>
    decide (c.shared.hist.reads = [(1, 5), (1, 5)] ∧ c.shared.hist.mark (1, 5) = .written ∧
      c.shared.hist.last (1, 5) 0 = 7 ∧ (c.thread 0).localState = some [(0, (1, 5))])) = some true := by
  decide +kernel

theorem cache_refines_store_after_write : ∃ c : Config State Pid (List (BufId × Block)),
    Config.Run client Balanced (.idle (binit fun _ _ => 0) []) c ∧ UniqueBlocks c.shared ∧ (c.shared.buf 0).data 0 = 7 := by
  obtain ⟨c, hc, h⟩ := Option.map_eq_some_iff.mp writeAndRead_run
  obtain ⟨hreads, hmark, hlast, hl⟩ := of_decide_eq_true h
  have hr : Config.Run client Balanced (.idle (binit fun _ _ => 0) []) c := .of_execAll (fun _ h => of_decide_eq_true h) hc
  obtain ⟨hu, -, -, hsees⟩ := cache_refines_store hr
  have ho : OneDev c.shared := by
    intro x hx y hy _
    rw [hreads] at hx hy
    simp only [mem_cons, not_mem_nil, or_false, or_self] at hx hy
    rw [hx, hy]
  obtain ⟨-, -, hdata, -⟩ := hsees ho 0 _ (Thread.localState_eq_some.1 hl) 0 (1, 5) mem_cons_self
  exact ⟨c, hr, hu, by rw [hdata (by rw [hmark]; decide), hlast]⟩

/-- Process 0 reads block 5 as a block of device 2; then it changes and writes
block 5 of device 1, and reads it again as a block of device 2. -/
def readTwoDevices : List (Event Pid Call) :=
  calls (.bread (2, 5)) 72 ++ calls (.brelse 0 (2, 5)) 5 ++ calls (.bread (1, 5)) 72 ++
    calls (.modify 1 (1, 5) fun _ _ => 7) 2 ++ calls (.bwrite 1 (1, 5)) 2 ++ calls (.brelse 1 (1, 5)) 5 ++
    calls (.bread (2, 5)) 11

set_option maxRecDepth 100000 in
theorem readTwoDevices_run : ((Config.idle (binit fun _ _ => 0) []).execAll client (Balanced ·) readTwoDevices).map (fun c =>
    decide ((c.thread 0).localState = some [(0, (2, 5))] ∧ c.shared.hist.mark (2, 5) = .untouched ∧
      (c.shared.buf 0).data 0 ≠ c.shared.disk 5 0)) = some true := by
  decide +kernel

/-- The disk does not look at the device number: a read of a block that was
never modified through the cache does not return the disk's contents, because
the same block was modified and written under another device number. -/
theorem stale_read_of_second_device : ∃ c : Config State Pid (List (BufId × Block)),
    Config.Run client Balanced (.idle (binit fun _ _ => 0) []) c ∧ c.thread 0 = .idle [(0, (2, 5))] ∧
      c.shared.hist.mark (2, 5) = .untouched ∧ (c.shared.buf 0).data ≠ c.shared.disk 5 := by
  obtain ⟨c, hc, h⟩ := Option.map_eq_some_iff.mp readTwoDevices_run
  obtain ⟨hl, hmark, hdata⟩ := of_decide_eq_true h
  exact ⟨c, .of_execAll (fun _ h => of_decide_eq_true h) hc, Thread.localState_eq_some.1 hl, hmark,
    fun e => hdata (congrFun e 0)⟩

end Xv6.Bio
