import Xv6.Log.Store

/-!
# The invariant of the log

`Inv` puts together admission (`Adm`), the buffer cache (`Bio`), the order of
the operations (`Order`) and, as long as the logged blocks fit in the log,
the disk (`Store`). It speaks of the shared state and of one ghost value for
each process.
-/

namespace Xv6.Log

open Function List

/-- What is known of a process: its phase, its references to buffers, the
buffer that it has changed and not yet logged or written, and the block that it
has pinned and not yet recorded. -/
structure Ghost where
  phase : Phase := .out
  refs : Refs := {}
  dirty : Option (BufId × Intent) := none
  adding : Option Nat := none

/-- It changes a buffer that it holds. -/
abbrev Ghost.DirtyHeld (g : Ghost) : Prop := ∀ i x, g.dirty = some (i, x) → ∃ b, (i, b) ∈ g.refs.held

/-- It adds a block to the log in an operation. -/
abbrev Ghost.AddingOp (g : Ghost) : Prop := g.adding = none ∨ ∃ o, g.phase = .op o

/-- A process that holds the buffers `held`, and is not in the middle of
changing one. -/
abbrev Ghost.rest (p : Phase) (held : List (BufId × Nat)) : Ghost := ⟨p, ⟨held, none⟩, none, none⟩

/-- Operations are in one commit group, and later ones in later groups. -/
structure Order (groups : List (List Write)) (cur : List Write) (nops : Nat) (ph : Pid → Phase) : Prop where
  pairwise : groups.Pairwise fun g g' => ∀ w ∈ g, ∀ w' ∈ g', w.op < w'.op
  cur : ∀ g ∈ groups, ∀ w ∈ g, ∀ w' ∈ cur, w.op < w'.op
  running : ∀ g ∈ groups, ∀ w ∈ g, ∀ t o, ph t = .op o → w.op < o
  lt : ∀ g ∈ groups, ∀ w ∈ g, w.op < nops

namespace Order

variable {groups : List (List Write)} {cur : List Write} {nops : Nat} {ph ph' : Pid → Phase}

variable (h : Order groups cur nops ph)

include h

theorem mono (hph : ∀ t o, ph' t = .op o → ph t = .op o) :
    Order groups cur nops ph' :=
  { h with running := fun g hg w hw t o ho => h.running g hg w hw t o (hph t o ho) }

theorem beginOp (t : Pid) :
    Order groups cur (nops + 1) (update ph t (.op nops)) := by
  refine { h with running := fun g hg w hw u o ho => ?_, lt := fun g hg w hw => Nat.lt_succ_of_lt (h.lt g hg w hw) }
  by_cases hu : u = t
  · subst hu
    rw [update_self] at ho
    cases ho
    exact h.lt g hg w hw
  · rw [update_of_ne hu] at ho
    exact h.running g hg w hw u o ho

theorem startCommit (hcur : ∀ w ∈ cur, w.op < nops) (hops : ∀ t o, ph' t ≠ .op o) :
    Order (groups ++ [cur]) [] nops ph' := by
  refine ⟨pairwise_append.mpr ⟨h.pairwise, by simp, by simpa using h.cur⟩, by simp,
    fun _ _ _ _ t o ho => absurd ho (hops t o), fun g hg w hw => ?_⟩
  rcases mem_append.mp hg with hg | hg
  · exact h.lt g hg w hw
  · rw [mem_singleton.mp hg] at hw
    exact hcur w hw

theorem logWrite {t : Pid} {w : Write} (ht : ph t = .op w.op) :
    Order groups (cur ++ [w]) nops ph := by
  refine { h with cur := fun g hg v hv w' hw' => ?_ }
  rcases mem_append.mp hw' with hw' | hw'
  · exact h.cur g hg v hv w' hw'
  · rw [mem_singleton.mp hw']
    exact h.running g hg v hv t _ ht

end Order

/-- The blocks that are pinned: those that `lh` has recorded and `install_trans` has
not unpinned, and the one that `log_write` is about to record. -/
def State.pins (s : State) : List Nat := s.log.lh.drop s.hist.inst ++ s.log.adding.toList.map Prod.snd

/-- The invariant. `fit` says whether it is assumed that the logged blocks
always fit in the log. -/
structure Inv (L : Layout) (d0 : Nat → Bytes) (fit : Prop) (s : State) (γ : Pid → Ghost) : Prop where
  start : s.log.start = L.start
  dev : s.log.dev = rootdev
  adm : Adm s.log s.hist.cur s.hist.nops (Ghost.phase ∘ γ)
  inst_quiet : s.log.committing = false → s.hist.inst = 0
  inst_stage : ∀ t x, (γ t).phase = .com x → s.hist.inst = x.unpinned
  order : Order s.hist.groups s.hist.cur s.hist.nops (Ghost.phase ∘ γ)
  lh_nodup : s.log.lh.Nodup
  adding : ∀ t b, s.log.adding = some (t, b) ↔ (γ t).adding = some b
  adding_op : ∀ t, (γ t).adding = none ∨ ∃ o, (γ t).phase = .op o
  bio : Bio s.buf s.lru s.hist.holds s.pins (Ghost.refs ∘ γ)
  dirty : ∀ t i x, (γ t).dirty = some (i, x) → ∃ b, (i, b) ∈ (γ t).refs.held
  store : fit → Store L d0 s (Ghost.phase ∘ γ) (Ghost.dirty ∘ γ)

namespace Inv

variable {L : Layout} {d0 : Nat → Bytes} {fit : Prop} {s s' : State} {γ : Pid → Ghost} {t : Pid} {i : BufId} {b : Nat}

variable {g : Ghost}

theorem update_phase (γ : Pid → Ghost) (t : Pid) (h : g.phase = (γ t).phase) :
    Ghost.phase ∘ update γ t g = Ghost.phase ∘ γ := by
  rw [comp_update, h]; exact update_eq_self t (Ghost.phase ∘ γ)

theorem update_refs (γ : Pid → Ghost) (t : Pid) (h : g.refs = (γ t).refs) :
    Ghost.refs ∘ update γ t g = Ghost.refs ∘ γ := by
  rw [comp_update, h]; exact update_eq_self t (Ghost.refs ∘ γ)

theorem update_dirty (γ : Pid → Ghost) (t : Pid) (h : g.dirty = (γ t).dirty) :
    Ghost.dirty ∘ update γ t g = Ghost.dirty ∘ γ := by
  rw [comp_update, h]; exact update_eq_self t (Ghost.dirty ∘ γ)

theorem update_not_dirty (h : (γ t).dirty = none) : update (Ghost.dirty ∘ γ) t none = Ghost.dirty ∘ γ := by
  rw [← h]; exact update_eq_self t (Ghost.dirty ∘ γ)

theorem forall_update {P : Pid → Ghost → Prop} (h : ∀ u, P u (γ u)) (hg : P t g) (u : Pid) :
    P u (update γ t g u) := by
  by_cases hu : u = t
  · subst hu; rwa [update_self]
  · rw [update_of_ne hu]; exact h u

section Inv

variable (h : Inv L d0 fit s γ)

include h

/-- A step that leaves `log.lock` as it is. -/
theorem adding_update (ha : g.adding = (γ t).adding) (u : Pid) (b : Nat) :
    s.log.adding = some (u, b) ↔ (update γ t g u).adding = some b :=
  forall_update (P := fun u g => s.log.adding = some (u, b) ↔ g.adding = some b) (h.adding · b)
    (ha ▸ h.adding t b) u

/-- With all processes outside operations, nothing is logged. -/
theorem quiet_of_out (hout : ∀ u, (γ u).phase = .out) :
    s.log.committing = false ∧ s.log.lh = [] := by
  have hc : s.log.committing = false := by
    rw [← Bool.not_eq_true]
    intro hc
    obtain ⟨⟨u, x, hu⟩, -⟩ := h.adm.com hc
    exact absurd ((hout u).symm.trans hu) (by simp)
  refine ⟨hc, h.adm.quiet hc ?_⟩
  ext u
  simp [mem_ops, hout u, Phase.inop]

/-- A step of the buffer cache changes the references of `t`. -/
theorem bioStep (hphase : g.phase = (γ t).phase)
    (hd : g.dirty = (γ t).dirty) (ha : g.adding = (γ t).adding) (hlog : s'.log = s.log) {holds : List (Pid × BufId)}
    (hhist : s'.hist = ⟨holds, s.hist.nops, s.hist.groups, s.hist.cur, s.hist.done, s.hist.inst⟩)
    (hbio : Bio s'.buf s'.lru holds s.pins (update (Ghost.refs ∘ γ) t g.refs))
    (hdirty : ∀ i x, g.dirty = some (i, x) → ∃ b, (i, b) ∈ g.refs.held)
    (hst : fit → Store L d0 s' (Ghost.phase ∘ γ) (Ghost.dirty ∘ γ)) :
    Inv L d0 fit s' (update γ t g) := by
  have hp := update_phase γ t hphase
  refine ⟨?_, ?_, ?_, ?_, ?_, ?_, ?_, ?_, ?_, ?_, ?_, fun hf => ?_⟩
  · rw [hlog]; exact h.start
  · rw [hlog]; exact h.dev
  · rw [hlog, hhist, hp]; exact h.adm
  · rw [hlog, hhist]; exact h.inst_quiet
  · rw [hhist]
    exact forall_update (P := fun _ g => ∀ x, g.phase = .com x → s.hist.inst = x.unpinned) h.inst_stage
      fun x hx => h.inst_stage t x (hphase ▸ hx)
  · rw [hhist, hp]; exact h.order
  · rw [hlog]; exact h.lh_nodup
  · rw [hlog]; exact h.adding_update ha
  · exact forall_update (P := fun _ => Ghost.AddingOp) h.adding_op (by rw [Ghost.AddingOp, ha, hphase]; exact h.adding_op t)
  · rw [State.pins, hlog, hhist, comp_update]; exact hbio
  · exact forall_update (P := fun _ => Ghost.DirtyHeld) h.dirty hdirty
  · rw [hp, update_dirty γ t hd]; exact hst hf

/-- Only the process that has locked a buffer changes it. -/
theorem not_dirty (hl : (s.buf i).lock = some t) (ht : ∀ x, (γ t).dirty ≠ some (i, x)) (u : Pid)
    (x : Intent) : (γ u).dirty ≠ some (i, x) := by
  intro hu
  obtain ⟨b, hb⟩ := h.dirty u i x hu
  have := h.bio.lock_of_held (t := u) hb
  rw [hl] at this
  obtain rfl := Option.some.inj this
  exact ht x hu

/-- A step on the log in memory, or on the disk, changes the phase of `t`. -/
theorem logStep (hrefs : g.refs = (γ t).refs) (ha : (γ t).adding = none)
    (ha' : g.adding = none) (hadd : s'.log.adding = s.log.adding) (hbuf : s'.buf = s.buf)
    (hlru : s'.lru = s.lru) (hholds : s'.hist.holds = s.hist.holds) (hstart : s'.log.start = s.log.start)
    (hdev : s'.log.dev = s.log.dev) (hadm : Adm s'.log s'.hist.cur s'.hist.nops (update (Ghost.phase ∘ γ) t g.phase))
    (hquiet : s'.log.committing = false → s'.hist.inst = 0)
    (hstage : ∀ u x, update (Ghost.phase ∘ γ) t g.phase u = .com x → s'.hist.inst = x.unpinned)
    (horder : Order s'.hist.groups s'.hist.cur s'.hist.nops (update (Ghost.phase ∘ γ) t g.phase))
    (hnodup : s'.log.lh.Nodup) (hpins : s'.pins = s.pins)
    (hdirty : ∀ i x, g.dirty = some (i, x) → ∃ b, (i, b) ∈ g.refs.held)
    (hst : fit → Store L d0 s' (update (Ghost.phase ∘ γ) t g.phase)
      (update (Ghost.dirty ∘ γ) t g.dirty)) : Inv L d0 fit s' (update γ t g) := by
  refine ⟨hstart.trans h.start, hdev.trans h.dev, ?_, hquiet, ?_, ?_, hnodup, ?_,
    forall_update (P := fun _ => Ghost.AddingOp) h.adding_op (.inl ha'), ?_, ?_, fun hf => ?_⟩
  · rw [comp_update]; exact hadm
  · intro u x hx
    refine hstage u x ?_
    rw [← comp_update]
    exact hx
  · rw [comp_update]; exact horder
  · rw [hadd]; exact h.adding_update (ha'.trans ha.symm)
  · rw [hbuf, hlru, hholds, hpins, update_refs γ t hrefs]; exact h.bio
  · exact forall_update (P := fun _ => Ghost.DirtyHeld) h.dirty hdirty
  · rw [comp_update, comp_update]; exact hst hf

/-- A process changes a buffer that it holds. -/
theorem setData (hm : (i, b) ∈ (γ t).refs.held) (hd : (γ t).dirty = none) (f : Buf → Bytes)
    {x : Intent} (hx : fit → x.Ok d0 s.hist (γ t).phase (f (s.buf i))) (hg : g = { γ t with dirty := some (i, x) }) :
    Inv L d0 fit (s.modBuf i fun y => { y with data := f y }) (update γ t g) := by
  have hp := update_phase γ t (g := g) (by rw [hg])
  refine ⟨h.start, h.dev, ?_, h.inst_quiet, ?_, ?_, h.lh_nodup, h.adding_update (by rw [hg]), ?_, ?_, ?_, fun hf => ?_⟩
  · rw [hp]; exact h.adm
  · exact forall_update (P := fun _ g => ∀ x, g.phase = .com x → s.hist.inst = x.unpinned) h.inst_stage
      (by rw [hg]; exact h.inst_stage t)
  · rw [hp]; exact h.order
  · exact forall_update (P := fun _ => Ghost.AddingOp) h.adding_op (by rw [hg]; exact h.adding_op t)
  · rw [update_refs γ t (g := g) (by rw [hg])]; exact h.bio.setData _
  · refine forall_update (P := fun _ => Ghost.DirtyHeld) h.dirty ?_
    rw [hg]
    rintro j y ⟨⟩
    exact ⟨b, hm⟩
  · rw [hp, comp_update, hg]
    exact (h.store hf).setData hd (h.not_dirty (h.bio.lock_of_held hm) fun x hx => by simp [hd] at hx) f (hx hf)

theorem data_eq (hf : fit) (hm : (i, b) ∈ (γ t).refs.held) (hd : ∀ x, (γ t).dirty ≠ some (i, x)) :
    (s.buf i).data = content L d0 s b := by
  obtain ⟨hdev, rfl⟩ := h.bio.has t i b (.inl hm)
  exact (h.store hf).vals i hdev (h.bio.valid t i _ hm) (h.not_dirty (h.bio.lock_of_held hm) hd)

theorem uniq (hm : (i, b) ∈ (γ t).refs.held) (j : BufId) (hd : (s.buf j).dev = rootdev)
    (hb : (s.buf j).blockno = (s.buf i).blockno) : j = i :=
  h.bio.uniq j i hd (h.bio.has t i b (.inl hm)).1 hb

end Inv

section Commit

variable {x y : Stage} {p : Phase}

variable {u : Pid} {g : Ghost}

variable (h : Inv L d0 fit s γ)

include h

theorem com_unique (hx : (γ t).phase = .com x) {z : Stage}
    (hu : update (Ghost.phase ∘ γ) t p u = .com z) : p = .com z := by
  by_cases hut : u = t
  · subst hut; rwa [update_self] at hu
  · rw [update_of_ne hut, h.adm.out_of_com hx hut] at hu
    cases hu

omit h in
theorem com_update {ph : Pid → Phase} (u : Pid) (hu : ∃ z, ph u = .com z) :
    ∃ z, update ph t (.com y) u = .com z := by
  by_cases hut : u = t
  · subst hut; exact ⟨y, update_self ..⟩
  · rwa [update_of_ne hut]

theorem home_of_com (hf : fit) (hx : (γ t).phase = .com x) (hb : b ∈ x.lh) :
    L.Home b ∧ b < 2 ^ 32 := (h.store hf).lh_home b ((h.adm.committing hx).2 ▸ hb)

theorem not_adding (hx : (γ t).phase = .com x) : (γ t).adding = none :=
  (h.adding_op t).resolve_right fun ⟨o, ho⟩ => by rw [hx] at ho; cases ho

/-- A step of a commit on the disk. -/
theorem diskStep (hx : (γ t).phase = .com x) (hlh : y.lh = x.lh)
    (hu : y.unpinned = x.unpinned) (hg : g.phase = .com y) (hrefs : g.refs = (γ t).refs)
    (ha : g.adding = none) (hdirty : ∀ i z, g.dirty = some (i, z) → ∃ b, (i, b) ∈ g.refs.held) {d : Nat → Bytes}
    (hst : fit → Store L d0 { s with disk := d } (update (Ghost.phase ∘ γ) t (.com y))
      (update (Ghost.dirty ∘ γ) t g.dirty)) :
    Inv L d0 fit { s with disk := d } (update γ t g) := by
  have hinst := h.inst_stage t x hx
  refine h.logStep hrefs (h.not_adding hx) ha rfl rfl rfl rfl rfl rfl ?_ h.inst_quiet (fun u z hz => ?_)
    (h.order.mono fun u o ho => ?_)
    h.lh_nodup rfl hdirty (hg ▸ hst)
  · have := h.adm.stage hx y
    rwa [hlh, ← (h.adm.committing hx).2, ← hg] at this
  · have := h.com_unique hx hz
    rw [hg] at this
    obtain rfl := Phase.com.inj this
    exact hinst.trans hu.symm
  · by_cases hut : u = t
    · subst hut; rw [update_self, hg] at ho; cases ho
    · rwa [update_of_ne hut] at ho

theorem com_phase_update (hx : (γ t).phase = .com x) {o : Nat}
    (ho : update (Ghost.phase ∘ γ) t (.com y) u = .op o) : (γ u).phase = .op o := by
  by_cases hut : u = t
  · subst hut; rw [update_self] at ho; cases ho
  · rw [update_of_ne hut, h.adm.out_of_com hx hut] at ho; cases ho

/-- `install_trans` unpins the block that it has written. -/
theorem bunpin {hs : List Nat} {k : Nat} (hx : (γ t).phase = .com (.inst hs k true))
    (hk : hs[k]? = some b) (hm : (i, b) ∈ (γ t).refs.held) (hg : g = { γ t with phase := .com (.inst hs (k + 1) false) }) :
    Inv L d0 fit ((s.modBuf i fun x => { x with refcnt := x.refcnt - 1 }).modHist
      fun h => { h with inst := h.inst + 1 }) (update γ t g) := by
  have hlh : s.log.lh = hs := (h.adm.committing hx).2
  have hinst : s.hist.inst = k := h.inst_stage t _ hx
  have hph : Ghost.phase ∘ update γ t g =
      update (Ghost.phase ∘ γ) t (.com (.inst hs (k + 1) false)) := by rw [comp_update, hg]
  refine ⟨h.start, h.dev, ?_, fun hc => ?_, fun u x hu => ?_, ?_, h.lh_nodup, h.adding_update (by rw [hg]),
    forall_update (P := fun _ => Ghost.AddingOp) h.adding_op (.inl (hg ▸ h.not_adding hx)), ?_, ?_, fun hf => ?_⟩
  · have := h.adm.stage hx (.inst hs (k + 1) false)
    rw [show (Stage.inst hs (k + 1) false).lh = s.log.lh from hlh.symm] at this
    rw [hph]
    exact this
  · exact absurd ((h.adm.committing hx).1.symm.trans hc) (by decide)
  · have hu' : (Ghost.phase ∘ update γ t g) u = .com x := hu
    rw [hph] at hu'
    obtain rfl := Phase.com.inj (h.com_unique hx hu')
    show s.hist.inst + 1 = k + 1
    rw [hinst]
  · rw [hph]
    exact h.order.mono fun u o ho => h.com_phase_update hx ho
  · rw [update_refs γ t (g := g) (by rw [hg])]
    have hbio := h.bio
    obtain ⟨hlt, hkb⟩ := List.getElem?_eq_some_iff.mp (hlh ▸ hk)
    rw [State.pins, hinst, drop_eq_getElem_cons hlt, hkb, cons_append] at hbio
    show Bio _ s.lru s.hist.holds (s.log.lh.drop (s.hist.inst + 1) ++ _) _
    rw [hinst]
    exact hbio.bunpin hm
  · refine forall_update (P := fun _ => Ghost.DirtyHeld) h.dirty ?_
    rw [hg]
    exact h.dirty t
  · have hst := h.store hf
    obtain ⟨h1, h2, h3, h4⟩ := hst.stage t _ hx
    rw [hph, update_dirty γ t (g := g) (by rw [hg])]
    refine hst.bunpin hinst (by rw [hlh]; exact hk) (h4 rfl b hk) com_update fun u x hu => ?_
    obtain rfl := Phase.com.inj (h.com_unique hx hu)
    exact ⟨h1, h2, h3, by simp⟩

end Commit

section LogWrite

variable {o : Nat} (h : Inv L d0 fit s γ) (ho : (γ t).phase = .op o) (hm : (i, b) ∈ (γ t).refs.held)

include h ho

/-- In an operation nothing has been unpinned. -/
theorem pins_of_op : s.pins = s.log.lh ++ s.log.adding.toList.map Prod.snd := by
  rw [State.pins, h.inst_quiet (h.adm.not_committing ho), drop_zero]

include hm

/-- `log_write` pins a block that `lh` does not have. -/
theorem bpin (ha : s.log.adding = none) (hb : b ∉ s.log.lh) (hg : g = { γ t with adding := some b }) :
    Inv L d0 fit ((s.modBuf i fun x => { x with refcnt := x.refcnt + 1 }).modLog ({ · with adding := some (t, b) }))
      (update γ t g) := by
  have hph := update_phase γ t (g := g) (by rw [hg])
  refine ⟨h.start, h.dev, ?_, h.inst_quiet, ?_, ?_, h.lh_nodup, fun u c => ?_,
    forall_update (P := fun _ => Ghost.AddingOp) h.adding_op (.inr ⟨o, by rw [hg]; exact ho⟩), ?_, ?_, fun hf => ?_⟩
  · rw [hph]; exact h.adm.setAdding _
  · exact forall_update (P := fun _ g => ∀ x, g.phase = .com x → s.hist.inst = x.unpinned) h.inst_stage
      (by rw [hg]; exact h.inst_stage t)
  · rw [hph]; exact h.order
  · -- nobody else has `log.lock`
    by_cases hu : u = t
    · subst hu; simp [hg]
    · have := h.adding u c
      rw [ha] at this
      simpa [hu, Ne.symm hu] using this
  · rw [update_refs γ t (g := g) (by rw [hg])]
    have hbio := h.bio
    rw [h.pins_of_op ho, ha, Option.toList_none, map_nil, append_nil] at hbio
    show Bio _ s.lru s.hist.holds (s.log.lh.drop s.hist.inst ++ [b]) _
    rw [h.inst_quiet (h.adm.not_committing ho), drop_zero]
    exact hbio.bpin hm hb
  · exact forall_update (P := fun _ => Ghost.DirtyHeld) h.dirty (by rw [hg]; exact h.dirty t)
  · rw [hph, update_dirty γ t (g := g) (by rw [hg])]
    have hst : Store L d0 (s.modBuf i fun x => { x with refcnt := x.refcnt + 1 }) (Ghost.phase ∘ γ) (Ghost.dirty ∘ γ) :=
      (h.store hf).setMeta rfl ⟨rfl, rfl, rfl, rfl⟩ rfl rfl rfl rfl rfl rfl
    exact { hst with stage := fun u x hx => (hst.stage u x hx).congr rfl rfl rfl rfl }

/-- `log_write` in operation `o`, of a block that is pinned. -/
theorem logWrite (hd : ∀ j x, (γ t).dirty = some (j, x) → j = i) (hb : L.Home b ∧ b < 2 ^ 32) (lh : List Nat)
    (hlh : ∀ c, c ∈ lh ↔ c ∈ s.log.lh ∨ c = b) (hpins : lh = s.pins)
    (ha : s.log.adding = none ∨ s.log.adding = some (t, b))
    (hs' : s' = (s.modLog fun l => { l with lh := lh, adding := none }).modHist
      fun h => { h with cur := h.cur ++ [⟨o, b, (s.buf i).data⟩] })
    (hfit : fit → Fits L s') (hg : g = .rest (.op o) (γ t).refs.held) (hr : (γ t).refs.pend = none) :
    Inv L d0 fit s' (update γ t g) := by
  obtain ⟨hdev, rfl⟩ := h.bio.has t i b (.inl hm)
  have hc := h.adm.not_committing ho
  have hinst := h.inst_quiet hc
  have hno : ∀ u x, (γ u).phase ≠ .com x := fun u x hu =>
    absurd ((h.adm.committing hu).1.symm.trans hc) (by decide)
  have hph := update_phase γ t (g := g) (by rw [hg, ho])
  have hrefs := update_refs γ t (g := g) (by rw [hg]; show Refs.mk _ none = _; rw [← hr])
  subst hs'
  refine ⟨h.start, h.dev, ?_, h.inst_quiet, fun u x hu => ?_, ?_, ?_, fun u c => ?_,
    forall_update (P := fun _ => Ghost.AddingOp) h.adding_op (.inl (by rw [hg])), ?_, ?_, fun hf => ?_⟩
  · rw [hph]; exact h.adm.logWrite ho rfl hlh
  · have hu' : (Ghost.phase ∘ update γ t g) u = .com x := hu
    rw [hph] at hu'
    exact absurd hu' (hno u x)
  · rw [hph]; exact h.order.logWrite ho
  · exact hpins ▸ h.bio.nodup
  · -- nobody has `log.lock` now
    by_cases hu : u = t
    · subst hu; simp [hg]
    · have := h.adding u c
      rcases ha with ha | ha <;> rw [ha] at this <;> simpa [hu, Ne.symm hu] using this
  · rw [hrefs]
    show Bio s.buf s.lru s.hist.holds (lh.drop s.hist.inst ++ []) _
    rw [hinst, drop_zero, append_nil, hpins]
    exact h.bio
  · refine forall_update (P := fun _ => Ghost.DirtyHeld) h.dirty ?_
    simp [hg, Ghost.DirtyHeld]
  · rw [hph, comp_update, hg]
    exact (h.store hf).logWrite hc hno hinst hb.1 hb.2 (h.uniq hm) hd (hfit hf)
      (w := ⟨o, (s.buf i).blockno, (s.buf i).data⟩) rfl rfl (fun _ => ⟨rfl, rfl, rfl, rfl⟩) rfl hlh rfl rfl rfl hinst

end LogWrite

end Inv

end Xv6.Log
