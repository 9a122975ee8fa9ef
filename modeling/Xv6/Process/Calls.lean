import Xv6.Process.Spec

/-!
# `fork`, `exit`, `wait` and `kill`

`fork` holds the lock of the slot that it allocates. `exit` and `wait` acquire
locks while they hold others: `wait` a child's lock under its own, and `exit`
its own under that of its `original_parent`, and then its children's. In both
cases the slots are in the order of their births (`Births`).
-/

namespace Xv6.Process.Ctx

open Function List

variable {n : Nat} {C : Ctx n} {a : Agent n} {g : Ghost} {i j p : Pid} {y : Option Pid}
  {b : Bool} {s' : State n} {γ : Agent n → Ghost}

/-! ## `fork` -/

/-- A live process that allocates the slot `i`; `b` says whether it has set
the slot's parent, and `y` is `i` if the slot has a context. -/
abbrev allocating (i : Pid) (b : Bool) (y : Option Pid) : Ghost :=
  { held := [i], live := true, alloc := some (i, b), switch := { fresh := y } }

theorem modAlloc_spec {f : Proc → Proc} (hal : g.alloc = some (i, b)) (hsaw : g.saw = none)
    (hpar : ∀ x, (f x).parent = x.parent) (hst : ∀ x, (f x).state = x.state) (hk : ∀ x, (f x).killed = x.killed) :
    C.Spec a (modProc i f) g fun _ g' => g' = g := by
  refine .step fun s γ hi hg _ => ⟨g, ?_, rfl⟩
  have hst' := ((hi.own a).alloc i b (by rwa [hg])).2.1
  refine ⟨?_, hi.same hg rfl rfl rfl rfl (update_keep Proc.state rfl (hst _)) rfl⟩
  rw [← hg, update_eq_self]
  exact hi.modAlloc (a := a) (by rwa [hg]) (by rwa [hg]) rfl rfl rfl (hpar _) ((hst _).trans hst')
    fun e => (hk _).trans e

/-- A slot that is being allocated is not used yet, and no CPU has anything to
do with it. -/
theorem Full.allocated {s : State n} {z : Option Pid} {x : Proc} {g : Ghost}
    (hi : C.Full s γ) (hg : γ a = allocating i b y) (hlock : s'.lock = s.lock) (honcpu : s'.oncpu = s.oncpu)
    (hcproc : s'.cproc = s.cproc)
    (hproc : s'.proc = update s.proc i x) (hctx : ∀ k, k ≠ i → s'.hist.context k = s.hist.context k) (hx : x.state ≠ .running)
    (hx' : x.state ≠ .unused → s'.hist.context i ≠ .stale)
    (hf : ∀ j, z = some j → j = i ∧ x.state = .unused ∧ s'.hist.context i ≠ .stale) (hs : g.switch = { fresh := z }) :
    Switch.Inv s' (Ghost.switch ∘ update γ a g) := by
  have ho := hi.self hg
  refine Full.switch_update ?_
  rw [hs]
  refine hi.switch.slot_off ((ho.lock i).mpr (by simp)) (by rw [comp_apply, hg]) (fun e => ?_) hlock honcpu hcproc
    hproc hctx hx hx' rfl (by rw [comp_apply, hg]) hf
  exact nomatch (ho.alloc i b rfl).2.1.symm.trans e

/-- `freeproc` of a slot that could not be allocated. -/
theorem freeproc_spec : C.Spec a (freeproc i) (allocating i false y) fun _ g' => g' = holding true [i] := by
  refine .step fun s γ hi hg _ => ⟨_, ⟨?_, ?_⟩, rfl⟩
  · obtain ⟨-, -, hpar⟩ := (hi.own a).alloc i false (by rw [hg])
    have h : Inv C.ord C.cl (s.modProc i Proc.freed) γ :=
      hi.modAlloc (a := a) (by rw [hg]) (by rw [hg]) rfl rfl rfl (hpar rfl).symm rfl fun _ => rfl
    refine Inv.reswitch (g := { allocating i false y with alloc := none }) ?_ {}
    exact h.dropAlloc hg rfl (by simp [State.modProc, Proc.freed]) fun _ => by simp [State.modProc, Proc.freed, Clean]
  · exact hi.allocated (z := none) hg rfl rfl rfl rfl (fun _ _ => rfl) (by simp [Proc.freed]) (absurd rfl) (by simp) rfl

theorem allocpid_spec : C.Spec a (allocpid : KProg n (BitVec 32)) g fun _ g' => g' = g := by
  refine .step fun s γ hi hg _ => ⟨g, ⟨?_, hi.same hg rfl rfl rfl rfl (fun _ => rfl) rfl⟩, rfl⟩
  refine hi.lockStep rfl rfl (by rw [hg]) (fun _ _ h => .inl h) (fun _ _ _ => Iff.rfl) (fun _ _ => rfl) ?_
  have ho := hg ▸ hi.own a
  exact { ho with knows := { ho.knows with } }

theorem setPagetable_spec (pagetable : Nat) : C.Spec a (setPagetable i pagetable) (allocating i false none)
    fun _ g' => g' = allocating i false (if pagetable = 0 then none else some i) := by
  refine .step fun s γ hi hg _ => ?_
  obtain ⟨-, hst, -⟩ := (hi.own a).alloc i false (by rw [hg])
  have hx : ({ s.proc i with pagetable } : Proc).state ≠ .running := by rw [hst]; nofun
  split
  · refine ⟨allocating i false none, ⟨?_, hi.same hg rfl rfl rfl rfl (update_keep Proc.state rfl rfl) rfl⟩, rfl⟩
    rw [← hg, update_eq_self]
    exact hi.modAlloc (a := a) (by rw [hg]) (by rw [hg]) rfl rfl rfl rfl hst id
  · refine ⟨allocating i false (some i), ⟨?_, hi.allocated hg rfl rfl rfl rfl (fun k hk => update_of_ne hk _ _) hx
      (absurd hst) (fun j e => ?_) rfl⟩, rfl⟩
    · refine Inv.reswitch (g := allocating i false none) ?_ { fresh := some i }
      rw [← hg, update_eq_self]
      exact hi.modAlloc (a := a) (by rw [hg]) (by rw [hg]) rfl rfl rfl rfl hst id
    · exact ⟨(Option.some.inj e).symm, hst, by simp [State.setContext, State.modHist]⟩

/-- `allocproc` returns a slot whose lock is held and that is not used yet. -/
theorem allocproc_spec : C.Spec a allocproc (holding true []) fun r g' => match r with
    | none => g' = holding true []
    | some i => g' = allocating i false (some i) := by
  refine .bind (forProcs_spec (J := fun _ g => g = holding true []) (R := fun i g => g = allocating i false none) ?_ rfl) ?_
  · rintro i _ rfl
    refine .next (preempt_spec rfl rfl rfl rfl rfl rfl (.inl rfl)) fun _ => ?_
    refine .next (acquire_first rfl rfl) fun _ => ?_
    refine .bind (R := fun x g' => g' = if x.state = .unused then allocating i false none else holding true [i])
      (.step fun s γ hi hg _ => ?_) ?_
    · by_cases hs : (s.proc i).state = .unused
      · exact ⟨_, ⟨hi.startAlloc hg (by simp) hs rfl, Full.keep hg rfl hi.switch⟩, by rw [if_pos hs]⟩
      · exact ⟨γ a, by rwa [update_eq_self], by rw [if_neg hs, hg]⟩
    rintro x _ rfl
    split
    · exact .ret rfl
    · exact .next release_last fun _ => Safe.ret rfl
  rintro r g' hr
  cases r with
  | none => exact .ret hr
  | some i =>
    obtain rfl : g' = allocating i false none := hr
    refine .next allocpid_spec fun pid => ?_
    refine .next (modAlloc_spec rfl rfl (fun _ => rfl) (fun _ => rfl) fun _ => rfl) fun _ => ?_
    refine .next input_spec fun trapframe => ?_
    refine .bind (R := fun _ g' => g' = if trapframe = 0 then holding true [i] else allocating i false none)
      (.step fun s γ hi hg has => ?_) ?_
    · obtain ⟨-, hst, hpar⟩ := (hi.own a).alloc i false (by rw [hg])
      have h : Inv C.ord C.cl ((s.modProc i ({ · with trapframe })).modHist
          fun h => { h with noTrapframe := h.noTrapframe || decide (trapframe = 0) }) γ :=
        hi.modAlloc (a := a) (by rw [hg]) (by rw [hg]) rfl rfl rfl rfl hst id
      have hsw : Switch.Inv ((s.modProc i ({ · with trapframe })).modHist
          fun h => { h with noTrapframe := h.noTrapframe || decide (trapframe = 0) }) (Ghost.switch ∘ γ) :=
        hi.switch.same rfl rfl rfl (update_keep Proc.state rfl rfl) rfl
      by_cases h0 : trapframe = 0
      · refine ⟨_, ⟨h.dropAlloc hg rfl ?_ fun hc => ?_, Full.keep hg rfl hsw⟩, by rw [if_pos h0]⟩
        · simpa [State.modProc, State.modHist] using hpar rfl
        · have := C.noTrapframe _ has hc
          simp [State.modHist, h0] at this
      · exact ⟨γ a, by rw [update_eq_self]; exact ⟨h, hsw⟩, by rw [if_neg h0, hg]⟩
    rintro _ _ rfl
    split
    · exact .next release_last fun _ => Safe.ret rfl
    · refine .next input_spec fun pagetable => ?_
      refine .next (setPagetable_spec pagetable) fun _ => ?_
      split
      · refine .next freeproc_spec fun _ => ?_
        exact .next release_last fun _ => Safe.ret rfl
      · exact .ret rfl

theorem setParent_spec (ha : a = .inl p) :
    C.Spec a (setParent i p) (allocating i false y) fun _ g' => g' = allocating i true y := by
  refine .step fun s γ hi hg has => ⟨_, ⟨?_, hi.same hg (by rfl) rfl rfl rfl (update_keep Proc.state rfl rfl) rfl⟩, rfl⟩
  refine hi.setParent ha hg rfl rfl rfl rfl rfl rfl rfl (fun ho q hq => ?_) rfl
  have := C.reused _ has ho
  simp only [State.modHist, Bool.or_eq_false_iff, decide_eq_false_iff_not] at this
  exact this.2 ⟨q, hq⟩

theorem setRunnable_spec : C.Spec a (setRunnable i) (allocating i true (some i)) fun _ g' => g' = holding true [i] := by
  refine .step fun s γ hi hg _ => ⟨_, ⟨?_, ?_⟩, rfl⟩
  · refine Inv.reswitch (g := { allocating i true (some i) with alloc := none }) ?_ {}
    exact hi.setRunnable hg rfl rfl rfl
  · have hx := ((hi.switch.own a).fresh i (by rw [comp_apply, hg])).2.2
    exact hi.allocated (z := none) hg rfl rfl rfl rfl (fun _ _ => rfl) nofun (fun _ => hx) nofun rfl

theorem fork_spec : C.Spec a fork (holding true []) fun _ g' => g' = holding true [] := by
  refine .bind myproc_spec ?_
  rintro p _ ⟨ha, rfl⟩
  refine .bind allocproc_spec fun r g' hr => ?_
  cases r with
  | none => exact .ret hr
  | some i =>
    obtain rfl : g' = allocating i false (some i) := hr
    refine .next input_spec fun copied => ?_
    split
    · refine .next freeproc_spec fun _ => ?_
      exact release_last
    · refine .next getProc_spec fun x => ?_
      refine .next (modAlloc_spec rfl rfl (fun _ => rfl) (fun _ => rfl) fun _ => rfl) fun _ => ?_
      refine .next (setParent_spec ha) fun _ => ?_
      refine .next setRunnable_spec fun _ => ?_
      exact release_last

/-! ## `exit` -/

/-- A process in `exit` that holds the locks of its `original_parent` `o` and
its own, and has no children below `k`. -/
abbrev exiting (p o : Pid) (k : Nat) : Ghost := { held := [p, o], live := true, orig := some o, scan := k }

variable {s : State n} {o : Pid} {w : WaitState} {k : Nat} {x : Proc}

/-- Children are born after their parent, and after the parent's
`original_parent`. -/
theorem born_before (hord : C.ord) (hi : Inv C.ord C.cl s γ) (ha : a = .inl p)
    (ho : (γ a).orig = some o) (hc : (s.proc i).parent = some p) :
    ∀ k ∈ [p, o], s.hist.stamp k < s.hist.stamp i := by
  obtain ⟨h1, h2, -, -⟩ := hi.births
  have hpi := h1 i p hc
  have hop := h2 hord p o (((hi.own a).orig p ha).trans ho)
  simp [hpi, lt_trans hop hpi]

theorem reparent_spec (ha : a = .inl p) (hp0 : p ≠ initproc) :
    C.Spec a (reparent p) (exiting p o 0) fun _ g' => g' = exiting p o nproc := by
  refine .bind (forProcs_spec (J := fun k g => g = exiting p o k) (R := fun _ g => g = exiting p o nproc) ?_ rfl) ?_
  · rintro i _ rfl
    refine .bind (R := fun x g' => g' = if x.parent = some p then { exiting p o i with child := some i }
      else exiting p o (i + 1)) (.step fun s γ hi hg _ => ?_) ?_
    · have hscan := (hi.own a).scan
      rw [hg] at hscan
      by_cases hc : (s.proc i).parent = some p
      · refine ⟨_, ⟨hi.learn hg (some i) i none 0 (fun k e => ?_) hscan (fun _ _ e => nomatch e) (fun _ _ _ h => nomatch h),
          Full.keep hg rfl hi.switch⟩, by rw [if_pos hc]⟩
        cases e
        exact ⟨p, ha, hc⟩
      · refine ⟨_, ⟨hi.learn hg none (i + 1) none 0 (nofun) (fun q hq k hk => ?_) (fun _ _ e => nomatch e)
          (fun _ _ _ h => nomatch h), Full.keep hg rfl hi.switch⟩, by rw [if_neg hc]⟩
        cases ha.symm.trans hq
        by_cases hki : k = i
        · subst hki; exact ⟨hp0, hc⟩
        · exact hscan p ha k (by
            have : k.val < i.val + 1 := hk
            have : k.val ≠ i.val := fun e => hki (Fin.ext e)
            show k.val < i.val
            omega)
    rintro x _ rfl
    split
    · refine .bind (acquire_spec rfl fun hord s γ hi hg => ?_) ?_
      · obtain ⟨q, hq, hc⟩ := (hi.own a).child i (by rw [hg])
        cases ha.symm.trans hq
        exact born_before hord hi ha (by rw [hg]) hc
      rintro _ _ ⟨-, rfl⟩
      refine .bind (R := fun _ g' => g' = { exiting p o (i + 1) with held := [i, p, o] })
        (.step fun s γ hi hg _ => ⟨_, ⟨?_, hi.same hg (by rfl) rfl rfl rfl (update_keep Proc.state rfl rfl) rfl⟩, rfl⟩) ?_
      · exact hi.giveToInit ha hg (by simp) rfl hp0 rfl rfl rfl rfl rfl
      rintro _ _ rfl
      refine .next (release_spec rfl rfl (.inl rfl) (by simp) (by simp) rfl (.inl rfl)) fun _ => ?_
      exact .ret (by simp)
    · exact .ret rfl
  · rintro r g' hr
    refine .ret ?_
    cases r <;> exact hr

/-- `release` by a thread that forgets what it has seen. -/
theorem release_forget (hw : g.want = none) (hj : j ∈ g.held) (hal : ∀ b, g.alloc ≠ some (j, b)) (hs : g.switch = {}) :
    C.Spec a (release j) g fun _ g' =>
      g' = { g with held := g.held.erase j, child := none, scan := 0, saw := none, quiet := 0 } := by
  refine .step fun s γ hi hg => ?_
  split
  · rename_i hl
    have h := hi.forget hg 0 (.inl rfl)
    refine fun _ => ⟨_, ⟨?_, release_switch hi hg hl (by rw [hs]) (.inl (by rw [hs])) (by rfl)⟩, rfl⟩
    have : Inv C.ord C.cl (s.setLock j none) _ :=
      drop h (update_self _ _ _) hw rfl (.inl rfl) hj hal rfl rfl rfl nofun nofun
    rwa [update_idem] at this
  · trivial

theorem exit_spec (status : Int) : C.Spec a (exit status) (holding true []) fun _ g' => g' = holding false [] := by
  refine .bind myproc_spec ?_
  rintro p _ ⟨ha, rfl⟩
  show C.Spec a (if p = initproc then _ else _) _ _
  split
  · exact .bind (R := fun _ _ => False) (.step fun _ _ _ _ => trivial) fun _ _ h => h.elim
  rename_i hp0
  refine .next (acquire_first rfl rfl) fun _ => ?_
  refine .bind (wakeup1_spec (by simp) rfl (by simp)) ?_
  rintro _ _ ⟨x, -, rfl⟩
  refine .next (release_forget rfl (by simp) (by simp) rfl) fun _ => ?_
  refine .next (preempt_spec rfl rfl rfl (by simp) rfl rfl (.inl rfl)) fun _ => ?_
  refine .next (acquire_first rfl (by simp)) fun _ => ?_
  refine .bind (R := fun o g' => g' = { holding true [p] with orig := some o }) (.step fun s γ hi hg => ?_) ?_
  · split
    · rename_i o ho
      refine fun _ => ⟨_, ⟨?_, hi.same hg (by rfl) rfl rfl rfl (fun _ => rfl) rfl⟩, rfl⟩
      exact hi.remember ha hg (fun j e => ho.trans e) rfl
    · trivial
  rintro o _ rfl
  refine .next (release_spec rfl rfl (.inl rfl) (by simp) (by simp) rfl (.inl rfl)) fun _ => ?_
  refine .next (preempt_spec rfl rfl rfl (by simp) rfl rfl (.inl rfl)) fun _ => ?_
  refine .next (acquire_first rfl (by simp)) fun _ => ?_
  -- the process is younger than its parent was
  refine .bind (acquire_spec rfl fun hord s γ hi hg k hk => ?_) ?_
  · obtain rfl := mem_singleton.mp hk
    exact hi.births.remembered hord p k (((hi.own a).orig p ha).trans (by rw [hg]))
  rintro _ _ ⟨hpo, rfl⟩
  refine .next (reparent_spec ha hp0) fun _ => ?_
  refine .bind (wakeup1_spec (by simp) rfl (by simp)) ?_
  rintro _ _ ⟨y, hy, rfl⟩
  refine .bind (R := fun _ g' => g' = { held := [p, o], orig := some o, switch := { leaving := true } })
    (.step fun s γ hi hg _ => ⟨_, ⟨?_, leave hi hg ha (by simp) rfl rfl rfl rfl rfl rfl nofun nofun rfl⟩, rfl⟩) ?_
  · refine Inv.reswitch (g := { held := [p, o], orig := some o }) ?_ { leaving := true }
    exact hi.becomeZombie (g := { exiting p o nproc with saw := some (o, y) }) ha hg (by simp) rfl rfl rfl rfl
      rfl rfl rfl hy rfl
  rintro _ _ rfl
  refine .bind (R := fun _ g' => g' = { holding false [p, o] with switch := { leaving := true } })
    (.step fun s γ hi hg _ => ⟨_, ⟨?_, hi.same hg (by rfl) rfl rfl rfl (fun _ => rfl) rfl⟩, rfl⟩) ?_
  · exact hi.remember ha hg nofun rfl
  rintro _ _ rfl
  have hpo : p ≠ o := by simpa using hpo
  refine .next (release_spec rfl rfl (.inl rfl) (by simp) (by simp) rfl
    (.inr fun e => hpo (Sum.inl.inj (ha.symm.trans e)))) fun _ => ?_
  have hheld : [p, o].erase o = [p] := by
    rw [erase_cons_tail (by simpa using hpo), erase_cons_head]
  refine (swtch_spec ha rfl rfl rfl (by simp [hheld]) (by simp)).mono ?_
  rintro _ _ rfl
  rw [hheld, erase_cons_head]

/-! ## `wait` and `kill` -/

/-- A process in `wait` that holds its own lock, and has no zombie children
below `k` unless it is init. -/
abbrev waiting (p : Pid) (k : Nat) : Ghost := { held := [p], live := true, quiet := k, wait := .searching }

/-- One more slot that is not a zombie child. -/
theorem quiet_succ (h : Knows s a g) (ha : a = .inl p) (hp0 : p ≠ initproc) (hq : g.quiet = i)
    (hi : (s.proc i).parent = some p → (s.proc i).state ≠ .zombie) (k : Pid) (hk : k.val < i.val + 1)
    (hpar : (s.proc k).parent = some p) : (s.proc k).state ≠ .zombie := by
  by_cases hki : k = i
  · subst hki; exact hi hpar
  · have hlt : k.val < g.quiet := by
      have : k.val ≠ i.val := fun e => hki (Fin.ext e)
      omega
    exact (h.quiet p ha hp0 (Nat.lt_of_le_of_lt (Nat.zero_le _) hlt)).2 k hlt hpar

theorem beginWait_spec : C.Spec a (beginWait : KProg n Pid) (holding true []) fun p g' =>
    a = .inl p ∧ g' = { live := true, wait := .searching } := by
  refine .step fun s γ hi hg => ?_
  cases a with
  | inr c => trivial
  | inl p =>
    refine fun _ => ⟨_, ⟨?_, hi.same hg (by rfl) rfl rfl rfl (fun _ => rfl) rfl⟩, rfl, rfl⟩
    refine hi.logStep rfl hg .searching ((hi.own (.inl p)).knows.call p rfl).beginWait (fun q w hq hok => ?_)
      (hi.agree.logCall rfl rfl rfl rfl rfl fun f hf => .inl hf) ⟨hi.calls.reapsNodup, hi.calls.ret, hi.calls.failed⟩ rfl
    exact hok.other (update_of_ne hq _ _) (fun _ _ => Iff.rfl) (fun _ _ => Iff.rfl) fun _ _ => Iff.rfl

theorem endWait_spec {value : BitVec 32} (hv : Calls.Returns w value) :
    C.Spec a (endWait value) { live := true, wait := w } fun _ g' => g' = holding true [] := by
  refine .step fun s γ hi hg => ?_
  cases a with
  | inr c => trivial
  | inl p =>
    have hok : CallOk s.hist.log p w := (hg ▸ (hi.own (.inl p)).knows).call p rfl
    refine fun _ => ⟨_, ⟨?_, hi.same hg (by rfl) rfl rfl rfl (fun _ => rfl) rfl⟩, rfl⟩
    refine hi.logStep rfl hg .idle (hok.endWait rfl) (fun q w hq hok => ?_)
      (hi.agree.logCall rfl rfl rfl rfl rfl fun f hf => .inl hf) (hi.calls.endWait hok rfl hv) rfl
    refine hok.other rfl (fun _ _ => Iff.rfl) (fun t ht => ?_) fun _ _ => Iff.rfl
    rw [mem_cons]
    exact ⟨fun e => e.resolve_left fun e => hq (by rw [← ht, e]), .inr⟩

/-- `np->parent == p`, read before the child's lock is acquired. -/
theorem findChild_spec (ha : a = .inl p) : C.Spec a (getProc i) (waiting p i) fun x g' =>
    g' = if x.parent = some p then { waiting p i with child := some i } else waiting p (i + 1) := by
  refine .step fun s γ hi hg _ => ?_
  have ho := hg ▸ hi.own a
  by_cases hc : (s.proc i).parent = some p
  · refine ⟨_, ⟨hi.learn hg (some i) 0 none i (fun k e => ?_) ho.scan (fun _ _ e => nomatch e) ho.knows.quiet,
      Full.keep hg rfl hi.switch⟩, by rw [if_pos hc]⟩
    cases e
    exact ⟨p, ha, hc⟩
  · refine ⟨_, ⟨hi.learn hg none 0 none (i + 1) (nofun) ho.scan (fun _ _ e => nomatch e)
      (fun q hq hq0 _ => ?_), Full.keep hg rfl hi.switch⟩, by rw [if_neg hc]⟩
    cases ha.symm.trans hq
    exact ⟨by simp, quiet_succ ho.knows ha hq0 rfl fun e => absurd e hc⟩

/-- What is in a slot whose lock is held. -/
theorem saw_spec (hi : i ∈ g.held) (hal : g.alloc = none) : C.Spec a (getProc i) g fun x g' =>
    g' = { g with saw := some (i, x) } ∧ (C.cl → x.state = .unused → x.pid = 0) := by
  refine .step fun s γ h hg _ =>
    ⟨_, ⟨h.learn hg g.child g.scan (some (i, s.proc i)) g.quiet ?_ ?_ (fun k st e => ?_) ?_, Full.keep hg rfl h.switch⟩,
      rfl, fun hc hu => ?_⟩
  · rw [← hg]; exact (h.own a).child
  · rw [← hg]; exact (h.own a).scan
  · cases e
    exact ⟨hi, rfl⟩
  · rw [← hg]; exact (h.own a).knows.quiet
  · rcases h.clean hc i hu with hx | ⟨-, u, b, hb⟩
    · exact hx.1
    · obtain rfl := h.alloc_unique (a := a) (by rwa [hg]) hb
      rw [hg, hal] at hb; cases hb

/-- The child is younger than the process that waits for it. -/
theorem acquireChild_spec (ha : a = .inl p) : C.Spec a (acquire i) { waiting p k with child := some i }
    fun _ g' => i ≠ p ∧ g' = { waiting p k with held := [i, p], child := some i } := by
  refine (acquire_spec rfl fun hord s γ hi hg k hk => ?_).mono ?_
  · obtain rfl := mem_singleton.mp hk
    obtain ⟨q, hq, hc⟩ := (hi.own a).child i (by rw [hg])
    cases ha.symm.trans hq
    exact hi.births.parent i k hc
  · rintro _ _ ⟨hne, rfl⟩
    exact ⟨by simpa using hne, rfl⟩

/-- Release the lock of a child that is not a zombie. -/
theorem releaseChild_spec (ha : a = .inl p) (hx : x.state ≠ .zombie) (hip : i ≠ p) :
    C.Spec a (release i) { waiting p i with held := [i, p], child := some i, saw := some (i, x) }
      fun _ g' => g' = waiting p (i + 1) := by
  refine .step fun s γ hi hg => ?_
  split
  · rename_i hl
    have ho := hg ▸ hi.own a
    have hix : s.proc i = x := (ho.saw i x rfl).2
    have h := hi.learn hg none 0 none (i + 1) (nofun) ho.scan (fun _ _ e => nomatch e) fun q hq hq0 _ => by
      cases ha.symm.trans hq
      exact ⟨by simp, quiet_succ ho.knows ha hq0 rfl fun _ => by rwa [hix]⟩
    refine fun _ => ⟨_, ⟨?_, release_switch hi hg hl rfl (.inl rfl) (by rfl)⟩, rfl⟩
    have : Inv C.ord C.cl (s.setLock i none) _ :=
      drop h (update_self _ _ _) rfl rfl (.inr fun e => hip (Sum.inl.inj (ha.symm.trans e)).symm) (by simp) (by simp)
        rfl rfl rfl nofun nofun
    rw [update_idem] at this
    simpa using this
  · trivial

/-- Release the child's lock and then the process's own. -/
theorem releaseBoth_spec {c : Option Pid} {x : Option (Pid × Proc)} {β : Type} (r : β) :
    C.Spec a (do release i; release p; return r) { held := [i, p], live := true, child := c, saw := x, quiet := k, wait := w }
      fun r' g' => r' = r ∧ g' = { live := true, wait := w } := by
  refine .next (release_forget rfl (by simp) (by simp) rfl) fun _ => ?_
  refine .next (release_spec rfl rfl (.inl rfl) (by simp) (by simp) rfl (.inl rfl)) fun _ => ?_
  exact .ret ⟨rfl, by simp⟩

/-- A zombie is freed; no CPU has anything to do with it. -/
theorem reap_switch {g' : Ghost} (hi : C.Full s γ) (hg : γ a = g) (hm : i ∈ g.held)
    (hsaw : g.saw = some (i, x)) (hx : x.state = .zombie) (hs : g.switch = {}) (hs' : g'.switch = {})
    (hlock : s'.lock = s.lock)
    (honcpu : s'.oncpu = s.oncpu) (hcproc : s'.cproc = s.cproc) (hproc : s'.proc = update s.proc i (s.proc i).freed)
    (hctx : s'.hist.context = s.hist.context) : Switch.Inv s' (Ghost.switch ∘ update γ a g') := by
  have ho := hi.self hg
  refine Full.switch_update ?_
  rw [hs']
  refine hi.switch.slot_off ((ho.lock i).mpr hm) (by rw [comp_apply, hg, hs]) (fun e => ?_) hlock honcpu hcproc hproc
    (fun _ _ => by rw [hctx]) nofun (absurd rfl) rfl (by rw [comp_apply, hg, hs]) nofun
  rw [(ho.saw i x hsaw).2, hx] at e
  cases e

theorem copyoutFailed_spec (ha : a = .inl p) (hx : x.state = .zombie) (hg' : g.saw = some (i, x))
    (hw : g.wait = .searching) : C.Spec a (copyoutFailed p i) g fun _ g' => g' = { g with wait := .failed } := by
  refine .step fun s γ hi hg _ => ⟨_, ⟨?_, hi.same hg (by rfl) rfl rfl rfl (fun _ => rfl) rfl⟩, rfl⟩
  have ho := hg ▸ hi.own a
  have hok : CallOk s.hist.log p .searching := hw ▸ ho.knows.call p ha
  have hz : (s.proc i).state = .zombie := by rw [(ho.saw i x hg').2, hx]
  refine hi.logStep ha hg .failed (hok.copyoutFailed rfl) (fun q w hq hok => ?_)
    (hi.agree.logCall rfl rfl rfl rfl rfl fun f hf => ?_) (hi.calls.copyoutFailed hok rfl) rfl
  · refine hok.other rfl (fun _ _ => Iff.rfl) (fun _ _ => Iff.rfl) fun f hf => ?_
    rw [mem_cons]
    exact ⟨fun e => e.resolve_left fun e => hq (by rw [← hf, e]), .inr⟩
  · rcases mem_cons.1 hf with rfl | hf
    · exact .inr ⟨i, hz, rfl⟩
    · exact .inl hf

/-- How a scan of the table by `wait` ends: with what it returns, or with no
zombie found. -/
abbrev Scanned (p : Pid) : BitVec 32 ⊕ Bool → Ghost → Prop
  | .inl value, g => ∃ w, Calls.Returns w value ∧ g = { live := true, wait := w }
  | .inr _, g => g = waiting p nproc

theorem wait_spec (addr : Bool) : C.Spec a (wait addr) (holding true []) fun value g' =>
    ∃ w, Calls.Returns w value ∧ g' = { live := true, wait := w } := by
  refine .bind beginWait_spec ?_
  rintro p _ ⟨ha, rfl⟩
  refine .next (acquire_first rfl rfl) fun _ => ?_
  refine .loop (J := fun _ g => g = waiting p 0) ?_ rfl
  rintro _ _ rfl
  refine .bind (R := Scanned p) (.loop (J := fun (x : Nat × Bool) g => x.1 ≤ nproc ∧ g = waiting p x.1) ?_ ?_) ?_
  · rintro ⟨i, havekids⟩ _ ⟨hle, rfl⟩
    dsimp only
    split
    · rename_i h
      refine .next (findChild_spec (i := ⟨i, h⟩) ha) fun x => ?_
      split
      · refine .bind (acquireChild_spec ha) ?_
        rintro _ _ ⟨hip, rfl⟩
        refine .bind (saw_spec (by simp) rfl) ?_
        rintro x _ ⟨rfl, -⟩
        split
        · rename_i hz
          refine .next input_spec fun copied => ?_
          split
          · refine .next (copyoutFailed_spec ha hz rfl rfl) fun _ => ?_
            refine (releaseBoth_spec _).mono ?_
            rintro _ _ ⟨rfl, rfl⟩
            exact ⟨.failed, rfl, rfl⟩
          · refine .bind (R := fun _ g' => g' = { held := [⟨i, h⟩, p], live := true, wait := .reaped x.pid })
              (.step fun s γ hi hg _ => ⟨_, ⟨?_, reap_switch hi hg (by simp) rfl hz rfl rfl rfl rfl rfl rfl rfl⟩, rfl⟩) ?_
            · refine hi.freeChild ha hg (by simp) rfl rfl hz rfl rfl rfl rfl (fun y e => ?_) rfl
              cases addr <;> simp at e
              exact e.symm
            rintro _ _ rfl
            refine (releaseBoth_spec _).mono ?_
            rintro _ _ ⟨rfl, rfl⟩
            exact ⟨.reaped x.pid, rfl, rfl⟩
        · refine .next (releaseChild_spec (i := ⟨i, h⟩) ha (by assumption) hip) fun _ => ?_
          exact .ret ⟨h, rfl⟩
      · exact .ret ⟨h, rfl⟩
    · rename_i h
      obtain rfl : i = nproc := le_antisymm hle (not_lt.mp h)
      exact .ret rfl
  · exact ⟨Nat.zero_le _, rfl⟩
  · rintro kids g hg
    cases kids with
    | inl value => exact .ret hg
    | inr havekids =>
      obtain rfl : g = waiting p nproc := hg
      refine .next getProc_spec fun x => ?_
      split
      · refine .next (release_forget rfl (by simp) (by simp) rfl) fun _ => ?_
        exact .ret ⟨.searching, rfl, by simp⟩
      · exact .next (sleepLocked_spec ha _ fun _ => rfl) fun _ => Safe.ret rfl

theorem woken_unused (st : ProcState) :
    (if st = .sleeping then .runnable else st) = ProcState.unused ↔ st = .unused := by
  cases st <;> decide

theorem woken_zombie (st : ProcState) :
    (if st = .sleeping then .runnable else st) = ProcState.zombie ↔ st = .zombie := by
  cases st <;> decide

theorem woken_ne_sleeping (st : ProcState) : (if st = .sleeping then .runnable else st) ≠ ProcState.sleeping := by
  cases st <;> decide

theorem kill_spec (pid : BitVec 32) : C.Spec a (kill pid) (holding true []) fun _ g' => g' = holding true [] := by
  refine .bind (R := fun _ g' => (C.cl → pid ≠ 0) ∧ g' = holding true []) (.step fun s γ hi hg has => ?_) ?_
  · refine ⟨_, ⟨?_, hi.same hg rfl rfl rfl rfl (fun _ => rfl) rfl⟩, fun hc => ?_, rfl⟩
    · refine hi.lockStep rfl rfl (by rw [hg]) (fun _ _ h => .inl h) (fun _ _ _ => Iff.rfl) (fun _ _ => rfl) ?_
      have ho := hg ▸ hi.own a
      exact { ho with knows := { ho.knows with } }
    · have := C.killedZero _ has hc
      simp only [State.modHist, Bool.or_eq_false_iff, decide_eq_false_iff_not] at this
      exact this.2
  rintro _ _ ⟨hpid, rfl⟩
  refine .bind (forProcs_spec (J := fun _ g => g = holding true []) (R := fun _ g => g = holding true []) ?_ rfl) ?_
  · rintro i _ rfl
    refine .next (preempt_spec rfl rfl rfl rfl rfl rfl (.inl rfl)) fun _ => ?_
    refine .next (acquire_first rfl rfl) fun _ => ?_
    refine .bind (saw_spec (by simp) rfl) ?_
    rintro x _ ⟨rfl, hx⟩
    split
    · rename_i hxp
      have hused : C.cl → x.state ≠ .unused := fun hc hu => hpid hc (hxp.symm.trans (hx hc hu))
      refine .bind (R := fun _ g' =>
        g' = holding true [i]) (.step fun s γ hi hg _ => ⟨_, ⟨?_, Full.keep hg (by rfl) ?_⟩, rfl⟩) ?_
      · have hix : s.proc i = x := ((hi.own a).saw i _ (by rw [hg])).2
        have h := hi.forget hg 0 (.inl rfl)
        have hu := woken_unused (s.proc i).state
        refine h.tame (a := a) (i := i) (x := { s.proc i with killed := true, state := _ }) (by simp) (by simp)
          ⟨rfl, hu, or_congr hu (woken_zombie _), fun hc e => absurd (hix ▸ hu.mp e) (hused hc), fun _ => ⟨rfl, rfl⟩,
            fun _ e => absurd e (woken_ne_sleeping _)⟩ rfl rfl rfl
      · refine hi.switch.wake (a := a) (((hi.self hg).lock i).mpr (by simp)) rfl rfl rfl rfl rfl ?_
        dsimp only
        split
        · exact .inr ⟨‹_›, rfl⟩
        · exact .inl rfl
      rintro _ _ rfl
      exact .next release_last fun _ => Safe.ret rfl
    · refine .next (release_forget rfl (by simp) (by simp) rfl) fun _ => ?_
      exact .ret (by simp)
  · rintro r g' hr
    refine .ret ?_
    cases r <;> exact hr

/-! ## Every call -/

/-- What is known of a thread between its calls. -/
abbrev Idle (l : Bool) (g : Ghost) : Prop := g = holding l []

theorem call_spec {l : Bool} {x : Call} (hg : Idle l g) (hx : (client n).allowed a l x = true) :
    C.Spec a ((client n).body x l) g Idle := by
  obtain rfl := hg
  have hret : ∀ {p : KProg n Unit} {l' : Bool}, C.Spec a p (holding l []) (fun _ g' => g' = holding l' []) →
      C.Spec a (do p; return l') (holding l []) Idle := fun h =>
    Safe.bind h fun _ _ e => Safe.ret e
  cases x with
  | forkret =>
    obtain rfl : l = false := by revert hx; cases a <;> cases l <;> simp [client]
    exact hret forkret_spec
  | scheduler => exact hret scheduler_spec
  | wakeup chan =>
    refine hret (wakeup_spec ?_ _)
    cases a with
    | inl p => exact .inl (by revert hx; cases l <;> simp [client])
    | inr c => exact .inr ⟨c, rfl⟩
  | wait addr =>
    obtain rfl : l = true := by revert hx; cases a <;> cases l <;> simp [client]
    refine .bind (wait_spec addr) ?_
    rintro value _ ⟨w, hw, rfl⟩
    exact .bind (endWait_spec hw) fun _ _ e => Safe.ret e
  | _ =>
    obtain rfl : l = true := by revert hx; cases a <;> cases l <;> simp [client]
    first
      | exact hret fork_spec
      | exact hret (exit_spec _)
      | exact hret (kill_spec _)
      | exact hret (sleep_spec _)
      | exact hret (yield_spec rfl rfl rfl rfl rfl rfl rfl)

/-! ## Every run -/

theorem userinit_agree (pagetable trapframe : Nat) : Agree (userinit n pagetable trapframe) := by
  have hused : ∀ i, ((userinit n pagetable trapframe).proc i).state ≠ .unused → i = initproc := fun i hu => by
    by_contra h0
    simp [userinit, h0] at hu
  have hpar : ∀ i, ((userinit n pagetable trapframe).proc i).parent = none := fun i => by
    simp only [userinit]; split <;> rfl
  have hborn : ∀ i, Born (userinit n pagetable trapframe) i → i = initproc := fun i h =>
    h.elim id fun e => absurd (hpar i) e
  have hz : ∀ i, ((userinit n pagetable trapframe).proc i).state ≠ .zombie := fun i => by
    simp only [userinit]; split <;> simp
  exact ⟨fun i h0 hu => absurd (hused i hu) h0, fun i j hi hj _ => (hborn i hi).trans (hborn j hj).symm,
    fun _ => Nat.le_refl 0,
    fun _ q _ _ _ _ => hz q, nodup_nil, by simp [userinit], by simp [userinit], fun i h => absurd h (hz i), by simp [userinit],
    nodup_nil, by simp [userinit], by simp [userinit]⟩

theorem userinit_inv (pagetable trapframe : Nat) :
    Inv C.ord C.cl (userinit n pagetable trapframe) fun _ => holding false [] := by
  have hpar : ∀ i, ((userinit n pagetable trapframe).proc i).parent = none := fun i => by
    simp only [userinit]; split <;> rfl
  have hinit : ¬ Dead ((userinit n pagetable trapframe).proc initproc) := by simp [userinit, Dead]
  have hown : ∀ a, Own C.ord (userinit n pagetable trapframe) a (holding false []) := fun a =>
    { lock := fun j => by simp [userinit]
      nodup := nodup_nil
      live := by simp
      alloc := by simp
      child := by simp
      scan := fun _ _ _ hk => by cases hk
      orig := fun _ _ => rfl
      want := rfl
      order := by simp
      saw := by simp
      knows := ⟨by simp, by simp, by simp, fun p _ => by constructor <;> simp [userinit]⟩ }
  refine ⟨hown, by simp [userinit], hinit, fun i j h => ?_, fun i _ => .inl (hpar i),
    ⟨fun i j h => ?_, by simp [userinit], rfl, fun _ => Nat.le_refl 0⟩,
    fun _ i hi => .inl ?_, fun _ => rfl, userinit_agree pagetable trapframe,
      ⟨nodup_nil, by simp [userinit], by simp [userinit]⟩⟩
  · rw [hpar] at h; cases h
  · rw [hpar] at h; cases h
  · have h0 : i ≠ initproc := fun e => hinit (.inl (e ▸ hi))
    simp [userinit, h0, Clean]

/-- The invariants hold in every state that is reached from `userinit`. -/
theorem inv_run {pagetable trapframe : Nat} {c : Config (State n) (Agent n) Bool}
    (hr : Config.Run (client n) C.Asm (.idle (userinit n pagetable trapframe) false) c) :
    ∃ γ, C.Full c.shared γ := by
  obtain ⟨γ, hi, -⟩ := (Config.Run.inv Idle hr ⟨userinit_inv pagetable trapframe, Switch.userinit_inv pagetable trapframe⟩
    (fun _ => rfl) rfl fun _ _ _ _ hg hx => call_spec hg hx).1 0
  exact ⟨γ, hi⟩

end Xv6.Process.Ctx
