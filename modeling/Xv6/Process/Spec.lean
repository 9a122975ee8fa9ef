import Xv6.Process.Slots

/-!
# What each function does

One specification for each function of `proc.c`, by its effect on the ghost
value of the thread that runs it. They keep the invariant (`Inv`), and under
`ord` no thread acquires a lock while it holds one of a slot born later.
-/

namespace Xv6.Process

open Function List

variable {n : Nat}

/-- The assumptions on the states of a run. -/
structure Ctx (n : Nat) where
  ord : Prop
  cl : Prop
  Asm : State n → Prop
  reused : ∀ s, Asm s → ord → s.hist.reused = false
  killedZero : ∀ s, Asm s → cl → s.hist.killedZero = false
  noTrapframe : ∀ s, Asm s → cl → s.hist.noTrapframe = false

namespace Ctx

variable (C : Ctx n)

/-- The invariants of the table and of the switches. -/
structure Full (s : State n) (γ : Agent n → Ghost) : Prop extends Inv C.ord C.cl s γ where
  switch : Switch.Inv s (Ghost.switch ∘ γ)

/-- The program keeps the invariants, and takes the ghost value of `a` from
`g` to one satisfying `Q`. -/
abbrev Spec {α : Type} (a : Agent n) (p : KProg n α) (g : Ghost) (Q : α → Ghost → Prop) : Prop :=
  Safe C.Asm C.Full (fun _ => True) a p g Q

variable {C} {a : Agent n} {g g' : Ghost} {α : Type} {j p : Pid}

/-! ## Locks -/

variable {s s' : State n} {γ : Agent n → Ghost} {o : Option (Owner n)} {w : Agent n → Option Pid} {f : Proc → Proc}
  {x : Proc}

theorem Full.switch_update (h : Switch.Inv s (update (Ghost.switch ∘ γ) a g.switch)) : Switch.Inv s
    (Ghost.switch ∘ update γ a g) := by
  rwa [comp_update]

theorem Full.keep (hg : γ a = g) (hs : g'.switch = g.switch) (h : Switch.Inv s (Ghost.switch ∘ γ)) :
    Switch.Inv s (Ghost.switch ∘ update γ a g') := by
  rwa [comp_update, hs, ← hg, ← comp_apply (f := Ghost.switch), update_eq_self]

theorem Full.same (h : C.Full s γ) (hg : γ a = g) (hs : g'.switch = g.switch) (hlock : s'.lock = s.lock)
    (honcpu : s'.oncpu = s.oncpu) (hcproc : s'.cproc = s.cproc) (hstate : ∀ k, (s'.proc k).state = (s.proc k).state)
    (hctx : s'.hist.context = s.hist.context) : Switch.Inv s' (Ghost.switch ∘ update γ a g') :=
  keep hg hs (h.switch.same hlock honcpu hcproc hstate hctx)

/-- The lock `j` changes hands, and no other thread has a part in it. -/
theorem relock (hi : Inv C.ord C.cl s γ)
    (hold : ∀ u, u ≠ a → s.lock j ≠ some (.held u)) (hnew : ∀ u, u ≠ a → o ≠ some (.held u))
    (hd : ∀ c, o = some (.toProc c) → ¬ Dead (s.proc j)) (hproc : s'.proc = s.proc) (hlock : s'.lock = update s.lock j o)
    (hh : { s.hist with want := w }.Same s'.hist) (hwant : ∀ u, u ≠ a → w u = s.hist.want u) (hal : g.alloc = (γ a).alloc)
    (hown : Own C.ord s' a g) : Inv C.ord C.cl s' (update γ a g) := by
  refine hi.lockStep hproc hh hal (fun q c h => ?_) (fun u hu k => ?_) hwant hown
  · rw [hlock] at h
    by_cases hq : q = j
    · subst hq; exact .inr (hd c (by rwa [update_self] at h))
    · exact .inl (by rwa [update_of_ne hq] at h)
  · rw [hlock]
    by_cases hk : k = j
    · subst hk
      rw [update_self]
      exact ⟨fun e => absurd e (hnew u hu), fun e => absurd e (hold u hu)⟩
    · rw [update_of_ne hk]

/-- Giving up a lock: to nobody, or to a CPU that switches. -/
theorem drop (hi : Inv C.ord C.cl s γ) (hg : γ a = g) (hw : g.want = none)
    (hsaw : g.saw = none) (hq : g.quiet = 0 ∨ a ≠ .inl j) (hj : j ∈ g.held) (hal : ∀ b, g.alloc ≠ some (j, b))
    (hproc : s'.proc = s.proc) (hlock : s'.lock = update s.lock j o) (hh : s.hist.Same s'.hist)
    (ho' : ∀ u, o ≠ some (.held u)) (hd : ∀ c, o = some (.toProc c) → ¬ Dead (s.proc j)) :
    Inv C.ord C.cl s' (update γ a { g with held := g.held.erase j }) := by
  have ho := hi.self hg
  have hself := (ho.lock j).mpr hj
  refine relock hi (fun u hu e => hu ?_) (fun u _ => ho' u) hd hproc hlock hh (fun _ _ => rfl) (by rw [hg])
    ⟨fun k => ?_, ho.nodup.erase _, by rw [hproc]; exact ho.live, fun i b e => ?_, by rw [hproc]; exact ho.child,
      by rw [hproc]; exact ho.scan, by rw [hh]; exact ho.orig, by rw [hh]; exact ho.want, by simp [hw], by simp [hsaw],
      fun q hq' hq0 hpos => ?_, by rw [hproc]; exact ho.knows.orig, by rw [hproc]; exact ho.knows.alloc,
      by rw [hh]; exact ho.knows.call⟩
  · exact (Owner.held.inj (Option.some.inj (hself.symm.trans e))).symm
  · rw [ho.nodup.mem_erase_iff, hlock]
    by_cases hk : k = j
    · subst hk; rw [update_self]; exact ⟨fun e => absurd e (ho' a), fun e => absurd rfl e.1⟩
    · rw [update_of_ne hk, ho.lock k]; exact ⟨fun e => ⟨hk, e⟩, fun e => e.2⟩
  · obtain ⟨hm, h⟩ := ho.alloc i b e
    have hij : i ≠ j := fun e' => hal b (e' ▸ e)
    exact ⟨(mem_erase_of_ne hij).mpr hm, by rwa [hproc]⟩
  · obtain ⟨hm, h⟩ := ho.knows.quiet q hq' hq0 hpos
    have hqj : q ≠ j := fun e => hq.elim (fun h0 => by rw [h0] at hpos; exact absurd hpos (lt_irrefl 0))
      fun hne => hne (e ▸ hq')
    exact ⟨(mem_erase_of_ne hqj).mpr hm, by rwa [hproc]⟩

/-- Taking a lock that is free, or over from a CPU that switches. -/
theorem take (hi : Inv C.ord C.cl s γ) (hg : γ a = g)
    (hfree : ∀ u, s.lock j ≠ some (.held u)) (hproc : s'.proc = s.proc) (hlock : s'.lock = update s.lock j (some (.held a)))
    (hh : { s.hist with want := w }.Same s'.hist) (hwant : ∀ u, u ≠ a → w u = s.hist.want u) (hwa : w a = none) (l : Bool)
    (hl : l = g.live ∨ a = .inl j ∧ g.orig = none ∧ ¬ Dead (s.proc j)) :
    Inv C.ord C.cl s' (update γ a { g with held := j :: g.held, live := l, want := none }) := by
  have ho := hi.self hg
  have hj : j ∉ g.held := fun hm => hfree a ((ho.lock j).mpr hm)
  refine relock hi (fun u _ => hfree u) (fun u hu e => hu (Owner.held.inj (Option.some.inj e)).symm) nofun hproc hlock hh hwant
    (by rw [hg])
    ⟨fun k => ?_, nodup_cons.mpr ⟨hj, ho.nodup⟩, fun q hq e => ?_, fun i b e => ?_, by rw [hproc]; exact ho.child,
      by rw [hproc]; exact ho.scan, by rw [hh]; exact ho.orig, by rw [hh]; exact hwa, nofun, fun i st e => ?_,
      fun q hq hq0 hpos => ?_, fun q o hq e e' => ?_, by rw [hproc]; exact ho.knows.alloc, by rw [hh]; exact ho.knows.call⟩
  · rw [hlock]
    by_cases hk : k = j
    · subst hk; rw [update_self]; simp
    · rw [update_of_ne hk, ho.lock k, mem_cons]
      exact ⟨.inr, fun e => e.resolve_left hk⟩
  · rw [hproc]
    rcases hl with hl | ⟨ha, -, hd⟩
    · exact ho.live q hq (hl ▸ e)
    · cases ha.symm.trans hq; exact hd
  · obtain ⟨hm, h⟩ := ho.alloc i b e
    exact ⟨mem_cons_of_mem _ hm, by rwa [hproc]⟩
  · obtain ⟨hm, h⟩ := ho.saw i st e
    exact ⟨mem_cons_of_mem _ hm, by rwa [hproc]⟩
  · obtain ⟨hm, h⟩ := ho.knows.quiet q hq hq0 hpos
    exact ⟨mem_cons_of_mem _ hm, by rwa [hproc]⟩
  · rw [hproc]
    rcases hl with hl | ⟨-, hn, -⟩
    · exact ho.knows.orig q o hq (hl ▸ e) e'
    · exact absurd (hn.symm.trans e') (Option.some_ne_none o).symm

/-- `acquire(&proc[j].lock)`, of a slot born after those whose locks are held. -/
theorem acquire_spec (hw : g.want = none)
    (hord : C.ord → ∀ s γ, Inv C.ord C.cl s γ → γ a = g → ∀ i ∈ g.held, s.hist.stamp i < s.hist.stamp j) :
    C.Spec a (acquire j) g fun _ g' => j ∉ g.held ∧ g' = { g with held := j :: g.held } := by
  refine .bind (R := fun _ g' => j ∉ g.held ∧ g' = { g with want := some j }) (.step fun s γ hi hg => ?_) ?_
  · have ho := hi.self hg
    split
    · trivial
    · rename_i hl
      have hj : j ∉ g.held := fun hm => hl ((ho.lock j).mpr hm)
      refine fun _ => ⟨_, ⟨hi.lockStep rfl rfl (by rw [hg]) (fun _ _ h => .inl h) (fun _ _ _ => Iff.rfl)
        (fun u hu => update_of_ne hu _ _) ?_, hi.same hg (by rfl) rfl rfl rfl (fun _ => rfl) rfl⟩, hj, rfl⟩
      refine { ho with want := update_self _ _ _, order := fun h i hm k hk => ?_, knows := { ho.knows with } }
      cases hk
      exact hord h s γ hi.toInv hg i hm
  · rintro _ _ ⟨hj, rfl⟩
    refine .step fun s γ hi hg => ?_
    split
    · rename_i hl
      refine fun _ => ⟨{ g with held := j :: g.held, want := none }, ⟨?_, Full.keep hg rfl ?_⟩, hj, by rw [← hw]⟩
      · exact take (w := update _ a none) hi.toInv hg (by simp [hl]) (by rfl) (by rfl) (by rfl)
          (fun u hu => update_of_ne hu _ _)
          (update_self ..) g.live (.inl rfl)
      · exact hi.switch.acquire hl rfl rfl rfl rfl rfl
    · trivial

theorem release_switch (hi : C.Full s γ) (hg : γ a = g) (hl : s.lock j = some (.held a)) (hf : g.switch.fresh = none)
    (hlv : g.switch.leaving = false ∨ a ≠ .inl j) (hs : g'.switch = g.switch) :
    Switch.Inv (s.setLock j none) (Ghost.switch ∘ update γ a g') := by
  subst hg
  exact Full.keep rfl hs (hi.switch.release hl hlv (by rw [comp_apply, hf]; nofun))

/-- A process releases its own lock only while it is RUNNING. -/
theorem release_spec (hw : g.want = none) (hsaw : g.saw = none) (hq : g.quiet = 0 ∨ a ≠ .inl j) (hj : j ∈ g.held)
    (hal : ∀ b, g.alloc ≠ some (j, b))
    (hf : g.switch.fresh = none) (hlv : g.switch.leaving = false ∨ a ≠ .inl j) :
    C.Spec a (release j) g fun _ g' => g' = { g with held := g.held.erase j } := by
  refine .step fun s γ hi hg => ?_
  split
  · rename_i hl
    exact fun _ => ⟨_, ⟨drop hi.toInv hg hw hsaw hq hj hal rfl rfl rfl nofun nofun, release_switch hi hg hl hf hlv rfl⟩, rfl⟩
  · trivial

theorem myproc_spec : C.Spec a (myproc : KProg n Pid) g fun p g' => a = .inl p ∧ g' = g := by
  refine .step fun s γ hi hg => ?_
  cases a with
  | inl p => exact fun _ => ⟨g, by rwa [← hg, update_eq_self], rfl, rfl⟩
  | inr c => trivial

theorem getProc_spec : C.Spec a (getProc j) g fun _ g' => g' = g :=
  Safe.step fun s γ hi hg _ => ⟨g, by rwa [← hg, update_eq_self], rfl⟩

theorem input_spec : C.Spec a (input : KProg n Nat) g fun _ g' => g' = g := Safe.any fun _ => Safe.ret rfl

/-! ## Changes of a slot -/

/-- A change of a slot that concerns neither its parent nor whether it is
used. -/
theorem modProc_spec (hj : j ∈ g.held) (hsaw : g.saw = none)
    (hf : ∀ s γ, Inv C.ord C.cl s γ → γ a = g → Inv.Tame C.cl s g j (f (s.proc j)))
    (hw : ∀ x, (f x).state = x.state ∨ x.state = .sleeping ∧ (f x).state = .runnable) :
    C.Spec a (modProc j f) g fun _ g' => g' = g := by
  refine .step fun s γ hi hg _ => ⟨g, ?_, rfl⟩
  have hx := hf s γ hi.toInv hg
  rw [← hg, update_eq_self]
  exact ⟨hi.tame (a := a) (by rwa [hg]) (by rwa [hg]) (by rwa [hg]) rfl rfl rfl,
    hi.switch.wake (((hi.self hg).lock j).mpr hj) rfl rfl rfl rfl rfl (hw _)⟩

/-- The process that uses a slot changes it. -/
theorem self_tame (hi : Inv C.ord C.cl s γ) (hg : γ a = g) (ha : a = .inl p)
    (hl : g.live = true) (hpar : x.parent = (s.proc p).parent) (hx : ¬ Dead x)
    (hs : p ≠ initproc → x.state = .sleeping → x.chan = some (.proc p) →
      ∀ q, (s.proc q).parent = some p → (s.proc q).state ≠ .zombie) : Inv.Tame C.cl s g p x := by
  have hd : ¬ Dead (s.proc p) := (hi.own a).live p ha (by rwa [hg])
  exact ⟨hpar, ⟨fun e => absurd (.inl e) hx, fun e => absurd (.inl e) hd⟩, ⟨fun e => absurd e hx, fun e => absurd e hd⟩,
    fun _ e => absurd (.inl e) hx, fun e => absurd (.inr e) hx, hs⟩

/-- A process changes the state of its slot, before it switches to the
scheduler. -/
theorem leave (hi : C.Full s γ) (hg : γ a = g) (ha : a = .inl p) (hp : p ∈ g.held) (hl : g.live = true)
    (hlock : s'.lock = s.lock) (honcpu : s'.oncpu = s.oncpu) (hcproc : s'.cproc = s.cproc)
    (hproc : s'.proc = update s.proc p x)
    (hctx : s'.hist.context = s.hist.context) (hx : x.state ≠ .running) (hx' : x.state ≠ .unused)
    (hs : g'.switch = { leaving := true }) : Switch.Inv s' (Ghost.switch ∘ update γ a g') := by
  have ho := hi.self hg
  refine Full.switch_update ?_
  rw [hs]
  exact hi.switch.leave ((ho.lock p).mpr hp) ha hlock honcpu hcproc hproc hctx (fun e => ho.live p ha hl (.inl e)) hx hx'

/-- A sleeping process is woken up. -/
theorem wake_tame {c : Prop} [Decidable c] (hi : Inv C.ord C.cl s γ)
    (hg : γ a = g) (hj : j ∈ g.held) (hal : ∀ b, g.alloc ≠ some (j, b)) (hc : c → (s.proc j).state = .sleeping)
    (hx : x = if c then { s.proc j with state := .runnable } else s.proc j) : Inv.Tame C.cl s g j x := by
  subst hx
  split
  · have hs := hc ‹c›
    exact ⟨rfl, by simp [hs], by simp [Dead, hs], nofun, nofun, nofun⟩
  · refine ⟨rfl, Iff.rfl, Iff.rfl, fun hcl hu => .inl ?_, fun _ => ⟨rfl, rfl⟩, fun h0 hs hc q => hi.agree.awake j q h0 hs hc⟩
    refine (hi.clean hcl j hu).resolve_right fun ⟨_, u, b, hb⟩ => ?_
    obtain rfl := hi.alloc_unique (a := a) (by rwa [hg]) hb
    exact hal b (hg ▸ hb)

/-- Afterwards `j` does not sleep in `wait`, as long as its lock is held. -/
theorem wakeup1_spec (hj : j ∈ g.held) (hsaw : g.saw = none) (hal : ∀ b, g.alloc ≠ some (j, b)) :
    C.Spec a (wakeup1 j) g fun _ g' =>
      ∃ x, ¬ (x.chan = some (.proc j) ∧ x.state = .sleeping) ∧ g' = { g with saw := some (j, x) } := by
  refine .step fun s γ hi hg => ?_
  split
  · trivial
  · generalize hx : (if (s.proc j).chan = some (.proc j) ∧ (s.proc j).state = .sleeping then
      { s.proc j with state := .runnable } else s.proc j) = x
    have ht := wake_tame hi.toInv hg hj hal (fun h => h.2) hx.symm
    have h : Inv C.ord C.cl (s.modProc j fun x =>
        if x.chan = some (.proc j) ∧ x.state = .sleeping then { x with state := .runnable } else x) γ :=
      hi.tame (a := a) (by rwa [hg]) (by rwa [hg]) (by rwa [hg]) (by rw [← hx]; rfl) rfl rfl
    have ho := hg ▸ h.own a
    refine fun _ => ⟨_, ⟨h.learn hg g.child g.scan (some (j, x)) g.quiet ho.child ho.scan ?_ ho.knows.quiet,
      Full.keep hg rfl ?_⟩,
      x, ?_, rfl⟩
    · intro i y e
      cases e
      exact ⟨hj, by rw [← hx]; exact update_self ..⟩
    · refine hi.switch.wake (((hi.self hg).lock j).mpr hj) rfl rfl rfl rfl rfl ?_
      dsimp only
      split
      · rename_i hc
        exact .inr ⟨hc.2, rfl⟩
      · exact .inl rfl
    · subst hx
      split
      · exact fun e => nomatch e.2
      · assumption

/-! ## Switching -/

theorem swtch_spec (ha : a = .inl p) (hw : g.want = none) (hsaw : g.saw = none) (hq : g.quiet = 0) (hj : p ∈ g.held)
    (hal : ∀ b, g.alloc ≠ some (p, b)) :
    C.Spec a (swtch p) g fun _ g' => g' = { g with held := g.held.erase p, switch := {} } := by
  refine .step fun s γ hi hg => ?_
  split
  · trivial
  · split
    · trivial
    · rename_i hl hst
      cases hc : s.oncpu p with
      | none => trivial
      | some c =>
        refine fun _ => ⟨_, ⟨?_, Full.switch_update ?_⟩, rfl⟩
        · refine Inv.reswitch (g := { g with held := g.held.erase p }) ?_ {}
          exact drop hi.toInv hg hw hsaw (.inl hq) hj hal rfl rfl rfl nofun nofun
        · exact hi.switch.swtch (not_not.mp hl) ha hst hc

theorem resume_spec (ha : a = .inl p) (hw : g.want = none) (hs : g.switch = {}) :
    C.Spec a (resume p) g fun _ g' => g' = { g with held := p :: g.held } := by
  refine .step fun s γ hi hg => ?_
  split
  · rename_i c hl
    refine fun _ => ⟨{ g with held := p :: g.held, want := none }, ⟨?_, Full.keep hg rfl ?_⟩, by rw [← hw]⟩
    · exact take hi.toInv hg (by simp [hl]) (by rfl) (by rfl) (by rfl) (fun _ _ => rfl) ((hi.self hg).want.trans hw)
        g.live (.inl rfl)
    · exact hi.switch.resume ha (by rw [comp_apply, hg, hs]) hl
  · trivial

theorem sched_spec (ha : a = .inl p) (hw : g.want = none) (hsaw : g.saw = none) (hq : g.quiet = 0) (hh : g.held = [p])
    (hal : g.alloc = none) : C.Spec a (sched p) g fun _ g' => g' = { g with switch := {} } := by
  refine .next (swtch_spec ha hw hsaw hq (by simp [hh]) (by simp [hal])) fun _ => ?_
  refine (resume_spec (g := { g with held := g.held.erase p, switch := {} }) ha hw rfl).mono ?_
  rintro _ _ rfl
  rw [hh, erase_cons_head, ← hh]

/-! ## Calls that take one lock at a time -/

/-- A thread that holds `held` and is not allocating or exiting. -/
abbrev holding (l : Bool) (held : List Pid) : Ghost := { held, live := l }

variable {l : Bool}

theorem acquire_first (hw : g.want = none) (hh : g.held = []) :
    C.Spec a (acquire j) g fun _ g' => g' = { g with held := [j] } := by
  refine (acquire_spec hw fun _ s γ _ _ i hi => ?_).mono ?_
  · rw [hh] at hi; exact absurd hi not_mem_nil
  · rintro _ _ ⟨-, rfl⟩; rw [hh]

theorem release_last : C.Spec a (release j) (holding l [j]) fun _ g' => g' = holding l [] := by
  refine (release_spec rfl rfl (.inl rfl) (mem_singleton.mpr rfl) (by simp) rfl (.inl rfl)).mono ?_
  rintro _ _ rfl
  rw [erase_cons_head]

theorem forProcs_spec {f : Pid → KProg n (Option α)} {J : Nat → Ghost → Prop} {R : α → Ghost → Prop}
    (hf : ∀ i g, J i.val g → C.Spec a (f i) g fun r g' => match r with
      | some x => R x g'
      | none => J (i.val + 1) g') (hJ : J 0 g) :
    C.Spec a (forProcs f) g fun r g' => match r with
      | some x => R x g'
      | none => J nproc g' := Safe.forFin hf hJ

section Interrupted

variable (hw : g.want = none) (hsaw : g.saw = none) (hq : g.quiet = 0) (hh : g.held = []) (hal : g.alloc = none)
  (hs : g.switch = {})

include hw hsaw hq hh hal hs

theorem yield_spec (hl : g.live = true) : C.Spec a yield g fun _ g' => g' = g := by
  refine .bind myproc_spec ?_
  rintro p g ⟨ha, rfl⟩
  refine .next (acquire_first hw hh) fun _ => ?_
  refine .bind (R := fun _ g' => g' = { g with held := [p], switch := { leaving := true } })
    (.step fun s γ hi hg _ => ⟨_, ⟨?_, ?_⟩, rfl⟩) ?_
  · have ht := self_tame hi.toInv hg ha hl (x := { s.proc p with state := .runnable }) rfl (by simp [Dead]) nofun
    have h : Inv C.ord C.cl (s.modProc p ({ · with state := .runnable })) γ :=
      hi.tame (a := a) (by rw [hg]; simp) (by rwa [hg]) (by rwa [hg]) rfl rfl rfl
    rw [← update_eq_self a γ, hg] at h
    exact h.reswitch _
  · exact leave hi hg ha (by simp) hl rfl rfl rfl rfl rfl nofun nofun rfl
  rintro _ _ rfl
  refine .next (sched_spec ha (by exact hw) (by exact hsaw) (by exact hq) rfl hal) fun _ => ?_
  refine (release_spec (by exact hw) (by exact hsaw) (.inl (by exact hq)) (mem_singleton.mpr rfl) (by simp [hal]) rfl
    (.inl rfl)).mono ?_
  rintro _ _ rfl
  simp [← hh, ← hs]

/-- A process, or a CPU's scheduler loop, may be interrupted. -/
theorem preempt_spec (hl : g.live = true ∨ ∃ c, a = .inr c) : C.Spec a (preempt : KProg n Unit) g fun _ g' => g' = g := by
  refine .any fun k => ?_
  split
  · rcases hl with hl | ⟨c, rfl⟩
    · exact yield_spec hw hsaw hq hh hal hs hl
    · exact .bind (R := fun _ _ => False) (.step fun _ _ _ _ => trivial) fun _ _ h => h.elim
  · exact .ret rfl

end Interrupted

theorem wakeup_spec (hl : l = true ∨ ∃ c, a = .inr c) (chan : Chan) :
    C.Spec a (wakeup chan) (holding l []) fun _ g' => g' = holding l [] := by
  refine .bind (forProcs_spec (J := fun _ g => g = holding l []) (R := fun _ g => g = holding l []) ?_ rfl) ?_
  · rintro i _ rfl
    refine .next (preempt_spec rfl rfl rfl rfl rfl rfl hl) fun _ => ?_
    refine .next (acquire_first rfl rfl) fun _ => ?_
    refine .bind (modProc_spec (by simp) rfl (fun s γ hi hg => ?_) fun x => ?_) ?_
    · exact wake_tame hi hg (by simp) (by simp) (fun h => h.1) rfl
    · split
      · rename_i hc
        exact .inr ⟨hc.1, rfl⟩
      · exact .inl rfl
    rintro _ _ rfl
    exact .next release_last fun _ => Safe.ret rfl
  · rintro r g' hr
    refine .ret ?_
    cases r <;> exact hr

/-- A process that waits has no zombie children when it goes to sleep. -/
theorem sleepLocked_spec (ha : a = .inl p) (chan : Chan) {q : Nat} {w : WaitState} (hq : chan = .proc p → q = nproc) :
    C.Spec a (sleepLocked p chan) { held := [p], live := true, quiet := q, wait := w }
      fun _ g' => g' = { held := [p], live := true, wait := w } := by
  refine .bind (R := fun _ g' => g' = { held := [p], live := true, wait := w, switch := { leaving := true } })
    (.step fun s γ hi hg _ => ⟨_, ⟨?_, ?_⟩, rfl⟩) ?_
  · have h := hi.forget hg 0 (.inl rfl)
    refine Inv.reswitch (g := { held := [p], live := true, wait := w }) ?_ _
    refine h.tame (a := a) (by simp) (by simp) ?_ rfl rfl rfl
    refine self_tame h rfl ha (by simp) rfl (by simp [Dead]) fun h0 _ e k hk => ?_
    obtain rfl := hq (Option.some.inj e)
    exact ((hg ▸ (hi.own a).knows).quiet p ha h0 (Nat.zero_lt_succ _)).2 k k.isLt hk
  · exact leave hi hg ha (by simp) rfl rfl rfl rfl rfl rfl nofun nofun rfl
  rintro _ _ rfl
  refine .next (sched_spec ha rfl rfl rfl rfl rfl) fun _ => ?_
  refine modProc_spec (by simp) rfl (fun s γ hi hg => ?_) fun x => .inl rfl
  have hd : ¬ Dead (s.proc p) := (hi.own a).live p ha (by rw [hg])
  exact self_tame hi hg ha rfl rfl hd nofun

theorem sleep_spec (k : Nat) : C.Spec a (sleep (.addr k)) (holding true []) fun _ g' => g' = holding true [] := by
  refine .bind myproc_spec ?_
  rintro p _ ⟨ha, rfl⟩
  refine .next (acquire_first rfl rfl) fun _ => ?_
  refine .next (sleepLocked_spec ha (.addr k) nofun) fun _ => ?_
  exact release_last

/-- A child starts; it has been made runnable. -/
theorem forkret_spec : C.Spec a forkret (holding false []) fun _ g' => g' = holding true [] := by
  refine .bind myproc_spec ?_
  rintro p _ ⟨ha, rfl⟩
  refine .bind (R := fun _ g' => g' = holding true [p]) (.step fun s γ hi hg => ?_) ?_
  · split
    · rename_i c hl
      refine fun _ => ⟨_, ⟨?_, Full.keep hg (by rfl) ?_⟩, rfl⟩
      · exact take hi.toInv hg (by simp [hl]) (by rfl) (by rfl) (by rfl) (fun _ _ => rfl) (hi.self hg).want true
          (.inr ⟨ha, rfl, hi.toProc p c hl⟩)
      · exact hi.switch.resume ha (by rw [comp_apply, hg]) hl
    · trivial
  rintro _ _ rfl
  exact release_last

/-- A CPU's scheduler gives the lock of a runnable process away, and takes it
back. -/
theorem scheduler_spec : C.Spec a scheduler (holding l []) fun _ g' => g' = holding l [] := by
  refine .bind (forProcs_spec (J := fun _ g => g = holding l []) (R := fun _ g => g = holding l []) ?_ rfl) ?_
  · rintro i _ rfl
    refine .next (acquire_first rfl rfl) fun _ => ?_
    refine .bind (R := fun found g' => g' = if found then { live := l, switch := { runs := some i } } else holding l [i])
      (.step fun s γ hi hg => ?_) ?_
    · cases a with
      | inl p => trivial
      | inr c =>
        dsimp only
        split
        · rename_i hs
          have hx : Inv.Tame C.cl s (γ (.inr c)) i { s.proc i with state := .running } :=
            ⟨rfl, by simp [hs], by simp [Dead, hs], nofun, nofun, nofun⟩
          have ht : Inv C.ord C.cl (s.modProc i ({ · with state := .running })) γ :=
            hi.tame (a := .inr c) (by rw [hg]; simp) (by rw [hg]) hx rfl rfl rfl
          refine fun _ => ⟨_, ⟨?_, Full.switch_update ?_⟩, rfl⟩
          · rw [if_pos rfl, show ({ live := l, switch := { runs := some i } } : Ghost) =
              { holding l [i] with held := [i].erase i, switch := { runs := some i } } by simp]
            refine Inv.reswitch (g := { holding l [i] with held := [i].erase i }) ?_ _
            exact drop ht hg rfl rfl (.inl rfl) (by simp) (by simp) (o := some (.toProc c)) rfl rfl rfl nofun
              (fun _ _ => by simp [State.modProc, Dead])
          · exact hi.switch.found (by rw [comp_apply, hg]) (((hi.self hg).lock i).mpr (by simp)) hs
        · refine fun _ => ⟨holding l [i], ?_, rfl⟩
          rwa [show holding l [i] = γ (.inr c) from hg.symm, update_eq_self]
    · rintro found _ rfl
      have hrel : C.Spec a (do release i; return (none : Option Unit)) (holding l [i])
          fun r g' => r = none ∧ g' = holding l [] := by
        refine .next release_last fun _ => ?_
        exact .ret ⟨rfl, rfl⟩
      cases found with
      | false => exact hrel.mono (by rintro _ _ ⟨rfl, rfl⟩; rfl)
      | true =>
        refine .bind (R := fun _ g' => g' = holding l [i]) (.step fun s γ hi hg => ?_) ?_
        · cases a with
          | inl p => trivial
          | inr c =>
            dsimp only
            split
            · rename_i hl
              refine fun _ => ⟨_, ⟨?_, Full.switch_update ?_⟩, rfl⟩
              · refine Inv.reswitch (g := { held := [i], live := l, switch := { runs := some i } }) ?_ {}
                exact take hi.toInv hg (by simp [hl]) (by rfl) (by rfl) (by rfl) (fun _ _ => rfl) (hi.self hg).want
                  l (.inl rfl)
              · exact hi.switch.back (by rw [comp_apply, hg]; rfl) hl
            · trivial
        · rintro _ _ rfl
          exact hrel.mono (by rintro _ _ ⟨rfl, rfl⟩; rfl)
  · rintro r g' hr
    refine .ret ?_
    cases r <;> exact hr

end Ctx

end Xv6.Process
