import Xv6.Process.Model

/-!
# Switching between processes and schedulers

A slot of the process table is in one of four places (`Place`): no CPU has
anything to do with it, a CPU switches to it, a CPU executes its kernel thread,
or a CPU switches away from it. The invariant says which states and which
saved contexts go with each place (`Place.Fits`), and that `c->proc` is the
process whose place is on the CPU `c`.

A process that a CPU executes is RUNNING, unless it has changed its own state
and is about to switch to the scheduler; then it holds its own lock.
-/

namespace Xv6.Process.Switch

open Function

variable {n : Nat}

/-- Where the kernel thread of a process is. -/
inductive Place (n : Nat) where
  | off
  | toProc (c : Fin n)
  | on (c : Fin n)
  | toSched (c : Fin n)

/-- The CPU that the thread is on. -/
def Place.cpu : Place n → Option (Fin n)
  | .off => none
  | .toProc c | .on c | .toSched c => some c

/-- The states and contexts that go with a place; `leaving` says that the
process has changed its own state. -/
def Place.Fits (st : ProcState) (x : Context) (leaving : Bool) : Place n → Prop
  | .off => st ≠ .running ∧ (st ≠ .unused → x ≠ .stale)
  | .toProc _ => st = .running ∧ x ≠ .stale
  | .on _ => st ≠ .unused ∧ (st = .running ∨ leaving = true)
  | .toSched _ => st ≠ .running ∧ st ≠ .unused ∧ x ≠ .stale

def place (s : State n) (p : Pid) : Place n :=
  match s.lock p with
  | some (.toProc c) => .toProc c
  | some (.toSched c) => .toSched c
  | _ => match s.oncpu p with
    | some c => .on c
    | none => .off

/-- What is known of a thread. -/
structure Ghost where
  /-- It has changed the state of its process. -/
  leaving : Bool := false
  /-- The slot that it is allocating, once the slot has a context. -/
  fresh : Option Pid := none
  /-- The process that the CPU has switched to. -/
  runs : Option Pid := none

/-- What the invariant says of the thread `a`. -/
structure Own (s : State n) (a : Agent n) (g : Ghost) : Prop where
  leaving : ∀ p, a = .inl p → g.leaving = true → s.lock p = some (.held a)
  runs : ∀ c, a = .inr c → s.cproc c = g.runs
  fresh : ∀ i, g.fresh = some i → s.lock i = some (.held a) ∧ (s.proc i).state = .unused ∧ s.hist.context i ≠ .stale

structure Inv (s : State n) (γ : Agent n → Ghost) : Prop where
  own : ∀ a, Own s a (γ a)
  fits : ∀ p, (place s p).Fits (s.proc p).state (s.hist.context p) (γ (.inl p)).leaving
  cpu : ∀ c p, s.cproc c = some p ↔ (place s p).cpu = some c
  /-- A CPU that switches does not execute the process. -/
  off : ∀ p, (∀ c, s.lock p ≠ some (.toProc c) ∧ s.lock p ≠ some (.toSched c)) ∨ s.oncpu p = none

variable {s s' : State n} {γ : Agent n → Ghost} {a : Agent n} {g : Ghost} {i j p : Pid} {o : Option (Owner n)}
  {c : Fin n} {x : Proc}

theorem place_congr (hl : s'.lock p = s.lock p) (ho : s'.oncpu p = s.oncpu p) : place s' p = place s p := by
  rw [place, place, hl, ho]

/-- A slot whose lock is free, or held by a thread. -/
theorem place_eq (hl : s.lock p = none ∨ ∃ u, s.lock p = some (.held u)) :
    place s p = match s.oncpu p with
      | some c => .on c
      | none => .off := by
  rw [place]
  rcases hl with hl | ⟨u, hl⟩ <;> rw [hl]

theorem not_switching (hl : s.lock p = none ∨ ∃ u, s.lock p = some (.held u)) (c : Fin n) :
    s.lock p ≠ some (.toProc c) ∧ s.lock p ≠ some (.toSched c) := by
  rcases hl with hl | ⟨u, hl⟩ <;> rw [hl] <;> exact ⟨nofun, nofun⟩

theorem place_toSched (h : s.lock p = some (.toSched c)) : place s p = .toSched c := by rw [place, h]

theorem place_toProc (h : s.lock p = some (.toProc c)) : place s p = .toProc c := by rw [place, h]

namespace Inv

/-- A step of `a` that concerns the slot `j`, whose lock no other thread
holds. -/
theorem step (h : Inv s γ) (hold : ∀ u, s.lock j = some (.held u) → u = a) (hlock : s'.lock = update s.lock j o)
    (hnew : ∀ u, o = some (.held u) → u = a) (honcpu : ∀ k, k ≠ j → s'.oncpu k = s.oncpu k)
    (hstate : ∀ k, k ≠ j → (s'.proc k).state = (s.proc k).state) (hctx : ∀ k, k ≠ j → s'.hist.context k = s.hist.context k)
    (hcproc : ∀ c, a ≠ .inr c → s'.cproc c = s.cproc c)
    (hleave : ∀ p, a = .inl p → p ≠ j → g.leaving = (γ a).leaving) (hcpu : ∀ c, s'.cproc c = some j ↔
      (place s' j).cpu = some c)
    (hcpu' : ∀ c k, k ≠ j → (s'.cproc c = some k ↔ s.cproc c = some k))
    (hfits : (place s' j).Fits (s'.proc j).state (s'.hist.context j) (update γ a g (.inl j)).leaving)
    (hoff : (∀ c, s'.lock j ≠ some (.toProc c) ∧ s'.lock j ≠ some (.toSched c)) ∨ s'.oncpu j = none)
    (hown : Own s' a g) : Inv s' (update γ a g) where
  own u := by
    rcases eq_or_ne u a with rfl | hu
    · rwa [update_self]
    rw [update_of_ne hu]
    obtain ⟨h1, h2, h3⟩ := h.own u
    have hne : ∀ {i}, s.lock i = some (.held u) → i ≠ j := fun hi e => hu (hold u (e ▸ hi))
    refine ⟨fun p hp hl => ?_, fun c hc => ?_, fun i hi => ?_⟩
    · have hl := h1 p hp hl
      rwa [hlock, update_of_ne (hne hl)]
    · rw [hcproc c fun e => hu (hc.trans e.symm)]; exact h2 c hc
    · obtain ⟨hl, hst⟩ := h3 i hi
      rw [hlock, update_of_ne (hne hl), hstate i (hne hl), hctx i (hne hl)]
      exact ⟨hl, hst⟩
  fits p := by
    rcases eq_or_ne p j with rfl | hp
    · exact hfits
    rw [place_congr (by rw [hlock, update_of_ne hp]) (honcpu p hp), hstate p hp, hctx p hp]
    rcases eq_or_ne (.inl p) a with rfl | hpa
    · rw [update_self, hleave p rfl hp]; exact h.fits p
    · rw [update_of_ne hpa]; exact h.fits p
  cpu c p := by
    rcases eq_or_ne p j with rfl | hp
    · exact hcpu c
    · rw [hcpu' c p hp, place_congr (by rw [hlock, update_of_ne hp]) (honcpu p hp)]; exact h.cpu c p
  off p := by
    rcases eq_or_ne p j with rfl | hp
    · exact hoff
    · rw [hlock, update_of_ne hp, honcpu p hp]; exact h.off p

/-- A step that changes nothing of what the invariant speaks of. -/
theorem same (h : Inv s γ) (hlock : s'.lock = s.lock) (honcpu : s'.oncpu = s.oncpu) (hcproc : s'.cproc = s.cproc)
    (hstate : ∀ k, (s'.proc k).state = (s.proc k).state) (hctx : s'.hist.context = s.hist.context) : Inv s' γ where
  own u := by
    obtain ⟨h1, h2, h3⟩ := h.own u
    refine ⟨by rwa [hlock], by rwa [hcproc], fun i hi => ?_⟩
    rw [hlock, hstate, hctx]; exact h3 i hi
  fits p := by
    rw [place_congr (congrFun hlock p) (congrFun honcpu p), hstate, hctx]; exact h.fits p
  cpu c p := by
    rw [place_congr (congrFun hlock p) (congrFun honcpu p), hcproc]; exact h.cpu c p
  off p := by rw [hlock, honcpu]; exact h.off p

section

variable (h : Inv s γ) (hj : s.lock j = some (.held a))
include hj

theorem holder {u : Agent n} (hu : s.lock j = some (.held u)) : u = a := by
  rw [hj] at hu
  cases hu; rfl

include h

/-- `a` changes the state or the context of the slot `j`, whose lock it
holds. -/
theorem slot (hlock : s'.lock = s.lock) (honcpu : s'.oncpu = s.oncpu) (hcproc : s'.cproc = s.cproc)
    (hproc : s'.proc = update s.proc j x) (hctx : ∀ k, k ≠ j → s'.hist.context k = s.hist.context k)
    (hleave : ∀ p, a = .inl p → p ≠ j → g.leaving = (γ a).leaving)
    (hfits : (place s j).Fits x.state (s'.hist.context j) (update γ a g (.inl j)).leaving)
    (hown : Own s' a g) : Inv s' (update γ a g) := by
  have hp : place s' j = place s j := place_congr (congrFun hlock j) (congrFun honcpu j)
  refine h.step (o := s.lock j) (fun u hu => holder hj hu) (by rw [hlock, update_eq_self]) (fun u hu => holder hj hu)
    (fun k _ => by rw [honcpu]) (fun k hk => by rw [hproc, update_of_ne hk]) hctx (fun c _ => by
      rw [hcproc]) hleave (fun c => ?_)
    (fun c k _ => by rw [hcproc]) (by rwa [hp, hproc, update_self]) (by rw [hlock, honcpu]; exact h.off j) hown
  rw [hp, hcproc]; exact h.cpu c j

/-- A slot whose lock is held by somebody else than its process, or by its
process that has not changed its state: if a CPU executes it, it is RUNNING. -/
theorem off_of_not_running (hl : (γ a).leaving = false) (hst : (s.proc j).state ≠ .running) :
    place s j = .off ∧ s.oncpu j = none := by
  have hpl := place_eq (.inr ⟨a, hj⟩)
  cases ho : s.oncpu j with
  | none => rw [ho] at hpl; exact ⟨hpl, rfl⟩
  | some c =>
    rw [ho] at hpl
    have hf := h.fits j
    rw [hpl] at hf
    have hlv : (γ (.inl j)).leaving = true := hf.2.resolve_left hst
    rw [holder hj ((h.own (.inl j)).leaving j rfl hlv), hl] at hlv
    exact nomatch hlv

/-- `a` changes a slot that no CPU has anything to do with. -/
theorem slot_off (hl : (γ a).leaving = false) (hst : (s.proc j).state ≠ .running) (hlock : s'.lock = s.lock)
    (honcpu : s'.oncpu = s.oncpu) (hcproc : s'.cproc = s.cproc) (hproc : s'.proc = update s.proc j x)
    (hctx : ∀ k, k ≠ j → s'.hist.context k = s.hist.context k) (hx : x.state ≠ .running)
    (hx' : x.state ≠ .unused → s'.hist.context j ≠ .stale) (hg : g.leaving = false) (hr : g.runs = (γ a).runs)
    (hf : ∀ i, g.fresh = some i → i = j ∧ x.state = .unused ∧ s'.hist.context j ≠ .stale) : Inv s' (update γ a g) := by
  refine h.slot hj hlock honcpu hcproc hproc hctx (fun _ _ _ => hg.trans hl.symm) ?_
    ⟨fun _ _ e => ?_, fun c e => ?_, fun i e => ?_⟩
  · rw [(h.off_of_not_running hj hl hst).1]
    exact ⟨hx, hx'⟩
  · rw [hg] at e; cases e
  · rw [hcproc, hr]; exact (h.own a).runs c e
  · obtain ⟨rfl, hu, hc⟩ := hf i e
    rw [hlock, hproc, update_self]
    exact ⟨hj, hu, hc⟩

/-- A process that uses a slot changes its own state. -/
theorem leave (ha : a = .inl j) (hlock : s'.lock = s.lock) (honcpu : s'.oncpu = s.oncpu) (hcproc : s'.cproc = s.cproc)
    (hproc : s'.proc = update s.proc j x) (hctx : s'.hist.context = s.hist.context) (hu : (s.proc j).state ≠ .unused)
    (hx : x.state ≠ .running) (hx' : x.state ≠ .unused) : Inv s' (update γ a { leaving := true }) := by
  refine h.slot hj hlock honcpu hcproc hproc (fun _ _ => by rw [hctx])
    (fun q hq hne => absurd (Sum.inl.inj (hq.symm.trans ha)) hne) ?_
    ⟨fun q hq _ => by cases ha.symm.trans hq; rw [hlock]; exact hj, fun c hc => (nomatch ha.symm.trans hc), nofun⟩
  have hfit := h.fits j
  rw [place_eq (.inr ⟨a, hj⟩)] at hfit ⊢
  subst ha
  rw [update_self, hctx]
  cases hc : s.oncpu j with
  | none => rw [hc] at hfit; exact ⟨hx, fun _ => hfit.2 hu⟩
  | some c => exact ⟨hx', .inr rfl⟩

/-- A sleeping process may be woken up. -/
theorem wake (hlock : s'.lock = s.lock) (honcpu : s'.oncpu = s.oncpu) (hcproc : s'.cproc = s.cproc)
    (hproc : s'.proc = update s.proc j x) (hctx : s'.hist.context = s.hist.context)
    (hx : x.state = (s.proc j).state ∨ (s.proc j).state = .sleeping ∧ x.state = .runnable) : Inv s' γ := by
  have h' : Inv s' (update γ a (γ a)) := by
    obtain ⟨h1, h2, h3⟩ := h.own a
    refine h.slot hj hlock honcpu hcproc hproc (fun _ _ => by rw [hctx]) (fun _ _ _ => rfl) ?_
      ⟨by rwa [hlock], by rwa [hcproc], fun i hi => ?_⟩
    · have hfit := h.fits j
      rw [place_eq (.inr ⟨a, hj⟩)] at hfit ⊢
      rw [update_eq_self, hctx]
      rcases hx with e | ⟨e, e'⟩
      · rwa [e]
      · rw [e']
        rw [e] at hfit
        cases ho : s.oncpu j with
        | none => rw [ho] at hfit; exact ⟨nofun, fun _ => hfit.2 nofun⟩
        | some c => rw [ho] at hfit; exact ⟨nofun, .inr (hfit.2.resolve_left nofun)⟩
    · obtain ⟨hl, hst, hc⟩ := h3 i hi
      rw [hlock, hctx, hproc]
      refine ⟨hl, ?_, hc⟩
      rcases eq_or_ne i j with rfl | hij
      · rw [update_self]
        exact hx.elim (·.trans hst) fun e => (nomatch hst.symm.trans e.1)
      · rwa [update_of_ne hij]
  rwa [update_eq_self] at h'

/-- A process releases its own lock only while it is RUNNING. -/
theorem release (hl : (γ a).leaving = false ∨ a ≠ .inl j) (hf : (γ a).fresh ≠ some j) : Inv (s.setLock j none) γ := by
  have hs : (s.setLock j none).lock j = none := update_self ..
  have hpl : place (s.setLock j none) j = place s j := (place_eq (.inl hs)).trans (place_eq (.inr ⟨a, hj⟩)).symm
  obtain ⟨h1, h2, h3⟩ := h.own a
  have h' : Inv (s.setLock j none) (update γ a (γ a)) := by
    refine h.step (o := none) (fun u hu => holder hj hu) rfl nofun (fun _ _ => rfl) (fun _ _ => rfl) (fun _ _ => rfl)
      (fun _ _ => rfl) (fun _ _ _ => rfl) (fun c => by rw [hpl]; exact h.cpu c j) (fun _ _ _ => Iff.rfl)
      (by rw [hpl, update_eq_self]; exact h.fits j) (.inl (not_switching (.inl hs))) ⟨fun p hp hlv => ?_, h2, fun i hi => ?_⟩
    · have hpj : p ≠ j := fun e => hl.elim (fun e => Bool.false_ne_true (e.symm.trans hlv)) fun hne => hne (e ▸ hp)
      exact (update_of_ne hpj ..).trans (h1 p hp hlv)
    · have hij : i ≠ j := fun e => hf (e ▸ hi)
      obtain ⟨hl, hst⟩ := h3 i hi
      exact ⟨(update_of_ne hij ..).trans hl, hst⟩
  rwa [update_eq_self] at h'

/-- The process's thread switches to the scheduler, and its context is
saved. -/
theorem swtch (ha : a = .inl j) (hst : (s.proc j).state ≠ .running) (hc : s.oncpu j = some c) :
    Inv ({ s.setLock j (some (.toSched c)) with oncpu := update s.oncpu j none }.setContext j .saved) (update γ a {}) := by
  have hpl : place s j = .on c := by rw [place_eq (.inr ⟨a, hj⟩), hc]
  have hfit := h.fits j
  rw [hpl] at hfit
  have hpl' : place ({ s.setLock j (some (.toSched c)) with oncpu := update s.oncpu j none }.setContext j
      .saved : State n) j = .toSched c := place_toSched (update_self ..)
  refine h.step (fun u hu => holder hj hu) rfl nofun (fun k hk => update_of_ne hk _ _)
    (fun _ _ => rfl) (fun k hk => update_of_ne hk _ _) (fun _ _ => rfl)
    (fun q hq hne => absurd (Sum.inl.inj (ha.symm.trans hq)).symm hne) (fun k => ?_) (fun _ _ _ => Iff.rfl) ?_
    (.inr (update_self ..)) ⟨nofun, fun _ e => (nomatch ha.symm.trans e), nofun⟩
  · rw [hpl']
    have := h.cpu k j
    rwa [hpl] at this
  · rw [hpl']
    exact ⟨hst, hfit.1, by simp [State.setContext, State.modHist]⟩

end

theorem acquire (h : Inv s γ) (hl : s.lock j = none) (hlock : s'.lock = update s.lock j (some (.held a)))
    (honcpu : s'.oncpu = s.oncpu)
    (hcproc : s'.cproc = s.cproc) (hproc : s'.proc = s.proc) (hctx : s'.hist.context = s.hist.context) : Inv s' γ := by
  have hs : s'.lock j = some (.held a) := by rw [hlock, update_self]
  have hpl : place s' j = place s j := by
    rw [place_eq (.inr ⟨a, hs⟩), place_eq (.inl hl), honcpu]
  obtain ⟨h1, h2, h3⟩ := h.own a
  have hne : ∀ {k}, s.lock k = some (.held a) → s'.lock k = some (.held a) := fun e => by
    rw [hlock, update_of_ne fun e' => by rw [e', hl] at e; cases e]; exact e
  have h' : Inv s' (update γ a (γ a)) := by
    refine h.step (fun u hu => by rw [hl] at hu; cases hu) hlock (fun u e => by cases e; rfl) (fun _ _ => by rw [honcpu])
      (fun _ _ => by rw [hproc]) (fun _ _ => by rw [hctx]) (fun _ _ => by rw [hcproc]) (fun _ _ _ => rfl)
      (fun c => by rw [hpl, hcproc]; exact h.cpu c j) (fun _ _ _ => by rw [hcproc])
      (by rw [hpl, update_eq_self, hproc, hctx]; exact h.fits j) (.inl (not_switching (.inr ⟨a, hs⟩)))
      ⟨fun p hp hl => hne (h1 p hp hl), by rwa [hcproc], fun i hi => ?_⟩
    rw [hproc, hctx]
    exact ⟨hne (h3 i hi).1, (h3 i hi).2⟩
  rwa [update_eq_self] at h'

/-- The process's thread is switched to: it is RUNNING, and a CPU executes
it. -/
theorem resume (h : Inv s γ) (ha : a = .inl p) (hγ : γ a = {}) (hl : s.lock p = some (.toProc c)) :
    Inv ({ s.setLock p (some (.held a)) with oncpu := update s.oncpu p (some c) }.setContext p .stale) γ := by
  have hpl : place s p = .toProc c := place_toProc hl
  have hfit := h.fits p
  rw [hpl] at hfit
  generalize hs : ({ s.setLock p (some (.held a)) with oncpu := update s.oncpu p (some c) }.setContext p .stale : State n) = s'
  have hp : s'.lock p = some (.held a) := by rw [← hs]; exact update_self ..
  have hpl' : place s' p = .on c := by
    rw [place_eq (.inr ⟨a, hp⟩), show s'.oncpu p = some c by rw [← hs]; exact update_self ..]
  subst hs
  rw [← update_eq_self a γ, hγ]
  refine h.step (fun u e => by rw [hl] at e; cases e) rfl (fun u e => by cases e; rfl) (fun k hk => update_of_ne hk _ _)
    (fun _ _ => rfl) (fun k hk => update_of_ne hk _ _) (fun _ _ => rfl) (fun _ _ _ => by rw [hγ])
    (fun k => ?_) (fun _ _ _ => Iff.rfl) ?_ (.inl (not_switching (.inr ⟨a, hp⟩)))
    ⟨nofun, fun _ e => (nomatch ha.symm.trans e), nofun⟩
  · rw [hpl']
    have := h.cpu k p
    rwa [hpl] at this
  · rw [hpl']
    refine ⟨?_, .inl hfit.1⟩
    show (s.proc p).state ≠ _
    rw [hfit.1]; nofun

/-- `c->proc` changes from or to `i`. -/
theorem cproc_update {k : Fin n} {q : Pid} {x y : Option Pid} (hy : s.cproc c = y) (hx : x = some q ↔ y = some q) :
    update s.cproc c x k = some q ↔ s.cproc k = some q := by
  rcases eq_or_ne k c with rfl | hk
  · rw [update_self, hy, hx]
  · rw [update_of_ne hk]

/-- The scheduler has found a runnable process, whose context it switches
to. -/
theorem found (h : Inv s γ) (hγ : γ (.inr c) = {}) (hi : s.lock i = some (.held (.inr c)))
    (hst : (s.proc i).state = .runnable) :
    Inv { (s.modProc i ({ · with state := .running })).setLock i (some (.toProc c)) with
      cproc := update s.cproc c (some i) } (update γ (.inr c) { runs := some i }) := by
  obtain ⟨hpl, hoc⟩ := h.off_of_not_running hi (by rw [hγ]) (by rw [hst]; nofun)
  have hfit := h.fits i
  rw [hpl] at hfit
  have hnone : s.cproc c = none := ((h.own _).runs c rfl).trans (by rw [hγ])
  have hpl' : place { (s.modProc i ({ · with state := .running })).setLock i (some (.toProc c)) with
      cproc := update s.cproc c (some i) } i = .toProc c := place_toProc (update_self ..)
  refine h.step (j := i) (fun u hu => holder hi hu) rfl nofun (fun _ _ => rfl)
    (fun k hk => congrArg Proc.state (update_of_ne hk ..)) (fun _ _ => rfl)
    (fun k hk => update_of_ne (fun e => hk (congrArg _ e.symm)) _ _) nofun (fun k => ?_)
    (fun k q hq => cproc_update hnone (by simp [hq.symm])) ?_ (.inr hoc) ⟨nofun, fun k hk => ?_, nofun⟩
  · rw [hpl']
    show update s.cproc c (some i) k = some i ↔ some c = some k
    rcases eq_or_ne k c with rfl | hk
    · simp
    · rw [update_of_ne hk, h.cpu k i, hpl]
      simp [Place.cpu, hk.symm]
  · rw [hpl']
    exact ⟨by simp [State.setLock, State.modProc], hfit.2 (by rw [hst]; nofun)⟩
  · obtain rfl := Sum.inr.inj hk
    exact update_self ..

/-- The process has switched back to the scheduler. -/
theorem back (h : Inv s γ) (hγ : γ (.inr c) = { runs := some i }) (hl : s.lock i = some (.toSched c)) :
    Inv { s.setLock i (some (.held (.inr c))) with cproc := update s.cproc c none } (update γ (.inr c) {}) := by
  have hpl := place_toSched hl
  have hfit := h.fits i
  rw [hpl] at hfit
  have hoc : s.oncpu i = none := (h.off i).resolve_left fun h => (h c).2 hl
  have hpl' : place { s.setLock i (some (.held (.inr c))) with cproc := update s.cproc c none } i = .off := by
    refine (place_eq (.inr ⟨_, update_self ..⟩)).trans ?_
    simp [State.setLock, hoc]
  refine h.step (j := i) (fun u e => by rw [hl] at e; cases e) rfl (fun u e => by cases e; rfl) (fun _ _ => rfl)
    (fun _ _ => rfl) (fun _ _ => rfl) (fun k hk => update_of_ne (fun e => hk (congrArg _ e.symm)) _ _) nofun (fun k => ?_)
    (fun k q hq => cproc_update (((h.own _).runs c rfl).trans (by rw [hγ])) (by simp [hq.symm])) ?_ (.inr hoc)
    ⟨nofun, fun k hk => ?_, nofun⟩
  · rw [hpl']
    show update s.cproc c none k = some i ↔ none = some k
    rcases eq_or_ne k c with rfl | hk
    · simp
    · rw [update_of_ne hk, h.cpu k i, hpl]
      simp [Place.cpu, hk.symm]
  · rw [hpl']
    exact ⟨hfit.1, fun _ => hfit.2.2⟩
  · obtain rfl := Sum.inr.inj hk
    exact update_self ..

end Inv

theorem userinit_inv (pagetable trapframe : Nat) : Inv (userinit n pagetable trapframe) fun _ => {} where
  own _ := ⟨nofun, fun _ _ => rfl, nofun⟩
  fits p := by
    by_cases h0 : p = initproc
    · simp [place, userinit, Place.Fits, h0]
    · simp [place, userinit, Place.Fits, h0]
  cpu c p := by simp [place, userinit, Place.cpu]
  off _ := .inr rfl

end Xv6.Process.Switch
