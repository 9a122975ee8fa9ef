import Mathlib.Data.List.Nodup
import Xv6.Process.Model

/-!
# Interrupts and spinlocks (`spinlock.c`)

The CPUs `κ` run the kernel threads of the processes `τ`, and their own scheduler
loops. `push_off` and `pop_off` count in `struct cpu`, and a thread that has switched
to the scheduler may go on on another CPU. A process switches with one `push_off`
outstanding, that of `p->lock`, and so does a scheduler: each goes on with the count
that the other one leaves. `intena` is not handed over: `sched` puts back the
process's own.
-/

namespace Xv6.Spinlock

open Function (update update_eq_self update_of_ne update_self update_apply)
open Process (ProcState)

/-! ## The model -/

/-- `p->lock`, or another spinlock. -/
inductive Lock (τ : Type) where
  | proc (t : τ)
  | other (i : Nat)
  deriving DecidableEq

/-- The kernel thread of a process, or the scheduler of a CPU. -/
abbrev Agent (κ τ : Type) := τ ⊕ κ

/-- `struct cpu`, and whether the CPU takes interrupts. -/
structure Cpu where
  noff : Int := 0
  intena : Bool := false
  intr : Bool := false

/-- Of a thread, the number of its `push_off`s outstanding, and whether interrupts
were enabled when that last left zero; and of each return to zero that, and whether
they are enabled then. -/
structure Hist where
  count : Int
  left : Option Bool := none
  returns : List (Option Bool × Bool) := []

/-- A process that has not run yet has `p->lock`, which `forkret` releases. -/
structure Kernel (κ τ : Type) where
  cpu : κ → Cpu := fun _ => {}
  /-- The CPU that holds a lock. -/
  lock : Lock τ → Option κ := fun _ => none
  state : τ → ProcState
  /-- The CPU that runs a thread. -/
  on : Agent κ τ → Option κ := Sum.elim (fun _ => none) some
  hist : Agent κ τ → Hist := Sum.elim (fun _ => ⟨1, none, []⟩) fun _ => ⟨0, none, []⟩

variable {κ τ α : Type} [DecidableEq κ] [DecidableEq τ]

abbrev KProg (κ τ : Type) := Prog (Kernel κ τ) (Agent κ τ)

/-- A step of a thread on its CPU. -/
def onCpu (f : Agent κ τ → κ → Kernel κ τ → Res (Kernel κ τ) α) : KProg κ τ α :=
  .step fun a s => match s.on a with
    | some c => f a c s
    | none => .wait

/-- An interrupt between `intr_get` and `intr_off` returns with interrupts enabled
again, as one before the call does. -/
def pushOff : KProg κ τ Unit := onCpu fun a c s =>
  let ⟨noff, intena, intr⟩ := s.cpu c
  let ⟨count, left, returns⟩ := s.hist a
  .ok () { s with
    cpu := update s.cpu c ⟨noff + 1, if noff = 0 then intr else intena, false⟩
    hist := update s.hist a ⟨count + 1, if count = 0 then some intr else left, returns⟩ }

def popOff : KProg κ τ Unit := onCpu fun a c s =>
  let ⟨noff, intena, intr⟩ := s.cpu c
  let ⟨count, left, returns⟩ := s.hist a
  if intr then .panic "pop_off - interruptible"
  else if noff < 1 then .panic "pop_off"
  else
    let intr := decide (noff - 1 = 0) && intena
    .ok () { s with
      cpu := update s.cpu c ⟨noff - 1, intena, intr⟩
      hist := update s.hist a ⟨count - 1, left, if count - 1 = 0 then (left, intr) :: returns else returns⟩ }

def acquire (l : Lock τ) : KProg κ τ Unit := do
  pushOff
  onCpu fun _ c s => if s.lock l = some c then .panic "acquire"
    else if s.lock l = none then .ok () { s with lock := update s.lock l (some c) } else .wait

def release (l : Lock τ) : KProg κ τ Unit := do
  onCpu fun _ c s => if s.lock l = some c then .ok () { s with lock := update s.lock l none } else .panic "release"
  popOff

/-- `p->state = st` and `sched()`. The process goes on when a scheduler has switched
to it. -/
def sched (t : τ) (st : ProcState) : KProg κ τ Unit := do
  let intena ← onCpu fun a c s =>
    if s.lock (.proc t) ≠ some c then .panic "sched p->lock"
    else if (s.cpu c).noff ≠ 1 then .panic "sched locks"
    else if st = .running then .panic "sched running"
    else if (s.cpu c).intr then .panic "sched interruptible"
    else .ok (s.cpu c).intena { s with
      state := update s.state t st
      on := update (update s.on a none) (.inr c) (some c) }
  onCpu fun _ c s => .ok () { s with cpu := update s.cpu c { s.cpu c with intena } }

def yield (t : τ) : KProg κ τ Unit := do
  acquire (.proc t)
  sched t .runnable
  release (.proc t)

def sleep (t : τ) (l : Lock τ) : KProg κ τ Unit :=
  if l = .proc t then sched t .sleeping
  else do
    acquire (.proc t)
    release l
    sched t .sleeping
    release (.proc t)
    acquire l

/-- `wakeup`, for one process of the table. -/
def wakeup (t : τ) : KProg κ τ Unit := do
  acquire (.proc t)
  onCpu fun _ _ s => .ok () { s with state := update s.state t (if s.state t = .sleeping then .runnable else s.state t) }
  release (.proc t)

/-- `intr_on()` or `intr_off()`, of a thread with no `push_off` outstanding. -/
def setIntr (intr : Bool) : KProg κ τ Unit := onCpu fun a c s =>
  if (s.hist a).count = 0 then .ok () { s with cpu := update s.cpu c { s.cpu c with intr } } else .wait

/-- `scheduler`, for one process of the table, with interrupts enabled before or not. -/
def schedule (t : τ) (intr : Bool) : KProg κ τ Unit := do
  setIntr intr
  acquire (.proc t)
  onCpu fun a c s => if s.state t = .runnable then .ok () { s with
      state := update s.state t .running
      on := update (update s.on a none) (.inl t) (some c) }
    else .ok () s
  release (.proc t)

inductive Call (τ : Type) where
  | pushOff
  | popOff
  | acquire (l : Lock τ)
  | release (l : Lock τ)
  | yield (t : τ)
  | sleep (t : τ) (l : Lock τ)
  | wakeup (t : τ)
  | setIntr (intr : Bool)
  | schedule (t : τ) (intr : Bool)

/-- A thread counts its calls of `push_off`. -/
def client (κ τ : Type) [DecidableEq κ] [DecidableEq τ] : Client (Kernel κ τ) (Agent κ τ) Nat (Call τ) where
  allowed a n
    | .popOff => 0 < n
    | .yield t | .sleep t _ => a = .inl t
    | .schedule .. => a.isRight
    | _ => true
  body
    | .pushOff, n => do pushOff; return n + 1
    | .popOff, n => do popOff; return n - 1
    | .acquire l, n => do acquire l; return n
    | .release l, n => do release l; return n
    | .yield t, n => do yield t; return n
    | .sleep t l, n => do sleep t l; return n
    | .wakeup t, n => do wakeup t; return n
    | .setIntr b, n => do setIntr b; return n
    | .schedule t b, n => do schedule t b; return n

/-! ## The invariant -/

/-- The locks that a thread holds, its other `push_off`s, and the variable of its
`sched`. -/
structure Ghost (τ : Type) where
  held : List (Lock τ) := []
  pushes : Nat := 0
  intena : Option Bool := none

def Ghost.count (g : Ghost τ) : Nat := g.held.length + g.pushes

/-- The CPU that runs a thread, and the locks it holds. -/
def Kernel.view (s : Kernel κ τ) (a : Agent κ τ) : Option (Cpu × (Lock τ → Prop)) :=
  (s.on a).map fun c => (s.cpu c, fun l => s.lock l = some c)

structure Good (a : Agent κ τ) (v : Option (Cpu × (Lock τ → Prop))) (h : Hist) (g : Ghost τ) : Prop where
  runs : ∀ {c ls}, v = some (c, ls) → c.noff = g.count ∧ (∀ l, ls l ↔ l ∈ g.held) ∧ (0 < g.count → c.intr = false)
  nodup : g.held.Nodup
  count : h.count = g.count
  out : ∀ {t}, a = .inl t → v = none → g.held = [.proc t] ∧ g.pushes = 0
  left : a.isLeft → 0 < g.count → ∀ {i}, h.left = some i → g.intena.or (v.map (·.1.intena)) = some i
  returns : a.isLeft → ∀ {i b}, (some i, b) ∈ h.returns → b = i

structure Inv (s : Kernel κ τ) (γ : Agent κ τ → Ghost τ) : Prop where
  good : ∀ a, Good a (s.view a) (s.hist a) (γ a)
  inj : ∀ {a b c}, s.on a = some c → s.on b = some c → a = b
  home : ∀ {c k}, s.on (.inr c) = some k → k = c
  given : ∀ {t c}, s.on (.inl t) = some c → s.state t = .running ∧ γ (.inr c) = { held := [.proc t] }

omit [DecidableEq κ] [DecidableEq τ] in
theorem start_inv (state : τ → ProcState) :
    Inv ({ state } : Kernel κ τ) (Sum.elim (fun t => { held := [.proc t] }) fun _ => {}) where
  good a := by constructor <;> cases a <;> simp [Kernel.view, Ghost.count]
  inj {a b c} := by cases a <;> cases b <;> simp_all
  home h := (Option.some.inj h).symm
  given h := by simp at h

variable {s : Kernel κ τ} {γ : Agent κ τ → Ghost τ} {a b : Agent κ τ} {c : κ} {t : τ} {l : Lock τ} {g : Ghost τ} {n : Nat}

/-- A thread changes the data of its CPU, takes locks or releases them. -/
theorem Inv.step {cpu : κ → Cpu} {lock : Lock τ → Option κ} {hist : Agent κ τ → Hist} (h : Inv s γ) (ha : s.on a = some c)
    (hcpu : ∀ k, k ≠ c → cpu k = s.cpu k) (hlock : ∀ l k, k ≠ c → (lock l = some k ↔ s.lock l = some k))
    (hhist : ∀ b, b ≠ a → hist b = s.hist b) (hg : Good a (some (cpu c, fun l => lock l = some c)) (hist a) g) :
    Inv { s with cpu, lock, hist } (update γ a g) := by
  refine ⟨fun b => ?_, h.inj, h.home, fun {t k} ht => ⟨(h.given ht).1, ?_⟩⟩
  · rcases eq_or_ne b a with rfl | hb
    · simpa [Kernel.view, ha] using hg
    · have hv : Kernel.view { s with cpu, lock, hist } b = s.view b := Option.map_congr fun k hk => by
        have hkc : k ≠ c := fun e => hb (h.inj (e ▸ hk) ha)
        simp only [hcpu k hkc, hlock _ k hkc]
      have hB := h.good b
      rw [← hhist b hb] at hB
      rwa [update_of_ne hb, hv]
  · rw [update_of_ne, (h.given ht).2]
    rintro rfl
    obtain rfl := h.home ha
    cases h.inj ht ha

omit [DecidableEq κ] [DecidableEq τ] in
/-- A thread gets the CPU of another one with the same count and the same locks. -/
theorem Good.run {v : Option (Cpu × (Lock τ → Prop))} {h h' : Hist} {g' : Ghost τ} (hb : Good b none h' g') (ha : Good a v h g)
    (he : g'.held = g.held ∧ g'.pushes = g.pushes) : Good b v h' g' where
  runs hv := by simpa [Ghost.count, he] using ha.runs hv
  nodup := hb.nodup
  count := hb.count
  out e _ := hb.out e rfl
  left hl h0 i hi := by
    have hg := hb.left hl h0 hi
    simp only [Option.map_none, Option.or_none] at hg
    rw [hg, Option.some_or]
  returns := hb.returns

/-- `swtch` from `a` to `b`. -/
theorem Inv.switch {state : τ → ProcState} (h : Inv s γ) (ha : s.on a = some c) (hb : s.on b = none)
    (hab : (γ b).held = (γ a).held ∧ (γ b).pushes = (γ a).pushes) (hg : Good a none (s.hist a) g)
    (hhome : ∀ k, b = .inr k → k = c)
    (hst : ∀ u, .inl u ≠ a → .inl u ≠ b → state u = s.state u)
    (hgiven : ∀ u, b = .inl u → a = .inr c ∧ state u = .running ∧ g = { held := [.proc u] }) :
    Inv { s with state, on := update (update s.on a none) b (some c) } (update γ a g) := by
  have hne : b ≠ a := fun e => by simp [← e, hb] at ha
  have hon : ∀ {d k}, update (update s.on a none) b (some c) d = some k → d = b ∧ k = c ∨ d ≠ a ∧ d ≠ b ∧ k ≠ c ∧
    s.on d = some k := by
    intro d k hd
    have := @h.inj d a c
    grind [update_apply]
  obtain ⟨hgood, hinj, hh, hgiv⟩ := h
  refine ⟨fun d => ?_, ?_, ?_, ?_⟩
  · rcases eq_or_ne d a with rfl | hda
    · simpa [Kernel.view, hne.symm] using hg
    rw [update_of_ne hda]
    rcases eq_or_ne d b with rfl | hdb
    · have hB := hgood d
      simp only [Kernel.view, hb, Option.map_none] at hB
      simpa [Kernel.view, ha] using hB.run (hgood a) hab
    · simpa [Kernel.view, hda, hdb] using hgood d
  · intro d e k hd he
    have hd := hon hd
    have he := hon he
    grind
  · intro k k' hk
    rcases hon hk with ⟨e, rfl⟩ | ⟨-, -, -, hk⟩
    · exact (hhome k e.symm).symm
    · exact hh hk
  · intro u k hu
    rcases hon hu with ⟨e, rfl⟩ | ⟨hua, hub, hk, hu⟩
    · obtain ⟨rfl, hs, rfl⟩ := hgiven u e.symm
      exact ⟨hs, update_self ..⟩
    · refine ⟨(hst u hua hub).trans (hgiv hu).1, ?_⟩
      rw [update_of_ne, (hgiv hu).2]
      rintro rfl
      exact hk (hh ha).symm

/-! ## What each function does -/

abbrev Spec (a : Agent κ τ) (p : KProg κ τ α) (g : Ghost τ) (Q : α → Ghost τ → Prop) : Prop :=
  Safe (fun _ => True) Inv (fun m => m ≠ "pop_off" ∧ m ≠ "pop_off - interruptible") a p g Q

theorem onCpu_spec {f : Agent κ τ → κ → Kernel κ τ → Res (Kernel κ τ) α} {Q : α → Ghost τ → Prop}
    (h : ∀ s γ c, Inv s γ → γ a = g → s.on a = some c → Good a (some (s.cpu c, fun l => s.lock l = some c)) (s.hist a) g →
      (f a c s).Post (fun x s' => ∃ g', Inv s' (update γ a g') ∧ Q x g') fun m => m ≠ "pop_off" ∧
        m ≠ "pop_off - interruptible") :
    Spec a (onCpu f) g Q := by
  refine .step fun s γ hi hg => ?_
  split
  · rename_i c hc
    have hG := hi.good a
    rw [hg, Kernel.view, hc] at hG
    exact (h s γ c hi hg hc hG).mono fun _ _ h _ => h
  · trivial

theorem pushOff_spec (h0 : g.intena = none) :
    Spec a (pushOff : KProg κ τ Unit) g fun _ g' => g' = { g with pushes := g.pushes + 1 } := by
  refine onCpu_spec fun s γ c h hg hc hG => ⟨_, h.step hc (fun k hk => update_of_ne hk ..) (fun _ _ _ => Iff.rfl)
    (fun b hb => update_of_ne hb ..) ?_, rfl⟩
  obtain ⟨hr, hnd, hn, -, hl, hret⟩ := hG
  obtain ⟨hnoff, hlock, hoff⟩ := hr rfl
  simp only [update_self]
  refine ⟨?_, hnd, ?_, nofun, ?_, hret⟩
  · grind [Ghost.count]
  · grind [Ghost.count]
  · grind [Ghost.count]

theorem popOff_spec (h0 : g.intena = none) (hg0 : 0 < g.pushes) :
    Spec a (popOff : KProg κ τ Unit) g fun _ g' => g' = { g with pushes := g.pushes - 1 } := by
  refine onCpu_spec fun s γ c h hg hc hG => ?_
  obtain ⟨hr, hnd, hn, -, hl, hret⟩ := hG
  obtain ⟨hnoff, hlock, hoff⟩ := hr rfl
  have hpos : 0 < g.count := lt_of_lt_of_le hg0 (Nat.le_add_left ..)
  have hge : ¬(s.cpu c).noff < 1 := by omega
  simp only [hoff hpos, if_neg Bool.false_ne_true, if_neg hge]
  refine ⟨_, h.step hc (fun k hk => update_of_ne hk ..) (fun _ _ _ => Iff.rfl) (fun b hb => update_of_ne hb ..) ?_, rfl⟩
  refine ⟨?_, hnd, ?_, nofun, ?_, ?_⟩
  · grind [Ghost.count]
  · grind [Ghost.count]
  · grind [Ghost.count]
  · grind [Ghost.count]

theorem acquire_spec (h0 : g.intena = none) :
    Spec a (acquire l : KProg κ τ Unit) g fun _ g' => g' = { g with held := l :: g.held } := by
  refine .next (pushOff_spec h0) fun _ => onCpu_spec fun s γ c h hg hc hG => ?_
  split
  · simp
  split
  · refine ⟨_, h.step hc (fun _ _ => rfl) (fun m k hk => ?_) (fun _ _ => rfl) ?_, rfl⟩
    · grind [update_apply]
    obtain ⟨hr, hnd, hn, -, hl, hret⟩ := hG
    obtain ⟨hnoff, hlock, hoff⟩ := hr rfl
    refine ⟨?_, ?_, ?_, by simp, ?_, hret⟩ <;> grind [Ghost.count, update_apply]
  · trivial

theorem release_spec (h0 : g.intena = none) :
    Spec a (release l : KProg κ τ Unit) g fun _ g' => g' = { g with held := g.held.erase l } := by
  refine .next (e := fun _ => { g with held := g.held.erase l, pushes := g.pushes + 1 })
    (onCpu_spec fun s γ c h hg hc hG => ?_) fun _ => popOff_spec (by exact h0) (Nat.succ_pos _)
  split
  · refine ⟨_, h.step hc (fun _ _ => rfl) (fun m k hk => ?_) (fun _ _ => rfl) ?_, rfl⟩
    · grind [update_apply]
    obtain ⟨hr, hnd, hn, -, hl, hret⟩ := hG
    obtain ⟨hnoff, hlock, hoff⟩ := hr rfl
    have hlen := List.length_erase_of_mem ((hlock l).1 ‹_›)
    refine ⟨?_, hnd.erase l, ?_, nofun, ?_, hret⟩ <;> grind [Ghost.count, update_apply]
  · simp

/-- A program that returns with the thread's own `push_off`s as before. -/
def Keeps (a : Agent κ τ) (p : KProg κ τ Unit) : Prop :=
  ∀ g, g.intena = none → Spec a p g fun _ g' => g'.pushes = g.pushes ∧ g'.intena = none

theorem Keeps.bind {p q : KProg κ τ Unit} (hp : Keeps a p) (hq : Keeps a q) : Keeps a (p.bind fun _ => q) := fun g hg =>
  Safe.bind (hp g hg) fun _ g' ⟨hn, hi⟩ => hn ▸ hq g' hi

theorem acquire_keeps : Keeps a (acquire l : KProg κ τ Unit) := fun _ hg => (acquire_spec hg).mono fun _ _ e => e ▸ ⟨rfl, hg⟩

theorem release_keeps : Keeps a (release l : KProg κ τ Unit) := fun _ hg => (release_spec hg).mono fun _ _ e => e ▸ ⟨rfl, hg⟩

theorem sched_keeps {st : ProcState} : Keeps (.inl t) (sched t st : KProg κ τ Unit) := by
  intro g h0
  refine .bind (R := fun i g' => g' = ⟨[.proc t], 0, some i⟩ ∧ g = { held := [.proc t] })
    (onCpu_spec fun s γ c h hg hc hG => ?_) fun i g' ⟨hg', hg⟩ => onCpu_spec fun s γ c h hγ hc hG => ?_
  · split
    · simp
    split
    · simp
    split
    · simp
    split
    · simp
    obtain ⟨hr, hnd, hn, -, hl, hret⟩ := hG
    obtain ⟨hnoff, hlock, hoff⟩ := hr rfl
    have hg1 : g = { held := [.proc t] } := by
      have hmem := (hlock (.proc t)).1 (not_not.1 ‹_›)
      obtain ⟨_ | ⟨x, _ | _⟩, _, _⟩ := g <;> simp_all [Ghost.count]
      all_goals omega
    have hgiv := (h.given hc).2
    have hb : s.on (.inr c) = none := Option.eq_none_iff_forall_ne_some.2 fun k hk => by
      obtain rfl := h.home hk
      cases h.inj hk hc
    refine ⟨_, h.switch hc hb ?_ ?_ ?_ ?_ ?_, rfl, hg1⟩
    · simp [hgiv, hg, hg1]
    · subst hg1
      exact ⟨by simp, hnd, hn, fun e _ => by simp_all, fun h1 h2 i hi => by simpa using hl h1 h2 hi, hret⟩
    · simp
    · grind [update_apply]
    · simp
  · obtain ⟨hr, hnd, hn, -, hl, hret⟩ := hG
    obtain ⟨hnoff, hlock, hoff⟩ := hr rfl
    refine ⟨⟨[.proc t], 0, none⟩,
      h.step hc (fun k hk => update_of_ne hk ..) (fun _ _ _ => Iff.rfl) (fun _ _ => rfl) ?_, by simp [hg]⟩
    refine ⟨?_, ?_, ?_, by simp, ?_, hret⟩ <;> grind [Ghost.count, update_apply]

theorem yield_keeps : Keeps (.inl t) (yield t : KProg κ τ Unit) := acquire_keeps.bind (sched_keeps.bind release_keeps)

theorem sleep_keeps : Keeps (.inl t) (sleep t l : KProg κ τ Unit) := by
  unfold sleep
  split
  · exact sched_keeps
  · exact acquire_keeps.bind (release_keeps.bind (sched_keeps.bind (release_keeps.bind acquire_keeps)))

theorem setIntr_spec {intr : Bool} (h0 : g.intena = none) :
    Spec a (setIntr intr : KProg κ τ Unit) g fun _ g' => g' = {} ∧ g = {} := by
  refine onCpu_spec fun s γ c h hg hc hG => ?_
  split
  · obtain ⟨hr, hnd, hn, -, hl, hret⟩ := hG
    obtain ⟨hnoff, hlock, hoff⟩ := hr rfl
    have hg1 : g = {} := by
      obtain ⟨_ | _, _, _⟩ := g <;> simp_all [Ghost.count]
      omega
    refine ⟨_, h.step hc (fun k hk => update_of_ne hk ..) (fun _ _ _ => Iff.rfl) (fun _ _ => rfl) ?_, rfl, hg1⟩
    refine ⟨?_, ?_, ?_, by simp, ?_, hret⟩ <;> grind [Ghost.count, update_apply]
  · trivial

theorem wakeup_keeps : Keeps a (wakeup t : KProg κ τ Unit) := by
  refine acquire_keeps.bind (.bind (fun g hi => onCpu_spec fun s γ c h hg hc _ => ⟨g, ?_, rfl, hi⟩) release_keeps)
  rw [← hg, update_eq_self]
  refine { h with given := fun {u k} hu => ⟨?_, (h.given hu).2⟩ }
  have := (h.given hu).1
  grind [update_apply]

theorem schedule_keeps {intr : Bool} {k : κ} : Keeps (.inr k) (schedule t intr : KProg κ τ Unit) := by
  intro g hi
  refine .bind (setIntr_spec hi) fun _ g' ⟨hg', hg⟩ => ?_
  subst hg' hg
  refine .next (acquire_spec rfl) fun _ => Safe.bind (R := fun _ g' => g' = { held := [.proc t] })
    (onCpu_spec fun s γ c h hg hc hG => ?_) fun _ g' hg' => by subst hg'; exact release_keeps _ rfl
  split
  · have hb : s.on (.inl t) = none := Option.eq_none_iff_forall_ne_some.2 fun c hk => by
      simp_all [h.given hk]
    have hB := h.good (.inl t)
    obtain ⟨-, hnd, hn, -, -, -⟩ := hG
    rw [Kernel.view, hb] at hB
    refine ⟨_, h.switch hc hb ?_ ?_ ?_ ?_ ?_, rfl⟩
    · rw [hg]
      exact hB.out rfl rfl
    · exact ⟨by simp, hnd, hn, by simp, by simp, by simp⟩
    · simp
    · grind [update_apply]
    · grind [update_apply, h.home hc]
  · exact ⟨_, by rwa [← hg, update_eq_self], rfl⟩

theorem call_spec (x : Call τ) (hg : g.pushes = n ∧ g.intena = none) (hx : (client κ τ).allowed a n x = true) :
    Spec a ((client κ τ).body x n) g fun n g => g.pushes = n ∧ g.intena = none := by
  have keep {p : KProg κ τ Unit} (hp : Keeps a p) : Spec a (p.bind fun _ => .ret n) g fun n g => g.pushes = n ∧
    g.intena = none :=
    Safe.bind (hp g hg.2) fun _ _ h => .ret ⟨h.1.trans hg.1, h.2⟩
  obtain ⟨rfl, h0⟩ := hg
  cases x with
  | pushOff => exact .next (pushOff_spec h0) fun _ => .ret ⟨rfl, h0⟩
  | popOff => exact .next (popOff_spec h0 (of_decide_eq_true hx)) fun _ => .ret ⟨rfl, h0⟩
  | acquire l => exact keep acquire_keeps
  | release l => exact keep release_keeps
  | yield t =>
    obtain rfl : a = .inl t := of_decide_eq_true hx
    exact keep yield_keeps
  | sleep t l =>
    obtain rfl : a = .inl t := of_decide_eq_true hx
    exact keep sleep_keeps
  | wakeup t => exact keep wakeup_keeps
  | setIntr b => exact keep fun _ h => (setIntr_spec h).mono fun _ _ ⟨e, e'⟩ => by simp [e, e']
  | schedule t b =>
    obtain ⟨k, rfl⟩ := Sum.isRight_iff.1 hx
    exact keep schedule_keeps

/-- In every run of the processes and the schedulers: on a CPU that holds a lock,
interrupts are disabled while it runs a thread; `noff` is the number of that thread's
`push_off`s outstanding; whenever that number has returned to zero, a process had
interrupts enabled exactly if they were when it had last left zero; and `pop_off` has
not panicked. -/
theorem interrupts_of_thread {state : τ → ProcState} {k : Config (Kernel κ τ) (Agent κ τ) Nat}
    (hr : Config.Run (client κ τ) (fun _ => True) (.idle { state } 0) k) :
    (∀ a c l, k.shared.on a = some c → k.shared.lock l = some c → (k.shared.cpu c).intr = false) ∧
    (∀ a c, k.shared.on a = some c → (k.shared.cpu c).noff = (k.shared.hist a).count) ∧
    (∀ t i b, (some i, b) ∈ (k.shared.hist (.inl t)).returns → b = i) ∧
    k.panicked ≠ some "pop_off" ∧ k.panicked ≠ some "pop_off - interruptible" := by
  obtain ⟨hinv, hp⟩ := Config.Run.inv (fun n (g : Ghost τ) => g.pushes = n ∧ g.intena = none) hr (start_inv state)
    (fun a => by cases a <;> exact ⟨rfl, rfl⟩) rfl fun _ _ _ x hg hx => call_spec x hg hx
  obtain ⟨γ, h, -⟩ := hinv 0
  have hruns {a c} (hc : k.shared.on a = some c) := (h.good a).runs (c := k.shared.cpu c) (by rw [Kernel.view, hc]; rfl)
  refine ⟨fun a c l hc hl => (hruns hc).2.2 ?_, fun a c hc => (hruns hc).1.trans (h.good a).count.symm,
    fun t i b => (h.good (.inl t)).returns rfl, fun e => (hp _ e).1 rfl, fun e => (hp _ e).2 rfl⟩
  exact lt_of_lt_of_le (List.length_pos_of_mem (((hruns hc).2.1 l).1 hl)) (Nat.le_add_right ..)

/-- In every run: a CPU runs one thread; a process that it runs is RUNNING, and its
scheduler has switched away with one `push_off` outstanding; so has a process that no
CPU runs. -/
theorem cpu_runs_one_thread {state : τ → ProcState} {k : Config (Kernel κ τ) (Agent κ τ) Nat}
    (hr : Config.Run (client κ τ) (fun _ => True) (.idle { state } 0) k) :
    (∀ a b c, k.shared.on a = some c → k.shared.on b = some c → a = b) ∧
    (∀ t c, k.shared.on (.inl t) = some c →
      k.shared.state t = .running ∧ k.shared.on (.inr c) = none ∧ (k.shared.hist (.inr c)).count = 1) ∧
    ∀ t, k.shared.on (.inl t) = none → (k.shared.hist (.inl t)).count = 1 := by
  obtain ⟨hinv, -⟩ := Config.Run.inv (fun n (g : Ghost τ) => g.pushes = n ∧ g.intena = none) hr (start_inv state)
    (fun a => by cases a <;> exact ⟨rfl, rfl⟩) rfl fun _ _ _ x hg hx => call_spec x hg hx
  obtain ⟨γ, h, -⟩ := hinv 0
  refine ⟨fun a b c => h.inj, fun t c hc => ?_, fun t ht => ?_⟩
  · obtain ⟨hrun, hg⟩ := h.given hc
    refine ⟨hrun, Option.eq_none_iff_forall_ne_some.2 fun d hd => ?_, by rw [(h.good (.inr c)).count, hg]; rfl⟩
    exact Sum.inl_ne_inr (h.inj hc (h.home hd ▸ hd))
  · obtain ⟨hheld, hpush⟩ := (h.good (.inl t)).out rfl (by rw [Kernel.view, ht]; rfl)
    rw [(h.good (.inl t)).count, Ghost.count, hheld, hpush]
    rfl

/-- A process begins on one CPU, enables interrupts, yields and goes on on the other
CPU, whose scheduler had interrupts disabled. -/
def migration : List (Event (Agent Bool Unit) (Call Unit)) :=
  .call (.inr false) (.schedule () true) :: Event.steps (.inr false) 4 ++
  .call (.inl ()) (.release (.proc ())) :: Event.steps (.inl ()) 3 ++
  .call (.inl ()) (.setIntr true) :: Event.steps (.inl ()) 2 ++
  .call (.inl ()) (.yield ()) :: Event.steps (.inl ()) 3 ++ Event.steps (.inr false) 3 ++
  .call (.inr true) (.schedule () false) :: Event.steps (.inr true) 4 ++ Event.steps (.inl ()) 3

theorem migration_run :
    ((Config.idle { state := fun _ => .runnable } 0).execAll (client Bool Unit) (fun _ => true) migration).map
    (fun k => decide (k.shared.on (.inl ()) = some true ∧ ((k.shared.hist (.inl ())).returns.map (·.1)) = [some true, none])) =
      some true := by
  decide +kernel

theorem interrupts_of_thread_migration : ∃ k : Config (Kernel Bool Unit) (Agent Bool Unit) Nat,
    Config.Run (client Bool Unit) (fun _ => True) (.idle { state := fun _ => .runnable } 0) k ∧
    k.shared.on (.inl ()) = some true ∧ (some true, true) ∈ (k.shared.hist (.inl ())).returns := by
  obtain ⟨k, hk, h⟩ := Option.map_eq_some_iff.mp migration_run
  obtain ⟨hon, hret⟩ := of_decide_eq_true h
  have hr : Config.Run (client Bool Unit) (fun _ => True) (.idle { state := fun _ => .runnable } 0) k :=
    .of_execAll (fun _ _ => trivial) hk
  obtain ⟨⟨o, b⟩, hb, rfl⟩ := List.mem_map.1 (hret ▸ List.mem_cons_self : some true ∈ _)
  exact ⟨k, hr, hon, (interrupts_of_thread hr).2.2.1 () true b hb ▸ hb⟩

theorem cpu_runs_one_thread_migration : ∃ k : Config (Kernel Bool Unit) (Agent Bool Unit) Nat,
    Config.Run (client Bool Unit) (fun _ => True) (.idle { state := fun _ => .runnable } 0) k ∧
    k.shared.on (.inl ()) = some true ∧ (k.shared.hist (.inr true)).count = 1 := by
  obtain ⟨k, hk, h⟩ := Option.map_eq_some_iff.mp migration_run
  have hr : Config.Run (client Bool Unit) (fun _ => True) (.idle { state := fun _ => .runnable } 0) k :=
    .of_execAll (fun _ _ => trivial) hk
  have hon := (of_decide_eq_true h).1
  exact ⟨k, hr, hon, ((cpu_runs_one_thread hr).2.1 () true hon).2.2⟩

end Xv6.Spinlock
