import Xv6.Process.Agree
import Xv6.Process.Switch

/-!
# The invariant of the process table

`Inv` is about the state and one ghost value for each thread. `Own` is what
it says of one thread: the locks it holds, and what it knows of the process
table. A step of one thread keeps `Own` of the others, because it changes
only slots whose lock it holds, and only the parents of its own children
(`Own.stable`).

Two parts of the invariant rest on assumptions. Under `ord`, no fork reuses a
slot that a process in `exit` remembers, and each thread acquires locks in the
order of the slots' births (`Own.order`). Under `cl`, `kill` is not called with
pid 0 and `kalloc` does not fail to allocate a trapframe, and unused slots are
clean (`Inv.clean`).
-/

namespace Xv6.Process

open Function

variable {n : Nat} {x : Proc}

/-- The slot has no process that runs. -/
def Dead (x : Proc) : Prop := x.state = .unused ∨ x.state = .zombie

/-- The slot is as `freeproc` leaves it. -/
def Clean (x : Proc) : Prop :=
  x.pid = 0 ∧ x.killed = false ∧ x.trapframe = 0 ∧ x.pagetable = 0 ∧ x.sz = 0 ∧ x.parent = none

/-- What is known of a thread. -/
structure Ghost where
  /-- The locks that it holds. -/
  held : List Pid := []
  /-- Its process has started, and has not exited. -/
  live : Bool := false
  /-- The slot that it is allocating, and whether it has set the slot's
  `parent`. -/
  alloc : Option (Pid × Bool) := none
  /-- A child that it has found in the table. -/
  child : Option Pid := none
  /-- In `exit`: it has no children below this slot. -/
  scan : Nat := 0
  /-- In `exit`: `original_parent`. -/
  orig : Option Pid := none
  /-- A slot whose lock it holds, and what it has seen there. -/
  saw : Option (Pid × Proc) := none
  /-- In `wait`: it has no zombie children below this slot. -/
  quiet : Nat := 0
  wait : WaitState := .idle
  /-- The lock that it is acquiring. -/
  want : Option Pid := none
  switch : Switch.Ghost := {}

/-- What a thread knows of its family, in `fork`, `exit` and `wait`. -/
structure Knows (s : State n) (a : Agent n) (g : Ghost) : Prop where
  quiet : ∀ p, a = .inl p → p ≠ initproc → 0 < g.quiet → p ∈ g.held ∧
    ∀ i : Pid, i.val < g.quiet → (s.proc i).parent = some p → (s.proc i).state ≠ .zombie
  orig : ∀ p o, a = .inl p → g.live = true → g.orig = some o →
    (s.proc p).parent = some o ∨ (s.proc p).parent = some initproc
  alloc : ∀ i, g.alloc = some (i, true) → (s.proc i).parent ≠ none
  call : ∀ p, a = .inl p → CallOk s.hist.log p g.wait

/-- What the invariant says of the thread `a`. -/
structure Own (ord : Prop) (s : State n) (a : Agent n) (g : Ghost) : Prop where
  lock : ∀ j, s.lock j = some (.held a) ↔ j ∈ g.held
  nodup : g.held.Nodup
  live : ∀ p, a = .inl p → g.live = true → ¬ Dead (s.proc p)
  alloc : ∀ i b, g.alloc = some (i, b) →
    i ∈ g.held ∧ (s.proc i).state = .unused ∧ (b = false → (s.proc i).parent = none)
  child : ∀ i, g.child = some i → ∃ p, a = .inl p ∧ (s.proc i).parent = some p
  scan : ∀ p, a = .inl p → ∀ i : Pid, i.val < g.scan → p ≠ initproc ∧ (s.proc i).parent ≠ some p
  orig : ∀ p, a = .inl p → s.hist.remembered p = g.orig
  want : s.hist.want a = g.want
  order : ord → ∀ j ∈ g.held, ∀ k, g.want = some k → s.hist.stamp j < s.hist.stamp k
  saw : ∀ i x, g.saw = some (i, x) → i ∈ g.held ∧ s.proc i = x
  knows : Knows s a g

/-- Parents are born before their children. -/
structure Births (ord : Prop) (s : State n) : Prop where
  parent : ∀ i j, (s.proc i).parent = some j → s.hist.stamp j < s.hist.stamp i
  remembered : ord → ∀ p j, s.hist.remembered p = some j → s.hist.stamp j < s.hist.stamp p
  init : s.hist.stamp initproc = 0
  le : ∀ i, s.hist.stamp i ≤ s.hist.births

/-- The parts of the history that the invariant speaks of are the same. -/
def Hist.Same (h h' : Hist n) : Prop :=
  h' = { h with reused := h'.reused, killedZero := h'.killedZero, noTrapframe := h'.noTrapframe, context := h'.context }

structure Inv (ord cl : Prop) (s : State n) (γ : Agent n → Ghost) : Prop where
  own : ∀ a, Own ord s a (γ a)
  toProc : ∀ p c, s.lock p = some (.toProc c) → ¬ Dead (s.proc p)
  init : ¬ Dead (s.proc initproc)
  parent : ∀ i j, (s.proc i).parent = some j → ¬ Dead (s.proc j)
  unused : ∀ i, (s.proc i).state = .unused → (s.proc i).parent = none ∨ ∃ a, (γ a).alloc = some (i, true)
  births : Births ord s
  clean : cl → ∀ i, (s.proc i).state = .unused →
    Clean (s.proc i) ∨ (s.proc i).killed = false ∧ ∃ a b, (γ a).alloc = some (i, b)
  born : cl → s.hist.bornKilled = false
  agree : Agree s
  calls : Calls s.hist.log

variable {ord cl : Prop} {s s' : State n} {γ : Agent n → Ghost} {a u : Agent n} {g : Ghost} {i j p : Pid}

theorem Births.congr (h : Births ord s) (hpar : ∀ i, (s'.proc i).parent = (s.proc i).parent)
    (hrem : s'.hist.remembered = s.hist.remembered) (hstamp : s'.hist.stamp = s.hist.stamp)
    (hbirths : s'.hist.births = s.hist.births) : Births ord s' where
  parent i j := by rw [hpar, hstamp]; exact h.parent i j
  remembered := by rw [hrem, hstamp]; exact h.remembered
  init := by rw [hstamp]; exact h.init
  le := by rw [hstamp, hbirths]; exact h.le

namespace Knows

/-- What a step of another thread may do, and what it may not. -/
theorem stable (h : Knows s u g)
    (hkid : ∀ p, u = .inl p → p ≠ initproc → p ∈ g.held → ∀ i, (s'.proc i).parent = some p → (s'.proc i).state = .zombie →
      (s.proc i).parent = some p ∧ (s.proc i).state = .zombie)
    (horig : ∀ p, u = .inl p → g.live = true → (s'.proc p).parent = (s.proc p).parent ∨ (s'.proc p).parent = some initproc)
    (halloc : ∀ i, g.alloc = some (i, true) → (s'.proc i).parent = (s.proc i).parent)
    (hcall : ∀ p, u = .inl p → CallOk s.hist.log p g.wait → CallOk s'.hist.log p g.wait) : Knows s' u g where
  quiet := fun p hp hp0 hq => by
    obtain ⟨hm, hk⟩ := h.quiet p hp hp0 hq
    refine ⟨hm, fun i hi hpar hz => ?_⟩
    obtain ⟨hpar, hz⟩ := hkid p hp hp0 hm i hpar hz
    exact hk i hi hpar hz
  orig := fun p o hp hl ho => by
    rcases horig p hp hl with e | e
    · rw [e]; exact h.orig p o hp hl ho
    · exact .inr e
  alloc := fun i hi => by rw [halloc i hi]; exact h.alloc i hi
  call := fun p hp => hcall p hp (h.call p hp)

end Knows

/-- What a step of another thread may do, and what it may not. -/
theorem Own.stable (h : Own ord s u g) (hlock : ∀ j, s'.lock j = some (.held u) ↔ s.lock j = some (.held u))
    (hdead : ∀ p, u = .inl p → g.live = true → Dead (s'.proc p) → Dead (s.proc p))
    (hproc : ∀ i ∈ g.held, (s'.proc i).parent = (s.proc i).parent ∧
      ((s.proc i).state = .unused → (s'.proc i).state = .unused))
    (hpar : ∀ p, u = .inl p → ∀ i, (s.proc i).parent = some p → (s'.proc i).parent = some p)
    (hpar' : ∀ p, u = .inl p → p ≠ initproc → ∀ i, (s'.proc i).parent = some p → (s.proc i).parent = some p)
    (hrem : ∀ p, u = .inl p → s'.hist.remembered p = s.hist.remembered p)
    (hwant : s'.hist.want u = s.hist.want u) (hstamp : ∀ j ∈ g.held, s'.hist.stamp j = s.hist.stamp j)
    (hle : ord → ∀ k, s.hist.stamp k ≤ s'.hist.stamp k)
    (hsaw : g.saw = none ∨ ∀ i ∈ g.held, s'.proc i = s.proc i) (hknows : Knows s' u g) : Own ord s' u g where
  lock := fun j => (hlock j).trans (h.lock j)
  nodup := h.nodup
  live := fun p hp hl hd => h.live p hp hl (hdead p hp hl hd)
  alloc := fun i b hb => by
    obtain ⟨hm, hst, hp⟩ := h.alloc i b hb
    exact ⟨hm, (hproc i hm).2 hst, by rwa [(hproc i hm).1]⟩
  child := fun i hi => by
    obtain ⟨p, hp, hi⟩ := h.child i hi
    exact ⟨p, hp, hpar p hp i hi⟩
  scan := fun p hp i hi => by
    obtain ⟨hne, hi⟩ := h.scan p hp i hi
    exact ⟨hne, fun hi' => hi (hpar' p hp hne i hi')⟩
  orig := fun p hp => (hrem p hp).trans (h.orig p hp)
  want := hwant.trans h.want
  order := fun ho j hj k hk => by
    rw [hstamp j hj]
    exact lt_of_lt_of_le (h.order ho j hj k hk) (hle ho k)
  saw := fun i x e => by
    obtain ⟨hm, hx⟩ := h.saw i x e
    exact ⟨hm, by rw [hsaw.resolve_left (by simp [e]) i hm, hx]⟩
  knows := hknows

namespace Inv

theorem self (h : Inv ord cl s γ) (hg : γ a = g) : Own ord s a g := hg ▸ h.own a

theorem held_unique (h : Inv ord cl s γ) (ha : j ∈ (γ a).held) (hu : j ∈ (γ u).held) : a = u := by
  have h1 := ((h.own a).lock j).mpr ha
  have h2 := ((h.own u).lock j).mpr hu
  rw [h1] at h2
  cases h2; rfl

theorem not_held (h : Inv ord cl s γ) (hu : u ≠ a) (ha : j ∈ (γ a).held) : j ∉ (γ u).held := fun hj =>
  hu (h.held_unique hj ha)

/-- A step of `a`: what it does to `a`'s own ghost value, and that it keeps
what is known of the others. -/
theorem own_update (hown : Own ord s' a g) (hother : ∀ u, u ≠ a → Own ord s' u (γ u)) (u : Agent n) :
    Own ord s' u (update γ a g u) := by
  by_cases hu : u = a
  · subst hu; rwa [update_self]
  · rw [update_of_ne hu]; exact hother u hu

/-- The slots that are being allocated, after a step of `a`. -/
theorem alloc_update {b : Bool} (h : ∃ u, (γ u).alloc = some (i, b)) (hg : (γ a).alloc = some (i, b) → g.alloc = some (i, b)) :
    ∃ u, (update γ a g u).alloc = some (i, b) := by
  obtain ⟨u, hu⟩ := h
  by_cases hua : u = a
  · subst hua
    exact ⟨u, by rw [update_self]; exact hg hu⟩
  · exact ⟨u, by rwa [update_of_ne hua]⟩

theorem clean_update (h : Clean x ∨ x.killed = false ∧ ∃ u b, (γ u).alloc = some (i, b))
    (hg : ∀ b, (γ a).alloc = some (i, b) → g.alloc = some (i, b)) :
    Clean x ∨ x.killed = false ∧ ∃ u b, (update γ a g u).alloc = some (i, b) := by
  refine h.imp_right fun ⟨hk, u, b, hu⟩ => ⟨hk, ?_⟩
  obtain ⟨u', hu'⟩ := alloc_update ⟨u, hu⟩ (hg b)
  exact ⟨u', b, hu'⟩

/-- The invariant of the table does not depend on what is known of the switches. -/
theorem reswitch (h : Inv ord cl s (update γ a g)) (y : Switch.Ghost) : Inv ord cl s (update γ a { g with switch := y }) := by
  have hal : ∀ u, (update γ a { g with switch := y } u).alloc = (update γ a g u).alloc :=
    update_keep Ghost.alloc (update_idem ..).symm (by rw [update_self])
  refine { h with own := own_update ?_ fun u hu => ?_, unused := by simpa only [hal] using h.unused
                  clean := by simpa only [hal] using h.clean }
  · have ho := h.self (update_self ..)
    exact { ho with knows := { ho.knows with } }
  · have := h.own u
    rwa [update_of_ne hu] at this

/-- A step that changes no slot, and of the history only what concerns `a`. -/
theorem tableStep (h : Inv ord cl s γ) (hproc : s'.proc = s.proc) (hstamp : s'.hist.stamp = s.hist.stamp)
    (hborn : s'.hist.bornKilled = s.hist.bornKilled) (halloc : g.alloc = (γ a).alloc)
    (htoProc : ∀ p c, s'.lock p = some (.toProc c) → s.lock p = some (.toProc c) ∨ ¬ Dead (s.proc p))
    (hlock : ∀ u, u ≠ a → ∀ j, s'.lock j = some (.held u) ↔ s.lock j = some (.held u))
    (hwant : ∀ u, u ≠ a → s'.hist.want u = s.hist.want u) (hrem : ∀ p, a ≠ .inl p → s'.hist.remembered p = s.hist.remembered p)
    (hcall : ∀ p w, a ≠ .inl p → CallOk s.hist.log p w → CallOk s'.hist.log p w)
    (hbirths : Births ord s') (hagree : Agree s') (hcalls : Calls s'.hist.log) (hown : Own ord s' a g) :
    Inv ord cl s' (update γ a g) where
  own := own_update hown fun u hu => by
    have hua : ∀ p, u = .inl p → a ≠ .inl p := fun p hp e => hu (hp.trans e.symm)
    refine (h.own u).stable (hlock u hu) ?_ ?_ ?_ ?_ (fun p hp => hrem p (hua p hp)) (hwant u hu) ?_ ?_
      (.inr fun i _ => by rw [hproc]) ((h.own u).knows.stable ?_ ?_ ?_ fun p hp => hcall p _ (hua p hp))
    · intro p _ _; rw [hproc]; exact id
    · intro i _; rw [hproc]; exact ⟨rfl, id⟩
    · intro p _ i; rw [hproc]; exact id
    · intro p _ _ i; rw [hproc]; exact id
    · intro j _; rw [hstamp]
    · intro _ k; exact le_of_eq (by rw [hstamp])
    · intro p _ _ _ i hpar hz; rw [hproc] at hpar hz; exact ⟨hpar, hz⟩
    · intro p _ _; exact .inl (by rw [hproc])
    · intro i _; rw [hproc]
  toProc := fun p c hp => by
    rw [hproc]
    exact (htoProc p c hp).elim (h.toProc p c) id
  init := by rw [hproc]; exact h.init
  parent := by rw [hproc]; exact h.parent
  unused := fun i hi => by
    rw [hproc] at hi ⊢
    exact (h.unused i hi).imp_right fun hu => alloc_update hu fun e => halloc.trans e
  births := hbirths
  clean := fun hc i hi => by
    rw [hproc] at hi ⊢
    exact clean_update (h.clean hc i hi) fun _ e => halloc.trans e
  born := fun hc => hborn.trans (h.born hc)
  agree := hagree
  calls := hcalls

/-- A step that changes no slot, and nothing of the history but the locks
that are wanted. -/
theorem lockStep (h : Inv ord cl s γ) {want : Agent n → Option Pid} (hproc : s'.proc = s.proc)
    (hh : { s.hist with want }.Same s'.hist) (halloc : g.alloc = (γ a).alloc)
    (htoProc : ∀ p c, s'.lock p = some (.toProc c) → s.lock p = some (.toProc c) ∨ ¬ Dead (s.proc p))
    (hlock : ∀ u, u ≠ a → ∀ j, s'.lock j = some (.held u) ↔ s.lock j = some (.held u))
    (hwant : ∀ u, u ≠ a → want u = s.hist.want u) (hown : Own ord s' a g) : Inv ord cl s' (update γ a g) := by
  have hstamp : s'.hist.stamp = s.hist.stamp := by rw [hh]
  have hbirths : s'.hist.births = s.hist.births := by rw [hh]
  have hlog : s'.hist.log = s.hist.log := by rw [hh]
  exact h.tableStep hproc hstamp (by rw [hh]) halloc htoProc hlock (fun u hu => by rw [hh]; exact hwant u hu)
    (fun p _ => by rw [hh])
    (fun p w _ => by rw [hlog]; exact id)
    (h.births.congr (fun i => by rw [hproc]) (by rw [hh]) hstamp hbirths)
    (h.agree.congr hproc hstamp hbirths hlog) (by rw [hlog]; exact h.calls) hown

/-- `a` changes the slot `i`, whose lock it holds. -/
theorem slotStep (h : Inv ord cl s γ) (hi : i ∈ (γ a).held) (hproc : s'.proc = update s.proc i x)
    (hlock : s'.lock = s.lock) (hwant : s'.hist.want = s.hist.want)
    (hrem : s'.hist.remembered = s.hist.remembered) (hstamp : ∀ j, j ≠ i → s'.hist.stamp j = s.hist.stamp j)
    (hle : ord → s.hist.stamp i ≤ s'.hist.stamp i) (hbirths : Births ord s') (hborn : cl → s'.hist.bornKilled = false)
    (hdead : Dead x → i ≠ initproc ∧ (a ≠ .inl i → (γ (.inl i)).live = false) ∧ ∀ k, (s'.proc k).parent ≠ some i)
    (hpar : ∀ p, a ≠ .inl p → (s.proc i).parent = some p → x.parent = some p)
    (hpar' : ∀ p, a ≠ .inl p → p ≠ initproc → x.parent = some p → (s.proc i).parent = some p)
    (hxpar : ∀ j, x.parent = some j → ¬ Dead (s'.proc j)) (hown : Own ord s' a g)
    (halloc : ∀ k b, k ≠ i → (γ a).alloc = some (k, b) → g.alloc = some (k, b))
    (hunused : x.state = .unused → x.parent = none ∨ g.alloc = some (i, true))
    (hclean : cl → x.state = .unused → Clean x ∨ x.killed = false ∧ ∃ b, g.alloc = some (i, b))
    (hkid : ∀ p, a ≠ .inl p → p ≠ initproc → p ∉ (γ a).held → x.parent = some p → x.state = .zombie →
      (s.proc i).state = .zombie)
    (horig : a ≠ .inl i → (γ (.inl i)).live = true → x.parent = (s.proc i).parent ∨ x.parent = some initproc)
    (hcall : ∀ p w, a ≠ .inl p → CallOk s.hist.log p w → CallOk s'.hist.log p w) (hagree : Agree s')
    (hcalls : Calls s'.hist.log) : Inv ord cl s' (update γ a g) := by
  obtain ⟨hself, hne⟩ := eq_update_iff.1 hproc
  have hheld : s.lock i = some (.held a) := ((h.own a).lock i).mpr hi
  refine ⟨own_update hown fun u hu => ?_, fun p c hp => ?_, ?_, fun k j hk => ?_, fun k hk => ?_, hbirths,
    fun hc k hk => ?_, hborn, hagree, hcalls⟩
  · have hni : i ∉ (γ u).held := h.not_held hu hi
    refine (h.own u).stable (fun j => by rw [hlock]) ?_ ?_ ?_ ?_ (fun p _ => by rw [hrem]) (by rw [hwant]) ?_ ?_
      (.inr fun k hk => by rw [hne k fun e => hni (e ▸ hk)])
      ((h.own u).knows.stable (fun p hp hp0 hm k hk hz => ?_) (fun p hp hl => ?_) (fun k hk => ?_)
        fun p hp => hcall p _ fun e => hu (hp.trans e.symm))
    · intro p hp hl hd
      by_cases hpi : p = i
      · subst hpi hp
        rw [hself] at hd
        rw [(hdead hd).2.1 (Ne.symm hu)] at hl
        cases hl
      · rwa [hne p hpi] at hd
    · intro k hk
      rw [hne k fun e => hni (e ▸ hk)]; exact ⟨rfl, id⟩
    · intro p hp k hk
      by_cases hki : k = i
      · subst hki; rw [hself]; exact hpar p (fun e => hu (hp.trans e.symm)) hk
      · rwa [hne k hki]
    · intro p hp hp0 k hk
      by_cases hki : k = i
      · subst hki; rw [hself] at hk; exact hpar' p (fun e => hu (hp.trans e.symm)) hp0 hk
      · rwa [hne k hki] at hk
    · exact fun j hj => hstamp j fun e => hni (e ▸ hj)
    · intro ho k
      by_cases hki : k = i
      · subst hki; exact hle ho
      · exact le_of_eq (hstamp k hki).symm
    · have hpa : a ≠ .inl p := fun e => hu (hp.trans e.symm)
      by_cases hki : k = i
      · subst hki
        rw [hself] at hk hz
        exact ⟨hpar' p hpa hp0 hk, hkid p hpa hp0 (h.not_held (Ne.symm hu) hm) hk hz⟩
      · rw [hne k hki] at hk hz; exact ⟨hk, hz⟩
    · by_cases hpi : p = i
      · subst hpi hp; rw [hself]; exact horig (Ne.symm hu) hl
      · exact .inl (by rw [hne p hpi])
    · rw [hne k fun e => hni (e ▸ ((h.own u).alloc k true hk).1)]
  · rw [hlock] at hp
    have hpi : p ≠ i := fun e => by rw [e, hheld] at hp; cases hp
    rw [hne p hpi]; exact h.toProc p c hp
  · by_cases h0 : initproc = i
    · rw [h0, hself]; exact fun hd => (hdead hd).1 h0.symm
    · rw [hne _ h0]; exact h.init
  · by_cases hki : k = i
    · subst hki; exact hxpar j (hself ▸ hk)
    · by_cases hji : j = i
      · subst hji; rw [hself]; exact fun hd => (hdead hd).2.2 k hk
      · rw [hne k hki] at hk
        rw [hne j hji]; exact h.parent k j hk
  · by_cases hki : k = i
    · subst hki
      rw [hself] at hk ⊢
      exact (hunused hk).imp_right fun e => ⟨a, by rwa [update_self]⟩
    · rw [hne k hki] at hk ⊢
      exact (h.unused k hk).imp_right fun hu => alloc_update hu (halloc k true hki)
  · by_cases hki : k = i
    · subst hki
      rw [hself] at hk ⊢
      exact (hclean hc hk).imp_right fun ⟨hx, b, e⟩ => ⟨hx, a, b, by rwa [update_self]⟩
    · rw [hne k hki] at hk ⊢
      exact clean_update (h.clean hc k hk) fun b => halloc k b hki

theorem not_live (h : Inv ord cl s γ) (hd : Dead (s.proc i)) : (γ (.inl i)).live = false := by
  by_contra hl
  exact (h.own (.inl i)).live i rfl (by simpa using hl) hd

/-- The slot `i` may become `x`: the change concerns neither its parent nor
whether it is used, and is none for a zombie. -/
structure Tame (cl : Prop) (s : State n) (g : Ghost) (i : Pid) (x : Proc) : Prop where
  parent : x.parent = (s.proc i).parent
  unused : x.state = .unused ↔ (s.proc i).state = .unused
  dead : Dead x ↔ Dead (s.proc i)
  clean : cl → x.state = .unused → Clean x ∨ x.killed = false ∧ ∃ b, g.alloc = some (i, b)
  zombie : x.state = .zombie → x.pid = (s.proc i).pid ∧ x.xstate = (s.proc i).xstate
  sleep : i ≠ initproc → x.state = .sleeping → x.chan = some (.proc i) →
    ∀ q, (s.proc q).parent = some i → (s.proc q).state ≠ .zombie

theorem Tame.zombie_iff (h : Tame cl s g i x) : x.state = .zombie ↔ (s.proc i).state = .zombie := by
  refine ⟨fun hz => (h.dead.mp (.inr hz)).resolve_left fun hu => ?_, fun hz =>
    (h.dead.mpr (.inr hz)).resolve_left fun hu => ?_⟩
  · rw [h.unused.mpr hu] at hz; cases hz
  · rw [h.unused.mp hu] at hz; cases hz

/-- A change of a slot such as `wakeup`'s. -/
theorem tame (h : Inv ord cl s γ) (hi : i ∈ (γ a).held) (hsaw : (γ a).saw = none) (hx : Tame cl s (γ a) i x)
    (hproc : s'.proc = update s.proc i x) (hlock : s'.lock = s.lock) (hh : s.hist.Same s'.hist) : Inv ord cl s' γ := by
  have hwant : s'.hist.want = s.hist.want := by rw [hh]
  have hrem : s'.hist.remembered = s.hist.remembered := by rw [hh]
  have hstamp : s'.hist.stamp = s.hist.stamp := by rw [hh]
  have hbirths : s'.hist.births = s.hist.births := by rw [hh]
  have hlog : s'.hist.log = s.hist.log := by rw [hh]
  have hslot : ∀ P : Proc → Proc → Prop, (∀ y, P y y) → P x (s.proc i) → ∀ j, P (s'.proc j) (s.proc j) := by
    intro P hP hPx j
    by_cases hj : j = i
    · subst hj; rwa [hproc, update_self]
    · rw [hproc, update_of_ne hj]; exact hP _
  have hdead' : ∀ j, Dead (s'.proc j) ↔ Dead (s.proc j) := hslot (fun x y => Dead x ↔ Dead y) (fun _ => Iff.rfl) hx.dead
  have hpar' : ∀ j, (s'.proc j).parent = (s.proc j).parent := hslot (·.parent = ·.parent) (fun _ => rfl) hx.parent
  have hunused' : ∀ j, (s.proc j).state = .unused → (s'.proc j).state = .unused :=
    hslot (fun x y => y.state = .unused → x.state = .unused) (fun _ => id) hx.unused.mpr
  have hzombie' : ∀ j, (s'.proc j).state = .zombie → (s.proc j).state = .zombie :=
    hslot (fun x y => x.state = .zombie → y.state = .zombie) (fun _ => id) hx.zombie_iff.mp
  have hown : Own ord s' a (γ a) := by
    refine (h.own a).stable (fun j => by rw [hlock]) (fun p _ _ => (hdead' p).mp) (fun j _ => ⟨hpar' j, hunused' j⟩) ?_
      ?_ (fun p _ => by rw [hrem]) (by rw [hwant]) (fun j _ => by rw [hstamp])
      (fun _ k => le_of_eq (by rw [hstamp])) (.inl hsaw) ((h.own a).knows.stable ?_ ?_ ?_ ?_)
    · intro p _ j; rw [hpar' j]; exact id
    · intro p _ _ j; rw [hpar' j]; exact id
    · intro p _ _ _ j hj hz; exact ⟨hpar' j ▸ hj, hzombie' j hz⟩
    · intro p _ _; exact .inl (hpar' p)
    · intro j _; exact hpar' j
    · intro p _; rw [hlog]; exact id
  have := h.slotStep (g := γ a) hi hproc hlock hwant hrem (fun j _ => by rw [hstamp])
    (fun _ => le_of_eq (by rw [hstamp]))
    (h.births.congr hpar' hrem hstamp hbirths) (fun hc => by rw [hh]; exact h.born hc) (fun hd => ?_)
    (fun p _ => hx.parent ▸ id)
    (fun p _ _ => hx.parent ▸ id) (fun j hj => ?_) hown (fun k b _ => id) (fun hu => ?_) hx.clean
    (fun p _ _ _ _ => hx.zombie_iff.mp) (fun _ _ => .inl hx.parent) (fun p w _ => by rw [hlog]; exact id) ?_
    (by rw [hlog]; exact h.calls)
  · rwa [update_eq_self] at this
  · have hd := hx.dead.mp hd
    refine ⟨fun e => h.init (e ▸ hd), fun _ => h.not_live hd, fun k => ?_⟩
    rw [hpar' k]; exact fun e => h.parent k i e hd
  · rw [hdead' j]; exact h.parent i j (hx.parent ▸ hj)
  · refine (h.unused i (hx.unused.mp hu)).imp (fun e => hx.parent.trans e) fun ⟨u, hu⟩ => ?_
    obtain rfl := h.held_unique hi ((h.own u).alloc i true hu).1
    exact hu
  · refine h.agree.slot hproc hstamp hbirths hlog (fun h0 hu => ?_) (fun hp => .inr (hx.parent ▸ hp)) hx.zombie_iff hx.zombie
      (fun p _ e _ => hx.parent ▸ e) hx.sleep
    rw [hx.parent]
    exact h.agree.parent i h0 fun e => hu (hx.unused.mpr e)

end Inv

end Xv6.Process
