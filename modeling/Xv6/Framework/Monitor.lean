import Xv6.Framework.Thread

/-!
# Data under one spinlock, and sleeping on channels

A component whose data is guarded by one spinlock, and whose processes sleep
on channels with that lock (`sleep(chan, lk)`, `wakeup(chan)`). The invariant
`J` of such a component speaks of its data, of who sleeps on what, of what the
process that holds the lock knows (`none` if the lock is free), and of what is
known of every process whether it holds the lock or not.

There is one rule for each operation: what `J` must satisfy so that the
operation keeps it.
-/

namespace Xv6

open Function (update update_eq_self update_of_ne update_self)

/-- Data of type `δ` with a spinlock, and the channel each process sleeps on. -/
structure Mon (δ χ τ : Type) where
  lock : Option τ := none
  chan : τ → Option χ := fun _ => none
  data : δ

namespace Mon

variable {δ χ τ H G : Type} [DecidableEq τ]

/-! ## Operations -/

def acquire : Prog (Mon δ χ τ) τ Unit :=
  .step fun t s => match s.lock with
    | none => .ok () { s with lock := some t }
    | some u => if u = t then .panic "acquire" else .wait

def release : Prog (Mon δ χ τ) τ Unit :=
  .step fun t s => if s.lock = some t then .ok () { s with lock := none } else .panic "release"

/-- Who sleeps after a `wakeup` of `c`. -/
def woken [DecidableEq χ] (c : χ) (ch : τ → Option χ) : τ → Option χ := fun u => if ch u = some c then none else ch u

/-- Wake up all processes that sleep on `c`. -/
def wakeup [DecidableEq χ] (c : χ) : Prog (Mon δ χ τ) τ Unit := .step fun _ s => .ok () { s with chan := woken c s.chan }

/-- Give up the lock and sleep on `c`; the lock is taken again after the
wakeup. A process that has let go of the lock is already asleep, because
`sleep` holds `p->lock` at that time. -/
def sleep (c : χ) : Prog (Mon δ χ τ) τ Unit := do
  .step fun t s => if s.lock = some t then .ok () { s with lock := none, chan := update s.chan t (some c) }
    else .panic "release"
  .step fun t s => if s.chan t = none then .ok () s else .wait
  acquire

/-- Wake up process `u`, whatever it sleeps on, as `kill` does. -/
def rouse (u : τ) : Prog (Mon δ χ τ) τ Unit := .step fun _ s => .ok () { s with chan := update s.chan u none }

def on {α : Type} (p : Prog δ τ α) : Prog (Mon δ χ τ) τ α := p.zoom (·.data) fun s x => { s with data := x }

omit [DecidableEq τ] in
theorem on_bind {α β : Type} (p : Prog δ τ α) (q : α → Prog δ τ β) :
    (on (p >>= q) : Prog (Mon δ χ τ) τ β) = (on p).bind fun a => on (q a) := Prog.zoom_bind ..

/-! ## The invariant -/

/-- What is known of a process: what it knows while it holds the lock, and
what is known of it in any case. -/
structure Ghost (H G : Type) where
  held : Option H := none
  own : G

structure Inv (J : δ → (τ → Option χ) → Option H → (τ → G) → Prop) (s : Mon δ χ τ) (γ : τ → Ghost H G) : Prop where
  lock : ∀ t, s.lock = some t ↔ (γ t).held.isSome = true
  data : J s.data s.chan (s.lock.bind fun t => (γ t).held) fun t => (γ t).own

variable {J : δ → (τ → Option χ) → Option H → (τ → G) → Prop} {Asm : Mon δ χ τ → Prop} {Ok : String → Prop} {t : τ}
  {s s' : Mon δ χ τ} {γ : τ → Ghost H G} {g g' : G} {h h' : H} {α : Type}

theorem own_update (x : Ghost H G) : (fun u => (update γ t x u).own) = update (fun u => (γ u).own) t x.own := by
  funext u
  rcases eq_or_ne u t with rfl | hu
  · simp
  · simp [update_of_ne hu]

variable {x : Ghost H G} {c : χ} {f : τ → δ → Res δ α} {Q : α → Ghost H G → Prop}

theorem own_update_self (hx : x.own = (γ t).own) : (fun u => (update γ t x u).own) = fun u => (γ u).own := by
  rw [own_update, hx]
  exact update_eq_self ..

omit [DecidableEq τ] in
theorem Inv.locked (hi : Inv J s γ) (ht : γ t = ⟨some h, g⟩) : s.lock = some t := (hi.lock t).2 (by rw [ht]; rfl)

omit [DecidableEq τ] in
theorem Inv.held (hi : Inv J s γ) (ht : γ t = ⟨some h, g⟩) : J s.data s.chan (some h) fun t => (γ t).own := by
  have := hi.data
  rwa [hi.locked ht, Option.bind_some, ht] at this

theorem Inv.lock_update (hi : Inv J s γ) (hx : x.held.isSome = (γ t).held.isSome) (hl : s'.lock = s.lock) (u : τ) :
    s'.lock = some u ↔ (update γ t x u).held.isSome = true := by
  rw [hl, hi.lock u, update_keep (fun x : Ghost H G => x.held.isSome) rfl hx]

theorem Inv.holder (hi : Inv J s γ) (ht : γ t = ⟨some h, g⟩) (hl : s'.lock = s.lock)
    (hJ : J s'.data s'.chan (some h') (update (fun u => (γ u).own) t g')) :
    Inv J s' (update γ t ⟨some h', g'⟩) where
  lock := hi.lock_update (by rw [ht]; rfl) hl
  data := by
    rw [hl, hi.locked ht, Option.bind_some, update_self, own_update]
    exact hJ

/-- The process that holds the lock gives it up. -/
theorem Inv.unlock (hi : Inv J s γ) (ht : γ t = ⟨some h, g⟩) (hl : s'.lock = none)
    (hJ : J s'.data s'.chan none (update (fun u => (γ u).own) t g')) :
    Inv J s' (update γ t ⟨none, g'⟩) where
  lock u := by
    rw [hl]
    rcases eq_or_ne u t with rfl | hu
    · simp
    · have hlu := hi.lock u
      rw [hi.locked ht] at hlu
      simpa [update_of_ne hu, hu.symm] using hlu
  data := by
    rw [hl, own_update]
    exact hJ

/-- A step of a process that does not hold the lock. -/
theorem Inv.other (hi : Inv J s γ) (ht : γ t = ⟨none, g⟩) (hl : s'.lock = s.lock)
    (hJ : J s'.data s'.chan (s.lock.bind fun u => (γ u).held) (update (fun u => (γ u).own) t g')) :
    Inv J s' (update γ t ⟨none, g'⟩) where
  lock := hi.lock_update (by rw [ht]) hl
  data := by
    have hk : (s.lock.bind fun u => (update γ t ⟨none, g'⟩ u).held) = s.lock.bind fun u => (γ u).held := by
      cases hs : s.lock with
      | none => rfl
      | some v =>
        have hv : v ≠ t := by
          rintro rfl
          have := (hi.lock v).1 hs
          rw [ht] at this
          exact Bool.false_ne_true this
        simp [update_of_ne hv]
    rw [hl, hk, own_update]
    exact hJ

/-! ## One rule for each operation -/

variable (J Asm Ok t) in
/-- The program keeps the invariant, and panics only as `Ok` allows. -/
abbrev Spec (p : Prog (Mon δ χ τ) τ α) (x : Ghost H G) (Q : α → Ghost H G → Prop) : Prop := Safe Asm (Inv J) Ok t p x Q

theorem acquire_spec (h : H) (hJ : ∀ d ch ph, J d ch none ph → J d ch (some h) ph) :
    Spec J Asm Ok t acquire ⟨none, g⟩ fun _ x => x = ⟨some h, g⟩ := by
  refine .step fun s γ hi ht => ?_
  split
  · rename_i hl
    refine fun _ => ⟨⟨some h, g⟩, ⟨fun u => ?_, ?_⟩, rfl⟩
    · rcases eq_or_ne u t with rfl | hu
      · simp
      · simpa [update_of_ne hu, hl, hu.symm] using hi.lock u
    · have hd := hi.data
      rw [hl] at hd
      rw [Option.bind_some, update_self, own_update_self (by rw [ht])]
      exact hJ _ _ _ hd
  · rename_i u hl
    split
    · rename_i e
      have := (hi.lock t).1 (e ▸ hl)
      rw [ht] at this
      exact nomatch this
    · trivial

theorem release_spec (hJ : ∀ d ch ph, ph t = g → J d ch (some h) ph → J d ch none ph) :
    Spec J Asm Ok t release ⟨some h, g⟩ fun _ x => x = ⟨none, g⟩ := by
  refine .step fun s γ hi ht => ?_
  rw [if_pos (hi.locked ht)]
  refine fun _ => ⟨_, hi.unlock ht rfl ?_, rfl⟩
  rw [show g = (γ t).own by rw [ht], update_eq_self]
  exact hJ _ _ _ (by rw [ht]) (hi.held ht)

theorem sleep_spec (h' : H) (hJ : ∀ d ch ph, ph t = g → J d ch (some h) ph → J d (update ch t (some c)) none ph)
    (hJ' : ∀ d ch ph, J d ch none ph → J d ch (some h') ph) :
    Spec J Asm Ok t (sleep c) ⟨some h, g⟩ fun _ x => x = ⟨some h', g⟩ := by
  refine .bind (R := fun _ x => x = ⟨none, g⟩) (.step fun s γ hi ht => ?_) ?_
  · rw [if_pos (hi.locked ht)]
    refine fun _ => ⟨_, hi.unlock ht rfl ?_, rfl⟩
    rw [show g = (γ t).own by rw [ht], update_eq_self]
    exact hJ _ _ _ (by rw [ht]) (hi.held ht)
  rintro _ _ rfl
  refine .bind (R := fun _ x => x = ⟨none, g⟩) (.step fun s γ hi ht => ?_) ?_
  · split
    · exact fun _ => ⟨γ t, by rwa [update_eq_self], ht⟩
    · trivial
  rintro _ _ rfl
  exact acquire_spec h' hJ'

theorem wakeup_spec [DecidableEq χ] (h' : H) (hJ : ∀ d ch ph, ph t = g → J d ch (some h) ph → J d (woken c ch) (some h') ph) :
    Spec J Asm Ok t (wakeup c) ⟨some h, g⟩ fun _ x => x = ⟨some h', g⟩ := by
  refine .step fun s γ hi ht _ => ⟨_, hi.holder ht rfl ?_, rfl⟩
  rw [show g = (γ t).own by rw [ht], update_eq_self]
  exact hJ _ _ _ (by rw [ht]) (hi.held ht)

theorem rouse_spec (u : τ) (hJ : ∀ d ch k ph, J d ch k ph → J d (update ch u none) k ph) :
    Spec J Asm Ok t (rouse u) x fun _ x' => x' = x := by
  refine .step fun s γ hi ht _ => ⟨γ t, ?_, ht⟩
  rw [update_eq_self]
  exact ⟨hi.lock, hJ _ _ _ _ hi.data⟩

/-- An atomic step on the data by the process that holds the lock. -/
theorem holder_spec (hf : ∀ d ch ph, ph t = g → J d ch (some h) ph →
      (f t d).Post (fun a d' => ∃ h' g', J d' ch (some h') (update ph t g') ∧ Q a ⟨some h', g'⟩) Ok) :
    Spec J Asm Ok t (on (.step f)) ⟨some h, g⟩ Q := by
  refine .step fun s γ hi ht => ?_
  have hp := hf s.data s.chan _ (by rw [ht]) (hi.held ht)
  revert hp
  cases f t s.data with
  | ok a d =>
    rintro ⟨h', g', hJ, hQ⟩ -
    exact ⟨_, hi.holder ht rfl hJ, hQ⟩
  | wait => exact fun _ => trivial
  | panic m => exact id

/-- An atomic step on the data by a process that does not hold the lock. -/
theorem other_spec (hf : ∀ d ch k ph, ph t = g → J d ch k ph →
      (f t d).Post (fun a d' => ∃ g', J d' ch k (update ph t g') ∧ Q a ⟨none, g'⟩) Ok) :
    Spec J Asm Ok t (on (.step f)) ⟨none, g⟩ Q := by
  refine .step fun s γ hi ht => ?_
  have hp := hf s.data s.chan _ _ (by rw [ht]) hi.data
  revert hp
  cases f t s.data with
  | ok a d =>
    rintro ⟨g', hJ, hQ⟩ -
    exact ⟨_, hi.other ht rfl hJ, hQ⟩
  | wait => exact fun _ => trivial
  | panic m => exact id

/-- A program on the data that leaves alone what `J` speaks of. -/
theorem on_spec {p : Prog δ τ α} {R : δ → δ → Prop} {P : String → Prop} (hp : p.Does R P)
    (hJ : ∀ d d' ch k ph, R d d' → J d ch k ph → J d' ch k ph) (hP : ∀ m, P m → Ok m) :
    Spec J Asm Ok t (on p) x fun _ x' => x' = x :=
  .of_does (R := fun s s' => s'.lock = s.lock ∧ s'.chan = s.chan ∧ R s.data s'.data)
    (hp.zoom (fun _ _ h => ⟨rfl, rfl, h⟩) hP)
    (fun s s' γ hs hi => ⟨fun v => by rw [hs.1]; exact hi.lock v, by rw [hs.1, hs.2.1]; exact hJ _ _ _ _ _ hs.2.2 hi.data⟩)
    (fun _ h => h) x

end Mon

end Xv6
