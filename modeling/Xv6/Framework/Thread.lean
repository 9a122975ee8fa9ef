import Mathlib.Logic.Function.Basic
import Xv6.Framework.Prog

/-!
# Interleaved threads

Threads run programs over one shared state, one atomic step at a time in any
order. A `Client` says which calls an idle thread may make and what each
call runs. `Config.exec` is one event of a schedule, and `Config.Run` a whole
schedule in which every state satisfies an assumption `Asm`.

Proofs about all schedules go through an invariant `Inv` of the shared state
and of one ghost value for each thread. `Safe` says that a program of thread
`t` keeps the invariant, changing no ghost value but its own, whatever the
other threads do between its steps; it is proved along the structure of the
program (`Safe.step`, `Safe.bind`, `Safe.loop`). `Config.Run.inv` concludes
that the invariant holds in every state of every run.
-/

namespace Xv6

open Function

/-- What the idle threads may do: which calls a thread with local state `l`
may make, and what each call runs, returning the next local state. -/
structure Client (σ τ L C : Type) where
  allowed : τ → L → C → Bool
  body : C → L → Prog σ τ L

/-- A thread is idle, or in the middle of a call. -/
inductive Thread (σ τ L : Type) where
  | idle (l : L)
  | run (p : Prog σ τ L)

/-- The local state of an idle thread. -/
def Thread.localState {σ τ L : Type} : Thread σ τ L → Option L
  | .idle l => some l
  | .run _ => none

theorem Thread.localState_eq_some {σ τ L : Type} {th : Thread σ τ L} {l : L} : th.localState = some l ↔ th = .idle l := by
  cases th <;> simp [localState]

/-- The shared state, the threads, and the message of the panic that stopped
the machine. -/
structure Config (σ τ L : Type) where
  shared : σ
  thread : τ → Thread σ τ L
  panicked : Option String := none

/-- An idle thread makes a call, or a running one takes a step, with input
`n` if it asks for one. -/
inductive Event (τ C : Type) where
  | call (t : τ) (c : C)
  | step (t : τ) (n : Nat)

/-- `n` steps of `t`, with the same input. -/
def Event.steps {τ C : Type} (t : τ) (n : Nat) (input : Nat := 0) : List (Event τ C) := List.replicate n (.step t input)

variable {σ τ L C G : Type} [DecidableEq τ]

namespace Config

/-- The configuration in which every thread is idle. -/
def idle (s : σ) (l : L) : Config σ τ L := ⟨s, fun _ => .idle l, none⟩

/-- One event. A panic stops all threads. -/
def exec (cl : Client σ τ L C) (c : Config σ τ L) : Event τ C → Option (Config σ τ L)
  | .call t x => match c.panicked, c.thread t with
    | none, .idle l => bif cl.allowed t l x
        then some { c with thread := update c.thread t (.run (cl.body x l)) } else none
    | _, _ => none
  | .step t n => match c.panicked, c.thread t with
    | none, .run (.ret l) => some { c with thread := update c.thread t (.idle l) }
    | none, .run p => match p.next t n c.shared with
      | .ok p' s => some { c with shared := s, thread := update c.thread t (.run p') }
      | .wait => none
      | .panic m => some { c with panicked := some m }
    | _, _ => none

/-- A schedule, run to its end, if `chk` accepts every state on the way. -/
def execAll (cl : Client σ τ L C) (chk : σ → Bool) : Config σ τ L → List (Event τ C) → Option (Config σ τ L)
  | c, [] => some c
  | c, e :: es => (c.exec cl e).bind fun c' => bif chk c'.shared then c'.execAll cl chk es else none

/-- The runs in which every state satisfies `Asm`. -/
inductive Run (cl : Client σ τ L C) (Asm : σ → Prop) : Config σ τ L → Config σ τ L → Prop where
  | refl (c : Config σ τ L) : Run cl Asm c c
  | tail {c0 c c' : Config σ τ L} (e : Event τ C) : Run cl Asm c0 c → c.exec cl e = some c' →
      Asm c'.shared → Run cl Asm c0 c'

variable {b c c' : Config σ τ L}

theorem Run.trans {cl : Client σ τ L C} {Asm : σ → Prop} {a : Config σ τ L} (h : Run cl Asm a b)
    (h' : Run cl Asm b c) : Run cl Asm a c := by
  induction h' with
  | refl => exact h
  | tail e _ he ha ih => exact .tail e ih he ha

theorem Run.mono {cl : Client σ τ L C} {Asm Asm' : σ → Prop} {a : Config σ τ L} (h : Run cl Asm a b)
    (hA : ∀ s, Asm s → Asm' s) : Run cl Asm' a b := by
  induction h with
  | refl => exact .refl _
  | tail e _ he ha ih => exact .tail e ih he (hA _ ha)

/-- A schedule that can be run to its end is a run. -/
theorem Run.of_execAll {cl : Client σ τ L C} {chk : σ → Bool} {Asm : σ → Prop} (hA : ∀ s, chk s = true → Asm s)
    {es : List (Event τ C)} (h : c.execAll cl chk es = some c') : Run cl Asm c c' := by
  induction es generalizing c with
  | nil => obtain rfl : c = c' := Option.some.inj h; exact .refl c
  | cons e es ih =>
    simp only [execAll, Option.bind_eq_some_iff] at h
    obtain ⟨c1, h1, h2⟩ := h
    cases hc : chk c1.shared with
    | false => rw [hc] at h2; cases h2
    | true =>
      rw [hc] at h2
      exact Run.trans (.tail e (.refl c) h1 (hA _ hc)) (ih h2)

/-- What an event does: a call begins, a call ends, a program takes a step,
or a thread panics. -/
theorem exec_cases {cl : Client σ τ L C} {e : Event τ C} (h : c.exec cl e = some c') :
    c.panicked = none ∧
    ((∃ t l x, c.thread t = .idle l ∧ cl.allowed t l x = true ∧
        c' = { c with thread := update c.thread t (.run (cl.body x l)) }) ∨
     (∃ t l, c.thread t = .run (.ret l) ∧
        c' = { c with thread := update c.thread t (.idle l) }) ∨
     (∃ t n p p' s, c.thread t = .run p ∧ p.next t n c.shared = .ok p' s ∧
        c' = { c with shared := s, thread := update c.thread t (.run p') }) ∨
     ∃ t n p m, c.thread t = .run p ∧ p.next t n c.shared = .panic m ∧
        c' = { c with panicked := some m }) := by
  cases e with
  | call t x =>
    simp only [exec] at h
    split at h
    · rename_i l hp hl
      rw [cond_eq_ite] at h
      split at h
      · exact ⟨hp, .inl ⟨t, l, x, hl, ‹_›, (Option.some.inj h).symm⟩⟩
      · cases h
    · cases h
  | step t n =>
    simp only [exec] at h
    split at h
    · rename_i l hp hl
      exact ⟨hp, .inr (.inl ⟨t, l, hl, (Option.some.inj h).symm⟩)⟩
    · rename_i p _ hp hl
      refine ⟨hp, ?_⟩
      split at h
      · exact .inr (.inr (.inl ⟨t, n, p, _, _, hl, ‹_›, (Option.some.inj h).symm⟩))
      · cases h
      · exact .inr (.inr (.inr ⟨t, n, p, _, hl, ‹_›, (Option.some.inj h).symm⟩))
    · cases h

end Config

/-! ## Safe programs -/

section Safe

variable (Asm : σ → Prop) (Inv : σ → (τ → G) → Prop) (Ok : String → Prop) (t : τ)

/-- For `n` steps of thread `t`, whose ghost value is `g`, the program keeps
the invariant and panics only with messages that are `Ok`, and if it returns
within them, its value and `t`'s ghost value satisfy `Q`. -/
def SafeN : Nat → {α : Type} → Prog σ τ α → G → (α → G → Prop) → Prop
  | 0, _, _, _, _ => True
  | _ + 1, _, .ret a, g, Q => Q a g
  | n + 1, _, .act f k, g, Q => ∀ s γ, Inv s γ → γ t = g →
      (f t s).Post (fun b s' => Asm s' → ∃ g', Inv s' (update γ t g') ∧ SafeN n (k b) g' Q) Ok
  | n + 1, _, .any k, g, Q => ∀ i, SafeN n (k i) g Q
  | n + 1, _, .iter f b k, g, Q => SafeN n (Prog.unfold f b k) g Q

/-- The program keeps the invariant, and what it returns satisfies `Q`. -/
def Safe {α : Type} (p : Prog σ τ α) (g : G) (Q : α → G → Prop) : Prop :=
  ∀ n, SafeN Asm Inv Ok t n p g Q

variable {Asm : σ → Prop} {Inv : σ → (τ → G) → Prop} {Ok : String → Prop} {t : τ} {α β γ : Type}

variable {n : Nat} {g : G} {p : Prog σ τ α} {q : α → Prog σ τ β} {Q Q' R : α → G → Prop}

theorem SafeN.mono (h : SafeN Asm Inv Ok t n p g Q) (hQ : ∀ a g, Q a g → Q' a g) : SafeN Asm Inv Ok t n p g Q' := by
  induction n generalizing α p g with
  | zero => trivial
  | succ n ih =>
    cases p with
    | ret a => exact hQ _ _ h
    | act f k =>
      intro s γ hi hg
      refine (h s γ hi hg).mono fun b s' h ha => ?_
      obtain ⟨g', hi', h'⟩ := h ha
      exact ⟨g', hi', ih h' hQ⟩
    | any k => exact fun i => ih (h i) hQ
    | iter f b k => exact ih (p := Prog.unfold f b k) h hQ

theorem SafeN.le {m : Nat} (hnm : n ≤ m) (h : SafeN Asm Inv Ok t m p g Q) : SafeN Asm Inv Ok t n p g Q := by
  induction n generalizing α p g m with
  | zero => trivial
  | succ n ih =>
    obtain ⟨m, rfl⟩ : ∃ k, m = k + 1 := ⟨m - 1, by omega⟩
    cases p with
    | ret a => exact h
    | act f k =>
      intro s γ hi hg
      refine (h s γ hi hg).mono fun b s' h ha => ?_
      obtain ⟨g', hi', h'⟩ := h ha
      exact ⟨g', hi', ih (by omega) h'⟩
    | any k => exact fun i => ih (by omega) (h i)
    | iter f b k => exact ih (p := Prog.unfold f b k) (m := m) (by omega) h

theorem SafeN.bind {Q : β → G → Prop} (h : SafeN Asm Inv Ok t n p g R)
    (hq : ∀ a g', R a g' → SafeN Asm Inv Ok t n (q a) g' Q) : SafeN Asm Inv Ok t n (p.bind q) g Q := by
  induction n generalizing α p g with
  | zero => trivial
  | succ n ih =>
    cases p with
    | ret a => exact hq _ _ h
    | act f k =>
      intro s γ hi hg
      refine (h s γ hi hg).mono fun b s' h ha => ?_
      obtain ⟨g', hi', h'⟩ := h ha
      exact ⟨g', hi', ih h' fun a g' hR => (hq a g' hR).le (Nat.le_succ n)⟩
    | any k => exact fun i => ih (h i) fun a g' hR => (hq a g' hR).le (Nat.le_succ n)
    | iter f b k =>
      show SafeN Asm Inv Ok t n (Prog.unfold f b fun c => (k c).bind q) g Q
      rw [← Prog.unfold_bind]
      exact ih (p := Prog.unfold f b k) h fun a g' hR => (hq a g' hR).le (Nat.le_succ n)

namespace Safe

theorem mono (h : Safe Asm Inv Ok t p g Q) (hQ : ∀ a g, Q a g → Q' a g) : Safe Asm Inv Ok t p g Q' := fun n => (h n).mono hQ

theorem ret {a : α} (h : Q a g) : Safe Asm Inv Ok t (.ret a) g Q := fun n => by
  cases n with
  | zero => trivial
  | succ => exact h

theorem bind {Q : β → G → Prop} (h : Safe Asm Inv Ok t p g R) (hq : ∀ a g', R a g' → Safe Asm Inv Ok t (q a) g' Q) :
    Safe Asm Inv Ok t (p.bind q) g Q := fun n => (h n).bind fun a g' hR => hq a g' hR n

/-- The ghost value after `p` is a function of what `p` returns. -/
theorem next {e : α → G} {Q : β → G → Prop}
    (h : Safe Asm Inv Ok t p g fun a g' => g' = e a) (hq : ∀ a, Safe Asm Inv Ok t (q a) (e a) Q) : Safe Asm Inv
      Ok t (p.bind q) g Q :=
  h.bind fun a _ he => he ▸ hq a

/-- An atomic step: it keeps the invariant, for some new ghost value. -/
theorem act {f : τ → σ → Res σ β} {k : β → Prog σ τ α} (R : β → G → Prop) (h : ∀ s γ, Inv s γ → γ t = g →
      (f t s).Post (fun b s' => Asm s' → ∃ g', Inv s' (update γ t g') ∧ R b g') Ok)
    (hk : ∀ b g', R b g' → Safe Asm Inv Ok t (k b) g' Q) : Safe Asm Inv Ok t (.act f k) g Q := fun n => by
  cases n with
  | zero => trivial
  | succ n =>
    intro s γ hi hg
    refine (h s γ hi hg).mono fun b s' h ha => ?_
    obtain ⟨g', hi', hR⟩ := h ha
    exact ⟨g', hi', hk _ _ hR n⟩

theorem step {f : τ → σ → Res σ α} (h : ∀ s γ, Inv s γ → γ t = g →
      (f t s).Post (fun a s' => Asm s' → ∃ g', Inv s' (update γ t g') ∧ Q a g') Ok) : Safe Asm Inv Ok t (Prog.step f) g Q :=
  act Q h fun _ _ hQ => ret hQ

theorem any {k : Nat → Prog σ τ α} (h : ∀ i, Safe Asm Inv Ok t (k i) g Q) : Safe Asm Inv Ok t (.any k) g Q := fun n => by
  cases n with
  | zero => trivial
  | succ n => exact fun i => h i n

/-- A loop, with the loop invariant `J`. -/
theorem loop {f : β → Prog σ τ (β ⊕ γ)} {J : β → G → Prop} {Q : γ → G → Prop}
    (hf : ∀ b g, J b g → Safe Asm Inv Ok t (f b) g fun r g' => match r with
      | .inl b' => J b' g'
      | .inr c => Q c g') {b : β} (hJ : J b g) : Safe Asm Inv Ok t (Prog.loop f b) g Q := by
  intro n
  induction n generalizing b g with
  | zero => trivial
  | succ n ih =>
    refine (hf b g hJ n).bind fun r g' hr => ?_
    cases r with
    | inl b' => exact ih hr
    | inr c => exact Safe.ret (t := t) (Q := Q) hr n

/-- A loop over `i < n`, with the loop invariant `J`. -/
theorem forFin {n : Nat} {f : Fin n → Prog σ τ (Option α)} {J : Nat → G → Prop}
    (hf : ∀ i g, J i.val g → Safe Asm Inv Ok t (f i) g fun r g' => match r with
      | some x => R x g'
      | none => J (i.val + 1) g') (hJ : J 0 g) :
    Safe Asm Inv Ok t (Prog.forFin n f) g fun r g' => match r with
      | some x => R x g'
      | none => J n g' := by
  refine loop (J := fun i g => i ≤ n ∧ J i g) (fun i g hi => ?_) ⟨Nat.zero_le _, hJ⟩
  split
  · rename_i h
    refine bind (hf ⟨i, h⟩ g hi.2) fun r g' hr => ?_
    cases r with
    | some x => exact ret hr
    | none => exact ret ⟨h, hr⟩
  · obtain rfl : i = n := Nat.le_antisymm hi.1 (Nat.le_of_not_lt ‹_›)
    exact ret hi.2

/-- A program whose steps all keep the invariant as it is. -/
theorem of_does {R : σ → σ → Prop} {P : String → Prop} (h : p.Does R P)
    (hR : ∀ s s' γ, R s s' → Inv s γ → Inv s' γ) (hP : ∀ m, P m → Ok m) (g : G) :
    Safe Asm Inv Ok t p g fun _ g' => g' = g := by
  intro n
  induction n generalizing α p with
  | zero => trivial
  | succ n ih =>
    cases p with
    | ret a => rfl
    | act f k =>
      intro s γ hi hg
      have hf := h.1 t s
      revert hf
      cases f t s with
      | ok b s' =>
        refine fun hf _ => ⟨g, ?_, ih (h.2 b)⟩
        rw [← hg, update_eq_self]
        exact hR s s' γ hf hi
      | wait => exact fun _ => trivial
      | panic m => exact fun hf => hP m hf
    | any k => exact fun i => ih (h i)
    | iter f b k => exact ih h.unfold

end Safe

end Safe

/-! ## The invariant in every run -/

section Adequacy

variable {cl : Client σ τ L C} {Asm : σ → Prop} {Inv : σ → (τ → G) → Prop} {Ok : String → Prop}

/-- What is known of a thread: an idle one's local state agrees with its
ghost value, and a running one's program is safe. -/
def ThreadOk (Asm : σ → Prop) (Inv : σ → (τ → G) → Prop) (Ok : String → Prop) (Idle : L → G → Prop) (t : τ) :
    Thread σ τ L → G → Prop
  | .idle l, g => Idle l g
  | .run p, g => Safe Asm Inv Ok t p g Idle

variable {n k : Nat} {g : G} {t : τ} {α : Type} {p p' : Prog σ τ α} {s s' : σ} {Q : α → G → Prop} {γ : τ → G}

theorem SafeN.next (h : SafeN Asm Inv Ok t (n + 1) p g Q) (hi : Inv s γ) (hg : γ t = g)
    (hn : p.next t k s = .ok p' s') (ha : Asm s') :
    ∃ g', Inv s' (update γ t g') ∧ SafeN Asm Inv Ok t n p' g' Q := by
  cases p with
  | ret => simp [Prog.next] at hn
  | act f q =>
    simp only [Prog.next] at hn
    have := h s γ hi hg
    revert this hn
    cases f t s with
    | ok b s1 =>
      simp only [Res.ok.injEq]
      rintro ⟨rfl, rfl⟩ this
      exact this ha
    | wait => simp
    | panic m => simp
  | any q =>
    simp only [Prog.next, Res.ok.injEq] at hn
    obtain ⟨rfl, rfl⟩ := hn
    exact ⟨g, by rwa [← hg, update_eq_self], h k⟩
  | iter f b q =>
    simp only [Prog.next, Res.ok.injEq] at hn
    obtain ⟨rfl, rfl⟩ := hn
    exact ⟨g, by rwa [← hg, update_eq_self], h⟩

theorem SafeN.panic {m : String} (h : SafeN Asm Inv Ok t (n + 1) p g Q) (hi : Inv s γ) (hg : γ t = g)
    (hn : p.next t k s = .panic m) : Ok m := by
  cases p with
  | act f q =>
    simp only [Prog.next] at hn
    have := h s γ hi hg
    revert this hn
    cases f t s <;> simp
    rintro rfl h; exact h
  | _ => simp [Prog.next] at hn

theorem SafeN.reach (hr : Prog.Reach t p s p' s') : ∃ m, ∀ n γ, SafeN (fun _ => True) Inv Ok t (n + m) p (γ t) Q → Inv s γ →
      ∃ g, Inv s' (update γ t g) ∧ SafeN (fun _ => True) Inv Ok t n p' g Q := by
  induction hr with
  | refl p s => exact ⟨0, fun n γ h hi => ⟨γ t, by rwa [update_eq_self], h⟩⟩
  | next k hn _ ih =>
    obtain ⟨m, ih⟩ := ih
    refine ⟨m + 1, fun n γ h hi => ?_⟩
    obtain ⟨g, hi', h'⟩ := h.next hi rfl hn trivial
    obtain ⟨g', hi'', h''⟩ := ih n (update γ t g) (by rwa [update_self]) hi'
    exact ⟨g', by rwa [update_idem] at hi'', h''⟩

/-- A thread that runs alone: in every state that it reaches the invariant
holds, with the other threads' ghost values unchanged, and what it returns
satisfies `Q`. -/
theorem Safe.reach (h : Safe (fun _ => True) Inv Ok t p (γ t) Q) (hi : Inv s γ) (hr : Prog.Reach t p s p' s') :
    ∃ g, Inv s' (update γ t g) ∧ ∀ a, p' = .ret a → Q a g := by
  obtain ⟨m, hm⟩ := @SafeN.reach _ _ _ _ Inv Ok t _ _ _ _ _ Q hr
  obtain ⟨g, hi', hs⟩ := hm 1 γ (h _) hi
  exact ⟨g, hi', fun a e => by subst e; exact hs⟩

/-- The invariant holds in every state of a run, for some ghost values that
agree with the threads, and a panic's message is `Ok`: if it holds at the
start, and every call that an idle thread may make is safe. Ghost values may
be chosen anew at each step, so safety is needed for every number of steps;
that is where `n` is taken. -/
theorem Config.Run.inv (Idle : L → G → Prop) {c0 c : Config σ τ L} (hr : Run cl Asm c0 c) {γ0 : τ → G} (h0 : Inv c0.shared γ0)
    (ht0 : ∀ t, ThreadOk Asm Inv Ok Idle t (c0.thread t) (γ0 t)) (hp0 : c0.panicked = none)
    (hcall : ∀ t l g x, Idle l g → cl.allowed t l x = true → Safe Asm Inv Ok t (cl.body x l) g Idle) :
    (∀ n, ∃ γ, Inv c.shared γ ∧ ∀ t, match c.thread t with
      | .idle l => Idle l (γ t)
      | .run p => SafeN Asm Inv Ok t n p (γ t) Idle) ∧ ∀ m, c.panicked = some m → Ok m := by
  induction hr with
  | refl =>
    refine ⟨fun n => ⟨γ0, h0, fun t => ?_⟩, by simp [hp0]⟩
    have := ht0 t
    revert this
    cases c0.thread t with
    | idle l => exact id
    | run p => exact fun h => h n
  | @tail c c' e _ he ha ih =>
    obtain ⟨ih, -⟩ := ih
    obtain ⟨hp, h⟩ := exec_cases he
    rcases h with ⟨t, l, x, hl, hx, rfl⟩ | ⟨t, l, hl, rfl⟩ | ⟨t, k, p, p', s, hl, hn, rfl⟩ |
      ⟨t, k, p, m, hl, hn, rfl⟩
    · refine ⟨fun n => ?_, by simp [hp]⟩
      obtain ⟨γ, hi, ht⟩ := ih n
      refine ⟨γ, hi, fun u => ?_⟩
      have hu := ht u
      by_cases hut : u = t
      · subst hut
        simp only [hl] at hu
        simpa using hcall u l _ x hu hx n
      · simpa [update_of_ne hut] using hu
    · refine ⟨fun n => ?_, by simp [hp]⟩
      obtain ⟨γ, hi, ht⟩ := ih (n + 1)
      refine ⟨γ, hi, fun u => ?_⟩
      have hu := ht u
      by_cases hut : u = t
      · subst hut
        simp only [hl] at hu
        simpa using (show Idle l (γ u) from hu)
      · simp only [update_of_ne hut]
        revert hu
        cases c.thread u with
        | idle => exact id
        | run => exact fun h => h.le (Nat.le_succ n)
    · refine ⟨fun n => ?_, by simp [hp]⟩
      obtain ⟨γ, hi, ht⟩ := ih (n + 1)
      have hsafe := ht t
      simp only [hl] at hsafe
      obtain ⟨g', hi', hs'⟩ := hsafe.next hi rfl hn ha
      refine ⟨update γ t g', hi', fun u => ?_⟩
      have hu := ht u
      by_cases hut : u = t
      · subst hut
        simpa using hs'
      · simp only [update_of_ne hut]
        revert hu
        cases c.thread u with
        | idle => exact id
        | run => exact fun h => h.le (Nat.le_succ n)
    · refine ⟨ih, fun m' hm => ?_⟩
      obtain ⟨γ, hi, ht⟩ := ih 1
      have hsafe := ht t
      simp only [hl] at hsafe
      obtain rfl : m = m' := Option.some.inj hm
      exact hsafe.panic hi rfl hn

end Adequacy

end Xv6
