import Mathlib.Logic.Function.Basic

/-!
# Kernel threads as programs of atomic steps

A kernel function is a program (`Prog`) over a shared state: a tree whose
nodes are atomic steps on the state (`act`: a section under a spinlock, one
disk transfer, an assignment), inputs from outside the kernel (`any`), and
unbounded loops (`iter`). An atomic step returns a value, panics, or waits
(a lock that is taken, a `sleep` whose condition does not hold yet).

`Prog.next` is one step of one thread. `Runs` is total correctness of a
program that runs alone, with an assertion that holds in every state on the
way: what a crash in the middle of it can leave behind.
-/

namespace Xv6

open Function

/-- What an update keeps of the value that it changes, it keeps of all. -/
theorem update_keep {ι β δ : Type} [DecidableEq ι] {f f' : ι → β} {i : ι} (φ : β → δ) {x : β} (hf : f' = update f i x)
    (hx : φ x = φ (f i)) (j : ι) : φ (f' j) = φ (f j) := by
  rw [hf]
  rcases eq_or_ne j i with rfl | hj
  · rw [update_self, hx]
  · rw [update_of_ne hj]

universe u

/-- What an atomic step does: it returns a value in a new state, cannot go
on yet, or panics. -/
inductive Res (σ : Type) (α : Type u) where
  | ok (a : α) (s : σ)
  | wait
  | panic (msg : String)

namespace Res

variable {σ : Type} {α : Type u} {Q Q' : α → σ → Prop} {P : String → Prop}

/-- A result satisfies `Q`, a panic's message `P`. -/
def Post (Q : α → σ → Prop) (P : String → Prop) : Res σ α → Prop
  | .ok a s => Q a s
  | .wait => True
  | .panic m => P m

@[simp] theorem post_ok (a : α) (s : σ) : (Res.ok a s).Post Q P ↔ Q a s := Iff.rfl
@[simp] theorem post_wait : (Res.wait : Res σ α).Post Q P ↔ True := Iff.rfl
@[simp] theorem post_panic (m : String) : (Res.panic m : Res σ α).Post Q P ↔ P m := Iff.rfl

variable {r : Res σ α}

theorem Post.mono (h : r.Post Q P) (hQ : ∀ a s, Q a s → Q' a s) : r.Post Q' P := by
  cases r with
  | ok a s => exact hQ a s h
  | wait => trivial
  | panic m => exact h

/-- The result is a panic with this message. -/
def panics (m : String) : Res σ α → Bool
  | .panic m' => m' = m
  | _ => false

/-- The result is a value and a state of which `p` is true. -/
def test (p : α → σ → Bool) : Res σ α → Bool
  | .ok a s => p a s
  | _ => false

theorem test_iff {p : α → σ → Bool} : r.test p = true ↔ ∃ a s, r = .ok a s ∧ p a s = true := by
  cases r with
  | ok a s =>
    constructor
    · intro h
      exact ⟨a, s, rfl, h⟩
    · rintro ⟨_, _, ⟨⟩, h⟩
      exact h
  | wait => simp [test]
  | panic m => simp [test]

theorem panics_iff {m : String} : r.panics m = true ↔ r = .panic m := by
  cases r <;> simp [panics]

end Res

/-- Programs of the threads `τ` over the shared state `σ`. -/
inductive Prog (σ τ : Type) : Type → Type 1 where
  | ret {α : Type} (a : α) : Prog σ τ α
  | act {α β : Type} (f : τ → σ → Res σ β) (k : β → Prog σ τ α) : Prog σ τ α
  | any {α : Type} (k : Nat → Prog σ τ α) : Prog σ τ α
  | iter {α β γ : Type} (f : β → Prog σ τ (β ⊕ γ)) (b : β) (k : γ → Prog σ τ α) : Prog σ τ α

namespace Prog

variable {σ τ : Type} {α β γ : Type}

def bind {α β : Type} : Prog σ τ α → (α → Prog σ τ β) → Prog σ τ β
  | .ret a, q => q a
  | .act f k, q => .act f fun b => (k b).bind q
  | .any k, q => .any fun n => (k n).bind q
  | .iter f b k, q => .iter f b fun c => (k c).bind q

instance : Monad (Prog σ τ) where
  pure := .ret
  bind := .bind

def step (f : τ → σ → Res σ α) : Prog σ τ α := .act f .ret

/-- The loop `for (b = …;;)`: its body returns the next loop state, or the
value the loop ends with. -/
def loop (f : β → Prog σ τ (β ⊕ γ)) (b : β) : Prog σ τ γ := .iter f b .ret

/-- The loop `for (i = 0; i < n; i++)`; its body may end it with a value. -/
def forFin (n : Nat) (f : Fin n → Prog σ τ (Option α)) : Prog σ τ (Option α) :=
  loop (fun i => if h : i < n then do
      match ← f ⟨i, h⟩ with
      | some a => return .inr (some a)
      | none => return .inl (i + 1)
    else return .inr none) 0

/-- A loop, with its first iteration unfolded. -/
def unfold (f : β → Prog σ τ (β ⊕ γ)) (b : β) (k : γ → Prog σ τ α) : Prog σ τ α :=
  (f b).bind fun
    | .inl b' => .iter f b' k
    | .inr c => k c

theorem bind_eq (p : Prog σ τ α) (q : α → Prog σ τ β) : (p >>= q) = p.bind q := rfl

theorem bind_assoc (p : Prog σ τ α) (q : α → Prog σ τ β) (r : β → Prog σ τ γ) :
    (p.bind q).bind r = p.bind fun a => (q a).bind r := by
  induction p with
  | ret a => rfl
  | act f k ih => simp only [bind, ih]
  | any k ih => simp only [bind, ih]
  | iter f b k _ ih => simp only [bind, ih]

theorem unfold_bind (f : β → Prog σ τ (β ⊕ γ)) (b : β) (k : γ → Prog σ τ α) {δ : Type}
    (q : α → Prog σ τ δ) : (unfold f b k).bind q = unfold f b fun c => (k c).bind q := by
  simp only [unfold, bind_assoc]
  congr 1
  funext r
  cases r <;> rfl

/-- One step of thread `t`, whose next input is `n`. A program that has
returned waits. -/
def next (t : τ) (n : Nat) : Prog σ τ α → σ → Res σ (Prog σ τ α)
  | .ret _, _ => .wait
  | .act f k, s => match f t s with
    | .ok b s' => .ok (k b) s'
    | .wait => .wait
    | .panic m => .panic m
  | .any k, s => .ok (k n) s
  | .iter f b k, s => .ok (unfold f b k) s

/-- The states a thread running alone goes through. -/
inductive Reach (t : τ) : Prog σ τ α → σ → Prog σ τ α → σ → Prop where
  | refl (p : Prog σ τ α) (s : σ) : Reach t p s p s
  | next {p p' p'' : Prog σ τ α} {s s' s'' : σ} (n : Nat) : p.next t n s = .ok p' s' →
      Reach t p' s' p'' s'' → Reach t p s p'' s''

variable {ρ : Type} {p p' : Prog σ τ α}

theorem Reach.trans {t : τ} {p'' : Prog σ τ α} {s s' s'' : σ} (h : Reach t p s p' s')
    (h' : Reach t p' s' p'' s'') : Reach t p s p'' s'' := by
  induction h with
  | refl => exact h'
  | next n hn _ ih => exact .next n hn (ih h')

/-- The first part of a program runs as it does alone. -/
theorem Reach.bind {t : τ} {s s' : σ} (h : Reach t p s p' s') (q : α → Prog σ τ β) :
    Reach t (p.bind q) s (p'.bind q) s' := by
  induction h with
  | refl => exact .refl _ _
  | @next p p1 _ s s1 _ n hn _ ih =>
    refine .next n ?_ ih
    cases p with
    | ret => simp [Prog.next] at hn
    | act f k =>
      simp only [Prog.next, Prog.bind] at hn ⊢
      cases hf : f t s with
      | ok b s2 =>
        simp only [hf, Res.ok.injEq] at hn
        obtain ⟨rfl, rfl⟩ := hn
        rfl
      | wait => simp [hf] at hn
      | panic m => simp [hf] at hn
    | any k =>
      simp only [Prog.next, Prog.bind, Res.ok.injEq] at hn ⊢
      obtain ⟨rfl, rfl⟩ := hn
      exact ⟨rfl, rfl⟩
    | iter f b k =>
      simp only [Prog.next, Prog.bind, Res.ok.injEq] at hn ⊢
      obtain ⟨rfl, rfl⟩ := hn
      exact ⟨(unfold_bind f b k q).symm, rfl⟩

/-- `J` holds in every state that the thread reaches. -/
def Always (t : τ) (J : σ → Prop) (p : Prog σ τ α) (s : σ) : Prop := ∀ p' s', Reach t p s p' s' → J s'

namespace Always

variable {t : τ} {J : σ → Prop} {s s' : σ}

variable {p : Prog σ τ α} {b : β}

theorem holds (h : Always t J p s) : J s := h p s (.refl p s)

theorem act {f : τ → σ → Res σ β} {k : β → Prog σ τ α} (h : Always t J (.act f k) s)
    (hf : f t s = .ok b s') : Always t J (k b) s' :=
  fun p' s'' hr => h p' s'' (.next 0 (by simp [Prog.next, hf]) hr)

theorem iter {f : β → Prog σ τ (β ⊕ γ)} {k : γ → Prog σ τ α} (h : Always t J (.iter f b k) s) :
    Always t J (unfold f b k) s := fun p' s' hr => h p' s' (.next 0 rfl hr)

theorem bind {q : α → Prog σ τ β} {a : α} (h : Always t J (p.bind q) s)
    (hp : Reach t p s (.ret a) s') : Always t J (q a) s' := fun p' s'' hr => h p' s'' ((hp.bind q).trans hr)

end Always

/-! ## What every step does -/

/-- Every step of the program moves the state by `R`, and the message of every
panic satisfies `P`. -/
def Does (R : σ → σ → Prop) (P : String → Prop) : {α : Type} → Prog σ τ α → Prop
  | _, .ret _ => True
  | _, .act f k => (∀ t s, (f t s).Post (fun _ s' => R s s') P) ∧ ∀ b, Does R P (k b)
  | _, .any k => ∀ n, Does R P (k n)
  | _, .iter f _ k => (∀ b, Does R P (f b)) ∧ ∀ c, Does R P (k c)

namespace Does

variable {R : σ → σ → Prop} {P : String → Prop}

theorem ret (a : α) : Does R P (.ret a : Prog σ τ α) := trivial

theorem step {f : τ → σ → Res σ α} (h : ∀ t s, (f t s).Post (fun _ s' => R s s') P) : Does R P (Prog.step f) :=
  ⟨h, fun _ => trivial⟩

theorem bind {p : Prog σ τ α} {q : α → Prog σ τ β} (hp : Does R P p) (hq : ∀ a, Does R P (q a)) :
    Does R P (p.bind q) := by
  induction p with
  | ret a => exact hq a
  | act f k ih => exact ⟨hp.1, fun b => ih b (hp.2 b) hq⟩
  | any k ih => exact fun n => ih n (hp n) hq
  | iter f b k _ ih => exact ⟨hp.1, fun c => ih c (hp.2 c) hq⟩

variable {f : β → Prog σ τ (β ⊕ γ)}

theorem loop (hf : ∀ b, Does R P (f b)) (b : β) : Does R P (Prog.loop f b) :=
  ⟨hf, fun _ => trivial⟩

theorem unfold {b : β} {k : γ → Prog σ τ α} (h : Does R P (.iter f b k)) :
    Does R P (Prog.unfold f b k) := by
  refine bind (h.1 b) fun r => ?_
  cases r with
  | inl b' => exact h
  | inr c => exact h.2 c

end Does

/-- A program on the part `get s` of the state. -/
def zoom {ρ : Type} (get : ρ → σ) (set : ρ → σ → ρ) : {α : Type} → Prog σ τ α → Prog ρ τ α
  | _, .ret a => .ret a
  | _, .act f k => .act (fun t s => match f t (get s) with
      | .ok b x => .ok b (set s x)
      | .wait => .wait
      | .panic m => .panic m) fun b => zoom get set (k b)
  | _, .any k => .any fun n => zoom get set (k n)
  | _, .iter f b k => .iter (fun b => zoom get set (f b)) b fun c => zoom get set (k c)

theorem zoom_bind (get : ρ → σ) (set : ρ → σ → ρ) (p : Prog σ τ α) (q : α → Prog σ τ β) :
    (p.bind q).zoom get set = (p.zoom get set).bind fun a => (q a).zoom get set := by
  induction p with
  | ret a => rfl
  | act f k ih => simp only [bind, zoom, ih]
  | any k ih => simp only [bind, zoom, ih]
  | iter f b k _ ih => simp only [bind, zoom, ih]

theorem Does.zoom {get : ρ → σ} {set : ρ → σ → ρ} {R : σ → σ → Prop} {R' : ρ → ρ → Prop} {P P' : String → Prop}
    (h : Does R P p) (hR : ∀ s x, R (get s) x → R' s (set s x)) (hP : ∀ m, P m → P' m) :
    Does R' P' (p.zoom get set) := by
  induction p with
  | ret a => trivial
  | act f k ih =>
    refine ⟨fun t s => ?_, fun b => ih b (h.2 b)⟩
    have hf := h.1 t (get s)
    revert hf
    dsimp only
    cases f t (get s) with
    | ok b x => exact fun hf => hR s x hf
    | wait => exact fun _ => trivial
    | panic m => exact fun hf => hP m hf
  | any k ih => exact fun n => ih n (h n)
  | iter f b k ihf ihk => exact ⟨fun b => ihf b (h.1 b), fun c => ihk c (h.2 c)⟩

/-- `n` steps of a thread running alone, with inputs 0. -/
def exec (t : τ) : Nat → Prog σ τ α → σ → Option (Prog σ τ α × σ)
  | 0, p, s => some (p, s)
  | n + 1, p, s => match p.next t 0 s with
    | .ok p' s' => exec t n p' s'
    | _ => none

theorem Reach.of_exec {t : τ} {n : Nat} {s s' : σ} (h : exec t n p s = some (p', s')) :
    Reach t p s p' s' := by
  induction n generalizing p s with
  | zero =>
    simp only [exec, Option.some.injEq, Prod.mk.injEq] at h
    obtain ⟨rfl, rfl⟩ := h
    exact .refl p s
  | succ n ih =>
    simp only [exec] at h
    split at h
    · exact .next 0 ‹_› (ih h)
    · cases h

/-- Run alone by `t` from `s`, the program returns, in a state and with a
value satisfying `Q`, and `J` holds in every state on the way. -/
inductive Runs (t : τ) (J : σ → Prop) : {α : Type} → Prog σ τ α → σ → (α → σ → Prop) → Prop where
  | ret {α : Type} {a : α} {s : σ} {Q : α → σ → Prop} : J s → Q a s → Runs t J (.ret a) s Q
  | act {α β : Type} {f : τ → σ → Res σ β} {k : β → Prog σ τ α} {s s' : σ} {b : β}
      {Q : α → σ → Prop} : J s → f t s = .ok b s' → Runs t J (k b) s' Q → Runs t J (.act f k) s Q
  | any {α : Type} {k : Nat → Prog σ τ α} {s : σ} {Q : α → σ → Prop} : J s →
      (∀ n, Runs t J (k n) s Q) → Runs t J (.any k) s Q
  | iter {α β γ : Type} {f : β → Prog σ τ (β ⊕ γ)} {b : β} {k : γ → Prog σ τ α} {s : σ}
      {Q : α → σ → Prop} : J s → Runs t J (unfold f b k) s Q → Runs t J (.iter f b k) s Q

namespace Runs

variable {t : τ} {J : σ → Prop}

variable {p : Prog σ τ α} {a : α}

theorem bind {q : α → Prog σ τ β} {s : σ} {R : α → σ → Prop} {Q : β → σ → Prop}
    (h : Runs t J p s R) (hq : ∀ a s', R a s' → Runs t J (q a) s' Q) : Runs t J (p.bind q) s Q := by
  induction h with
  | ret _ hR => exact hq _ _ hR
  | act hJ hf _ ih => exact .act hJ hf (ih hq)
  | any hJ _ ih => exact .any hJ fun n => ih n hq
  | iter hJ _ ih =>
    refine .iter hJ ?_
    rw [← unfold_bind]
    exact ih hq

theorem mono {s : σ} {Q Q' : α → σ → Prop} (h : Runs t J p s Q) (hQ : ∀ a s', Q a s' → Q' a s') : Runs t J p s Q' := by
  induction h with
  | ret hJ h => exact .ret hJ (hQ _ _ h)
  | act hJ hf _ ih => exact .act hJ hf (ih hQ)
  | any hJ _ ih => exact .any hJ fun n => ih n hQ
  | iter hJ _ ih => exact .iter hJ (ih hQ)

theorem step {f : τ → σ → Res σ α} {s s' : σ} {Q : α → σ → Prop} (hJ : J s)
    (hf : f t s = .ok a s') (hJ' : J s') (hQ : Q a s') : Runs t J (Prog.step f) s Q :=
  .act hJ hf (.ret hJ' hQ)

/-- A counted loop: `I i` holds before iteration `i`, for `i < n`, and the
loop ends in a state satisfying `I n`. -/
theorem loopTo {f : Nat → Prog σ τ (Nat ⊕ γ)} {n : Nat} {I : Nat → σ → Prop} {Q : γ → σ → Prop} (hJ : ∀ i s, I i s → J s)
    (hbody : ∀ i s, i < n → I i s → Runs t J (f i) s fun r s' => r = .inl (i + 1) ∧ I (i + 1) s')
    (hlast : ∀ s, I n s → Runs t J (f n) s fun r s' => ∃ c, r = .inr c ∧ J s' ∧ Q c s')
    {i : Nat} {s : σ} (hi : i ≤ n) (hI : I i s) : Runs t J (loop f i) s Q := by
  obtain ⟨d, hd⟩ : ∃ d, n = i + d := ⟨n - i, by omega⟩
  induction d generalizing i s with
  | zero =>
    obtain rfl : n = i := by omega
    refine .iter (hJ _ _ hI) ((hlast s hI).bind ?_)
    rintro _ s' ⟨c, rfl, hJ', hQ⟩
    exact .ret hJ' hQ
  | succ d ih =>
    refine .iter (hJ _ _ hI) ((hbody i s (by omega) hI).bind ?_)
    rintro _ s' ⟨rfl, hI'⟩
    exact ih (by omega) hI' (by omega)

/-- Every state on the way satisfies `J`, and a program that has returned
has done so with `Q`. -/
theorem reach {p' : Prog σ τ α} {s s' : σ} {Q : α → σ → Prop} (h : Runs t J p s Q)
    (hr : Reach t p s p' s') : Runs t J p' s' Q := by
  induction hr with
  | refl => exact h
  | next n hn _ ih =>
    refine ih ?_
    cases h with
    | ret => simp [Prog.next] at hn
    | act _ hf hk =>
      simp only [Prog.next, hf, Res.ok.injEq] at hn
      obtain ⟨rfl, rfl⟩ := hn; exact hk
    | any _ hk =>
      simp only [Prog.next, Res.ok.injEq] at hn
      obtain ⟨rfl, rfl⟩ := hn; exact hk n
    | iter _ hk =>
      simp only [Prog.next, Res.ok.injEq] at hn
      obtain ⟨rfl, rfl⟩ := hn; exact hk

theorem inv {s : σ} {Q : α → σ → Prop} (h : Runs t J p s Q) : J s := by
  cases h <;> assumption

theorem of_ret {s : σ} {Q : α → σ → Prop} (h : Runs t J (.ret a) s Q) : Q a s := by
  cases h; assumption

/-- The program does return. -/
theorem returns {s : σ} {Q : α → σ → Prop} (h : Runs t J p s Q) :
    ∃ a s', Reach t p s (.ret a) s' ∧ Q a s' := by
  induction h with
  | ret _ hQ => exact ⟨_, _, .refl _ _, hQ⟩
  | act _ hf _ ih =>
    obtain ⟨a, s', hr, hQ⟩ := ih
    exact ⟨a, s', .next 0 (by simp [Prog.next, hf]) hr, hQ⟩
  | any _ _ ih =>
    obtain ⟨a, s', hr, hQ⟩ := ih 0
    exact ⟨a, s', .next 0 rfl hr, hQ⟩
  | iter _ _ ih =>
    obtain ⟨a, s', hr, hQ⟩ := ih
    exact ⟨a, s', .next 0 rfl hr, hQ⟩

end Runs

end Prog

end Xv6
