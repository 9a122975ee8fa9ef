import Xv6.Framework.Prog

/-!
# Programs over an interface

A program (`Eff`) that runs alone and reaches its state only through the
operations of an interface `Op`. A handler gives the operations a meaning
(`Eff.run`); the same program has a meaning for each handler.

`Res.Holds` is what a run must satisfy, with one rule for each construct of a
program. An operation that waits has no meaning in that state, and no run that
satisfies anything calls it.
-/

namespace Xv6

namespace Res

variable {σ σ' : Type} {α : Type} {Q Q' : α → σ → Prop} {P P' : String → Prop}

/-- A result satisfies `Q`, a panic's message `P`, and the run does not wait. -/
def Holds (Q : α → σ → Prop) (P : String → Prop) : Res σ α → Prop
  | .ok a s => Q a s
  | .wait => False
  | .panic m => P m

theorem Holds.mono {r : Res σ α} (h : r.Holds Q P) (hQ : ∀ a s, Q a s → Q' a s) (hP : ∀ m, P m → P' m) :
    r.Holds Q' P' := by
  cases r with
  | ok a s => exact hQ a s h
  | wait => exact h
  | panic m => exact hP m h

end Res

/-- Programs that call the operations `Op`. -/
inductive Eff (Op : Type → Type 1) (α : Type) : Type 1 where
  | ret (a : α)
  | op {β : Type} (o : Op β) (k : β → Eff Op α)

/-- The meaning of the operations on the state `σ`. -/
abbrev Handler (Op : Type → Type 1) (σ : Type) := (β : Type) → Op β → σ → Res σ β

namespace Eff

variable {Op : Type → Type 1} {σ σ' : Type} {α β : Type}

def bind {α β : Type} : Eff Op α → (α → Eff Op β) → Eff Op β
  | .ret a, q => q a
  | .op o k, q => .op o fun b => (k b).bind q

instance : Monad (Eff Op) where
  pure := .ret
  bind := .bind

def call (o : Op α) : Eff Op α := .op o .ret

/-- A run of the program, from the state `s`. -/
def run (h : Handler Op σ) {α : Type} : Eff Op α → σ → Res σ α
  | .ret a, s => .ok a s
  | .op o k, s => match h _ o s with
    | .ok b s' => (k b).run h s'
    | .wait => .wait
    | .panic m => .panic m

theorem run_bind (h : Handler Op σ) (p : Eff Op α) (q : α → Eff Op β) (s : σ) :
    (p >>= q).run h s = match p.run h s with
      | .ok a s' => (q a).run h s'
      | .wait => .wait
      | .panic m => .panic m := by
  induction p generalizing s with
  | ret a => rfl
  | op o k ih =>
    show run h (.op o fun b => (k b).bind q) s = _
    simp only [run]
    cases h _ o s with
    | ok b s' => exact ih b s'
    | wait => rfl
    | panic m => rfl

theorem run_bind_ok {h : Handler Op σ} {p : Eff Op α} {s s' : σ} {a : α} (hp : p.run h s = .ok a s') (q : α → Eff Op β) :
    (p >>= q).run h s = (q a).run h s' := by
  rw [run_bind, hp]

theorem of_run_bind {h : Handler Op σ} {p : Eff Op α} {q : α → Eff Op β} {s s' : σ} {b : β}
    (hr : (p >>= q).run h s = .ok b s') : ∃ a s1, p.run h s = .ok a s1 ∧ (q a).run h s1 = .ok b s' := by
  rw [run_bind] at hr
  cases hp : p.run h s with
  | ok a s1 =>
    rw [hp] at hr
    exact ⟨a, s1, rfl, hr⟩
  | wait =>
    rw [hp] at hr
    cases hr
  | panic m =>
    rw [hp] at hr
    cases hr

theorem run_call_ok {h : Handler Op σ} {o : Op α} {s s' : σ} {a : α} (ho : h _ o s = .ok a s') (q : α → Eff Op β) :
    (call o >>= q).run h s = (q a).run h s' := by
  refine run_bind_ok ?_ q
  simp only [call, run, ho]

/-! ## Rules -/

section Rules

variable {h : Handler Op σ} {P : String → Prop} {s : σ}

/-- Every run of `p` from `s` ends with a result that satisfies `Q`, or with a
panic that satisfies `P`. -/
def Spec (h : Handler Op σ) (P : String → Prop) (s : σ) (p : Eff Op α) (Q : α → σ → Prop) : Prop :=
  (p.run h s).Holds Q P

variable {Q Q' : α → σ → Prop}

theorem Spec.mono {p : Eff Op α} (hp : Spec h P s p Q) (hQ : ∀ a s, Q a s → Q' a s) : Spec h P s p Q' :=
  Res.Holds.mono hp hQ fun _ => id

theorem Spec.ret {a : α} (hq : Q a s) : Spec h P s (pure a) Q := hq

theorem Spec.bind {p : Eff Op α} {q : α → Eff Op β} {R : β → σ → Prop} (hp : Spec h P s p Q)
    (hq : ∀ a s', Q a s' → Spec h P s' (q a) R) : Spec h P s (p >>= q) R := by
  unfold Spec at *
  rw [run_bind]
  cases hr : p.run h s with
  | ok a s' => rw [hr] at hp; exact hq a s' hp
  | wait => rw [hr] at hp; exact hp
  | panic m => rw [hr] at hp; exact hp

theorem Spec.call {o : Op α} (ho : (h _ o s).Holds Q P) : Spec h P s (Eff.call o) Q := by
  unfold Spec Eff.call
  simp only [run]
  cases hr : h _ o s with
  | ok b s' => rw [hr] at ho; exact ho
  | wait => rw [hr] at ho; exact ho
  | panic m => rw [hr] at ho; exact ho

end Rules

/-! ## Simulation -/

/-- If the operations of the handler `h` do what those of `h'` do, on states that `R` relates, then so do whole programs.
A panic of `h` that `h'` does not have satisfies `P`. -/
theorem run_simulates {h : Handler Op σ} {h' : Handler Op σ'} {R : σ → σ' → Prop} {P : String → Prop}
    (hop : ∀ (β : Type) (o : Op β) s t, R s t →
      (h β o s).Holds (fun b s' => ∃ t', h' β o t = .ok b t' ∧ R s' t') fun m => h' β o t = .panic m ∨ P m)
    (p : Eff Op α) {s : σ} {t : σ'} (hR : R s t) :
    (p.run h s).Holds (fun a s' => ∃ t', p.run h' t = .ok a t' ∧ R s' t') fun m => p.run h' t = .panic m ∨ P m := by
  induction p generalizing s t with
  | ret a => exact ⟨t, rfl, hR⟩
  | @op β o k ih =>
    have ho := hop β o s t hR
    simp only [run]
    cases hr : h β o s with
    | ok b s' =>
      rw [hr] at ho
      obtain ⟨t', ht, hR'⟩ := ho
      simp only [ht]
      exact ih b hR'
    | wait => rw [hr] at ho; exact ho
    | panic m =>
      rw [hr] at ho
      exact ho.imp_left fun ht => by simp only [ht]

end Eff

end Xv6
