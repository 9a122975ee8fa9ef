import Xv6.Framework.Eff

/-!
# Code that runs alone

`Cmd σ α` is code that runs alone on the state `σ`: it returns, panics, or
(`hang`) does not return. `Cmd.Spec P s c Q`: from the state `s`, the code `c`
returns with `Q`, or panics with a message that satisfies `P`. There is one
rule for each construct; a loop over a list has an invariant over what it has
gone through (`Spec.forEach`).
-/

namespace Xv6

/-- Code that runs alone on the state `σ`. -/
structure Cmd (σ α : Type) where
  run : σ → Res σ α

namespace Cmd

variable {σ α β ι : Type}

instance : Monad (Cmd σ) where
  pure a := ⟨fun s => .ok a s⟩
  bind c k := ⟨fun s => match c.run s with
    | .ok a s' => (k a).run s'
    | .wait => .wait
    | .panic m => .panic m⟩

def get (f : σ → α) : Cmd σ α := ⟨fun s => .ok (f s) s⟩

def modify (f : σ → σ) : Cmd σ Unit := ⟨fun s => .ok () (f s)⟩

def panic (m : String) : Cmd σ α := ⟨fun _ => .panic m⟩

/-- Code that does not return. -/
def hang : Cmd σ α := ⟨fun _ => .wait⟩

/-- Code that runs only if `b` is set. -/
def when (b : Bool) (c : Cmd σ Unit) : Cmd σ Unit := if b then c else pure ()

/-- A `for` loop over a list. -/
def forEach (l : List ι) (body : ι → Cmd σ Unit) : Cmd σ Unit :=
  match l with
  | [] => pure ()
  | i :: l => do
    body i
    forEach l body

/-- Code on a part of the state. -/
def zoom {τ : Type} (get : τ → σ) (set : τ → σ → τ) (c : Cmd σ α) : Cmd τ α :=
  ⟨fun t => match c.run (get t) with
    | .ok a s => .ok a (set t s)
    | .wait => .wait
    | .panic m => .panic m⟩

variable {a : α} {k : α → Cmd σ β} {s' : σ}

theorem run_zoom {τ : Type} {get : τ → σ} {set : τ → σ → τ} {c : Cmd σ α} {t : τ} {s : σ} (h : c.run (get t) = .ok a s) :
    (c.zoom get set).run t = .ok a (set t s) := by
  show (match c.run (get t) with
    | .ok a s => .ok a (set t s)
    | .wait => .wait
    | .panic m => .panic m : Res τ α) = _
  rw [h]

theorem of_run_zoom {τ : Type} {get : τ → σ} {set : τ → σ → τ} {c : Cmd σ α} {t t' : τ}
    (h : (c.zoom get set).run t = .ok a t') :
    ∃ s, c.run (get t) = .ok a s ∧ t' = set t s := by
  unfold zoom at h
  dsimp only at h
  split at h
  · cases h
    exact ⟨_, ‹_›, rfl⟩
  · cases h
  · cases h

theorem run_pure (a : α) (s : σ) : (pure a : Cmd σ α).run s = .ok a s := rfl

theorem run_bind {c : Cmd σ α} {s : σ} (h : c.run s = .ok a s') :
    (c >>= k).run s = (k a).run s' := by
  show (match c.run s with
    | .ok a s' => (k a).run s'
    | .wait => .wait
    | .panic m => .panic m) = _
  rw [h]

theorem run_bind_panic {c : Cmd σ α} {s : σ} {m : String} (h : c.run s = .panic m) : (c >>= k).run s = .panic m := by
  show (match c.run s with
    | .ok a s' => (k a).run s'
    | .wait => .wait
    | .panic m => .panic m) = _
  rw [h]

theorem run_bind_wait {c : Cmd σ α} {s : σ} (h : c.run s = .wait) : (c >>= k).run s = .wait := by
  show (match c.run s with
    | .ok a s' => (k a).run s'
    | .wait => .wait
    | .panic m => .panic m) = _
  rw [h]

theorem of_run_bind {c : Cmd σ α} {s : σ} {b : β} (h : (c >>= k).run s = .ok b s') :
    ∃ a s1, c.run s = .ok a s1 ∧ (k a).run s1 = .ok b s' := by
  cases hc : c.run s with
  | ok a s1 => exact ⟨a, s1, rfl, (run_bind hc).symm.trans h⟩
  | wait =>
    rw [run_bind_wait hc] at h
    cases h
  | panic m =>
    rw [run_bind_panic hc] at h
    cases h

@[simp] theorem run_get (f : σ → α) (k : α → Cmd σ β) (s : σ) : (get f >>= k).run s = (k (f s)).run s := rfl

@[simp] theorem run_modify (f : σ → σ) (k : Unit → Cmd σ β) (s : σ) : (modify f >>= k).run s = (k ()).run (f s) := rfl

/-- From the state `s` the code returns with `Q`, or panics with `P`. -/
def Spec (P : String → Prop) (s : σ) (c : Cmd σ α) (Q : α → σ → Prop) : Prop := (c.run s).Holds Q P

variable {P : String → Prop} {s : σ} {c : Cmd σ α} {Q Q' : α → σ → Prop}

namespace Spec

theorem mono (h : Spec P s c Q) (hQ : ∀ a s, Q a s → Q' a s) : Spec P s c Q' :=
  Res.Holds.mono h hQ fun _ => id

variable {a : α} {k : α → Cmd σ β} {R : β → σ → Prop} {s' : σ}

theorem ret (h : Q a s) : Spec P s (pure a) Q := h

theorem bind (h : Spec P s c Q) (hk : ∀ a s', Q a s' → Spec P s' (k a) R) :
    Spec P s (c >>= k) R := by
  show Res.Holds R P (match c.run s with
    | .ok a s' => (k a).run s'
    | .wait => .wait
    | .panic m => .panic m)
  unfold Spec at h
  cases hc : c.run s with
  | ok a s' => rw [hc] at h; exact hk a s' h
  | wait => rw [hc] at h; exact h
  | panic m => rw [hc] at h; exact h

theorem get {f : σ → α} (h : Spec P s (k (f s)) R) : Spec P s (Cmd.get f >>= k) R := h

theorem modify {f : σ → σ} {k : Unit → Cmd σ β} (h : Spec P (f s) (k ()) R) :
    Spec P s (Cmd.modify f >>= k) R := h

theorem panic {m : String} (h : P m) : Spec P s (Cmd.panic m) Q := h

theorem of_run (hr : c.run s = .ok a s') (h : Q a s') : Spec P s c Q := by
  rw [Spec, hr]
  exact h

theorem of_ok (h : Spec P s c Q) (hr : c.run s = .ok a s') : Q a s' := by
  rw [Spec, hr] at h
  exact h

/-- `J l` is the invariant after the loop has gone through `l`. -/
theorem forEach {l : List ι} {body : ι → Cmd σ Unit} (J : List ι → σ → Prop) (h : J [] s)
    (hbody : ∀ done i rest s, l = done ++ i :: rest → J done s → Spec P s (body i) fun _ s' => J (done ++ [i]) s') :
    Spec P s (Cmd.forEach l body) fun _ s' => J l s' := by
  suffices ∀ rest done s, l = done ++ rest → J done s → Spec P s (Cmd.forEach rest body) fun _ s' => J l s' from
    this l [] s rfl h
  intro rest
  induction rest with
  | nil =>
    intro done s hl hJ
    rw [List.append_nil] at hl
    exact ret (hl ▸ hJ)
  | cons i rest ih =>
    intro done s hl hJ
    exact bind (hbody done i rest s hl hJ) fun _ s' hJ' => ih (done ++ [i]) s' (by simp [hl]) hJ'

/-- Code that cannot panic has a result. -/
theorem result (h : Spec (fun _ => False) s c Q) : ∃ a s', c.run s = .ok a s' ∧ Q a s' := by
  unfold Spec at h
  cases hc : c.run s with
  | ok a s' => rw [hc] at h; exact ⟨a, s', rfl, h⟩
  | wait => rw [hc] at h; exact h.elim
  | panic m => rw [hc] at h; exact h.elim

end Spec

/-- Whenever the code returns, `I` still holds. -/
def Keeps (I : σ → Prop) (c : Cmd σ α) : Prop := ∀ s a s', I s → c.run s = .ok a s' → I s'

namespace Keeps

variable {I : σ → Prop}

theorem ret (a : α) : Keeps I (pure a : Cmd σ α) := by
  rintro s _ _ hs ⟨⟩
  exact hs

theorem bind {c : Cmd σ α} {k : α → Cmd σ β} (hc : Keeps I c) (hk : ∀ a, Keeps I (k a)) : Keeps I (c >>= k) := by
  intro s b s' hs hrun
  obtain ⟨a, s1, h, h'⟩ := of_run_bind hrun
  exact hk a s1 b s' (hc s a s1 hs h) h'

theorem panic (m : String) : Keeps I (panic m : Cmd σ α) := by
  rintro s _ _ _ ⟨⟩

theorem hang : Keeps I (hang : Cmd σ α) := by
  rintro s _ _ _ ⟨⟩

theorem ite {p : Prop} [Decidable p] {c d : Cmd σ α} (hc : Keeps I c) (hd : Keeps I d) : Keeps I (if p then c else d) := by
  split
  · exact hc
  · exact hd

end Keeps

end Cmd

end Xv6
