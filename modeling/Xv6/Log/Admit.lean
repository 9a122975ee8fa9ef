import Mathlib.Data.Fintype.Card
import Mathlib.Data.Fintype.Pi
import Xv6.Log.Model

/-!
# Admission to the log

What `log.outstanding` and `log.committing` mean, whatever the processes
do: `outstanding` counts the processes in an operation, `committing` is set
while exactly one process commits, and the log is empty when neither
happens (`Adm`). One lemma says for each section under `log.lock` that it
keeps this.
-/

namespace Xv6.Log

open Function Finset

/-- A section under `log.lock` runs while no `log_write` is between its two steps. -/
theorem safe_locked {G α : Type} {Asm : State → Prop} {Inv : State → (Pid → G) → Prop} {P : String → Prop} {t : Pid}
    {f : Pid → State → Res State α} {g : G} {Q : α → G → Prop}
    (h : ∀ s γ, Inv s γ → γ t = g → s.log.adding = none →
      (f t s).Post (fun a s' => Asm s' → ∃ g', Inv s' (update γ t g') ∧ Q a g') P) :
    Safe Asm Inv P t (locked f) g Q := by
  refine .step fun s γ hi hg => ?_
  by_cases ha : s.log.adding = none
  · rw [if_pos ha]
    exact h s γ hi hg ha
  · rw [if_neg ha]
    trivial

/-- How far a commit of the blocks `hs` is: `k` of them copied to the log;
the header written, `k` blocks installed and unpinned, and the next one
written if `w`; `lh.n` set to 0; the header erased; and the commit recorded as
done. -/
inductive Stage where
  | log (hs : List Nat) (k : Nat)
  | inst (hs : List Nat) (k : Nat) (w : Bool)
  | clear
  | done
  | fin

namespace Stage

/-- The blocks in `lh`. -/
def lh : Stage → List Nat
  | .log hs _ | .inst hs _ _ => hs
  | _ => []

/-- How many entries of `lh` have been unpinned. -/
def unpinned : Stage → Nat
  | .inst _ k _ => k
  | _ => 0

end Stage

/-- Where a process is: outside any operation, in operation `o`, or
committing. -/
inductive Phase where
  | out
  | op (o : Nat)
  | com (x : Stage)

/-- In an operation. -/
def Phase.inop : Phase → Bool
  | .op _ => true
  | _ => false

/-- What a phase says of the log. -/
def Phase.Ok (lg : LogState) (nops : Nat) : Phase → Prop
  | .out => True
  | .op o => o < nops
  | .com x => lg.committing = true ∧ lg.lh = x.lh

/-- Two processes are in different operations, and one that commits is
alone. -/
def Phase.Apart : Phase → Phase → Prop
  | .op o, .op o' => o ≠ o'
  | .com _, .com _ => False
  | _, _ => True

/-- The processes that are in an operation. -/
def ops (ph : Pid → Phase) : Finset Pid := Finset.univ.filter fun t => (ph t).inop

theorem mem_ops {ph : Pid → Phase} {t : Pid} : t ∈ ops ph ↔ (ph t).inop = true := by simp [ops]

theorem mem_ops_of_op {ph : Pid → Phase} {t : Pid} {o : Nat} (ht : ph t = .op o) : t ∈ ops ph := by
  simp [mem_ops, ht, Phase.inop]

theorem ops_update_op {ph : Pid → Phase} {t : Pid} (o : Nat) (h : (ph t).inop = false) :
    (ops (update ph t (.op o))).card = (ops ph).card + 1 := by
  rw [show ops (update ph t (.op o)) = insert t (ops ph) from ?_,
    card_insert_of_notMem (by simp [mem_ops, h])]
  ext u
  by_cases hu : u = t
  · subst hu; simp [mem_ops, Phase.inop]
  · simp [mem_ops, hu]

variable {p : Phase}

theorem ops_update_of_not {ph : Pid → Phase} {t : Pid} (hp : p.inop = false) (h : (ph t).inop = true) :
    (ops (update ph t p)).card + 1 = (ops ph).card := by
  rw [show ops (update ph t p) = (ops ph).erase t from ?_,
    card_erase_add_one (by rwa [mem_ops])]
  ext u
  by_cases hu : u = t
  · subst hu; simp [mem_ops, hp]
  · simp [mem_ops, hu]

theorem ops_update_eq {ph : Pid → Phase} {t : Pid} (hp : p.inop = (ph t).inop) :
    ops (update ph t p) = ops ph := by
  ext u
  by_cases hu : u = t
  · subst hu; simp [mem_ops, hp]
  · simp [mem_ops, hu]

/-- The log `lg`, the writes `cur` since the last commit and the number of
operations so far, against the phases of the processes. -/
structure Adm (lg : LogState) (cur : List Write) (nops : Nat) (ph : Pid → Phase) : Prop where
  outstanding : lg.outstanding = (ops ph).card
  phase : ∀ t, (ph t).Ok lg nops
  apart : ∀ t u, t ≠ u → (ph t).Apart (ph u)
  com : lg.committing = true → (∃ t x, ph t = .com x) ∧ ops ph = ∅ ∧ cur = []
  quiet : lg.committing = false → ops ph = ∅ → lg.lh = []
  cur_lt : ∀ w ∈ cur, w.op < nops
  logged : ∀ w ∈ cur, w.blockno ∈ lg.lh

namespace Adm

variable {lg : LogState} {cur : List Write} {nops : Nat} {ph : Pid → Phase} {t : Pid} {o : Nat}

variable (h : Adm lg cur nops ph)

include h

theorem not_committing (ht : ph t = .op o) : lg.committing = false := by
  rw [← Bool.not_eq_true]
  intro hc
  have := mem_ops_of_op ht
  rw [(h.com hc).2.1] at this
  exact absurd this (notMem_empty t)

variable {x : Stage} {p : Phase} {lg' : LogState} {nops' : Nat}

theorem committing (ht : ph t = .com x) :
    lg.committing = true ∧ lg.lh = x.lh := by
  have := h.phase t
  rwa [ht] at this

omit h in
theorem apart_update (h : ∀ t u, t ≠ u → (ph t).Apart (ph u))
    (hp : ∀ u, u ≠ t → p.Apart (ph u) ∧ (ph u).Apart p) (u v : Pid) (huv : u ≠ v) :
    (update ph t p u).Apart (update ph t p v) := by
  by_cases hu : u = t
  · subst hu
    rw [update_self, update_of_ne huv.symm]
    exact (hp v huv.symm).1
  · rw [update_of_ne hu]
    by_cases hv : v = t
    · subst hv
      rw [update_self]
      exact (hp u huv).2
    · rw [update_of_ne hv]
      exact h u v huv

omit h in
theorem phase_update (hp : p.Ok lg' nops')
    (h : ∀ u, u ≠ t → (ph u).Ok lg' nops') (u : Pid) : (update ph t p u).Ok lg' nops' := by
  by_cases hu : u = t
  · subst hu; rwa [update_self]
  · rw [update_of_ne hu]; exact h u hu

/-- No process commits while one is in an operation, or while
`log.committing` is 0. -/
theorem ok_of_not_committing (hc : lg.committing = false)
    (hn : nops ≤ nops') (u : Pid) : (ph u).Ok lg' nops' := by
  have := h.phase u
  cases hu : ph u with
  | out => trivial
  | op o => rw [hu] at this; exact lt_of_lt_of_le this hn
  | com c => rw [hu] at this; exact absurd (hc.symm.trans this.1) (by decide)

theorem beginOp (ht : ph t = .out) (hc : lg.committing = false) :
    Adm { lg with outstanding := lg.outstanding + 1 } cur (nops + 1) (update ph t (.op nops)) := by
  have hcard := ops_update_op nops (show (ph t).inop = false by rw [ht]; rfl)
  refine ⟨?_, phase_update (Nat.lt_succ_self _) fun u _ => h.ok_of_not_committing hc (Nat.le_succ _) u,
    apart_update h.apart fun u _ => ?_, fun hc' => absurd (hc.symm.trans hc') (by decide), fun _ he => ?_,
    fun w hw => Nat.lt_succ_of_lt (h.cur_lt w hw), h.logged⟩
  · simp only [hcard, h.outstanding]; push_cast; rfl
  · have := h.phase u
    cases hu : ph u with
    | op o => rw [hu] at this; exact ⟨ne_of_gt this, ne_of_lt this⟩
    | _ => exact ⟨trivial, trivial⟩
  · rw [he, card_empty] at hcard; omega

/-- An operation that is not the last one outstanding ends. -/
theorem endOp (ht : ph t = .op o) (hn : lg.outstanding - 1 ≠ 0) :
    Adm { lg with outstanding := lg.outstanding - 1 } cur nops (update ph t .out) := by
  have hcard := ops_update_of_not (p := .out) rfl (show (ph t).inop = true by rw [ht]; rfl)
  have hout := h.outstanding
  have hc := h.not_committing ht
  refine ⟨?_, phase_update trivial fun u _ => h.phase u, apart_update h.apart fun u _ => ?_,
    fun hc' => absurd (hc.symm.trans hc') (by decide), fun _ he => ?_, h.cur_lt, h.logged⟩
  · simp only [hout, ← hcard]; push_cast; omega
  · cases ph u <;> exact ⟨trivial, trivial⟩
  · rw [he, card_empty] at hcard; omega

/-- The last operation outstanding ends, and its process commits. -/
theorem endOp_commit (ht : ph t = .op o) (hn : lg.outstanding - 1 = 0) :
    Adm { lg with outstanding := 0, committing := true } [] nops (update ph t (.com (.log lg.lh 0))) := by
  have hcard := ops_update_of_not (p := .com (.log lg.lh 0)) rfl (show (ph t).inop = true by rw [ht]; rfl)
  have hout := h.outstanding
  have hc := h.not_committing ht
  have h0 : (ops (update ph t (.com (.log lg.lh 0)))).card = 0 := by omega
  refine ⟨by simp only [h0]; rfl,
    phase_update ⟨rfl, rfl⟩ fun u _ => h.ok_of_not_committing hc (le_rfl) u,
    apart_update h.apart fun u _ => ?_,
    fun _ => ⟨⟨t, .log lg.lh 0, update_self ..⟩, card_eq_zero.mp h0, rfl⟩, by simp, by simp, by simp⟩
  have := h.phase u
  cases hu : ph u with
  | com c => rw [hu] at this; exact absurd (hc.symm.trans this.1) (by decide)
  | _ => exact ⟨trivial, trivial⟩

/-- Nobody else is in an operation or commits while `t` does. -/
theorem out_of_com (ht : ph t = .com x) {u : Pid} (hu : u ≠ t) :
    ph u = .out := by
  have hc := (h.committing ht).1
  cases hp : ph u with
  | out => rfl
  | op o => exact absurd (hc.symm.trans (h.not_committing hp)) (by decide)
  | com y =>
    have := h.apart u t hu
    rw [hp, ht] at this
    exact this.elim

/-- The commit goes on, and may set `lh.n` to 0. -/
theorem stage (ht : ph t = .com x) (y : Stage) :
    Adm { lg with lh := y.lh } cur nops (update ph t (.com y)) := by
  have hc := (h.committing ht).1
  obtain ⟨-, he, hcur⟩ := h.com hc
  have hops : ops (update ph t (.com y)) = ops ph := ops_update_eq (by rw [ht]; rfl)
  refine ⟨by rw [hops]; exact h.outstanding, phase_update ⟨hc, rfl⟩ fun u hu => ?_,
    apart_update h.apart fun u hu => ?_,
    fun _ => ⟨⟨t, y, update_self ..⟩, hops.trans he, hcur⟩,
    fun hc' => absurd (hc.symm.trans hc') (by decide), h.cur_lt, by simp [hcur]⟩
  · rw [h.out_of_com ht hu]; trivial
  · rw [h.out_of_com ht hu]; exact ⟨trivial, trivial⟩

/-- The commit is over. -/
theorem endCommit (ht : ph t = .com x) (hx : x.lh = []) :
    Adm { lg with committing := false } cur nops (update ph t .out) := by
  obtain ⟨hc, hlh⟩ := h.committing ht
  obtain ⟨-, he, hcur⟩ := h.com hc
  have hops : ops (update ph t .out) = ops ph := ops_update_eq (by rw [ht]; rfl)
  refine ⟨by rw [hops]; exact h.outstanding, phase_update trivial fun u hu => ?_,
    apart_update h.apart fun u hu => ?_, by simp, fun _ _ => hlh.trans hx, h.cur_lt, h.logged⟩
  · rw [h.out_of_com ht hu]; trivial
  · rw [h.out_of_com ht hu]; exact ⟨trivial, trivial⟩

/-- `log_write` takes `log.lock`. -/
theorem setAdding (a : Option (Pid × Nat)) : Adm { lg with adding := a } cur nops ph :=
  ⟨h.outstanding, h.phase, h.apart, h.com, h.quiet, h.cur_lt, h.logged⟩

/-- An operation logs a block, which `lh` has or gets. -/
theorem logWrite (ht : ph t = .op o) {lh : List Nat} {a : Option (Pid × Nat)} {w : Write} (hw : w.op = o)
    (hlh : ∀ b, b ∈ lh ↔ b ∈ lg.lh ∨ b = w.blockno) :
    Adm { lg with lh := lh, adding := a } (cur ++ [w]) nops ph := by
  have hc := h.not_committing ht
  have ho := h.phase t
  rw [ht] at ho
  refine ⟨h.outstanding, h.ok_of_not_committing hc (le_rfl), h.apart,
    fun hc' => absurd (hc.symm.trans hc') (by decide), fun _ he => ?_, fun v hv => ?_, fun v hv => ?_⟩
  · have := mem_ops_of_op ht
    rw [he] at this
    exact absurd this (notMem_empty t)
  · rcases List.mem_append.mp hv with hv | hv
    · exact h.cur_lt v hv
    · rw [List.mem_singleton.mp hv, hw]; exact ho
  · rcases List.mem_append.mp hv with hv | hv
    · exact (hlh _).mpr (.inl (h.logged v hv))
    · rw [List.mem_singleton.mp hv]; exact (hlh _).mpr (.inr rfl)

end Adm

end Xv6.Log
