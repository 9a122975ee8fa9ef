import Xv6.Fs.Mkfs

/-!
# Runs

A state is reachable (`Reach`) if a number of system calls leads to it, one call
at a time. The invariants hold in all of them (`Reach.inv`), and so does what all
transactions keep (`Reach.induct`).

In a run that looks up no path from a removed directory (`Calm`) path lookup
finds only inodes with links (`sysCall_calm`).
-/

namespace Xv6.Fs

open List

variable {N : Nat} {I : Table N → Prop} {i : Fin N}

/-- The states that system calls lead to, one call at a time, where each call
satisfies `C` in the state in which it begins. -/
inductive Reach {L : Type} (h : LowHandler L) (C : St L → Pid → Call → Prop) (s0 : St L) : St L → Prop where
  | refl : Reach h C s0 s0
  | call {s s' : St L} {p : Pid} {x : Call} (before : Reach h C s0 s) (cond : C s p x)
      (run : (sysCall p x).run (handler h) s = .ok () s') : Reach h C s0 s'

abbrev Anything {L : Type} (_ : St L) (_ : Pid) (_ : Call) : Prop := True

/-- Does `q` hold after these calls, if none of them panics? -/
def outcome {L : Type} (h : LowHandler L) (s : St L) (l : List (Pid × Call)) (q : St L → Bool) : Bool :=
  match (sysCalls l).run (handler h) s with
  | .ok _ s' => q s'
  | _ => false

theorem Reach.of_outcome {L : Type} {h : LowHandler L} {C : St L → Pid → Call → Prop} {s0 s : St L} {l : List (Pid × Call)}
    {q : St L → Bool} (hr : Reach h C s0 s) (hq : outcome h s l q = true) (hC : ∀ c ∈ l, ∀ s, C s c.1 c.2) :
    ∃ s', Reach h C s0 s' ∧ q s' = true := by
  induction l generalizing s with
  | nil => exact ⟨s, hr, hq⟩
  | cons c l ih =>
    unfold outcome sysCalls at hq
    rw [Eff.run_bind] at hq
    cases hc : (sysCall c.1 c.2).run (handler h) s with
    | ok u s' =>
      rw [hc] at hq
      exact ih (hr.call (hC c mem_cons_self s) hc) hq fun c' hc' => hC c' (mem_cons_of_mem _ hc')
    | wait => rw [hc] at hq; cases hq
    | panic m => rw [hc] at hq; cases hq

/-- The state after these calls is reachable. -/
theorem Reach.after {L : Type} {h : LowHandler L} {s : St L} {l : List (Pid × Call)} {q : St L → Bool}
    (hq : outcome h s l q = true) :
    ∃ s', Reach h Anything s s' ∧ q s' = true := Reach.refl.of_outcome hq fun _ _ _ => trivial

variable {s s' s0 : St (Nodes N)} {P : String → Prop} {calm : Prop} {p : Pid} {x : Call}

/-- A call in a state where it is known that it keeps the invariants. -/
theorem Done.of_run (h : Runs P s (sysCall p x) fun _ s' => Done calm s s')
    (hr : (sysCall p x).run (handler nodeHandler) s = .ok () s') :
    Done calm s s' := by
  unfold Runs Eff.Spec at h
  rw [hr] at h
  exact h

/-- Nothing need be known of the inodes that path lookup comes to if it may
panic. -/
theorem sysCall_any (hN : N ≤ 2 ^ 16) (hroot : rootino < N) (h : Inv s) (p : Pid) (x : Call) :
    Runs (fun m => m ∈ resources ∨ m = "ilock: no type") s (sysCall p x) fun _ s' => Done False s s' := by
  have hknown : Known (fun m => m ∈ resources ∨ m = "ilock: no type") False (fun _ => True) s.low.node :=
    ⟨⟨fun _ _ _ => .inr rfl, fun _ _ _ _ _ _ _ _ => trivial⟩, fun hf => hf.elim, fun _ _ _ _ _ _ _ _ _ _ => .inl mem_cons_self⟩
  exact sysCall_spec h (fun hused => ⟨hN, hroot, fun m hm => .inl (mem_cons_of_mem _ hm), h, hused, hknown⟩) x
    fun q _ => ⟨fun _ _ => trivial, fun _ _ _ _ _ _ => trivial⟩

variable {C : St (Nodes N) → Pid → Call → Prop} {n : Table N}

/-- The invariants hold in every run. -/
theorem Reach.inv (h : WellFormed n) (hr : Reach nodeHandler C (boot n) s) : Inv s := by
  induction hr with
  | refl => exact boot_inv h
  | call before cond run ih =>
    obtain ⟨hroot, -⟩ := h.root
    exact (Done.of_run (sysCall_any h.small hroot ih _ _) run).inv

/-- What the transactions keep. -/
theorem Txs.induct {e : Hist} {l l' : Nodes N} (h : Txs calm e l l') (hstep : ∀ n n', Tx calm e n n' → I n → I n')
    (h₀ : I l.node) : I l'.node ∧ ∀ m ∈ l'.disks, m ∈ l.disks ∨ I m := by
  induction h with
  | still node disks =>
    rw [node, disks]
    exact ⟨h₀, fun m hm => .inl hm⟩
  | @commit _ l' _ txs disks ih =>
    have hnode : I l'.node := txs.recOn ih.1 fun _ h hI => hstep _ _ h hI
    refine ⟨hnode, fun m hm => ?_⟩
    rw [disks, mem_cons] at hm
    rcases hm with rfl | hm
    · exact .inr hnode
    · exact ih.2 m hm

/-- What the transactions keep holds in every run, and of every commit. `K` is
what is known of the history, up to the end. -/
theorem Reach.induct {K : Hist → Prop} (h : WellFormed n) (hK : ∀ e e' : Hist, e.Le e' → K e' → K e)
    (hcall : ∀ s p x, Reach nodeHandler C (boot n) s → C s p x → I s.low.node →
      Runs P s (sysCall p x) fun _ s' => Done calm s s')
    (hstep : ∀ e n n', K e → Tx calm e n n' → I n → I n') (h₀ : I n) (hr : Reach nodeHandler C (boot n) s)
    (hk : K s.core.hist) :
    I s.low.node ∧ ∀ m ∈ s.low.disks, I m := by
  induction hr with
  | refl => exact ⟨h₀, fun m hm => by rw [mem_singleton.mp hm]; exact h₀⟩
  | call before cond run ih =>
    obtain ⟨hroot, -⟩ := h.root
    have hle := (Done.of_run (sysCall_any h.small hroot (before.inv h) _ _) run).hist
    obtain ⟨hI, hdisks⟩ := ih (hK _ _ hle hk)
    obtain ⟨hnode, hnew⟩ := (Done.of_run (hcall _ _ _ before cond hI) run).txs.induct (fun _ _ => hstep _ _ _ hk) hI
    exact ⟨hnode, fun m hm => (hnew m hm).elim (hdisks m) id⟩

/-! ## Removed directories -/

/-- The call looks up no path from a current directory without links. A path
without elements names the current directory itself, and is allowed. -/
def Calm (s : St (Nodes N)) (p : Pid) (x : Call) : Prop :=
  ∀ q ∈ x.paths, q.bytes.head? ≠ some slash → elems q.bytes ≠ [] →
    ∀ b i, (s.core.proc p).cwd = some b → Caches s.core b i → (s.low.node i).attrs.nlink ≠ 0

theorem Calm.of_absolute (h : ∀ q ∈ x.paths, q.bytes.head? = some slash) : Calm s p x := fun q hq hne => absurd (h q hq) hne

/-- What path lookup can come to from the root: inodes that are allocated and
have links. -/
def Linked (n : Table N) (i : Fin N) : Prop := (n i).attrs.type ≠ 0 ∧ (n i).attrs.nlink ≠ 0

theorem Exact.nlink_ne (h : Exact n) (hl : 0 < links n i) : (n i).attrs.nlink ≠ 0 := fun h0 => by
  have := h.count i
  rw [h0] at this
  have h0' : (0 : BitVec 16).toNat = 0 := rfl
  omega

theorem Exact.linked_root (h : Exact n) {r : Fin N} (hr : r.val = rootino) : Linked n r := by
  refine ⟨by rw [(h.root r hr).1]; decide, h.nlink_ne ?_⟩
  rw [links, rootLink, if_pos hr]
  omega

/-- The entries of a directory with links refer to such inodes, `..` included. -/
theorem Exact.linked_entry (h : Exact n) (hn : Dots n) {d : Fin N} {a : Dirent} (hd : Linked n d)
    (hdir : (n d).attrs.type = tDir)
    (ha : a ∈ (n d).ents) (hai : a.inum = i.val) (hpos : 0 < i.val) : Linked n i := by
  have hsub : ∀ {c j}, Sub n c j → Linked n j := fun {c j} hs => by
    obtain ⟨b, hb, hbj⟩ := hs
    have hr := refs_pos hb hbj
    refine ⟨h.alloc j hr, h.nlink_ne ?_⟩
    unfold links
    omega
  obtain ⟨p, rest, hp, hents⟩ := (hn d hdir).dots
  have hsubs : (n d).subs = rest.filter (·.inum ≠ 0) := by rw [Node.subs, if_pos hdir, hents]; rfl
  have hparent : (n d).parent = p := by rw [Node.parent, hents]; rfl
  rw [hents, mem_cons, mem_cons] at ha
  rcases ha with rfl | rfl | ha
  · obtain rfl : d = i := Fin.ext hai
    exact hd
  · -- `..` names the directory with the entry, which has a link for it
    by_cases hr : refs n d = 0
    · have hroot : d.val = rootino := by
        by_contra hne
        have hc := h.count d
        rw [links, hr, h.kids_of_subs_nil (h.bare d hne hr), rootLink, if_neg hne] at hc
        exact hd.2 (BitVec.eq_of_toNat_eq hc.symm)
      have hpr := (h.root d hroot).2.2
      obtain rfl : d = i := Fin.ext (hroot.trans (hpr.symm.trans (hparent.trans hai)))
      exact hd
    · obtain ⟨c, b, hb, hbd⟩ := exists_of_refs_pos (Nat.pos_of_ne_zero hr)
      have hs : Sub n c d := ⟨b, hb, hbd⟩
      obtain rfl : c = i := Fin.ext ((h.up c d hs hdir).symm.trans (hparent.trans hai))
      refine ⟨by rw [Node.dir_of_mem_subs hb]; decide, fun h0 => ?_⟩
      have := h.tree.nlink_pos hs hdir
      rw [h0] at this
      exact absurd this (lt_irrefl 0)
  · refine hsub (c := d) ⟨a, ?_, hai⟩
    rw [hsubs, mem_filter]
    exact ⟨ha, by simp; omega⟩

theorem sysCall_calm (hN : N ≤ 2 ^ 16) (hroot : rootino < N) (h : Inv s) (hx : Exact s.low.node) (hcalm : Calm s p x) :
    Runs (fun m => m ∈ resources) s (sysCall p x) fun _ s' => Done True s s' := by
  have hknown : Known (fun m => m ∈ resources) True (Linked s.low.node) s.low.node :=
    ⟨⟨fun i hi h0 => absurd h0 hi.1, fun d i e hd hdir he hei hpos => hx.linked_entry h.dots hd hdir he hei hpos⟩,
      fun _ d hd => hd.2, fun _ _ _ _ _ _ _ _ _ _ => mem_cons_self⟩
  refine sysCall_spec h (fun hused => ⟨hN, hroot, fun m hm => mem_cons_of_mem _ hm, h, hused, hknown⟩) x
    fun q hq => ⟨fun r hr => hx.linked_root hr, fun hrel hne b i hb hi => ⟨?_, hcalm q hq hrel hne b i hb hi⟩⟩
  exact h.ok.cache.live b i hi (users_pos hb)

end Xv6.Fs
