import Xv6.Sleeplock.Model

/-!
# Sleep-locks exclude, and strand nobody

At most one process is inside. A process that sleeps on the lock finds it taken,
or else the process that has let it go still holds `lk->lk` and its wakeup has not
yet come to the sleeper (`Global.sleepers`). A process counts as a sleeper from the
moment at which it gives up `lk->lk`: from then on until it sleeps it holds its
`p->lock`, so that the wakeup cannot pass it by.
-/

namespace Xv6.Sleeplock

open Function

variable {n : Nat}

/-- The part of what is known of a process that concerns all of them. -/
structure Note where
  /-- It has given up `lk->lk` in `sleep`, and is about to sleep. -/
  going : Bool := false
  /-- It has cleared `lk->locked`, and has woken up the processes below `i`. -/
  waking : Option Nat := none
  /-- It has changed `lk->locked`, but not yet `lk->pid`. -/
  stale : Bool := false

/-- What is known of a process. -/
structure Ghost (n : Nat) where
  lk : Bool := false
  /-- The `p->lock` that it holds. -/
  plk : Option (Fin n) := none
  /-- The value of `lk->locked` that it has seen. -/
  saw : Option Bool := none
  owns : Bool := false
  inside : Bool := false
  note : Note := {}

structure Own (s : State n) (t : Fin n) (g : Ghost n) : Prop where
  lk : s.lk = some t ↔ g.lk = true
  plock : ∀ p, s.plock p = some t ↔ g.plk = some p
  under : g.lk = false → g.saw = none ∧ g.note.waking = none ∧ g.note.stale = false
  saw : ∀ b, g.saw = some b → s.locked = b
  owns : s.hist.owner = some t ↔ g.owns = true
  stale : g.note.stale = true → g.inside = false ∧ (s.hist.owner = some t ∨ s.hist.owner = none)
  inside : s.hist.inside t = g.inside
  holds : g.inside = true → g.owns = true
  going : g.note.going = true → g.plk = some t

/-- The process sleeps on the lock. -/
def Asleep (s : State n) (p : Fin n) : Prop := (s.proc p).state = .sleeping ∧ (s.proc p).chan = some .lk

structure Global (pids : Fin n → BitVec 32) (s : State n) (ν : Fin n → Note) : Prop where
  ids : ∀ p, (s.proc p).pid = pids p
  owner : s.locked = s.hist.owner.isSome
  pid : (∀ t, (ν t).stale = false) → s.pid = s.hist.owner.elim 0 pids
  sleepers : ∀ p, (ν p).going = true ∨ Asleep s p → s.locked = true ∨ ∃ t i, (ν t).waking = some i ∧ i ≤ p.val
  judged : Injective pids → s.hist.wrong = false

structure Inv (pids : Fin n → BitVec 32) (s : State n) (γ : Fin n → Ghost n) : Prop where
  own : ∀ t, Own s t (γ t)
  global : Global pids s fun t => (γ t).note

variable {pids : Fin n → BitVec 32} {s s' : State n} {γ : Fin n → Ghost n} {t u p : Fin n} {g g' : Ghost n} {ν : Fin n → Note}

/-! ## Steps -/

/-- A step of another process. -/
theorem Own.stable (h : Own s u g) (hlk : s'.lk = some u ↔ s.lk = some u) (hp : ∀ p, s'.plock p = some u ↔ s.plock p = some u)
    (howner : s'.hist.owner = some u ↔ s.hist.owner = some u) (hin : s'.hist.inside u = s.hist.inside u)
    (hdata : g.lk = true → s'.locked = s.locked ∧ s'.hist.owner = s.hist.owner) : Own s' u g where
  lk := hlk.trans h.lk
  plock q := (hp q).trans (h.plock q)
  under := h.under
  saw b hb := by
    cases hg : g.lk with
    | false =>
      rw [(h.under hg).1] at hb
      cases hb
    | true => rw [(hdata hg).1, h.saw b hb]
  owns := howner.trans h.owns
  stale hst := by
    cases hg : g.lk with
    | false =>
      rw [(h.under hg).2.2] at hst
      cases hst
    | true =>
      rw [(hdata hg).2]
      exact h.stale hst
  inside := hin.trans h.inside
  holds := h.holds
  going := h.going

theorem Global.congr (h : Global pids s ν) (hproc : s'.proc = s.proc) (hlocked : s'.locked = s.locked) (hpid : s'.pid = s.pid)
    (howner : s'.hist.owner = s.hist.owner) (hwrong : s'.hist.wrong = s.hist.wrong) : Global pids s' ν where
  ids q := by rw [hproc, h.ids]
  owner := by rw [hlocked, howner, h.owner]
  pid hst := by rw [hpid, howner, h.pid hst]
  sleepers q hq := by
    rw [hlocked]
    refine h.sleepers q (hq.imp_right fun ha => ?_)
    rwa [Asleep, hproc] at ha
  judged hinj := by rw [hwrong, h.judged hinj]

variable {f : Proc → Proc} {b : Bool}

theorem Global.modProc_ids (h : Global pids s ν) (hid : ∀ x, (f x).pid = x.pid) (q : Fin n) :
    ((s.modProc p f).proc q).pid = pids q := by
  rcases eq_or_ne q p with rfl | hq
  · rw [State.modProc_self, hid, h.ids]
  · rw [State.modProc_of_ne _ _ hq, h.ids]

/-- A change to the process `p` that does not put it to sleep on the lock. -/
theorem Global.modProc (h : Global pids s ν) (hid : ∀ x, (f x).pid = x.pid)
    (hf : ∀ x, (f x).state = .sleeping → (f x).chan = some .lk → x.state = .sleeping ∧
      x.chan = some .lk) : Global pids (s.modProc p f) ν where
  ids := h.modProc_ids hid
  owner := h.owner
  pid := h.pid
  sleepers q hq := h.sleepers q (hq.imp_right fun ha => by
    rcases eq_or_ne q p with rfl | hne
    · rw [Asleep, State.modProc_self] at ha
      exact hf _ ha.1 ha.2
    · rwa [Asleep, State.modProc_of_ne _ _ hne] at ha)
  judged := h.judged

namespace Inv

/-- A step of `t`. -/
theorem of_step (hother : ∀ u, u ≠ t → Own s' u (γ u)) (hown : Own s' t g')
    (hglobal : Global pids s' (update (fun u => (γ u).note) t g'.note)) : Inv pids s' (update γ t g') where
  own := (forall_update_iff γ (Own s')).2 ⟨hown, hother⟩
  global := by
    have hnote : (fun u => (update γ t g' u).note) = update (fun u => (γ u).note) t g'.note :=
      funext (apply_update (fun _ => Ghost.note) γ t g')
    rw [hnote]
    exact hglobal

theorem note_eq (g' : Ghost n) (ht : γ t = g) (hn : g'.note = g.note) : update
    (fun u => (γ u).note) t g'.note = fun u => (γ u).note := by
  rw [hn, ← ht]
  exact update_eq_self ..

theorem self (hi : Inv pids s γ) (ht : γ t = g) : Own s t g := ht ▸ hi.own t

/-- A step of `t` that others do not see. -/
theorem quiet (hi : Inv pids s γ) (hlk : s'.lk = s.lk) (hp : s'.plock = s.plock) (hlocked : s'.locked = s.locked)
    (hist : s'.hist = s.hist) (hown : Own s' t g') (hglobal : Global pids s' (update (fun u => (γ u).note) t g'.note)) :
    Inv pids s' (update γ t g') :=
  .of_step (fun u _ => (hi.own u).stable (by rw [hlk]) (fun q => by rw [hp]) (by rw [hist]) (by rw [hist]) fun _ => by
    rw [hlocked, hist]
    exact ⟨rfl, rfl⟩) hown hglobal

theorem lk_unique (h : Inv pids s γ) (ht : (γ t).lk = true) (hu : u ≠ t) : (γ u).lk = false := by
  cases hg : (γ u).lk with
  | false => rfl
  | true =>
    have h1 := (h.own t).lk.2 ht
    rw [(h.own u).lk.2 hg] at h1
    exact absurd (Option.some.inj h1) hu

end Inv

variable (pids t) in
abbrev Spec {α : Type} (q : KProg n α) (g : Ghost n) (Q : α → Ghost n → Prop) : Prop :=
  Safe (fun _ => True) (Inv pids) (fun _ => True) t q g Q

variable (pids t) in
/-- What is known of the process stays as it is. -/
abbrev Same {α : Type} (q : KProg n α) (g : Ghost n) : Prop := Spec pids t q g fun _ g' => g' = g

/-! ## Spinlocks -/

theorem acquireLk_spec : Spec pids t acquireLk g fun _ g' => g' = { g with lk := true } := by
  refine .step fun s γ hi ht => ?_
  have ho := hi.self ht
  split
  · trivial
  split
  · rename_i hnone
    refine fun _ => ⟨{ g with lk := true },
      .of_step (fun u hu => (hi.own u).stable ?_ (fun _ => Iff.rfl) Iff.rfl rfl fun _ => ⟨rfl, rfl⟩)
      { ho with lk := by simp, under := nofun } ?_, rfl⟩
    · simp [hnone, hu.symm]
    · rw [Inv.note_eq _ ht rfl]
      exact hi.global.congr rfl rfl rfl rfl rfl
  · trivial

/-- `lk->lk` is released, when everybody has been woken up who has to be. -/
theorem Inv.release (hi : Inv pids s γ) (ht : γ t = g) (hg : g.lk = true) (hst : g.note.stale = false)
    (hwake : ∀ i, g.note.waking = some i → n ≤ i) (hgo : b = true → g.saw = some true ∧ g.plk = some t) :
    Inv pids { s with lk := none } (update γ t { g with lk := false, saw := none, note := { going := b } }) := by
  have ho := hi.self ht
  have hlk : s.lk = some t := ho.lk.2 hg
  refine .of_step (fun u hu => (hi.own u).stable ?_ (fun _ => Iff.rfl) Iff.rfl rfl fun _ => ⟨rfl, rfl⟩)
    { ho with lk := by simp, under := fun _ => ⟨rfl, rfl, rfl⟩, saw := nofun, stale := nofun, going := fun hb => (hgo hb).2 }
    ⟨hi.global.ids, hi.global.owner, fun hall => hi.global.pid fun u => ?_, fun q hq => ?_, hi.global.judged⟩
  · simp [hlk, hu.symm]
  · rw [← hall u, update_keep Note.stale rfl]
    rw [ht, hst]
  · -- nobody else holds `lk->lk`, so nobody else is waking
    have hold : (γ q).note.going = true ∨ Asleep s q → s.locked = true := fun hq => by
      rcases hi.global.sleepers q hq with hl | ⟨u, i, hu, hle⟩
      · exact hl
      · rcases eq_or_ne u t with rfl | hne
        · rw [ht] at hu
          have := hwake i hu
          omega
        · rw [((hi.own u).under (hi.lk_unique (by rw [ht, hg]) hne)).2.1] at hu
          cases hu
    left
    rcases hq with hq | hq
    · rcases eq_or_ne q t with rfl | hne
      · rw [update_self] at hq
        exact ho.saw true (hgo hq).1
      · rw [update_of_ne hne] at hq
        exact hold (.inl hq)
    · exact hold (.inr hq)

theorem releaseLk_spec (hg : g.lk = true) (hst : g.note.stale = false) (hwake : ∀ i, g.note.waking = some i → n ≤ i) :
    Spec pids t releaseLk g fun _ g' => g' = { g with lk := false, saw := none, note := {} } := by
  refine .step fun s γ hi ht => ?_
  have ho := hi.self ht
  rw [if_pos (ho.lk.2 hg)]
  exact fun _ => ⟨_, hi.release (b := false) ht hg hst hwake (nofun), rfl⟩

/-- `lk->lk` is released by a process that is about to sleep. -/
theorem releaseLk_going (hg : g.lk = true) (hst : g.note.stale = false) (hwake : g.note.waking = none)
    (hsaw : g.saw = some true)
    (hp : g.plk = some t) : Spec pids t releaseLk g fun _ g' =>
      g' = { g with lk := false, saw := none, note := { going := true } } := by
  refine .step fun s γ hi ht => ?_
  have ho := hi.self ht
  rw [if_pos (ho.lk.2 hg)]
  refine fun _ => ⟨_, hi.release (b := true) ht hg hst (fun i hw => ?_) (fun _ => ⟨hsaw, hp⟩), rfl⟩
  rw [hwake] at hw
  cases hw

theorem Inv.modProc (hi : Inv pids s γ) (hid : ∀ x, (f x).pid = x.pid)
    (hf : ∀ x, (f x).state = .sleeping → (f x).chan = some .lk → x.state = .sleeping ∧ x.chan = some .lk) : Inv
      pids (s.modProc p f) γ :=
  ⟨fun u => (hi.own u).stable Iff.rfl (fun _ => Iff.rfl) Iff.rfl rfl fun _ => ⟨rfl, rfl⟩, hi.global.modProc hid hf⟩

/-- A step on a `p->lock` by `t`, which others do not hold. -/
theorem Inv.plockStep {l : Option (Fin n)} (o : Option (Fin n)) (hi : Inv pids s γ) (ht : γ t = g)
    (hl : ∀ u, u ≠ t → l ≠ some u ∧ s.plock p ≠ some u)
    (hself : ∀ q, update s.plock p l q = some t ↔ o = some q) (hgo : g.note.going = true → o = some t) :
    Inv pids { s with plock := update s.plock p l } (update γ t { g with plk := o }) := by
  have ho := hi.self ht
  refine .of_step (fun u hu => (hi.own u).stable Iff.rfl (fun q => ?_) Iff.rfl rfl fun _ => ⟨rfl, rfl⟩)
    { ho with plock := hself, going := hgo } ?_
  · rcases eq_or_ne q p with rfl | hq
    · simp [hl u hu]
    · dsimp only
      rw [update_of_ne hq]
  · rw [Inv.note_eq { g with plk := o } ht rfl]
    exact hi.global.congr rfl rfl rfl rfl rfl

/-- `t` takes a `p->lock`, its own or another. -/
theorem Inv.take (hi : Inv pids s γ) (ht : γ t = g) (hg : g.plk = none) (hnone : s.plock p = none) :
    Inv pids { s with plock := update s.plock p (some t) } (update γ t { g with plk := some p }) := by
  have ho := hi.self ht
  refine hi.plockStep (some p) ht (fun u hu => ⟨fun e => hu (Option.some.inj e).symm, by simp [hnone]⟩) (fun q => ?_)
    fun hgo => by rw [ho.going hgo] at hg; cases hg
  rcases eq_or_ne q p with rfl | hq
  · simp
  · rw [update_of_ne hq, ho.plock, hg]
    simp [hq.symm]

theorem Inv.drop (hi : Inv pids s γ) (ht : γ t = g) (hg : g.plk = some p) (hgo : g.note.going = false) :
    Inv pids { s with plock := update s.plock p none } (update γ t { g with plk := none }) := by
  have ho := hi.self ht
  refine hi.plockStep none ht (fun u hu => ⟨nofun, by simp [(ho.plock p).2 hg, hu.symm]⟩) (fun q => ?_)
    fun hc => by rw [hgo] at hc; cases hc
  rcases eq_or_ne q p with rfl | hq
  · simp
  · rw [update_of_ne hq, ho.plock, hg]
    simp [hq.symm]

theorem acquire_spec (hg : g.plk = none) : Spec pids t (acquire p) g fun _ g' => g' = { g with plk := some p } := by
  refine .step fun s γ hi ht => ?_
  split
  · trivial
  split
  · exact fun _ => ⟨_, hi.take ht hg ‹_›, rfl⟩
  · trivial

theorem release_spec (hg : g.plk = some p) (hgo : g.note.going = false) :
    Spec pids t (release p) g fun _ g' => g' = { g with plk := none } := by
  refine .step fun s γ hi ht => ?_
  rw [if_pos (((hi.self ht).plock p).2 hg)]
  exact fun _ => ⟨_, hi.drop ht hg hgo, rfl⟩

theorem release_back (hg : g.plk = none) (hgo : g.note.going = false) : Spec pids t (release p)
    { g with plk := some p } fun _ g' => g' = g := by
  refine .mono (release_spec rfl hgo) ?_
  rintro _ _ rfl
  rw [← hg]

/-! ## Sleeping -/

theorem myproc_spec : Spec pids t myproc g fun q g' => q = t ∧ g' = g :=
  Safe.step fun s γ hi ht _ => ⟨γ t, by rwa [update_eq_self], rfl, ht⟩

theorem modProc_same (hid : ∀ x, (f x).pid = x.pid)
    (hf : ∀ x, (f x).state = .sleeping → (f x).chan = some .lk → x.state = .sleeping ∧ x.chan = some .lk) : Same
      pids t (modProc p f) g := by
  refine .step fun s γ hi ht _ => ⟨γ t, ?_, ht⟩
  rw [update_eq_self]
  exact hi.modProc hid hf

theorem swtch_spec (hg : g.plk = some p) (hgo : g.note.going = false) :
    Spec pids t (swtch p) g fun _ g' => g' = { g with plk := none } := by
  refine .step fun s γ hi ht => ?_
  rw [if_neg (not_not.2 (((hi.self ht).plock p).2 hg))]
  split
  · trivial
  · exact fun _ => ⟨_, hi.drop ht hg hgo, rfl⟩

theorem resume_spec (hg : g.plk = none) : Spec pids t (resume p) g fun _ g' => g' = { g with plk := some p } := by
  refine .step fun s γ hi ht => ?_
  split
  · rename_i hc
    exact fun _ => ⟨_, (hi.take ht hg hc.1).modProc (f := ({ · with state := .running })) (fun _ => rfl) nofun, rfl⟩
  · trivial

theorem sched_same (hg : g.plk = some p) (hgo : g.note.going = false) : Same pids t (sched p) g := by
  refine .next (swtch_spec hg hgo) fun _ => ?_
  refine (resume_spec rfl).mono ?_
  rintro _ _ rfl
  rw [← hg]

theorem yield_same (hg : g.plk = none) (hgo : g.note.going = false) : Same pids t yield g := by
  refine .bind myproc_spec ?_
  rintro _ _ ⟨rfl, rfl⟩
  refine .next (acquire_spec hg) fun _ => ?_
  refine .next (modProc_same (fun _ => rfl) fun _ h1 _ => by cases h1) fun _ => ?_
  refine .next (sched_same rfl hgo) fun _ => ?_
  exact release_back hg hgo

theorem preempt_same (hg : g.plk = none) (hgo : g.note.going = false) : Same pids t preempt g := by
  refine .any fun k => ?_
  split
  · exact yield_same hg hgo
  · exact .ret rfl

/-- The end of `sleepLocked`. -/
theorem woken_same (hg : g.plk = some p) (hgo : g.note.going = false) : Same pids t (do
    sched p
    modProc p ({ · with chan := none })) g := by
  refine .next (sched_same hg hgo) fun _ => ?_
  exact modProc_same (fun _ => rfl) fun _ _ h2 => by cases h2

/-- The process that has given up `lk->lk` goes to sleep. -/
theorem sleepLocked_going (hg : g.plk = some t) (hgo : g.note.going = true) :
    Spec pids t (sleepLocked t .lk) g fun _ g' => g' = { g with note := { g.note with going := false } } := by
  refine .bind (R := fun _ g' => g' = { g with note := { g.note with going := false } }) (.step fun s γ hi ht _ => ?_) ?_
  · have ho := hi.self ht
    refine ⟨{ g with note := { g.note with going := false } }, hi.quiet rfl rfl rfl rfl { ho with going := nofun }
      { hi.global with
        ids := hi.global.modProc_ids fun _ => rfl, pid := fun hall => hi.global.pid fun u => ?_
        sleepers := fun q hq => ?_ }, rfl⟩
    · rw [← hall u, update_keep Note.stale rfl]
      rw [ht]
    · have hold : (γ q).note.going = true ∨ Asleep s q := by
        rcases eq_or_ne q t with rfl | hne
        · rw [ht]
          exact .inl hgo
        · rwa [update_of_ne hne, Asleep, State.modProc_of_ne _ _ hne] at hq
      refine (hi.global.sleepers q hold).imp_right ?_
      rintro ⟨u, i, hu, hle⟩
      refine ⟨u, i, ?_, hle⟩
      rw [← hu, update_keep Note.waking rfl]
      rw [ht]
  · rintro _ _ rfl
    exact woken_same hg rfl

theorem sleepLk_spec (hg : g.lk = true) (hp : g.plk = none) (hn : g.note = {}) (hsaw : g.saw = some true) :
    Spec pids t sleepLk g fun _ g' => g' = { g with saw := none } := by
  refine .bind myproc_spec ?_
  rintro q _ ⟨rfl, rfl⟩
  refine .next (acquire_spec hp) fun _ => ?_
  refine .next (releaseLk_going hg (by rw [hn]) (by rw [hn]) hsaw rfl) fun _ => ?_
  refine .next (sleepLocked_going rfl rfl) fun _ => ?_
  refine .next (release_spec rfl rfl) fun _ => ?_
  refine .mono acquireLk_spec ?_
  rintro _ _ rfl
  rw [← hg, ← hp, ← hn]

theorem sleepLocked_addr (a : Nat) (hg : g.plk = some p) (hgo : g.note.going = false) :
    Same pids t (sleepLocked p (.addr a)) g := by
  refine .next (modProc_same (fun _ => rfl) fun _ _ h2 => by cases h2) fun _ => ?_
  exact woken_same hg hgo

theorem sleep_same (a : Nat) (hg : g.plk = none) (hgo : g.note.going = false) : Same pids t (sleep a) g := by
  refine .bind myproc_spec ?_
  rintro q _ ⟨rfl, rfl⟩
  refine .next (acquire_spec hg) fun _ => ?_
  refine .next (sleepLocked_addr a rfl hgo) fun _ => ?_
  exact release_back hg hgo

theorem wakeup_same (a : Nat) (hg : g.plk = none) (hgo : g.note.going = false) : Same pids t (wakeup (.addr a)) g := by
  refine .bind (.forFin (J := fun _ g' => g' = g) (R := fun _ g' => g' = g) ?_ rfl) ?_
  · rintro p _ rfl
    refine .next (acquire_spec hg) fun _ => ?_
    refine .bind (modProc_same (fun x => ?_) fun x h1 h2 => ?_) ?_
    · split <;> rfl
    · split at h1
      · cases h1
      · rename_i hc
        rw [if_neg hc] at h2
        exact ⟨h1, h2⟩
    rintro _ _ rfl
    exact .next (release_back hg hgo) fun _ => Safe.ret rfl
  · intro r g' hr
    cases r with
    | none => exact .ret hr
    | some _ => exact .ret hr

theorem kill_same (pid : BitVec 32) (hg : g.plk = none) (hgo : g.note.going = false) : Same pids t (kill pid) g := by
  refine .bind (.forFin (J := fun _ g' => g' = g) (R := fun _ g' => g' = g) ?_ rfl) ?_
  · rintro p _ rfl
    refine .next (preempt_same hg hgo) fun _ => ?_
    refine .next (acquire_spec hg) fun _ => ?_
    refine .next (e := fun _ => _) (.step fun s γ hi ht _ => ⟨γ t, by rwa [update_eq_self], ht⟩) fun found => ?_
    split
    · refine .bind (modProc_same (fun _ => rfl) fun x h1 h2 => ?_) ?_
      · dsimp only at h1
        split at h1
        · cases h1
        · exact ⟨h1, h2⟩
      rintro _ _ rfl
      exact .next (release_back hg hgo) fun _ => Safe.ret rfl
    · exact .next (release_back hg hgo) fun _ => Safe.ret rfl
  · intro r g' hr
    cases r with
    | none => exact .ret hr
    | some _ => exact .ret hr

/-! ## The sleep-lock -/

/-- A step of the process that holds `lk->lk` on the data of the sleep-lock. -/
theorem Inv.dataStep {note : Note} (hi : Inv pids s γ) (ht : γ t = g) (hg : g.lk = true) (hlk : s'.lk = s.lk)
    (hproc : s'.proc = s.proc)
    (hplock : s'.plock = s.plock) (hin : s'.hist.inside = s.hist.inside) (hwrong : s'.hist.wrong = s.hist.wrong)
    (howner : ∀ u, u ≠ t → (s'.hist.owner = some u ↔ s.hist.owner = some u)) (hown : Own s' t g') (hnote : g'.note = note)
    (hlocked : s'.locked = s'.hist.owner.isSome) (hpid : note.stale = false → s'.pid = s'.hist.owner.elim 0 pids)
    (hsleep : s'.locked = true ∨ note.waking = some 0 ∨
      (s'.locked = s.locked ∧ note.going = g.note.going ∧ note.waking = g.note.waking)) :
    Inv pids s' (update γ t g') := by
  have hother : ∀ u, u ≠ t → (γ u).lk = false := fun u hu => hi.lk_unique (by rw [ht, hg]) hu
  subst hnote
  refine .of_step (fun u hu => (hi.own u).stable (by rw [hlk]) (fun q => by rw [hplock]) (howner u hu) (by rw [hin])
    fun hc => by rw [hother u hu] at hc; cases hc) hown ⟨fun q => by rw [hproc, hi.global.ids], hlocked,
      fun hall => hpid ?_, fun q hq => ?_, fun hinj => by
      rw [hwrong, hi.global.judged hinj]⟩
  · have := hall t
    rwa [update_self] at this
  · rcases hsleep with hl | hw | ⟨hl, hgo, hw⟩
    · exact .inl hl
    · exact .inr ⟨t, 0, by rw [update_self, hw], Nat.zero_le _⟩
    · have hold : (γ q).note.going = true ∨ Asleep s q := by
        rw [update_keep Note.going rfl (by rw [hgo, ht]), Asleep, hproc] at hq
        exact hq
      rw [hl]
      refine (hi.global.sleepers q hold).imp_right ?_
      rintro ⟨u, i, hu, hle⟩
      refine ⟨u, i, ?_, hle⟩
      rw [← hu, update_keep Note.waking rfl]
      rw [hw, ht]

/-- The loop of `acquiresleep` ends when the lock is free. -/
theorem waitFree_spec (hg : g.lk = true) (hp : g.plk = none) (hn : g.note = {}) (hsaw : g.saw = none) :
    Spec pids t (.loop (fun _ : Unit => do
      let locked ← .step fun _ s => .ok s.locked s
      if locked then
        sleepLk
        return .inl ()
      else
        return .inr ()) ()) g fun (_ : Unit) g' => g' = { g with saw := some false } := by
  refine .loop (J := fun _ g' => g' = g) ?_ rfl
  rintro _ g rfl
  refine .bind (R := fun b g' => g' = { g with saw := some b }) (.step fun s γ hi ht _ => ?_) ?_
  · have ho := hi.self ht
    refine ⟨{ g with saw := some s.locked }, hi.quiet rfl rfl rfl rfl
      { ho with under := fun hc => absurd (hg.symm.trans hc) nofun, saw := fun b hb => Option.some.inj hb } ?_, rfl⟩
    rw [Inv.note_eq _ ht rfl]
    exact hi.global
  · rintro b _ rfl
    cases b with
    | true =>
      refine .next (sleepLk_spec hg hp hn rfl) fun _ => ?_
      refine .ret ?_
      rw [← hsaw]
    | false => exact .ret rfl

theorem Inv.unowned (hi : Inv pids s γ) (h : s.locked = false) : s.hist.owner = none := by
  have := hi.global.owner
  rw [h] at this
  exact Option.isNone_iff_eq_none.1 (Option.isSome_eq_false_iff.1 this.symm)

/-- `lk->locked = 1`, by a process that has seen that it is 0. -/
theorem setLocked_true (hg : g.lk = true) (hsaw : g.saw = some false) :
    Spec pids t (setLocked true) g fun _ g' => g.inside = false ∧
      g' = { g with saw := none, owns := true, note := { stale := true } } := by
  refine .step fun s γ hi ht _ => ?_
  have ho := hi.self ht
  have hnone := hi.unowned (ho.saw false hsaw)
  have hin : g.inside = false := by
    cases hc : g.inside with
    | false => rfl
    | true =>
      rw [ho.owns.2 (ho.holds hc)] at hnone
      cases hnone
  refine ⟨{ g with saw := none, owns := true, note := { stale := true } },
    hi.dataStep ht hg rfl rfl rfl rfl rfl (fun u hu => ?_)
    { ho with
      under := fun hc => absurd (hg.symm.trans hc) nofun, saw := nofun, owns := ⟨fun _ => rfl, fun _ => rfl⟩,
      stale := fun _ => ⟨hin, .inl rfl⟩, holds := fun _ => rfl, going := nofun } rfl rfl nofun (.inl rfl), hin, rfl⟩
  rw [hnone]
  simp [hu.symm]

/-- `lk->pid = myproc()->pid`. -/
theorem setPid_spec (hg : g.lk = true) (hown : g.owns = true) (hn : g.note = { stale := true }) :
    Spec pids t (.step fun t s => .ok () { s with pid := (s.proc t).pid }) g fun (_ : Unit) g' =>
      g' = { g with note := {} } := by
  refine .step fun s γ hi ht _ => ?_
  have ho := hi.self ht
  refine ⟨{ g with note := {} }, hi.dataStep ht hg rfl rfl rfl rfl rfl (fun _ _ => Iff.rfl)
    { ho with under := fun hc => absurd (hg.symm.trans hc) nofun, stale := nofun, going := nofun } rfl hi.global.owner
      (fun _ => ?_) (.inr (.inr ⟨rfl, by rw [hn], by rw [hn]⟩)), rfl⟩
  rw [ho.owns.2 hown, hi.global.ids]
  rfl

/-- What is known of a process between two calls. -/
def idleGhost (inside : Bool) : Ghost n := { owns := inside, inside := inside }

theorem acquiresleep_spec (b : Bool) : Spec pids t acquiresleep
    (idleGhost b) fun _ g' => g' = { owns := true, inside := b } := by
  refine .next (preempt_same rfl rfl) fun _ => ?_
  refine .next acquireLk_spec fun _ => ?_
  refine .next (waitFree_spec rfl rfl rfl rfl) fun _ => ?_
  refine .bind (setLocked_true rfl rfl) ?_
  rintro _ _ ⟨-, rfl⟩
  refine .next (setPid_spec rfl rfl rfl) fun _ => ?_
  exact releaseLk_spec rfl rfl fun i hc => by cases hc

/-- `lk->locked = 0`, by the process that has set it. -/
theorem setLocked_false (hg : g.lk = true) (hown : g.owns = true) (hin : g.inside = false) :
    Spec pids t (setLocked false) g fun _ g' =>
      g' = { g with saw := some false, owns := false, note := { waking := some 0, stale := true } } := by
  refine .step fun s γ hi ht _ => ?_
  have ho := hi.self ht
  refine ⟨{ g with saw := some false, owns := false, note := { waking := some 0, stale := true } },
    hi.dataStep ht hg rfl rfl rfl rfl rfl (fun u hu => ?_)
    { ho with
      under := fun hc => absurd (hg.symm.trans hc) nofun, saw := fun _ hb => Option.some.inj hb, owns := ⟨nofun, nofun⟩,
      stale := fun _ => ⟨hin, .inr rfl⟩, holds := fun hc => absurd (hin.symm.trans hc) nofun, going :=
        nofun } rfl rfl nofun (.inr (.inl rfl)), rfl⟩
  rw [ho.owns.2 hown]
  simp [hu.symm]

/-- `lk->pid = 0`. -/
theorem clearPid_spec (hg : g.lk = true) (hsaw : g.saw = some false) :
    Spec pids t (.step fun _ s => .ok () { s with pid := 0 }) g fun (_ : Unit) g' =>
      g' = { g with note := { waking := some 0 } } := by
  refine .step fun s γ hi ht _ => ?_
  have ho := hi.self ht
  have hnone := hi.unowned (ho.saw false hsaw)
  refine ⟨{ g with note := { waking := some 0 } }, hi.dataStep ht hg rfl rfl rfl rfl rfl (fun _ _ => Iff.rfl)
    { ho with under := fun hc => absurd (hg.symm.trans hc) nofun, stale := nofun, going := nofun } rfl hi.global.owner
      (fun _ => ?_) (.inr (.inl rfl)), rfl⟩
  rw [hnone]
  rfl

/-- The wakeup of the process `p`. -/
theorem wake_spec (hg : g.lk = true) (hp : g.plk = some p) (hn : g.note = { waking := some p.val }) :
    Spec pids t (modProc p fun x => if x.state = .sleeping ∧ x.chan = some .lk then { x with state := .runnable } else x)
      g fun _ g' =>
      g' = { g with note := { waking := some (p.val + 1) } } := by
  refine .step fun s γ hi ht _ => ?_
  have ho := hi.self ht
  refine ⟨{ g with note := { waking := some (p.val + 1) } },
    hi.quiet rfl rfl rfl rfl { ho with under := fun hc => absurd (hg.symm.trans hc) nofun, stale := nofun, going := nofun }
      { hi.global with
        ids := hi.global.modProc_ids fun _ => ?_, pid := fun hall => hi.global.pid fun u => ?_
        sleepers := fun q hq => ?_ }, rfl⟩
  · split <;> rfl
  · rw [← hall u, update_keep Note.stale rfl]
    rw [ht, hn]
  · rcases eq_or_ne q p with rfl | hne
    · -- the process is not about to sleep, because its lock is taken
      exfalso
      rcases hq with hq | hq
      · rcases eq_or_ne q t with rfl | hne
        · rw [update_self] at hq
          cases hq
        · rw [update_of_ne hne] at hq
          have h1 := ((hi.own q).plock q).2 ((hi.own q).going hq)
          rw [(ho.plock q).2 hp] at h1
          exact hne (Option.some.inj h1).symm
      · rw [Asleep, State.modProc_self] at hq
        split at hq
        · cases hq.1
        · rename_i hc
          exact hc hq
    · have hold : (γ q).note.going = true ∨ Asleep s q := by
        refine hq.imp (fun hq => ?_) fun hq => ?_
        · rcases eq_or_ne q t with rfl | hne
          · rw [update_self] at hq
            cases hq
          · rwa [update_of_ne hne] at hq
        · rwa [Asleep, State.modProc_of_ne _ _ hne] at hq
      refine (hi.global.sleepers q hold).imp_right ?_
      rintro ⟨u, i, hu, hle⟩
      rcases eq_or_ne u t with rfl | hut
      · rw [ht, hn, Option.some_inj] at hu
        have : q.val ≠ p.val := fun e => hne (Fin.ext e)
        exact ⟨u, p.val + 1, by rw [update_self], by omega⟩
      · exact ⟨u, i, by rwa [update_of_ne hut], hle⟩

/-- After the wakeup nobody sleeps. -/
theorem wakeupLk_spec (hg : g.lk = true) (hp : g.plk = none) (hn : g.note = { waking := some 0 }) :
    Spec pids t (wakeup .lk) g fun _ g' => g' = { g with note := { waking := some n } } := by
  refine .bind (.forFin (J := fun i g' => g' = { g with note := { waking := some i } }) (R := fun _ _ => False) ?_ ?_) ?_
  · rintro p _ rfl
    refine .next (acquire_spec hp) fun _ => ?_
    refine .next (wake_spec hg rfl rfl) fun _ => ?_
    exact .next (release_back (g := { g with note := { waking := some (p.val + 1) } }) hp rfl) fun _ => Safe.ret rfl
  · rw [← hn]
  · intro r g' hr
    cases r with
    | none => exact .ret hr
    | some _ => exact absurd hr id

theorem releasesleep_spec : Spec pids t releasesleep { owns := true } fun _ g' => g' = {} := by
  refine .next (preempt_same rfl rfl) fun _ => ?_
  refine .next acquireLk_spec fun _ => ?_
  refine .next (setLocked_false rfl rfl rfl) fun _ => ?_
  refine .next (clearPid_spec rfl rfl) fun _ => ?_
  refine .next (wakeupLk_spec rfl rfl rfl) fun _ => ?_
  refine releaseLk_spec rfl rfl fun i hi => ?_
  exact le_of_eq (Option.some.inj hi)

/-- `lk->pid` is that of the process that has the lock, as far as others can
see. -/
theorem Inv.pid_eq (hi : Inv pids s γ)
    (hst : ∀ u, (γ u).lk = true → (γ u).note.stale = false) : s.pid = s.hist.owner.elim 0 pids := by
  refine hi.global.pid fun u => ?_
  cases hu : (γ u).lk with
  | true => exact hst u hu
  | false => exact ((hi.own u).under hu).2.2

/-- `holdingsleep` tells whether the process is inside. -/
theorem holdingsleep_same (b : Bool) : Same pids t holdingsleep (idleGhost b) := by
  refine .next (preempt_same rfl rfl) fun _ => ?_
  refine .next acquireLk_spec fun _ => ?_
  refine .bind (R := fun _ g' => g' = { idleGhost b with lk := true }) (.step fun s γ hi ht _ => ⟨γ t, ?_, ht⟩) ?_
  · rw [update_eq_self]
    have ho := hi.self ht
    have hpid : s.pid = s.hist.owner.elim 0 pids := hi.pid_eq fun u hu => by
      rcases eq_or_ne u t with rfl | hne
      · rw [ht]
        rfl
      · rw [hi.lk_unique (t := t) (by rw [ht]) hne] at hu
        cases hu
    refine ⟨fun u => (hi.own u).stable Iff.rfl (fun _ => Iff.rfl) Iff.rfl rfl fun _ => ⟨rfl, rfl⟩,
      { hi.global with judged := fun hinj => ?_ }⟩
    have hanswer : (s.locked && decide (s.pid = (s.proc t).pid)) = s.hist.inside t := by
      rw [ho.inside, hi.global.owner, hi.global.ids, hpid]
      cases b with
      | true =>
        rw [ho.owns.2 rfl]
        simp [idleGhost]
      | false =>
        cases hown : s.hist.owner with
        | none => rfl
        | some u =>
          have hne : pids u ≠ pids t := fun e => by
            rw [hinj e] at hown
            have := ho.owns.1 hown
            cases this
          simp [idleGhost, hne]
    rw [hanswer, hi.global.judged hinj, bne_self_eq_false]
    rfl
  rintro r _ rfl
  exact .next (releaseLk_spec rfl rfl fun i hc => by cases hc) fun _ => Safe.ret rfl

theorem setInside_spec (b : Bool) (hg : g = { owns := true, inside := b }) (b' : Bool) :
    Spec pids t (setInside b') g fun _ g' => g' = { owns := true, inside := b' } := by
  refine .step fun s γ hi ht _ => ?_
  have ho := hi.own t
  rw [ht, hg] at ho
  refine ⟨{ owns := true, inside := b' },
    .of_step (fun u hu => (hi.own u).stable Iff.rfl (fun _ => Iff.rfl) Iff.rfl ?_ fun _ => ⟨rfl, rfl⟩)
    { ho with
      under := fun _ => ⟨rfl, rfl, rfl⟩, stale := nofun, inside := update_self .., holds := fun _ => rfl
      going := nofun } ?_, rfl⟩
  · exact update_of_ne hu ..
  · rw [Inv.note_eq _ ht (by rw [hg])]
    exact hi.global.congr rfl rfl rfl rfl rfl

/-! ## Every run -/

theorem start_inv (pids : Fin n → BitVec 32) : Inv pids (initsleeplock pids) fun _ => {} where
  own t := by
    refine ⟨?_, fun p => ?_, fun _ => ⟨rfl, rfl, rfl⟩, nofun, ?_, nofun, rfl, nofun, nofun⟩ <;> simp [initsleeplock]
  global := by
    refine ⟨fun _ => rfl, rfl, fun _ => rfl, fun p hp => ?_, fun _ => rfl⟩
    rcases hp with hp | hp
    · cases hp
    · cases hp.1

theorem call_spec {x : Call} (h : (client n).allowed t b x = true) :
    Spec pids t ((client n).body x b) (idleGhost b) fun l g' => g' = idleGhost l := by
  cases x with
  | acquiresleep =>
    refine .next (acquiresleep_spec b) fun _ => ?_
    exact .next (setInside_spec b rfl true) fun _ => Safe.ret rfl
  | releasesleep =>
    obtain rfl : b = true := h
    refine .next (setInside_spec true rfl false) fun _ => ?_
    exact .next releasesleep_spec fun _ => Safe.ret rfl
  | holdingsleep =>
    exact .next (holdingsleep_same b) fun _ => Safe.ret rfl
  | sleep a =>
    exact .next (sleep_same a rfl rfl) fun _ => Safe.ret rfl
  | wakeup a =>
    exact .next (wakeup_same a rfl rfl) fun _ => Safe.ret rfl
  | kill pid =>
    exact .next (kill_same pid rfl rfl) fun _ => Safe.ret rfl
  | yield =>
    exact .next (yield_same rfl rfl) fun _ => Safe.ret rfl

/-- What the invariant says about a process that is inside. -/
theorem Inv.inside (h : Inv pids s γ) (ht : s.hist.inside t = true) : s.hist.owner = some t ∧ s.locked = true ∧
    s.pid = pids t := by
  have hin : (γ t).inside = true := (h.own t).inside.symm.trans ht
  have hown : s.hist.owner = some t := (h.own t).owns.2 ((h.own t).holds hin)
  have hpid := h.pid_eq fun u _ => by
    cases hst : (γ u).note.stale with
    | false => rfl
    | true =>
      obtain ⟨hno, hc⟩ := (h.own u).stale hst
      rw [hown] at hc
      rcases hc with hc | hc
      · obtain rfl := Option.some.inj hc
        rw [hin] at hno
        cases hno
      · cases hc
  refine ⟨hown, ?_, ?_⟩
  · rw [h.global.owner, hown]
    rfl
  · rw [hpid, hown]
    rfl

end Xv6.Sleeplock
