import Xv6.Pipe.Model

/-!
# The functions of `pipe.c` keep the invariant

The bytes delivered, followed by those in the ring, are the bytes accepted, if
the buffers of the calls are valid; and of each call in progress it is known
how many of its bytes have been accepted or delivered so far. Only the process
that holds `pi->lock` moves the counters, so what it has seen of them stays
true.

A reader that sleeps finds the pipe empty, and a writer that sleeps finds it
full, unless the process that holds `pi->lock` still owes them a wakeup. It
pays before it lets go of the lock, with one exception: when `pipewrite` gives
up because the pipe is full and the reader is gone or the process has been
killed, it does not wake up the readers for the bytes that it has stored before.
-/

namespace Xv6.Pipe

open Function List
open Option (getD_some)

/-- A reader has to wait. -/
def Empty (s : State) : Prop := s.nread = s.nwrite ∧ s.writeopen = true

/-- A writer has to wait. -/
def Full (s : State) : Prop := s.nwrite = s.nread + .ofNat 32 pipesize ∧ s.readopen = true

/-- What the process that holds the lock has seen of the pipe. -/
inductive Seen where
  | nothing
  | room
  | noRoom
  | full
  | empty

/-- For `room` there is `J.room`, which holds also after `kfree`. -/
def Seen.Holds (s : State) : Seen → Prop
  | .noRoom => s.nwrite = s.nread + .ofNat 32 pipesize
  | .full => Full s
  | .empty => Empty s
  | _ => True

/-- The wakeup that the process that holds the lock owes: to the readers for
the bytes it has stored or because it has closed the write end, or to the
writers. -/
inductive Owes where
  | nothing
  | bytes
  | readers
  | writers

def Owes.toReaders : Owes → Bool
  | .bytes | .readers => true
  | _ => false

def Owes.toWriters : Owes → Bool
  | .writers => true
  | _ => false

/-- What is known of the process that holds the lock. -/
structure Know where
  sees : Seen := .nothing
  owes : Owes := .nothing

/-- The calls in progress and those that have returned agree with the
history. -/
structure Calls (h : Hist) (call : Pid → Option (Nat × Nat)) : Prop where
  own : ∀ t c i, call t = some (c, i) → c < h.ncalls ∧ h.own c = i
  inj : ∀ t u c i j, call t = some (c, i) → call u = some (c, j) → t = u
  fresh : ∀ c, h.ncalls ≤ c → h.own c = 0
  rets : ∀ x ∈ h.rets, x.1 < h.ncalls ∧ (∀ t i, call t ≠ some (x.1, i)) ∧ (x.2 ≠ -1 → x.2 = h.own x.1)

/-- What the process that holds the lock knows is true, and what the sleepers
miss it owes them, if `pipewrite` has never given up before it has told the
readers of the bytes it has stored. -/
structure Fits (s : State) (chan : Pid → Option Chan) (h : Know) : Prop where
  sees : h.sees.Holds s
  unwoken : h.owes = .bytes → s.wakes.unwoken = true
  readers : s.wakes.gaveUp = false → ∀ u, chan u = some .nread → Empty s ∨ h.owes.toReaders = true
  writers : s.wakes.gaveUp = false → ∀ u, chan u = some .nwrite → Full s ∨ h.owes.toWriters = true

/-- The invariant of the pipe and of the calls in progress; `k` is known of the
process that holds the lock, and `valid` says that the buffers are. -/
structure J (valid : Prop) (s : State) (chan : Pid → Option Chan) (k : Option Know)
    (call : Pid → Option (Nat × Nat)) : Prop where
  room : ∀ h, k = some h → h.sees = .room → (s.nwrite - s.nread).toNat < pipesize
  size : (s.nwrite - s.nread).toNat ≤ pipesize
  fifo : valid → s.freed = false → s.hist.delivered.map (·.byte) ++ s.buffered = s.hist.accepted.map (·.byte)
  calls : Calls s.hist call
  fits : s.freed = false → Fits s chan (k.getD {})

/-- For a call in progress, the process has its number and that of the bytes
moved so far. -/
abbrev Ghost := Mon.Ghost Know (Option (Nat × Nat))

theorem start_inv (valid : Prop) (data : Nat → UInt8) (mem : Pid → BitVec 64 → UInt8) :
    Mon.Inv (J valid) (pipealloc data mem) fun _ => ⟨none, none⟩ where
  lock _ := by simp [pipealloc]
  data := ⟨nofun, by simp [pipealloc], fun _ _ => by simp [pipealloc, State.buffered], ⟨nofun, nofun, fun _ _ => rfl, nofun⟩,
    fun _ => ⟨trivial, nofun, fun _ => nofun, fun _ => nofun⟩⟩

/-! ## The history -/

section Calls

variable {h : Hist} {call : Pid → Option (Nat × Nat)} {t : Pid} {c i : Nat}

theorem Calls.begin (hc : Calls h call) (ht : call t = none) :
    Calls { h with ncalls := h.ncalls + 1 } (update call t (some (h.ncalls, 0))) := by
  have hlt : ∀ u c i, call u = some (c, i) → c < h.ncalls := fun u c i e => (hc.own u c i e).1
  constructor
  · intro u c i e
    rcases eq_or_ne u t with rfl | hu
    · obtain ⟨rfl, rfl⟩ : h.ncalls = c ∧ 0 = i := by simpa using e
      exact ⟨Nat.lt_succ_self _, hc.fresh _ (le_rfl)⟩
    · rw [update_of_ne hu] at e
      exact ⟨Nat.lt_succ_of_lt (hlt u c i e), (hc.own u c i e).2⟩
  · intro u v c i j eu ev
    rcases eq_or_ne u t with hu | hu <;> rcases eq_or_ne v t with hv | hv
    · exact hu.trans hv.symm
    · obtain ⟨rfl, -⟩ : h.ncalls = c ∧ 0 = i := by simpa [hu] using eu
      rw [update_of_ne hv] at ev
      exact absurd (hlt _ _ _ ev) (lt_irrefl _)
    · obtain ⟨rfl, -⟩ : h.ncalls = c ∧ 0 = j := by simpa [hv] using ev
      rw [update_of_ne hu] at eu
      exact absurd (hlt _ _ _ eu) (lt_irrefl _)
    · rw [update_of_ne hu] at eu
      rw [update_of_ne hv] at ev
      exact hc.inj u v c i j eu ev
  · exact fun c hle => hc.fresh c (Nat.le_of_succ_le hle)
  · intro x hx
    obtain ⟨hx, hn, hr⟩ := hc.rets x hx
    refine ⟨Nat.lt_succ_of_lt hx, fun u i e => ?_, hr⟩
    rcases eq_or_ne u t with rfl | hu
    · obtain ⟨e, -⟩ : h.ncalls = x.1 ∧ 0 = i := by simpa using e
      omega
    · exact hn u i (by rwa [update_of_ne hu] at e)

/-- A byte of `t`'s call is accepted or delivered. -/
theorem Calls.move {h' : Hist} (hc : Calls h call) (ht : call t = some (c, i)) (hn : h'.ncalls = h.ncalls)
    (hr : h'.rets = h.rets) (ho : ∀ d, h'.own d = h.own d + if d = c then 1 else 0) :
    Calls h' (update call t (some (c, i + 1))) := by
  obtain ⟨hclt, hown⟩ := hc.own t c i ht
  have hinj : ∀ u j, call u = some (c, j) → u = t := fun u j e => hc.inj u t c j i e ht
  constructor
  · intro u d j e
    rcases eq_or_ne u t with rfl | hu
    · obtain ⟨rfl, rfl⟩ : c = d ∧ i + 1 = j := by simpa using e
      exact ⟨hn ▸ hclt, by rw [ho, if_pos rfl, hown]⟩
    · rw [update_of_ne hu] at e
      have hd : d ≠ c := fun hd => hu (hinj u j (hd ▸ e))
      exact ⟨hn ▸ (hc.own u d j e).1, by rw [ho, if_neg hd]; exact (hc.own u d j e).2⟩
  · intro u v d j k eu ev
    have hold : ∀ w j, update call t (some (c, i + 1)) w = some (d, j) → ∃ j', call w = some (d, j') := by
      intro w j e
      rcases eq_or_ne w t with rfl | hw
      · obtain ⟨rfl, -⟩ : c = d ∧ i + 1 = j := by simpa using e
        exact ⟨i, ht⟩
      · exact ⟨j, by rwa [update_of_ne hw] at e⟩
    obtain ⟨j', eu⟩ := hold u j eu
    obtain ⟨k', ev⟩ := hold v k ev
    exact hc.inj u v d j' k' eu ev
  · intro d hd
    rw [hn] at hd
    rw [ho, if_neg (by omega), hc.fresh d hd]
  · intro x hx
    rw [hr] at hx
    obtain ⟨hlt, hne, hv⟩ := hc.rets x hx
    have hxc : x.1 ≠ c := fun e => hne t i (e ▸ ht)
    refine ⟨hn ▸ hlt, fun u j e => ?_, fun h1 => by rw [ho, if_neg hxc]; exact hv h1⟩
    rcases eq_or_ne u t with rfl | hu
    · exact hxc (by simpa using (congrArg (Option.map Prod.fst) e).symm)
    · exact hne u j (by rwa [update_of_ne hu] at e)

theorem Calls.end (hc : Calls h call) (ht : call t = some (c, i)) {r : Int} (hr : r ≠ -1 → r = i) :
    Calls { h with rets := (c, r) :: h.rets } (update call t none) := by
  obtain ⟨hclt, hown⟩ := hc.own t c i ht
  have hold : ∀ u d j, update call t none u = some (d, j) → u ≠ t ∧ call u = some (d, j) := by
    intro u d j e
    rcases eq_or_ne u t with rfl | hu
    · simp at e
    · exact ⟨hu, by rwa [update_of_ne hu] at e⟩
  refine ⟨fun u d j e => hc.own u d j (hold u d j e).2, fun u v d j k eu ev =>
    hc.inj u v d j k (hold u d j eu).2 (hold v d k ev).2, hc.fresh, fun x hx => ?_⟩
  rcases mem_cons.1 hx with rfl | hx
  · refine ⟨hclt, fun u j e => ?_, fun h1 => ?_⟩
    · obtain ⟨hu, e⟩ := hold u c j e
      exact hu (hc.inj u t c j i e ht)
    · rw [hr h1]
      exact congrArg Nat.cast hown.symm
  · obtain ⟨hlt, hne, hv⟩ := hc.rets x hx
    exact ⟨hlt, fun u j e => hne u j (hold u _ j e).2, hv⟩

end Calls

/-! ## Steps -/

variable {valid : Prop} {mapped : Pid → BitVec 64 → Bool} {t : Pid} {s s' : State} {chan chan' : Pid → Option Chan} {h : Know}
  {k k' : Option Know} {o o' : Option (Nat × Nat)} {call : Pid → Option (Nat × Nat)} {α : Type} {f : Pid → State → α × State}
  {Q : α → Ghost → Prop}

/-- The program keeps the invariant and does not panic. -/
abbrev Spec (valid : Prop) (t : Pid) (p : KProg α) (x : Ghost) (Q : α → Ghost → Prop) : Prop :=
  Mon.Spec (J valid) (fun _ => True) (fun _ => False) t p x Q

/-- The ring and the history stay as they are. -/
def SameRing (s s' : State) : Prop :=
  s'.nread = s.nread ∧ s'.nwrite = s.nwrite ∧ s'.data = s.data ∧ s'.freed = s.freed ∧ s'.hist = s.hist

theorem SameRing.refl (s : State) : SameRing s s := ⟨rfl, rfl, rfl, rfl, rfl⟩

/-- A step that does not move bytes. -/
theorem J.step (hJ : J valid s chan k call) (hr : SameRing s s')
    (hroom : ∀ h, k' = some h → h.sees = .room → (s.nwrite - s.nread).toNat < pipesize)
    (hs : s'.freed = false → Fits s' chan' (k'.getD {})) : J valid s' chan' k' call := by
  obtain ⟨hnr, hnw, hd, hfr, hh⟩ := hr
  refine ⟨by rwa [hnr, hnw], by rw [hnr, hnw]; exact hJ.size, fun hv hf => ?_, by rw [hh]; exact hJ.calls, hs⟩
  rw [State.buffered, hh, hnr, hnw, hd]
  exact hJ.fifo hv (hfr ▸ hf)

/-- A step of the process that holds the lock that does not move bytes. -/
theorem know_spec (hf : ∀ s chan call, J valid s chan (some h) call → SameRing s (f t s).2 ∧
      ∃ h', (h'.sees = .room → (s.nwrite - s.nread).toNat < pipesize) ∧
        (s.freed = false → Fits (f t s).2 chan h') ∧ Q (f t s).1 ⟨some h', o⟩) : Spec valid t (atomic f) ⟨some h, o⟩ Q :=
  Mon.holder_spec fun s chan call ho hJ => by
    obtain ⟨hr, h', hroom, hfits, hQ⟩ := hf s chan call hJ
    refine ⟨h', o, ?_, hQ⟩
    rw [← ho, update_eq_self]
    exact hJ.step hr (fun _ e => Option.some.inj e ▸ hroom) fun hf => hfits (hr.2.2.2.1 ▸ hf)

/-- The process sees something of the pipe and goes on. -/
theorem read_spec (f : Pid → State → α) : Spec valid t (atomic fun t s => (f t s, s)) ⟨some h, o⟩ fun _ x => x = ⟨some h, o⟩ :=
  know_spec fun s _ _ hJ => ⟨.refl s, h, hJ.room h rfl, hJ.fits, rfl⟩

/-- A step of a process without the lock that leaves the pipe alone. -/
theorem other_spec (hf : ∀ s, SameRing s (f t s).2 ∧ (f t s).2.readopen = s.readopen ∧ (f t s).2.writeopen = s.writeopen ∧
      (f t s).2.wakes = s.wakes) : Spec valid t (atomic f) ⟨none, o⟩ fun _ x => x = ⟨none, o⟩ :=
  Mon.other_spec fun s chan k call ho hJ => by
    obtain ⟨hr, hro, hwo, hu⟩ := hf s
    refine ⟨o, ?_, rfl⟩
    rw [← ho, update_eq_self]
    refine hJ.step hr hJ.room fun hf => ?_
    obtain ⟨hsees, hun, hreaders, hwriters⟩ := hJ.fits (hr.2.2.2.1 ▸ hf)
    have hempty : Empty (f t s).2 ↔ Empty s := by rw [Empty, Empty, hr.1, hr.2.1, hwo]
    have hfull : Full (f t s).2 ↔ Full s := by rw [Full, Full, hr.1, hr.2.1, hro]
    rw [← hu] at hun hreaders hwriters
    refine ⟨?_, hun, by simpa only [hempty] using hreaders, by simpa only [hfull] using hwriters⟩
    generalize k.getD {} = h at hsees
    cases hs : h.sees <;> rw [hs] at hsees <;> simp only [Seen.Holds, hr.1, hr.2.1, hempty, hfull] at hsees ⊢ <;> exact hsees

theorem J.get (hJ : J valid s chan none call) : J valid s chan (some {}) call :=
  hJ.step (.refl s) (fun _ e => by cases e; nofun) fun hf => ⟨trivial, nofun, (hJ.fits hf).readers, (hJ.fits hf).writers⟩

theorem acquire_spec : Spec valid t Mon.acquire ⟨none, o⟩ fun _ x => x = ⟨some {}, o⟩ :=
  Mon.acquire_spec ({} : Know) fun _ _ _ => J.get

/-- The lock is released by a process that owes nothing, which may go to sleep. -/
theorem J.drop (hJ : J valid s chan (some h) call) (ho : h.owes = .nothing)
    (hr : h.sees.Holds s → ∀ u, chan' u = some .nread → chan u = some .nread ∨ Empty s)
    (hw : h.sees.Holds s → ∀ u, chan' u = some .nwrite → chan u = some .nwrite ∨ Full s) : J valid s chan' none call :=
  hJ.step (.refl s) nofun fun hf => by
    obtain ⟨hsees, -, hreaders, hwriters⟩ := hJ.fits hf
    rw [getD_some, ho] at hreaders hwriters
    exact ⟨trivial, nofun, fun hg u e => (hr hsees u e).elim (hreaders hg u) .inl,
      fun hg u e => (hw hsees u e).elim (hwriters hg u) .inl⟩

theorem release_spec (ho : h.owes = .nothing) : Spec valid t Mon.release ⟨some h, o⟩ fun _ x => x = ⟨none, o⟩ :=
  Mon.release_spec fun _ _ _ _ hJ => hJ.drop ho (fun _ _ => .inl) fun _ _ => .inl

/-- A process goes to sleep on `c` when it has seen that it has to wait for it. -/
theorem sleep_spec {c : Chan} (ho : h.owes = .nothing) (hc : ∀ s, h.sees.Holds s → match c with
      | .nread => Empty s
      | .nwrite => Full s) : Spec valid t (Mon.sleep c) ⟨some h, o⟩ fun _ x => x = ⟨some {}, o⟩ := by
  refine Mon.sleep_spec ({} : Know) (fun s chan call _ hJ => ?_) fun _ _ _ => J.get
  refine hJ.drop ho (fun hs u e => ?_) fun hs u e => ?_ <;> have hc := hc s hs <;> rcases eq_or_ne u t with rfl | hu
  · obtain rfl : c = .nread := by simpa using e
    exact .inr hc
  · exact .inl (by simpa [update_of_ne hu] using e)
  · obtain rfl : c = .nwrite := by simpa using e
    exact .inr hc
  · exact .inl (by simpa [update_of_ne hu] using e)

/-- Who sleeps after a wakeup slept before, on another channel. -/
theorem chan_of_woken {c d : Chan} {u : Pid} (h : Mon.woken c chan u = some d) : chan u = some d ∧ d ≠ c := by
  unfold Mon.woken at h
  split at h
  · cases h
  · rename_i hc
    exact ⟨h, fun e => hc (e ▸ h)⟩

theorem wakeupReaders_spec (ho : h.owes ≠ .writers) :
    Spec valid t wakeupReaders ⟨some h, o⟩ fun _ x => x = ⟨some { h with owes := .nothing }, o⟩ := by
  refine .next (e := fun _ => ⟨some { h with owes := .nothing }, o⟩) (Mon.wakeup_spec _ fun s chan call _ hJ => ?_) fun _ => ?_
  · refine hJ.step (.refl s) (fun _ e => by cases e; exact hJ.room h rfl) fun hf => ?_
    obtain ⟨hsees, -, -, hwriters⟩ := hJ.fits hf
    refine ⟨hsees, nofun, fun _ u e => absurd rfl (chan_of_woken e).2, fun hg u e => ?_⟩
    refine .inl ((hwriters hg u (chan_of_woken e).1).resolve_right fun hw => ?_)
    cases hc : h.owes <;> rw [getD_some, hc] at hw <;> first | exact ho hc | cases hw
  · refine know_spec fun s _ _ hJ => ⟨.refl s, { h with owes := .nothing }, hJ.room _ rfl, fun hf => ?_, rfl⟩
    obtain ⟨hsees, -, hreaders, hwriters⟩ := hJ.fits hf
    refine ⟨?_, nofun, hreaders, hwriters⟩
    cases hs : h.sees <;> rw [getD_some, hs] at hsees <;> exact hsees

theorem wakeup_nwrite_spec (ho : h.owes = .nothing ∨ h.owes = .writers) :
    Spec valid t (Mon.wakeup .nwrite) ⟨some h, o⟩ fun _ x => x = ⟨some { h with owes := .nothing }, o⟩ := by
  refine Mon.wakeup_spec _ fun s chan call _ hJ => ?_
  refine hJ.step (.refl s) (fun _ e => by cases e; exact hJ.room h rfl) fun hf => ?_
  obtain ⟨hsees, -, hreaders, -⟩ := hJ.fits hf
  refine ⟨hsees, nofun, fun hg u e => ?_, fun _ u e => absurd rfl (chan_of_woken e).2⟩
  refine .inl ((hreaders hg u (chan_of_woken e).1).resolve_right fun hr => ?_)
  rcases ho with ho | ho <;> rw [getD_some, ho] at hr <;> cases hr

/-! ## The functions of `pipe.c` -/

/-- `pipewrite` owes the readers a wakeup if it has stored bytes. -/
def Know.Writes (h : Know) : Prop := h.owes = .nothing ∨ h.owes = .bytes

theorem Know.Writes.ne_writers (hw : h.Writes) : h.owes ≠ .writers := by
  rcases hw with ho | ho <;> rw [ho] <;> nofun

/-- After the loop either the pipe has room and stays so while the lock is held,
or the lock has been released, by a process that has stored nothing since it
last woke up the readers. -/
theorem waitNotFull_spec (hw : h.Writes) : Spec valid t waitNotFull ⟨some h, o⟩ fun r x =>
    if r then ∃ h, h.Writes ∧ h.sees = .room ∧ x = ⟨some h, o⟩ else x = ⟨none, o⟩ := by
  refine .loop (J := fun _ x => ∃ h, h.Writes ∧ x = ⟨some h, o⟩) ?_ ⟨h, hw, rfl⟩
  rintro _ _ ⟨h, hw, rfl⟩
  refine .next (e := fun full => ⟨some { h with sees := if full then .noRoom else .room }, o⟩)
    (know_spec fun s chan call hJ => ⟨.refl s, _, fun hs => ?_, fun hf => ?_, rfl⟩) fun full => ?_
  · refine Nat.lt_of_le_of_ne hJ.size fun hfull => ?_
    rw [← Ring.eq_add_cap_iff (by decide)] at hfull
    simp [hfull] at hs
  · obtain ⟨-, hun, hreaders, hwriters⟩ := hJ.fits hf
    refine ⟨?_, hun, hreaders, hwriters⟩
    by_cases hfull : s.nwrite = s.nread + .ofNat 32 pipesize
    · simp [hfull, Seen.Holds]
    · simp [hfull, Seen.Holds]
  cases full with
  | false => exact .ret ⟨{ h with sees := .room }, hw, rfl, rfl⟩
  | true =>
    refine .next (e := fun stop => ⟨some (if stop then {} else { h with sees := .full }), o⟩)
      (know_spec fun s chan call hJ => ⟨.refl s, _, fun hs => ?_, fun hf => ?_, rfl⟩) fun stop => ?_
    · split at hs <;> cases hs
    · obtain ⟨hsees, hun, hreaders, hwriters⟩ := hJ.fits hf
      have hold : (s.wakes.gaveUp || s.wakes.unwoken && (!s.readopen || s.killed t)) = false → s.wakes.gaveUp = false :=
        fun hg =>
        (Bool.or_eq_false_iff.1 hg).1
      split
      · rename_i hstop
        dsimp only at hstop
        -- it gives up: if it has stored no bytes, it owes nothing
        have hnot : (s.wakes.gaveUp || s.wakes.unwoken && (!s.readopen || s.killed t)) = false → h.owes = .nothing := fun hg =>
          hw.resolve_right fun hb => by
            rw [hstop, hun hb, Bool.true_and, Bool.or_true] at hg
            exact Bool.false_ne_true hg.symm
        refine ⟨trivial, nofun, fun hg u e => ?_, fun hg u e => ?_⟩
        · have := hreaders (hold hg) u e
          rwa [getD_some, hnot hg] at this
        · have := hwriters (hold hg) u e
          rwa [getD_some, hnot hg] at this
      · rename_i hstop
        have hopen : s.readopen = true := by
          cases hr : s.readopen with
          | true => rfl
          | false => simp [hr] at hstop
        exact ⟨⟨hsees, hopen⟩, hun, fun hg => hreaders (hold hg), fun hg => hwriters (hold hg)⟩
    cases stop with
    | true => exact .next (release_spec rfl) fun _ => Safe.ret rfl
    | false =>
      refine .next (wakeupReaders_spec (h := { h with sees := .full }) hw.ne_writers) fun _ => ?_
      refine .next (sleep_spec rfl fun s hs => hs) fun _ => ?_
      exact .ret ⟨_, .inl rfl, rfl⟩

theorem own_accept (h : Hist) (c : Nat) (ch : UInt8) (d : Nat) :
    Hist.own { h with accepted := h.accepted ++ [⟨c, ch⟩] } d = h.own d + if d = c then 1 else 0 := by
  rcases eq_or_ne d c with rfl | hd
  · simp [Hist.own]; omega
  · simp [Hist.own, hd, hd.symm]

theorem own_deliver (h : Hist) (c : Nat) (ch : UInt8) (d : Nat) :
    Hist.own { h with delivered := h.delivered ++ [⟨c, ch⟩] } d = h.own d + if d = c then 1 else 0 := by
  rcases eq_or_ne d c with rfl | hd
  · simp [Hist.own]; omega
  · simp [Hist.own, hd, hd.symm]

variable {c i : Nat} {a addr : BitVec 64} {n : Int}

/-- There is room, so no writer sleeps, and the readers are owed a wakeup. -/
theorem putByte_spec (hw : h.Writes) (hs : h.sees = .room) : Spec valid t (putByte mapped c a) ⟨some h, some (c, i)⟩ fun r x =>
    ∃ h : Know, h.Writes ∧ x = ⟨some h, some (c, if r then i + 1 else i)⟩ := by
  refine Mon.holder_spec fun s chan call hk hJ => ?_
  have hroom := hJ.room h rfl hs
  dsimp only
  split
  · exact ⟨h, some (c, i), by rwa [← hk, update_eq_self], _, hw, rfl⟩
  · refine ⟨{ owes := .bytes }, _, ⟨nofun, ?_, fun hv hf => ?_, hJ.calls.move hk rfl rfl (own_accept _ _ _), fun hf => ?_⟩,
      _, .inr rfl, rfl⟩
    · have hw : (s.nwrite - s.nread).toNat + 1 < 2 ^ 32 := lt_of_le_of_lt hroom (by decide)
      show (s.nwrite + 1 - s.nread).toNat ≤ pipesize
      rw [Ring.toNat_sub_succ hw]
      exact hroom
    · simp only [State.buffered, map_append, map_cons, map_nil]
      rw [Ring.contents_push (by decide) (by decide) _ hroom, ← hJ.fifo hv hf, append_assoc, State.buffered]
    · obtain ⟨-, -, -, hwriters⟩ := hJ.fits hf
      refine ⟨trivial, fun _ => rfl, fun _ _ _ => .inr rfl, fun hg u e => ?_⟩
      rcases hwriters hg u e with hfull | ho
      · rw [Full, Ring.eq_add_cap_iff (by decide)] at hfull
        exact absurd hfull.1 (ne_of_lt hroom)
      · rcases hw with hw | hw <;> rw [getD_some, hw] at ho <;> cases ho

theorem validBuf_apply (hv : validBuf mapped t addr n = true) {i : Nat} (hi : (i : Int) < n) :
    mapped t (addr + .ofNat 64 i) = true :=
  all_eq_true.1 hv i (mem_range.2 (by omega))

/-- What a call leaves behind: the lock is free, and a return value other
than -1 is the number of the call's bytes. -/
def Returned (c : Nat) (r : Int) (x : Ghost) : Prop :=
  ∃ i, x = ⟨none, some (c, i)⟩ ∧ (r ≠ -1 → r = i)

/-- How the loop of `pipewrite` ends: without the lock, or writing. -/
abbrev Wrote (c : Nat) : Option Nat → Ghost → Prop
  | none, x => ∃ i, x = ⟨none, some (c, i)⟩
  | some i, x => ∃ h : Know, h.Writes ∧ x = ⟨some h, some (c, i)⟩

theorem pipewrite_spec : Spec valid t (pipewrite mapped c addr n) ⟨none, some (c, 0)⟩ (Returned c) := by
  refine .next acquire_spec fun _ => ?_
  refine .bind (R := Wrote c) (.loop (J := fun i => Wrote c (some i)) ?_ ⟨_, .inl rfl, rfl⟩) fun r x hr => ?_
  · rintro i _ ⟨h, hw, rfl⟩
    split
    · refine .bind (waitNotFull_spec hw) fun ok x hx => ?_
      cases ok with
      | false => exact .ret ⟨i, hx⟩
      | true =>
        obtain ⟨h, hw, hs, rfl⟩ := hx
        refine .bind (putByte_spec hw hs) fun ok x hx => ?_
        cases ok <;> exact .ret hx
    · exact .ret ⟨h, hw, rfl⟩
  · cases r with
    | none =>
      obtain ⟨i, rfl⟩ := hr
      exact .ret ⟨i, rfl, fun h => absurd rfl h⟩
    | some i =>
      obtain ⟨h, hw, rfl⟩ := hr
      refine .next (wakeupReaders_spec hw.ne_writers) fun _ => ?_
      refine .next (release_spec rfl) fun _ => ?_
      exact .ret ⟨i, rfl, fun _ => rfl⟩

/-- `piperead` owes the writers a wakeup if it has taken bytes. -/
def Know.Reads (h : Know) : Prop := h.owes = .nothing ∨ h.owes = .writers

theorem waitNotEmpty_spec : Spec valid t waitNotEmpty ⟨some {}, o⟩ fun r x => x = ⟨if r then some {} else none, o⟩ := by
  refine .loop (J := fun _ x => x = ⟨some {}, o⟩) ?_ rfl
  rintro _ _ rfl
  refine .next (e := fun empty => ⟨some { sees := if empty then .empty else .nothing }, o⟩)
    (know_spec fun s chan call hJ => ⟨.refl s, _, fun hs => ?_, fun hf => ?_, rfl⟩) fun empty => ?_
  · dsimp only at hs
    split at hs <;> cases hs
  · obtain ⟨-, -, hreaders, hwriters⟩ := hJ.fits hf
    refine ⟨?_, nofun, hreaders, hwriters⟩
    split
    · rename_i he
      simpa [Seen.Holds, Empty] using he
    · trivial
  cases empty with
  | false => exact .ret rfl
  | true =>
    refine .next (read_spec _) fun killed => ?_
    split
    · exact .next (release_spec rfl) fun _ => Safe.ret rfl
    · exact .next (sleep_spec rfl fun s hs => hs) fun _ => Safe.ret rfl

/-- The pipe is not empty, so no reader sleeps, and the writers are owed a
wakeup, also for a byte that is lost. -/
theorem J.take (hJ : J valid s chan (some h) call) (hh : h.Reads) (hne : s.nread ≠ s.nwrite) (hr : s'.nread = s.nread + 1)
    (hw : s'.nwrite = s.nwrite) (hf' : s'.freed = s.freed) (hwk : s'.wakes = s.wakes)
    (hfifo : valid → s'.freed = false → s'.hist.delivered.map (·.byte) ++ s'.buffered = s'.hist.accepted.map (·.byte))
    (hcalls : Calls s'.hist (update call t o')) : J valid s' chan (some { owes := .writers }) (update call t o') := by
  refine ⟨nofun, ?_, hfifo, hcalls, fun hf => ?_⟩
  · have hsize := hJ.size
    rw [Ring.toNat_sub_pred hne] at hsize
    rw [hr, hw]
    exact Nat.le_of_succ_le hsize
  · obtain ⟨-, -, hreaders, -⟩ := hJ.fits (hf' ▸ hf)
    refine ⟨trivial, nofun, fun hg u e => ?_, fun _ _ _ => .inr rfl⟩
    rcases hreaders (hwk ▸ hg) u e with hempty | ho
    · exact absurd hempty.1 hne
    · rcases hh with hh | hh <;> rw [getD_some, hh] at ho <;> cases ho

theorem getByte_spec (hh : h.Reads) (ha : valid → mapped t a = true) :
    Spec valid t (getByte mapped c a) ⟨some h, some (c, i)⟩ fun r x =>
    ∃ h : Know, h.Reads ∧ x = ⟨some h, some (c, if r then i + 1 else i)⟩ := by
  refine Mon.holder_spec fun s chan call hk hJ => ?_
  dsimp only
  split
  · exact ⟨h, some (c, i), by rwa [← hk, update_eq_self], _, hh, rfl⟩
  · rename_i hne
    dsimp only [copyout]
    by_cases hm : mapped t a = true
    · simp only [if_pos hm]
      refine ⟨_, some (c, i + 1), hJ.take hh hne rfl rfl rfl rfl (fun hv hf => ?_) (hJ.calls.move hk rfl rfl ?_),
        _, .inr rfl, rfl⟩
      · simp only [State.buffered, map_append, map_cons, map_nil]
        rw [← hJ.fifo hv hf, State.buffered, Ring.contents_pop (by decide) _ hne, append_assoc]
        rfl
      · exact own_deliver _ _ _
    · simp only [if_neg hm]
      refine ⟨_, some (c, i), hJ.take hh hne rfl rfl rfl rfl (fun hv => absurd (ha hv) hm) ?_, _, .inr rfl, rfl⟩
      rw [← hk, update_eq_self]
      exact hJ.calls

theorem piperead_spec (hv : valid → validBuf mapped t addr n = true) :
    Spec valid t (piperead mapped c addr n) ⟨none, some (c, 0)⟩ (Returned c) := by
  refine .next acquire_spec fun _ => ?_
  refine .next waitNotEmpty_spec fun ok => ?_
  cases ok with
  | false => exact .ret ⟨0, rfl, fun h => absurd rfl h⟩
  | true =>
    refine .bind (R := fun i x => ∃ h : Know, h.Reads ∧ x = ⟨some h, some (c, i)⟩)
      (.loop (J := fun i x => ∃ h : Know, h.Reads ∧ x = ⟨some h, some (c, i)⟩) ?_ ⟨_, .inl rfl, rfl⟩) ?_
    · rintro i _ ⟨h, hh, rfl⟩
      split
      · rename_i hi
        refine .bind (getByte_spec hh fun hv' => validBuf_apply (hv hv') hi) fun ok x hx => ?_
        cases ok <;> exact .ret hx
      · exact .ret ⟨h, hh, rfl⟩
    · rintro i _ ⟨h, hh, rfl⟩
      refine .next (wakeup_nwrite_spec hh) fun _ => ?_
      refine .next (release_spec rfl) fun _ => ?_
      exact .ret ⟨i, rfl, fun _ => rfl⟩

theorem closeEnd_spec (writable : Bool) : Spec valid t (closeEnd writable) ⟨some {}, o⟩ fun _ x => x = ⟨some {}, o⟩ := by
  cases writable with
  | true =>
    refine .next (e := fun _ => ⟨some { owes := .readers }, o⟩)
      (know_spec fun s chan call hJ => ⟨.refl s, { owes := .readers }, nofun, fun hf => ?_, rfl⟩) fun _ =>
        wakeupReaders_spec nofun
    exact ⟨trivial, nofun, fun _ _ _ => .inr rfl, (hJ.fits hf).writers⟩
  | false =>
    refine .next (e := fun _ => ⟨some { owes := .writers }, o⟩)
      (know_spec fun s chan call hJ => ⟨.refl s, { owes := .writers }, nofun, fun hf => ?_, rfl⟩) fun _ =>
        wakeup_nwrite_spec (.inr rfl)
    exact ⟨trivial, nofun, (hJ.fits hf).readers, fun _ _ _ => .inr rfl⟩

theorem kfree_spec : Spec valid t kfree ⟨none, o⟩ fun _ x => x = ⟨none, o⟩ := by
  have hsize : ((0x01010101 : BitVec 32) - 0x01010101).toNat < pipesize := by decide
  refine Mon.other_spec fun s chan k call ho hJ => ⟨o, ?_, rfl⟩
  rw [← ho, update_eq_self]
  exact ⟨fun _ _ _ => hsize, le_of_lt hsize, fun _ => nofun, hJ.calls, nofun⟩

theorem pipeclose_spec (writable : Bool) : Spec valid t (pipeclose writable) ⟨none, o⟩ fun _ x => x = ⟨none, o⟩ := by
  refine .next acquire_spec fun _ => ?_
  refine .next (closeEnd_spec writable) fun _ => ?_
  refine .next (read_spec _) fun closed => ?_
  split
  · refine .next (release_spec rfl) fun _ => ?_
    exact kfree_spec
  · exact release_spec rfl

/-! ## Calls -/

/-- A process without the lock begins or ends a call. -/
theorem J.setCall (hJ : J valid s chan k call) {hist : Hist} (ha : hist.accepted = s.hist.accepted)
    (hd : hist.delivered = s.hist.delivered) (hc : Calls hist (update call t o')) :
    J valid { s with hist } chan k (update call t o') := by
  refine ⟨hJ.room, hJ.size, fun hv hf => ?_, hc, fun hf => ?_⟩
  · rw [ha, hd]
    exact hJ.fifo hv hf
  · obtain ⟨hsees, hun, hreaders, hwriters⟩ := hJ.fits hf
    refine ⟨?_, hun, hreaders, hwriters⟩
    generalize k.getD {} = h at hsees
    cases hs : h.sees <;> rw [hs] at hsees <;> exact hsees

theorem beginCall_spec : Spec valid t beginCall ⟨none, none⟩ fun c x => x = ⟨none, some (c, 0)⟩ :=
  Mon.other_spec fun s _ _ _ ht hJ => ⟨some (s.hist.ncalls, 0), hJ.setCall rfl rfl (hJ.calls.begin ht), rfl⟩

theorem endCall_spec {r : Int} {x : Ghost} (hx : Returned c r x) :
    Spec valid t (endCall c r) x fun _ x => x = ⟨none, none⟩ := by
  obtain ⟨i, rfl, hr⟩ := hx
  exact Mon.other_spec fun s _ _ _ ht hJ => ⟨none, hJ.setCall rfl rfl (hJ.calls.end ht hr), rfl⟩

theorem call_spec (x : Call) (hx : valid → (client mapped).allowed t () x = true) :
    Spec valid t ((client mapped).body x ()) ⟨none, none⟩ fun _ x => x = ⟨none, none⟩ := by
  cases x with
  | write addr n =>
    refine .next beginCall_spec fun c => ?_
    exact .bind pipewrite_spec fun r x hr => endCall_spec hr
  | read addr n =>
    refine .next beginCall_spec fun c => ?_
    exact .bind (piperead_spec hx) fun r x hr => endCall_spec hr
  | close writable => exact pipeclose_spec writable
  | kill u =>
    refine .next (other_spec fun s => ⟨.refl s, rfl, rfl, rfl⟩) fun _ => Mon.rouse_spec u fun s chan k call hJ => ?_
    refine hJ.step (.refl s) hJ.room fun hf => ?_
    obtain ⟨hsees, hun, hreaders, hwriters⟩ := hJ.fits hf
    have hchan : ∀ {v c}, update chan u none v = some c → chan v = some c := fun {v c} e => by
      rcases eq_or_ne v u with rfl | hv
      · simp at e
      · simpa [update_of_ne hv] using e
    exact ⟨hsees, hun, fun hg v e => hreaders hg v (hchan e), fun hg v e => hwriters hg v (hchan e)⟩
  | store a ch => exact other_spec fun s => ⟨.refl s, rfl, rfl, rfl⟩

end Xv6.Pipe
