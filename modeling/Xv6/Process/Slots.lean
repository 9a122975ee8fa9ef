import Xv6.Process.Inv

/-!
# Births and deaths

The steps of `fork`, `exit` and `wait` that change which slots are used, and
whose children they are.
-/

namespace Xv6.Process.Inv

open Function

variable {n : Nat} {ord cl : Prop} {s s' : State n} {γ : Agent n → Ghost} {a : Agent n} {g : Ghost} {i j p : Pid}
  {b : Bool} {y : Proc}

variable (h : Inv ord cl s γ)

include h

theorem alloc_unique (hi : i ∈ (γ a).held) {u : Agent n}
    (hu : (γ u).alloc = some (i, b)) : u = a := h.held_unique ((h.own u).alloc i b hu).1 hi

theorem unkilled (hc : cl) (hst : (s.proc i).state = .unused) : (s.proc i).killed = false :=
  (h.clean hc i hst).elim (·.2.1) (·.1)

theorem parent_of_child (ha : a = .inl p) (hg : γ a = g) (hc : g.child = some i) : (s.proc i).parent = some p := by
  obtain ⟨q, hq, hpar⟩ := (h.self hg).child i hc
  cases ha.symm.trans hq
  exact hpar

/-- `allocproc` has found an unused slot. -/
theorem startAlloc (hg : γ a = g) (hi : i ∈ g.held) (hst : (s.proc i).state = .unused)
    (hn : g.alloc = none) : Inv ord cl s (update γ a { g with alloc := some (i, false) }) := by
  have hi' : i ∈ (γ a).held := by rwa [hg]
  have hn' : (γ a).alloc = none := by rwa [hg]
  have hpar : (s.proc i).parent = none := (h.unused i hst).resolve_right fun ⟨u, hu⟩ => by
    obtain rfl := h.alloc_unique hi' hu
    rw [hn'] at hu; cases hu
  have hkeep : ∀ {k b}, (γ a).alloc = some (k, b) → some (i, false) = some (k, b) := fun e => by rw [hn'] at e; cases e
  have ho := h.self hg
  have hown : Own ord s a { g with alloc := some (i, false) } :=
    { ho with
      alloc := fun k b e => by cases e; exact ⟨hi, hst, fun _ => hpar⟩
      knows := { ho.knows with alloc := fun k e => by cases e } }
  exact { h with own := own_update hown fun u _ => h.own u
                 unused := fun k hk => (h.unused k hk).imp_right fun hu => alloc_update hu hkeep
                 clean := fun hc k hk => clean_update (h.clean hc k hk) fun _ => hkeep }

/-- `allocproc` or `fork` gives up the slot. -/
theorem dropAlloc (hg : γ a = g) (hal : g.alloc = some (i, b))
    (hpar : (s.proc i).parent = none) (hc : cl → Clean (s.proc i)) :
    Inv ord cl s (update γ a { g with alloc := none }) := by
  have hkeep : ∀ {k b}, k ≠ i → (γ a).alloc = some (k, b) → none = some (k, b) := fun hk e => by
    rw [hg, hal] at e
    cases e; exact absurd rfl hk
  have ho := h.self hg
  have hown : Own ord s a { g with alloc := none } := { ho with
    alloc := fun k b e => nomatch e
    knows := { ho.knows with alloc := nofun } }
  refine { h with own := own_update hown fun u _ => h.own u, unused := fun k hk => ?_, clean := fun hcl k hk => ?_ }
  · by_cases hki : k = i
    · subst hki; exact .inl hpar
    · exact (h.unused k hk).imp_right fun hu => alloc_update hu (hkeep hki)
  · by_cases hki : k = i
    · subst hki; exact .inl (hc hcl)
    · exact clean_update (h.clean hcl k hk) fun _ => hkeep hki

/-- A slot that is being allocated is initialized. -/
theorem modAlloc {x : Proc} (hal : (γ a).alloc = some (i, b)) (hsaw : (γ a).saw = none)
    (hproc : s'.proc = update s.proc i x) (hlock : s'.lock = s.lock) (hh : s.hist.Same s'.hist)
    (hpar : x.parent = (s.proc i).parent) (hstate : x.state = .unused) (hk : (s.proc i).killed = false → x.killed = false) :
    Inv ord cl s' γ := by
  obtain ⟨hi, hst, -⟩ := (h.own a).alloc i b hal
  refine h.tame hi hsaw ⟨hpar, ⟨fun _ => hst, fun _ => hstate⟩, ⟨fun _ => .inl hst, fun _ => .inl hstate⟩,
    fun hc _ => .inr ⟨hk (h.unkilled hc hst), b, hal⟩, fun e => ?_, fun _ e => ?_⟩ hproc hlock hh
  · rw [hstate] at e; cases e
  · rw [hstate] at e; cases e

/-- `np->parent = p`: the child is the last one born. -/
theorem setParent (ha : a = .inl p) (hg : γ a = g) (hal : g.alloc = some (i, false))
    (hlive : g.live = true) (hchild : g.child = none) (hscan : g.scan = 0) (hsaw : g.saw = none) (hquiet : g.quiet = 0)
    (hw : g.want = none) (hr : ord → ∀ q, s.hist.remembered q ≠ some i) {r : Bool}
    (hs : s' = (s.modProc i ({ · with parent := some p })).modHist fun h =>
      { h with stamp := update h.stamp i (h.births + 1), births := h.births + 1, reused := r }) :
    Inv ord cl s' (update γ a { g with alloc := some (i, true) }) := by
  have ho := h.self hg
  obtain ⟨hi, hst, hpar⟩ := ho.alloc i false hal
  have hpar := hpar rfl
  have hpd : ¬ Dead (s.proc p) := ho.live p ha hlive
  have hip : p ≠ i := fun e => hpd (.inl (e ▸ hst))
  obtain ⟨hself, hne⟩ := eq_update_iff.1 (show s'.proc = update s.proc i _ by rw [hs]; rfl)
  obtain ⟨hsself, hsne⟩ := eq_update_iff.1 (show s'.hist.stamp = update s.hist.stamp i _ by rw [hs]; rfl)
  have hbirths : s'.hist.births = s.hist.births + 1 := by rw [hs]; rfl
  -- nobody is a child of an unused slot
  have hkid : ∀ k j, (s.proc k).parent = some j → j ≠ i := fun k j hk e => h.parent k j hk (e ▸ .inl hst)
  subst hs
  refine h.slotStep (by rwa [hg]) rfl rfl rfl rfl hsne (fun _ => ?_) ?_
    h.born (fun _ => ⟨fun e => ?_, fun _ => h.not_live (.inl hst), fun k hk => ?_⟩) (fun q _ hq => ?_)
    (fun q hq _ e => ?_) (fun j hj => ?_) ?own (fun k b hk e => ?_) (fun _ => .inr rfl)
      (fun hc _ => .inr ⟨h.unkilled hc hst, true, rfl⟩)
    (fun q _ _ _ _ e => ?_) (fun _ hl => ?_) (fun q w _ => id)
    (h.agree.birth rfl (Option.some_ne_none p) hst hst rfl rfl rfl) h.calls
  case own =>
    refine { ho with
      live := fun q hq hl => ?_, alloc := fun k b e => ?_, child := by simp [hchild], scan := by simp [hscan],
        order := by simp [hw]
      saw := by simp [hsaw], knows := ⟨by simp [hquiet], fun q o hq hl e => ?_, fun k e => ?_, ho.knows.call⟩ }
    · obtain rfl : p = q := Sum.inl.inj (ha.symm.trans hq)
      rw [hne p hip]; exact hpd
    · cases e
      exact ⟨hi, by rw [hself]; exact hst, fun e => by cases e⟩
    · cases ha.symm.trans hq
      rw [hne p hip]; exact ho.knows.orig p o ha hl e
    · cases e
      rw [hself]; exact Option.some_ne_none p
  · rw [hsself]; exact Nat.le_succ_of_le (h.births.le i)
  · obtain ⟨h1, h2, h3, h4⟩ := h.births
    refine ⟨fun k j hk => ?_, fun hord q j hq => ?_, ?_, fun k => ?_⟩
    · by_cases hki : k = i
      · subst hki
        rw [hself] at hk
        obtain rfl : p = j := Option.some.inj hk
        rw [hsself, hsne p hip]
        exact Nat.lt_succ_of_le (h4 p)
      · rw [hne k hki] at hk
        rw [hsne k hki, hsne j (hkid k j hk)]; exact h1 k j hk
    · have hji : j ≠ i := fun e => hr hord q (e ▸ hq)
      have := h2 hord q j hq
      rw [hsne j hji]
      by_cases hqi : q = i
      · subst hqi; rw [hsself]; exact Nat.lt_succ_of_le (h4 j)
      · rwa [hsne q hqi]
    · have h0 : initproc ≠ i := fun e => h.init (e ▸ .inl hst)
      rwa [hsne _ h0]
    · rw [hbirths]
      by_cases hki : k = i
      · subst hki; exact le_of_eq hsself
      · rw [hsne k hki]; exact Nat.le_succ_of_le (h4 k)
  · exact h.init (e ▸ .inl hst)
  · by_cases hki : k = i
    · subst hki
      rw [hself] at hk
      exact hip (Option.some.inj hk)
    · rw [hne k hki] at hk
      exact hkid k i hk rfl
  · rw [hpar] at hq; cases hq
  · exact absurd (Option.some.inj e ▸ ha) hq
  · obtain rfl : p = j := Option.some.inj hj
    rw [hne p hip]; exact hpd
  · rw [hg, hal] at e; cases e; exact absurd rfl hk
  · exact absurd (hst.symm.trans e) (by decide)
  · exact absurd (.inl hst) ((h.own (.inl i)).live i rfl hl)

/-- `np->state = RUNNABLE`: the slot is used from now on. -/
theorem setRunnable (hg : γ a = g) (hal : g.alloc = some (i, true)) (hsaw : g.saw = none)
    (hs : s' = (s.modProc i ({ · with state := .runnable })).modHist fun h =>
      { h with bornKilled := h.bornKilled || (s.proc i).killed }) :
    Inv ord cl s' (update γ a { g with alloc := none }) := by
  have ho := h.self hg
  obtain ⟨hi, hst, -⟩ := ho.alloc i true hal
  have hproc : s'.proc = update s.proc i { s.proc i with state := .runnable } := by rw [hs]; rfl
  have hpar := update_keep Proc.parent hproc rfl
  have hdead : ∀ k, Dead (s'.proc k) → Dead (s.proc k) := fun k hd => by
    by_cases hki : k = i
    · subst hki; exact .inl hst
    · rwa [hproc, update_of_ne hki] at hd
  have hx : ∀ {P : Prop}, Dead { s.proc i with state := .runnable } → P := fun hd => by
    rcases hd with hd | hd <;> cases hd
  have hknows : Knows s' a g := by
    refine ho.knows.stable (fun q _ _ _ k hk hz => ?_) (fun q _ _ => .inl (hpar q)) (fun k _ => hpar k) fun q _ => by
      rw [hs]; exact id
    have hki : k ≠ i := fun e => by rw [e, hproc, update_self] at hz; cases hz
    exact ⟨hpar k ▸ hk, by rwa [hproc, update_of_ne hki] at hz⟩
  subst hs
  refine h.slotStep (by rwa [hg]) hproc rfl rfl rfl (fun _ _ => rfl) (fun _ => le_rfl)
    (h.births.congr hpar rfl rfl rfl) (fun hc => ?_) hx (fun q _ => id) (fun q _ _ => id) (fun j hj hd => ?_) ?own
    (fun k b hk e => ?_) nofun nofun nofun (fun _ _ => .inl rfl) (fun _ _ _ => id) ?_ h.calls
  case own =>
    exact { ho with
      live := fun q hq hl hd => ho.live q hq hl (hdead q hd), alloc := nofun, child :=
        fun k e => by rw [hpar]; exact ho.child k e
      scan := fun q hq k hk => by rw [hpar]; exact ho.scan q hq k hk, saw := by simp [hsaw], knows :=
        { hknows with alloc := nofun } }
  · show (s.hist.bornKilled || (s.proc i).killed) = false
    rw [h.born hc, h.unkilled hc hst]
    rfl
  · exact h.parent i j hj (hdead j hd)
  · rw [hg, hal] at e; cases e; exact absurd rfl hk
  · have hp : (s.proc i).parent ≠ none := ho.knows.alloc i hal
    exact h.agree.slot hproc rfl rfl rfl (fun _ _ => hp) (fun _ => .inr hp)
      ⟨nofun, fun e => by rw [hst] at e; cases e⟩ nofun (fun _ _ _ e => nomatch e) nofun

section Children

variable (ha : a = .inl p) (hg : γ a = g)

include ha hg

/-- `reparent` gives a child to init. -/
theorem giveToInit (hi : i ∈ g.held) (hchild : g.child = some i)
    (hp0 : p ≠ initproc) (hscan : g.scan = i.val) (hal : g.alloc = none) (hsaw : g.saw = none)
    (hquiet : g.quiet = 0) (hs : s' = s.modProc i ({ · with parent := some initproc })) :
    Inv ord cl s' (update γ a { g with child := none, scan := i.val + 1 }) := by
  have ho := h.self hg
  have hpar := h.parent_of_child ha hg hchild
  obtain ⟨hself, hne⟩ := eq_update_iff.1 (show s'.proc = update s.proc i _ by rw [hs]; rfl)
  have hdead : ∀ k, Dead (s'.proc k) → Dead (s.proc k) := fun k hd => by
    by_cases hki : k = i
    · subst hki; rwa [hself] at hd
    · rwa [hne k hki] at hd
  have hi' : i ∈ (γ a).held := by rwa [hg]
  have hused : (s.proc i).state ≠ .unused := fun hst => by
    rcases h.unused i hst with e | ⟨u, hu⟩
    · rw [hpar] at e; cases e
    · obtain rfl := h.alloc_unique hi' hu
      rw [hg, hal] at hu; cases hu
  subst hs
  refine h.slotStep hi' rfl rfl rfl rfl (fun _ _ => rfl) (fun _ => le_rfl)
    ?_ h.born (fun hd => ?_) (fun q hq e => ?_) (fun q _ hq0 e => ?_)
    (fun j hj hd => ?_) ?own (fun k b _ e => ?_) (fun e => absurd e hused) (fun _ e => absurd e hused)
    (fun _ _ _ _ _ => id) (fun _ _ => .inr rfl) (fun _ _ _ => id) ?_ h.calls
  case own =>
    refine { ho with
      live := fun q hq hl hd => ho.live q hq hl (hdead q hd), alloc := by simp [hal], child := nofun, scan :=
        fun q hq k hk => ?_
      saw := by simp [hsaw], knows := ⟨by simp [hquiet], fun q o hq hl e => ?_, by simp [hal], ho.knows.call⟩ }
    · cases ha.symm.trans hq
      refine ⟨hp0, ?_⟩
      by_cases hki : k = i
      · subst hki; rw [hself]; exact fun e => hp0 (Option.some.inj e).symm
      · have hlt : k.val < g.scan := by
          have : k.val ≠ i.val := fun e => hki (Fin.ext e)
          have : k.val < i.val + 1 := hk
          omega
        rw [hne k hki]; exact (ho.scan p ha k hlt).2
    · by_cases hqi : q = i
      · subst hqi; rw [hself]; exact .inr rfl
      · rw [hne q hqi]; exact ho.knows.orig q o hq hl e
  · obtain ⟨h1, h2, h3, h4⟩ := h.births
    refine ⟨fun k j hk => ?_, h2, h3, h4⟩
    by_cases hki : k = i
    · subst hki
      rw [hself] at hk
      cases hk
      exact h3 ▸ Nat.lt_of_le_of_lt (Nat.zero_le _) (h1 k p hpar)
    · rw [hne k hki] at hk; exact h1 k j hk
  · have hd : Dead (s.proc i) := hd
    have hi0 : i ≠ initproc := fun e => h.init (e ▸ hd)
    refine ⟨hi0, fun _ => h.not_live hd, fun k hk => ?_⟩
    by_cases hki : k = i
    · subst hki; rw [hself] at hk; exact hi0 (Option.some.inj hk).symm
    · rw [hne k hki] at hk; exact h.parent k i hk hd
  · rw [hpar] at e; exact absurd (Option.some.inj e ▸ ha) hq
  · exact absurd (Option.some.inj e).symm hq0
  · cases hj; exact h.init (hdead _ hd)
  · rw [hg, hal] at e; cases e
  · have hpar' : (s.proc i).parent ≠ none := by rw [hpar]; exact Option.some_ne_none p
    refine h.agree.slot rfl rfl rfl rfl (fun _ _ => Option.some_ne_none _) (fun _ => .inr hpar')
      Iff.rfl (fun _ => ⟨rfl, rfl⟩) (fun q hq0 e _ => absurd (Option.some.inj e).symm hq0) (fun hi0 hs hc q hq hz => ?_)
    exact h.agree.awake i q hi0 hs hc hq hz

/-- `exit`: a process without children becomes a zombie, and its parent is not
sleeping in `wait`. -/
theorem becomeZombie (hi : p ∈ g.held) (hlive : g.live = true)
    (hchild : g.child = none) (hscan : g.scan = nproc) (hal : g.alloc = none) (hquiet : g.quiet = 0) {o : Pid}
    (horig : g.orig = some o) (hsaw : g.saw = some (o, y)) (hy : ¬ (y.chan = some (.proc o) ∧ y.state = .sleeping))
    {status : Int} (hs : s' = (s.modProc p ({ · with xstate := status, state := .zombie })).modLog fun l =>
      { l with exits := ⟨s.hist.stamp p, (s.proc p).pid, status⟩ :: l.exits }) :
    Inv ord cl s' (update γ a { g with live := false, scan := 0, saw := none }) := by
  have ho := h.self hg
  have hproc : s'.proc = update s.proc p { s.proc p with xstate := status, state := .zombie } := by rw [hs]; rfl
  have hpar := update_keep Proc.parent hproc rfl
  have hkids : ∀ k, (s.proc k).parent ≠ some p := fun k => (ho.scan p ha k (by rw [hscan]; exact k.isLt)).2
  have hp0 : p ≠ initproc := (ho.scan p ha initproc (by rw [hscan]; decide)).1
  have hpd : ¬ Dead (s.proc p) := ho.live p ha hlive
  obtain ⟨hom, hoy⟩ := ho.saw o y hsaw
  have hparent := ho.knows.orig p o ha hlive horig
  have hcall : ∀ {q w}, CallOk s.hist.log q w → CallOk s'.hist.log q w := fun hc => by
    rw [hs]
    exact hc.other rfl (fun _ _ => Iff.rfl) (fun _ _ => Iff.rfl) fun _ _ => Iff.rfl
  subst hs
  refine h.slotStep (by rwa [hg]) hproc rfl rfl rfl (fun _ _ => rfl) (fun _ => le_rfl)
    (h.births.congr hpar rfl rfl rfl) h.born (fun hd => ?_) (fun _ _ e => e) (fun _ _ _ e => e)
    (fun j hj hd => ?_) ?own (fun k b _ e => ?_) nofun nofun (fun q _ hq0 hq e _ => ?_) (fun e => absurd ha e)
    (fun q w _ hc => hcall hc) ?_ ⟨h.calls.reapsNodup, h.calls.ret, h.calls.failed⟩
  case own =>
    exact { ho with
      live := nofun, alloc := by simp [hal], child := by simp [hchild], scan := by simp, saw := nofun
      knows := ⟨by simp [hquiet], nofun, by simp [hal], fun q hq => hcall (ho.knows.call q hq)⟩ }
  · exact ⟨hp0, fun e => absurd ha e, fun k => by rw [hpar]; exact hkids k⟩
  · have hjp : j ≠ p := fun e => hkids p (e ▸ hj)
    rw [hproc, update_of_ne hjp] at hd
    exact h.parent p j hj hd
  · rw [hg, hal] at e; cases e
  -- a parent other than init is the one whose lock is held
  · have e : (s.proc p).parent = some q := e
    rcases hparent with e' | e'
    · cases e.symm.trans e'; exact absurd hom (hg ▸ hq)
    · cases e.symm.trans e'; exact absurd rfl hq0
  · refine h.agree.exit hproc rfl rfl rfl rfl rfl rfl rfl (fun e => hpd (.inl e))
      (fun e => hpd (.inr e)) hp0 fun q hq0 e hs hc => ?_
    rcases hparent with e' | e'
    · cases e.symm.trans e'; rw [hoy] at hs hc; exact hy ⟨hc, hs⟩
    · cases e.symm.trans e'; exact hq0 rfl

/-- `wait` frees a zombie child. -/
theorem freeChild (hi : i ∈ g.held) (hchild : g.child = some i)
    (hsaw : g.saw = some (i, y)) (hyz : y.state = .zombie) (hscan : g.scan = 0) (hal : g.alloc = none)
    (horig : g.orig = none) (hwait : g.wait = .searching) {status : Option Int} (hstatus : ∀ x, status = some x → x = y.xstate)
    (hs : s' = (s.modProc i Proc.freed).modLog fun l =>
      { l with reaps := ⟨p, l.waits p, s.hist.stamp i, (s.proc i).parent, y.pid, status⟩ :: l.reaps }) :
    Inv ord cl s' (update γ a { g with child := none, saw := none, quiet := 0, wait := .reaped y.pid }) := by
  have ho := h.self hg
  obtain ⟨-, hiy⟩ := ho.saw i _ hsaw
  have hz : (s.proc i).state = .zombie := by rw [hiy, hyz]
  have hwok : CallOk s.hist.log p .searching := hwait ▸ ho.knows.call p ha
  have hpar := h.parent_of_child ha hg hchild
  obtain ⟨hself, hne⟩ := eq_update_iff.1 (show s'.proc = update s.proc i _ by rw [hs]; rfl)
  have hdead : ∀ k, Dead (s'.proc k) → Dead (s.proc k) := fun k hd => by
    by_cases hki : k = i
    · subst hki; exact .inr hz
    · rwa [hne k hki] at hd
  have hkid : ∀ k, (s'.proc k).parent ≠ some i := fun k hk => by
    by_cases hki : k = i
    · subst hki; rw [hself] at hk; cases hk
    · rw [hne k hki] at hk; exact h.parent k i hk (.inr hz)
  subst hs
  refine h.slotStep (by rwa [hg]) rfl rfl rfl rfl (fun _ _ => rfl) (fun _ => le_rfl) ?_ h.born
    (fun _ => ⟨fun e => h.init (e ▸ .inr hz), fun _ => h.not_live (.inr hz), hkid⟩) (fun q hq e => ?_) nofun nofun ?own
    (fun k b _ e => ?_) (fun _ => .inl rfl) (fun _ _ => .inl ⟨rfl, rfl, rfl, rfl, rfl, rfl⟩) nofun
    (fun _ hl => absurd (.inr hz) ((h.own (.inl i)).live i rfl hl)) (fun q w hq hcall => ?_) ?_ (h.calls.reap hwok rfl)
  case own =>
    refine { ho with
      live := fun q hq hl hd => ho.live q hq hl (hdead q hd), alloc := by simp [hal], child := nofun, scan := by simp [hscan]
      saw := nofun, knows := ⟨by simp, by simp [horig], by simp [hal], fun q hq => ?_⟩ }
    cases ha.symm.trans hq
    exact hwok.reap rfl
  · obtain ⟨h1, h2, h3, h4⟩ := h.births
    refine ⟨fun k j hk => ?_, h2, h3, h4⟩
    by_cases hki : k = i
    · subst hki; rw [hself] at hk; cases hk
    · rw [hne k hki] at hk; exact h1 k j hk
  · rw [hpar] at e; exact absurd (Option.some.inj e ▸ ha) hq
  · rw [hg, hal] at e; cases e
  · have hqp : p ≠ q := fun e => hq (e ▸ ha)
    refine hcall.other rfl (fun r hr => ?_) (fun _ _ => Iff.rfl) fun _ _ => Iff.rfl
    exact List.mem_cons.trans ⟨fun e => e.resolve_left fun e => hqp (by rw [← hr, e]), .inr⟩
  · exact h.agree.reap rfl rfl rfl rfl hz
      (fun e => h.init (e ▸ .inr hz)) rfl (by rw [hiy]) (fun z e => by rw [hiy]; exact hstatus z e) hpar

/-- `original_parent` is set, or no longer used. -/
theorem remember {o : Option Pid}
    (hpar : ∀ j, o = some j → (s.proc p).parent = some j)
    (hs : s' = s.modHist fun h => { h with remembered := update h.remembered p o }) :
    Inv ord cl s' (update γ a { g with orig := o }) := by
  have ho := h.self hg
  obtain ⟨hself, hne⟩ := eq_update_iff.1 (show s'.hist.remembered = update s.hist.remembered p _ by rw [hs]; rfl)
  subst hs
  refine h.tableStep rfl rfl rfl (by rw [hg]) (fun _ _ e => .inl e) (fun _ _ _ => Iff.rfl) (fun _ _ => rfl)
    (fun q hq => hne q fun e => hq (e ▸ ha)) (fun _ _ _ => id) ?_ (h.agree.congr rfl rfl rfl rfl) h.calls
    { ho with orig := fun q hq => ?_, knows := { ho.knows with orig := fun q o' hq _ e => ?_ } }
  · obtain ⟨h1, h2, h3, h4⟩ := h.births
    refine ⟨h1, fun hord q j hq => ?_, h3, h4⟩
    by_cases hqp : q = p
    · subst hqp
      exact h1 q j (hpar j (hself ▸ hq))
    · exact h2 hord q j (hne q hqp ▸ hq)
  · cases ha.symm.trans hq
    exact hself
  · cases ha.symm.trans hq
    exact .inl (hpar o' e)

end Children

/-- What a thread has seen in the table: a child `c`, that its children are
not below the slot `k`, the process `w` in a slot, or that it has no zombie
children below the slot `q`. -/
theorem learn (hg : γ a = g) (c : Option Pid) (k : Nat) (w : Option (Pid × Proc)) (q : Nat)
    (hc : ∀ i, c = some i → ∃ p, a = .inl p ∧ (s.proc i).parent = some p)
    (hk : ∀ p, a = .inl p → ∀ i : Pid, i.val < k → p ≠ initproc ∧ (s.proc i).parent ≠ some p)
    (hw : ∀ i x, w = some (i, x) → i ∈ g.held ∧ s.proc i = x) (hq : ∀ p, a = .inl p → p ≠ initproc → 0 < q → p ∈ g.held ∧
      ∀ i : Pid, i.val < q → (s.proc i).parent = some p → (s.proc i).state ≠ .zombie) :
    Inv ord cl s (update γ a { g with child := c, scan := k, saw := w, quiet := q }) := by
  have ho := h.self hg
  refine h.lockStep rfl rfl (by rw [hg]) (fun _ _ e => .inl e) (fun _ _ _ => Iff.rfl) (fun _ _ => rfl) ?_
  exact { ho with child := hc, scan := hk, saw := hw, knows := { ho.knows with quiet := hq } }

theorem forget (hg : γ a = g) (q : Nat) (hq : q = 0 ∨ q = g.quiet) :
    Inv ord cl s (update γ a { g with child := none, scan := 0, saw := none, quiet := q }) := by
  refine h.learn hg none 0 none q (nofun) (fun _ _ k hk => nomatch hk)
    (fun _ _ e => nomatch e) fun p ha hp0 hpos => ?_
  rcases hq with rfl | rfl
  · exact absurd hpos (lt_irrefl 0)
  · exact (hg ▸ (h.own a).knows).quiet p ha hp0 hpos

/-- A step of `wait` that changes only the history of the process's calls. -/
theorem logStep (ha : a = .inl p) (hg : γ a = g) {L : WaitLog} (w : WaitState) (hok : CallOk L p w)
    (hother : ∀ q w, q ≠ p → CallOk s.hist.log q w → CallOk L q w) (hagree : Agree s') (hcalls : Calls L)
    (hs : s' = s.modLog fun _ => L) : Inv ord cl s' (update γ a { g with wait := w }) := by
  have ho := h.self hg
  subst hs
  refine h.tableStep rfl rfl rfl (by rw [hg]) (fun _ _ e => .inl e) (fun _ _ _ => Iff.rfl) (fun _ _ => rfl) (fun _ _ => rfl)
    (fun q w hq => hother q w fun e => hq (e ▸ ha)) (h.births.congr (fun _ => rfl) rfl rfl rfl) hagree hcalls
    { ho with knows := { ho.knows with call := fun q hq => ?_ } }
  cases ha.symm.trans hq
  exact hok

end Xv6.Process.Inv
