import Xv6.Log.Spec

/-!
# Boot with an empty log

On a disk whose log header has `n = 0`, `initlog` keeps the invariant in all
its states, and leaves the machine as the processes need it (`Boot.inv`). From
there on the invariant holds in every state of every run (`inv_run`).
-/

namespace Xv6.Log

open Function List

variable {L : Layout} {d0 : Nat → Bytes} {t : Pid}

/-- The state in which `initlog` calls `recover_from_log`. -/
def booted (L : Layout) (d : Nat → Bytes) : State :=
  (binit d).modLog ({ · with start := L.start, size := L.size, dev := rootdev })

theorem booted_inv (h : headBlocks (d0 L.start) = []) : Inv L d0 True (booted L d0) fun _ => {} := by
  have hops : ops (Ghost.phase ∘ fun _ => ({} : Ghost)) = ∅ := by ext; simp [mem_ops, Phase.inop]
  refine ⟨rfl, rfl, ⟨by rw [hops]; rfl, fun _ => trivial, fun _ _ _ => trivial, ?_, fun _ _ => rfl, ?_, ?_⟩,
    fun _ => rfl, by simp, ⟨.nil, ?_, ?_, ?_⟩, .nil, by simp [booted, binit], fun _ => .inl rfl,
    ⟨?_, ?_, ?_, ?_, ?_, ?_, ?_, ?_, .nil⟩, by simp, fun _ => ?_⟩
  · exact fun hc => absurd hc (by simp [booted, binit])
  · exact fun w hw => absurd hw not_mem_nil
  · exact fun w hw => absurd hw not_mem_nil
  · exact fun g hg => absurd hg not_mem_nil
  · exact fun g hg => absurd hg not_mem_nil
  · exact fun g hg => absurd hg not_mem_nil
  · exact fun i => by simp [booted, binit]
  · exact fun i j hd => absurd hd (by simp [booted, binit])
  · rintro u i b (h | ⟨l, h⟩)
    · exact absurd h not_mem_nil
    · exact absurd h (by simp)
  · exact fun u i b hb => absurd hb not_mem_nil
  · exact fun u i => rfl
  · exact fun u i => rfl
  · exact fun i => rfl
  · exact fun b hb => absurd hb (by simp [State.pins, booted, binit])
  · refine ⟨⟨Nat.zero_le _, L.pos⟩, fun b hb => absurd hb not_mem_nil, fun i hd => absurd hd (by simp [booted, binit]),
      fun b _ _ => rfl, le_rfl, fun _ => ⟨h, rfl, fun b _ => rfl⟩, fun u x hx => ?_, fun u i x hx => ?_⟩
    · exact absurd hx (by simp)
    · exact absurd hx (by simp)

/-- The process that boots is alone. -/
def bootCtx (L : Layout) (d0 : Nat → Bytes) : Ctx where
  L := L
  d₀ := d0
  fit := True
  Asm := fun _ => True
  alone := True
  fits := fun _ _ _ h => absurd trivial h

theorem recoverFromLog_spec : (bootCtx L d0).Spec t recoverFromLog {} fun _ g => g = {} := by
  -- In every state `lh` is empty, so that `recover_from_log` only rewrites the header.
  have hnil : ∀ {s γ} {g : Ghost}, Inv L d0 True s γ → (True → ∀ u, u ≠ t → γ u = {}) → γ t = g → g.phase = .out →
      s.log.committing = false ∧ s.log.lh = [] := fun hi ha hg hp =>
    hi.quiet_of_out (Ctx.out_of_alone (ha trivial) (by rw [hg, hp]))
  refine .bind (R := fun _ g => g = {}) ?_ ?_
  · refine .bind (R := fun l g => g = {} ∧ l.start = L.start ∧ l.dev = rootdev)
      ((bootCtx L d0).step fun s γ hi _ hg _ => ⟨_, by rwa [← hg, update_eq_self], rfl, hi.start, hi.dev⟩) ?_
    rintro l _ ⟨rfl, hstart, hdev⟩
    rw [hstart, hdev]
    refine .next ((bootCtx L d0).bread_spec L.start rfl) fun i => ?_
    refine .bind (R := fun _ g => g = .rest .out [(i, L.start)])
      ((bootCtx L d0).step fun s γ hi ha hg _ => ⟨_, ?_, rfl⟩) ?_
    · have hi : Inv L d0 True s γ := hi
      have hg : γ t = .rest .out [(i, L.start)] := hg
      obtain ⟨hc, hlh⟩ := hnil hi ha hg rfl
      have hdata : headBlocks (s.buf i).data = [] := by
        rw [hi.data_eq (t := t) (b := L.start) trivial (by simp [hg]) (by simp [hg]),
          content_log Layout.not_home_start]
        exact ((hi.store trivial).quiet hc).1
      have hsame : s.modLog ({ · with lh := headBlocks (s.buf i).data }) = s := by
        rw [hdata, State.modLog]
        simp [← hlh]
      rw [hsame]
      rwa [← hg, update_eq_self]
    · rintro _ _ rfl
      refine ((bootCtx L d0).brelse_spec (i := i) (b := L.start) (by simp) rfl (by simp)).mono ?_
      rintro _ _ rfl
      simp
  rintro _ _ rfl
  refine .bind (R := fun _ g => g = {}) (.loop (J := fun k g => g = {}) ?_ rfl) ?_
  · rintro k _ rfl
    refine .bind (R := fun l g => g = {} ∧ l.lh = []) ((bootCtx L d0).step fun s γ hi ha hg _ =>
      ⟨_, by rwa [← hg, update_eq_self], rfl, (hnil hi ha hg rfl).2⟩) ?_
    rintro l _ ⟨rfl, hl⟩
    rw [hl]
    exact .ret rfl
  rintro _ _ rfl
  refine .bind (R := fun _ g => g = {}) ((bootCtx L d0).step fun s γ hi ha hg _ => ⟨_, ?_, rfl⟩) ?_
  · obtain ⟨hc, hlh⟩ := hnil hi ha hg rfl
    have hsame : (s.modLog ({ · with lh := [] })).modHist ({ · with inst := 0 }) = s := by
      have hinst := hi.inst_quiet hc
      rw [State.modLog, State.modHist]
      simp [← hlh, ← hinst]
    rw [hsame]
    rwa [← hg, update_eq_self]
  rintro _ _ rfl
  exact (bootCtx L d0).writeHead_spec (.boot trivial) []

variable {d : Nat → Bytes} {p : KProg Unit} {s : State}

/-- `initlog` sets up the log in memory, and recovers. -/
theorem reach_initlog (hr : Prog.Reach t (initlog L.start L.size) (binit d) p s) :
    (p = initlog L.start L.size ∧ s = binit d) ∨ Prog.Reach t recoverFromLog (booted L d) p s := by
  cases hr with
  | refl => exact .inl ⟨rfl, rfl⟩
  | next n hn hr =>
    simp only [initlog, Prog.next, Prog.bind_eq, Prog.step, Prog.bind, Res.ok.injEq] at hn
    obtain ⟨rfl, rfl⟩ := hn
    exact .inr hr

theorem Boot.recover (h : Boot L t d s) :
    Prog.Reach t recoverFromLog (booted L d) (.ret ()) s :=
  (reach_initlog h).resolve_left fun h => by cases h.1

theorem recover_inv (h : headBlocks (d0 L.start) = []) (hr : Prog.Reach t recoverFromLog (booted L d0) p s) :
    ∃ γ, Inv L d0 True s γ ∧ (p = .ret () → γ = fun _ => {}) := by
  have hs : Safe (fun _ => True) ((bootCtx L d0).I t) (fun _ => True) t recoverFromLog {} fun _ g => g = {} :=
    recoverFromLog_spec
  obtain ⟨g, hi, hg⟩ := hs.reach (γ := fun _ => ({} : Ghost)) ⟨booted_inv h, fun _ _ _ => rfl⟩ hr
  refine ⟨_, hi.1, fun hp => ?_⟩
  rw [hg () hp]
  exact update_eq_self t fun _ => ({} : Ghost)

theorem Boot.inv (hb : Boot L t d0 s) (h : headBlocks (d0 L.start) = []) :
    Inv L d0 True s fun _ => {} := by
  obtain ⟨γ, hi, hγ⟩ := recover_inv h hb.recover
  exact hγ rfl ▸ hi

/-- The invariant holds in every state of every run of the processes. -/
theorem inv_run {s0 : State} (h0 : Inv L d0 True s0 fun _ => {}) (fit : Prop) {Asm : State → Prop}
    (hA : ∀ s, Asm s → fit → Fits L s) {c : Config State Pid Local}
    (hr : Config.Run (client L) Asm (.idle s0 {}) c) : ∃ γ, Inv L d0 fit c.shared γ := by
  let C : Ctx := ⟨L, d0, fit, Asm, False, fun s ha hf _ => hA s ha hf⟩
  have hI : ∀ t, C.I t = Inv L d0 fit := fun t => by
    funext s γ
    simp [Ctx.I, C]
  have hi : Inv L d0 fit s0 fun _ => {} := { h0 with store := fun _ => h0.store trivial }
  have hcall : ∀ t l g x, Ctx.Idle l g → (client L).allowed t l x = true →
      Safe Asm (Inv L d0 fit) (fun _ => True) t ((client L).body x l) g Ctx.Idle := fun t l g x hl hx => by
    have := C.call_spec (t := t) id hl hx
    rwa [Ctx.Spec, hI] at this
  have hidle : ∀ t, ThreadOk Asm (Inv L d0 fit) (fun _ => True) Ctx.Idle t
      ((Config.idle s0 {} : Config State Pid Local).thread t) {} := fun t => ⟨rfl, by simp⟩
  obtain ⟨γ, hi, -⟩ := (hr.inv Ctx.Idle hi hidle rfl hcall).1 0
  exact ⟨γ, hi⟩

end Xv6.Log
