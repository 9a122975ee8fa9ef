import Mathlib.Data.List.Basic
import Xv6.Framework.Monitor

/-!
# The transmit ring of the UART (`uart.c`)

Any number of threads call `uartputc`, and the interrupt handler `uartintr`; both
call `uartstart`, which gives bytes to the device for as long as it says that it is
idle. The ring is guarded by `uart_tx_lock`, and a thread that finds it full sleeps
on `&uart_tx_r`.

The bytes sent, followed by those in the ring, are the bytes accepted; while the lock
is held, the one that `uartstart` has taken out and not yet sent comes between. Who
sleeps finds the ring full, unless the wakeup is still to come.
-/

namespace Xv6.Uart

open Function List

/-! ## The model -/

abbrev uartTxBufSize : Nat := 32

/-- What a thread sleeps on. -/
inductive Chan where
  | uartTxR
  deriving DecidableEq

/-- `uart_tx_buf`, `uart_tx_w`, `uart_tx_r` and `panicked`. The history keeps the
bytes that `uartputc` has stored, and those that `uartstart` has written to THR. -/
structure Tx where
  buf : Nat → UInt8
  w : Nat := 0
  r : Nat := 0
  panicked : Bool := false
  accepted : List UInt8 := []
  sent : List UInt8 := []

def Tx.succ (i : Nat) : Nat := (i + 1) % uartTxBufSize

/-- The ring has no free slot. -/
def Tx.Full (s : Tx) : Prop := Tx.succ s.w = s.r

/-- The bytes between `uart_tx_r` and `uart_tx_w`. -/
def Tx.pending (s : Tx) : List UInt8 :=
  (range ((s.w + uartTxBufSize - s.r) % uartTxBufSize)).map fun j => s.buf ((s.r + j) % uartTxBufSize)

variable {τ : Type} [DecidableEq τ]

abbrev KProg (τ : Type) := Prog (Mon Tx Chan τ) τ

def atomic {α : Type} (f : Tx → α × Tx) : KProg τ α := Mon.on (.step fun _ s => .ok (f s).1 (f s).2)

/-- `ReadReg(LSR) & LSR_TX_IDLE`: the device answers as it likes. -/
def txIdle : KProg τ Bool := .any fun k => .ret (decide (k ≠ 0))

def uartstart : KProg τ Unit := .loop (fun _ : Unit => do
  let empty ← atomic fun s => (decide (s.w = s.r), s)
  if empty then return .inr ()
  else
    let idle ← txIdle
    if !idle then return .inr ()
    else
      let c ← atomic fun s => (s.buf s.r, { s with r := Tx.succ s.r })
      Mon.wakeup .uartTxR
      atomic fun s => ((), { s with sent := s.sent ++ [c] })
      return .inl ()) ()

def uartputc (c : UInt8) : KProg τ Unit := do
  Mon.acquire
  -- a thread that finds the kernel panicked spins for ever
  Mon.on (.step fun _ s => if s.panicked then .wait else .ok () s)
  .loop (fun _ : Unit => do
    let full ← atomic fun s => (decide (Tx.succ s.w = s.r), s)
    if full then
      Mon.sleep .uartTxR
      return .inl ()
    else
      atomic fun s => ((), { s with buf := update s.buf s.w c, w := Tx.succ s.w, accepted := s.accepted ++ [c] })
      uartstart
      Mon.release
      return .inr ()) ()

/-- The part of `uartintr` that sends; the characters that it reads do not touch the
ring. -/
def uartintr : KProg τ Unit := do
  Mon.acquire
  uartstart
  Mon.release

inductive Call (τ : Type) where
  | uartputc (c : UInt8)
  | uartintr
  | kill (t : τ)
  | panic

/-- Threads make these calls in any order; the kernel may panic, and a kill wakes a
thread that sleeps. -/
def client (τ : Type) [DecidableEq τ] : Client (Mon Tx Chan τ) τ Unit (Call τ) where
  allowed _ _ _ := true
  body
    | .uartputc c, _ => uartputc c
    | .uartintr, _ => uartintr
    | .kill t, _ => Mon.rouse t
    | .panic, _ => atomic fun s => ((), { s with panicked := true })

/-- When `uartinit` returns. -/
def uartinit (buf : Nat → UInt8) : Mon Tx Chan τ := { data := { buf } }

/-! ## The ring -/

variable {s : Tx} {c : UInt8} {b : Bool} {ch : τ → Option Chan} {ph : τ → Unit}

theorem pending_push (hw : s.w < uartTxBufSize) (hr : s.r < uartTxBufSize) (h : ¬ s.Full) (l : List UInt8) :
    Tx.pending { s with buf := update s.buf s.w c, w := Tx.succ s.w, accepted := l } = s.pending ++ [c] := by
  simp only [Tx.Full, Tx.succ, uartTxBufSize] at h hw hr
  have hlen : ((s.w + 1) % 32 + 32 - s.r) % 32 = (s.w + 32 - s.r) % 32 + 1 := by omega
  simp only [Tx.pending, Tx.succ, uartTxBufSize, hlen, range_succ, map_append, map_singleton]
  congr 1
  · refine map_congr_left fun j hj => update_of_ne ?_ _ _
    have := mem_range.1 hj
    omega
  · rw [show (s.r + (s.w + 32 - s.r) % 32) % 32 = s.w by omega, update_self]

theorem pending_pop (hw : s.w < uartTxBufSize) (hr : s.r < uartTxBufSize) (h : s.w ≠ s.r) :
    s.pending = s.buf s.r :: Tx.pending { s with r := Tx.succ s.r } := by
  simp only [uartTxBufSize] at hw hr
  have hlen : (s.w + 32 - s.r) % 32 = (s.w + 32 - (s.r + 1) % 32) % 32 + 1 := by omega
  simp only [Tx.pending, Tx.succ, uartTxBufSize, hlen, range_succ_eq_map, map_cons, map_map, Nat.add_zero, Nat.mod_eq_of_lt hr]
  congr 1
  refine map_congr_left fun j _ => congrArg s.buf ?_
  show (s.r + (j + 1)) % 32 = ((s.r + 1) % 32 + j) % 32
  omega

/-! ## The invariant -/

/-- What the thread that holds the lock knows: nothing, whether the ring is full, that
it is not empty, or the byte that it has taken out; `woken` says that it has told the
sleepers. -/
inductive Held where
  | nothing
  | full (b : Bool)
  | ready
  | taken (c : UInt8) (woken : Bool)

def Held.Ok (s : Tx) : Held → Prop
  | .full b => b = true ↔ s.Full
  | .ready => s.w ≠ s.r
  | _ => True

def Held.flight : Option Held → List UInt8
  | some (.taken c _) => [c]
  | _ => []

structure Inv (s : Tx) (ch : τ → Option Chan) (k : Option Held) (_ : τ → Unit) : Prop where
  w : s.w < uartTxBufSize
  r : s.r < uartTxBufSize
  fifo : s.sent ++ (Held.flight k ++ s.pending) = s.accepted
  held : ∀ h, k = some h → h.Ok s
  sleepers : ∀ t, ch t ≠ none → s.Full ∨ ∃ c, k = some (.taken c false)

omit [DecidableEq τ] in
theorem uartinit_inv (buf : Nat → UInt8) : Mon.Inv Inv (uartinit buf : Mon Tx Chan τ) fun _ => ⟨none, ()⟩ where
  lock t := by simp [uartinit]
  data := ⟨by simp [uartinit], by simp [uartinit], by simp [uartinit, Held.flight, Tx.pending], nofun,
    fun t ht => absurd rfl ht⟩

/-- The program keeps the invariant and does not panic. -/
abbrev Spec (t : τ) {α : Type} (p : KProg τ α) (x : Mon.Ghost Held Unit) (Q : α → Mon.Ghost Held Unit → Prop) : Prop :=
  Mon.Spec Inv (fun _ => True) (fun _ => False) t p x Q

variable {t : τ} {k : Option Held} {h : Held} {α : Type}

omit [DecidableEq τ] in
/-- The holder learns or forgets something about the ring. -/
theorem Inv.learn (hi : Inv s ch k ph) (hk : Held.flight k = []) {k' : Option Held} (hk' : Held.flight k' = [])
    (hok : ∀ h, k' = some h → h.Ok s) : Inv s ch k' ph :=
  { hi with
    fifo := by rw [hk', ← hk]; exact hi.fifo
    held := hok
    sleepers := fun t ht => .inl ((hi.sleepers t ht).resolve_right fun ⟨c, e⟩ => by rw [e] at hk; cases hk) }

omit [DecidableEq τ] in
theorem Inv.lock (hi : Inv s ch none ph) : Inv s ch (some .nothing) ph :=
  hi.learn rfl rfl fun _ e => by cases e; trivial

theorem acquire_spec : Spec t Mon.acquire ⟨none, ()⟩ fun _ x => x = ⟨some .nothing, ()⟩ :=
  Mon.acquire_spec _ fun _ _ _ => Inv.lock

theorem release_spec (hh : Held.flight (some h) = []) : Spec t Mon.release ⟨some h, ()⟩ fun _ x => x = ⟨none, ()⟩ :=
  Mon.release_spec fun _ _ _ _ hi => hi.learn hh rfl nofun

theorem sleep_spec : Spec t (Mon.sleep .uartTxR) ⟨some (.full true), ()⟩ fun _ x => x = ⟨some .nothing, ()⟩ := by
  refine Mon.sleep_spec _ (fun s ch ph _ hi => ?_) fun _ _ _ => Inv.lock
  have hfull : s.Full := (hi.held _ rfl).1 rfl
  exact { hi.learn rfl (Eq.refl (Held.flight none)) nofun with sleepers := fun _ _ => .inl hfull }

theorem wakeup_spec : Spec t (Mon.wakeup .uartTxR) ⟨some (.taken c false), ()⟩ fun _ x => x = ⟨some (.taken c true), ()⟩ := by
  refine Mon.wakeup_spec _ fun s ch ph _ hi =>
    { hi with held := fun _ e => by cases e; trivial, sleepers := fun u hu => absurd ?_ hu }
  -- there is no other channel
  rw [Mon.woken]
  cases hc : ch u with
  | none => simp
  | some c => simp

theorem atomic_spec {f : Tx → α × Tx} {e : α → Held} (hf : ∀ s (ch : τ → Option Chan) ph, Inv s ch (some h) ph →
      Inv (f s).2 ch (some (e (f s).1)) ph) : Spec t (atomic f) ⟨some h, ()⟩ fun a x => x = ⟨some (e a), ()⟩ :=
  Mon.holder_spec fun s ch _ _ hi => ⟨e (f s).1, (), hf s ch _ hi, rfl⟩

/-! ## What each function does -/

theorem uartstart_spec (hh : Held.flight (some h) = []) :
    Spec t uartstart ⟨some h, ()⟩ fun _ x => ∃ h', Held.flight (some h') = [] ∧ x = ⟨some h', ()⟩ := by
  refine .loop (J := fun _ x => ∃ h', Held.flight (some h') = [] ∧ x = ⟨some h', ()⟩) ?_ ⟨h, hh, rfl⟩
  rintro _ _ ⟨h, hh, rfl⟩
  refine .next (atomic_spec (e := fun empty => if empty then .nothing else .ready) fun s ch ph hi => ?_) fun empty => ?_
  · refine hi.learn hh (by dsimp only; split <;> rfl) fun _ e => ?_
    cases e
    by_cases hempty : s.w = s.r <;> simp [hempty, Held.Ok]
  cases empty with
  | true => exact .ret ⟨_, rfl, rfl⟩
  | false =>
    refine .next (e := fun _ => ⟨some .ready, ()⟩) (.any fun _ => Safe.ret rfl) fun idle => ?_
    cases idle with
    | false => exact .ret ⟨_, rfl, rfl⟩
    | true =>
      refine .next (atomic_spec (e := fun c => .taken c false) fun s ch ph hi => ?_) fun c => ?_
      · have hne : s.w ≠ s.r := hi.held _ rfl
        refine ⟨hi.w, Nat.mod_lt _ (by decide), ?_, fun _ e => by cases e; trivial, fun _ _ => .inr ⟨_, rfl⟩⟩
        rw [← hi.fifo, pending_pop hi.w hi.r hne]
        rfl
      refine .next wakeup_spec fun _ => ?_
      refine .next (atomic_spec (e := fun _ => .nothing) fun s ch ph hi => ?_) fun _ => Safe.ret ⟨_, rfl, rfl⟩
      refine ⟨hi.w, hi.r, ?_, fun _ e => by cases e; trivial, fun u hu => .inl ((hi.sleepers u hu).resolve_right nofun)⟩
      rw [← hi.fifo]
      simp [Held.flight, Tx.pending]

theorem uartputc_spec (c : UInt8) : Spec t (uartputc c) ⟨none, ()⟩ fun _ x => x = ⟨none, ()⟩ := by
  refine .next acquire_spec fun _ => ?_
  refine .bind (R := fun _ x => x = ⟨some .nothing, ()⟩) (Mon.holder_spec fun s ch ph _ hi => ?_) ?_
  · split
    · trivial
    · exact ⟨_, (), hi, rfl⟩
  rintro _ _ rfl
  refine .loop (J := fun _ x => x = ⟨some .nothing, ()⟩) ?_ rfl
  rintro _ _ rfl
  refine .next (atomic_spec (e := .full) fun s ch ph hi => ?_) fun full => ?_
  · refine hi.learn rfl rfl fun _ e => ?_
    cases e
    exact decide_eq_true_iff
  cases full with
  | true => exact .next sleep_spec fun _ => Safe.ret rfl
  | false =>
    refine .next (atomic_spec (e := fun _ => .nothing) fun s ch ph hi => ?_) fun _ => ?_
    · have hroom : ¬ s.Full := fun hf => absurd ((hi.held _ rfl).2 hf) nofun
      refine ⟨Nat.mod_lt _ (by decide), hi.r, ?_, fun _ e => by cases e; trivial, fun u hu => ?_⟩
      · rw [pending_push hi.w hi.r hroom, ← hi.fifo]
        simp [Held.flight]
      · exact absurd ((hi.sleepers u hu).resolve_right nofun) hroom
    refine .bind (uartstart_spec rfl) ?_
    rintro _ _ ⟨h, hh, rfl⟩
    exact .next (release_spec hh) fun _ => Safe.ret rfl

theorem uartintr_spec : Spec t uartintr ⟨none, ()⟩ fun _ x => x = ⟨none, ()⟩ := by
  refine .next acquire_spec fun _ => ?_
  refine .bind (uartstart_spec rfl) ?_
  rintro _ _ ⟨h, hh, rfl⟩
  exact release_spec hh

theorem call_spec (x : Call τ) : Spec t ((client τ).body x ()) ⟨none, ()⟩ fun _ y => y = ⟨none, ()⟩ := by
  cases x with
  | uartputc c => exact uartputc_spec c
  | uartintr => exact uartintr_spec
  | kill u =>
    refine Mon.rouse_spec u fun s ch k ph hi => { hi with sleepers := fun v hv => hi.sleepers v fun e => hv ?_ }
    rcases eq_or_ne v u with rfl | hne
    · exact update_self ..
    · rwa [update_of_ne hne]
  | panic => exact Mon.other_spec fun s ch k ph _ hi =>
    ⟨(), ⟨hi.w, hi.r, hi.fifo, fun h e => by cases h <;> exact hi.held _ e, hi.sleepers⟩, rfl⟩

/-! ## Whole runs -/

/-- The bytes sent, the byte that the holder of the lock is about to send, and the bytes
in the ring are the bytes accepted; at most `UART_TX_BUF_SIZE - 1` are in the ring; and
while the lock is free, who sleeps finds the ring full. -/
structure Fifo (s : Mon Tx Chan τ) : Prop where
  order : ∃ flight : List UInt8, flight.length ≤ 1 ∧ (s.lock = none → flight = []) ∧
    s.data.sent ++ (flight ++ s.data.pending) = s.data.accepted
  size : s.data.pending.length ≤ uartTxBufSize - 1
  waits : s.lock = none → ∀ t, s.chan t = some .uartTxR → s.data.Full

/-- In every state of every run of `uartputc` and `uartintr` by any number of threads,
whatever the device answers, no byte is lost, overwritten or sent out of order, and
nobody sleeps while there is a free slot. -/
theorem ring_fifo {buf : Nat → UInt8} {c : Config (Mon Tx Chan τ) τ Unit}
    (hr : Config.Run (client τ) (fun _ => True) (.idle (uartinit buf) ()) c) : Fifo c.shared ∧ c.panicked = none := by
  obtain ⟨hinv, hp⟩ := Config.Run.inv (fun _ (x : Mon.Ghost Held Unit) => x = ⟨none, ()⟩) hr (uartinit_inv buf)
    (fun _ => rfl) rfl
    (by rintro t _ _ x rfl _; exact call_spec x)
  obtain ⟨γ, hi, -⟩ := hinv 0
  have h := hi.data
  refine ⟨⟨⟨_, ?_, fun hl => ?_, h.fifo⟩, ?_, fun hl t ht => ?_⟩, ?_⟩
  · unfold Held.flight
    split <;> simp
  · rw [hl]
    rfl
  · rw [Tx.pending, length_map, length_range]
    exact Nat.le_pred_of_lt (Nat.mod_lt _ (by decide))
  · rw [hl] at h
    exact (h.sleepers t (by rw [ht]; nofun)).resolve_right nofun
  · cases hc : c.panicked with
    | none => rfl
    | some m => exact (hp m hc).elim

/-- The device is busy: thread 0 fills the ring, and thread 1 has to sleep. -/
def fillAndSleep : List (Event Nat (Call Nat)) :=
  (range 31).flatMap (fun i => .call 0 (.uartputc (.ofNat i)) :: Event.steps 0 10) ++ .call 1 (.uartputc 31) :: Event.steps 1 5

set_option maxRecDepth 100000 in
theorem fillAndSleep_run : ((Config.idle (uartinit fun _ => 0) ()).execAll (client Nat) (fun _ => true) fillAndSleep).map
    (fun c => decide (c.shared.lock = none ∧ c.shared.chan 1 = some .uartTxR ∧ c.shared.data.sent = [])) = some true := by
  decide +kernel

theorem ring_fifo_full : ∃ c : Config (Mon Tx Chan Nat) Nat Unit,
    Config.Run (client Nat) (fun _ => True) (.idle (uartinit fun _ => 0) ()) c ∧ c.shared.chan 1 = some .uartTxR ∧
    c.shared.data.Full ∧ c.shared.data.pending = c.shared.data.accepted := by
  obtain ⟨c, hc, h⟩ := Option.map_eq_some_iff.mp fillAndSleep_run
  obtain ⟨hl, hch, hsent⟩ := of_decide_eq_true h
  have hr : Config.Run (client Nat) (fun _ => True) (.idle (uartinit fun _ => 0) ()) c := .of_execAll (fun _ _ => trivial) hc
  obtain ⟨⟨⟨flight, -, hf, ho⟩, -, hw⟩, -⟩ := ring_fifo hr
  refine ⟨c, hr, hch, hw hl 1 hch, ?_⟩
  rwa [hsent, hf hl] at ho

end Xv6.Uart
