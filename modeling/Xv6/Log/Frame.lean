import Xv6.Log.Model

/-!
# What the buffer cache leaves alone

The functions of `bio.c`, and those of `log.c` that only move blocks, change
nothing of the log in memory and nothing of what operations have logged. They
keep every invariant that speaks of these alone (`LogOnly`).
-/

namespace Xv6.Log

abbrev tooBig : String := "too big a transaction"

/-- The invariant speaks only of the log in memory, of the writes since the
last commit and of the number of operations. -/
def LogOnly {G : Type} (Inv : State → (Pid → G) → Prop) : Prop :=
  ∀ s s' γ, s'.log = s.log → s'.hist.cur = s.hist.cur → s'.hist.nops = s.hist.nops → Inv s γ → Inv s' γ

/-- A step that leaves the log alone. -/
def SameLog (s s' : State) : Prop := s'.log = s.log ∧ s'.hist.cur = s.hist.cur ∧ s'.hist.nops = s.hist.nops

/-- The panics of `bio.c`. -/
def BioPanic (m : String) : Prop := m ∈ ["bget: no buffers", "bwrite", "brelse"]

theorem BioPanic.ne_tooBig {m : String} (h : BioPanic m) : m ≠ tooBig := by
  rintro rfl
  simp [BioPanic, tooBig] at h

theorem keep {G α : Type} {Asm : State → Prop} {Inv : State → (Pid → G) → Prop} {t : Pid} {p : KProg α} (hInv : LogOnly Inv)
    (h : p.Does SameLog BioPanic) (g : G) : Safe Asm Inv (· ≠ tooBig) t p g fun _ g' => g' = g :=
  .of_does h (fun s s' γ hs hi => hInv s s' γ hs.1 hs.2.1 hs.2.2 hi) (fun _ => BioPanic.ne_tooBig) g

theorem acquiresleep_does (b : BufId) : (acquiresleep b).Does SameLog BioPanic := .step fun t s => by
  by_cases h : (s.buf b).lock = none
  · simp [h, SameLog]
  · simp [h]

theorem bget_does (dev b : Nat) : (bget dev b).Does SameLog BioPanic := by
  refine .bind (.step fun t s => ?_) fun i => .bind (acquiresleep_does i) fun _ => .ret i
  unfold bgetRef
  cases s.lru.find? fun i => (s.buf i).dev = dev ∧ (s.buf i).blockno = b with
  | some i => exact ⟨rfl, rfl, rfl⟩
  | none =>
    cases s.lru.reverse.find? fun i => (s.buf i).refcnt = 0 with
    | some i => exact ⟨rfl, rfl, rfl⟩
    | none => simp [BioPanic]

theorem bread_does (dev b : Nat) : (bread dev b).Does SameLog BioPanic := by
  refine .bind (bget_does dev b) fun i => .bind (.step fun t s => ?_) fun _ => .ret i
  by_cases h : (s.buf i).valid = true <;> simp [h, SameLog]

theorem bwrite_does (i : BufId) : (bwrite i).Does SameLog BioPanic := .step fun t s => by
  by_cases h : (s.buf i).lock = some t
  · simp [h, SameLog]
  · simp [h, BioPanic]

theorem brelse_does (i : BufId) : (brelse i).Does SameLog BioPanic := by
  refine .bind (.step fun t s => ?_) fun _ => .step fun t s => ?_
  · by_cases h : (s.buf i).lock = some t
    · simp [h, SameLog]
    · simp [h, BioPanic]
  · dsimp only
    split <;> exact ⟨rfl, rfl, rfl⟩

theorem bunpin_does (i : BufId) : (bunpin i).Does SameLog BioPanic := .step fun _ _ => ⟨rfl, rfl, rfl⟩

theorem memmove_does (i j : BufId) : (memmove i j).Does SameLog BioPanic := .step fun _ _ => ⟨rfl, rfl, rfl⟩

theorem getLog_does : getLog.Does SameLog BioPanic := .step fun _ _ => ⟨rfl, rfl, rfl⟩

theorem writeHead_does : writeHead.Does SameLog BioPanic :=
  .bind getLog_does fun _ => .bind (bread_does _ _) fun i => .bind (.step fun _ _ => ⟨rfl, rfl, rfl⟩) fun _ =>
    .bind (bwrite_does i) fun _ => brelse_does i

theorem writeLog_does : writeLog.Does SameLog BioPanic := by
  refine .loop (fun k => .bind getLog_does fun log => ?_) 0
  cases log.lh[k]? with
  | none => exact .ret _
  | some b =>
    refine .bind (bread_does _ _) fun dst => .bind (bread_does _ _) fun src => ?_
    refine .bind (memmove_does dst src) fun _ => .bind (bwrite_does dst) fun _ => ?_
    exact .bind (brelse_does src) fun _ => .bind (brelse_does dst) fun _ => .ret _

theorem installTrans_does : installTrans.Does SameLog BioPanic := by
  refine .loop (fun k => .bind getLog_does fun log => ?_) 0
  cases log.lh[k]? with
  | none => exact .ret _
  | some b =>
    refine .bind (bread_does _ _) fun lbuf => .bind (bread_does _ _) fun dbuf => ?_
    refine .bind (memmove_does dbuf lbuf) fun _ => .bind (bwrite_does dbuf) fun _ => ?_
    refine .bind (bunpin_does dbuf) fun _ => .bind (brelse_does lbuf) fun _ => ?_
    exact .bind (brelse_does dbuf) fun _ => .ret _

end Xv6.Log
