import Xv6.Pipe.Spec

/-!
# Nobody sleeps on a pipe for nothing

In the runs in which `pipewrite` never gives up after it has stored bytes that
it has not woken up the readers for; and a run in which it does, and a reader
sleeps on.
-/

namespace Xv6.Pipe.Wakeup

variable {mapped : Pid → BitVec 64 → Bool}

/-- Processes that make any calls, with any buffers. -/
def users (mapped : Pid → BitVec 64 → Bool) : Client (Mon State Chan Pid) Pid Unit Call :=
  { client mapped with allowed := fun _ _ _ => true }

/-- In every run in which `pipewrite` never gives up after it has stored bytes
that it has not woken up the readers for: whenever the pipe exists and its
lock is free, every process that sleeps on `&pi->nread` finds the pipe empty
and open for writing, and every process that sleeps on `&pi->nwrite` finds it
full and open for reading. -/
theorem sleepers_not_stranded {data : Nat → UInt8} {mem : Pid → BitVec 64 → UInt8} {c : Config (Mon State Chan Pid) Pid Unit}
    (hr : Config.Run (users mapped) (fun s => s.data.wakes.gaveUp = false) (.idle (pipealloc data mem) ()) c)
    (hlock : c.shared.lock = none) (hfreed : c.shared.data.freed = false) (t : Pid) :
    (c.shared.chan t = some .nread → c.shared.data.nread = c.shared.data.nwrite ∧ c.shared.data.writeopen = true) ∧
    (c.shared.chan t = some .nwrite →
      c.shared.data.nwrite = c.shared.data.nread + .ofNat 32 pipesize ∧ c.shared.data.readopen = true) := by
  obtain ⟨hinv, -⟩ := Config.Run.inv (fun _ (x : Ghost) => x = ⟨none, none⟩) (hr.mono fun _ _ => trivial)
    (start_inv False data mem)
    (fun _ => rfl) rfl (by rintro t _ _ x rfl -; exact call_spec x False.elim)
  obtain ⟨γ, hi, -⟩ := hinv 0
  have hgave : c.shared.data.wakes.gaveUp = false := by
    cases hr with
    | refl => rfl
    | tail _ _ _ h => exact h
  have hfits := hi.data.fits hfreed
  rw [hlock] at hfits
  exact ⟨fun e => (hfits.readers hgave t e).resolve_right nofun, fun e => (hfits.writers hgave t e).resolve_right nofun⟩

/-- The pipe that processes with the bytes 0, 1, 2, … in their memory use. -/
def newPipe : Config (Mon State Chan Pid) Pid Unit := .idle (pipealloc (fun _ => 0) fun _ a => UInt8.ofNat a.toNat) ()

/-- Process 1 reads and has to sleep. -/
def sleepingReader : List (Event Pid Call) := .call 1 (.read 0 1) :: Event.steps 1 6

theorem sleepingReader_run : (newPipe.execAll (users fun _ _ => true) (fun s => !s.data.wakes.gaveUp) sleepingReader).map
    (fun c => decide (c.shared.lock = none ∧ c.shared.data.freed = false ∧ c.shared.chan 1 = some .nread)) = some true := by
  decide +kernel

theorem sleepers_not_stranded_empty : ∃ c : Config (Mon State Chan Pid) Pid Unit,
    Config.Run (users fun _ _ => true) (fun s => s.data.wakes.gaveUp = false) newPipe c ∧ c.shared.chan 1 = some .nread ∧
    c.shared.data.nread = c.shared.data.nwrite ∧ c.shared.data.writeopen = true := by
  obtain ⟨c, hc, h⟩ := Option.map_eq_some_iff.mp sleepingReader_run
  obtain ⟨hlock, hfreed, hchan⟩ := of_decide_eq_true h
  have hr : Config.Run (users fun _ _ => true) (fun s => s.data.wakes.gaveUp = false) newPipe c :=
    .of_execAll (fun s hs => by simpa using hs) hc
  exact ⟨c, hr, hchan, (sleepers_not_stranded hr hlock hfreed 1).1 hchan⟩

/-- Process 0 has been killed, and writes 513 bytes. -/
def killedWriter : List (Event Pid Call) :=
  .call 2 (.kill 0) :: Event.steps 2 3 ++ .call 0 (.write 0 513) :: Event.steps 0 2057

set_option maxRecDepth 100000 in
theorem killedWriter_run : (newPipe.execAll (users fun _ _ => true) (fun _ => true) (sleepingReader ++ killedWriter)).map
    (fun c => decide (c.shared.lock = none ∧ c.shared.data.freed = false ∧ c.shared.chan 1 = some .nread ∧
      c.shared.data.nread = 0 ∧ c.shared.data.nwrite = 512)) = some true := by
  decide +kernel

/-- The killed writer fills the pipe and returns -1, and the reader sleeps on. -/
theorem reader_stranded : ∃ c : Config (Mon State Chan Pid) Pid Unit, Config.Run (users fun _ _ => true)
    (fun _ => True) newPipe c ∧
    c.shared.lock = none ∧ c.shared.data.freed = false ∧
    c.shared.chan 1 = some .nread ∧ c.shared.data.nread ≠ c.shared.data.nwrite := by
  obtain ⟨c, hc, h⟩ := Option.map_eq_some_iff.mp killedWriter_run
  obtain ⟨hlock, hfreed, hchan, hnr, hnw⟩ := of_decide_eq_true h
  refine ⟨c, .of_execAll (fun _ _ => trivial) hc, hlock, hfreed, hchan, ?_⟩
  rw [hnr, hnw]
  decide

end Xv6.Pipe.Wakeup
