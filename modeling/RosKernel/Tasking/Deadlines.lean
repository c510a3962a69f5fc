import Mathlib.Tactic.Ring
import RosKernel.Tasking.Blocking

/-! The tick that a sleeping call programs, compared with the time that was asked for. -/

set_option autoImplicit false

namespace RosKernel.Tasking

open Library Memory

/-- A call that lets the current task sleep. -/
inductive SleepRequest where
  | sleep (ms : Nat)
  | sysSleepMS (ms : Nat)
  | sysSleepNs (seconds nanoseconds : Int)
  deriving DecidableEq

namespace SleepRequest

/-- The arguments are words, and a timespec with seconds to wait for is well formed. -/
def Admitted : SleepRequest → Prop
  | .sleep ms | .sysSleepMS ms => ms < 2 ^ 64
  | .sysSleepNs seconds nanoseconds => -2 ^ 63 ≤ seconds ∧ seconds < 2 ^ 63 ∧ -2 ^ 63 ≤ nanoseconds ∧ nanoseconds < 2 ^ 63 ∧
      (0 ≤ seconds → 0 ≤ nanoseconds ∧ nanoseconds < 1000000000)

def Negative : SleepRequest → Prop
  | .sleep _ | .sysSleepMS _ => False
  | .sysSleepNs seconds _ => seconds < 0

def IsZero : SleepRequest → Prop
  | .sleep ms | .sysSleepMS ms => ms = 0
  | .sysSleepNs seconds nanoseconds => seconds = 0 ∧ nanoseconds = 0

instance : DecidablePred Negative := fun request => by
  cases request <;> unfold Negative <;> infer_instance

instance : DecidablePred IsZero := fun request => by
  cases request <;> unfold IsZero <;> infer_instance

def product (hz : Nat) : SleepRequest → Nat
  | .sleep ms | .sysSleepMS ms => ms * hz / 1000
  | .sysSleepNs seconds nanoseconds => (seconds.toNat * 1000000000 + nanoseconds.toNat) * hz / 1000000000

/-- The least number of ticks that is no shorter than what was asked for. -/
def ticks (hz : Nat) (request : SleepRequest) : Nat := if request.IsZero then 0 else max 1 (request.product hz)

/-- No product and no sum leaves 64 bits; a negative time is rejected only for its nanoseconds. -/
def Fits (now hz : Nat) : SleepRequest → Prop
  | .sleep ms => ms * hz < 2 ^ 64 ∧ now + (SleepRequest.sleep ms).ticks hz < 2 ^ 64
  | .sysSleepMS ms => ms * hz < 2 ^ 64 ∧ now + (SleepRequest.sysSleepMS ms).ticks hz < 2 ^ 64
  | .sysSleepNs seconds nanoseconds =>
    if seconds < 0 then nanoseconds < 0 ∨ 1000000000 ≤ nanoseconds
    else nanoseconds.toNat * hz < 2 ^ 64 ∧ now + (SleepRequest.sysSleepNs seconds nanoseconds).ticks hz < 2 ^ 64

end SleepRequest

namespace Kernel

def requestSleep (kernel : Kernel) : SleepRequest → Option Kernel
  | .sleep ms => kernel.sleep ms
  | .sysSleepMS ms => kernel.sysSleepMS ms
  | .sysSleepNs seconds nanoseconds => kernel.sysSleepNs seconds nanoseconds

/-- The task is to wake no earlier than asked; a negative time does not block it. `Sleep(0)` returns. -/
def NeverEarly (kernel after : Kernel) (t : TaskId) (request : SleepRequest) : Prop :=
  if request.Negative then (after.task t).state ≠ .blocked
  else request ≠ .sleep 0 → kernel.lapicTicks + request.ticks kernel.lapicHz ≤ (after.task t).sleepTick

section

variable {kernel after : Kernel} {t : TaskId}

theorem mul64_div_lt {a b unit : Nat} (wraps : 2 ^ 64 ≤ a * b) (pos : 0 < unit) (lt : unit ≤ 2 ^ 64) :
    mul64 a b / unit < a * b / unit := by
  have least : mul64 a b + unit ≤ a * b := by
    have quotient : 1 ≤ a * b / 2 ^ 64 := (Nat.one_le_div_iff (by decide)).mpr wraps
    unfold mul64
    omega
  have moved : (mul64 a b + unit) / unit = mul64 a b / unit + 1 := Nat.add_div_right _ pos
  have ord : (mul64 a b + unit) / unit ≤ a * b / unit := Nat.div_le_div_right least
  omega

theorem sleepFor_tick {ticks : Nat} (done : kernel.sleepFor t ticks = some after) :
    (after.task t).sleepTick = add64 kernel.lapicTicks ticks ∧ (after.task t).state = .blocked := by
  obtain rfl | ⟨index, _, _, tasks⟩ := addToSleepList_tables done
  · rw [task_modify, if_pos rfl]
    exact ⟨rfl, rfl⟩
  · rw [tasks, if_pos rfl, task_modify, if_pos rfl]
    exact ⟨rfl, rfl⟩

theorem deadline_iff {now programmed needed : Nat} (lt : programmed ≤ needed) :
    now + needed ≤ add64 now programmed ↔ programmed = needed ∧ now + needed < 2 ^ 64 := by
  unfold add64
  constructor
  · intro late
    have reduced := Nat.mod_le (now + programmed) (2 ^ 64)
    have word := Nat.mod_lt (now + programmed) (show 0 < 2 ^ 64 by decide)
    exact ⟨by omega, Nat.lt_of_le_of_lt late word⟩
  · rintro ⟨rfl, fits⟩
    rw [Nat.mod_eq_of_lt fits]

theorem millisecondTicks_iff (ms hz : Nat) :
    (if mul64 ms hz / 1000 = 0 then 1 else mul64 ms hz / 1000) ≤ max 1 (ms * hz / 1000) ∧
      ((if mul64 ms hz / 1000 = 0 then 1 else mul64 ms hz / 1000) = max 1 (ms * hz / 1000) ↔ ms * hz < 2 ^ 64) := by
  by_cases fits : ms * hz < 2 ^ 64
  · rw [mul64_eq fits]
    refine ⟨?_, iff_of_true ?_ fits⟩ <;> split <;> omega
  · have large := Nat.le_of_not_lt fits
    have fewer := mul64_div_lt large (show 0 < 1000 by decide) (by decide)
    have most : 2 ^ 64 / 1000 ≤ ms * hz / 1000 := Nat.div_le_div_right large
    refine ⟨?_, iff_of_false ?_ fits⟩ <;> split <;> omega

/-- Seconds and nanoseconds to ticks as `Sys_SleepNs` computes them. -/
def timespecTicks (seconds nanoseconds hz : Nat) : Nat :=
  let ticks := add64 (mul64 seconds hz) (mul64 nanoseconds hz / 1000000000)
  if ticks = 0 ∧ (0 < seconds ∨ 0 < nanoseconds) then 1 else ticks

theorem timespec_product (seconds nanoseconds hz : Nat) :
    (seconds * 1000000000 + nanoseconds) * hz / 1000000000 = seconds * hz + nanoseconds * hz / 1000000000 := by
  have split : (seconds * 1000000000 + nanoseconds) * hz = nanoseconds * hz + 1000000000 * (seconds * hz) := by ring
  rw [split, Nat.add_mul_div_left _ _ (by decide), Nat.add_comm]

theorem timespecTicks_iff {seconds nanoseconds hz needed : Nat} (asked : 0 < seconds ∨ 0 < nanoseconds)
    (isNeeded : needed = max 1 (seconds * hz + nanoseconds * hz / 1000000000)) (word : needed < 2 ^ 64) :
    timespecTicks seconds nanoseconds hz = needed ↔ nanoseconds * hz < 2 ^ 64 := by
  by_cases fits : nanoseconds * hz < 2 ^ 64
  · have exact : add64 (mul64 seconds hz) (mul64 nanoseconds hz / 1000000000) =
        seconds * hz + nanoseconds * hz / 1000000000 := by
      rw [mul64_eq fits, mul64_eq (by omega), add64_eq (by omega)]
    unfold timespecTicks
    dsimp only
    rw [exact]
    refine iff_of_true ?_ fits
    split <;> omega
  · have large := Nat.le_of_not_lt fits
    have fewer := mul64_div_lt large (show 0 < 1000000000 by decide) (by decide)
    have most : 2 ^ 64 / 1000000000 ≤ nanoseconds * hz / 1000000000 := Nat.div_le_div_right large
    have reduced : mul64 seconds hz ≤ seconds * hz := Nat.mod_le ..
    have summed : add64 (mul64 seconds hz) (mul64 nanoseconds hz / 1000000000) ≤
        mul64 seconds hz + mul64 nanoseconds hz / 1000000000 := Nat.mod_le ..
    unfold timespecTicks
    dsimp only
    refine iff_of_false ?_ fits
    split <;> omega

theorem timespecTicks_le (seconds nanoseconds hz : Nat) :
    timespecTicks seconds nanoseconds hz ≤ max 1 (seconds * hz + nanoseconds * hz / 1000000000) := by
  have first : mul64 seconds hz ≤ seconds * hz := Nat.mod_le ..
  have snd : mul64 nanoseconds hz / 1000000000 ≤ nanoseconds * hz / 1000000000 := Nat.div_le_div_right (Nat.mod_le ..)
  have summed : add64 (mul64 seconds hz) (mul64 nanoseconds hz / 1000000000) ≤
      mul64 seconds hz + mul64 nanoseconds hz / 1000000000 := Nat.mod_le ..
  unfold timespecTicks
  dsimp only
  split <;> omega

theorem neverEarly_of_asks {req : SleepRequest} {programmed : Nat} (pos : ¬req.Negative)
    (asks : req ≠ .sleep 0) (tick : (after.task t).sleepTick = add64 kernel.lapicTicks programmed)
    (most : programmed ≤ req.ticks kernel.lapicHz) : kernel.NeverEarly after t req ↔
      programmed = req.ticks kernel.lapicHz ∧ kernel.lapicTicks + req.ticks kernel.lapicHz < 2 ^ 64 := by
  unfold NeverEarly
  rw [if_neg pos, tick, ← deadline_iff most]
  exact ⟨fun late => late asks, fun late _ => late⟩

theorem sleep_neverEarly_iff {ms : Nat} (runs : kernel.getCurrentTaskPtr = some t) (now : kernel.lapicTicks < 2 ^ 64)
    (done : kernel.sleep ms = some after) :
    kernel.NeverEarly after t (.sleep ms) ↔ (SleepRequest.sleep ms).Fits kernel.lapicTicks kernel.lapicHz := by
  unfold Kernel.sleep at done
  rw [runs] at done
  dsimp only at done
  by_cases zero : ms = 0
  · subst zero
    have none : (SleepRequest.sleep 0).ticks kernel.lapicHz = 0 := if_pos rfl
    refine iff_of_true (fun asks => absurd rfl asks) ⟨?_, ?_⟩
    · rw [Nat.zero_mul]
      decide
    · rw [none]
      exact now
  · rw [if_neg zero] at done
    have needed : (SleepRequest.sleep ms).ticks kernel.lapicHz = max 1 (ms * kernel.lapicHz / 1000) := if_neg zero
    obtain ⟨most, exact⟩ := millisecondTicks_iff ms kernel.lapicHz
    rw [← needed] at most exact
    rw [neverEarly_of_asks id (fun eq => zero (SleepRequest.sleep.inj eq)) (sleepFor_tick done).1 most, exact]
    exact .rfl

theorem sysSleepMS_eq (ms : Nat) (runs : kernel.getCurrentTaskPtr = some t) : kernel.sysSleepMS ms = kernel.sleepFor t
    (if mul64 ms kernel.lapicHz / 1000 = 0 ∧ 0 < ms then 1 else mul64 ms kernel.lapicHz / 1000) := by
  unfold Kernel.sysSleepMS
  rw [runs]

theorem sysSleepMS_neverEarly_iff {ms : Nat} (runs : kernel.getCurrentTaskPtr = some t) (now : kernel.lapicTicks < 2 ^ 64)
    (done : kernel.sysSleepMS ms = some after) :
    kernel.NeverEarly after t (.sysSleepMS ms) ↔ (SleepRequest.sysSleepMS ms).Fits kernel.lapicTicks kernel.lapicHz := by
  rw [sysSleepMS_eq ms runs] at done
  have programmed := (sleepFor_tick done).1
  by_cases zero : ms = 0
  · subst zero
    have none : (SleepRequest.sysSleepMS 0).ticks kernel.lapicHz = 0 := if_pos rfl
    have nothing : (if mul64 0 kernel.lapicHz / 1000 = 0 ∧ 0 < 0 then 1 else mul64 0 kernel.lapicHz / 1000) = 0 := by
      simp [mul64]
    rw [nothing] at programmed
    rw [neverEarly_of_asks id (by simp) programmed (Nat.zero_le _), none]
    refine ⟨fun fits => ⟨?_, ?_⟩, fun fits => ⟨rfl, now⟩⟩
    · rw [Nat.zero_mul]
      decide
    · rw [none]
      exact now
  · have needed : (SleepRequest.sysSleepMS ms).ticks kernel.lapicHz = max 1 (ms * kernel.lapicHz / 1000) := if_neg zero
    have eq : (if mul64 ms kernel.lapicHz / 1000 = 0 ∧ 0 < ms then 1 else mul64 ms kernel.lapicHz / 1000) =
        if mul64 ms kernel.lapicHz / 1000 = 0 then 1 else mul64 ms kernel.lapicHz / 1000 := by
      simp only [Nat.pos_of_ne_zero zero, and_true]
    obtain ⟨most, exact⟩ := millisecondTicks_iff ms kernel.lapicHz
    rw [← needed] at most exact
    rw [eq] at programmed
    rw [neverEarly_of_asks id (by simp) programmed most, exact]
    exact .rfl

theorem sysSleepNs_neverEarly_iff {seconds nanoseconds : Int} (runs : kernel.getCurrentTaskPtr = some t)
    (awake : (kernel.task t).state = .running) (now : kernel.lapicTicks < 2 ^ 64)
    (admitted : (SleepRequest.sysSleepNs seconds nanoseconds).Admitted)
    (done : kernel.sysSleepNs seconds nanoseconds = some after) : kernel.NeverEarly after t (.sysSleepNs seconds nanoseconds) ↔
      (SleepRequest.sysSleepNs seconds nanoseconds).Fits kernel.lapicTicks kernel.lapicHz := by
  unfold Kernel.sysSleepNs at done
  rw [runs] at done
  dsimp only at done
  have fits : (SleepRequest.sysSleepNs seconds nanoseconds).Fits kernel.lapicTicks kernel.lapicHz =
      if seconds < 0 then nanoseconds < 0 ∨ 1000000000 ≤ nanoseconds
      else nanoseconds.toNat * kernel.lapicHz < 2 ^ 64 ∧ kernel.lapicTicks +
        (SleepRequest.sysSleepNs seconds nanoseconds).ticks kernel.lapicHz < 2 ^ 64 := rfl
  rw [fits]
  by_cases negative : seconds < 0
  · unfold NeverEarly
    rw [if_pos (show (SleepRequest.sysSleepNs seconds nanoseconds).Negative from negative), if_pos negative]
    by_cases malformed : nanoseconds < 0 ∨ 1000000000 ≤ nanoseconds
    · rw [if_pos malformed] at done
      cases done
      refine iff_of_true ?_ malformed
      rw [awake]
      decide
    · rw [if_neg malformed] at done
      exact iff_of_false (fun rejected => rejected (sleepFor_tick done).2) malformed
  · obtain ⟨least, most, _, _, formed⟩ := admitted
    obtain ⟨lower, upper⟩ := formed (Int.not_lt.mp negative)
    rw [if_neg (by omega)] at done
    have word : (seconds % 2 ^ 64).toNat = seconds.toNat := by omega
    have programmed : (after.task t).sleepTick =
        add64 kernel.lapicTicks (timespecTicks seconds.toNat nanoseconds.toNat kernel.lapicHz) := by
      rw [(sleepFor_tick done).1, word]
      unfold timespecTicks
      have pos : (0 < seconds ∨ 0 < nanoseconds) ↔ 0 < seconds.toNat ∨ 0 < nanoseconds.toNat := by omega
      simp only [pos]
    rw [if_neg negative]
    have pos : ¬(SleepRequest.sysSleepNs seconds nanoseconds).Negative := negative
    by_cases zero : seconds = 0 ∧ nanoseconds = 0
    · obtain ⟨rfl, rfl⟩ := zero
      have none : (SleepRequest.sysSleepNs 0 0).ticks kernel.lapicHz = 0 := if_pos ⟨rfl, rfl⟩
      have nothing : timespecTicks (Int.toNat 0) (Int.toNat 0) kernel.lapicHz = 0 := by
        simp [timespecTicks, mul64, add64]
      rw [nothing] at programmed
      rw [neverEarly_of_asks pos (by simp) programmed (Nat.zero_le _), none]
      refine ⟨fun _ => ⟨?_, now⟩, fun _ => ⟨rfl, now⟩⟩
      rw [Int.toNat_zero, Nat.zero_mul]
      decide
    · have needed : (SleepRequest.sysSleepNs seconds nanoseconds).ticks kernel.lapicHz =
          max 1 (seconds.toNat * kernel.lapicHz + nanoseconds.toNat * kernel.lapicHz / 1000000000) := by
        rw [← timespec_product]
        exact if_neg zero
      have least := timespecTicks_le seconds.toNat nanoseconds.toNat kernel.lapicHz
      rw [← needed] at least
      rw [neverEarly_of_asks pos (by simp) programmed least]
      constructor
      · rintro ⟨exact, lt⟩
        exact ⟨(timespecTicks_iff (by omega) needed (by omega)).mp exact, lt⟩
      · rintro ⟨whole, lt⟩
        exact ⟨(timespecTicks_iff (by omega) needed (by omega)).mpr whole, lt⟩

/-- A sleeper wakes no earlier than it asked for exactly if nothing that is computed for it wraps,
and a negative time is rejected exactly if its nanoseconds are malformed. -/
theorem sleeper_neverEarly_iff {request : SleepRequest} (runs : kernel.getCurrentTaskPtr = some t)
    (awake : (kernel.task t).state = .running) (now : kernel.lapicTicks < 2 ^ 64) (admitted : request.Admitted)
    (done : kernel.requestSleep request = some after) :
    kernel.NeverEarly after t request ↔ request.Fits kernel.lapicTicks kernel.lapicHz := by
  cases request with
  | sleep ms => exact sleep_neverEarly_iff runs now done
  | sysSleepMS ms => exact sysSleepMS_neverEarly_iff runs now done
  | sysSleepNs seconds nanoseconds => exact sysSleepNs_neverEarly_iff runs awake now admitted done

/-- One task that runs, at a thousand ticks a second. -/
def oneRunning : Kernel := { powerOn 1000 ⟨0, 0, 0⟩ with
  task := fun _ => { constructed 0 0 0 0 0 with pid := 1, state := .running }
  nextTask := 1
  taskArray := Function.update (fun _ => none) 1 (some 0)
  currentTaskIndex := 1 }

theorem oneRunning_sleeps {req : SleepRequest} (asks : (oneRunning.requestSleep req).isSome = true) :
    ∃ after, oneRunning.requestSleep req = some after := Option.isSome_iff_exists.mp asks

theorem second_neverEarly : ∃ after, oneRunning.requestSleep (.sysSleepMS 1000) = some after ∧
    (oneRunning.NeverEarly after 0 (.sysSleepMS 1000) ↔ (SleepRequest.sysSleepMS 1000).Fits 0 1000) := by
  obtain ⟨after, done⟩ := @oneRunning_sleeps (.sysSleepMS 1000) (by decide +kernel)
  exact ⟨after, done, sleeper_neverEarly_iff rfl rfl (by decide) (by change (1000 < 2 ^ 64); decide) done⟩

/-- A sleep of half a billion years is over at the next tick. -/
theorem long_sleep_wakes_early : ∃ after, oneRunning.requestSleep (.sysSleepMS 18446744073709552) = some after ∧
    (after.task 0).sleepTick = 1 ∧ ¬oneRunning.NeverEarly after 0 (.sysSleepMS 18446744073709552) := by
  obtain ⟨after, done⟩ := @oneRunning_sleeps (.sysSleepMS 18446744073709552) (by decide +kernel)
  have tick : (after.task 0).sleepTick = 1 := by
    have slept : oneRunning.sleepFor 0 1 = some after := by
      rw [← done]
      exact ((sysSleepMS_eq 18446744073709552 rfl).trans (congrArg _ (if_pos (by decide)))).symm
    exact (sleepFor_tick slept).1
  refine ⟨after, done, tick, fun early => ?_⟩
  have late := early (by decide)
  rw [tick] at late
  exact absurd late (by decide)

end

end Kernel

end RosKernel.Tasking
