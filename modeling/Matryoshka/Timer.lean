import Matryoshka.Word

/-!
# The timer

`kernel/drivers/timer.c`: the tick counter, the uptime in seconds and the
two sleep functions. A sleeper reads the counter, compares, and executes
`hlt`; interrupts may arrive and other tasks may run between any two of
these steps. The counter has 64 bits and is read by two 32-bit loads, so
an interrupt may also fall between the halves; which half comes first is
up to the compiler (`LoadOrder`). The programming of the PIT is left out.

A tick that carries into the upper half between the two loads makes the
value read wrong by 2^32, and `timer_sleep` may return early. With either
order it does so in some run exactly when the counter carries before the
last of the ticks (`sleep_full_iff`). `timer_sleep_ms` converts its argument
in 32 bits on top of that (`sleep_ms_full_iff`).
-/

namespace Matryoshka

def TIMER_FREQUENCY : Nat := 100

def timerGetUptimeSec (ticks : Nat) : Nat := u32 (ticks / TIMER_FREQUENCY)

/-! ## Reading the counter -/

/-- The half of `timer_ticks` that is loaded first. -/
inductive LoadOrder
  | lowFirst
  | highFirst
deriving Repr, DecidableEq

/-- The first load, while the counter is `t`. -/
def LoadOrder.first (t : Nat) : LoadOrder → Nat
  | lowFirst => t % 2 ^ 32
  | highFirst => t / 2 ^ 32

/-- The value read when the second load finds the counter at `t`. -/
def LoadOrder.value (half t : Nat) : LoadOrder → Nat
  | lowFirst => t / 2 ^ 32 * 2 ^ 32 + half
  | highFirst => half * 2 ^ 32 + t % 2 ^ 32

/-! ## Sleeping -/

/-- Where `timer_sleep` is: before the two loads for `end_tick`, before those of the loop
condition, at `hlt` or inside it, or returned. -/
inductive SleepPc
  | load
  | loaded (half : Nat)
  | check (endTick : Nat)
  | checked (endTick half : Nat)
  | hlt (endTick : Nat)
  | halted (endTick : Nat)
  | done
deriving Repr, DecidableEq

/-- `ticks` is the argument; `elapsed` counts the timer interrupts since the call. -/
structure Sleeper where
  timerTicks : Nat
  ticks : Nat
  pc : SleepPc
  elapsed : Nat
deriving Repr, DecidableEq

def timerSleep (now ticks : Nat) : Sleeper := ⟨now, ticks, .load, 0⟩

/-- `(ms * TIMER_FREQUENCY) / 1000`. -/
def msToTicks (ms : Nat) : Nat := u32 (ms * TIMER_FREQUENCY) / 1000

def timerSleepMs (now ms : Nat) : Sleeper := timerSleep now (msToTicks ms)

inductive SleepEvent
  | own
  | timer
  | otherIrq
deriving Repr, DecidableEq

/-- A step of the sleeper itself. The comparison works on registers and goes with the load
before it. -/
def SleepPc.next (o : LoadOrder) (t n : Nat) : SleepPc → SleepPc
  | .load => .loaded (o.first t)
  | .loaded half => .check (u64 (o.value half t + n))
  | .check e => .checked e (o.first t)
  | .checked e half => if o.value half t < e then .hlt e else .done
  | .hlt e => .halted e
  | .halted e => .halted e
  | .done => .done

/-- An interrupt ends `hlt`. -/
def SleepPc.wake : SleepPc → SleepPc
  | .halted e => .check e
  | pc => pc

/-- The `end_tick` of the call, once computed. -/
def SleepPc.endTick : SleepPc → Option Nat
  | .check e => some e
  | .checked e _ => some e
  | .hlt e => some e
  | .halted e => some e
  | _ => none

/-- After its return nothing concerns the sleeper any more. -/
def sleepStep (o : LoadOrder) (s : Sleeper) (e : SleepEvent) : Sleeper :=
  if s.pc = .done then s
  else
    match e with
    | .own => { s with pc := s.pc.next o s.timerTicks s.ticks }
    | .timer =>
        { s with
          timerTicks := u64 (s.timerTicks + 1)
          elapsed := s.elapsed + 1
          pc := s.pc.wake }
    | .otherIrq => { s with pc := s.pc.wake }

def sleepRun (o : LoadOrder) (s : Sleeper) (es : List SleepEvent) : Sleeper :=
  es.foldl (sleepStep o) s

/-! ## The value read -/

section Value

variable {o : LoadOrder} {t t' : Nat}

theorem value_same (o : LoadOrder) (t : Nat) : o.value (o.first t) t = t := by
  cases o with
  | lowFirst => exact Nat.div_add_mod' t (2 ^ 32)
  | highFirst => exact Nat.div_add_mod' t (2 ^ 32)

/-- Without a carry, what is read lies between the counter at the two loads. -/
theorem value_between (o : LoadOrder) (hle : t ≤ t') (hcarry : t / 2 ^ 32 = t' / 2 ^ 32) :
    t ≤ o.value (o.first t) t' ∧ o.value (o.first t) t' ≤ t' := by
  cases o with
  | lowFirst =>
      simp only [LoadOrder.value, LoadOrder.first]
      omega
  | highFirst =>
      simp only [LoadOrder.value, LoadOrder.first]
      omega

end Value

/-! ## No early return without a carry -/

/-- The half was loaded since the call. -/
def HalfRead (o : LoadOrder) (now t half : Nat) : Prop :=
  ∃ t₀, now ≤ t₀ ∧ t₀ ≤ t ∧ half = o.first t₀

/-- What the registers hold before the ticks have passed, at counter `t`. -/
def PcEarly (o : LoadOrder) (now n t : Nat) : SleepPc → Prop
  | .load => True
  | .loaded half => HalfRead o now t half
  | .check e => now + n ≤ e
  | .checked e half => now + n ≤ e ∧ HalfRead o now t half
  | .hlt e => now + n ≤ e
  | .halted e => now + n ≤ e
  | .done => False

/-- A sleeper that was started at tick `now` for `n` ticks. -/
structure Sleeping (o : LoadOrder) (now n : Nat) (s : Sleeper) : Prop where
  arg : s.ticks = n
  ticks : s.timerTicks = u64 (now + s.elapsed)
  early : s.elapsed < n → PcEarly o now n (now + s.elapsed) s.pc

section Runs

variable {o : LoadOrder} {now n t t' : Nat} {s : Sleeper} {pc : SleepPc}

theorem PcEarly.later (h : PcEarly o now n t pc) (hle : t ≤ t') : PcEarly o now n t' pc := by
  have hread : ∀ half, HalfRead o now t half → HalfRead o now t' half := by
    rintro half ⟨t₀, hlo, hhi, rfl⟩
    exact ⟨t₀, hlo, Nat.le_trans hhi hle, rfl⟩
  cases pc with
  | loaded half => exact hread half h
  | checked e half => exact ⟨h.1, hread half h.2⟩
  | load => exact h
  | check e => exact h
  | hlt e => exact h
  | halted e => exact h
  | done => exact h

theorem PcEarly.wake (h : PcEarly o now n t pc) : PcEarly o now n t pc.wake := by
  cases pc with
  | halted e => exact h
  | load => exact h
  | loaded half => exact h
  | check e => exact h
  | checked e half => exact h
  | hlt e => exact h
  | done => exact h

/-- All counters from `now` to before `now + n` have the upper half of `now`. -/
theorem same_high (hcarry : now % 2 ^ 32 + n ≤ 2 ^ 32) (hlo : now ≤ t) (hle : t ≤ t')
    (hhi : t' < now + n) : t / 2 ^ 32 = t' / 2 ^ 32 := by
  omega

theorem PcEarly.next (h : PcEarly o now n t pc) (hcarry : now % 2 ^ 32 + n ≤ 2 ^ 32)
    (hnow : now < 2 ^ 63) (hlo : now ≤ t) (hhi : t < now + n) :
    PcEarly o now n t (pc.next o t n) := by
  have hself : HalfRead o now t (o.first t) := ⟨t, hlo, Nat.le_refl t, rfl⟩
  have hvalue : ∀ half, HalfRead o now t half →
      now ≤ o.value half t ∧ o.value half t ≤ t := by
    rintro half ⟨t₀, h₀, hle, rfl⟩
    have := value_between o hle (same_high hcarry h₀ hle hhi)
    omega
  cases pc with
  | load => exact hself
  | loaded half =>
      have := hvalue half h
      show now + n ≤ u64 (o.value half t + n)
      rw [u64_of_lt (by omega)]
      omega
  | check e => exact ⟨h, hself⟩
  | checked e half =>
      have := hvalue half h.2
      have hlt : o.value half t < e := by have := h.1; omega
      rw [SleepPc.next, if_pos hlt]
      exact h.1
  | hlt e => exact h
  | halted e => exact h
  | done => exact h

theorem sleeping_start (hnow : now < 2 ^ 63) : Sleeping o now n (timerSleep now n) where
  arg := rfl
  ticks := (u64_of_lt (show now + 0 < 2 ^ 64 by omega)).symm
  early _ := trivial

theorem Sleeping.step (h : Sleeping o now n s) (hcarry : now % 2 ^ 32 + n ≤ 2 ^ 32)
    (hnow : now < 2 ^ 63) (e : SleepEvent) : Sleeping o now n (sleepStep o s e) := by
  unfold sleepStep
  split
  · exact h
  · cases e with
    | own =>
        refine ⟨h.arg, h.ticks, fun hlt => ?_⟩
        have hlt : s.elapsed < n := hlt
        dsimp only
        rw [h.arg, h.ticks, u64_of_lt (by omega)]
        exact (h.early hlt).next hcarry hnow (Nat.le_add_right ..) (by omega)
    | timer =>
        refine ⟨h.arg, ?_, fun hlt => ?_⟩
        · dsimp only
          rw [h.ticks, u64, u64, u64, Nat.mod_add_mod, Nat.add_assoc]
        · have hlt : s.elapsed + 1 < n := hlt
          exact ((h.early (by omega)).later (by dsimp only; omega)).wake
    | otherIrq => exact ⟨h.arg, h.ticks, fun hlt => (h.early hlt).wake⟩

theorem Sleeping.run (h : Sleeping o now n s) (hcarry : now % 2 ^ 32 + n ≤ 2 ^ 32)
    (hnow : now < 2 ^ 63) (es : List SleepEvent) : Sleeping o now n (sleepRun o s es) := by
  induction es generalizing s with
  | nil => exact h
  | cons e es ih => exact ih (h.step hcarry hnow e)

theorem Sleeping.full (h : Sleeping o now n s) (hdone : s.pc = .done) : n ≤ s.elapsed := by
  by_contra hlt
  have hearly := h.early (Nat.lt_of_not_le hlt)
  rw [hdone] at hearly
  exact hearly

end Runs

/-! ## Runs that return -/

section Returns

variable {o : LoadOrder} {now n k t : Nat} {pc : SleepPc}

theorem sleepRun_append (s : Sleeper) (es es' : List SleepEvent) :
    sleepRun o s (es ++ es') = sleepRun o (sleepRun o s es) es' := List.foldl_append

/-- Ticks that find the sleeper awake only count. -/
theorem sleepRun_ticks (k : Nat) (hwake : pc.wake = pc) (hpc : pc ≠ .done) (j : Nat)
    (hwrap : t + k < 2 ^ 64) :
    sleepRun o ⟨t, n, pc, j⟩ (List.replicate k .timer) = ⟨t + k, n, pc, j + k⟩ := by
  induction k generalizing t j with
  | zero => rfl
  | succ k ih =>
      have hstep : sleepStep o ⟨t, n, pc, j⟩ .timer = ⟨t + 1, n, pc, j + 1⟩ := by
        rw [sleepStep, if_neg hpc]
        simp only [hwake, u64_of_lt (show t + 1 < 2 ^ 64 by omega)]
      have hrest := ih (t := t + 1) (j + 1) (by omega)
      rw [List.replicate_succ, sleepRun, List.foldl_cons, hstep]
      refine hrest.trans ?_
      rw [Nat.add_right_comm t, Nat.add_right_comm j]
      rfl

/-- The call has computed its `end_tick` before anything else happens. -/
theorem sleepRun_start (h : now + n < 2 ^ 64) :
    sleepRun o (timerSleep now n) [.own, .own] = ⟨now, n, .check (now + n), 0⟩ := by
  show (⟨now, n, .check (u64 (o.value (o.first now) now + n)), 0⟩ : Sleeper) = _
  rw [value_same, u64_of_lt h]

/-- A check that no interrupt disturbs. -/
theorem sleepRun_check {e : Nat} (h : e ≤ t) (j : Nat) :
    sleepRun o ⟨t, n, .check e, j⟩ [.own, .own] = ⟨t, n, .done, j⟩ := by
  show (⟨t, n, if o.value (o.first t) t < e then .hlt e else .done, j⟩ : Sleeper) = _
  rw [value_same, if_neg (Nat.not_lt.mpr h)]

/-- The shortest run: all ticks arrive before the first check. -/
theorem shortest_run (h : now + n < 2 ^ 64) :
    sleepRun o (timerSleep now n) ([.own, .own] ++ List.replicate n .timer ++ [.own, .own]) =
      ⟨now + n, n, .done, n⟩ := by
  rw [sleepRun_append, sleepRun_append, sleepRun_start h, sleepRun_ticks n rfl (by simp) 0 h,
    sleepRun_check (Nat.le_refl _), Nat.zero_add]

/-- The carry falls between the two loads of the check, and the upper half counts twice. -/
theorem early_lowFirst (hn : n < 2 ^ 32) (hnow : now < 2 ^ 63)
    (hk : now % 2 ^ 32 + (k + 1) = 2 ^ 32) :
    sleepRun .lowFirst (timerSleep now n)
        ([.own, .own] ++ List.replicate k .timer ++ [.own, .timer, .own]) =
      ⟨now + k + 1, n, .done, k + 1⟩ := by
  rw [sleepRun_append, sleepRun_append, sleepRun_start (by omega),
    sleepRun_ticks k rfl (by simp) 0 (by omega), Nat.zero_add]
  have hvalue : ¬(now + k + 1) / 2 ^ 32 * 2 ^ 32 + (now + k) % 2 ^ 32 < now + n := by omega
  show (⟨u64 (now + k + 1), n, if LoadOrder.lowFirst.value ((now + k) % 2 ^ 32)
    (u64 (now + k + 1)) < now + n then .hlt (now + n) else .done, k + 1⟩ : Sleeper) = _
  rw [u64_of_lt (by omega), LoadOrder.value, if_neg hvalue]

/-- The carry falls between the two loads for `end_tick`, which is then in the past. -/
theorem early_highFirst (hn : n < 2 ^ 32) (hnow : now < 2 ^ 63)
    (hk : now % 2 ^ 32 + (k + 1) = 2 ^ 32) :
    sleepRun .highFirst (timerSleep now n)
        (List.replicate k .timer ++ [.own, .timer, .own] ++ [.own, .own]) =
      ⟨now + k + 1, n, .done, k + 1⟩ := by
  have hstart : sleepRun .highFirst (timerSleep now n) (List.replicate k .timer) =
      ⟨now + k, n, .load, k⟩ := by
    rw [timerSleep, sleepRun_ticks k rfl (by simp) 0 (by omega), Nat.zero_add]
  have hend : u64 (LoadOrder.highFirst.value ((now + k) / 2 ^ 32) (now + k + 1) + n) ≤
      now + k + 1 := by
    rw [LoadOrder.value, u64_of_lt (by omega)]
    omega
  rw [sleepRun_append, sleepRun_append, hstart]
  show sleepRun .highFirst ⟨u64 (now + k + 1), n, .check (u64 (LoadOrder.highFirst.value
    ((now + k) / 2 ^ 32) (u64 (now + k + 1)) + n)), k + 1⟩ [.own, .own] = _
  rw [u64_of_lt (show now + k + 1 < 2 ^ 64 by omega), sleepRun_check hend]

theorem early_run (o : LoadOrder) (hn : n < 2 ^ 32) (hnow : now < 2 ^ 63)
    (hcarry : 2 ^ 32 < now % 2 ^ 32 + n) :
    ∃ es, (sleepRun o (timerSleep now n) es).pc = .done
      ∧ (sleepRun o (timerSleep now n) es).elapsed < n := by
  obtain ⟨k, hk⟩ : ∃ k, now % 2 ^ 32 + (k + 1) = 2 ^ 32 :=
    ⟨2 ^ 32 - now % 2 ^ 32 - 1, by omega⟩
  cases o with
  | lowFirst =>
      have hrun := early_lowFirst hn hnow hk
      exact ⟨_, congrArg Sleeper.pc hrun, by rw [hrun]; dsimp only; omega⟩
  | highFirst =>
      have hrun := early_highFirst hn hnow hk
      exact ⟨_, congrArg Sleeper.pc hrun, by rw [hrun]; dsimp only; omega⟩

/-- `timer_sleep` sleeps its ticks in every run iff the counter does not carry before the last
of them. -/
theorem sleep_full_iff (o : LoadOrder) (hn : n < 2 ^ 32) (hnow : now < 2 ^ 63) :
    (∀ es, (sleepRun o (timerSleep now n) es).pc = .done →
        n ≤ (sleepRun o (timerSleep now n) es).elapsed) ↔ now % 2 ^ 32 + n ≤ 2 ^ 32 := by
  constructor
  · intro hall
    by_contra hcarry
    obtain ⟨es, hdone, hearly⟩ := early_run o hn hnow (Nat.lt_of_not_le hcarry)
    exact absurd (hall es hdone) (Nat.not_le.mpr hearly)
  · intro hcarry es
    exact ((sleeping_start hnow).run hcarry hnow es).full

theorem sleepRun_done {s : Sleeper} (h : s.pc = .done) (es : List SleepEvent) :
    sleepRun o s es = s := by
  induction es with
  | nil => rfl
  | cons e es ih =>
      have hstep : sleepStep o s e = s := if_pos h
      rw [sleepRun, List.foldl_cons, hstep]
      exact ih

theorem sleepRun_wake {e j : Nat} {irq : SleepEvent} (hirq : irq ≠ .own) (hreached : e ≤ t)
    (hwrap : t + 1 < 2 ^ 64) :
    (sleepRun o ⟨t, n, .halted e, j⟩ [irq, .own, .own]).pc = .done := by
  cases irq with
  | own => exact absurd rfl hirq
  | timer =>
      show (sleepRun o ⟨u64 (t + 1), n, .check e, j + 1⟩ [.own, .own]).pc = .done
      rw [u64_of_lt hwrap, sleepRun_check (by omega)]
  | otherIrq =>
      show (sleepRun o ⟨t, n, .check e, j⟩ [.own, .own]).pc = .done
      rw [sleepRun_check hreached]

/-- Once the counter has reached `end_tick`, one more interrupt is enough. It may be needed:
the tick can fall between the check and `hlt`. -/
theorem sleep_returns {s : Sleeper} {e : Nat} {irq : SleepEvent} (hirq : irq ≠ .own)
    (hend : s.pc.endTick = some e) (hreached : e ≤ s.timerTicks)
    (hwrap : s.timerTicks + 1 < 2 ^ 64) :
    (sleepRun o s [.own, .own, irq, .own, .own]).pc = .done := by
  obtain ⟨t, n, pc, j⟩ := s
  have hwake := sleepRun_wake (o := o) (n := n) (j := j) hirq hreached hwrap
  cases pc with
  | check e' =>
      cases hend
      have hcheck := sleepRun_append (o := o) ⟨t, n, .check e, j⟩ [.own, .own] [irq, .own, .own]
      rw [sleepRun_check hreached] at hcheck
      exact congrArg Sleeper.pc (hcheck.trans (sleepRun_done rfl _))
  | checked e' half =>
      cases hend
      show (sleepRun o ⟨t, n, if o.value half t < e then .hlt e else .done, j⟩
        [.own, irq, .own, .own]).pc = .done
      by_cases hlt : o.value half t < e
      · rw [if_pos hlt]
        exact hwake
      · rw [if_neg hlt, sleepRun_done rfl]
  | hlt e' =>
      cases hend
      exact hwake
  | halted e' =>
      cases hend
      exact hwake
  | load => cases hend
  | loaded half => cases hend
  | done => cases hend

end Returns

theorem msToTicks_le (ms : Nat) : msToTicks ms ≤ ms / 10 := by
  rw [msToTicks, u32, TIMER_FREQUENCY]
  omega

theorem msToTicks_eq_iff (ms : Nat) : msToTicks ms = ms / 10 ↔ ms * 100 < 2 ^ 32 := by
  rw [msToTicks, u32, TIMER_FREQUENCY]
  omega

/-- **Sleeping.** However interrupts and other tasks interleave, `timer_sleep` does not return
before its ticks have passed iff the lower half of the counter does not wrap before the last
of them; once the counter has reached `end_tick`, it returns after at most one more
interrupt. So `timer_sleep_ms` sleeps its time, in full ticks, in every run iff moreover the
conversion does not wrap. -/
theorem sleep_ms_full_iff (o : LoadOrder) (now : Nat) (hnow : now < 2 ^ 63) :
    (∀ n < 2 ^ 32, ((∀ es, (sleepRun o (timerSleep now n) es).pc = .done →
          n ≤ (sleepRun o (timerSleep now n) es).elapsed) ↔ now % 2 ^ 32 + n ≤ 2 ^ 32))
      ∧ (∀ n < 2 ^ 32, ∀ es e irq, irq ≠ SleepEvent.own →
        (sleepRun o (timerSleep now n) es).pc.endTick = some e →
        e ≤ (sleepRun o (timerSleep now n) es).timerTicks →
        (sleepRun o (timerSleep now n) es).timerTicks + 1 < 2 ^ 64 →
        (sleepRun o (timerSleep now n) (es ++ [.own, .own, irq, .own, .own])).pc = .done)
      ∧ ∀ ms < 2 ^ 32,
        ((∀ es, (sleepRun o (timerSleepMs now ms) es).pc = .done →
            ms / 10 ≤ (sleepRun o (timerSleepMs now ms) es).elapsed) ↔
          ms * 100 < 2 ^ 32 ∧ now % 2 ^ 32 + ms / 10 ≤ 2 ^ 32) := by
  refine ⟨fun n hn => sleep_full_iff o hn hnow, ?_, ?_⟩
  · intro n _ es e irq hirq hend hreached hwrap
    rw [sleepRun_append]
    exact sleep_returns hirq hend hreached hwrap
  · intro ms hms
    have hle := msToTicks_le ms
    have hfull := sleep_full_iff (n := msToTicks ms) o (by omega) hnow
    constructor
    · intro hall
      have hrun := shortest_run (o := o) (show now + msToTicks ms < 2 ^ 64 by omega)
      have hlong := hall _ (congrArg Sleeper.pc hrun)
      rw [timerSleepMs, hrun] at hlong
      have heq : msToTicks ms = ms / 10 := Nat.le_antisymm hle hlong
      refine ⟨(msToTicks_eq_iff ms).mp heq, ?_⟩
      rw [← heq] at hall ⊢
      exact hfull.mp hall
    · rintro ⟨hfits, hcarry⟩
      rw [← (msToTicks_eq_iff ms).mpr hfits] at hcarry ⊢
      exact hfull.mpr hcarry

theorem sleep_ms_full_iff_start :
    0 < 2 ^ 63 ∧ ((∀ es, (sleepRun .lowFirst (timerSleepMs 0 1000) es).pc = .done →
      1000 / 10 ≤ (sleepRun .lowFirst (timerSleepMs 0 1000) es).elapsed) ↔
        1000 * 100 < 2 ^ 32 ∧ 0 % 2 ^ 32 + 1000 / 10 ≤ 2 ^ 32) :=
  ⟨by decide, (sleep_ms_full_iff .lowFirst 0 (by decide)).2.2 1000 (by decide)⟩

/-- The last tick falls between the check and `hlt`, and the sleeper stays halted. -/
example : (sleepRun .lowFirst (timerSleep 0 1)
    [.own, .own, .own, .own, .timer, .own, .own, .own]).pc = .halted 1 := by
  decide

end Matryoshka
