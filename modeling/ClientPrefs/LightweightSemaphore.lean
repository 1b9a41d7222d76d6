import ClientPrefs.Transition
import Mathlib.Algebra.BigOperators.Group.Finset.Basic
import Mathlib.Algebra.Order.BigOperators.Group.Finset
import Mathlib.Data.Fintype.Basic

/-!
# The semaphore under the blocking queue

`LightweightSemaphore` for any number of threads. Every load, exchange or addition on `m_count`
and every call of the kernel semaphore `m_sema` is one step; the accesses are taken to be
sequentially consistent. The counter is unbounded: it is the `ssize_t` of the source while the
number of threads and the number of permits signalled are less than `2 ^ 63`, between which it
stays (`SemaphoreRefinement.count_bounds`).
-/
namespace ClientPrefs.LightweightSemaphore
open Transition

variable {ι : Type*}

def newCount (max : ℕ) (oldCount : ℤ) : ℤ := if oldCount > max then oldCount - max else 0

def difference (max : ℕ) (oldCount : ℤ) : ℕ := (oldCount - newCount max oldCount).toNat

/-- `toRelease` in `signal`. -/
def toRelease (count : ℕ) (oldCount : ℤ) : ℤ := if -oldCount < count then -oldCount else count

/-- The arguments of `waitManyWithPartialSpinning`. -/
structure Wait where
  max : ℕ
  /-- `assert(max > 0)` -/
  positive : 0 < max
  /-- Whether `timeout_usecs` is not negative. -/
  timed : Bool
  deriving DecidableEq, Repr

/-- What the result of `tryWaitMany` is for. -/
inductive Purpose
  | returned
  /-- `waitMany`, which waits when the result is zero. -/
  | beforeWaiting (timed : Bool)
  /-- `1 + tryWaitMany(max - 1)` -/
  | oneMore
  deriving DecidableEq, Repr

inductive Thread
  | outside
  /-- In `tryWaitMany`, at the first load; and at the exchange in the loop. -/
  | loading (purpose : Purpose) (max : ℕ)
  | trying (purpose : Purpose) (max : ℕ) (oldCount : ℤ) (positive : 0 < oldCount)
  /-- At `--spin >= 0`, with `spin` turns left; and at the exchange of a turn. -/
  | spinning (wait : Wait) (spin : ℕ)
  | spinTrying (wait : Wait) (spin : ℕ) (oldCount : ℤ) (positive : 0 < oldCount)
  /-- At `m_sema.wait` or `m_sema.timed_wait`. -/
  | sleeping (wait : Wait)
  /-- In the loop after the time is out: at the load, at `m_sema.try_wait`, at the exchange. -/
  | adjusting (wait : Wait)
  | collecting (wait : Wait)
  | undoing (wait : Wait) (oldCount : ℤ) (negative : oldCount < 0)
  /-- In `signal`: at the addition, and in the loop of `m_sema.signal`. -/
  | adding (count : ℕ)
  | posting (n : ℕ)
  | done (result : ℕ)
  deriving DecidableEq, Repr

def spinCount : ℕ := 10000

/-- What follows when `tryWaitMany(max)` has the result. -/
def Purpose.next (max result : ℕ) : Purpose → Thread
  | .returned => .done result
  | .beforeWaiting timed =>
    if h : result = 0 ∧ 0 < max then .spinning ⟨max, h.2, timed⟩ spinCount else .done result
  | .oneMore => .done (1 + result)

/-- What follows when one permit is taken at `fetch_sub` or from the kernel semaphore. -/
def Wait.afterOne (wait : Wait) : Thread :=
  if wait.max > 1 then .loading .oneMore (wait.max - 1) else .done 1

structure State (ι : Type*) where
  count : ℤ
  kernel : ℕ
  threads : ι → Thread

def start (initialCount : ℕ) : State ι where
  count := initialCount
  kernel := 0
  threads := fun _ => .outside

inductive Label (ι : Type*)
  | tryWaitMany (w : ι) (max : ℕ)
  | waitMany (w : ι) (max : ℕ) (timed : Bool)
  | signal (w : ι) (count : ℕ)
  | move (w : ι)
  /-- `compare_exchange_weak` fails although the counter is as expected. -/
  | spurious (w : ι)
  /-- `timed_wait` runs out of time. -/
  | expire (w : ι)
  /-- A call returns its result. -/
  | leave (w : ι)
  deriving DecidableEq, Repr

/-- `tryWait` exchanges `oldCount` for `oldCount - 1`, which is `tryWaitMany(1)`. -/
def tryWait (w : ι) : Label ι := .tryWaitMany w 1

def wait (w : ι) (timed : Bool) : Label ι := .waitMany w 1 timed

section Definitions
variable [DecidableEq ι]

def State.set (s : State ι) (w : ι) (thread : Thread) : State ι :=
  { s with threads := Function.update s.threads w thread }

/-- The loop of `tryWaitMany` when `oldCount` is as the counter is now. -/
def State.look (s : State ι) (purpose : Purpose) (max : ℕ) : Thread :=
  if h : 0 < s.count then .trying purpose max s.count h else purpose.next max 0

/-- The thread at its place does its next access. -/
def moveAt (s : State ι) (w : ι) : Thread → Option (State ι)
  | .outside => none
  | .loading purpose max => some (s.set w (s.look purpose max))
  | .trying purpose max oldCount _ =>
    some (if s.count = oldCount then
        { s with count := newCount max oldCount }.set w
          (purpose.next max (difference max oldCount))
      else s.set w (s.look purpose max))
  | .spinning wait (spin + 1) =>
    some (s.set w (if h : 0 < s.count then .spinTrying wait spin s.count h
      else .spinning wait spin))
  | .spinTrying wait spin oldCount _ =>
    some (if s.count = oldCount then
        { s with count := newCount wait.max oldCount }.set w (.done (difference wait.max oldCount))
      else s.set w (.spinning wait spin))
  | .spinning wait 0 =>
    some ({ s with count := s.count - 1 }.set w
      (if 0 < s.count then wait.afterOne else .sleeping wait))
  | .sleeping wait =>
    match s.kernel with
    | n + 1 => some ({ s with kernel := n }.set w wait.afterOne)
    | 0 => none
  | .adjusting wait =>
    some (s.set w (if h : s.count < 0 then .undoing wait s.count h else .collecting wait))
  | .collecting wait =>
    match s.kernel with
    | n + 1 => some ({ s with kernel := n }.set w wait.afterOne)
    | 0 => some (s.set w (.adjusting wait))
  | .undoing wait oldCount _ =>
    some (if s.count = oldCount then { s with count := oldCount + 1 }.set w (.done 0)
      else s.set w (.adjusting wait))
  | .adding count =>
    some ({ s with count := s.count + count }.set w
      (if 0 < toRelease count s.count then .posting (toRelease count s.count).toNat
        else .outside))
  | .posting (n + 1) => some ({ s with kernel := s.kernel + 1 }.set w (.posting n))
  | .posting 0 => some (s.set w .outside)
  | .done _ => none

def step (s : State ι) : Label ι → Option (State ι)
  | .tryWaitMany w max =>
    match s.threads w with
    | .outside => some (s.set w (.loading .returned max))
    | _ => none
  | .waitMany w max timed =>
    match s.threads w with
    | .outside => some (s.set w (.loading (.beforeWaiting timed) max))
    | _ => none
  | .signal w count =>
    match s.threads w with
    | .outside => some (s.set w (.adding count))
    | _ => none
  | .move w => moveAt s w (s.threads w)
  | .spurious w =>
    match s.threads w with
    | .trying purpose max _ _ => some (s.set w (s.look purpose max))
    | _ => none
  | .expire w =>
    match s.threads w with
    | .sleeping wait => if wait.timed then some (s.set w (.adjusting wait)) else none
    | _ => none
  | .leave w =>
    match s.threads w with
    | .done _ => some (s.set w .outside)
    | _ => none

abbrev Step (s : State ι) (l : Label ι) (t : State ι) : Prop := step s l = some t

end Definitions

def Label.thread : Label ι → ι
  | .tryWaitMany w _ | .waitMany w _ _ | .signal w _ | .move w | .spurious w | .expire w
  | .leave w => w

namespace Thread

/-- Whether the thread has subtracted one for a permit that was not there. -/
def asleep : Thread → Bool
  | sleeping _ | adjusting _ | collecting _ | undoing .. => true
  | _ => false

/-- The permits that the thread has still to give to the kernel semaphore. -/
def pending : Thread → ℕ
  | posting n => n
  | _ => 0

/-- The permits that the thread has taken. -/
def holds : Thread → ℕ
  | loading .oneMore _ | trying .oneMore _ _ _ => 1
  | done result => result
  | _ => 0

/-- The permits that the thread is about to add to the counter. -/
def adds : Thread → ℕ
  | adding count => count
  | _ => 0

/-- The most that the call may return. -/
def limit : Thread → ℕ
  | loading .oneMore max | trying .oneMore max _ _ => 1 + max
  | loading _ max | trying _ max _ _ => max
  | spinning wait _ | spinTrying wait _ _ _ | sleeping wait | adjusting wait | collecting wait
  | undoing wait _ _ => wait.max
  | done result => result
  | _ => 0

end Thread

variable [DecidableEq ι]

@[simp] lemma set_count (s : State ι) (w : ι) (p : Thread) : (s.set w p).count = s.count := rfl
@[simp] lemma set_kernel (s : State ι) (w : ι) (p : Thread) : (s.set w p).kernel = s.kernel := rfl

@[simp] lemma set_same (s : State ι) (w : ι) (p : Thread) : (s.set w p).threads w = p :=
  Function.update_self ..

@[simp] lemma set_set (s : State ι) (w : ι) (p q : Thread) : (s.set w p).set w q = s.set w q := by
  simp [State.set]

lemma set_of_ne (s : State ι) {v w : ι} (h : v ≠ w) (p : Thread) :
    (s.set w p).threads v = s.threads v := Function.update_of_ne h ..

/-- Everything that the next access of a thread can do. -/
inductive Moves (s : State ι) (w : ι) : Thread → State ι → Prop
  | load (purpose : Purpose) (max : ℕ) :
      Moves s w (.loading purpose max) (s.set w (s.look purpose max))
  | take (purpose : Purpose) (max : ℕ) (positive : 0 < s.count) :
      Moves s w (.trying purpose max s.count positive)
        ({ s with count := newCount max s.count }.set w
          (purpose.next max (difference max s.count)))
  | retry (purpose : Purpose) (max : ℕ) (oldCount : ℤ) (positive : 0 < oldCount) :
      Moves s w (.trying purpose max oldCount positive) (s.set w (s.look purpose max))
  | spinLoad (wait : Wait) (spin : ℕ) (positive : 0 < s.count) :
      Moves s w (.spinning wait (spin + 1)) (s.set w (.spinTrying wait spin s.count positive))
  | spin (wait : Wait) (spin : ℕ) :
      Moves s w (.spinning wait (spin + 1)) (s.set w (.spinning wait spin))
  | spinTake (wait : Wait) (spin : ℕ) (positive : 0 < s.count) :
      Moves s w (.spinTrying wait spin s.count positive)
        ({ s with count := newCount wait.max s.count }.set w
          (.done (difference wait.max s.count)))
  | spinMiss (wait : Wait) (spin : ℕ) (oldCount : ℤ) (positive : 0 < oldCount) :
      Moves s w (.spinTrying wait spin oldCount positive) (s.set w (.spinning wait spin))
  | subtract (wait : Wait) (positive : 0 < s.count) :
      Moves s w (.spinning wait 0) ({ s with count := s.count - 1 }.set w wait.afterOne)
  | sleep (wait : Wait) (none : s.count ≤ 0) :
      Moves s w (.spinning wait 0) ({ s with count := s.count - 1 }.set w (.sleeping wait))
  | wake (wait : Wait) (n : ℕ) (some : s.kernel = n + 1) :
      Moves s w (.sleeping wait) ({ s with kernel := n }.set w wait.afterOne)
  | undoing (wait : Wait) (negative : s.count < 0) :
      Moves s w (.adjusting wait) (s.set w (.undoing wait s.count negative))
  | collecting (wait : Wait) (nonneg : 0 ≤ s.count) :
      Moves s w (.adjusting wait) (s.set w (.collecting wait))
  | collect (wait : Wait) (n : ℕ) (some : s.kernel = n + 1) :
      Moves s w (.collecting wait) ({ s with kernel := n }.set w wait.afterOne)
  | miss (wait : Wait) (none : s.kernel = 0) :
      Moves s w (.collecting wait) (s.set w (.adjusting wait))
  | undo (wait : Wait) (negative : s.count < 0) :
      Moves s w (.undoing wait s.count negative)
        ({ s with count := s.count + 1 }.set w (.done 0))
  | undoMiss (wait : Wait) (oldCount : ℤ) (negative : oldCount < 0) :
      Moves s w (.undoing wait oldCount negative) (s.set w (.adjusting wait))
  | add (count : ℕ) (some : 0 < toRelease count s.count) :
      Moves s w (.adding count) ({ s with count := s.count + count }.set w
        (.posting (toRelease count s.count).toNat))
  | addOnly (count : ℕ) (none : toRelease count s.count ≤ 0) :
      Moves s w (.adding count) ({ s with count := s.count + count }.set w .outside)
  | post (n : ℕ) :
      Moves s w (.posting (n + 1)) ({ s with kernel := s.kernel + 1 }.set w (.posting n))
  | posted : Moves s w (.posting 0) (s.set w .outside)

inductive Steps (s : State ι) : Label ι → State ι → Prop
  | tryWaitMany (w : ι) (max : ℕ) (outside : s.threads w = .outside) :
      Steps s (.tryWaitMany w max) (s.set w (.loading .returned max))
  | waitMany (w : ι) (max : ℕ) (timed : Bool) (outside : s.threads w = .outside) :
      Steps s (.waitMany w max timed) (s.set w (.loading (.beforeWaiting timed) max))
  | signal (w : ι) (count : ℕ) (outside : s.threads w = .outside) :
      Steps s (.signal w count) (s.set w (.adding count))
  | move (w : ι) (t : State ι) (moves : Moves s w (s.threads w) t) : Steps s (.move w) t
  | spurious (w : ι) (purpose : Purpose) (max : ℕ) (oldCount : ℤ) (positive : 0 < oldCount)
      (trying : s.threads w = .trying purpose max oldCount positive) :
      Steps s (.spurious w) (s.set w (s.look purpose max))
  | expire (w : ι) (wait : Wait) (sleeping : s.threads w = .sleeping wait)
      (timed : wait.timed = true) : Steps s (.expire w) (s.set w (.adjusting wait))
  | leave (w : ι) (result : ℕ) (done : s.threads w = .done result) :
      Steps s (.leave w) (s.set w .outside)

variable {s t : State ι} {l : Label ι} {w : ι}

lemma moves_of_moveAt {thread : Thread} (h : moveAt s w thread = some t) :
    Moves s w thread t := by
  cases thread with
  | outside => cases h
  | loading purpose max =>
    obtain rfl := Option.some.inj h
    exact .load purpose max
  | trying purpose max oldCount positive =>
    obtain rfl := Option.some.inj h
    split
    · next same =>
      subst same
      exact .take purpose max positive
    · exact .retry purpose max oldCount positive
  | spinning wait spin =>
    cases spin with
    | zero =>
      obtain rfl := Option.some.inj h
      split
      · next positive => exact .subtract wait positive
      · next none => exact .sleep wait (not_lt.mp none)
    | succ spin =>
      obtain rfl := Option.some.inj h
      split
      · next positive => exact .spinLoad wait spin positive
      · exact .spin wait spin
  | spinTrying wait spin oldCount positive =>
    obtain rfl := Option.some.inj h
    split
    · next same =>
      subst same
      exact .spinTake wait spin positive
    · exact .spinMiss wait spin oldCount positive
  | sleeping wait =>
    simp only [moveAt] at h
    split at h
    · next n some =>
      obtain rfl := Option.some.inj h
      exact .wake wait n some
    · cases h
  | adjusting wait =>
    obtain rfl := Option.some.inj h
    split
    · next negative => exact .undoing wait negative
    · next nonneg => exact .collecting wait (not_lt.mp nonneg)
  | collecting wait =>
    simp only [moveAt] at h
    split at h
    · next n some =>
      obtain rfl := Option.some.inj h
      exact .collect wait n some
    · next none =>
      obtain rfl := Option.some.inj h
      exact .miss wait none
  | undoing wait oldCount negative =>
    obtain rfl := Option.some.inj h
    split
    · next same =>
      subst same
      exact .undo wait negative
    · exact .undoMiss wait oldCount negative
  | adding count =>
    obtain rfl := Option.some.inj h
    split
    · next some => exact .add count some
    · next none => exact .addOnly count (not_lt.mp none)
  | posting n =>
    cases n with
    | zero =>
      obtain rfl := Option.some.inj h
      exact .posted
    | succ n =>
      obtain rfl := Option.some.inj h
      exact .post n
  | done result => cases h

theorem step_cases (h : step s l = some t) : Steps s l t := by
  cases l with
  | tryWaitMany w max =>
    simp only [step] at h
    split at h
    · next outside =>
      obtain rfl := Option.some.inj h
      exact .tryWaitMany w max outside
    · cases h
  | waitMany w max timed =>
    simp only [step] at h
    split at h
    · next outside =>
      obtain rfl := Option.some.inj h
      exact .waitMany w max timed outside
    · cases h
  | signal w count =>
    simp only [step] at h
    split at h
    · next outside =>
      obtain rfl := Option.some.inj h
      exact .signal w count outside
    · cases h
  | move w => exact .move w t (moves_of_moveAt h)
  | spurious w =>
    simp only [step] at h
    split at h
    · next purpose max oldCount positive trying =>
      obtain rfl := Option.some.inj h
      exact .spurious w purpose max oldCount positive trying
    · cases h
  | expire w =>
    simp only [step] at h
    split at h
    · next wait sleeping =>
      split at h
      · next timed =>
        obtain rfl := Option.some.inj h
        exact .expire w wait sleeping timed
      · cases h
    · cases h
  | leave w =>
    simp only [step] at h
    split at h
    · next result done =>
      obtain rfl := Option.some.inj h
      exact .leave w result done
    · cases h

lemma threads_of_moves {p : Thread} (h : Moves s w p t) {v : ι} (other : v ≠ w) :
    t.threads v = s.threads v := by
  cases h <;> exact set_of_ne _ other _

theorem threads_of_step (h : step s l = some t) {v : ι} (other : v ≠ l.thread) :
    t.threads v = s.threads v := by
  cases step_cases h with
  | move w t moves => exact threads_of_moves moves other
  | _ => exact set_of_ne _ other _

end ClientPrefs.LightweightSemaphore
