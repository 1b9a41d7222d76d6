import ClientPrefs.HandOff
import ClientPrefs.LightweightSemaphore
import ClientPrefs.Sentinels

/-!
# What the semaphore under the queue guarantees

The counter, the kernel semaphore and the threads between the two are together a semaphore that
hands its permits over: a positive counter is what is free, and a thread that has subtracted one
in vain waits until a permit comes through the kernel semaphore.
-/
namespace ClientPrefs.SemaphoreRefinement
open LightweightSemaphore Transition
open Sentinels (sum_update)

variable {ι : Type*}

lemma difference_eq {max : ℕ} {c : ℤ} (h : 0 < c) : difference max c = min max c.toNat := by
  unfold difference newCount
  split_ifs <;> omega

lemma newCount_eq {max : ℕ} {c : ℤ} (h : 0 < c) : newCount max c = c - difference max c := by
  unfold difference newCount
  split_ifs <;> omega

lemma toRelease_eq (n : ℕ) (c : ℤ) : (toRelease n c).toNat = min n (-c).toNat := by
  unfold toRelease
  split_ifs <;> omega

structure Tally where
  asleep : Bool
  pending : ℕ
  holds : ℕ
  adds : ℕ
  deriving DecidableEq, Repr

def tally (p : Thread) : Tally := ⟨p.asleep, p.pending, p.holds, p.adds⟩

/-- A thread that has taken `k` permits and does not wait. -/
def Tally.holding (k : ℕ) : Tally := ⟨false, 0, k, 0⟩

/-- A thread that has subtracted one in vain. -/
def Tally.waiting : Tally := ⟨true, 0, 0, 0⟩

/-- What a thread in `tryWaitMany` has taken before. -/
def had : Purpose → ℕ
  | .oneMore => 1
  | _ => 0

lemma tally_next (purpose : Purpose) (max result : ℕ) :
    tally (purpose.next max result) = .holding (had purpose + result) := by
  cases purpose with
  | returned =>
    rw [show had .returned = 0 from rfl, Nat.zero_add]
    rfl
  | beforeWaiting timed =>
    rw [show had (.beforeWaiting timed) = 0 from rfl, Nat.zero_add]
    simp only [Purpose.next]
    split
    · next h =>
      obtain ⟨rfl, _⟩ := h
      rfl
    · rfl
  | oneMore => rfl

lemma tally_loading (purpose : Purpose) (max : ℕ) :
    tally (.loading purpose max) = .holding (had purpose) := by
  cases purpose <;> rfl

lemma tally_trying (purpose : Purpose) (max : ℕ) (c : ℤ) (h : 0 < c) :
    tally (.trying purpose max c h) = .holding (had purpose) := by
  cases purpose <;> rfl

lemma tally_look (s : State ι) (purpose : Purpose) (max : ℕ) :
    tally (s.look purpose max) = .holding (had purpose) := by
  unfold State.look
  split
  · exact tally_trying purpose max _ _
  · exact tally_next purpose max 0

lemma tally_afterOne (wait : Wait) : tally wait.afterOne = .holding 1 := by
  unfold Wait.afterOne
  split_ifs <;> rfl

variable [DecidableEq ι]

/-- The permits that a call promises to add. -/
def called : Label ι → ℕ
  | .signal _ count => count
  | _ => 0

/-- The permits that a call returns with. -/
def returned (s : State ι) : Label ι → ℕ
  | .leave w => (s.threads w).holds
  | _ => 0

/-- What a step does to the permits, and which step of the abstract semaphore this is. -/
inductive Effect (s : State ι) : Label ι → Option (HandOff.Label ι) → State ι → Prop
  /-- Only the place of the thread changes. -/
  | silent (l : Label ι) (p : Thread) (same : tally p = tally (s.threads l.thread))
      (quiet : called l = 0 ∧ returned s l = 0) : Effect s l none (s.set l.thread p)
  | call (w : ι) (n : ℕ) (before : tally (s.threads w) = .holding 0) :
      Effect s (.signal w n) none (s.set w (.adding n))
  | acquire (w : ι) (p : Thread) (k m : ℕ) (before : tally (s.threads w) = .holding m)
      (after : tally p = .holding (m + k)) (enough : k ≤ s.count) :
      Effect s (.move w) (some (.acquire w k)) ({ s with count := s.count - k }.set w p)
  | enter (w : ι) (p : Thread) (before : tally (s.threads w) = .holding 0)
      (after : tally p = .waiting) (none : s.count ≤ 0) :
      Effect s (.move w) (some (.enter w)) ({ s with count := s.count - 1 }.set w p)
  | wake (w : ι) (p : Thread) (n : ℕ) (before : tally (s.threads w) = .waiting)
      (after : tally p = .holding 1) (kernel : s.kernel = n + 1) :
      Effect s (.move w) (some (.wake w)) ({ s with kernel := n }.set w p)
  | giveUp (w : ι) (before : tally (s.threads w) = .waiting) (negative : s.count < 0) :
      Effect s (.move w) (some (.giveUp w)) ({ s with count := s.count + 1 }.set w (.done 0))
  | signal (w : ι) (p : Thread) (n : ℕ) (before : tally (s.threads w) = ⟨false, 0, 0, n⟩)
      (after : tally p = ⟨false, min n (-s.count).toNat, 0, 0⟩) :
      Effect s (.move w) (some (.signal n)) ({ s with count := s.count + n }.set w p)
  | post (w : ι) (n : ℕ) (before : tally (s.threads w) = ⟨false, n + 1, 0, 0⟩) :
      Effect s (.move w) none ({ s with kernel := s.kernel + 1 }.set w (.posting n))
  | leave (w : ι) (result : ℕ) (before : tally (s.threads w) = .holding result) :
      Effect s (.leave w) none (s.set w .outside)

variable {s t : State ι} {l : Label ι} {w : ι} {a : Option (HandOff.Label ι)}

lemma Effect.take {p : Thread} {max m : ℕ} (positive : 0 < s.count)
    (before : tally (s.threads w) = .holding m)
    (after : tally p = .holding (m + difference max s.count)) :
    ∃ a, Effect s (.move w) a ({ s with count := newCount max s.count }.set w p) := by
  have enough : (difference max s.count : ℤ) ≤ s.count := by
    rw [difference_eq positive]
    omega
  rw [newCount_eq positive]
  exact ⟨_, .acquire w p _ m before after enough⟩

lemma Effect.of_moves {thread : Thread} (place : s.threads w = thread)
    (moves : Moves s w thread t) : ∃ a, Effect s (.move w) a t := by
  cases moves with
  | load purpose max =>
    exact ⟨_, .silent (.move w) _ (by simp only [Label.thread, place, tally_look, tally_loading])
      ⟨rfl, rfl⟩⟩
  | take purpose max positive =>
    refine Effect.take positive ?_ (tally_next purpose max _)
    rw [place, tally_trying]
  | retry purpose max oldCount positive =>
    exact ⟨_, .silent (.move w) _ (by simp only [Label.thread, place, tally_look, tally_trying])
      ⟨rfl, rfl⟩⟩
  | spinLoad wait spin positive =>
    exact ⟨_, .silent (.move w) _ (by simp only [Label.thread, place]; rfl) ⟨rfl, rfl⟩⟩
  | spin wait spin => exact ⟨_, .silent (.move w) _ (by simp only [Label.thread, place]; rfl) ⟨rfl, rfl⟩⟩
  | spinTake wait spin positive =>
    refine Effect.take (m := 0) positive ?_ ?_
    · rw [place]
      rfl
    · rw [Nat.zero_add]
      rfl
  | spinMiss wait spin oldCount positive =>
    exact ⟨_, .silent (.move w) _ (by simp only [Label.thread, place]; rfl) ⟨rfl, rfl⟩⟩
  | subtract wait positive =>
    refine ⟨_, .acquire w _ 1 0 ?_ (tally_afterOne wait) ?_⟩
    · rw [place]
      rfl
    · omega
  | sleep wait none => exact ⟨_, .enter w _ (by rw [place]; rfl) rfl none⟩
  | wake wait n some => exact ⟨_, .wake w _ n (by rw [place]; rfl) (tally_afterOne wait) some⟩
  | undoing wait negative =>
    exact ⟨_, .silent (.move w) _ (by simp only [Label.thread, place]; rfl) ⟨rfl, rfl⟩⟩
  | collecting wait nonneg =>
    exact ⟨_, .silent (.move w) _ (by simp only [Label.thread, place]; rfl) ⟨rfl, rfl⟩⟩
  | collect wait n some =>
    exact ⟨_, .wake w _ n (by rw [place]; rfl) (tally_afterOne wait) some⟩
  | miss wait none => exact ⟨_, .silent (.move w) _ (by simp only [Label.thread, place]; rfl) ⟨rfl, rfl⟩⟩
  | undo wait negative => exact ⟨_, .giveUp w (by rw [place]; rfl) negative⟩
  | undoMiss wait oldCount negative =>
    exact ⟨_, .silent (.move w) _ (by simp only [Label.thread, place]; rfl) ⟨rfl, rfl⟩⟩
  | add count some =>
    refine ⟨_, .signal w _ count (by rw [place]; rfl) ?_⟩
    rw [← toRelease_eq]
    rfl
  | addOnly count none =>
    refine ⟨_, .signal w _ count (by rw [place]; rfl) ?_⟩
    rw [← toRelease_eq, Int.toNat_of_nonpos none]
    rfl
  | post n => exact ⟨_, .post w n (by rw [place]; rfl)⟩
  | posted => exact ⟨_, .silent (.move w) _ (by simp only [Label.thread, place]; rfl) ⟨rfl, rfl⟩⟩

theorem effect_of_step (h : step s l = some t) : ∃ a, Effect s l a t := by
  cases step_cases h with
  | tryWaitMany w max outside =>
    exact ⟨_, .silent (.tryWaitMany w max) _ (by simp only [Label.thread, outside]; rfl)
      ⟨rfl, rfl⟩⟩
  | waitMany w max timed outside =>
    exact ⟨_, .silent (.waitMany w max timed) _ (by simp only [Label.thread, outside]; rfl)
      ⟨rfl, rfl⟩⟩
  | signal w count outside =>
    exact ⟨_, .call w count (by rw [outside]; rfl)⟩
  | move w t moves => exact Effect.of_moves rfl moves
  | spurious w purpose max oldCount positive trying =>
    exact ⟨_, .silent (.spurious w) _
      (by simp only [Label.thread, trying, tally_look, tally_trying]) ⟨rfl, rfl⟩⟩
  | expire w wait sleeping timed =>
    exact ⟨_, .silent (.expire w) _ (by simp only [Label.thread, sleeping]; rfl)
      ⟨rfl, rfl⟩⟩
  | leave w result done => exact ⟨_, .leave w result (by rw [done]; rfl)⟩

def acquiring : Thread → Bool
  | .outside | .adding _ | .posting _ => false
  | _ => true

def finished : Thread → Bool
  | .done _ => true
  | _ => false

/-- What a thread that takes permits can come to in one move: it goes on with the same call, or it
is done with as many permits as the call may take of those in the counter, with the one that came
through the kernel semaphore, or with none while the counter is negative. -/
inductive Outcome (s : State ι) (p : Thread) : Thread → Prop
  | goesOn (q : Thread) (inside : acquiring q = true) (unfinished : finished q = false)
      (limit : q.limit = p.limit) : Outcome s p q
  | takes (awake : p.asleep = false) (possible : p.holds ≤ p.limit) :
      Outcome s p (.done (p.holds + min (p.limit - p.holds) s.count.toNat))
  | woken (asleep : p.asleep = true) (one : p.limit = 1) (some : 0 < s.kernel) :
      Outcome s p (.done 1)
  | empty (asleep : p.asleep = true) (negative : s.count < 0) : Outcome s p (.done 0)

lemma holds_loading (purpose : Purpose) (max : ℕ) :
    (Thread.loading purpose max).holds = had purpose := by
  cases purpose <;> rfl

lemma limit_loading (purpose : Purpose) (max : ℕ) :
    (Thread.loading purpose max).limit = had purpose + max := by
  cases purpose <;> simp [Thread.limit, had]

lemma holds_trying (purpose : Purpose) (max : ℕ) (c : ℤ) (h : 0 < c) :
    (Thread.trying purpose max c h).holds = had purpose := by
  cases purpose <;> rfl

lemma limit_trying (purpose : Purpose) (max : ℕ) (c : ℤ) (h : 0 < c) :
    (Thread.trying purpose max c h).limit = had purpose + max := by
  cases purpose <;> simp [Thread.limit, had]

omit [DecidableEq ι] in
lemma Outcome.next {p : Thread} {purpose : Purpose} {max : ℕ} (awake : p.asleep = false)
    (holds : p.holds = had purpose) (limit : p.limit = had purpose + max) :
    Outcome s p (purpose.next max (min max s.count.toNat)) := by
  have taken : had purpose + min max s.count.toNat =
      p.holds + min (p.limit - p.holds) s.count.toNat := by
    rw [holds, limit, Nat.add_sub_cancel_left]
  have possible : p.holds ≤ p.limit := by omega
  have done : Outcome s p (.done (had purpose + min max s.count.toNat)) := by
    rw [taken]
    exact .takes awake possible
  cases purpose with
  | returned =>
    rw [show had .returned = 0 from rfl, Nat.zero_add] at done
    exact done
  | beforeWaiting timed =>
    rw [show had (.beforeWaiting timed) = 0 from rfl, Nat.zero_add] at done
    simp only [Purpose.next]
    split
    · refine .goesOn _ rfl rfl ?_
      rw [limit]
      exact (Nat.zero_add max).symm
    · exact done
  | oneMore => exact done

omit [DecidableEq ι] in
lemma Outcome.look {p : Thread} {purpose : Purpose} {max : ℕ} (awake : p.asleep = false)
    (holds : p.holds = had purpose) (limit : p.limit = had purpose + max) :
    Outcome s p (s.look purpose max) := by
  unfold State.look
  split
  · next positive => exact .goesOn _ rfl rfl (by rw [limit, limit_trying])
  · next none =>
    have zero : min max s.count.toNat = 0 := by
      rw [Int.toNat_of_nonpos (not_lt.mp none), Nat.min_zero]
    have done : Outcome s p (purpose.next max (min max s.count.toNat)) :=
      .next awake holds limit
    rw [zero] at done
    exact done

omit [DecidableEq ι] in
lemma Outcome.afterOne {p : Thread} {wait : Wait} (limit : p.limit = wait.max)
    (one : wait.max = 1 → Outcome s p (.done 1)) : Outcome s p wait.afterOne := by
  unfold Wait.afterOne
  have positive := wait.positive
  split_ifs with more
  · refine .goesOn _ rfl rfl ?_
    rw [limit_loading, limit]
    show 1 + (wait.max - 1) = wait.max
    omega
  · exact one (by omega)

lemma outcome_of_moves {p : Thread} (inside : acquiring p = true) (moves : Moves s w p t) :
    Outcome s p (t.threads w) := by
  cases moves with
  | load purpose max =>
    rw [set_same]
    exact .look rfl (holds_loading purpose max) (limit_loading purpose max)
  | take purpose max positive =>
    rw [set_same, difference_eq positive]
    exact .next rfl (holds_trying purpose max _ positive) (limit_trying purpose max _ positive)
  | retry purpose max oldCount positive =>
    rw [set_same]
    exact .look rfl (holds_trying purpose max _ positive) (limit_trying purpose max _ positive)
  | spinLoad wait spin positive =>
    rw [set_same]
    exact .goesOn _ rfl rfl rfl
  | spin wait spin =>
    rw [set_same]
    exact .goesOn _ rfl rfl rfl
  | spinTake wait spin positive =>
    have taken : difference wait.max s.count = 0 + min (wait.max - 0) s.count.toNat := by
      rw [difference_eq positive, Nat.zero_add, Nat.sub_zero]
    rw [set_same, taken]
    exact .takes rfl (Nat.zero_le _)
  | spinMiss wait spin oldCount positive =>
    rw [set_same]
    exact .goesOn _ rfl rfl rfl
  | subtract wait positive =>
    rw [set_same]
    refine .afterOne rfl fun one => ?_
    have taken : 1 = 0 + min (wait.max - 0) s.count.toNat := by omega
    rw [taken]
    exact .takes rfl (Nat.zero_le _)
  | sleep wait none =>
    rw [set_same]
    exact .goesOn _ rfl rfl rfl
  | wake wait n some =>
    rw [set_same]
    exact .afterOne rfl fun one => .woken rfl one (some ▸ Nat.succ_pos n)
  | undoing wait negative =>
    rw [set_same]
    exact .goesOn _ rfl rfl rfl
  | collecting wait nonneg =>
    rw [set_same]
    exact .goesOn _ rfl rfl rfl
  | collect wait n some =>
    rw [set_same]
    exact .afterOne rfl fun one => .woken rfl one (some ▸ Nat.succ_pos n)
  | miss wait none =>
    rw [set_same]
    exact .goesOn _ rfl rfl rfl
  | undo wait negative =>
    rw [set_same]
    exact .empty rfl negative
  | undoMiss wait oldCount negative =>
    rw [set_same]
    exact .goesOn _ rfl rfl rfl
  | add count some => cases inside
  | addOnly count none => cases inside
  | post n => cases inside
  | posted => cases inside

lemma acquiring_of_moves {p : Thread} (outside : acquiring p = false) (moves : Moves s w p t) :
    acquiring (t.threads w) = false := by
  cases moves with
  | add count some =>
    rw [set_same]
    rfl
  | addOnly count none =>
    rw [set_same]
    rfl
  | post n =>
    rw [set_same]
    rfl
  | posted =>
    rw [set_same]
    rfl
  | _ => cases outside

lemma spins_out (wait : Wait) (spin : ℕ) (none : s.count ≤ 0) :
    ∃ trace, Run Step (s.set w (.spinning wait spin)) trace
      ({ s with count := s.count - 1 }.set w (.sleeping wait)) ∧
      ∀ x ∈ trace, x.2 = .move w := by
  induction spin with
  | zero =>
    have last : step (s.set w (.spinning wait 0)) (.move w) =
        some ({ s with count := s.count - 1 }.set w (.sleeping wait)) := by
      simp [step, State.set, moveAt, none.not_gt]
    exact ⟨_, .one last, fun x hx => by rw [List.mem_singleton.mp hx]⟩
  | succ spin ih =>
    obtain ⟨trace, rest, moves⟩ := ih
    have first : step (s.set w (.spinning wait (spin + 1))) (.move w) =
        some (s.set w (.spinning wait spin)) := by
      simp [step, moveAt, none.not_gt]
    refine ⟨_, (Run.one first).trans rest, fun x hx => ?_⟩
    rcases List.mem_append.mp hx with hx | hx
    · rw [List.mem_singleton.mp hx]
    · exact moves x hx

lemma sleeps (s : State ι) (timed : Bool) (none : s.count ≤ 0) :
    ∃ trace, Run Step (s.set w .outside) trace
      ({ s with count := s.count - 1 }.set w (.sleeping ⟨1, Nat.one_pos, timed⟩)) := by
  have call : step (s.set w .outside) (wait w timed) =
      some (s.set w (.loading (.beforeWaiting timed) 1)) := by
    simp [step, wait]
  have look : step (s.set w (.loading (.beforeWaiting timed) 1)) (.move w) =
      some (s.set w (.spinning ⟨1, Nat.one_pos, timed⟩ spinCount)) := by
    simp [step, moveAt, State.look, none.not_gt, Purpose.next]
  obtain ⟨trace, rest, _⟩ := spins_out (w := w) ⟨1, Nat.one_pos, timed⟩ spinCount none
  exact ⟨_, ((Run.one call).snoc look).trans rest⟩

section Hall
variable [Fintype ι]

def waiting (threads : ι → Thread) : Finset ι := {w | (threads w).asleep = true}

def pending (threads : ι → Thread) : ℕ := ∑ w, (threads w).pending

def held (threads : ι → Thread) : ℕ := ∑ w, (threads w).holds

def adding (threads : ι → Thread) : ℕ := ∑ w, (threads w).adds

/-- Every thread that waits has its permit under way, up to what the counter is below zero. -/
def Backed (s : State ι) : Prop :=
  (waiting s.threads).card = s.kernel + pending s.threads + (-s.count).toNat

def hall (s : State ι) (backed : Backed s) : HandOff.Hall ι where
  free := s.count.toNat
  granted := s.kernel + pending s.threads
  waiting := waiting s.threads
  kept := by
    unfold Backed at backed
    omega
  served := by
    unfold Backed at backed
    omega

lemma waiting_update (threads : ι → Thread) (w : ι) (p : Thread) :
    waiting (Function.update threads w p) =
      if p.asleep then insert w (waiting threads) else (waiting threads).erase w := by
  ext v
  by_cases hv : v = w
  · subst hv
    split_ifs with h <;> simp [waiting, h]
  · split_ifs <;> simp [waiting, hv]

lemma update_of_tally (threads : ι → Thread) {w : ι} {p : Thread} {before after : Tally}
    (hbefore : tally (threads w) = before) (hafter : tally p = after) :
    pending (Function.update threads w p) + before.pending =
        pending threads + after.pending ∧
      held (Function.update threads w p) + before.holds = held threads + after.holds ∧
      adding (Function.update threads w p) + before.adds = adding threads + after.adds := by
  subst hbefore hafter
  exact ⟨sum_update Thread.pending threads w p, sum_update Thread.holds threads w p,
    sum_update Thread.adds threads w p⟩

omit [DecidableEq ι] in
lemma mem_waiting {threads : ι → Thread} : w ∈ waiting threads ↔ (threads w).asleep = true := by
  simp [waiting]

lemma waiting_same {threads : ι → Thread} {w : ι} {p : Thread}
    (same : p.asleep = (threads w).asleep) :
    waiting (Function.update threads w p) = waiting threads := by
  rw [waiting_update]
  split_ifs with h
  · exact Finset.insert_eq_of_mem (mem_waiting.mpr (same ▸ h))
  · exact Finset.erase_eq_of_notMem fun hw => h (same.trans (mem_waiting.mp hw))

/-- The abstract semaphore stays as it is, or takes the step. -/
def Forward : Option (HandOff.Label ι) → HandOff.Hall ι → HandOff.Hall ι → Prop
  | none, h, h' => h' = h
  | some b, h, h' => HandOff.Step h b h'

lemma pending_same {threads : ι → Thread} {p : Thread}
    (same : p.pending = (threads w).pending) :
    pending (Function.update threads w p) = pending threads := by
  have change := sum_update Thread.pending threads w p
  rw [← same] at change
  exact Nat.add_right_cancel change

lemma hall_same (backed : Backed s) {p : Thread}
    (asleep : p.asleep = (s.threads w).asleep) (owed : p.pending = (s.threads w).pending) :
    ∃ next : Backed (s.set w p), hall (s.set w p) next = hall s backed := by
  have wait : waiting (s.set w p).threads = waiting s.threads := waiting_same asleep
  have pend : pending (s.set w p).threads = pending s.threads := pending_same owed
  have next : Backed (s.set w p) := by
    rw [Backed, wait, pend]
    exact backed
  exact ⟨next, HandOff.Hall.ext rfl (congrArg (s.kernel + ·) pend) wait⟩

lemma waiting_insert (threads : ι → Thread) (w : ι) {p : Thread} (asleep : p.asleep = true) :
    waiting (Function.update threads w p) = insert w (waiting threads) :=
  (waiting_update threads w p).trans (if_pos asleep)

lemma waiting_erase (threads : ι → Thread) (w : ι) {p : Thread} (awake : p.asleep = false) :
    waiting (Function.update threads w p) = (waiting threads).erase w :=
  (waiting_update threads w p).trans (if_neg (ne_true_of_eq_false awake))

omit [DecidableEq ι] in
lemma notMem_waiting {threads : ι → Thread} (awake : (threads w).asleep = false) :
    w ∉ waiting threads := fun hw => ne_true_of_eq_false awake (mem_waiting.mp hw)

lemma refines_acquire (backed : Backed s) {p : Thread} {k m : ℕ}
    (before : tally (s.threads w) = .holding m) (after : tally p = .holding (m + k))
    (enough : k ≤ s.count) : ∃ next : Backed ({ s with count := s.count - k }.set w p),
      HandOff.Step (hall s backed) (.acquire w k) (hall _ next) := by
  have start := backed
  have wait := waiting_same ((congrArg Tally.asleep after).trans
    (congrArg Tally.asleep before).symm)
  have pend := pending_same ((congrArg Tally.pending after).trans
    (congrArg Tally.pending before).symm)
  have next : Backed ({ s with count := s.count - k }.set w p) := by
    simp only [Backed, State.set, wait, pend] at start ⊢
    omega
  have same : hall _ next = (hall s backed).acquire k := by
    refine HandOff.Hall.ext ?_ (congrArg (s.kernel + ·) pend) wait
    show (s.count - k).toNat = s.count.toNat - k
    omega
  refine ⟨next, ?_⟩
  rw [same]
  refine HandOff.step_of_cases (.acquire w k (notMem_waiting (congrArg Tally.asleep before)) ?_)
  show k ≤ s.count.toNat
  omega

lemma refines_enter (backed : Backed s) {p : Thread}
    (before : tally (s.threads w) = .holding 0) (after : tally p = .waiting)
    (none : s.count ≤ 0) : ∃ next : Backed ({ s with count := s.count - 1 }.set w p),
      HandOff.Step (hall s backed) (.enter w) (hall _ next) := by
  have start := backed
  have outside : w ∉ waiting s.threads := notMem_waiting (congrArg Tally.asleep before)
  have wait := waiting_insert s.threads w (congrArg Tally.asleep after)
  have pend := pending_same ((congrArg Tally.pending after).trans
    (congrArg Tally.pending before).symm)
  have next : Backed ({ s with count := s.count - 1 }.set w p) := by
    simp only [Backed, State.set, wait, pend, Finset.card_insert_of_notMem outside] at start ⊢
    omega
  have free : (hall s backed).free = 0 := Int.toNat_of_nonpos none
  have same : hall _ next = (hall s backed).enter w free := by
    refine HandOff.Hall.ext ?_ (congrArg (s.kernel + ·) pend) wait
    show (s.count - 1).toNat = s.count.toNat
    omega
  refine ⟨next, ?_⟩
  rw [same]
  exact HandOff.step_of_cases (.enter w outside free)

lemma refines_wake (backed : Backed s) {p : Thread} {n : ℕ}
    (before : tally (s.threads w) = .waiting) (after : tally p = .holding 1)
    (kernel : s.kernel = n + 1) : ∃ next : Backed ({ s with kernel := n }.set w p),
      HandOff.Step (hall s backed) (.wake w) (hall _ next) := by
  have start := backed
  have waits : w ∈ waiting s.threads := mem_waiting.mpr (congrArg Tally.asleep before)
  have wait := waiting_erase s.threads w (congrArg Tally.asleep after)
  have pend := pending_same ((congrArg Tally.pending after).trans
    (congrArg Tally.pending before).symm)
  have next : Backed ({ s with kernel := n }.set w p) := by
    simp only [Backed, State.set, wait, pend, Finset.card_erase_of_mem waits] at start ⊢
    omega
  have same : hall _ next = (hall s backed).wake w waits := by
    refine HandOff.Hall.ext rfl ?_ wait
    show n + pending (Function.update s.threads w p) = s.kernel + pending s.threads - 1
    omega
  refine ⟨next, ?_⟩
  rw [same]
  refine HandOff.step_of_cases (.wake w waits ?_)
  show 0 < s.kernel + pending s.threads
  omega

lemma refines_giveUp (backed : Backed s) (before : tally (s.threads w) = .waiting)
    (negative : s.count < 0) : ∃ next : Backed ({ s with count := s.count + 1 }.set w (.done 0)),
      HandOff.Step (hall s backed) (.giveUp w) (hall _ next) := by
  have start := backed
  have waits : w ∈ waiting s.threads := mem_waiting.mpr (congrArg Tally.asleep before)
  have wait := waiting_erase s.threads w (p := .done 0) rfl
  have owed : pending (Function.update s.threads w (.done 0)) = pending s.threads :=
    pending_same (congrArg Tally.pending before).symm
  have next : Backed ({ s with count := s.count + 1 }.set w (.done 0)) := by
    simp only [Backed, State.set, wait, owed, Finset.card_erase_of_mem waits] at start ⊢
    omega
  have unserved : (hall s backed).granted < (hall s backed).waiting.card := by
    show s.kernel + pending s.threads < (waiting s.threads).card
    simp only [Backed] at start
    omega
  have same : hall _ next = (hall s backed).giveUp w waits unserved := by
    refine HandOff.Hall.ext ?_ (congrArg (s.kernel + ·) owed) wait
    show (s.count + 1).toNat = s.count.toNat
    omega
  refine ⟨next, ?_⟩
  rw [same]
  exact HandOff.step_of_cases (.giveUp w waits unserved)

lemma refines_signal (backed : Backed s) {p : Thread} {n : ℕ}
    (before : tally (s.threads w) = ⟨false, 0, 0, n⟩)
    (after : tally p = ⟨false, min n (-s.count).toNat, 0, 0⟩) :
    ∃ next : Backed ({ s with count := s.count + n }.set w p),
      HandOff.Step (hall s backed) (.signal n) (hall _ next) := by
  have start := backed
  have wait := waiting_same ((congrArg Tally.asleep after).trans
    (congrArg Tally.asleep before).symm)
  have pend := (update_of_tally s.threads before after).1
  simp only [Nat.add_zero] at pend
  have next : Backed ({ s with count := s.count + n }.set w p) := by
    simp only [Backed, State.set, wait, pend] at start ⊢
    omega
  have unserved : (hall s backed).unserved = (-s.count).toNat := by
    show (waiting s.threads).card - (s.kernel + pending s.threads) = _
    simp only [Backed] at start
    omega
  have same : hall _ next = (hall s backed).signal n := by
    refine HandOff.Hall.ext ?_ ?_ wait
    · show (s.count + n).toNat = s.count.toNat + (n - min n (hall s backed).unserved)
      omega
    · show s.kernel + pending (Function.update s.threads w p) =
        s.kernel + pending s.threads + min n (hall s backed).unserved
      omega
  refine ⟨next, ?_⟩
  rw [same]
  exact HandOff.step_of_cases (.signal n)

lemma hall_post (backed : Backed s) {n : ℕ}
    (before : tally (s.threads w) = ⟨false, n + 1, 0, 0⟩) :
    ∃ next : Backed ({ s with kernel := s.kernel + 1 }.set w (.posting n)),
      hall _ next = hall s backed := by
  have start := backed
  have wait : waiting (Function.update s.threads w (.posting n)) = waiting s.threads :=
    waiting_same (congrArg Tally.asleep before).symm
  have owed : s.kernel + 1 + pending (Function.update s.threads w (.posting n)) =
      s.kernel + pending s.threads := by
    have pend := (update_of_tally s.threads before (p := .posting n) rfl).1
    simp only [tally, Thread.pending] at pend
    omega
  have next : Backed ({ s with kernel := s.kernel + 1 }.set w (.posting n)) := by
    simp only [Backed, State.set, wait] at start ⊢
    omega
  exact ⟨next, HandOff.Hall.ext rfl owed wait⟩

/-- Each step is a step of the abstract semaphore or none. -/
theorem Effect.refines (h : Effect s l a t) (backed : Backed s) :
    ∃ next : Backed t, Forward a (hall s backed) (hall t next) := by
  cases h with
  | silent l p same quiet =>
    exact hall_same backed (congrArg Tally.asleep same) (congrArg Tally.pending same)
  | call w n before =>
    exact hall_same backed (congrArg Tally.asleep before).symm
      (congrArg Tally.pending before).symm
  | acquire w p k m before after enough => exact refines_acquire backed before after enough
  | enter w p before after none => exact refines_enter backed before after none
  | wake w p n before after kernel => exact refines_wake backed before after kernel
  | giveUp w before negative => exact refines_giveUp backed before negative
  | signal w p n before after => exact refines_signal backed before after
  | post w n before => exact hall_post backed before
  | leave w result before =>
    exact hall_same backed (congrArg Tally.asleep before).symm
      (congrArg Tally.pending before).symm

lemma Effect.accounts (h : Effect s l a t) :
    adding t.threads + (a.map HandOff.Label.signalled).getD 0 = adding s.threads + called l ∧
      held t.threads + returned s l = held s.threads + (a.map HandOff.Label.taken).getD 0 := by
  cases h with
  | silent l p same quiet =>
    obtain ⟨_, holds, adds⟩ := update_of_tally s.threads rfl same
    rw [quiet.1, quiet.2]
    exact ⟨Nat.add_right_cancel adds, Nat.add_right_cancel holds⟩
  | call w n before =>
    obtain ⟨_, holds, adds⟩ := update_of_tally s.threads before (p := .adding n) rfl
    exact ⟨adds, holds⟩
  | acquire w p k m before after enough =>
    obtain ⟨_, holds, adds⟩ := update_of_tally s.threads before after
    refine ⟨adds, ?_⟩
    simp only [Tally.holding] at holds
    show held (Function.update s.threads w p) + 0 = held s.threads + k
    omega
  | enter w p before after none =>
    obtain ⟨_, holds, adds⟩ := update_of_tally s.threads before after
    exact ⟨adds, holds⟩
  | wake w p n before after kernel =>
    obtain ⟨_, holds, adds⟩ := update_of_tally s.threads before after
    exact ⟨adds, holds⟩
  | giveUp w before negative =>
    obtain ⟨_, holds, adds⟩ := update_of_tally s.threads before (p := .done 0) rfl
    exact ⟨adds, holds⟩
  | signal w p n before after =>
    obtain ⟨_, holds, adds⟩ := update_of_tally s.threads before after
    exact ⟨adds, holds⟩
  | post w n before =>
    obtain ⟨_, holds, adds⟩ := update_of_tally s.threads before (p := .posting n) rfl
    exact ⟨adds, holds⟩
  | leave w result before =>
    obtain ⟨_, holds, adds⟩ := update_of_tally s.threads before (p := .outside) rfl
    have mine : (s.threads w).holds = result := congrArg Tally.holds before
    refine ⟨adds, ?_⟩
    simp only [returned, mine]
    exact holds

/-- All permits of a semaphore: held, in the counter, on their way, about to be added. -/
def stock (s : State ι) : ℕ :=
  held s.threads + s.count.toNat + (s.kernel + pending s.threads) + adding s.threads

theorem stock_step (backed : Backed s) (h : step s l = some t) :
    Backed t ∧ stock t + returned s l = stock s + called l := by
  obtain ⟨a, effect⟩ := effect_of_step h
  obtain ⟨next, forward⟩ := effect.refines backed
  obtain ⟨adds, holds⟩ := effect.accounts
  refine ⟨next, ?_⟩
  cases a with
  | none =>
    have same : hall t next = hall s backed := forward
    have free := congrArg HandOff.Hall.free same
    have granted := congrArg HandOff.Hall.granted same
    simp only [hall, Option.map_none, Option.getD_none] at free granted adds holds
    simp only [stock]
    omega
  | some b =>
    have total := HandOff.conserved_step forward
    simp only [hall, Option.map_some, Option.getD_some] at total adds holds
    simp only [stock]
    omega

/-- The permits that the calls of a run have promised, and those they have returned with. -/
def promisedIn (trace : List (State ι × Label ι)) : ℕ :=
  trace.foldl (fun n x => n + called x.2) 0

def returnedIn (trace : List (State ι × Label ι)) : ℕ :=
  trace.foldl (fun n x => n + returned x.1 x.2) 0

variable {trace : List (State ι × Label ι)} {n : ℕ}

omit [DecidableEq ι] [Fintype ι] in
lemma returnedIn_append (before after : List (State ι × Label ι)) :
    returnedIn (before ++ after) = returnedIn before + returnedIn after := by
  induction after using List.reverseRecOn with
  | nil => rw [List.append_nil]; rfl
  | append_singleton after x ih =>
    have last : ∀ l : List (State ι × Label ι),
        returnedIn (l ++ [x]) = returnedIn l + returned x.1 x.2 := fun l => by simp [returnedIn]
    rw [← List.append_assoc, last, last, ih, Nat.add_assoc]

omit [DecidableEq ι] in
lemma start_threads (n : ℕ) : waiting (start n : State ι).threads = ∅ ∧
    pending (start n : State ι).threads = 0 ∧ held (start n : State ι).threads = 0 ∧
    adding (start n : State ι).threads = 0 :=
  ⟨Finset.filter_eq_empty_iff.mpr fun _ _ => Bool.false_ne_true, Finset.sum_eq_zero fun _ _ => rfl,
    Finset.sum_eq_zero fun _ _ => rfl, Finset.sum_eq_zero fun _ _ => rfl⟩

omit [DecidableEq ι] in
lemma backed_start (n : ℕ) : Backed (start n : State ι) := by
  obtain ⟨none, owed, _, _⟩ := start_threads (ι := ι) n
  rw [Backed, none, owed]
  simp [start]

omit [DecidableEq ι] in
lemma hall_start (n : ℕ) :
    hall (start n : State ι) (backed_start n) = HandOff.Hall.start n := by
  obtain ⟨none, owed, _, _⟩ := start_threads (ι := ι) n
  exact HandOff.Hall.ext (Int.toNat_natCast n) (congrArg (0 + ·) owed) none

/-- The run of the abstract semaphore that a run amounts to. -/
structure Amounts (n : ℕ) (trace : List (State ι × Label ι)) (s : State ι)
    (steps : List (HandOff.Hall ι × HandOff.Label ι)) : Prop where
  backed : Backed s
  run : Run HandOff.Step (.start n) steps (hall s backed)
  signalled : HandOff.signalled steps + adding s.threads = promisedIn trace
  taken : HandOff.taken steps = returnedIn trace + held s.threads

lemma Amounts.start (n : ℕ) : Amounts n [] (start n : State ι) [] where
  backed := backed_start n
  run := by
    rw [hall_start]
    exact .refl
  signalled := by
    rw [(start_threads n).2.2.2]
    rfl
  taken := by
    rw [(start_threads n).2.2.1]
    rfl

theorem Amounts.step {steps : List (HandOff.Hall ι × HandOff.Label ι)}
    (h : Amounts n trace s steps) (hl : step s l = some t) :
    ∃ more, Amounts n (trace ++ [(s, l)]) t (steps ++ more) := by
  obtain ⟨backed, run, signalled, taken⟩ := h
  obtain ⟨a, effect⟩ := effect_of_step hl
  obtain ⟨next, forward⟩ := effect.refines backed
  obtain ⟨adds, holds⟩ := effect.accounts
  have promised : promisedIn (trace ++ [(s, l)]) = promisedIn trace + called l := by
    simp [promisedIn]
  have returns : returnedIn (trace ++ [(s, l)]) = returnedIn trace + returned s l := by
    simp [returnedIn]
  cases a with
  | none =>
    refine ⟨[], next, ?_, ?_, ?_⟩
    · rw [List.append_nil, show hall t next = hall s backed from forward]
      exact run
    · rw [List.append_nil, promised, ← signalled]
      simp only [Option.map_none, Option.getD_none] at adds
      omega
    · rw [List.append_nil, returns, taken]
      simp only [Option.map_none, Option.getD_none] at holds
      omega
  | some b =>
    refine ⟨[(hall s backed, b)], next, run.snoc forward, ?_, ?_⟩
    · rw [HandOff.signalled_snoc, promised, ← signalled]
      simp only [Option.map_some, Option.getD_some] at adds
      omega
    · rw [HandOff.taken_snoc, returns, taken]
      simp only [Option.map_some, Option.getD_some] at holds
      omega

theorem amounts_of_run (run : Run Step (start n) trace s) : ∃ steps, Amounts n trace s steps := by
  have preserved : ∀ (past : List (State ι × Label ι)) (a : State ι) (l : Label ι) (b : State ι),
      (∃ steps, Amounts n past a steps) → Step a l b →
      ∃ steps, Amounts n (past ++ [(a, l)]) b steps := by
    rintro past a l b ⟨steps, amounts⟩ hl
    obtain ⟨more, next⟩ := amounts.step hl
    exact ⟨_, next⟩
  exact run.stable_history ⟨[], .start n⟩ preserved

/-- No permit is made or lost. -/
theorem conserved_of_run (run : Run Step (start n) trace s) :
    n + promisedIn trace = returnedIn trace + stock s := by
  obtain ⟨steps, backed, abstract, signalled, taken⟩ := amounts_of_run run
  have total := HandOff.conserved_of_run abstract
  simp only [hall] at total
  simp only [stock]
  omega

/-- The counter stays between what the threads can take from it and what was signalled: the
unbounded one is the `ssize_t` of the source as long as these fit. -/
theorem count_bounds (run : Run Step (start n) trace s) :
    -(Fintype.card ι : ℤ) ≤ s.count ∧ s.count ≤ (n + promisedIn trace : ℕ) := by
  obtain ⟨steps, amounts⟩ := amounts_of_run run
  have backed := amounts.backed
  have total := conserved_of_run run
  have most := Finset.card_le_univ (waiting s.threads)
  simp only [Backed] at backed
  simp only [stock] at total
  omega

omit [Fintype ι] in
lemma place_of_blocked {p : Thread} (blocked : moveAt s w p = none) :
    p = .outside ∨ (∃ r, p = .done r) ∨ (∃ wait, p = .sleeping wait) ∧ s.kernel = 0 := by
  cases p with
  | outside => exact .inl rfl
  | done r => exact .inr (.inl ⟨r, rfl⟩)
  | sleeping wait =>
    cases hkernel : s.kernel with
    | zero => exact .inr (.inr ⟨⟨wait, rfl⟩, rfl⟩)
    | succ k => simp [moveAt, hkernel] at blocked
  | collecting wait => cases hkernel : s.kernel <;> simp [moveAt, hkernel] at blocked
  | spinning wait spin => cases spin <;> cases blocked
  | posting k => cases k <;> cases blocked
  | loading purpose max => cases blocked
  | trying purpose max oldCount positive => cases blocked
  | spinTrying wait spin oldCount positive => cases blocked
  | adjusting wait => cases blocked
  | undoing wait oldCount negative => cases blocked
  | adding count => cases blocked

/-- Where a thread sleeps and no thread can go on, nothing is left that a thread might get. -/
theorem used_up (backed : Backed s) (blocked : ∀ v, step s (.move v) = none) {w : ι}
    (inside : s.threads w ≠ .outside) (unfinished : ∀ r, s.threads w ≠ .done r) :
    (∃ wait, s.threads w = .sleeping wait) ∧ stock s = held s.threads := by
  have place : ∀ v, s.threads v = .outside ∨ (∃ r, s.threads v = .done r) ∨
      (∃ wait, s.threads v = .sleeping wait) ∧ s.kernel = 0 := fun v => place_of_blocked (blocked v)
  obtain ⟨sleeping, kernel⟩ := ((place w).resolve_left inside).resolve_left
    fun ⟨r, hr⟩ => unfinished r hr
  have quiet : ∀ v, (s.threads v).pending = 0 ∧ (s.threads v).adds = 0 := by
    intro v
    rcases place v with hv | ⟨r, hv⟩ | ⟨⟨wait, hv⟩, _⟩ <;> rw [hv] <;> exact ⟨rfl, rfl⟩
  have owed : pending s.threads = 0 := Finset.sum_eq_zero fun v _ => (quiet v).1
  have added : adding s.threads = 0 := Finset.sum_eq_zero fun v _ => (quiet v).2
  have waits : 0 < (waiting s.threads).card := by
    obtain ⟨wait, hw⟩ := sleeping
    refine Finset.card_pos.mpr ⟨w, mem_waiting.mpr ?_⟩
    rw [hw]
    rfl
  simp only [Backed] at backed
  simp only [stock]
  exact ⟨sleeping, by omega⟩

/-- A system in which no thread can go on hangs only because all permits are used up: whoever has
not returned sleeps, and what was promised has been returned or is held by calls that are over. -/
theorem sleeps_only_when_used_up (run : Run Step (start n) trace s)
    (blocked : ∀ v, step s (.move v) = none) {w : ι} (inside : s.threads w ≠ .outside)
    (unfinished : ∀ r, s.threads w ≠ .done r) :
    (∃ wait, s.threads w = .sleeping wait) ∧
      n + promisedIn trace = returnedIn trace + held s.threads := by
  obtain ⟨steps, amounts⟩ := amounts_of_run run
  obtain ⟨sleeping, rest⟩ := used_up amounts.backed blocked inside unfinished
  exact ⟨sleeping, rest ▸ conserved_of_run run⟩

def asleepAlone : State Unit := ⟨-1, 0, fun _ => .sleeping ⟨1, Nat.one_pos, true⟩⟩

lemma run_asleepAlone : ∃ trace, Run Step (start 0) trace asleepAlone := by
  obtain ⟨trace, run⟩ := sleeps (start 0 : State Unit) (w := ()) true le_rfl
  have first : (start 0 : State Unit).set () .outside = start 0 :=
    congrArg (State.mk 0 0) (funext fun _ => rfl)
  have last : { (start 0 : State Unit) with count := (start 0 : State Unit).count - 1 }.set ()
      (.sleeping ⟨1, Nat.one_pos, true⟩) = asleepAlone :=
    congrArg (State.mk (-1) 0) (funext fun _ => rfl)
  rw [first, last] at run
  exact ⟨trace, run⟩

def takesOne : List (Label Unit) :=
  [.signal () 1, .move (), wait () true, .move (), .move (), .leave ()]

theorem takesOne_run : Run Step (start 0) (advanceTrace step (start 0 : State Unit) takesOne)
    (start 0) := by
  have runs : (advance step (start 0 : State Unit) takesOne).any (fun s => s.count = 0 ∧
      s.kernel = 0 ∧ s.threads () = .outside) = true := by decide +kernel
  obtain ⟨s, hs, home⟩ := (Option.any_eq_true ..).mp runs
  obtain ⟨count, kernel, outside⟩ := of_decide_eq_true home
  have same : s = start 0 := by
    obtain ⟨c, k, threads⟩ := s
    obtain rfl : c = 0 := count
    obtain rfl : k = 0 := kernel
    exact congrArg (State.mk 0 0) (funext fun _ => outside)
  rw [same] at hs
  exact advance_run hs

/-- A thread that waits for another permit sleeps, and has used up all there was. -/
theorem sleeps_alone : ∃ trace, Run Step (start 0) trace asleepAlone ∧
    1 ≤ returnedIn trace ∧ (∃ wait, asleepAlone.threads () = .sleeping wait) ∧
    0 + promisedIn trace = returnedIn trace + held asleepAlone.threads := by
  obtain ⟨rest, run⟩ := run_asleepAlone
  have whole := takesOne_run.trans run
  have one : returnedIn (advanceTrace step (start 0 : State Unit) takesOne) = 1 := by
    decide +kernel
  refine ⟨_, whole, ?_, sleeps_only_when_used_up whole (fun _ => rfl) nofun nofun⟩
  rw [returnedIn_append, one]
  exact Nat.le_add_right _ _

/-- Once no thread is in the middle of a `signal`, a thread whose time is out needs two accesses to
leave the loop: with the permit that is there for it, or without one while none is there. -/
theorem adjusts (run : Run Step (start n) trace s) (settled : pending s.threads = 0) {wait : Wait}
    (late : s.threads w = .adjusting wait) :
    ∃ m t, Run Step s [(s, .move w), (m, .move w)] t ∧
      (s.count < 0 ∧ t.threads w = .done 0 ∨ 0 ≤ s.count ∧ t.threads w = wait.afterOne) := by
  obtain ⟨steps, amounts⟩ := amounts_of_run run
  have backed := amounts.backed
  have waits : 0 < (waiting s.threads).card := by
    refine Finset.card_pos.mpr ⟨w, mem_waiting.mpr ?_⟩
    rw [late]
    rfl
  simp only [Backed] at backed
  rcases lt_or_ge s.count 0 with negative | nonneg
  · have first : step s (.move w) = some (s.set w (.undoing wait s.count negative)) := by
      simp [step, late, moveAt, negative]
    have second : step (s.set w (.undoing wait s.count negative)) (.move w) =
        some ({ s.set w (.undoing wait s.count negative) with count := s.count + 1 }.set w
          (.done 0)) := by
      simp [step, State.set, moveAt]
    exact ⟨_, _, (Run.one first).snoc second, .inl ⟨negative, by simp [State.set]⟩⟩
  · have first : step s (.move w) = some (s.set w (.collecting wait)) := by
      simp [step, late, moveAt, nonneg.not_gt]
    obtain ⟨k, hk⟩ : ∃ k, s.kernel = k + 1 := Nat.exists_eq_succ_of_ne_zero (by omega)
    have second : step (s.set w (.collecting wait)) (.move w) =
        some ({ s.set w (.collecting wait) with kernel := k }.set w wait.afterOne) := by
      simp [step, State.set, moveAt, hk]
    exact ⟨_, _, (Run.one first).snoc second, .inr ⟨nonneg, by simp [State.set]⟩⟩

/-- A thread that waited for a permit of an empty semaphore comes back without one. -/
theorem adjusts_empty : ∃ trace s m t, Run Step (start 0 : State Unit) trace s ∧
    Run Step s [(s, .move ()), (m, .move ())] t ∧ t.threads () = .done 0 := by
  obtain ⟨trace, run⟩ := run_asleepAlone
  have late : Step asleepAlone (.expire ()) (asleepAlone.set () (.adjusting ⟨1, Nat.one_pos, true⟩)) :=
    rfl
  obtain ⟨m, t, two, ⟨_, empty⟩ | ⟨nonneg, _⟩⟩ := adjusts (run.snoc late) rfl (set_same ..)
  · exact ⟨_, _, m, t, run.snoc late, two, empty⟩
  · exact (not_le_of_gt (show asleepAlone.count < 0 by decide) nonneg).elim

end Hall

end ClientPrefs.SemaphoreRefinement
