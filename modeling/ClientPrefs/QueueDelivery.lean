import ClientPrefs.BlockingQueue
import ClientPrefs.Sentinels

/-!
# What the blocking queue delivers

The semaphore counts the elements: whoever has got through it finds the elements that it may take,
so that the loops on the lock-free queue end, and who sleeps finds none.
-/
namespace ClientPrefs.QueueDelivery
open BlockingQueue LightweightSemaphore SemaphoreRefinement Transition
open Sentinels (sum_update)

variable {ι α : Type*}

/-- Who enqueued what, in the order in which it was linked. -/
def linked (trace : List (BlockingQueue.State ι α × BlockingQueue.Label ι α)) : List (ι × α) :=
  trace.filterMap fun x =>
    match x.2 with
    | .link w =>
      match x.1.users w with
      | .enqueuing item => some (w, item)
      | _ => none
    | _ => none

def dequeued (trace : List (BlockingQueue.State ι α × BlockingQueue.Label ι α)) : List (ι × α) :=
  trace.flatMap fun x =>
    match x.2 with
    | .finish w =>
      match x.1.users w with
      | .taking _ got => got.map fun a => (w, a)
      | _ => []
    | _ => []

variable {trace : List (BlockingQueue.State ι α × BlockingQueue.Label ι α)}

lemma linked_snoc (s : BlockingQueue.State ι α) (l : BlockingQueue.Label ι α) :
    linked (trace ++ [(s, l)]) = linked trace ++ linked [(s, l)] := List.filterMap_append

variable [DecidableEq ι] [Fintype ι]

/-- How many elements a thread has still to take. -/
def owed : User α → ℕ
  | .taking want got => want - got.length
  | _ => 0

/-- A thread has not taken more than it wants. -/
def Within : User α → Prop
  | .taking want got => got.length ≤ want
  | _ => True

def Fits : User α → Thread → Prop
  | .signalling, p => acquiring p = false
  | .waiting max, p => acquiring p = true ∧ p.limit ≤ max
  | _, p => p = .outside

/-- The semaphore counts the elements: each of them has a permit, or belongs to a thread that has
got its permit. -/
structure Settled (s : BlockingQueue.State ι α) : Prop where
  backed : Backed s.sema
  counted : ∑ p, (s.inner p).length = stock s.sema + ∑ w, owed (s.users w)
  room : ∀ w, Within (s.users w)
  fits : ∀ w, Fits (s.users w) (s.sema.threads w)

omit [DecidableEq ι] in
lemma Settled.start : Settled (BlockingQueue.start : BlockingQueue.State ι α) where
  backed := backed_start 0
  counted := by
    obtain ⟨_, owed, held, adding⟩ := start_threads (ι := ι) 0
    simp only [BlockingQueue.start, stock, held, owed, adding]
    simp [QueueDelivery.owed, LightweightSemaphore.start]
  room _ := trivial
  fits _ := rfl

variable {s t : BlockingQueue.State ι α} {l : BlockingQueue.Label ι α}

omit [Fintype ι] in
lemma forall_setUser {P : ι → User α → Prop} {w : ι} {user : User α} (hw : P w user)
    (others : ∀ v, v ≠ w → P v (s.users v)) : ∀ v, P v ((s.setUser w user).users v) := by
  intro v
  by_cases hv : v = w
  · subst hv
    simpa [State.setUser] using hw
  · simpa [State.setUser, hv] using others v hv

lemma Settled.withSema (h : Settled s) {sema : LightweightSemaphore.State ι}
    {c : LightweightSemaphore.Label ι} (call : LightweightSemaphore.Step s.sema c sema)
    {user : User α} {inner : ι → List α}
    (elements : ∑ p, (inner p).length + returned s.sema c + owed (s.users c.thread) =
      ∑ p, (s.inner p).length + called c + owed user)
    (room : Within user)
    (fits : Fits user (sema.threads c.thread)) :
    Settled ({ s with sema := sema, inner := inner }.setUser c.thread user) := by
  obtain ⟨backed, total⟩ := stock_step h.backed call
  have users := sum_update owed s.users c.thread user
  have counted := h.counted
  refine ⟨backed, ?_, ?_, ?_⟩
  · show ∑ p, (inner p).length = stock sema + ∑ v, owed (Function.update s.users c.thread user v)
    omega
  · exact fun v => forall_setUser (s := { s with sema := sema, inner := inner })
      (P := fun _ u => Within u) room (fun v _ => h.room v) v
  · intro v
    by_cases hv : v = c.thread
    · subst hv
      simpa [State.setUser] using fits
    · have same := threads_of_step call hv
      simpa [State.setUser, hv, same] using h.fits v

lemma Settled.setUser (h : Settled s) {w : ι} {user : User α} {inner : ι → List α}
    (elements : ∑ p, (inner p).length + owed (s.users w) = ∑ p, (s.inner p).length + owed user)
    (room : Within user)
    (fits : Fits user (s.sema.threads w)) :
    Settled ({ s with inner := inner }.setUser w user) := by
  have users := sum_update owed s.users w user
  have counted := h.counted
  refine ⟨h.backed, ?_, ?_, ?_⟩
  · show ∑ p, (inner p).length = stock s.sema + ∑ v, owed (Function.update s.users w user v)
    omega
  · exact fun v => forall_setUser (s := { s with inner := inner })
      (P := fun _ u => Within u) room (fun v _ => h.room v) v
  · exact forall_setUser (s := { s with inner := inner })
      (P := fun v u => Fits u (s.sema.threads v)) fits fun v _ => h.fits v

omit [DecidableEq ι] [Fintype ι] in
lemma Outcome.fits {r : LightweightSemaphore.State ι} {p q : Thread} {max : ℕ}
    (h : Outcome r p q) (limit : p.limit ≤ max) : acquiring q = true ∧ q.limit ≤ max := by
  cases h with
  | goesOn q inside unfinished same => exact ⟨inside, same ▸ limit⟩
  | takes awake possible =>
    refine ⟨rfl, ?_⟩
    show p.holds + min (p.limit - p.holds) r.count.toNat ≤ max
    omega
  | woken asleep one some => exact ⟨rfl, one ▸ limit⟩
  | empty asleep negative => exact ⟨rfl, Nat.zero_le _⟩

omit [Fintype ι] in
lemma fits_of_internal {r sema : LightweightSemaphore.State ι}
    {c : LightweightSemaphore.Label ι} {user : User α} (inside : internal c = true)
    (call : LightweightSemaphore.Step r c sema) (fits : Fits user (r.threads c.thread)) :
    Fits user (sema.threads c.thread) := by
  cases LightweightSemaphore.step_cases call with
  | move w sema moves =>
    cases user with
    | signalling => exact acquiring_of_moves fits moves
    | waiting max => exact Outcome.fits (outcome_of_moves fits.1 moves) fits.2
    | _ =>
      rw [show r.threads w = .outside from fits] at moves
      cases moves
  | spurious w purpose max oldCount positive trying =>
    simp only [LightweightSemaphore.Label.thread, trying] at fits
    cases user with
    | waiting most =>
      simp only [LightweightSemaphore.Label.thread, set_same]
      exact Outcome.fits (.look rfl (holds_trying purpose max _ positive)
        (limit_trying purpose max _ positive)) fits.2
    | _ => cases fits
  | expire w wait sleeping timed =>
    simp only [LightweightSemaphore.Label.thread, sleeping] at fits
    cases user with
    | waiting most =>
      simp only [LightweightSemaphore.Label.thread, set_same]
      exact ⟨rfl, fits.2⟩
    | _ => cases fits
  | _ => cases inside

/-- One step keeps the count. -/
theorem Settled.step (h : Settled s) (hl : step s l = some t) : Settled t := by
  cases step_cases hl with
  | enqueue w item outside =>
    have fits := h.fits w
    rw [outside] at fits
    exact h.setUser (by rw [outside]; rfl) trivial fits
  | refuse w item enqueuing =>
    have fits := h.fits w
    rw [enqueuing] at fits
    exact h.setUser (by rw [enqueuing]; rfl) trivial fits
  | link w item sema enqueuing call =>
    refine h.withSema call ?_ trivial ?_
    · have longer := sum_update List.length s.inner w (s.inner w ++ [item])
      have mine : owed (s.users w) = 0 := by
        rw [enqueuing]
        rfl
      simp only [List.length_append, List.length_singleton] at longer
      show ∑ p, (Function.update s.inner w (s.inner w ++ [item]) p).length + 0 + owed (s.users w) =
        ∑ p, (s.inner p).length + 1 + 0
      omega
    · cases LightweightSemaphore.step_cases call with
      | signal w count outside => simp [LightweightSemaphore.Label.thread, Fits, acquiring]
  | signalled w signalling ended =>
    exact h.setUser (by rw [signalling]; rfl) trivial ended
  | waitDequeueBulk w max timed sema outside call =>
    refine h.withSema call ?_ trivial ?_
    · show _ + 0 + owed (s.users w) = _ + 0 + 0
      rw [outside]
      rfl
    · cases LightweightSemaphore.step_cases call with
      | waitMany w max timed outside =>
        simp [LightweightSemaphore.Label.thread, Fits, acquiring, Thread.limit]
  | tryDequeueBulk w max sema outside call =>
    refine h.withSema call ?_ trivial ?_
    · show _ + 0 + owed (s.users w) = _ + 0 + 0
      rw [outside]
      rfl
    · cases LightweightSemaphore.step_cases call with
      | tryWaitMany w max outside =>
        simp [LightweightSemaphore.Label.thread, Fits, acquiring, Thread.limit]
  | sema c sema inside call =>
    have fits := fits_of_internal inside call (h.fits c.thread)
    have same : { s with sema := sema } =
        ({ s with sema := sema, inner := s.inner } : BlockingQueue.State ι α).setUser c.thread
          (s.users c.thread) := by
      simp [State.setUser]
    rw [same]
    refine h.withSema call ?_ (h.room c.thread) fits
    cases c with
    | move w => rfl
    | spurious w => rfl
    | expire w => rfl
    | _ => cases inside
  | acquired w max result sema waiting done call =>
    refine h.withSema call ?_ ?_ ?_
    · have mine : returned s.sema (.leave w) = result := by
        simp only [returned, done]
        rfl
      show _ + returned s.sema (.leave w) + owed (s.users w) = _ + 0 + (result - 0)
      rw [mine, waiting]
      simp [owed]
    · exact Nat.zero_le _
    · cases LightweightSemaphore.step_cases call with
      | leave w result done => simp [LightweightSemaphore.Label.thread, Fits]
  | take w p k want got taking room there =>
    have fits := h.fits w
    rw [taking] at fits
    refine h.setUser ?_ ?_ fits
    · have shorter := sum_update List.length s.inner p ((s.inner p).drop k)
      have mine : owed (s.users w) = want - got.length := by
        rw [taking]
        rfl
      rw [List.length_drop] at shorter
      rw [mine]
      show _ + (want - got.length) = _ + (want - (got ++ (s.inner p).take k).length)
      rw [List.length_append, List.length_take]
      omega
    · have before := h.room w
      rw [taking] at before
      show (got ++ (s.inner p).take k).length ≤ want
      rw [List.length_append, List.length_take]
      have : got.length ≤ want := before
      omega
  | finish w want got taking all =>
    have fits := h.fits w
    rw [taking] at fits
    refine h.setUser ?_ trivial fits
    rw [taking]
    simp [owed, all]

theorem settled_of_run {trace : List (BlockingQueue.State ι α × BlockingQueue.Label ι α)}
    (run : Run BlockingQueue.Step BlockingQueue.start trace s) : Settled s :=
  run.stable .start fun _ _ _ => Settled.step

omit [DecidableEq ι] in
lemma Settled.some_left (h : Settled s) {w : ι} {want : ℕ} {got : List α}
    (taking : s.users w = .taking want got) (short : got.length < want) : ∃ p, s.inner p ≠ [] := by
  by_contra none
  have empty : ∑ p, (s.inner p).length = 0 :=
    Finset.sum_eq_zero fun p _ => List.length_eq_zero_iff.mpr (not_not.mp fun hp => none ⟨p, hp⟩)
  have mine : owed (s.users w) ≤ ∑ v, owed (s.users v) :=
    Finset.single_le_sum (f := fun v => owed (s.users v)) (fun _ _ => Nat.zero_le _)
      (Finset.mem_univ w)
  have counted := h.counted
  rw [taking] at mine
  have some : want - got.length ≤ ∑ v, owed (s.users v) := mine
  omega

lemma Settled.takes_all (h : Settled s) {w : ι} {want : ℕ} {got : List α}
    (taking : s.users w = .taking want got) :
    ∃ moves t all, Run BlockingQueue.Step s moves t ∧
      (∀ x ∈ moves, ∃ p k, x.2 = .take w p k) ∧
      t.users w = .taking want (got ++ all) ∧ (got ++ all).length = want := by
  obtain ⟨short, hshort⟩ : ∃ short, short = want - got.length := ⟨_, rfl⟩
  induction short generalizing s got with
  | zero =>
    have room := h.room w
    rw [taking] at room
    have : got.length ≤ want := room
    refine ⟨[], s, [], .refl, fun _ hx => (List.not_mem_nil hx).elim, by simpa using taking, ?_⟩
    rw [List.append_nil]
    omega
  | succ short ih =>
    obtain ⟨p, hp⟩ := h.some_left taking (by omega)
    obtain ⟨a, rest, hinner⟩ := List.exists_cons_of_ne_nil hp
    have one : (s.inner p).take 1 = [a] := by rw [hinner]; rfl
    have first : BlockingQueue.step s (.take w p 1) =
        some ({ s with inner := Function.update s.inner p ((s.inner p).drop 1) }.setUser w
          (.taking want (got ++ [a]))) := by
      have room : 1 ≤ want - got.length ∧ 1 ≤ (s.inner p).length := by
        rw [hinner, List.length_cons]
        omega
      simp only [BlockingQueue.step, taking, if_pos room, one]
    have next : ({ s with inner := Function.update s.inner p ((s.inner p).drop 1) }.setUser w
        (.taking want (got ++ [a]))).users w = .taking want (got ++ [a]) := by
      simp [State.setUser]
    obtain ⟨moves, t, all, run, own, place, length⟩ := ih (h.step first) next
      (by rw [List.length_append, List.length_singleton]; omega)
    refine ⟨_, t, a :: all, (Run.one first).trans run, ?_, ?_, ?_⟩
    · intro x hx
      rcases List.mem_append.mp hx with hx | hx
      · obtain rfl := List.mem_singleton.mp hx
        exact ⟨p, 1, rfl⟩
      · exact own x hx
    · rw [place, List.append_assoc]
      rfl
    · rw [← length, List.append_assoc]
      rfl

/-- The loops on the lock-free queue never wait for an element that does not come. -/
theorem loops_end (run : Run BlockingQueue.Step BlockingQueue.start trace s) {w : ι} {want : ℕ}
    {got : List α} (taking : s.users w = .taking want got) :
    ∃ moves t all, Run BlockingQueue.Step s moves t ∧
      (∀ x ∈ moves, ∃ p k, x.2 = .take w p k) ∧
      t.users w = .taking want (got ++ all) ∧ (got ++ all).length = want :=
  (settled_of_run run).takes_all taking

/-- A dequeue of two elements that has got through the semaphore. -/
theorem loops_end_two : ∃ trace s, Run BlockingQueue.Step
    (BlockingQueue.start : BlockingQueue.State (Fin 2) ℕ) trace s ∧
    s.users 1 = .taking 2 [] ∧ ∃ moves t all, Run BlockingQueue.Step s moves t ∧
      (∀ x ∈ moves, ∃ p k, x.2 = .take 1 p k) ∧ t.users 1 = .taking 2 ([] ++ all) ∧
      ([] ++ all).length = 2 := by
  have run := @advance_run _ _ BlockingQueue.step
    (BlockingQueue.start : BlockingQueue.State (Fin 2) ℕ) _
    [.enqueue 0 7, .link 0, .sema (.move 0), .signalled 0, .enqueue 0 8, .link 0, .sema (.move 0),
      .signalled 0, .waitDequeueBulk 1 2 true, .sema (.move 1), .sema (.move 1), .acquired 1] rfl
  exact ⟨_, _, run, rfl, loops_end run rfl⟩

/-- Nobody is in the queue: `size_approx` is the number of elements. -/
theorem size_of_idle (run : Run BlockingQueue.Step BlockingQueue.start trace s)
    (idle : ∀ w, s.users w = .outside) : s.sizeApprox = ∑ p, (s.inner p).length := by
  obtain ⟨backed, counted, _, fits⟩ := settled_of_run run
  have outside : ∀ w, s.sema.threads w = .outside := by
    intro w
    have hw := fits w
    rw [idle w] at hw
    exact hw
  have none : waiting s.sema.threads = ∅ := by
    refine Finset.filter_eq_empty_iff.mpr fun w _ => ?_
    rw [outside w]
    exact Bool.false_ne_true
  have hheld : held s.sema.threads = 0 := Finset.sum_eq_zero fun w _ => by rw [outside w]; rfl
  have hadding : adding s.sema.threads = 0 := Finset.sum_eq_zero fun w _ => by rw [outside w]; rfl
  have howed : ∑ w, owed (s.users w) = 0 := Finset.sum_eq_zero fun w _ => by rw [idle w]; rfl
  simp only [Backed, none, Finset.card_empty] at backed
  simp only [stock, hheld, hadding, howed] at counted
  simp only [State.sizeApprox]
  omega

theorem size_of_idle_one : ∃ trace s, Run BlockingQueue.Step
    (BlockingQueue.start : BlockingQueue.State (Fin 2) ℕ) trace s ∧ s.sizeApprox = 1 ∧
    s.sizeApprox = ∑ p, (s.inner p).length := by
  have run := @advance_run _ _ BlockingQueue.step
    (BlockingQueue.start : BlockingQueue.State (Fin 2) ℕ) _
    [.enqueue 0 7, .link 0, .sema (.move 0), .signalled 0] rfl
  exact ⟨_, _, run, by decide +kernel, size_of_idle run (by decide +kernel)⟩

/-- A dequeue hangs only while there is nothing to dequeue: where one sleeps and nobody can go on
or has got through the semaphore, every list is empty. -/
theorem empty_of_asleep (run : Run BlockingQueue.Step BlockingQueue.start trace s)
    (blocked : ∀ v, LightweightSemaphore.step s.sema (.move v) = none)
    (idle : ∀ v, s.users v = .outside ∨ ∃ max wait, s.users v = .waiting max ∧
      s.sema.threads v = .sleeping wait)
    {w : ι} {wait : Wait} (asleep : s.sema.threads w = .sleeping wait) (p : ι) :
    s.inner p = [] := by
  obtain ⟨backed, counted, _, fits⟩ := settled_of_run run
  have hheld : held s.sema.threads = 0 := by
    refine Finset.sum_eq_zero fun v _ => ?_
    rcases idle v with outside | ⟨max, wait, _, sleeping⟩
    · have hv := fits v
      rw [outside] at hv
      rw [show s.sema.threads v = .outside from hv]
      rfl
    · rw [sleeping]
      rfl
  have howed : ∑ v, owed (s.users v) = 0 := by
    refine Finset.sum_eq_zero fun v _ => ?_
    rcases idle v with outside | ⟨max, wait, waiting, _⟩
    · rw [outside]
      rfl
    · rw [waiting]
      rfl
  obtain ⟨_, rest⟩ := used_up backed blocked (w := w) (by rw [asleep]; exact nofun)
    fun r => by rw [asleep]; exact nofun
  rw [rest, hheld, howed] at counted
  exact List.length_eq_zero_iff.mp (Finset.sum_eq_zero_iff.mp counted p (Finset.mem_univ p))

omit [Fintype ι] in
lemma run_sema {r r' : LightweightSemaphore.State ι}
    {moves : List (LightweightSemaphore.State ι × LightweightSemaphore.Label ι)}
    (run : Run LightweightSemaphore.Step r moves r') (s : BlockingQueue.State ι α)
    (inside : ∀ x ∈ moves, internal x.2 = true) :
    ∃ trace, Run BlockingQueue.Step { s with sema := r } trace { s with sema := r' } := by
  induction run with
  | refl => exact ⟨[], .refl⟩
  | @snoc past a b c prior last ih =>
    obtain ⟨trace, run⟩ := ih fun x hx => inside x (List.mem_append_left _ hx)
    have hc : internal c = true := inside (a, c) (List.mem_append_right _ (List.mem_singleton_self _))
    have next : BlockingQueue.step { s with sema := a } (.sema c) = some { s with sema := b } := by
      simp only [BlockingQueue.step, if_pos hc]
      rw [show LightweightSemaphore.step a c = some b from last]
      rfl
    exact ⟨_, run.snoc next⟩

omit [Fintype ι] in
lemma falls_asleep {w : ι} (outside : s.users w = .outside)
    (free : s.sema.threads w = .outside) (none : s.sema.count ≤ 0) :
    ∃ trace, Run BlockingQueue.Step s trace { s with
      sema := { s.sema with count := s.sema.count - 1 }.set w (.sleeping ⟨1, Nat.one_pos, true⟩)
      users := Function.update s.users w (.waiting 1) } := by
  obtain ⟨moves, spins, own⟩ := spins_out (s := s.sema) (w := w) ⟨1, Nat.one_pos, true⟩ spinCount none
  obtain ⟨trace, run⟩ := run_sema spins { s with users := Function.update s.users w (.waiting 1) }
    fun x hx => by rw [own x hx]; rfl
  have call : BlockingQueue.step s (waitDequeueTimed w) = some { s with
      sema := s.sema.set w (.loading (.beforeWaiting true) 1)
      users := Function.update s.users w (.waiting 1) } := by
    simp [BlockingQueue.step, waitDequeueTimed, State.withSema, LightweightSemaphore.step, outside,
      free, BlockingQueue.State.setUser]
  have look : BlockingQueue.step { s with
      sema := s.sema.set w (.loading (.beforeWaiting true) 1)
      users := Function.update s.users w (.waiting 1) } (.sema (.move w)) = some { s with
      sema := s.sema.set w (.spinning ⟨1, Nat.one_pos, true⟩ spinCount)
      users := Function.update s.users w (.waiting 1) } := by
    simp [BlockingQueue.step, internal, LightweightSemaphore.step, moveAt, State.look,
      none.not_gt, Purpose.next]
  exact ⟨_, ((Run.one call).snoc look).trans run⟩

/-- A single thread that has taken its element and waits for another one. -/
theorem empty_of_asleep_alone : ∃ trace s, Run BlockingQueue.Step
    (BlockingQueue.start : BlockingQueue.State Unit ℕ) trace s ∧
    dequeued (trace.take 10) = [((), 7)] ∧
    s.sema.threads () = .sleeping ⟨1, Nat.one_pos, true⟩ ∧ s.inner () = [] := by
  let first : List (BlockingQueue.Label Unit ℕ) := [.enqueue () 7, .link (), .sema (.move ()),
    .signalled (), waitDequeueTimed (), .sema (.move ()), .sema (.move ()), .acquired (),
    .take () () 1, .finish ()]
  let t := (advance BlockingQueue.step BlockingQueue.start first).get rfl
  have taken : Run BlockingQueue.Step BlockingQueue.start
      (advanceTrace BlockingQueue.step BlockingQueue.start first) t :=
    advance_run (Option.some_get _).symm
  obtain ⟨rest, waits⟩ := falls_asleep (s := t) (w := ()) rfl rfl (by decide)
  have run := taken.trans waits
  have asleep : (LightweightSemaphore.State.set { t.sema with count := t.sema.count - 1 } ()
      (.sleeping ⟨1, Nat.one_pos, true⟩)).threads () = .sleeping ⟨1, Nat.one_pos, true⟩ := set_same ..
  refine ⟨_, _, run, ?_, asleep, empty_of_asleep run (fun _ => rfl) ?_ asleep ()⟩
  · rw [List.take_left' (by decide)]
    decide
  · exact fun _ => .inr ⟨1, ⟨1, Nat.one_pos, true⟩, rfl, asleep⟩

end ClientPrefs.QueueDelivery
