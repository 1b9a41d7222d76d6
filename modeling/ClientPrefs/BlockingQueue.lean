import ClientPrefs.SemaphoreRefinement

/-!
# The blocking queue

`BlockingConcurrentQueue` for any number of threads: the lock-free queue `inner` and the semaphore
that counts its elements. `inner` has a list for each enqueuing thread, which an enqueue and an
attempt to dequeue change at once; that the lock-free lists of the source do no more than this is
`QueueRefinement.refines_lists`. An attempt takes some elements of one list, or none.
-/
namespace ClientPrefs.BlockingQueue
open LightweightSemaphore SemaphoreRefinement Transition

variable {ι α : Type*}

inductive User (α : Type*)
  | outside
  /-- In `enqueue`: at `inner.enqueue`, and in `sema->signal`. -/
  | enqueuing (item : α)
  | signalling
  /-- In a dequeue of at most `max` elements: in the semaphore, and in the loop on `inner`. -/
  | waiting (max : ℕ)
  | taking (want : ℕ) (got : List α)
  deriving DecidableEq, Repr

structure State (ι α : Type*) where
  sema : LightweightSemaphore.State ι
  inner : ι → List α
  users : ι → User α

def start : State ι α where
  sema := LightweightSemaphore.start 0
  inner := fun _ => []
  users := fun _ => .outside

inductive Label (ι α : Type*)
  | enqueue (w : ι) (item : α)
  /-- `inner.enqueue` finds no memory; or it has linked the element. -/
  | refuse (w : ι)
  | link (w : ι)
  | signalled (w : ι)
  | waitDequeueBulk (w : ι) (max : ℕ) (timed : Bool)
  | tryDequeueBulk (w : ι) (max : ℕ)
  /-- A thread moves on in the semaphore. -/
  | sema (l : LightweightSemaphore.Label ι)
  | acquired (w : ι)
  /-- An attempt on `inner` that takes `k` elements of thread `p`. -/
  | take (w p : ι) (k : ℕ)
  | finish (w : ι)
  deriving DecidableEq, Repr

/-- `wait_dequeue` and `try_dequeue` take one element. -/
def waitDequeue (w : ι) : Label ι α := .waitDequeueBulk w 1 false

def waitDequeueTimed (w : ι) : Label ι α := .waitDequeueBulk w 1 true

def tryDequeue (w : ι) : Label ι α := .tryDequeueBulk w 1

def State.sizeApprox (s : State ι α) : ℕ := s.sema.count.toNat

def internal : LightweightSemaphore.Label ι → Bool
  | .move _ | .spurious _ | .expire _ => true
  | _ => false

section Definitions
variable [DecidableEq ι]

def State.setUser (s : State ι α) (w : ι) (user : User α) : State ι α :=
  { s with users := Function.update s.users w user }

/-- A step of the semaphore, with the user `w` at its next place. -/
def State.withSema (s : State ι α) (l : LightweightSemaphore.Label ι) (w : ι) (user : User α) :
    Option (State ι α) :=
  (LightweightSemaphore.step s.sema l).map fun sema => { s with sema := sema }.setUser w user

def step (s : State ι α) : Label ι α → Option (State ι α)
  | .enqueue w item =>
    match s.users w with
    | .outside => some (s.setUser w (.enqueuing item))
    | _ => none
  | .refuse w =>
    match s.users w with
    | .enqueuing _ => some (s.setUser w .outside)
    | _ => none
  | .link w =>
    match s.users w with
    | .enqueuing item =>
      { s with inner := Function.update s.inner w (s.inner w ++ [item]) }.withSema
        (.signal w 1) w .signalling
    | _ => none
  | .signalled w =>
    match s.users w, s.sema.threads w with
    | .signalling, .outside => some (s.setUser w .outside)
    | _, _ => none
  | .waitDequeueBulk w max timed =>
    match s.users w with
    | .outside => s.withSema (.waitMany w max timed) w (.waiting max)
    | _ => none
  | .tryDequeueBulk w max =>
    match s.users w with
    | .outside => s.withSema (.tryWaitMany w max) w (.waiting max)
    | _ => none
  | .sema l =>
    if internal l then
      (LightweightSemaphore.step s.sema l).map fun sema => { s with sema := sema }
    else none
  | .acquired w =>
    match s.users w, s.sema.threads w with
    | .waiting _, .done result => s.withSema (.leave w) w (.taking result [])
    | _, _ => none
  | .take w p k =>
    match s.users w with
    | .taking want got =>
      if k ≤ want - got.length ∧ k ≤ (s.inner p).length then
        some ({ s with inner := Function.update s.inner p ((s.inner p).drop k) }.setUser w
          (.taking want (got ++ (s.inner p).take k)))
      else none
    | _ => none
  | .finish w =>
    match s.users w with
    | .taking want got => if got.length = want then some (s.setUser w .outside) else none
    | _ => none

abbrev Step (s : State ι α) (l : Label ι α) (t : State ι α) : Prop := step s l = some t

inductive Steps (s : State ι α) : Label ι α → State ι α → Prop
  | enqueue (w : ι) (item : α) (outside : s.users w = .outside) :
      Steps s (.enqueue w item) (s.setUser w (.enqueuing item))
  | refuse (w : ι) (item : α) (enqueuing : s.users w = .enqueuing item) :
      Steps s (.refuse w) (s.setUser w .outside)
  | link (w : ι) (item : α) (sema : LightweightSemaphore.State ι)
      (enqueuing : s.users w = .enqueuing item)
      (call : LightweightSemaphore.Step s.sema (.signal w 1) sema) :
      Steps s (.link w) ({ s with
        sema := sema
        inner := Function.update s.inner w (s.inner w ++ [item]) }.setUser w .signalling)
  | signalled (w : ι) (signalling : s.users w = .signalling)
      (ended : s.sema.threads w = .outside) : Steps s (.signalled w) (s.setUser w .outside)
  | waitDequeueBulk (w : ι) (max : ℕ) (timed : Bool) (sema : LightweightSemaphore.State ι)
      (outside : s.users w = .outside)
      (call : LightweightSemaphore.Step s.sema (.waitMany w max timed) sema) :
      Steps s (.waitDequeueBulk w max timed) ({ s with sema := sema }.setUser w (.waiting max))
  | tryDequeueBulk (w : ι) (max : ℕ) (sema : LightweightSemaphore.State ι)
      (outside : s.users w = .outside)
      (call : LightweightSemaphore.Step s.sema (.tryWaitMany w max) sema) :
      Steps s (.tryDequeueBulk w max) ({ s with sema := sema }.setUser w (.waiting max))
  | sema (l : LightweightSemaphore.Label ι) (sema : LightweightSemaphore.State ι)
      (inside : internal l = true) (move : LightweightSemaphore.Step s.sema l sema) :
      Steps s (.sema l) { s with sema := sema }
  | acquired (w : ι) (max result : ℕ) (sema : LightweightSemaphore.State ι)
      (waiting : s.users w = .waiting max) (done : s.sema.threads w = .done result)
      (call : LightweightSemaphore.Step s.sema (.leave w) sema) :
      Steps s (.acquired w) ({ s with sema := sema }.setUser w (.taking result []))
  | take (w p : ι) (k want : ℕ) (got : List α) (taking : s.users w = .taking want got)
      (room : k ≤ want - got.length) (there : k ≤ (s.inner p).length) :
      Steps s (.take w p k)
        ({ s with inner := Function.update s.inner p ((s.inner p).drop k) }.setUser w
          (.taking want (got ++ (s.inner p).take k)))
  | finish (w : ι) (want : ℕ) (got : List α) (taking : s.users w = .taking want got)
      (all : got.length = want) : Steps s (.finish w) (s.setUser w .outside)

variable {s t : State ι α} {l : Label ι α}

lemma withSema_some {s : State ι α} {l : LightweightSemaphore.Label ι} {w : ι} {user : User α}
    (h : s.withSema l w user = some t) : ∃ sema, LightweightSemaphore.Step s.sema l sema ∧
      t = { s with sema := sema }.setUser w user := by
  obtain ⟨sema, call, rfl⟩ := Option.map_eq_some_iff.mp h
  exact ⟨sema, call, rfl⟩

theorem step_cases (h : step s l = some t) : Steps s l t := by
  cases l with
  | enqueue w item =>
    simp only [step] at h
    split at h
    · next outside =>
      obtain rfl := Option.some.inj h
      exact .enqueue w item outside
    · cases h
  | refuse w =>
    simp only [step] at h
    split at h
    · next item enqueuing =>
      obtain rfl := Option.some.inj h
      exact .refuse w item enqueuing
    · cases h
  | link w =>
    simp only [step] at h
    split at h
    · next item enqueuing =>
      obtain ⟨sema, call, rfl⟩ := withSema_some h
      exact .link w item sema enqueuing call
    · cases h
  | signalled w =>
    simp only [step] at h
    split at h
    · next signalling ended =>
      obtain rfl := Option.some.inj h
      exact .signalled w signalling ended
    · cases h
  | waitDequeueBulk w max timed =>
    simp only [step] at h
    split at h
    · next outside =>
      obtain ⟨sema, call, rfl⟩ := withSema_some h
      exact .waitDequeueBulk w max timed sema outside call
    · cases h
  | tryDequeueBulk w max =>
    simp only [step] at h
    split at h
    · next outside =>
      obtain ⟨sema, call, rfl⟩ := withSema_some h
      exact .tryDequeueBulk w max sema outside call
    · cases h
  | sema l =>
    simp only [step] at h
    split at h
    · next inside =>
      obtain ⟨sema, move, rfl⟩ := Option.map_eq_some_iff.mp h
      exact .sema l sema inside move
    · cases h
  | acquired w =>
    simp only [step] at h
    split at h
    · next max result waiting done =>
      obtain ⟨sema, call, rfl⟩ := withSema_some h
      exact .acquired w max result sema waiting done call
    · cases h
  | take w p k =>
    simp only [step] at h
    split at h
    · next want got taking =>
      split at h
      · next ok =>
        obtain rfl := Option.some.inj h
        exact .take w p k want got taking ok.1 ok.2
      · cases h
    · cases h
  | finish w =>
    simp only [step] at h
    split at h
    · next want got taking =>
      split at h
      · next all =>
        obtain rfl := Option.some.inj h
        exact .finish w want got taking all
      · cases h
    · cases h

end Definitions

end ClientPrefs.BlockingQueue
