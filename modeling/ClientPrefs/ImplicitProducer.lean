import ClientPrefs.Reservations
import ClientPrefs.Sentinels

/-!
# The lock-free list of one enqueuing thread

`ImplicitProducer` of the concurrent queue: one thread enqueues, and any number of threads attempt
to dequeue, each access of an atomic variable or of an element being a step of its own. The
accesses are taken in the order in which a thread makes them, the indices are below `2 ^ 63`, so
that no comparison wraps around, and the blocks and their index are one array without an end.
-/
namespace ClientPrefs.ImplicitProducer
open Transition

variable {ι α : Type*}

inductive Producer (α : Type*)
  | outside
  | enqueuing (element : α)
  | constructing (element : α) (currentTailIndex : ℕ)
  | storing (newTailIndex : ℕ)
  deriving DecidableEq, Repr

/-- Where a dequeuing thread is in `dequeue_bulk`, each place before the access of its name. -/
inductive Consumer (α : Type*)
  | outside
  | loadingTail (max : ℕ)
  | loadingOvercommit (max tail : ℕ)
  | loadingCount (max tail overcommit : ℕ)
  | reserving (desiredCount overcommit : ℕ)
  | reloadingTail (desiredCount overcommit myDequeueCount : ℕ)
  | returning (surplus actualCount : ℕ)
  | claiming (actualCount : ℕ)
  | moving (index stop : ℕ) (got : List α)
  | done (got : List α)
  deriving DecidableEq, Repr

structure State (ι α : Type*) where
  tailIndex : ℕ
  headIndex : ℕ
  dequeueOptimisticCount : ℕ
  dequeueOvercommit : ℕ
  cells : ℕ → Option α
  producer : Producer α
  consumers : ι → Consumer α

def start : State ι α where
  tailIndex := 0
  headIndex := 0
  dequeueOptimisticCount := 0
  dequeueOvercommit := 0
  cells := fun _ => none
  producer := .outside
  consumers := fun _ => .outside

inductive Label (ι α : Type*)
  | enqueue (element : α)
  /-- No memory is left for a new block. -/
  | refuse
  /-- The next access of the enqueuing thread. -/
  | produce
  | dequeueBulk (w : ι) (max : ℕ)
  /-- The next access of a dequeuing thread. -/
  | consume (w : ι)
  | leave (w : ι)
  deriving DecidableEq, Repr

/-- `dequeue` makes the accesses of `dequeue_bulk` for one element. -/
def dequeue (w : ι) : Label ι α := .dequeueBulk w 1

/-- Behind the test of `actualCount`. -/
def Consumer.claim (actualCount : ℕ) : Consumer α :=
  if 0 < actualCount then .claiming actualCount else .done []

def State.access (s : State ι α) : Consumer α → Option (State ι α × Consumer α)
  | .loadingTail max => some (s, .loadingOvercommit max s.tailIndex)
  | .loadingOvercommit max tail => some (s, .loadingCount max tail s.dequeueOvercommit)
  | .loadingCount max tail overcommit =>
    -- `desiredCount` is `tail - (dequeueOptimisticCount - overcommit)`
    let desiredCount := tail + overcommit - s.dequeueOptimisticCount
    some (s, if 0 < desiredCount then .reserving (min desiredCount max) overcommit else .done [])
  | .reserving desiredCount overcommit =>
    some ({ s with dequeueOptimisticCount := s.dequeueOptimisticCount + desiredCount },
      .reloadingTail desiredCount overcommit s.dequeueOptimisticCount)
  | .reloadingTail desiredCount overcommit myDequeueCount =>
    let actualCount := min desiredCount (s.tailIndex + overcommit - myDequeueCount)
    some (s, if actualCount < desiredCount then .returning (desiredCount - actualCount) actualCount
      else .claiming actualCount)
  | .returning surplus actualCount =>
    some ({ s with dequeueOvercommit := s.dequeueOvercommit + surplus }, .claim actualCount)
  | .claiming actualCount =>
    some ({ s with headIndex := s.headIndex + actualCount },
      .moving s.headIndex (s.headIndex + actualCount) [])
  | .moving index stop got =>
    match s.cells index with
    | some element =>
      some ({ s with cells := Function.update s.cells index none },
        if index + 1 = stop then .done (got ++ [element])
        else .moving (index + 1) stop (got ++ [element]))
    | none => none
  | _ => none

def State.produce (s : State ι α) : Option (State ι α) :=
  match s.producer with
  | .enqueuing element => some { s with producer := .constructing element s.tailIndex }
  | .constructing element currentTailIndex => some { s with
      cells := Function.update s.cells currentTailIndex (some element)
      producer := .storing (currentTailIndex + 1) }
  | .storing newTailIndex => some { s with tailIndex := newTailIndex, producer := .outside }
  | .outside => none

/-- Everything that one access of a dequeuing thread can do. -/
inductive Access (s : State ι α) : Consumer α → State ι α → Consumer α → Prop
  | loadTail (max : ℕ) : Access s (.loadingTail max) s (.loadingOvercommit max s.tailIndex)
  | loadOvercommit (max tail : ℕ) :
      Access s (.loadingOvercommit max tail) s (.loadingCount max tail s.dequeueOvercommit)
  | loadCount (max tail overcommit : ℕ)
      (some : 0 < tail + overcommit - s.dequeueOptimisticCount) :
      Access s (.loadingCount max tail overcommit) s
        (.reserving (min (tail + overcommit - s.dequeueOptimisticCount) max) overcommit)
  | nothing (max tail overcommit : ℕ)
      (none : tail + overcommit - s.dequeueOptimisticCount = 0) :
      Access s (.loadingCount max tail overcommit) s (.done [])
  | reserve (desiredCount overcommit : ℕ) : Access s (.reserving desiredCount overcommit)
      { s with dequeueOptimisticCount := s.dequeueOptimisticCount + desiredCount }
      (.reloadingTail desiredCount overcommit s.dequeueOptimisticCount)
  | enough (desiredCount overcommit myDequeueCount : ℕ)
      (there : desiredCount ≤ s.tailIndex + overcommit - myDequeueCount) :
      Access s (.reloadingTail desiredCount overcommit myDequeueCount) s (.claiming desiredCount)
  | short (desiredCount overcommit myDequeueCount actualCount : ℕ)
      (there : actualCount = s.tailIndex + overcommit - myDequeueCount)
      (less : actualCount < desiredCount) :
      Access s (.reloadingTail desiredCount overcommit myDequeueCount) s
        (.returning (desiredCount - actualCount) actualCount)
  | giveBack (surplus actualCount : ℕ) : Access s (.returning surplus actualCount)
      { s with dequeueOvercommit := s.dequeueOvercommit + surplus } (.claim actualCount)
  | claim (actualCount : ℕ) : Access s (.claiming actualCount)
      { s with headIndex := s.headIndex + actualCount }
      (.moving s.headIndex (s.headIndex + actualCount) [])
  | move (index stop : ℕ) (got : List α) (element : α) (full : s.cells index = .some element) :
      Access s (.moving index stop got) { s with cells := Function.update s.cells index .none }
        (if index + 1 = stop then .done (got ++ [element])
          else .moving (index + 1) stop (got ++ [element]))

lemma access_cases {s t : State ι α} {p q : Consumer α} (h : s.access p = some (t, q)) :
    Access s p t q := by
  cases p with
  | outside => cases h
  | loadingTail max =>
    cases h
    exact .loadTail max
  | loadingOvercommit max tail =>
    cases h
    exact .loadOvercommit max tail
  | loadingCount max tail overcommit =>
    simp only [State.access] at h
    split_ifs at h with positive
    · cases h
      exact .loadCount max tail overcommit positive
    · cases h
      exact .nothing max tail overcommit (by omega)
  | reserving desiredCount overcommit =>
    cases h
    exact .reserve desiredCount overcommit
  | reloadingTail desiredCount overcommit myDequeueCount =>
    simp only [State.access] at h
    split_ifs at h with less
    · cases h
      have all : min desiredCount (s.tailIndex + overcommit - myDequeueCount) =
          s.tailIndex + overcommit - myDequeueCount := Nat.min_eq_right (by omega)
      rw [all] at less ⊢
      exact .short desiredCount overcommit myDequeueCount _ rfl less
    · cases h
      have all : min desiredCount (s.tailIndex + overcommit - myDequeueCount) = desiredCount :=
        Nat.min_eq_left (by omega)
      rw [all]
      exact .enough desiredCount overcommit myDequeueCount (by omega)
  | returning surplus actualCount =>
    cases h
    exact .giveBack surplus actualCount
  | claiming actualCount =>
    cases h
    exact .claim actualCount
  | moving index stop got =>
    simp only [State.access] at h
    split at h
    · next element full =>
      cases h
      exact .move index stop got element full
    · cases h
  | done got => cases h

section Definitions
variable [DecidableEq ι]

def State.setConsumer (s : State ι α) (w : ι) (p : Consumer α) : State ι α :=
  { s with consumers := Function.update s.consumers w p }

def step (s : State ι α) : Label ι α → Option (State ι α)
  | .enqueue element =>
    match s.producer with
    | .outside => some { s with producer := .enqueuing element }
    | _ => none
  | .refuse =>
    match s.producer with
    | .constructing _ _ => some { s with producer := .outside }
    | _ => none
  | .produce => s.produce
  | .dequeueBulk w max =>
    match s.consumers w with
    | .outside => if 0 < max then some (s.setConsumer w (.loadingTail max)) else none
    | _ => none
  | .consume w => (s.access (s.consumers w)).map fun x => x.1.setConsumer w x.2
  | .leave w =>
    match s.consumers w with
    | .done _ => some (s.setConsumer w .outside)
    | _ => none

abbrev Step (s : State ι α) (l : Label ι α) (t : State ι α) : Prop := step s l = some t

inductive Steps (s : State ι α) : Label ι α → State ι α → Prop
  | enqueue (element : α) (outside : s.producer = .outside) :
      Steps s (.enqueue element) { s with producer := .enqueuing element }
  | refuse (element : α) (index : ℕ) (constructing : s.producer = .constructing element index) :
      Steps s .refuse { s with producer := .outside }
  | loadIndex (element : α) (enqueuing : s.producer = .enqueuing element) :
      Steps s .produce { s with producer := .constructing element s.tailIndex }
  | construct (element : α) (index : ℕ) (constructing : s.producer = .constructing element index) :
      Steps s .produce { s with
        cells := Function.update s.cells index (some element)
        producer := .storing (index + 1) }
  | store (index : ℕ) (storing : s.producer = .storing index) :
      Steps s .produce { s with tailIndex := index, producer := .outside }
  | dequeueBulk (w : ι) (max : ℕ) (outside : s.consumers w = .outside) (positive : 0 < max) :
      Steps s (.dequeueBulk w max) (s.setConsumer w (.loadingTail max))
  | consume (w : ι) (t : State ι α) (q : Consumer α) (access : Access s (s.consumers w) t q) :
      Steps s (.consume w) (t.setConsumer w q)
  | leave (w : ι) (got : List α) (done : s.consumers w = .done got) :
      Steps s (.leave w) (s.setConsumer w .outside)

variable {s t : State ι α} {l : Label ι α}

lemma step_cases (h : step s l = some t) : Steps s l t := by
  cases l with
  | enqueue element =>
    simp only [step] at h
    split at h
    · next outside =>
      cases h
      exact .enqueue element outside
    · cases h
  | refuse =>
    simp only [step] at h
    split at h
    · next element index constructing =>
      cases h
      exact .refuse element index constructing
    · cases h
  | produce =>
    simp only [step, State.produce] at h
    split at h
    · next element enqueuing =>
      cases h
      exact .loadIndex element enqueuing
    · next element index constructing =>
      cases h
      exact .construct element index constructing
    · next index storing =>
      cases h
      exact .store index storing
    · cases h
  | dequeueBulk w max =>
    simp only [step] at h
    split at h
    · next outside =>
      split_ifs at h with positive
      cases h
      exact .dequeueBulk w max outside positive
    · cases h
  | consume w =>
    obtain ⟨⟨u, q⟩, access, rfl⟩ := Option.map_eq_some_iff.mp h
    exact .consume w u q (access_cases access)
  | leave w =>
    simp only [step] at h
    split at h
    · next got done =>
      cases h
      exact .leave w got done
    · cases h

end Definitions

end ClientPrefs.ImplicitProducer
