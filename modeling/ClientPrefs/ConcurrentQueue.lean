import ClientPrefs.BlockingQueue
import ClientPrefs.ImplicitProducer

/-!
# The blocking queue with its lock-free lists

`BlockingConcurrentQueue` for any number of threads, in which `inner` is what it is in the source:
an implicit producer for each thread that enqueues, every access of which is a step. Which list a
dequeue attempts next is left open.
-/
namespace ClientPrefs.ConcurrentQueue
open BlockingQueue (internal)
open LightweightSemaphore (Thread)
open Transition

variable {ι α : Type*}

inductive User (ι α : Type*)
  | outside
  | enqueuing (item : α)
  | signalling
  | waiting (max : ℕ)
  | taking (want : ℕ) (got : List α)
  /-- In `dequeue_bulk` of the list of thread `p`. -/
  | attempting (p : ι) (want : ℕ) (got : List α)
  deriving DecidableEq, Repr

structure State (ι α : Type*) where
  sema : LightweightSemaphore.State ι
  producers : ι → ImplicitProducer.State ι α
  users : ι → User ι α

def start : State ι α where
  sema := LightweightSemaphore.start 0
  producers := fun _ => ImplicitProducer.start
  users := fun _ => .outside

inductive Label (ι α : Type*)
  | enqueue (w : ι) (item : α)
  | refuse (w : ι)
  /-- The next access of `inner.enqueue`; the last one leads into `sema->signal`. -/
  | produce (w : ι)
  | signalled (w : ι)
  | waitDequeueBulk (w : ι) (max : ℕ) (timed : Bool)
  | tryDequeueBulk (w : ι) (max : ℕ)
  | sema (l : LightweightSemaphore.Label ι)
  | acquired (w : ι)
  /-- An attempt on the list of thread `p`: its call, its accesses and its return. -/
  | attempt (w p : ι)
  | consume (w : ι)
  | attempted (w : ι)
  | finish (w : ι)
  deriving DecidableEq, Repr

section Definitions
variable [DecidableEq ι]

def State.setUser (s : State ι α) (w : ι) (user : User ι α) : State ι α :=
  { s with users := Function.update s.users w user }

def State.setProducer (s : State ι α) (p : ι) (q : ImplicitProducer.State ι α) : State ι α :=
  { s with producers := Function.update s.producers p q }

def State.withSema (s : State ι α) (l : LightweightSemaphore.Label ι) (w : ι) (user : User ι α) :
    Option (State ι α) :=
  (LightweightSemaphore.step s.sema l).map fun sema => { s with sema := sema }.setUser w user

/-- A step of the list of thread `p`, with the user `w` at its next place. -/
def State.withProducer (s : State ι α) (p : ι) (l : ImplicitProducer.Label ι α) (w : ι)
    (user : User ι α) : Option (State ι α) :=
  (ImplicitProducer.step (s.producers p) l).map fun q => (s.setProducer p q).setUser w user

def step (s : State ι α) : Label ι α → Option (State ι α)
  | .enqueue w item =>
    match s.users w with
    | .outside => s.withProducer w (.enqueue item) w (.enqueuing item)
    | _ => none
  | .refuse w =>
    match s.users w with
    | .enqueuing _ => s.withProducer w .refuse w .outside
    | _ => none
  | .produce w =>
    match s.users w with
    | .enqueuing item =>
      (ImplicitProducer.step (s.producers w) .produce).bind fun q =>
        match q.producer with
        | .outside => (s.setProducer w q).withSema (.signal w 1) w .signalling
        | _ => some ((s.setProducer w q).setUser w (.enqueuing item))
    | _ => none
  | .signalled w =>
    match s.users w, s.sema.threads w with
    | .signalling, .outside => some (s.setUser w .outside)
    | _, _ => none
  | .waitDequeueBulk w max timed =>
    match s.users w with
    | .outside => s.withSema (.waitMany w max timed) w (.waiting max)
    | _ => none
  | .tryDequeueBulk w max =>
    match s.users w with
    | .outside => s.withSema (.tryWaitMany w max) w (.waiting max)
    | _ => none
  | .sema l =>
    if internal l then
      (LightweightSemaphore.step s.sema l).map fun sema => { s with sema := sema }
    else none
  | .acquired w =>
    match s.users w, s.sema.threads w with
    | .waiting _, .done result => s.withSema (.leave w) w (.taking result [])
    | _, _ => none
  | .attempt w p =>
    match s.users w with
    | .taking want got =>
      s.withProducer p (.dequeueBulk w (want - got.length)) w (.attempting p want got)
    | _ => none
  | .consume w =>
    match s.users w with
    | .attempting p want got => s.withProducer p (.consume w) w (.attempting p want got)
    | _ => none
  | .attempted w =>
    match s.users w with
    | .attempting p want got =>
      match (s.producers p).consumers w with
      | .done batch => s.withProducer p (.leave w) w (.taking want (got ++ batch))
      | _ => none
    | _ => none
  | .finish w =>
    match s.users w with
    | .taking want got => if got.length = want then some (s.setUser w .outside) else none
    | _ => none

abbrev Step (s : State ι α) (l : Label ι α) (t : State ι α) : Prop := step s l = some t

inductive Steps (s : State ι α) : Label ι α → State ι α → Prop
  | enqueue (w : ι) (item : α) (q : ImplicitProducer.State ι α) (outside : s.users w = .outside)
      (call : ImplicitProducer.Step (s.producers w) (.enqueue item) q) :
      Steps s (.enqueue w item) ((s.setProducer w q).setUser w (.enqueuing item))
  | refuse (w : ι) (item : α) (q : ImplicitProducer.State ι α)
      (enqueuing : s.users w = .enqueuing item)
      (call : ImplicitProducer.Step (s.producers w) .refuse q) :
      Steps s (.refuse w) ((s.setProducer w q).setUser w .outside)
  | produce (w : ι) (item : α) (q : ImplicitProducer.State ι α)
      (enqueuing : s.users w = .enqueuing item)
      (call : ImplicitProducer.Step (s.producers w) .produce q) (inside : q.producer ≠ .outside) :
      Steps s (.produce w) ((s.setProducer w q).setUser w (.enqueuing item))
  | link (w : ι) (item : α) (q : ImplicitProducer.State ι α) (sema : LightweightSemaphore.State ι)
      (enqueuing : s.users w = .enqueuing item)
      (call : ImplicitProducer.Step (s.producers w) .produce q) (ended : q.producer = .outside)
      (signal : LightweightSemaphore.Step s.sema (.signal w 1) sema) :
      Steps s (.produce w) ({ s.setProducer w q with sema := sema }.setUser w .signalling)
  | signalled (w : ι) (signalling : s.users w = .signalling)
      (ended : s.sema.threads w = .outside) : Steps s (.signalled w) (s.setUser w .outside)
  | waitDequeueBulk (w : ι) (max : ℕ) (timed : Bool) (sema : LightweightSemaphore.State ι)
      (outside : s.users w = .outside)
      (call : LightweightSemaphore.Step s.sema (.waitMany w max timed) sema) :
      Steps s (.waitDequeueBulk w max timed) ({ s with sema := sema }.setUser w (.waiting max))
  | tryDequeueBulk (w : ι) (max : ℕ) (sema : LightweightSemaphore.State ι)
      (outside : s.users w = .outside)
      (call : LightweightSemaphore.Step s.sema (.tryWaitMany w max) sema) :
      Steps s (.tryDequeueBulk w max) ({ s with sema := sema }.setUser w (.waiting max))
  | sema (l : LightweightSemaphore.Label ι) (sema : LightweightSemaphore.State ι)
      (inside : internal l = true) (move : LightweightSemaphore.Step s.sema l sema) :
      Steps s (.sema l) { s with sema := sema }
  | acquired (w : ι) (max result : ℕ) (sema : LightweightSemaphore.State ι)
      (waiting : s.users w = .waiting max) (done : s.sema.threads w = .done result)
      (call : LightweightSemaphore.Step s.sema (.leave w) sema) :
      Steps s (.acquired w) ({ s with sema := sema }.setUser w (.taking result []))
  | attempt (w p : ι) (want : ℕ) (got : List α) (q : ImplicitProducer.State ι α)
      (taking : s.users w = .taking want got)
      (call : ImplicitProducer.Step (s.producers p) (.dequeueBulk w (want - got.length)) q) :
      Steps s (.attempt w p) ((s.setProducer p q).setUser w (.attempting p want got))
  | consume (w p : ι) (want : ℕ) (got : List α) (q : ImplicitProducer.State ι α)
      (attempting : s.users w = .attempting p want got)
      (access : ImplicitProducer.Step (s.producers p) (.consume w) q) :
      Steps s (.consume w) ((s.setProducer p q).setUser w (.attempting p want got))
  | attempted (w p : ι) (want : ℕ) (got batch : List α) (q : ImplicitProducer.State ι α)
      (attempting : s.users w = .attempting p want got)
      (done : (s.producers p).consumers w = .done batch)
      (ret : ImplicitProducer.Step (s.producers p) (.leave w) q) :
      Steps s (.attempted w) ((s.setProducer p q).setUser w (.taking want (got ++ batch)))
  | finish (w : ι) (want : ℕ) (got : List α) (taking : s.users w = .taking want got)
      (all : got.length = want) : Steps s (.finish w) (s.setUser w .outside)

variable {s t : State ι α} {l : Label ι α}

lemma withSema_some {c : LightweightSemaphore.Label ι} {w : ι} {user : User ι α}
    (h : s.withSema c w user = some t) : ∃ sema, LightweightSemaphore.Step s.sema c sema ∧
      t = { s with sema := sema }.setUser w user := by
  obtain ⟨sema, call, rfl⟩ := Option.map_eq_some_iff.mp h
  exact ⟨sema, call, rfl⟩

lemma withProducer_some {p : ι} {c : ImplicitProducer.Label ι α} {w : ι} {user : User ι α}
    (h : s.withProducer p c w user = some t) : ∃ q, ImplicitProducer.Step (s.producers p) c q ∧
      t = (s.setProducer p q).setUser w user := by
  obtain ⟨q, call, rfl⟩ := Option.map_eq_some_iff.mp h
  exact ⟨q, call, rfl⟩

lemma step_cases (h : step s l = some t) : Steps s l t := by
  cases l with
  | enqueue w item =>
    simp only [step] at h
    split at h
    · next outside =>
      obtain ⟨q, call, rfl⟩ := withProducer_some h
      exact .enqueue w item q outside call
    · cases h
  | refuse w =>
    simp only [step] at h
    split at h
    · next item enqueuing =>
      obtain ⟨q, call, rfl⟩ := withProducer_some h
      exact .refuse w item q enqueuing call
    · cases h
  | produce w =>
    simp only [step] at h
    split at h
    · next item enqueuing =>
      obtain ⟨q, call, h⟩ := Option.bind_eq_some_iff.mp h
      split at h
      · next ended =>
        obtain ⟨sema, signal, rfl⟩ := withSema_some h
        exact .link w item q sema enqueuing call ended signal
      · next inside =>
        obtain rfl := Option.some.inj h
        exact .produce w item q enqueuing call inside
    · cases h
  | signalled w =>
    simp only [step] at h
    split at h
    · next signalling ended =>
      obtain rfl := Option.some.inj h
      exact .signalled w signalling ended
    · cases h
  | waitDequeueBulk w max timed =>
    simp only [step] at h
    split at h
    · next outside =>
      obtain ⟨sema, call, rfl⟩ := withSema_some h
      exact .waitDequeueBulk w max timed sema outside call
    · cases h
  | tryDequeueBulk w max =>
    simp only [step] at h
    split at h
    · next outside =>
      obtain ⟨sema, call, rfl⟩ := withSema_some h
      exact .tryDequeueBulk w max sema outside call
    · cases h
  | sema l =>
    simp only [step] at h
    split at h
    · next inside =>
      obtain ⟨sema, move, rfl⟩ := Option.map_eq_some_iff.mp h
      exact .sema l sema inside move
    · cases h
  | acquired w =>
    simp only [step] at h
    split at h
    · next max result waiting done =>
      obtain ⟨sema, call, rfl⟩ := withSema_some h
      exact .acquired w max result sema waiting done call
    · cases h
  | attempt w p =>
    simp only [step] at h
    split at h
    · next want got taking =>
      obtain ⟨q, call, rfl⟩ := withProducer_some h
      exact .attempt w p want got q taking call
    · cases h
  | consume w =>
    simp only [step] at h
    split at h
    · next p want got attempting =>
      obtain ⟨q, access, rfl⟩ := withProducer_some h
      exact .consume w p want got q attempting access
    · cases h
  | attempted w =>
    simp only [step] at h
    split at h
    · next p want got attempting =>
      split at h
      · next batch done =>
        obtain ⟨q, ret, rfl⟩ := withProducer_some h
        exact .attempted w p want got batch q attempting done ret
      · cases h
    · cases h
  | finish w =>
    simp only [step] at h
    split at h
    · next want got taking =>
      split at h
      · next all =>
        obtain rfl := Option.some.inj h
        exact .finish w want got taking all
      · cases h
    · cases h

end Definitions

end ClientPrefs.ConcurrentQueue
