import ClientPrefs.ConcurrentQueue
import ClientPrefs.ProducerRefinement

/-!
# The lock-free lists are lists

Seen through the elements that nobody has claimed, a run of the concurrent queue is a run of the
blocking queue, whose lists change at once. What a thread has claimed it has already got.
-/
namespace ClientPrefs.QueueRefinement
open ConcurrentQueue ProducerRefinement Transition
open ImplicitProducer (Producer Consumer Access)
open Sentinels (ofWorker ofWorker_map_same ofWorker_map_of_ne)

variable {ι α : Type*}

/-- How many elements a thread gets at most in its attempt. -/
def ceiling : Consumer α → ℕ
  | .outside => 0
  | .loadingTail max => max
  | .loadingOvercommit max _ => max
  | .loadingCount max _ _ => max
  | .reserving desiredCount _ => desiredCount
  | .reloadingTail desiredCount _ _ => desiredCount
  | .returning _ actualCount => actualCount
  | .claiming actualCount => actualCount
  | .moving index stop got => got.length + (stop - index)
  | .done got => got.length

lemma ceiling_claim (actualCount : ℕ) :
    ceiling (Consumer.claim actualCount : Consumer α) = actualCount := by
  unfold Consumer.claim
  split_ifs with positive
  · rfl
  · exact (Nat.eq_zero_of_not_pos positive).symm

lemma ceiling_access {s t : ImplicitProducer.State ι α} {p q : Consumer α}
    (positive : Positive p) (access : Access s p t q) : ceiling q ≤ ceiling p := by
  cases access with
  | loadTail max => exact le_rfl
  | loadOvercommit max tail => exact le_rfl
  | loadCount max tail overcommit => exact Nat.min_le_right _ _
  | nothing max tail overcommit => exact Nat.zero_le _
  | reserve desiredCount overcommit => exact le_rfl
  | enough desiredCount overcommit myDequeueCount => exact le_rfl
  | short desiredCount overcommit myDequeueCount actualCount there less => exact less.le
  | giveBack surplus actualCount => exact (ceiling_claim actualCount).le
  | claim actualCount =>
    simp only [ceiling, List.length_nil]
    omega
  | move index stop got element full =>
    have positive : index < stop := positive
    split_ifs <;> simp only [ceiling, List.length_append, List.length_singleton] <;> omega

/-- An enqueue that is under way has its element in its hands or in a cell. -/
def Carries (item : α) (s : ImplicitProducer.State ι α) : Prop :=
  match s.producer with
  | .outside => False
  | .enqueuing element => element = item
  | .constructing element _ => element = item
  | .storing _ => s.cells s.tailIndex = some item

/-- The lists are in the middle of an enqueue or of an attempt where their users are. -/
def Writes (s : ImplicitProducer.State ι α) : User ι α → Prop
  | .enqueuing item => Carries item s
  | _ => s.producer = .outside

def Reads [DecidableEq ι] (p : ι) (place : Consumer α) : User ι α → Prop
  | .attempting q want got =>
    if p = q then place ≠ .outside ∧ got.length + ceiling place ≤ want else place = .outside
  | _ => place = .outside

structure Linked [DecidableEq ι] [Fintype ι] (s : State ι α) : Prop where
  sound : ∀ p, Sound (s.producers p)
  writes : ∀ w, Writes (s.producers w) (s.users w)
  reads : ∀ p w, Reads p ((s.producers p).consumers w) (s.users w)

/-- What a thread looks like whose attempt is over at once. -/
def shown (producers : ι → ImplicitProducer.State ι α) (w : ι) : User ι α → BlockingQueue.User α
  | .outside => .outside
  | .enqueuing item => .enqueuing item
  | .signalling => .signalling
  | .waiting max => .waiting max
  | .taking want got => .taking want got
  | .attempting p want got =>
    .taking want (got ++ inHand (producers p).cells ((producers p).consumers w))

def view (s : State ι α) : BlockingQueue.State ι α where
  sema := s.sema
  inner p := contents (s.producers p)
  users w := shown s.producers w (s.users w)

/-- The step of the blocking queue that a step is. -/
def labelAt (s : State ι α) : Label ι α → Option (BlockingQueue.Label ι α)
  | .enqueue w item => some (.enqueue w item)
  | .refuse w => some (.refuse w)
  | .produce w =>
    match (s.producers w).producer with
    | .storing _ => some (.link w)
    | _ => none
  | .signalled w => some (.signalled w)
  | .waitDequeueBulk w max timed => some (.waitDequeueBulk w max timed)
  | .tryDequeueBulk w max => some (.tryDequeueBulk w max)
  | .sema l => some (.sema l)
  | .acquired w => some (.acquired w)
  | .consume w =>
    match s.users w with
    | .attempting p _ _ =>
      match (s.producers p).consumers w with
      | .claiming actualCount => some (.take w p actualCount)
      | _ => none
    | _ => none
  | .finish w => some (.finish w)
  | .attempt _ _ => none
  | .attempted _ => none

def shownRun (trace : List (State ι α × Label ι α)) :
    List (BlockingQueue.State ι α × BlockingQueue.Label ι α) :=
  trace.filterMap fun x => (labelAt x.1 x.2).map fun l => (view x.1, l)

/-- The blocking queue stays as it is, or takes the step. -/
def Forward [DecidableEq ι] : Option (BlockingQueue.Label ι α) → BlockingQueue.State ι α →
    BlockingQueue.State ι α → Prop
  | none, before, after => after = before
  | some l, before, after => BlockingQueue.Step before l after

section Lists
variable [DecidableEq ι] [Fintype ι] {s t : ImplicitProducer.State ι α} {w : ι}

def reader : ImplicitProducer.Label ι α → Option ι
  | .dequeueBulk w _ => some w
  | .consume w => some w
  | .leave w => some w
  | _ => none

omit [Fintype ι] in
lemma consumers_of_writer {c : ImplicitProducer.Label ι α} (call : ImplicitProducer.Step s c t)
    (writer : reader c = none) : t.consumers = s.consumers := by
  cases ImplicitProducer.step_cases call with
  | dequeueBulk w max => cases writer
  | consume w u q => cases writer
  | leave w got => cases writer
  | _ => rfl

omit [Fintype ι] in
lemma consumers_of_reader {c : ImplicitProducer.Label ι α} (call : ImplicitProducer.Step s c t)
    (reads : reader c = some w) {v : ι} (hv : v ≠ w) : t.consumers v = s.consumers v := by
  cases ImplicitProducer.step_cases call with
  | dequeueBulk u max =>
    obtain rfl := Option.some.inj reads
    exact Function.update_of_ne hv ..
  | consume u r q access =>
    obtain rfl := Option.some.inj reads
    refine (Function.update_of_ne hv ..).trans ?_
    generalize s.consumers u = place at access
    cases access <;> rfl
  | leave u got =>
    obtain rfl := Option.some.inj reads
    exact Function.update_of_ne hv ..
  | _ => cases reads

lemma writes_of_reader (sound : Sound s) {c : ImplicitProducer.Label ι α}
    (call : ImplicitProducer.Step s c t) (reads : reader c = some w) {user : User ι α}
    (writes : Writes s user) : Writes t user := by
  have same : t.producer = s.producer ∧ t.tailIndex = s.tailIndex ∧
      t.cells s.tailIndex = s.cells s.tailIndex := by
    cases ImplicitProducer.step_cases call with
    | dequeueBulk u max => exact ⟨rfl, rfl, rfl⟩
    | consume u r q access =>
      have claimed := sound.filled.claimed u
      have positive := sound.filled.positive u
      have ordered := sound.ordered
      generalize s.consumers u = place at access claimed positive
      cases access with
      | move index stop got element full =>
        have behind := (claimed index ⟨le_rfl, positive⟩).1
        exact ⟨rfl, rfl, Function.update_of_ne (behind.trans_le ordered).ne' ..⟩
      | _ => exact ⟨rfl, rfl, rfl⟩
    | leave u got => exact ⟨rfl, rfl, rfl⟩
    | _ => cases reads
  obtain ⟨producer, tail, cell⟩ := same
  cases user with
  | enqueuing item =>
    simp only [Writes, Carries, producer, tail, cell] at writes ⊢
    exact writes
  | _ => exact producer.trans writes

end Lists

section Links
variable [DecidableEq ι] [Fintype ι] {s t : State ι α} {l : Label ι α} {p w : ι} {user : User ι α}
  {c : ImplicitProducer.Label ι α} {q : ImplicitProducer.State ι α}

lemma Linked.start : Linked (ConcurrentQueue.start : State ι α) where
  sound _ := ⟨⟨[], .start⟩, .start⟩
  writes _ := rfl
  reads _ _ := rfl

lemma Linked.setUser (h : Linked s) (writes : Writes (s.producers w) user)
    (reads : ∀ r, Reads r ((s.producers r).consumers w) user) : Linked (s.setUser w user) where
  sound := h.sound
  writes v := by
    by_cases hv : v = w
    · subst hv
      simpa [State.setUser] using writes
    · simpa [State.setUser, hv] using h.writes v
  reads r v := by
    by_cases hv : v = w
    · subst hv
      simpa [State.setUser] using reads r
    · simpa [State.setUser, hv] using h.reads r v

lemma Linked.reader (h : Linked s) (call : ImplicitProducer.Step (s.producers p) c q)
    (byReader : reader c = some w) (silent : Writes (s.producers w) user)
    (own : Reads p (q.consumers w) user)
    (others : ∀ r, r ≠ p → Reads r ((s.producers r).consumers w) user) :
    Linked ((s.setProducer p q).setUser w user) where
  sound r := by
    by_cases hr : r = p
    · subst hr
      simpa [State.setUser, State.setProducer] using (h.sound r).step call
    · simpa [State.setUser, State.setProducer, hr] using h.sound r
  writes v := by
    have before : Writes (s.producers v) (Function.update s.users w user v) := by
      by_cases hv : v = w
      · rwa [hv, Function.update_self]
      · rw [Function.update_of_ne hv]
        exact h.writes v
    by_cases hp : v = p
    · subst hp
      simpa [State.setUser, State.setProducer] using
        writes_of_reader (h.sound v) call byReader before
    · simpa [State.setUser, State.setProducer, hp] using before
  reads r v := by
    by_cases hv : v = w
    · subst hv
      by_cases hr : r = p
      · subst hr
        simpa [State.setUser, State.setProducer] using own
      · simpa [State.setUser, State.setProducer, hr] using others r hr
    · have before := h.reads r v
      by_cases hr : r = p
      · subst hr
        rw [← consumers_of_reader call byReader hv] at before
        simpa [State.setUser, State.setProducer, hv] using before
      · simpa [State.setUser, State.setProducer, hv, hr] using before

lemma Linked.writer (h : Linked s) (call : ImplicitProducer.Step (s.producers w) c q)
    (writer : QueueRefinement.reader c = none) (own : Writes q user)
    (away : ∀ r, Reads r ((s.producers r).consumers w) user) :
    Linked ((s.setProducer w q).setUser w user) where
  sound r := by
    by_cases hr : r = w
    · subst hr
      simpa [State.setUser, State.setProducer] using (h.sound r).step call
    · simpa [State.setUser, State.setProducer, hr] using h.sound r
  writes v := by
    by_cases hv : v = w
    · subst hv
      simpa [State.setUser, State.setProducer] using own
    · simpa [State.setUser, State.setProducer, hv] using h.writes v
  reads r v := by
    have before : Reads r ((s.producers r).consumers v) (Function.update s.users w user v) := by
      by_cases hv : v = w
      · rw [hv, Function.update_self]
        exact away r
      · rw [Function.update_of_ne hv]
        exact h.reads r v
    by_cases hr : r = w
    · subst hr
      rw [← consumers_of_writer call writer] at before
      simpa [State.setUser, State.setProducer] using before
    · simpa [State.setUser, State.setProducer, hr] using before

lemma reads_of_access (sound : Sound (s.producers p)) {want : ℕ} {got : List α}
    (reads : Reads p ((s.producers p).consumers w) (.attempting p want got))
    (call : ImplicitProducer.Step (s.producers p) (.consume w) q) :
    Reads p (q.consumers w) (.attempting p want got) := by
  cases ImplicitProducer.step_cases call with
  | consume w r place access =>
    have lower := ceiling_access (sound.filled.positive w) access
    simp only [Reads] at reads ⊢
    obtain ⟨inside, room⟩ := reads
    rw [setConsumer_consumers]
    refine ⟨?_, by omega⟩
    generalize (s.producers p).consumers w = old at access
    cases access with
    | giveBack surplus actualCount =>
      unfold Consumer.claim
      split_ifs <;> exact nofun
    | move index stop got element full => split_ifs <;> exact nofun
    | _ => exact nofun

lemma carries_of_access {r : ImplicitProducer.State ι α} {item : α} (carries : Carries item r)
    (call : ImplicitProducer.Step r .produce q) (inside : q.producer ≠ .outside)
    (sound : Sound r) : Carries item q := by
  cases ImplicitProducer.step_cases call with
  | loadIndex element enqueuing =>
    simp only [Carries, enqueuing] at carries ⊢
    exact carries
  | construct element index constructing =>
    have placed := sound.filled.placed
    simp only [Carries, constructing] at carries ⊢
    rw [constructing] at placed
    obtain rfl : index = r.tailIndex := placed
    rw [carries, Function.update_self]
  | store index storing => exact absurd rfl inside

lemma Linked.step (h : Linked s) (hl : ConcurrentQueue.step s l = some t) : Linked t := by
  cases step_cases hl with
  | enqueue w item q outside call =>
    have reads := fun r => h.reads r w
    rw [outside] at reads
    refine h.writer call rfl ?_ reads
    cases ImplicitProducer.step_cases call with
    | enqueue element none => exact rfl
  | refuse w item q enqueuing call =>
    have reads := fun r => h.reads r w
    rw [enqueuing] at reads
    refine h.writer call rfl ?_ reads
    cases ImplicitProducer.step_cases call with
    | refuse element index constructing => exact rfl
  | produce w item q enqueuing call inside =>
    have reads := fun r => h.reads r w
    have writes := h.writes w
    rw [enqueuing] at reads writes
    exact h.writer call rfl (carries_of_access writes call inside (h.sound w)) reads
  | link w item q sema enqueuing call ended signal =>
    have reads := fun r => h.reads r w
    rw [enqueuing] at reads
    have linked : Linked ((s.setProducer w q).setUser w .signalling) :=
      h.writer call rfl ended reads
    exact ⟨linked.sound, linked.writes, linked.reads⟩
  | signalled w signalling ended =>
    have reads := fun r => h.reads r w
    have writes := h.writes w
    rw [signalling] at reads writes
    exact h.setUser writes reads
  | waitDequeueBulk w max timed sema outside call =>
    have reads := fun r => h.reads r w
    have writes := h.writes w
    rw [outside] at reads writes
    have linked : Linked (s.setUser w (.waiting max)) := h.setUser writes reads
    exact ⟨linked.sound, linked.writes, linked.reads⟩
  | tryDequeueBulk w max sema outside call =>
    have reads := fun r => h.reads r w
    have writes := h.writes w
    rw [outside] at reads writes
    have linked : Linked (s.setUser w (.waiting max)) := h.setUser writes reads
    exact ⟨linked.sound, linked.writes, linked.reads⟩
  | sema c sema inside move => exact ⟨h.sound, h.writes, h.reads⟩
  | acquired w max result sema waiting done call =>
    have reads := fun r => h.reads r w
    have writes := h.writes w
    rw [waiting] at reads writes
    have linked : Linked (s.setUser w (.taking result [])) := h.setUser writes reads
    exact ⟨linked.sound, linked.writes, linked.reads⟩
  | attempt w p want got q taking call =>
    have reads := fun r => h.reads r w
    have writes := h.writes w
    rw [taking] at reads writes
    refine h.reader call rfl writes ?_ fun r hr => (if_neg hr).mpr (reads r)
    cases ImplicitProducer.step_cases call with
    | dequeueBulk w max outside positive =>
      refine (if_pos rfl).mpr ⟨?_, ?_⟩
      · rw [setConsumer_consumers]
        exact nofun
      · rw [setConsumer_consumers]
        simp only [ceiling]
        omega
  | consume w p want got q attempting access =>
    have reads := fun r => h.reads r w
    have writes := h.writes w
    rw [attempting] at reads writes
    exact h.reader access rfl writes (reads_of_access (h.sound p) (reads p) access)
      fun r _ => reads r
  | attempted w p want got batch q attempting done ret =>
    have reads := fun r => h.reads r w
    have writes := h.writes w
    rw [attempting] at reads writes
    refine h.reader ret rfl writes ?_ fun r hr => (if_neg hr).mp (reads r)
    cases ImplicitProducer.step_cases ret with
    | leave w got done => exact setConsumer_consumers ..
  | finish w want got taking all =>
    have reads := fun r => h.reads r w
    have writes := h.writes w
    rw [taking] at reads writes
    exact h.setUser writes reads

end Links

section View
variable [DecidableEq ι] {s t : State ι α} {l : Label ι α} {p w : ι} {user : User ι α}
  {c : ImplicitProducer.Label ι α} {q : ImplicitProducer.State ι α}

lemma view_setUser (s : State ι α) (w : ι) (user : User ι α) :
    view (s.setUser w user) = (view s).setUser w (shown s.producers w user) := by
  simp only [view, State.setUser, BlockingQueue.State.setUser, BlockingQueue.State.mk.injEq,
    true_and]
  funext v
  by_cases hv : v = w
  · rw [hv, Function.update_self, Function.update_self]
  · rw [Function.update_of_ne hv, Function.update_of_ne hv]

lemma view_setUser_same (same : shown s.producers w user = shown s.producers w (s.users w)) :
    view (s.setUser w user) = view s := by
  rw [view_setUser, same]
  simp [BlockingQueue.State.setUser, view]

lemma shown_setProducer {v : ι} (same : inHand q.cells (q.consumers v) =
    inHand (s.producers p).cells ((s.producers p).consumers v)) (user : User ι α) :
    shown (s.setProducer p q).producers v user = shown s.producers v user := by
  cases user with
  | attempting r want got =>
    simp only [shown, State.setProducer]
    by_cases hr : r = p
    · subst hr
      rw [Function.update_self, same]
    · rw [Function.update_of_ne hr]
  | _ => rfl

lemma view_setProducer {place : BlockingQueue.User α}
    (others : ∀ v, v ≠ w → inHand q.cells (q.consumers v) =
      inHand (s.producers p).cells ((s.producers p).consumers v))
    (own : shown (s.setProducer p q).producers w (s.users w) = place) :
    view (s.setProducer p q) = { view s with
      inner := Function.update (view s).inner p (contents q) }.setUser w place := by
  simp only [view, BlockingQueue.State.setUser, BlockingQueue.State.mk.injEq]
  refine ⟨rfl, ?_, ?_⟩
  · funext r
    simp only [State.setProducer]
    by_cases hr : r = p
    · rw [hr, Function.update_self, Function.update_self]
    · rw [Function.update_of_ne hr, Function.update_of_ne hr]
  · funext v
    by_cases hv : v = w
    · subst hv
      rw [Function.update_self]
      exact own
    · rw [Function.update_of_ne hv]
      exact shown_setProducer (others v hv) (s.users v)

variable [Fintype ι]

lemma hands_of_step {r : ImplicitProducer.State ι α} (sound : Sound r)
    (call : ImplicitProducer.Step r c q) (inside : ∀ v, c ≠ .leave v) (v : ι) :
    inHand q.cells (q.consumers v) =
      inHand r.cells (r.consumers v) ++ ofWorker v (taken (opAt r c).toList) := by
  have hands := sound.hands call v
  have none : returned [(r, c)] = [] := by
    cases c with
    | leave u => exact absurd rfl (inside u)
    | _ => rfl
  rw [none] at hands
  exact hands.symm

lemma view_keeps (h : Linked s) (call : ImplicitProducer.Step (s.producers p) c q)
    (inside : ∀ v, c ≠ .leave v)
    (idle : ∀ v, ofWorker v (taken (opAt (s.producers p) c).toList) = []) :
    view (s.setProducer p q) =
      { view s with inner := Function.update (view s).inner p (contents q) } := by
  have hands : ∀ v, inHand q.cells (q.consumers v) =
      inHand (s.producers p).cells ((s.producers p).consumers v) := by
    intro v
    rw [hands_of_step (h.sound p) call inside, idle]
    exact List.append_nil _
  rw [view_setProducer (w := p) (fun v _ => hands v) (shown_setProducer (hands p) (s.users p))]
  simp [BlockingQueue.State.setUser, view]

lemma view_idle (h : Linked s) (call : ImplicitProducer.Step (s.producers p) c q)
    (inside : ∀ v, c ≠ .leave v) (idle : opAt (s.producers p) c = none) :
    view (s.setProducer p q) = view s := by
  have same : contents q = contents (s.producers p) := by
    have forward := (h.sound p).forward call
    rwa [idle] at forward
  rw [view_keeps h call inside (fun v => by rw [idle]; rfl), same]
  simp [view]

omit [DecidableEq ι] [Fintype ι] in
lemma view_users {place : User ι α} (here : s.users w = place) :
    (view s).users w = shown s.producers w place := by
  rw [← here]
  rfl

/-- The access that stores `tailIndex`. -/
lemma contents_of_store {item : α} {r : ImplicitProducer.State ι α} (sound : Sound r)
    (carries : Carries item r) (call : ImplicitProducer.Step r .produce q)
    (ended : q.producer = .outside) :
    (∃ index, r.producer = .storing index) ∧ opAt r .produce = some (.put item) ∧
      contents q = contents r ++ [item] := by
  cases ImplicitProducer.step_cases call with
  | loadIndex element enqueuing => cases ended
  | construct element index constructing => cases ended
  | store index storing =>
    simp only [Carries, storing] at carries
    have put : opAt r .produce = some (.put item) := by simp [opAt, storing, carries]
    have forward := sound.forward call
    rw [put] at forward
    exact ⟨⟨index, storing⟩, put, Fifo.of_put forward⟩

omit [Fintype ι] in
lemma setUser_same (here : s.users w = user) :
    (s.setProducer p q).setUser w user = s.setProducer p q := by
  subst here
  simp [State.setUser, State.setProducer]

/-- A claim takes the front of the list. -/
lemma take_of_claim (h : Linked s) {want n : ℕ} {got : List α}
    (attempting : s.users w = .attempting p want got)
    (claiming : (s.producers p).consumers w = .claiming n)
    (access : ImplicitProducer.Step (s.producers p) (.consume w) q) :
    BlockingQueue.Step (view s) (.take w p n) (view (s.setProducer p q)) := by
  have sound := h.sound p
  obtain ⟨front, hfront⟩ : ∃ front, front =
    segment (s.producers p).cells (s.producers p).headIndex n := ⟨_, rfl⟩
  have take : opAt (s.producers p) (.consume w) = some (.take w front) := by
    simp [opAt, claiming, hfront]
  have claimable := sound.claims_le w
  have reads := h.reads p w
  have forward := sound.forward access
  rw [claiming] at claimable
  rw [attempting, claiming] at reads
  rw [take] at forward
  have split : (view s).inner p = front ++ contents q := Fifo.of_take forward
  have length : front.length = n := hfront ▸ sound.length_segment claimable
  have room : got.length + n ≤ want := ((if_pos rfl).mp reads).2
  have taken : ∀ v, inHand q.cells (q.consumers v) =
      inHand (s.producers p).cells ((s.producers p).consumers v) ++
        ofWorker v (front.map fun a => (w, a)) := by
    intro v
    rw [hands_of_step sound access (by simp), take]
    exact congrArg (_ ++ ofWorker v ·) (List.append_nil _)
  have here : (view s).users w = .taking want got := by
    rw [view_users attempting]
    simp only [shown, claiming, inHand, List.append_nil]
  have mine : shown (s.setProducer p q).producers w (s.users w) = .taking want (got ++ front) := by
    rw [attempting]
    simp only [shown, State.setProducer, Function.update_self]
    rw [taken w, claiming, ofWorker_map_same]
    rfl
  have others : ∀ v, v ≠ w → inHand q.cells (q.consumers v) =
      inHand (s.producers p).cells ((s.producers p).consumers v) := by
    intro v hv
    rw [taken v, ofWorker_map_of_ne hv, List.append_nil]
  have there : n ≤ want - got.length ∧ n ≤ ((view s).inner p).length := by
    rw [split, List.length_append]
    omega
  rw [view_setProducer others mine]
  simp only [BlockingQueue.Step, BlockingQueue.step, here, if_pos there]
  rw [split, List.take_left' length, List.drop_left' length]

omit [Fintype ι] in
lemma view_of_return {want : ℕ} {got batch : List α}
    (attempting : s.users w = .attempting p want got)
    (done : (s.producers p).consumers w = .done batch)
    (ret : ImplicitProducer.Step (s.producers p) (.leave w) q) :
    view ((s.setProducer p q).setUser w (.taking want (got ++ batch))) = view s := by
  cases ImplicitProducer.step_cases ret with
  | leave w result ended =>
    have others : ∀ v, v ≠ w →
        inHand (s.producers p).cells (((s.producers p).setConsumer w .outside).consumers v) =
          inHand (s.producers p).cells ((s.producers p).consumers v) := by
      intro v hv
      simp only [ImplicitProducer.State.setConsumer, Function.update_of_ne hv]
    have here := view_users attempting
    simp only [shown, done, inHand] at here
    have same : contents ((s.producers p).setConsumer w .outside) = (view s).inner p := rfl
    rw [view_setUser, view_setProducer others rfl, same]
    simp only [BlockingQueue.State.setUser, shown, Function.update_idem, Function.update_eq_self]
    rw [← here, Function.update_eq_self]

lemma Linked.forward (h : Linked s) (hl : ConcurrentQueue.step s l = some t) :
    Forward (labelAt s l) (view s) (view t) := by
  cases step_cases hl with
  | enqueue w item q outside call =>
    have here := view_users outside
    rw [view_setUser, view_idle h call (by simp) rfl]
    simp only [labelAt, Forward, BlockingQueue.Step, BlockingQueue.step, here]
    rfl
  | refuse w item q enqueuing call =>
    have here := view_users enqueuing
    rw [view_setUser, view_idle h call (by simp) rfl]
    simp only [labelAt, Forward, BlockingQueue.Step, BlockingQueue.step, here]
    rfl
  | produce w item q enqueuing call inside =>
    have idle : opAt (s.producers w) .produce = none ∧ labelAt s (.produce w) = none := by
      cases ImplicitProducer.step_cases call with
      | loadIndex element place => simp [opAt, labelAt, place]
      | construct element index place => simp [opAt, labelAt, place]
      | store index storing => exact absurd rfl inside
    rw [idle.2, setUser_same enqueuing]
    exact view_idle h call (by simp) idle.1
  | link w item q sema enqueuing call ended signal =>
    have here := view_users enqueuing
    have carries := h.writes w
    rw [enqueuing] at carries
    obtain ⟨⟨index, storing⟩, put, more⟩ := contents_of_store (h.sound w) carries call ended
    have lists := view_keeps h call (by simp) fun v => by rw [put]; rfl
    have label : labelAt s (.produce w) = some (.link w) := by simp [labelAt, storing]
    have signal : LightweightSemaphore.step (view s).sema (.signal w 1) = some sema := signal
    have state : view { s.setProducer w q with sema := sema } =
        { view (s.setProducer w q) with sema := sema } := rfl
    rw [label, view_setUser, state, lists, more]
    simp only [Forward, BlockingQueue.Step, BlockingQueue.step, here, shown,
      BlockingQueue.State.withSema, signal]
    rfl
  | signalled w signalling ended =>
    have here := view_users signalling
    have outside : (view s).sema.threads w = .outside := ended
    rw [view_setUser]
    simp only [labelAt, Forward, BlockingQueue.Step, BlockingQueue.step, here, outside]
    rfl
  | waitDequeueBulk w max timed sema outside call =>
    have here := view_users outside
    have call : LightweightSemaphore.step (view s).sema (.waitMany w max timed) = some sema := call
    rw [view_setUser]
    simp only [labelAt, Forward, BlockingQueue.Step, BlockingQueue.step, here,
      BlockingQueue.State.withSema, call]
    rfl
  | tryDequeueBulk w max sema outside call =>
    have here := view_users outside
    have call : LightweightSemaphore.step (view s).sema (.tryWaitMany w max) = some sema := call
    rw [view_setUser]
    simp only [labelAt, Forward, BlockingQueue.Step, BlockingQueue.step, here,
      BlockingQueue.State.withSema, call]
    rfl
  | sema c sema inside move =>
    have move : LightweightSemaphore.step (view s).sema c = some sema := move
    simp only [labelAt, Forward, BlockingQueue.Step, BlockingQueue.step, if_pos inside, move]
    rfl
  | acquired w max result sema waiting done call =>
    have here := view_users waiting
    have there : (view s).sema.threads w = .done result := done
    have call : LightweightSemaphore.step (view s).sema (.leave w) = some sema := call
    rw [view_setUser]
    simp only [labelAt, Forward, BlockingQueue.Step, BlockingQueue.step, here, there,
      BlockingQueue.State.withSema, call]
    rfl
  | attempt w p want got q taking call =>
    show view _ = view s
    rw [view_setUser_same, view_idle h call (by simp) rfl]
    show shown (s.setProducer p q).producers w _ = shown _ w (s.users w)
    cases ImplicitProducer.step_cases call with
    | dequeueBulk w max outside positive =>
      rw [taking]
      simp only [shown, State.setProducer, Function.update_self, setConsumer_consumers]
      exact congrArg (BlockingQueue.User.taking want) (List.append_nil got)
  | consume w p want got q attempting access =>
    rw [setUser_same attempting]
    by_cases claiming : ∃ n, (s.producers p).consumers w = .claiming n
    · obtain ⟨n, claiming⟩ := claiming
      have label : labelAt s (.consume w) = some (.take w p n) := by
        simp [labelAt, attempting, claiming]
      rw [label]
      exact take_of_claim h attempting claiming access
    · have idle : opAt (s.producers p) (.consume w) = none ∧ labelAt s (.consume w) = none := by
        simp only [opAt, labelAt, attempting]
        cases place : (s.producers p).consumers w with
        | claiming n => exact absurd ⟨n, place⟩ claiming
        | _ => exact ⟨rfl, rfl⟩
      rw [idle.2]
      exact view_idle h access (by simp) idle.1
  | attempted w p want got batch q attempting done ret => 
    exact view_of_return attempting done ret
  | finish w want got taking all =>
    have here := view_users taking
    rw [view_setUser]
    simp only [labelAt, Forward, BlockingQueue.Step, BlockingQueue.step, here, shown, if_pos all]

variable {trace : List (State ι α × Label ι α)}

lemma linked_of_run (run : Run Step start trace s) : Linked s :=
  run.stable .start fun _ _ _ => Linked.step

/-- A run of the concurrent queue is a run of the blocking queue: the same calls and returns, with
the same results, and every list changed at once, by the store of `tailIndex` and by the
`fetch_add` on `headIndex`. -/
theorem refines_lists (run : Run Step start trace s) :
    Run BlockingQueue.Step BlockingQueue.start (shownRun trace) (view s) := by
  induction run with
  | refl => exact .refl
  | @snoc past a b l prior last ih =>
    have forward := (linked_of_run prior).forward last
    rw [shownRun, List.filterMap_append, ← shownRun]
    cases label : labelAt a l with
    | none =>
      rw [label] at forward
      have same : view b = view a := forward
      simpa [label, same] using ih
    | some c =>
      rw [label] at forward
      simpa [label] using ih.snoc forward

/-- A thread enqueues two elements; another one gets nothing from its own list, and then both. -/
def bothTaken : List (Label Bool ℕ) :=
  [.enqueue false 7, .produce false, .produce false, .produce false, .sema (.move false),
    .signalled false, .enqueue false 8, .produce false, .produce false, .produce false,
    .sema (.move false), .signalled false, .waitDequeueBulk true 3 true, .sema (.move true),
    .sema (.move true), .acquired true, .attempt true true, .consume true, .consume true,
    .consume true, .attempted true, .attempt true false, .consume true, .consume true,
    .consume true, .consume true, .consume true, .consume true, .consume true, .consume true,
    .attempted true, .finish true]

theorem refines_lists_both : ∃ trace s, Run Step (start : State Bool ℕ) trace s ∧
    (shownRun trace).map Prod.snd = [.enqueue false 7, .link false, .sema (.move false),
      .signalled false, .enqueue false 8, .link false, .sema (.move false), .signalled false,
      .waitDequeueBulk true 3 true, .sema (.move true), .sema (.move true), .acquired true,
      .take true false 2, .finish true] ∧
    Run BlockingQueue.Step BlockingQueue.start (shownRun trace) (view s) := by
  have run := advance_run (Option.some_get
    (rfl : (advance step (start : State Bool ℕ) bothTaken).isSome = true)).symm
  exact ⟨_, _, run, by decide +kernel, refines_lists run⟩

end View

end ClientPrefs.QueueRefinement
