import ClientPrefs.ImplicitProducer

/-!
# What the lock-free list does

Every run of an implicit producer is a run of a list: an element is in the list once `tailIndex` is
stored, and an attempt to dequeue takes the front of the list when it adds to `headIndex`.
-/
namespace ClientPrefs.ProducerRefinement
open ImplicitProducer Reservations Transition
open Sentinels (sum_update ofWorker ofWorker_append ofWorker_map_same ofWorker_map_of_ne)

variable {ι α : Type*}

section Counters

/-- What a thread has reserved in vain and not given back. -/
def surplus : Consumer α → ℕ
  | .returning surplus _ => surplus
  | _ => 0

/-- What a thread is sure of and has not claimed. -/
def claims : Consumer α → ℕ
  | .returning _ actualCount => actualCount
  | .claiming actualCount => actualCount
  | _ => 0

/-- What a thread has read does not exceed what those before it have left. -/
def Stands (log : List (Entry ι)) (overcommit : ℕ) (w : ι) : Consumer α → Prop
  | .loadingCount _ _ read => read ≤ overcommit ∧ Closed w log
  | .reserving _ read => read ≤ overcommit ∧ Closed w log
  | .reloadingTail desiredCount read myDequeueCount =>
    ∃ most, Open w desiredCount myDequeueCount most log ∧ read + most ≤ myDequeueCount
  | _ => Closed w log

variable {log log' : List (Entry ι)} {overcommit n a : ℕ} {w : ι} {p : Consumer α}

lemma Stands.more {overcommit' : ℕ} (h : Stands log overcommit w p)
    (more : overcommit ≤ overcommit') : Stands log overcommit' w p := by
  cases p with
  | loadingCount max tail read => exact ⟨h.1.trans more, h.2⟩
  | reserving desiredCount read => exact ⟨h.1.trans more, h.2⟩
  | _ => exact h

lemma Stands.reserve_other {v : ι} (h : Stands log overcommit w p) (other : v ≠ w) (n : ℕ) :
    Stands (log ++ [⟨v, n, none⟩]) overcommit w p := by
  cases p with
  | loadingCount max tail read => exact ⟨h.1, h.2.reserve_other other n⟩
  | reserving desiredCount read => exact ⟨h.1, h.2.reserve_other other n⟩
  | reloadingTail desiredCount read myDequeueCount =>
    obtain ⟨most, reserved, room⟩ := h
    exact ⟨most, reserved.reserve_other other n, room⟩
  | _ => exact Closed.reserve_other h other n

lemma Stands.settle_other [DecidableEq ι] {v : ι} (h : Stands log overcommit w p) (other : v ≠ w)
    (a : ℕ) : Stands (settle v a log) overcommit w p := by
  cases p with
  | loadingCount max tail read => exact ⟨h.1, h.2.settle⟩
  | reserving desiredCount read => exact ⟨h.1, h.2.settle⟩
  | reloadingTail desiredCount read myDequeueCount =>
    obtain ⟨most, reserved, room⟩ := h
    exact ⟨most, reserved.settle_other other, room⟩
  | _ => exact Closed.settle h

variable [Fintype ι]

/-- The counters, against the reservations in the order in which `dequeueOptimisticCount` gave
them out. -/
structure Books (s : State ι α) (log : List (Entry ι)) : Prop where
  optimistic : s.dequeueOptimisticCount = desired log
  overcommit : s.dequeueOvercommit + ∑ w, surplus (s.consumers w) + weight log = desired log
  head : s.headIndex + ∑ w, claims (s.consumers w) = handed log
  fits : Fits s.tailIndex 0 log
  stands : ∀ w, Stands log s.dequeueOvercommit w (s.consumers w)

lemma Books.start : Books (ImplicitProducer.start : State ι α) [] where
  optimistic := rfl
  overcommit := by simp [ImplicitProducer.start, surplus, weight, desired]
  head := by simp [ImplicitProducer.start, claims, handed]
  fits := trivial
  stands _ := nofun

variable {s t : State ι α}

lemma Books.claims_le (h : Books s log) :
    s.headIndex + ∑ w, claims (s.consumers w) ≤ s.tailIndex := by
  have head := h.head
  rcases h.fits.handed_le with none | within <;> omega

variable [DecidableEq ι]

lemma Books.moves (h : Books s log) {q : Consumer α} (same : t.consumers = s.consumers)
    (optimistic : t.dequeueOptimisticCount = desired log')
    (overcommit : t.dequeueOvercommit + surplus q + weight log' + desired log =
      s.dequeueOvercommit + surplus (s.consumers w) + weight log + desired log')
    (head : t.headIndex + claims q + handed log =
      s.headIndex + claims (s.consumers w) + handed log')
    (fits : Fits t.tailIndex 0 log') (own : Stands log' t.dequeueOvercommit w q)
    (others : ∀ v, w ≠ v → Stands log s.dequeueOvercommit v (s.consumers v) →
      Stands log' t.dequeueOvercommit v (s.consumers v)) : Books (t.setConsumer w q) log' where
  optimistic := optimistic
  overcommit := by
    have before := h.overcommit
    have change := sum_update surplus s.consumers w q
    simp only [State.setConsumer, same]
    omega
  head := by
    have before := h.head
    have change := sum_update claims s.consumers w q
    simp only [State.setConsumer, same]
    omega
  fits := fits
  stands v := by
    simp only [State.setConsumer, same]
    by_cases hv : v = w
    · rw [hv, Function.update_self]
      exact own
    · rw [Function.update_of_ne hv]
      exact others v (Ne.symm hv) (h.stands v)

lemma Books.keeps (h : Books s log) {q : Consumer α} (less : surplus q = surplus (s.consumers w))
    (same : claims q = claims (s.consumers w)) (own : Stands log s.dequeueOvercommit w q) :
    Books (s.setConsumer w q) log :=
  h.moves rfl h.optimistic (by omega) (by omega) h.fits own fun _ _ stands => stands

lemma Books.settles (h : Books s log) {desiredCount read myDequeueCount actualCount : ℕ}
    (reloading : s.consumers w = .reloadingTail desiredCount read myDequeueCount)
    (less : actualCount ≤ desiredCount)
    (there : actualCount ≤ s.tailIndex + read - myDequeueCount) {q : Consumer α}
    (hsurplus : surplus q = desiredCount - actualCount) (hclaims : claims q = actualCount)
    (own : ∀ log', Closed w log' → Stands log' s.dequeueOvercommit w q) :
    Books (s.setConsumer w q) (settle w actualCount log) := by
  have stands := h.stands w
  rw [reloading] at stands
  obtain ⟨most, reserved, room⟩ := stands
  obtain ⟨closed, hweight, hhanded, hfits⟩ :=
    @Open.settle _ w log s.tailIndex 0 _ _ _ _ _ reserved less
  refine h.moves rfl ?_ ?_ ?_ (hfits h.fits (by omega)) (own _ closed)
    fun v other stands => stands.settle_other other _
  · rw [desired_settle]
    exact h.optimistic
  · rw [desired_settle, reloading, hsurplus]
    simp only [surplus]
    omega
  · rw [reloading, hclaims, hhanded]
    simp only [claims]
    omega

lemma Books.access (h : Books s log) {q : Consumer α} (access : Access s (s.consumers w) t q) :
    ∃ log', Books (t.setConsumer w q) log' := by
  have stands := h.stands w
  generalize place : s.consumers w = p at access stands
  cases access with
  | loadTail max => exact ⟨log, h.keeps (by rw [place]; rfl) (by rw [place]; rfl) stands⟩
  | loadOvercommit max tail =>
    exact ⟨log, h.keeps (by rw [place]; rfl) (by rw [place]; rfl) ⟨le_rfl, stands⟩⟩
  | loadCount max tail read => exact ⟨log, h.keeps (by rw [place]; rfl) (by rw [place]; rfl) stands⟩
  | nothing max tail read =>
    exact ⟨log, h.keeps (by rw [place]; rfl) (by rw [place]; rfl) stands.2⟩
  | reserve desiredCount read =>
    obtain ⟨before, closed⟩ := stands
    have overcommit := h.overcommit
    refine ⟨log ++ [⟨w, desiredCount, none⟩], h.moves rfl ?_ ?_ ?_ (h.fits.reserve w desiredCount)
      ?_ fun v other stands => stands.reserve_other other desiredCount⟩
    · rw [desired_reserve, ← h.optimistic]
    · rw [desired_reserve, weight_reserve, place]
      simp only [surplus]
      omega
    · rw [handed_reserve, place]
      rfl
    · rw [h.optimistic]
      exact ⟨weight log, closed.reserve le_rfl desiredCount, by omega⟩
  | enough desiredCount read myDequeueCount there =>
    exact ⟨_, h.settles place le_rfl there (Nat.sub_self _).symm rfl fun _ closed => closed⟩
  | short desiredCount read myDequeueCount actualCount there less =>
    exact ⟨_, h.settles place less.le there.le rfl rfl fun _ closed => closed⟩
  | giveBack surplus actualCount =>
    refine ⟨log, h.moves rfl h.optimistic ?_ ?_ h.fits ?_
      fun v _ stands => stands.more (Nat.le_add_right _ _)⟩
    · rw [place]
      unfold Consumer.claim
      split_ifs <;> simp only [ProducerRefinement.surplus] <;> omega
    · rw [place]
      unfold Consumer.claim
      split_ifs with positive
      · rfl
      · simp only [claims]
        omega
    · unfold Consumer.claim
      split_ifs <;> exact stands
  | claim actualCount =>
    refine ⟨log, h.moves rfl h.optimistic (by rw [place]; rfl) ?_ h.fits stands
      fun v _ stands => stands⟩
    rw [place]
    simp only [claims]
    omega
  | move index stop got element full =>
    refine ⟨log, h.moves rfl h.optimistic ?_ ?_ h.fits ?_ fun v _ stands => stands⟩
    · rw [place]
      split_ifs <;> rfl
    · rw [place]
      split_ifs <;> rfl
    · split_ifs <;> exact stands

omit [DecidableEq ι] in
lemma Books.produced (h : Books s log)
    (optimistic : t.dequeueOptimisticCount = s.dequeueOptimisticCount)
    (overcommit : t.dequeueOvercommit = s.dequeueOvercommit) (head : t.headIndex = s.headIndex)
    (tail : s.tailIndex ≤ t.tailIndex) (same : t.consumers = s.consumers) : Books t log where
  optimistic := optimistic.trans h.optimistic
  overcommit := by
    rw [overcommit, same]
    exact h.overcommit
  head := by
    rw [head, same]
    exact h.head
  fits := h.fits.mono tail le_rfl
  stands := by
    rw [overcommit, same]
    exact h.stands

end Counters

section Cells

/-- The cells that a dequeuing thread has claimed and not read. -/
def range : Consumer α → Set ℕ
  | .moving index stop _ => Set.Ico index stop
  | _ => ∅

/-- A thread in the middle of an attempt has something to get. -/
def Positive : Consumer α → Prop
  | .loadingTail max => 0 < max
  | .loadingOvercommit max _ => 0 < max
  | .loadingCount max _ _ => 0 < max
  | .reserving desiredCount _ => 0 < desiredCount
  | .reloadingTail desiredCount _ _ => 0 < desiredCount
  | .claiming actualCount => 0 < actualCount
  | .moving index stop _ => index < stop
  | _ => True

def Placed (tail : ℕ) (cells : ℕ → Option α) : Producer α → Prop
  | .constructing _ index => index = tail
  | .storing index => index = tail + 1 ∧ (cells tail).isSome
  | _ => True

def Claimed (head : ℕ) (cells : ℕ → Option α) (p : Consumer α) : Prop :=
  ∀ i ∈ range p, i < head ∧ (cells i).isSome

structure Filled (s : State ι α) : Prop where
  stored : ∀ i, s.headIndex ≤ i → i < s.tailIndex → (s.cells i).isSome
  claimed : ∀ w, Claimed s.headIndex s.cells (s.consumers w)
  apart : ∀ v w, v ≠ w → ∀ i ∈ range (s.consumers v), i ∉ range (s.consumers w)
  positive : ∀ w, Positive (s.consumers w)
  placed : Placed s.tailIndex s.cells s.producer

lemma Filled.start : Filled (ImplicitProducer.start : State ι α) where
  stored _ _ h := absurd h (Nat.not_lt_zero _)
  claimed _ _ h := h.elim
  apart _ _ _ _ h := h.elim
  positive _ := trivial
  placed := trivial

variable {s t : State ι α} {w : ι} {q : Consumer α}

lemma positive_claim (actualCount : ℕ) : Positive (Consumer.claim actualCount : Consumer α) := by
  unfold Consumer.claim
  split_ifs with positive
  · exact positive
  · trivial

lemma range_claim (actualCount : ℕ) : range (Consumer.claim actualCount : Consumer α) = ∅ := by
  unfold Consumer.claim
  split_ifs <;> rfl

variable [DecidableEq ι]

lemma Filled.moves (h : Filled s) (same : t.consumers = s.consumers)
    (stored : ∀ i, t.headIndex ≤ i → i < t.tailIndex → (t.cells i).isSome)
    (own : Claimed t.headIndex t.cells q)
    (others : ∀ v, v ≠ w → Claimed t.headIndex t.cells (s.consumers v))
    (within : ∀ v, v ≠ w → ∀ i ∈ range q, i ∉ range (s.consumers v))
    (positive : Positive q) (placed : Placed t.tailIndex t.cells t.producer) :
    Filled (t.setConsumer w q) where
  stored := stored
  claimed v := by
    simp only [State.setConsumer, same]
    by_cases hv : v = w
    · rw [hv, Function.update_self]
      exact own
    · rw [Function.update_of_ne hv]
      exact others v hv
  apart u v other := by
    simp only [State.setConsumer, same]
    by_cases hu : u = w
    · have hv : v ≠ w := fun hv => other (hu.trans hv.symm)
      rw [hu, Function.update_self, Function.update_of_ne hv]
      exact within v hv
    · by_cases hv : v = w
      · rw [hv, Function.update_self, Function.update_of_ne hu]
        exact fun i hi hw => within u hu i hw hi
      · rw [Function.update_of_ne hu, Function.update_of_ne hv]
        exact h.apart u v other
  positive v := by
    simp only [State.setConsumer, same]
    by_cases hv : v = w
    · rw [hv, Function.update_self]
      exact positive
    · rw [Function.update_of_ne hv]
      exact h.positive v
  placed := placed

lemma Filled.keeps (h : Filled s) (same : t.consumers = s.consumers)
    (head : t.headIndex = s.headIndex) (tail : t.tailIndex = s.tailIndex)
    (cells : t.cells = s.cells) (producer : t.producer = s.producer) (positive : Positive q)
    (none : range q = ∅) : Filled (t.setConsumer w q) := by
  refine h.moves same ?_ (fun i hi => ?_) (fun v _ => ?_) (fun v _ i hi => ?_) positive ?_
  · rw [head, tail, cells]
    exact h.stored
  · rw [none] at hi
    exact hi.elim
  · rw [head, cells]
    exact h.claimed v
  · rw [none] at hi
    exact hi.elim
  · rw [tail, cells, producer]
    exact h.placed

lemma Filled.access (h : Filled s) (access : Access s (s.consumers w) t q)
    (claimable : s.headIndex + claims (s.consumers w) ≤ s.tailIndex) :
    Filled (t.setConsumer w q) := by
  have positive := h.positive w
  have claimed := h.claimed w
  have apart := fun v (hv : v ≠ w) => h.apart w v hv.symm
  generalize s.consumers w = p at access positive claimed apart claimable
  cases access with
  | loadTail max => exact h.keeps rfl rfl rfl rfl rfl positive rfl
  | loadOvercommit max tail => exact h.keeps rfl rfl rfl rfl rfl positive rfl
  | loadCount max tail read some =>
    exact h.keeps rfl rfl rfl rfl rfl (Nat.lt_min.mpr ⟨some, positive⟩) rfl
  | nothing max tail read => exact h.keeps rfl rfl rfl rfl rfl trivial rfl
  | reserve desiredCount read => exact h.keeps rfl rfl rfl rfl rfl positive rfl
  | enough desiredCount read myDequeueCount => exact h.keeps rfl rfl rfl rfl rfl positive rfl
  | short desiredCount read myDequeueCount actualCount =>
    exact h.keeps rfl rfl rfl rfl rfl trivial rfl
  | giveBack surplus actualCount =>
    exact h.keeps rfl rfl rfl rfl rfl (positive_claim _) (range_claim _)
  | claim actualCount =>
    simp only [claims] at claimable
    refine h.moves rfl (fun i low high => ?_) (fun i hi => ?_) (fun v _ i hi => ?_)
      (fun v _ i hi hv => ?_) (Nat.lt_add_of_pos_right positive) h.placed
    · exact h.stored i (Nat.le_of_add_right_le low) high
    · exact ⟨hi.2, h.stored i hi.1 (hi.2.trans_le claimable)⟩
    · obtain ⟨low, full⟩ := h.claimed v i hi
      exact ⟨low.trans_le (Nat.le_add_right _ _), full⟩
    · exact absurd (h.claimed v i hv).1 (not_lt.mpr hi.1)
  | move index stop got element full =>
    have inside : index ∈ Set.Ico index stop := ⟨le_rfl, positive⟩
    have rest : range (if index + 1 = stop then .done (got ++ [element])
        else .moving (index + 1) stop (got ++ [element]) : Consumer α) ⊆
        Set.Ico index stop \ {index} := by
      split_ifs
      · exact Set.empty_subset _
      · intro i hi
        exact ⟨⟨by have := hi.1; omega, hi.2⟩, by have := hi.1; simp; omega⟩
    have behind := (claimed index inside).1
    refine h.moves rfl (fun i low high => ?_) (fun i hi => ?_) (fun v hv i hi => ?_)
      (fun v hv i hi => apart v hv i (rest hi).1) ?_ ?_
    · show (Function.update s.cells index .none i).isSome
      rw [Function.update_of_ne (behind.trans_le low).ne']
      exact h.stored i low high
    · obtain ⟨hi, other⟩ := rest hi
      show i < s.headIndex ∧ (Function.update s.cells index .none i).isSome
      rw [Function.update_of_ne other]
      exact claimed i hi
    · have other : i ≠ index := by
        rintro rfl
        exact apart v hv i inside hi
      show i < s.headIndex ∧ (Function.update s.cells index .none i).isSome
      rw [Function.update_of_ne other]
      exact h.claimed v i hi
    · split_ifs with last
      · trivial
      · simp only [Positive] at positive ⊢
        omega
    · have placed := h.placed
      have ordered : s.headIndex ≤ s.tailIndex := Nat.le_of_add_right_le claimable
      cases producer : s.producer with
      | storing next =>
        rw [producer] at placed
        show next = s.tailIndex + 1 ∧ (Function.update s.cells index .none s.tailIndex).isSome
        rw [Function.update_of_ne (behind.trans_le ordered).ne']
        exact placed
      | _ => rwa [producer] at placed

omit [DecidableEq ι] in
lemma Filled.construct (h : Filled s) {element : α} {index : ℕ}
    (constructing : s.producer = .constructing element index)
    (ordered : s.headIndex ≤ s.tailIndex) : Filled { s with
      cells := Function.update s.cells index (some element)
      producer := .storing (index + 1) } := by
  have placed := h.placed
  rw [constructing] at placed
  obtain rfl : index = s.tailIndex := placed
  have kept : ∀ i, i < s.tailIndex → (s.cells i).isSome →
      (Function.update s.cells s.tailIndex (some element) i).isSome := by
    intro i hi full
    rwa [Function.update_of_ne hi.ne]
  refine ⟨fun i low high => ?_, fun w i hi => ?_, h.apart, h.positive, rfl, ?_⟩
  · exact kept i high (h.stored i low high)
  · obtain ⟨behind, full⟩ := h.claimed w i hi
    exact ⟨behind, kept i (behind.trans_le ordered) full⟩
  · show (Function.update s.cells s.tailIndex (some element) s.tailIndex).isSome
    rw [Function.update_self]
    rfl

omit [DecidableEq ι] in
lemma Filled.store (h : Filled s) {index : ℕ} (storing : s.producer = .storing index) :
    Filled { s with tailIndex := index, producer := .outside } := by
  have placed := h.placed
  rw [storing] at placed
  obtain ⟨rfl, full⟩ := placed
  refine ⟨fun i low high => ?_, h.claimed, h.apart, h.positive, trivial⟩
  rcases Nat.lt_succ_iff_lt_or_eq.mp high with high | rfl
  · exact h.stored i low high
  · exact full

end Cells

section List

inductive Op (ι α : Type*)
  | put (element : α)
  | take (w : ι) (front : List α)
  deriving DecidableEq, Repr

inductive Fifo : List α → Op ι α → List α → Prop
  | put (elements : List α) (element : α) : Fifo elements (.put element) (elements ++ [element])
  | take (w : ι) (front rest : List α) : Fifo (front ++ rest) (.take w front) rest

lemma Fifo.of_put {before after : List α} {element : α}
    (h : Fifo before (.put element : Op ι α) after) : after = before ++ [element] := by
  cases h
  rfl

lemma Fifo.of_take {before after front : List α} {w : ι} (h : Fifo before (.take w front) after) :
    before = front ++ after := by
  cases h
  rfl

/-- The list stays as it is, or takes the step. -/
def Forward : Option (Op ι α) → List α → List α → Prop
  | none, before, after => after = before
  | some op, before, after => Fifo before op after

def segment (cells : ℕ → Option α) (index n : ℕ) : List α := (List.range' index n).filterMap cells

/-- The elements that nobody has claimed. -/
def contents (s : State ι α) : List α := segment s.cells s.headIndex (s.tailIndex - s.headIndex)

/-- What a thread has got or will get for certain. -/
def inHand (cells : ℕ → Option α) : Consumer α → List α
  | .moving index stop got => got ++ segment cells index (stop - index)
  | .done got => got
  | _ => []

/-- What a step does to the list: the store of `tailIndex` puts the element that is constructed,
and the `fetch_add` on `headIndex` takes what it claims. -/
def opAt (s : State ι α) : Label ι α → Option (Op ι α)
  | .produce =>
    match s.producer with
    | .storing _ => (s.cells s.tailIndex).map .put
    | _ => none
  | .consume w =>
    match s.consumers w with
    | .claiming actualCount => some (.take w (segment s.cells s.headIndex actualCount))
    | _ => none
  | _ => none

def ops (trace : List (State ι α × Label ι α)) : List (Op ι α) :=
  trace.filterMap fun x => opAt x.1 x.2

/-- What each attempt that is over has returned. -/
def returned (trace : List (State ι α × Label ι α)) : List (ι × α) :=
  trace.flatMap fun x =>
    match x.2 with
    | .leave w => (inHand x.1.cells (x.1.consumers w)).map fun a => (w, a)
    | _ => []

def taken (l : List (Op ι α)) : List (ι × α) :=
  l.flatMap fun op =>
    match op with
    | .take w front => front.map fun a => (w, a)
    | .put _ => []

variable {cells cells' : ℕ → Option α} {p : Consumer α} {index n m : ℕ}

lemma segment_add : segment cells index (n + m) =
    segment cells index n ++ segment cells (index + n) m := by
  rw [segment, ← List.range'_append_1, List.filterMap_append]
  rfl

lemma segment_succ {element : α} (full : cells index = some element) :
    segment cells index (n + 1) = element :: segment cells (index + 1) n := by
  rw [segment, List.range'_succ, List.filterMap_cons_some full]
  rfl

lemma segment_congr (same : ∀ i, index ≤ i → i < index + n → cells' i = cells i) :
    segment cells' index n = segment cells index n := by
  refine List.filterMap_congr fun i hi => ?_
  obtain ⟨low, high⟩ := List.mem_range'_1.mp hi
  exact same i low high

lemma inHand_congr (same : ∀ i ∈ range p, cells' i = cells i) :
    inHand cells' p = inHand cells p := by
  cases p with
  | moving index stop got =>
    refine congrArg (got ++ ·) (segment_congr fun i low high => same i ⟨low, ?_⟩)
    omega
  | _ => rfl

lemma contents_split (s : State ι α) {n : ℕ} (there : s.headIndex + n ≤ s.tailIndex) :
    contents s = segment s.cells s.headIndex n ++
      contents { s with headIndex := s.headIndex + n } := by
  rw [contents, contents, ← segment_add]
  congr 1
  dsimp only
  omega

end List

section Refinement
variable [DecidableEq ι] [Fintype ι] {s t : State ι α} {l : Label ι α}

structure Sound (s : State ι α) : Prop where
  books : ∃ log, Books s log
  filled : Filled s

omit [DecidableEq ι] in
lemma Sound.claims_le (h : Sound s) (w : ι) :
    s.headIndex + claims (s.consumers w) ≤ s.tailIndex := by
  obtain ⟨log, books⟩ := h.books
  have all := books.claims_le
  have mine : claims (s.consumers w) ≤ ∑ v, claims (s.consumers v) :=
    Finset.single_le_sum (f := fun v => claims (s.consumers v)) (fun _ _ => Nat.zero_le _)
      (Finset.mem_univ w)
  omega

omit [DecidableEq ι] in
lemma Sound.ordered (h : Sound s) : s.headIndex ≤ s.tailIndex := by
  obtain ⟨log, books⟩ := h.books
  exact Nat.le_of_add_right_le books.claims_le

omit [DecidableEq ι] in
lemma Sound.unclaimed (h : Sound s) {w : ι} {i : ℕ} (hi : i ∈ range (s.consumers w)) :
    i ≠ s.tailIndex := by
  have behind := (h.filled.claimed w i hi).1
  have ordered := h.ordered
  omega

lemma Sound.step (h : Sound s) (hl : step s l = some t) : Sound t := by
  obtain ⟨⟨log, books⟩, filled⟩ := h
  cases step_cases hl with
  | enqueue element outside =>
    exact ⟨⟨log, books.produced rfl rfl rfl le_rfl rfl⟩, { filled with placed := trivial }⟩
  | refuse element index constructing =>
    exact ⟨⟨log, books.produced rfl rfl rfl le_rfl rfl⟩, { filled with placed := trivial }⟩
  | loadIndex element enqueuing =>
    exact ⟨⟨log, books.produced rfl rfl rfl le_rfl rfl⟩, { filled with placed := rfl }⟩
  | construct element index constructing =>
    refine ⟨⟨log, books.produced rfl rfl rfl le_rfl rfl⟩, ?_⟩
    exact filled.construct constructing (Nat.le_of_add_right_le books.claims_le)
  | store index storing =>
    have placed := filled.placed
    rw [storing] at placed
    have more : s.tailIndex ≤ index := placed.1 ▸ Nat.le_succ _
    exact ⟨⟨log, books.produced rfl rfl rfl more rfl⟩, filled.store storing⟩
  | dequeueBulk w max outside positive =>
    have stands := books.stands w
    rw [outside] at stands
    exact ⟨⟨log, books.keeps (by rw [outside]; rfl) (by rw [outside]; rfl) stands⟩,
      filled.keeps rfl rfl rfl rfl rfl positive rfl⟩
  | consume w u q access =>
    have claimable := Sound.claims_le ⟨⟨log, books⟩, filled⟩ w
    exact ⟨books.access access, filled.access access claimable⟩
  | leave w got done =>
    have stands := books.stands w
    rw [done] at stands
    exact ⟨⟨log, books.keeps (by rw [done]; rfl) (by rw [done]; rfl) stands⟩,
      filled.keeps rfl rfl rfl rfl rfl trivial rfl⟩

lemma sound_of_run {trace : List (State ι α × Label ι α)} (run : Run Step start trace s) :
    Sound s :=
  run.stable ⟨⟨[], .start⟩, .start⟩ fun _ _ _ => Sound.step

/-- The list goes through the steps that `opAt` names. -/
lemma Sound.forward (h : Sound s) (hl : ImplicitProducer.step s l = some t) :
    Forward (opAt s l) (contents s) (contents t) := by
  have ordered := h.ordered
  cases step_cases hl with
  | enqueue element outside => exact rfl
  | refuse element index constructing => exact rfl
  | loadIndex element enqueuing =>
    simp only [opAt, enqueuing]
    exact rfl
  | construct element index constructing =>
    simp only [opAt, constructing]
    have placed := h.filled.placed
    rw [constructing] at placed
    obtain rfl : index = s.tailIndex := placed
    refine segment_congr fun i low high => Function.update_of_ne ?_ ..
    dsimp only at low high
    omega
  | store index storing =>
    have placed := h.filled.placed
    rw [storing] at placed
    obtain ⟨rfl, full⟩ := placed
    obtain ⟨element, full⟩ := Option.isSome_iff_exists.mp full
    simp only [opAt, storing, full]
    have more : contents { s with tailIndex := s.tailIndex + 1, producer := .outside } =
        contents s ++ [element] := by
      have one : segment s.cells s.tailIndex 1 = [element] := segment_succ full
      show segment s.cells s.headIndex (s.tailIndex + 1 - s.headIndex) = _
      rw [Nat.sub_add_comm ordered, segment_add, Nat.add_sub_cancel' ordered, one]
      rfl
    rw [more]
    exact .put _ element
  | dequeueBulk w max outside positive => exact rfl
  | consume w u q access =>
    have claimable := h.claims_le w
    have positive := h.filled.positive w
    have claimed := h.filled.claimed w
    simp only [opAt]
    generalize s.consumers w = p at access positive claimed claimable
    cases access with
    | claim actualCount =>
      simp only [claims] at claimable
      rw [contents_split s claimable]
      exact .take w _ _
    | move index stop got element full =>
      have behind := (claimed index ⟨le_rfl, positive⟩).1
      refine segment_congr fun i low high => Function.update_of_ne ?_ ..
      dsimp only [State.setConsumer] at low high
      omega
    | _ => exact rfl
  | leave w got done => exact rfl

lemma Sound.hand_access (h : Sound s) {w : ι} {q : Consumer α}
    (access : Access s (s.consumers w) t q) : inHand s.cells (s.consumers w) ++
      ofWorker w (taken (opAt s (.consume w)).toList) = inHand t.cells q := by
  have positive := h.filled.positive w
  simp only [opAt]
  generalize s.consumers w = p at access positive
  cases access with
  | giveBack surplus actualCount =>
    unfold Consumer.claim
    split_ifs <;> rfl
  | claim actualCount =>
    show [] ++ ofWorker w ((segment s.cells s.headIndex actualCount).map (fun a => (w, a)) ++ []) =
      [] ++ segment s.cells s.headIndex (s.headIndex + actualCount - s.headIndex)
    rw [List.append_nil, ofWorker_map_same, Nat.add_sub_cancel_left]
  | move index stop got element full =>
    have positive : index < stop := positive
    obtain ⟨n, hn⟩ : ∃ n, stop = index + 1 + n := ⟨stop - (index + 1), by omega⟩
    have rest : segment (Function.update s.cells index none) (index + 1) n =
        segment s.cells (index + 1) n :=
      segment_congr fun i low _ => Function.update_of_ne (by omega) ..
    show got ++ segment s.cells index (stop - index) ++ [] = _
    rw [hn, show index + 1 + n - index = n + 1 by omega, segment_succ full, List.append_nil]
    split_ifs with last
    · obtain rfl : n = 0 := by omega
      rfl
    · show _ = got ++ [element] ++ segment (Function.update s.cells index none) (index + 1)
        (index + 1 + n - (index + 1))
      rw [Nat.add_sub_cancel_left, rest, List.append_assoc]
      rfl
  | _ => rfl

lemma Sound.hand_other (h : Sound s) {v w : ι} (hv : v ≠ w) {q : Consumer α}
    (access : Access s (s.consumers w) t q) :
    inHand s.cells (s.consumers v) ++ ofWorker v (taken (opAt s (.consume w)).toList) =
      inHand t.cells (t.consumers v) := by
  have positive := h.filled.positive w
  have apart := h.filled.apart v w hv
  simp only [opAt]
  generalize s.consumers w = p at access positive apart
  cases access with
  | claim actualCount =>
    show _ ++ ofWorker v ((segment s.cells s.headIndex actualCount).map (fun a => (w, a)) ++ []) = _
    rw [List.append_nil, ofWorker_map_of_ne hv]
    exact List.append_nil _
  | move index stop got element full =>
    refine (List.append_nil _).trans (inHand_congr fun i hi => ?_).symm
    have other : i ≠ index := by
      rintro rfl
      exact apart i hi ⟨le_rfl, positive⟩
    exact Function.update_of_ne other ..
  | _ => exact List.append_nil _

/-- What a thread has in its hands comes from the list, and is returned. -/
lemma Sound.hands (h : Sound s) (hl : ImplicitProducer.step s l = some t) (v : ι) :
    inHand s.cells (s.consumers v) ++ ofWorker v (taken (opAt s l).toList) =
      ofWorker v (returned [(s, l)]) ++ inHand t.cells (t.consumers v) := by
  cases step_cases hl with
  | enqueue element outside => exact List.append_nil _
  | refuse element index constructing => exact List.append_nil _
  | loadIndex element enqueuing =>
    simp only [opAt, enqueuing]
    exact List.append_nil _
  | construct element index constructing =>
    simp only [opAt, constructing]
    have placed := h.filled.placed
    rw [constructing] at placed
    obtain rfl : index = s.tailIndex := placed
    refine (List.append_nil _).trans (inHand_congr fun i hi => ?_).symm
    exact Function.update_of_ne (h.unclaimed hi) ..
  | store index storing =>
    have placed := h.filled.placed
    rw [storing] at placed
    obtain ⟨rfl, full⟩ := placed
    obtain ⟨element, full⟩ := Option.isSome_iff_exists.mp full
    simp only [opAt, storing, full]
    exact List.append_nil _
  | dequeueBulk w max outside positive =>
    by_cases hv : v = w
    · subst hv
      simp only [State.setConsumer, Function.update_self, outside]
      rfl
    · simp only [State.setConsumer, Function.update_of_ne hv]
      exact List.append_nil _
  | consume w u q access =>
    by_cases hv : v = w
    · subst hv
      simp only [State.setConsumer, Function.update_self]
      exact h.hand_access access
    · simp only [State.setConsumer, Function.update_of_ne hv]
      exact h.hand_other hv access
  | leave w got done =>
    by_cases hv : v = w
    · subst hv
      simp only [State.setConsumer, Function.update_self, returned, done, List.flatMap_singleton]
      rw [ofWorker_map_same]
      rfl
    · simp only [State.setConsumer, Function.update_of_ne hv, returned, List.flatMap_singleton]
      rw [ofWorker_map_of_ne hv]
      exact List.append_nil _

variable {trace : List (State ι α × Label ι α)}

omit [Fintype ι] [DecidableEq ι] in
lemma ops_snoc (s : State ι α) (l : Label ι α) :
    ops (trace ++ [(s, l)]) = ops trace ++ (opAt s l).toList := by
  rw [ops, List.filterMap_append]
  cases h : opAt s l <;> simp [ops, h]

omit [Fintype ι] [DecidableEq ι] in
lemma taken_append (l m : List (Op ι α)) : taken (l ++ m) = taken l ++ taken m :=
  List.flatMap_append

omit [Fintype ι] [DecidableEq ι] in
lemma returned_append (past next : List (State ι α × Label ι α)) :
    returned (past ++ next) = returned past ++ returned next := List.flatMap_append

lemma fifo_of_run (run : Run Step start trace s) :
    ∃ steps, Run Fifo [] steps (contents s) ∧ steps.map Prod.snd = ops trace := by
  induction run with
  | refl => exact ⟨[], .refl, rfl⟩
  | @snoc past a b l prior last ih =>
    obtain ⟨steps, fifo, same⟩ := ih
    have forward := (sound_of_run prior).forward last
    rw [ops_snoc]
    cases op : opAt a l with
    | none =>
      rw [op] at forward
      exact ⟨steps, forward ▸ fifo, by simpa using same⟩
    | some o =>
      rw [op] at forward
      exact ⟨steps ++ [(contents a, o)], fifo.snoc forward, by simp [same]⟩

lemma hands_of_run (run : Run Step start trace s) (w : ι) : ofWorker w (taken (ops trace)) =
    ofWorker w (returned trace) ++ inHand s.cells (s.consumers w) := by
  induction run with
  | refl => rfl
  | @snoc past a b l prior last ih =>
    rw [ops_snoc, taken_append, returned_append, ofWorker_append, ofWorker_append, ih,
      List.append_assoc, (sound_of_run prior).hands last w, List.append_assoc]

/-- A run of the implicit producer is a run of a list, which has the elements between the head and
the tail. What a thread takes is what its attempts return, in order; nobody claims an element that
is not there yet, or reads a cell that is empty. -/
theorem refines_list (run : Run Step start trace s) :
    (∃ steps, Run Fifo [] steps (contents s) ∧ steps.map Prod.snd = ops trace) ∧
      (∀ w, ofWorker w (taken (ops trace)) =
        ofWorker w (returned trace) ++ inHand s.cells (s.consumers w)) ∧
      s.headIndex ≤ s.tailIndex ∧
      ∀ w index stop got, s.consumers w = .moving index stop got → (s.cells index).isSome := by
  have sound := sound_of_run run
  refine ⟨fifo_of_run run, hands_of_run run, sound.ordered, fun w index stop got moving => ?_⟩
  have positive := sound.filled.positive w
  have claimed := sound.filled.claimed w
  rw [moving] at positive claimed
  exact (claimed index ⟨le_rfl, positive⟩).2

/-- Two threads want both elements at once, and one of them gets them. -/
theorem refines_list_race : ∃ trace s, Run Step (start : State (Fin 2) ℕ) trace s ∧
    returned trace = [(0, 7), (0, 8)] ∧ s.dequeueOvercommit = 2 ∧ contents s = [] ∧
    ∃ steps, Run Fifo [] steps (contents s) ∧ steps.map Prod.snd = ops trace := by
  have run := @advance_run _ _ step (start : State (Fin 2) ℕ) _
    [.enqueue 7, .produce, .produce, .produce, .enqueue 8, .produce, .produce, .produce,
      .dequeueBulk 0 2, .dequeueBulk 1 2, .consume 0, .consume 0, .consume 0, .consume 1,
      .consume 1, .consume 1, .consume 0, .consume 1, .consume 1, .consume 0, .consume 0,
      .consume 1, .consume 0, .consume 0, .leave 0, .leave 1] rfl
  exact ⟨_, _, run, by decide +kernel, by decide +kernel, by decide +kernel, (refines_list run).1⟩

omit [DecidableEq ι] in
lemma Sound.settled (h : Sound s) (idle : ∀ w, s.consumers w = .outside) :
    s.dequeueOptimisticCount = s.dequeueOvercommit + s.headIndex := by
  obtain ⟨log, books⟩ := h.books
  have given : ∀ e ∈ log, e.weight = e.handed := by
    intro e he
    have closed := books.stands e.owner
    rw [idle] at closed
    obtain ⟨a, ha⟩ := Option.ne_none_iff_exists'.mp (closed e he rfl)
    simp [Entry.weight, Entry.handed, ha]
  have same : weight log = handed log := congrArg List.sum (List.map_congr_left given)
  have hsurplus : ∑ w, surplus (s.consumers w) = 0 :=
    Finset.sum_eq_zero fun w _ => by rw [idle w]; rfl
  have hclaims : ∑ w, claims (s.consumers w) = 0 :=
    Finset.sum_eq_zero fun w _ => by rw [idle w]; rfl
  have optimistic := books.optimistic
  have overcommit := books.overcommit
  have head := books.head
  omega

def Alone (w : ι) (s t : State ι α) : Prop :=
  ∃ moves, Run Step s moves t ∧ ∀ x ∈ moves, x.2 = .consume w

section Alone
omit [Fintype ι]
variable {w : ι} {u : State ι α} {p q : Consumer α}

lemma Alone.refl (s : State ι α) (w : ι) : Alone w s s := ⟨[], .refl, nofun⟩

lemma Alone.one (step : Step s (.consume w) t) : Alone w s t := ⟨_, .one step, by simp⟩

lemma Alone.trans (first : Alone w s t) (second : Alone w t u) : Alone w s u := by
  obtain ⟨moves, run, own⟩ := first
  obtain ⟨rest, more, all⟩ := second
  exact ⟨moves ++ rest, run.trans more, List.forall_mem_append.mpr ⟨own, all⟩⟩

lemma setConsumer_consumers (s : State ι α) (w : ι) (p : Consumer α) :
    (s.setConsumer w p).consumers w = p := Function.update_self ..

lemma step_consume (place : s.consumers w = p) (access : s.access p = some (u, q)) :
    ImplicitProducer.step s (.consume w) = some (u.setConsumer w q) := by
  simp [ImplicitProducer.step, place, access]

lemma access_setConsumer (s : State ι α) (w : ι) (p q : Consumer α) :
    (s.setConsumer w p).access q = (s.access q).map fun x => (x.1.setConsumer w p, x.2) := by
  cases q with
  | moving index stop got =>
    simp only [State.access, State.setConsumer]
    cases s.cells index <;> rfl
  | _ => rfl

lemma setConsumer_setConsumer (s : State ι α) (w : ι) (p q : Consumer α) :
    (s.setConsumer w p).setConsumer w q = s.setConsumer w q := by
  simp [State.setConsumer]

lemma Alone.access (alone : Alone w s (t.setConsumer w p)) (access : t.access p = some (u, q)) :
    Alone w s (u.setConsumer w q) := by
  have inside : (t.setConsumer w p).access p = some (u.setConsumer w p, q) := by
    rw [access_setConsumer, access]
    rfl
  have next := Alone.one (step_consume (setConsumer_consumers t w p) inside)
  rw [setConsumer_setConsumer] at next
  exact alone.trans next

end Alone

lemma Alone.sound {w : ι} (alone : Alone w s t) (h : Sound s) : Sound t := by
  obtain ⟨moves, run, _⟩ := alone
  exact run.stable h fun _ _ _ => Sound.step

lemma Sound.moves_all (h : Sound s) {w : ι} {index n : ℕ} {got : List α}
    (moving : s.consumers w = .moving index (index + n) got) :
    ∃ t, Alone w s t ∧ t.consumers w = .done (got ++ segment s.cells index n) ∧
      contents t = contents s := by
  induction n generalizing s index got with
  | zero =>
    have positive := h.filled.positive w
    rw [moving] at positive
    exact absurd positive (lt_irrefl index)
  | succ n ih =>
    have claimed := h.filled.claimed w
    rw [moving] at claimed
    obtain ⟨element, full⟩ := Option.isSome_iff_exists.mp (claimed index ⟨le_rfl, by omega⟩).2
    obtain ⟨q, hq⟩ : ∃ q, q = if index + 1 = index + (n + 1) then .done (got ++ [element])
      else Consumer.moving (index + 1) (index + (n + 1)) (got ++ [element]) := ⟨_, rfl⟩
    have access : s.access (.moving index (index + (n + 1)) got) =
        some ({ s with cells := Function.update s.cells index none }, q) := by
      simp [State.access, full, hq]
    have next := step_consume moving access
    have first := Alone.one next
    have kept := h.forward next
    simp only [opAt, moving] at kept
    rw [segment_succ full]
    by_cases last : n = 0
    · subst last
      refine ⟨_, first, ?_, kept⟩
      rw [setConsumer_consumers, hq, if_pos rfl]
      rfl
    · rw [if_neg (by omega), show index + (n + 1) = index + 1 + n by omega] at hq
      obtain ⟨t, rest, done, same⟩ := ih (h.step next) ((setConsumer_consumers ..).trans hq)
      have unread : segment (Function.update s.cells index none) (index + 1) n =
          segment s.cells (index + 1) n :=
        segment_congr fun i low _ => Function.update_of_ne (by omega) ..
      refine ⟨t, first.trans rest, ?_, same.trans kept⟩
      rw [done, List.append_assoc]
      exact congrArg (fun l => Consumer.done (got ++ element :: l)) unread

omit [DecidableEq ι] in
lemma Sound.length_segment (h : Sound s) {n : ℕ} (there : s.headIndex + n ≤ s.tailIndex) :
    (segment s.cells s.headIndex n).length = n := by
  refine (List.filterMap_length_eq_length.mpr fun i hi => ?_).trans List.length_range'
  obtain ⟨low, high⟩ := List.mem_range'_1.mp hi
  exact h.filled.stored i low (by omega)

omit [DecidableEq ι] in
lemma Sound.take_contents (h : Sound s) (max : ℕ) :
    (contents s).take max =
        segment s.cells s.headIndex (min (s.tailIndex - s.headIndex) max) ∧
      (contents s).drop max = contents
        { s with headIndex := s.headIndex + min (s.tailIndex - s.headIndex) max } := by
  have ordered := h.ordered
  obtain ⟨n, hn⟩ : ∃ n, n = min (s.tailIndex - s.headIndex) max := ⟨_, rfl⟩
  have split := contents_split s (n := n) (by omega)
  have length := h.length_segment (n := n) (by omega)
  rw [split, ← hn]
  rcases Nat.le_total max (s.tailIndex - s.headIndex) with more | less
  · obtain rfl : n = max := by omega
    exact ⟨List.take_left' length, List.drop_left' length⟩
  · have none : contents { s with headIndex := s.headIndex + n } = [] := by
      rw [contents, show s.tailIndex - (s.headIndex + n) = 0 by omega]
      rfl
    rw [none, List.append_nil]
    exact ⟨List.take_of_length_le (by omega), List.drop_of_length_le (by omega)⟩

/-- While nobody else attempts to dequeue, a thread takes all it asks for, as far as there are
elements. -/
theorem attempt_alone (run : Run Step start trace s) (idle : ∀ w, s.consumers w = .outside) (w : ι)
    {max : ℕ} (positive : 0 < max) :
    ∃ t, Alone w (s.setConsumer w (.loadingTail max)) t ∧
      t.consumers w = .done ((contents s).take max) ∧ contents t = (contents s).drop max := by
  have sound := sound_of_run run
  have settled := sound.settled idle
  have ordered := sound.ordered
  have call : ImplicitProducer.step s (.dequeueBulk w max) =
      some (s.setConsumer w (.loadingTail max)) := by
    simp [ImplicitProducer.step, idle w, positive]
  have loadTail := (Alone.refl (s.setConsumer w (.loadingTail max)) w).access rfl
  have loadOvercommit := loadTail.access rfl
  have loadCount := loadOvercommit.access rfl
  obtain ⟨n, hn⟩ : ∃ n, n = s.tailIndex - s.headIndex := ⟨_, rfl⟩
  have difference : s.tailIndex + s.dequeueOvercommit - s.dequeueOptimisticCount = n := by omega
  rw [difference] at loadCount
  by_cases empty : 0 < n
  · rw [if_pos empty] at loadCount
    have reserve := loadCount.access rfl
    have reloadTail := reserve.access rfl
    have enough : min (min n max) (s.tailIndex + s.dequeueOvercommit - s.dequeueOptimisticCount) =
        min n max := by
      rw [difference]
      exact Nat.min_eq_left (Nat.min_le_left n max)
    rw [enough, if_neg (lt_irrefl _)] at reloadTail
    have claim := reloadTail.access rfl
    have claimed := claim.sound (sound.step call)
    obtain ⟨t, moves, done, same⟩ := claimed.moves_all (setConsumer_consumers ..)
    obtain ⟨front, rest⟩ := sound.take_contents max
    rw [front, rest, ← hn]
    exact ⟨t, claim.trans moves, done, same⟩
  · rw [if_neg empty] at loadCount
    have none : contents s = [] := by
      rw [contents, ← hn, Nat.eq_zero_of_not_pos empty]
      rfl
    refine ⟨_, loadCount, ?_, ?_⟩
    · rw [setConsumer_consumers, none, List.take_nil]
    · rw [none, List.drop_nil]
      exact none

/-- Two of three elements. -/
theorem attempt_alone_two : ∃ trace s, Run Step (start : State (Fin 2) ℕ) trace s ∧
    contents s = [7, 8, 9] ∧ ∃ t, Alone 1 (s.setConsumer 1 (.loadingTail 2)) t ∧
      t.consumers 1 = .done [7, 8] ∧ contents t = [9] := by
  have run := @advance_run _ _ step (start : State (Fin 2) ℕ) _
    [.enqueue 7, .produce, .produce, .produce, .enqueue 8, .produce, .produce, .produce, .enqueue 9,
      .produce, .produce, .produce] rfl
  obtain ⟨t, moves, done, rest⟩ := attempt_alone run (fun _ => rfl) 1 (show 0 < 2 by decide)
  exact ⟨_, _, run, by decide +kernel, t, moves, done, rest⟩

end Refinement

end ClientPrefs.ProducerRefinement
