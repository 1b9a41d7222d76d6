import ClientPrefs.Conversation
import ClientPrefs.Transition
import Mathlib.Logic.Function.Basic

/-!
# A pool of workers over one store

Jobs are issued to one FIFO queue. A worker takes the next job and runs its
conversation; it appends commands to a pipeline of its own, the store executes the
commands of each pipeline in order, and the pipelines interleave arbitrarily.
-/
namespace ClientPrefs.WorkerPool
open Conversation Transition

variable {ι J Cmd Rep α S : Type}

inductive Phase (J Cmd Rep α : Type)
  | idle
  | running (ticket : ℕ) (job : J) (conv : Conv Cmd Rep α)
  | waiting (ticket : ℕ) (job : J) (cmds : List Cmd) (got : List (Option Rep))
      (next : List (Option Rep) → Conv Cmd Rep α)

/-- A worker and its pipeline, oldest command first; `true` marks an awaited reply. -/
structure Worker (J Cmd Rep α : Type) where
  phase : Phase J Cmd Rep α
  pipe : List (Cmd × Bool)

/-- The queue holds the jobs of `issued` from index `taken` on; a job's ticket is its index. -/
structure Pool (ι J Cmd Rep α S : Type) where
  issued : List J
  taken : ℕ
  workers : ι → Worker J Cmd Rep α
  store : S
  results : List (ℕ × J × α)

inductive Label (ι J : Type)
  | enqueue (job : J)
  | take (w : ι)
  | send (w : ι)
  | exec (w : ι)
  | resume (w : ι)
  | finish (w : ι)
  deriving DecidableEq, Repr

def Phase.receive (reply : Option Rep) : Phase J Cmd Rep α → Phase J Cmd Rep α
  | .waiting t j cmds got next => .waiting t j cmds (got ++ [reply]) next
  | phase => phase

/-- What a worker will tell before it next waits or finishes. -/
def Phase.unsent : Phase J Cmd Rep α → List Cmd
  | .running _ _ conv => conv.burst
  | _ => []

/-- The commands of a worker that are not executed yet, as far as they are settled. -/
def Worker.todo (x : Worker J Cmd Rep α) : List Cmd := x.pipe.map Prod.fst ++ x.phase.unsent

variable [DecidableEq ι]

def Pool.set (p : Pool ι J Cmd Rep α S) (w : ι) (x : Worker J Cmd Rep α) :
    Pool ι J Cmd Rep α S :=
  { p with workers := Function.update p.workers w x }

/-- One step; `none` when the step is not possible. -/
def step (start : J → Conv Cmd Rep α) (exec : S → Cmd → S × Rep)
    (p : Pool ι J Cmd Rep α S) : Label ι J → Option (Pool ι J Cmd Rep α S)
  | .enqueue j => some { p with issued := p.issued ++ [j] }
  | .take w =>
    match (p.workers w).phase, p.issued[p.taken]? with
    | .idle, some j =>
      some ({ p with taken := p.taken + 1 }.set w
        ⟨.running p.taken j (start j), (p.workers w).pipe⟩)
    | _, _ => none
  | .send w =>
    match (p.workers w).phase with
    | .running t j (.tell cmds next) =>
      some (p.set w ⟨.running t j next, (p.workers w).pipe ++ cmds.map (·, false)⟩)
    | .running t j (.ask cmds next) =>
      some (p.set w ⟨.waiting t j cmds [] next, (p.workers w).pipe ++ cmds.map (·, true)⟩)
    | _ => none
  | .exec w =>
    match (p.workers w).pipe with
    | (c, awaited) :: rest =>
      let (store, reply) := exec p.store c
      let phase := (p.workers w).phase
      some ({ p with store := store }.set w
        ⟨if awaited then phase.receive (some reply) else phase, rest⟩)
    | [] => none
  | .resume w =>
    match (p.workers w).phase with
    | .waiting t j cmds got next =>
      if got.length = cmds.length then
        some (p.set w ⟨.running t j (next got), (p.workers w).pipe⟩)
      else none
    | _ => none
  | .finish w =>
    match (p.workers w).phase with
    | .running t j (.done a) =>
      some ({ p with results := p.results ++ [(t, j, a)] }.set w ⟨.idle, (p.workers w).pipe⟩)
    | _ => none

inductive Steps (start : J → Conv Cmd Rep α) (exec : S → Cmd → S × Rep)
    (p : Pool ι J Cmd Rep α S) : Label ι J → Pool ι J Cmd Rep α S → Prop
  | enqueue (j : J) : Steps start exec p (.enqueue j) { p with issued := p.issued ++ [j] }
  | take (w : ι) (j : J) (pipe : List (Cmd × Bool)) (idle : p.workers w = ⟨.idle, pipe⟩)
      (next : p.issued[p.taken]? = some j) :
      Steps start exec p (.take w)
        ({ p with taken := p.taken + 1 }.set w ⟨.running p.taken j (start j), pipe⟩)
  | tell (w : ι) (t : ℕ) (j : J) (cmds : List Cmd) (next : Conv Cmd Rep α)
      (pipe : List (Cmd × Bool)) (at_tell : p.workers w = ⟨.running t j (.tell cmds next), pipe⟩) :
      Steps start exec p (.send w)
        (p.set w ⟨.running t j next, pipe ++ cmds.map (·, false)⟩)
  | ask (w : ι) (t : ℕ) (j : J) (cmds : List Cmd) (next : List (Option Rep) → Conv Cmd Rep α)
      (pipe : List (Cmd × Bool)) (at_ask : p.workers w = ⟨.running t j (.ask cmds next), pipe⟩) :
      Steps start exec p (.send w)
        (p.set w ⟨.waiting t j cmds [] next, pipe ++ cmds.map (·, true)⟩)
  | exec (w : ι) (phase : Phase J Cmd Rep α) (c : Cmd) (awaited : Bool)
      (rest : List (Cmd × Bool)) (head : p.workers w = ⟨phase, (c, awaited) :: rest⟩) :
      Steps start exec p (.exec w) ({ p with store := (exec p.store c).1 }.set w
        ⟨if awaited then phase.receive (some (exec p.store c).2) else phase, rest⟩)
  | resume (w : ι) (t : ℕ) (j : J) (cmds : List Cmd) (got : List (Option Rep))
      (next : List (Option Rep) → Conv Cmd Rep α) (pipe : List (Cmd × Bool))
      (all : p.workers w = ⟨.waiting t j cmds got next, pipe⟩)
      (len : got.length = cmds.length) :
      Steps start exec p (.resume w) (p.set w ⟨.running t j (next got), pipe⟩)
  | finish (w : ι) (t : ℕ) (j : J) (a : α) (pipe : List (Cmd × Bool))
      (at_done : p.workers w = ⟨.running t j (.done a), pipe⟩) :
      Steps start exec p (.finish w)
        ({ p with results := p.results ++ [(t, j, a)] }.set w ⟨.idle, pipe⟩)

theorem step_cases {start : J → Conv Cmd Rep α} {exec : S → Cmd → S × Rep}
    {p q : Pool ι J Cmd Rep α S} {l : Label ι J} (h : step start exec p l = some q) :
    Steps start exec p l q := by
  cases l with
  | enqueue j =>
    obtain rfl : _ = q := by simpa [step] using h
    exact .enqueue j
  | take w =>
    rcases hw : p.workers w with ⟨phase, pipe⟩
    cases phase <;> cases hj : p.issued[p.taken]? <;> simp [step, hw, hj] at h
    subst h
    exact .take w _ pipe hw hj
  | send w =>
    rcases hw : p.workers w with ⟨phase, pipe⟩
    cases phase with
    | running t j conv =>
      cases conv <;> simp [step, hw] at h
      · subst h
        exact .tell w t j _ _ pipe hw
      · subst h
        exact .ask w t j _ _ pipe hw
    | _ => simp [step, hw] at h
  | exec w =>
    rcases hw : p.workers w with ⟨phase, _ | ⟨⟨c, awaited⟩, rest⟩⟩
    · simp [step, hw] at h
    · simp only [step, hw, Option.some.injEq] at h
      subst h
      exact .exec w phase c awaited rest hw
  | resume w =>
    rcases hw : p.workers w with ⟨phase, pipe⟩
    cases phase <;> simp [step, hw] at h
    obtain ⟨hlen, rfl⟩ := h
    exact .resume w _ _ _ _ _ pipe hw hlen
  | finish w =>
    rcases hw : p.workers w with ⟨phase, pipe⟩
    cases phase with
    | running t j conv =>
      cases conv <;> simp [step, hw] at h
      subst h
      exact .finish w t j _ pipe hw
    | _ => simp [step, hw] at h

@[simp] lemma set_workers_same (p : Pool ι J Cmd Rep α S) (w : ι) (x : Worker J Cmd Rep α) :
    (p.set w x).workers w = x := Function.update_self ..

lemma set_workers_of_ne (p : Pool ι J Cmd Rep α S) {w v : ι} (x : Worker J Cmd Rep α)
    (h : v ≠ w) : (p.set w x).workers v = p.workers v := Function.update_of_ne h ..

lemma forall_workers_set {p : Pool ι J Cmd Rep α S} {w : ι} {x : Worker J Cmd Rep α}
    {P : ι → Worker J Cmd Rep α → Prop} (hx : P w x)
    (others : ∀ v, v ≠ w → P v (p.workers v)) : ∀ v, P v ((p.set w x).workers v) :=
  (Function.forall_update_iff p.workers P).mpr ⟨hx, others⟩

@[simp] lemma set_issued (p : Pool ι J Cmd Rep α S) (w : ι) (x : Worker J Cmd Rep α) :
    (p.set w x).issued = p.issued := rfl
@[simp] lemma set_taken (p : Pool ι J Cmd Rep α S) (w : ι) (x : Worker J Cmd Rep α) :
    (p.set w x).taken = p.taken := rfl
@[simp] lemma set_store (p : Pool ι J Cmd Rep α S) (w : ι) (x : Worker J Cmd Rep α) :
    (p.set w x).store = p.store := rfl
@[simp] lemma set_results (p : Pool ι J Cmd Rep α S) (w : ι) (x : Worker J Cmd Rep α) :
    (p.set w x).results = p.results := rfl

theorem issued_step {start : J → Conv Cmd Rep α} {exec : S → Cmd → S × Rep}
    {p q : Pool ι J Cmd Rep α S} {l : Label ι J} {P : J → Prop}
    (hl : step start exec p l = some q) (enqueued : ∀ j, l = .enqueue j → P j)
    (h : ∀ j ∈ p.issued, P j) : ∀ j ∈ q.issued, P j := by
  cases step_cases hl with
  | enqueue j =>
    intro i hi
    rcases List.mem_append.mp hi with hi | hi
    · exact h i hi
    · obtain rfl := List.mem_singleton.mp hi
      exact enqueued _ rfl
  | _ => exact h

def Pool.initial (store : S) : Pool ι J Cmd Rep α S where
  issued := []
  taken := 0
  workers := fun _ => ⟨.idle, []⟩
  store := store
  results := []

/-- Follow a list of steps; used to exhibit a schedule. -/
def follow (start : J → Conv Cmd Rep α) (exec : S → Cmd → S × Rep)
    (p : Pool ι J Cmd Rep α S) : List (Label ι J) → Option (Pool ι J Cmd Rep α S)
  | [] => some p
  | l :: ls => (step start exec p l).bind fun q => follow start exec q ls

def trail (start : J → Conv Cmd Rep α) (exec : S → Cmd → S × Rep) :
    Pool ι J Cmd Rep α S → List (Label ι J) → List (Pool ι J Cmd Rep α S × Label ι J)
  | _, [] => []
  | p, l :: ls =>
    match step start exec p l with
    | none => []
    | some q => (p, l) :: trail start exec q ls

theorem follow_run {start : J → Conv Cmd Rep α} {exec : S → Cmd → S × Rep}
    {p q : Pool ι J Cmd Rep α S} {ls : List (Label ι J)}
    (h : follow start exec p ls = some q) :
    Run (fun a l b => step start exec a l = some b) p (trail start exec p ls) q := by
  induction ls generalizing p with
  | nil =>
    obtain rfl : p = q := by simpa [follow] using h
    exact .refl
  | cons l ls ih =>
    obtain ⟨m, hm, hrest⟩ := Option.bind_eq_some_iff.mp h
    have first : Run (fun a l b => step start exec a l = some b) p [(p, l)] m := .one hm
    simp only [trail, hm]
    exact first.trans (ih hrest)

lemma trail_labels {start : J → Conv Cmd Rep α} {exec : S → Cmd → S × Rep}
    {p : Pool ι J Cmd Rep α S} {ls : List (Label ι J)} :
    ∀ x ∈ trail start exec p ls, x.2 ∈ ls := by
  induction ls generalizing p with
  | nil => simp [trail]
  | cons l ls ih =>
    intro x hx
    simp only [trail] at hx
    split at hx
    · cases hx
    · rcases List.mem_cons.mp hx with rfl | hx
      · exact List.mem_cons_self ..
      · exact List.mem_cons_of_mem _ (ih x hx)

section Invariant

/-- A worker's conversation keeps its contract, and its unread replies are allowed ones. -/
def Phase.Ok (sto : ℕ → Cmd → Option Rep → Prop) (C : Cmd → Prop) (post : ℕ → J → α → Prop)
    (phase : Phase J Cmd Rep α) (pipe : List (Cmd × Bool)) : Prop :=
  match phase with
  | .idle => ∃ told : List Cmd, pipe = told.map (·, false)
  | .running t j conv =>
    (∃ told : List Cmd, pipe = told.map (·, false)) ∧ conv.Keeps (sto t) C (post t j)
  | .waiting t j cmds got next => ∃ told answered left : List Cmd,
    pipe = told.map (·, false) ++ left.map (·, true) ∧ cmds = answered ++ left ∧
    List.Forall₂ (sto t) answered got ∧
    ∀ replies, List.Forall₂ (sto t) cmds replies → (next replies).Keeps (sto t) C (post t j)

structure Pool.Inv (sto : ℕ → Cmd → Option Rep → Prop) (C : Cmd → Prop)
    (post : ℕ → J → α → Prop) (p : Pool ι J Cmd Rep α S) : Prop where
  pipes : ∀ w, ∀ x ∈ (p.workers w).pipe, C x.1
  workers : ∀ w, (p.workers w).phase.Ok sto C post (p.workers w).pipe
  results : ∀ r ∈ p.results, post r.1 r.2.1 r.2.2

variable {sto : ℕ → Cmd → Option Rep → Prop} {C : Cmd → Prop} {post : ℕ → J → α → Prop}
  {start : J → Conv Cmd Rep α} {exec : S → Cmd → S × Rep} {p q : Pool ι J Cmd Rep α S}

omit [DecidableEq ι] in
lemma Pool.Inv.initial (store : S) :
    (Pool.initial store : Pool ι J Cmd Rep α S).Inv sto C post where
  pipes := by simp [Pool.initial]
  workers w := ⟨[], rfl⟩
  results := by simp [Pool.initial]

lemma Pool.Inv.set (h : p.Inv sto C post) (w : ι) (x : Worker J Cmd Rep α)
    (hpipe : ∀ y ∈ x.pipe, C y.1) (hphase : x.phase.Ok sto C post x.pipe) :
    (p.set w x).Inv sto C post where
  pipes := forall_workers_set (P := fun _ v => ∀ y ∈ v.pipe, C y.1) hpipe fun v _ => h.pipes v
  workers := forall_workers_set (P := fun _ v => v.phase.Ok sto C post v.pipe) hphase
    fun v _ => h.workers v
  results := h.results

omit [DecidableEq ι] in
lemma told_tail {c : Cmd} {awaited : Bool} {rest : List (Cmd × Bool)} {told : List Cmd}
    (h : (c, awaited) :: rest = told.map (·, false)) :
    awaited = false ∧ ∃ told : List Cmd, rest = told.map (·, false) := by
  cases told with
  | nil => simp at h
  | cons d told =>
    simp only [List.map_cons, List.cons.injEq, Prod.mk.injEq] at h
    exact ⟨h.1.2, told, h.2⟩

lemma Phase.Ok.receive {phase : Phase J Cmd Rep α} {c : Cmd} {awaited : Bool}
    {rest : List (Cmd × Bool)} {reply : Rep}
    (h : phase.Ok sto C post ((c, awaited) :: rest))
    (hsto : awaited = true → ∀ t j cmds got next, phase = .waiting t j cmds got next →
      sto t c (some reply)) :
    (if awaited then phase.receive (some reply) else phase).Ok sto C post rest := by
  cases phase with
  | idle =>
    obtain ⟨told, ht⟩ := h
    obtain ⟨rfl, htail⟩ := told_tail ht
    exact htail
  | running t j conv =>
    obtain ⟨⟨told, ht⟩, hk⟩ := h
    obtain ⟨rfl, htail⟩ := told_tail ht
    exact ⟨htail, hk⟩
  | waiting t j cmds got next =>
    obtain ⟨told, answered, left, hpipe, rfl, hgot, hk⟩ := h
    cases told with
    | nil =>
      cases left with
      | nil => simp at hpipe
      | cons d left =>
        simp only [List.map_nil, List.nil_append, List.map_cons, List.cons.injEq,
          Prod.mk.injEq] at hpipe
        obtain ⟨⟨rfl, rfl⟩, rfl⟩ := hpipe
        have hr := hsto rfl t j _ got next rfl
        exact ⟨[], answered ++ [c], left, rfl, by simp,
          List.rel_append hgot (.cons hr .nil), hk⟩
    | cons d told =>
      simp only [List.map_cons, List.cons_append, List.cons.injEq, Prod.mk.injEq] at hpipe
      obtain ⟨⟨rfl, rfl⟩, rfl⟩ := hpipe
      exact ⟨told, answered, left, rfl, rfl, hgot, hk⟩

/-- Every step keeps the invariant, if a job that is taken starts with a conversation that
keeps its contract and an awaited command is executed where its reply is allowed. -/
theorem Pool.Inv.step (h : p.Inv sto C post) {l : Label ι J} (hl : step start exec p l = some q)
    (hstart : ∀ w j, l = .take w → p.issued[p.taken]? = some j →
      (start j).Keeps (sto p.taken) C (post p.taken j))
    (hexec : ∀ w t j cmds got next c rest, l = .exec w →
      p.workers w = ⟨.waiting t j cmds got next, (c, true) :: rest⟩ →
      sto t c (some (exec p.store c).2)) : q.Inv sto C post := by
  cases step_cases hl with
  | enqueue j => exact ⟨h.pipes, h.workers, h.results⟩
  | take w j pipe idle next =>
    have hp := h.pipes w
    have hw := h.workers w
    rw [idle] at hp hw
    have h' : ({ p with taken := p.taken + 1 } : Pool ι J Cmd Rep α S).Inv sto C post :=
      ⟨h.pipes, h.workers, h.results⟩
    refine h'.set w ⟨_, pipe⟩ hp ?_
    exact ⟨hw, hstart w j rfl next⟩
  | tell w t j cmds next pipe at_tell =>
    have hp := h.pipes w
    have hw := h.workers w
    rw [at_tell] at hp hw
    obtain ⟨⟨told, rfl⟩, hC, hk⟩ := hw
    refine h.set w ⟨_, _⟩ ?_ ⟨⟨told ++ cmds, by simp⟩, hk⟩
    intro y hy
    rcases List.mem_append.mp hy with hy | hy
    · exact hp y hy
    · obtain ⟨c, hc, rfl⟩ := List.mem_map.mp hy
      exact hC c hc
  | ask w t j cmds next pipe at_ask =>
    have hp := h.pipes w
    have hw := h.workers w
    rw [at_ask] at hp hw
    obtain ⟨⟨told, rfl⟩, hC, hk⟩ := hw
    refine h.set w ⟨_, _⟩ ?_ ⟨told, [], cmds, rfl, rfl, .nil, hk⟩
    intro y hy
    rcases List.mem_append.mp hy with hy | hy
    · exact hp y hy
    · obtain ⟨c, hc, rfl⟩ := List.mem_map.mp hy
      exact hC c hc
  | exec w phase c awaited rest head =>
    have hp := h.pipes w
    have hw := h.workers w
    rw [head] at hp hw
    have h' : ({ p with store := (exec p.store c).1 } : Pool ι J Cmd Rep α S).Inv sto C post :=
      ⟨h.pipes, h.workers, h.results⟩
    refine h'.set w ⟨_, rest⟩ (fun y hy => hp y (List.mem_cons_of_mem _ hy)) ?_
    apply Phase.Ok.receive hw
    rintro rfl t j cmds got next rfl
    exact hexec w t j cmds got next c rest rfl head
  | resume w t j cmds got next pipe all len =>
    have hp := h.pipes w
    have hw := h.workers w
    rw [all] at hp hw
    obtain ⟨told, answered, left, rfl, rfl, hgot, hk⟩ := hw
    have hleft : left = [] := by
      have := hgot.length_eq
      simp only [List.length_append] at len
      exact List.length_eq_zero_iff.mp (by omega)
    subst hleft
    exact h.set w ⟨_, _⟩ hp ⟨⟨told, by simp⟩, hk got (by simpa using hgot)⟩
  | finish w t j a pipe at_done =>
    have hp := h.pipes w
    have hw := h.workers w
    rw [at_done] at hp hw
    have h' : ({ p with results := p.results ++ [(t, j, a)] } :
        Pool ι J Cmd Rep α S).Inv sto C post := by
      refine ⟨h.pipes, h.workers, ?_⟩
      intro r hr
      rcases List.mem_append.mp hr with hr | hr
      · exact h.results r hr
      · obtain rfl := List.mem_singleton.mp hr
        exact hw.2
    exact h'.set w ⟨.idle, pipe⟩ hp hw.1

/-- The store keeps what every command that may be issued keeps. -/
theorem Pool.Inv.store {I : S → Prop} (h : p.Inv sto C post) {l : Label ι J}
    (hl : WorkerPool.step start exec p l = some q) (hI : I p.store)
    (hexec : ∀ s c, I s → C c → I (exec s c).1) : I q.store := by
  cases step_cases hl with
  | exec w phase c awaited rest head =>
    have hC := h.pipes w
    rw [head] at hC
    exact hexec _ _ hI (hC _ (List.mem_cons_self ..))
  | _ => exact hI

lemma Phase.Ok.mono {post' : ℕ → J → α → Prop} {phase : Phase J Cmd Rep α}
    {pipe : List (Cmd × Bool)} (h : phase.Ok sto C post pipe)
    (hpost : ∀ t j a, post t j a → post' t j a) : phase.Ok sto C post' pipe := by
  have hkeeps : ∀ {t j} {conv : Conv Cmd Rep α}, conv.Keeps (sto t) C (post t j) →
      conv.Keeps (sto t) C (post' t j) :=
    fun hk => hk.imp fun a => hpost _ _ a
  cases phase with
  | idle => exact h
  | running t j conv => exact ⟨h.1, hkeeps h.2⟩
  | waiting t j cmds got next =>
    obtain ⟨told, answered, left, hpipe, hcmds, hgot, hk⟩ := h
    exact ⟨told, answered, left, hpipe, hcmds, hgot, fun replies hr => hkeeps (hk replies hr)⟩

omit [DecidableEq ι] in
lemma Pool.Inv.mono {post' : ℕ → J → α → Prop} (h : p.Inv sto C post)
    (hpost : ∀ t j a, post t j a → post' t j a) (issued : List J) :
    ({ p with issued := issued } : Pool ι J Cmd Rep α S).Inv sto C post' where
  pipes := h.pipes
  workers w := (h.workers w).mono hpost
  results r hr := hpost _ _ _ (h.results r hr)

end Invariant

section Stores
variable {T : Type}

/-- The same queue, workers and results over another store. -/
def mapStore (f : S → T) (p : Pool ι J Cmd Rep α S) : Pool ι J Cmd Rep α T where
  issued := p.issued
  taken := p.taken
  workers := p.workers
  store := f p.store
  results := p.results

def executes (p : Pool ι J Cmd Rep α S) : Label ι J → Option Cmd
  | .exec w => (p.workers w).pipe.head?.map Prod.fst
  | _ => none

variable {start : J → Conv Cmd Rep α} {exec : S → Cmd → S × Rep}
  {exec' : T → Cmd → T × Rep} {p q : Pool ι J Cmd Rep α S} {l : Label ι J}

theorem store_step (h : step start exec p l = some q) :
    q.store = ((executes p l).map fun c => (exec p.store c).1).getD p.store := by
  cases step_cases h with
  | exec w phase c awaited rest head =>
    simp only [executes, head, List.head?_cons, Option.map_some, Option.getD_some]
    rfl
  | _ => rfl

lemma step_mapStore (f : S → T) (h : step start exec p l = some q)
    (agree : ∀ c, executes p l = some c →
      exec' (f p.store) c = (f (exec p.store c).1, (exec p.store c).2)) :
    step start exec' (mapStore f p) l = some (mapStore f q) := by
  cases step_cases h with
  | enqueue j => rfl
  | take w j pipe idle next => simp [step, mapStore, idle, next, Pool.set]
  | tell w t j cmds next pipe at_tell => simp [step, mapStore, at_tell, Pool.set]
  | ask w t j cmds next pipe at_ask => simp [step, mapStore, at_ask, Pool.set]
  | exec w phase c awaited rest head =>
    have same := agree c (by simp [executes, head])
    simp [step, mapStore, head, Pool.set, same]
  | resume w t j cmds got next pipe all len => simp [step, mapStore, all, len, Pool.set]
  | finish w t j a pipe at_done => simp [step, mapStore, at_done, Pool.set]

end Stores

end ClientPrefs.WorkerPool
