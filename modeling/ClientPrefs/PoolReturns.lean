import ClientPrefs.PoolReads

/-!
# Jobs of a pool that return

Which conversations are never lost, what they tell before they return, and that a pool in
which no worker can move has finished them.
-/
namespace ClientPrefs.PoolReturns
open Conversation Conv PoolReads Transition WorkerPool

variable {ι J Cmd Rep α S : Type}

/-- With allowed replies the conversation is not lost, and it tells a command of `W` or returns
a result of `post`. -/
def Until (sto : Cmd → Option Rep → Prop) (W : Cmd → Prop) (post : α → Prop) :
    Conv Cmd Rep α → Prop
  | .done a => post a
  | .died => False
  | .tell cmds next => (∃ c ∈ cmds, W c) ∨ Until sto W post next
  | .ask cmds next => ∀ replies, List.Forall₂ sto cmds replies → Until sto W post (next replies)

lemma Until.command_bind {β : Type} {sto : Cmd → Option Rep → Prop} {W : Cmd → Prop}
    {post : β → Prop} {x : Cmd} {f : Option Rep → Conv Cmd Rep β}
    (h : ∀ r, sto x r → Until sto W post (f r)) : Until sto W post (Conv.command x >>= f) := by
  intro replies hr
  obtain ⟨r, rest, hr₀, hnil, rfl⟩ := List.forall₂_cons_left_iff.mp hr
  exact h r hr₀

/-- A job of `mine` still has the conversation of `Until` before it. -/
def Pending (mine : J → Prop) (sto : Cmd → Option Rep → Prop) (W : Cmd → Prop) (post : α → Prop)
    (x : Worker J Cmd Rep α) : Prop :=
  match x.phase with
  | .idle => ∃ told : List Cmd, x.pipe = told.map (·, false)
  | .running _ j conv => (∃ told : List Cmd, x.pipe = told.map (·, false)) ∧
    (mine j → Until sto W post conv)
  | .waiting _ j cmds got next => ∃ told answered left : List Cmd,
    x.pipe = told.map (·, false) ++ left.map (·, true) ∧ cmds = answered ++ left ∧
    got.length = answered.length ∧ (mine j → List.Forall₂ sto answered got ∧
      ∀ replies, List.Forall₂ sto cmds replies → Until sto W post (next replies))

structure AllPending (mine : J → Prop) (sto : Cmd → Option Rep → Prop) (W : Cmd → Prop)
    (post : α → Prop) (p : Pool ι J Cmd Rep α S) : Prop where
  workers : ∀ w, Pending mine sto W post (p.workers w)
  results : ∀ r ∈ p.results, mine r.2.1 → post r.2.2

def Told (W : Cmd → Prop) (p : Pool ι J Cmd Rep α S) : Prop :=
  ∃ w, ∃ x ∈ (p.workers w).pipe, W x.1

section Steps
variable [DecidableEq ι] {mine : J → Prop} {sto : Cmd → Option Rep → Prop} {W : Cmd → Prop}
  {post : α → Prop} {start : J → Conv Cmd Rep α} {exec : S → Cmd → S × Rep}
  {p q : Pool ι J Cmd Rep α S} {l : Label ι J}

omit [DecidableEq ι] in
lemma AllPending.initial (store : S) :
    AllPending mine sto W post (Pool.initial store : Pool ι J Cmd Rep α S) :=
  ⟨fun _ => ⟨[], rfl⟩, by simp [Pool.initial]⟩

lemma AllPending.set (h : AllPending mine sto W post p) {w : ι} {x : Worker J Cmd Rep α}
    (hx : Pending mine sto W post x) : AllPending mine sto W post (p.set w x) :=
  ⟨forall_workers_set (P := fun _ => Pending mine sto W post) hx fun v _ => h.workers v, h.results⟩

lemma Pending.receive {phase : Phase J Cmd Rep α} {c : Cmd} {awaited : Bool}
    {rest : List (Cmd × Bool)} {reply : Rep}
    (h : Pending mine sto W post ⟨phase, (c, awaited) :: rest⟩) (hsto : sto c (some reply)) :
    Pending mine sto W post ⟨if awaited then phase.receive (some reply) else phase, rest⟩ := by
  cases phase with
  | idle =>
    obtain ⟨told, ht⟩ := h
    obtain ⟨rfl, htail⟩ := told_tail ht
    exact htail
  | running t j conv =>
    obtain ⟨⟨told, ht⟩, hk⟩ := h
    obtain ⟨rfl, htail⟩ := told_tail ht
    exact ⟨htail, hk⟩
  | waiting t j cmds got next =>
    obtain ⟨told, answered, left, hpipe, rfl, hlen, hk⟩ := h
    cases told with
    | nil =>
      cases left with
      | nil => simp at hpipe
      | cons d left =>
        simp only [List.map_nil, List.nil_append, List.map_cons, List.cons.injEq,
          Prod.mk.injEq] at hpipe
        obtain ⟨⟨rfl, rfl⟩, rfl⟩ := hpipe
        refine ⟨[], answered ++ [c], left, rfl, by simp, by simp [hlen], fun hmine => ?_⟩
        obtain ⟨hgot, hnext⟩ := hk hmine
        exact ⟨List.rel_append hgot (.cons hsto .nil), hnext⟩
    | cons d told =>
      simp only [List.map_cons, List.cons_append, List.cons.injEq, Prod.mk.injEq] at hpipe
      obtain ⟨⟨rfl, rfl⟩, rfl⟩ := hpipe
      exact ⟨told, answered, left, rfl, rfl, hlen, hk⟩

lemma AllPending.steps (h : AllPending mine sto W post p) (hl : step start exec p l = some q)
    (hstart : ∀ j, mine j → Until sto W post (start j))
    (hexec : ∀ c, sto c (some (exec p.store c).2)) :
    AllPending mine sto W post q ∨ Told W q := by
  cases step_cases hl with
  | enqueue j => exact .inl ⟨h.workers, h.results⟩
  | take w j pipe idle next =>
    have hw := h.workers w
    rw [idle] at hw
    have h' : AllPending mine sto W post { p with taken := p.taken + 1 } := ⟨h.workers, h.results⟩
    exact .inl (h'.set ⟨hw, hstart j⟩)
  | tell w t j cmds next pipe at_tell =>
    have hw := h.workers w
    rw [at_tell] at hw
    obtain ⟨⟨told, hpipe⟩, hconv⟩ := hw
    by_cases htells : ∃ c ∈ cmds, W c
    · right
      obtain ⟨c, hc, hW⟩ := htells
      refine ⟨w, (c, false), ?_, hW⟩
      rw [set_workers_same]
      exact List.mem_append_right _ (List.mem_map_of_mem hc)
    · left
      have hpipe' : pipe = told.map (·, false) := hpipe
      refine h.set ⟨⟨told ++ cmds, ?_⟩, fun hmine => (hconv hmine).resolve_left htells⟩
      simp [hpipe']
  | ask w t j cmds next pipe at_ask =>
    have hw := h.workers w
    rw [at_ask] at hw
    obtain ⟨⟨told, hpipe⟩, hconv⟩ := hw
    have hpipe' : pipe = told.map (·, false) := hpipe
    left
    refine h.set ⟨told, [], cmds, ?_, rfl, rfl, fun hmine => ⟨.nil, hconv hmine⟩⟩
    simp [hpipe']
  | exec w phase c awaited rest head =>
    have hw := h.workers w
    rw [head] at hw
    have h' : AllPending mine sto W post { p with store := (exec p.store c).1 } :=
      ⟨h.workers, h.results⟩
    exact .inl (h'.set (Pending.receive hw (hexec c)))
  | resume w t j cmds got next pipe all len =>
    have hw := h.workers w
    rw [all] at hw
    obtain ⟨told, answered, left, hpipe, rfl, hgot, hconv⟩ := hw
    obtain rfl : left = [] := by
      rw [List.length_append] at len
      exact List.length_eq_zero_iff.mp (by omega)
    have hpipe' : pipe = told.map (·, false) := by simpa using hpipe
    left
    refine h.set ⟨⟨told, hpipe'⟩, fun hmine => ?_⟩
    obtain ⟨hforall, hnext⟩ := hconv hmine
    exact hnext got (by simpa using hforall)
  | finish w t j a pipe at_done =>
    have hw := h.workers w
    rw [at_done] at hw
    have h' : AllPending mine sto W post { p with results := p.results ++ [(t, j, a)] } := by
      refine ⟨h.workers, fun r hr hmine => ?_⟩
      rcases List.mem_append.mp hr with hr | hr
      · exact h.results r hr hmine
      · obtain rfl := List.mem_singleton.mp hr
        exact hw.2 hmine
    exact .inl (h'.set (x := ⟨.idle, pipe⟩) hw.1)

theorem told_step (h : Told W p) (hl : step start exec p l = some q) :
    Told W q ∨ ∃ c, W c ∧ q.store = (exec p.store c).1 := by
  obtain ⟨v, x, hx, hW⟩ := h
  have hset : ∀ {w : ι} {y : Worker J Cmd Rep α} {p' : Pool ι J Cmd Rep α S},
      p'.workers = p.workers → (v = w → x ∈ y.pipe) → Told W (p'.set w y) := by
    intro w y p' hsame hy
    refine ⟨v, x, ?_, hW⟩
    by_cases hv : v = w
    · subst hv
      rw [set_workers_same]
      exact hy rfl
    · rw [set_workers_of_ne _ _ hv, hsame]
      exact hx
  cases step_cases hl with
  | enqueue j => exact .inl ⟨v, x, hx, hW⟩
  | take w j pipe idle next =>
    refine .inl (hset (by rfl) ?_)
    rintro rfl
    rwa [idle] at hx
  | tell w t j cmds next pipe at_tell =>
    refine .inl (hset rfl ?_)
    rintro rfl
    rw [at_tell] at hx
    exact List.mem_append_left _ hx
  | ask w t j cmds next pipe at_ask =>
    refine .inl (hset rfl ?_)
    rintro rfl
    rw [at_ask] at hx
    exact List.mem_append_left _ hx
  | exec w phase c awaited rest head =>
    by_cases hv : v = w
    · subst hv
      rw [head] at hx
      rcases List.mem_cons.mp hx with rfl | hx
      · exact .inr ⟨c, hW, rfl⟩
      · exact .inl (hset (by rfl) fun _ => hx)
    · exact .inl (hset (by rfl) fun h => absurd h hv)
  | resume w t j cmds got next pipe all len =>
    refine .inl (hset rfl ?_)
    rintro rfl
    rwa [all] at hx
  | finish w t j a pipe at_done =>
    refine .inl (hset (by rfl) ?_)
    rintro rfl
    rwa [at_done] at hx

/-- No worker can take a step. -/
def AtRest (start : J → Conv Cmd Rep α) (exec : S → Cmd → S × Rep) (p : Pool ι J Cmd Rep α S) :
    Prop := ∀ l q, step start exec p l = some q → ∃ j, l = .enqueue j

/-- Every job that was taken is with a worker or has a result. -/
structure Accounted (p : Pool ι J Cmd Rep α S) : Prop where
  range : p.taken ≤ p.issued.length
  held : ∀ t j, t < p.taken → p.issued[t]? = some j →
    (∃ w, Phase.job? (p.workers w).phase = some (t, j)) ∨ ∃ a, (t, j, a) ∈ p.results

omit [DecidableEq ι] in
lemma Accounted.initial (store : S) : Accounted (Pool.initial store : Pool ι J Cmd Rep α S) :=
  ⟨Nat.le_refl _, fun t _ ht => absurd ht (Nat.not_lt_zero t)⟩

theorem results_step (hl : step start exec p l = some q) : p.results ⊆ q.results := by
  cases step_cases hl with
  | finish w t j a pipe at_done => exact List.subset_append_left _ _
  | _ => exact List.Subset.refl _

theorem job_step (hl : step start exec p l = some q) {v : ι} {t : ℕ} {j : J}
    (hj : Phase.job? (p.workers v).phase = some (t, j)) :
    Phase.job? (q.workers v).phase = some (t, j) ∨ ∃ a, (t, j, a) ∈ q.results := by
  have hset : ∀ {w : ι} {x : Worker J Cmd Rep α} {p' : Pool ι J Cmd Rep α S},
      p'.workers = p.workers → (v = w → Phase.job? x.phase = some (t, j)) →
      Phase.job? ((p'.set w x).workers v).phase = some (t, j) := by
    intro w x p' hsame hx
    by_cases hv : v = w
    · subst hv
      rw [set_workers_same]
      exact hx rfl
    · rw [set_workers_of_ne _ _ hv, hsame]
      exact hj
  cases step_cases hl with
  | enqueue i => exact .inl hj
  | take w i pipe idle next =>
    refine .inl (hset (by rfl) ?_)
    rintro rfl
    rw [idle] at hj
    cases hj
  | tell w k i cmds next pipe at_tell =>
    refine .inl (hset rfl ?_)
    rintro rfl
    rwa [at_tell] at hj
  | ask w k i cmds next pipe at_ask =>
    refine .inl (hset rfl ?_)
    rintro rfl
    rwa [at_ask] at hj
  | exec w phase c awaited rest head =>
    refine .inl (hset (by rfl) ?_)
    rintro rfl
    rw [head] at hj
    cases awaited <;> cases phase <;> exact hj
  | resume w k i cmds got next pipe all len =>
    refine .inl (hset rfl ?_)
    rintro rfl
    rwa [all] at hj
  | finish w k i a pipe at_done =>
    by_cases hv : v = w
    · subst hv
      rw [at_done] at hj
      obtain ⟨rfl, rfl⟩ : k = t ∧ i = j := by simpa [Phase.job?] using hj
      exact .inr ⟨a, List.mem_append_right _ (List.mem_singleton_self _)⟩
    · exact .inl (hset rfl fun h => absurd h hv)

theorem Accounted.step (h : Accounted p) (hl : step start exec p l = some q) : Accounted q := by
  have kept : ∀ t j, t < p.taken → p.issued[t]? = some j →
      (∃ w, Phase.job? (q.workers w).phase = some (t, j)) ∨ ∃ a, (t, j, a) ∈ q.results := by
    intro t j ht hj
    rcases h.held t j ht hj with ⟨w, hw⟩ | ⟨a, ha⟩
    · rcases job_step hl hw with hw | hresult
      · exact .inl ⟨w, hw⟩
      · exact .inr hresult
    · exact .inr ⟨a, results_step hl ha⟩
  cases step_cases hl with
  | enqueue i =>
    have hlonger : p.taken ≤ (p.issued ++ [i]).length :=
      Nat.le_trans h.range (List.prefix_append _ _).length_le
    refine ⟨hlonger, fun t j ht hj => kept t j ht ?_⟩
    rwa [List.getElem?_append_left (Nat.lt_of_lt_of_le ht h.range)] at hj
  | take w i pipe idle next =>
    refine ⟨(List.getElem?_eq_some_iff.mp next).1, fun t j ht hj => ?_⟩
    rcases Nat.lt_succ_iff_lt_or_eq.mp ht with hlt | rfl
    · exact kept t j hlt hj
    · obtain rfl : i = j := Option.some.inj (next.symm.trans hj)
      refine .inl ⟨w, ?_⟩
      rw [set_workers_same]
      rfl
  | _ => exact ⟨h.range, kept⟩

lemma AllPending.at_rest (h : AllPending mine sto W post p) (rest : AtRest start exec p) (w : ι) :
    (p.workers w).pipe = [] ∧ ((p.workers w).phase = .idle ∨
      ∃ t j, (p.workers w).phase = .running t j .died ∧ ¬ mine j) := by
  have stuck : ∀ l, (∀ j, l ≠ .enqueue j) → step start exec p l = none := by
    intro l hl
    cases hstep : step start exec p l with
    | none => rfl
    | some q =>
      obtain ⟨j, rfl⟩ := rest l q hstep
      exact absurd rfl (hl j)
  have hw := h.workers w
  rcases hx : p.workers w with ⟨phase, pipe⟩
  rw [hx] at hw
  have hpipe : pipe = [] := by
    cases pipe with
    | nil => rfl
    | cons x pipe => simpa [step, hx] using stuck (.exec w) (by simp)
  subst hpipe
  refine ⟨rfl, ?_⟩
  cases phase with
  | idle => exact .inl rfl
  | running t j conv =>
    right
    cases conv with
    | done a => simpa [step, hx] using stuck (.finish w) (by simp)
    | died => exact ⟨t, j, rfl, hw.2⟩
    | tell cmds next => simpa [step, hx] using stuck (.send w) (by simp)
    | ask cmds next => simpa [step, hx] using stuck (.send w) (by simp)
  | waiting t j cmds got next =>
    obtain ⟨told, answered, left, hnil, rfl, hlen, _⟩ := hw
    obtain ⟨_, hleft⟩ := List.append_eq_nil_iff.mp hnil.symm
    obtain rfl : left = [] := List.map_eq_nil_iff.mp hleft
    simpa [step, hx, hlen] using stuck (.resume w) (by simp)

/-- In a pool at rest every job of `mine` that was taken has its result. -/
theorem AllPending.returned (h : AllPending mine sto W post p) (accounted : Accounted p)
    (rest : AtRest start exec p) {t : ℕ} {j : J} (ht : t < p.taken) (hj : p.issued[t]? = some j)
    (hmine : mine j) : ∃ a, (t, j, a) ∈ p.results := by
  refine (accounted.held t j ht hj).resolve_left ?_
  rintro ⟨w, hw⟩
  rcases (h.at_rest rest w).2 with hidle | ⟨k, i, hdied, hnot⟩
  · rw [hidle] at hw
    cases hw
  · rw [hdied] at hw
    obtain ⟨rfl, rfl⟩ : k = t ∧ i = j := by simpa [Phase.job?] using hw
    exact hnot hmine

lemma taken_of_rest (accounted : Accounted p) (rest : AtRest start exec p) {w : ι}
    (idle : (p.workers w).phase = .idle) : p.taken = p.issued.length := by
  refine Nat.le_antisymm accounted.range (Nat.le_of_not_lt fun hlt => ?_)
  obtain ⟨q, htake⟩ : ∃ q, step start exec p (.take w) = some q := by
    simp [step, idle, List.getElem?_eq_getElem hlt]
  obtain ⟨j, hj⟩ := rest _ q htake
  cases hj

end Steps

end ClientPrefs.PoolReturns
