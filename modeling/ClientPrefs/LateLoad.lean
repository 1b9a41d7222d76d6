import ClientPrefs.CookieManager

/-!
# The late-load loop

`CatchLateLoadClients` and `OnClientAuthorized` call each other. The nesting ends
because every call flags one more client, and the result is that every client that
was missed is flagged and gets one `SelectData` query.
-/
namespace ClientPrefs.LateLoad
open ByteStrings Cookies CookieManager

variable (cfg : Config)

/-- An authorized, not fake client that is neither pending nor cached. -/
def missed (s : Server) (i : ℕ) : Bool :=
  !s.statsPending i && !s.statsLoaded i &&
    (s.roster i).any fun p => p.authorized && !p.fake

def missedSlots (s : Server) : List ℕ := (List.range' 1 cfg.maxClients).filter (missed s)

def selectQuery (s : Server) (i : ℕ) : Option Query :=
  (s.roster i).map fun p => .selectData p.serial (steamIdOf p)

/-- Flag the clients of a list and select the data of each. -/
def authorizeAll (s : Server) (l : List ℕ) : Server :=
  { s with
    connected := fun i => decide (i ∈ l) || s.connected i
    statsPending := fun i => decide (i ∈ l) || s.statsPending i
    sent := s.sent ++ l.filterMap (selectQuery s) }

variable {cfg} {s : Server}

theorem missed_iff {i : ℕ} : missed s i = true ↔ s.statsPending i = false ∧
    s.statsLoaded i = false ∧ ∃ p, s.roster i = some p ∧ p.authorized = true ∧ p.fake = false := by
  cases h : s.roster i <;> simp [missed, h, and_assoc]

lemma mem_missedSlots {i : ℕ} :
    i ∈ missedSlots cfg s ↔ (1 ≤ i ∧ i ≤ cfg.maxClients) ∧ missed s i = true := by
  simp only [missedSlots, List.mem_filter, List.mem_range'_1]
  constructor
  · rintro ⟨⟨h1, h2⟩, h3⟩
    exact ⟨⟨h1, by omega⟩, h3⟩
  · rintro ⟨⟨h1, h2⟩, h3⟩
    exact ⟨⟨h1, by omega⟩, h3⟩

lemma missedSlots_length : (missedSlots cfg s).length ≤ cfg.maxClients := by
  have := List.length_filter_le (missed s) (List.range' 1 cfg.maxClients)
  rwa [List.length_range'] at this

lemma missedSlots_sorted : (missedSlots cfg s).Pairwise (· < ·) :=
  List.Pairwise.filter _ List.pairwise_lt_range'

lemma catchLoop_skip {fuel n : ℕ} (h : ∀ i, 1 ≤ i → i ≤ n → missed s i = false) :
    catchLoop (authorizeWithin cfg (fuel + 1)) n s = some s := by
  induction n with
  | zero => rfl
  | succ n ih =>
    have hrest := ih fun i h1 h2 => h i h1 (by omega)
    have hn := h (n + 1) (by omega) le_rfl
    simp only [catchLoop]
    split_ifs with hflag
    · exact hrest
    · cases hp : s.roster (n + 1) with
      | none => exact hrest
      | some p =>
        dsimp only
        split_ifs with hauth
        · have hfake : p.fake = true := by
            simp only [Bool.or_eq_true, not_or, Bool.not_eq_true] at hflag
            simpa [missed, hp, hauth, hflag.1, hflag.2] using hn
          simp only [authorizeWithin, hp, hfake, if_true, Option.bind_some]
          exact hrest
        · exact hrest

lemma catchLoop_hit {authorize : ℕ → Server → Option Server} (fake : ∀ i p,
      s.roster i = some p → p.fake = true → authorize i s = some s) {n h : ℕ}
    (hpos : 1 ≤ h) (hle : h ≤ n) (hh : missed s h = true)
    (above : ∀ i, h < i → i ≤ n → missed s i = false) :
    catchLoop authorize n s = (authorize h s).bind (catchLoop authorize (h - 1)) := by
  induction n with
  | zero => omega
  | succ n ih =>
    rcases Nat.lt_or_ge n h with hn | hn
    · obtain rfl : h = n + 1 := by omega
      obtain ⟨hp, hl, p, hr, ha, hf⟩ := missed_iff.mp hh
      simp only [catchLoop, hp, hl, hr, ha, Bool.or_self, Bool.false_eq_true, if_false,
        if_true, Nat.add_sub_cancel]
    · have hrest := ih hn fun i h1 h2 => above i h1 (by omega)
      have hmiss := above (n + 1) (by omega) le_rfl
      simp only [catchLoop]
      split_ifs with hflag
      · exact hrest
      · cases hp : s.roster (n + 1) with
        | none => exact hrest
        | some p =>
          dsimp only
          split_ifs with hauth
          · have hfake : p.fake = true := by
              simp only [Bool.or_eq_true, not_or, Bool.not_eq_true] at hflag
              simpa [missed, hp, hauth, hflag.1, hflag.2] using hmiss
            rw [fake _ p hp hfake, Option.bind_some]
            exact hrest
          · exact hrest

/-- The state in which `OnClientAuthorized` calls `AttemptReconnection`. -/
def flag (s : Server) (i : ℕ) : Server :=
  { s with
    connected := Function.update s.connected i true
    statsPending := Function.update s.statsPending i true }

lemma missed_flag {h i : ℕ} :
    missed (flag s h) i = (missed s i && decide (i ≠ h)) := by
  by_cases hi : i = h
  · simp [missed, flag, hi]
  · simp [missed, flag, hi]

lemma missedSlots_flag (h : ℕ) :
    missedSlots cfg (flag s h) = (missedSlots cfg s).filter (· ≠ h) := by
  simp only [missedSlots, List.filter_filter]
  congr 1
  funext i
  rw [missed_flag, Bool.and_comm]

lemma authorizeAll_flag {p : Player} {h : ℕ} (l : List ℕ) (hp : s.roster h = some p) :
    (authorizeAll (flag s h) l).addQueryToQueue (.selectData p.serial (steamIdOf p)) =
      authorizeAll s (l ++ [h]) := by
  have hflag : ∀ (f : ℕ → Bool) (i : ℕ), (decide (i ∈ l) || Function.update f h true i) =
      (decide (i ∈ l ++ [h]) || f i) := by
    intro f i
    by_cases hi : i = h
    · simp [hi]
    · simp [hi]
  have hquery : (l ++ [h]).filterMap (selectQuery s) =
      l.filterMap (selectQuery s) ++ [.selectData p.serial (steamIdOf p)] := by
    simp [List.filterMap_append, selectQuery, hp]
  simp only [authorizeAll, flag, Server.addQueryToQueue, hflag, hquery, List.append_assoc]
  rfl

lemma missed_above_last {l : List ℕ} {h i : ℕ} (hlast : missedSlots cfg s = l ++ [h])
    (above : h < i) (high : i ≤ cfg.maxClients) : missed s i = false := by
  by_contra hi
  have hmem : i ∈ l ++ [h] := by
    rw [← hlast]
    exact mem_missedSlots.mpr ⟨⟨by omega, high⟩, Bool.not_eq_false _ ▸ hi⟩
  have hsorted : (missedSlots cfg s).Pairwise (· < ·) := missedSlots_sorted
  rw [hlast, List.pairwise_append] at hsorted
  rcases List.mem_append.mp hmem with hl | hh
  · have hbelow := hsorted.2.2 i hl h (List.mem_singleton_self h)
    omega
  · have heq := List.mem_singleton.mp hh
    omega

lemma missedSlots_flag_last {l : List ℕ} {h : ℕ} (hlast : missedSlots cfg s = l ++ [h]) :
    missedSlots cfg (flag s h) = l := by
  have hsorted : (missedSlots cfg s).Pairwise (· < ·) := missedSlots_sorted
  rw [hlast, List.pairwise_append] at hsorted
  rw [missedSlots_flag, hlast, List.filter_append, List.filter_eq_self.mpr]
  · simp
  · intro i hi
    have hbelow := hsorted.2.2 i hi h (List.mem_singleton_self h)
    simp only [ne_eq, decide_not, Bool.not_eq_true', decide_eq_false_iff_not]
    omega

lemma missed_authorizeAll (l : List ℕ) (i : ℕ) :
    missed (authorizeAll s l) i = (missed s i && decide (i ∉ l)) := by
  by_cases hi : i ∈ l
  · simp [missed, authorizeAll, hi]
  · simp [missed, authorizeAll, hi]

lemma not_missed_authorizeAll {i : ℕ} (low : 1 ≤ i) (high : i ≤ cfg.maxClients) :
    missed (authorizeAll s (missedSlots cfg s)) i = false := by
  rw [missed_authorizeAll]
  by_contra hi
  simp only [Bool.and_eq_true, decide_eq_true_eq, Bool.not_eq_false] at hi
  exact hi.2 (mem_missedSlots.mpr ⟨⟨low, high⟩, hi.1⟩)

/-- With enough fuel the recursion ends and every missed client is authorized. -/
theorem catchLoop_total {fuel : ℕ} (enough : (missedSlots cfg s).length < fuel) :
    catchLoop (authorizeWithin cfg fuel) cfg.maxClients s =
      some (authorizeAll s (missedSlots cfg s)) := by
  induction fuel generalizing s with
  | zero => omega
  | succ fuel ih =>
    rcases List.eq_nil_or_concat (missedSlots cfg s) with hnil | ⟨l, h, hlast⟩
    · have hnone : ∀ i, 1 ≤ i → i ≤ cfg.maxClients → missed s i = false := by
        intro i h1 h2
        by_contra hi
        have := mem_missedSlots.mpr ⟨⟨h1, h2⟩, Bool.not_eq_false _ ▸ hi⟩
        rw [hnil] at this
        simp at this
      rw [catchLoop_skip hnone, hnil]
      simp [authorizeAll]
    · rw [List.concat_eq_append] at hlast
      have hmem : h ∈ missedSlots cfg s := by simp [hlast]
      obtain ⟨⟨hpos, hle⟩, hmiss⟩ := mem_missedSlots.mp hmem
      obtain ⟨_, _, p, hp, _, hfake⟩ := missed_iff.mp hmiss
      have hl : missedSlots cfg (flag s h) = l := missedSlots_flag_last hlast
      have hlen : l.length < fuel := by
        rw [hlast, List.length_append] at enough
        simpa using enough
      -- The nested call reaches all the others: it is for the state with `h` flagged.
      have hinner := ih (hl.symm ▸ hlen)
      have hauthorize : authorizeWithin cfg (fuel + 1) h s =
          some (authorizeAll s (missedSlots cfg s)) := by
        simp only [authorizeWithin, hp, hfake, Bool.false_eq_true, if_false]
        change (catchLoop (authorizeWithin cfg fuel) cfg.maxClients (flag s h)).map _ = _
        rw [hinner, hl, Option.map_some, authorizeAll_flag l hp, hlast]
      have hfakes : ∀ i p, s.roster i = some p → p.fake = true →
          authorizeWithin cfg (fuel + 1) i s = some s := by
        intro i p hp hf
        simp only [authorizeWithin, hp, hf, if_true]
      rw [catchLoop_hit hfakes hpos hle hmiss fun i => missed_above_last hlast, hauthorize,
        Option.bind_some]
      exact catchLoop_skip fun i low high => not_missed_authorizeAll low (by omega)

/-- `AttemptReconnection` authorizes exactly the missed clients. -/
theorem attemptReconnection_eq (cfg : Config) (s : Server) :
    attemptReconnection cfg s = authorizeAll s (missedSlots cfg s) := by
  have hlen : (missedSlots cfg s).length < cfg.maxClients + 1 := by
    have : (missedSlots cfg s).length ≤ cfg.maxClients := missedSlots_length
    omega
  rw [attemptReconnection, catchLateLoadClients, catchLoop_total hlen]
  rfl

/-- `OnClientAuthorized` for a real player: the missed clients first, then this one. -/
theorem onClientAuthorized_eq (cfg : Config) (s : Server) (client : ℕ) :
    onClientAuthorized cfg s client =
      match s.roster client with
      | none => s
      | some p =>
        if p.fake then s
        else (authorizeAll (flag s client) (missedSlots cfg (flag s client))).addQueryToQueue
          (.selectData p.serial (steamIdOf p)) := by
  have hlen : (missedSlots cfg (flag s client)).length < cfg.maxClients + 1 := by
    have : (missedSlots cfg (flag s client)).length ≤ cfg.maxClients := missedSlots_length
    omega
  cases hp : s.roster client with
  | none => simp [onClientAuthorized, authorizeWithin, hp]
  | some p =>
    dsimp only
    split_ifs with hf
    · simp [onClientAuthorized, authorizeWithin, hp, hf]
    · simp only [onClientAuthorized, authorizeWithin, hp, hf, Bool.false_eq_true, if_false]
      change ((catchLoop (authorizeWithin cfg (cfg.maxClients + 1)) cfg.maxClients
        (flag s client)).map _).getD s = _
      rw [catchLoop_total hlen]
      rfl

def MissedSlot (cfg : Config) (s : Server) (i : ℕ) : Prop :=
  (1 ≤ i ∧ i ≤ cfg.maxClients) ∧ missed s i = true

/-- `t` is `s` with every missed client caught up with, and with no other change. -/
structure CaughtUp (cfg : Config) (s t : Server) : Prop where
  flagged : ∀ i p, 1 ≤ i → i ≤ cfg.maxClients → t.roster i = some p → p.authorized = true →
    p.fake = false → t.statsPending i = true ∨ t.statsLoaded i = true
  /-- One query for each missed slot, and no others. -/
  queries : ∃ slots new, slots.Nodup ∧ (∀ i, i ∈ slots ↔ MissedSlot cfg s i) ∧
    t.sent = s.sent ++ new ∧ List.Forall₂ (fun i q => ∃ p, s.roster i = some p ∧
      q = .selectData p.serial (steamIdOf p)) slots new
  others : ∀ i, ¬ MissedSlot cfg s i → t.connected i = s.connected i ∧
    t.statsPending i = s.statsPending i ∧ t.statsLoaded i = s.statsLoaded i
  frame : t = { s with connected := t.connected, statsPending := t.statsPending, sent := t.sent }

lemma selectQueries_forall₂ {l : List ℕ} (h : ∀ i ∈ l, missed s i = true) :
    List.Forall₂ (fun i q => ∃ p, s.roster i = some p ∧
      q = .selectData p.serial (steamIdOf p)) l (l.filterMap (selectQuery s)) := by
  induction l with
  | nil => exact .nil
  | cons i l ih =>
    obtain ⟨_, _, p, hp, _⟩ := missed_iff.mp (h i List.mem_cons_self)
    have hquery : selectQuery s i = some (.selectData p.serial (steamIdOf p)) := by
      simp [selectQuery, hp]
    rw [List.filterMap_cons_some hquery]
    exact .cons ⟨p, hp, rfl⟩ (ih fun j hj => h j (List.mem_cons_of_mem _ hj))

lemma caughtUp_authorizeAll : CaughtUp cfg s (authorizeAll s (missedSlots cfg s)) where
  flagged i p low high hp hauth hfake := by
    by_cases pending : s.statsPending i = true
    · exact .inl (by simp [authorizeAll, pending])
    · by_cases loaded : s.statsLoaded i = true
      · exact .inr loaded
      · have hmissed : missed s i = true := missed_iff.mpr
          ⟨Bool.eq_false_of_not_eq_true pending, Bool.eq_false_of_not_eq_true loaded, p, hp,
            hauth, hfake⟩
        have hmem : i ∈ missedSlots cfg s := mem_missedSlots.mpr ⟨⟨low, high⟩, hmissed⟩
        exact .inl (by simp [authorizeAll, hmem])
  queries := by
    refine ⟨missedSlots cfg s, _, missedSlots_sorted.imp Nat.ne_of_lt, fun _ => mem_missedSlots,
      rfl, selectQueries_forall₂ fun i hi => (mem_missedSlots.mp hi).2⟩
  others i hi := by
    have hnot : i ∉ missedSlots cfg s := fun hmem => hi (mem_missedSlots.mp hmem)
    simp [authorizeAll, hnot]
  frame := rfl

/-- `AttemptReconnection` returns: no nesting deeper than there are clients is needed. It catches
up with the missed clients and does nothing else. -/
theorem late_load_catch_up (cfg : Config) (s : Server) :
    (∀ fuel, cfg.maxClients < fuel → catchLoop (authorizeWithin cfg fuel) cfg.maxClients s =
      some (attemptReconnection cfg s)) ∧ CaughtUp cfg s (attemptReconnection cfg s) := by
  rw [attemptReconnection_eq]
  exact ⟨fun fuel enough => catchLoop_total (missedSlots_length.trans_lt enough),
    caughtUp_authorizeAll⟩

end ClientPrefs.LateLoad
