import ClientPrefs.Session

/-!
# The slot after a disconnect

`OnClientDisconnecting` clears the flags of the slot and then calls
`AttemptReconnection`, which takes the leaving player for one that was missed.
-/
namespace ClientPrefs.Disconnect
open ByteStrings Cookies CookieManager LateLoad QueryThread Session SlotRelease SlotTables
open Transition

/-- What the handler is to leave behind in slot `i`. -/
structure Reset (s t : Server) (i : ℕ) : Prop where
  connected : t.connected i = false
  statsLoaded : t.statsLoaded i = false
  statsPending : t.statsPending i = false
  clientData : t.clientData i = []
  data : ∀ c, (t.cookies c).data i = none
  select : ∀ p, s.roster i = some p →
    ∀ sid, .selectData p.serial sid ∉ t.sent.drop s.sent.length

/-- The host still reports the leaving player as an authorized, real one. -/
def StillThere (s : Server) (i : ℕ) : Prop :=
  ∃ p, s.roster i = some p ∧ p.authorized = true ∧ p.fake = false

variable {cfg : Config} {s : Server} {i : ℕ}

lemma missed_resetFlags : missed (resetFlags s i) i = true ↔ StillThere s i := by
  simp [missed_iff, resetFlags, StillThere]

lemma mem_missedSlots_resetFlags (hi : Client cfg i) :
    i ∈ missedSlots cfg (resetFlags s i) ↔ StillThere s i := by
  rw [mem_missedSlots, missed_resetFlags]
  exact ⟨fun h => h.2, fun h => ⟨hi, h⟩⟩

lemma onClientDisconnecting_flags (cfg : Config) (i : ℕ) (h : Wf s) :
    (onClientDisconnecting cfg s i).connected i =
        decide (i ∈ missedSlots cfg (resetFlags s i)) ∧
      (onClientDisconnecting cfg s i).statsPending i =
        decide (i ∈ missedSlots cfg (resetFlags s i)) ∧
      (onClientDisconnecting cfg s i).statsLoaded i = false := by
  rw [onClientDisconnecting_eq h]
  simp [releaseAll, afterReconnect, authorizeAll, resetFlags]

lemma onClientDisconnecting_values (cfg : Config) (i : ℕ) (h : Wf s) :
    (onClientDisconnecting cfg s i).clientData i = [] ∧
      ∀ c, ((onClientDisconnecting cfg s i).cookies c).data i = none := by
  have hempty : (onClientDisconnecting cfg s i).clientData i = [] := by
    rw [onClientDisconnecting_eq h]
    simp
  refine ⟨hempty, fun c => ?_⟩
  have hwf : Wf (onClientDisconnecting cfg s i) := SlotRelease.Wf.onClientDisconnecting h i
  cases hd : ((onClientDisconnecting cfg s i).cookies c).data i with
  | none => rfl
  | some a =>
    have hmem := (hwf.linked c i a hd).1
    rw [hempty] at hmem
    cases hmem

lemma onClientDisconnecting_sent (h : Wf s) : (onClientDisconnecting cfg s i).sent =
    s.sent ++ ((missedSlots cfg (resetFlags s i)).filterMap (selectQuery s) ++
      (s.clientData i).filterMap (savedQuery s (authOf (s.roster i)))) := by
  rw [onClientDisconnecting_eq h]
  simp only [releaseAll, afterReconnect, authorizeAll, List.append_assoc]
  rfl

lemma mem_new_select (h : Wf s) {serial : ℕ} {sid : Bytes} :
    .selectData serial sid ∈ (onClientDisconnecting cfg s i).sent.drop s.sent.length ↔
      ∃ j ∈ missedSlots cfg (resetFlags s i), ∃ p, s.roster j = some p ∧
        p.serial = serial ∧ steamIdOf p = sid := by
  rw [onClientDisconnecting_sent h, List.drop_left, List.mem_append]
  constructor
  · intro hmem
    rcases hmem with hmem | hmem
    · obtain ⟨j, hj, hq⟩ := List.mem_filterMap.mp hmem
      obtain ⟨p, hp, hq⟩ := Option.map_eq_some_iff.mp hq
      simp only [Query.selectData.injEq] at hq
      exact ⟨j, hj, p, hp, hq⟩
    · obtain ⟨a, _, hq⟩ := List.mem_filterMap.mp hmem
      obtain ⟨_, _, _, _, _, _, hq⟩ := savedQuery_eq_some hq
      cases hq
  · intro hmem
    obtain ⟨j, hj, p, hp, rfl, rfl⟩ := hmem
    exact .inl (List.mem_filterMap.mpr ⟨j, hj, by simp [selectQuery, hp]⟩)

/-- In every state of a session the slot is reset exactly when the host no longer reports
an authorized real player there. -/
theorem onClientDisconnecting_resets_iff {roster : ℕ → Option Player} {spent : List ℕ}
    {trace : List (Server × Event)} (host : Host cfg (start roster spent))
    (run : Run (Step cfg) (start roster spent) trace s) (hi : Client cfg i) :
    Reset s (onClientDisconnecting cfg s i) i ↔ ¬ StillThere s i := by
  obtain ⟨hwf, hhost⟩ := reachable host run
  obtain ⟨hconnected, hpending, hloaded⟩ := onClientDisconnecting_flags cfg i hwf
  rw [← mem_missedSlots_resetFlags hi]
  constructor
  · intro reset hmem
    have hfalse := reset.statsPending
    rw [hpending] at hfalse
    exact of_decide_eq_false hfalse hmem
  · intro hnot
    have hvalues := onClientDisconnecting_values cfg i hwf
    have hdec := decide_eq_false hnot
    refine ⟨hconnected.trans hdec, hloaded, hpending.trans hdec, hvalues.1, hvalues.2, ?_⟩
    intro p hp sid hmem
    obtain ⟨j, hj, q, hq, hser, _⟩ := (mem_new_select hwf).mp hmem
    have hji : j = i := hhost.distinct j i q p hq hp hser
    exact hnot (hji ▸ hj)

/-- A player's data comes a second time while the player leaves, and stays in the slot; the next
player has a value set and leaves without an authorization. -/
def leftovers : List Event :=
  [.connect 1 newcomer7, .authorize 1, .think 1 (musicTalk "on") (musicOutcome "on"),
    .setCookieValue 0 1 (bytes "off") 5, .disconnecting 1,
    .think 2 (musicTalk "on") (musicOutcome "on"), .disconnected 1,
    .connect 1 { newcomer7 with serial := 8 }, .setCookieValue 0 1 (bytes "loud") 6]

lemma leftovers_playable : Playable oneSlot (play oneSlot vacant registration) leftovers := by
  have loads : Conversation.Conv.Talks (bindParamsAndRun oneSlot.hash
      (.selectData (bytes "STEAM_1:0:7"))) (musicTalk "on") (musicOutcome "on") :=
    musicTalk_talks "on"
  exact ⟨⟨client_one, rfl, rfl, by decide⟩, ⟨newcomer7, rfl, rfl, rfl, rfl⟩,
    ⟨by decide, .selectData 7 (bytes "STEAM_1:0:7"), by decide, loads⟩, ⟨by decide, client_one⟩,
    ⟨client_one, rfl, rfl⟩, ⟨by decide, .selectData 7 (bytes "STEAM_1:0:7"), by decide, loads⟩, rfl,
    ⟨client_one, rfl, rfl, by decide⟩, ⟨by decide, client_one⟩, trivial⟩

/-- The flags and the value of the slot are reset for a player who never got authorized. -/
theorem onClientDisconnecting_resets_leftovers :
    let s := play oneSlot vacant (registration ++ leftovers)
    s.connected 1 = true ∧ s.statsLoaded 1 = true ∧ s.clientData 1 ≠ [] ∧
      ((s.cookies 0).data 1).isSome = true ∧ Reset s (onClientDisconnecting oneSlot s 1) 1 := by
  refine ⟨by decide, by decide, by decide, by decide, ?_⟩
  have run := play_run (registration_playable.append leftovers_playable)
  apply (onClientDisconnecting_resets_iff host_start_vacant run client_one).mpr
  rintro ⟨p, hp, hauth, _⟩
  obtain rfl : { newcomer7 with serial := 8 } = p := Option.some.inj hp
  cases hauth

/-- The slot of an authorized player is not: the handler itself makes it pending again. -/
theorem onClientDisconnecting_pending : ¬ ∀ (cfg : Config) (roster : ℕ → Option Player)
    (spent : List ℕ) (trace : List (Server × Event)) (s : Server) (i : ℕ),
    Host cfg (start roster spent) → Run (Step cfg) (start roster spent) trace s →
    Client cfg i → Reset s (onClientDisconnecting cfg s i) i := by
  intro h
  have reset := h oneSlot _ _ _ _ 1
    (host_start_alone (authorized newcomer7)) .refl ⟨le_rfl, le_rfl⟩
  have hpending := reset.statsPending
  revert hpending
  decide

end ClientPrefs.Disconnect
