import ClientPrefs.SlotValues

/-!
# Reading back what was set

Between a set and the disconnect only the delivery of the client's own load can
change what `GetCookieValue` returns.
-/
namespace ClientPrefs.SessionReads
open ByteStrings Cookies CookieManager Loads QueryThread Session SlotTables SlotValues Transition

/-- The event neither sets the cookie for the client nor ends its connection. -/
def Quiet (cfg : Config) (c : CookieRef) (i : ℕ) (s : Server) (e : Event) : Prop :=
  (∀ w, ¬ Sets cfg s c i w e) ∧ e ≠ .disconnecting i

/-- The rows for the cookie in a load that reaches the client end with a value stored as `v`. -/
def LoadsSame (cfg : Config) (c : CookieRef) (i : ℕ) (v : Bytes) (s : Server) (e : Event) : Prop :=
  ∀ rows, Delivers cfg s i rows e →
    ∀ w, lastRow cfg s c rows = some w → storedValue w = storedValue v

variable {cfg : Config} {s : Server} {c : CookieRef} {i : ℕ} {e : CookieData}

lemma lt_of_entryAt (h : Wf s) (he : entryAt s c i = some e) : c < s.cookieCount := by
  obtain ⟨a, _, hheap, hmem, hp⟩ := entryAt_eq_some h he
  obtain ⟨e', he', hlt⟩ := h.owned i a hmem
  obtain rfl : e = e' := by simpa [hheap] using he'
  exact hp ▸ hlt

def afterLoad (e : CookieData) (last : Option Bytes) : CookieData :=
  match last with
  | none => e
  | some w => ⟨storedValue w, false, 0, e.parent⟩

lemma entryAt_of_delivers (h : Wf s) {ev : Event} {rows : List (Cookie × Bytes)}
    (he : entryAt s c i = some e) (delivers : Delivers cfg s i rows ev) :
    entryAt (ev.apply cfg s) c i = some (afterLoad e (lastRow cfg s c rows)) := by
  obtain ⟨_, _, _, _, hp⟩ := entryAt_eq_some h he
  rw [entryAt_delivers h (lt_of_entryAt h he) delivers, if_pos rfl, he]
  cases lastRow cfg s c rows with
  | none => rfl
  | some w => simp [afterLoad, hp]

lemma entryAt_of_quiet (h : Wf s) {ev : Event} (allowed : ev.Allowed cfg s)
    (he : entryAt s c i = some e) (quiet : Quiet cfg c i s ev) :
    entryAt (ev.apply cfg s) c i = some e ∨ ∃ rows, Delivers cfg s i rows ev := by
  have heffect := effect_of_apply h allowed
  revert heffect
  generalize ev.apply cfg s = t
  intro heffect
  cases heffect with
  | same t tables => exact .inl ((tables.entryAt h c i).trans he)
  | set m c' i' v now tables wf sets =>
    left
    rw [entryAt_setCookieValue wf, if_neg, tables.entryAt h, he]
    rintro ⟨rfl, rfl⟩
    exact quiet.1 v sets
  | get c' i' =>
    left
    obtain ⟨a, ha, _⟩ := entryAt_eq_some h he
    rw [entryAt_getCookieValue h, if_neg, he]
    rintro ⟨_, _, hnone⟩
    rw [ha] at hnone
    cases hnone
  | release j t leaves tables =>
    left
    have hij : i ≠ j := by
      rintro rfl
      exact quiet.2 leaves
    exact (tables.entryAt_of_ne h hij).trans he
  | load q j rows t delivers tables =>
    by_cases hij : i = j
    · subst hij
      exact .inr ⟨rows, delivers⟩
    · left
      have hstart : Wf (loadStart s q j) := h.congr rfl rfl rfl rfl rfl rfl fun _ _ _ ha => ha
      have hlt : c < s.cookieCount := lt_of_entryAt h he
      have hc : c < (loadStart s q j).cookieCount := hlt
      rw [tables.entryAt (hstart.loadRows j rows), entryAt_loadRows hstart hc, if_neg hij]
      exact he

lemma getCookieValue_of_entryAt (he : entryAt s c i = some e) :
    (getCookieValue s c i).2 = e.value := by
  rw [getCookieValue_snd, he]
  rfl

theorem entryAt_of_run {t u : Server} {trace : List (Server × Event)} (h : Wf s)
    (he : ∃ e, entryAt s c i = some e) (run : Run (Step cfg) s trace t)
    (quiet : ∀ x ∈ trace, Quiet cfg c i x.1 x.2) (hu : u ∈ visited trace t) :
    Wf u ∧ ∃ e, entryAt u c i = some e := by
  have preserved : ∀ a ev b, (Wf a ∧ ∃ e, entryAt a c i = some e) → Quiet cfg c i a ev →
      Step cfg a ev b → Wf b ∧ ∃ e, entryAt b c i = some e := by
    intro a ev b hboth quiet step
    obtain ⟨hwf, e, he⟩ := hboth
    obtain ⟨allowed, rfl⟩ := step
    refine ⟨Wf.apply hwf allowed, ?_⟩
    rcases entryAt_of_quiet hwf allowed he quiet with hkept | ⟨rows, delivers⟩
    · exact ⟨e, hkept⟩
    · exact ⟨_, entryAt_of_delivers hwf he delivers⟩
  exact run.invariant_visited ⟨h, he⟩ preserved quiet hu

/-- After a set and until the disconnect or another set, `GetCookieValue` returns the value at
every point exactly when no load delivered in between ends with another value for the cookie. -/
theorem reads_own_write_iff {roster : ℕ → Option Player} {spent : List ℕ}
    {before trace : List (Server × Event)} {t : Server} {v : Bytes} {now : ℕ}
    (run : Run (Step cfg) (start roster spent) before s)
    (allowed : (Event.setCookieValue c i v now).Allowed cfg s)
    (later : Run (Step cfg) (setCookieValue s c i v now) trace t)
    (quiet : ∀ x ∈ trace, Quiet cfg c i x.1 x.2) :
    (∀ u ∈ visited trace t, (getCookieValue u c i).2 = storedValue v) ↔
      ∀ x ∈ trace, LoadsSame cfg c i v x.1 x.2 := by
  have hs : Wf s := wf_of_run run
  have hset : Wf (setCookieValue s c i v now) := hs.setCookieValue allowed.1 i v now
  have hentry : entryAt (setCookieValue s c i v now) c i = some ⟨storedValue v, true, now, c⟩ := by
    rw [entryAt_setCookieValue hs, if_pos ⟨rfl, rfl⟩]
  constructor
  · intro reads x hx rows delivers w hw
    obtain ⟨hwf, e, he⟩ := entryAt_of_run hset ⟨_, hentry⟩ later quiet (visited_of_mem hx)
    obtain ⟨u, hu, _, rfl⟩ := later.next_visited (t := x.1) (e := x.2) hx
    have hafter := entryAt_of_delivers hwf he delivers
    rw [hw] at hafter
    rw [← reads _ hu, getCookieValue_of_entryAt hafter]
    rfl
  · intro same u hu
    have preserved : ∀ a ev b, (Wf a ∧ ∃ e, entryAt a c i = some e ∧ e.value = storedValue v) →
        Quiet cfg c i a ev ∧ LoadsSame cfg c i v a ev → Step cfg a ev b →
        Wf b ∧ ∃ e, entryAt b c i = some e ∧ e.value = storedValue v := by
      intro a ev b hboth hok step
      obtain ⟨hwf, e, he, hv⟩ := hboth
      obtain ⟨allowed, rfl⟩ := step
      refine ⟨Wf.apply hwf allowed, ?_⟩
      rcases entryAt_of_quiet hwf allowed he hok.1 with hkept | ⟨rows, delivers⟩
      · exact ⟨e, hkept, hv⟩
      · refine ⟨_, entryAt_of_delivers hwf he delivers, ?_⟩
        cases hlast : lastRow cfg a c rows with
        | none => exact hv
        | some w => exact hok.2 rows delivers w hlast
    obtain ⟨_, e, he, hv⟩ := later.invariant_visited ⟨hset, _, hentry, rfl⟩ preserved
      (fun x hx => ⟨quiet x hx, same x hx⟩) hu
    exact (getCookieValue_of_entryAt he).trans hv

/-- A player connects and is authorized; its load is in flight when the cookie is set. -/
def beforeSet : List Event := registration ++ [.connect 1 newcomer7, .authorize 1]

lemma beforeSet_playable : Playable oneSlot vacant beforeSet := by
  refine registration_playable.append ⟨⟨client_one, by decide, rfl, by decide⟩, ?_, trivial⟩
  exact ⟨newcomer7, by decide, by decide, rfl, rfl⟩

def afterSet : Server := setCookieValue (play oneSlot vacant beforeSet) 0 1 (bytes "on") 0

def ownLoad (value : String) : Event := .think 1 (musicTalk value) (musicOutcome value)

theorem ownLoad_run (value : String) : Run (Step oneSlot) afterSet [(afterSet, ownLoad value)]
    ((ownLoad value).apply oneSlot afterSet) := by
  have hquery : afterSet.sent[1]? = some (.selectData 7 (bytes "STEAM_1:0:7")) := by decide
  exact .one ⟨⟨by decide, _, hquery, musicTalk_talks value⟩, rfl⟩

lemma ownLoad_quiet (value : String) :
    ∀ x ∈ [(afterSet, ownLoad value)], Quiet oneSlot 0 1 x.1 x.2 := by
  intro x hx
  obtain rfl := List.mem_singleton.mp hx
  exact ⟨fun _ => id, nofun⟩

lemma set_allowed :
    (Event.setCookieValue 0 1 (bytes "on") 0).Allowed oneSlot (play oneSlot vacant beforeSet) :=
  ⟨by decide, client_one⟩

/-- A load that brings the value that was set is not noticed. -/
theorem reads_own_write_same :
    (getCookieValue afterSet 0 1).2 = storedValue (bytes "on") ∧
      (getCookieValue ((ownLoad "on").apply oneSlot afterSet) 0 1).2 = storedValue (bytes "on") := by
  have reads := (reads_own_write_iff (play_run beforeSet_playable) set_allowed (ownLoad_run "on")
    (ownLoad_quiet "on")).mpr (by
      intro x hx rows delivers w hw
      obtain rfl := List.mem_singleton.mp hx
      obtain ⟨rfl, _⟩ := delivers
      have hlast : lastRow oneSlot afterSet 0 (musicOutcome "on").results = some (bytes "on") := by
        decide
      obtain rfl : bytes "on" = w := Option.some.inj (hlast.symm.trans hw)
      rfl)
  exact ⟨reads _ (List.mem_cons_self ..), reads _ (List.mem_cons_of_mem _ (List.mem_singleton_self _))⟩

/-- A load that arrives after the set replaces what was set. -/
theorem load_replaces_set : ¬ ∀ (cfg : Config) (roster : ℕ → Option Player) (spent : List ℕ)
    (before trace : List (Server × Event)) (s t : Server) (c : CookieRef) (i : ℕ) (v : Bytes)
    (now : ℕ), Host cfg (start roster spent) → Run (Step cfg) (start roster spent) before s →
    (s.roster i).isSome = true → s.leaving i = false →
    (Event.setCookieValue c i v now).Allowed cfg s →
    Run (Step cfg) (setCookieValue s c i v now) trace t →
    (∀ x ∈ trace, Quiet cfg c i x.1 x.2) → (getCookieValue t c i).2 = storedValue v := by
  intro h
  have hread := h oneSlot _ _ _ _ _ _ 0 1 _ 0 host_start_vacant (play_run beforeSet_playable)
    (by decide) (by decide) set_allowed (ownLoad_run "off") (ownLoad_quiet "off")
  revert hread
  decide

end ClientPrefs.SessionReads
