import ClientPrefs.LoadIsolation
import ClientPrefs.SaveIsolation
import ClientPrefs.SessionReads

/-!
# One value per client and cookie

Both tables hold the same values as long as no load brings a row for a cookie that the
client already has a value of.
-/
namespace ClientPrefs.TableLinks
open ByteStrings Conversation Conv Cookies CookieManager Disconnect LateLoad LoadIsolation Loads
open QueryThread SaveIsolation Session SessionReads SlotRelease SlotTables SlotValues Transition

/-- `clientData[i]` holds no value twice, and exactly those that the cookies point to. -/
structure OneEntry (s : Server) : Prop where
  nodup : ∀ i, (s.clientData i).Nodup
  points : ∀ i c a, (a ∈ s.clientData i ∧ ∃ e, s.heap a = some e ∧ e.parent = c) ↔
    (s.cookies c).data i = some a

/-- The half of `OneEntry` that can fail. -/
def Linked (s : Server) : Prop :=
  ∀ i a e, a ∈ s.clientData i → s.heap a = some e → (s.cookies e.parent).data i = some a

/-- The cookie with this name, if there is one, has no value for the client. -/
def Unset (cfg : Config) (s : Server) (i : ℕ) (name : Bytes) : Prop :=
  ∀ c, findCookie cfg s name = some c → (s.cookies c).data i = none

/-- Every row is for another cookie, and for one that the client has no value of. -/
structure FreshRows (cfg : Config) (s : Server) (i : ℕ) (rows : List (Cookie × Bytes)) : Prop where
  distinct : (rows.map fun row => row.1.name).Nodup
  unset : ∀ row ∈ rows, Unset cfg s i row.1.name

def CleanDelivery (cfg : Config) (s : Server) (e : Event) : Prop :=
  ∀ i rows, Delivers cfg s i rows e → FreshRows cfg s i rows

variable {cfg : Config} {s t : Server} {i : ℕ}

theorem oneEntry_iff (h : Wf s) : OneEntry s ↔ Linked s := by
  constructor
  · intro one i a e ha he
    exact (one.points i e.parent a).mp ⟨ha, e, he, rfl⟩
  · intro linked
    refine ⟨h.nodup, fun i c a => ⟨?_, h.linked c i a⟩⟩
    intro hentry
    obtain ⟨ha, e, he, rfl⟩ := hentry
    exact linked i a e ha he

lemma linked_congr (same : SameTables s t) : Linked t ↔ Linked s := by
  constructor
  · intro linked i a e ha he
    rw [← same.data]
    exact linked i a e (same.clientData.symm ▸ ha) ((same.heap i a ha).trans he)
  · intro linked i a e ha he
    rw [same.clientData] at ha
    rw [same.heap i a ha] at he
    rw [same.data]
    exact linked i a e ha he

lemma linked_linkData (h : Wf s) {c : CookieRef} {e : CookieData} (he : e.parent = c) :
    Linked (linkData s c i e) ↔ Linked s ∧ (s.cookies c).data i = none := by
  have hold : ∀ {j a}, a ∈ s.clientData j → a ≠ s.nextData := by
    rintro j a ha rfl
    exact h.fresh j ha
  constructor
  · intro linked
    have hback : ∀ j a e', a ∈ s.clientData j → s.heap a = some e' →
        ¬ (e'.parent = c ∧ j = i) ∧ (s.cookies e'.parent).data j = some a := by
      intro j a e' ha he'
      have hlink := linked j a e' (mem_linkData.mpr (.inl ha)) (by simp [hold ha, he'])
      rw [linkData_data] at hlink
      split_ifs at hlink with hc
      · exact absurd (Option.some.inj hlink).symm (hold ha)
      · exact ⟨hc, hlink⟩
    refine ⟨fun j a e' ha he' => (hback j a e' ha he').2, ?_⟩
    cases hd : (s.cookies c).data i with
    | none => rfl
    | some a =>
      obtain ⟨hmem, e', he', hp⟩ := h.linked c i a hd
      exact absurd ⟨hp, rfl⟩ (hback i a e' hmem he').1
  · intro hboth j a e' ha he'
    obtain ⟨linked, hnone⟩ := hboth
    rw [linkData_data]
    rcases mem_linkData.mp ha with ha | ⟨rfl, rfl⟩
    · rw [linkData_heap, Function.update_of_ne (hold ha)] at he'
      have hlink := linked j a e' ha he'
      rw [if_neg, hlink]
      rintro ⟨rfl, rfl⟩
      rw [hlink] at hnone
      cases hnone
    · obtain rfl : e = e' := by simpa using he'
      rw [if_pos ⟨he, rfl⟩]

theorem unset_iff (h : Wf s) (k : Cookie) : Unset cfg s i k.name ↔
    ((findOrCreate cfg s k).1.cookies (findOrCreate cfg s k).2).data i = none := by
  have same : SameTables s (findOrCreate cfg s k).1 := .findOrCreate h k
  rw [same.data]
  unfold Unset findOrCreate
  cases hf : findCookie cfg s k.name with
  | some c => simp
  | none => simp [createCookie, hf, h.unborn s.cookieCount le_rfl i]

lemma linked_loadRow (h : Wf s) {row : Cookie × Bytes} :
    Linked (loadRow cfg i s row) ↔ Linked s ∧ Unset cfg s i row.1.name := by
  have same : SameTables s (findOrCreate cfg s row.1).1 := .findOrCreate h row.1
  rw [unset_iff h, ← linked_congr same]
  exact linked_linkData (h.findOrCreate row.1) rfl

lemma unset_loadRow (h : Wf s) {row : Cookie × Bytes} {name : Bytes}
    (hrow : Whole row.1.name) (hname : Whole name) :
    Unset cfg (loadRow cfg i s row) i name ↔ row.1.name ≠ name ∧ Unset cfg s i name := by
  have hm : Wf (findOrCreate cfg s row.1).1 := h.findOrCreate row.1
  have hdata : ∀ c, ((loadRow cfg i s row).cookies c).data i =
      if c = (findOrCreate cfg s row.1).2 ∧ i = i then
        some (findOrCreate cfg s row.1).1.nextData
      else ((findOrCreate cfg s row.1).1.cookies c).data i := fun c => linkData_data ..
  have same : SameTables s (findOrCreate cfg s row.1).1 := .findOrCreate h row.1
  by_cases hne : row.1.name = name
  · subst hne
    have hfound : findCookie cfg (loadRow cfg i s row) row.1.name =
        some (findOrCreate cfg s row.1).2 := findCookie_loadRow_self h hrow
    refine ⟨fun unset => ?_, fun hboth => absurd rfl hboth.1⟩
    have hnone := unset _ hfound
    rw [hdata, if_pos ⟨rfl, rfl⟩] at hnone
    cases hnone
  · have hother : ∀ c, findCookie cfg s name = some c →
        ((loadRow cfg i s row).cookies c).data i = (s.cookies c).data i := by
      intro c hc
      rw [hdata, if_neg, same.data]
      rintro ⟨hcd, _⟩
      have hfound := (findOrCreate_snd_iff (findCookie_lt h hc) row.1).mp hcd.symm
      have hcut := (findCookie_name hfound).symm.trans (findCookie_name hc)
      rw [hrow.cut, hname.cut] at hcut
      exact hne hcut
    unfold Unset
    rw [findCookie_loadRow_of_ne h hrow hname hne]
    constructor
    · exact fun unset => ⟨hne, fun c hc => (hother c hc).symm.trans (unset c hc)⟩
    · exact fun hboth c hc => (hother c hc).trans (hboth.2 c hc)

/-- A load keeps the tables linked exactly when its rows are fresh. -/
theorem linked_loadRows (h : Wf s) {rows : List (Cookie × Bytes)}
    (whole : ∀ row ∈ rows, Whole row.1.name) :
    Linked (rows.foldl (loadRow cfg i) s) ↔ Linked s ∧ FreshRows cfg s i rows := by
  induction rows generalizing s with
  | nil =>
    have hnil : FreshRows cfg s i [] := ⟨List.nodup_nil, by simp⟩
    exact ⟨fun linked => ⟨linked, hnil⟩, fun hboth => hboth.1⟩
  | cons row rows ih =>
    have hrow : Whole row.1.name := whole row (List.mem_cons_self ..)
    have hrows : ∀ r ∈ rows, Whole r.1.name := fun r hr => whole r (List.mem_cons_of_mem _ hr)
    rw [List.foldl_cons, ih (h.loadRow i row) hrows, linked_loadRow h, and_assoc]
    refine and_congr_right fun _ => ?_
    constructor
    · intro hboth
      obtain ⟨hunset, fresh⟩ := hboth
      have hsplit : ∀ r ∈ rows, row.1.name ≠ r.1.name ∧ Unset cfg s i r.1.name :=
        fun r hr => (unset_loadRow h hrow (hrows r hr)).mp (fresh.unset r hr)
      constructor
      · rw [List.map_cons, List.nodup_cons]
        refine ⟨fun hmem => ?_, fresh.distinct⟩
        obtain ⟨r, hr, heq⟩ := List.mem_map.mp hmem
        exact (hsplit r hr).1 heq.symm
      · intro r hr
        rcases List.mem_cons.mp hr with rfl | hr
        · exact hunset
        · exact (hsplit r hr).2
    · intro fresh
      have hdistinct := fresh.distinct
      rw [List.map_cons, List.nodup_cons] at hdistinct
      refine ⟨fresh.unset row (List.mem_cons_self ..), hdistinct.2, fun r hr => ?_⟩
      refine (unset_loadRow h hrow (hrows r hr)).mpr ⟨fun heq => ?_, ?_⟩
      · exact hdistinct.1 (heq ▸ List.mem_map_of_mem hr)
      · exact fresh.unset r (List.mem_cons_of_mem _ hr)

lemma linked_setCookieValue (h : Wf s) (linked : Linked s) (c : CookieRef) (v : Bytes)
    (now : ℕ) : Linked (setCookieValue s c i v now) := by
  unfold setCookieValue
  split
  · next hnone => exact (linked_linkData h rfl).mpr ⟨linked, hnone⟩
  · next a ha =>
    intro j b e hb he
    simp only [Server.modifyData] at he
    by_cases hab : b = a
    · obtain ⟨_, e', he', hp⟩ := h.linked c i a ha
      simp only [hab, Function.update_self, he', Option.map_some, Option.some.injEq] at he
      have hlink := linked j a e' (hab ▸ hb) he'
      subst he
      exact hab ▸ hlink
    · rw [Function.update_of_ne hab] at he
      exact linked j b e hb he

lemma linked_getCookieValue (h : Wf s) (linked : Linked s) (c : CookieRef) :
    Linked (getCookieValue s c i).1 := by
  unfold getCookieValue
  split
  · next hnone => exact (linked_linkData h rfl).mpr ⟨linked, hnone⟩
  · exact linked

lemma linked_released (released : Released i s t) (linked : Linked s) : Linked t := by
  intro j a e ha he
  rw [released.clientData] at ha
  by_cases hj : j = i
  · simp [hj] at ha
  · rw [Function.update_of_ne hj] at ha
    rw [released.heap j hj a ha] at he
    rw [released.data _ j hj]
    exact linked j a e ha he

lemma whole_of_delivers {e : Event} (allowed : e.Allowed cfg s) {rows : List (Cookie × Bytes)}
    (delivers : Delivers cfg s i rows e) : ∀ row ∈ rows, Whole row.1.name := by
  cases e with
  | think q talk outcome =>
    obtain ⟨rfl, _, k, sid, hq, _⟩ := delivers
    obtain ⟨_, query, hquery, talks⟩ := allowed
    obtain rfl : Query.selectData k sid = query := by simpa [hq] using hquery
    intro row hrow
    obtain ⟨⟨name, desc, access, heq⟩, _⟩ := Talks.allRead talks row hrow
    rw [heq]
    exact whole_new name desc access
  | _ => exact delivers.elim

lemma linked_of_clean (h : Wf s) (linked : Linked s) {e : Event} (allowed : e.Allowed cfg s)
    (clean : CleanDelivery cfg s e) : Linked (e.apply cfg s) := by
  have heffect := effect_of_apply h allowed
  revert heffect
  generalize e.apply cfg s = t
  intro heffect
  cases heffect with
  | same t tables => exact (linked_congr tables).mpr linked
  | set m c j v now tables wf sets =>
    exact linked_setCookieValue wf ((linked_congr tables).mpr linked) c v now
  | get c j => exact linked_getCookieValue h linked c
  | release j t leaves tables => exact linked_released tables linked
  | load q j rows t delivers tables =>
    have hstart : Wf (loadStart s q j) := h.congr rfl rfl rfl rfl rfl rfl fun _ _ _ ha => ha
    have fresh : FreshRows cfg (loadStart s q j) j rows := by
      have hfresh := clean j rows delivers
      exact ⟨hfresh.distinct, hfresh.unset⟩
    rw [linked_congr tables, linked_loadRows hstart (whole_of_delivers allowed delivers)]
    exact ⟨linked, fresh⟩

lemma clean_of_linked (h : Wf s) {e : Event} (allowed : e.Allowed cfg s)
    (linked : Linked (e.apply cfg s)) : CleanDelivery cfg s e := by
  intro j rows delivers
  obtain ⟨q, tables⟩ := apply_of_delivers delivers
  have hstart : Wf (loadStart s q j) := h.congr rfl rfl rfl rfl rfl rfl fun _ _ _ ha => ha
  rw [linked_congr tables, linked_loadRows hstart (whole_of_delivers allowed delivers)] at linked
  exact ⟨linked.2.distinct, linked.2.unset⟩

def savesCookie (s : Server) (c : CookieRef) : Query → Bool
  | .insertData _ _ a => (s.heap a).any fun e => e.parent = c
  | _ => false

/-- The queries that `OnClientDisconnecting` enqueues. -/
def disconnectQueries (cfg : Config) (s : Server) (i : ℕ) : List Query :=
  (onClientDisconnecting cfg s i).sent.drop s.sent.length

/-- At most one save for each cookie, of the value that `GetCookieValue` would have returned. -/
structure SavesOnce (cfg : Config) (s : Server) (i : ℕ) : Prop where
  once : ∀ c, ((disconnectQueries cfg s i).filter (savesCookie s c)).length ≤ 1
  value : ∀ sid id a, .insertData sid id a ∈ disconnectQueries cfg s i →
    ∃ e, (onClientDisconnecting cfg s i).heap a = some e ∧
      e.value = (getCookieValue s e.parent i).2

lemma length_filterMap_le_one {α β : Type*} {f : α → Option β} {l : List α} (h : l.Nodup)
    (same : ∀ a ∈ l, ∀ b ∈ l, (f a).isSome = true → (f b).isSome = true → a = b) :
    (l.filterMap f).length ≤ 1 := by
  induction l with
  | nil => simp
  | cons a l ih =>
    obtain ⟨ha, hl⟩ := List.nodup_cons.mp h
    have htail := ih hl fun b hb c hc =>
      same b (List.mem_cons_of_mem _ hb) c (List.mem_cons_of_mem _ hc)
    cases hf : f a with
    | none => rwa [List.filterMap_cons_none hf]
    | some b =>
      have hrest : l.filterMap f = [] := by
        rw [List.filterMap_eq_nil_iff]
        intro c hc
        by_contra hsome
        have hac := same a (List.mem_cons_self ..) c (List.mem_cons_of_mem _ hc) (by simp [hf])
          (Option.isSome_iff_ne_none.mpr hsome)
        exact ha (hac ▸ hc)
      rw [List.filterMap_cons_some hf, hrest]
      simp

lemma savesOnce_of_linked (h : Wf s) (linked : Linked s) (i : ℕ) : SavesOnce cfg s i := by
  constructor
  · intro c
    have hselect : ((missedSlots cfg (resetFlags s i)).filterMap (selectQuery s)).filter
        (savesCookie s c) = [] := by
      rw [List.filter_eq_nil_iff]
      intro q hq
      obtain ⟨j, _, hj⟩ := List.mem_filterMap.mp hq
      obtain ⟨p, _, rfl⟩ := Option.map_eq_some_iff.mp hj
      simp [savesCookie]
    rw [disconnectQueries, onClientDisconnecting_sent h, List.drop_left, List.filter_append,
      hselect, List.nil_append, List.filter_filterMap]
    apply length_filterMap_le_one (h.nodup i)
    have hpoint : ∀ a ∈ s.clientData i,
        ((savedQuery s (authOf (s.roster i)) a).filter (savesCookie s c)).isSome = true →
        (s.cookies c).data i = some a := by
      intro a ha hsome
      obtain ⟨q, hq⟩ := Option.isSome_iff_exists.mp hsome
      obtain ⟨hsaved, hcookie⟩ := Option.filter_eq_some_iff.mp hq
      obtain ⟨e, auth, he, _, _, _, rfl⟩ := savedQuery_eq_some hsaved
      have hp : e.parent = c := by simpa [savesCookie, he] using hcookie
      exact hp ▸ linked i a e ha he
    intro a ha b hb hsa hsb
    exact Option.some.inj ((hpoint a ha hsa).symm.trans (hpoint b hb hsb))
  · intro sid id a hq
    obtain ⟨ha, e, auth, he, _, _, _, _, _, hafter⟩ := mem_new_insertData h hq
    have hentry : entryAt s e.parent i = some e := by
      rw [entryAt, linked i a e ha he]
      exact he
    exact ⟨e, hafter, (getCookieValue_of_entryAt hentry).symm⟩

/-- A run keeps one entry per client and cookie, in every state, exactly when every load that
is delivered brings fresh rows only. -/
theorem oneEntry_iff_clean {roster : ℕ → Option Player} {spent : List ℕ}
    {trace : List (Server × Event)} (run : Run (Step cfg) (start roster spent) trace s) :
    (∀ u ∈ visited trace s, OneEntry u ∧ ∀ i, SavesOnce cfg u i) ↔
      ∀ x ∈ trace, CleanDelivery cfg x.1 x.2 := by
  have hwf : ∀ u ∈ visited trace s, Wf u := by
    intro u hu
    obtain ⟨before, after, _, first, _⟩ := run.of_visited hu
    exact wf_of_run first
  constructor
  · intro one x hx
    obtain ⟨u, hu, allowed, rfl⟩ := run.next_visited (t := x.1) (e := x.2) hx
    have hlinked := (oneEntry_iff (hwf _ hu)).mp (one _ hu).1
    exact clean_of_linked (hwf _ (visited_of_mem hx)) allowed hlinked
  · intro clean u hu
    have preserved : ∀ a e b, Wf a ∧ Linked a → CleanDelivery cfg a e → Step cfg a e b →
        Wf b ∧ Linked b := by
      intro a e b h hclean step
      obtain ⟨allowed, rfl⟩ := step
      exact ⟨Wf.apply h.1 allowed, linked_of_clean h.1 h.2 allowed hclean⟩
    have first : Linked (start roster spent) := by simp [Linked, start]
    obtain ⟨hu', hlinked⟩ :=
      run.invariant_visited ⟨Wf.start roster spent, first⟩ preserved clean hu
    exact ⟨(oneEntry_iff hu').mpr hlinked, savesOnce_of_linked hu' hlinked⟩

def loadFirst : List Event := beforeSet ++ [ownLoad "on"]

lemma loadFirst_playable : Playable oneSlot vacant loadFirst := by
  have hquery : (play oneSlot vacant beforeSet).sent[1]? =
      some (.selectData 7 (bytes "STEAM_1:0:7")) := by decide
  exact beforeSet_playable.append ⟨⟨by decide, _, hquery, musicTalk_talks "on"⟩, trivial⟩

lemma loadFirst_clean :
    ∀ x ∈ playTrace oneSlot vacant loadFirst, CleanDelivery oneSlot x.1 x.2 := by
  intro x hx i rows delivers
  simp only [loadFirst, beforeSet, registration, List.cons_append, List.nil_append, enactTrace,
    List.mem_cons, List.not_mem_nil, or_false] at hx
  rcases hx with rfl | rfl | rfl | rfl | rfl
  · exact delivers.elim
  · obtain ⟨rfl, _⟩ := delivers
    exact ⟨List.nodup_nil, fun row hrow => absurd hrow (List.not_mem_nil)⟩
  · exact delivers.elim
  · exact delivers.elim
  · obtain ⟨rfl, _, k, sid, hq, rfl⟩ := delivers
    refine ⟨List.nodup_singleton _, fun row hrow c hc => ?_⟩
    have hquery : (play oneSlot vacant beforeSet).sent[1]? =
        some (.selectData 7 (bytes "STEAM_1:0:7")) := by decide
    have hfound : findCookie oneSlot (play oneSlot vacant beforeSet)
        (Cookie.new (bytes "music") [] 0).name = some 0 := by decide
    obtain rfl : 7 = k := by
      have hboth := hquery.symm.trans hq
      simp only [Option.some.injEq, Query.selectData.injEq] at hboth
      exact hboth.1
    obtain rfl := List.mem_singleton.mp hrow
    obtain rfl : 0 = c := Option.some.inj (hfound.symm.trans hc)
    decide

theorem oneEntry_loadFirst : OneEntry (play oneSlot vacant loadFirst) ∧
    ∀ i, SavesOnce oneSlot (play oneSlot vacant loadFirst) i :=
  (oneEntry_iff_clean (play_run loadFirst_playable)).mpr loadFirst_clean _
    (List.mem_append_right _ (List.mem_singleton_self _))

/-- The load arrives after the cookie was set: the client has two values for it. -/
def loadLast : List Event :=
  beforeSet ++ [.setCookieValue 0 1 (bytes "on") 0, ownLoad "off"]

lemma loadLast_playable : Playable oneSlot vacant loadLast := by
  have hquery : afterSet.sent[1]? = some (.selectData 7 (bytes "STEAM_1:0:7")) := by decide
  exact beforeSet_playable.append
    ⟨set_allowed, ⟨by decide, _, hquery, musicTalk_talks "off"⟩, trivial⟩

theorem two_entries : ¬ ∀ (cfg : Config) (roster : ℕ → Option Player) (spent : List ℕ)
    (trace : List (Server × Event)) (s : Server), Host cfg (start roster spent) →
    Run (Step cfg) (start roster spent) trace s → OneEntry s ∧ ∀ i, SavesOnce cfg s i := by
  intro h
  have one := (h oneSlot _ _ _ _ host_start_vacant (play_run loadLast_playable)).1
  have hlinked := (oneEntry_iff (wf_of_run (play_run loadLast_playable))).mp one
  have hmem : 0 ∈ (play oneSlot vacant loadLast).clientData 1 := by decide
  have hheap : (play oneSlot vacant loadLast).heap 0 =
      some ⟨bytes "on", true, 0, 0⟩ := by decide
  have hdata := hlinked 1 0 _ hmem hheap
  revert hdata
  decide

end ClientPrefs.TableLinks
