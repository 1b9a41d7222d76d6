import ClientPrefs.PluginSessions

/-!
# Cookie iterators

`GetCookieIterator` makes a `size_t`, `ReadCookieIterator` counts it up, and closing its last
handle deletes it. In between anything may happen, also new cookies and new handles for the same
iterator.
-/
namespace ClientPrefs.CookieIterators
open ByteStrings CookieIds Cookies LateLoad Natives PluginSessions SlotTables Transition
open CookieManager hiding setAuthIdCookie
open Session hiding start

section Definitions
variable (S : Setup)

def nameRead (a : ℕ) (p : Plugins) : Act → Option Bytes
  | .native (.readCookieIterator hndl) =>
    if p.handles hndl = some (.iterator a) then
      match readCookieIterator S p hndl with
      | some (_, .entry name _ _) => some name
      | _ => none
    else none
  | _ => none

def namesRead (a : ℕ) (trace : List (Plugins × Act)) : List Bytes :=
  trace.filterMap fun x => nameRead S a x.1 x.2

end Definitions

def firstNames (s : Server) (n : ℕ) : List Bytes :=
  (List.range n).map fun c => (s.cookies c).name

variable {S : Setup} {p q t : Plugins} {answer : Answer} {act : Act} {hndl : Int32} {a : ℕ}

/-- What an act does to one iterator, and the name it reads from it. -/
inductive Moves (p q : Plugins) (a : ℕ) (name : Option Bytes) : Prop
  | stays (same : q.iterators a = p.iterators a) (none : name = none)
  | passes (n : ℕ) (at_n : p.iterators a = some n) (next : n < p.server.cookieCount)
      (gone : q.iterators a = some (n + 1)) (read : name = some (p.server.cookies n).name)
  | ends (dead : q.iterators a = none) (none : name = none)

lemma cookies_reconnect (S : Setup) (p : Plugins) :
    (reconnect S p).server.cookies = p.server.cookies := by
  unfold reconnect
  rw [attemptReconnection_eq]
  rfl

lemma count_reconnect (S : Setup) (p : Plugins) :
    (reconnect S p).server.cookieCount = p.server.cookieCount :=
  count_attemptReconnection S.cfg p.server

lemma readCookieIterator_eq {n : ℕ} (holds : p.handles hndl = some (.iterator a))
    (at_n : p.iterators a = some n) : readCookieIterator S p hndl =
      some (if p.server.cookieCount ≤ n then (reconnect S p, .cell 0)
        else
          ({ reconnect S p with iterators := Function.update p.iterators a (some (n + 1)) },
            .entry (p.server.cookies n).name (p.server.cookies n).description
              (p.server.cookies n).access)) := by
  have read : readIterator S (reconnect S p) hndl = .ok a := by
    have same : (reconnect S p).handles hndl = some (.iterator a) := holds
    simp only [readIterator, same]
  have value : (reconnect S p).iterators a = some n := at_n
  simp only [readCookieIterator, read, value, Option.map_some, count_reconnect, cookies_reconnect]
  rfl

lemma nameRead_of_not (h : ∀ hndl, act = .native (.readCookieIterator hndl) →
    p.handles hndl ≠ some (.iterator a)) : nameRead S a p act = none := by
  unfold nameRead
  split
  · next hndl => exact if_neg (h hndl rfl)
  · rfl

lemma moves_act (valid : Valid S p) (h : perform S p act = some (q, answer))
    (older : a < p.nextIterator) : Moves p q a (nameRead S a p act) := by
  have other : a ≠ p.nextIterator := older.ne
  by_cases mine : ∃ hndl, act = .native (.readCookieIterator hndl) ∧
      p.handles hndl = some (.iterator a)
  · obtain ⟨hndl, rfl, holds⟩ := mine
    obtain ⟨n, at_n⟩ := Option.isSome_iff_exists.mp (valid.cursors.there holds)
    have result := readCookieIterator_eq (S := S) holds at_n
    have name : nameRead S a p (.native (.readCookieIterator hndl)) =
        match readCookieIterator S p hndl with
        | some (_, .entry name _ _) => some name
        | _ => none := if_pos holds
    rw [name, result]
    rw [perform, call, result] at h
    split_ifs at h ⊢ with last
    · obtain ⟨rfl, _⟩ := Prod.mk.inj (Option.some.inj h)
      exact .stays rfl rfl
    · obtain ⟨rfl, _⟩ := Prod.mk.inj (Option.some.inj h)
      exact .passes n at_n (Nat.lt_of_not_le last) (Function.update_self ..) rfl
  · rw [nameRead_of_not fun hndl hact holds => mine ⟨hndl, hact, holds⟩]
    cases frame_act h with
    | unopened => exact .stays (Function.update_of_ne other ..) rfl
    | opened t k => exact .stays (Function.update_of_ne other ..) rfl
    | passed t k b n hk =>
      have hab : a ≠ b := by
        rintro rfl
        exact mine ⟨k, rfl, hk⟩
      exact .stays (Function.update_of_ne hab ..) rfl
    | closed k b hk =>
      by_cases hab : a = b
      · subst hab
        exact .ends (Function.update_self ..) rfl
      · exact .stays (Function.update_of_ne hab ..) rfl
    | _ => exact .stays rfl rfl

lemma names_of_playable {cfg : Config} {s : Server} {es : List Event} (h : Wf s)
    (playable : Playable cfg s es) {c : CookieRef} (hc : c < s.cookieCount) :
    ((play cfg s es).cookies c).name = (s.cookies c).name := by
  induction es generalizing s with
  | nil => rfl
  | cons e es ih =>
    obtain ⟨allowed, rest⟩ := playable
    have extended := Extends.apply h allowed
    exact (ih (Wf.apply h allowed) rest (hc.trans_le extended.count)).trans (extended.names c hc)

theorem firstNames_step (wf : Wf p.server) (valid : Valid S p) (allowed : act.Allowed S p)
    (h : perform S p act = some (q, answer)) {n : ℕ} (hn : n ≤ p.server.cookieCount) :
    firstNames q.server n = firstNames p.server n := by
  apply List.map_congr_left
  intro c hc
  obtain ⟨playable, result⟩ := plays_act valid allowed h
  rw [result]
  exact names_of_playable wf playable ((List.mem_range.mp hc).trans_le hn)

/-- As long as the iterator is there, it has passed the cookies whose names were read. -/
structure Reading (S : Setup) (a : ℕ) (names : List Bytes) (p : Plugins) : Prop where
  wf : Wf p.server
  valid : Valid S p
  older : a < p.nextIterator
  read : ∀ n, p.iterators a = some n → names = firstNames p.server n

lemma nextIterator_le (h : perform S p act = some (q, answer)) :
    p.nextIterator ≤ q.nextIterator := by
  cases frame_act h <;> first | exact le_rfl | exact Nat.le_succ _

theorem Reading.step {names : List Bytes} (reading : Reading S a names p)
    (allowed : act.Allowed S p) (h : perform S p act = some (q, answer)) :
    Reading S a (names ++ (nameRead S a p act).toList) q := by
  obtain ⟨wf, valid, older, read⟩ := reading
  refine ⟨(grows_of_plays wf (plays_act valid allowed h)).1, valid.step wf allowed h,
    older.trans_le (nextIterator_le h), fun n at_n => ?_⟩
  cases moves_act valid h older with
  | stays same none =>
    rw [same] at at_n
    rw [none, Option.toList_none, List.append_nil,
      firstNames_step wf valid allowed h (valid.passed a n at_n)]
    exact read n at_n
  | passes m at_m next gone name =>
    obtain rfl : m + 1 = n := Option.some.inj (gone.symm.trans at_n)
    have more : firstNames p.server (m + 1) =
        firstNames p.server m ++ [(p.server.cookies m).name] := by
      simp [firstNames, List.range_succ]
    rw [firstNames_step wf valid allowed h next, more, name, Option.toList_some, read m at_m]
  | ends dead _ =>
    rw [dead] at at_n
    cases at_n

theorem reading_of_run {trace : List (Plugins × Act)} (run : Run (Step S) t trace p)
    (start : Reading S a [] t) : Reading S a (namesRead S a trace) p := by
  have preserved : ∀ (past : List (Plugins × Act)) (p : Plugins) (act : Act) (q : Plugins),
      Reading S a (namesRead S a past) p → Step S p act q →
      Reading S a (namesRead S a (past ++ [(p, act)])) q := by
    rintro past p act q reading ⟨allowed, answer, h⟩
    have more : namesRead S a (past ++ [(p, act)]) =
        namesRead S a past ++ (nameRead S a p act).toList := by
      rw [namesRead, List.filterMap_append]
      rfl
    rw [more]
    exact reading.step allowed h
  exact run.stable_history start preserved

lemma reading_start (wf : Wf p.server) (valid : Valid S p)
    (allowed : (Act.native (.getCookieIterator hndl)).Allowed S p) (made : hndl ≠ 0)
    (h : perform S p (.native (.getCookieIterator hndl)) = some (q, answer)) :
    Reading S p.nextIterator [] q := by
  have wf' := (grows_of_plays wf (plays_act valid allowed h)).1
  have valid' := valid.step wf allowed h
  simp only [perform, call, getCookieIterator, if_neg made, createHandle, Option.some.injEq] at h
  obtain ⟨rfl, _⟩ := Prod.mk.inj h
  refine ⟨wf', valid', Nat.lt_succ_self _, fun n at_n => ?_⟩
  dsimp only [reconnect] at at_n
  rw [Function.update_self] at at_n
  obtain rfl := Option.some.inj at_n
  rfl

/-- The names that plugins have read from an iterator, by whichever of its handles, are those of
the first cookies in the order of their registration, whatever happened in between, and the next
read is the end exactly when these are all the cookies. -/
theorem reads_in_order {roster : ℕ → Option Player} {spent : List ℕ}
    {before after : List (Plugins × Act)} (made : hndl ≠ 0)
    (run : Run (Step S) (start roster spent)
      (before ++ (t, .native (.getCookieIterator hndl)) :: after) p) {k : Int32}
    (holds : p.handles k = some (.iterator t.nextIterator)) :
    ∃ n ≤ p.server.cookieCount, namesRead S t.nextIterator after = firstNames p.server n ∧
      ((perform S p (.native (.readCookieIterator k))).map Prod.snd = some (.cell 0) ↔
        n = p.server.cookieCount) := by
  rw [List.append_cons] at run
  obtain ⟨u, first, rest⟩ := run.of_append
  obtain ⟨prior, allowed, answer, h⟩ := first.of_snoc
  obtain ⟨wf, valid⟩ := valid_of_run prior
  have start := reading_start wf valid allowed made h
  obtain ⟨_, valid', _, read⟩ := reading_of_run rest start
  obtain ⟨n, at_n⟩ := Option.isSome_iff_exists.mp (valid'.cursors.there holds)
  have hn := valid'.passed _ n at_n
  refine ⟨n, hn, read n at_n, ?_⟩
  rw [perform, call, readCookieIterator_eq holds at_n]
  split_ifs with last
  · exact ⟨fun _ => Nat.le_antisymm hn last, fun _ => rfl⟩
  · constructor
    · intro ended
      simp at ended
    · rintro rfl
      exact absurd le_rfl last

theorem there_iff (valid : Valid S p) (a : ℕ) :
    (p.iterators a).isSome = true ↔ ∃ hndl, p.handles hndl = some (.iterator a) := by
  rw [valid.cursors.live, valid.cursors.counted, handlesOf, Set.ncard_pos]
  rfl

lemma handles_closeHandle (h : closeHandle p hndl = some q) :
    q.handles = Function.update p.handles hndl none := by
  unfold closeHandle at h
  split at h
  · next free =>
    obtain rfl := Option.some.inj h
    rw [← free, Function.update_eq_self]
  · next object _ =>
    dsimp only at h
    split_ifs at h
    · obtain rfl := Option.some.inj h
      rfl
    · cases object with
      | cookie c =>
        obtain rfl := Option.some.inj h
        rfl
      | iterator a =>
        obtain ⟨_, _, rfl⟩ := Option.map_eq_some_iff.mp h
        rfl

/-- The iterators that are there are those with a handle. Closing a handle deletes nothing that is
not there, and what it leaves are the iterators with another handle. -/
theorem iterators_owned {roster : ℕ → Option Player} {spent : List ℕ}
    {trace : List (Plugins × Act)} (run : Run (Step S) (start roster spent) trace p) :
    (∀ a, (p.iterators a).isSome = true ↔ ∃ hndl, p.handles hndl = some (.iterator a)) ∧
      ∀ hndl, ∃ q, closeHandle p hndl = some q ∧ ∀ a, (q.iterators a).isSome = true ↔
        ∃ k, k ≠ hndl ∧ p.handles k = some (.iterator a) := by
  obtain ⟨wf, valid⟩ := valid_of_run run
  refine ⟨there_iff valid, fun hndl => ?_⟩
  obtain ⟨q, hq⟩ := Option.isSome_iff_exists.mp (closeHandle_isSome valid hndl)
  have closes : perform S p (.close hndl) = some (q, .cell 0) := by rw [perform, hq]; rfl
  have allowed : (Act.close hndl).Allowed S p := trivial
  refine ⟨q, hq, fun a => ?_⟩
  rw [there_iff (valid.step wf allowed closes), handles_closeHandle hq]
  refine exists_congr fun k => ⟨fun hk => ?_, fun ⟨other, hk⟩ => ?_⟩
  · by_cases heq : k = hndl
    · rw [heq, Function.update_self] at hk
      cases hk
    · exact ⟨heq, (Function.update_of_ne heq ..).symm.trans hk⟩
  · exact (Function.update_of_ne other ..).trans hk

/-- A cookie is registered while the cookies are listed, and the list has both. The second one is
read by another handle, after the first handle was closed. -/
def listing : List Act :=
  [.native (.regClientCookie (bytes "music") [] 0 1), .native (.getCookieIterator 2),
    .native (.readCookieIterator 2), .native (.regClientCookie (bytes "sound") [] 0 3),
    .clone 2 4, .close 2, .native (.readCookieIterator 4)]

lemma listing_possible : Enactable (after oneSetup) (Possible oneSetup) loaded listing :=
  ⟨⟨rfl, rfl⟩, ⟨rfl, rfl⟩, ⟨trivial, rfl⟩, ⟨rfl, rfl⟩, ⟨rfl, rfl⟩, ⟨trivial, rfl⟩, ⟨trivial, rfl⟩,
    trivial⟩

def listed : Plugins := enact (after oneSetup) loaded listing

theorem reads_in_order_listing :
    (perform oneSetup listed (.native (.readCookieIterator 4))).map Prod.snd = some (.cell 0) ∧
    ∃ n ≤ listed.server.cookieCount,
      namesRead oneSetup 0 ((enactTrace (after oneSetup) loaded listing).drop 2) =
        firstNames listed.server n ∧ n = listed.server.cookieCount := by
  have run : Run (Step oneSetup) loaded
      ((enactTrace (after oneSetup) loaded listing).take 1 ++
        (after oneSetup loaded (.native (.regClientCookie (bytes "music") [] 0 1)),
          .native (.getCookieIterator 2)) ::
          (enactTrace (after oneSetup) loaded listing).drop 2)
      listed := acts_run listing_possible
  have last : (perform oneSetup listed (.native (.readCookieIterator 4))).map Prod.snd =
      some (.cell 0) := by decide +kernel
  obtain ⟨n, hn, names, ended⟩ := reads_in_order (by decide) run (k := 4) rfl
  exact ⟨last, n, hn, names, ended.mp last⟩

theorem iterators_owned_listing : (listed.iterators 0).isSome = true ∧
    ∃ q, closeHandle listed 4 = some q ∧ ∀ a, (q.iterators a).isSome = true ↔
      ∃ k, k ≠ 4 ∧ listed.handles k = some (.iterator a) := by
  obtain ⟨there, closes⟩ := iterators_owned (acts_run listing_possible)
  exact ⟨(there 0).mpr ⟨4, rfl⟩, closes 4⟩

end ClientPrefs.CookieIterators
