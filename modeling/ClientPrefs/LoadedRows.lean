import ClientPrefs.CookieTable
import ClientPrefs.PendingSaves
import ClientPrefs.ReadPaths

/-!
# What a load brings

A `SelectData` query that runs alone over a registry in order brings one row for each
registered name, with the value that Redis has under the player's key.
-/
namespace ClientPrefs.LoadedRows
open ByteStrings Cookies CookieManager CookieTable Loads QueryThread ReadPaths RedisReply
open RedisStore Session SlotTables SlotValues SoloRuns

variable {cfg : Config} {m : Server} {store : Store} {sid name id : Bytes} {c : CookieRef}
  {outcome : Outcome} {names : List Bytes}

/-- By the script or by the keys: the rows of the registered names, each once. -/
theorem rows_of_select (kept : Kept store)
    (hout : (solo serve store (selectData scriptSha sid)).2 = some outcome) :
    ∃ names : List Bytes, names.Nodup ∧ (∀ n, n ∈ names ↔ (store.value (idKey n)).isSome = true) ∧
      outcome.results = names.filterMap (cookieRow store sid) := by
  by_cases hscript : scriptSha ∈ store.scripts
  · rw [solo_script kept hscript, Option.some.injEq] at hout
    subst hout
    exact ⟨_, (store.listing.perm _).nodup_iff.mpr kept.once,
      fun n => Store.mem_members.trans (kept.listed n), rfl⟩
  · rw [solo_keys kept hscript, Option.some.injEq] at hout
    subst hout
    exact ⟨_, registered_nodup, fun _ => mem_registered, rfl⟩

lemma cookieRow_registered (kept : Kept store) (hid : store.value (idKey name) = some id)
    (sid : Bytes) :
    ∃ desc, store.value (descKey name) = some desc ∧ cookieRow store sid name = some
      (Cookie.new name (cstr desc) (readAccess (reply (store.getReply (accessKey name)))),
        readValue (reply (store.getReply (valueKey sid id)))) := by
  obtain ⟨desc, hdesc⟩ := Option.isSome_iff_exists.mp (kept.described name (by simp [hid]))
  exact ⟨desc, hdesc, by simp [cookieRow, hid, hdesc]⟩

lemma cookieRow_name (kept : Kept store) {row : Cookie × Bytes}
    (hrow : cookieRow store sid name = some row) : row.1.name = name := by
  obtain ⟨id, hid, _⟩ := Option.bind_eq_some_iff.mp hrow
  obtain ⟨desc, _, heq⟩ := cookieRow_registered kept hid sid
  obtain rfl := Option.some.inj (hrow.symm.trans heq)
  exact new_name (kept.names name (by simp [hid])) _ _

lemma filter_rows {f : Bytes → Option (Cookie × Bytes)} {p : Cookie × Bytes → Bool}
    {row : Cookie × Bytes} (nodup : names.Nodup) (mem : name ∈ names) (hrow : f name = some row)
    (only : ∀ n r, f n = some r → (p r = true ↔ n = name)) :
    (names.filterMap f).filter p = [row] := by
  obtain ⟨before, after, rfl⟩ := List.append_of_mem mem
  have hother : ∀ l : List Bytes, name ∉ l → (l.filterMap f).filter p = [] := by
    intro l hl
    refine List.filter_eq_nil_iff.mpr fun r hr hp => ?_
    obtain ⟨n, hn, hfn⟩ := List.mem_filterMap.mp hr
    exact hl ((only n r hfn).mp hp ▸ hn)
  obtain ⟨hbefore, hafter⟩ := List.nodup_middle.mp nodup |> List.nodup_cons.mp
  rw [List.mem_append, not_or] at hbefore
  rw [List.filterMap_append, List.filter_append, hother before hbefore.1, List.nil_append,
    List.filterMap_cons_some hrow, List.filter_cons_of_pos ((only name row hrow).mpr rfl),
    hother after hbefore.2]

/-- The load brings, for a cookie that its name leads to, what Redis has under the key. -/
theorem lastRow_of_select (kept : Kept store) (leads : findCookie cfg m name = some c)
    (hid : store.value (idKey name) = some id)
    (hout : (solo serve store (selectData scriptSha sid)).2 = some outcome) :
    lastRow cfg m c outcome.results =
      some (readValue (reply (store.getReply (valueKey sid id)))) := by
  obtain ⟨names, nodup, hmem, hresults⟩ := rows_of_select kept hout
  obtain ⟨desc, _, hrow⟩ := cookieRow_registered kept hid sid
  have only : ∀ n r, cookieRow store sid n = some r →
      (decide (findCookie cfg m r.1.name = some c) = true ↔ n = name) := by
    intro n r hr
    rw [decide_eq_true_eq, cookieRow_name kept hr]
    constructor
    · intro hfound
      have hcut := (findCookie_name hfound).symm.trans (findCookie_name leads)
      obtain ⟨id', hid', _⟩ := Option.bind_eq_some_iff.mp hr
      have whole : Whole n := kept.names n (by simp [hid'])
      have whole' : Whole name := kept.names name (by simp [hid])
      rwa [whole.cut, whole'.cut] at hcut
    · rintro rfl
      exact leads
  have hmem' : name ∈ names := (hmem name).mpr (by simp [hid])
  rw [lastRow, hresults, filter_rows nodup hmem' hrow only]
  rfl

lemma storedValue_read (store : Store) (key : Bytes) :
    storedValue (readValue (reply (store.getReply key))) =
      storedValue ((store.value key).getD []) := by
  unfold Store.getReply
  cases store.value key with
  | none => rfl
  | some v =>
    have hread : readValue (reply (.string v)) = cstr (cstr v) := rfl
    rw [hread, storedValue_cstr, storedValue_cstr, Option.getD_some]

lemma lastRow_of_not_found {rows : List (Cookie × Bytes)}
    (whole : ∀ row ∈ rows, Whole row.1.name)
    (hnot : findCookie cfg m (m.cookies c).name ≠ some c) : lastRow cfg m c rows = none := by
  have hnone : (rows.filter fun row => findCookie cfg m row.1.name = some c) = [] := by
    refine List.filter_eq_nil_iff.mpr fun row hrow hfound => hnot ?_
    rw [decide_eq_true_eq] at hfound
    rw [findCookie_name hfound, (whole row hrow).cut]
    exact hfound
  rw [lastRow, hnone]
  rfl

lemma found_apply (h : Wf m) (hc : c < m.cookieCount) {e : Event} (allowed : e.Allowed cfg m)
    (name : Bytes) :
    findCookie cfg (e.apply cfg m) name = some c ↔ findCookie cfg m name = some c := by
  let Same (u : Server) : Prop := c < u.cookieCount ∧
    (findCookie cfg u name = some c ↔ findCookie cfg m name = some c)
  have congr : ∀ a b : Server, tableOf b = tableOf a → Same a → Same b := by
    intro a b same hsame
    have hcount : b.cookieCount = a.cookieCount := congrArg (fun x => x.2.1) same
    exact ⟨hcount ▸ hsame.1, findCookie_congr same name ▸ hsame.2⟩
  have create : ∀ u n d a, Wf u → Same u → True → Same (createCookie cfg u n d a).1 := by
    intro u n d a hu hsame _
    cases hn : findCookie cfg u n with
    | some k => exact congr u _ (tableOf_createCookie_of_found hn) hsame
    | none =>
      have hcount : (createCookie cfg u n d a).1.cookieCount = u.cookieCount + 1 := by
        simp only [createCookie, hn]
        rfl
      refine ⟨hcount ▸ Nat.lt_succ_of_lt hsame.1, ?_⟩
      rw [findCookie_createCookie hu hn, ← hsame.2]
      cases findCookie cfg u name with
      | some k => rw [Option.some_or]
      | none =>
        rw [Option.none_or]
        split_ifs
        · simp [hsame.1.ne']
        · rfl
  exact (table_of_apply congr (N := fun _ => True) (fun _ _ => trivial) create h ⟨hc, Iff.rfl⟩
    allowed fun _ _ _ _ => trivial).2

end ClientPrefs.LoadedRows
