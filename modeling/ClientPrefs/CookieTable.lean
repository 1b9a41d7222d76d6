import ClientPrefs.CookieIds
import ClientPrefs.LoadIsolation

/-!
# The table of cookies

`CreateCookie` files a cookie under the hash of the name it was given, and the cookie
keeps the first 29 bytes of that name.
-/
namespace ClientPrefs.CookieTable
open ByteStrings CookieIds Cookies CookieManager Conversation Conv LateLoad LoadIsolation Loads
open QueryThread Session SlotRelease SlotTables Transition

def Fits (name : Bytes) : Prop := (cstr name).length < maxNameLength

/-- Only `CreateCookie` is restricted, to names that fit. -/
def CreatesFit : Event → Prop
  | .createCookie name _ _ => Fits name
  | _ => True

/-- The name leads to the cookie, and creating it again returns the cookie and sends nothing. -/
structure Leads (cfg : Config) (name : Bytes) (c : CookieRef) (s : Server) : Prop where
  found : findCookie cfg s name = some c
  again : ∀ description access, (createCookie cfg s name description access).2 = c ∧
    (createCookie cfg s name description access).1.sent = s.sent

/-- From its creation on, every name leads to the cookie that `CreateCookie` returned. -/
def NamesLead (cfg : Config) (trace : List (Server × Event)) (s : Server) : Prop :=
  ∀ before u name description access after,
    trace = before ++ (u, .createCookie name description access) :: after →
    ∀ v ∈ visited after s, Leads cfg name (createCookie cfg u name description access).2 v

def NamesApart (s : Server) : Prop := ∀ c d, c < s.cookieCount → d < s.cookieCount →
  (s.cookies c).name = (s.cookies d).name → c = d

variable {cfg : Config} {s t : Server} {name : Bytes}

lemma stored_of_fits (h : Fits name) : utilStrncpy (some name) maxNameLength = cstr name := by
  rw [utilStrncpy_some _ (by decide), List.take_of_length_le]
  exact Nat.le_pred_of_lt h

lemma Whole.fits (h : Whole name) : Fits name := by
  have hlen : (utilStrncpy (some name) maxNameLength).length ≤ maxNameLength - 1 := by
    rw [utilStrncpy_some _ (by decide)]
    exact List.length_take_le ..
  unfold Fits
  rw [h] at hlen
  rw [h.cut]
  exact Nat.lt_of_le_of_lt hlen (by decide)

lemma whole_of_fits (h : Fits name) : Whole (cstr name) := by
  have hfits : Fits (cstr name) := by rwa [Fits, cstr_cstr]
  exact (stored_of_fits hfits).trans (cstr_cstr name)

def tableOf (s : Server) : List (UInt32 × CookieRef) × ℕ × (CookieRef → Bytes) :=
  (s.cookieFinder, s.cookieCount, fun c => (s.cookies c).name)

lemma name_of_table (same : tableOf t = tableOf s) (c : CookieRef) :
    (t.cookies c).name = (s.cookies c).name := congrFun (congrArg (fun x => x.2.2) same) c

lemma findCookie_congr (same : tableOf t = tableOf s) (name : Bytes) :
    findCookie cfg t name = findCookie cfg s name := by
  have hfinder : t.cookieFinder = s.cookieFinder := congrArg Prod.fst same
  simp only [findCookie, hfinder, name_of_table same]

lemma tableOf_modifyCookie (c : CookieRef) {f : Cookie → Cookie}
    (hf : ∀ k, (f k).name = k.name) : tableOf (s.modifyCookie c f) = tableOf s := by
  have hname : (fun d => ((s.modifyCookie c f).cookies d).name) = fun d => (s.cookies d).name := by
    funext d
    by_cases hd : d = c
    · simp [Server.modifyCookie, hd, hf]
    · simp [Server.modifyCookie, hd]
  exact congrArg (fun names => (s.cookieFinder, s.cookieCount, names)) hname

lemma tableOf_linkData (c : CookieRef) (i : ℕ) (e : CookieData) :
    tableOf (linkData s c i e) = tableOf s := tableOf_modifyCookie c fun _ => rfl

lemma tableOf_setCookieValue (c : CookieRef) (i : ℕ) (v : Bytes) (now : ℕ) :
    tableOf (setCookieValue s c i v now) = tableOf s := by
  unfold setCookieValue
  split
  · exact tableOf_linkData ..
  · rfl

lemma tableOf_getCookieValue (c : CookieRef) (i : ℕ) :
    tableOf (getCookieValue s c i).1 = tableOf s := by
  unfold getCookieValue
  split
  · exact tableOf_linkData ..
  · rfl

lemma tableOf_attemptReconnection : tableOf (attemptReconnection cfg s) = tableOf s := by
  rw [attemptReconnection_eq]
  rfl

lemma tableOf_onClientAuthorized (i : ℕ) : tableOf (onClientAuthorized cfg s i) = tableOf s := by
  rw [onClientAuthorized_eq]
  split
  · rfl
  · split_ifs <;> rfl

lemma tableOf_onClientDisconnecting (h : Wf s) (i : ℕ) :
    tableOf (onClientDisconnecting cfg s i) = tableOf s := by
  rw [onClientDisconnecting_eq h]
  have hname : ∀ c, ((releaseAll i (authOf (s.roster i)) (afterReconnect cfg s i)
      (s.clientData i)).cookies c).name = (s.cookies c).name := by
    intro c
    simp only [releaseAll]
    split_ifs <;> rfl
  exact congrArg (fun names => (s.cookieFinder, s.cookieCount, names)) (funext hname)

lemma tableOf_setAuthIdCookie {authId : Bytes} {c : CookieRef} {v : Bytes} {now : ℕ}
    (h : setAuthIdCookie cfg s authId c v now = some t) : tableOf t = tableOf s := by
  obtain ⟨i, _, rfl⟩ := Option.map_eq_some_iff.mp h
  split_ifs
  · rw [tableOf_setCookieValue, tableOf_attemptReconnection]
  · exact (tableOf_attemptReconnection : tableOf (attemptReconnection cfg s) = tableOf s)

theorem table_cases (h : Wf s) {e : Event} (allowed : e.Allowed cfg s) :
    tableOf (e.apply cfg s) = tableOf s ∨
    (∃ name description access, e = .createCookie name description access) ∨
    ∃ (i : ℕ) (rows : List (Cookie × Bytes)) (u : Server), Wf u ∧
      (tableOf u, u.sent) = (tableOf s, s.sent) ∧ (∀ row ∈ rows, Whole row.1.name) ∧
      (tableOf (e.apply cfg s), (e.apply cfg s).sent) =
        (tableOf (rows.foldl (loadRow cfg i) u), (rows.foldl (loadRow cfg i) u).sent) := by
  cases e with
  | connect i p => exact .inl rfl
  | authorize i => exact .inl (tableOf_onClientAuthorized i)
  | disconnecting i => exact .inl (tableOf_onClientDisconnecting h i)
  | disconnected i => exact .inl rfl
  | reconnect => exact .inl tableOf_attemptReconnection
  | createCookie name description access => exact .inr (.inl ⟨name, description, access, rfl⟩)
  | setCookieValue c i v now => exact .inl (tableOf_setCookieValue c i v now)
  | getCookieValue c i => exact .inl (tableOf_getCookieValue c i)
  | setAuthIdCookie authId c v now =>
    obtain ⟨u, hu⟩ := Option.isSome_iff_exists.mp allowed.2
    simp only [Event.apply, hu, Option.getD_some]
    exact .inl (tableOf_setAuthIdCookie hu)
  | think q talk outcome =>
    obtain ⟨_, query, hq, talks⟩ := allowed
    let s' : Server := { s with finished := s.finished ++ [q] }
    have hs' : Wf s' := h.congr rfl rfl rfl rfl rfl rfl fun _ _ _ ha => ha
    have hrun : (Event.think q talk outcome).apply cfg s = runThinkPart cfg s' query outcome := by
      simp only [Event.apply, runFrame, hq]
      rfl
    rw [hrun]
    cases query with
    | insertCookie c =>
      left
      simp only [runThinkPart, insertCookieCallback]
      split_ifs
      · have hsame : tableOf (s'.modifyCookie c fun k => { k with dbid := outcome.insertId }) =
            tableOf s' := tableOf_modifyCookie c fun _ => rfl
        exact hsame
      · rfl
    | selectData k sid =>
      simp only [runThinkPart, clientConnectCallback]
      split_ifs
      · exact .inl rfl
      · right; right
        refine ⟨_, outcome.results, clearPending s' _, ?_, rfl, fun row hrow => ?_, rfl⟩
        · exact hs'.congr rfl rfl rfl rfl rfl rfl fun _ _ _ ha => ha
        · obtain ⟨n, d, a, hnew⟩ := (Talks.allRead talks row hrow).1
          exact hnew ▸ whole_new n d a
    | insertData sid id a => exact .inl rfl
    | selectId c n =>
      have hsame : tableOf (s'.modifyCookie c fun k => { k with dbid := outcome.insertId }) =
          tableOf s' := tableOf_modifyCookie c fun _ => rfl
      exact .inl hsame

/-- A property of the table that `CreateCookie` keeps for the names in question is kept by
every event. -/
theorem table_of_apply {P : Server → Prop} (congr : ∀ a b, tableOf b = tableOf a → P a → P b)
    {N : Bytes → Prop} (whole : ∀ n, Whole n → N n)
    (create : ∀ u n d a, Wf u → P u → N n → P (createCookie cfg u n d a).1)
    (h : Wf s) (hP : P s) {e : Event} (allowed : e.Allowed cfg s)
    (hok : ∀ n d a, e = .createCookie n d a → N n) : P (e.apply cfg s) := by
  have hrow : ∀ u i row, Wf u → P u → Whole row.1.name → P (loadRow cfg i u row) := by
    intro u i row hu hPu hwhole
    refine congr (findOrCreate cfg u row.1).1 _ (tableOf_linkData ..) ?_
    unfold findOrCreate
    split
    · exact hPu
    · exact create u _ _ _ hu hPu (whole _ hwhole)
  have hrows : ∀ (i : ℕ) (rows : List (Cookie × Bytes)) (u : Server), Wf u → P u →
      (∀ row ∈ rows, Whole row.1.name) → P (rows.foldl (loadRow cfg i) u) := by
    intro i rows
    induction rows with
    | nil => exact fun _ _ hPu _ => hPu
    | cons row rows ih =>
      intro u hu hPu hwhole
      have hfirst : P (loadRow cfg i u row) := hrow u i row hu hPu (hwhole _ (List.mem_cons_self ..))
      exact ih _ (hu.loadRow i row) hfirst fun r hr => hwhole r (List.mem_cons_of_mem _ hr)
  rcases table_cases h allowed with hsame | ⟨n, d, a, rfl⟩ | ⟨i, rows, u, hu, hsame, hwhole, hlast⟩
  · exact congr s _ hsame hP
  · exact create s n d a h hP (hok n d a rfl)
  · have first : P u := congr s u (congrArg Prod.fst hsame) hP
    exact congr _ _ (congrArg Prod.fst hlast) (hrows i rows u hu first hwhole)

def Enrols (s : Server) : Prop := ∀ c, c < s.cookieCount → .insertCookie c ∈ s.sent

lemma Enrols.createCookie (h : Enrols s) (n d : Bytes) (a : CookieAccess) :
    Enrols (createCookie cfg s n d a).1 := by
  cases hf : findCookie cfg s n with
  | some k =>
    simp only [CookieManager.createCookie, hf]
    exact h
  | none =>
    simp only [CookieManager.createCookie, hf]
    intro c hc
    rcases Nat.lt_succ_iff_lt_or_eq.mp hc with hlt | rfl
    · exact List.mem_append_left _ (h c hlt)
    · exact List.mem_append_right _ (List.mem_singleton_self _)

lemma Enrols.loadRows (h : Enrols s) (i : ℕ) (rows : List (Cookie × Bytes)) :
    Enrols (rows.foldl (loadRow cfg i) s) := by
  induction rows generalizing s with
  | nil => exact h
  | cons row rows ih =>
    have hcreate : Enrols (findOrCreate cfg s row.1).1 := by
      unfold findOrCreate
      split
      · exact h
      · exact h.createCookie _ _ _
    have hrow : Enrols (loadRow cfg i s row) := hcreate
    exact ih hrow

lemma Enrols.apply (h : Wf s) (enrols : Enrols s) {e : Event} (allowed : e.Allowed cfg s) :
    Enrols (e.apply cfg s) := by
  rcases table_cases h allowed with hsame | ⟨n, d, a, rfl⟩ | ⟨i, rows, u, _, hsame, _, hlast⟩
  · have hcount : (e.apply cfg s).cookieCount = s.cookieCount := congrArg (fun x => x.2.1) hsame
    intro c hc
    exact (Extends.apply h allowed).sent.subset (enrols c (hcount ▸ hc))
  · exact enrols.createCookie n d a
  · simp only [Prod.mk.injEq, tableOf] at hsame hlast
    have first : Enrols u := by
      intro c hc
      rw [hsame.2]
      exact enrols c (hsame.1.2.1 ▸ hc)
    intro c hc
    rw [hlast.2]
    exact first.loadRows i rows c (hlast.1.2.1 ▸ hc)

/-- Every cookie, born or not, has a whole name. -/
def AllWhole (s : Server) : Prop := ∀ c, Whole (s.cookies c).name

/-- Every cookie is filed under the hash of the name it keeps, and no two keep the same. -/
structure Tabled (cfg : Config) (s : Server) : Prop where
  filed : ∀ c, c < s.cookieCount → (cfg.nameHash (s.cookies c).name, c) ∈ s.cookieFinder
  apart : NamesApart s

lemma AllWhole.congr (h : AllWhole s) (same : tableOf t = tableOf s) : AllWhole t :=
  fun c => (name_of_table same c).symm ▸ h c

lemma Tabled.congr (h : Tabled cfg s) (same : tableOf t = tableOf s) : Tabled cfg t := by
  have hfinder : t.cookieFinder = s.cookieFinder := congrArg Prod.fst same
  have hcount : t.cookieCount = s.cookieCount := congrArg (fun x => x.2.1) same
  constructor <;> simp only [NamesApart, hfinder, hcount, name_of_table same]
  · exact h.filed
  · exact h.apart

lemma tableOf_createCookie_of_found {n d : Bytes} {a : CookieAccess} {k : CookieRef}
    (hf : findCookie cfg s n = some k) : tableOf (createCookie cfg s n d a).1 = tableOf s := by
  simp only [createCookie, hf]
  exact tableOf_modifyCookie k fun _ => rfl

lemma name_createCookie_of_ne (n d : Bytes) (a : CookieAccess) {c : CookieRef}
    (hc : c ≠ s.cookieCount) :
    ((createCookie cfg s n d a).1.cookies c).name = (s.cookies c).name := by
  cases hf : findCookie cfg s n with
  | some k => exact name_of_table (tableOf_createCookie_of_found hf) c
  | none => simp [createCookie, hf, Server.addQueryToQueue, hc]

lemma AllWhole.createCookie (h : AllWhole s) (n d : Bytes) (a : CookieAccess) :
    AllWhole (createCookie cfg s n d a).1 := by
  cases hf : findCookie cfg s n with
  | some k => exact h.congr (tableOf_createCookie_of_found hf)
  | none =>
    intro c
    by_cases hc : c = s.cookieCount
    · simpa [CookieManager.createCookie, hf, Server.addQueryToQueue, hc] using whole_new n d a
    · rw [name_createCookie_of_ne n d a hc]
      exact h c

lemma Tabled.find (h : Wf s) (tabled : Tabled cfg s) {c : CookieRef} (hc : c < s.cookieCount)
    (hname : (s.cookies c).name = cstr name) : findCookie cfg s name = some c := by
  have hfiled := tabled.filed c hc
  rw [hname] at hfiled
  cases hf : findCookie cfg s name with
  | none =>
    simp only [findCookie, Option.map_eq_none_iff, List.find?_eq_none] at hf
    exact absurd (hf _ hfiled) (by simp [hname])
  | some d =>
    have hd : (s.cookies d).name = (s.cookies c).name := (findCookie_name hf).trans hname.symm
    rw [tabled.apart d c (findCookie_lt h hf) hc hd]

lemma Tabled.createCookie (h : Wf s) (tabled : Tabled cfg s) {n : Bytes} (fits : Fits n)
    (d : Bytes) (a : CookieAccess) : Tabled cfg (createCookie cfg s n d a).1 := by
  cases hf : findCookie cfg s n with
  | some k => exact tabled.congr (tableOf_createCookie_of_found hf)
  | none =>
    have hfresh : ∀ c, c < s.cookieCount → (s.cookies c).name ≠ cstr n := by
      intro c hc hname
      rw [tabled.find h hc hname] at hf
      cases hf
    have hnew : ((CookieManager.createCookie cfg s n d a).1.cookies s.cookieCount).name =
        cstr n := by
      simp only [CookieManager.createCookie, hf]
      simpa [Server.addQueryToQueue, Cookie.new] using stored_of_fits fits
    have hold : ∀ c, c < s.cookieCount →
        ((CookieManager.createCookie cfg s n d a).1.cookies c).name = (s.cookies c).name :=
      fun c hc => name_createCookie_of_ne n d a hc.ne
    have hcount : (CookieManager.createCookie cfg s n d a).1.cookieCount = s.cookieCount + 1 := by
      simp only [CookieManager.createCookie, hf]
      rfl
    have hfinder : (CookieManager.createCookie cfg s n d a).1.cookieFinder =
        s.cookieFinder ++ [(cfg.nameHash (cstr n), s.cookieCount)] := by
      simp only [CookieManager.createCookie, hf]
      rfl
    constructor
    · intro c hc
      rw [hfinder]
      rcases Nat.lt_succ_iff_lt_or_eq.mp (hcount ▸ hc) with hlt | rfl
      · rw [hold c hlt]
        exact List.mem_append_left _ (tabled.filed c hlt)
      · rw [hnew]
        exact List.mem_append_right _ (List.mem_singleton_self _)
    · intro c e hc he hname
      rcases Nat.lt_succ_iff_lt_or_eq.mp (hcount ▸ hc) with hlt | rfl
      · rcases Nat.lt_succ_iff_lt_or_eq.mp (hcount ▸ he) with hlt' | rfl
        · rw [hold c hlt, hold e hlt'] at hname
          exact tabled.apart c e hlt hlt' hname
        · rw [hold c hlt, hnew] at hname
          exact absurd hname (hfresh c hlt)
      · rcases Nat.lt_succ_iff_lt_or_eq.mp (hcount ▸ he) with hlt' | rfl
        · rw [hold e hlt', hnew] at hname
          exact absurd hname.symm (hfresh e hlt')
        · rfl

def Named (name : Bytes) (c : CookieRef) (s : Server) : Prop :=
  c < s.cookieCount ∧ (s.cookies c).name = cstr name

lemma Tabled.leads (h : Wf s) (tabled : Tabled cfg s) {c : CookieRef} (named : Named name c s) :
    Leads cfg name c s := by
  have hfound : findCookie cfg s name = some c := tabled.find h named.1 named.2
  refine ⟨hfound, fun d a => ?_⟩
  simp only [CookieManager.createCookie, hfound]
  exact ⟨trivial, rfl⟩

lemma Named.congr {c : CookieRef} (h : Named name c s) (same : tableOf t = tableOf s) :
    Named name c t := by
  have hcount : t.cookieCount = s.cookieCount := congrArg (fun x => x.2.1) same
  rw [Named, hcount, name_of_table same]
  exact h

lemma Named.createCookie {c : CookieRef} (h : Named name c s) (n d : Bytes) (a : CookieAccess) :
    Named name c (createCookie cfg s n d a).1 := by
  have ext : Extends (fun _ _ => True) s (CookieManager.createCookie cfg s n d a).1 :=
    .createCookie n d a
  exact ⟨h.1.trans_le ext.count, (ext.names c h.1).trans h.2⟩

lemma Named.apply (h : Wf s) {c : CookieRef} (named : Named name c s) {e : Event}
    (allowed : e.Allowed cfg s) : Named name c (e.apply cfg s) :=
  table_of_apply (fun _ _ same hn => Named.congr hn same) (N := fun _ => True)
    (fun _ _ => trivial) (fun _ n d a _ hn _ => hn.createCookie n d a) h named allowed
    fun _ _ _ _ => trivial

lemma createCookie_named (cfg : Config) (h : Wf s) {n : Bytes} (fits : Fits n) (d : Bytes)
    (a : CookieAccess) :
    Named n (createCookie cfg s n d a).2 (createCookie cfg s n d a).1 := by
  cases hf : findCookie cfg s n with
  | some k =>
    have same : tableOf (createCookie cfg s n d a).1 = tableOf s :=
      tableOf_createCookie_of_found hf
    have hreturned : (createCookie cfg s n d a).2 = k := by simp [createCookie, hf]
    have named : Named n k s := ⟨findCookie_lt h hf, findCookie_name hf⟩
    rw [hreturned]
    exact named.congr same
  | none =>
    simp only [createCookie, hf]
    refine ⟨Nat.lt_succ_self _, ?_⟩
    simpa [Server.addQueryToQueue, Cookie.new] using stored_of_fits fits

lemma fits_of_found (whole : AllWhole s) (h : findCookie cfg s name = some c) : Fits name := by
  have hfits : Fits (s.cookies c).name := Whole.fits (whole c)
  rwa [findCookie_name h, Fits, cstr_cstr] at hfits

lemma AllWhole.apply (h : Wf s) (whole : AllWhole s) {e : Event} (allowed : e.Allowed cfg s) :
    AllWhole (e.apply cfg s) :=
  table_of_apply (fun _ _ same hw => AllWhole.congr hw same) (N := fun _ => True)
    (fun _ _ => trivial) (fun _ n d a _ hw _ => hw.createCookie n d a) h whole allowed
    fun _ _ _ _ => trivial

lemma allWhole_start (roster : ℕ → Option Player) (spent : List ℕ) :
    AllWhole (start roster spent) := fun _ => whole_new [] [] accessPublic

theorem allWhole_of_run {roster : ℕ → Option Player} {spent : List ℕ}
    {trace : List (Server × Event)} (run : Run (Step cfg) (start roster spent) trace s) :
    AllWhole s := by
  have preserved : ∀ a e b, Wf a ∧ AllWhole a → Step cfg a e b → Wf b ∧ AllWhole b := by
    intro a e b h step
    obtain ⟨allowed, rfl⟩ := step
    exact ⟨Wf.apply h.1 allowed, h.2.apply h.1 allowed⟩
  have first : Wf (start roster spent) ∧ AllWhole (start roster spent) :=
    ⟨Wf.start roster spent, allWhole_start roster spent⟩
  exact (run.stable first preserved).2

/-- In every run names lead to their cookies and no two cookies have one name exactly when every
name given to `CreateCookie` fits. -/
theorem table_unique_iff {roster : ℕ → Option Player} {spent : List ℕ}
    {trace : List (Server × Event)} (run : Run (Step cfg) (start roster spent) trace s) :
    (NamesLead cfg trace s ∧ ∀ u ∈ visited trace s, NamesApart u) ↔
      ∀ x ∈ trace, CreatesFit x.2 := by
  constructor
  · intro unique x hx
    obtain ⟨u, e⟩ := x
    obtain ⟨before, after, v, heq, first, hstep, rest⟩ := run.split hx
    cases e with
    | createCookie n d a =>
      have whole : AllWhole v := allWhole_of_run (first.snoc hstep)
      have leads := unique.1 before u n d a after heq v rest.first_visited
      exact fits_of_found whole leads.found
    | _ => trivial
  · intro fits
    have preserved : ∀ a e b, Wf a ∧ Tabled cfg a → CreatesFit e → Step cfg a e b →
        Wf b ∧ Tabled cfg b := by
      intro a e b h hfit step
      obtain ⟨allowed, rfl⟩ := step
      refine ⟨Wf.apply h.1 allowed, ?_⟩
      refine table_of_apply (fun _ _ same ht => Tabled.congr ht same) (N := Fits)
        (fun _ hw => Whole.fits hw) (fun u n d acc hu ht hn => ht.createCookie hu hn d acc) h.1 h.2
        allowed ?_
      rintro n d acc rfl
      exact hfit
    have first : Tabled cfg (start roster spent) := by
      constructor
      · simp [start]
      · intro c d hc
        simp [start] at hc
    have always : ∀ u ∈ visited trace s, Wf u ∧ Tabled cfg u := fun u hu =>
      run.invariant_visited ⟨Wf.start roster spent, first⟩ preserved fits hu
    refine ⟨?_, fun u hu => (always u hu).2.apart⟩
    rintro before u n d a after rfl v hv
    have hu := always u (visited_of_mem (x := (u, .createCookie n d a)) (by simp))
    have hfits : Fits n := fits (u, .createCookie n d a) (by simp)
    rw [List.append_cons] at run always
    obtain ⟨_, prior, rest⟩ := run.of_append
    obtain ⟨_, _, rfl⟩ := prior.of_snoc
    generalize hc : (createCookie cfg u n d a).2 = c
    have stays : ∀ a e b, Wf a ∧ Named n c a → True → Step cfg a e b → Wf b ∧ Named n c b := by
      intro a e b h _ step
      obtain ⟨allowed, rfl⟩ := step
      exact ⟨Wf.apply h.1 allowed, h.2.apply h.1 allowed⟩
    have named : Named n c v := by
      have hnew := createCookie_named cfg hu.1 hfits d a
      rw [hc] at hnew
      exact (rest.invariant_visited ⟨hu.1.createCookie n d a, hnew⟩ stays
        (fun _ _ => trivial) hv).2
    obtain ⟨hwf, tabled⟩ := always v (visited_append_right _ hv)
    exact tabled.leads hwf named

def twice (name : Bytes) : List Event := [.createCookie name [] 0, .createCookie name [] 0]

lemma twice_playable (name : Bytes) : Playable oneSlot vacant (twice name) :=
  ⟨trivial, trivial, trivial⟩

instance (name : Bytes) : Decidable (Fits name) := inferInstanceAs (Decidable (_ < _))

theorem table_unique_music : NamesApart (play oneSlot vacant (twice (bytes "music"))) ∧
    Leads oneSlot (bytes "music") 0 (play oneSlot vacant (twice (bytes "music"))) := by
  have unique := (table_unique_iff (play_run (twice_playable (bytes "music")))).mpr (by
    intro x hx
    have hevent : x.2 = .createCookie (bytes "music") [] 0 := by
      rcases List.mem_cons.mp hx with rfl | hx
      · rfl
      · rw [List.mem_singleton.mp hx]
    have hfits : Fits (bytes "music") := by decide
    rw [hevent]
    exact hfits)
  refine ⟨unique.2 _ ?_, unique.1 [] vacant _ _ _ _ rfl _ ?_⟩
  · exact List.mem_append_right _ (List.mem_singleton_self _)
  · exact List.mem_append_right _ (List.mem_singleton_self _)

/-- A name of thirty bytes: each `CreateCookie` makes another cookie of the same name. -/
theorem long_name_twice : ¬ ∀ (cfg : Config) (roster : ℕ → Option Player) (spent : List ℕ)
    (trace : List (Server × Event)) (s : Server),
    Run (Step cfg) (start roster spent) trace s →
    (∀ x ∈ trace, ∀ n d a, x.2 = .createCookie n d a → cstr n ≠ []) →
    NamesLead cfg trace s ∧ ∀ u ∈ visited trace s, NamesApart u := by
  intro h
  have unique := h oneSlot _ _ _ _ (play_run (twice_playable (List.replicate 30 97))) (by
    intro x hx n d a heq
    have hevent : x.2 = .createCookie (List.replicate 30 97) [] 0 := by
      rcases List.mem_cons.mp hx with rfl | hx
      · rfl
      · rw [List.mem_singleton.mp hx]
    obtain ⟨rfl, _, _⟩ := Event.createCookie.inj (hevent.symm.trans heq)
    decide)
  have apart := unique.2 _ (List.mem_append_right _ (List.mem_singleton_self _))
  have hsame := apart 0 1 (by decide) (by decide) (by decide)
  revert hsame
  decide

end ClientPrefs.CookieTable
