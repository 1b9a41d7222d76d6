import ClientPrefs.Glob
import ClientPrefs.RedisStore

/-!
# The keys in Redis

The values of the players, the list of the cookies and the three keys of a cookie share one
flat namespace.
-/
namespace ClientPrefs.KeySpace
open ByteStrings Glob RedisReply RedisStore

/-- An id of a player, which does not begin like the keys of the registry. -/
abbrev PlayerId := { id : Bytes // ¬ bytes "cookies." <+: id }

inductive Key
  | data (player : PlayerId) (cookieId : ℤ)
  | list
  | id (name : Bytes)
  | desc (name : Bytes)
  | access (name : Bytes)
  deriving DecidableEq

def Key.text : Key → Bytes
  | .data player cookieId => valueKey player.1 (toText cookieId)
  | .list => cookiesList
  | .id name => idKey name
  | .desc name => descKey name
  | .access name => accessKey name

/-- A byte of a pattern; `KEYS` is only sent one without brackets and backslashes. -/
def token (c : UInt8) : Token UInt8 := if c = 42 then .star else if c = 63 then .any else .symbol c

/-- The text matches the pattern as `KEYS` understands it. -/
def Matches (pattern text : Bytes) : Prop := matchesText (pattern.map token) text = true

def idPattern : Bytes := bytes "cookies.id.*"

variable {text : Bytes}

/-- What follows `cookies.` in a key of the registry. -/
def Key.rest : Key → Option Bytes
  | .data _ _ => none
  | .list => some (bytes "list")
  | .id name => some (bytes "id." ++ name)
  | .desc name => some (bytes "desc." ++ name)
  | .access name => some (bytes "access." ++ name)

lemma text_of_rest {k : Key} {rest : Bytes} (h : k.rest = some rest) :
    k.text = bytes "cookies." ++ rest := by
  cases k with
  | data player cookieId => cases h
  | list =>
    obtain rfl := Option.some.inj h
    rfl
  | id name =>
    obtain rfl := Option.some.inj h
    rfl
  | desc name =>
    obtain rfl := Option.some.inj h
    rfl
  | access name =>
    obtain rfl := Option.some.inj h
    rfl

theorem rest_injective {k l : Key} {rest : Bytes} (hk : k.rest = some rest)
    (hl : l.rest = some rest) : k = l := by
  cases k with
  | data player cookieId => cases hk
  | list =>
    cases l with
    | list => rfl
    | _ => cases hk.trans hl.symm
  | id name =>
    cases l with
    | id other => rw [List.append_cancel_left (Option.some.inj (hk.trans hl.symm))]
    | _ => cases hk.trans hl.symm
  | desc name =>
    cases l with
    | desc other => rw [List.append_cancel_left (Option.some.inj (hk.trans hl.symm))]
    | _ => cases hk.trans hl.symm
  | access name =>
    cases l with
    | access other => rw [List.append_cancel_left (Option.some.inj (hk.trans hl.symm))]
    | _ => cases hk.trans hl.symm

lemma rest_not_number {k : Key} {rest : Bytes} (h : k.rest = some rest) (z : ℤ) :
    ∃ c ∈ rest, c ∉ toText z := by
  have hdot := toText_no_dot z
  cases k with
  | data player cookieId => cases h
  | list =>
    obtain rfl := Option.some.inj h
    refine ⟨108, by decide, fun hmem => ?_⟩
    have hbyte := mem_toText hmem
    revert hbyte
    decide
  | id name =>
    obtain rfl := Option.some.inj h
    exact ⟨46, List.mem_append_left _ (by decide), hdot⟩
  | desc name =>
    obtain rfl := Option.some.inj h
    exact ⟨46, List.mem_append_left _ (by decide), hdot⟩
  | access name =>
    obtain rfl := Option.some.inj h
    exact ⟨46, List.mem_append_left _ (by decide), hdot⟩

lemma data_text_ne {k : Key} {rest : Bytes} (h : k.rest = some rest) (player : PlayerId)
    (cookieId : ℤ) : (Key.data player cookieId).text ≠ k.text := by
  obtain ⟨c, hmem, hnot⟩ := rest_not_number h cookieId
  rw [text_of_rest h]
  exact valueKey_ne_of_mem player.2 hmem hnot

lemma rest_of_text_eq {k l : Key} (h : k.text = l.text) {rest : Bytes}
    (hk : k.rest = some rest) : l.rest = some rest := by
  cases hl : l.rest with
  | none =>
    cases l with
    | data player cookieId => exact (data_text_ne hk player cookieId h.symm).elim
    | _ => cases hl
  | some other =>
    rw [text_of_rest hk, text_of_rest hl] at h
    rw [List.append_cancel_left h]

/-- No two keys are the same text. -/
theorem text_injective : Function.Injective Key.text := by
  intro k l h
  cases hk : k.rest with
  | some rest => exact rest_injective hk (rest_of_text_eq h hk)
  | none =>
    cases hl : l.rest with
    | some rest =>
      rw [rest_of_text_eq h.symm hl] at hk
      cases hk
    | none =>
      cases k with
      | data player cookieId =>
        cases l with
        | data other otherId =>
          obtain ⟨hplayer, hid⟩ := valueKey_injective h
          rw [Subtype.ext hplayer, hid]
        | _ => cases hl
      | _ => cases hk

lemma matches_idPattern : Matches idPattern text ↔ bytes "cookies.id." <+: text := by
  have htokens : idPattern.map token = (bytes "cookies.id.").map .symbol ++ [.star] := by decide
  rw [Matches, htokens]
  exact matches_stem_star

lemma idKey_drop (name : Bytes) : (idKey name).drop 11 = name := rfl

lemma matches_iff_idKey : Matches idPattern text ↔ text = idKey (text.drop 11) := by
  rw [matches_idPattern]
  constructor
  · rintro ⟨name, rfl⟩
    exact congrArg idKey (idKey_drop name).symm
  · intro h
    exact ⟨text.drop 11, h.symm⟩

/-- Only the keys of ids match the pattern. -/
theorem matches_text_iff (k : Key) : Matches idPattern k.text ↔ ∃ name, k = .id name := by
  rw [matches_iff_idKey]
  constructor
  · exact fun h => ⟨_, text_injective h⟩
  · rintro ⟨name, rfl⟩
    exact congrArg idKey (idKey_drop name).symm

/-- The keys do not collide, the pattern picks the keys of ids, and `substr(11)` gives back the
name of a cookie. -/
theorem keys_apart : Function.Injective Key.text ∧
    (∀ k : Key, Matches idPattern k.text ↔ ∃ name, k = .id name) ∧
    (∀ text, Matches idPattern text ↔ text = idKey (text.drop 11)) ∧
    ∀ name, (idKey name).drop 11 = name :=
  ⟨text_injective, matches_text_iff, fun _ => matches_iff_idKey, idKey_drop⟩

end ClientPrefs.KeySpace
