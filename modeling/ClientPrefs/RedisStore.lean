import ClientPrefs.ByteStrings
import Mathlib.Tactic.Lemma

/-!
# The Redis server

Replies: the tree that hiredis delivers, and the copy that the client library makes of it. String
keys, sets, and the commands and the Lua script that the extension sends. Keys do not expire:
`SET key value EX seconds` stores like `SET key value`.
-/
namespace ClientPrefs.RedisReply
open ByteStrings

/-- A `redisReply` by its type; a string node holds its `len` bytes. -/
inductive RawReply
  | string (str : Bytes)
  | arrays (element : List RawReply)
  | integer (n : ℤ)
  | nil
  | status (str : Bytes)
  | error (str : Bytes)

/-- `async_redis::reply`: its type and the field that the accessors of this type return. -/
inductive Reply
  | invalid
  | string (strVal : Bytes)
  | arrays (rows : List Reply)
  | integer (intVal : ℤ)
  | nil
  | status (strVal : Bytes)
  | error (strVal : Bytes)

mutual

/-- The constructor `reply::reply`; `std::string(r->str)` ends at the first zero byte. -/
def reply : RawReply → Reply
  | .string str => .string (cstr str)
  | .arrays element => .arrays (replies element)
  | .integer n => .integer n
  | .nil => .nil
  | .status str => .status (cstr str)
  | .error str => .error (cstr str)

def replies : List RawReply → List Reply
  | [] => []
  | r :: rs => reply r :: replies rs

end

lemma replies_eq_map (rs : List RawReply) : replies rs = rs.map reply := by
  induction rs with
  | nil => rfl
  | cons r rs ih => rw [replies, ih, List.map_cons]

def Reply.ok : Reply → Bool
  | .invalid => false
  | .error _ => false
  | _ => true

end ClientPrefs.RedisReply

namespace ClientPrefs.RedisStore
open ByteStrings RedisReply

/-- The order in which Redis names keys and the members of a set, which it leaves open. -/
structure Listing where
  order : List Bytes → List Bytes
  perm : ∀ l, (order l).Perm l

def Listing.asStored : Listing := ⟨id, fun l => .refl l⟩

structure Store where
  strings : AList fun _ : Bytes => Bytes
  sets : Bytes → List Bytes
  scripts : List Bytes
  listing : Listing

inductive Command
  | get (key : Bytes)
  | set (key value : Bytes)
  | setEx (key value : Bytes) (seconds : ℕ)
  | sadd (key member : Bytes)
  /-- `KEYS` with the pattern `stem*`. -/
  | keys (stem : Bytes)
  /-- `EVALSHA sha 1 key`. -/
  | evalsha (sha key : Bytes)
  deriving DecidableEq, Repr

def cookiesList : Bytes := bytes "cookies.list"
def idKey (name : Bytes) : Bytes := bytes "cookies.id." ++ name
def descKey (name : Bytes) : Bytes := bytes "cookies.desc." ++ name
def accessKey (name : Bytes) : Bytes := bytes "cookies.access." ++ name

/-- The key of a player's value: `steamId.id`, the id as text. -/
def valueKey (steamId id : Bytes) : Bytes := steamId ++ bytes "." ++ id

theorem idKey_injective {m n : Bytes} (h : idKey m = idKey n) : m = n := List.append_cancel_left h

lemma idKey_ne_accessKey (m n : Bytes) : idKey m ≠ accessKey n := by
  intro h
  have hbyte : (some 105 : Option UInt8) = some 97 := congrArg (fun key : Bytes => key[8]?) h
  revert hbyte
  decide

lemma idKey_ne_descKey (m n : Bytes) : idKey m ≠ descKey n := by
  intro h
  have hbyte : (some 105 : Option UInt8) = some 100 := congrArg (fun key : Bytes => key[8]?) h
  revert hbyte
  decide

lemma idKey_inj {m n : Bytes} : idKey m = idKey n ↔ m = n := List.append_right_inj _
lemma descKey_inj {m n : Bytes} : descKey m = descKey n ↔ m = n := List.append_right_inj _
lemma accessKey_inj {m n : Bytes} : accessKey m = accessKey n ↔ m = n := List.append_right_inj _

lemma descKey_ne_accessKey (m n : Bytes) : descKey m ≠ accessKey n := by
  intro h
  have hbyte : (some 100 : Option UInt8) = some 97 := congrArg (fun key : Bytes => key[8]?) h
  revert hbyte
  decide

lemma eq_nil_of_dot {a b m : Bytes} (h : b ++ bytes "." = a ++ bytes "." ++ m)
    (hm : (46 : UInt8) ∉ m) : m = [] := by
  rcases List.eq_nil_or_concat m with hnil | ⟨l, c, rfl⟩
  · exact hnil
  · rw [List.concat_eq_append, ← List.append_assoc] at h
    obtain ⟨_, hc⟩ := List.append_inj' h rfl
    obtain rfl : 46 = c := by simpa [bytes] using hc
    simp at hm

/-- A key leads back to its steam id and its id, since the text of an id has no dot. -/
theorem valueKey_injective {sid sid' : Bytes} {z z' : ℤ}
    (h : valueKey sid (toText z) = valueKey sid' (toText z')) : sid = sid' ∧ z = z' := by
  rcases List.append_eq_append_iff.mp h with ⟨m, hkey, htext⟩ | ⟨m, hkey, htext⟩
  · have hdot : (46 : UInt8) ∉ m := fun hmem =>
      toText_no_dot z (htext ▸ List.mem_append_left _ hmem)
    have hnil : m = [] := eq_nil_of_dot hkey hdot
    rw [hnil] at hkey htext
    exact ⟨(List.append_cancel_right (hkey.trans (List.append_nil _))).symm,
      toText_injective htext⟩
  · have hdot : (46 : UInt8) ∉ m := fun hmem =>
      toText_no_dot z' (htext ▸ List.mem_append_left _ hmem)
    have hnil : m = [] := eq_nil_of_dot hkey hdot
    rw [hnil] at hkey htext
    exact ⟨List.append_cancel_right (hkey.trans (List.append_nil _)),
      (toText_injective htext).symm⟩

lemma valueKey_inj {sid sid' : Bytes} {z z' : ℤ} :
    valueKey sid (toText z) = valueKey sid' (toText z') ↔ sid = sid' ∧ z = z' := by
  refine ⟨valueKey_injective, ?_⟩
  rintro ⟨rfl, rfl⟩
  rfl

lemma valueKey_ne_of_mem {sid rest : Bytes} {z : ℤ} {c : UInt8}
    (h : ¬ bytes "cookies." <+: sid) (hmem : c ∈ rest) (hnot : c ∉ toText z) :
    valueKey sid (toText z) ≠ bytes "cookies." ++ rest := by
  intro heq
  have hsplit : sid ++ (bytes "." ++ toText z) = bytes "cookies." ++ rest := by
    rw [← heq, valueKey, List.append_assoc]
  rcases List.append_eq_append_iff.mp hsplit with ⟨m, hstem, htext⟩ | ⟨m, hsid, _⟩
  · cases m with
    | nil => exact h ⟨[], by simpa using hstem⟩
    | cons d m =>
      have htail : toText z = m ++ rest := (List.cons.inj htext).2
      exact hnot (htail ▸ List.mem_append_right m hmem)
  · exact h ⟨m, hsid.symm⟩

def Store.value (s : Store) (key : Bytes) : Option Bytes := s.strings.lookup key

/-- The reply to `GET`; inside the script a nil stands for Lua's `false`. -/
def Store.getReply (s : Store) (key : Bytes) : RawReply :=
  match s.value key with
  | some v => .string v
  | none => .nil

def Store.write (s : Store) (key value : Bytes) : Store :=
  { s with strings := s.strings.insert key value }

def Store.empty (scripts : List Bytes) (listing : Listing) : Store :=
  ⟨∅, fun _ => [], scripts, listing⟩

def Store.members (s : Store) (key : Bytes) : List Bytes := s.listing.order (s.sets key)

/-- The keys that begin with `stem`, as `KEYS` names them. -/
def Store.matching (s : Store) (stem : Bytes) : List Bytes :=
  s.listing.order (s.strings.keys.filter fun k => stem <+: k)

lemma Store.mem_members {s : Store} {key member : Bytes} :
    member ∈ s.members key ↔ member ∈ s.sets key := (s.listing.perm _).mem_iff

lemma Store.mem_matching {s : Store} {stem key : Bytes} :
    key ∈ s.matching stem ↔ stem <+: key ∧ (s.value key).isSome = true := by
  rw [matching, (s.listing.perm _).mem_iff, List.mem_filter, value, AList.lookup_isSome,
    AList.mem_keys, decide_eq_true_eq, and_comm]

def Store.srem (s : Store) (key member : Bytes) : Store :=
  { s with sets := Function.update s.sets key ((s.sets key).filter (· ≠ member)) }

/-- The loop of the script `GET_CLIENT_COOKIES` over the members of `cookies.list`. -/
def scriptLoop (steamId : Bytes) : List Bytes → Store → Store × List RawReply
  | [], s => (s, [])
  | c :: cs, s =>
    match s.value (idKey c) with
    | none => scriptLoop steamId cs (s.srem cookiesList c)
    | some d =>
      let (s', rows) := scriptLoop steamId cs s
      (s', .arrays [.string c, s.getReply (descKey c), s.getReply (accessKey c),
        s.getReply (valueKey steamId d)] :: rows)

/-- One command, executed atomically. -/
def exec (s : Store) : Command → Store × RawReply
  | .get key => (s, s.getReply key)
  | .set key value => (s.write key value, .status (bytes "OK"))
  | .setEx key value _ => (s.write key value, .status (bytes "OK"))
  | .sadd key member =>
    if member ∈ s.sets key then (s, .integer 0)
    else ({ s with sets := Function.update s.sets key (s.sets key ++ [member]) }, .integer 1)
  | .keys stem => (s, .arrays ((s.matching stem).map .string))
  | .evalsha sha key =>
    if sha ∈ s.scripts then
      let (s', rows) := scriptLoop key (s.members cookiesList) s
      (s', .arrays rows)
    else (s, .error (bytes "NOSCRIPT No matching script. Please use EVAL."))

/-- The reply as the query thread sees it. -/
def serve (s : Store) (c : Command) : Store × Reply :=
  let (s', raw) := exec s c
  (s', reply raw)

@[simp] lemma serve_fst (s : Store) (c : Command) : (serve s c).1 = (exec s c).1 := rfl
@[simp] lemma serve_snd (s : Store) (c : Command) : (serve s c).2 = reply (exec s c).2 := rfl

lemma value_write (s : Store) (key value k : Bytes) :
    (s.write key value).value k = if k = key then some value else s.value k := by
  unfold Store.value Store.write
  by_cases h : k = key
  · rw [if_pos h, h, AList.lookup_insert]
  · rw [if_neg h, AList.lookup_insert_ne h]

@[simp] lemma value_srem (s : Store) (key member k : Bytes) :
    (s.srem key member).value k = s.value k := rfl

/-- The script reads every listed cookie that has an id and drops the others from the list. -/
def scriptRow (s : Store) (steamId c : Bytes) : Option RawReply :=
  (s.value (idKey c)).map fun d => .arrays [.string c, s.getReply (descKey c),
    s.getReply (accessKey c), s.getReply (valueKey steamId d)]

lemma scriptLoop_strings (steamId : Bytes) (cs : List Bytes) (s : Store) :
    (scriptLoop steamId cs s).1.strings = s.strings := by
  induction cs generalizing s with
  | nil => rfl
  | cons c cs ih =>
    unfold scriptLoop
    split
    · rw [ih]
      rfl
    · exact ih s

lemma value_scriptLoop (steamId : Bytes) (cs : List Bytes) (s : Store) (key : Bytes) :
    (scriptLoop steamId cs s).1.value key = s.value key := by
  rw [Store.value, scriptLoop_strings]
  rfl

lemma scriptLoop_rows (steamId : Bytes) (cs : List Bytes) (s : Store) :
    (scriptLoop steamId cs s).2 = cs.filterMap (scriptRow s steamId) := by
  induction cs generalizing s with
  | nil => rfl
  | cons c cs ih =>
    unfold scriptLoop
    split
    · next h =>
      rw [ih, List.filterMap_cons]
      simp only [scriptRow, h, Option.map_none]
      have hsame : scriptRow (s.srem cookiesList c) steamId = scriptRow s steamId := rfl
      rw [hsame]
    · next d h =>
      rw [List.filterMap_cons]
      simp only [scriptRow, h, Option.map_some]
      rw [ih]

/-- A member leaves a set only by `SREM`: it is listed, read and has no id. -/
theorem mem_scriptLoop_sets (steamId : Bytes) (cs : List Bytes) (s : Store) (key m : Bytes) :
    m ∈ (scriptLoop steamId cs s).1.sets key ↔
      m ∈ s.sets key ∧ ¬ (key = cookiesList ∧ m ∈ cs ∧ s.value (idKey m) = none) := by
  induction cs generalizing s with
  | nil => simp [scriptLoop]
  | cons c cs ih =>
    unfold scriptLoop
    split
    · next h =>
      rw [ih]
      by_cases hk : key = cookiesList
      · subst hk
        have hmem : m ∈ (s.srem cookiesList c).sets cookiesList ↔
            m ∈ s.sets cookiesList ∧ m ≠ c := by simp [Store.srem]
        rw [hmem, value_srem]
        by_cases hm : m = c
        · simp [hm, h]
        · simp [hm]
      · have hsame : (s.srem cookiesList c).sets key = s.sets key := by simp [Store.srem, hk]
        simp [hsame, hk]
    · next d h =>
      rw [ih]
      by_cases hm : m = c
      · simp [hm, h]
      · simp [hm]

end ClientPrefs.RedisStore
