import ClientPrefs.RedisStore

/-!
# Reply objects

`RedisReply` has of a reply only what its type uses. Here are all the fields of a `redisReply` and
of the object that the client library makes of it, with the accessors of the object.
-/
namespace ClientPrefs.ReplyTree
open ByteStrings

/-- `REDIS_REPLY_STRING`, ..., `REDIS_REPLY_ERROR`. -/
inductive RawType
  | string
  | array
  | integer
  | nil
  | status
  | error
  deriving DecidableEq, Repr

/-- A `redisReply`. Where `str` is not null it points to `len` bytes and a zero byte, and
`element` to `elements` replies. -/
inductive Raw
  | mk (type : RawType) (integer : ℤ) (str : Option Bytes) (element : List Raw)

inductive ReplyType
  | invalid
  | string
  | arrays
  | integer
  | nil
  | status
  | error
  deriving DecidableEq, Repr

/-- An `async_redis::reply`. -/
inductive Object
  | mk (replyType : ReplyType) (rows : List Object) (strVal : Bytes) (intVal : ℤ)

namespace Raw

def type : Raw → RawType
  | mk type _ _ _ => type

def integer : Raw → ℤ
  | mk _ integer _ _ => integer

def str : Raw → Option Bytes
  | mk _ _ str _ => str

def element : Raw → List Raw
  | mk _ _ _ element => element

/-- The `len` bytes of the text. -/
def text (r : Raw) : Bytes := r.str.getD []

end Raw

def RawType.cast : RawType → ReplyType
  | string => .string
  | array => .arrays
  | integer => .integer
  | nil => .nil
  | status => .status
  | error => .error

/-- `str_val` after the constructor: `std::string(r->str)` where there is a text. -/
def strVal (str : Option Bytes) : Bytes :=
  match str with
  | none => []
  | some str => if str.length = 0 then [] else cstr str

mutual

/-- The constructor `reply::reply` for a pointer that is not null. -/
def reply : Raw → Object
  | .mk type integer str element =>
    .mk type.cast (if type.cast = .arrays then replies element else []) (strVal str) integer

def replies : List Raw → List Object
  | [] => []
  | r :: rs => reply r :: replies rs

end

/-- The constructor; for a null pointer `int_val` keeps what is there. -/
def construct (garbage : ℤ) : Option Raw → Object
  | none => .mk .invalid [] [] garbage
  | some r => reply r

namespace Object

def type : Object → ReplyType
  | mk replyType _ _ _ => replyType

/-- What `GetArray`, `GetInt` and `GetString` throw. -/
def mismatch : String := "Redis reply type does not match"

def getArray : Object → Except String (List Object)
  | mk replyType rows _ _ => if replyType ≠ .arrays then .error mismatch else .ok rows

def getInt : Object → Except String ℤ
  | mk replyType _ _ intVal => if replyType ≠ .integer then .error mismatch else .ok intVal

def getString : Object → Except String Bytes
  | mk replyType _ strVal _ => if replyType ≠ .string then .error mismatch else .ok strVal

def status : Object → Option Bytes
  | mk replyType _ strVal _ =>
    if replyType = .invalid then some (bytes "reply is invalid")
    else if replyType = .status ∨ replyType = .error then some (cstr strVal)
    else none

end Object

def Raw.children (r : Raw) : List Raw := if r.type = .array then r.element else []

/-- The node at an address. -/
def Raw.at : Raw → List ℕ → Option Raw
  | r, [] => some r
  | r, i :: path => r.children[i]?.bind fun c => c.at path

/-- What `GetArray()[i]`, again and again, leads to. -/
def Object.at : Object → List ℕ → Option Object
  | o, [] => some o
  | o, i :: path =>
    match o.getArray with
    | .error _ => none
    | .ok rows => rows[i]?.bind fun c => c.at path

/-- What the accessors return for one node. -/
structure Probe where
  type : ReplyType
  length : Except String ℕ
  getInt : Except String ℤ
  getString : Except String Bytes
  status : Option Bytes

def Object.probe (o : Object) : Probe where
  type := o.type
  length := o.getArray.map List.length
  getInt := o.getInt
  getString := o.getString
  status := o.status

/-- No calls of the accessors tell the objects apart. -/
def Indistinct (o o' : Object) : Prop :=
  ∀ path, (o.at path).map Object.probe = (o'.at path).map Object.probe

/-- What one node says: its type and the fields that this type uses. -/
structure Content where
  type : RawType
  integer : Option ℤ
  text : Option Bytes
  elements : Option ℕ
  deriving DecidableEq

def RawType.hasText : RawType → Bool
  | string => true
  | status => true
  | error => true
  | _ => false

def Raw.content (r : Raw) : Content where
  type := r.type
  integer := if r.type = .integer then some r.integer else none
  text := if r.type.hasText then some r.text else none
  elements := if r.type = .array then some r.element.length else none

/-- The trees are the same up to fields that their types do not use. -/
def SameContent (r r' : Raw) : Prop :=
  ∀ path, (r.at path).map Raw.content = (r'.at path).map Raw.content

/-- The object shows what the node says. -/
structure Represents (r : Raw) (o : Object) : Prop where
  type : o.type = r.type.cast
  array : r.type = .array → ∃ rows, o.getArray = .ok rows ∧ rows.length = r.element.length
  integer : r.type = .integer → o.getInt = .ok r.integer
  string : r.type = .string → o.getString = .ok r.text

/-- The object has the nodes of the tree, and each shows what the node says. -/
def Faithful (r : Raw) (o : Object) : Prop :=
  ∀ path, Option.Rel Represents (r.at path) (o.at path)

/-- No text in the tree has a zero byte. -/
def ZeroFree (r : Raw) : Prop :=
  ∀ path n, r.at path = some n → n.type.hasText = true → (0 : UInt8) ∉ n.text

variable {r : Raw}

lemma replies_eq_map (rs : List Raw) : replies rs = rs.map reply := by
  induction rs with
  | nil => rfl
  | cons r rs ih => rw [replies, ih, List.map_cons]

lemma strVal_eq (str : Option Bytes) : strVal str = cstr (str.getD []) := by
  cases str with
  | none => rfl
  | some str =>
    simp only [strVal, Option.getD_some]
    split_ifs with h
    · rw [List.length_eq_zero_iff.mp h]
      rfl
    · rfl

@[simp] lemma type_reply (r : Raw) : (reply r).type = r.type.cast := by
  obtain ⟨type, integer, str, element⟩ := r
  rfl

lemma getArray_reply (r : Raw) : (reply r).getArray =
    if r.type = .array then .ok (r.children.map reply) else .error Object.mismatch := by
  obtain ⟨type, integer, str, element⟩ := r
  cases type <;> simp [reply, Object.getArray, RawType.cast, Raw.type, Raw.children, Raw.element,
    replies_eq_map]

lemma getInt_reply (r : Raw) : (reply r).getInt =
    if r.type = .integer then .ok r.integer else .error Object.mismatch := by
  obtain ⟨type, integer, str, element⟩ := r
  cases type <;> rfl

lemma getString_reply (r : Raw) : (reply r).getString =
    if r.type = .string then .ok (cstr r.text) else .error Object.mismatch := by
  obtain ⟨type, integer, str, element⟩ := r
  cases type <;> simp [reply, Object.getString, RawType.cast, Raw.type, Raw.text, Raw.str,
    strVal_eq]

lemma status_reply (r : Raw) : (reply r).status =
    if r.type = .status ∨ r.type = .error then some (cstr r.text) else none := by
  obtain ⟨type, integer, str, element⟩ := r
  cases type <;> simp [reply, Object.status, RawType.cast, Raw.type, Raw.text, Raw.str, strVal_eq]

lemma at_reply (r : Raw) (path : List ℕ) : (reply r).at path = (r.at path).map reply := by
  induction path generalizing r with
  | nil => rfl
  | cons i path ih =>
    simp only [Object.at, Raw.at, getArray_reply]
    by_cases array : r.type = .array
    · simp only [if_pos array, List.getElem?_map]
      cases r.children[i]? with
      | none => rfl
      | some c => exact ih c
    · simp [if_neg array, Raw.children]

theorem cstr_eq_self_iff {b : Bytes} : cstr b = b ↔ (0 : UInt8) ∉ b := by
  constructor
  · intro h hmem
    exact zero_free_cstr b 0 (h.symm ▸ hmem) rfl
  · intro h
    exact cstr_append_zero_free fun x hx hzero => h (hzero ▸ hx)

/-- A node is copied faithfully unless it is a string with a zero byte. -/
theorem represents_reply_iff :
    Represents r (reply r) ↔ (r.type = .string → (0 : UInt8) ∉ r.text) := by
  constructor
  · intro h string
    have hget := h.string string
    rw [getString_reply, if_pos string] at hget
    exact cstr_eq_self_iff.mp (Except.ok.inj hget)
  · intro h
    refine ⟨type_reply r, fun array => ?_, fun integer => ?_, fun string => ?_⟩
    · refine ⟨r.children.map reply, ?_, ?_⟩
      · rw [getArray_reply, if_pos array]
      · rw [List.length_map, Raw.children, if_pos array]
    · rw [getInt_reply, if_pos integer]
    · rw [getString_reply, if_pos string, cstr_eq_self_iff.mpr (h string)]

theorem faithful_iff : Faithful r (reply r) ↔
    ∀ path n, r.at path = some n → n.type = .string → (0 : UInt8) ∉ n.text := by
  constructor
  · intro h path n hn
    have hrel := h path
    rw [at_reply, hn] at hrel
    cases hrel with
    | some represents => exact represents_reply_iff.mp represents
  · intro h path
    rw [at_reply]
    cases hn : r.at path with
    | none => exact .none
    | some n => exact .some (represents_reply_iff.mpr (h path n hn))

theorem content_eq_iff {n n' : Raw} : n.content = n'.content ↔ n.type = n'.type ∧
    (n.type = .array → n.element.length = n'.element.length) ∧
    (n.type = .integer → n.integer = n'.integer) ∧
    (n.type.hasText = true → n.text = n'.text) := by
  by_cases type : n.type = n'.type
  · cases h : n'.type <;> simp [Raw.content, type, h, RawType.hasText]
  · simp [Raw.content, type]

theorem cast_injective {t t' : RawType} (h : t.cast = t'.cast) : t = t' := by
  cases t <;> cases t' <;> simp [RawType.cast] at h ⊢

theorem probe_eq_iff {n n' : Raw} :
    (reply n).probe = (reply n').probe ↔ n.type = n'.type ∧
      (n.type = .array → n.element.length = n'.element.length) ∧
      (n.type = .integer → n.integer = n'.integer) ∧
      (n.type.hasText = true → cstr n.text = cstr n'.text) := by
  by_cases type : n.type = n'.type
  · cases h : n'.type <;> simp [Object.probe, getArray_reply, getInt_reply, getString_reply,
      status_reply, Raw.children, type, h, RawType.hasText, Except.map]
  · have differs : (reply n).probe ≠ (reply n').probe := by
      intro same
      refine type (cast_injective ?_)
      rw [← type_reply, ← type_reply]
      exact congrArg Probe.type same
    simp [differs, type]

/-- Trees without zero bytes are told apart by their copies. -/
theorem same_of_indistinct {r r' : Raw} (h : ZeroFree r) (h' : ZeroFree r')
    (same : Indistinct (reply r) (reply r')) : SameContent r r' := by
  intro path
  have probes := same path
  rw [at_reply, at_reply] at probes
  cases hn : r.at path with
  | none =>
    cases hn' : r'.at path with
    | none => rfl
    | some n' => simp [hn, hn'] at probes
  | some n =>
    cases hn' : r'.at path with
    | none => simp [hn, hn'] at probes
    | some n' =>
      simp only [hn, hn', Option.map_some, Option.some.injEq] at probes
      obtain ⟨type, array, integer, text⟩ := probe_eq_iff.mp probes
      have whole : n.type.hasText = true → n.text = n'.text := by
        intro has
        have hn_text := cstr_eq_self_iff.mpr (h path n hn has)
        have hn'_text := cstr_eq_self_iff.mpr (h' path n' hn' (type ▸ has))
        rw [← hn_text, ← hn'_text]
        exact text has
      exact congrArg some (content_eq_iff.mpr ⟨type, array, integer, whole⟩)

mutual

def cut : Raw → Raw
  | .mk type integer str element => .mk type integer (str.map cstr) (cutAll element)

def cutAll : List Raw → List Raw
  | [] => []
  | r :: rs => cut r :: cutAll rs

end

lemma cutAll_eq_map (rs : List Raw) : cutAll rs = rs.map cut := by
  induction rs with
  | nil => rfl
  | cons r rs ih => rw [cutAll, ih, List.map_cons]

@[simp] lemma type_cut (r : Raw) : (cut r).type = r.type := by
  obtain ⟨type, integer, str, element⟩ := r
  rfl

@[simp] lemma integer_cut (r : Raw) : (cut r).integer = r.integer := by
  obtain ⟨type, integer, str, element⟩ := r
  rfl

@[simp] lemma text_cut (r : Raw) : (cut r).text = cstr r.text := by
  obtain ⟨type, integer, str, element⟩ := r
  cases str <;> rfl

@[simp] lemma element_cut (r : Raw) : (cut r).element = r.element.map cut := by
  obtain ⟨type, integer, str, element⟩ := r
  exact cutAll_eq_map element

lemma at_cut (r : Raw) (path : List ℕ) : (cut r).at path = (r.at path).map cut := by
  induction path generalizing r with
  | nil => rfl
  | cons i path ih =>
    have children : (cut r).children = r.children.map cut := by
      by_cases array : r.type = .array <;> simp [Raw.children, array]
    simp only [Raw.at, children, List.getElem?_map]
    cases r.children[i]? with
    | none => rfl
    | some c => exact ih c

lemma zeroFree_cut (r : Raw) : ZeroFree (cut r) := by
  intro path n hn _
  rw [at_cut] at hn
  obtain ⟨m, _, rfl⟩ := Option.map_eq_some_iff.mp hn
  rw [text_cut]
  exact cstr_eq_self_iff.mp (cstr_cstr m.text)

lemma indistinct_cut (r : Raw) : Indistinct (reply (cut r)) (reply r) := by
  intro path
  rw [at_reply, at_reply, at_cut]
  cases r.at path with
  | none => rfl
  | some n =>
    simp only [Option.map_some, Option.some.injEq]
    exact probe_eq_iff.mpr ⟨type_cut n, fun _ => by simp, fun _ => integer_cut n,
      fun _ => by simp⟩

/-- The copy of a tree is faithful, and tells it apart from every other tree without zero bytes,
exactly when the tree has no zero bytes itself. -/
theorem reply_faithful_iff (r : Raw) :
    (Faithful r (reply r) ∧
      ∀ r', ZeroFree r' → Indistinct (reply r') (reply r) → SameContent r' r) ↔ ZeroFree r := by
  constructor
  · rintro ⟨_, apart⟩ path n hn has
    have same := apart (cut r) (zeroFree_cut r) (indistinct_cut r) path
    rw [at_cut, hn] at same
    obtain ⟨_, _, _, text⟩ := content_eq_iff.mp (Option.some.inj same)
    refine cstr_eq_self_iff.mp ?_
    rw [← text_cut]
    exact text (by rwa [type_cut])
  · intro h
    refine ⟨faithful_iff.mpr fun path n hn string => h path n hn (by rw [string]; rfl), ?_⟩
    intro r' h' same
    exact same_of_indistinct h' h same

/-- A string of three bytes, the second of which is zero, and the string that is left of it. -/
def binary : Raw := .mk .string 0 (some [97, 0, 98]) []
def leftover : Raw := .mk .string 0 (some [97]) []

/-- `GetString` returns one byte of the three, and a string of this one byte has the same copy. -/
theorem bytes_lost : ¬ Faithful binary (reply binary) ∧
    Indistinct (reply leftover) (reply binary) ∧ ¬ SameContent leftover binary := by
  refine ⟨fun h => ?_, indistinct_cut binary, fun h => ?_⟩
  · have free := faithful_iff.mp h [] binary rfl rfl
    revert free
    decide
  · have same := h []
    revert same
    decide

mutual

/-- A tree without the fields that its types do not use. -/
def used : Raw → RedisReply.RawReply
  | .mk .string _ str _ => .string (str.getD [])
  | .mk .array _ _ element => .arrays (usedAll element)
  | .mk .integer n _ _ => .integer n
  | .mk .nil _ _ _ => .nil
  | .mk .status _ str _ => .status (str.getD [])
  | .mk .error _ str _ => .error (str.getD [])

def usedAll : List Raw → List RedisReply.RawReply
  | [] => []
  | r :: rs => used r :: usedAll rs

end

mutual

/-- An object without the fields that its accessors do not return. -/
def seen : Object → RedisReply.Reply
  | .mk .invalid _ _ _ => .invalid
  | .mk .string _ strVal _ => .string strVal
  | .mk .arrays rows _ _ => .arrays (seenAll rows)
  | .mk .integer _ _ n => .integer n
  | .mk .nil _ _ _ => .nil
  | .mk .status _ strVal _ => .status strVal
  | .mk .error _ strVal _ => .error strVal

def seenAll : List Object → List RedisReply.Reply
  | [] => []
  | o :: os => seen o :: seenAll os

end

mutual

/-- `RedisReply.reply` is the constructor as the accessors show it. -/
theorem seen_reply : ∀ r : Raw, seen (reply r) = RedisReply.reply (used r)
  | .mk .string _ str _ => by simp [reply, RawType.cast, seen, used, RedisReply.reply, strVal_eq]
  | .mk .array _ _ element => by
    simp [reply, RawType.cast, seen, used, RedisReply.reply, seen_replies element]
  | .mk .integer _ _ _ => by simp [reply, RawType.cast, seen, used, RedisReply.reply]
  | .mk .nil _ _ _ => by simp [reply, RawType.cast, seen, used, RedisReply.reply]
  | .mk .status _ str _ => by simp [reply, RawType.cast, seen, used, RedisReply.reply, strVal_eq]
  | .mk .error _ str _ => by simp [reply, RawType.cast, seen, used, RedisReply.reply, strVal_eq]

lemma seen_replies : ∀ rs : List Raw,
    seenAll (replies rs) = RedisReply.replies (usedAll rs)
  | [] => rfl
  | r :: rs => by
    simp [replies, seenAll, usedAll, RedisReply.replies, seen_reply r, seen_replies rs]

end

theorem seen_construct (garbage : ℤ) (raw : Option Raw) : seen (construct garbage raw) =
    (raw.map fun r => RedisReply.reply (used r)).getD .invalid := by
  cases raw with
  | none => simp [construct, seen]
  | some r => exact seen_reply r

end ClientPrefs.ReplyTree
