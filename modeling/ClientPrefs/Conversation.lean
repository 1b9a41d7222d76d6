import Mathlib.Data.List.Forall2
import Mathlib.Tactic.Common

/-!
# Conversations of a client with a server

A `Conv` is a program that talks to a server over a pipeline. It may `tell`
commands whose replies nobody reads, or `ask` a batch of commands and go on with
their replies, in order. A reply is `none` when the connection gave no reply.
-/
namespace ClientPrefs.Conversation

inductive Conv (Cmd Rep α : Type) where
  | done (result : α)
  /-- The thread is lost: an exception escapes it or it reads through a null pointer. -/
  | died
  | tell (cmds : List Cmd) (next : Conv Cmd Rep α)
  | ask (cmds : List Cmd) (next : List (Option Rep) → Conv Cmd Rep α)

variable {Cmd Rep α β : Type}

namespace Conv

def bind : Conv Cmd Rep α → (α → Conv Cmd Rep β) → Conv Cmd Rep β
  | done a, f => f a
  | died, _ => died
  | tell cmds next, f => tell cmds (next.bind f)
  | ask cmds next, f => ask cmds fun replies => (next replies).bind f

instance : Monad (Conv Cmd Rep) where
  pure := done
  bind := bind

@[simp] lemma pure_eq (a : α) : (pure a : Conv Cmd Rep α) = done a := rfl
@[simp] lemma done_bind (a : α) (f : α → Conv Cmd Rep β) : (done a >>= f) = f a := rfl
@[simp] lemma died_bind (f : α → Conv Cmd Rep β) : (died >>= f) = died := rfl
@[simp] lemma tell_bind (cmds : List Cmd) (next : Conv Cmd Rep α) (f : α → Conv Cmd Rep β) :
    (tell cmds next >>= f) = tell cmds (next >>= f) := rfl
@[simp] lemma ask_bind (cmds : List Cmd) (next : List (Option Rep) → Conv Cmd Rep α)
    (f : α → Conv Cmd Rep β) :
    (ask cmds next >>= f) = ask cmds fun replies => next replies >>= f := rfl

def command (c : Cmd) : Conv Cmd Rep (Option Rep) := ask [c] fun replies => done (replies.headD none)

def append (cmds : List Cmd) : Conv Cmd Rep Unit := tell cmds (done ())

/-- `Talks c talk a`: with the asked commands answered as listed in `talk`, `c` returns `a`. -/
inductive Talks : Conv Cmd Rep α → List (Cmd × Option Rep) → α → Prop
  | done (a : α) : Talks (done a) [] a
  | tell {cmds : List Cmd} {next : Conv Cmd Rep α} {talk : List (Cmd × Option Rep)} {a : α} :
      Talks next talk a → Talks (tell cmds next) talk a
  | ask {cmds : List Cmd} {next : List (Option Rep) → Conv Cmd Rep α}
      {replies : List (Option Rep)} {talk : List (Cmd × Option Rep)} {a : α} :
      replies.length = cmds.length → Talks (next replies) talk a →
      Talks (ask cmds next) (cmds.zip replies ++ talk) a

/-- `Keeps sto C post c`: as long as every reply is one that `sto` allows, `c` issues only
commands of `C` and returns only results of `post`. -/
def Keeps (sto : Cmd → Option Rep → Prop) (C : Cmd → Prop) (post : α → Prop) :
    Conv Cmd Rep α → Prop
  | done a => post a
  | died => True
  | tell cmds next => (∀ c ∈ cmds, C c) ∧ next.Keeps sto C post
  | ask cmds next => (∀ c ∈ cmds, C c) ∧
      ∀ replies, List.Forall₂ sto cmds replies → (next replies).Keeps sto C post

variable {sto : Cmd → Option Rep → Prop} {C : Cmd → Prop} {post : α → Prop}

lemma Keeps.mono {c : Conv Cmd Rep α} {sto' : Cmd → Option Rep → Prop} {C' : Cmd → Prop}
    {post' : α → Prop} (h : c.Keeps sto C post) (hsto : ∀ x r, sto' x r → sto x r)
    (hC : ∀ x, C x → C' x) (hpost : ∀ a, post a → post' a) : c.Keeps sto' C' post' := by
  induction c with
  | done a => exact hpost a h
  | died => trivial
  | tell cmds next ih => exact ⟨fun x hx => hC x (h.1 x hx), ih h.2⟩
  | ask cmds next ih =>
    refine ⟨fun x hx => hC x (h.1 x hx), fun replies hr => ih replies (h.2 replies ?_)⟩
    exact hr.imp fun x r => hsto x r

lemma Keeps.imp {c : Conv Cmd Rep α} {post' : α → Prop} (h : c.Keeps sto C post)
    (hpost : ∀ a, post a → post' a) : c.Keeps sto C post' :=
  h.mono (fun _ _ hr => hr) (fun _ hC => hC) hpost

/-- The rule for sequencing: what the first part returns is what the rest may rely on. -/
theorem Keeps.bind {c : Conv Cmd Rep α} {f : α → Conv Cmd Rep β} {post : β → Prop}
    {mid : α → Prop} (h : c.Keeps sto C mid) (hf : ∀ a, mid a → (f a).Keeps sto C post) :
    (c >>= f).Keeps sto C post := by
  induction c with
  | done a => exact hf a h
  | died => trivial
  | tell cmds next ih => exact ⟨h.1, ih h.2⟩
  | ask cmds next ih => exact ⟨h.1, fun replies hr => ih replies (h.2 replies hr)⟩

lemma Keeps.command {x : Cmd} (hC : C x) {post : Option Rep → Prop}
    (h : ∀ r, sto x r → post r) : (command x : Conv Cmd Rep _).Keeps sto C post := by
  refine ⟨by simpa using hC, fun replies hr => ?_⟩
  obtain ⟨r, rest, hr₀, hnil, rfl⟩ := List.forall₂_cons_left_iff.mp hr
  exact h r hr₀

lemma Keeps.command_bind {x : Cmd} {f : Option Rep → Conv Cmd Rep β} {post : β → Prop}
    (hC : C x) (h : ∀ r, sto x r → (f r).Keeps sto C post) :
    (Conv.command x >>= f).Keeps sto C post :=
  Keeps.bind (Keeps.command hC fun _ hr => hr) h

lemma Keeps.and {c : Conv Cmd Rep α} {post' : α → Prop} (h : c.Keeps sto C post)
    (h' : c.Keeps sto C post') : c.Keeps sto C fun a => post a ∧ post' a := by
  induction c with
  | done a => exact ⟨h, h'⟩
  | died => trivial
  | tell cmds next ih => exact ⟨h.1, ih h.2 h'.2⟩
  | ask cmds next ih => exact ⟨h.1, fun replies hr => ih replies (h.2 replies hr) (h'.2 replies hr)⟩

lemma Talks.command_bind {x : Cmd} {r : Option Rep} {f : Option Rep → Conv Cmd Rep β}
    {talk : List (Cmd × Option Rep)} {b : β} (h : Talks (f r) talk b) :
    Talks (Conv.command x >>= f) ((x, r) :: talk) b := by
  have hlen : [r].length = [x].length := rfl
  exact Talks.ask hlen h

lemma Talks.of_command_bind {x : Cmd} {f : Option Rep → Conv Cmd Rep β}
    {talk : List (Cmd × Option Rep)} {b : β} (h : Talks (Conv.command x >>= f) talk b) :
    ∃ r rest, talk = (x, r) :: rest ∧ Talks (f r) rest b := by
  have hask : Talks (.ask [x] fun replies => f (replies.headD none)) talk b := h
  cases hask with
  | @ask _ _ replies rest _ hlen hnext =>
    obtain ⟨r, rfl⟩ := List.length_eq_one_iff.mp hlen
    exact ⟨r, rest, rfl, hnext⟩

lemma Talks.of_done {a b : α} {talk : List (Cmd × Option Rep)}
    (h : Talks (.done a) talk b) : talk = [] ∧ a = b := by
  cases h
  exact ⟨rfl, rfl⟩

/-- A returned result satisfies `post` when every reply of the talk was an allowed one. -/
theorem Talks.keeps {c : Conv Cmd Rep α} {talk : List (Cmd × Option Rep)} {a : α}
    (h : Talks c talk a) (hk : c.Keeps sto C post)
    (hsto : ∀ x ∈ talk, sto x.1 x.2) : post a := by
  induction h with
  | done a => exact hk
  | tell _ ih => exact ih hk.2 hsto
  | @ask cmds next replies talk a hlen _ ih =>
    refine ih (hk.2 replies ?_) fun x hx => hsto x (List.mem_append_right _ hx)
    rw [List.forall₂_iff_zip]
    exact ⟨hlen.symm, fun hx => hsto _ (List.mem_append_left _ hx)⟩

lemma Talks.asked {c : Conv Cmd Rep α} {talk : List (Cmd × Option Rep)} {a : α}
    (h : Talks c talk a) (hk : c.Keeps (fun _ _ => True) C post) : ∀ x ∈ talk, C x.1 := by
  induction h with
  | done a => simp
  | tell _ ih => exact ih hk.2
  | @ask cmds next replies talk a hlen _ ih =>
    intro x hx
    rcases List.mem_append.mp hx with hx | hx
    · exact hk.1 _ (List.of_mem_zip hx).1
    · refine ih (hk.2 replies ?_) x hx
      rw [List.forall₂_iff_zip]
      exact ⟨hlen.symm, fun _ => trivial⟩

/-- Whatever a conversation returns, it returns after some talk. -/
theorem Keeps.talks (c : Conv Cmd Rep α) :
    c.Keeps (fun _ _ => True) (fun _ => True) fun a => ∃ talk, Talks c talk a := by
  induction c with
  | done a => exact ⟨[], .done a⟩
  | died => trivial
  | tell cmds next ih =>
    refine ⟨fun _ _ => trivial, ih.imp fun a htalk => ?_⟩
    obtain ⟨talk, h⟩ := htalk
    exact ⟨talk, .tell h⟩
  | ask cmds next ih =>
    refine ⟨fun _ _ => trivial, fun replies hr => ?_⟩
    refine (ih replies).imp fun a htalk => ?_
    obtain ⟨talk, h⟩ := htalk
    exact ⟨cmds.zip replies ++ talk, .ask hr.length_eq.symm h⟩

/-- What a conversation returns when its commands are answered by `r n`, `r (n + 1)` and so on. -/
def feed (r : ℕ → Option Rep) : Conv Cmd Rep α → ℕ → Option α
  | done a, _ => some a
  | died, _ => none
  | tell _ next, n => next.feed r n
  | ask cmds next, n => (next ((List.range' n cmds.length).map r)).feed r (n + cmds.length)

section Feed
variable {r : ℕ → Option Rep} {n : ℕ}

lemma feed_command_bind (x : Cmd) (f : Option Rep → Conv Cmd Rep β) :
    (command x >>= f).feed r n = (f (r n)).feed r (n + 1) := rfl

lemma feed_append_bind (cmds : List Cmd) (f : Unit → Conv Cmd Rep β) :
    (append cmds >>= f).feed r n = (f ()).feed r n := rfl

end Feed

/-- The commands a conversation tells before it first waits for a reply. -/
def burst : Conv Cmd Rep α → List Cmd
  | done _ => []
  | died => []
  | tell cmds next => cmds ++ next.burst
  | ask _ _ => []

/-- No command that the conversation issues, whatever the replies, satisfies `W`. -/
abbrev Quiet (W : Cmd → Prop) (c : Conv Cmd Rep α) : Prop :=
  c.Keeps (fun _ _ => True) (fun x => ¬ W x) fun _ => True

/-- Commands of `W` are told only before the first reply is awaited. -/
def EarlyOnly (W : Cmd → Prop) : Conv Cmd Rep α → Prop
  | tell _ next => next.EarlyOnly W
  | c => c.Quiet W

lemma Quiet.burst {W : Cmd → Prop} {c : Conv Cmd Rep α} (h : c.Quiet W) :
    ∀ x ∈ c.burst, ¬ W x := by
  induction c with
  | tell cmds next ih =>
    intro x hx
    rcases List.mem_append.mp hx with hx | hx
    · exact h.1 x hx
    · exact ih h.2 x hx
  | _ => simp [Conv.burst]

lemma Quiet.earlyOnly {W : Cmd → Prop} {c : Conv Cmd Rep α} (h : c.Quiet W) :
    c.EarlyOnly W := by
  induction c with
  | tell cmds next ih => exact ih h.2
  | _ => exact h

section Tracked
variable {Cmd' L : Type} {next : L → Cmd → L} {C : L → Cmd → Prop} {l : L}

/-- Each command is allowed in the state that the ones before it lead to. -/
def Allowed (next : L → Cmd → L) (C : L → Cmd → Prop) : L → List Cmd → Prop
  | _, [] => True
  | l, x :: xs => C l x ∧ Allowed next C (next l x) xs

/-- `Keeps` for a contract that follows the state which the commands lead to. -/
def KeepsFrom (next : L → Cmd → L) (sto : Cmd → Option Rep → Prop) (C : L → Cmd → Prop)
    (post : L → α → Prop) : Conv Cmd Rep α → L → Prop
  | done a, l => post l a
  | died, _ => True
  | tell cmds rest, l => Allowed next C l cmds ∧ rest.KeepsFrom next sto C post (cmds.foldl next l)
  | ask cmds rest, l => Allowed next C l cmds ∧ ∀ replies, List.Forall₂ sto cmds replies →
      (rest replies).KeepsFrom next sto C post (cmds.foldl next l)

def rename (f : Cmd → Cmd') : Conv Cmd Rep α → Conv Cmd' Rep α
  | done a => done a
  | died => died
  | tell cmds rest => tell (cmds.map f) (rest.rename f)
  | ask cmds rest => ask (cmds.map f) fun replies => (rest replies).rename f

lemma allowed_append {xs ys : List Cmd} : Allowed next C l (xs ++ ys) ↔
    Allowed next C l xs ∧ Allowed next C (xs.foldl next l) ys := by
  induction xs generalizing l with
  | nil => simp [Allowed]
  | cons x xs ih => simp [Allowed, ih, and_assoc]

lemma KeepsFrom.bind {c : Conv Cmd Rep α} {f : α → Conv Cmd Rep β} {post : L → β → Prop}
    {mid : L → α → Prop} (h : c.KeepsFrom next sto C mid l)
    (hf : ∀ l a, mid l a → (f a).KeepsFrom next sto C post l) :
    (c >>= f).KeepsFrom next sto C post l := by
  induction c generalizing l with
  | done a => exact hf l a h
  | died => trivial
  | tell cmds rest ih => exact ⟨h.1, ih h.2⟩
  | ask cmds rest ih => exact ⟨h.1, fun replies hr => ih replies (h.2 replies hr)⟩

lemma KeepsFrom.command_bind {x : Cmd} {f : Option Rep → Conv Cmd Rep β} {post : L → β → Prop}
    (hC : C l x) (h : ∀ r, sto x r → (f r).KeepsFrom next sto C post (next l x)) :
    (Conv.command x >>= f).KeepsFrom next sto C post l := by
  refine ⟨⟨hC, trivial⟩, fun replies hr => ?_⟩
  obtain ⟨r, rest, hr₀, hnil, rfl⟩ := List.forall₂_cons_left_iff.mp hr
  exact h r hr₀

lemma KeepsFrom.append_bind {cmds : List Cmd} {f : Unit → Conv Cmd Rep β} {post : L → β → Prop}
    (hC : Allowed next C l cmds) (h : (f ()).KeepsFrom next sto C post (cmds.foldl next l)) :
    (Conv.append cmds >>= f).KeepsFrom next sto C post l := ⟨hC, h⟩

lemma allowed_map {f : Cmd' → Cmd} (hC : ∀ x, C l (f x)) (stays : ∀ x, next l (f x) = l)
    (xs : List Cmd') : Allowed next C l (xs.map f) ∧ (xs.map f).foldl next l = l := by
  induction xs with
  | nil => exact ⟨trivial, rfl⟩
  | cons x xs ih =>
    rw [List.map_cons, List.foldl_cons, Allowed, stays x]
    exact ⟨⟨hC x, ih.1⟩, ih.2⟩

lemma keepsFrom_rename {f : Cmd' → Cmd} {post : L → α → Prop} (hC : ∀ x, C l (f x))
    (stays : ∀ x, next l (f x) = l) (hpost : ∀ a, post l a) (c : Conv Cmd' Rep α) :
    (c.rename f).KeepsFrom next sto C post l := by
  induction c with
  | done a => exact hpost a
  | died => trivial
  | tell cmds rest ih =>
    obtain ⟨hall, hsame⟩ := allowed_map hC stays cmds
    exact ⟨hall, by rwa [hsame]⟩
  | ask cmds rest ih =>
    obtain ⟨hall, hsame⟩ := allowed_map hC stays cmds
    refine ⟨hall, fun replies _ => ?_⟩
    rw [hsame]
    exact ih replies

end Tracked

end Conv

end ClientPrefs.Conversation
