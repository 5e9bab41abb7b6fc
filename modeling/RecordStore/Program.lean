/-!
# Programs

A program is a computation that stops at each request, and goes on with the reply.
Nothing is said here about who replies, or what happens between a request and its
reply, so one program serves for every environment and every order of events.

An *interface* lists the requests and gives each the type of its replies.

`Program.expand` replaces each request of a program by a program over another
interface.  `Program.run` runs a program in an environment that replies at once.
-/

namespace RecordStore

/-- Requests and the types of their replies. -/
structure Interface where
  Request : Type
  Reply : Request → Type

/-- A computation that stops at each request, and goes on with the reply. -/
inductive Program (I : Interface) (α : Type) : Type where
  /-- The computation has a result. -/
  | done (a : α)
  /-- The computation waits for the reply to a request. -/
  | ask (r : I.Request) (next : I.Reply r → Program I α)

namespace Program

variable {I J : Interface} {α β γ : Type}

/-- Goes on with the result of a program. -/
def bind : Program I α → (α → Program I β) → Program I β
  | done a, f => f a
  | ask r next, f => ask r fun reply => (next reply).bind f

instance : Monad (Program I) where
  pure := done
  bind := bind

def request (r : I.Request) : Program I (I.Reply r) := ask r done

/-- Replaces each request by a program. -/
def expand (f : (r : I.Request) → Program J (I.Reply r)) : Program I α → Program J α
  | done a => done a
  | ask r next => (f r).bind fun reply => (next reply).expand f

/-- Runs a program in an environment that replies at once. -/
def run {σ : Type} (reply : (r : I.Request) → σ → I.Reply r × σ) : Program I α → σ → α × σ
  | done a, s => (a, s)
  | ask r next, s => (next (reply r s).1).run reply (reply r s).2

/-! ## Laws -/

theorem bind_done (p : Program I α) : p.bind done = p := by
  induction p with
  | done a => rfl
  | ask r next ih => simp [bind, ih]

theorem bind_assoc (p : Program I α) (f : α → Program I β) (g : β → Program I γ) :
    (p.bind f).bind g = p.bind fun a => (f a).bind g := by
  induction p with
  | done a => rfl
  | ask r next ih => simp [bind, ih]

instance : LawfulMonad (Program I) :=
  LawfulMonad.mk' (Program I) (fun p => bind_done p) (fun _ _ => rfl) bind_assoc

theorem run_bind {σ : Type} (reply : (r : I.Request) → σ → I.Reply r × σ)
    (p : Program I α) (f : α → Program I β) (s : σ) :
    (p.bind f).run reply s = (f (p.run reply s).1).run reply (p.run reply s).2 := by
  induction p generalizing s with
  | done a => rfl
  | ask r next ih => simp [bind, run, ih]

end Program

end RecordStore
