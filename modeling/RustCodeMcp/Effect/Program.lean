import Mathlib.Data.List.Basic
import Mathlib.Tactic.Tauto

/-!
# Fallible programs over a set of calls

A program is a tree of calls: each node asks one question of its surroundings and continues with
the answer, or with the error the call came back with. Nothing here says what the calls mean — that
is the handler's business, and one program has as many meanings as there are handlers: one that
carries out every call, one that makes chosen calls fail, one that changes the world behind the
program's back between two calls.

The tree is well founded, so a program always ends: `run h x s` is what `x` returns and the state it
leaves, when `h` answers its calls from `s`.
-/

namespace Effect

variable {ε Op α β γ σ : Type} {Ret : Op → Type}

/-- A program that makes calls `Op`, each answered by a value of its own type or by an error, and
ends with a value or an error of its own. -/
inductive Prog (ε Op : Type) (Ret : Op → Type) (α : Type) : Type
  /-- End with a value. -/
  | ret (a : α)
  /-- End with an error. -/
  | fail (e : ε)
  /-- Make a call and continue with what it answers. -/
  | call (o : Op) (k : Except ε (Ret o) → Prog ε Op Ret α)

namespace Prog

/-- Sequential composition: an error ends the whole. -/
def bind : Prog ε Op Ret α → (α → Prog ε Op Ret β) → Prog ε Op Ret β
  | ret a, f => f a
  | fail e, _ => fail e
  | call o k, f => call o fun r ↦ (k r).bind f

instance : Monad (Prog ε Op Ret) where
  pure := ret
  bind := bind

/-- Make one call; its error is the program's error. -/
def perform (o : Op) : Prog ε Op Ret (Ret o) :=
  call o fun
    | .ok a => ret a
    | .error e => fail e

/-- Run a program and hand its outcome over as a value: the caller decides about the error. -/
def attempt : Prog ε Op Ret α → Prog ε Op Ret (Except ε α)
  | ret a => ret (.ok a)
  | fail e => ret (.error e)
  | call o k => call o fun r ↦ (k r).attempt

/-- Reword the error a program ends with. -/
def mapError (f : ε → ε) : Prog ε Op Ret α → Prog ε Op Ret α
  | ret a => ret a
  | fail e => fail (f e)
  | call o k => call o fun r ↦ (k r).mapError f

/-- Run a program for each element of a list, in turn. -/
def forEach (f : β → Prog ε Op Ret Unit) : List β → Prog ε Op Ret Unit
  | [] => ret ()
  | b :: rest => f b >>= fun _ ↦ forEach f rest

@[simp] theorem forEach_nil (f : β → Prog ε Op Ret Unit) : forEach f [] = ret () := rfl

@[simp] theorem forEach_cons (f : β → Prog ε Op Ret Unit) (b : β) (rest : List β) :
    forEach f (b :: rest) = f b >>= fun _ ↦ forEach f rest := rfl

@[simp] theorem ret_bind (a : α) (f : α → Prog ε Op Ret β) : ret a >>= f = f a := rfl

@[simp] theorem fail_bind (e : ε) (f : α → Prog ε Op Ret β) : fail e >>= f = fail e := rfl

@[simp] theorem call_bind (o : Op) (k : Except ε (Ret o) → Prog ε Op Ret α)
    (f : α → Prog ε Op Ret β) : call o k >>= f = call o fun r ↦ k r >>= f := rfl

/-- Composition is associative. -/
theorem bind_assoc (x : Prog ε Op Ret α) (f : α → Prog ε Op Ret β) (g : β → Prog ε Op Ret γ) :
    x >>= f >>= g = x >>= fun a ↦ f a >>= g := by
  induction x with
  | ret a => rfl
  | fail e => rfl
  | call o k ih =>
    simp only [call_bind]
    exact congrArg (call o) (funext ih)

end Prog

/-! ### Handlers and runs -/

/-- What answers the calls: the answer, and the state the call leaves. -/
abbrev Handler (ε : Type) {Op : Type} (Ret : Op → Type) (σ : Type) : Type :=
  (o : Op) → σ → Except ε (Ret o) × σ

/-- The outcome of a program and the state it leaves. -/
def run (h : Handler ε Ret σ) : Prog ε Op Ret α → σ → Except ε α × σ
  | .ret a, s => (.ok a, s)
  | .fail e, s => (.error e, s)
  | .call o k, s => run h (k (h o s).1) (h o s).2

section Run

variable (h : Handler ε Ret σ)

/-- A program that has ended returns its value. -/
@[simp] theorem run_ret (a : α) (s : σ) : run h (.ret a : Prog ε Op Ret α) s = (.ok a, s) := rfl

@[simp] theorem run_pure (a : α) (s : σ) :
    run h (pure a : Prog ε Op Ret α) s = (.ok a, s) := rfl

/-- A program that has failed returns its error. -/
@[simp] theorem run_fail (e : ε) (s : σ) :
    run h (.fail e : Prog ε Op Ret α) s = (.error e, s) := rfl

/-- **A single call is run by its handler.** -/
@[simp] theorem run_perform (o : Op) (s : σ) : run h (.perform o) s = h o s := by
  rcases ho : h o s with ⟨r, t⟩
  cases r <;> simp [Prog.perform, run, ho]

/-- **Runs compose**, and an error of the first program is the error of the whole. -/
theorem run_bind (x : Prog ε Op Ret α) (f : α → Prog ε Op Ret β) (s : σ) :
    run h (x >>= f) s = match run h x s with
      | (.ok a, t) => run h (f a) t
      | (.error e, t) => (.error e, t) := by
  induction x generalizing s with
  | ret a => rfl
  | fail e => rfl
  | call o k ih => exact ih _ _

variable {h} {x : Prog ε Op Ret α} {f : α → Prog ε Op Ret β}

/-- After a program that ends well the rest is run. -/
theorem run_bind_ok {s t : σ} {a : α}
    (hx : run h x s = (.ok a, t)) : run h (x >>= f) s = run h (f a) t := by
  rw [run_bind, hx]

/-- After one that fails it is not. -/
theorem run_bind_error {s t : σ} {e : ε}
    (hx : run h x s = (.error e, t)) : run h (x >>= f) s = (.error e, t) := by
  rw [run_bind, hx]

/-- A composition that ends well got through its first program. -/
theorem run_bind_eq_ok {s u : σ} {b : β} (hb : run h (x >>= f) s = (.ok b, u)) :
    ∃ a t, run h x s = (.ok a, t) ∧ run h (f a) t = (.ok b, u) := by
  rw [run_bind] at hb
  rcases hx : run h x s with ⟨a | a, t⟩
  · rw [hx] at hb
    simp at hb
  · rw [hx] at hb
    exact ⟨a, t, rfl, hb⟩

/-- A run can be seen to end well without looking at its value. -/
theorem exists_run_eq_ok {s : σ} (hok : (run h x s).1.isOk = true) :
    ∃ a, run h x s = (.ok a, (run h x s).2) := by
  rcases hx : run h x s with ⟨e | a, t⟩
  · simp [hx, Except.isOk, Except.toBool] at hok
  · exact ⟨a, rfl⟩

variable (h)

/-- An attempted program never fails: its outcome is its value. -/
@[simp] theorem run_attempt (x : Prog ε Op Ret α) (s : σ) :
    run h x.attempt s = (.ok (run h x s).1, (run h x s).2) := by
  induction x generalizing s with
  | ret a => rfl
  | fail e => rfl
  | call o k ih => exact ih _ _

@[simp] theorem run_mapError (f : ε → ε) (x : Prog ε Op Ret α) (s : σ) :
    run h (x.mapError f) s = ((run h x s).1.mapError f, (run h x s).2) := by
  induction x generalizing s with
  | ret a => rfl
  | fail e => rfl
  | call o k ih => exact ih _ _

variable {h}

end Run

end Effect
