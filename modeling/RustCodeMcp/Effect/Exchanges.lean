import RustCodeMcp.Effect.Program

/-!
# What a program has asked and been told

A program that is waiting for an answer is the rest of one that has asked and been told: `Exchanges
x l y` says that `y` is left of `x` after the exchanges of `l`. Nothing is said about where the
answers come from, so this is the reading of a program whose surroundings are hostile, or whose
calls are answered between those of other programs.

**This is the third reading of a program.** A handler answers its calls one by one and gives a run;
outcomes let each be answered in several ways and give executions; here the answers are simply
given, call after call, and there is no state at all. It suits a protocol in which the other side is
the adversary: what can be said of a program then is what it asks, given what it has been told.
-/

namespace Effect

variable {ε Op α β : Type} {Ret : Op → Type}

/-- What is left of a program after it has made calls and been answered. -/
inductive Exchanges : Prog ε Op Ret α → List ((o : Op) × Ret o) → Prog ε Op Ret α → Prop
  | nil (x : Prog ε Op Ret α) : Exchanges x [] x
  | cons {o : Op} {k : Except ε (Ret o) → Prog ε Op Ret α} {a : Ret o}
      {l : List ((o : Op) × Ret o)} {y : Prog ε Op Ret α} (h : Exchanges (k (.ok a)) l y) :
      Exchanges (.call o k) (⟨o, a⟩ :: l) y

namespace Exchanges

variable {x y : Prog ε Op Ret α} {l : List ((o : Op) × Ret o)}

/-- One more exchange. -/
theorem snoc {o : Op} {k : Except ε (Ret o) → Prog ε Op Ret α}
    (h : Exchanges x l (.call o k)) (a : Ret o) : Exchanges x (l ++ [⟨o, a⟩]) (k (.ok a)) := by
  generalize hy : Prog.call o k = y at h
  induction h with
  | nil x =>
    subst hy
    exact cons (nil _)
  | cons _ ih => exact cons (ih hy)

/-- A program that has ended asks nothing. -/
@[simp] theorem ret_iff {a : α} :
    Exchanges (.ret a : Prog ε Op Ret α) l y ↔ l = [] ∧ y = .ret a := by
  constructor
  · rintro ⟨⟩
    exact ⟨rfl, rfl⟩
  · rintro ⟨rfl, rfl⟩
    exact nil _

@[simp] theorem fail_iff {e : ε} :
    Exchanges (.fail e : Prog ε Op Ret α) l y ↔ l = [] ∧ y = .fail e := by
  constructor
  · rintro ⟨⟩
    exact ⟨rfl, rfl⟩
  · rintro ⟨rfl, rfl⟩
    exact nil _

theorem perform {o : Op} {y : Prog ε Op Ret (Ret o)}
    (h : Exchanges (.perform o : Prog ε Op Ret (Ret o)) l y) :
    (l = [] ∧ y = .perform o) ∨ ∃ a, l = [⟨o, a⟩] ∧ y = .ret a := by
  rcases h with - | h
  · exact .inl ⟨rfl, rfl⟩
  · obtain ⟨rfl, rfl⟩ := ret_iff.1 h
    exact .inr ⟨_, rfl, rfl⟩

/-- **A composition** is still in its first program, or has got through it. -/
theorem bind {z : Prog ε Op Ret β} {f : α → Prog ε Op Ret β} (h : Exchanges (x >>= f) l z) :
    (∃ x', Exchanges x l x' ∧ z = x' >>= f ∧ ∀ a, x' ≠ .ret a) ∨
      ∃ l₁ l₂ a, l = l₁ ++ l₂ ∧ Exchanges x l₁ (.ret a) ∧ Exchanges (f a) l₂ z := by
  induction x generalizing l with
  | ret a => exact .inr ⟨[], l, a, rfl, nil _, h⟩
  | fail e =>
    obtain ⟨rfl, rfl⟩ := fail_iff.1 h
    exact .inl ⟨.fail e, nil _, rfl, nofun⟩
  | call o k ih =>
    rcases h with - | h
    · exact .inl ⟨.call o k, nil _, rfl, nofun⟩
    · rcases ih _ h with ⟨x', hx, hz, hne⟩ | ⟨l₁, l₂, a, rfl, hx, hf⟩
      · exact .inl ⟨x', cons hx, hz, hne⟩
      · exact .inr ⟨_, l₂, a, rfl, cons hx, hf⟩

/-- To attempt a program is to have its exchanges. -/
theorem attempt {z : Prog ε Op Ret (Except ε α)} (h : Exchanges x.attempt l z) :
    ∃ x', Exchanges x l x' ∧ z = x'.attempt := by
  induction x generalizing l with
  | ret a =>
    obtain ⟨rfl, rfl⟩ := ret_iff.1 h
    exact ⟨.ret a, nil _, rfl⟩
  | fail e =>
    obtain ⟨rfl, rfl⟩ := ret_iff.1 h
    exact ⟨.fail e, nil _, rfl⟩
  | call o k ih =>
    rcases h with - | h
    · exact ⟨.call o k, nil _, rfl⟩
    · obtain ⟨x', hx, hz⟩ := ih _ h
      exact ⟨x', cons hx, hz⟩

end Exchanges

end Effect
