import RustCodeMcp.Daemon.Socket
import RustCodeMcp.Machine.Pool

/-!
# One daemon serves

Between the connect that nobody answers and the removal of the file that was seen after it, a daemon
may bind the path: one that nobody holds the lock for (`two_daemons`). It takes a client that ended
while the daemon it had spawned was on its way up. In runs without that (`Orphans`) a daemon on its
way up has a client that waits for it with the lock in hand, and a client that found nobody is alone
with its child.

The lock is per path and held by a client from before it looks until its daemon answers, so two
clients never spawn for one path at a time. What the lock does not cover is a daemon whose client is
gone: the file at the path may then be bound between two looks of the next client, which takes it
for a corpse. `Orphans` names the one step that makes such a daemon.

**The invariant is about who is on its way up.** A daemon that is not listening yet has a client
that waits for it with the lock in hand, a file at the path is its daemon's, and who found nobody
under the lock is alone with its child; every step of every client and daemon keeps this, but for
the one that is excluded.
-/

namespace RustCodeMcp.Socket

open Machine

namespace Daemon

/-- Not listening yet: the lock of its client is what keeps others from its path. -/
def rising : Daemon → Bool
  | starting | bound => true
  | _ => false

/-- The file at the path is its own. -/
def owns : Daemon → Bool
  | bound | serving | closing => true
  | _ => false

/-- On its way up, or with its file at the path. -/
def active : Daemon → Bool
  | starting | bound | serving | closing => true
  | _ => false

theorem active_of_rising {a : Daemon} (h : a.rising = true) : a.active = true := by
  cases a <;> first | rfl | cases h

theorem active_of_owns {a : Daemon} (h : a.owns = true) : a.active = true := by
  cases a <;> first | rfl | cases h

end Daemon

namespace Client

/-- The client holds the lock. -/
def holdsLock : Client → Bool
  | locked | unanswered | clearing | spawning | polling _ => true
  | _ => false

/-- A client that found nobody under the lock: the daemon it has spawned since, if any. -/
def child : Client → Option (Option ℕ)
  | unanswered | clearing | spawning => some none
  | polling d => some (some d)
  | _ => none

theorem holdsLock_of_child {a : Client} {x : Option ℕ} (h : a.child = some x) :
    a.holdsLock = true := by
  cases a <;> first | rfl | cases h

end Client

namespace State

/-- What the lock, the file at the path and the daemons on their way up say of one another. -/
structure Inv (s : State) : Prop where
  lock : ∀ (c : ℕ) (a : Client), s.clients[c]? = some a → a.holdsLock = true → s.lock = some c
  /-- Somebody waits for each daemon on its way up. -/
  rising : ∀ (d : ℕ) (b : Daemon), s.daemons[d]? = some b → b.rising = true →
    ∃ c : ℕ, s.clients[c]? = some (.polling d)
  owns : ∀ (d : ℕ) (b : Daemon), s.daemons[d]? = some b → b.owns = true → s.file = some d
  file : ∀ d, s.file = some d → ∃ b, s.daemons[d]? = some b ∧ (b.owns = true ∨ b = .gone)
  /-- Who found nobody is alone with its child. -/
  alone : ∀ (c : ℕ) (a : Client) (x : Option ℕ), s.clients[c]? = some a → a.child = some x →
    ∀ (d : ℕ) (b : Daemon), s.daemons[d]? = some b → b.active = true → x = some d

/-- A client ends while the daemon it spawned is on its way up. -/
def Orphans (s : State) (e : Event) : Prop :=
  ∃ (c d : ℕ) (b : Daemon), e = .abandon c ∧ s.clients[c]? = some (.polling d) ∧
    s.daemons[d]? = some b ∧ b.rising = true

variable {s s' : State} {e : Event} {c d : ℕ} {a a' : Client} {b b' : Daemon}

/-- A daemon of a grown list: an old one, or the one just spawned. -/
theorem getElem?_spawned (h : (s.daemons ++ [.starting])[d]? = some b) :
    s.daemons[d]? = some b ∨ d = s.daemons.length ∧ b = .starting := by
  rcases Nat.lt_or_ge d s.daemons.length with hlt | hge
  · exact .inl (by rwa [List.getElem?_append_left hlt] at h)
  · have hlt := (List.getElem?_eq_some_iff.1 h).1
    rw [List.length_append, List.length_singleton] at hlt
    obtain rfl : d = s.daemons.length := by omega
    exact .inr ⟨rfl, (Pool.getElem?_concat_cases h).elim (fun hold ↦ absurd
      (List.getElem?_eq_some_iff.1 hold).1 (Nat.lt_irrefl _)) id⟩

/-! ### Clients -/

/-- A client goes on, neither the lock nor the daemons changed. -/
theorem Inv.putClient (h : s.Inv) (ha : s.clients[c]? = some a)
    (hlock : a'.holdsLock = true → a.holdsLock = true)
    (hpolling : ∀ d, a = .polling d → a' = .polling d)
    (halone : ∀ x, a'.child = some x →
      ∀ (d : ℕ) (b : Daemon), s.daemons[d]? = some b → b.active = true → x = some d) :
    (s.putClient c a').Inv := by
  refine ⟨fun c' a₁ ha₁ hl ↦ ?_, fun d b hb hr ↦ ?_, h.owns, h.file, fun c' a₁ x ha₁ hx ↦ ?_⟩
  · rcases Pool.getElem?_set_cases ha₁ with ⟨rfl, rfl⟩ | ⟨-, hold⟩
    · exact h.lock _ a ha (hlock hl)
    · exact h.lock c' a₁ hold hl
  · obtain ⟨c', hc'⟩ := h.rising d b hb hr
    by_cases hne : c' = c
    · subst hne
      refine ⟨c', ?_⟩
      rw [State.putClient, List.getElem?_set_self (List.getElem?_eq_some_iff.1 ha).1]
      exact congrArg some (hpolling d (Option.some.inj (ha.symm.trans hc')))
    · exact ⟨c', (List.getElem?_set_ne (Ne.symm hne)).trans hc'⟩
  · rcases Pool.getElem?_set_cases ha₁ with ⟨rfl, rfl⟩ | ⟨-, hold⟩
    · exact halone x hx
    · exact h.alone c' a₁ x hold hx

/-- A client ends; nobody it waits for is on its way up. -/
theorem Inv.finish (h : s.Inv) (ha : s.clients[c]? = some a)
    (hchild : ∀ d b, a = .polling d → s.daemons[d]? = some b → b.rising = false) :
    (s.finish c).Inv := by
  refine ⟨fun c' a₁ ha₁ hl ↦ ?_, fun d b hb hr ↦ ?_, h.owns, h.file, fun c' a₁ x ha₁ hx ↦ ?_⟩
  · rcases Pool.getElem?_set_cases ha₁ with ⟨-, rfl⟩ | ⟨hne, hold⟩
    · cases hl
    · have hlock := h.lock c' a₁ hold hl
      refine (if_neg fun hc ↦ hne ?_).trans hlock
      exact Option.some.inj (hlock.symm.trans hc)
  · obtain ⟨c', hc'⟩ := h.rising d b hb hr
    refine ⟨c', (List.getElem?_set_ne ?_).trans hc'⟩
    rintro rfl
    obtain rfl := Option.some.inj (ha.symm.trans hc')
    rw [hchild d b rfl hb] at hr
    cases hr
  · rcases Pool.getElem?_set_cases ha₁ with ⟨-, rfl⟩ | ⟨-, hold⟩
    · cases hx
    · exact h.alone c' a₁ x hold hx

/-! ### Daemons -/

/-- A daemon goes on, and owns the file no more than it did. -/
theorem Inv.putDaemon (h : s.Inv) (hb : s.daemons[d]? = some b)
    (hrising : b'.rising = true → b.rising = true) (howns : b'.owns = true → b.owns = true)
    (hkept : b.owns = true → b'.owns = true ∨ b' = .gone)
    (hactive : b'.active = true → b.active = true)
    (hgone : b = .gone → b' = .gone) : (s.putDaemon d b').Inv := by
  refine ⟨h.lock, fun d' b₁ hb₁ hr ↦ ?_, fun d' b₁ hb₁ ho ↦ ?_, fun d' hd' ↦ ?_,
    fun c a x ha hx d' b₁ hb₁ hact ↦ ?_⟩
  · rcases Pool.getElem?_set_cases hb₁ with ⟨rfl, rfl⟩ | ⟨-, hold⟩
    · exact h.rising _ b hb (hrising hr)
    · exact h.rising d' b₁ hold hr
  · rcases Pool.getElem?_set_cases hb₁ with ⟨rfl, rfl⟩ | ⟨-, hold⟩
    · exact h.owns _ b hb (howns ho)
    · exact h.owns d' b₁ hold ho
  · obtain ⟨b₁, hb₁, ho⟩ := h.file d' hd'
    by_cases hne : d' = d
    · subst hne
      obtain rfl := Option.some.inj (hb.symm.trans hb₁)
      refine ⟨b', List.getElem?_set_self (List.getElem?_eq_some_iff.1 hb).1, ?_⟩
      rcases ho with ho | hg
      · exact hkept ho
      · exact .inr (hgone hg)
    · exact ⟨b₁, (List.getElem?_set_ne (Ne.symm hne)).trans hb₁, ho⟩
  · rcases Pool.getElem?_set_cases hb₁ with ⟨rfl, rfl⟩ | ⟨-, hold⟩
    · exact h.alone c a x ha hx _ b hb (hactive hact)
    · exact h.alone c a x ha hx d' b₁ hold hact

/-- A daemon unlinks its file. -/
theorem Inv.unlinked (h : s.Inv) (hb : s.daemons[d]? = some b) (howns : b.owns = true) :
    ({ s.putDaemon d .unlinked with file := none } : State).Inv := by
  have hfile := h.owns d b hb howns
  refine ⟨h.lock, fun d' b₁ hb₁ hr ↦ ?_, fun d' b₁ hb₁ ho ↦ ?_, nofun,
    fun c a x ha hx d' b₁ hb₁ hact ↦ ?_⟩
  · rcases Pool.getElem?_set_cases hb₁ with ⟨-, rfl⟩ | ⟨-, hold⟩
    · cases hr
    · exact h.rising d' b₁ hold hr
  · rcases Pool.getElem?_set_cases hb₁ with ⟨-, rfl⟩ | ⟨hne, hold⟩
    · cases ho
    · exact absurd (Option.some.inj ((h.owns d' b₁ hold ho).symm.trans hfile)) hne
  · rcases Pool.getElem?_set_cases hb₁ with ⟨-, rfl⟩ | ⟨-, hold⟩
    · cases hact
    · exact h.alone c a x ha hx d' b₁ hold hact

/-- A daemon binds a path with nothing at it. -/
theorem Inv.bind (h : s.Inv) (hb : s.daemons[d]? = some .starting) (hfile : s.file = none) :
    ({ s.putDaemon d .bound with file := some d } : State).Inv := by
  refine ⟨h.lock, fun d' b₁ hb₁ hr ↦ ?_, fun d' b₁ hb₁ ho ↦ ?_, fun d' hd' ↦ ?_,
    fun c a x ha hx d' b₁ hb₁ hact ↦ ?_⟩
  · rcases Pool.getElem?_set_cases hb₁ with ⟨rfl, rfl⟩ | ⟨-, hold⟩
    · exact h.rising _ _ hb rfl
    · exact h.rising d' b₁ hold hr
  · rcases Pool.getElem?_set_cases hb₁ with ⟨rfl, rfl⟩ | ⟨-, hold⟩
    · rfl
    · have hold' := h.owns d' b₁ hold ho
      rw [hfile] at hold'
      cases hold'
  · obtain rfl := Option.some.inj hd'
    exact ⟨.bound, List.getElem?_set_self (List.getElem?_eq_some_iff.1 hb).1, .inl rfl⟩
  · rcases Pool.getElem?_set_cases hb₁ with ⟨rfl, rfl⟩ | ⟨-, hold⟩
    · exact h.alone c a x ha hx _ _ hb rfl
    · exact h.alone c a x ha hx d' b₁ hold hact

/-! ### A client and its child -/

/-- Alone with the lock, a client spawns a daemon. -/
theorem Inv.spawn (h : s.Inv) (ha : s.clients[c]? = some .spawning) :
    ({ s.putClient c (.polling s.daemons.length) with
      daemons := s.daemons ++ [.starting] } : State).Inv := by
  have hlt := (List.getElem?_eq_some_iff.1 ha).1
  have hlock := h.lock c _ ha rfl
  refine ⟨fun c' a' ha' hl ↦ ?_, fun d b hb hr ↦ ?_, fun d b hb ho ↦ ?_, fun d hd ↦ ?_,
    fun c' a' x ha' hx d b hb hact ↦ ?_⟩
  · rcases Pool.getElem?_set_cases ha' with ⟨rfl, -⟩ | ⟨-, hold⟩
    · exact hlock
    · exact h.lock c' a' hold hl
  · rcases getElem?_spawned hb with hold | ⟨rfl, rfl⟩
    · -- The client would wait for it with the lock in hand.
      cases h.alone c _ none ha rfl d b hold (Daemon.active_of_rising hr)
    · exact ⟨c, List.getElem?_set_self hlt⟩
  · rcases getElem?_spawned hb with hold | ⟨-, rfl⟩
    · exact h.owns d b hold ho
    · cases ho
  · obtain ⟨b, hb, ho⟩ := h.file d hd
    exact ⟨b, Pool.getElem?_concat _ hb, ho⟩
  · have hc' : a' = .polling s.daemons.length := by
      rcases Pool.getElem?_set_cases ha' with ⟨-, heq⟩ | ⟨hne, hold⟩
      · exact heq
      · have hlock' := h.lock c' a' hold (Client.holdsLock_of_child hx)
        exact absurd (Option.some.inj (hlock'.symm.trans hlock)) hne
    subst hc'
    obtain rfl := Option.some.inj hx
    rcases getElem?_spawned hb with hold | ⟨rfl, -⟩
    · cases h.alone c _ none ha rfl d b hold hact
    · rfl

/-- A client kills the daemon it waited for, and returns. -/
theorem Inv.deadline (h : s.Inv) (ha : s.clients[c]? = some (.polling d)) :
    ((s.putDaemon d .gone).finish c).Inv := by
  have hkilled : (s.putDaemon d .gone).Inv := by
    rcases hb : s.daemons[d]? with - | b
    · have hsame : s.putDaemon d .gone = s := by
        rw [State.putDaemon, List.set_eq_of_length_le (List.getElem?_eq_none_iff.1 hb)]
      rwa [hsame]
    · exact h.putDaemon hb nofun nofun (fun _ ↦ .inr rfl) nofun fun _ ↦ rfl
  refine hkilled.finish ha fun d' b' hpolling hb' ↦ ?_
  obtain rfl : d = d' := Client.polling.inj hpolling
  rcases Pool.getElem?_set_cases hb' with ⟨-, rfl⟩ | ⟨hne, -⟩
  · rfl
  · exact absurd rfl hne

/-! ### What the file tells -/

theorem exists_of_answers (h : s.answers = true) :
    ∃ d b, s.file = some d ∧ s.daemons[d]? = some b ∧ b.owns = true ∧ b.rising = false := by
  obtain ⟨b, hb, hb'⟩ := (Option.any_eq_true _ _).1 h
  obtain ⟨d, hd, hdb⟩ := Option.bind_eq_some_iff.1 hb
  refine ⟨d, b, hd, hdb, ?_⟩
  cases b <;> first | exact ⟨rfl, rfl⟩ | cases hb'

/-- Nobody answers under the lock: nobody is there, or on the way. -/
theorem Inv.inactive (h : s.Inv) (ha : s.clients[c]? = some .locked) (hanswers : s.answers = false)
    (hb : s.daemons[d]? = some b) : b.active = false := by
  have hrising : b.rising = false := by
    by_contra hr
    obtain ⟨c', hc'⟩ := h.rising d b hb (by simpa using hr)
    have hlock := h.lock c' _ hc' rfl
    rw [h.lock c _ ha rfl] at hlock
    obtain rfl := Option.some.inj hlock
    cases Option.some.inj (ha.symm.trans hc')
  have howns : b.owns = true → b.rising = true := by
    intro ho
    have hfile := h.owns d b hb ho
    rw [answers, hfile, Option.bind_some, hb] at hanswers
    cases b with
    | serving | closing => exact nomatch (show true = false from hanswers)
    | bound => rfl
    | _ => cases ho
  cases b with
  | starting | bound => cases hrising
  | serving | closing => cases howns rfl
  | _ => rfl

/-! ### Every step -/

/-- **Every step but the excluded one keeps it.** -/
theorem Inv.step (h : s.Inv) (horphans : ¬s.Orphans e) (hstep : s.step e = some s') : s'.Inv := by
  cases e with
  | newClient =>
    obtain rfl := Option.some.inj hstep
    refine ⟨fun c a ha hl ↦ ?_, fun d b hb hr ↦ ?_, h.owns, h.file, fun c a x ha hx ↦ ?_⟩
    · rcases Pool.getElem?_concat_cases ha with hold | rfl
      · exact h.lock c a hold hl
      · cases hl
    · obtain ⟨c, hc⟩ := h.rising d b hb hr
      exact ⟨c, Pool.getElem?_concat _ hc⟩
    · rcases Pool.getElem?_concat_cases ha with hold | rfl
      · exact h.alone c a x hold hx
      · cases hx
  | connect c =>
    simp only [State.step] at hstep
    split at hstep
    next ha =>
      obtain rfl := Option.some.inj hstep
      refine h.putClient ha ?_ nofun ?_ <;> split_ifs <;> nofun
    next => cases hstep
  | acquire c =>
    simp only [State.step] at hstep
    split at hstep
    next ha hfree =>
      obtain rfl := Option.some.inj hstep
      -- Nobody held the lock, so nobody was past it.
      have hnone : ∀ (c' : ℕ) (a : Client), s.clients[c']? = some a → a.holdsLock = false := by
        intro c' a ha'
        by_contra hl
        have hlock := h.lock c' a ha' (by simpa using hl)
        rw [hfree] at hlock
        cases hlock
      refine ⟨fun c' a' ha' hl ↦ ?_, fun d b hb hr ↦ ?_, h.owns, h.file, fun c' a' x ha' hx ↦ ?_⟩
      · rcases Pool.getElem?_set_cases ha' with ⟨rfl, -⟩ | ⟨-, hold⟩
        · rfl
        · rw [hnone c' a' hold] at hl
          cases hl
      · obtain ⟨c', hc'⟩ := h.rising d b hb hr
        cases hnone c' _ hc'
      · rcases Pool.getElem?_set_cases ha' with ⟨-, rfl⟩ | ⟨-, hold⟩
        · cases hx
        · have hl := hnone c' a' hold
          rw [Client.holdsLock_of_child hx] at hl
          cases hl
    next => cases hstep
  | recheck c =>
    simp only [State.step] at hstep
    split at hstep
    next ha =>
      obtain rfl := Option.some.inj hstep
      split_ifs with hanswers
      · exact h.finish ha nofun
      · refine h.putClient ha (fun _ ↦ rfl) nofun fun x hx d b hb hact ↦ ?_
        rw [h.inactive ha (by simpa using hanswers) hb] at hact
        cases hact
    next => cases hstep
  | look c =>
    simp only [State.step] at hstep
    split at hstep
    next ha =>
      obtain rfl := Option.some.inj hstep
      refine h.putClient ha (fun _ ↦ rfl) nofun fun x hx ↦ ?_
      refine h.alone c _ x ha ?_
      split_ifs at hx <;> exact hx
    next => cases hstep
  | clear c =>
    simp only [State.step] at hstep
    split at hstep
    next ha =>
      obtain rfl := Option.some.inj hstep
      split_ifs with hfile
      · have hput := h.putClient ha (fun _ ↦ rfl : Client.spawning.holdsLock = true → _) nofun
          fun x hx ↦ h.alone c _ x ha hx
        refine ⟨hput.lock, hput.rising, fun d b hb ho ↦ ?_, nofun, hput.alone⟩
        -- Nobody owns the file: the client is alone, and has no child yet.
        cases h.alone c _ none ha rfl d b hb (Daemon.active_of_owns ho)
      · exact h.finish ha nofun
    next => cases hstep
  | spawn c ok =>
    simp only [State.step] at hstep
    split at hstep
    next ha =>
      obtain rfl := Option.some.inj hstep
      split_ifs with hok
      · exact h.spawn ha
      · exact h.finish ha nofun
    next => cases hstep
  | poll c =>
    simp only [State.step] at hstep
    split at hstep
    next child ha =>
      obtain rfl := Option.some.inj hstep
      split_ifs with hend
      · refine h.finish ha ?_
        rintro d b ⟨⟩ hb
        rcases Bool.or_eq_true_iff.1 hend with hanswers | hgone
        · obtain ⟨d', b', -, hb', ho, hr⟩ := exists_of_answers hanswers
          obtain rfl := Option.some.inj (h.alone c _ _ ha rfl d' b' hb' (Daemon.active_of_owns ho))
          obtain rfl := Option.some.inj (hb.symm.trans hb')
          exact hr
        · obtain rfl := Option.some.inj (hb.symm.trans (of_decide_eq_true hgone))
          rfl
      · exact h
    next => cases hstep
  | deadline c =>
    simp only [State.step] at hstep
    split at hstep
    next child ha =>
      obtain rfl := Option.some.inj hstep
      exact h.deadline ha
    next => cases hstep
  | abandon c =>
    simp only [State.step] at hstep
    split at hstep
    next => cases hstep
    next => cases hstep
    next hdone hnone =>
      obtain rfl := Option.some.inj hstep
      obtain ⟨a, ha⟩ := Option.ne_none_iff_exists'.1 hnone
      refine h.finish ha fun d b hpolling hb ↦ ?_
      by_contra hr
      exact horphans ⟨c, d, b, rfl, hpolling ▸ ha, hb, by simpa using hr⟩
  | bind d =>
    simp only [State.step] at hstep
    split at hstep
    next hb =>
      obtain rfl := Option.some.inj hstep
      split_ifs with hfile
      · exact h.putDaemon hb nofun nofun nofun nofun nofun
      · exact h.bind hb (by simpa using hfile)
    next => cases hstep
  | listen d =>
    simp only [State.step] at hstep
    split at hstep
    next hb =>
      obtain rfl := Option.some.inj hstep
      exact h.putDaemon hb nofun (fun _ ↦ rfl) (fun _ ↦ .inl rfl) (fun _ ↦ rfl) nofun
    next => cases hstep
  | retire d =>
    simp only [State.step] at hstep
    split at hstep
    next hb =>
      obtain rfl := Option.some.inj hstep
      exact h.unlinked hb rfl
    next => cases hstep
  | close d =>
    simp only [State.step] at hstep
    split at hstep
    next hb =>
      obtain rfl := Option.some.inj hstep
      exact h.putDaemon hb nofun (fun _ ↦ rfl) (fun _ ↦ .inl rfl) (fun _ ↦ rfl) nofun
    next => cases hstep
  | unlink d =>
    simp only [State.step] at hstep
    split at hstep
    next hb =>
      obtain rfl := Option.some.inj hstep
      exact h.unlinked hb rfl
    next => cases hstep
  | exit d =>
    simp only [State.step] at hstep
    split at hstep
    next => cases hstep
    next => cases hstep
    next hgone hnone =>
      obtain rfl := Option.some.inj hstep
      obtain ⟨b, hb⟩ := Option.ne_none_iff_exists'.1 hnone
      exact h.putDaemon hb nofun nofun (fun _ ↦ .inr rfl) nofun fun _ ↦ rfl

/-- What is at the path stays there unless its owner is gone or removes it. -/
theorem Inv.file_kept (h : s.Inv) (hstep : s.step e = some s') (hfile : s.file = some d)
    (hb : s.daemons[d]? = some b) (hlive : b ≠ .gone) (hmoved : s'.file ≠ some d) :
    e = .retire d ∨ e = .unlink d := by
  have howns : b.owns = true := by
    obtain ⟨b', hb', ho⟩ := h.file d hfile
    obtain rfl := Option.some.inj (hb.symm.trans hb')
    exact ho.resolve_right hlive
  have hsame : s'.file = s.file → False := fun heq ↦ hmoved (heq.trans hfile)
  cases e with
  | newClient =>
    obtain rfl := Option.some.inj hstep
    exact (hsame rfl).elim
  | clear c =>
    simp only [State.step] at hstep
    split at hstep
    next ha =>
      -- The client is alone: nobody owns what it removes.
      cases h.alone c _ none ha rfl d b hb (Daemon.active_of_owns howns)
    next => cases hstep
  | retire d' =>
    simp only [State.step] at hstep
    split at hstep
    next hb' =>
      obtain rfl := Option.some.inj ((h.owns d' _ hb' rfl).symm.trans hfile)
      exact .inl rfl
    next => cases hstep
  | unlink d' =>
    simp only [State.step] at hstep
    split at hstep
    next hb' =>
      obtain rfl := Option.some.inj ((h.owns d' _ hb' rfl).symm.trans hfile)
      exact .inr rfl
    next => cases hstep
  | bind d' =>
    simp only [State.step, hfile, Option.isSome_some, if_true] at hstep
    split at hstep
    next =>
      obtain rfl := Option.some.inj hstep
      exact (hsame rfl).elim
    next => cases hstep
  | connect c | recheck c | look c | spawn c ok | poll c | deadline c | abandon c | acquire c
  | listen d' | close d' | exit d' =>
    simp only [State.step] at hstep
    split at hstep
    all_goals cases hstep
    all_goals
      refine (hsame ?_).elim
      first | rfl | (split_ifs <;> rfl)

end State

theorem inv_of_reachable {s : State} (h : machine.Reachable (fun s e ↦ ¬s.Orphans e) s) : s.Inv :=
  h.invariant ⟨nofun, nofun, nofun, nofun, nofun⟩ fun _ _ _ hok hstep hinv ↦ hinv.step hok hstep

/-- **As long as no client ends while its daemon is on its way up**, one daemon serves, and only the
owner of the file at the path removes it. -/
theorem one_daemon_of_reachable {s : State} (h : machine.Reachable (fun s e ↦ ¬s.Orphans e) s) :
    (∀ d d' : ℕ, s.daemons[d]? = some .serving → s.daemons[d']? = some .serving → d = d') ∧
      ∀ (e : State.Event) (s' : State) (d : ℕ) (b : Daemon), s.step e = some s' →
        s.file = some d → s.daemons[d]? = some b → b ≠ .gone → s'.file ≠ some d →
        e = .retire d ∨ e = .unlink d := by
  have hinv := inv_of_reachable h
  refine ⟨fun d d' hd hd' ↦ ?_, fun e s' d b hstep hfile hb hlive hmoved ↦
    hinv.file_kept hstep hfile hb hlive hmoved⟩
  exact Option.some.inj ((hinv.owns d _ hd rfl).symm.trans (hinv.owns d' _ hd' rfl))

/-- What a client does that finds nobody at an empty path, up to the spawning of its daemon. -/
def started (c : ℕ) : List State.Event :=
  [.newClient, .connect c, .acquire c, .recheck c, .look c, .spawn c true]

/-- Whether the step is not the end of a client that leaves a daemon on its way up. -/
def State.keeps (s : State) : State.Event → Bool
  | .abandon c =>
    match s.clients[c]? with
    | some (.polling d) => !(s.daemons[d]?).any Daemon.rising
    | _ => true
  | _ => true

theorem State.not_orphans_of_keeps (s : State) (e : State.Event) (h : s.keeps e = true) :
    ¬s.Orphans e := by
  rintro ⟨c, d, b, rfl, hc, hb, hr⟩
  simp only [State.keeps, hc, hb, Option.any_some, hr] at h
  cases h

/-- Two clients start at once: one waits for the other's daemon. That daemon dies without cleaning
up, and a third client removes what it left and starts the next one. -/
def takenOver : List State.Event :=
  [.newClient, .newClient, .connect 0, .connect 1, .acquire 0, .recheck 0, .look 0, .spawn 0 true,
    .bind 0, .listen 0, .poll 0, .acquire 1, .recheck 1, .exit 0,
    .newClient, .connect 2, .acquire 2, .recheck 2, .look 2, .clear 2, .spawn 2 true,
    .bind 1, .listen 1]

theorem one_daemon_takenOver :
    ∃ s, machine.Reachable (fun s e ↦ ¬s.Orphans e) s ∧ s.daemons[0]? = some .gone ∧
      s.daemons[1]? = some .serving ∧ s.file = some 1 ∧
      (∀ d' : ℕ, s.daemons[d']? = some .serving → 1 = d') ∧
      ∀ (e : State.Event) (s' : State), s.step e = some s' → s'.file ≠ some 1 →
        e = .retire 1 ∨ e = .unlink 1 := by
  have hrun := Option.some_get (by decide : (machine.runIf State.keeps machine.start
    takenOver).isSome = true)
  have hreach : machine.Reachable (fun s e ↦ ¬s.Orphans e) _ :=
    ⟨_, runs_of_runIf State.not_orphans_of_keeps hrun.symm⟩
  obtain ⟨honly, hkept⟩ := one_daemon_of_reachable hreach
  exact ⟨_, hreach, rfl, rfl, rfl, fun d' hd' ↦ honly 1 d' rfl hd',
    fun e s' hstep hmoved ↦ hkept e s' 1 .serving hstep rfl rfl nofun hmoved⟩

/-- **Two daemons serve.** A client is killed while its daemon is on its way up; the next one finds
nobody, then finds the file that the daemon has bound since, and removes it. -/
theorem two_daemons :
    ∃ s, machine.Reachable Any s ∧ s.daemons[0]? = some .serving ∧ s.daemons[1]? = some .serving ∧
      s.file = some 1 :=
  ⟨_, reachable_get
    (by decide : (machine.run machine.start (started 0 ++ [.abandon 0, .newClient, .connect 1,
    .acquire 1, .recheck 1, .bind 0, .listen 0, .look 1, .clear 1, .spawn 1 true, .bind 1,
    .listen 1])).isSome = true),
    rfl, rfl, rfl⟩

end RustCodeMcp.Socket
