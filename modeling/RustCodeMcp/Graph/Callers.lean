import RustCodeMcp.Digraph.Distance
import RustCodeMcp.Graph.Opened
import Mathlib.Data.Set.Card

/-!
# Counting the callers of a function

`recursiveCallersCount` searches backwards from the target, one hop at a time. After hop `k` it has
visited what reaches the target by a path of at most `k` calls, and its frontier is what is at
distance `k` (`CallerSearch.Inv`); so the counts are those of the distances in the graph of calls
(`recursiveCallersCount_distances`).

**Levels, not sets, are what is counted.** The answer has the callers at the first hop, all of them,
the largest distance that was reached, and whether there are any beyond; so the invariant follows
what was visited and the frontier separately, and both are said by distances, which are those of
shortest paths with at least one call. A target that calls itself, or is on a cycle, is counted
among its own callers, at the length of the cycle.

The peek pass is one more hop, of which only is asked whether it would find anybody new
(`CallerSearch.Inv.truncated`).
-/

namespace RustCodeMcp.Ownership

open DirectedGraph

variable {N Rest Embedding : Type} [DecidableEq N]

/-- The answer: how many callers there are, how many at the first hop, how far it went, and whether
there are more. -/
structure RecursiveCallersCount where
  targetQualifiedName : String
  depth : ℕ
  directCallers : ℕ
  transitiveCallers : ℕ
  depthReached : ℕ
  truncatedAtDepth : Bool

/-! ### One hop -/

/-- The functions seen so far, and those among them that a hop has found. -/
structure Callers (N : Type) where
  visited : Finset N
  found : List N

/-- A row of the index of the callee. -/
def noteCaller (s : Callers N) (entry : Except QueryError (Usage N)) :
    Except QueryError (Callers N) := do
  let usage ← entry
  if usage.relation.isCall then
    match usage.consumerFunction with
    | none => pure s
    | some callerId =>
      if callerId ∈ s.visited then pure s
      else pure { visited := insert callerId s.visited, found := s.found ++ [callerId] }
  else pure s

/-- What is new is seen, and found. -/
structure Callers.Adds (P : N → Prop) (s t : Callers N) : Prop where
  visited : ∀ f, f ∈ t.visited ↔ f ∈ s.visited ∨ P f
  found : ∀ f, f ∈ t.found ↔ f ∈ s.found ∨ f ∉ s.visited ∧ P f

theorem noteCaller_ok (s : Callers N) (usage : Usage N) :
    ∃ t, noteCaller s (.ok usage) = .ok t ∧ s.Adds usage.IsCallIn t := by
  show ∃ t, (if usage.relation.isCall then _ else _) = Except.ok t ∧ _
  by_cases hcall : usage.relation.isCall = true
  · rw [if_pos hcall]
    rcases hfunction : usage.consumerFunction with - | callerId
    · exact ⟨s, rfl, by simp [Usage.IsCallIn, hfunction], by simp [Usage.IsCallIn, hfunction]⟩
    · by_cases hseen : callerId ∈ s.visited
      · refine ⟨s, if_pos hseen, fun f ↦ ?_, fun f ↦ ?_⟩ <;>
          simp only [Usage.IsCallIn, hfunction, Option.some.injEq] <;> grind
      · refine ⟨_, if_neg hseen, fun f ↦ ?_, fun f ↦ ?_⟩ <;>
          simp only [Usage.IsCallIn, hfunction, Option.some.injEq] <;> grind
  · rw [if_neg hcall]
    exact ⟨s, rfl, by simp [Usage.IsCallIn, hcall], by simp [Usage.IsCallIn, hcall]⟩

omit [DecidableEq N] in
/-- Steps that each add something add all of it together. -/
theorem foldlM_adds {α : Type} {P : α → N → Prop}
    {g : Callers N → α → Except QueryError (Callers N)} {l : List α}
    (hstep : ∀ s, ∀ a ∈ l, ∃ t, g s a = .ok t ∧ s.Adds (P a) t) (s : Callers N) :
    ∃ t, l.foldlM g s = .ok t ∧ s.Adds (fun f ↦ ∃ a ∈ l, P a f) t := by
  induction l generalizing s with
  | nil => exact ⟨s, rfl, by simp, by simp⟩
  | cons a l ih =>
    obtain ⟨t, ht, hadds⟩ := hstep s a List.mem_cons_self
    obtain ⟨u, hu, hadds'⟩ := ih (fun s b hb ↦ hstep s b (List.mem_cons_of_mem _ hb)) t
    refine ⟨u, ?_, fun f ↦ ?_, fun f ↦ ?_⟩
    · rw [List.foldlM_cons, ht]
      exact hu
    · rw [hadds'.visited, hadds.visited, List.exists_mem_cons_iff, or_assoc]
    · rw [hadds'.found, hadds.found, hadds.visited, List.exists_mem_cons_iff]
      tauto

namespace OpenedSnapshot

variable (snap : OpenedSnapshot N Rest Embedding)

/-- The callers of a function. -/
def callersOf (s : Callers N) (fnId : N) : Except QueryError (Callers N) :=
  (snap.usagesForTarget fnId).foldlM noteCaller s

/-- The callers of a frontier. -/
def nextHop (visited : Finset N) (frontier : List N) : Except QueryError (Callers N) :=
  frontier.foldlM snap.callersOf ⟨visited, []⟩

variable {snap}

theorem callersOf_ok (s : Callers N) (fnId : N) :
    ∃ t, snap.callersOf s fnId = .ok t ∧ s.Adds (snap.Calls · fnId) t := by
  obtain ⟨rows, hrows, hmem⟩ := snap.usagesForTarget_eq fnId
  obtain ⟨t, ht, hvisited, hfound⟩ :=
    foldlM_adds (l := rows) (fun s usage _ ↦ noteCaller_ok s usage) s
  have hcalls : ∀ f, (∃ usage ∈ rows, usage.IsCallIn f) ↔ snap.Calls f fnId := by
    intro f
    simp only [Calls, hmem]
    grind
  simp only [hcalls] at hvisited hfound
  exact ⟨t, by rw [callersOf, hrows, List.foldlM_map, ht], hvisited, hfound⟩

theorem nextHop_ok (visited : Finset N) (frontier : List N) :
    ∃ t, snap.nextHop visited frontier = .ok t ∧
      (∀ f, f ∈ t.visited ↔ f ∈ visited ∨ ∃ g ∈ frontier, snap.Calls f g) ∧
      ∀ f, f ∈ t.found ↔ f ∉ visited ∧ ∃ g ∈ frontier, snap.Calls f g := by
  obtain ⟨t, ht, hvisited, hfound⟩ :=
    foldlM_adds (l := frontier) (fun s g _ ↦ snap.callersOf_ok s g) ⟨visited, []⟩
  exact ⟨t, ht, hvisited, by simpa using hfound⟩

end OpenedSnapshot

/-! ### The search -/

/-- The state of the loop over hops. -/
structure CallerSearch (N : Type) where
  visited : Finset N
  frontier : List N
  hop : ℕ
  depthReached : ℕ

/-- Whether one of these rows is a call from a function that was not visited. -/
def hasNewCaller (visited : Finset N) : List (Except QueryError (Usage N)) → Except QueryError Bool
  | [] => pure false
  | entry :: rest => do
    let usage ← entry
    if usage.relation.isCall then
      match usage.consumerFunction with
      | none => hasNewCaller visited rest
      | some callerId => if callerId ∈ visited then hasNewCaller visited rest else pure true
    else hasNewCaller visited rest

namespace OpenedSnapshot

variable (snap : OpenedSnapshot N Rest Embedding) (target : N) (depth : ℕ)

/-- The hops that are left, as long as there is a frontier. -/
def furtherHops : ℕ → CallerSearch N → Except QueryError (CallerSearch N)
  | 0, s => pure s
  | left + 1, s =>
    if s.frontier = [] then pure s
    else do
      let next ← snap.nextHop s.visited s.frontier
      furtherHops left
        { visited := next.visited
          frontier := next.found
          hop := s.hop + 1
          depthReached := if next.found = [] then s.depthReached else s.hop + 1 }

/-- The peek pass: whether a frontier has a caller that was not visited. -/
def peek (visited : Finset N) : List N → Except QueryError Bool
  | [] => pure false
  | fnId :: rest => do
    if ← hasNewCaller visited (snap.usagesForTarget fnId) then pure true else peek visited rest

/-- The last hop left callers that it could not take. -/
def truncatedAtDepth (s : CallerSearch N) : Except QueryError Bool :=
  if s.hop = depth ∧ s.frontier ≠ [] then snap.peek s.visited s.frontier else pure false

/-- `recursive_callers_count` -/
def recursiveCallersCount : Except QueryError RecursiveCallersCount := do
  let targetQualifiedName := snap.qualifiedName target
  if depth = 0 then
    pure ⟨targetQualifiedName, 0, 0, 0, 0, false⟩
  else
    let direct ← snap.callersOf ⟨∅, []⟩ target
    let directCallers := direct.visited.card
    let s ← snap.furtherHops (depth - 1)
      { visited := direct.visited
        frontier := direct.found
        hop := 1
        depthReached := if 0 < directCallers then 1 else 0 }
    let truncatedAtDepth ← snap.truncatedAtDepth depth s
    pure
      { targetQualifiedName
        depth
        directCallers
        transitiveCallers := s.visited.card
        depthReached := s.depthReached
        truncatedAtDepth }

end OpenedSnapshot

/-! ### The counts -/

/-- What the search knows after a hop. -/
structure CallerSearch.Inv (snap : OpenedSnapshot N Rest Embedding) (target : N)
    (s : CallerSearch N) : Prop where
  pos : 1 ≤ s.hop
  visited : ∀ f, f ∈ s.visited ↔ Within snap.Calls s.hop f target
  frontier : ∀ f, f ∈ s.frontier ↔ AtDistance snap.Calls s.hop f target
  depthReached : IsGreatest
    {n | n = 0 ∨ n ≤ s.hop ∧ ∃ f, AtDistance snap.Calls n f target} s.depthReached

section Counts

variable {snap : OpenedSnapshot N Rest Embedding} {target : N} {s : CallerSearch N}

omit [DecidableEq N] in
/-- The largest distance so far, after a level is added. -/
theorem isGreatest_succ {best k : ℕ} {P : ℕ → Prop} [Decidable (P (k + 1))]
    (h : IsGreatest {n | n = 0 ∨ n ≤ k ∧ P n} best) :
    IsGreatest {n | n = 0 ∨ n ≤ k + 1 ∧ P n} (if P (k + 1) then k + 1 else best) := by
  split
  case isTrue hP =>
    refine ⟨.inr ⟨le_rfl, hP⟩, fun n hn ↦ ?_⟩
    rcases hn with rfl | ⟨hn, -⟩
    · exact Nat.zero_le _
    · exact hn
  case isFalse hP =>
    refine ⟨h.1.imp_right fun hbest ↦ ⟨by omega, hbest.2⟩, fun n hn ↦ ?_⟩
    rcases hn with rfl | ⟨hle, hPn⟩
    · exact Nat.zero_le _
    · have hne : n ≠ k + 1 := fun heq ↦ hP (heq ▸ hPn)
      exact h.2 (.inr ⟨by omega, hPn⟩)

/-- The first hop. -/
theorem inv_direct {direct : Callers N}
    (h : (⟨∅, []⟩ : Callers N).Adds (snap.Calls · target) direct) :
    CallerSearch.Inv snap target
      ⟨direct.visited, direct.found, 1, if 0 < direct.visited.card then 1 else 0⟩ where
  pos := le_rfl
  visited f := by simp [h.visited, within_one]
  frontier f := by simp [h.found, atDistance_one]
  depthReached := by
    classical
    have hnone : IsGreatest {n | n = 0 ∨ n ≤ 0 ∧ ∃ f, AtDistance snap.Calls n f target} 0 :=
      ⟨.inl rfl, fun n hn ↦ hn.elim le_of_eq And.left⟩
    have hfirst := isGreatest_succ hnone
    have hdirect : 0 < direct.visited.card ↔ ∃ f, AtDistance snap.Calls (0 + 1) f target := by
      simp [Finset.card_pos, Finset.Nonempty, h.visited, atDistance_one]
    simpa only [hdirect] using hfirst

/-- Another hop. -/
theorem CallerSearch.Inv.hop {next : Callers N} (h : s.Inv snap target)
    (hnext : snap.nextHop s.visited s.frontier = .ok next) :
    CallerSearch.Inv snap target ⟨next.visited, next.found, s.hop + 1,
      if next.found = [] then s.depthReached else s.hop + 1⟩ := by
  obtain ⟨t, ht, hvisited, hfound⟩ := snap.nextHop_ok s.visited s.frontier
  obtain rfl := Except.ok.inj (ht.symm.trans hnext)
  have hcallers : ∀ f, (∃ g ∈ s.frontier, snap.Calls f g) ↔
      ∃ g, AtDistance snap.Calls s.hop g target ∧ snap.Calls f g :=
    fun f ↦ exists_congr fun g ↦ and_congr_left fun _ ↦ h.frontier g
  have hfrontier : ∀ f, f ∈ t.found ↔ AtDistance snap.Calls (s.hop + 1) f target := fun f ↦ by
    rw [hfound, hcallers, h.visited, atDistance_succ h.pos]
  refine ⟨Nat.le_add_left 1 _, fun f ↦ ?_, hfrontier, ?_⟩
  · show f ∈ t.visited ↔ Within snap.Calls (s.hop + 1) f target
    rw [hvisited, hcallers, h.visited, within_succ h.pos]
  · classical
    have hempty : t.found = [] ↔ ¬∃ f, AtDistance snap.Calls (s.hop + 1) f target := by
      simp [List.eq_nil_iff_forall_not_mem, hfrontier]
    simpa only [hempty, ite_not] using isGreatest_succ h.depthReached

/-- The loop ends after all hops, or when a frontier is empty. -/
theorem OpenedSnapshot.furtherHops_ok : ∀ (left : ℕ) (s : CallerSearch N), s.Inv snap target →
    ∃ t, snap.furtherHops left s = .ok t ∧ t.Inv snap target ∧
      (t.hop = s.hop + left ∨ t.frontier = [] ∧ t.hop ≤ s.hop + left)
  | 0, s, h => ⟨s, rfl, h, .inl rfl⟩
  | left + 1, s, h => by
    rw [furtherHops]
    split
    case isTrue hempty => exact ⟨s, rfl, h, .inr ⟨hempty, by omega⟩⟩
    case isFalse hne =>
      obtain ⟨next, hnext, -⟩ := snap.nextHop_ok s.visited s.frontier
      obtain ⟨t, ht, hinv, hhop⟩ := OpenedSnapshot.furtherHops_ok left _ (h.hop hnext)
      refine ⟨t, ?_, hinv, ?_⟩
      · rw [hnext]
        exact ht
      · rcases hhop with hhop | ⟨hempty, hhop⟩
        · exact .inl (by simp only at hhop; omega)
        · exact .inr ⟨hempty, by simp only at hhop; omega⟩

theorem hasNewCaller_ok (visited : Finset N) (rows : List (Usage N)) :
    ∃ b, hasNewCaller visited (rows.map .ok) = .ok b ∧
      (b = true ↔ ∃ usage ∈ rows, ∃ f, usage.IsCallIn f ∧ f ∉ visited) := by
  induction rows with
  | nil => exact ⟨false, rfl, by simp⟩
  | cons usage rows ih =>
    obtain ⟨b, hb, hiff⟩ := ih
    have hskip : (¬∃ f, usage.IsCallIn f ∧ f ∉ visited) →
        (b = true ↔ ∃ u ∈ usage :: rows, ∃ f, u.IsCallIn f ∧ f ∉ visited) := fun hnot ↦ by
      rw [List.exists_mem_cons_iff, or_iff_right hnot, hiff]
    show ∃ b, (if usage.relation.isCall then _ else _) = Except.ok b ∧ _
    by_cases hcall : usage.relation.isCall = true
    · rw [if_pos hcall]
      rcases hfunction : usage.consumerFunction with - | callerId
      · exact ⟨b, hb, hskip (by simp [Usage.IsCallIn, hfunction])⟩
      · by_cases hseen : callerId ∈ visited
        · refine ⟨b, (if_pos hseen).trans hb, hskip ?_⟩
          rintro ⟨f, ⟨-, hf⟩, hnew⟩
          obtain rfl := Option.some.inj (hfunction.symm.trans hf)
          exact hnew hseen
        · exact ⟨true, if_neg hseen, iff_of_true rfl
            ⟨usage, List.mem_cons_self, callerId, ⟨hcall, hfunction⟩, hseen⟩⟩
    · rw [if_neg hcall]
      exact ⟨b, hb, hskip (by simp [Usage.IsCallIn, hcall])⟩

theorem OpenedSnapshot.peek_ok (visited : Finset N) : ∀ frontier : List N,
    ∃ b, snap.peek visited frontier = .ok b ∧
      (b = true ↔ ∃ g ∈ frontier, ∃ f, snap.Calls f g ∧ f ∉ visited)
  | [] => ⟨false, rfl, by simp⟩
  | fnId :: rest => by
    obtain ⟨b, hb, hiff⟩ := OpenedSnapshot.peek_ok visited rest
    obtain ⟨rows, hrows, hmem⟩ := snap.usagesForTarget_eq fnId
    obtain ⟨new, hnew, hnewIff⟩ := hasNewCaller_ok visited rows
    have hcalls : new = true ↔ ∃ f, snap.Calls f fnId ∧ f ∉ visited := by
      rw [hnewIff]
      simp only [hmem, OpenedSnapshot.Calls]
      grind
    rw [List.exists_mem_cons_iff, OpenedSnapshot.peek, hrows, hnew]
    rcases new with - | -
    · exact ⟨b, hb, by rw [hiff, ← hcalls]; simp⟩
    · exact ⟨true, rfl, by simp [← hcalls]⟩

/-- The peek pass looks one hop further. -/
theorem CallerSearch.Inv.truncated (h : s.Inv snap target) {depth : ℕ} (hle : s.hop ≤ depth)
    (hend : s.hop = depth ∨ s.frontier = []) :
    ∃ b, snap.truncatedAtDepth depth s = .ok b ∧
      (b = true ↔ ∃ f, AtDistance snap.Calls (depth + 1) f target) := by
  rw [OpenedSnapshot.truncatedAtDepth]
  split
  case isTrue hdepth =>
    obtain ⟨b, hb, hiff⟩ := snap.peek_ok s.visited s.frontier
    refine ⟨b, hb, hiff.trans ?_⟩
    simp only [h.frontier, h.visited, ← hdepth.1, atDistance_succ h.pos]
    grind
  case isFalse hnot =>
    refine ⟨false, rfl, iff_of_false nofun ?_⟩
    rintro ⟨f, hf⟩
    have hempty : s.frontier = [] := by tauto
    obtain ⟨g, hg⟩ := hf.exists_of_le h.pos (by omega)
    exact List.eq_nil_iff_forall_not_mem.1 hempty g ((h.frontier g).2 hg)

/-- With no frontier left, or after all hops, everything within the depth was visited. -/
theorem CallerSearch.Inv.visited_eq (h : s.Inv snap target) {depth : ℕ} (hle : s.hop ≤ depth)
    (hend : s.hop = depth ∨ s.frontier = []) :
    (s.visited : Set N) = {f | Within snap.Calls depth f target} := by
  ext f
  rw [Finset.mem_coe, h.visited]
  refine ⟨fun hf ↦ hf.mono hle, fun hf ↦ ?_⟩
  rcases hend with hdepth | hempty
  · rwa [hdepth]
  · obtain ⟨n, hpos, -, hn⟩ := hf
    refine (within_of_no_atDistance h.pos (fun g hg ↦ ?_) ⟨n, hpos, hn⟩).mono (by omega)
    exact List.eq_nil_iff_forall_not_mem.1 hempty g ((h.frontier g).2 hg)

theorem CallerSearch.Inv.depthReached_eq (h : s.Inv snap target) {depth : ℕ} (hle : s.hop ≤ depth)
    (hend : s.hop = depth ∨ s.frontier = []) :
    IsGreatest {n | n = 0 ∨ n ≤ depth ∧ ∃ f, AtDistance snap.Calls n f target} s.depthReached := by
  refine ⟨h.depthReached.1.imp_right (And.imp_left fun hn ↦ hn.trans hle), fun n hn ↦ ?_⟩
  refine h.depthReached.2 (hn.imp_right fun ⟨hn, f, hf⟩ ↦ ⟨?_, f, hf⟩)
  rcases hend with hdepth | hempty
  · omega
  · by_contra! hlt
    obtain ⟨g, hg⟩ := hf.exists_of_le h.pos hlt.le
    exact List.eq_nil_iff_forall_not_mem.1 hempty g ((h.frontier g).2 hg)

/-- The counts of callers are those of the distances to the target, and the search is cut off when
something comes no closer than that. -/
theorem recursiveCallersCount_distances (snap : OpenedSnapshot N Rest Embedding) (target : N)
    (depth : ℕ) (hdepth : 1 ≤ depth) :
    ∃ count, snap.recursiveCallersCount target depth = .ok count ∧
      count.directCallers = {f | snap.Calls f target}.ncard ∧
      count.transitiveCallers =
        {f | ∃ n, 1 ≤ n ∧ n ≤ depth ∧ Steps snap.Calls n f target}.ncard ∧
      IsGreatest {n | n = 0 ∨ n ≤ depth ∧ ∃ f, AtDistance snap.Calls n f target}
        count.depthReached ∧
      (count.truncatedAtDepth = true ↔ ∃ f, (∃ n, 1 ≤ n ∧ Steps snap.Calls n f target) ∧
        ∀ n, 1 ≤ n → Steps snap.Calls n f target → depth < n) := by
  obtain ⟨direct, hdirect, hadds⟩ := snap.callersOf_ok ⟨∅, []⟩ target
  obtain ⟨s, hs, hinv, hhop⟩ := snap.furtherHops_ok (depth - 1) _ (inv_direct hadds)
  have hle : s.hop ≤ depth := by
    simp only at hhop
    omega
  have hend : s.hop = depth ∨ s.frontier = [] := by
    refine hhop.imp (fun h ↦ ?_) And.left
    simp only at h
    omega
  obtain ⟨truncated, htruncated, hiff⟩ := hinv.truncated hle hend
  have hdirectCallers : (direct.visited : Set N) = {f | snap.Calls f target} := by
    ext f
    simp [hadds.visited]
  refine ⟨⟨snap.qualifiedName target, depth, direct.visited.card, s.visited.card, s.depthReached,
    truncated⟩, ?_, ?_, ?_, hinv.depthReached_eq hle hend, ?_⟩
  · rw [OpenedSnapshot.recursiveCallersCount, if_neg (by omega), hdirect]
    show (snap.furtherHops (depth - 1) _ >>= _) = _
    rw [hs]
    show (snap.truncatedAtDepth depth s >>= _) = _
    rw [htruncated]
    rfl
  · rw [← hdirectCallers, Set.ncard_coe_finset]
  · show s.visited.card = {f | Within snap.Calls depth f target}.ncard
    rw [← hinv.visited_eq hle hend, Set.ncard_coe_finset]
  · exact hiff.trans exists_atDistance_succ

/-- A function on a cycle of two is among its own callers. -/
theorem recursiveCallersCount_distances_cycle :
    ∃ count, (OpenedSnapshot.ofCalls 2 [(2, 3), (3, 2)]).recursiveCallersCount 2 2 = .ok count ∧
      count.directCallers =
        {f | (OpenedSnapshot.ofCalls 2 [(2, 3), (3, 2)]).Calls f 2}.ncard ∧
      count.transitiveCallers = {f | ∃ n, 1 ≤ n ∧ n ≤ 2 ∧
        Steps (OpenedSnapshot.ofCalls 2 [(2, 3), (3, 2)]).Calls n f 2}.ncard :=
  let ⟨count, hok, hdirect, htransitive, _⟩ := recursiveCallersCount_distances _ 2 2 (by decide)
  ⟨count, hok, hdirect, htransitive⟩

end Counts

end RustCodeMcp.Ownership
