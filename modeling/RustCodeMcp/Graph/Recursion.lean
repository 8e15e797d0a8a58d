import RustCodeMcp.Digraph.Cycles
import RustCodeMcp.Graph.Opened
import Mathlib.Data.Prod.Lex
import Mathlib.Data.String.Basic

/-!
# Functions that call themselves

`recursionCheck` searches from every function for paths of calls that come back to it, and turns
each one until its least id is first. So it reports the simple cycles of calls, each once
(`recursionCheck_exact`).

**A cycle is found from each of its functions**, since every one of them is a place to start; turned
until its least id is first, all these are one list, and keeping a list only once leaves each cycle
once. A path with as many functions as were asked for is given up, and no more than twelve can be
asked for. The filter by a crate is applied at the end and looks at the functions of a cycle, not at
where the search began.

The report is sorted by length, and cycles of one length by the name of their first function.
-/

namespace RustCodeMcp.Ownership

open DirectedGraph

variable {N Rest Embedding : Type} [LinearOrder N]

/-- What is asked for: a greatest length, and perhaps a crate. -/
structure RecursionOpts (N : Type) where
  crateIdFilter : Option N
  maxCycleLength : ℕ

/-- A cycle of the report, with its length. -/
structure RecursionCycleInternal (N : Type) where
  fns : List N
  cycleLength : ℕ
  directRecursion : Bool
  deriving DecidableEq

/-- No longer cycle is looked for. -/
def HARD_CAP_CYCLE_LENGTH : ℕ := 12

/-- The length where none is asked for. -/
def DEFAULT_CYCLE_LENGTH : ℕ := 5

/-- The length that is looked for. -/
def clampCycleLength (requested : Option ℕ) : ℕ :=
  max 1 (min (requested.getD DEFAULT_CYCLE_LENGTH) HARD_CAP_CYCLE_LENGTH)

/-! ### The search for cycles -/

section Search

variable (start : N) (outgoing : N → List N) (maxDepth : ℕ)

/-- What `dfs` puts out, with its path and the set of what is on it. -/
def dfs (path : List N) (onPath : Finset N) : List (List N) :=
  if maxDepth < path.length then []
  else
    match path.getLast? with
    | none => []
    | some current => (outgoing current).flatMap fun next ↦
      if next = start then [path]
      else if next ∈ onPath then []
      else if _h : maxDepth ≤ path.length then []
      else dfs (path ++ [next]) (insert next onPath)
termination_by maxDepth - path.length
decreasing_by
  rw [List.length_append, List.length_singleton]
  omega

/-- The cycles through a function, as the search finds them. -/
def findCyclesFrom : List (List N) :=
  if maxDepth = 0 then [] else dfs start outgoing maxDepth [start] {start}

end Search

/-- The place of the least id. -/
def minIdx (cycle : List N) : ℕ :=
  (cycle.zipIdx.drop 1).foldl
    (fun minIdx entry ↦ if cycle[minIdx]?.any (entry.1 < ·) then entry.2 else minIdx) 0

/-- The cycle, turned until its least id is first. -/
def canonicalizeCycle (cycle : List N) : List N :=
  if cycle.length ≤ 1 then cycle else cycle.rotate (minIdx cycle)

/-- Keep a cycle, unless it is there. -/
def addCycle (cycles : List (List N)) (cycle : List N) : List (List N) :=
  if canonicalizeCycle cycle ∈ cycles then cycles else cycles ++ [canonicalizeCycle cycle]

/-! ### The query -/

namespace OpenedSnapshot

variable (snap : OpenedSnapshot N Rest Embedding) (opts : RecursionOpts N)

/-- The functions: what has a signature and a node. -/
def fnIds : List N :=
  snap.signaturesByTarget.filter fun target ↦ (snap.dbs.plain (.nodesById target)).isSome

/-- `in_scope` -/
def inScope (target : N) : Bool :=
  (snap.dbs.plain (.nodesById target)).any fun node ↦
    match opts.crateIdFilter with
    | some filterId => node.crateId = some filterId
    | none => true

/-- A row of the index of the caller: a call of something not seen yet. -/
def noteCallee (callees : List N) (id : UsageId N) : List N :=
  match snap.dbs.plain (.usagesById id) with
  | none => callees
  | some usage =>
    if usage.relation.isCall ∧ usage.target ∉ callees then callees ++ [usage.target] else callees

/-- The row of the adjacency map, which is there for the functions. -/
def outgoing (node : N) : List N :=
  if node ∈ snap.fnIds then (snap.usagesByConsumerFunction node).foldl snap.noteCallee [] else []

/-- The cycles that are kept, in the order in which they were found. -/
def canonicalCycles : List (List N) :=
  snap.fnIds.foldl (fun cycles start ↦
    (findCyclesFrom start snap.outgoing opts.maxCycleLength).foldl addCycle cycles) []

/-- What the report has of a cycle. -/
def recursionCycle (cycle : List N) : RecursionCycleInternal N :=
  { fns := cycle, cycleLength := cycle.length, directRecursion := cycle.length = 1 }

/-- The order of the report. -/
def cycleLe (a b : RecursionCycleInternal N) : Bool :=
  let name (c : RecursionCycleInternal N) := (c.fns.head?.map snap.qualifiedName).getD ""
  toLex (a.cycleLength, name a) ≤ toLex (b.cycleLength, name b)

/-- `recursion_check` -/
def recursionCheck : List (RecursionCycleInternal N) :=
  (((snap.canonicalCycles opts).filter fun cycle ↦
      opts.crateIdFilter.isNone || cycle.any (snap.inScope opts)).map
    recursionCycle).mergeSort snap.cycleLe

end OpenedSnapshot

/-! ### What the search finds -/

section Search

variable {start : N} {outgoing : N → List N} {maxDepth : ℕ} {path cycle : List N}

/-- The path and the set grow together. -/
theorem push_next {next : N} (hnodup : path.Nodup) (hnew : next ∉ path) :
    (path ++ [next]).Nodup ∧ insert next path.toFinset = (path ++ [next]).toFinset := by
  constructor
  · rw [List.nodup_append]
    refine ⟨hnodup, List.nodup_singleton _, fun a ha b hb heq ↦ hnew ?_⟩
    rwa [← List.mem_singleton.1 hb, ← heq]
  · ext
    simp

/-- From its path on, the search finds every way to complete it to a simple cycle. -/
theorem mem_dfs {init : List N} {current : N} {room : ℕ} (hstart : start ∈ init ++ [current])
    (hlength : (init ++ [current]).length + room = maxDepth)
    (hnodup : (init ++ [current]).Nodup) :
    cycle ∈ dfs start outgoing maxDepth (init ++ [current]) (init ++ [current]).toFinset ↔
      ∃ tail, cycle = init ++ current :: tail ∧ cycle.Nodup ∧ cycle.length ≤ maxDepth ∧
        List.IsChain (fun a b ↦ b ∈ outgoing a) (current :: (tail ++ [start])) := by
  induction room using Nat.strong_induction_on generalizing init current with | _ room ih
  rw [dfs, if_neg (by omega), List.getLast?_concat]
  simp only [List.mem_flatMap, List.mem_toFinset]
  constructor
  · rintro ⟨next, hedge, hcycle⟩
    split at hcycle
    case isTrue heq =>
      obtain rfl := List.mem_singleton.1 hcycle
      exact ⟨[], rfl, hnodup, by omega, by simpa [heq] using hedge⟩
    case isFalse =>
      split at hcycle
      case isTrue => exact absurd hcycle List.not_mem_nil
      case isFalse hnew =>
        split at hcycle
        case isTrue => exact absurd hcycle List.not_mem_nil
        case isFalse hroom =>
          -- The path grows by the next function, with less room left.
          obtain ⟨hnodup', hset⟩ := push_next hnodup hnew
          rw [hset, ih (room - 1) (by omega) (List.mem_append_left _ hstart)
            (by simp at hlength hroom ⊢; omega) hnodup'] at hcycle
          obtain ⟨tail, rfl, hcycle, hle, hchain⟩ := hcycle
          exact ⟨next :: tail, by simp, hcycle, hle, List.isChain_cons_cons.2 ⟨hedge, hchain⟩⟩
  · rintro ⟨tail, rfl, hcycle, hle, hchain⟩
    rcases tail with - | ⟨next, tail⟩
    · exact ⟨start, by simpa using hchain, by simp⟩
    · rw [List.cons_append, List.isChain_cons_cons] at hchain
      refine ⟨next, hchain.1, ?_⟩
      have hnew : next ∉ init ++ [current] := by
        simp only [List.nodup_append, List.nodup_cons] at hcycle
        grind
      -- The way goes on before it closes, so the search does not stop here.
      have hne : next ≠ start := fun heq ↦ hnew (heq ▸ hstart)
      have hroom : ¬maxDepth ≤ (init ++ [current]).length := by
        simp at hle ⊢
        omega
      have hlength' : (init ++ [current] ++ [next]).length + (room - 1) = maxDepth := by
        simp at hlength hroom ⊢
        omega
      obtain ⟨hnodup', hset⟩ := push_next hnodup hnew
      rw [if_neg hne, if_neg hnew, dif_neg hroom, hset,
        ih (room - 1) (by omega) (List.mem_append_left _ hstart) hlength' hnodup']
      exact ⟨tail, by simp, hcycle, hle, hchain.2⟩

/-- From a function the search finds the simple cycles through it, as they go from there. -/
theorem mem_findCyclesFrom : cycle ∈ findCyclesFrom start outgoing maxDepth ↔
    ∃ tail, cycle = start :: tail ∧ cycle.length ≤ maxDepth ∧
      SimpleCycle (fun a b ↦ b ∈ outgoing a) (cycle : Cycle N) := by
  rw [findCyclesFrom]
  split
  case isTrue hzero =>
    refine iff_of_false List.not_mem_nil ?_
    rintro ⟨tail, rfl, hle, -⟩
    simp [hzero] at hle
  case isFalse hpos =>
    have h : cycle ∈ dfs start outgoing maxDepth ([] ++ [start]) ([] ++ [start]).toFinset ↔ _ :=
      mem_dfs (List.mem_singleton_self start) (Nat.add_sub_cancel' (Nat.pos_of_ne_zero hpos))
        (List.nodup_singleton _)
    have hset : ([start] : List N).toFinset = {start} := by simp
    rw [List.nil_append, hset] at h
    rw [h]
    refine exists_congr fun tail ↦ and_congr_right ?_
    rintro rfl
    rw [List.nil_append, simpleCycle_cons]
    tauto

end Search

/-! ### The least id first -/

section Canonical

variable {l cycle : List N} {cycles : List (List N)}

/-- So far, the place is that of the least id. -/
theorem exists_least_foldl {s rest : List N} {m : ℕ}
    (h : ∃ least, (s ++ rest)[m]? = some least ∧ ∀ id ∈ s, least ≤ id) :
    ∃ least, (s ++ rest)[(rest.zipIdx s.length).foldl (fun minIdx entry ↦
        if (s ++ rest)[minIdx]?.any (entry.1 < ·) then entry.2 else minIdx) m]? = some least ∧
      ∀ id ∈ s ++ rest, least ≤ id := by
  induction rest generalizing s m with
  | nil => simpa using h
  | cons id rest ih =>
    obtain ⟨least, hm, hleast⟩ := h
    have hid : (s ++ id :: rest)[s.length]? = some id := by simp
    have hnext := ih (s := s ++ [id])
      (m := if (s ++ id :: rest)[m]?.any (id < ·) then s.length else m) ?_
    · simpa using hnext
    · rw [hm, Option.any_some]
      simp only [List.append_assoc, List.singleton_append]
      by_cases hlt : id < least
      · rw [if_pos (by simpa using hlt)]
        refine ⟨id, hid, fun x hx ↦ ?_⟩
        rcases List.mem_append.1 hx with hx | hx
        · exact hlt.le.trans (hleast x hx)
        · exact (List.mem_singleton.1 hx).ge
      · rw [if_neg (by simpa using hlt)]
        refine ⟨least, hm, fun x hx ↦ ?_⟩
        rcases List.mem_append.1 hx with hx | hx
        · exact hleast x hx
        · exact (not_lt.1 hlt).trans (List.mem_singleton.1 hx).ge

theorem exists_least_minIdx (hne : cycle ≠ []) :
    ∃ least, cycle[minIdx cycle]? = some least ∧ ∀ id ∈ cycle, least ≤ id := by
  rcases cycle with - | ⟨id, rest⟩
  · exact absurd rfl hne
  · exact exists_least_foldl (s := [id]) (m := 0) ⟨id, rfl, by simp⟩

theorem canonicalizeCycle_isRotated (cycle : List N) : canonicalizeCycle cycle ~r cycle := by
  rw [canonicalizeCycle]
  split
  · exact List.IsRotated.refl _
  · exact List.IsRotated.symm ⟨_, rfl⟩

theorem leastFirst_canonicalizeCycle (hne : cycle ≠ []) : LeastFirst (canonicalizeCycle cycle) := by
  rw [canonicalizeCycle]
  split
  case isTrue hle =>
    rcases cycle with - | ⟨id, - | ⟨id', rest⟩⟩
    · exact absurd rfl hne
    · exact ⟨id, rfl, by simp⟩
    · simp at hle
  case isFalse =>
    obtain ⟨least, hget, hleast⟩ := exists_least_minIdx hne
    have hlt : minIdx cycle < cycle.length := (List.getElem?_eq_some_iff.1 hget).1
    exact ⟨least, by rw [List.head?_rotate hlt, hget]; rfl,
      fun id hid ↦ hleast id (List.mem_rotate.1 hid)⟩

/-- The cycles that are kept are the turned ones, each once. -/
theorem foldl_addCycle (found : List (List N)) (hnodup : cycles.Nodup) :
    (found.foldl addCycle cycles).Nodup ∧ ∀ c, c ∈ found.foldl addCycle cycles ↔
      c ∈ cycles ∨ ∃ cycle ∈ found, canonicalizeCycle cycle = c := by
  induction found generalizing cycles with
  | nil => simpa using hnodup
  | cons cycle found ih =>
    have hadd : (addCycle cycles cycle).Nodup ∧
        ∀ c, c ∈ addCycle cycles cycle ↔ c ∈ cycles ∨ canonicalizeCycle cycle = c := by
      rw [addCycle]
      split
      case isTrue hmem =>
        refine ⟨hnodup, fun c ↦ ⟨.inl, ?_⟩⟩
        rintro (hc | rfl)
        · exact hc
        · exact hmem
      case isFalse hnew =>
        refine ⟨List.nodup_append.2 ⟨hnodup, List.nodup_singleton _, ?_⟩, fun c ↦ ?_⟩
        · rintro a ha b hb rfl
          exact hnew (List.mem_singleton.1 hb ▸ ha)
        · rw [List.mem_append, List.mem_singleton, eq_comm (a := c)]
    obtain ⟨hnodup', hmem⟩ := ih hadd.1
    refine ⟨hnodup', fun c ↦ ?_⟩
    rw [List.foldl_cons, hmem, hadd.2, List.exists_mem_cons_iff, or_assoc]

end Canonical

/-! ### What is reported -/

namespace OpenedSnapshot

variable (snap : OpenedSnapshot N Rest Embedding)

/-- A function with a signature. -/
def IsFunction (f : N) : Prop :=
  (snap.dbs.plain (.signaturesByTarget f)).isSome ∧ (snap.dbs.plain (.nodesById f)).isSome

/-- A call among the functions. -/
def FunctionCalls (f g : N) : Prop :=
  snap.IsFunction f ∧ snap.IsFunction g ∧ snap.Calls f g

variable {snap} {f g : N} {opts : RecursionOpts N}

theorem mem_fnIds : f ∈ snap.fnIds ↔ snap.IsFunction f := by
  rw [fnIds, List.mem_filter, snap.mem_signaturesByTarget]
  rfl

theorem mem_foldl_noteCallee {ids : List (UsageId N)} {callees : List N} :
    g ∈ ids.foldl snap.noteCallee callees ↔ g ∈ callees ∨ ∃ id ∈ ids, ∃ usage,
      snap.dbs.plain (.usagesById id) = some usage ∧ usage.relation.isCall ∧ usage.target = g := by
  induction ids generalizing callees with
  | nil => simp
  | cons id ids ih =>
    have hnote : g ∈ snap.noteCallee callees id ↔ g ∈ callees ∨ ∃ usage,
        snap.dbs.plain (.usagesById id) = some usage ∧ usage.relation.isCall ∧
          usage.target = g := by
      rw [noteCallee]
      rcases snap.dbs.plain (.usagesById id) with - | usage
      · simp
      · show g ∈ (if _ then _ else _) ↔ _
        split <;> grind
    rw [List.foldl_cons, ih, hnote, List.exists_mem_cons_iff, or_assoc]

theorem mem_outgoing : g ∈ snap.outgoing f ↔ snap.IsFunction f ∧ snap.Calls f g := by
  rw [outgoing]
  split
  case isTrue hf =>
    rw [mem_foldl_noteCallee, and_iff_right (mem_fnIds.1 hf)]
    simp only [snap.mem_usagesByConsumerFunction, snap.indexed.byConsumerFunction, Calls, usages,
      Usage.IsCallIn]
    grind
  case isFalse hf =>
    exact iff_of_false List.not_mem_nil fun h ↦ hf (mem_fnIds.2 h.1)

/-- Along a cycle every callee is a function, since it calls in turn. -/
theorem simpleCycle_outgoing {c : Cycle N} :
    SimpleCycle (fun f g ↦ g ∈ snap.outgoing f) c ↔ SimpleCycle snap.FunctionCalls c := by
  constructor
  · intro h
    refine ⟨h.ne_nil, h.nodup, chain_imp_of_mem (fun f g _ hg hfg ↦ ?_) h.chain⟩
    obtain ⟨next, -, hnext⟩ := exists_edge_of_mem_chain h.chain hg
    exact ⟨(mem_outgoing.1 hfg).1, (mem_outgoing.1 hnext).1, (mem_outgoing.1 hfg).2⟩
  · intro h
    refine ⟨h.ne_nil, h.nodup, h.chain.imp fun f g hfg ↦ ?_⟩
    exact mem_outgoing.2 ⟨hfg.1, hfg.2.2⟩

/-- What the search keeps, before the filter: each simple cycle once, turned. -/
theorem mem_canonicalCycles {c : List N} : c ∈ snap.canonicalCycles opts ↔
    LeastFirst c ∧ SimpleCycle snap.FunctionCalls (c : Cycle N) ∧
    c.length ≤ opts.maxCycleLength := by
  rw [canonicalCycles, ← List.foldl_flatMap, (foldl_addCycle _ List.nodup_nil).2, or_iff_right
    List.not_mem_nil]
  simp only [List.mem_flatMap, mem_findCyclesFrom, simpleCycle_outgoing]
  constructor
  · rintro ⟨cycle, ⟨start, -, tail, hcycle, hle, hsimple⟩, rfl⟩
    have hrotated := canonicalizeCycle_isRotated cycle
    refine ⟨leastFirst_canonicalizeCycle (by simp [hcycle]), ?_,
      hrotated.perm.length_eq.trans_le hle⟩
    rwa [Cycle.coe_eq_coe.2 hrotated]
  · rintro ⟨hleast, hsimple, hle⟩
    obtain ⟨start, hstart, -⟩ := id hleast
    obtain ⟨tail, rfl⟩ := List.head?_eq_some_iff.1 hstart
    obtain ⟨next, -, hnext⟩ := exists_edge_of_mem_chain hsimple.chain
      (Cycle.mem_coe_iff.2 List.mem_cons_self)
    refine ⟨start :: tail, ⟨start, mem_fnIds.2 hnext.1, tail, rfl, hle, hsimple⟩, ?_⟩
    have hrotated := canonicalizeCycle_isRotated (start :: tail)
    exact (hleast.eq_of_isRotated (leastFirst_canonicalizeCycle (List.cons_ne_nil _ _))
      (Cycle.nodup_coe_iff.1 hsimple.nodup) hrotated.symm).symm

theorem nodup_canonicalCycles : (snap.canonicalCycles opts).Nodup := by
  rw [canonicalCycles, ← List.foldl_flatMap]
  exact (foldl_addCycle _ List.nodup_nil).1

/-- Whether the filter lets a cycle pass. -/
def Passes (snap : OpenedSnapshot N Rest Embedding) (opts : RecursionOpts N) (c : Cycle N) : Prop :=
  ∀ filterId, opts.crateIdFilter = some filterId →
    ∃ f ∈ c, ∃ node, snap.dbs.plain (.nodesById f) = some node ∧ node.crateId = some filterId

theorem passes_iff {c : List N} :
    (opts.crateIdFilter.isNone || c.any (snap.inScope opts)) = true ↔ snap.Passes opts c := by
  rcases hfilter : opts.crateIdFilter with - | filterId
  · simp [Passes, hfilter]
  · simp [Passes, hfilter, inScope, Option.any_eq_true]

theorem pairwise_mergeSort_cycleLe (l : List (RecursionCycleInternal N)) :
    (l.mergeSort snap.cycleLe).Pairwise fun a b ↦ a.cycleLength ≤ b.cycleLength := by
  refine (List.pairwise_mergeSort (fun a b c hab hbc ↦ ?_) (fun a b ↦ ?_) l).imp fun {a b} hab ↦ ?_
  · simp only [cycleLe, decide_eq_true_eq] at hab hbc ⊢
    exact hab.trans hbc
  · simp only [cycleLe, Bool.or_eq_true, decide_eq_true_eq]
    exact le_total _ _
  · simp only [cycleLe, decide_eq_true_eq, Prod.Lex.toLex_le_toLex] at hab
    omega

end OpenedSnapshot

/-- The report has exactly the simple cycles of calls among functions, of a length within the bound
and with a member in the crate asked for: each once, with the least id first, and by length. -/
theorem recursionCheck_exact (snap : OpenedSnapshot N Rest Embedding) (opts : RecursionOpts N) :
    ((snap.recursionCheck opts).map fun c ↦ (c.fns : Cycle N)).Nodup ∧
      (∀ c : Cycle N, c ∈ (snap.recursionCheck opts).map (fun c ↦ (c.fns : Cycle N)) ↔
        SimpleCycle snap.FunctionCalls c ∧ c.length ≤ opts.maxCycleLength ∧ snap.Passes opts c) ∧
      (∀ c ∈ snap.recursionCheck opts, LeastFirst c.fns ∧ c.cycleLength = c.fns.length ∧
        (c.directRecursion = true ↔ c.fns.length = 1)) ∧
      (snap.recursionCheck opts).Pairwise fun a b ↦ a.cycleLength ≤ b.cycleLength := by
  have hperm : (snap.recursionCheck opts).Perm
      (((snap.canonicalCycles opts).filter fun cycle ↦
        opts.crateIdFilter.isNone || cycle.any (snap.inScope opts)).map
          OpenedSnapshot.recursionCycle) :=
    List.mergeSort_perm _ _
  have hmem : ∀ c, c ∈ snap.recursionCheck opts ↔ ∃ cycle, (cycle ∈ snap.canonicalCycles opts ∧
      snap.Passes opts cycle) ∧ OpenedSnapshot.recursionCycle cycle = c := by
    intro c
    simp only [hperm.mem_iff, List.mem_map, List.mem_filter, OpenedSnapshot.passes_iff]
  refine ⟨?_, fun c ↦ ?_, fun c hc ↦ ?_, OpenedSnapshot.pairwise_mergeSort_cycleLe _⟩
  · rw [(hperm.map _).nodup_iff, List.map_map]
    refine (OpenedSnapshot.nodup_canonicalCycles.filter _).map_on fun a ha b hb heq ↦ ?_
    obtain ⟨hleast, hsimple, -⟩ := OpenedSnapshot.mem_canonicalCycles.1 (List.mem_of_mem_filter ha)
    obtain ⟨hleast', -⟩ := OpenedSnapshot.mem_canonicalCycles.1 (List.mem_of_mem_filter hb)
    exact hleast.eq_of_isRotated hleast' (Cycle.nodup_coe_iff.1 hsimple.nodup)
      (Cycle.coe_eq_coe.1 heq)
  · rw [List.mem_map]
    constructor
    · rintro ⟨report, hreport, rfl⟩
      obtain ⟨cycle, ⟨hcycle, hpasses⟩, rfl⟩ := (hmem _).1 hreport
      obtain ⟨-, hsimple, hle⟩ := OpenedSnapshot.mem_canonicalCycles.1 hcycle
      exact ⟨hsimple, hle, hpasses⟩
    · rintro ⟨hsimple, hle, hpasses⟩
      -- turn the cycle as the code does
      induction c using Quotient.inductionOn with
      | h l =>
        have hrotated := canonicalizeCycle_isRotated l
        have heq : ((canonicalizeCycle l : List N) : Cycle N) = (l : Cycle N) :=
          Cycle.coe_eq_coe.2 hrotated
        refine ⟨OpenedSnapshot.recursionCycle (canonicalizeCycle l), (hmem _).2 ⟨_, ⟨?_, ?_⟩, rfl⟩,
          heq⟩
        · refine OpenedSnapshot.mem_canonicalCycles.2 ⟨leastFirst_canonicalizeCycle fun hnil ↦ ?_,
            heq.symm ▸ hsimple, hrotated.perm.length_eq.trans_le hle⟩
          exact hsimple.ne_nil (by subst hnil; rfl)
        · exact heq.symm ▸ hpasses
  · obtain ⟨cycle, ⟨hcycle, -⟩, rfl⟩ := (hmem _).1 hc
    exact ⟨(OpenedSnapshot.mem_canonicalCycles.1 hcycle).1, rfl, decide_eq_true_iff⟩

end RustCodeMcp.Ownership
