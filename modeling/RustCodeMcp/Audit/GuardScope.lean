import RustCodeMcp.Audit.Syntax
import RustCodeMcp.Text.Separators

/-!
# Guards held across an await

An await is reported when a `let` that looks like a guard stands in the nearest block around it and
ends before it, with at least a byte between. A guard lives to the end of its block, so one in a
block further out is missed, and so is one right before the await; and the nearest block may lie
outside a closure that the await is in. These are the only differences
(`matchAwaitInGuardScope_iff`).

Both are read off the same climb. `blocksAround` collects the blocks on the way up to the nearest
closure, function or asynchronous block, which is where a guard can still be held; the audit takes
the first block that the climb meets at all, whether or not such a boundary comes before it
(`findSome?_of_blocksAround`). What is compared is therefore two ways of choosing blocks on one
path, and never two walks over the tree.

**A needle is looked for in two texts at once.** The audit puts the type and the initializer of a
`let` together, with a line break between, and searches the result. No needle has a line break in
it, so nothing is found that is not in one of the two (`contains_combined`).
-/

namespace RustCodeMcp.Audit

open Separators

variable {L : Type}

/-! ### The audit -/

/-- The texts that make a `let` look like a guard. -/
def GUARD_TEXT_NEEDLES : List (List Char) :=
  ["MutexGuard", "RwLockReadGuard", "RwLockWriteGuard", "Guard", "Ref<", "RefMut<", ".lock()",
    ".read()", ".write()"].map String.toList

/-- The node is an `.await`. -/
def isAwait (node : SyntaxNode L) : Bool :=
  match node.self with
  | .node .awaitExpr _ _ => true
  | _ => false

/-- The statements of a block. -/
def statements : Node L → Option (List (Node L))
  | .node (.block _) _ children => some children
  | _ => none

/-- The `let` ends before the await, but not right before it, and its texts, put together, have a
needle. -/
def isGuardBefore (awaitStart : ℕ) : Node L → Bool
  | .node (.letStmt initializer ty) range _ =>
    let combined := initializer.getD [] ++ '\n' :: ty.getD []
    range.2 < awaitStart && GUARD_TEXT_NEEDLES.any fun needle ↦ contains needle combined
  | _ => false

/-- An `.await` with such a `let` before it in the block nearest to it. -/
def reportsAwait (node : SyntaxNode L) : Bool :=
  isAwait node && (node.ancestors.findSome? statements).any fun block ↦
    block.any (isGuardBefore node.self.range.1)

/-- The findings of the audit in a body, in the order of the text. -/
def matchAwaitInGuardScope (body : SyntaxNode L) : List (RawFinding L) :=
  findingsOf "await_in_guard_scope" reportsAwait body

/-! ### Guards in scope -/

/-- The blocks around a node in its function, closure or asynchronous block, the nearest first. -/
def blocksAround : List (Node L) → List (List (Node L))
  | [] => []
  | .node (.block isAsync) _ children :: rest =>
    children :: if isAsync then [] else blocksAround rest
  | .node .closure _ _ :: _ => []
  | .node .function _ _ :: _ => []
  | _ :: rest => blocksAround rest

/-- The initializer or the type has a needle. -/
def isGuard : Node L → Bool
  | .node (.letStmt initializer ty) _ _ => GUARD_TEXT_NEEDLES.any fun needle ↦
    initializer.any (contains needle) || ty.any (contains needle)
  | _ => false

/-- A guard in a block around the await ends before it. -/
def inGuardScope (node : SyntaxNode L) : Bool :=
  isAwait node && (blocksAround node.ancestors).any fun block ↦
    block.any fun statement ↦ isGuard statement && statement.range.2 ≤ node.self.range.1

/-! ### Where the two differ -/

variable {node : SyntaxNode L} {ancestors : List (Node L)} {block : List (Node L)}

theorem newline_notMem_needle : ∀ needle ∈ GUARD_TEXT_NEEDLES, '\n' ∉ needle := by
  decide +kernel

/-- No needle reaches from the initializer into the type. -/
theorem contains_combined {needle : List Char} (h : needle ∈ GUARD_TEXT_NEEDLES)
    (initializer ty : Option (List Char)) :
    contains needle (initializer.getD [] ++ '\n' :: ty.getD []) =
      (initializer.any (contains needle) || ty.any (contains needle)) := by
  have hnewline := newline_notMem_needle needle h
  have hne : contains needle [] = false := by
    revert needle
    decide +kernel
  have hgetD : ∀ text : Option (List Char),
      contains needle (text.getD []) = text.any (contains needle) := by
    intro text
    cases text with
    | none => exact hne
    | some text => rfl
  rw [Bool.eq_iff_iff, Bool.or_eq_true, ← hgetD, ← hgetD, contains_iff, contains_iff, contains_iff]
  exact infix_append_cons_iff hnewline _ _

theorem isGuardBefore_eq (awaitStart : ℕ) (statement : Node L) :
    isGuardBefore awaitStart statement =
      (isGuard statement && statement.range.2 < awaitStart) := by
  unfold isGuardBefore isGuard
  split
  · next initializer ty range children =>
    have hneedles : (GUARD_TEXT_NEEDLES.any fun needle ↦
        contains needle (initializer.getD [] ++ '\n' :: ty.getD [])) =
        GUARD_TEXT_NEEDLES.any fun needle ↦
          initializer.any (contains needle) || ty.any (contains needle) := by
      rw [Bool.eq_iff_iff, List.any_eq_true, List.any_eq_true]
      exact exists_congr fun needle ↦ and_congr_right fun h ↦ by rw [contains_combined h]
    show (decide (range.2 < awaitStart) && GUARD_TEXT_NEEDLES.any _) = _
    rw [hneedles, Bool.and_comm]
    rfl
  · rfl

/-- The nearest block of the same body is the nearest block of all. -/
theorem findSome?_of_blocksAround {more : List (List (Node L))}
    (h : blocksAround ancestors = block :: more) :
    ancestors.findSome? statements = some block := by
  induction ancestors with
  | nil => nomatch h
  | cons around rest ih =>
    cases around with
    | loopExpr kind label range body => exact ih h
    | node kind range children =>
      cases kind with
      | block isAsync =>
        rw [blocksAround] at h
        rw [← (List.cons.inj h).1]
        rfl
      | closure | function => nomatch h
      | _ => exact ih h

theorem any_isGuardBefore (awaitStart : ℕ) :
    block.any (isGuardBefore awaitStart) = true ↔
      ∃ statement ∈ block, isGuard statement = true ∧ statement.range.2 < awaitStart := by
  simp only [List.any_eq_true, isGuardBefore_eq, Bool.and_eq_true, decide_eq_true_iff]

theorem any_inScope (blocks : List (List (Node L))) (awaitStart : ℕ) :
    (blocks.any fun block ↦ block.any fun statement ↦
        isGuard statement && statement.range.2 ≤ awaitStart) = true ↔
      ∃ block ∈ blocks, ∃ statement ∈ block,
        isGuard statement = true ∧ statement.range.2 ≤ awaitStart := by
  simp only [List.any_eq_true, Bool.and_eq_true, decide_eq_true_iff]

/-- Where the nearest block is in the same function, closure or asynchronous block, it has a guard
that ends before the await, with a byte between, if any block around has one that ends before it.
Where it is not, it has no such guard. -/
def GuardIsNear (node : SyntaxNode L) : Prop :=
  match blocksAround node.ancestors with
  | nearest :: more =>
    (∃ block ∈ nearest :: more, ∃ statement ∈ block,
      isGuard statement = true ∧ statement.range.2 ≤ node.self.range.1) →
    ∃ statement ∈ nearest, isGuard statement = true ∧ statement.range.2 < node.self.range.1
  | [] => ∀ block ∈ node.ancestors.findSome? statements, ∀ statement ∈ block,
      isGuard statement = true → node.self.range.1 ≤ statement.range.2

/-- **The audit finds exactly the awaits in the scope of a guard** where the guards are near each
await, and nowhere else. -/
theorem matchAwaitInGuardScope_iff (body : SyntaxNode L) :
    matchAwaitInGuardScope body = findingsOf "await_in_guard_scope" inGuardScope body ↔
      ∀ node ∈ body.descendants, isAwait node = true → GuardIsNear node := by
  rw [matchAwaitInGuardScope, findingsOf_eq_iff]
  refine forall₂_congr fun node _ ↦ ?_
  rw [reportsAwait, inGuardScope]
  cases hawait : isAwait node with
  | false => exact iff_of_true Iff.rfl nofun
  | true =>
    refine Iff.trans ?_ ⟨fun h _ ↦ h, fun h ↦ h rfl⟩
    rw [Bool.true_and, Bool.true_and, any_inScope, GuardIsNear]
    match hblocks : blocksAround node.ancestors with
    | nearest :: more =>
      rw [findSome?_of_blocksAround hblocks, Option.any_some, any_isGuardBefore]
      refine ⟨Iff.mpr, fun h ↦ ⟨?_, h⟩⟩
      rintro ⟨statement, hmem, hguard, hlt⟩
      exact ⟨nearest, List.mem_cons_self, statement, hmem, hguard, hlt.le⟩
    | [] =>
      -- the await is in a closure inside its nearest block, or in no block
      have hnone : ¬ ∃ block ∈ ([] : List (List (Node L))), ∃ statement ∈ block,
          isGuard statement = true ∧ statement.range.2 ≤ node.self.range.1 := by simp
      rw [iff_false_right hnone]
      match node.ancestors.findSome? statements with
      | none => exact iff_of_true nofun nofun
      | some block =>
        rw [Option.any_some, any_isGuardBefore]
        constructor
        · intro h b hb statement hmem hguard
          obtain rfl := Option.some.inj hb
          exact not_lt.1 fun hlt ↦ h ⟨statement, hmem, hguard, hlt⟩
        · rintro h ⟨statement, hmem, hguard, hlt⟩
          exact (h block rfl statement hmem hguard).not_gt hlt

/-- A guard one block further out, and one right before the await. -/
theorem outer_guard_missed :
    let guard : Node String := .node (.letStmt (some "m.lock()".toList) none) (1, 18) []
    let await (start : ℕ) : Node String := .node .awaitExpr (start, start + 9) []
    let nested : SyntaxNode String := ⟨.node (.block false) (0, 40)
      [guard, .node (.block false) (20, 34) [await 22]], []⟩
    let adjacent : SyntaxNode String := ⟨.node (.block false) (0, 40) [guard, await 18], []⟩
    (matchAwaitInGuardScope nested).map RawFinding.span = [] ∧
      (findingsOf "await_in_guard_scope" inGuardScope nested).map RawFinding.span = [(22, 31)] ∧
      (matchAwaitInGuardScope adjacent).map RawFinding.span = [] ∧
      (findingsOf "await_in_guard_scope" inGuardScope adjacent).map RawFinding.span =
        [(18, 27)] := by
  decide +kernel

end RustCodeMcp.Audit
