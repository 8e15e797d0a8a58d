import RustCodeMcp.Audit.Syntax

/-!
# Loops without an exit

A `loop` is reported when no `break`, `return` or `?` stands anywhere below it. Whether such an
expression leaves the loop depends on what is between them: an inner loop takes a bare `break`, and
a closure, a function or an asynchronous block takes everything. So every reported loop has no exit,
and a loop without one is missed exactly when all such expressions in it are taken by something
inside it (`matchUnboundedLoop_iff`).

An exit is followed upwards: `target` climbs to the loop a `break` is for, `home` to the closure,
function or asynchronous block a `return` or `?` belongs to, and both answer how far up that is. An
exit leaves the loop if what it is for is the loop itself or further out. Followed downwards the
same is a condition without places (`escapes`), which remembers the labels of the loops passed on
the way; that the two agree is the induction of this module (`any_leaves`).

**What a boundary takes, nothing outside can get back.** Below a closure every exit stays inside it
(`not_leaves_of_boundary`), so the descent may stop there, as the audit does not.
-/

namespace RustCodeMcp.Audit

variable {L : Type} [DecidableEq L]

/-! ### The audit -/

omit [DecidableEq L] in
/-- A `break`, a `return` or a `?`. -/
def isExit (node : SyntaxNode L) : Bool :=
  match node.self with
  | .node (.breakExpr _) _ _ => true
  | .node .returnExpr _ _ => true
  | .node .tryExpr _ _ => true
  | _ => false

omit [DecidableEq L] in
/-- All nodes of the body of a `loop`. -/
def loopBody (node : SyntaxNode L) : Option (List (SyntaxNode L)) :=
  match node.self with
  | .loopExpr .loop _ _ body =>
    some (SyntaxNode.descendants ⟨body, node.self :: node.ancestors⟩)
  | _ => none

/-- A `loop` with no exit anywhere below it. -/
def reportsLoop (node : SyntaxNode L) : Bool :=
  (loopBody node).any fun body ↦ !body.any isExit

/-- The findings of the audit in a body, in the order of the text. -/
def matchUnboundedLoop (body : SyntaxNode L) : List (RawFinding L) :=
  findingsOf "unbounded_loop" reportsLoop body

/-! ### What leaves a loop -/

/-- What takes a `break`, a `return` and a `?`: a closure, a function or an asynchronous block. -/
def isBoundary : Node L → Bool
  | .node .closure _ _ => true
  | .node .function _ _ => true
  | .node (.block isAsync) _ _ => isAsync
  | _ => false

/-- A bare `break` is for any loop, a labelled one for loops of its label. -/
def takes (label own : Option L) : Bool :=
  label.isNone || own = label

/-- A loop takes the `break`s that match its label; nothing else does. -/
def takesBreak (label : Option L) : Node L → Bool
  | .loopExpr _ own _ _ => takes label own
  | .node .. => false

/-- The loop that a `break` is for: the nearest around it that it matches, given by the number of
nodes around that loop. -/
def target (label : Option L) : List (Node L) → Option ℕ
  | [] => none
  | around :: rest =>
    if isBoundary around then none
    else if takesBreak label around then some rest.length
    else target label rest

/-- The function, closure or asynchronous block that a node belongs to, given in the same way. -/
def home : List (Node L) → Option ℕ
  | [] => none
  | around :: rest => if isBoundary around then some rest.length else home rest

/-- A `break` for the loop or for one around it, or a `return` or `?` of the same function, closure
or asynchronous block. -/
def leaves (loop node : SyntaxNode L) : Bool :=
  match node.self with
  | .node (.breakExpr label) _ _ =>
    (target label node.ancestors).any fun found ↦ found ≤ loop.ancestors.length
  | .node .returnExpr _ _ => home node.ancestors = home loop.ancestors
  | .node .tryExpr _ _ => home node.ancestors = home loop.ancestors
  | _ => false

/-- A `loop` that nothing in its body leaves. -/
def isUnbounded (node : SyntaxNode L) : Bool :=
  (loopBody node).any fun body ↦ !body.any (leaves node)

/-! ### Exits that nothing takes -/

/-- The labels of the loops among some nodes. -/
def loopLabels : List (Node L) → List (Option L)
  | [] => []
  | .loopExpr _ label _ _ :: rest => label :: loopLabels rest
  | .node .. :: rest => loopLabels rest

/-- The labels of the loops around a node, up to the function, closure or asynchronous block. -/
def labelsAround : List (Node L) → List (Option L)
  | [] => []
  | .loopExpr _ label _ _ :: rest => label :: labelsAround rest
  | .node kind range children :: rest =>
    if isBoundary (.node kind range children) then [] else labelsAround rest

/-- A `break` that no inner loop takes, and one of the loops around does. -/
def breakEscapes (around inner : List (Option L)) (label : Option L) : Bool :=
  !inner.any (takes label) && around.any (takes label)

/-- A node that is an exit leaves, as its kind has it; `return` and `?` always do. -/
def kindEscapes (around inner : List (Option L)) : NodeKind L → Bool
  | .breakExpr label => breakEscapes around inner label
  | .returnExpr => true
  | .tryExpr => true
  | _ => false

mutual

/-- Something leaves the loop: an exit in no closure, function or asynchronous block that no inner
loop takes. The labels are those of the loop and of the loops around it, and of the inner loops
around the node. -/
def escapes (around inner : List (Option L)) : Node L → Bool
  | .node kind range children =>
    !isBoundary (.node kind range children) &&
      (kindEscapes around inner kind || escapesList around inner children)
  | .loopExpr _ label _ body => escapes around (label :: inner) body

/-- Something among these nodes leaves the loop. -/
def escapesList (around inner : List (Option L)) : List (Node L) → Bool
  | [] => false
  | child :: rest => escapes around inner child || escapesList around inner rest

end

/-! ### Climbing -/

variable {loop node : SyntaxNode L} {first : Node L} {inner rest ancestors : List (Node L)}
  {label : Option L} {found : ℕ}

theorem target_lt (h : target label rest = some found) : found < rest.length := by
  induction rest with
  | nil => nomatch h
  | cons first rest ih =>
    rw [target] at h
    split_ifs at h with hboundary hlabel
    · obtain rfl := Option.some.inj h
      exact Nat.lt_succ_self _
    · exact Nat.lt_succ_of_lt (ih h)

theorem isSome_target (label : Option L) (rest : List (Node L)) :
    (target label rest).isSome = (labelsAround rest).any (takes label) := by
  induction rest with
  | nil => rfl
  | cons first rest ih =>
    cases first with
    | node kind range children =>
      rw [target, labelsAround]
      split_ifs with hboundary hlabel
      · rfl
      · exact absurd hlabel Bool.false_ne_true
      · exact ih
    | loopExpr kind own range body =>
      show (if takes label own then some rest.length else target label rest).isSome =
        (takes label own || (labelsAround rest).any (takes label))
      split_ifs with hlabel
      · rw [hlabel]
        rfl
      · rw [Bool.eq_false_iff.2 hlabel, ih]
        rfl

/-- Climbing through inner nodes stops at a loop among them that takes the `break`. -/
theorem target_append (h : ∀ n ∈ inner, isBoundary n = false) (label : Option L)
    (rest : List (Node L)) :
    ((loopLabels inner).any (takes label) = true →
      ∃ found ∈ target label (inner ++ rest), rest.length ≤ found) ∧
      ((loopLabels inner).any (takes label) = false →
        target label (inner ++ rest) = target label rest) := by
  induction inner with
  | nil => exact ⟨nofun, fun _ ↦ rfl⟩
  | cons first inner ih =>
    obtain ⟨hfirst, hinner⟩ := List.forall_mem_cons.1 h
    rw [List.cons_append, target, if_neg (Bool.eq_false_iff.1 hfirst)]
    cases first with
    | node kind range children => exact ih hinner
    | loopExpr kind own range body =>
      rw [loopLabels, List.any_cons, takesBreak]
      cases htakes : takes label own with
      | true =>
        refine ⟨fun _ ↦ ⟨_, rfl, ?_⟩, nofun⟩
        rw [List.length_append]
        exact Nat.le_add_left _ _
      | false => exact ih hinner

omit [DecidableEq L] in
theorem home_append (h : ∀ n ∈ inner, isBoundary n = false) (rest : List (Node L)) :
    home (inner ++ rest) = home rest := by
  induction inner with
  | nil => rfl
  | cons first inner ih =>
    obtain ⟨hfirst, hinner⟩ := List.forall_mem_cons.1 h
    rw [List.cons_append, home, if_neg (Bool.eq_false_iff.1 hfirst), ih hinner]

/-- A `break` is for the loop or one around it exactly when no inner loop takes it and one of those
loops does. -/
theorem target_le (h : ∀ n ∈ inner, isBoundary n = false) (label : Option L) :
    ((target label (inner ++ loop.self :: loop.ancestors)).any fun found ↦
        found ≤ loop.ancestors.length) =
      breakEscapes (labelsAround (loop.self :: loop.ancestors)) (loopLabels inner) label := by
  obtain ⟨htaken, hfree⟩ := target_append h label (loop.self :: loop.ancestors)
  rw [breakEscapes, ← isSome_target]
  cases hinner : (loopLabels inner).any (takes label) with
  | true =>
    obtain ⟨found, hfound, hle⟩ := htaken hinner
    rw [Option.mem_def.1 hfound]
    exact decide_eq_false (Nat.not_le.2 hle)
  | false =>
    rw [hfree hinner]
    match htarget : target label (loop.self :: loop.ancestors) with
    | none => rfl
    | some found => exact decide_eq_true (Nat.le_of_lt_succ (target_lt htarget))

/-! ### Nodes in boundaries -/

/-- Nothing outside a boundary is the target of a `break` inside. -/
theorem lt_of_target (h : isBoundary first = true)
    (htarget : target label (inner ++ first :: rest) = some found) : rest.length < found := by
  induction inner with
  | nil =>
    rw [List.nil_append, target, if_pos h] at htarget
    nomatch htarget
  | cons second inner ih =>
    rw [List.cons_append, target] at htarget
    split_ifs at htarget with hboundary hlabel
    · obtain rfl := Option.some.inj htarget
      rw [List.length_append, List.length_cons]
      omega
    · exact ih htarget

omit [DecidableEq L] in
theorem exists_home (h : isBoundary first = true) (inner rest : List (Node L)) :
    ∃ found, home (inner ++ first :: rest) = some found ∧ rest.length ≤ found := by
  induction inner with
  | nil => exact ⟨rest.length, if_pos h, Nat.le_refl _⟩
  | cons second inner ih =>
    rw [List.cons_append, home]
    split_ifs with hboundary
    · exact ⟨_, rfl, by rw [List.length_append, List.length_cons]; omega⟩
    · exact ih

omit [DecidableEq L] in
theorem home_lt (h : home rest = some found) : found < rest.length := by
  induction rest with
  | nil => nomatch h
  | cons first rest ih =>
    rw [home] at h
    split_ifs at h with hboundary
    · obtain rfl := Option.some.inj h
      exact Nat.lt_succ_self _
    · exact Nat.lt_succ_of_lt (ih h)

/-- Nothing in a closure, function or asynchronous block inside a loop leaves the loop. -/
theorem not_leaves_of_boundary {outer : List (Node L)} (h : isBoundary first = true)
    (hnode : node.ancestors = outer ++ first :: (inner ++ loop.self :: loop.ancestors)) :
    leaves loop node = false := by
  have hlength : loop.ancestors.length < (inner ++ loop.self :: loop.ancestors).length := by
    rw [List.length_append, List.length_cons]
    omega
  have hhome : home node.ancestors ≠ home loop.ancestors := by
    obtain ⟨found, hfound, hle⟩ := exists_home h outer (inner ++ loop.self :: loop.ancestors)
    rw [hnode, hfound]
    intro heq
    have hlt := home_lt heq.symm
    omega
  unfold leaves
  split
  · rw [hnode]
    match htarget : target _ (outer ++ first :: (inner ++ loop.self :: loop.ancestors)) with
    | none => rfl
    | some found =>
      have hlt := lt_of_target h htarget
      exact decide_eq_false (by omega)
  · exact decide_eq_false hhome
  · exact decide_eq_false hhome
  · rfl

/-! ### The exits of a loop -/

/-- What an exit itself does, under no boundary. -/
theorem leaves_self (h : ∀ n ∈ inner, isBoundary n = false) (hloop : isBoundary loop.self = false)
    {kind : NodeKind L} {range : ℕ × ℕ} {children : List (Node L)} :
    leaves loop ⟨.node kind range children, inner ++ loop.self :: loop.ancestors⟩ =
      kindEscapes (labelsAround (loop.self :: loop.ancestors)) (loopLabels inner) kind := by
  have hhome : home (inner ++ loop.self :: loop.ancestors) = home loop.ancestors := by
    rw [home_append h, home, if_neg (Bool.eq_false_iff.1 hloop)]
  cases kind with
  | breakExpr label => exact target_le h label
  | returnExpr => exact decide_eq_true hhome
  | tryExpr => exact decide_eq_true hhome
  | _ => rfl

mutual

/-- **Something below a loop leaves it** exactly when there is an exit that nothing takes. -/
theorem any_leaves (hloop : isBoundary loop.self = false) :
    ∀ (n : Node L) (inner : List (Node L)), (∀ m ∈ inner, isBoundary m = false) →
      (descendantsOfNode (inner ++ loop.self :: loop.ancestors) n).any (leaves loop) =
        escapes (labelsAround (loop.self :: loop.ancestors)) (loopLabels inner) n
  | .node kind range children, inner, h => by
    rw [descendantsOfNode, List.any_cons, leaves_self h hloop, escapes]
    cases hboundary : isBoundary (.node kind range children) with
    | true =>
      have hbelow : (descendantsOfList (.node kind range children ::
          (inner ++ loop.self :: loop.ancestors)) children).any (leaves loop) = false := by
        refine List.any_eq_false.2 fun d hd ↦ Bool.eq_false_iff.1 ?_
        obtain ⟨outer, houter⟩ := ancestors_of_mem_list _ _ d hd
        exact not_leaves_of_boundary hboundary houter.symm
      have hkind : kindEscapes (labelsAround (loop.self :: loop.ancestors)) (loopLabels inner)
          kind = false := by
        cases kind with
        | breakExpr | returnExpr | tryExpr => nomatch hboundary
        | _ => rfl
      rw [hbelow, hkind]
      rfl
    | false =>
      have hinner : ∀ m ∈ .node kind range children :: inner, isBoundary m = false :=
        List.forall_mem_cons.2 ⟨hboundary, h⟩
      exact congrArg _ (any_leaves_list hloop children _ hinner)
  | .loopExpr kind label range body, inner, h => by
    have hinner : ∀ m ∈ .loopExpr kind label range body :: inner, isBoundary m = false :=
      List.forall_mem_cons.2 ⟨rfl, h⟩
    rw [descendantsOfNode, List.any_cons]
    exact any_leaves hloop body _ hinner

theorem any_leaves_list (hloop : isBoundary loop.self = false) :
    ∀ (ns : List (Node L)) (inner : List (Node L)), (∀ m ∈ inner, isBoundary m = false) →
      (descendantsOfList (inner ++ loop.self :: loop.ancestors) ns).any (leaves loop) =
        escapesList (labelsAround (loop.self :: loop.ancestors)) (loopLabels inner) ns
  | [], _, _ => rfl
  | child :: rest, inner, h => by
    rw [descendantsOfList, List.any_append, any_leaves hloop child inner h,
      any_leaves_list hloop rest inner h, escapesList]

end

omit [DecidableEq L] in
theorem self_of_loopBody {below : List (SyntaxNode L)} (h : below ∈ loopBody node) :
    ∃ label range body, node.self = .loopExpr .loop label range body ∧
      below = descendantsOfNode (node.self :: node.ancestors) body := by
  unfold loopBody at h
  split at h
  · next label range body heq => exact ⟨label, range, body, heq, (Option.some.inj h).symm⟩
  · nomatch h

theorem isExit_of_leaves (h : leaves loop node = true) : isExit node = true := by
  unfold leaves at h
  unfold isExit
  split at h
  · rfl
  · rfl
  · rfl
  · exact absurd h Bool.false_ne_true

/-- The loop has an exit that nothing takes. -/
def hasOpenExit (node : SyntaxNode L) : Bool :=
  match node.self with
  | .loopExpr _ _ _ body => escapes (labelsAround (node.self :: node.ancestors)) [] body
  | .node .. => false

/-- **The audit reports exactly the loops without an exit** where each `loop` with a `break`, a
`return` or a `?` anywhere below it has one that nothing inside it takes, and nowhere else. -/
theorem matchUnboundedLoop_iff (body : SyntaxNode L) :
    matchUnboundedLoop body = findingsOf "unbounded_loop" isUnbounded body ↔
      ∀ node ∈ body.descendants, ∀ below ∈ loopBody node,
        below.any isExit = true → hasOpenExit node = true := by
  rw [matchUnboundedLoop, findingsOf_eq_iff]
  refine forall₂_congr fun node _ ↦ ?_
  rw [reportsLoop, isUnbounded]
  match hbody : loopBody node with
  | none => exact iff_of_true Iff.rfl nofun
  | some below =>
    obtain ⟨label, range, inside, hself, hbelow⟩ := self_of_loopBody hbody
    have hopen : below.any (leaves node) = hasOpenExit node := by
      have hloop : isBoundary node.self = false := by
        rw [hself]
        rfl
      have hleaves := any_leaves hloop inside [] nofun
      rw [hself] at hleaves
      rw [hbelow, hasOpenExit, hself]
      exact hleaves
    have hexit : below.any (leaves node) = true → below.any isExit = true := fun h ↦ by
      obtain ⟨exit, hmem, hleaves⟩ := List.any_eq_true.1 h
      exact List.any_eq_true.2 ⟨exit, hmem, isExit_of_leaves hleaves⟩
    show ((!below.any isExit) = true ↔ (!below.any (leaves node)) = true) ↔
      ∀ b ∈ some below, b.any isExit = true → hasOpenExit node = true
    rw [← hopen]
    cases hany : below.any isExit with
    | true =>
      cases hleaves : below.any (leaves node) with
      | true => exact iff_of_true Iff.rfl fun _ _ _ ↦ rfl
      | false => exact iff_of_false nofun fun h ↦ Bool.false_ne_true (h below rfl hany)
    | false =>
      have hleaves : below.any (leaves node) = false :=
        Bool.eq_false_iff.2 fun h ↦ Bool.false_ne_true (hany.symm.trans (hexit h))
      rw [hleaves]
      refine iff_of_true Iff.rfl fun b hb h ↦ ?_
      obtain rfl := Option.some.inj hb
      exact absurd (hany.symm.trans h) Bool.false_ne_true

/-- An infinite loop around a loop that is left: the inner `break` keeps it from being reported. -/
theorem inner_break_missed :
    let inner : Node String := .loopExpr .loop none (5, 16) (.node (.block false) (10, 16)
      [.node (.breakExpr none) (11, 16) []])
    let outer : Node String := .loopExpr .loop none (0, 18) (.node (.block false) (5, 18) [inner])
    let body : SyntaxNode String := ⟨.node (.block false) (0, 20) [outer], []⟩
    (matchUnboundedLoop body).map RawFinding.span = [] ∧
      (findingsOf "unbounded_loop" isUnbounded body).map RawFinding.span = [(0, 18)] := by
  decide

end RustCodeMcp.Audit
