import RustCodeMcp.Digraph.Distance
import RustCodeMcp.Digraph.ShortestFirst
import RustCodeMcp.Graph.Names
import RustCodeMcp.Order.Ranking
import Mathlib.Data.Char
import Mathlib.Data.List.Lex
import Mathlib.Data.Prod.Lex

/-!
# Chains of re-exports

The re-exports of a target, and of the modules that re-export it, are walked with a stack, and a
binding is visited when its module and name are new. A chain should have each binding within the hop
limit at the least number of hops to it (`Complete`).

The loop ends because each turn leaves less to do: a binding that is visited is new, and there are
finitely many (`left`). A target is pushed with the depth at which it was found, and popped last in,
first out, so the depth of a link is the length of the way that came first and not of the shortest
one.
-/

namespace RustCodeMcp.ReExports

open DirectedGraph Ranking
open Navigation (Name Node)
open Navigation.OpenedSnapshot (MAX_REEXPORT_HOPS)

/-- A binding, with what the chain reads of it. -/
structure Binding (N : Type) extends Navigation.Binding N where
  isExplicitPubUse : Bool
  deriving DecidableEq

/-- The nodes and the bindings, each in the byte order of their ids. -/
structure OpenedSnapshot (N : Type) where
  nodes : List (Node N)
  nodup : (nodes.map Node.id).Nodup
  bindings : List (Binding N)

/-- A binding of a chain, with the number of hops to it. -/
structure ReExportLink (N : Type) where
  fromModule : N
  fromModuleQualifiedName : Name
  visibleName : Name
  depth : ℕ
  deriving DecidableEq

/-- A target and the links of its chain. -/
structure ReExportChain (N : Type) where
  canonical : N
  canonicalQualifiedName : Name
  links : List (ReExportLink N)

/-- A binding is visited by its module and its name. -/
def Binding.key {N : Type} (binding : Binding N) : N × Name :=
  (binding.fromModule, binding.visibleName)

/-- The key of the binding it is of. -/
def ReExportLink.key {N : Type} (link : ReExportLink N) : N × Name :=
  (link.fromModule, link.visibleName)

/-- Links are sorted by their depths, then by the names of the modules, then by their own. -/
def ReExportLink.rank {N : Type} (link : ReExportLink N) : (ℕ ×ₗ Name ×ₗ Name)ᵒᵈ :=
  OrderDual.toDual (toLex (link.depth, toLex (link.fromModuleQualifiedName, link.visibleName)))

/-- The state of the loop; the last that was pushed is the first of the frontier. -/
structure Walk (N : Type) where
  frontier : List (N × ℕ)
  visited : Finset (N × Name)
  links : List (ReExportLink N)

namespace OpenedSnapshot

variable {N : Type} [DecidableEq N] (snap : OpenedSnapshot N)

/-- The qualified name of a node. -/
def qualifiedName (id : N) : Name :=
  ((snap.nodes.find? fun node ↦ node.id = id).map Node.qualifiedName).getD []

/-- The bindings of a target. -/
def bindingsForTarget (target : N) : List (Binding N) :=
  snap.bindings.filter fun binding ↦ binding.target = target

/-- The link of a binding. -/
def linkOf (depth : ℕ) (binding : Binding N) : ReExportLink N where
  fromModule := binding.fromModule
  fromModuleQualifiedName := snap.qualifiedName binding.fromModule
  visibleName := binding.visibleName
  depth := depth

/-- Visit a binding, if its key is new. -/
def visit (depth : ℕ) (walk : Walk N) (binding : Binding N) : Walk N :=
  if !binding.isExplicitPubUse then walk
  else if binding.key ∈ walk.visited then walk
  else
    { frontier :=
        if depth < MAX_REEXPORT_HOPS then (binding.fromModule, depth + 1) :: walk.frontier
        else walk.frontier
      visited := insert binding.key walk.visited
      links := walk.links ++ [snap.linkOf depth binding] }

/-- What the loop does with the target that it has popped. -/
def pop (current : N) (depth : ℕ) (walk : Walk N) : Walk N :=
  if MAX_REEXPORT_HOPS < depth then walk
  else (snap.bindingsForTarget current).foldl (snap.visit depth) walk

/-- What is left to do. -/
def left (walk : Walk N) : ℕ :=
  walk.frontier.length + snap.bindings.countP fun binding ↦ binding.key ∉ walk.visited

omit [DecidableEq N] in
theorem countP_lt {p q : Binding N → Bool} (h : ∀ b, p b = true → q b = true)
    {l : List (Binding N)} {b : Binding N} (hb : b ∈ l) (hp : p b = false) (hq : q b = true) :
    l.countP p < l.countP q := by
  obtain ⟨before, after, rfl⟩ := List.append_of_mem hb
  have hbefore : before.countP p ≤ before.countP q := List.countP_mono_left fun b _ ↦ h b
  have hafter : after.countP p ≤ after.countP q := List.countP_mono_left fun b _ ↦ h b
  rw [List.countP_append, List.countP_append, List.countP_cons_of_neg (by simp [hp]),
    List.countP_cons_of_pos hq]
  omega

theorem left_visit (depth : ℕ) (walk : Walk N) {binding : Binding N}
    (h : binding ∈ snap.bindings) : snap.left (snap.visit depth walk binding) ≤ snap.left walk := by
  rw [visit]
  split
  · exact Nat.le_refl _
  split
  · exact Nat.le_refl _
  · rename_i hnew
    have hlength : (if depth < MAX_REEXPORT_HOPS then
        (binding.fromModule, depth + 1) :: walk.frontier else walk.frontier).length ≤
        walk.frontier.length + 1 := by
      split
      · exact Nat.le_refl _
      · exact Nat.le_succ _
    have hcount : (snap.bindings.countP fun b ↦ b.key ∉ insert binding.key walk.visited) <
        snap.bindings.countP fun b ↦ b.key ∉ walk.visited := by
      refine countP_lt (fun other hother ↦ ?_) h ?_ (decide_eq_true hnew)
      · exact decide_eq_true fun hmem ↦
          of_decide_eq_true hother (Finset.mem_insert_of_mem hmem)
      · exact decide_eq_false fun hnot ↦ hnot (Finset.mem_insert_self _ _)
    rw [left, left]
    dsimp only
    omega

theorem left_pop (current : N) (depth : ℕ) (walk : Walk N) :
    snap.left (snap.pop current depth walk) ≤ snap.left walk := by
  rw [pop]
  split
  · exact Nat.le_refl _
  · have hsub : ∀ binding ∈ snap.bindingsForTarget current, binding ∈ snap.bindings :=
      fun _ ↦ List.mem_of_mem_filter
    revert hsub
    generalize snap.bindingsForTarget current = l
    intro hsub
    induction l generalizing walk with
    | nil => exact Nat.le_refl _
    | cons binding l ih =>
      rw [List.forall_mem_cons] at hsub
      exact (ih _ hsub.2).trans (snap.left_visit depth walk hsub.1)

/-- The loop. -/
def run (walk : Walk N) : Walk N :=
  match _h : walk.frontier with
  | [] => walk
  | (current, depth) :: rest => run (snap.pop current depth { walk with frontier := rest })
termination_by snap.left walk
decreasing_by
  refine Nat.lt_of_le_of_lt (snap.left_pop _ _ _) ?_
  rw [left, left, _h, List.length_cons]
  dsimp only
  omega

/-- The chain of a target. -/
def reExportChain (target : N) : ReExportChain N where
  canonical := target
  canonicalQualifiedName := snap.qualifiedName target
  links := rankBy ReExportLink.rank (snap.run ⟨[(target, 1)], ∅, []⟩).links

end OpenedSnapshot

/-! ### What a chain should have -/

section Spec

variable {N : Type} [DecidableEq N] (snap : OpenedSnapshot N)

/-- The explicit `pub use` bindings of a target. -/
def OpenedSnapshot.pubUses (target : N) : List (Binding N) :=
  (snap.bindingsForTarget target).filter Binding.isExplicitPubUse

/-- A binding that is reached by a number of hops, from each binding to those that expose its
module. -/
inductive Reaches (target : N) : ℕ → Binding N → Prop
  | direct {binding : Binding N} (h : binding ∈ snap.pubUses target) : Reaches target 1 binding
  | hop {n : ℕ} {binding next : Binding N} (h : Reaches target n binding)
      (hnext : next ∈ snap.pubUses binding.fromModule) : Reaches target (n + 1) next

open Classical in
/-- The bindings within the hop limit. -/
noncomputable def reached (target : N) : List (Binding N) :=
  snap.bindings.filter fun binding ↦ ∃ n ≤ MAX_REEXPORT_HOPS, Reaches snap target n binding

/-- A chain has each binding within the hop limit, with the least number of hops to it. -/
def Complete (target : N) (links : List (ReExportLink N)) : Prop :=
  ∃ depth : Binding N → ℕ,
    (∀ binding n, Reaches snap target n binding →
      Reaches snap target (depth binding) binding ∧ depth binding ≤ n) ∧
    links.Perm ((reached snap target).map fun binding ↦ snap.linkOf (depth binding) binding)

/-- No two bindings within the hop limit share a module and a name. -/
def Distinct (target : N) : Prop :=
  ((reached snap target).map Binding.key).Nodup

/-- The modules that expose a target and are exposed themselves, the last binding first. -/
def OpenedSnapshot.reExporters (target : N) : List N :=
  (((snap.pubUses target).map fun binding ↦ binding.fromModule).reverse.filter fun module ↦
    !(snap.pubUses module).isEmpty).eraseDups

/-- A module that exposes a target. -/
def Exposes (target module : N) : Prop :=
  ∃ binding ∈ snap.pubUses target, binding.fromModule = module

end Spec

section Paths

variable {N : Type} [DecidableEq N] {snap : OpenedSnapshot N} {target v w : N} {n k : ℕ}
  {binding : Binding N} {p : List N}

theorem mem_pubUses : binding ∈ snap.pubUses v ↔
    binding ∈ snap.bindings ∧ binding.target = v ∧ binding.isExplicitPubUse = true := by
  rw [OpenedSnapshot.pubUses, OpenedSnapshot.bindingsForTarget, List.mem_filter, List.mem_filter,
    decide_eq_true_eq, and_assoc]

theorem reaches_iff : Reaches snap target n binding ↔
    ∃ k, n = k + 1 ∧ Steps (Exposes snap) k target binding.target ∧
      binding ∈ snap.pubUses binding.target := by
  constructor
  · intro h
    induction h with
    | direct h =>
      obtain rfl := (mem_pubUses.1 h).2.1
      exact ⟨0, rfl, rfl, h⟩
    | hop _ hnext ih =>
      obtain ⟨k, rfl, hsteps, hmem⟩ := ih
      have htarget := (mem_pubUses.1 hnext).2.1
      exact ⟨k + 1, rfl, htarget ▸ hsteps.snoc ⟨_, hmem, rfl⟩, htarget.symm ▸ hnext⟩
  · rintro ⟨k, rfl, hsteps, hmem⟩
    induction k generalizing binding with
    | zero =>
      obtain heq : target = binding.target := steps_zero.1 hsteps
      exact .direct (heq ▸ hmem)
    | succ k ih =>
      obtain ⟨v, hsteps, other, hother, hfrom⟩ := steps_succ_last.1 hsteps
      obtain rfl := (mem_pubUses.1 hother).2.1
      exact .hop (ih hsteps hother) (hfrom.symm ▸ hmem)

theorem mem_reached : binding ∈ reached snap target ↔
    binding ∈ snap.pubUses binding.target ∧
      ∃ k < MAX_REEXPORT_HOPS, Steps (Exposes snap) k target binding.target := by
  classical
  rw [reached, List.mem_filter, decide_eq_true_eq]
  constructor
  · rintro ⟨-, n, hn, h⟩
    obtain ⟨k, rfl, hsteps, hmem⟩ := reaches_iff.1 h
    exact ⟨hmem, k, hn, hsteps⟩
  · rintro ⟨hmem, k, hk, hsteps⟩
    exact ⟨(mem_pubUses.1 hmem).1, k + 1, hk, reaches_iff.2 ⟨k, rfl, hsteps, hmem⟩⟩

theorem mem_reExporters : w ∈ snap.reExporters v ↔ Exposes snap v w ∧ snap.pubUses w ≠ [] := by
  rw [OpenedSnapshot.reExporters, List.mem_eraseDups, List.mem_filter, List.mem_reverse,
    List.mem_map]
  refine and_congr Iff.rfl ?_
  rw [Bool.not_eq_true', List.isEmpty_eq_false_iff]

theorem nodup_reExporters (snap : OpenedSnapshot N) (v : N) : (snap.reExporters v).Nodup :=
  nodup_eraseDups _

/-- A path to something that is exposed is a way. -/
theorem exists_isWay (h : Steps (Exposes snap) k v w) (hw : snap.pubUses w ≠ []) :
    ∃ p, IsWay snap.reExporters [v] p ∧ p.length = k + 1 ∧ p.getLast? = some w := by
  induction k generalizing v with
  | zero =>
    obtain rfl := steps_zero.1 h
    exact ⟨[v], isWay_singleton (List.mem_singleton_self v), rfl, rfl⟩
  | succ k ih =>
    obtain ⟨u, hu, hsteps⟩ := h
    obtain ⟨p, hp, hlen, hlast⟩ := ih hsteps
    have hexposed : snap.pubUses u ≠ [] := by
      rcases k with - | k
      · exact (steps_zero.1 hsteps : u = w) ▸ hw
      · obtain ⟨_, ⟨other, hother, -⟩, -⟩ := hsteps
        exact List.ne_nil_of_mem hother
    have hsub : [u] ⊆ snap.reExporters v := fun x hx ↦ by
      rw [List.mem_singleton.1 hx]
      exact mem_reExporters.2 ⟨hu, hexposed⟩
    refine ⟨v :: p, isWay_cons (List.mem_singleton_self v) (hp.mono hsub), by simp [hlen], ?_⟩
    rw [List.getLast?_cons, hlast, Option.getD_some]

theorem steps_of_isWay (h : IsWay snap.reExporters [v] p) (hlast : p.getLast? = some w) :
    ∃ k, p.length = k + 1 ∧ Steps (Exposes snap) k v w ∧ (v = w ∨ snap.pubUses w ≠ []) := by
  induction p using List.reverseRecOn generalizing w with
  | nil => cases hlast
  | append_singleton p u ih =>
    obtain rfl : u = w := by simpa using hlast
    by_cases hnil : p = []
    · subst hnil
      obtain ⟨x, hx, hhead⟩ := h.head
      obtain rfl := Option.some.inj hhead
      obtain rfl := List.mem_singleton.1 hx
      exact ⟨0, rfl, rfl, .inl rfl⟩
    · obtain ⟨hway, x, hx, hu⟩ := h.of_concat hnil
      obtain ⟨k, hlen, hsteps, -⟩ := ih hway hx
      obtain ⟨hexposes, hne⟩ := mem_reExporters.1 hu
      exact ⟨k + 1, by simp [hlen], hsteps.snoc hexposes, .inr hne⟩

end Paths

end RustCodeMcp.ReExports
