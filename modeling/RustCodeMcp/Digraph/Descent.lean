import Mathlib.Data.Finset.Basic
import Mathlib.Data.List.Chain
import Mathlib.Data.List.Lex

/-!
# Depth-first descents

A descent goes down the edges from a root, at most `n` of them on each way, and prunes what it has
seen before (`descend`). What it leaves is a list of places, each with the way to it: a `Forest`.
Ways are compared by the order in which their edges are tried (`rank`): a place is pruned when there
is an unpruned place before it for the same vertex.

The bound on the way down and the pruning do not go together well: a vertex that was first met at
the bottom, where nothing below it is listed, is pruned when it comes up again further up. So what
is below a pruned place need not be anywhere in the tree, and the only thing that holds is what
`Forest` says: **every way is followed up to the first place on it that was pruned**, and a place
was pruned because of one before it.

The order of the places is that of the ranks of their ways, compared as lists of numbers; to put
forests together, their ranks are put side by side.
-/

namespace DirectedGraph

variable {V : Type*} [DecidableEq V] (out : V → List V)

/-- A place of the tree: the way to it, and whether the descent was pruned there. -/
structure Place (V : Type*) where
  path : List V
  pruned : Bool
  deriving DecidableEq

/-- The same place below another root. -/
def Place.under (v : V) (p : Place V) : Place V where
  path := v :: p.path
  pruned := p.pruned

/-- The places below `v`, at most `n` edges down, and what has been seen then. -/
def descend : ℕ → V → Finset V → List (Place V) × Finset V
  | 0, v, seen => if v ∈ seen then ([⟨[v], true⟩], seen) else ([⟨[v], false⟩], insert v seen)
  | n + 1, v, seen =>
    if v ∈ seen then ([⟨[v], true⟩], seen)
    else
      let below := (out v).foldl (fun acc w ↦
        ((acc.1 ++ (descend n w acc.2).1), (descend n w acc.2).2)) ([], insert v seen)
      (⟨[v], false⟩ :: below.1.map (Place.under v), below.2)

/-- The turns of a way that begins with one of the roots. -/
def rank : List V → List V → List ℕ
  | _, [] => []
  | roots, v :: p => roots.idxOf v :: rank (out v) p

/-- A way from one of the roots. -/
structure IsWay (roots p : List V) : Prop where
  head : ∃ v ∈ roots, p.head? = some v
  chain : p.IsChain fun a b ↦ b ∈ out a

/-- What a descent from several roots, one after another, has left. -/
structure Forest (n : ℕ) (roots : List V) (old : Finset V) (places : List (Place V))
    (new : Finset V) : Prop where
  way : ∀ p ∈ places, IsWay out roots p.path ∧ p.path.length ≤ n + 1
  root : ∀ v ∈ roots, ∃ b, ⟨[v], b⟩ ∈ places
  seen : ∀ f, f ∈ new ↔ f ∈ old ∨ ∃ p ∈ places, p.pruned = false ∧ p.path.getLast? = some f
  fresh : ∀ p ∈ places, p.pruned = false → ∀ f, p.path.getLast? = some f → f ∉ old
  unique : ∀ p ∈ places, ∀ q ∈ places, p.pruned = false → q.pruned = false →
    p.path.getLast? = q.path.getLast? → p.path = q.path
  pruned : ∀ q ∈ places, q.pruned = true → ∀ f, q.path.getLast? = some f → f ∈ old ∨
    ∃ p ∈ places, p.pruned = false ∧ p.path.getLast? = some f ∧
      rank out roots p.path < rank out roots q.path
  child : ∀ p ∈ places, p.pruned = false → p.path.length ≤ n → ∀ f, p.path.getLast? = some f →
    ∀ h ∈ out f, ∃ b, ⟨p.path ++ [h], b⟩ ∈ places
  parent : ∀ p ∈ places, ∀ q h, p.path = q ++ [h] → q ≠ [] → ⟨q, false⟩ ∈ places

variable {out} {n : ℕ} {v f : V} {roots p q : List V} {old mid new : Finset V}
  {places places' : List (Place V)}

/-! ### Ways -/

omit [DecidableEq V] in
theorem IsWay.ne_nil (h : IsWay out roots p) : p ≠ [] := by
  rintro rfl
  obtain ⟨v, -, hv⟩ := h.head
  cases hv

omit [DecidableEq V] in
theorem IsWay.exists_last (h : IsWay out roots p) : ∃ f, p.getLast? = some f :=
  ⟨p.getLast h.ne_nil, List.getLast?_eq_some_getLast h.ne_nil⟩

omit [DecidableEq V] in
theorem isWay_singleton (h : v ∈ roots) : IsWay out roots [v] :=
  ⟨⟨v, h, rfl⟩, List.isChain_singleton v⟩

omit [DecidableEq V] in
theorem isWay_cons (h : v ∈ roots) (hp : IsWay out (out v) p) : IsWay out roots (v :: p) := by
  refine ⟨⟨v, h, rfl⟩, List.isChain_cons.2 ⟨fun w hw ↦ ?_, hp.chain⟩⟩
  obtain ⟨u, hu, heq⟩ := hp.head
  rw [Option.mem_def, heq] at hw
  exact Option.some.inj hw ▸ hu

omit [DecidableEq V] in
theorem IsWay.mono (h : IsWay out roots p) {roots' : List V} (hsub : roots ⊆ roots') :
    IsWay out roots' p := by
  obtain ⟨⟨v, hv, heq⟩, hchain⟩ := h
  exact ⟨⟨v, hsub hv, heq⟩, hchain⟩

omit [DecidableEq V] in
theorem IsWay.concat (h : IsWay out roots p) (hlast : p.getLast? = some f) (hv : v ∈ out f) :
    IsWay out roots (p ++ [v]) := by
  obtain ⟨⟨w, hw, heq⟩, hchain⟩ := h
  refine ⟨⟨w, hw, by rw [List.head?_append, heq]; rfl⟩, List.isChain_append.2
    ⟨hchain, List.isChain_singleton v, fun x hx y hy ↦ ?_⟩⟩
  obtain rfl : f = x := Option.some.inj (hlast.symm.trans hx)
  obtain rfl : v = y := Option.some.inj hy
  exact hv

omit [DecidableEq V] in
theorem IsWay.of_concat (h : IsWay out roots (p ++ [v])) (hne : p ≠ []) :
    IsWay out roots p ∧ ∃ f, p.getLast? = some f ∧ v ∈ out f := by
  obtain ⟨⟨w, hw, heq⟩, hchain⟩ := h
  obtain ⟨hchain, -, hlast⟩ := List.isChain_append.1 hchain
  refine ⟨⟨⟨w, hw, ?_⟩, hchain⟩, p.getLast hne, List.getLast?_eq_some_getLast hne,
    hlast _ (List.getLast?_eq_some_getLast hne) v rfl⟩
  rwa [List.head?_append_of_ne_nil _ hne] at heq

/-! ### Ranks -/

theorem length_rank (roots p : List V) : (rank out roots p).length = p.length := by
  induction p generalizing roots with
  | nil => rfl
  | cons v p ih => rw [rank, List.length_cons, List.length_cons, ih]

/-- More roots behind the others change no turn. -/
theorem rank_append_left (h : IsWay out roots p) (roots' : List V) :
    rank out (roots ++ roots') p = rank out roots p := by
  obtain ⟨⟨v, hv, heq⟩, -⟩ := h
  rcases p with - | ⟨w, p⟩
  · cases heq
  · obtain rfl := Option.some.inj heq
    rw [rank, rank, List.idxOf_append_of_mem hv]

theorem rank_concat (hlast : p.getLast? = some f) (v : V) :
    rank out roots (p ++ [v]) = rank out roots p ++ [(out f).idxOf v] := by
  induction p generalizing roots with
  | nil => cases hlast
  | cons w p ih =>
    rcases p with - | ⟨x, p⟩
    · obtain rfl := Option.some.inj hlast
      rfl
    · rw [List.getLast?_cons_cons] at hlast
      rw [List.cons_append, rank, rank, ih hlast, List.cons_append]

/-- A way is the beginning of another when its turns are. -/
theorem isPrefix_of_rank (hp : IsWay out roots p) (hq : IsWay out roots q)
    (h : rank out roots p <+: rank out roots q) : p <+: q := by
  induction p generalizing roots q with
  | nil => exact List.nil_prefix
  | cons v p ih =>
    rcases q with - | ⟨w, q⟩
    · exact absurd rfl hq.ne_nil
    · rw [rank, rank, List.cons_prefix_cons] at h
      obtain ⟨x, hx, heq⟩ := hp.head
      obtain rfl := Option.some.inj heq
      obtain rfl : v = w := (List.idxOf_inj hx).1 h.1
      rw [List.cons_prefix_cons]
      refine ⟨rfl, ?_⟩
      rcases p with - | ⟨y, p⟩
      · exact List.nil_prefix
      · rcases q with - | ⟨z, q⟩
        · have hlen := h.2.length_le
          simp [rank] at hlen
        · have htail : ∀ {u : V} {l : List V}, IsWay out roots (v :: u :: l) →
              IsWay out (out v) (u :: l) := fun hway ↦ by
            have hcons := List.isChain_cons_cons.1 hway.chain
            exact ⟨⟨_, hcons.1, rfl⟩, hcons.2⟩
          exact ih (htail hp) (htail hq) h.2

/-- A list comes no later than one that it begins. -/
theorem le_append (a b : List ℕ) : a ≤ a ++ b := by
  refine not_lt.1 fun h ↦ ?_
  induction a with
  | nil => exact List.not_lt_nil _ h
  | cons x a ih =>
    rcases List.cons_lt_cons_iff.1 h with hlt | ⟨-, hlt⟩
    · exact lt_irrefl x hlt
    · exact ih hlt

/-- What comes before another list, and does not begin it, comes before it with anything appended.
-/
theorem append_lt_append {a b : List ℕ} (h : a < b) (hnot : ¬a <+: b) (c d : List ℕ) :
    a ++ c < b ++ d := by
  induction a generalizing b with
  | nil => exact absurd List.nil_prefix hnot
  | cons x a ih =>
    rcases b with - | ⟨y, b⟩
    · exact absurd h (List.not_lt_nil _)
    · rw [List.cons_append, List.cons_append, List.cons_lt_cons_iff]
      rcases List.cons_lt_cons_iff.1 h with hlt | ⟨rfl, hlt⟩
      · exact .inl hlt
      · exact .inr ⟨rfl, ih hlt fun hpre ↦ hnot (List.cons_prefix_cons.2 ⟨rfl, hpre⟩)⟩

/-- A way that comes no later, and does not begin the other short of its end, stays so one step
further. -/
theorem rank_concat_le (hp : IsWay out roots p) (hq : IsWay out roots q)
    (hpf : p.getLast? = some f) (hqf : q.getLast? = some f)
    (hle : rank out roots p ≤ rank out roots q) (hpre : p <+: q → p = q) (v : V) :
    rank out roots (p ++ [v]) ≤ rank out roots (q ++ [v]) := by
  rw [rank_concat hpf, rank_concat hqf]
  rcases hle.eq_or_lt with heq | hlt
  · rw [heq]
  · refine le_of_lt (append_lt_append hlt (fun hprefix ↦ ?_) _ _)
    rw [hpre (isPrefix_of_rank hp hq hprefix)] at hlt
    exact lt_irrefl _ hlt

/-! ### What a descent leaves -/

/-- No root, no place. -/
theorem Forest.nil : Forest out n [] old [] old where
  way := nofun
  root := nofun
  seen f := by simp
  fresh := nofun
  unique := nofun
  pruned := nofun
  child := nofun
  parent := nofun

/-- A vertex that was seen is pruned. -/
theorem Forest.prune (h : v ∈ old) : Forest out n [v] old [⟨[v], true⟩] old where
  way p hp := by
    obtain rfl := List.mem_singleton.1 hp
    exact ⟨isWay_singleton (List.mem_singleton_self v), Nat.le_add_left _ _⟩
  root w hw := ⟨true, by rw [List.mem_singleton.1 hw]; exact List.mem_singleton_self _⟩
  seen f := by simp
  fresh p hp hpruned := by
    obtain rfl := List.mem_singleton.1 hp
    cases hpruned
  unique p hp q hq hpruned := by
    obtain rfl := List.mem_singleton.1 hp
    cases hpruned
  pruned q hq _ f hf := by
    obtain rfl := List.mem_singleton.1 hq
    exact .inl (Option.some.inj hf ▸ h)
  child p hp hpruned := by
    obtain rfl := List.mem_singleton.1 hp
    cases hpruned
  parent p hp q h heq hne := by
    obtain rfl := List.mem_singleton.1 hp
    have hlen := congrArg List.length heq
    rw [List.length_append] at hlen
    exact absurd (List.length_eq_zero_iff.1 (by simpa using hlen)) hne

/-- A new vertex, with nothing below it when no edge is left. -/
theorem Forest.leaf (h : v ∉ old) : Forest out 0 [v] old [⟨[v], false⟩] (insert v old) where
  way p hp := by
    obtain rfl := List.mem_singleton.1 hp
    exact ⟨isWay_singleton (List.mem_singleton_self v), Nat.le_refl _⟩
  root w hw := ⟨false, by rw [List.mem_singleton.1 hw]; exact List.mem_singleton_self _⟩
  seen f := by
    rw [Finset.mem_insert, or_comm]
    refine or_congr_right ⟨fun hf ↦ ⟨_, List.mem_singleton_self _, rfl, by rw [hf]; rfl⟩, ?_⟩
    rintro ⟨p, hp, -, hf⟩
    obtain rfl := List.mem_singleton.1 hp
    exact (Option.some.inj hf).symm
  fresh p hp _ f hf := by
    obtain rfl := List.mem_singleton.1 hp
    exact Option.some.inj hf ▸ h
  unique p hp q hq _ _ _ := by
    rw [List.mem_singleton.1 hp, List.mem_singleton.1 hq]
  pruned q hq hpruned := by
    obtain rfl := List.mem_singleton.1 hq
    cases hpruned
  child p hp _ hlen := by
    obtain rfl := List.mem_singleton.1 hp
    cases hlen
  parent p hp q h heq hne := by
    obtain rfl := List.mem_singleton.1 hp
    have hlen := congrArg List.length heq
    rw [List.length_append] at hlen
    exact absurd (List.length_eq_zero_iff.1 (by simpa using hlen)) hne

omit [DecidableEq V] in
/-- A place below another root has the same last vertex. -/
theorem getLast?_under {p : Place V} (h : p.path ≠ []) (v : V) :
    (p.under v).path.getLast? = p.path.getLast? := by
  show (v :: p.path).getLast? = _
  rw [List.getLast?_cons, List.getLast?_eq_some_getLast h, Option.getD_some]

/-- A new vertex, with what is below it. -/
theorem Forest.grow (hv : v ∉ old) (h : Forest out n (out v) (insert v old) places new) :
    Forest out (n + 1) [v] old (⟨[v], false⟩ :: places.map (Place.under v)) new := by
  have hne : ∀ {p}, p ∈ places → p.path ≠ [] := fun hp ↦ (h.way _ hp).1.ne_nil
  have hlast : ∀ {p}, p ∈ places → (p.under v).path.getLast? = p.path.getLast? :=
    fun hp ↦ getLast?_under (hne hp) v
  -- `v` is seen before the descent below it starts, so it is not shown again there.
  have hother : ∀ {p}, p ∈ places → p.pruned = false → p.path.getLast? ≠ some v := fun hp hf heq ↦
    h.fresh _ hp hf v heq (Finset.mem_insert_self v old)
  constructor
  case way =>
    intro p hp
    rcases List.mem_cons.1 hp with rfl | hp
    · exact ⟨isWay_singleton (List.mem_singleton_self v), Nat.le_add_left _ _⟩
    · obtain ⟨p, hin, rfl⟩ := List.mem_map.1 hp
      exact ⟨isWay_cons (List.mem_singleton_self v) (h.way p hin).1,
        Nat.succ_le_succ (h.way p hin).2⟩
  case root =>
    intro w hw
    exact ⟨false, by rw [List.mem_singleton.1 hw]; exact List.mem_cons_self⟩
  case seen =>
    intro f
    rw [h.seen, Finset.mem_insert]
    constructor
    · rintro ((rfl | hf) | ⟨p, hp, hpruned, hf⟩)
      · exact .inr ⟨_, List.mem_cons_self, rfl, rfl⟩
      · exact .inl hf
      · exact .inr ⟨_, List.mem_cons_of_mem _ (List.mem_map_of_mem hp), hpruned,
          (hlast hp).trans hf⟩
    · rintro (hf | ⟨p, hp, hpruned, hf⟩)
      · exact .inl (.inr hf)
      · rcases List.mem_cons.1 hp with rfl | hp
        · exact .inl (.inl (Option.some.inj hf).symm)
        · obtain ⟨p, hin, rfl⟩ := List.mem_map.1 hp
          exact .inr ⟨p, hin, hpruned, (hlast hin).symm.trans hf⟩
  case fresh =>
    intro p hp hpruned f hf
    rcases List.mem_cons.1 hp with rfl | hp
    -- The root of the new tree is `v`, not seen before.
    · exact Option.some.inj hf ▸ hv
    · obtain ⟨p, hin, rfl⟩ := List.mem_map.1 hp
      exact fun hmem ↦ h.fresh p hin hpruned f ((hlast hin).symm.trans hf)
        (Finset.mem_insert_of_mem hmem)
  case unique =>
    intro p hp q hq hpf hqf heq
    -- The root against a place below it: their last vertices differ.
    rcases List.mem_cons.1 hp with rfl | hp <;> rcases List.mem_cons.1 hq with rfl | hq
    · rfl
    · obtain ⟨q, hin, rfl⟩ := List.mem_map.1 hq
      exact absurd ((hlast hin).symm.trans heq.symm) (hother hin hqf)
    · obtain ⟨p, hin, rfl⟩ := List.mem_map.1 hp
      exact absurd ((hlast hin).symm.trans heq) (hother hin hpf)
    · obtain ⟨p, hin, rfl⟩ := List.mem_map.1 hp
      obtain ⟨q, hin', rfl⟩ := List.mem_map.1 hq
      rw [hlast hin, hlast hin'] at heq
      exact congrArg (List.cons v) (h.unique p hin q hin' hpf hqf heq)
  case pruned =>
    intro q hq hpruned f hf
    rcases List.mem_cons.1 hq with rfl | hq
    · cases hpruned
    · obtain ⟨q, hin, rfl⟩ := List.mem_map.1 hq
      rcases h.pruned q hin hpruned f ((hlast hin).symm.trans hf) with hmem | ⟨p, hp, hpf, hpl, hlt⟩
      · rcases Finset.mem_insert.1 hmem with rfl | hmem
        -- A place pruned for `v` itself: the root comes before everything below it.
        · refine .inr ⟨_, List.mem_cons_self, rfl, rfl, ?_⟩
          show [List.idxOf f [f]] < List.idxOf f [f] :: rank out (out f) q.path
          refine List.cons_lt_cons_iff.2 (.inr ⟨rfl, ?_⟩)
          rcases hpath : q.path with - | ⟨w, path⟩
          · exact absurd hpath (hne hin)
          · exact List.nil_lt_cons _ _
        · exact .inl hmem
      · refine .inr ⟨_, List.mem_cons_of_mem _ (List.mem_map_of_mem hp), hpf,
          (hlast hp).trans hpl, ?_⟩
        exact List.cons_lt_cons_iff.2 (.inr ⟨rfl, hlt⟩)
  case child =>
    intro p hp hpf hlen f hf w hw
    rcases List.mem_cons.1 hp with rfl | hp
    -- The children of the root are the roots of what is below it.
    · obtain rfl := Option.some.inj hf
      obtain ⟨b, hb⟩ := h.root w hw
      exact ⟨b, List.mem_cons_of_mem _ (List.mem_map_of_mem (f := Place.under v) hb)⟩
    · obtain ⟨p, hin, rfl⟩ := List.mem_map.1 hp
      obtain ⟨b, hb⟩ := h.child p hin hpf (Nat.le_of_succ_le_succ hlen) f
        ((hlast hin).symm.trans hf) w hw
      exact ⟨b, List.mem_cons_of_mem _ (List.mem_map_of_mem (f := Place.under v) hb)⟩
  case parent =>
    intro p hp q w heq hq
    rcases List.mem_cons.1 hp with rfl | hp
    · have hlen := congrArg List.length heq
      rw [List.length_append] at hlen
      exact absurd (List.length_eq_zero_iff.1 (by simpa using hlen)) hq
    · obtain ⟨p, hin, rfl⟩ := List.mem_map.1 hp
      rcases q with - | ⟨x, q⟩
      · exact absurd rfl hq
      · obtain ⟨rfl, htail⟩ := List.cons.inj heq
        -- The parent of a child of `v` is the root; any other has its parent below.
        by_cases hnil : q = []
        · subst hnil
          exact List.mem_cons_self
        · exact List.mem_cons_of_mem _ (List.mem_map_of_mem (f := Place.under v)
            (h.parent p hin q w htail hnil))

/-- A descent from one more root. -/
theorem Forest.append (hv : v ∉ roots) (h : Forest out n roots old places mid)
    (h' : Forest out n [v] mid places' new) :
    Forest out n (roots ++ [v]) old (places ++ places') new := by
  have hleft : ∀ {p}, p ∈ places → rank out (roots ++ [v]) p.path = rank out roots p.path :=
    fun hp ↦ rank_append_left (h.way _ hp).1 _
  have hhead : ∀ {p}, p ∈ places' → ∃ q, p.path = v :: q := by
    intro p hp
    obtain ⟨w, hw, heq⟩ := (h'.way p hp).1.head
    obtain rfl := List.mem_singleton.1 hw
    rcases hpath : p.path with - | ⟨x, q⟩
    · rw [hpath] at heq
      cases heq
    · rw [hpath] at heq
      exact ⟨q, by rw [Option.some.inj heq]⟩
  have hright : ∀ {p}, p ∈ places' → ∃ q, rank out (roots ++ [v]) p.path = roots.length :: q ∧
      rank out [v] p.path = 0 :: q := by
    intro p hp
    obtain ⟨q, hq⟩ := hhead hp
    refine ⟨rank out (out v) q, ?_, ?_⟩
    · rw [hq, rank, List.idxOf_append_of_notMem hv, List.idxOf_cons_self, Nat.add_zero]
    · rw [hq, rank, List.idxOf_cons_self]
  -- Every place under the old roots comes before every place under the new one.
  have hbefore : ∀ {p q}, p ∈ places → q ∈ places' →
      rank out (roots ++ [v]) p.path < rank out (roots ++ [v]) q.path := by
    intro p q hp hq
    obtain ⟨w, hw, heq⟩ := (h.way p hp).1.head
    obtain ⟨turns, hturns, -⟩ := hright hq
    rw [hleft hp, hturns]
    rcases hpath : p.path with - | ⟨x, path⟩
    · exact List.nil_lt_cons _ _
    · rw [hpath] at heq
      obtain rfl := Option.some.inj heq
      exact List.cons_lt_cons_iff.2 (.inl (List.idxOf_lt_length_iff.2 hw))
  -- What the one descent shows the other finds seen, so no vertex is shown in both.
  have hold : ∀ {p}, p ∈ places' → p.pruned = false → ∀ f, p.path.getLast? = some f →
      f ∉ mid := fun hp hpf f hf ↦ h'.fresh _ hp hpf f hf
  have hmid : ∀ {p}, p ∈ places → p.pruned = false → ∀ f, p.path.getLast? = some f → f ∈ mid :=
    fun hp hpf f hf ↦ (h.seen f).2 (.inr ⟨_, hp, hpf, hf⟩)
  constructor
  case way =>
    intro p hp
    rcases List.mem_append.1 hp with hp | hp
    · exact ⟨(h.way p hp).1.mono (List.subset_append_left _ _), (h.way p hp).2⟩
    · exact ⟨(h'.way p hp).1.mono (List.subset_append_right _ _), (h'.way p hp).2⟩
  case root =>
    intro w hw
    rcases List.mem_append.1 hw with hw | hw
    · exact (h.root w hw).imp fun _ ↦ List.mem_append_left _
    · exact (h'.root w hw).imp fun _ ↦ List.mem_append_right _
  case seen =>
    intro f
    rw [h'.seen, h.seen, or_assoc]
    simp only [List.mem_append]
    grind
  case fresh =>
    intro p hp hpf f hf hmem
    rcases List.mem_append.1 hp with hp | hp
    · exact h.fresh p hp hpf f hf hmem
    · exact hold hp hpf f hf ((h.seen f).2 (.inl hmem))
  case unique =>
    intro p hp q hq hpf hqf heq
    rcases List.mem_append.1 hp with hp | hp <;> rcases List.mem_append.1 hq with hq | hq
    · exact h.unique p hp q hq hpf hqf heq
    · obtain ⟨f, hf⟩ := (h.way p hp).1.exists_last
      exact absurd (hmid hp hpf f hf) (hold hq hqf f (heq ▸ hf))
    · obtain ⟨f, hf⟩ := (h.way q hq).1.exists_last
      exact absurd (hmid hq hqf f hf) (hold hp hpf f (heq ▸ hf))
    · exact h'.unique p hp q hq hpf hqf heq
  case pruned =>
    intro q hq hqf f hf
    rcases List.mem_append.1 hq with hq | hq
    · refine (h.pruned q hq hqf f hf).imp_right ?_
      rintro ⟨p, hp, hpf, hpl, hlt⟩
      exact ⟨p, List.mem_append_left _ hp, hpf, hpl, by rwa [hleft hp, hleft hq]⟩
    · rcases h'.pruned q hq hqf f hf with hmem | ⟨p, hp, hpf, hpl, hlt⟩
      -- Seen by the first descent: shown there, and therefore earlier.
      · refine ((h.seen f).1 hmem).imp_right ?_
        rintro ⟨p, hp, hpf, hpl⟩
        exact ⟨p, List.mem_append_left _ hp, hpf, hpl, hbefore hp hq⟩
      · refine .inr ⟨p, List.mem_append_right _ hp, hpf, hpl, ?_⟩
        obtain ⟨turns, heq, heq'⟩ := hright hp
        obtain ⟨turns', hqeq, hqeq'⟩ := hright hq
        rw [heq', hqeq', List.cons_lt_cons_iff] at hlt
        rw [heq, hqeq, List.cons_lt_cons_iff]
        exact .inr ⟨rfl, hlt.elim (fun hlt ↦ absurd hlt (lt_irrefl 0)) And.right⟩
  case child =>
    intro p hp hpf hlen f hf w hw
    rcases List.mem_append.1 hp with hp | hp
    · exact (h.child p hp hpf hlen f hf w hw).imp fun _ ↦ List.mem_append_left _
    · exact (h'.child p hp hpf hlen f hf w hw).imp fun _ ↦ List.mem_append_right _
  case parent =>
    intro p hp q w heq hq
    rcases List.mem_append.1 hp with hp | hp
    · exact List.mem_append_left _ (h.parent p hp q w heq hq)
    · exact List.mem_append_right _ (h'.parent p hp q w heq hq)

/-! ### One root after another -/

section Roots

variable (out) {n : ℕ} {v w : V} {l : List V} {seen : Finset V}

/-- A descent from some roots, one after another. -/
def descendAll (n : ℕ) : List V → Finset V → List (Place V) × Finset V
  | [], seen => ([], seen)
  | v :: l, seen =>
    let first := descend out n v seen
    let rest := descendAll n l first.2
    (first.1 ++ rest.1, rest.2)

variable {out}

/-- The loop over the roots is such a descent. -/
theorem foldl_descend (acc : List (Place V) × Finset V) :
    l.foldl (fun acc w ↦ ((acc.1 ++ (descend out n w acc.2).1), (descend out n w acc.2).2)) acc =
      (acc.1 ++ (descendAll out n l acc.2).1, (descendAll out n l acc.2).2) := by
  induction l generalizing acc with
  | nil => rw [List.foldl_nil, descendAll, List.append_nil]
  | cons v l ih =>
    rw [List.foldl_cons, ih, descendAll]
    exact Prod.ext (List.append_assoc _ _ _) rfl

theorem descend_of_mem (h : v ∈ seen) : descend out n v seen = ([⟨[v], true⟩], seen) := by
  rcases n with - | n <;> rw [descend, if_pos h]

/-- What was not seen is a place, with the descent from what it leads to below it. -/
theorem descend_succ (h : v ∉ seen) : descend out (n + 1) v seen =
    (⟨[v], false⟩ :: (descendAll out n (out v) (insert v seen)).1.map (Place.under v),
      (descendAll out n (out v) (insert v seen)).2) := by
  rw [descend, if_neg h]
  simp only [foldl_descend, List.nil_append]

/-- No descent from a list of roots forgets what was seen. -/
theorem subset_descendAll (h : ∀ v seen, seen ⊆ (descend out n v seen).2) (l : List V)
    (seen : Finset V) : seen ⊆ (descendAll out n l seen).2 := by
  induction l generalizing seen with
  | nil => exact Finset.Subset.refl seen
  | cons v l ih => exact (h v seen).trans (ih _)

/-- No descent forgets what was seen. -/
theorem subset_descend (n : ℕ) (v : V) (seen : Finset V) : seen ⊆ (descend out n v seen).2 := by
  induction n generalizing v seen with
  | zero =>
    rw [descend]
    split
    · exact Finset.Subset.refl seen
    · exact Finset.subset_insert v seen
  | succ n ih =>
    by_cases hv : v ∈ seen
    · rw [descend_of_mem hv]
    · rw [descend_succ hv]
      exact (Finset.subset_insert v seen).trans (subset_descendAll ih _ _)

/-- A descent has seen its root. -/
theorem mem_descend (n : ℕ) (v : V) (seen : Finset V) : v ∈ (descend out n v seen).2 := by
  by_cases hv : v ∈ seen
  · exact subset_descend n v seen hv
  · rcases n with - | n
    · rw [descend, if_neg hv]
      exact Finset.mem_insert_self v seen
    · rw [descend_succ hv]
      exact subset_descendAll (subset_descend n) _ _ (Finset.mem_insert_self v seen)

/-- The places that were not pruned. -/
def unpruned (places : List (Place V)) : List (Place V) :=
  places.filter fun p ↦ !p.pruned

/-- Roots that were seen can be left out. -/
theorem descendAll_filter (h : w ∈ seen) :
    unpruned (descendAll out n (l.filter fun v ↦ !v == w) seen).1 =
        unpruned (descendAll out n l seen).1 ∧
      (descendAll out n (l.filter fun v ↦ !v == w) seen).2 = (descendAll out n l seen).2 := by
  induction l generalizing seen with
  | nil => exact ⟨rfl, rfl⟩
  | cons v l ih =>
    by_cases hv : v = w
    · subst hv
      rw [List.filter_cons_of_neg (by simp), descendAll, descend_of_mem h]
      exact ih h
    · rw [List.filter_cons_of_pos (by simpa using hv), descendAll, descendAll]
      obtain ⟨hplaces, hseen⟩ := ih (subset_descend n v seen h)
      refine ⟨?_, hseen⟩
      rw [unpruned, unpruned, List.filter_append, List.filter_append]
      exact congrArg _ hplaces

omit [DecidableEq V] in
/-- Removing repetitions leaves none. -/
theorem nodup_eraseDups [BEq V] [LawfulBEq V] (l : List V) : l.eraseDups.Nodup := by
  induction hlength : l.length using Nat.strong_induction_on generalizing l with
  | _ m ih =>
  rcases l with - | ⟨v, l⟩
  · exact List.nodup_nil
  · rw [List.eraseDups_cons, List.nodup_cons, List.mem_eraseDups]
    have hshort : (l.filter fun u ↦ !u == v).length < m := by
      have hle := List.length_filter_le (fun u ↦ !u == v) l
      rw [List.length_cons] at hlength
      omega
    refine ⟨fun hmem ↦ ?_, ih _ hshort _ rfl⟩
    simp at hmem

/-- The same root need not be gone down twice. -/
theorem descendAll_eraseDups (out : V → List V) (n : ℕ) (l : List V) (seen : Finset V) :
    unpruned (descendAll out n l.eraseDups seen).1 = unpruned (descendAll out n l seen).1 ∧
      (descendAll out n l.eraseDups seen).2 = (descendAll out n l seen).2 := by
  induction hlength : l.length using Nat.strong_induction_on generalizing l seen with
  | _ m ih =>
  rcases l with - | ⟨v, l⟩
  · exact ⟨rfl, rfl⟩
  · rw [List.eraseDups_cons, descendAll, descendAll]
    have hshort : (l.filter fun u ↦ !u == v).length < m := by
      have hle := List.length_filter_le (fun u ↦ !u == v) l
      rw [List.length_cons] at hlength
      omega
    obtain ⟨hplaces, hseen⟩ := ih _ hshort _ (descend out n v seen).2 rfl
    have hv : v ∈ (descend out n v seen).2 := mem_descend n v seen
    obtain ⟨hplaces', hseen'⟩ := descendAll_filter (l := l) (n := n) hv
    refine ⟨?_, hseen.trans hseen'⟩
    rw [unpruned, unpruned, List.filter_append, List.filter_append]
    exact congrArg _ (hplaces.trans hplaces')

end Roots

/-- **A descent leaves a forest.** -/
theorem forest_descend (hout : ∀ v, (out v).Nodup) (n : ℕ) (v : V) (old : Finset V) :
    Forest out n [v] old (descend out n v old).1 (descend out n v old).2 := by
  induction n generalizing v old with
  | zero =>
    rw [descend]
    split_ifs with hv
    · exact .prune hv
    · exact .leaf hv
  | succ n ih =>
    rw [descend]
    split_ifs with hv
    · exact .prune hv
    · -- one child after another
      suffices hbelow : ∀ (l : List V), l.Nodup → ∀ acc : List (Place V) × Finset V,
          acc = l.foldl (fun acc w ↦ ((acc.1 ++ (descend out n w acc.2).1),
            (descend out n w acc.2).2)) ([], insert v old) →
          Forest out n l (insert v old) acc.1 acc.2 from
        .grow hv (hbelow (out v) (hout v) _ rfl)
      intro l hl
      induction l using List.reverseRecOn with
      | nil =>
        rintro _ rfl
        exact .nil
      | append_singleton l w ihl =>
        rintro _ rfl
        rw [List.foldl_append, List.foldl_cons, List.foldl_nil]
        obtain ⟨hl, -, hdisj⟩ := List.nodup_append.1 hl
        exact .append (fun hmem ↦ hdisj w hmem w (List.mem_singleton_self w) rfl)
          (ihl hl _ rfl) (ih w _)

end DirectedGraph
