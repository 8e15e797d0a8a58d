import Mathlib.Data.Finset.Max
import RustCodeMcp.Digraph.Descent

/-!
# When a descent loses nothing

A descent with a bound on its ways loses what lies below a vertex that it met too deep at first. It
loses nothing exactly when the first way to each vertex, in the order of the descent, is a shortest
one (`expands_iff`).

Two things are compared that have nothing to do with each other at first sight. `Expands` is about
the forest a descent leaves: that what it pruned stands unpruned somewhere, and no deeper.
`ShortestFirst` is about the graph and the order of its edges alone: that for each way which meets
no vertex twice there is one to the same end that is no longer and comes no later. **So whether
something is lost can be asked before the descent is made.**

The order matters: a vertex is met at the end of the way that comes first, which need not be the
shortest, and what lies below it is then cut at the wrong depth.
-/

namespace DirectedGraph

variable {V : Type*} [DecidableEq V] (out : V → List V)

/-- What is pruned stands unpruned somewhere else, at most as deep. -/
def Expands (places : List (Place V)) : Prop :=
  ∀ q ∈ places, q.pruned = true → ∃ p ∈ places, p.pruned = false ∧
    p.path.getLast? = q.path.getLast? ∧ p.path.length ≤ q.path.length

/-- To the end of each way of at most `n` edges that meets no vertex twice there is a shortest way
that comes no later. -/
def ShortestFirst (n : ℕ) (root : V) : Prop :=
  ∀ q, IsWay out [root] q → q.Nodup → q.length ≤ n + 1 → ∃ p, IsWay out [root] p ∧
    p.getLast? = q.getLast? ∧
    (∀ w, IsWay out [root] w → w.getLast? = q.getLast? → p.length ≤ w.length) ∧
    rank out [root] p ≤ rank out [root] q

variable {out} {n : ℕ} {root : V} {new : Finset V} {places : List (Place V)} {p q w : List V}
  {b : Bool}

namespace Forest

theorem prefix_mem (h : Forest out n [root] ∅ places new) (hp : ⟨p, b⟩ ∈ places) (hq : q ≠ [])
    (hpre : q <+: p) (hne : q ≠ p) : ⟨q, false⟩ ∈ places := by
  induction p using List.reverseRecOn generalizing b with
  | nil => exact absurd (List.prefix_nil.1 hpre) hq
  | append_singleton p v ih =>
    have hpre : q <+: p := (List.prefix_concat_iff.1 hpre).resolve_left hne
    have hmem := h.parent _ hp p v rfl fun hnil ↦ hq (List.prefix_nil.1 (hnil ▸ hpre))
    by_cases heq : q = p
    · exact heq ▸ hmem
    · exact ih hmem hpre heq

/-- The way to an unpruned place meets no vertex twice. -/
theorem nodup (h : Forest out n [root] ∅ places new) (hp : ⟨p, false⟩ ∈ places) : p.Nodup := by
  induction p using List.reverseRecOn with
  | nil => exact List.nodup_nil
  | append_singleton p v ih =>
    by_cases hnil : p = []
    · rw [hnil]
      exact List.nodup_singleton v
    · have hparent := h.parent _ hp p v rfl hnil
      refine List.nodup_append.2 ⟨ih hparent, List.nodup_singleton v, fun a ha x hx heq ↦ ?_⟩
      obtain rfl := List.mem_singleton.1 hx
      subst heq
      -- the way to its first occurrence is another place for it
      obtain ⟨s, t, rfl⟩ := List.append_of_mem ha
      have hpre : s ++ [a] <+: s ++ a :: t ++ [a] := ⟨t ++ [a], by simp⟩
      have hne : s ++ [a] ≠ s ++ a :: t ++ [a] := fun heq ↦ by
        have hlen := congrArg List.length heq
        simp at hlen
      have hfirst := h.prefix_mem hp (by simp) hpre hne
      refine hne (h.unique _ hfirst _ hp rfl rfl ?_)
      rw [List.getLast?_concat, List.getLast?_concat]

/-- For each place there is an unpruned one that comes no later. -/
theorem exists_unpruned (h : Forest out n [root] ∅ places new) (hq : ⟨q, b⟩ ∈ places) :
    ∃ p, ⟨p, false⟩ ∈ places ∧ p.getLast? = q.getLast? ∧
      rank out [root] p ≤ rank out [root] q := by
  rcases b with - | -
  · exact ⟨q, hq, rfl, le_rfl⟩
  · obtain ⟨f, hf⟩ := (h.way _ hq).1.exists_last
    rcases h.pruned _ hq rfl f hf with hmem | ⟨⟨p, b⟩, hp, hpruned, hlast, hlt⟩
    · exact absurd hmem (Finset.notMem_empty f)
    · obtain rfl : b = false := hpruned
      exact ⟨p, hp, hlast.trans hf.symm, hlt.le⟩

theorem exists_unpruned_root (h : Forest out n [root] ∅ places new) :
    ∃ p, ⟨p, false⟩ ∈ places ∧ p.getLast? = some root ∧ p.length = 1 ∧
      rank out [root] p ≤ rank out [root] [root] := by
  obtain ⟨b, hb⟩ := h.root root (List.mem_singleton_self root)
  obtain ⟨p, hp, hlast, hle⟩ := h.exists_unpruned hb
  refine ⟨p, hp, hlast, ?_, hle⟩
  obtain ⟨v, hv, hhead⟩ := (h.way _ hp).1.head
  rcases p with - | ⟨x, p⟩
  · cases hhead
  obtain rfl := Option.some.inj hhead
  obtain rfl := List.mem_singleton.1 hv
  rcases p with - | ⟨y, p⟩
  · rfl
  · exact absurd hle (not_le_of_gt (List.cons_lt_cons_iff.2 (.inr ⟨rfl, List.nil_lt_cons _ _⟩)))

omit [DecidableEq V] in
/-- A way of one vertex is at the root. -/
theorem root_of_isWay (hw : IsWay out [root] [v]) : v = root := by
  obtain ⟨x, hx, hhead⟩ := hw.head
  exact (Option.some.inj hhead).trans (List.mem_singleton.1 hx)

/-- One step further from an unpruned place that is not too deep. -/
theorem exists_unpruned_concat (h : Forest out n [root] ∅ places new) (hp : ⟨p, false⟩ ∈ places)
    (hlen : p.length ≤ n) {f v : V} (hlast : p.getLast? = some f) (hv : v ∈ out f) :
    ∃ q b, ⟨p ++ [v], b⟩ ∈ places ∧ ⟨q, false⟩ ∈ places ∧ q.getLast? = some v ∧
      rank out [root] q ≤ rank out [root] (p ++ [v]) := by
  obtain ⟨b, hb⟩ := h.child _ hp rfl hlen f hlast v hv
  obtain ⟨q, hq, hqlast, hle⟩ := h.exists_unpruned hb
  exact ⟨q, b, hb, hq, hqlast.trans (by simp), hle⟩

/-- If the forest expands what it prunes, it has each vertex no deeper than any way to it. -/
theorem exists_shallow (h : Forest out n [root] ∅ places new) (hexpands : Expands places)
    (hw : IsWay out [root] w) (hlen : w.length ≤ n + 1) :
    ∃ p, ⟨p, false⟩ ∈ places ∧ p.getLast? = w.getLast? ∧ p.length ≤ w.length := by
  induction w using List.reverseRecOn with
  | nil => exact absurd rfl hw.ne_nil
  | append_singleton w v ih =>
    by_cases hnil : w = []
    · subst hnil
      obtain rfl := root_of_isWay hw
      obtain ⟨p, hp, hlast, hone, -⟩ := h.exists_unpruned_root
      exact ⟨p, hp, hlast, hone.le⟩
    · obtain ⟨hway, f, hf, hv⟩ := hw.of_concat hnil
      rw [List.length_append, List.length_singleton] at hlen
      obtain ⟨p, hp, hlast, hle⟩ := ih hway (by omega)
      have hroom : p.length ≤ n := by omega
      obtain ⟨b, hb⟩ := h.child _ hp rfl hroom f (hlast.trans hf) v hv
      have hdeep : (p ++ [v]).length ≤ (w ++ [v]).length := by
        rw [List.length_append, List.length_append]
        omega
      rcases b with - | -
      · exact ⟨p ++ [v], hb, by simp, hdeep⟩
      · obtain ⟨⟨q, b⟩, hq, hpruned, hqlast, hqle⟩ := hexpands _ hb rfl
        obtain rfl : b = false := hpruned
        exact ⟨q, hq, hqlast.trans (by simp), hqle.trans hdeep⟩

/-- Then an unpruned place is at the end of a shortest way. -/
theorem length_le_of_expands (h : Forest out n [root] ∅ places new) (hexpands : Expands places)
    (hp : ⟨p, false⟩ ∈ places) (hw : IsWay out [root] w) (hlast : w.getLast? = p.getLast?) :
    p.length ≤ w.length := by
  by_cases hlen : w.length ≤ n + 1
  · obtain ⟨q, hq, hqlast, hle⟩ := h.exists_shallow hexpands hw hlen
    have heq := h.unique _ hq _ hp rfl rfl (hqlast.trans hlast)
    exact (congrArg List.length heq).symm.le.trans hle
  · have hdeep : p.length ≤ n + 1 := (h.way _ hp).2
    omega

theorem shortestFirst_of_expands (h : Forest out n [root] ∅ places new)
    (hexpands : Expands places) : ShortestFirst out n root := by
  intro q hq hnodup hlen
  suffices hplace : ∃ p, ⟨p, false⟩ ∈ places ∧ p.getLast? = q.getLast? ∧
      rank out [root] p ≤ rank out [root] q by
    obtain ⟨p, hp, hlast, hle⟩ := hplace
    exact ⟨p, (h.way _ hp).1, hlast,
      fun w hw hwlast ↦ h.length_le_of_expands hexpands hp hw (hwlast.trans hlast.symm), hle⟩
  induction q using List.reverseRecOn with
  | nil => exact absurd rfl hq.ne_nil
  | append_singleton q v ih =>
    by_cases hnil : q = []
    · subst hnil
      obtain rfl := root_of_isWay hq
      obtain ⟨p, hp, hlast, -, hle⟩ := h.exists_unpruned_root
      exact ⟨p, hp, hlast, hle⟩
    · obtain ⟨hway, f, hf, hv⟩ := hq.of_concat hnil
      rw [List.length_append, List.length_singleton] at hlen
      obtain ⟨p, hp, hlast, hle⟩ := ih hway (List.nodup_append.1 hnodup).1 (by omega)
      have hshort := h.length_le_of_expands hexpands hp hway hlast.symm
      obtain ⟨u, b, -, hu, hulast, hule⟩ :=
        h.exists_unpruned_concat hp (by omega) (hlast.trans hf) hv
      refine ⟨u, hu, hulast.trans (by simp), hule.trans ?_⟩
      refine rank_concat_le (h.way _ hp).1 hway (hlast.trans hf) hf hle (fun hpre ↦ ?_) v
      -- a way that meets no vertex twice does not begin with a shorter way to its end
      by_contra hne
      obtain ⟨t, rfl⟩ := hpre
      have ht : t ≠ [] := fun hnil ↦ hne (by rw [hnil, List.append_nil])
      have hmem : f ∈ t := by
        rw [List.getLast?_append, List.getLast?_eq_some_getLast ht] at hf
        exact Option.some.inj hf ▸ List.getLast_mem ht
      have hdisj := (List.nodup_append.1 (List.nodup_append.1 hnodup).1).2.2
      exact hdisj f (List.mem_of_getLast? (hlast.trans hf)) f hmem rfl

/-- A way that is no later than a shortest one is met by unpruned places that are no later, as long
as these are at the ends of shortest ways. -/
theorem exists_unpruned_of_shortest (h : Forest out n [root] ∅ places new)
    (hw : IsWay out [root] w) (hlen : w.length ≤ n + 1)
    (hshortest : ∀ u, IsWay out [root] u → u.getLast? = w.getLast? → w.length ≤ u.length)
    (hgood : ∀ u, ⟨u, false⟩ ∈ places → rank out [root] u ≤ rank out [root] w →
      ∀ x, IsWay out [root] x → x.getLast? = u.getLast? → u.length ≤ x.length) :
    ∃ p, ⟨p, false⟩ ∈ places ∧ p.getLast? = w.getLast? ∧
      rank out [root] p ≤ rank out [root] w := by
  induction w using List.reverseRecOn with
  | nil => exact absurd rfl hw.ne_nil
  | append_singleton w v ih =>
    by_cases hnil : w = []
    · subst hnil
      obtain rfl := root_of_isWay hw
      obtain ⟨p, hp, hlast, -, hle⟩ := h.exists_unpruned_root
      exact ⟨p, hp, hlast, hle⟩
    · obtain ⟨hway, f, hf, hv⟩ := hw.of_concat hnil
      rw [List.length_append, List.length_singleton] at hlen
      have hrank : rank out [root] w ≤ rank out [root] (w ++ [v]) := by
        rw [rank_concat hf]
        exact le_append _ _
      -- the beginning of a shortest way is one
      have hshort : ∀ u, IsWay out [root] u → u.getLast? = w.getLast? → w.length ≤ u.length := by
        intro u hu hulast
        have hle := hshortest (u ++ [v]) (hu.concat (hulast.trans hf) hv) (by simp)
        rw [List.length_append, List.length_append] at hle
        omega
      obtain ⟨p, hp, hlast, hle⟩ := ih hway (by omega) hshort
        fun u hu hle ↦ hgood u hu (hle.trans hrank)
      have heq : p.length = w.length := le_antisymm
        (hgood p hp (hle.trans hrank) w hway hlast.symm) (hshort p (h.way _ hp).1 hlast)
      obtain ⟨u, b, -, hu, hulast, hule⟩ :=
        h.exists_unpruned_concat hp (by omega) (hlast.trans hf) hv
      refine ⟨u, hu, hulast.trans (by simp), hule.trans ?_⟩
      exact rank_concat_le (h.way _ hp).1 hway (hlast.trans hf) hf hle
        (fun hpre ↦ hpre.eq_of_length heq) v

/-- The unpruned places are at the ends of shortest ways. -/
theorem length_le_of_shortestFirst (h : Forest out n [root] ∅ places new)
    (hfirst : ShortestFirst out n root) (hp : ⟨p, false⟩ ∈ places) (hw : IsWay out [root] w)
    (hlast : w.getLast? = p.getLast?) : p.length ≤ w.length := by
  classical
  by_contra! hlt
  -- the first of those that are not
  let bad : Finset (Place V) := places.toFinset.filter fun u ↦ u.pruned = false ∧
    ∃ x, IsWay out [root] x ∧ x.getLast? = u.path.getLast? ∧ x.length < u.path.length
  have hbad : bad.Nonempty := ⟨⟨p, false⟩, by
    simp only [bad, Finset.mem_filter, List.mem_toFinset]
    exact ⟨hp, trivial, w, hw, hlast, hlt⟩⟩
  obtain ⟨⟨q, b⟩, hq, hmin⟩ := bad.exists_min_image (fun u ↦ rank out [root] u.path) hbad
  simp only [bad, Finset.mem_filter, List.mem_toFinset] at hq hmin
  obtain ⟨hq, rfl, x, hx, hxlast, hxlt⟩ := hq
  obtain ⟨s, hs, hslast, hshortest, hle⟩ := hfirst q (h.way _ hq).1 (h.nodup hq) (h.way _ hq).2
  have hsx := hshortest x hx hxlast
  have hsq : s.length < q.length := hsx.trans_lt hxlt
  have hlt : rank out [root] s < rank out [root] q := lt_of_le_of_ne hle fun heq ↦ by
    have hlen := congrArg List.length heq
    rw [length_rank, length_rank] at hlen
    omega
  have hdeep : q.length ≤ n + 1 := (h.way _ hq).2
  obtain ⟨u, hu, hulast, hule⟩ := h.exists_unpruned_of_shortest hs (by omega)
    (fun u hu hulast ↦ hshortest u hu (hulast.trans hslast)) fun u hu hule y hy hylast ↦ by
      by_contra! hylt
      exact absurd (hmin ⟨u, false⟩ ⟨hu, rfl, y, hy, hylast, hylt⟩)
        (not_le_of_gt (hule.trans_lt hlt))
  have heq : u = q := h.unique _ hu _ hq rfl rfl (hulast.trans hslast)
  exact absurd (heq ▸ hule) (not_le_of_gt hlt)

/-- **A descent loses nothing exactly when it meets each vertex on a shortest way first.** -/
theorem expands_iff (h : Forest out n [root] ∅ places new) :
    Expands places ↔ ShortestFirst out n root := by
  refine ⟨h.shortestFirst_of_expands, fun hfirst ⟨q, b⟩ hq hpruned ↦ ?_⟩
  obtain ⟨p, hp, hlast, -⟩ := h.exists_unpruned hq
  exact ⟨_, hp, rfl, hlast, h.length_le_of_shortestFirst hfirst hp (h.way _ hq).1 hlast.symm⟩

end Forest

end DirectedGraph
