import Mathlib.Algebra.BigOperators.Group.List.Basic
import Mathlib.Algebra.GroupWithZero.Nat
import Mathlib.Data.List.Basic
import Mathlib.Data.List.Induction
import Mathlib.Data.List.Nodup
import Mathlib.Data.List.Perm.Basic

/-!
# Grouping by a key

`map.entry(key).or_default().push(value)` over a list. Each key that occurs has one group, the
elements with that key in their order (`groups_groupBy`).

`*map.entry(key).or_insert(default)` is changed by each element of its key in turn, so it is what
its group makes of the default (`accumulate_eq`), and an additive measure of the map is the sum over
the list (`sum_accumulate`). A list whose keys are distinct is a map itself: a look up by a key
finds the one element that has it (`find?_key_eq_some`).

The map is a list of entries with distinct keys, in the order in which the keys came; what iterates
it in another order is any permutation of it. So every statement here is either about the groups
themselves, or up to the order of the list.
-/

namespace Grouping

variable {α κ : Type} [DecidableEq κ] {l : List α} {key : α → κ}

/-- `map.entry(key).or_default().push(value)` -/
def push (key : κ) (value : α) : List (κ × List α) → List (κ × List α)
  | [] => [(key, [value])]
  | group :: groups =>
    if group.1 = key then (group.1, group.2 ++ [value]) :: groups
    else group :: push key value groups

/-- The groups of a list. -/
def groupBy (key : α → κ) (l : List α) : List (κ × List α) :=
  l.foldl (fun groups value ↦ push (key value) value groups) []

theorem keys_push (key : κ) (value : α) (groups : List (κ × List α)) :
    (push key value groups).map Prod.fst =
      if key ∈ groups.map Prod.fst then groups.map Prod.fst else groups.map Prod.fst ++ [key] := by
  induction groups with
  | nil => rfl
  | cons group groups ih =>
    rw [push]
    by_cases h : group.1 = key
    · rw [if_pos h, if_pos (by rw [List.map_cons, h]; exact List.mem_cons_self)]
      rfl
    · rw [if_neg h, List.map_cons, ih, List.map_cons]
      by_cases hmem : key ∈ groups.map Prod.fst
      · rw [if_pos hmem, if_pos (List.mem_cons_of_mem _ hmem)]
      · rw [if_neg hmem, if_neg, List.cons_append]
        rw [List.mem_cons, not_or]
        exact ⟨fun heq ↦ h heq.symm, hmem⟩

/-- A group after a push is an old one, or the one that was pushed to. -/
theorem mem_of_mem_push {key : κ} {value : α} {groups : List (κ × List α)}
    (hnodup : (groups.map Prod.fst).Nodup) {group : κ × List α}
    (h : group ∈ push key value groups) :
    group ∈ groups ∧ group.1 ≠ key ∨
      (∃ values, (key, values) ∈ groups ∧ group = (key, values ++ [value])) ∨
      key ∉ groups.map Prod.fst ∧ group = (key, [value]) := by
  induction groups with
  | nil => exact .inr (.inr ⟨List.not_mem_nil, List.mem_singleton.1 h⟩)
  | cons first groups ih =>
    obtain ⟨k, values⟩ := first
    rw [List.map_cons, List.nodup_cons] at hnodup
    rw [push] at h
    by_cases hk : k = key
    · subst hk
      rw [if_pos rfl] at h
      rcases List.mem_cons.1 h with rfl | h
      · exact .inr (.inl ⟨values, List.mem_cons_self, rfl⟩)
      · refine .inl ⟨List.mem_cons_of_mem _ h, fun heq ↦ hnodup.1 ?_⟩
        show k ∈ _
        rw [← heq]
        exact List.mem_map_of_mem h
    · rw [if_neg hk] at h
      rcases List.mem_cons.1 h with rfl | h
      · exact .inl ⟨List.mem_cons_self, hk⟩
      · rcases ih hnodup.2 h with ⟨hmem, hne⟩ | ⟨values', hmem, heq⟩ | ⟨hmem, heq⟩
        · exact .inl ⟨List.mem_cons_of_mem _ hmem, hne⟩
        · exact .inr (.inl ⟨values', List.mem_cons_of_mem _ hmem, heq⟩)
        · refine .inr (.inr ⟨?_, heq⟩)
          rw [List.map_cons, List.mem_cons, not_or]
          exact ⟨fun heq ↦ hk heq.symm, hmem⟩

/-- What a map of groups is after some elements. -/
structure Groups (key : α → κ) (l : List α) (groups : List (κ × List α)) : Prop where
  nodup : (groups.map Prod.fst).Nodup
  keys : ∀ k, k ∈ groups.map Prod.fst ↔ k ∈ l.map key
  values : ∀ group ∈ groups, group.2 = l.filter fun value ↦ key value = group.1

theorem Groups.push {groups : List (κ × List α)} (h : Groups key l groups) (value : α) :
    Groups key (l ++ [value]) (push (key value) value groups) where
  nodup := by
    rw [keys_push]
    split
    · exact h.nodup
    · rename_i hmem
      exact List.nodup_append.2 ⟨h.nodup, List.nodup_singleton _, by
        rintro a ha b hb rfl
        exact hmem (List.mem_singleton.1 hb ▸ ha)⟩
  keys k := by
    rw [keys_push, List.map_append, List.mem_append, ← h.keys]
    split
    · rename_i hmem
      refine ⟨.inl, ?_⟩
      rintro (hk | hk)
      · exact hk
      · exact List.mem_singleton.1 hk ▸ hmem
    · exact List.mem_append
  values group hgroup := by
    rw [List.filter_append]
    rcases mem_of_mem_push h.nodup hgroup with ⟨hmem, hne⟩ | ⟨values, hmem, rfl⟩ | ⟨hmem, rfl⟩
    · rw [List.filter_singleton, decide_eq_false hne.symm, h.values group hmem]
      exact (List.append_nil _).symm
    · rw [List.filter_singleton, decide_eq_true rfl, ← h.values _ hmem]
      rfl
    · rw [List.filter_singleton, decide_eq_true rfl, List.filter_eq_nil_iff.2]
      · rfl
      · intro other hother heq
        have hkey : key other = key value := of_decide_eq_true heq
        exact hmem ((h.keys _).2 (hkey ▸ List.mem_map_of_mem hother))

/-- **Each key has one group**, its elements in their order. -/
theorem groups_groupBy (key : α → κ) (l : List α) : Groups key l (groupBy key l) := by
  induction l using List.reverseRecOn with
  | nil => exact ⟨List.nodup_nil, fun _ ↦ Iff.rfl, fun _ h ↦ absurd h List.not_mem_nil⟩
  | append_singleton l value ih =>
    rw [groupBy, List.foldl_append]
    exact ih.push value

theorem flatten_push (key : κ) (value : α) (groups : List (κ × List α)) :
    ((push key value groups).map Prod.snd).flatten.Perm
      ((groups.map Prod.snd).flatten ++ [value]) := by
  induction groups with
  | nil => exact .refl _
  | cons group groups ih =>
    rw [push]
    split
    · show (group.2 ++ [value] ++ (groups.map Prod.snd).flatten).Perm
        (group.2 ++ (groups.map Prod.snd).flatten ++ [value])
      rw [List.append_assoc, List.append_assoc]
      exact List.perm_append_comm.append_left _
    · show (group.2 ++ ((push key value groups).map Prod.snd).flatten).Perm
        (group.2 ++ (groups.map Prod.snd).flatten ++ [value])
      rw [List.append_assoc]
      exact ih.append_left _

/-- Grouping loses nothing. -/
theorem flatten_groupBy (key : α → κ) (l : List α) :
    ((groupBy key l).map Prod.snd).flatten.Perm l := by
  induction l using List.reverseRecOn with
  | nil => exact .refl _
  | append_singleton l value ih =>
    rw [groupBy, List.foldl_append]
    exact (flatten_push _ _ _).trans (ih.append_right _)

/-- With keys that differ, each value is a group of its own. -/
theorem foldl_push_of_nodup {l : List (κ × α)} (h : (l.map Prod.fst).Nodup) :
    l.foldl (fun groups entry ↦ push entry.1 entry.2 groups) [] =
      l.map fun entry ↦ (entry.1, [entry.2]) := by
  have hpush : ∀ (key : κ) (value : α) (groups : List (κ × List α)),
      key ∉ groups.map Prod.fst → push key value groups = groups ++ [(key, [value])] := by
    intro key value groups
    induction groups with
    | nil => exact fun _ ↦ rfl
    | cons group groups ih =>
      intro hkey
      rw [List.map_cons, List.mem_cons, not_or] at hkey
      rw [push, if_neg (Ne.symm hkey.1), ih hkey.2]
      rfl
  induction l using List.reverseRecOn with
  | nil => rfl
  | append_singleton l entry ih =>
    rw [List.map_append, List.nodup_append] at h
    rw [List.foldl_append, ih h.1, List.map_append]
    refine hpush entry.1 entry.2 _ fun hmem ↦ ?_
    rw [List.map_map] at hmem
    exact h.2.2 entry.1 hmem entry.1 (List.mem_singleton.2 rfl) rfl

/-- The groups of all keys make up the list. -/
theorem flatMap_filter_perm {keys : List κ} (hnodup : keys.Nodup) (hmem : ∀ a ∈ l, key a ∈ keys) :
    (keys.flatMap fun k ↦ l.filter fun a ↦ key a = k).Perm l := by
  induction keys generalizing l with
  | nil =>
    rw [List.eq_nil_iff_forall_not_mem.2 fun a ha ↦ absurd (hmem a ha) List.not_mem_nil]
    rfl
  | cons k keys ih =>
    obtain ⟨hk, hnodup⟩ := List.nodup_cons.1 hnodup
    have hothers : (keys.flatMap fun k' ↦ l.filter fun a ↦ key a = k') =
        keys.flatMap fun k' ↦ (l.filter fun a ↦ !decide (key a = k)).filter fun a ↦ key a = k' := by
      refine List.flatMap_congr fun k' hk' ↦ ?_
      rw [List.filter_filter]
      refine List.filter_congr fun a _ ↦ ?_
      by_cases h : key a = k'
      · have hne : key a ≠ k := fun heq ↦ hk (heq ▸ h ▸ hk')
        simp [h, h ▸ hne]
      · simp [h]
    rw [List.flatMap_cons, hothers]
    refine ((ih hnodup fun a ha ↦ ?_).append_left _).trans (List.filter_append_perm _ l)
    obtain ⟨ha, hne⟩ := List.mem_filter.1 ha
    refine (List.mem_cons.1 (hmem a ha)).resolve_left fun heq ↦ ?_
    simp [heq] at hne

/-- Two lists that are made alike but for one place agree at that place, if they have the same
elements. -/
theorem eq_of_map_perm {β : Type} {f g : α → β} (hnodup : l.Nodup) {a : α}
    (ha : a ∈ l) (hsame : ∀ b ∈ l, b ≠ a → f b = g b) (h : (l.map f).Perm (l.map g)) :
    f a = g a := by
  obtain ⟨before, after, rfl⟩ := List.append_of_mem ha
  have hnot : a ∉ before ++ after := (List.nodup_middle.1 hnodup).notMem
  have hrest : (before ++ after).map f = (before ++ after).map g :=
    List.map_congr_left fun b hb ↦ hsame b (List.perm_middle.mem_iff.2 (List.mem_cons_of_mem _ hb))
      fun heq ↦ hnot (heq ▸ hb)
  have hperm : (f a :: (before ++ after).map f).Perm (g a :: (before ++ after).map f) := by
    nth_rewrite 2 [hrest]
    exact (List.perm_middle.map f).symm.trans (h.trans (List.perm_middle.map g))
  exact List.singleton_perm_singleton.1 ((List.perm_append_right_iff _).1 hperm)

/-! ### Accumulating -/

section Accumulate

variable {β : Type} {key : α → κ} {default : κ → β} {add : α → β → β} {l : List α}

/-- `f(map.entry(key).or_insert(default))` -/
def upsert (key : κ) (default : β) (f : β → β) : List (κ × β) → List (κ × β)
  | [] => [(key, f default)]
  | entry :: entries =>
    if entry.1 = key then (entry.1, f entry.2) :: entries
    else entry :: upsert key default f entries

/-- The values of a list, each key's elements in turn. -/
def accumulate (key : α → κ) (default : κ → β) (add : α → β → β) (l : List α) : List (κ × β) :=
  l.foldl (fun entries a ↦ upsert (key a) (default (key a)) (add a) entries) []

/-- What a group makes of the default. -/
def valueOf (default : κ → β) (add : α → β → β) (group : κ × List α) : κ × β :=
  (group.1, group.2.foldl (fun value a ↦ add a value) (default group.1))

theorem upsert_map_valueOf (a : α) (k : κ) (groups : List (κ × List α)) :
    upsert k (default k) (add a) (groups.map (valueOf default add)) =
      (push k a groups).map (valueOf default add) := by
  induction groups with
  | nil => rfl
  | cons group groups ih =>
    rw [push, List.map_cons, upsert]
    by_cases h : group.1 = k
    · rw [if_pos h, if_pos (show (valueOf default add group).1 = k from h), List.map_cons]
      show _ = valueOf default add (group.1, group.2 ++ [a]) :: _
      rw [valueOf, valueOf, List.foldl_append]
      rfl
    · rw [if_neg h, if_neg (show (valueOf default add group).1 ≠ k from h), ih, List.map_cons]

/-- **The value of a key is made of its group.** -/
theorem accumulate_eq (key : α → κ) (default : κ → β) (add : α → β → β) (l : List α) :
    accumulate key default add l = (groupBy key l).map (valueOf default add) := by
  induction l using List.reverseRecOn with
  | nil => rfl
  | append_singleton l a ih =>
    rw [accumulate, groupBy, List.foldl_append, List.foldl_append]
    show upsert _ _ _ (accumulate key default add l) = (push _ _ (groupBy key l)).map _
    rw [ih, upsert_map_valueOf]

theorem keys_accumulate :
    (accumulate key default add l).map Prod.fst = (groupBy key l).map Prod.fst := by
  rw [accumulate_eq, List.map_map]
  rfl

theorem nodup_keys_accumulate : ((accumulate key default add l).map Prod.fst).Nodup := by
  rw [keys_accumulate]
  exact (groups_groupBy key l).nodup

theorem mem_keys_accumulate {k : κ} :
    k ∈ (accumulate key default add l).map Prod.fst ↔ k ∈ l.map key := by
  rw [keys_accumulate]
  exact (groups_groupBy key l).keys k

/-- The value of a key, from its elements in their order. -/
theorem value_of_mem_accumulate {k : κ} {value : β}
    (h : (k, value) ∈ accumulate key default add l) :
    value = (l.filter fun a ↦ key a = k).foldl (fun value a ↦ add a value) (default k) := by
  rw [accumulate_eq] at h
  obtain ⟨group, hgroup, heq⟩ := List.mem_map.1 h
  obtain ⟨rfl, rfl⟩ := Prod.mk.inj heq
  rw [(groups_groupBy key l).values group hgroup]

/-- What the map is, but for its order. -/
theorem accumulate_perm {keys : List κ} (hnodup : keys.Nodup)
    (hkeys : ∀ k, k ∈ keys ↔ k ∈ l.map key) :
    (accumulate key default add l).Perm (keys.map fun k ↦
      (k, (l.filter fun a ↦ key a = k).foldl (fun value a ↦ add a value) (default k))) := by
  have hself : accumulate key default add l =
      ((accumulate key default add l).map Prod.fst).map fun k ↦
        (k, (l.filter fun a ↦ key a = k).foldl (fun value a ↦ add a value) (default k)) := by
    rw [List.map_map]
    refine (List.map_id _).symm.trans (List.map_congr_left fun entry hentry ↦ ?_)
    exact Prod.ext rfl (value_of_mem_accumulate hentry)
  rw [hself]
  refine ((List.perm_ext_iff_of_nodup nodup_keys_accumulate hnodup).2 fun k ↦ ?_).map _
  rw [mem_keys_accumulate, hkeys]

variable {f : κ → β → ℕ} {w : α → ℕ}

/-- An additive measure grows by what is added to one value. -/
theorem sum_upsert {k : κ} {n : ℕ} {value : β} {g : β → β} (hzero : f k value = 0)
    (hadd : ∀ value, f k (g value) = f k value + n) (entries : List (κ × β)) :
    ((upsert k value g entries).map fun entry ↦ f entry.1 entry.2).sum =
      (entries.map fun entry ↦ f entry.1 entry.2).sum + n := by
  induction entries with
  | nil =>
    show f k (g value) + 0 = 0 + n
    rw [hadd, hzero, Nat.add_zero]
  | cons entry entries ih =>
    rw [upsert]
    by_cases h : entry.1 = k
    · rw [if_pos h, List.map_cons, List.map_cons, List.sum_cons, List.sum_cons]
      simp only [h, hadd]
      omega
    · rw [if_neg h, List.map_cons, List.map_cons, List.sum_cons, List.sum_cons, ih]
      omega

omit [DecidableEq κ] in
theorem sum_flatMap (f : α → List ℕ) (l : List α) :
    (l.flatMap f).sum = (l.map fun a ↦ (f a).sum).sum := by
  induction l with
  | nil => rfl
  | cons a l ih => rw [List.flatMap_cons, List.sum_append, List.map_cons, List.sum_cons, ih]

omit [DecidableEq κ] in
/-- A sum over some elements counts the others for nothing. -/
theorem sum_map_filter (p : α → Bool) (f : α → ℕ) (l : List α) :
    ((l.filter p).map f).sum = (l.map fun a ↦ if p a then f a else 0).sum := by
  induction l with
  | nil => rfl
  | cons a l ih =>
    rw [List.map_cons, List.sum_cons, ← ih]
    rcases h : p a with - | -
    · rw [List.filter_cons_of_neg (by simp [h])]
      simp
    · rw [List.filter_cons_of_pos h]
      simp

/-- **Nothing is lost and nothing is counted twice.** -/
theorem sum_accumulate (hzero : ∀ k, f k (default k) = 0)
    (hadd : ∀ a value, f (key a) (add a value) = f (key a) value + w a) :
    ((accumulate key default add l).map fun entry ↦ f entry.1 entry.2).sum =
      (l.map w).sum := by
  induction l using List.reverseRecOn with
  | nil => rfl
  | append_singleton l a ih =>
    rw [accumulate, List.foldl_append, List.map_append, List.sum_append, ← ih]
    exact sum_upsert (hzero _) (hadd a) _

omit [DecidableEq κ] in
/-- A map of counters. -/
theorem sum_counts [DecidableEq α] (p : α → Bool) (l : List α) :
    ((accumulate id (fun _ ↦ 0) (fun _ count ↦ count + 1) l).map fun entry ↦
      if p entry.1 then entry.2 else 0).sum = (l.filter p).length := by
  have hsum : ((accumulate id (fun _ ↦ 0) (fun _ count ↦ count + 1) l).map fun entry ↦
      if p entry.1 then entry.2 else 0).sum = (l.map fun a ↦ if p a then 1 else 0).sum := by
    refine sum_accumulate (f := fun a count ↦ if p a then count else 0) ?_ ?_
    · exact fun a ↦ ite_self 0
    · intro a count
      rcases h : p a with - | - <;> simp [h]
  rw [hsum, ← sum_map_filter, List.map_const', List.sum_replicate_nat, Nat.mul_one]

end Accumulate

/-- **A count is the sum of the counts of its groups.** -/
theorem sum_countP {keys : List κ} (hnodup : keys.Nodup) (key : α → κ) {p : α → Bool}
    (h : ∀ a ∈ l, p a = true → key a ∈ keys) :
    (keys.map fun k ↦ l.countP fun a ↦ p a && decide (key a = k)).sum = l.countP p := by
  have hkeys : ∀ a ∈ l.filter p, key a ∈ keys := fun a ha ↦
    h a (List.mem_filter.1 ha).1 (List.mem_filter.1 ha).2
  have hlength := (flatMap_filter_perm hnodup hkeys).length_eq
  rw [List.length_flatMap] at hlength
  rw [List.countP_eq_length_filter, ← hlength]
  refine congrArg List.sum (List.map_congr_left fun k _ ↦ ?_)
  rw [List.countP_eq_length_filter, List.filter_filter]
  exact congrArg List.length (List.filter_congr fun a _ ↦ Bool.and_comm _ _)

/-- **What is found by a key** is the element with it, where no two have the same. -/
theorem find?_key_eq_some (hnodup : (l.map key).Nodup) {k : κ} {a : α} :
    (l.find? fun b ↦ key b = k) = some a ↔ a ∈ l ∧ key a = k := by
  constructor
  · intro h
    exact ⟨List.mem_of_find?_eq_some h, by simpa using List.find?_some h⟩
  · rintro ⟨hmem, rfl⟩
    obtain ⟨b, hb⟩ : ∃ b, (l.find? fun b ↦ key b = key a) = some b :=
      Option.isSome_iff_exists.1 (List.find?_isSome.2 ⟨a, hmem, decide_eq_true rfl⟩)
    have hkey : key b = key a := by simpa using List.find?_some hb
    rw [hb, List.inj_on_of_nodup_map hnodup (List.mem_of_find?_eq_some hb) hmem hkey]

end Grouping
