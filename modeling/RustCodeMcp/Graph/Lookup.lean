import RustCodeMcp.Graph.Meanings
import RustCodeMcp.Order.Grouping

/-!
# The lookup of a name

Where no name that a lookup goes through is silent, it gives the only meaning of the name, in any
order of the ids.

The lookup is compared with meanings in two steps. `Follows` says that it reports, or comes to
something a lookup with so many hops may come to (`Answers`); that much holds without any condition
on silence, by going through its phases. `Exact` says that it reports, or finds what the name means;
the difference is what is silent here, and on the way. **The order of the ids is no hypothesis in
either**: it enters only where a silent name is shown to have two answers, by putting the nodes that
matter to the front.

In the order of the argument:

* `lookupInner_exact`: away from the silent names the lookup finds what the language means;
* `lookup_settled`: a name is settled where nothing silent is met, and where nothing silent is met
  on the way, only then;
* `lookup_picks`: of several meanings, the order of the ids of the bindings picks one.
-/

namespace RustCodeMcp.Navigation

variable {N : Type}

/-! ### The first phase -/

section Scan

variable [DecidableEq N] {x y : Node N}

theorem crateRootPair_iff : crateRootPair x y = true ↔ x.CrateOf y ∨ y.CrateOf x := by
  simp only [crateRootPair, Node.CrateOf, Bool.and_eq_true, Bool.or_eq_true, decide_eq_true_eq]
  grind

/-- A module that has been found is kept, unless something else follows. -/
theorem foldlM_scanStep_module (name : Name) {root : Node N} (hroot : root.kind = .module)
    (l : List (Node N)) :
    (l.foldlM (scanStep name) (some root) = .ok (some root) ∧ ∀ y ∈ l, y.CrateOf root) ∨
      (∃ e, l.foldlM (scanStep name) (some root) = .error e) ∧ ∃ y ∈ l, ¬ y.CrateOf root := by
  induction l with
  | nil => exact .inl ⟨rfl, nofun⟩
  | cons y l ih =>
    have hpair : crateRootPair root y = true ↔ y.CrateOf root := by
      rw [crateRootPair_iff]
      exact or_iff_right fun h ↦ h.not_module hroot
    rw [List.foldlM_cons]
    rcases hp : crateRootPair root y with - | -
    · refine .inr ⟨⟨.ambiguous name root.id y.id, ?_⟩, y, List.mem_cons_self, ?_⟩
      · simp [scanStep, hp, bind, Except.bind]
      · rw [← hpair, hp]
        nofun
    · have hstep : scanStep name (some root) y = .ok (some root) := by
        simp [scanStep, hp, hroot]
      rw [hstep]
      rcases ih with ⟨hok, hall⟩ | ⟨herr, z, hz, hnot⟩
      · refine .inl ⟨hok, ?_⟩
        simpa using ⟨hpair.1 hp, hall⟩
      · exact .inr ⟨herr, z, List.mem_cons_of_mem _ hz, hnot⟩

/-- The scan gives the only node beside the crates of its module, or there are two that do not go
together. -/
theorem foldlM_scanStep_cases (name : Name) {l : List (Node N)} (hl : l.Nodup) :
    (l = [] ∧ l.foldlM (scanStep name) none = .ok none) ∨
      (∃ x ∈ l, l.foldlM (scanStep name) none = .ok (some x) ∧
        ∀ y ∈ l, y = x ∨ y.CrateOf x) ∨
      (∃ e, l.foldlM (scanStep name) none = .error e) ∧
        ∃ x ∈ l, ∃ y ∈ l, x ≠ y ∧ ¬ x.CrateOf y ∧ ¬ y.CrateOf x := by
  rcases l with - | ⟨x, - | ⟨y, l⟩⟩
  · exact .inl ⟨rfl, rfl⟩
  · exact .inr (.inl ⟨x, List.mem_cons_self, rfl, by simp⟩)
  have hne : x ≠ y := by
    rintro rfl
    simp at hl
  have hfirst : (x :: y :: l).foldlM (scanStep name) none =
      (y :: l).foldlM (scanStep name) (some x) := rfl
  rw [hfirst]
  by_cases hx : x.kind = .module
  · rcases foldlM_scanStep_module name hx (y :: l) with ⟨hok, hall⟩ | ⟨herr, z, hz, hnot⟩
    · exact .inr (.inl ⟨x, List.mem_cons_self, hok,
      List.forall_mem_cons.2 ⟨.inl rfl, fun z hz ↦ .inr (hall z hz)⟩⟩)
    · refine .inr (.inr ⟨herr, x, List.mem_cons_self, z, List.mem_cons_of_mem _ hz, ?_, ?_, hnot⟩)
      · rintro rfl
        exact (List.nodup_cons.1 hl).1 hz
      · exact fun h ↦ h.not_module hx
  rcases hp : crateRootPair x y with - | -
  · have hpair := crateRootPair_iff.not.1 (by rw [hp]; nofun)
    refine .inr (.inr ⟨⟨.ambiguous name x.id y.id, ?_⟩, x, List.mem_cons_self, y, by simp, hne,
      fun h ↦ hpair (.inl h), fun h ↦ hpair (.inr h)⟩)
    simp [scanStep, hp, bind, Except.bind]
  · have hof : x.CrateOf y := (crateRootPair_iff.1 hp).resolve_right fun h ↦ hx h.2.1
    have hstep : (y :: l).foldlM (scanStep name) (some x) =
        l.foldlM (scanStep name) (some y) := by
      simp [scanStep, hp, hx, bind, Except.bind]
    rw [hstep]
    rcases foldlM_scanStep_module name hof.2.1 l with ⟨hok, hall⟩ | ⟨herr, z, hz, hnot⟩
    · exact .inr (.inl ⟨y, by simp, hok, List.forall_mem_cons.2 ⟨.inr hof,
        List.forall_mem_cons.2 ⟨.inl rfl, fun z hz ↦ .inr (hall z hz)⟩⟩⟩)
    · refine .inr (.inr ⟨herr, y, by simp, z, by simp [hz], ?_, ?_, hnot⟩)
      · rintro rfl
        exact (List.nodup_cons.1 (List.nodup_cons.1 hl).2).1 hz
      · exact fun h ↦ h.not_module hof.2.1

end Scan

/-! ### The lookup -/

theorem sole_eq_some {l : List (Node N)} (hl : l.Nodup) {x : Node N} :
    sole l = some x ↔ x ∈ l ∧ ∀ y ∈ l, y = x := by
  rcases l with - | ⟨y, - | ⟨z, l⟩⟩
  · simp [sole]
  · simp [sole]
    grind
  · simp [sole]
    grind

namespace OpenedSnapshot

section

variable (snap : OpenedSnapshot N)

/-- What a snapshot has, without its order. -/
def content : Content N where
  nodes := {node | node ∈ snap.nodes}
  bindings := {binding | binding ∈ snap.bindings}

theorem exists_of_perm {nodes : List (Node N)}
    (h : nodes.Perm snap.nodes) :
    ∃ other : OpenedSnapshot N, other.nodes = nodes ∧ other.content = snap.content := by
  refine ⟨⟨nodes, (h.map _).nodup_iff.2 snap.nodup, snap.bindings⟩, rfl, ?_⟩
  ext x
  · exact h.mem_iff
  · exact Iff.rfl

end

variable [DecidableEq N] {snap : OpenedSnapshot N} {hops : ℕ} {name : Name} {x : Node N}

theorem get_eq_some {id : N} : snap.get id = some x ↔ x ∈ snap.nodes ∧ x.id = id :=
  Grouping.find?_key_eq_some snap.nodup

/-- A node matches a selector that selects it. -/
theorem matchesSelector_iff {sel : Selector} :
    snap.matchesSelector sel x = true ↔ snap.content.Selects sel x := by
  rw [matchesSelector, Bool.and_eq_true, decide_eq_true_eq, Option.all_eq_true]
  refine and_congr_right fun _ ↦ forall₂_congr fun kind _ ↦ ?_
  simp only [Option.any_eq_true, Option.bind_eq_some_iff, get_eq_some, Bool.and_eq_true,
    decide_eq_true_eq, Option.all_eq_true]
  constructor
  · rintro ⟨krate, ⟨id, hid, hmem, rfl⟩, hkind, hroot⟩
    exact ⟨krate, hmem, hid, hkind, hroot⟩
  · rintro ⟨krate, hmem, hid, hkind, hroot⟩
    exact ⟨krate, ⟨krate.id, hid, hmem, rfl⟩, hkind, hroot⟩

/-- The nodes of a name are those that match its selector. -/
theorem mem_matching : x ∈ snap.nodes.filter (snap.matchesSelector (selector name)) ↔
    snap.content.Named name x := by
  rw [List.mem_filter, matchesSelector_iff]
  exact Iff.rfl

/-- The scan finds nothing, the canonical node, or a clash. -/
theorem canonicalScan_cases (snap : OpenedSnapshot N) (name : Name) :
    (snap.canonicalScan name = .ok none ∧ ∀ x, ¬ snap.content.Canonical name x) ∨
      (∃ x, snap.canonicalScan name = .ok (some x) ∧ snap.content.Canonical name x ∧
        ∀ y, snap.content.Canonical name y → y = x) ∨
      (∃ e, snap.canonicalScan name = .error e) ∧
        (snap.content.Clash name ∨ snap.content.Doubled name) := by
  have hnodup : (snap.nodes.filter (snap.matchesSelector (selector name))).Nodup :=
    (List.Nodup.of_map _ snap.nodup).filter _
  rcases foldlM_scanStep_cases name hnodup with
    ⟨hnil, hok⟩ | ⟨x, hx, hok, hall⟩ | ⟨herr, x, hx, y, hy, hne, hxy, hyx⟩
  · refine .inl ⟨hok, fun x hx ↦ ?_⟩
    have := mem_matching.2 hx.1
    rw [hnil] at this
    nomatch this
  · refine .inr (.inl ⟨x, hok, ⟨mem_matching.1 hx, fun y hy hof ↦ ?_⟩, fun y hy ↦ ?_⟩)
    · rcases hall y (mem_matching.2 hy) with rfl | hback
      · exact hof.not_module hof.2.1
      · exact hback.not_module hof.2.1
    · rcases hall y (mem_matching.2 hy.1) with rfl | hof
      · rfl
      · exact absurd hof (hy.2 x (mem_matching.1 hx))
  · exact .inr (.inr ⟨herr, Content.clash_or_doubled (mem_matching.1 hx) (mem_matching.1 hy) hne
      hxy hyx⟩)

/-- The lookup reports, or it finds one of what the name may come to. -/
def Follows (snap : OpenedSnapshot N) (hops : ℕ) (name : Name)
    (result : Except (LookupError N) (Option (Node N))) : Prop :=
  (snap.content.Reports hops name ∧ ∃ e, result = .error e) ∨
    (¬ snap.content.Reports hops name ∧ ∃ found, result = .ok found ∧
      (∀ x, found = some x → snap.content.Answers hops name x) ∧
      ∀ x, snap.content.Answers hops name x → found.isSome)

/-- The lookup reports, or it finds what the name comes to. -/
def Exact (snap : OpenedSnapshot N) (hops : ℕ) (name : Name)
    (result : Except (LookupError N) (Option (Node N))) : Prop :=
  (snap.content.Reports hops name ∧ ∃ e, result = .error e) ∨
    (¬ snap.content.Reports hops name ∧
      ∃ found, result = .ok found ∧ ∀ x, found = some x ↔ snap.content.Answers hops name x)

/-- Where nothing is silent, what a lookup may come to is what the name means. -/
theorem Follows.exact {result : Except (LookupError N) (Option (Node N))}
    (h : snap.Follows hops name result) (hsilent : ¬ snap.content.SilentHere hops name) :
    snap.Exact hops name result := by
  refine h.imp_right fun ⟨hreports, found, hok, hsome, hany⟩ ↦
    ⟨hreports, found, hok, fun x ↦ ⟨hsome x, fun hx ↦ ?_⟩⟩
  obtain ⟨y, rfl⟩ := Option.isSome_iff_exists.1 (hany x hx)
  by_contra hne
  exact hsilent (.inr ⟨hreports, x, y, hx, (hsome y rfl).denotes, fun heq ↦ hne (heq ▸ rfl)⟩)

/-- The member of a type, if only one fits. -/
theorem lookupImplModuleItemAlias_cases
    {lookup : Name → Except (LookupError N) (Option (Node N))}
    (hlookup : ∀ modulePrefix typeName memberName,
      implModuleItemAliasParts name = some (modulePrefix, typeName, memberName) →
        snap.Exact hops modulePrefix (lookup modulePrefix)) :
    (∃ modulePrefix typeName memberName,
        implModuleItemAliasParts name = some (modulePrefix, typeName, memberName) ∧
          snap.content.Reports hops modulePrefix) ∧
        (∃ e, snap.lookupImplModuleItemAlias lookup name = .error e) ∨
      (∀ modulePrefix typeName memberName,
        implModuleItemAliasParts name = some (modulePrefix, typeName, memberName) →
          ¬ snap.content.Reports hops modulePrefix) ∧
        ∃ found, snap.lookupImplModuleItemAlias lookup name = .ok found ∧
          ∀ x, found = some x ↔ snap.content.AnswersMember hops name x := by
  rw [lookupImplModuleItemAlias]
  rcases hparts : implModuleItemAliasParts name with - | ⟨modulePrefix, typeName, memberName⟩
  · refine .inr ⟨nofun, none, rfl, fun x ↦ ?_⟩
    simp [Content.AnswersMember, hparts]
  rcases hlookup _ _ _ hparts with ⟨hreports, e, herr⟩ | ⟨hreports, found, hok, hfound⟩
  · refine .inl ⟨⟨_, _, _, rfl, hreports⟩, e, ?_⟩
    simp [herr, bind, Except.bind]
  refine .inr ⟨?_, ?_⟩
  · rintro _ _ _ ⟨⟩
    exact hreports
  have hanswers : ∀ x, snap.content.AnswersMember hops name x ↔ ∃ root, found = some root ∧
      snap.content.Member root typeName memberName x ∧
        ∀ y, snap.content.Member root typeName memberName y → y = x := by
    intro x
    simp [Content.AnswersMember, hparts, hfound]
  simp only [hok, bind, Except.bind]
  rcases found with - | root
  · exact ⟨none, rfl, fun x ↦ by simp [hanswers]⟩
  by_cases hkind : root.kind = .module
  · have hmem : ∀ x, x ∈ snap.nodes.filter (fun node ↦ isImplModuleItemAliasCandidate node
        root.crateId root.file typeName memberName) ↔
        snap.content.Member root typeName memberName x := by
      intro x
      simp [Content.Member, hkind, content]
    refine ⟨_, if_neg (not_not.2 hkind), fun x ↦ ?_⟩
    rw [sole_eq_some ((List.Nodup.of_map _ snap.nodup).filter _), hanswers]
    simp [hmem]
  · refine ⟨none, if_pos hkind, fun x ↦ ?_⟩
    simp [hanswers, Content.Member, hkind]

/-- What a re-export leads to is one of the re-exports. -/
theorem reexport_of_eq_some {before : Node N} {leaf : Name}
    (h : snap.reexport before.id leaf = some x) : snap.content.Reexport before leaf x := by
  obtain ⟨binding, hmem, hsome⟩ := List.exists_of_findSome?_eq_some h
  rw [bindingsForFromModule, List.mem_filter, decide_eq_true_eq] at hmem
  simp only [Option.ite_none_left_eq_some, ne_eq, not_not, get_eq_some] at hsome
  obtain ⟨hleaf, hkind, hx, hid⟩ := hsome
  exact ⟨hx, binding, hmem.1, hmem.2, hleaf, hkind, hid.symm⟩

theorem exists_of_reexport {before : Node N} {leaf : Name}
    (h : snap.content.Reexport before leaf x) : ∃ y, snap.reexport before.id leaf = some y := by
  obtain ⟨hx, binding, hmem, hfrom, hleaf, hkind, hid⟩ := h
  rw [← Option.isSome_iff_exists, reexport, List.findSome?_isSome_iff]
  refine ⟨binding, List.mem_filter.2 ⟨hmem, decide_eq_true hfrom⟩, ?_⟩
  simp [hleaf, hkind, get_eq_some.2 ⟨hx, hid.symm⟩]

theorem follows_error (e : LookupError N) (hdoubled : snap.content.Doubled name →
    snap.content.Clash name) (hscan : snap.content.Clash name ∨ snap.content.Doubled name) :
    snap.Follows hops name (.error e) :=
  .inl ⟨.here (hscan.elim id hdoubled), e, rfl⟩

theorem follows_some (hreports : ¬ snap.content.Reports hops name)
    (hx : snap.content.Answers hops name x) : snap.Follows hops name (.ok (some x)) := by
  refine .inr ⟨hreports, some x, rfl, ?_, fun _ _ ↦ rfl⟩
  rintro _ ⟨⟩
  exact hx

theorem follows_none (hreports : ¬ snap.content.Reports hops name)
    (hnone : ∀ x, ¬ snap.content.Answers hops name x) : snap.Follows hops name (.ok none) :=
  .inr ⟨hreports, none, rfl, nofun, fun x hx ↦ absurd hx (hnone x)⟩

/-- The second phase. -/
theorem phase2_follows (hscan : snap.canonicalScan name = .ok none)
    (hnone : ∀ x, ¬ snap.content.Canonical name x)
    (hway : ∀ next, snap.content.LooksUp hops name next →
      snap.Exact hops next (snap.lookupInner hops next)) :
    snap.Follows (hops + 1) name (snap.lookupInner (hops + 1) name) := by
  rw [lookupInner, hscan]
  simp only [bind, Except.bind]
  have hmodulePrefix : ∀ modulePrefix typeName memberName,
      implModuleItemAliasParts name = some (modulePrefix, typeName, memberName) →
        snap.Exact hops modulePrefix (snap.lookupInner hops modulePrefix) :=
    fun modulePrefix _ _ hparts ↦ hway modulePrefix (.module hnone hparts)
  -- First through the module that an impl's name begins with.
  rcases lookupImplModuleItemAlias_cases hmodulePrefix with
    ⟨⟨_, _, _, hparts, hreports⟩, e, herr⟩ | ⟨hmodule, found, halias, hfound⟩
  · rw [herr]
    exact .inl ⟨.module hnone hparts hreports, e, rfl⟩
  rw [halias]
  rcases found with - | x
  case some =>
    have hx := (hfound x).1 rfl
    exact follows_some (Content.not_reports_succ hnone hmodule fun hno ↦ absurd hx (hno x))
      hx.answers
  have hno : ∀ x, ¬ snap.content.AnswersMember hops name x := fun x hx ↦ nomatch (hfound x).2 hx
  -- Then through what comes before the last part; a name of one part has nothing before it.
  rcases hparts : prefixAndLeaf name with - | ⟨before, leaf⟩
  · refine follows_none (Content.not_reports_succ hnone hmodule fun _ _ _ h ↦ ?_) fun x hx ↦ ?_
    · rw [hparts] at h
      nomatch h
    · rcases (Content.answers_succ hnone).1 hx with hx | ⟨_, _, _, h, -⟩
      · exact hno x hx
      · rw [hparts] at h
        nomatch h
  rcases hway before (.before hnone hmodule hno hparts) with
    ⟨hreports, e, herr⟩ | ⟨hbefore, found, hok, hfound⟩
  · simp only [herr]
    exact .inl ⟨.before hnone hno hparts hreports, e, rfl⟩
  have hreports : ¬ snap.content.Reports (hops + 1) name := by
    refine Content.not_reports_succ hnone hmodule fun _ _ _ h ↦ ?_
    rw [hparts] at h
    obtain ⟨⟩ := h
    exact hbefore
  -- Only a re-export of what was found is left to answer.
  have hanswers : ∀ x, snap.content.Answers (hops + 1) name x ↔
      ∃ y, found = some y ∧ snap.content.Reexport y leaf x := by
    intro x
    rw [Content.answers_succ hnone, or_iff_right (hno x)]
    simp [hparts, hfound]
  simp only [hok]
  rcases found with - | y
  · exact follows_none hreports fun x hx ↦ by simp [hanswers] at hx
  show snap.Follows (hops + 1) name (.ok (snap.reexport y.id leaf))
  rcases hto : snap.reexport y.id leaf with - | x
  · refine follows_none hreports fun x hx ↦ ?_
    obtain ⟨_, ⟨⟩, hx⟩ := (hanswers x).1 hx
    obtain ⟨z, hz⟩ := exists_of_reexport hx
    rw [hto] at hz
    nomatch hz
  · exact follows_some hreports ((hanswers x).2 ⟨y, rfl, reexport_of_eq_some hto⟩)

/-- A lookup without hops. -/
theorem lookupInner_zero_follows
    (hdoubled : snap.content.Doubled name → snap.content.Clash name) :
    snap.Follows 0 name (snap.lookupInner 0 name) := by
  rw [lookupInner]
  rcases snap.canonicalScan_cases name with ⟨hok, hnone⟩ | ⟨x, hok, hx, hone⟩ | ⟨⟨e, herr⟩, hscan⟩
  · rw [hok]
    refine follows_none (Content.not_reports_zero hnone) ?_
    rintro x ⟨hx⟩
    exact hnone x hx
  · rw [hok]
    exact follows_some (Content.not_reports_of_canonical hx hone) (.canonical hx)
  · rw [herr]
    exact follows_error e hdoubled hscan

/-- A lookup with one hop more. -/
theorem lookupInner_succ_follows
    (hdoubled : snap.content.Doubled name → snap.content.Clash name)
    (hway : ∀ next, snap.content.LooksUp hops name next →
      snap.Exact hops next (snap.lookupInner hops next)) :
    snap.Follows (hops + 1) name (snap.lookupInner (hops + 1) name) := by
  rcases snap.canonicalScan_cases name with ⟨hok, hnone⟩ | ⟨x, hok, hx, hone⟩ | ⟨⟨e, herr⟩, hscan⟩
  · exact phase2_follows hok hnone hway
  · rw [lookupInner, hok]
    exact follows_some (Content.not_reports_of_canonical hx hone) (.canonical hx)
  · rw [lookupInner, herr]
    exact follows_error e hdoubled hscan

/-- **Away from the silent names the lookup is exact.** -/
theorem lookupInner_exact (snap : OpenedSnapshot N) (hops : ℕ) :
    ∀ name, ¬ snap.content.Silent hops name →
      snap.Exact hops name (snap.lookupInner hops name) := by
  induction hops with
  | zero =>
    intro name h
    refine (lookupInner_zero_follows fun hdoubled ↦ ?_).exact fun hs ↦ h (.here hs)
    by_contra hclash
    exact h (.here (.inl ⟨hdoubled, hclash⟩))
  | succ hops ih =>
    intro name h
    refine (lookupInner_succ_follows (fun hdoubled ↦ ?_) fun next hnext ↦
      ih next fun hs ↦ h (.onTheWay hnext hs)).exact fun hs ↦ h (.here hs)
    by_contra hclash
    exact h (.here (.inl ⟨hdoubled, hclash⟩))

/-! ### Other orders -/

/-- Some nodes can come first. -/
theorem exists_of_front (snap : OpenedSnapshot N) (front : List (Node N)) (hnodup : front.Nodup)
    (hfront : ∀ x ∈ front, x ∈ snap.nodes) :
    ∃ other : OpenedSnapshot N, other.content = snap.content ∧
      ∃ rest, other.nodes = front ++ rest := by
  have hperm : (front ++ snap.nodes.filter (· ∉ front)).Perm snap.nodes := by
    have hnodes : snap.nodes.Nodup := List.Nodup.of_map _ snap.nodup
    refine (List.perm_ext_iff_of_nodup ?_ hnodes).2 fun x ↦ ?_
    · refine hnodup.append (hnodes.filter _) fun x hx hx' ↦ ?_
      exact absurd hx (by simpa using (List.mem_filter.1 hx').2)
    · rw [List.mem_append, List.mem_filter, decide_eq_true_eq]
      constructor
      · exact Or.rec (hfront x) And.left
      · exact fun hx ↦ (em (x ∈ front)).imp_right fun hnot ↦ ⟨hx, hnot⟩
  obtain ⟨other, hnodes, hcontent⟩ := snap.exists_of_perm hperm
  exact ⟨other, hcontent, _, hnodes⟩

/-- Two crates that come first clash. -/
theorem exists_scan_error {y root : Node N} (hx : snap.content.Named name x)
    (hy : snap.content.Named name y) (hne : x ≠ y) (hxr : x.CrateOf root) (hyr : y.CrateOf root) :
    ∃ other : OpenedSnapshot N, other.content = snap.content ∧
      ∃ e, other.canonicalScan name = .error e := by
  obtain ⟨other, hcontent, rest, hnodes⟩ := snap.exists_of_front [x, y]
    (by simpa using hne) (by simpa using ⟨hx.1, hy.1⟩)
  have hmatch : ∀ z, snap.content.Named name z →
      other.matchesSelector (selector name) z = true := fun z hz ↦ by
    rw [matchesSelector_iff, hcontent]
    exact hz.2
  have hpair : crateRootPair x y = false := by
    rw [← Bool.not_eq_true, crateRootPair_iff]
    rintro (h | h)
    · exact hyr.not_module h.2.1
    · exact hxr.not_module h.2.1
  refine ⟨other, hcontent, .ambiguous name x.id y.id, ?_⟩
  rw [canonicalScan, hnodes, List.filter_append, List.filter_cons_of_pos (hmatch x hx),
    List.filter_cons_of_pos (hmatch y hy)]
  simp [scanStep, hpair, bind, Except.bind]

/-- A root module that comes first is found, unless something clashes. -/
theorem exists_scan_some {root : Node N} (hroot : snap.content.Canonical name root)
    (hkind : root.kind = .module) (hclash : ¬ snap.content.Clash name) :
    ∃ other : OpenedSnapshot N, other.content = snap.content ∧
      other.canonicalScan name = .ok (some root) := by
  obtain ⟨other, hcontent, rest, hnodes⟩ := snap.exists_of_front [root]
    (List.nodup_singleton _) fun x hx ↦ List.mem_singleton.1 hx ▸ hroot.1.1
  refine ⟨other, hcontent, ?_⟩
  have hmatch : other.matchesSelector (selector name) root = true := by
    rw [matchesSelector_iff, hcontent]
    exact hroot.1.2
  have hscan : other.canonicalScan name =
      (rest.filter (other.matchesSelector (selector name))).foldlM (scanStep name) (some root) := by
    rw [canonicalScan, hnodes, List.cons_append, List.nil_append, List.filter_cons_of_pos hmatch]
    rfl
  rw [hscan]
  refine ((foldlM_scanStep_module name hkind _).resolve_right ?_).1
  rintro ⟨-, z, hz, hnot⟩
  rw [List.mem_filter] at hz
  have hmem : z ∈ other.nodes := by
    rw [hnodes]
    exact List.mem_append_right _ hz.1
  have hnamed : snap.content.Named name z := by
    rw [← hcontent]
    exact ⟨hmem, matchesSelector_iff.1 hz.2⟩
  rcases Content.eq_or_crateOf hclash hroot hnamed with rfl | hof
  · have hnodup : other.nodes.Nodup := List.Nodup.of_map _ other.nodup
    rw [hnodes] at hnodup
    exact (List.nodup_cons.1 hnodup).1 hz.1
  · exact hnot hof

/-! ### Names that are settled -/

/-- A node that is found is the only meaning of the name, two meanings give an error or nothing, and
the order of the ids tells nothing. -/
def Settled (snap : OpenedSnapshot N) (name : Name) : Prop :=
  (∀ x, snap.lookupByQualifiedName name = .ok (some x) →
    snap.content.Denotes name x ∧ ∀ y, snap.content.Denotes name y → y = x) ∧
  (∀ x y, snap.content.Denotes name x → snap.content.Denotes name y → x ≠ y →
    (∃ e, snap.lookupByQualifiedName name = .error e) ∨
      snap.lookupByQualifiedName name = .ok none) ∧
  ∀ other : OpenedSnapshot N, other.content = snap.content →
    (other.lookupByQualifiedName name).toOption = (snap.lookupByQualifiedName name).toOption

/-- Where nothing is silent the name is settled. -/
theorem settled_of_not_silent (h : ¬ snap.content.Silent MAX_REEXPORT_HOPS name) :
    snap.Settled name := by
  have hone : ∀ x, snap.lookupByQualifiedName name = .ok (some x) →
      snap.content.Denotes name x ∧ ∀ y, snap.content.Denotes name y → y = x := by
    intro x hx
    rcases snap.lookupInner_exact _ _ h with ⟨-, e, herr⟩ | ⟨hreports, found, hok, hfound⟩
    · rw [lookupByQualifiedName, herr] at hx
      nomatch hx
    rw [lookupByQualifiedName, hok] at hx
    obtain ⟨⟩ := hx
    have hx := (hfound x).1 rfl
    refine ⟨hx.denotes, fun y hy ↦ ?_⟩
    by_contra hne
    exact h (.here (.inr ⟨hreports, x, y, hx, hy, hne⟩))
  refine ⟨hone, fun x y hx hy hne ↦ ?_, fun other hcontent ↦ ?_⟩
  · rcases hlookup : snap.lookupByQualifiedName name with e | - | z
    · exact .inl ⟨e, rfl⟩
    · exact .inr rfl
    · have := (hone z hlookup).2
      exact absurd ((this x hx).trans (this y hy).symm) hne
  · have hother := other.lookupInner_exact _ _ (hcontent ▸ h)
    simp only [lookupByQualifiedName]
    rw [Exact, hcontent] at hother
    rcases snap.lookupInner_exact _ _ h with ⟨hreports, e, herr⟩ | ⟨hreports, found, hok, hfound⟩
    · obtain ⟨-, e', herr'⟩ := hother.resolve_right fun hnot ↦ hnot.1 hreports
      rw [herr, herr']
      rfl
    · obtain ⟨-, found', hok', hfound'⟩ := hother.resolve_left fun hrep ↦ hreports hrep.1
      rw [hok, hok', Option.ext fun x ↦ (hfound' x).trans (hfound x).symm]

/-- A root module beside two crates is not settled. -/
theorem not_settled_of_doubled (hdoubled : snap.content.Doubled name)
    (hclash : ¬ snap.content.Clash name) : ¬ snap.Settled name := by
  rintro ⟨-, -, horder⟩
  obtain ⟨x, y, root, hx, hy, hroot, hne, hxr, hyr⟩ := hdoubled
  obtain ⟨one, hone, e, herr⟩ := exists_scan_error hx hy hne hxr hyr
  obtain ⟨two, htwo, hok⟩ := exists_scan_some
    (Content.canonical_of_crateOf hxr hroot) hxr.2.1 hclash
  have hfirst := horder one hone
  have hsecond := horder two htwo
  rw [lookupByQualifiedName, MAX_REEXPORT_HOPS, lookupInner, herr] at hfirst
  rw [lookupByQualifiedName, MAX_REEXPORT_HOPS, lookupInner, hok, ← hfirst] at hsecond
  nomatch hsecond

/-- A meaning that the order picks is not settled. -/
theorem not_settled_of_picks
    (hway : ∀ next, snap.content.LooksUp (MAX_REEXPORT_HOPS - 1) name next →
      ¬ snap.content.Silent (MAX_REEXPORT_HOPS - 1) next)
    (hdoubled : snap.content.Doubled name → snap.content.Clash name)
    (hreports : ¬ snap.content.Reports MAX_REEXPORT_HOPS name) {y : Node N}
    (hx : snap.content.Answers MAX_REEXPORT_HOPS name x) (hy : snap.content.Denotes name y)
    (hne : y ≠ x) : ¬ snap.Settled name := by
  rintro ⟨hone, -, -⟩
  have hfollows := lookupInner_succ_follows hdoubled fun next hnext ↦
    snap.lookupInner_exact _ next (hway next hnext)
  obtain ⟨-, found, hok, -, hany⟩ := hfollows.resolve_left fun h ↦ hreports h.1
  obtain ⟨z, rfl⟩ := Option.isSome_iff_exists.1 (hany x hx)
  have hall := (hone z hok).2
  exact hne ((hall y hy).trans (hall x hx.denotes).symm)

/-- **A name is settled where nothing silent is met**; where nothing silent is met on the way, only
then. -/
theorem lookup_settled (snap : OpenedSnapshot N) (name : Name) :
    (¬ snap.content.Silent MAX_REEXPORT_HOPS name → snap.Settled name) ∧
      ((∀ next, snap.content.LooksUp (MAX_REEXPORT_HOPS - 1) name next →
          ¬ snap.content.Silent (MAX_REEXPORT_HOPS - 1) next) →
        (snap.Settled name ↔ ¬ snap.content.SilentHere MAX_REEXPORT_HOPS name)) := by
  refine ⟨settled_of_not_silent, fun hway ↦ ⟨fun hsettled hsilent ↦ ?_, fun hhere ↦ ?_⟩⟩
  · rcases hsilent with ⟨hdoubled, hclash⟩ | ⟨hreports, x, y, hx, hy, hne⟩
    · exact not_settled_of_doubled hdoubled hclash hsettled
    · by_cases hdoubled : snap.content.Doubled name ∧ ¬ snap.content.Clash name
      · exact not_settled_of_doubled hdoubled.1 hdoubled.2 hsettled
      · exact not_settled_of_picks hway (by simpa using hdoubled) hreports hx hy hne hsettled
  · refine settled_of_not_silent fun hsilent ↦ ?_
    rcases hsilent with hsilent | ⟨hnext, hsilent⟩
    · exact hhere hsilent
    · exact hway _ hnext hsilent

/-! ### One name in two namespaces -/

/-- Two re-exports of the root module: a struct, and a function of the same name. -/
def thingType : Node ℕ :=
  ⟨3, .item, ['t'], ['a', ':', ':', 'm', ':', ':', 't'], some 1, some .struct, none, none⟩

/-- The function of that name. -/
def thingFn : Node ℕ :=
  ⟨4, .item, ['t'], ['a', ':', ':', 'n', ':', ':', 't'], some 1, some .function, none, none⟩

/-- The root module of the crate. -/
def rootModule : Node ℕ := ⟨2, .module, ['a'], ['a'], some 1, none, none, none⟩

/-- The re-export of the struct. -/
def useType : Binding ℕ := ⟨2, .type, ['t'], 3, .namedImport⟩

/-- The re-export of the function. -/
def useFn : Binding ℕ := ⟨2, .value, ['t'], 4, .namedImport⟩

/-- A crate with these re-exports. -/
def facade (bindings : List (Binding ℕ)) : OpenedSnapshot ℕ where
  nodes := [⟨1, .crate, ['a'], ['a'], some 1, none, none, some ['l', 'i', 'b']⟩,
    rootModule, thingType, thingFn]
  nodup := by decide
  bindings

/-- **The order of the bindings' ids picks the meaning.** -/
theorem lookup_picks :
    (facade [useType, useFn]).lookupByQualifiedName ['a', ':', ':', 't'] = .ok (some thingType) ∧
      (facade [useFn, useType]).lookupByQualifiedName ['a', ':', ':', 't'] = .ok (some thingFn) ∧
      (facade [useFn, useType]).content = (facade [useType, useFn]).content ∧
      ¬ (facade [useType, useFn]).Settled ['a', ':', ':', 't'] := by
  have hone : (facade [useType, useFn]).lookupByQualifiedName ['a', ':', ':', 't'] =
      .ok (some thingType) := by decide +kernel
  have hother : (facade [useFn, useType]).lookupByQualifiedName ['a', ':', ':', 't'] =
      .ok (some thingFn) := by decide +kernel
  have hcontent : (facade [useFn, useType]).content = (facade [useType, useFn]).content := by
    ext x
    · exact Iff.rfl
    · show x ∈ [useFn, useType] ↔ x ∈ [useType, useFn]
      rw [List.mem_pair, List.mem_pair, or_comm]
  refine ⟨hone, hother, hcontent, fun hsettled ↦ ?_⟩
  have horder := hsettled.2.2 _ hcontent
  rw [hone, hother] at horder
  exact absurd horder (by decide)

section Facade

variable {bindings : List (Binding ℕ)} {name : Name} {hops : ℕ} {x y : Node ℕ}

theorem facade_nodes (h : x ∈ (facade bindings).content.nodes) :
    x = ⟨1, .crate, ['a'], ['a'], some 1, none, none, some ['l', 'i', 'b']⟩ ∨ x = rootModule ∨
      x = thingType ∨ x = thingFn := by
  simpa [content, facade] using h

theorem facade_not_doubled : ¬ (facade bindings).content.Doubled name := by
  rintro ⟨x, y, root, hx, hy, -, hne, hxr, hyr⟩
  have hcrate : ∀ {z : Node ℕ}, z ∈ (facade bindings).content.nodes → z.kind = .crate →
      z = ⟨1, .crate, ['a'], ['a'], some 1, none, none, some ['l', 'i', 'b']⟩ := by
    intro z hz hkind
    rcases facade_nodes hz with rfl | rfl | rfl | rfl
    · rfl
    all_goals nomatch hkind
  exact hne ((hcrate hx.1 hxr.1).trans (hcrate hy.1 hyr.1).symm)

theorem facade_root (h : (facade bindings).content.Denotes ['a'] x) : x = rootModule := by
  cases h with
  | canonical hx =>
    rcases facade_nodes hx.1.1 with rfl | rfl | rfl | rfl
    · refine absurd ⟨rfl, rfl, rfl⟩ (hx.2 rootModule ⟨?_, rfl, nofun⟩)
      show rootModule ∈ (facade bindings).nodes
      simp [facade]
    · rfl
    all_goals nomatch hx.1.2.1
  | member hparts => nomatch hparts
  | reexport hparts => nomatch hparts

/-- With one re-export the name means the struct. -/
theorem facade_thing (h : (facade [useType]).content.Denotes ['a', ':', ':', 't'] x) :
    x = thingType := by
  cases h with
  | canonical hx =>
    rcases facade_nodes hx.1.1 with rfl | rfl | rfl | rfl
    all_goals nomatch hx.1.2.1
  | member hparts => nomatch hparts
  | reexport hparts hy hx =>
    obtain ⟨hmem, binding, hbinding, -, -, -, htarget⟩ := hx
    obtain rfl := List.mem_singleton.1 hbinding
    rcases facade_nodes hmem with rfl | rfl | rfl | rfl
    case inr.inr.inl => rfl
    all_goals nomatch htarget

/-- A name with one meaning is not silent. -/
theorem not_silentHere_of_one (hone : ∀ y, (facade bindings).content.Denotes name y → y = x) :
    ¬ (facade bindings).content.SilentHere hops name := by
  rintro (⟨hdoubled, -⟩ | ⟨-, y, z, hy, hz, hne⟩)
  · exact facade_not_doubled hdoubled
  · exact hne ((hone z hz).trans (hone y hy.denotes).symm)

/-- One re-export is settled. -/
theorem lookup_settled_facade : (facade [useType]).Settled ['a', ':', ':', 't'] := by
  refine (lookup_settled _ _).1 fun h ↦ ?_
  rcases h with h | ⟨hnext, h⟩
  · exact not_silentHere_of_one (fun _ ↦ facade_thing) h
  cases hnext with
  | module _ hparts => nomatch hparts
  | before _ _ _ hparts =>
    obtain ⟨⟩ := hparts
    rcases h with h | ⟨hnext, -⟩
    · exact not_silentHere_of_one (fun _ ↦ facade_root) h
    · cases hnext with
      | module _ hparts => nomatch hparts
      | before _ _ _ hparts => nomatch hparts

end Facade

end OpenedSnapshot
end RustCodeMcp.Navigation
