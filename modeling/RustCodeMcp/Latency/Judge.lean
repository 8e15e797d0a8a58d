import RustCodeMcp.Latency.Log
import RustCodeMcp.Measure.Intervals

/-!
# Calls that waited

A reading call is judged by what ran beside it in its process: how long its own loads and builds
ran, how long anything else did, and the longest call of the same tool beside which nothing ran at
all. The lengths are those of unions of intervals (`judge_spec`). Only the longest clean call is
taken over all processes: work in another process matters for a call when it overlaps the calls of
the same tool there.

A call is **blocked** when it took longer than it would have taken by itself, with its own loads and
builds allowed for, and something else ran beside it; both by more than two seconds. What it would
have taken by itself is the longest clean call of the tool on the same workspace, and of any
workspace where there is none.

The results are about what is added up: the lengths are exact (`unionLen_eq`), the order of the
spans makes no difference (`verdict_of_perm`), and work in another process is not counted
(`verdicts_append`), except where it is beside the calls the baseline is taken from.
-/

namespace RustCodeMcp.ToolLatency

open Intervals MeasureTheory

/-- What a call may take longer before it counts as waiting. -/
def SLACK_SECS : ℚ := 2

/-- The tools that are no readers. -/
def WRITER_TOOLS : List (List Char) :=
  ["index_codebase", "clear_cache", "clear_runtime", "build_hypergraph", "build_codemap",
    "semantic_overlaps"].map String.toList

/-- The tools that load the project's analysis. -/
def ANALYSIS_TOOLS : List (List Char) :=
  ["find_definition", "find_references", "rename_symbol"].map String.toList

/-- The name of the tool, for a call that reads. -/
def Kind.reader : Kind → Option (List Char)
  | tool name => if WRITER_TOOLS.contains name then none else some name
  | _ => none

/-- The part of a call during which another span ran, if it has any length. -/
def Span.overlap (call other : Span) : Option (ℚ × ℚ) :=
  let start := max call.startAt other.startAt
  let stop := min call.endAt other.endAt
  if start < stop then some (start, stop) else none

/-! ### Unions -/

/-- The finished intervals' length, and the interval that may still grow. -/
def unionStep (state : ℚ × Option (ℚ × ℚ)) (part : ℚ × ℚ) : ℚ × Option (ℚ × ℚ) :=
  match state, part with
  | (total, some (cs, ce)), (start, stop) =>
    if start ≤ ce then (total, some (cs, max ce stop)) else (total + (ce - cs), some (start, stop))
  | (total, none), part => (total, some part)

/-- The length so far, with the interval that may still grow. -/
def unionTotal : ℚ × Option (ℚ × ℚ) → ℚ
  | (total, some (cs, ce)) => total + (ce - cs)
  | (total, none) => total

/-- The length of the union of some intervals. -/
def unionLen (parts : List (ℚ × ℚ)) : ℚ :=
  unionTotal ((parts.mergeSort fun a b ↦ a.1 ≤ b.1).foldl unionStep (0, none))

/-! ### What ran beside a call -/

/-- A call and what ran beside it. -/
structure Raw where
  call : Span
  wake : ℚ
  own : ℚ
  others : List Span
  overlapped : ℚ

/-- A load of the call's own project, or a build of its own index that began inside the call. -/
def isOwnWork (name : List Char) (call span : Span) : Bool :=
  let sameWorkspace := span.workspace = call.workspace
  let ownLoad := ANALYSIS_TOOLS.contains name && span.kind = .analysisLoad && sameWorkspace
  let ownBuild := span.kind = .indexBuild && sameWorkspace &&
    call.startAt - ROUNDING_SECS ≤ span.startAt
  ownLoad || ownBuild

/-- The spans of the call's process that overlap it, with their parts in it. -/
def beside (call : Span) (rest : List Span) : List (Span × (ℚ × ℚ)) :=
  rest.filterMap fun span ↦
    if span.pid ≠ call.pid then none else (call.overlap span).map fun part ↦ (span, part)

/-- A call of a tool beside other spans: its own work, and the rest. -/
def rawOf (name : List Char) (call : Span) (rest : List Span) : Raw :=
  let found := beside call rest
  let ownParts := (found.filter fun (span, _) ↦ isOwnWork name call span).map (·.2)
  let others := found.filter fun (span, _) ↦ !isOwnWork name call span
  { call := call
    wake := ((ownParts.map (·.1)).min?).getD call.endAt
    own := unionLen ownParts
    others := others.map (·.1)
    overlapped := unionLen (others.map (·.2)) }

/-- Every reading call, with the tool's name, beside all other spans. -/
def raws (spans : List Span) : List (List Char × Raw) :=
  spans.zipIdx.filterMap fun (call, i) ↦
    call.kind.reader.map fun name ↦ (name, rawOf name call (spans.eraseIdx i))

/-! ### Clean calls -/

/-- The tool's own work: nothing else ran, and no load of its own. -/
def Raw.clean (raw : Raw) : Bool :=
  raw.others.isEmpty && raw.own = 0

/-- What the map of clean calls has for them, if there are any. -/
def longestOf (calls : List Span) : Option ℚ :=
  if calls.isEmpty then none else some (calls.foldl (fun slot call ↦ max slot call.took) 0)

/-- The clean calls of a tool. -/
def cleanCalls (raws : List (List Char × Raw)) (name : List Char) : List Span :=
  (raws.filter fun (tool, raw) ↦ raw.clean && tool = name).map (·.2.call)

/-- The longest of a tool's clean calls on the same workspace, else on any, and whether it is one of
another workspace, or none. -/
def baseOf (calls : List Span) (call : Span) : ℚ × Bool :=
  match longestOf (calls.filter fun clean ↦ clean.workspace = call.workspace) with
  | some base => (base, false)
  | none => ((longestOf calls).getD 0, true)

/-! ### Culprits -/

/-- Work before other readers. -/
def workFirst (spans : List Span) : List Span :=
  let work := spans.filter fun span ↦ span.kind.reader.isNone
  if work.isEmpty then spans else work

/-- How long a span ran beside the call. -/
def overlapLen (call span : Span) : ℚ :=
  match call.overlap span with
  | some (start, stop) => stop - start
  | none => 0

/-- The overlapping span with the most overlap; ties go to the first of the shortest. -/
def longestBeside (call : Span) (others : List Span) : Option Span := do
  let pool := workFirst others
  let most ← (pool.map (overlapLen call)).max?
  (pool.filter fun span ↦ most - SLACK_SECS ≤ overlapLen call span).argmin Span.took

/-- The last of those that ended last before the call woke. -/
def culprit (call : Span) (others : List Span) (wake : ℚ) : Option Span :=
  let endedBeforeWake := workFirst (others.filter fun span ↦
    span.endAt ≤ wake + ROUNDING_SECS &&
      ((call.overlap span).any fun (start, stop) ↦ SLACK_SECS < stop - start))
  match endedBeforeWake.reverse.argmax Span.endAt with
  | some latest => some latest
  | none => longestBeside call others

/-! ### Verdicts -/

/-- A call and what is said of it. -/
structure Judged where
  call : Span
  own : ℚ
  base : ℚ
  baseBorrowed : Bool
  overlapped : ℚ
  culprit : Option Span
  longest : Option Span
  blocked : Bool

/-- The verdict on a call, given the clean calls of its tool. -/
def judgeRaw (calls : List Span) (raw : Raw) : Judged :=
  let (base, baseBorrowed) := baseOf calls raw.call
  let excess := raw.call.took - raw.own - base
  { call := raw.call
    own := raw.own
    base := base
    baseBorrowed := baseBorrowed
    overlapped := raw.overlapped
    culprit := ToolLatency.culprit raw.call raw.others raw.wake
    longest := longestBeside raw.call raw.others
    blocked := SLACK_SECS < excess && SLACK_SECS < raw.overlapped }

/-- Whether the call ended in the window that is reported. -/
def inWindow (since till : Option ℚ) (call : Span) : Bool :=
  since.all (· ≤ call.endAt) && till.all (call.endAt ≤ ·)

/-- Baselines come from every call, inside the window or not. -/
def judge (spans : List Span) (since till : Option ℚ) : List Judged :=
  ((raws spans).filter fun (_, raw) ↦ inWindow since till raw.call).map fun (name, raw) ↦
    judgeRaw (cleanCalls (raws spans) name) raw

/-! ### The length of a union -/

variable {parts rest : List (ℚ × ℚ)} {call span : Span} {spans spans' : List Span}

/-- The sweep adds up what the growing interval and the intervals to come cover. -/
theorem unionTotal_foldl {total cs ce : ℚ} (htotal : 0 ≤ total) (hle : cs ≤ ce)
    (hsorted : rest.Pairwise fun a b ↦ a.1 ≤ b.1) (hstart : ∀ part ∈ rest, cs ≤ part.1)
    (hparts : ∀ part ∈ rest, part.1 ≤ part.2) :
    0 ≤ unionTotal (rest.foldl unionStep (total, some (cs, ce))) ∧
      ENNReal.ofReal (unionTotal (rest.foldl unionStep (total, some (cs, ce))) : ℚ) =
        ENNReal.ofReal (total : ℚ) + volume (points (cs, ce) ∪ covered rest) := by
  induction rest generalizing total cs ce with
  | nil =>
    have hlen : 0 ≤ ce - cs := sub_nonneg.2 hle
    refine ⟨add_nonneg htotal hlen, ?_⟩
    rw [covered_nil, Set.union_empty, volume_points, List.foldl_nil, unionTotal, Rat.cast_add,
      ENNReal.ofReal_add (Rat.cast_nonneg.2 htotal) (Rat.cast_nonneg.2 hlen)]
  | cons part rest ih =>
    obtain ⟨start, stop⟩ := part
    obtain ⟨hfirst, hrest⟩ := List.pairwise_cons.1 hsorted
    obtain ⟨hcs, -⟩ := List.forall_mem_cons.1 hstart
    obtain ⟨hpart, hparts⟩ := List.forall_mem_cons.1 hparts
    rw [List.foldl_cons, unionStep, covered_cons, ← Set.union_assoc]
    split_ifs with hmeet
    · rw [points_union hcs hmeet hpart]
      exact ih htotal (hle.trans (le_max_left _ _)) hrest
        (fun part hmem ↦ hcs.trans (hfirst part hmem)) hparts
    · have hlen : 0 ≤ ce - cs := sub_nonneg.2 hle
      obtain ⟨hnonneg, hvolume⟩ := ih (add_nonneg htotal hlen) hpart hrest hfirst hparts
      -- everything to come begins after the interval, which is finished
      have hdisjoint : Disjoint (points (cs, ce)) (covered ((start, stop) :: rest)) := by
        refine disjoint_points (List.forall_mem_cons.2 ⟨(not_le.1 hmeet).le, fun part hmem ↦ ?_⟩)
        exact (not_le.1 hmeet).le.trans (hfirst part hmem)
      refine ⟨hnonneg, ?_⟩
      rw [hvolume, Set.union_assoc, ← covered_cons, measure_union' hdisjoint
        (measurableSet_points _), volume_points, Rat.cast_add,
        ENNReal.ofReal_add (Rat.cast_nonneg.2 htotal) (Rat.cast_nonneg.2 hlen), add_assoc]

/-- **The sweep gives the length of the union.** -/
theorem unionLen_eq (hparts : ∀ part ∈ parts, part.1 ≤ part.2) :
    0 ≤ unionLen parts ∧ volume (covered parts) = ENNReal.ofReal (unionLen parts : ℚ) := by
  have hperm := List.mergeSort_perm parts fun a b ↦ a.1 ≤ b.1
  have hsorted : (parts.mergeSort fun a b ↦ a.1 ≤ b.1).Pairwise fun a b ↦ a.1 ≤ b.1 := by
    refine (List.pairwise_mergeSort (fun a b c hab hbc ↦ ?_) (fun a b ↦ ?_) parts).imp
      of_decide_eq_true
    · exact decide_eq_true ((of_decide_eq_true hab).trans (of_decide_eq_true hbc))
    · simpa using le_total a.1 b.1
  rw [unionLen, ← covered_of_perm hperm]
  have hparts' : ∀ part ∈ parts.mergeSort fun a b ↦ a.1 ≤ b.1, part.1 ≤ part.2 :=
    fun part hmem ↦ hparts part (hperm.mem_iff.1 hmem)
  generalize (parts.mergeSort fun a b ↦ a.1 ≤ b.1) = sorted at hsorted hparts'
  cases sorted with
  | nil => simp [unionTotal, covered_nil]
  | cons part rest =>
    obtain ⟨hfirst, hrest⟩ := List.pairwise_cons.1 hsorted
    obtain ⟨hpart, hparts'⟩ := List.forall_mem_cons.1 hparts'
    obtain ⟨hnonneg, hvolume⟩ := unionTotal_foldl le_rfl hpart hrest hfirst hparts'
    refine ⟨hnonneg, ?_⟩
    rw [covered_cons]
    rw [Rat.cast_zero, ENNReal.ofReal_zero, zero_add] at hvolume
    exact hvolume.symm

theorem unionLen_nil : unionLen [] = 0 := by
  rw [unionLen, List.mergeSort_nil]
  rfl

theorem unionLen_of_perm {parts' : List (ℚ × ℚ)} (hparts : ∀ part ∈ parts, part.1 ≤ part.2)
    (h : parts.Perm parts') : unionLen parts = unionLen parts' := by
  obtain ⟨hnonneg, hvolume⟩ := unionLen_eq hparts
  obtain ⟨hnonneg', hvolume'⟩ := unionLen_eq fun part hmem ↦ hparts part (h.mem_iff.2 hmem)
  rw [covered_of_perm h, hvolume', ENNReal.ofReal_eq_ofReal_iff (Rat.cast_nonneg.2 hnonneg')
    (Rat.cast_nonneg.2 hnonneg)] at hvolume
  exact (Rat.cast_injective hvolume).symm

/-! ### The parts of a call -/

/-- The times of a call at which a span of its process ran that is such work. -/
def timesBeside (call : Span) (work : Span → Prop) (rest : List Span) : Set ℝ :=
  {x | x ∈ points (call.startAt, call.endAt) ∧ ∃ span ∈ rest, span.pid = call.pid ∧ work span ∧
    x ∈ points (span.startAt, span.endAt)}

/-- The part that overlaps covers the times at which both ran. -/
theorem overlap_eq_some {part : ℚ × ℚ} (h : call.overlap span = some part) :
    part.1 < part.2 ∧ points part =
      points (call.startAt, call.endAt) ∩ points (span.startAt, span.endAt) := by
  rw [Span.overlap] at h
  split_ifs at h with hlt
  obtain rfl := Option.some.inj h
  refine ⟨hlt, ?_⟩
  rw [points, points, points, Set.Ico_inter_Ico]
  dsimp only
  rw [Rat.cast_max, Rat.cast_min]

theorem overlap_eq_none (h : call.overlap span = none) :
    points (call.startAt, call.endAt) ∩ points (span.startAt, span.endAt) = ∅ := by
  rw [Span.overlap] at h
  split_ifs at h with hlt
  rw [points, points, Set.Ico_inter_Ico]
  refine Set.Ico_eq_empty fun hlt' ↦ hlt ?_
  have hcast : ((max call.startAt span.startAt : ℚ) : ℝ) < (min call.endAt span.endAt : ℚ) := by
    rw [Rat.cast_max, Rat.cast_min]
    exact hlt'
  exact Rat.cast_lt.1 hcast

/-- What is beside a call is of its process, and overlaps it. -/
theorem mem_beside {entry : Span × (ℚ × ℚ)} : entry ∈ beside call spans ↔
    entry.1 ∈ spans ∧ entry.1.pid = call.pid ∧ call.overlap entry.1 = some entry.2 := by
  rw [beside, List.mem_filterMap]
  constructor
  · rintro ⟨span, hmem, hentry⟩
    split_ifs at hentry with hpid
    obtain ⟨part, hpart, rfl⟩ := Option.map_eq_some_iff.1 hentry
    exact ⟨hmem, not_not.1 hpid, hpart⟩
  · rintro ⟨hmem, hpid, hpart⟩
    exact ⟨entry.1, hmem, by rw [if_neg (not_not.2 hpid), hpart]; rfl⟩

theorem parts_le (work : Span → Bool) :
    ∀ part ∈ ((beside call spans).filter fun (span, _) ↦ work span).map (·.2),
      part.1 ≤ part.2 := by
  intro part hpart
  obtain ⟨entry, hentry, rfl⟩ := List.mem_map.1 hpart
  obtain ⟨-, -, hoverlap⟩ := mem_beside.1 (List.mem_filter.1 hentry).1
  exact (overlap_eq_some hoverlap).1.le

/-- The parts of the spans found cover the times at which they ran. -/
theorem covered_parts (work : Span → Bool) :
    covered (((beside call spans).filter fun (span, _) ↦ work span).map (·.2)) =
      timesBeside call (fun span ↦ work span = true) spans := by
  ext x
  constructor
  · rintro ⟨part, hpart, hx⟩
    obtain ⟨entry, hentry, rfl⟩ := List.mem_map.1 hpart
    obtain ⟨hfound, hwork⟩ := List.mem_filter.1 hentry
    obtain ⟨hmem, hpid, hoverlap⟩ := mem_beside.1 hfound
    rw [(overlap_eq_some hoverlap).2] at hx
    exact ⟨hx.1, entry.1, hmem, hpid, hwork, hx.2⟩
  · rintro ⟨hcall, span, hmem, hpid, hwork, hspan⟩
    match hoverlap : call.overlap span with
    | none =>
      have hempty := overlap_eq_none hoverlap
      exact absurd (hempty ▸ ⟨hcall, hspan⟩) (Set.notMem_empty x)
    | some part =>
      refine ⟨part, List.mem_map.2 ⟨(span, part), List.mem_filter.2 ⟨?_, hwork⟩, rfl⟩, ?_⟩
      · exact mem_beside.2 ⟨hmem, hpid, hoverlap⟩
      · rw [(overlap_eq_some hoverlap).2]
        exact ⟨hcall, hspan⟩

/-- So long such work ran beside the call. -/
theorem unionLen_parts (work : Span → Bool) :
    0 ≤ unionLen (((beside call spans).filter fun (span, _) ↦ work span).map (·.2)) ∧
      volume (timesBeside call (fun span ↦ work span = true) spans) = ENNReal.ofReal
        (unionLen (((beside call spans).filter fun (span, _) ↦ work span).map (·.2)) : ℚ) := by
  rw [← covered_parts]
  exact unionLen_eq (parts_le work)

/-- No longer than the call, which has no length when it ends before it starts. -/
theorem le_of_volume {work : Span → Prop} {own : ℚ}
    (h : volume (timesBeside call work spans) = ENNReal.ofReal own) : own ≤ max 0 call.took := by
  have hle : volume (timesBeside call work spans) ≤ ENNReal.ofReal (call.took : ℚ) := by
    rw [Span.took, ← volume_points]
    exact measure_mono fun x hx ↦ hx.1
  rw [h] at hle
  obtain hle | hzero := ENNReal.ofReal_le_ofReal_iff'.1 hle
  · exact (Rat.cast_le.1 hle).trans (le_max_right _ _)
  · exact (Rat.cast_nonpos.1 hzero).trans (le_max_left _ _)

/-! ### The order of the spans -/

/-- What the verdict needs of a call. -/
def Raw.key (raw : Raw) : Span × ℚ × ℚ × Bool :=
  (raw.call, raw.own, raw.overlapped, raw.clean)

/-- The order of the spans does not matter for what is beside a call. -/
theorem beside_of_perm (h : spans.Perm spans') (call : Span) :
    (beside call spans).Perm (beside call spans') :=
  h.filterMap _

theorem key_of_perm (name : List Char) (call : Span) (h : spans.Perm spans') :
    (rawOf name call spans).key = (rawOf name call spans').key := by
  have hfound := beside_of_perm h call
  have hothers := hfound.filter fun (span, _) ↦ !isOwnWork name call span
  have hown : (rawOf name call spans).own = (rawOf name call spans').own :=
    unionLen_of_perm (parts_le (isOwnWork name call))
      ((hfound.filter fun (span, _) ↦ isOwnWork name call span).map (·.2))
  have hoverlapped : (rawOf name call spans).overlapped = (rawOf name call spans').overlapped :=
    unionLen_of_perm (parts_le fun span ↦ !isOwnWork name call span) (hothers.map (·.2))
  have hempty : (rawOf name call spans).others.isEmpty = (rawOf name call spans').others.isEmpty :=
    (hothers.map Prod.fst).isEmpty_eq
  simp only [Raw.key, Raw.clean, hown, hoverlapped, hempty]
  rfl

/-- Leaving a call out by its index is leaving it out. -/
theorem eraseIdx_perm {i : ℕ} (h : spans[i]? = some call) :
    (spans.eraseIdx i).Perm (spans.erase call) := by
  obtain ⟨hi, rfl⟩ := List.getElem?_eq_some_iff.1 h
  have hmem : spans[i] ∈ spans := List.getElem_mem hi
  exact ((List.getElem_cons_eraseIdx_perm hi).trans (List.perm_cons_erase hmem)).cons_inv

theorem keys_raws (spans : List Span) : (raws spans).map (fun (name, raw) ↦ (name, raw.key)) =
    spans.filterMap fun call ↦ call.kind.reader.map fun name ↦
      (name, (rawOf name call (spans.erase call)).key) := by
  refine Eq.trans ?_ (congrArg (List.filterMap _) (List.zipIdx_map_fst 0 spans))
  rw [raws, List.map_filterMap, List.filterMap_map]
  refine List.filterMap_congr fun entry hentry ↦ ?_
  have hperm := eraseIdx_perm (List.mem_zipIdx_iff_getElem?.1 hentry)
  show Option.map _ (Option.map _ entry.1.kind.reader) = Option.map _ entry.1.kind.reader
  rw [Option.map_map]
  refine congrArg (fun f ↦ Option.map f entry.1.kind.reader) (funext fun name ↦ ?_)
  exact congrArg (name, ·) (key_of_perm name entry.1 hperm)

/-- In another order of the spans they are the same. -/
theorem keys_of_perm (h : spans.Perm spans') :
    ((raws spans).map fun (name, raw) ↦ (name, raw.key)).Perm
      ((raws spans').map fun (name, raw) ↦ (name, raw.key)) := by
  rw [keys_raws, keys_raws]
  have hkey : ∀ name call, (rawOf name call (spans.erase call)).key =
      (rawOf name call (spans'.erase call)).key := fun name call ↦
    key_of_perm name call (h.erase call)
  simp only [hkey]
  exact h.filterMap _

/-- What is said of a call, but for the culprit. -/
structure Verdict where
  call : Span
  own : ℚ
  base : ℚ
  baseBorrowed : Bool
  overlapped : ℚ
  blocked : Bool
deriving DecidableEq

/-- What is said of the call, but for the culprit. -/
def Judged.verdict (judged : Judged) : Verdict where
  call := judged.call
  own := judged.own
  base := judged.base
  baseBorrowed := judged.baseBorrowed
  overlapped := judged.overlapped
  blocked := judged.blocked

/-- The verdict from the key of a call and the tools' clean calls. -/
def verdictOf (calls : List Char → List Span) (entry : List Char × (Span × ℚ × ℚ × Bool)) :
    Verdict :=
  (judgeRaw (calls entry.1) ⟨entry.2.1, 0, entry.2.2.1, [], entry.2.2.2.1⟩).verdict

/-- What the verdicts need of all the reading calls. -/
def keysOf (spans : List Span) : List (List Char × (Span × ℚ × ℚ × Bool)) :=
  (raws spans).map fun (name, raw) ↦ (name, raw.key)

theorem cleanCalls_eq (raws : List (List Char × Raw)) (name : List Char) :
    cleanCalls raws name = ((raws.map fun (tool, raw) ↦ (tool, raw.key)).filter
      fun (tool, key) ↦ key.2.2.2 && tool = name).map (·.2.1) := by
  rw [cleanCalls, List.filter_map, List.map_map]
  rfl

theorem map_verdict_judge (spans : List Span) (since till : Option ℚ) :
    (judge spans since till).map Judged.verdict =
      ((keysOf spans).filter fun (_, key) ↦ inWindow since till key.1).map
        (verdictOf (cleanCalls (raws spans))) := by
  rw [judge, List.map_map, keysOf, List.filter_map, List.map_map]
  rfl

theorem longestOf_of_perm (h : spans.Perm spans') : longestOf spans = longestOf spans' := by
  rw [longestOf, longestOf, h.isEmpty_eq,
    h.foldl_eq' fun a _ b _ slot ↦ max_right_comm slot a.took b.took]

theorem baseOf_of_perm (h : spans.Perm spans') (call : Span) :
    baseOf spans call = baseOf spans' call := by
  rw [baseOf, baseOf, longestOf_of_perm h, longestOf_of_perm (h.filter _)]

theorem judgeRaw_of_perm (h : spans.Perm spans') (raw : Raw) :
    judgeRaw spans raw = judgeRaw spans' raw := by
  rw [judgeRaw, judgeRaw, baseOf_of_perm h]

/-- The verdicts do not depend on the order of the spans. -/
theorem verdict_of_perm (h : spans.Perm spans') (since till : Option ℚ) :
    ((judge spans since till).map Judged.verdict).Perm
      ((judge spans' since till).map Judged.verdict) := by
  have hkeys : (keysOf spans).Perm (keysOf spans') := keys_of_perm h
  have hverdict : verdictOf (cleanCalls (raws spans)) = verdictOf (cleanCalls (raws spans')) := by
    funext entry
    rw [verdictOf, verdictOf, cleanCalls_eq, cleanCalls_eq]
    exact congrArg Judged.verdict (judgeRaw_of_perm ((hkeys.filter _).map _) _)
  rw [map_verdict_judge, map_verdict_judge, hverdict]
  exact (hkeys.filter _).map _

/-! ### Spans of other processes -/

variable {extra : List Span} {name : List Char}

theorem beside_append (call : Span) (spans extra : List Span) :
    beside call (spans ++ extra) = beside call spans ++ beside call extra :=
  List.filterMap_append

/-- Spans of other processes, or without an overlap, are not beside it. -/
theorem beside_eq_nil (h : ∀ span ∈ spans, span.pid = call.pid → call.overlap span = none) :
    beside call spans = [] := by
  refine List.eq_nil_iff_forall_not_mem.2 fun entry hentry ↦ ?_
  obtain ⟨hmem, hpid, hoverlap⟩ := mem_beside.1 hentry
  nomatch (h _ hmem hpid).symm.trans hoverlap

theorem rawOf_append (h : beside call extra = []) (spans : List Span) :
    rawOf name call (spans ++ extra) = rawOf name call spans := by
  have hbeside : beside call (spans ++ extra) = beside call spans := by
    rw [beside_append, h, List.append_nil]
  simp only [rawOf, hbeside]

/-- A part of some length is enough for the union to have some. -/
theorem unionLen_pos {part : ℚ × ℚ} (hparts : ∀ part ∈ parts, part.1 ≤ part.2)
    (hmem : part ∈ parts) (hlt : part.1 < part.2) : 0 < unionLen parts := by
  obtain ⟨-, hvolume⟩ := unionLen_eq hparts
  have hle : volume (points part) ≤ volume (covered parts) :=
    measure_mono fun x hx ↦ ⟨part, hmem, hx⟩
  have hpos : 0 < volume (points part) := by
    rw [volume_points, ENNReal.ofReal_pos, Rat.cast_pos]
    exact sub_pos.2 hlt
  rw [hvolume] at hle
  exact Rat.cast_pos.1 (ENNReal.ofReal_pos.1 (hpos.trans_le hle))

/-- A call is clean exactly when nothing of its process overlaps it. -/
theorem clean_iff : (rawOf name call spans).clean = true ↔ beside call spans = [] := by
  constructor
  · intro h
    rw [Raw.clean, Bool.and_eq_true, List.isEmpty_iff, decide_eq_true_iff] at h
    obtain ⟨hothers, hown⟩ := h
    by_contra hne
    obtain ⟨entry, hentry⟩ := List.exists_mem_of_ne_nil _ hne
    obtain ⟨-, -, hoverlap⟩ := mem_beside.1 hentry
    cases hwork : isOwnWork name call entry.1 with
    | true =>
      have hpos : 0 < (rawOf name call spans).own :=
        unionLen_pos (parts_le (isOwnWork name call))
          (List.mem_map_of_mem (List.mem_filter.2 ⟨hentry, hwork⟩)) (overlap_eq_some hoverlap).1
      exact hpos.ne' hown
    | false =>
      have hmem : entry.1 ∈ (rawOf name call spans).others :=
        List.mem_map_of_mem (List.mem_filter.2 ⟨hentry, congrArg not hwork⟩)
      rw [hothers] at hmem
      exact List.not_mem_nil hmem
  · intro h
    have hown : (rawOf name call spans).own = 0 := by
      simp only [rawOf, h]
      exact unionLen_nil
    have hothers : (rawOf name call spans).others = [] := by
      simp only [rawOf, h]
      rfl
    rw [Raw.clean, Bool.and_eq_true, List.isEmpty_iff, decide_eq_true_iff]
    exact ⟨hothers, hown⟩

theorem keysOf_eq (spans : List Span) : keysOf spans =
    spans.filterMap fun call ↦ call.kind.reader.map fun name ↦
      (name, (rawOf name call (spans.erase call)).key) :=
  keys_raws spans

/-- What is kept of the keys is as before where no added span is kept and nothing kept sees one. -/
theorem filter_keysOf_append (keep : List Char × (Span × ℚ × ℚ × Bool) → Bool)
    (hextra : ∀ e ∈ extra, ∀ name rest, e.kind.reader = some name →
      keep (name, (rawOf name e rest).key) = false)
    (hsame : ∀ call ∈ spans, ∀ name, call.kind.reader = some name →
      Option.filter keep (some (name, (rawOf name call (spans.erase call ++ extra)).key)) =
        Option.filter keep (some (name, (rawOf name call (spans.erase call)).key))) :
    (keysOf (spans ++ extra)).filter keep = (keysOf spans).filter keep := by
  rw [keysOf_eq, keysOf_eq, List.filter_filterMap, List.filter_filterMap, List.filterMap_append]
  have hnone : extra.filterMap (fun call ↦ (call.kind.reader.map fun name ↦
      (name, (rawOf name call ((spans ++ extra).erase call)).key)).filter keep) = [] := by
    refine List.filterMap_eq_nil_iff.2 fun e he ↦ ?_
    match hreader : e.kind.reader with
    | none => rfl
    | some name =>
      refine Option.filter_eq_none_iff.2 fun key hkey ↦ ?_
      obtain rfl := Option.some.inj hkey
      exact Bool.eq_false_iff.1 (hextra e he name _ hreader)
  rw [hnone, List.append_nil]
  refine List.filterMap_congr fun call hcall ↦ ?_
  rw [List.erase_append_left _ hcall]
  match hreader : call.kind.reader with
  | none => rfl
  | some name => exact hsame call hcall name hreader

/-- The clean calls of a tool are the same, unless a call of it was added, or lost its being
clean. -/
theorem cleanCalls_append
    (hextra : ∀ e ∈ extra, e.kind.reader ≠ some name)
    (hclean : ∀ call ∈ spans, call.kind.reader = some name →
      beside call (spans.erase call) = [] → beside call extra = []) :
    cleanCalls (raws (spans ++ extra)) name = cleanCalls (raws spans) name := by
  rw [cleanCalls_eq, cleanCalls_eq]
  refine congrArg (List.map _) (filter_keysOf_append _ (fun e he tool rest hreader ↦ ?_)
    fun call hcall tool hreader ↦ ?_)
  · have htool : tool ≠ name := fun heq ↦ hextra e he (heq ▸ hreader)
    simp [htool]
  · by_cases htool : tool = name
    · subst htool
      by_cases hbeside : beside call (spans.erase call) = []
      · rw [rawOf_append (hclean call hcall hreader hbeside)]
      · have hnot : ∀ rest, beside call rest ≠ [] → (rawOf tool call rest).key.2.2.2 = false :=
          fun rest hne ↦ Bool.eq_false_iff.2 (mt clean_iff.1 hne)
        have hne : beside call (spans.erase call ++ extra) ≠ [] := by
          rw [beside_append]
          exact List.append_ne_nil_of_left_ne_nil hbeside _
        simp [Option.filter, hnot _ hbeside, hnot _ hne]
    · simp [Option.filter, htool]

/-- The verdicts of some of the calls. -/
def verdicts (spans : List Span) (since till : Option ℚ) (keep : Span → Bool) : List Verdict :=
  ((judge spans since till).map Judged.verdict).filter fun verdict ↦ keep verdict.call

theorem verdicts_eq (spans : List Span) (since till : Option ℚ) (keep : Span → Bool) :
    verdicts spans since till keep = (((keysOf spans).filter fun (_, key) ↦ keep key.1).filter
      fun (_, key) ↦ inWindow since till key.1).map (verdictOf (cleanCalls (raws spans))) := by
  rw [verdicts, map_verdict_judge, List.filter_map, List.filter_filter, List.filter_filter]
  refine congrArg (List.map _) (List.filter_congr fun entry _ ↦ ?_)
  exact Bool.and_comm _ _

theorem verdicts_of_perm (h : spans.Perm spans') (since till : Option ℚ) (keep : Span → Bool) :
    (verdicts spans since till keep).Perm (verdicts spans' since till keep) :=
  (verdict_of_perm h since till).filter _

/-- A key is of a reading call, under the name of its tool. -/
theorem reader_of_mem {entry : List Char × (Span × ℚ × ℚ × Bool)} (h : entry ∈ keysOf spans) :
    entry.2.1.kind.reader = some entry.1 := by
  rw [keysOf_eq] at h
  obtain ⟨call, -, hentry⟩ := List.mem_filterMap.1 h
  obtain ⟨name, hreader, rfl⟩ := Option.map_eq_some_iff.1 hentry
  exact hreader

/-- The calls of a process have the keys they had without the spans of others. -/
theorem filter_keysOf_pid {pid : ℕ} (hpid : ∀ e ∈ extra, e.pid ≠ pid) (keep : Span → Bool)
    (hkeep : ∀ call, keep call = true → call.pid = pid) :
    ((keysOf (spans ++ extra)).filter fun (_, key) ↦ keep key.1) =
      (keysOf spans).filter fun (_, key) ↦ keep key.1 := by
  refine filter_keysOf_append _ (fun e he name rest _ ↦ ?_) fun call hcall name hreader ↦ ?_
  · exact Bool.eq_false_iff.2 fun h ↦ hpid e he (hkeep _ h)
  · cases hcase : keep call with
    | true =>
      have hcall := hkeep call hcase
      rw [rawOf_append (beside_eq_nil fun e he hsame ↦ absurd (hsame.trans hcall) (hpid e he))]
    | false =>
      have hfalse : ∀ rest, keep (rawOf name call rest).key.1 = false := fun _ ↦ hcase
      simp [Option.filter, hfalse]

/-- How long its own work and other work ran beside a call. -/
def Verdict.lengths (verdict : Verdict) : Span × ℚ × ℚ :=
  (verdict.call, verdict.own, verdict.overlapped)

theorem lengths_append {pid : ℕ} (hpid : ∀ e ∈ extra, e.pid ≠ pid) (since till : Option ℚ) :
    (verdicts (spans ++ extra) since till fun call ↦ call.pid = pid).map Verdict.lengths =
      (verdicts spans since till fun call ↦ call.pid = pid).map Verdict.lengths := by
  rw [verdicts_eq, verdicts_eq, filter_keysOf_pid hpid _ fun call h ↦ of_decide_eq_true h,
    List.map_map, List.map_map]
  rfl

theorem verdicts_append {pid : ℕ} (hpid : ∀ e ∈ extra, e.pid ≠ pid)
    (hextra : ∀ e ∈ extra, e.kind.reader ≠ some name)
    (hclean : ∀ call ∈ spans, call.kind.reader = some name →
      beside call (spans.erase call) = [] → beside call extra = []) (since till : Option ℚ) :
    verdicts (spans ++ extra) since till
        (fun call ↦ call.pid = pid && call.kind.reader = some name) =
      verdicts spans since till fun call ↦ call.pid = pid && call.kind.reader = some name := by
  rw [verdicts_eq, verdicts_eq, filter_keysOf_pid hpid
    (fun call ↦ call.pid = pid && call.kind.reader = some name)
    fun call h ↦ of_decide_eq_true (Bool.and_eq_true_iff.1 h).1]
  refine List.map_congr_left fun entry hentry ↦ ?_
  obtain ⟨hmem, hkeep⟩ := List.mem_filter.1 (List.mem_filter.1 hentry).1
  have hname : entry.1 = name := by
    have hreader := of_decide_eq_true (Bool.and_eq_true_iff.1 hkeep).2
    exact Option.some.inj ((reader_of_mem hmem).symm.trans hreader)
  rw [verdictOf, verdictOf, hname, cleanCalls_append hextra hclean]

/-! ### Blocked calls -/

theorem mem_of_workFirst (h : span ∈ workFirst spans) : span ∈ spans := by
  rw [workFirst] at h
  split_ifs at h
  · exact h
  · exact (List.mem_filter.1 h).1

theorem workFirst_ne_nil (h : spans ≠ []) : workFirst spans ≠ [] := by
  rw [workFirst]
  split_ifs with hempty
  · exact h
  · exact mt List.isEmpty_iff.2 hempty

/-- Of some spans there is one beside which the call ran longest. -/
theorem exists_longestBeside (call : Span) (h : spans ≠ []) :
    ∃ span ∈ longestBeside call spans, span ∈ spans := by
  have hpool := workFirst_ne_nil h
  have hlens : (workFirst spans).map (overlapLen call) ≠ [] := mt List.map_eq_nil_iff.1 hpool
  match hmost : ((workFirst spans).map (overlapLen call)).max? with
  | none => exact absurd (List.max?_eq_none_iff.1 hmost) hlens
  | some most =>
    obtain ⟨widest, hwidest, rfl⟩ := List.mem_map.1 (List.max?_mem hmost)
    have hne : (workFirst spans).filter (fun span ↦
        overlapLen call widest - SLACK_SECS ≤ overlapLen call span) ≠ [] := by
      refine List.ne_nil_of_mem (List.mem_filter.2 ⟨hwidest, decide_eq_true ?_⟩)
      exact sub_le_self _ (by decide)
    match hshortest : ((workFirst spans).filter fun span ↦
        overlapLen call widest - SLACK_SECS ≤ overlapLen call span).argmin Span.took with
    | none => exact absurd (List.argmin_eq_none.1 hshortest) hne
    | some span =>
      refine ⟨span, ?_, mem_of_workFirst (List.mem_filter.1 (List.argmin_mem hshortest)).1⟩
      rw [longestBeside, hmost]
      exact hshortest

/-- A culprit is found as soon as there is anything to blame. -/
theorem exists_culprit (call : Span) (wake : ℚ) (h : spans ≠ []) :
    ∃ span ∈ culprit call spans wake, span ∈ spans := by
  rw [culprit]
  split
  · next latest hlatest =>
    have hmem := mem_of_workFirst (List.mem_reverse.1 (List.argmax_mem hlatest))
    exact ⟨latest, rfl, (List.mem_filter.1 hmem).1⟩
  · exact exists_longestBeside call h

/-- A blocked call has one. -/
theorem exists_culprit_of_blocked {calls : List Span}
    (h : (judgeRaw calls (rawOf name call spans)).blocked = true) :
    ∃ span ∈ (judgeRaw calls (rawOf name call spans)).culprit, call.overlap span ≠ none := by
  obtain ⟨-, hoverlapped⟩ := Bool.and_eq_true_iff.1 h
  have hothers : (rawOf name call spans).others ≠ [] := by
    intro hnil
    have hoverlapped' : (rawOf name call spans).overlapped = 0 := by
      have hparts := List.map_eq_nil_iff.1 hnil
      simp only [rawOf, hparts]
      exact unionLen_nil
    exact absurd (hoverlapped' ▸ of_decide_eq_true hoverlapped) (by decide)
  obtain ⟨span, hspan, hmem⟩ := exists_culprit call (rawOf name call spans).wake hothers
  refine ⟨span, hspan, ?_⟩
  obtain ⟨entry, hentry, rfl⟩ := List.mem_map.1 hmem
  rw [(mem_beside.1 (List.mem_filter.1 hentry).1).2.2]
  exact Option.some_ne_none _

/-! ### Verdicts -/

/-- Nothing of its process overlaps the call. -/
def RunsAlone (call : Span) (rest : List Span) : Prop :=
  ∀ span ∈ rest, span.pid = call.pid → call.overlap span = none

/-- A call with nothing beside it runs alone. -/
theorem runsAlone_of_beside (h : beside call spans = []) : RunsAlone call spans := by
  intro span hmem hpid
  match hoverlap : call.overlap span with
  | none => rfl
  | some part =>
    have hentry : (span, part) ∈ beside call spans := mem_beside.2 ⟨hmem, hpid, hoverlap⟩
    rw [h] at hentry
    exact absurd hentry List.not_mem_nil

/-- So much such work ran beside a call. -/
def IsLength (call : Span) (work : Span → Prop) (rest : List Span) (length : ℚ) : Prop :=
  0 ≤ length ∧ length ≤ max 0 call.took ∧
    volume (timesBeside call work rest) = ENNReal.ofReal length

/-- The length of the parts is how long such work ran. -/
theorem isLength_parts (work : Span → Bool) :
    IsLength call (fun span ↦ work span = true) spans
      (unionLen (((beside call spans).filter fun (span, _) ↦ work span).map (·.2))) := by
  obtain ⟨hnonneg, hvolume⟩ := @unionLen_parts call spans work
  exact ⟨hnonneg, le_of_volume hvolume, hvolume⟩

/-- A verdict is on one of the spans, a reading call in the window. -/
theorem mem_judge {since till : Option ℚ} {judged : Judged} (h : judged ∈ judge spans since till) :
    ∃ i name, spans[i]? = some judged.call ∧ judged.call.kind.reader = some name ∧
      judged = judgeRaw (cleanCalls (raws spans) name)
        (rawOf name judged.call (spans.eraseIdx i)) := by
  obtain ⟨⟨name, raw⟩, hraw, rfl⟩ := List.mem_map.1 h
  obtain ⟨⟨call, i⟩, hcall, hentry⟩ := List.mem_filterMap.1 (List.mem_filter.1 hraw).1
  obtain ⟨tool, hreader, heq⟩ := Option.map_eq_some_iff.1 hentry
  obtain ⟨rfl, rfl⟩ := Prod.mk.inj heq
  exact ⟨i, tool, List.mem_zipIdx_iff_getElem?.1 hcall, hreader, rfl⟩

/-- **What a verdict says.** Own work and other work of a call are the lengths of the unions, no
longer than the call, and a blocked call has a culprit beside it; no verdict depends on the order of
the spans; spans of other processes leave the lengths as they are, and the base and the rest of the
verdict too if they are not calls of the same tool and none of them overlaps a clean one. -/
theorem judge_spec :
    (∀ spans since till, ∀ judged ∈ judge spans since till, ∃ i name,
      spans[i]? = some judged.call ∧ judged.call.kind.reader = some name ∧
      IsLength judged.call (fun span ↦ isOwnWork name judged.call span = true)
        (spans.eraseIdx i) judged.own ∧
      IsLength judged.call (fun span ↦ isOwnWork name judged.call span = false)
        (spans.eraseIdx i) judged.overlapped ∧
      (judged.blocked = true →
        ∃ culprit ∈ judged.culprit, judged.call.overlap culprit ≠ none)) ∧
      (∀ spans spans' since till, spans.Perm spans' →
        ((judge spans since till).map Judged.verdict).Perm
          ((judge spans' since till).map Judged.verdict)) ∧
      ∀ spans extra spans' since till pid, (spans ++ extra).Perm spans' →
        (∀ e ∈ extra, e.pid ≠ pid) →
        ((verdicts spans' since till fun call ↦ call.pid = pid).map Verdict.lengths).Perm
          ((verdicts spans since till fun call ↦ call.pid = pid).map Verdict.lengths) ∧
        ∀ name, (∀ e ∈ extra, e.kind.reader ≠ some name) →
          (∀ call ∈ spans, call.kind.reader = some name → RunsAlone call (spans.erase call) →
            RunsAlone call extra) →
          (verdicts spans' since till
            fun call ↦ call.pid = pid && call.kind.reader = some name).Perm
            (verdicts spans since till
              fun call ↦ call.pid = pid && call.kind.reader = some name) := by
  refine ⟨fun spans since till judged hjudged ↦ ?_,
    fun spans spans' since till h ↦ verdict_of_perm h since till,
    fun spans extra spans' since till pid hperm hpid ↦ ⟨?_, fun name hextra hclean ↦ ?_⟩⟩
  · obtain ⟨i, name, hi, hreader, hjudged⟩ := mem_judge hjudged
    refine ⟨i, name, hi, hreader, ?_, ?_, ?_⟩
    · rw [hjudged]
      exact isLength_parts (isOwnWork name judged.call)
    · -- Other work is what own work leaves out.
      have hothers := @isLength_parts judged.call (spans.eraseIdx i)
        fun span ↦ !isOwnWork name judged.call span
      simp only [Bool.not_eq_true'] at hothers
      rw [hjudged]
      exact hothers
    · intro hblocked
      rw [hjudged] at hblocked ⊢
      exact exists_culprit_of_blocked hblocked
  · have hlengths := (verdicts_of_perm hperm.symm since till fun call ↦ call.pid = pid).map
      Verdict.lengths
    rwa [lengths_append hpid] at hlengths
  · have hverdicts := verdicts_of_perm hperm.symm since till
      fun call ↦ call.pid = pid && call.kind.reader = some name
    rwa [verdicts_append hpid hextra fun call hcall hreader hbeside ↦
      beside_eq_nil (hclean call hcall hreader (runsAlone_of_beside hbeside))] at hverdicts

/-- A sync in another process, beside the only clean call of the tool: the base is gone, and a call
is blocked that was not. -/
theorem base_of_other_process :
    let search := Kind.tool "search".toList
    let spans : List Span := [⟨1, search, none, 0, 10⟩, ⟨1, .sync, none, 0, 5⟩,
      ⟨2, search, none, 0, 9⟩]
    let sync : Span := ⟨2, .sync, none, 0, 1⟩
    verdicts spans none none (·.pid = 1) = [⟨⟨1, search, none, 0, 10⟩, 0, 9, false, 5, false⟩] ∧
      verdicts (spans ++ [sync]) none none (·.pid = 1) =
        [⟨⟨1, search, none, 0, 10⟩, 0, 0, true, 5, true⟩] := by
  decide +kernel

end RustCodeMcp.ToolLatency
