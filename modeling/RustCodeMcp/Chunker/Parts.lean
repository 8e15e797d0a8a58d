import Mathlib.Data.Fintype.Card
import Mathlib.Data.Fintype.EquivFin
import Mathlib.Data.List.Chain
import RustCodeMcp.Chunker.Split

/-!
# What splitting keeps

The parts of a chunk are cut from its lines one after another (`CutFrom`), which is the invariant of
the loop over its lines; everything about their ranges, contents and numbers follows from it. That
dropping containers loses nothing rests on the containment of ranges alone: it is a strict order,
and among finitely many chunks something inside a dropped one is not dropped.

A container is dropped for its children's sake, so the question is whether the children are there. A
dropped chunk has a chunk strictly inside it, which may be dropped in turn; containment of ranges
has no infinite descent among finitely many chunks, and so there is always one inside that is kept
(`Dropped.exists_kept`).

**The whole output is one relation between chunks and pieces.** `Output` says of each chunk what it
comes out as, and the output is the pieces of all of them, in order (`output_splitOversizedChunks`);
every other fact is about one chunk and its pieces.
-/

namespace RustCodeMcp

/-! ### Parts cut from lines -/

/-- Parts cut one after another from lines, the first of which is `start` lines into the chunk. -/
inductive CutFrom (chunk : CodeChunk) : ℕ → List CodeChunk → List String → Prop
  | nil (start : ℕ) : CutFrom chunk start [] []
  | cons {start : ℕ} {part : CodeChunk} {parts : List CodeChunk} {group rest : List String}
      (hne : group ≠ []) (hcontent : part.content = joinLines group)
      (hstart : part.context.lineStart = chunk.context.lineStart + start)
      (hend : part.context.lineEnd + 1 = chunk.context.lineStart + start + group.length)
      (h : CutFrom chunk (start + group.length) parts rest) :
      CutFrom chunk start (part :: parts) (group ++ rest)

namespace CutFrom

variable {chunk : CodeChunk} {start : ℕ} {parts : List CodeChunk} {ls : List String}

/-- Parts cut from lines, and more parts cut from the lines after them. -/
theorem append {parts' : List CodeChunk} {ls' : List String} (h : CutFrom chunk start parts ls)
    (h' : CutFrom chunk (start + ls.length) parts' ls') :
    CutFrom chunk start (parts ++ parts') (ls ++ ls') := by
  induction h with
  | nil start => exact h'
  | cons hne hcontent hstart hend _ ih =>
    rw [List.append_assoc]
    refine cons hne hcontent hstart hend (ih ?_)
    rwa [List.length_append, ← Nat.add_assoc] at h'

/-- One part more, cut from the lines after the others. -/
theorem concat (id : ChunkId) (bare : Bool) {group : List String}
    (h : CutFrom chunk start parts ls) (hne : group ≠ []) :
    CutFrom chunk start (parts ++ [makePartChunk id chunk (start + ls.length)
      (start + ls.length + group.length) (joinLines group) bare]) (ls ++ group) := by
  have hpos : 0 < group.length := List.length_pos_iff.2 hne
  refine h.append ?_
  have hlast : CutFrom chunk (start + ls.length) [makePartChunk id chunk (start + ls.length)
      (start + ls.length + group.length) (joinLines group) bare] (group ++ []) :=
    cons hne rfl rfl (by simp only [makePartChunk]; omega) (nil _)
  rwa [List.append_nil] at hlast

/-- What is said of the parts is about their contents and their ranges. -/
theorem mapIdx {f : ℕ → CodeChunk → CodeChunk} (h : CutFrom chunk start parts ls)
    (hf : ∀ idx part, (f idx part).content = part.content ∧
      (f idx part).context.lineStart = part.context.lineStart ∧
      (f idx part).context.lineEnd = part.context.lineEnd) :
    CutFrom chunk start (parts.mapIdx f) ls := by
  induction h generalizing f with
  | nil start => exact nil start
  | @cons start part parts group rest hne hcontent hstart hend _ ih =>
    obtain ⟨hcontent', hstart', hend'⟩ := hf 0 part
    rw [List.mapIdx_cons]
    exact cons hne (hcontent'.trans hcontent) (hstart'.trans hstart) (by rw [hend', hend])
      (ih fun idx part ↦ hf (idx + 1) part)

theorem lineStart_head (h : CutFrom chunk start parts ls) :
    ∀ part ∈ parts.head?, part.context.lineStart = chunk.context.lineStart + start := by
  cases h with
  | nil => simp
  | cons hne hcontent hstart hend _ => simpa using hstart

/-- A part begins among the lines, and ends where it begins or later. -/
theorem range (h : CutFrom chunk start parts ls) : ∀ part ∈ parts,
    chunk.context.lineStart + start ≤ part.context.lineStart ∧
      part.context.lineStart ≤ part.context.lineEnd := by
  induction h with
  | nil => simp
  | @cons start part parts group rest hne hcontent hstart hend _ ih =>
    have hpos : 0 < group.length := List.length_pos_iff.2 hne
    refine List.forall_mem_cons.2 ⟨by omega, fun other hother ↦ ?_⟩
    have hother := ih other hother
    omega

theorem contiguous (h : CutFrom chunk start parts ls) :
    parts.IsChain fun part next ↦ next.context.lineStart = part.context.lineEnd + 1 := by
  induction h with
  | nil => exact List.isChain_nil
  | @cons start part parts group rest hne hcontent hstart hend hrest ih =>
    refine List.isChain_cons.2 ⟨fun next hnext ↦ ?_, ih⟩
    have hnext := hrest.lineStart_head next hnext
    omega

theorem disjoint (h : CutFrom chunk start parts ls) :
    parts.Pairwise fun part later ↦ part.context.lineEnd < later.context.lineStart := by
  induction h with
  | nil => exact List.Pairwise.nil
  | @cons start part parts group rest hne hcontent hstart hend hrest ih =>
    refine List.pairwise_cons.2 ⟨fun later hlater ↦ ?_, ih⟩
    have hlater := hrest.range later hlater
    omega

theorem lineEnd_last (h : CutFrom chunk start parts ls) : ∀ part ∈ parts.getLast?,
    part.context.lineEnd + 1 = chunk.context.lineStart + start + ls.length := by
  induction h with
  | nil => simp
  | @cons start part parts group rest hne hcontent hstart hend hrest ih =>
    intro last hlast
    rw [List.length_append]
    rcases parts with - | ⟨second, parts⟩
    · cases hrest
      simp only [List.getLast?_singleton, Option.mem_some_iff] at hlast
      subst hlast
      simpa using hend
    · rw [List.getLast?_cons_cons] at hlast
      have hlast := ih last hlast
      omega

/-- The contents of the parts make up the lines. -/
theorem content (h : CutFrom chunk start parts ls) :
    joinLines (parts.map CodeChunk.content) = joinLines ls ∧ (parts = [] ↔ ls = []) := by
  induction h with
  | nil => simp
  | @cons start part parts group rest hne hcontent hstart hend hrest ih =>
    refine ⟨?_, by simp [hne]⟩
    rcases parts with - | ⟨second, parts⟩
    · rw [ih.2.1 rfl, List.append_nil, List.map_singleton, hcontent, joinLines,
        String.intercalate_singleton]
    · have hrest_ne : rest ≠ [] := mt ih.2.2 (List.cons_ne_nil _ _)
      rw [List.map_cons, joinLines, String.intercalate_cons_of_ne_nil (by simp),
        hcontent, ← joinLines, ih.1]
      exact (String.intercalate_append_of_ne_nil hne hrest_ne).symm

end CutFrom

/-! ### The loop over the lines -/

section Loop

variable {config : ChunkSplitConfig} {tokenCount : CodeChunk → Option ℕ} {chunk : CodeChunk}

/-- What the loop keeps: its parts are cut from the lines before the current ones. -/
def LineSplit.Inv (chunk : CodeChunk) (state : LineSplit) (read : List String) : Prop :=
  ∃ done, CutFrom chunk 0 state.parts done ∧ state.partStart = done.length ∧
    done ++ state.currentLines = read ∧ (read ≠ [] → state.currentLines ≠ [])

/-- **Reading a line keeps the invariant.** -/
theorem LineSplit.Inv.read {state : LineSplit} {read : List String} (h : state.Inv chunk read)
    (line : String) :
    (state.read config tokenCount chunk (line, read.length)).Inv chunk (read ++ [line]) := by
  obtain ⟨done, hcut, hstart, hread, -⟩ := h
  unfold LineSplit.read
  extract_lets candidate part
  split
  next hfull =>
    have hne : state.currentLines ≠ [] := by
      intro hnil
      simp [hnil] at hfull
    refine ⟨read, ?_, rfl, rfl, fun _ ↦ by simp⟩
    have hlength : state.partStart + state.currentLines.length = read.length := by
      rw [hstart, ← hread, List.length_append]
    have hconcat := hcut.concat ⟨state.next + 1⟩ (state.bare config) hne
    rwa [hread, Nat.zero_add, ← hstart, hlength] at hconcat
  next =>
    exact ⟨done, hcut, hstart, by simp [← hread], fun _ ↦ by simp⟩

theorem LineSplit.Inv.foldl {state : LineSplit} {read : List String} (h : state.Inv chunk read)
    (ls : List String) :
    ((ls.zipIdx read.length).foldl (LineSplit.read config tokenCount chunk) state).Inv chunk
      (read ++ ls) := by
  induction ls generalizing state read with
  | nil => simpa using h
  | cons line rest ih =>
    have hrest := ih (@LineSplit.Inv.read config tokenCount chunk state read h line)
    rw [List.length_append, List.length_singleton, List.append_assoc,
      List.singleton_append] at hrest
    rwa [List.zipIdx_cons, List.foldl_cons]

/-- What the parts of a chunk are. -/
structure PartsOf (chunk : CodeChunk) (parts : List CodeChunk) : Prop where
  several : 2 ≤ parts.length
  /-- The first part starts with the chunk. -/
  first : ∀ part ∈ parts.head?, part.context.lineStart = chunk.context.lineStart
  /-- The last part ends with the last of the chunk's lines. -/
  last : ∀ part ∈ parts.getLast?,
    part.context.lineEnd + 1 = chunk.context.lineStart + (lines chunk.content).length
  nonempty : ∀ part ∈ parts, part.context.lineStart ≤ part.context.lineEnd
  contiguous : parts.IsChain fun part next ↦ next.context.lineStart = part.context.lineEnd + 1
  disjoint : parts.Pairwise fun part later ↦ part.context.lineEnd < later.context.lineStart
  /-- Put together, the parts are the chunk's lines. -/
  content : joinLines (parts.map CodeChunk.content) = joinLines (lines chunk.content)
  numbered : ∀ idx part, parts[idx]? = some part →
    part.context.splitPart = some (idx + 1) ∧ part.context.splitTotal = some parts.length

/-- Numbered parts, cut from the lines of a chunk, are its parts. -/
theorem partsOf_numberParts {parts : List CodeChunk}
    (h : CutFrom chunk 0 parts (lines chunk.content)) (hseveral : 2 ≤ parts.length) :
    PartsOf chunk (numberParts parts) := by
  have hcut : CutFrom chunk 0 (numberParts parts) (lines chunk.content) :=
    h.mapIdx fun _ _ ↦ ⟨rfl, rfl, rfl⟩
  refine ⟨by simpa [numberParts] using hseveral, fun part hpart ↦ ?_, fun part hpart ↦ ?_,
    fun part hpart ↦ (hcut.range part hpart).2, hcut.contiguous, hcut.disjoint, hcut.content.1,
    fun idx part hpart ↦ ?_⟩
  · exact hcut.lineStart_head part hpart
  · exact hcut.lineEnd_last part hpart
  · rw [numberParts, List.getElem?_mapIdx, Option.map_eq_some_iff] at hpart
    obtain ⟨part, -, rfl⟩ := hpart
    simp [numberParts]

/-- **What cutting a chunk by lines gives**: its parts, or the chunk itself. -/
theorem splitLeafChunk_cases (next : ℕ) :
    (splitLeafChunk config tokenCount chunk next).1 = [chunk] ∨
      PartsOf chunk (splitLeafChunk config tokenCount chunk next).1 := by
  unfold splitLeafChunk
  extract_lets chunkLines state
  split
  · exact Or.inl rfl
  next hlines =>
  have hinv : state.Inv chunk chunkLines := by
    have hstart : (⟨[], 0, [], next⟩ : LineSplit).Inv chunk [] :=
      ⟨[], .nil 0, rfl, rfl, fun h ↦ absurd rfl h⟩
    exact hstart.foldl chunkLines
  obtain ⟨done, hcut, hdone, hread, hcurrent⟩ := hinv
  have hcurrent := hcurrent fun hnil ↦ hlines (by simp [hnil])
  have hconcat := hcut.concat ⟨state.next⟩ (state.bare config) hcurrent
  have hlength : done.length + state.currentLines.length = chunkLines.length := by
    rw [← hread, List.length_append]
  rw [hread, Nat.zero_add, hlength, ← hdone] at hconcat
  rw [if_neg (by simpa using hcurrent)]
  simp only
  split
  · exact Or.inl rfl
  next hseveral => exact Or.inr (partsOf_numberParts hconcat (by omega))

end Loop

/-! ### Dropped containers -/

section Dropped

variable {config : ChunkSplitConfig} {tokenCount : CodeChunk → Option ℕ} {chunks : List CodeChunk}
  {a b c : CodeChunk}

/-- The chunk at an index is dropped. -/
def Dropped (config : ChunkSplitConfig) (tokenCount : CodeChunk → Option ℕ)
    (chunks : List CodeChunk) (idx : ℕ) : Prop :=
  (skipContainer config tokenCount chunks).getD idx false = true

/-- One chunk strictly contains another if it is of the same file, reaches at least as far at both
ends, and further at one of them. -/
theorem strictlyContains_iff : strictlyContains a b = true ↔
    a.context.filePath = b.context.filePath ∧ a.context.lineStart ≤ b.context.lineStart ∧
      b.context.lineEnd ≤ a.context.lineEnd ∧
      (a.context.lineStart < b.context.lineStart ∨ b.context.lineEnd < a.context.lineEnd) := by
  simp [strictlyContains, and_assoc]

theorem strictlyContains_irrefl (a : CodeChunk) : ¬ strictlyContains a a = true := by
  simp [strictlyContains_iff]

theorem strictlyContains_trans (hab : strictlyContains a b = true)
    (hbc : strictlyContains b c = true) : strictlyContains a c = true := by
  rw [strictlyContains_iff] at *
  exact ⟨hab.1.trans hbc.1, by omega, by omega, by omega⟩

/-- **What is dropped**: a container over the limit with a chunk inside it. -/
theorem dropped_iff {idx : ℕ} (ha : chunks[idx]? = some a) :
    Dropped config tokenCount chunks idx ↔
      config.targetTokens < tokenCountOrEstimate tokenCount a ∧
        isContainerKind a.context.symbolKind = true ∧
        ∃ child ∈ chunks, strictlyContains a child = true := by
  -- A chunk is not inside itself, so the one at `idx` need not be left out.
  have hchild : (chunks.zipIdx.any fun child ↦
      decide (child.2 ≠ idx) && strictlyContains a child.1) = true ↔
      ∃ child ∈ chunks, strictlyContains a child = true := by
    simp only [List.any_eq_true, Bool.and_eq_true, decide_eq_true_eq, Prod.exists,
      List.mk_mem_zipIdx_iff_getElem?]
    constructor
    · rintro ⟨child, idx', hmem, -, hcontains⟩
      exact ⟨child, List.mem_of_getElem? hmem, hcontains⟩
    · rintro ⟨child, hmem, hcontains⟩
      obtain ⟨idx', hidx'⟩ := List.mem_iff_getElem?.1 hmem
      refine ⟨child, idx', hidx', ?_, hcontains⟩
      rintro rfl
      obtain rfl := Option.some.inj (ha.symm.trans hidx')
      exact strictlyContains_irrefl _ hcontains
  rw [Dropped, skipContainer, List.getD_eq_getElem?_getD, List.getElem?_map,
    List.getElem?_zipIdx, ha]
  simp only [Option.map_some, Option.getD_some, Nat.zero_add, ← hchild, ← Nat.not_le]
  split
  next hkept =>
    rw [Bool.or_eq_true, decide_eq_true_eq, Bool.not_eq_true'] at hkept
    simp only [Bool.false_eq_true, false_iff, not_and]
    intro hover hcontainer
    rcases hkept with hwithin | hkind
    · exact absurd hwithin hover
    · rw [hkind] at hcontainer
      cases hcontainer
  next hdropped =>
    rw [Bool.or_eq_true, decide_eq_true_eq, Bool.not_eq_true', not_or, Bool.not_eq_false]
      at hdropped
    rw [and_iff_right hdropped.1, and_iff_right hdropped.2]

/-- **Inside every dropped chunk there is one that is not dropped.** Containment is a strict order,
so among finitely many chunks going further inside comes to an end. -/
theorem Dropped.exists_kept {idx : ℕ} (h : Dropped config tokenCount chunks idx)
    (ha : chunks[idx]? = some a) :
    ∃ (idx' : ℕ) (child : CodeChunk), chunks[idx']? = some child ∧
      ¬ Dropped config tokenCount chunks idx' ∧ strictlyContains a child = true := by
  let inside (i j : Fin chunks.length) : Prop := strictlyContains chunks[j] chunks[i] = true
  have : IsTrans (Fin chunks.length) inside :=
    ⟨fun i j k hij hjk ↦ strictlyContains_trans hjk hij⟩
  have : Std.Irrefl inside := ⟨fun i ↦ strictlyContains_irrefl _⟩
  have hwf : WellFounded inside := Finite.wellFounded_of_trans_of_irrefl inside
  have hkept : ∀ i : Fin chunks.length, Dropped config tokenCount chunks i →
      ∃ j : Fin chunks.length, ¬ Dropped config tokenCount chunks j ∧ inside j i := by
    intro i
    induction i using hwf.induction with
    | _ i ih =>
      intro hi
      obtain ⟨-, -, child, hmem, hchild⟩ := (dropped_iff (List.getElem?_eq_getElem i.2)).1 hi
      obtain ⟨j, hlt, rfl⟩ := List.mem_iff_getElem.1 hmem
      by_cases hdropped : Dropped config tokenCount chunks j
      · obtain ⟨k, hk, hinside⟩ := ih ⟨j, hlt⟩ hchild hdropped
        exact ⟨k, hk, strictlyContains_trans hchild hinside⟩
      · exact ⟨⟨j, hlt⟩, hdropped, hchild⟩
  obtain ⟨hlt, rfl⟩ := List.getElem?_eq_some_iff.1 ha
  obtain ⟨j, hj, hinside⟩ := hkept ⟨idx, hlt⟩ h
  exact ⟨j, chunks[j], List.getElem?_eq_getElem j.2, hj, hinside⟩

/-- A dropped chunk around the one at `idx`. -/
def DroppedAround (config : ChunkSplitConfig) (tokenCount : CodeChunk → Option ℕ)
    (chunks : List CodeChunk) (chunk parent : CodeChunk) : Prop :=
  ∃ idx, chunks[idx]? = some parent ∧ Dropped config tokenCount chunks idx ∧
    strictlyContains parent chunk = true

/-- A chunk as it is embedded: under the name of a smallest dropped chunk around it, or, if there is
none, as it was. -/
inductive Named (config : ChunkSplitConfig) (tokenCount : CodeChunk → Option ℕ)
    (chunks : List CodeChunk) (chunk : CodeChunk) : CodeChunk → Prop
  | same (h : ∀ parent, ¬ DroppedAround config tokenCount chunks chunk parent) :
    Named config tokenCount chunks chunk chunk
  | inside (parent : CodeChunk) (h : DroppedAround config tokenCount chunks chunk parent)
      (hsmallest : ∀ other, DroppedAround config tokenCount chunks chunk other →
        parent.context.lineEnd - parent.context.lineStart ≤
          other.context.lineEnd - other.context.lineStart) :
    Named config tokenCount chunks chunk { chunk with context := { chunk.context with
      parentSymbolName := some parent.context.symbolName } }

/-- What is embedded of a chunk is named as `Named` says. -/
theorem named_withSkippedParent {idx : ℕ} {chunk : CodeChunk} (hchunk : chunks[idx]? = some chunk) :
    Named config tokenCount chunks chunk
      (withSkippedParent chunks (skipContainer config tokenCount chunks) idx chunk) := by
  -- The one at `idx` itself is not among the candidates, but neither is it around itself.
  have hmem : ∀ parent idx', (parent, idx') ∈ chunks.zipIdx.filter (fun p ↦
      (skipContainer config tokenCount chunks).getD p.2 false && decide (p.2 ≠ idx) &&
        strictlyContains p.1 chunk) ↔
      chunks[idx']? = some parent ∧ Dropped config tokenCount chunks idx' ∧
        strictlyContains parent chunk = true := by
    intro parent idx'
    simp only [List.mem_filter, List.mk_mem_zipIdx_iff_getElem?, Bool.and_eq_true,
      decide_eq_true_eq, Dropped, and_assoc]
    refine and_congr_right fun hparent ↦ and_congr_right fun _ ↦
      and_iff_right_of_imp fun hcontains ↦ ?_
    rintro rfl
    rw [hchunk, Option.some.injEq] at hparent
    subst hparent
    exact strictlyContains_irrefl _ hcontains
  unfold withSkippedParent nearestSkippedParent
  rcases hnearest : List.argmin _ _ with - | ⟨parent, idx'⟩
  · refine .same fun parent hsome ↦ ?_
    obtain ⟨idx', hparent⟩ := hsome
    have hin := (hmem parent idx').2 hparent
    rw [List.argmin_eq_none.1 hnearest] at hin
    simp at hin
  · refine .inside parent ⟨idx', (hmem parent idx').1 (List.argmin_mem hnearest)⟩ ?_
    rintro other ⟨idx'', hother⟩
    exact List.le_of_mem_argmin ((hmem other idx'').2 hother) hnearest

end Dropped

/-! ### The output -/

section Output

variable (config : ChunkSplitConfig) (tokenCount : CodeChunk → Option ℕ) (chunks : List CodeChunk)

/-- What a chunk that is not dropped comes out as: itself if it is within the limit, else its parts,
or itself if it cannot be cut. -/
structure Pieces (chunk : CodeChunk) (pieces : List CodeChunk) : Prop where
  within : tokenCountOrEstimate tokenCount chunk ≤ config.targetTokens → pieces = [chunk]
  oversized : config.targetTokens < tokenCountOrEstimate tokenCount chunk →
    pieces = [chunk] ∨ PartsOf chunk pieces

/-- What the chunk at an index comes out as: nothing if it is dropped, else the pieces of it under
the name of a smallest dropped chunk around it. -/
def Output (chunk : CodeChunk × ℕ) (pieces : List CodeChunk) : Prop :=
  if (skipContainer config tokenCount chunks).getD chunk.2 false then pieces = []
  else ∃ named, Named config tokenCount chunks chunk.1 named ∧ Pieces config tokenCount named pieces

/-- What the chunk at an index is cut into, with some supply of identifiers: nothing if it is
dropped. -/
def CutAt (chunk : CodeChunk × ℕ) (pieces : List CodeChunk) : Prop :=
  if (skipContainer config tokenCount chunks).getD chunk.2 false then pieces = []
  else ∃ next, pieces = (splitChunk config tokenCount (withSkippedParent chunks
    (skipContainer config tokenCount chunks) chunk.2 chunk.1) next).1

variable {config tokenCount chunks}

theorem pieces_splitChunk (chunk : CodeChunk) (next : ℕ) :
    Pieces config tokenCount chunk (splitChunk config tokenCount chunk next).1 := by
  refine ⟨fun hwithin ↦ ?_, fun hover ↦ ?_⟩
  · rw [splitChunk, if_neg (Nat.not_lt.2 hwithin)]
  · rw [splitChunk, if_pos hover]
    exact splitLeafChunk_cases next

/-- **The output is cut chunk by chunk**, with whatever identifiers. -/
theorem cutAt_foldl (rest : List (CodeChunk × ℕ)) (output : List CodeChunk × ℕ) :
    ∃ pieces, List.Forall₂ (CutAt config tokenCount chunks) rest pieces ∧
      (rest.foldl (splitNext config tokenCount chunks) output).1 = output.1 ++ pieces.flatten := by
  induction rest generalizing output with
  | nil => exact ⟨[], .nil, by simp⟩
  | cons chunk rest ih =>
    obtain ⟨pieces, hpieces, hnext⟩ : ∃ pieces, CutAt config tokenCount chunks chunk pieces ∧
        (splitNext config tokenCount chunks output chunk).1 = output.1 ++ pieces := by
      unfold CutAt splitNext
      extract_lets skip pieces
      split
      · exact ⟨[], rfl, (List.append_nil _).symm⟩
      · exact ⟨pieces.1, ⟨_, rfl⟩, rfl⟩
    obtain ⟨others, hothers, hfold⟩ := ih (splitNext config tokenCount chunks output chunk)
    refine ⟨pieces :: others, .cons hpieces hothers, ?_⟩
    rw [List.foldl_cons, hfold, hnext, List.flatten_cons, List.append_assoc]

theorem CutAt.output {chunk : CodeChunk × ℕ} {pieces : List CodeChunk}
    (h : CutAt config tokenCount chunks chunk pieces) (hchunk : chunks[chunk.2]? = some chunk.1) :
    Output config tokenCount chunks chunk pieces := by
  unfold CutAt at h
  unfold Output
  split at h
  next hskip => rwa [if_pos hskip]
  next hskip =>
    obtain ⟨next, rfl⟩ := h
    rw [if_neg hskip]
    exact ⟨_, named_withSkippedParent hchunk, pieces_splitChunk _ _⟩

/-- The loop over the chunks puts out the pieces of each, in order. -/
theorem output_foldl {rest : List (CodeChunk × ℕ)}
    (hrest : ∀ chunk ∈ rest, chunks[chunk.2]? = some chunk.1) (output : List CodeChunk × ℕ) :
    ∃ pieces, List.Forall₂ (Output config tokenCount chunks) rest pieces ∧
      (rest.foldl (splitNext config tokenCount chunks) output).1 = output.1 ++ pieces.flatten := by
  obtain ⟨pieces, hpieces, hfold⟩ := @cutAt_foldl config tokenCount chunks rest output
  exact ⟨pieces, ((List.forall₂_and_left _ _).2 ⟨hrest, hpieces⟩).imp fun _ _ h ↦ h.2.output h.1,
    hfold⟩

/-- **Splitting loses no code.** The output is, chunk by chunk and in their order, what each comes
out as: nothing if it is dropped, else itself or its parts, under the name of a smallest dropped
chunk around it. Only containers over the limit are dropped, so every chunk within it is kept; and
inside every dropped chunk there is one that is not dropped. -/
theorem output_splitOversizedChunks (config : ChunkSplitConfig) (tokenCount : CodeChunk → Option ℕ)
    (chunks : List CodeChunk) (next : ℕ) :
    (∃ pieces, List.Forall₂ (Output config tokenCount chunks) chunks.zipIdx pieces ∧
      (splitOversizedChunks config tokenCount chunks next).1 = pieces.flatten) ∧
    ∀ (idx : ℕ) (chunk : CodeChunk), chunks[idx]? = some chunk →
      (Dropped config tokenCount chunks idx ↔
        config.targetTokens < tokenCountOrEstimate tokenCount chunk ∧
          isContainerKind chunk.context.symbolKind = true ∧
          ∃ child ∈ chunks, strictlyContains chunk child = true) ∧
      (Dropped config tokenCount chunks idx →
        ∃ (idx' : ℕ) (child : CodeChunk), chunks[idx']? = some child ∧
          ¬ Dropped config tokenCount chunks idx' ∧ strictlyContains chunk child = true) :=
  ⟨output_foldl (fun _ hchunk ↦ List.mk_mem_zipIdx_iff_getElem?.1 hchunk) ([], next),
    fun _ _ hchunk ↦ ⟨dropped_iff hchunk, fun hdropped ↦ hdropped.exists_kept hchunk⟩⟩

/-- An `impl` of six lines and a function in it. -/
def implAndFunction : List CodeChunk :=
  let chunk (symbolName symbolKind content : String) (lineStart lineEnd : ℕ) : CodeChunk :=
    ⟨⟨lineStart⟩, content, {
      filePath := ["src", "lib.rs"]
      modulePath := ["crate"]
      symbolName
      symbolKind
      docstring := none
      imports := []
      outgoingCalls := []
      parentSymbolName := none
      splitPart := none
      splitTotal := none
      lineStart
      lineEnd }⟩
  [chunk "impl Foo" "impl" "a\nb\nc\nd\ne\nf" 1 6, chunk "a" "function" "b\nc" 2 3]

/-- **A chunk within the limit is not kept as it is** if the container around it is dropped: it
comes out under its name. -/
theorem not_mem_output_implAndFunction :
    ∃ chunk ∈ implAndFunction,
      tokenCountOrEstimate (fun chunk ↦ some (lines chunk.content).length) chunk ≤ 5 ∧
      chunk ∉ (splitOversizedChunks (.new 5 8) (fun chunk ↦ some (lines chunk.content).length)
        implAndFunction 7).1 := by
  decide +kernel

end Output

end RustCodeMcp
