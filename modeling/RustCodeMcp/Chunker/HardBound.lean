import RustCodeMcp.Chunker.Parts
import RustCodeMcp.Order.Greedy

/-!
# The hard bound on tokens

Nothing holds a chunk against the hard bound. Parts are measured against the target, and get the
line that says which part they are afterwards; a chunk over the target whose lines, put together
again, are not, is kept as it is. So what is stored may have as many tokens over the target as a
tokenizer counts for these differences.

The loop over the lines of a chunk divides them greedily by the target, which is said without the
loop by `Greedy.Division`: there is one such division of the lines of a chunk, and the parts are
those of its runs (`splitLeafChunk_divided`).

## Main statements

* `hardBound_iff`: for every list of chunks and every tokenizer, what is stored is within the hard
  bound exactly when each chunk that is not dropped is cut within it (`CutsWithinBound`).
* `hardBound_of_adds`: it is enough that the hard bound leaves room, over the target, for what the
  tokenizer adds at most for a part's number and for a chunk's lines as they were.
* `forall_hardBound_iff`: with less room there are a tokenizer and a list of chunks over the bound.
-/

namespace RustCodeMcp

/-! ### Lines of lines -/

theorem newline_notMem_of_mem_linesFrom {l : String} (chars read : List Char) (hread : '\n' ∉ read)
    (h : l ∈ linesFrom chars read) : '\n' ∉ l.toList := by
  induction chars generalizing read with
  | nil =>
    rcases read with - | ⟨c, read⟩
    · cases h
    · rw [linesFrom, List.mem_singleton] at h
      · rw [h, String.toList_ofList, List.mem_reverse]
        exact hread
      · exact List.cons_ne_nil _ _
  | cons c chars ih =>
    by_cases hc : c = '\n'
    · subst hc
      rw [linesFrom, List.mem_cons] at h
      rcases h with rfl | h
      · unfold lineText
        split
        · rw [String.toList_ofList, List.mem_reverse]
          exact fun hmem ↦ hread (List.mem_cons_of_mem _ hmem)
        · rw [String.toList_ofList, List.mem_reverse]
          exact hread
      · exact ih [] List.not_mem_nil h
    · rw [linesFrom] at h
      · refine ih (c :: read) (fun hmem ↦ ?_) h
        rcases List.mem_cons.1 hmem with heq | hmem
        · exact hc heq.symm
        · exact hread hmem
      · exact fun heq ↦ hc heq

theorem length_linesFrom_le (chars read : List Char) (h : '\n' ∉ chars) :
    (linesFrom chars read).length ≤ 1 := by
  induction chars generalizing read with
  | nil => rcases read with - | ⟨c, read⟩ <;> simp [linesFrom]
  | cons c chars ih =>
    obtain ⟨hc, hchars⟩ := not_or.1 (List.mem_cons.not.1 h)
    rw [linesFrom]
    · exact ih _ hchars
    · exact fun heq ↦ hc heq.symm

/-- **A line is one line.** -/
theorem length_lines_of_mem_lines {text l : String} (h : l ∈ lines text) :
    (lines l).length ≤ 1 :=
  length_linesFrom_le _ _ (newline_notMem_of_mem_linesFrom _ _ List.not_mem_nil h)

/-! ### Counting texts -/

/-- Count the tokens of a chunk as a tokenizer does those of its embedded text. -/
def countText (tokenizer : String → Option ℕ) (chunk : CodeChunk) : Option ℕ :=
  tokenizer chunk.formatForEmbedding

/-- The tokens a chunk is taken to have. -/
abbrev tokensOf (tokenizer : String → Option ℕ) (chunk : CodeChunk) : ℕ :=
  tokenCountOrEstimate (countText tokenizer) chunk

/-- A part under its number. -/
def numbered (part : CodeChunk) (idx total : ℕ) : CodeChunk :=
  { part with context := { part.context with
      splitPart := some idx
      splitTotal := some total } }

/-- A chunk with its lines put together again, and the range that they make. -/
def rejoined (chunk : CodeChunk) : CodeChunk :=
  makePartChunk chunk.id chunk 0 (lines chunk.content).length
    (joinLines (lines chunk.content)) false

/-- What a tokenizer counts for the number of a part, and for a text over its lines put together
again, is at most `extra` tokens. -/
structure AddsAtMost (tokenizer : String → Option ℕ) (extra : ℕ) : Prop where
  number : ∀ part idx total,
    tokensOf tokenizer (numbered part idx total) ≤ tokensOf tokenizer part + extra
  rejoin : ∀ chunk, tokensOf tokenizer chunk ≤ tokensOf tokenizer (rejoined chunk) + extra

/-- Every chunk of two lines or more in the output is, as it is stored, within the hard bound. -/
def HardBound (config : ChunkSplitConfig) (tokenizer : String → Option ℕ) (chunks : List CodeChunk)
    (next : ℕ) : Prop :=
  ∀ chunk ∈ (splitOversizedChunks config (countText tokenizer) chunks next).1,
    2 ≤ (lines chunk.content).length → tokensOf tokenizer chunk ≤ config.hardMaxTokens

section Bound

variable {config : ChunkSplitConfig} {tokenizer : String → Option ℕ} {chunk : CodeChunk}

/-! ### The parts of a chunk -/

/-- What the lines from `run.1` on to before `run.2` make as a part of a chunk that has no number
yet. A tokenizer does not see which identifier it gets. -/
def partOf (config : ChunkSplitConfig) (chunk : CodeChunk) (run : ℕ × ℕ) : CodeChunk :=
  makePartChunk chunk.id chunk run.1 run.2
    (joinLines (((lines chunk.content).take run.2).drop run.1))
    (config.contextInFirstPartOnly && decide (run.1 ≠ 0))

/-- The lines from `s` on to before `e` make a part within the target. -/
def WithinTarget (config : ChunkSplitConfig) (tokenizer : String → Option ℕ) (chunk : CodeChunk)
    (s e : ℕ) : Prop :=
  tokensOf tokenizer (partOf config chunk (s, e)) ≤ config.targetTokens

/-- The greedy division of the lines of a chunk by the target. -/
abbrev DividedInto (config : ChunkSplitConfig) (tokenizer : String → Option ℕ) (chunk : CodeChunk)
    (runs : List (ℕ × ℕ)) : Prop :=
  Greedy.Division (WithinTarget config tokenizer chunk) (lines chunk.content).length 0 runs

/-- **When a chunk comes out within the hard bound.** One over the target that has two lines or more
is divided greedily. If this leaves it in one run, it is kept whole, so the bound has to hold for
the chunk itself; otherwise for every run whose part has two lines or more, as it is numbered. -/
def CutsWithinBound (config : ChunkSplitConfig) (tokenizer : String → Option ℕ)
    (chunk : CodeChunk) : Prop :=
  config.targetTokens < tokensOf tokenizer chunk → 2 ≤ (lines chunk.content).length →
    ∀ runs, DividedInto config tokenizer chunk runs →
      if runs.length ≤ 1 then tokensOf tokenizer chunk ≤ config.hardMaxTokens
      else ∀ (idx : ℕ) (run : ℕ × ℕ), runs[idx]? = some run →
        2 ≤ (lines (partOf config chunk run).content).length →
          tokensOf tokenizer (numbered (partOf config chunk run) (idx + 1) runs.length) ≤
            config.hardMaxTokens

/-- A run of one line makes a part of one line. -/
theorem length_lines_partOf_le {run : ℕ × ℕ} (h : ¬ run.1 + 1 < run.2) :
    (lines (partOf config chunk run).content).length ≤ 1 := by
  have hlength : (((lines chunk.content).take run.2).drop run.1).length ≤ 1 := by
    rw [List.length_drop, List.length_take]
    omega
  show (lines (joinLines _)).length ≤ 1
  rcases hgroup : ((lines chunk.content).take run.2).drop run.1 with - | ⟨line, rest⟩
  · decide
  · rw [hgroup, List.length_cons] at hlength
    obtain rfl := List.eq_nil_of_length_eq_zero (Nat.le_zero.1 (Nat.le_of_succ_le_succ hlength))
    have hline : line ∈ ((lines chunk.content).take run.2).drop run.1 :=
      hgroup ▸ List.mem_singleton_self line
    rw [joinLines, String.intercalate_singleton]
    exact length_lines_of_mem_lines (List.mem_of_mem_take (List.mem_of_mem_drop hline))

/-- The part of a run, under an identifier of its own. -/
def IsPartOf (config : ChunkSplitConfig) (chunk part : CodeChunk) (run : ℕ × ℕ) : Prop :=
  ∃ id, part = { partOf config chunk run with id }

/-- What the loop keeps after `count` lines: its parts are those of full runs, and the current
lines a run that has grown after them. -/
structure LineSplit.Divides (config : ChunkSplitConfig) (tokenizer : String → Option ℕ)
    (chunk : CodeChunk) (state : LineSplit) (count : ℕ) : Prop where
  full : ∃ runs, Greedy.Full (WithinTarget config tokenizer chunk) 0 runs state.partStart ∧
    List.Forall₂ (IsPartOf config chunk) state.parts runs
  current : state.currentLines = ((lines chunk.content).take count).drop state.partStart
  grown : state.partStart = count ∧ count = 0 ∨
    Greedy.Grown (WithinTarget config tokenizer chunk) state.partStart count

namespace LineSplit.Divides

variable {state : LineSplit} {count : ℕ}

theorem partStart_le (h : state.Divides config tokenizer chunk count) :
    state.partStart ≤ count := by
  rcases h.grown with ⟨h, -⟩ | h
  · exact h.le
  · exact h.lt.le

/-- A part that starts with the chunk is the first one. -/
theorem bare_eq (h : state.Divides config tokenizer chunk count) :
    state.bare config = (config.contextInFirstPartOnly && decide (state.partStart ≠ 0)) := by
  obtain ⟨runs, hfull, hparts⟩ := h.full
  have hnil : state.parts = [] ↔ state.partStart = 0 := by
    rw [← List.length_eq_zero_iff, hparts.length_eq, List.length_eq_zero_iff, hfull.eq_nil_iff,
      eq_comm]
  have hlater : (!state.parts.isEmpty) = decide (state.partStart ≠ 0) := by
    rw [Bool.eq_iff_iff, Bool.not_eq_true', decide_eq_true_iff, ← Bool.not_eq_true,
      List.isEmpty_iff, hnil]
  rw [LineSplit.bare, hlater]

/-- The current lines as a part, with the place up to which they go. -/
theorem isPartOf (h : state.Divides config tokenizer chunk count) (id : ChunkId) :
    IsPartOf config chunk (makePartChunk id chunk state.partStart count
      (joinLines state.currentLines) (state.bare config)) (state.partStart, count) :=
  ⟨id, by rw [h.bare_eq, h.current]; rfl⟩

/-- **Reading a line keeps the division.** -/
theorem read (h : state.Divides config tokenizer chunk count) {line : String}
    (hline : (lines chunk.content)[count]? = some line) :
    (state.read config (countText tokenizer) chunk (line, count)).Divides config tokenizer chunk
      (count + 1) := by
  have htake : (lines chunk.content).take (count + 1) =
      (lines chunk.content).take count ++ [line] := by
    rw [List.take_add_one, hline, Option.toList_some]
  have hlength : ((lines chunk.content).take count).length = count :=
    List.length_take_of_le (List.getElem?_eq_some_iff.1 hline).1.le
  have hcandidate : state.currentLines ++ [line] =
      ((lines chunk.content).take (count + 1)).drop state.partStart := by
    rw [h.current, htake, List.drop_append_of_le_length (by rw [hlength]; exact h.partStart_le)]
  have hmeasured : ∀ id, tokenCountOrEstimate (countText tokenizer) (makePartChunk id chunk
      state.partStart (count + 1) (joinLines (state.currentLines ++ [line])) (state.bare config)) =
        tokensOf tokenizer (partOf config chunk (state.partStart, count + 1)) := fun id ↦ by
    rw [h.bare_eq, hcandidate]
    rfl
  have hempty : state.currentLines.isEmpty = true ↔ state.partStart = count := by
    rw [List.isEmpty_iff, h.current, List.drop_eq_nil_iff, hlength]
    exact ⟨fun hle ↦ le_antisymm h.partStart_le hle, fun heq ↦ heq.ge⟩
  unfold LineSplit.read
  extract_lets candidate part
  rw [hmeasured]
  split
  next hcut =>
    -- The line would not fit: the run is full, and the line starts the next one.
    rw [Bool.and_eq_true, Bool.not_eq_true', ← Bool.not_eq_true, hempty, decide_eq_true_iff]
      at hcut
    have hgrown := h.grown.resolve_left fun hstart ↦ hcut.1 hstart.1
    obtain ⟨runs, hfull, hparts⟩ := h.full
    refine ⟨⟨_, hfull.concat hgrown (Nat.not_le.2 hcut.2),
      List.rel_append hparts (.cons (h.isPartOf _) .nil)⟩, ?_, Or.inr (.single _ count)⟩
    rw [htake]
    exact (List.drop_left' hlength).symm
  next hkeep =>
    refine ⟨h.full, hcandidate, Or.inr ?_⟩
    rcases h.grown with ⟨hstart, -⟩ | hgrown
    · exact hstart ▸ .single _ _
    · rw [Bool.and_eq_true, Bool.not_eq_true', ← Bool.not_eq_true, hempty, decide_eq_true_iff,
        not_and, Nat.not_lt] at hkeep
      exact hgrown.succ (hkeep hgrown.lt.ne)

theorem foldl (h : state.Divides config tokenizer chunk count) (ls : List String)
    (hls : (lines chunk.content).drop count = ls) :
    ((ls.zipIdx count).foldl (LineSplit.read config (countText tokenizer) chunk) state).Divides
      config tokenizer chunk (count + ls.length) := by
  induction ls generalizing state count with
  | nil => exact h
  | cons line rest ih =>
    have hline : (lines chunk.content)[count]? = some line := by
      rw [← List.head?_drop, hls, List.head?_cons]
    have hrest : (lines chunk.content).drop (count + 1) = rest := by
      rw [← List.tail_drop, hls, List.tail_cons]
    rw [List.zipIdx_cons, List.foldl_cons, List.length_cons, Nat.add_comm rest.length,
      ← Nat.add_assoc]
    exact ih (h.read hline) hrest

end LineSplit.Divides

/-- **A chunk of two lines or more is cut as it is divided**: kept whole if that leaves one run. -/
theorem splitLeafChunk_divided (next : ℕ) (hlines : 2 ≤ (lines chunk.content).length) :
    ∃ runs, DividedInto config tokenizer chunk runs ∧
      if runs.length ≤ 1 then
        (splitLeafChunk config (countText tokenizer) chunk next).1 = [chunk]
      else ∃ parts, (splitLeafChunk config (countText tokenizer) chunk next).1 =
        numberParts parts ∧ List.Forall₂ (IsPartOf config chunk) parts runs := by
  unfold splitLeafChunk
  extract_lets chunkLines state
  have hdivides : state.Divides config tokenizer chunk chunkLines.length := by
    have hstart : (⟨[], 0, [], next⟩ : LineSplit).Divides config tokenizer chunk 0 :=
      ⟨⟨[], .nil 0, .nil⟩, by simp, Or.inl ⟨rfl, rfl⟩⟩
    simpa using hstart.foldl chunkLines rfl
  have hseveral : ¬ chunkLines.length ≤ 1 := Nat.not_le.2 hlines
  have hgrown := hdivides.grown.resolve_left fun hnone ↦ hseveral (hnone.2 ▸ Nat.zero_le 1)
  have hcurrent : ¬ state.currentLines.isEmpty = true := by
    rw [List.isEmpty_iff, hdivides.current, List.drop_eq_nil_iff, List.take_length, Nat.not_le]
    exact hgrown.lt
  obtain ⟨runs, hfull, hparts⟩ := hdivides.full
  have hall := List.rel_append hparts (.cons (hdivides.isPartOf ⟨state.next⟩) .nil)
  refine ⟨_, hfull.division hgrown, ?_⟩
  rw [if_neg hseveral, if_neg hcurrent, ← hall.length_eq]
  simp only
  split
  next hone => rfl
  next hseveral => exact ⟨_, rfl, hall⟩

/-- **The pieces of a chunk are within the hard bound exactly when it is cut within it.** -/
theorem splitChunk_within_iff (hconfig : config.targetTokens ≤ config.hardMaxTokens) (next : ℕ) :
    (∀ piece ∈ (splitChunk config (countText tokenizer) chunk next).1,
      2 ≤ (lines piece.content).length → tokensOf tokenizer piece ≤ config.hardMaxTokens) ↔
      CutsWithinBound config tokenizer chunk := by
  -- Within the target the chunk is its own only piece.
  by_cases hover : config.targetTokens < tokensOf tokenizer chunk
  swap
  · rw [splitChunk, if_neg hover]
    refine iff_of_true ?_ fun h ↦ absurd h hover
    rintro piece hpiece -
    rw [List.mem_singleton.1 hpiece]
    exact (Nat.not_lt.1 hover).trans hconfig
  -- A single line is not cut, and is outside what is promised.
  by_cases hlines : 2 ≤ (lines chunk.content).length
  swap
  · have hwhole : splitLeafChunk config (countText tokenizer) chunk next = ([chunk], next) := by
      rw [splitLeafChunk, if_pos (by omega)]
    rw [splitChunk, if_pos hover, hwhole]
    refine iff_of_true (fun piece hpiece hpiece' ↦ ?_) fun _ h ↦ absurd h hlines
    rw [List.mem_singleton.1 hpiece] at hpiece'
    exact absurd hpiece' hlines
  obtain ⟨runs, hruns, hpieces⟩ := @splitLeafChunk_divided config tokenizer chunk next hlines
  -- The runs of lines are determined, so the condition speaks of these.
  have hcuts : CutsWithinBound config tokenizer chunk ↔
      if runs.length ≤ 1 then tokensOf tokenizer chunk ≤ config.hardMaxTokens
      else ∀ (idx : ℕ) (run : ℕ × ℕ), runs[idx]? = some run →
        2 ≤ (lines (partOf config chunk run).content).length →
          tokensOf tokenizer (numbered (partOf config chunk run) (idx + 1) runs.length) ≤
            config.hardMaxTokens :=
    ⟨fun h ↦ h hover hlines runs hruns, fun h _ _ other hother ↦ hruns.unique hother ▸ h⟩
  rw [splitChunk, if_pos hover, hcuts]
  split at hpieces
  next hone => rw [hpieces, if_pos hone, List.forall_mem_singleton]; exact imp_iff_right hlines
  next hseveral =>
    obtain ⟨parts, hparts, hrel⟩ := hpieces
    rw [hparts, if_neg hseveral, numberParts]
    constructor
    · intro h idx run hrun hcontent
      obtain ⟨part, hpart, id, rfl⟩ : ∃ part, parts[idx]? = some part ∧
          IsPartOf config chunk part run := by
        have hidx : idx < parts.length := by
          rw [hrel.length_eq]
          exact (List.getElem?_eq_some_iff.1 hrun).1
        have hat := hrel.get hidx (hrel.length_eq ▸ hidx)
        simp only [List.get_eq_getElem, (List.getElem?_eq_some_iff.1 hrun).2] at hat
        exact ⟨_, List.getElem?_eq_getElem hidx, hat⟩
      rw [← hrel.length_eq]
      refine h (numbered { partOf config chunk run with id } (idx + 1) parts.length)
        (List.mem_iff_getElem?.2 ⟨idx, ?_⟩) hcontent
      rw [List.getElem?_mapIdx, hpart]
      rfl
    · intro h piece hpiece hcontent
      obtain ⟨idx, hidx, rfl⟩ := List.mem_mapIdx.1 hpiece
      have hidx' : idx < runs.length := hrel.length_eq ▸ hidx
      obtain ⟨id, hpart⟩ := hrel.get hidx hidx'
      rw [List.get_eq_getElem, List.get_eq_getElem] at hpart
      have hbound := h idx runs[idx] (List.getElem?_eq_getElem hidx')
      rw [hpart] at hcontent ⊢
      rw [hrel.length_eq]
      exact hbound hcontent

theorem forall_mem_iff_of_forall₂ {α β : Type} {R : α → β → Prop} {p : α → Prop} {q : β → Prop}
    {l : List α} {l' : List β} (h : List.Forall₂ R l l') (hiff : ∀ a b, R a b → (p a ↔ q b)) :
    (∀ a ∈ l, p a) ↔ ∀ b ∈ l', q b := by
  induction h with
  | nil => simp
  | cons hab _ ih => rw [List.forall_mem_cons, List.forall_mem_cons, hiff _ _ hab, ih]

/-- The hard bound, chunk by chunk: each that is not dropped, under the name that it comes out with,
is cut within it. -/
theorem hardBound_iff_cutsWithin (hconfig : config.targetTokens ≤ config.hardMaxTokens)
    (chunks : List CodeChunk) (next : ℕ) :
    HardBound config tokenizer chunks next ↔
      ∀ (idx : ℕ) (chunk : CodeChunk), chunks[idx]? = some chunk →
        ¬ Dropped config (countText tokenizer) chunks idx →
          CutsWithinBound config tokenizer (withSkippedParent chunks
            (skipContainer config (countText tokenizer) chunks) idx chunk) := by
  obtain ⟨pieces, hpieces, hfold⟩ := @cutAt_foldl config (countText tokenizer) chunks
    chunks.zipIdx ([], next)
  have hchunk : ∀ (chunk : CodeChunk × ℕ) (pieces : List CodeChunk),
      CutAt config (countText tokenizer) chunks chunk pieces →
        ((¬ Dropped config (countText tokenizer) chunks chunk.2 →
          CutsWithinBound config tokenizer (withSkippedParent chunks
            (skipContainer config (countText tokenizer) chunks) chunk.2 chunk.1)) ↔
          ∀ piece ∈ pieces, 2 ≤ (lines piece.content).length →
            tokensOf tokenizer piece ≤ config.hardMaxTokens) := by
    intro chunk pieces hcut
    unfold CutAt at hcut
    split at hcut
    next hdropped =>
      subst hcut
      exact iff_of_true (fun hkept ↦ absurd hdropped hkept) (List.forall_mem_nil _)
    next hkept =>
      obtain ⟨next, rfl⟩ := hcut
      rw [splitChunk_within_iff hconfig]
      exact imp_iff_right hkept
  rw [HardBound, splitOversizedChunks, hfold, List.nil_append, List.forall_mem_flatten,
    ← forall_mem_iff_of_forall₂ hpieces hchunk]
  constructor
  · intro h idx chunk hidx
    exact h (chunk, idx) (List.mk_mem_zipIdx_iff_getElem?.2 hidx)
  · rintro h ⟨chunk, idx⟩ hmem
    exact h idx chunk (List.mk_mem_zipIdx_iff_getElem?.1 hmem)

/-- **Room for what a tokenizer adds is enough.** -/
theorem hardBound_of_adds {extra : ℕ} (hadds : AddsAtMost tokenizer extra)
    (hroom : config.targetTokens + extra ≤ config.hardMaxTokens) (chunks : List CodeChunk)
    (next : ℕ) : HardBound config tokenizer chunks next := by
  rw [hardBound_iff_cutsWithin ((Nat.le_add_right _ _).trans hroom)]
  intro idx chunk _ _ hover hlines runs hruns
  generalize withSkippedParent _ _ idx chunk = kept at hlines hruns ⊢
  have hmeasured : ∀ run ∈ runs, run.1 + 1 < run.2 →
      tokensOf tokenizer (partOf config kept run) ≤ config.targetTokens := fun run hrun hlt ↦
    (hruns.grown run hrun).fits run.2 hlt le_rfl
  split
  next hone =>
    -- The only run has all the lines.
    cases hruns with
    | last hgrown =>
      have hwhole : partOf config kept (0, (lines kept.content).length) = rejoined kept := by
        rw [partOf, List.take_length, List.drop_zero, rejoined]
        simp
      have hfits := hmeasured _ (List.mem_singleton_self _) hlines
      rw [hwhole] at hfits
      exact (hadds.rejoin kept).trans ((Nat.add_le_add_right hfits _).trans hroom)
    | cons _ _ hrest =>
      have hpos : 0 < (List.length _) := List.length_pos_iff.2 hrest.ne_nil
      rw [List.length_cons] at hone
      omega
  next =>
    intro i run hrun hcontent
    have hfits := hmeasured run (List.mem_of_getElem? hrun) (by
      by_contra hshort
      exact absurd hcontent (Nat.not_le.2 (Nat.lt_succ_of_le (length_lines_partOf_le hshort))))
    exact (hadds.number _ _ _).trans ((Nat.add_le_add_right hfits _).trans hroom)

end Bound
/-- **What is stored is within the hard bound exactly when each chunk that is not dropped is cut
within it**: for all limits as they are accepted, every tokenizer and every list of chunks. A chunk
is cut under the name of a dropped one around it, if there is one. -/
theorem hardBound_iff (target hardMax : ℕ) (on : Bool) (tokenizer : String → Option ℕ)
    (chunks : List CodeChunk) (next : ℕ) :
    let config := (ChunkSplitConfig.new target hardMax).withContextInFirstPartOnly on
    HardBound config tokenizer chunks next ↔
      ∀ (idx : ℕ) (chunk : CodeChunk), chunks[idx]? = some chunk →
        ¬ Dropped config (countText tokenizer) chunks idx →
          CutsWithinBound config tokenizer (withSkippedParent chunks
            (skipContainer config (countText tokenizer) chunks) idx chunk) :=
  hardBound_iff_cutsWithin (le_max_right _ _) chunks next

/-! ### A tokenizer that needs the room -/

section Congr

variable {config config' : ChunkSplitConfig} {tokenCount tokenCount' : CodeChunk → Option ℕ}

/-- **Splitting depends on the counts only through what is over the target.** -/
theorem splitOversizedChunks_congr
    (hover : ∀ chunk, config.targetTokens < tokenCountOrEstimate tokenCount chunk ↔
      config'.targetTokens < tokenCountOrEstimate tokenCount' chunk)
    (hbare : config.contextInFirstPartOnly = config'.contextInFirstPartOnly)
    (chunks : List CodeChunk) (next : ℕ) :
    splitOversizedChunks config tokenCount chunks next =
      splitOversizedChunks config' tokenCount' chunks next := by
  have hdecide : ∀ chunk, decide (config.targetTokens < tokenCountOrEstimate tokenCount chunk) =
      decide (config'.targetTokens < tokenCountOrEstimate tokenCount' chunk) := fun chunk ↦
    decide_eq_decide.2 (hover chunk)
  have hstate : ∀ state : LineSplit, state.bare config = state.bare config' := fun state ↦ by
    rw [LineSplit.bare, LineSplit.bare, hbare]
  have hread : LineSplit.read config tokenCount = LineSplit.read config' tokenCount' := by
    funext chunk state line
    simp only [LineSplit.read, hstate, hdecide]
  have hleaf : splitLeafChunk config tokenCount = splitLeafChunk config' tokenCount' := by
    funext chunk next
    simp only [splitLeafChunk, hread, hstate]
  have hskip : skipContainer config tokenCount = skipContainer config' tokenCount' := by
    funext chunks
    simp only [skipContainer, ← Nat.not_lt, hover]
  have hnext : splitNext config tokenCount chunks = splitNext config' tokenCount' chunks := by
    funext output chunk
    simp only [splitNext, splitChunk, hskip, hleaf, hover]
  rw [splitOversizedChunks, splitOversizedChunks, hnext]

end Congr

/-- A token a line. -/
def lineTokens (text : String) : Option ℕ := some (lines text).length

/-- As many tokens as the target, and some more for a text of more than six lines. -/
def stepTokens (target extra : ℕ) (text : String) : Option ℕ :=
  some (if 6 < (lines text).length then target + extra else target)

/-- A function of three lines; its embedded text has seven. -/
def threeLines : CodeChunk where
  id := ⟨0⟩
  content := "f \x7b\na\n\x7d"
  context :=
    { filePath := ["a"]
      modulePath := []
      symbolName := "f"
      symbolKind := "function"
      docstring := none
      imports := []
      outgoingCalls := []
      parentSymbolName := none
      splitPart := none
      splitTotal := none
      lineStart := 1
      lineEnd := 3 }

/-- **A part over the hard bound**: of two lines, cut to six lines of text and stored with seven. -/
theorem exists_part_over_bound (on : Bool) :
    ∃ part ∈ (splitOversizedChunks ((ChunkSplitConfig.new 6 6).withContextInFirstPartOnly on)
      (countText lineTokens) [threeLines] 1).1, 2 ≤ (lines part.content).length ∧
        6 < (lines part.formatForEmbedding).length := by
  cases on <;> decide +kernel

theorem tokensOf_stepTokens {target extra : ℕ} (htarget : 1 ≤ target) (chunk : CodeChunk) :
    tokensOf (stepTokens target extra) chunk =
      if 6 < (lines chunk.formatForEmbedding).length then target + extra else target := by
  rw [tokensOf, tokenCountOrEstimate, countText, stepTokens, Option.getD_some]
  split <;> omega

theorem addsAtMost_stepTokens {target extra : ℕ} (htarget : 1 ≤ target) :
    AddsAtMost (stepTokens target extra) extra := by
  -- Whatever the texts: the target, or that much more.
  have hbounds : ∀ chunk, target ≤ tokensOf (stepTokens target extra) chunk ∧
      tokensOf (stepTokens target extra) chunk ≤ target + extra := by
    intro chunk
    rw [tokensOf_stepTokens htarget]
    split <;> omega
  refine ⟨fun part idx total ↦ ?_, fun chunk ↦ ?_⟩
  · exact (hbounds _).2.trans (Nat.add_le_add_right (hbounds part).1 _)
  · exact (hbounds _).2.trans (Nat.add_le_add_right (hbounds (rejoined chunk)).1 _)

theorem tokensOf_lineTokens (chunk : CodeChunk) :
    tokensOf lineTokens chunk = max (lines chunk.formatForEmbedding).length 1 := by
  rw [tokensOf, tokenCountOrEstimate, countText, lineTokens, Option.getD_some]

/-- **The hard bound holds for every tokenizer that adds at most `extra` tokens exactly when it
leaves room for them over the target.** -/
theorem forall_hardBound_iff (target hardMax extra : ℕ) (on : Bool) :
    (∀ tokenizer, AddsAtMost tokenizer extra → ∀ chunks next,
      HardBound ((ChunkSplitConfig.new target hardMax).withContextInFirstPartOnly on) tokenizer
        chunks next) ↔
      (ChunkSplitConfig.new target hardMax).targetTokens + extra ≤
        (ChunkSplitConfig.new target hardMax).hardMaxTokens := by
  constructor
  · intro h
    by_contra hroom
    have htarget : 1 ≤ (ChunkSplitConfig.new target hardMax).targetTokens := le_max_right _ _
    have haccepted : (ChunkSplitConfig.new target hardMax).targetTokens ≤
        (ChunkSplitConfig.new target hardMax).hardMaxTokens := le_max_right _ _
    obtain ⟨part, hpart, hlines, hlong⟩ := exists_part_over_bound on
    -- Over the target with this tokenizer is over six lines.
    have hover : ∀ chunk, (ChunkSplitConfig.new target hardMax).targetTokens <
        tokensOf (stepTokens (ChunkSplitConfig.new target hardMax).targetTokens extra) chunk ↔
          (ChunkSplitConfig.new 6 6).targetTokens < tokensOf lineTokens chunk := by
      intro chunk
      show _ ↔ 6 < tokensOf lineTokens chunk
      rw [tokensOf_stepTokens htarget, tokensOf_lineTokens]
      split <;> omega
    have hsame := @splitOversizedChunks_congr
      ((ChunkSplitConfig.new target hardMax).withContextInFirstPartOnly on)
      ((ChunkSplitConfig.new 6 6).withContextInFirstPartOnly on)
      (countText (stepTokens (ChunkSplitConfig.new target hardMax).targetTokens extra))
      (countText lineTokens) hover rfl [threeLines] 1
    have hstored : ∀ output, output =
        splitOversizedChunks ((ChunkSplitConfig.new 6 6).withContextInFirstPartOnly on)
          (countText lineTokens) [threeLines] 1 → part ∈ output.1 := by
      rintro output rfl
      exact hpart
    have hbound := h _ (addsAtMost_stepTokens htarget) [threeLines] 1 part (hstored _ hsame) hlines
    rw [tokensOf_stepTokens htarget, if_pos hlong] at hbound
    exact hroom hbound
  · intro hroom tokenizer hadds chunks next
    have hroom' : ((ChunkSplitConfig.new target hardMax).withContextInFirstPartOnly
        on).targetTokens + extra ≤ ((ChunkSplitConfig.new target
          hardMax).withContextInFirstPartOnly on).hardMaxTokens := hroom
    exact hardBound_of_adds hadds hroom' chunks next

/-- **The bound is exceeded** by a token a line, with a target and a hard bound of six. -/
theorem part_over_hard_bound : ¬ HardBound (.new 6 6) lineTokens [threeLines] 1 := by
  intro h
  obtain ⟨part, hpart, hlines, hlong⟩ := exists_part_over_bound false
  have hbound := h part hpart hlines
  rw [tokensOf_lineTokens] at hbound
  exact absurd (hlong.trans_le ((le_max_left _ _).trans hbound)) (lt_irrefl 6)

end RustCodeMcp
